import FastRing.Accounting

/-! # The pipeline with split updates of `dropped_samples`

`stats->dropped_samples++` in `adc_sample_callback` and `stats->dropped_samples += ...`
in `process_thread_worker` run on two threads without a lock: each is a load and a
later store. Everything else is as in `Pipeline`. A thread that has loaded the counter
keeps the value until it stores; as long as only one thread at a time does so, the
two steps amount to the single update of `Pipeline`. -/

namespace FastRing

/-- The pipeline, and what each of the two threads has loaded of `dropped_samples` and
not yet stored. -/
structure SplitPipeline where
  pipeline : Pipeline
  callbackLoad : Option UInt64
  processLoad : Option UInt64

namespace SplitPipeline

open Pipeline (Inv Counted)

variable {s t : SplitPipeline}

def init (c2p p2n : RingBuffer AdcSample) (startTime : UInt64) (allocated : Nat → Bool) :
    SplitPipeline :=
  { pipeline := .init c2p p2n startTime allocated, callbackLoad := none, processLoad := none }

/-- The callback goes on; a refused sample is counted by a load and a store. -/
def callbackStep (s : SplitPipeline) : Option SplitPipeline :=
  match s.pipeline.captureToProcess.producer with
  | .pushDone _ false =>
    match s.callbackLoad with
    | none => some { s with callbackLoad := some s.pipeline.stats.droppedSamples }
    | some v =>
      some { s with
        pipeline := { s.pipeline with
          captureToProcess := { s.pipeline.captureToProcess with producer := .idle }
          stats := { s.pipeline.stats with droppedSamples := v + 1 } }
        callbackLoad := none }
  | _ => s.pipeline.callbackStep.map fun p => { s with pipeline := p }

/-- The process thread goes on; refused samples are counted by a load and a store. -/
def processStep (s : SplitPipeline) : Option SplitPipeline :=
  match s.pipeline.processToNetwork.producer with
  | .batchDone b pushed =>
    if pushed < b.count then
      match s.processLoad with
      | none => some { s with processLoad := some s.pipeline.stats.droppedSamples }
      | some v =>
        some { s with
          pipeline := { s.pipeline with
            processToNetwork := { s.pipeline.processToNetwork with producer := .idle }
            stats := { s.pipeline.stats with
              droppedSamples := v + (b.count - pushed).toUInt64 } }
          processLoad := none }
    else s.pipeline.processStep.map fun p => { s with pipeline := p }
  | _ => s.pipeline.processStep.map fun p => { s with pipeline := p }

def step (s : SplitPipeline) : Pipeline.Label → Option SplitPipeline
  | .callback => s.callbackStep
  | .process => s.processStep
  | l => (s.pipeline.step l).map fun p => { s with pipeline := p }

/-- The callback is about to count a refused sample. -/
def callbackCounts (s : SplitPipeline) : Bool :=
  match s.pipeline.captureToProcess.producer with
  | .pushDone _ false => true
  | _ => false

/-- The process thread is about to count refused samples. -/
def processCounts (s : SplitPipeline) : Bool :=
  match s.pipeline.processToNetwork.producer with
  | .batchDone b pushed => decide (pushed < b.count)
  | _ => false

/-- A thread that loads the counter does so while the other holds no loaded value. -/
def exclusive (s : SplitPipeline) : Pipeline.Label → Prop
  | .callback => s.callbackCounts = true → s.callbackLoad = none → s.processLoad = none
  | .process => s.processCounts = true → s.processLoad = none → s.callbackLoad = none
  | _ => True

instance (s : SplitPipeline) : (l : Pipeline.Label) → Decidable (exclusive s l)
  | .callback | .process => inferInstanceAs (Decidable (_ → _ → _))
  | .capture _ _ | .network _ => inferInstanceAs (Decidable True)

/-! ## One thread at a time -/

/-- A loaded value is the counter's, its thread is about to store, and no two threads
have loaded. -/
structure Loaded (s : SplitPipeline) : Prop where
  callback : ∀ v, s.callbackLoad = some v →
    s.callbackCounts = true ∧ v = s.pipeline.stats.droppedSamples
  process : ∀ v, s.processLoad = some v →
    s.processCounts = true ∧ v = s.pipeline.stats.droppedSamples
  single : s.callbackLoad = none ∨ s.processLoad = none

theorem Loaded.callback_none (h : Loaded s) (hc : s.callbackCounts = false) :
    s.callbackLoad = none := by
  cases hv : s.callbackLoad with
  | none => rfl
  | some v => rw [(h.callback v hv).1] at hc; cases hc

theorem Loaded.process_none (h : Loaded s) (hc : s.processCounts = false) :
    s.processLoad = none := by
  cases hv : s.processLoad with
  | none => rfl
  | some v => rw [(h.process v hv).1] at hc; cases hc

/-- A step that leaves the counter and the position of each loading thread alone. -/
theorem Loaded.frame (h : Loaded s) {p : Pipeline}
    (hd : p.stats.droppedSamples = s.pipeline.stats.droppedSamples)
    (hc : s.callbackLoad = none ∨
      p.captureToProcess.producer = s.pipeline.captureToProcess.producer)
    (hp : s.processLoad = none ∨
      p.processToNetwork.producer = s.pipeline.processToNetwork.producer) :
    Loaded { s with pipeline := p } := by
  refine ⟨fun v hv => ?_, fun v hv => ?_, h.single⟩
  · rcases hc with hnone | heq
    · cases hnone.symm.trans hv
    · obtain ⟨hcount, rfl⟩ := h.callback v hv
      simp only [callbackCounts, heq] at hcount ⊢
      exact ⟨hcount, hd.symm⟩
  · rcases hp with hnone | heq
    · cases hnone.symm.trans hv
    · obtain ⟨hcount, rfl⟩ := h.process v hv
      simp only [processCounts, heq] at hcount ⊢
      exact ⟨hcount, hd.symm⟩

/-! ## What the steps of the pipeline leave alone -/

section Frame

variable {p p' : Pipeline}

theorem capture_frame {currentTime : UInt64} {value : Int32}
    (h : p.capture currentTime value = some p') :
    p.captureToProcess.producer = .idle ∧ p'.processToNetwork = p.processToNetwork ∧
      p'.stats = p.stats := by
  unfold Pipeline.capture at h
  split at h
  · rename_i hp
    cases h
    exact ⟨hp, rfl, rfl⟩
  · cases h

theorem callbackStep_dropped (h : p.callbackStep = some p')
    (hp : ∀ x, p.captureToProcess.producer ≠ .pushDone x false) :
    p'.processToNetwork = p.processToNetwork ∧
      p'.stats.droppedSamples = p.stats.droppedSamples := by
  cases Pipeline.callbackStep_move h with
  | push => exact ⟨rfl, rfl⟩
  | @count x accepted pos =>
    cases accepted with
    | true => exact ⟨rfl, rfl⟩
    | false => exact absurd pos (hp x)

theorem processStep_dropped (h : p.processStep = some p')
    (hp : ∀ b pushed, p.processToNetwork.producer = .batchDone b pushed → ¬ pushed < b.count) :
    p'.captureToProcess.producer = p.captureToProcess.producer ∧
      p'.stats.droppedSamples = p.stats.droppedSamples := by
  cases Pipeline.processStep_move h with
  | start | noData | forward | push => exact ⟨rfl, rfl⟩
  | pop _ _ access =>
    obtain ⟨_, _, _, hpr⟩ := Spsc.consumerStep_flow access
    exact ⟨hpr, rfl⟩
  | @count b pushed pos =>
    exact ⟨rfl, by rw [SystemStats.countForward, if_neg (hp b pushed pos)]⟩

theorem networkStep_dropped {env : NetworkEnv} (h : p.networkStep env = some p') :
    p'.stats.droppedSamples = p.stats.droppedSamples := by
  cases Pipeline.networkStep_move h with
  | noClient | connect | start | pop | takeOver | fill | lose | send => rfl
  | count => exact SystemStats.countSend_dropped _ _ _

end Frame

/-! ## The updates are atomic again

Under `exclusive` a load changes nothing in the pipeline, and a store does what the
whole update does in `Pipeline`. -/

theorem callbackStep_atomic (h : Loaded s) (hx : exclusive s .callback)
    (hs : s.callbackStep = some t) :
    Loaded t ∧ (t.pipeline = s.pipeline ∨ s.pipeline.callbackStep = some t.pipeline) := by
  unfold callbackStep at hs
  split at hs
  · rename_i x hp
    have hcount : s.callbackCounts = true := by rw [callbackCounts, hp]
    split at hs
    · rename_i hnone
      cases hs
      have hnp : s.processLoad = none := hx hcount hnone
      refine ⟨⟨?_, h.process, .inr hnp⟩, .inl rfl⟩
      rintro v ⟨⟩
      exact ⟨hcount, rfl⟩
    · rename_i v hv
      cases hs
      obtain ⟨_, rfl⟩ := h.callback v hv
      have hnp : s.processLoad = none := by
        rcases h.single with hc | hp
        · cases hv.symm.trans hc
        · exact hp
      refine ⟨⟨fun v hv => ?_, fun v hv => ?_, .inl rfl⟩, .inr ?_⟩
      · cases hv
      · cases hnp.symm.trans hv
      · simp only [Pipeline.callbackStep, hp]
        rfl
  · rename_i hne
    obtain ⟨p, hp, rfl⟩ := Option.map_eq_some_iff.mp hs
    have hcount : s.callbackCounts = false := by
      unfold callbackCounts
      split
      · rename_i x hp
        exact absurd hp (hne x)
      · rfl
    obtain ⟨hp2n, hd⟩ := callbackStep_dropped hp hne
    exact ⟨h.frame hd (.inl (h.callback_none hcount)) (.inr (by rw [hp2n])), .inr hp⟩

theorem processStep_atomic (h : Loaded s) (hx : exclusive s .process)
    (hs : s.processStep = some t) :
    Loaded t ∧ (t.pipeline = s.pipeline ∨ s.pipeline.processStep = some t.pipeline) := by
  -- a step of the pipeline that counts nothing
  have hquiet : (∀ b pushed, s.pipeline.processToNetwork.producer = .batchDone b pushed →
      ¬ pushed < b.count) → s.pipeline.processStep.map (fun p => { s with pipeline := p }) = some t →
      Loaded t ∧ (t.pipeline = s.pipeline ∨ s.pipeline.processStep = some t.pipeline) := by
    intro hne hmap
    obtain ⟨p, hp, rfl⟩ := Option.map_eq_some_iff.mp hmap
    have hcount : s.processCounts = false := by
      unfold processCounts
      split
      · rename_i b pushed hp
        exact decide_eq_false (hne b pushed hp)
      · rfl
    obtain ⟨hc2p, hd⟩ := processStep_dropped hp hne
    exact ⟨h.frame hd (.inr hc2p) (.inl (h.process_none hcount)), .inr hp⟩
  unfold processStep at hs
  split at hs
  · rename_i b pushed hp
    split at hs
    · rename_i hlt
      have hcount : s.processCounts = true := by rw [processCounts, hp]; exact decide_eq_true hlt
      split at hs
      · rename_i hnone
        cases hs
        have hnc : s.callbackLoad = none := hx hcount hnone
        refine ⟨⟨h.callback, ?_, .inl hnc⟩, .inl rfl⟩
        rintro v ⟨⟩
        exact ⟨hcount, rfl⟩
      · rename_i v hv
        cases hs
        obtain ⟨_, rfl⟩ := h.process v hv
        have hnc : s.callbackLoad = none := by
          rcases h.single with hc | hp
          · exact hc
          · cases hv.symm.trans hp
        refine ⟨⟨fun v hv => ?_, fun v hv => ?_, .inr rfl⟩, .inr ?_⟩
        · cases hnc.symm.trans hv
        · cases hv
        · simp only [Pipeline.processStep, hp, SystemStats.countForward, if_pos hlt]
    · rename_i hge
      refine hquiet (fun b' pushed' hp' => ?_) hs
      cases hp.symm.trans hp'
      exact hge
  · rename_i hne
    exact hquiet (fun b pushed hp => absurd hp (hne b pushed)) hs

theorem step_atomic (h : Loaded s) {l : Pipeline.Label} (hx : exclusive s l)
    (hs : s.step l = some t) :
    Loaded t ∧ (t.pipeline = s.pipeline ∨ s.pipeline.step l = some t.pipeline) := by
  cases l with
  | callback => exact callbackStep_atomic h hx hs
  | process => exact processStep_atomic h hx hs
  | capture currentTime value =>
    obtain ⟨p, hp, rfl⟩ := Option.map_eq_some_iff.mp hs
    obtain ⟨hidle, hp2n, hstats⟩ := capture_frame hp
    have hcount : s.callbackCounts = false := by rw [callbackCounts, hidle]
    exact ⟨h.frame (by rw [hstats]) (.inl (h.callback_none hcount)) (.inr (by rw [hp2n])), .inr hp⟩
  | network env =>
    obtain ⟨p, hp, rfl⟩ := Option.map_eq_some_iff.mp hs
    obtain ⟨hc2p, hpr⟩ := Pipeline.networkStep_rings hp
    exact ⟨h.frame (networkStep_dropped hp) (.inr (by rw [hc2p])) (.inr hpr), .inr hp⟩

end SplitPipeline

end FastRing
