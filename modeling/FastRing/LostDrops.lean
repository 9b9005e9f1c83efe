import FastRing.SplitPipeline
import FastRing.WorkerRefinement

/-! # Lost counts of dropped samples

As long as the two threads that count dropped samples never hold loaded values of the
counter at the same time, `dropped_samples` is what the two rings refused. Nothing in
the program keeps them apart: once both rings are full, the callback and the process
thread can load the same value, and the store that comes second wipes out the count of
the other. That can happen with rings of any size. -/

namespace FastRing

namespace Pipeline

variable {p : Pipeline}

/-- Outside the callback and the process worker the counter is complete. -/
theorem Counted.dropped_eq (hi : Inv p) (hc : Counted p)
    (hcap : p.captureToProcess.producer = .idle) (hpush : p.processToNetwork.producer = .idle) :
    p.stats.droppedSamples = p.captureToProcess.rb.dropped + p.processToNetwork.rb.dropped := by
  obtain ⟨q, hq⟩ := hi.first
  obtain ⟨q', hq'⟩ := hi.second
  have hd := hc.dropped
  rw [hcap, hpush] at hd
  rw [hq.dropped, hq'.dropped, ← UInt64.toNat_inj]
  have hlt := UInt64.toNat_lt p.stats.droppedSamples
  simp only [Producer.rejected, UInt64.toNat_add, UInt64.toNat_ofNat'] at hd ⊢
  omega

end Pipeline

namespace SplitPipeline

open Pipeline (Inv Counted Matches)
open Runs

variable {s t : SplitPipeline} {p p' : Pipeline}

/-- The ADC capture thread is not inside `adc_sample_callback`, and the process thread
not inside an iteration. -/
structure Outside (s : SplitPipeline) : Prop where
  callback : s.pipeline.captureToProcess.producer = .idle
  pop : s.pipeline.captureToProcess.consumer = .idle
  push : s.pipeline.processToNetwork.producer = .idle

/-- The counter tells what the rings refused. -/
def Exact (s : SplitPipeline) : Prop :=
  s.pipeline.stats.droppedSamples =
    s.pipeline.captureToProcess.rb.dropped + s.pipeline.processToNetwork.rb.dropped

/-- In a run in which the threads count one at a time, no count is lost. -/
theorem dropped_exact (c2p p2n : RingBuffer AdcSample) (h : c2p.Fresh) (h' : p2n.Fresh)
    (startTime : UInt64) (allocated : Nat → Bool) (ls : List Pipeline.Label) (s : SplitPipeline)
    (hx : AllSteps step exclusive (init c2p p2n startTime allocated) ls)
    (hr : run step (init c2p p2n startTime allocated) ls = some s) (ho : Outside s) : Exact s := by
  have hinv : Loaded s ∧ Inv s.pipeline ∧ Counted s.pipeline := by
    refine invariant_of_steps (I := fun s => Loaded s ∧ Inv s.pipeline ∧ Counted s.pipeline)
      ?_ ?_ hx hr
    · intro s l t hi hok hs
      obtain ⟨hl, hinv, hc⟩ := hi
      obtain ⟨hl', heq | hstep⟩ := step_atomic hl hok hs
      · rw [heq]
        exact ⟨hl', hinv, hc⟩
      · exact ⟨hl', Pipeline.step_inv hinv hstep, Pipeline.step_counted hinv hc hstep⟩
    · refine ⟨⟨fun v hv => ?_, fun v hv => ?_, .inl rfl⟩,
        Pipeline.init_inv h h' startTime allocated, rfl, rfl, rfl, rfl⟩
      · cases hv
      · cases hv
  exact Counted.dropped_eq hinv.2.1 hinv.2.2 ho.callback ho.push

/-- A sample that is accepted, and one that is refused and counted. -/
def refusedRun : List Pipeline.Label := Pipeline.sampleRun 5 ++ Pipeline.sampleRun 4

theorem dropped_exact_refused : ∃ s : SplitPipeline,
    run step (init Pipeline.tinyRing Pipeline.tinyRing 0 fun _ => true) refusedRun = some s ∧
      Outside s ∧ Exact s ∧ s.pipeline.stats.droppedSamples = 1 := by
  refine ⟨_, rfl, ⟨rfl, rfl, rfl⟩, ?_, rfl⟩
  exact dropped_exact Pipeline.tinyRing Pipeline.tinyRing Pipeline.tinyRing_fresh
    Pipeline.tinyRing_fresh 0 (fun _ => true) refusedRun _ (by decide) rfl ⟨rfl, rfl, rfl⟩

/-! ## Full rings -/

/-- The pipeline with no thread inside an update. -/
def whole (p : Pipeline) : SplitPipeline :=
  { pipeline := p, callbackLoad := none, processLoad := none }

/-- An update whose load is directly followed by its store. -/
theorem whole_step {l : Pipeline.Label} (h : p.step l = some p') :
    Reaches step (whole p) (whole p') := by
  cases l with
  | capture currentTime value =>
    exact .single (l := .capture currentTime value) (by simp only [step, whole, h]; rfl)
  | network env => exact .single (l := .network env) (by simp only [step, whole, h]; rfl)
  | callback =>
    have h : p.callbackStep = some p' := h
    by_cases hp : ∃ x, p.captureToProcess.producer = .pushDone x false
    · obtain ⟨x, hp⟩ := hp
      simp only [Pipeline.callbackStep, hp, Option.some.injEq] at h
      have hload : step (whole p) .callback =
          some { whole p with callbackLoad := some p.stats.droppedSamples } := by
        simp only [step, callbackStep, whole, hp]
      refine (Reaches.single hload).trans (.single (l := .callback) ?_)
      simp only [step, callbackStep, whole, hp, ← h]
      rfl
    · refine .single (l := .callback) ?_
      simp only [step, callbackStep, whole]
      split
      · rename_i x hpos
        exact absurd ⟨x, hpos⟩ hp
      · rw [h]; rfl
  | process =>
    have h : p.processStep = some p' := h
    by_cases hp : ∃ b pushed, p.processToNetwork.producer = .batchDone b pushed ∧ pushed < b.count
    · obtain ⟨b, pushed, hp, hlt⟩ := hp
      simp only [Pipeline.processStep, hp, Option.some.injEq, SystemStats.countForward,
        if_pos hlt] at h
      have hload : step (whole p) .process =
          some { whole p with processLoad := some p.stats.droppedSamples } := by
        simp only [step, processStep, whole, hp, if_pos hlt]
      refine (Reaches.single hload).trans (.single (l := .process) ?_)
      simp only [step, processStep, whole, hp, if_pos hlt, ← h]
    · refine .single (l := .process) ?_
      simp only [step, processStep, whole]
      split
      · rename_i b pushed hpos
        rw [if_neg fun hlt => hp ⟨b, pushed, hpos, hlt⟩, h]; rfl
      · rw [h]; rfl

/-- Every state of the pipeline with atomic updates is reached with split ones. -/
theorem whole_reaches (h : Reaches Pipeline.step p p') : Reaches step (whole p) (whole p') := by
  obtain ⟨ls, hls⟩ := h
  induction ls generalizing p with
  | nil => cases hls; exact .refl _
  | cons l ls ih =>
    obtain ⟨m, hm, hrest⟩ := run_cons hls
    exact (whole_step hm).trans (ih hrest)

section Fill

variable {c2p p2n : RingBuffer AdcSample} {startTime : UInt64} {allocated : Nat → Bool}

/-- Between iterations the rings can hold `j` and `k` samples. -/
def Fillable (c2p p2n : RingBuffer AdcSample) (startTime : UInt64) (allocated : Nat → Bool)
    (j k : Nat) : Prop :=
  ∃ p s q q', Reaches Pipeline.step (.init c2p p2n startTime allocated) p ∧
    p.startTime = startTime ∧ Matches p s ∧
    s.captureToProcess.Holds q ∧ q.length = j ∧ s.captureToProcess.capacity = c2p.capacity ∧
    s.processToNetwork.Holds q' ∧ q'.length = k ∧ s.processToNetwork.capacity = p2n.capacity

theorem Fillable.sample {j k : Nat} (h : Fillable c2p p2n startTime allocated j k)
    (hj : j < c2p.capacity.toNat - 1) : Fillable c2p p2n startTime allocated (j + 1) k := by
  obtain ⟨p, s, q, q', hreach, hst, hm, hq, rfl, hcap, hq', hk, hcap'⟩ := h
  obtain ⟨x, hx⟩ : ∃ x, Pipeline.fromAdc p.startTime s (.sample x) := ⟨_, 0, 0, rfl⟩
  obtain ⟨p', hreach', hst', hm'⟩ := Pipeline.sample_simulated hm hx
  have hroom : q.length < s.captureToProcess.capacity.toNat - 1 := by rw [hcap]; exact hj
  rw [adcSampleCallback_eq hq, if_pos hroom] at hm'
  refine ⟨p', _, q ++ [x], q', hreach.trans hreach', hst'.trans hst, hm', ?_, ?_, hcap, hq', hk,
    hcap'⟩
  · exact hq.accept [x] 0 (by rw [List.length_singleton]; omega)
  · rw [List.length_append, List.length_singleton]

theorem Fillable.process (h : c2p.Fresh) (h' : p2n.Fresh) {k : Nat}
    (hf : Fillable c2p p2n startTime allocated 1 k) (hk : k < p2n.capacity.toNat - 1) :
    Fillable c2p p2n startTime allocated 0 (k + 1) := by
  obtain ⟨p, s, q, q', hreach, hst, hm, hq, hone, hcap, hq', rfl, hcap'⟩ := hf
  have hi := hreach.invariant (fun _ _ _ hi hs => Pipeline.step_inv hi hs)
    (Pipeline.init_inv h h' startTime allocated)
  obtain ⟨p', hreach', hst', hm'⟩ := Pipeline.process_simulated hi hm
  rw [processThreadWorker_eq hq hq' (k := 1) (j := 1) (by omega) (by rw [hcap']; omega)] at hm'
  refine ⟨p', _, q.drop 1, q' ++ q.take 1, hreach.trans hreach', hst'.trans hst, hm',
    hq.release (by omega), ?_, hcap, hq'.accept (q.take 1) 0 ?_, ?_, hcap'⟩
  · rw [List.length_drop]; omega
  · rw [List.length_take, hcap']; omega
  · rw [List.length_append, List.length_take]; omega

/-- One sample after the other fills the second ring, further ones the first. -/
theorem fillable (h : c2p.Fresh) (h' : p2n.Fresh) (startTime : UInt64) (allocated : Nat → Bool)
    {j k : Nat} (hj : j ≤ c2p.capacity.toNat - 1) (hk : k ≤ p2n.capacity.toNat - 1) :
    Fillable c2p p2n startTime allocated j k := by
  have hN := h.wf.two_le
  induction j with
  | zero =>
    induction k with
    | zero =>
      exact ⟨_, _, [], [], .refl _, rfl, Pipeline.init_matches _ _ _ _, h.holds, rfl, rfl, h'.holds,
        rfl, rfl⟩
    | succ k ih => exact ((ih (by omega)).sample (by omega)).process h h' (by omega)
  | succ j ih => exact (ih (by omega)).sample (by omega)

end Fill

/-! ## The race -/

/-- Both threads load, then both store: the process thread's count is all that is left. -/
theorem race {x : AdcSample} {b : Batch AdcSample} {pushed : UInt32}
    (hc : p.captureToProcess.producer = .pushDone x false)
    (hp : p.processToNetwork.producer = .batchDone b pushed) (hlt : pushed < b.count) :
    run step (whole p) [.callback, .process, .callback, .process] = some (whole { p with
      captureToProcess := { p.captureToProcess with producer := .idle }
      processToNetwork := { p.processToNetwork with producer := .idle }
      stats := { p.stats with
        droppedSamples := p.stats.droppedSamples + (b.count - pushed).toUInt64 } }) := by
  simp only [run, step, callbackStep, processStep, whole, hc, hp, if_pos hlt, Option.bind_some]

/-- The race loses the callback's count. -/
theorem race_inexact (hi : Inv p) (hcount : Counted p) {x : AdcSample} {b : Batch AdcSample}
    {pushed : UInt32} (hc : p.captureToProcess.producer = .pushDone x false)
    (hp : p.processToNetwork.producer = .batchDone b pushed) (hlt : pushed < b.count) :
    p.stats.droppedSamples + (b.count - pushed).toUInt64 ≠
      p.captureToProcess.rb.dropped + p.processToNetwork.rb.dropped := by
  obtain ⟨q, hq⟩ := hi.first
  obtain ⟨q', hq'⟩ := hi.second
  have hd := hcount.dropped
  rw [hc, hp] at hd
  rw [hq.dropped, hq'.dropped, ne_eq, ← UInt64.toNat_inj]
  have hle := UInt32.le_iff_toNat_le.mp (UInt32.le_of_lt hlt)
  simp only [Producer.rejected, UInt64.toNat_add, UInt64.toNat_ofNat', UInt32.toNat_toUInt64,
    UInt32.toNat_sub_of_le _ _ (UInt32.le_of_lt hlt), Bool.false_eq_true, if_false] at hd ⊢
  omega

/-- Both threads can be about to count at the same time. -/
theorem both_refused {c2p p2n : RingBuffer AdcSample} (h : c2p.Fresh) (h' : p2n.Fresh)
    (startTime : UInt64) (allocated : Nat → Bool) :
    ∃ p x b pushed, Reaches Pipeline.step (.init c2p p2n startTime allocated) p ∧
      p.captureToProcess.producer = .pushDone x false ∧ p.captureToProcess.consumer = .idle ∧
      p.processToNetwork.producer = .batchDone b pushed ∧ pushed < b.count := by
  have hN := h.wf.two_le
  obtain ⟨p, s, q, q', hreach, _, hm, hq, hlen, hcap, hq', hlen', hcap'⟩ :=
    fillable h h' startTime allocated (Nat.le_refl _) (Nat.le_refl _)
  rw [← hm.first] at hq hcap
  rw [← hm.second] at hq' hcap'
  -- a sample comes, and the first ring refuses it
  generalize hx : p.makeSample 0 0 = x
  let p₁ : Pipeline := { p with sequence := p.sequence + 1, generated := p.generated ++ [x] }
  have hcapture : Pipeline.step p (.capture 0 0) =
      some { p₁ with captureToProcess := { p.captureToProcess with producer := .push x } } := by
    simp only [Pipeline.step, Pipeline.capture, hm.captureIdle, hx]
    rfl
  obtain ⟨ring, hpath, hrb, hprod, hcons⟩ := Spsc.push_solo p.captureToProcess x
  rw [hq.push_eq, if_neg (by rw [hcap, hlen]; omega)] at hrb hprod
  have hrefused := (Reaches.single hcapture).trans (Pipeline.callback_run p₁ hpath)
  -- the process thread takes a batch, and the second ring refuses it
  have hq₁ : ring.rb.Holds q := by
    have := hq.accept [] 1 (by rw [List.length_nil, hcap, hlen]; omega)
    rw [List.append_nil] at this
    rw [hrb]
    exact this
  have h256 : (256 : UInt32).toNat = 256 := rfl
  obtain ⟨k, hk⟩ : ∃ k, k = min (256 : UInt32).toNat q.length := ⟨_, rfl⟩
  have hk0 : k ≠ 0 := by omega
  have hlenk : (q.take k).length = k := by rw [List.length_take]; omega
  obtain ⟨ring₂, ring', hreach', _, hprod₂, _, hprod', _⟩ :=
    Pipeline.process_forwarded (p := { p₁ with captureToProcess := ring }) hm.pushIdle
      (hcons.trans hm.popIdle) hq₁ hq' hk hk0
  refine ⟨_, x, _, _, hreach.trans (hrefused.trans hreach'), hprod₂.trans hprod, rfl, hprod', ?_⟩
  have hpush := hq'.pushBatch_eq (Batch.ofList (q.take k)) (k := 0)
    (by rw [hcap', hlen', Nat.sub_self, Nat.min_zero])
  show (ringBufferPushBatch p.processToNetwork.rb (Batch.ofList (q.take k))).1.2 < _
  rw [hpush, UInt32.lt_iff_toNat_lt, Batch.ofList_count (by omega), hlenk]
  exact Nat.pos_of_ne_zero hk0

/-- Whatever the rings, there is a run that loses a count. -/
theorem race_reached {c2p p2n : RingBuffer AdcSample} (h : c2p.Fresh) (h' : p2n.Fresh)
    (startTime : UInt64) (allocated : Nat → Bool) :
    ∃ ls t, run step (init c2p p2n startTime allocated) ls = some t ∧ Outside t ∧ ¬ Exact t := by
  obtain ⟨p, x, b, pushed, hreach, hc, hpop, hp, hlt⟩ := both_refused h h' startTime allocated
  obtain ⟨hi, hcount⟩ := hreach.invariant (I := fun p => Inv p ∧ Counted p)
    (fun _ _ _ hi hs => ⟨Pipeline.step_inv hi.1 hs, Pipeline.step_counted hi.1 hi.2 hs⟩)
    ⟨Pipeline.init_inv h h' startTime allocated, rfl, rfl, rfl, rfl⟩
  obtain ⟨ls, hls⟩ := whole_reaches hreach
  exact ⟨_, _, run_append hls (race hc hp hlt), ⟨rfl, hpop, rfl⟩, race_inexact hi hcount hc hp hlt⟩

/-- With the rings of the program. -/
theorem count_lost : ∃ ls t,
    run step (init pipelineRing pipelineRing 0 fun _ => true) ls = some t ∧ Outside t ∧
      ¬ Exact t :=
  race_reached pipelineRing_fresh pipelineRing_fresh 0 fun _ => true

end SplitPipeline

end FastRing
