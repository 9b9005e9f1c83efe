import FastRing.ApplicationMoves
import FastRing.MainManager
import FastRing.PipelineInvariant

/-! # The invariant of the program

`main` keeps the thread manager as in `MainManager`. The ADC capture thread is created
at most once, and from then on the simulator's `running` stays set. So each ring has
one producer and one consumer, and the pipeline inside the program keeps its own
invariant, in whatever order the threads are started and stopped. -/

namespace FastRing

namespace Pipeline

variable {s t : Pipeline}

theorem processStep_producer (h : s.processStep = some t) :
    t.captureToProcess.producer = s.captureToProcess.producer := by
  obtain ⟨c2p, p2n, stats, rfl, hp, _⟩ := processStep_frame h
  exact hp

end Pipeline

namespace Application

variable {s t : Application}

/-- The ADC simulator and its capture thread: the thread is created once, with the
callback set, and `running` stays set from then on. The thread is pushing exactly when
it is in its callback. -/
structure Sampling (adc : Option AdcSimulator) (capture : CapturePos)
    (thread : Option CaptureThreadPos) (idle : Bool) : Prop where
  callback : ∀ a, adc = some a → capture ≠ .setCallback → a.callback = true
  absent : capture = .createAdc → adc = none
  creating : ∀ restart, capture = .createThread restart →
    thread = none ∧ ∃ a, adc = some a ∧ a.running = true
  created : ∀ p, thread = some p →
    p ≠ .done ∧ capture ≠ .setCallback ∧ ∃ a, adc = some a ∧ a.running = true
  pushing : idle = true ↔ thread ≠ some .callback

structure Inv (s : Application) : Prop where
  managed : s.tm.Managed s.main
  sampling : Sampling s.adc s.capture s.captureThread s.pipeline.captureToProcess.producer.isIdle

theorem init_invariant (c2p p2n : RingBuffer AdcSample) (allocated : Nat → Bool) :
    Inv (init c2p p2n allocated) :=
  { managed := Manager.init_managed
    sampling := ⟨nofun, nofun, nofun, nofun, ⟨nofun, fun _ => rfl⟩⟩ }

/-! ## The capture worker -/

/-- The worker moves on and leaves the simulator alone. -/
theorem Sampling.move {adc : Option AdcSimulator} {capture capture' : CapturePos}
    {thread : Option CaptureThreadPos} {idle : Bool} (h : Sampling adc capture thread idle)
    (hset : capture ≠ .setCallback) (hset' : capture' ≠ .setCallback)
    (habs : capture' = .createAdc → adc = none) (hcre : ∀ restart, capture' ≠ .createThread restart) :
    Sampling adc capture' thread idle := by
  refine ⟨fun a ha _ => h.callback a ha hset, habs, fun restart hc => absurd hc (hcre restart), ?_,
    h.pushing⟩
  intro p hp
  obtain ⟨hd, _, ha⟩ := h.created p hp
  exact ⟨hd, hset', ha⟩

/-- Without `running` there is no capture thread. -/
theorem Sampling.thread_none {adc : Option AdcSimulator} {capture : CapturePos}
    {thread : Option CaptureThreadPos} {idle : Bool} (h : Sampling adc capture thread idle)
    (hrun : ∀ a, adc = some a → a.running ≠ true) : thread = none := by
  cases hp : thread with
  | none => rfl
  | some p =>
    obtain ⟨_, _, a, ha, har⟩ := h.created p hp
    exact absurd har (hrun a ha)

/-- Where the worker goes on after `adc_simulator_start`. -/
theorem after_start (restart : Bool) :
    (if restart then CapturePos.getAdc else .checkRunning) ≠ .setCallback ∧
      (if restart then CapturePos.getAdc else .checkRunning) ≠ .createAdc ∧
      ∀ r, (if restart then CapturePos.getAdc else .checkRunning) ≠ .createThread r := by
  cases restart with
  | true => exact ⟨nofun, nofun, nofun⟩
  | false => exact ⟨nofun, nofun, nofun⟩

theorem captureStep_sampling {env : WorkerEnv}
    (h : Sampling s.adc s.capture s.captureThread s.pipeline.captureToProcess.producer.isIdle)
    (hs : s.captureStep env = some t) :
    Sampling t.adc t.capture t.captureThread t.pipeline.captureToProcess.producer.isIdle := by
  cases captureStep_move hs with
  | getAdc pos =>
    rw [pos] at h
    cases hadc : s.adc with
    | none => simp only [hadc] at h ⊢; exact h.move nofun nofun (fun _ => rfl) nofun
    | some adc => simp only [hadc] at h ⊢; exact h.move nofun nofun nofun nofun
  | noMemory pos _ =>
    rw [pos] at h
    exact h.move nofun nofun nofun nofun
  | create pos _ =>
    rw [pos] at h
    have hthread := h.thread_none fun a ha => nomatch (h.absent rfl).symm.trans ha
    refine ⟨fun a _ hne => absurd rfl hne, nofun, nofun, ?_, h.pushing⟩
    intro p hp
    cases hthread.symm.trans hp
  | setCallback pos =>
    rw [pos] at h
    refine ⟨?_, nofun, nofun, ?_, h.pushing⟩
    · intro a ha _
      obtain ⟨a', _, rfl⟩ := Option.map_eq_some_iff.mp ha
      rfl
    · intro p hp
      exact absurd rfl (h.created p hp).2.1
  | @running restart adc pos _ _ =>
    rw [pos] at h
    obtain ⟨hset, habs, hcre⟩ := after_start restart
    exact h.move nofun hset (fun hc' => absurd hc' habs) hcre
  | @start restart adc pos present stopped =>
    rw [pos] at h
    have hthread := h.thread_none fun a ha => by
      cases present.symm.trans ha
      exact stopped
    refine ⟨?_, nofun, fun _ _ => ⟨hthread, _, rfl, rfl⟩, ?_, h.pushing⟩
    · intro a ha _
      cases ha
      exact h.callback adc present nofun
    · intro p hp
      cases hthread.symm.trans hp
  | @createThread restart pos _ _ =>
    -- the thread is there, and the simulator runs
    rw [pos] at h
    obtain ⟨hthread, adc, hadc, hrun⟩ := h.creating restart rfl
    obtain ⟨hset, habs, hcre⟩ := after_start restart
    refine ⟨fun a ha _ => h.callback a ha nofun, fun hc' => absurd hc' habs,
      fun r hc' => absurd hc' (hcre r), ?_, ?_⟩
    · intro p hp
      cases hp
      exact ⟨nofun, hset, adc, hadc, hrun⟩
    · rw [hthread] at h
      exact ⟨fun _ => nofun, fun _ => h.pushing.mpr nofun⟩
  | @noThread restart pos _ =>
    rw [pos] at h
    obtain ⟨hthread, _⟩ := h.creating restart rfl
    obtain ⟨_, habs, hcre⟩ := after_start restart
    refine ⟨?_, fun hc' => absurd hc' habs, fun r hc' => absurd hc' (hcre r), ?_, h.pushing⟩
    · intro a ha _
      obtain ⟨a', ha', rfl⟩ := Option.map_eq_some_iff.mp ha
      exact h.callback a' ha' nofun
    · intro p hp
      cases hthread.symm.trans hp
  | @checkRunning adc pos _ =>
    rw [pos] at h
    cases hrun : adc.running with
    | true => simp only [if_true]; exact h.move nofun nofun nofun nofun
    | false => simp only [Bool.false_eq_true, if_false]; exact h.move nofun nofun nofun nofun

/-- The capture worker never finds a capture thread when it is about to create one. -/
theorem createThread_enabled (h : Inv s) {restart : Bool} (hc : s.capture = .createThread restart)
    (env : WorkerEnv) : ∃ t, s.captureStep env = some t := by
  obtain ⟨hthread, _⟩ := h.sampling.creating restart hc
  simp only [captureStep, hc, hthread]
  split
  · exact ⟨_, rfl⟩
  · exact ⟨_, rfl⟩

/-! ## The steps -/

/-- A worker does not touch the thread manager, and `main` stays where it is. -/
theorem workerStep_frame {type : ThreadType} {env : WorkerEnv} (hs : s.workerStep type env = some t) :
    t.tm = s.tm ∧ t.main = s.main := by
  cases type with
  | capture => cases captureStep_move hs <;> exact ⟨rfl, rfl⟩
  | process | network =>
    obtain ⟨pipeline, _, rfl⟩ := Option.map_eq_some_iff.mp hs
    exact ⟨rfl, rfl⟩

theorem workerStep_sampling {type : ThreadType} {env : WorkerEnv}
    (h : Sampling s.adc s.capture s.captureThread s.pipeline.captureToProcess.producer.isIdle)
    (hs : s.workerStep type env = some t) :
    Sampling t.adc t.capture t.captureThread t.pipeline.captureToProcess.producer.isIdle := by
  cases type with
  | capture => exact captureStep_sampling h hs
  | process =>
    obtain ⟨pipeline, hp, rfl⟩ := Option.map_eq_some_iff.mp hs
    rw [show pipeline.captureToProcess.producer = _ from Pipeline.processStep_producer hp]
    exact h
  | network =>
    obtain ⟨pipeline, hp, rfl⟩ := Option.map_eq_some_iff.mp hs
    rw [show pipeline.captureToProcess = _ from (Pipeline.networkStep_rings hp).1]
    exact h

/-- A wrapper thread's step is a step of the wrapper, after one of its worker when it is
inside. -/
theorem wrapperStep_cases {id : Nat} {env : WorkerEnv} (hs : s.wrapperStep id env = some t) :
    ∃ u tm more, (u = s ∨ ∃ type, s.workerStep type env = some u) ∧
      s.tm.wrapperStep id more = some tm ∧ t = { u with tm := tm } := by
  unfold wrapperStep at hs
  split at hs
  · cases hs
  · rename_i w _
    split at hs
    · obtain ⟨u, hu, hs⟩ := Option.bind_eq_some_iff.mp hs
      obtain ⟨tm, htm, rfl⟩ := Option.map_eq_some_iff.mp hs
      rw [(workerStep_frame hu).1] at htm
      exact ⟨u, tm, _, .inr ⟨w.type, hu⟩, htm, rfl⟩
    · obtain ⟨tm, htm, rfl⟩ := Option.map_eq_some_iff.mp hs
      exact ⟨s, tm, false, .inl rfl, htm, rfl⟩

theorem wrapperStep_inv (h : Inv s) {id : Nat} {env : WorkerEnv}
    (hs : s.wrapperStep id env = some t) : Inv t := by
  obtain ⟨u, tm, more, hu, htm, rfl⟩ := wrapperStep_cases hs
  have hmanaged := Manager.wrapperStep_managed h.managed htm
  rcases hu with rfl | ⟨type, hu⟩
  · exact ⟨hmanaged, h.sampling⟩
  · have hsampling := workerStep_sampling h.sampling hu
    rw [← (workerStep_frame hu).2] at hmanaged
    exact ⟨hmanaged, hsampling⟩

theorem mainStep_inv (h : Inv s) {created leave : Bool} (hs : s.mainStep created leave = some t) :
    Inv t := by
  have hmanaged := h.managed
  unfold mainStep at hs
  split at hs
  · rename_i hm
    obtain ⟨tm, htm, rfl⟩ := Option.map_eq_some_iff.mp hs
    rw [hm] at hmanaged
    rw [show s.tm = .init from hmanaged.main] at htm
    exact ⟨Manager.start_managed htm, h.sampling⟩
  · rename_i hm
    split at hs
    · obtain ⟨tm, htm, rfl⟩ := Option.map_eq_some_iff.mp hs
      exact ⟨Manager.controllerStep_managed hmanaged (.inl hm) htm, h.sampling⟩
    · rename_i err hret
      split at hs
      · cases hs
        rw [hm] at hmanaged
        refine ⟨⟨hmanaged.inv, hmanaged.failed, hmanaged.owned, ?_⟩, h.sampling⟩
        obtain ⟨hstop, ⟨_, hnone⟩ | hc⟩ := hmanaged.main
        · cases hnone.symm.trans hret
        · exact ⟨hstop, hc⟩
      · obtain ⟨tm, htm, rfl⟩ := Option.map_eq_some_iff.mp hs
        exact ⟨Manager.destroy_managed hmanaged htm, h.sampling⟩
  · split at hs
    · obtain ⟨tm, htm, rfl⟩ := Option.map_eq_some_iff.mp hs
      exact ⟨Manager.destroy_managed hmanaged htm, h.sampling⟩
    · cases hs
      exact h
  · rename_i hm
    split at hs
    · cases hs
      rw [hm] at hmanaged
      exact ⟨⟨hmanaged.inv, hmanaged.failed, hmanaged.owned, hmanaged.main⟩, h.sampling⟩
    · obtain ⟨tm, htm, rfl⟩ := Option.map_eq_some_iff.mp hs
      exact ⟨Manager.controllerStep_managed hmanaged (.inr hm) htm, h.sampling⟩
  · rename_i hm
    cases hs
    rw [hm] at hmanaged
    exact ⟨⟨hmanaged.inv, hmanaged.failed, hmanaged.owned, hmanaged.main⟩, h.sampling⟩
  · cases hs

/-- The capture thread moves on between two samples. -/
theorem Sampling.thread_move {adc : Option AdcSimulator} {capture : CapturePos}
    {p p' : CaptureThreadPos} {idle idle' : Bool} (h : Sampling adc capture (some p) idle)
    (hd : p' ≠ .done) (hp : idle' = true ↔ p' ≠ .callback) :
    Sampling adc capture (some p') idle' := by
  obtain ⟨_, hset, ha⟩ := h.created p rfl
  refine ⟨h.callback, h.absent, ?_, ?_, ?_⟩
  · intro restart hc
    cases (h.creating restart hc).1
  · intro q hq
    cases hq
    exact ⟨hd, hset, ha⟩
  · rw [hp, ne_eq, ne_eq, Option.some.injEq]

theorem captureThreadStep_inv (h : Inv s) {due : Option (UInt64 × Int32)}
    (hs : s.captureThreadStep due = some t) : Inv t := by
  have hsam := h.sampling
  cases captureThreadStep_move hs with
  | readRunning pos present =>
    rw [pos] at hsam
    obtain ⟨_, _, a, ha, hrun⟩ := hsam.created _ rfl
    cases present.symm.trans ha
    rw [if_pos hrun]
    exact ⟨h.managed, hsam.thread_move nofun (hsam.pushing.trans ⟨fun _ => nofun, fun _ => nofun⟩)⟩
  | early pos _ _ | discard pos _ _ _ =>
    rw [pos] at hsam
    have hidle := hsam.pushing.mpr nofun
    exact ⟨h.managed, hsam.thread_move nofun ⟨fun _ => nofun, fun _ => hidle⟩⟩
  | sample pos _ _ _ made =>
    rw [pos] at hsam
    refine ⟨h.managed, hsam.thread_move nofun ?_⟩
    unfold Pipeline.capture at made
    split at made
    · cases made
      exact ⟨nofun, fun hne => absurd rfl hne⟩
    · cases made
  | @callback pipeline pos _ =>
    rw [pos] at hsam
    refine ⟨h.managed, ?_⟩
    cases hidle : pipeline.captureToProcess.producer.isIdle with
    | true =>
      simp only [if_true]
      exact hsam.thread_move nofun ⟨fun _ => nofun, fun _ => rfl⟩
    | false =>
      simp only [Bool.false_eq_true, if_false]
      exact hsam.thread_move nofun ⟨nofun, fun hne => absurd rfl hne⟩

theorem step_inv {l : Label} (h : Inv s) (hs : s.step l = some t) : Inv t := by
  unfold step at hs
  split at hs
  · cases hs
  · cases l with
    | main created leave => exact mainStep_inv h hs
    | wrapper id env => exact wrapperStep_inv h hs
    | captureThread due => exact captureThreadStep_inv h hs

theorem run_inv {c2p p2n : RingBuffer AdcSample} {allocated : Nat → Bool} {ls : List Label}
    (h : Runs.run step (init c2p p2n allocated) ls = some s) : Inv s :=
  Runs.invariant (fun _ _ _ hi hs => step_inv hi hs) (init_invariant c2p p2n allocated) h

/-- Each ring has one producer and one consumer: no two threads ever have the same type. -/
theorem one_thread_per_type {c2p p2n : RingBuffer AdcSample} {allocated : Nat → Bool}
    {ls : List Label} (h : Runs.run step (init c2p p2n allocated) ls = some s) {id id' : Nat}
    {w w' : Wrapper} (hw : s.tm.threads id = some w) (hw' : s.tm.threads id' = some w')
    (hty : w.type = w'.type) : id = id' :=
  (run_inv h).managed.owned.single hw hw' hty

/-! ## The pipeline inside the program -/

/-- The start of an ADC session leaves the samples alone. -/
theorem captureStep_pipeline {env : WorkerEnv} (hs : s.captureStep env = some t) :
    ∃ startTime sequence,
      t.pipeline = { s.pipeline with startTime := startTime, sequence := sequence } := by
  cases captureStep_move hs <;> exact ⟨_, _, rfl⟩

theorem session_inv {p : Pipeline} (h : p.Inv) (startTime : UInt64) (sequence : UInt32) :
    Pipeline.Inv { p with startTime := startTime, sequence := sequence } :=
  ⟨h.first, h.second, h.single, h.popBatch, h.pushBatch, h.popBatch', h.network, h.ledger, h.offered⟩

theorem workerStep_pipeline (h : s.pipeline.Inv) {type : ThreadType} {env : WorkerEnv}
    (hs : s.workerStep type env = some t) : t.pipeline.Inv := by
  cases type with
  | capture =>
    obtain ⟨startTime, sequence, hp⟩ := captureStep_pipeline hs
    rw [hp]
    exact session_inv h startTime sequence
  | process =>
    obtain ⟨pipeline, hp, rfl⟩ := Option.map_eq_some_iff.mp hs
    exact Pipeline.processStep_inv h hp
  | network =>
    obtain ⟨pipeline, hp, rfl⟩ := Option.map_eq_some_iff.mp hs
    exact Pipeline.networkStep_inv h hp

theorem captureThreadStep_pipeline (h : s.pipeline.Inv) {due : Option (UInt64 × Int32)}
    (hs : s.captureThreadStep due = some t) : t.pipeline.Inv := by
  cases captureThreadStep_move hs with
  | readRunning | early => exact h
  | sample _ _ _ _ made => exact Pipeline.capture_inv h made
  | discard => exact session_inv h s.pipeline.startTime _
  | callback _ moved => exact Pipeline.callbackStep_inv h moved

/-- `main` leaves the pipeline and the ADC simulator to the workers. -/
theorem mainStep_pipeline {created leave : Bool} (hs : s.mainStep created leave = some t) :
    t.pipeline = s.pipeline ∧ t.adc = s.adc := by
  unfold mainStep at hs
  split at hs
  · obtain ⟨tm, _, rfl⟩ := Option.map_eq_some_iff.mp hs
    exact ⟨rfl, rfl⟩
  · split at hs
    · obtain ⟨tm, _, rfl⟩ := Option.map_eq_some_iff.mp hs
      exact ⟨rfl, rfl⟩
    · split at hs
      · cases hs; exact ⟨rfl, rfl⟩
      · obtain ⟨tm, _, rfl⟩ := Option.map_eq_some_iff.mp hs
        exact ⟨rfl, rfl⟩
  · split at hs
    · obtain ⟨tm, _, rfl⟩ := Option.map_eq_some_iff.mp hs
      exact ⟨rfl, rfl⟩
    · cases hs; exact ⟨rfl, rfl⟩
  · split at hs
    · cases hs; exact ⟨rfl, rfl⟩
    · obtain ⟨tm, _, rfl⟩ := Option.map_eq_some_iff.mp hs
      exact ⟨rfl, rfl⟩
  · cases hs; exact ⟨rfl, rfl⟩
  · cases hs

theorem step_pipeline (h : s.pipeline.Inv) {l : Label} (hs : s.step l = some t) :
    t.pipeline.Inv := by
  unfold step at hs
  split at hs
  · cases hs
  · cases l with
    | main created leave =>
      rw [(mainStep_pipeline hs).1]
      exact h
    | wrapper id env =>
      obtain ⟨u, tm, more, hu, _, rfl⟩ := wrapperStep_cases hs
      rcases hu with rfl | ⟨type, hu⟩
      · exact h
      · have hp := workerStep_pipeline h hu
        exact hp
    | captureThread due => exact captureThreadStep_pipeline h hs

/-- Whatever the threads of the program do, and whenever they are stopped, the pipeline
keeps its invariant: no sample is duplicated, and none overtakes another. -/
theorem run_pipeline {c2p p2n : RingBuffer AdcSample} (h : c2p.Fresh) (h' : p2n.Fresh)
    {allocated : Nat → Bool} {ls : List Label}
    (hr : Runs.run step (init c2p p2n allocated) ls = some s) : s.pipeline.Inv :=
  Runs.invariant (fun _ _ _ hi hs => step_pipeline hi hs)
    (Pipeline.init_inv h h' 0 allocated) hr

end Application

end FastRing
