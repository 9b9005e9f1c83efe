import FastRing.ApplicationInvariant

/-! # After the threads are stopped

`thread_manager_stop` joins the three wrapper threads, and none of them takes a step
after it returns. The ADC capture thread is not among them: `adc_simulator_stop` is
never called, so once the capture worker has created that thread it goes on sampling,
and its callback pushes to a ring and counts in statistics that are about to be
released, or already are. -/

namespace FastRing

theorem Manager.Inv.not_live_of_stopped {m : Manager} (h : Inv m) (hs : m.stopReturned = true)
    {id : Nat} {w : Wrapper} (hw : m.threads id = some w) : ¬ w.live := by
  refine h.not_live (fun i hi => ?_) hw
  obtain ⟨hrun, hc⟩ := h.stopped hs
  rcases hc with hc | hc
  · simp only [Active, hc] at hi
    cases hrun.symm.trans hi
  · simp only [Active, hc] at hi

namespace Application

variable {s t : Application}

/-- The step pushes to a ring, pops from one, or updates the system statistics. A call
of a ring function counts from its start to its return. -/
def touches (s : Application) : Label → Bool
  | .main _ _ => s.main = .serve
  | .wrapper id _ =>
    match s.tm.threads id with
    | some { type := .process, pos := .work _, .. } => true
    | some { type := .network, pos := .work _, .. } =>
      match s.pipeline.network with
      | .ready | .popping | .sent _ _ => true
      | _ => false
    | _ => false
  | .captureThread _ => s.captureThread = some .callback

def Quiet (s : Application) (l : Label) : Prop := ∀ t, s.step l = some t → s.touches l = false

/-- The threads are stopped, and there is no capture thread. -/
structure Stopped (s : Application) : Prop where
  inv : Inv s
  stopped : s.tm.stopReturned = true
  noThread : s.captureThread = none

theorem Stopped.no_wrapper (h : Stopped s) {id : Nat} {env : WorkerEnv} :
    s.wrapperStep id env = none := by
  cases hs : s.wrapperStep id env with
  | none => rfl
  | some t =>
    obtain ⟨u, tm, more, _, htm, _⟩ := wrapperStep_cases hs
    obtain ⟨w, _, _, hw, hl, _⟩ := Manager.wrapperStep_frame htm
    have hinv := h.inv.managed.inv_of_stopped h.stopped
    exact absurd hl (hinv.not_live_of_stopped h.stopped hw)

/-- `main` is past its loop. -/
theorem Stopped.main (h : Stopped s) :
    s.main = .destroying ∨ s.main = .closing ∨ s.main = .exit := by
  have hmain := h.inv.managed.main
  have hs := h.stopped
  cases hm : s.main with
  | start =>
    rw [hm] at hmain
    rw [show s.tm = .init from hmain] at hs
    cases hs
  | starting =>
    rw [hm] at hmain
    cases hmain.1.symm.trans hs
  | serve =>
    rw [hm] at hmain
    cases hmain.1.symm.trans hs
  | destroying => exact .inl rfl
  | closing => exact .inr (.inl rfl)
  | exit => exact .inr (.inr rfl)

theorem Stopped.mainStep (h : Stopped s) {created leave : Bool}
    (hs : s.mainStep created leave = some t) :
    t.tm.stopReturned = true ∧ t.captureThread = none := by
  have hst := h.stopped
  have hno := h.noThread
  rcases h.main with hm | hm | hm
  · simp only [Application.mainStep, hm] at hs
    split at hs
    · cases hs
      exact ⟨hst, hno⟩
    · obtain ⟨tm, htm, rfl⟩ := Option.map_eq_some_iff.mp hs
      refine ⟨?_, hno⟩
      have hc := ((h.inv.managed.inv_of_stopped hst).stopped hst).2
      rcases hc with hc | hc
      · simp [Manager.step, Manager.controllerStep, hc] at htm
      · simp only [Manager.step, Manager.controllerStep, hc, Option.some.injEq] at htm
        subst htm
        exact hst
  · simp only [Application.mainStep, hm] at hs
    cases hs
    exact ⟨hst, hno⟩
  · simp only [Application.mainStep, hm] at hs
    cases hs

theorem Stopped.step (h : Stopped s) {l : Label} (hs : s.step l = some t) : Stopped t := by
  have hinv := step_inv h.inv hs
  unfold Application.step at hs
  split at hs
  · cases hs
  · cases l with
    | main created leave =>
      obtain ⟨hst, hno⟩ := h.mainStep hs
      exact ⟨hinv, hst, hno⟩
    | wrapper id env => cases h.no_wrapper.symm.trans hs
    | captureThread due =>
      simp only [captureThreadStep, h.noThread] at hs
      cases hs

theorem Stopped.quiet (h : Stopped s) (l : Label) : Quiet s l := by
  intro t hs
  cases l with
  | main created leave =>
    rcases h.main with hm | hm | hm
    · simp [touches, hm]
    · simp [touches, hm]
    · simp [touches, hm]
  | wrapper id env =>
    unfold Application.step at hs
    split at hs
    · cases hs
    · cases h.no_wrapper.symm.trans hs
  | captureThread due => simp [touches, h.noThread]

/-! ## The capture thread goes on -/

/-- A producer inside a call can always take its next access. -/
theorem producerStep_enabled {ring : Spsc AdcSample} (h : ring.producer.isIdle ≠ true) :
    ∃ ring', ring.producerStep = some ring' := by
  unfold Spsc.producerStep
  split
  · rename_i hp
    rw [hp] at h
    exact absurd rfl h
  case h_3 | h_7 => split <;> exact ⟨_, rfl⟩
  case h_8 => simp only; split <;> split <;> exact ⟨_, rfl⟩
  all_goals exact ⟨_, rfl⟩

theorem callback_enabled (h : Inv s) (hp : s.captureThread = some .callback) :
    ∃ t, s.captureThreadStep none = some t := by
  have hidle : s.pipeline.captureToProcess.producer.isIdle ≠ true :=
    fun hi => h.sampling.pushing.mp hi hp
  have hcb : ∃ pipeline, s.pipeline.callbackStep = some pipeline := by
    unfold Pipeline.callbackStep
    split
    · exact ⟨_, rfl⟩
    · obtain ⟨ring, hring⟩ := producerStep_enabled hidle
      exact ⟨_, by rw [hring]; rfl⟩
  obtain ⟨pipeline, hcb⟩ := hcb
  exact ⟨_, by simp only [captureThreadStep, hp, hcb]; rfl⟩

theorem callback_touches (h : Inv s) (hm : s.main ≠ .exit) (hp : s.captureThread = some .callback) :
    ¬ Quiet s (.captureThread none) := by
  intro hq
  obtain ⟨t, ht⟩ := callback_enabled h hp
  have hfalse := hq t (by rw [step, if_neg hm]; exact ht)
  simp [touches, hp] at hfalse

theorem readClock_step (h : Inv s) (hm : s.main ≠ .exit) (hp : s.captureThread = some .readClock) :
    ∃ t, s.step (.captureThread (some (0, 0))) = some t ∧ t.captureThread = some .callback ∧
      t.main ≠ .exit := by
  obtain ⟨_, hset, adc, hadc, _⟩ := h.sampling.created _ hp
  have hcb := h.sampling.callback adc hadc hset
  have hidle := h.sampling.pushing.mpr (by rw [hp]; nofun)
  have hcap : ∃ pipeline, s.pipeline.capture 0 0 = some pipeline := by
    unfold Pipeline.capture
    split
    · exact ⟨_, rfl⟩
    · rename_i hne
      cases hprod : s.pipeline.captureToProcess.producer with
      | idle => exact absurd hprod hne
      | _ => simp [hprod, Producer.isIdle] at hidle
  obtain ⟨pipeline, hcap⟩ := hcap
  refine ⟨{ s with pipeline := pipeline, captureThread := some .callback }, ?_, rfl, hm⟩
  rw [step, if_neg hm]
  simp only [captureThreadStep, hp, hadc, hcb, hcap, if_true]
  rfl

theorem readRunning_step (h : Inv s) (hm : s.main ≠ .exit)
    (hp : s.captureThread = some .readRunning) :
    ∃ t, s.step (.captureThread none) = some t ∧ t.captureThread = some .readClock ∧
      t.main ≠ .exit := by
  obtain ⟨_, _, adc, hadc, hrun⟩ := h.sampling.created _ hp
  refine ⟨{ s with captureThread := some .readClock }, ?_, rfl, hm⟩
  rw [step, if_neg hm]
  simp only [captureThreadStep, hp, hadc, hrun, if_true]

/-- From wherever the capture thread is, its callback comes. -/
theorem captureThread_touches (h : Inv s) (hm : s.main ≠ .exit) {p : CaptureThreadPos}
    (hp : s.captureThread = some p) : ∃ ls, ¬ Runs.AllSteps step Quiet s ls := by
  have hcallback : ∀ u, Inv u → u.main ≠ .exit → u.captureThread = some .callback →
      ∃ ls, ¬ Runs.AllSteps step Quiet u ls := by
    intro u hu hum hup
    exact ⟨[.captureThread none], fun hall => callback_touches hu hum hup hall.1⟩
  have hclock : ∀ u, Inv u → u.main ≠ .exit → u.captureThread = some .readClock →
      ∃ ls, ¬ Runs.AllSteps step Quiet u ls := by
    intro u hu hum hup
    obtain ⟨v, hv, hvp, hvm⟩ := readClock_step hu hum hup
    obtain ⟨ls, hls⟩ := hcallback v (step_inv hu hv) hvm hvp
    exact ⟨_ :: ls, fun hall => hls (hall.2 v hv)⟩
  cases p with
  | readRunning =>
    obtain ⟨u, hu, hup, hum⟩ := readRunning_step h hm hp
    obtain ⟨ls, hls⟩ := hclock u (step_inv h hu) hum hup
    exact ⟨_ :: ls, fun hall => hls (hall.2 u hu)⟩
  | readClock => exact hclock s h hm hp
  | callback => exact hcallback s h hm hp
  | done => exact absurd rfl (h.sampling.created _ hp).1

/-- After the threads are stopped, and as long as the process lives, no step can touch
the rings or the statistics exactly when no ADC capture thread was created. -/
theorem quiescent_iff_no_captureThread (c2p p2n : RingBuffer AdcSample) (allocated : Nat → Bool)
    (ls : List Label) (hrun : Runs.run step (init c2p p2n allocated) ls = some s)
    (hstop : s.tm.stopReturned = true) (hm : s.main ≠ .exit) :
    (∀ ls', Runs.AllSteps step Quiet s ls') ↔ s.captureThread = none := by
  have hinv := run_inv hrun
  constructor
  · intro hall
    cases hp : s.captureThread with
    | none => rfl
    | some p =>
      obtain ⟨ls', hls⟩ := captureThread_touches hinv hm hp
      exact absurd (hall ls') hls
  · intro hno ls'
    exact Runs.allSteps_of_invariant (I := Stopped) (fun _ _ _ h hs => h.step hs)
      (fun _ l h => h.quiet l) ⟨hinv, hstop, hno⟩ ls'

/-- A worker step in which every allocation and thread creation succeeds; no server
answers. -/
def grantingEnv : WorkerEnv :=
  { granted := true
    clock := 0
    network :=
      { allocated := true, connect := { fd := -1, addressValid := true, accepted := false }
        clock := 0, send := fun _ => .failed } }

/-- `main` takes `k` steps, with every thread created. -/
def mainRun (k : Nat) : List Label := List.replicate k (.main true false)

def wrapperRun (id k : Nat) : List Label := List.replicate k (.wrapper id grantingEnv)

/-- `main` leaves its loop, and the process and network threads return. -/
def leaveRun : List Label := .main true true :: (wrapperRun 1 2 ++ wrapperRun 2 2)

/-- Stopped before the capture worker ran: everything is quiet from then on. -/
theorem quiescent_without_capture : ∃ s : Application,
    Runs.run step (init pipelineRing pipelineRing fun _ => true)
      (mainRun 10 ++ leaveRun ++ wrapperRun 0 2 ++ mainRun 7) = some s ∧
      s.tm.stopReturned = true ∧ s.main ≠ .exit ∧ ∀ ls', Runs.AllSteps step Quiet s ls' := by
  refine ⟨_, rfl, rfl, nofun, ?_⟩
  exact (quiescent_iff_no_captureThread pipelineRing pipelineRing (fun _ => true)
    (mainRun 10 ++ leaveRun ++ wrapperRun 0 2 ++ mainRun 7) rfl rfl nofun).mpr rfl

/-- The capture worker starts the ADC, and a sample is due when `main` leaves its loop.
The callback goes on after the thread manager and the rings are released. -/
theorem callback_after_release : ∃ s t : Application,
    Runs.run step (init pipelineRing pipelineRing fun _ => true)
      (mainRun 10 ++ wrapperRun 0 8 ++ [.captureThread none, .captureThread (some (0, 0))] ++
        leaveRun ++ wrapperRun 0 3 ++ mainRun 9) = some s ∧
      s.tm.stopReturned = true ∧ s.tm.released = true ∧ s.buffersReleased = true ∧
      s.step (.captureThread none) = some t ∧ s.touches (.captureThread none) = true ∧
      ¬ Runs.AllSteps step Quiet s [.captureThread none] := by
  refine ⟨_, _, rfl, rfl, rfl, rfl, rfl, rfl, fun hall => ?_⟩
  cases hall.1 _ rfl

end Application

end FastRing
