import FastRing.ManagerInvariant

/-! # What a failed start leaves behind

A start that fails half-way gives up what the manager knows about its threads. The
threads created so far keep running, `thread_manager_stop` does not join them any more
because `running` is false, and the state of the type that failed stays `RUNNING`. A
second start then creates a second thread of the same type, and
`thread_manager_destroy`, which is what `main` calls next, frees the manager under
the threads. -/

namespace FastRing.Manager

variable {m t : Manager}

/-- From the return of a failed start to the next start, nothing of it is left; no type
has two live threads; the manager is not freed while a thread uses it. -/
structure Clean (m : Manager) : Prop where
  failed : m.startReturned = some .errorThread →
    (∀ id ∈ m.created, ∀ w, m.threads id = some w → ¬ (w.live ∧ w.joined = false)) ∧
      m.running = false ∧ ∀ i, m.states i ≠ .running
  single : ∀ id id' w w', m.threads id = some w → m.threads id' = some w' → w.live → w'.live →
    w.type = w'.type → id = id'
  released : m.released = true → ∀ id w, m.threads id = some w → ¬ w.live

theorem Inv.not_active_of_released (h : Inv m) (hr : m.released = true) (i : ThreadType) :
    ¬ Active m i := by
  have hco := h.controller
  cases hc : m.controller with
  | idle =>
    simp only [ControllerOk, hc] at hco
    simp only [Active, hc, hco hr]
    exact Bool.false_ne_true
  | _ => simp [ControllerOk, hc, hr] at hco

theorem Inv.clean (h : Inv m) : Clean m := by
  refine ⟨fun hs => absurd hs h.started, ?_, ?_⟩
  · intro id id' w w' hw hw' hl hl' hty
    have hh := (h.unjoined id w hw (h.live_unjoined hw hl)).1
    have hh' := (h.unjoined id' w' hw' (h.live_unjoined hw' hl')).1
    rw [hty, hh'] at hh
    cases hh
    rfl
  · intro hr id w hw
    exact h.not_live (h.not_active_of_released hr) hw

/-- The state of a type is set to running before its thread is created, and a failed
creation leaves it so. -/
theorem not_clean_of_failure {l : Label} (h : Inv m) (hl : ¬ creates m l) :
    ∃ t, m.step l = some t ∧ ¬ Clean t := by
  obtain ⟨rfl, type, todo, hc⟩ := not_creates hl
  have hco := h.controller
  simp only [ControllerOk, hc] at hco
  refine ⟨_, by simp only [step, controllerStep, hc]; rfl, fun hcl => ?_⟩
  exact (hcl.failed rfl).2.2 type hco.2.2.2

/-- The manager keeps clean along a run exactly when no thread creation of the run
fails. -/
theorem clean_iff_creates (ls : List Label) :
    Runs.AllStates step Clean init ls ↔ Runs.AllSteps step creates init ls := by
  refine Runs.allStates_iff (fun s l t hi hok hs => step_inv hi hok hs) ?_ ls init_inv
    init_inv.clean
  intro s l hi _
  constructor
  · intro hall
    by_contra hl
    obtain ⟨t, ht, hcl⟩ := not_clean_of_failure hi hl
    exact hcl (hall t ht)
  · intro hok t ht
    exact (step_inv hi hok ht).clean

/-- A start that creates the capture thread and fails at the process thread. -/
def failedStart : List Label :=
  [.call .start, .controller true, .controller true, .controller true, .controller true,
    .controller false]

/-- A capture thread that is live and not joined. -/
def captureThread : Wrapper := { type := .capture, pos := .readRunning, joined := false }

/-- The failed start returns with its capture thread running and the process type
marked as running. Starting again gives a second capture thread beside the first, and
destroying frees the manager under it. -/
theorem failed_start_leaves_thread :
    (∃ m, Runs.run step init failedStart = some m ∧ m.startReturned = some .errorThread ∧
      0 ∈ m.created ∧ m.threads 0 = some captureThread ∧ m.states .process = .running ∧
      (∃ t, Runs.run step m (failedStart.take 4) = some t ∧
        t.threads 0 = some captureThread ∧ t.threads 1 = some captureThread) ∧
      ∃ t, Runs.run step m [.call .destroy, .controller true] = some t ∧ t.released = true ∧
        t.threads 0 = some captureThread) ∧
    ¬ Runs.AllStates step Clean init failedStart := by
  refine ⟨⟨_, rfl, rfl, ?_, rfl, rfl, ⟨_, rfl, rfl, rfl⟩, _, rfl, rfl, rfl⟩, ?_⟩
  · exact List.mem_singleton.mpr rfl
  · intro hall
    exact ((hall.last rfl).failed rfl).2.2 .process rfl

end FastRing.Manager
