import FastRing.StartFailure

/-! # The life of the threads

As long as every thread can be created, a type has one thread at a time: each thread
is joined, once, before the next one of its type is created, so that what a thread
writes on its way out is still its own state. Between the return of
`thread_manager_stop` and the next start no worker runs and the states are all
`STOPPED`; before the first start they are still `IDLE`, since then a call of
`thread_manager_stop` returns at once. -/

namespace FastRing.Manager

variable {m t : Manager}

/-- All types are stopped, or nothing was ever started. -/
def Halted (m : Manager) : Prop :=
  (∀ i, m.states i = .stopped) ∨ m.next = 0 ∧ ∀ i, m.states i = .idle

/-- The states of the types that `thread_manager_stop` is done with. -/
def StatesOk (m : Manager) : Prop :=
  match m.controller with
  | .idle => m.running = false → Halted m
  | .free => Halted m
  | .join todo _ => ∀ i, i ∉ todo → m.states i = .stopped
  | .setStopped type todo _ => ∀ i, i ∉ type :: todo → m.states i = .stopped
  | _ => True

/-- A thread that is not joined is the last one created of its type. -/
def Latest (m : Manager) : Prop :=
  ∀ id w, m.threads id = some w → w.joined = false →
    ∀ id' w', m.threads id' = some w' → w'.type = w.type → id' ≤ id

structure LifeInv (m : Manager) : Prop where
  inv : Inv m
  states : StatesOk m
  stopped : m.stopReturned = true → ∀ i, m.states i = .stopped
  latest : Latest m

theorem init_lifeInv : LifeInv init := by
  refine ⟨init_inv, ?_, ?_, ?_⟩
  · intro _
    exact .inr ⟨rfl, fun _ => rfl⟩
  · intro h
    cases h
  · intro id w hw
    cases hw

/-- A thread moves on or is joined; none is created. -/
theorem Latest.update (h : Latest m) {id : Nat} {w w' : Wrapper} (hw : m.threads id = some w)
    (ht : t.threads = Function.update m.threads id (some w')) (hty : w'.type = w.type)
    (hj : w'.joined = false → w.joined = false) : Latest t := by
  have hback : ∀ id₁ w₁, t.threads id₁ = some w₁ → ∃ w₀, m.threads id₁ = some w₀ ∧
      w₁.type = w₀.type ∧ (w₁.joined = false → w₀.joined = false) := by
    intro id₁ w₁ hw₁
    rw [ht] at hw₁
    by_cases hid : id₁ = id
    · rw [hid, Function.update_self] at hw₁
      cases hw₁
      exact ⟨w, by rw [hid]; exact hw, hty, hj⟩
    · rw [Function.update_of_ne hid] at hw₁
      exact ⟨w₁, hw₁, rfl, fun h => h⟩
  intro id₁ w₁ hw₁ hj₁ id₂ w₂ hw₂ hty₂
  obtain ⟨v₁, hv₁, ht₁, hjv₁⟩ := hback id₁ w₁ hw₁
  obtain ⟨v₂, hv₂, ht₂, _⟩ := hback id₂ w₂ hw₂
  exact h id₁ v₁ hv₁ (hjv₁ hj₁) id₂ v₂ hv₂ (by rw [← ht₂, hty₂, ht₁])

theorem enter_states (m : Manager) (c : Call) : (m.enter c).states = m.states := by
  cases c <;> simp only [enter] <;> split <;> rfl

theorem enter_threads (m : Manager) (c : Call) : (m.enter c).threads = m.threads := by
  cases c <;> simp only [enter] <;> split <;> rfl

theorem enter_stopReturned {c : Call} (h : (m.enter c).stopReturned = true) :
    m.stopReturned = true := by
  cases c with
  | start =>
    by_cases hrun : m.running = true
    · simpa only [enter, if_pos hrun] using h
    · simp only [enter, if_neg hrun] at h
      cases h
  | stop | destroy =>
    simp only [enter] at h
    split at h <;> exact h
  | pause | resume => exact h

theorem enter_lifeInv (h : LifeInv m) (hc : m.controller = .idle) (hr : m.released = false)
    (c : Call) : LifeInv (m.enter c) := by
  have hinv := enter_inv h.inv hc hr c
  have hst := h.states
  simp only [StatesOk, hc] at hst
  refine ⟨hinv, ?_, ?_, ?_⟩
  · cases c with
    | start =>
      by_cases hrun : m.running = true
      · simp only [enter, if_pos hrun, StatesOk, hc]
        exact hst
      · simp only [enter, if_neg hrun, StatesOk]
    | stop =>
      by_cases hrun : m.running = true
      · simp only [enter, if_pos hrun, StatesOk]
        intro i hi
        exact absurd (ThreadType.mem_all i) hi
      · simp only [enter, if_neg hrun, StatesOk, hc]
        exact hst
    | pause =>
      simp only [enter, StatesOk, hc]
      exact hst
    | resume =>
      simp only [enter, StatesOk, hc]
      exact hst
    | destroy =>
      by_cases hrun : m.running = true
      · simp only [enter, if_pos hrun, StatesOk]
        intro i hi
        exact absurd (ThreadType.mem_all i) hi
      · simp only [enter, if_neg hrun, StatesOk]
        exact hst (by simpa using hrun)
  · intro hs
    rw [enter_states]
    exact h.stopped (enter_stopReturned hs)
  · unfold Latest
    rw [enter_threads]
    exact h.latest

theorem wrapperStep_lifeInv (h : LifeInv m) {id : Nat} {more : Bool}
    (hs : m.wrapperStep id more = some t) : LifeInv t := by
  have hinv := wrapperStep_inv h.inv hs
  obtain ⟨w, states, pos, hw, _, hstates, rfl⟩ := wrapperStep_frame hs
  have hkeep : ∀ i, m.states i = .stopped → states i = .stopped := by
    intro i hi
    rcases hstates i with heq | ⟨_, heq⟩
    · rw [heq, hi]
    · exact heq
  -- there is a thread, so something was started
  have hhalted : Halted m → Halted { m with
      states := states
      threads := Function.update m.threads id (some { w with pos := pos }) } := by
    rintro (hall | ⟨hnext, _⟩)
    · exact .inl fun i => hkeep i (hall i)
    · rw [h.inv.fresh id (by rw [hnext]; exact Nat.zero_le id)] at hw
      cases hw
  refine ⟨hinv, ?_, ?_, h.latest.update hw rfl rfl fun h => h⟩
  · have hst := h.states
    cases hc : m.controller with
    | idle =>
      simp only [StatesOk, hc] at hst ⊢
      exact fun hr => hhalted (hst hr)
    | free =>
      simp only [StatesOk, hc] at hst ⊢
      exact hhalted hst
    | join todo destroying =>
      simp only [StatesOk, hc] at hst ⊢
      exact fun i hi => hkeep i (hst i hi)
    | setStopped type todo destroying =>
      simp only [StatesOk, hc] at hst ⊢
      exact fun i hi => hkeep i (hst i hi)
    | _ => simp only [StatesOk]
  · exact fun hs' i => hkeep i (h.stopped hs' i)

theorem Inv.joined_of_create (h : Inv m) {type : ThreadType} {todo : List ThreadType}
    (hc : m.controller = .create type todo) {id : Nat} {w : Wrapper} (hw : m.threads id = some w)
    (hty : w.type = type) : w.joined = true := by
  cases hj : w.joined with
  | true => rfl
  | false =>
    have hactive := (h.unjoined id w hw hj).2
    simp only [Active, hc, hty] at hactive
    exact absurd List.mem_cons_self hactive

/-- A new thread has the highest number, and the other ones of its type are joined. -/
theorem LifeInv.spawn (h : LifeInv m) {type : ThreadType} {todo : List ThreadType}
    (hc : m.controller = .create type todo) :
    Latest { m.spawn type with controller := .setRunning todo } := by
  have hlt : ∀ id w, m.threads id = some w → id < m.next := by
    intro id w hw
    by_contra hge
    rw [h.inv.fresh id (by omega)] at hw
    cases hw
  intro id w hw hj id' w' hw' hty
  simp only [Manager.spawn] at hw hw'
  by_cases hid : id = m.next
  · by_cases hid' : id' = m.next
    · omega
    · rw [Function.update_of_ne hid'] at hw'
      have := hlt id' w' hw'
      omega
  · rw [Function.update_of_ne hid] at hw
    by_cases hid' : id' = m.next
    · rw [hid', Function.update_self] at hw'
      cases hw'
      cases hj.symm.trans (h.inv.joined_of_create hc hw hty.symm)
    · rw [Function.update_of_ne hid'] at hw'
      exact h.latest id w hw hj id' w' hw' hty

theorem controllerStep_lifeInv (h : LifeInv m) {created : Bool}
    (hok : creates m (.controller created)) (hs : m.controllerStep created = some t) :
    LifeInv t := by
  have hinv := controllerStep_inv h.inv hok hs
  have hst := h.states
  have hco := h.inv.controller
  unfold StatesOk at hst
  cases controllerStep_move hs with
  | unpause hc => exact ⟨hinv, trivial, h.stopped, h.latest⟩
  | started hc =>
    simp only [ControllerOk, hc] at hco
    refine ⟨hinv, ?_, h.stopped, h.latest⟩
    intro hr
    cases hr.symm.trans hco.1
  | setRunning hc =>
    refine ⟨hinv, trivial, ?_, h.latest⟩
    intro hs'
    exact absurd hs' (h.inv.not_stopped (by rw [hc]; simp) (by rw [hc]; simp))
  | create hc => exact ⟨hinv, trivial, h.stopped, h.spawn hc⟩
  | fail hc hfalse =>
    subst hfalse
    simp only [creates, hc] at hok
  | @stopped destroying hc =>
    rw [hc] at hst
    have hall : ∀ i, m.states i = .stopped := fun i => hst i List.not_mem_nil
    refine ⟨hinv, ?_, fun _ => hall, h.latest⟩
    cases destroying with
    | true => exact .inl hall
    | false => exact fun _ => .inl hall
  | noHandle hc =>
    rw [hc] at hst
    exact ⟨hinv, hst, h.stopped, h.latest⟩
  | join hc _ hw =>
    rw [hc] at hst
    refine ⟨hinv, hst, h.stopped, h.latest.update hw rfl rfl ?_⟩
    intro hj
    cases hj
  | @setStopped type todo destroying hc =>
    rw [hc] at hst
    refine ⟨hinv, ?_, ?_, h.latest⟩
    · intro i hi
      show Function.update m.states type .stopped i = .stopped
      by_cases hit : i = type
      · rw [hit, Function.update_self]
      · rw [Function.update_of_ne hit]
        refine hst i ?_
        rw [List.mem_cons, not_or]
        exact ⟨hit, hi⟩
    · intro hs'
      exact absurd hs' (h.inv.not_stopped (by rw [hc]; simp) (by rw [hc]; simp))
  | free hc =>
    rw [hc] at hst
    exact ⟨hinv, fun _ => hst, h.stopped, h.latest⟩

theorem step_lifeInv {l : Label} (h : LifeInv m) (hok : creates m l) (hs : m.step l = some t) :
    LifeInv t := by
  cases l with
  | call c =>
    simp only [step] at hs
    split at hs
    · rename_i hc
      cases hs
      exact enter_lifeInv h hc.1 hc.2 c
    · cases hs
  | controller created => exact controllerStep_lifeInv h hok hs
  | wrapper id more => exact wrapperStep_lifeInv h hs

/-! ## What it is good for -/

/-- The life of the threads at one moment: no type has two live threads; a thread is
created when all threads of its type are joined, and joined when it is not yet joined;
after a stop no thread is live and all states are `STOPPED`, and also whenever the
manager is at rest without threads, unless nothing was ever started; a thread about to
write its state is the last one of its type, with none about to be created. -/
structure Lifecycle (m : Manager) : Prop where
  single : ∀ id id' w w', m.threads id = some w → m.threads id' = some w' → w.live → w'.live →
    w.type = w'.type → id = id'
  successor : ∀ type todo, m.controller = .create type todo →
    ∀ id w, m.threads id = some w → w.type = type → w.joined = true
  joinOnce : ∀ type todo destroying, m.controller = .join (type :: todo) destroying →
    ∃ id w, m.handles type = some id ∧ m.threads id = some w ∧ w.type = type ∧ w.joined = false
  stopped : m.stopReturned = true →
    (∀ id w, m.threads id = some w → ¬ w.live) ∧ ∀ i, m.states i = .stopped
  atRest : m.controller = .idle → m.running = false →
    (∀ id w, m.threads id = some w → ¬ w.live) ∧
      ((∀ i, m.states i = .stopped) ∨ m.next = 0 ∧ ∀ i, m.states i = .idle)
  lastWrite : ∀ id w, m.threads id = some w → w.pos = .exit →
    (∀ id' w', m.threads id' = some w' → w'.type = w.type → id' ≤ id) ∧
      ∀ todo, m.controller ≠ .create w.type todo

theorem LifeInv.lifecycle (h : LifeInv m) : Lifecycle m := by
  have hinv := h.inv
  refine ⟨hinv.clean.single, ?_, ?_, ?_, ?_, ?_⟩
  · intro type todo hc id w hw hty
    exact hinv.joined_of_create hc hw hty
  · intro type todo destroying hc
    exact hinv.to_join hc
  · intro hs
    refine ⟨?_, h.stopped hs⟩
    obtain ⟨hrun, hc⟩ := hinv.stopped hs
    have hnone : ∀ i, ¬ Active m i := by
      intro i
      rcases hc with hc | hc
      · rw [active_idle hc, hrun]
        exact Bool.false_ne_true
      · simp only [Active, hc]
        exact id
    exact fun id w hw => hinv.not_live hnone hw
  · intro hc hrun
    have hst := h.states
    simp only [StatesOk, hc] at hst
    refine ⟨?_, hst hrun⟩
    intro id w hw
    refine hinv.not_live ?_ hw
    intro i
    rw [active_idle hc, hrun]
    exact Bool.false_ne_true
  · intro id w hw hexit
    have hj := hinv.live_unjoined hw (by rw [Wrapper.live, hexit]; simp)
    refine ⟨h.latest id w hw hj, ?_⟩
    intro todo hc
    cases hj.symm.trans (hinv.joined_of_create hc hw rfl)

/-- When every thread can be created, the life of the threads is in order in every
state of every run. -/
theorem lifecycle_of_creates {ls : List Label} (hok : Runs.AllSteps step creates init ls)
    (h : Runs.run step init ls = some m) : Lifecycle m :=
  (Runs.invariant_of_steps (fun _ _ _ hi hok hs => step_lifeInv hi hok hs) init_lifeInv hok h).lifecycle

/-- `k` accesses of the controlling thread, with every thread created. -/
def controllerRun (k : Nat) : List Label := List.replicate k (.controller true)

/-- A start, a stop, the return of the three threads, and their joins. -/
def startStop : List Label :=
  .call .start :: controllerRun 8 ++ .call .stop ::
    [.wrapper 0 false, .wrapper 0 false, .wrapper 1 false, .wrapper 1 false, .wrapper 2 false,
      .wrapper 2 false] ++ controllerRun 7

theorem lifecycle_start_stop : ∃ m, Runs.run step init startStop = some m ∧
    m.stopReturned = true ∧ m.next = 3 ∧ Lifecycle m := by
  have hrun : ∃ m, Runs.run step init startStop = some m ∧ m.stopReturned = true ∧ m.next = 3 :=
    ⟨_, rfl, rfl, rfl⟩
  obtain ⟨m, hm, hs, hn⟩ := hrun
  refine ⟨m, hm, hs, hn, lifecycle_of_creates (Runs.allSteps_of_labels ?_) hm⟩
  have hlabels : Label.controller false ∉ startStop := by decide
  intro l hl m
  by_contra hno
  rw [(not_creates hno).1] at hl
  exact hlabels hl

/-- `thread_manager_stop` on a manager that was never started returns with the states
still `IDLE`. -/
theorem stop_before_start : ∃ m, Runs.run step init [.call .stop] = some m ∧
    m.controller = .idle ∧ ∀ i, m.states i ≠ .stopped := by
  refine ⟨_, rfl, rfl, ?_⟩
  intro i h
  cases h

end FastRing.Manager
