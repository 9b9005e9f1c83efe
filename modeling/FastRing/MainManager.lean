import FastRing.Application
import FastRing.ManagerInvariant

/-! # The thread manager in the hands of `main`

`main` starts the threads once, so each thread type has at most one thread in a whole
run. Either all threads were created and the thread manager keeps its invariant, or
one was not, and then `main` never calls `thread_manager_stop`. -/

namespace FastRing

/-- The types whose threads `thread_manager_start` has yet to create. -/
def Controller.ahead : Controller → List ThreadType
  | .unpause => ThreadType.all
  | .setRunning todo => todo
  | .create type todo => type :: todo
  | _ => []

/-- The controlling thread is inside `thread_manager_start`. -/
def Controller.isStarting : Controller → Bool
  | .unpause | .setRunning _ | .create _ _ => true
  | _ => false

namespace Manager

variable {m t : Manager}

/-- Each thread is the one behind the handle of its type, as long as every type has
been started at most once. -/
structure Owned (m : Manager) : Prop where
  owner : ∀ id w, m.threads id = some w → m.handles w.type = some id
  ahead : ∀ i ∈ m.controller.ahead, m.handles i = none

theorem Owned.single (h : Owned m) {id id' : Nat} {w w' : Wrapper} (hw : m.threads id = some w)
    (hw' : m.threads id' = some w') (hty : w.type = w'.type) : id = id' := by
  have hid := h.owner id w hw
  rw [hty, h.owner id' w' hw'] at hid
  cases hid
  rfl

theorem Owned.frame (h : Owned m) (ht : t.threads = m.threads) (hh : t.handles = m.handles)
    (ha : t.controller.ahead ⊆ m.controller.ahead) : Owned t := by
  refine ⟨?_, ?_⟩
  · rw [ht, hh]; exact h.owner
  · intro i hi
    rw [hh]
    exact h.ahead i (ha hi)

/-- A thread that changes keeps its type. -/
theorem Owned.replace (h : Owned m) {id : Nat} {w w' : Wrapper} (hw : m.threads id = some w)
    (ht : t.threads = Function.update m.threads id (some w')) (hty : w'.type = w.type)
    (hh : t.handles = m.handles)
    (ha : t.controller.ahead ⊆ m.controller.ahead) : Owned t := by
  refine ⟨?_, ?_⟩
  · intro id' w'' hw'
    rw [ht] at hw'
    rw [hh]
    by_cases hid : id' = id
    · subst hid
      rw [Function.update_self] at hw'
      cases hw'
      rw [hty]
      exact h.owner id' w hw
    · rw [Function.update_of_ne hid] at hw'
      exact h.owner id' w'' hw'
  · intro i hi
    rw [hh]
    exact h.ahead i (ha hi)

theorem Owned.spawn (h : Owned m) {type : ThreadType} {todo : List ThreadType}
    (hc : m.controller = .create type todo) (hn : (type :: todo).Nodup) :
    Owned { m.spawn type with controller := .setRunning todo } := by
  obtain ⟨hmem, _⟩ := List.nodup_cons.mp hn
  have hahead := h.ahead
  rw [hc] at hahead
  refine ⟨?_, ?_⟩
  · intro id w hw
    simp only [Manager.spawn] at hw ⊢
    by_cases hid : id = m.next
    · subst hid
      rw [Function.update_self] at hw
      cases hw
      exact Function.update_self _ _ _
    · rw [Function.update_of_ne hid] at hw
      have hh := h.owner id w hw
      have hne : w.type ≠ type := by
        intro heq
        rw [heq, hahead type List.mem_cons_self] at hh
        cases hh
      rw [Function.update_of_ne hne]
      exact hh
  · intro i hi
    have hi : i ∈ todo := hi
    have hne : i ≠ type := by
      intro heq
      rw [heq] at hi
      exact hmem hi
    simp only [Manager.spawn]
    rw [Function.update_of_ne hne]
    exact hahead i (List.mem_cons_of_mem _ hi)

/-- What the thread manager is doing at each position of `main`. -/
def MainOk (m : Manager) : MainPos → Prop
  | .start => m = .init
  | .starting =>
    m.stopReturned = false ∧
      (m.controller.isStarting = true ∧ m.startReturned = none ∨ m.controller = .idle)
  | .serve => m.stopReturned = false ∧ m.controller = .idle
  | .destroying | .closing | .exit => m.controller.isStarting = false

structure Managed (m : Manager) (main : MainPos) : Prop where
  inv : m.startReturned ≠ some .errorThread → Inv m
  failed : m.startReturned = some .errorThread →
    m.running = false ∧ m.stopReturned = false ∧ (m.controller = .idle ∨ m.controller = .free)
  owned : Owned m
  main : MainOk m main

theorem init_managed : Managed init .start :=
  { inv := fun _ => init_inv
    failed := nofun
    owned := ⟨nofun, nofun⟩
    main := rfl }

/-- Threads stop only after they were all started. -/
theorem Managed.inv_of_stopped {main : MainPos} (h : Managed m main) (hs : m.stopReturned = true) :
    Inv m := by
  refine h.inv fun hf => ?_
  cases (h.failed hf).2.1.symm.trans hs

theorem wrapperStep_managed {main : MainPos} (h : Managed m main) {id : Nat} {more : Bool}
    (hs : m.wrapperStep id more = some t) : Managed t main := by
  obtain ⟨w, states, pos, hw, _, _, rfl⟩ := wrapperStep_frame hs
  refine ⟨fun hne => wrapperStep_inv (h.inv hne) hs, h.failed,
    h.owned.replace hw rfl rfl rfl (List.Subset.refl _), ?_⟩
  have hmain := h.main
  cases main with
  | start =>
    have hinit : m = .init := hmain
    rw [hinit] at hw
    cases hw
  | _ => exact hmain

theorem start_managed {t : Manager} (hs : init.step (.call .start) = some t) :
    Managed t .starting := by
  have hinv := step_inv (l := .call .start) init_inv trivial hs
  cases hs
  exact ⟨fun _ => hinv, nofun, ⟨nofun, fun _ _ => rfl⟩, rfl, .inl ⟨rfl, rfl⟩⟩

theorem destroy_managed {main : MainPos} (h : Managed m main)
    (hs : m.step (.call .destroy) = some t) : Managed t .destroying := by
  have hs' := hs
  simp only [step] at hs'
  split at hs'
  · rename_i hc
    by_cases hrun : m.running = true
    · rw [show m.enter .destroy = _ from if_pos hrun] at hs'
      cases hs'
      refine ⟨fun hne => step_inv (l := .call .destroy) (h.inv hne) trivial hs, fun hf => ?_,
        h.owned.frame rfl rfl (List.nil_subset _), rfl⟩
      cases (h.failed hf).1.symm.trans hrun
    · rw [show m.enter .destroy = _ from if_neg hrun] at hs'
      cases hs'
      refine ⟨fun hne => step_inv (l := .call .destroy) (h.inv hne) trivial hs, fun hf => ?_,
        h.owned.frame rfl rfl (List.nil_subset _), rfl⟩
      exact ⟨(h.failed hf).1, (h.failed hf).2.1, .inr rfl⟩
  · cases hs'

theorem controllerStep_owned (h : Owned m) (hi : Inv m) {created : Bool}
    (hs : m.controllerStep created = some t) : Owned t := by
  have hco := hi.controller
  cases controllerStep_move hs with
  | unpause hc | setRunning hc =>
    refine h.frame rfl rfl ?_
    rw [hc]
    exact List.Subset.refl _
  | create hc =>
    simp only [ControllerOk, hc] at hco
    exact h.spawn hc hco.2.2.1
  | @stopped destroying hc =>
    refine h.frame rfl rfl ?_
    cases destroying with
    | true => exact List.nil_subset _
    | false => exact List.nil_subset _
  | join hc hh hw hd =>
    exact h.replace hw rfl rfl rfl (List.nil_subset _)
  | _ => exact h.frame rfl rfl (List.nil_subset _)

/-- The manager's steps inside a call leave `main` where it is. -/
theorem controllerStep_mainOk {main : MainPos} (h : MainOk m main)
    (hm : main = .starting ∨ main = .destroying) {created : Bool}
    (hs : m.controllerStep created = some t) : MainOk t main := by
  rcases hm with rfl | rfl
  · obtain ⟨hstop, hpos⟩ := h
    cases controllerStep_move hs with
    | unpause hc | setRunning hc | create hc =>
      rw [hc] at hpos
      rcases hpos with hpos | hpos
      · exact ⟨hstop, .inl ⟨rfl, hpos.2⟩⟩
      · cases hpos
    | started hc | fail hc => exact ⟨hstop, .inr rfl⟩
    | stopped hc | noHandle hc | join hc | setStopped hc | free hc =>
      simp [hc, Controller.isStarting] at hpos
  · simp only [MainOk] at h
    cases controllerStep_move hs with
    | unpause hc | setRunning hc | create hc | started hc | fail hc =>
      simp [hc, Controller.isStarting] at h
    | @stopped destroying hc =>
      cases destroying with
      | true => rfl
      | false => rfl
    | noHandle hc | join hc | setStopped hc | free hc => rfl

theorem controllerStep_managed {main : MainPos} (h : Managed m main)
    (hm : main = .starting ∨ main = .destroying) {created : Bool}
    (hs : m.controllerStep created = some t) : Managed t main := by
  have hmain := controllerStep_mainOk h.main hm hs
  by_cases hf : m.startReturned = some .errorThread
  · -- after a failed start, only the release is left
    obtain ⟨hrun, hstop, hc⟩ := h.failed hf
    rcases hc with hc | hc
    · simp [controllerStep, hc] at hs
    · simp only [controllerStep, hc, Option.some.injEq] at hs
      subst hs
      exact ⟨fun hne => absurd hf hne, fun _ => ⟨hrun, hstop, .inl rfl⟩,
        h.owned.frame rfl rfl (List.nil_subset _), hmain⟩
  · have hi := h.inv hf
    have howned := controllerStep_owned h.owned hi hs
    by_cases hok : creates m (.controller created)
    · have hi' := controllerStep_inv hi hok hs
      exact ⟨fun _ => hi', fun hf' => absurd hf' hi'.started, howned, hmain⟩
    · obtain ⟨hl, type, todo, hc⟩ := not_creates hok
      cases hl
      simp only [controllerStep, hc, Bool.false_eq_true, if_false, Option.some.injEq] at hs
      subst hs
      refine ⟨fun hne => absurd rfl hne, fun _ => ⟨rfl, ?_, .inl rfl⟩, howned, hmain⟩
      exact Bool.eq_false_iff.mpr (hi.not_stopped (by rw [hc]; nofun) (by rw [hc]; nofun))

end Manager

end FastRing
