import FastRing.ThreadManager

/-! # The invariant of the thread manager

As long as every thread can be created, the manager keeps track of its threads: the
threads not joined yet are exactly those behind the handles of the types that the
controlling thread's position says are active. -/

namespace FastRing

theorem ThreadType.mem_all (i : ThreadType) : i ∈ ThreadType.all := by
  cases i <;> decide

theorem ThreadType.all_nodup : ThreadType.all.Nodup := by decide

namespace Manager

variable {m t : Manager}

/-- A thread of the type exists and is not joined. -/
def Active (m : Manager) (i : ThreadType) : Prop :=
  match m.controller with
  | .idle => m.running = true
  | .unpause | .free => False
  | .setRunning todo => i ∉ todo
  | .create type todo => i ∉ type :: todo
  | .join todo _ | .setStopped _ todo _ => i ∈ todo

/-- The loops visit each type once, `running` is set exactly from the start of the
threads to their stop, and a type is marked as running before its thread is created. -/
def ControllerOk (m : Manager) : Prop :=
  match m.controller with
  | .idle => m.released = true → m.running = false
  | .unpause => m.running = true ∧ m.released = false
  | .setRunning todo => m.running = true ∧ m.released = false ∧ todo.Nodup
  | .create type todo =>
    m.running = true ∧ m.released = false ∧ (type :: todo).Nodup ∧ m.states type = .running
  | .join todo _ | .setStopped _ todo _ => m.running = false ∧ m.released = false ∧ todo.Nodup
  | .free => m.running = false ∧ m.released = false

structure Inv (m : Manager) : Prop where
  controller : ControllerOk m
  fresh : ∀ id, m.next ≤ id → m.threads id = none
  unjoined : ∀ id w, m.threads id = some w → w.joined = false →
    m.handles w.type = some id ∧ Active m w.type
  handle : ∀ i, Active m i → ∃ id w, m.handles i = some id ∧ m.threads id = some w ∧
    w.type = i ∧ w.joined = false
  returned : ∀ id w, m.threads id = some w → w.joined = true → w.pos = .done
  started : m.startReturned ≠ some .errorThread
  stopped : m.stopReturned = true → m.running = false ∧ (m.controller = .idle ∨ m.controller = .free)

theorem init_inv : Inv init :=
  { controller := nofun
    fresh := fun _ _ => rfl
    unjoined := nofun
    handle := nofun
    returned := nofun
    started := nofun
    stopped := nofun }

theorem Inv.live_unjoined (h : Inv m) {id : Nat} {w : Wrapper} (hw : m.threads id = some w)
    (hl : w.live) : w.joined = false := by
  cases hj : w.joined with
  | false => rfl
  | true => exact absurd (h.returned id w hw hj) hl

theorem Inv.not_live (h : Inv m) (hn : ∀ i, ¬ Active m i) {id : Nat} {w : Wrapper}
    (hw : m.threads id = some w) : ¬ w.live := by
  intro hl
  exact hn w.type (h.unjoined id w hw (h.live_unjoined hw hl)).2

/-! ## The steps -/

/-- A step that touches no thread and no handle, and keeps what is active. -/
theorem Inv.frame (h : Inv m) (hc : ControllerOk t) (ht : t.threads = m.threads)
    (hh : t.handles = m.handles) (hn : t.next = m.next) (ha : ∀ i, Active t i ↔ Active m i)
    (hs : t.startReturned ≠ some .errorThread)
    (hstop : t.stopReturned = true →
      t.running = false ∧ (t.controller = .idle ∨ t.controller = .free)) : Inv t := by
  refine ⟨hc, ?_, ?_, ?_, ?_, hs, hstop⟩
  · rw [ht, hn]; exact h.fresh
  · intro id w hw hj
    rw [ht] at hw
    rw [hh, ha]
    exact h.unjoined id w hw hj
  · intro i hi
    rw [ha] at hi
    rw [ht, hh]
    exact h.handle i hi
  · rw [ht]; exact h.returned

/-- While threads are started or stopped, `thread_manager_stop` has not returned. -/
theorem Inv.not_stopped (h : Inv m) (hidle : m.controller ≠ .idle) (hfree : m.controller ≠ .free) :
    m.stopReturned ≠ true := by
  intro hs
  rcases (h.stopped hs).2 with hc | hc
  · exact hidle hc
  · exact hfree hc

theorem Inv.not_stopped_of_running (h : Inv m) (hrun : m.running = true) :
    m.stopReturned ≠ true := by
  intro hs
  cases hrun.symm.trans (h.stopped hs).1

theorem active_idle (hc : m.controller = .idle) {i : ThreadType} :
    Active m i ↔ m.running = true := by
  simp only [Active, hc]

/-- The entry into `thread_manager_stop` with threads to join. -/
theorem enterStop_inv (h : Inv m) (hc : m.controller = .idle) (hr : m.released = false)
    (hrun : m.running = true) (destroying : Bool) :
    Inv { m with running := false, controller := .join ThreadType.all destroying } := by
  refine h.frame ⟨rfl, hr, ThreadType.all_nodup⟩ rfl rfl rfl (fun i => ?_) h.started
    (fun hs => absurd hs (h.not_stopped_of_running hrun))
  rw [active_idle hc]
  exact ⟨fun _ => hrun, fun _ => ThreadType.mem_all i⟩

/-- A step that only sets `paused`, or the result of a start that had nothing to do. -/
theorem Inv.idle_frame (h : Inv m) (hc : m.controller = .idle) (paused : Bool)
    (created : List Nat) {started : Option AdcError} (hs : started ≠ some .errorThread) :
    Inv { m with paused := paused, created := created, startReturned := started } := by
  have hco := h.controller
  refine h.frame ?_ rfl rfl rfl (fun i => ?_) hs h.stopped
  · simp only [ControllerOk, hc] at hco ⊢; exact hco
  · simp only [Active, hc]

theorem enter_inv (h : Inv m) (hc : m.controller = .idle) (hr : m.released = false) (c : Call) :
    Inv (m.enter c) := by
  cases c with
  | start =>
    by_cases hrun : m.running = true
    · rw [show m.enter .start = _ from if_pos hrun]
      exact h.idle_frame hc m.paused [] nofun
    · rw [show m.enter .start = _ from if_neg hrun]
      refine h.frame ⟨rfl, hr⟩ rfl rfl rfl (fun i => ?_) nofun nofun
      rw [active_idle hc]
      exact ⟨False.elim, hrun⟩
  | stop =>
    by_cases hrun : m.running = true
    · rw [show m.enter .stop = _ from if_pos hrun]
      exact enterStop_inv h hc hr hrun false
    · rw [show m.enter .stop = _ from if_neg hrun]
      exact h
  | pause => exact h.idle_frame hc true m.created h.started
  | resume => exact h.idle_frame hc false m.created h.started
  | destroy =>
    by_cases hrun : m.running = true
    · rw [show m.enter .destroy = _ from if_pos hrun]
      exact enterStop_inv h hc hr hrun true
    · rw [show m.enter .destroy = _ from if_neg hrun]
      have hrun' : m.running = false := by simpa using hrun
      refine h.frame ⟨hrun', hr⟩ rfl rfl rfl (fun i => ?_) h.started
        (fun _ => ⟨hrun', .inr rfl⟩)
      rw [active_idle hc]
      exact ⟨False.elim, hrun⟩

/-- A new thread of a type that had none. -/
theorem spawn_inv (h : Inv m) {type : ThreadType} {todo : List ThreadType}
    (hc : m.controller = .create type todo) :
    Inv { m.spawn type with controller := .setRunning todo } := by
  have hco := h.controller
  simp only [ControllerOk, hc] at hco
  obtain ⟨hrun, hrel, hnodup, _⟩ := hco
  have hactive : ∀ i, Active m i ↔ i ∉ type :: todo := by
    intro i
    simp only [Active, hc]
  have hnew : m.threads m.next = none := h.fresh _ (Nat.le_refl _)
  refine ⟨⟨hrun, hrel, (List.nodup_cons.mp hnodup).2⟩, ?_, ?_, ?_, ?_, h.started,
    fun hs => absurd hs (h.not_stopped_of_running hrun)⟩
  · intro id hid
    simp only [spawn] at hid ⊢
    rw [Function.update_of_ne (by omega)]
    exact h.fresh id (by omega)
  · intro id w hw hj
    simp only [spawn] at hw ⊢
    by_cases hid : id = m.next
    · subst hid
      rw [Function.update_self] at hw
      cases hw
      exact ⟨Function.update_self _ _ _, (List.nodup_cons.mp hnodup).1⟩
    · rw [Function.update_of_ne hid] at hw
      obtain ⟨hh, ha⟩ := h.unjoined id w hw hj
      rw [hactive, List.mem_cons, not_or] at ha
      exact ⟨by rw [Function.update_of_ne ha.1]; exact hh, ha.2⟩
  · intro i hi
    simp only [spawn]
    by_cases hit : i = type
    · subst hit
      exact ⟨m.next, _, Function.update_self _ _ _, Function.update_self _ _ _, rfl, rfl⟩
    · obtain ⟨id, w, hh, hw, hty, hj⟩ := h.handle i ((hactive i).mpr (by
        rw [List.mem_cons, not_or]; exact ⟨hit, hi⟩))
      have hid : id ≠ m.next := by
        rintro rfl
        rw [hnew] at hw
        cases hw
      exact ⟨id, w, by rw [Function.update_of_ne hit]; exact hh,
        by rw [Function.update_of_ne hid]; exact hw, hty, hj⟩
  · intro id w hw hj
    simp only [spawn] at hw
    by_cases hid : id = m.next
    · subst hid
      rw [Function.update_self] at hw
      cases hw
      cases hj
    · rw [Function.update_of_ne hid] at hw
      exact h.returned id w hw hj

/-- A step that changes one thread, not joined before: the thread moves on, or it is
joined, and then its type is no longer active. -/
theorem Inv.replace (h : Inv m) {id : Nat} {w w' : Wrapper} (hw : m.threads id = some w)
    (hj : w.joined = false) (ht : t.threads = Function.update m.threads id (some w'))
    (hh : t.handles = m.handles) (hn : t.next = m.next) (hty : w'.type = w.type)
    (hd : w'.joined = true → w'.pos = .done)
    (ha : ∀ i, Active t i ↔ Active m i ∧ (i = w.type → w'.joined = false))
    (hc : ControllerOk t) (hs : t.startReturned ≠ some .errorThread)
    (hstop : t.stopReturned = true →
      t.running = false ∧ (t.controller = .idle ∨ t.controller = .free)) : Inv t := by
  obtain ⟨hhw, haw⟩ := h.unjoined id w hw hj
  refine ⟨hc, ?_, ?_, ?_, ?_, hs, hstop⟩
  · intro id' hid'
    rw [hn] at hid'
    have hne : id' ≠ id := by
      rintro rfl
      rw [h.fresh _ hid'] at hw
      cases hw
    rw [ht, Function.update_of_ne hne]
    exact h.fresh id' hid'
  · intro id' w'' hw' hj'
    rw [hh, ha]
    by_cases hid : id' = id
    · subst hid
      rw [ht, Function.update_self] at hw'
      cases hw'
      rw [hty]
      exact ⟨hhw, haw, fun _ => hj'⟩
    · rw [ht, Function.update_of_ne hid] at hw'
      obtain ⟨hh', ha'⟩ := h.unjoined id' w'' hw' hj'
      refine ⟨hh', ha', fun heq => ?_⟩
      rw [heq, hhw] at hh'
      cases hh'
      exact absurd rfl hid
  · intro i hi
    rw [ha] at hi
    obtain ⟨id', w'', hh', hw', hty', hj'⟩ := h.handle i hi.1
    rw [hh, ht]
    by_cases hid : id' = id
    · subst hid
      rw [hw] at hw'
      cases hw'
      exact ⟨id', w', hh', Function.update_self _ _ _, hty.trans hty', hi.2 hty'.symm⟩
    · exact ⟨id', w'', hh', by rw [Function.update_of_ne hid]; exact hw', hty', hj'⟩
  · intro id' w'' hw' hj'
    by_cases hid : id' = id
    · subst hid
      rw [ht, Function.update_self] at hw'
      cases hw'
      exact hd hj'
    · rw [ht, Function.update_of_ne hid] at hw'
      exact h.returned id' w'' hw' hj'

/-- The thread `thread_manager_stop` is going to join. -/
theorem Inv.to_join (h : Inv m) {type : ThreadType} {todo : List ThreadType} {destroying : Bool}
    (hc : m.controller = .join (type :: todo) destroying) :
    ∃ id w, m.handles type = some id ∧ m.threads id = some w ∧ w.type = type ∧
      w.joined = false := by
  refine h.handle type ?_
  simp only [Active, hc]
  exact List.mem_cons_self

theorem join_inv (h : Inv m) {type : ThreadType} {todo : List ThreadType} {destroying : Bool}
    (hc : m.controller = .join (type :: todo) destroying) {id : Nat} {w : Wrapper}
    (hw : m.threads id = some w) (hty : w.type = type) (hj : w.joined = false)
    (hd : w.pos = .done) :
    Inv { m with
      threads := Function.update m.threads id (some { w with joined := true })
      controller := .setStopped type todo destroying } := by
  have hco := h.controller
  simp only [ControllerOk, hc] at hco
  obtain ⟨hrun, hrel, hnodup⟩ := hco
  obtain ⟨hmem, hnodup⟩ := List.nodup_cons.mp hnodup
  refine h.replace hw hj rfl rfl rfl rfl (fun _ => hd) (fun i => ?_) ⟨hrun, hrel, hnodup⟩ h.started
    (fun hs => absurd hs (h.not_stopped (by rw [hc]; nofun) (by rw [hc]; nofun)))
  have hactive : Active m i ↔ i ∈ type :: todo := by simp only [Active, hc]
  rw [hactive, List.mem_cons, hty]
  constructor
  · intro hi
    have hi : i ∈ todo := hi
    refine ⟨.inr hi, fun heq => ?_⟩
    rw [heq] at hi
    exact absurd hi hmem
  · intro h
    rcases h with ⟨heq | hi, hne⟩
    · cases hne heq
    · exact hi

/-- What a wrapper thread's step changes: its position, and on its way out the state of
its own type. -/
theorem wrapperStep_frame {id : Nat} {more : Bool} (h : m.wrapperStep id more = some t) :
    ∃ w states pos, m.threads id = some w ∧ w.live ∧
      (∀ i, states i = m.states i ∨ i = w.type ∧ states i = .stopped) ∧
      t = { m with
        states := states
        threads := Function.update m.threads id (some { w with pos := pos }) } := by
  unfold wrapperStep at h
  split at h
  · cases h
  · rename_i w hw
    split at h
    · cases h
    · rename_i hd
      cases h
      refine ⟨w, _, _, hw, hd, ?_, rfl⟩
      intro i
      split
      · by_cases hi : i = w.type
        · rw [hi, Function.update_self]
          exact .inr ⟨rfl, rfl⟩
        · rw [Function.update_of_ne hi]
          exact .inl rfl
      · exact .inl rfl

/-- A thread that has not returned moves on; the state it may write on its way out is
that of its own type. -/
theorem wrapperStep_inv (h : Inv m) {id : Nat} {more : Bool}
    (hs : m.wrapperStep id more = some t) : Inv t := by
  obtain ⟨w, states, pos, hw, hd, hstates, rfl⟩ := wrapperStep_frame hs
  have hj := h.live_unjoined hw hd
  have hactive := (h.unjoined id w hw hj).2
  refine h.replace hw hj rfl rfl rfl rfl (fun hj' => ?_) (fun i => ?_) ?_ h.started h.stopped
  · have hj' : w.joined = true := hj'
    rw [hj] at hj'
    cases hj'
  · exact ⟨fun hi => ⟨hi, fun _ => hj⟩, And.left⟩
  · have hco := h.controller
    cases hc : m.controller with
    | create type todo =>
      simp only [ControllerOk, Active, hc] at hco hactive ⊢
      obtain ⟨hrun, hrel, hnodup, hst⟩ := hco
      refine ⟨hrun, hrel, hnodup, ?_⟩
      rcases hstates type with heq | ⟨heq, _⟩
      · rw [heq]
        exact hst
      · rw [← heq] at hactive
        exact absurd List.mem_cons_self hactive
    | _ => simp only [ControllerOk, hc] at hco ⊢; exact hco

/-- The step is not a thread creation that fails. -/
def creates (m : Manager) : Label → Prop
  | .controller false =>
    match m.controller with
    | .create _ _ => False
    | _ => True
  | _ => True

theorem not_creates {l : Label} (h : ¬ creates m l) :
    l = .controller false ∧ ∃ type todo, m.controller = .create type todo := by
  match l with
  | .call c => exact absurd trivial h
  | .controller true => exact absurd trivial h
  | .wrapper id more => exact absurd trivial h
  | .controller false =>
    refine ⟨rfl, ?_⟩
    cases hc : m.controller with
    | create type todo => exact ⟨type, todo, rfl⟩
    | _ => simp [creates, hc] at h

/-- Everything the controlling thread's next access can do. -/
inductive ControllerMove (m : Manager) (created : Bool) : Manager → Prop
  | unpause (hc : m.controller = .unpause) :
    ControllerMove m created { m with paused := false, controller := .setRunning ThreadType.all }
  | started (hc : m.controller = .setRunning []) :
    ControllerMove m created { m with controller := .idle, startReturned := some .ok }
  | setRunning {type : ThreadType} {todo : List ThreadType}
    (hc : m.controller = .setRunning (type :: todo)) :
    ControllerMove m created
      { m with
        states := Function.update m.states type .running
        controller := .create type todo }
  | create {type : ThreadType} {todo : List ThreadType} (hc : m.controller = .create type todo)
    (hok : created = true) :
    ControllerMove m created { m.spawn type with controller := .setRunning todo }
  | fail {type : ThreadType} {todo : List ThreadType} (hc : m.controller = .create type todo)
    (hok : created = false) :
    ControllerMove m created
      { m with running := false, controller := .idle, startReturned := some .errorThread }
  | stopped {destroying : Bool} (hc : m.controller = .join [] destroying) :
    ControllerMove m created
      { m with controller := if destroying then .free else .idle, stopReturned := true }
  | noHandle {type : ThreadType} {todo : List ThreadType} {destroying : Bool}
    (hc : m.controller = .join (type :: todo) destroying) (hh : m.handles type = none) :
    ControllerMove m created { m with controller := .setStopped type todo destroying }
  | join {type : ThreadType} {todo : List ThreadType} {destroying : Bool} {id : Nat} {w : Wrapper}
    (hc : m.controller = .join (type :: todo) destroying) (hh : m.handles type = some id)
    (hw : m.threads id = some w) (hd : w.pos = .done) :
    ControllerMove m created
      { m with
        threads := Function.update m.threads id (some { w with joined := true })
        controller := .setStopped type todo destroying }
  | setStopped {type : ThreadType} {todo : List ThreadType} {destroying : Bool}
    (hc : m.controller = .setStopped type todo destroying) :
    ControllerMove m created
      { m with
        states := Function.update m.states type .stopped
        controller := .join todo destroying }
  | free (hc : m.controller = .free) :
    ControllerMove m created { m with released := true, controller := .idle }

theorem controllerStep_move {created : Bool} (hs : m.controllerStep created = some t) :
    ControllerMove m created t := by
  unfold controllerStep at hs
  split at hs
  · cases hs
  · rename_i hc
    cases hs
    exact .unpause hc
  · rename_i hc
    cases hs
    exact .started hc
  · rename_i hc
    cases hs
    exact .setRunning hc
  · rename_i hc
    split at hs
    · rename_i hok
      cases hs
      exact .create hc hok
    · rename_i hok
      cases hs
      exact .fail hc (by simpa using hok)
  · rename_i hc
    cases hs
    exact .stopped hc
  · rename_i hc
    split at hs
    · rename_i hh
      cases hs
      exact .noHandle hc hh
    · rename_i hh
      split at hs
      · cases hs
      · rename_i hw
        split at hs
        · rename_i hd
          cases hs
          exact .join hc hh hw hd
        · cases hs
  · rename_i hc
    cases hs
    exact .setStopped hc
  · rename_i hc
    cases hs
    exact .free hc

theorem controllerStep_inv (h : Inv m) {created : Bool} (hok : creates m (.controller created))
    (hs : m.controllerStep created = some t) : Inv t := by
  have hco := h.controller
  cases controllerStep_move hs with
  | unpause hc =>
    simp only [ControllerOk, hc] at hco
    refine h.frame ⟨hco.1, hco.2, ThreadType.all_nodup⟩ rfl rfl rfl (fun i => ?_) h.started
      (fun hs => absurd hs (h.not_stopped_of_running hco.1))
    simp only [Active, hc]
    exact ⟨fun hi => hi (ThreadType.mem_all i), False.elim⟩
  | started hc =>
    simp only [ControllerOk, hc] at hco
    refine h.frame ?_ rfl rfl rfl (fun i => ?_) nofun
      (fun hs => absurd hs (h.not_stopped_of_running hco.1))
    · intro hrel
      cases hco.2.1.symm.trans hrel
    · simp only [Active, hc]
      exact ⟨fun _ => List.not_mem_nil, fun _ => hco.1⟩
  | setRunning hc =>
    simp only [ControllerOk, hc] at hco
    refine h.frame ⟨hco.1, hco.2.1, hco.2.2, Function.update_self _ _ _⟩ rfl rfl rfl (fun i => ?_)
      h.started (fun hs => absurd hs (h.not_stopped_of_running hco.1))
    simp only [Active, hc]
  | create hc => exact spawn_inv h hc
  | fail hc hfalse =>
    subst hfalse
    simp only [creates, hc] at hok
  | @stopped destroying hc =>
    simp only [ControllerOk, hc] at hco
    cases destroying with
    | true =>
      refine h.frame ⟨hco.1, hco.2.1⟩ rfl rfl rfl (fun i => ?_) h.started
        (fun _ => ⟨hco.1, .inr rfl⟩)
      simp only [Active, hc, if_true, List.not_mem_nil]
    | false =>
      refine h.frame (fun _ => hco.1) rfl rfl rfl (fun i => ?_) h.started
        (fun _ => ⟨hco.1, .inl rfl⟩)
      simp [Active, hc, hco.1]
  | noHandle hc hh =>
    obtain ⟨id, w, hh', _⟩ := h.to_join hc
    cases hh.symm.trans hh'
  | join hc hh hw hd =>
    obtain ⟨id, w, hh', hw', hty, hj⟩ := h.to_join hc
    cases hh.symm.trans hh'
    cases hw.symm.trans hw'
    exact join_inv h hc hw hty hj hd
  | setStopped hc =>
    simp only [ControllerOk, hc] at hco
    refine h.frame hco rfl rfl rfl (fun i => ?_) h.started
      (fun hs => absurd hs (h.not_stopped (by rw [hc]; nofun) (by rw [hc]; nofun)))
    simp only [Active, hc]
  | free hc =>
    simp only [ControllerOk, hc] at hco
    refine h.frame (fun _ => hco.1) rfl rfl rfl (fun i => ?_) h.started
      (fun _ => ⟨hco.1, .inl rfl⟩)
    simp [Active, hc, hco.1]

theorem step_inv {l : Label} (h : Inv m) (hok : creates m l) (hs : m.step l = some t) : Inv t := by
  cases l with
  | call c =>
    simp only [step] at hs
    split at hs
    · rename_i hc
      cases hs
      exact enter_inv h hc.1 hc.2 c
    · cases hs
  | controller created => exact controllerStep_inv h hok hs
  | wrapper id more => exact wrapperStep_inv h hs

end Manager

end FastRing
