import FastRing.AdcLifecycle

/-! # The samples of a session

Each start begins a new count. As long as nobody takes single samples while the capture thread
runs, the samples of a session are numbered from 0 on without a gap, and the callbacks get them in
this order, each at most once. If there is a callback throughout, it gets all of them. -/

namespace FastRing.Adc

variable {κ δ : Type} {s t : State κ δ} {full : Bool}

/-- The `k`-th sample has the number `k`; the numbers have 32 bits. -/
def Counted (xs : List AdcSample) : Prop := ∀ k x, xs[k]? = some x → x.sequence = UInt32.ofNat k

theorem Counted.append {xs : List AdcSample} (h : Counted xs) {x : AdcSample}
    (hx : x.sequence = UInt32.ofNat xs.length) : Counted (xs ++ [x]) := by
  intro k y hy
  rcases Nat.lt_trichotomy k xs.length with hlt | rfl | hgt
  · rw [List.getElem?_append_left hlt] at hy
    exact h k y hy
  · rw [List.getElem?_concat_length] at hy
    cases hy
    exact hx
  · rw [List.getElem?_eq_none (by rw [List.length_append, List.length_singleton]; omega)] at hy
    cases hy

/-- The samples given to callbacks. -/
def State.samples (s : State κ δ) : List AdcSample := s.delivered.map fun p => p.2.2

/-- `ys` are samples of `xs` in their order, and all of them if `full`. -/
def Conveyed (full : Bool) (ys xs : List AdcSample) : Prop := if full then ys = xs else ys.Sublist xs

theorem conveyed_nil : Conveyed full [] [] := by
  cases full
  · exact List.Sublist.refl []
  · rfl

theorem Conveyed.append {ys xs : List AdcSample} (h : Conveyed full ys xs) (x : AdcSample) :
    Conveyed full (ys ++ [x]) (xs ++ [x]) := by
  cases full
  · exact List.Sublist.append h (List.Sublist.refl _)
  · exact congrArg (· ++ [x]) h

theorem Conveyed.sublist {ys xs : List AdcSample} (h : Conveyed full ys xs) : ys.Sublist xs := by
  cases full
  · exact h
  · exact h ▸ List.Sublist.refl _

/-- No single sample is taken while the capture thread runs, and, if `full`, there is a callback
from the start on. -/
def orderly (full : Bool) (s : State κ δ) : Label κ δ → Prop
  | .call .getSample => s.running = false
  | .call .start => full = true → s.callback ≠ none
  | .call (.setCallback c _) => full = true → c ≠ none
  | _ => True

instance [DecidableEq κ] (full : Bool) (s : State κ δ) :
    (l : Label κ δ) → Decidable (orderly full s l)
  | .call .getSample => inferInstanceAs (Decidable (_ = _))
  | .call .start | .call (.setCallback _ _) => inferInstanceAs (Decidable (_ → _))
  | .call .stop | .call .destroy | .caller .. | .thread .. => isTrue trivial

/-- The sample that was counted last is on its way to the callback. -/
def State.Carries (full : Bool) (s : State κ δ) (x : AdcSample) : Prop :=
  ∃ before, s.taken = before ++ [x] ∧ Conveyed full s.samples before

/-- What the position of a thread that is alive says. -/
def State.Flow (full : Bool) (s : State κ δ) : CapturePos κ δ → Prop
  | .storeSequence _ _ x => x.sequence = s.sequence ∧ Conveyed full s.samples s.taken
  | .lock _ _ x | .copyCallback _ _ x => s.Carries full x
  | .copyData _ _ x c | .unlock _ _ x c _ | .call _ _ x c _ =>
    s.Carries full x ∧ (full = true → c ≠ none)
  | .done => True
  | _ => Conveyed full s.samples s.taken

/-- The calling thread takes a single sample. -/
def CallerPos.sampling : CallerPos κ δ → Bool
  | .generate | .storeSequence _ => true
  | _ => false

theorem not_sampling {c : CallerPos κ δ} {P : Prop} (h : c.sampling = false)
    (hc : c.sampling = true) : P :=
  absurd (h.symm.trans hc) Bool.false_ne_true

/-- If `full`, the calling thread stores a callback. -/
def CallerPos.StoresSome (full : Bool) : CallerPos κ δ → Prop
  | .lock c _ | .storeCallback c _ => full = true → c ≠ none
  | _ => True

structure InOrder (full : Bool) (s : State κ δ) : Prop where
  inv : Inv s
  counted : Counted s.taken
  sampling : s.caller.sampling = true → s.running = false
  next : s.Session ∨ s.caller = .create → s.sequence = UInt32.ofNat s.taken.length
  present : full = true → s.Session ∨ s.caller.starting = true → s.callback ≠ none
  stores : s.caller.StoresSome full
  flow : ∀ id pos, s.threads id = some pos → s.Flow full pos
  rest : NoneAlive s → Conveyed full s.samples s.taken

theorem init_inOrder (intervalUs : UInt64) (null : δ) :
    InOrder full (init intervalUs null : State κ δ) := by
  refine ⟨init_inv intervalUs null, nofun, nofun, ?_, ?_, trivial, nofun, fun _ => conveyed_nil⟩
  · rintro (h | h) <;> cases h
  · rintro _ (h | h) <;> cases h

/-! ## The capture thread -/

/-- Every thread but the one that takes a step has returned. -/
theorem Inv.others_done (h : Inv s) {id id' : Nat} {pos pos' : CapturePos κ δ}
    (hpos : s.threads id = some pos) (hlive : pos ≠ .done) (hne : id' ≠ id)
    (hp : s.threads id' = some pos') : pos' = .done := by
  by_contra hd
  have hid := (h.live id pos hpos hlive).1
  rw [(h.live id' pos' hp hd).1] at hid
  exact hne (Option.some.inj hid)

theorem InOrder.moved (h : InOrder full s) (hinv : Inv t) {id : Nat} {pos pos' : CapturePos κ δ}
    (hpos : s.threads id = some pos) (hlive : pos ≠ .done)
    (ht : t.threads = Function.update s.threads id (some pos')) (hcaller : t.caller = s.caller)
    (hrunning : t.running = s.running) (hcallback : t.callback = s.callback)
    (hcounted : Counted t.taken) (hnext : t.sequence = UInt32.ofNat t.taken.length)
    (hflow : t.Flow full pos') (hrest : pos' = .done → Conveyed full t.samples t.taken) :
    InOrder full t := by
  refine ⟨hinv, hcounted, ?_, fun _ => hnext, ?_, ?_, ?_, ?_⟩
  · rw [hcaller, hrunning]
    exact h.sampling
  · have hsession : t.Session ↔ s.Session := by unfold State.Session; rw [hcaller, hrunning]
    rw [hsession, hcaller, hcallback]
    exact h.present
  · rw [hcaller]
    exact h.stores
  · intro id' pos'' hp
    rw [ht] at hp
    by_cases hid : id' = id
    · subst hid
      rw [Function.update_self] at hp
      cases hp
      exact hflow
    · rw [Function.update_of_ne hid] at hp
      rw [h.inv.others_done hpos hlive hid hp]
      trivial
  · intro hnone
    exact hrest (hnone id pos' (by rw [ht, Function.update_self]))

theorem CaptureMove.inOrder (h : InOrder full s) {id : Nat} {clock : UInt64} {value : Int32}
    {pos : CapturePos κ δ} (hpos : s.threads id = some pos)
    (hm : CaptureMove s id clock value pos t) : InOrder full t := by
  have hinv := hm.inv h.inv hpos
  have hlive := hm.not_done
  have hsession := (h.inv.live id pos hpos hlive).2
  have hnext := h.next (.inl hsession)
  have hflow := h.flow id pos hpos
  cases hm with
  | goto moves =>
    refine h.moved hinv hpos hlive rfl rfl rfl rfl h.counted hnext ?_ ?_
    · cases moves with
      | begin | goOn | due | wait | returned => exact hflow
      | leave => trivial
      | generate => exact ⟨rfl, hflow⟩
      | copyCallback => exact ⟨hflow, fun hf => h.present hf (.inl hsession)⟩
      | copyData => exact hflow
      | noCallback next current x d =>
        obtain ⟨⟨before, he, hc⟩, hsome⟩ := hflow
        cases full with
        | true => exact absurd rfl (hsome rfl)
        | false =>
          have hsub : s.samples.Sublist (before ++ [x]) := hc.trans (List.sublist_append_left _ _)
          rw [← he] at hsub
          exact hsub
    · rintro rfl
      cases moves
      exact hflow
  | count next current x =>
    obtain ⟨hx, hc⟩ := hflow
    have hnum : x.sequence = UInt32.ofNat s.taken.length := hx.trans hnext
    refine h.moved hinv hpos hlive rfl rfl rfl rfl (h.counted.append hnum) ?_ ⟨s.taken, rfl, hc⟩ nofun
    change x.sequence + 1 = UInt32.ofNat (s.taken ++ [x]).length
    rw [hnum, List.length_append, List.length_singleton, UInt32.ofNat_add]
    rfl
  | acquire => exact h.moved hinv hpos hlive rfl rfl rfl rfl h.counted hnext hflow nofun
  | release => exact h.moved hinv hpos hlive rfl rfl rfl rfl h.counted hnext hflow nofun
  | deliver next current x c d =>
    obtain ⟨⟨before, he, hc⟩, _⟩ := hflow
    refine h.moved hinv hpos hlive rfl rfl rfl rfl h.counted hnext ?_ nofun
    have hall := hc.append x
    rw [← he] at hall
    simpa [State.Flow, State.samples, State.goto] using hall

/-! ## The calling thread -/

/-- A step that touches neither the threads nor the count. -/
theorem InOrder.called (h : InOrder full s) (hinv : Inv t) (ht : t.threads = s.threads)
    (htaken : t.taken = s.taken) (hdelivered : t.delivered = s.delivered)
    (hseq : t.sequence = s.sequence) (hsampling : t.caller.sampling = true → t.running = false)
    (hsession : t.Session ∨ t.caller = .create → s.Session ∨ s.caller = .create)
    (hpresent : full = true → t.Session ∨ t.caller.starting = true → t.callback ≠ none)
    (hstores : t.caller.StoresSome full) : InOrder full t := by
  have hflow : t.Flow full = s.Flow full := by
    funext pos
    unfold State.Flow State.Carries State.samples
    rw [htaken, hdelivered, hseq]
  refine ⟨hinv, htaken ▸ h.counted, hsampling, ?_, hpresent, hstores, ?_, ?_⟩
  · rw [hseq, htaken]
    exact fun hs => h.next (hsession hs)
  · rw [ht, hflow]
    exact h.flow
  · unfold NoneAlive State.samples
    rw [ht, htaken, hdelivered]
    exact h.rest

/-- Where no thread is alive the count can begin anew, or be left alone. -/
theorem InOrder.uncounted (h : InOrder full s) (hinv : Inv t) (ht : t.threads = s.threads)
    (hnone : NoneAlive s) (htaken : t.taken = s.taken ∧ t.delivered = s.delivered ∨
      t.taken = [] ∧ t.delivered = [])
    (hsampling : t.caller.sampling = true → t.running = false)
    (hnext : t.Session ∨ t.caller = .create → t.sequence = UInt32.ofNat t.taken.length)
    (hpresent : full = true → t.Session ∨ t.caller.starting = true → t.callback ≠ none)
    (hstores : t.caller.StoresSome full) : InOrder full t := by
  have hflow : ∀ id pos, t.threads id = some pos → t.Flow full pos := by
    intro id pos hp
    rw [ht] at hp
    rw [hnone id pos hp]
    trivial
  refine ⟨hinv, ?_, hsampling, hnext, hpresent, hstores, hflow, fun _ => ?_⟩
  · rcases htaken with ⟨he, _⟩ | ⟨he, _⟩
    · rw [he]; exact h.counted
    · rw [he]; exact nofun
  · unfold State.samples
    rcases htaken with ⟨he, hd⟩ | ⟨he, hd⟩
    · rw [he, hd]; exact h.rest hnone
    · rw [he, hd]; exact conveyed_nil

theorem enter_inOrder (h : InOrder full s) (hidle : s.caller = .idle) (hinv : ∀ c, Inv (s.enter c))
    {c : Call κ δ} (hok : orderly full s (.call c)) : InOrder full (s.enter c) := by
  have hsession : s.Session ↔ s.running = true := by simp only [State.Session, hidle]
  have hpresent := h.present
  have hrun' := hinv c
  cases c with
  | start =>
    rw [State.enter] at hrun' ⊢
    split
    · exact h
    · rw [if_neg ‹_›] at hrun'
      refine h.called hrun' rfl rfl rfl rfl (not_sampling rfl) ?_ (fun hf _ => hok hf) trivial
      rintro (hs | hs) <;> cases hs
  | stop =>
    rw [State.enter] at hrun' ⊢
    split
    · rename_i hrun
      rw [if_pos hrun] at hrun'
      exact h.called hrun' rfl rfl rfl rfl (not_sampling rfl) (fun _ => .inl (hsession.mpr hrun))
        (fun hf _ => hpresent hf (.inl (hsession.mpr hrun))) trivial
    · exact h
  | destroy =>
    rw [State.enter] at hrun' ⊢
    split
    · rename_i hrun
      rw [if_pos hrun] at hrun'
      exact h.called hrun' rfl rfl rfl rfl (not_sampling rfl) (fun _ => .inl (hsession.mpr hrun))
        (fun hf _ => hpresent hf (.inl (hsession.mpr hrun))) trivial
    · rw [if_neg ‹_›] at hrun'
      refine h.called hrun' rfl rfl rfl rfl (not_sampling rfl) ?_ ?_ trivial
      · rintro (hs | hs) <;> cases hs
      · rintro _ (hs | hs) <;> cases hs
  | setCallback c d =>
    refine h.called hrun' rfl rfl rfl rfl (not_sampling rfl) ?_ ?_ hok
    · rintro (hs | hs)
      · exact .inl (hsession.mpr hs)
      · cases hs
    · rintro hf (hs | hs)
      · exact hpresent hf (.inl (hsession.mpr hs))
      · cases hs
  | getSample =>
    refine h.called hrun' rfl rfl rfl rfl (fun _ => hok) ?_ ?_ trivial
    · rintro (hs | hs)
      · exact .inl (hsession.mpr hs)
      · cases hs
    · rintro hf (hs | hs)
      · exact hpresent hf (.inl (hsession.mpr hs))
      · cases hs

theorem CallerMove.inOrder (h : InOrder full s) {clock : UInt64} {value : Int32}
    (hm : CallerMove s clock value t) : InOrder full t := by
  have hinv := hm.inv h.inv
  have hok := h.inv.caller
  have hpresent := h.present
  have hstores := h.stores
  unfold State.CallerOk at hok
  cases hm with
  | startTime at' =>
    rw [at'] at hpresent
    refine h.called hinv rfl rfl rfl rfl (not_sampling rfl) ?_ (fun hf _ => hpresent hf (.inr rfl))
      trivial
    rintro (hs | hs) <;> cases hs
  | reset at' =>
    rw [at'] at hpresent
    have hnone : NoneAlive s := fun id pos hp => h.inv.none_live (by simp [State.Session, at']) hp
    exact h.uncounted hinv rfl hnone (.inr ⟨rfl, rfl⟩) (not_sampling rfl) (fun _ => rfl)
      (fun hf _ => hpresent hf (.inr rfl)) trivial
  | create at' =>
    rw [at'] at hpresent
    have hnone : NoneAlive s := fun id pos hp => h.inv.none_live (by simp [State.Session, at']) hp
    refine ⟨hinv, h.counted, not_sampling rfl, fun _ => h.next (.inr at'),
      fun hf _ => hpresent hf (.inr rfl), trivial, ?_, fun _ => h.rest hnone⟩
    intro id pos hp
    simp only [State.spawn] at hp
    by_cases hid : id = s.created
    · subst hid
      rw [Function.update_self] at hp
      cases hp
      exact h.rest hnone
    · rw [Function.update_of_ne hid] at hp
      rw [hnone id pos hp]
      trivial
  | fail at' =>
    rw [at'] at hpresent
    refine h.called hinv rfl rfl rfl rfl (not_sampling rfl) ?_ (fun hf _ => hpresent hf (.inr rfl))
      trivial
    rintro (hs | hs) <;> cases hs
  | failed at' =>
    refine h.called hinv rfl rfl rfl rfl (not_sampling rfl) ?_ ?_ trivial
    · rintro (hs | hs) <;> cases hs
    · rintro _ (hs | hs) <;> cases hs
  | joined destroying at' id handle done =>
    rw [at'] at hok
    have hsession : s.Session := by simp [State.Session, at']
    refine h.called hinv rfl rfl rfl rfl (not_sampling (by cases destroying <;> rfl))
      (fun _ => .inl hsession) (fun hf _ => hpresent hf (.inl hsession))
      (by cases destroying <;> trivial)
  | free at' =>
    rw [at'] at hok
    refine h.called hinv rfl rfl rfl rfl (not_sampling rfl) ?_ ?_ trivial
    · rintro (hs | hs)
      · exact absurd (hok.1.symm.trans hs) Bool.false_ne_true
      · cases hs
    · rintro _ (hs | hs)
      · exact absurd (hok.1.symm.trans hs) Bool.false_ne_true
      · cases hs
  | acquire c d at' free =>
    rw [at'] at hstores
    refine h.called hinv rfl rfl rfl rfl (not_sampling rfl) ?_ ?_ hstores
    · rintro (hs | hs)
      · exact .inl (by simpa [State.Session, at'] using hs)
      · cases hs
    · rintro hf (hs | hs)
      · exact hpresent hf (.inl (by simpa [State.Session, at'] using hs))
      · cases hs
  | callback c d at' =>
    rw [at'] at hstores
    refine h.called hinv rfl rfl rfl rfl (not_sampling rfl) ?_ (fun hf _ => hstores hf) trivial
    rintro (hs | hs)
    · exact .inl (by simpa [State.Session, at'] using hs)
    · cases hs
  | data c d at' | release at' =>
    refine h.called hinv rfl rfl rfl rfl (not_sampling rfl) ?_ ?_ trivial
    · rintro (hs | hs)
      · exact .inl (by simpa [State.Session, at'] using hs)
      · cases hs
    · rintro hf (hs | hs)
      · exact hpresent hf (.inl (by simpa [State.Session, at'] using hs))
      · cases hs
  | generate at' =>
    have hrun := h.sampling (by rw [at']; rfl)
    refine h.called hinv rfl rfl rfl rfl (fun _ => hrun) ?_ ?_ trivial
    · rintro (hs | hs)
      · exact absurd (hrun.symm.trans hs) Bool.false_ne_true
      · cases hs
    · rintro _ (hs | hs)
      · exact absurd (hrun.symm.trans hs) Bool.false_ne_true
      · cases hs
  | count x at' =>
    have hrun := h.sampling (by rw [at']; rfl)
    have hnone : NoneAlive s := by
      refine fun id pos hp => h.inv.none_live ?_ hp
      simp [State.Session, at', hrun]
    refine h.uncounted hinv rfl hnone (.inl ⟨rfl, rfl⟩) (not_sampling rfl) ?_ ?_ trivial
    · rintro (hs | hs)
      · exact absurd (hrun.symm.trans hs) Bool.false_ne_true
      · cases hs
    · rintro _ (hs | hs)
      · exact absurd (hrun.symm.trans hs) Bool.false_ne_true
      · cases hs

/-! ## Runs -/

theorem step_inOrder {l : Label κ δ} (h : InOrder full s) (hok : orderly full s l)
    (hs : step s l = some t) : InOrder full t := by
  cases l with
  | call c =>
    obtain ⟨hidle, hrel, rfl⟩ := step_call hs
    exact enter_inOrder h hidle (fun c => enter_inv h.inv hidle hrel c) hok
  | caller clock created value => exact (step_caller hs).inOrder h
  | thread id clock value =>
    obtain ⟨pos, hpos, hm⟩ := step_thread hs
    exact hm.inOrder h hpos

/-- At any moment at most one sample of the session is on its way to the callback. -/
theorem InOrder.all_but_one (h : InOrder full s) :
    Conveyed full s.samples s.taken ∨ ∃ x, s.Carries full x ∧ ¬ NoneAlive s := by
  by_cases hnone : NoneAlive s
  · exact .inl (h.rest hnone)
  · obtain ⟨id, pos, hp, hd⟩ : ∃ id pos, s.threads id = some pos ∧ pos ≠ .done := by
      simpa [NoneAlive] using hnone
    have hflow := h.flow id pos hp
    cases pos with
    | done => exact absurd rfl hd
    | begin | readRunning | look | generate | inside => exact .inl hflow
    | storeSequence => exact .inl hflow.2
    | lock next current x | copyCallback next current x => exact .inr ⟨x, hflow, hnone⟩
    | copyData next current x | unlock next current x | call next current x =>
      exact .inr ⟨x, hflow.1, hnone⟩

/-- The samples of a session are numbered from 0 on and given to the callbacks in this order; if
there is a callback throughout, it gets every one of them. -/
theorem session_numbered (full : Bool) (intervalUs : UInt64) (null : δ) (ls : List (Label κ δ))
    (s : State κ δ) (hok : Runs.AllSteps step (orderly full) (init intervalUs null) ls)
    (h : Runs.run step (init intervalUs null) ls = some s) :
    Counted s.taken ∧ s.samples.Sublist s.taken ∧
      (full = true → s.taken = s.samples ∨ ∃ x, s.taken = s.samples ++ [x] ∧ ¬ NoneAlive s) := by
  have hi : InOrder full s :=
    Runs.invariant_of_steps (fun _ _ _ => step_inOrder) (init_inOrder intervalUs null) hok h
  refine ⟨hi.counted, ?_, ?_⟩
  · rcases hi.all_but_one with hc | ⟨x, ⟨before, he, hc⟩, _⟩
    · exact hc.sublist
    · rw [he]
      exact hc.sublist.trans (List.sublist_append_left _ _)
  · rintro rfl
    rcases hi.all_but_one with hc | ⟨x, ⟨before, he, hc⟩, hnone⟩
    · exact .inl (Eq.symm hc)
    · have hb : s.samples = before := hc
      exact .inr ⟨x, hb ▸ he, hnone⟩

theorem session_numbered_two : ∃ s : State Nat Nat,
    Runs.run step (init 25 0) twoCallbacksRun = some s ∧ s.taken.length = 2 ∧ Counted s.taken ∧
      (s.taken = s.samples ∨ ∃ x, s.taken = s.samples ++ [x] ∧ ¬ NoneAlive s) := by
  have hrun : ∃ s : State Nat Nat, Runs.run step (init 25 0) twoCallbacksRun = some s ∧
      s.taken.length = 2 := ⟨_, rfl, rfl⟩
  have hok : Runs.AllSteps step (orderly true) (init 25 0 : State Nat Nat) twoCallbacksRun := by
    decide
  obtain ⟨s, hs, htwo⟩ := hrun
  obtain ⟨hcounted, _, hall⟩ := session_numbered true 25 0 twoCallbacksRun s hok hs
  exact ⟨s, hs, htwo, hcounted, hall rfl⟩

end FastRing.Adc
