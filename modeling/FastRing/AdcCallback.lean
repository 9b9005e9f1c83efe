import FastRing.AdcLifecycle

/-! # Which callback is called

The lock keeps a callback and its `user_data` together: the capture thread copies both, or neither,
of what one call of `adc_simulator_set_callback` stores. The call itself is made outside the lock,
so a callback that is replaced can still be called once after the replacing call has returned. -/

namespace FastRing.Adc

variable {κ δ : Type} {s t : State κ δ} {Ok : Option κ → δ → Prop}

/-- What the calling thread is about to store is a pair that is `Ok`. -/
def State.StoresOk (Ok : Option κ → δ → Prop) (s : State κ δ) : Prop :=
  match s.caller with
  | .lock c d | .storeCallback c d => Ok c d
  | .storeData c d => Ok c d ∧ s.callback = c
  | _ => True

/-- What a capture thread has copied: the present pair, as long as it holds the lock. -/
def State.CopiesOk (Ok : Option κ → δ → Prop) (s : State κ δ) : CapturePos κ δ → Prop
  | .copyData _ _ _ c => c = s.callback
  | .unlock _ _ _ c d => c = s.callback ∧ d = s.callbackData
  | .call _ _ _ c d => Ok c d
  | _ => True

structure Paired (Ok : Option κ → δ → Prop) (s : State κ δ) : Prop where
  inv : Inv s
  stores : s.StoresOk Ok
  pair : (∀ c d, s.caller ≠ .storeData c d) → Ok s.callback s.callbackData
  copies : ∀ id pos, s.threads id = some pos → s.CopiesOk Ok pos
  delivered : ∀ p ∈ s.delivered, Ok (some p.1) p.2.1

/-- Inside its critical section a capture thread finds the calling thread outside of its own. -/
theorem Inv.excludes (h : Inv s) {id : Nat} {pos : CapturePos κ δ} (hp : s.threads id = some pos)
    (hh : pos.holds = true) : s.caller.holds = false := by
  have ho := (h.threadOwns id).mpr ⟨pos, hp, hh⟩
  cases hc : s.caller.holds with
  | false => rfl
  | true =>
    rw [h.callerOwns.mpr hc] at ho
    cases ho

/-- So the pair it copies is a whole one. -/
theorem Paired.copied (h : Paired Ok s) {id : Nat} {pos : CapturePos κ δ}
    (hp : s.threads id = some pos) (hh : pos.holds = true) : Ok s.callback s.callbackData := by
  refine h.pair fun c d hc => ?_
  have hno := h.inv.excludes hp hh
  rw [hc] at hno
  cases hno

/-! ## One step -/

/-- A step that moves one capture thread and stores no callback. -/
theorem Paired.moved (h : Paired Ok s) (hinv : Inv t) {id : Nat} {pos' : CapturePos κ δ}
    (ht : t.threads = Function.update s.threads id (some pos')) (hcaller : t.caller = s.caller)
    (hcallback : t.callback = s.callback) (hdata : t.callbackData = s.callbackData)
    (hcopies : s.CopiesOk Ok pos') (hdelivered : ∀ p ∈ t.delivered, Ok (some p.1) p.2.1) :
    Paired Ok t := by
  refine ⟨hinv, ?_, ?_, ?_, hdelivered⟩
  · have := h.stores
    unfold State.StoresOk at this ⊢
    rw [hcaller, hcallback]
    exact this
  · rw [hcaller, hcallback, hdata]
    exact h.pair
  · intro id' pos hp
    have hkeep : s.CopiesOk Ok pos → t.CopiesOk Ok pos := by
      unfold State.CopiesOk
      rw [hcallback, hdata]
      exact fun hc => hc
    rw [ht] at hp
    by_cases hid : id' = id
    · subst hid
      rw [Function.update_self] at hp
      cases hp
      exact hkeep hcopies
    · rw [Function.update_of_ne hid] at hp
      exact hkeep (h.copies id' pos hp)

theorem CaptureMove.paired (h : Paired Ok s) {id : Nat} {clock : UInt64} {value : Int32}
    {pos : CapturePos κ δ} (hpos : s.threads id = some pos)
    (hm : CaptureMove s id clock value pos t) : Paired Ok t := by
  have hinv := hm.inv h.inv hpos
  have hcopies := h.copies id pos hpos
  cases hm with
  | goto moves =>
    refine h.moved hinv rfl rfl rfl rfl ?_ h.delivered
    cases moves with
    | copyCallback => exact rfl
    | copyData => exact ⟨hcopies, rfl⟩
    | begin | goOn | leave | due | wait | generate | noCallback | returned => trivial
  | count => exact h.moved hinv rfl rfl rfl rfl trivial h.delivered
  | acquire => exact h.moved hinv rfl rfl rfl rfl trivial h.delivered
  | release next current x c d =>
    have hpair := h.copied hpos rfl
    refine h.moved hinv rfl rfl rfl rfl ?_ h.delivered
    rw [State.CopiesOk, hcopies.1, hcopies.2]
    exact hpair
  | deliver next current x c d =>
    refine h.moved hinv rfl rfl rfl rfl trivial fun p hp => ?_
    rcases List.mem_append.mp hp with hp | hp
    · exact h.delivered p hp
    · cases List.mem_singleton.mp hp
      exact hcopies

/-- A step of the calling thread that stores no callback. -/
theorem Paired.called (h : Paired Ok s) (hinv : Inv t) (ht : ∀ id pos, t.threads id = some pos →
      s.threads id = some pos ∨ pos = .begin)
    (hcallback : t.callback = s.callback) (hdata : t.callbackData = s.callbackData)
    (hstores : t.StoresOk Ok) (hpair : Ok s.callback s.callbackData)
    (hdelivered : t.delivered = s.delivered ∨ t.delivered = []) : Paired Ok t := by
  refine ⟨hinv, hstores, fun _ => by rw [hcallback, hdata]; exact hpair, ?_, ?_⟩
  · intro id pos hp
    rcases ht id pos hp with hp | rfl
    · have := h.copies id pos hp
      unfold State.CopiesOk at this ⊢
      rw [hcallback, hdata]
      exact this
    · trivial
  · rcases hdelivered with he | he
    · rw [he]; exact h.delivered
    · rw [he]; nofun

theorem CallerMove.paired (h : Paired Ok s) {clock : UInt64} {value : Int32}
    (hm : CallerMove s clock value t) : Paired Ok t := by
  have hinv := hm.inv h.inv
  have hstores := h.stores
  have hpair := h.pair
  unfold State.StoresOk at hstores
  cases hm with
  | startTime at' | fail at' | failed at' | free at' | generate at' | count x at' | release at' =>
    rw [at'] at hpair
    exact h.called hinv (fun _ _ => .inl) rfl rfl trivial (hpair (by rintro _ _ ⟨⟩)) (.inl rfl)
  | reset at' =>
    rw [at'] at hpair
    exact h.called hinv (fun _ _ => .inl) rfl rfl trivial (hpair (by rintro _ _ ⟨⟩)) (.inr rfl)
  | joined destroying at' =>
    rw [at'] at hpair
    exact h.called hinv (fun _ _ => .inl) rfl rfl (by cases destroying <;> trivial)
      (hpair (by rintro _ _ ⟨⟩)) (.inl rfl)
  | create at' =>
    rw [at'] at hpair
    refine h.called hinv (fun id pos hp => ?_) rfl rfl trivial (hpair (by rintro _ _ ⟨⟩)) (.inl rfl)
    simp only [State.spawn] at hp
    by_cases hid : id = s.created
    · subst hid
      rw [Function.update_self] at hp
      cases hp
      exact .inr rfl
    · rw [Function.update_of_ne hid] at hp
      exact .inl hp
  | acquire c d at' free =>
    rw [at'] at hpair hstores
    exact h.called hinv (fun _ _ => .inl) rfl rfl hstores (hpair (by rintro _ _ ⟨⟩)) (.inl rfl)
  | callback c d at' =>
    rw [at'] at hstores
    refine ⟨hinv, ⟨hstores, rfl⟩, fun hno => absurd rfl (hno c d), fun id pos hp => ?_, h.delivered⟩
    -- no capture thread is inside its critical section
    have hout := mt (h.inv.excludes hp)
    rw [at'] at hout
    have hcopies := h.copies id pos hp
    cases pos with
    | copyData | unlock => exact absurd (hout Bool.false_ne_true.symm) (by simp [CapturePos.holds])
    | call => exact hcopies
    | begin | readRunning | look | generate | storeSequence | lock | copyCallback | inside | done =>
      trivial
  | data c d at' =>
    rw [at'] at hstores
    refine ⟨hinv, trivial, fun _ => hstores.2 ▸ hstores.1, fun id pos hp => ?_, h.delivered⟩
    have hout := mt (h.inv.excludes hp)
    rw [at'] at hout
    have hcopies := h.copies id pos hp
    cases pos with
    | copyData | unlock => exact absurd (hout Bool.false_ne_true.symm) (by simp [CapturePos.holds])
    | call => exact hcopies
    | begin | readRunning | look | generate | storeSequence | lock | copyCallback | inside | done =>
      trivial

theorem step_paired {l : Label κ δ} (hl : ∀ c d, l = .call (.setCallback c d) → Ok c d)
    (h : Paired Ok s) (hs : step s l = some t) : Paired Ok t := by
  cases l with
  | call c =>
    have hinv := step_inv h.inv hs
    obtain ⟨hidle, hrel, rfl⟩ := step_call hs
    have hpair := h.pair (by rw [hidle]; nofun)
    have hkeep : ∀ running caller, Inv { s with running := running, caller := caller } →
        ({ s with running := running, caller := caller } : State κ δ).StoresOk Ok →
        Paired Ok { s with running := running, caller := caller } := fun _ _ hi hst =>
      h.called hi (fun _ _ => .inl) rfl rfl hst hpair (.inl rfl)
    cases c with
    | setCallback c d => exact hkeep _ _ hinv (hl c d rfl)
    | getSample => exact hkeep _ _ hinv trivial
    | start =>
      rw [State.enter] at hinv ⊢
      split at hinv
      · rwa [if_pos ‹_›]
      · rw [if_neg ‹_›]
        exact hkeep _ _ hinv trivial
    | stop =>
      rw [State.enter] at hinv ⊢
      split at hinv
      · rw [if_pos ‹_›]
        exact hkeep _ _ hinv trivial
      · rwa [if_neg ‹_›]
    | destroy =>
      rw [State.enter] at hinv ⊢
      split at hinv
      · rw [if_pos ‹_›]
        exact hkeep _ _ hinv trivial
      · rw [if_neg ‹_›]
        exact hkeep _ _ hinv trivial
  | caller clock created value => exact (step_caller hs).paired h
  | thread id clock value =>
    obtain ⟨pos, hpos, hm⟩ := step_thread hs
    exact hm.paired h hpos

/-! ## Runs -/

theorem init_paired (intervalUs : UInt64) (null : δ) (h : Ok none null) :
    Paired Ok (init intervalUs null) :=
  ⟨init_inv intervalUs null, trivial, fun _ => h, nofun, nofun⟩

theorem run_paired (Ok : Option κ → δ → Prop) {intervalUs : UInt64} {null : δ}
    {ls : List (Label κ δ)} (h : Ok none null) (hl : ∀ c d, .call (.setCallback c d) ∈ ls → Ok c d)
    (hs : Runs.run step (init intervalUs null) ls = some s) : Paired Ok s := by
  have hok : Runs.AllSteps step (fun _ l => ∀ c d, l = .call (.setCallback c d) → Ok c d)
      (init intervalUs null) ls := by
    refine Runs.allSteps_of_labels fun l hmem _ c d he => ?_
    subst he
    exact hl c d hmem
  exact Runs.invariant_of_steps (fun _ _ _ hp hok => step_paired hok hp)
    (init_paired intervalUs null h) hok hs

/-- Every callback is called with the `user_data` of one call that set both. -/
theorem called_with_own_data (intervalUs : UInt64) (null : δ) (ls : List (Label κ δ))
    (s : State κ δ) (h : Runs.run step (init intervalUs null) ls = some s) :
    ∀ p ∈ s.delivered, Label.call (.setCallback (some p.1) p.2.1) ∈ ls := by
  have hp := run_paired (fun c d => c = none ∨ Label.call (.setCallback c d) ∈ ls) (.inl rfl)
    (fun _ _ => .inr) h
  intro p hmem
  exact (hp.delivered p hmem).resolve_left nofun

theorem called_with_own_data_two : ∃ s : State Nat Nat,
    Runs.run step (init 25 0) twoCallbacksRun = some s ∧
      (∃ x y, s.delivered = [(7, 1, x), (8, 2, y)]) ∧
      Label.call (.setCallback (some 7) 1) ∈ twoCallbacksRun ∧
      Label.call (.setCallback (some 8) 2) ∈ twoCallbacksRun := by
  have hrun : ∃ s : State Nat Nat, Runs.run step (init 25 0) twoCallbacksRun = some s ∧
      ∃ x y, s.delivered = [(7, 1, x), (8, 2, y)] := ⟨_, rfl, _, _, rfl⟩
  obtain ⟨s, hs, x, y, hxy⟩ := hrun
  have hown := called_with_own_data 25 0 twoCallbacksRun s hs
  rw [hxy] at hown
  exact ⟨s, hs, ⟨x, y, hxy⟩, hown (7, 1, x) List.mem_cons_self,
    hown (8, 2, y) (List.mem_cons_of_mem _ List.mem_cons_self)⟩

/-! ## After a callback was replaced -/

section Replaced

variable [DecidableEq κ] [DecidableEq δ]

/-- A capture thread at this position is about to call another pair than the present one. -/
def State.stale (s : State κ δ) : CapturePos κ δ → Bool
  | .call _ _ _ (some c) d => decide ((some c, d) ≠ (s.callback, s.callbackData))
  | _ => false

/-- With the step, a pair is called that is not the present one. -/
def staleCall (s : State κ δ) : Label κ δ → Bool
  | .thread id _ _ => ((s.threads id).map s.stale).getD false
  | _ => false

def staleCalls : State κ δ → List (Label κ δ) → Nat
  | _, [] => 0
  | s, l :: ls =>
    match step s l with
    | some t => (staleCall s l).toNat + staleCalls t ls
    | none => 0

/-- The capture thread of the session is about to call a pair that was replaced. -/
def late (s : State κ δ) : Bool := ((s.handle.bind s.threads).map s.stale).getD false

/-- The calling thread is outside `adc_simulator_set_callback`. -/
def CallerPos.setting : CallerPos κ δ → Bool
  | .lock .. | .storeCallback .. | .storeData .. | .unlock => true
  | _ => false

omit [DecidableEq κ] [DecidableEq δ] in
theorem step_not_setting {l : Label κ δ} (hl : ∀ c d, l ≠ .call (.setCallback c d))
    (h : s.caller.setting = false) (hs : step s l = some t) : t.caller.setting = false := by
  cases l with
  | call c =>
    obtain ⟨_, _, rfl⟩ := step_call hs
    cases c with
    | setCallback c d => exact absurd rfl (hl c d)
    | getSample => rfl
    | start | stop | destroy =>
      simp only [State.enter]
      split <;> first | exact h | rfl
  | caller clock created value =>
    cases step_caller hs with
    | joined destroying => cases destroying <;> rfl
    | startTime | reset | create | fail | failed | free | generate | count | release => rfl
    | acquire c d at' | callback c d at' | data c d at' => rw [at'] at h; cases h
  | thread id clock value =>
    obtain ⟨_, _, hm⟩ := step_thread hs
    cases hm <;> exact h

/-- A stale call uses up the lateness of the thread, and no step makes a thread late. -/
theorem step_late {l : Label κ δ} (h : Paired Ok s) (hset : s.caller.setting = false)
    (hl : ∀ c d, l ≠ .call (.setCallback c d)) (hs : step s l = some t) :
    (staleCall s l).toNat + (late t).toNat ≤ (late s).toNat := by
  cases l with
  | call c =>
    obtain ⟨_, _, rfl⟩ := step_call hs
    have hsame : late (s.enter c) = late s := by
      cases c with
      | setCallback | getSample => rfl
      | start | stop | destroy =>
        simp only [State.enter]
        split <;> rfl
    rw [hsame]
    exact Nat.le_of_eq (Nat.zero_add _)
  | caller clock created value =>
    have hno : staleCall s (.caller clock created value) = false := rfl
    rw [hno, Bool.toNat_false, Nat.zero_add]
    cases step_caller hs with
    | create at' =>
      have hnew : late { s.spawn with caller := .idle } = false := by
        simp [late, State.spawn, State.stale]
      rw [hnew]
      exact Nat.zero_le _
    | acquire c d at' | callback c d at' | data c d at' => rw [at'] at hset; cases hset
    | startTime | reset | fail | failed | joined | free | generate | count | release =>
      exact Nat.le_refl _
  | thread id clock value =>
    obtain ⟨pos, hpos, hm⟩ := step_thread hs
    have hid := (h.inv.live id pos hpos hm.not_done).1
    have hlate : late s = s.stale pos := by rw [late, hid, Option.bind_some, hpos]; rfl
    have hcall : staleCall s (.thread id clock value) = late s := by
      rw [staleCall, hpos, hlate]; rfl
    have hcopies := h.copies id pos hpos
    have hnone : late t = false := by
      have hgoto : ∀ pos', t.handle = s.handle → t.threads = Function.update s.threads id (some pos') →
          t.stale pos' = false → late t = false := by
        intro pos' hh ht hst
        rw [late, hh, hid, Option.bind_some, ht, Function.update_self, Option.map_some,
          Option.getD_some, hst]
      cases hm with
      | goto moves => cases moves <;> exact hgoto _ rfl rfl rfl
      | count | acquire | deliver => exact hgoto _ rfl rfl rfl
      | release next current x c d =>
        refine hgoto _ rfl rfl ?_
        rw [hcopies.1, hcopies.2]
        cases hc : s.callback <;> simp [State.stale, State.goto, hc]
    rw [hcall, hnone, Bool.toNat_false]
    exact Nat.le_refl _

theorem run_late {ls : List (Label κ δ)} (h : Paired Ok s) (hset : s.caller.setting = false)
    (hl : ∀ l ∈ ls, ∀ c d, l ≠ .call (.setCallback c d)) : staleCalls s ls ≤ (late s).toNat := by
  induction ls generalizing s with
  | nil => exact Nat.zero_le _
  | cons l ls ih =>
    have hhead := hl l List.mem_cons_self
    rw [staleCalls]
    split
    · rename_i t ht
      have hstep := step_late h hset hhead ht
      have hok : ∀ c d, l = .call (.setCallback c d) → Ok c d := fun c d he => absurd he (hhead c d)
      have hrest := ih (step_paired hok h ht) (step_not_setting hhead hset ht)
        fun l' hl' => hl l' (List.mem_cons_of_mem _ hl')
      omega
    · exact Nat.zero_le _

/-- From any moment outside the functions of the simulator on, and until the callback is set again,
a callback with other data than the present ones is called at most once, and not at all unless the
capture thread had already copied them. -/
theorem replaced_called_once (intervalUs : UInt64) (null : δ) (ls ls' : List (Label κ δ))
    (s : State κ δ) (h : Runs.run step (init intervalUs null) ls = some s) (hidle : s.caller = .idle)
    (hl : ∀ l ∈ ls', ∀ c d, l ≠ .call (.setCallback c d)) :
    staleCalls s ls' ≤ 1 ∧ (late s = false → staleCalls s ls' = 0) := by
  have hp := run_paired (fun _ _ => True) trivial (fun _ _ _ => trivial) h
  have hle := run_late hp (by rw [hidle]; rfl) hl
  refine ⟨Nat.le_trans hle (Bool.toNat_le _), fun hno => ?_⟩
  rw [hno] at hle
  exact Nat.le_zero.mp hle

end Replaced

/-- The capture thread has copied the callback 7 when it is replaced by 8. -/
def replacedRun : List (Label Nat Nat) :=
  sessionRun.take 18 ++ .call (.setCallback (some 8) 2) :: List.replicate 4 (.caller 0 true 0)

theorem replaced_called_once_late : ∃ s : State Nat Nat,
    Runs.run step (init 25 0) replacedRun = some s ∧ late s = true ∧
      staleCalls s [.thread 0 0 0] = 1 ∧ staleCalls s [.thread 0 0 0] ≤ 1 := by
  have hrun : ∃ s : State Nat Nat, Runs.run step (init 25 0) replacedRun = some s ∧
      s.caller = .idle ∧ late s = true ∧ staleCalls s [.thread 0 0 0] = 1 :=
    ⟨_, rfl, rfl, rfl, rfl⟩
  obtain ⟨s, hs, hidle, hlate, hone⟩ := hrun
  refine ⟨s, hs, hlate, hone, (replaced_called_once 25 0 replacedRun _ s hs hidle ?_).1⟩
  intro l hl c d he
  cases List.mem_singleton.mp hl
  cases he

end FastRing.Adc
