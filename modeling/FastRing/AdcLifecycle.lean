import FastRing.AdcSimulator

/-! # Stopping the ADC simulator

`adc_simulator_stop` joins the capture thread before it returns, and `adc_simulator_start` creates
no second one while `running` is set. So at most one capture thread is alive, and none from the
return of `adc_simulator_stop` on: no callback is called any more, and `adc_simulator_destroy`
frees nothing that a thread still uses. -/

namespace FastRing.Adc

variable {κ δ : Type} {s t : State κ δ}

/-- Inside the critical section around the callback. -/
def CapturePos.holds : CapturePos κ δ → Bool
  | .copyCallback .. | .copyData .. | .unlock .. => true
  | _ => false

def CallerPos.holds : CallerPos κ δ → Bool
  | .storeCallback .. | .storeData .. | .unlock => true
  | _ => false

/-! ## What a step can do -/

/-- A step of a capture thread at a position that changes nothing but the position. -/
inductive Moves (s : State κ δ) (clock : UInt64) (value : Int32) :
    CapturePos κ δ → CapturePos κ δ → Prop
  | begin : Moves s clock value .begin (.readRunning clock)
  | goOn (next : UInt64) (run : s.running = true) : Moves s clock value (.readRunning next) (.look next)
  | leave (next : UInt64) (run : s.running = false) : Moves s clock value (.readRunning next) .done
  | due (next : UInt64) (h : next ≤ clock) : Moves s clock value (.look next) (.generate next clock)
  | wait (next : UInt64) : Moves s clock value (.look next) (.readRunning next)
  | generate (next current : UInt64) : Moves s clock value (.generate next current)
      (.storeSequence next current (s.generateSample current value))
  | copyCallback (next current : UInt64) (x : AdcSample) :
      Moves s clock value (.copyCallback next current x) (.copyData next current x s.callback)
  | copyData (next current : UInt64) (x : AdcSample) (c : Option κ) :
      Moves s clock value (.copyData next current x c) (.unlock next current x c s.callbackData)
  | noCallback (next current : UInt64) (x : AdcSample) (d : δ) :
      Moves s clock value (.call next current x none d) (.readRunning (s.nextSampleTime next current))
  | returned (next current : UInt64) :
      Moves s clock value (.inside next current) (.readRunning (s.nextSampleTime next current))

/-- A step of capture thread `id`. -/
inductive CaptureMove (s : State κ δ) (id : Nat) (clock : UInt64) (value : Int32) :
    CapturePos κ δ → State κ δ → Prop
  | goto {pos pos' : CapturePos κ δ} (moves : Moves s clock value pos pos') :
      CaptureMove s id clock value pos (s.goto id pos')
  | count (next current : UInt64) (x : AdcSample) :
      CaptureMove s id clock value (.storeSequence next current x)
        { s.goto id (.lock next current x) with
          sequence := x.sequence + 1
          taken := s.taken ++ [x] }
  | acquire (next current : UInt64) (x : AdcSample) (free : s.owner = none) :
      CaptureMove s id clock value (.lock next current x)
        { s.goto id (.copyCallback next current x) with owner := some (.thread id) }
  | release (next current : UInt64) (x : AdcSample) (c : Option κ) (d : δ) :
      CaptureMove s id clock value (.unlock next current x c d)
        { s.goto id (.call next current x c d) with owner := none }
  | deliver (next current : UInt64) (x : AdcSample) (c : κ) (d : δ) :
      CaptureMove s id clock value (.call next current x (some c) d)
        { s.goto id (.inside next current) with delivered := s.delivered ++ [(c, d, x)] }

theorem captureStep_move {id : Nat} {clock : UInt64} {value : Int32} {pos : CapturePos κ δ}
    (h : s.captureStep id clock value pos = some t) : CaptureMove s id clock value pos t := by
  cases pos with
  | begin => cases h; exact .goto .begin
  | readRunning next =>
    cases h
    cases hrun : s.running with
    | true => exact .goto (.goOn next hrun)
    | false => exact .goto (.leave next hrun)
  | look next =>
    cases h
    split
    · exact .goto (.due next ‹_›)
    · exact .goto (.wait next)
  | generate next current => cases h; exact .goto (.generate next current)
  | storeSequence next current x => cases h; exact .count next current x
  | lock next current x =>
    simp only [State.captureStep] at h
    split at h
    · cases h; exact .acquire next current x ‹_›
    · cases h
  | copyCallback next current x => cases h; exact .goto (.copyCallback next current x)
  | copyData next current x c => cases h; exact .goto (.copyData next current x c)
  | unlock next current x c d => cases h; exact .release next current x c d
  | call next current x c d =>
    cases c with
    | none => cases h; exact .goto (.noCallback next current x d)
    | some c => cases h; exact .deliver next current x c d
  | inside next current => cases h; exact .goto (.returned next current)
  | done => cases h

theorem step_thread {id : Nat} {clock : UInt64} {value : Int32}
    (h : step s (.thread id clock value) = some t) :
    ∃ pos, s.threads id = some pos ∧ CaptureMove s id clock value pos t := by
  simp only [step] at h
  split at h
  · cases h
  · exact ⟨_, ‹_›, captureStep_move h⟩

theorem step_call {c : Call κ δ} (h : step s (.call c) = some t) :
    s.caller = .idle ∧ s.released = false ∧ t = s.enter c := by
  simp only [step] at h
  split at h
  · cases h; exact ⟨‹_›, ‹_›, rfl⟩
  · cases h

/-- A step of the calling thread inside a call. -/
inductive CallerMove (s : State κ δ) (clock : UInt64) (value : Int32) : State κ δ → Prop
  | startTime (at' : s.caller = .setStartTime) :
      CallerMove s clock value { s with startTime := clock, caller := .resetSequence }
  | reset (at' : s.caller = .resetSequence) :
      CallerMove s clock value
        { s with sequence := 0, caller := .create, taken := [], delivered := [] }
  | create (at' : s.caller = .create) : CallerMove s clock value { s.spawn with caller := .idle }
  | fail (at' : s.caller = .create) : CallerMove s clock value { s with caller := .createFailed }
  | failed (at' : s.caller = .createFailed) :
      CallerMove s clock value { s with running := false, caller := .idle }
  | joined (destroying : Bool) (at' : s.caller = .join destroying) (id : Nat)
      (handle : s.handle = some id) (done : s.threads id = some .done) :
      CallerMove s clock value { s with caller := if destroying then .free else .idle }
  | free (at' : s.caller = .free) :
      CallerMove s clock value { s with released := true, caller := .idle }
  | acquire (c : Option κ) (d : δ) (at' : s.caller = .lock c d) (free : s.owner = none) :
      CallerMove s clock value { s with owner := some .caller, caller := .storeCallback c d }
  | callback (c : Option κ) (d : δ) (at' : s.caller = .storeCallback c d) :
      CallerMove s clock value { s with callback := c, caller := .storeData c d }
  | data (c : Option κ) (d : δ) (at' : s.caller = .storeData c d) :
      CallerMove s clock value { s with callbackData := d, caller := .unlock }
  | release (at' : s.caller = .unlock) :
      CallerMove s clock value { s with owner := none, caller := .idle }
  | generate (at' : s.caller = .generate) :
      CallerMove s clock value { s with caller := .storeSequence (s.generateSample clock value) }
  | count (x : AdcSample) (at' : s.caller = .storeSequence x) :
      CallerMove s clock value { s with sequence := x.sequence + 1, caller := .idle }

theorem callerStep_move {clock : UInt64} {created : Bool} {value : Int32}
    (h : s.callerStep clock created value = some t) : CallerMove s clock value t := by
  unfold State.callerStep at h
  split at h
  · cases h
  · cases h; exact .startTime ‹_›
  · cases h; exact .reset ‹_›
  · split at h
    · cases h; exact .create ‹_›
    · cases h; exact .fail ‹_›
  · cases h; exact .failed ‹_›
  · rename_i destroying hc
    split at h
    · rename_i hdone
      obtain ⟨id, hid, hpos⟩ := Option.bind_eq_some_iff.mp hdone
      cases h
      exact .joined destroying hc id hid hpos
    · cases h
  · cases h; exact .free ‹_›
  · split at h
    · cases h; exact .acquire _ _ ‹_› ‹_›
    · cases h
  · cases h; exact .callback _ _ ‹_›
  · cases h; exact .data _ _ ‹_›
  · cases h; exact .release ‹_›
  · cases h; exact .generate ‹_›
  · cases h; exact .count _ ‹_›

theorem step_caller {clock : UInt64} {created : Bool} {value : Int32}
    (h : step s (.caller clock created value) = some t) : CallerMove s clock value t :=
  callerStep_move h

theorem CaptureMove.not_done {id : Nat} {clock : UInt64} {value : Int32} {pos : CapturePos κ δ}
    (h : CaptureMove s id clock value pos t) : pos ≠ .done := by
  cases h with
  | goto moves => cases moves <;> nofun
  | count | acquire | release | deliver => nofun

theorem Moves.holds_eq {clock : UInt64} {value : Int32} {pos pos' : CapturePos κ δ}
    (h : Moves s clock value pos pos') : pos'.holds = pos.holds := by
  cases h <;> rfl

/-! ## The invariant -/

/-- A capture thread may be alive. -/
def State.Session (s : State κ δ) : Prop :=
  match s.caller with
  | .setStartTime | .resetSequence | .create | .createFailed | .free => False
  | .join _ => True
  | _ => s.running = true

/-- When `running` is set, and that nothing is called behind the release. -/
def State.CallerOk (s : State κ δ) : Prop :=
  match s.caller with
  | .setStartTime | .resetSequence | .create | .createFailed => s.running = true ∧ s.released = false
  | .join _ | .free => s.running = false ∧ s.released = false
  | .idle => s.released = true → s.running = false
  | _ => s.released = false

structure Inv (s : State κ δ) : Prop where
  caller : s.CallerOk
  fresh : ∀ id, s.created ≤ id → s.threads id = none
  live : ∀ id pos, s.threads id = some pos → pos ≠ .done → s.handle = some id ∧ s.Session
  callerOwns : s.owner = some .caller ↔ s.caller.holds = true
  threadOwns : ∀ id, s.owner = some (.thread id) ↔
    ∃ pos, s.threads id = some pos ∧ pos.holds = true

theorem init_inv (intervalUs : UInt64) (null : δ) : Inv (init intervalUs null : State κ δ) := by
  refine ⟨nofun, fun _ _ => rfl, nofun, ⟨nofun, nofun⟩, fun id => ⟨nofun, ?_⟩⟩
  rintro ⟨_, h, _⟩
  cases h

/-- A step of a thread that is alive. -/
theorem Inv.moved (h : Inv s) {id : Nat} {pos pos' : CapturePos κ δ} (hpos : s.threads id = some pos)
    (hlive : pos ≠ .done) (ht : t.threads = Function.update s.threads id (some pos'))
    (hcaller : t.caller = s.caller) (hrunning : t.running = s.running)
    (hreleased : t.released = s.released) (hhandle : t.handle = s.handle)
    (hcreated : t.created = s.created)
    (hcallerOwns : t.owner = some .caller ↔ s.owner = some .caller)
    (hown : t.owner = some (.thread id) ↔ pos'.holds = true)
    (hothers : ∀ id', id' ≠ id → (t.owner = some (.thread id') ↔ s.owner = some (.thread id'))) :
    Inv t := by
  have hsession : t.Session ↔ s.Session := by unfold State.Session; rw [hcaller, hrunning]
  refine ⟨?_, ?_, ?_, ?_, ?_⟩
  · have := h.caller
    unfold State.CallerOk at this ⊢
    rw [hcaller, hrunning, hreleased]
    exact this
  · intro id' hle
    have hne : id' ≠ id := by
      rintro rfl
      rw [h.fresh id' (hcreated ▸ hle)] at hpos
      cases hpos
    rw [ht, Function.update_of_ne hne]
    exact h.fresh id' (hcreated ▸ hle)
  · intro id' pos'' hp hd
    rw [hhandle, hsession]
    by_cases hid : id' = id
    · subst hid
      exact h.live id' pos hpos hlive
    · rw [ht, Function.update_of_ne hid] at hp
      exact h.live id' pos'' hp hd
  · rw [hcallerOwns, hcaller]
    exact h.callerOwns
  · intro id'
    by_cases hid : id' = id
    · subst hid
      rw [hown, ht, Function.update_self]
      exact ⟨fun hh => ⟨pos', rfl, hh⟩, by rintro ⟨_, ⟨⟩, hh⟩; exact hh⟩
    · rw [hothers id' hid, ht, Function.update_of_ne hid]
      exact h.threadOwns id'

theorem CaptureMove.inv (h : Inv s) {id : Nat} {clock : UInt64} {value : Int32}
    {pos : CapturePos κ δ} (hpos : s.threads id = some pos)
    (hm : CaptureMove s id clock value pos t) : Inv t := by
  have hlive := hm.not_done
  have hthread := h.threadOwns id
  -- whether this thread holds the lock is told by its position
  have hown : s.owner = some (.thread id) ↔ pos.holds = true := by
    rw [hthread]
    exact ⟨by rintro ⟨p, hp, hh⟩; rw [hpos] at hp; cases hp; exact hh, fun hh => ⟨pos, hpos, hh⟩⟩
  cases hm with
  | goto moves =>
    refine h.moved hpos hlive rfl rfl rfl rfl rfl rfl Iff.rfl ?_ (fun _ _ => Iff.rfl)
    rw [moves.holds_eq]
    exact hown
  | count next current x =>
    exact h.moved hpos hlive rfl rfl rfl rfl rfl rfl Iff.rfl hown (fun _ _ => Iff.rfl)
  | acquire next current x free =>
    refine h.moved hpos hlive rfl rfl rfl rfl rfl rfl ?_ ⟨fun _ => rfl, fun _ => rfl⟩ ?_
    · rw [free]; exact ⟨nofun, nofun⟩
    · intro id' hne
      rw [free]
      exact ⟨fun he => by cases he; exact absurd rfl hne, nofun⟩
  | release next current x c d =>
    have hmine := hown.mpr rfl
    refine h.moved hpos hlive rfl rfl rfl rfl rfl rfl ?_ ⟨nofun, nofun⟩ ?_
    · rw [hmine]; exact ⟨nofun, nofun⟩
    · intro id' hne
      rw [hmine]
      exact ⟨nofun, fun he => by cases he; exact absurd rfl hne⟩
  | deliver next current x c d =>
    exact h.moved hpos hlive rfl rfl rfl rfl rfl rfl Iff.rfl hown (fun _ _ => Iff.rfl)

/-- A step of the calling thread that leaves the capture threads alone. -/
theorem Inv.called (h : Inv s) (hok : t.CallerOk) (ht : t.threads = s.threads)
    (hhandle : t.handle = s.handle) (hcreated : t.created = s.created)
    (hsession : ∀ id pos, s.threads id = some pos → pos ≠ .done → s.Session → t.Session)
    (hown : t.owner = some .caller ↔ t.caller.holds = true)
    (hothers : ∀ id, t.owner = some (.thread id) ↔ s.owner = some (.thread id)) : Inv t := by
  refine ⟨hok, ?_, ?_, hown, ?_⟩
  · rw [ht, hcreated]
    exact h.fresh
  · rw [ht, hhandle]
    intro id pos hp hd
    obtain ⟨hid, hs⟩ := h.live id pos hp hd
    exact ⟨hid, hsession id pos hp hd hs⟩
  · intro id
    rw [hothers, ht]
    exact h.threadOwns id

/-- Without a session there is no thread that is alive. -/
theorem Inv.none_live (h : Inv s) (hno : ¬ s.Session) {id : Nat} {pos : CapturePos κ δ}
    (hp : s.threads id = some pos) : pos = .done := by
  by_contra hd
  exact hno (h.live id pos hp hd).2

theorem enter_inv (h : Inv s) (hidle : s.caller = .idle) (hrel : s.released = false)
    (c : Call κ δ) : Inv (s.enter c) := by
  have hsession : s.Session ↔ s.running = true := by simp only [State.Session, hidle]
  have hown := h.callerOwns
  rw [hidle] at hown
  cases c with
  | start =>
    cases hrun : s.running with
    | true => rw [State.enter, if_pos hrun]; exact h
    | false =>
      rw [State.enter, if_neg (by rw [hrun]; nofun)]
      refine h.called ⟨rfl, hrel⟩ rfl rfl rfl (fun _ _ _ _ hs => ?_) hown (fun _ => Iff.rfl)
      rw [hsession, hrun] at hs
      cases hs
  | stop =>
    cases hrun : s.running with
    | true =>
      rw [State.enter, if_pos hrun]
      exact h.called ⟨rfl, hrel⟩ rfl rfl rfl (fun _ _ _ _ _ => trivial) hown (fun _ => Iff.rfl)
    | false => rw [State.enter, if_neg (by rw [hrun]; nofun)]; exact h
  | destroy =>
    cases hrun : s.running with
    | true =>
      rw [State.enter, if_pos hrun]
      exact h.called ⟨rfl, hrel⟩ rfl rfl rfl (fun _ _ _ _ _ => trivial) hown (fun _ => Iff.rfl)
    | false =>
      rw [State.enter, if_neg (by rw [hrun]; nofun)]
      refine h.called ⟨hrun, hrel⟩ rfl rfl rfl (fun _ _ _ _ hs => ?_) hown (fun _ => Iff.rfl)
      rw [hsession, hrun] at hs
      cases hs
  | setCallback c d =>
    exact h.called hrel rfl rfl rfl (fun _ _ _ _ hs => hsession.mp hs) hown (fun _ => Iff.rfl)
  | getSample =>
    exact h.called hrel rfl rfl rfl (fun _ _ _ _ hs => hsession.mp hs) hown (fun _ => Iff.rfl)

/-- The thread behind the handle has returned, so none is alive. -/
theorem Inv.joined_none (h : Inv s) {id : Nat} (hid : s.handle = some id)
    (hdone : s.threads id = some .done) {id' : Nat} {pos : CapturePos κ δ}
    (hp : s.threads id' = some pos) : pos = .done := by
  by_contra hd
  have hsame := (h.live id' pos hp hd).1
  rw [hid] at hsame
  cases hsame
  rw [hdone] at hp
  cases hp
  exact hd rfl

theorem CallerMove.inv (h : Inv s) {clock : UInt64} {value : Int32}
    (hm : CallerMove s clock value t) : Inv t := by
  have hok := h.caller
  have hown := h.callerOwns
  unfold State.CallerOk at hok
  cases hm with
  | startTime at' =>
    rw [at'] at hok hown
    exact h.called hok rfl rfl rfl (fun _ _ _ _ hs => by simp [State.Session, at'] at hs) hown
      (fun _ => Iff.rfl)
  | reset at' =>
    rw [at'] at hok hown
    exact h.called hok rfl rfl rfl (fun _ _ _ _ hs => by simp [State.Session, at'] at hs) hown
      (fun _ => Iff.rfl)
  | create at' =>
    rw [at'] at hok hown
    have hno : ¬ s.Session := by simp [State.Session, at']
    refine ⟨fun hr => absurd (hok.2.symm.trans hr) Bool.false_ne_true, ?_, ?_, hown, ?_⟩
    · intro id hle
      have hlt : s.created + 1 ≤ id := hle
      simp only [State.spawn]
      rw [Function.update_of_ne (by omega)]
      exact h.fresh id (by omega)
    · intro id pos hp hd
      by_cases hid : id = s.created
      · subst hid
        exact ⟨rfl, hok.1⟩
      · simp only [State.spawn] at hp
        rw [Function.update_of_ne hid] at hp
        exact absurd (h.none_live hno hp) hd
    · intro id
      simp only [State.spawn]
      rw [h.threadOwns]
      by_cases hid : id = s.created
      · subst hid
        rw [Function.update_self, h.fresh _ (Nat.le_refl _)]
        constructor
        · rintro ⟨_, hp, _⟩
          cases hp
        · rintro ⟨_, ⟨⟩, hh⟩
          cases hh
      · rw [Function.update_of_ne hid]
  | fail at' =>
    rw [at'] at hok hown
    exact h.called hok rfl rfl rfl (fun _ _ _ _ hs => by simp [State.Session, at'] at hs) hown
      (fun _ => Iff.rfl)
  | failed at' =>
    rw [at'] at hok hown
    exact h.called (fun _ => rfl) rfl rfl rfl
      (fun _ _ _ _ hs => by simp [State.Session, at'] at hs) hown (fun _ => Iff.rfl)
  | joined destroying at' id handle done =>
    rw [at'] at hok hown
    refine h.called ?_ rfl rfl rfl (fun _ _ hp hd _ => absurd (h.joined_none handle done hp) hd) ?_
      (fun _ => Iff.rfl)
    · cases destroying with
      | true => exact hok
      | false => exact fun _ => hok.1
    · cases destroying <;> exact hown
  | free at' =>
    rw [at'] at hok hown
    exact h.called (fun _ => hok.1) rfl rfl rfl
      (fun _ _ _ _ hs => by simp [State.Session, at'] at hs) hown (fun _ => Iff.rfl)
  | acquire c d at' free =>
    rw [at'] at hok
    refine h.called hok rfl rfl rfl (fun _ _ _ _ hs => ?_) ⟨fun _ => rfl, fun _ => rfl⟩ (fun id => ?_)
    · simpa [State.Session, at'] using hs
    · rw [free]; exact ⟨nofun, nofun⟩
  | callback c d at' =>
    rw [at'] at hok hown
    exact h.called hok rfl rfl rfl (fun _ _ _ _ hs => by simpa [State.Session, at'] using hs) hown
      (fun _ => Iff.rfl)
  | data c d at' =>
    rw [at'] at hok hown
    exact h.called hok rfl rfl rfl (fun _ _ _ _ hs => by simpa [State.Session, at'] using hs) hown
      (fun _ => Iff.rfl)
  | release at' =>
    rw [at'] at hok hown
    refine h.called (fun hr => absurd (hok.symm.trans hr) Bool.false_ne_true) rfl rfl rfl
      (fun _ _ _ _ hs => by simpa [State.Session, at'] using hs) ⟨nofun, nofun⟩ (fun id => ?_)
    rw [hown.mpr rfl]
    exact ⟨nofun, nofun⟩
  | generate at' =>
    rw [at'] at hok hown
    exact h.called hok rfl rfl rfl (fun _ _ _ _ hs => by simpa [State.Session, at'] using hs) hown
      (fun _ => Iff.rfl)
  | count x at' =>
    rw [at'] at hok hown
    exact h.called (fun hr => absurd (hok.symm.trans hr) Bool.false_ne_true) rfl rfl rfl
      (fun _ _ _ _ hs => by simpa [State.Session, at'] using hs) hown (fun _ => Iff.rfl)

theorem step_inv {l : Label κ δ} (h : Inv s) (hs : step s l = some t) : Inv t := by
  cases l with
  | call c =>
    obtain ⟨hidle, hrel, rfl⟩ := step_call hs
    exact enter_inv h hidle hrel c
  | caller clock created value => exact (step_caller hs).inv h
  | thread id clock value =>
    obtain ⟨pos, hpos, hm⟩ := step_thread hs
    exact hm.inv h hpos

theorem run_inv {intervalUs : UInt64} {null : δ} {ls : List (Label κ δ)}
    (h : Runs.run step (init intervalUs null) ls = some s) : Inv s :=
  Runs.invariant (fun _ _ _ => step_inv) (init_inv intervalUs null) h

/-! ## After a stop -/

/-- Inside `adc_simulator_start`. -/
def CallerPos.starting : CallerPos κ δ → Bool
  | .setStartTime | .resetSequence | .create | .createFailed => true
  | _ => false

def NoneAlive (s : State κ δ) : Prop := ∀ id pos, s.threads id = some pos → pos = .done

/-- No capture thread is alive, and none is being created. -/
structure Quiet (s : State κ δ) : Prop where
  none : NoneAlive s
  running : s.running = false
  caller : s.caller.starting = false

theorem Inv.quiet (h : Inv s) (hidle : s.caller = .idle) (hrun : s.running = false) : Quiet s := by
  refine ⟨fun id pos hp => h.none_live ?_ hp, hrun, by rw [hidle]; rfl⟩
  simp [State.Session, hidle, hrun]

/-- Without a new start nothing happens that a thread would do. -/
theorem Quiet.step {l : Label κ δ} (h : Quiet s) (hl : l ≠ .call .start)
    (hs : step s l = some t) : Quiet t ∧ t.taken = s.taken ∧ t.delivered = s.delivered := by
  have hrun := h.running
  have hcaller := h.caller
  cases l with
  | call c =>
    obtain ⟨_, _, rfl⟩ := step_call hs
    cases c with
    | start => exact absurd rfl hl
    | stop => rw [State.enter, if_neg (by rw [hrun]; nofun)]; exact ⟨h, rfl, rfl⟩
    | destroy =>
      rw [State.enter, if_neg (by rw [hrun]; nofun)]
      exact ⟨⟨h.none, hrun, rfl⟩, rfl, rfl⟩
    | setCallback | getSample => exact ⟨⟨h.none, hrun, rfl⟩, rfl, rfl⟩
  | caller clock created value =>
    cases step_caller hs with
    | startTime at' | reset at' | create at' | fail at' | failed at' => rw [at'] at hcaller; cases hcaller
    | joined destroying => exact ⟨⟨h.none, hrun, by cases destroying <;> rfl⟩, rfl, rfl⟩
    | free | acquire | callback | data | release | generate | count =>
      exact ⟨⟨h.none, hrun, rfl⟩, rfl, rfl⟩
  | thread id clock value =>
    obtain ⟨pos, hpos, hm⟩ := step_thread hs
    exact absurd (h.none id pos hpos) hm.not_done

theorem Quiet.run {ls : List (Label κ δ)} (h : Quiet s) (hl : ∀ l ∈ ls, l ≠ .call .start)
    (hs : Runs.run Adc.step s ls = some t) :
    Quiet t ∧ t.taken = s.taken ∧ t.delivered = s.delivered := by
  induction ls generalizing s with
  | nil => cases hs; exact ⟨h, rfl, rfl⟩
  | cons l ls ih =>
    obtain ⟨m, hm, hrest⟩ := Runs.run_cons hs
    obtain ⟨hq, htaken, hdelivered⟩ := h.step (hl l List.mem_cons_self) hm
    obtain ⟨hq', htaken', hdelivered'⟩ := ih hq (fun l' hl' => hl l' (List.mem_cons_of_mem _ hl')) hrest
    exact ⟨hq', htaken'.trans htaken, hdelivered'.trans hdelivered⟩

/-- At most one capture thread is alive. Once a call that leaves `running` cleared has returned,
none is, and no sample is taken or given to a callback until the next start. When the simulator
is freed, no thread is alive and nobody holds the lock. -/
theorem stopped_is_silent (intervalUs : UInt64) (null : δ) (ls : List (Label κ δ)) (s : State κ δ)
    (h : Runs.run step (init intervalUs null) ls = some s) :
    (∀ id id' pos pos', s.threads id = some pos → pos ≠ .done → s.threads id' = some pos' →
      pos' ≠ .done → id = id') ∧
    (s.caller = .idle → s.running = false → NoneAlive s ∧
      ∀ ls' t, (∀ l ∈ ls', l ≠ .call .start) → Runs.run step s ls' = some t →
        NoneAlive t ∧ t.taken = s.taken ∧ t.delivered = s.delivered) ∧
    (s.caller = .free ∨ s.released = true → NoneAlive s ∧ s.owner = none) := by
  have hi := run_inv h
  refine ⟨?_, ?_, ?_⟩
  · intro id id' pos pos' hp hd hp' hd'
    have hid := (hi.live id pos hp hd).1
    rw [(hi.live id' pos' hp' hd').1] at hid
    exact (Option.some.inj hid).symm
  · intro hidle hrun
    have hq := hi.quiet hidle hrun
    refine ⟨hq.none, fun ls' t hl hs => ?_⟩
    obtain ⟨hq', hrest⟩ := hq.run hl hs
    exact ⟨hq'.none, hrest⟩
  · intro hend
    have hok := hi.caller
    have hsession : ¬ s.Session ∧ s.caller.holds = false := by
      rcases hend with hc | hr
      · simp [State.Session, hc, CallerPos.holds]
      · unfold State.CallerOk at hok
        unfold State.Session
        split at hok <;> simp_all [CallerPos.holds]
    have hnone : NoneAlive s := fun id pos hp => hi.none_live hsession.1 hp
    refine ⟨hnone, ?_⟩
    cases ho : s.owner with
    | none => rfl
    | some o =>
      cases o with
      | caller => rw [hi.callerOwns.mp ho] at hsession; cases hsession.2
      | thread id =>
        obtain ⟨pos, hp, hh⟩ := (hi.threadOwns id).mp ho
        rw [hnone id pos hp] at hh
        cases hh

/-- A session with one sample, a callback for it, and the stop. -/
def sessionRun : List (Label Nat Nat) :=
  .call (.setCallback (some 7) 1) :: List.replicate 4 (.caller 0 true 0) ++
    .call .start :: List.replicate 3 (.caller 0 true 0) ++
    List.replicate 11 (.thread 0 0 5) ++ [.call .stop, .thread 0 0 0, .caller 0 true 0]

theorem stopped_is_silent_session : ∃ s : State Nat Nat,
    Runs.run step (init 25 0) sessionRun = some s ∧ s.delivered.length = 1 ∧ NoneAlive s := by
  have hrun : ∃ s : State Nat Nat, Runs.run step (init 25 0) sessionRun = some s ∧
      s.delivered.length = 1 ∧ s.caller = .idle ∧ s.running = false := ⟨_, rfl, rfl, rfl, rfl⟩
  obtain ⟨s, hs, hone, hidle, hstop⟩ := hrun
  exact ⟨s, hs, hone, ((stopped_is_silent 25 0 sessionRun s hs).2.1 hidle hstop).1⟩

/-- Two samples, and a second callback that is set between them; the capture thread has counted
the second sample when the callback is stored, and waits for the lock. -/
def twoCallbacksRun : List (Label Nat Nat) :=
  sessionRun.take 20 ++ .call (.setCallback (some 8) 2) :: List.replicate 2 (.caller 0 true 0) ++
    List.replicate 4 (.thread 0 25 6) ++ List.replicate 2 (.caller 0 true 0) ++
    List.replicate 6 (.thread 0 25 6)

end FastRing.Adc
