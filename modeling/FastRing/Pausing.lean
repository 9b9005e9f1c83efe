import FastRing.ManagerInvariant

/-! # Pausing the threads

`thread_manager_pause` sets a flag and returns; it does not wait for the workers. A thread reads
the flag before it looks at its state, so one that is past that read begins one more iteration,
and every other one begins none until the threads are resumed or started again. -/

namespace FastRing.Manager

variable {m t : Manager}

/-- With the step, wrapper thread `id` begins an iteration of its worker. -/
def begins (id : Nat) (m : Manager) : Label → Bool
  | .wrapper id' _ =>
    decide (id' = id) &&
      match m.threads id with
      | some w => decide (w.pos = .readState ∧ m.states w.type = .running)
      | none => false
  | _ => false

/-- The number of iterations that thread `id` begins in a run. -/
def iterations (id : Nat) : Manager → List Label → Nat
  | _, [] => 0
  | m, l :: ls =>
    (begins id m l).toNat +
      match m.step l with
      | some t => iterations id t ls
      | none => 0

/-- The thread has found the flag cleared and not looked at its state yet. -/
def past (id : Nat) (m : Manager) : Bool :=
  match m.threads id with
  | some w => decide (w.pos = .readState)
  | none => false

/-- Neither `thread_manager_resume` nor a start that is more than a look at `running`. -/
def keepsPause (m : Manager) : Label → Prop
  | .call .resume => False
  | .call .start => m.running = true
  | _ => True

/-- The flag is set, and `thread_manager_start` is not about to clear it. -/
structure Paused (m : Manager) : Prop where
  paused : m.paused = true
  controller : m.controller ≠ .unpause

theorem pause_paused (h : m.step (.call .pause) = some t) : Paused t := by
  simp only [step] at h
  split at h
  · rename_i hc
    cases h
    refine ⟨rfl, ?_⟩
    simp only [enter, hc.1]
    rintro ⟨⟩
  · cases h

theorem enter_paused (h : Paused m) (hidle : m.controller = .idle) {c : Call}
    (hok : keepsPause m (.call c)) : Paused (m.enter c) := by
  have hp := h.paused
  cases c with
  | start =>
    rw [show m.enter .start = _ from if_pos hok]
    exact ⟨hp, by rw [hidle]; nofun⟩
  | stop | destroy =>
    simp only [enter]
    split
    · exact ⟨hp, nofun⟩
    · exact ⟨hp, by simp [hidle]⟩
  | pause => exact ⟨rfl, by simp [enter, hidle]⟩
  | resume => exact absurd hok id

theorem controllerStep_paused (h : Paused m) {created : Bool}
    (hs : m.controllerStep created = some t) : Paused t := by
  have hp := h.paused
  cases controllerStep_move hs with
  | unpause hc => exact absurd hc h.controller
  | @stopped destroying => exact ⟨hp, by cases destroying <;> nofun⟩
  | started | setRunning | create | fail | noHandle | join | setStopped | free => exact ⟨hp, nofun⟩

theorem step_paused {l : Label} (h : Paused m) (hok : keepsPause m l) (hs : m.step l = some t) :
    Paused t := by
  cases l with
  | call c =>
    simp only [step] at hs
    split at hs
    · rename_i hc
      cases hs
      exact enter_paused h hc.1 hok
    · cases hs
  | controller created => exact controllerStep_paused h hs
  | wrapper id more =>
    obtain ⟨w, states, pos, _, _, _, rfl⟩ := wrapperStep_frame hs
    exact ⟨h.paused, h.controller⟩

/-- A controller step leaves the positions of the threads alone; a new one is at its start. -/
theorem controllerStep_past {created : Bool} (hs : m.controllerStep created = some t) (id : Nat) :
    past id t = true → past id m = true := by
  unfold past
  cases controllerStep_move hs with
  | create hc =>
    simp only [spawn]
    by_cases hid : id = m.next
    · rw [hid, Function.update_self]
      rintro ⟨⟩
    · rw [Function.update_of_ne hid]
      exact fun h => h
  | @join _ _ _ id' w _ _ hw hd =>
    by_cases hid : id = id'
    · rw [hid]
      simp only [Function.update_self, hd]
      rintro ⟨⟩
    · simp only [Function.update_of_ne hid]
      exact fun h => h
  | unpause | started | setRunning | fail | stopped | noHandle | setStopped | free =>
    exact fun h => h

/-- A thread that begins an iteration was past the flag, and is not any more. No thread gets past
it. -/
theorem step_past {l : Label} (h : Paused m) (hs : m.step l = some t) (id : Nat) :
    (begins id m l).toNat + (past id t).toNat ≤ (past id m).toNat := by
  have hmono : begins id m l = false → (past id t = true → past id m = true) →
      (begins id m l).toNat + (past id t).toNat ≤ (past id m).toNat := by
    intro hno hkeep
    rw [hno]
    cases ht : past id t with
    | false => exact Nat.zero_le _
    | true => rw [hkeep ht]; exact Nat.le_refl _
  cases l with
  | call c =>
    refine hmono rfl fun ht => ?_
    simp only [step] at hs
    split at hs
    · cases hs
      have hthreads : (m.enter c).threads = m.threads := by
        cases c <;> simp only [enter] <;> split <;> rfl
      unfold past at ht ⊢
      rwa [hthreads] at ht
    · cases hs
  | controller created => exact hmono rfl (controllerStep_past hs id)
  | wrapper id' more =>
    by_cases hid : id' = id
    · subst hid
      simp only [step, wrapperStep] at hs
      split at hs
      · cases hs
      · rename_i w hw
        split at hs
        · cases hs
        · cases hs
          simp only [begins, past, hw, Function.update_self, wrapperNext, decide_true, Bool.true_and]
          -- where the thread was
          cases hpos : w.pos with
          | readRunning => cases m.running <;> simp
          | readPaused => simp [h.paused]
          | readState => by_cases hstate : m.states w.type = .running <;> simp [hstate]
          | work k => cases more <;> simp
          | exit | done => simp
    · have hthread : t.threads id = m.threads id := by
        obtain ⟨w, states, pos, _, _, _, rfl⟩ := wrapperStep_frame hs
        exact Function.update_of_ne (Ne.symm hid) _ _
      refine hmono (by simp [begins, hid]) fun ht => ?_
      unfold past at ht ⊢
      rwa [hthread] at ht

/-- Each thread begins at most one iteration while the flag stays set. -/
theorem run_past {ls : List Label} (h : Paused m) (hok : Runs.AllSteps step keepsPause m ls)
    (id : Nat) : iterations id m ls ≤ (past id m).toNat := by
  induction ls generalizing m with
  | nil => exact Nat.zero_le _
  | cons l ls ih =>
    rw [iterations]
    split
    · rename_i u hu
      have hstep := step_past h hu id
      have hrest := ih (step_paused h hok.1 hu) (hok.2 u hu)
      omega
    · rename_i hnone
      rw [Nat.add_zero]
      cases l with
      | wrapper id' more =>
        cases hb : begins id m (.wrapper id' more) with
        | false => exact Nat.zero_le _
        | true =>
          simp only [begins, Bool.and_eq_true] at hb
          unfold past
          cases hw : m.threads id with
          | none => rw [hw] at hb; cases hb.2
          | some w =>
            rw [hw] at hb
            simp [(of_decide_eq_true hb.2).1]
      | call | controller => exact Nat.zero_le _

/-- From a pause on, and until the threads are resumed or started anew, each thread begins at most
one iteration of its worker, and none at all unless it had already read the flag. -/
theorem paused_begins_once (s p : Manager) (hp : s.step (.call .pause) = some p) (ls : List Label)
    (hok : Runs.AllSteps step keepsPause p ls) (id : Nat) :
    iterations id p ls ≤ 1 ∧ (past id s = false → iterations id p ls = 0) := by
  have hle := run_past (pause_paused hp) hok id
  have hpast : past id p = past id s := by
    simp only [step] at hp
    split at hp
    · cases hp; rfl
    · cases hp
  rw [hpast] at hle
  refine ⟨Nat.le_trans hle (Bool.toNat_le _), fun hno => ?_⟩
  rw [hno] at hle
  exact Nat.le_zero.mp hle

/-- A thread that has just read the flag, and then the pause: it begins the one iteration, finds
the flag set after it, and begins no other. -/
def pauseRun : List Label :=
  List.replicate 7 (.wrapper 0 false)

theorem paused_begins_once_late : ∃ s p : Manager,
    Runs.run step init (.call .start :: List.replicate 8 (.controller true) ++
      [.wrapper 0 false, .wrapper 0 false]) = some s ∧
    s.step (.call .pause) = some p ∧ past 0 s = true ∧ iterations 0 p pauseRun = 1 ∧
      iterations 0 p pauseRun ≤ 1 := by
  have hrun : ∃ s p : Manager,
      Runs.run step init (.call .start :: List.replicate 8 (.controller true) ++
        [.wrapper 0 false, .wrapper 0 false]) = some s ∧
      s.step (.call .pause) = some p ∧ past 0 s = true ∧ iterations 0 p pauseRun = 1 :=
    ⟨_, _, rfl, rfl, rfl, rfl⟩
  obtain ⟨s, p, hs, hp, hpast, hone⟩ := hrun
  refine ⟨s, p, hs, hp, hpast, hone, ?_⟩
  refine (paused_begins_once s p hp pauseRun (Runs.allSteps_of_labels ?_) 0).1
  intro l hl s
  rw [List.eq_of_mem_replicate hl]
  trivial

end FastRing.Manager
