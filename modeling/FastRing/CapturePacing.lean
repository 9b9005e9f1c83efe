import Mathlib.Algebra.Group.Nat.Defs
import FastRing.Types
import FastRing.Lib.Spacing

/-! # When the capture thread takes samples

`capture_thread` of `adc_simulator.c` with its deadline `next_sample_time`, over the clock
readings it gets. It takes a sample at the first reading that is not before the deadline,
and moves the deadline on by one interval; when that is in the past already, the next
interval counts from the reading. So samples never come in bursts, and a stall of any
length costs no more than the samples it covers. -/

namespace FastRing

open Spacing

/-- A sample taken: at which clock reading, for which deadline, and the deadline after it. -/
structure Taken where
  reading : UInt64
  deadline : UInt64
  next : UInt64
  deriving DecidableEq, Repr

/-- The capture thread between two iterations, with the samples taken so far. -/
structure CaptureThread where
  nextSampleTime : UInt64
  taken : List Taken
  deriving DecidableEq, Repr

/-- `sample_interval_us`. -/
def sampleIntervalUs (sampleRate : UInt32) : UInt64 := 1000000 / sampleRate.toUInt64

/-- An iteration of the loop, which reads `currentTime` from the clock. -/
def captureIteration (interval : UInt64) (s : CaptureThread) (currentTime : UInt64) :
    CaptureThread :=
  if currentTime ≥ s.nextSampleTime then
    let next := s.nextSampleTime + interval
    let next := if next < currentTime then currentTime + interval else next
    { nextSampleTime := next
      taken := s.taken ++ [{ reading := currentTime, deadline := s.nextSampleTime, next := next }] }
  else s

/-- `capture_thread`: the first reading is the first deadline, the others are one for each
iteration. -/
def captureThread (sampleRate : UInt32) (start : UInt64) (readings : List UInt64) : CaptureThread :=
  readings.foldl (captureIteration (sampleIntervalUs sampleRate))
    { nextSampleTime := start, taken := [] }

/-! ## One iteration -/

/-- The interval of a rate that `config_validate` accepts. -/
theorem sampleIntervalUs_toNat (sampleRate : UInt32) :
    (sampleIntervalUs sampleRate).toNat = 1000000 / sampleRate.toNat := by
  rw [sampleIntervalUs, UInt64.toNat_div, UInt32.toNat_toUInt64]
  rfl

theorem sampleIntervalUs_pos {sampleRate : UInt32} (h0 : 1 ≤ sampleRate.toNat)
    (h1 : sampleRate.toNat ≤ 1000000) : 0 < (sampleIntervalUs sampleRate).toNat := by
  rw [sampleIntervalUs_toNat]
  exact Nat.div_pos h1 h0

theorem sampleIntervalUs_le (sampleRate : UInt32) : (sampleIntervalUs sampleRate).toNat ≤ 1000000 := by
  rw [sampleIntervalUs_toNat]
  exact Nat.div_le_self _ _

/-- A sample that is taken in time, and whose next deadline follows the rule of the loop:
one interval later than the last, or, if that is past, one interval from now. -/
structure Taken.Ok (interval : Nat) (x : Taken) : Prop where
  due : x.deadline.toNat ≤ x.reading.toNat
  next : x.next.toNat = if x.deadline.toNat + interval < x.reading.toNat
    then x.reading.toNat + interval else x.deadline.toNat + interval

section Ok

variable {interval : Nat} {x : Taken} (h : x.Ok interval)

include h

theorem Taken.Ok.next_le : x.next.toNat ≤ x.reading.toNat + interval := by
  have hdue := h.due
  rw [h.next]
  split <;> omega

theorem Taken.Ok.le_next : x.reading.toNat ≤ x.next.toNat := by
  rw [h.next]
  split <;> omega

theorem Taken.Ok.gap : x.deadline.toNat + interval ≤ x.next.toNat := by
  rw [h.next]
  split <;> omega

end Ok

/-- Below `2 ^ 63` nothing wraps around, and a reading before the deadline changes nothing. -/
theorem captureIteration_cases {interval : UInt64} (hi : interval.toNat ≤ 1000000)
    {s : CaptureThread} {currentTime : UInt64} (hc : currentTime.toNat < 2 ^ 63) :
    (currentTime.toNat < s.nextSampleTime.toNat ∧ captureIteration interval s currentTime = s) ∨
      ∃ x : Taken, x.Ok interval.toNat ∧ x.reading = currentTime ∧ x.deadline = s.nextSampleTime ∧
        captureIteration interval s currentTime =
          { nextSampleTime := x.next, taken := s.taken ++ [x] } := by
  unfold captureIteration
  simp only [ge_iff_le, UInt64.le_iff_toNat_le, UInt64.lt_iff_toNat_lt]
  by_cases hdue : s.nextSampleTime.toNat ≤ currentTime.toNat
  · rw [if_pos hdue]
    have hsum : (s.nextSampleTime + interval).toNat = s.nextSampleTime.toNat + interval.toNat := by
      rw [UInt64.toNat_add]
      exact Nat.mod_eq_of_lt (by omega)
    have hsum' : (currentTime + interval).toNat = currentTime.toNat + interval.toNat := by
      rw [UInt64.toNat_add]
      exact Nat.mod_eq_of_lt (by omega)
    by_cases hlate : s.nextSampleTime.toNat + interval.toNat < currentTime.toNat
    · refine .inr ⟨⟨currentTime, s.nextSampleTime, currentTime + interval⟩, ⟨hdue, ?_⟩, rfl, rfl, ?_⟩
      · rw [if_pos hlate]
        exact hsum'
      · simp only [hsum, if_pos hlate]
    · refine .inr ⟨⟨currentTime, s.nextSampleTime, s.nextSampleTime + interval⟩, ⟨hdue, ?_⟩, rfl, rfl,
        ?_⟩
      · rw [if_neg hlate]
        exact hsum
      · simp only [hsum, if_neg hlate]
  · rw [if_neg hdue]
    exact .inl ⟨by omega, rfl⟩

/-! ## A session -/

/-- The samples taken so far keep the rules, and each deadline is the one the sample
before it has set. -/
structure CaptureThread.Inv (interval : Nat) (s : CaptureThread) : Prop where
  ok : ∀ x ∈ s.taken, x.Ok interval
  linked : s.taken.IsChain fun x y => y.deadline = x.next
  current : ∀ x ∈ s.taken.getLast?, s.nextSampleTime = x.next

section Session

variable {interval : UInt64} (hi : interval.toNat ≤ 1000000)

include hi

theorem captureIteration_inv {s : CaptureThread} {currentTime : UInt64}
    (hc : currentTime.toNat < 2 ^ 63) (h : s.Inv interval.toNat) :
    (captureIteration interval s currentTime).Inv interval.toNat := by
  rcases captureIteration_cases hi (s := s) hc with ⟨_, heq⟩ | ⟨x, hx, _, hdeadline, heq⟩
  · rw [heq]
    exact h
  · rw [heq]
    refine ⟨?_, ?_, ?_⟩
    · intro y hy
      rcases List.mem_append.mp hy with hy | hy
      · exact h.ok y hy
      · rw [List.mem_singleton.mp hy]
        exact hx
    · refine List.isChain_append.mpr ⟨h.linked, List.isChain_singleton x, ?_⟩
      intro y hy z hz
      cases hz
      rw [hdeadline]
      exact h.current y hy
    · intro y hy
      rw [List.getLast?_concat] at hy
      cases hy
      rfl

/-- Every session keeps the invariant. -/
theorem session_inv {s : CaptureThread} {readings : List UInt64}
    (hr : ∀ c ∈ readings, c.toNat < 2 ^ 63) (h : s.Inv interval.toNat) :
    (readings.foldl (captureIteration interval) s).Inv interval.toNat := by
  induction readings generalizing s with
  | nil => exact h
  | cons c readings ih =>
    exact ih (fun d hd => hr d (List.mem_cons_of_mem _ hd))
      (captureIteration_inv hi (hr c List.mem_cons_self) h)

/-- Samples are only added, and without a new one the deadline stays. -/
theorem session_grows {s : CaptureThread} {readings : List UInt64}
    (hr : ∀ c ∈ readings, c.toNat < 2 ^ 63) :
    readings.foldl (captureIteration interval) s = s ∨
      s.taken.length < (readings.foldl (captureIteration interval) s).taken.length := by
  induction readings generalizing s with
  | nil => exact .inl rfl
  | cons c readings ih =>
    have hrest : ∀ d ∈ readings, d.toNat < 2 ^ 63 := fun d hd => hr d (List.mem_cons_of_mem _ hd)
    rw [List.foldl_cons]
    rcases captureIteration_cases hi (s := s) (hr c List.mem_cons_self) with ⟨_, heq⟩ | ⟨x, _, _, _, heq⟩
    · rw [heq]
      exact ih hrest
    · rw [heq]
      have hmore := ih (s := { nextSampleTime := x.next, taken := s.taken ++ [x] }) hrest
      simp only [List.length_append, List.length_singleton] at hmore
      rcases hmore with hsame | hmore
      · rw [hsame, List.length_append, List.length_singleton]
        exact .inr (Nat.lt_succ_self _)
      · exact .inr (by omega)

end Session

/-- How the samples of a session are paced, with one interval of `i` microseconds:
deadlines, distances, windows of time, and how long the next sample takes at most. -/
structure Paced (sampleRate : UInt32) (start : UInt64) (readings : List UInt64) (i : Nat) :
    Prop where
  deadline : ∀ x ∈ (captureThread sampleRate start readings).taken,
    x.reading.toNat ≤ x.next.toNat ∧ x.next.toNat ≤ x.reading.toNat + i
  successive : ∀ k x y, (captureThread sampleRate start readings).taken[k]? = some x →
    (captureThread sampleRate start readings).taken[k + 1]? = some y →
      y.deadline = x.next ∧ x.deadline.toNat + i ≤ y.deadline.toNat
  apart : ∀ k l x y, k < l → (captureThread sampleRate start readings).taken[k]? = some x →
    (captureThread sampleRate start readings).taken[l]? = some y →
      x.reading.toNat + (l - k - 1) * i ≤ y.reading.toNat
  window : ∀ lo w, ((captureThread sampleRate start readings).taken.filter
    fun x => lo ≤ x.reading.toNat ∧ x.reading.toNat ≤ lo + w).length ≤ w / i + 2
  prompt : ∀ before c mid c', before ++ c :: (mid ++ [c']) <+: readings →
    (captureThread sampleRate start before).taken.length <
      (captureThread sampleRate start (before ++ [c])).taken.length →
    c.toNat + i ≤ c'.toNat →
    (captureThread sampleRate start (before ++ [c])).taken.length <
      (captureThread sampleRate start (before ++ c :: (mid ++ [c']))).taken.length

theorem start_inv (interval : Nat) (start : UInt64) :
    CaptureThread.Inv interval { nextSampleTime := start, taken := [] } :=
  ⟨nofun, List.IsChain.nil, nofun⟩

/-- The readings of a session from its start on are `Spaced`. -/
theorem CaptureThread.Inv.spaced {interval : Nat} {s : CaptureThread} (h : s.Inv interval) :
    Spaced interval (s.taken.map fun x => x.reading.toNat) := by
  refine spaced_of_deadlines (fun x => x.deadline.toNat) (fun x hx => (h.ok x hx).due) ?_
  refine List.isChain_iff_getElem.mpr ?_
  intro k hk
  have hlink := h.linked.getElem k hk
  have hok := h.ok _ (List.getElem_mem (Nat.lt_of_succ_lt hk))
  rw [hlink]
  exact ⟨hok.le_next, hok.gap⟩

/-- After a sample at `c`, a reading of `c + interval` or more finds the next one taken. -/
theorem captureIteration_prompt {interval : UInt64} (hi : interval.toNat ≤ 1000000)
    {s : CaptureThread} {c c' : UInt64} {mid : List UInt64}
    (hr : ∀ d ∈ c :: (mid ++ [c']), d.toNat < 2 ^ 63)
    (htaken : s.taken.length < (captureIteration interval s c).taken.length)
    (hlater : c.toNat + interval.toNat ≤ c'.toNat) :
    (captureIteration interval s c).taken.length <
      ((mid ++ [c']).foldl (captureIteration interval) (captureIteration interval s c)).taken.length := by
  have hc : c.toNat < 2 ^ 63 := hr c List.mem_cons_self
  have hmid : ∀ d ∈ mid, d.toNat < 2 ^ 63 := fun d hd =>
    hr d (List.mem_cons_of_mem _ (List.mem_append_left _ hd))
  have hc' : c'.toNat < 2 ^ 63 :=
    hr c' (List.mem_cons_of_mem _ (List.mem_append_right _ (List.mem_singleton.mpr rfl)))
  rw [List.foldl_append, List.foldl_cons, List.foldl_nil]
  rcases session_grows hi (s := captureIteration interval s c) hmid with hsame | hmore
  · -- no sample between the two, so the deadline is still the one that the sample at `c` has set
    rw [hsame]
    rcases captureIteration_cases hi (s := s) hc with ⟨_, heq⟩ | ⟨x, hx, hreading, _, heq⟩
    · rw [heq] at htaken
      exact absurd htaken (Nat.lt_irrefl _)
    · rw [heq]
      have hnext := hx.next_le
      rw [hreading] at hnext
      rcases captureIteration_cases hi (s := { nextSampleTime := x.next, taken := s.taken ++ [x] }) hc'
        with ⟨hearly, _⟩ | ⟨y, _, _, _, heq'⟩
      · have : c'.toNat < x.next.toNat := hearly
        omega
      · rw [heq']
        simp
  · rcases captureIteration_cases hi
      (s := mid.foldl (captureIteration interval) (captureIteration interval s c)) hc'
        with ⟨_, heq⟩ | ⟨y, _, _, _, heq⟩
    · rw [heq]
      exact hmore
    · rw [heq]
      exact Nat.lt_trans hmore (by simp)

/-- Every session of a rate that `config_validate` accepts is paced. -/
theorem capture_paced {sampleRate : UInt32} (h0 : 1 ≤ sampleRate.toNat)
    (h1 : sampleRate.toNat ≤ 1000000) {start : UInt64} {readings : List UInt64}
    (hr : ∀ c ∈ readings, c.toNat < 2 ^ 63) :
    Paced sampleRate start readings (1000000 / sampleRate.toNat) := by
  have hi := sampleIntervalUs_le sampleRate
  have hpos := sampleIntervalUs_pos h0 h1
  have hinv : (captureThread sampleRate start readings).Inv (sampleIntervalUs sampleRate).toNat :=
    session_inv hi hr (start_inv _ start)
  rw [← sampleIntervalUs_toNat]
  refine ⟨?_, ?_, ?_, ?_, ?_⟩
  · intro x hx
    exact ⟨(hinv.ok x hx).le_next, (hinv.ok x hx).next_le⟩
  · intro k x y hx hy
    obtain ⟨_, rfl⟩ := List.getElem?_eq_some_iff.mp hx
    obtain ⟨hlt, rfl⟩ := List.getElem?_eq_some_iff.mp hy
    have hlink := hinv.linked.getElem k hlt
    refine ⟨hlink, ?_⟩
    rw [hlink]
    exact (hinv.ok _ (List.mem_of_getElem? hx)).gap
  · intro k l x y hkl hx hy
    refine hinv.spaced k l _ _ hkl ?_ ?_
    · rw [List.getElem?_map]
      exact congrArg (Option.map _) hx
    · rw [List.getElem?_map]
      exact congrArg (Option.map _) hy
  · intro lo w
    have hwindow := hinv.spaced.window hpos lo w
    rw [List.filter_map, List.length_map] at hwindow
    exact hwindow
  · intro before c mid c' hpart htaken hlater
    have hr' : ∀ d ∈ c :: (mid ++ [c']), d.toNat < 2 ^ 63 := fun d hd =>
      hr d (hpart.subset (List.mem_append_right _ hd))
    unfold captureThread at htaken ⊢
    simp only [List.foldl_append (l := before), List.foldl_cons, List.foldl_nil] at htaken ⊢
    exact captureIteration_prompt hi hr' htaken hlater

/-- At 250 kHz, with a stall after the second sample. -/
theorem capture_paced_stalled :
    (captureThread 250000 10 [10, 12, 15, 40, 41, 44]).taken.map (fun x => x.reading.toNat) =
        [10, 15, 40, 44] ∧
      Paced 250000 10 [10, 12, 15, 40, 41, 44] (1000000 / UInt32.toNat 250000) :=
  ⟨by decide, capture_paced (by decide) (by decide) (by simp)⟩

end FastRing
