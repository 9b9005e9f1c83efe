import Mathlib.Data.List.Range
import Mathlib.Data.Nat.Cast.Field
import Mathlib.Data.Rat.Floor
import Mathlib.Tactic.Linarith
import FastRing.CapturePacing

/-! # Whether the sampling rate drifts

`sample_interval_us` is one million over the rate, rounded down. A clock that is read every
microsecond never lets the capture thread fall behind, so the deadlines are exact multiples
of the interval, and what the division has cut off adds up from sample to sample. -/

namespace FastRing

/-- A clock that is read at least once in every microsecond, and long before `2 ^ 64`. -/
structure Steady (start : UInt64) (readings : List UInt64) : Prop where
  tick : (start :: readings).IsChain fun c d => c.toNat ≤ d.toNat ∧ d.toNat ≤ c.toNat + 1
  below : ∀ c ∈ readings, c.toNat < 2 ^ 63

/-- The ideal distance of two samples, in microseconds. -/
def period (sampleRate : UInt32) : ℚ := 1000000 / sampleRate.toNat

/-- The samples of a session keep to the ideal instants: each is taken within a period of
its own, none is left out, and the mean rate is the configured one up to a sample. -/
structure NoDrift (sampleRate : UInt32) (start : UInt64) (readings : List UInt64) : Prop where
  inTime : ∀ (k : ℕ) x y, (captureThread sampleRate start readings).taken[0]? = some x →
    (captureThread sampleRate start readings).taken[k]? = some y →
      |(y.reading.toNat : ℚ) - x.reading.toNat - k * period sampleRate| ≤ period sampleRate
  complete : ∀ (k : ℕ) x c, (captureThread sampleRate start readings).taken[0]? = some x → c ∈ readings →
    (x.reading.toNat : ℚ) + (k + 1) * period sampleRate ≤ c.toNat →
      k < (captureThread sampleRate start readings).taken.length
  meanRate : ∀ (k : ℕ) x y, (captureThread sampleRate start readings).taken[0]? = some x →
    (captureThread sampleRate start readings).taken[k]? = some y → x.reading.toNat < y.reading.toNat →
      |(k : ℚ) / (y.reading.toNat - x.reading.toNat) - sampleRate.toNat / 1000000| ≤
        1 / (y.reading.toNat - x.reading.toNat)

/-! ## Deadlines of a steady clock -/

/-- The thread keeps up: the deadline is not before the last reading `c`, deadlines are
multiples of the interval, and each sample is taken in the microsecond of its deadline or
the one after it. -/
structure CaptureThread.OnTime (interval start c : Nat) (s : CaptureThread) : Prop where
  next : s.nextSampleTime.toNat = start + s.taken.length * interval
  ahead : c ≤ s.nextSampleTime.toNat
  taken : ∀ k x, s.taken[k]? = some x →
    start + k * interval ≤ x.reading.toNat ∧ x.reading.toNat ≤ start + k * interval + 1

section Steady

variable {interval : UInt64} (hpos : 0 < interval.toNat) (hi : interval.toNat ≤ 1000000)

include hpos hi

theorem captureIteration_onTime {start c : Nat} {s : CaptureThread} {d : UInt64}
    (hd : d.toNat < 2 ^ 63) (hle : c ≤ d.toNat) (htick : d.toNat ≤ c + 1)
    (h : s.OnTime interval.toNat start c) :
    (captureIteration interval s d).OnTime interval.toNat start d.toNat := by
  rcases captureIteration_cases hi (s := s) hd with ⟨hearly, heq⟩ | ⟨x, hx, hreading, hdeadline, heq⟩
  · rw [heq]
    exact ⟨h.next, Nat.le_of_lt hearly, h.taken⟩
  · rw [heq]
    have hahead := h.ahead
    have hdue := hx.due
    have hnext := hx.next
    rw [hreading, hdeadline] at hdue hnext
    -- the reading is at most one past the deadline, and one is not an interval too late
    rw [if_neg (by omega)] at hnext
    refine ⟨?_, ?_, ?_⟩
    · rw [List.length_append, List.length_singleton, Nat.succ_mul]
      change x.next.toNat = _
      rw [hnext, h.next]
      omega
    · change d.toNat ≤ x.next.toNat
      omega
    · intro k y hy
      rcases Nat.lt_or_ge k s.taken.length with hk | hk
      · rw [List.getElem?_append_left hk] at hy
        exact h.taken k y hy
      · have hlt := (List.getElem?_eq_some_iff.mp hy).1
        rw [List.length_append, List.length_singleton] at hlt
        have hlen : k = s.taken.length := by omega
        rw [hlen, List.getElem?_concat_length] at hy
        cases hy
        rw [hlen, ← h.next, hreading]
        exact ⟨hdue, by omega⟩

/-- Every steady session is on time, up to a last reading that no other exceeds. -/
theorem session_onTime {start : Nat} {s : CaptureThread} {c : UInt64} {readings : List UInt64}
    (hsteady : Steady c readings) (h : s.OnTime interval.toNat start c.toNat) :
    ∃ last, (∀ d ∈ c :: readings, d.toNat ≤ last) ∧
      (readings.foldl (captureIteration interval) s).OnTime interval.toNat start last := by
  induction readings generalizing s c with
  | nil =>
    refine ⟨c.toNat, ?_, h⟩
    intro d hd
    rw [List.mem_singleton.mp hd]
  | cons d readings ih =>
    have htick := (List.isChain_cons_cons.mp hsteady.tick).1
    have hrest : Steady d readings :=
      ⟨(List.isChain_cons_cons.mp hsteady.tick).2,
        fun e he => hsteady.below e (List.mem_cons_of_mem _ he)⟩
    obtain ⟨last, hlast, honTime⟩ := ih hrest
      (captureIteration_onTime hpos hi (hsteady.below d List.mem_cons_self) htick.1 htick.2 h)
    refine ⟨last, ?_, honTime⟩
    intro e he
    rcases List.mem_cons.mp he with rfl | he
    · exact Nat.le_trans htick.1 (hlast d List.mem_cons_self)
    · exact hlast e he

end Steady

/-- What a steady session of a valid rate looks like from outside. -/
theorem captureThread_onTime {sampleRate : UInt32} (h0 : 1 ≤ sampleRate.toNat)
    (h1 : sampleRate.toNat ≤ 1000000) {start : UInt64} {readings : List UInt64}
    (hsteady : Steady start readings) :
    ∃ last, (∀ d ∈ start :: readings, d.toNat ≤ last) ∧
      (captureThread sampleRate start readings).OnTime (1000000 / sampleRate.toNat) start.toNat last := by
  rw [← sampleIntervalUs_toNat]
  refine session_onTime (sampleIntervalUs_pos h0 h1) (sampleIntervalUs_le _) hsteady ?_
  exact ⟨by simp, Nat.le_refl _, nofun⟩

/-! ## Rates that divide a million -/

section Rate

variable {sampleRate : UInt32} (h0 : 1 ≤ sampleRate.toNat) (h1 : sampleRate.toNat ≤ 1000000)

include h0

theorem period_pos : 0 < period sampleRate := by
  have : (0 : ℚ) < sampleRate.toNat := by exact_mod_cast h0
  unfold period
  positivity

theorem period_eq_of_dvd (hdvd : sampleRate.toNat ∣ 1000000) :
    period sampleRate = (1000000 / sampleRate.toNat : ℕ) := by
  rw [period, Nat.cast_div hdvd (by exact_mod_cast (Nat.ne_of_gt h0))]
  rfl

/-- Being within a period of the ideal instant is being within a sample of the ideal rate. -/
theorem meanRate_of_inTime {k : ℕ} {t : ℚ} (ht : 0 < t)
    (h : |t - k * period sampleRate| ≤ period sampleRate) :
    |(k : ℚ) / t - sampleRate.toNat / 1000000| ≤ 1 / t := by
  have hpos := period_pos h0
  have hrate : (sampleRate.toNat : ℚ) / 1000000 = 1 / period sampleRate := by
    rw [period, one_div_div]
  have hdiff : (k : ℚ) / t - 1 / period sampleRate =
      -((t - k * period sampleRate) / (period sampleRate * t)) := by
    field_simp
    ring
  rw [hrate, hdiff, abs_neg, abs_div, abs_of_pos (mul_pos hpos ht), div_le_div_iff₀ (mul_pos hpos ht) ht]
  nlinarith

include h1

theorem noDrift_of_dvd (hdvd : sampleRate.toNat ∣ 1000000) {start : UInt64} {readings : List UInt64}
    (hsteady : Steady start readings) : NoDrift sampleRate start readings := by
  obtain ⟨last, hlast, honTime⟩ := captureThread_onTime h0 h1 hsteady
  have hinterval : 1 ≤ 1000000 / sampleRate.toNat := Nat.div_pos h1 h0
  have hinTime : ∀ (k : ℕ) x y, (captureThread sampleRate start readings).taken[0]? = some x →
      (captureThread sampleRate start readings).taken[k]? = some y →
        |(y.reading.toNat : ℚ) - x.reading.toNat - k * period sampleRate| ≤ period sampleRate := by
    intro k x y hx hy
    obtain ⟨hxle, hxlt⟩ := honTime.taken 0 x hx
    obtain ⟨hyle, hylt⟩ := honTime.taken k y hy
    rw [Nat.zero_mul, Nat.add_zero] at hxle hxlt
    rw [period_eq_of_dvd h0 hdvd]
    generalize 1000000 / sampleRate.toNat = i at *
    rw [abs_le]
    have hupper : y.reading.toNat ≤ x.reading.toNat + k * i + i := by omega
    have hlower : x.reading.toNat + k * i ≤ y.reading.toNat + i := by omega
    have hupper' : (y.reading.toNat : ℚ) ≤ x.reading.toNat + k * i + i := by exact_mod_cast hupper
    have hlower' : (x.reading.toNat : ℚ) + k * i ≤ y.reading.toNat + i := by exact_mod_cast hlower
    constructor <;> linarith
  refine ⟨hinTime, ?_, ?_⟩
  · intro k x c hx hc hlate
    obtain ⟨hxle, _⟩ := honTime.taken 0 x hx
    rw [period_eq_of_dvd h0 hdvd] at hlate
    have hlate' : x.reading.toNat + (k + 1) * (1000000 / sampleRate.toNat) ≤ c.toNat := by
      exact_mod_cast hlate
    have hc' := hlast c (List.mem_cons_of_mem _ hc)
    have hahead := honTime.ahead
    rw [honTime.next] at hahead
    have hmul : (k + 1) * (1000000 / sampleRate.toNat) ≤
        (captureThread sampleRate start readings).taken.length * (1000000 / sampleRate.toNat) := by
      omega
    exact Nat.le_of_mul_le_mul_right hmul hinterval
  · intro k x y hx hy hlt
    have hpos : (0 : ℚ) < y.reading.toNat - x.reading.toNat := by
      rw [sub_pos]
      exact_mod_cast hlt
    exact meanRate_of_inTime h0 hpos (hinTime k x y hx hy)

end Rate

/-! ## The other rates -/

/-- A clock read once in each of the first `n` microseconds. -/
theorem counting_steady {n : ℕ} (hn : n < 2 ^ 63) :
    Steady 0 ((List.range' 1 n).map UInt64.ofNat) := by
  have htoNat : ∀ m, m ≤ n → (UInt64.ofNat m).toNat = m := fun m hm =>
    UInt64.toNat_ofNat_of_lt' (by rw [UInt64.size]; omega)
  constructor
  · have hall : (0 : UInt64) :: (List.range' 1 n).map UInt64.ofNat =
        (List.range (n + 1)).map UInt64.ofNat := by
      rw [List.range_eq_range', List.range'_succ, List.map_cons]
      rfl
    rw [hall, List.isChain_map, List.isChain_range]
    intro m hm
    rw [htoNat m (by omega), htoNat m.succ (by omega)]
    exact ⟨Nat.le_succ m, Nat.le_refl _⟩
  · intro c hc
    obtain ⟨m, hm, rfl⟩ := List.mem_map.mp hc
    have hle := (List.mem_range'_1.mp hm).2
    rw [htoNat m (by omega)]
    omega

section Rate

variable {sampleRate : UInt32} (h0 : 1 ≤ sampleRate.toNat) (h1 : sampleRate.toNat ≤ 1000000)

include h0 h1

/-- What the division cuts off is at least one part in `sampleRate` of each interval, so
after two million samples it is more than a period, in every session that long. -/
theorem drift_of_not_dvd (hdvd : ¬sampleRate.toNat ∣ 1000000) {start : UInt64} {readings : List UInt64}
    (hsteady : Steady start readings)
    (hlong : 2000001 < (captureThread sampleRate start readings).taken.length) :
    ¬NoDrift sampleRate start readings := by
  intro hnoDrift
  obtain ⟨_, _, honTime⟩ := captureThread_onTime h0 h1 hsteady
  obtain ⟨x, hx⟩ : ∃ x, (captureThread sampleRate start readings).taken[0]? = some x :=
    ⟨_, List.getElem?_eq_getElem (by omega)⟩
  obtain ⟨y, hy⟩ : ∃ y, (captureThread sampleRate start readings).taken[2000001]? = some y :=
    ⟨_, List.getElem?_eq_getElem hlong⟩
  have hxle := (honTime.taken 0 x hx).1
  have hyle := (honTime.taken 2000001 y hy).2
  have hsplit := Nat.div_add_mod 1000000 sampleRate.toNat
  have hrest : 1 ≤ 1000000 % sampleRate.toNat :=
    Nat.pos_of_ne_zero fun h => hdvd (Nat.dvd_of_mod_eq_zero h)
  -- no drift would take two million periods between the two samples
  have hideal : x.reading.toNat * sampleRate.toNat + 2000000 * 1000000 ≤
      y.reading.toNat * sampleRate.toNat := by
    have hrate : (0 : ℚ) < sampleRate.toNat := by exact_mod_cast h0
    have hperiod : period sampleRate * sampleRate.toNat = 1000000 := div_mul_cancel₀ _ hrate.ne'
    have hdrift := (abs_le.mp (hnoDrift.inTime 2000001 x y hx hy)).1
    push_cast at hdrift
    have hspan : 2000000 * period sampleRate ≤ y.reading.toNat - x.reading.toNat := by linarith
    have hscaled := mul_le_mul_of_nonneg_right hspan hrate.le
    rw [mul_assoc, hperiod, sub_mul] at hscaled
    have : (x.reading.toNat : ℚ) * sampleRate.toNat + 2000000 * 1000000 ≤
        y.reading.toNat * sampleRate.toNat := by linarith
    exact_mod_cast this
  -- but they are two million and one intervals apart, and at most a microsecond more
  have hreal : y.reading.toNat * sampleRate.toNat ≤
      x.reading.toNat * sampleRate.toNat +
        2000001 * (sampleRate.toNat * (1000000 / sampleRate.toNat)) + sampleRate.toNat := by
    have hle : y.reading.toNat ≤ x.reading.toNat + 2000001 * (1000000 / sampleRate.toNat) + 1 := by omega
    refine Nat.le_trans (Nat.mul_le_mul_right sampleRate.toNat hle) (Nat.le_of_eq ?_)
    ring
  omega

/-- The counting clock makes the session as long as wanted. -/
theorem counting_long {n : ℕ} (hn : n * 1000000 < 2 ^ 63) :
    Steady 0 ((List.range' 1 (n * (1000000 / sampleRate.toNat))).map UInt64.ofNat) ∧
      n ≤ (captureThread sampleRate 0
        ((List.range' 1 (n * (1000000 / sampleRate.toNat))).map UInt64.ofNat)).taken.length := by
  have hpos : 1 ≤ 1000000 / sampleRate.toNat := Nat.div_pos h1 h0
  have hmul : n * (1000000 / sampleRate.toNat) ≤ n * 1000000 :=
    Nat.mul_le_mul_left n (Nat.div_le_self _ _)
  generalize hm : n * (1000000 / sampleRate.toNat) = m at hmul
  have hsteady : Steady 0 ((List.range' 1 m).map UInt64.ofNat) := counting_steady (by omega)
  refine ⟨hsteady, ?_⟩
  obtain ⟨last, hlast, honTime⟩ := captureThread_onTime h0 h1 hsteady
  have hahead := honTime.ahead
  rw [honTime.next, UInt64.toNat_zero, Nat.zero_add] at hahead
  refine Nat.le_of_mul_le_mul_right (Nat.le_trans ?_ hahead) hpos
  rw [hm]
  rcases Nat.eq_zero_or_pos m with rfl | hm
  · exact Nat.zero_le _
  · have hmem := hlast (UInt64.ofNat m)
      (List.mem_cons_of_mem _ (List.mem_map_of_mem (List.mem_range'_1.mpr ⟨hm, by omega⟩)))
    rw [UInt64.toNat_ofNat_of_lt' (by rw [UInt64.size]; omega)] at hmem
    exact hmem

/-- A rate is kept up to a period in every session exactly if it divides a million. -/
theorem no_drift_iff :
    (∀ start readings, Steady start readings → NoDrift sampleRate start readings) ↔
      sampleRate.toNat ∣ 1000000 := by
  constructor
  · intro h
    by_contra hdvd
    obtain ⟨hsteady, hlong⟩ := counting_long h0 h1 (n := 2000002) (by norm_num)
    exact drift_of_not_dvd h0 h1 hdvd hsteady hlong (h _ _ hsteady)
  · intro hdvd start readings hsteady
    exact noDrift_of_dvd h0 h1 hdvd hsteady

end Rate

/-- The default rate of 40 kHz keeps its interval of 25 microseconds. -/
theorem no_drift_at_40_kHz :
    UInt32.toNat 40000 ∣ 1000000 ∧
      ∀ start readings, Steady start readings → NoDrift 40000 start readings :=
  ⟨by decide, (no_drift_iff (by decide) (by decide)).mpr (by decide)⟩

/-- At 600 kHz the interval is a microsecond for a period of five thirds, and the fourth
sample is two microseconds early. -/
theorem drift_at_600_kHz :
    Steady 0 [0, 1, 2, 3] ∧
      (captureThread 600000 0 [0, 1, 2, 3]).taken.map (fun x => x.reading.toNat) = [0, 1, 2, 3] ∧
        ¬NoDrift 600000 0 [0, 1, 2, 3] := by
  refine ⟨⟨by decide, by simp⟩, by decide, ?_⟩
  intro h
  have hdrift := (abs_le.mp (h.inTime 3 ⟨0, 0, 1⟩ ⟨3, 3, 4⟩ (by decide) (by decide))).1
  have hperiod : period 600000 = 5 / 3 := by
    change (1000000 : ℚ) / (600000 : ℕ) = 5 / 3
    norm_num
  change -period 600000 ≤ ((3 : ℕ) : ℚ) - (0 : ℕ) - (3 : ℕ) * period 600000 at hdrift
  rw [hperiod] at hdrift
  norm_num at hdrift

end FastRing
