import Mathlib.Data.Nat.Bitwise
import Mathlib.Data.Int.Basic

/-! # Timestamps from the performance counter

The Windows side of `timestamp.c`. A timestamp is the counter times the units per second,
divided by the counter's frequency. The product is formed first, in 64 bits: as long as
it fits, the quotient is exact, and as soon as it does not, the timestamp is wrong and
starts again near 0. -/

namespace FastRing

/-- `g_freq` and `g_freq_initialized`. -/
structure WindowsClock where
  freq : Int64
  freqInitialized : Bool
  deriving DecidableEq, Repr

/-- `timestamp_init`, when `QueryPerformanceFrequency` delivers `freq`. -/
def timestampInit (freq : Int64) : WindowsClock := { freq := freq, freqInitialized := true }

/-- A timestamp in `units` per second, when `QueryPerformanceCounter` delivers `count` and
`QueryPerformanceFrequency`, if it is asked, `freq`. -/
def readClock (units : UInt64) (s : WindowsClock) (freq count : Int64) : UInt64 × WindowsClock :=
  let s := if s.freqInitialized then s else timestampInit freq
  (count.toUInt64 * units / s.freq.toUInt64, s)

def getTimestampUs (s : WindowsClock) (freq count : Int64) : UInt64 × WindowsClock :=
  readClock 1000000 s freq count

def getTimestampMs (s : WindowsClock) (freq count : Int64) : UInt64 × WindowsClock :=
  let r := getTimestampUs s freq count
  (r.1 / 1000, r.2)

def getTimestampNs (s : WindowsClock) (freq count : Int64) : UInt64 × WindowsClock :=
  readClock 1000000000 s freq count

/-- The states of the clock over a run in which the counter's frequency is `freq`. -/
inductive ClockReached (freq : Int64) : WindowsClock → Prop
  | start : ClockReached freq { freq := 0, freqInitialized := false }
  | init : ClockReached freq (timestampInit freq)
  | read {s : WindowsClock} (units : UInt64) (count : Int64) (h : ClockReached freq s) :
      ClockReached freq (readClock units s freq count).2

theorem ClockReached.tuned {freq : Int64} {s : WindowsClock} (h : ClockReached freq s) :
    s.freqInitialized = true → s.freq = freq := by
  induction h with
  | start => exact nofun
  | init => exact fun _ => rfl
  | @read s units count _ ih =>
    unfold readClock
    by_cases hinit : s.freqInitialized = true
    · simp only [if_pos hinit]
      exact fun _ => ih hinit
    · simp only [if_neg hinit]
      exact fun _ => rfl

/-- Reducing a number modulo `2 ^ 64` before dividing it shows, for any divisor of 64
bits. -/
theorem mod_div_eq_iff {n f : Nat} (h0 : 0 < f) (hf : f ≤ 2 ^ 64) :
    n % 2 ^ 64 / f = n / f ↔ n < 2 ^ 64 := by
  constructor
  · intro h
    by_contra hn
    -- without its first `2 ^ 64` the number is at least `f` less
    have hle : n % 2 ^ 64 + f ≤ n := by
      have := Nat.div_add_mod n (2 ^ 64)
      omega
    have hdiv := Nat.div_le_div_right (c := f) hle
    rw [Nat.add_div_right _ h0] at hdiv
    omega
  · intro h
    rw [Nat.mod_eq_of_lt h]

theorem toNat_toUInt64 {n : Int64} (h : 0 ≤ n.toInt) : n.toUInt64.toNat = n.toInt.toNat := by
  have hcond : n.toInt = n.toUInt64.toBitVec.toInt := rfl
  rw [BitVec.toInt_eq_toNat_cond] at hcond
  have hnat : n.toUInt64.toBitVec.toNat = n.toUInt64.toNat := rfl
  have hlt := n.toUInt64.toNat_lt
  split at hcond <;> omega

section Exact

variable {s : WindowsClock} {freq count : Int64} {units : UInt64}

theorem readClock_toNat (hs : ClockReached freq s) (hf : 0 < freq.toInt) (hc : 0 ≤ count.toInt) :
    (readClock units s freq count).1.toNat =
      count.toInt.toNat * units.toNat % 2 ^ 64 / freq.toInt.toNat := by
  have hfreq : (if s.freqInitialized then s else timestampInit freq).freq = freq := by
    split
    · rename_i hinit
      exact hs.tuned hinit
    · rfl
  unfold readClock
  rw [UInt64.toNat_div, UInt64.toNat_mul, hfreq, toNat_toUInt64 hc, toNat_toUInt64 (Int.le_of_lt hf)]

/-- The timestamp `get` gives at `count` is the exact quotient, rounded down, and no
earlier count gives a later one. -/
def ExactAt (get : Int64 → UInt64) (units : Nat) (freq count : Int64) : Prop :=
  (get count).toNat = count.toInt.toNat * units / freq.toInt.toNat ∧
    ∀ count' : Int64, 0 ≤ count'.toInt → count'.toInt ≤ count.toInt → get count' ≤ get count

theorem exactAt_iff (units : UInt64) (hs : ClockReached freq s) (hf : 0 < freq.toInt)
    (hc : 0 ≤ count.toInt) :
    ExactAt (fun count => (readClock units s freq count).1) units.toNat freq count ↔
      count.toInt.toNat * units.toNat < 2 ^ 64 := by
  have hbound : freq.toInt.toNat ≤ 2 ^ 64 := by
    have := freq.toInt_lt
    omega
  have hiff := mod_div_eq_iff (n := count.toInt.toNat * units.toNat) (by omega) hbound
  constructor
  · intro h
    have hexact := h.1
    rw [readClock_toNat hs hf hc] at hexact
    exact hiff.mp hexact
  · intro hlt
    refine ⟨?_, ?_⟩
    · rw [readClock_toNat hs hf hc]
      exact hiff.mpr hlt
    · intro count' hc' hle
      have hmul : count'.toInt.toNat * units.toNat ≤ count.toInt.toNat * units.toNat :=
        Nat.mul_le_mul_right _ (by omega)
      rw [UInt64.le_iff_toNat_le, readClock_toNat hs hf hc, readClock_toNat hs hf hc',
        Nat.mod_eq_of_lt hlt, Nat.mod_eq_of_lt (by omega)]
      exact Nat.div_le_div_right hmul

/-- Exactly as long as the product fits in 64 bits, the timestamps are exact and in the
order of the counter; milliseconds are always microseconds divided by 1000. -/
theorem timestamps_exact_iff (hs : ClockReached freq s) (hf : 0 < freq.toInt)
    (hc : 0 ≤ count.toInt) :
    (ExactAt (fun count => (getTimestampUs s freq count).1) (10 ^ 6) freq count ↔
        count.toInt.toNat * 10 ^ 6 < 2 ^ 64) ∧
      (ExactAt (fun count => (getTimestampNs s freq count).1) (10 ^ 9) freq count ↔
        count.toInt.toNat * 10 ^ 9 < 2 ^ 64) ∧
      (getTimestampMs s freq count).1.toNat = (getTimestampUs s freq count).1.toNat / 1000 :=
  ⟨exactAt_iff 1000000 hs hf hc, exactAt_iff 1000000000 hs hf hc, UInt64.toNat_div _ _⟩

end Exact

/-- A counter of 10 MHz after 20 seconds. -/
theorem timestamps_exact_early :
    ExactAt (fun count => (getTimestampUs (timestampInit 10000000) 10000000 count).1) (10 ^ 6)
      10000000 200000000 :=
  (timestamps_exact_iff .init (by decide) (by decide)).1.mpr (by decide)

/-- A counter of 10 MHz after 21 days: from one count to the next the timestamp falls back
to 0, where it should be 1844674407371 microseconds. -/
theorem timestamp_falls_back :
    (getTimestampUs (timestampInit 10000000) 10000000 18446744073709).1 = 1844674407370 ∧
      (getTimestampUs (timestampInit 10000000) 10000000 18446744073710).1 = 0 ∧
      18446744073710 * 10 ^ 6 / 10000000 = 1844674407371 ∧
      ¬ ExactAt (fun count => (getTimestampUs (timestampInit 10000000) 10000000 count).1) (10 ^ 6)
        10000000 18446744073710 := by
  refine ⟨by decide, by decide, by decide, ?_⟩
  intro h
  exact absurd h.1 (by decide)

end FastRing
