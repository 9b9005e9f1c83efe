import Mathlib.Algebra.BigOperators.Group.List.Basic
import Mathlib.Algebra.Group.Nat.Defs
import Mathlib.Algebra.Order.Ring.Int

/-! # Sleeping through signals

The POSIX side of `timestamp.c`: `sleep_us` and `sleep_ms` split their argument into seconds
and nanoseconds, and `sleep_timespec` calls `nanosleep` with one `timespec` that is the
request and, after a signal, the time that is left. `nanosleep` belongs to the OS and is a
parameter: which of its calls are interrupted, and when, is up to it. -/

namespace FastRing

/-- A number of 63 bits is the same as a signed one. -/
theorem toInt_toInt64 {x : UInt64} (h : x.toNat < 2 ^ 63) : x.toInt64.toInt = x.toNat := by
  rw [← UInt64.ofNat_toNat (x := x), UInt64.toInt64_ofNat', Int64.toInt_ofNat_of_lt h,
    UInt64.ofNat_toNat]

/-- `struct timespec`, with `time_t` and `long` of 64 bits. -/
structure Timespec where
  tvSec : Int64
  tvNsec : Int64
  deriving DecidableEq, Repr

namespace Timespec

/-- A time that `nanosleep` accepts. -/
structure Valid (ts : Timespec) : Prop where
  sec : 0 ≤ ts.tvSec.toInt
  nsec : 0 ≤ ts.tvNsec.toInt
  nsec_lt : ts.tvNsec.toInt < 10 ^ 9

instance (ts : Timespec) : Decidable ts.Valid :=
  decidable_of_iff (0 ≤ ts.tvSec.toInt ∧ 0 ≤ ts.tvNsec.toInt ∧ ts.tvNsec.toInt < 10 ^ 9)
    ⟨fun h => ⟨h.1, h.2.1, h.2.2⟩, fun h => ⟨h.sec, h.nsec, h.nsec_lt⟩⟩

/-- The whole time in nanoseconds. -/
def nanoseconds (ts : Timespec) : Int := ts.tvSec.toInt * 10 ^ 9 + ts.tvNsec.toInt

/-- What `sleep_us` asks for. -/
def ofUs (us : UInt64) : Timespec :=
  { tvSec := (us / 1000000).toInt64, tvNsec := (us % 1000000 * 1000).toInt64 }

/-- What `sleep_ms` asks for. -/
def ofMs (ms : UInt32) : Timespec :=
  { tvSec := (ms / 1000).toUInt64.toInt64, tvNsec := (ms % 1000).toUInt64.toInt64 * 1000000 }

/-- The time of `n` nanoseconds. -/
def ofNanoseconds (n : Int) : Timespec :=
  { tvSec := Int64.ofInt (n / 10 ^ 9), tvNsec := Int64.ofInt (n % 10 ^ 9) }

theorem Valid.nanoseconds_nonneg {ts : Timespec} (h : ts.Valid) : 0 ≤ ts.nanoseconds := by
  have hsec := h.sec
  have hnsec := h.nsec
  unfold nanoseconds
  omega

/-- Whole seconds and the rest of them are a valid time. -/
theorem valid_of_split {ts : Timespec} {n : Int} (h0 : 0 ≤ n) (hsec : ts.tvSec.toInt = n / 10 ^ 9)
    (hnsec : ts.tvNsec.toInt = n % 10 ^ 9) : ts.Valid ∧ ts.nanoseconds = n := by
  refine ⟨⟨?_, ?_, ?_⟩, ?_⟩
  · omega
  · omega
  · omega
  · unfold nanoseconds
    omega

/-- The split of `sleep_us`, over all 64 bits. -/
theorem ofUs_spec (us : UInt64) : (ofUs us).Valid ∧ (ofUs us).nanoseconds = us.toNat * 1000 := by
  have hlt := us.toNat_lt
  have hsec : (us / 1000000).toNat = us.toNat / 1000000 := UInt64.toNat_div us 1000000
  have hnsec : (us % 1000000 * 1000).toNat = us.toNat % 1000000 * 1000 := by
    rw [UInt64.toNat_mul, UInt64.toNat_mod]
    exact Nat.mod_eq_of_lt (by simp; omega)
  refine valid_of_split (by omega) ?_ ?_
  · rw [ofUs, toInt_toInt64 (by omega), hsec]
    omega
  · rw [ofUs, toInt_toInt64 (by omega), hnsec]
    omega

theorem ofMs_spec (ms : UInt32) :
    (ofMs ms).Valid ∧ (ofMs ms).nanoseconds = ms.toNat * 1000000 := by
  have hlt := ms.toNat_lt
  have hsec : (ms / 1000).toUInt64.toNat = ms.toNat / 1000 := by
    rw [UInt32.toNat_toUInt64]
    exact UInt32.toNat_div ms 1000
  have hrest : (ms % 1000).toUInt64.toNat = ms.toNat % 1000 := by
    rw [UInt32.toNat_toUInt64]
    exact UInt32.toNat_mod ms 1000
  have hnsec : ((ms % 1000).toUInt64.toInt64 * 1000000).toInt = ms.toNat % 1000 * 1000000 := by
    rw [Int64.toInt_mul, toInt_toInt64 (by omega), hrest]
    exact Int.bmod_eq_of_le (by simp; omega) (by simp; omega)
  refine valid_of_split (by omega) ?_ ?_
  · rw [ofMs, toInt_toInt64 (by omega), hsec]
    omega
  · rw [ofMs, hnsec]
    omega

/-- Up to a time that is a `timespec` itself, every time is one. -/
theorem Valid.ofNanoseconds {ts : Timespec} {n : Int} (h0 : 0 ≤ n) (hn : n ≤ ts.nanoseconds)
    (h : ts.Valid) : (ofNanoseconds n).Valid ∧ (ofNanoseconds n).nanoseconds = n := by
  have hfits := ts.tvSec.toInt_lt
  have hlt := h.nsec_lt
  unfold nanoseconds at hn
  refine valid_of_split h0 ?_ ?_
  · exact Int64.toInt_ofInt_of_le (by omega) (by omega)
  · exact Int64.toInt_ofInt_of_le (by omega) (by omega)

end Timespec

/-- How a call of `nanosleep` ends, after so many nanoseconds of sleep: with 0, with `EINTR`
and the time that is left, or with another error. -/
inductive NanosleepOutcome where
  | completed (slept : Int)
  | interrupted (slept : Int) (rem : Timespec)
  | failed (slept : Int)
  deriving DecidableEq, Repr

namespace NanosleepOutcome

def slept : NanosleepOutcome → Int
  | .completed slept | .interrupted slept _ | .failed slept => slept

def isInterrupted : NanosleepOutcome → Bool
  | .interrupted _ _ => true
  | _ => false

/-- What the OS promises for a request that it accepts. -/
def Keeps (ts : Timespec) : NanosleepOutcome → Prop
  | .completed slept => slept = ts.nanoseconds
  | .interrupted slept rem => 0 ≤ slept ∧ rem.Valid ∧ slept + rem.nanoseconds = ts.nanoseconds
  | .failed _ => False

end NanosleepOutcome

/-- `nanosleep`, given the number of calls before this one and the request. -/
abbrev Nanosleep := Nat → Timespec → NanosleepOutcome

/-- The contract of `nanosleep`, when at most the first `signals` calls are interrupted. -/
structure Nanosleep.Contract (nanosleep : Nanosleep) (signals : Nat) : Prop where
  keeps : ∀ k ts, ts.Valid → (nanosleep k ts).Keeps ts
  finite : ∀ k ts, signals ≤ k → (nanosleep k ts).isInterrupted = false

/-- A call of `nanosleep` made: its request and how it ended. -/
structure Attempt where
  request : Timespec
  outcome : NanosleepOutcome
  deriving DecidableEq, Repr

/-- `sleep_timespec` after `k` calls: the calls it makes from here on, or `none` if they are
more than `fuel`. -/
def sleepTimespec (nanosleep : Nanosleep) : (fuel k : Nat) → Timespec → Option (List Attempt)
  | 0, _, _ => none
  | fuel + 1, k, ts =>
    match nanosleep k ts with
    | .interrupted slept rem =>
      (sleepTimespec nanosleep fuel (k + 1) rem).map (⟨ts, .interrupted slept rem⟩ :: ·)
    | outcome => some [⟨ts, outcome⟩]

def sleepUs (nanosleep : Nanosleep) (fuel : Nat) (us : UInt64) : Option (List Attempt) :=
  sleepTimespec nanosleep fuel 0 (.ofUs us)

def sleepMs (nanosleep : Nanosleep) (fuel : Nat) (ms : UInt32) : Option (List Attempt) :=
  sleepTimespec nanosleep fuel 0 (.ofMs ms)

/-- The attempts are calls of `nanosleep`, made after `k` others: the first one has the request
`ts`, each ends as `nanosleep` says for its number and its request, an interrupted one is followed
by a request for the time it left, and only the last one is completed. -/
structure Calls (nanosleep : Nanosleep) (k : Nat) (ts : Timespec) (attempts : List Attempt) :
    Prop where
  first : attempts.head?.map Attempt.request = some ts
  outcome : ∀ i a, attempts[i]? = some a → a.outcome = nanosleep (k + i) a.request
  next : ∀ i a b, attempts[i]? = some a → attempts[i + 1]? = some b →
    ∃ slept, a.outcome = .interrupted slept b.request
  last : ∀ i a, attempts[i]? = some a → i + 1 = attempts.length →
    ∃ slept, a.outcome = .completed slept

namespace Calls

variable {nanosleep : Nanosleep} {k : Nat} {ts rem : Timespec} {slept : Int}
  {attempts : List Attempt}

theorem single (h : nanosleep k ts = .completed slept) :
    Calls nanosleep k ts [⟨ts, .completed slept⟩] where
  first := rfl
  outcome := by
    intro i a ha
    cases i with
    | zero =>
      cases ha
      exact h.symm
    | succ i => cases ha
  next := by
    intro i a b _ hb
    cases hb
  last := by
    intro i a ha _
    cases i with
    | zero =>
      cases ha
      exact ⟨slept, rfl⟩
    | succ i => cases ha

/-- An interrupted call in front of the calls for what it left. -/
theorem cons (h : nanosleep k ts = .interrupted slept rem)
    (hrest : Calls nanosleep (k + 1) rem attempts) :
    Calls nanosleep k ts (⟨ts, .interrupted slept rem⟩ :: attempts) where
  first := rfl
  outcome := by
    intro i a ha
    cases i with
    | zero =>
      cases ha
      exact h.symm
    | succ i =>
      have hout := hrest.outcome i a ha
      rwa [Nat.add_right_comm] at hout
  next := by
    intro i a b ha hb
    cases i with
    | zero =>
      cases ha
      have hfirst := hrest.first
      rw [List.head?_eq_getElem?, show attempts[0]? = some b from hb] at hfirst
      cases hfirst
      exact ⟨slept, rfl⟩
    | succ i => exact hrest.next i a b ha hb
  last := by
    intro i a ha hlen
    cases i with
    | zero =>
      -- the calls behind it are not none
      have hnil : attempts = [] := List.length_eq_zero_iff.mp (Nat.succ.inj hlen).symm
      have hfirst := hrest.first
      rw [hnil] at hfirst
      cases hfirst
    | succ i => exact hrest.last i a ha (Nat.succ.inj hlen)

end Calls

/-- The loop has ended: its first request was for the whole `duration`, all its requests were in
range, and in all its calls together it has slept for `duration` nanoseconds. -/
structure Slept (nanosleep : Nanosleep) (duration : Int) (attempts : List Attempt) : Prop where
  calls : ∃ ts, ts.nanoseconds = duration ∧ Calls nanosleep 0 ts attempts
  valid : ∀ a ∈ attempts, a.request.Valid
  total : (attempts.map fun a => a.outcome.slept).sum = duration

/-- What has been slept and what is still requested make up the whole time, whatever calls
are interrupted; and after the last signal there is one more call. -/
theorem sleepTimespec_calls {nanosleep : Nanosleep} {signals : Nat} (h : nanosleep.Contract signals)
    {fuel k : Nat} (hk : k ≤ signals) (hf : signals < k + fuel) {ts : Timespec} (hts : ts.Valid) :
    ∃ attempts, sleepTimespec nanosleep fuel k ts = some attempts ∧ Calls nanosleep k ts attempts ∧
      (∀ a ∈ attempts, a.request.Valid) ∧
      (attempts.map fun a => a.outcome.slept).sum = ts.nanoseconds := by
  induction fuel generalizing k ts with
  | zero => omega
  | succ fuel ih =>
    have hkeeps := h.keeps k ts hts
    have hfinite := h.finite k ts
    unfold sleepTimespec
    cases hout : nanosleep k ts with
    | completed slept =>
      rw [hout] at hkeeps
      refine ⟨_, rfl, .single hout, ?_, ?_⟩
      · intro a ha
        rw [List.mem_singleton.mp ha]
        exact hts
      · rw [List.map_singleton, List.sum_singleton]
        exact hkeeps
    | failed slept =>
      rw [hout] at hkeeps
      exact hkeeps.elim
    | interrupted slept rem =>
      rw [hout] at hkeeps hfinite
      obtain ⟨_, hrem, hsum⟩ := hkeeps
      have hlt : k < signals := by
        refine Nat.lt_of_not_le ?_
        intro hge
        cases hfinite hge
      obtain ⟨attempts, hrun, hcalls, hvalid, htotal⟩ := ih (k := k + 1) hlt (by omega) hrem
      refine ⟨_, congrArg (Option.map _) hrun, hcalls.cons hout, ?_, ?_⟩
      · intro a ha
        rcases List.mem_cons.mp ha with rfl | ha
        · exact hts
        · exact hvalid a ha
      · rw [List.map_cons, List.sum_cons, htotal]
        exact hsum

/-- What both functions do with the `timespec` of their argument. -/
theorem sleepTimespec_slept {nanosleep : Nanosleep} {signals : Nat} (h : nanosleep.Contract signals)
    {fuel : Nat} (hf : signals < fuel) {ts : Timespec} (hts : ts.Valid) :
    ∃ attempts, sleepTimespec nanosleep fuel 0 ts = some attempts ∧
      Slept nanosleep ts.nanoseconds attempts := by
  obtain ⟨attempts, hrun, hcalls, hvalid, htotal⟩ :=
    sleepTimespec_calls h (Nat.zero_le _) (show signals < 0 + fuel by omega) hts
  exact ⟨attempts, hrun, ⟨ts, rfl, hcalls⟩, hvalid, htotal⟩

/-- Interrupted sleeps are completed: after finitely many signals, at whatever times, both
functions have called `nanosleep` for the whole time and then for what each signal left of it,
until a call was completed, and have slept for exactly the time they were given, over its whole
range. -/
theorem sleeps_completed {nanosleep : Nanosleep} {signals : Nat} (h : nanosleep.Contract signals)
    {fuel : Nat} (hf : signals < fuel) :
    (∀ us : UInt64, ∃ attempts, sleepUs nanosleep fuel us = some attempts ∧
        Slept nanosleep (us.toNat * 1000) attempts) ∧
      ∀ ms : UInt32, ∃ attempts, sleepMs nanosleep fuel ms = some attempts ∧
        Slept nanosleep (ms.toNat * 1000000) attempts := by
  constructor
  · intro us
    obtain ⟨hvalid, hlength⟩ := Timespec.ofUs_spec us
    rw [← hlength]
    exact sleepTimespec_slept h hf hvalid
  · intro ms
    obtain ⟨hvalid, hlength⟩ := Timespec.ofMs_spec ms
    rw [← hlength]
    exact sleepTimespec_slept h hf hvalid

/-- A `nanosleep` whose calls are interrupted after the given nanoseconds, one call after
another, or at the end of what they were asked for. -/
def signalledAfter (parts : List Nat) : Nanosleep := fun k ts =>
  if ts.Valid then
    match parts[k]? with
    | some part =>
      .interrupted (min (part : Int) ts.nanoseconds)
        (.ofNanoseconds (ts.nanoseconds - min (part : Int) ts.nanoseconds))
    | none => .completed ts.nanoseconds
  else .failed 0

theorem signalledAfter_contract (parts : List Nat) :
    (signalledAfter parts).Contract parts.length := by
  constructor
  · intro k ts hts
    have hnonneg := hts.nanoseconds_nonneg
    unfold signalledAfter
    rw [if_pos hts]
    cases parts[k]? with
    | none => exact rfl
    | some part =>
      obtain ⟨hvalid, hrest⟩ := Timespec.Valid.ofNanoseconds
        (n := ts.nanoseconds - min (part : Int) ts.nanoseconds) (by omega) (by omega) hts
      exact ⟨by omega, hvalid, by omega⟩
  · intro k ts hk
    unfold signalledAfter
    rw [List.getElem?_eq_none hk]
    split <;> rfl

/-- Two and a half seconds, interrupted three times. -/
def signalledAttempts : List Attempt :=
  [⟨⟨2, 500000000⟩, .interrupted 300 ⟨2, 499999700⟩⟩,
    ⟨⟨2, 499999700⟩, .interrupted 0 ⟨2, 499999700⟩⟩,
    ⟨⟨2, 499999700⟩, .interrupted 1999999999 ⟨0, 499999701⟩⟩,
    ⟨⟨0, 499999701⟩, .completed 499999701⟩]

theorem sleeps_completed_signalled :
    sleepUs (signalledAfter [300, 0, 1999999999]) 4 2500000 = some signalledAttempts ∧
      Slept (signalledAfter [300, 0, 1999999999]) 2500000000 signalledAttempts := by
  have hrun : sleepUs (signalledAfter [300, 0, 1999999999]) 4 2500000 = some signalledAttempts := by
    decide
  obtain ⟨attempts, hsome, hslept⟩ :=
    (sleeps_completed (signalledAfter_contract [300, 0, 1999999999]) (show 3 < 4 by decide)).1 2500000
  cases hrun.symm.trans hsome
  exact ⟨hrun, hslept⟩

end FastRing
