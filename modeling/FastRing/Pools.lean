import FastRing.Workers
import FastRing.Lib.RoundRobin

/-! # The round-robin pools

`get_block_from_pool` of `thread_workers.c`, in its two variants, and the timers of the Windows
`sleep_us` in `timestamp.c`. Each takes the entries of a fixed array in turn, by a counter of
32 bits that is never reset. The block pools reduce it as an unsigned number, and stay in range
forever. `sleep_us` reduces a signed one: once it is negative, so is the remainder. -/

namespace FastRing

open RoundRobin

/-! ## The blocks -/

/-- The index that `get_block_from_pool` computes, and `pool_index` after it. -/
def nextBlock (poolIndex : UInt32) : UInt32 × UInt32 :=
  (poolIndex % blockPoolSize, poolIndex + 1)

theorem getBlockFromPool_eq (pool : BlockPool) :
    getBlockFromPool pool = (pool.allocated (nextBlock pool.index).1.toNat,
      { pool with index := (nextBlock pool.index).2 }) := rfl

/-- The same on Windows, where `InterlockedIncrement` gives the value after it. -/
def nextBlockWindows (poolIndex : Int32) : UInt32 × Int32 :=
  ((poolIndex + 1).toUInt32 % blockPoolSize, poolIndex + 1)

/-! ## The timers -/

/-- `TIMER_POOL_SIZE`. -/
def timerPoolSize : Int32 := 4

/-- The index that the Windows `sleep_us` computes, and `g_timer_index` after it. -/
def nextTimer (timerIndex : Int32) : Int32 × Int32 :=
  ((timerIndex + 1) % timerPoolSize, timerIndex + 1)

/-- `g_timer_index` and `g_timer_pool_initialized`. -/
structure TimerPool where
  index : Int32
  initialized : Bool
  deriving DecidableEq, Repr

/-- What a call of `sleep_us` does: spin, set an entry of `g_timer_pool` and wait for it, or
`Sleep`. -/
inductive SleepAction where
  | spin (us : UInt64)
  | setTimer (idx : Int32) (dueTime : Int64)
  | wait (idx : Int32)
  | sleep (ms : UInt32)
  deriving DecidableEq, Repr

/-- `sleep_us` on Windows; `set` is what `SetWaitableTimer` returns. -/
def sleepUsWindows (pool : TimerPool) (us : UInt64) (set : Bool) : List SleepAction × TimerPool :=
  if us = 0 then ([], pool)
  else if us < 100 then ([.spin us], pool)
  else
    let fallback := SleepAction.sleep ((us + 999) / 1000).toUInt32
    if pool.initialized then
      let (idx, index) := nextTimer pool.index
      let setTimer := SleepAction.setTimer idx (-(us * 10).toInt64)
      (if set then [setTimer, .wait idx] else [setTimer, fallback], { pool with index := index })
    else ([fallback], pool)

/-- What happens to the timers: `timestamp_init`, or a call of `sleep_us`. -/
inductive TimerCall where
  | init
  | sleep (us : UInt64) (set : Bool)
  deriving DecidableEq, Repr

def TimerPool.call (pool : TimerPool) : TimerCall → List SleepAction × TimerPool
  | .init => ([], { pool with initialized := true })
  | .sleep us set => sleepUsWindows pool us set

/-- The timer pool when the program starts. -/
def TimerPool.start : TimerPool := { index := 0, initialized := false }

/-- The entry of `g_timer_pool` that an action sets. -/
def SleepAction.timer : SleepAction → Option Int32
  | .setTimer idx _ => some idx
  | _ => none

/-- The entries of `g_timer_pool` that a sequence of calls takes. -/
def timersTaken (pool : TimerPool) : List TimerCall → List Int32
  | [] => []
  | c :: cs => (pool.call c).1.filterMap (·.timer) ++ timersTaken (pool.call c).2 cs

/-- A call takes the next timer, or leaves the counter alone. -/
theorem call_timer (pool : TimerPool) (c : TimerCall) :
    ((pool.call c).1.filterMap (·.timer) = [] ∧ (pool.call c).2.index = pool.index) ∨
      ((pool.call c).1.filterMap (·.timer) = [(nextTimer pool.index).1] ∧
        (pool.call c).2.index = (nextTimer pool.index).2) := by
  cases c with
  | init => exact .inl ⟨rfl, rfl⟩
  | sleep us set =>
    simp only [TimerPool.call, sleepUsWindows]
    by_cases hzero : us = 0
    · exact .inl (by simp [hzero])
    by_cases hshort : us < 100
    · exact .inl (by simp [hzero, hshort, SleepAction.timer])
    by_cases hinit : pool.initialized = true
    · refine .inr ?_
      cases set with
      | true => simp [hzero, hshort, hinit, SleepAction.timer]
      | false => simp [hzero, hshort, hinit, SleepAction.timer]
    · exact .inl (by simp [hzero, hshort, hinit, SleepAction.timer])

/-- Whatever the calls, the timers are taken one after the other. -/
theorem timersTaken_eq (pool : TimerPool) (cs : List TimerCall) :
    timersTaken pool cs = entries nextTimer (timersTaken pool cs).length pool.index := by
  induction cs generalizing pool with
  | nil => rfl
  | cons c cs ih =>
    have hrest := ih (pool.call c).2
    rcases call_timer pool c with ⟨htaken, hindex⟩ | ⟨htaken, hindex⟩
    · rw [timersTaken, htaken, List.nil_append, ← hindex]
      exact hrest
    · rw [timersTaken, htaken, List.singleton_append, List.length_cons, entries, ← hindex, ← hrest]

/-! ## Whose turn it is -/

theorem nextBlock_lt (c : UInt32) : (nextBlock c).1.toNat < 16 := by
  have hidx : (nextBlock c).1.toNat = c.toNat % 16 := UInt32.toNat_mod c 16
  rw [hidx]
  exact Nat.mod_lt _ (by decide)

theorem nextBlock_turns : TakesTurns 16 nextBlock (fun c => c.toNat) (fun i => i.toNat) := by
  constructor
  · intro c
    have hidx : (nextBlock c).1.toNat = c.toNat % 16 := UInt32.toNat_mod c 16
    rw [hidx]
    exact Int.natCast_modEq_iff.mpr (Nat.mod_modEq _ _)
  · intro c
    have hnext : (nextBlock c).2.toNat = (c.toNat + 1) % 2 ^ 32 := UInt32.toNat_add c 1
    rw [hnext]
    refine Int.natCast_modEq_iff.mpr ?_
    exact Nat.mod_mod_of_dvd _ (by decide)

/-- The signed counter, read as an unsigned one, is one ahead of the other variant's. -/
theorem nextBlockWindows_turns :
    TakesTurns 16 nextBlockWindows (fun c => (c.toUInt32 + 1).toNat) (fun i => i.toNat) := by
  constructor
  · intro c
    exact nextBlock_turns.entry (c.toUInt32 + 1)
  · intro c
    exact nextBlock_turns.advance (c.toUInt32 + 1)

theorem nextTimer_toInt (c : Int32) : (nextTimer c).1.toInt = (c + 1).toInt.tmod 4 :=
  Int32.toInt_mod (c + 1) 4

theorem nextTimer_turns : TakesTurns 4 nextTimer (fun c => (c + 1).toInt) (fun i => i.toInt) := by
  constructor
  · intro c
    rw [nextTimer_toInt]
    have hsplit := Int.tmod_add_tdiv_mul (c + 1).toInt 4
    refine Int.modEq_iff_dvd.mpr ⟨(c + 1).toInt.tdiv 4, ?_⟩
    omega
  · intro c
    have hadd : (c + 1 + 1).toInt = ((c + 1).toInt + 1).bmod (2 ^ 32) := Int32.toInt_add (c + 1) 1
    change (c + 1 + 1).toInt ≡ _ [ZMOD 4]
    rw [hadd]
    have hwrap : ((c + 1).toInt + 1).bmod (2 ^ 32) % (2 ^ 32 : Nat) =
        ((c + 1).toInt + 1) % (2 ^ 32 : Nat) := Int.bmod_emod
    unfold Int.ModEq
    omega

/-- The index of the timer that is taken after `n` others. -/
theorem timersTaken_getElem? {cs : List TimerCall} {n : Nat} {i : Int32}
    (hi : (timersTaken .start cs)[n]? = some i) :
    i.toInt = (((n + 1 : Nat) : Int).bmod (2 ^ 32)).tmod 4 := by
  have hn : n < (timersTaken .start cs).length := (List.getElem?_eq_some_iff.mp hi).1
  have hat := entries_getElem? nextTimer Int32.ofNat
    (fun n => (Int32.ofNat_add n 1).symm) hn 0
  rw [timersTaken_eq] at hi
  have hidx : i = (nextTimer (Int32.ofNat (0 + n))).1 := by
    rw [← Option.some.injEq, ← hi]
    exact hat
  have hcounter : Int32.ofNat n + 1 = Int32.ofNat (n + 1) := (Int32.ofNat_add n 1).symm
  rw [hidx, nextTimer_toInt, Nat.zero_add, hcounter, Int32.toInt_ofNat']
  rfl

/-- A wrapped signed counter has its remainder in range if it is not negative, or a multiple. -/
theorem tmod_in_range_iff (n : Nat) :
    (0 ≤ ((n : Int).bmod (2 ^ 32)).tmod 4 ∧ ((n : Int).bmod (2 ^ 32)).tmod 4 < 4) ↔
      n % 2 ^ 32 < 2 ^ 31 ∨ 4 ∣ n := by
  have hwrap : (n : Int).bmod (2 ^ 32) =
      if (n : Int) % (2 ^ 32 : Nat) < ((2 ^ 32 : Nat) + 1 : Int) / 2 then (n : Int) % (2 ^ 32 : Nat)
      else (n : Int) % (2 ^ 32 : Nat) - (2 ^ 32 : Nat) := Int.bmod_def _ _
  rw [Int.tmod_eq_emod]
  split at hwrap
  · rw [hwrap, if_pos (.inl (by omega))]
    omega
  · by_cases hdvd : (4 : Int) ∣ (n : Int).bmod (2 ^ 32)
    · rw [if_pos (.inr hdvd)]
      omega
    · rw [if_neg (by omega)]
      omega

/-- Sleeps of 100 microseconds and more, all through the pool. -/
theorem timersTaken_sleeps (m : Nat) (index : Int32) :
    timersTaken { index := index, initialized := true } (List.replicate m (.sleep 100 true)) =
      entries nextTimer m index := by
  induction m generalizing index with
  | zero => rfl
  | succ m ih =>
    rw [List.replicate_succ, timersTaken, entries, ← ih]
    rfl

/-- A timer can be taken after any number of others. -/
theorem exists_timersTaken (n : Nat) : ∃ cs i, (timersTaken .start cs)[n]? = some i := by
  refine ⟨.init :: List.replicate (n + 1) (.sleep 100 true), (nextTimer (Int32.ofNat (0 + n))).1, ?_⟩
  change (timersTaken { index := 0, initialized := true } _)[n]? = _
  rw [timersTaken_sleeps]
  exact entries_getElem? nextTimer Int32.ofNat (fun n => (Int32.ofNat_add n 1).symm)
    (Nat.lt_succ_self n) 0

/-! ## The pools -/

/-- After `n` calls the pools are in order: the next call takes one of the entries, and as many
calls in a row as there are entries take different ones. The first call of each pool has the
number 0. -/
structure PoolsInRange (n : Nat) : Prop where
  block : ∀ m i, (entries nextBlock m 0)[n]? = some i → i.toNat < 16
  blockWindows : ∀ m i, (entries nextBlockWindows m 0)[n]? = some i → i.toNat < 16
  timer : ∀ cs i, (timersTaken .start cs)[n]? = some i → 0 ≤ i.toInt ∧ i.toInt < 4
  blocks : ∀ m, (((entries nextBlock m 0).drop n).take 16).Nodup
  blocksWindows : ∀ m, (((entries nextBlockWindows m 0).drop n).take 16).Nodup
  timers : ∀ cs, (((timersTaken .start cs).drop n).take 4).Nodup

/-- The timer taken after `n` others is one of the pool exactly if the counter is not negative
then, or a multiple of 4. -/
theorem timer_in_range_iff (n : Nat) :
    (∀ cs i, (timersTaken .start cs)[n]? = some i → 0 ≤ i.toInt ∧ i.toInt < 4) ↔
      (n + 1) % 2 ^ 32 < 2 ^ 31 ∨ 4 ∣ n + 1 := by
  rw [← tmod_in_range_iff]
  constructor
  · intro h
    obtain ⟨cs, i, hi⟩ := exists_timersTaken n
    rw [← timersTaken_getElem? hi]
    exact h cs i hi
  · intro h cs i hi
    rw [timersTaken_getElem? hi]
    exact h

/-- All pools are in order after `n` calls exactly if the timers are. -/
theorem pools_in_range_iff (n : Nat) :
    PoolsInRange n ↔ (n + 1) % 2 ^ 32 < 2 ^ 31 ∨ 4 ∣ n + 1 := by
  rw [← timer_in_range_iff]
  constructor
  · exact fun h => h.timer
  · intro h
    refine ⟨?_, ?_, h, ?_, ?_, ?_⟩
    · intro m i hi
      exact forall_mem_entries nextBlock (P := fun i => i.toNat < 16) nextBlock_lt
        (List.mem_of_getElem? hi)
    · intro m i hi
      exact forall_mem_entries nextBlockWindows (P := fun i => i.toNat < 16)
        (fun c => nextBlock_lt (c.toUInt32 + 1)) (List.mem_of_getElem? hi)
    · exact fun m => nextBlock_turns.nodup_window m n 0
    · exact fun m => nextBlockWindows_turns.nodup_window m n 0
    · intro cs
      rw [timersTaken_eq]
      exact nextTimer_turns.nodup_window _ n _

/-- After `2^31` sleeps the counter is negative, and the timer taken is the one with the
index -3. -/
theorem timer_index_negative :
    (nextTimer (Int32.ofNat (2 ^ 31))).1 = -3 ∧ ¬ PoolsInRange (2 ^ 31) := by
  refine ⟨by decide, ?_⟩
  intro h
  have hcond := (timer_in_range_iff (2 ^ 31)).mp h.timer
  omega

end FastRing
