import Mathlib.Data.List.Induction
import FastRing.ThreadManager
import FastRing.Lib.Critical

/-! # Thread statistics

The statistics that `thread_wrapper` keeps of the iterations of its worker, and
`thread_manager_get_stats`, which any thread may call meanwhile. Both work on the entry of a thread
field by field under `stats_lock`. A copy is therefore what a whole number of iterations has left, and
nothing but iterations is ever counted. The floating point arithmetic is a parameter. -/

namespace FastRing

open Critical

variable {D ι : Type}

/-- `thread_stats_t`. -/
structure ThreadStats (D : Type) where
  loopCount : UInt64
  itemCount : UInt64
  errorCount : UInt64
  avgCycleTimeUs : D
  maxCycleTimeUs : D
  deriving DecidableEq, Repr

/-- The arithmetic of `double` that the statistics use: 0, the new average
`avg * 0.9 + time * 0.1`, and `>`. -/
structure Doubles (D : Type) where
  zero : D
  average : D → D → D
  exceeds : D → D → Bool

/-- The entry that `thread_manager_create` fills with zero bytes. -/
def ThreadStats.empty (R : Doubles D) : ThreadStats D :=
  { loopCount := 0, itemCount := 0, errorCount := 0, avgCycleTimeUs := R.zero
    maxCycleTimeUs := R.zero }

/-- The end of an iteration in `thread_wrapper`, which took `cycleTime`, or a call of
`thread_manager_get_stats`. -/
inductive StatsCall (D : Type) where
  | update (type : ThreadType) (cycleTime : D)
  | get (type : ThreadType)
  deriving DecidableEq, Repr

/-- What a thread has read of the entry: the loop count, the average or the maximum, and the
caller's structure. -/
structure StatsLocals (D : Type) where
  loopCount : UInt64
  entryTimeUs : D
  copy : ThreadStats D
  deriving DecidableEq, Repr

/-- `thread_stats`. -/
abbrev StatsTable (D : Type) : Type := ThreadType → ThreadStats D

/-- A read of the entry of `type`. -/
def readEntry (type : ThreadType) (f : ThreadStats D → StatsLocals D → StatsLocals D)
    (x : StatsTable D × StatsLocals D) : StatsTable D × StatsLocals D := (x.1, f (x.1 type) x.2)

/-- A write to the entry of `type`. -/
def writeEntry (type : ThreadType) (f : ThreadStats D → StatsLocals D → ThreadStats D)
    (x : StatsTable D × StatsLocals D) : StatsTable D × StatsLocals D :=
  (Function.update x.1 type (f (x.1 type) x.2), x.2)

/-- Both functions under the lock. The `memcpy` copies the fields in some order, here in theirs. -/
def statsSections (R : Doubles D) : Sections (StatsCall D) (StatsTable D) (StatsLocals D) where
  locals := fun _ => { loopCount := 0, entryTimeUs := R.zero, copy := .empty R }
  accesses
    | .update type cycleTime => [
        readEntry type fun s l => { l with loopCount := s.loopCount },
        writeEntry type fun s l => { s with loopCount := l.loopCount + 1 },
        readEntry type fun s l => { l with entryTimeUs := s.avgCycleTimeUs },
        writeEntry type fun s l => { s with avgCycleTimeUs := R.average l.entryTimeUs cycleTime },
        readEntry type fun s l => { l with entryTimeUs := s.maxCycleTimeUs },
        writeEntry type fun s l =>
          if R.exceeds cycleTime l.entryTimeUs then { s with maxCycleTimeUs := cycleTime } else s]
    | .get type => [
        readEntry type fun s l => { l with copy := { l.copy with loopCount := s.loopCount } },
        readEntry type fun s l => { l with copy := { l.copy with itemCount := s.itemCount } },
        readEntry type fun s l => { l with copy := { l.copy with errorCount := s.errorCount } },
        readEntry type fun s l => { l with copy := { l.copy with avgCycleTimeUs := s.avgCycleTimeUs } },
        readEntry type fun s l => { l with copy := { l.copy with maxCycleTimeUs := s.maxCycleTimeUs } }]

/-! ## One call -/

/-- What one more iteration makes of an entry. -/
def ThreadStats.record (R : Doubles D) (s : ThreadStats D) (cycleTime : D) : ThreadStats D :=
  { s with
    loopCount := s.loopCount + 1
    avgCycleTimeUs := R.average s.avgCycleTimeUs cycleTime
    maxCycleTimeUs := if R.exceeds cycleTime s.maxCycleTimeUs then cycleTime else s.maxCycleTimeUs }

variable {R : Doubles D}

theorem update_effect (type : ThreadType) (cycleTime : D) (table : StatsTable D) :
    ((statsSections R).effect (.update type cycleTime) table).1 =
      Function.update table type ((table type).record R cycleTime) := by
  simp only [Sections.effect, perform, statsSections, List.foldl_cons, List.foldl_nil, readEntry,
    writeEntry, Function.update_self, Function.update_idem]
  congr 1
  unfold ThreadStats.record
  split <;> rfl

/-! ## Many calls -/

/-- The cycle times of the iterations of `type` among the calls. -/
def cycleTimes (type : ThreadType) : List (ι × StatsCall D × StatsLocals D) → List D :=
  List.filterMap fun c => match c.2.1 with
    | .update type' cycleTime => if type' = type then some cycleTime else none
    | .get _ => none

theorem cycleTimes_get (type type' : ThreadType) (calls : List (ι × StatsCall D × StatsLocals D))
    (i : ι) (l : StatsLocals D) :
    cycleTimes type (calls ++ [(i, .get type', l)]) = cycleTimes type calls := by
  simp [cycleTimes, List.filterMap_append]

theorem cycleTimes_update (type type' : ThreadType) (time : D)
    (calls : List (ι × StatsCall D × StatsLocals D)) (i : ι) (l : StatsLocals D) :
    cycleTimes type (calls ++ [(i, .update type' time, l)]) =
      cycleTimes type calls ++ if type' = type then [time] else [] := by
  by_cases h : type' = type <;> simp [cycleTimes, List.filterMap_append, h]

/-- The entry after these iterations. -/
def entryAfter (R : Doubles D) (times : List D) : ThreadStats D :=
  times.foldl (ThreadStats.record R) (.empty R)

theorem entryAfter_counts (R : Doubles D) (times : List D) :
    (entryAfter R times).loopCount = UInt64.ofNat times.length ∧
      (entryAfter R times).itemCount = 0 ∧ (entryAfter R times).errorCount = 0 := by
  induction times using List.reverseRecOn with
  | nil => exact ⟨rfl, rfl, rfl⟩
  | append_singleton times time ih =>
    rw [entryAfter, List.foldl_append, ← entryAfter]
    obtain ⟨hloops, hitems, herrors⟩ := ih
    refine ⟨?_, hitems, herrors⟩
    rw [List.length_append, UInt64.ofNat_add, ← hloops]
    rfl

/-- One at a time, the calls leave in each entry its iterations. -/
theorem stats_replays {calls : List (ι × StatsCall D × StatsLocals D)} {table : StatsTable D}
    (h : Replays (statsSections R) (fun _ => .empty R) calls table) (type : ThreadType) :
    table type = entryAfter R (cycleTimes type calls) := by
  refine h.invariant (I := fun calls table => table type = entryAfter R (cycleTimes type calls)) rfl ?_
  intro calls table i op ih
  cases op with
  | get type' =>
    rw [cycleTimes_get]
    exact ih
  | update type' cycleTime =>
    rw [cycleTimes_update, update_effect]
    by_cases htype : type' = type
    · subst htype
      rw [Function.update_self, ih, if_pos rfl, entryAfter, entryAfter, List.foldl_append]
      rfl
    · rw [Function.update_of_ne (Ne.symm htype), if_neg htype, List.append_nil]
      exact ih

/-- Whatever the interleaving of the iterations with calls of `thread_manager_get_stats`: each call
gets what exactly those iterations of its thread leave that have been recorded before it, with their
number as the loop count and no items and errors at all; and with the lock free, the table is what all
iterations leave. -/
theorem stats_snapshot [DecidableEq ι] (R : Doubles D) (ls : List (Label ι (StatsCall D)))
    (s : State ι (StatsCall D) (StatsTable D) (StatsLocals D))
    (h : Runs.run (step (statsSections R)) (State.init fun _ => .empty R) ls = some s) :
    (∀ before i type l after, s.finished = before ++ (i, .get type, l) :: after →
        l.copy = entryAfter R (cycleTimes type before) ∧
          l.copy.loopCount = UInt64.ofNat (cycleTimes type before).length ∧
          l.copy.itemCount = 0 ∧ l.copy.errorCount = 0) ∧
      (s.owner = none → ∀ type, s.shared type = entryAfter R (cycleTimes type s.finished)) ∧
      ∀ i, finishedBy i s.finished ++ (s.threads i).current = calledBy i ls := by
  obtain ⟨base, hr, hh⟩ := run_serial h
  refine ⟨fun before i type l after hf => ?_, fun hfree type => ?_, fun i => run_calls i h⟩
  · obtain ⟨table, hbefore, rfl⟩ := hr.result hf
    have hcopy : ((statsSections R).effect (.get type) table).2.copy =
        entryAfter R (cycleTimes type before) := stats_replays hbefore type
    rw [hcopy]
    exact ⟨rfl, entryAfter_counts R _⟩
  · cases hh with
    | free _ shared => rw [shared, stats_replays hr type]
    | taken _ _ _ _ _ owner =>
      rw [hfree] at owner
      cases owner

/-- Whole microseconds, with the newer half of the average. -/
def wholeMicroseconds : Doubles Nat :=
  { zero := 0, average := fun avg time => (avg + time) / 2, exceeds := fun x y => y < x }

/-- The network thread records an iteration while another thread waits for its statistics. -/
def readingStats : List (Label Bool (StatsCall Nat)) :=
  [.call true (.update .network 8), .lock true, .access true, .call false (.get .network),
    .access true, .access true, .access true, .access true, .access true, .unlock true, .lock false,
    .access false, .access false, .access false, .access false, .access false, .unlock false]

theorem stats_snapshot_reading :
    ∃ s : State Bool (StatsCall Nat) (StatsTable Nat) (StatsLocals Nat),
      Runs.run (step (statsSections wholeMicroseconds))
          (State.init fun _ => .empty wholeMicroseconds) readingStats = some s ∧
        s.shared .network = entryAfter wholeMicroseconds (cycleTimes .network s.finished) := by
  refine ⟨_, rfl, ?_⟩
  exact (stats_snapshot wholeMicroseconds readingStats _ rfl).2.1 rfl .network

end FastRing
