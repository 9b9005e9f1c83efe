import Mathlib.Data.List.Nodup
import Mathlib.Data.Int.ModEq

/-! Taking turns among `k` entries by a counter. `next c` is the entry taken at counter `c`
and the counter after it. The counter may have any width and wrap around, and the entry may
come from any kind of remainder: as long as both keep the residue modulo `k`, any `k` calls
in a row take different entries. -/

namespace RoundRobin

variable {C I : Type}

/-- The entries taken by `m` calls in a row, from counter `c`. -/
def entries (next : C → I × C) : (m : Nat) → C → List I
  | 0, _ => []
  | m + 1, c => (next c).1 :: entries next m (next c).2

/-- What holds of the entry at every counter holds of all entries taken. -/
theorem forall_mem_entries (next : C → I × C) {P : I → Prop} (h : ∀ c, P (next c).1) {m : Nat} {c : C}
    {i : I} (hi : i ∈ entries next m c) : P i := by
  induction m generalizing c with
  | zero => cases hi
  | succ m ih =>
    rcases List.mem_cons.mp hi with rfl | hi
    · exact h c
    · exact ih hi

/-- The entries one by one, when `counter n` is the counter after `n` calls. -/
theorem entries_getElem? (next : C → I × C) (counter : Nat → C)
    (h : ∀ n, (next (counter n)).2 = counter (n + 1)) {m n : Nat} (hn : n < m) (start : Nat) :
    (entries next m (counter start))[n]? = some (next (counter (start + n))).1 := by
  induction n generalizing m start with
  | zero =>
    cases m with
    | zero => omega
    | succ m => rfl
  | succ n ih =>
    cases m with
    | zero => omega
    | succ m =>
      rw [entries, List.getElem?_cons_succ, h, ih (by omega) (start + 1), Nat.add_right_comm]
      rfl

/-- Every call takes the entry whose turn it is, and moves on by one. -/
structure TakesTurns (k : Nat) (next : C → I × C) (turn : C → Int) (place : I → Int) : Prop where
  entry : ∀ c, place (next c).1 ≡ turn c [ZMOD k]
  advance : ∀ c, turn (next c).2 ≡ turn c + 1 [ZMOD k]

variable {k : Nat} {next : C → I × C} {turn : C → Int} {place : I → Int}

/-- After `n` calls it is the `n`-th turn. -/
theorem TakesTurns.getElem? (h : TakesTurns k next turn place) {m n : Nat} {c : C} {i : I}
    (hi : (entries next m c)[n]? = some i) : place i ≡ turn c + n [ZMOD k] := by
  induction n generalizing m c with
  | zero =>
    cases m with
    | zero => cases hi
    | succ m =>
      cases hi
      simpa using h.entry c
  | succ n ih =>
    cases m with
    | zero => cases hi
    | succ m =>
      calc place i ≡ turn (next c).2 + n [ZMOD k] := ih hi
        _ ≡ turn c + 1 + n [ZMOD k] := (h.advance c).add_right n
        _ = turn c + (n + 1 : Nat) := by push_cast; omega

/-- Any `k` calls in a row take different entries. -/
theorem TakesTurns.nodup_window (h : TakesTurns k next turn place) (m n : Nat) (c : C) :
    (((entries next m c).drop n).take k).Nodup := by
  refine List.nodup_iff_getElem?_ne_getElem?.mpr ?_
  intro a b hab hb heq
  have hbk : b < k := Nat.lt_of_lt_of_le hb (List.length_take_le _ _)
  obtain ⟨i, hi⟩ : ∃ i, (((entries next m c).drop n).take k)[b]? = some i :=
    ⟨_, List.getElem?_eq_getElem hb⟩
  rw [hi] at heq
  rw [List.getElem?_take_of_lt hbk, List.getElem?_drop] at hi
  rw [List.getElem?_take_of_lt (Nat.lt_trans hab hbk), List.getElem?_drop] at heq
  -- the two calls have one residue, and are fewer than `k` apart
  have hturn : turn c + (n + a : Nat) ≡ turn c + (n + b : Nat) [ZMOD k] :=
    (h.getElem? heq).symm.trans (h.getElem? hi)
  have hmod : n + a ≡ n + b [MOD k] := Int.natCast_modEq_iff.mp (hturn.add_left_cancel' _)
  have hsame : a = b := (hmod.add_left_cancel' _).eq_of_lt_of_lt (Nat.lt_trans hab hbk) hbk
  omega

end RoundRobin
