import Mathlib.Logic.Function.Basic
import Mathlib.Data.List.Basic
import Mathlib.Data.Nat.ModEq

/-! Lists laid out in a memory whose addresses wrap at `N`. `Window N mem t q` says
that the items of `q` stand in the cells `t, t + 1, ...` modulo `N`. Items are
added at the far end by writing cells outside the window, and leave at the near
end by moving `t`. -/

namespace Cyclic

variable {α : Type}

/-- The items of `q` stand in consecutive cells, modulo `N`, from `t` on. -/
def Window (N : Nat) (mem : Nat → α) (t : Nat) (q : List α) : Prop :=
  ∀ i (h : i < q.length), mem ((t + i) % N) = q[i]

/-- Store the items of a list one by one in the cells `t, t + 1, ...` modulo `N`. -/
def write (N : Nat) (mem : Nat → α) (t : Nat) : List α → Nat → α
  | [] => mem
  | x :: xs => write N (Function.update mem (t % N) x) (t + 1) xs

/-- Distinct offsets below `N` denote distinct cells. -/
theorem cell_inj {N t i j : Nat} (hi : i < N) (hj : j < N) (h : (t + i) % N = (t + j) % N) :
    i = j := by
  have hm : i ≡ j [MOD N] := Nat.ModEq.add_left_cancel' t h
  rwa [Nat.ModEq, Nat.mod_eq_of_lt hi, Nat.mod_eq_of_lt hj] at hm

/-- An offset leads back to its start only when it is 0 or a full turn. -/
theorem cell_eq_start_iff {N t n : Nat} (ht : t < N) (hn : n ≤ N) :
    (t + n) % N = t ↔ n = 0 ∨ n = N := by
  constructor
  · intro he
    rcases Nat.lt_or_ge (t + n) N with hlt | hge
    · rw [Nat.mod_eq_of_lt hlt] at he; omega
    · rw [Nat.mod_eq_sub_mod hge, Nat.mod_eq_of_lt (by omega)] at he; omega
  · rintro (rfl | rfl)
    · rw [Nat.add_zero, Nat.mod_eq_of_lt ht]
    · rw [Nat.add_mod_right, Nat.mod_eq_of_lt ht]

theorem Window.nil (N : Nat) (mem : Nat → α) (t : Nat) : Window N mem t [] := by
  intro i h; simp at h

theorem Window.start {N : Nat} {mem : Nat → α} {t t' : Nat} {q : List α}
    (h : Window N mem t q) (ht : t % N = t' % N) : Window N mem t' q := by
  intro i hi
  rw [← h i hi, Nat.add_mod t', ← ht, ← Nat.add_mod]

theorem Window.append {N : Nat} {mem : Nat → α} {t : Nat} {q xs : List α}
    (hq : Window N mem t q) (hx : Window N mem (t + q.length) xs) :
    Window N mem t (q ++ xs) := by
  intro i hi
  rw [List.getElem_append]
  split
  · rename_i hlt; exact hq i hlt
  · rename_i hge
    rw [List.length_append] at hi
    rw [← hx (i - q.length) (by omega)]
    congr 2; omega

theorem Window.drop {N : Nat} {mem : Nat → α} {t : Nat} {q : List α}
    (hq : Window N mem t q) (k : Nat) : Window N mem (t + k) (q.drop k) := by
  intro i hi
  rw [List.getElem_drop, ← hq (k + i) (by simp at hi; omega), Nat.add_assoc]

/-- A cell beyond the window, before it wraps around to it, may be written. -/
theorem Window.update {N : Nat} {mem : Nat → α} {t j : Nat} {q : List α} (hq : Window N mem t q)
    (hj : q.length ≤ j) (hN : j < N) (x : α) :
    Window N (Function.update mem ((t + j) % N) x) t q := by
  intro i hi
  rw [Function.update_of_ne, hq i hi]
  intro he
  have := cell_inj (by omega) hN he
  omega

/-- A window grows by the item written in the cell after its last. -/
theorem Window.concat {N : Nat} {mem : Nat → α} {t : Nat} {q : List α} (hq : Window N mem t q)
    (hN : q.length < N) (x : α) :
    Window N (Function.update mem ((t + q.length) % N) x) t (q ++ [x]) := by
  refine (hq.update (Nat.le_refl _) hN x).append ?_
  intro i hi
  have : i = 0 := by simpa using hi
  subst this
  simp

theorem write_append (N : Nat) (mem : Nat → α) (t : Nat) (xs ys : List α) :
    write N mem t (xs ++ ys) = write N (write N mem t xs) (t + xs.length) ys := by
  induction xs generalizing mem t with
  | nil => rfl
  | cons x xs ih =>
    simp only [List.cons_append, write, List.length_cons, ih]
    rw [show t + 1 + xs.length = t + (xs.length + 1) by omega]

theorem write_start {N : Nat} {mem : Nat → α} {t t' : Nat} (xs : List α) (ht : t % N = t' % N) :
    write N mem t xs = write N mem t' xs := by
  induction xs generalizing mem t t' with
  | nil => rfl
  | cons x xs ih =>
    simp only [write, ht]
    exact ih (by rw [Nat.add_mod, ht, ← Nat.add_mod])

/-- A cell that is none of those written stays as it is. -/
theorem write_of_ne {N : Nat} {mem : Nat → α} {t j : Nat} {xs : List α}
    (h : ∀ i, i < xs.length → (t + i) % N ≠ j) : write N mem t xs j = mem j := by
  induction xs generalizing mem t with
  | nil => rfl
  | cons x xs ih =>
    have hfirst : j ≠ t % N := (h 0 (Nat.succ_pos _)).symm
    have hrest : ∀ i, i < xs.length → (t + 1 + i) % N ≠ j := by
      intro i hi
      have := h (i + 1) (Nat.succ_lt_succ hi)
      rwa [Nat.add_comm i, ← Nat.add_assoc] at this
    rw [write, ih hrest, Function.update_of_ne hfirst]

/-- Writing a list after a window extends the window by it. -/
theorem Window.write {N : Nat} {mem : Nat → α} {t : Nat} {q : List α} (hq : Window N mem t q)
    (xs : List α) (hN : q.length + xs.length ≤ N) :
    Window N (Cyclic.write N mem (t + q.length) xs) t (q ++ xs) := by
  induction xs generalizing mem q with
  | nil => simpa [Cyclic.write] using hq
  | cons x xs ih =>
    simp only [List.length_cons] at hN
    have := ih (hq.concat (by omega) x) (by simp; omega)
    simpa [Cyclic.write, Nat.add_assoc] using this

end Cyclic
