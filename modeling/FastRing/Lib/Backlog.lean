import Mathlib.Algebra.GroupWithZero.Nat
import Mathlib.Data.List.Infix
import FastRing.Lib.Runs

/-! A queue of `n` places. Every label `l` of a run first brings `arr l` items and then takes away
up to `serv l`. What arrives always finds room exactly when no window of the run brings more than
`n` items beyond what is taken away in it, whatever the run did before: a queue that is served
when it is empty gains nothing from it. -/

namespace Backlog

variable {L : Type} (arr serv : L → Nat) (n : Nat)

def total (f : L → Nat) (ls : List L) : Nat := (ls.map f).sum

/-- With `b` items at first, every arrival finds room. -/
def Fits : Nat → List L → Prop
  | _, [] => True
  | b, l :: ls => b + arr l ≤ n ∧ Fits (b + arr l - serv l) ls

/-- The items of a window, up to its last arrival, exceed what it took away by `n` at most. -/
def Windows (ls : List L) : Prop :=
  ∀ w l, w ++ [l] <:+: ls → total arr (w ++ [l]) ≤ n + total serv w

instance decidableFits : (b : Nat) → (ls : List L) → Decidable (Fits arr serv n b ls)
  | _, [] => isTrue trivial
  | b, l :: ls =>
    have : Decidable (Fits arr serv n (b + arr l - serv l) ls) := decidableFits _ ls
    inferInstanceAs (Decidable (_ ∧ _))

@[simp] theorem total_nil (f : L → Nat) : total f [] = 0 := rfl

@[simp] theorem total_cons (f : L → Nat) (l : L) (ls : List L) :
    total f (l :: ls) = f l + total f ls := List.sum_cons

@[simp] theorem total_append (f : L → Nat) (ls ls' : List L) :
    total f (ls ++ ls') = total f ls + total f ls' := by
  rw [total, List.map_append, List.sum_append]
  rfl

/-- Where every label of one kind counts for the same. -/
theorem total_eq_countP {f : L → Nat} {p : L → Bool} {k : Nat} (h : ∀ l, f l = if p l then k else 0)
    (ls : List L) : total f ls = k * ls.countP p := by
  induction ls with
  | nil => rfl
  | cons l ls ih =>
    rw [total_cons, ih, h, List.countP_cons]
    split
    · rw [Nat.mul_succ, Nat.add_comm]
    · rw [Nat.zero_add, Nat.add_zero]

variable {arr serv n}

/-- The windows that begin with the run count what was there at first, the others do not. -/
theorem fits_iff (b : Nat) (ls : List L) :
    Fits arr serv n b ls ↔
      (∀ w l, w ++ [l] <+: ls → b + total arr (w ++ [l]) ≤ n + total serv w) ∧
        Windows arr serv n ls := by
  induction ls generalizing b with
  | nil => simp [Fits, Windows]
  | cons l ls ih =>
    rw [Fits, ih]
    constructor
    · rintro ⟨hl, hbegin, hwin⟩
      have hpre : ∀ w m, w ++ [m] <+: l :: ls → b + total arr (w ++ [m]) ≤ n + total serv w := by
        intro w m hw
        cases w with
        | nil =>
          obtain ⟨rfl, _⟩ := List.cons_prefix_cons.mp hw
          simpa using hl
        | cons a w =>
          obtain ⟨rfl, htail⟩ := List.cons_prefix_cons.mp hw
          have := hbegin w m htail
          rw [List.cons_append, total_cons, total_cons]
          omega
      refine ⟨hpre, fun w m hw => ?_⟩
      rcases List.infix_cons_iff.mp hw with hw | hw
      · exact Nat.le_trans (Nat.le_add_left _ b) (hpre w m hw)
      · exact hwin w m hw
    · rintro ⟨hpre, hwin⟩
      have hin : Windows arr serv n ls := fun w m hw => hwin w m (List.infix_cons hw)
      have hl := hpre [] l (List.cons_prefix_cons.mpr ⟨rfl, List.nil_prefix⟩)
      refine ⟨by simpa using hl, fun w m hw => ?_, hin⟩
      have hcons := hpre (l :: w) m (List.cons_prefix_cons.mpr ⟨rfl, hw⟩)
      have hwm := hin w m hw.isInfix
      rw [List.cons_append, total_cons, total_cons] at hcons
      omega

theorem fits_zero_iff (ls : List L) : Fits arr serv n 0 ls ↔ Windows arr serv n ls := by
  rw [fits_iff]
  refine ⟨fun h => h.2, fun h => ⟨fun w l hw => ?_, h⟩⟩
  rw [Nat.zero_add]
  exact h w l hw.isInfix

/-- A window that ends in a label that brings nothing needs no check. -/
theorem windows_of_arrivals {ls : List L}
    (h : ∀ w l, w ++ [l] <:+: ls → 0 < arr l → total arr (w ++ [l]) ≤ n + total serv w) :
    Windows arr serv n ls := by
  intro w
  induction w using List.reverseRecOn with
  | nil =>
    intro l hl
    rcases Nat.eq_zero_or_pos (arr l) with h0 | hpos
    · simp [h0]
    · exact h [] l hl hpos
  | append_singleton w m ih =>
    intro l hl
    rcases Nat.eq_zero_or_pos (arr l) with h0 | hpos
    · have hm := ih m ((List.prefix_append _ _).isInfix.trans hl)
      rw [total_append, total_append serv, total_cons, h0]
      simp only [total_nil]
      omega
    · exact h _ l hl hpos

instance (ls : List L) : Decidable (Windows arr serv n ls) := decidable_of_iff _ (fits_zero_iff ls)

/-! ## The queue of a transition system -/

variable {S : Type} {step : S → L → Option S} {ok : S → L → Prop} {I : S → Prop} (size : S → Nat)

/-- The arrivals of a run find room if they did so in a queue that is never shorter. -/
theorem allSteps_of_fits (side : S → L → Prop)
    (hI : ∀ s l t, I s → step s l = some t → I t)
    (hok : ∀ s l, I s → size s + arr l ≤ n → ok s l)
    (hsize : ∀ s l t, I s → side s l → step s l = some t → size s + arr l ≤ n →
      size t ≤ size s + arr l - serv l)
    {s : S} {ls : List L} {b : Nat} (hs : I s) (hb : size s ≤ b)
    (hside : Runs.AllSteps step side s ls) (h : Fits arr serv n b ls) :
    Runs.AllSteps step ok s ls := by
  induction ls generalizing s b with
  | nil => trivial
  | cons l ls ih =>
    have hroom : size s + arr l ≤ n := Nat.le_trans (Nat.add_le_add_right hb _) h.1
    refine ⟨hok s l hs hroom, fun t ht => ih (hI s l t hs ht) ?_ (hside.2 t ht) h.2⟩
    have := hsize s l t hs hside.1 ht hroom
    omega

/-- The arrivals of a run find room exactly if they do so in the queue. -/
theorem allSteps_iff_fits
    (hI : ∀ s l t, I s → step s l = some t → I t)
    (henabled : ∀ s l, I s → ∃ t, step s l = some t)
    (hok : ∀ s l, I s → (ok s l ↔ size s + arr l ≤ n))
    (hsize : ∀ s l t, I s → step s l = some t → size s + arr l ≤ n →
      size t = size s + arr l - serv l)
    {s : S} {ls : List L} (hs : I s) :
    Runs.AllSteps step ok s ls ↔ Fits arr serv n (size s) ls := by
  constructor
  · intro h
    induction ls generalizing s with
    | nil => trivial
    | cons l ls ih =>
      obtain ⟨t, ht⟩ := henabled s l hs
      have hroom := (hok s l hs).mp h.1
      refine ⟨hroom, ?_⟩
      rw [← hsize s l t hs ht hroom]
      exact ih (hI s l t hs ht) (h.2 t ht)
  · exact allSteps_of_fits size (fun _ _ => True) hI (fun s l hi => (hok s l hi).mpr)
      (fun s l t hi _ ht hroom => Nat.le_of_eq (hsize s l t hi ht hroom)) hs (Nat.le_refl _)
      Runs.allSteps_true

end Backlog
