import Mathlib.Algebra.BigOperators.Group.Finset.Basic
import Mathlib.Algebra.Order.BigOperators.Group.Finset

/-! Components of one kind, any number of them, each in a state of its own. What they
amount to together is a sum over them, and a step of one component changes the sum by
what it changes there. -/

namespace Tally

variable {ι T : Type} [Fintype ι]

/-- The sum of `f` over the components. -/
def total (f : T → Nat) (states : ι → T) : Nat := ∑ i, f (states i)

theorem le_total (f : T → Nat) (states : ι → T) (i : ι) : f (states i) ≤ total f states :=
  Finset.single_le_sum_of_canonicallyOrdered (f := fun j => f (states j)) (Finset.mem_univ i)

theorem total_eq_zero {f : T → Nat} {states : ι → T} (h : ∀ i, f (states i) = 0) :
    total f states = 0 :=
  Finset.sum_eq_zero fun i _ => h i

/-- Component `i` goes over to the state `x`. -/
theorem total_update [DecidableEq ι] (f : T → Nat) (states : ι → T) (i : ι) (x : T) :
    total f (Function.update states i x) + f (states i) = total f states + f x := by
  have hother : ∑ j ∈ Finset.univ.erase i, f (Function.update states i x j) =
      ∑ j ∈ Finset.univ.erase i, f (states j) := by
    refine Finset.sum_congr rfl ?_
    intro j hj
    rw [Function.update_of_ne (Finset.ne_of_mem_erase hj)]
  rw [total, total, ← Finset.add_sum_erase _ _ (Finset.mem_univ i), hother,
    ← Finset.add_sum_erase Finset.univ (fun j => f (states j)) (Finset.mem_univ i),
    Function.update_self]
  omega

end Tally
