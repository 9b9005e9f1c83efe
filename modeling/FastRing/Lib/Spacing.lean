import Mathlib.Data.List.Chain
import Mathlib.Data.List.NodupEquivFin

/-! Points in time that keep apart. `Spaced gap ts` bounds how close two points of `ts` can
be by how many places they are apart. It is what a schedule gives whose deadlines are `gap`
apart, each not before the point that the deadline before it was kept at; and it bounds how
many points there are in a window of time. -/

namespace Spacing

/-- Two points that are `k` places apart are at least `k - 1` gaps apart. -/
def Spaced (gap : Nat) (ts : List Nat) : Prop :=
  ∀ i j a b, i < j → ts[i]? = some a → ts[j]? = some b → a + (j - i - 1) * gap ≤ b

variable {gap : Nat} {ts ts' : List Nat}

/-- Leaving points out only brings places closer together. -/
theorem Spaced.sublist (h : Spaced gap ts) (hs : ts'.Sublist ts) : Spaced gap ts' := by
  obtain ⟨f, hf⟩ := List.sublist_iff_exists_orderEmbedding_getElem?_eq.mp hs
  have hgrow : ∀ i k, f i + k ≤ f (i + k) := by
    intro i k
    induction k with
    | zero => exact Nat.le_refl _
    | succ k ih =>
      have hlt : f (i + k) < f (i + k + 1) := f.lt_iff_lt.mpr (Nat.lt_succ_self _)
      rw [← Nat.add_assoc, ← Nat.add_assoc]
      omega
  intro i j a b hij ha hb
  rw [hf] at ha hb
  have hle := hgrow i (j - i)
  have hj : i + (j - i) = j := by omega
  rw [hj] at hle
  have hspan := h (f i) (f j) a b (f.lt_iff_lt.mpr hij) ha hb
  have hmul : (j - i - 1) * gap ≤ (f j - f i - 1) * gap := Nat.mul_le_mul_right _ (by omega)
  omega

/-- A window of length `w` holds at most two points more than it holds gaps. -/
theorem Spaced.window (h : Spaced gap ts) (hgap : 0 < gap) (lo w : Nat) :
    (ts.filter fun t => lo ≤ t ∧ t ≤ lo + w).length ≤ w / gap + 2 := by
  have hin : ∀ t ∈ ts.filter fun t => lo ≤ t ∧ t ≤ lo + w, lo ≤ t ∧ t ≤ lo + w := by
    intro t ht
    simpa using (List.mem_filter.mp ht).2
  have hspaced := h.sublist (List.filter_sublist (p := fun t => lo ≤ t ∧ t ≤ lo + w))
  generalize ts.filter (fun t => lo ≤ t ∧ t ≤ lo + w) = inside at hin hspaced
  by_cases hlen : inside.length ≤ 2
  · exact Nat.le_trans hlen (Nat.le_add_left 2 _)
  · have hfirst : inside[0]? = some inside[0] := List.getElem?_eq_getElem (by omega)
    have hlast : inside[inside.length - 1]? = some inside[inside.length - 1] :=
      List.getElem?_eq_getElem (by omega)
    have hspan := hspaced 0 (inside.length - 1) _ _ (by omega) hfirst hlast
    have hlo := (hin _ (List.mem_of_getElem? hfirst)).1
    have hhi := (hin _ (List.mem_of_getElem? hlast)).2
    have hgaps : (inside.length - 1 - 0 - 1) * gap ≤ w := by omega
    have hdiv := (Nat.le_div_iff_mul_le hgap).mpr hgaps
    omega

/-- What is done not before its deadline, with deadlines that are a gap apart and not
before the deadline before was kept, is spaced. -/
theorem spaced_of_deadlines {α : Type} (due : α → Nat) {done : α → Nat} {xs : List α}
    (hdue : ∀ x ∈ xs, due x ≤ done x)
    (hchain : xs.IsChain fun x y => done x ≤ due y ∧ due x + gap ≤ due y) :
    Spaced gap (xs.map done) := by
  intro i j a b hij ha hb
  rw [List.getElem?_map] at ha hb
  obtain ⟨x, hx, rfl⟩ := Option.map_eq_some_iff.mp ha
  obtain ⟨y, hy, rfl⟩ := Option.map_eq_some_iff.mp hb
  have hstep : ∀ k u v, xs[k]? = some u → xs[k + 1]? = some v →
      done u ≤ due v ∧ due u + gap ≤ due v := by
    intro k u v hu hv
    obtain ⟨_, rfl⟩ := List.getElem?_eq_some_iff.mp hu
    obtain ⟨hlt, rfl⟩ := List.getElem?_eq_some_iff.mp hv
    exact hchain.getElem k hlt
  -- the deadlines from the place after `i` on, one gap for each place
  have hdues : ∀ k v, xs[i + 1 + k]? = some v → done x + k * gap ≤ due v := by
    intro k
    induction k with
    | zero =>
      intro v hv
      have := (hstep i x v hx hv).1
      omega
    | succ k ih =>
      intro v hv
      have hlt := (List.getElem?_eq_some_iff.mp hv).1
      have hu : xs[i + 1 + k]? = some xs[i + 1 + k] := List.getElem?_eq_getElem (by omega)
      have hprev := ih _ hu
      have hnext := (hstep (i + 1 + k) _ v hu hv).2
      rw [Nat.succ_mul]
      omega
  have hplace : i + 1 + (j - i - 1) = j := by omega
  rw [← hplace] at hy
  have hlast := hdues (j - i - 1) y hy
  have hkept := hdue y (List.mem_of_getElem? hy)
  omega

end Spacing
