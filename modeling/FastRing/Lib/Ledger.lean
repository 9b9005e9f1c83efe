import Mathlib.Data.List.Perm.Basic
import Mathlib.Data.List.Sort

/-! Items that pass through a system of queues in order, some of which are dropped
on the way. `Ledger all dropped kept` says that `kept` is `all` without the items
of `dropped`, in order. The places an item may be at are the parts of `kept`, so
that moving items on changes nothing, and only two things happen: a new item comes
in at the far end, and a segment is dropped. -/

variable {α : Type}

/-- `kept` lists the items of `all` that are not in `dropped`, in order. -/
structure Ledger (all dropped kept : List α) : Prop where
  sub : kept.Sublist all
  perm : all.Perm (dropped ++ kept)

namespace Ledger

variable {all dropped kept : List α}

theorem nil : Ledger ([] : List α) [] [] := ⟨List.Sublist.refl _, List.Perm.refl _⟩

theorem enter (h : Ledger all dropped kept) (x : α) :
    Ledger (all ++ [x]) dropped (kept ++ [x]) := by
  refine ⟨h.sub.append (List.Sublist.refl _), ?_⟩
  rw [← List.append_assoc]
  exact h.perm.append_right _

/-- A segment of the items kept is dropped; it may join `dropped` anywhere. -/
theorem drop {a r b d e : List α} (h : Ledger all (d ++ e) (a ++ r ++ b)) :
    Ledger all (d ++ r ++ e) (a ++ b) := by
  refine ⟨?_, h.perm.trans ?_⟩
  · refine List.Sublist.trans ?_ h.sub
    rw [List.append_assoc]
    exact (List.Sublist.refl a).append (List.sublist_append_right r b)
  · have hkept : (a ++ r ++ b).Perm (r ++ (a ++ b)) := by
      rw [List.append_assoc]
      exact List.perm_append_comm_assoc a r b
    have hdropped : (d ++ e ++ r).Perm (d ++ r ++ e) := by
      rw [List.append_assoc, List.append_assoc]
      exact List.perm_append_comm.append_left d
    refine (hkept.append_left (d ++ e)).trans ?_
    rw [← List.append_assoc (d ++ e)]
    exact hdropped.append_right _

/-- How many of the items with property `p` were dropped. -/
theorem countP_dropped (h : Ledger all dropped kept) (p : α → Bool) :
    dropped.countP p + kept.countP p = all.countP p := by
  rw [h.perm.countP_eq, List.countP_append]

/-! ## Numbered items

When the items are numbered in the order they came in, the numbers of the items kept
tell what was dropped between them. -/

section Numbered

variable {num : α → Nat}

theorem countP_range_between (n a b : Nat) :
    (List.range n).countP (fun i => decide (a < i ∧ i < b)) = min n b - (a + 1) := by
  induction n with
  | zero => simp
  | succ n ih =>
    rw [List.range_succ, List.countP_append, ih]
    by_cases h : a < n ∧ n < b
    · simp [h]; omega
    · simp [h]; omega

theorem strictMono (h : Ledger all dropped kept) (hn : all.map num = List.range all.length) :
    (kept.map num).Pairwise (· < ·) := by
  refine List.Pairwise.sublist (h.sub.map num) ?_
  rw [hn]
  exact List.pairwise_lt_range

/-- Between two items that follow each other in `kept`, the missing numbers are those
of dropped items. -/
theorem gap (h : Ledger all dropped kept) (hn : all.map num = List.range all.length)
    {u v : List α} {x y : α} (hk : kept = u ++ x :: y :: v) :
    num x < num y ∧ num y - num x - 1 =
      dropped.countP (fun z => decide (num x < num z ∧ num z < num y)) := by
  have hmono := h.strictMono hn
  rw [hk, List.map_append, List.map_cons, List.map_cons, List.pairwise_append] at hmono
  obtain ⟨_, hxy, hu⟩ := hmono
  obtain ⟨hx, hy⟩ := List.pairwise_cons.mp hxy
  have hlt : num x < num y := hx _ List.mem_cons_self
  have hin : num y < all.length := by
    have hm : num y ∈ all.map num :=
      List.mem_map_of_mem (h.sub.subset (by rw [hk]; simp))
    rw [hn] at hm
    exact List.mem_range.mp hm
  have hall : all.countP (fun z => decide (num x < num z ∧ num z < num y)) = num y - num x - 1 := by
    have := countP_range_between all.length (num x) (num y)
    rw [← hn, List.countP_map] at this
    rw [show (fun z => decide (num x < num z ∧ num z < num y)) =
      (fun i => decide (num x < i ∧ i < num y)) ∘ num from rfl, this]
    omega
  -- nothing kept lies strictly between two neighbours of an increasing list
  have hnone : kept.countP (fun z => decide (num x < num z ∧ num z < num y)) = 0 := by
    rw [List.countP_eq_zero]
    intro z hz
    rw [hk] at hz
    have : ¬ (num x < num z ∧ num z < num y) := by
      rcases List.mem_append.mp hz with hz | hz
      · have := hu _ (List.mem_map_of_mem hz) (num x) List.mem_cons_self
        omega
      · rcases List.mem_cons.mp hz with rfl | hz
        · omega
        · rcases List.mem_cons.mp hz with rfl | hz
          · omega
          · have := (List.pairwise_cons.mp hy).1 _ (List.mem_map_of_mem hz)
            omega
    simpa using this
  have hcount := h.countP_dropped fun z => decide (num x < num z ∧ num z < num y)
  exact ⟨hlt, by omega⟩

end Numbered

end Ledger
