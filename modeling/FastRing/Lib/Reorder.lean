import Mathlib.Data.List.Basic

/-! Straight-line programs whose accesses may take effect out of order. A program
is the list of its accesses in program order, `done` the positions that took
effect so far, and `mayPass b a` says that the later access `a` may take effect
before the earlier access `b`. -/

namespace Reorder

variable {A : Type}

/-- Position `i` may take effect next: it did not yet, and may pass every earlier
access that did not. -/
def enabled (mayPass : A → A → Bool) (prog : List A) (done : List Nat) (i : Nat) : Bool :=
  !done.contains i && match prog[i]? with
    | none => false
    | some a => (List.range i).all fun j => done.contains j || match prog[j]? with
      | none => false
      | some b => mayPass b a

/-- Whatever took effect before an earlier access was allowed to pass it. -/
def Ordered (mayPass : A → A → Bool) (prog : List A) (done : List Nat) : Prop :=
  ∀ i ∈ done, ∃ a, prog[i]? = some a ∧
    ∀ j, j < i → j ∉ done → ∃ b, prog[j]? = some b ∧ mayPass b a = true

variable {mayPass : A → A → Bool} {prog : List A} {done : List Nat} {i : Nat}

theorem enabled_spec (h : enabled mayPass prog done i = true) : i ∉ done ∧
    ∃ a, prog[i]? = some a ∧
      ∀ j, j < i → j ∉ done → ∃ b, prog[j]? = some b ∧ mayPass b a = true := by
  unfold enabled at h
  obtain ⟨hn, hm⟩ := Bool.and_eq_true_iff.mp h
  refine ⟨by simpa using hn, ?_⟩
  cases ha : prog[i]? with
  | none => rw [ha] at hm; cases hm
  | some a =>
    rw [ha] at hm
    refine ⟨a, rfl, fun j hj hd => ?_⟩
    have hp := List.all_eq_true.mp hm j (List.mem_range.mpr hj)
    cases hb : prog[j]? with
    | none => simp [hb, hd] at hp
    | some b => exact ⟨b, rfl, by simpa [hb, hd] using hp⟩

theorem ordered_nil : Ordered mayPass prog [] := fun _ h => by cases h

theorem Ordered.cons (ho : Ordered mayPass prog done) (h : enabled mayPass prog done i = true) :
    Ordered mayPass prog (i :: done) := by
  obtain ⟨_, a, ha, hall⟩ := enabled_spec h
  intro k hk
  rcases List.mem_cons.mp hk with rfl | hk
  · exact ⟨a, ha, fun j hj hd => hall j hj fun hm => hd (List.mem_cons_of_mem _ hm)⟩
  · obtain ⟨b, hb, hall⟩ := ho k hk
    exact ⟨b, hb, fun j hj hd => hall j hj fun hm => hd (List.mem_cons_of_mem _ hm)⟩

/-- An access waits for every earlier one it may not pass. -/
theorem enabled_after (h : enabled mayPass prog done i = true) {a b : A} {j : Nat} (hj : j < i)
    (ha : prog[i]? = some a) (hb : prog[j]? = some b) (hp : mayPass b a = false) : j ∈ done := by
  obtain ⟨_, a', ha', hall⟩ := enabled_spec h
  rw [ha] at ha'; cases ha'
  by_contra hd
  obtain ⟨b', hb', hp'⟩ := hall j hj hd
  rw [hb] at hb'; cases hb'
  rw [hp] at hp'; cases hp'

/-- Once an access that passes nothing took effect, so did all before it. -/
theorem Ordered.before (ho : Ordered mayPass prog done) (hi : i ∈ done) {a : A}
    (ha : prog[i]? = some a) (hp : ∀ b, mayPass b a = false) {j : Nat} (hj : j < i) : j ∈ done := by
  obtain ⟨a', ha', hall⟩ := ho i hi
  rw [ha] at ha'; cases ha'
  by_contra hd
  obtain ⟨b, _, hb⟩ := hall j hj hd
  rw [hp b] at hb; cases hb

/-! ## Copies

The shape of an access sequence that copies `n` elements: some accesses that
decide about the copy, one access per element, a fence and the access that makes
the copy take effect. -/

/-- The copy of `n` elements. -/
def copy (first : List A) (element : Nat → A) (n : Nat) (fence last : A) : List A :=
  first ++ ((List.range n).map element ++ [fence, last])

section Copy

variable {first : List A} {element : Nat → A} {n : Nat} {fence last : A}

theorem copy_first {k : Nat} (h : k < first.length) :
    (copy first element n fence last)[k]? = first[k]? :=
  List.getElem?_append_left h

theorem copy_element {j : Nat} (h : j < n) :
    (copy first element n fence last)[first.length + j]? = some (element j) := by
  rw [copy, List.getElem?_append_right (Nat.le_add_right _ _), Nat.add_sub_cancel_left,
    List.getElem?_append_left (by simpa using h), List.getElem?_map, List.getElem?_range h]
  rfl

theorem copy_fence : (copy first element n fence last)[first.length + n]? = some fence := by
  rw [copy, List.getElem?_append_right (Nat.le_add_right _ _), Nat.add_sub_cancel_left,
    List.getElem?_append_right (by simp)]
  simp

theorem copy_last : (copy first element n fence last)[first.length + n + 1]? = some last := by
  rw [copy, Nat.add_assoc, List.getElem?_append_right (Nat.le_add_right _ _),
    Nat.add_sub_cancel_left, List.getElem?_append_right (by simp)]
  simp

/-- What stands at a position of a copy. -/
theorem copy_get {k : Nat} {a : A} (h : (copy first element n fence last)[k]? = some a) :
    first[k]? = some a ∨ (∃ j, j < n ∧ k = first.length + j ∧ a = element j) ∨
      (k = first.length + n ∧ a = fence) ∨ (k = first.length + n + 1 ∧ a = last) := by
  have hlen : k < (copy first element n fence last).length :=
    (List.getElem?_eq_some_iff.mp h).1
  simp only [copy, List.length_append, List.length_map, List.length_range, List.length_cons,
    List.length_nil] at hlen
  rcases Nat.lt_or_ge k first.length with hlt | hge
  · rw [copy_first hlt] at h
    exact .inl h
  · obtain ⟨j, rfl⟩ := Nat.exists_eq_add_of_le hge
    rcases Nat.lt_or_ge j n with hj | hj
    · rw [copy_element hj] at h
      exact .inr (.inl ⟨j, hj, rfl, (Option.some.inj h).symm⟩)
    · rcases Nat.eq_or_lt_of_le hj with rfl | hj
      · rw [copy_fence] at h
        exact .inr (.inr (.inl ⟨rfl, (Option.some.inj h).symm⟩))
      · obtain rfl : j = n + 1 := by omega
        rw [← Nat.add_assoc, copy_last] at h
        exact .inr (.inr (.inr ⟨rfl, (Option.some.inj h).symm⟩))

/-- Behind a fence that nothing passes and that passes nothing, the last access of a
copy comes after all the others. -/
theorem Ordered.copy_before (ho : Ordered mayPass (copy first element n fence last) done)
    (hf : ∀ a, mayPass fence a = false) (hp : ∀ a, mayPass a fence = false)
    (h : enabled mayPass (copy first element n fence last) done (first.length + n + 1) = true)
    {k : Nat} (hk : k < first.length + n + 1) : k ∈ done := by
  have hfence : first.length + n ∈ done :=
    enabled_after h (Nat.lt_succ_self _) copy_last copy_fence (hf last)
  rcases Nat.eq_or_lt_of_le (Nat.le_of_lt_succ hk) with rfl | hlt
  · exact hfence
  · exact ho.before hfence copy_fence hp hlt

/-- Once the last access of a copy took effect, none is left. -/
theorem Ordered.copy_finished (ho : Ordered mayPass (copy first element n fence last) done)
    (hf : ∀ a, mayPass fence a = false) (hp : ∀ a, mayPass a fence = false)
    (hl : first.length + n + 1 ∈ done) {k : Nat} :
    enabled mayPass (copy first element n fence last) done k = false := by
  by_contra h
  have h : enabled mayPass (copy first element n fence last) done k = true := by simpa using h
  obtain ⟨hk, a, ha, _⟩ := enabled_spec h
  have hfence : first.length + n ∈ done := by
    obtain ⟨_, hb, hall⟩ := ho _ hl
    by_contra hd
    obtain ⟨b, hb', hm⟩ := hall _ (Nat.lt_succ_self _) hd
    rw [copy_fence] at hb'; cases hb'
    rw [hf] at hm; cases hm
  have hlen := (List.getElem?_eq_some_iff.mp ha).1
  simp only [copy, List.length_append, List.length_map, List.length_range, List.length_cons,
    List.length_nil] at hlen
  rcases Nat.lt_trichotomy k (first.length + n) with hlt | rfl | hgt
  · exact hk (ho.before hfence copy_fence hp hlt)
  · exact hk hfence
  · obtain rfl : k = first.length + n + 1 := by omega
    exact hk hl

end Copy

end Reorder
