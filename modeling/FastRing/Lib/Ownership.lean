import Mathlib.Algebra.Order.Group.Multiset

/-! Programs that allocate and free blocks. The allocator may refuse any request, as `grants` says
for each of them in turn, and never gives out a block twice; to free a block that is not live stops
the program. `Triple pre x post` says that `x`, when it owns the blocks `pre`, runs to its end,
whatever is refused, and what it owns then; the blocks of others are left alone. -/

namespace Ownership

/-- The live blocks, each below the number of the next request. -/
structure Heap where
  live : Multiset Nat
  next : Nat
  below : ∀ p ∈ live, p < next

def Heap.empty : Heap := { live := 0, next := 0, below := fun _ h => absurd h (Multiset.notMem_zero _) }

/-- A program, given which requests are granted. -/
abbrev Prog : Type → Type := ReaderT (Nat → Bool) (StateT Heap Option)

/-- The heap after a request that is granted. -/
def Heap.take (h : Heap) : Heap :=
  { live := h.next ::ₘ h.live
    next := h.next + 1
    below := by
      intro p hp
      rcases Multiset.mem_cons.mp hp with rfl | hp
      · exact Nat.lt_succ_self _
      · exact Nat.lt_succ_of_lt (h.below p hp) }

/-- The heap after a request that is refused. -/
def Heap.refuse (h : Heap) : Heap :=
  { h with next := h.next + 1, below := fun p hp => Nat.lt_succ_of_lt (h.below p hp) }

/-- The heap without the block `p`. -/
def Heap.drop (h : Heap) (p : Nat) : Heap :=
  { h with live := h.live.erase p, below := fun q hq => h.below q (Multiset.mem_of_mem_erase hq) }

def alloc : Prog (Option Nat) := fun grants h =>
  if grants h.next then some (some h.next, h.take) else some (none, h.refuse)

def free (p : Nat) : Prog Unit := fun _ h => if p ∈ h.live then some ((), h.drop p) else none

/-- With the blocks `pre` the program comes to its end, with a result and blocks that meet
`post`. -/
def Triple {α : Type} (pre : Multiset Nat) (x : Prog α) (post : α → Multiset Nat → Prop) : Prop :=
  ∀ grants h others, h.live = pre + others →
    ∃ a h' owned, x grants h = some (a, h') ∧ post a owned ∧ h'.live = owned + others

variable {α β : Type} {pre : Multiset Nat} {x : Prog α} {post : α → Multiset Nat → Prop}

theorem Triple.pure {a : α} (h : post a pre) : Triple pre (Pure.pure a) post :=
  fun _ hp _ hl => ⟨a, hp, pre, rfl, h, hl⟩

theorem Triple.bind {f : α → Prog β} {after : β → Multiset Nat → Prop} (hx : Triple pre x post)
    (hf : ∀ a owned, post a owned → Triple owned (f a) after) : Triple pre (x >>= f) after := by
  intro grants h others hl
  obtain ⟨a, h', owned, hrun, hpost, hl'⟩ := hx grants h others hl
  obtain ⟨b, h'', owned', hrun', hafter, hl''⟩ := hf a owned hpost grants h' others hl'
  refine ⟨b, h'', owned', ?_, hafter, hl''⟩
  calc (x >>= f) grants h = (x grants h).bind fun p => f p.1 grants p.2 := rfl
    _ = some (b, h'') := by rw [hrun]; exact hrun'

theorem Triple.mono {post' : α → Multiset Nat → Prop} (hx : Triple pre x post)
    (h : ∀ a owned, post a owned → post' a owned) : Triple pre x post' := by
  intro grants hp others hl
  obtain ⟨a, h', owned, hrun, hpost, hl'⟩ := hx grants hp others hl
  exact ⟨a, h', owned, hrun, h a owned hpost, hl'⟩

/-- The frame rule: blocks the program does not need stay owned. -/
theorem Triple.frame (hx : Triple pre x post) (kept : Multiset Nat) :
    Triple (pre + kept) x fun a owned => ∃ own, post a own ∧ owned = own + kept := by
  intro grants h others hl
  obtain ⟨a, h', own, hrun, hpost, hl'⟩ := hx grants h (kept + others) (by rw [hl, add_assoc])
  exact ⟨a, h', own + kept, hrun, ⟨own, hpost, rfl⟩, by rw [hl', add_assoc]⟩

theorem alloc_triple : Triple 0 alloc fun r owned => owned = (r.toList : Multiset Nat) := by
  intro grants h others hl
  unfold alloc
  by_cases hg : grants h.next = true
  · rw [if_pos hg]
    refine ⟨_, _, _, rfl, rfl, ?_⟩
    rw [zero_add] at hl
    simp [Heap.take, hl]
  · rw [if_neg hg]
    exact ⟨_, _, _, rfl, rfl, hl⟩

theorem free_triple (p : Nat) : Triple {p} (free p) fun _ owned => owned = 0 := by
  intro grants h others hl
  have hmem : p ∈ h.live := by rw [hl]; simp
  refine ⟨(), h.drop p, 0, if_pos hmem, rfl, ?_⟩
  simp [Heap.drop, hl]

/-- A whole program, from the empty heap. -/
theorem Triple.run (hx : Triple 0 x post) (grants : Nat → Bool) :
    ∃ a h, x grants .empty = some (a, h) ∧ post a h.live := by
  obtain ⟨a, h, owned, hrun, hpost, hl⟩ := hx grants .empty 0 rfl
  rw [add_zero] at hl
  exact ⟨a, h, hrun, hl ▸ hpost⟩

/-! ## Rules for the common shapes -/

/-- The allocation succeeds, or nothing is owned. -/
theorem Triple.alloc_bind {f : Option Nat → Prog β} {after : β → Multiset Nat → Prop}
    (hnone : Triple pre (f none) after) (hsome : ∀ p, Triple (p ::ₘ pre) (f (some p)) after) :
    Triple pre (alloc >>= f) after := by
  have halloc := alloc_triple.frame pre
  rw [zero_add] at halloc
  refine halloc.bind fun r owned ho => ?_
  obtain ⟨_, rfl, rfl⟩ := ho
  cases r with
  | none => simpa using hnone
  | some p => simpa using hsome p

/-- Of the blocks owned, `p` is freed first. -/
theorem Triple.free_bind {p : Nat} {f : Unit → Prog β} {after : β → Multiset Nat → Prop}
    (h : Triple pre (f ()) after) : Triple (p ::ₘ pre) (free p >>= f) after := by
  have hfree := (free_triple p).frame pre
  rw [Multiset.singleton_add] at hfree
  refine hfree.bind fun _ owned ho => ?_
  obtain ⟨_, rfl, rfl⟩ := ho
  rwa [zero_add]

/-- A part of the program that keeps to a part of the blocks. -/
theorem Triple.frame_bind {part kept : Multiset Nat} {f : α → Prog β}
    {after : β → Multiset Nat → Prop} (hx : Triple part x post) (hpre : pre = part + kept)
    (hf : ∀ a own, post a own → Triple (own + kept) (f a) after) : Triple pre (x >>= f) after := by
  rw [hpre]
  refine (hx.frame kept).bind fun a owned ho => ?_
  obtain ⟨own, hpost, rfl⟩ := ho
  exact hf a own hpost

/-- A loop whose body keeps an invariant of its state and the blocks owned. -/
theorem Triple.foldlM {S L : Type} {inv : S → Multiset Nat → Prop} {f : S → L → Prog S}
    (hf : ∀ s l owned, inv s owned → Triple owned (f s l) inv) {s : S} (ls : List L)
    (h : inv s pre) : Triple pre (ls.foldlM f s) inv := by
  induction ls generalizing s pre with
  | nil => exact .pure h
  | cons l ls ih =>
    rw [List.foldlM_cons]
    exact (hf s l pre h).bind fun t owned ht => ih ht

end Ownership
