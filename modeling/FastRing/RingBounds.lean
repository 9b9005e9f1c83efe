import Mathlib.Data.List.Nodup
import FastRing.BoundedFifo
import FastRing.Lib.Runs

/-! # Index arithmetic and bounds

In every state that the operations lead to, both indices are below the capacity, and
nothing that the batch operations compute from them wraps around, except for the
difference of the indices, which is masked. The two `memcpy` of a copy touch consecutive
slots modulo the capacity: a batch push those from the head on, which are free, and a
batch pop those from the tail on. -/

namespace FastRing

open Cyclic

variable {σ : Type} {rb : RingBuffer σ}

/-! ## The accesses of a copy -/

/-- The accesses of a copy of `n` elements to or from the slots from `index` on, in
order: the index in the caller's array, and the slot. -/
def copyAccesses (rb : RingBuffer σ) (index n : UInt32) : List (Nat × Nat) :=
  let first := firstChunk rb index n
  let chunk := (List.range first.toNat).map fun i => (i, index.toNat + i)
  if first < n then
    chunk ++ (List.range (n - first).toNat).map fun i => (first.toNat + i, i)
  else chunk

/-- One access of a copy into the ring. -/
def storeAt (samples : List σ) (buffer : Nat → σ) (access : Nat × Nat) : Nat → σ :=
  match samples[access.1]? with
  | some x => Function.update buffer access.2 x
  | none => buffer

/-- The accesses are to consecutive elements and, modulo the capacity, to consecutive
slots. -/
theorem copyAccesses_eq {index n : UInt32} (hi : index.toNat < rb.capacity.toNat)
    (hn : n.toNat ≤ rb.capacity.toNat) :
    copyAccesses rb index n =
      (List.range n.toNat).map fun i => (i, (index.toNat + i) % rb.capacity.toNat) := by
  have hf := RingBuffer.WF.firstChunk_toNat hi n
  have hchunk : (List.range (firstChunk rb index n).toNat).map (fun i => (i, index.toNat + i)) =
      (List.range (firstChunk rb index n).toNat).map
        fun i => (i, (index.toNat + i) % rb.capacity.toNat) := by
    refine List.map_congr_left ?_
    intro i hmem
    have hlt := List.mem_range.mp hmem
    rw [Nat.mod_eq_of_lt (by omega)]
  unfold copyAccesses
  simp only [hchunk]
  split
  · rename_i hlt
    have hsub := UInt32.toNat_sub_of_le _ _ (UInt32.le_of_lt hlt)
    rw [UInt32.lt_iff_toNat_lt] at hlt
    have hsplit : n.toNat = (firstChunk rb index n).toNat +
        (n.toNat - (firstChunk rb index n).toNat) := by omega
    rw [hsub, hsplit, List.range_add, List.map_append, List.map_map, Nat.add_sub_cancel_left]
    congr 1
    -- the second chunk starts where the first one reaches the end
    refine List.map_congr_left ?_
    intro i hmem
    have hlt' := List.mem_range.mp hmem
    have hwrap : index.toNat + ((firstChunk rb index n).toNat + i) = i + rb.capacity.toNat := by omega
    simp only [Function.comp_apply, hwrap, Nat.add_mod_right]
    rw [Nat.mod_eq_of_lt (by omega)]
  · rename_i hge
    rw [UInt32.lt_iff_toNat_lt] at hge
    have hall : (firstChunk rb index n).toNat = n.toNat := by omega
    rw [hall]

/-- Making these accesses one after the other is writing the elements. -/
theorem foldl_storeAt (N t : Nat) (buffer : Nat → σ) {samples : List σ} {n : Nat}
    (hn : n ≤ samples.length) :
    ((List.range n).map fun i => (i, (t + i) % N)).foldl (storeAt samples) buffer =
      write N buffer t (samples.take n) := by
  induction n with
  | zero => rfl
  | succ n ih =>
    have hlen : (samples.take n).length = n := List.length_take_of_le (by omega)
    have hnext : samples[n]? = some samples[n] := List.getElem?_eq_getElem (by omega)
    rw [List.range_succ, List.map_append, List.foldl_append, ih (by omega), List.take_add_one, hnext,
      Option.toList_some, write_append, hlen]
    simp only [List.map_cons, List.map_nil, List.foldl_cons, List.foldl_nil, storeAt, hnext, write]

/-! ## Machine arithmetic -/

/-- `a - b` does not wrap around. -/
def NoBorrow (a b : UInt32) : Prop := (a - b).toNat + b.toNat = a.toNat

/-- `a + b` does not wrap around. -/
def NoCarry (a b : UInt32) : Prop := (a + b).toNat = a.toNat + b.toNat

theorem noBorrow_of_le {a b : UInt32} (h : b.toNat ≤ a.toNat) : NoBorrow a b := by
  rw [NoBorrow, UInt32.toNat_sub_of_le _ _ (UInt32.le_iff_toNat_le.mpr h)]
  omega

theorem noCarry_of_lt {a b : UInt32} (h : a.toNat + b.toNat < 2 ^ 32) : NoCarry a b := by
  rw [NoCarry, UInt32.toNat_add, Nat.mod_eq_of_lt h]

/-- `to_push` of a batch push of `count` samples. -/
def toPush (rb : RingBuffer σ) (count : UInt32) : UInt32 :=
  if count < ringBufferAvailable rb then count else ringBufferAvailable rb

/-- `to_pop` of a batch pop of `count` samples. -/
def toPop (rb : RingBuffer σ) (count : UInt32) : UInt32 :=
  if count < ringBufferCount rb then count else ringBufferCount rb

/-- What a copy of `n` elements at `index` computes and touches is in range. -/
structure CopyInBounds (rb : RingBuffer σ) (index n : UInt32) : Prop where
  wrapPoint : NoBorrow rb.capacity index
  secondChunk : NoBorrow n (firstChunk rb index n)
  advance : NoCarry index n
  elements : ∀ access ∈ copyAccesses rb index n, access.1 < n.toNat
  slots : ∀ access ∈ copyAccesses rb index n, access.2 < rb.capacity.toNat
  distinct : ((copyAccesses rb index n).map Prod.snd).Nodup

theorem copyInBounds {index n : UInt32} (h : rb.WF) (hi : index.toNat < rb.capacity.toNat)
    (hn : n.toNat < rb.capacity.toNat) : CopyInBounds rb index n := by
  have hle := h.le_pow
  have hf := RingBuffer.WF.firstChunk_toNat hi n
  have heq := copyAccesses_eq hi (Nat.le_of_lt hn)
  refine ⟨noBorrow_of_le (by omega), noBorrow_of_le (by omega), noCarry_of_lt (by omega), ?_, ?_, ?_⟩
  · rw [heq]
    intro access hmem
    obtain ⟨i, hlt, rfl⟩ := List.mem_map.mp hmem
    exact List.mem_range.mp hlt
  · rw [heq]
    intro access hmem
    obtain ⟨i, hlt, rfl⟩ := List.mem_map.mp hmem
    exact Nat.mod_lt _ (by omega)
  · rw [heq, List.map_map]
    refine List.Nodup.map_on ?_ List.nodup_range
    intro i hi' j hj' he
    have hlt := List.mem_range.mp hi'
    have hlt' := List.mem_range.mp hj'
    exact cell_inj (by omega) (by omega) he

/-! ## One state -/

/-- A batch push stores the elements it accepts in distinct slots that are not occupied,
and nowhere else. -/
structure PushInBounds (rb : RingBuffer σ) (b : Batch σ) : Prop where
  accepted : (toPush rb b.count).toNat = min b.count.toNat (ringBufferAvailable rb).toNat
  copy : CopyInBounds rb rb.head (toPush rb b.count)
  stores : (ringBufferPushBatch rb b).2.buffer =
    (copyAccesses rb rb.head (toPush rb b.count)).foldl (storeAt b.samples) rb.buffer
  free : ∀ access ∈ copyAccesses rb rb.head (toPush rb b.count), ∀ i,
    i < (ringBufferCount rb).toNat → access.2 ≠ (rb.tail.toNat + i) % rb.capacity.toNat
  others : ∀ slot, slot ∉ (copyAccesses rb rb.head (toPush rb b.count)).map Prod.snd →
    (ringBufferPushBatch rb b).2.buffer slot = rb.buffer slot

/-- A batch pop loads as many elements as it hands out. -/
structure PopInBounds (rb : RingBuffer σ) (count : UInt32) : Prop where
  accepted : (toPop rb count).toNat = min count.toNat (ringBufferCount rb).toNat
  copy : CopyInBounds rb rb.tail (toPop rb count)
  loads : (ringBufferPopBatch rb count).1.2.2 =
    (copyAccesses rb rb.tail (toPop rb count)).map fun access => rb.buffer access.2
  others : (ringBufferPopBatch rb count).2.buffer = rb.buffer

/-- Everything the operations compute and touch is in range; a single push stores at
`head` and a single pop loads at `tail`. -/
structure InBounds (rb : RingBuffer σ) : Prop where
  head : rb.head.toNat < rb.capacity.toNat
  tail : rb.tail.toNat < rb.capacity.toNat
  next : NoCarry rb.head 1 ∧ NoCarry rb.tail 1
  available : NoBorrow rb.capacity (ringBufferCount rb) ∧
    NoBorrow (rb.capacity - ringBufferCount rb) 1
  pushBatch : ∀ b, PushInBounds rb b
  popBatch : ∀ count, PopInBounds rb count

theorem RingBuffer.WF.pushInBounds (h : rb.WF) (b : Batch σ) : PushInBounds rb b := by
  have hholds := h.holds
  have hcount := h.count_lt
  have havail := h.available_toNat
  have hb := b.readable
  have hto : (toPush rb b.count).toNat = min b.count.toNat (ringBufferAvailable rb).toNat := by
    have := hholds.toPush_toNat b.count
    rw [List.length_map, List.length_range] at this
    rw [toPush, this, havail]
  have hlt : (toPush rb b.count).toNat < rb.capacity.toNat := by omega
  have heq := copyAccesses_eq h.head (Nat.le_of_lt hlt)
  have hfits : (toPush rb b.count).toNat ≤ b.samples.length := by omega
  have hbuffer : (ringBufferPushBatch rb b).2.buffer =
      write rb.capacity.toNat rb.buffer rb.head.toNat (b.samples.take (toPush rb b.count).toNat) := by
    have hk : (toPush rb b.count).toNat = min b.count.toNat (rb.capacity.toNat - 1 -
        ((List.range (ringBufferCount rb).toNat).map
          fun i => rb.buffer ((rb.tail.toNat + i) % rb.capacity.toNat)).length) := by
      rw [List.length_map, List.length_range, hto, havail]
    rw [hholds.pushBatch_eq b hk, RingBuffer.accept, Batch.items, List.take_take,
      Nat.min_eq_left (by omega)]
  refine ⟨hto, copyInBounds h h.head hlt, ?_, ?_, ?_⟩
  · rw [hbuffer, heq, foldl_storeAt _ _ _ hfits]
  · rw [heq]
    intro access hmem i hi he
    obtain ⟨j, hj, rfl⟩ := List.mem_map.mp hmem
    have hj := List.mem_range.mp hj
    rw [hholds.free, List.length_map, List.length_range] at he
    have := cell_inj (by omega) (by omega) he
    omega
  · intro slot hslot
    rw [hbuffer]
    refine write_of_ne ?_
    intro i hi he
    rw [List.length_take_of_le hfits] at hi
    refine hslot ?_
    rw [heq, List.map_map]
    exact List.mem_map.mpr ⟨i, List.mem_range.mpr hi, he⟩

theorem RingBuffer.WF.popInBounds (h : rb.WF) (count : UInt32) : PopInBounds rb count := by
  have hcount := h.count_lt
  have hto : (toPop rb count).toNat = min count.toNat (ringBufferCount rb).toNat := by
    have := h.holds.toPop_toNat count
    rw [List.length_map, List.length_range] at this
    rw [toPop, this]
  have hlt : (toPop rb count).toNat < rb.capacity.toNat := by omega
  have hk : (toPop rb count).toNat = min count.toNat
      ((List.range (ringBufferCount rb).toNat).map
        fun i => rb.buffer ((rb.tail.toNat + i) % rb.capacity.toNat)).length := by
    rw [List.length_map, List.length_range, hto]
  refine ⟨hto, copyInBounds h h.tail hlt, ?_, ?_⟩
  · rw [h.holds.popBatch_eq count hk, copyAccesses_eq h.tail (Nat.le_of_lt hlt), List.map_map,
      ← List.map_take, List.take_range, Nat.min_eq_left (by omega)]
    rfl
  · rw [h.holds.popBatch_eq count hk]
    rfl

theorem RingBuffer.WF.inBounds (h : rb.WF) : InBounds rb := by
  have hle := h.le_pow
  have hhead := h.head
  have htail := h.tail
  have hcount := h.count_lt
  refine ⟨hhead, htail, ⟨?_, ?_⟩, ⟨?_, ?_⟩, h.pushInBounds, h.popInBounds⟩
  · exact noCarry_of_lt (by simp; omega)
  · exact noCarry_of_lt (by simp; omega)
  · exact noBorrow_of_le (by omega)
  · have hsub := UInt32.toNat_sub_of_le rb.capacity (ringBufferCount rb)
      (UInt32.le_iff_toNat_le.mpr (by omega))
    exact noBorrow_of_le (by rw [hsub]; simp; omega)

/-! ## All states -/

/-- Every operation keeps a ring well formed, and its capacity. -/
theorem RingBuffer.WF.apply (h : rb.WF) (op : RingOp σ) :
    (rb.apply op).2.WF ∧ (rb.apply op).2.capacity = rb.capacity := by
  obtain ⟨q, hq⟩ : ∃ q, rb.Holds q := ⟨_, h.holds⟩
  have hroom := hq.room
  have hf : rb.Refines (⟨q, rb.dropped.toNat, by omega⟩ : Fifo σ (rb.capacity.toNat - 1)) :=
    ⟨hq, by omega, (Nat.mod_eq_of_lt rb.dropped.toNat_lt).symm⟩
  obtain ⟨_, hnext⟩ := hf.apply op
  exact ⟨hnext.holds.wf, UInt32.toNat_inj.mp (hnext.places.trans hf.places.symm)⟩

/-- The ring after an operation. -/
def RingBuffer.next (rb : RingBuffer σ) (op : RingOp σ) : Option (RingBuffer σ) :=
  some (rb.apply op).2

/-- For every request of at most `2^31`, `ring_buffer_create` settles on the least power of
two that is not below it, nor below 2, and in every state the created ring gets into by
any sequence of operations all index arithmetic and all accesses are in range. -/
theorem index_bounds (c : UInt32) (hc : c.toNat ≤ 2 ^ 31) (fuel : Nat) (hf : 32 ≤ fuel) :
    ∃ k N, normalizeCapacity fuel c = some N ∧ N.toNat = 2 ^ k ∧ max c.toNat 2 ≤ 2 ^ k ∧
      (∀ m, max c.toNat 2 ≤ 2 ^ m → 2 ^ k ≤ 2 ^ m) ∧
      ∀ control (data : UInt32 → Option (Nat → σ)) rb,
        ringBufferCreate fuel c control data = some (some rb) →
          ∀ rb', Runs.Reaches RingBuffer.next rb rb' →
            rb'.capacity = N ∧ rb'.mask = N - 1 ∧ InBounds rb' := by
  obtain ⟨k, N, hN, hk1, hk, hNk, hle, hleast⟩ := normalizeCapacity_eq hc hf
  refine ⟨k, N, hN, hNk, hle, ?_, ?_⟩
  · intro m hm
    exact Nat.pow_le_pow_right (by decide) (hleast m hm)
  · intro control data rb hrb rb' hreach
    obtain ⟨hfresh, hcap⟩ := ringBufferCreate_fresh hN hk1 hk hNk hrb
    have hinv : rb'.WF ∧ rb'.capacity = N := by
      refine hreach.invariant (I := fun r => r.WF ∧ r.capacity = N) ?_ ⟨hfresh.wf, hcap⟩
      intro s op t hs ht
      cases ht
      obtain ⟨hwf, hsame⟩ := hs.1.apply op
      exact ⟨hwf, hsame.trans hs.2⟩
    refine ⟨hinv.2, ?_, hinv.1.inBounds⟩
    rw [hinv.1.mask, hinv.2]

/-- The ring of capacity 4 for a request of 3, after two pushes. -/
theorem index_bounds_three : ∃ rb : RingBuffer Nat,
    ringBufferCreate 32 3 true (fun _ => some fun _ => 0) = some (some rb) ∧
      InBounds ((rb.apply (.push 7)).2.apply (.push 8)).2 := by
  obtain ⟨k, N, hN, _, _, _, h⟩ := index_bounds (σ := Nat) 3 (by decide) 32 (by decide)
  refine ⟨_, rfl, ?_⟩
  exact (h true (fun _ => some fun _ => 0) _ rfl _ ⟨[.push 7, .push 8], rfl⟩).2.2

end FastRing
