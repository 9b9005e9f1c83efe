import FastRing.RingBuffer

/-! # Well-formed rings and what they hold

`RingBuffer.WF` is what `ring_buffer_create` establishes and every operation
keeps: a power-of-two capacity, the matching mask, both indices below it. On a
well-formed ring masking is reduction modulo the capacity, and the machine
arithmetic on indices is arithmetic in `Nat`. `RingBuffer.Holds rb q` adds the
contents: the samples of `q`, oldest first, stand in the slots from `tail` on,
and `head` is the slot after them. -/

namespace FastRing

open Cyclic

variable {σ : Type}

/-- A ring with a power-of-two capacity, its mask, and indices in range. -/
structure RingBuffer.WF (rb : RingBuffer σ) : Prop where
  pow : ∃ k, 1 ≤ k ∧ k ≤ 31 ∧ rb.capacity.toNat = 2 ^ k
  mask : rb.mask = rb.capacity - 1
  head : rb.head.toNat < rb.capacity.toNat
  tail : rb.tail.toNat < rb.capacity.toNat

namespace RingBuffer.WF

variable {rb : RingBuffer σ}

theorem two_le (h : rb.WF) : 2 ≤ rb.capacity.toNat := by
  obtain ⟨k, hk, _, hc⟩ := h.pow
  rw [hc]
  exact Nat.pow_le_pow_right (n := 2) (by decide) hk

theorem le_pow (h : rb.WF) : rb.capacity.toNat ≤ 2 ^ 31 := by
  obtain ⟨k, _, hk, hc⟩ := h.pow
  rw [hc]
  exact Nat.pow_le_pow_right (by decide) hk

theorem dvd_word (h : rb.WF) : rb.capacity.toNat ∣ 2 ^ 32 := by
  obtain ⟨k, _, hk, hc⟩ := h.pow
  rw [hc]
  exact Nat.pow_dvd_pow 2 (by omega)

theorem mask_toNat (h : rb.WF) : rb.mask.toNat = rb.capacity.toNat - 1 := by
  have h1 : (1 : UInt32) ≤ rb.capacity := by
    rw [UInt32.le_iff_toNat_le]
    have := h.two_le
    simpa using by omega
  rw [h.mask, UInt32.toNat_sub_of_le _ _ h1]
  rfl

/-- Masking reduces modulo the capacity. -/
theorem and_mask (h : rb.WF) (x : UInt32) : (x &&& rb.mask).toNat = x.toNat % rb.capacity.toNat := by
  obtain ⟨k, _, _, hc⟩ := h.pow
  rw [UInt32.toNat_and, h.mask_toNat, hc, Nat.and_two_pow_sub_one_eq_mod]

/-- Advancing an index: the 32-bit wrap-around is invisible after masking. -/
theorem advance (h : rb.WF) (x n : UInt32) :
    ((x + n) &&& rb.mask).toNat = (x.toNat + n.toNat) % rb.capacity.toNat := by
  rw [h.and_mask, UInt32.toNat_add, Nat.mod_mod_of_dvd _ h.dvd_word]

theorem advance_one (h : rb.WF) (x : UInt32) :
    ((x + 1) &&& rb.mask).toNat = (x.toNat + 1) % rb.capacity.toNat :=
  h.advance x 1

theorem advance_lt (h : rb.WF) (x n : UInt32) :
    ((x + n) &&& rb.mask).toNat < rb.capacity.toNat := by
  rw [h.advance]
  exact Nat.mod_lt _ (by have := h.two_le; omega)

/-- The masked difference of two indices in range is their distance going up. -/
theorem distance (h : rb.WF) {a b : UInt32} {n : Nat} (hn : n < rb.capacity.toNat)
    (ha : a.toNat = (b.toNat + n) % rb.capacity.toNat) :
    ((a - b) &&& rb.mask).toNat = n := by
  rw [h.and_mask, UInt32.toNat_sub, Nat.mod_mod_of_dvd _ h.dvd_word, Nat.add_mod, ha,
    Nat.mod_mod, ← Nat.add_mod]
  have hb := UInt32.toNat_lt b
  rw [show 2 ^ 32 - b.toNat + (b.toNat + n) = n + 2 ^ 32 by omega, Nat.add_mod,
    Nat.mod_eq_zero_of_dvd h.dvd_word, Nat.add_zero, Nat.mod_mod, Nat.mod_eq_of_lt hn]

theorem count_lt (h : rb.WF) : (ringBufferCount rb).toNat < rb.capacity.toNat := by
  unfold ringBufferCount
  rw [h.and_mask]
  exact Nat.mod_lt _ (by have := h.two_le; omega)

/-- The head is `count` slots past the tail. -/
theorem head_eq (h : rb.WF) :
    rb.head.toNat = (rb.tail.toNat + (ringBufferCount rb).toNat) % rb.capacity.toNat := by
  have hh := h.head
  have ht := h.tail
  have hN := h.two_le
  -- going up from the tail, the head lies less than one turn away
  obtain ⟨n, hn, he⟩ : ∃ n, n < rb.capacity.toNat ∧
      rb.head.toNat = (rb.tail.toNat + n) % rb.capacity.toNat := by
    by_cases hle : rb.tail.toNat ≤ rb.head.toNat
    · refine ⟨rb.head.toNat - rb.tail.toNat, by omega, ?_⟩
      rw [show rb.tail.toNat + (rb.head.toNat - rb.tail.toNat) = rb.head.toNat by omega,
        Nat.mod_eq_of_lt hh]
    · refine ⟨rb.head.toNat + rb.capacity.toNat - rb.tail.toNat, by omega, ?_⟩
      rw [show rb.tail.toNat + (rb.head.toNat + rb.capacity.toNat - rb.tail.toNat) =
        rb.head.toNat + rb.capacity.toNat by omega, Nat.add_mod_right, Nat.mod_eq_of_lt hh]
  rw [show (ringBufferCount rb).toNat = n from h.distance hn he, he]

theorem available_toNat (h : rb.WF) :
    (ringBufferAvailable rb).toNat = rb.capacity.toNat - 1 - (ringBufferCount rb).toNat := by
  have hc := h.count_lt
  have h1 : ringBufferCount rb ≤ rb.capacity := by rw [UInt32.le_iff_toNat_le]; omega
  have hd := UInt32.toNat_sub_of_le _ _ h1
  have h2 : (1 : UInt32) ≤ rb.capacity - ringBufferCount rb := by
    rw [UInt32.le_iff_toNat_le, hd]; simpa using by omega
  unfold ringBufferAvailable
  rw [UInt32.toNat_sub_of_le _ _ h2, hd]
  simp only [UInt32.toNat_one]; omega

/-- The distance from an index in range to the end of the slot array. -/
theorem wrapPoint {i : UInt32} (hi : i.toNat < rb.capacity.toNat) :
    (rb.capacity - i).toNat = rb.capacity.toNat - i.toNat :=
  UInt32.toNat_sub_of_le _ _ (by rw [UInt32.le_iff_toNat_le]; omega)

theorem firstChunk_toNat {i : UInt32} (hi : i.toNat < rb.capacity.toNat) (n : UInt32) :
    (firstChunk rb i n).toNat = min n.toNat (rb.capacity.toNat - i.toNat) := by
  unfold firstChunk
  simp only [gt_iff_lt, UInt32.lt_iff_toNat_lt, wrapPoint hi]
  split
  · rw [wrapPoint hi]; omega
  · omega

end RingBuffer.WF

/-! ## The two-chunk copies -/

theorem Batch.items_length (b : Batch σ) : b.items.length = b.count.toNat := by
  rw [Batch.items, List.length_take, Nat.min_eq_left b.readable]

theorem Batch.ofList_count {xs : List σ} (h : xs.length < 2 ^ 32) :
    (Batch.ofList xs).count.toNat = xs.length := by
  rw [Batch.ofList, UInt32.toNat_ofNat', Nat.mod_eq_of_lt h]

theorem Batch.ofList_items {xs : List σ} (h : xs.length < 2 ^ 32) : (Batch.ofList xs).items = xs := by
  rw [Batch.items, Batch.ofList_count h]; exact List.take_length

theorem memcpy_eq_write {N : Nat} {buffer : Nat → σ} {dst : Nat} {xs : List σ}
    (h : dst + xs.length ≤ N) : memcpy buffer dst xs = write N buffer dst xs := by
  induction xs generalizing buffer dst with
  | nil => rfl
  | cons x xs ih =>
    simp only [List.length_cons] at h
    rw [memcpy, write, ih (by omega), Nat.mod_eq_of_lt (by omega)]

/-- Copying in, split at the end of the slot array or not, is writing slot after
slot modulo the capacity. -/
theorem copyIn_eq_write {rb : RingBuffer σ} {i n : UInt32} {xs : List σ}
    (hi : i.toNat < rb.capacity.toNat) (hn : n.toNat ≤ rb.capacity.toNat)
    (hx : n.toNat ≤ xs.length) :
    copyIn rb i n xs = write rb.capacity.toNat rb.buffer i.toNat (xs.take n.toNat) := by
  have hf := RingBuffer.WF.firstChunk_toNat hi n
  have hfst : memcpy rb.buffer i.toNat (xs.take (firstChunk rb i n).toNat) =
      write rb.capacity.toNat rb.buffer i.toNat (xs.take (firstChunk rb i n).toNat) :=
    memcpy_eq_write (by rw [List.length_take]; omega)
  unfold copyIn
  simp only [hfst]
  split
  · rename_i hlt
    have hle : firstChunk rb i n ≤ n := UInt32.le_of_lt hlt
    rw [UInt32.lt_iff_toNat_lt] at hlt
    have hsub := UInt32.toNat_sub_of_le _ _ hle
    have hsplit : xs.take n.toNat = xs.take (firstChunk rb i n).toNat ++
        (xs.drop (firstChunk rb i n).toNat).take (n - firstChunk rb i n).toNat := by
      rw [← List.take_add, hsub]; congr 1; omega
    rw [hsplit, write_append, memcpy_eq_write (N := rb.capacity.toNat)
      (by rw [List.length_take, hsub]; omega)]
    -- the second chunk starts at slot 0, where the first one wraps
    refine write_start _ ?_
    rw [List.length_take, show i.toNat + min (firstChunk rb i n).toNat xs.length =
      rb.capacity.toNat by omega, Nat.mod_self, Nat.zero_mod]
  · rename_i hge
    rw [UInt32.lt_iff_toNat_lt] at hge
    rw [show (firstChunk rb i n).toNat = n.toNat by omega]

theorem readSlots_eq {N : Nat} {buffer : Nat → σ} {src n t : Nat} (h : src + n ≤ N)
    (ht : t % N = src % N) :
    readSlots buffer src n = (List.range n).map fun i => buffer ((t + i) % N) := by
  refine List.map_congr_left fun i hi => ?_
  have := List.mem_range.mp hi
  rw [Nat.add_mod, ht, ← Nat.add_mod, Nat.mod_eq_of_lt (a := src + i) (by omega)]

/-- Copying out, split or not, reads slot after slot modulo the capacity. -/
theorem copyOut_eq {rb : RingBuffer σ} {i n : UInt32}
    (hi : i.toNat < rb.capacity.toNat) (hn : n.toNat ≤ rb.capacity.toNat) :
    copyOut rb i n =
      (List.range n.toNat).map fun j => rb.buffer ((i.toNat + j) % rb.capacity.toNat) := by
  have hf := RingBuffer.WF.firstChunk_toNat hi n
  have hfst : readSlots rb.buffer i.toNat (firstChunk rb i n).toNat = _ :=
    readSlots_eq (show i.toNat + _ ≤ rb.capacity.toNat by omega) rfl
  unfold copyOut
  simp only [hfst]
  split
  · rename_i hlt
    have hsub := UInt32.toNat_sub_of_le _ _ (UInt32.le_of_lt hlt)
    rw [UInt32.lt_iff_toNat_lt] at hlt
    have hw : (i.toNat + (firstChunk rb i n).toNat) % rb.capacity.toNat =
        0 % rb.capacity.toNat := by
      rw [show i.toNat + (firstChunk rb i n).toNat = rb.capacity.toNat by omega, Nat.mod_self,
        Nat.zero_mod]
    rw [readSlots_eq (by omega) hw, hsub, show n.toNat = (firstChunk rb i n).toNat +
      (n.toNat - (firstChunk rb i n).toNat) by omega, List.range_add, List.map_append, List.map_map]
    simp only [Nat.add_sub_cancel_left, Nat.add_assoc]
    rfl
  · rename_i hge
    rw [UInt32.lt_iff_toNat_lt] at hge
    rw [show (firstChunk rb i n).toNat = n.toNat by omega]

/-- The slots of a copy are consecutive modulo the capacity. -/
theorem slotAt_eq {rb : RingBuffer σ} {index n : UInt32} {i : Nat}
    (hx : index.toNat < rb.capacity.toNat) (hn : i < rb.capacity.toNat) (hi : i < n.toNat) :
    slotAt rb index n i = (index.toNat + i) % rb.capacity.toNat := by
  have hf := RingBuffer.WF.firstChunk_toNat hx n
  unfold slotAt
  simp only
  split
  · rw [Nat.mod_eq_of_lt (by omega)]
  · rw [Nat.mod_eq_sub_mod (by omega), Nat.mod_eq_of_lt (by omega)]; omega

/-! ## Contents -/

/-- The ring holds exactly the samples of `q`, oldest first. -/
structure RingBuffer.Holds (rb : RingBuffer σ) (q : List σ) : Prop where
  wf : rb.WF
  room : q.length < rb.capacity.toNat
  head : rb.head.toNat = (rb.tail.toNat + q.length) % rb.capacity.toNat
  slots : Window rb.capacity.toNat rb.buffer rb.tail.toNat q

namespace RingBuffer.Holds

variable {rb : RingBuffer σ} {q : List σ}

theorem count (h : rb.Holds q) : (ringBufferCount rb).toNat = q.length :=
  h.wf.distance h.room h.head

theorem available (h : rb.Holds q) :
    (ringBufferAvailable rb).toNat = rb.capacity.toNat - 1 - q.length := by
  rw [h.wf.available_toNat, h.count]

/-- An index `n` slots past the tail is the tail only when `n` is 0 or a full turn. -/
theorem tail_eq_iff (h : rb.Holds q) {n : Nat} (hn : n ≤ rb.capacity.toNat) :
    (rb.tail.toNat + n) % rb.capacity.toNat = rb.tail.toNat ↔ n = 0 ∨ n = rb.capacity.toNat :=
  cell_eq_start_iff h.wf.tail hn

theorem empty_iff (h : rb.Holds q) : rb.head = rb.tail ↔ q.length = 0 := by
  rw [← UInt32.toNat_inj, h.head, h.tail_eq_iff (Nat.le_of_lt h.room)]
  have := h.room
  omega

theorem full_iff (h : rb.Holds q) :
    (rb.head + 1) &&& rb.mask = rb.tail ↔ q.length = rb.capacity.toNat - 1 := by
  have hr := h.room
  have hN := h.wf.two_le
  rw [← UInt32.toNat_inj, h.wf.advance_one, h.head, Nat.mod_add_mod, Nat.add_assoc,
    h.tail_eq_iff (by omega)]
  omega

/-- The free slots are those from the head on, up to one turn past the tail. -/
theorem free (h : rb.Holds q) (j : Nat) :
    (rb.head.toNat + j) % rb.capacity.toNat =
      (rb.tail.toNat + (q.length + j)) % rb.capacity.toNat := by
  rw [h.head, Nat.mod_add_mod, Nat.add_assoc]

theorem empty {rb : RingBuffer σ} (h : rb.WF) (he : rb.head = rb.tail) : rb.Holds [] := by
  refine ⟨h, ?_, ?_, Window.nil _ _ _⟩
  · have := h.two_le; simpa using by omega
  · rw [he, List.length_nil, Nat.add_zero, Nat.mod_eq_of_lt h.tail]

theorem setDropped (h : rb.Holds q) (d : UInt64) :
    RingBuffer.Holds { rb with dropped := d } q :=
  ⟨⟨h.wf.pow, h.wf.mask, h.wf.head, h.wf.tail⟩, h.room, h.head, h.slots⟩

/-- Writing a free slot keeps the contents. -/
theorem write (h : rb.Holds q) {j : Nat} (hj : q.length + j < rb.capacity.toNat) (x : σ) :
    RingBuffer.Holds { rb with
      buffer := Function.update rb.buffer ((rb.head.toNat + j) % rb.capacity.toNat) x } q := by
  refine ⟨⟨h.wf.pow, h.wf.mask, h.wf.head, h.wf.tail⟩, h.room, h.head, ?_⟩
  rw [h.free]
  exact h.slots.update (Nat.le_add_right _ _) hj x

/-- Storing the head publishes what was written in the slots from the old head on. -/
theorem publish (h : rb.Holds q) {xs : List σ} {n : UInt32} (hn : n.toNat = xs.length)
    (hw : Window rb.capacity.toNat rb.buffer rb.head.toNat xs)
    (hx : q.length + xs.length < rb.capacity.toNat) :
    RingBuffer.Holds { rb with head := (rb.head + n) &&& rb.mask } (q ++ xs) := by
  have hnew : ((rb.head + n) &&& rb.mask).toNat =
      (rb.tail.toNat + (q.length + xs.length)) % rb.capacity.toNat := by
    rw [h.wf.advance, hn, h.free]
  refine ⟨⟨h.wf.pow, h.wf.mask, h.wf.advance_lt _ _, h.wf.tail⟩, ?_, ?_, ?_⟩
  · rw [List.length_append]; exact hx
  · rw [List.length_append]; exact hnew
  · refine h.slots.append (hw.start ?_)
    rw [h.head, Nat.mod_mod]

/-- Storing the tail gives the oldest samples back to the producer. -/
theorem consume (h : rb.Holds q) {n : UInt32} (hn : n.toNat ≤ q.length) :
    RingBuffer.Holds { rb with tail := (rb.tail + n) &&& rb.mask } (q.drop n.toNat) := by
  have hnew := h.wf.advance rb.tail n
  refine ⟨⟨h.wf.pow, h.wf.mask, h.wf.head, h.wf.advance_lt _ _⟩, ?_, ?_, ?_⟩
  · have := h.room; rw [List.length_drop]; exact Nat.lt_of_le_of_lt (Nat.sub_le _ _) this
  · simp only [hnew, List.length_drop, Nat.mod_add_mod]
    rw [h.head]; congr 1; omega
  · refine (h.slots.drop n.toNat).start ?_
    rw [hnew, Nat.mod_mod]

/-- The slots from the tail on read as the contents. -/
theorem read (h : rb.Holds q) {n : Nat} (hn : n ≤ q.length) :
    ((List.range n).map fun i => rb.buffer ((rb.tail.toNat + i) % rb.capacity.toNat)) =
      q.take n := by
  apply List.ext_getElem
  · simp; omega
  · intro i h1 h2
    have hi : i < q.length := by simp at h2; omega
    simp [h.slots i hi]

end RingBuffer.Holds

end FastRing
