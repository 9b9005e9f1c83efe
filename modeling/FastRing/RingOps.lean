import FastRing.RingContents

/-! # What each ring operation does to the contents

Every operation that changes a ring either accepts samples at the head and counts
refused ones (`RingBuffer.accept`) or releases samples at the tail
(`RingBuffer.release`). The operations are rewritten in these terms, on a ring
that holds known contents, as equations between whole states. -/

namespace FastRing

open Cyclic

variable {σ : Type} {rb : RingBuffer σ} {q : List σ}

/-- The ring after the samples `xs` were stored and published, and `refused` more
were counted as dropped. -/
def RingBuffer.accept (rb : RingBuffer σ) (xs : List σ) (refused : Nat) : RingBuffer σ :=
  { rb with
    buffer := write rb.capacity.toNat rb.buffer rb.head.toNat xs
    head := (rb.head + UInt32.ofNat xs.length) &&& rb.mask
    dropped := rb.dropped + UInt64.ofNat refused }

/-- The ring after its `n` oldest samples were taken out. -/
def RingBuffer.release (rb : RingBuffer σ) (n : Nat) : RingBuffer σ :=
  { rb with tail := (rb.tail + UInt32.ofNat n) &&& rb.mask }

@[simp] theorem RingBuffer.accept_capacity (rb : RingBuffer σ) (xs : List σ) (r : Nat) :
    (rb.accept xs r).capacity = rb.capacity := rfl

theorem RingBuffer.accept_dropped (rb : RingBuffer σ) (xs : List σ) (r : Nat) :
    (rb.accept xs r).dropped.toNat = (rb.dropped.toNat + r) % 2 ^ 64 := by
  simp [RingBuffer.accept]

namespace RingBuffer.WF

/-- A masked index in range stays as it is. -/
theorem and_mask_self (h : rb.WF) {x : UInt32} (hx : x.toNat < rb.capacity.toNat) :
    x &&& rb.mask = x := by
  rw [← UInt32.toNat_inj, h.and_mask, Nat.mod_eq_of_lt hx]

/-- Masking between two advances of an index changes nothing. -/
theorem and_mask_add (h : rb.WF) (x m n : UInt32) :
    ((x + m) &&& rb.mask) + n &&& rb.mask = (x + (m + n)) &&& rb.mask := by
  rw [← UInt32.toNat_inj, h.advance, h.advance, h.advance, Nat.mod_add_mod, UInt32.toNat_add,
    Nat.add_mod x.toNat (_ % _), Nat.mod_mod_of_dvd _ h.dvd_word, ← Nat.add_mod, Nat.add_assoc]

theorem accept_nil (h : rb.WF) : rb.accept [] 0 = rb := by
  simp [RingBuffer.accept, Cyclic.write, h.and_mask_self h.head]

theorem release_zero (h : rb.WF) : rb.release 0 = rb := by
  simp [RingBuffer.release, h.and_mask_self h.tail]

theorem accept_accept (h : rb.WF) (xs ys : List σ) (r s : Nat) :
    (rb.accept xs r).accept ys s = rb.accept (xs ++ ys) (r + s) := by
  have hw : Cyclic.write rb.capacity.toNat (Cyclic.write rb.capacity.toNat rb.buffer rb.head.toNat xs)
      ((rb.head + UInt32.ofNat xs.length) &&& rb.mask).toNat ys =
      Cyclic.write rb.capacity.toNat rb.buffer rb.head.toNat (xs ++ ys) := by
    rw [write_append]
    apply write_start
    rw [h.advance, Nat.mod_mod, UInt32.toNat_ofNat', Nat.add_mod rb.head.toNat (_ % _),
      Nat.mod_mod_of_dvd _ h.dvd_word, ← Nat.add_mod]
  simp only [RingBuffer.accept, hw, h.and_mask_add, UInt32.ofNat_add, UInt64.ofNat_add,
    UInt64.add_assoc, List.length_append]

theorem release_release (h : rb.WF) (m n : Nat) :
    (rb.release m).release n = rb.release (m + n) := by
  simp [RingBuffer.release, h.and_mask_add, UInt32.ofNat_add]

/-- A well-formed ring holds the samples in its slots from `tail` up to `head`. -/
theorem holds (h : rb.WF) : rb.Holds ((List.range (ringBufferCount rb).toNat).map
    fun i => rb.buffer ((rb.tail.toNat + i) % rb.capacity.toNat)) := by
  refine ⟨h, ?_, ?_, ?_⟩
  · simpa using h.count_lt
  · simpa using h.head_eq
  · intro i hi; simp

end RingBuffer.WF

namespace RingBuffer.Holds

theorem length_lt_word (h : rb.Holds q) : q.length < 2 ^ 32 := by
  have := h.room
  have := h.wf.le_pow
  omega

theorem accept (h : rb.Holds q) (xs : List σ) (r : Nat)
    (hx : q.length + xs.length < rb.capacity.toNat) : (rb.accept xs r).Holds (q ++ xs) := by
  have hN := h.wf.le_pow
  -- the written slots stand in the free part, so they extend the window
  have hw : Window rb.capacity.toNat
      (Cyclic.write rb.capacity.toNat rb.buffer rb.head.toNat xs) rb.tail.toNat (q ++ xs) := by
    have := h.slots.write xs (Nat.le_of_lt hx)
    rwa [write_start xs (show _ = rb.head.toNat % rb.capacity.toNat by
      rw [h.head, Nat.mod_mod])] at this
  have hlen : (UInt32.ofNat xs.length).toNat = xs.length := by
    rw [UInt32.toNat_ofNat']; exact Nat.mod_eq_of_lt (by omega)
  refine ⟨⟨h.wf.pow, h.wf.mask, h.wf.advance_lt _ _, h.wf.tail⟩, ?_, ?_, hw⟩
  · rw [List.length_append]; exact hx
  · rw [List.length_append]
    change ((rb.head + _) &&& rb.mask).toNat = _
    rw [h.wf.advance, hlen, h.free]
    rfl

theorem release (h : rb.Holds q) {n : Nat} (hn : n ≤ q.length) :
    (rb.release n).Holds (q.drop n) := by
  have hlen : (UInt32.ofNat n).toNat = n := by
    rw [UInt32.toNat_ofNat']; exact Nat.mod_eq_of_lt (by have := h.length_lt_word; omega)
  have := h.consume (n := UInt32.ofNat n) (by omega)
  rwa [hlen] at this

/-! ## The operations -/

theorem push_eq (h : rb.Holds q) (x : σ) :
    ringBufferPush rb x =
      if q.length < rb.capacity.toNat - 1 then (true, rb.accept [x] 0)
      else (false, rb.accept [] 1) := by
  have hr := h.room
  unfold ringBufferPush
  simp only [h.full_iff]
  by_cases hf : q.length = rb.capacity.toNat - 1
  · simp [hf, RingBuffer.accept, Cyclic.write, h.wf.and_mask_self h.wf.head]
  · rw [if_neg hf, if_pos (by omega)]
    simp [RingBuffer.accept, Cyclic.write, Nat.mod_eq_of_lt h.wf.head]

theorem pop_eq (h : rb.Holds q) :
    ringBufferPop rb = match q with
      | [] => (none, rb)
      | x :: _ => (some x, rb.release 1) := by
  unfold ringBufferPop
  simp only [h.empty_iff]
  cases q with
  | nil => simp
  | cons x xs =>
    have hx := h.slots 0 (by simp)
    rw [Nat.add_zero, Nat.mod_eq_of_lt h.wf.tail] at hx
    simp [hx, RingBuffer.release]

/-- The number of samples a batch push accepts. -/
theorem toPush_toNat (h : rb.Holds q) (n : UInt32) :
    (if n < ringBufferAvailable rb then n else ringBufferAvailable rb).toNat =
      min n.toNat (rb.capacity.toNat - 1 - q.length) := by
  have ha := h.available
  split
  · rename_i hlt; rw [UInt32.lt_iff_toNat_lt] at hlt; omega
  · rename_i hge; rw [UInt32.lt_iff_toNat_lt] at hge; omega

/-- The number of samples a batch pop takes out. -/
theorem toPop_toNat (h : rb.Holds q) (n : UInt32) :
    (if n < ringBufferCount rb then n else ringBufferCount rb).toNat = min n.toNat q.length := by
  have hc := h.count
  split
  · rename_i hlt; rw [UInt32.lt_iff_toNat_lt] at hlt; omega
  · rename_i hge; rw [UInt32.lt_iff_toNat_lt] at hge; omega

/-- A batch push accepts the longest part of the batch that fits, counts the rest,
and reports success when there was something and all of it fitted. -/
theorem pushBatch_eq (h : rb.Holds q) (b : Batch σ) {k : Nat}
    (hk : k = min b.count.toNat (rb.capacity.toNat - 1 - q.length)) :
    ringBufferPushBatch rb b =
      ((decide (b.count ≠ 0 ∧ k = b.count.toNat), UInt32.ofNat k),
        rb.accept (b.items.take k) (b.count.toNat - k)) := by
  have hr := h.room
  have hb := b.readable
  have hN := h.wf.le_pow
  have htp := h.toPush_toNat b.count
  have hmask := h.wf.and_mask_self h.wf.head
  unfold ringBufferPushBatch
  by_cases h0 : b.count = 0
  · have : k = 0 := by rw [hk, h0]; simp
    subst this
    simp [h0, h.wf.accept_nil]
  · rw [if_neg h0]
    simp only
    -- name what the code computes as `to_push`
    generalize (if b.count < ringBufferAvailable rb then b.count else ringBufferAvailable rb) = toPush
      at htp
    have hke : k = toPush.toNat := by omega
    subst hke
    have hof : UInt32.ofNat toPush.toNat = toPush := UInt32.ofNat_toNat
    have hle : toPush ≤ b.count := by rw [UInt32.le_iff_toNat_le]; omega
    by_cases hz : toPush = 0
    · subst hz
      have hne' : ¬ 0 = b.count.toNat := fun he => h0 (by rw [← UInt32.toNat_inj, ← he]; rfl)
      simp [RingBuffer.accept, Cyclic.write, hmask, hne']
    · have hfit : toPush.toNat ≤ b.samples.length := by omega
      have hcopy := copyIn_eq_write h.wf.head (show toPush.toNat ≤ rb.capacity.toNat by omega) hfit
      have hitems : b.items.take toPush.toNat = b.samples.take toPush.toNat := by
        rw [Batch.items, List.take_take, Nat.min_eq_left (by omega)]
      rw [if_neg hz, hitems, RingBuffer.accept, ← hcopy, List.length_take,
        Nat.min_eq_left (by omega), hof]
      have hdrop : (if toPush < b.count then rb.dropped + (b.count - toPush).toUInt64
          else rb.dropped) = rb.dropped + UInt64.ofNat (b.count.toNat - toPush.toNat) := by
        rw [← UInt32.toNat_sub_of_le _ _ hle, UInt64.ofNat_uInt32ToNat]
        split
        · rfl
        · rename_i hge
          rw [UInt32.le_antisymm hle (UInt32.not_lt.mp hge)]; simp
      rw [hdrop]
      simp [h0, UInt32.toNat_inj, beq_eq_decide]

/-- A batch pop takes out the oldest samples, at most as many as asked for. -/
theorem popBatch_eq (h : rb.Holds q) (count : UInt32) {k : Nat}
    (hk : k = min count.toNat q.length) :
    ringBufferPopBatch rb count =
      ((decide (0 < k), UInt32.ofNat k, q.take k), rb.release k) := by
  have hr := h.room
  have htp := h.toPop_toNat count
  unfold ringBufferPopBatch
  by_cases h0 : count = 0
  · have : k = 0 := by rw [hk, h0]; simp
    subst this
    simp [h0, h.wf.release_zero]
  · rw [if_neg h0]
    simp only
    generalize (if count < ringBufferCount rb then count else ringBufferCount rb) = toPop at htp
    have hke : k = toPop.toNat := by omega
    subst hke
    by_cases hz : toPop = 0
    · subst hz
      simp [h.wf.release_zero]
    · have hpos : 0 < toPop.toNat := Nat.pos_of_ne_zero fun he =>
        hz (by rw [← UInt32.toNat_inj, he]; rfl)
      have hcopy := copyOut_eq h.wf.tail (show toPop.toNat ≤ rb.capacity.toNat by omega)
      rw [h.read (by omega)] at hcopy
      rw [if_neg hz, hcopy, RingBuffer.release, UInt32.ofNat_toNat]
      simp [hpos, UInt32.lt_iff_toNat_lt]

end RingBuffer.Holds

end FastRing
