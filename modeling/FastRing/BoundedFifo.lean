import FastRing.RingOps
import FastRing.RingCreate

/-! # The ring buffer refines a bounded queue

`Fifo` says what a ring buffer is for: a list of at most `n` samples, appended at
one end and taken from the other, with a count of the samples refused because it
was full. A created ring answers every sequence of operations as the queue with
one place less than its capacity does. -/

namespace FastRing

variable {σ : Type}

/-! ## The abstract queue -/

/-- A queue of at most `n` samples and a count of the refused ones. -/
structure Fifo (σ : Type) (n : Nat) where
  items : List σ
  drops : Nat
  bounded : items.length ≤ n

namespace Fifo

variable {n : Nat}

def empty (σ : Type) (n : Nat) : Fifo σ n := ⟨[], 0, Nat.zero_le n⟩

def push (f : Fifo σ n) (x : σ) : Bool × Fifo σ n :=
  if h : f.items.length < n then
    (true, ⟨f.items ++ [x], f.drops, by rw [List.length_append]; exact h⟩)
  else (false, { f with drops := f.drops + 1 })

def pop (f : Fifo σ n) : Option σ × Fifo σ n :=
  (f.items.head?, { f with
    items := f.items.tail
    bounded := Nat.le_trans (by simp) f.bounded })

/-- Append the longest part of `xs` that fits and count the rest. -/
def pushBatch (f : Fifo σ n) (xs : List σ) : (Bool × Nat) × Fifo σ n :=
  let fits := min xs.length (n - f.items.length)
  ((decide (xs.length ≤ n - f.items.length ∧ 0 < xs.length), fits),
    { items := f.items ++ xs.take fits
      drops := f.drops + (xs.length - fits)
      bounded := by have := f.bounded; rw [List.length_append, List.length_take]; omega })

def popBatch (f : Fifo σ n) (count : Nat) : (Bool × Nat × List σ) × Fifo σ n :=
  ((decide (0 < min count f.items.length), min count f.items.length, f.items.take count),
    { f with
      items := f.items.drop count
      bounded := Nat.le_trans (by simp) f.bounded })

end Fifo

/-! ## Sequences of operations -/

/-- The operations a sequential client can call. -/
inductive RingOp (σ : Type) where
  | push (sample : σ)
  | pop
  | pushBatch (b : Batch σ)
  | popBatch (count : UInt32)
  | clear
  | count
  | available
  | isEmpty
  | isFull

/-- What a client sees of an operation: its result and its out parameters. -/
inductive Reply (σ : Type) where
  | flag (b : Bool)
  | sample (x : Option σ)
  | pushed (all : Bool) (pushed : Nat)
  | popped (some : Bool) (popped : Nat) (samples : List σ)
  | number (n : Nat)
  | done

def RingBuffer.apply (rb : RingBuffer σ) : RingOp σ → Reply σ × RingBuffer σ
  | .push x => let r := ringBufferPush rb x; (.flag r.1, r.2)
  | .pop => let r := ringBufferPop rb; (.sample r.1, r.2)
  | .pushBatch b => let r := ringBufferPushBatch rb b; (.pushed r.1.1 r.1.2.toNat, r.2)
  | .popBatch count =>
    let r := ringBufferPopBatch rb count; (.popped r.1.1 r.1.2.1.toNat r.1.2.2, r.2)
  | .clear => (.done, ringBufferClear rb)
  | .count => (.number (ringBufferCount rb).toNat, rb)
  | .available => (.number (ringBufferAvailable rb).toNat, rb)
  | .isEmpty => (.flag (ringBufferIsEmpty rb), rb)
  | .isFull => (.flag (ringBufferIsFull rb), rb)

def Fifo.apply {n : Nat} (f : Fifo σ n) : RingOp σ → Reply σ × Fifo σ n
  | .push x => let r := f.push x; (.flag r.1, r.2)
  | .pop => let r := f.pop; (.sample r.1, r.2)
  | .pushBatch b => let r := f.pushBatch b.items; (.pushed r.1.1 r.1.2, r.2)
  | .popBatch count => let r := f.popBatch count.toNat; (.popped r.1.1 r.1.2.1 r.1.2.2, r.2)
  | .clear => (.done, .empty σ n)
  | .count => (.number f.items.length, f)
  | .available => (.number (n - f.items.length), f)
  | .isEmpty => (.flag (decide (f.items.length = 0)), f)
  | .isFull => (.flag (decide (f.items.length = n)), f)

/-- The replies to a sequence of operations, each with the drop counter after it. -/
def RingBuffer.trace (rb : RingBuffer σ) : List (RingOp σ) → List (Reply σ × Nat)
  | [] => []
  | op :: ops =>
    ((rb.apply op).1, (rb.apply op).2.dropped.toNat) :: (rb.apply op).2.trace ops

def Fifo.trace {n : Nat} (f : Fifo σ n) : List (RingOp σ) → List (Reply σ × Nat)
  | [] => []
  | op :: ops => ((f.apply op).1, (f.apply op).2.drops % 2 ^ 64) :: (f.apply op).2.trace ops

/-! ## The refinement -/

/-- The ring holds the queue's samples, has one slot more than the queue has places,
and its drop counter is the queue's modulo `2^64`. -/
structure RingBuffer.Refines {n : Nat} (rb : RingBuffer σ) (f : Fifo σ n) : Prop where
  holds : rb.Holds f.items
  places : rb.capacity.toNat = n + 1
  dropped : rb.dropped.toNat = f.drops % 2 ^ 64

namespace RingBuffer.Refines

variable {n : Nat} {rb : RingBuffer σ} {f : Fifo σ n}

theorem push (h : rb.Refines f) (x : σ) :
    (ringBufferPush rb x).1 = (f.push x).1 ∧ (ringBufferPush rb x).2.Refines (f.push x).2 := by
  have hp := h.places
  rw [h.holds.push_eq, show rb.capacity.toNat - 1 = n by omega]
  unfold Fifo.push
  by_cases hr : f.items.length < n
  · rw [if_pos hr, dif_pos hr]
    refine ⟨rfl, h.holds.accept [x] 0 (by simp; omega), hp, ?_⟩
    rw [RingBuffer.accept_dropped, h.dropped, Nat.add_zero, Nat.mod_mod]
  · rw [if_neg hr, dif_neg hr]
    refine ⟨rfl, ?_, hp, ?_⟩
    · have := h.holds.accept [] 1 (by simpa using h.holds.room)
      rwa [List.append_nil] at this
    · rw [RingBuffer.accept_dropped, h.dropped, Nat.mod_add_mod]

theorem pop (h : rb.Refines f) :
    (ringBufferPop rb).1 = f.pop.1 ∧ (ringBufferPop rb).2.Refines f.pop.2 := by
  obtain ⟨items, drops, bounded⟩ := f
  obtain ⟨hh, hp, hd⟩ := h
  simp only at hh hd
  rw [hh.pop_eq]
  cases items with
  | nil => exact ⟨rfl, hh, hp, hd⟩
  | cons x xs => exact ⟨rfl, hh.release (n := 1) (by simp), hp, hd⟩

theorem pushBatch (h : rb.Refines f) (b : Batch σ) :
    (ringBufferPushBatch rb b).1.1 = (f.pushBatch b.items).1.1 ∧
      (ringBufferPushBatch rb b).1.2.toNat = (f.pushBatch b.items).1.2 ∧
      (ringBufferPushBatch rb b).2.Refines (f.pushBatch b.items).2 := by
  have hp := h.places
  have hr := h.holds.room
  have hN := h.holds.wf.le_pow
  have hlen := b.items_length
  have h0 : b.count ≠ 0 ↔ 0 < b.count.toNat := by
    rw [Nat.pos_iff_ne_zero, Ne, Ne, ← UInt32.toNat_inj]; rfl
  obtain ⟨k, hk⟩ : ∃ k, k = min b.count.toNat (rb.capacity.toNat - 1 - f.items.length) := ⟨_, rfl⟩
  have hfit : min b.items.length (n - f.items.length) = k := by rw [hlen]; omega
  rw [h.holds.pushBatch_eq b hk]
  unfold Fifo.pushBatch
  simp only [hfit, h0]
  refine ⟨?_, ?_, ?_, hp, ?_⟩
  · rw [hlen, decide_eq_decide]; omega
  · rw [UInt32.toNat_ofNat']; exact Nat.mod_eq_of_lt (by omega)
  · exact h.holds.accept _ _ (by rw [List.length_take]; omega)
  · rw [RingBuffer.accept_dropped, h.dropped, Nat.mod_add_mod, ← hlen]

theorem popBatch (h : rb.Refines f) (count : UInt32) :
    (ringBufferPopBatch rb count).1.1 = (f.popBatch count.toNat).1.1 ∧
      (ringBufferPopBatch rb count).1.2.1.toNat = (f.popBatch count.toNat).1.2.1 ∧
      (ringBufferPopBatch rb count).1.2.2 = (f.popBatch count.toNat).1.2.2 ∧
      (ringBufferPopBatch rb count).2.Refines (f.popBatch count.toNat).2 := by
  have hlt := h.holds.length_lt_word
  rw [h.holds.popBatch_eq count rfl]
  unfold Fifo.popBatch
  refine ⟨rfl, ?_, ?_, ?_, h.places, h.dropped⟩
  · simp only [UInt32.toNat_ofNat']; exact Nat.mod_eq_of_lt (by omega)
  · rw [← List.take_eq_take_min]
  · have := h.holds.release (n := min count.toNat f.items.length) (Nat.min_le_right _ _)
    rwa [← List.drop_eq_drop_min] at this

theorem clear (h : rb.Refines f) : (ringBufferClear rb).Refines (.empty σ n) := by
  have h0 : 0 < rb.capacity.toNat := by have := h.places; omega
  exact ⟨.empty ⟨h.holds.wf.pow, h.holds.wf.mask, h0, h0⟩ rfl, h.places, rfl⟩

/-- One operation: the same reply, and the refinement goes on. -/
theorem apply (h : rb.Refines f) (op : RingOp σ) :
    (rb.apply op).1 = (f.apply op).1 ∧ (rb.apply op).2.Refines (f.apply op).2 := by
  have hp := h.places
  cases op with
  | push x =>
    obtain ⟨hr, hs⟩ := h.push x
    exact ⟨congrArg Reply.flag hr, hs⟩
  | pop =>
    obtain ⟨hr, hs⟩ := h.pop
    exact ⟨congrArg Reply.sample hr, hs⟩
  | pushBatch b =>
    obtain ⟨hr, hc, hs⟩ := h.pushBatch b
    exact ⟨by simp only [RingBuffer.apply, Fifo.apply, hr, hc], hs⟩
  | popBatch count =>
    obtain ⟨hr, hc, hx, hs⟩ := h.popBatch count
    exact ⟨by simp only [RingBuffer.apply, Fifo.apply, hr, hc, hx], hs⟩
  | clear => exact ⟨rfl, h.clear⟩
  | count => exact ⟨congrArg Reply.number h.holds.count, h⟩
  | available =>
    refine ⟨congrArg Reply.number ?_, h⟩
    rw [h.holds.available]; omega
  | isEmpty =>
    refine ⟨congrArg Reply.flag ?_, h⟩
    rw [ringBufferIsEmpty, beq_eq_decide, decide_eq_decide, h.holds.empty_iff]
  | isFull =>
    refine ⟨congrArg Reply.flag ?_, h⟩
    rw [ringBufferIsFull, beq_eq_decide, decide_eq_decide, h.holds.full_iff]
    omega

theorem trace (h : rb.Refines f) (ops : List (RingOp σ)) : rb.trace ops = f.trace ops := by
  induction ops generalizing rb f with
  | nil => rfl
  | cons op ops ih =>
    obtain ⟨hr, hs⟩ := h.apply op
    rw [RingBuffer.trace, Fifo.trace, hr, hs.dropped, ih hs]

end RingBuffer.Refines

/-- For every request of at most `2^31` the rounding loop delivers a capacity, and
when the two allocations succeed the created ring answers every finite sequence of
operations as the empty queue with one place less than that capacity does. -/
theorem ring_refines_fifo (c : UInt32) (hc : c.toNat ≤ 2 ^ 31) (fuel : Nat) (hf : 32 ≤ fuel) :
    ∃ N : UInt32, normalizeCapacity fuel c = some N ∧
      ∀ (data : UInt32 → Option (Nat → σ)) (buffer : Nat → σ), data N = some buffer →
        ∃ rb, ringBufferCreate fuel c true data = some (some rb) ∧ rb.capacity = N ∧
          ∀ ops, rb.trace ops = (Fifo.empty σ (N.toNat - 1)).trace ops := by
  obtain ⟨k, N, hN, hk1, hk, hNk, _⟩ := normalizeCapacity_eq hc hf
  refine ⟨N, hN, fun data buffer hd => ?_⟩
  obtain ⟨rb, hrb⟩ : ∃ rb, ringBufferCreate fuel c true data = some (some rb) :=
    ⟨_, by rw [ringBufferCreate, hN, Option.map_some, if_neg (by decide), hd]; rfl⟩
  obtain ⟨hfresh, hcap⟩ := ringBufferCreate_fresh hN hk1 hk hNk hrb
  have h0 : 0 < N.toNat := by rw [hNk]; exact Nat.two_pow_pos k
  have href : rb.Refines (Fifo.empty σ (N.toNat - 1)) :=
    ⟨hfresh.holds, by rw [hcap]; omega, by rw [hfresh.dropped]; rfl⟩
  exact ⟨rb, hrb, hcap, href.trace⟩

theorem ring_refines_fifo_three :
    ∃ N : UInt32, normalizeCapacity 32 3 = some N ∧ N = 4 ∧
      ∃ rb : RingBuffer Nat, ringBufferCreate 32 3 true (fun _ => some fun _ => 0) = some (some rb) ∧
        ∀ ops, rb.trace ops = (Fifo.empty Nat (N.toNat - 1)).trace ops := by
  obtain ⟨N, hN, h⟩ := ring_refines_fifo (σ := Nat) 3 (by decide) 32 (by decide)
  have h4 : N = 4 := by
    have : normalizeCapacity 32 3 = some 4 := by decide
    rw [this] at hN; exact (Option.some.inj hN).symm
  obtain ⟨rb, hrb, _, ht⟩ := h (fun _ => some fun _ => 0) (fun _ => 0) rfl
  exact ⟨N, hN, h4, rb, hrb, ht⟩

end FastRing
