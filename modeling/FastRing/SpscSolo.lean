import FastRing.SpscInvariant

/-! # A call that runs alone

When the other thread takes no step meanwhile, the accesses of a call add up to what
the sequential function of `RingBuffer` computes: the same ring, the same result. -/

namespace FastRing

variable {σ : Type}

/-- The producer is inside a call that has not returned. -/
def Producer.inCall : Producer σ → Bool
  | .idle | .pushDone _ _ | .batchDone _ _ => false
  | _ => true

/-- The consumer is inside a call that has not returned. -/
def Consumer.inCall : Consumer σ → Bool
  | .idle | .popDone _ | .batchDone _ _ => false
  | _ => true

namespace Spsc

open Cyclic Runs

variable {s t : Spsc σ} {q : List σ}

/-- The producer's accesses inside one call. -/
def ProducerPath : Spsc σ → Spsc σ → Prop := Path producerStep fun s => s.producer.inCall = true

/-- The consumer's accesses inside one call. -/
def ConsumerPath : Spsc σ → Spsc σ → Prop := Path consumerStep fun s => s.consumer.inCall = true

theorem push_solo (s : Spsc σ) (x : σ) :
    ∃ t, ProducerPath { s with producer := .push x } t ∧
      t.rb = (ringBufferPush s.rb x).2 ∧ t.producer = .pushDone x (ringBufferPush s.rb x).1 ∧
      t.consumer = s.consumer := by
  by_cases hfull : (s.rb.head + 1) &&& s.rb.mask = s.rb.tail
  · have hpush : ringBufferPush s.rb x = (false, { s.rb with dropped := s.rb.dropped + 1 }) :=
      if_pos hfull
    rw [hpush]
    exact ⟨_, .step rfl rfl (.step rfl (if_pos hfull) (.refl _)), rfl, rfl, rfl⟩
  · have hpush : ringBufferPush s.rb x = (true, { s.rb with
        buffer := Function.update s.rb.buffer s.rb.head.toNat x
        head := (s.rb.head + 1) &&& s.rb.mask }) := if_neg hfull
    rw [hpush]
    exact ⟨_, .step rfl rfl (.step rfl (if_neg hfull) (.step rfl rfl (.step rfl rfl (.refl _)))),
      rfl, rfl, rfl⟩

theorem pop_solo (s : Spsc σ) :
    ∃ t, ConsumerPath { s with consumer := .pop } t ∧ t.rb = (ringBufferPop s.rb).2 ∧
      t.consumer = .popDone (ringBufferPop s.rb).1 ∧ t.producer = s.producer := by
  by_cases hempty : s.rb.head = s.rb.tail
  · have hpop : ringBufferPop s.rb = (none, s.rb) := if_pos hempty
    rw [hpop]
    exact ⟨_, .step rfl rfl (.step rfl (if_pos hempty) (.refl _)), rfl, rfl, rfl⟩
  · have hpop : ringBufferPop s.rb = (some (s.rb.buffer s.rb.tail.toNat),
        { s.rb with tail := (s.rb.tail + 1) &&& s.rb.mask }) := if_neg hempty
    rw [hpop]
    exact ⟨_, .step rfl rfl (.step rfl (if_neg hempty)
      (.step rfl rfl (.step rfl rfl (.step rfl rfl (.refl _))))), rfl, rfl, rfl⟩

/-- The copy of a batch push, slot after slot. -/
theorem batchCopy_solo {b : Batch σ} {n : UInt32} (s : Spsc σ)
    (hh : s.rb.head.toNat < s.rb.capacity.toNat) (hn : n.toNat ≤ s.rb.capacity.toNat)
    {i : Nat} {todo : List σ} (hi : i + todo.length ≤ n.toNat) :
    ProducerPath { s with producer := .batchCopy b n s.rb.head i todo }
      { s with
        rb := { s.rb with
          buffer := write s.rb.capacity.toNat s.rb.buffer (s.rb.head.toNat + i) todo }
        producer := .batchCopy b n s.rb.head (i + todo.length) [] } := by
  induction todo generalizing s i with
  | nil => exact .refl _
  | cons x todo ih =>
    rw [List.length_cons] at hi
    have hslot : slotAt s.rb s.rb.head n i = (s.rb.head.toNat + i) % s.rb.capacity.toNat :=
      slotAt_eq hh (by omega) (by omega)
    refine .step rfl rfl ?_
    have hrest := ih { s with rb := { s.rb with
      buffer := Function.update s.rb.buffer (slotAt s.rb s.rb.head n i) x } } hh hn
      (show i + 1 + todo.length ≤ n.toNat by omega)
    rw [hslot] at hrest ⊢
    rw [write, List.length_cons, Nat.add_comm todo.length 1, ← Nat.add_assoc]
    exact hrest

theorem pushBatch_solo (h : s.rb.Holds q) (b : Batch σ) :
    ∃ t, ProducerPath { s with producer := .batch b } t ∧
      t.rb = (ringBufferPushBatch s.rb b).2 ∧
      t.producer = .batchDone b (ringBufferPushBatch s.rb b).1.2 ∧ t.consumer = s.consumer := by
  have hroom := h.room
  have hread := b.readable
  have htp := h.toPush_toNat b.count
  unfold ringBufferPushBatch
  by_cases h0 : b.count = 0
  · rw [if_pos h0]
    exact ⟨_, .step rfl (if_pos h0) (.refl _), rfl, rfl, rfl⟩
  · rw [if_neg h0]
    simp only
    generalize ht : (if b.count < ringBufferAvailable s.rb then b.count
      else ringBufferAvailable s.rb) = toPush at htp
    have hhead : producerStep { s with producer := .batchHead b s.rb.head } =
        if toPush = 0 then
          some { s with
            rb := { s.rb with dropped := s.rb.dropped + b.count.toUInt64 }
            producer := .batchDone b 0
            refused := s.refused ++ b.items
            occAtTailLoad := s.occupancy }
        else some { s with producer := .batchFree b toPush, occAtTailLoad := s.occupancy } := by
      rw [← ht]
      rfl
    by_cases hz : toPush = 0
    · rw [if_pos hz]
      exact ⟨_, .step rfl (if_neg h0) (.step rfl (hhead.trans (if_pos hz)) (.refl _)),
        rfl, rfl, rfl⟩
    · rw [if_neg hz]
      have hlen : (b.samples.take toPush.toNat).length = toPush.toNat := by
        rw [List.length_take]; omega
      have hcopy := batchCopy_solo (b := b) (n := toPush)
        { s with producer := .batchFree b toPush, occAtTailLoad := s.occupancy } h.wf.head
        (show toPush.toNat ≤ s.rb.capacity.toNat by omega) (i := 0)
        (show 0 + (b.samples.take toPush.toNat).length ≤ toPush.toNat by omega)
      have hbuf := copyIn_eq_write h.wf.head (show toPush.toNat ≤ s.rb.capacity.toNat by omega)
        (show toPush.toNat ≤ b.samples.length by omega)
      rw [hbuf]
      exact ⟨_, .step rfl (if_neg h0) (.step rfl (hhead.trans (if_neg hz))
        (.step rfl rfl (hcopy.trans (.step rfl rfl (.refl _))))), rfl, rfl, rfl⟩

/-- The copy of a batch pop, slot after slot. -/
theorem batchRead_solo (s : Spsc σ) (count n : UInt32) {k : Nat} (out : List σ)
    (hk : out.length + k = n.toNat) :
    ConsumerPath { s with consumer := .batchCopy count n s.rb.tail out }
      { s with
        consumer := .batchCopy count n s.rb.tail
          (out ++ (List.range k).map fun j =>
            s.rb.buffer (slotAt s.rb s.rb.tail n (out.length + j))) } := by
  induction k generalizing out with
  | zero => rw [List.range_zero, List.map_nil, List.append_nil]; exact .refl _
  | succ k ih =>
    refine .step rfl (if_pos (by omega)) ?_
    have hrest := ih (out ++ [s.rb.buffer (slotAt s.rb s.rb.tail n out.length)]) (by
      rw [List.length_append, List.length_singleton]; omega)
    rw [List.append_assoc, List.length_append, List.length_singleton] at hrest
    have hout : [s.rb.buffer (slotAt s.rb s.rb.tail n out.length)] ++
        (List.range k).map (fun j => s.rb.buffer (slotAt s.rb s.rb.tail n (out.length + 1 + j))) =
        (List.range (k + 1)).map fun j => s.rb.buffer (slotAt s.rb s.rb.tail n (out.length + j)) := by
      rw [List.range_succ_eq_map, List.map_cons, List.map_map, List.singleton_append]
      simp only [Function.comp_def, Nat.add_zero, Nat.add_assoc, Nat.succ_eq_add_one,
        Nat.add_comm 1]
    rw [hout] at hrest
    exact hrest

theorem popBatch_solo (h : s.rb.Holds q) (count : UInt32) :
    ∃ t, ConsumerPath { s with consumer := .batch count } t ∧
      t.rb = (ringBufferPopBatch s.rb count).2 ∧
      t.consumer = .batchDone count (ringBufferPopBatch s.rb count).1.2.2 ∧
      t.producer = s.producer := by
  have hroom := h.room
  have htp := h.toPop_toNat count
  unfold ringBufferPopBatch
  by_cases h0 : count = 0
  · rw [if_pos h0]
    exact ⟨_, .step rfl (if_pos h0) (.refl _), rfl, rfl, rfl⟩
  · rw [if_neg h0]
    simp only
    generalize ht : (if count < ringBufferCount s.rb then count else ringBufferCount s.rb) = toPop
      at htp
    have hhead : consumerStep
        { s with consumer := .batchHead count s.rb.head, occAtHeadLoad := s.occupancy } =
        if toPop = 0 then
          some { s with consumer := .batchDone count [], occAtHeadLoad := s.occupancy }
        else
          some { s with consumer := .batchTail count toPop, occAtHeadLoad := s.occupancy } := by
      rw [← ht]
      rfl
    by_cases hz : toPop = 0
    · rw [if_pos hz]
      exact ⟨_, .step rfl (if_neg h0) (.step rfl (hhead.trans (if_pos hz)) (.refl _)), rfl, rfl,
        rfl⟩
    · rw [if_neg hz]
      have hcopy := batchRead_solo
        { s with consumer := .batchTail count toPop, occAtHeadLoad := s.occupancy } count toPop []
        (Nat.zero_add _)
      simp only [List.nil_append, List.length_nil, Nat.zero_add] at hcopy
      have hout : copyOut s.rb s.rb.tail toPop =
          (List.range toPop.toNat).map fun j => s.rb.buffer (slotAt s.rb s.rb.tail toPop j) := by
        rw [copyOut_eq h.wf.tail (by omega)]
        refine List.map_congr_left fun j hj => ?_
        have hj := List.mem_range.mp hj
        rw [slotAt_eq h.wf.tail (by omega) hj]
      have hdone : ¬ ((List.range toPop.toNat).map fun j =>
          s.rb.buffer (slotAt s.rb s.rb.tail toPop j)).length < toPop.toNat := by
        rw [List.length_map, List.length_range]; omega
      rw [hout]
      exact ⟨_, .step rfl (if_neg h0) (.step rfl (hhead.trans (if_neg hz))
        (.step rfl rfl (hcopy.trans (.step rfl (if_neg hdone) (.refl _))))), rfl, rfl, rfl⟩

end Spsc

end FastRing
