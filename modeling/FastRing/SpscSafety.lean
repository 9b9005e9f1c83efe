import FastRing.SpscFlow

/-! # Safety of the ring under one producer and one consumer

What the invariant gives in the words of a user of the ring: the samples handed
out are the samples published, in order and unaltered; no slot is overwritten
while it is needed; a refusal or an empty answer was true at the moment the other
thread's index was loaded; and what the results of the calls say is what the calls
did. -/

namespace FastRing.Spsc

open Cyclic

variable {σ : Type} {rb : RingBuffer σ} {q : List σ} {s t : Spsc σ}

/-- The slot the producer's next access writes, if that access is a slot store. -/
def nextWrite (s : Spsc σ) : Option Nat :=
  match s.producer with
  | .pushSlot _ head => some head.toNat
  | .batchCopy _ n head i (_ :: _) => some (slotAt s.rb head n i)
  | _ => none

/-- The slots holding a published and not yet consumed sample: from `tail` up to
`head`. -/
def occupiedSlots (s : Spsc σ) : List Nat :=
  (List.range (ringBufferCount s.rb).toNat).map fun i => (s.rb.tail.toNat + i) % s.rb.capacity.toNat

/-- The slots the consumer's call in progress has still to copy. -/
def pendingReads (s : Spsc σ) : List Nat :=
  match s.consumer with
  | .popTail => [s.rb.tail.toNat]
  | .popSlot tail => [tail.toNat]
  | .batchTail _ n => (List.range n.toNat).map (slotAt s.rb s.rb.tail n)
  | .batchCopy _ n tail out => ((List.range n.toNat).drop out.length).map (slotAt s.rb tail n)
  | _ => []

/-- No access changes any slot but the one announced by `nextWrite`. -/
theorem step_buffer {l : Label σ} (h : s.step l = some t) {i : Nat} (hi : s.nextWrite ≠ some i) :
    t.rb.buffer i = s.rb.buffer i := by
  cases l with
  | callPush | callPushBatch | callPop | callPopBatch =>
    simp only [step] at h
    split at h
    · cases h
      rfl
    · cases h
  | consumer => cases consumerStep_access h <;> rfl
  | producer =>
    unfold nextWrite at hi
    cases producerStep_access h with
    | push | pushFull | pushRoom | pushPublish | pushDone | batchZero | batch | batchFull
    | batchRoom | batchFree | batchPublish | batchDone => rfl
    | pushSlot pos | batchCopy pos =>
      rw [pos] at hi
      exact Function.update_of_ne (fun he => hi (by rw [he])) _ _

/-- The slot written lies in the free part of the ring. -/
theorem Inv.nextWrite_free (h : Inv s q) {i : Nat} (hi : s.nextWrite = some i) :
    ∃ j, q.length ≤ j ∧ j < s.rb.capacity.toNat ∧
      i = (s.rb.tail.toNat + j) % s.rb.capacity.toNat := by
  have hq := h.holds
  have hp := h.producer
  unfold nextWrite at hi
  split at hi
  · rename_i x head he
    rw [he] at hp
    obtain ⟨rfl, hroom⟩ := hp
    cases hi
    exact ⟨q.length, Nat.le_refl _, hq.room, hq.head⟩
  · rename_i b n head k x todo he
    rw [he] at hp
    obtain ⟨rfl, hfits, done, hdone, rfl, _⟩ := hp
    cases hi
    have hroom := hfits.room
    have hlt : done.length < n.toNat := by
      have := congrArg List.length hdone
      rw [List.length_append, List.length_cons, List.length_take] at this; omega
    refine ⟨q.length + done.length, Nat.le_add_right _ _, by omega, ?_⟩
    rw [slotAt_eq hq.wf.head (by omega) hlt, hq.free]
  · cases hi

/-- The slots still to be copied hold published samples. -/
theorem Inv.pendingReads_occupied (h : Inv s q) {i : Nat} (hi : i ∈ s.pendingReads) :
    ∃ j, j < q.length ∧ i = (s.rb.tail.toNat + j) % s.rb.capacity.toNat := by
  have hq := h.holds
  have hr := hq.room
  have hc := h.consumer
  unfold pendingReads at hi
  split at hi
  · rename_i he
    rw [he] at hc
    refine ⟨0, hc, ?_⟩
    rw [List.mem_singleton.mp hi, Nat.add_zero, Nat.mod_eq_of_lt hq.wf.tail]
  · rename_i tail he
    rw [he] at hc
    obtain ⟨rfl, h1⟩ := hc
    refine ⟨0, h1, ?_⟩
    rw [List.mem_singleton.mp hi, Nat.add_zero, Nat.mod_eq_of_lt hq.wf.tail]
  · rename_i count n he
    rw [he] at hc
    have hle := hc.le
    obtain ⟨j, hj, rfl⟩ := List.mem_map.mp hi
    have hj := List.mem_range.mp hj
    exact ⟨j, by omega, slotAt_eq hq.wf.tail (by omega) hj⟩
  · rename_i count n tail out he
    rw [he] at hc
    obtain ⟨rfl, hready, _, _⟩ := hc
    have hle := hready.le
    obtain ⟨j, hj, rfl⟩ := List.mem_map.mp hi
    have hj := List.mem_range.mp (List.mem_of_mem_drop hj)
    exact ⟨j, by omega, slotAt_eq hq.wf.tail (by omega) hj⟩
  · cases hi

/-- What a state of the system must satisfy to be safe. -/
structure Safe (s : Spsc σ) : Prop where
  /-- Nothing is lost, duplicated, reordered or altered. -/
  fifo : s.returned <+: s.published
  /-- At most `capacity - 1` samples are in the ring, and the indices tell how many. -/
  occupancy_lt : s.occupancy ≤ s.rb.capacity.toNat - 1
  count : (ringBufferCount s.rb).toNat = s.occupancy
  /-- The producer writes no slot that is occupied or about to be copied. -/
  noOverwrite : ∀ i, s.nextWrite = some i → i ∉ s.occupiedSlots ∧ i ∉ s.pendingReads
  /-- A refused push met a full ring when it loaded `tail`. -/
  pushRefused : ∀ x, s.producer = .pushDone x false → s.occAtTailLoad = s.rb.capacity.toNat - 1
  /-- A batch of which a part was refused met a ring with room for no more. -/
  batchRefused : ∀ b n, s.producer = .batchDone b n → n.toNat < b.count.toNat →
    s.occAtTailLoad = s.rb.capacity.toNat - 1 - n.toNat
  /-- A pop that reports an empty ring met one when it loaded `head`. -/
  popEmpty : s.consumer = .popDone none → s.occAtHeadLoad = 0
  /-- A batch pop that returns fewer samples than asked for met a ring holding no more. -/
  batchShort : ∀ count out, s.consumer = .batchDone count out → out.length < count.toNat →
    s.occAtHeadLoad = out.length

theorem Inv.safe (h : Inv s q) : s.Safe where
  fifo := ⟨q, h.history.symm⟩
  occupancy_lt := by have := h.holds.room; rw [h.occupancy]; omega
  count := by rw [h.occupancy, h.holds.count]
  noOverwrite := by
    intro i hi
    obtain ⟨j, hj, hjN, rfl⟩ := h.nextWrite_free hi
    have hr := h.holds.room
    -- an occupied cell has an offset below `q.length`, and offsets are unique
    have distinct : ∀ k, k < q.length →
        (s.rb.tail.toNat + j) % s.rb.capacity.toNat ≠ (s.rb.tail.toNat + k) % s.rb.capacity.toNat := by
      intro k hk he
      have := cell_inj hjN (by omega) he
      omega
    constructor
    · intro hm
      obtain ⟨k, hk, he⟩ := List.mem_map.mp hm
      rw [List.mem_range, h.holds.count] at hk
      exact distinct k hk he.symm
    · intro hm
      obtain ⟨k, hk, he⟩ := h.pendingReads_occupied hm
      exact distinct k hk he
  pushRefused := by
    intro x he
    have := h.producer
    rw [he] at this; exact this rfl
  batchRefused := by
    intro b n he
    have := h.producer
    rw [he] at this; exact this
  popEmpty := by
    intro he
    have := h.consumer
    rw [he] at this; exact this rfl
  batchShort := by
    intro count out he
    have := h.consumer
    rw [he] at this; exact this.2

/-! ## The results of the calls -/

/-- What the producer is told when its call returns. -/
def toldProducer (told : Producer σ → List σ) (s : Spsc σ) : Label σ → List σ
  | .producer => told s.producer
  | _ => []

/-- What the consumer is told when its call returns. -/
def toldConsumer (s : Spsc σ) : Label σ → List σ
  | .consumer => s.consumer.taken
  | _ => []

/-- The samples published, refused and returned so far are those that the calls which have returned
were told, `accepted`, `rejected` and `taken`, and those that a finished call is about to be told. -/
structure Told (accepted rejected taken : List σ) (s : Spsc σ) : Prop where
  published : s.published = accepted ++ s.producer.acceptedItems
  refused : s.refused = rejected ++ s.producer.rejectedItems
  returned : s.returned = taken ++ s.consumer.taken

theorem step_told {as rs ts : List σ} (hs : Told as rs ts s) {l : Label σ} (h : s.step l = some t) :
    Told (as ++ toldProducer Producer.acceptedItems s l)
      (rs ++ toldProducer Producer.rejectedItems s l) (ts ++ toldConsumer s l) t := by
  cases l with
  | producer =>
    obtain ⟨hpub, href⟩ := producerStep_result h
    have hm := producerStep_move h
    refine ⟨?_, ?_, ?_⟩
    · rw [hpub, hs.published]
      rfl
    · rw [href, hs.refused]
      rfl
    · simp only [toldConsumer, List.append_nil, hm.returned, hm.consumer]
      exact hs.returned
  | consumer =>
    obtain ⟨hret, hpub, href, hprod⟩ := consumerStep_flow h
    refine ⟨?_, ?_, ?_⟩
    · simp only [toldProducer, List.append_nil, hpub, hprod]
      exact hs.published
    · simp only [toldProducer, List.append_nil, href, hprod]
      exact hs.refused
    · rw [hret, hs.returned]
      rfl
  | callPush | callPushBatch =>
    simp only [step] at h
    split at h
    · rename_i idle
      have hpub := hs.published
      have href := hs.refused
      rw [idle] at hpub href
      cases h
      simp only [toldProducer, toldConsumer, List.append_nil]
      exact ⟨hpub, href, hs.returned⟩
    · cases h
  | callPop | callPopBatch =>
    simp only [step] at h
    split at h
    · rename_i idle
      have hret := hs.returned
      rw [idle] at hret
      cases h
      simp only [toldProducer, toldConsumer, List.append_nil]
      exact ⟨hs.published, hs.refused, hret⟩
    · cases h

/-- The results of the calls in the run `ls` from `s` are what these calls did. -/
def Results (s : Spsc σ) (ls : List (Label σ)) (t : Spsc σ) : Prop :=
  Told (Runs.trace step (toldProducer Producer.acceptedItems) s ls)
    (Runs.trace step (toldProducer Producer.rejectedItems) s ls) (Runs.trace step toldConsumer s ls) t

theorem run_told {as rs ts : List σ} (hs : Told as rs ts s) {ls : List (Label σ)}
    (h : Runs.run step s ls = some t) :
    Told (as ++ Runs.trace step (toldProducer Producer.acceptedItems) s ls)
      (rs ++ Runs.trace step (toldProducer Producer.rejectedItems) s ls)
      (ts ++ Runs.trace step toldConsumer s ls) t := by
  induction ls generalizing s as rs ts with
  | nil =>
    cases h
    simp only [Runs.trace, List.append_nil]
    exact hs
  | cons l ls ih =>
    obtain ⟨u, hu, ht⟩ := Runs.run_cons h
    have hrest := ih (step_told hs hu) ht
    simp only [Runs.trace_cons hu]
    rwa [List.append_assoc, List.append_assoc, List.append_assoc] at hrest

/-- Safety over every interleaving: whatever calls the two threads make and however
their accesses interleave, every state reached from a created ring is safe, and the calls were
told what they did. -/
theorem spsc_safe (rb : RingBuffer σ) (h : rb.Fresh) (ls : List (Label σ)) (s : Spsc σ)
    (hr : Runs.run step (init rb) ls = some s) : s.Safe ∧ Results (init rb) ls s := by
  obtain ⟨q, hi⟩ := run_inv h hr
  have hstart : Told [] [] [] (init rb) := ⟨rfl, rfl, rfl⟩
  exact ⟨hi.safe, run_told hstart hr⟩

/-- A ring of capacity 2, as created. -/
def smallRing : RingBuffer Nat :=
  { head := 0, tail := 0, capacity := 2, mask := 1, buffer := fun _ => 0, dropped := 0 }

theorem smallRing_fresh : smallRing.Fresh :=
  ⟨⟨⟨1, by decide, by decide, by decide⟩, by decide, by decide, by decide⟩, rfl, rfl, rfl⟩

/-- Two pushes into the ring of capacity 2, the second refused, with a pop whose
load of `head` lies between them. -/
def smallRun : List (Label Nat) :=
  [.callPush 7, .producer, .producer, .producer, .producer, .producer, .callPop, .consumer,
    .callPush 8, .producer, .producer, .consumer, .consumer, .consumer, .consumer]

theorem spsc_safe_small : ∃ s : Spsc Nat, Runs.run step (init smallRing) smallRun = some s ∧
    (s.Safe ∧ Results (init smallRing) smallRun s) ∧ s.returned = [7] ∧ s.refused = [8] ∧
      s.producer = .pushDone 8 false ∧ s.consumer = .popDone (some 7) ∧
      Runs.trace step (toldProducer Producer.acceptedItems) (init smallRing) smallRun = [7] :=
  ⟨_, rfl, spsc_safe smallRing smallRing_fresh smallRun _ rfl, rfl, rfl, rfl, rfl, rfl⟩

end FastRing.Spsc
