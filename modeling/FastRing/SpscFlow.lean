import FastRing.SpscInvariant

/-! # The samples on their way through a ring

A sample handed to the producer is first held by the producer's call, then in the
ring or refused, then in the consumer's hands. `Spsc.line` is what is on its way at
a moment, oldest first: a step of the consumer moves samples along the line, and a
step of the producer does too, or takes the refused part of a call out of it. -/

namespace FastRing

variable {σ : Type}

/-- The samples of a push call that are neither published nor refused yet. -/
def Producer.held : Producer σ → List σ
  | .idle | .pushDone _ _ | .batchDone _ _ => []
  | .push x | .pushHead x _ | .pushSlot x _ | .pushPublish x _ => [x]
  | .batch b | .batchHead b _ | .batchFree b _ | .batchCopy b _ _ _ _ => b.items

/-- The samples a finished pop call returns. -/
def Consumer.taken : Consumer σ → List σ
  | .popDone x => x.toList
  | .batchDone _ out => out
  | _ => []

/-- The samples that the result of a finished push call says are accepted. -/
def Producer.acceptedItems : Producer σ → List σ
  | .pushDone x accepted => if accepted then [x] else []
  | .batchDone b pushed => b.items.take pushed.toNat
  | _ => []

/-- The samples that the result of a finished push call says are refused. -/
def Producer.rejectedItems : Producer σ → List σ
  | .pushDone x accepted => if accepted then [] else [x]
  | .batchDone b pushed => b.items.drop pushed.toNat
  | _ => []

/-- The number of samples a finished push call published. -/
def Producer.accepted : Producer σ → Nat
  | .pushDone _ accepted => if accepted then 1 else 0
  | .batchDone b pushed => (b.items.take pushed.toNat).length
  | _ => 0

/-- The number of samples a finished push call refused. -/
def Producer.rejected : Producer σ → Nat
  | .pushDone _ accepted => if accepted then 0 else 1
  | .batchDone b pushed => b.count.toNat - pushed.toNat
  | _ => 0

theorem Producer.acceptedItems_length (p : Producer σ) : p.acceptedItems.length = p.accepted := by
  cases p with
  | pushDone x accepted => cases accepted <;> rfl
  | _ => rfl

theorem Producer.rejectedItems_length (p : Producer σ) : p.rejectedItems.length = p.rejected := by
  cases p with
  | pushDone x accepted => cases accepted <;> rfl
  | batchDone b pushed => rw [rejectedItems, List.length_drop, b.items_length, rejected]
  | _ => rfl

theorem Producer.eq_idle {p : Producer σ} (h : p.isIdle = true) : p = .idle := by
  cases p with
  | idle => rfl
  | _ => cases h

theorem Consumer.eq_idle {c : Consumer σ} (h : c.isIdle = true) : c = .idle := by
  cases c with
  | idle => rfl
  | _ => cases h

/-- Inside `ring_buffer_push`, or in no call. -/
def Producer.isSingle : Producer σ → Bool
  | .idle | .push _ | .pushHead _ _ | .pushSlot _ _ | .pushPublish _ _ | .pushDone _ _ => true
  | _ => false

/-- Inside `ring_buffer_push_batch`, or in no call. -/
def Producer.isBatch : Producer σ → Bool
  | .idle | .batch _ | .batchHead _ _ | .batchFree _ _ | .batchCopy _ _ _ _ _ | .batchDone _ _ => true
  | _ => false

/-- A call that has returned its result. -/
def Producer.isDone : Producer σ → Bool
  | .pushDone _ _ | .batchDone _ _ => true
  | _ => false

/-- Inside `ring_buffer_pop_batch`, or in no call. -/
def Consumer.isBatch : Consumer σ → Bool
  | .idle | .batch _ | .batchHead _ _ | .batchTail _ _ | .batchCopy _ _ _ _ | .batchDone _ _ => true
  | _ => false

namespace Spsc

variable {s t : Spsc σ} {q q' : List σ}

theorem Inv.setProducer (h : Inv s q) {p : Producer σ}
    (hp : ProducerOk s.rb q.length s.occAtTailLoad p) : Inv { s with producer := p } q :=
  ⟨h.history, h.holds, hp, h.consumer, h.dropped⟩

theorem Inv.setConsumer (h : Inv s q) {c : Consumer σ}
    (hc : ConsumerOk s.rb q s.occAtHeadLoad c) : Inv { s with consumer := c } q :=
  ⟨h.history, h.holds, h.producer, hc, h.dropped⟩

/-- The samples in the ring. -/
def contents (s : Spsc σ) : List σ := s.published.drop s.returned.length

/-- The samples on their way, oldest first. -/
def line (s : Spsc σ) : List σ := s.consumer.taken ++ s.contents ++ s.producer.held

theorem Inv.contents (h : Inv s q) : s.contents = q := by
  rw [Spsc.contents, h.history, List.drop_left]

/-- A batch popped and not taken over yet is the head of the line, and its length fits
the count that is returned. -/
theorem Inv.batchDone (h : Inv s q) {count : UInt32} {samples : List σ}
    (hc : s.consumer = .batchDone count samples) :
    samples.length < 2 ^ 32 ∧ s.line = samples ++ line { s with consumer := .idle } := by
  have hcons := h.consumer
  rw [hc] at hcons
  refine ⟨Nat.lt_of_le_of_lt hcons.1 (UInt32.toNat_lt count), ?_⟩
  simp [line, Spsc.contents, hc, Consumer.taken]

/-- What an access of the producer does with the samples of its call. -/
theorem producerStep_flow (h : s.producerStep = some t) :
    ∃ a r, t.published = s.published ++ a ∧ t.refused = s.refused ++ r ∧
      s.producer.held = a ++ r ++ t.producer.held ∧ t.returned = s.returned ∧
      t.consumer = s.consumer := by
  cases producerStep_access h with
  | push pos | pushRoom pos _ | pushSlot pos | pushDone pos | batch pos _ | batchRoom pos _
  | batchFree pos | batchCopy pos | batchDone pos =>
    refine ⟨[], [], by simp, by simp, ?_, rfl, rfl⟩
    rw [pos]
    rfl
  | @pushFull x head pos _ =>
    refine ⟨[], [x], by simp, rfl, ?_, rfl, rfl⟩
    rw [pos]
    rfl
  | @pushPublish x head pos =>
    refine ⟨[x], [], rfl, by simp, ?_, rfl, rfl⟩
    rw [pos]
    rfl
  | batchZero pos zero =>
    refine ⟨[], [], by simp, by simp, ?_, rfl, rfl⟩
    simp [pos, Producer.held, Batch.items, zero]
  | @batchFull b head pos _ =>
    refine ⟨[], b.items, by simp, rfl, ?_, rfl, rfl⟩
    simp [pos, Producer.held]
  | @batchPublish b n head i pos =>
    refine ⟨b.items.take n.toNat, b.items.drop n.toNat, rfl, rfl, ?_, rfl, rfl⟩
    simp [pos, Producer.held]

/-- What an access of the producer publishes or refuses is what the result of its call then
says. -/
theorem producerStep_result (h : s.producerStep = some t) :
    t.published = s.published ++ t.producer.acceptedItems ∧
      t.refused = s.refused ++ t.producer.rejectedItems := by
  cases producerStep_access h with
  | push | pushRoom | pushSlot | pushDone | batch | batchRoom | batchFree | batchCopy | batchDone =>
    exact ⟨(List.append_nil _).symm, (List.append_nil _).symm⟩
  | pushFull => exact ⟨(List.append_nil _).symm, rfl⟩
  | pushPublish => exact ⟨rfl, (List.append_nil _).symm⟩
  | @batchZero b pos zero =>
    have hnil : b.items = [] := List.length_eq_zero_iff.mp (by rw [b.items_length, zero]; rfl)
    exact ⟨by simp [Producer.acceptedItems], by simp [Producer.rejectedItems, hnil]⟩
  | batchFull => exact ⟨by simp [Producer.acceptedItems], by simp [Producer.rejectedItems]⟩
  | batchPublish => exact ⟨rfl, rfl⟩

/-- What it counts. -/
theorem producerStep_counts (h : s.producerStep = some t) :
    t.published.length = s.published.length + t.producer.accepted ∧
      t.refused.length = s.refused.length + t.producer.rejected := by
  obtain ⟨hpub, href⟩ := producerStep_result h
  rw [hpub, href, List.length_append, List.length_append, Producer.acceptedItems_length,
    Producer.rejectedItems_length]
  exact ⟨rfl, rfl⟩

/-- A producer stays inside the kind of call it is in. -/
theorem producerStep_kind (h : s.producerStep = some t) :
    (s.producer.isSingle = true → t.producer.isSingle = true) ∧
      (s.producer.isBatch = true → t.producer.isBatch = true) := by
  cases producerStep_access h with
  | pushDone pos | batchDone pos => exact ⟨fun _ => rfl, fun _ => rfl⟩
  | push pos | pushFull pos _ | pushRoom pos _ | pushSlot pos | pushPublish pos =>
    rw [pos]
    exact ⟨fun _ => rfl, fun hf => absurd hf Bool.false_ne_true⟩
  | batchZero pos _ | batch pos _ | batchFull pos _ | batchRoom pos _ | batchFree pos | batchCopy pos
  | batchPublish pos =>
    rw [pos]
    exact ⟨fun hf => absurd hf Bool.false_ne_true, fun _ => rfl⟩

/-- What an access of the consumer takes out of the ring. -/
theorem consumerStep_flow (h : s.consumerStep = some t) :
    t.returned = s.returned ++ t.consumer.taken ∧ t.published = s.published ∧
      t.refused = s.refused ∧ t.producer = s.producer := by
  cases consumerStep_access h with
  | popRelease | batchRelease => exact ⟨rfl, rfl, rfl, rfl⟩
  | pop | popEmpty | popHead | popTail | popSlot | popDone | batchZero | batch | batchEmpty
  | batchHead | batchTail | batchCopy | batchDone =>
    exact ⟨by simp [Consumer.taken], rfl, rfl, rfl⟩

/-- So does a consumer. -/
theorem consumerStep_kind (h : s.consumerStep = some t) (hb : s.consumer.isBatch = true) :
    t.consumer.isBatch = true := by
  cases consumerStep_access h with
  | pop pos | popEmpty pos _ | popHead pos _ | popTail pos | popSlot pos | popRelease pos =>
    rw [pos] at hb
    cases hb
  | popDone | batchZero | batch | batchEmpty | batchHead | batchTail | batchCopy | batchRelease
  | batchDone => rfl

/-- The producer's access takes the refused samples out of the line, and moves the
others along. -/
theorem producerStep_line (hi : Inv s q) (h : s.producerStep = some t) :
    ∃ a r b, s.line = a ++ r ++ b ∧ t.line = a ++ b ∧ t.refused = s.refused ++ r := by
  obtain ⟨a, r, hp, hr, hh, hret, hc⟩ := producerStep_flow h
  have hle : s.returned.length ≤ s.published.length := by
    rw [hi.history, List.length_append]; omega
  refine ⟨s.consumer.taken ++ s.contents ++ a, r, t.producer.held, ?_, ?_, hr⟩
  · simp only [line, hh, List.append_assoc]
  · simp only [line, contents, hp, hret, hc, List.drop_append_of_le_length hle, List.append_assoc]

/-- The consumer's access moves samples along the line. -/
theorem consumerStep_line (hi : Inv t q') (h : s.consumerStep = some t)
    (hn : s.consumer.taken = []) : t.line = s.line ∧ t.refused = s.refused := by
  obtain ⟨hret, hp, hr, hpr⟩ := consumerStep_flow h
  refine ⟨?_, hr⟩
  have hs : s.contents = t.consumer.taken ++ q' := by
    rw [contents, ← hp, hi.history, hret, List.append_assoc, List.drop_left]
  rw [line, line, hi.contents, hs, hn, hpr, List.nil_append]

/-! ## What a thread leaves alone -/

/-- A step of the producer's thread: it only adds samples, and only the producer's side of
the ring changes. -/
structure ProducerMove (s t : Spsc σ) : Prop where
  consumer : t.consumer = s.consumer
  tail : t.rb.tail = s.rb.tail
  capacity : t.rb.capacity = s.rb.capacity
  returned : t.returned = s.returned
  headLoad : t.occAtHeadLoad = s.occAtHeadLoad
  published : s.published <+: t.published

/-- A step of the consumer's thread: it only takes samples, and only the consumer's side of
the ring changes. -/
structure ConsumerMove (s t : Spsc σ) : Prop where
  producer : t.producer = s.producer
  head : t.rb.head = s.rb.head
  capacity : t.rb.capacity = s.rb.capacity
  published : t.published = s.published
  refused : t.refused = s.refused
  tailLoad : t.occAtTailLoad = s.occAtTailLoad
  returned : s.returned <+: t.returned

theorem ProducerMove.occupancy_le (h : ProducerMove s t) : s.occupancy ≤ t.occupancy := by
  have := h.published.length_le
  rw [occupancy, occupancy, h.returned]
  omega

theorem ConsumerMove.occupancy_le (h : ConsumerMove s t) : t.occupancy ≤ s.occupancy := by
  have := h.returned.length_le
  rw [occupancy, occupancy, h.published]
  omega

theorem producerStep_move (h : s.producerStep = some t) : ProducerMove s t := by
  obtain ⟨a, _, hp, _, _, hret, hc⟩ := producerStep_flow h
  have hrest : t.rb.tail = s.rb.tail ∧ t.rb.capacity = s.rb.capacity ∧
      t.occAtHeadLoad = s.occAtHeadLoad := by
    cases producerStep_access h <;> exact ⟨rfl, rfl, rfl⟩
  exact ⟨hc, hrest.1, hrest.2.1, hret, hrest.2.2, ⟨a, hp.symm⟩⟩

theorem consumerStep_move (h : s.consumerStep = some t) : ConsumerMove s t := by
  obtain ⟨hret, hp, hr, hprod⟩ := consumerStep_flow h
  have hrest : t.rb.head = s.rb.head ∧ t.rb.capacity = s.rb.capacity ∧
      t.occAtTailLoad = s.occAtTailLoad := by
    cases consumerStep_access h <;> exact ⟨rfl, rfl, rfl⟩
  exact ⟨hprod, hrest.1, hrest.2.1, hp, hr, hrest.2.2, ⟨_, hret.symm⟩⟩

end Spsc

end FastRing
