import FastRing.SpscFlow

/-! # Queries beside the two threads

`ring_buffer_count`, `ring_buffer_available`, `ring_buffer_is_empty` and
`ring_buffer_is_full`, called while the producer and the consumer are at work: by one of the
two between its own calls, or by a third thread that only looks. A query is cut into its two
loads, `head` first and then `tail`, and answers what the function computes from the pair.
In `rb->head == rb->tail` C leaves the order of the loads open; the callers of
`ring_buffer_is_empty` and `ring_buffer_is_full` that matter here own one of the two.

Two fields are history, which no step reads: how many samples the ring has held since the
third thread's call, moment by moment, and how many were published when it loaded `head`. -/

namespace FastRing

variable {σ : Type}

inductive Query where
  | count
  | available
  | isEmpty
  | isFull
  deriving DecidableEq, Repr

inductive Answer where
  | number (n : UInt32)
  | truth (b : Bool)
  deriving DecidableEq, Repr

/-- The answer for the pair of indices loaded. -/
def Query.answer (rb : RingBuffer σ) (head tail : UInt32) : Query → Answer
  | .count => .number (ringBufferCount { rb with head := head, tail := tail })
  | .available => .number (ringBufferAvailable { rb with head := head, tail := tail })
  | .isEmpty => .truth (ringBufferIsEmpty { rb with head := head, tail := tail })
  | .isFull => .truth (ringBufferIsFull { rb with head := head, tail := tail })

/-- Positions of a thread in a query. -/
inductive Asking where
  | idle
  | call (query : Query)
  | loaded (query : Query) (head : UInt32)
  | done (query : Query) (answer : Answer)
  deriving DecidableEq, Repr

/-- The call has begun and not returned. -/
def Asking.inCall : Asking → Bool
  | .call _ | .loaded _ _ => true
  | _ => false

inductive Caller where
  | producer
  | consumer
  | monitor
  deriving DecidableEq, Repr

/-- The ring with its two threads, and who is asking what. -/
structure Observed (σ : Type) where
  ring : Spsc σ
  asks : Caller → Asking
  moments : List Nat
  publishedAtLoad : Nat

/-- Whose step of the ring it is. -/
def Spsc.Label.caller : Spsc.Label σ → Caller
  | .callPush _ | .callPushBatch _ | .producer => .producer
  | .callPop | .callPopBatch _ | .consumer => .consumer

namespace Observed

def init (rb : RingBuffer σ) : Observed σ :=
  { ring := .init rb, asks := fun _ => .idle, moments := [], publishedAtLoad := 0 }

/-- A thread asks between its calls of the ring. -/
def between (s : Observed σ) : Caller → Bool
  | .producer => s.ring.producer.isIdle
  | .consumer => s.ring.consumer.isIdle
  | .monitor => true

/-- A step of the ring, the call of a query, or the next access of a thread inside one. -/
inductive Label (σ : Type) where
  | ring (l : Spsc.Label σ)
  | ask (who : Caller) (query : Query)
  | query (who : Caller)

/-- The next access of a query; a finished one is left. -/
def queryStep (s : Observed σ) (who : Caller) : Option (Observed σ) :=
  match s.asks who with
  | .idle => none
  | .call query =>
    some { s with
      asks := Function.update s.asks who (.loaded query s.ring.rb.head)
      publishedAtLoad := if who = .monitor then s.ring.published.length else s.publishedAtLoad }
  | .loaded query head =>
    some { s with
      asks := Function.update s.asks who (.done query (query.answer s.ring.rb head s.ring.rb.tail)) }
  | .done _ _ => some { s with asks := Function.update s.asks who .idle }

/-- While the third thread's call lasts, every moment is kept. -/
def record (s t : Observed σ) : Observed σ :=
  if (s.asks .monitor).inCall then { t with moments := s.moments ++ [t.ring.occupancy] } else t

def step (s : Observed σ) : Label σ → Option (Observed σ)
  | .ring l =>
    if s.asks l.caller = .idle then (s.ring.step l).map fun r => s.record { s with ring := r }
    else none
  | .ask who query =>
    if s.between who ∧ s.asks who = .idle then
      some (s.record { s with
        asks := Function.update s.asks who (.call query)
        moments := if who = .monitor then [s.ring.occupancy] else s.moments })
    else none
  | .query who => (s.queryStep who).map s.record

/-! ## One step -/

section Record

variable (s t : Observed σ)

@[simp] theorem record_ring : (s.record t).ring = t.ring := by
  unfold record
  split <;> rfl

@[simp] theorem record_asks : (s.record t).asks = t.asks := by
  unfold record
  split <;> rfl

@[simp] theorem record_publishedAtLoad : (s.record t).publishedAtLoad = t.publishedAtLoad := by
  unfold record
  split <;> rfl

end Record

variable {s t : Observed σ}

/-- A step of the ring by a thread that asks nothing, a call between two calls, or an access
of a query. -/
theorem step_cases {l : Label σ} (h : s.step l = some t) :
    (∃ l' r, l = .ring l' ∧ s.asks l'.caller = .idle ∧ s.ring.step l' = some r ∧
        t = s.record { s with ring := r }) ∨
      (∃ who query, l = .ask who query ∧ s.between who = true ∧ s.asks who = .idle ∧
        t = s.record { s with
          asks := Function.update s.asks who (.call query)
          moments := if who = .monitor then [s.ring.occupancy] else s.moments }) ∨
      ∃ who u, l = .query who ∧ s.queryStep who = some u ∧ t = s.record u := by
  cases l with
  | ring l' =>
    simp only [step] at h
    split at h
    · rename_i hidle
      obtain ⟨r, hr, rfl⟩ := Option.map_eq_some_iff.mp h
      exact .inl ⟨l', r, rfl, hidle, hr, rfl⟩
    · cases h
  | ask who query =>
    simp only [step] at h
    split at h
    · rename_i hask
      cases h
      exact .inr (.inl ⟨who, query, rfl, hask.1, hask.2, rfl⟩)
    · cases h
  | query who =>
    obtain ⟨u, hu, rfl⟩ := Option.map_eq_some_iff.mp h
    exact .inr (.inr ⟨who, u, rfl, hu, rfl⟩)

end Observed

namespace Spsc

variable {s t : Spsc σ} {l : Label σ}

theorem step_producerMove (hl : l.caller = .producer) (h : s.step l = some t) : ProducerMove s t := by
  cases l with
  | callPop | callPopBatch | consumer => cases hl
  | producer => exact producerStep_move h
  | callPush x | callPushBatch b =>
    simp only [step] at h
    split at h
    · cases h
      exact ⟨rfl, rfl, rfl, rfl, rfl, List.prefix_rfl⟩
    · cases h

theorem step_consumerMove (hl : l.caller = .consumer) (h : s.step l = some t) : ConsumerMove s t := by
  cases l with
  | callPush | callPushBatch | producer => cases hl
  | consumer => exact consumerStep_move h
  | callPop | callPopBatch count =>
    simp only [step] at h
    split at h
    · cases h
      exact ⟨rfl, rfl, rfl, rfl, rfl, rfl, List.prefix_rfl⟩
    · cases h

theorem caller_cases (l : Label σ) : l.caller = .producer ∨ l.caller = .consumer := by
  cases l with
  | callPush | callPushBatch | producer => exact .inl rfl
  | callPop | callPopBatch | consumer => exact .inr rfl

end Spsc

/-! ## What the owners' answers promise -/

/-- The room that a producer has been told of. -/
def Asking.room : Asking → Nat
  | .done .available (.number a) => a.toNat
  | .done .isFull (.truth false) => 1
  | _ => 0

/-- The samples that a consumer has been told of. -/
def Asking.ready : Asking → Nat
  | .done .count (.number k) => k.toNat
  | .done .isEmpty (.truth false) => 1
  | _ => 0

/-- The producer asks between its calls, with its own `head` in hand, and there is the room
it was told of. -/
structure ProducerAsk (r : Spsc σ) (a : Asking) : Prop where
  idle : a ≠ .idle → r.producer = .idle
  head : ∀ query head, a = .loaded query head → head = r.rb.head
  room : r.occupancy + a.room < r.rb.capacity.toNat

/-- The consumer asks between its calls, with a `head` in hand that has been right, and there
are the samples it was told of. -/
structure ConsumerAsk (r : Spsc σ) (a : Asking) : Prop where
  idle : a ≠ .idle → r.consumer = .idle
  head : ∀ query head, a = .loaded query head →
    ∃ k, k ≤ r.occupancy ∧ head.toNat = (r.rb.tail.toNat + k) % r.rb.capacity.toNat
  ready : a.ready ≤ r.occupancy

section Answers

variable {r r' : Spsc σ} {q : List σ} {a : Asking}

theorem ProducerAsk.move (h : ProducerAsk r a) (hm : r.ConsumerMove r') : ProducerAsk r' a := by
  refine ⟨?_, ?_, ?_⟩
  · intro hne
    rw [hm.producer]
    exact h.idle hne
  · intro query head heq
    rw [hm.head]
    exact h.head query head heq
  · have hroom := h.room
    have hle := hm.occupancy_le
    rw [hm.capacity]
    omega

theorem ConsumerAsk.move (h : ConsumerAsk r a) (hm : r.ProducerMove r') : ConsumerAsk r' a := by
  refine ⟨?_, ?_, Nat.le_trans h.ready hm.occupancy_le⟩
  · intro hne
    rw [hm.consumer]
    exact h.idle hne
  · intro query head heq
    obtain ⟨k, hk, hhead⟩ := h.head query head heq
    rw [hm.tail, hm.capacity]
    exact ⟨k, Nat.le_trans hk hm.occupancy_le, hhead⟩

/-- Without an answer there is nothing to promise. -/
theorem ProducerAsk.of_idle (h : r.Inv q) : ProducerAsk r .idle := by
  refine ⟨fun hne => absurd rfl hne, nofun, ?_⟩
  rw [h.occupancy]
  exact h.holds.room

theorem ConsumerAsk.of_idle (r : Spsc σ) : ConsumerAsk r .idle :=
  ⟨fun hne => absurd rfl hne, nofun, Nat.zero_le _⟩

/-- A producer's answer is right when it is given. -/
theorem answer_room (h : r.Inv q) (query : Query) :
    r.occupancy + (Asking.done query (query.answer r.rb r.rb.head r.rb.tail)).room <
      r.rb.capacity.toNat := by
  have hroom := h.holds.room
  rw [h.occupancy]
  cases query with
  | count | isEmpty => exact hroom
  | available =>
    have havailable : (ringBufferAvailable r.rb).toNat = _ := h.holds.available
    change q.length + (ringBufferAvailable r.rb).toNat < _
    omega
  | isFull =>
    change q.length + (Asking.done .isFull (.truth (ringBufferIsFull r.rb))).room < _
    cases hfull : ringBufferIsFull r.rb with
    | true => exact hroom
    | false =>
      have hne : ¬ q.length = r.rb.capacity.toNat - 1 := by
        rw [← h.holds.full_iff]
        exact beq_eq_false_iff_ne.mp hfull
      change q.length + 1 < _
      omega

/-- A consumer's answer tells of the samples there were when it loaded `head`. -/
theorem answer_ready (h : r.Inv q) {k : Nat} (hk : k ≤ r.occupancy) {head : UInt32}
    (hhead : head.toNat = (r.rb.tail.toNat + k) % r.rb.capacity.toNat) (query : Query) :
    (Asking.done query (query.answer r.rb head r.rb.tail)).ready ≤ k := by
  have hroom := h.holds.room
  rw [h.occupancy] at hk
  have hcount : ((head - r.rb.tail) &&& r.rb.mask).toNat = k := h.holds.wf.distance (by omega) hhead
  cases query with
  | available | isFull => exact Nat.zero_le _
  | count => exact Nat.le_of_eq hcount
  | isEmpty =>
    change (Asking.done .isEmpty (.truth (head == r.rb.tail))).ready ≤ k
    cases hempty : head == r.rb.tail with
    | true => exact Nat.zero_le _
    | false =>
      refine Nat.pos_of_ne_zero ?_
      intro hzero
      rw [hzero, Nat.add_zero, Nat.mod_eq_of_lt h.holds.wf.tail] at hhead
      exact beq_eq_false_iff_ne.mp hempty (UInt32.toNat_inj.mp hhead)

end Answers

namespace Observed

variable {s t : Observed σ}

/-- The invariant of the ring, and both owners' answers keep their promise. -/
structure Inv (r : Spsc σ) (asks : Caller → Asking) : Prop where
  ring : ∃ q, r.Inv q
  producer : ProducerAsk r (asks .producer)
  consumer : ConsumerAsk r (asks .consumer)

/-- A thread goes on to a position that is right for it. -/
theorem Inv.update {r : Spsc σ} {asks : Caller → Asking} (h : Inv r asks) {who : Caller} {a : Asking}
    (hp : who = .producer → ProducerAsk r a) (hc : who = .consumer → ConsumerAsk r a) :
    Inv r (Function.update asks who a) := by
  refine ⟨h.ring, ?_, ?_⟩
  · by_cases hw : who = .producer
    · subst hw
      rw [Function.update_self]
      exact hp rfl
    · rw [Function.update_of_ne (Ne.symm hw)]
      exact h.producer
  · by_cases hw : who = .consumer
    · subst hw
      rw [Function.update_self]
      exact hc rfl
    · rw [Function.update_of_ne (Ne.symm hw)]
      exact h.consumer

theorem queryStep_inv (h : Inv s.ring s.asks) {who : Caller} (hs : s.queryStep who = some t) :
    Inv t.ring t.asks := by
  obtain ⟨q, hq⟩ := h.ring
  unfold queryStep at hs
  cases ha : s.asks who with
  | idle => simp [ha] at hs
  | call query =>
    simp only [ha, Option.some.injEq] at hs
    subst hs
    refine h.update ?_ ?_
    · intro hw
      subst hw
      refine ⟨fun _ => h.producer.idle (by rw [ha]; nofun), ?_, ?_⟩
      · intro query' head heq
        cases heq
        rfl
      · exact (ProducerAsk.of_idle hq).room
    · intro hw
      subst hw
      refine ⟨fun _ => h.consumer.idle (by rw [ha]; nofun), ?_, Nat.zero_le _⟩
      intro query' head heq
      cases heq
      refine ⟨s.ring.occupancy, Nat.le_refl _, ?_⟩
      rw [hq.occupancy]
      exact hq.holds.head
  | loaded query head =>
    simp only [ha, Option.some.injEq] at hs
    subst hs
    refine h.update ?_ ?_
    · intro hw
      subst hw
      refine ⟨fun _ => h.producer.idle (by rw [ha]; nofun), nofun, ?_⟩
      rw [h.producer.head query head ha]
      exact answer_room hq query
    · intro hw
      subst hw
      obtain ⟨k, hk, hhead⟩ := h.consumer.head query head ha
      refine ⟨fun _ => h.consumer.idle (by rw [ha]; nofun), nofun, ?_⟩
      exact Nat.le_trans (answer_ready hq hk hhead query) hk
  | done query answer =>
    simp only [ha, Option.some.injEq] at hs
    subst hs
    exact h.update (fun _ => .of_idle hq) (fun _ => .of_idle _)

theorem step_inv (h : Inv s.ring s.asks) {l : Label σ} (hs : s.step l = some t) :
    Inv t.ring t.asks := by
  rcases step_cases hs with ⟨l', r, _, hidle, hr, rfl⟩ | ⟨who, query, _, hbetween, _, rfl⟩ |
    ⟨who, u, _, hu, rfl⟩
  · rw [record_ring, record_asks]
    obtain ⟨q, hq⟩ := h.ring
    obtain ⟨q', hq'⟩ := Spsc.step_inv hq hr
    rcases Spsc.caller_cases l' with hl | hl
    · rw [hl] at hidle
      refine ⟨⟨q', hq'⟩, ?_, h.consumer.move (Spsc.step_producerMove hl hr)⟩
      simp only [hidle]
      exact .of_idle hq'
    · rw [hl] at hidle
      refine ⟨⟨q', hq'⟩, h.producer.move (Spsc.step_consumerMove hl hr), ?_⟩
      simp only [hidle]
      exact .of_idle _
  · rw [record_ring, record_asks]
    obtain ⟨q, hq⟩ := h.ring
    refine h.update ?_ ?_
    · intro hw
      subst hw
      exact ⟨fun _ => Producer.eq_idle hbetween, nofun, (ProducerAsk.of_idle hq).room⟩
    · intro hw
      subst hw
      exact ⟨fun _ => Consumer.eq_idle hbetween, nofun, Nat.zero_le _⟩
  · rw [record_ring, record_asks]
    exact queryStep_inv h hu

theorem init_inv {rb : RingBuffer σ} (h : rb.Fresh) : Inv (init rb).ring (init rb).asks :=
  ⟨⟨[], Spsc.init_inv h⟩, .of_idle (Spsc.init_inv h), .of_idle _⟩

end Observed

end FastRing
