import FastRing.SpscFlow
import FastRing.SpscSafety
import FastRing.BoundedFifo
import FastRing.Lib.Linearize

/-! # The ring as an object of two threads

What the producer and the consumer call and get back, however their accesses interleave,
could be called and got back at the bounded queue of `BoundedFifo`. `ring_buffer_push` and
`ring_buffer_pop` happen at one moment between their call and their return: a push where it
stores `head`, or loads `tail` and finds the ring full; a pop where it stores `tail`, or loads
`head` and finds the ring empty. The batch operations take two moments. They look at the
queue, where they load the other thread's index, and have their effect later, where they store
their own, with what they have seen: a batch push may be cut short by a queue that has been
emptied in the meantime. -/

namespace FastRing

open Linearize

variable {σ : Type} {n : Nat}

/-! ## The queue in use by several threads -/

/-- Append what fits into the queue now and fitted when it held `seen` samples, and count the
rest. -/
def Fifo.pushSeen (f : Fifo σ n) (xs : List σ) (seen : Nat) : (Bool × Nat) × Fifo σ n :=
  let fits := min xs.length (min (n - seen) (n - f.items.length))
  ((decide (xs.length ≤ fits ∧ 0 < xs.length), fits),
    { items := f.items ++ xs.take fits
      drops := f.drops + (xs.length - fits)
      bounded := by have := f.bounded; rw [List.length_append, List.length_take]; omega })

/-- The bounded queue. A look sees how many samples it holds. -/
def Fifo.object (σ : Type) (n : Nat) : Object (RingOp σ) Nat (Reply σ) (Fifo σ n) where
  look f _ := f.items.length
  effect f op seen :=
    match op with
    | .pushBatch b => let r := f.pushSeen b.items seen; (.pushed r.1.1 r.1.2, r.2)
    | .popBatch count =>
      let r := f.popBatch (min count.toNat seen); (.popped r.1.1 r.1.2.1 r.1.2.2, r.2)
    | op => f.apply op

/-- A call that has its look and its effect at the same moment does what it does in a sequence of
calls. -/
theorem Fifo.object_effect_look (f : Fifo σ n) (op : RingOp σ) :
    (Fifo.object σ n).effect f op ((Fifo.object σ n).look f op) = f.apply op := by
  cases op with
  | pushBatch b =>
    simp only [Fifo.object, Fifo.apply, Fifo.pushSeen, Fifo.pushBatch, Nat.min_self]
    congr 2
    rw [decide_eq_decide]
    omega
  | popBatch count =>
    obtain ⟨items, drops, bounded⟩ := f
    have hmin : min (min count.toNat items.length) items.length = min count.toNat items.length := by
      omega
    simp only [Fifo.object, Fifo.apply, Fifo.popBatch, hmin, ← List.take_eq_take_min,
      ← List.drop_eq_drop_min]
  | push | pop | clear | count | available | isEmpty | isFull => rfl

/-- All calls but those of batches happen at one moment. -/
theorem Fifo.object_single {op : RingOp σ} (hpush : ∀ b, op ≠ .pushBatch b)
    (hpop : ∀ count, op ≠ .popBatch count) : (Fifo.object σ n).Single op := by
  intro f seen seen'
  cases op with
  | pushBatch b => exact absurd rfl (hpush b)
  | popBatch count => exact absurd rfl (hpop count)
  | push | pop | clear | count | available | isEmpty | isFull => rfl

/-! ## What the two threads show -/

/-- The two threads of a ring. -/
inductive Side where
  | producer
  | consumer
  deriving DecidableEq, Repr

/-- What a finished push call returns. -/
def Producer.reply : Producer σ → Option (Reply σ)
  | .pushDone _ accepted => some (.flag accepted)
  | .batchDone b pushed => some (.pushed (pushed == b.count && b.count != 0) pushed.toNat)
  | _ => none

/-- What a finished pop call returns. -/
def Consumer.reply : Consumer σ → Option (Reply σ)
  | .popDone x => some (.sample x)
  | .batchDone _ out => some (.popped (decide (0 < out.length)) out.length out)
  | _ => none

namespace Spsc

/-- A thread shows its calls, and the replies it returns with. -/
def view (s : Spsc σ) : Label σ → List (Event Side (RingOp σ) (Reply σ))
  | .callPush x => [.call .producer (.push x)]
  | .callPushBatch b => [.call .producer (.pushBatch b)]
  | .producer => (s.producer.reply.map (.ret .producer)).toList
  | .callPop => [.call .consumer .pop]
  | .callPopBatch count => [.call .consumer (.popBatch count)]
  | .consumer => (s.consumer.reply.map (.ret .consumer)).toList

/-- The ring's threads and the queue in use by two threads. -/
abbrev AtomicFifo (σ : Type) (n : Nat) := Atomic Side (RingOp σ) Nat (Reply σ) (Fifo σ n)

/-! ## The simulation -/

/-- How far the call of the producer is on the queue. -/
def ProducerSim (n : Nat) (p : Pending (RingOp σ) Nat (Reply σ)) : Producer σ → Prop
  | .idle => p = .idle
  | .push x | .pushHead x _ | .pushSlot x _ | .pushPublish x _ => p = .called (.push x)
  | .pushDone x accepted => (Producer.pushDone x accepted).reply.map .done = some p
  | .batch b | .batchHead b _ => p = .called (.pushBatch b)
  | .batchFree b k | .batchCopy b k _ _ _ =>
    ∃ seen, p = .looked (.pushBatch b) seen ∧ k.toNat = min b.count.toNat (n - seen)
  | .batchDone b pushed => (Producer.batchDone b pushed).reply.map .done = some p

/-- How far the call of the consumer is on the queue, for a ring with the given `tail`. -/
def ConsumerSim (tail : UInt32) (loaded : Nat) (p : Pending (RingOp σ) Nat (Reply σ)) :
    Consumer σ → Prop
  | .idle => p = .idle
  | .pop | .popTail | .popSlot _ | .popRelease _ _ => p = .called .pop
  -- an empty ring was empty when `head` was loaded
  | .popHead head => p = if head = tail then .done (.sample none) else .called .pop
  | .popDone x => (Consumer.popDone x).reply.map .done = some p
  | .batch count => p = .called (.popBatch count)
  | .batchHead count _ => p = .looked (.popBatch count) loaded
  | .batchTail count k | .batchCopy count k _ _ =>
    ∃ seen, p = .looked (.popBatch count) seen ∧ k.toNat = min count.toNat seen
  | .batchDone count out => (Consumer.batchDone count out).reply.map .done = some p

/-- The queue holds what the ring holds, and has refused as much. -/
structure Sim (s : Spsc σ) (a : AtomicFifo σ n) : Prop where
  inv : Inv s a.state.items
  places : s.rb.capacity.toNat = n + 1
  drops : a.state.drops = s.refused.length
  producer : ProducerSim n (a.pending .producer) s.producer
  consumer : ConsumerSim s.rb.tail s.occAtHeadLoad (a.pending .consumer) s.consumer

variable {s t : Spsc σ} {a b : AtomicFifo σ n} {q q' : List σ}

/-- The producer has published `xs`; the queue has taken them in. -/
theorem Sim.of_producer (h : Sim s a) (hs : s.producerStep = some t) (xs : List σ)
    (hpub : t.published = s.published ++ xs) (hitems : b.state.items = a.state.items ++ xs)
    (hdrops : b.state.drops = t.refused.length)
    (hcons : b.pending .consumer = a.pending .consumer)
    (hprod : ProducerSim n (b.pending .producer) t.producer) : Sim t b := by
  have hm := producerStep_move hs
  obtain ⟨q', hi⟩ := producerStep_inv h.inv hs
  have hq : q' = b.state.items := by
    have h' := hi.history
    rw [hpub, hm.returned, h.inv.history, List.append_assoc, ← hitems] at h'
    exact (List.append_cancel_left h').symm
  refine ⟨hq ▸ hi, hm.capacity ▸ h.places, hdrops, hprod, ?_⟩
  rw [hm.tail, hm.headLoad, hm.consumer, hcons]
  exact h.consumer

/-- The consumer has taken `xs` out; the queue has handed them out. -/
theorem Sim.of_consumer (h : Sim s a) (hs : s.consumerStep = some t) (xs : List σ)
    (hret : t.returned = s.returned ++ xs) (hitems : a.state.items = xs ++ b.state.items)
    (hdrops : b.state.drops = a.state.drops)
    (hprod : b.pending .producer = a.pending .producer)
    (hcons : ConsumerSim t.rb.tail t.occAtHeadLoad (b.pending .consumer) t.consumer) : Sim t b := by
  have hm := consumerStep_move hs
  obtain ⟨q', hi⟩ := consumerStep_inv h.inv hs
  have hq : q' = b.state.items := by
    have h' := hi.history
    rw [hm.published, hret, h.inv.history, List.append_assoc, hitems] at h'
    exact (List.append_cancel_left (List.append_cancel_left h')).symm
  refine ⟨hq ▸ hi, hm.capacity ▸ h.places, ?_, ?_, hcons⟩
  · rw [hm.refused, hdrops]
    exact h.drops
  · rw [hm.producer, hprod]
    exact h.producer

/-- An access of the producer at which nothing happens to the queue. -/
theorem Sim.producer_quiet (h : Sim s a) (hs : s.producerStep = some t)
    (hpub : t.published = s.published) (href : t.refused = s.refused)
    (hprod : ProducerSim n (a.pending .producer) t.producer) : Sim t a :=
  h.of_producer hs [] (by rw [hpub, List.append_nil]) (List.append_nil _).symm
    (by rw [href]; exact h.drops) rfl hprod

/-- An access of the consumer at which nothing happens to the queue. -/
theorem Sim.consumer_quiet (h : Sim s a) (hs : s.consumerStep = some t)
    (hret : t.returned = s.returned)
    (hcons : ConsumerSim t.rb.tail t.occAtHeadLoad (a.pending .consumer) t.consumer) : Sim t a :=
  h.of_consumer hs [] (by rw [hret, List.append_nil]) rfl rfl rfl hcons

/-- The queue's answer to a batch push that appends `k` samples. -/
theorem pushSeen_eq (f : Fifo σ n) (b : Batch σ) {seen : Nat} {k : UInt32}
    (hk : k.toNat = min b.count.toNat (n - seen)) (hroom : f.items.length + k.toNat ≤ n) :
    ((Fifo.object σ n).effect f (.pushBatch b) seen).1 =
        .pushed (k == b.count && b.count != 0) k.toNat ∧
      ((Fifo.object σ n).effect f (.pushBatch b) seen).2.items = f.items ++ b.items.take k.toNat ∧
      ((Fifo.object σ n).effect f (.pushBatch b) seen).2.drops =
        f.drops + (b.items.drop k.toNat).length := by
  have hlen := b.items_length
  have hfits : min b.items.length (min (n - seen) (n - f.items.length)) = k.toNat := by omega
  have hflag : decide (b.items.length ≤ k.toNat ∧ 0 < b.items.length) =
      (k == b.count && b.count != 0) := by
    rw [Bool.eq_iff_iff, decide_eq_true_iff, Bool.and_eq_true, beq_iff_eq, bne_iff_ne,
      Ne, ← UInt32.toNat_inj, ← UInt32.toNat_inj, hlen]
    simp only [UInt32.toNat_zero]
    omega
  simp only [Fifo.object, Fifo.pushSeen, hfits, hflag, List.length_drop]
  exact ⟨trivial, trivial, trivial⟩

/-- A batch push that finds no room, or asks for none, is over where it looks. -/
theorem Sim.batch_refused (h : Sim s a) (hs : s.producerStep = some t) {b : Batch σ}
    (hp : a.pending .producer = .called (.pushBatch b))
    (hzero : min b.count.toNat (n - a.state.items.length) = 0)
    (hpub : t.published = s.published) (href : t.refused = s.refused ++ b.items)
    (hprod : t.producer = .batchDone b 0) : ∃ a', (Fifo.object σ n).Run a [] a' ∧ Sim t a' := by
  have hbound := a.state.bounded
  obtain ⟨hreply, hitems, hdrops⟩ := pushSeen_eq a.state b (k := 0)
    (by rw [hzero]; rfl) (by simpa using hbound)
  rw [UInt32.toNat_zero, List.drop_zero, h.drops, ← List.length_append, ← href] at hdrops
  refine ⟨_, Object.run_at_once hp, h.of_producer hs [] (by rw [hpub, List.append_nil])
    ?_ hdrops rfl ?_⟩
  · rw [List.append_nil]
    exact hitems.trans (List.append_nil _)
  · simp only [Atomic.set_self, hprod, ProducerSim, Producer.reply, Option.map_some]
    exact congrArg (fun r => some (Pending.done r)) hreply.symm

/-- The producer's accesses, on the queue. -/
theorem producerStep_sim (h : Sim s a) (hs : s.producerStep = some t) :
    ∃ b, (Fifo.object σ n).Run a (view s .producer) b ∧ Sim t b := by
  have hq := h.inv.holds
  have hok := h.inv.producer
  have hroom := hq.room
  have hplaces := h.places
  have hp := h.producer
  unfold view
  cases producerStep_access hs with
  | push pos | pushRoom pos _ | pushSlot pos | batch pos _ | batchFree pos | batchCopy pos =>
    rw [pos] at hp ⊢
    exact ⟨a, .refl a, h.producer_quiet hs rfl rfl hp⟩
  | @pushFull x head pos full =>
    rw [pos] at hp hok ⊢
    obtain rfl : head = s.rb.head := hok
    have hfull := hq.full_iff.mp full
    have hlt : ¬ a.state.items.length < n := by omega
    refine ⟨_, Object.run_at_once hp, h.of_producer hs [] (List.append_nil _).symm ?_ ?_
      rfl ?_⟩
    · simp [Fifo.object, Fifo.apply, Fifo.push, hlt]
    · simp [Fifo.object, Fifo.apply, Fifo.push, hlt, h.drops]
    · simp [Fifo.object, Fifo.apply, Fifo.push, hlt, ProducerSim, Producer.reply]
  | @pushPublish x head pos =>
    rw [pos] at hp hok ⊢
    have hlt : a.state.items.length < n := by have := hok.2.1; omega
    refine ⟨_, Object.run_at_once hp, h.of_producer hs [x] rfl ?_ ?_
      rfl ?_⟩
    · simp [Fifo.object, Fifo.apply, Fifo.push, hlt]
    · simp [Fifo.object, Fifo.apply, Fifo.push, hlt, h.drops]
    · simp [Fifo.object, Fifo.apply, Fifo.push, hlt, ProducerSim, Producer.reply]
  | @pushDone x accepted pos =>
    rw [pos] at hp ⊢
    have hdone : a.pending .producer = .done (.flag accepted) := (Option.some.inj hp).symm
    refine ⟨_, (Object.Step.ret hdone).run, h.of_producer hs [] (List.append_nil _).symm
      (List.append_nil _).symm h.drops rfl (a.set_self _ _)⟩
  | @batchZero b pos zero =>
    rw [pos] at hp ⊢
    refine h.batch_refused hs hp (by rw [zero]; simp) rfl ?_ rfl
    simp [Batch.items, zero]
  | @batchFull b head pos full =>
    rw [pos] at hp hok ⊢
    obtain rfl : head = s.rb.head := hok
    have hpush := toPush_toNat hq b
    rw [full, UInt32.toNat_zero] at hpush
    exact h.batch_refused hs hp (by omega) rfl rfl rfl
  | @batchRoom b head pos room =>
    rw [pos] at hp hok ⊢
    obtain rfl : head = s.rb.head := hok
    have hpush := toPush_toNat hq b
    refine ⟨_, (Object.Step.look hp).run, h.of_producer hs [] (List.append_nil _).symm
      (List.append_nil _).symm h.drops rfl ?_⟩
    refine ⟨_, a.set_self _ _, ?_⟩
    rw [hpush, hplaces]
    rfl
  | @batchPublish b k head i pos =>
    rw [pos] at hp hok ⊢
    obtain ⟨seen, hlooked, hk⟩ := hp
    have hfits := hok.2.1.room
    obtain ⟨hreply, hitems, hdrops⟩ := pushSeen_eq a.state b hk (by omega)
    refine ⟨_, (Object.Step.effect hlooked).run, h.of_producer hs (b.items.take k.toNat) rfl
      hitems ?_ rfl ?_⟩
    · rw [hdrops, h.drops, List.length_append]
    · simp only [Atomic.set_self, ProducerSim, Producer.reply, Option.map_some]
      exact congrArg (fun r => some (Pending.done r)) hreply.symm
  | @batchDone b k pos =>
    rw [pos] at hp ⊢
    have hdone : a.pending .producer = .done (.pushed (k == b.count && b.count != 0) k.toNat) :=
      (Option.some.inj hp).symm
    refine ⟨_, (Object.Step.ret hdone).run, h.of_producer hs [] (List.append_nil _).symm
      (List.append_nil _).symm h.drops rfl (a.set_self _ _)⟩

/-- The consumer's accesses, on the queue. -/
theorem consumerStep_sim (h : Sim s a) (hs : s.consumerStep = some t) :
    ∃ b, (Fifo.object σ n).Run a (view s .consumer) b ∧ Sim t b := by
  have hq := h.inv.holds
  have hok := h.inv.consumer
  have hocc := h.inv.occupancy
  have hp := h.consumer
  unfold view
  cases consumerStep_access hs with
  | popTail pos | popSlot pos | batchTail pos | batchCopy pos _ =>
    rw [pos] at hp ⊢
    exact ⟨a, .refl a, h.consumer_quiet hs rfl hp⟩
  | pop pos =>
    rw [pos] at hp ⊢
    by_cases hempty : s.rb.head = s.rb.tail
    · have hnil : a.state.items = [] := List.length_eq_zero_iff.mp (hq.empty_iff.mp hempty)
      refine ⟨_, Object.run_at_once hp, h.of_consumer hs [] (List.append_nil _).symm ?_ rfl
        rfl ?_⟩
      · simp [Fifo.object, Fifo.apply, Fifo.pop, hnil]
      · simp [Fifo.object, Fifo.apply, Fifo.pop, hnil, ConsumerSim, hempty]
    · refine ⟨a, .refl a, h.consumer_quiet hs rfl ?_⟩
      simp only [ConsumerSim, if_neg hempty]
      exact hp
  | @popEmpty head pos empty =>
    rw [pos] at hp ⊢
    simp only [ConsumerSim, if_pos empty] at hp
    refine ⟨a, .refl a, h.consumer_quiet hs rfl ?_⟩
    rw [hp]
    rfl
  | @popHead head pos some =>
    rw [pos] at hp ⊢
    simp only [ConsumerSim, if_neg some] at hp
    exact ⟨a, .refl a, h.consumer_quiet hs rfl hp⟩
  | @popRelease tail x pos =>
    rw [pos] at hp hok ⊢
    obtain ⟨rest, hitems⟩ : ∃ rest, a.state.items = x :: rest := by
      have htake := hok.2
      cases hi : a.state.items with
      | nil => rw [hi] at htake; cases htake
      | cons y rest => rw [hi] at htake; cases htake; exact ⟨rest, rfl⟩
    refine ⟨_, Object.run_at_once hp, h.of_consumer hs [x] rfl ?_ rfl rfl ?_⟩
    · simp [Fifo.object, Fifo.apply, Fifo.pop, hitems]
    · simp [Fifo.object, Fifo.apply, Fifo.pop, hitems, ConsumerSim, Consumer.reply]
  | @popDone x pos =>
    rw [pos] at hp ⊢
    have hdone : a.pending .consumer = .done (.sample x) := (Option.some.inj hp).symm
    exact ⟨_, (Object.Step.ret hdone).run, h.of_consumer hs [] (List.append_nil _).symm
      rfl rfl rfl (a.set_self _ _)⟩
  | @batchZero count pos zero =>
    rw [pos] at hp ⊢
    refine ⟨_, Object.run_at_once hp, h.of_consumer hs [] (List.append_nil _).symm ?_ rfl
      rfl ?_⟩
    · simp [Fifo.object, Fifo.popBatch, zero]
    · simp [Fifo.object, Fifo.popBatch, zero, ConsumerSim, Consumer.reply]
  | @batch count pos some =>
    rw [pos] at hp ⊢
    refine ⟨_, (Object.Step.look hp).run, h.of_consumer hs [] (List.append_nil _).symm rfl rfl
      rfl ?_⟩
    simp only [ConsumerSim, Atomic.set_self, hocc]
    rfl
  | @batchEmpty count head pos empty =>
    rw [pos] at hp hok ⊢
    have hpop := toPop_toNat hq count hok.2 hok.1
    rw [empty, UInt32.toNat_zero] at hpop
    have hzero : min count.toNat s.occAtHeadLoad = 0 := hpop.symm
    refine ⟨_, (Object.Step.effect hp).run, h.of_consumer hs [] (List.append_nil _).symm ?_
      rfl rfl ?_⟩
    · simp only [Fifo.object, Fifo.popBatch, hzero, List.drop_zero, List.nil_append]
    · simp only [Fifo.object, Fifo.popBatch, Atomic.set_self, ConsumerSim, hzero, Nat.zero_min,
        Nat.lt_irrefl, decide_false, List.take_zero, Consumer.reply, List.length_nil,
        Option.map_some]
  | @batchHead count head pos some =>
    rw [pos] at hp hok ⊢
    exact ⟨a, .refl a, h.consumer_quiet hs rfl ⟨_, hp, toPop_toNat hq count hok.2 hok.1⟩⟩
  | @batchRelease count k tail out pos all =>
    rw [pos] at hp hok ⊢
    obtain ⟨seen, hlooked, hk⟩ := hp
    obtain ⟨_, hready, hlen, hout⟩ := hok
    have hle := hready.le
    have hn : out.length = min count.toNat seen := by omega
    have hmin : min (min count.toNat seen) a.state.items.length = out.length := by omega
    rw [hn] at hout
    refine ⟨_, (Object.Step.effect hlooked).run, h.of_consumer hs out rfl ?_ rfl
      rfl ?_⟩
    · calc a.state.items = a.state.items.take (min count.toNat seen) ++
            a.state.items.drop (min count.toNat seen) := (List.take_append_drop _ _).symm
        _ = out ++ a.state.items.drop (min count.toNat seen) := by rw [hout]
    · simp only [Fifo.object, Fifo.popBatch, Atomic.set_self, ConsumerSim, Consumer.reply,
        Option.map_some, hmin, hout]
  | @batchDone count out pos =>
    rw [pos] at hp ⊢
    have hdone : a.pending .consumer = .done (.popped (decide (0 < out.length)) out.length out) :=
      (Option.some.inj hp).symm
    exact ⟨_, (Object.Step.ret hdone).run, h.of_consumer hs [] (List.append_nil _).symm
      rfl rfl rfl (a.set_self _ _)⟩

theorem step_sim {l : Label σ} (h : Sim s a) (hs : s.step l = some t) :
    ∃ b, (Fifo.object σ n).Run a (view s l) b ∧ Sim t b := by
  cases l with
  | producer => exact producerStep_sim h hs
  | consumer => exact consumerStep_sim h hs
  | callPush x | callPushBatch b =>
    simp only [step] at hs
    split at hs
    · rename_i hidle
      cases hs
      have hp := h.producer
      rw [hidle] at hp
      exact ⟨_, (Object.Step.call _ hp).run, h.inv.setProducer trivial, h.places, h.drops,
        a.set_self _ _, h.consumer⟩
    · cases hs
  | callPop | callPopBatch count =>
    simp only [step] at hs
    split at hs
    · rename_i hidle
      cases hs
      have hp := h.consumer
      rw [hidle] at hp
      exact ⟨_, (Object.Step.call _ hp).run, h.inv.setConsumer trivial, h.places, h.drops,
        h.producer, a.set_self _ _⟩
    · cases hs

theorem init_sim {rb : RingBuffer σ} (h : rb.Fresh) (hn : rb.capacity.toNat = n + 1) :
    Sim (init rb) (.init (.empty σ n)) :=
  ⟨init_inv h, hn, rfl, rfl, rfl⟩

/-- However the accesses of the two threads interleave, their calls and replies are those of a
run of the bounded queue with one place less than the ring has slots, which ends with the samples
in the ring and the drops it has counted. -/
theorem ring_linearizable (rb : RingBuffer σ) (h : rb.Fresh) (ls : List (Label σ)) (s : Spsc σ)
    (hr : Runs.run step (init rb) ls = some s) :
    ∃ b : AtomicFifo σ (rb.capacity.toNat - 1),
      (Fifo.object σ (rb.capacity.toNat - 1)).Run (.init (.empty σ _))
        (history step view (init rb) ls) b ∧
      b.state.items = s.contents ∧ s.rb.dropped.toNat = b.state.drops % 2 ^ 64 := by
  have hcap := h.wf.two_le
  have hn : rb.capacity.toNat = rb.capacity.toNat - 1 + 1 := by omega
  obtain ⟨b, hrun, hsim⟩ := run_of_simulation (fun _ _ _ _ hsim hs => step_sim hsim hs)
    (init_sim h hn) hr
  refine ⟨b, hrun, hsim.inv.contents.symm, ?_⟩
  rw [hsim.inv.dropped, hsim.drops, UInt64.toNat_ofNat']

/-- Two pushes, of which the second is refused, while a pop waits for its load of `tail`. -/
theorem ring_linearizable_small : ∃ s b, Runs.run step (init smallRing) smallRun = some s ∧
    (Fifo.object Nat 1).Run (.init (.empty Nat 1)) (history step view (init smallRing) smallRun) b ∧
      history step view (init smallRing) smallRun =
        [.call .producer (.push 7), .ret .producer (.flag true), .call .consumer .pop,
          .call .producer (.push 8)] ∧ s.contents = [] ∧ b.state.items = [] := by
  obtain ⟨b, hrun, hitems, _⟩ := ring_linearizable smallRing smallRing_fresh smallRun _ rfl
  exact ⟨_, b, rfl, hrun, rfl, rfl, hitems⟩

end Spsc

end FastRing
