import FastRing.SpscFlow
import FastRing.SpscSafety
import FastRing.Lib.Progress

/-! # Ring operations are wait-free

No ring operation waits for the other thread: a thread inside a call can always take its next
access, and the number of accesses until the call returns has a bound that neither the contents
of the ring nor the other thread can raise. -/

namespace FastRing

variable {σ : Type}

/-- At most so many accesses until the producer's call has returned, on a ring with room for
`places` samples. -/
def Producer.todo (places : Nat) : Producer σ → Nat
  | .idle => 0
  | .push _ => 5
  | .pushHead _ _ => 4
  | .pushSlot _ _ => 3
  | .pushPublish _ _ => 2
  | .pushDone _ _ => 1
  | .batch b => min b.count.toNat places + 5
  | .batchHead b _ => min b.count.toNat places + 4
  | .batchFree _ toPush => toPush.toNat + 3
  | .batchCopy _ _ _ _ todo => todo.length + 2
  | .batchDone _ _ => 1

/-- At most so many accesses until the consumer's call has returned. -/
def Consumer.todo (places : Nat) : Consumer σ → Nat
  | .idle => 0
  | .pop => 6
  | .popHead _ => 5
  | .popTail => 4
  | .popSlot _ => 3
  | .popRelease _ _ => 2
  | .popDone _ => 1
  | .batch count => min count.toNat places + 5
  | .batchHead count _ => min count.toNat places + 4
  | .batchTail _ toPop => toPop.toNat + 3
  | .batchCopy _ toPop _ out => toPop.toNat - out.length + 2
  | .batchDone _ _ => 1

namespace Spsc

variable {s t : Spsc σ} {q : List σ}

/-- The samples that fit into the ring. -/
def places (s : Spsc σ) : Nat := s.rb.capacity.toNat - 1

/-! ## The next access is always there -/

theorem producerStep_isSome (h : s.producer ≠ .idle) : ∃ t, s.producerStep = some t := by
  unfold producerStep
  cases pos : s.producer with
  | idle => exact absurd pos h
  | batchCopy b toPush head i todo =>
    cases todo with
    | nil => exact ⟨_, rfl⟩
    | cons x todo => exact ⟨_, rfl⟩
  | pushHead x head | batch b =>
    simp only
    split <;> exact ⟨_, rfl⟩
  | batchHead b head =>
    simp only
    split <;> split <;> exact ⟨_, rfl⟩
  | _ => exact ⟨_, rfl⟩

theorem consumerStep_isSome (h : s.consumer ≠ .idle) : ∃ t, s.consumerStep = some t := by
  unfold consumerStep
  cases pos : s.consumer with
  | idle => exact absurd pos h
  | popHead head | batch count | batchCopy count toPop tail out =>
    simp only
    split <;> exact ⟨_, rfl⟩
  | batchHead count head =>
    simp only
    split <;> split <;> exact ⟨_, rfl⟩
  | _ => exact ⟨_, rfl⟩

/-! ## Each access leaves fewer -/

theorem producerStep_todo (hi : Inv s q) (h : s.producerStep = some t) :
    t.producer.todo s.places < s.producer.todo s.places := by
  have hp := hi.producer
  cases producerStep_access h with
  | push pos | pushFull pos | pushRoom pos | pushSlot pos | pushPublish pos | pushDone pos =>
    simp [pos, Producer.todo]
  | batchZero pos | batch pos | batchFull pos | batchPublish pos | batchDone pos =>
    simp [pos, Producer.todo]
  | @batchRoom b head pos room =>
    rw [pos] at hp
    obtain rfl : head = s.rb.head := hp
    have hpush := toPush_toNat hi.holds b
    simp only [pos, Producer.todo, places]
    omega
  | batchFree pos =>
    simp only [pos, Producer.todo, List.length_take]
    omega
  | batchCopy pos => simp [pos, Producer.todo]

theorem consumerStep_todo (hi : Inv s q) (h : s.consumerStep = some t) :
    t.consumer.todo s.places < s.consumer.todo s.places := by
  have hroom := hi.holds.room
  have hc := hi.consumer
  cases consumerStep_access h with
  | pop pos | popEmpty pos | popHead pos | popTail pos | popSlot pos | popRelease pos | popDone pos =>
    simp [pos, Consumer.todo]
  | batchZero pos | batch pos | batchEmpty pos | batchDone pos => simp [pos, Consumer.todo]
  | @batchHead count head pos some =>
    rw [pos] at hc
    have hpop := toPop_toNat hi.holds count hc.2 hc.1
    have hle := hc.2
    simp only [pos, Consumer.todo, places]
    omega
  | batchTail pos =>
    simp only [pos, Consumer.todo, List.length_nil]
    omega
  | batchCopy pos more =>
    simp only [pos, Consumer.todo, List.length_append, List.length_singleton]
    omega
  | batchRelease pos =>
    simp only [pos, Consumer.todo]
    omega

/-! ## One thread among two -/

/-- Any step but a new call of the producer. -/
def Label.noPush : Label σ → Prop
  | .callPush _ | .callPushBatch _ => False
  | _ => True

/-- Any step but a new call of the consumer. -/
def Label.noPop : Label σ → Prop
  | .callPop | .callPopBatch _ => False
  | _ => True

/-- The accesses of the producer. -/
def Label.pushing : Label σ → Option Unit
  | .producer => some ()
  | _ => none

/-- The accesses of the consumer. -/
def Label.popping : Label σ → Option Unit
  | .consumer => some ()
  | _ => none

/-- The producer's call returns within `n` of its own accesses, whatever the consumer does. -/
def PushWithin (n : Nat) (s : Spsc σ) : Prop :=
  Progress.Within step Label.noPush Label.pushing (fun t => t.producer = .idle) n s

/-- The consumer's call returns within `n` of its own accesses, whatever the producer does. -/
def PopWithin (n : Nat) (s : Spsc σ) : Prop :=
  Progress.Within step Label.noPop Label.popping (fun t => t.consumer = .idle) n s

/-- What holds in every state, with the size of the ring. -/
def Sized (places : Nat) (s : Spsc σ) : Prop := (∃ q, Inv s q) ∧ s.places = places

theorem step_capacity {l : Label σ} (h : s.step l = some t) : t.rb.capacity = s.rb.capacity := by
  cases l with
  | producer => exact (producerStep_move h).capacity
  | consumer => exact (consumerStep_move h).capacity
  | callPush | callPushBatch | callPop | callPopBatch =>
    simp only [step] at h
    split at h
    · cases h; rfl
    · cases h

theorem step_sized {n : Nat} {l : Label σ} (hs : Sized n s) (h : s.step l = some t) : Sized n t := by
  obtain ⟨⟨q, hi⟩, hn⟩ := hs
  refine ⟨step_inv hi h, ?_⟩
  rw [places, step_capacity h]
  exact hn

/-- Only the producer's own steps move the producer. -/
theorem step_producer {l : Label σ} (h : s.step l = some t) (hok : l.noPush) :
    l.pushing = some () ∧ s.producerStep = some t ∨
      l.pushing = none ∧ t.producer = s.producer := by
  cases l with
  | producer => exact .inl ⟨rfl, h⟩
  | consumer => exact .inr ⟨rfl, (consumerStep_move h).producer⟩
  | callPush | callPushBatch => exact absurd hok id
  | callPop | callPopBatch =>
    simp only [step] at h
    split at h
    · cases h; exact .inr ⟨rfl, rfl⟩
    · cases h

theorem step_consumer {l : Label σ} (h : s.step l = some t) (hok : l.noPop) :
    l.popping = some () ∧ s.consumerStep = some t ∨
      l.popping = none ∧ t.consumer = s.consumer := by
  cases l with
  | consumer => exact .inl ⟨rfl, h⟩
  | producer => exact .inr ⟨rfl, (producerStep_move h).consumer⟩
  | callPop | callPopBatch => exact absurd hok id
  | callPush | callPushBatch =>
    simp only [step] at h
    split at h
    · cases h; exact .inr ⟨rfl, rfl⟩
    · cases h

theorem producer_ranked (n : Nat) :
    Progress.Ranked (step (σ := σ)) Label.noPush Label.pushing (Sized n)
      fun s => s.producer.todo n := by
  refine ⟨fun s l t hs _ h => step_sized hs h, fun s l t hs hok h hown => ?_,
    fun s l t _ hs hok h hown => ?_⟩
  · rcases step_producer h hok with ⟨hyes, _⟩ | ⟨_, hp⟩
    · cases hown.symm.trans hyes
    · exact Nat.le_of_eq (by rw [hp])
  · obtain ⟨⟨q, hi⟩, rfl⟩ := hs
    rcases step_producer h hok with ⟨_, hp⟩ | ⟨hno, _⟩
    · exact producerStep_todo hi hp
    · cases hown.symm.trans hno

theorem consumer_ranked (n : Nat) :
    Progress.Ranked (step (σ := σ)) Label.noPop Label.popping (Sized n)
      fun s => s.consumer.todo n := by
  refine ⟨fun s l t hs _ h => step_sized hs h, fun s l t hs hok h hown => ?_,
    fun s l t _ hs hok h hown => ?_⟩
  · rcases step_consumer h hok with ⟨hyes, _⟩ | ⟨_, hp⟩
    · cases hown.symm.trans hyes
    · exact Nat.le_of_eq (by rw [hp])
  · obtain ⟨⟨q, hi⟩, rfl⟩ := hs
    rcases step_consumer h hok with ⟨_, hp⟩ | ⟨hno, _⟩
    · exact consumerStep_todo hi hp
    · cases hown.symm.trans hno

theorem pushWithin {n m : Nat} (hs : Sized n s) (hm : s.producer.todo n ≤ m) : PushWithin m s := by
  refine (producer_ranked n).within (fun u _ => ?_) hs hm
  by_cases hidle : u.producer = .idle
  · exact .inl hidle
  · refine .inr ⟨(), ⟨.producer, trivial, rfl⟩, fun l _ hl => ?_⟩
    cases l with
    | producer => exact producerStep_isSome hidle
    | _ => cases hl

theorem popWithin {n m : Nat} (hs : Sized n s) (hm : s.consumer.todo n ≤ m) : PopWithin m s := by
  refine (consumer_ranked n).within (fun u _ => ?_) hs hm
  by_cases hidle : u.consumer = .idle
  · exact .inl hidle
  · refine .inr ⟨(), ⟨.consumer, trivial, rfl⟩, fun l _ hl => ?_⟩
    cases l with
    | consumer => exact consumerStep_isSome hidle
    | _ => cases hl

/-- In every reachable state a call of a ring operation returns within a number of accesses that
depends on the call and the capacity only: 5 for a push, 6 for a pop, and 5 more than samples for
a batch. -/
theorem ring_wait_free (rb : RingBuffer σ) (h : rb.Fresh) (ls : List (Label σ)) (s t : Spsc σ)
    (hr : Runs.run step (init rb) ls = some s) :
    (∀ x, s.step (.callPush x) = some t → PushWithin 5 t) ∧
      (∀ b, s.step (.callPushBatch b) = some t →
        PushWithin (min b.count.toNat (rb.capacity.toNat - 1) + 5) t) ∧
      (s.step .callPop = some t → PopWithin 6 t) ∧
      ∀ count, s.step (.callPopBatch count) = some t →
        PopWithin (min count.toNat (rb.capacity.toNat - 1) + 5) t := by
  have hs : Sized (rb.capacity.toNat - 1) s :=
    Runs.invariant (fun _ _ _ hs h => step_sized hs h) ⟨⟨[], init_inv h⟩, rfl⟩ hr
  refine ⟨fun x hx => ?_, fun b hb => ?_, fun hp => ?_, fun count hc => ?_⟩
  · refine pushWithin (step_sized hs hx) ?_
    simp only [step] at hx
    split at hx <;> cases hx
    exact Nat.le_refl _
  · refine pushWithin (step_sized hs hb) ?_
    simp only [step] at hb
    split at hb <;> cases hb
    exact Nat.le_refl _
  · refine popWithin (step_sized hs hp) ?_
    simp only [step] at hp
    split at hp <;> cases hp
    exact Nat.le_refl _
  · refine popWithin (step_sized hs hc) ?_
    simp only [step] at hc
    split at hc <;> cases hc
    exact Nat.le_refl _

/-- A batch of three on a ring with one place: six accesses at most. -/
theorem ring_wait_free_batch : ∃ t : Spsc Nat,
    step (init smallRing) (.callPopBatch 3) = some t ∧ PopWithin 6 t :=
  ⟨_, rfl, (ring_wait_free smallRing smallRing_fresh [] _ _ rfl).2.2.2 3 rfl⟩

end Spsc

end FastRing
