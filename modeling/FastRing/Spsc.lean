import FastRing.RingCreate
import FastRing.Lib.Runs

/-! # One producer and one consumer, access by access

The ring under one producer thread and one consumer thread. Every call is cut into
its loads and stores of `head`, `tail` and single slots, in program order; a
`memcpy` is one step per slot. A producer or consumer position names what the call
has loaded so far and stands before the next access. `dropped` is written by the
producer only, and its update goes with the step that decides it.

In `rb->head == rb->tail` C leaves the order of the two loads open. The consumer
owns `tail`, so that loading `head` first loses nothing.

Five fields are history, which no step reads: the samples published, returned and
refused so far, and how many samples the ring held when the producer last loaded
`tail` and when the consumer last loaded `head`. -/

namespace FastRing

variable {σ : Type}

/-- Positions of the producer thread. -/
inductive Producer (σ : Type) where
  | idle
  -- ring_buffer_push
  | push (x : σ)
  | pushHead (x : σ) (head : UInt32)
  | pushSlot (x : σ) (head : UInt32)
  | pushPublish (x : σ) (head : UInt32)
  | pushDone (x : σ) (accepted : Bool)
  -- ring_buffer_push_batch; `todo` is what is left to copy after `i` slots
  | batch (b : Batch σ)
  | batchHead (b : Batch σ) (head : UInt32)
  | batchFree (b : Batch σ) (toPush : UInt32)
  | batchCopy (b : Batch σ) (toPush head : UInt32) (i : Nat) (todo : List σ)
  | batchDone (b : Batch σ) (pushed : UInt32)

/-- Positions of the consumer thread. -/
inductive Consumer (σ : Type) where
  | idle
  -- ring_buffer_pop
  | pop
  | popHead (head : UInt32)
  | popTail
  | popSlot (tail : UInt32)
  | popRelease (tail : UInt32) (x : σ)
  | popDone (x : Option σ)
  -- ring_buffer_pop_batch; `out` is what was copied so far
  | batch (count : UInt32)
  | batchHead (count head : UInt32)
  | batchTail (count toPop : UInt32)
  | batchCopy (count toPop tail : UInt32) (out : List σ)
  | batchDone (count : UInt32) (out : List σ)

def Producer.isIdle : Producer σ → Bool
  | .idle => true
  | _ => false

def Consumer.isIdle : Consumer σ → Bool
  | .idle => true
  | _ => false

/-- The shared ring, the two threads and the history. -/
structure Spsc (σ : Type) where
  rb : RingBuffer σ
  producer : Producer σ
  consumer : Consumer σ
  published : List σ
  returned : List σ
  refused : List σ
  occAtTailLoad : Nat
  occAtHeadLoad : Nat

namespace Spsc

def init (rb : RingBuffer σ) : Spsc σ :=
  { rb := rb, producer := .idle, consumer := .idle, published := [], returned := [], refused := [],
    occAtTailLoad := 0, occAtHeadLoad := 0 }

/-- The number of samples published and not yet consumed. -/
def occupancy (s : Spsc σ) : Nat := s.published.length - s.returned.length

/-- The producer's next access, from inside a call. -/
def producerStep (s : Spsc σ) : Option (Spsc σ) :=
  match s.producer with
  | .idle => none
  | .push x => some { s with producer := .pushHead x s.rb.head }
  | .pushHead x head =>
    -- load of tail, and the test for a full ring
    if (head + 1) &&& s.rb.mask = s.rb.tail then
      some { s with
        rb := { s.rb with dropped := s.rb.dropped + 1 }
        producer := .pushDone x false
        refused := s.refused ++ [x]
        occAtTailLoad := s.occupancy }
    else some { s with producer := .pushSlot x head, occAtTailLoad := s.occupancy }
  | .pushSlot x head =>
    some { s with
      rb := { s.rb with buffer := Function.update s.rb.buffer head.toNat x }
      producer := .pushPublish x head }
  | .pushPublish x head =>
    some { s with
      rb := { s.rb with head := (head + 1) &&& s.rb.mask }
      producer := .pushDone x true
      published := s.published ++ [x] }
  | .pushDone _ _ => some { s with producer := .idle }
  | .batch b =>
    if b.count = 0 then some { s with producer := .batchDone b 0 }
    else some { s with producer := .batchHead b s.rb.head }
  | .batchHead b head =>
    -- load of tail in ring_buffer_count, then `available` and `to_push`
    let available := s.rb.capacity - ((head - s.rb.tail) &&& s.rb.mask) - 1
    let toPush := if b.count < available then b.count else available
    if toPush = 0 then
      some { s with
        rb := { s.rb with dropped := s.rb.dropped + b.count.toUInt64 }
        producer := .batchDone b 0
        refused := s.refused ++ b.items
        occAtTailLoad := s.occupancy }
    else some { s with producer := .batchFree b toPush, occAtTailLoad := s.occupancy }
  | .batchFree b toPush =>
    some { s with producer := .batchCopy b toPush s.rb.head 0 (b.samples.take toPush.toNat) }
  | .batchCopy b toPush head i (x :: todo) =>
    some { s with
      rb := { s.rb with buffer := Function.update s.rb.buffer (slotAt s.rb head toPush i) x }
      producer := .batchCopy b toPush head (i + 1) todo }
  | .batchCopy b toPush head _ [] =>
    some { s with
      rb := { s.rb with
        head := (head + toPush) &&& s.rb.mask
        dropped :=
          if toPush < b.count then s.rb.dropped + (b.count - toPush).toUInt64 else s.rb.dropped }
      producer := .batchDone b toPush
      published := s.published ++ b.items.take toPush.toNat
      refused := s.refused ++ b.items.drop toPush.toNat }
  | .batchDone _ _ => some { s with producer := .idle }

/-- The consumer's next access, from inside a call. -/
def consumerStep (s : Spsc σ) : Option (Spsc σ) :=
  match s.consumer with
  | .idle => none
  | .pop => some { s with consumer := .popHead s.rb.head, occAtHeadLoad := s.occupancy }
  | .popHead head =>
    if head = s.rb.tail then some { s with consumer := .popDone none }
    else some { s with consumer := .popTail }
  | .popTail => some { s with consumer := .popSlot s.rb.tail }
  | .popSlot tail => some { s with consumer := .popRelease tail (s.rb.buffer tail.toNat) }
  | .popRelease tail x =>
    some { s with
      rb := { s.rb with tail := (tail + 1) &&& s.rb.mask }
      consumer := .popDone (some x)
      returned := s.returned ++ [x] }
  | .popDone _ => some { s with consumer := .idle }
  | .batch count =>
    if count = 0 then some { s with consumer := .batchDone count [] }
    else some { s with consumer := .batchHead count s.rb.head, occAtHeadLoad := s.occupancy }
  | .batchHead count head =>
    -- load of tail in ring_buffer_count, then `to_pop`
    let currentCount := (head - s.rb.tail) &&& s.rb.mask
    let toPop := if count < currentCount then count else currentCount
    if toPop = 0 then some { s with consumer := .batchDone count [] }
    else some { s with consumer := .batchTail count toPop }
  | .batchTail count toPop => some { s with consumer := .batchCopy count toPop s.rb.tail [] }
  | .batchCopy count toPop tail out =>
    if out.length < toPop.toNat then
      some { s with
        consumer := .batchCopy count toPop tail
          (out ++ [s.rb.buffer (slotAt s.rb tail toPop out.length)]) }
    else
      some { s with
        rb := { s.rb with tail := (tail + toPop) &&& s.rb.mask }
        consumer := .batchDone count out
        returned := s.returned ++ out }
  | .batchDone _ _ => some { s with consumer := .idle }

/-- A step of the system: a call by an idle thread, or the next access of a thread
inside a call. -/
inductive Label (σ : Type) where
  | callPush (x : σ)
  | callPushBatch (b : Batch σ)
  | producer
  | callPop
  | callPopBatch (count : UInt32)
  | consumer

def step (s : Spsc σ) : Label σ → Option (Spsc σ)
  | .callPush x =>
    match s.producer with
    | .idle => some { s with producer := .push x }
    | _ => none
  | .callPushBatch b =>
    match s.producer with
    | .idle => some { s with producer := .batch b }
    | _ => none
  | .producer => s.producerStep
  | .callPop =>
    match s.consumer with
    | .idle => some { s with consumer := .pop }
    | _ => none
  | .callPopBatch count =>
    match s.consumer with
    | .idle => some { s with consumer := .batch count }
    | _ => none
  | .consumer => s.consumerStep

end Spsc

end FastRing
