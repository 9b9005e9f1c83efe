import FastRing.Spsc

/-! # What an access does

`producerStep` and `consumerStep` once more, access by access: which position the thread was
in, what it has found, and the state after it. Everything about single accesses is proved by
cases of these. -/

namespace FastRing.Spsc

variable {σ : Type} {s t : Spsc σ}

/-- The number of samples of a batch to push, when `head` was loaded before. -/
def toPush (s : Spsc σ) (b : Batch σ) (head : UInt32) : UInt32 :=
  let available := s.rb.capacity - ((head - s.rb.tail) &&& s.rb.mask) - 1
  if b.count < available then b.count else available

/-- The number of samples to pop, when `head` was loaded before. -/
def toPop (s : Spsc σ) (count head : UInt32) : UInt32 :=
  let currentCount := (head - s.rb.tail) &&& s.rb.mask
  if count < currentCount then count else currentCount

inductive ProducerAccess (s : Spsc σ) : Spsc σ → Prop
  | push {x : σ} (pos : s.producer = .push x) :
      ProducerAccess s { s with producer := .pushHead x s.rb.head }
  | pushFull {x : σ} {head : UInt32} (pos : s.producer = .pushHead x head)
      (full : (head + 1) &&& s.rb.mask = s.rb.tail) :
      ProducerAccess s { s with
        rb := { s.rb with dropped := s.rb.dropped + 1 }
        producer := .pushDone x false
        refused := s.refused ++ [x]
        occAtTailLoad := s.occupancy }
  | pushRoom {x : σ} {head : UInt32} (pos : s.producer = .pushHead x head)
      (room : (head + 1) &&& s.rb.mask ≠ s.rb.tail) :
      ProducerAccess s { s with producer := .pushSlot x head, occAtTailLoad := s.occupancy }
  | pushSlot {x : σ} {head : UInt32} (pos : s.producer = .pushSlot x head) :
      ProducerAccess s { s with
        rb := { s.rb with buffer := Function.update s.rb.buffer head.toNat x }
        producer := .pushPublish x head }
  | pushPublish {x : σ} {head : UInt32} (pos : s.producer = .pushPublish x head) :
      ProducerAccess s { s with
        rb := { s.rb with head := (head + 1) &&& s.rb.mask }
        producer := .pushDone x true
        published := s.published ++ [x] }
  | pushDone {x : σ} {accepted : Bool} (pos : s.producer = .pushDone x accepted) :
      ProducerAccess s { s with producer := .idle }
  | batchZero {b : Batch σ} (pos : s.producer = .batch b) (zero : b.count = 0) :
      ProducerAccess s { s with producer := .batchDone b 0 }
  | batch {b : Batch σ} (pos : s.producer = .batch b) (some : b.count ≠ 0) :
      ProducerAccess s { s with producer := .batchHead b s.rb.head }
  | batchFull {b : Batch σ} {head : UInt32} (pos : s.producer = .batchHead b head)
      (full : s.toPush b head = 0) :
      ProducerAccess s { s with
        rb := { s.rb with dropped := s.rb.dropped + b.count.toUInt64 }
        producer := .batchDone b 0
        refused := s.refused ++ b.items
        occAtTailLoad := s.occupancy }
  | batchRoom {b : Batch σ} {head : UInt32} (pos : s.producer = .batchHead b head)
      (room : s.toPush b head ≠ 0) :
      ProducerAccess s { s with
        producer := .batchFree b (s.toPush b head), occAtTailLoad := s.occupancy }
  | batchFree {b : Batch σ} {n : UInt32} (pos : s.producer = .batchFree b n) :
      ProducerAccess s { s with
        producer := .batchCopy b n s.rb.head 0 (b.samples.take n.toNat) }
  | batchCopy {b : Batch σ} {n head : UInt32} {i : Nat} {x : σ} {todo : List σ}
      (pos : s.producer = .batchCopy b n head i (x :: todo)) :
      ProducerAccess s { s with
        rb := { s.rb with buffer := Function.update s.rb.buffer (slotAt s.rb head n i) x }
        producer := .batchCopy b n head (i + 1) todo }
  | batchPublish {b : Batch σ} {n head : UInt32} {i : Nat}
      (pos : s.producer = .batchCopy b n head i []) :
      ProducerAccess s { s with
        rb := { s.rb with
          head := (head + n) &&& s.rb.mask
          dropped := if n < b.count then s.rb.dropped + (b.count - n).toUInt64 else s.rb.dropped }
        producer := .batchDone b n
        published := s.published ++ b.items.take n.toNat
        refused := s.refused ++ b.items.drop n.toNat }
  | batchDone {b : Batch σ} {n : UInt32} (pos : s.producer = .batchDone b n) :
      ProducerAccess s { s with producer := .idle }

theorem producerStep_access (h : s.producerStep = some t) : ProducerAccess s t := by
  unfold producerStep at h
  cases pos : s.producer with
  | idle => simp [pos] at h
  | push x =>
    simp only [pos] at h
    cases h
    exact .push pos
  | pushHead x head =>
    simp only [pos] at h
    split at h
    · rename_i full
      cases h
      exact .pushFull pos full
    · rename_i room
      cases h
      exact .pushRoom pos room
  | pushSlot x head =>
    simp only [pos] at h
    cases h
    exact .pushSlot pos
  | pushPublish x head =>
    simp only [pos] at h
    cases h
    exact .pushPublish pos
  | pushDone x accepted =>
    simp only [pos] at h
    cases h
    exact .pushDone pos
  | batch b =>
    simp only [pos] at h
    split at h
    · rename_i zero
      cases h
      exact .batchZero pos zero
    · rename_i some
      cases h
      exact .batch pos some
  | batchHead b head =>
    simp only [pos] at h
    change (if s.toPush b head = 0 then _ else some { s with
      producer := .batchFree b (s.toPush b head), occAtTailLoad := s.occupancy }) = some t at h
    split at h
    · rename_i full
      cases h
      exact .batchFull pos full
    · rename_i room
      cases h
      exact .batchRoom pos room
  | batchFree b n =>
    simp only [pos] at h
    cases h
    exact .batchFree pos
  | batchCopy b n head i todo =>
    simp only [pos] at h
    cases todo with
    | nil =>
      cases h
      exact .batchPublish pos
    | cons x todo =>
      cases h
      exact .batchCopy pos
  | batchDone b n =>
    simp only [pos] at h
    cases h
    exact .batchDone pos

inductive ConsumerAccess (s : Spsc σ) : Spsc σ → Prop
  | pop (pos : s.consumer = .pop) :
      ConsumerAccess s { s with consumer := .popHead s.rb.head, occAtHeadLoad := s.occupancy }
  | popEmpty {head : UInt32} (pos : s.consumer = .popHead head) (empty : head = s.rb.tail) :
      ConsumerAccess s { s with consumer := .popDone none }
  | popHead {head : UInt32} (pos : s.consumer = .popHead head) (some : head ≠ s.rb.tail) :
      ConsumerAccess s { s with consumer := .popTail }
  | popTail (pos : s.consumer = .popTail) :
      ConsumerAccess s { s with consumer := .popSlot s.rb.tail }
  | popSlot {tail : UInt32} (pos : s.consumer = .popSlot tail) :
      ConsumerAccess s { s with consumer := .popRelease tail (s.rb.buffer tail.toNat) }
  | popRelease {tail : UInt32} {x : σ} (pos : s.consumer = .popRelease tail x) :
      ConsumerAccess s { s with
        rb := { s.rb with tail := (tail + 1) &&& s.rb.mask }
        consumer := .popDone (some x)
        returned := s.returned ++ [x] }
  | popDone {x : Option σ} (pos : s.consumer = .popDone x) :
      ConsumerAccess s { s with consumer := .idle }
  | batchZero {count : UInt32} (pos : s.consumer = .batch count) (zero : count = 0) :
      ConsumerAccess s { s with consumer := .batchDone count [] }
  | batch {count : UInt32} (pos : s.consumer = .batch count) (some : count ≠ 0) :
      ConsumerAccess s { s with
        consumer := .batchHead count s.rb.head, occAtHeadLoad := s.occupancy }
  | batchEmpty {count head : UInt32} (pos : s.consumer = .batchHead count head)
      (empty : s.toPop count head = 0) :
      ConsumerAccess s { s with consumer := .batchDone count [] }
  | batchHead {count head : UInt32} (pos : s.consumer = .batchHead count head)
      (some : s.toPop count head ≠ 0) :
      ConsumerAccess s { s with consumer := .batchTail count (s.toPop count head) }
  | batchTail {count n : UInt32} (pos : s.consumer = .batchTail count n) :
      ConsumerAccess s { s with consumer := .batchCopy count n s.rb.tail [] }
  | batchCopy {count n tail : UInt32} {out : List σ} (pos : s.consumer = .batchCopy count n tail out)
      (more : out.length < n.toNat) :
      ConsumerAccess s { s with
        consumer := .batchCopy count n tail (out ++ [s.rb.buffer (slotAt s.rb tail n out.length)]) }
  | batchRelease {count n tail : UInt32} {out : List σ}
      (pos : s.consumer = .batchCopy count n tail out) (all : ¬ out.length < n.toNat) :
      ConsumerAccess s { s with
        rb := { s.rb with tail := (tail + n) &&& s.rb.mask }
        consumer := .batchDone count out
        returned := s.returned ++ out }
  | batchDone {count : UInt32} {out : List σ} (pos : s.consumer = .batchDone count out) :
      ConsumerAccess s { s with consumer := .idle }

theorem consumerStep_access (h : s.consumerStep = some t) : ConsumerAccess s t := by
  unfold consumerStep at h
  cases pos : s.consumer with
  | idle => simp [pos] at h
  | pop =>
    simp only [pos] at h
    cases h
    exact .pop pos
  | popHead head =>
    simp only [pos] at h
    split at h
    · rename_i empty
      cases h
      exact .popEmpty pos empty
    · rename_i some
      cases h
      exact .popHead pos some
  | popTail =>
    simp only [pos] at h
    cases h
    exact .popTail pos
  | popSlot tail =>
    simp only [pos] at h
    cases h
    exact .popSlot pos
  | popRelease tail x =>
    simp only [pos] at h
    cases h
    exact .popRelease pos
  | popDone x =>
    simp only [pos] at h
    cases h
    exact .popDone pos
  | batch count =>
    simp only [pos] at h
    split at h
    · rename_i zero
      cases h
      exact .batchZero pos zero
    · rename_i some
      cases h
      exact .batch pos some
  | batchHead count head =>
    simp only [pos] at h
    change (if s.toPop count head = 0 then _ else
      some { s with consumer := .batchTail count (s.toPop count head) }) = some t at h
    split at h
    · rename_i empty
      cases h
      exact .batchEmpty pos empty
    · rename_i some
      cases h
      exact .batchHead pos some
  | batchTail count n =>
    simp only [pos] at h
    cases h
    exact .batchTail pos
  | batchCopy count n tail out =>
    simp only [pos] at h
    split at h
    · rename_i more
      cases h
      exact .batchCopy pos more
    · rename_i all
      cases h
      exact .batchRelease pos all
  | batchDone count out =>
    simp only [pos] at h
    cases h
    exact .batchDone pos

end FastRing.Spsc
