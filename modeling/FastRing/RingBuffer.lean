import Mathlib.Data.Nat.Bitwise
import FastRing.Types
import FastRing.Lib.Window

/-! # The ring buffer, as `ring_buffer.c` computes it

The functions take and return the control structure and the slot array. Pointers
are taken to be valid: the NULL guards at the top of each function return before
anything is read. The slot array is a total function, so that no access is cut
short here; that every index used is below the capacity is proved, not built in.
`bool` results with an out parameter come back as pairs, and a popped sample as
an `Option`. -/

namespace FastRing

variable {σ : Type}

/-- `ring_buffer_t`. -/
structure RingBuffer (σ : Type) where
  head : UInt32
  tail : UInt32
  capacity : UInt32
  mask : UInt32
  buffer : Nat → σ
  dropped : UInt64

/-! ## Creation -/

/-- The loop `while (power < capacity) power <<= 1`; `none` when it is still
running after `fuel` iterations. -/
def roundUpLoop : Nat → UInt32 → UInt32 → Option UInt32
  | 0, _, _ => none
  | fuel + 1, power, capacity =>
    if power < capacity then roundUpLoop fuel (power <<< 1) capacity else some power

/-- The capacity `ring_buffer_create` settles on: at least 2, and rounded up when
it is not already a power of two. -/
def normalizeCapacity (fuel : Nat) (capacity : UInt32) : Option UInt32 :=
  let capacity := if capacity < 2 then 2 else capacity
  if (capacity &&& (capacity - 1)) != 0 then roundUpLoop fuel 1 capacity else some capacity

/-- `ring_buffer_create`. `control` is whether `calloc` delivers the control
structure; `data` is what `posix_memalign` delivers for a capacity, with whatever
the memory held before. The outer `none` is the rounding loop still running, the
inner one the returned `NULL`. -/
def ringBufferCreate (fuel : Nat) (capacity : UInt32) (control : Bool)
    (data : UInt32 → Option (Nat → σ)) : Option (Option (RingBuffer σ)) :=
  (normalizeCapacity fuel capacity).map fun capacity =>
    if control = false then none
    else (data capacity).map fun buffer =>
      { head := 0, tail := 0, capacity := capacity, mask := capacity - 1,
        buffer := buffer, dropped := 0 }

/-! ## Queries -/

def ringBufferCount (rb : RingBuffer σ) : UInt32 :=
  (rb.head - rb.tail) &&& rb.mask

def ringBufferIsEmpty (rb : RingBuffer σ) : Bool :=
  rb.head == rb.tail

def ringBufferIsFull (rb : RingBuffer σ) : Bool :=
  ((rb.head + 1) &&& rb.mask) == rb.tail

def ringBufferAvailable (rb : RingBuffer σ) : UInt32 :=
  rb.capacity - ringBufferCount rb - 1

/-! ## Single operations -/

/-- `ring_buffer_push`: a full ring keeps its contents and counts a drop. -/
def ringBufferPush (rb : RingBuffer σ) (sample : σ) : Bool × RingBuffer σ :=
  let head := rb.head
  let nextHead := (head + 1) &&& rb.mask
  if nextHead = rb.tail then (false, { rb with dropped := rb.dropped + 1 })
  else (true, { rb with
    buffer := Function.update rb.buffer head.toNat sample
    head := nextHead })

/-- `ring_buffer_pop`: `none` is the result `false`. -/
def ringBufferPop (rb : RingBuffer σ) : Option σ × RingBuffer σ :=
  if rb.head = rb.tail then (none, rb)
  else
    let tail := rb.tail
    (some (rb.buffer tail.toNat), { rb with tail := (tail + 1) &&& rb.mask })

/-! ## Batch operations -/

/-- `memcpy` into the slot array at `dst`. -/
def memcpy (buffer : Nat → σ) (dst : Nat) : List σ → Nat → σ
  | [] => buffer
  | x :: xs => memcpy (Function.update buffer dst x) (dst + 1) xs

/-- `memcpy` out of the slot array: `n` slots from `src` on. -/
def readSlots (buffer : Nat → σ) (src n : Nat) : List σ :=
  (List.range n).map fun i => buffer (src + i)

/-- The size of the first chunk of a copy of `n` slots starting at `index`. -/
def firstChunk (rb : RingBuffer σ) (index n : UInt32) : UInt32 :=
  let wrapPoint := rb.capacity - index
  if n > wrapPoint then wrapPoint else n

/-- The copy of the first `n` samples into the slots from `index` on, in one chunk
or, when it wraps, in two. -/
def copyIn (rb : RingBuffer σ) (index n : UInt32) (samples : List σ) : Nat → σ :=
  let first := firstChunk rb index n
  let buffer := memcpy rb.buffer index.toNat (samples.take first.toNat)
  if first < n then memcpy buffer 0 ((samples.drop first.toNat).take (n - first).toNat)
  else buffer

/-- The copy of `n` slots from `index` on, in one chunk or, when it wraps, in two. -/
def copyOut (rb : RingBuffer σ) (index n : UInt32) : List σ :=
  let first := firstChunk rb index n
  let samples := readSlots rb.buffer index.toNat first.toNat
  if first < n then samples ++ readSlots rb.buffer 0 (n - first).toNat else samples

/-- The slot that element `i` of a copy of `n` slots from `index` on touches: in the
first chunk, or in the second one at the start of the array. -/
def slotAt (rb : RingBuffer σ) (index n : UInt32) (i : Nat) : Nat :=
  let first := (firstChunk rb index n).toNat
  if i < first then index.toNat + i else i - first

/-- A batch to push: the array `samples` and the number `count` of its elements to
take, all of which can be read. -/
structure Batch (σ : Type) where
  samples : List σ
  count : UInt32
  readable : count.toNat ≤ samples.length

/-- The elements a batch offers. -/
def Batch.items (b : Batch σ) : List σ := b.samples.take b.count.toNat

/-- The batch of all elements of an array. -/
def Batch.ofList (xs : List σ) : Batch σ where
  samples := xs
  count := UInt32.ofNat xs.length
  readable := by rw [UInt32.toNat_ofNat']; exact Nat.mod_le _ _

/-- `ring_buffer_push_batch`: the result, `*pushed` and the ring. -/
def ringBufferPushBatch (rb : RingBuffer σ) (b : Batch σ) : (Bool × UInt32) × RingBuffer σ :=
  if b.count = 0 then ((false, 0), rb)
  else
    let available := ringBufferAvailable rb
    let toPush := if b.count < available then b.count else available
    if toPush = 0 then ((false, 0), { rb with dropped := rb.dropped + b.count.toUInt64 })
    else
      let head := rb.head
      let buffer := copyIn rb head toPush b.samples
      let dropped :=
        if toPush < b.count then rb.dropped + (b.count - toPush).toUInt64 else rb.dropped
      ((toPush == b.count, toPush),
        { rb with buffer := buffer, head := (head + toPush) &&& rb.mask, dropped := dropped })

/-- `ring_buffer_pop_batch`: the result, `*popped`, the samples handed out and the
ring. -/
def ringBufferPopBatch (rb : RingBuffer σ) (count : UInt32) :
    (Bool × UInt32 × List σ) × RingBuffer σ :=
  if count = 0 then ((false, 0, []), rb)
  else
    let currentCount := ringBufferCount rb
    let toPop := if count < currentCount then count else currentCount
    if toPop = 0 then ((false, 0, []), rb)
    else
      let tail := rb.tail
      let samples := copyOut rb tail toPop
      ((decide (toPop > 0), toPop, samples), { rb with tail := (tail + toPop) &&& rb.mask })

/-- `ring_buffer_clear`. -/
def ringBufferClear (rb : RingBuffer σ) : RingBuffer σ :=
  { rb with head := 0, tail := 0, dropped := 0 }

end FastRing
