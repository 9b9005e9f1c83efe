import FastRing.RingCreate
import FastRing.Lib.Runs
import FastRing.Lib.Reorder

/-! # The ring when accesses take effect out of order

Each ring operation is the list of its memory accesses and barriers in program
order. Within one operation two loads of different locations may take effect in
either order unless a `READ_BARRIER` stands between them, two stores of different
locations unless a `WRITE_BARRIER` does; nothing else is reordered. A branch on a
loaded value does not order later loads, so an operation fixes which way it will
have gone when it starts (the number of samples it moves), performs the accesses
of that path, and the loads must have justified the choice by the time it stores
or returns. An operation whose guess is not justified has only loaded, which
nobody can observe. -/

namespace FastRing.Relaxed

variable {σ : Type}

/-- Memory locations; slots are numbered from the index the operation copies at. -/
inductive Loc where
  | head
  | tail
  | slot (j : Nat)
  deriving DecidableEq, Repr

inductive Access where
  | load (l : Loc)
  | store (l : Loc)
  | readBarrier
  | writeBarrier
  deriving DecidableEq, Repr

/-- The later access (second) may take effect before the earlier one (first). -/
def mayPass : Access → Access → Bool
  | .load l, .load l' => l != l'
  | .store l, .store l' => l != l'
  | _, _ => false

/-! ## The operations as access lists -/

/-- A call of the producer. -/
inductive PushCall (σ : Type) where
  | push (x : σ)
  | batch (b : Batch σ)

/-- A call of the consumer. -/
inductive PopCall where
  | pop
  | batch (count : UInt32)

namespace PushCall

/-- The samples a call offers. -/
def items : PushCall σ → List σ
  | .push x => [x]
  | .batch b => b.items

/-- What a call does before its first store, when it goes on to store. -/
def loads : PushCall σ → List Access
  | .push _ => [.load .head, .load .tail]
  | .batch _ => [.readBarrier, .load .head, .load .tail, .load .head]

/-- The accesses of a call that accepts `n` samples. -/
def accesses (call : PushCall σ) (n : UInt32) : List Access :=
  if n = 0 then
    match call with
    | .push _ => [.load .head, .load .tail]
    | .batch b => if b.count = 0 then [] else [.readBarrier, .load .head, .load .tail]
  else Reorder.copy call.loads (fun j => .store (.slot j)) n.toNat .writeBarrier (.store .head)

/-- The positions of the loads of `head` and `tail` behind the test, and of the load
of `head` the copy starts at. -/
def headPos : PushCall σ → Nat
  | .push _ => 0
  | .batch _ => 1

def tailPos : PushCall σ → Nat
  | .push _ => 1
  | .batch _ => 2

def indexPos : PushCall σ → Nat
  | .push _ => 0
  | .batch _ => 3

/-- The number of samples the code accepts on the loaded values. -/
def decision (rb : RingBuffer σ) (call : PushCall σ) (head tail : UInt32) : UInt32 :=
  match call with
  | .push _ => if (head + 1) &&& rb.mask = tail then 0 else 1
  | .batch b =>
    if b.count = 0 then 0
    else
      let available := rb.capacity - ((head - tail) &&& rb.mask) - 1
      if b.count < available then b.count else available

end PushCall

namespace PopCall

def loads : PopCall → List Access
  | .pop => [.load .head, .load .tail, .load .tail]
  | .batch _ => [.readBarrier, .load .head, .load .tail, .load .tail]

/-- The accesses of a call that takes out `n` samples. -/
def accesses (call : PopCall) (n : UInt32) : List Access :=
  if n = 0 then
    match call with
    | .pop => [.load .head, .load .tail]
    | .batch count => if count = 0 then [] else [.readBarrier, .load .head, .load .tail]
  else Reorder.copy call.loads (fun j => .load (.slot j)) n.toNat .readBarrier (.store .tail)

def headPos : PopCall → Nat
  | .pop => 0
  | .batch _ => 1

def tailPos : PopCall → Nat
  | .pop => 1
  | .batch _ => 2

def indexPos : PopCall → Nat
  | .pop => 2
  | .batch _ => 3

/-- The number of samples the code takes out on the loaded values. -/
def decision (rb : RingBuffer σ) (call : PopCall) (head tail : UInt32) : UInt32 :=
  match call with
  | .pop => if head = tail then 0 else 1
  | .batch count =>
    if count = 0 then 0
    else
      let currentCount := (head - tail) &&& rb.mask
      if count < currentCount then count else currentCount

end PopCall

/-! ## The system -/

/-- A producer call in progress: the samples it will have accepted, the positions
that took effect, and the values loaded by position. -/
structure PushOp (σ : Type) where
  call : PushCall σ
  n : UInt32
  done : List Nat
  vals : Nat → UInt32

/-- A consumer call in progress; `out` is the caller's array. -/
structure PopOp (σ : Type) where
  call : PopCall
  n : UInt32
  done : List Nat
  vals : Nat → UInt32
  out : Nat → σ

def PushOp.accesses (op : PushOp σ) : List Access := op.call.accesses op.n

def PopOp.accesses (op : PopOp σ) : List Access := op.call.accesses op.n

/-- The values loaded justify the path taken. -/
def PushOp.justified (rb : RingBuffer σ) (op : PushOp σ) : Prop :=
  op.call.decision rb (op.vals op.call.headPos) (op.vals op.call.tailPos) = op.n

def PopOp.justified (rb : RingBuffer σ) (op : PopOp σ) : Prop :=
  op.call.decision rb (op.vals op.call.headPos) (op.vals op.call.tailPos) = op.n

instance (rb : RingBuffer σ) (op : PushOp σ) : Decidable (op.justified rb) :=
  inferInstanceAs (Decidable (_ = _))

instance (rb : RingBuffer σ) (op : PopOp σ) : Decidable (op.justified rb) :=
  inferInstanceAs (Decidable (_ = _))

/-- The shared ring, the calls in progress and, as history, the samples published
and returned so far. -/
structure State (σ : Type) where
  rb : RingBuffer σ
  producer : Option (PushOp σ)
  consumer : Option (PopOp σ)
  published : List σ
  returned : List σ

def init (rb : RingBuffer σ) : State σ :=
  { rb := rb, producer := none, consumer := none, published := [], returned := [] }

/-- The access at position `i` of the producer's call takes effect. -/
def producerAccess (s : State σ) (op : PushOp σ) (i : Nat) : Option (State σ) :=
  if Reorder.enabled mayPass op.accesses op.done i then
    let op' := { op with done := i :: op.done }
    match op.accesses[i]? with
    | some (.load .head) =>
      some { s with producer := some { op' with vals := Function.update op.vals i s.rb.head } }
    | some (.load .tail) =>
      some { s with producer := some { op' with vals := Function.update op.vals i s.rb.tail } }
    | some (.store (.slot j)) =>
      if op.justified s.rb then
        op.call.items[j]?.map fun x =>
          { s with
            rb := { s.rb with
              buffer := Function.update s.rb.buffer
                (slotAt s.rb (op.vals op.call.indexPos) op.n j) x }
            producer := some op' }
      else none
    | some (.store .head) =>
      if op.justified s.rb then
        some { s with
          rb := { s.rb with head := (op.vals op.call.indexPos + op.n) &&& s.rb.mask }
          producer := some op'
          published := s.published ++ op.call.items.take op.n.toNat }
      else none
    | some .readBarrier | some .writeBarrier => some { s with producer := some op' }
    | _ => none
  else none

/-- The access at position `i` of the consumer's call takes effect. The address of
a slot comes from `tail`, which only the consumer writes: a slot load that takes
effect before its load of `tail` uses the value that load will return. -/
def consumerAccess (s : State σ) (op : PopOp σ) (i : Nat) : Option (State σ) :=
  if Reorder.enabled mayPass op.accesses op.done i then
    let op' := { op with done := i :: op.done }
    match op.accesses[i]? with
    | some (.load .head) =>
      some { s with consumer := some { op' with vals := Function.update op.vals i s.rb.head } }
    | some (.load .tail) =>
      some { s with consumer := some { op' with vals := Function.update op.vals i s.rb.tail } }
    | some (.load (.slot j)) =>
      some { s with consumer := some { op' with
        out := Function.update op.out j (s.rb.buffer (slotAt s.rb s.rb.tail op.n j)) } }
    | some (.store .tail) =>
      if op.justified s.rb then
        some { s with
          rb := { s.rb with tail := (op.vals op.call.indexPos + op.n) &&& s.rb.mask }
          consumer := some op'
          returned := s.returned ++ (List.range op.n.toNat).map op.out }
      else none
    | some .readBarrier | some .writeBarrier => some { s with consumer := some op' }
    | _ => none
  else none

/-- A step: an idle thread calls, an access of a call takes effect, or a call all of
whose accesses took effect returns. -/
inductive Label (σ : Type) where
  | callPush (call : PushCall σ) (n : UInt32)
  | producer (i : Nat)
  | returnPush
  | callPop (call : PopCall) (n : UInt32) (out : Nat → σ)
  | consumer (i : Nat)
  | returnPop

def step (s : State σ) : Label σ → Option (State σ)
  | .callPush call n =>
    match s.producer with
    | none => some { s with producer := some { call := call, n := n, done := [], vals := fun _ => 0 } }
    | some _ => none
  | .producer i => s.producer.bind fun op => producerAccess s op i
  | .returnPush =>
    s.producer.bind fun op =>
      if (List.range op.accesses.length).all op.done.contains ∧ op.justified s.rb then
        some { s with
          rb := { s.rb with
            dropped := s.rb.dropped + UInt64.ofNat (op.call.items.length - op.n.toNat) }
          producer := none }
      else none
  | .callPop call n out =>
    match s.consumer with
    | none =>
      some { s with
        consumer := some { call := call, n := n, done := [], vals := fun _ => 0, out := out } }
    | some _ => none
  | .consumer i => s.consumer.bind fun op => consumerAccess s op i
  | .returnPop =>
    s.consumer.bind fun op =>
      if (List.range op.accesses.length).all op.done.contains ∧ op.justified s.rb then
        some { s with consumer := none }
      else none

end FastRing.Relaxed
