import Mathlib.Logic.Function.Basic
import FastRing.Types
import FastRing.Lib.Runs

/-! # The ADC simulator, access by access

`adc_simulator.c` with one thread that calls its functions, one after the other, and the capture
threads it creates. A step is one access to a shared field, one operation on the lock, the creation
or the join of a thread, or the beginning or the end of a callback. Threads are numbered in the
order of their creation; `handle` is the field `thread`. The callbacks and what they get as
`user_data` are of any types `κ` and `δ`. The sample rate is not 0, so the interval is a number; the
values of the samples come from outside. -/

namespace FastRing.Adc

/-- Positions of a `capture_thread`: before its first clock reading, before it reads `running`,
before it reads the clock, and on the way of one sample, up to the callback's return. -/
inductive CapturePos (κ δ : Type) where
  | begin
  | readRunning (next : UInt64)
  | look (next : UInt64)
  | generate (next current : UInt64)
  | storeSequence (next current : UInt64) (sample : AdcSample)
  | lock (next current : UInt64) (sample : AdcSample)
  | copyCallback (next current : UInt64) (sample : AdcSample)
  | copyData (next current : UInt64) (sample : AdcSample) (callback : Option κ)
  | unlock (next current : UInt64) (sample : AdcSample) (callback : Option κ) (data : δ)
  | call (next current : UInt64) (sample : AdcSample) (callback : Option κ) (data : δ)
  | inside (next current : UInt64)
  | done
  deriving DecidableEq, Repr

/-- Positions of the calling thread; `destroying` says that `adc_simulator_destroy` called
`adc_simulator_stop`. -/
inductive CallerPos (κ δ : Type) where
  | idle
  -- adc_simulator_start
  | setStartTime
  | resetSequence
  | create
  | createFailed
  -- adc_simulator_stop
  | join (destroying : Bool)
  -- adc_simulator_destroy
  | free
  -- adc_simulator_set_callback
  | lock (callback : Option κ) (data : δ)
  | storeCallback (callback : Option κ) (data : δ)
  | storeData (callback : Option κ) (data : δ)
  | unlock
  -- adc_simulator_get_sample
  | generate
  | storeSequence (sample : AdcSample)
  deriving DecidableEq, Repr

/-- Who holds the lock. -/
inductive Owner where
  | caller
  | thread (id : Nat)
  deriving DecidableEq, Repr

/-- The simulator and its threads. The last three fields are history: whether it was freed, the
samples of the latest session, and those given to callbacks in it. -/
structure State (κ δ : Type) where
  intervalUs : UInt64
  running : Bool
  sequence : UInt32
  startTime : UInt64
  callback : Option κ
  callbackData : δ
  owner : Option Owner
  handle : Option Nat
  threads : Nat → Option (CapturePos κ δ)
  created : Nat
  caller : CallerPos κ δ
  released : Bool
  taken : List AdcSample
  delivered : List (κ × δ × AdcSample)

variable {κ δ : Type}

/-- `adc_simulator_create`, for a given interval between the samples. -/
def init (intervalUs : UInt64) (null : δ) : State κ δ :=
  { intervalUs := intervalUs
    running := false
    sequence := 0
    startTime := 0
    callback := none
    callbackData := null
    owner := none
    handle := none
    threads := fun _ => none
    created := 0
    caller := .idle
    released := false
    taken := []
    delivered := [] }

/-- A call of one of the functions that change something. -/
inductive Call (κ δ : Type) where
  | start
  | stop
  | destroy
  | setCallback (callback : Option κ) (data : δ)
  | getSample
  deriving DecidableEq, Repr

namespace State

/-- The call up to its first access that is a step of its own. -/
def enter (s : State κ δ) : Call κ δ → State κ δ
  | .start => if s.running then s else { s with running := true, caller := .setStartTime }
  | .stop => if s.running then { s with running := false, caller := .join false } else s
  | .destroy =>
    if s.running then { s with running := false, caller := .join true }
    else { s with caller := .free }
  | .setCallback callback data => { s with caller := .lock callback data }
  | .getSample => { s with caller := .generate }

/-- A new capture thread, and its handle. -/
def spawn (s : State κ δ) : State κ δ :=
  { s with
    handle := some s.created
    threads := Function.update s.threads s.created (some .begin)
    created := s.created + 1 }

/-- The sample made of a clock reading and a value. -/
def generateSample (s : State κ δ) (clock : UInt64) (value : Int32) : AdcSample :=
  { timestamp := (clock - s.startTime).toUInt32
    value := value
    sequence := s.sequence
    channel := 0
    flags := 0 }

/-- The next access of the calling thread inside a call. It finds `clock` when it reads the clock;
`created` says whether a thread can be created, `value` is that of a sample. -/
def callerStep (s : State κ δ) (clock : UInt64) (created : Bool) (value : Int32) :
    Option (State κ δ) :=
  match s.caller with
  | .idle => none
  | .setStartTime => some { s with startTime := clock, caller := .resetSequence }
  | .resetSequence =>
    some { s with sequence := 0, caller := .create, taken := [], delivered := [] }
  | .create =>
    if created then some { s.spawn with caller := .idle } else some { s with caller := .createFailed }
  | .createFailed => some { s with running := false, caller := .idle }
  | .join destroying =>
    -- pthread_join waits until the thread has returned
    match s.handle.bind s.threads with
    | some .done => some { s with caller := if destroying then .free else .idle }
    | _ => none
  | .free => some { s with released := true, caller := .idle }
  | .lock callback data =>
    if s.owner = none then
      some { s with owner := some .caller, caller := .storeCallback callback data }
    else none
  | .storeCallback callback data =>
    some { s with callback := callback, caller := .storeData callback data }
  | .storeData _ data => some { s with callbackData := data, caller := .unlock }
  | .unlock => some { s with owner := none, caller := .idle }
  | .generate => some { s with caller := .storeSequence (s.generateSample clock value) }
  | .storeSequence sample => some { s with sequence := sample.sequence + 1, caller := .idle }

/-- Thread `id` moves on. -/
def goto (s : State κ δ) (id : Nat) (pos : CapturePos κ δ) : State κ δ :=
  { s with threads := Function.update s.threads id (some pos) }

/-- The deadline after a sample. -/
def nextSampleTime (s : State κ δ) (next current : UInt64) : UInt64 :=
  if next + s.intervalUs < current then current + s.intervalUs else next + s.intervalUs

/-- The next access of capture thread `id`, which stands at `pos`. -/
def captureStep (s : State κ δ) (id : Nat) (clock : UInt64) (value : Int32) :
    CapturePos κ δ → Option (State κ δ)
  | .begin => some (s.goto id (.readRunning clock))
  | .readRunning next => some (s.goto id (if s.running then .look next else .done))
  | .look next => some (s.goto id (if clock ≥ next then .generate next clock else .readRunning next))
  | .generate next current =>
    some (s.goto id (.storeSequence next current (s.generateSample current value)))
  | .storeSequence next current sample =>
    some { s.goto id (.lock next current sample) with
      sequence := sample.sequence + 1
      taken := s.taken ++ [sample] }
  | .lock next current sample =>
    if s.owner = none then
      some { s.goto id (.copyCallback next current sample) with owner := some (.thread id) }
    else none
  | .copyCallback next current sample => some (s.goto id (.copyData next current sample s.callback))
  | .copyData next current sample callback =>
    some (s.goto id (.unlock next current sample callback s.callbackData))
  | .unlock next current sample callback data =>
    some { s.goto id (.call next current sample callback data) with owner := none }
  | .call next current sample (some callback) data =>
    some { s.goto id (.inside next current) with
      delivered := s.delivered ++ [(callback, data, sample)] }
  | .call next current _ none _ => some (s.goto id (.readRunning (s.nextSampleTime next current)))
  | .inside next current => some (s.goto id (.readRunning (s.nextSampleTime next current)))
  | .done => none

end State

inductive Label (κ δ : Type) where
  | call (c : Call κ δ)
  | caller (clock : UInt64) (created : Bool) (value : Int32)
  | thread (id : Nat) (clock : UInt64) (value : Int32)
  deriving DecidableEq, Repr

def step (s : State κ δ) : Label κ δ → Option (State κ δ)
  | .call c =>
    match s.caller, s.released with
    | .idle, false => some (s.enter c)
    | _, _ => none
  | .caller clock created value => s.callerStep clock created value
  | .thread id clock value =>
    match s.threads id with
    | none => none
    | some pos => s.captureStep id clock value pos

end FastRing.Adc
