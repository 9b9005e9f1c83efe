import FastRing.ThreadManager
import FastRing.Pipeline

/-! # The program

`main` with the thread manager, the three wrapper threads in their worker functions
and the ADC capture thread that `capture_thread_worker` starts. `main` starts the
threads once, serves until it is told to stop, destroys the thread manager and then
the buffer manager, and returns, which ends the process. The samples move as in
`Pipeline`, each worker going on by one step of its thread there.

Releasing is a flag: a thread that still runs then reads and writes the last
contents. `adc_simulator_start` sets its fields in one step, because no capture
thread is there to read them. -/

namespace FastRing

/-- Positions of `capture_thread_worker`; `restart` tells its second call of
`adc_simulator_start` from the first. -/
inductive CapturePos where
  | getAdc
  | createAdc
  | setCallback
  | start (restart : Bool)
  | createThread (restart : Bool)
  | checkRunning
  deriving DecidableEq, Repr

/-- Positions of the ADC simulator's `capture_thread`. -/
inductive CaptureThreadPos where
  | readRunning
  | readClock
  | callback
  | done
  deriving DecidableEq, Repr

/-- `adc_config_t`, without the `double` fields that shape the signal. -/
structure AdcConfig where
  sampleRate : UInt32
  resolution : UInt32
  channelCount : UInt32
  enableTrigger : Bool
  deriving DecidableEq, Repr

def adcConfigGetDefault : AdcConfig :=
  { sampleRate := 40000, resolution := 32, channelCount := 1, enableTrigger := false }

/-- `struct adc_simulator`, with `callback` saying whether it is set; the start time
and the sequence number are in the pipeline. -/
structure AdcSimulator where
  config : AdcConfig
  running : Bool
  callback : Bool
  deriving DecidableEq, Repr

/-- `adc_simulator_create`; `allocated` says whether its allocation succeeds. -/
def adcSimulatorCreate (config : Option AdcConfig) (allocated : Bool) : Option AdcSimulator :=
  if allocated then
    some { config := config.getD adcConfigGetDefault, running := false, callback := false }
  else none

/-- Positions of `main`: before and inside `thread_manager_start`, in its loop, inside
`thread_manager_destroy`, after `buffer_manager_destroy`, returned. -/
inductive MainPos where
  | start
  | starting
  | serve
  | destroying
  | closing
  | exit
  deriving DecidableEq, Repr

structure Application where
  tm : Manager
  pipeline : Pipeline
  capture : CapturePos
  adc : Option AdcSimulator
  captureThread : Option CaptureThreadPos
  main : MainPos
  buffersReleased : Bool

def NetworkPos.isIdle : NetworkPos → Bool
  | .idle => true
  | _ => false

namespace Application

/-- The program before it starts the threads, with the rings of its buffer manager. -/
def init (c2p p2n : RingBuffer AdcSample) (allocated : Nat → Bool) : Application :=
  { tm := .init
    pipeline := .init c2p p2n 0 allocated
    capture := .getAdc
    adc := none
    captureThread := none
    main := .start
    buffersReleased := false }

/-! ## The workers -/

/-- What the outside decides in a step of a worker: whether an allocation or a thread
creation succeeds, the clock, and what the network does. -/
structure WorkerEnv where
  granted : Bool
  clock : UInt64
  network : NetworkEnv

/-- `capture_thread_worker` goes on. -/
def captureStep (s : Application) (env : WorkerEnv) : Option Application :=
  match s.capture with
  | .getAdc =>
    some { s with capture := if s.adc.isSome then .checkRunning else .createAdc }
  | .createAdc =>
    match adcSimulatorCreate (some adcConfigGetDefault) env.granted with
    | none => some { s with capture := .getAdc }
    | some adc => some { s with adc := some adc, capture := .setCallback }
  | .setCallback =>
    some { s with
      adc := s.adc.map fun adc => { adc with callback := true }
      capture := .start false }
  | .start restart =>
    s.adc.map fun adc =>
      if adc.running then { s with capture := if restart then .getAdc else .checkRunning }
      else
        { s with
          adc := some { adc with running := true }
          pipeline := { s.pipeline with startTime := env.clock, sequence := 0 }
          capture := .createThread restart }
  | .createThread restart =>
    let capture := if restart then .getAdc else .checkRunning
    if env.granted then
      match s.captureThread with
      | none => some { s with captureThread := some .readRunning, capture := capture }
      -- never reached: see `createThread_enabled`
      | some _ => none
    else
      some { s with
        adc := s.adc.map fun adc => { adc with running := false }
        capture := capture }
  | .checkRunning =>
    s.adc.map fun adc =>
      { s with capture := if adc.running then .getAdc else .start true }

/-- The worker of the given type goes on. -/
def workerStep (s : Application) (type : ThreadType) (env : WorkerEnv) : Option Application :=
  match type with
  | .capture => s.captureStep env
  | .process => s.pipeline.processStep.map fun pipeline => { s with pipeline := pipeline }
  | .network => (s.pipeline.networkStep env.network).map fun pipeline => { s with pipeline := pipeline }

/-- The worker of the given type is inside its function. -/
def working (s : Application) : ThreadType → Bool
  | .capture => s.capture != .getAdc
  | .process =>
    !(s.pipeline.captureToProcess.consumer.isIdle && s.pipeline.processToNetwork.producer.isIdle)
  | .network => !s.pipeline.network.isIdle

/-- Wrapper thread `id` goes on, in its worker or around it. -/
def wrapperStep (s : Application) (id : Nat) (env : WorkerEnv) : Option Application :=
  match s.tm.threads id with
  | none => none
  | some w =>
    match w.pos with
    | .work _ =>
      (s.workerStep w.type env).bind fun t =>
        (t.tm.wrapperStep id (t.working w.type)).map fun tm => { t with tm := tm }
    | _ => (s.tm.wrapperStep id false).map fun tm => { s with tm := tm }

/-! ## The ADC capture thread -/

/-- `capture_thread` goes on; `due` is the clock and the value when a sample is due. -/
def captureThreadStep (s : Application) (due : Option (UInt64 × Int32)) : Option Application :=
  match s.captureThread, s.adc with
  | some .readRunning, some adc =>
    some { s with captureThread := some (if adc.running then .readClock else .done) }
  | some .readClock, some adc =>
    match due with
    | none => some { s with captureThread := some .readRunning }
    | some (currentTime, value) =>
      if adc.callback then
        (s.pipeline.capture currentTime value).map fun pipeline =>
          { s with pipeline := pipeline, captureThread := some .callback }
      else
        some { s with
          pipeline := { s.pipeline with sequence := s.pipeline.sequence + 1 }
          captureThread := some .readRunning }
  | some .callback, _ =>
    s.pipeline.callbackStep.map fun pipeline =>
      { s with
        pipeline := pipeline
        captureThread := some
          (if pipeline.captureToProcess.producer.isIdle then .readRunning else .callback) }
  | _, _ => none

/-! ## Main -/

/-- `main` goes on; `created` says whether a thread can be created, `leave` whether the
loop ends. -/
def mainStep (s : Application) (created leave : Bool) : Option Application :=
  match s.main with
  | .start =>
    (s.tm.step (.call .start)).map fun tm => { s with tm := tm, main := .starting }
  | .starting =>
    match s.tm.startReturned with
    | none => (s.tm.step (.controller created)).map fun tm => { s with tm := tm }
    | some err =>
      if err = .ok then some { s with main := .serve }
      else (s.tm.step (.call .destroy)).map fun tm => { s with tm := tm, main := .destroying }
  | .serve =>
    -- the statistics are printed now and then, and once more at the end
    if leave then
      (s.tm.step (.call .destroy)).map fun tm => { s with tm := tm, main := .destroying }
    else some s
  | .destroying =>
    if s.tm.released then some { s with buffersReleased := true, main := .closing }
    else (s.tm.step (.controller created)).map fun tm => { s with tm := tm }
  | .closing => some { s with main := .exit }
  | .exit => none

inductive Label where
  | main (created leave : Bool)
  | wrapper (id : Nat) (env : WorkerEnv)
  | captureThread (due : Option (UInt64 × Int32))

/-- A step of one of the threads, as long as the process lives. -/
def step (s : Application) (l : Label) : Option Application :=
  if s.main = .exit then none
  else
    match l with
    | .main created leave => s.mainStep created leave
    | .wrapper id env => s.wrapperStep id env
    | .captureThread due => s.captureThreadStep due

end Application

end FastRing
