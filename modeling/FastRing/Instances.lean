import FastRing.Application

/-! # Several pipelines in one process

Any number of thread managers side by side, each with the rings of its own buffer
manager, its own statistics and its own ADC simulator. What they share is the static
variable `cb_data` of `capture_thread_worker`, through which every ADC capture thread
finds the ring it pushes to and the statistics it updates. So the writes to its two
fields and the loads of them are steps of their own here, and an ADC capture thread
carries the ring and the position in `ring_buffer_push` it works on with it. The other
accesses are those of `Pipeline` and `Application`. -/

namespace FastRing

/-- `cb_data`: the managers whose first ring and whose statistics its fields point to,
and `none` for a null pointer. -/
structure CallbackData (ι : Type) where
  buffer : Option ι
  stats : Option ι

/-- Positions of `capture_thread_worker`. -/
inductive SetupPos where
  | getAdc
  | createAdc
  -- before the two writes to cb_data
  | writeBuffer
  | writeStats
  | setCallback
  | start (restart : Bool)
  | createThread (restart : Bool)
  | checkRunning
  deriving DecidableEq, Repr

/-- Positions of an ADC capture thread, with those inside `adc_sample_callback`. -/
inductive SamplerPos (ι : Type) where
  | readRunning
  | readClock
  -- the callback reads cb_data->buffer twice, before and for the call
  | checkBuffer (sample : AdcSample)
  | loadBuffer (sample : AdcSample)
  | push (target : ι) (producer : Producer AdcSample)
  -- and cb_data->stats twice as well
  | checkStats (accepted : Bool)
  | loadStats (accepted : Bool)
  | count (target : ι) (accepted : Bool)
  | done

/-- A thread manager with its rings, statistics and ADC simulator, its capture worker
and the ADC capture thread. Its process worker is in the pipeline. -/
structure Instance (ι : Type) where
  pipeline : Pipeline
  capture : SetupPos
  adc : Option AdcSimulator
  sampler : Option (SamplerPos ι)

structure World (ι : Type) where
  instances : ι → Instance ι
  cbData : CallbackData ι

namespace World

variable {ι : Type} [DecidableEq ι]

def init (c2p p2n : ι → RingBuffer AdcSample) (allocated : ι → Nat → Bool) : World ι :=
  { instances := fun i =>
      { pipeline := .init (c2p i) (p2n i) 0 (allocated i)
        capture := .getAdc
        adc := none
        sampler := none }
    cbData := { buffer := none, stats := none } }

def modify (s : World ι) (i : ι) (f : Instance ι → Instance ι) : World ι :=
  { s with instances := Function.update s.instances i (f (s.instances i)) }

/-! ## The capture worker -/

/-- `capture_thread_worker` of manager `i` goes on; `granted` says whether an allocation
or a thread creation succeeds. -/
def captureStep (s : World ι) (i : ι) (granted : Bool) (clock : UInt64) : Option (World ι) :=
  match (s.instances i).capture with
  | .getAdc =>
    some (s.modify i fun m =>
      { m with capture := if m.adc.isSome then .checkRunning else .createAdc })
  | .createAdc =>
    match adcSimulatorCreate (some adcConfigGetDefault) granted with
    | none => some (s.modify i fun m => { m with capture := .getAdc })
    | some adc => some (s.modify i fun m => { m with adc := some adc, capture := .writeBuffer })
  | .writeBuffer =>
    some { s.modify i (fun m => { m with capture := .writeStats }) with
      cbData := { s.cbData with buffer := some i } }
  | .writeStats =>
    some { s.modify i (fun m => { m with capture := .setCallback }) with
      cbData := { s.cbData with stats := some i } }
  | .setCallback =>
    some (s.modify i fun m =>
      { m with adc := m.adc.map fun adc => { adc with callback := true }, capture := .start false })
  | .start restart =>
    (s.instances i).adc.map fun adc =>
      if adc.running then
        s.modify i fun m => { m with capture := if restart then .getAdc else .checkRunning }
      else
        s.modify i fun m =>
          { m with
            adc := some { adc with running := true }
            pipeline := { m.pipeline with startTime := clock, sequence := 0 }
            capture := .createThread restart }
  | .createThread restart =>
    let capture := if restart then .getAdc else .checkRunning
    if granted then
      match (s.instances i).sampler with
      | none => some (s.modify i fun m => { m with sampler := some .readRunning, capture := capture })
      | some _ => none
    else
      some (s.modify i fun m =>
        { m with adc := m.adc.map fun adc => { adc with running := false }, capture := capture })
  | .checkRunning =>
    (s.instances i).adc.map fun adc =>
      s.modify i fun m => { m with capture := if adc.running then .getAdc else .start true }

/-! ## The ADC capture thread -/

/-- The thread of manager `i` goes over to another position. -/
def moveSampler (s : World ι) (i : ι) (pos : SamplerPos ι) : World ι :=
  s.modify i fun m => { m with sampler := some pos }

/-- The next access of `ring_buffer_push` to the first ring of `target`, from the
position `producer` of the thread of manager `i`. -/
def pushStep (s : World ι) (i target : ι) (producer : Producer AdcSample) : Option (World ι) :=
  let ring := (s.instances target).pipeline.captureToProcess
  ({ ring with producer := producer } : Spsc AdcSample).producerStep.map fun ring' =>
    (s.modify target fun m =>
      { m with
        pipeline := { m.pipeline with
          captureToProcess := { ring' with producer := ring.producer } } }).moveSampler i
      (.push target ring'.producer)

/-- `capture_thread` of manager `i` goes on; `due` is the clock and the value when a
sample is due. -/
def samplerStep (s : World ι) (i : ι) (due : Option (UInt64 × Int32)) : Option (World ι) :=
  match (s.instances i).sampler, (s.instances i).adc with
  | some .readRunning, some adc =>
    some (s.moveSampler i (if adc.running then .readClock else .done))
  | some .readClock, some adc =>
    match due with
    | none => some (s.moveSampler i .readRunning)
    | some (currentTime, value) =>
      let sample := (s.instances i).pipeline.makeSample currentTime value
      let s := s.modify i fun m =>
        { m with pipeline := { m.pipeline with
            sequence := m.pipeline.sequence + 1
            generated := m.pipeline.generated ++ [sample] } }
      some (s.moveSampler i (if adc.callback then .checkBuffer sample else .readRunning))
  | some (.checkBuffer sample), _ =>
    some (s.moveSampler i (if s.cbData.buffer.isSome then .loadBuffer sample else .readRunning))
  | some (.loadBuffer sample), _ =>
    s.cbData.buffer.map fun target => s.moveSampler i (.push target (.push sample))
  | some (.push _ (.pushDone _ accepted)), _ => some (s.moveSampler i (.checkStats accepted))
  | some (.push target producer), _ => s.pushStep i target producer
  | some (.checkStats accepted), _ =>
    some (s.moveSampler i (if s.cbData.stats.isSome then .loadStats accepted else .readRunning))
  | some (.loadStats accepted), _ =>
    s.cbData.stats.map fun target => s.moveSampler i (.count target accepted)
  | some (.count target accepted), _ =>
    some ((s.modify target fun m =>
      { m with pipeline := { m.pipeline with stats := m.pipeline.stats.countPush accepted } }).moveSampler
        i .readRunning)
  | _, _ => none

/-! ## All threads -/

inductive Label (ι : Type) where
  | capture (i : ι) (granted : Bool) (clock : UInt64)
  | sampler (i : ι) (due : Option (UInt64 × Int32))
  | process (i : ι)

/-- The manager a step belongs to. -/
def Label.owner : Label ι → ι
  | .capture i _ _ => i
  | .sampler i _ => i
  | .process i => i

def step (s : World ι) : Label ι → Option (World ι)
  | .capture i granted clock => s.captureStep i granted clock
  | .sampler i due => s.samplerStep i due
  | .process i =>
    (s.instances i).pipeline.processStep.map fun pipeline =>
      s.modify i fun m => { m with pipeline := pipeline }

end World

end FastRing
