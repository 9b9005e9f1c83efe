import FastRing.Spsc
import FastRing.Workers

/-! # The three threads of the pipeline

The ADC capture thread, the process thread and the network thread, interleaved
access by access. Both rings are the two-thread systems of `Spsc`: the capture
thread is the producer of the first ring, the process thread its consumer and the
producer of the second, the network thread the consumer of the second. Between ring
operations a step is one action of a worker, such as an update of the statistics.

The waveform is floating point: a sample's value is whatever the step says. So is
the clock, and whether a sample is due at the time. The history is the list of
samples generated, the blocks given to `tcp_client_send_data_block` with its
results, and the samples popped for which the pool had no block. -/

namespace FastRing

/-- Positions of the network thread. -/
inductive NetworkPos where
  | idle
  -- connected, before ring_buffer_pop_batch
  | ready
  -- inside it
  | popping
  -- before get_block_from_pool
  | popped (samples : List AdcSample)
  -- before tcp_client_send_data_block
  | filled (block : DataBlock)
  -- before the statistics
  | sent (block : DataBlock) (err : AdcError)

structure Pipeline where
  captureToProcess : Spsc AdcSample
  processToNetwork : Spsc AdcSample
  startTime : UInt64
  sequence : UInt32
  network : NetworkPos
  tcpClient : Option TcpClient
  pool : BlockPool
  stats : SystemStats
  generated : List AdcSample
  handed : List (DataBlock × AdcError)
  unsent : List AdcSample

namespace Pipeline

/-- The start of an ADC session. -/
def init (c2p p2n : RingBuffer AdcSample) (startTime : UInt64) (allocated : Nat → Bool) : Pipeline :=
  { captureToProcess := .init c2p
    processToNetwork := .init p2n
    startTime := startTime
    sequence := 0
    network := .idle
    tcpClient := none
    pool := { allocated := allocated, index := 0 }
    stats := .zero
    generated := []
    handed := []
    unsent := [] }

/-- The sample `capture_thread` makes at clock reading `currentTime`. -/
def makeSample (s : Pipeline) (currentTime : UInt64) (value : Int32) : AdcSample :=
  { timestamp := (currentTime - s.startTime).toUInt32
    value := value
    sequence := s.sequence
    channel := 0
    flags := 0 }

/-- `capture_thread` makes a sample and calls `adc_sample_callback`. -/
def capture (s : Pipeline) (currentTime : UInt64) (value : Int32) : Option Pipeline :=
  match s.captureToProcess.producer with
  | .idle =>
    let sample := s.makeSample currentTime value
    some { s with
      captureToProcess := { s.captureToProcess with producer := .push sample }
      sequence := s.sequence + 1
      generated := s.generated ++ [sample] }
  | _ => none

/-- The callback goes on: the next access of `ring_buffer_push`, or the statistics. -/
def callbackStep (s : Pipeline) : Option Pipeline :=
  match s.captureToProcess.producer with
  | .pushDone _ accepted =>
    some { s with
      captureToProcess := { s.captureToProcess with producer := .idle }
      stats := s.stats.countPush accepted }
  | _ => s.captureToProcess.producerStep.map fun ring => { s with captureToProcess := ring }

/-- The process thread goes on. -/
def processStep (s : Pipeline) : Option Pipeline :=
  match s.processToNetwork.producer with
  | .idle =>
    match s.captureToProcess.consumer with
    | .idle =>
      some { s with captureToProcess := { s.captureToProcess with consumer := .batch 256 } }
    | .batchDone _ samples =>
      let captureToProcess := { s.captureToProcess with consumer := .idle }
      if samples.isEmpty then some { s with captureToProcess := captureToProcess }
      else
        some { s with
          captureToProcess := captureToProcess
          processToNetwork := { s.processToNetwork with producer := .batch (Batch.ofList samples) } }
    | _ => s.captureToProcess.consumerStep.map fun ring => { s with captureToProcess := ring }
  | .batchDone b pushed =>
    some { s with
      processToNetwork := { s.processToNetwork with producer := .idle }
      stats := s.stats.countForward b.count pushed }
  | _ => s.processToNetwork.producerStep.map fun ring => { s with processToNetwork := ring }

/-- The network thread goes on. -/
def networkStep (s : Pipeline) (env : NetworkEnv) : Option Pipeline :=
  match s.network with
  | .idle =>
    match getOrCreateClient s.tcpClient env with
    | none => some s
    | some client =>
      let r := ensureConnected client env
      some { s with
        tcpClient := some r.client
        network := if r.err = .ok then .ready else .idle }
  | .ready =>
    some { s with
      processToNetwork := { s.processToNetwork with consumer := .batch samplesPerBlock }
      network := .popping }
  | .popping =>
    match s.processToNetwork.consumer with
    | .batchDone _ samples =>
      some { s with
        processToNetwork := { s.processToNetwork with consumer := .idle }
        network := if samples.isEmpty then .idle else .popped samples }
    | _ => s.processToNetwork.consumerStep.map fun ring => { s with processToNetwork := ring }
  | .popped samples =>
    let (present, pool) := getBlockFromPool s.pool
    if present then
      some { s with
        pool := pool
        network := .filled (fillBlock env.clock samples (UInt32.ofNat samples.length)) }
    else some { s with pool := pool, network := .idle, unsent := s.unsent ++ samples }
  | .filled block =>
    s.tcpClient.map fun client =>
      let r := tcpClientSendDataBlock client block env.send
      { s with
        tcpClient := some r.client
        network := .sent block r.err
        handed := s.handed ++ [(block, r.err)] }
  | .sent block err =>
    some { s with network := .idle, stats := s.stats.countSend block.sampleCount err }

/-- A step of one of the threads. -/
inductive Label where
  | capture (currentTime : UInt64) (value : Int32)
  | callback
  | process
  | network (env : NetworkEnv)

def step (s : Pipeline) : Label → Option Pipeline
  | .capture currentTime value => s.capture currentTime value
  | .callback => s.callbackStep
  | .process => s.processStep
  | .network env => s.networkStep env

end Pipeline

end FastRing
