import FastRing.RingBuffer
import FastRing.TcpClient
import FastRing.Lib.Runs

/-! # The worker functions

The pipeline of `thread_workers.c` with each worker iteration taken as one step:
samples arrive through `adc_sample_callback`, `process_thread_worker` moves them
from the first ring to the second, `network_thread_worker` sends them in blocks.
The objects the workers share are all there, so the `NULL` guards are left out. -/

namespace FastRing

/-- The counters start at zero. -/
def SystemStats.zero : SystemStats :=
  { totalSamples := 0, droppedSamples := 0, sentBytes := 0, sendErrors := 0 }

/-- `BLOCK_POOL_SIZE`. -/
def blockPoolSize : UInt32 := 16

/-- The block pool: which of its entries could be allocated, and `pool_index`. -/
structure BlockPool where
  allocated : Nat → Bool
  index : UInt32

/-- `get_block_from_pool`: whether there is a block, and the pool. -/
def getBlockFromPool (pool : BlockPool) : Bool × BlockPool :=
  let idx := pool.index % blockPoolSize
  (pool.allocated idx.toNat, { pool with index := pool.index + 1 })

/-- The shared state of the workers. As history it keeps the number of samples
offered to the callback, the blocks given to `tcp_client_send_data_block` with its
results, and the system calls made. -/
structure System where
  captureToProcess : RingBuffer AdcSample
  processToNetwork : RingBuffer AdcSample
  stats : SystemStats
  tcpClient : Option TcpClient
  pool : BlockPool
  offered : Nat
  handed : List (DataBlock × AdcError)
  log : List Syscall

def System.init (captureToProcess processToNetwork : RingBuffer AdcSample)
    (allocated : Nat → Bool) : System :=
  { captureToProcess := captureToProcess
    processToNetwork := processToNetwork
    stats := .zero
    tcpClient := none
    pool := { allocated := allocated, index := 0 }
    offered := 0
    handed := []
    log := [] }

/-! ## Statistics -/

/-- What `adc_sample_callback` counts. -/
def SystemStats.countPush (stats : SystemStats) (accepted : Bool) : SystemStats :=
  if accepted then { stats with totalSamples := stats.totalSamples + 1 }
  else { stats with droppedSamples := stats.droppedSamples + 1 }

/-- What `process_thread_worker` counts. -/
def SystemStats.countForward (stats : SystemStats) (popped pushed : UInt32) : SystemStats :=
  if pushed < popped then
    { stats with droppedSamples := stats.droppedSamples + (popped - pushed).toUInt64 }
  else stats

/-- What `network_thread_worker` counts. -/
def SystemStats.countSend (stats : SystemStats) (popped : UInt32) (err : AdcError) : SystemStats :=
  if err = .ok then
    { stats with
      sentBytes := stats.sentBytes + UInt64.ofNat (dataBlockSize + popped.toNat * adcSampleSize) }
  else { stats with sendErrors := stats.sendErrors + 1 }

/-! ## The workers -/

def adcSampleCallback (s : System) (sample : AdcSample) : System :=
  let (accepted, ring) := ringBufferPush s.captureToProcess sample
  { s with
    captureToProcess := ring
    stats := s.stats.countPush accepted
    offered := s.offered + 1 }

/-- `process_thread_worker`: what the second ring does not take is dropped. -/
def processThreadWorker (s : System) : System :=
  let ((ok, popped, samples), captureToProcess) := ringBufferPopBatch s.captureToProcess 256
  if ok then
    let ((_, pushed), processToNetwork) :=
      ringBufferPushBatch s.processToNetwork (Batch.ofList samples)
    { s with
      captureToProcess := captureToProcess
      processToNetwork := processToNetwork
      stats := s.stats.countForward popped pushed }
  else { s with captureToProcess := captureToProcess }

/-- What the outside decides in one iteration of the network worker: whether a
client can be created, how connecting goes, the clock, and the results of `send`. -/
structure NetworkEnv where
  allocated : Bool
  connect : ConnectOutcome
  clock : UInt64
  send : Nat → SendOutcome

/-- The client of the iteration, created when there is none yet. -/
def getOrCreateClient (client : Option TcpClient) (env : NetworkEnv) : Option TcpClient :=
  match client with
  | some client => some client
  | none => tcpClientCreate (some tcpConfigGetDefault) env.allocated

/-- The client connects unless it is connected. -/
def ensureConnected (client : TcpClient) (env : NetworkEnv) : CallResult :=
  if tcpClientIsConnected client then { err := .ok, client := client, log := [] }
  else tcpClientConnect client env.connect

/-- The block `network_thread_worker` fills. -/
def fillBlock (clock : UInt64) (samples : List AdcSample) (popped : UInt32) : DataBlock :=
  { magic := dataBlockMagic
    version := dataBlockVersion
    sequence := 0
    sampleCount := popped
    timestamp := clock
    samples := samples }

/-- The iteration of `network_thread_worker` once `client` is connected. -/
def collectAndSend (s : System) (client : TcpClient) (env : NetworkEnv) : System :=
  let ((ok, popped, samples), processToNetwork) :=
    ringBufferPopBatch s.processToNetwork samplesPerBlock
  let s := { s with processToNetwork := processToNetwork }
  if ok then
    let (present, pool) := getBlockFromPool s.pool
    let s := { s with pool := pool }
    if present then
      let block := fillBlock env.clock samples popped
      let r := tcpClientSendDataBlock client block env.send
      { s with
        stats := s.stats.countSend popped r.err
        tcpClient := some r.client
        handed := s.handed ++ [(block, r.err)]
        log := s.log ++ r.log }
    else s
  else s

def networkThreadWorker (s : System) (env : NetworkEnv) : System :=
  match getOrCreateClient s.tcpClient env with
  | none => s
  | some client =>
    let r := ensureConnected client env
    let s := { s with tcpClient := some r.client, log := s.log ++ r.log }
    if r.err ≠ .ok then s else collectAndSend s r.client env

/-! ## Runs -/

/-- A sample for the callback, or an iteration of one of the two other workers. -/
inductive WorkerStep where
  | sample (x : AdcSample)
  | process
  | network (env : NetworkEnv)

def System.step (s : System) : WorkerStep → Option System
  | .sample x => some (adcSampleCallback s x)
  | .process => some (processThreadWorker s)
  | .network env => some (networkThreadWorker s env)

end FastRing
