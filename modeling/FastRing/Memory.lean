import FastRing.Types
import FastRing.Lib.Ownership

/-! # What the program allocates

The allocations and releases of `main`, of the buffer and thread managers and of the workers. A
pointer is the number of its block, a `NULL` pointer is `none`, and of the structures only the
pointers to other blocks are there. The workers create their objects in their first iterations, in
whatever order these come; `main` releases what it created itself, and nothing of theirs. -/

namespace FastRing.Memory

open Ownership

/-! ## The ring buffers -/

/-- A `ring_buffer_t` and its `buffer`. -/
structure RingBlocks where
  self : Nat
  buffer : Option Nat
  deriving DecidableEq, Repr

def ringBufferCreate : Prog (Option RingBlocks) := do
  let some rb ← alloc | return none
  let some buffer ← alloc
    | free rb
      return none
  return some { self := rb, buffer := some buffer }

def ringBufferDestroy : Option RingBlocks → Prog Unit
  | none => return ()
  | some rb => do
    if let some buffer := rb.buffer then
      free buffer
    free rb.self

/-- A `buffer_manager_t`. -/
structure BufferManager where
  self : Nat
  captureToProcess : Option RingBlocks
  processToNetwork : Option RingBlocks
  networkPool : Option RingBlocks
  deriving DecidableEq, Repr

def bufferManagerCreate : Prog (Option BufferManager) := do
  let some bm ← alloc | return none
  return some { self := bm, captureToProcess := none, processToNetwork := none, networkPool := none }

def bufferManagerDestroy (bm : BufferManager) : Prog Unit := do
  ringBufferDestroy bm.captureToProcess
  ringBufferDestroy bm.processToNetwork
  ringBufferDestroy bm.networkPool
  free bm.self

def bufferManagerInit (bm : BufferManager) : Prog (AdcError × BufferManager) := do
  let bm := { bm with captureToProcess := ← ringBufferCreate }
  if bm.captureToProcess.isNone then
    return (.errorBuffer, bm)
  let bm := { bm with processToNetwork := ← ringBufferCreate }
  if bm.processToNetwork.isNone then
    ringBufferDestroy bm.captureToProcess
    return (.errorBuffer, { bm with captureToProcess := none })
  let bm := { bm with networkPool := ← ringBufferCreate }
  if bm.networkPool.isNone then
    ringBufferDestroy bm.captureToProcess
    ringBufferDestroy bm.processToNetwork
    return (.errorBuffer, { bm with captureToProcess := none, processToNetwork := none })
  return (.ok, bm)

/-! ## What the workers create -/

def adcSimulatorCreate : Prog (Option Nat) := do
  let some adc ← alloc | return none
  return some adc

def adcSimulatorDestroy : Option Nat → Prog Unit
  | none => return ()
  | some adc => free adc

/-- A `tcp_client_t` and its `send_buffer`. -/
structure ClientBlocks where
  self : Nat
  sendBuffer : Option Nat
  deriving DecidableEq, Repr

/-- `acquired` is the answer of `winsock_acquire`, where there is one. -/
def tcpClientCreate (acquired : Bool) : Prog (Option ClientBlocks) := do
  let some client ← alloc | return none
  let some sendBuffer ← alloc
    | free client
      return none
  if !acquired then
    free sendBuffer
    free client
    return none
  return some { self := client, sendBuffer := some sendBuffer }

def tcpClientDestroy : Option ClientBlocks → Prog Unit
  | none => return ()
  | some client => do
    if let some sendBuffer := client.sendBuffer then
      free sendBuffer
    free client.self

/-- `BLOCK_POOL_SIZE`, as the bound of the loop. -/
def blockPoolCount : Nat := 16

/-- The first entries of the pool; one that cannot be allocated stays `NULL`. -/
def allocBlocks : Nat → Prog (List (Option Nat))
  | 0 => return []
  | n + 1 => do
    let pool ← allocBlocks n
    return pool ++ [← alloc]

def initBlockPool : Prog (List (Option Nat)) := allocBlocks blockPoolCount

/-- The fields `adc` and `tcp_client` of the thread manager, and the block pool, which is there
once `g_block_pool_ready` is set. -/
structure Held where
  adc : Option Nat
  tcpClient : Option ClientBlocks
  pool : Option (List (Option Nat))
  deriving DecidableEq, Repr

def Held.nothing : Held := { adc := none, tcpClient := none, pool := none }

/-- An iteration of a worker. That of the network thread may go as far as to the pool. -/
inductive Iteration where
  | capture
  | network (acquired toPool : Bool)
  deriving DecidableEq, Repr

def captureThreadWorker (held : Held) : Prog Held := do
  if held.adc.isSome then
    return held
  return { held with adc := ← adcSimulatorCreate }

def getBlockFromPool (held : Held) : Prog Held := do
  if held.pool.isSome then
    return held
  return { held with pool := some (← initBlockPool) }

/-- The client of the network worker, created when there is none yet. -/
def getOrCreateClient (held : Held) (acquired : Bool) : Prog Held := do
  if held.tcpClient.isSome then
    return held
  return { held with tcpClient := ← tcpClientCreate acquired }

def networkThreadWorker (held : Held) (acquired toPool : Bool) : Prog Held := do
  let held ← getOrCreateClient held acquired
  if held.tcpClient.isSome && toPool then
    getBlockFromPool held
  else
    return held

def iterate (held : Held) : Iteration → Prog Held
  | .capture => captureThreadWorker held
  | .network acquired toPool => networkThreadWorker held acquired toPool

/-! ## The program -/

def threadManagerCreate : Prog (Option Nat) := do
  let some tm ← alloc | return none
  return some tm

def threadManagerDestroy (tm : Nat) : Prog Unit := free tm

/-- How `main` ends: its result, whether it came to `thread_manager_start`, and what the workers
hold. -/
structure Exit where
  code : Nat
  started : Bool
  held : Held
  deriving DecidableEq, Repr

def Exit.failedSetup : Exit := { code := 1, started := false, held := .nothing }

/-- `main`, with the answer of `thread_manager_start` and the iterations that the workers get done:
before its releases and, where a failed start has left threads that nobody joins, `between` the two
releases and `after` them. `thread_manager_init` cannot fail behind the two creations. -/
def main (startOk : Bool) (iterations between after : List Iteration) : Prog Exit := do
  let some bm ← bufferManagerCreate | return .failedSetup
  let (err, bm) ← bufferManagerInit bm
  if err ≠ .ok then
    bufferManagerDestroy bm
    return .failedSetup
  let some tm ← threadManagerCreate
    | bufferManagerDestroy bm
      return .failedSetup
  let held ← iterations.foldlM iterate .nothing
  threadManagerDestroy tm
  let held ← (if startOk then [] else between).foldlM iterate held
  bufferManagerDestroy bm
  let held ← (if startOk then [] else after).foldlM iterate held
  return { code := if startOk then 0 else 1, started := true, held := held }

end FastRing.Memory
