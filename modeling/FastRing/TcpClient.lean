import Mathlib.Data.Nat.Bitwise
import FastRing.Types
import FastRing.Lib.LittleEndian

/-! # The TCP client

`tcp_client.c` over the operating system: each call takes the outcomes the OS is
going to report as an argument and returns, with its result and the client, the
system calls it made in order. Nothing of the OS is assumed beyond what the
outcomes say. -/

namespace FastRing

open LittleEndian

/-- `tcp_config_t`. -/
structure TcpConfig where
  serverIp : String
  serverPort : UInt16
  sendTimeoutMs : UInt32
  recvTimeoutMs : UInt32
  bufferSize : UInt32
  keepAlive : Bool
  deriving DecidableEq, Repr

def tcpConfigGetDefault : TcpConfig :=
  { serverIp := "127.0.0.1", serverPort := 8080, sendTimeoutMs := 5000, recvTimeoutMs := 5000
    bufferSize := 1024 * 64, keepAlive := true }

/-- `struct tcp_client`; the send buffer is allocated and never used. -/
structure TcpClient where
  config : TcpConfig
  socketFd : Int
  connected : Bool
  blockSequence : UInt32
  deriving DecidableEq, Repr

inductive SockOpt where
  | sndbuf
  | nodelay
  | keepalive
  | sndtimeo
  | rcvtimeo
  deriving DecidableEq, Repr

/-- A system call as the OS saw it: `socket` with the descriptor it returned, `send`
with its length argument and the bytes the OS took, `recv` with its length argument
and the bytes it delivered. -/
inductive Syscall where
  | socket (fd : Int)
  | setsockopt (fd : Int) (opt : SockOpt)
  | connect (fd : Int) (ok : Bool)
  | send (fd : Int) (len : UInt64) (bytes : List UInt8)
  | recv (fd : Int) (len : UInt64) (bytes : List UInt8)
  | close (fd : Int)
  deriving DecidableEq, Repr

/-- What the OS reports while connecting: the descriptor from `socket`, whether
`inet_pton` takes the address, whether `connect` succeeds. -/
structure ConnectOutcome where
  fd : Int
  addressValid : Bool
  accepted : Bool
  deriving DecidableEq, Repr

/-- What the OS reports for one `send`: it took up to `n` bytes (0 included), the
call would block or timed out, or it failed otherwise. -/
inductive SendOutcome where
  | accepted (n : Nat)
  | wouldBlock
  | failed
  deriving DecidableEq, Repr

/-- What the OS reports for one `recv`: data, no data yet, the end of the stream, or
another failure. -/
inductive RecvOutcome where
  | data (bytes : List UInt8)
  | wouldBlock
  | closed
  | failed
  deriving DecidableEq, Repr

/-- The result of a call: error code, client, system calls made. -/
structure CallResult where
  err : AdcError
  client : TcpClient
  log : List Syscall

/-- `tcp_client_create`; `allocated` says whether its allocations succeed. -/
def tcpClientCreate (config : Option TcpConfig) (allocated : Bool) : Option TcpClient :=
  if allocated then
    some { config := config.getD tcpConfigGetDefault, socketFd := -1, connected := false
           blockSequence := 0 }
  else none

/-- The options `tcp_client_connect` sets on its new socket. -/
def sockOpts (config : TcpConfig) : List SockOpt :=
  [.sndbuf, .nodelay] ++ (if config.keepAlive then [.keepalive] else []) ++ [.sndtimeo, .rcvtimeo]

def tcpClientConnect (client : TcpClient) (o : ConnectOutcome) : CallResult :=
  if client.connected then { err := .ok, client := client, log := [] }
  else if o.fd < 0 then
    { err := .errorNetwork, client := { client with socketFd := o.fd }, log := [.socket o.fd] }
  else
    let log := .socket o.fd :: (sockOpts client.config).map (.setsockopt o.fd)
    if !o.addressValid then
      { err := .errorNetwork, client := { client with socketFd := -1 }, log := log ++ [.close o.fd] }
    else if !o.accepted then
      { err := .errorNetwork, client := { client with socketFd := -1 }
        log := log ++ [.connect o.fd false, .close o.fd] }
    else
      { err := .ok, client := { client with socketFd := o.fd, connected := true }
        log := log ++ [.connect o.fd true] }

def tcpClientDisconnect (client : TcpClient) : CallResult :=
  if client.connected then
    { err := .ok, client := { client with socketFd := -1, connected := false }
      log := [.close client.socketFd] }
  else { err := .ok, client := client, log := [] }

/-- `tcp_client_destroy`: the system calls it makes. -/
def tcpClientDestroy (client : TcpClient) : List Syscall :=
  if client.connected then (tcpClientDisconnect client).log else []

def tcpClientIsConnected (client : TcpClient) : Bool := client.connected

/-- The length argument of `send` and `recv`: `(int)len` converted to `size_t`. -/
def sendLength (len : Nat) : UInt64 := (UInt64.ofNat len).toUInt32.toInt32.toInt64.toUInt64

/-- The number of bytes a `send` takes: at most what is asked for, what is there,
and what the `int` result can tell. -/
def sendCount (n len : Nat) : Nat := min (min n (2 ^ 31 - 1)) (min (sendLength len).toNat len)

/-- `tcp_client_send` of the whole of `data`; the second component is `*sent`, which
the callers set to 0 beforehand. -/
def tcpClientSend (client : TcpClient) (data : List UInt8) (o : SendOutcome) : CallResult × Nat :=
  if data.isEmpty then ({ err := .errorInvalidParam, client := client, log := [] }, 0)
  else if !client.connected then ({ err := .errorNetwork, client := client, log := [] }, 0)
  else
    match o with
    | .wouldBlock =>
      ({ err := .errorTimeout, client := client
         log := [.send client.socketFd (sendLength data.length) []] }, 0)
    | .failed =>
      ({ err := .errorNetwork, client := { client with connected := false }
         log := [.send client.socketFd (sendLength data.length) []] }, 0)
    | .accepted n =>
      let result := sendCount n data.length
      ({ err := .ok, client := client
         log := [.send client.socketFd (sendLength data.length) (data.take result)] }, result)

/-- The loop of `tcp_client_send_all`. Every round but the last takes at least one
byte, so `data.length` rounds are enough. -/
def sendAllLoop : Nat → TcpClient → List UInt8 → (Nat → SendOutcome) → CallResult
  | 0, client, _, _ => { err := .ok, client := client, log := [] }
  | fuel + 1, client, data, o =>
    if data.isEmpty then { err := .ok, client := client, log := [] }
    else
      let (r, sent) := tcpClientSend client data (o 0)
      if r.err ≠ .ok then r
      else if sent = 0 then
        { err := .errorNetwork, client := { r.client with connected := false }, log := r.log }
      else
        let rest := sendAllLoop fuel r.client (data.drop sent) fun k => o (k + 1)
        { rest with log := r.log ++ rest.log }

def tcpClientSendAll (client : TcpClient) (data : List UInt8) (o : Nat → SendOutcome) :
    CallResult :=
  if data.isEmpty then { err := .errorInvalidParam, client := client, log := [] }
  else if !client.connected then { err := .errorNetwork, client := client, log := [] }
  else sendAllLoop data.length client data o

/-- `tcp_client_receive` into a buffer of `len` bytes; the second component is what was
received. A `recv` that delivers no byte reports the end of the stream. -/
def tcpClientReceive (client : TcpClient) (len : Nat) (o : RecvOutcome) :
    CallResult × List UInt8 :=
  if len = 0 then ({ err := .errorInvalidParam, client := client, log := [] }, [])
  else if !client.connected then ({ err := .errorNetwork, client := client, log := [] }, [])
  else
    let call (bytes : List UInt8) : List Syscall := [.recv client.socketFd (sendLength len) bytes]
    let lost : CallResult :=
      { err := .errorNetwork, client := { client with connected := false }, log := call [] }
    match o with
    | .wouldBlock => ({ err := .errorTimeout, client := client, log := call [] }, [])
    | .failed => (lost, [])
    | .closed => (lost, [])
    | .data bytes =>
      let received := bytes.take (sendCount bytes.length len)
      if received.isEmpty then (lost, [])
      else ({ err := .ok, client := client, log := call received }, received)

/-! ## Blocks on the wire -/

/-- The memory of an `adc_sample_t`. -/
def AdcSample.bytes (s : AdcSample) : List UInt8 :=
  leBytes 4 s.timestamp.toNat ++ leBytes 4 s.value.toUInt32.toNat ++ leBytes 4 s.sequence.toNat ++
    leBytes 2 s.channel.toNat ++ leBytes 2 s.flags.toNat

/-- The memory of a `data_block_t` with its samples. -/
def DataBlock.bytes (b : DataBlock) : List UInt8 :=
  leBytes 4 b.magic.toNat ++ leBytes 4 b.version.toNat ++ leBytes 4 b.sequence.toNat ++
    leBytes 4 b.sampleCount.toNat ++ leBytes 8 b.timestamp.toNat ++ b.samples.flatMap AdcSample.bytes

/-- `tcp_client_send_data_block`: header and samples in one go. -/
def tcpClientSendDataBlock (client : TcpClient) (block : DataBlock) (o : Nat → SendOutcome) :
    CallResult :=
  let blockSize := dataBlockSize + block.sampleCount.toNat * adcSampleSize
  tcpClientSendAll client (block.bytes.take blockSize) o

end FastRing
