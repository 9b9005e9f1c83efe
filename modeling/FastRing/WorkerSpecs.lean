import FastRing.Workers
import FastRing.RingOps
import FastRing.TcpSend

/-! # What one iteration of each worker does

The rings are described by what they hold. The callback and the process worker have
one equation each; an iteration of the network worker is one of the cases of
`NetworkCase`, which say how far it got. -/

namespace FastRing

variable {s : System} {q q' : List AdcSample}

theorem adcSampleCallback_eq (h : s.captureToProcess.Holds q) (x : AdcSample) :
    adcSampleCallback s x =
      if q.length < s.captureToProcess.capacity.toNat - 1 then
        { s with
          captureToProcess := s.captureToProcess.accept [x] 0
          stats := s.stats.countPush true
          offered := s.offered + 1 }
      else
        { s with
          captureToProcess := s.captureToProcess.accept [] 1
          stats := s.stats.countPush false
          offered := s.offered + 1 } := by
  unfold adcSampleCallback
  rw [h.push_eq]
  by_cases hlt : q.length < s.captureToProcess.capacity.toNat - 1
  · simp only [if_pos hlt]
  · simp only [if_neg hlt]

theorem SystemStats.countForward_eq (stats : SystemStats) {k j : Nat} (hk : k < 2 ^ 32)
    (hj : j ≤ k) : stats.countForward (UInt32.ofNat k) (UInt32.ofNat j) =
      { stats with droppedSamples := stats.droppedSamples + UInt64.ofNat (k - j) } := by
  have ek : (UInt32.ofNat k).toNat = k := by rw [UInt32.toNat_ofNat', Nat.mod_eq_of_lt hk]
  have ej : (UInt32.ofNat j).toNat = j := by rw [UInt32.toNat_ofNat', Nat.mod_eq_of_lt (by omega)]
  unfold countForward
  by_cases hlt : UInt32.ofNat j < UInt32.ofNat k
  · rw [if_pos hlt, ← UInt64.ofNat_uInt32ToNat, UInt32.toNat_sub_of_le _ _ (UInt32.le_of_lt hlt),
      ek, ej]
  · rw [UInt32.lt_iff_toNat_lt, ek, ej] at hlt
    rw [if_neg (by rw [UInt32.lt_iff_toNat_lt, ek, ej]; exact hlt)]
    obtain rfl : j = k := by omega
    simp

/-- The process worker takes up to 256 samples and forwards as many as fit. -/
theorem processThreadWorker_eq (h : s.captureToProcess.Holds q) (h' : s.processToNetwork.Holds q')
    {k j : Nat} (hk : k = min 256 q.length)
    (hj : j = min k (s.processToNetwork.capacity.toNat - 1 - q'.length)) :
    processThreadWorker s =
      { s with
        captureToProcess := s.captureToProcess.release k
        processToNetwork := s.processToNetwork.accept (q.take j) (k - j)
        stats := { s.stats with
          droppedSamples := s.stats.droppedSamples + UInt64.ofNat (k - j) } } := by
  have hlen : (q.take k).length = k := by rw [List.length_take]; omega
  have hword : (q.take k).length < 2 ^ 32 := by omega
  unfold processThreadWorker
  rw [h.popBatch_eq 256 (k := k) hk]
  by_cases hk0 : k = 0
  · subst hk0
    obtain rfl : j = 0 := by omega
    simp [h'.wf.accept_nil]
  · have hpush := h'.pushBatch_eq (Batch.ofList (q.take k)) (k := j)
      (by rw [Batch.ofList_count hword, hlen]; exact hj)
    rw [Batch.ofList_count hword, Batch.ofList_items hword, hlen, List.take_take,
      Nat.min_eq_left (show j ≤ k by omega)] at hpush
    simp only [hpush, decide_eq_true (Nat.pos_of_ne_zero hk0), if_true,
      s.stats.countForward_eq (show k < 2 ^ 32 by omega) (show j ≤ k by omega)]

/-! ## The network worker -/

/-- Connecting goes through. -/
def ConnectOutcome.succeeds (o : ConnectOutcome) : Bool :=
  decide (0 ≤ o.fd) && o.addressValid && o.accepted

/-- The iteration has a connected client: there is one, or one can be created, and
it is connected or connecting goes through. -/
def canSend (client : Option TcpClient) (env : NetworkEnv) : Bool :=
  match client with
  | some client => client.connected || env.connect.succeeds
  | none => env.allocated && env.connect.succeeds

/-- A system call that neither opens a connection nor sends on one. -/
def Syscall.quiet : Syscall → Bool
  | .send _ _ _ => false
  | .connect _ ok => !ok
  | _ => true

/-- How connecting ends: the client was connected, it is now, or it is not. -/
inductive ConnectCase (client : TcpClient) (o : ConnectOutcome) : CallResult → Prop
  | already (conn : client.connected = true) :
      ConnectCase client o { err := .ok, client := client, log := [] }
  | opened (conn : client.connected = false) (succ : o.succeeds = true) (log : List Syscall)
      (quiet : ∀ c ∈ log, c.quiet = true) :
      ConnectCase client o
        { err := .ok, client := { client with socketFd := o.fd, connected := true }
          log := log ++ [.connect o.fd true] }
  | refused (conn : client.connected = false) (fail : o.succeeds = false) (fd : Int)
      (log : List Syscall) (quiet : ∀ c ∈ log, c.quiet = true) :
      ConnectCase client o
        { err := .errorNetwork, client := { client with socketFd := fd }, log := log }

theorem tcpClientConnect_cases (client : TcpClient) (o : ConnectOutcome) :
    ConnectCase client o (tcpClientConnect client o) := by
  have hopts : ∀ c ∈ Syscall.socket o.fd :: (sockOpts client.config).map (.setsockopt o.fd),
      c.quiet = true := by
    intro c hc
    rcases List.mem_cons.mp hc with rfl | hc
    · rfl
    · obtain ⟨opt, _, rfl⟩ := List.mem_map.mp hc
      rfl
  have hmore : ∀ more : List Syscall, (∀ c ∈ more, c.quiet = true) →
      ∀ c ∈ Syscall.socket o.fd :: (sockOpts client.config).map (.setsockopt o.fd) ++ more,
        c.quiet = true := by
    intro more hm c hc
    rcases List.mem_append.mp hc with hc | hc
    · exact hopts c hc
    · exact hm c hc
  cases hconn : client.connected with
  | true =>
    rw [tcpClientConnect, if_pos hconn]
    exact .already hconn
  | false =>
    rw [tcpClientConnect, if_neg (by rw [hconn]; exact Bool.false_ne_true)]
    by_cases hfd : o.fd < 0
    · rw [if_pos hfd]
      refine .refused hconn ?_ o.fd _ (by simp [Syscall.quiet])
      simp [ConnectOutcome.succeeds, hfd]
    · rw [if_neg hfd]
      have hfd : 0 ≤ o.fd := by omega
      cases haddr : o.addressValid with
      | false =>
        exact .refused hconn (by simp [ConnectOutcome.succeeds, haddr]) (-1) _
          (hmore _ (by simp [Syscall.quiet]))
      | true =>
        cases hacc : o.accepted with
        | false =>
          exact .refused hconn (by simp [ConnectOutcome.succeeds, hacc]) (-1) _
            (hmore _ (by simp [Syscall.quiet]))
        | true => exact .opened hconn (by simp [ConnectOutcome.succeeds, hfd, haddr, hacc]) _ hopts

theorem ensureConnected_eq (client : TcpClient) (env : NetworkEnv) :
    ensureConnected client env = tcpClientConnect client env.connect := by
  unfold ensureConnected tcpClientIsConnected tcpClientConnect
  cases client.connected <;> rfl

/-- The client the iteration sends with, and the calls made to connect it. -/
inductive Ready (s : System) (env : NetworkEnv) : TcpClient → List Syscall → Prop
  | already {client : TcpClient} (get : s.tcpClient = some client)
      (conn : client.connected = true) : Ready s env client []
  | opened {client : TcpClient} (get : getOrCreateClient s.tcpClient env = some client)
      (conn : client.connected = false) (log : List Syscall) (quiet : ∀ c ∈ log, c.quiet = true) :
      Ready s env { client with socketFd := env.connect.fd, connected := true }
        (log ++ [.connect env.connect.fd true])

theorem Ready.connected {env : NetworkEnv} {client : TcpClient} {log : List Syscall}
    (h : Ready s env client log) : client.connected = true := by
  cases h with
  | already get conn => exact conn
  | opened get conn log quiet => rfl

/-- An iteration of the network worker on a second ring that holds `q`. -/
inductive NetworkCase (s : System) (q : List AdcSample) (env : NetworkEnv) : System → Prop
  | noClient (none : canSend s.tcpClient env = false) : NetworkCase s q env s
  | refused (none : canSend s.tcpClient env = false) {client : TcpClient}
      (get : getOrCreateClient s.tcpClient env = some client) (conn : client.connected = false)
      (fd : Int) (log : List Syscall) (quiet : ∀ c ∈ log, c.quiet = true) :
      NetworkCase s q env
        { s with tcpClient := some { client with socketFd := fd }, log := s.log ++ log }
  | empty (can : canSend s.tcpClient env = true) {client : TcpClient} {log : List Syscall}
      (ready : Ready s env client log) (nil : q = []) :
      NetworkCase s q env { s with tcpClient := some client, log := s.log ++ log }
  | noBlock (can : canSend s.tcpClient env = true) {client : TcpClient} {log : List Syscall}
      (ready : Ready s env client log) (ne : q ≠ []) (missing : (getBlockFromPool s.pool).1 = false) :
      NetworkCase s q env { s with
        processToNetwork := s.processToNetwork.release (min 256 q.length)
        tcpClient := some client
        pool := (getBlockFromPool s.pool).2
        log := s.log ++ log }
  | sent (can : canSend s.tcpClient env = true) {client : TcpClient} {log : List Syscall}
      (ready : Ready s env client log) (ne : q ≠ []) (present : (getBlockFromPool s.pool).1 = true)
      {block : DataBlock} (hb : block =
        fillBlock env.clock (q.take 256) (UInt32.ofNat (min 256 q.length)))
      {r : CallResult} (ends : SendEnd client block.bytes env.send r)
      (on : SendsOn client.socketFd r.log) :
      NetworkCase s q env { s with
        processToNetwork := s.processToNetwork.release (min 256 q.length)
        stats := s.stats.countSend (UInt32.ofNat (min 256 q.length)) r.err
        tcpClient := some r.client
        pool := (getBlockFromPool s.pool).2
        handed := s.handed ++ [(block, r.err)]
        log := s.log ++ log ++ r.log }

/-- The header of a worker's block tells the number of its samples. -/
theorem fillBlock_count (clock : UInt64) (q : List AdcSample) :
    (fillBlock clock (q.take 256) (UInt32.ofNat (min 256 q.length))).samples.length =
      (fillBlock clock (q.take 256) (UInt32.ofNat (min 256 q.length))).sampleCount.toNat := by
  simp only [fillBlock, List.length_take, UInt32.toNat_ofNat']
  omega

/-- The part of an iteration behind the connection. -/
theorem collectAndSend_cases (h : s.processToNetwork.Holds q) {env : NetworkEnv}
    (can : canSend s.tcpClient env = true) {client : TcpClient} {log : List Syscall}
    (ready : Ready s env client log) :
    NetworkCase s q env
      (collectAndSend { s with tcpClient := some client, log := s.log ++ log } client env) := by
  unfold collectAndSend
  simp only [h.popBatch_eq samplesPerBlock (k := min 256 q.length) rfl, ← List.take_eq_take_min]
  by_cases hq : q = []
  · subst hq
    simp only [List.length_nil, Nat.min_zero, h.wf.release_zero]
    exact .empty can ready rfl
  · have hpos : 0 < min 256 q.length := by
      have := List.length_pos_iff.mpr hq
      omega
    simp only [decide_eq_true hpos, if_true]
    cases hb : (getBlockFromPool s.pool).1 with
    | false => exact .noBlock can ready hq hb
    | true =>
      obtain ⟨hends, hon⟩ := tcpClientSendDataBlock_spec ready.connected env.send
        (fillBlock_count env.clock q) (by simp [fillBlock])
      exact .sent can ready hq hb rfl hends hon

theorem networkThreadWorker_cases (h : s.processToNetwork.Holds q) (env : NetworkEnv) :
    NetworkCase s q env (networkThreadWorker s env) := by
  unfold networkThreadWorker
  cases hget : getOrCreateClient s.tcpClient env with
  | none =>
    refine .noClient ?_
    cases hc : s.tcpClient with
    | some client => rw [hc] at hget; cases hget
    | none =>
      rw [hc] at hget
      cases ha : env.allocated with
      | false => simp [canSend, ha]
      | true => simp [getOrCreateClient, tcpClientCreate, ha] at hget
  | some client =>
    -- whether there was a client or not, sending is possible when this one connects
    have hcan : canSend s.tcpClient env = (client.connected || env.connect.succeeds) := by
      cases hc : s.tcpClient with
      | some c =>
        rw [hc] at hget
        cases hget
        rfl
      | none =>
        rw [hc] at hget
        cases ha : env.allocated with
        | false => simp [getOrCreateClient, tcpClientCreate, ha] at hget
        | true =>
          simp only [getOrCreateClient, tcpClientCreate, ha, if_true, Option.some.injEq] at hget
          subst hget
          simp [canSend, ha]
    simp only [ensureConnected_eq]
    generalize hr : tcpClientConnect client env.connect = r
    have hcase := tcpClientConnect_cases client env.connect
    rw [hr] at hcase
    cases hcase with
    | already conn =>
      have hsome : s.tcpClient = some client := by
        cases hc : s.tcpClient with
        | some c => rw [hc] at hget; exact hget
        | none =>
          rw [hc] at hget
          simp only [getOrCreateClient, tcpClientCreate] at hget
          split at hget
          · cases hget; cases conn
          · cases hget
      rw [if_neg (by simp)]
      exact collectAndSend_cases h (by rw [hcan, conn]; rfl) (.already hsome conn)
    | opened conn succ log quiet =>
      rw [if_neg (by simp)]
      exact collectAndSend_cases h (by rw [hcan, succ, Bool.or_true]) (.opened hget conn log quiet)
    | refused conn fail fd log quiet =>
      rw [if_pos (by simp)]
      exact .refused (by rw [hcan, conn, fail]; rfl) hget conn fd log quiet

end FastRing
