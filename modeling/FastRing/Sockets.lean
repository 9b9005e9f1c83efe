import FastRing.TcpSend
import FastRing.Lib.Runs

/-! # Descriptors of one client

The descriptors a process holds change with its system calls: `socket` adds one,
`close` takes it away. A session is the life of one TCP client, from its creation on,
with any calls in any order and any outcomes of the OS, and keeps this table of
descriptors and the list of all system calls made. The one thing the OS promises is
that `socket` never returns a descriptor that is still open. -/

namespace FastRing

/-- The descriptors that are open, and those among them that are connected. -/
structure Sockets where
  openFds : List Int
  connectedFds : List Int
  deriving DecidableEq, Repr

namespace Sockets

/-- No descriptor yet. -/
def initial : Sockets := { openFds := [], connectedFds := [] }

def effect (s : Sockets) : Syscall → Sockets
  | .socket fd => if 0 ≤ fd then { s with openFds := fd :: s.openFds } else s
  | .connect fd true => { s with connectedFds := fd :: s.connectedFds }
  | .close fd =>
    { openFds := s.openFds.filter fun d => d ≠ fd
      connectedFds := s.connectedFds.filter fun d => d ≠ fd }
  | _ => s

def effects (s : Sockets) (log : List Syscall) : Sockets := log.foldl effect s

/-- The call is made on a descriptor it may be made on. -/
def Allowed (s : Sockets) : Syscall → Prop
  | .socket fd => fd ∉ s.openFds
  | .setsockopt fd _ => fd ∈ s.openFds
  | .connect fd _ => fd ∈ s.openFds
  | .send fd _ _ => fd ∈ s.openFds ∧ fd ∈ s.connectedFds
  | .recv fd _ _ => fd ∈ s.openFds ∧ fd ∈ s.connectedFds
  | .close fd => fd ∈ s.openFds

/-- Every call of the log is allowed at its time. -/
def Live : Sockets → List Syscall → Prop
  | _, [] => True
  | s, c :: log => s.Allowed c ∧ Live (s.effect c) log

variable {s : Sockets} {fd : Int} {log log' : List Syscall}

theorem effects_append : s.effects (log ++ log') = (s.effects log).effects log' :=
  List.foldl_append

theorem Live.append (h : s.Live log) (h' : (s.effects log).Live log') : s.Live (log ++ log') := by
  induction log generalizing s with
  | nil => exact h'
  | cons c log ih => exact ⟨h.1, ih h.2 h'⟩

/-- Only sends and receives on the descriptor `fd`. -/
def UsesOnly (fd : Int) (log : List Syscall) : Prop :=
  ∀ c ∈ log, ∃ len bytes, c = .send fd len bytes ∨ c = .recv fd len bytes

theorem usesOnly_send (fd : Int) (len : UInt64) (bytes : List UInt8) :
    UsesOnly fd [.send fd len bytes] := by
  intro c hc
  exact ⟨len, bytes, .inl (List.mem_singleton.mp hc)⟩

theorem usesOnly_recv (fd : Int) (len : UInt64) (bytes : List UInt8) :
    UsesOnly fd [.recv fd len bytes] := by
  intro c hc
  exact ⟨len, bytes, .inr (List.mem_singleton.mp hc)⟩

theorem UsesOnly.append (h : UsesOnly fd log) (h' : UsesOnly fd log') : UsesOnly fd (log ++ log') := by
  intro c hc
  rcases List.mem_append.mp hc with hc | hc
  · exact h c hc
  · exact h' c hc

theorem UsesOnly.tail {c : Syscall} (h : UsesOnly fd (c :: log)) : UsesOnly fd log := by
  intro c' hc'
  exact h c' (List.mem_cons_of_mem _ hc')

theorem UsesOnly.effects (h : UsesOnly fd log) : s.effects log = s := by
  induction log with
  | nil => rfl
  | cons c log ih =>
    obtain ⟨len, bytes, rfl | rfl⟩ := h c (List.mem_cons_self ..) <;> exact ih h.tail

theorem UsesOnly.live (h : UsesOnly fd log) (ho : fd ∈ s.openFds) (hc : fd ∈ s.connectedFds) :
    s.Live log := by
  induction log with
  | nil => trivial
  | cons c log ih =>
    obtain ⟨len, bytes, rfl | rfl⟩ := h c (List.mem_cons_self ..) <;>
      exact ⟨⟨ho, hc⟩, ih h.tail⟩

theorem setsockopt_effects (opts : List SockOpt) : s.effects (opts.map (.setsockopt fd)) = s := by
  induction opts with
  | nil => rfl
  | cons opt opts ih => exact ih

theorem setsockopt_live (ho : fd ∈ s.openFds) (opts : List SockOpt) :
    s.Live (opts.map (.setsockopt fd)) := by
  induction opts with
  | nil => trivial
  | cons opt opts ih => exact ⟨ho, ih⟩

end Sockets

/-! ## Sessions -/

/-- The calls on a client. -/
inductive TcpCall where
  | connect (o : ConnectOutcome)
  | disconnect
  | send (data : List UInt8) (o : SendOutcome)
  | sendAll (data : List UInt8) (o : Nat → SendOutcome)
  | sendDataBlock (block : DataBlock) (o : Nat → SendOutcome)
  | receive (len : Nat) (o : RecvOutcome)
  | destroy

/-- The client after a call, if it is still there, and the system calls made. -/
def TcpCall.apply (client : TcpClient) : TcpCall → Option TcpClient × List Syscall
  | .connect o => let r := tcpClientConnect client o; (some r.client, r.log)
  | .disconnect => let r := tcpClientDisconnect client; (some r.client, r.log)
  | .send data o => let r := (tcpClientSend client data o).1; (some r.client, r.log)
  | .sendAll data o => let r := tcpClientSendAll client data o; (some r.client, r.log)
  | .sendDataBlock block o => let r := tcpClientSendDataBlock client block o; (some r.client, r.log)
  | .receive len o => let r := (tcpClientReceive client len o).1; (some r.client, r.log)
  | .destroy => (none, tcpClientDestroy client)

structure Session where
  client : Option TcpClient
  sockets : Sockets
  log : List Syscall
  deriving DecidableEq, Repr

namespace Session

def create (config : Option TcpConfig) (allocated : Bool) : Session :=
  { client := tcpClientCreate config allocated, sockets := .initial, log := [] }

/-- The descriptor a `socket` call would return is not open. -/
def Fresh (sockets : Sockets) (client : TcpClient) : TcpCall → Prop
  | .connect o => client.connected = true ∨ o.fd ∉ sockets.openFds
  | _ => True

instance (sockets : Sockets) (client : TcpClient) :
    (call : TcpCall) → Decidable (Fresh sockets client call)
  | .connect o => inferInstanceAs (Decidable (client.connected = true ∨ o.fd ∉ sockets.openFds))
  | .disconnect => isTrue trivial
  | .send .. => isTrue trivial
  | .sendAll .. => isTrue trivial
  | .sendDataBlock .. => isTrue trivial
  | .receive .. => isTrue trivial
  | .destroy => isTrue trivial

/-- One call on the client; after `destroy` there are none. -/
def step (s : Session) (call : TcpCall) : Option Session :=
  match s.client with
  | none => none
  | some client =>
    if Fresh s.sockets client call then
      let (client', calls) := call.apply client
      some { client := client', sockets := s.sockets.effects calls, log := s.log ++ calls }
    else none

end Session

/-! ## What a call does -/

open Sockets (UsesOnly usesOnly_send usesOnly_recv)

/-- A `send_all` of `len` bytes that loses the connection: a send fails for another
reason than a timeout, or takes nothing. -/
inductive SendBreaks : Nat → (Nat → SendOutcome) → Prop
  | failed {len : Nat} {o : Nat → SendOutcome} (hlen : 0 < len) (ho : o 0 = .failed) :
      SendBreaks len o
  | nothing {len n : Nat} {o : Nat → SendOutcome} (hlen : 0 < len) (ho : o 0 = .accepted n)
      (hn : sendCount n len = 0) : SendBreaks len o
  | later {len n : Nat} {o : Nat → SendOutcome} (ho : o 0 = .accepted n) (hn : 0 < sendCount n len)
      (h : SendBreaks (len - sendCount n len) fun k => o (k + 1)) : SendBreaks len o

/-- A `recv` of `len` bytes that loses the connection: it fails for another reason than
a timeout, or delivers nothing. -/
def RecvBreaks (len : Nat) : RecvOutcome → Prop
  | .data bytes => sendCount bytes.length len = 0
  | .wouldBlock => False
  | .closed => True
  | .failed => True

/-- The outcomes of the OS under which a call on a connected client loses the connection. -/
def TcpCall.Breaks : TcpCall → Prop
  | .send data o => data ≠ [] ∧ o = .failed
  | .sendAll data o => SendBreaks data.length o
  | .sendDataBlock block o =>
    SendBreaks (block.bytes.take (dataBlockSize + block.sampleCount.toNat * adcSampleSize)).length o
  | .receive len o => 0 < len ∧ RecvBreaks len o
  | _ => False

/-- All a call on a client can do: use the connection, lose it, open one, fail to, or
close it. -/
inductive CallShape (client : TcpClient) (call : TcpCall) : Option TcpClient → List Syscall → Prop
  | use {log : List Syscall} (uses : UsesOnly client.socketFd log)
      (connected : client.connected = true) (safe : ¬ call.Breaks) :
      CallShape client call (some client) log
  | lose {log : List Syscall} (uses : UsesOnly client.socketFd log)
      (connected : client.connected = true) (breaks : call.Breaks) :
      CallShape client call (some { client with connected := false }) log
  | idle (safe : ¬ (client.connected = true ∧ call.Breaks)) : CallShape client call (some client) []
  | noSocket {o : ConnectOutcome} (call_eq : call = .connect o) (connected : client.connected = false)
      (hfd : o.fd < 0) : CallShape client call (some { client with socketFd := o.fd }) [.socket o.fd]
  | refused {o : ConnectOutcome} (call_eq : call = .connect o) (opts : List SockOpt)
      {tries : List Syscall} (connected : client.connected = false) (hfd : 0 ≤ o.fd)
      (tries_eq : tries = [] ∨ tries = [.connect o.fd false]) :
      CallShape client call (some { client with socketFd := -1 })
        (.socket o.fd :: opts.map (.setsockopt o.fd) ++ tries ++ [.close o.fd])
  | opened {o : ConnectOutcome} (call_eq : call = .connect o) (opts : List SockOpt)
      (connected : client.connected = false) (hfd : 0 ≤ o.fd) :
      CallShape client call (some { client with socketFd := o.fd, connected := true })
        (.socket o.fd :: opts.map (.setsockopt o.fd) ++ [.connect o.fd true])
  | closed (connected : client.connected = true) (safe : ¬ call.Breaks) :
      CallShape client call (some { client with socketFd := -1, connected := false })
        [.close client.socketFd]
  | destroyed (call_eq : call = .destroy) :
      CallShape client call none (if client.connected then [.close client.socketFd] else [])

theorem connect_shape (client : TcpClient) (o : ConnectOutcome) :
    CallShape client (.connect o) (some (tcpClientConnect client o).client)
      (tcpClientConnect client o).log := by
  unfold tcpClientConnect
  by_cases hc : client.connected
  · rw [if_pos hc]
    exact .idle fun h => h.2
  · rw [if_neg hc]
    have hc : client.connected = false := by simpa using hc
    by_cases hfd : o.fd < 0
    · rw [if_pos hfd]
      exact .noSocket rfl hc hfd
    · rw [if_neg hfd]
      have hfd : 0 ≤ o.fd := by omega
      have refused : ∀ tries : List Syscall, tries = [] ∨ tries = [.connect o.fd false] →
          CallShape client (.connect o) (some { client with socketFd := -1 })
            (.socket o.fd :: (sockOpts client.config).map (.setsockopt o.fd) ++ tries ++
              [.close o.fd]) :=
        fun tries htries => .refused rfl _ hc hfd htries
      cases ha : o.addressValid with
      | false => simpa using refused [] (.inl rfl)
      | true =>
        cases hr : o.accepted with
        | false => simpa using refused [.connect o.fd false] (.inr rfl)
        | true => exact .opened rfl _ hc hfd

theorem disconnect_shape (client : TcpClient) :
    CallShape client .disconnect (some (tcpClientDisconnect client).client)
      (tcpClientDisconnect client).log := by
  unfold tcpClientDisconnect
  by_cases hc : client.connected
  · rw [if_pos hc]
    exact .closed hc id
  · rw [if_neg hc]
    exact .idle fun h => h.2

theorem send_shape (client : TcpClient) (data : List UInt8) (o : SendOutcome) :
    CallShape client (.send data o) (some (tcpClientSend client data o).1.client)
      (tcpClientSend client data o).1.log := by
  unfold tcpClientSend
  by_cases hd : data = []
  · subst hd
    exact .idle fun h => h.2.1 rfl
  · have hemp : data.isEmpty = false := by simpa using hd
    cases hc : client.connected with
    | false => simp only [hemp]; exact .idle fun h => by simp [hc] at h
    | true =>
      cases o with
      | wouldBlock => simp only [hemp]; exact .use (usesOnly_send _ _ _) hc fun h => by cases h.2
      | failed => simp only [hemp]; exact .lose (usesOnly_send _ _ _) hc ⟨hd, rfl⟩
      | accepted n => simp only [hemp]; exact .use (usesOnly_send _ _ _) hc fun h => by cases h.2

theorem not_sendBreaks_zero (o : Nat → SendOutcome) : ¬ SendBreaks 0 o := by
  intro h
  cases h with
  | failed hlen => exact Nat.lt_irrefl _ hlen
  | nothing hlen => exact Nat.lt_irrefl _ hlen
  | later _ hn => simp [sendCount] at hn

/-- The loop of `tcp_client_send_all` uses the client's connection only, and loses it
exactly when the outcomes say so. -/
theorem sendAllLoop_shape {client : TcpClient} (hc : client.connected = true) (fuel : Nat)
    {data : List UInt8} (o : Nat → SendOutcome) (hf : data.length ≤ fuel) :
    UsesOnly client.socketFd (sendAllLoop fuel client data o).log ∧
      (SendBreaks data.length o ∧
          (sendAllLoop fuel client data o).client = { client with connected := false } ∨
        ¬ SendBreaks data.length o ∧ (sendAllLoop fuel client data o).client = client) := by
  induction fuel generalizing data o with
  | zero =>
    obtain rfl : data = [] := List.length_eq_zero_iff.mp (by omega)
    exact ⟨nofun, .inr ⟨not_sendBreaks_zero o, rfl⟩⟩
  | succ fuel ih =>
    have hround := sendAllLoop_round hc fuel data o
    generalize sendAllLoop (fuel + 1) client data o = r at hround
    cases hround with
    | finished nil =>
      subst nil
      exact ⟨nofun, .inr ⟨not_sendBreaks_zero o, rfl⟩⟩
    | timeout some out =>
      refine ⟨usesOnly_send _ _ _, .inr ⟨?_, rfl⟩⟩
      intro h
      cases h <;> simp_all
    | broken some out =>
      have hpos := List.length_pos_iff.mpr some
      refine ⟨usesOnly_send _ _ _, .inl ⟨?_, rfl⟩⟩
      rcases out with out | ⟨n, out, hn⟩
      · exact .failed hpos out
      · exact .nothing hpos out hn
    | more some n out pos rest rest_eq =>
      have hlen := List.length_drop (i := sendCount n data.length) (l := data)
      have hf' : (data.drop (sendCount n data.length)).length ≤ fuel := by omega
      obtain ⟨huses, hend⟩ := ih (fun k => o (k + 1)) hf'
      rw [← rest_eq] at huses hend
      rw [hlen] at hend
      refine ⟨UsesOnly.append (usesOnly_send _ _ _) huses, ?_⟩
      rcases hend with ⟨hb, hclient⟩ | ⟨hb, hclient⟩
      · exact .inl ⟨.later out pos hb, hclient⟩
      · refine .inr ⟨?_, hclient⟩
        intro h
        cases h with
        | failed _ ho' => rw [out] at ho'; cases ho'
        | nothing _ ho' hn' => rw [out] at ho'; cases ho'; omega
        | later ho' _ h => rw [out] at ho'; cases ho'; exact hb h

theorem sendAll_shape (client : TcpClient) (data : List UInt8) (o : Nat → SendOutcome)
    {call : TcpCall} (hcall : call.Breaks ↔ SendBreaks data.length o) :
    CallShape client call (some (tcpClientSendAll client data o).client)
      (tcpClientSendAll client data o).log := by
  unfold tcpClientSendAll
  by_cases hd : data = []
  · subst hd
    exact .idle fun h => not_sendBreaks_zero o (hcall.mp h.2)
  · have hemp : data.isEmpty = false := by simpa using hd
    cases hc : client.connected with
    | false =>
      simp only [hemp]
      exact .idle fun h => by simp [hc] at h
    | true =>
      rw [hemp, if_neg (by simp), if_neg (by simp)]
      obtain ⟨huses, ⟨hb, hclient⟩ | ⟨hb, hclient⟩⟩ :=
        sendAllLoop_shape hc data.length o (Nat.le_refl _)
      · rw [hclient]
        exact .lose huses hc (hcall.mpr hb)
      · rw [hclient]
        exact .use huses hc (mt hcall.mp hb)

theorem receive_shape (client : TcpClient) (len : Nat) (o : RecvOutcome) :
    CallShape client (.receive len o) (some (tcpClientReceive client len o).1.client)
      (tcpClientReceive client len o).1.log := by
  unfold tcpClientReceive
  by_cases hlen : len = 0
  · rw [if_pos hlen]
    exact .idle fun h => Nat.ne_of_gt h.2.1 hlen
  · have hpos := Nat.pos_of_ne_zero hlen
    rw [if_neg hlen]
    cases hc : client.connected with
    | false => exact .idle fun h => by simp [hc] at h
    | true =>
      have lose : ∀ o, RecvBreaks len o → CallShape client (.receive len o)
          (some { client with connected := false }) [.recv client.socketFd (sendLength len) []] :=
        fun o ho => .lose (usesOnly_recv _ _ _) hc ⟨hpos, ho⟩
      cases o with
      | wouldBlock => exact .use (usesOnly_recv _ _ _) hc fun h => h.2
      | failed => exact lose .failed trivial
      | closed => exact lose .closed trivial
      | data bytes =>
        by_cases hn : sendCount bytes.length len = 0
        · simpa [hn] using lose (.data bytes) hn
        · have hne : bytes ≠ [] := by
            rintro rfl
            exact hn (by simp [sendCount])
          simp only [List.isEmpty_iff, List.take_eq_nil_iff, hn, hne]
          exact .use (usesOnly_recv _ _ _) hc fun h => hn h.2

/-- Every call has one of these shapes. -/
theorem call_shape (client : TcpClient) (call : TcpCall) :
    CallShape client call (call.apply client).1 (call.apply client).2 := by
  cases call with
  | connect o => exact connect_shape client o
  | disconnect => exact disconnect_shape client
  | send data o => exact send_shape client data o
  | sendAll data o => exact sendAll_shape client data o Iff.rfl
  | sendDataBlock block o => exact sendAll_shape client _ o Iff.rfl
  | receive len o => exact receive_shape client len o
  | destroy =>
    have hlog : tcpClientDestroy client =
        if client.connected then [.close client.socketFd] else [] := by
      cases hc : client.connected <;> simp [tcpClientDestroy, tcpClientDisconnect, hc]
    show CallShape client .destroy none (tcpClientDestroy client)
    rw [hlog]
    exact .destroyed rfl

end FastRing
