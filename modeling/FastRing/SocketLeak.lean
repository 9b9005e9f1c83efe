import FastRing.Sockets

/-! # Which descriptors a client keeps

Every system call of a session is made on a live descriptor, however the calls and the
outcomes of the OS are mixed. But the client does not close every descriptor it opens:
the calls that find the connection lost clear `connected` and keep the socket open,
after which `connect` overwrites `socket_fd` and `disconnect` and `destroy` have nothing
to close. A session leaks nothing exactly when no call on it loses the connection. -/

namespace FastRing

namespace Sockets

variable {s : Sockets} {fd : Int} {c : Syscall} {log : List Syscall}

/-- Whether `fd` is open, as a number. -/
def openCount (s : Sockets) (fd : Int) : Nat := if fd ∈ s.openFds then 1 else 0

/-- A call opens a descriptor that was not open, closes one that was, or changes none. -/
theorem Allowed.balance (h : s.Allowed c) (hfd : 0 ≤ fd) :
    [c].count (.socket fd) + s.openCount fd = [c].count (.close fd) + (s.effect c).openCount fd := by
  cases c with
  | socket d =>
    by_cases hd : d = fd
    · subst hd
      have hno : d ∉ s.openFds := h
      simp [effect, openCount, hfd, hno]
    · by_cases hpos : 0 ≤ d <;> simp [effect, openCount, hd, Ne.symm hd, hpos]
  | close d =>
    by_cases hd : d = fd
    · subst hd
      have hmem : d ∈ s.openFds := h
      simp [effect, openCount, hmem]
    · simp [effect, openCount, hd, Ne.symm hd]
  | connect d ok =>
    have heffect : (s.effect (.connect d ok)).openCount fd = s.openCount fd := by cases ok <;> rfl
    simp [heffect]
  | setsockopt d opt =>
    have heffect : s.effect (.setsockopt d opt) = s := rfl
    simp [heffect]
  | send d len bytes =>
    have heffect : s.effect (.send d len bytes) = s := rfl
    simp [heffect]
  | recv d len bytes =>
    have heffect : s.effect (.recv d len bytes) = s := rfl
    simp [heffect]

/-- In a log of live calls a descriptor was opened as often as closed, and once more if
it is open at the end. -/
theorem Live.balance (h : s.Live log) (hfd : 0 ≤ fd) :
    log.count (.socket fd) + s.openCount fd =
      log.count (.close fd) + (s.effects log).openCount fd := by
  induction log generalizing s with
  | nil => rfl
  | cons c log ih =>
    have hhead := Allowed.balance h.1 hfd
    have htail := ih h.2
    have hcons : ∀ d, (c :: log).count d = [c].count d + log.count d := by
      intro d
      rw [← List.singleton_append, List.count_append]
    rw [hcons, hcons, effects, List.foldl_cons]
    rw [effects] at htail
    omega

/-- The calls around a refused connection leave the same descriptors open. -/
theorem refused_effects (hno : fd ∉ s.openFds) (hfd : 0 ≤ fd) (opts : List SockOpt)
    {tries : List Syscall} (htries : tries = [] ∨ tries = [.connect fd false]) :
    s.effects (.socket fd :: opts.map (.setsockopt fd) ++ tries ++ [.close fd]) =
      { s with connectedFds := s.connectedFds.filter fun d => d ≠ fd } := by
  have htry : ∀ u : Sockets, u.effects tries = u := by
    intro u
    rcases htries with rfl | rfl <;> rfl
  have hclose : (fd :: s.openFds).filter (fun d => d ≠ fd) = s.openFds := by
    rw [List.filter_cons_of_neg (by simp), List.filter_eq_self]
    intro d hd
    simpa using fun h : d = fd => hno (h ▸ hd)
  rw [effects_append, effects_append, htry, ← List.singleton_append, effects_append,
    setsockopt_effects]
  simp only [effects, List.foldl_cons, List.foldl_nil, effect, if_pos hfd, hclose]

/-- They are all made on the new descriptor, which is open then. -/
theorem refused_live (hno : fd ∉ s.openFds) (hfd : 0 ≤ fd) (opts : List SockOpt)
    {tries : List Syscall} (htries : tries = [] ∨ tries = [.connect fd false]) :
    s.Live (.socket fd :: opts.map (.setsockopt fd) ++ tries ++ [.close fd]) := by
  have hopen : fd ∈ (s.effect (.socket fd)).openFds := by simp [effect, hfd]
  rw [List.cons_append, List.cons_append, List.append_assoc]
  refine ⟨hno, (setsockopt_live hopen opts).append ?_⟩
  rw [setsockopt_effects]
  rcases htries with rfl | rfl
  · exact ⟨hopen, trivial⟩
  · exact ⟨hopen, hopen, trivial⟩

theorem opened_effects (hfd : 0 ≤ fd) (opts : List SockOpt) :
    s.effects (.socket fd :: opts.map (.setsockopt fd) ++ [.connect fd true]) =
      { openFds := fd :: s.openFds, connectedFds := fd :: s.connectedFds } := by
  rw [effects_append, ← List.singleton_append, effects_append, setsockopt_effects]
  simp only [effects, List.foldl_cons, List.foldl_nil, effect, if_pos hfd]

theorem opened_live (hno : fd ∉ s.openFds) (hfd : 0 ≤ fd) (opts : List SockOpt) :
    s.Live (.socket fd :: opts.map (.setsockopt fd) ++ [.connect fd true]) := by
  have hopen : fd ∈ (s.effect (.socket fd)).openFds := by simp [effect, hfd]
  refine ⟨hno, (setsockopt_live hopen opts).append ?_⟩
  rw [setsockopt_effects]
  exact ⟨hopen, trivial⟩

end Sockets

namespace Session

open Runs Sockets

/-- A connected client's descriptor is open and connected. -/
def Held (sockets : Sockets) (client : Option TcpClient) : Prop :=
  ∀ c, client = some c → c.connected = true →
    c.socketFd ∈ sockets.openFds ∧ c.socketFd ∈ sockets.connectedFds

/-- What holds in every state of every session. -/
structure Inv (s : Session) : Prop where
  sockets : s.sockets = initial.effects s.log
  live : initial.Live s.log
  held : Held s.sockets s.client

variable {s t : Session} {client : TcpClient} {client' : Option TcpClient} {call : TcpCall}
  {sockets : Sockets} {log : List Syscall}

/-- The descriptor of a new socket was not open before. -/
theorem Fresh.notMem {o : ConnectOutcome} (h : Fresh sockets client call) (hcall : call = .connect o)
    (hc : client.connected = false) : o.fd ∉ sockets.openFds := by
  subst hcall
  rcases h with hc' | hno
  · rw [hc] at hc'
    cases hc'
  · exact hno

/-- A call keeps to live descriptors. -/
theorem shape_live (h : CallShape client call client' log) (hf : Fresh sockets client call)
    (hh : Held sockets (some client)) : sockets.Live log := by
  cases h with
  | use uses connected => exact uses.live (hh client rfl connected).1 (hh client rfl connected).2
  | lose uses connected => exact uses.live (hh client rfl connected).1 (hh client rfl connected).2
  | idle => trivial
  | noSocket call_eq connected => exact ⟨hf.notMem call_eq connected, trivial⟩
  | refused call_eq opts connected hfd tries_eq =>
    exact refused_live (hf.notMem call_eq connected) hfd opts tries_eq
  | opened call_eq opts connected hfd => exact opened_live (hf.notMem call_eq connected) hfd opts
  | closed connected => exact ⟨(hh client rfl connected).1, trivial⟩
  | destroyed =>
    cases hc : client.connected with
    | false => trivial
    | true => exact ⟨(hh client rfl hc).1, trivial⟩

theorem held_of_not_connected (h : client.connected = false) : Held sockets (some client) := by
  intro c hc hconn
  cases hc
  rw [h] at hconn
  cases hconn

/-- A client that comes out of a call connected holds a live descriptor. -/
theorem shape_held (h : CallShape client call client' log) (hh : Held sockets (some client)) :
    Held (sockets.effects log) client' := by
  cases h with
  | use uses => rw [uses.effects]; exact hh
  | lose => exact held_of_not_connected rfl
  | idle => exact hh
  | noSocket _ connected => exact held_of_not_connected connected
  | refused _ _ connected => exact held_of_not_connected connected
  | opened _ opts _ hfd =>
    rw [opened_effects hfd opts]
    intro c hc _
    cases hc
    exact ⟨List.mem_cons_self .., List.mem_cons_self ..⟩
  | closed => exact held_of_not_connected rfl
  | destroyed => intro c hc; cases hc

/-- A step is a call of one of the shapes. -/
theorem step_cases (h : step s call = some t) :
    ∃ client client' log, s.client = some client ∧ Fresh s.sockets client call ∧
      CallShape client call client' log ∧
      t = { client := client', sockets := s.sockets.effects log, log := s.log ++ log } := by
  unfold step at h
  cases hs : s.client with
  | none => simp [hs] at h
  | some client =>
    simp only [hs] at h
    split at h
    · rename_i hf
      cases h
      exact ⟨client, _, _, rfl, hf, call_shape client call, rfl⟩
    · cases h

theorem Inv.step (hi : Inv s) (h : step s call = some t) : Inv t := by
  obtain ⟨client, client', log, hs, hf, hshape, rfl⟩ := step_cases h
  have hh := hi.held
  rw [hs] at hh
  refine ⟨?_, ?_, shape_held hshape hh⟩
  · rw [effects_append, ← hi.sockets]
  · refine hi.live.append ?_
    rw [← hi.sockets]
    exact shape_live hshape hf hh

theorem created_disconnected {config : Option TcpConfig} {allocated : Bool}
    (h : (create config allocated).client = some client) : ¬ client.connected = true := by
  simp only [create, tcpClientCreate] at h
  split at h
  · cases h
    exact Bool.false_ne_true
  · cases h

theorem create_inv (config : Option TcpConfig) (allocated : Bool) : Inv (create config allocated) :=
  ⟨rfl, trivial, fun _ hc hconn => absurd hconn (created_disconnected hc)⟩

/-- In every session every system call is made on a descriptor that `socket` returned
and that is not closed yet, sends and receives on a connected one, and a connected
client's descriptor is open and connected. -/
theorem live_sockets (config : Option TcpConfig) (allocated : Bool) {calls : List TcpCall}
    {s : Session} (h : run Session.step (create config allocated) calls = some s) :
    initial.Live s.log ∧ s.sockets = initial.effects s.log ∧
      ∀ client, s.client = some client → client.connected = true →
        client.socketFd ∈ s.sockets.openFds ∧ client.socketFd ∈ s.sockets.connectedFds := by
  have hi : Inv s := invariant (fun _ _ _ hi hs => hi.step hs) (create_inv config allocated) h
  exact ⟨hi.live, hi.sockets, hi.held⟩

/-- A client that loses its connection, opens another one and is destroyed. -/
def reconnecting : List TcpCall :=
  [.connect { fd := 3, addressValid := true, accepted := true }, .receive 16 .closed,
    .connect { fd := 4, addressValid := true, accepted := true }, .send [1, 2] (.accepted 2),
    .destroy]

theorem live_sockets_reconnecting :
    ∃ s, run Session.step (create none true) reconnecting = some s ∧
      s.log.drop 15 = [.send 4 2 [1, 2], .close 4] ∧ initial.Live s.log := by
  have hrun : ∃ s, run Session.step (create none true) reconnecting = some s ∧
      s.log.drop 15 = [.send 4 2 [1, 2], .close 4] := ⟨_, rfl, rfl⟩
  obtain ⟨s, hs, hlog⟩ := hrun
  exact ⟨s, hs, hlog, (live_sockets none true hs).1⟩

/-! ## Leaks -/

/-- The client's own descriptor, if it is connected, is all that is open; and once the
client is gone, every descriptor it obtained was closed exactly once. -/
structure Tight (s : Session) : Prop where
  openFds : ∀ fd, fd ∈ s.sockets.openFds ↔
    ∃ client, s.client = some client ∧ client.connected = true ∧ client.socketFd = fd
  closed : s.client = none → ∀ fd, 0 ≤ fd → s.log.count (.socket fd) = s.log.count (.close fd)

/-- The call does not lose a connection. -/
def Unbroken (s : Session) (call : TcpCall) : Prop :=
  ∀ client, s.client = some client → client.connected = true → ¬ call.Breaks

/-- Without a client nothing is open only if everything was closed. -/
theorem Inv.tight (hi : Inv s) (h : ∀ fd, fd ∈ s.sockets.openFds ↔
    ∃ client, s.client = some client ∧ client.connected = true ∧ client.socketFd = fd) :
    Tight s := by
  refine ⟨h, ?_⟩
  intro hnone fd hfd
  have hno : fd ∉ (initial.effects s.log).openFds := by
    rw [← hi.sockets, h fd]
    rintro ⟨client, hc, _⟩
    rw [hnone] at hc
    cases hc
  have hempty : fd ∉ initial.openFds := List.not_mem_nil
  have hb := hi.live.balance hfd
  rwa [openCount, openCount, if_neg hempty, if_neg hno] at hb

theorem create_tight (config : Option TcpConfig) (allocated : Bool) :
    Tight (create config allocated) := by
  refine (create_inv config allocated).tight ?_
  intro fd
  refine iff_of_false List.not_mem_nil ?_
  rintro ⟨client, hc, hconn, _⟩
  exact created_disconnected hc hconn

/-- The descriptors that a call which loses no connection leaves open. -/
theorem shape_openFds (h : CallShape client call client' log) (hf : Fresh sockets client call)
    (hopen : ∀ fd, fd ∈ sockets.openFds ↔ client.connected = true ∧ client.socketFd = fd)
    (hsafe : client.connected = true → ¬ call.Breaks) (fd : Int) :
    fd ∈ (sockets.effects log).openFds ↔
      ∃ c, client' = some c ∧ c.connected = true ∧ c.socketFd = fd := by
  have hclose : client.connected = true →
      ∀ d, d ∉ (sockets.effects [.close client.socketFd]).openFds := by
    intro hc d hd
    simp only [effects, List.foldl_cons, List.foldl_nil, effect, List.mem_filter, hopen] at hd
    simp [hd.1.2] at hd
  cases h with
  | use uses connected => rw [uses.effects, hopen]; simp
  | lose _ connected breaks => exact absurd breaks (hsafe connected)
  | idle => rw [show sockets.effects [] = sockets from rfl, hopen]; simp
  | noSocket _ connected hfd =>
    have heff : ∀ d, sockets.effects [.socket d] = sockets.effect (.socket d) := fun _ => rfl
    rw [heff, effect, if_neg (by omega), hopen]
    simp [connected]
  | refused call_eq opts connected hfd tries_eq =>
    rw [refused_effects (hf.notMem call_eq connected) hfd opts tries_eq, hopen]
    simp [connected]
  | opened _ opts connected hfd =>
    rw [opened_effects hfd opts, List.mem_cons, hopen]
    constructor
    · rintro (rfl | ⟨hc, _⟩)
      · exact ⟨_, rfl, rfl, rfl⟩
      · rw [connected] at hc
        cases hc
    · rintro ⟨c, hc, _, rfl⟩
      cases hc
      exact .inl rfl
  | closed connected => simp [hclose connected]
  | destroyed =>
    cases hc : client.connected with
    | false => simp [effects, hopen, hc]
    | true => simpa using hclose hc fd

/-- From a tight state exactly the calls that lose no connection lead to tight states. -/
theorem tight_step_iff (hi : Inv s) (ht : Tight s) (call : TcpCall) :
    (∀ t, step s call = some t → Tight t) ↔ Unbroken s call := by
  constructor
  · intro h client hs hc hb
    have hfresh : Fresh s.sockets client call := by
      cases call <;> first | exact .inl hc | trivial
    have hstep : step s call = some
        { client := (call.apply client).1, sockets := s.sockets.effects (call.apply client).2
          log := s.log ++ (call.apply client).2 } := by
      simp only [step, hs, if_pos hfresh]
    have htight := (h _ hstep).openFds client.socketFd
    have hshape := call_shape client call
    generalize (call.apply client).1 = client', (call.apply client).2 = log at htight hshape
    -- the descriptor is still open, and the client has forgotten it
    cases hshape with
    | lose uses =>
      rw [uses.effects, ht.openFds, hs] at htight
      obtain ⟨c, hc', hconn, _⟩ := htight.mp ⟨client, rfl, hc, rfl⟩
      cases hc'
      cases hconn
    | use _ _ safe => exact safe hb
    | idle safe => exact safe ⟨hc, hb⟩
    | noSocket call_eq => rw [call_eq] at hb; exact hb
    | refused call_eq => rw [call_eq] at hb; exact hb
    | opened call_eq => rw [call_eq] at hb; exact hb
    | closed _ safe => exact safe hb
    | destroyed call_eq => rw [call_eq] at hb; exact hb
  · intro hu t h
    obtain ⟨client, client', log, hs, hf, hshape, rfl⟩ := step_cases h
    refine (hi.step h).tight ?_
    refine shape_openFds hshape hf ?_ (hu client hs)
    intro fd
    rw [ht.openFds, hs]
    simp

/-- The sessions that leak nothing at any time are those whose calls never lose a
connection. -/
theorem tight_iff (config : Option TcpConfig) (allocated : Bool) (calls : List TcpCall) :
    AllStates Session.step Tight (create config allocated) calls ↔
      AllSteps Session.step Unbroken (create config allocated) calls :=
  allStates_iff (fun _ _ _ hi _ hs => hi.step hs) (fun _ call hi ht => tight_step_iff hi ht call)
    calls (create_inv config allocated) (create_tight config allocated)

/-- The first descriptor of this session is never closed. -/
theorem reconnecting_leaks : ¬ AllStates Session.step Tight (create none true) reconnecting := by
  intro h
  have hrun : ∃ s, run Session.step (create none true) reconnecting = some s ∧
      s.sockets.openFds = [3] ∧ s.client = none := ⟨_, rfl, rfl, rfl⟩
  obtain ⟨s, hs, hopen, hclient⟩ := hrun
  have hthree := ((h.last hs).openFds 3).mp (by rw [hopen]; exact List.mem_singleton_self 3)
  obtain ⟨client, hc, _⟩ := hthree
  rw [hclient] at hc
  cases hc

end Session

end FastRing
