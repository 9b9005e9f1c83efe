import FastRing.SampleLoss

/-! # The byte streams of the connections

A receiver can cut the stream of a connection into blocks as long as it is a
sequence of whole block encodings, with at most one beginning of a block at its
very end. A failed `send` marks the client as disconnected, so that the next block
goes to a new connection. A timeout does not: when it comes in the middle of a
block, the rest of the block is never sent and the next block follows on the same
connection. In a run without such a timeout all streams are well formed. -/

namespace FastRing

variable {s t : System} {q q' : List AdcSample}

/-! ## Connections -/

/-- A connection: its descriptor and the bytes sent on it. -/
structure Connection where
  fd : Int
  bytes : List UInt8
  deriving DecidableEq, Repr

/-- The bytes go to the newest connection on that descriptor. -/
def appendTo (fd : Int) (bytes : List UInt8) : List Connection → List Connection
  | [] => []
  | c :: cs =>
    if c.fd = fd then { c with bytes := c.bytes ++ bytes } :: cs else c :: appendTo fd bytes cs

/-- What a system call does to the connections, newest first. -/
def record (cs : List Connection) : Syscall → List Connection
  | .connect fd true => { fd := fd, bytes := [] } :: cs
  | .send fd _ bytes => appendTo fd bytes cs
  | _ => cs

/-- The connections of a log, newest first. -/
def connections (log : List Syscall) : List Connection := log.foldl record []

theorem connections_append (log log' : List Syscall) :
    connections (log ++ log') = log'.foldl record (connections log) :=
  List.foldl_append

theorem record_quiet {log : List Syscall} (h : ∀ c ∈ log, c.quiet = true) (cs : List Connection) :
    log.foldl record cs = cs := by
  induction log with
  | nil => rfl
  | cons c log ih =>
    have hc := h c List.mem_cons_self
    have hrest := ih fun c' hc' => h c' (List.mem_cons_of_mem _ hc')
    rw [List.foldl_cons]
    cases c with
    | connect fd ok =>
      cases ok with
      | true => cases hc
      | false => exact hrest
    | send => cases hc
    | socket | setsockopt | recv | close => exact hrest

/-- Sends on the newest connection put their bytes there. -/
theorem record_sends {fd : Int} {log : List Syscall} (h : SendsOn fd log) (bytes : List UInt8)
    (cs : List Connection) :
    log.foldl record ({ fd := fd, bytes := bytes } :: cs) =
      { fd := fd, bytes := bytes ++ log.flatMap Syscall.payload } :: cs := by
  induction log generalizing bytes with
  | nil => simp
  | cons c log ih =>
    obtain ⟨len, new, rfl⟩ := h c List.mem_cons_self
    rw [List.foldl_cons]
    have := ih (fun c' hc' => h c' (List.mem_cons_of_mem _ hc')) (bytes ++ new)
    simp only [record, appendTo, if_true, this, List.flatMap_cons, Syscall.payload,
      List.append_assoc]

/-! ## Well-formed streams -/

/-- A block as the network worker fills it. -/
structure IsBlock (b : DataBlock) : Prop where
  magic : b.magic = dataBlockMagic
  version : b.version = dataBlockVersion
  sequence : b.sequence = 0
  count : b.sampleCount.toNat = b.samples.length
  pos : 1 ≤ b.samples.length
  le : b.samples.length ≤ 256

/-- A concatenation of complete block encodings. -/
def Whole (bytes : List UInt8) : Prop :=
  ∃ blocks : List DataBlock, (∀ b ∈ blocks, IsBlock b) ∧ bytes = blocks.flatMap DataBlock.bytes

/-- Complete block encodings, followed by at most one proper beginning of one. -/
def Framed (bytes : List UInt8) : Prop :=
  ∃ front rest, Whole front ∧ bytes = front ++ rest ∧
    (rest = [] ∨ ∃ b, IsBlock b ∧ rest <+: b.bytes ∧ rest ≠ b.bytes)

theorem whole_nil : Whole [] := ⟨[], nofun, rfl⟩

theorem Whole.append {bytes : List UInt8} (h : Whole bytes) {b : DataBlock} (hb : IsBlock b) :
    Whole (bytes ++ b.bytes) := by
  obtain ⟨blocks, hall, rfl⟩ := h
  refine ⟨blocks ++ [b], fun b' hb' => ?_, by simp⟩
  rcases List.mem_append.mp hb' with hb' | hb'
  · exact hall b' hb'
  · rw [List.mem_singleton.mp hb']
    exact hb

theorem Whole.framed {bytes : List UInt8} (h : Whole bytes) : Framed bytes :=
  ⟨bytes, [], h, (List.append_nil _).symm, .inl rfl⟩

theorem Whole.framed_take {bytes : List UInt8} (h : Whole bytes) {b : DataBlock} (hb : IsBlock b)
    {m : Nat} (hm : m < b.bytes.length) : Framed (bytes ++ b.bytes.take m) := by
  refine ⟨bytes, b.bytes.take m, h, rfl, .inr ⟨b, hb, List.take_prefix _ _, fun he => ?_⟩⟩
  have := congrArg List.length he
  rw [List.length_take] at this
  omega

/-- The connections of `cs` are all in `cs'`, and a stream that was not whole is the
same there: nothing follows a beginning of a block. -/
def Extends (cs cs' : List Connection) : Prop :=
  ∀ (i : Nat) (c : Connection), cs.reverse[i]? = some c →
    ∃ c' : Connection, cs'.reverse[i]? = some c' ∧ c'.fd = c.fd ∧
      (Whole c.bytes ∨ c'.bytes = c.bytes)

theorem Extends.refl (cs : List Connection) : Extends cs cs := fun _ c h => ⟨c, h, rfl, .inr rfl⟩

theorem Extends.trans {cs cs' cs'' : List Connection} (h : Extends cs cs') (h' : Extends cs' cs'') :
    Extends cs cs'' := by
  intro i c hc
  obtain ⟨c', hc', hfd, hw⟩ := h i c hc
  obtain ⟨c'', hc'', hfd', hw'⟩ := h' i c' hc'
  refine ⟨c'', hc'', hfd'.trans hfd, ?_⟩
  rcases hw with hw | he
  · exact .inl hw
  · rw [he] at hw'
    exact hw'

theorem Extends.open (c : Connection) (cs : List Connection) : Extends cs (c :: cs) := by
  intro i c' hc'
  have hi : i < cs.reverse.length := (List.getElem?_eq_some_iff.mp hc').1
  refine ⟨c', ?_, rfl, .inr rfl⟩
  rw [List.reverse_cons, List.getElem?_append_left hi]
  exact hc'

theorem Extends.send {fd : Int} {bytes : List UInt8} (h : Whole bytes) (bytes' : List UInt8)
    (cs : List Connection) :
    Extends ({ fd := fd, bytes := bytes } :: cs) ({ fd := fd, bytes := bytes' } :: cs) := by
  intro i c hc
  rw [List.reverse_cons] at hc ⊢
  rcases Nat.lt_or_ge i cs.reverse.length with hlt | hge
  · rw [List.getElem?_append_left hlt] at hc ⊢
    exact ⟨c, hc, rfl, .inr rfl⟩
  · rw [List.getElem?_append_right hge] at hc ⊢
    cases hi : i - cs.reverse.length with
    | zero =>
      rw [hi] at hc
      cases hc
      exact ⟨_, rfl, rfl, .inl h⟩
    | succ j =>
      rw [hi] at hc
      cases hc

/-! ## One iteration -/

/-- No timeout in the middle of a block: when the iteration sends a block and the OS
took some but not all of it, the next `send` does not time out. -/
def unstalled (s : System) : WorkerStep → Prop
  | .network env =>
    canSend s.tcpClient env = true → 0 < (ringBufferCount s.processToNetwork).toNat →
      (getBlockFromPool s.pool).1 = true → ∀ m, 0 < m →
        ¬ StopsAt (dataBlockSize + min 256 (ringBufferCount s.processToNetwork).toNat * adcSampleSize)
          m env.send .wouldBlock
  | _ => True

/-- All streams are well formed, and the one the client is about to send on is whole. -/
structure StreamsOk (s : System) : Prop where
  framed : ∀ c ∈ connections s.log, Framed c.bytes
  current : ∀ client, s.tcpClient = some client → client.connected = true →
    ∃ bytes cs, connections s.log = { fd := client.socketFd, bytes := bytes } :: cs ∧ Whole bytes

/-- The connection of an iteration that can send. -/
theorem Ready.stream {env : NetworkEnv} {client : TcpClient} {log : List Syscall}
    (h : Ready s env client log) (hs : StreamsOk s) :
    ∃ bytes cs, connections (s.log ++ log) = { fd := client.socketFd, bytes := bytes } :: cs ∧
      Whole bytes ∧ (∀ c ∈ cs, Framed c.bytes) ∧
      Extends (connections s.log) (connections (s.log ++ log)) := by
  have hf := hs.framed
  cases h with
  | already get conn =>
    obtain ⟨bytes, cs, he, hw⟩ := hs.current client get conn
    refine ⟨bytes, cs, by rw [List.append_nil]; exact he, hw, fun c hc => ?_, ?_⟩
    · rw [he] at hf
      exact hf c (List.mem_cons_of_mem _ hc)
    · rw [List.append_nil]; exact .refl _
  | opened get conn log quiet =>
    have he : connections (s.log ++ (log ++ [.connect env.connect.fd true])) =
        { fd := env.connect.fd, bytes := [] } :: connections s.log := by
      rw [connections_append, List.foldl_append, record_quiet quiet]
      rfl
    exact ⟨[], connections s.log, he, whole_nil, hf, by rw [he]; exact .open _ _⟩

/-- An iteration that sends nothing leaves its connection whole. -/
theorem Ready.streamsOk {env : NetworkEnv} {client : TcpClient} {log : List Syscall}
    (h : Ready s env client log) (hs : StreamsOk s) (hlog : t.log = s.log ++ log)
    (hc : t.tcpClient = some client) :
    StreamsOk t ∧ Extends (connections s.log) (connections t.log) := by
  obtain ⟨bytes, cs, he, hw, hf, hx⟩ := h.stream hs
  rw [← hlog] at he hx
  refine ⟨⟨?_, ?_⟩, hx⟩
  · intro c hc
    rw [he] at hc
    rcases List.mem_cons.mp hc with rfl | hc
    · exact hw.framed
    · exact hf c hc
  · intro client' hc' _
    rw [hc] at hc'
    cases hc'
    exact ⟨bytes, cs, he, hw⟩

theorem isBlock_fillBlock (clock : UInt64) (h : q ≠ []) :
    IsBlock (fillBlock clock (q.take 256) (UInt32.ofNat (min 256 q.length))) where
  magic := rfl
  version := rfl
  sequence := rfl
  count := (fillBlock_count clock q).symm
  pos := by
    have := List.length_pos_iff.mpr h
    simp only [fillBlock, List.length_take]
    omega
  le := by simp [fillBlock]

/-- An iteration of the network worker without a timeout in the middle of a block. -/
theorem networkThreadWorker_streams (hq : s.processToNetwork.Holds q) (hs : StreamsOk s)
    {env : NetworkEnv} (hok : unstalled s (.network env)) :
    StreamsOk (networkThreadWorker s env) ∧
      Extends (connections s.log) (connections (networkThreadWorker s env).log) := by
  have hcase := networkThreadWorker_cases hq env
  generalize networkThreadWorker s env = t at hcase
  cases hcase with
  | noClient none => exact ⟨hs, .refl _⟩
  | @refused none client get conn fd log quiet =>
    have he : connections (s.log ++ log) = connections s.log := by
      rw [connections_append, record_quiet quiet]
    refine ⟨⟨by simpa only [he] using hs.framed, ?_⟩, by simp only [he]; exact .refl _⟩
    rintro _ ⟨⟩ hconn
    rw [conn] at hconn
    cases hconn
  | empty can ready nil => exact ready.streamsOk hs rfl rfl
  | noBlock can ready ne missing => exact ready.streamsOk hs rfl rfl
  | @sent can client log ready ne present block hb r ends on =>
    obtain ⟨bytes, cs, he, hw, hf, hx⟩ := ready.stream hs
    have hblock : IsBlock block := hb ▸ isBlock_fillBlock env.clock ne
    have hlen : block.bytes.length = dataBlockSize + min 256 q.length * adcSampleSize := by
      rw [block.bytes_length, hb]; simp [fillBlock]
    have hnew : connections (s.log ++ log ++ r.log) =
        { fd := client.socketFd, bytes := bytes ++ r.log.flatMap Syscall.payload } :: cs := by
      rw [connections_append, he, record_sends on]
    have hext : Extends (connections s.log) (connections (s.log ++ log ++ r.log)) := by
      refine hx.trans ?_
      rw [he, hnew]
      exact .send hw _ _
    -- the stream the block went to is well formed, and whole while the client is connected
    have hstream : Framed (bytes ++ r.log.flatMap Syscall.payload) ∧
        (r.client.connected = true → r.client.socketFd = client.socketFd ∧
          Whole (bytes ++ r.log.flatMap Syscall.payload)) := by
      cases ends with
      | all takes err same sentBytes =>
        rw [sentBytes, same]
        exact ⟨(hw.append hblock).framed, fun _ => ⟨rfl, hw.append hblock⟩⟩
      | timeout m stops err same sentBytes =>
        have hm : m = 0 := by
          by_contra hm
          rw [hlen] at stops
          have := hok can (by rw [hq.count]; exact List.length_pos_iff.mpr ne) present m
            (Nat.pos_of_ne_zero hm)
          rw [hq.count] at this
          exact this stops
        rw [sentBytes, same, hm, List.take_zero, List.append_nil]
        exact ⟨hw.framed, fun _ => ⟨rfl, hw⟩⟩
      | broken m out out_eq stops err client_eq sentBytes =>
        rw [sentBytes, client_eq]
        refine ⟨hw.framed_take hblock stops.1, fun hconn => ?_⟩
        cases hconn
    refine ⟨⟨?_, ?_⟩, hext⟩
    · intro c hc
      rw [hnew] at hc
      rcases List.mem_cons.mp hc with rfl | hc
      · exact hstream.1
      · exact hf c hc
    · rintro _ ⟨⟩ hconn
      obtain ⟨hfd, hwhole⟩ := hstream.2 hconn
      exact ⟨_, cs, by rw [hfd]; exact hnew, hwhole⟩

/-- The samples and the process worker use no connection. -/
theorem step_streams {l : WorkerStep} (hf : s.Filled) (hs : StreamsOk s) (hok : unstalled s l)
    (h : s.step l = some t) :
    StreamsOk t ∧ Extends (connections s.log) (connections t.log) := by
  obtain ⟨q, q', hq, hq'⟩ := hf
  cases l with
  | sample x =>
    cases h
    rw [adcSampleCallback_eq hq]
    split
    · exact ⟨⟨hs.framed, hs.current⟩, .refl _⟩
    · exact ⟨⟨hs.framed, hs.current⟩, .refl _⟩
  | process =>
    cases h
    rw [processThreadWorker_eq hq hq' rfl rfl]
    exact ⟨⟨hs.framed, hs.current⟩, .refl _⟩
  | network env =>
    cases h
    exact networkThreadWorker_streams hq' hs hok

/-! ## Runs -/

theorem init_streamsOk (c2p p2n : RingBuffer AdcSample) (allocated : Nat → Bool) :
    StreamsOk (System.init c2p p2n allocated) := by
  refine ⟨fun c hc => ?_, fun client hc => ?_⟩
  · cases hc
  · cases hc

/-- In a run without a timeout in the middle of a block, the stream of every
connection is well formed in every state `s`, and once it ends in the beginning of a
block it stays as it is in every later state `t`. -/
theorem connections_framed (c2p p2n : RingBuffer AdcSample) (h : c2p.Fresh) (h' : p2n.Fresh)
    (allocated : Nat → Bool) (ls ls' : List WorkerStep)
    (hok : Runs.AllSteps System.step unstalled (System.init c2p p2n allocated) (ls ++ ls'))
    (s t : System) (hs : Runs.run System.step (System.init c2p p2n allocated) ls = some s)
    (ht : Runs.run System.step s ls' = some t) :
    (∀ c ∈ connections s.log, Framed c.bytes) ∧ Extends (connections s.log) (connections t.log) := by
  have hinv : s.Filled ∧ StreamsOk s :=
    Runs.invariant_of_steps (I := fun s => s.Filled ∧ StreamsOk s)
      (fun _ _ _ hi ho hstep => ⟨step_filled hi.1 hstep, (step_streams hi.1 hi.2 ho hstep).1⟩)
      ⟨⟨[], [], h.holds, h'.holds⟩, init_streamsOk _ _ _⟩ hok.append_left hs
  have hfin : t.Filled ∧ StreamsOk t ∧ Extends (connections s.log) (connections t.log) := by
    refine Runs.invariant_of_steps
      (I := fun u => u.Filled ∧ StreamsOk u ∧ Extends (connections s.log) (connections u.log))
      ?_ ⟨hinv.1, hinv.2, .refl _⟩ (hok.append_right hs) ht
    intro u l v hi ho hstep
    obtain ⟨hok', hx⟩ := step_streams hi.1 hi.2.1 ho hstep
    exact ⟨step_filled hi.1 hstep, hok', hi.2.2.trans hx⟩
  exact ⟨hinv.2.framed, hfin.2.2⟩

/-- A block goes out in two parts. -/
def twoParts : Nat → SendOutcome := fun k => if k = 0 then .accepted 1 else .accepted 100

theorem connections_framed_two_parts : ∃ s t : System,
    Runs.run System.step (System.init pipelineRing pipelineRing fun _ => true)
      (oneSample twoParts) = some s ∧
    Runs.run System.step s (oneSample fun _ => .accepted 100) = some t ∧
    (∀ c ∈ connections s.log, Framed c.bytes) ∧
      Extends (connections s.log) (connections t.log) := by
  refine ⟨_, _, rfl, rfl, ?_⟩
  refine connections_framed pipelineRing pipelineRing pipelineRing_fresh pipelineRing_fresh
    (fun _ => true) (oneSample twoParts) (oneSample fun _ => .accepted 100) ?_ _ _ rfl rfl
  have hflow : ∀ k, twoParts k ≠ .wouldBlock := by
    intro k
    unfold twoParts
    split <;> exact nofun
  -- neither of the two iterations of the network worker sees a timeout at all
  refine ⟨trivial, fun _ _ => ⟨trivial, fun _ _ => ⟨?_, fun _ _ =>
    ⟨trivial, fun _ _ => ⟨trivial, fun _ _ => ⟨?_, fun _ _ => trivial⟩⟩⟩⟩⟩⟩
  · rintro _ _ _ m _ ⟨_, k, _, _, hk⟩
    exact hflow k hk
  · rintro _ _ _ m _ ⟨_, k, _, _, hk⟩
    cases hk

/-- The first byte of a block goes out, and then `send` times out. -/
def cutShort : Nat → SendOutcome := fun k => if k = 0 then .accepted 1 else .wouldBlock

/-- Every block starts with the magic word. -/
theorem IsBlock.bytes_eq {b : DataBlock} (h : IsBlock b) : ∃ tail, b.bytes = 0x7A :: 0xDA :: tail := by
  refine ⟨b.bytes.drop 2, ?_⟩
  rw [DataBlock.bytes, h.magic]
  rfl

/-- So does every well-formed stream. -/
theorem Framed.second_byte {x y : UInt8} {bytes : List UInt8} (h : Framed (x :: y :: bytes)) :
    y = 0xDA := by
  obtain ⟨front, rest, ⟨blocks, hall, rfl⟩, he, hrest⟩ := h
  cases blocks with
  | nil =>
    rw [List.flatMap_nil, List.nil_append] at he
    subst he
    rcases hrest with hnil | ⟨b, hb, ⟨more, hm⟩, _⟩
    · cases hnil
    · obtain ⟨tail, ht⟩ := hb.bytes_eq
      rw [ht] at hm
      cases hm
      rfl
  | cons b blocks =>
    obtain ⟨tail, ht⟩ := (hall b List.mem_cons_self).bytes_eq
    rw [List.flatMap_cons, ht] at he
    cases he
    rfl

/-- A timeout behind the first byte of a block: the next block follows that byte on
the same connection. -/
theorem stream_broken : ∃ s : System,
    Runs.run System.step (System.init pipelineRing pipelineRing fun _ => true)
      (oneSample cutShort ++ oneSample fun _ => .accepted 100) = some s ∧
    ∃ c ∈ connections s.log, ¬ Framed c.bytes := by
  refine ⟨_, rfl, _, List.mem_cons_self, fun h => ?_⟩
  exact absurd h.second_byte (by decide)

end FastRing
