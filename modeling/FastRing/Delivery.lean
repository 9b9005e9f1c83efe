import Mathlib.Data.List.Forall2
import FastRing.Segmentation

/-! # From the callback to the server

What the worker counts as sent is what arrives. As long as no timeout stops a block in the middle,
the stream of each connection is the blocks that were acknowledged to the worker on it, with at
most the beginning of one more, and the receiver gets exactly these blocks out of it, unless a
`recv` ends inside one. Over all connections, their samples are in the order in which they were
offered to the callback. -/

namespace FastRing

/-- The blocks for which `tcp_client_send_data_block` returned `ADC_OK`. -/
def acknowledged (handed : List (DataBlock × AdcError)) : List DataBlock :=
  handed.filterMap fun p => if p.2 = .ok then some p.1 else none

theorem acknowledged_append (xs ys : List (DataBlock × AdcError)) :
    acknowledged (xs ++ ys) = acknowledged xs ++ acknowledged ys := List.filterMap_append

/-- Nothing, or the beginning of a block. -/
def Begun (rest : List UInt8) : Prop :=
  rest = [] ∨ ∃ b, IsBlock b ∧ rest <+: b.bytes ∧ rest ≠ b.bytes

/-- The stream of the connection is these blocks, and perhaps the beginning of one more. -/
structure Carries (c : Connection) (blocks : List DataBlock) : Prop where
  isBlock : ∀ b ∈ blocks, IsBlock b
  stream : ∃ rest, c.bytes = encodeAll blocks ++ rest ∧ Begun rest

theorem Carries.whole {fd : Int} {blocks : List DataBlock} (h : ∀ b ∈ blocks, IsBlock b) :
    Carries { fd := fd, bytes := encodeAll blocks } blocks :=
  ⟨h, [], (List.append_nil _).symm, .inl rfl⟩

/-! ## Sending -/

variable {s t : System} {q : List AdcSample}

/-- `ds` are the blocks of the connections, newest first: the acknowledged ones, and on the
connection the client is about to send on nothing else. -/
structure Conveys (s : System) (ds : List (List DataBlock)) : Prop where
  carries : List.Forall₂ Carries (connections s.log) ds
  acked : ds.reverse.flatten = acknowledged s.handed
  current : ∀ client, s.tcpClient = some client → client.connected = true →
    ∃ blocks cs ds', connections s.log = { fd := client.socketFd, bytes := encodeAll blocks } :: cs ∧
      ds = blocks :: ds'

/-- The connection of an iteration that can send, with its blocks. -/
theorem Ready.conveys {env : NetworkEnv} {client : TcpClient} {log : List Syscall}
    (h : Ready s env client log) {ds : List (List DataBlock)} (hd : Conveys s ds) :
    ∃ blocks cs ds', (∀ b ∈ blocks, IsBlock b) ∧
      connections (s.log ++ log) = { fd := client.socketFd, bytes := encodeAll blocks } :: cs ∧
      List.Forall₂ Carries cs ds' ∧
      (blocks :: ds').reverse.flatten = acknowledged s.handed := by
  cases h with
  | already get conn =>
    obtain ⟨blocks, cs, ds', he, rfl⟩ := hd.current client get conn
    have hall := hd.carries
    rw [he] at hall
    cases hall with
    | cons hc hrest =>
      exact ⟨blocks, cs, ds', hc.isBlock, by rw [List.append_nil]; exact he, hrest, hd.acked⟩
  | opened get conn log quiet =>
    refine ⟨[], connections s.log, ds, nofun, ?_, hd.carries, ?_⟩
    · rw [connections_append, List.foldl_append, record_quiet quiet]
      rfl
    · rw [List.reverse_cons, List.flatten_append, hd.acked]
      simp

/-- An iteration that sends nothing. -/
theorem Ready.conveys_same {env : NetworkEnv} {client : TcpClient} {log : List Syscall}
    (h : Ready s env client log) {ds : List (List DataBlock)} (hd : Conveys s ds)
    (hlog : t.log = s.log ++ log) (hc : t.tcpClient = some client) (hh : t.handed = s.handed) :
    ∃ ds', Conveys t ds' := by
  obtain ⟨blocks, cs, ds', hb, he, hrest, hack⟩ := h.conveys hd
  rw [← hlog] at he
  refine ⟨blocks :: ds', ?_, by rw [hack, hh], ?_⟩
  · rw [he]
    exact .cons (.whole hb) hrest
  · intro client' hc' _
    cases hc.symm.trans hc'
    exact ⟨blocks, cs, ds', he, rfl⟩

/-- An iteration of the network worker without a timeout in the middle of a block. -/
theorem networkThreadWorker_conveys (hq : s.processToNetwork.Holds q) {ds : List (List DataBlock)}
    (hd : Conveys s ds) {env : NetworkEnv} (hok : unstalled s (.network env)) :
    ∃ ds', Conveys (networkThreadWorker s env) ds' := by
  have hcase := networkThreadWorker_cases hq env
  generalize networkThreadWorker s env = t at hcase
  cases hcase with
  | noClient none => exact ⟨ds, hd⟩
  | @refused none client get conn fd log quiet =>
    have he : connections (s.log ++ log) = connections s.log := by
      rw [connections_append, record_quiet quiet]
    refine ⟨ds, by simpa only [he] using hd.carries, hd.acked, ?_⟩
    rintro _ ⟨⟩ hconn
    rw [conn] at hconn
    cases hconn
  | empty can ready nil => exact ready.conveys_same hd rfl rfl rfl
  | noBlock can ready ne missing => exact ready.conveys_same hd rfl rfl rfl
  | @sent can client log ready ne present block hb r ends on =>
    obtain ⟨blocks, cs, ds', hblocks, he, hrest, hack⟩ := ready.conveys hd
    have hblock : IsBlock block := hb ▸ isBlock_fillBlock env.clock ne
    have hlen : block.bytes.length = dataBlockSize + min 256 q.length * adcSampleSize := by
      rw [block.bytes_length, hb]; simp [fillBlock]
    have hnew : connections (s.log ++ log ++ r.log) =
        { fd := client.socketFd
          bytes := encodeAll blocks ++ r.log.flatMap Syscall.payload } :: cs := by
      rw [connections_append, he, record_sends on]
    rw [List.reverse_cons, List.flatten_append, List.flatten_singleton] at hack
    have hskip : r.err ≠ .ok → acknowledged (s.handed ++ [(block, r.err)]) =
        (blocks :: ds').reverse.flatten := by
      intro hne
      rw [acknowledged_append, List.reverse_cons, List.flatten_append, List.flatten_singleton, hack]
      simp [acknowledged, hne]
    cases ends with
    | all takes err same sentBytes =>
      -- one more block on this connection
      have hbytes : encodeAll blocks ++ r.log.flatMap Syscall.payload =
          encodeAll (blocks ++ [block]) := by
        rw [sentBytes, encodeAll_append]
        simp [encodeAll]
      rw [hbytes] at hnew
      have hall : ∀ b ∈ blocks ++ [block], IsBlock b := by
        intro b hmem
        rcases List.mem_append.mp hmem with hmem | hmem
        · exact hblocks b hmem
        · rw [List.mem_singleton.mp hmem]
          exact hblock
      refine ⟨(blocks ++ [block]) :: ds', ?_, ?_, ?_⟩
      · rw [hnew]
        exact .cons (.whole hall) hrest
      · rw [acknowledged_append, ← hack, List.reverse_cons, List.flatten_append,
          List.flatten_singleton, List.append_assoc]
        simp [acknowledged, err]
      · rintro _ ⟨⟩ _
        rw [same]
        exact ⟨_, cs, ds', hnew, rfl⟩
    | timeout m stops err same sentBytes =>
      have hm : m = 0 := by
        by_contra hm
        rw [hlen] at stops
        have := hok can (by rw [hq.count]; exact List.length_pos_iff.mpr ne) present m
          (Nat.pos_of_ne_zero hm)
        rw [hq.count] at this
        exact this stops
      rw [sentBytes, hm, List.take_zero, List.append_nil] at hnew
      refine ⟨blocks :: ds', ?_, (hskip (by rw [err]; rintro ⟨⟩)).symm, ?_⟩
      · rw [hnew]
        exact .cons (.whole hblocks) hrest
      · rintro _ ⟨⟩ _
        rw [same]
        exact ⟨_, cs, ds', hnew, rfl⟩
    | broken m out out_eq stops err client_eq sentBytes =>
      refine ⟨blocks :: ds', ?_, (hskip (by rw [err]; rintro ⟨⟩)).symm, ?_⟩
      · rw [hnew, sentBytes]
        refine .cons ⟨hblocks, _, rfl, .inr ⟨block, hblock, List.take_prefix _ _, fun heq => ?_⟩⟩ hrest
        have hless := stops.1
        have hcut := congrArg List.length heq
        rw [List.length_take] at hcut
        omega
      · rintro _ ⟨⟩ hconn
        rw [client_eq] at hconn
        cases hconn

theorem step_conveys {l : WorkerStep} (hf : s.Filled) {ds : List (List DataBlock)}
    (hd : Conveys s ds) (hok : unstalled s l) (h : s.step l = some t) : ∃ ds', Conveys t ds' := by
  obtain ⟨q, q', hq, hq'⟩ := hf
  cases l with
  | sample x =>
    cases h
    rw [adcSampleCallback_eq hq]
    split <;> exact ⟨ds, hd.carries, hd.acked, hd.current⟩
  | process =>
    cases h
    rw [processThreadWorker_eq hq hq' rfl rfl]
    exact ⟨ds, hd.carries, hd.acked, hd.current⟩
  | network env =>
    cases h
    exact networkThreadWorker_conveys hq' hd hok

/-! ## The order of the samples -/

/-- The samples offered to the callback in a run. -/
def offeredSamples : List WorkerStep → List AdcSample :=
  List.filterMap fun l => match l with
    | .sample x => some x
    | _ => none

/-- The samples handed over and those in the rings, oldest first, are in the order of `xs`. -/
def Ordered (xs : List AdcSample) (s : System) : Prop :=
  ∃ q q', s.captureToProcess.Holds q ∧ s.processToNetwork.Holds q' ∧
    (s.handed.flatMap (fun p => p.1.samples) ++ q' ++ q).Sublist xs

/-- An iteration of the network worker hands over the oldest samples, or loses them. -/
theorem networkThreadWorker_ordered {xs : List AdcSample} (h : Ordered xs s) (env : NetworkEnv) :
    Ordered xs (networkThreadWorker s env) := by
  obtain ⟨q, q', hq, hq', hsub⟩ := h
  have hcase := networkThreadWorker_cases hq' env
  generalize networkThreadWorker s env = t at hcase
  cases hcase with
  | noClient | refused | empty => exact ⟨q, q', hq, hq', hsub⟩
  | noBlock =>
    refine ⟨q, _, hq, hq'.release (Nat.min_le_right _ _), .trans ?_ hsub⟩
    exact .append_right (.append_left (List.drop_sublist _ _) _) _
  | @sent can client log ready ne present block hb r ends on =>
    refine ⟨q, _, hq, hq'.release (Nat.min_le_right _ _), ?_⟩
    have hsplit : block.samples ++ q'.drop (min 256 q'.length) = q' := by
      rw [hb, fillBlock, ← List.drop_eq_drop_min, List.take_append_drop]
    simp only [List.flatMap_append, List.flatMap_singleton]
    rw [List.append_assoc (s.handed.flatMap _), hsplit]
    exact hsub

theorem step_ordered {xs : List AdcSample} {l : WorkerStep} (h : Ordered xs s)
    (hs : s.step l = some t) : Ordered (xs ++ offeredSamples [l]) t := by
  cases l with
  | sample x =>
    obtain ⟨q, q', hq, hq', hsub⟩ := h
    have hroom := hq.room
    cases hs
    rw [adcSampleCallback_eq hq]
    split
    · refine ⟨_, q', hq.accept [x] 0 (by simp; omega), hq', ?_⟩
      rw [← List.append_assoc]
      exact hsub.append (.refl _)
    · refine ⟨_, q', hq.accept [] 1 (by simpa using hroom), hq', ?_⟩
      rw [List.append_nil]
      exact hsub.trans (List.sublist_append_left _ _)
  | process =>
    obtain ⟨q, q', hq, hq', hsub⟩ := h
    have hroom := hq'.room
    cases hs
    rw [processThreadWorker_eq hq hq' rfl rfl]
    refine ⟨_, _, hq.release (Nat.min_le_right _ _), hq'.accept _ _ ?_, ?_⟩
    · rw [List.length_take]
      omega
    -- of the samples popped, the second ring takes the first ones
    have hmoved : ∀ j k, j ≤ k → (q.take j ++ q.drop k).Sublist q := by
      intro j k hjk
      have htake : (q.take j).Sublist (q.take k) := (List.take_prefix_take_left hjk).sublist
      have := htake.append (.refl (q.drop k))
      rwa [List.take_append_drop] at this
    rw [show offeredSamples [WorkerStep.process] = [] from rfl, List.append_nil, ← List.append_assoc,
      List.append_assoc]
    refine .trans ?_ hsub
    exact .append_left (hmoved _ _ (Nat.min_le_left _ _)) _
  | network env =>
    cases hs
    rw [show offeredSamples [WorkerStep.network env] = [] from rfl, List.append_nil]
    exact networkThreadWorker_ordered h env

theorem run_ordered (xs : List AdcSample) {ls : List WorkerStep} (h : Ordered xs s)
    (hr : Runs.run System.step s ls = some t) : Ordered (xs ++ offeredSamples ls) t := by
  induction ls generalizing s xs with
  | nil =>
    cases hr
    rw [show offeredSamples [] = [] from rfl, List.append_nil]
    exact h
  | cons l ls ih =>
    obtain ⟨u, hu, hrest⟩ := Runs.run_cons hr
    have := ih _ (step_ordered h hu) hrest
    rwa [List.append_assoc, offeredSamples, ← List.filterMap_append] at this

theorem acknowledged_sublist (handed : List (DataBlock × AdcError)) :
    ((acknowledged handed).flatMap DataBlock.samples).Sublist
      (handed.flatMap fun p => p.1.samples) := by
  induction handed with
  | nil => exact .refl _
  | cons p handed ih =>
    rw [acknowledged, List.filterMap_cons]
    by_cases hok : p.2 = .ok
    · simp only [hok, if_true, List.flatMap_cons]
      exact .append_left ih _
    · simp only [hok, if_false, List.flatMap_cons]
      exact ih.trans (List.sublist_append_right _ _)

/-! ## Receiving -/

open LittleEndian in
/-- At the beginning of a block that is not complete, the parse loop stops. -/
theorem Parse.of_begun {buffer : List UInt8} {n o : Nat} {rest tail : List UInt8} (hr : Begun rest)
    (h : buffer.drop o = rest ++ tail) (hn : n = o + rest.length) : Parse buffer n o [] o := by
  by_cases hshort : rest.length < dataBlockSize
  · exact .finished (by omega)
  rcases hr with rfl | ⟨b, hb, hbegins, hne⟩
  · exact absurd (show ([] : List UInt8).length < dataBlockSize by decide) hshort
  have hlt : rest.length < b.bytes.length := by
    refine Nat.lt_of_le_of_ne hbegins.length_le fun heq => hne (hbegins.eq_of_length heq)
  -- the header is there
  have hheader : ∃ part, rest = leBytes 4 b.magic.toNat ++ (leBytes 4 b.version.toNat ++
      (leBytes 4 b.sequence.toNat ++ (leBytes 4 b.sampleCount.toNat ++ part))) := by
    have hbytes : b.bytes = (leBytes 4 b.magic.toNat ++ (leBytes 4 b.version.toNat ++
        (leBytes 4 b.sequence.toNat ++ leBytes 4 b.sampleCount.toNat))) ++
        (leBytes 8 b.timestamp.toNat ++ b.samples.flatMap AdcSample.bytes) := by
      simp only [DataBlock.bytes, List.append_assoc]
    rw [hbytes] at hbegins
    have hlen : dataBlockSize = 24 := rfl
    obtain ⟨part, hpart⟩ := List.prefix_of_prefix_length_le (List.prefix_append _ _) hbegins
      (by simp only [List.length_append, leBytes_length]; omega)
    exact ⟨part, by rw [← hpart]; simp only [List.append_assoc]⟩
  obtain ⟨part, rfl⟩ := hheader
  simp only [List.append_assoc] at h
  obtain ⟨h₁, h⟩ := read_front h
  obtain ⟨_, h⟩ := read_front h
  obtain ⟨_, h⟩ := read_front h
  obtain ⟨h₄, _⟩ := read_front h
  have hmagic : (readBlock buffer o).magic = dataBlockMagic := by
    rw [readBlock, h₁, ofNat_field32, hb.magic]
  have hcount : (readBlock buffer o).sampleCount = b.sampleCount := by
    rw [readBlock]
    simp only [h₄, ofNat_field32]
  refine .incomplete (by omega) hmagic ?_
  rw [announced, hcount, hb.count, ← b.bytes_length]
  omega

/-- Whole blocks, and the beginning of one more, in one `recv`. -/
theorem parse_begun {bytes : List UInt8} (blocks : List DataBlock) (rest : List UInt8)
    (hb : ∀ b ∈ blocks, IsBlock b) (hr : Begun rest) (h : bytes = encodeAll blocks ++ rest)
    (hl : bytes.length ≤ bufferSize) (old : List UInt8) :
    ∃ e, parse (bytes ++ old) bytes.length = some (blocks, e) := by
  have hn : bytes.length < 2 ^ 32 := Nat.lt_of_le_of_lt hl (by decide)
  obtain ⟨os, e, hp, hparse⟩ := parse_spec (bytes ++ old) hn
  suffices hblocks : ∃ os', Parse (bytes ++ old) bytes.length 0 os' (encodeAll blocks).length ∧
      os'.map (readBlock (bytes ++ old)) = blocks by
    obtain ⟨os', hp', hos⟩ := hblocks
    obtain ⟨rfl, _⟩ := hp.unique hp'
    exact ⟨e, by rw [hparse, hos]⟩
  suffices hfrom : ∀ (front : List UInt8) (blocks : List DataBlock), (∀ b ∈ blocks, IsBlock b) →
      bytes = front ++ (encodeAll blocks ++ rest) →
      ∃ os', Parse (bytes ++ old) bytes.length front.length os' (front ++ encodeAll blocks).length ∧
        os'.map (readBlock (bytes ++ old)) = blocks from hfrom [] blocks hb h
  intro front blocks hb h
  induction blocks generalizing front with
  | nil =>
    refine ⟨[], ?_, rfl⟩
    have hdrop : (bytes ++ old).drop front.length = rest ++ old := by
      rw [h, List.append_assoc, List.drop_left]
      rfl
    have hlen : bytes.length = front.length + rest.length := by
      rw [h, List.length_append]
      rfl
    rw [show encodeAll [] = [] from rfl, List.append_nil]
    exact .of_begun hr hdrop hlen
  | cons b blocks ih =>
    have hblock := hb b List.mem_cons_self
    rw [encodeAll_cons] at h ⊢
    obtain ⟨os', hp', hos⟩ := ih (front ++ b.bytes) (fun b' hb' => hb b' (List.mem_cons_of_mem _ hb'))
      (by rw [h]; simp only [List.append_assoc])
    have hread : readBlock (bytes ++ old) front.length = b := by
      have hfront : (bytes ++ old).drop front.length = b.bytes ++ (encodeAll blocks ++ rest ++ old) := by
        rw [h]
        simp only [List.append_assoc, List.drop_left]
      exact readBlock_eq hblock.count hfront
    have hsize : announced (bytes ++ old) front.length = b.bytes.length := by
      rw [announced, hread, b.bytes_length, hblock.count]
    rw [List.length_append, ← hsize] at hp'
    refine ⟨front.length :: os', .block (by rw [hread]; exact hblock.magic) ?_ ?_, ?_⟩
    · rw [hsize, h]
      simp only [List.length_append]
      omega
    · rwa [List.append_assoc] at hp'
    · rw [List.map_cons, hread, hos]

/-- Every `recv` ends at the end of a block, or at the end of the stream. -/
def Unbroken (blocks : List DataBlock) (rest : List UInt8) (chunks : List (List UInt8)) : Prop :=
  (blocks = [] ∧ rest = [] ∧ chunks = []) ∨
    ∃ (groups : List (List DataBlock)) (last : List DataBlock), blocks = groups.flatten ++ last ∧
      chunks = groups.map encodeAll ++ [encodeAll last ++ rest]

theorem Server.receiveLoop_unbroken {groups : List (List DataBlock)} {last : List DataBlock}
    {rest : List UInt8} (hb : ∀ b ∈ groups.flatten ++ last, IsBlock b) (hr : Begun rest) (s : Server)
    (hl : ∀ c ∈ groups.map encodeAll ++ [encodeAll last ++ rest], c.length ≤ bufferSize) :
    ∃ t, s.receiveLoop ((groups.map encodeAll ++ [encodeAll last ++ rest]).map .data) = some t ∧
      t.recognised = s.recognised ++ (groups.flatten ++ last) := by
  induction groups generalizing s with
  | nil =>
    obtain ⟨e, he⟩ := parse_begun last rest hb hr rfl (hl _ (by simp))
      (s.buffer.drop (encodeAll last ++ rest).length)
    refine ⟨{ buffer := encodeAll last ++ rest ++ s.buffer.drop (encodeAll last ++ rest).length
              totalBytes := s.totalBytes + UInt64.ofNat (encodeAll last ++ rest).length
              totalBlocks := s.totalBlocks + UInt64.ofNat last.length
              recognised := s.recognised ++ last }, ?_, rfl⟩
    rw [List.map_nil, List.nil_append, List.map_singleton, Server.receiveLoop, Server.receive, he]
    rfl
  | cons g groups ih =>
    rw [List.flatten_cons, List.append_assoc] at hb ⊢
    obtain ⟨e, he⟩ := parse_begun g []
      (fun b hmem => hb b (List.mem_append_left _ hmem)) (.inl rfl) (List.append_nil _).symm
      (hl _ (by simp)) (s.buffer.drop (encodeAll g).length)
    obtain ⟨t, ht, hrec⟩ := ih (fun b hmem => hb b (List.mem_append_right _ hmem))
      { buffer := encodeAll g ++ s.buffer.drop (encodeAll g).length
        totalBytes := s.totalBytes + UInt64.ofNat (encodeAll g).length
        totalBlocks := s.totalBlocks + UInt64.ofNat g.length
        recognised := s.recognised ++ g }
      (fun c hc => hl c (by rw [List.map_cons]; exact List.mem_cons_of_mem _ hc))
    refine ⟨t, ?_, by rw [hrec]; simp only [List.append_assoc]⟩
    rw [List.map_cons, List.cons_append, List.map_cons, Server.receiveLoop, Server.receive, he]
    exact ht

/-- Whatever the connection carries arrives, if no `recv` ends inside a block. -/
theorem Carries.recognised {c : Connection} {blocks : List DataBlock} (h : Carries c blocks) :
    ∃ rest, c.bytes = encodeAll blocks ++ rest ∧ Begun rest ∧
      ∀ memory chunks, Cutting c.bytes chunks → Unbroken blocks rest chunks →
        FastRing.recognised memory chunks = some blocks := by
  obtain ⟨rest, hbytes, hr⟩ := h.stream
  refine ⟨rest, hbytes, hr, ?_⟩
  rintro memory _ hc (⟨rfl, _, rfl⟩ | ⟨groups, last, rfl, rfl⟩)
  · rfl
  obtain ⟨t, ht, hrec⟩ := Server.receiveLoop_unbroken h.isBlock hr (Server.init memory)
    fun c hmem => (hc.size c hmem).2
  rw [FastRing.recognised, ht, Option.map_some, hrec]
  rfl

/-! ## End to end -/

/-- In a run without a timeout in the middle of a block, the acknowledged blocks are those that the
connections carry, oldest connection first, and that a server gets out of a connection when no
`recv` ends inside a block; their samples come in the order in which they were offered. -/
theorem acknowledged_delivered (c2p p2n : RingBuffer AdcSample) (h : c2p.Fresh) (h' : p2n.Fresh)
    (allocated : Nat → Bool) (ls : List WorkerStep)
    (hok : Runs.AllSteps System.step unstalled (System.init c2p p2n allocated) ls)
    (s : System) (hs : Runs.run System.step (System.init c2p p2n allocated) ls = some s) :
    ((acknowledged s.handed).flatMap DataBlock.samples).Sublist (offeredSamples ls) ∧
      ∃ ds : List (List DataBlock), acknowledged s.handed = ds.flatten ∧
        List.Forall₂ (fun c blocks => ∃ rest, c.bytes = encodeAll blocks ++ rest ∧ Begun rest ∧
          ∀ memory chunks, Cutting c.bytes chunks → Unbroken blocks rest chunks →
            recognised memory chunks = some blocks) (connections s.log).reverse ds := by
  have hinv : s.Filled ∧ ∃ ds, Conveys s ds := by
    refine Runs.invariant_of_steps (I := fun s => s.Filled ∧ ∃ ds, Conveys s ds) ?_ ?_ hok hs
    · rintro u l v ⟨hf, ds, hd⟩ ho hstep
      exact ⟨step_filled hf hstep, step_conveys hf hd ho hstep⟩
    · exact ⟨⟨[], [], h.holds, h'.holds⟩, [], .nil, rfl, nofun⟩
  obtain ⟨_, ds, hd⟩ := hinv
  obtain ⟨q, q', _, _, hsub⟩ := run_ordered [] ⟨[], [], h.holds, h'.holds, .refl _⟩ hs
  rw [List.nil_append, List.append_assoc] at hsub
  refine ⟨(acknowledged_sublist _).trans ((List.sublist_append_left _ _).trans hsub), ds.reverse,
    hd.acked.symm, ?_⟩
  exact (List.forall₂_reverse_iff.mpr hd.carries).imp fun _ _ hc => hc.recognised

/-- Without any timeout there is none in the middle of a block. -/
theorem unstalled_of_flowing {env : NetworkEnv} (h : ∀ k, env.send k ≠ .wouldBlock) (s : System) :
    unstalled s (.network env) := by
  rintro _ _ _ m _ ⟨_, k, _, _, hk⟩
  exact h k hk

/-- Two samples, each in a block of its own. -/
theorem acknowledged_delivered_two : ∃ s : System,
    Runs.run System.step (System.init pipelineRing pipelineRing fun _ => true)
      (oneSample twoParts ++ oneSample fun _ => .accepted 100) = some s ∧
    (acknowledged s.handed).length = 2 ∧
    ((acknowledged s.handed).flatMap DataBlock.samples).Sublist
      (offeredSamples (oneSample twoParts ++ oneSample fun _ => .accepted 100)) := by
  refine ⟨_, rfl, rfl, ?_⟩
  refine (acknowledged_delivered pipelineRing pipelineRing pipelineRing_fresh pipelineRing_fresh
    (fun _ => true) _ (Runs.allSteps_of_labels ?_) _ rfl).1
  intro l hl s
  simp only [oneSample, List.cons_append, List.nil_append, List.mem_cons, List.not_mem_nil,
    or_false] at hl
  rcases hl with rfl | rfl | rfl | rfl | rfl | rfl
  · exact trivial
  · exact trivial
  · refine unstalled_of_flowing (fun k => ?_) s
    simp only [connectingEnv, twoParts]
    split <;> nofun
  · exact trivial
  · exact trivial
  · exact unstalled_of_flowing (fun _ => by simp [connectingEnv]) s

end FastRing
