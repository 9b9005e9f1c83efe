import FastRing.Framing
import FastRing.TestServer

/-! # What the receiver makes of a stream

The bytes of one `recv` are parsed by themselves. When they are whole block encodings,
the receiver recognises exactly these blocks, whatever their samples contain. When a
block is cut in two by the end of a `recv`, its first part is dropped with the buffer
and its second part is scanned for a magic number: the bytes recognised then fall short
of the bytes sent, so a cut inside a block always loses something. -/

namespace FastRing

open LittleEndian

/-- A block that says what it is and how many samples it has. -/
structure DataBlock.Valid (b : DataBlock) : Prop where
  magic : b.magic = dataBlockMagic
  count : b.sampleCount.toNat = b.samples.length

theorem IsBlock.valid {b : DataBlock} (h : IsBlock b) : b.Valid := ⟨h.magic, h.count⟩

/-- The encodings of the blocks, one after the other. -/
def encodeAll (blocks : List DataBlock) : List UInt8 := blocks.flatMap DataBlock.bytes

theorem encodeAll_cons (b : DataBlock) (blocks : List DataBlock) :
    encodeAll (b :: blocks) = b.bytes ++ encodeAll blocks := List.flatMap_cons

theorem encodeAll_append (xs ys : List DataBlock) :
    encodeAll (xs ++ ys) = encodeAll xs ++ encodeAll ys := List.flatMap_append

variable {buffer : List UInt8} {n o e : Nat} {os : List Nat}

/-! ## One `recv` -/

/-- From an offset where whole blocks start, the loop recognises them all. -/
theorem Parse.of_encoding {blocks : List DataBlock} (hv : ∀ b ∈ blocks, b.Valid)
    {rest : List UInt8} (h : buffer.drop o = encodeAll blocks ++ rest)
    (hn : n = o + (encodeAll blocks).length) :
    ∃ os, Parse buffer n o os n ∧ os.map (readBlock buffer) = blocks := by
  induction blocks generalizing o with
  | nil =>
    obtain rfl : n = o := hn
    exact ⟨[], .finished (Nat.lt_add_of_pos_right (by decide)), rfl⟩
  | cons b blocks ih =>
    have hb := hv b List.mem_cons_self
    rw [encodeAll_cons, List.append_assoc] at h
    rw [encodeAll_cons, List.length_append] at hn
    have hread := readBlock_eq hb.count h
    have hsize : announced buffer o = b.bytes.length := by
      rw [announced, hread, b.bytes_length, hb.count]
    have hdrop : buffer.drop (o + announced buffer o) = encodeAll blocks ++ rest := by
      rw [← List.drop_drop, h, hsize, List.drop_left]
    obtain ⟨os, hp, hos⟩ := ih (fun b' hb' => hv b' (List.mem_cons_of_mem _ hb')) hdrop (by omega)
    refine ⟨o :: os, .block (by rw [hread]; exact hb.magic) (by omega) hp, ?_⟩
    rw [List.map_cons, hread, hos]

/-- The blocks recognised are not longer than the bytes received; if they are as long,
they are all of them. -/
theorem Parse.covered (h : Parse buffer n o os e) (hn : n ≤ buffer.length) (ho : o ≤ n) :
    (encodeAll (os.map (readBlock buffer))).length ≤ n - o ∧
      ((encodeAll (os.map (readBlock buffer))).length = n - o →
        slice buffer o (n - o) = encodeAll (os.map (readBlock buffer))) := by
  -- an offset where nothing is recognised any more
  have hstop : ∀ o, ([] : List UInt8).length = n - o → slice buffer o (n - o) = [] := by
    intro o hz
    rw [← hz]
    exact List.take_zero
  induction h with
  | finished | incomplete => exact ⟨Nat.zero_le _, hstop _⟩
  | skip fits magic rest ih =>
    rw [dataBlockSize] at fits
    obtain ⟨hle, _⟩ := ih (by omega)
    exact ⟨by omega, fun heq => by omega⟩
  | @block o e os magic fits rest ih =>
    obtain ⟨hle, heq⟩ := ih fits
    have hbytes : (readBlock buffer o).bytes = slice buffer o (announced buffer o) :=
      readBlock_bytes (by rw [Nat.add_assoc]; exact Nat.le_trans fits hn)
    have hlen : (readBlock buffer o).bytes.length = announced buffer o := by
      rw [hbytes, slice_length (by omega)]
    rw [List.map_cons, encodeAll_cons, List.length_append, hlen]
    refine ⟨by omega, fun hall => ?_⟩
    have hsplit : n - o = announced buffer o + (n - (o + announced buffer o)) := by omega
    rw [hsplit, ← slice_append, heq (by omega), hbytes]

/-- What the receiver makes of the bytes of one `recv`. -/
structure Recognises (bytes : List UInt8) (blocks : List DataBlock) : Prop where
  le : (encodeAll blocks).length ≤ bytes.length
  complete : (encodeAll blocks).length = bytes.length → bytes = encodeAll blocks
  all : ∀ sent, (∀ b ∈ sent, b.Valid) → bytes = encodeAll sent → blocks = sent

theorem parse_recognises {bytes : List UInt8} (h : bytes.length ≤ bufferSize) (old : List UInt8) :
    ∃ blocks e, parse (bytes ++ old) bytes.length = some (blocks, e) ∧ Recognises bytes blocks ∧
      ∀ sent, (∀ b ∈ sent, b.Valid) → bytes = encodeAll sent → e = bytes.length := by
  have hn : bytes.length < 2 ^ 32 := Nat.lt_of_le_of_lt h (by decide)
  obtain ⟨os, e, hp, hparse⟩ := parse_spec (bytes ++ old) hn
  have hslice : slice (bytes ++ old) 0 (bytes.length - 0) = bytes := List.take_left
  obtain ⟨hle, hcomplete⟩ := hp.covered (by rw [List.length_append]; omega) (Nat.zero_le _)
  rw [hslice] at hcomplete
  have hall : ∀ sent, (∀ b ∈ sent, b.Valid) → bytes = encodeAll sent →
      os.map (readBlock (bytes ++ old)) = sent ∧ e = bytes.length := by
    intro sent hv hs
    have hlen : bytes.length = 0 + (encodeAll sent).length := by rw [hs, Nat.zero_add]
    have hdrop : (bytes ++ old).drop 0 = encodeAll sent ++ old := by rw [← hs]; rfl
    obtain ⟨os', hp', hos'⟩ := Parse.of_encoding hv hdrop hlen
    obtain ⟨rfl, he⟩ := hp.unique hp'
    exact ⟨hos', he⟩
  exact ⟨_, e, hparse, ⟨hle, hcomplete, fun sent hv hs => (hall sent hv hs).1⟩,
    fun sent hv hs => (hall sent hv hs).2⟩

/-- What `tcp_client_send_data_block` transmits for a block when it returns `ADC_OK`. -/
theorem transmitted_bytes {client : TcpClient} (hc : client.connected = true) {b : DataBlock}
    (hb : IsBlock b) {send : Nat → SendOutcome}
    (hok : (tcpClientSendDataBlock client b send).err = .ok) :
    (tcpClientSendDataBlock client b send).log.flatMap Syscall.payload = b.bytes := by
  obtain ⟨hends, _⟩ := tcpClientSendDataBlock_spec hc send hb.count.symm hb.le
  cases hends with
  | all takes err same bytes => exact bytes
  | timeout m stops err => rw [err] at hok; cases hok
  | broken m out out_eq stops err => rw [err] at hok; cases hok

/-- Round trip: the blocks a connected client sends, at most 1 MiB that arrive in one
`recv`, are recognised one by one, and the loop ends behind the last. -/
theorem parse_sent (client : TcpClient) (hc : client.connected = true)
    (sent : List (DataBlock × (Nat → SendOutcome))) (hb : ∀ p ∈ sent, IsBlock p.1)
    (hok : ∀ p ∈ sent, (tcpClientSendDataBlock client p.1 p.2).err = .ok) (bytes : List UInt8)
    (hbytes : bytes = sent.flatMap fun p =>
      (tcpClientSendDataBlock client p.1 p.2).log.flatMap Syscall.payload)
    (hl : bytes.length ≤ bufferSize) (old : List UInt8) :
    parse (bytes ++ old) bytes.length = some (sent.map Prod.fst, bytes.length) := by
  have hencode : bytes = encodeAll (sent.map Prod.fst) := by
    rw [hbytes, encodeAll, List.flatMap_map]
    refine List.flatMap_congr ?_
    intro p hp
    exact transmitted_bytes hc (hb p hp) (hok p hp)
  have hv : ∀ b ∈ sent.map Prod.fst, b.Valid := by
    intro b hmem
    obtain ⟨p, hp, rfl⟩ := List.mem_map.mp hmem
    exact (hb p hp).valid
  obtain ⟨blocks, e, hparse, hrec, he⟩ := parse_recognises hl old
  rw [hparse, hrec.all _ hv hencode, he _ hv hencode]

/-- A block with a sample that looks like the start of a block. -/
def imitation : DataBlock :=
  fillBlock 5 [{ timestamp := dataBlockMagic, value := 0, sequence := 0, channel := 0, flags := 0 }] 1

theorem imitation_isBlock : IsBlock imitation :=
  ⟨rfl, rfl, rfl, rfl, Nat.le_refl 1, by decide⟩

/-- It is sent twice. -/
def imitations : List (DataBlock × (Nat → SendOutcome)) :=
  List.replicate 2 (imitation, fun _ => .accepted 100)

theorem parse_sent_imitation :
    parse (imitation.bytes ++ imitation.bytes ++ List.replicate 9 0) 80 =
      some ([imitation, imitation], 80) := by
  refine parse_sent connectedClient rfl imitations (fun p hp => ?_) (fun p hp => ?_)
    (imitation.bytes ++ imitation.bytes) rfl (by decide) (List.replicate 9 0)
  · rw [List.eq_of_mem_replicate hp]
    exact imitation_isBlock
  · rw [List.eq_of_mem_replicate hp]
    rfl

/-! ## A whole stream -/

theorem Server.receive_spec (s : Server) {bytes : List UInt8} (h : bytes.length ≤ bufferSize) :
    ∃ t blocks, s.receive bytes = some t ∧ t.recognised = s.recognised ++ blocks ∧
      Recognises bytes blocks := by
  obtain ⟨blocks, e, hparse, hrec, _⟩ := parse_recognises h (s.buffer.drop bytes.length)
  exact ⟨_, blocks, by rw [Server.receive, hparse]; rfl, rfl, hrec⟩

theorem Server.receiveLoop_spec (s : Server) {chunks : List (List UInt8)}
    (h : ∀ c ∈ chunks, c.length ≤ bufferSize) :
    ∃ t groups, s.receiveLoop (chunks.map .data) = some t ∧
      t.recognised = s.recognised ++ groups.flatten ∧ List.Forall₂ Recognises chunks groups := by
  induction chunks generalizing s with
  | nil => exact ⟨s, [], rfl, (List.append_nil _).symm, .nil⟩
  | cons c chunks ih =>
    obtain ⟨u, blocks, hu, hrec, hc⟩ := s.receive_spec (h c List.mem_cons_self)
    obtain ⟨t, groups, ht, hrec', hall⟩ := ih u fun c' hc' => h c' (List.mem_cons_of_mem _ hc')
    refine ⟨t, blocks :: groups, ?_, ?_, .cons hc hall⟩
    · rw [List.map_cons, Server.receiveLoop, hu]
      exact ht
    · rw [hrec', hrec, List.flatten_cons, List.append_assoc]

/-- When the blocks recognised are as long as the stream, each `recv` was whole blocks. -/
theorem recognised_complete {chunks : List (List UInt8)} {groups : List (List DataBlock)}
    (h : List.Forall₂ Recognises chunks groups) :
    (encodeAll groups.flatten).length ≤ chunks.flatten.length ∧
      ((encodeAll groups.flatten).length = chunks.flatten.length →
        chunks = groups.map encodeAll) := by
  induction h with
  | nil => exact ⟨Nat.le_refl _, fun _ => rfl⟩
  | @cons c g chunks groups hc _ ih =>
    have hle := hc.le
    obtain ⟨hle', heq⟩ := ih
    rw [List.flatten_cons, List.flatten_cons, encodeAll_append, List.length_append,
      List.length_append]
    refine ⟨by omega, fun hall => ?_⟩
    rw [List.map_cons, ← hc.complete (by omega), ← heq (by omega)]

/-- When each `recv` is whole blocks, these are the blocks recognised. -/
theorem recognised_groups {groups groups' : List (List DataBlock)}
    (h : List.Forall₂ Recognises (groups.map encodeAll) groups')
    (hv : ∀ b ∈ groups.flatten, b.Valid) : groups' = groups := by
  induction groups generalizing groups' with
  | nil =>
    cases h
    rfl
  | cons g groups ih =>
    rw [List.flatten_cons] at hv
    cases h with
    | cons hg hrest =>
      rw [hg.all g (fun b hb => hv b (List.mem_append_left _ hb)) rfl,
        ih hrest fun b hb => hv b (List.mem_append_right _ hb)]

/-- The stream arrives in these pieces, each of at most the size of the buffer. -/
structure Cutting (stream : List UInt8) (chunks : List (List UInt8)) : Prop where
  whole : chunks.flatten = stream
  size : ∀ c ∈ chunks, 1 ≤ c.length ∧ c.length ≤ bufferSize

/-- The blocks the receive loop recognises. -/
def recognised (memory : List UInt8) (chunks : List (List UInt8)) : Option (List DataBlock) :=
  ((Server.init memory).receiveLoop (chunks.map .data)).map Server.recognised

/-- No block is cut: each piece consists of whole blocks. -/
def Aligned (blocks : List DataBlock) (chunks : List (List UInt8)) : Prop :=
  ∃ groups : List (List DataBlock), groups.flatten = blocks ∧ chunks = groups.map encodeAll

theorem recognised_iff {blocks : List DataBlock} (hv : ∀ b ∈ blocks, b.Valid)
    {chunks : List (List UInt8)} (hc : Cutting (encodeAll blocks) chunks) (memory : List UInt8) :
    recognised memory chunks = some blocks ↔ Aligned blocks chunks := by
  obtain ⟨t, groups, ht, hrec, hall⟩ := (Server.init memory).receiveLoop_spec
    fun c hmem => (hc.size c hmem).2
  have hrec : recognised memory chunks = some groups.flatten := by
    rw [recognised, ht, Option.map_some, hrec]
    rfl
  rw [hrec, Option.some.injEq]
  constructor
  · intro heq
    refine ⟨groups, heq, (recognised_complete hall).2 ?_⟩
    rw [hc.whole, heq]
  · rintro ⟨groups', heq, rfl⟩
    rw [recognised_groups hall (by rw [heq]; exact hv), heq]

/-- The receiver recognises all blocks of a stream, however it is cut, exactly when no
cut is inside a block. -/
theorem segmentation_irrelevant_iff (blocks : List DataBlock) (hv : ∀ b ∈ blocks, b.Valid)
    (chunks chunks' : List (List UInt8)) (hc : Cutting (encodeAll blocks) chunks)
    (hc' : Cutting (encodeAll blocks) chunks') (memory memory' : List UInt8) :
    (recognised memory chunks = recognised memory' chunks' ∧
      recognised memory chunks = some blocks) ↔ Aligned blocks chunks ∧ Aligned blocks chunks' := by
  rw [← recognised_iff hv hc memory, ← recognised_iff hv hc' memory']
  constructor
  · rintro ⟨heq, hall⟩
    exact ⟨hall, by rw [← heq]; exact hall⟩
  · rintro ⟨h, h'⟩
    exact ⟨by rw [h, h'], h⟩

/-- The buffer as the server allocates it. -/
def emptyBuffer : List UInt8 := List.replicate bufferSize 0

theorem segmentation_irrelevant_two_blocks :
    recognised emptyBuffer [imitation.bytes, imitation.bytes] =
      recognised emptyBuffer [imitation.bytes ++ imitation.bytes] ∧
    recognised emptyBuffer [imitation.bytes, imitation.bytes] = some [imitation, imitation] := by
  refine (segmentation_irrelevant_iff [imitation, imitation] (fun b hb => ?_)
    [imitation.bytes, imitation.bytes] [imitation.bytes ++ imitation.bytes] ⟨rfl, ?_⟩ ⟨rfl, ?_⟩
    emptyBuffer emptyBuffer).mpr
      ⟨⟨[[imitation], [imitation]], rfl, rfl⟩, [[imitation, imitation]], rfl, rfl⟩
  · rw [List.eq_of_mem_replicate (n := 2) hb]
    exact imitation_isBlock.valid
  · decide
  · decide

/-- A block that arrives in two halves is not recognised; when it arrives whole, it is. -/
theorem block_cut_lost :
    Cutting (encodeAll [imitation]) [imitation.bytes.take 20, imitation.bytes.drop 20] ∧
      Cutting (encodeAll [imitation]) [imitation.bytes] ∧
      recognised emptyBuffer [imitation.bytes.take 20, imitation.bytes.drop 20] = some [] ∧
      recognised emptyBuffer [imitation.bytes] = some [imitation] :=
  ⟨⟨rfl, by decide⟩, ⟨rfl, by decide⟩, rfl, rfl⟩

end FastRing
