import FastRing.TestServer

/-! # What the receiver reads

The parse loop of `tests/test_server.c` once more, with a record of what it does: the bytes
it reads, with those `print_data_block` reads of every hundredth block, the sizes it
computes, and the blocks it recognises. The bytes are whatever arrived, and so is the number
of samples that a header announces. The loop reads nothing outside the bytes received. -/

namespace FastRing

open LittleEndian

/-- A step of the parser. A size goes with what it is without machine arithmetic. -/
inductive ParseEvent where
  | read (offset length : Nat)
  | size (computed : UInt64) (exact : Nat)
  | block (offset length : Nat)
  deriving DecidableEq, Repr

/-- `block->magic` for the block at `offset`. -/
def magicAt (buffer : List UInt8) (offset : Nat) : UInt32 := UInt32.ofNat (readLe buffer offset 4)

/-- `block->sample_count` for the block at `offset`. -/
def sampleCountAt (buffer : List UInt8) (offset : Nat) : UInt32 :=
  UInt32.ofNat (readLe buffer (offset + 12) 4)

/-- The loop over the first three samples, with `n` more to go at `i`. Its condition reads
`sample_count` each time. -/
def printSamples (buffer : List UInt8) (offset : Nat) : Nat → Nat → List ParseEvent
  | 0, _ => [.read (offset + 12) 4]
  | n + 1, i =>
    let sample := offset + dataBlockSize + i * adcSampleSize
    .read (offset + 12) 4 ::
      if i < (sampleCountAt buffer offset).toNat then
        .read (sample + 8) 4 :: .read sample 4 :: .read (sample + 4) 4 ::
          printSamples buffer offset n (i + 1)
      else []

/-- `print_data_block`: sequence number, number of samples and time, then the samples. -/
def printDataBlock (buffer : List UInt8) (offset : Nat) : List ParseEvent :=
  .read offset 4 ::
    if magicAt buffer offset ≠ dataBlockMagic then [.read offset 4]
    else
      .read (offset + 8) 4 :: .read (offset + 12) 4 :: .read (offset + 16) 8 ::
        .read (offset + 12) 4 ::
          if sampleCountAt buffer offset > 0 then printSamples buffer offset 3 0 else []

/-- The parse loop with its record, the final offset and the final `total_blocks`. -/
def parseTrace : Nat → List UInt8 → UInt64 → UInt64 → UInt64 →
    Option (List ParseEvent × UInt64 × UInt64)
  | 0, _, _, _, _ => none
  | fuel + 1, buffer, received, offset, totalBlocks =>
    let o := offset.toNat
    let header := offset + UInt64.ofNat dataBlockSize
    let checked := [.size header (o + dataBlockSize)]
    if header ≤ received then
      let checked := checked ++ [.read o 4]
      if magicAt buffer o ≠ dataBlockMagic then
        (parseTrace fuel buffer received (offset + 4) totalBlocks).map fun r =>
          (checked ++ .size (offset + 4) (o + 4) :: r.1, r.2)
      else
        let count := sampleCountAt buffer o
        let samples := count.toUInt64 * UInt64.ofNat adcSampleSize
        let blockSize := UInt64.ofNat dataBlockSize + samples
        let checked := checked ++
          [.read (o + 12) 4, .size samples (count.toNat * adcSampleSize),
            .size blockSize (dataBlockSize + count.toNat * adcSampleSize),
            .size (offset + blockSize) (o + blockSize.toNat)]
        if offset + blockSize > received then some (checked, offset, totalBlocks)
        else
          let totalBlocks := totalBlocks + 1
          -- every hundredth block is printed
          let printed := if totalBlocks % 100 = 0 then printDataBlock buffer o else []
          (parseTrace fuel buffer received (offset + blockSize) totalBlocks).map fun r =>
            (checked ++ .block o blockSize.toNat :: printed ++ r.1, r.2)
    else some (checked, offset, totalBlocks)

/-- The blocks that a record has recognised: where they start and how long they are. -/
def recognisedBlocks (events : List ParseEvent) : List (Nat × Nat) :=
  events.filterMap fun event => match event with
    | .block offset length => some (offset, length)
    | _ => none

/-! ## The record belongs to the parse loop -/

section Recognised

@[simp] theorem recognisedBlocks_read (o k : Nat) (events : List ParseEvent) :
    recognisedBlocks (.read o k :: events) = recognisedBlocks events := rfl

@[simp] theorem recognisedBlocks_size (c : UInt64) (e : Nat) (events : List ParseEvent) :
    recognisedBlocks (.size c e :: events) = recognisedBlocks events := rfl

@[simp] theorem recognisedBlocks_block (o k : Nat) (events : List ParseEvent) :
    recognisedBlocks (.block o k :: events) = (o, k) :: recognisedBlocks events := rfl

@[simp] theorem recognisedBlocks_append (events events' : List ParseEvent) :
    recognisedBlocks (events ++ events') = recognisedBlocks events ++ recognisedBlocks events' :=
  List.filterMap_append

@[simp] theorem recognisedBlocks_printSamples (buffer : List UInt8) (offset n i : Nat) :
    recognisedBlocks (printSamples buffer offset n i) = [] := by
  induction n generalizing i with
  | zero => rfl
  | succ n ih =>
    rw [printSamples, recognisedBlocks_read]
    split
    · exact ih (i + 1)
    · rfl

@[simp] theorem recognisedBlocks_printDataBlock (buffer : List UInt8) (offset : Nat) :
    recognisedBlocks (printDataBlock buffer offset) = [] := by
  rw [printDataBlock, recognisedBlocks_read]
  split
  · rfl
  · simp only [recognisedBlocks_read]
    split
    · exact recognisedBlocks_printSamples buffer offset 3 0
    · rfl

end Recognised

/-- Without the record, the loop is `parseLoop`. -/
theorem parseTrace_erases (fuel : Nat) (buffer : List UInt8) (received offset totalBlocks : UInt64) :
    (parseTrace fuel buffer received offset totalBlocks).map
        (fun r => ((recognisedBlocks r.1).map fun b => UInt64.ofNat b.1, r.2.1)) =
      parseLoop fuel buffer received offset := by
  induction fuel generalizing offset totalBlocks with
  | zero => rfl
  | succ fuel ih =>
    rw [parseTrace, parseLoop]
    have hmagic : (readBlock buffer offset.toNat).magic = magicAt buffer offset.toNat := rfl
    have hcount : (readBlock buffer offset.toNat).sampleCount = sampleCountAt buffer offset.toNat := rfl
    simp only [hmagic, hcount]
    split
    · split
      · rw [← ih (offset + 4) totalBlocks, Option.map_map]
        congr 1
      · split
        · rfl
        · rw [← ih _ (totalBlocks + 1), Option.map_map, Option.map_map]
          congr 1
          funext r
          split <;> simp
    · rfl

/-! ## Records that stay in bounds -/

/-- A record from offset `o` on that is safe for `n` received bytes: no size wraps around,
no read goes outside, and the blocks come one after the other, from `o` on. -/
structure ParserSafe (n o : Nat) (events : List ParseEvent) : Prop where
  noWrap : ∀ c e, .size c e ∈ events → c.toNat = e
  inBounds : ∀ p k, .read p k ∈ events → p + k ≤ n
  within : ∀ b ∈ recognisedBlocks events, o ≤ b.1 ∧ b.1 + b.2 ≤ n
  disjoint : (recognisedBlocks events).Pairwise fun b c => b.1 < c.1 ∧ b.1 + b.2 ≤ c.1
  few : o + dataBlockSize * (recognisedBlocks events).length ≤ n

namespace ParserSafe

variable {n o : Nat} {events : List ParseEvent}

theorem nil (ho : o ≤ n) : ParserSafe n o [] :=
  ⟨nofun, nofun, nofun, List.Pairwise.nil, ho⟩

theorem size {c : UInt64} {e : Nat} (hc : c.toNat = e) (h : ParserSafe n o events) :
    ParserSafe n o (.size c e :: events) := by
  refine ⟨?_, ?_, h.within, h.disjoint, h.few⟩
  · intro c' e' hmem
    rcases List.mem_cons.mp hmem with heq | hmem
    · cases heq
      exact hc
    · exact h.noWrap c' e' hmem
  · intro p k hmem
    exact h.inBounds p k ((List.mem_cons.mp hmem).resolve_left nofun)

theorem read {p k : Nat} (hp : p + k ≤ n) (h : ParserSafe n o events) :
    ParserSafe n o (.read p k :: events) := by
  refine ⟨?_, ?_, h.within, h.disjoint, h.few⟩
  · intro c e hmem
    exact h.noWrap c e ((List.mem_cons.mp hmem).resolve_left nofun)
  · intro p' k' hmem
    rcases List.mem_cons.mp hmem with heq | hmem
    · cases heq
      exact hp
    · exact h.inBounds p' k' hmem

/-- A block that is followed by a record from its end on. -/
theorem block {k : Nat} (hk : dataBlockSize ≤ k) (h : ParserSafe n (o + k) events) :
    ParserSafe n o (.block o k :: events) := by
  have hd : dataBlockSize = 24 := rfl
  have hfew := h.few
  refine ⟨?_, ?_, ?_, ?_, ?_⟩
  · intro c e hmem
    exact h.noWrap c e ((List.mem_cons.mp hmem).resolve_left nofun)
  · intro p k' hmem
    exact h.inBounds p k' ((List.mem_cons.mp hmem).resolve_left nofun)
  · intro b hb
    rw [recognisedBlocks_block] at hb
    rcases List.mem_cons.mp hb with rfl | hb
    · exact ⟨Nat.le_refl o, by omega⟩
    · have hwithin := h.within b hb
      exact ⟨by omega, hwithin.2⟩
  · rw [recognisedBlocks_block]
    refine List.pairwise_cons.mpr ⟨?_, h.disjoint⟩
    intro b hb
    have hstart := (h.within b hb).1
    exact ⟨by omega, hstart⟩
  · rw [recognisedBlocks_block, List.length_cons, Nat.mul_succ]
    omega

theorem mono {o' : Nat} (ho : o ≤ o') (h : ParserSafe n o' events) : ParserSafe n o events := by
  refine ⟨h.noWrap, h.inBounds, ?_, h.disjoint, Nat.le_trans (Nat.add_le_add_right ho _) h.few⟩
  intro b hb
  exact ⟨Nat.le_trans ho (h.within b hb).1, (h.within b hb).2⟩

/-- Reads in bounds before the rest of a record. -/
theorem reads {printed : List ParseEvent}
    (hreads : ∀ event ∈ printed, ∃ p k, event = .read p k ∧ p + k ≤ n) (h : ParserSafe n o events) :
    ParserSafe n o (printed ++ events) := by
  induction printed with
  | nil => exact h
  | cons event printed ih =>
    obtain ⟨p, k, rfl, hp⟩ := hreads event List.mem_cons_self
    exact (ih fun event hmem => hreads event (List.mem_cons_of_mem _ hmem)).read hp

end ParserSafe

/-! ## The loop -/

section Print

variable {buffer : List UInt8} {n o : Nat}
  (hfits : o + dataBlockSize + (sampleCountAt buffer o).toNat * adcSampleSize ≤ n)

include hfits

theorem printSamples_reads (m i : Nat) :
    ∀ event ∈ printSamples buffer o m i, ∃ p k, event = .read p k ∧ p + k ≤ n := by
  have hd : dataBlockSize = 24 := rfl
  have ha : adcSampleSize = 16 := rfl
  induction m generalizing i with
  | zero =>
    intro event hmem
    exact ⟨_, _, List.mem_singleton.mp hmem, by omega⟩
  | succ m ih =>
    intro event hmem
    rw [printSamples] at hmem
    by_cases hi : i < (sampleCountAt buffer o).toNat
    · have hsample : (i + 1) * adcSampleSize ≤ (sampleCountAt buffer o).toNat * adcSampleSize :=
        Nat.mul_le_mul_right _ hi
      rw [Nat.succ_mul] at hsample
      simp only [if_pos hi, List.mem_cons] at hmem
      rcases hmem with rfl | rfl | rfl | rfl | hmem
      · exact ⟨_, _, rfl, by omega⟩
      · exact ⟨_, _, rfl, by omega⟩
      · exact ⟨_, _, rfl, by omega⟩
      · exact ⟨_, _, rfl, by omega⟩
      · exact ih (i + 1) event hmem
    · simp only [if_neg hi, List.mem_singleton] at hmem
      exact ⟨_, _, hmem, by omega⟩

theorem printDataBlock_reads :
    ∀ event ∈ printDataBlock buffer o, ∃ p k, event = .read p k ∧ p + k ≤ n := by
  have hd : dataBlockSize = 24 := rfl
  intro event hmem
  rw [printDataBlock] at hmem
  rcases List.mem_cons.mp hmem with rfl | hmem
  · exact ⟨_, _, rfl, by omega⟩
  split at hmem
  · exact ⟨_, _, List.mem_singleton.mp hmem, by omega⟩
  · simp only [List.mem_cons] at hmem
    rcases hmem with rfl | rfl | rfl | rfl | hmem
    · exact ⟨_, _, rfl, by omega⟩
    · exact ⟨_, _, rfl, by omega⟩
    · exact ⟨_, _, rfl, by omega⟩
    · exact ⟨_, _, rfl, by omega⟩
    split at hmem
    · exact printSamples_reads hfits 3 0 event hmem
    · cases hmem

end Print

/-- The steps of a round up to the last check, in front of what follows. -/
theorem ParserSafe.checked {buffer : List UInt8} {n o : Nat} {rest : List ParseEvent} (hn : n < 2 ^ 32)
    (hfits : o + dataBlockSize ≤ n) (h : ParserSafe n o rest) :
    ParserSafe n o (.read (o + 12) 4 ::
      .size ((sampleCountAt buffer o).toUInt64 * UInt64.ofNat adcSampleSize)
        ((sampleCountAt buffer o).toNat * adcSampleSize) ::
      .size (UInt64.ofNat (announced buffer o)) (announced buffer o) ::
      .size (UInt64.ofNat o + UInt64.ofNat (announced buffer o)) (o + announced buffer o) :: rest) := by
  have hd : dataBlockSize = 24 := rfl
  have hlt := announced_lt buffer o
  have hsamples : (sampleCountAt buffer o).toNat * adcSampleSize ≤ announced buffer o :=
    Nat.le_add_left _ _
  have hend : (UInt64.ofNat o + UInt64.ofNat (announced buffer o)).toNat = o + announced buffer o := by
    rw [← UInt64.ofNat_add, size_toNat (by omega)]
  have hproduct : ((sampleCountAt buffer o).toUInt64 * UInt64.ofNat adcSampleSize).toNat =
      (sampleCountAt buffer o).toNat * adcSampleSize := by
    rw [← UInt64.ofNat_uInt32ToNat, ← UInt64.ofNat_mul, size_toNat (by omega)]
  exact (((h.size hend).size (size_toNat (by omega))).size hproduct).read (by omega)

/-- The loop ends, and its record is safe. -/
theorem parseTrace_safe (buffer : List UInt8) {n : Nat} (hn : n < 2 ^ 32) (fuel : Nat) {o : Nat}
    (ho : o ≤ n) (hf : n < o + fuel) (totalBlocks : UInt64) :
    ∃ events e, parseTrace fuel buffer (UInt64.ofNat n) (UInt64.ofNat o) totalBlocks = some (events, e) ∧
      ParserSafe n o events := by
  induction fuel generalizing o totalBlocks with
  | zero => omega
  | succ fuel ih =>
    have hd : dataBlockSize = 24 := rfl
    have hlt := announced_lt buffer o
    have hblock : UInt64.ofNat dataBlockSize +
        (sampleCountAt buffer o).toUInt64 * UInt64.ofNat adcSampleSize =
        UInt64.ofNat (announced buffer o) := blockSize_eq buffer o
    have hheader : (UInt64.ofNat o + UInt64.ofNat dataBlockSize).toNat = o + dataBlockSize := by
      rw [← UInt64.ofNat_add, size_toNat (by omega)]
    rw [parseTrace]
    simp only [size_toNat (Nat.lt_of_le_of_lt ho (by omega)), hblock,
      size_toNat (Nat.lt_trans hlt (by decide)), List.cons_append, List.nil_append]
    by_cases hfits : o + dataBlockSize ≤ n
    · rw [if_pos ((header_le_iff hn ho).mpr hfits)]
      split
      · obtain ⟨events, e, heq, hsafe⟩ := ih (o := o + 4) (by omega) (by omega) totalBlocks
        rw [UInt64.ofNat_add] at heq
        have hstep : (UInt64.ofNat o + UInt64.ofNat 4).toNat = o + 4 := by
          rw [← UInt64.ofNat_add, size_toNat (by omega)]
        refine ⟨_, _, congrArg (Option.map _) heq, ?_⟩
        exact (((hsafe.mono (by omega)).size hstep).read (by omega)).size hheader
      · by_cases hend : n < o + announced buffer o
        · rw [if_pos ((block_gt_iff hn ho buffer).mpr hend)]
          exact ⟨_, _, rfl, (((ParserSafe.nil ho).checked hn hfits).read (by omega)).size hheader⟩
        · rw [if_neg (mt (block_gt_iff hn ho buffer).mp hend)]
          have hsize := dataBlockSize_le_announced buffer o
          obtain ⟨events, e, heq, hsafe⟩ := ih (o := o + announced buffer o) (by omega) (by omega)
            (totalBlocks + 1)
          rw [UInt64.ofNat_add] at heq
          have hwhole : o + dataBlockSize + (sampleCountAt buffer o).toNat * adcSampleSize ≤ n := by
            rw [Nat.add_assoc]
            exact Nat.le_of_not_lt hend
          have hprinted : ∀ event ∈ (if (totalBlocks + 1) % 100 = 0 then printDataBlock buffer o else []),
              ∃ p k, event = .read p k ∧ p + k ≤ n := by
            intro event hmem
            split at hmem
            · exact printDataBlock_reads hwhole event hmem
            · cases hmem
          refine ⟨_, _, congrArg (Option.map _) heq, ?_⟩
          exact ((((hsafe.reads hprinted).block hsize).checked hn hfits).read (by omega)).size hheader
    · rw [if_neg (mt (header_le_iff hn ho).mp hfits)]
      exact ⟨_, _, rfl, (ParserSafe.nil ho).size hheader⟩

/-! ## Bytes that do not count -/

section Local

variable {buffer buffer' : List UInt8} {n o : Nat} (hsame : buffer'.take n = buffer.take n)

include hsame

theorem readLe_local {k : Nat} (hk : o + k ≤ n) : readLe buffer' o k = readLe buffer o k := by
  rw [← readLe_take hk, hsame, readLe_take hk]

theorem magicAt_local (hfits : o + dataBlockSize ≤ n) : magicAt buffer' o = magicAt buffer o := by
  have hd : dataBlockSize = 24 := rfl
  rw [magicAt, magicAt, readLe_local hsame (by omega)]

theorem sampleCountAt_local (hfits : o + dataBlockSize ≤ n) :
    sampleCountAt buffer' o = sampleCountAt buffer o := by
  have hd : dataBlockSize = 24 := rfl
  rw [sampleCountAt, sampleCountAt, readLe_local hsame (by omega)]

theorem printDataBlock_local (hfits : o + dataBlockSize ≤ n) :
    printDataBlock buffer' o = printDataBlock buffer o := by
  have hsamples : ∀ m i, printSamples buffer' o m i = printSamples buffer o m i := by
    intro m
    induction m with
    | zero => exact fun _ => rfl
    | succ m ih =>
      intro i
      rw [printSamples, printSamples, sampleCountAt_local hsame hfits, ih]
  rw [printDataBlock, printDataBlock, magicAt_local hsame hfits, sampleCountAt_local hsame hfits,
    hsamples]

/-- What the loop does depends on the received bytes only. -/
theorem parseTrace_local (hn : n < 2 ^ 32) (fuel : Nat) (ho : o ≤ n) (totalBlocks : UInt64) :
    parseTrace fuel buffer' (UInt64.ofNat n) (UInt64.ofNat o) totalBlocks =
      parseTrace fuel buffer (UInt64.ofNat n) (UInt64.ofNat o) totalBlocks := by
  induction fuel generalizing o totalBlocks with
  | zero => rfl
  | succ fuel ih =>
    have hd : dataBlockSize = 24 := rfl
    have hblock : UInt64.ofNat dataBlockSize +
        (sampleCountAt buffer o).toUInt64 * UInt64.ofNat adcSampleSize =
        UInt64.ofNat (announced buffer o) := blockSize_eq buffer o
    rw [parseTrace, parseTrace]
    simp only [size_toNat (Nat.lt_of_le_of_lt ho (by omega))]
    by_cases hfits : o + dataBlockSize ≤ n
    · simp only [magicAt_local hsame hfits, sampleCountAt_local hsame hfits,
        printDataBlock_local hsame hfits, hblock]
      have hskip := ih (o := o + 4) (by omega) totalBlocks
      rw [UInt64.ofNat_add] at hskip
      rw [show (4 : UInt64) = UInt64.ofNat 4 from rfl, hskip]
      by_cases hend : n < o + announced buffer o
      · simp only [if_pos ((block_gt_iff hn ho buffer).mpr hend)]
      · have hnext := ih (o := o + announced buffer o) (by omega) (totalBlocks + 1)
        rw [UInt64.ofNat_add] at hnext
        rw [hnext]
    · simp only [if_neg (mt (header_le_iff hn ho).mp hfits)]

end Local

/-- The parser is safe on every content of the buffer: it ends, its record is safe, and no
byte but the received ones has a part in it. -/
theorem parser_safe {received : Nat} (h : received ≤ bufferSize) {fuel : Nat} (hf : received < fuel)
    (buffer : List UInt8) (totalBlocks : UInt64) :
    ∃ events e total, parseTrace fuel buffer (UInt64.ofNat received) 0 totalBlocks =
        some (events, e, total) ∧
      ParserSafe received 0 events ∧ (recognisedBlocks events).length ≤ received / dataBlockSize ∧
      parseLoop fuel buffer (UInt64.ofNat received) 0 =
        some ((recognisedBlocks events).map fun b => UInt64.ofNat b.1, e) ∧
      ∀ buffer', buffer'.take received = buffer.take received →
        parseTrace fuel buffer' (UInt64.ofNat received) 0 totalBlocks =
          parseTrace fuel buffer (UInt64.ofNat received) 0 totalBlocks := by
  have hn : received < 2 ^ 32 := Nat.lt_of_le_of_lt h (by decide)
  obtain ⟨events, ⟨e, total⟩, heq, hsafe⟩ :=
    parseTrace_safe buffer hn fuel (Nat.zero_le received) (by omega) totalBlocks
  refine ⟨events, e, total, heq, hsafe, ?_, ?_, ?_⟩
  · have hfew := hsafe.few
    rw [Nat.le_div_iff_mul_le (by decide), Nat.mul_comm]
    omega
  · have herases := parseTrace_erases fuel buffer (UInt64.ofNat received) 0 totalBlocks
    rw [← herases]
    exact congrArg (Option.map _) heq
  · intro buffer' hsame
    exact parseTrace_local hsame hn fuel (Nat.zero_le received) totalBlocks

/-- A header that announces 4294967295 samples and is followed by nothing. -/
def hostileHeader : List UInt8 :=
  leBytes 4 dataBlockMagic.toNat ++ List.replicate 8 0 ++ List.replicate 4 255 ++ List.replicate 8 0

/-- The loop stops at such a header. -/
theorem parser_safe_hostile :
    parseLoop 25 hostileHeader 24 0 = some ([], 0) ∧
      ∃ events e total, parseTrace 25 hostileHeader 24 0 99 = some (events, e, total) ∧
        ParserSafe 24 0 events := by
  refine ⟨by decide, ?_⟩
  obtain ⟨events, e, total, heq, hsafe, _⟩ := @parser_safe 24 (by decide) 25 (by decide) hostileHeader 99
  exact ⟨events, e, total, heq, hsafe⟩

end FastRing
