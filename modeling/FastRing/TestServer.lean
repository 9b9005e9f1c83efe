import FastRing.TcpSend

/-! # The receiver

The receive loop of `tests/test_server.c`. Every `recv` overwrites the buffer from its
start, and the parse loop goes through the bytes of that one call: it skips four bytes
where the magic number is missing, and stops at a block that is not complete. Printing
is left out; `recognised` is the history of the blocks counted in `total_blocks`. -/

namespace FastRing

open LittleEndian

/-- `BUFFER_SIZE`. -/
def bufferSize : Nat := 1024 * 1024

/-- The `adc_sample_t` at `offset`. -/
def readSample (buffer : List UInt8) (offset : Nat) : AdcSample :=
  { timestamp := UInt32.ofNat (readLe buffer offset 4)
    value := (UInt32.ofNat (readLe buffer (offset + 4) 4)).toInt32
    sequence := UInt32.ofNat (readLe buffer (offset + 8) 4)
    channel := UInt16.ofNat (readLe buffer (offset + 12) 2)
    flags := UInt16.ofNat (readLe buffer (offset + 14) 2) }

/-- An array of `adc_sample_t` at `offset`. -/
def readSamples (buffer : List UInt8) : Nat → Nat → List AdcSample
  | _, 0 => []
  | offset, n + 1 => readSample buffer offset :: readSamples buffer (offset + adcSampleSize) n

/-- The `data_block_t` at `offset`, with the samples its header announces. -/
def readBlock (buffer : List UInt8) (offset : Nat) : DataBlock :=
  let sampleCount := UInt32.ofNat (readLe buffer (offset + 12) 4)
  { magic := UInt32.ofNat (readLe buffer offset 4)
    version := UInt32.ofNat (readLe buffer (offset + 4) 4)
    sequence := UInt32.ofNat (readLe buffer (offset + 8) 4)
    sampleCount := sampleCount
    timestamp := UInt64.ofNat (readLe buffer (offset + 16) 8)
    samples := readSamples buffer (offset + dataBlockSize) sampleCount.toNat }

/-- The parse loop from `offset` on: the offsets of the blocks recognised, and the final
offset. `size_t` has 64 bits. -/
def parseLoop : Nat → List UInt8 → UInt64 → UInt64 → Option (List UInt64 × UInt64)
  | 0, _, _, _ => none
  | fuel + 1, buffer, received, offset =>
    if offset + UInt64.ofNat dataBlockSize ≤ received then
      let block := readBlock buffer offset.toNat
      if block.magic ≠ dataBlockMagic then parseLoop fuel buffer received (offset + 4)
      else
        let blockSize := UInt64.ofNat dataBlockSize +
          block.sampleCount.toUInt64 * UInt64.ofNat adcSampleSize
        if offset + blockSize > received then some ([], offset)
        else
          (parseLoop fuel buffer received (offset + blockSize)).map fun r => (offset :: r.1, r.2)
    else some ([], offset)

/-- The parse loop over the first `received` bytes of the buffer. Every round goes on by
at least four bytes, so `received + 1` rounds are enough. -/
def parse (buffer : List UInt8) (received : Nat) : Option (List DataBlock × Nat) :=
  (parseLoop (received + 1) buffer (UInt64.ofNat received) 0).map fun r =>
    (r.1.map fun offset => readBlock buffer offset.toNat, r.2.toNat)

structure Server where
  buffer : List UInt8
  totalBytes : UInt64
  totalBlocks : UInt64
  recognised : List DataBlock

/-- The server with its allocated buffer. -/
def Server.init (buffer : List UInt8) : Server :=
  { buffer := buffer, totalBytes := 0, totalBlocks := 0, recognised := [] }

/-- The bytes of one `recv` are put at the start of the buffer and parsed. -/
def Server.receive (s : Server) (bytes : List UInt8) : Option Server :=
  let buffer := bytes ++ s.buffer.drop bytes.length
  (parse buffer bytes.length).map fun r =>
    { buffer := buffer
      totalBytes := s.totalBytes + UInt64.ofNat bytes.length
      totalBlocks := s.totalBlocks + UInt64.ofNat r.1.length
      recognised := s.recognised ++ r.1 }

/-- The receive loop, over the results of its `recv` calls. -/
def Server.receiveLoop (s : Server) : List RecvOutcome → Option Server
  | [] => some s
  | .data bytes :: rest => (s.receive bytes).bind fun t => t.receiveLoop rest
  | .wouldBlock :: rest => s.receiveLoop rest
  | .closed :: _ => some s
  | .failed :: _ => some s

/-! ## Reading and laying out blocks -/

section Layout

variable {buffer rest : List UInt8} {offset : Nat}

theorem readLe_toNat32 (buffer : List UInt8) (offset : Nat) :
    (UInt32.ofNat (readLe buffer offset 4)).toNat = readLe buffer offset 4 := by
  have := readLe_lt buffer offset 4
  rw [UInt32.toNat_ofNat']
  exact Nat.mod_eq_of_lt this

theorem readLe_toNat16 (buffer : List UInt8) (offset : Nat) :
    (UInt16.ofNat (readLe buffer offset 2)).toNat = readLe buffer offset 2 := by
  have := readLe_lt buffer offset 2
  rw [UInt16.toNat_ofNat']
  exact Nat.mod_eq_of_lt this

theorem readLe_toNat64 (buffer : List UInt8) (offset : Nat) :
    (UInt64.ofNat (readLe buffer offset 8)).toNat = readLe buffer offset 8 := by
  have := readLe_lt buffer offset 8
  rw [UInt64.toNat_ofNat']
  exact Nat.mod_eq_of_lt this

/-- The sample read has the bytes it was read from. -/
theorem readSample_bytes (h : offset + adcSampleSize ≤ buffer.length) :
    (readSample buffer offset).bytes = slice buffer offset adcSampleSize := by
  rw [adcSampleSize] at h ⊢
  simp only [readSample, AdcSample.bytes, UInt32.toUInt32_toInt32, readLe_toNat32,
    readLe_toNat16]
  rw [leBytes_readLe (by omega), leBytes_readLe (by omega), leBytes_readLe (by omega),
    leBytes_readLe (by omega), leBytes_readLe (by omega), slice_append, slice_append, slice_append,
    slice_append]

theorem readSamples_bytes {n : Nat} (h : offset + n * adcSampleSize ≤ buffer.length) :
    (readSamples buffer offset n).flatMap AdcSample.bytes =
      slice buffer offset (n * adcSampleSize) := by
  induction n generalizing offset with
  | zero => simp [readSamples, slice]
  | succ n ih =>
    rw [Nat.succ_mul] at h
    rw [readSamples, List.flatMap_cons, readSample_bytes (by omega), ih (by omega), slice_append,
      Nat.succ_mul, Nat.add_comm adcSampleSize]

/-- The block read has the bytes it was read from. -/
theorem readBlock_bytes (h : offset + dataBlockSize +
    (readBlock buffer offset).sampleCount.toNat * adcSampleSize ≤ buffer.length) :
    (readBlock buffer offset).bytes = slice buffer offset
      (dataBlockSize + (readBlock buffer offset).sampleCount.toNat * adcSampleSize) := by
  have hsamples := readSamples_bytes h
  rw [dataBlockSize] at h hsamples
  rw [DataBlock.bytes, ← slice_append _ _ dataBlockSize, dataBlockSize]
  simp only [readBlock, dataBlockSize, readLe_toNat32, readLe_toNat64] at h hsamples ⊢
  rw [leBytes_readLe (by omega), leBytes_readLe (by omega), leBytes_readLe (by omega),
    leBytes_readLe (by omega), leBytes_readLe (by omega), slice_append, slice_append, slice_append,
    slice_append, hsamples]

theorem ofNat_field32 (x : UInt32) : UInt32.ofNat (x.toNat % 256 ^ 4) = x := by
  have hlt : x.toNat < 256 ^ 4 := x.toNat_lt
  rw [Nat.mod_eq_of_lt hlt, UInt32.ofNat_toNat]

theorem ofNat_field16 (x : UInt16) : UInt16.ofNat (x.toNat % 256 ^ 2) = x := by
  have hlt : x.toNat < 256 ^ 2 := x.toNat_lt
  rw [Nat.mod_eq_of_lt hlt, UInt16.ofNat_toNat]

theorem ofNat_field64 (x : UInt64) : UInt64.ofNat (x.toNat % 256 ^ 8) = x := by
  have hlt : x.toNat < 256 ^ 8 := x.toNat_lt
  rw [Nat.mod_eq_of_lt hlt, UInt64.ofNat_toNat]

theorem readSample_eq {x : AdcSample} (h : buffer.drop offset = x.bytes ++ rest) :
    readSample buffer offset = x ∧ buffer.drop (offset + adcSampleSize) = rest := by
  simp only [AdcSample.bytes, List.append_assoc] at h
  obtain ⟨h₁, h⟩ := read_front h
  obtain ⟨h₂, h⟩ := read_front h
  obtain ⟨h₃, h⟩ := read_front h
  obtain ⟨h₄, h⟩ := read_front h
  obtain ⟨h₅, h⟩ := read_front h
  refine ⟨?_, h⟩
  rw [readSample, h₁, h₂, h₃, h₄, h₅]
  simp only [ofNat_field32, ofNat_field16, Int32.toInt32_toUInt32]

theorem readSamples_eq {xs : List AdcSample}
    (h : buffer.drop offset = xs.flatMap AdcSample.bytes ++ rest) :
    readSamples buffer offset xs.length = xs := by
  induction xs generalizing offset with
  | nil => rfl
  | cons x xs ih =>
    rw [List.flatMap_cons, List.append_assoc] at h
    obtain ⟨hx, hrest⟩ := readSample_eq h
    rw [List.length_cons, readSamples, hx, ih hrest]

/-- A block whose header tells the number of its samples is read back. -/
theorem readBlock_eq {b : DataBlock} (hb : b.sampleCount.toNat = b.samples.length)
    (h : buffer.drop offset = b.bytes ++ rest) : readBlock buffer offset = b := by
  simp only [DataBlock.bytes, List.append_assoc] at h
  obtain ⟨h₁, h⟩ := read_front h
  obtain ⟨h₂, h⟩ := read_front h
  obtain ⟨h₃, h⟩ := read_front h
  obtain ⟨h₄, h⟩ := read_front h
  obtain ⟨h₅, h⟩ := read_front h
  have hs : readSamples buffer (offset + dataBlockSize) b.sampleCount.toNat = b.samples := by
    rw [hb]
    exact readSamples_eq h
  rw [readBlock, h₁, h₂, h₃, h₄, h₅]
  simp only [ofNat_field32, ofNat_field64, hs]

end Layout

/-! ## The parse loop without machine arithmetic -/

/-- The number of bytes the block at `offset` announces. -/
def announced (buffer : List UInt8) (offset : Nat) : Nat :=
  dataBlockSize + (readBlock buffer offset).sampleCount.toNat * adcSampleSize

/-- The parse loop over the first `n` bytes, from an offset: the blocks it recognises,
and where it ends. -/
inductive Parse (buffer : List UInt8) (n : Nat) : Nat → List Nat → Nat → Prop
  | finished {o : Nat} (short : n < o + dataBlockSize) : Parse buffer n o [] o
  | skip {o e : Nat} {os : List Nat} (fits : o + dataBlockSize ≤ n)
      (magic : (readBlock buffer o).magic ≠ dataBlockMagic) (rest : Parse buffer n (o + 4) os e) :
      Parse buffer n o os e
  | incomplete {o : Nat} (fits : o + dataBlockSize ≤ n)
      (magic : (readBlock buffer o).magic = dataBlockMagic) (short : n < o + announced buffer o) :
      Parse buffer n o [] o
  | block {o e : Nat} {os : List Nat} (magic : (readBlock buffer o).magic = dataBlockMagic)
      (fits : o + announced buffer o ≤ n) (rest : Parse buffer n (o + announced buffer o) os e) :
      Parse buffer n o (o :: os) e

theorem dataBlockSize_le_announced (buffer : List UInt8) (offset : Nat) :
    dataBlockSize ≤ announced buffer offset := Nat.le_add_right _ _

theorem announced_lt (buffer : List UInt8) (offset : Nat) : announced buffer offset < 2 ^ 37 := by
  have := (readBlock buffer offset).sampleCount.toNat_lt
  rw [announced, dataBlockSize, adcSampleSize]
  omega

/-! The sizes that the loop computes in 64 bits, for an offset in the received bytes. -/

theorem size_toNat {m : Nat} (hm : m < 2 ^ 40) : (UInt64.ofNat m).toNat = m := by
  rw [UInt64.toNat_ofNat']
  exact Nat.mod_eq_of_lt (by omega)

theorem blockSize_eq (buffer : List UInt8) (o : Nat) :
    UInt64.ofNat dataBlockSize +
      (readBlock buffer o).sampleCount.toUInt64 * UInt64.ofNat adcSampleSize =
        UInt64.ofNat (announced buffer o) := by
  rw [announced, UInt64.ofNat_add, UInt64.ofNat_mul, UInt64.ofNat_uInt32ToNat]

section Sizes

variable {n o : Nat} (hn : n < 2 ^ 32) (ho : o ≤ n)

include hn ho

theorem header_le_iff : UInt64.ofNat o + UInt64.ofNat dataBlockSize ≤ UInt64.ofNat n ↔
    o + dataBlockSize ≤ n := by
  have hd : dataBlockSize = 24 := rfl
  rw [← UInt64.ofNat_add, UInt64.le_iff_toNat_le, size_toNat (by omega), size_toNat (by omega)]

theorem block_gt_iff (buffer : List UInt8) :
    UInt64.ofNat o + UInt64.ofNat (announced buffer o) > UInt64.ofNat n ↔
      n < o + announced buffer o := by
  have hlt := announced_lt buffer o
  rw [gt_iff_lt, ← UInt64.ofNat_add, UInt64.lt_iff_toNat_lt, size_toNat (by omega),
    size_toNat (by omega)]

end Sizes

/-- No size wraps around, and the loop ends. -/
theorem parseLoop_spec (buffer : List UInt8) {n : Nat} (hn : n < 2 ^ 32) (fuel : Nat) {o : Nat}
    (ho : o ≤ n) (hf : n < o + fuel) :
    ∃ os e, Parse buffer n o os e ∧ e ≤ n ∧ (∀ i ∈ os, i ≤ n) ∧
      parseLoop fuel buffer (UInt64.ofNat n) (UInt64.ofNat o) =
        some (os.map UInt64.ofNat, UInt64.ofNat e) := by
  induction fuel generalizing o with
  | zero => omega
  | succ fuel ih =>
    rw [parseLoop]
    have hsize := dataBlockSize_le_announced buffer o
    have hd : dataBlockSize = 24 := rfl
    by_cases hfits : o + dataBlockSize ≤ n
    · rw [if_pos ((header_le_iff hn ho).mpr hfits)]
      simp only [size_toNat (Nat.lt_of_le_of_lt ho (by omega)), blockSize_eq]
      by_cases hmagic : (readBlock buffer o).magic = dataBlockMagic
      · rw [if_neg (not_not_intro hmagic)]
        by_cases hend : n < o + announced buffer o
        · rw [if_pos ((block_gt_iff hn ho buffer).mpr hend)]
          refine ⟨[], o, .incomplete hfits hmagic hend, ho, ?_, rfl⟩
          intro i hi
          cases hi
        · rw [if_neg (mt (block_gt_iff hn ho buffer).mp hend), ← UInt64.ofNat_add]
          obtain ⟨os, e, hp, he, hos, heq⟩ := ih (o := o + announced buffer o) (by omega) (by omega)
          rw [heq]
          refine ⟨o :: os, e, .block hmagic (by omega) hp, he, ?_, rfl⟩
          intro i hi
          rcases List.mem_cons.mp hi with rfl | hi
          · exact ho
          · exact hos i hi
      · rw [if_pos hmagic]
        obtain ⟨os, e, hp, he, hos, heq⟩ := ih (o := o + 4) (by omega) (by omega)
        rw [UInt64.ofNat_add] at heq
        exact ⟨os, e, .skip hfits hmagic hp, he, hos, heq⟩
    · rw [if_neg (mt (header_le_iff hn ho).mp hfits)]
      refine ⟨[], o, .finished (by omega), ho, ?_, rfl⟩
      intro i hi
      cases hi

/-- The parse loop over one `recv`. -/
theorem parse_spec (buffer : List UInt8) {n : Nat} (hn : n < 2 ^ 32) :
    ∃ os e, Parse buffer n 0 os e ∧ parse buffer n = some (os.map (readBlock buffer), e) := by
  obtain ⟨os, e, hp, he, hos, heq⟩ := parseLoop_spec buffer hn (n + 1) (Nat.zero_le n) (by omega)
  have hword : ∀ m, m ≤ n → (UInt64.ofNat m).toNat = m := by
    intro m hm
    rw [UInt64.toNat_ofNat']
    exact Nat.mod_eq_of_lt (by omega)
  refine ⟨os, e, hp, ?_⟩
  have hzero : UInt64.ofNat 0 = 0 := rfl
  rw [parse, ← hzero, heq, Option.map_some, hword e he, List.map_map]
  congr 2
  refine List.map_congr_left ?_
  intro i hi
  rw [Function.comp_apply, hword i (hos i hi)]

/-- The loop has one outcome. -/
theorem Parse.unique {buffer : List UInt8} {n o e e' : Nat} {os os' : List Nat}
    (h : Parse buffer n o os e) (h' : Parse buffer n o os' e') : os = os' ∧ e = e' := by
  induction h generalizing os' with
  | @finished o short =>
    have := dataBlockSize_le_announced buffer o
    cases h' with
    | finished => exact ⟨rfl, rfl⟩
    | skip fits | incomplete fits => omega
    | block magic fits => omega
  | skip fits magic rest ih =>
    cases h' with
    | finished short => omega
    | skip _ _ rest' => exact ih rest'
    | incomplete _ magic' | block magic' => exact absurd magic' magic
  | @incomplete o fits magic short =>
    cases h' with
    | finished | incomplete => exact ⟨rfl, rfl⟩
    | skip _ magic' => exact absurd magic magic'
    | block _ fits' => omega
  | @block o e os magic fits rest ih =>
    have := dataBlockSize_le_announced buffer o
    cases h' with
    | finished short => omega
    | skip _ magic' => exact absurd magic magic'
    | incomplete _ _ short => omega
    | block _ _ rest' =>
      obtain ⟨hos, he⟩ := ih rest'
      exact ⟨by rw [hos], he⟩

end FastRing
