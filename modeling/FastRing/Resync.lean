import FastRing.Delivery

/-! # Which blocks of a stream are recognised

After a block that was cut by the end of a `recv` the parse loop goes on at the start of the next
one and skips four bytes at a time. All blocks start at multiples of eight in the stream, so what it
finds depends on where the `recv` starts: at a multiple of four it comes to the next block and
recognises all that have arrived whole, anywhere else it passes by the start of every block. -/

namespace FastRing

open LittleEndian

/-- The positions at which the blocks start, and the one behind the last of them. -/
def starts : Nat → List DataBlock → List Nat
  | p, [] => [p]
  | p, b :: blocks => p :: starts (p + b.bytes.length) blocks

/-- The magic number is found at these positions of the stream only. -/
def Marked (positions : List Nat) (stream : List UInt8) : Prop :=
  ∀ p < stream.length, (readBlock stream p).magic = dataBlockMagic → p ∈ positions

/-- Of the blocks from position `p` on, those between `start` and `start + n`. -/
def within (start n : Nat) : Nat → List DataBlock → List DataBlock
  | _, [] => []
  | p, b :: blocks =>
    (if start ≤ p ∧ p + b.bytes.length ≤ start + n then [b] else []) ++
      within start n (p + b.bytes.length) blocks

/-- Of the blocks from position `p` on, those that are whole in a piece that starts at a multiple of
four. -/
def wholeBlocks (p : Nat) (blocks : List DataBlock) : Nat → List (List UInt8) → List DataBlock
  | _, [] => []
  | start, c :: chunks =>
    (if start % 4 = 0 then within start c.length p blocks else []) ++
      wholeBlocks p blocks (start + c.length) chunks

/-! ## Positions -/

theorem bytes_pos (b : DataBlock) : 0 < b.bytes.length := by
  rw [b.bytes_length, dataBlockSize]
  omega

theorem le_of_mem_starts {p q : Nat} {blocks : List DataBlock} (h : q ∈ starts p blocks) : p ≤ q := by
  induction blocks generalizing p with
  | nil => exact Nat.le_of_eq (List.mem_singleton.mp h).symm
  | cons b blocks ih =>
    rcases List.mem_cons.mp h with rfl | h
    · exact Nat.le_refl _
    · exact Nat.le_trans (Nat.le_add_right _ _) (ih h)

/-- The size of a block is a multiple of four, and even of eight. -/
theorem mod_of_mem_starts {p q : Nat} {blocks : List DataBlock} (h : q ∈ starts p blocks) :
    q % 4 = p % 4 := by
  induction blocks generalizing p with
  | nil => rw [List.mem_singleton.mp h]
  | cons b blocks ih =>
    rcases List.mem_cons.mp h with rfl | h
    · rfl
    · rw [ih h, b.bytes_length, dataBlockSize, adcSampleSize]
      omega

variable {start n p o e : Nat} {os : List Nat} {blocks : List DataBlock} {buffer : List UInt8}

theorem within_behind (h : start + n ≤ p) (blocks : List DataBlock) : within start n p blocks = [] := by
  induction blocks generalizing p with
  | nil => rfl
  | cons b blocks ih =>
    have hpos := bytes_pos b
    rw [within, if_neg (by omega), List.nil_append, ih (by omega)]

theorem within_before (h : p < start) (b : DataBlock) (blocks : List DataBlock) :
    within start n p (b :: blocks) = within start n (p + b.bytes.length) blocks := by
  rw [within, if_neg (by omega), List.nil_append]

/-- The blocks before `start` do not count. -/
theorem within_skip (xs ys : List DataBlock) (h : p + (encodeAll xs).length ≤ start) :
    within start n p (xs ++ ys) = within start n (p + (encodeAll xs).length) ys := by
  induction xs generalizing p with
  | nil => rfl
  | cons x xs ih =>
    have hpos := bytes_pos x
    rw [encodeAll_cons, List.length_append, ← Nat.add_assoc] at h ⊢
    rw [List.cons_append, within_before (by omega), ih h]

/-! ## Skipping -/

/-- Without a magic number on the way, the loop comes from `o` to `o + 4 * j`, or to the end. -/
theorem Parse.skip_to {j : Nat} (h : Parse buffer n (o + 4 * j) os e)
    (hm : ∀ k < j, o + 4 * k + dataBlockSize ≤ n →
      (readBlock buffer (o + 4 * k)).magic ≠ dataBlockMagic) :
    ∃ e', Parse buffer n o os e' := by
  induction j generalizing o with
  | zero => exact ⟨e, h⟩
  | succ j ih =>
    by_cases hfits : o + dataBlockSize ≤ n
    · have hnext : o + 4 * (j + 1) = o + 4 + 4 * j := by omega
      rw [hnext] at h
      obtain ⟨e', hrest⟩ := ih h fun k hk hk' => by
        have hstep : o + 4 + 4 * k = o + 4 * (k + 1) := by omega
        rw [hstep] at hk' ⊢
        exact hm (k + 1) (by omega) hk'
      exact ⟨e', .skip hfits (hm 0 (Nat.succ_pos j) hfits) hrest⟩
    · have hnil : os = [] := (h.unique (.finished (by omega))).1
      rw [hnil]
      exact ⟨o, .finished (by omega)⟩

/-- The loop recognises nothing where it meets no magic number. -/
theorem Parse.nothing
    (hm : ∀ k, o + 4 * k + dataBlockSize ≤ n → (readBlock buffer (o + 4 * k)).magic ≠ dataBlockMagic) :
    ∃ e, Parse buffer n o [] e :=
  Parse.skip_to (j := n) (.finished (by rw [dataBlockSize]; omega)) fun k _ => hm k

/-! ## One `recv` -/

/-- The `recv` at position `start` of the stream gives `bytes`. -/
structure Piece (stream : List UInt8) (start : Nat) (bytes : List UInt8) : Prop where
  drop : ∃ later, stream.drop start = bytes ++ later

theorem Piece.length_le {stream bytes : List UInt8} (h : Piece stream start bytes) :
    bytes = [] ∨ start + bytes.length ≤ stream.length := by
  obtain ⟨later, hdrop⟩ := h.drop
  have hlen := congrArg List.length hdrop
  rw [List.length_drop, List.length_append] at hlen
  cases bytes with
  | nil => exact .inl rfl
  | cons b bytes =>
    rw [List.length_cons] at hlen ⊢
    exact .inr (by omega)

/-- What the stream has at a position, the buffer has there. -/
theorem Piece.drop_take {stream bytes : List UInt8} (h : Piece stream start bytes) (o : Nat) :
    bytes.drop o = (stream.drop (start + o)).take (bytes.length - o) := by
  obtain ⟨later, hdrop⟩ := h.drop
  rw [← List.drop_drop, hdrop, List.take_drop]
  by_cases ho : o ≤ bytes.length
  · rw [Nat.add_sub_cancel' ho, List.take_left]
  · rw [List.drop_eq_nil_of_le (by omega), List.drop_eq_nil_of_le (by
      rw [List.length_take]
      omega)]

theorem Piece.magic {stream bytes : List UInt8} (h : Piece stream start bytes) (old : List UInt8)
    (ho : o + dataBlockSize ≤ bytes.length) :
    (readBlock (bytes ++ old) o).magic = (readBlock stream (start + o)).magic := by
  rw [dataBlockSize] at ho
  have hslice : slice (bytes ++ old) o 4 = slice stream (start + o) 4 := by
    rw [slice, slice, List.drop_append_of_le_length (by omega),
      List.take_append_of_le_length (by rw [List.length_drop]; omega), h.drop_take o, List.take_take,
      Nat.min_eq_left (by omega)]
  simp only [readBlock, readLe, hslice]

/-- A beginning of nothing or of a block is again one. -/
theorem Begun.take {rest : List UInt8} (h : Begun rest) (m : Nat) : Begun (rest.take m) := by
  rcases h with rfl | ⟨b, hb, hbegins, hne⟩
  · exact .inl List.take_nil
  · refine .inr ⟨b, hb, (List.take_prefix m rest).trans hbegins, fun heq => ?_⟩
    have hlen := congrArg List.length heq
    rw [List.length_take] at hlen
    exact hne (hbegins.eq_of_length_le (by omega))

theorem begun_take {b : DataBlock} (hb : IsBlock b) {m : Nat} (hm : m < b.bytes.length) :
    Begun (b.bytes.take m) := by
  refine .inr ⟨b, hb, List.take_prefix m _, fun heq => ?_⟩
  have hlen := congrArg List.length heq
  rw [List.length_take] at hlen
  omega

theorem Parse.of_cut {bytes : List UInt8} (old : List UInt8) (hbegun : Begun (bytes.drop o))
    (ho : o ≤ bytes.length) : Parse (bytes ++ old) bytes.length o [] o :=
  .of_begun hbegun (List.drop_append_of_le_length ho) (by rw [List.length_drop]; omega)

/-- At the start of a block, the loop recognises all that are there whole. -/
theorem Parse.of_start {bytes rest : List UInt8} (old : List UInt8) (start : Nat)
    (hb : ∀ b ∈ blocks, IsBlock b) (hr : Begun rest) (ho : o ≤ bytes.length)
    (h : bytes.drop o = (encodeAll blocks ++ rest).take (bytes.length - o)) :
    ∃ os e, Parse (bytes ++ old) bytes.length o os e ∧
      os.map (readBlock (bytes ++ old)) = within start bytes.length (start + o) blocks := by
  induction blocks generalizing o with
  | nil =>
    refine ⟨[], o, .of_cut old ?_ ho, rfl⟩
    rw [h]
    exact hr.take _
  | cons b blocks ih =>
    have hblock := hb b List.mem_cons_self
    rw [encodeAll_cons, List.append_assoc] at h
    by_cases hfits : b.bytes.length ≤ bytes.length - o
    · have hsplit : bytes.drop o = b.bytes ++
          (encodeAll blocks ++ rest).take (bytes.length - (o + b.bytes.length)) := by
        rw [h, List.take_append, List.take_of_length_le hfits, Nat.sub_sub]
      have hread : readBlock (bytes ++ old) o = b :=
        readBlock_eq hblock.count (by rw [List.drop_append_of_le_length ho, hsplit, List.append_assoc])
      have hsize : announced (bytes ++ old) o = b.bytes.length := by
        rw [announced, hread, b.bytes_length, hblock.count]
      obtain ⟨os, e, hp, hos⟩ := ih (fun b' hb' => hb b' (List.mem_cons_of_mem _ hb'))
        (o := o + b.bytes.length) (by omega) (by rw [← List.drop_drop, hsplit, List.drop_left])
      refine ⟨o :: os, e, .block (by rw [hread]; exact hblock.magic) (by omega) (by rwa [hsize]), ?_⟩
      rw [List.map_cons, hread, hos, within, if_pos (by omega), Nat.add_assoc, List.singleton_append]
    · refine ⟨[], o, .of_cut old ?_ ho, ?_⟩
      · rw [h, List.take_append_of_le_length (by omega)]
        exact begun_take hblock (by omega)
      · rw [within, if_neg (by omega), within_behind (by omega)]
        rfl

/-- From position `start` on, the magic number is found at these positions only. -/
def MarkedFrom (start : Nat) (positions : List Nat) (stream : List UInt8) : Prop :=
  ∀ q, start ≤ q → q < stream.length → (readBlock stream q).magic = dataBlockMagic → q ∈ positions

/-- A magic number in the bytes received is one of the stream. -/
theorem Piece.found {stream bytes : List UInt8} {positions : List Nat} (h : Piece stream start bytes)
    (hm : MarkedFrom start positions stream) (old : List UInt8) {k : Nat}
    (hk : 0 + 4 * k + dataBlockSize ≤ bytes.length)
    (hmagic : (readBlock (bytes ++ old) (0 + 4 * k)).magic = dataBlockMagic) :
    start + 4 * k ∈ positions := by
  rw [h.magic old hk, Nat.zero_add] at hmagic
  rw [dataBlockSize] at hk
  refine hm _ (by omega) ?_ hmagic
  rcases h.length_le with rfl | hle
  · exact absurd hk (by simp)
  · omega

section Parsing

variable {stream bytes rest : List UInt8} (h : Piece stream start bytes) (old : List UInt8)

include h

/-- The loop skips to the first block, when it starts at the right distance. -/
theorem Piece.parse_ahead (hb : ∀ b ∈ blocks, IsBlock b) (hr : Begun rest)
    (hs : stream.drop p = encodeAll blocks ++ rest) (hmod : start % 4 = p % 4) (hp : start ≤ p)
    (hm : MarkedFrom start (starts p blocks) stream) :
    ∃ os e, Parse (bytes ++ old) bytes.length 0 os e ∧
      os.map (readBlock (bytes ++ old)) = within start bytes.length p blocks := by
  suffices hreach : ∃ os e, Parse (bytes ++ old) bytes.length (p - start) os e ∧
      os.map (readBlock (bytes ++ old)) = within start bytes.length p blocks by
    obtain ⟨os, e, hparse, hos⟩ := hreach
    have hat : p - start = 0 + 4 * ((p - start) / 4) := by omega
    rw [hat] at hparse
    obtain ⟨e', hparse'⟩ := hparse.skip_to fun k hk hfits hmagic => by
      have := le_of_mem_starts (h.found hm old hfits hmagic)
      omega
    exact ⟨os, e', hparse', hos⟩
  have hpos : start + (p - start) = p := by omega
  by_cases hin : p - start ≤ bytes.length
  · have := Parse.of_start old start hb hr hin (by rw [h.drop_take, hpos, hs])
    rwa [hpos] at this
  · refine ⟨[], p - start, .finished (by omega), ?_⟩
    rw [within_behind (by omega)]
    rfl

/-- The blocks that start before the `recv` are passed over. -/
theorem Piece.parse_from (hb : ∀ b ∈ blocks, IsBlock b) (hr : Begun rest)
    (hs : stream.drop p = encodeAll blocks ++ rest) (hmod : start % 4 = p % 4)
    (hm : MarkedFrom start (starts p blocks) stream) :
    ∃ os e, Parse (bytes ++ old) bytes.length 0 os e ∧
      os.map (readBlock (bytes ++ old)) = within start bytes.length p blocks := by
  induction blocks generalizing p with
  | nil =>
    by_cases hp : start ≤ p
    · exact h.parse_ahead old hb hr hs hmod hp hm
    · obtain ⟨e, hparse⟩ := Parse.nothing fun k hk hmagic => by
        have := List.mem_singleton.mp (h.found hm old hk hmagic)
        omega
      exact ⟨[], e, hparse, rfl⟩
  | cons b blocks ih =>
    by_cases hp : start ≤ p
    · exact h.parse_ahead old hb hr hs hmod hp hm
    · rw [encodeAll_cons, List.append_assoc] at hs
      have hsize := b.bytes_length
      rw [dataBlockSize, adcSampleSize] at hsize
      rw [within_before (by omega)]
      refine ih (fun b' hb' => hb b' (List.mem_cons_of_mem _ hb')) ?_ (by omega) ?_
      · rw [← List.drop_drop, hs, List.drop_left]
      · intro q hq hlt hmagic
        rcases List.mem_cons.mp (hm q hq hlt hmagic) with rfl | hmem
        · exact absurd hq hp
        · exact hmem

/-- From anywhere else the loop passes by all of them. -/
theorem Piece.parse_misaligned {positions : List Nat} (hmod : ∀ q ∈ positions, q % 4 ≠ start % 4)
    (hm : MarkedFrom start positions stream) :
    ∃ e, Parse (bytes ++ old) bytes.length 0 [] e :=
  Parse.nothing fun k hk hmagic => by
    have := hmod _ (h.found hm old hk hmagic)
    omega

end Parsing

/-! ## The whole stream -/

/-- One turn of the receive loop. -/
theorem Server.receive_exact (s : Server) {stream bytes rest : List UInt8}
    (h : Piece stream start bytes) (hl : bytes.length ≤ bufferSize) (hb : ∀ b ∈ blocks, IsBlock b)
    (hr : Begun rest) (hs : stream = encodeAll blocks ++ rest)
    (hm : Marked (starts 0 blocks) stream) :
    ∃ t blocks', s.receive bytes = some t ∧
      blocks' = (if start % 4 = 0 then within start bytes.length 0 blocks else []) ∧
      t.recognised = s.recognised ++ blocks' ∧
      t.totalBlocks = s.totalBlocks + UInt64.ofNat blocks'.length ∧
      t.totalBytes = s.totalBytes + UInt64.ofNat bytes.length := by
  have hn : bytes.length < 2 ^ 32 := Nat.lt_of_le_of_lt hl (by decide)
  have hfrom : MarkedFrom start (starts 0 blocks) stream := fun q _ => hm q
  obtain ⟨os, e, hp, hparse⟩ := parse_spec (bytes ++ s.buffer.drop bytes.length) hn
  have hos : os.map (readBlock (bytes ++ s.buffer.drop bytes.length)) =
      (if start % 4 = 0 then within start bytes.length 0 blocks else []) := by
    split
    case isTrue hmod =>
      obtain ⟨os', e', hp', hos'⟩ := h.parse_from (s.buffer.drop bytes.length) hb hr
        (show stream.drop 0 = _ from hs) hmod hfrom
      rw [(hp.unique hp').1, hos']
    case isFalse hmod =>
      obtain ⟨e', hp'⟩ := h.parse_misaligned (s.buffer.drop bytes.length)
        (fun q hq => by have := mod_of_mem_starts hq; omega) hfrom
      rw [(hp.unique hp').1]
      rfl
  exact ⟨_, _, by rw [Server.receive, hparse]; rfl, hos, rfl, rfl, rfl⟩

theorem Server.receiveLoop_exact {stream rest : List UInt8} (hb : ∀ b ∈ blocks, IsBlock b)
    (hr : Begun rest) (hs : stream = encodeAll blocks ++ rest) (hm : Marked (starts 0 blocks) stream)
    {chunks : List (List UInt8)} (hc : stream.drop start = chunks.flatten)
    (hl : ∀ c ∈ chunks, c.length ≤ bufferSize) (s : Server) :
    ∃ t, s.receiveLoop (chunks.map .data) = some t ∧
      t.recognised = s.recognised ++ wholeBlocks 0 blocks start chunks ∧
      t.totalBlocks = s.totalBlocks + UInt64.ofNat (wholeBlocks 0 blocks start chunks).length ∧
      t.totalBytes = s.totalBytes + UInt64.ofNat chunks.flatten.length := by
  induction chunks generalizing start s with
  | nil => exact ⟨s, rfl, by simp [wholeBlocks], by simp [wholeBlocks], by simp⟩
  | cons c chunks ih =>
    rw [List.flatten_cons] at hc
    obtain ⟨u, found, hu, hfound, hrec, hcount, hbytes⟩ :=
      s.receive_exact ⟨_, hc⟩ (hl c List.mem_cons_self) hb hr hs hm
    obtain ⟨t, ht, hrec', hcount', hbytes'⟩ := ih
      (by rw [← List.drop_drop, hc, List.drop_left]) (fun c' hc' => hl c' (List.mem_cons_of_mem _ hc')) u
    refine ⟨t, ?_, ?_, ?_, ?_⟩
    · rw [List.map_cons, Server.receiveLoop, hu]
      exact ht
    · rw [hrec', hrec, wholeBlocks, hfound, List.append_assoc]
    · rw [hcount', hcount, wholeBlocks, ← hfound, List.length_append, UInt64.ofNat_add, UInt64.add_assoc]
    · rw [hbytes', hbytes, List.flatten_cons, List.length_append, UInt64.ofNat_add, UInt64.add_assoc]

/-- However the stream of a connection is cut, the server recognises exactly the blocks that are
whole in a `recv` that starts at a multiple of four, if the magic number is nowhere else. -/
theorem recognised_exactly (c : Connection) (blocks : List DataBlock) (h : Carries c blocks)
    (hm : Marked (starts 0 blocks) c.bytes) (chunks : List (List UInt8)) (hc : Cutting c.bytes chunks)
    (memory : List UInt8) :
    ∃ t, (Server.init memory).receiveLoop (chunks.map .data) = some t ∧
      t.recognised = wholeBlocks 0 blocks 0 chunks ∧
      t.totalBlocks = UInt64.ofNat (wholeBlocks 0 blocks 0 chunks).length ∧
      t.totalBytes = UInt64.ofNat c.bytes.length := by
  obtain ⟨rest, hs, hr⟩ := h.stream
  obtain ⟨t, ht, hrec, hcount, hbytes⟩ := Server.receiveLoop_exact h.isBlock hr hs hm
    (show c.bytes.drop 0 = _ from hc.whole.symm) (fun c' hc' => (hc.size c' hc').2) (Server.init memory)
  refine ⟨t, ht, hrec, ?_, ?_⟩
  · rw [hcount]
    exact UInt64.zero_add _
  · rw [hbytes, hc.whole]
    exact UInt64.zero_add _

/-- Three blocks of one sample each, of 40 bytes. -/
def threeBlocks : List DataBlock :=
  List.replicate 3 (fillBlock 5
    [{ timestamp := 1, value := 2, sequence := 3, channel := 0, flags := 0 }] 1)

theorem threeBlocks_isBlock : ∀ b ∈ threeBlocks, IsBlock b := by
  intro b hb
  rw [List.eq_of_mem_replicate hb]
  exact ⟨rfl, rfl, rfl, rfl, Nat.le_refl 1, by decide⟩

theorem threeBlocks_marked : Marked (starts 0 threeBlocks) (encodeAll threeBlocks) := by
  show ∀ p < _, _
  decide +kernel

/-- The second block is cut in its fifth byte. -/
def cutInSecond : List (List UInt8) :=
  [(encodeAll threeBlocks).take 44, (encodeAll threeBlocks).drop 44]

theorem cutInSecond_cutting : Cutting (encodeAll threeBlocks) cutInSecond :=
  ⟨by decide, by decide⟩

theorem recognised_exactly_three :
    ∃ t, (Server.init emptyBuffer).receiveLoop (cutInSecond.map .data) = some t ∧
      t.recognised.length = 2 ∧ t.totalBytes = 120 := by
  obtain ⟨t, ht, hrec, _, hbytes⟩ := recognised_exactly { fd := 3, bytes := encodeAll threeBlocks }
    threeBlocks (.whole threeBlocks_isBlock) threeBlocks_marked cutInSecond cutInSecond_cutting
    emptyBuffer
  exact ⟨t, ht, by rw [hrec]; decide, by rw [hbytes]; decide⟩

/-! ## How much a cut costs -/

/-- From `start` on the blocks fall into those whole before `start + n`, and those from the first one
that is not. -/
theorem within_split (h : start ≤ p) (n : Nat) (blocks : List DataBlock) :
    ∃ xs ys, blocks = xs ++ ys ∧ within start n p blocks = xs ∧
      (xs = [] ∨ p + (encodeAll xs).length ≤ start + n) ∧
      (ys = [] ∨ ∃ y zs, ys = y :: zs ∧ start + n < p + (encodeAll xs).length + y.bytes.length) := by
  induction blocks generalizing p with
  | nil => exact ⟨[], [], rfl, rfl, .inl rfl, .inl rfl⟩
  | cons b blocks ih =>
    by_cases hfits : p + b.bytes.length ≤ start + n
    · obtain ⟨xs, ys, rfl, hw, hxs, hend⟩ := ih (p := p + b.bytes.length) (by omega)
      rw [Nat.add_assoc p] at hxs hend
      refine ⟨b :: xs, ys, rfl, by rw [within, if_pos ⟨h, hfits⟩, hw]; rfl, .inr ?_, ?_⟩
      · rw [encodeAll_cons, List.length_append]
        rcases hxs with rfl | hxs
        · exact hfits
        · exact hxs
      · rwa [encodeAll_cons, List.length_append]
    · refine ⟨[], b :: blocks, rfl, ?_, .inl rfl, .inr ⟨b, blocks, rfl, Nat.lt_of_not_le hfits⟩⟩
      rw [within, if_neg (by omega), within_behind (by omega)]
      rfl

theorem wholeBlocks_nil (p start : Nat) (chunks : List (List UInt8)) :
    wholeBlocks p [] start chunks = [] := by
  induction chunks generalizing start with
  | nil => rfl
  | cons c chunks ih => rw [wholeBlocks, ih, within, ite_self, List.append_nil]

/-- Blocks that start before `start` are in no later `recv`. -/
theorem wholeBlocks_skip (xs ys : List DataBlock) (h : p + (encodeAll xs).length ≤ start)
    (chunks : List (List UInt8)) :
    wholeBlocks p (xs ++ ys) start chunks = wholeBlocks (p + (encodeAll xs).length) ys start chunks := by
  induction chunks generalizing start with
  | nil => rfl
  | cons c chunks ih => rw [wholeBlocks, wholeBlocks, within_skip xs ys h, ih (by omega)]

theorem wholeBlocks_before (h : p < start) (b : DataBlock) (blocks : List DataBlock)
    (chunks : List (List UInt8)) :
    wholeBlocks p (b :: blocks) start chunks = wholeBlocks (p + b.bytes.length) blocks start chunks := by
  induction chunks generalizing start with
  | nil => rfl
  | cons c chunks ih => rw [wholeBlocks, wholeBlocks, within_before h, ih (by omega)]

/-- Behind a `recv`: the blocks whole in it, at most one that it cuts, and those from its end on. -/
theorem wholeBlocks_next (h : start ≤ p) (n : Nat) (blocks : List DataBlock)
    (chunks : List (List UInt8)) :
    ∃ xs cut ys p', blocks = xs ++ (cut ++ ys) ∧ within start n p blocks = xs ∧ cut.length ≤ 1 ∧
      (cut = [] ∨ start + n < p + (encodeAll blocks).length) ∧ start + n ≤ p' ∧
      p' + (encodeAll ys).length ≤ max (p + (encodeAll blocks).length) (start + n) ∧
      wholeBlocks p blocks (start + n) chunks = wholeBlocks p' ys (start + n) chunks := by
  obtain ⟨xs, ys, rfl, hw, hin, hend⟩ := within_split h n blocks
  have hskip : wholeBlocks p (xs ++ ys) (start + n) chunks =
      wholeBlocks (p + (encodeAll xs).length) ys (start + n) chunks := by
    rcases hin with rfl | hin
    · rfl
    · exact wholeBlocks_skip xs ys hin chunks
  rw [encodeAll_append, List.length_append]
  by_cases hnext : start + n ≤ p + (encodeAll xs).length
  · exact ⟨xs, [], ys, _, rfl, hw, Nat.zero_le 1, .inl rfl, hnext, by omega, hskip⟩
  rcases hend with rfl | ⟨y, zs, rfl, hcut⟩
  · -- all blocks have come
    refine ⟨xs, [], [], start + n, rfl, hw, Nat.zero_le 1, .inl rfl, Nat.le_refl _, ?_, ?_⟩
    · exact Nat.le_max_right _ _
    · rw [hskip, wholeBlocks_nil, wholeBlocks_nil]
  · rw [encodeAll_cons, List.length_append]
    refine ⟨xs, [y], zs, p + (encodeAll xs).length + y.bytes.length, rfl, hw, Nat.le_refl 1,
      .inr (by omega), by omega, by omega, ?_⟩
    rw [hskip, wholeBlocks_before (by omega)]

/-- The blocks recognised are in the order of the stream, and each of them once. -/
theorem wholeBlocks_sublist (chunks : List (List UInt8)) (h : start ≤ p) (blocks : List DataBlock) :
    (wholeBlocks p blocks start chunks).Sublist blocks := by
  induction chunks generalizing start p blocks with
  | nil => exact List.nil_sublist _
  | cons c chunks ih =>
    obtain ⟨xs, cut, ys, p', hsplit, hw, _, _, hle, _, hnext⟩ :=
      wholeBlocks_next h c.length blocks chunks
    rw [wholeBlocks, hnext, hw, hsplit]
    refine .append ?_ ((ih hle ys).trans (List.sublist_append_right cut ys))
    split
    · exact .refl xs
    · exact List.nil_sublist xs

/-- When all start at multiples of four, each end of a `recv` costs one block at most. -/
theorem length_le_wholeBlocks {chunks : List (List UInt8)} (hc : ∀ c ∈ chunks, c.length % 4 = 0)
    (hstart : start % 4 = 0) (h : start ≤ p)
    (hcover : p + (encodeAll blocks).length ≤ start + chunks.flatten.length) :
    blocks.length ≤ (wholeBlocks p blocks start chunks).length + (chunks.length - 1) := by
  induction chunks generalizing start p blocks with
  | nil =>
    cases blocks with
    | nil => exact Nat.zero_le _
    | cons b blocks =>
      have hpos := bytes_pos b
      rw [encodeAll_cons, List.length_append, List.flatten_nil, List.length_nil] at hcover
      omega
  | cons c chunks ih =>
    have hmod := hc c List.mem_cons_self
    obtain ⟨xs, cut, ys, p', hsplit, hw, hone, hcut, hle, hend, hnext⟩ :=
      wholeBlocks_next h c.length blocks chunks
    rw [List.flatten_cons, List.length_append, ← Nat.add_assoc] at hcover
    have hrest : ys.length ≤ _ :=
      ih (fun c' hc' => hc c' (List.mem_cons_of_mem _ hc')) (by omega) hle (by omega)
    rw [wholeBlocks, if_pos hstart, hw, hnext, List.length_append, List.length_cons, hsplit,
      List.length_append, List.length_append]
    -- a block is cut only when another piece follows
    have hmore : cut = [] ∨ 1 ≤ chunks.length := by
      rcases hcut with hcut | hcut
      · exact .inl hcut
      · refine .inr (List.length_pos_iff.mpr ?_)
        rintro rfl
        rw [List.flatten_nil, List.length_nil] at hcover
        omega
    rcases hmore with rfl | hmore
    · rw [List.length_nil]
      omega
    · omega

/-- When each `recv` gives a multiple of four bytes, at most one block is lost for each but the last,
and the others are recognised in their order. -/
theorem lost_le_cuts (c : Connection) (blocks : List DataBlock) (h : Carries c blocks)
    (hm : Marked (starts 0 blocks) c.bytes) (chunks : List (List UInt8)) (hc : Cutting c.bytes chunks)
    (hmod : ∀ bytes ∈ chunks, bytes.length % 4 = 0) (memory : List UInt8) :
    ∃ found, recognised memory chunks = some found ∧ found.Sublist blocks ∧
      blocks.length ≤ found.length + (chunks.length - 1) := by
  obtain ⟨rest, hs, hr⟩ := h.stream
  obtain ⟨t, ht, hrec, _⟩ := Server.receiveLoop_exact h.isBlock hr hs hm
    (show c.bytes.drop 0 = _ from hc.whole.symm) (fun c' hc' => (hc.size c' hc').2) (Server.init memory)
  refine ⟨_, by rw [recognised, ht, Option.map_some, hrec]; rfl,
    wholeBlocks_sublist chunks (Nat.le_refl 0) blocks, ?_⟩
  refine length_le_wholeBlocks hmod rfl (Nat.le_refl 0) ?_
  rw [hc.whole, hs, List.length_append]
  omega

theorem lost_le_cuts_three :
    ∃ found, recognised emptyBuffer cutInSecond = some found ∧ found.Sublist threeBlocks ∧
      threeBlocks.length ≤ found.length + (cutInSecond.length - 1) :=
  lost_le_cuts { fd := 3, bytes := encodeAll threeBlocks } threeBlocks (.whole threeBlocks_isBlock)
    threeBlocks_marked cutInSecond cutInSecond_cutting (by decide) emptyBuffer

end FastRing
