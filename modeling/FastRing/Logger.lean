import FastRing.CommandLine
import FastRing.Lib.CString

/-! # A line of the log

`log_message` up to its lock. It puts a header and the message into a buffer of 4096 bytes with two
calls of the `printf` family, the second behind the length that the first reports, and ends the line
when there is room. A store outside the buffer is `none`. The header is bounded by nothing but the
length of the file's name, and exactly when it is longer than the buffer the second call writes
outside. -/

namespace FastRing

open CString

/-- The value of the enumerator. -/
def LogLevel.value : LogLevel → Nat
  | .debug => 0
  | .info => 1
  | .warn => 2
  | .error => 3
  | .fatal => 4

/-- `g_level_names`. -/
def LogLevel.name : LogLevel → List Char
  | .debug => "DEBUG".toList
  | .info => "INFO".toList
  | .warn => "WARN".toList
  | .error => "ERROR".toList
  | .fatal => "FATAL".toList

/-- The arguments of `log_message`, with the message that its format comes to, and the clock. -/
structure LogCall where
  level : LogLevel
  file : List Char
  line : Int32
  message : List Char
  timestampMs : UInt64
  deriving DecidableEq, Repr

/-- The name of the file without its path. -/
def baseName (file : List Char) : List Char :=
  let slash := strrchr '/' file
  let backslash := strrchr '\\' file
  let last :=
    match backslash, slash with
    | some b, some s => if s < b then some b else some s
    | some b, none => some b
    | none, s => s
  match last with
  | some i => file.drop (i + 1)
  | none => file

/-- The arguments of the header that tell the time of day. -/
def hours (ms : UInt64) : UInt32 := (ms / 3600000 % 24).toUInt32
def minutes (ms : UInt64) : UInt32 := (ms / 60000 % 60).toUInt32
def seconds (ms : UInt64) : UInt32 := (ms / 1000 % 60).toUInt32
def millis (ms : UInt64) : UInt32 := (ms % 1000).toUInt32

/-- `"%02u:%02u:%02u.%03u"`. -/
def clockText (ms : UInt64) : List Char :=
  padded 2 (hours ms).toNat ++ ':' :: padded 2 (minutes ms).toNat ++ ':' ::
    padded 2 (seconds ms).toNat ++ '.' :: padded 3 (millis ms).toNat

/-- `"[<clock>] [%s] [%s:%d] "`. -/
def LogCall.header (c : LogCall) : List Char :=
  '[' :: clockText c.timestampMs ++ "] [".toList ++ c.level.name ++ "] [".toList ++
    baseName c.file ++ ':' :: signed c.line.toInt ++ "] ".toList

/-- `sizeof(buffer)`. -/
def logBufferSize : Nat := 4096

/-- `log_message` with the minimum level `threshold` and whatever is in its buffer at first: nothing
for a level below, else the string that it prints. -/
def logMessage (threshold : LogLevel) (c : LogCall) (buffer : List Char) :
    Option (Option (List Char)) :=
  if c.level.value < threshold.value then some none
  else do
    let buffer ← snprintf buffer 0 logBufferSize c.header
    let offset := snprintfLength c.header
    -- the difference is a `size_t`
    let size := ((logBufferSize : Int) - offset) % (2 ^ 64 : Int)
    let buffer ← snprintf buffer offset size.toNat c.message
    let len := (read buffer).length
    let buffer := if len < logBufferSize - 1 then terminate buffer len '\n' else buffer
    return some (read buffer)

/-- What a line should be: the header and the message, cut to 4095 bytes, and ended if it is shorter
than that. -/
def LogCall.text (c : LogCall) : List Char :=
  let text := read ((c.header ++ c.message).take (logBufferSize - 1))
  if text.length < logBufferSize - 1 then text ++ ['\n'] else text

/-! ## The file's name -/

/-- A path cut behind a separator. -/
theorem cut_behind {file : List Char} {sep : Char} {i : Nat}
    (h : file = file.take i ++ sep :: file.drop (i + 1)) :
    file = (file.take i ++ [sep]) ++ file.drop (i + 1) := by
  rw [List.append_assoc, List.singleton_append]
  exact h

/-- The name is what stands behind the last separator. -/
theorem baseName_spec (file : List Char) :
    ∃ dir, file = dir ++ baseName file ∧ '/' ∉ baseName file ∧ '\\' ∉ baseName file ∧
      (dir = [] ∨ ∃ up, dir = up ++ ['/'] ∨ dir = up ++ ['\\']) := by
  unfold baseName
  cases hs : strrchr '/' file with
  | none =>
    have hslash := strrchr_none.mp hs
    cases hb : strrchr '\\' file with
    | none => exact ⟨[], rfl, hslash, strrchr_none.mp hb, .inl rfl⟩
    | some b =>
      obtain ⟨hsplit, hbehind⟩ := strrchr_some hb
      exact ⟨_, cut_behind hsplit, fun h => hslash (List.mem_of_mem_drop h),
        hbehind _ (Nat.lt_succ_self b), .inr ⟨_, .inr rfl⟩⟩
  | some i =>
    obtain ⟨hsplit, hbehind⟩ := strrchr_some hs
    cases hb : strrchr '\\' file with
    | none =>
      exact ⟨_, cut_behind hsplit, hbehind _ (Nat.lt_succ_self i),
        fun h => strrchr_none.mp hb (List.mem_of_mem_drop h), .inr ⟨_, .inl rfl⟩⟩
    | some b =>
      obtain ⟨hsplit', hbehind'⟩ := strrchr_some hb
      by_cases hlt : i < b
      · simp only [hlt, if_true]
        exact ⟨_, cut_behind hsplit', hbehind _ (by omega), hbehind' _ (Nat.lt_succ_self b),
          .inr ⟨_, .inr rfl⟩⟩
      · simp only [hlt, if_false]
        exact ⟨_, cut_behind hsplit, hbehind _ (Nat.lt_succ_self i), hbehind' _ (by omega),
          .inr ⟨_, .inl rfl⟩⟩

/-! ## The header -/

theorem isDigit_ne_nul {c : Char} (h : c.isDigit = true) : c ≠ nul := by
  rintro rfl
  exact absurd h (by decide)

/-- Nothing ends the header early. -/
theorem nul_not_mem_header (c : LogCall) (h : nul ∉ c.file) : nul ∉ c.header := by
  have hpad : ∀ width n, nul ∉ padded width n := fun width n hm => isDigit_ne_nul (mem_padded hm) rfl
  have hline : nul ∉ signed c.line.toInt := by
    intro hm
    rcases mem_signed hm with hm | hm
    · exact absurd hm (by decide)
    · exact isDigit_ne_nul hm rfl
  have hname : nul ∉ baseName c.file := by
    obtain ⟨dir, hdir, _⟩ := baseName_spec c.file
    intro hm
    rw [hdir] at h
    exact h (List.mem_append_right _ hm)
  have hlevel : nul ∉ c.level.name := by cases c.level <;> decide
  have hbetween : nul ∉ "] [".toList := by decide
  have hend : nul ∉ "] ".toList := by decide
  simp only [LogCall.header, clockText, List.mem_append, List.mem_cons, hpad, hline, hname, hlevel,
    hbetween, hend, or_false]
  decide

/-! The numbers of the clock, none of which is cut. -/

theorem hours_toNat (ms : UInt64) : (hours ms).toNat = ms.toNat / 3600000 % 24 := by
  have hlt : ms.toNat / 3600000 % 24 < 2 ^ 32 := Nat.lt_trans (Nat.mod_lt _ (by decide)) (by decide)
  rw [hours, UInt64.toNat_toUInt32, UInt64.toNat_mod, UInt64.toNat_div]
  exact Nat.mod_eq_of_lt hlt

theorem minutes_toNat (ms : UInt64) : (minutes ms).toNat = ms.toNat / 60000 % 60 := by
  have hlt : ms.toNat / 60000 % 60 < 2 ^ 32 := Nat.lt_trans (Nat.mod_lt _ (by decide)) (by decide)
  rw [minutes, UInt64.toNat_toUInt32, UInt64.toNat_mod, UInt64.toNat_div]
  exact Nat.mod_eq_of_lt hlt

theorem seconds_toNat (ms : UInt64) : (seconds ms).toNat = ms.toNat / 1000 % 60 := by
  have hlt : ms.toNat / 1000 % 60 < 2 ^ 32 := Nat.lt_trans (Nat.mod_lt _ (by decide)) (by decide)
  rw [seconds, UInt64.toNat_toUInt32, UInt64.toNat_mod, UInt64.toNat_div]
  exact Nat.mod_eq_of_lt hlt

theorem millis_toNat (ms : UInt64) : (millis ms).toNat = ms.toNat % 1000 := by
  have hlt : ms.toNat % 1000 < 2 ^ 32 := Nat.lt_trans (Nat.mod_lt _ (by decide)) (by decide)
  rw [millis, UInt64.toNat_toUInt32, UInt64.toNat_mod]
  exact Nat.mod_eq_of_lt hlt

/-- The fields of the clock have their widths. -/
theorem clock_widths (ms : UInt64) :
    (padded 2 (hours ms).toNat).length = 2 ∧ (padded 2 (minutes ms).toNat).length = 2 ∧
      (padded 2 (seconds ms).toNat).length = 2 ∧ (padded 3 (millis ms).toNat).length = 3 := by
  rw [hours_toNat, minutes_toNat, seconds_toNat, millis_toNat]
  refine ⟨padded_length (by decide) ?_, padded_length (by decide) ?_, padded_length (by decide) ?_,
    padded_length (by decide) (Nat.mod_lt _ (by decide))⟩
  · exact Nat.lt_trans (Nat.mod_lt _ (by decide)) (by decide)
  · exact Nat.lt_trans (Nat.mod_lt _ (by decide)) (by decide)
  · exact Nat.lt_trans (Nat.mod_lt _ (by decide)) (by decide)

theorem clockText_length (ms : UInt64) : (clockText ms).length = 12 := by
  obtain ⟨hh, hm, hs, hms⟩ := clock_widths ms
  simp only [clockText, List.length_append, List.length_cons, hh, hm, hs, hms]

/-- The clock tells the time of day. -/
theorem clockText_injective {ms ms' : UInt64} (h : clockText ms = clockText ms') :
    ms.toNat % 86400000 = ms'.toNat % 86400000 := by
  obtain ⟨hh, hm, hs, _⟩ := clock_widths ms
  obtain ⟨hh', hm', hs', _⟩ := clock_widths ms'
  simp only [clockText, List.append_assoc, List.cons_append] at h
  obtain ⟨h₁, h⟩ := List.append_inj h (hh.trans hh'.symm)
  obtain ⟨h₂, h⟩ := List.append_inj (List.cons.inj h).2 (hm.trans hm'.symm)
  obtain ⟨h₃, h⟩ := List.append_inj (List.cons.inj h).2 (hs.trans hs'.symm)
  have h₁ := padded_injective h₁
  have h₂ := padded_injective h₂
  have h₃ := padded_injective h₃
  have h₄ := padded_injective (List.cons.inj h).2
  rw [hours_toNat, hours_toNat] at h₁
  rw [minutes_toNat, minutes_toNat] at h₂
  rw [seconds_toNat, seconds_toNat] at h₃
  rw [millis_toNat, millis_toNat] at h₄
  omega

theorem signed_length_le (n : Int32) : (signed n.toInt).length ≤ 11 := by
  have hlo := n.le_toInt
  have hhi := n.toInt_lt
  have hdigits : (Nat.toDigits 10 n.toInt.natAbs).length ≤ 10 :=
    (Nat.length_toDigits_le_iff (by decide) (by decide)).mpr (by omega)
  rw [signed]
  split
  · rw [List.length_cons]
    omega
  · omega

/-- All but the file's name takes 38 bytes at most. -/
theorem header_length_le (c : LogCall) : c.header.length ≤ (baseName c.file).length + 38 := by
  have hlevel : c.level.name.length ≤ 5 := by cases c.level <;> decide
  have hline := signed_length_le c.line
  have hbetween : "] [".toList.length = 3 := by decide
  have hend : "] ".toList.length = 2 := by decide
  simp only [LogCall.header, List.length_append, List.length_cons, clockText_length, hbetween, hend]
  omega

/-- No two levels start with the same letter. -/
theorem levelName_inj {l l' : LogLevel} {xs ys : List Char} (h : l.name ++ xs = l'.name ++ ys) :
    l = l' ∧ xs = ys := by
  have hne : ∀ l : LogLevel, l.name ≠ [] := by intro l; cases l <;> decide
  have hhead : l.name.head? = l'.name.head? := by
    rw [← List.head?_append_of_ne_nil _ (hne l), h, List.head?_append_of_ne_nil _ (hne l')]
  have hlevel : l = l' := by
    cases l <;> cases l' <;> first | rfl | exact absurd hhead (by decide)
  subst hlevel
  exact ⟨rfl, List.append_cancel_left h⟩

/-- The header tells the time of day, the level, the name of the file and the line, and where it
ends. -/
theorem header_inj {c c' : LogCall} {xs ys : List Char} (hn : ':' ∉ baseName c.file)
    (hn' : ':' ∉ baseName c'.file) (h : c.header ++ xs = c'.header ++ ys) :
    c.timestampMs.toNat % 86400000 = c'.timestampMs.toNat % 86400000 ∧ c.level = c'.level ∧
      baseName c.file = baseName c'.file ∧ c.line = c'.line ∧ xs = ys := by
  simp only [LogCall.header, List.append_assoc, List.cons_append] at h
  obtain ⟨hclock, h⟩ := List.append_inj (List.cons.inj h).2
    ((clockText_length _).trans (clockText_length _).symm)
  obtain ⟨hlevel, h⟩ := levelName_inj (List.append_cancel_left h)
  obtain ⟨hname, h⟩ := first_split hn hn' (List.append_cancel_left h)
  have hbracket : ∀ n : Int, ']' ∉ signed n := by
    intro n hm
    rcases mem_signed hm with hm | hm
    · exact absurd hm (by decide)
    · exact absurd hm (by decide)
  obtain ⟨hline, h⟩ := first_split (hbracket _) (hbracket _) h
  exact ⟨clockText_injective hclock, hlevel, hname, Int32.toInt_inj.mp (signed_injective hline),
    (List.cons.inj h).2⟩

/-! ## The line -/

/-- The end of the line, when the buffer holds its text. -/
theorem finish_line {c : LogCall} {buffer : List Char} (hb : buffer.length = logBufferSize)
    (hn : nul ∈ buffer)
    (hr : read buffer = read ((c.header ++ c.message).take (logBufferSize - 1))) :
    read (if (read buffer).length < logBufferSize - 1 then terminate buffer (read buffer).length '\n'
      else buffer) = c.text := by
  rw [LogCall.text, ← hr]
  by_cases hlt : (read buffer).length < logBufferSize - 1
  · rw [if_pos hlt, if_pos hlt, read_terminate (by decide) hn (by omega)]
  · rw [if_neg hlt, if_neg hlt]

/-- The first call cuts the header, if need be, and reports the length it would have had. -/
theorem header_stored {buffer : List Char} (hb : buffer.length = logBufferSize) (c : LogCall) :
    ∃ buffer' rest, snprintf buffer 0 logBufferSize c.header = some buffer' ∧
      buffer' = c.header.take (logBufferSize - 1) ++ nul :: rest ∧ buffer'.length = logBufferSize := by
  obtain ⟨rest, hfirst⟩ := snprintf_eq buffer c.header (show 0 < logBufferSize by decide)
    (show 0 + logBufferSize ≤ buffer.length by rw [hb, Nat.zero_add])
  exact ⟨_, rest, hfirst, rfl, by rw [snprintf_length hfirst, hb]⟩

/-- A header that fits into the buffer. -/
theorem logMessage_fits {threshold : LogLevel} {c : LogCall} {buffer : List Char}
    (hb : buffer.length = logBufferSize) (hl : threshold.value ≤ c.level.value)
    (hf : nul ∉ c.file) (h : c.header.length ≤ logBufferSize) :
    logMessage threshold c buffer = some (some c.text) := by
  have hsize : logBufferSize = 4096 := rfl
  have hread := read_eq_self (nul_not_mem_header c hf)
  obtain ⟨buffer', rest, hfirst, hheader, hlen⟩ := header_stored hb c
  have hoffset : snprintfLength c.header = (c.header.length : Int) := if_pos (by omega)
  have hroom : (((logBufferSize : Int) - (c.header.length : Int)) % (2 ^ 64 : Int)).toNat =
      logBufferSize - c.header.length := by omega
  rw [logMessage, if_neg (by omega), hfirst]
  simp only [Option.bind_eq_bind, Option.bind_some, hoffset, hroom]
  by_cases hfull : c.header.length = logBufferSize
  · -- the message gets no room, not even for the end of its string
    have hsecond : snprintf buffer' c.header.length (logBufferSize - c.header.length) c.message =
        some buffer' := if_pos (by omega)
    have htake : (c.header ++ c.message).take (logBufferSize - 1) =
        c.header.take (logBufferSize - 1) := List.take_append_of_le_length (by omega)
    rw [hsecond, Option.bind_some, finish_line hlen (by rw [hheader]; simp) (by
      rw [hheader, read_stop, htake])]
    rfl
  · obtain ⟨rest', hsecond⟩ := snprintf_eq buffer' c.message
      (show 0 < logBufferSize - c.header.length by omega)
      (show c.header.length + (logBufferSize - c.header.length) ≤ buffer'.length by omega)
    have hfront : buffer'.take c.header.length = c.header := by
      rw [hheader, List.take_of_length_le (Nat.le_sub_one_of_lt (by omega)), List.take_left]
    have htake : (c.header ++ c.message).take (logBufferSize - 1) =
        c.header ++ c.message.take (logBufferSize - c.header.length - 1) := by
      rw [List.take_append, List.take_of_length_le (by omega), Nat.sub_right_comm]
    rw [hfront] at hsecond
    have hlen' := (snprintf_length hsecond).trans hlen
    rw [hsecond, Option.bind_some, finish_line hlen' (by simp) (by rw [read_stop, htake])]
    rfl

/-- One that does not fit. -/
theorem logMessage_overruns {threshold : LogLevel} {c : LogCall} {buffer : List Char}
    (hb : buffer.length = logBufferSize) (hl : threshold.value ≤ c.level.value)
    (h : logBufferSize < c.header.length) : logMessage threshold c buffer = none := by
  have hsize : logBufferSize = 4096 := rfl
  obtain ⟨buffer', rest, hfirst, hheader, hlen⟩ := header_stored hb c
  have hsecond : snprintf buffer' (snprintfLength c.header)
      (((logBufferSize : Int) - snprintfLength c.header) % (2 ^ 64 : Int)).toNat c.message = none := by
    unfold snprintfLength
    split
    case isTrue hint => exact snprintf_outside (by omega) (.inr (by omega)) _
    case isFalse => exact snprintf_outside (by omega) (.inl (by omega)) _
  rw [logMessage, if_neg (by omega), hfirst]
  simp only [Option.bind_eq_bind, Option.bind_some, hsecond, Option.bind_none]

/-- Every call at its level or above: it stays within its buffer exactly when its header is at most as
long as that, and it is, with a file name of up to 4058 bytes. Then it prints the header and the
message, cut to 4095 bytes, with the end of the line if there is room. -/
theorem log_line_exact (threshold : LogLevel) (c : LogCall) (buffer : List Char)
    (hb : buffer.length = logBufferSize) (hl : threshold.value ≤ c.level.value)
    (hf : nul ∉ c.file) :
    (logMessage threshold c buffer = none ↔ logBufferSize < c.header.length) ∧
      (c.header.length ≤ logBufferSize → logMessage threshold c buffer = some (some c.text)) ∧
      ((baseName c.file).length ≤ 4058 → c.header.length ≤ logBufferSize) := by
  refine ⟨⟨fun h => ?_, logMessage_overruns hb hl⟩, logMessage_fits hb hl hf, fun h => ?_⟩
  · by_contra hfit
    rw [logMessage_fits hb hl hf (Nat.le_of_not_lt hfit)] at h
    cases h
  · have hsize : logBufferSize = 4096 := rfl
    have := header_length_le c
    omega

/-- A message of the network worker. -/
def connecting : LogCall :=
  { level := .info, file := "src/thread/thread_workers.c".toList, line := 188
    message := "Attempting to connect to server...".toList, timestampMs := 3723004 }

theorem log_line_exact_connecting :
    logMessage .info connecting (List.replicate logBufferSize 'x') = some (some
      "[01:02:03.004] [INFO] [thread_workers.c:188] Attempting to connect to server...\n".toList) := by
  obtain ⟨_, hline, hfits⟩ := log_line_exact .info connecting (List.replicate logBufferSize 'x')
    (List.length_replicate ..) (Nat.le_refl _) (by decide)
  rw [hline (hfits (by decide))]
  decide

/-- A line that is not cut is its header, its message and the end of the line. -/
theorem LogCall.text_eq {c : LogCall} (hf : nul ∉ c.file) (hm : nul ∉ c.message)
    (h : c.header.length + c.message.length < logBufferSize - 1) :
    c.text = c.header ++ (c.message ++ ['\n']) := by
  have hread : read ((c.header ++ c.message).take (logBufferSize - 1)) = c.header ++ c.message := by
    rw [List.take_of_length_le (by rw [List.length_append]; omega)]
    refine read_eq_self fun hmem => ?_
    rcases List.mem_append.mp hmem with hmem | hmem
    · exact nul_not_mem_header c hf hmem
    · exact hm hmem
  rw [LogCall.text, hread, if_pos (by rw [List.length_append]; omega), List.append_assoc]

/-- A call with strings in its arguments, no colon in the name of the file and a line that is not
cut. -/
structure LogCall.Plain (c : LogCall) : Prop where
  file : nul ∉ c.file
  name : ':' ∉ baseName c.file
  message : nul ∉ c.message
  fits : c.header.length + c.message.length < logBufferSize - 1

theorem LogCall.Plain.text_inj {c c' : LogCall} (hc : c.Plain) (hc' : c'.Plain)
    (h : c.text = c'.text) :
    c.timestampMs.toNat % 86400000 = c'.timestampMs.toNat % 86400000 ∧ c.level = c'.level ∧
      baseName c.file = baseName c'.file ∧ c.line = c'.line ∧ c.message = c'.message := by
  rw [text_eq hc.file hc.message hc.fits, text_eq hc'.file hc'.message hc'.fits] at h
  obtain ⟨hclock, hlevel, hname, hline, hrest⟩ := header_inj hc.name hc'.name h
  exact ⟨hclock, hlevel, hname, hline, List.append_cancel_right hrest⟩

/-- The line that a call prints is its text. -/
theorem logMessage_printed {threshold : LogLevel} {c : LogCall} {buffer line : List Char}
    (hb : buffer.length = logBufferSize) (hc : c.Plain)
    (h : logMessage threshold c buffer = some (some line)) : c.text = line := by
  have hfits := hc.fits
  by_cases hl : c.level.value < threshold.value
  · rw [logMessage, if_pos hl] at h
    cases h
  · rw [logMessage_fits hb (Nat.le_of_not_lt hl) hc.file (by omega)] at h
    exact Option.some.inj (Option.some.inj h)

/-- From lines that are not cut everything can be read back: two calls that print the same line,
whatever their levels and buffers, were made at the same time of day, at the same level, from the
same line of a file of the same name, with the same message. -/
theorem log_line_readable (threshold threshold' : LogLevel) (c c' : LogCall)
    (buffer buffer' line : List Char) (hb : buffer.length = logBufferSize)
    (hb' : buffer'.length = logBufferSize) (hc : c.Plain) (hc' : c'.Plain)
    (h : logMessage threshold c buffer = some (some line))
    (h' : logMessage threshold' c' buffer' = some (some line)) :
    c.timestampMs.toNat % 86400000 = c'.timestampMs.toNat % 86400000 ∧ c.level = c'.level ∧
      baseName c.file = baseName c'.file ∧ c.line = c'.line ∧ c.message = c'.message :=
  hc.text_inj hc' ((logMessage_printed hb hc h).trans (logMessage_printed hb' hc' h').symm)

/-- The same message a day later. -/
def connectingAgain : LogCall := { connecting with timestampMs := 90123004 }

theorem log_line_readable_next_day :
    logMessage .info connecting (List.replicate logBufferSize 'x') =
        logMessage .debug connectingAgain (List.replicate logBufferSize 'y') ∧
      connecting.timestampMs.toNat % 86400000 = connectingAgain.timestampMs.toNat % 86400000 := by
  have hlen : ∀ x : Char, (List.replicate logBufferSize x).length = logBufferSize :=
    fun _ => List.length_replicate
  have hc : connecting.Plain := ⟨by decide, by decide, by decide, by decide⟩
  have hc' : connectingAgain.Plain := ⟨by decide, by decide, by decide, by decide⟩
  have hline := logMessage_fits (hlen 'x')
    (show LogLevel.info.value ≤ connecting.level.value by decide) hc.file (by decide)
  have hline' := logMessage_fits (hlen 'y')
    (show LogLevel.debug.value ≤ connectingAgain.level.value by decide) hc'.file (by decide)
  have htext : connectingAgain.text = connecting.text := by decide
  rw [htext] at hline'
  exact ⟨hline.trans hline'.symm, (log_line_readable .info .debug connecting connectingAgain _ _ _
    (hlen 'x') (hlen 'y') hc hc' hline hline').1⟩

end FastRing
