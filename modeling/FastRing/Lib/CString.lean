import Mathlib.Data.List.TakeWhile
import Mathlib.Data.Nat.Bitwise
import Mathlib.Algebra.Ring.Int.Defs

/-! C strings in buffers of a fixed size, with a `Char` for each byte. A store outside the buffer is
`none`. There is one rule for each operation: what string the buffer holds afterwards. -/

namespace CString

/-- The byte behind a string. -/
def nul : Char := Char.ofNat 0

/-- The string at the front of a buffer; its length is the `strlen`. -/
def read (buffer : List Char) : List Char := buffer.takeWhile (· ≠ nul)

/-- `written` is put into the buffer from `start` on. -/
def store (buffer : List Char) (start : Int) (written : List Char) : Option (List Char) :=
  if 0 ≤ start ∧ start.toNat + written.length ≤ buffer.length then
    some (buffer.take start.toNat ++ (written ++ buffer.drop (start.toNat + written.length)))
  else none

/-- What `snprintf` does to a buffer when it may use `size` bytes from `start` on and the text comes to
be `text`. -/
def snprintf (buffer : List Char) (start : Int) (size : Nat) (text : List Char) :
    Option (List Char) :=
  if size = 0 then some buffer else store buffer start (text.take (size - 1) ++ [nul])

/-- What it returns, as an `int`: the length of the whole text, or -1 when that is none. -/
def snprintfLength (text : List Char) : Int := if text.length < 2 ^ 31 then text.length else -1

/-- The place of the last `c`. -/
def strrchr (c : Char) : List Char → Option Nat
  | [] => none
  | x :: xs =>
    match strrchr c xs with
    | some i => some (i + 1)
    | none => if x = c then some 0 else none

/-- `buffer[at] = c`, followed by the end of the string. -/
def terminate (buffer : List Char) (i : Nat) (c : Char) : List Char :=
  (buffer.set i c).set (i + 1) nul

/-- `%0<width>u`, and `%u` for the width 0. -/
def padded (width n : Nat) : List Char :=
  List.replicate (width - (Nat.toDigits 10 n).length) '0' ++ Nat.toDigits 10 n

/-- `%d`. -/
def signed (n : Int) : List Char :=
  if n < 0 then '-' :: Nat.toDigits 10 n.natAbs else Nat.toDigits 10 n.natAbs

variable {buffer rest text xs : List Char} {c : Char} {i : Nat}

/-! ## Reading -/

theorem read_stop (xs rest : List Char) : read (xs ++ nul :: rest) = read xs := by
  induction xs with
  | nil => simp [read]
  | cons x xs ih =>
    by_cases hx : x = nul
    · simp [read, hx]
    · have : read (x :: xs) = x :: read xs := by simp [read, hx]
      rw [this, ← ih]
      simp [read, hx]

theorem read_eq_self (h : nul ∉ text) : read text = text := by
  rw [read, List.takeWhile_eq_self_iff]
  intro x hx
  rw [decide_eq_true_eq]
  rintro rfl
  exact h hx

/-- A buffer with an end of its string in it. -/
theorem read_split (h : nul ∈ buffer) : ∃ rest, buffer = read buffer ++ nul :: rest := by
  induction buffer with
  | nil => exact absurd h List.not_mem_nil
  | cons x buffer ih =>
    by_cases hx : x = nul
    · exact ⟨buffer, by simp [read, hx]⟩
    · obtain ⟨rest, hrest⟩ := ih ((List.mem_cons.mp h).resolve_left (Ne.symm hx))
      refine ⟨rest, ?_⟩
      have hread : read (x :: buffer) = x :: read buffer := by simp [read, hx]
      rw [hread, List.cons_append, ← hrest]

theorem not_mem_read (buffer : List Char) : nul ∉ read buffer := by
  intro h
  simpa using List.mem_takeWhile_imp h

/-! ## Writing -/

theorem store_eq {start : Nat} (h : start + text.length ≤ buffer.length) :
    store buffer start text =
      some (buffer.take start ++ (text ++ buffer.drop (start + text.length))) := by
  rw [store, if_pos ⟨Int.natCast_nonneg _, by simpa using h⟩]
  simp

theorem store_length {start : Int} {buffer' : List Char} (h : store buffer start text = some buffer') :
    buffer'.length = buffer.length := by
  rw [store] at h
  split at h
  case isTrue hin =>
    cases h
    simp only [List.length_append, List.length_take, List.length_drop]
    omega
  case isFalse => cases h

theorem snprintf_length {start : Int} {size : Nat} {buffer' : List Char}
    (h : snprintf buffer start size text = some buffer') : buffer'.length = buffer.length := by
  rw [snprintf] at h
  split at h
  case isTrue =>
    cases h
    rfl
  case isFalse => exact store_length h

/-- Behind the end of the buffer there is no room, not even for an empty text. -/
theorem snprintf_outside {start : Int} {size : Nat} (hs : size ≠ 0)
    (h : start < 0 ∨ (buffer.length : Int) ≤ start) (text : List Char) :
    snprintf buffer start size text = none := by
  rw [snprintf, if_neg hs, store, if_neg]
  rw [List.length_append, List.length_singleton]
  omega

/-- Text that goes behind a string of `start` bytes. -/
theorem snprintf_eq (buffer text : List Char) {start size : Nat} (hs : 0 < size)
    (h : start + size ≤ buffer.length) :
    ∃ rest, snprintf buffer start size text =
      some (buffer.take start ++ text.take (size - 1) ++ nul :: rest) := by
  have hlen : (text.take (size - 1) ++ [nul]).length ≤ size := by
    rw [List.length_append, List.length_take, List.length_singleton]
    omega
  refine ⟨buffer.drop (start + (text.take (size - 1) ++ [nul]).length), ?_⟩
  rw [snprintf, if_neg (by omega), store_eq (by omega)]
  simp only [List.append_assoc, List.singleton_append]

/-- One more character at the end of the string. -/
theorem read_terminate (hc : c ≠ nul) (h : nul ∈ buffer)
    (hroom : (read buffer).length + 1 < buffer.length) :
    read (terminate buffer (read buffer).length c) = read buffer ++ [c] := by
  obtain ⟨rest, hsplit⟩ := read_split h
  have hnot := not_mem_read buffer
  generalize read buffer = front at hsplit hroom hnot ⊢
  subst hsplit
  cases rest with
  | nil => simp at hroom
  | cons x rest =>
    have hset : terminate (front ++ nul :: x :: rest) front.length c =
        (front ++ [c]) ++ nul :: rest := by simp [terminate]
    rw [hset, read_stop, read_eq_self]
    rw [List.mem_append, List.mem_singleton]
    rintro (hin | rfl)
    · exact hnot hin
    · exact hc rfl

/-! ## Searching -/

theorem strrchr_none : strrchr c xs = none ↔ c ∉ xs := by
  induction xs with
  | nil => simp [strrchr]
  | cons x xs ih =>
    rw [strrchr]
    cases hx : strrchr c xs with
    | some i =>
      have : c ∈ xs := by
        by_contra hc
        rw [ih.mpr hc] at hx
        cases hx
      simp [this]
    | none =>
      have hc := ih.mp hx
      by_cases he : x = c
      · simp [he]
      · simp [he, hc, Ne.symm he]

/-- The last `c` is found, and behind it there is none. -/
theorem strrchr_some (h : strrchr c xs = some i) :
    xs = xs.take i ++ c :: xs.drop (i + 1) ∧ ∀ j, i < j → c ∉ xs.drop j := by
  induction xs generalizing i with
  | nil => cases h
  | cons x xs ih =>
    rw [strrchr] at h
    cases hx : strrchr c xs with
    | some k =>
      rw [hx] at h
      cases h
      obtain ⟨hsplit, hbehind⟩ := ih hx
      refine ⟨?_, fun j hj => ?_⟩
      · rw [List.take_succ_cons, List.drop_succ_cons, List.cons_append, ← hsplit]
      · cases j with
        | zero => exact absurd hj (Nat.not_lt_zero _)
        | succ j => exact hbehind j (Nat.lt_of_succ_lt_succ hj)
    | none =>
      rw [hx] at h
      by_cases he : x = c
      · rw [if_pos he] at h
        cases h
        refine ⟨by rw [he]; rfl, fun j hj => ?_⟩
        cases j with
        | zero => exact absurd hj (Nat.not_lt_zero _)
        | succ j => exact fun hmem => strrchr_none.mp hx (List.mem_of_mem_drop hmem)
      · rw [if_neg he] at h
        cases h

/-- What stands before and behind the first `c`. -/
theorem first_split {ys xs' ys' : List Char} (hx : c ∉ xs) (hx' : c ∉ xs')
    (h : xs ++ c :: ys = xs' ++ c :: ys') : xs = xs' ∧ ys = ys' := by
  induction xs generalizing xs' with
  | nil =>
    cases xs' with
    | nil => exact ⟨rfl, (List.cons.inj h).2⟩
    | cons x' xs' => exact absurd ((List.cons.inj h).1 ▸ List.mem_cons_self) hx'
  | cons x xs ih =>
    cases xs' with
    | nil => exact absurd ((List.cons.inj h).1 ▸ List.mem_cons_self) hx
    | cons x' xs' =>
      obtain ⟨hhead, htail⟩ := List.cons.inj h
      obtain ⟨hxs, hys⟩ := ih (fun hm => hx (List.mem_cons_of_mem _ hm))
        (fun hm => hx' (List.mem_cons_of_mem _ hm)) htail
      exact ⟨by rw [hhead, hxs], hys⟩

/-! ## Numbers -/

theorem digits_only {n : Nat} (h : c ∈ Nat.toDigits 10 n) : c.isDigit :=
  Nat.isDigit_of_mem_toDigits (by decide) (by decide) h

theorem toDigits_injective {m n : Nat} (h : Nat.toDigits 10 m = Nat.toDigits 10 n) : m = n := by
  rw [← Nat.ofDigitChars_ten_toDigits (n := m), h, Nat.ofDigitChars_ten_toDigits]

theorem padded_length {width n : Nat} (hw : 0 < width) (h : n < 10 ^ width) :
    (padded width n).length = width := by
  have := (Nat.length_toDigits_le_iff (by decide) hw).mpr h
  rw [padded, List.length_append, List.length_replicate]
  omega

/-- Leading zeros change nothing. -/
theorem ofDigitChars_padded (width n : Nat) : Nat.ofDigitChars 10 (padded width n) 0 = n := by
  rw [padded, Nat.ofDigitChars_append, Nat.ofDigitChars_replicate_zero, Nat.mul_zero,
    Nat.ofDigitChars_ten_toDigits]

theorem padded_injective {width m n : Nat} (h : padded width m = padded width n) : m = n := by
  rw [← ofDigitChars_padded width m, h, ofDigitChars_padded]

theorem mem_padded {width n : Nat} (h : c ∈ padded width n) : c.isDigit := by
  rcases List.mem_append.mp h with h | h
  · rw [List.eq_of_mem_replicate h]
    rfl
  · exact digits_only h

theorem signed_injective {m n : Int} (h : signed m = signed n) : m = n := by
  -- no number without a sign starts like one with it
  have hminus : ∀ (k : Nat) (ds : List Char), Nat.toDigits 10 k ≠ '-' :: ds := by
    intro k ds he
    exact absurd (digits_only (n := k) (he ▸ List.mem_cons_self)) (by decide)
  unfold signed at h
  by_cases hm : m < 0
  · by_cases hn : n < 0
    · rw [if_pos hm, if_pos hn] at h
      have := toDigits_injective (List.cons.inj h).2
      omega
    · rw [if_pos hm, if_neg hn] at h
      exact absurd h.symm (hminus _ _)
  · by_cases hn : n < 0
    · rw [if_neg hm, if_pos hn] at h
      exact absurd h (hminus _ _)
    · rw [if_neg hm, if_neg hn] at h
      have := toDigits_injective h
      omega

theorem mem_signed {n : Int} (h : c ∈ signed n) : c = '-' ∨ c.isDigit := by
  rw [signed] at h
  split at h
  · rcases List.mem_cons.mp h with h | h
    · exact .inl h
    · exact .inr (digits_only h)
  · exact .inr (digits_only h)

end CString
