import Mathlib.Data.List.Basic
import Mathlib.Data.Nat.Bitwise

/-! Little-endian numbers in byte sequences. `leBytes` lays a number out, `leNat` reads
it back, and `readLe` reads a field in the middle of a sequence. A record is laid out
field after field, so there are two rules: what a field at the front reads as, with
where the next one starts, and which bytes the fields read are laid out as. -/

namespace LittleEndian

/-- The `k` low-order bytes of `v`, lowest first. -/
def leBytes : Nat → Nat → List UInt8
  | 0, _ => []
  | k + 1, v => UInt8.ofNat v :: leBytes k (v / 256)

/-- The number whose bytes are given, lowest first. -/
def leNat : List UInt8 → Nat
  | [] => 0
  | b :: bs => b.toNat + 256 * leNat bs

/-- The `k` bytes from `offset` on. -/
def slice (bytes : List UInt8) (offset k : Nat) : List UInt8 := (bytes.drop offset).take k

/-- The field of `k` bytes at `offset`. -/
def readLe (bytes : List UInt8) (offset k : Nat) : Nat := leNat (slice bytes offset k)

variable {bytes rest : List UInt8} {offset k v : Nat}

theorem leBytes_length (k v : Nat) : (leBytes k v).length = k := by
  induction k generalizing v with
  | zero => rfl
  | succ k ih => rw [leBytes, List.length_cons, ih]

theorem leNat_leBytes (k v : Nat) : leNat (leBytes k v) = v % 256 ^ k := by
  induction k generalizing v with
  | zero => simp [leBytes, leNat, Nat.mod_one]
  | succ k ih =>
    rw [leBytes, leNat, ih, Nat.pow_succ, Nat.mul_comm (256 ^ k), Nat.mod_mul]
    rfl

theorem leBytes_leNat (bytes : List UInt8) : leBytes bytes.length (leNat bytes) = bytes := by
  induction bytes with
  | nil => rfl
  | cons b bytes ih =>
    have hlt := b.toNat_lt
    have hdiv : (b.toNat + 256 * leNat bytes) / 256 = leNat bytes := by omega
    have hmod : UInt8.ofNat (b.toNat + 256 * leNat bytes) = b := by
      rw [← UInt8.toNat_inj, UInt8.toNat_ofNat']
      omega
    rw [List.length_cons, leBytes, leNat, hdiv, hmod, ih]

theorem leNat_lt (bytes : List UInt8) : leNat bytes < 256 ^ bytes.length := by
  induction bytes with
  | nil => exact Nat.one_pos
  | cons b bytes ih =>
    have hlt := b.toNat_lt
    rw [List.length_cons, leNat, Nat.pow_succ]
    omega

theorem slice_length (h : offset + k ≤ bytes.length) : (slice bytes offset k).length = k := by
  rw [slice, List.length_take, List.length_drop]
  omega

/-- Neighbouring slices. -/
theorem slice_append (bytes : List UInt8) (offset j k : Nat) :
    slice bytes offset j ++ slice bytes (offset + j) k = slice bytes offset (j + k) := by
  rw [slice, slice, slice, List.take_add, List.drop_drop]

/-- A field does not depend on the bytes after it. -/
theorem readLe_take {n : Nat} (h : offset + k ≤ n) :
    readLe (bytes.take n) offset k = readLe bytes offset k := by
  rw [readLe, readLe, slice, slice, List.drop_take, List.take_take, Nat.min_eq_left (by omega)]

theorem readLe_lt (bytes : List UInt8) (offset k : Nat) : readLe bytes offset k < 256 ^ k := by
  refine Nat.lt_of_lt_of_le (leNat_lt _) (Nat.pow_le_pow_right (by decide) ?_)
  rw [slice]
  exact List.length_take_le _ _

/-- Laying out what was read gives the bytes it was read from. -/
theorem leBytes_readLe (h : offset + k ≤ bytes.length) :
    leBytes k (readLe bytes offset k) = slice bytes offset k := by
  have := leBytes_leNat (slice bytes offset k)
  rwa [slice_length h] at this

/-- A field at the front, and what follows it. -/
theorem read_front (h : bytes.drop offset = leBytes k v ++ rest) :
    readLe bytes offset k = v % 256 ^ k ∧ bytes.drop (offset + k) = rest := by
  constructor
  · rw [readLe, slice, h, List.take_append_of_le_length (Nat.le_of_eq (leBytes_length k v).symm),
      List.take_of_length_le (Nat.le_of_eq (leBytes_length k v)), leNat_leBytes]
  · rw [← List.drop_drop, h]
    exact List.drop_left' (leBytes_length k v)

end LittleEndian
