import L4Bootstrap.Lib.ByteImage
import Mathlib.Data.List.GetD

/-!
# Blocks written piece by piece

A copy whose areas overlap is taken apart from its lower end where it moves bytes down and
from its upper end where it moves them up. A block that is filled from both ends is full
as soon as the two pieces meet.
-/

namespace ByteMemory

set_option autoImplicit false

section

variable {dest src size m n head tail offset value : Nat} {fill : UInt8} {bytes : Bytes}

/-! ## Copies -/

theorem memmove_upward (order : dest ≤ src ∨ src + (m + n) ≤ dest) :
    memmove (dest + m) (src + m) n (memmove dest src m bytes) = memmove dest src (m + n) bytes := by
  funext a
  by_cases front : dest ≤ a ∧ a < dest + m
  · obtain ⟨k, rfl⟩ := Nat.exists_eq_add_of_le front.1
    rw [memmove_outside (by omega), memmove_inside (by omega), memmove_inside (by omega)]
  · by_cases back : dest + m ≤ a ∧ a < dest + m + n
    · obtain ⟨k, rfl⟩ := Nat.exists_eq_add_of_le back.1
      rw [memmove_inside (by omega), memmove_outside (by omega), Nat.add_assoc dest,
        memmove_inside (by omega), Nat.add_assoc]
    · rw [memmove_outside (by omega), memmove_outside (by omega), memmove_outside (by omega)]

theorem memmove_downward (order : src ≤ dest ∨ dest + (m + n) ≤ src) :
    memmove dest src m (memmove (dest + m) (src + m) n bytes) = memmove dest src (m + n) bytes := by
  funext a
  by_cases front : dest ≤ a ∧ a < dest + m
  · obtain ⟨k, rfl⟩ := Nat.exists_eq_add_of_le front.1
    rw [memmove_inside (by omega), memmove_outside (by omega), memmove_inside (by omega)]
  · by_cases back : dest + m ≤ a ∧ a < dest + m + n
    · obtain ⟨k, rfl⟩ := Nat.exists_eq_add_of_le back.1
      rw [memmove_outside (by omega), memmove_inside (by omega), Nat.add_assoc dest,
        memmove_inside (by omega), Nat.add_assoc]
    · rw [memmove_outside (by omega), memmove_outside (by omega), memmove_outside (by omega)]

@[simp] theorem memmove_same : memmove dest dest size bytes = bytes := by
  funext a
  by_cases inside : dest ≤ a ∧ a < dest + size
  · obtain ⟨k, rfl⟩ := Nat.exists_eq_add_of_le inside.1
    exact memmove_inside (by omega)
  · exact memmove_outside (by omega)

/-! ## Fills -/

theorem memset_append :
    memset (dest + m) fill n (memset dest fill m bytes) = memset dest fill (m + n) bytes := by
  funext a
  unfold memset
  split_ifs <;> first | rfl | omega

theorem write_list_replicate :
    writeList dest (List.replicate n fill) bytes = memset dest fill n bytes := by
  funext a
  unfold writeList memset
  rw [List.length_replicate]
  split_ifs with inside
  · rw [List.getD_eq_getElem _ _ (by rw [List.length_replicate]; omega), List.getElem_replicate]
  · rfl

/-- The number all of whose bytes are 1. -/
def ones : Nat → Nat
  | 0 => 0
  | n + 1 => 1 + 256 * ones n

/-- A byte multiplied into all bytes of a word. -/
theorem le_bytes_ones (byte : value < 256) :
    leBytes n (ones n * value) = List.replicate n (UInt8.ofNat value) := by
  induction n with
  | zero => rfl
  | succ n ih =>
      have split : ones (n + 1) * value = value + 256 * (ones n * value) := by
        rw [ones]
        ring
      have low : UInt8.ofNat (value + 256 * (ones n * value)) = UInt8.ofNat value := by
        apply UInt8.toNat_inj.mp
        rw [UInt8.toNat_ofNat', UInt8.toNat_ofNat']
        omega
      have high : (value + 256 * (ones n * value)) / 256 = ones n * value := by omega
      rw [split, leBytes, low, high, ih, List.replicate_succ]

theorem ones_byte {k : Nat} (byte : value < 256) (inside : k < n) :
    ones n * value / 256 ^ k % 256 = value := by
  induction n generalizing k with
  | zero => exact absurd inside (Nat.not_lt_zero k)
  | succ n ih =>
      have split : ones (n + 1) * value = value + 256 * (ones n * value) := by
        rw [ones]
        ring
      rw [split]
      cases k with
      | zero =>
          rw [pow_zero, Nat.div_one]
          omega
      | succ k =>
          have shifted : (value + 256 * (ones n * value)) / 256 = ones n * value := by omega
          rw [pow_succ', ← Nat.div_div_eq_div_mul, shifted, ih (by omega)]

/-- A byte of a number read from memory. -/
theorem read_le_byte {p k : Nat} (inside : k < n) :
    readLe bytes p n / 256 ^ k % 256 = (bytes (p + k)).toNat := by
  induction n generalizing p k with
  | zero => exact absurd inside (Nat.not_lt_zero k)
  | succ n ih =>
      have byte := (bytes p).toNat_lt
      rw [readLe]
      cases k with
      | zero =>
          rw [pow_zero, Nat.div_one]
          change _ = (bytes p).toNat
          omega
      | succ k =>
          have shifted : ((bytes p).toNat + 256 * readLe bytes (p + 1) n) / 256 =
              readLe bytes (p + 1) n := by omega
          rw [pow_succ', ← Nat.div_div_eq_div_mul, shifted, ih (by omega), Nat.add_assoc,
            Nat.add_comm 1]

/-! ## Filling from both ends -/

/-- The first `head` and the last `tail` bytes of a block are filled. -/
def fillEnds (dest size : Nat) (fill : UInt8) (head tail : Nat) (bytes : Bytes) : Bytes :=
  fun a => if dest ≤ a ∧ a < dest + size ∧ (a < dest + head ∨ dest + size ≤ a + tail) then fill
    else bytes a

theorem fill_ends_none : fillEnds dest size fill 0 0 bytes = bytes := by
  funext a
  exact if_neg (by omega)

theorem fill_head (touches : offset ≤ head) (grows : head ≤ offset + m)
    (inside : offset + m ≤ size) :
    memset (dest + offset) fill m (fillEnds dest size fill head tail bytes) =
      fillEnds dest size fill (offset + m) tail bytes := by
  funext a
  unfold memset fillEnds
  split_ifs <;> first | rfl | omega

theorem fill_tail (touches : offset ≤ tail) (grows : tail ≤ offset + m)
    (inside : offset + m ≤ size) :
    memset (dest + (size - (offset + m))) fill m (fillEnds dest size fill head tail bytes) =
      fillEnds dest size fill head (offset + m) bytes := by
  funext a
  unfold memset fillEnds
  split_ifs <;> first | rfl | omega

theorem fill_ends_meet (meet : size ≤ head + tail) :
    fillEnds dest size fill head tail bytes = memset dest fill size bytes := by
  funext a
  unfold memset fillEnds
  split_ifs <;> first | rfl | omega

end

end ByteMemory
