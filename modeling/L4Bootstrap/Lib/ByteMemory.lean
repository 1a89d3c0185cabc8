import L4Bootstrap.Lib.Transfer
import Mathlib.Data.UInt
import Mathlib.Order.Interval.Set.Defs

/-!
# Byte memory

Physical memory as a function from addresses to bytes, with the block operations
of the C library. `memmove` reads all of its source before it writes.
-/

namespace ByteMemory

open MemoryTransfer

set_option autoImplicit false

abbrev Bytes := Nat → UInt8

def memmove (dest src size : Nat) (bytes : Bytes) : Bytes :=
  fun a => if dest ≤ a ∧ a < dest + size then bytes (src + (a - dest)) else bytes a

def memset (dest : Nat) (value : UInt8) (size : Nat) (bytes : Bytes) : Bytes :=
  fun a => if dest ≤ a ∧ a < dest + size then value else bytes a

section

variable {dest src size m n a : Nat} {value : UInt8} {bytes : Bytes}

theorem memmove_inside {k : Nat} (inside : k < size) :
    memmove dest src size bytes (dest + k) = bytes (src + k) := by
  rw [memmove, if_pos (by omega), Nat.add_sub_cancel_left]

theorem memmove_outside (outside : a < dest ∨ dest + size ≤ a) :
    memmove dest src size bytes a = bytes a := by
  rw [memmove, if_neg (by omega)]

theorem memset_outside (outside : a < dest ∨ dest + size ≤ a) :
    memset dest value size bytes a = bytes a := by
  rw [memset, if_neg (by omega)]

@[simp] theorem memmove_zero : memmove dest src 0 bytes = bytes := by
  funext a
  rw [memmove_outside (by omega)]

/-- A block copied in two pieces, the first piece first. -/
theorem memmove_append (apart : dest + (m + n) ≤ src ∨ src + (m + n) ≤ dest) :
    memmove (dest + m) (src + m) n (memmove dest src m bytes) = memmove dest src (m + n) bytes := by
  funext a
  by_cases front : dest ≤ a ∧ a < dest + m
  · obtain ⟨k, rfl⟩ := Nat.exists_eq_add_of_le front.1
    rw [memmove_outside (by omega), memmove_inside (by omega), memmove_inside (by omega)]
  · by_cases back : dest + m ≤ a ∧ a < dest + m + n
    · obtain ⟨k, rfl⟩ := Nat.exists_eq_add_of_le back.1
      rw [memmove_inside (by omega), memmove_outside (by omega), Nat.add_assoc dest,
        memmove_inside (by omega), Nat.add_assoc]
    · rw [memmove_outside (by omega), memmove_outside (by omega), memmove_outside (by omega)]

@[simp] theorem memset_zero : memset dest value 0 bytes = bytes := by
  funext a
  exact memset_outside (by omega)

end

/-- A copy with `pad` zeros behind it; nothing happens to a block that is in its
place already. -/
def moveTransfer (src dest size pad : Nat) : Transfer Nat UInt8 where
  run bytes := if src = dest then bytes else memset (dest + size) 0 pad (memmove dest src size bytes)
  source := Set.Ico src (src + size)
  window := Set.Ico dest (dest + size + pad)
  target := Set.Ico dest (dest + size)
  frame bytes a outside := by
    simp only [Set.mem_Ico, not_and, not_lt] at outside
    split_ifs with same
    · rfl
    · rw [memset_outside (by omega), memmove_outside (by omega)]
  reads bytes other same a inTarget := by
    obtain ⟨above, below⟩ := inTarget
    obtain ⟨k, rfl⟩ := Nat.exists_eq_add_of_le above
    have read := same (src + k) ⟨by omega, by omega⟩
    split_ifs with inPlace
    · rw [← inPlace]
      exact read
    · rw [memset_outside (by omega), memset_outside (by omega), memmove_inside (by omega),
        memmove_inside (by omega)]
      exact read

theorem move_transfer_copies {src dest size pad k : Nat} (inside : k < size) (bytes : Bytes) :
    (moveTransfer src dest size pad).run bytes (dest + k) = bytes (src + k) := by
  change (if src = dest then _ else _ : Bytes) (dest + k) = _
  split_ifs with inPlace
  · rw [inPlace]
  · rw [memset_outside (by omega), memmove_inside inside]

/-- A copy with `pad` zeros behind it, all of which is wanted. -/
def padTransfer (src dest size pad : Nat) : Transfer Nat UInt8 where
  run bytes := memset (dest + size) 0 pad (memmove dest src size bytes)
  source := Set.Ico src (src + size)
  window := Set.Ico dest (dest + size + pad)
  target := Set.Ico dest (dest + size + pad)
  frame bytes a outside := by
    simp only [Set.mem_Ico, not_and, not_lt] at outside
    rw [memset_outside (by omega), memmove_outside (by omega)]
  reads bytes other same a inTarget := by
    obtain ⟨above, below⟩ := inTarget
    obtain ⟨k, rfl⟩ := Nat.exists_eq_add_of_le above
    unfold memset
    split_ifs with inPad
    · rfl
    · rw [memmove_inside (by omega), memmove_inside (by omega)]
      exact same (src + k) ⟨by omega, by omega⟩

theorem pad_transfer_run {src dest size pad k : Nat} (inside : k < size + pad) (bytes : Bytes) :
    (padTransfer src dest size pad).run bytes (dest + k) =
      if k < size then bytes (src + k) else 0 := by
  change memset (dest + size) 0 pad (memmove dest src size bytes) (dest + k) = _
  split_ifs with copied
  · rw [memset_outside (by omega), memmove_inside copied]
  · rw [memset, if_pos (by omega)]

end ByteMemory
