import L4Bootstrap.Lib.ByteMemory
import Mathlib.Algebra.Order.Ring.Nat
import Mathlib.Tactic.Ring

/-!
# Byte lists held in memory

`Holds bytes p l` says that the list `l` stands in memory from address `p` on.
Little-endian numbers are read from memory and written as lists. A block is
rotated to the end of its area by moving what follows it down and appending it.
-/

namespace ByteMemory

set_option autoImplicit false

def Holds (bytes : Bytes) (p : Nat) (l : List UInt8) : Prop :=
  ∀ i, i < l.length → bytes (p + i) = l.getD i 0

def readList (bytes : Bytes) (p : Nat) : Nat → List UInt8
  | 0 => []
  | n + 1 => bytes p :: readList bytes (p + 1) n

def writeList (p : Nat) (l : List UInt8) (bytes : Bytes) : Bytes :=
  fun a => if p ≤ a ∧ a < p + l.length then l.getD (a - p) 0 else bytes a

section

variable {bytes other : Bytes} {p n m a dest src : Nat} {l front back : List UInt8}

@[simp] theorem holds_nil : Holds bytes p [] := by
  intro i inside
  simp at inside

theorem holds_cons {b : UInt8} :
    Holds bytes p (b :: l) ↔ bytes p = b ∧ Holds bytes (p + 1) l := by
  constructor
  · intro held
    constructor
    · exact held 0 (by simp)
    · intro i inside
      have next := held (i + 1) (by simpa using inside)
      rw [Nat.add_assoc, Nat.add_comm 1 i]
      simpa using next
  · intro held i inside
    cases i with
    | zero => exact held.1
    | succ i =>
        have next := held.2 i (by simpa using inside)
        rw [Nat.add_assoc, Nat.add_comm 1 i] at next
        simpa using next

theorem holds_append :
    Holds bytes p (front ++ back) ↔
      Holds bytes p front ∧ Holds bytes (p + front.length) back := by
  induction front generalizing p with
  | nil => simp
  | cons b front ih =>
      have shift : p + 1 + front.length = p + (front.length + 1) := by omega
      simp only [List.cons_append, holds_cons, ih, List.length_cons, and_assoc, shift]

/-- A list stays where its bytes stay. -/
theorem Holds.frame (held : Holds bytes p l)
    (same : ∀ a, p ≤ a → a < p + l.length → other a = bytes a) : Holds other p l := by
  intro i inside
  rw [same (p + i) (by omega) (by omega)]
  exact held i inside

/-- A list that moves with its bytes. -/
theorem Holds.moved {q : Nat} (held : Holds bytes p l)
    (same : ∀ i, i < l.length → other (q + i) = bytes (p + i)) : Holds other q l := by
  intro i inside
  rw [same i inside]
  exact held i inside

@[simp] theorem length_read_list : (readList bytes p n).length = n := by
  induction n generalizing p with
  | zero => rfl
  | succ n ih => simp [readList, ih]

theorem holds_read_list : Holds bytes p (readList bytes p n) := by
  induction n generalizing p with
  | zero => exact holds_nil
  | succ n ih => exact holds_cons.mpr ⟨rfl, ih⟩

theorem Holds.read_list (held : Holds bytes p l) : readList bytes p l.length = l := by
  induction l generalizing p with
  | nil => rfl
  | cons b l ih =>
      obtain ⟨first, rest⟩ := holds_cons.mp held
      rw [List.length_cons, readList, first, ih rest]

theorem holds_write_list : Holds (writeList p l bytes) p l := by
  intro i inside
  rw [writeList, if_pos (by omega), Nat.add_sub_cancel_left]

theorem write_list_outside (outside : a < p ∨ p + l.length ≤ a) :
    writeList p l bytes a = bytes a := by
  rw [writeList, if_neg (by omega)]

/-- The next piece of a copy whose source was read beforehand. -/
theorem write_list_memmove :
    writeList (dest + m) (readList bytes (src + m) n) (memmove dest src m bytes) =
      memmove dest src (m + n) bytes := by
  funext a
  by_cases back : dest + m ≤ a ∧ a < dest + m + n
  · have held : bytes (src + m + (a - (dest + m))) = (readList bytes (src + m) n).getD _ 0 :=
      holds_read_list (a - (dest + m)) (by rw [length_read_list]; omega)
    obtain ⟨k, rfl⟩ := Nat.exists_eq_add_of_le back.1
    rw [Nat.add_sub_cancel_left] at held
    rw [writeList, if_pos (by rw [length_read_list]; omega), Nat.add_sub_cancel_left, ← held,
      Nat.add_assoc dest, memmove_inside (by omega), Nat.add_assoc]
  · rw [write_list_outside (by rw [length_read_list]; omega)]
    unfold memmove
    split_ifs with front whole whole
    · rfl
    · omega
    · omega
    · rfl

theorem write_list_read_list :
    writeList dest (readList bytes src n) bytes = memmove dest src n bytes := by
  have whole : writeList (dest + 0) (readList bytes (src + 0) n) (memmove dest src 0 bytes) =
      memmove dest src (0 + n) bytes := write_list_memmove
  rw [memmove_zero, Nat.zero_add] at whole
  exact whole

end

/-! ## Several writes -/

def writeAll (writes : List (Nat × List UInt8)) (bytes : Bytes) : Bytes :=
  writes.foldl (fun current write => writeList write.1 write.2 current) bytes

/-- Two writes that put the same bytes at the addresses they share. -/
def Agree (first second : Nat × List UInt8) : Prop :=
  ∀ i j, i < first.2.length → j < second.2.length → first.1 + i = second.1 + j →
    first.2.getD i 0 = second.2.getD j 0

section

variable {bytes : Bytes} {first second : Nat × List UInt8} {writes : List (Nat × List UInt8)}
  {a : Nat}

theorem agree_of_holds (one : Holds bytes first.1 first.2) (two : Holds bytes second.1 second.2) :
    Agree first second := by
  intro i j inFirst inSecond same
  rw [← one i inFirst, ← two j inSecond, same]

theorem Holds.write_agreeing (held : Holds bytes first.1 first.2) (agree : Agree first second) :
    Holds (writeList second.1 second.2 bytes) first.1 first.2 := by
  intro i inside
  unfold writeList
  split_ifs with shared
  · exact (agree i _ inside (by omega) (by omega)).symm
  · exact held i inside

theorem write_all_outside (outside : ∀ write ∈ writes, a < write.1 ∨ write.1 + write.2.length ≤ a) :
    writeAll writes bytes a = bytes a := by
  induction writes generalizing bytes with
  | nil => rfl
  | cons write rest ih =>
      have later := @ih (writeList write.1 write.2 bytes)
        fun other inRest => outside other (by simp [inRest])
      rw [writeAll, List.foldl_cons, ← writeAll, later]
      exact write_list_outside (outside write (by simp))

/-- Writes that agree with each other all stand at the end. -/
theorem holds_write_all (agree : ∀ one ∈ writes, ∀ two ∈ writes, Agree one two)
    {write : Nat × List UInt8} (held : write ∈ writes ∨ Holds bytes write.1 write.2)
    (fits : ∀ other ∈ writes, Agree write other) :
    Holds (writeAll writes bytes) write.1 write.2 := by
  induction writes generalizing bytes with
  | nil => exact held.resolve_left (by simp)
  | cons next rest ih =>
      rw [writeAll, List.foldl_cons, ← writeAll]
      apply ih
      · intro one inOne two inTwo
        exact agree one (by simp [inOne]) two (by simp [inTwo])
      · rcases held with member | held
        · rcases List.mem_cons.mp member with rfl | inRest
          · exact .inr holds_write_list
          · exact .inl inRest
        · exact .inr (held.write_agreeing (fits next (by simp)))
      · intro other inRest
        exact fits other (by simp [inRest])

end

/-! ## Little-endian numbers -/

def readLe (bytes : Bytes) (p : Nat) : Nat → Nat
  | 0 => 0
  | n + 1 => (bytes p).toNat + 256 * readLe bytes (p + 1) n

def leBytes : Nat → Nat → List UInt8
  | 0, _ => []
  | n + 1, value => UInt8.ofNat value :: leBytes n (value / 256)

/-- The number at an offset of a byte list. -/
def leAt (l : List UInt8) (offset n : Nat) : Nat := readLe (fun i => l.getD i 0) offset n

section

variable {bytes other : Bytes} {p q n value : Nat} {l : List UInt8}

@[simp] theorem length_le_bytes : (leBytes n value).length = n := by
  induction n generalizing value with
  | zero => rfl
  | succ n ih => simp [leBytes, ih]

theorem read_le_congr (same : ∀ i, i < n → bytes (p + i) = other (q + i)) :
    readLe bytes p n = readLe other q n := by
  induction n generalizing p q with
  | zero => rfl
  | succ n ih =>
      have first := same 0 (by omega)
      have rest : readLe bytes (p + 1) n = readLe other (q + 1) n := by
        apply ih
        intro i inside
        rw [Nat.add_assoc, Nat.add_assoc, Nat.add_comm 1 i]
        exact same (i + 1) (by omega)
      rw [readLe, readLe, rest]
      simp only [Nat.add_zero] at first
      rw [first]

theorem Holds.read_le (held : Holds bytes p l) {offset : Nat} (inside : offset + n ≤ l.length) :
    readLe bytes (p + offset) n = leAt l offset n := by
  apply read_le_congr
  intro i small
  rw [Nat.add_assoc]
  exact held (offset + i) (by omega)

theorem read_le_lt : readLe bytes p n < 256 ^ n := by
  induction n generalizing p with
  | zero => simp [readLe]
  | succ n ih =>
      have low := (bytes p).toNat_lt
      have rest := ih (p := p + 1)
      rw [readLe, Nat.pow_succ]
      omega

theorem Holds.read_le_bytes (held : Holds bytes p (leBytes n value)) :
    readLe bytes p n = value % 256 ^ n := by
  induction n generalizing p value with
  | zero => simp [readLe, Nat.mod_one]
  | succ n ih =>
      obtain ⟨first, rest⟩ := holds_cons.mp held
      rw [readLe, first, ih rest, Nat.pow_succ, Nat.mul_comm (256 ^ n) 256, Nat.mod_mul]
      rw [UInt8.toNat_ofNat']

/-- The `i`-th word of an array of 32-bit words. -/
theorem Holds.read_word {words : List Nat} (held : Holds bytes p (words.flatMap (leBytes 4)))
    {i : Nat} (inside : i < words.length) :
    readLe bytes (p + 4 * i) 4 = words.getD i 0 % 2 ^ 32 := by
  induction words generalizing p i with
  | nil => simp at inside
  | cons word words ih =>
      rw [List.flatMap_cons, holds_append, length_le_bytes] at held
      cases i with
      | zero => exact held.1.read_le_bytes
      | succ i =>
          have shift : p + 4 * (i + 1) = p + 4 + 4 * i := by omega
          rw [shift, ih held.2 (by simpa using inside)]
          rfl

end

/-! ## Big-endian numbers -/

def readBe (bytes : Bytes) (p : Nat) : Nat → Nat
  | 0 => 0
  | n + 1 => 256 * readBe bytes p n + (bytes (p + n)).toNat

def beBytes : Nat → Nat → List UInt8
  | 0, _ => []
  | n + 1, value => beBytes n (value / 256) ++ [UInt8.ofNat value]

/-- The big-endian number at an offset of a byte list. -/
def beAt (l : List UInt8) (offset n : Nat) : Nat := readBe (fun i => l.getD i 0) offset n

section

variable {bytes : Bytes} {p n value : Nat} {l front back : List UInt8}

@[simp] theorem length_be_bytes : (beBytes n value).length = n := by
  induction n generalizing value with
  | zero => rfl
  | succ n ih => simp [beBytes, ih]

theorem Holds.read_be_bytes (held : Holds bytes p (beBytes n value)) :
    readBe bytes p n = value % 256 ^ n := by
  induction n generalizing value with
  | zero => simp [readBe, Nat.mod_one]
  | succ n ih =>
      obtain ⟨high, low⟩ := holds_append.mp held
      have last := (holds_cons.mp low).1
      rw [length_be_bytes] at last
      have split : value % 256 ^ (n + 1) = value % 256 + 256 * (value / 256 % 256 ^ n) := by
        rw [Nat.pow_succ, Nat.mul_comm (256 ^ n) 256, Nat.mod_mul]
      rw [readBe, ih high, last, UInt8.toNat_ofNat', split, Nat.add_comm]

theorem holds_get_d : Holds (fun i => l.getD i 0) 0 l := by
  intro i _
  rw [Nat.zero_add]

/-- A number in the middle of a list. -/
theorem be_at_of_split {offset : Nat} (split : l = front ++ beBytes n value ++ back)
    (starts : front.length = offset) : beAt l offset n = value % 256 ^ n := by
  subst split starts
  have held : Holds (fun i => (front ++ beBytes n value ++ back).getD i 0) 0 _ := holds_get_d
  have middle := (holds_append.mp (holds_append.mp held).1).2
  rw [Nat.zero_add] at middle
  exact middle.read_be_bytes

end

/-! ## Rotation -/

section

variable {bytes : Bytes} {src n a : Nat} {front back : List UInt8}

/-- One piece of a rotation: the front goes behind the back. -/
theorem Holds.rotate_piece (held : Holds bytes src (front ++ back)) :
    Holds (writeList (src + back.length) front
        (memmove src (src + front.length) back.length bytes)) src (back ++ front) := by
  obtain ⟨frontHeld, backHeld⟩ := holds_append.mp held
  apply holds_append.mpr
  constructor
  · apply backHeld.moved
    intro i inside
    rw [write_list_outside (by omega), memmove_inside inside]
  · exact holds_write_list

end

end ByteMemory
