import L4Bootstrap.Modules
import L4Bootstrap.Lib.ByteImage

/-!
# The boot info block

The structures of `l4/util/l4mod.h` in a block of memory: a header, an array with
one entry for each module, and the strings behind it. Both classes of boot modules
fill the array with the same steps. The header of the library is not part of the
loader, so that sizes and object representations are a parameter.
-/

namespace L4Bootstrap

open MachineWord ByteMemory

set_option autoImplicit false

variable {W : Wordsize}

/-- `sizeof (unsigned long)` as a power of two. -/
def wordShift : Wordsize → Nat
  | .w32 => 2
  | .w64 => 3

def roundWordsize (W : Wordsize) (s : Nat) : Nat := W.roundSize (wordShift W) s

/-- `round_wordsize` without the bound of the machine word. -/
def wordUp (W : Wordsize) (s : Nat) : Nat := roundUp (wordShift W) s

/-- A string in memory, without its NUL. -/
structure CString (W : Wordsize) where
  chars : List UInt8
  noNul : ∀ c ∈ chars, c ≠ 0
  short : chars.length < W.modulus

namespace CString

def strlen (c : CString W) : Nat := c.chars.length

/-- The string as it lies in memory. -/
def text (c : CString W) : List UInt8 := c.chars ++ [0]

/-- So many times the letter `a`. -/
def repeated (n : Nat) (short : n < W.modulus) : CString W where
  chars := List.replicate n 0x61
  noNul c member := by
    rw [List.eq_of_mem_replicate member]
    decide
  short := by
    rw [List.length_replicate]
    exact short

end CString

structure L4modInfo where
  flags : UInt64 := 0
  cmdline : UInt64 := 0
  modsAddr : UInt64 := 0
  modsCount : UInt32 := 0
  vbeCtrlInfo : UInt64 := 0
  vbeModeInfo : UInt64 := 0
  deriving DecidableEq, Repr

structure L4modMod where
  flags : ModuleFlag
  modStart : UInt64
  modEnd : UInt64
  cmdline : UInt64
  deriving DecidableEq, Repr

/-- What the loader relies on about `l4util_l4mod_info` and `l4util_l4mod_mod`: an object
determines its bytes and is determined by them, and it is aligned like its members. -/
structure L4modAbi (W : Wordsize) where
  infoSize : Nat
  modSize : Nat
  infoBytes : L4modInfo → List UInt8
  modBytes : L4modMod → List UInt8
  infoLength : ∀ info, (infoBytes info).length = infoSize
  modLength : ∀ mod, (modBytes mod).length = modSize
  infoInjective : Function.Injective infoBytes
  modInjective : Function.Injective modBytes
  infoAligned : W.bytes ∣ infoSize
  modAligned : W.bytes ∣ modSize

theorem le_bytes_injective {n a b : Nat} (aFits : a < 256 ^ n) (bFits : b < 256 ^ n)
    (same : leBytes n a = leBytes n b) : a = b := by
  have read : ∀ value, readLe (writeList 0 (leBytes n value) fun _ => 0) 0 n = value % 256 ^ n :=
    fun value => holds_write_list.read_le_bytes
  have equal := read a
  rw [same, read b, Nat.mod_eq_of_lt aFits, Nat.mod_eq_of_lt bFits] at equal
  exact equal.symm

/-- The members one behind the other, with the lowest byte first. -/
def packedAbi (W : Wordsize) : L4modAbi W where
  infoSize := 48
  modSize := 32
  infoBytes info := leBytes 8 info.flags.toNat ++ (leBytes 8 info.cmdline.toNat ++
    (leBytes 8 info.modsAddr.toNat ++ (leBytes 8 info.modsCount.toNat ++
    (leBytes 8 info.vbeCtrlInfo.toNat ++ leBytes 8 info.vbeModeInfo.toNat))))
  modBytes mod := leBytes 8 mod.flags.ctorIdx ++ (leBytes 8 mod.modStart.toNat ++
    (leBytes 8 mod.modEnd.toNat ++ leBytes 8 mod.cmdline.toNat))
  infoLength info := by simp only [List.length_append, length_le_bytes]
  modLength mod := by simp only [List.length_append, length_le_bytes]
  infoInjective := by
    intro a b same
    have word : ∀ x : UInt64, x.toNat < 256 ^ 8 := fun x => x.toNat_lt
    have half : ∀ x : UInt32, x.toNat < 256 ^ 8 := fun x => x.toNat_lt.trans (by decide)
    obtain ⟨flags, same⟩ := List.append_inj same (by simp only [length_le_bytes])
    obtain ⟨cmdline, same⟩ := List.append_inj same (by simp only [length_le_bytes])
    obtain ⟨modsAddr, same⟩ := List.append_inj same (by simp only [length_le_bytes])
    obtain ⟨modsCount, same⟩ := List.append_inj same (by simp only [length_le_bytes])
    obtain ⟨ctrl, mode⟩ := List.append_inj same (by simp only [length_le_bytes])
    cases a
    cases b
    simp only [L4modInfo.mk.injEq]
    exact ⟨UInt64.toNat_inj.mp (le_bytes_injective (word _) (word _) flags),
      UInt64.toNat_inj.mp (le_bytes_injective (word _) (word _) cmdline),
      UInt64.toNat_inj.mp (le_bytes_injective (word _) (word _) modsAddr),
      UInt32.toNat_inj.mp (le_bytes_injective (half _) (half _) modsCount),
      UInt64.toNat_inj.mp (le_bytes_injective (word _) (word _) ctrl),
      UInt64.toNat_inj.mp (le_bytes_injective (word _) (word _) mode)⟩
  modInjective := by
    intro a b same
    have word : ∀ x : UInt64, x.toNat < 256 ^ 8 := fun x => x.toNat_lt
    have small : ∀ x : ModuleFlag, x.ctorIdx < 256 ^ 8 := fun x => by cases x <;> decide
    have kind : ∀ x y : ModuleFlag, x.ctorIdx = y.ctorIdx → x = y := by
      intro x y equal
      cases x <;> cases y <;> first
        | rfl
        | exact absurd equal (by decide)
    obtain ⟨flags, same⟩ := List.append_inj same (by simp only [length_le_bytes])
    obtain ⟨modStart, same⟩ := List.append_inj same (by simp only [length_le_bytes])
    obtain ⟨modEnd, cmdline⟩ := List.append_inj same (by simp only [length_le_bytes])
    cases a
    cases b
    simp only [L4modMod.mk.injEq]
    exact ⟨kind _ _ (le_bytes_injective (small _) (small _) flags),
      UInt64.toNat_inj.mp (le_bytes_injective (word _) (word _) modStart),
      UInt64.toNat_inj.mp (le_bytes_injective (word _) (word _) modEnd),
      UInt64.toNat_inj.mp (le_bytes_injective (word _) (word _) cmdline)⟩
  infoAligned := by cases W <;> decide
  modAligned := by cases W <;> decide

/-- What becomes an entry of the array. -/
structure Item (W : Wordsize) where
  cmdline : Option (CString W)
  flags : ModuleFlag
  modStart : UInt64
  modEnd : UInt64

namespace Item

/-- `strlen + 1` as the `unsigned` that it is kept in. -/
def copySize (x : Item W) : Nat :=
  match x.cmdline with
  | none => 0
  | some c => (c.strlen + 1) % 2 ^ 32

/-- The bytes that the copy of the command line takes from it. -/
def copied (x : Item W) : List UInt8 :=
  match x.cmdline with
  | none => []
  | some c => c.text.take x.copySize

/-- The entry with its string at `strs`. -/
def entry (x : Item W) (strs : Nat) : L4modMod where
  flags := x.flags
  modStart := x.modStart
  modEnd := x.modEnd
  cmdline := if x.cmdline.isSome then UInt64.ofNat strs else 0

end Item

/-- The block while it is filled: the objects in it, and the cursor for the strings. `cnt`
counts the entries that do not count themselves in the header. -/
structure Filling (W : Wordsize) where
  bytes : Bytes
  info : L4modInfo
  mods : List L4modMod
  cnt : Nat
  strs : Nat

namespace Filling

def writeInfo (abi : L4modAbi W) (mbi : Nat) (info : L4modInfo) (f : Filling W) : Filling W :=
  { f with bytes := writeList mbi (abi.infoBytes info) f.bytes, info := info }

/-- Copy the command line to the cursor, and fill the entry at an index of the array. The
fields of the entry are written at once. -/
def put (abi : L4modAbi W) (array index : Nat) (x : Item W) (f : Filling W) : Filling W :=
  { f with
    bytes := writeList (W.add array (abi.modSize * index)) (abi.modBytes (x.entry f.strs))
      (writeList f.strs x.copied f.bytes)
    mods := f.mods ++ [x.entry f.strs]
    strs := W.add f.strs (roundWordsize W x.copySize) }

/-- The next entry in a loop that counts for itself. -/
def putNext (abi : L4modAbi W) (array : Nat) (f : Filling W) (x : Item W) : Filling W :=
  { f.put abi array f.cnt x with cnt := (f.cnt + 1) % 2 ^ 32 }

end Filling

/-! ## The writes of a run -/

abbrev Area := Nat × Nat

def Area.Apart (a b : Area) : Prop := a.1 + a.2 ≤ b.1 ∨ b.1 + b.2 ≤ a.1

def Area.Inside (a b : Area) : Prop := b.1 ≤ a.1 ∧ a.1 + a.2 ≤ b.1 + b.2

/-- Two areas share a byte. -/
def Area.meets (a b : Area) : Bool := max a.1 b.1 < min (a.1 + a.2) (b.1 + b.2)

/-- A byte of one of the areas. -/
def InAreas (areas : List Area) (p : Nat) : Prop :=
  ∃ area ∈ areas, area.1 ≤ p ∧ p < area.1 + area.2

theorem Area.meets_iff {a b : Area} :
    a.meets b = true ↔ ∃ p, (a.1 ≤ p ∧ p < a.1 + a.2) ∧ b.1 ≤ p ∧ p < b.1 + b.2 := by
  rw [Area.meets, decide_eq_true_eq]
  constructor
  · intro less
    exact ⟨max a.1 b.1, ⟨by omega, by omega⟩, by omega, by omega⟩
  · rintro ⟨p, inFirst, inSecond⟩
    omega

/-- Something that is written is in one of the areas. -/
def touches (written areas : List Area) : Bool :=
  written.any fun area => areas.any area.meets

/-- Writes that stay inside of a block. -/
def AllInside (written : List Area) (block : Area) : Prop :=
  ∀ area ∈ written, area.2 = 0 ∨ area.Inside block

theorem touches_eq_false {written areas : List Area} :
    touches written areas = false ↔ ∀ area ∈ written, ∀ p, area.1 ≤ p → p < area.1 + area.2 →
      ¬ InAreas areas p := by
  rw [Bool.eq_false_iff, ne_eq, touches]
  simp only [List.any_eq_true, Area.meets_iff]
  constructor
  · rintro clear area member p above below ⟨own, isOwn, inside⟩
    exact clear ⟨area, member, own, isOwn, p, ⟨above, below⟩, inside⟩
  · rintro clear ⟨area, member, own, isOwn, p, ⟨above, below⟩, inside⟩
    exact clear area member p above below ⟨own, isOwn, inside⟩

theorem touches_head {area : Area} {rest areas : List Area}
    (clear : touches (area :: rest) areas = false) : touches [area] areas = false := by
  rw [touches_eq_false] at clear ⊢
  intro own member
  rw [List.mem_singleton.mp member]
  exact clear area List.mem_cons_self

/-- Writes inside of a block avoid what the block avoids. -/
theorem AllInside.touches {written areas : List Area} {block : Area}
    (inside : AllInside written block) (clear : touches [block] areas = false) :
    L4Bootstrap.touches written areas = false := by
  rw [touches_eq_false] at clear ⊢
  intro area member p above below
  rcases inside area member with empty | ⟨low, high⟩
  · omega
  · exact clear _ (List.mem_singleton.mpr rfl) p (low.trans above) (below.trans_le high)

theorem Area.Apart.symm {a b : Area} (apart : a.Apart b) : b.Apart a := Or.symm apart

/-- The entries of items whose strings start at `c`. -/
def entriesFrom (c : Nat) : List (Item W) → List L4modMod
  | [] => []
  | x :: rest => x.entry c :: entriesFrom (W.add c (roundWordsize W x.copySize)) rest

def cursorAfter (c : Nat) : List (Item W) → Nat
  | [] => c
  | x :: rest => cursorAfter (W.add c (roundWordsize W x.copySize)) rest

/-- The writes that put one item into the array at index `k`, behind those of `pre`. -/
def itemWrites (abi : L4modAbi W) (array : Nat) (pre : Nat → List (Nat × List UInt8)) (k c : Nat)
    (x : Item W) : List (Nat × List UInt8) :=
  pre k ++ [(c, x.copied),
    (W.add array (abi.modSize * (k % 2 ^ 32)), abi.modBytes (x.entry c))]

/-- The writes that put the items into the array from index `k` on. -/
def logFrom (abi : L4modAbi W) (array : Nat) (pre : Nat → List (Nat × List UInt8)) :
    Nat → Nat → List (Item W) → List (Nat × List UInt8)
  | _, _, [] => []
  | k, c, x :: rest =>
      itemWrites abi array pre k c x ++
        logFrom abi array pre (k + 1) (W.add c (roundWordsize W x.copySize)) rest

/-- The area of the string that an entry points to. -/
def Item.textAreas (x : Item W) (e : L4modMod) : List Area :=
  (x.cmdline.map fun c => (e.cmdline.toNat, c.strlen + 1)).toList

/-- The strings and the entries of the array from index `k` on, as the entries have them. -/
def itemAreas (abi : L4modAbi W) (array : Nat) : Nat → List (Item W × L4modMod) → List Area
  | _, [] => []
  | k, (x, e) :: rest =>
      x.textAreas e ++ (array + abi.modSize * k, abi.modSize) :: itemAreas abi array (k + 1) rest

theorem write_all_append (front back : List (Nat × List UInt8)) (bytes : Bytes) :
    writeAll (front ++ back) bytes = writeAll back (writeAll front bytes) :=
  List.foldl_append

theorem words_le_modulus (W : Wordsize) : W.modulus ≤ 2 ^ 64 := by
  cases W <;> decide

theorem word_shift_le (W : Wordsize) : wordShift W ≤ W.bits := by
  cases W <;> decide

theorem dvd_modulus (W : Wordsize) : W.bytes ∣ W.modulus := by
  cases W <;> decide

theorem bytes_eq_shift (W : Wordsize) : W.bytes = 2 ^ wordShift W := by
  cases W <;> rfl

theorem round_wordsize_mod (W : Wordsize) (s : Nat) :
    roundWordsize W s = wordUp W s % W.modulus :=
  W.round_size_mod (word_shift_le W) s

theorem add_round_wordsize (W : Wordsize) (c s : Nat) :
    W.add c (roundWordsize W s) = (c + wordUp W s) % W.modulus := by
  rw [round_wordsize_mod, Wordsize.add, Nat.add_mod_mod]

theorem length_entries_from (c : Nat) (items : List (Item W)) :
    (entriesFrom c items).length = items.length := by
  induction items generalizing c with
  | nil => rfl
  | cons x rest ih => rw [entriesFrom, List.length_cons, List.length_cons, ih]

theorem cstring_text_length (c : CString W) : c.text.length = c.strlen + 1 := by
  rw [CString.text, List.length_append, CString.strlen, List.length_singleton]

namespace L4modAbi

theorem mod_size_pos (abi : L4modAbi W) : 0 < abi.modSize := by
  by_contra zero
  have empty : ∀ mod, abi.modBytes mod = [] := fun mod =>
    List.eq_nil_of_length_eq_zero (by rw [abi.modLength]; omega)
  have same := @abi.modInjective ⟨.unspec, 0, 0, 0⟩ ⟨.unspec, 0, 0, 1⟩ (by rw [empty, empty])
  exact absurd same (by decide)

end L4modAbi

section

variable {abi : L4modAbi W} {array k c : Nat} {pre : Nat → List (Nat × List UInt8)}
  {items rest : List (Item W)} {x : Item W}

theorem slot_address (index : k < 2 ^ 32) (fits : array + abi.modSize * (k + 1) ≤ W.modulus) :
    W.add array (abi.modSize * (k % 2 ^ 32)) = array + abi.modSize * k := by
  have pos := abi.mod_size_pos
  rw [Nat.mul_add, Nat.mul_one] at fits
  rw [Nat.mod_eq_of_lt index, W.add_of_lt (by omega)]

theorem entry_cmdline {t : CString W} (isSome : x.cmdline = some t) (word : c < W.modulus) :
    (x.entry c).cmdline.toNat = c := by
  simp only [Item.entry, isSome, Option.isSome_some, if_true]
  exact UInt64.toNat_ofNat_of_lt (word.trans_le (words_le_modulus W))

theorem mem_text_areas {e : L4modMod} {area : Area} :
    area ∈ x.textAreas e ↔ ∃ t, x.cmdline = some t ∧ (e.cmdline.toNat, t.strlen + 1) = area := by
  simp only [Item.textAreas, Option.mem_toList, Option.map_eq_some_iff]

theorem text_areas_of_some {e : L4modMod} {t : CString W} (isText : x.cmdline = some t) :
    x.textAreas e = [(e.cmdline.toNat, t.strlen + 1)] := by
  simp only [Item.textAreas, isText, Option.map_some, Option.toList_some]

theorem length_copied_le {t : CString W} (isSome : x.cmdline = some t) :
    x.copied.length ≤ t.strlen + 1 := by
  simp only [Item.copied, isSome, List.length_take, cstring_text_length]
  exact Nat.min_le_right _ _

/-- The array has a place for these items. -/
structure Slots (abi : L4modAbi W) (array k : Nat) (items : List (Item W)) : Prop where
  count : k + items.length ≤ 2 ^ 32
  inside : array + abi.modSize * (k + items.length) ≤ W.modulus

theorem Slots.tail (slots : Slots abi array k (x :: rest)) : Slots abi array (k + 1) rest := by
  obtain ⟨count, inside⟩ := slots
  rw [List.length_cons] at count inside
  refine ⟨by omega, ?_⟩
  rw [Nat.add_assoc, Nat.add_comm 1]
  exact inside

theorem Slots.one (slots : Slots abi array k (x :: rest)) : Slots abi array k [x] := by
  have count := slots.count
  rw [List.length_cons] at count
  refine ⟨by rw [List.length_singleton]; omega,
    le_trans (Nat.add_le_add_left (Nat.mul_le_mul_left _ ?_) _) slots.inside⟩
  simp

theorem Slots.head (slots : Slots abi array k (x :: rest)) :
    W.add array (abi.modSize * (k % 2 ^ 32)) = array + abi.modSize * k := by
  obtain ⟨count, inside⟩ := slots
  rw [List.length_cons] at count inside
  refine slot_address (by omega) (le_trans ?_ inside)
  exact Nat.add_le_add_left (Nat.mul_le_mul_left _ (by omega)) _

/-- Every write goes to a string or an entry, or is one of `pre`. -/
theorem log_windows (slots : Slots abi array k items) (word : c < W.modulus)
    {write : Nat × List UInt8} (member : write ∈ logFrom abi array pre k c items) :
    (∃ j, write ∈ pre j) ∨ write.2 = [] ∨
      ∃ area ∈ itemAreas abi array k (items.zip (entriesFrom c items)),
        Area.Inside (write.1, write.2.length) area := by
  induction items generalizing k c with
  | nil => simp [logFrom] at member
  | cons x rest ih =>
      simp only [logFrom, itemWrites, List.mem_append, List.mem_cons, List.not_mem_nil,
        or_false] at member
      simp only [entriesFrom, List.zip_cons_cons, itemAreas, List.mem_append, List.mem_cons]
      rcases member with (inPre | rfl | rfl) | later
      · exact Or.inl ⟨k, inPre⟩
      · cases isText : x.cmdline with
        | none =>
            refine Or.inr (Or.inl ?_)
            simp only [Item.copied, isText]
        | some t =>
            refine Or.inr (Or.inr ⟨(c, t.strlen + 1), Or.inl ?_, le_rfl, ?_⟩)
            · simp [text_areas_of_some isText, entry_cmdline isText word]
            · exact Nat.add_le_add_left (length_copied_le isText) c
      · refine Or.inr (Or.inr ⟨_, Or.inr (Or.inl rfl), ?_⟩)
        simp only [Area.Inside, slots.head, abi.modLength]
        exact ⟨le_rfl, le_rfl⟩
      · rcases ih slots.tail (W.add_lt _ _) later with inPre | empty | ⟨area, inAreas, inside⟩
        · exact Or.inl inPre
        · exact Or.inr (Or.inl empty)
        · exact Or.inr (Or.inr ⟨area, Or.inr (Or.inr inAreas), inside⟩)

/-- A byte in front of and behind an area. -/
def Outside (a : Nat) (area : Area) : Prop := a < area.1 ∨ area.1 + area.2 ≤ a

theorem log_outside (slots : Slots abi array k items) (word : c < W.modulus) {bytes : Bytes}
    {a : Nat} (offPre : ∀ j, ∀ write ∈ pre j, Outside a (write.1, write.2.length))
    (offAreas : ∀ area ∈ itemAreas abi array k (items.zip (entriesFrom c items)), Outside a area) :
    writeAll (logFrom abi array pre k c items) bytes a = bytes a := by
  apply write_all_outside
  intro write member
  rcases log_windows slots word member with ⟨j, inPre⟩ | empty | ⟨area, inAreas, inside⟩
  · exact offPre j write inPre
  · rw [empty, List.length_nil]
    omega
  · have off := offAreas area inAreas
    unfold Outside at off
    unfold Area.Inside at inside
    dsimp only at inside
    omega

theorem copied_get {t : CString W} (isText : x.cmdline = some t) {j : Nat} :
    (j < x.copied.length ↔ j < x.copySize) ∧ (j < x.copySize → x.copied.getD j 0 = t.text.getD j 0) := by
  have size : x.copySize ≤ t.text.length := by
    simp only [Item.copySize, isText, cstring_text_length]
    exact Nat.mod_le _ _
  have copied : x.copied = t.text.take x.copySize := by simp only [Item.copied, isText]
  rw [copied, List.length_take, Nat.min_eq_left size]
  refine ⟨Iff.rfl, fun inside => ?_⟩
  rw [List.getD_eq_getElem?_getD, List.getD_eq_getElem?_getD, List.getElem?_take_of_lt inside]

theorem outside_of_apart {a : Nat} {own other : Area} (apart : own.Apart other) (above : own.1 ≤ a)
    (below : a < own.1 + own.2) : Outside a other := by
  unfold Area.Apart at apart
  unfold Outside
  omega

/-- The areas of one item. -/
theorem item_areas_one (x : Item W) (e : L4modMod) :
    itemAreas abi array k [(x, e)] =
      x.textAreas e ++ [(array + abi.modSize * k, abi.modSize)] := rfl

theorem item_areas_cons (x : Item W) (e : L4modMod) (pairs : List (Item W × L4modMod)) :
    itemAreas abi array k ((x, e) :: pairs) =
      itemAreas abi array k [(x, e)] ++ itemAreas abi array (k + 1) pairs := by
  rw [item_areas_one, List.append_assoc]
  rfl

/-- The bytes of an area that everything else is apart from: those that are written to it,
and those that were there behind the copied ones. -/
def Stands (abi : L4modAbi W) (slot : Nat) (x : Item W) (e : L4modMod) (before after : Bytes) :
    Prop :=
  Holds after slot (abi.modBytes e) ∧ ∀ t, x.cmdline = some t → ∀ j < t.strlen + 1,
    after (e.cmdline.toNat + j) =
      if j < x.copySize then t.text.getD j 0 else before (e.cmdline.toNat + j)

theorem item_writes_stand (slot : W.add array (abi.modSize * (k % 2 ^ 32)) = array + abi.modSize * k)
    (word : c < W.modulus)
    (apart : (itemAreas abi array k [(x, x.entry c)]).Pairwise Area.Apart)
    (offPre : ∀ write ∈ pre k, ∀ area ∈ itemAreas abi array k [(x, x.entry c)],
      area.Apart (write.1, write.2.length)) (bytes : Bytes) :
    Stands abi (array + abi.modSize * k) x (x.entry c) bytes
      (writeAll (itemWrites abi array pre k c x) bytes) := by
  rw [itemWrites, write_all_append]
  change Stands _ _ _ _ _ (writeList _ _ (writeList c x.copied (writeAll (pre k) bytes)))
  rw [slot]
  refine ⟨holds_write_list, fun t isText j inside => ?_⟩
  simp only [item_areas_one, text_areas_of_some isText, entry_cmdline isText word,
    List.cons_append, List.nil_append, List.pairwise_cons, List.mem_cons, List.not_mem_nil,
    or_false, forall_eq_or_imp, forall_eq] at apart offPre
  rw [entry_cmdline isText word, write_list_outside]
  · obtain ⟨sameLength, sameByte⟩ := copied_get isText (j := j)
    unfold writeList
    rw [Nat.add_sub_cancel_left]
    by_cases copied : j < x.copySize
    · rw [if_pos ⟨Nat.le_add_right _ _, by omega⟩, if_pos copied, sameByte copied]
    · rw [if_neg (by omega), if_neg copied]
      apply write_all_outside
      intro write inPre
      exact outside_of_apart (offPre write inPre).1 (Nat.le_add_right _ _)
        (Nat.add_lt_add_left inside c)
  · rw [abi.modLength]
    exact outside_of_apart apart.1 (Nat.le_add_right _ _) (Nat.add_lt_add_left inside c)

variable (abi array) in
theorem item_areas_subset {pairs : List (Item W × L4modMod)} {i : Nat} {e : L4modMod}
    (isPair : pairs[i]? = some (x, e)) :
    itemAreas abi array (k + i) [(x, e)] ⊆ itemAreas abi array k pairs := by
  induction pairs generalizing k i with
  | nil => simp at isPair
  | cons pair pairs ih =>
      obtain ⟨y, other⟩ := pair
      rw [item_areas_cons y]
      cases i with
      | zero =>
          rw [List.getElem?_cons_zero] at isPair
          cases isPair
          exact List.subset_append_left _ _
      | succ i =>
          rw [List.getElem?_cons_succ] at isPair
          rw [← Nat.add_assoc, Nat.add_right_comm]
          exact fun area inItem => List.subset_append_right _ _ (ih isPair inItem)

/-- Only the bytes of the areas of the item matter. -/
theorem Stands.congr {e : L4modMod} {before mid after late : Bytes}
    (stands : Stands abi (array + abi.modSize * k) x e before mid)
    (sameAfter : ∀ area ∈ itemAreas abi array k [(x, e)], ∀ a, area.1 ≤ a → a < area.1 + area.2 →
      late a = mid a)
    (sameBefore : ∀ area ∈ itemAreas abi array k [(x, e)], ∀ a, area.1 ≤ a →
      a < area.1 + area.2 → after a = before a) :
    Stands abi (array + abi.modSize * k) x e after late := by
  obtain ⟨entry, texts⟩ := stands
  constructor
  · apply entry.frame
    rw [abi.modLength]
    exact sameAfter (array + abi.modSize * k, abi.modSize) (by simp [item_areas_one])
  · intro t isText j inside
    have inAreas : (e.cmdline.toNat, t.strlen + 1) ∈ itemAreas abi array k [(x, e)] := by
      simp [item_areas_one, text_areas_of_some isText]
    have above := Nat.le_add_right e.cmdline.toNat j
    have below := Nat.add_lt_add_left inside e.cmdline.toNat
    rw [sameAfter _ inAreas _ above below, sameBefore _ inAreas _ above below]
    exact texts t isText j inside

/-- All items stand in the array and at their strings behind the writes of a run. -/
theorem log_stands (slots : Slots abi array k items) (word : c < W.modulus)
    (apart : (itemAreas abi array k (items.zip (entriesFrom c items))).Pairwise Area.Apart)
    (offPre : ∀ j, ∀ write ∈ pre j, ∀ area ∈ itemAreas abi array k (items.zip (entriesFrom c items)),
      area.Apart (write.1, write.2.length))
    {i : Nat} {e : L4modMod} (isPair : (items.zip (entriesFrom c items))[i]? = some (x, e))
    (bytes : Bytes) :
    Stands abi (array + abi.modSize * (k + i)) x e bytes
      (writeAll (logFrom abi array pre k c items) bytes) := by
  induction items generalizing k c i bytes with
  | nil => simp at isPair
  | cons y rest ih =>
      have nextWord : W.add c (roundWordsize W y.copySize) < W.modulus := W.add_lt _ _
      have slotsOne : Slots abi array k [y] := slots.one
      simp only [entriesFrom, List.zip_cons_cons] at apart offPre isPair
      rw [item_areas_cons] at apart offPre
      obtain ⟨ownApart, restApart, between⟩ := List.pairwise_append.mp apart
      have offOwn := fun j write inPre area inOwn =>
        offPre j write inPre area (List.mem_append_left _ inOwn)
      have offRest := fun j write inPre area inRest =>
        offPre j write inPre area (List.mem_append_right _ inRest)
      rw [logFrom, write_all_append]
      cases i with
      | zero =>
          rw [List.getElem?_cons_zero] at isPair
          cases isPair
          apply (item_writes_stand slots.head word ownApart (offOwn k) bytes).congr
          · intro area inOwn a above below
            apply log_outside slots.tail nextWord
            · exact fun j write inPre => outside_of_apart (offOwn j write inPre area inOwn) above below
            · exact fun other inRest => outside_of_apart (between area inOwn other inRest) above below
          · exact fun _ _ _ _ _ => rfl
      | succ i =>
          rw [List.getElem?_cons_succ] at isPair
          have stands := ih slots.tail nextWord restApart offRest isPair
            (writeAll (itemWrites abi array pre k c y) bytes)
          rw [← Nat.add_assoc, Nat.add_right_comm]
          apply stands.congr
          · exact fun _ _ _ _ _ => rfl
          · intro area inOwn a above below
            have inRest := item_areas_subset abi array isPair inOwn
            have one : writeAll (logFrom abi array pre k c [y]) bytes a = bytes a := by
              apply log_outside slotsOne word
              · exact fun j write inPre =>
                  outside_of_apart (offRest j write inPre area inRest) above below
              · exact fun other inFirst =>
                  outside_of_apart (between other inFirst area inRest).symm above below
            rw [logFrom, logFrom, List.append_nil] at one
            exact one.symm

/-! ## The places of the strings -/

/-- What a command line takes of the block. -/
def Item.room (x : Item W) : Nat :=
  match x.cmdline with
  | none => 0
  | some t => wordUp W (t.strlen + 1)

def roomOf (items : List (Item W)) : Nat := (items.map Item.room).sum

@[simp] theorem room_of_nil : roomOf ([] : List (Item W)) = 0 := rfl

@[simp] theorem room_of_cons (x : Item W) (items : List (Item W)) :
    roomOf (x :: items) = x.room + roomOf items := by
  simp [roomOf]

/-- The length of the string with its NUL is an `unsigned`. -/
def Item.Counted (x : Item W) : Prop := ∀ t, x.cmdline = some t → t.strlen + 1 < 2 ^ 32

theorem copy_size_counted (counted : x.Counted) {t : CString W} (isText : x.cmdline = some t) :
    x.copySize = t.strlen + 1 := by
  simp only [Item.copySize, isText]
  exact Nat.mod_eq_of_lt (counted t isText)

theorem le_word_up (s : Nat) : s ≤ wordUp W s := le_round_up _ s

theorem dvd_room (x : Item W) : W.bytes ∣ x.room := by
  unfold Item.room
  rw [bytes_eq_shift]
  split
  · exact Nat.dvd_zero _
  · exact dvd_round_up _ _

theorem next_cursor (counted : x.Counted) (o : Nat) :
    W.add (o % W.modulus) (roundWordsize W x.copySize) = (o + x.room) % W.modulus := by
  rw [add_round_wordsize, Nat.mod_add_mod]
  cases isText : x.cmdline with
  | none =>
      have none : wordUp W 0 = 0 := round_up_of_dvd (Nat.dvd_zero _)
      simp only [Item.copySize, Item.room, isText, none]
  | some t =>
      rw [copy_size_counted counted isText]
      simp only [Item.room, isText]

theorem dvd_room_of : W.bytes ∣ roomOf items := by
  induction items with
  | nil => exact Nat.dvd_zero _
  | cons x rest ih =>
      rw [room_of_cons]
      exact Nat.dvd_add (dvd_room x) ih

theorem cursor_after_eq (counted : ∀ x ∈ items, x.Counted) (o : Nat) :
    cursorAfter (o % W.modulus) items = (o + roomOf items) % W.modulus := by
  induction items generalizing o with
  | nil => rfl
  | cons x rest ih =>
      rw [cursorAfter, next_cursor (counted x List.mem_cons_self),
        ih fun y inRest => counted y (List.mem_cons_of_mem _ inRest), room_of_cons, Nat.add_assoc]

/-- Where the string of an item lies. -/
theorem text_area_where {o : Nat} (fits : o + x.room ≤ W.modulus) {area : Area}
    (isText : area ∈ x.textAreas (x.entry (o % W.modulus))) : area.Inside (o, x.room) := by
  obtain ⟨t, isSome, rfl⟩ := mem_text_areas.mp isText
  have room : x.room = wordUp W (t.strlen + 1) := by simp only [Item.room, isSome]
  have upTo := le_word_up (W := W) (t.strlen + 1)
  have below : o < W.modulus := by omega
  rw [Nat.mod_eq_of_lt below, entry_cmdline isSome below]
  refine ⟨le_rfl, ?_⟩
  dsimp only
  omega

/-- Where the areas of items lie whose strings start at `o`. -/
theorem item_areas_where {o : Nat} (counted : ∀ x ∈ items, x.Counted)
    (fits : o + roomOf items ≤ W.modulus) {area : Area}
    (inAreas : area ∈ itemAreas abi array k (items.zip (entriesFrom (o % W.modulus) items))) :
    area.Inside (o, roomOf items) ∨
      area.Inside (array + abi.modSize * k, abi.modSize * items.length) := by
  induction items generalizing k o with
  | nil => simp [itemAreas] at inAreas
  | cons x rest ih =>
      rw [room_of_cons] at fits
      rw [entriesFrom, List.zip_cons_cons, item_areas_cons, next_cursor (counted x (by simp)),
        item_areas_one, List.mem_append, List.mem_append, List.mem_singleton] at inAreas
      unfold Area.Inside
      rw [room_of_cons, List.length_cons, Nat.mul_add, Nat.mul_one]
      rcases inAreas with (inText | rfl) | inRest
      · obtain ⟨above, below⟩ := text_area_where (by omega) inText
        exact Or.inl ⟨above, by dsimp only at below ⊢; omega⟩
      · exact Or.inr ⟨le_rfl, by dsimp only; omega⟩
      · rcases ih (fun y inRest => counted y (by simp [inRest])) (by omega) inRest with inText | inSlots
        · obtain ⟨above, below⟩ := inText
          exact Or.inl ⟨(Nat.le_add_right _ _).trans above, by dsimp only at below ⊢; omega⟩
        · obtain ⟨above, below⟩ := inSlots
          rw [Nat.mul_add, Nat.mul_one] at above below
          exact Or.inr ⟨by dsimp only at above ⊢; omega, by dsimp only at below ⊢; omega⟩

theorem item_areas_apart {o : Nat} (counted : ∀ x ∈ items, x.Counted)
    (fits : o + roomOf items ≤ W.modulus) (behind : array + abi.modSize * (k + items.length) ≤ o) :
    (itemAreas abi array k (items.zip (entriesFrom (o % W.modulus) items))).Pairwise Area.Apart := by
  induction items generalizing k o with
  | nil => exact .nil
  | cons x rest ih =>
      rw [room_of_cons] at fits
      have countedRest : ∀ y ∈ rest, y.Counted := fun y inRest => counted y (by simp [inRest])
      have slots : array + abi.modSize * (k + 1 + rest.length) ≤ o := by
        rw [List.length_cons] at behind
        rw [Nat.add_assoc, Nat.add_comm 1]
        exact behind
      have slotEnd : array + abi.modSize * k + abi.modSize + abi.modSize * rest.length ≤ o := by
        rw [Nat.mul_add, Nat.mul_add, Nat.mul_one] at slots
        omega
      rw [entriesFrom, List.zip_cons_cons, item_areas_cons, next_cursor (counted x (by simp)),
        item_areas_one]
      have single : (x.textAreas (x.entry (o % W.modulus))).Pairwise Area.Apart := by
        unfold Item.textAreas
        cases x.cmdline <;> simp
      refine List.pairwise_append.mpr ⟨List.pairwise_append.mpr ⟨single, by simp, ?_⟩,
        ih countedRest (by omega) (by omega), ?_⟩
      · intro area inText other isSlot
        obtain ⟨above, _⟩ := text_area_where (by omega) inText
        rw [List.mem_singleton.mp isSlot]
        exact Or.inr (by dsimp only at above ⊢; omega)
      · intro area inItem other inRest
        have places := item_areas_where countedRest (by omega) inRest
        unfold Area.Inside at places
        rw [Nat.mul_add, Nat.mul_one] at places
        dsimp only at places
        unfold Area.Apart
        rcases List.mem_append.mp inItem with inText | isSlot
        · obtain ⟨above, below⟩ := text_area_where (by omega) inText
          dsimp only at above below
          omega
        · rw [List.mem_singleton.mp isSlot]
          dsimp only
          omega

/-- Bytes that lie in the block leave room up to the next word. -/
theorem room_inside {mbi size off length : Nat} (pos : 0 < mbi) (block : mbi + size ≤ W.modulus)
    (sizeAligned : W.bytes ∣ size) (offAligned : W.bytes ∣ off) (start : off ≤ size)
    (inside : Area.Inside ((mbi + off) % W.modulus, length) (mbi, size)) :
    off + wordUp W length ≤ size := by
  obtain ⟨above, below⟩ := inside
  dsimp only at above below
  -- the cursor has not wrapped around, because nothing of the block lies at 0
  have cursor : (mbi + off) % W.modulus = mbi + off := by
    rcases Nat.lt_or_ge (mbi + off) W.modulus with less | top
    · exact Nat.mod_eq_of_lt less
    · have same : mbi + off = W.modulus := by omega
      rw [same, Nat.mod_self] at above
      omega
  rw [cursor] at below
  rw [bytes_eq_shift] at sizeAligned offAligned
  have upTo : wordUp W length ≤ size - off :=
    round_up_le (Nat.dvd_sub sizeAligned offAligned) (by omega)
  omega

variable (abi array k) in
/-- Strings that all lie in the block leave room for what they take of it. -/
theorem rooms_inside {mbi size off : Nat} (counted : ∀ x ∈ items, x.Counted) (pos : 0 < mbi)
    (block : mbi + size ≤ W.modulus) (sizeAligned : W.bytes ∣ size) (offAligned : W.bytes ∣ off)
    (start : off ≤ size)
    (inside : ∀ area ∈ itemAreas abi array k
      (items.zip (entriesFrom ((mbi + off) % W.modulus) items)), area.Inside (mbi, size)) :
    off + roomOf items ≤ size := by
  induction items generalizing k off with
  | nil => exact start
  | cons x rest ih =>
      rw [room_of_cons, ← Nat.add_assoc]
      rw [entriesFrom, List.zip_cons_cons, item_areas_cons, next_cursor (counted x (by simp)),
        item_areas_one, Nat.add_assoc] at inside
      apply ih _ (fun y inRest => counted y (by simp [inRest])) (Nat.dvd_add offAligned (dvd_room x)) _
        fun area inRest => inside area (List.mem_append_right _ inRest)
      cases isText : x.cmdline with
      | none => simpa only [Item.room, isText, Nat.add_zero] using start
      | some t =>
          have inText := inside _ (List.mem_append_left _ (List.mem_append_left _
            (mem_text_areas.mpr ⟨t, isText, rfl⟩)))
          rw [entry_cmdline isText (Nat.mod_lt _ W.modulus_pos)] at inText
          have room : x.room = wordUp W (t.strlen + 1) := by simp only [Item.room, isText]
          rw [room]
          exact room_inside pos block sizeAligned offAligned start inText

/-- A string of more bytes than the counter holds is not copied to its end. -/
theorem counted_of_copied {slot : Nat} {e : L4modMod} {before after : Bytes}
    (stands : Stands abi slot x e before after)
    (zeros : ∀ t, x.cmdline = some t → ∀ j < t.strlen + 1, before (e.cmdline.toNat + j) = 0)
    (copied : ∀ t, x.cmdline = some t → Holds after e.cmdline.toNat t.text) : x.Counted := by
  intro t isText
  by_contra long
  have size : x.copySize = (t.strlen + 1) % 2 ^ 32 := by simp only [Item.copySize, isText]
  have short : x.copySize < t.strlen := by omega
  have byte := stands.2 t isText x.copySize (by omega)
  rw [if_neg (lt_irrefl _), zeros t isText _ (by omega),
    copied t isText x.copySize (by rw [cstring_text_length]; omega)] at byte
  have inChars : x.copySize < t.chars.length := short
  rw [CString.text, List.getD_eq_getElem?_getD, List.getElem?_append_left inChars,
    List.getElem?_eq_getElem inChars] at byte
  exact t.noNul _ (List.getElem_mem inChars) byte

theorem holds_of_stands {slot : Nat} {e : L4modMod} {before after : Bytes} {t : CString W}
    (stands : Stands abi slot x e before after) (counted : x.Counted)
    (isText : x.cmdline = some t) : Holds after e.cmdline.toNat t.text := by
  intro j inside
  rw [cstring_text_length] at inside
  rw [stands.2 t isText j inside, copy_size_counted counted isText, if_pos inside]

/-! ## Runs of the loop -/

/-- What a run of one of the loops over the items leaves behind. -/
structure Ran (abi : L4modAbi W) (array : Nat) (pre : Nat → List (Nat × List UInt8)) (k : Nat)
    (items : List (Item W)) (f g : Filling W) : Prop where
  bytes : g.bytes = writeAll (logFrom abi array pre k f.strs items) f.bytes
  mods : g.mods = f.mods ++ entriesFrom f.strs items
  strs : g.strs = cursorAfter f.strs items

theorem put_bytes (abi : L4modAbi W) (array k : Nat) (x : Item W) (f : Filling W) :
    (f.put abi array (k % 2 ^ 32) x).bytes =
      writeAll (itemWrites abi array (fun _ => []) k f.strs x) f.bytes := rfl

variable (abi array k items) in
theorem put_next_ran {f : Filling W} (cnt : f.cnt = k % 2 ^ 32) :
    Ran abi array (fun _ => []) k items f (items.foldl (Filling.putNext abi array) f) ∧
      (items.foldl (Filling.putNext abi array) f).info = f.info ∧
      (items.foldl (Filling.putNext abi array) f).cnt = (k + items.length) % 2 ^ 32 := by
  induction items generalizing k f with
  | nil => exact ⟨⟨rfl, by simp [entriesFrom], rfl⟩, rfl, cnt⟩
  | cons x rest ih =>
      have next : (Filling.putNext abi array f x).cnt = (k + 1) % 2 ^ 32 := by
        change (f.cnt + 1) % 2 ^ 32 = _
        rw [cnt, Nat.mod_add_mod]
      obtain ⟨ran, info, count⟩ := ih _ next
      rw [List.foldl_cons]
      refine ⟨⟨?_, ?_, ran.strs⟩, info, ?_⟩
      · rw [ran.bytes, logFrom, write_all_append, ← put_bytes, ← cnt]
        rfl
      · rw [ran.mods]
        change (f.mods ++ [x.entry f.strs]) ++ _ = _
        rw [List.append_assoc]
        rfl
      · rw [count, List.length_cons, Nat.add_assoc, Nat.add_comm 1]

theorem log_append (front back : List (Item W)) :
    logFrom abi array pre k c (front ++ back) =
      logFrom abi array pre k c front ++
        logFrom abi array pre (k + front.length) (cursorAfter c front) back := by
  induction front generalizing k c with
  | nil => rfl
  | cons x front ih =>
      rw [List.cons_append, logFrom, ih, logFrom, List.append_assoc, List.length_cons,
        Nat.add_assoc, Nat.add_comm 1]
      rfl

theorem entries_from_append (front back : List (Item W)) :
    entriesFrom c (front ++ back) = entriesFrom c front ++ entriesFrom (cursorAfter c front) back := by
  induction front generalizing c with
  | nil => rfl
  | cons x front ih =>
      rw [List.cons_append, entriesFrom, ih]
      rfl

theorem entries_from_get {i : Nat} {e : L4modMod} (isItem : items[i]? = some x)
    (isEntry : (entriesFrom c items)[i]? = some e) : ∃ strs, e = x.entry strs := by
  induction items generalizing c i with
  | nil => simp at isItem
  | cons y rest ih =>
      cases i with
      | zero =>
          rw [entriesFrom, List.getElem?_cons_zero] at isEntry
          rw [List.getElem?_cons_zero] at isItem
          cases isItem
          cases isEntry
          exact ⟨c, rfl⟩
      | succ i =>
          rw [entriesFrom, List.getElem?_cons_succ] at isEntry
          rw [List.getElem?_cons_succ] at isItem
          exact ih isItem isEntry

variable (abi array k c pre items) in
theorem log_congr (other : Nat → List (Nat × List UInt8))
    (same : ∀ j, k ≤ j → j < k + items.length → pre j = other j) :
    logFrom abi array pre k c items = logFrom abi array other k c items := by
  induction items generalizing k c with
  | nil => rfl
  | cons x rest ih =>
      rw [List.length_cons] at same
      rw [logFrom, logFrom, itemWrites, itemWrites, same k le_rfl (by omega),
        ih _ _ fun j above below => same j (by omega) (by omega)]

end

/-! ## A filled block -/

/-- The block that a function returns, with the objects in it. -/
structure BootInfo where
  addr : Nat
  info : L4modInfo
  mods : List L4modMod
  deriving DecidableEq, Repr

/-- The areas of the block, `extra` among them. -/
def BootInfo.areas (abi : L4modAbi W) (extra : List Area) (items : List (Item W)) (mbi : BootInfo) :
    List Area :=
  (mbi.addr, abi.infoSize) :: extra ++
    itemAreas abi mbi.info.modsAddr.toNat 0 (items.zip mbi.mods)

/-- The items are listed in a block of so many bytes, and nothing is written elsewhere. -/
structure MbiFilled (abi : L4modAbi W) (size : Nat) (extra : List Area) (items : List (Item W))
    (before after : Bytes) (mbi : BootInfo) : Prop where
  frame : ∀ a, Outside a (mbi.addr, size) → after a = before a
  count : mbi.info.modsCount.toNat = items.length
  order : (mbi.mods.map fun e => (e.flags, e.modStart, e.modEnd)) =
    items.map fun x => (x.flags, x.modStart, x.modEnd)
  inside : ∀ area ∈ mbi.areas abi extra items, area.Inside (mbi.addr, size)
  apart : (mbi.areas abi extra items).Pairwise Area.Apart
  header : Holds after mbi.addr (abi.infoBytes mbi.info)
  array : ∀ (i : Nat) (e : L4modMod), mbi.mods[i]? = some e →
    Holds after (mbi.info.modsAddr.toNat + abi.modSize * i) (abi.modBytes e)
  cmdlines : ∀ (i : Nat) (x : Item W) (e : L4modMod) (t : CString W), items[i]? = some x →
    mbi.mods[i]? = some e → x.cmdline = some t → Holds after e.cmdline.toNat t.text

/-- The block behind a loop that lists the items, from the bytes in front of the loop. -/
structure Listing (abi : L4modAbi W) (pre : Nat → List (Nat × List UInt8)) (start : Nat)
    (items : List (Item W)) (base after : Bytes) (mbi : BootInfo) : Prop where
  bytes : after = writeAll (logFrom abi mbi.info.modsAddr.toNat pre 0 start items) base
  mods : mbi.mods = entriesFrom start items
  word : start < W.modulus
  headers : ∀ j, ∀ write ∈ pre j, write.1 = mbi.addr ∧ write.2.length = abi.infoSize

namespace Listing

variable {abi : L4modAbi W} {pre : Nat → List (Nat × List UInt8)} {start : Nat}
  {items : List (Item W)} {base after : Bytes} {mbi : BootInfo} {extra : List Area}

/-- The areas of the items are apart from each other and from those in front of them. -/
theorem items_apart (apart : (mbi.areas abi extra items).Pairwise Area.Apart) :
    (itemAreas abi mbi.info.modsAddr.toNat 0 (items.zip mbi.mods)).Pairwise Area.Apart ∧
      (∀ area ∈ itemAreas abi mbi.info.modsAddr.toNat 0 (items.zip mbi.mods),
        area.Apart (mbi.addr, abi.infoSize) ∧ ∀ other ∈ extra, area.Apart other) := by
  obtain ⟨_, own, between⟩ := List.pairwise_append.mp apart
  refine ⟨own, fun area inItems => ⟨?_, fun other inExtra => ?_⟩⟩
  · exact (between _ List.mem_cons_self area inItems).symm
  · exact (between _ (List.mem_cons_of_mem _ inExtra) area inItems).symm

theorem off_headers (listing : Listing abi pre start items base after mbi)
    (apart : (mbi.areas abi extra items).Pairwise Area.Apart) (j : Nat)
    (write : Nat × List UInt8) (inPre : write ∈ pre j) (area : Area)
    (inItems : area ∈ itemAreas abi mbi.info.modsAddr.toNat 0 (items.zip mbi.mods)) :
    area.Apart (write.1, write.2.length) := by
  obtain ⟨sameAddr, sameLength⟩ := listing.headers j write inPre
  rw [sameAddr, sameLength]
  exact ((items_apart apart).2 area inItems).1

theorem stands (listing : Listing abi pre start items base after mbi)
    (slots : Slots abi mbi.info.modsAddr.toNat 0 items)
    (apart : (mbi.areas abi extra items).Pairwise Area.Apart) {i : Nat} {x : Item W} {e : L4modMod}
    (isItem : items[i]? = some x) (isEntry : mbi.mods[i]? = some e) :
    Stands abi (mbi.info.modsAddr.toNat + abi.modSize * i) x e base after := by
  have offHeaders := listing.off_headers apart
  have own := (items_apart apart).1
  have isPair : (items.zip mbi.mods)[i]? = some (x, e) :=
    List.getElem?_zip_eq_some.mpr ⟨isItem, isEntry⟩
  rw [listing.mods] at offHeaders own isPair
  have stands := log_stands slots listing.word own offHeaders isPair base
  rw [Nat.zero_add] at stands
  rw [listing.bytes]
  exact stands

/-- Bytes that are in none of the areas stay. -/
theorem outside (listing : Listing abi pre start items base after mbi)
    (slots : Slots abi mbi.info.modsAddr.toNat 0 items) {a : Nat}
    (offHeader : Outside a (mbi.addr, abi.infoSize))
    (offItems : ∀ area ∈ itemAreas abi mbi.info.modsAddr.toNat 0 (items.zip mbi.mods),
      Outside a area) : after a = base a := by
  rw [listing.mods] at offItems
  rw [listing.bytes]
  apply log_outside slots listing.word _ offItems
  intro j write inPre
  obtain ⟨sameAddr, sameLength⟩ := listing.headers j write inPre
  rw [sameAddr, sameLength]
  exact offHeader

variable (extra) in
/-- Where the areas lie when the strings start at offset `off` and `extra` lies between the
array and the strings. -/
theorem places_of_fits (listing : Listing abi pre start items base after mbi) {size off : Nat}
    (array : items ≠ [] → mbi.info.modsAddr.toNat = mbi.addr + abi.infoSize)
    (isStart : start = (mbi.addr + off) % W.modulus) (counted : ∀ x ∈ items, x.Counted)
    (fits : off + roomOf items ≤ size) (block : mbi.addr + size ≤ W.modulus)
    (behind : abi.infoSize + abi.modSize * items.length ≤ off)
    (extraApart : extra.Pairwise Area.Apart)
    (extraInside : ∀ area ∈ extra,
      mbi.addr + abi.infoSize + abi.modSize * items.length ≤ area.1 ∧
        area.1 + area.2 ≤ mbi.addr + off) :
    (∀ area ∈ mbi.areas abi extra items, area.Inside (mbi.addr, size)) ∧
      (mbi.areas abi extra items).Pairwise Area.Apart := by
  have places : ∀ area ∈ itemAreas abi mbi.info.modsAddr.toNat 0 (items.zip mbi.mods),
      area.Inside (mbi.addr + off, roomOf items) ∨
        area.Inside (mbi.addr + abi.infoSize, abi.modSize * items.length) := by
    intro area inItems
    have some : items ≠ [] := by
      rintro rfl
      simp [itemAreas] at inItems
    rw [listing.mods, isStart] at inItems
    have place := item_areas_where counted (by omega) inItems
    rw [array some, Nat.mul_zero, Nat.add_zero] at place
    exact place
  have own : (itemAreas abi mbi.info.modsAddr.toNat 0 (items.zip mbi.mods)).Pairwise Area.Apart := by
    rcases eq_or_ne items [] with rfl | some
    · exact .nil
    · rw [listing.mods, isStart]
      apply item_areas_apart counted (by omega)
      rw [array some, Nat.zero_add]
      omega
  unfold Area.Inside at places ⊢
  unfold BootInfo.areas Area.Apart
  dsimp only at places ⊢
  refine ⟨?_, List.pairwise_append.mpr ⟨List.pairwise_cons.mpr ⟨?_, extraApart⟩, own, ?_⟩⟩
  · intro area member
    rw [List.cons_append, List.mem_cons, List.mem_append] at member
    rcases member with rfl | inExtra | inItems
    · dsimp only
      omega
    · have := extraInside area inExtra
      omega
    · have := places area inItems
      omega
  · intro area inExtra
    have := extraInside area inExtra
    omega
  · intro area inFront other inItems
    have place := places other inItems
    rcases List.mem_cons.mp inFront with rfl | inExtra
    · dsimp only
      omega
    · have := extraInside area inExtra
      omega

theorem slot_mem (listing : Listing abi pre start items base after mbi) {i : Nat}
    (inside : i < items.length) :
    (mbi.info.modsAddr.toNat + abi.modSize * i, abi.modSize) ∈ mbi.areas abi extra items := by
  have length : mbi.mods.length = items.length := by
    rw [listing.mods, length_entries_from]
  have isPair : (items.zip mbi.mods)[i]? = some (items[i], mbi.mods[i]) :=
    List.getElem?_zip_eq_some.mpr
      ⟨List.getElem?_eq_getElem inside, List.getElem?_eq_getElem (by omega)⟩
  refine List.mem_append_right _ (item_areas_subset _ _ isPair ?_)
  rw [Nat.zero_add, item_areas_one]
  exact List.mem_append_right _ List.mem_cons_self

/-- A filled block has the array inside of it. -/
theorem slots_of_filled (listing : Listing abi pre start items base after mbi) {size : Nat}
    {before : Bytes} (filled : MbiFilled abi size extra items before after mbi)
    (block : mbi.addr + size ≤ W.modulus) (some : items ≠ []) :
    mbi.addr ≤ mbi.info.modsAddr.toNat ∧
      mbi.info.modsAddr.toNat + abi.modSize * items.length ≤ mbi.addr + size ∧
      Slots abi mbi.info.modsAddr.toNat 0 items := by
  have pos := List.length_pos_iff.mpr some
  obtain ⟨n, isLength⟩ := Nat.exists_eq_add_of_lt pos
  have first := filled.inside _ (listing.slot_mem pos)
  have last := filled.inside _ (listing.slot_mem (i := items.length - 1) (by omega))
  obtain ⟨above, _⟩ := first
  obtain ⟨_, below⟩ := last
  dsimp only at above below
  have ends : abi.modSize * (items.length - 1) + abi.modSize = abi.modSize * items.length := by
    rw [← Nat.mul_succ, Nat.succ_eq_add_one, Nat.sub_add_cancel pos]
  have counted : items.length < 2 ^ 32 := by
    rw [← filled.count]
    exact mbi.info.modsCount.toNat_lt
  refine ⟨by simpa using above, by omega, by omega, ?_⟩
  rw [Nat.zero_add]
  omega

/-- In a filled block on zeroed memory every string is copied to its end. -/
theorem counted_of_filled (listing : Listing abi pre start items base after mbi) {size : Nat}
    {before : Bytes} (filled : MbiFilled abi size extra items before after mbi)
    (slots : Slots abi mbi.info.modsAddr.toNat 0 items)
    (zeros : ∀ a, Outside a (mbi.addr, abi.infoSize) → (∀ area ∈ extra, Outside a area) →
      mbi.addr ≤ a → a < mbi.addr + size → base a = 0) :
    ∀ x ∈ items, x.Counted := by
  intro x member
  obtain ⟨i, inside, isItem⟩ := List.getElem_of_mem member
  have length : mbi.mods.length = items.length := by
    rw [listing.mods, length_entries_from]
  have isItem : items[i]? = some x := by rw [List.getElem?_eq_getElem inside, isItem]
  have isEntry : mbi.mods[i]? = some mbi.mods[i] := List.getElem?_eq_getElem (by omega)
  apply counted_of_copied (listing.stands slots filled.apart isItem isEntry)
  · intro t isText j small
    have isPair : (items.zip mbi.mods)[i]? = some (x, mbi.mods[i]) :=
      List.getElem?_zip_eq_some.mpr ⟨isItem, isEntry⟩
    have inItems := item_areas_subset abi mbi.info.modsAddr.toNat (k := 0) isPair
      (List.mem_append_left _ (mem_text_areas.mpr ⟨t, isText, rfl⟩))
    obtain ⟨apartHeader, apartExtra⟩ := (items_apart filled.apart).2 _ inItems
    have own := filled.inside _ (List.mem_append_right _ inItems)
    have above := Nat.le_add_right mbi.mods[i].cmdline.toNat j
    have below := Nat.add_lt_add_left small mbi.mods[i].cmdline.toNat
    obtain ⟨low, high⟩ := own
    dsimp only at low high
    refine zeros _ (outside_of_apart apartHeader above below)
      (fun area inExtra => outside_of_apart (apartExtra area inExtra) above below)
      (low.trans above) (below.trans_le high)
  · exact fun t isText => filled.cmdlines i x _ t isItem isEntry isText

theorem outside_of_inside {a : Nat} {own whole : Area} (inside : own.Inside whole)
    (off : Outside a whole) : Outside a own := by
  unfold Area.Inside at inside
  unfold Outside at off ⊢
  omega

/-- A block is filled when its areas fit and the strings are counted. -/
theorem filled (listing : Listing abi pre start items base after mbi) {size : Nat} {before : Bytes}
    (slots : Slots abi mbi.info.modsAddr.toNat 0 items)
    (inside : ∀ area ∈ mbi.areas abi extra items, area.Inside (mbi.addr, size))
    (apart : (mbi.areas abi extra items).Pairwise Area.Apart)
    (counted : ∀ x ∈ items, x.Counted) (count : mbi.info.modsCount.toNat = items.length)
    (header : Holds after mbi.addr (abi.infoBytes mbi.info))
    (frame : ∀ a, Outside a (mbi.addr, size) → base a = before a) :
    MbiFilled abi size extra items before after mbi := by
  have length : mbi.mods.length = items.length := by
    rw [listing.mods, length_entries_from]
  refine ⟨?_, count, ?_, inside, apart, header, ?_, ?_⟩
  · intro a off
    rw [← frame a off]
    apply listing.outside slots
    · exact outside_of_inside (inside _ List.mem_cons_self) off
    · exact fun area inItems => outside_of_inside (inside _ (List.mem_append_right _ inItems)) off
  · rw [listing.mods]
    clear * -
    induction items generalizing start with
    | nil => rfl
    | cons x rest ih =>
        rw [entriesFrom, List.map_cons, List.map_cons, ih]
        rfl
  · intro i e isEntry
    obtain ⟨isInside, _⟩ := List.getElem?_eq_some_iff.mp isEntry
    exact (listing.stands slots apart (List.getElem?_eq_getElem (length ▸ isInside)) isEntry).1
  · intro i x e t isItem isEntry isText
    exact holds_of_stands (listing.stands slots apart isItem isEntry)
      (counted x (List.mem_of_getElem? isItem)) isText

end Listing

end L4Bootstrap
