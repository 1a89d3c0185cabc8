import L4Bootstrap.Support
import L4Bootstrap.Lib.Logged

/-!
# ACPI tables

`Sdt` of `acpi.cc`: the root table from the RSDP, and the search for a table in the
root table. The log of a search has the pointer slots that are read. Pointers are
words of the machine, the null pointer is 0.
-/

namespace L4Bootstrap

open MachineWord ByteMemory LoggedRun

set_option autoImplicit false

/-- A string literal up to its terminating zero. -/
def checkSignature (bytes : Bytes) (sig : Nat) : List UInt8 → Bool
  | [] => true
  | c :: reference => if c ≠ bytes sig then false else checkSignature bytes (sig + 1) reference

/-- The sum of `n` bytes, on top of `sum`. -/
def byteSum (W : Wordsize) (bytes : Bytes) (p n : Nat) (sum : UInt8) : UInt8 :=
  (List.range n).foldl (fun sum i => sum + bytes (W.add p i)) sum

/-- The members of `Rsdp`. -/
def rsdpRev (bytes : Bytes) (rsdp : Nat) : UInt8 := bytes (rsdp + 15)
def rsdpRsdtPhys (bytes : Bytes) (rsdp : Nat) : Nat := readLe bytes (rsdp + 16) 4
def rsdpLen (bytes : Bytes) (rsdp : Nat) : Nat := readLe bytes (rsdp + 20) 4
def rsdpXsdtPhys (bytes : Bytes) (rsdp : Nat) : Nat := readLe bytes (rsdp + 24) 8

/-- `Rsdp::checksum_ok`. -/
def rsdpChecksumOk (W : Wordsize) (bytes : Bytes) (rsdp : Nat) : Bool :=
  let sum := byteSum W bytes rsdp 20 0
  if sum ≠ 0 then false
  else if rsdpRev bytes rsdp = 0 then true
  else byteSum W bytes rsdp (min (rsdpLen bytes rsdp) 4096) sum = 0

/-- `sizeof (Table_head)`, and the member `len`. -/
def tableHeadSize : Nat := 36
def tableLen (bytes : Bytes) (t : Nat) : Nat := readLe bytes (t + 4) 4

/-- `Table_head::checksum_ok`. -/
def checksumOk (W : Wordsize) (bytes : Bytes) (t : Nat) : Bool :=
  byteSum W bytes t (tableLen bytes t) 0 = 0

structure Sdt where
  xsdt : Nat := 0
  rsdt : Nat := 0
  deriving DecidableEq, Repr

/-- The characters `RSD PTR` with a blank behind. -/
def rsdpSignature : List UInt8 := [0x52, 0x53, 0x44, 0x20, 0x50, 0x54, 0x52, 0x20]

/-- The second half of `Sdt::init`, behind the XSDT. -/
def Sdt.initRsdt (W : Wordsize) (bytes : Bytes) (rsdp : Nat) : Option Sdt :=
  let r := rsdpRsdtPhys bytes rsdp
  if r ≠ 0 ∧ checksumOk W bytes r then some { rsdt := r } else none

/-- `Sdt::init`; `none` stands for `false`. -/
def Sdt.init (W : Wordsize) (bytes : Bytes) (rsdp : Nat) : Option Sdt :=
  if ¬checkSignature bytes rsdp rsdpSignature ∨ ¬rsdpChecksumOk W bytes rsdp then none
  else
    let x := rsdpXsdtPhys bytes rsdp
    if rsdpRev bytes rsdp ≠ 0 ∧ x ≠ 0 ∧ checksumOk W bytes (x % W.modulus) then
      some { xsdt := x % W.modulus }
    else Sdt.initRsdt W bytes rsdp

/-- The number of slots: the difference is one of `size_t`, the result an `unsigned`. -/
def slotCount (W : Wordsize) (bytes : Bytes) (table slotSize : Nat) : Nat :=
  W.sub (tableLen bytes table) tableHeadSize / slotSize % 2 ^ 32

def Sdt.entries (W : Wordsize) (bytes : Bytes) (sdt : Sdt) : Nat :=
  if sdt.xsdt ≠ 0 then slotCount W bytes sdt.xsdt 8
  else if sdt.rsdt ≠ 0 then slotCount W bytes sdt.rsdt 4
  else 0

/-- Where the slot `ptrs[i]` of a table starts. -/
def slotAt (W : Wordsize) (table slotSize i : Nat) : Nat :=
  W.add table (tableHeadSize + i * slotSize)

def Sdt.entry (W : Wordsize) (bytes : Bytes) (sdt : Sdt) (i : Nat) :
    Logged (Nat × Nat) Empty Nat :=
  if sdt.xsdt ≠ 0 then do
    let ptr ← readAt bytes (slotAt W sdt.xsdt 8 i) 8
    pure (ptr % W.modulus)
  else if sdt.rsdt ≠ 0 then readAt bytes (slotAt W sdt.rsdt 4 i) 4
  else pure 0

/-- The rest of the loop: `left` entries from `i` on. -/
def Sdt.findFrom (W : Wordsize) (bytes : Bytes) (sdt : Sdt) (sig : List UInt8) :
    Nat → Nat → Logged (Nat × Nat) Empty (Option Nat)
  | 0, _ => pure none
  | left + 1, i => do
      let t ← sdt.entry W bytes i
      if t = 0 then sdt.findFrom W bytes sig left (i + 1)
      else if checkSignature bytes t sig ∧ checksumOk W bytes t then pure (some t)
      else sdt.findFrom W bytes sig left (i + 1)

def Sdt.findHead (W : Wordsize) (bytes : Bytes) (sdt : Sdt) (sig : List UInt8) :
    Logged (Nat × Nat) Empty (Option Nat) :=
  sdt.findFrom W bytes sig (sdt.entries W bytes) 0

/-! ## The slots of the root table -/

/-- The root table, and the size of its slots. -/
def Sdt.root (sdt : Sdt) : Option (Nat × Nat) :=
  if sdt.xsdt ≠ 0 then some (sdt.xsdt, 8)
  else if sdt.rsdt ≠ 0 then some (sdt.rsdt, 4)
  else none

def SlotInside (bytes : Bytes) (table slotSize i : Nat) : Prop :=
  tableHeadSize + i * slotSize + slotSize ≤ tableLen bytes table

/-- The pointer in a slot. -/
def slotPointer (W : Wordsize) (bytes : Bytes) (table slotSize i : Nat) : Nat :=
  readLe bytes (slotAt W table slotSize i) slotSize % W.modulus

/-- The table is listed in a slot of the root table. -/
def Sdt.Listed (W : Wordsize) (bytes : Bytes) (sdt : Sdt) (t : Nat) : Prop :=
  ∃ table slotSize i, sdt.root = some (table, slotSize) ∧ SlotInside bytes table slotSize i ∧
    slotPointer W bytes table slotSize i = t ∧ t ≠ 0

/-- The sum of all bytes is a multiple of 256. -/
def SumsToZero (W : Wordsize) (bytes : Bytes) (p n : Nat) : Prop :=
  ((List.range n).map fun i => (bytes (W.add p i)).toNat).sum % 256 = 0

structure Qualifies (W : Wordsize) (bytes : Bytes) (sig : List UInt8) (t : Nat) : Prop where
  signature : Holds bytes t sig
  checksum : SumsToZero W bytes t (tableLen bytes t)

/-- The search reads only slots of the root table, and finds a listed table that qualifies
unless there is none. -/
structure LooksInside (W : Wordsize) (bytes : Bytes) (sdt : Sdt) (sig : List UInt8) : Prop where
  inside : ∀ area ∈ (sdt.findHead W bytes sig).log, ∃ table slotSize i,
    sdt.root = some (table, slotSize) ∧ SlotInside bytes table slotSize i ∧
      area = (slotAt W table slotSize i, slotSize)
  outcome : (∃ t, (sdt.findHead W bytes sig).result = .ok (some t) ∧ sdt.Listed W bytes t ∧
      Qualifies W bytes sig t) ∨
    (sdt.findHead W bytes sig).result = .ok none ∧
      ∀ t, sdt.Listed W bytes t → ¬Qualifies W bytes sig t

section

variable {W : Wordsize} {bytes : Bytes} {sdt : Sdt} {sig : List UInt8} {p n t i : Nat}

theorem check_signature_iff : checkSignature bytes p sig = true ↔ Holds bytes p sig := by
  induction sig generalizing p with
  | nil => simp [checkSignature]
  | cons c reference ih =>
      rw [checkSignature, holds_cons]
      by_cases same : c = bytes p
      · rw [if_neg (not_not.mpr same), ih]
        exact ⟨fun rest => ⟨same.symm, rest⟩, fun held => held.2⟩
      · rw [if_pos same]
        exact ⟨fun absurdity => absurd absurdity Bool.false_ne_true,
          fun held => absurd held.1.symm same⟩

theorem byte_sum_to_nat (list : List Nat) (sum : UInt8) :
    (list.foldl (fun sum i => sum + bytes (W.add p i)) sum).toNat =
      (sum.toNat + (list.map fun i => (bytes (W.add p i)).toNat).sum) % 256 := by
  induction list generalizing sum with
  | nil => exact (Nat.mod_eq_of_lt sum.toNat_lt).symm
  | cons i rest ih =>
      rw [List.foldl_cons, ih, UInt8.toNat_add, List.map_cons, List.sum_cons]
      omega

theorem checksum_ok_iff :
    checksumOk W bytes t = true ↔ SumsToZero W bytes t (tableLen bytes t) := by
  rw [checksumOk, decide_eq_true_iff, SumsToZero, byteSum, ← UInt8.toNat_inj, byte_sum_to_nat]
  simp

theorem qualifies_iff :
    (checkSignature bytes t sig = true ∧ checksumOk W bytes t = true) ↔ Qualifies W bytes sig t := by
  rw [check_signature_iff, checksum_ok_iff]
  exact ⟨fun both => ⟨both.1, both.2⟩, fun both => ⟨both.signature, both.checksum⟩⟩

variable {table slotSize left : Nat}

theorem root_cases (isRoot : sdt.root = some (table, slotSize)) :
    (sdt.xsdt ≠ 0 ∧ table = sdt.xsdt ∧ slotSize = 8) ∨
      (sdt.xsdt = 0 ∧ sdt.rsdt ≠ 0 ∧ table = sdt.rsdt ∧ slotSize = 4) := by
  unfold Sdt.root at isRoot
  split_ifs at isRoot with noXsdt noRsdt
  · cases isRoot
    exact .inl ⟨noXsdt, rfl, rfl⟩
  · cases isRoot
    exact .inr ⟨not_not.mp noXsdt, noRsdt, rfl, rfl⟩

/-- One entry, with the slot that is read for it. -/
theorem entry_root (isRoot : sdt.root = some (table, slotSize)) :
    sdt.entry W bytes i =
      ⟨[(slotAt W table slotSize i, slotSize)], .ok (slotPointer W bytes table slotSize i)⟩ := by
  rcases root_cases isRoot with ⟨xsdt, rfl, rfl⟩ | ⟨noXsdt, rsdt, rfl, rfl⟩
  · rw [Sdt.entry, if_pos xsdt]
    rfl
  · have small : readLe bytes (slotAt W sdt.rsdt 4 i) 4 < W.modulus :=
      read_le_lt.trans_le W.modulus_ge
    rw [Sdt.entry, if_neg (not_not.mpr noXsdt), if_pos rsdt, slotPointer, Nat.mod_eq_of_lt small]
    rfl

theorem entries_root (isRoot : sdt.root = some (table, slotSize)) :
    sdt.entries W bytes = slotCount W bytes table slotSize := by
  rcases root_cases isRoot with ⟨xsdt, rfl, rfl⟩ | ⟨noXsdt, rsdt, rfl, rfl⟩
  · rw [Sdt.entries, if_pos xsdt]
  · rw [Sdt.entries, if_neg (not_not.mpr noXsdt), if_pos rsdt]

theorem entries_no_root (noRoot : sdt.root = none) : sdt.entries W bytes = 0 := by
  unfold Sdt.root at noRoot
  split_ifs at noRoot with noXsdt noRsdt
  rw [Sdt.entries, if_neg noXsdt, if_neg noRsdt]

/-- With a length of at least the head the slots are counted exactly. -/
theorem lt_slot_count_iff (pos : 0 < slotSize) (headed : tableHeadSize ≤ tableLen bytes table) :
    i < slotCount W bytes table slotSize ↔ SlotInside bytes table slotSize i := by
  have small : tableLen bytes table < 2 ^ 32 := read_le_lt
  have word := W.modulus_ge
  have quotient := Nat.div_le_self (tableLen bytes table - tableHeadSize) slotSize
  rw [slotCount, W.sub_of_le headed (by omega), Nat.mod_eq_of_lt (by omega),
    Nat.lt_iff_add_one_le, Nat.le_div_iff_mul_le pos, Nat.succ_mul, SlotInside]
  omega

/-- A shorter length wraps around, and some slot is read. -/
theorem slot_count_pos (isRoot : sdt.root = some (table, slotSize))
    (short : tableLen bytes table < tableHeadSize) : 0 < slotCount W bytes table slotSize := by
  have size : slotSize = 8 ∨ slotSize = 4 := by
    rcases root_cases isRoot with ⟨_, _, isSize⟩ | ⟨_, _, _, isSize⟩
    · exact .inl isSize
    · exact .inr isSize
  unfold tableHeadSize at short
  unfold slotCount Wordsize.sub tableHeadSize
  generalize tableLen bytes table = len at short
  cases W with
  | w32 =>
      change 0 < (len + 2 ^ 32 - 36) % 2 ^ 32 / slotSize % 2 ^ 32
      rcases size with rfl | rfl <;> omega
  | w64 =>
      change 0 < (len + 2 ^ 64 - 36) % 2 ^ 64 / slotSize % 2 ^ 32
      rcases size with rfl | rfl <;> omega

/-- The round that finds a table, and the rounds that go on. -/
theorem find_from_found (isRoot : sdt.root = some (table, slotSize))
    (nonnull : slotPointer W bytes table slotSize i ≠ 0)
    (qualifies : Qualifies W bytes sig (slotPointer W bytes table slotSize i)) :
    sdt.findFrom W bytes sig (left + 1) i = ⟨[(slotAt W table slotSize i, slotSize)],
      .ok (some (slotPointer W bytes table slotSize i))⟩ := by
  rw [Sdt.findFrom, entry_root isRoot, bind_of_ok rfl, if_neg nonnull,
    if_pos (qualifies_iff.mpr qualifies)]
  rfl

theorem find_from_next (isRoot : sdt.root = some (table, slotSize))
    (other : slotPointer W bytes table slotSize i ≠ 0 →
      ¬Qualifies W bytes sig (slotPointer W bytes table slotSize i)) :
    sdt.findFrom W bytes sig (left + 1) i =
      ⟨(slotAt W table slotSize i, slotSize) :: (sdt.findFrom W bytes sig left (i + 1)).log,
        (sdt.findFrom W bytes sig left (i + 1)).result⟩ := by
  rw [Sdt.findFrom, entry_root isRoot, bind_of_ok rfl]
  by_cases null : slotPointer W bytes table slotSize i = 0
  · rw [if_pos null]
    rfl
  · rw [if_neg null, if_neg fun both => other null (qualifies_iff.mp both)]
    rfl

/-- The whole loop over slots of the table. -/
theorem find_from_spec (isRoot : sdt.root = some (table, slotSize))
    (within : ∀ j, i ≤ j → j < i + left → SlotInside bytes table slotSize j) :
    (∀ area ∈ (sdt.findFrom W bytes sig left i).log,
      ∃ j, SlotInside bytes table slotSize j ∧ area = (slotAt W table slotSize j, slotSize)) ∧
    ((∃ t, (sdt.findFrom W bytes sig left i).result = .ok (some t) ∧ sdt.Listed W bytes t ∧
        Qualifies W bytes sig t) ∨
      (sdt.findFrom W bytes sig left i).result = .ok none ∧
        ∀ j, i ≤ j → j < i + left → slotPointer W bytes table slotSize j ≠ 0 →
          ¬Qualifies W bytes sig (slotPointer W bytes table slotSize j)) := by
  induction left generalizing i with
  | zero => exact ⟨by simp [Sdt.findFrom], .inr ⟨rfl, fun j lower upper => by omega⟩⟩
  | succ left ih =>
      have here := within i (Nat.le_refl i) (by omega)
      by_cases found : slotPointer W bytes table slotSize i ≠ 0 ∧
          Qualifies W bytes sig (slotPointer W bytes table slotSize i)
      · obtain ⟨nonnull, qualifies⟩ := found
        rw [find_from_found isRoot nonnull qualifies]
        refine ⟨fun area member => ⟨i, here, List.mem_singleton.mp member⟩, .inl ⟨_, rfl, ?_,
          qualifies⟩⟩
        exact ⟨table, slotSize, i, isRoot, here, rfl, nonnull⟩
      · have other := not_and.mp found
        rw [find_from_next isRoot other]
        obtain ⟨inside, outcome⟩ := ih (i := i + 1) fun j lower upper =>
          within j (by omega) (by omega)
        refine ⟨fun area member => ?_, ?_⟩
        · rcases List.mem_cons.mp member with rfl | later
          · exact ⟨i, here, rfl⟩
          · exact inside area later
        · rcases outcome with found | ⟨missing, others⟩
          · exact .inl found
          · refine .inr ⟨missing, fun j lower upper => ?_⟩
            rcases Nat.eq_or_lt_of_le lower with rfl | behind
            · exact other
            · exact others j behind (by omega)

theorem find_head_inside (headed : ∀ table slotSize, sdt.root = some (table, slotSize) →
    tableHeadSize ≤ tableLen bytes table) : LooksInside W bytes sdt sig := by
  cases isRoot : sdt.root with
  | none =>
      have nothing : sdt.findHead W bytes sig = pure none := by
        rw [Sdt.findHead, entries_no_root isRoot, Sdt.findFrom]
      refine ⟨by simp [nothing], .inr ⟨by rw [nothing]; rfl, ?_⟩⟩
      rintro t ⟨table, slotSize, _, isTable, _⟩
      rw [isRoot] at isTable
      cases isTable
  | some root =>
      obtain ⟨table, slotSize⟩ := root
      have pos : 0 < slotSize := by
        rcases root_cases isRoot with ⟨_, _, isSize⟩ | ⟨_, _, _, isSize⟩ <;> omega
      have counted : ∀ j, j < slotCount W bytes table slotSize ↔
          SlotInside bytes table slotSize j := fun j =>
        lt_slot_count_iff pos (headed table slotSize isRoot)
      have within : ∀ j, 0 ≤ j → j < 0 + sdt.entries W bytes → SlotInside bytes table slotSize j := by
        intro j _ upper
        rw [entries_root isRoot, Nat.zero_add] at upper
        exact (counted j).mp upper
      obtain ⟨inside, outcome⟩ := find_from_spec isRoot within
      refine ⟨fun area member => ?_, ?_⟩
      · obtain ⟨j, slotInside, isArea⟩ := inside area member
        exact ⟨table, slotSize, j, isRoot, slotInside, isArea⟩
      · rcases outcome with found | ⟨missing, others⟩
        · exact .inl found
        · refine .inr ⟨missing, ?_⟩
          rintro t ⟨table', slotSize', j, isRoot', slotInside, rfl, nonnull⟩
          rw [isRoot] at isRoot'
          cases isRoot'
          refine others j (Nat.zero_le j) ?_ nonnull
          rw [entries_root isRoot, Nat.zero_add]
          exact (counted j).mpr slotInside

/-- A root table shorter than its head has no slot, but the first one is read. -/
theorem find_head_outside (isRoot : sdt.root = some (table, slotSize))
    (short : tableLen bytes table < tableHeadSize) : ¬LooksInside W bytes sdt sig := by
  intro looks
  obtain ⟨left, isCount⟩ := Nat.exists_eq_succ_of_ne_zero
    (Nat.pos_iff_ne_zero.mp (slot_count_pos (W := W) isRoot short))
  have first : (slotAt W table slotSize 0, slotSize) ∈ (sdt.findHead W bytes sig).log := by
    rw [Sdt.findHead, entries_root isRoot, isCount]
    by_cases found : slotPointer W bytes table slotSize 0 ≠ 0 ∧
        Qualifies W bytes sig (slotPointer W bytes table slotSize 0)
    · rw [find_from_found isRoot found.1 found.2]
      exact List.mem_cons_self
    · rw [find_from_next isRoot (not_and.mp found)]
      exact List.mem_cons_self
  obtain ⟨table', slotSize', j, isRoot', slotInside, _⟩ := looks.inside _ first
  rw [isRoot] at isRoot'
  cases isRoot'
  unfold SlotInside at slotInside
  omega

/-- A search in the root table that a valid RSDP gives looks only inside of the root table
exactly when that table is not shorter than its head. -/
theorem find_head_inside_iff {rsdp : Nat} :
    (∀ sdt, Sdt.init W bytes rsdp = some sdt → LooksInside W bytes sdt sig) ↔
      ∀ sdt, Sdt.init W bytes rsdp = some sdt → ∀ table slotSize,
        sdt.root = some (table, slotSize) → tableHeadSize ≤ tableLen bytes table := by
  constructor
  · intro inside sdt accepted table slotSize isRoot
    by_contra short
    exact find_head_outside isRoot (Nat.lt_of_not_le short) (inside sdt accepted)
  · intro headed sdt accepted
    exact find_head_inside (headed sdt accepted)

end

/-- An RSDP at `0x1000`, and zeros where it has its RSDT. -/
def emptyRsdt : Bytes :=
  writeList 0x1000
    (rsdpSignature ++ [0xc1, 0, 0, 0, 0, 0, 0, 0] ++ leBytes 4 0x2000) fun _ => 0

theorem empty_rsdt_root : Sdt.root { rsdt := 0x2000 } = some (0x2000, 4) := rfl

/-- The length 0 passes the checksum, and the search runs over a slot outside. -/
theorem find_head_empty_rsdt :
    Sdt.init .w64 emptyRsdt 0x1000 = some { rsdt := 0x2000 } ∧
      ¬LooksInside .w64 emptyRsdt { rsdt := 0x2000 } [0x46, 0x41, 0x43, 0x50] :=
  ⟨by decide +kernel, find_head_outside empty_rsdt_root (by decide +kernel)⟩

end L4Bootstrap
