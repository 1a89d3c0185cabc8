import L4Bootstrap.Paging.Tables

/-!
# Mapping by levels

Each table has a place: its level, and the address from which on it translates.
A walk for an address only visits tables whose place covers the address, so a
change of an entry is seen by the addresses of that entry alone.
-/

namespace L4Bootstrap

open MachineWord CheckedLoop FlagWord

set_option autoImplicit false

namespace Paging

/-! ## Sizes and indexes -/

theorem ptab_size_eq (level : Nat) : ptabSize level = 2 ^ ptabShift level := by
  rw [ptabSize, Nat.shiftLeft_eq, Nat.one_mul]

theorem ptab_size_succ (level : Nat) : ptabSize (level + 1) = 512 * ptabSize level := by
  have shift : ptabShift (level + 1) = ptabShift level + 9 := by
    unfold ptabShift
    omega
  rw [ptab_size_eq, ptab_size_eq, shift, Nat.pow_add, Nat.mul_comm]

theorem ptab_size_pos (level : Nat) : 0 < ptabSize level := by
  rw [ptab_size_eq]
  exact Nat.two_pow_pos _

theorem ptab_size_dvd {level other : Nat} (le : level ≤ other) : ptabSize level ∣ ptabSize other := by
  rw [ptab_size_eq, ptab_size_eq]
  apply pow_dvd_pow
  unfold ptabShift
  omega

theorem ptabe_index_eq (level la : Nat) : ptabeIndex level la = la / ptabSize level % 512 := by
  rw [ptabeIndex, Nat.shiftRight_eq_div_pow, ← ptab_size_eq]
  exact Nat.and_two_pow_sub_one_eq_mod _ 9

theorem ptabe_index_lt (level la : Nat) : ptabeIndex level la < 512 := by
  rw [ptabe_index_eq]
  exact Nat.mod_lt _ (by decide)

theorem is_ptab_aligned_iff {level addr : Nat} :
    isPtabAligned level addr = true ↔ ptabSize level ∣ addr := by
  rw [isPtabAligned, decide_eq_true_eq, ptabMask, ptab_size_eq, Nat.and_two_pow_sub_one_eq_mod,
    Nat.dvd_iff_mod_eq_zero]

/-- The start of the entry of a level that holds an address. -/
def entryStart (level x : Nat) : Nat := truncSize (ptabShift level) x

theorem entry_start_dvd (level x : Nat) : ptabSize level ∣ entryStart level x := by
  rw [ptab_size_eq]
  exact dvd_trunc_size _ _

theorem entry_start_le (level x : Nat) : entryStart level x ≤ x := trunc_size_le _ _

theorem lt_entry_start_add (level x : Nat) : x < entryStart level x + ptabSize level := by
  rw [ptab_size_eq]
  exact lt_trunc_size_add _ _

theorem entry_start_eq {level x start : Nat} (aligned : ptabSize level ∣ start) (lower : start ≤ x)
    (upper : x < start + ptabSize level) : entryStart level x = start := by
  rw [ptab_size_eq] at aligned upper
  exact trunc_size_eq aligned lower upper

/-- The index of an address in the table that covers it. -/
theorem entry_start_index {level base x : Nat} (aligned : ptabSize (level + 1) ∣ base)
    (lower : base ≤ x) (upper : x < base + ptabSize (level + 1)) :
    base + ptabeIndex level x * ptabSize level = entryStart level x := by
  have pos := ptab_size_pos level
  rw [ptab_size_succ] at aligned upper
  obtain ⟨q, rfl⟩ := aligned
  rw [ptabe_index_eq, entryStart, truncSize, ← ptab_size_eq]
  have parts := Nat.div_add_mod x (ptabSize level)
  have low : 512 * q ≤ x / ptabSize level := by
    rw [Nat.le_div_iff_mul_le pos]
    calc 512 * q * ptabSize level = 512 * ptabSize level * q := by ring
      _ ≤ x := lower
  have high : x / ptabSize level < 512 * q + 512 := by
    rw [Nat.div_lt_iff_lt_mul pos]
    calc x < 512 * ptabSize level * q + 512 * ptabSize level := upper
      _ = (512 * q + 512) * ptabSize level := by ring
  obtain ⟨r, isIndex⟩ := Nat.exists_eq_add_of_le low
  have index : x / ptabSize level % 512 = r := by omega
  have start : x - x % ptabSize level = ptabSize level * (512 * q + r) := by
    rw [← isIndex]
    omega
  rw [index, start]
  ring

/-- Two addresses of one table have the same index if they share the entry. -/
theorem ptabe_index_inj {level base x y : Nat} (aligned : ptabSize (level + 1) ∣ base)
    (xLower : base ≤ x) (xUpper : x < base + ptabSize (level + 1)) (yLower : base ≤ y)
    (yUpper : y < base + ptabSize (level + 1)) :
    ptabeIndex level x = ptabeIndex level y ↔ entryStart level x = entryStart level y := by
  have xStart := entry_start_index aligned xLower xUpper
  have yStart := entry_start_index aligned yLower yUpper
  constructor
  · intro same
    rw [← xStart, ← yStart, same]
  · intro same
    have scaled : ptabeIndex level x * ptabSize level = ptabeIndex level y * ptabSize level := by
      omega
    exact Nat.eq_of_mul_eq_mul_right (ptab_size_pos level) scaled

/-- The entry lies inside the table. -/
theorem entry_inside {level base x : Nat} (aligned : ptabSize (level + 1) ∣ base)
    (lower : base ≤ x) (upper : x < base + ptabSize (level + 1)) :
    base ≤ entryStart level x ∧
      entryStart level x + ptabSize level ≤ base + ptabSize (level + 1) := by
  have start := entry_start_index aligned lower upper
  have index := ptabe_index_lt level x
  have scaled := Nat.mul_le_mul_right (ptabSize level) (Nat.succ_le_of_lt index)
  rw [Nat.succ_mul] at scaled
  rw [ptab_size_succ]
  omega

/-! ## Entries -/

/-- Bits that are neither part of an address nor the bit of a leaf. -/
structure Flags (mappingBits : Nat) : Prop where
  low : mappingBits < 0x1000
  noLeaf : mappingBits &&& ptabPs = 0

theorem pfn_mask : ptabPfn = fieldMask 12 52 := by decide

theorem leaf_bit_lt (level : Nat) : leafBit level < 2 ^ 12 := by
  unfold leafBit
  split_ifs <;> decide

/-- The parts of the leaf that `mapLeaf` writes. -/
theorem leaf_entry {mappingBits level pa : Nat} (flags : Flags mappingBits) (aligned : 2 ^ 12 ∣ pa)
    (fits : pa < 2 ^ 52) (small : level ≤ 2) :
    isValid (pa ||| ptabValid ||| mappingBits ||| leafBit level) = true ∧
      isLeaf level (pa ||| ptabValid ||| mappingBits ||| leafBit level) = true ∧
      (pa ||| ptabValid ||| mappingBits ||| leafBit level) &&& ptabPfn = pa := by
  have bits : ptabValid ||| mappingBits ||| leafBit level < 2 ^ 12 :=
    Nat.or_lt_two_pow (Nat.or_lt_two_pow (by decide) flags.low) (leaf_bit_lt level)
  rw [Nat.or_assoc, Nat.or_assoc, ← Nat.or_assoc ptabValid]
  refine ⟨?_, ?_, ?_⟩
  · rw [isValid, or_and_flags aligned (by decide), Nat.and_or_distrib_right,
      Nat.and_or_distrib_right, decide_eq_true_eq]
    simp [ptabValid]
  · rw [isLeaf, or_and_flags aligned (leaf_bit_lt level), Nat.and_or_distrib_right, Nat.and_self,
      Bool.or_eq_true, decide_eq_true_eq, decide_eq_true_eq]
    by_cases page : level = 0
    · exact .inl page
    · right
      have isBit : leafBit level = ptabPs := if_pos (by omega)
      rw [isBit]
      simp [ptabPs]
  · rw [pfn_mask]
    exact or_and_field aligned fits bits

theorem link_entry {mappingBits level page : Nat} (flags : Flags mappingBits)
    (aligned : 2 ^ 12 ∣ page) (fits : page < 2 ^ 32) (pos : 0 < level) :
    isValid ((page &&& ptabPfn) ||| ptabValid ||| mappingBits) = true ∧
      isLeaf level ((page &&& ptabPfn) ||| ptabValid ||| mappingBits) = false ∧
      ((page &&& ptabPfn) ||| ptabValid ||| mappingBits) &&& ptabPfn = page := by
  have fits : page < 2 ^ 52 := fits.trans (by decide)
  have bits : ptabValid ||| mappingBits < 2 ^ 12 := Nat.or_lt_two_pow (by decide) flags.low
  have whole : page &&& ptabPfn = page := by
    have read := or_and_field aligned fits (Nat.two_pow_pos 12)
    rw [Nat.or_zero, ← pfn_mask] at read
    exact read
  rw [whole, Nat.or_assoc]
  refine ⟨?_, ?_, ?_⟩
  · rw [isValid, or_and_flags aligned (by decide), Nat.and_or_distrib_right, decide_eq_true_eq]
    simp [ptabValid]
  · rw [isLeaf, or_and_flags aligned (leaf_bit_lt level), Nat.and_or_distrib_right,
      Bool.or_eq_false_iff, decide_eq_false_iff_not, decide_eq_false_iff_not, not_not]
    refine ⟨by omega, ?_⟩
    unfold leafBit
    split_ifs
    · rw [flags.noLeaf]
      rfl
    · rw [Nat.and_zero, Nat.and_zero, Nat.or_zero]
  · rw [pfn_mask]
    exact or_and_field aligned fits bits

/-! ## Places -/

/-- The level of a table and the first address that it translates. -/
structure Place where
  level : Nat
  base : Nat

def Place.Covers (place : Place) (x : Nat) : Prop :=
  place.base ≤ x ∧ x < place.base + ptabSize (place.level + 1)

/-- What the code relies on: `ptab_alloc` never hands out a page twice. -/
structure Allocator (alloc : Nat → Option Nat) : Prop where
  fresh : ∀ i j page, alloc i = some page → alloc j = some page → i = j
  aligned : ∀ k page, alloc k = some page → 2 ^ 12 ∣ page
  word : ∀ k page, alloc k = some page → page < 2 ^ 32

section

variable (cpu : CpuInfo) (alloc : Nat → Option Nat)

def IsTable (s : Tables) (table : Nat) : Prop := ∃ k < s.used, alloc k = some table

/-- A valid entry is an identity leaf of an allowed level, or leads to the table
for its addresses. -/
def EntryFormed (s : Tables) (place : Nat → Place) (table index : Nat) : Prop :=
  isValid (s.entry table index) = true →
    (isLeaf (place table).level (s.entry table index) = true ∧
        allowLeaf cpu (place table).level = true ∧
        s.entry table index &&& ptabPfn =
          (place table).base + index * ptabSize (place table).level) ∨
      (isLeaf (place table).level (s.entry table index) = false ∧
        IsTable alloc s (s.entry table index &&& ptabPfn) ∧
        (place (s.entry table index &&& ptabPfn)).level + 1 = (place table).level ∧
        (place (s.entry table index &&& ptabPfn)).base =
          (place table).base + index * ptabSize (place table).level)

structure Formed (s : Tables) (place : Nat → Place) : Prop where
  aligned : ∀ table, IsTable alloc s table →
    ptabSize ((place table).level + 1) ∣ (place table).base
  inside : ∀ table, IsTable alloc s table →
    (place table).base + ptabSize ((place table).level + 1) ≤ 2 ^ 48
  entry : ∀ table, IsTable alloc s table → ∀ index < 512, EntryFormed cpu alloc s place table index

end

variable {cpu : CpuInfo} {alloc : Nat → Option Nat}

/-- The entry of a table for an address, of one of three kinds. -/
inductive EntryAt (cpu : CpuInfo) (alloc : Nat → Option Nat) (s : Tables) (place : Nat → Place)
    (level table x : Nat) : Prop
  | free (invalid : isValid (s.entry table (ptabeIndex level x)) = false)
  | leaf (valid : isValid (s.entry table (ptabeIndex level x)) = true)
      (isLeaf : isLeaf level (s.entry table (ptabeIndex level x)) = true)
      (allowed : allowLeaf cpu level = true)
      (address : s.entry table (ptabeIndex level x) &&& ptabPfn = entryStart level x)
  | link (next : Nat) (valid : isValid (s.entry table (ptabeIndex level x)) = true)
      (noLeaf : isLeaf level (s.entry table (ptabeIndex level x)) = false)
      (address : s.entry table (ptabeIndex level x) &&& ptabPfn = next)
      (isTable : IsTable alloc s next) (nextLevel : (place next).level + 1 = level)
      (nextBase : (place next).base = entryStart level x)

theorem formed_entry {s : Tables} {place : Nat → Place} (formed : Formed cpu alloc s place)
    {level table x : Nat} (isTable : IsTable alloc s table) (isLevel : (place table).level = level)
    (covers : (place table).Covers x) : EntryAt cpu alloc s place level table x := by
  subst isLevel
  have start := entry_start_index (formed.aligned table isTable) covers.1 covers.2
  cases valid : isValid (s.entry table (ptabeIndex (place table).level x)) with
  | false => exact .free valid
  | true =>
      have entry := formed.entry table isTable _ (ptabe_index_lt _ x) valid
      rw [start] at entry
      rcases entry with ⟨leaf, allowed, address⟩ | ⟨noLeaf, next, level, base⟩
      · exact .leaf valid leaf allowed address
      · exact .link _ valid noLeaf rfl next level base

theorem covers_of_entry {next : Place} {level x y : Nat} (nextLevel : next.level + 1 = level)
    (base : next.base = entryStart level x) (same : entryStart level y = entryStart level x) :
    next.Covers y := by
  unfold Place.Covers
  rw [nextLevel, base, ← same]
  exact ⟨entry_start_le _ _, lt_entry_start_add _ _⟩

/-! ## Walks -/

theorem translate_eq (s : Tables) (level table x : Nat) :
    translate s level table x =
      if isValid (s.entry table (ptabeIndex level x)) then
        if isLeaf level (s.entry table (ptabeIndex level x)) then
          some (leafAddress level (s.entry table (ptabeIndex level x)) x)
        else translate s (level - 1) (s.entry table (ptabeIndex level x) &&& ptabPfn) x
      else none := by
  cases level with
  | zero => simp [translate, isLeaf]
  | succ level =>
      rw [translate]
      cases isValid (s.entry table (ptabeIndex (level + 1) x)) <;> simp

theorem leaf_level_eq (s : Tables) (level table x : Nat) :
    leafLevel s level table x =
      if isValid (s.entry table (ptabeIndex level x)) then
        if isLeaf level (s.entry table (ptabeIndex level x)) then some level
        else leafLevel s (level - 1) (s.entry table (ptabeIndex level x) &&& ptabPfn) x
      else none := by
  cases level with
  | zero => simp [leafLevel, isLeaf]
  | succ level =>
      rw [leafLevel]
      cases isValid (s.entry table (ptabeIndex (level + 1) x)) <;> simp

theorem leaf_address_identity {level ptabe x : Nat} (address : ptabe &&& ptabPfn = entryStart level x) :
    leafAddress level ptabe x = x := by
  rw [leafAddress, address, entryStart, trunc_size_of_dvd (dvd_trunc_size _ _), ptab_size_eq,
    truncSize]
  have := Nat.mod_le x (2 ^ ptabShift level)
  omega

theorem leaf_level_le (s : Tables) {level table x found : Nat}
    (isFound : leafLevel s level table x = some found) : found ≤ level := by
  induction level generalizing table with
  | zero =>
      rw [leafLevel] at isFound
      split_ifs at isFound
      cases isFound
      exact le_rfl
  | succ level ih =>
      rw [leaf_level_eq] at isFound
      split_ifs at isFound
      · cases isFound
        exact le_rfl
      · exact (ih isFound).trans (Nat.le_succ level)

/-- A walk depends only on the entries of tables that cover the address. -/
theorem translate_same {s t : Tables} {place : Nat → Place} (formed : Formed cpu alloc s place)
    {x : Nat} (same : ∀ table, IsTable alloc s table → (place table).Covers x →
      t.entry table (ptabeIndex (place table).level x) =
        s.entry table (ptabeIndex (place table).level x))
    {level table : Nat} (isTable : IsTable alloc s table) (isLevel : (place table).level = level)
    (covers : (place table).Covers x) : translate t level table x = translate s level table x := by
  induction level generalizing table with
  | zero =>
      have entry := same table isTable covers
      rw [isLevel] at entry
      simp only [translate, entry]
  | succ level ih =>
      have entry := same table isTable covers
      rw [isLevel] at entry
      rw [translate_eq t (level + 1) table x, translate_eq s (level + 1) table x, entry]
      cases formed_entry formed isTable isLevel covers with
      | free invalid => simp [invalid]
      | leaf valid isLeaf => simp [isLeaf]
      | link next valid noLeaf address nextTable nextLevel nextBase =>
          rw [valid, noLeaf, address, Nat.add_sub_cancel,
            ih nextTable (by omega) (covers_of_entry nextLevel nextBase rfl)]

/-! ## Changes -/

/-- From `s` to `t` only entries for the `size` addresses from `base` in tables
up to `level` have changed, and tables were added. -/
structure Change (cpu : CpuInfo) (alloc : Nat → Option Nat) (s : Tables) (place : Nat → Place)
    (t : Tables) (newPlace : Nat → Place) (level base size : Nat) : Prop where
  formed : Formed cpu alloc t newPlace
  tables : ∀ table, IsTable alloc s table → IsTable alloc t table ∧ newPlace table = place table
  inside : ∀ table, IsTable alloc s table → ∀ x, (place table).Covers x →
    t.entry table (ptabeIndex (place table).level x) =
        s.entry table (ptabeIndex (place table).level x) ∨
      (place table).level ≤ level ∧ base ≤ x ∧ x < base + size

theorem Change.refl {s : Tables} {place : Nat → Place} (formed : Formed cpu alloc s place)
    (level base size : Nat) : Change cpu alloc s place s place level base size :=
  ⟨formed, fun _ isTable => ⟨isTable, rfl⟩, fun _ _ _ _ => .inl rfl⟩

theorem Change.trans {s t u : Tables} {place tPlace uPlace : Nat → Place} {level base size : Nat}
    (first : Change cpu alloc s place t tPlace level base size)
    (second : Change cpu alloc t tPlace u uPlace level base size) :
    Change cpu alloc s place u uPlace level base size := by
  refine ⟨second.formed, ?_, ?_⟩
  · intro table isTable
    obtain ⟨inT, tSame⟩ := first.tables table isTable
    obtain ⟨inU, uSame⟩ := second.tables table inT
    exact ⟨inU, uSame.trans tSame⟩
  · intro table isTable x covers
    obtain ⟨inT, tSame⟩ := first.tables table isTable
    rcases first.inside table isTable x covers with same | changed
    · have later := second.inside table inT x (by rw [tSame]; exact covers)
      rw [tSame, same] at later
      exact later
    · exact .inr changed

theorem Change.widen {s t : Tables} {place tPlace : Nat → Place} {level base size : Nat}
    (change : Change cpu alloc s place t tPlace level base size) {wideLevel wideBase wideSize : Nat}
    (levels : level ≤ wideLevel) (low : wideBase ≤ base)
    (high : base + size ≤ wideBase + wideSize) :
    Change cpu alloc s place t tPlace wideLevel wideBase wideSize := by
  refine ⟨change.formed, change.tables, ?_⟩
  intro table isTable x covers
  rcases change.inside table isTable x covers with same | ⟨isLevel, lower, upper⟩
  · exact .inl same
  · exact .inr ⟨by omega, by omega, by omega⟩

/-- Addresses outside of the change are translated as before. -/
theorem Change.translate {s t : Tables} {place tPlace : Nat → Place} {level base size : Nat}
    (change : Change cpu alloc s place t tPlace level base size) (formed : Formed cpu alloc s place)
    {x : Nat} (outside : ¬ (base ≤ x ∧ x < base + size)) {other table : Nat}
    (isTable : IsTable alloc s table) (isLevel : (place table).level = other)
    (covers : (place table).Covers x) : translate t other table x = translate s other table x := by
  apply translate_same formed _ isTable isLevel covers
  intro table isTable covers
  rcases change.inside table isTable x covers with same | ⟨_, changed⟩
  · exact same
  · exact absurd changed outside

/-! ## What a level is to do -/

/-- Whole pages of an identity request. -/
structure Cursor.Ready (c : Cursor) : Prop where
  identity : c.pa = c.la
  aligned : 2 ^ 12 ∣ c.la
  pages : 2 ^ 12 ∣ c.size
  pos : 0 < c.size
  inside : c.la + c.size ≤ 2 ^ 48

/-- The request does not start in the middle of a leaf that it leaves again. -/
def Clear (s : Tables) (level table la size : Nat) : Prop :=
  ∀ found, leafLevel s level table la = some found →
    ptabSize found ∣ la ∨ la + size ≤ entryStart found la + ptabSize found

/-- The cursor has mapped everything or stands at `stop` with the rest. -/
structure Moved (c next : Cursor) (stop : Nat) : Prop where
  identity : next.pa = next.la
  rest : (next.size = 0 ∧ c.la + c.size ≤ stop) ∨
    (next.la = stop ∧ next.la + next.size = c.la + c.size)

/-- Below `stop` all of the request is mapped, and nothing else has changed. -/
def MapsBelow (s t : Tables) (place : Place) (table : Nat) (c : Cursor) (stop : Nat) : Prop :=
  ∀ x, place.Covers x → translate t place.level table x =
    if c.la ≤ x ∧ x < c.la + c.size ∧ x < stop then some x else translate s place.level table x

/-- The outcome of mapping the entries of `size` addresses from `base`, unless
there are no more pages for tables. -/
def Outcome (cpu : CpuInfo) (alloc : Nat → Option Nat) (s : Tables) (place : Nat → Place)
    (table : Nat) (c : Cursor) (base size : Nat) (result : Checked (Cursor × Tables)) : Prop :=
  result = panic "Cannot allocate page table" ∨
    ∃ next t newPlace, result = .ok (next, t) ∧
      Change cpu alloc s place t newPlace (place table).level base size ∧
      Moved c next (base + size) ∧ MapsBelow s t (place table) table c (base + size)

/-- The specification of `ptab_map_level` at a level. -/
def MapsLevel (cpu : CpuInfo) (alloc : Nat → Option Nat) (level : Nat)
    (map : Nat → Cursor → Tables → Checked (Cursor × Tables)) : Prop :=
  ∀ table c s place, Formed cpu alloc s place → IsTable alloc s table →
    (place table).level = level → c.Ready → (place table).Covers c.la →
    Clear s level table c.la c.size →
      Outcome cpu alloc s place table c (place table).base (ptabSize (level + 1)) (map table c s)

/-! ## One entry -/

section

variable {s : Tables} {place : Nat → Place} {level table : Nat} {c : Cursor}

theorem allow_leaf_le (allowed : allowLeaf cpu level = true) : level ≤ 2 := by
  match level with
  | 0 | 1 | 2 => decide
  | level + 3 => cases allowed

theorem ptab_size_le (small : level ≤ 2) : ptabSize level ≤ 2 ^ 30 := by
  rw [ptab_size_eq]
  apply Nat.pow_le_pow_right (by decide)
  unfold ptabShift
  omega

/-- The step over a leaf that starts at the cursor or that holds all the rest. -/
theorem advance_moved (ready : c.Ready) (small : level ≤ 2)
    (clear : ptabSize level ∣ c.la ∨ c.la + c.size ≤ entryStart level c.la + ptabSize level) :
    Moved c (c.advance level) (entryStart level c.la + ptabSize level) := by
  obtain ⟨identity, _, _, pos, inside⟩ := ready
  have size := ptab_size_le small
  have start := entry_start_le level c.la
  have step : Wordsize.w64.add c.la (ptabSize level) = c.la + ptabSize level := by
    apply Wordsize.w64.add_of_lt
    have modulus : Wordsize.w64.modulus = 2 ^ 64 := rfl
    omega
  have atStart : ptabSize level ∣ c.la → entryStart level c.la = c.la := by
    intro aligned
    exact entry_start_eq aligned le_rfl (by have := ptab_size_pos level; omega)
  constructor
  · simp only [Cursor.advance, identity]
  · by_cases whole : ptabSize level ≤ c.size
    · right
      have same : entryStart level c.la = c.la := by
        rcases clear with aligned | inLeaf
        · exact atStart aligned
        · omega
      simp only [Cursor.advance, step, if_pos whole, same]
      exact ⟨trivial, by rw [Nat.add_assoc, Nat.add_sub_cancel' whole]⟩
    · left
      simp only [Cursor.advance, if_neg whole, Nat.sub_self, true_and]
      rcases clear with aligned | inLeaf
      · rw [atStart aligned]
        omega
      · exact inLeaf

/-- An address in the entry of the cursor has its index. -/
theorem index_of_entry (formed : Formed cpu alloc s place) (isTable : IsTable alloc s table)
    (isLevel : (place table).level = level) (covers : (place table).Covers c.la) {x : Nat}
    (xCovers : (place table).Covers x) :
    ptabeIndex level x = ptabeIndex level c.la ↔
      entryStart level c.la ≤ x ∧ x < entryStart level c.la + ptabSize level := by
  subst isLevel
  rw [ptabe_index_inj (formed.aligned table isTable) xCovers.1 xCovers.2 covers.1 covers.2]
  constructor
  · intro same
    rw [← same]
    exact ⟨entry_start_le _ _, lt_entry_start_add _ _⟩
  · rintro ⟨lower, upper⟩
    exact entry_start_eq (entry_start_dvd _ _) lower upper

/-- Through a leaf an address is translated to itself. -/
theorem translate_leaf {t : Tables} {x : Nat}
    (valid : isValid (t.entry table (ptabeIndex level x)) = true)
    (isLeaf : isLeaf level (t.entry table (ptabeIndex level x)) = true)
    (address : t.entry table (ptabeIndex level x) &&& ptabPfn = entryStart level x) :
    translate t level table x = some x := by
  rw [translate_eq, if_pos valid, if_pos isLeaf, leaf_address_identity address]

/-- An entry that is a leaf already. -/
theorem existing_leaf (formed : Formed cpu alloc s place) (isTable : IsTable alloc s table)
    (isLevel : (place table).level = level) (ready : c.Ready) (covers : (place table).Covers c.la)
    (clear : Clear s level table c.la c.size)
    (valid : isValid (s.entry table (ptabeIndex level c.la)) = true)
    (isLeaf : isLeaf level (s.entry table (ptabeIndex level c.la)) = true)
    (allowed : allowLeaf cpu level = true)
    (address : s.entry table (ptabeIndex level c.la) &&& ptabPfn = entryStart level c.la) :
    Outcome cpu alloc s place table c (entryStart level c.la) (ptabSize level)
      (.ok (c.advance level, s)) := by
  have found : leafLevel s level table c.la = some level := by
    rw [leaf_level_eq, if_pos valid, if_pos isLeaf]
  right
  refine ⟨_, s, place, rfl, .refl formed _ _ _, ?_, ?_⟩
  · exact advance_moved ready (allow_leaf_le allowed) (clear level found)
  · intro x xCovers
    rw [isLevel]
    split_ifs with inside
    · have inEntry := (index_of_entry formed isTable isLevel covers xCovers).mpr
        ⟨(entry_start_le _ _).trans inside.1, inside.2.2⟩
      have same : entryStart level x = entryStart level c.la :=
        entry_start_eq (entry_start_dvd _ _) ((entry_start_le _ _).trans inside.1) inside.2.2
      rw [← inEntry] at valid isLeaf address
      exact translate_leaf valid isLeaf (address.trans same.symm)
    · rfl

theorem write_entry (s : Tables) (table index value other i : Nat) :
    (s.write table index value).entry other i =
      if other = table ∧ i = index then value else s.entry other i := by
  unfold Tables.write
  by_cases same : other = table
  · subst same
    by_cases sameIndex : i = index
    · subst sameIndex
      simp
    · simp [sameIndex]
  · simp [same]

/-- A changed entry of the table of the cursor. -/
theorem write_change {t : Tables} {newPlace : Nat → Place} (formed : Formed cpu alloc s place)
    (isTable : IsTable alloc s table) (isLevel : (place table).level = level)
    (covers : (place table).Covers c.la) (newFormed : Formed cpu alloc t newPlace)
    (tables : ∀ other, IsTable alloc s other →
      IsTable alloc t other ∧ newPlace other = place other)
    (same : ∀ other i, IsTable alloc s other → ¬ (other = table ∧ i = ptabeIndex level c.la) →
      t.entry other i = s.entry other i) :
    Change cpu alloc s place t newPlace level (entryStart level c.la) (ptabSize level) := by
  refine ⟨newFormed, tables, ?_⟩
  intro other isOther x xCovers
  by_cases here : other = table ∧ ptabeIndex (place other).level x = ptabeIndex level c.la
  · obtain ⟨rfl, index⟩ := here
    rw [isLevel] at index
    exact .inr ⟨isLevel.le, (index_of_entry formed isTable isLevel covers xCovers).mp index⟩
  · exact .inl (same other _ isOther here)

/-- An entry that has not changed stays formed when tables are added. -/
theorem entry_formed_same {t : Tables} {newPlace : Nat → Place} {index : Nat}
    (entry : EntryFormed cpu alloc s place table index) (samePlace : newPlace table = place table)
    (tables : ∀ other, IsTable alloc s other →
      IsTable alloc t other ∧ newPlace other = place other)
    (same : t.entry table index = s.entry table index) :
    EntryFormed cpu alloc t newPlace table index := by
  unfold EntryFormed
  rw [same, samePlace]
  intro valid
  rcases entry valid with leaf | ⟨noLeaf, next, nextLevel, nextBase⟩
  · exact .inl leaf
  · obtain ⟨newNext, nextPlace⟩ := tables _ next
    rw [nextPlace]
    exact .inr ⟨noLeaf, newNext, nextLevel, nextBase⟩

/-- A new leaf. -/
theorem new_leaf {mappingBits : Nat} (flags : Flags mappingBits) (formed : Formed cpu alloc s place)
    (isTable : IsTable alloc s table) (isLevel : (place table).level = level) (ready : c.Ready)
    (covers : (place table).Covers c.la) (allowed : allowLeaf cpu level = true)
    (aligned : ptabSize level ∣ c.la) (whole : ptabSize level ≤ c.size) :
    Outcome cpu alloc s place table c (entryStart level c.la) (ptabSize level)
      (.ok (c.advance level, s.write table (ptabeIndex level c.la)
        (c.pa ||| ptabValid ||| mappingBits ||| leafBit level))) := by
  have small := allow_leaf_le allowed
  have inside := ready.inside
  have start : entryStart level c.la = c.la :=
    entry_start_eq aligned le_rfl (Nat.lt_add_of_pos_right (ptab_size_pos level))
  obtain ⟨valid, isLeaf, address⟩ := leaf_entry flags ready.aligned
    (show c.la < 2 ^ 52 by omega) small
  rw [← ready.identity] at valid isLeaf address
  have written := write_entry s table (ptabeIndex level c.la)
    (c.pa ||| ptabValid ||| mappingBits ||| leafBit level)
  generalize isEntry : c.pa ||| ptabValid ||| mappingBits ||| leafBit level = entry at *
  have newFormed : Formed cpu alloc (s.write table (ptabeIndex level c.la) entry) place := by
    refine ⟨formed.aligned, formed.inside, ?_⟩
    intro other isOther index indexLt
    by_cases here : other = table ∧ index = ptabeIndex level c.la
    · obtain ⟨rfl, rfl⟩ := here
      intro _
      left
      have atIndex := entry_start_index (formed.aligned other isTable) covers.1 covers.2
      rw [isLevel] at atIndex ⊢
      rw [written, if_pos ⟨rfl, rfl⟩, atIndex, start, ← ready.identity]
      exact ⟨isLeaf, allowed, address⟩
    · exact entry_formed_same (formed.entry other isOther index indexLt) rfl
        (fun _ isTable => ⟨isTable, rfl⟩) (by rw [written, if_neg here])
  have change : Change cpu alloc s place (s.write table (ptabeIndex level c.la) entry) place level
      (entryStart level c.la) (ptabSize level) := by
    apply write_change formed isTable isLevel covers newFormed
    · exact fun other isOther => ⟨isOther, rfl⟩
    · intro other i _ elsewhere
      rw [written, if_neg elsewhere]
  right
  refine ⟨_, _, place, rfl, ?_, advance_moved ready small (.inl aligned), ?_⟩
  · rw [isLevel]
    exact change
  · intro x xCovers
    rw [isLevel]
    split_ifs with inRange
    · have inEntry := (index_of_entry formed isTable isLevel covers xCovers).mpr
        ⟨by omega, inRange.2.2⟩
      apply translate_leaf <;> rw [inEntry, written, if_pos ⟨rfl, rfl⟩]
      · exact valid
      · exact isLeaf
      · rw [address, ready.identity]
        exact (entry_start_eq aligned inRange.1 (by omega)).symm
    · exact change.translate formed (by omega) isTable isLevel xCovers

/-- Through a link an address is looked up in the next table. -/
theorem translate_link {t : Tables} {lower next x : Nat}
    (valid : isValid (t.entry table (ptabeIndex (lower + 1) x)) = true)
    (noLeaf : isLeaf (lower + 1) (t.entry table (ptabeIndex (lower + 1) x)) = false)
    (address : t.entry table (ptabeIndex (lower + 1) x) &&& ptabPfn = next) :
    translate t (lower + 1) table x = translate t lower next x ∧
      leafLevel t (lower + 1) table x = leafLevel t lower next x := by
  have notLeaf : ¬ isLeaf (lower + 1) (t.entry table (ptabeIndex (lower + 1) x)) = true := by
    simp [noLeaf]
  constructor
  · rw [translate_eq, if_pos valid, if_neg notLeaf, address, Nat.add_sub_cancel]
  · rw [leaf_level_eq, if_pos valid, if_neg notLeaf, address, Nat.add_sub_cancel]

/-- An entry that leads to a table already. -/
theorem existing_link {lower next : Nat} {map : Nat → Cursor → Tables → Checked (Cursor × Tables)}
    (maps : MapsLevel cpu alloc lower map) (formed : Formed cpu alloc s place)
    (isTable : IsTable alloc s table) (isLevel : (place table).level = lower + 1) (ready : c.Ready)
    (covers : (place table).Covers c.la) (clear : Clear s (lower + 1) table c.la c.size)
    (valid : isValid (s.entry table (ptabeIndex (lower + 1) c.la)) = true)
    (noLeaf : isLeaf (lower + 1) (s.entry table (ptabeIndex (lower + 1) c.la)) = false)
    (address : s.entry table (ptabeIndex (lower + 1) c.la) &&& ptabPfn = next)
    (nextTable : IsTable alloc s next) (nextLevel : (place next).level + 1 = lower + 1)
    (nextBase : (place next).base = entryStart (lower + 1) c.la) :
    Outcome cpu alloc s place table c (entryStart (lower + 1) c.la) (ptabSize (lower + 1))
      (map next c s) := by
  have isLower : (place next).level = lower := Nat.succ_injective nextLevel
  have nextClear : Clear s lower next c.la c.size := by
    intro found isFound
    apply clear found
    rw [(translate_link valid noLeaf address).2]
    exact isFound
  have below := maps next c s place formed nextTable isLower ready
    (covers_of_entry nextLevel nextBase rfl) nextClear
  rw [nextBase] at below
  rcases below with exhausted | ⟨moved, t, newPlace, done, change, isMoved, mapped⟩
  · exact .inl exhausted
  right
  refine ⟨moved, t, newPlace, done, ?_, isMoved, ?_⟩
  · exact change.widen (by omega) le_rfl le_rfl
  · intro x xCovers
    rw [isLevel]
    by_cases inEntry : entryStart (lower + 1) c.la ≤ x ∧
        x < entryStart (lower + 1) c.la + ptabSize (lower + 1)
    · have index := (index_of_entry formed isTable isLevel covers xCovers).mpr inEntry
      have unchanged : t.entry table (ptabeIndex (lower + 1) x) =
          s.entry table (ptabeIndex (lower + 1) x) := by
        rcases change.inside table isTable x xCovers with same | ⟨low, _⟩
        · rw [isLevel] at same
          exact same
        · omega
      have nextCovers : (place next).Covers x := by
        unfold Place.Covers
        rw [nextLevel, nextBase]
        exact inEntry
      rw [← index] at valid noLeaf address
      rw [(translate_link valid noLeaf address).1]
      rw [← unchanged] at valid noLeaf address
      rw [(translate_link valid noLeaf address).1]
      have lowerMapped := mapped x nextCovers
      rw [isLower] at lowerMapped
      exact lowerMapped
    · have start := entry_start_le (lower + 1) c.la
      rw [if_neg (by omega)]
      exact change.translate formed inEntry isTable isLevel xCovers

/-- A change before the mapping that no walk from the table sees. -/
theorem outcome_after {t : Tables} {newPlace : Nat → Place} {base size : Nat}
    {result : Checked (Cursor × Tables)} (isTable : IsTable alloc s table)
    (change : Change cpu alloc s place t newPlace (place table).level base size)
    (same : ∀ x, (place table).Covers x →
      translate t (place table).level table x = translate s (place table).level table x)
    (outcome : Outcome cpu alloc t newPlace table c base size result) :
    Outcome cpu alloc s place table c base size result := by
  have samePlace := (change.tables table isTable).2
  rcases outcome with exhausted | ⟨moved, u, uPlace, done, later, isMoved, mapped⟩
  · exact .inl exhausted
  · rw [samePlace] at later mapped
    refine .inr ⟨moved, u, uPlace, done, change.trans later, isMoved, ?_⟩
    intro x xCovers
    rw [mapped x xCovers, same x xCovers]

/-- A table without entries translates nothing. -/
theorem translate_empty {t : Tables} {page : Nat} (empty : ∀ i, t.entry page i = 0)
    (level x : Nat) : translate t level page x = none ∧ leafLevel t level page x = none := by
  rw [translate_eq, leaf_level_eq, empty]
  exact ⟨rfl, rfl⟩

/-- The tables after `linkTable` has put in an empty page. -/
def linked (mappingBits : Nat) (s : Tables) (page table index : Nat) : Tables :=
  Tables.write
    { entry := Function.update s.entry page fun _ => 0
      used := s.used + 1 }
    table index ((page &&& ptabPfn) ||| ptabValid ||| mappingBits)

theorem linked_entry (mappingBits : Nat) (s : Tables) (page table index other i : Nat) :
    (linked mappingBits s page table index).entry other i =
      if other = table ∧ i = index then (page &&& ptabPfn) ||| ptabValid ||| mappingBits
      else if other = page then 0 else s.entry other i := by
  rw [linked, write_entry]
  congr 1
  by_cases isPage : other = page
  · simp [isPage]
  · simp [isPage]

/-- The place of the new table. -/
def linkedPlace (place : Nat → Place) (page level base : Nat) : Nat → Place :=
  Function.update place page ⟨level, base⟩

theorem linked_place_page (place : Nat → Place) (page level base : Nat) :
    linkedPlace place page level base page = ⟨level, base⟩ := Function.update_self _ _ _

theorem linked_tables {mappingBits page index : Nat} (isPage : alloc s.used = some page)
    {other : Nat} :
    IsTable alloc (linked mappingBits s page table index) other ↔
      IsTable alloc s other ∨ other = page := by
  have used : (linked mappingBits s page table index).used = s.used + 1 := rfl
  unfold IsTable
  rw [used]
  constructor
  · rintro ⟨k, less, isOther⟩
    by_cases last : k = s.used
    · rw [last, isPage] at isOther
      exact .inr (Option.some.inj isOther).symm
    · exact .inl ⟨k, by omega, isOther⟩
  · rintro (⟨k, less, isOther⟩ | rfl)
    · exact ⟨k, by omega, isOther⟩
    · exact ⟨s.used, by omega, isPage⟩

theorem table_ne_page (allocator : Allocator alloc) {page other : Nat}
    (isPage : alloc s.used = some page) (isTable : IsTable alloc s other) : other ≠ page := by
  rintro rfl
  obtain ⟨k, less, isOther⟩ := isTable
  exact absurd (allocator.fresh _ _ _ isOther isPage) (by omega)

theorem linked_place_old (place : Nat → Place) (allocator : Allocator alloc) {page : Nat}
    (isPage : alloc s.used = some page) {other : Nat} (isTable : IsTable alloc s other)
    (level base : Nat) : linkedPlace place page level base other = place other :=
  Function.update_of_ne (table_ne_page allocator isPage isTable) _ _

theorem linked_formed {mappingBits lower page : Nat} (allocator : Allocator alloc)
    (flags : Flags mappingBits) (formed : Formed cpu alloc s place)
    (isTable : IsTable alloc s table) (isLevel : (place table).level = lower + 1)
    (covers : (place table).Covers c.la) (isPage : alloc s.used = some page) :
    Formed cpu alloc (linked mappingBits s page table (ptabeIndex (lower + 1) c.la))
      (linkedPlace place page lower (entryStart (lower + 1) c.la)) := by
  obtain ⟨valid, noLeaf, address⟩ := link_entry flags (allocator.aligned _ _ isPage)
    (allocator.word _ _ isPage) (Nat.succ_pos lower)
  have isAligned := formed.aligned table isTable
  have isInside := formed.inside table isTable
  rw [isLevel] at isAligned isInside
  have tableCovers := covers
  unfold Place.Covers at tableCovers
  rw [isLevel] at tableCovers
  have entryInside := entry_inside isAligned tableCovers.1 tableCovers.2
  have old := fun {other} (isOther : IsTable alloc s other) =>
    linked_place_old place allocator isPage isOther lower (entryStart (lower + 1) c.la)
  refine ⟨?_, ?_, ?_⟩
  · intro other isOther
    rcases (linked_tables isPage).mp isOther with isOld | rfl
    · rw [old isOld]
      exact formed.aligned other isOld
    · rw [linked_place_page]
      exact entry_start_dvd _ _
  · intro other isOther
    rcases (linked_tables isPage).mp isOther with isOld | rfl
    · rw [old isOld]
      exact formed.inside other isOld
    · rw [linked_place_page]
      exact entryInside.2.trans isInside
  · intro other isOther index indexLt
    rcases (linked_tables isPage).mp isOther with isOld | rfl
    · by_cases here : other = table ∧ index = ptabeIndex (lower + 1) c.la
      · obtain ⟨rfl, rfl⟩ := here
        intro _
        right
        rw [linked_entry, if_pos ⟨rfl, rfl⟩, address, old isOld, isLevel, linked_place_page,
          entry_start_index isAligned tableCovers.1 tableCovers.2]
        exact ⟨noLeaf, (linked_tables isPage).mpr (.inr rfl), rfl, rfl⟩
      · apply entry_formed_same (formed.entry other isOld index indexLt) (old isOld)
        · exact fun _ isTable => ⟨(linked_tables isPage).mpr (.inl isTable), old isTable⟩
        · rw [linked_entry, if_neg here, if_neg (table_ne_page allocator isPage isOld)]
    · intro isValid
      have notTable : ¬ (other = table ∧ index = ptabeIndex (lower + 1) c.la) :=
        fun here => table_ne_page allocator isPage isTable here.1.symm
      rw [linked_entry, if_neg notTable, if_pos rfl] at isValid
      cases isValid

/-- An entry that gets a new table. -/
theorem new_link {mappingBits lower page : Nat}
    {map : Nat → Cursor → Tables → Checked (Cursor × Tables)} (maps : MapsLevel cpu alloc lower map)
    (allocator : Allocator alloc) (flags : Flags mappingBits) (formed : Formed cpu alloc s place)
    (isTable : IsTable alloc s table) (isLevel : (place table).level = lower + 1) (ready : c.Ready)
    (covers : (place table).Covers c.la) (isPage : alloc s.used = some page)
    (invalid : isValid (s.entry table (ptabeIndex (lower + 1) c.la)) = false) :
    Outcome cpu alloc s place table c (entryStart (lower + 1) c.la) (ptabSize (lower + 1))
      (map page c (linked mappingBits s page table (ptabeIndex (lower + 1) c.la))) := by
  obtain ⟨valid, noLeaf, address⟩ := link_entry flags (allocator.aligned _ _ isPage)
    (allocator.word _ _ isPage) (Nat.succ_pos lower)
  have newFormed := linked_formed allocator flags formed isTable isLevel covers isPage
  have written := linked_entry mappingBits s page table (ptabeIndex (lower + 1) c.la)
  have used : ∀ other, IsTable alloc (linked mappingBits s page table (ptabeIndex (lower + 1) c.la))
      other ↔ IsTable alloc s other ∨ other = page := fun other => linked_tables isPage
  have old := fun {other} (isOther : IsTable alloc s other) =>
    linked_place_old place allocator isPage isOther lower (entryStart (lower + 1) c.la)
  generalize linked mappingBits s page table (ptabeIndex (lower + 1) c.la) = t at *
  have atEntry := written table (ptabeIndex (lower + 1) c.la)
  rw [if_pos ⟨rfl, rfl⟩] at atEntry
  rw [← atEntry] at valid noLeaf address
  have empty : ∀ i, t.entry page i = 0 := by
    intro i
    rw [written, if_neg fun here => table_ne_page allocator isPage isTable here.1.symm, if_pos rfl]
  have change : Change cpu alloc s place t (linkedPlace place page lower (entryStart (lower + 1) c.la))
      (place table).level (entryStart (lower + 1) c.la) (ptabSize (lower + 1)) := by
    rw [isLevel]
    apply write_change formed isTable isLevel covers newFormed
    · exact fun other isOther => ⟨(used other).mpr (.inl isOther), old isOther⟩
    · intro other i isOther elsewhere
      rw [written, if_neg elsewhere, if_neg (table_ne_page allocator isPage isOther)]
  apply outcome_after isTable change
  · intro x xCovers
    rw [isLevel]
    by_cases inEntry : entryStart (lower + 1) c.la ≤ x ∧
        x < entryStart (lower + 1) c.la + ptabSize (lower + 1)
    · have index := (index_of_entry formed isTable isLevel covers xCovers).mpr inEntry
      rw [← index] at valid noLeaf address invalid
      rw [(translate_link valid noLeaf address).1, (translate_empty empty lower x).1, translate_eq,
        invalid]
      simp
    · exact change.translate formed inEntry isTable isLevel xCovers
  · have samePlace := old isTable
    apply existing_link maps newFormed ((used table).mpr (.inl isTable)) (by rw [samePlace, isLevel])
      ready (by rw [samePlace]; exact covers) _ valid noLeaf address ((used page).mpr (.inr rfl))
      (by rw [linked_place_page]) (by rw [linked_place_page])
    intro found isFound
    rw [(translate_link valid noLeaf address).2, (translate_empty empty lower c.la).2] at isFound
    cases isFound

theorem IsTable.word (allocator : Allocator alloc) {page : Nat} (isTable : IsTable alloc s page) :
    page % Wordsize.w32.modulus = page := by
  obtain ⟨k, _, isPage⟩ := isTable
  exact Nat.mod_eq_of_lt (allocator.word k page isPage)

theorem map_leaf_valid {mappingBits : Nat}
    (valid : isValid (s.entry table (ptabeIndex level c.la)) = true) :
    mapLeaf mappingBits level table c s = s := by
  rw [mapLeaf, valid]
  rfl

theorem map_leaf_free {mappingBits : Nat} (ready : c.Ready)
    (invalid : isValid (s.entry table (ptabeIndex level c.la)) = false) :
    mapLeaf mappingBits level table c s =
      if ptabSize level ∣ c.la ∧ ptabSize level ≤ c.size then
        s.write table (ptabeIndex level c.la) (c.pa ||| ptabValid ||| mappingBits ||| leafBit level)
      else s := by
  rw [mapLeaf, invalid, ready.identity]
  apply if_congr _ rfl rfl
  simp only [Bool.not_false, Bool.true_and, Bool.and_eq_true, is_ptab_aligned_iff, and_self,
    decide_eq_true_eq]

/-- Where nothing is mapped and no leaf is possible, the entry leads to a new table. -/
theorem map_free_entry {mappingBits : Nat}
    {map : Nat → Cursor → Tables → Checked (Cursor × Tables)}
    (maps : ∀ lower, level = lower + 1 → MapsLevel cpu alloc lower map)
    (allocator : Allocator alloc) (flags : Flags mappingBits) (formed : Formed cpu alloc s place)
    (isTable : IsTable alloc s table) (isLevel : (place table).level = level) (ready : c.Ready)
    (covers : (place table).Covers c.la) (pos : 0 < level)
    (invalid : isValid (s.entry table (ptabeIndex level c.la)) = false) :
    Outcome cpu alloc s place table c (entryStart level c.la) (ptabSize level)
      (do
        let s ← linkTable alloc mappingBits table (ptabeIndex level c.la) s
        map ((s.entry table (ptabeIndex level c.la) &&& ptabPfn) % Wordsize.w32.modulus) c s) := by
  obtain ⟨lower, rfl⟩ := Nat.exists_eq_succ_of_ne_zero pos.ne'
  rw [linkTable, invalid, Bool.not_false, if_pos rfl, ptabAlloc]
  cases isPage : alloc s.used with
  | none => exact .inl rfl
  | some page =>
      have outcome := new_link (maps lower rfl) allocator flags formed isTable isLevel ready covers
        isPage invalid
      have address : ((linked mappingBits s page table (ptabeIndex (lower + 1) c.la)).entry table
          (ptabeIndex (lower + 1) c.la) &&& ptabPfn) % Wordsize.w32.modulus = page := by
        rw [linked_entry, if_pos ⟨rfl, rfl⟩, (link_entry flags (allocator.aligned _ _ isPage)
          (allocator.word _ _ isPage) (Nat.succ_pos lower)).2.2]
        exact Nat.mod_eq_of_lt (allocator.word _ _ isPage)
      change Outcome _ _ _ _ _ _ _ _ (map (((linked mappingBits s page table _).entry table _
        &&& ptabPfn) % _) c (linked mappingBits s page table _))
      rw [address]
      exact outcome

/-- One round of the loop. -/
theorem map_entry_outcome {mappingBits : Nat}
    {map : Nat → Cursor → Tables → Checked (Cursor × Tables)}
    (maps : ∀ lower, level = lower + 1 → MapsLevel cpu alloc lower map)
    (allocator : Allocator alloc) (flags : Flags mappingBits) (formed : Formed cpu alloc s place)
    (isTable : IsTable alloc s table) (isLevel : (place table).level = level) (ready : c.Ready)
    (covers : (place table).Covers c.la) (clear : Clear s level table c.la c.size) :
    Outcome cpu alloc s place table c (entryStart level c.la) (ptabSize level)
      (mapEntry cpu alloc mappingBits level map table c s) := by
  unfold mapEntry
  cases formed_entry formed isTable isLevel covers with
  | leaf valid isLeaf allowed address =>
      simp only [allowed, map_leaf_valid valid, valid, isLeaf, if_true, Bool.and_true]
      exact existing_leaf formed isTable isLevel ready covers clear valid isLeaf allowed address
  | link next valid noLeaf address nextTable nextLevel nextBase =>
      have pos : 0 < level := by omega
      obtain ⟨lower, rfl⟩ := Nat.exists_eq_succ_of_ne_zero pos.ne'
      have linked : linkTable alloc mappingBits table (ptabeIndex (lower + 1) c.la) s = .ok s := by
        rw [linkTable, valid]
        rfl
      have required : require (0 < lower + 1) = .ok () := if_pos pos
      simp only [map_leaf_valid valid, ite_self, noLeaf, Bool.and_false, Bool.false_eq_true, if_false,
        required, linked, ok_bind, address, nextTable.word allocator]
      exact existing_link (maps lower rfl) formed isTable isLevel ready covers clear valid noLeaf
        address nextTable nextLevel nextBase
  | free invalid =>
      by_cases leaf : allowLeaf cpu level = true ∧ ptabSize level ∣ c.la ∧ ptabSize level ≤ c.size
      · obtain ⟨allowed, aligned, whole⟩ := leaf
        have outcome := new_leaf flags formed isTable isLevel ready covers allowed aligned whole
        have inside := ready.inside
        obtain ⟨valid, isLeaf, _⟩ := leaf_entry flags ready.aligned (show c.la < 2 ^ 52 by omega)
          (allow_leaf_le allowed)
        rw [← ready.identity] at valid isLeaf
        simp only [allowed, if_true, map_leaf_free ready invalid, if_pos (And.intro aligned whole),
          write_entry, and_self, valid, isLeaf, Bool.and_true]
        exact outcome
      · have unchanged : (if allowLeaf cpu level = true then mapLeaf mappingBits level table c s
            else s) = s := by
          rw [map_leaf_free ready invalid]
          split_ifs with allowed fits
          · exact absurd ⟨allowed, fits⟩ leaf
          · rfl
          · rfl
        have pos : 0 < level := by
          by_contra zero
          obtain rfl : level = 0 := by omega
          exact leaf ⟨rfl, ready.aligned, Nat.le_of_dvd ready.pos ready.pages⟩
        have required : require (0 < level) = .ok () := if_pos pos
        simp only [unchanged, invalid, Bool.and_false, Bool.false_and, Bool.false_eq_true, if_false,
          required, ok_bind]
        exact map_free_entry maps allocator flags formed isTable isLevel ready covers pos invalid

/-! ## The loop and the levels -/

/-- What the rounds have done so far and what the next ones do. -/
theorem outcome_trans {t : Tables} {newPlace : Nat → Place} {next : Cursor} {base size : Nat}
    {result : Checked (Cursor × Tables)} (formed : Formed cpu alloc s place)
    (isTable : IsTable alloc s table) (isLevel : (place table).level = level)
    (isBase : (place table).base = base) (isSize : size = ptabSize (level + 1))
    (covers : (place table).Covers c.la)
    (change : Change cpu alloc s place t newPlace (place table).level (entryStart level c.la)
      (ptabSize level))
    (stands : next.la = entryStart level c.la + ptabSize level)
    (rest : next.la + next.size = c.la + c.size)
    (mapped : MapsBelow s t (place table) table c (entryStart level c.la + ptabSize level))
    (outcome : Outcome cpu alloc t newPlace table next base size result) :
    Outcome cpu alloc s place table c base size result := by
  subst isLevel isBase isSize
  have samePlace := (change.tables table isTable).2
  have inside := entry_inside (formed.aligned table isTable) covers.1 covers.2
  have start := entry_start_le (place table).level c.la
  have behind := lt_entry_start_add (place table).level c.la
  rcases outcome with exhausted | ⟨moved, u, uPlace, done, later, isMoved, nextMapped⟩
  · exact .inl exhausted
  · rw [samePlace] at later nextMapped
    refine .inr ⟨moved, u, uPlace, done, (change.widen le_rfl inside.1 inside.2).trans later, ?_, ?_⟩
    · refine ⟨isMoved.identity, ?_⟩
      rw [← rest]
      exact isMoved.rest
    · intro x xCovers
      have upper := xCovers.2
      rw [nextMapped x xCovers, mapped x xCovers]
      split_ifs <;> first | rfl | omega

/-- The next round is still in the table. -/
theorem covers_next {next : Cursor} (formed : Formed cpu alloc s place)
    (isTable : IsTable alloc s table) (isLevel : (place table).level = level)
    (covers : (place table).Covers c.la) (stands : next.la = entryStart level c.la + ptabSize level)
    (notAligned : ¬ ptabSize (level + 1) ∣ next.la) : (place table).Covers next.la := by
  subst isLevel
  have inside := entry_inside (formed.aligned table isTable) covers.1 covers.2
  have notEnd : next.la ≠ (place table).base + ptabSize ((place table).level + 1) := by
    intro atEnd
    apply notAligned
    rw [atEnd]
    exact Nat.dvd_add (formed.aligned table isTable) dvd_rfl
  unfold Place.Covers
  omega

/-- The loop of a level whose next level is correct. -/
theorem map_entries_outcome {mappingBits : Nat}
    {map : Nat → Cursor → Tables → Checked (Cursor × Tables)}
    (maps : ∀ lower, level = lower + 1 → MapsLevel cpu alloc lower map)
    (allocator : Allocator alloc) (flags : Flags mappingBits) :
    MapsLevel cpu alloc level (mapEntries cpu alloc mappingBits level map) := by
  intro table c s place formed isTable isLevel ready covers clear
  unfold mapEntries
  generalize isFuel : c.size + 1 = fuel
  have enough : c.size < fuel := by omega
  clear isFuel
  induction fuel generalizing c s place with
  | zero => omega
  | succ fuel ih =>
      have round := map_entry_outcome maps allocator flags formed isTable isLevel ready covers clear
      rw [loop]
      rcases round with exhausted | ⟨next, t, newPlace, done, change, moved, mapped⟩
      · left
        simp only [exhausted, panic, error_bind]
      have samePlace := (change.tables table isTable).2
      have behind := lt_entry_start_add level c.la
      simp only [done, ok_bind]
      by_cases more : 0 < next.size ∧ ¬ ptabSize (level + 1) ∣ next.la
      · obtain ⟨some, notAligned⟩ := more
        have goesOn : (decide (0 < next.size) && !isPtabAligned (level + 1) next.la) = true := by
          rw [Bool.and_eq_true, decide_eq_true_eq, Bool.not_eq_true', ← Bool.not_eq_true,
            is_ptab_aligned_iff]
          exact ⟨some, notAligned⟩
        rw [if_pos goesOn]
        obtain ⟨stands, rest⟩ : next.la = entryStart level c.la + ptabSize level ∧
            next.la + next.size = c.la + c.size := by
          rcases moved.rest with ⟨none, _⟩ | stands
          · omega
          · exact stands
        have inTable := covers_next formed isTable isLevel covers stands notAligned
        have aligned : ptabSize level ∣ next.la := by
          rw [stands]
          exact Nat.dvd_add (entry_start_dvd level c.la) dvd_rfl
        have page : 2 ^ 12 ∣ next.la := (ptab_size_dvd (Nat.zero_le level)).trans aligned
        apply outcome_trans formed isTable isLevel rfl rfl covers change stands rest mapped
        rw [← samePlace]
        apply ih
        · exact change.formed
        · exact (change.tables table isTable).1
        · rw [samePlace, isLevel]
        · refine ⟨moved.identity, page, ?_, some, rest ▸ ready.inside⟩
          exact (Nat.dvd_add_right page).mp (rest ▸ Nat.dvd_add ready.aligned ready.pages)
        · rw [samePlace]
          exact inTable
        · intro found isFound
          exact .inl ((ptab_size_dvd (leaf_level_le t isFound)).trans aligned)
        · omega
      · have leaves : ¬ (decide (0 < next.size) && !isPtabAligned (level + 1) next.la) = true := by
          rw [Bool.and_eq_true, decide_eq_true_eq, Bool.not_eq_true', ← Bool.not_eq_true,
            is_ptab_aligned_iff]
          exact more
        rw [if_neg leaves]
        subst isLevel
        have inside := entry_inside (formed.aligned table isTable) covers.1 covers.2
        have start := entry_start_le (place table).level c.la
        -- either all is mapped or the table ends with the entry
        have atStop : (next.size = 0 ∧ c.la + c.size ≤
              entryStart (place table).level c.la + ptabSize (place table).level) ∨
            (next.la = (place table).base + ptabSize ((place table).level + 1) ∧
              next.la = entryStart (place table).level c.la + ptabSize (place table).level ∧
              next.la + next.size = c.la + c.size) := by
          rcases moved.rest with empty | ⟨stands, sum⟩
          · exact .inl empty
          · by_cases empty : next.size = 0
            · exact .inl ⟨empty, by omega⟩
            · right
              have endAligned : ptabSize ((place table).level + 1) ∣ next.la := by
                by_contra notAligned
                exact more ⟨by omega, notAligned⟩
              have gap := Nat.le_of_dvd (by omega)
                (Nat.dvd_sub endAligned (formed.aligned table isTable))
              exact ⟨by omega, stands, sum⟩
        refine .inr ⟨next, t, newPlace, rfl, change.widen le_rfl inside.1 inside.2, ?_, ?_⟩
        · refine ⟨moved.identity, ?_⟩
          rcases atStop with ⟨empty, whole⟩ | ⟨atEnd, _, sum⟩
          · exact .inl ⟨empty, whole.trans inside.2⟩
          · exact .inr ⟨atEnd, sum⟩
        · intro x xCovers
          rw [mapped x xCovers]
          apply if_congr _ rfl rfl
          have upper := xCovers.2
          omega

theorem ptab_map_level_outcome {mappingBits : Nat} (allocator : Allocator alloc)
    (flags : Flags mappingBits) (level : Nat) :
    MapsLevel cpu alloc level (ptabMapLevel cpu alloc mappingBits level) := by
  induction level with
  | zero =>
      apply map_entries_outcome _ allocator flags
      intro lower impossible
      omega
  | succ level ih =>
      apply map_entries_outcome _ allocator flags
      intro lower same
      obtain rfl : level = lower := by omega
      exact ih

end

end Paging

end L4Bootstrap
