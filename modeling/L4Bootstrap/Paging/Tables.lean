import L4Bootstrap.Support
import L4Bootstrap.Lib.FlagWord
import Mathlib.Logic.Function.Basic

/-!
# Page tables

`ptab_map_range` of `ARCH-amd64/paging.c` on the four-level page tables of the
processor. Levels are counted as in the source, from 0 for a table of pages to 3
for the PML4. A table is a page of 512 words at a physical address. `ptab_alloc`
is provided by the users of the file: it hands out the pages `alloc 0`,
`alloc 1`, ..., zeroed, and panics when there are no more. The PML4 is the first
of them.
-/

namespace L4Bootstrap

open MachineWord CheckedLoop FlagWord

set_option autoImplicit false

namespace Paging

structure CpuInfo where
  featureFlags : Nat
  featureFlagsExt : Nat
  deriving DecidableEq

def cpufPse : Nat := 1 <<< 3
def cpufextPdpe1gb : Nat := 1 <<< 26

def ptabValid : Nat := 0x1
def ptabWrite : Nat := 0x2
def ptabUser : Nat := 0x4
def ptabPs : Nat := 0x80
def ptabPfn : Nat := 0x000ffffffffff000

def ptabShift (level : Nat) : Nat := 12 + level * 9

def ptabSize (level : Nat) : Nat := 1 <<< ptabShift level

def ptabMask (level : Nat) : Nat := ptabSize level - 1

/-- The index that `find_ptabe` computes. -/
def ptabeIndex (level la : Nat) : Nat := (la >>> ptabShift level) &&& 511

def isPtabAligned (level addr : Nat) : Bool := addr &&& ptabMask level = 0

def allowLeaf (cpu : CpuInfo) : Nat → Bool
  | 0 => true
  | 1 => cpu.featureFlags &&& cpufPse ≠ 0
  | 2 => cpu.featureFlagsExt &&& cpufextPdpe1gb ≠ 0
  | _ => false

def leafBit (level : Nat) : Nat := if level = 1 ∨ level = 2 then ptabPs else 0

def isLeaf (level ptabe : Nat) : Bool := level = 0 || ptabe &&& leafBit level ≠ 0

def isValid (ptabe : Nat) : Bool := ptabe &&& ptabValid ≠ 0

/-- The tables in memory, by physical address and index, and the number of
pages handed out by `ptab_alloc`. -/
structure Tables where
  entry : Nat → Nat → Nat
  used : Nat

def Tables.write (s : Tables) (table index value : Nat) : Tables :=
  { s with entry := Function.update s.entry table (Function.update (s.entry table) index value) }

/-- The values behind the pointers that all levels share. -/
structure Cursor where
  la : Nat
  pa : Nat
  size : Nat

section

variable (cpu : CpuInfo) (alloc : Nat → Option Nat) (mappingBits : Nat)

def ptabAlloc (s : Tables) : Checked (Nat × Tables) :=
  match alloc s.used with
  | none => panic "Cannot allocate page table"
  | some page => .ok (page,
      { entry := Function.update s.entry page fun _ => 0
        used := s.used + 1 })

/-- Past a leaf of the level, also when the cursor was in the middle of it. -/
def Cursor.advance (level : Nat) (c : Cursor) : Cursor where
  la := Wordsize.w64.add c.la (ptabSize level)
  pa := Wordsize.w64.add c.pa (ptabSize level)
  size := c.size - (if ptabSize level ≤ c.size then ptabSize level else c.size)

/-- The leaf that is written where no mapping exists. -/
def mapLeaf (level table : Nat) (c : Cursor) (s : Tables) : Tables :=
  if !isValid (s.entry table (ptabeIndex level c.la)) && isPtabAligned level c.la &&
      isPtabAligned level c.pa && ptabSize level ≤ c.size then
    s.write table (ptabeIndex level c.la) (c.pa ||| ptabValid ||| mappingBits ||| leafBit level)
  else s

/-- The next level table that is linked where no mapping exists. -/
def linkTable (table index : Nat) (s : Tables) : Checked Tables :=
  if !isValid (s.entry table index) then do
    let (next, s) ← ptabAlloc alloc s
    .ok (s.write table index ((next &&& ptabPfn) ||| ptabValid ||| mappingBits))
  else .ok s

/-- One round of the loop of `ptab_map_level`. -/
def mapEntry (level : Nat) (nextLevel : Nat → Cursor → Tables → Checked (Cursor × Tables))
    (table : Nat) (c : Cursor) (s : Tables) : Checked (Cursor × Tables) :=
  let index := ptabeIndex level c.la
  let s := if allowLeaf cpu level then mapLeaf mappingBits level table c s else s
  if allowLeaf cpu level && isValid (s.entry table index) && isLeaf level (s.entry table index) then
    .ok (c.advance level, s)
  else do
    require (0 < level)
    let s ← linkTable alloc mappingBits table index s
    nextLevel ((s.entry table index &&& ptabPfn) % Wordsize.w32.modulus) c s

/-- The loop of `ptab_map_level`. -/
def mapEntries (level : Nat) (nextLevel : Nat → Cursor → Tables → Checked (Cursor × Tables))
    (table : Nat) (c : Cursor) (s : Tables) : Checked (Cursor × Tables) :=
  loop (fun (c, s) => do
    let (c, s) ← mapEntry cpu alloc mappingBits level nextLevel table c s
    if 0 < c.size && !isPtabAligned (level + 1) c.la then .ok (.again (c, s))
    else .ok (.leave (c, s)))
    Stop.diverges (c.size + 1) (c, s)

def ptabMapLevel : Nat → Nat → Cursor → Tables → Checked (Cursor × Tables)
  | 0 => mapEntries cpu alloc mappingBits 0 fun _ _ _ => .error .assertion
  | level + 1 => mapEntries cpu alloc mappingBits (level + 1) (ptabMapLevel level)

def ptabMapRange (pml4 la pa size : Nat) (s : Tables) : Checked Tables := do
  require (size ≠ 0)
  require (la < Wordsize.w64.sub (Wordsize.w64.add la size) 1)
  let size := roundPage .w64 (Wordsize.w64.add (Wordsize.w64.sub la (truncPage la)) size)
  let (_, s) ← ptabMapLevel cpu alloc mappingBits 3 pml4 ⟨truncPage la, truncPage pa, size⟩ s
  .ok s

end

/-- The PML4 alone. -/
def emptyTables : Tables where
  entry := fun _ _ => 0
  used := 1

/-! ## The translation of the processor -/

def leafAddress (level ptabe la : Nat) : Nat :=
  truncSize (ptabShift level) (ptabe &&& ptabPfn) + la % ptabSize level

def translate (s : Tables) : Nat → Nat → Nat → Option Nat
  | 0, table, la =>
      let ptabe := s.entry table (ptabeIndex 0 la)
      if isValid ptabe then some (leafAddress 0 ptabe la) else none
  | level + 1, table, la =>
      let ptabe := s.entry table (ptabeIndex (level + 1) la)
      if !isValid ptabe then none
      else if isLeaf (level + 1) ptabe then some (leafAddress (level + 1) ptabe la)
      else translate s level (ptabe &&& ptabPfn) la

/-- The level of the leaf that translates an address. -/
def leafLevel (s : Tables) : Nat → Nat → Nat → Option Nat
  | 0, table, la => if isValid (s.entry table (ptabeIndex 0 la)) then some 0 else none
  | level + 1, table, la =>
      let ptabe := s.entry table (ptabeIndex (level + 1) la)
      if !isValid ptabe then none
      else if isLeaf (level + 1) ptabe then some (level + 1)
      else leafLevel s level (ptabe &&& ptabPfn) la

end Paging

end L4Bootstrap
