import L4Bootstrap.Dt.ParentCache

/-!
# Reg properties and their translation

`Dt::Array_prop`, `Dt::Range` and the functions of `Dt::Node` that read a `reg`
property and translate its addresses through the `ranges` of the buses above, of
`dt.h` and `dt.cc`. Addresses are 64 bit wide. Nothing keeps the cells of an
element from being none at all, in which case its size is a zero divisor.
-/

set_option autoImplicit false

open CheckedLoop

namespace L4Bootstrap.Dt

def divide (a b : Nat) : Checked Nat := if b = 0 then .error .divisionByZero else .ok (a / b)

def remainder (a b : Nat) : Checked Nat := if b = 0 then .error .divisionByZero else .ok (a % b)

/-- `Array_prop<N>` for `N` cell sizes. -/
structure ArrayProp where
  prop : Option (List Nat)
  cellSize : List Nat
  deriving DecidableEq, Repr

namespace ArrayProp

def len (array : ArrayProp) : Nat := (array.prop.getD []).length

def elemSize (array : ArrayProp) : Nat := array.cellSize.sum

def isPresent (array : ArrayProp) : Bool := array.prop.isSome

def isValid (array : ArrayProp) : Checked Bool :=
  if array.isPresent then (fun rest => decide (rest = 0)) <$> remainder array.len array.elemSize
  else .ok false

def elements (array : ArrayProp) : Checked Nat := divide array.len array.elemSize

/-- The offset of a cell of the property is an `unsigned`, as `_len` is. -/
def get (array : ArrayProp) (element cell : Nat) : Checked Nat := do
  require (cell < array.cellSize.length)
  let elements ← array.elements
  require (element < elements)
  let off := element * array.elemSize + (array.cellSize.take cell).sum
  .ok (readValue 64 (((array.prop.getD []).drop off).take (array.cellSize.getD cell 0)))

end ArrayProp

structure Range where
  child : Nat
  parent : Nat
  length : Nat
  deriving DecidableEq, Repr

namespace Range

/-- `match`. -/
def isMatch (range : Range) (address size : Nat) : Bool :=
  let addressMax := (address + size) % 2 ^ 64
  let childMax := (range.child + range.length) % 2 ^ 64
  range.child ≤ address && addressMax ≤ childMax

def translate (range : Range) (address size : Nat) : Option Nat :=
  if range.isMatch address size then some ((address - range.child + range.parent) % 2 ^ 64) else none

end Range

/-- `get_addr_size_cells`. -/
def Fdt.getAddrSizeCells (fdt : Fdt) (node : Int) : Option (Nat × Nat) :=
  let addr := fdt.addressCells node
  let size := fdt.sizeCells node
  if addr < 0 ∨ 2 < addr ∨ size < 0 ∨ 2 < size then none else some (addr.toNat, size.toNat)

/-- `get_prop_array`. -/
def Fdt.getPropArray (fdt : Fdt) (node : Int) (name : String) (elems : List Nat) : ArrayProp where
  prop := fdt.getProp node name
  cellSize := elems

/-- The loop of `translate_reg` over the ranges from `i` on: the first translation. -/
def translateRanges (ranges : ArrayProp) (addr size : Nat) : Nat → Nat → Checked (Option Nat)
  | _, 0 => .ok none
  | i, rest + 1 => do
      let child ← ranges.get i 0
      let parent ← ranges.get i 1
      let length ← ranges.get i 2
      match Range.translate ⟨child, parent, length⟩ addr size with
      | some address => .ok (some address)
      | none => translateRanges ranges addr size (i + 1) rest

/-- The outcome of the ranges of one bus: the end of the translation, or the address on
the bus above. -/
inductive BusStep
  | done (result : Option Nat)
  | above (addr : Nat)
  deriving DecidableEq, Repr

def translateBus (ranges : ArrayProp) (addr size : Nat) : Checked BusStep :=
  if !ranges.isPresent then .ok (.done none)
  else do
    let valid ← ranges.isValid
    if !valid then .ok (.done none)
    else do
      let elements ← ranges.elements
      if elements = 0 then .ok (.done (some addr))
      else do
        match ← translateRanges ranges addr size 0 elements with
        | none => .ok (.done none)
        | some address => .ok (.above address)

section

variable (dt : Dt)

/-- The address on the root bus, if there is a translation from the bus `parent` on. -/
def translateReg (size : Nat) : Nat → Int → Nat → Checked (Option Nat)
  | 0, _, _ => .error .diverges
  | fuel + 1, parent, addr =>
      if parent = 0 then .ok (some addr)
      else
        match dt.fdt.getAddrSizeCells parent with
        | none => .ok none
        | some (addrCells, sizeCells) => do
            let parentParent ← dt.parentNode parent
            match dt.fdt.getAddrSizeCells parentParent with
            | none => .ok none
            | some (parentAddrCells, _) => do
                let ranges := dt.fdt.getPropArray parent "ranges"
                  [addrCells, parentAddrCells, sizeCells]
                match ← translateBus ranges addr size with
                | .done result => .ok result
                | .above address => translateReg size fuel parentParent address

def getRegArray (node parent : Int) : Checked (Option ArrayProp) :=
  if parent < 0 then .ok none
  else
    match dt.fdt.getAddrSizeCells parent with
    | none => .ok none
    | some (addrCells, sizeCells) => do
        let regs := dt.fdt.getPropArray node "reg" [addrCells, sizeCells]
        let valid ← regs.isValid
        .ok (if valid then some regs else none)

/-- The translation goes up by one level at a time, so that the number of nodes is
enough for it. -/
def getRegVal (parent : Int) (regs : ArrayProp) (index : Nat) : Checked (Option (Nat × Nat)) := do
  let elements ← regs.elements
  if elements ≤ index then .ok none
  else do
    let addr ← regs.get index 0
    let size ← regs.get index 1
    let translated ← dt.translateReg size dt.fdt.walk.length parent addr
    .ok (translated.map fun address => (address, size))

def getReg (node : Int) (index : Nat) : Checked (Option (Nat × Nat)) := do
  let parent ← dt.parentNode node
  match ← dt.getRegArray node parent with
  | none => .ok none
  | some regs => dt.getRegVal parent regs index

section

variable {σ : Type} (cb : Nat → Nat → σ → Checked σ)

/-- The loop of `for_each_reg` with a callback that returns nothing, from element `i` on. -/
def regLoop (parent : Int) (regs : ArrayProp) : Nat → Nat → σ → Checked σ
  | _, 0, s => .ok s
  | i, rest + 1, s => do
      match ← dt.getRegVal parent regs i with
      | none => regLoop parent regs (i + 1) rest s
      | some (addr, size) => do
          let s ← cb addr size s
          regLoop parent regs (i + 1) rest s

def forEachReg (node : Int) (s : σ) : Checked σ := do
  let parent ← dt.parentNode node
  match ← dt.getRegArray node parent with
  | none => .ok s
  | some regs => do
      let elements ← regs.elements
      dt.regLoop cb parent regs 0 elements s

end

end

end L4Bootstrap.Dt
