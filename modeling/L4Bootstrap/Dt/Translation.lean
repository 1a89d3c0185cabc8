import L4Bootstrap.Dt.RegDecoding
import Mathlib.Data.List.Find

/-!
# The translation of addresses

An address of a node is translated bus by bus up to the root, on each bus by the
first range that contains it. The code stops at the first bus with an empty
`ranges` property, so that it is right there only if the buses above map the
address to itself.
-/

set_option autoImplicit false

open CheckedLoop PreorderWalk

namespace L4Bootstrap.Dt

/-- A bus with the `#address-cells` and `#size-cells` of its node, the `#address-cells`
of the node above and the cells of its `ranges` property. -/
structure Bus where
  addressCells : Nat
  parentAddressCells : Nat
  sizeCells : Nat
  ranges : Option (List Nat)
  deriving DecidableEq, Repr

/-- `[addr, addr + size]` is a part of `[child, child + length]`. -/
def Range.Contains (range : Range) (addr size : Nat) : Prop :=
  range.child ≤ addr ∧ addr + size ≤ range.child + range.length

instance (range : Range) (addr size : Nat) : Decidable (range.Contains addr size) :=
  inferInstanceAs (Decidable (_ ∧ _))

def Range.apply (range : Range) (addr : Nat) : Nat := addr - range.child + range.parent

namespace Bus

def sizes (bus : Bus) : List Nat := [bus.addressCells, bus.parentAddressCells, bus.sizeCells]

def entry (bus : Bus) (list : List Nat) (i : Nat) : Range :=
  ⟨fieldValue bus.sizes list i 0, fieldValue bus.sizes list i 1, fieldValue bus.sizes list i 2⟩

/-- A property that is no whole number of entries has none. -/
def entries (bus : Bus) (list : List Nat) : List Range :=
  if list.length % bus.sizes.sum = 0 then
    (List.range (list.length / bus.sizes.sum)).map (bus.entry list)
  else []

/-- The mapping of a bus: none without a `ranges` property, the identity for an empty
one, and else that of the first range that contains the addresses. -/
def map (bus : Bus) (size addr : Nat) : Option Nat :=
  match bus.ranges with
  | none => none
  | some [] => some addr
  | some list =>
      ((bus.entries list).find? fun range => range.Contains addr size).map fun range =>
        range.apply addr

/-- The child addresses of the ranges fit. -/
def Fits (bus : Bus) : Prop := ∀ list ∈ bus.ranges, ∀ range ∈ bus.entries list,
  range.child + range.length < 2 ^ 64

end Bus

/-- The composition of the mappings from a bus up to the root. -/
def translation (size : Nat) : List Bus → Nat → Option Nat
  | [], addr => some addr
  | bus :: above, addr => (bus.map size addr).bind (translation size above)

/-- Every `ranges` property on the way has entries with cells, and where the first empty
one is met, the buses above it map the address to itself. -/
def Faithful (size : Nat) : List Bus → Nat → Prop
  | [], _ => True
  | bus :: above, addr =>
      ∀ list ∈ bus.ranges, bus.sizes.sum ≠ 0 ∧
        if list = [] then translation size above addr = some addr
        else ∀ next ∈ bus.map size addr, Faithful size above next

/-- On the way up to the first empty property no 64-bit sum is wrong: the first range
that matches is the first that contains the addresses, and what it maps to fits. -/
def Carries (size : Nat) : List Bus → Nat → Prop
  | [], _ => True
  | bus :: above, addr => ∀ list ∈ bus.ranges, list ≠ [] →
      ((bus.entries list).find? fun range => range.isMatch addr size) =
          ((bus.entries list).find? fun range => range.Contains addr size) ∧
        ∀ next ∈ bus.map size addr, next < 2 ^ 64 ∧ Carries size above next

/-- The buses from a node up to the root. -/
inductive Buses (fdt : Fdt) : Int → List Bus → Prop
  | root : Buses fdt 0 []
  | bus {node parent : Int} {bus : Bus} {above : List Bus} : IsParent fdt.walk node parent →
      fdt.addressCells node = bus.addressCells → fdt.sizeCells node = bus.sizeCells →
      fdt.addressCells parent = bus.parentAddressCells →
      fdt.getProp node "ranges" = bus.ranges → Buses fdt parent above →
      Buses fdt node (bus :: above)

/-- Every node has cell counts that `get_addr_size_cells` admits. -/
def SmallCells (fdt : Fdt) : Prop := ∀ x ∈ fdt.walk,
  0 ≤ fdt.addressCells x.1 ∧ fdt.addressCells x.1 ≤ 2 ∧
    0 ≤ fdt.sizeCells x.1 ∧ fdt.sizeCells x.1 ≤ 2

/-! ## One bus -/

/-- Where no end of a range or of the addresses wraps, the comparison is exact. -/
theorem is_match_iff {range : Range} {addr size : Nat} (fits : addr + size < 2 ^ 64)
    (child : range.child + range.length < 2 ^ 64) :
    range.isMatch addr size = true ↔ range.Contains addr size := by
  simp only [Range.isMatch, Nat.mod_eq_of_lt fits, Nat.mod_eq_of_lt child, Bool.and_eq_true,
    decide_eq_true_eq, Range.Contains]

/-- A bus that is reached with addresses that fit. -/
theorem Carries.bus {size addr : Nat} {bus : Bus} {above : List Bus} (fits : addr + size < 2 ^ 64)
    (busFits : bus.Fits) (next : ∀ next ∈ bus.map size addr,
      next < 2 ^ 64 ∧ Carries size above next) : Carries size (bus :: above) addr := by
  intro list isList _
  refine ⟨List.find?_congr fun range member => ?_, next⟩
  rw [Bool.eq_iff_iff, decide_eq_true_eq]
  exact is_match_iff fits (busFits list isList range member)

theorem find_some_if {α β : Type} {p : α → Prop} [DecidablePred p] {f : α → β}
    {g : α → Option β} {items : List α}
    (same : ∀ x ∈ items, g x = if p x then some (f x) else none) :
    items.findSome? g = (items.find? fun x => p x).map f := by
  induction items with
  | nil => rfl
  | cons x items ih =>
      rw [List.forall_mem_cons] at same
      rw [List.findSome?_cons, List.find?_cons, same.1]
      by_cases holds : p x <;> simp [holds, ih same.2]

section

variable {bus : Bus} {list : List Nat} {addr size : Nat}

theorem translate_ranges_eq (nonzero : bus.sizes.sum ≠ 0) (small : ∀ n ∈ bus.sizes, n ≤ 2)
    (words : ∀ c ∈ list, c < 2 ^ 32) {i rest : Nat} (bound : i + rest ≤ list.length / bus.sizes.sum) :
    translateRanges ⟨some list, bus.sizes⟩ addr size i rest =
      .ok (((List.range' i rest).map (bus.entry list)).findSome? fun range =>
        range.translate addr size) := by
  induction rest generalizing i with
  | zero => rfl
  | succ rest ih =>
      have inside : i < list.length / bus.sizes.sum := by omega
      rw [translateRanges, get_eq nonzero small words inside (by simp [Bus.sizes]), ok_bind,
        get_eq nonzero small words inside (by simp [Bus.sizes]), ok_bind,
        get_eq nonzero small words inside (by simp [Bus.sizes]), ok_bind, List.range'_succ,
        List.map_cons, List.findSome?_cons]
      have isEntry : (⟨fieldValue bus.sizes list i 0, fieldValue bus.sizes list i 1,
          fieldValue bus.sizes list i 2⟩ : Range) = bus.entry list i := rfl
      simp only [isEntry]
      cases (bus.entry list i).translate addr size with
      | some address => rfl
      | none => exact ih (by omega)

/-- A bus with a `ranges` property that is not empty. -/
theorem translate_bus_eq (nonzero : bus.sizes.sum ≠ 0) (small : ∀ n ∈ bus.sizes, n ≤ 2)
    (words : ∀ c ∈ list, c < 2 ^ 32) (isRanges : bus.ranges = some list) (nonempty : list ≠ [])
    (first : ((bus.entries list).find? fun range => range.isMatch addr size) =
      ((bus.entries list).find? fun range => range.Contains addr size))
    (fits : ∀ next ∈ bus.map size addr, next < 2 ^ 64) :
    translateBus ⟨some list, bus.sizes⟩ addr size =
      .ok (match bus.map size addr with
        | none => .done none
        | some next => .above next) := by
  have isMap : bus.map size addr =
      ((bus.entries list).find? fun range => range.Contains addr size).map fun range =>
        range.apply addr := by
    rw [Bus.map, isRanges]
    cases list with
    | nil => exact absurd rfl nonempty
    | cons c list => rfl
  rw [translateBus, is_valid_eq nonzero]
  simp only [ArrayProp.isPresent, Option.isSome_some, Bool.not_true, Bool.false_eq_true, if_false,
    ok_bind]
  by_cases whole : list.length % bus.sizes.sum = 0
  · have some : list.length / bus.sizes.sum ≠ 0 := by
      intro zero
      have split := Nat.div_add_mod list.length bus.sizes.sum
      rw [zero, whole] at split
      exact nonempty (List.length_eq_zero_iff.mp (by omega))
    have isEntries : (List.range' 0 (list.length / bus.sizes.sum)).map (bus.entry list) =
        bus.entries list := by
      rw [Bus.entries, if_pos whole, List.range_eq_range']
    have found : ((bus.entries list).findSome? fun range => range.translate addr size) =
        bus.map size addr := by
      have matched : ((bus.entries list).findSome? fun range => range.translate addr size) =
          ((bus.entries list).find? fun range => range.isMatch addr size = true).map fun range =>
            range.apply addr % 2 ^ 64 := find_some_if fun range _ => rfl
      simp only [Bool.decide_eq_true] at matched
      rw [matched, first, isMap]
      refine Option.map_congr fun range found => ?_
      apply Nat.mod_eq_of_lt
      apply fits
      rw [isMap, found]
      rfl
    simp only [whole, decide_true, Bool.not_true, Bool.false_eq_true, if_false,
      elements_eq nonzero, ok_bind, some,
      translate_ranges_eq nonzero small words (Nat.le_of_eq (Nat.zero_add _)), isEntries, found]
    cases bus.map size addr with
    | none => rfl
    | some next => rfl
  · have none : bus.map size addr = none := by
      rw [isMap, Bus.entries, if_neg whole]
      rfl
    simp only [whole, decide_false, Bool.not_false, if_true, none]

end

/-! ## All buses -/

section

variable {fdt : Fdt}

theorem buses_depth (documented : fdt.Documented) {node : Int} {buses : List Bus}
    (chain : Buses fdt node buses) : (node, buses.length + 1) ∈ fdt.walk := by
  induction chain with
  | root =>
      obtain ⟨rest, isWalk⟩ := documented.root
      rw [isWalk]
      exact List.mem_cons_self
  | bus isParent _ _ _ _ _ ih =>
      obtain ⟨depth, isNode, inWalk⟩ := isParent.mem
      rw [depth_unique documented.nodup inWalk ih] at isNode
      exact isNode

/-- Every node has buses above it. -/
theorem exists_buses (documented : fdt.Documented) (small : SmallCells fdt) {x : Int × Nat}
    (member : x ∈ fdt.walk) : ∃ buses, Buses fdt x.1 buses := by
  refine documented.nested.induction (P := fun node => ∃ buses, Buses fdt node buses) ?_ ?_ member
  · intro root isRoot
    obtain ⟨rest, isWalk⟩ := documented.root
    rw [isWalk, List.head?_cons, Option.mem_some_iff] at isRoot
    rw [← isRoot]
    exact ⟨[], .root⟩
  · rintro node parent isParent ⟨above, chain⟩
    obtain ⟨depth, isNode, inWalk⟩ := isParent.mem
    obtain ⟨addrPos, _, sizePos, _⟩ := small _ isNode
    obtain ⟨parentPos, _, _, _⟩ := small _ inWalk
    exact ⟨⟨(fdt.addressCells node).toNat, (fdt.addressCells parent).toNat,
      (fdt.sizeCells node).toNat, fdt.getProp node "ranges"⟩ :: above,
      .bus isParent (Int.toNat_of_nonneg addrPos).symm (Int.toNat_of_nonneg sizePos).symm
        (Int.toNat_of_nonneg parentPos).symm rfl chain⟩

theorem SmallCells.cells (small : SmallCells fdt) {node : Int} {depth : Nat}
    (member : (node, depth) ∈ fdt.walk) : ∃ addr size : Nat, addr ≤ 2 ∧ size ≤ 2 ∧
      fdt.addressCells node = addr ∧ fdt.sizeCells node = size ∧
      fdt.getAddrSizeCells node = some (addr, size) := by
  obtain ⟨addrPos, addrSmall, sizePos, sizeSmall⟩ := small _ member
  obtain ⟨addr, isAddr⟩ := Int.eq_ofNat_of_zero_le addrPos
  obtain ⟨size, isSize⟩ := Int.eq_ofNat_of_zero_le sizePos
  simp only at isAddr isSize addrSmall sizeSmall
  exact ⟨addr, size, by omega, by omega, isAddr, isSize,
    get_addr_size_cells_eq isAddr isSize (by omega) (by omega)⟩

theorem translate_reg_iff (documented : fdt.Documented) (garbage : Nat → Int)
    (small : SmallCells fdt) {parent : Int} {buses : List Bus} (chain : Buses fdt parent buses)
    {fuel : Nat} (enough : buses.length < fuel) {addr size : Nat}
    (carries : Carries size buses addr) :
    (init fdt garbage).translateReg size fuel parent addr = .ok (translation size buses addr) ↔
      Faithful size buses addr := by
  induction chain generalizing fuel addr with
  | root =>
      obtain ⟨fuel, rfl⟩ := Nat.exists_eq_succ_of_ne_zero (Nat.ne_of_gt enough)
      simp [translateReg, translation, Faithful]
  | @bus node parent bus above isParent isAddr isSize isParentAddr isRanges _ ih =>
      obtain ⟨fuel, rfl⟩ := Nat.exists_eq_succ_of_ne_zero (Nat.ne_zero_of_lt enough)
      obtain ⟨depth, isNode, inWalk⟩ := isParent.mem
      obtain ⟨addrCells, sizeCells, addrSmall, sizeSmall, sameAddr, sameSize, _⟩ := small.cells isNode
      obtain ⟨parentCells, otherCells, parentSmall, _, sameParent, _, parentAnswer⟩ :=
        small.cells inWalk
      have busSmall : ∀ n ∈ bus.sizes, n ≤ 2 := by
        simp only [Bus.sizes, List.forall_mem_cons, List.not_mem_nil, false_implies, implies_true,
          and_true]
        omega
      have answer : (init fdt garbage).fdt.getAddrSizeCells node =
          some (bus.addressCells, bus.sizeCells) :=
        get_addr_size_cells_eq isAddr isSize (by omega) (by omega)
      have sameCells : parentCells = bus.parentAddressCells := by omega
      rw [sameCells] at parentAnswer
      have array : (init fdt garbage).fdt.getPropArray node "ranges"
          [bus.addressCells, bus.parentAddressCells, bus.sizeCells] = ⟨bus.ranges, bus.sizes⟩ := by
        rw [Fdt.getPropArray, ← isRanges]
        rfl
      have below : node ≠ 0 := by
        have := isParent.lt documented.increasing
        have := documented.nonneg inWalk
        simp only at this
        omega
      have atGrand : (init fdt garbage).parentNode node = .ok parent :=
        parent_node_eq documented garbage isParent
      have grandAnswer : (init fdt garbage).fdt.getAddrSizeCells parent =
          some (bus.parentAddressCells, otherCells) := parentAnswer
      rw [translateReg, if_neg below, answer]
      simp only [atGrand, ok_bind, grandAnswer, array, translation, Faithful]
      cases isList : bus.ranges with
      | none =>
          have none : bus.map size addr = none := by rw [Bus.map, isList]
          simp [translateBus, ArrayProp.isPresent, none]
      | some list =>
          have words : ∀ c ∈ list, c < 2 ^ 32 := by
            rw [isList] at isRanges
            obtain ⟨value, _, rfl⟩ := Option.map_eq_some_iff.mp isRanges
            exact fun c => cells_lt
          simp only [Option.mem_def, Option.some.injEq, forall_eq']
          by_cases zero : bus.sizes.sum = 0
          · simp [translateBus, ArrayProp.isPresent, is_valid_zero zero, zero]
          · by_cases empty : list = []
            · subst empty
              have isMap : bus.map size addr = some addr := by rw [Bus.map, isList]
              have stops : translateBus ⟨some [], bus.sizes⟩ addr size =
                  .ok (.done (some addr)) := by
                simp [translateBus, ArrayProp.isPresent, is_valid_eq zero, elements_eq zero]
              simp [stops, isMap, zero, eq_comm]
            · obtain ⟨first, fits⟩ := carries list isList empty
              rw [translate_bus_eq zero busSmall words isList empty first
                fun next isNext => (fits next isNext).1]
              simp only [ok_bind, zero, not_false_eq_true, true_and, empty, if_false, ne_eq]
              cases isMap : bus.map size addr with
              | none => simp
              | some next =>
                  simp only [List.length_cons] at enough
                  simpa using ih (by omega) (fits next isMap).2

end

/-! ## Elements -/

/-- The address and the size in an element of the `reg` property of a node. -/
structure RegElement (fdt : Fdt) (node parent : Int) (index addr size : Nat) : Prop where
  isElement : ∃ list addrCells sizeCells, fdt.getProp node "reg" = some list ∧
    fdt.addressCells parent = (addrCells : Nat) ∧ fdt.sizeCells parent = (sizeCells : Nat) ∧
    addrCells + sizeCells ≠ 0 ∧ list.length % (addrCells + sizeCells) = 0 ∧
    index < list.length / (addrCells + sizeCells) ∧
    addr = fieldValue [addrCells, sizeCells] list index 0 ∧
    size = fieldValue [addrCells, sizeCells] list index 1

theorem map_pair_iff {result : Checked (Option Nat)} {expected : Option Nat} {size : Nat} :
    (result.map fun t => t.map fun a => (a, size)) = .ok (expected.map fun a => (a, size)) ↔
      result = .ok expected := by
  cases result with
  | error failure => simp [Except.map]
  | ok found =>
      simp only [Except.map, Except.ok.injEq]
      cases found <;> cases expected <;> simp

theorem get_reg_eq {fdt : Fdt} (documented : fdt.Documented) (garbage : Nat → Int)
    (small : SmallCells fdt) {node parent : Int} (isParent : IsParent fdt.walk node parent)
    {index addr size : Nat} (element : RegElement fdt node parent index addr size) :
    (init fdt garbage).getReg node index =
      ((init fdt garbage).translateReg size fdt.walk.length parent addr).map fun t =>
        t.map fun a => (a, size) := by
  obtain ⟨list, addrCells, sizeCells, isReg, isAddr, isSize, nonzero, whole, inside, rfl, rfl⟩ :=
    element.isElement
  obtain ⟨depth, _, inWalk⟩ := isParent.mem
  obtain ⟨addrCount, sizeCount, addrSmall, sizeSmall, sameAddr, sameSize, _⟩ := small.cells inWalk
  have addrAdmitted : addrCells ≤ 2 := by omega
  have sizeAdmitted : sizeCells ≤ 2 := by omega
  have valid : ¬ parent < 0 := not_lt.mpr (documented.nonneg inWalk)
  have atParent : (init fdt garbage).parentNode node = .ok parent :=
    parent_node_eq documented garbage isParent
  have answer : (init fdt garbage).fdt.getAddrSizeCells parent = some (addrCells, sizeCells) :=
    get_addr_size_cells_eq isAddr isSize addrAdmitted sizeAdmitted
  have array : (init fdt garbage).fdt.getPropArray node "reg" [addrCells, sizeCells] =
      ⟨some list, [addrCells, sizeCells]⟩ := by
    rw [Fdt.getPropArray, ← isReg]
    rfl
  have words : ∀ c ∈ list, c < 2 ^ 32 := by
    obtain ⟨value, _, rfl⟩ := Option.map_eq_some_iff.mp isReg
    exact fun c => cells_lt
  have sum : [addrCells, sizeCells].sum = addrCells + sizeCells := by simp
  have nonzeroSum : [addrCells, sizeCells].sum ≠ 0 := by rwa [sum]
  rw [getReg, atParent, ok_bind, getRegArray, if_neg valid, answer]
  simp only [array, is_valid_eq nonzeroSum, sum, whole, decide_true, ok_bind, if_true]
  exact get_reg_val_eq nonzero addrAdmitted sizeAdmitted words inside

/-- A device at 0x1000 behind two buses, of which the outer one is at 0x40000000 and the
inner one has the given ranges. -/
def nestedTree (inner : List UInt8) (short : inner.length < 2 ^ 31) : Fdt where
  walk := [(0, 1), (4, 2), (8, 3), (12, 4)]
  parentOffset node := node - 4
  getprop node name :=
    if node = 12 ∧ name = "reg" then some [0, 0, 0x10, 0, 0, 0, 1, 0]
    else if node = 8 ∧ name = "ranges" then some inner
    else if node = 4 ∧ name = "ranges" then some [0, 0, 0, 0, 0x40, 0, 0, 0, 0x10, 0, 0, 0]
    else none
  addressCells _ := 1
  sizeCells _ := 1
  pathOffset _ := -1
  subnodes node := if node < 12 then [node + 4] else []
  nodeOffsetByPhandle _ := -1
  nodeOffsetByPropValue _ _ _ := -1
  nodeCheckCompatible _ _ := 1
  shortProps node name value isValue := by
    split_ifs at isValue
    · cases isValue
      decide
    · cases isValue
      exact short
    · cases isValue
      decide

section

variable (inner : List UInt8) (short : inner.length < 2 ^ 31)

theorem nested_tree_parents : IsParent (nestedTree inner short).walk 4 0 ∧
    IsParent (nestedTree inner short).walk 8 4 ∧ IsParent (nestedTree inner short).walk 12 8 :=
  ⟨⟨[(0, 1)], 2, [(8, 3), (12, 4)], rfl, by decide, rfl⟩,
    ⟨[(0, 1), (4, 2)], 3, [(12, 4)], rfl, by decide, rfl⟩,
    ⟨[(0, 1), (4, 2), (8, 3)], 4, [], rfl, by decide, rfl⟩⟩

theorem nested_tree_increasing :
    (nestedTree inner short).walk.Pairwise fun x y => x.1 < y.1 := by
  simp [nestedTree]

theorem nested_tree_documented : (nestedTree inner short).Documented where
  root := ⟨_, rfl⟩
  nested := ⟨by simp [nestedTree], by simp [nestedTree]⟩
  increasing := nested_tree_increasing inner short
  parentOffset node parent isParent := by
    obtain ⟨depth, isNode, _⟩ := isParent.mem
    obtain ⟨first, second, third⟩ := nested_tree_parents inner short
    have nodup : ((nestedTree inner short).walk.map Prod.fst).Nodup := by simp [nestedTree]
    have less := isParent.lt (nested_tree_increasing inner short)
    have nonneg : 0 ≤ parent := by
      obtain ⟨_, _, inWalk⟩ := isParent.mem
      simp only [nestedTree, List.mem_cons, Prod.mk.injEq, List.not_mem_nil, or_false] at inWalk
      omega
    have known : node = 0 ∨ node = 4 ∨ node = 8 ∨ node = 12 := by
      simp only [nestedTree, List.mem_cons, Prod.mk.injEq, List.not_mem_nil, or_false] at isNode
      omega
    rcases known with rfl | rfl | rfl | rfl
    · omega
    · exact (is_parent_unique nodup isParent first).symm
    · exact (is_parent_unique nodup isParent second).symm
    · exact (is_parent_unique nodup isParent third).symm

theorem nested_tree_small : SmallCells (nestedTree inner short) := by
  intro x _
  simp [nestedTree]

def nestedBuses (inner : List UInt8) : List Bus :=
  [⟨1, 1, 1, some (cells inner)⟩, ⟨1, 1, 1, some [0, 0x40000000, 0x10000000]⟩]

theorem nested_tree_buses : Buses (nestedTree inner short) 8 (nestedBuses inner) := by
  obtain ⟨first, second, _⟩ := nested_tree_parents inner short
  refine .bus second rfl rfl rfl ?_ (.bus first rfl rfl rfl ?_ .root)
  · simp [nestedTree, Fdt.getProp]
  · simp [nestedTree, Fdt.getProp, cells, fdt32ToCpu]

theorem nested_tree_element : RegElement (nestedTree inner short) 12 8 0 0x1000 0x100 := by
  refine ⟨[0x1000, 0x100], 1, 1, ?_, rfl, rfl, ?_⟩
  · simp [nestedTree, Fdt.getProp, cells, fdt32ToCpu]
  · decide

theorem nested_buses_fit {inner : List UInt8} (innerFits : ∀ range ∈ Bus.entries ⟨1, 1, 1, none⟩
    (cells inner), range.child + range.length < 2 ^ 64) :
    ∀ bus ∈ nestedBuses inner, bus.Fits := by
  intro bus member list isList range inEntries
  rcases List.mem_cons.mp member with rfl | outer
  · cases isList
    exact innerFits range inEntries
  · rw [List.mem_singleton] at outer
    subst outer
    cases isList
    have isRange : range = ⟨0, 0x40000000, 0x10000000⟩ := by
      have entries : Bus.entries ⟨1, 1, 1, some [0, 0x40000000, 0x10000000]⟩
          [0, 0x40000000, 0x10000000] = [⟨0, 0x40000000, 0x10000000⟩] := by decide
      rw [entries, List.mem_singleton] at inEntries
      exact inEntries
    rw [isRange]
    decide

end

end L4Bootstrap.Dt
