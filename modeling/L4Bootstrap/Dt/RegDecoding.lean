import L4Bootstrap.Dt.Reg
import Mathlib.Data.List.GetD

/-!
# The decoding of reg properties

Below the root, `for_each_reg` passes every element of a `reg` property to its
callback. It fails where the elements have no cells, and it takes a value whose
length is no number of cells for the cells that it has.
-/

set_option autoImplicit false

open CheckedLoop PreorderWalk

namespace L4Bootstrap.Dt

def bigEndian (cells : List Nat) : Nat := cells.foldl (fun val cell => val * 2 ^ 32 + cell) 0

/-- The number in one field of an element. -/
def fieldValue (sizes list : List Nat) (element field : Nat) : Nat :=
  bigEndian ((list.drop (element * sizes.sum + (sizes.take field).sum)).take (sizes.getD field 0))

/-- The elements of a `reg` property with so many cells for the address and the size. -/
def regElements (addr size : Nat) : Option (List UInt8) → List (Nat × Nat)
  | none => []
  | some value =>
      if value.length ≠ 0 ∧ value.length % (4 * (addr + size)) = 0 then
        (List.range (value.length / (4 * (addr + size)))).map fun i =>
          (fieldValue [addr, size] (cells value) i 0, fieldValue [addr, size] (cells value) i 1)
      else []

/-- A callback that keeps what it is given. -/
def record (addr size : Nat) (seen : List (Nat × Nat)) : Checked (List (Nat × Nat)) :=
  .ok (seen ++ [(addr, size)])

/-- An element has cells, and a value with a broken cell behind its last one has a broken
element as well or no cell at all. -/
def RegDecodes (addr size : Nat) (value : List UInt8) : Prop :=
  addr + size ≠ 0 ∧
    (value.length % 4 ≠ 0 → value.length / 4 % (addr + size) = 0 → value.length < 4)

theorem read_value_eq {list : List Nat} (few : list.length ≤ 2) (words : ∀ c ∈ list, c < 2 ^ 32) :
    readValue 64 list = bigEndian list := by
  rcases list with _ | ⟨a, _ | ⟨b, _ | ⟨c, rest⟩⟩⟩
  · simp [readValue, bigEndian]
  · have := words a (by simp)
    have word : a % 2 ^ 64 = a := Nat.mod_eq_of_lt (by omega)
    simp only [readValue, bigEndian, List.foldl_cons, List.foldl_nil, Nat.zero_mul, Nat.zero_add,
      word]
  · have := words a (by simp)
    have := words b (by simp)
    have high : a % 2 ^ 64 = a := Nat.mod_eq_of_lt (by omega)
    have both : (a * 2 ^ 32 + b) % 2 ^ 64 = a * 2 ^ 32 + b := Nat.mod_eq_of_lt (by omega)
    simp only [readValue, bigEndian, List.foldl_cons, List.foldl_nil, Nat.zero_mul, Nat.zero_add,
      high, both]
  · simp only [List.length_cons] at few
    omega

section

variable {sizes list : List Nat}

theorem elements_eq (nonzero : sizes.sum ≠ 0) :
    ArrayProp.elements ⟨some list, sizes⟩ = .ok (list.length / sizes.sum) := by
  rw [ArrayProp.elements, divide, ArrayProp.elemSize, if_neg nonzero]
  rfl

theorem is_valid_eq (nonzero : sizes.sum ≠ 0) :
    ArrayProp.isValid ⟨some list, sizes⟩ = .ok (decide (list.length % sizes.sum = 0)) := by
  rw [ArrayProp.isValid, remainder, ArrayProp.elemSize, if_neg nonzero]
  rfl

theorem is_valid_zero (zero : sizes.sum = 0) :
    ArrayProp.isValid ⟨some list, sizes⟩ = .error .divisionByZero := by
  rw [ArrayProp.isValid, remainder, ArrayProp.elemSize, if_pos zero]
  rfl

theorem get_eq (nonzero : sizes.sum ≠ 0) (small : ∀ n ∈ sizes, n ≤ 2) (words : ∀ c ∈ list, c < 2 ^ 32)
    {element field : Nat} (inside : element < list.length / sizes.sum)
    (isField : field < sizes.length) :
    ArrayProp.get ⟨some list, sizes⟩ element field = .ok (fieldValue sizes list element field) := by
  have slice : ∀ c ∈ (list.drop (element * sizes.sum + (sizes.take field).sum)).take
      (sizes.getD field 0), c < 2 ^ 32 := fun c member =>
    words c (List.mem_of_mem_drop (List.mem_of_mem_take member))
  have few : ((list.drop (element * sizes.sum + (sizes.take field).sum)).take
      (sizes.getD field 0)).length ≤ 2 := by
    rw [List.getD_eq_getElem _ _ isField]
    exact (List.length_take_le _ _).trans (small _ (List.getElem_mem isField))
  rw [ArrayProp.get, elements_eq nonzero, require, if_pos isField, ok_bind, ok_bind, require,
    if_pos inside]
  exact congrArg Except.ok (read_value_eq few slice)

end

section

variable {dt : Dt} {parent : Int} {regs : ArrayProp}

/-- The loop over the elements is the fold over those that are translated. -/
theorem reg_loop_eq {σ : Type} (cb : Nat → Nat → σ → Checked σ) {vals : Nat → Option (Nat × Nat)}
    {i rest : Nat} (s : σ)
    (found : ∀ k, i ≤ k → k < i + rest → dt.getRegVal parent regs k = .ok (vals k)) :
    dt.regLoop cb parent regs i rest s =
      ((List.range' i rest).filterMap vals).foldlM (fun s x => cb x.1 x.2 s) s := by
  induction rest generalizing i s with
  | zero => rfl
  | succ rest ih =>
      have later : ∀ k, i + 1 ≤ k → k < i + 1 + rest → dt.getRegVal parent regs k = .ok (vals k) :=
        fun k low high => found k (by omega) (by omega)
      rw [regLoop, found i le_rfl (by omega), ok_bind, List.range'_succ, List.filterMap_cons]
      cases vals i with
      | none => exact ih s later
      | some x =>
          simp only [List.foldlM_cons]
          congr 1
          funext next
          exact ih next later

theorem record_all (found seen : List (Nat × Nat)) :
    found.foldlM (fun s x => record x.1 x.2 s) seen = .ok (seen ++ found) := by
  induction found generalizing seen with
  | nil => simp [pure, Except.pure]
  | cons x found ih =>
      rw [List.foldlM_cons, record, ok_bind, ih, List.append_assoc, List.singleton_append]

end

theorem get_addr_size_cells_eq {fdt : Fdt} {node : Int} {addr size : Nat}
    (addressCells : fdt.addressCells node = addr) (sizeCells : fdt.sizeCells node = size)
    (addrAdmitted : addr ≤ 2) (sizeAdmitted : size ≤ 2) :
    fdt.getAddrSizeCells node = some (addr, size) := by
  have admitted : ¬ ((addr : Int) < 0 ∨ 2 < (addr : Int) ∨ (size : Int) < 0 ∨ 2 < (size : Int)) := by
    omega
  simp only [Fdt.getAddrSizeCells, addressCells, sizeCells, if_neg admitted, Int.toNat_natCast]

section

variable {dt : Dt} {list : List Nat} {addr size : Nat}

/-- The address and the size of an element, before the translation. -/
theorem get_reg_val_eq (nonzero : addr + size ≠ 0) (addrAdmitted : addr ≤ 2)
    (sizeAdmitted : size ≤ 2) (words : ∀ c ∈ list, c < 2 ^ 32) {parent : Int} {i : Nat}
    (inside : i < list.length / (addr + size)) :
    dt.getRegVal parent ⟨some list, [addr, size]⟩ i =
      (dt.translateReg (fieldValue [addr, size] list i 1) dt.fdt.walk.length parent
        (fieldValue [addr, size] list i 0)).map
        fun t => t.map fun a => (a, fieldValue [addr, size] list i 1) := by
  have sum : [addr, size].sum = addr + size := by simp
  have small : ∀ n ∈ [addr, size], n ≤ 2 := by simp [addrAdmitted, sizeAdmitted]
  have bound : i < list.length / [addr, size].sum := by rwa [sum]
  have nonzeroSum : [addr, size].sum ≠ 0 := by rwa [sum]
  rw [getRegVal, elements_eq nonzeroSum, ok_bind, if_neg (by omega),
    get_eq nonzeroSum small words bound (by simp), ok_bind,
    get_eq nonzeroSum small words bound (by simp), ok_bind]
  cases dt.translateReg (fieldValue [addr, size] list i 1) dt.fdt.walk.length parent
      (fieldValue [addr, size] list i 0) with
  | error failure => rfl
  | ok translated => rfl

/-- What `for_each_reg` comes to for a node with a `reg` property. -/
theorem for_each_reg_eq {σ : Type} (cb : Nat → Nat → σ → Checked σ) (s : σ) {node parent : Int}
    (isParent : dt.parentNode node = .ok parent) (valid : 0 ≤ parent)
    (isCells : dt.fdt.getAddrSizeCells parent = some (addr, size))
    (isReg : dt.fdt.getProp node "reg" = some list) (nonzero : addr + size ≠ 0) :
    dt.forEachReg cb node s =
      if list.length % (addr + size) = 0 then
        dt.regLoop cb parent ⟨some list, [addr, size]⟩ 0 (list.length / (addr + size)) s
      else .ok s := by
  have sum : [addr, size].sum = addr + size := by simp
  have nonzeroSum : [addr, size].sum ≠ 0 := by rwa [sum]
  have array : dt.fdt.getPropArray node "reg" [addr, size] = ⟨some list, [addr, size]⟩ := by
    rw [Fdt.getPropArray, isReg]
  rw [forEachReg, isParent, ok_bind, getRegArray, if_neg (by omega), isCells]
  simp only [array, is_valid_eq nonzeroSum, ok_bind, decide_eq_true_eq, sum]
  by_cases whole : list.length % (addr + size) = 0
  · rw [if_pos whole, if_pos whole]
    simp only [elements_eq nonzeroSum, ok_bind, sum]
  · rw [if_neg whole, if_neg whole]

theorem for_each_reg_absent {σ : Type} (cb : Nat → Nat → σ → Checked σ) (s : σ) {node parent : Int}
    (isParent : dt.parentNode node = .ok parent) (valid : 0 ≤ parent)
    (isCells : dt.fdt.getAddrSizeCells parent = some (addr, size))
    (absent : dt.fdt.getProp node "reg" = none) : dt.forEachReg cb node s = .ok s := by
  have array : dt.fdt.getPropArray node "reg" [addr, size] = ⟨none, [addr, size]⟩ := by
    rw [Fdt.getPropArray, absent]
  rw [forEachReg, isParent, ok_bind, getRegArray, if_neg (by omega), isCells]
  simp [array, ArrayProp.isValid, ArrayProp.isPresent]

end

/-! ## Nodes below the root -/

theorem cells_whole {value : List UInt8} {n : Nat} :
    value.length % (4 * n) = 0 ↔ value.length % 4 = 0 ∧ value.length / 4 % n = 0 := by
  rw [Nat.mod_mul]
  constructor
  · intro zero
    have rest : value.length % 4 = 0 := by omega
    rw [rest, Nat.zero_add, Nat.mul_eq_zero] at zero
    exact ⟨rest, by omega⟩
  · rintro ⟨rest, zero⟩
    rw [rest, zero]

/-- On the root bus the elements are passed on as they are. -/
theorem root_loop {dt : Dt} {addr size : Nat} (nonzero : addr + size ≠ 0) (addrAdmitted : addr ≤ 2)
    (sizeAdmitted : size ≤ 2) (nodes : dt.fdt.walk ≠ []) {value : List UInt8} {count : Nat}
    (bound : count ≤ value.length / 4 / (addr + size)) :
    dt.regLoop record 0 ⟨some (cells value), [addr, size]⟩ 0 count [] =
      .ok ((List.range count).map fun i =>
        (fieldValue [addr, size] (cells value) i 0, fieldValue [addr, size] (cells value) i 1)) := by
  obtain ⟨fuel, isFuel⟩ := Nat.exists_eq_succ_of_ne_zero (mt List.length_eq_zero_iff.mp nodes)
  have found : ∀ k, 0 ≤ k → k < 0 + count →
      dt.getRegVal 0 ⟨some (cells value), [addr, size]⟩ k =
        .ok (some (fieldValue [addr, size] (cells value) k 0,
          fieldValue [addr, size] (cells value) k 1)) := by
    intro k _ inside
    have bound : k < (cells value).length / (addr + size) := by
      rw [length_cells]
      omega
    rw [get_reg_val_eq nonzero addrAdmitted sizeAdmitted (fun c => cells_lt) bound, isFuel,
      translateReg, if_pos rfl]
    rfl
  rw [reg_loop_eq record [] found, record_all, List.nil_append, List.filterMap_eq_map',
    List.range_eq_range']

theorem for_each_reg_decodes_iff {fdt : Fdt} (documented : fdt.Documented) (garbage : Nat → Int)
    {node : Int} (isParent : IsParent fdt.walk node 0) {addr size : Nat}
    (addressCells : fdt.addressCells 0 = addr) (sizeCells : fdt.sizeCells 0 = size)
    (addrAdmitted : addr ≤ 2) (sizeAdmitted : size ≤ 2) :
    (init fdt garbage).forEachReg record node [] =
        .ok (regElements addr size (fdt.getprop node "reg")) ↔
      ∀ value ∈ fdt.getprop node "reg", RegDecodes addr size value := by
  have parent : (init fdt garbage).parentNode node = .ok 0 :=
    parent_node_eq documented garbage isParent
  have rootCells : (init fdt garbage).fdt.getAddrSizeCells 0 = some (addr, size) :=
    get_addr_size_cells_eq addressCells sizeCells addrAdmitted sizeAdmitted
  obtain ⟨others, isWalk⟩ := documented.root
  cases isReg : fdt.getprop node "reg" with
  | none =>
      have absent : (init fdt garbage).fdt.getProp node "reg" = none := by
        rw [init, Fdt.getProp, isReg]
        rfl
      rw [for_each_reg_absent record [] parent le_rfl rootCells absent]
      simp [regElements]
  | some value =>
      have present : (init fdt garbage).fdt.getProp node "reg" = some (cells value) := by
        rw [init, Fdt.getProp, isReg]
        rfl
      by_cases nonzero : addr + size = 0
      · have zero : [addr, size].sum = 0 := by simpa using nonzero
        have array : (init fdt garbage).fdt.getPropArray node "reg" [addr, size] =
            ⟨some (cells value), [addr, size]⟩ := by
          rw [Fdt.getPropArray, present]
        rw [forEachReg, parent, ok_bind, getRegArray, if_neg (by decide), rootCells]
        simp [array, is_valid_zero zero, RegDecodes, nonzero]
      · rw [for_each_reg_eq record [] parent le_rfl rootCells present nonzero, length_cells,
          root_loop nonzero addrAdmitted sizeAdmitted (by simp [init, isWalk]) le_rfl]
        simp only [Option.mem_def, Option.some.injEq, forall_eq', RegDecodes, ne_eq, nonzero,
          not_false_eq_true, true_and, regElements, cells_whole, ← Nat.div_div_eq_div_mul]
        by_cases whole : value.length / 4 % (addr + size) = 0
        · rw [if_pos whole]
          by_cases aligned : value.length % 4 = 0
          · by_cases empty : value.length = 0
            · simp [empty]
            · simp [whole, aligned, empty]
          · have broken : ¬ (¬ value.length = 0 ∧ value.length % 4 = 0 ∧
                value.length / 4 % (addr + size) = 0) := by tauto
            have none : value.length / 4 / (addr + size) = 0 ↔ value.length < 4 := by
              have split := Nat.div_add_mod (value.length / 4) (addr + size)
              rw [whole, Nat.add_zero] at split
              constructor
              · intro zero
                rw [zero, Nat.mul_zero] at split
                omega
              · intro short
                rw [Nat.div_eq_of_lt short, Nat.zero_div]
            rw [if_neg broken]
            simp only [Except.ok.injEq, List.map_eq_nil_iff, List.range_eq_nil, none, aligned,
              not_false_eq_true, whole, forall_const]
        · simp [whole]

/-- A tree of a root and one memory node below it, whose `reg` property is given. -/
def memoryTree (addressCells sizeCells : Int) (reg : List UInt8) (short : reg.length < 2 ^ 31) :
    Fdt where
  walk := [(0, 1), (4, 2)]
  parentOffset _ := 0
  getprop node name := if node = 4 ∧ name = "reg" then some reg else none
  addressCells _ := addressCells
  sizeCells _ := sizeCells
  pathOffset _ := -1
  subnodes node := if node = 0 then [4] else []
  nodeOffsetByPhandle _ := -1
  nodeOffsetByPropValue _ _ _ := -1
  nodeCheckCompatible _ _ := 1
  shortProps node name value isValue := by
    split_ifs at isValue
    cases isValue
    exact short

theorem memory_tree_documented (addressCells sizeCells : Int) (reg : List UInt8)
    (short : reg.length < 2 ^ 31) : (memoryTree addressCells sizeCells reg short).Documented where
  root := ⟨_, rfl⟩
  nested := ⟨by simp [memoryTree], by simp [memoryTree]⟩
  increasing := by simp [memoryTree]
  parentOffset node parent isParent := by
    obtain ⟨depth, _, member⟩ := isParent.mem
    have less := isParent.lt (by simp [memoryTree])
    obtain ⟨level, isNode, _⟩ := isParent.mem
    simp only [memoryTree, List.mem_cons, Prod.mk.injEq, List.not_mem_nil, or_false] at member isNode
    simp only [memoryTree]
    omega

theorem memory_tree_parent (addressCells sizeCells : Int) (reg : List UInt8)
    (short : reg.length < 2 ^ 31) :
    IsParent (memoryTree addressCells sizeCells reg short).walk 4 0 :=
  ⟨[(0, 1)], 2, [], rfl, le_rfl, rfl⟩

theorem for_each_reg_decodes_word :
    (init (memoryTree 2 1 [0, 0, 0, 1, 0x80, 0, 0, 0, 0, 0, 0x10, 0] (by decide))
        fun _ => 0).forEachReg record 4 [] = .ok [(0x180000000, 0x1000)] := by
  have decodes : ∀ value ∈ (memoryTree 2 1 [0, 0, 0, 1, 0x80, 0, 0, 0, 0, 0, 0x10, 0]
      (by decide)).getprop 4 "reg", RegDecodes 2 1 value := by
    rintro value ⟨⟩
    exact ⟨by decide, by decide⟩
  exact (for_each_reg_decodes_iff (memory_tree_documented 2 1 _ (by decide)) (fun _ => 0)
    (memory_tree_parent 2 1 _ (by decide)) rfl rfl (by decide) (by decide)).mpr decodes

theorem for_each_reg_no_cells :
    (init (memoryTree 0 0 [0, 0, 0, 1] (by decide)) fun _ => 0).forEachReg record 4 [] =
        .error .divisionByZero ∧
      (init (memoryTree 0 0 [0, 0, 0, 1] (by decide)) fun _ => 0).forEachReg record 4 [] ≠
        .ok (regElements 0 0 ((memoryTree 0 0 [0, 0, 0, 1] (by decide)).getprop 4 "reg")) := by
  have fails : (init (memoryTree 0 0 [0, 0, 0, 1] (by decide)) fun _ => 0).forEachReg record 4 [] =
      .error .divisionByZero := by
    decide +kernel
  refine ⟨fails, ?_⟩
  rw [fails]
  rintro ⟨⟩

end L4Bootstrap.Dt
