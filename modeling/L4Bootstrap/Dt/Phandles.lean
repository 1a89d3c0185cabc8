import L4Bootstrap.Dt.Fdt

/-!
# Phandle lists

`Dt::Array` and `Dt::Node::for_each_phandle` of `dt.h`. The cursor and the bounds
check of `view` are `unsigned`: a count that carries them round moves the cursor
back and lets a view through that is not in the property.
-/

namespace L4Bootstrap.Dt

open CheckedLoop

set_option autoImplicit false

/-- `_prop` is the cell `start` of the property `prop`. -/
structure CellArray where
  prop : List Nat
  start : Nat
  len : Nat
  deriving DecidableEq, Repr

namespace CellArray

/-- `get<l4_uint32_t>`. -/
def get (array : CellArray) (off : Nat) : Checked Nat := do
  require (off < array.len)
  require ((off + 1) % 2 ^ 32 ≤ array.len)
  .ok (array.prop.getD (array.start + off) 0)

def view (array : CellArray) (off len : Nat) : Checked CellArray := do
  require ((off + len) % 2 ^ 32 ≤ array.len)
  .ok { array with start := array.start + off, len := len }

/-- The cells of the array are cells of the property. -/
def Inside (array : CellArray) : Prop := array.start + array.len ≤ array.prop.length

instance (array : CellArray) : Decidable array.Inside :=
  inferInstanceAs (Decidable (array.start + array.len ≤ array.prop.length))

end CellArray

/-- The arguments of an invocation of the callback. -/
abbrev PhandleCall := Int × CellArray

section

variable (fdt : Fdt) (cellsName : String)

/-- One pass through the loop: nothing at its end, else the invocation and `cur_cell`
behind it. -/
def phandleStep (list : CellArray) (curCell : Nat) : Checked (Option (PhandleCall × Nat)) :=
  if curCell < list.len then do
    let phandle ← list.get curCell
    let curCell := (curCell + 1) % 2 ^ 32
    let node := fdt.nodeOffsetByPhandle phandle
    if node < 0 then .ok none
    else
      match fdt.getPropU32 node cellsName with
      | none => .ok none
      | some argCells => do
          let view ← list.view curCell argCells
          .ok (some ((node, view), (curCell + argCells) % 2 ^ 32))
  else .ok none

/-- The invocations of the first `fuel` passes with a callback that always
continues, and how the iteration has ended, if it has. -/
def phandleCalls (list : CellArray) : Nat → Nat → List PhandleCall × Option (Checked Unit)
  | 0, _ => ([], none)
  | fuel + 1, curCell =>
      match phandleStep fdt cellsName list curCell with
      | .error failure => ([], some (.error failure))
      | .ok none => ([], some (.ok ()))
      | .ok (some (call, curCell)) =>
          let later := phandleCalls list fuel curCell
          (call :: later.1, later.2)

def forEachPhandle (fuel : Nat) (node : Int) (listName : String) :
    List PhandleCall × Option (Checked Unit) :=
  match fdt.getProp node listName with
  | none => ([], some (.ok ()))
  | some prop => phandleCalls fdt cellsName ⟨prop, 0, prop.length⟩ fuel 0

end

/-! ## Entries of the list -/

section

variable (fdt : Fdt) (cellsName : String) (prop : List Nat)

/-- The number of arguments behind the phandle at a position. -/
def argCells (position : Nat) : Option Nat :=
  if position < prop.length then
    let node := fdt.nodeOffsetByPhandle (prop.getD position 0)
    if node < 0 then none else fdt.getPropU32 node cellsName
  else none

/-- From one entry of the list to a later one, over entries that lie in the property. -/
inductive Behind : Nat → Nat → Prop
  | refl (position : Nat) : Behind position position
  | step {position count later : Nat} : argCells fdt cellsName prop position = some count →
      position + 1 + count ≤ prop.length → Behind (position + 1 + count) later →
      Behind position later

/-- The end of every entry that is reached from the start is an `unsigned`. -/
def EndsFit : Prop := ∀ position count, Behind fdt cellsName prop 0 position →
  argCells fdt cellsName prop position = some count → position + 1 + count < 2 ^ 32

end

/-- The iteration ends after at most one invocation for each cell, and every view is
a part of the property. -/
def PhandlesTerminate (fdt : Fdt) (cellsName : String) (node : Int) (listName : String) : Prop :=
  ∃ fuel, (forEachPhandle fdt cellsName fuel node listName).2.isSome ∧
    (forEachPhandle fdt cellsName fuel node listName).1.length ≤
      ((fdt.getProp node listName).getD []).length ∧
    ∀ call ∈ (forEachPhandle fdt cellsName fuel node listName).1, call.2.Inside

section

variable {fdt : Fdt} {cellsName : String} {prop : List Nat}

theorem cell_get {position : Nat} (short : prop.length < 2 ^ 32) (more : position < prop.length) :
    CellArray.get ⟨prop, 0, prop.length⟩ position = .ok (prop.getD position 0) := by
  have inside : (position + 1) % 2 ^ 32 ≤ prop.length := by
    rw [Nat.mod_eq_of_lt (by omega)]
    omega
  rw [CellArray.get, require, if_pos more, require, if_pos inside, Nat.zero_add]
  rfl

variable (fdt cellsName) in
/-- A pass through the loop, by the entry at the cursor. -/
theorem phandle_step_eq (short : prop.length < 2 ^ 32) (position : Nat) :
    phandleStep fdt cellsName ⟨prop, 0, prop.length⟩ position =
      match argCells fdt cellsName prop position with
      | none => .ok none
      | some count =>
          if (position + 1 + count) % 2 ^ 32 ≤ prop.length then
            .ok (some ((fdt.nodeOffsetByPhandle (prop.getD position 0),
              ⟨prop, position + 1, count⟩), (position + 1 + count) % 2 ^ 32))
          else .error .assertion := by
  rw [phandleStep, argCells]
  by_cases more : position < prop.length
  · have next : (position + 1) % 2 ^ 32 = position + 1 := Nat.mod_eq_of_lt (by omega)
    simp only [more, if_true, cell_get short more, ok_bind, next, CellArray.view]
    split_ifs with invalid
    · rfl
    · cases fdt.getPropU32 (fdt.nodeOffsetByPhandle (prop.getD position 0)) cellsName with
      | none => rfl
      | some count =>
          simp only [require]
          split_ifs
          · simp
          · rfl
  · simp only [more, if_false]

theorem arg_cells_inside {position count : Nat}
    (isCount : argCells fdt cellsName prop position = some count) : position < prop.length := by
  rw [argCells] at isCount
  split_ifs at isCount with more
  exact more

theorem arg_cells_lt {position count : Nat}
    (isCount : argCells fdt cellsName prop position = some count) : count < 2 ^ 32 := by
  simp only [argCells] at isCount
  split_ifs at isCount
  exact get_prop_u32_lt isCount

/-- The passes from the cursor on end with every view inside. -/
def EndsInside (fdt : Fdt) (cellsName : String) (prop : List Nat) (fuel position limit : Nat) :
    Prop :=
  (phandleCalls fdt cellsName ⟨prop, 0, prop.length⟩ fuel position).2.isSome ∧
    (phandleCalls fdt cellsName ⟨prop, 0, prop.length⟩ fuel position).1.length ≤ limit ∧
    ∀ call ∈ (phandleCalls fdt cellsName ⟨prop, 0, prop.length⟩ fuel position).1, call.2.Inside

/-- With an entry that fits, the passes go on behind it. -/
theorem ends_inside_step {fuel position count limit : Nat} (short : prop.length < 2 ^ 32)
    (isCount : argCells fdt cellsName prop position = some count)
    (fits : position + 1 + count ≤ prop.length) :
    EndsInside fdt cellsName prop (fuel + 1) position (limit + 1) ↔
      EndsInside fdt cellsName prop fuel (position + 1 + count) limit := by
  have word : (position + 1 + count) % 2 ^ 32 = position + 1 + count := Nat.mod_eq_of_lt (by omega)
  have step := phandle_step_eq fdt cellsName short position
  simp only [isCount, word, if_pos fits] at step
  have inside : CellArray.Inside ⟨prop, position + 1, count⟩ := fits
  simp only [EndsInside, phandleCalls, step, List.length_cons, List.forall_mem_cons, inside,
    true_and, Nat.add_le_add_iff_right]

/-- An entry whose end carries is passed to the callback, although its arguments are
not in the property. -/
theorem not_ends_inside {fuel position count limit : Nat} (short : prop.length < 2 ^ 32)
    (isCount : argCells fdt cellsName prop position = some count) (word : count < 2 ^ 32)
    (carries : 2 ^ 32 ≤ position + 1 + count) :
    ¬ EndsInside fdt cellsName prop fuel position limit := by
  rintro ⟨ended, _, inside⟩
  cases fuel with
  | zero => cases ended
  | succ fuel =>
      have more := arg_cells_inside isCount
      have passes : (position + 1 + count) % 2 ^ 32 ≤ prop.length := by
        rw [Nat.mod_eq_sub_mod carries, Nat.mod_eq_of_lt (by omega)]
        omega
      have step := phandle_step_eq fdt cellsName short position
      simp only [isCount, if_pos passes] at step
      simp only [phandleCalls, step, List.forall_mem_cons] at inside
      have view : position + 1 + count ≤ prop.length := inside.1
      omega

theorem ends_inside_of_fit (short : prop.length < 2 ^ 32) {remaining position : Nat}
    (bound : prop.length ≤ position + remaining)
    (fit : ∀ later count, Behind fdt cellsName prop position later →
      argCells fdt cellsName prop later = some count → later + 1 + count < 2 ^ 32) :
    EndsInside fdt cellsName prop (remaining + 1) position remaining := by
  induction remaining generalizing position with
  | zero =>
      have none : argCells fdt cellsName prop position = none := by
        rw [argCells, if_neg (by omega)]
      have step := phandle_step_eq fdt cellsName short position
      simp only [none] at step
      simp [EndsInside, phandleCalls, step]
  | succ remaining ih =>
      have step := phandle_step_eq fdt cellsName short position
      cases isCount : argCells fdt cellsName prop position with
      | none =>
          simp only [isCount] at step
          simp [EndsInside, phandleCalls, step]
      | some count =>
          have word := fit position count (.refl position) isCount
          by_cases fits : position + 1 + count ≤ prop.length
          · rw [ends_inside_step short isCount fits]
            refine ih (by omega) ?_
            intro later argCount behind
            exact fit later argCount (.step isCount fits behind)
          · simp only [isCount, Nat.mod_eq_of_lt word, if_neg fits] at step
            simp [EndsInside, phandleCalls, step]

theorem fit_of_ends_inside (short : prop.length < 2 ^ 32) {position later : Nat}
    (behind : Behind fdt cellsName prop position later) {fuel limit : Nat}
    (ends : EndsInside fdt cellsName prop fuel position limit) {count : Nat}
    (isCount : argCells fdt cellsName prop later = some count) (word : count < 2 ^ 32) :
    later + 1 + count < 2 ^ 32 := by
  induction behind generalizing fuel limit with
  | refl position =>
      by_contra carries
      exact not_ends_inside short isCount word (by omega) ends
  | step isFirst fits _ ih =>
      cases fuel with
      | zero => cases ends.1
      | succ fuel =>
          have wider : EndsInside fdt cellsName prop (fuel + 1) _ (limit + 1) :=
            ⟨ends.1, ends.2.1.trans (Nat.le_succ limit), ends.2.2⟩
          exact ih ((ends_inside_step short isFirst fits).mp wider) isCount

end

theorem for_each_phandle_terminates_iff (fdt : Fdt) (cellsName : String) (node : Int)
    (listName : String) :
    PhandlesTerminate fdt cellsName node listName ↔
      ∀ prop ∈ fdt.getProp node listName, EndsFit fdt cellsName prop := by
  cases isProp : fdt.getProp node listName with
  | none => simp [PhandlesTerminate, forEachPhandle, isProp]
  | some prop =>
      have short : prop.length < 2 ^ 32 := (get_prop_length isProp).trans (by decide)
      have ends : PhandlesTerminate fdt cellsName node listName ↔
          ∃ fuel, EndsInside fdt cellsName prop fuel 0 prop.length := by
        simp only [PhandlesTerminate, forEachPhandle, isProp, Option.getD_some, EndsInside]
      rw [ends]
      constructor
      · rintro ⟨fuel, inside⟩ other isOther
        cases isOther
        intro position count behind isCount
        exact fit_of_ends_inside short behind inside isCount (arg_cells_lt isCount)
      · intro fit
        exact ⟨prop.length + 1, ends_inside_of_fit short (by omega) (fit prop rfl)⟩

/-- A tree whose node 4 has a `clocks` property of one cell that refers to the node 8,
with the largest number of cells there. -/
def endlessClocks : Fdt where
  walk := [(0, 1), (4, 2), (8, 2)]
  parentOffset _ := 0
  getprop node name :=
    if node = 4 ∧ name = "clocks" then some [0, 0, 0, 1]
    else if node = 8 ∧ name = "#clock-cells" then some [255, 255, 255, 255]
    else none
  addressCells _ := 2
  sizeCells _ := 1
  pathOffset _ := -1
  subnodes node := if node = 0 then [4, 8] else []
  nodeOffsetByPhandle phandle := if phandle = 1 then 8 else -1
  nodeOffsetByPropValue _ _ _ := -1
  nodeCheckCompatible _ _ := 1
  shortProps node name value isValue := by
    split_ifs at isValue <;> cases isValue <;> decide

theorem for_each_phandle_carries :
    (∀ fuel, (forEachPhandle endlessClocks "#clock-cells" fuel 4 "clocks").2 = none ∧
      (forEachPhandle endlessClocks "#clock-cells" fuel 4 "clocks").1.length = fuel ∧
      ∀ call ∈ (forEachPhandle endlessClocks "#clock-cells" fuel 4 "clocks").1, ¬ call.2.Inside) ∧
    ¬ PhandlesTerminate endlessClocks "#clock-cells" 4 "clocks" := by
  have step : phandleStep endlessClocks "#clock-cells" ⟨[1], 0, 1⟩ 0 =
      .ok (some ((8, ⟨[1], 1, 2 ^ 32 - 1⟩), 0)) := by
    have isCount : argCells endlessClocks "#clock-cells" [1] 0 = some (2 ^ 32 - 1) := by
      decide +kernel
    have short : [1].length < 2 ^ 32 := by decide
    have eq := phandle_step_eq endlessClocks "#clock-cells" short 0
    simp only [isCount] at eq
    exact eq
  have list : endlessClocks.getProp 4 "clocks" = some [1] := by decide +kernel
  have run (fuel : Nat) : (forEachPhandle endlessClocks "#clock-cells" fuel 4 "clocks").2 = none ∧
      (forEachPhandle endlessClocks "#clock-cells" fuel 4 "clocks").1.length = fuel ∧
      ∀ call ∈ (forEachPhandle endlessClocks "#clock-cells" fuel 4 "clocks").1, ¬ call.2.Inside := by
    simp only [forEachPhandle, list, List.length_cons, List.length_nil]
    induction fuel with
    | zero => simp [phandleCalls]
    | succ fuel ih =>
        simp only [phandleCalls, step, List.length_cons, List.forall_mem_cons]
        exact ⟨ih.1, by rw [ih.2.1], by decide, ih.2.2⟩
  refine ⟨run, ?_⟩
  rintro ⟨fuel, ended, _⟩
  rw [(run fuel).1] at ended
  cases ended

end L4Bootstrap.Dt
