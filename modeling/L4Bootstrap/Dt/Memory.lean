import L4Bootstrap.Dt.Translation
import L4Bootstrap.RegionLimits

/-!
# Memory nodes

The part of `Dt::setup_memory` that fills the list of RAM, from `dt.cc`. The
ranges of the tree have 64-bit addresses, the regions those of the machine. A range
that overlaps an entry is taken for the same memory and left out, and so is one of a
single byte; an empty one fails.
-/

set_option autoImplicit false

open MachineWord CheckedLoop PreorderWalk

namespace L4Bootstrap.Dt

variable {W : Wordsize}

def ramAttr : Attr := { name := .literal ".ram" }

/-- What `setup_memory` does with one range. -/
def addRamRange (start sz : Nat) (ram : RegionList W) : Checked (RegionList W) := do
  let n ← Region.startSize (start % W.modulus) (sz % W.modulus) ramAttr
  if ram.reg.any fun i => i.overlaps n && i.attr.type = n.attr.type then .ok ram
  else ram.add n

/-- `nodes_by` with a callback that returns nothing. -/
def nodesBy {σ : Type} (next : Int → Int) (cb : Int → σ → Checked σ) : Nat → Int → σ → Checked σ
  | 0, _, _ => .error .diverges
  | fuel + 1, node, s =>
      if node < 0 then .ok s
      else do
        let s ← cb node s
        nodesBy next cb fuel (next node) s

/-- `nodes_by_prop_value`; every node is visited at most once. -/
def nodesByPropValue {σ : Type} (fdt : Fdt) (name : String) (val : List UInt8)
    (cb : Int → σ → Checked σ) (s : σ) : Checked σ :=
  let next := fun node => fdt.nodeOffsetByPropValue node name val
  nodesBy next cb (fdt.walk.length + 1) (next (-1)) s

/-- The seven bytes of `"memory"`. -/
def memoryType : List UInt8 := [109, 101, 109, 111, 114, 121, 0]

/-- What `setup_memory` does with one memory node. -/
def addMemoryNode (dt : Dt) (mem : Int) (ram : RegionList W) : Checked (RegionList W) :=
  if !dt.fdt.isEnabled mem then .ok ram else dt.forEachReg addRamRange mem ram

/-- The memory nodes in `setup_memory`; what follows there does not change `ram`. -/
def setupMemory (dt : Dt) (ram : RegionList W) : Checked (RegionList W) :=
  nodesByPropValue dt.fdt "device_type" memoryType dt.addMemoryNode ram

/-- `fdt_node_offset_by_prop_value` finds the next node with the property. -/
def Fdt.FindsProps (fdt : Fdt) : Prop := ∀ start name val,
  match (fdt.walk.filter fun x => start < x.1 ∧ fdt.getprop x.1 name = some val).head? with
  | some x => fdt.nodeOffsetByPropValue start name val = x.1
  | none => fdt.nodeOffsetByPropValue start name val < 0

/-! ## The ranges -/

def InRange (range : Nat × Nat) (p : Nat) : Prop := range.1 ≤ p ∧ p < range.1 + range.2

def Apart (range other : Nat × Nat) : Prop :=
  range.1 + range.2 ≤ other.1 ∨ other.1 + other.2 ≤ range.1

instance (range other : Nat × Nat) : Decidable (Apart range other) :=
  inferInstanceAs (Decidable (_ ∨ _))

/-- The bytes of the ranges that the machine can address. -/
def Memory (W : Wordsize) (ranges : List (Nat × Nat)) (p : Nat) : Prop :=
  p < W.modulus ∧ ∃ range ∈ ranges, InRange range p

/-- Address and size as `unsigned long`. -/
def wordRange (W : Wordsize) (range : Nat × Nat) : Nat × Nat :=
  (range.1 % W.modulus, range.2 % W.modulus)

def keep (kept : List (Nat × Nat)) (range : Nat × Nat) : List (Nat × Nat) :=
  if 2 ≤ range.2 ∧ ∀ other ∈ kept, Apart other range then kept ++ [range] else kept

/-- The ranges with at least two bytes that overlap none of those kept before them. -/
def firstCome (ranges : List (Nat × Nat)) : List (Nat × Nat) := ranges.foldl keep []

/-- Some of the ranges, by their indices: each has two bytes, no two of them overlap,
and every other range of two bytes overlaps one of them that comes before it. -/
structure Selection (ranges : List (Nat × Nat)) (selected : Nat → Prop) : Prop where
  two : ∀ i x, ranges[i]? = some x → selected i → 2 ≤ x.2
  apart : ∀ i j x y, i < j → ranges[i]? = some x → ranges[j]? = some y → selected i → selected j →
    Apart x y
  others : ∀ j y, ranges[j]? = some y → ¬ selected j → 2 ≤ y.2 →
    ∃ i x, i < j ∧ ranges[i]? = some x ∧ selected i ∧ ¬ Apart x y

/-- As words, no range is empty or wraps around, and a selection of them has the bytes of
all ranges. -/
structure Discovers (W : Wordsize) (ranges : List (Nat × Nat)) : Prop where
  words : ∀ range ∈ ranges, (wordRange W range).2 ≠ 0 ∧
    (wordRange W range).1 + (wordRange W range).2 ≤ W.modulus
  selects : ∃ selected, Selection (ranges.map (wordRange W)) selected ∧ ∀ p, Memory W ranges p ↔
    ∃ i x, (ranges.map (wordRange W))[i]? = some x ∧ selected i ∧ InRange x p

/-! ## The selection -/

/-- The begin of a list keeps its part of a selection. -/
theorem Selection.init {front : List (Nat × Nat)} {last : Nat × Nat} {selected : Nat → Prop}
    (selection : Selection (front ++ [last]) selected) : Selection front selected := by
  have inside : ∀ {i : Nat} {x : Nat × Nat}, front[i]? = some x →
      (front ++ [last])[i]? = some x := by
    intro i x isRange
    rw [List.getElem?_append_left (List.getElem?_eq_some_iff.mp isRange).1, isRange]
  constructor
  · intro i x isRange
    exact selection.two i x (inside isRange)
  · intro i j x y less isX isY
    exact selection.apart i j x y less (inside isX) (inside isY)
  · intro j y isRange notSelected two
    obtain ⟨i, x, less, isX, isSelected, meets⟩ :=
      selection.others j y (inside isRange) notSelected two
    have bound := (List.getElem?_eq_some_iff.mp isRange).1
    rw [List.getElem?_append_left (by omega)] at isX
    exact ⟨i, x, less, isX, isSelected, meets⟩

theorem first_come_append (front : List (Nat × Nat)) (last : Nat × Nat) :
    firstCome (front ++ [last]) = keep (firstCome front) last := by
  rw [firstCome, List.foldl_append]
  rfl

/-- There is only one selection, and the code keeps it. -/
theorem Selection.mem_first_come {ranges : List (Nat × Nat)} {selected : Nat → Prop}
    (selection : Selection ranges selected) (x : Nat × Nat) :
    x ∈ firstCome ranges ↔ ∃ i, ranges[i]? = some x ∧ selected i := by
  induction ranges using List.reverseRecOn generalizing x with
  | nil => simp [firstCome]
  | append_singleton front last ih =>
      have ih := ih selection.init
      have atLast : (front ++ [last])[front.length]? = some last := List.getElem?_concat_length
      have isKept : (2 ≤ last.2 ∧ ∀ other ∈ firstCome front, Apart other last) ↔
          selected front.length := by
        constructor
        · rintro ⟨two, free⟩
          by_contra notSelected
          obtain ⟨i, x, less, isX, isSelected, meets⟩ :=
            selection.others _ last atLast notSelected two
          rw [List.getElem?_append_left less] at isX
          exact meets (free x ((ih x).mpr ⟨i, isX, isSelected⟩))
        · intro isSelected
          refine ⟨selection.two _ last atLast isSelected, ?_⟩
          intro other member
          obtain ⟨i, isOther, otherSelected⟩ := (ih other).mp member
          have less := (List.getElem?_eq_some_iff.mp isOther).1
          have here : (front ++ [last])[i]? = some other := by
            rw [List.getElem?_append_left less]
            exact isOther
          exact selection.apart i _ other last less here atLast otherSelected isSelected
      have indices : (∃ i, (front ++ [last])[i]? = some x ∧ selected i) ↔
          (∃ i, front[i]? = some x ∧ selected i) ∨ (last = x ∧ selected front.length) := by
        constructor
        · rintro ⟨i, isX, isSelected⟩
          rcases Nat.lt_or_ge i front.length with less | behind
          · rw [List.getElem?_append_left less] at isX
            exact .inl ⟨i, isX, isSelected⟩
          · have bound := (List.getElem?_eq_some_iff.mp isX).1
            rw [List.length_append, List.length_singleton] at bound
            obtain rfl : i = front.length := by omega
            rw [atLast] at isX
            exact .inr ⟨Option.some.inj isX, isSelected⟩
        · rintro (⟨i, isX, isSelected⟩ | ⟨rfl, isSelected⟩)
          · refine ⟨i, ?_, isSelected⟩
            rw [List.getElem?_append_left (List.getElem?_eq_some_iff.mp isX).1, isX]
          · exact ⟨_, atLast, isSelected⟩
      rw [first_come_append, keep, indices, ← ih x, ← isKept]
      by_cases kept : 2 ≤ last.2 ∧ ∀ other ∈ firstCome front, Apart other last
      · rw [if_pos kept, List.mem_append, List.mem_singleton, and_iff_left kept, @eq_comm _ last x]
      · rw [if_neg kept, or_iff_left fun both => kept both.2]

/-- What the code keeps is a selection. -/
theorem selection_first_come (ranges : List (Nat × Nat)) : ∃ selected, Selection ranges selected := by
  induction ranges using List.reverseRecOn with
  | nil => exact ⟨fun _ => False, by simp, by simp, by simp⟩
  | append_singleton front last ih =>
      obtain ⟨selected, selection⟩ := ih
      have known := selection.mem_first_come
      refine ⟨fun i => if i < front.length then selected i
        else 2 ≤ last.2 ∧ ∀ other ∈ firstCome front, Apart other last, ?_⟩
      have parts : ∀ {i : Nat} {x : Nat × Nat}, (front ++ [last])[i]? = some x →
          (i < front.length ∧ front[i]? = some x) ∨ (i = front.length ∧ last = x) := by
        intro i x isX
        rcases Nat.lt_or_ge i front.length with less | behind
        · rw [List.getElem?_append_left less] at isX
          exact .inl ⟨less, isX⟩
        · have bound := (List.getElem?_eq_some_iff.mp isX).1
          rw [List.length_append, List.length_singleton] at bound
          obtain rfl : i = front.length := by omega
          rw [List.getElem?_concat_length] at isX
          exact .inr ⟨rfl, Option.some.inj isX⟩
      constructor
      · intro i x isX isSelected
        rcases parts isX with ⟨less, isX⟩ | ⟨rfl, rfl⟩
        · exact selection.two i x isX (by simpa [less] using isSelected)
        · rw [if_neg (lt_irrefl _)] at isSelected
          exact isSelected.1
      · intro i j x y less isX isY iSelected jSelected
        rcases parts isY with ⟨jLess, isY⟩ | ⟨rfl, rfl⟩
        · rw [if_pos (less.trans jLess)] at iSelected
          rw [if_pos jLess] at jSelected
          rcases parts isX with ⟨_, isX⟩ | ⟨rfl, _⟩
          · exact selection.apart i j x y less isX isY iSelected jSelected
          · omega
        · rw [if_pos less] at iSelected
          rw [if_neg (lt_irrefl _)] at jSelected
          rcases parts isX with ⟨_, isX⟩ | ⟨rfl, _⟩
          · exact jSelected.2 x ((known x).mpr ⟨i, isX, iSelected⟩)
          · omega
      · intro j y isY notSelected two
        rcases parts isY with ⟨jLess, isY⟩ | ⟨rfl, rfl⟩
        · rw [if_pos jLess] at notSelected
          obtain ⟨i, x, less, isX, isSelected, meets⟩ := selection.others j y isY notSelected two
          refine ⟨i, x, less, ?_, by rwa [if_pos (less.trans jLess)], meets⟩
          rw [List.getElem?_append_left (less.trans jLess), isX]
        · rw [if_neg (lt_irrefl _), not_and] at notSelected
          obtain ⟨x, member, meets⟩ : ∃ x ∈ firstCome front, ¬ Apart x last := by
            simpa using notSelected two
          obtain ⟨i, isX, isSelected⟩ := (known x).mp member
          have less := (List.getElem?_eq_some_iff.mp isX).1
          refine ⟨i, x, less, ?_, by rwa [if_pos less], meets⟩
          rw [List.getElem?_append_left less, isX]

/-- The selection has the bytes of all ranges exactly if what is kept has them. -/
theorem selects_iff {W : Wordsize} {ranges : List (Nat × Nat)} :
    (∃ selected, Selection (ranges.map (wordRange W)) selected ∧ ∀ p, Memory W ranges p ↔
      ∃ i x, (ranges.map (wordRange W))[i]? = some x ∧ selected i ∧ InRange x p) ↔
      ∀ p, Memory W ranges p ↔ ∃ x ∈ firstCome (ranges.map (wordRange W)), InRange x p := by
  have same : ∀ {selected}, Selection (ranges.map (wordRange W)) selected → ∀ p,
      (∃ i x, (ranges.map (wordRange W))[i]? = some x ∧ selected i ∧ InRange x p) ↔
        ∃ x ∈ firstCome (ranges.map (wordRange W)), InRange x p := by
    intro selected selection p
    constructor
    · rintro ⟨i, x, isX, isSelected, inRange⟩
      exact ⟨x, (selection.mem_first_come x).mpr ⟨i, isX, isSelected⟩, inRange⟩
    · rintro ⟨x, member, inRange⟩
      obtain ⟨i, isX, isSelected⟩ := (selection.mem_first_come x).mp member
      exact ⟨i, x, isX, isSelected, inRange⟩
  constructor
  · rintro ⟨selected, selection, bytes⟩ p
    rw [bytes p, same selection p]
  · intro bytes
    obtain ⟨selected, selection⟩ := selection_first_come (ranges.map (wordRange W))
    exact ⟨selected, selection, fun p => by rw [bytes p, same selection p]⟩

theorem mem_of_mem_first_come {ranges : List (Nat × Nat)} {x : Nat × Nat}
    (member : x ∈ firstCome ranges) : x ∈ ranges := by
  obtain ⟨selected, selection⟩ := selection_first_come ranges
  obtain ⟨i, isX, _⟩ := (selection.mem_first_come x).mp member
  exact List.mem_of_getElem? isX

/-- Ranges of the word that are apart from those before them or inside of one of them. -/
theorem discovers_of_nested {W : Wordsize} {ranges : List (Nat × Nat)}
    (inside : ∀ x ∈ ranges, 0 < x.2 ∧ x.2 < W.modulus ∧ x.1 + x.2 ≤ W.modulus)
    (nested : ∀ front x back, ranges = front ++ x :: back →
      (2 ≤ x.2 ∧ ∀ other ∈ front, Apart other x) ∨
        ∃ other ∈ front, other.1 ≤ x.1 ∧ x.1 + x.2 ≤ other.1 + other.2) : Discovers W ranges := by
  have isWord : ∀ x ∈ ranges, wordRange W x = x := by
    intro x member
    obtain ⟨pos, small, fits⟩ := inside x member
    rw [wordRange, Nat.mod_eq_of_lt small, Nat.mod_eq_of_lt (by omega)]
  have words : ranges.map (wordRange W) = ranges := by
    rw [List.map_congr_left isWord, List.map_id']
  constructor
  · intro x member
    obtain ⟨pos, _, fits⟩ := inside x member
    rw [isWord x member]
    exact ⟨by omega, fits⟩
  · rw [selects_iff, words]
    have kept : ∀ x ∈ ranges, ∀ p, InRange x p → ∃ y ∈ firstCome ranges, InRange y p := by
      clear inside isWord words
      induction ranges using List.reverseRecOn with
      | nil => simp
      | append_singleton front last ih =>
          have ih := ih fun before x back split => nested before x (back ++ [last]) (by simp [split])
          have grows : ∀ y ∈ firstCome front, y ∈ firstCome (front ++ [last]) := by
            intro y member
            rw [first_come_append, keep]
            split_ifs
            · exact List.mem_append_left _ member
            · exact member
          intro x member p inRange
          rcases List.mem_append.mp member with old | new
          · obtain ⟨y, isKept, inKept⟩ := ih x old p inRange
            exact ⟨y, grows y isKept, inKept⟩
          · obtain rfl := List.mem_singleton.mp new
            rcases nested front x [] rfl with ⟨two, apart⟩ | ⟨other, old, low, high⟩
            · refine ⟨x, ?_, inRange⟩
              rw [first_come_append, keep,
                if_pos ⟨two, fun other isKept => apart other (mem_of_mem_first_come isKept)⟩]
              exact List.mem_append_right _ (List.mem_singleton_self x)
            · obtain ⟨y, isKept, inKept⟩ := ih other old p ⟨low.trans inRange.1, by
                have := inRange.2
                omega⟩
              exact ⟨y, grows y isKept, inKept⟩
    intro p
    constructor
    · rintro ⟨_, x, member, inRange⟩
      exact kept x member p inRange
    · rintro ⟨x, isKept, inRange⟩
      have member := mem_of_mem_first_come isKept
      obtain ⟨_, _, fits⟩ := inside x member
      exact ⟨by have := inRange.2; omega, x, member, inRange⟩

/-! ## The list of RAM -/

/-- The list holds the kept ranges. -/
structure RamHolds (size : Nat) (kept : List (Nat × Nat)) (ram : RegionList W) : Prop where
  ascending : Ascending ram.reg
  address : ram.addressLimit = W.maxWord
  combined : ram.maxCombinedSize = W.maxWord
  max : ram.max = size
  length : ram.reg.length = kept.length
  running : ram.combinedSize = bytesOf ram.reg % W.modulus
  types : ∀ r ∈ ram.reg, r.attr = ramAttr
  positive : ∀ range ∈ kept, 0 < range.2
  covers : ∀ p, Covered ram.reg p ↔ ∃ range ∈ kept, InRange range p

theorem ram_holds_init (size : Nat) : RamHolds size [] (RegionList.init size : RegionList W) where
  ascending := List.Pairwise.nil
  address := rfl
  combined := rfl
  max := rfl
  length := rfl
  running := (Nat.zero_mod _).symm
  types := by simp [RegionList.init]
  positive := by simp
  covers p := by simp [RegionList.init, covered_iff]

section

variable {size : Nat} {kept : List (Nat × Nat)} {ram : RegionList W} {n : Region W}
  {range : Nat × Nat}

theorem overlap_test_iff (holds : RamHolds size kept ram) (isAttr : n.attr = ramAttr) :
    (ram.reg.any fun i => i.overlaps n && i.attr.type = n.attr.type) = false ↔
      ∀ i ∈ ram.reg, i.overlaps n = false := by
  rw [List.any_eq_false]
  refine forall₂_congr fun i member => ?_
  rw [holds.types i member, isAttr, decide_eq_true rfl, Bool.and_true, Bool.not_eq_true]

/-- The search for an overlap looks at the kept ranges. -/
theorem overlap_iff (holds : RamHolds size kept ram) (isAttr : n.attr = ramAttr)
    (bounds : ∀ p, n.Has p ↔ InRange range p) :
    (ram.reg.any fun i => i.overlaps n && i.attr.type = n.attr.type) = false ↔
      ∀ other ∈ kept, Apart other range := by
  have nOrdered := n.ordered
  rw [overlap_test_iff holds isAttr]
  constructor
  · intro free other member
    by_contra shared
    have pos := holds.positive other member
    obtain ⟨low, high⟩ := (bounds n.begin).mp ⟨le_rfl, nOrdered⟩
    obtain ⟨p, inOther, inRange⟩ : ∃ p, InRange other p ∧ InRange range p := by
      unfold Apart at shared
      exact ⟨max other.1 range.1, ⟨by omega, by omega⟩, ⟨by omega, by omega⟩⟩
    obtain ⟨i, inReg, inEntry⟩ := covered_iff.mp ((holds.covers p).mpr ⟨other, member, inOther⟩)
    have inNew := (bounds p).mpr inRange
    have apart := Region.overlaps_eq_false_iff.mp (free i inReg)
    unfold Region.Has at inEntry inNew
    omega
  · intro apart i inReg
    have iOrdered := i.ordered
    rw [Region.overlaps_eq_false_iff]
    by_contra shared
    have inEntry : i.Has (max i.begin n.begin) := by
      unfold Region.Has
      omega
    have inNew : n.Has (max i.begin n.begin) := by
      unfold Region.Has
      omega
    obtain ⟨other, member, inOther⟩ := (holds.covers _).mp (covered_iff.mpr ⟨i, inReg, inEntry⟩)
    have inRange := (bounds _).mp inNew
    have isApart := apart other member
    unfold InRange at inOther inRange
    unfold Apart at isApart
    omega

/-- A range that overlaps no entry. -/
theorem add_kept (holds : RamHolds size kept ram) (room : kept.length < size)
    (isAttr : n.attr = ramAttr) (bounds : ∀ p, n.Has p ↔ InRange range p)
    (isSize : n.last - n.begin + 1 = range.2) (apart : ∀ other ∈ kept, Apart other range) :
    ∃ after, ram.add n = .ok after ∧ RamHolds size (keep kept range) after := by
  have free : ∀ o ∈ ram.reg, n.overlaps o = false := by
    have none := (overlap_test_iff holds isAttr).mp ((overlap_iff holds isAttr bounds).mpr apart)
    intro o member
    rw [Region.overlaps_comm]
    exact none o member
  have isOpen : ram.Open :=
    ⟨holds.address, holds.combined, by rw [holds.length, holds.max]; exact room⟩
  have nOrdered := n.ordered
  have bytes := disjoint_bytes holds.ascending free
  -- with two bytes to add, the running size is not at its maximum
  have running : n.begin < n.last → ram.combinedSize = bytesOf ram.reg ∧
      ram.combinedSize < W.maxWord := by
    intro two
    have maxWord : W.maxWord = W.modulus - 1 := rfl
    rw [holds.running, Nat.mod_eq_of_lt (by omega)]
    omega
  rcases RegionList.add_open_free holds.ascending isOpen free with
    ⟨lost, added⟩ | ⟨⟨two, _⟩, front, back, whole, below, above, added⟩
  · have single : n.begin = n.last := by omega
    have notKept : ¬ (2 ≤ range.2 ∧ ∀ other ∈ kept, Apart other range) := by omega
    rw [keep, if_neg notKept]
    exact ⟨ram, added, holds⟩
  · have isKept : 2 ≤ range.2 ∧ ∀ other ∈ kept, Apart other range := ⟨by omega, apart⟩
    refine ⟨_, added, ?_⟩
    rw [keep, if_pos isKept]
    have ascending := holds.ascending
    rw [whole] at ascending
    refine ⟨ascending_insert ascending below above, holds.address, holds.combined, holds.max, ?_, ?_,
      ?_, ?_, ?_⟩
    · have length := holds.length
      rw [whole, List.length_append] at length
      simp only [List.length_append, List.length_cons, List.length_nil]
      omega
    · simp only
      rw [(running two).1, bytes_of_perm List.perm_middle, bytes_of_cons, whole, Wordsize.add,
        Nat.add_comm]
    · intro r member
      rcases List.mem_cons.mp (List.perm_middle.mem_iff.mp member) with rfl | old
      · exact isAttr
      · exact holds.types r (whole ▸ old)
    · intro other member
      rcases List.mem_append.mp member with old | new
      · exact holds.positive other old
      · rw [List.mem_singleton.mp new]
        omega
    · intro p
      have split : Covered (front ++ n :: back) p ↔ Covered ram.reg p ∨ n.Has p := by
        rw [Covered, covered_by_perm List.perm_middle, ← whole]
        change Covered (n :: ram.reg) p ↔ _
        rw [covered_cons, or_comm]
      rw [split, holds.covers, bounds]
      simp [or_and_right, exists_or]

theorem add_ram_range_ok (holds : RamHolds size kept ram) (room : kept.length < size)
    (nonempty : (wordRange W range).2 ≠ 0)
    (inWord : (wordRange W range).1 + (wordRange W range).2 ≤ W.modulus) :
    ∃ after, addRamRange range.1 range.2 ram = .ok after ∧
      RamHolds size (keep kept (wordRange W range)) after := by
  have beginWord : (wordRange W range).1 < W.modulus := Nat.mod_lt _ W.modulus_pos
  obtain ⟨n, made, isBegin, isLast, isAttr⟩ :=
    Region.start_size_of_fits (W := W) ramAttr (Nat.pos_of_ne_zero nonempty) inWord
  have bounds : ∀ p, n.Has p ↔ InRange (wordRange W range) p := by
    intro p
    unfold Region.Has InRange
    omega
  have start : addRamRange range.1 range.2 ram =
      if (ram.reg.any fun i => i.overlaps n && i.attr.type = n.attr.type) = true then .ok ram
      else ram.add n := by
    have isStart : Region.startSize (range.1 % W.modulus) (range.2 % W.modulus) ramAttr = .ok n := made
    rw [addRamRange, isStart, ok_bind]
  rw [start]
  by_cases apart : ∀ other ∈ kept, Apart other (wordRange W range)
  · rw [(overlap_iff holds isAttr bounds).mpr apart]
    exact add_kept holds room isAttr bounds (by omega) apart
  · have overlap : (ram.reg.any fun i => i.overlaps n && i.attr.type = n.attr.type) = true := by
      rw [← Bool.not_eq_false, overlap_iff holds isAttr bounds]
      exact apart
    rw [if_pos overlap, keep, if_neg fun both => apart both.2]
    exact ⟨ram, rfl, holds⟩

theorem add_ram_range_words {after : RegionList W} {start sz : Nat}
    (added : addRamRange start sz ram = .ok after) :
    (wordRange W (start, sz)).2 ≠ 0 ∧
      (wordRange W (start, sz)).1 + (wordRange W (start, sz)).2 ≤ W.modulus := by
  obtain ⟨n, made, _⟩ := bind_ok_iff.mp added
  have pos := (Region.start_size_ok.mp made).1
  have fits := Region.start_size_last made (Nat.mod_lt _ W.modulus_pos)
  exact ⟨Nat.ne_of_gt pos, fits.1⟩

end

/-! ## All ranges -/

def addRanges (ranges : List (Nat × Nat)) (ram : RegionList W) : Checked (RegionList W) :=
  ranges.foldlM (fun ram range => addRamRange range.1 range.2 ram) ram

section

variable {size : Nat} {ranges : List (Nat × Nat)}

theorem length_keep_le (kept : List (Nat × Nat)) (range : Nat × Nat) :
    (keep kept range).length ≤ kept.length + 1 := by
  rw [keep]
  split_ifs
  · simp
  · omega

theorem add_ranges_ok {kept : List (Nat × Nat)} {ram : RegionList W} (holds : RamHolds size kept ram)
    (room : kept.length + ranges.length ≤ size)
    (words : ∀ range ∈ ranges, (wordRange W range).2 ≠ 0 ∧
      (wordRange W range).1 + (wordRange W range).2 ≤ W.modulus) :
    ∃ after, addRanges ranges ram = .ok after ∧
      RamHolds size ((ranges.map (wordRange W)).foldl keep kept) after := by
  induction ranges generalizing kept ram with
  | nil => exact ⟨ram, rfl, holds⟩
  | cons range ranges ih =>
      simp only [List.length_cons] at room
      obtain ⟨nonempty, inWord⟩ := words range (by simp)
      obtain ⟨next, added, nextHolds⟩ := add_ram_range_ok holds (by omega) nonempty inWord
      have length := length_keep_le kept (wordRange W range)
      obtain ⟨after, rest, afterHolds⟩ := ih nextHolds (by omega) fun other member =>
        words other (List.mem_cons_of_mem range member)
      refine ⟨after, ?_, afterHolds⟩
      rw [addRanges, List.foldlM_cons, added, ok_bind]
      exact rest

theorem add_ranges_words {ram after : RegionList W} (added : addRanges ranges ram = .ok after) :
    ∀ range ∈ ranges, (wordRange W range).2 ≠ 0 ∧
      (wordRange W range).1 + (wordRange W range).2 ≤ W.modulus := by
  induction ranges generalizing ram with
  | nil => simp
  | cons range ranges ih =>
      rw [addRanges, List.foldlM_cons, bind_ok_iff] at added
      obtain ⟨next, first, rest⟩ := added
      rw [List.forall_mem_cons]
      exact ⟨add_ram_range_words first, ih rest⟩

theorem add_ranges_discovers_iff (room : ranges.length ≤ size) :
    (∃ ram : RegionList W, addRanges ranges (RegionList.init size) = .ok ram ∧
        ∀ p, Covered ram.reg p ↔ Memory W ranges p) ↔ Discovers W ranges := by
  have start := ram_holds_init (W := W) size
  have enough : ([] : List (Nat × Nat)).length + ranges.length ≤ size := by simpa using room
  constructor
  · rintro ⟨ram, added, same⟩
    have words := add_ranges_words added
    obtain ⟨after, made, holds⟩ := add_ranges_ok start enough words
    rw [added] at made
    cases made
    refine ⟨words, selects_iff.mpr fun p => ?_⟩
    rw [← same p, holds.covers p]
    rfl
  · rintro ⟨words, selects⟩
    obtain ⟨ram, added, holds⟩ := add_ranges_ok start enough words
    refine ⟨ram, added, fun p => ?_⟩
    rw [holds.covers, selects_iff.mp selects p]
    rfl

end

/-! ## All nodes -/

/-- The ranges of a node as addresses on the root bus. -/
def translated (buses : List Bus) (elements : List (Nat × Nat)) : List (Nat × Nat) :=
  elements.filterMap fun x => (translation x.2 buses x.1).map fun address => (address, x.2)

/-- A node with these ranges, whose `reg` property is decoded and translated as it
should be. -/
def Reads (fdt : Fdt) (node : Int) (ranges : List (Nat × Nat)) : Prop :=
  ∃ (parent : Int) (buses : List Bus) (addr size : Nat), IsParent fdt.walk node parent ∧
    Buses fdt parent buses ∧ fdt.addressCells parent = addr ∧ fdt.sizeCells parent = size ∧
    (∀ value ∈ fdt.getprop node "reg", RegDecodes addr size value) ∧
    (∀ x ∈ regElements addr size (fdt.getprop node "reg"),
      Carries x.2 buses x.1 ∧ Faithful x.2 buses x.1) ∧
    ranges = translated buses (regElements addr size (fdt.getprop node "reg"))

/-- Where a property decodes, its elements are those that the loop visits. -/
theorem reg_elements_eq {addr size : Nat} {value : List UInt8} (decodes : RegDecodes addr size value) :
    regElements addr size (some value) =
      if (cells value).length % (addr + size) = 0 then
        (List.range ((cells value).length / (addr + size))).map fun i =>
          (fieldValue [addr, size] (cells value) i 0, fieldValue [addr, size] (cells value) i 1)
      else [] := by
  obtain ⟨nonzero, broken⟩ := decodes
  simp only [regElements, cells_whole, length_cells, ← Nat.div_div_eq_div_mul, ne_eq]
  by_cases whole : value.length / 4 % (addr + size) = 0
  · by_cases aligned : value.length % 4 = 0
    · by_cases empty : value.length = 0
      · simp [empty]
      · simp [whole, aligned, empty]
    · have short := broken aligned whole
      simp [aligned, Nat.div_eq_of_lt short]
  · simp [whole]

section

variable {fdt : Fdt}

theorem for_each_reg_reads {σ : Type} (documented : fdt.Documented) (garbage : Nat → Int)
    (small : SmallCells fdt) {node : Int} {ranges : List (Nat × Nat)} (reads : Reads fdt node ranges)
    (cb : Nat → Nat → σ → Checked σ) (s : σ) :
    (init fdt garbage).forEachReg cb node s = ranges.foldlM (fun s x => cb x.1 x.2 s) s := by
  obtain ⟨parent, buses, addr, size, isParent, chain, isAddr, isSize, decodes, faithful, rfl⟩ := reads
  obtain ⟨depth, _, inWalk⟩ := isParent.mem
  obtain ⟨addrCount, sizeCount, addrSmall, sizeSmall, sameAddr, sameSize, _⟩ := small.cells inWalk
  have addrAdmitted : addr ≤ 2 := by omega
  have sizeAdmitted : size ≤ 2 := by omega
  have valid : 0 ≤ parent := documented.nonneg inWalk
  have atParent : (init fdt garbage).parentNode node = .ok parent :=
    parent_node_eq documented garbage isParent
  have answer : (init fdt garbage).fdt.getAddrSizeCells parent = some (addr, size) :=
    get_addr_size_cells_eq isAddr isSize addrAdmitted sizeAdmitted
  have prop : (init fdt garbage).fdt.getProp node "reg" = (fdt.getprop node "reg").map cells := rfl
  cases isReg : fdt.getprop node "reg" with
  | none =>
      rw [isReg] at prop
      rw [for_each_reg_absent cb s atParent valid answer prop]
      rfl
  | some value =>
      rw [isReg] at prop faithful decodes
      have nonzero := (decodes value rfl).1
      rw [for_each_reg_eq cb s atParent valid answer prop nonzero]
      rw [reg_elements_eq (decodes value rfl)] at faithful ⊢
      by_cases whole : (cells value).length % (addr + size) = 0
      · rw [if_pos whole] at faithful
        let element := fun i => (fieldValue [addr, size] (cells value) i 0,
          fieldValue [addr, size] (cells value) i 1)
        have found : ∀ k, 0 ≤ k → k < 0 + (cells value).length / (addr + size) →
            (init fdt garbage).getRegVal parent ⟨some (cells value), [addr, size]⟩ k =
              .ok ((translation (element k).2 buses (element k).1).map fun address =>
                (address, (element k).2)) := by
          intro k _ inside
          rw [Nat.zero_add] at inside
          obtain ⟨carries, isFaithful⟩ :=
            faithful (element k) (List.mem_map_of_mem (List.mem_range.mpr inside))
          rw [get_reg_val_eq nonzero addrAdmitted sizeAdmitted (fun c => cells_lt) inside,
            map_pair_iff]
          have enough := documented.nested.depth_le (buses_depth documented chain)
          exact (translate_reg_iff documented garbage small chain enough carries).mpr isFaithful
        rw [if_pos whole, if_pos whole, reg_loop_eq cb s found, translated, List.filterMap_map,
          List.range_eq_range']
        rfl
      · rw [if_neg whole, if_neg whole]
        rfl

/-! ## The search for nodes -/

theorem finds_next {name : String} {val : List UInt8} (finds : fdt.FindsProps)
    {front rest : List (Int × Nat)}
    (split : fdt.walk.filter (fun x => fdt.getprop x.1 name = some val) = front ++ rest)
    {start : Int} (before : ∀ x ∈ front, x.1 ≤ start) (behind : ∀ x ∈ rest, start < x.1) :
    match rest.head? with
    | some x => fdt.nodeOffsetByPropValue start name val = x.1
    | none => fdt.nodeOffsetByPropValue start name val < 0 := by
  have both : (fun x : Int × Nat => decide (start < x.1 ∧ fdt.getprop x.1 name = some val)) =
      fun x => decide (start < x.1) && decide (fdt.getprop x.1 name = some val) := by
    funext x
    rw [Bool.decide_and]
  have remaining : fdt.walk.filter (fun x => start < x.1 ∧ fdt.getprop x.1 name = some val) =
      rest := by
    rw [both, ← List.filter_filter, split, List.filter_append,
      List.filter_eq_nil_iff.mpr (fun x member => by simpa using before x member),
      List.filter_eq_self.mpr (fun x member => by simpa using behind x member), List.nil_append]
  have next := finds start name val
  rw [remaining] at next
  exact next

/-- The search from `start` on visits the rest of the nodes with the property. -/
theorem nodes_by_eq {σ : Type} {name : String} {val : List UInt8} (finds : fdt.FindsProps)
    (increasing : fdt.walk.Pairwise fun x y => x.1 < y.1) (nonneg : ∀ x ∈ fdt.walk, 0 ≤ x.1)
    (cb : Int → σ → Checked σ) {front rest : List (Int × Nat)}
    (split : fdt.walk.filter (fun x => fdt.getprop x.1 name = some val) = front ++ rest)
    {start : Int} (before : ∀ x ∈ front, x.1 ≤ start) (behind : ∀ x ∈ rest, start < x.1)
    {fuel : Nat} (enough : rest.length < fuel) (s : σ) :
    nodesBy (fun node => fdt.nodeOffsetByPropValue node name val) cb fuel
        (fdt.nodeOffsetByPropValue start name val) s =
      (rest.map Prod.fst).foldlM (fun s node => cb node s) s := by
  have next := finds_next finds split before behind
  induction rest generalizing front start fuel s with
  | nil =>
      obtain ⟨fuel, rfl⟩ := Nat.exists_eq_succ_of_ne_zero (Nat.ne_zero_of_lt enough)
      simp only [List.head?_nil] at next
      rw [nodesBy, if_pos next]
      rfl
  | cons x rest ih =>
      obtain ⟨fuel, rfl⟩ := Nat.exists_eq_succ_of_ne_zero (Nat.ne_zero_of_lt enough)
      simp only [List.head?_cons] at next
      simp only [List.length_cons] at enough
      have sorted := increasing.sublist (List.filter_sublist
        (p := fun x => decide (fdt.getprop x.1 name = some val)))
      rw [split] at sorted
      have later := (List.pairwise_cons.mp (List.pairwise_append.mp sorted).2.1).1
      have found : x ∈ fdt.walk.filter fun x => fdt.getprop x.1 name = some val := by
        rw [split]
        simp
      have inWalk : x ∈ fdt.walk := List.mem_of_mem_filter found
      have nextSplit : fdt.walk.filter (fun x => fdt.getprop x.1 name = some val) =
          (front ++ [x]) ++ rest := by simpa using split
      have nextBefore : ∀ y ∈ front ++ [x], y.1 ≤ x.1 := by
        intro y member
        rcases List.mem_append.mp member with inFront | isLast
        · exact (before y inFront).trans (behind x (by simp)).le
        · rw [List.mem_singleton.mp isLast]
      rw [nodesBy, next, if_neg (not_lt.mpr (nonneg x inWalk)), List.map_cons, List.foldlM_cons]
      congr 1
      funext after
      exact ih nextSplit nextBefore later (by omega) after
        (finds_next finds nextSplit nextBefore later)

/-- The nodes with the `device_type` memory, in the order of the tree. -/
def memoryNodes (fdt : Fdt) : List Int :=
  (fdt.walk.filter fun x => fdt.getprop x.1 "device_type" = some memoryType).map Prod.fst

def enabledMemory (fdt : Fdt) : List Int := (memoryNodes fdt).filter fdt.isEnabled

theorem setup_memory_eq (documented : fdt.Documented) (finds : fdt.FindsProps)
    (garbage : Nat → Int) (ram : RegionList W) :
    (init fdt garbage).setupMemory ram =
      (memoryNodes fdt).foldlM (fun ram mem => (init fdt garbage).addMemoryNode mem ram) ram := by
  have enough : (fdt.walk.filter fun x => fdt.getprop x.1 "device_type" = some memoryType).length <
      fdt.walk.length + 1 := Nat.lt_succ_of_le (List.length_filter_le _ _)
  have behind : ∀ x ∈ fdt.walk.filter (fun x => fdt.getprop x.1 "device_type" = some memoryType),
      (-1 : Int) < x.1 := by
    intro x member
    have := documented.nonneg (List.mem_of_mem_filter member)
    omega
  have nonneg : ∀ x ∈ fdt.walk, 0 ≤ x.1 := fun x => documented.nonneg
  exact nodes_by_eq finds documented.increasing nonneg (init fdt garbage).addMemoryNode
    (List.nil_append _).symm (by simp) behind enough ram

theorem add_ranges_append (front back : List (Nat × Nat)) (ram : RegionList W) :
    addRanges (front ++ back) ram = addRanges front ram >>= addRanges back := by
  rw [addRanges, List.foldlM_append]
  rfl

theorem memory_nodes_ranges (documented : fdt.Documented) (garbage : Nat → Int)
    (small : SmallCells fdt) {found : Int → List (Nat × Nat)} {nodes : List Int}
    (reads : ∀ node ∈ nodes.filter fdt.isEnabled, Reads fdt node (found node)) (ram : RegionList W) :
    nodes.foldlM (fun ram mem => (init fdt garbage).addMemoryNode mem ram) ram =
      addRanges ((nodes.filter fdt.isEnabled).flatMap found) ram := by
  induction nodes generalizing ram with
  | nil => rfl
  | cons node nodes ih =>
      rw [List.foldlM_cons, addMemoryNode]
      have isTree : (init fdt garbage).fdt = fdt := rfl
      rw [isTree]
      cases enabled : fdt.isEnabled node with
      | true =>
          rw [List.filter_cons_of_pos enabled] at reads ⊢
          obtain ⟨first, rest⟩ := List.forall_mem_cons.mp reads
          rw [if_neg (by decide), for_each_reg_reads documented garbage small first,
            List.flatMap_cons, add_ranges_append]
          congr 1
          funext next
          exact ih rest next
      | false =>
          rw [List.filter_cons_of_neg (by simp [enabled])] at reads ⊢
          exact ih reads ram

end

def ramProps (reg : List UInt8) (node : Int) (name : String) : Option (List UInt8) :=
  if node = 4 ∧ name = "reg" then some reg
  else if node = 4 ∧ name = "device_type" then some memoryType
  else none

/-- A tree with one memory node and cells of one word each. -/
def ramTree (reg : List UInt8) (short : reg.length < 2 ^ 31) : Fdt :=
  { memoryTree 1 1 reg short with
    getprop := ramProps reg
    nodeOffsetByPropValue := fun start name val =>
      ((([(0, 1), (4, 2)] : List (Int × Nat)).filter fun x =>
        start < x.1 ∧ ramProps reg x.1 name = some val).head?.map Prod.fst).getD (-1)
    shortProps := by
      intro node name value isValue
      unfold ramProps at isValue
      split_ifs at isValue <;> cases isValue
      · exact short
      · decide }

section

variable (reg : List UInt8) (short : reg.length < 2 ^ 31)

theorem ram_tree_documented : (ramTree reg short).Documented :=
  have tree := memory_tree_documented 1 1 reg short
  ⟨tree.root, tree.nested, tree.increasing, tree.parentOffset⟩

theorem ram_tree_finds : (ramTree reg short).FindsProps := by
  intro start name val
  split
  · rename_i x isHead
    exact congrArg (fun head : Option (Int × Nat) => (head.map Prod.fst).getD (-1)) isHead
  · rename_i isHead
    have none : (ramTree reg short).nodeOffsetByPropValue start name val = -1 :=
      congrArg (fun head : Option (Int × Nat) => (head.map Prod.fst).getD (-1)) isHead
    rw [none]
    decide

theorem ram_tree_small : SmallCells (ramTree reg short) := by
  intro x _
  simp [ramTree, memoryTree]

theorem ram_tree_reads (decodes : RegDecodes 1 1 reg) {ranges : List (Nat × Nat)}
    (isRanges : ranges = regElements 1 1 (some reg)) : Reads (ramTree reg short) 4 ranges := by
  refine ⟨0, [], 1, 1, memory_tree_parent 1 1 reg short, .root, rfl, rfl, ?_, ?_, ?_⟩
  · rintro value ⟨⟩
    exact decodes
  · intro x _
    exact ⟨trivial, trivial⟩
  · rw [isRanges]
    simp [translated, translation, ramTree, ramProps]

end

/-- 0x2000 bytes from 0x1000 on, and a second range that begins at 0x2000. -/
def twoRanges (size : UInt8) : List UInt8 :=
  [0, 0, 0x10, 0, 0, 0, 0x20, 0, 0, 0, 0x20, 0, 0, 0, size, 0]

def twoRangesTree (size : UInt8) : Fdt := ramTree (twoRanges size) (by simp [twoRanges])

end L4Bootstrap.Dt
