import L4Bootstrap.ModAttr
import L4Bootstrap.Lib.Numerals

/-!
# The nodes of a module

`Mod_info::is_for_node` of `mod_info.cc`. The loop takes one range after the other off
the attribute `nodes`. The parser for numbers belongs to `cxx::String`; it takes the
longest front of digits.
-/

namespace L4Bootstrap

open MachineWord ByteMemory Numerals

set_option autoImplicit false

def colon : UInt8 := 0x3a
def dash : UInt8 := 0x2d

/-- `cxx::String::from_dec`: how many bytes it takes, and the number. What it leaves in the
variable without a digit is not said. -/
structure FromDec where
  run : List UInt8 → Nat × Nat
  length_eq : ∀ text, (run text).1 = (digits 10 text).length
  value_eq : ∀ text, digits 10 text ≠ [] → numeral 10 (digits 10 text) < 2 ^ 32 →
    (run text).2 = numeral 10 (digits 10 text)

/-- First and last node of a range; `none` goes to the message and `false`. -/
def readRange (F : FromDec) (range : List UInt8) : Option (Nat × Nat) :=
  let (next, startNode) := F.run range
  if range.length ≤ next then some (startNode, startNode)
  else if range.getD next 0 ≠ dash then none
  else
    let (len, endNode) := F.run (range.drop (next + 1))
    if len + next + 1 ≠ range.length then none else some (startNode, endNode)

/-- What is left behind the first colon. -/
def behindColon (nodes : List UInt8) : List UInt8 := (nodes.dropWhile (· ≠ colon)).drop 1

theorem behind_colon_shorter {nodes : List UInt8} (more : behindColon nodes ≠ []) :
    (behindColon nodes).length < nodes.length := by
  have suffix := (List.dropWhile_suffix (l := nodes) (· ≠ colon)).length_le
  have nonempty := List.length_pos_iff.mpr more
  unfold behindColon at nonempty ⊢
  rw [List.length_drop] at nonempty ⊢
  omega

/-- The `do` loop. -/
def nodesAllow (F : FromDec) (node : Nat) (nodes : List UInt8) : Bool :=
  match readRange F (nodes.takeWhile (· ≠ colon)) with
  | none => false
  | some (startNode, endNode) =>
      if startNode ≤ node ∧ node ≤ endNode then true
      else if _more : behindColon nodes = [] then false
      else nodesAllow F node (behindColon nodes)
  termination_by nodes.length
  decreasing_by exact behind_colon_shorter ‹_›

/-- The characters `nodes`. -/
def nodesKey : List UInt8 := [0x6e, 0x6f, 0x64, 0x65, 0x73]

/-- `kvs` is where the attributes of the module stand. -/
def isForNode (W : Wordsize) (F : FromDec) (bytes : Bytes) (fuel kvs node : Nat) :
    Checked Bool := do
  let nodes ← findAttr W bytes fuel kvs nodesKey
  if nodes = [] then pure true else pure (nodesAllow F node nodes)

/-! ## The documented syntax -/

def AllDigits (text : List UInt8) : Prop := ∀ c ∈ text, isDigit 10 c = true

/-- A number, or two numbers with a dash between them. -/
inductive RangeOf : List UInt8 → Nat → Nat → Prop
  | number {ds : List UInt8} (nonempty : ds ≠ []) (all : AllDigits ds) :
      RangeOf ds (numeral 10 ds) (numeral 10 ds)
  | range {first last : List UInt8} (firstNonempty : first ≠ []) (firstAll : AllDigits first)
      (lastNonempty : last ≠ []) (lastAll : AllDigits last) :
      RangeOf (first ++ dash :: last) (numeral 10 first) (numeral 10 last)

def WellFormed (item : List UInt8) : Prop := ∃ first last, RangeOf item first last

/-- Empty, or a range without one of its numbers. -/
def LacksBound (item : List UInt8) : Prop :=
  item = [] ∨ ∃ first last, item = first ++ dash :: last ∧ AllDigits first ∧ AllDigits last ∧
    (first = [] ∨ last = [])

/-- Some item of the list contains the node, and the items before it are well-formed. -/
def NodesContain (nodes : List UInt8) (node : Nat) : Prop :=
  ∃ before item after, nodes.splitOn colon = before ++ item :: after ∧
    (∃ first last, RangeOf item first last ∧ first ≤ node ∧ node ≤ last) ∧
    ∀ x ∈ before, WellFormed x

/-- The numbers of the well-formed items fit the type of a node. -/
def SmallNodes (nodes : List UInt8) : Prop :=
  ∀ item ∈ nodes.splitOn colon, ∀ first last, RangeOf item first last →
    first < 2 ^ 32 ∧ last < 2 ^ 32

/-! ## The loop -/

/-- An item is read as a range that has, or that misses, the node. -/
def ReadsWith (F : FromDec) (node : Nat) (item : List UInt8) : Prop :=
  ∃ first last, readRange F item = some (first, last) ∧ first ≤ node ∧ node ≤ last

def ReadsWithout (F : FromDec) (node : Nat) (item : List UInt8) : Prop :=
  ∃ first last, readRange F item = some (first, last) ∧ ¬(first ≤ node ∧ node ≤ last)

/-- The first item that is read as a range with the node. Nothing behind a last colon is read. -/
structure FirstHit (F : FromDec) (node : Nat) (items before : List (List UInt8))
    (item : List UInt8) (after : List (List UInt8)) : Prop where
  split : items = before ++ item :: after
  reached : before ≠ [] → item :: after ≠ [[]]
  hit : ReadsWith F node item
  missed : ∀ x ∈ before, ReadsWithout F node x

section

variable {F : FromDec} {node : Nat} {nodes item front rest : List UInt8}
  {items before after : List (List UInt8)}

theorem nodes_cases (nodes : List UInt8) : colon ∉ nodes ∨
    ∃ front rest, nodes = front ++ colon :: rest ∧ colon ∉ front := by
  rcases front_cases (fun c => decide (c ≠ colon)) nodes with
    all | ⟨front, c, rest, rfl, all, other⟩
  · exact .inl fun member => of_decide_eq_true (all colon member) rfl
  · have isColon : c = colon := not_not.mp (of_decide_eq_false other)
    subst isColon
    exact .inr ⟨front, rest, rfl, fun member => of_decide_eq_true (all colon member) rfl⟩

theorem without_colon (noColon : colon ∉ front) : ∀ c ∈ front, decide (c ≠ colon) = true :=
  fun _ member => decide_eq_true fun isColon => noColon (isColon ▸ member)

theorem split_eq_empty (isEmpty : rest.splitOn colon = [[]]) : rest = [] := by
  have joined : List.intercalate [colon] (rest.splitOn colon) = rest :=
    List.intercalate_splitOn colon
  rw [← joined, isEmpty]
  rfl

theorem take_off_last (noColon : colon ∉ front) :
    front.takeWhile (fun c => decide (c ≠ colon)) = front ∧ behindColon front = [] := by
  have all := without_colon noColon
  have taken := List.takeWhile_append_dropWhile (p := fun c => decide (c ≠ colon)) (l := front)
  rw [take_while_all all] at taken
  have nothing : front.dropWhile (fun c => decide (c ≠ colon)) = [] :=
    List.append_cancel_left (taken.trans (List.append_nil _).symm)
  rw [behindColon, nothing]
  exact ⟨take_while_all all, rfl⟩

theorem take_off_first (noColon : colon ∉ front) :
    (front ++ colon :: rest).takeWhile (fun c => decide (c ≠ colon)) = front ∧
      behindColon (front ++ colon :: rest) = rest := by
  have all := without_colon noColon
  have other : decide (colon ≠ colon) = false := decide_eq_false (not_not.mpr rfl)
  rw [behindColon, drop_while_front all other]
  exact ⟨take_while_front all other, rfl⟩

/-- One round: the item decides, or the rest of the list. -/
theorem nodes_allow_round (nodes : List UInt8) : nodesAllow F node nodes = true ↔
    ReadsWith F node (nodes.takeWhile (fun c => decide (c ≠ colon))) ∨
      ReadsWithout F node (nodes.takeWhile (fun c => decide (c ≠ colon))) ∧
        behindColon nodes ≠ [] ∧ nodesAllow F node (behindColon nodes) = true := by
  rw [nodesAllow]
  unfold ReadsWith ReadsWithout
  cases read : readRange F (nodes.takeWhile (fun c => decide (c ≠ colon))) with
  | none => simp
  | some range =>
      obtain ⟨first, last⟩ := range
      by_cases contains : first ≤ node ∧ node ≤ last
      · simp [contains]
      · by_cases isLast : behindColon nodes = []
        · simp [contains, isLast]
        · simp [contains, isLast]
          exact fun _ lower => Nat.lt_of_not_le fun upper => contains ⟨lower, upper⟩

theorem first_hit_cons : (∃ before hit after, FirstHit F node (item :: items) before hit after) ↔
    ReadsWith F node item ∨ ReadsWithout F node item ∧ items ≠ [[]] ∧
      ∃ before hit after, FirstHit F node items before hit after := by
  constructor
  · rintro ⟨before, hit, after, split, reached, isHit, missed⟩
    cases before with
    | nil =>
        cases split
        exact .inl isHit
    | cons first before =>
        cases split
        have behind := reached (List.cons_ne_nil _ _)
        refine .inr ⟨missed _ List.mem_cons_self, ?_, before, hit, after, rfl, fun _ => behind,
          isHit, fun x member => missed x (List.mem_cons_of_mem _ member)⟩
        intro single
        cases before with
        | nil => exact behind single
        | cons _ before =>
            have lengths := congrArg List.length single
            simp at lengths
  · rintro (isHit | ⟨isMiss, more, before, hit, after, split, reached, isHit, missed⟩)
    · exact ⟨[], item, items, rfl, fun absurdity => absurd rfl absurdity, isHit,
        fun x member => absurd member List.not_mem_nil⟩
    · refine ⟨item :: before, hit, after, by rw [split]; rfl, fun _ => ?_, isHit,
        List.forall_mem_cons.mpr ⟨isMiss, missed⟩⟩
      cases before with
      | nil =>
          rw [List.nil_append] at split
          exact split ▸ more
      | cons _ _ => exact reached (List.cons_ne_nil _ _)

/-- The whole loop stops with `true` at the first item that is read as a range with the node. -/
theorem nodes_allow_iff (nodes : List UInt8) : nodesAllow F node nodes = true ↔
    ∃ before item after, FirstHit F node (nodes.splitOn colon) before item after := by
  induction bound : nodes.length using Nat.strongRecOn generalizing nodes with
  | ind n ih =>
      rw [nodes_allow_round]
      rcases nodes_cases nodes with noColon | ⟨front, rest, rfl, noColon⟩
      · rw [(take_off_last noColon).1, (take_off_last noColon).2, List.splitOn_eq_singleton noColon,
          first_hit_cons]
        constructor
        · rintro (isHit | ⟨_, more, _⟩)
          · exact .inl isHit
          · exact absurd rfl more
        · rintro (isHit | ⟨_, _, before, hit, after, split, _⟩)
          · exact .inl isHit
          · simp at split
      · rw [(take_off_first noColon).1, (take_off_first noColon).2,
          List.splitOn_append_cons_self_of_not_mem noColon, first_hit_cons]
        have shorter : rest.length < n := by
          rw [← bound, List.length_append, List.length_cons]
          omega
        have empty : rest ≠ [] ↔ rest.splitOn colon ≠ [[]] := by
          rw [not_iff_not]
          exact ⟨fun isEmpty => isEmpty ▸ List.splitOn_nil colon, split_eq_empty⟩
        rw [ih rest.length shorter rest rfl, empty]

/-! ## One item -/

theorem read_range_digits (all : AllDigits item) :
    readRange F item = some ((F.run item).2, (F.run item).2) := by
  have length := F.length_eq item
  rw [digits_all all] at length
  rw [readRange]
  exact if_pos length.ge

theorem read_range_dash {first last : List UInt8} (firstAll : AllDigits first)
    (lastAll : AllDigits last) : readRange F (first ++ dash :: last) =
      some ((F.run (first ++ dash :: last)).2, (F.run last).2) := by
  have length := F.length_eq (first ++ dash :: last)
  rw [digits_front firstAll (by decide)] at length
  have lastLength := F.length_eq last
  rw [digits_all lastAll] at lastLength
  have total : (first ++ dash :: last).length = first.length + 1 + last.length := by
    rw [List.length_append, List.length_cons]
    omega
  have behind : (first ++ dash :: last).drop (first.length + 1) = last := by
    rw [← List.drop_drop, List.drop_left]
    rfl
  have isDash : (first ++ dash :: last).getD first.length 0 = dash := by
    simp [List.getD_eq_getElem?_getD]
  rw [readRange]
  dsimp only
  rw [length, if_neg (by omega), isDash, if_neg (not_not.mpr rfl), behind, lastLength,
    if_neg (by omega)]

/-- What is read as a range consists of digits, with at most one dash between them. -/
theorem read_range_shape {range : Nat × Nat} (read : readRange F item = some range) :
    AllDigits item ∨
      ∃ first last, item = first ++ dash :: last ∧ AllDigits first ∧ AllDigits last := by
  rcases front_cases (isDigit 10) item with all | ⟨first, c, last, rfl, firstAll, other⟩
  · exact .inl all
  · have length := F.length_eq (first ++ c :: last)
    rw [digits_front firstAll other] at length
    have lastLength := F.length_eq last
    have total : (first ++ c :: last).length = first.length + 1 + last.length := by
      rw [List.length_append, List.length_cons]
      omega
    have behind : (first ++ c :: last).drop (first.length + 1) = last := by
      rw [← List.drop_drop, List.drop_left]
      rfl
    have isC : (first ++ c :: last).getD first.length 0 = c := by
      simp [List.getD_eq_getElem?_getD]
    rw [readRange] at read
    dsimp only at read
    rw [length, if_neg (by omega), isC, behind] at read
    split_ifs at read with isDash consumed
    have isWhole : (F.run last).1 + first.length + 1 = (first ++ c :: last).length :=
      not_not.mp consumed
    rw [not_not] at isDash
    subst isDash
    refine .inr ⟨first, last, rfl, firstAll, ?_⟩
    rcases front_cases (isDigit 10) last with all | ⟨front, d, back, rfl, frontAll, noDigit⟩
    · exact all
    · rw [digits_front frontAll noDigit] at lastLength
      have longer : front.length < (front ++ d :: back).length := by
        rw [List.length_append, List.length_cons]
        omega
      omega

/-- A well-formed item is read as its range. -/
theorem read_range_well_formed {first last : Nat} (isRange : RangeOf item first last)
    (firstSmall : first < 2 ^ 32) (lastSmall : last < 2 ^ 32) :
    readRange F item = some (first, last) := by
  cases isRange with
  | number nonempty all =>
      have isDigits := digits_all all
      have value := F.value_eq item (isDigits.symm ▸ nonempty) (isDigits.symm ▸ firstSmall)
      rw [read_range_digits all, value, isDigits]
  | @range firstDigits lastDigits firstNonempty firstAll lastNonempty lastAll =>
      have isFirst : digits 10 (firstDigits ++ dash :: lastDigits) = firstDigits :=
        digits_front firstAll (by decide)
      have isLast := digits_all lastAll
      have firstValue := F.value_eq (firstDigits ++ dash :: lastDigits)
        (isFirst.symm ▸ firstNonempty) (isFirst.symm ▸ firstSmall)
      have lastValue := F.value_eq lastDigits (isLast.symm ▸ lastNonempty)
        (isLast.symm ▸ lastSmall)
      rw [read_range_dash firstAll lastAll, firstValue, lastValue, isFirst, isLast]

theorem well_formed_of_read {range : Nat × Nat} (read : readRange F item = some range)
    (bounds : ¬LacksBound item) : WellFormed item := by
  unfold LacksBound at bounds
  obtain ⟨nonempty, bounds⟩ := not_or.mp bounds
  rcases read_range_shape read with all | ⟨first, last, rfl, firstAll, lastAll⟩
  · exact ⟨_, _, .number nonempty all⟩
  · have both : ¬(first = [] ∨ last = []) := fun missing =>
      bounds ⟨first, last, rfl, firstAll, lastAll, missing⟩
    obtain ⟨firstNonempty, lastNonempty⟩ := not_or.mp both
    exact ⟨_, _, .range firstNonempty firstAll lastNonempty lastAll⟩

theorem dash_cut_unique {first last otherFirst otherLast : List UInt8}
    (same : first ++ dash :: last = otherFirst ++ dash :: otherLast) (firstAll : AllDigits first)
    (otherAll : AllDigits otherFirst) : first = otherFirst ∧ last = otherLast := by
  have cut := congrArg (List.takeWhile (isDigit 10)) same
  rw [take_while_front firstAll (by decide), take_while_front otherAll (by decide)] at cut
  subst cut
  exact ⟨rfl, List.tail_eq_of_cons_eq (List.append_cancel_left same)⟩

theorem well_formed_bounds (wellFormed : WellFormed item) : ¬LacksBound item := by
  rintro (rfl | ⟨first, last, isItem, firstAll, lastAll, missing⟩)
  · obtain ⟨_, _, isRange⟩ := wellFormed
    generalize isEmpty : ([] : List UInt8) = item at isRange
    cases isRange with
    | number nonempty _ => exact nonempty isEmpty.symm
    | range _ _ _ _ => simp at isEmpty
  · obtain ⟨_, _, isRange⟩ := wellFormed
    cases isRange with
    | number _ all =>
        have noDigit : isDigit 10 dash = false := by decide
        have isDigit := all dash (isItem ▸ List.mem_append_right _ List.mem_cons_self)
        exact absurd (isDigit.symm.trans noDigit) (by decide)
    | range firstNonempty otherAll lastNonempty _ =>
        obtain ⟨rfl, rfl⟩ := dash_cut_unique isItem otherAll firstAll
        rcases missing with noFirst | noLast
        · exact firstNonempty noFirst
        · exact lastNonempty noLast

/-! ## Documented and actual answers -/

/-- Before its first hit the loop reads no item that lacks a bound. -/
def NoBoundMissing (F : FromDec) (node : Nat) (nodes : List UInt8) : Prop :=
  ∀ before item after, FirstHit F node (nodes.splitOn colon) before item after →
    ¬LacksBound item ∧ ∀ x ∈ before, ¬LacksBound x

theorem reads_of_well_formed (small : SmallNodes nodes) (member : item ∈ nodes.splitOn colon)
    (wellFormed : WellFormed item) : ReadsWith F node item ∨ ReadsWithout F node item := by
  obtain ⟨first, last, isRange⟩ := wellFormed
  obtain ⟨firstSmall, lastSmall⟩ := small item member first last isRange
  have read := read_range_well_formed (F := F) isRange firstSmall lastSmall
  by_cases contains : first ≤ node ∧ node ≤ last
  · exact .inl ⟨first, last, read, contains⟩
  · exact .inr ⟨first, last, read, contains⟩

/-- In a list of readable items, the first one with the node. -/
theorem first_with_node (hit : ReadsWith F node item)
    (readable : ∀ x ∈ before, ReadsWith F node x ∨ ReadsWithout F node x) :
    ∃ front first back, before ++ [item] = front ++ first :: back ∧ ReadsWith F node first ∧
      ∀ x ∈ front, ReadsWithout F node x := by
  induction before with
  | nil => exact ⟨[], item, [], rfl, hit, fun x member => absurd member List.not_mem_nil⟩
  | cons x before ih =>
      rcases readable x List.mem_cons_self with with_ | without
      · exact ⟨[], x, before ++ [item], rfl, with_, fun x member => absurd member List.not_mem_nil⟩
      · obtain ⟨front, first, back, split, isHit, missed⟩ :=
          ih fun y member => readable y (List.mem_cons_of_mem _ member)
        exact ⟨x :: front, first, back, by rw [List.cons_append, split]; rfl, isHit,
          List.forall_mem_cons.mpr ⟨without, missed⟩⟩

theorem not_with_and_without (hit : ReadsWith F node item) : ¬ReadsWithout F node item := by
  rintro ⟨first, last, read, misses⟩
  obtain ⟨_, _, again, contains⟩ := hit
  rw [read] at again
  cases again
  exact misses contains

/-- Two first hits are the same one. -/
theorem FirstHit.unique {otherBefore otherAfter : List (List UInt8)} {other : List UInt8}
    (hit : FirstHit F node items before item after)
    (otherHit : FirstHit F node items otherBefore other otherAfter) :
    otherBefore = before ∧ other = item := by
  obtain ⟨split, _, isHit, missed⟩ := hit
  obtain ⟨otherSplit, _, isOther, otherMissed⟩ := otherHit
  rw [split] at otherSplit
  rcases List.append_eq_append_iff.mp otherSplit with
    ⟨gap, isBefore, isBehind⟩ | ⟨gap, isBefore, isBehind⟩
  · cases gap with
    | nil =>
        rw [List.append_nil] at isBefore
        rw [List.nil_append] at isBehind
        exact ⟨isBefore, (List.cons.inj isBehind).1.symm⟩
    | cons x gap =>
        have same : item = x := (List.cons.inj isBehind).1
        exact absurd (otherMissed x (isBefore ▸ List.mem_append_right _ List.mem_cons_self))
          (not_with_and_without (same ▸ isHit))
  · cases gap with
    | nil =>
        rw [List.append_nil] at isBefore
        rw [List.nil_append] at isBehind
        exact ⟨isBefore.symm, (List.cons.inj isBehind).1⟩
    | cons x gap =>
        have same : other = x := (List.cons.inj isBehind).1
        exact absurd (missed x (isBefore ▸ List.mem_append_right _ List.mem_cons_self))
          (not_with_and_without (same ▸ isOther))

/-- Where the node is in the documented list, the loop has a first hit among well-formed items. -/
theorem first_hit_of_contains (small : SmallNodes nodes) (contain : NodesContain nodes node) :
    ∃ before item after, FirstHit F node (nodes.splitOn colon) before item after ∧
      ¬LacksBound item ∧ ∀ x ∈ before, ¬LacksBound x := by
  obtain ⟨before, item, after, split, ⟨first, last, isRange, contains⟩, wellFormed⟩ := contain
  have inList : ∀ x ∈ before ++ [item], x ∈ nodes.splitOn colon ∧ WellFormed x := by
    intro x member
    rcases List.mem_append.mp member with inBefore | isItem
    · exact ⟨split ▸ List.mem_append_left _ inBefore, wellFormed x inBefore⟩
    · rw [List.mem_singleton.mp isItem]
      exact ⟨split ▸ List.mem_append_right _ List.mem_cons_self, first, last, isRange⟩
  have hit : ReadsWith F node item := by
    have member := (inList item (List.mem_append_right _ List.mem_cons_self)).1
    obtain ⟨firstSmall, lastSmall⟩ := small item member first last isRange
    exact ⟨first, last, read_range_well_formed isRange firstSmall lastSmall, contains⟩
  obtain ⟨front, found, back, cut, isHit, missed⟩ := first_with_node hit fun x member =>
    reads_of_well_formed small (inList x (List.mem_append_left _ member)).1 (wellFormed x member)
  have bounds : ∀ x ∈ front ++ found :: back, ¬LacksBound x := fun x member =>
    well_formed_bounds (inList x (cut ▸ member)).2
  have foundBounds := bounds found (List.mem_append_right _ List.mem_cons_self)
  refine ⟨front, found, back ++ after, ⟨?_, ?_, isHit, missed⟩, foundBounds, fun x member =>
    bounds x (List.mem_append_left _ member)⟩
  · rw [split, ← List.cons_append, ← List.append_assoc, ← cut, List.append_assoc]
    rfl
  · rintro _ isEmpty
    exact foundBounds (.inl (List.cons.inj isEmpty).1)

/-- Without a missing bound the first hit is one of the documented list. -/
theorem contains_of_first_hit (small : SmallNodes nodes)
    (hit : FirstHit F node (nodes.splitOn colon) before item after)
    (itemBounds : ¬LacksBound item) (bounds : ∀ x ∈ before, ¬LacksBound x) :
    NodesContain nodes node := by
  obtain ⟨split, _, ⟨first, last, read, contains⟩, missed⟩ := hit
  have member : item ∈ nodes.splitOn colon :=
    split ▸ List.mem_append_right _ List.mem_cons_self
  obtain ⟨start, stop, isRange⟩ := well_formed_of_read read itemBounds
  obtain ⟨startSmall, stopSmall⟩ := small item member start stop isRange
  have again := read_range_well_formed (F := F) isRange startSmall stopSmall
  rw [read] at again
  cases again
  refine ⟨before, item, after, split, ⟨first, last, isRange, contains⟩, fun x inBefore => ?_⟩
  obtain ⟨_, _, readBefore, _⟩ := missed x inBefore
  exact well_formed_of_read readBefore (bounds x inBefore)

theorem nodes_allow_documented_iff (small : SmallNodes nodes) :
    (nodesAllow F node nodes = true ↔ NodesContain nodes node) ↔ NoBoundMissing F node nodes := by
  constructor
  · intro agree before item after hit
    have allowed := (nodes_allow_iff nodes).mpr ⟨before, item, after, hit⟩
    obtain ⟨_, _, _, first, itemBounds, bounds⟩ :=
      first_hit_of_contains (F := F) small (agree.mp allowed)
    obtain ⟨rfl, rfl⟩ := hit.unique first
    exact ⟨itemBounds, bounds⟩
  · intro complete
    constructor
    · intro allowed
      obtain ⟨before, item, after, hit⟩ := (nodes_allow_iff nodes).mp allowed
      obtain ⟨itemBounds, bounds⟩ := complete before item after hit
      exact contains_of_first_hit small hit itemBounds bounds
    · intro contain
      obtain ⟨before, item, after, hit, _⟩ := first_hit_of_contains (F := F) small contain
      exact (nodes_allow_iff nodes).mpr ⟨before, item, after, hit⟩

/-- The answer for a module is the documented one exactly when there is no attribute, or no item
up to the first one that is read as a range with the node lacks a bound. -/
theorem is_for_node_documented_iff {W : Wordsize} {bytes : Bytes} {fuel kvs : Nat}
    (found : findAttr W bytes fuel kvs nodesKey = .ok nodes) (small : SmallNodes nodes) :
    ∃ answer, isForNode W F bytes fuel kvs node = .ok answer ∧
      ((answer = true ↔ nodes = [] ∨ NodesContain nodes node) ↔
        nodes = [] ∨ NoBoundMissing F node nodes) := by
  by_cases isEmpty : nodes = []
  · refine ⟨true, ?_, ?_⟩
    · rw [isForNode, found]
      exact if_pos isEmpty
    · simp [isEmpty]
  · refine ⟨nodesAllow F node nodes, ?_, ?_⟩
    · rw [isForNode, found]
      exact if_neg isEmpty
    · simp only [isEmpty, false_or]
      exact nodes_allow_documented_iff small

end

/-- The parser that leaves 0 without a digit. -/
def fromDec : FromDec where
  run text := ((digits 10 text).length, numeral 10 (digits 10 text) % 2 ^ 32)
  length_eq _ := rfl
  value_eq _ _ small := Nat.mod_eq_of_lt small

/-- The numbers of an item of at most nine bytes are small. -/
theorem range_of_short {item : List UInt8} {first last : Nat} (isRange : RangeOf item first last)
    (short : item.length ≤ 9) : first < 2 ^ 32 ∧ last < 2 ^ 32 := by
  have bound : ∀ ds : List UInt8, AllDigits ds → ds.length ≤ 9 → numeral 10 ds < 2 ^ 32 := by
    intro ds all fewer
    have power : 10 ^ ds.length ≤ 10 ^ 9 := Nat.pow_le_pow_right (by decide) fewer
    exact (numeral_lt all).trans (power.trans_lt (by decide))
  cases isRange with
  | number _ all => exact ⟨bound _ all short, bound _ all short⟩
  | range _ firstAll _ lastAll =>
      rw [List.length_append, List.length_cons] at short
      exact ⟨bound _ firstAll (by omega), bound _ lastAll (by omega)⟩

/-- The attributes `nodes=0:2-3` and `nodes=-3`. -/
def colonList : List UInt8 := [0x30, 0x3a, 0x32, 0x2d, 0x33]
def openRange : List UInt8 := [0x2d, 0x33]

def colonAttrs : List EncodedAttr :=
  [⟨0x80, nodesKey, colonList, .refl true, by decide, by decide, by decide, by decide⟩]

def colonMemory : Bytes := writeList 0x1000 (encodeAttrs colonAttrs 0) fun _ => 0

/-- The node is in the second item. -/
theorem is_for_node_colon_list :
    ∃ answer, isForNode .w64 fromDec colonMemory 1 0x1000 3 = .ok answer ∧
      ((answer = true ↔ colonList = [] ∨ NodesContain colonList 3) ↔
        colonList = [] ∨ NoBoundMissing fromDec 3 colonList) := by
  have found : findAttr .w64 colonMemory colonAttrs.length 0x1000 nodesKey = .ok colonList :=
    find_attr_encoded holds_write_list (by decide) (by decide) nodesKey
  have items : colonList.splitOn colon = [[0x30], [0x32, 0x2d, 0x33]] := by decide
  refine is_for_node_documented_iff found fun item member first last isRange => ?_
  rw [items] at member
  have short : ∀ item ∈ ([[0x30], [0x32, 0x2d, 0x33]] : List (List UInt8)), item.length ≤ 9 := by
    decide
  exact range_of_short isRange (short item member)

def openAttrs : List EncodedAttr :=
  [⟨0x80, nodesKey, openRange, .refl true, by decide, by decide, by decide, by decide⟩]

def openRangeMemory : Bytes := writeList 0x1000 (encodeAttrs openAttrs 0) fun _ => 0

/-- The range without a first number is taken to start with 0. -/
theorem is_for_node_open_range :
    isForNode .w64 fromDec openRangeMemory 1 0x1000 2 = .ok true ∧
      ¬(openRange = [] ∨ NodesContain openRange 2) := by
  have found : findAttr .w64 openRangeMemory openAttrs.length 0x1000 nodesKey = .ok openRange :=
    find_attr_encoded holds_write_list (by decide) (by decide) nodesKey
  constructor
  · have allowed : nodesAllow fromDec 2 openRange = true :=
      (nodes_allow_iff _).mpr ⟨[], openRange, [], rfl, fun absurdity => absurd rfl absurdity,
        ⟨0, 3, by decide, by decide⟩, fun x member => absurd member List.not_mem_nil⟩
    rw [isForNode]
    change (findAttr .w64 openRangeMemory openAttrs.length 0x1000 nodesKey >>= _) = _
    rw [found]
    exact congrArg Except.ok allowed
  · rintro (isEmpty | ⟨before, item, after, split, ⟨first, last, isRange, _⟩, _⟩)
    · cases isEmpty
    · have single : openRange.splitOn colon = [openRange] := rfl
      have member : item ∈ openRange.splitOn colon :=
        split ▸ List.mem_append_right _ List.mem_cons_self
      rw [single, List.mem_singleton] at member
      apply well_formed_bounds ⟨first, last, isRange⟩
      exact .inr ⟨[], [0x33], member, fun c inFirst => absurd inFirst List.not_mem_nil,
        fun c inLast => by rw [List.mem_singleton.mp inLast]; decide, .inl rfl⟩

end L4Bootstrap
