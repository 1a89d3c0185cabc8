import L4Bootstrap.Dt.Fdt
import L4Bootstrap.Lib.Preorder

/-!
# The cache of parents

`Dt::Parent_cache` and `Dt::Node::parent_node` of `dt.h`. The scan of the tree keeps
the nodes on the way to the current one in a stack, whose first place is never
written: libfdt counts the depth from 1 on. A parent that is not in the cache is
asked of libfdt.
-/

set_option autoImplicit false

open CheckedLoop PreorderWalk

namespace L4Bootstrap.Dt

structure CacheElem where
  node : Int
  parent : Int
  deriving DecidableEq, Repr

def maxNumElems : Nat := 1024

def stackLen : Nat := 16

structure ScanState where
  cache : List CacheElem
  parentStack : Nat → Int

/-- What `scan` does with one node while the cache is not full. -/
def scanNode (s : ScanState) (node : Int) (depth : Nat) : ScanState :=
  let parent := if 0 < depth ∧ depth ≤ stackLen then s.parentStack (depth - 1) else -1
  if depth < stackLen then
    { cache := s.cache ++ [⟨node, parent⟩]
      parentStack := fun level => if level = depth then node else s.parentStack level }
  else s

/-- `scan` with the stack as it finds it. -/
def scan (s : ScanState) : List (Int × Nat) → ScanState
  | [] => s
  | (node, depth) :: rest =>
      if s.cache.length < maxNumElems then scan (scanNode s node depth) rest else s

/-- One round of the search between `min` and `max`. -/
def getParentRound (cache : List CacheElem) (node : Int) (s : Int × Int) :
    Checked (Round (Int × Int) Int) :=
  if s.1 ≤ s.2 then
    let idx := s.1 + (s.2 - s.1) / 2
    match cache[idx.toNat]? with
    | none => .error .outOfBounds
    | some elem =>
        if elem.node = node then .ok (.leave elem.parent)
        else if node < elem.node then .ok (.again (s.1, idx - 1))
        else .ok (.again (idx + 1, s.2))
  else .ok (.leave (-1))

def getParent (cache : List CacheElem) (node : Int) : Checked Int :=
  loop (getParentRound cache node) .diverges (cache.length + 1) (0, (cache.length : Int) - 1)

end L4Bootstrap.Dt

namespace L4Bootstrap

open Dt

/-- `_fdt` and `_parent_cache`. -/
structure Dt where
  fdt : Fdt
  parentCache : List CacheElem

namespace Dt

/-- `Dt::init` with what the stack of `scan` holds before. -/
def init (fdt : Fdt) (garbage : Nat → Int) : Dt where
  fdt := fdt
  parentCache := (scan ⟨[], garbage⟩ fdt.walk).cache

def parentNode (dt : Dt) (node : Int) : Checked Int := do
  let parent ← getParent dt.parentCache node
  .ok (if parent = -1 then dt.fdt.parentOffset node else parent)

/-- How libfdt goes through a tree: in preorder, with increasing offsets from the root
at 0 on; and what it answers for the parent of a node. -/
structure Fdt.Documented (fdt : Fdt) : Prop where
  root : ∃ rest, fdt.walk = (0, 1) :: rest
  nested : Nested fdt.walk
  increasing : fdt.walk.Pairwise fun x y => x.1 < y.1
  parentOffset : ∀ node parent, IsParent fdt.walk node parent → fdt.parentOffset node = parent

/-! ## The search -/

/-- The entries are sorted by their nodes. -/
def Sorted (cache : List CacheElem) : Prop := cache.Pairwise fun x y => x.node < y.node

def Answers (cache : List CacheElem) (node parent : Int) : Prop :=
  (∃ elem ∈ cache, elem.node = node ∧ elem.parent = parent) ∨
    (∀ elem ∈ cache, elem.node ≠ node) ∧ parent = -1

/-- What the search knows: everything below `min` is too small, everything above `max`
too large. -/
structure Bounds (cache : List CacheElem) (node : Int) (s : Int × Int) : Prop where
  nonneg : 0 ≤ s.1
  last : s.2 < cache.length
  small : ∀ i (inside : i < cache.length), (i : Int) < s.1 → cache[i].node < node
  large : ∀ i (inside : i < cache.length), s.2 < i → node < cache[i].node

section

variable {cache : List CacheElem} {node : Int}

theorem sorted_lt (sorted : Sorted cache) {i j : Nat} (less : i < j) (inside : j < cache.length) :
    cache[i].node < cache[j].node :=
  List.pairwise_iff_getElem.mp sorted i j (by omega) inside less

theorem get_parent_round (sorted : Sorted cache) {s : Int × Int} (bounds : Bounds cache node s) :
    (∃ parent, getParentRound cache node s = .ok (.leave parent) ∧ Answers cache node parent) ∨
      ∃ next, getParentRound cache node s = .ok (.again next) ∧ Bounds cache node next ∧
        (next.2 + 1 - next.1).toNat < (s.2 + 1 - s.1).toNat := by
  obtain ⟨min, max⟩ := s
  obtain ⟨nonneg, last, small, large⟩ := bounds
  simp only at nonneg last small large
  by_cases more : min ≤ max
  · obtain ⟨idx, isIdx⟩ : ∃ idx : Nat, (idx : Int) = min + (max - min) / 2 :=
      ⟨(min + (max - min) / 2).toNat, Int.toNat_of_nonneg (by omega)⟩
    have inside : idx < cache.length := by omega
    have round : getParentRound cache node (min, max) =
        if cache[idx].node = node then .ok (.leave cache[idx].parent)
        else if node < cache[idx].node then .ok (.again (min, (idx : Int) - 1))
        else .ok (.again ((idx : Int) + 1, max)) := by
      simp only [getParentRound, if_pos more, ← isIdx, Int.toNat_natCast,
        List.getElem?_eq_getElem inside]
    rw [round]
    split_ifs with found less
    · exact .inl ⟨_, rfl, .inl ⟨cache[idx], List.getElem_mem inside, found, rfl⟩⟩
    · refine .inr ⟨_, rfl, ⟨nonneg, by simp only; omega, small, ?_⟩, by simp only; omega⟩
      intro i iInside behind
      rcases Nat.lt_or_ge idx i with later | same
      · exact less.trans (sorted_lt sorted later iInside)
      · have isSame : i = idx := by
          simp only at behind
          omega
        subst isSame
        exact less
    · refine .inr ⟨_, rfl, ⟨by simp only; omega, last, ?_, large⟩, by simp only; omega⟩
      intro i iInside before
      have smaller : cache[idx].node < node := by omega
      rcases Nat.lt_or_ge i idx with earlier | same
      · exact (sorted_lt sorted earlier inside).trans smaller
      · have isSame : i = idx := by
          simp only at before
          omega
        subst isSame
        exact smaller
  · refine .inl ⟨-1, by rw [getParentRound, if_neg more], .inr ⟨?_, rfl⟩⟩
    intro elem member
    obtain ⟨i, inside, rfl⟩ := List.getElem_of_mem member
    rcases lt_or_ge (i : Int) min with before | behind
    · exact (small i inside before).ne
    · exact (large i inside (by omega)).ne'

variable (node) in
theorem get_parent_answers (sorted : Sorted cache) :
    ∃ parent, getParent cache node = .ok parent ∧ Answers cache node parent := by
  refine loop_total (getParentRound cache node) .diverges (Bounds cache node)
    (Answers cache node) (fun s => (s.2 + 1 - s.1).toNat) (fun s => get_parent_round sorted)
    ⟨le_rfl, by simp only; omega, ?_, ?_⟩ (by simp only; omega)
  · intro i inside before
    simp only at before
    omega
  · intro i inside behind
    simp only at behind
    omega

end

/-! ## The scan -/

/-- What the scan has made of the part `front` of the walk. -/
structure Scanned (walk front : List (Int × Nat)) (s : ScanState) : Prop where
  parents : ∀ elem ∈ s.cache, ∀ parent, IsParent walk elem.node parent → elem.parent = parent
  stack : ∀ level < stackLen, ∀ node, lastAt front level = some node → s.parentStack level = node
  order : (s.cache.map CacheElem.node).Sublist (front.map Prod.fst)

section

variable {walk : List (Int × Nat)}

theorem scan_node_scanned (nodup : (walk.map Prod.fst).Nodup) {front rest : List (Int × Nat)}
    {node : Int} {depth : Nat} (split : walk = front ++ (node, depth) :: rest) {s : ScanState}
    (scanned : Scanned walk front s) :
    Scanned walk (front ++ [(node, depth)]) (scanNode s node depth) := by
  have names : (front ++ [(node, depth)]).map Prod.fst = front.map Prod.fst ++ [node] := by simp
  by_cases shallow : depth < stackLen
  · rw [scanNode, if_pos shallow]
    refine ⟨?_, ?_, ?_⟩
    · intro elem member parent isParent
      rcases List.mem_append.mp member with old | new
      · exact scanned.parents elem old parent isParent
      · rw [List.mem_singleton] at new
        subst new
        obtain ⟨front', depth', back, split', deep, isLast⟩ := isParent
        obtain ⟨rfl, rfl⟩ := split_unique (split ▸ nodup) (split.symm.trans split')
        have inStack : 0 < depth ∧ depth ≤ stackLen := ⟨by omega, by omega⟩
        simp only [if_pos inStack]
        exact scanned.stack _ (by omega) parent isLast
    · intro level inStack last isLast
      rw [last_at_append] at isLast
      by_cases same : depth = level
      · rw [if_pos same] at isLast
        simp only [same, if_true]
        exact Option.some.inj isLast
      · rw [if_neg same] at isLast
        simp only [if_neg (Ne.symm same)]
        exact scanned.stack level inStack last isLast
    · rw [names]
      simpa using scanned.order.append (List.Sublist.refl [node])
  · rw [scanNode, if_neg shallow]
    refine ⟨scanned.parents, ?_, ?_⟩
    · intro level inStack last isLast
      rw [last_at_append, if_neg (by simp only; omega)] at isLast
      exact scanned.stack level inStack last isLast
    · rw [names]
      exact scanned.order.trans (List.sublist_append_left _ _)

theorem scan_scanned (nodup : (walk.map Prod.fst).Nodup) {rest : List (Int × Nat)}
    {front : List (Int × Nat)} (split : walk = front ++ rest) {s : ScanState}
    (scanned : Scanned walk front s) : ∃ seen, seen <+: walk ∧ Scanned walk seen (scan s rest) := by
  induction rest generalizing front s with
  | nil => exact ⟨front, ⟨[], split.symm⟩, scanned⟩
  | cons x rest ih =>
      obtain ⟨node, depth⟩ := x
      rw [scan]
      split_ifs
      · exact ih (by simpa using split) (scan_node_scanned nodup split scanned)
      · exact ⟨front, ⟨_, split.symm⟩, scanned⟩

/-- The cache holds the first nodes that are not too deep. -/
theorem scan_nodes (rest : List (Int × Nat)) {s : ScanState}
    (fits : s.cache.length ≤ maxNumElems) :
    (scan s rest).cache.map CacheElem.node =
      (s.cache.map CacheElem.node ++
        (rest.filter fun x => x.2 < stackLen).map Prod.fst).take maxNumElems := by
  have old : (s.cache.map CacheElem.node).length = s.cache.length := List.length_map _
  induction rest generalizing s with
  | nil => rw [scan, List.filter_nil, List.map_nil, List.append_nil, List.take_of_length_le (by omega)]
  | cons x rest ih =>
      obtain ⟨node, depth⟩ := x
      rw [scan]
      split_ifs with room
      · by_cases shallow : depth < stackLen
        · have entered : (scanNode s node depth).cache.map CacheElem.node =
              s.cache.map CacheElem.node ++ [node] := by
            rw [scanNode, if_pos shallow, List.map_append]
            rfl
          have longer : (scanNode s node depth).cache.length = s.cache.length + 1 := by
            rw [← List.length_map CacheElem.node, entered, List.length_append, old]
            rfl
          rw [ih (by omega) (List.length_map _), entered, List.append_assoc,
            List.filter_cons_of_pos (by simpa using shallow)]
          rfl
        · rw [scanNode, if_neg shallow, ih fits old,
            List.filter_cons_of_neg (by simpa using shallow)]
      · rw [List.take_append_of_le_length (by omega), List.take_of_length_le (by omega)]

theorem walk_nodup (increasing : walk.Pairwise fun x y => x.1 < y.1) :
    (walk.map Prod.fst).Nodup := by
  rw [List.nodup_iff_pairwise_ne, List.pairwise_map]
  exact increasing.imp fun less => less.ne

theorem scan_walk (increasing : walk.Pairwise fun x y => x.1 < y.1) (garbage : Nat → Int) :
    (∀ elem ∈ (scan ⟨[], garbage⟩ walk).cache, ∀ parent, IsParent walk elem.node parent →
      elem.parent = parent) ∧ Sorted (scan ⟨[], garbage⟩ walk).cache := by
  have start : Scanned walk [] ⟨[], garbage⟩ := ⟨by simp, by simp [lastAt], by simp⟩
  obtain ⟨seen, isPrefix, scanned⟩ := scan_scanned (walk_nodup increasing) rfl start
  refine ⟨scanned.parents, ?_⟩
  have nodes : (walk.map Prod.fst).Pairwise (· < ·) := List.pairwise_map.mpr increasing
  have sublist := scanned.order.trans (isPrefix.sublist.map Prod.fst)
  exact List.pairwise_map.mp (nodes.sublist sublist)

/-- What the search answers for a node with a parent. -/
theorem get_parent_of_child (increasing : walk.Pairwise fun x y => x.1 < y.1)
    (garbage : Nat → Int) {node parent : Int} (isParent : IsParent walk node parent) :
    getParent (scan ⟨[], garbage⟩ walk).cache node =
      .ok (if node ∈ (scan ⟨[], garbage⟩ walk).cache.map CacheElem.node then parent else -1) := by
  obtain ⟨parents, sorted⟩ := scan_walk increasing garbage
  obtain ⟨answer, found, answers⟩ := get_parent_answers node sorted
  rw [found]
  rcases answers with ⟨elem, member, rfl, rfl⟩ | ⟨absent, rfl⟩
  · rw [if_pos (List.mem_map_of_mem member), parents elem member parent isParent]
  · rw [if_neg]
    rintro cached
    obtain ⟨elem, member, same⟩ := List.mem_map.mp cached
    exact absent elem member same

/-- The cache after a scan: sorted, and searching it gives a node's parent, or -1 for a node
that is not in it. libfdt numbers the depths from 1 on, the depth of the root. -/
theorem parent_cache_correct (nested : Nested walk)
    (increasing : walk.Pairwise fun x y => x.1 < y.1) (garbage : Nat → Int) :
    Sorted (scan ⟨[], garbage⟩ walk).cache ∧
      (∀ node, ∃ answer, getParent (scan ⟨[], garbage⟩ walk).cache node = .ok answer) ∧
      ∀ x ∈ walk, walk.head? ≠ some x → ∃ parent, IsParent walk x.1 parent ∧
        (getParent (scan ⟨[], garbage⟩ walk).cache x.1 = .ok (-1) ∨
          getParent (scan ⟨[], garbage⟩ walk).cache x.1 = .ok parent) ∧
        (x ∈ (walk.filter fun y => y.2 < stackLen).take maxNumElems →
          getParent (scan ⟨[], garbage⟩ walk).cache x.1 = .ok parent) := by
  have sorted := (scan_walk increasing garbage).2
  refine ⟨sorted, ?_, ?_⟩
  · intro node
    obtain ⟨answer, found, _⟩ := get_parent_answers node sorted
    exact ⟨answer, found⟩
  · intro x member notRoot
    obtain ⟨parent, isParent, _⟩ := (nested.root_or_parent member).resolve_left notRoot
    have answer := get_parent_of_child increasing garbage isParent
    refine ⟨parent, isParent, ?_, ?_⟩
    · rw [answer]
      split_ifs
      · exact .inr rfl
      · exact .inl rfl
    · intro early
      have nodes := scan_nodes walk (s := ⟨[], garbage⟩) (Nat.zero_le maxNumElems)
      rw [List.map_nil, List.nil_append, ← List.map_take] at nodes
      rw [answer, if_pos]
      rw [nodes]
      exact List.mem_map_of_mem early

end

/-- The root with two children, the first of which has a child. -/
def smallWalk : List (Int × Nat) := [(0, 1), (8, 2), (20, 3), (36, 2)]

theorem parent_cache_correct_small_walk :
    getParent (scan ⟨[], fun _ => 7⟩ smallWalk).cache 36 = .ok 0 := by
  have nested : Nested smallWalk := ⟨by decide, by decide⟩
  have increasing : smallWalk.Pairwise fun x y => x.1 < y.1 := by decide
  obtain ⟨_, _, answers⟩ := parent_cache_correct nested increasing fun _ => 7
  obtain ⟨parent, isParent, _, found⟩ := answers (36, 2) (by decide) (by decide)
  have isRoot : IsParent smallWalk 36 0 := ⟨[(0, 1), (8, 2), (20, 3)], 2, [], rfl, le_rfl, rfl⟩
  rw [found (by decide), is_parent_unique (walk_nodup increasing) isParent isRoot]

section

variable {fdt : Fdt}

theorem Fdt.Documented.nodup (documented : fdt.Documented) : (fdt.walk.map Prod.fst).Nodup :=
  walk_nodup documented.increasing

theorem Fdt.Documented.nonneg (documented : fdt.Documented) {x : Int × Nat} (member : x ∈ fdt.walk) :
    0 ≤ x.1 := by
  obtain ⟨rest, isWalk⟩ := documented.root
  have increasing := documented.increasing
  rw [isWalk] at member increasing
  rcases List.mem_cons.mp member with rfl | later
  · exact le_rfl
  · exact ((List.pairwise_cons.mp increasing).1 x later).le

/-- The parent of a node, from the cache or from libfdt. -/
theorem parent_node_eq (documented : fdt.Documented) (garbage : Nat → Int) {node parent : Int}
    (isParent : IsParent fdt.walk node parent) :
    (init fdt garbage).parentNode node = .ok parent := by
  obtain ⟨depth, _, inWalk⟩ := isParent.mem
  have nonneg : 0 ≤ parent := documented.nonneg inWalk
  have fallback : fdt.parentOffset node = parent := documented.parentOffset node parent isParent
  have answer : getParent (init fdt garbage).parentCache node = _ :=
    get_parent_of_child documented.increasing garbage isParent
  rw [parentNode, answer, ok_bind]
  split_ifs with cached minus minus
  · omega
  · rfl
  · exact congrArg Except.ok fallback
  · exact absurd rfl minus

end

end Dt

end L4Bootstrap
