import Mathlib.Data.List.Basic
import Mathlib.Data.List.Chain
import Mathlib.Data.List.Nodup
import Mathlib.Order.Basic

/-!
# Trees in preorder

A tree is listed in preorder as keys with their depths. The parent of an entry is
the last one before it that lies one level higher.
-/

namespace PreorderWalk

set_option autoImplicit false

variable {κ : Type}

/-- The last entry of a given depth. -/
def lastAt (front : List (κ × Nat)) (depth : Nat) : Option κ :=
  (front.reverse.find? fun x => x.2 = depth).map Prod.fst

def IsParent (walk : List (κ × Nat)) (key parent : κ) : Prop :=
  ∃ front depth back, walk = front ++ (key, depth) :: back ∧ 2 ≤ depth ∧
    lastAt front (depth - 1) = some parent

/-- The root comes first, and an entry is at most one level below the one before it. -/
structure Nested (walk : List (κ × Nat)) : Prop where
  root : ∀ x ∈ walk.head?, x.2 = 1
  below : walk.IsChain fun x y => 2 ≤ y.2 ∧ y.2 ≤ x.2 + 1

theorem last_at_append (front : List (κ × Nat)) (x : κ × Nat) (depth : Nat) :
    lastAt (front ++ [x]) depth = if x.2 = depth then some x.1 else lastAt front depth := by
  unfold lastAt
  rw [List.reverse_append, List.reverse_singleton, List.singleton_append, List.find?_cons]
  by_cases same : x.2 = depth <;> simp [same]

theorem last_at_mem {front : List (κ × Nat)} {depth : Nat} {key : κ}
    (isLast : lastAt front depth = some key) : (key, depth) ∈ front := by
  obtain ⟨x, found, rfl⟩ := Option.map_eq_some_iff.mp isLast
  have member := List.mem_of_find?_eq_some found
  have same := List.find?_some found
  simp only [decide_eq_true_eq] at same
  subst same
  simpa using member

theorem exists_last_at {front : List (κ × Nat)} {x : κ × Nat} (member : x ∈ front) :
    ∃ key, lastAt front x.2 = some key := by
  have found : (front.reverse.find? fun y => decide (y.2 = x.2)).isSome := by
    rw [List.find?_isSome]
    exact ⟨x, by simpa using member, by simp⟩
  obtain ⟨y, isFound⟩ := Option.isSome_iff_exists.mp found
  exact ⟨y.1, by rw [lastAt, isFound]; rfl⟩

/-- Going down by at most one level at a time meets every depth in between. -/
theorem exists_depth {x : κ × Nat} {rest : List (κ × Nat)}
    (chain : (x :: rest).IsChain fun x y => y.2 ≤ x.2 + 1) {depth : Nat} (above : x.2 ≤ depth)
    (below : depth ≤ ((x :: rest).getLast (by simp)).2) : ∃ y ∈ x :: rest, y.2 = depth := by
  induction rest generalizing x with
  | nil => exact ⟨x, by simp, Nat.le_antisymm above below⟩
  | cons y rest ih =>
      rcases Nat.eq_or_lt_of_le above with same | deeper
      · exact ⟨x, by simp, same⟩
      · rw [List.isChain_cons_cons] at chain
        rw [List.getLast_cons (by simp)] at below
        obtain ⟨z, member, isDepth⟩ := ih chain.2 (by omega) below
        exact ⟨z, List.mem_cons_of_mem x member, isDepth⟩

section

variable {walk : List (κ × Nat)}

theorem Nested.depth_pos (nested : Nested walk) {x : κ × Nat} (member : x ∈ walk) : 1 ≤ x.2 := by
  obtain ⟨front, back, rfl⟩ := List.append_of_mem member
  rcases List.eq_nil_or_concat front with rfl | ⟨earlier, last, rfl⟩
  · have := nested.root x (by simp)
    omega
  · have below := nested.below
    simp only [List.concat_eq_append, List.append_assoc, List.singleton_append] at below
    have step := (List.isChain_append.mp below).2.1
    rw [List.isChain_cons_cons] at step
    omega

theorem Nested.exists_parent (nested : Nested walk) {front back : List (κ × Nat)}
    {x : κ × Nat} (split : walk = front ++ x :: back) (later : front ≠ []) :
    ∃ parent, IsParent walk x.1 parent ∧ (parent, x.2 - 1) ∈ front := by
  have below := nested.below
  rw [split] at below
  obtain ⟨frontChain, _, step⟩ := List.isChain_append.mp below
  obtain ⟨deep, near⟩ := step _ (List.getLast?_eq_some_getLast later) x (by simp)
  obtain ⟨first, rest, rfl⟩ := List.exists_cons_of_ne_nil later
  have isRoot : first.2 = 1 := nested.root first (by simp [split])
  obtain ⟨y, member, isDepth⟩ := exists_depth (frontChain.imp fun _ _ steps => steps.2)
    (show first.2 ≤ x.2 - 1 by omega) (by omega)
  obtain ⟨parent, isLast⟩ := exists_last_at member
  rw [isDepth] at isLast
  exact ⟨parent, ⟨first :: rest, x.2, back, split, deep, isLast⟩, last_at_mem isLast⟩

theorem depth_le_of_chain {x : κ × Nat} {rest : List (κ × Nat)}
    (chain : (x :: rest).IsChain fun x y => y.2 ≤ x.2 + 1) {y : κ × Nat} (member : y ∈ x :: rest) :
    y.2 ≤ x.2 + rest.length := by
  induction rest generalizing x with
  | nil =>
      rw [List.mem_singleton.mp member]
      exact Nat.le_add_right _ _
  | cons z rest ih =>
      rw [List.isChain_cons_cons] at chain
      rcases List.mem_cons.mp member with rfl | later
      · exact Nat.le_add_right _ _
      · have := ih chain.2 later
        rw [List.length_cons]
        omega

/-- No entry lies deeper than there are entries. -/
theorem Nested.depth_le (nested : Nested walk) {x : κ × Nat} (member : x ∈ walk) :
    x.2 ≤ walk.length := by
  obtain ⟨first, rest, rfl⟩ := List.exists_cons_of_ne_nil (List.ne_nil_of_mem member)
  have isRoot : first.2 = 1 := nested.root first (by simp)
  have bound := depth_le_of_chain (nested.below.imp fun _ _ steps => steps.2) member
  rw [List.length_cons]
  omega

theorem depth_unique (nodup : (walk.map Prod.fst).Nodup) {key : κ} {depth level : Nat}
    (first : (key, depth) ∈ walk) (second : (key, level) ∈ walk) : depth = level := by
  have same : (key, depth) = (key, level) := List.inj_on_of_nodup_map nodup first second rfl
  exact congrArg Prod.snd same

/-- Only the root has no parent. -/
theorem Nested.root_or_parent (nested : Nested walk) {x : κ × Nat} (member : x ∈ walk) :
    walk.head? = some x ∨ ∃ parent, IsParent walk x.1 parent ∧ (parent, x.2 - 1) ∈ walk := by
  obtain ⟨front, back, split⟩ := List.append_of_mem member
  by_cases first : front = []
  · subst first
    left
    rw [split]
    rfl
  · obtain ⟨parent, isParent, inFront⟩ := nested.exists_parent split first
    exact .inr ⟨parent, isParent, by rw [split]; exact List.mem_append_left _ inFront⟩

theorem split_unique {front other back rest : List (κ × Nat)} {key : κ} {depth level : Nat}
    (nodup : ((front ++ (key, depth) :: back).map Prod.fst).Nodup)
    (same : front ++ (key, depth) :: back = other ++ (key, level) :: rest) :
    front = other ∧ depth = level := by
  induction front generalizing other with
  | nil =>
      cases other with
      | nil =>
          simp only [List.nil_append, List.cons.injEq, Prod.mk.injEq, true_and] at same
          exact ⟨rfl, same.1⟩
      | cons x other =>
          simp only [List.nil_append, List.cons_append, List.cons.injEq] at same
          simp [same.2] at nodup
  | cons y front ih =>
      cases other with
      | nil =>
          simp only [List.nil_append, List.cons_append, List.cons.injEq] at same
          simp [same.1] at nodup
      | cons x other =>
          simp only [List.cons_append, List.cons.injEq] at same
          simp only [List.cons_append, List.map_cons, List.nodup_cons] at nodup
          obtain ⟨rfl, sameDepth⟩ := ih nodup.2 same.2
          exact ⟨by rw [same.1], sameDepth⟩

theorem is_parent_unique (nodup : (walk.map Prod.fst).Nodup) {key parent other : κ}
    (first : IsParent walk key parent) (second : IsParent walk key other) : parent = other := by
  obtain ⟨front, depth, back, split, _, isLast⟩ := first
  obtain ⟨front', depth', back', split', _, isLast'⟩ := second
  obtain ⟨rfl, rfl⟩ := split_unique (split ▸ nodup) (split.symm.trans split')
  rw [isLast, Option.some.injEq] at isLast'
  exact isLast'

theorem IsParent.mem {key parent : κ} (isParent : IsParent walk key parent) :
    ∃ depth, (key, depth + 1) ∈ walk ∧ (parent, depth) ∈ walk := by
  obtain ⟨front, depth, back, rfl, deep, isLast⟩ := isParent
  refine ⟨depth - 1, ?_, List.mem_append_left _ (last_at_mem isLast)⟩
  rw [Nat.sub_add_cancel (by omega)]
  simp

/-- In a walk with increasing keys a parent is smaller than its children. -/
theorem IsParent.lt [Preorder κ] (increasing : walk.Pairwise fun x y => x.1 < y.1) {key parent : κ}
    (isParent : IsParent walk key parent) : parent < key := by
  obtain ⟨front, depth, back, rfl, _, isLast⟩ := isParent
  exact (List.pairwise_append.mp increasing).2.2 _ (last_at_mem isLast) (key, depth) (by simp)

/-- What holds of the root and goes from parents to children holds everywhere. -/
theorem Nested.induction (nested : Nested walk) {P : κ → Prop}
    (root : ∀ x ∈ walk.head?, P x.1)
    (child : ∀ key parent, IsParent walk key parent → P parent → P key) {x : κ × Nat}
    (member : x ∈ walk) : P x.1 := by
  induction level : x.2 generalizing x with
  | zero =>
      have := nested.depth_pos member
      omega
  | succ level ih =>
      rcases nested.root_or_parent member with isRoot | ⟨parent, isParent, inWalk⟩
      · exact root x isRoot
      · exact child x.1 parent isParent (ih inWalk (by simp only; omega))

end

end PreorderWalk
