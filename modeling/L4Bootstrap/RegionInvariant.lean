import L4Bootstrap.Region
import Mathlib.Data.List.Basic

/-!
# The representation invariant of region lists

`add` looks at the last entry only, or compares with a single entry; `sub`
re-enters `add`, and `add` may run `optimize`. All these partial checks are
enough because the entries are kept in ascending order and pairwise disjoint:
`Ascending`, which every operation preserves.
-/

namespace L4Bootstrap

open MachineWord CheckedLoop

set_option autoImplicit false

variable {W : Wordsize}

/-- Every entry ends before each later one begins. -/
def Ascending (reg : List (Region W)) : Prop :=
  reg.Pairwise fun r o => r.last < o.begin

theorem ascending_cons {r : Region W} {reg : List (Region W)} :
    Ascending (r :: reg) ↔ (∀ o ∈ reg, r.last < o.begin) ∧ Ascending reg :=
  List.pairwise_cons

theorem ascending_append {front back : List (Region W)} :
    Ascending (front ++ back) ↔
      Ascending front ∧ Ascending back ∧ ∀ r ∈ front, ∀ o ∈ back, r.last < o.begin :=
  List.pairwise_append

theorem Ascending.sublist {part reg : List (Region W)} (ascending : Ascending reg)
    (sublist : part.Sublist reg) : Ascending part :=
  List.Pairwise.sublist sublist ascending

/-- Between the entries below a region and those above it there is room for it. -/
theorem ascending_insert {front back : List (Region W)} {r : Region W}
    (ascending : Ascending (front ++ back)) (below : ∀ o ∈ front, o.last < r.begin)
    (above : ∀ o ∈ back, r.last < o.begin) : Ascending (front ++ r :: back) := by
  obtain ⟨frontAscending, backAscending, across⟩ := ascending_append.mp ascending
  refine ascending_append.mpr ⟨frontAscending, ascending_cons.mpr ⟨above, backAscending⟩, ?_⟩
  intro o inFront p inBack
  rcases List.mem_cons.mp inBack with rfl | inBack
  · exact below o inFront
  · exact across o inFront p inBack

/-- An entry may be replaced by a part of itself. -/
theorem ascending_shrink {front back : List (Region W)} {c part : Region W}
    (ascending : Ascending (front ++ c :: back)) (begins : c.begin ≤ part.begin)
    (ends : part.last ≤ c.last) : Ascending (front ++ part :: back) := by
  obtain ⟨_, tail, across⟩ := ascending_append.mp ascending
  obtain ⟨above, _⟩ := ascending_cons.mp tail
  apply ascending_insert (ascending.sublist (by simp))
  · intro o inFront
    have := across o inFront c (by simp)
    omega
  · intro o inBack
    have := above o inBack
    omega

/-- The last entry of an ascending list ends highest. -/
theorem ascending_last_le {reg : List (Region W)} {last r : Region W}
    (ascending : Ascending reg) (isLast : reg.getLast? = some last) (member : r ∈ reg) :
    r.last ≤ last.last := by
  obtain ⟨front, rfl⟩ := List.getLast?_eq_some_iff.mp isLast
  rcases List.mem_append.mp member with inFront | same
  · have below := (ascending_append.mp ascending).2.2 r inFront last (by simp)
    have ordered := last.ordered
    omega
  · rw [List.mem_singleton.mp same]

namespace RegionList

/-! ## Insertion -/

/-- What the insertion loop does, whether or not overlaps are allowed. -/
theorem insert_from_ok {region : Region W} {mayOverlap : Bool} {reg result : List (Region W)}
    (inserted : insertFrom region mayOverlap reg = .ok result) :
    ∃ front back, reg = front ++ back ∧ result = front ++ region :: back ∧
      (∀ r ∈ front, r.last < region.begin) ∧
      ∀ r, back.head? = some r →
        region.begin ≤ r.last ∧ (mayOverlap = false → region.last < r.begin) := by
  induction reg generalizing result with
  | nil =>
      cases inserted
      exact ⟨[], [], rfl, rfl, by simp, by simp⟩
  | cons c rest ih =>
      rw [insertFrom] at inserted
      split_ifs at inserted with below overlap
      · obtain ⟨tail, tailInserted, same⟩ := bind_ok_iff.mp inserted
        cases same
        obtain ⟨front, back, rfl, rfl, frontBelow, backHead⟩ := ih tailInserted
        refine ⟨c :: front, back, rfl, rfl, ?_, backHead⟩
        intro r member
        rcases List.mem_cons.mp member with rfl | inFront
        · exact Region.before_iff.mp below
        · exact frontBelow r inFront
      · cases inserted
      · cases inserted
        refine ⟨[], c :: rest, rfl, rfl, by simp, ?_⟩
        intro r isHead
        simp only [List.head?_cons, Option.some.injEq] at isHead
        subst r
        simp only [Bool.not_eq_true, Region.before_eq_false_iff] at below
        refine ⟨below, ?_⟩
        intro strict
        simpa [strict] using overlap

/-- With permission to overlap the insertion never fails. -/
theorem insert_from_permitted (region : Region W) (reg : List (Region W)) :
    ∃ result, insertFrom region true reg = .ok result := by
  induction reg with
  | nil => exact ⟨[region], rfl⟩
  | cons r rest ih =>
      obtain ⟨tail, inserted⟩ := ih
      rw [insertFrom]
      split_ifs with below overlap
      · exact ⟨r :: tail, by rw [inserted, ok_bind]⟩
      · simp at overlap
      · exact ⟨region :: r :: rest, rfl⟩

theorem insert_permitted (region : Region W) (reg : List (Region W)) :
    ∃ result, insert reg region true = .ok result ∧ result.Perm (region :: reg) := by
  unfold insert
  cases isLast : reg.getLast? with
  | none =>
      rw [List.getLast?_eq_none_iff.mp isLast]
      exact ⟨[region], rfl, .refl _⟩
  | some last =>
      simp only
      split_ifs with behind
      · exact ⟨reg ++ [region], rfl, List.perm_append_comm⟩
      · obtain ⟨result, inserted⟩ := insert_from_permitted region reg
        obtain ⟨front, back, rfl, rfl, _⟩ := insert_from_ok inserted
        exact ⟨_, inserted, List.perm_middle⟩

theorem insert_from_disjoint {region : Region W} {reg : List (Region W)}
    (ascending : Ascending reg) (free : ∀ r ∈ reg, region.overlaps r = false) :
    ∃ front back, reg = front ++ back ∧
      insertFrom region false reg = .ok (front ++ region :: back) ∧
      (∀ r ∈ front, r.last < region.begin) ∧ ∀ r ∈ back, region.last < r.begin := by
  induction reg with
  | nil => exact ⟨[], [], rfl, rfl, by simp, by simp⟩
  | cons c rest ih =>
      obtain ⟨above, restAscending⟩ := ascending_cons.mp ascending
      rw [insertFrom]
      by_cases below : c.before region = true
      · obtain ⟨front, back, rfl, inserted, frontBelow, backAbove⟩ :=
          ih restAscending (fun r member => free r (by simp [member]))
        refine ⟨c :: front, back, rfl, ?_, ?_, backAbove⟩
        · rw [if_pos below, inserted, ok_bind, List.cons_append]
        · intro r member
          rcases List.mem_cons.mp member with rfl | inFront
          · exact Region.before_iff.mp below
          · exact frontBelow r inFront
      · have apart := Region.overlaps_eq_false_iff.mp (free c (by simp))
        have notBelow : region.begin ≤ c.last := by simpa using below
        have regionOrdered := region.ordered
        have cOrdered := c.ordered
        have regionBelow : region.last < c.begin := by omega
        refine ⟨[], c :: rest, rfl, ?_, by simp, ?_⟩
        · rw [if_neg below, if_neg (by simp [Region.before, regionBelow]), List.nil_append]
        · intro r member
          rcases List.mem_cons.mp member with rfl | inRest
          · exact regionBelow
          · have := above r inRest
            omega

/-- `insert` without permission to overlap finds the gap for a region that
overlaps no entry. -/
theorem insert_disjoint {region : Region W} {reg : List (Region W)} (ascending : Ascending reg)
    (free : ∀ r ∈ reg, region.overlaps r = false) :
    ∃ front back, reg = front ++ back ∧ insert reg region false = .ok (front ++ region :: back) ∧
      (∀ r ∈ front, r.last < region.begin) ∧ ∀ r ∈ back, region.last < r.begin := by
  unfold insert
  cases isLast : reg.getLast? with
  | none =>
      rw [List.getLast?_eq_none_iff] at isLast
      subst reg
      exact ⟨[], [], rfl, rfl, by simp, by simp⟩
  | some last =>
      simp only
      split_ifs with below
      · refine ⟨reg, [], by simp, rfl, ?_, by simp⟩
        intro r member
        have := ascending_last_le ascending isLast member
        have := Region.before_iff.mp below
        omega
      · exact insert_from_disjoint ascending free

theorem insert_from_overlap {region : Region W} {reg : List (Region W)}
    (ascending : Ascending reg) {o : Region W} (member : o ∈ reg)
    (overlap : region.overlaps o = true) :
    insertFrom region false reg = panic "Region overlap" := by
  induction reg with
  | nil => simp at member
  | cons c rest ih =>
      obtain ⟨above, restAscending⟩ := ascending_cons.mp ascending
      obtain ⟨begins, ends⟩ := Region.overlaps_iff.mp overlap
      rw [insertFrom]
      by_cases below : c.before region = true
      · have inRest : o ∈ rest := by
          rcases List.mem_cons.mp member with rfl | inRest
          · have := Region.before_iff.mp below
            omega
          · exact inRest
        rw [if_pos below, ih restAscending inRest]
        rfl
      · have cBegins : c.begin ≤ o.begin := by
          rcases List.mem_cons.mp member with rfl | inRest
          · exact le_rfl
          · have := above o inRest
            have := c.ordered
            omega
        have notAbove : region.before c = false := by
          rw [Region.before_eq_false_iff]
          omega
        rw [if_neg below, if_pos (by simp [notAbove])]

theorem insert_overlap {region : Region W} {reg : List (Region W)} (ascending : Ascending reg)
    {o : Region W} (member : o ∈ reg) (overlap : region.overlaps o = true) :
    insert reg region false = panic "Region overlap" := by
  unfold insert
  cases isLast : reg.getLast? with
  | none =>
      rw [List.getLast?_eq_none_iff] at isLast
      subst reg
      simp at member
  | some last =>
      have upper := ascending_last_le ascending isLast member
      obtain ⟨_, ends⟩ := Region.overlaps_iff.mp overlap
      have notBelow : ¬ last.before region = true := by
        rw [Region.before_iff]
        omega
      simp only [if_neg notBelow]
      exact insert_from_overlap ascending member overlap

theorem insert_ascending {region : Region W} {reg result : List (Region W)}
    (ascending : Ascending reg) (inserted : insert reg region false = .ok result) :
    Ascending result ∧ result.length = reg.length + 1 := by
  by_cases free : ∀ r ∈ reg, region.overlaps r = false
  · obtain ⟨front, back, rfl, made, below, above⟩ := insert_disjoint ascending free
    rw [made] at inserted
    cases inserted
    exact ⟨ascending_insert ascending below above, by simp; omega⟩
  · push Not at free
    obtain ⟨o, member, overlap⟩ := free
    rw [insert_overlap ascending member (by simpa using overlap)] at inserted
    cases inserted

/-! ## Merging -/

/-- On an ascending list the walk of `optimize` never fails, keeps the order and
does not get longer. -/
theorem optimize_from_ascending {c : Region W} {rest : List (Region W)}
    (ascending : Ascending (c :: rest)) :
    ∃ result, optimizeFrom c rest = .ok result ∧ Ascending result ∧
      result.length ≤ rest.length + 1 ∧ ∀ r ∈ result, c.begin ≤ r.begin := by
  induction rest generalizing c with
  | nil => exact ⟨[c], rfl, ascending, by simp, by simp⟩
  | cons n rest ih =>
      obtain ⟨above, tailAscending⟩ := ascending_cons.mp ascending
      have next := above n (by simp)
      have cOrdered := c.ordered
      have nOrdered := n.ordered
      rw [optimizeFrom]
      split_ifs with merge
      · have merged : c.setLast n.last =
            .ok ⟨c.begin, n.last, c.attr, by omega, n.bounded⟩ :=
          Region.set_last_ok.mpr ⟨rfl, rfl, rfl⟩
        have mergedAscending : Ascending
            ((⟨c.begin, n.last, c.attr, by omega, n.bounded⟩ : Region W) :: rest) :=
          ascending_cons.mpr
            ⟨(ascending_cons.mp tailAscending).1, (ascending_cons.mp tailAscending).2⟩
        obtain ⟨result, made, kept, short, low⟩ := ih mergedAscending
        refine ⟨result, by rw [merged, ok_bind, made], kept, ?_, low⟩
        simp only [List.length_cons]
        omega
      · obtain ⟨result, made, kept, short, low⟩ := ih tailAscending
        refine ⟨c :: result, by rw [made, ok_bind], ?_, ?_, ?_⟩
        · refine ascending_cons.mpr ⟨?_, kept⟩
          intro r member
          have := low r member
          omega
        · simp only [List.length_cons]
          omega
        · intro r member
          rcases List.mem_cons.mp member with rfl | inResult
          · exact le_rfl
          · have := low r inResult
            omega

theorem optimize_ascending {l : RegionList W} (ascending : Ascending l.reg) :
    ∃ reg, l.optimize = .ok { l with reg := reg } ∧ Ascending reg ∧
      reg.length ≤ l.reg.length := by
  obtain ⟨reg, capacity, combined, limit, used⟩ := l
  cases reg with
  | nil => exact ⟨[], rfl, List.Pairwise.nil, le_rfl⟩
  | cons c rest =>
      obtain ⟨result, made, kept, short, _⟩ := optimize_from_ascending ascending
      refine ⟨result, ?_, kept, by simpa using short⟩
      simp only [optimize, made, ok_bind]

/-! ## The invariant and its preservation -/

structure WellFormed (l : RegionList W) : Prop where
  ascending : Ascending l.reg
  fits : l.reg.length ≤ l.max

theorem make_room_well_formed {l result : RegionList W} (formed : l.WellFormed)
    (made : l.makeRoom = .ok result) :
    Ascending result.reg ∧ result.reg.length < result.max := by
  unfold makeRoom at made
  split_ifs at made with full
  · obtain ⟨reg, optimized, ascending, _⟩ := optimize_ascending formed.ascending
    simp only [optimized, ok_bind] at made
    split_ifs at made with stillFull
    · cases made
    · cases made
      exact ⟨ascending, by simpa using stillFull⟩
  · cases made
    exact ⟨formed.ascending, by omega⟩

theorem add_nolimitcheck_well_formed {l result : RegionList W} {region : Region W}
    (formed : l.WellFormed) (added : l.addNolimitcheck region false = .ok result) :
    result.WellFormed := by
  unfold addNolimitcheck at added
  split_ifs at added with single
  · cases added
    exact formed
  · obtain ⟨roomy, madeRoom, added⟩ := bind_ok_iff.mp added
    obtain ⟨reg, inserted, same⟩ := bind_ok_iff.mp added
    cases same
    obtain ⟨ascending, room⟩ := make_room_well_formed formed madeRoom
    obtain ⟨kept, longer⟩ := insert_ascending ascending inserted
    exact ⟨kept, by simp only [longer]; omega⟩

theorem add_size_limited_well_formed {l result : RegionList W} {mem : Region W}
    (formed : l.WellFormed) (added : l.addSizeLimited mem false = .ok result) :
    result.WellFormed := by
  unfold addSizeLimited at added
  split_ifs at added with full clipped
  · cases added
    exact formed
  · obtain ⟨mem, _, added⟩ := bind_ok_iff.mp added
    exact add_nolimitcheck_well_formed formed added
  · exact add_nolimitcheck_well_formed formed added

theorem add_well_formed {l result : RegionList W} {region : Region W}
    (formed : l.WellFormed) (added : l.add region = .ok result) : result.WellFormed := by
  unfold add at added
  split_ifs at added with invalid dropped clipped
  · cases added
    exact formed
  · cases added
    exact formed
  · obtain ⟨mem, _, added⟩ := bind_ok_iff.mp added
    exact add_size_limited_well_formed formed added
  · exact add_size_limited_well_formed formed added

/-- The entry that `sub` works on, with the entries around it. -/
theorem split_at_containing {reg back : List (Region W)} {r c : Region W}
    (found : reg.dropWhile (fun c => !c.contains r) = c :: back) :
    reg = reg.takeWhile (fun c => !c.contains r) ++ c :: back ∧
      c.begin ≤ r.begin ∧ r.last ≤ c.last := by
  have whole := List.takeWhile_append_dropWhile (p := fun c : Region W => !c.contains r) (l := reg)
  have stops : c.contains r = true := by
    have head := List.head_dropWhile_not (l := reg) (fun c : Region W => !c.contains r)
      (by rw [found]; simp)
    simpa [found] using head
  exact ⟨by rw [← found, whole], Region.contains_iff.mp stops⟩

theorem well_formed_shrink {l : RegionList W} {front back : List (Region W)} {c part : Region W}
    (formed : l.WellFormed) (whole : l.reg = front ++ c :: back) (begins : c.begin ≤ part.begin)
    (ends : part.last ≤ c.last) :
    ({ l with reg := front ++ part :: back } : RegionList W).WellFormed := by
  obtain ⟨ascending, fits⟩ := formed
  rw [whole] at ascending fits
  exact ⟨ascending_shrink ascending begins ends, by simpa using fits⟩

theorem sub_well_formed {l result : RegionList W} {r : Region W} {found : Bool}
    (formed : l.WellFormed) (cut : l.sub r = .ok (found, result)) : result.WellFormed := by
  unfold sub at cut
  simp only at cut
  split at cut
  · cases cut
    exact formed
  · rename_i c back split
    obtain ⟨whole, begins, ends⟩ := split_at_containing split
    generalize l.reg.takeWhile (fun c => !c.contains r) = front at whole cut
    have cOrdered := c.ordered
    have rOrdered := r.ordered
    have cBounded := c.bounded
    split_ifs at cut with same atBegin atEnd
    · cases cut
      obtain ⟨ascending, fits⟩ := formed
      rw [whole] at ascending fits
      refine ⟨ascending.sublist (by simp), ?_⟩
      simp only [List.length_append, List.length_cons] at fits ⊢
      omega
    · obtain ⟨part, made, ⟨⟩⟩ := bind_ok_iff.mp cut
      obtain ⟨partBegin, partLast, _⟩ := Region.set_begin_ok.mp made
      rw [W.add_of_lt (by omega)] at partBegin
      exact well_formed_shrink formed whole (by omega) (by omega)
    · obtain ⟨part, made, ⟨⟩⟩ := bind_ok_iff.mp cut
      obtain ⟨partBegin, partLast, _⟩ := Region.set_last_ok.mp made
      rw [W.sub_of_le (by omega) (by omega)] at partLast
      exact well_formed_shrink formed whole (by omega) (by omega)
    · obtain ⟨tail, _, cut⟩ := bind_ok_iff.mp cut
      obtain ⟨part, made, cut⟩ := bind_ok_iff.mp cut
      obtain ⟨partBegin, partLast, _⟩ := Region.set_last_ok.mp made
      rw [W.sub_of_le (by omega) (by omega)] at partLast
      obtain ⟨added, addedOk, ⟨⟩⟩ := bind_ok_iff.mp cut
      exact add_well_formed (well_formed_shrink formed whole (by omega) (by omega)) addedOk

/-! ## Every reachable list -/

/-- The operations on a list that is used without permission to overlap. -/
inductive Operation (W : Wordsize)
  | add (region : Region W)
  | sub (region : Region W)
  | remove (index : Nat)
  | removeIf (condition : Region W → Bool)
  | optimize

def apply (l : RegionList W) : Operation W → Checked (RegionList W)
  | .add region => l.add region
  | .sub region => do
      let (_, result) ← l.sub region
      .ok result
  | .remove index => .ok (l.remove index)
  | .removeIf condition => .ok (l.removeIf condition)
  | .optimize => l.optimize

inductive Reachable : RegionList W → Prop
  | init (size maxCombinedSize addressLimit : Nat) :
      Reachable (RegionList.init size maxCombinedSize addressLimit)
  | step {l result : RegionList W} (operation : Operation W) (prior : Reachable l)
      (applied : l.apply operation = .ok result) : Reachable result

theorem apply_well_formed {l result : RegionList W} {operation : Operation W}
    (formed : l.WellFormed) (applied : l.apply operation = .ok result) : result.WellFormed := by
  cases operation with
  | add region => exact add_well_formed formed applied
  | sub region =>
      obtain ⟨⟨found, cut⟩, cutOk, ⟨⟩⟩ := bind_ok_iff.mp applied
      exact sub_well_formed formed cutOk
  | remove index =>
      cases applied
      refine ⟨formed.ascending.sublist (List.eraseIdx_sublist _ _), ?_⟩
      exact ((List.eraseIdx_sublist _ _).length_le).trans formed.fits
  | removeIf condition =>
      cases applied
      refine ⟨formed.ascending.sublist List.filter_sublist, ?_⟩
      exact (List.filter_sublist.length_le).trans formed.fits
  | optimize =>
      obtain ⟨reg, optimized, ascending, short⟩ := optimize_ascending formed.ascending
      simp only [apply, optimized] at applied
      cases applied
      exact ⟨ascending, short.trans formed.fits⟩

theorem reachable_well_formed {l : RegionList W} (reachable : Reachable l) : l.WellFormed := by
  induction reachable with
  | init size maxCombinedSize addressLimit => exact ⟨List.Pairwise.nil, Nat.zero_le _⟩
  | step operation prior applied ih => exact apply_well_formed ih applied

/-- `add` neither drops the region nor clips it. -/
structure InLimit (l : RegionList W) (r : Region W) : Prop where
  address : r.last ≤ l.addressLimit
  unused : l.combinedSize < l.maxCombinedSize
  combined : W.add l.combinedSize r.size ≤ l.maxCombinedSize

/-- Inside the limits and with room in the store `add` is a plain insertion. -/
theorem add_eq_insert {l : RegionList W} {r : Region W} (mayOverlap : Bool)
    (room : l.reg.length < l.max) (limits : l.InLimit r) (two : r.begin < r.last) :
    l.add r mayOverlap = (do
      let reg ← insert l.reg r mayOverlap
      .ok { l with reg := reg, combinedSize := W.add l.combinedSize r.size }) := by
  obtain ⟨address, unused, combined⟩ := limits
  have valid : ¬ r.invalid = true := by
    simp only [Region.invalid, Bool.and_eq_true, decide_eq_true_eq]
    omega
  have roomy : l.makeRoom = .ok l := by
    rw [makeRoom, if_neg (by omega)]
  rw [add, if_neg valid, if_neg (by omega), if_neg (by omega), addSizeLimited,
    if_neg (by omega), if_neg (by omega), addNolimitcheck, if_neg (by omega), roomy, ok_bind]

/-- The representation invariant, and that the partial overlap checks of `add`
are exact in every state that satisfies it. -/
theorem region_list_invariant {l : RegionList W} (reachable : Reachable l) :
    l.reg.Pairwise (fun r o => r.begin < o.begin ∧ r.overlaps o = false) ∧
      (∀ r ∈ l.reg, r.begin ≤ r.last) ∧ l.reg.length ≤ l.max ∧
      ∀ r, l.reg.length < l.max → l.InLimit r → r.begin < r.last →
        (l.add r = panic "Region overlap" ↔ ∃ o ∈ l.reg, r.overlaps o = true) ∧
        ((∀ o ∈ l.reg, r.overlaps o = false) → ∃ front back, l.reg = front ++ back ∧
          (∀ o ∈ front, o.last < r.begin) ∧ (∀ o ∈ back, r.last < o.begin) ∧
          l.add r = .ok { l with
            reg := front ++ r :: back
            combinedSize := W.add l.combinedSize r.size }) := by
  obtain ⟨ascending, fits⟩ := reachable_well_formed reachable
  refine ⟨?_, fun r _ => r.ordered, fits, ?_⟩
  · refine List.Pairwise.imp ?_ ascending
    intro r o before
    have rOrdered := r.ordered
    exact ⟨by omega, Region.overlaps_eq_false_iff.mpr (.inl before)⟩
  · intro r room limits two
    rw [add_eq_insert false room limits two]
    refine ⟨⟨?_, ?_⟩, ?_⟩
    · intro panics
      by_contra none
      push Not at none
      obtain ⟨front, back, _, inserted, _⟩ :=
        insert_disjoint ascending (fun o member => Bool.eq_false_iff.mpr (none o member))
      rw [inserted] at panics
      cases panics
    · rintro ⟨o, member, overlap⟩
      rw [insert_overlap ascending member overlap]
      rfl
    · intro free
      obtain ⟨front, back, whole, inserted, below, above⟩ := insert_disjoint ascending free
      exact ⟨front, back, whole, below, above, by rw [inserted, ok_bind]⟩

def oneRegion : Region .w64 := ⟨0x1000, 0x1fff, {}, by decide, by decide⟩

def otherRegion : Region .w64 := ⟨0x4000, 0x4fff, {}, by decide, by decide⟩

def twoEntries : RegionList .w64 :=
  ⟨[oneRegion, otherRegion], 300, Wordsize.w64.maxWord, Wordsize.w64.maxWord, 0x2000⟩

/-- A list whose entries were added in the other order refuses a region that overlaps the
second one. -/
theorem region_list_invariant_two_entries :
    twoEntries.add ⟨0x2000, 0x47ff, {}, by decide, by decide⟩ = panic "Region overlap" := by
  have one : Reachable ⟨[otherRegion], 300, Wordsize.w64.maxWord, Wordsize.w64.maxWord, 0x1000⟩ :=
    .step (.add otherRegion) (.init 300 Wordsize.w64.maxWord Wordsize.w64.maxWord)
      (by decide)
  have reachable : Reachable twoEntries := .step (.add oneRegion) one (by decide)
  have partialChecks := (region_list_invariant reachable).2.2.2
    ⟨0x2000, 0x47ff, {}, by decide, by decide⟩ (by decide)
    ⟨by decide, by decide, by decide⟩ (by decide)
  exact partialChecks.1.mpr ⟨otherRegion, by decide, by decide⟩

end RegionList

end L4Bootstrap
