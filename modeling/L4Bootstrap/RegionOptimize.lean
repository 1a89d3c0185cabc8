import L4Bootstrap.RegionCover
import L4Bootstrap.FreeSearch

/-!
# Optimizing a region list

`optimize` walks over the list once and merges an entry with the one behind it
when both have the same attributes and no whole page lies between them. The
merged list touches no page that was not touched before, and a second walk finds
nothing to do.
-/

namespace L4Bootstrap

open MachineWord CheckedLoop

set_option autoImplicit false

variable {W : Wordsize}

/-- Some byte of the region lies in the page with this number. -/
def Region.Touches (r : Region W) (page : Nat) : Prop :=
  r.begin / pageSize ≤ page ∧ page ≤ r.last / pageSize

namespace RegionList

theorem mergeable_iff {c n : Region W} :
    mergeable c n = true ↔ n.attr = c.attr ∧ truncPage n.begin ≤ roundPage W c.last := by
  simp [mergeable]

/-- Entries that are merged lie in one page or in neighbouring pages. -/
theorem mergeable_pages {c n : Region W} (merge : mergeable c n = true) :
    n.begin / pageSize ≤ c.last / pageSize + 1 := by
  have near := (mergeable_iff.mp merge).2
  have rounded : roundPage W c.last < c.last + pageSize := by
    rw [roundPage, W.round_size_mod (page_shift_le_bits W)]
    exact (Nat.mod_le _ _).trans_lt (round_up_lt pageShift c.last)
  have reached : n.begin < truncPage n.begin + pageSize := lt_trunc_size_add pageShift n.begin
  have isMultiple : pageSize ∣ truncPage n.begin := dvd_trunc_size pageShift n.begin
  obtain ⟨k, isPage⟩ := isMultiple
  have size : pageSize = 4096 := rfl
  rw [size] at rounded reached isPage ⊢
  omega

theorem optimize_from_pages {c : Region W} {rest result : List (Region W)}
    (made : optimizeFrom c rest = .ok result) {o : Region W} (member : o ∈ result) {page : Nat}
    (touched : o.Touches page) : ∃ r ∈ c :: rest, r.attr = o.attr ∧ r.Touches page := by
  induction rest generalizing c result with
  | nil =>
      cases made
      exact ⟨o, member, rfl, touched⟩
  | cons n rest ih =>
      rw [optimizeFrom] at made
      split_ifs at made with merge
      · obtain ⟨merged, isMerged, made⟩ := bind_ok_iff.mp made
        obtain ⟨begins, ends, attr⟩ := Region.set_last_ok.mp isMerged
        obtain ⟨r, inMerged, sameAttr, inPage⟩ := ih made member
        rcases List.mem_cons.mp inMerged with rfl | inRest
        · have near := mergeable_pages merge
          have equal := (mergeable_iff.mp merge).1
          obtain ⟨above, below⟩ := inPage
          rw [begins] at above
          rw [ends] at below
          rw [attr] at sameAttr
          by_cases early : page ≤ c.last / pageSize
          · exact ⟨c, by simp, sameAttr, above, early⟩
          · exact ⟨n, by simp, equal.trans sameAttr, by omega, below⟩
        · exact ⟨r, by simp [inRest], sameAttr, inPage⟩
      · obtain ⟨tail, isTail, made⟩ := bind_ok_iff.mp made
        cases made
        rcases List.mem_cons.mp member with rfl | inTail
        · exact ⟨o, by simp, rfl, touched⟩
        · obtain ⟨r, inRest, facts⟩ := ih isTail inTail
          exact ⟨r, List.mem_cons_of_mem c inRest, facts⟩

/-! ## The second walk -/

/-- No entry can be merged with the one behind it. -/
def Settled (reg : List (Region W)) : Prop :=
  reg.IsChain fun c n => mergeable c n = false

theorem optimize_from_settled {c : Region W} {rest : List (Region W)}
    (settled : Settled (c :: rest)) : optimizeFrom c rest = .ok (c :: rest) := by
  induction rest generalizing c with
  | nil => rfl
  | cons n rest ih =>
      obtain ⟨apart, later⟩ := List.isChain_cons_cons.mp settled
      rw [optimizeFrom, if_neg (by simp [apart]), ih later]
      rfl

/-- The cursor keeps its begin and its attributes, which is all that the entry
before it looks at. -/
theorem optimize_from_head {c : Region W} {rest result : List (Region W)}
    (made : optimizeFrom c rest = .ok result) :
    ∃ first tail, result = first :: tail ∧ first.begin = c.begin ∧ first.attr = c.attr ∧
      Settled result := by
  induction rest generalizing c result with
  | nil =>
      cases made
      exact ⟨c, [], rfl, rfl, rfl, List.IsChain.singleton c⟩
  | cons n rest ih =>
      rw [optimizeFrom] at made
      split_ifs at made with merge
      · obtain ⟨merged, isMerged, made⟩ := bind_ok_iff.mp made
        obtain ⟨begins, _, attr⟩ := Region.set_last_ok.mp isMerged
        obtain ⟨first, tail, isResult, sameBegin, sameAttr, settled⟩ := ih made
        exact ⟨first, tail, isResult, sameBegin.trans begins, sameAttr.trans attr, settled⟩
      · obtain ⟨behind, isBehind, made⟩ := bind_ok_iff.mp made
        cases made
        obtain ⟨first, tail, rfl, sameBegin, sameAttr, settled⟩ := ih isBehind
        refine ⟨c, first :: tail, rfl, rfl, rfl, List.isChain_cons_cons.mpr ⟨?_, settled⟩⟩
        rw [mergeable, sameBegin, sameAttr]
        exact Bool.not_eq_true _ ▸ merge

theorem optimize_settled {l merged : RegionList W} (made : l.optimize = .ok merged) :
    merged.optimize = .ok merged := by
  unfold optimize at made
  split at made
  · rename_i empty
    cases made
    simp only [optimize, empty]
  · obtain ⟨reg, isReg, made⟩ := bind_ok_iff.mp made
    cases made
    obtain ⟨first, tail, rfl, _, _, settled⟩ := optimize_from_head isReg
    simp only [optimize, optimize_from_settled settled, ok_bind]

/-! ## The whole walk -/

/-- What `optimize` does to the entries of a list. -/
structure MergedWithinPages (before after : List (Region W)) : Prop where
  ascending : Ascending after
  covers : ∀ r ∈ before, ∀ a, r.begin ≤ a → a ≤ r.last →
    ∃ o ∈ after, o.attr = r.attr ∧ o.begin ≤ a ∧ a ≤ o.last
  pages : ∀ o ∈ after, ∀ page, o.Touches page → ∃ r ∈ before, r.attr = o.attr ∧ r.Touches page
  attributes : ∀ o ∈ after, ∃ r ∈ before, r.begin = o.begin ∧ r.attr = o.attr

theorem ascending_merge_order {reg : List (Region W)} (ascending : Ascending reg) :
    MergeOrder reg := by
  constructor
  · apply ascending.imp
    intro r o below
    have := r.ordered
    have := o.ordered
    omega
  · apply ascending.imp
    intro r o below _
    have := r.ordered
    have := o.ordered
    omega

theorem optimize_from_merged {c : Region W} {rest result : List (Region W)}
    (ascending : Ascending (c :: rest)) (made : optimizeFrom c rest = .ok result) :
    MergedWithinPages (c :: rest) result := by
  have order := ascending_merge_order ascending
  constructor
  · obtain ⟨other, isOther, kept, _⟩ := optimize_from_ascending ascending
    rw [made] at isOther
    cases isOther
    exact kept
  · intro r member a above below
    have covered : CoveredBy (c :: rest) (fun attr => attr = r.attr) a :=
      ⟨r, member, rfl, above, below⟩
    obtain ⟨o, inResult, sameAttr, inside⟩ := optimize_from_covers order made covered
    exact ⟨o, inResult, sameAttr, inside⟩
  · intro o member page touched
    exact optimize_from_pages made member touched
  · intro o member
    obtain ⟨r, inList, _, _, begins, _, attr, _⟩ := optimize_from_origin made member
    exact ⟨r, inList, begins.symm, attr.symm⟩

/-- Optimizing an ascending list. -/
theorem optimize_merges_within_pages (l : RegionList W) (ascending : Ascending l.reg) :
    ∃ merged, l.optimize = .ok merged ∧ MergedWithinPages l.reg merged.reg ∧
      merged.optimize = .ok merged := by
  obtain ⟨reg, capacity, combined, limit, used⟩ := l
  cases reg with
  | nil => exact ⟨_, rfl, ⟨.nil, by simp, by simp, by simp⟩, rfl⟩
  | cons c rest =>
      obtain ⟨result, isResult, _⟩ := optimize_from_ascending ascending
      have made : optimize ⟨c :: rest, capacity, combined, limit, used⟩ =
          .ok ⟨result, capacity, combined, limit, used⟩ := by
        simp only [optimize, isResult, ok_bind]
      exact ⟨_, made, optimize_from_merged ascending isResult, optimize_settled made⟩

/-- Two sections of a binary in neighbouring pages, and the stack behind them. -/
def sectionList : RegionList .w64 :=
  Memory.unlimited [
    .fixed 0x1000 0x10ff { name := .literal "roottask", type := .root } (.refl true),
    .fixed 0x2800 0x2fff { name := .literal "roottask", type := .root } (.refl true),
    .fixed 0x3000 0x3fff { name := .literal ".stack", type := .root } (.refl true)]

theorem optimize_merges_sections :
    (∃ merged, sectionList.optimize = .ok merged ∧
      MergedWithinPages sectionList.reg merged.reg ∧ merged.optimize = .ok merged) ∧
    (sectionList.optimize.map fun merged => merged.reg.map fun r => (r.begin, r.last)) =
      .ok [(0x1000, 0x2fff), (0x3000, 0x3fff)] := by
  have ascending : Ascending sectionList.reg := by
    unfold Ascending
    decide +kernel
  exact ⟨optimize_merges_within_pages sectionList ascending, by decide +kernel⟩

end RegionList

end L4Bootstrap
