import L4Bootstrap.RegionLaws
import L4Bootstrap.Lib.ByteMemory

/-!
# Presetting free memory

`fill_mem` of `startup.cc` fills all RAM up to `mem_end` that no region covers.
For each RAM region it cuts the regions out of a working range that shrinks from
below. A range is filled by `memset` with its size as an `unsigned long`, which
is 0 for the whole address space.
-/

namespace L4Bootstrap

open MachineWord CheckedLoop ByteMemory

set_option autoImplicit false

variable {W : Wordsize}

/-- `verbose_memset`; the answer is the range that was to be filled. -/
def verboseMemset (begin last : Nat) : Checked (List (Nat × Nat)) := do
  require (begin ≤ last)
  .ok [(begin, last)]

/-- The loop over the regions, with the fill of the rest of the working range
behind it. -/
def fillRange (begin last : Nat) : List (Region W) → Checked (List (Nat × Nat))
  | [] => if begin ≤ last then verboseMemset begin last else .ok []
  | r :: rest =>
      if r.last < begin then fillRange begin last rest
      else if last < r.begin then
        if begin ≤ last then verboseMemset begin last else .ok []
      else do
        let front ← if begin < r.begin then verboseMemset begin (W.sub r.begin 1) else .ok []
        let back ← fillRange (W.add r.last 1) last rest
        .ok (front ++ back)

/-- `fill_mem`: the ranges that it fills. -/
def fillMem (regions : List (Region W)) (memEnd : Nat) :
    List (Region W) → Checked (List (Nat × Nat))
  | [] => .ok []
  | rr :: rest =>
      if memEnd < rr.begin then fillMem regions memEnd rest
      else do
        let filled ← fillRange rr.begin (if memEnd < rr.last then memEnd else rr.last) regions
        let others ← fillMem regions memEnd rest
        .ok (filled ++ others)

/-- The size that is passed to `memset`. -/
def memsetSize (W : Wordsize) (call : Nat × Nat) : Nat := W.add (W.sub call.2 call.1) 1

/-- The calls of `memset`, one after the other. -/
def presetBytes (W : Wordsize) (value : UInt8) (calls : List (Nat × Nat)) (bytes : Bytes) : Bytes :=
  calls.foldl (fun bytes call => memset call.1 value (memsetSize W call) bytes) bytes

def Written (W : Wordsize) (calls : List (Nat × Nat)) (a : Nat) : Prop :=
  ∃ call ∈ calls, call.1 ≤ a ∧ a < call.1 + memsetSize W call

instance (calls : List (Nat × Nat)) (a : Nat) : Decidable (Written W calls a) :=
  inferInstanceAs (Decidable (∃ call ∈ calls, _))

/-- The bytes behind the calls: the value where one of them writes. -/
theorem preset_bytes_eq (value : UInt8) (calls : List (Nat × Nat)) (bytes : Bytes) (a : Nat) :
    presetBytes W value calls bytes a = if Written W calls a then value else bytes a := by
  induction calls generalizing bytes with
  | nil => simp [presetBytes, Written]
  | cons call rest ih =>
      change presetBytes W value rest (memset call.1 value (memsetSize W call) bytes) a = _
      have split : Written W (call :: rest) a ↔
          (call.1 ≤ a ∧ a < call.1 + memsetSize W call) ∨ Written W rest a := by
        simp only [Written, List.mem_cons, exists_eq_or_imp]
      rw [ih, memset]
      by_cases later : Written W rest a
      · rw [if_pos later, if_pos (split.mpr (.inr later))]
      · rw [if_neg later]
        apply if_congr _ rfl rfl
        rw [split, or_iff_left later]

/-! ## One RAM region -/

/-- The ranges hold exactly the bytes of the working range that are free. -/
structure RangesExact (regions : List (Region W)) (begin last : Nat) (calls : List (Nat × Nat)) :
    Prop where
  ordered : ∀ call ∈ calls, call.1 ≤ call.2
  covers : ∀ a, (∃ call ∈ calls, call.1 ≤ a ∧ a ≤ call.2) ↔
    begin ≤ a ∧ a ≤ last ∧ ¬ Covered regions a

/-- The rest of a working range with no region in it. -/
theorem rest_exact {regions : List (Region W)} {begin last : Nat}
    (free : ∀ a, begin ≤ a → a ≤ last → ¬ Covered regions a) :
    ∃ calls, (if begin ≤ last then verboseMemset begin last else .ok []) = .ok calls ∧
      RangesExact regions begin last calls := by
  split_ifs with some
  · refine ⟨[(begin, last)], ?_, ?_, ?_⟩
    · rw [verboseMemset, require, if_pos some, ok_bind]
    · intro call member
      rw [List.mem_singleton.mp member]
      exact some
    · intro a
      simp only [List.mem_singleton, exists_eq_left]
      exact ⟨fun inside => ⟨inside.1, inside.2, free a inside.1 inside.2⟩,
        fun inside => ⟨inside.1, inside.2.1⟩⟩
  · refine ⟨[], rfl, by simp, ?_⟩
    intro a
    simp only [List.not_mem_nil, false_and, exists_false, false_iff, not_and]
    omega

theorem fill_range_exact {regions : List (Region W)} (ascending : Ascending regions)
    (top : ∀ r ∈ regions, r.last < W.maxWord) (begin last : Nat) :
    ∃ calls, fillRange begin last regions = .ok calls ∧ RangesExact regions begin last calls := by
  have maxWord : W.maxWord = W.modulus - 1 := rfl
  induction regions generalizing begin with
  | nil =>
      rw [fillRange]
      exact rest_exact fun a _ _ => not_covered_nil
  | cons r rest ih =>
      obtain ⟨above, restAscending⟩ := ascending_cons.mp ascending
      have restTop : ∀ o ∈ rest, o.last < W.maxWord := fun o member => top o (by simp [member])
      have rTop := top r (by simp)
      have rOrdered := r.ordered
      have restAbove : ∀ a, Covered rest a → r.last < a := by
        intro a covered
        obtain ⟨o, member, inside⟩ := covered_iff.mp covered
        have := above o member
        unfold Region.Has at inside
        omega
      rw [fillRange]
      by_cases below : r.last < begin
      · obtain ⟨calls, filled, ordered, covers⟩ := ih restAscending restTop begin
        refine ⟨calls, by rw [if_pos below, filled], ordered, ?_⟩
        intro a
        rw [covers, covered_cons]
        unfold Region.Has
        constructor
        · rintro ⟨lower, upper, free⟩
          exact ⟨lower, upper, fun covered => covered.elim (by omega) free⟩
        · rintro ⟨lower, upper, free⟩
          exact ⟨lower, upper, fun covered => free (.inr covered)⟩
      · rw [if_neg below]
        by_cases beyond : last < r.begin
        · rw [if_pos beyond]
          apply rest_exact
          intro a lower upper covered
          rcases covered_cons.mp covered with here | behind
          · unfold Region.Has at here
            omega
          · have := restAbove a behind
            omega
        · obtain ⟨back, filledBack, backOrdered, backCovers⟩ :=
            ih restAscending restTop (r.last + 1)
          have nextBegin : W.add r.last 1 = r.last + 1 := W.add_of_lt (by omega)
          have frontFree : ∀ a, begin ≤ a → a ≤ r.begin - 1 → begin < r.begin →
              ¬ Covered (r :: rest) a := by
            intro a lower upper inFront covered
            rcases covered_cons.mp covered with here | behind
            · unfold Region.Has at here
              omega
            · have := restAbove a behind
              omega
          rw [if_neg beyond, nextBegin]
          by_cases inFront : begin < r.begin
          · have frontLast : W.sub r.begin 1 = r.begin - 1 :=
              W.sub_of_le (by omega) (by have := r.bounded; omega)
            have front : verboseMemset begin (r.begin - 1) = .ok [(begin, r.begin - 1)] := by
              rw [verboseMemset, require, if_pos (by omega), ok_bind]
            refine ⟨(begin, r.begin - 1) :: back, ?_, ?_, ?_⟩
            · rw [if_pos inFront, frontLast, front, filledBack]
              rfl
            · intro call member
              rcases List.mem_cons.mp member with rfl | inBack
              · change begin ≤ r.begin - 1
                omega
              · exact backOrdered call inBack
            · intro a
              simp only [List.mem_cons, exists_eq_or_imp, backCovers]
              constructor
              · rintro (⟨lower, upper⟩ | ⟨lower, upper, free⟩)
                · exact ⟨lower, by omega, frontFree a lower upper inFront⟩
                · refine ⟨by omega, upper, fun covered => ?_⟩
                  rcases covered_cons.mp covered with here | behind
                  · unfold Region.Has at here
                    omega
                  · exact free behind
              · rintro ⟨lower, upper, free⟩
                rw [covered_cons, not_or] at free
                unfold Region.Has at free
                rcases Nat.lt_or_ge r.last a with behind | inside
                · exact .inr ⟨behind, upper, free.2⟩
                · left
                  omega
          · refine ⟨back, ?_, backOrdered, ?_⟩
            · rw [if_neg inFront, filledBack]
              rfl
            · intro a
              rw [backCovers, covered_cons, not_or]
              unfold Region.Has
              constructor
              · rintro ⟨lower, upper, free⟩
                exact ⟨by omega, upper, by omega, free⟩
              · rintro ⟨lower, upper, outside, free⟩
                exact ⟨by omega, upper, free⟩

/-! ## All RAM regions -/

/-- RAM up to `mem_end` that no region covers. -/
def FreeRam (ram regions : List (Region W)) (memEnd a : Nat) : Prop :=
  Covered ram a ∧ a ≤ memEnd ∧ ¬ Covered regions a

theorem fill_mem_exact {regions : List (Region W)} (ascending : Ascending regions)
    (top : ∀ r ∈ regions, r.last < W.maxWord) (memEnd : Nat) (ram : List (Region W)) :
    ∃ calls, fillMem regions memEnd ram = .ok calls ∧ (∀ call ∈ calls, call.1 ≤ call.2) ∧
      (∀ a, (∃ call ∈ calls, call.1 ≤ a ∧ a ≤ call.2) ↔ FreeRam ram regions memEnd a) ∧
      ∀ call ∈ calls, ∃ rr ∈ ram, (rr.begin ≤ call.1 ∧ call.2 ≤ rr.last ∧ call.2 ≤ memEnd) ∧
        ∀ a, call.1 ≤ a → a ≤ call.2 → ¬ Covered regions a := by
  induction ram with
  | nil =>
      refine ⟨[], rfl, by simp, ?_, by simp⟩
      intro a
      simp [FreeRam, not_covered_nil]
  | cons rr rest ih =>
      obtain ⟨others, filledOthers, othersOrdered, othersCover, othersInside⟩ := ih
      have inRest : ∀ call ∈ others, ∃ r ∈ rr :: rest,
          (r.begin ≤ call.1 ∧ call.2 ≤ r.last ∧ call.2 ≤ memEnd) ∧
            ∀ a, call.1 ≤ a → a ≤ call.2 → ¬ Covered regions a := by
        intro call member
        obtain ⟨r, inRam, inside⟩ := othersInside call member
        exact ⟨r, by simp [inRam], inside⟩
      rw [fillMem]
      by_cases beyond : memEnd < rr.begin
      · refine ⟨others, by rw [if_pos beyond, filledOthers], othersOrdered, ?_, inRest⟩
        intro a
        rw [othersCover, FreeRam, FreeRam, covered_cons]
        unfold Region.Has
        constructor
        · rintro ⟨covered, upper, free⟩
          exact ⟨.inr covered, upper, free⟩
        · rintro ⟨here | covered, upper, free⟩
          · omega
          · exact ⟨covered, upper, free⟩
      · rw [if_neg beyond]
        obtain ⟨last, isLast⟩ : ∃ last, (if memEnd < rr.last then memEnd else rr.last) = last :=
          ⟨_, rfl⟩
        have lastMin : last = min memEnd rr.last := by
          split_ifs at isLast <;> omega
        obtain ⟨calls, filled, ordered, covers⟩ := fill_range_exact ascending top rr.begin last
        refine ⟨calls ++ others, by rw [isLast, filled, filledOthers]; rfl, ?_, ?_, ?_⟩
        · intro call member
          rcases List.mem_append.mp member with here | inOthers
          · exact ordered call here
          · exact othersOrdered call inOthers
        · intro a
          simp only [List.mem_append, or_and_right, exists_or, covers, othersCover]
          rw [FreeRam, FreeRam, covered_cons]
          unfold Region.Has
          constructor
          · rintro (⟨lower, upper, free⟩ | ⟨covered, upper, free⟩)
            · exact ⟨.inl ⟨lower, by omega⟩, by omega, free⟩
            · exact ⟨.inr covered, upper, free⟩
          · rintro ⟨here | covered, upper, free⟩
            · exact .inl ⟨here.1, by omega, free⟩
            · exact .inr ⟨covered, upper, free⟩
        · intro call member
          rcases List.mem_append.mp member with here | inOthers
          · have low := (covers call.1).mp ⟨call, here, le_rfl, ordered call here⟩
            have high := (covers call.2).mp ⟨call, here, ordered call here, le_rfl⟩
            refine ⟨rr, by simp, ⟨low.1, by omega, by omega⟩, ?_⟩
            intro a lower upper
            exact ((covers a).mp ⟨call, here, lower, upper⟩).2.2
          · exact inRest call inOthers

/-- The region of all addresses. -/
def Region.Whole (r : Region W) : Prop := r.begin = 0 ∧ r.last = W.maxWord

instance (r : Region W) : Decidable r.Whole := inferInstanceAs (Decidable (_ ∧ _))

/-- The size of a range that is not the whole address space is its length. -/
theorem memset_size_eq {call : Nat × Nat} (ordered : call.1 ≤ call.2) (word : call.2 < W.modulus)
    (part : ¬ (call.1 = 0 ∧ call.2 = W.maxWord)) : memsetSize W call = call.2 - call.1 + 1 := by
  have maxWord : W.maxWord = W.modulus - 1 := rfl
  rw [memsetSize, W.sub_of_le ordered word, W.add_of_lt (by omega)]

theorem memset_size_whole {call : Nat × Nat} (whole : call.1 = 0 ∧ call.2 = W.maxWord) :
    memsetSize W call = 0 := by
  have maxWord : W.maxWord = W.modulus - 1 := rfl
  have pos := W.modulus_pos
  rw [memsetSize, whole.1, whole.2, W.sub_of_le (Nat.zero_le _) (by omega), Wordsize.add]
  have sum : W.maxWord - 0 + 1 = W.modulus := by omega
  rw [sum, Nat.mod_self]

/-- What presetting memory is to do. -/
def FillsFreeRam (ram regions : List (Region W)) (memEnd : Nat) : Prop :=
  ∃ calls, fillMem regions memEnd ram = .ok calls ∧ (∀ call ∈ calls, call.1 ≤ call.2) ∧
    ∀ a, Written W calls a ↔ FreeRam ram regions memEnd a

/-- Without regions and without a bound each RAM region is filled at once. -/
theorem fill_mem_unreserved {ram : List (Region W)} {memEnd : Nat} (all : W.maxWord ≤ memEnd) :
    fillMem [] memEnd ram = .ok (ram.map fun rr => (rr.begin, rr.last)) := by
  have maxWord : W.maxWord = W.modulus - 1 := rfl
  induction ram with
  | nil => rfl
  | cons rr rest ih =>
      have ordered := rr.ordered
      have bounded := rr.bounded
      rw [fillMem, if_neg (by omega), if_neg (by omega), ih, fillRange, if_pos ordered,
        verboseMemset, require, if_pos ordered]
      rfl

/-- The bytes that are written then: a region of all addresses is left out. -/
theorem written_unreserved {ram : List (Region W)} (a : Nat) :
    Written W (ram.map fun rr => (rr.begin, rr.last)) a ↔ ∃ rr ∈ ram, ¬ rr.Whole ∧ rr.Has a := by
  unfold Written
  simp only [List.mem_map, exists_exists_and_eq_and]
  constructor
  · rintro ⟨rr, member, lower, upper⟩
    have ordered := rr.ordered
    by_cases whole : rr.Whole
    · have size : memsetSize W (rr.begin, rr.last) = 0 := memset_size_whole whole
      simp only [size] at upper lower
      omega
    · have size : memsetSize W (rr.begin, rr.last) = rr.last - rr.begin + 1 :=
        memset_size_eq ordered rr.bounded whole
      simp only [size] at upper lower
      exact ⟨rr, member, whole, lower, by omega⟩
  · rintro ⟨rr, member, part, lower, upper⟩
    have ordered := rr.ordered
    have size : memsetSize W (rr.begin, rr.last) = rr.last - rr.begin + 1 :=
      memset_size_eq ordered rr.bounded part
    refine ⟨rr, member, lower, ?_⟩
    simp only [size]
    omega

/-- Memory is preset as documented unless the whole address space is to be filled
at once and the other RAM regions do not cover it. -/
theorem fill_mem_free_ram_iff {ram regions : List (Region W)} {memEnd : Nat}
    (ascending : Ascending regions) (top : ∀ r ∈ regions, r.last < W.maxWord) :
    FillsFreeRam ram regions memEnd ↔
      memEnd < W.maxWord ∨ regions ≠ [] ∨ (∀ rr ∈ ram, ¬ rr.Whole) ∨
        ∀ a < W.modulus, ∃ rr ∈ ram, ¬ rr.Whole ∧ rr.Has a := by
  have maxWord : W.maxWord = W.modulus - 1 := rfl
  have modulusPos := W.modulus_pos
  obtain ⟨calls, filled, ordered, covers, inside⟩ := fill_mem_exact ascending top memEnd ram
  have isExact : FillsFreeRam ram regions memEnd ↔
      ∀ a, Written W calls a ↔ FreeRam ram regions memEnd a := by
    constructor
    · rintro ⟨other, same, _, exact⟩
      rw [filled] at same
      cases same
      exact exact
    · exact fun exact => ⟨calls, filled, ordered, exact⟩
  rw [isExact]
  by_cases unreserved : W.maxWord ≤ memEnd ∧ regions = []
  · obtain ⟨all, rfl⟩ := unreserved
    rw [fill_mem_unreserved all] at filled
    cases filled
    have isFree : ∀ a, FreeRam ram [] memEnd a ↔ Covered ram a := by
      intro a
      constructor
      · exact fun free => free.1
      · intro covered
        obtain ⟨r, _, _, below⟩ := covered_iff.mp covered
        have := r.bounded
        exact ⟨covered, by omega, not_covered_nil⟩
    simp only [written_unreserved, isFree]
    constructor
    · intro exact
      right
      right
      by_cases none : ∀ rr ∈ ram, ¬ rr.Whole
      · exact .inl none
      · right
        push Not at none
        obtain ⟨rr, member, whole⟩ := none
        intro a word
        apply (exact a).mpr
        refine covered_iff.mpr ⟨rr, member, ?_⟩
        unfold Region.Has
        unfold Region.Whole at whole
        omega
    · rintro (low | some | none | others) a
      · omega
      · exact absurd rfl some
      · rw [covered_iff]
        constructor
        · rintro ⟨rr, member, _, has⟩
          exact ⟨rr, member, has⟩
        · rintro ⟨rr, member, has⟩
          exact ⟨rr, member, none rr member, has⟩
      · rw [covered_iff]
        constructor
        · rintro ⟨rr, member, _, has⟩
          exact ⟨rr, member, has⟩
        · rintro ⟨rr, member, has⟩
          exact others a (has.2.trans_lt rr.bounded)
  · -- no range is the whole address space
    have part : ∀ call ∈ calls, ¬ (call.1 = 0 ∧ call.2 = W.maxWord) := by
      intro call member whole
      obtain ⟨rr, _, bounds, free⟩ := inside call member
      apply unreserved
      refine ⟨by omega, ?_⟩
      rw [List.eq_nil_iff_forall_not_mem]
      intro r inRegions
      have low := top r inRegions
      exact free r.last (by omega) (by omega)
        (covered_iff.mpr ⟨r, inRegions, r.ordered, le_rfl⟩)
    have size : ∀ call ∈ calls, memsetSize W call = call.2 - call.1 + 1 := by
      intro call member
      obtain ⟨rr, _, ⟨_, below, _⟩, _⟩ := inside call member
      exact memset_size_eq (ordered call member) (below.trans_lt rr.bounded) (part call member)
    constructor
    · intro _
      by_cases low : memEnd < W.maxWord
      · exact .inl low
      · exact .inr (.inl fun none => unreserved ⟨Nat.le_of_not_lt low, none⟩)
    · intro _ a
      rw [← covers]
      constructor
      · rintro ⟨call, member, lower, upper⟩
        have isSize := size call member
        have isOrdered := ordered call member
        exact ⟨call, member, lower, by omega⟩
      · rintro ⟨call, member, lower, upper⟩
        have isSize := size call member
        exact ⟨call, member, lower, by omega⟩

theorem fill_mem_free_ram_one_page :
    FillsFreeRam (W := .w64) [⟨0x1000, 0xffff, {}, by decide, by decide⟩]
        [⟨0x2000, 0x2fff, {}, by decide, by decide⟩] 0xdfff ↔
      0xdfff < Wordsize.w64.maxWord ∨
        ([⟨0x2000, 0x2fff, {}, by decide, by decide⟩] : List (Region .w64)) ≠ [] ∨
        (∀ rr ∈ [(⟨0x1000, 0xffff, {}, by decide, by decide⟩ : Region .w64)], ¬ rr.Whole) ∨
        ∀ a < Wordsize.w64.modulus,
          ∃ rr ∈ [(⟨0x1000, 0xffff, {}, by decide, by decide⟩ : Region .w64)],
            ¬ rr.Whole ∧ rr.Has a :=
  fill_mem_free_ram_iff (List.pairwise_singleton _ _) (by decide)

/-- All addresses are RAM and nothing is reserved: nothing is written. -/
theorem whole_memory_is_not_filled :
    Ascending ([] : List (Region .w64)) ∧
      (∀ r ∈ ([] : List (Region .w64)), r.last < Wordsize.w64.maxWord) ∧
      ¬ FillsFreeRam [(⟨0, Wordsize.w64.maxWord, {}, by decide, by decide⟩ : Region .w64)] []
        Wordsize.w64.maxWord := by
  refine ⟨.nil, by simp, ?_⟩
  rintro ⟨calls, filled, _, exact⟩
  have isCalls : calls = [(0, Wordsize.w64.maxWord)] := by
    have made : fillMem [] Wordsize.w64.maxWord
        [(⟨0, Wordsize.w64.maxWord, {}, by decide, by decide⟩ : Region .w64)] =
          .ok [(0, Wordsize.w64.maxWord)] := by decide
    rw [made] at filled
    cases filled
    rfl
  have written := (exact 0x1000).mpr
    ⟨covered_iff.mpr ⟨_, List.mem_singleton_self _, by unfold Region.Has; decide⟩, by decide,
      not_covered_nil⟩
  rw [isCalls] at written
  revert written
  decide

end L4Bootstrap
