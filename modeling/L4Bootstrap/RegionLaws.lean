import L4Bootstrap.RegionCover
import Mathlib.Data.List.TakeWhile

/-!
# The coverage laws of `add` and `sub`

On a sorted list without limits, `add` should cover exactly the bytes of the new
region in addition, and `sub` should uncover exactly the bytes of its argument.
Both go through the filter for empty regions, which takes the inclusive end for
the end: a region of one byte is dropped by `add`, and a remainder of one byte
is lost by `sub`.
-/

namespace L4Bootstrap

open MachineWord CheckedLoop

set_option autoImplicit false

variable {W : Wordsize}

/-- Bytes of the region itself. -/
def Region.Has (r : Region W) (p : Nat) : Prop := r.begin ≤ p ∧ p ≤ r.last

def Covered (reg : List (Region W)) (p : Nat) : Prop := CoveredBy reg (fun _ => True) p

theorem covered_iff {reg : List (Region W)} {p : Nat} : Covered reg p ↔ ∃ r ∈ reg, r.Has p := by
  constructor
  · rintro ⟨r, member, _, inside⟩
    exact ⟨r, member, inside⟩
  · rintro ⟨r, member, inside⟩
    exact ⟨r, member, trivial, inside⟩

/-- Bytes that both lists cover have the same attributes in both. -/
def SameAttrs (before after : List (Region W)) : Prop :=
  ∀ p, Covered before p → Covered after p → ∀ attr,
    CoveredBy before (· = attr) p ↔ CoveredBy after (· = attr) p

structure AddLaw (before : List (Region W)) (r : Region W) (after : List (Region W)) : Prop where
  covered : ∀ p, Covered after p ↔ Covered before p ∨ r.Has p
  attrs : SameAttrs before after

structure SubLaw (before : List (Region W)) (r : Region W) (after : List (Region W)) : Prop where
  covered : ∀ p, Covered after p ↔ Covered before p ∧ ¬ r.Has p
  attrs : SameAttrs before after

/-- Neither limit of the list is set, and its store has a free entry. -/
structure RegionList.Open (l : RegionList W) : Prop where
  address : l.addressLimit = W.maxWord
  combined : l.maxCombinedSize = W.maxWord
  room : l.reg.length < l.max

namespace RegionList

/-- What `add` does to an open list: nothing, for a region of one byte or when
the running size has reached its maximum, or an insertion. -/
theorem add_open {l result : RegionList W} {r : Region W} (ascending : Ascending l.reg)
    (unlimited : l.Open) (added : l.add r = .ok result) :
    (result = l ∧ (r.begin = r.last ∨ W.maxWord ≤ l.combinedSize)) ∨
      (result.reg.Perm (r :: l.reg) ∧ (∀ o ∈ l.reg, r.overlaps o = false) ∧
        r.begin < r.last ∧ l.combinedSize < W.maxWord) := by
  obtain ⟨address, combined, room⟩ := unlimited
  have bounded := r.bounded
  have ordered := r.ordered
  have maxWord : W.maxWord = W.modulus - 1 := rfl
  have sumWord : W.add l.combinedSize r.size ≤ W.maxWord := by
    have := W.add_lt l.combinedSize r.size
    omega
  by_cases single : r.begin = r.last
  · left
    refine ⟨?_, .inl single⟩
    rw [add, if_neg (show ¬ l.addressLimit < r.begin by omega),
      if_neg (show ¬ l.addressLimit < r.last by omega), addSizeLimited, combined,
      if_neg (show ¬ W.maxWord < W.add l.combinedSize r.size by omega), addNolimitcheck,
      if_pos single] at added
    split_ifs at added <;> cases added <;> rfl
  · by_cases full : W.maxWord ≤ l.combinedSize
    · left
      refine ⟨?_, .inr full⟩
      rw [add, if_neg (show ¬ l.addressLimit < r.begin by omega),
        if_neg (show ¬ l.addressLimit < r.last by omega), addSizeLimited, combined,
        if_pos full] at added
      split_ifs at added <;> cases added <;> rfl
    · right
      have limits : l.InLimit r := ⟨by omega, by omega, by rw [combined]; exact sumWord⟩
      rw [add_eq_insert false room limits (by omega)] at added
      obtain ⟨reg, inserted, same⟩ := bind_ok_iff.mp added
      cases same
      by_cases free : ∀ o ∈ l.reg, r.overlaps o = false
      · obtain ⟨front, back, whole, made, _⟩ := insert_disjoint ascending free
        rw [made] at inserted
        cases inserted
        refine ⟨?_, free, by omega, by omega⟩
        rw [whole]
        exact List.perm_middle
      · push Not at free
        obtain ⟨o, member, overlap⟩ := free
        rw [insert_overlap ascending member (by simpa using overlap)] at inserted
        cases inserted

/-- An open list takes a region that overlaps no entry, unless it loses it. -/
theorem add_open_free {l : RegionList W} {r : Region W} (ascending : Ascending l.reg)
    (unlimited : l.Open) (free : ∀ o ∈ l.reg, r.overlaps o = false) :
    (¬ (r.begin < r.last ∧ l.combinedSize < W.maxWord) ∧ l.add r = .ok l) ∨
      ((r.begin < r.last ∧ l.combinedSize < W.maxWord) ∧ ∃ front back,
        l.reg = front ++ back ∧ (∀ o ∈ front, o.last < r.begin) ∧ (∀ o ∈ back, r.last < o.begin) ∧
        l.add r = .ok { l with
          reg := front ++ r :: back
          combinedSize := W.add l.combinedSize (r.last - r.begin + 1) }) := by
  obtain ⟨address, combined, room⟩ := unlimited
  have bounded := r.bounded
  have maxWord : W.maxWord = W.modulus - 1 := rfl
  have sumWord : W.add l.combinedSize r.size ≤ W.maxWord := by
    have := W.add_lt l.combinedSize r.size
    omega
  by_cases kept : r.begin < r.last ∧ l.combinedSize < W.maxWord
  · right
    obtain ⟨front, back, whole, inserted, below, above⟩ := insert_disjoint ascending free
    refine ⟨kept, front, back, whole, below, above, ?_⟩
    have limits : l.InLimit r := ⟨by omega, by omega, by rw [combined]; exact sumWord⟩
    have sum : W.add l.combinedSize r.size = W.add l.combinedSize (r.last - r.begin + 1) := by
      rw [Region.size, W.sub_of_le r.ordered bounded, Wordsize.add, Wordsize.add, Wordsize.add,
        Nat.add_mod_mod]
    rw [add_eq_insert false room limits kept.1, inserted, ok_bind, sum]
  · left
    refine ⟨kept, ?_⟩
    have ordered := r.ordered
    rw [add, if_neg (show ¬ l.addressLimit < r.begin by omega),
      if_neg (show ¬ l.addressLimit < r.last by omega), addSizeLimited, combined,
      if_neg (show ¬ W.maxWord < W.add l.combinedSize r.size by omega), addNolimitcheck]
    split_ifs with isInvalid full single
    · rfl
    · rfl
    · rfl
    · omega

end RegionList

theorem covered_by_cons {r : Region W} {reg : List (Region W)} {keep : Attr → Prop} {p : Nat} :
    CoveredBy (r :: reg) keep p ↔ (keep r.attr ∧ r.Has p) ∨ CoveredBy reg keep p := by
  simp only [CoveredBy, Region.Has, List.mem_cons, exists_eq_or_imp]

theorem covered_by_append {front back : List (Region W)} {keep : Attr → Prop} {p : Nat} :
    CoveredBy (front ++ back) keep p ↔ CoveredBy front keep p ∨ CoveredBy back keep p := by
  simp only [CoveredBy, List.mem_append, or_and_right, exists_or]

theorem covered_by_perm {reg other : List (Region W)} (perm : reg.Perm other) {keep : Attr → Prop}
    {p : Nat} : CoveredBy reg keep p ↔ CoveredBy other keep p := by
  simp only [CoveredBy, perm.mem_iff]

theorem covered_cons {r : Region W} {reg : List (Region W)} {p : Nat} :
    Covered (r :: reg) p ↔ r.Has p ∨ Covered reg p := by
  simp only [Covered, covered_by_cons, true_and]

/-! ## The law of `add` -/

/-- The region is not lost: it has two bytes and the running size is not at its
maximum, or its bytes are covered already. -/
def AddKept (l : RegionList W) (r : Region W) : Prop :=
  (r.begin < r.last ∧ l.combinedSize < W.maxWord) ∨ ∀ p, r.Has p → Covered l.reg p

theorem add_law_iff {l result : RegionList W} {r : Region W} (ascending : Ascending l.reg)
    (unlimited : l.Open) (added : l.add r = .ok result) :
    AddLaw l.reg r result.reg ↔ AddKept l r := by
  rcases RegionList.add_open ascending unlimited added with
    ⟨rfl, lost⟩ | ⟨perm, free, two, room⟩
  · constructor
    · intro law
      right
      intro p inRegion
      exact (law.covered p).mpr (.inr inRegion)
    · intro kept
      rcases kept with ⟨two, room⟩ | already
      · omega
      · refine ⟨?_, fun p _ _ attr => Iff.rfl⟩
        intro p
        constructor
        · exact .inl
        · rintro (old | inRegion)
          · exact old
          · exact already p inRegion
  · constructor
    · exact fun _ => .inl ⟨two, room⟩
    · intro _
      constructor
      · intro p
        rw [Covered, covered_by_perm perm]
        change Covered (r :: l.reg) p ↔ _
        rw [covered_cons, or_comm]
      · intro p before _ attr
        rw [covered_by_perm perm, covered_by_cons]
        constructor
        · exact .inr
        · rintro (⟨_, inRegion⟩ | old)
          · -- the byte would lie in the new region and in an old entry
            obtain ⟨o, member, inOld⟩ := covered_iff.mp before
            have apart := Region.overlaps_eq_false_iff.mp (free o member)
            unfold Region.Has at inRegion inOld
            omega
          · exact old

/-! ## The law of `sub` -/

/-- No remainder is lost: the entry is not split in two such that the upper part
is a single byte, or the running size is not at its maximum when it is split. -/
def SubKept (l : RegionList W) (r : Region W) : Prop :=
  ∀ c ∈ l.reg, c.begin < r.begin → r.last < c.last →
    r.last + 1 < c.last ∧ l.combinedSize < W.maxWord

/-- The entry `c` of an ascending list is replaced by parts of itself. -/
theorem sub_law_parts {front back result : List (Region W)} {c r : Region W}
    (parts : List (Region W)) (ascending : Ascending (front ++ c :: back))
    (inside : c.begin ≤ r.begin ∧ r.last ≤ c.last)
    (perm : result.Perm (front ++ (parts ++ back)))
    (same : ∀ part ∈ parts, part.attr = c.attr)
    (exact : ∀ p, Covered parts p ↔ c.Has p ∧ ¬ r.Has p) :
    SubLaw (front ++ c :: back) r result := by
  obtain ⟨_, tail, across⟩ := ascending_append.mp ascending
  obtain ⟨above, _⟩ := ascending_cons.mp tail
  -- no other entry has a byte of `c`
  have others : ∀ keep p, CoveredBy front keep p ∨ CoveredBy back keep p → ¬ c.Has p := by
    rintro keep p (⟨o, member, _, inOther⟩ | ⟨o, member, _, inOther⟩) inC
    · have := across o member c (by simp)
      unfold Region.Has at inC
      omega
    · have := above o member
      unfold Region.Has at inC
      omega
  have inC : ∀ p, r.Has p → c.Has p := by
    intro p inRegion
    unfold Region.Has at inRegion ⊢
    omega
  constructor
  · intro p
    simp only [Covered, covered_by_perm perm, covered_by_append, covered_by_cons, true_and]
    have parted := exact p
    rw [Covered] at parted
    rw [parted]
    have apart := others (fun _ => True) p
    have whole := inC p
    tauto
  · intro p before after attr
    simp only [Covered, covered_by_perm perm, covered_by_append, covered_by_cons] at before after ⊢
    have parted : CoveredBy parts (· = attr) p ↔ attr = c.attr ∧ Covered parts p := by
      constructor
      · rintro ⟨part, member, isAttr, inPart⟩
        exact ⟨isAttr.symm.trans (same part member), part, member, trivial, inPart⟩
      · rintro ⟨isAttr, part, member, _, inPart⟩
        exact ⟨part, member, (same part member).trans isAttr.symm, inPart⟩
    rw [parted, exact p]
    have apart := others (fun _ => True) p
    have parted := exact p
    rw [Covered] at parted
    rw [parted] at after
    constructor
    · rintro (inFront | ⟨isAttr, here⟩ | inBack)
      · exact .inl inFront
      · right
        left
        exact ⟨isAttr.symm, by tauto⟩
      · exact .inr (.inr inBack)
    · rintro (inFront | ⟨isAttr, here, _⟩ | inBack)
      · exact .inl inFront
      · exact .inr (.inl ⟨isAttr.symm, here⟩)
      · exact .inr (.inr inBack)

/-- In an ascending list only one entry contains the region. -/
theorem containing_unique {front back : List (Region W)} {c o r : Region W}
    (ascending : Ascending (front ++ c :: back)) (inside : c.begin ≤ r.begin ∧ r.last ≤ c.last)
    (member : o ∈ front ++ c :: back) (begins : o.begin ≤ r.begin) (ends : r.last ≤ o.last) :
    o = c := by
  obtain ⟨_, tail, across⟩ := ascending_append.mp ascending
  obtain ⟨above, _⟩ := ascending_cons.mp tail
  have ordered := r.ordered
  rcases List.mem_append.mp member with inFront | inTail
  · have := across o inFront c (by simp)
    omega
  · rcases List.mem_cons.mp inTail with same | inBack
    · exact same
    · have := above o inBack
      omega

theorem sub_kept_split {l : RegionList W} {front back : List (Region W)} {c r : Region W}
    (ascending : Ascending l.reg) (whole : l.reg = front ++ c :: back)
    (inside : c.begin ≤ r.begin ∧ r.last ≤ c.last) :
    SubKept l r ↔ (c.begin < r.begin → r.last < c.last →
      r.last + 1 < c.last ∧ l.combinedSize < W.maxWord) := by
  constructor
  · intro kept
    exact kept c (by rw [whole]; simp)
  · intro kept o member begins ends
    rw [whole] at ascending member
    have same := containing_unique ascending inside member begins.le ends.le
    rw [same] at begins ends ⊢
    exact kept begins ends

/-- Splitting an entry around the region. -/
theorem sub_split_law {l added : RegionList W} {front back : List (Region W)}
    {c part tail r : Region W} (ascending : Ascending l.reg) (unlimited : l.Open)
    (whole : l.reg = front ++ c :: back) (begins : c.begin < r.begin) (ends : r.last < c.last)
    (isPart : part.begin = c.begin ∧ part.last = r.begin - 1 ∧ part.attr = c.attr)
    (isTail : tail.begin = r.last + 1 ∧ tail.last = c.last ∧ tail.attr = c.attr)
    (adds : ({ l with reg := front ++ part :: back } : RegionList W).add tail = .ok added) :
    SubLaw l.reg r added.reg ↔ r.last + 1 < c.last ∧ l.combinedSize < W.maxWord := by
  have ordered := r.ordered
  have partAscending : Ascending (front ++ part :: back) := by
    rw [whole] at ascending
    exact ascending_shrink ascending (by omega) (by omega)
  have partOpen : ({ l with reg := front ++ part :: back } : RegionList W).Open := by
    refine ⟨unlimited.address, unlimited.combined, ?_⟩
    have room := unlimited.room
    rw [whole] at room
    simpa using room
  rcases RegionList.add_open partAscending partOpen adds with
    ⟨rfl, lost⟩ | ⟨perm, _, two, room⟩
  · change (tail.begin = tail.last ∨ W.maxWord ≤ l.combinedSize) at lost
    constructor
    · intro law
      -- the last byte of the entry is missing
      exfalso
      have before : Covered l.reg c.last := by
        rw [covered_iff, whole]
        exact ⟨c, by simp, c.ordered, le_rfl⟩
      obtain ⟨o, member, above, below⟩ := covered_iff.mp ((law.covered c.last).mpr ⟨before, by
        unfold Region.Has
        omega⟩)
      rw [whole] at ascending
      obtain ⟨_, tailAscending, across⟩ := ascending_append.mp ascending
      have behind := (ascending_cons.mp tailAscending).1
      rcases List.mem_append.mp member with inFront | inTail
      · have := across o inFront c (by simp)
        have := c.ordered
        omega
      · rcases List.mem_cons.mp inTail with rfl | inBack
        · omega
        · have := behind o inBack
          omega
    · rintro ⟨two, room⟩
      omega
  · constructor
    · intro _
      exact ⟨by omega, room⟩
    · intro _
      rw [whole] at ascending ⊢
      apply sub_law_parts [part, tail] ascending ⟨by omega, by omega⟩
      · refine perm.trans ?_
        have middle : (front ++ ([part, tail] ++ back)).Perm (tail :: (front ++ part :: back)) := by
          have shifted : front ++ ([part, tail] ++ back) = (front ++ [part]) ++ tail :: back := by
            simp
          rw [shifted]
          refine List.perm_middle.trans ?_
          simp
        exact middle.symm
      · intro other member
        simp only [List.mem_cons, List.not_mem_nil, or_false] at member
        rcases member with rfl | rfl
        · exact isPart.2.2
        · exact isTail.2.2
      · intro p
        rw [covered_cons, covered_cons]
        have empty : ¬ Covered ([] : List (Region W)) p := by
          rintro ⟨o, member, _⟩
          simp at member
        unfold Region.Has
        constructor
        · rintro (inPart | inTail | none)
          · omega
          · omega
          · exact absurd none empty
        · intro inside
          rcases Nat.lt_or_ge p r.begin with below | above
          · left
            omega
          · right
            left
            omega

theorem not_covered_nil {p : Nat} : ¬ Covered ([] : List (Region W)) p := by
  rintro ⟨o, member, _⟩
  simp at member

theorem covered_singleton {r : Region W} {p : Nat} : Covered [r] p ↔ r.Has p := by
  rw [covered_cons, or_iff_left not_covered_nil]

theorem sub_law_iff {l result : RegionList W} {r : Region W} {found : Bool}
    (ascending : Ascending l.reg) (unlimited : l.Open) (cut : l.sub r = .ok (found, result)) :
    (found = true ↔ ∃ c ∈ l.reg, c.contains r = true) ∧
      (found = true → (SubLaw l.reg r result.reg ↔ SubKept l r)) := by
  have rOrdered := r.ordered
  unfold RegionList.sub at cut
  simp only at cut
  split at cut
  · rename_i none
    cases cut
    refine ⟨?_, by simp⟩
    simp only [Bool.false_eq_true, false_iff, not_exists, not_and]
    intro c member contains
    have all := List.dropWhile_eq_nil_iff.mp none c member
    rw [contains] at all
    cases all
  · rename_i c back split
    obtain ⟨whole, begins, ends⟩ := RegionList.split_at_containing split
    generalize l.reg.takeWhile (fun c => !c.contains r) = front at whole cut
    have cBounded := c.bounded
    have contains : ∃ c ∈ l.reg, c.contains r = true :=
      ⟨c, by rw [whole]; simp, Region.contains_iff.mpr ⟨begins, ends⟩⟩
    have wholeAscending := ascending
    rw [whole] at wholeAscending
    rw [sub_kept_split ascending whole ⟨begins, ends⟩]
    split_ifs at cut with same atBegin atEnd
    · cases cut
      refine ⟨by simpa using contains, fun _ => iff_of_true ?_ (by omega)⟩
      rw [whole]
      apply sub_law_parts [] wholeAscending ⟨begins, ends⟩ (.refl _) (by simp)
      intro p
      rw [iff_false_left not_covered_nil]
      unfold Region.Has
      omega
    · obtain ⟨part, made, ⟨⟩⟩ := bind_ok_iff.mp cut
      obtain ⟨partBegin, partLast, partAttr⟩ := Region.set_begin_ok.mp made
      rw [W.add_of_lt (by omega)] at partBegin
      refine ⟨by simpa using contains, fun _ => iff_of_true ?_ (by omega)⟩
      rw [whole]
      apply sub_law_parts [part] wholeAscending ⟨begins, ends⟩ (.refl _) (by simpa using partAttr)
      intro p
      rw [covered_singleton]
      unfold Region.Has
      omega
    · obtain ⟨part, made, ⟨⟩⟩ := bind_ok_iff.mp cut
      obtain ⟨partBegin, partLast, partAttr⟩ := Region.set_last_ok.mp made
      rw [W.sub_of_le (by omega) (by omega)] at partLast
      refine ⟨by simpa using contains, fun _ => iff_of_true ?_ (by omega)⟩
      rw [whole]
      apply sub_law_parts [part] wholeAscending ⟨begins, ends⟩ (.refl _) (by simpa using partAttr)
      intro p
      rw [covered_singleton]
      unfold Region.Has
      omega
    · obtain ⟨tail, madeTail, cut⟩ := bind_ok_iff.mp cut
      obtain ⟨part, madePart, cut⟩ := bind_ok_iff.mp cut
      obtain ⟨tailBegin, tailLast, tailAttr⟩ := Region.set_begin_ok.mp madeTail
      obtain ⟨partBegin, partLast, partAttr⟩ := Region.set_last_ok.mp madePart
      rw [W.add_of_lt (by omega)] at tailBegin
      rw [W.sub_of_le (by omega) (by omega)] at partLast
      obtain ⟨added, adds, ⟨⟩⟩ := bind_ok_iff.mp cut
      refine ⟨by simpa using contains, fun _ => ?_⟩
      rw [sub_split_law ascending unlimited whole (by omega) (by omega)
        ⟨partBegin, partLast, partAttr⟩ ⟨tailBegin, tailLast, tailAttr⟩ adds]
      constructor
      · exact fun kept _ _ => kept
      · exact fun kept => kept (by omega) (by omega)

/-- The coverage laws, each with the exact condition under which it holds. -/
theorem region_list_coverage {l : RegionList W} (ascending : Ascending l.reg)
    (unlimited : l.Open) (r : Region W) :
    (∀ result, l.add r = .ok result → (AddLaw l.reg r result.reg ↔ AddKept l r)) ∧
      ∀ found result, l.sub r = .ok (found, result) →
        (found = true ↔ ∃ c ∈ l.reg, c.contains r = true) ∧
          (found = true → (SubLaw l.reg r result.reg ↔ SubKept l r)) :=
  ⟨fun _ added => add_law_iff ascending unlimited added,
    fun _ _ cut => sub_law_iff ascending unlimited cut⟩

def onePage : RegionList .w64 :=
  ⟨[.fixed 0x1000 0x1fff {} (.refl true)], 300, Wordsize.w64.maxWord, Wordsize.w64.maxWord,
    0x1000⟩

theorem one_page_open : Ascending onePage.reg ∧ onePage.Open :=
  ⟨List.pairwise_singleton _ _, rfl, rfl, by decide⟩

def twoBytes : Region .w64 := ⟨0x2000, 0x2001, {}, by decide, by decide⟩

def onePageMore : RegionList .w64 :=
  ⟨[.fixed 0x1000 0x1fff {} (.refl true), twoBytes], 300, Wordsize.w64.maxWord,
    Wordsize.w64.maxWord, 0x1002⟩

theorem region_list_coverage_one_page :
    onePage.add twoBytes = .ok onePageMore ∧
      (AddLaw onePage.reg twoBytes onePageMore.reg ↔ AddKept onePage twoBytes) := by
  have added : onePage.add twoBytes = .ok onePageMore := by decide
  exact ⟨added, (region_list_coverage one_page_open.1 one_page_open.2 twoBytes).1 _ added⟩

/-- A page without its last byte but one: the last byte is lost. A region of one
byte is not added. -/
theorem one_byte_is_lost :
    (Ascending onePage.reg ∧ onePage.Open) ∧
      (∃ result, onePage.sub ⟨0x1100, 0x1ffe, {}, by decide, by decide⟩ = .ok (true, result) ∧
        ¬ SubLaw onePage.reg ⟨0x1100, 0x1ffe, {}, by decide, by decide⟩ result.reg) ∧
      ∃ result, onePage.add ⟨0x2000, 0x2000, {}, by decide, by decide⟩ = .ok result ∧
        ¬ AddLaw onePage.reg ⟨0x2000, 0x2000, {}, by decide, by decide⟩ result.reg := by
  refine ⟨one_page_open, ⟨⟨[⟨0x1000, 0x10ff, {}, by decide, by decide⟩], 300,
    Wordsize.w64.maxWord, Wordsize.w64.maxWord, 0x1000⟩, by decide, ?_⟩, ⟨onePage, by decide, ?_⟩⟩
  · intro law
    have lost := (law.covered 0x1fff).mpr
      ⟨covered_iff.mpr ⟨_, List.mem_singleton_self _, by unfold Region.Has; decide⟩,
        by unfold Region.Has; decide⟩
    rw [covered_singleton] at lost
    unfold Region.Has at lost
    revert lost
    decide
  · intro law
    have lost := (law.covered 0x2000).mpr (.inr (by unfold Region.Has; decide))
    change Covered [_] _ at lost
    rw [covered_singleton] at lost
    unfold Region.Has at lost
    revert lost
    decide

end L4Bootstrap
