import L4Bootstrap.RegionLaws

/-!
# Kernel memory areas

`add_kmem_area_on_ram` of `startup.cc` fills the gaps that the regions leave in
an area with entries for the kernel. It changes the list it walks through, and
starts over after each change; the entry just added is to make the walk go on. A
gap of one byte is not added by the list, and the loop finds it again forever.
-/

namespace L4Bootstrap

open MachineWord CheckedLoop

set_option autoImplicit false

variable {W : Wordsize}

def kmemAttr : Attr := { name := .literal ".kmemarea", type := .kmem }

/-- How a walk through the list ends: at an entry with free memory in front of
it, with nothing left of the area, or at the end of the list. -/
inductive KmemScan (W : Wordsize)
  | before (rAdd gap : Region W)
  | covered
  | remaining (rAdd : Region W)
  deriving DecidableEq

/-- The walk from the first entry on, with the part of the area that is left. -/
def scanKmem (rAdd : Region W) : List (Region W) → Checked (KmemScan W)
  | [] => .ok (.remaining rAdd)
  | r :: rest =>
      if rAdd.overlaps r then
        if rAdd.begin < r.begin then do
          let gap ← Region.make rAdd.begin (W.sub r.begin 1) kmemAttr
          .ok (.before rAdd gap)
        else if rAdd.last ≤ r.last then .ok .covered
        else do
          let rAdd ← rAdd.setBegin (W.add r.last 1)
          scanKmem rAdd rest
      else scanKmem rAdd rest

structure KmemState (W : Wordsize) where
  regions : RegionList W
  rAdd : Region W
  added : Bool

/-- The loop between two restarts at the first entry. -/
def kmemRound (s : KmemState W) : Checked (Round (KmemState W) (Bool × RegionList W)) := do
  let scan ← scanKmem s.rAdd s.regions.reg
  match scan with
  | .before rAdd gap => do
      let regions ← s.regions.add gap
      .ok (.again ⟨regions, rAdd, true⟩)
  | .covered => .ok (.leave (s.added, s.regions))
  | .remaining rAdd => do
      let rest ← Region.make rAdd.begin rAdd.last kmemAttr
      let regions ← s.regions.add rest
      .ok (.leave (true, regions))

/-- `add_kmem_area_on_ram`, for at most `fuel` walks through the list. -/
def addKmemAreaOnRam (fuel : Nat) (regions : RegionList W) (rAdd : Region W) :
    Checked (Bool × RegionList W) :=
  loop kmemRound .diverges fuel ⟨regions, rAdd, false⟩

/-! ## The gaps -/

/-- The gaps that the entries leave between two addresses, with first and last
byte. -/
def gaps (low high : Nat) : List (Region W) → List (Nat × Nat)
  | [] => [(low, high)]
  | r :: rest =>
      if r.last < low ∨ high < r.begin then gaps low high rest
      else
        let behind := if high ≤ r.last then [] else gaps (r.last + 1) high rest
        if low < r.begin then (low, r.begin - 1) :: behind else behind

theorem gaps_skip {low high : Nat} {front back : List (Region W)}
    (below : ∀ r ∈ front, r.last < low) : gaps low high (front ++ back) = gaps low high back := by
  induction front with
  | nil => rfl
  | cons r rest ih =>
      rw [List.cons_append, gaps, if_pos (.inl (below r (by simp)))]
      exact ih fun o member => below o (by simp [member])

/-- The gaps hold exactly the bytes that no entry covers. -/
theorem gaps_spec {low high : Nat} {reg : List (Region W)} (ascending : Ascending reg)
    (ordered : low ≤ high) (p : Nat) :
    (∃ gap ∈ gaps low high reg, gap.1 ≤ p ∧ p ≤ gap.2) ↔
      low ≤ p ∧ p ≤ high ∧ ¬ Covered reg p := by
  induction reg generalizing low with
  | nil => simp [gaps, not_covered_nil]
  | cons r rest ih =>
      obtain ⟨above, restAscending⟩ := ascending_cons.mp ascending
      have rOrdered := r.ordered
      have restAbove : Covered rest p → r.last < p := by
        intro covered
        obtain ⟨o, member, inside⟩ := covered_iff.mp covered
        have := above o member
        unfold Region.Has at inside
        omega
      rw [gaps, covered_cons, not_or]
      unfold Region.Has
      split_ifs with apart short front front
      · rw [ih restAscending ordered]
        constructor
        · rintro ⟨lower, upper, free⟩
          exact ⟨lower, upper, by omega, free⟩
        · rintro ⟨lower, upper, _, free⟩
          exact ⟨lower, upper, free⟩
      · simp only [List.mem_singleton, exists_eq_left]
        constructor
        · rintro ⟨lower, upper⟩
          exact ⟨lower, by omega, by omega, fun covered => by have := restAbove covered; omega⟩
        · rintro ⟨lower, upper, outside, _⟩
          omega
      · simp only [List.not_mem_nil, false_and, exists_false, false_iff, not_and]
        omega
      · have tail : (∃ gap ∈ gaps (r.last + 1) high rest, gap.1 ≤ p ∧ p ≤ gap.2) ↔ _ :=
          ih restAscending (by omega)
        simp only [List.mem_cons, exists_eq_or_imp, tail]
        constructor
        · rintro (⟨lower, upper⟩ | ⟨lower, upper, free⟩)
          · exact ⟨lower, by omega, by omega, fun covered => by have := restAbove covered; omega⟩
          · exact ⟨by omega, upper, by omega, free⟩
        · rintro ⟨lower, upper, outside, free⟩
          rcases Nat.lt_or_ge r.last p with behind | inFront
          · exact .inr ⟨behind, upper, free⟩
          · left
            omega
      · rw [ih restAscending (by omega)]
        constructor
        · rintro ⟨lower, upper, free⟩
          exact ⟨by omega, upper, by omega, free⟩
        · rintro ⟨lower, upper, outside, free⟩
          exact ⟨by omega, upper, free⟩

theorem gaps_ordered {low high : Nat} {reg : List (Region W)} (ordered : low ≤ high)
    {gap : Nat × Nat} (member : gap ∈ gaps low high reg) :
    low ≤ gap.1 ∧ gap.1 ≤ gap.2 ∧ gap.2 ≤ high := by
  induction reg generalizing low with
  | nil =>
      rw [gaps, List.mem_singleton] at member
      rw [member]
      exact ⟨le_rfl, ordered, le_rfl⟩
  | cons r rest ih =>
      have rOrdered := r.ordered
      rw [gaps] at member
      split_ifs at member with apart short front front
      · exact ih ordered member
      · rw [List.mem_singleton] at member
        rw [member]
        exact ⟨le_rfl, by omega, by omega⟩
      · simp at member
      · rcases List.mem_cons.mp member with rfl | inTail
        · exact ⟨le_rfl, by omega, by omega⟩
        · have := ih (by omega) inTail
          omega
      · have := ih (by omega) member
        omega

/-! ## One walk -/

/-- A walk that stops in front of an entry: the gap is the first one, the same
walk finds it again, and behind a new entry in it the other gaps are left. -/
structure ScanBefore (reg : List (Region W)) (rAdd left gap : Region W) : Prop where
  last : left.last = rAdd.last
  begin : left.begin = gap.begin
  attr : gap.attr = kmemAttr
  inside : rAdd.begin ≤ gap.begin ∧ gap.last < rAdd.last
  again : scanKmem left reg = .ok (.before left gap)
  split : ∃ front r rest, reg = front ++ r :: rest ∧ (∀ o ∈ front, o.last < gap.begin) ∧
    r.begin = gap.last + 1 ∧ r.begin ≤ rAdd.last ∧
    gaps rAdd.begin rAdd.last reg =
      (gap.begin, gap.last) :: gaps (gap.last + 1) rAdd.last (r :: rest)

theorem scan_overlap_skip {rAdd r : Region W} {rest : List (Region W)}
    (apart : r.last < rAdd.begin) : scanKmem rAdd (r :: rest) = scanKmem rAdd rest := by
  have none : ¬ rAdd.overlaps r = true := by
    rw [Region.overlaps_iff]
    omega
  rw [scanKmem, if_neg none]

theorem scan_kmem_spec {rAdd : Region W} {reg : List (Region W)} (ascending : Ascending reg) :
    (scanKmem rAdd reg = .ok .covered ∧ gaps rAdd.begin rAdd.last reg = []) ∨
      (∃ left, scanKmem rAdd reg = .ok (.remaining left) ∧ left.last = rAdd.last ∧
        gaps rAdd.begin rAdd.last reg = [(left.begin, left.last)] ∧
        ∀ o ∈ reg, left.overlaps o = false) ∨
      ∃ left gap, scanKmem rAdd reg = .ok (.before left gap) ∧ ScanBefore reg rAdd left gap := by
  induction reg generalizing rAdd with
  | nil => exact .inr (.inl ⟨rAdd, rfl, rfl, rfl, by simp⟩)
  | cons r rest ih =>
      obtain ⟨above, restAscending⟩ := ascending_cons.mp ascending
      have rOrdered := r.ordered
      have rBounded := r.bounded
      have ordered := rAdd.ordered
      by_cases overlap : rAdd.overlaps r = true
      · obtain ⟨reaches, begins⟩ := Region.overlaps_iff.mp overlap
        have together : ¬ (r.last < rAdd.begin ∨ rAdd.last < r.begin) := by omega
        by_cases front : rAdd.begin < r.begin
        · -- free memory in front of the entry
          right
          right
          obtain ⟨gap, gapBegin, gapLast, gapAttr⟩ : ∃ gap : Region W, gap.begin = rAdd.begin ∧
              gap.last = r.begin - 1 ∧ gap.attr = kmemAttr :=
            ⟨⟨rAdd.begin, r.begin - 1, kmemAttr, by omega, by omega⟩, rfl, rfl, rfl⟩
          have made : Region.make rAdd.begin (W.sub r.begin 1) kmemAttr = .ok gap := by
            rw [W.sub_of_le (by omega) (by omega)]
            exact Region.make_ok.mpr ⟨gapBegin, gapLast, gapAttr⟩
          have found : scanKmem rAdd (r :: rest) = .ok (.before rAdd gap) := by
            rw [scanKmem, if_pos overlap, if_pos front, made, ok_bind]
          refine ⟨rAdd, gap, found, rfl, gapBegin.symm, gapAttr, ⟨gapBegin.ge, by omega⟩, found,
            [], r, rest, rfl, by simp, ?_, reaches, ?_⟩
          · rw [gapLast]
            omega
          have same : gap.last + 1 = r.begin := by omega
          have behind : gaps r.begin rAdd.last (r :: rest) =
              if rAdd.last ≤ r.last then [] else gaps (r.last + 1) rAdd.last rest := by
            rw [gaps, if_neg (by omega)]
            simp only [lt_irrefl, if_false]
          rw [same, behind, gaps, if_neg together, gapBegin, gapLast]
          simp only [if_pos front]
        · by_cases short : rAdd.last ≤ r.last
          · left
            refine ⟨?_, ?_⟩
            · rw [scanKmem, if_pos overlap, if_neg front, if_pos short]
            · rw [gaps, if_neg together]
              simp only [if_neg front, if_pos short]
          · -- the walk goes on behind the entry
            obtain ⟨next, nextBegin, nextLast, nextAttr⟩ : ∃ next : Region W,
                next.begin = r.last + 1 ∧ next.last = rAdd.last ∧ next.attr = rAdd.attr :=
              ⟨⟨r.last + 1, rAdd.last, rAdd.attr, by omega, rAdd.bounded⟩, rfl, rfl, rfl⟩
            have made : rAdd.setBegin (W.add r.last 1) = .ok next := by
              rw [W.add_of_lt (by have := rAdd.bounded; omega)]
              exact Region.set_begin_ok.mpr ⟨nextBegin, nextLast, nextAttr⟩
            have step : scanKmem rAdd (r :: rest) = scanKmem next rest := by
              rw [scanKmem, if_pos overlap, if_neg front, if_neg short, made, ok_bind]
            have gapsStep : gaps rAdd.begin rAdd.last (r :: rest) =
                gaps next.begin next.last rest := by
              rw [gaps, if_neg together, nextBegin, nextLast]
              simp only [if_neg front, if_neg short]
            rw [step, gapsStep]
            rcases @ih next restAscending with
              covered | ⟨left, found, lasts, isGap, free⟩ | ⟨left, gap, found, before⟩
            · exact .inl covered
            · right
              left
              refine ⟨left, found, lasts.trans nextLast, isGap, ?_⟩
              intro o member
              rcases List.mem_cons.mp member with rfl | inRest
              · have inGaps : (left.begin, left.last) ∈ gaps next.begin next.last rest := by
                  rw [isGap]
                  simp
                have low : next.begin ≤ left.begin := (gaps_ordered next.ordered inGaps).1
                rw [Region.overlaps_eq_false_iff]
                omega
              · exact free o inRest
            · right
              right
              obtain ⟨front', o, back, whole, below, begins', reaches', isGaps⟩ := before.split
              have low := before.inside.1
              refine ⟨left, gap, found, before.last.trans nextLast, before.begin, before.attr,
                ⟨by omega, by have := before.inside.2; omega⟩, ?_, r :: front', o, back,
                by rw [whole, List.cons_append], ?_, begins', by omega, ?_⟩
              · have := before.begin
                rw [scan_overlap_skip (by omega)]
                exact before.again
              · intro other member
                rcases List.mem_cons.mp member with rfl | inFront
                · omega
                · exact below other inFront
              · rw [gapsStep, isGaps, nextLast]
      · have apart : r.last < rAdd.begin ∨ rAdd.last < r.begin := by
          rw [Region.overlaps_iff] at overlap
          omega
        have step : scanKmem rAdd (r :: rest) = scanKmem rAdd rest := by
          rw [scanKmem, if_neg overlap]
        have gapsStep : gaps rAdd.begin rAdd.last (r :: rest) =
            gaps rAdd.begin rAdd.last rest := by
          rw [gaps, if_pos apart]
        rw [step, gapsStep]
        rcases @ih rAdd restAscending with
          covered | ⟨left, found, lasts, isGap, free⟩ | ⟨left, gap, found, before⟩
        · exact .inl covered
        · right
          left
          refine ⟨left, found, lasts, isGap, ?_⟩
          intro o member
          rcases List.mem_cons.mp member with rfl | inRest
          · have inGaps : (left.begin, left.last) ∈ gaps rAdd.begin rAdd.last rest := by
              rw [isGap]
              simp
            have low : rAdd.begin ≤ left.begin := (gaps_ordered rAdd.ordered inGaps).1
            rw [Region.overlaps_eq_false_iff]
            omega
          · exact free o inRest
        · right
          right
          obtain ⟨front', o, back, whole, below, begins', reaches', isGaps⟩ := before.split
          have low := before.inside.1
          have behind : r.last < rAdd.begin := by
            have := above o (by rw [whole]; simp)
            omega
          refine ⟨left, gap, found, before.last, before.begin, before.attr, before.inside, ?_,
            r :: front', o, back, by rw [whole, List.cons_append], ?_, begins', reaches', ?_⟩
          · have := before.begin
            rw [scan_overlap_skip (by omega)]
            exact before.again
          · intro other member
            rcases List.mem_cons.mp member with rfl | inFront
            · omega
            · exact below other inFront
          · rw [gapsStep, isGaps]

/-! ## All walks -/

/-- Each gap has at least two bytes, and the running size of the list is not at
its maximum when the gap is added. -/
def GapsKept (W : Wordsize) : Nat → List (Nat × Nat) → Prop
  | _, [] => True
  | combined, gap :: rest =>
      gap.1 < gap.2 ∧ combined < W.maxWord ∧ GapsKept W (W.add combined (gap.2 - gap.1 + 1)) rest

/-- A list without limits, with a free store entry for each gap. -/
structure RoomForGaps (s : KmemState W) (free : List (Nat × Nat)) : Prop where
  ascending : Ascending s.regions.reg
  address : s.regions.addressLimit = W.maxWord
  combined : s.regions.maxCombinedSize = W.maxWord
  isGaps : gaps s.rAdd.begin s.rAdd.last s.regions.reg = free
  room : s.regions.reg.length + free.length ≤ s.regions.max

/-- What one walk does with the first gap. -/
theorem kmem_round_spec {s : KmemState W} {first : Nat × Nat} {others : List (Nat × Nat)}
    (ready : RoomForGaps s (first :: others)) :
    (¬ (first.1 < first.2 ∧ s.regions.combinedSize < W.maxWord) ∧
      ((others = [] ∧ kmemRound s = .ok (.leave (true, s.regions))) ∨
        ∃ left, kmemRound s = .ok (.again ⟨s.regions, left, true⟩) ∧
          kmemRound ⟨s.regions, left, true⟩ = .ok (.again ⟨s.regions, left, true⟩))) ∨
      ((first.1 < first.2 ∧ s.regions.combinedSize < W.maxWord) ∧
        ∃ regions entry, entry.begin = first.1 ∧ entry.last = first.2 ∧ entry.attr = kmemAttr ∧
          regions.reg.Perm (entry :: s.regions.reg) ∧ Ascending regions.reg ∧
          regions.combinedSize = W.add s.regions.combinedSize (first.2 - first.1 + 1) ∧
          ((others = [] ∧ kmemRound s = .ok (.leave (true, regions))) ∨
            ∃ left, kmemRound s = .ok (.again ⟨regions, left, true⟩) ∧
              s.rAdd.begin ≤ left.begin ∧ left.last = s.rAdd.last ∧
              RoomForGaps ⟨regions, left, true⟩ others)) := by
  obtain ⟨ascending, address, combined, isGaps, room⟩ := ready
  rw [List.length_cons] at room
  have isOpen : s.regions.Open := ⟨address, combined, by omega⟩
  rcases @scan_kmem_spec W s.rAdd _ ascending with
    ⟨_, none⟩ | ⟨left, found, lasts, isGap, free⟩ | ⟨left, gap, found, before⟩
  · rw [none] at isGaps
    cases isGaps
  · rw [isGap] at isGaps
    cases isGaps
    obtain ⟨entry, entryBegin, entryLast, entryAttr⟩ : ∃ entry : Region W,
        entry.begin = left.begin ∧ entry.last = left.last ∧ entry.attr = kmemAttr :=
      ⟨⟨left.begin, left.last, kmemAttr, left.ordered, left.bounded⟩, rfl, rfl, rfl⟩
    have made : Region.make left.begin left.last kmemAttr = .ok entry :=
      Region.make_ok.mpr ⟨entryBegin, entryLast, entryAttr⟩
    have entryFree : ∀ o ∈ s.regions.reg, entry.overlaps o = false := by
      intro o member
      have apart := Region.overlaps_eq_false_iff.mp (free o member)
      rw [Region.overlaps_eq_false_iff]
      omega
    have round : kmemRound s = (do
        let regions ← s.regions.add entry
        .ok (.leave (true, regions))) := by
      rw [kmemRound, found, ok_bind]
      simp only [made, ok_bind]
    rcases RegionList.add_open_free ascending isOpen entryFree with
      ⟨lost, same⟩ | ⟨kept, front, back, whole, below, above, adds⟩
    · rw [entryBegin, entryLast] at lost
      exact .inl ⟨lost, .inl ⟨rfl, by rw [round, same, ok_bind]⟩⟩
    · rw [entryBegin, entryLast] at kept
      right
      refine ⟨kept, _, entry, entryBegin, entryLast, entryAttr, ?_, ?_, ?_,
        .inl ⟨rfl, by rw [round, adds, ok_bind]⟩⟩
      · rw [whole]
        exact List.perm_middle
      · rw [whole] at ascending
        exact ascending_insert ascending below above
      · rw [entryBegin, entryLast]
  · obtain ⟨frontEntries, r, rest, isWhole, lower, begins, reaches, isFirst⟩ := before.split
    rw [isFirst] at isGaps
    cases isGaps
    have gapOrdered := gap.ordered
    have gapFree : ∀ o ∈ s.regions.reg, gap.overlaps o = false := by
      intro o member
      rw [Region.overlaps_eq_false_iff]
      rw [isWhole] at member ascending
      rcases List.mem_append.mp member with inFront | inTail
      · exact .inr (lower o inFront)
      · left
        rcases List.mem_cons.mp inTail with rfl | inRest
        · omega
        · have := (ascending_cons.mp (ascending_append.mp ascending).2.1).1 o inRest
          have := r.ordered
          omega
    have round : ∀ rAdd added, scanKmem rAdd s.regions.reg = .ok (.before left gap) →
        kmemRound ⟨s.regions, rAdd, added⟩ = (do
          let regions ← s.regions.add gap
          .ok (.again ⟨regions, left, true⟩)) := by
      intro rAdd added scanned
      rw [kmemRound]
      simp only [scanned, ok_bind]
    rcases RegionList.add_open_free ascending isOpen gapFree with
      ⟨lost, same⟩ | ⟨kept, front, back, whole, below, above, adds⟩
    · left
      refine ⟨lost, .inr ⟨left, ?_, ?_⟩⟩
      · rw [round s.rAdd s.added found, same, ok_bind]
      · rw [round left true before.again, same, ok_bind]
    · right
      have newAscending : Ascending (front ++ gap :: back) := by
        rw [whole] at ascending
        exact ascending_insert ascending below above
      refine ⟨kept, _, gap, rfl, rfl, before.attr, ?_, newAscending, rfl,
        .inr ⟨left, by rw [round s.rAdd s.added found, adds, ok_bind], ?_, before.last, ?_⟩⟩
      · rw [whole]
        exact List.perm_middle
      · rw [before.begin]
        exact before.inside.1
      · refine ⟨newAscending, address, combined, ?_, ?_⟩
        · -- behind the new entry the gaps are those of the old list
          have inside := before.inside
          have oldTail : gaps (gap.last + 1) s.rAdd.last s.regions.reg =
              gaps (gap.last + 1) s.rAdd.last (r :: rest) := by
            rw [isWhole]
            exact gaps_skip fun o member => by have := lower o member; omega
          have newTail : gaps (gap.last + 1) s.rAdd.last s.regions.reg =
              gaps (gap.last + 1) s.rAdd.last back := by
            rw [whole]
            exact gaps_skip fun o member => by have := below o member; omega
          change gaps left.begin left.last (front ++ gap :: back) = _
          rw [before.begin, before.last, gaps_skip below, gaps, if_neg (by omega)]
          simp only [lt_irrefl, if_false, if_neg (show ¬ s.rAdd.last ≤ gap.last by omega)]
          rw [← newTail, oldTail]
        · rw [whole] at room
          change (front ++ gap :: back).length + _ ≤ _
          simp only [List.length_append, List.length_cons] at room ⊢
          omega

/-- If all gaps are kept, the walks end and each gap has become an entry. -/
theorem kmem_loop_fills {free : List (Nat × Nat)} {s : KmemState W} (ready : RoomForGaps s free)
    (kept : GapsKept W s.regions.combinedSize free) :
    ∃ fuel result entries, loop kmemRound .diverges fuel s = .ok (s.added || !free.isEmpty, result) ∧
      result.reg.Perm (entries ++ s.regions.reg) ∧ Ascending result.reg ∧
      (∀ e ∈ entries, e.attr = kmemAttr) ∧
      entries.map (fun e => (e.begin, e.last)) = free := by
  induction free generalizing s with
  | nil =>
      have noGap := ready.isGaps
      refine ⟨1, s.regions, [], ?_, .refl _, ready.ascending, by simp, rfl⟩
      have round : kmemRound s = .ok (.leave (s.added, s.regions)) := by
        rcases @scan_kmem_spec W s.rAdd _ ready.ascending with
          ⟨found, _⟩ | ⟨left, _, _, isGap, _⟩ | ⟨left, gap, _, before⟩
        · rw [kmemRound, found, ok_bind]
        · rw [isGap] at noGap
          cases noGap
        · obtain ⟨_, _, _, _, _, _, _, isFirst⟩ := before.split
          rw [isFirst] at noGap
          cases noGap
      rw [loop, round]
      simp
  | cons first others ih =>
      obtain ⟨two, total, othersKept⟩ := kept
      rcases kmem_round_spec ready with
        ⟨lost, _⟩ | ⟨_, regions, entry, entryBegin, entryLast, entryAttr, perm, ascending, sum, goes⟩
      · exact absurd ⟨two, total⟩ lost
      · rcases goes with ⟨rfl, round⟩ | ⟨left, round, _, _, next⟩
        · refine ⟨1, regions, [entry], ?_, perm, ascending, by simpa using entryAttr, ?_⟩
          · rw [loop, round]
            simp
          · rw [List.map_singleton, entryBegin, entryLast]
        · rw [← sum] at othersKept
          obtain ⟨fuel, result, entries, returned, morePerm, kept, attrs, isGaps⟩ :=
            ih next othersKept
          refine ⟨fuel + 1, result, entry :: entries, ?_, ?_, kept, ?_, ?_⟩
          · rw [loop, round]
            simp only [returned]
            simp
          · refine morePerm.trans ((perm.append_left entries).trans ?_)
            exact List.perm_middle
          · intro e member
            rcases List.mem_cons.mp member with rfl | inEntries
            · exact entryAttr
            · exact attrs e inEntries
          · rw [List.map_cons, isGaps, entryBegin, entryLast]

/-- If the walks end with the whole area covered, all gaps were kept. -/
theorem kmem_loop_needs {free : List (Nat × Nat)} {s : KmemState W} (ready : RoomForGaps s free)
    {fuel : Nat} {answer : Bool} {result : RegionList W}
    (returned : loop kmemRound .diverges fuel s = .ok (answer, result))
    (covers : ∀ p, s.rAdd.Has p → Covered result.reg p) :
    GapsKept W s.regions.combinedSize free := by
  induction free generalizing s fuel with
  | nil => trivial
  | cons first others ih =>
      have free := gaps_spec ready.ascending s.rAdd.ordered first.1
      have inGaps : first ∈ gaps s.rAdd.begin s.rAdd.last s.regions.reg := by
        rw [ready.isGaps]
        simp
      have ordered := (gaps_ordered s.rAdd.ordered inGaps).2.1
      have uncovered := free.mp ⟨first, inGaps, le_rfl, ordered⟩
      cases fuel with
      | zero => cases returned
      | succ fuel =>
          rcases kmem_round_spec ready with
            ⟨_, ⟨_, round⟩ | ⟨left, round, again⟩⟩ |
            ⟨kept, regions, entry, _, _, _, _, _, sum, ⟨rfl, round⟩ | ⟨left, round, low, lasts, next⟩⟩
          · -- the only gap is left open
            rw [loop, round] at returned
            cases returned
            exact absurd (covers first.1 ⟨uncovered.1, uncovered.2.1⟩) uncovered.2.2
          · -- the walk is repeated forever
            have hangs : loop kmemRound Stop.diverges (fuel + 1) s = .error .diverges :=
              loop_stuck_again round (loop_forever again .diverges) (fuel + 1)
            rw [hangs] at returned
            cases returned
          · exact ⟨kept.1, kept.2, trivial⟩
          · rw [loop, round] at returned
            refine ⟨kept.1, kept.2, ?_⟩
            rw [← sum]
            apply ih next returned
            intro p inLeft
            apply covers
            unfold Region.Has at inLeft ⊢
            simp only at inLeft
            omega

/-- What the caller expects: the area is covered in addition, old entries stay,
new ones are kernel memory and overlap nothing, and the answer says whether there
was anything to add. -/
structure KmemCarved (before : RegionList W) (rAdd : Region W) (answer : Bool)
    (after : RegionList W) : Prop where
  covered : ∀ p, Covered after.reg p ↔ Covered before.reg p ∨ rAdd.Has p
  entries : ∃ new, after.reg.Perm (new ++ before.reg) ∧ ∀ e ∈ new, e.attr.type = .kmem
  disjoint : after.reg.Pairwise fun r o => r.overlaps o = false
  answer : answer = true ↔ ∃ p, rAdd.Has p ∧ ¬ Covered before.reg p

theorem covered_entries {entries : List (Region W)} {p : Nat} :
    Covered entries p ↔
      ∃ gap ∈ entries.map (fun e => (e.begin, e.last)), gap.1 ≤ p ∧ p ≤ gap.2 := by
  rw [covered_iff]
  simp [Region.Has]

/-- The kernel memory is carved out as intended exactly if each gap is kept by
the list. -/
theorem add_kmem_area_iff {l : RegionList W} {rAdd : Region W} (ascending : Ascending l.reg)
    (address : l.addressLimit = W.maxWord) (combined : l.maxCombinedSize = W.maxWord)
    (room : l.reg.length + (gaps rAdd.begin rAdd.last l.reg).length ≤ l.max) :
    (∃ fuel answer result, addKmemAreaOnRam fuel l rAdd = .ok (answer, result) ∧
      KmemCarved l rAdd answer result) ↔
      GapsKept W l.combinedSize (gaps rAdd.begin rAdd.last l.reg) := by
  have ready : RoomForGaps ⟨l, rAdd, false⟩ (gaps rAdd.begin rAdd.last l.reg) :=
    ⟨ascending, address, combined, rfl, room⟩
  constructor
  · rintro ⟨fuel, answer, result, returned, carved⟩
    exact kmem_loop_needs ready returned fun p inArea => (carved.covered p).mpr (.inr inArea)
  · intro kept
    obtain ⟨fuel, result, entries, returned, perm, sorted, attrs, isGaps⟩ :=
      kmem_loop_fills ready kept
    have inGap : ∀ p, Covered entries p ↔ rAdd.Has p ∧ ¬ Covered l.reg p := by
      intro p
      rw [covered_entries, isGaps, gaps_spec ascending rAdd.ordered]
      unfold Region.Has
      tauto
    refine ⟨fuel, _, result, returned, ?_, ⟨entries, perm, ?_⟩, ?_, ?_⟩
    · intro p
      have old := inGap p
      have isCovered : Covered result.reg p ↔ Covered entries p ∨ Covered l.reg p := by
        rw [Covered, covered_by_perm perm, covered_by_append]
        rfl
      rw [isCovered, old]
      tauto
    · intro e member
      rw [attrs e member]
      rfl
    · refine sorted.imp ?_
      intro r o before
      exact Region.overlaps_eq_false_iff.mpr (.inl before)
    · have someGap : (∃ p, rAdd.Has p ∧ ¬ Covered l.reg p) ↔ entries ≠ [] := by
        constructor
        · rintro ⟨p, uncovered⟩ none
          have covered := (inGap p).mpr uncovered
          rw [none] at covered
          exact not_covered_nil covered
        · intro nonempty
          obtain ⟨e, member⟩ := List.exists_mem_of_ne_nil entries nonempty
          exact ⟨e.begin, (inGap e.begin).mp (covered_iff.mpr ⟨e, member, le_rfl, e.ordered⟩)⟩
      rw [someGap, ← isGaps]
      simp

/-- Two pages with a page between them, of which the area covers all. -/
def twoRegions : RegionList .w64 :=
  ⟨[.fixed 0x1000 0x1fff {} (.refl true), .fixed 0x3000 0x3fff {} (.refl true)], 300,
    Wordsize.w64.maxWord, Wordsize.w64.maxWord, 0x2000⟩

theorem add_kmem_area_two_regions :
    (∃ fuel answer result,
      addKmemAreaOnRam fuel twoRegions ⟨0x1000, 0x4fff, {}, by decide, by decide⟩ =
        .ok (answer, result) ∧
      KmemCarved twoRegions ⟨0x1000, 0x4fff, {}, by decide, by decide⟩ answer result) ↔
      GapsKept .w64 twoRegions.combinedSize [(0x2000, 0x2fff), (0x4000, 0x4fff)] := by
  have ascending : Ascending twoRegions.reg := by
    unfold Ascending
    decide
  exact add_kmem_area_iff ascending rfl rfl (by decide)

/-- One free byte between two regions: the function does not return. -/
theorem one_byte_gap_hangs :
    let list : RegionList .w64 :=
      ⟨[⟨0x1000, 0x1fff, {}, by decide, by decide⟩, ⟨0x2001, 0x3fff, {}, by decide, by decide⟩], 300,
        Wordsize.w64.maxWord, Wordsize.w64.maxWord, 0x2fff⟩
    Ascending list.reg ∧ ∀ fuel,
      addKmemAreaOnRam fuel list ⟨0x1000, 0x3fff, {}, by decide, by decide⟩ = .error .diverges := by
  intro list
  refine ⟨by unfold Ascending; decide, ?_⟩
  have lost : list.add ⟨0x2000, 0x2000, kmemAttr, by decide, by decide⟩ = .ok list := by decide
  have round : ∀ rAdd added, scanKmem rAdd list.reg = .ok (.before
      ⟨0x2000, 0x3fff, {}, by decide, by decide⟩ ⟨0x2000, 0x2000, kmemAttr, by decide, by decide⟩) →
      kmemRound ⟨list, rAdd, added⟩ =
        .ok (.again ⟨list, ⟨0x2000, 0x3fff, {}, by decide, by decide⟩, true⟩) := by
    intro rAdd added scanned
    rw [kmemRound]
    simp only [scanned, ok_bind, lost]
  have first := round ⟨0x1000, 0x3fff, {}, by decide, by decide⟩ false (by decide)
  have again := round ⟨0x2000, 0x3fff, {}, by decide, by decide⟩ true (by decide)
  exact loop_stuck_again first (loop_forever again .diverges)

end L4Bootstrap
