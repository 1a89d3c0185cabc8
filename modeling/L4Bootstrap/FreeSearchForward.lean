import L4Bootstrap.FreeSearch

/-!
# The forward search finds the lowest free spot

`find_free` jumps behind the first entry that overlaps the spot it tries. No
free spot is skipped: every address between the spot and the end of that entry
overlaps the entry too. The only way to go wrong is the machine word: behind an
entry that ends near the top of the address space the next address wraps.
-/

namespace L4Bootstrap

open MachineWord CheckedLoop

set_option autoImplicit false

variable {W : Wordsize}

namespace RegionList

/-- The addresses that a walk with unbounded numbers through `low` to `high`
comes to: `low`, and from an address whose spot lies in the area but is taken,
the address behind the first entry that takes it. -/
inductive WalksUp (l : RegionList W) (low high size align : Nat) : Nat → Prop
  | start : WalksUp l low high size align low
  | behind {start : Nat} {z : Region W} : WalksUp l low high size align start →
      roundUp align start + size - 1 ≤ high →
      l.firstAt size (roundUp align start) = some z → WalksUp l low high size align (z.last + 1)

/-- Nowhere on the walk does the spot to be tried reach beyond the address
space. -/
def WalkStaysInside (l : RegionList W) (low high size align : Nat) : Prop :=
  ∀ start, l.WalksUp low high size align start → roundUp align start + size ≤ W.modulus

/-- The state of `find_free`: no spot lies below `start`, and trying a spot
there does not wrap. -/
structure Upward (l : RegionList W) (search : Region W) (size align : Nat) (target : Nat → Prop)
    (start : Nat) : Prop where
  low : search.begin ≤ start
  visited : l.WalksUp search.begin search.last size align start
  inside : roundUp align start + size ≤ W.modulus
  spots : ∀ t, l.Spot search size align t → start ≤ t
  targets : ∀ t, target t → start ≤ t

/-- A spot that `z` does not touch lies behind `z`, if `z` reaches into a spot
tried below it. -/
theorem behind_overlapping {l : RegionList W} {z : Region W} {size start t : Nat}
    (member : z ∈ l.reg) (free : l.Free size t) (order : start ≤ t)
    (reaches : z.begin ≤ start + size - 1) : z.last + 1 ≤ t := by
  rcases free z member with before | behind
  · exact before
  · omega

theorem find_free_round {l : RegionList W} {search : Region W} {size align start : Nat}
    {target : Nat → Prop} (alignSmall : align ≤ W.bits) (pos : 0 < size)
    (targets : ∀ t, target t → 2 ^ align ∣ t ∧ t + size ≤ W.modulus ∧ l.Free size t)
    (steps : (∃ t, target t) ∨ l.WalkStaysInside search.begin search.last size align)
    (state : l.Upward search size align target start) :
    (l.findFreeRound search.last size align start = .ok (.leave 0) ∧
      ∀ t, ¬ l.Spot search size align t) ∨
    (∃ t, l.findFreeRound search.last size align start = .ok (.leave t) ∧
      l.Spot search size align t ∧ ∀ t', l.Spot search size align t' → t ≤ t') ∨
    ∃ z ∈ l.reg, l.findFreeRound search.last size align start = .ok (.again (z.last + 1)) ∧
      start ≤ z.last ∧ l.Upward search size align target (z.last + 1) := by
  obtain ⟨low, visited, inside, spots, lowTargets⟩ := state
  have rounded : W.roundSize align start = roundUp align start :=
    W.round_size_eq alignSmall (by omega)
  have tried := W.last_of_fits pos inside
  have startLe := le_round_up align start
  unfold findFreeRound
  simp only [rounded, tried]
  split_ifs with past
  · left
    refine ⟨rfl, ?_⟩
    intro t spot
    have := round_up_le spot.aligned (spots t spot)
    have := spot.below
    omega
  · right
    obtain ⟨probe, made, begins, ends, _⟩ := Region.start_size_of_fits {} pos inside
    simp only [made, ok_bind, find_probe_eq begins ends]
    cases found : l.firstAt size (roundUp align start) with
    | none =>
        left
        refine ⟨roundUp align start, rfl, ?_, ?_⟩
        · exact ⟨dvd_round_up align start, by omega, by omega, first_at_none_free found⟩
        · intro t spot
          exact round_up_le spot.aligned (spots t spot)
    | some z =>
        right
        obtain ⟨member, beginsBelow, reaches⟩ := first_at_some found
        have walked : l.WalksUp search.begin search.last size align (z.last + 1) :=
          visited.behind (by omega) found
        -- an existing target lies behind `z`, so that stepping behind `z` cannot wrap
        have inside' : roundUp align (z.last + 1) + size ≤ W.modulus := by
          rcases steps with ⟨t, isTarget⟩ | steps
          · obtain ⟨aligned, fits, free⟩ := targets t isTarget
            have order := round_up_le aligned (lowTargets t isTarget)
            have next := round_up_le aligned (behind_overlapping member free order reaches)
            omega
          · exact steps _ walked
        have next := le_round_up align (z.last + 1)
        refine ⟨z, member, ?_, by omega, by omega, walked, inside', ?_, ?_⟩
        · change Except.ok (Round.again (W.add z.last 1)) = _
          rw [W.add_of_lt (by omega)]
        · intro t spot
          exact behind_overlapping member spot.free (round_up_le spot.aligned (spots t spot)) reaches
        · intro t isTarget
          obtain ⟨aligned, _, free⟩ := targets t isTarget
          exact behind_overlapping member free
            (round_up_le aligned (lowTargets t isTarget)) reaches

/-- `find_free` returns the lowest spot of the area, or 0 if there is none. A
`target` is a spot anywhere at or above the area; if one exists, no wrap can
happen on the way to it. -/
theorem find_free_lowest {l : RegionList W} {search : Region W} {size align : Nat}
    {target : Nat → Prop} (alignSmall : align ≤ W.bits) (pos : 0 < size)
    (beginPos : 0 < search.begin)
    (targets : ∀ t, target t → 2 ^ align ∣ t ∧ search.begin ≤ t ∧
      t + roundUp align size ≤ W.modulus ∧ l.Free (roundUp align size) t)
    (steps : (∃ t, target t) ∨ l.WalkStaysInside search.begin search.last
      (roundUp align size) align) :
    ∃ t, l.findFree search size align = .ok t ∧
      LowestOrZero (l.Spot search (roundUp align size) align) t := by
  have sizePos : 0 < roundUp align size := round_up_pos pos
  -- the first spot lies at or below every target
  have first : roundUp align search.begin + roundUp align size ≤ W.modulus := by
    rcases steps with ⟨t, isTarget⟩ | stays
    · obtain ⟨aligned, above, fits, _⟩ := targets t isTarget
      have := round_up_le aligned above
      omega
    · exact stays _ .start
  have firstAbove := le_round_up align search.begin
  have rounded : W.roundSize align size = roundUp align size :=
    W.round_size_eq alignSmall (by omega)
  have initial : l.Upward search (roundUp align size) align target search.begin :=
    ⟨le_rfl, .start, first, fun t spot => spot.above, fun t isTarget => (targets t isTarget).2.1⟩
  have targets' : ∀ t, target t → 2 ^ align ∣ t ∧ t + roundUp align size ≤ W.modulus ∧
      l.Free (roundUp align size) t :=
    fun t isTarget => ⟨(targets t isTarget).1, (targets t isTarget).2.2⟩
  have enough : (l.reg.countP fun z => search.begin ≤ z.last) < l.reg.length + 2 :=
    Nat.lt_of_le_of_lt List.countP_le_length (by omega)
  obtain ⟨value, returned, post⟩ := loop_total
    (l.findFreeRound search.last (roundUp align size) align) Stop.diverges
    (l.Upward search (roundUp align size) align target)
    (LowestOrZero (l.Spot search (roundUp align size) align))
    (fun start => l.reg.countP fun z => start ≤ z.last) (fun start state => by
      rcases find_free_round alignSmall sizePos targets' steps state with
        ⟨zero, none⟩ | ⟨t, found, spot, lowest⟩ | ⟨z, member, again, reached, next⟩
      · exact .inl ⟨0, zero, fun _ => none, fun nonzero => absurd rfl nonzero⟩
      · have := spot.above
        exact .inl ⟨t, found, fun zero => by omega, fun _ => ⟨spot, lowest⟩⟩
      · refine .inr ⟨z.last + 1, again, next, ?_⟩
        apply count_lt_of_narrower _ member
        · simp
        · simpa using reached
        · intro y _ higher
          simp only [decide_eq_true_eq] at higher ⊢
          omega) initial enough
  exact ⟨value, by rw [findFree, rounded, returned], post⟩

end RegionList

namespace Memory

/-- The state of the loop over `sysalloc`: the rest of the area, with no spot
below it. -/
structure Remaining (m : Memory W) (area : Region W) (size align : Nat) (rest : Region W) :
    Prop where
  last : rest.last = area.last
  begins : area.begin ≤ rest.begin
  whole : rest.begin = area.begin ∨
    ∀ s ∈ m.sysalloc.reg, s.overlaps rest = true → rest.begin ≤ s.begin
  spots : ∀ t, m.AreaSpot area size align t → rest.begin ≤ t

section

variable {m : Memory W} {area : Region W} {size align : Nat}

/-- A spot in the rest of the area lies in the `sysalloc` region found there or
behind it. -/
theorem spot_in_found {rest r : Region W} {t : Nat} (sysSorted : Ascending m.sysalloc.reg)
    (pos : 0 < size) (state : m.Remaining area size align rest)
    (found : m.sysalloc.find rest = some r) (spot : m.AreaSpot area size align t) :
    (r.begin ≤ t ∧ t + size - 1 ≤ r.last) ∨ r.last < t := by
  obtain ⟨s, member, begins, ends⟩ := spot.sysalloc
  have := state.spots t spot
  have := state.last
  have := spot.below
  have overlap : s.overlaps rest = true := Region.overlaps_iff.mpr ⟨by omega, by omega⟩
  rcases find_lowest sysSorted found member overlap with rfl | behind
  · exact .inl ⟨begins, ends⟩
  · exact .inr (by omega)

theorem search_round {rest : Region W} {target : Nat → Prop} (alignSmall : align ≤ W.bits)
    (pos : 0 < size) (sysSorted : Ascending m.sysalloc.reg) (beginPos : 0 < area.begin)
    (targets : ∀ t, target t → 2 ^ align ∣ t ∧
      (m.AreaSpot area (roundUp align size) align t ∨ area.last < t) ∧
      t + roundUp align size ≤ W.modulus ∧ m.regions.Free (roundUp align size) t)
    (steps : (∃ t, target t) ∨ ∀ s ∈ m.sysalloc.reg, s.overlaps area = true →
      m.regions.WalkStaysInside (max area.begin s.begin) (min area.last s.last)
        (roundUp align size) align)
    (state : m.Remaining area (roundUp align size) align rest) :
    (∃ t, m.searchRound size align rest = .ok (.leave t) ∧
      LowestOrZero (m.AreaSpot area (roundUp align size) align) t) ∨
    ∃ next, m.searchRound size align rest = .ok (.again next) ∧
      m.Remaining area (roundUp align size) align next ∧
      (m.sysalloc.reg.countP fun s => next.begin ≤ s.last) <
        m.sysalloc.reg.countP fun s => rest.begin ≤ s.last := by
  have sizePos : 0 < roundUp align size := round_up_pos pos
  obtain ⟨last, begins, whole, spots⟩ := id state
  have areaOrdered := area.ordered
  have restOrdered := rest.ordered
  unfold searchRound
  cases found : m.sysalloc.find rest with
  | none =>
      left
      refine ⟨0, rfl, ?_, fun nonzero => absurd rfl nonzero⟩
      intro _ t spot
      obtain ⟨s, member, sBegins, sEnds⟩ := spot.sysalloc
      have := spots t spot
      have := spot.below
      have apart := List.find?_eq_none.mp found s member
      rw [Region.overlaps_iff] at apart
      omega
  | some r =>
      obtain ⟨member, reaches, starts⟩ := find_some_overlaps found
      have overlap : r.overlaps rest = true := Region.overlaps_iff.mpr ⟨reaches, starts⟩
      obtain ⟨intArea, made, intBegin, intLast⟩ := Region.intersect_ok overlap
      have inFound := fun t => spot_in_found (t := t) sysSorted sizePos state found
      -- inside the found region the spots of the area are the spots of the intersection
      have spotOfInt : ∀ t, m.regions.Spot intArea (roundUp align size) align t →
          m.AreaSpot area (roundUp align size) align t := by
        intro t spot
        have above := spot.above
        have below := spot.below
        exact ⟨spot.aligned, by omega, by omega, ⟨r, member, by omega, by omega⟩, spot.free⟩
      have intOfSpot : ∀ t, m.AreaSpot area (roundUp align size) align t →
          r.begin ≤ t → t + roundUp align size - 1 ≤ r.last →
          m.regions.Spot intArea (roundUp align size) align t := by
        intro t spot rBegins rEnds
        have := spots t spot
        have := spot.below
        exact ⟨spot.aligned, by omega, by omega, spot.free⟩
      have intTargets : ∀ t, target t → 2 ^ align ∣ t ∧ intArea.begin ≤ t ∧
          t + roundUp align size ≤ W.modulus ∧ m.regions.Free (roundUp align size) t := by
        intro t isTarget
        obtain ⟨aligned, place, fits, free⟩ := targets t isTarget
        refine ⟨aligned, ?_, fits, free⟩
        rcases place with spot | behind
        · have := spots t spot
          have := r.ordered
          rcases inFound t spot with inside | after <;> omega
        · omega
      -- no part of the found region was cut off by the regions searched before it
      have intSteps : (∃ t, target t) ∨ m.regions.WalkStaysInside intArea.begin intArea.last
          (roundUp align size) align := by
        refine steps.imp id fun steps => ?_
        have piece := steps r member (Region.overlaps_iff.mpr ⟨by omega, by omega⟩)
        have sameBegin : intArea.begin = max area.begin r.begin := by
          rcases whole with same | below
          · omega
          · have := below r member overlap
            omega
        have sameLast : intArea.last = min area.last r.last := by omega
        rwa [sameBegin, sameLast]
      obtain ⟨addr, searched, answerZero, answerSpot⟩ :=
        RegionList.find_free_lowest alignSmall pos (by omega) intTargets intSteps
      simp only [made, ok_bind, searched]
      by_cases zero : addr = 0
      · -- nothing in this region: every spot of the area lies behind it
        have behind : ∀ t, m.AreaSpot area (roundUp align size) align t → r.last < t := by
          intro t spot
          rcases inFound t spot with ⟨rBegins, rEnds⟩ | after
          · exact absurd (intOfSpot t spot rBegins rEnds) (answerZero zero t)
          · exact after
        have intBounded := intArea.bounded
        have intOrdered := intArea.ordered
        have next : W.add intArea.last 1 = intArea.last + 1 ∨
            (W.add intArea.last 1 = 0 ∧ intArea.last + 1 = W.modulus) := by
          rcases Nat.lt_or_ge (intArea.last + 1) W.modulus with fits | top
          · exact .inl (W.add_of_lt fits)
          · have same : intArea.last + 1 = W.modulus := by omega
            exact .inr ⟨by rw [Wordsize.add, same, Nat.mod_self], same⟩
        rw [if_neg (by simp [zero])]
        split_ifs with done
        · left
          refine ⟨0, rfl, ?_, fun nonzero => absurd rfl nonzero⟩
          intro _ t spot
          have := behind t spot
          have := spot.below
          have := area.bounded
          omega
        · right
          have next : W.add intArea.last 1 = intArea.last + 1 := by omega
          rw [next]
          obtain ⟨nextRest, set, nextBegin, nextLast⟩ : ∃ nextRest : Region W,
              rest.setBegin (intArea.last + 1) = .ok nextRest ∧
              nextRest.begin = intArea.last + 1 ∧ nextRest.last = rest.last :=
            ⟨⟨intArea.last + 1, rest.last, rest.attr, by omega, rest.bounded⟩,
              Region.set_begin_ok.mpr ⟨rfl, rfl, rfl⟩, rfl, rfl⟩
          refine ⟨nextRest, by rw [set, ok_bind], ⟨by omega, by omega, .inr ?_, ?_⟩, ?_⟩
          · intro s inSys overlapNext
            rw [Region.overlaps_iff] at overlapNext
            have overlapRest : s.overlaps rest = true :=
              Region.overlaps_iff.mpr ⟨by omega, by omega⟩
            rcases find_lowest sysSorted found inSys overlapRest with rfl | behind
            · omega
            · omega
          · intro t spot
            have := behind t spot
            omega
          · apply count_lt_of_narrower _ member
            · simp only [decide_eq_false_iff_not]
              omega
            · simpa using reaches
            · intro y _ higher
              simp only [decide_eq_true_eq] at higher ⊢
              omega
      · left
        obtain ⟨spot, lowest⟩ := answerSpot zero
        rw [if_pos zero]
        refine ⟨addr, rfl, fun isZero => absurd isZero zero, fun _ => ⟨spotOfInt addr spot, ?_⟩⟩
        intro t other
        rcases inFound t other with ⟨rBegins, rEnds⟩ | after
        · exact lowest t (intOfSpot t other rBegins rEnds)
        · have := spot.below
          omega

/-- The loop over `sysalloc` returns the lowest spot of the area. -/
theorem search_lowest {target : Nat → Prop} (alignSmall : align ≤ W.bits)
    (pos : 0 < size) (sysSorted : Ascending m.sysalloc.reg) (beginPos : 0 < area.begin)
    (targets : ∀ t, target t → 2 ^ align ∣ t ∧
      (m.AreaSpot area (roundUp align size) align t ∨ area.last < t) ∧
      t + roundUp align size ≤ W.modulus ∧ m.regions.Free (roundUp align size) t)
    (steps : (∃ t, target t) ∨ ∀ s ∈ m.sysalloc.reg, s.overlaps area = true →
      m.regions.WalkStaysInside (max area.begin s.begin) (min area.last s.last)
        (roundUp align size) align) :
    ∃ t, loop (m.searchRound size align) .diverges (m.sysalloc.reg.length + 2) area = .ok t ∧
      LowestOrZero (m.AreaSpot area (roundUp align size) align) t := by
  apply loop_total (m.searchRound size align) Stop.diverges
    (m.Remaining area (roundUp align size) align)
    (LowestOrZero (m.AreaSpot area (roundUp align size) align))
    (fun rest => m.sysalloc.reg.countP fun s => rest.begin ≤ s.last)
  · intro rest state
    exact search_round alignSmall pos sysSorted beginPos targets steps state
  · exact ⟨rfl, le_rfl, .inl rfl, fun t spot => spot.above⟩
  · exact Nat.lt_of_le_of_lt List.countP_le_length (by omega)

end

/-- On none of the searched pieces of memory does the walk leave the address
space. -/
def StepsStayInside (m : Memory W) (size minAddr maxAddr align node : Nat) : Prop :=
  ∀ low high, m.IsPiece minAddr maxAddr node low high →
    m.regions.WalkStaysInside low high size align

/-- The loop over a suffix of the RAM list. The running minimum is either still
the first one or lies below all regions to come. -/
theorem find_free_ram_from_lowest {m : Memory W} {size minAddr maxAddr align node : Nat}
    (alignSmall : align ≤ W.bits) (two : 2 ≤ size) (sysSorted : Ascending m.sysalloc.reg)
    (narrows : m.Narrows) (bounds : max minAddr W.bytes ≤ maxAddr)
    (rams : List (Region W)) (minimum : Nat) (sorted : Ascending rams)
    (inRam : ∀ rr ∈ rams, rr ∈ m.ram.reg)
    (running : minimum = max minAddr W.bytes ∨
      (max minAddr W.bytes ≤ minimum ∧ ∀ rr ∈ rams, minimum < rr.begin))
    (steps : (∃ t, m.FreeSpotIn rams (roundUp align size) minAddr maxAddr align node t) ∨
      m.StepsStayInside (roundUp align size) minAddr maxAddr align node) :
    ∃ t, m.findFreeRamFrom size maxAddr align node minimum rams = .ok t ∧
      LowestOrZero (m.FreeSpotIn rams (roundUp align size) minAddr maxAddr align node) t := by
  have sizeLe := le_round_up align size
  induction rams generalizing minimum with
  | nil =>
      refine ⟨0, rfl, ?_, fun nonzero => absurd rfl nonzero⟩
      intro _ t spot
      obtain ⟨rr, member, _⟩ := spot.ram
      simp at member
  | cons rr rest ih =>
      obtain ⟨restAbove, restSorted⟩ := ascending_cons.mp sorted
      have rrOrdered := rr.ordered
      have rrBounded := rr.bounded
      have restInRam : ∀ o ∈ rest, o ∈ m.ram.reg := fun o member => inRam o (by simp [member])
      -- where the region has no spot at all, the search goes on with the rest
      have skip : (∀ area, m.IsArea minAddr maxAddr node rr area →
            ∀ t, ¬ m.AreaSpot area (roundUp align size) align t) →
          ∀ minimum', (minimum' = max minAddr W.bytes ∨
            (max minAddr W.bytes ≤ minimum' ∧ ∀ o ∈ rest, minimum' < o.begin)) →
          ∃ t, m.findFreeRamFrom size maxAddr align node minimum' rest = .ok t ∧
            LowestOrZero (m.FreeSpotIn (rr :: rest) (roundUp align size) minAddr maxAddr
              align node) t := by
        intro noSpot minimum' running'
        rw [free_spot_in_skip narrows noSpot] at steps ⊢
        exact ih minimum' restSorted restInRam running' steps
      have restRunning : minimum = max minAddr W.bytes ∨
          (max minAddr W.bytes ≤ minimum ∧ ∀ o ∈ rest, minimum < o.begin) :=
        running.imp id fun below => ⟨below.1, fun o member => below.2 o (by simp [member])⟩
      have first : max rr.begin minimum = max rr.begin (max minAddr W.bytes) ∧
          (rr.last ≤ minimum ↔ rr.last ≤ max minAddr W.bytes) ∧ max minAddr W.bytes ≤ minimum := by
        rcases running with same | ⟨lower, below⟩
        · rw [same]
          exact ⟨rfl, Iff.rfl, le_rfl⟩
        · have := below rr (by simp)
          omega
      have nextRunning : max rr.begin minimum = max minAddr W.bytes ∨
          (max minAddr W.bytes ≤ max rr.begin minimum ∧ ∀ o ∈ rest, max rr.begin minimum < o.begin) := by
        rw [first.1]
        rcases Nat.le_total rr.begin (max minAddr W.bytes) with inside | above
        · exact .inl (by omega)
        · refine .inr ⟨by omega, ?_⟩
          intro o member
          have := restAbove o member
          omega
      rw [findFreeRamFrom]
      split_ifs with low high
      · exact skip (no_spot_outside narrows (by omega) (.inl (first.2.1.mp low))) minimum restRunning
      · exact skip (no_spot_outside narrows (by omega) (.inr high)) minimum restRunning
      · obtain ⟨whole, made, wholeBegin, wholeLast, plain⟩ : ∃ whole : Region W,
            Region.make (max rr.begin minimum) (min rr.last maxAddr) {} = .ok whole ∧
            whole.begin = max rr.begin (max minAddr W.bytes) ∧
            whole.last = min rr.last maxAddr ∧ whole.attr = {} :=
          ⟨⟨max rr.begin minimum, min rr.last maxAddr, {}, by omega, by omega⟩,
            Region.make_ok.mpr ⟨rfl, rfl, rfl⟩, first.1, rfl, rfl⟩
        simp only [made, ok_bind]
        cases validated : m.validated whole node with
        | none =>
            apply skip _ _ nextRunning
            intro area isArea
            rw [is_area_of_whole wholeBegin wholeLast plain, validated] at isArea
            cases isArea
        | some area =>
            have isArea : m.IsArea minAddr maxAddr node rr area :=
              (is_area_of_whole wholeBegin wholeLast plain area).mpr validated
            have inside := isArea.inside narrows
            have bytesPos := W.bytes_pos
            have spotIff := @free_spot_in_area _ m _ _ rest (roundUp align size) _ _ align node
              narrows isArea
            have restBehind : ∀ t, m.FreeSpotIn rest (roundUp align size) minAddr maxAddr
                align node t → area.last < t := by
              intro t spot
              obtain ⟨o, member, inO, _⟩ := spot.ram
              have := restAbove o member
              omega
            have areaPos : 0 < area.begin := by omega
            have targets : ∀ t, m.FreeSpotIn (rr :: rest) (roundUp align size) minAddr maxAddr
                align node t → 2 ^ align ∣ t ∧
                (m.AreaSpot area (roundUp align size) align t ∨ area.last < t) ∧
                t + roundUp align size ≤ W.modulus ∧ m.regions.Free (roundUp align size) t := by
              intro t spot
              refine ⟨spot.aligned, ((spotIff t).mp spot).imp id (restBehind t), ?_, spot.free⟩
              obtain ⟨o, member, inO, _⟩ := spot.ram
              have := o.bounded
              omega
            have areaSteps : (∃ t, m.FreeSpotIn (rr :: rest) (roundUp align size) minAddr maxAddr
                align node t) ∨ ∀ s ∈ m.sysalloc.reg, s.overlaps area = true →
                m.regions.WalkStaysInside (max area.begin s.begin) (min area.last s.last)
                  (roundUp align size) align := by
              refine steps.imp id fun stay s inSys overlap => ?_
              exact stay _ _ ⟨rr, inRam rr (by simp), by omega, by omega, area, isArea, s, inSys,
                overlap, rfl, rfl⟩
            obtain ⟨addr, searched, answerZero, answerSpot⟩ :=
              search_lowest alignSmall (by omega) sysSorted areaPos targets areaSteps
            simp only [searched, ok_bind]
            by_cases zero : addr = 0
            · rw [if_neg (by simp [zero])]
              apply skip _ _ nextRunning
              intro other isOther t
              rw [isArea.unique isOther]
              exact answerZero zero t
            · obtain ⟨spot, lowest⟩ := answerSpot zero
              rw [if_pos zero]
              refine ⟨addr, rfl, fun isZero => absurd isZero zero,
                fun _ => ⟨(spotIff addr).mpr (.inl spot), ?_⟩⟩
              intro t other
              rcases (spotIff t).mp other with here | later
              · exact lowest t here
              · have := restBehind t later
                have := spot.below
                omega

/-- The forward search answers with the lowest free spot, or with 0 if there is
none, provided that a free spot exists or no step of the search can leave the
address space. -/
theorem find_free_ram_lowest {m : Memory W} {size minAddr maxAddr align node : Nat}
    (ramSorted : Ascending m.ram.reg) (sysSorted : Ascending m.sysalloc.reg)
    (narrows : m.Narrows) (two : 2 ≤ size) (alignSmall : align < W.bits)
    (bounds : max minAddr W.bytes ≤ maxAddr)
    (steps : (∃ t, m.FreeSpot (roundUp align size) minAddr maxAddr align node t) ∨
      m.StepsStayInside (roundUp align size) minAddr maxAddr align node) :
    ∃ t, m.findFreeRam size minAddr maxAddr align node = .ok t ∧
      LowestOrZero (m.FreeSpot (roundUp align size) minAddr maxAddr align node) t := by
  exact find_free_ram_from_lowest alignSmall.le two sysSorted narrows bounds m.ram.reg
    (max minAddr W.bytes) ramSorted (fun rr member => member) (.inl rfl) steps

/-- One reserved page at the start of RAM. -/
theorem find_free_ram_lowest_low_ram :
    ∃ t, lowRam.findFreeRam 0x1000 0 Wordsize.w64.maxWord 12 anyNode = .ok t ∧
      LowestOrZero (lowRam.FreeSpot (roundUp 12 0x1000) 0 Wordsize.w64.maxWord 12 anyNode) t := by
  apply find_free_ram_lowest
  · exact List.pairwise_singleton _ _
  · exact List.pairwise_singleton _ _
  · intro area node narrowed same
    cases same
    exact ⟨le_rfl, le_rfl⟩
  · decide
  · decide
  · decide
  · left
    refine ⟨0x2000, by decide, by decide, by decide, ?_, ?_, by unfold RegionList.Free; decide⟩
    · refine ⟨_, List.mem_singleton.mpr rfl, by decide, ?_⟩
      exact ⟨⟨0x1000, 0xffff, {}, by decide, by decide⟩,
        ⟨_, by decide, by decide, by decide, rfl⟩, by decide⟩
    · exact ⟨_, List.mem_singleton.mpr rfl, by decide⟩

def topReserved : Memory .w64 where
  ram := unlimited [⟨0x10000, 0x1ffff, {}, by decide, by decide⟩]
  sysalloc := unlimited [⟨0x10000, 0x1ffff, {}, by decide, by decide⟩]
  regions := unlimited [⟨0, 0xfff, {}, by decide, by decide⟩,
    ⟨0x10000, 2 ^ 64 - 2, {}, by decide, by decide⟩]
  validate := none

/-- Behind an entry that ends one byte below the largest address the rounded
start wraps to 0, and the search hands out memory below the RAM region. -/
theorem find_free_ram_wraps :
    Ascending topReserved.ram.reg ∧ Ascending topReserved.sysalloc.reg ∧ topReserved.Narrows ∧
      max 0x10000 Wordsize.w64.bytes ≤ Wordsize.w64.maxWord ∧
      (∀ z ∈ topReserved.regions.reg, z.last ≠ Wordsize.w64.maxWord) ∧
      (∀ rr ∈ topReserved.ram.reg,
        rr.last + roundUp 12 0x1000 + 2 ^ 12 < Wordsize.w64.modulus) ∧
      topReserved.findFreeRam 0x1000 0x10000 Wordsize.w64.maxWord 12 anyNode = .ok 0x1000 ∧
      ¬ LowestOrZero (topReserved.FreeSpot (roundUp 12 0x1000) 0x10000 Wordsize.w64.maxWord 12
        anyNode) 0x1000 := by
  refine ⟨List.pairwise_singleton _ _, List.pairwise_singleton _ _, ?_, by decide, ?_, ?_,
    by decide, ?_⟩
  · intro area node narrowed same
    cases same
    exact ⟨le_rfl, le_rfl⟩
  · decide
  · decide
  · intro answer
    have spot := (answer.2 (by decide)).1
    have above := spot.above
    revert above
    decide

end Memory

end L4Bootstrap
