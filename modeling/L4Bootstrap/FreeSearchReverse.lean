import L4Bootstrap.FreeSearch

/-!
# The reverse search finds the highest free spot

`find_free_rev` steps below the first entry, in list order, that overlaps the
spot it tries. No free spot is skipped. The walk goes wrong where it would need
an address below 0: the word arithmetic then continues at the top of the
address space.
-/

namespace L4Bootstrap

open MachineWord CheckedLoop

set_option autoImplicit false

variable {W : Wordsize}

namespace RegionList

/-- The upper bounds that a walk with unbounded numbers through `low` to `high`
comes to: the end of the area, and from a bound whose highest spot lies in the
area but is taken, the begin of the first entry that takes it. A bound is the
address behind the last usable byte. -/
inductive WalksDown (l : RegionList W) (low high size align : Nat) : Nat → Prop
  | start : WalksDown l low high size align (high + 1)
  | beneath {upper : Nat} {z : Region W} : WalksDown l low high size align upper →
      low ≤ truncSize align (upper - size) →
      l.firstAt size (truncSize align (upper - size)) = some z →
      WalksDown l low high size align z.begin

/-- Below every bound of the walk there is room for a spot, so that no step
goes below address 0. -/
def WalkStaysAbove (l : RegionList W) (low high size align : Nat) : Prop :=
  ∀ upper, l.WalksDown low high size align upper → size ≤ upper

/-- The state of `find_free_rev`: no spot ends above `last`. -/
structure Downward (l : RegionList W) (search : Region W) (size align : Nat) (target : Nat → Prop)
    (last : Nat) : Prop where
  high : last ≤ search.last
  visited : l.WalksDown search.begin search.last size align (last + 1)
  inside : size ≤ last + 1
  spots : ∀ t, l.Spot search size align t → t + size - 1 ≤ last
  targets : ∀ t, target t → t + size - 1 ≤ last

/-- A spot that `z` does not touch lies below `z`, if `z` reaches up to a spot
tried above it. -/
theorem below_overlapping {l : RegionList W} {z : Region W} {size start t : Nat}
    (member : z ∈ l.reg) (free : l.Free size t) (order : t ≤ start)
    (reaches : start ≤ z.last) : t + size - 1 < z.begin := by
  rcases free z member with before | behind
  · omega
  · exact behind

theorem find_free_rev_round {l : RegionList W} {search : Region W} {size align last : Nat}
    {target : Nat → Prop} (pos : 0 < size) (word : size < W.modulus)
    (targets : ∀ t, target t → 2 ^ align ∣ t ∧ l.Free size t)
    (steps : (∃ t, target t) ∨ l.WalkStaysAbove search.begin search.last size align)
    (state : l.Downward search size align target last) :
    (l.findFreeRevRound search.begin size align last = .ok (.leave 0) ∧
      ∀ t, ¬ l.Spot search size align t) ∨
    (∃ t, l.findFreeRevRound search.begin size align last = .ok (.leave t) ∧
      l.Spot search size align t ∧ ∀ t', l.Spot search size align t' → t' ≤ t) ∨
    ∃ z ∈ l.reg, l.findFreeRevRound search.begin size align last = .ok (.again (z.begin - 1)) ∧
      z.begin ≤ last ∧ 0 < z.begin ∧ l.Downward search size align target (z.begin - 1) := by
  obtain ⟨high, visited, inside, spots, highTargets⟩ := state
  have searchBounded := search.bounded
  have tried : W.sub last (W.sub size 1) = last + 1 - size := by
    rw [W.sub_of_le (by omega) word, W.sub_of_le (by omega) (by omega)]
    omega
  have startLe := trunc_size_le align (last + 1 - size)
  have orderOf : ∀ t, 2 ^ align ∣ t → t + size - 1 ≤ last →
      t ≤ truncSize align (last + 1 - size) := by
    intro t aligned below
    exact le_trunc_size aligned (by omega)
  unfold findFreeRevRound
  simp only [tried]
  split_ifs with past
  · left
    refine ⟨rfl, ?_⟩
    intro t spot
    have := orderOf t spot.aligned (spots t spot)
    have := spot.above
    omega
  · right
    have fits : truncSize align (last + 1 - size) + size ≤ W.modulus := by omega
    obtain ⟨probe, made, begins, ends, _⟩ := Region.start_size_of_fits {} pos fits
    simp only [made, ok_bind, find_probe_eq begins ends]
    cases found : l.firstAt size (truncSize align (last + 1 - size)) with
    | none =>
        left
        refine ⟨truncSize align (last + 1 - size), rfl, ?_, ?_⟩
        · exact ⟨dvd_trunc_size align _, by omega, by omega, first_at_none_free found⟩
        · intro t spot
          exact orderOf t spot.aligned (spots t spot)
    | some z =>
        right
        obtain ⟨member, reaches, begins⟩ := first_at_some found
        have walked : l.WalksDown search.begin search.last size align z.begin :=
          visited.beneath (by omega) found
        have spotsBelow : ∀ t, l.Spot search size align t → t + size - 1 < z.begin := by
          intro t spot
          exact below_overlapping member spot.free (orderOf t spot.aligned (spots t spot)) reaches
        have targetsBelow : ∀ t, target t → t + size - 1 < z.begin := by
          intro t isTarget
          obtain ⟨aligned, free⟩ := targets t isTarget
          exact below_overlapping member free (orderOf t aligned (highTargets t isTarget)) reaches
        -- below an entry that begins above a target there is room for a spot
        have room : size ≤ z.begin := by
          rcases steps with ⟨t, isTarget⟩ | stays
          · have := targetsBelow t isTarget
            omega
          · exact stays _ walked
        have bound : z.begin - 1 + 1 = z.begin := by omega
        refine ⟨z, member, ?_, by omega, by omega, by omega, by rwa [bound], by omega, ?_, ?_⟩
        · change Except.ok (Round.again (W.sub z.begin 1)) = _
          have := z.ordered
          have := z.bounded
          rw [W.sub_of_le (by omega) (by omega)]
        · intro t spot
          have := spotsBelow t spot
          omega
        · intro t isTarget
          have := targetsBelow t isTarget
          omega

/-- A request whose rounded size is the whole address space is seen as a
request for 0 bytes; in an area that reaches up to the top it fails at once. -/
theorem find_free_rev_whole {l : RegionList W} {search : Region W} {size align : Nat}
    (alignSmall : align ≤ W.bits) (whole : roundUp align size = W.modulus)
    (beginPos : 0 < search.begin) (top : search.last = W.maxWord) (word : size < W.modulus) :
    l.findFreeRev search size align = .ok 0 := by
  have modulusPos := W.modulus_pos
  have modulusGe := W.modulus_ge
  have zero : W.roundSize align size = 0 := by
    have upper := round_up_lt align size
    have powLe : 2 ^ align ≤ W.modulus := Nat.pow_le_pow_right (by omega) alignSmall
    have wraps : (size + 2 ^ align - 1) % W.modulus = size + 2 ^ align - 1 - W.modulus := by
      rw [Nat.mod_eq_sub_mod (by omega), Nat.mod_eq_of_lt (by omega)]
    rw [Wordsize.roundSize, wraps]
    obtain ⟨q, same⟩ := dvd_trunc_size align (size + 2 ^ align - 1 - W.modulus)
    have below := trunc_size_le align (size + 2 ^ align - 1 - W.modulus)
    rcases Nat.eq_zero_or_pos q with none | some
    · rw [same, none, Nat.mul_zero]
    · have := Nat.le_mul_of_pos_right (2 ^ align) some
      omega
  have minusOne : W.sub 0 1 = W.modulus - 1 := by
    rw [Wordsize.sub, Nat.mod_eq_of_lt (by omega)]
    omega
  have round : l.findFreeRevRound search.begin 0 align search.last = .ok (.leave 0) := by
    unfold findFreeRevRound
    have start : W.sub search.last (W.sub 0 1) = 0 := by
      rw [minusOne, top, Wordsize.maxWord, W.sub_of_le le_rfl (by omega)]
      omega
    rw [start, trunc_size_of_dvd (Nat.dvd_zero _), if_pos beginPos]
  rw [findFreeRev, zero, loop, round]

/-- `find_free_rev` returns the highest spot of the area, or 0 if there is
none. A `target` is a spot anywhere at or below the area. -/
theorem find_free_rev_highest {l : RegionList W} {search : Region W} {size align : Nat}
    {target : Nat → Prop} (alignSmall : align ≤ W.bits) (pos : 0 < size) (word : size < W.modulus)
    (beginPos : 0 < search.begin)
    (targets : ∀ t, target t → 2 ^ align ∣ t ∧ 0 < t ∧
      t + roundUp align size - 1 ≤ search.last ∧ l.Free (roundUp align size) t)
    (steps : (∃ t, target t) ∨
      l.WalkStaysAbove search.begin search.last (roundUp align size) align) :
    ∃ t, l.findFreeRev search size align = .ok t ∧
      HighestOrZero (l.Spot search (roundUp align size) align) t := by
  have sizePos : 0 < roundUp align size := round_up_pos pos
  have searchBounded := search.bounded
  have room : roundUp align size ≤ search.last + 1 := by
    rcases steps with ⟨t, isTarget⟩ | stays
    · have := targets t isTarget
      omega
    · exact stays _ .start
  have upper : roundUp align size ≤ W.modulus := by omega
  rcases Nat.lt_or_eq_of_le upper with fits | whole
  · have rounded : W.roundSize align size = roundUp align size := W.round_size_eq alignSmall fits
    have initial : l.Downward search (roundUp align size) align target search.last :=
      ⟨le_rfl, .start, room, fun t spot => spot.below, fun t isTarget => (targets t isTarget).2.2.1⟩
    have targets' : ∀ t, target t → 2 ^ align ∣ t ∧ l.Free (roundUp align size) t :=
      fun t isTarget => ⟨(targets t isTarget).1, (targets t isTarget).2.2.2⟩
    have enough : (l.reg.countP fun z => z.begin ≤ search.last) < l.reg.length + 2 :=
      Nat.lt_of_le_of_lt List.countP_le_length (by omega)
    obtain ⟨value, returned, post⟩ := loop_total
      (l.findFreeRevRound search.begin (roundUp align size) align) Stop.diverges
      (l.Downward search (roundUp align size) align target)
      (HighestOrZero (l.Spot search (roundUp align size) align))
      (fun last => l.reg.countP fun z => z.begin ≤ last) (fun last state => by
        rcases find_free_rev_round sizePos fits targets' steps state with
          ⟨zero, none⟩ | ⟨t, found, spot, highest⟩ | ⟨z, member, again, reached, zPos, next⟩
        · exact .inl ⟨0, zero, fun _ => none, fun nonzero => absurd rfl nonzero⟩
        · have := spot.above
          exact .inl ⟨t, found, fun zero => by omega, fun _ => ⟨spot, highest⟩⟩
        · refine .inr ⟨z.begin - 1, again, next, ?_⟩
          apply count_lt_of_narrower _ member
          · simp only [decide_eq_false_iff_not]
            omega
          · simpa using reached
          · intro y _ lower
            simp only [decide_eq_true_eq] at lower ⊢
            omega) initial enough
    exact ⟨value, by rw [findFreeRev, rounded, returned], post⟩
  · have top : search.last = W.maxWord := by
      rw [Wordsize.maxWord]
      omega
    refine ⟨0, find_free_rev_whole alignSmall whole beginPos top word, ?_,
      fun nonzero => absurd rfl nonzero⟩
    intro _ t spot
    have := spot.above
    have := spot.below
    omega

end RegionList

/-- In an ascending list the last overlapping entry is the highest one. -/
theorem find_rev_highest {l : RegionList W} {area r s : Region W} (ascending : Ascending l.reg)
    (found : l.findRev area = some r) (member : s ∈ l.reg) (overlap : s.overlaps area = true) :
    s = r ∨ s.last < r.begin := by
  obtain ⟨_, back, front, whole, none⟩ := List.find?_eq_some_iff_append.mp found
  have order : l.reg = front.reverse ++ r :: back.reverse := by
    rw [← List.reverse_reverse l.reg, whole]
    simp
  rw [order] at member ascending
  rcases List.mem_append.mp member with inFront | inTail
  · exact .inr ((ascending_append.mp ascending).2.2 s inFront r (by simp))
  · rcases List.mem_cons.mp inTail with same | inBack
    · exact .inl same
    · have := none s (List.mem_reverse.mp inBack)
      simp [overlap] at this

theorem find_rev_some_overlaps {l : RegionList W} {area r : Region W}
    (found : l.findRev area = some r) :
    r ∈ l.reg ∧ r.overlaps area = true := by
  have overlap := List.find?_some found
  exact ⟨List.mem_reverse.mp (List.mem_of_find?_eq_some found), overlap⟩

namespace Memory

/-- The state of the loop over `sysalloc`: the rest of the area, with no spot
above it. -/
structure RemainingBelow (m : Memory W) (area : Region W) (size align : Nat) (rest : Region W) :
    Prop where
  begins : rest.begin = area.begin
  last : rest.last ≤ area.last
  whole : rest.last = area.last ∨
    ∀ s ∈ m.sysalloc.reg, s.overlaps rest = true → s.last ≤ rest.last
  spots : ∀ t, m.AreaSpot area size align t → t + size - 1 ≤ rest.last

section

variable {m : Memory W} {area : Region W} {size align : Nat}

theorem spot_in_found_rev {rest r : Region W} {t : Nat} (sysSorted : Ascending m.sysalloc.reg)
    (pos : 0 < size) (state : m.RemainingBelow area size align rest)
    (found : m.sysalloc.findRev rest = some r) (spot : m.AreaSpot area size align t) :
    (r.begin ≤ t ∧ t + size - 1 ≤ r.last) ∨ t + size - 1 < r.begin := by
  obtain ⟨s, member, begins, ends⟩ := spot.sysalloc
  have := state.spots t spot
  have := state.begins
  have := spot.above
  have overlap : s.overlaps rest = true := Region.overlaps_iff.mpr ⟨by omega, by omega⟩
  rcases find_rev_highest sysSorted found member overlap with rfl | below
  · exact .inl ⟨begins, ends⟩
  · exact .inr (by omega)

theorem search_rev_round {rest : Region W} {target : Nat → Prop} (alignSmall : align ≤ W.bits)
    (pos : 0 < size) (word : size < W.modulus) (sysSorted : Ascending m.sysalloc.reg)
    (beginPos : 0 < area.begin)
    (targets : ∀ t, target t → 2 ^ align ∣ t ∧ 0 < t ∧
      (m.AreaSpot area (roundUp align size) align t ∨ t + roundUp align size - 1 < area.begin) ∧
      m.regions.Free (roundUp align size) t)
    (steps : (∃ t, target t) ∨ ∀ s ∈ m.sysalloc.reg, s.overlaps area = true →
      m.regions.WalkStaysAbove (max area.begin s.begin) (min area.last s.last)
        (roundUp align size) align)
    (state : m.RemainingBelow area (roundUp align size) align rest) :
    (∃ t, m.searchRevRound size align rest = .ok (.leave t) ∧
      HighestOrZero (m.AreaSpot area (roundUp align size) align) t) ∨
    ∃ next, m.searchRevRound size align rest = .ok (.again next) ∧
      m.RemainingBelow area (roundUp align size) align next ∧
      (m.sysalloc.reg.countP fun s => s.begin ≤ next.last) <
        m.sysalloc.reg.countP fun s => s.begin ≤ rest.last := by
  have sizePos : 0 < roundUp align size := round_up_pos pos
  obtain ⟨begins, last, whole, spots⟩ := id state
  have areaOrdered := area.ordered
  have areaBounded := area.bounded
  have restOrdered := rest.ordered
  unfold searchRevRound
  cases found : m.sysalloc.findRev rest with
  | none =>
      left
      refine ⟨0, rfl, ?_, fun nonzero => absurd rfl nonzero⟩
      intro _ t spot
      obtain ⟨s, member, sBegins, sEnds⟩ := spot.sysalloc
      have := spots t spot
      have := spot.above
      have apart := List.find?_eq_none.mp found s (List.mem_reverse.mpr member)
      rw [Region.overlaps_iff] at apart
      omega
  | some r =>
      obtain ⟨member, overlap⟩ := find_rev_some_overlaps found
      obtain ⟨reaches, starts⟩ := Region.overlaps_iff.mp overlap
      obtain ⟨intArea, made, intBegin, intLast⟩ := Region.intersect_ok overlap
      have inFound := fun t => spot_in_found_rev (t := t) sysSorted sizePos state found
      -- inside the found region the spots of the area are the spots of the intersection
      have spotOfInt : ∀ t, m.regions.Spot intArea (roundUp align size) align t →
          m.AreaSpot area (roundUp align size) align t := by
        intro t spot
        have above := spot.above
        have below := spot.below
        exact ⟨spot.aligned, by omega, by omega, ⟨r, member, by omega, by omega⟩, spot.free⟩
      have intOfSpot : ∀ t, m.AreaSpot area (roundUp align size) align t →
          r.begin ≤ t → t + roundUp align size - 1 ≤ r.last →
          m.regions.Spot intArea (roundUp align size) align t := by
        intro t spot rBegins rEnds
        have := spots t spot
        have := spot.above
        exact ⟨spot.aligned, by omega, by omega, spot.free⟩
      have intTargets : ∀ t, target t → 2 ^ align ∣ t ∧ 0 < t ∧
          t + roundUp align size - 1 ≤ intArea.last ∧
          m.regions.Free (roundUp align size) t := by
        intro t isTarget
        obtain ⟨aligned, tPos, place, free⟩ := targets t isTarget
        refine ⟨aligned, tPos, ?_, free⟩
        rcases place with spot | below
        · have := spots t spot
          have := r.ordered
          rcases inFound t spot with inside | after <;> omega
        · omega
      -- no part of the found region was cut off by the regions searched before it
      have intSteps : (∃ t, target t) ∨ m.regions.WalkStaysAbove intArea.begin intArea.last
          (roundUp align size) align := by
        refine steps.imp id fun steps => ?_
        have piece := steps r member (Region.overlaps_iff.mpr ⟨by omega, by omega⟩)
        have sameLast : intArea.last = min area.last r.last := by
          rcases whole with same | above
          · omega
          · have := above r member overlap
            omega
        have sameBegin : intArea.begin = max area.begin r.begin := by omega
        rwa [sameBegin, sameLast]
      obtain ⟨addr, searched, answerZero, answerSpot⟩ :=
        RegionList.find_free_rev_highest alignSmall pos word (by omega) intTargets intSteps
      have intBounded := intArea.bounded
      have intOrdered := intArea.ordered
      have next : W.sub intArea.begin 1 = intArea.begin - 1 := W.sub_of_le (by omega) (by omega)
      simp only [made, ok_bind, searched, next]
      by_cases zero : addr = 0
      · -- nothing in this region: every spot of the area lies below it
        have below : ∀ t, m.AreaSpot area (roundUp align size) align t →
            t + roundUp align size - 1 < r.begin := by
          intro t spot
          rcases inFound t spot with ⟨rBegins, rEnds⟩ | after
          · exact absurd (intOfSpot t spot rBegins rEnds) (answerZero zero t)
          · exact after
        rw [if_neg (by simp [zero])]
        split_ifs with done
        · left
          refine ⟨0, rfl, ?_, fun nonzero => absurd rfl nonzero⟩
          intro _ t spot
          have := below t spot
          have := spot.above
          omega
        · right
          obtain ⟨nextRest, set, nextBegin, nextLast⟩ : ∃ nextRest : Region W,
              rest.setLast (intArea.begin - 1) = .ok nextRest ∧
              nextRest.begin = rest.begin ∧ nextRest.last = intArea.begin - 1 :=
            ⟨⟨rest.begin, intArea.begin - 1, rest.attr, by omega, by omega⟩,
              Region.set_last_ok.mpr ⟨rfl, rfl, rfl⟩, rfl, rfl⟩
          refine ⟨nextRest, by rw [set, ok_bind], ⟨by omega, by omega, .inr ?_, ?_⟩, ?_⟩
          · intro s inSys overlapNext
            rw [Region.overlaps_iff] at overlapNext
            have overlapRest : s.overlaps rest = true :=
              Region.overlaps_iff.mpr ⟨by omega, by omega⟩
            rcases find_rev_highest sysSorted found inSys overlapRest with rfl | before
            · omega
            · omega
          · intro t spot
            have := below t spot
            omega
          · apply count_lt_of_narrower _ member
            · simp only [decide_eq_false_iff_not]
              omega
            · simpa using starts
            · intro y _ lower
              simp only [decide_eq_true_eq] at lower ⊢
              omega
      · left
        obtain ⟨spot, highest⟩ := answerSpot zero
        rw [if_pos zero]
        refine ⟨addr, rfl, fun isZero => absurd isZero zero, fun _ => ⟨spotOfInt addr spot, ?_⟩⟩
        intro t other
        rcases inFound t other with ⟨rBegins, rEnds⟩ | after
        · exact highest t (intOfSpot t other rBegins rEnds)
        · have := spot.above
          omega

/-- The loop over `sysalloc` returns the highest spot of the area. -/
theorem search_rev_highest {target : Nat → Prop} (alignSmall : align ≤ W.bits)
    (pos : 0 < size) (word : size < W.modulus) (sysSorted : Ascending m.sysalloc.reg)
    (beginPos : 0 < area.begin)
    (targets : ∀ t, target t → 2 ^ align ∣ t ∧ 0 < t ∧
      (m.AreaSpot area (roundUp align size) align t ∨ t + roundUp align size - 1 < area.begin) ∧
      m.regions.Free (roundUp align size) t)
    (steps : (∃ t, target t) ∨ ∀ s ∈ m.sysalloc.reg, s.overlaps area = true →
      m.regions.WalkStaysAbove (max area.begin s.begin) (min area.last s.last)
        (roundUp align size) align) :
    ∃ t, loop (m.searchRevRound size align) .diverges (m.sysalloc.reg.length + 2) area = .ok t ∧
      HighestOrZero (m.AreaSpot area (roundUp align size) align) t := by
  apply loop_total (m.searchRevRound size align) Stop.diverges
    (m.RemainingBelow area (roundUp align size) align)
    (HighestOrZero (m.AreaSpot area (roundUp align size) align))
    (fun rest => m.sysalloc.reg.countP fun s => s.begin ≤ rest.last)
  · intro rest state
    exact search_rev_round alignSmall pos word sysSorted beginPos targets steps state
  · exact ⟨rfl, le_rfl, .inl rfl, fun t spot => spot.below⟩
  · exact Nat.lt_of_le_of_lt List.countP_le_length (by omega)

end

/-- On none of the searched pieces of memory does the walk go below address 0. -/
def StepsStayAbove (m : Memory W) (size minAddr maxAddr align node : Nat) : Prop :=
  ∀ low high, m.IsPiece minAddr maxAddr node low high →
    m.regions.WalkStaysAbove low high size align

/-- The loop over a suffix of the reversed RAM list. The running maximum is
either still the first one or lies above all regions to come. -/
theorem find_free_ram_rev_from_highest {m : Memory W} {size minAddr maxAddr align node : Nat}
    (alignSmall : align ≤ W.bits) (two : 2 ≤ size) (word : size < W.modulus)
    (sysSorted : Ascending m.sysalloc.reg) (narrows : m.Narrows)
    (bounds : max minAddr W.bytes ≤ maxAddr) (rams : List (Region W)) (maximum : Nat)
    (sorted : rams.Pairwise fun a b => b.last < a.begin)
    (inRam : ∀ rr ∈ rams, rr ∈ m.ram.reg)
    (running : maximum = maxAddr ∨ (maximum ≤ maxAddr ∧ ∀ rr ∈ rams, rr.last < maximum))
    (steps : (∃ t, m.FreeSpotIn rams (roundUp align size) minAddr maxAddr align node t) ∨
      m.StepsStayAbove (roundUp align size) minAddr maxAddr align node) :
    ∃ t, m.findFreeRamRevFrom size (max minAddr W.bytes) align node maximum rams = .ok t ∧
      HighestOrZero (m.FreeSpotIn rams (roundUp align size) minAddr maxAddr align node) t := by
  have sizeLe := le_round_up align size
  induction rams generalizing maximum with
  | nil =>
      refine ⟨0, rfl, ?_, fun nonzero => absurd rfl nonzero⟩
      intro _ t spot
      obtain ⟨rr, member, _⟩ := spot.ram
      simp at member
  | cons rr rest ih =>
      obtain ⟨restBelow, restSorted⟩ := List.pairwise_cons.mp sorted
      have rrOrdered := rr.ordered
      have rrBounded := rr.bounded
      have restInRam : ∀ o ∈ rest, o ∈ m.ram.reg := fun o member => inRam o (by simp [member])
      -- where the region has no spot at all, the search goes on with the rest
      have skip : (∀ area, m.IsArea minAddr maxAddr node rr area →
            ∀ t, ¬ m.AreaSpot area (roundUp align size) align t) →
          ∀ maximum', (maximum' = maxAddr ∨
            (maximum' ≤ maxAddr ∧ ∀ o ∈ rest, o.last < maximum')) →
          ∃ t, m.findFreeRamRevFrom size (max minAddr W.bytes) align node maximum' rest = .ok t ∧
            HighestOrZero (m.FreeSpotIn (rr :: rest) (roundUp align size) minAddr maxAddr
              align node) t := by
        intro noSpot maximum' running'
        rw [free_spot_in_skip narrows noSpot] at steps ⊢
        exact ih maximum' restSorted restInRam running' steps
      have restRunning : maximum = maxAddr ∨
          (maximum ≤ maxAddr ∧ ∀ o ∈ rest, o.last < maximum) :=
        running.imp id fun above => ⟨above.1, fun o member => above.2 o (by simp [member])⟩
      have first : min rr.last maximum = min rr.last maxAddr ∧
          (maximum ≤ rr.begin ↔ maxAddr ≤ rr.begin) ∧ maximum ≤ maxAddr := by
        rcases running with same | ⟨lower, above⟩
        · rw [same]
          exact ⟨rfl, Iff.rfl, le_rfl⟩
        · have := above rr (by simp)
          omega
      have nextRunning : min rr.last maximum = maxAddr ∨
          (min rr.last maximum ≤ maxAddr ∧ ∀ o ∈ rest, o.last < min rr.last maximum) := by
        rw [first.1]
        rcases Nat.le_total maxAddr rr.last with inside | below
        · exact .inl (by omega)
        · refine .inr ⟨by omega, ?_⟩
          intro o member
          have := restBelow o member
          omega
      rw [findFreeRamRevFrom]
      split_ifs with low high
      · exact skip (no_spot_outside narrows (by omega) (.inl low)) maximum restRunning
      · exact skip (no_spot_outside narrows (by omega) (.inr (first.2.1.mp high))) maximum
          restRunning
      · obtain ⟨whole, made, wholeBegin, wholeLast, plain⟩ : ∃ whole : Region W,
            Region.make (max rr.begin (max minAddr W.bytes)) (min rr.last maximum) {} = .ok whole ∧
            whole.begin = max rr.begin (max minAddr W.bytes) ∧
            whole.last = min rr.last maxAddr ∧ whole.attr = {} :=
          ⟨⟨max rr.begin (max minAddr W.bytes), min rr.last maximum, {}, by omega, by omega⟩,
            Region.make_ok.mpr ⟨rfl, rfl, rfl⟩, rfl, first.1, rfl⟩
        simp only [made, ok_bind]
        cases validated : m.validated whole node with
        | none =>
            apply skip _ _ nextRunning
            intro area isArea
            rw [is_area_of_whole wholeBegin wholeLast plain, validated] at isArea
            cases isArea
        | some area =>
            have isArea : m.IsArea minAddr maxAddr node rr area :=
              (is_area_of_whole wholeBegin wholeLast plain area).mpr validated
            have inside := isArea.inside narrows
            have bytesPos := W.bytes_pos
            have spotIff := @free_spot_in_area _ m _ _ rest (roundUp align size) _ _ align node
              narrows isArea
            have restBefore : ∀ t, m.FreeSpotIn rest (roundUp align size) minAddr maxAddr
                align node t → t + roundUp align size - 1 < area.begin := by
              intro t spot
              obtain ⟨o, member, inO, _⟩ := spot.ram
              have := restBelow o member
              omega
            have targets : ∀ t, m.FreeSpotIn (rr :: rest) (roundUp align size) minAddr maxAddr
                align node t → 2 ^ align ∣ t ∧ 0 < t ∧
                (m.AreaSpot area (roundUp align size) align t ∨
                  t + roundUp align size - 1 < area.begin) ∧
                m.regions.Free (roundUp align size) t := by
              intro t spot
              have := spot.above
              exact ⟨spot.aligned, by omega, ((spotIff t).mp spot).imp id (restBefore t), spot.free⟩
            have areaSteps : (∃ t, m.FreeSpotIn (rr :: rest) (roundUp align size) minAddr maxAddr
                align node t) ∨ ∀ s ∈ m.sysalloc.reg, s.overlaps area = true →
                m.regions.WalkStaysAbove (max area.begin s.begin) (min area.last s.last)
                  (roundUp align size) align := by
              refine steps.imp id fun stay s inSys overlap => ?_
              exact stay _ _ ⟨rr, inRam rr (by simp), by omega, by omega, area, isArea, s, inSys,
                overlap, rfl, rfl⟩
            obtain ⟨addr, searched, answerZero, answerSpot⟩ :=
              search_rev_highest alignSmall (by omega) word sysSorted (by omega) targets areaSteps
            simp only [searched, ok_bind]
            by_cases zero : addr = 0
            · rw [if_neg (by simp [zero])]
              apply skip _ _ nextRunning
              intro other isOther t
              rw [isArea.unique isOther]
              exact answerZero zero t
            · obtain ⟨spot, highest⟩ := answerSpot zero
              rw [if_pos zero]
              refine ⟨addr, rfl, fun isZero => absurd isZero zero,
                fun _ => ⟨(spotIff addr).mpr (.inl spot), ?_⟩⟩
              intro t other
              rcases (spotIff t).mp other with here | later
              · exact highest t here
              · have := restBefore t later
                have := spot.above
                omega

/-- The reverse search answers with the highest free spot, or with 0 if there is
none, provided that a free spot exists or no step of the search goes below
address 0. -/
theorem find_free_ram_rev_highest {m : Memory W} {size minAddr maxAddr align node : Nat}
    (ramSorted : Ascending m.ram.reg) (sysSorted : Ascending m.sysalloc.reg)
    (narrows : m.Narrows) (two : 2 ≤ size) (word : size < W.modulus) (alignSmall : align < W.bits)
    (bounds : max minAddr W.bytes ≤ maxAddr)
    (steps : (∃ t, m.FreeSpot (roundUp align size) minAddr maxAddr align node t) ∨
      m.StepsStayAbove (roundUp align size) minAddr maxAddr align node) :
    ∃ t, m.findFreeRamRev size minAddr maxAddr align node = .ok t ∧
      HighestOrZero (m.FreeSpot (roundUp align size) minAddr maxAddr align node) t := by
  have reversed : m.FreeSpotIn m.ram.reg.reverse (roundUp align size) minAddr maxAddr align node =
      m.FreeSpot (roundUp align size) minAddr maxAddr align node := by
    funext t
    rw [FreeSpot, eq_iff_iff]
    constructor <;> rintro ⟨aligned, above, below, ram, sys, free⟩
    · exact ⟨aligned, above, below, by simpa using ram, sys, free⟩
    · exact ⟨aligned, above, below, by simpa using ram, sys, free⟩
  rw [← reversed] at steps ⊢
  exact find_free_ram_rev_from_highest alignSmall.le two word sysSorted narrows bounds
    m.ram.reg.reverse maxAddr (List.pairwise_reverse.mpr ramSorted)
    (fun rr member => List.mem_reverse.mp member) (.inl rfl) steps

/-- One reserved page at the start of RAM. -/
theorem find_free_ram_rev_highest_low_ram :
    ∃ t, lowRam.findFreeRamRev 0x1000 0 Wordsize.w64.maxWord 12 anyNode = .ok t ∧
      HighestOrZero (lowRam.FreeSpot (roundUp 12 0x1000) 0 Wordsize.w64.maxWord 12 anyNode) t := by
  apply find_free_ram_rev_highest
  · exact List.pairwise_singleton _ _
  · exact List.pairwise_singleton _ _
  · intro area node narrowed same
    cases same
    exact ⟨le_rfl, le_rfl⟩
  · decide
  · decide
  · decide
  · decide
  · left
    refine ⟨0xf000, by decide, by decide, by decide, ?_, ?_, by unfold RegionList.Free; decide⟩
    · refine ⟨_, List.mem_singleton.mpr rfl, by decide, ?_⟩
      exact ⟨⟨0x1000, 0xffff, {}, by decide, by decide⟩,
        ⟨_, by decide, by decide, by decide, rfl⟩, by decide⟩
    · exact ⟨_, List.mem_singleton.mpr rfl, by decide⟩

def bottomReserved : Memory .w64 where
  ram := unlimited [⟨0x1000, 0x3fff, {}, by decide, by decide⟩]
  sysalloc := unlimited [⟨0x1000, 0x3fff, {}, by decide, by decide⟩]
  regions := unlimited [⟨0, 0x3fff, {}, by decide, by decide⟩]
  validate := none

/-- Below an entry that begins at address 0 the search goes on at the top of the
address space and hands out the last page there; a request that is larger than
the end of RAM ends in an assertion. -/
theorem find_free_ram_rev_wraps :
    Ascending bottomReserved.ram.reg ∧ Ascending bottomReserved.sysalloc.reg ∧
      bottomReserved.validate = none ∧ max 0 Wordsize.w64.bytes ≤ Wordsize.w64.maxWord ∧
      bottomReserved.findFreeRamRev 0x1000 0 Wordsize.w64.maxWord 12 anyNode =
        .ok (2 ^ 64 - 0x1000) ∧
      ¬ HighestOrZero (bottomReserved.FreeSpot (roundUp 12 0x1000) 0 Wordsize.w64.maxWord 12
        anyNode) (2 ^ 64 - 0x1000) ∧
      bottomReserved.findFreeRamRev 0x10000 0 Wordsize.w64.maxWord 12 anyNode =
        .error .assertion := by
  refine ⟨List.pairwise_singleton _ _, List.pairwise_singleton _ _, rfl, by decide, by decide, ?_,
    by decide⟩
  intro answer
  have spot := (answer.2 (by decide)).1
  obtain ⟨rr, member, inside, _⟩ := spot.ram
  rw [List.mem_singleton.mp member] at inside
  revert inside
  decide

end Memory

end L4Bootstrap
