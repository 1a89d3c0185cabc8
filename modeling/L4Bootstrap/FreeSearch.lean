import L4Bootstrap.RegionInvariant

/-!
# Searching for free memory

`Region_list::find_free` and `find_free_rev` of `region.cc`, and the memory
manager of `memory.cc` that runs them over the intersections of RAM and
`sysalloc`. The searches of one area are endless loops whose state is one
address; each state after the first one is determined by an entry of the list,
so that `length + 2` rounds without an end are a run without an end.
-/

namespace L4Bootstrap

open MachineWord CheckedLoop

set_option autoImplicit false

variable {W : Wordsize}

namespace RegionList

/-- One round of `find_free` at `start`; `size` is rounded already. -/
def findFreeRound (l : RegionList W) (last size align start : Nat) : Checked (Round Nat Nat) :=
  let start := W.roundSize align start
  if last < W.sub (W.add start size) 1 then .ok (.leave 0)
  else do
    let probe ← Region.startSize start size {}
    match l.find probe with
    | none => .ok (.leave start)
    | some z => .ok (.again (W.add z.last 1))

def findFree (l : RegionList W) (search : Region W) (size align : Nat) : Checked Nat :=
  loop (l.findFreeRound search.last (W.roundSize align size) align) .diverges
    (l.reg.length + 2) search.begin

/-- One round of `find_free_rev` at `last`; `size` is rounded already. -/
def findFreeRevRound (l : RegionList W) (start size align last : Nat) : Checked (Round Nat Nat) :=
  let last := truncSize align (W.sub last (W.sub size 1))
  if last < start then .ok (.leave 0)
  else do
    let probe ← Region.startSize last size {}
    match l.find probe with
    | none => .ok (.leave last)
    | some z => .ok (.again (W.sub z.begin 1))

def findFreeRev (l : RegionList W) (search : Region W) (size align : Nat) : Checked Nat :=
  loop (l.findFreeRevRound search.begin (W.roundSize align size) align) .diverges
    (l.reg.length + 2) search.last

end RegionList

/-- `struct Memory`. A `validate` callback refuses an area or gives back the
area it has narrowed it to. -/
structure Memory (W : Wordsize) where
  ram : RegionList W
  sysalloc : RegionList W
  regions : RegionList W
  validate : Option (Region W → Nat → Option (Region W))

namespace Memory

/-- `~0U`, the default of the `node` parameters. -/
def anyNode : Nat := 2 ^ 32 - 1

def validated (m : Memory W) (area : Region W) (node : Nat) : Option (Region W) :=
  match m.validate with
  | none => some area
  | some check => check area node

/-- One round of the inner loop of `find_free_ram`; leaving with 0 is the
`break` that goes on with the next RAM region. -/
def searchRound (m : Memory W) (size align : Nat) (area : Region W) :
    Checked (Round (Region W) Nat) :=
  match m.sysalloc.find area with
  | none => .ok (.leave 0)
  | some r => do
      let intArea ← r.intersect area
      let addr ← m.regions.findFree intArea size align
      if addr ≠ 0 then .ok (.leave addr)
      else if area.last < W.add intArea.last 1 ∨ W.add intArea.last 1 < intArea.last then
        .ok (.leave 0)
      else do
        let area ← area.setBegin (W.add intArea.last 1)
        .ok (.again area)

/-- The loop of `find_free_ram` over the RAM regions with its running minimum. -/
def findFreeRamFrom (m : Memory W) (size maxAddr align node : Nat) :
    Nat → List (Region W) → Checked Nat
  | _, [] => .ok 0
  | minimum, rr :: rest =>
      if rr.last ≤ minimum then findFreeRamFrom m size maxAddr align node minimum rest
      else if maxAddr ≤ rr.begin then findFreeRamFrom m size maxAddr align node minimum rest
      else do
        let area ← Region.make (max rr.begin minimum) (min rr.last maxAddr) {}
        match m.validated area node with
        | none => findFreeRamFrom m size maxAddr align node (max rr.begin minimum) rest
        | some area => do
            let addr ← loop (m.searchRound size align) .diverges (m.sysalloc.reg.length + 2) area
            if addr ≠ 0 then .ok addr
            else findFreeRamFrom m size maxAddr align node (max rr.begin minimum) rest

def findFreeRam (m : Memory W) (size minAddr maxAddr align node : Nat) : Checked Nat :=
  m.findFreeRamFrom size maxAddr align node (max minAddr W.bytes) m.ram.reg

def searchRevRound (m : Memory W) (size align : Nat) (area : Region W) :
    Checked (Round (Region W) Nat) :=
  match m.sysalloc.findRev area with
  | none => .ok (.leave 0)
  | some r => do
      let intArea ← r.intersect area
      let addr ← m.regions.findFreeRev intArea size align
      if addr ≠ 0 then .ok (.leave addr)
      else if W.sub intArea.begin 1 < area.begin then .ok (.leave 0)
      else do
        let area ← area.setLast (W.sub intArea.begin 1)
        .ok (.again area)

/-- The loop of `find_free_ram_rev` over the RAM regions, from the last one
down, with its running maximum. -/
def findFreeRamRevFrom (m : Memory W) (size minAddr align node : Nat) :
    Nat → List (Region W) → Checked Nat
  | _, [] => .ok 0
  | maximum, rr :: rest =>
      if rr.last ≤ minAddr then findFreeRamRevFrom m size minAddr align node maximum rest
      else if maximum ≤ rr.begin then
        findFreeRamRevFrom m size minAddr align node maximum rest
      else do
        let area ← Region.make (max rr.begin minAddr) (min rr.last maximum) {}
        match m.validated area node with
        | none => findFreeRamRevFrom m size minAddr align node (min rr.last maximum) rest
        | some area => do
            let addr ← loop (m.searchRevRound size align) .diverges (m.sysalloc.reg.length + 2) area
            if addr ≠ 0 then .ok addr
            else findFreeRamRevFrom m size minAddr align node (min rr.last maximum) rest

def findFreeRamRev (m : Memory W) (size minAddr maxAddr align node : Nat) : Checked Nat :=
  m.findFreeRamRevFrom size (max minAddr W.bytes) align node maxAddr m.ram.reg.reverse

end Memory

/-! ## Free spots -/

/-- The answer of a search from below: the lowest spot, or 0 if there is none. -/
def LowestOrZero (spot : Nat → Prop) (t : Nat) : Prop :=
  (t = 0 → ∀ other, ¬ spot other) ∧ (t ≠ 0 → spot t ∧ ∀ other, spot other → t ≤ other)

/-- The answer of a search from above. -/
def HighestOrZero (spot : Nat → Prop) (t : Nat) : Prop :=
  (t = 0 → ∀ other, ¬ spot other) ∧ (t ≠ 0 → spot t ∧ ∀ other, spot other → other ≤ t)

/-- No entry of the list has a byte in common with `size` bytes from `t`. -/
def RegionList.Free (l : RegionList W) (size t : Nat) : Prop :=
  ∀ z ∈ l.reg, z.last < t ∨ t + size - 1 < z.begin

/-- What a search of one area looks for: an aligned, free start for `size`
bytes inside the area. -/
structure RegionList.Spot (l : RegionList W) (search : Region W) (size align t : Nat) : Prop where
  aligned : 2 ^ align ∣ t
  above : search.begin ≤ t
  below : t + size - 1 ≤ search.last
  free : l.Free size t

namespace Memory

/-- The area that the memory manager searches for the RAM region `rr`. -/
def IsArea (m : Memory W) (minAddr maxAddr node : Nat) (rr area : Region W) : Prop :=
  ∃ whole : Region W, whole.begin = max rr.begin (max minAddr W.bytes) ∧
    whole.last = min rr.last maxAddr ∧ whole.attr = {} ∧ m.validated whole node = some area

/-- An address that the memory manager may hand out for `size` bytes: aligned,
within the bounds, inside one of the RAM regions and its search area, inside
one `sysalloc` region, and free. -/
structure FreeSpotIn (m : Memory W) (rams : List (Region W))
    (size minAddr maxAddr align node t : Nat) : Prop where
  aligned : 2 ^ align ∣ t
  above : max minAddr W.bytes ≤ t
  below : t + size - 1 ≤ maxAddr
  ram : ∃ rr ∈ rams, (rr.begin ≤ t ∧ t + size - 1 ≤ rr.last) ∧
    ∃ area, m.IsArea minAddr maxAddr node rr area ∧ area.begin ≤ t ∧ t + size - 1 ≤ area.last
  sysalloc : ∃ s ∈ m.sysalloc.reg, s.begin ≤ t ∧ t + size - 1 ≤ s.last
  free : m.regions.Free size t

def FreeSpot (m : Memory W) (size minAddr maxAddr align node t : Nat) : Prop :=
  m.FreeSpotIn m.ram.reg size minAddr maxAddr align node t

/-- The part of a free spot's conditions that concerns one search area. -/
structure AreaSpot (m : Memory W) (area : Region W) (size align t : Nat) : Prop where
  aligned : 2 ^ align ∣ t
  above : area.begin ≤ t
  below : t + size - 1 ≤ area.last
  sysalloc : ∃ s ∈ m.sysalloc.reg, s.begin ≤ t ∧ t + size - 1 ≤ s.last
  free : m.regions.Free size t

/-- `validate` may narrow the area, and does nothing else to it. -/
def Narrows (m : Memory W) : Prop :=
  ∀ area node narrowed, m.validated area node = some narrowed →
    area.begin ≤ narrowed.begin ∧ narrowed.last ≤ area.last

/-- `low` to `high` is the part of a search area that lies in one `sysalloc`
region. A RAM region that ends at the lower bound or begins at the upper one is
not searched. -/
def IsPiece (m : Memory W) (minAddr maxAddr node low high : Nat) : Prop :=
  ∃ rr ∈ m.ram.reg, max minAddr W.bytes < rr.last ∧ rr.begin < maxAddr ∧
    ∃ area, m.IsArea minAddr maxAddr node rr area ∧
      ∃ s ∈ m.sysalloc.reg, s.overlaps area = true ∧
        low = max area.begin s.begin ∧ high = min area.last s.last

/-- A list without limits that holds the given entries. -/
def unlimited (reg : List (Region W)) : RegionList W :=
  ⟨reg, 300, W.maxWord, W.maxWord, 0⟩

/-- A machine with one region of RAM whose first page is taken. -/
def lowRam : Memory .w64 where
  ram := unlimited [.fixed 0x1000 0xffff {} (.refl true)]
  sysalloc := unlimited [.fixed 0 0xfffff {} (.refl true)]
  regions := unlimited [.fixed 0x1000 0x1fff {} (.refl true)]
  validate := none

end Memory

/-! ## Facts shared by both directions -/

namespace Memory

/-- The search area of a RAM region is determined by the region. -/
theorem is_area_of_whole {m : Memory W} {minAddr maxAddr node : Nat} {rr whole : Region W}
    (begins : whole.begin = max rr.begin (max minAddr W.bytes))
    (ends : whole.last = min rr.last maxAddr) (plain : whole.attr = {}) (area : Region W) :
    m.IsArea minAddr maxAddr node rr area ↔ m.validated whole node = some area := by
  constructor
  · rintro ⟨other, otherBegins, otherEnds, otherPlain, validated⟩
    have same : other = whole := by
      cases other
      cases whole
      simp_all
    rw [← same]
    exact validated
  · intro validated
    exact ⟨whole, begins, ends, plain, validated⟩

theorem IsArea.unique {m : Memory W} {minAddr maxAddr node : Nat} {rr area other : Region W}
    (isArea : m.IsArea minAddr maxAddr node rr area)
    (isOther : m.IsArea minAddr maxAddr node rr other) : other = area := by
  obtain ⟨whole, begins, ends, plain, validated⟩ := isArea
  rw [is_area_of_whole begins ends plain, validated] at isOther
  cases isOther
  rfl

theorem IsArea.inside {m : Memory W} {minAddr maxAddr node : Nat} {rr area : Region W}
    (narrows : m.Narrows) (isArea : m.IsArea minAddr maxAddr node rr area) :
    max rr.begin (max minAddr W.bytes) ≤ area.begin ∧ area.last ≤ min rr.last maxAddr := by
  obtain ⟨whole, begins, ends, _, validated⟩ := isArea
  rw [← begins, ← ends]
  exact narrows whole node area validated

/-- Below the first RAM region of a list, a free spot is a spot of its search
area or a free spot of the rest. -/
theorem free_spot_in_cons {m : Memory W} {rr : Region W} {rest : List (Region W)}
    {size minAddr maxAddr align node t : Nat} (narrows : m.Narrows) :
    m.FreeSpotIn (rr :: rest) size minAddr maxAddr align node t ↔
      (∃ area, m.IsArea minAddr maxAddr node rr area ∧ m.AreaSpot area size align t) ∨
        m.FreeSpotIn rest size minAddr maxAddr align node t := by
  constructor
  · rintro ⟨aligned, above, below, ⟨other, member, bounds, area, isArea, areaBounds⟩, sys, free⟩
    rcases List.mem_cons.mp member with rfl | inRest
    · exact .inl ⟨area, isArea, aligned, areaBounds.1, areaBounds.2, sys, free⟩
    · exact .inr ⟨aligned, above, below, ⟨other, inRest, bounds, area, isArea, areaBounds⟩,
        sys, free⟩
  · rintro (⟨area, isArea, aligned, above, below, sys, free⟩ |
      ⟨aligned, above, below, ⟨other, inRest, rest⟩, sys, free⟩)
    · have inside := isArea.inside narrows
      exact ⟨aligned, by omega, by omega,
        ⟨rr, by simp, ⟨by omega, by omega⟩, area, isArea, above, below⟩, sys, free⟩
    · exact ⟨aligned, above, below, ⟨other, by simp [inRest], rest⟩, sys, free⟩

theorem free_spot_in_area {m : Memory W} {rr area : Region W} {rest : List (Region W)}
    {size minAddr maxAddr align node : Nat} (narrows : m.Narrows)
    (isArea : m.IsArea minAddr maxAddr node rr area) (t : Nat) :
    m.FreeSpotIn (rr :: rest) size minAddr maxAddr align node t ↔
      m.AreaSpot area size align t ∨ m.FreeSpotIn rest size minAddr maxAddr align node t := by
  rw [free_spot_in_cons narrows]
  apply or_congr_left
  constructor
  · rintro ⟨other, isOther, spot⟩
    rw [isArea.unique isOther] at spot
    exact spot
  · intro spot
    exact ⟨area, isArea, spot⟩

/-- A RAM region without a spot can be left out. -/
theorem free_spot_in_skip {m : Memory W} {rr : Region W} {rest : List (Region W)}
    {size minAddr maxAddr align node : Nat} (narrows : m.Narrows)
    (noSpot : ∀ area, m.IsArea minAddr maxAddr node rr area → ∀ t, ¬ m.AreaSpot area size align t) :
    m.FreeSpotIn (rr :: rest) size minAddr maxAddr align node =
      m.FreeSpotIn rest size minAddr maxAddr align node := by
  funext t
  rw [free_spot_in_cons narrows, eq_iff_iff]
  apply or_iff_right
  rintro ⟨area, isArea, spot⟩
  exact noSpot area isArea t spot

/-- A RAM region that lies outside of the bounds has no spot. -/
theorem no_spot_outside {m : Memory W} {rr : Region W} {size minAddr maxAddr align node : Nat}
    (narrows : m.Narrows) (two : 2 ≤ size)
    (outside : rr.last ≤ max minAddr W.bytes ∨ maxAddr ≤ rr.begin) (area : Region W)
    (isArea : m.IsArea minAddr maxAddr node rr area) (t : Nat) :
    ¬ m.AreaSpot area size align t := by
  intro spot
  have inside := isArea.inside narrows
  have above := spot.above
  have below := spot.below
  omega

end Memory

/-- In an ascending list the first overlapping entry is the lowest one. -/
theorem find_lowest {l : RegionList W} {area r s : Region W} (ascending : Ascending l.reg)
    (found : l.find area = some r) (member : s ∈ l.reg) (overlap : s.overlaps area = true) :
    s = r ∨ r.last < s.begin := by
  obtain ⟨_, front, back, whole, none⟩ := List.find?_eq_some_iff_append.mp found
  rw [whole] at member ascending
  rcases List.mem_append.mp member with inFront | inTail
  · have := none s inFront
    simp [overlap] at this
  · rcases List.mem_cons.mp inTail with same | inBack
    · exact .inl same
    · exact .inr ((ascending_cons.mp (ascending_append.mp ascending).2.1).1 s inBack)

/-- The first entry of the list that has a byte in common with `size` bytes
from `t`. -/
def RegionList.firstAt (l : RegionList W) (size t : Nat) : Option (Region W) :=
  l.reg.find? fun z => t ≤ z.last ∧ z.begin ≤ t + size - 1

theorem find_probe_eq {l : RegionList W} {probe : Region W} {start size : Nat}
    (begins : probe.begin = start) (ends : probe.last = start + size - 1) :
    l.find probe = l.firstAt size start := by
  unfold RegionList.find RegionList.firstAt
  congr 1
  funext z
  rw [Bool.eq_iff_iff, Region.overlaps_iff, begins, ends, decide_eq_true_iff]

theorem first_at_none_free {l : RegionList W} {start size : Nat}
    (none : l.firstAt size start = none) : l.Free size start := by
  intro z member
  have apart := List.find?_eq_none.mp none z member
  simp only [decide_eq_true_eq] at apart
  omega

theorem first_at_some {l : RegionList W} {start size : Nat} {z : Region W}
    (found : l.firstAt size start = some z) :
    z ∈ l.reg ∧ start ≤ z.last ∧ z.begin ≤ start + size - 1 := by
  have overlap := List.find?_some found
  simp only [decide_eq_true_eq] at overlap
  exact ⟨List.mem_of_find?_eq_some found, overlap⟩

theorem find_some_overlaps {l : RegionList W} {probe z : Region W} (found : l.find probe = some z) :
    z ∈ l.reg ∧ probe.begin ≤ z.last ∧ z.begin ≤ probe.last := by
  have overlap := List.find?_some found
  exact ⟨List.mem_of_find?_eq_some found, Region.overlaps_iff.mp overlap⟩

/-! ## What every answer satisfies

Also after a wrapped step, an answer other than 0 is an aligned address of
memory that no entry overlaps.
-/

/-- `size` bytes from `t` end within the address space and are free. -/
structure RegionList.Placed (l : RegionList W) (size align t : Nat) : Prop where
  pos : 0 < size
  aligned : 2 ^ align ∣ t
  fits : t + size ≤ W.modulus
  free : l.Free size t

theorem RegionList.find_free_placed {l : RegionList W} {search : Region W} {size align t : Nat}
    (returned : l.findFree search size align = .ok t) (found : t ≠ 0) :
    l.Placed (W.roundSize align size) align t ∧
      t + W.roundSize align size - 1 ≤ search.last := by
  obtain ⟨start, _, round⟩ := loop_returns _ _ (fun _ => True) (fun _ _ _ _ => trivial)
    trivial returned
  unfold findFreeRound at round
  simp only at round
  split_ifs at round with past
  · cases round
    exact absurd rfl found
  · obtain ⟨probe, made, rest⟩ := bind_ok_iff.mp round
    cases looked : l.find probe with
    | some z =>
        rw [looked] at rest
        cases rest
    | none =>
        rw [looked] at rest
        cases rest
        have pos := (Region.start_size_ok.mp made).1
        obtain ⟨fits, begins, ends, _⟩ := Region.start_size_last made (W.round_size_lt _ _)
        rw [W.last_of_fits pos fits] at past
        refine ⟨⟨pos, W.dvd_round_size _ _, fits, ?_⟩, by omega⟩
        rw [find_probe_eq begins ends] at looked
        exact first_at_none_free looked

theorem Memory.find_free_ram_placed {m : Memory W} {size minAddr maxAddr align node t : Nat}
    (returned : m.findFreeRam size minAddr maxAddr align node = .ok t) (found : t ≠ 0) :
    m.regions.Placed (W.roundSize align size) align t := by
  unfold findFreeRam at returned
  generalize max minAddr W.bytes = minimum at returned
  generalize m.ram.reg = rams at returned
  induction rams generalizing minimum with
  | nil =>
      cases returned
      exact absurd rfl found
  | cons rr rest ih =>
      rw [findFreeRamFrom] at returned
      split_ifs at returned with low high
      · exact ih _ returned
      · exact ih _ returned
      · obtain ⟨whole, _, returned⟩ := bind_ok_iff.mp returned
        cases validated : m.validated whole node with
        | none =>
            rw [validated] at returned
            exact ih _ returned
        | some area =>
            rw [validated] at returned
            obtain ⟨addr, searched, returned⟩ := bind_ok_iff.mp returned
            split_ifs at returned with hit
            · cases returned
              obtain ⟨last, _, round⟩ := loop_returns _ _ (fun _ => True)
                (fun _ _ _ _ => trivial) trivial searched
              unfold searchRound at round
              cases sys : m.sysalloc.find last with
              | none =>
                  rw [sys] at round
                  cases round
                  exact absurd rfl hit
              | some r =>
                  rw [sys] at round
                  obtain ⟨intArea, _, round⟩ := bind_ok_iff.mp round
                  obtain ⟨addr, free, round⟩ := bind_ok_iff.mp round
                  split_ifs at round with got done
                  · cases round
                    exact (RegionList.find_free_placed free found).1
                  · cases round
                    exact absurd rfl hit
                  · obtain ⟨_, _, round⟩ := bind_ok_iff.mp round
                    cases round
            · exact ih _ returned

/-! ## Answers inside of RAM

Without entries in the last page of the address space no step of a search wraps.
-/

def BelowTop (align : Nat) (reg : List (Region W)) : Prop :=
  ∀ r ∈ reg, r.last + 2 ^ align < W.modulus

theorem RegionList.find_free_above {l : RegionList W} {search : Region W} {size align t : Nat}
    (top : BelowTop align l.reg) (low : search.last + 2 ^ align < W.modulus)
    (returned : l.findFree search size align = .ok t) (found : t ≠ 0) : search.begin ≤ t := by
  have ordered := search.ordered
  have pos := Nat.two_pow_pos align
  have rounded : ∀ start, start + 2 ^ align - 1 < W.modulus → start ≤ W.roundSize align start := by
    intro start fits
    rw [W.round_size_of_lt fits]
    exact le_round_up align start
  have keeps : ∀ start next, (search.begin ≤ start ∧ start + 2 ^ align - 1 < W.modulus) →
      l.findFreeRound search.last (W.roundSize align size) align start = .ok (.again next) →
      search.begin ≤ next ∧ next + 2 ^ align - 1 < W.modulus := by
    rintro start next ⟨above, fits⟩ round
    have behindStart := rounded start fits
    unfold findFreeRound at round
    simp only at round
    split_ifs at round with past
    · cases round
    · obtain ⟨probe, made, rest⟩ := bind_ok_iff.mp round
      cases looked : l.find probe with
      | none =>
          rw [looked] at rest
          cases rest
      | some z =>
          rw [looked] at rest
          cases rest
          obtain ⟨member, behind, _⟩ := find_some_overlaps looked
          rw [(Region.start_size_ok.mp made).2.1] at behind
          have zLow := top z member
          rw [W.add_of_lt (by omega)]
          omega
  obtain ⟨start, ⟨above, fits⟩, round⟩ := loop_returns _ _ _ keeps ⟨le_rfl, by omega⟩ returned
  have behindStart := rounded start fits
  unfold findFreeRound at round
  simp only at round
  split_ifs at round with past
  · cases round
    exact absurd rfl found
  · obtain ⟨probe, made, rest⟩ := bind_ok_iff.mp round
    cases looked : l.find probe with
    | some z =>
        rw [looked] at rest
        cases rest
    | none =>
        rw [looked] at rest
        cases rest
        omega

namespace Memory

/-- A round of the inner loop leaves with 0 or with an address of its area. -/
theorem search_round_inside {m : Memory W} {size align t : Nat} {area : Region W}
    (top : BelowTop align m.regions.reg) (low : area.last + 2 ^ align < W.modulus)
    (round : m.searchRound size align area = .ok (.leave t)) (found : t ≠ 0) :
    area.begin ≤ t ∧ t + W.roundSize align size - 1 ≤ area.last := by
  unfold searchRound at round
  cases sys : m.sysalloc.find area with
  | none =>
      rw [sys] at round
      cases round
      exact absurd rfl found
  | some r =>
      rw [sys] at round
      obtain ⟨intArea, isIntArea, round⟩ := bind_ok_iff.mp round
      have overlap := List.find?_some sys
      obtain ⟨other, same, begins, ends⟩ := Region.intersect_ok overlap
      cases isIntArea.symm.trans same
      obtain ⟨addr, free, round⟩ := bind_ok_iff.mp round
      split_ifs at round with got done
      · cases round
        have above := RegionList.find_free_above top (by omega) free found
        have below := (RegionList.find_free_placed free found).2
        omega
      · cases round
        exact absurd rfl found
      · obtain ⟨_, _, round⟩ := bind_ok_iff.mp round
        cases round

theorem search_round_again {m : Memory W} {size align : Nat} {area next : Region W}
    (round : m.searchRound size align area = .ok (.again next)) :
    area.begin ≤ next.begin ∧ next.last = area.last := by
  unfold searchRound at round
  cases sys : m.sysalloc.find area with
  | none =>
      rw [sys] at round
      cases round
  | some r =>
      rw [sys] at round
      obtain ⟨intArea, isIntArea, round⟩ := bind_ok_iff.mp round
      have overlap := List.find?_some sys
      obtain ⟨other, same, begins, ends⟩ := Region.intersect_ok overlap
      cases isIntArea.symm.trans same
      obtain ⟨addr, free, round⟩ := bind_ok_iff.mp round
      split_ifs at round with got done
      · cases round
      · cases round
      · obtain ⟨narrowed, isNarrowed, round⟩ := bind_ok_iff.mp round
        cases round
        obtain ⟨sameBegin, sameLast, _⟩ := Region.set_begin_ok.mp isNarrowed
        have ordered := intArea.ordered
        push Not at done
        omega

/-- A search of memory without entries at the top answers with memory inside
one RAM region, not below the minimum. -/
theorem find_free_ram_inside {m : Memory W} {size minAddr maxAddr align node t : Nat}
    (narrows : m.Narrows) (ramTop : BelowTop align m.ram.reg)
    (regionsTop : BelowTop align m.regions.reg)
    (returned : m.findFreeRam size minAddr maxAddr align node = .ok t) (found : t ≠ 0) :
    minAddr ≤ t ∧ ∃ rr ∈ m.ram.reg, rr.begin ≤ t ∧ t + W.roundSize align size - 1 ≤ rr.last := by
  unfold findFreeRam at returned
  have least : minAddr ≤ max minAddr W.bytes := le_max_left _ _
  generalize max minAddr W.bytes = minimum at returned least
  generalize m.ram.reg = rams at returned ramTop
  induction rams generalizing minimum with
  | nil =>
      cases returned
      exact absurd rfl found
  | cons rr rest ih =>
      have restTop : BelowTop align rest := fun r member => ramTop r (by simp [member])
      have later : ∀ minimum, minAddr ≤ minimum →
          m.findFreeRamFrom size maxAddr align node minimum rest = .ok t →
          minAddr ≤ t ∧ ∃ other ∈ rr :: rest, other.begin ≤ t ∧
            t + W.roundSize align size - 1 ≤ other.last := by
        intro minimum least returned
        obtain ⟨above, other, member, inside⟩ := ih minimum least returned restTop
        exact ⟨above, other, by simp [member], inside⟩
      rw [findFreeRamFrom] at returned
      split_ifs at returned with low high
      · exact later _ least returned
      · exact later _ least returned
      · obtain ⟨whole, isWhole, returned⟩ := bind_ok_iff.mp returned
        obtain ⟨wholeBegin, wholeLast, _⟩ := Region.make_ok.mp isWhole
        cases validated : m.validated whole node with
        | none =>
            rw [validated] at returned
            exact later _ (by omega) returned
        | some area =>
            rw [validated] at returned
            obtain ⟨addr, searched, returned⟩ := bind_ok_iff.mp returned
            split_ifs at returned with hit
            · cases returned
              have inWhole := narrows whole node area validated
              have rrTop := ramTop rr (by simp)
              obtain ⟨last, ⟨above, same⟩, round⟩ := loop_returns _ _
                (fun other : Region W => area.begin ≤ other.begin ∧ other.last = area.last)
                (fun one next inv again => by
                  have := search_round_again again
                  omega) ⟨le_rfl, rfl⟩ searched
              have inside := search_round_inside regionsTop (by omega) round found
              exact ⟨by omega, rr, by simp, by omega, by omega⟩
            · exact later _ (by omega) returned

end Memory

end L4Bootstrap
