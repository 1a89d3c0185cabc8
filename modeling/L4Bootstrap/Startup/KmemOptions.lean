import L4Bootstrap.KmemArea
import L4Bootstrap.Startup.MemoryOptions

/-!
# Kernel memory from the command line

`setup_kmem_areas` of `startup.cc`. Each `-kmemarea=` is cut down to RAM, and the gaps
that the regions leave there become entries for the kernel.
-/

namespace L4Bootstrap

open MachineWord CheckedLoop

set_option autoImplicit false

variable {W : Wordsize}

/-- `-kmemarea=` -/
def kmemOption : List UInt8 := [0x2d, 0x6b, 0x6d, 0x65, 0x6d, 0x61, 0x72, 0x65, 0x61, 0x3d]

/-- `this_reg_in_ram` and `this_reg_added`, with the regions. -/
structure ThisKmem (W : Wordsize) where
  inRam : Bool
  added : Bool
  regions : RegionList W

/-- One entry of RAM in the inner loop. -/
def kmemOnRam (fuel : Nat) (rKmem : Region W) (state : ThisKmem W) (rRam : Region W) :
    Checked (ThisKmem W) :=
  if rKmem.overlaps rRam then do
    let area ← rKmem.intersect rRam
    let (added, regions) ← addKmemAreaOnRam fuel state.regions area
    .ok ⟨true, state.added || added, regions⟩
  else .ok state

/-- The body for one parameter. The flag is `added`. -/
def kmemBody (W : Wordsize) (fuel : Nat) (ram : RegionList W) (s : List UInt8) (argLen : Nat)
    (state : Bool × RegionList W) : Checked (Bool × RegionList W) := do
  let (sz, offset) ← parseOrPanic W "-kmemarea=" s argLen
  let rKmem ← Region.startSize offset sz {}
  let this ← ram.reg.foldlM (kmemOnRam fuel rKmem) ⟨false, false, state.2⟩
  if !this.inRam || !this.added then .ok (state.1, this.regions)
  else .ok (true, this.regions)

def setupKmemAreas (W : Wordsize) (fuel : Nat) (cmdline : Option (List UInt8))
    (ram regions : RegionList W) : Checked (Bool × RegionList W) :=
  forEachArg fuel kmemOption (kmemBody W fuel ram) cmdline (false, regions)

theorem kmem_option_plain : PlainOption kmemOption := ⟨by decide, by decide +kernel⟩

/-! ## Gaps of a list that has grown elsewhere -/

/-- Without an entry outside of the area the gaps are the same. -/
theorem gaps_erase {low high : Nat} {front back : List (Region W)} {e : Region W}
    (ascending : Ascending (front ++ e :: back)) (outside : e.last < low ∨ high < e.begin) :
    gaps low high (front ++ e :: back) = gaps low high (front ++ back) := by
  induction front generalizing low with
  | nil => rw [List.nil_append, gaps, if_pos outside, List.nil_append]
  | cons r rest ih =>
      obtain ⟨behind, restAscending⟩ := ascending_cons.mp ascending
      have below := behind e (by simp)
      have eOrdered := e.ordered
      rw [List.cons_append, List.cons_append, gaps, gaps]
      split_ifs with apart short
      · exact ih restAscending outside
      · rfl
      · rfl
      · rw [ih restAscending (by omega)]
      · rw [ih restAscending (by omega)]

/-- A list that has got entries outside of the area. -/
theorem gaps_of_perm {low high : Nat} {entries reg result : List (Region W)}
    (ascending : Ascending reg) (resultAscending : Ascending result)
    (perm : result.Perm (entries ++ reg))
    (outside : ∀ e ∈ entries, e.last < low ∨ high < e.begin) :
    gaps low high result = gaps low high reg := by
  induction entries generalizing result with
  | nil =>
      have same : result = reg := by
        apply perm.eq_of_pairwise _ resultAscending ascending
        intro r o _ _ first second
        have := r.ordered
        have := o.ordered
        omega
      rw [same]
  | cons e entries ih =>
      have member : e ∈ result := perm.mem_iff.mpr (by simp)
      obtain ⟨front, back, rfl⟩ := List.append_of_mem member
      rw [gaps_erase resultAscending (outside e (by simp))]
      apply ih
      · exact resultAscending.sublist ((List.sublist_cons_self e back).append_left front)
      · exact (List.perm_cons e).mp (List.perm_middle.symm.trans perm)
      · exact fun o inEntries => outside o (by simp [inEntries])

/-! ## Limits and the running size -/

structure SameLimits (before after : RegionList W) : Prop where
  capacity : after.max = before.max
  address : after.addressLimit = before.addressLimit
  combined : after.maxCombinedSize = before.maxCombinedSize

theorem SameLimits.trans {first second third : RegionList W} (left : SameLimits first second)
    (right : SameLimits second third) : SameLimits first third :=
  ⟨right.capacity.trans left.capacity, right.address.trans left.address,
    right.combined.trans left.combined⟩

theorem optimize_same_limits {l after : RegionList W} (made : l.optimize = .ok after) :
    SameLimits l after := by
  unfold RegionList.optimize at made
  cases entries : l.reg with
  | nil =>
      rw [entries] at made
      cases made
      exact ⟨rfl, rfl, rfl⟩
  | cons c rest =>
      rw [entries] at made
      obtain ⟨reg, _, made⟩ := bind_ok_iff.mp made
      cases made
      exact ⟨rfl, rfl, rfl⟩

theorem add_same_limits {l after : RegionList W} {r : Region W} (added : l.add r = .ok after) :
    SameLimits l after := by
  rcases RegionList.add_part added with rfl | ⟨part, _, _, _, inserted⟩
  · exact ⟨rfl, rfl, rfl⟩
  · unfold RegionList.addNolimitcheck at inserted
    split_ifs at inserted with single
    · cases inserted
      exact ⟨rfl, rfl, rfl⟩
    · obtain ⟨roomy, madeRoom, inserted⟩ := bind_ok_iff.mp inserted
      obtain ⟨reg, _, inserted⟩ := bind_ok_iff.mp inserted
      cases inserted
      rcases RegionList.make_room_cases madeRoom with rfl | optimized
      · exact ⟨rfl, rfl, rfl⟩
      · have same := optimize_same_limits optimized
        exact ⟨same.capacity, same.address, same.combined⟩

/-- The walks through the list leave its limits alone. -/
theorem kmem_loop_same_limits {fuel : Nat} {s : KmemState W} {answer : Bool}
    {result : RegionList W}
    (returned : loop kmemRound .diverges fuel s = .ok (answer, result)) :
    SameLimits s.regions result := by
  have step : ∀ state next, SameLimits s.regions state.regions →
      kmemRound state = .ok (.again next) → SameLimits s.regions next.regions := by
    intro state next same round
    rw [kmemRound] at round
    obtain ⟨scan, _, round⟩ := bind_ok_iff.mp round
    cases scan with
    | before rAdd gap =>
        obtain ⟨regions, added, round⟩ := bind_ok_iff.mp round
        cases round
        exact same.trans (add_same_limits added)
    | covered => cases round
    | remaining rAdd =>
        obtain ⟨rest, _, round⟩ := bind_ok_iff.mp round
        obtain ⟨regions, _, round⟩ := bind_ok_iff.mp round
        cases round
  obtain ⟨state, same, round⟩ := loop_returns kmemRound .diverges
    (fun state => SameLimits s.regions state.regions) step ⟨rfl, rfl, rfl⟩ returned
  rw [kmemRound] at round
  obtain ⟨scan, _, round⟩ := bind_ok_iff.mp round
  cases scan with
  | before rAdd gap =>
      obtain ⟨regions, _, round⟩ := bind_ok_iff.mp round
      cases round
  | covered =>
      cases round
      exact same
  | remaining rAdd =>
      obtain ⟨rest, _, round⟩ := bind_ok_iff.mp round
      obtain ⟨regions, added, round⟩ := bind_ok_iff.mp round
      cases round
      exact same.trans (add_same_limits added)

def gapBytes (free : List (Nat × Nat)) : Nat := (free.map fun gap => gap.2 - gap.1 + 1).sum

theorem gap_bytes_cons {gap : Nat × Nat} {free : List (Nat × Nat)} :
    gapBytes (gap :: free) = gap.2 - gap.1 + 1 + gapBytes free := by
  simp [gapBytes]

/-- Gaps of two bytes or more are kept while the running size is below its maximum. -/
theorem gaps_kept_of_total {free : List (Nat × Nat)} {used : Nat}
    (two : ∀ gap ∈ free, gap.1 < gap.2) (fits : used + gapBytes free < W.maxWord) :
    GapsKept W used free := by
  induction free generalizing used with
  | nil => trivial
  | cons gap free ih =>
      rw [gap_bytes_cons] at fits
      have maxWord : W.maxWord = W.modulus - 1 := rfl
      refine ⟨two gap (by simp), by omega, ?_⟩
      rw [W.add_of_lt (by omega)]
      exact ih (fun other member => two other (by simp [member])) (by omega)

/-- What the walks add to the running size. -/
theorem kmem_loop_counts {free : List (Nat × Nat)} {s : KmemState W} (ready : RoomForGaps s free)
    (two : ∀ gap ∈ free, gap.1 < gap.2) (fits : s.regions.combinedSize + gapBytes free < W.maxWord)
    {fuel : Nat} {answer : Bool} {result : RegionList W}
    (returned : loop kmemRound .diverges fuel s = .ok (answer, result)) :
    result.combinedSize = s.regions.combinedSize + gapBytes free := by
  induction free generalizing s fuel with
  | nil =>
      have noGap := ready.isGaps
      have round : kmemRound s = .ok (.leave (s.added, s.regions)) := by
        rcases @scan_kmem_spec W s.rAdd _ ready.ascending with
          ⟨found, _⟩ | ⟨left, _, _, isGap, _⟩ | ⟨left, gap, _, before⟩
        · rw [kmemRound, found, ok_bind]
        · rw [isGap] at noGap
          cases noGap
        · obtain ⟨_, _, _, _, _, _, _, isFirst⟩ := before.split
          rw [isFirst] at noGap
          cases noGap
      cases fuel with
      | zero => cases returned
      | succ fuel =>
          rw [loop, round] at returned
          cases returned
          rfl
  | cons first others ih =>
      have firstTwo := two first (by simp)
      rw [gap_bytes_cons] at fits ⊢
      have maxWord : W.maxWord = W.modulus - 1 := rfl
      cases fuel with
      | zero => cases returned
      | succ fuel =>
          rcases kmem_round_spec ready with
            ⟨lost, _⟩ | ⟨_, regions, entry, _, _, _, _, _, sum, ⟨rfl, round⟩ | ⟨left, round, _, _, next⟩⟩
          · exact absurd ⟨firstTwo, by omega⟩ lost
          · rw [loop, round] at returned
            cases returned
            rw [sum, W.add_of_lt (by omega)]
            rfl
          · rw [loop, round] at returned
            rw [W.add_of_lt (by omega)] at sum
            have later := ih next (fun gap member => two gap (by simp [member]))
              (by simp only [sum]; omega) returned
            simp only [sum] at later
            omega

/-! ## One area after the other -/

/-- The regions after some gaps have become entries. -/
structure Carving (before : RegionList W) (done : List (Nat × Nat)) (l : RegionList W) : Prop where
  ascending : Ascending l.reg
  limits : SameLimits before l
  entries : ∃ new, l.reg.Perm (new ++ before.reg) ∧ (∀ e ∈ new, e.attr = kmemAttr) ∧
    (new.map fun e => (e.begin, e.last)).Perm done
  counted : l.combinedSize = before.combinedSize + gapBytes done

/-- A list without limits. -/
structure Boundless (l : RegionList W) : Prop where
  ascending : Ascending l.reg
  address : l.addressLimit = W.maxWord
  combined : l.maxCombinedSize = W.maxWord

theorem gap_bytes_append {free more : List (Nat × Nat)} :
    gapBytes (free ++ more) = gapBytes free + gapBytes more := by
  simp [gapBytes]

/-- An area outside of the gaps that are filled already. -/
theorem Carving.area {before l : RegionList W} {done : List (Nat × Nat)} {area : Region W}
    (carving : Carving before done l) (boundless : Boundless before)
    (outside : ∀ gap ∈ done, gap.2 < area.begin ∨ area.last < gap.1)
    (two : ∀ gap ∈ gaps area.begin area.last before.reg, gap.1 < gap.2)
    (room : before.reg.length + (done ++ gaps area.begin area.last before.reg).length ≤ before.max)
    (fits : before.combinedSize + gapBytes (done ++ gaps area.begin area.last before.reg) <
      W.maxWord) :
    ∃ enough result, (∀ fuel, enough ≤ fuel → addKmemAreaOnRam fuel l area =
        .ok (!(gaps area.begin area.last before.reg).isEmpty, result)) ∧
      Carving before (done ++ gaps area.begin area.last before.reg) result := by
  obtain ⟨new, perm, isKmem, isDone⟩ := carving.entries
  have same : gaps area.begin area.last l.reg = gaps area.begin area.last before.reg := by
    apply gaps_of_perm boundless.ascending carving.ascending perm
    intro e member
    exact outside (e.begin, e.last) (isDone.mem_iff.mp (List.mem_map.mpr ⟨e, member, rfl⟩))
  have newLength : new.length = done.length := by
    rw [← isDone.length_eq, List.length_map]
  have ready : RoomForGaps ⟨l, area, false⟩ (gaps area.begin area.last before.reg) := by
    refine ⟨carving.ascending, carving.limits.address.trans boundless.address,
      carving.limits.combined.trans boundless.combined, same, ?_⟩
    rw [List.length_append] at room
    simp only [perm.length_eq, List.length_append, carving.limits.capacity]
    omega
  rw [gap_bytes_append] at fits
  have total : l.combinedSize + gapBytes (gaps area.begin area.last before.reg) < W.maxWord := by
    rw [carving.counted]
    omega
  obtain ⟨enough, result, entries, returned, morePerm, ascending, attrs, isGaps⟩ :=
    kmem_loop_fills ready (gaps_kept_of_total two total)
  refine ⟨enough, result, fun fuel le => ?_, ascending,
    carving.limits.trans (kmem_loop_same_limits returned), ?_, ?_⟩
  · exact loop_more_fuel returned le
  · refine ⟨entries ++ new, ?_, ?_, ?_⟩
    · rw [List.append_assoc]
      exact morePerm.trans (perm.append_left entries)
    · intro e member
      rcases List.mem_append.mp member with inEntries | inNew
      · exact attrs e inEntries
      · exact isKmem e inNew
    · rw [List.map_append, isGaps]
      exact List.perm_append_comm.trans (isDone.append_right _)
  · rw [kmem_loop_counts ready two total returned, carving.counted, gap_bytes_append]
    omega

/-- The part of an area in an entry of RAM, with first and last byte. -/
def ramPart (layout : Nat × Nat) (r : Region W) : List (Nat × Nat) :=
  if layout.2 ≤ r.last ∧ r.begin < layout.2 + layout.1 then
    [(max layout.2 r.begin, min (layout.2 + layout.1 - 1) r.last)]
  else []

def ramParts (ram : List (Region W)) (layout : Nat × Nat) : List (Nat × Nat) :=
  ram.flatMap (ramPart layout)

/-- The gaps that the entries leave in some areas. -/
def gapsOf (reg : List (Region W)) (parts : List (Nat × Nat)) : List (Nat × Nat) :=
  parts.flatMap fun part => gaps part.1 part.2 reg

def PartsApart (part other : Nat × Nat) : Prop := part.2 < other.1 ∨ other.2 < part.1

/-- What all gaps need: two bytes each, store entries and running size. -/
structure RoomForAll (l : RegionList W) (free : List (Nat × Nat)) : Prop where
  two : ∀ gap ∈ free, gap.1 < gap.2
  room : l.reg.length + free.length ≤ l.max
  fits : l.combinedSize + gapBytes free < W.maxWord

theorem RoomForAll.front {l : RegionList W} {free more : List (Nat × Nat)}
    (room : RoomForAll l (free ++ more)) : RoomForAll l free := by
  obtain ⟨two, length, fits⟩ := room
  rw [List.length_append] at length
  rw [gap_bytes_append] at fits
  exact ⟨fun gap member => two gap (by simp [member]), by omega, by omega⟩

/-- Gaps lie inside of their areas. -/
theorem gaps_of_inside {reg : List (Region W)} {parts : List (Nat × Nat)} {gap : Nat × Nat}
    (ordered : ∀ part ∈ parts, part.1 ≤ part.2) (member : gap ∈ gapsOf reg parts) :
    ∃ part ∈ parts, part.1 ≤ gap.1 ∧ gap.2 ≤ part.2 := by
  obtain ⟨part, isPart, inGaps⟩ := List.mem_flatMap.mp member
  have := gaps_ordered (ordered part isPart) inGaps
  exact ⟨part, isPart, by omega, by omega⟩

/-- The part of one entry lies in the area and in the entry. -/
theorem ram_part_inside {r : Region W} {layout part : Nat × Nat} (pos : 0 < layout.1)
    (member : part ∈ ramPart layout r) :
    part.1 ≤ part.2 ∧ layout.2 ≤ part.1 ∧ part.2 < layout.2 + layout.1 ∧
      r.begin ≤ part.1 ∧ part.2 ≤ r.last := by
  unfold ramPart at member
  split_ifs at member with overlap
  · rw [List.mem_singleton] at member
    have ordered := r.ordered
    rw [member]
    simp only
    omega
  · cases member

theorem ram_parts_inside {ram : List (Region W)} {layout part : Nat × Nat} (pos : 0 < layout.1)
    (member : part ∈ ramParts ram layout) :
    part.1 ≤ part.2 ∧ layout.2 ≤ part.1 ∧ part.2 < layout.2 + layout.1 ∧
      ∃ r ∈ ram, r.begin ≤ part.1 ∧ part.2 ≤ r.last := by
  obtain ⟨r, inRam, isPart⟩ := List.mem_flatMap.mp member
  obtain ⟨ordered, low, high, inside⟩ := ram_part_inside pos isPart
  exact ⟨ordered, low, high, r, inRam, inside⟩

theorem ram_parts_cons {r : Region W} {rest : List (Region W)} {layout : Nat × Nat} :
    ramParts (r :: rest) layout = ramPart layout r ++ ramParts rest layout := List.flatMap_cons

theorem gaps_of_append {reg : List (Region W)} {parts more : List (Nat × Nat)} :
    gapsOf reg (parts ++ more) = gapsOf reg parts ++ gapsOf reg more := List.flatMap_append

theorem not_empty_append {α : Type} {left right : List α} :
    (!(left ++ right).isEmpty) = (!left.isEmpty || !right.isEmpty) := by
  cases left <;> simp

theorem ram_parts_apart {ram : List (Region W)} {layout : Nat × Nat} (pos : 0 < layout.1)
    (ascending : Ascending ram) : (ramParts ram layout).Pairwise PartsApart := by
  induction ram with
  | nil => exact List.Pairwise.nil
  | cons r rest ih =>
      obtain ⟨behind, restAscending⟩ := ascending_cons.mp ascending
      rw [ram_parts_cons, List.pairwise_append]
      refine ⟨?_, ih restAscending, ?_⟩
      · unfold ramPart
        split_ifs
        · exact List.pairwise_singleton _ _
        · exact List.Pairwise.nil
      · intro part inFirst other inRest
        have first := (ram_part_inside pos inFirst).2.2.2.2
        obtain ⟨_, _, _, o, isRam, begins, _⟩ := ram_parts_inside pos inRest
        have := behind o isRam
        left
        omega

/-- The bytes of all parts. -/
theorem ram_parts_has {ram : List (Region W)} {layout : Nat × Nat} (pos : 0 < layout.1) (p : Nat) :
    (∃ part ∈ ramParts ram layout, part.1 ≤ p ∧ p ≤ part.2) ↔ LayoutHas layout p ∧ Covered ram p := by
  rw [covered_iff]
  unfold LayoutHas Region.Has
  constructor
  · rintro ⟨part, member, low, high⟩
    obtain ⟨_, begins, ends, r, inRam, _⟩ := ram_parts_inside pos member
    exact ⟨⟨by omega, by omega⟩, r, inRam, by omega, by omega⟩
  · rintro ⟨⟨low, high⟩, r, inRam, begins, ends⟩
    refine ⟨(max layout.2 r.begin, min (layout.2 + layout.1 - 1) r.last), ?_, ?_, ?_⟩
    · apply List.mem_flatMap.mpr
      refine ⟨r, inRam, ?_⟩
      rw [ramPart, if_pos ⟨by omega, by omega⟩]
      exact List.mem_singleton_self _
    · simp only
      omega
    · simp only
      omega

/-- One entry of RAM. -/
theorem kmem_on_ram_carves {before l : RegionList W} {done : List (Nat × Nat)}
    {rKmem r : Region W} {layout : Nat × Nat} (carving : Carving before done l)
    (boundless : Boundless before) (begins : rKmem.begin = layout.2)
    (ends : rKmem.last + 1 = layout.2 + layout.1)
    (outside : ∀ gap ∈ done, ∀ part ∈ ramPart layout r, PartsApart gap part)
    (room : RoomForAll before (done ++ gapsOf before.reg (ramPart layout r)))
    (inRam added : Bool) :
    ∃ enough result, (∀ fuel, enough ≤ fuel → kmemOnRam fuel rKmem ⟨inRam, added, l⟩ r =
        .ok ⟨inRam || !(ramPart layout r).isEmpty,
          added || !(gapsOf before.reg (ramPart layout r)).isEmpty, result⟩) ∧
      Carving before (done ++ gapsOf before.reg (ramPart layout r)) result := by
  have ordered := rKmem.ordered
  have overlap : rKmem.overlaps r = true ↔ layout.2 ≤ r.last ∧ r.begin < layout.2 + layout.1 := by
    rw [Region.overlaps_iff]
    omega
  by_cases meets : layout.2 ≤ r.last ∧ r.begin < layout.2 + layout.1
  · obtain ⟨area, made, areaBegin, areaLast⟩ := Region.intersect_ok (overlap.mpr meets)
    have isPart : ramPart layout r = [(area.begin, area.last)] := by
      have last : layout.2 + layout.1 - 1 = rKmem.last := by omega
      rw [ramPart, if_pos meets, areaBegin, areaLast, begins, last]
    have isGaps : gapsOf before.reg (ramPart layout r) = gaps area.begin area.last before.reg := by
      rw [isPart, gapsOf, List.flatMap_singleton]
    rw [isGaps] at room ⊢
    obtain ⟨enough, result, fills, next⟩ := carving.area boundless
      (fun gap member => outside gap member (area.begin, area.last) (by simp [isPart]))
      (fun gap member => room.two gap (by simp [member])) room.room room.fits
    refine ⟨enough, result, fun fuel le => ?_, next⟩
    rw [kmemOnRam, if_pos (overlap.mpr meets), made, ok_bind, fills fuel le, ok_bind, isPart]
    simp
  · refine ⟨0, l, fun fuel _ => ?_, ?_⟩
    · rw [kmemOnRam, if_neg (mt overlap.mp meets), ramPart, if_neg meets]
      simp [gapsOf]
    · rw [ramPart, if_neg meets]
      simpa [gapsOf] using carving

/-- All entries of RAM for one parameter. -/
theorem ram_fold_carves {before l : RegionList W} {done : List (Nat × Nat)} {ram : List (Region W)}
    {rKmem : Region W} {layout : Nat × Nat} (carving : Carving before done l)
    (boundless : Boundless before) (begins : rKmem.begin = layout.2)
    (ends : rKmem.last + 1 = layout.2 + layout.1) (ascending : Ascending ram)
    (outside : ∀ gap ∈ done, ∀ part ∈ ramParts ram layout, PartsApart gap part)
    (room : RoomForAll before (done ++ gapsOf before.reg (ramParts ram layout)))
    (inRam added : Bool) :
    ∃ enough result, (∀ fuel, enough ≤ fuel →
        ram.foldlM (kmemOnRam fuel rKmem) ⟨inRam, added, l⟩ =
          .ok ⟨inRam || !(ramParts ram layout).isEmpty,
            added || !(gapsOf before.reg (ramParts ram layout)).isEmpty, result⟩) ∧
      Carving before (done ++ gapsOf before.reg (ramParts ram layout)) result := by
  have rOrdered := rKmem.ordered
  have pos : 0 < layout.1 := by omega
  induction ram generalizing l done inRam added with
  | nil =>
      refine ⟨0, l, fun fuel _ => ?_, ?_⟩
      · simp only [ramParts, gapsOf, List.flatMap_nil, List.isEmpty_nil, Bool.not_true, Bool.or_false]
        rfl
      · simpa [ramParts, gapsOf] using carving
  | cons r rest ih =>
      have apart : (ramParts (r :: rest) layout).Pairwise PartsApart := ram_parts_apart pos ascending
      obtain ⟨_, restAscending⟩ := ascending_cons.mp ascending
      rw [ram_parts_cons] at outside room apart ⊢
      rw [gaps_of_append, ← List.append_assoc] at room ⊢
      rw [List.pairwise_append] at apart
      obtain ⟨first, between, step, next⟩ := kmem_on_ram_carves carving boundless begins ends
        (fun gap member part inPart => outside gap member part (by simp [inPart])) room.front
        inRam added
      have outsideRest : ∀ gap ∈ done ++ gapsOf before.reg (ramPart layout r),
          ∀ part ∈ ramParts rest layout, PartsApart gap part := by
        intro gap member part inRest
        rcases List.mem_append.mp member with old | new
        · exact outside gap old part (by simp [inRest])
        · have ordered : ∀ part ∈ ramPart layout r, part.1 ≤ part.2 := fun part inPart =>
            (ram_part_inside pos inPart).1
          obtain ⟨own, isOwn, low, high⟩ := gaps_of_inside ordered new
          have := apart.2.2 own isOwn part inRest
          unfold PartsApart at this ⊢
          omega
      obtain ⟨others, result, steps, last⟩ := ih next restAscending outsideRest room
        (inRam || !(ramPart layout r).isEmpty)
        (added || !(gapsOf before.reg (ramPart layout r)).isEmpty)
      refine ⟨max first others, result, fun fuel le => ?_, last⟩
      rw [List.foldlM_cons, step fuel (by omega), ok_bind, steps fuel (by omega)]
      simp only [Bool.or_assoc, not_empty_append]

/-! ## One parameter after the other -/

/-- The parts of all areas in RAM. -/
def allParts (ram : List (Region W)) (layouts : List (Nat × Nat)) : List (Nat × Nat) :=
  layouts.flatMap (ramParts ram)

/-- The body for one parameter. -/
theorem kmem_body_carves {before l ram : RegionList W} {done : List (Nat × Nat)}
    {layout : Nat × Nat} {s : List UInt8} (carving : Carving before done l)
    (boundless : Boundless before) (parsed : parseMemLayout W s = some layout)
    (bounded : layout.2 + layout.1 ≤ W.modulus) (ascending : Ascending ram.reg)
    (outside : ∀ gap ∈ done, ∀ part ∈ ramParts ram.reg layout, PartsApart gap part)
    (room : RoomForAll before (done ++ gapsOf before.reg (ramParts ram.reg layout)))
    (argLen : Nat) (added : Bool) :
    ∃ enough result, (∀ fuel, enough ≤ fuel → kmemBody W fuel ram s argLen (added, l) =
        .ok (added || !(gapsOf before.reg (ramParts ram.reg layout)).isEmpty, result)) ∧
      Carving before (done ++ gapsOf before.reg (ramParts ram.reg layout)) result := by
  obtain ⟨pos, _, _⟩ := parse_mem_layout_word parsed
  obtain ⟨rKmem, made, begins, ends, _⟩ := Region.start_size_of_fits (W := W) {} pos bounded
  obtain ⟨enough, result, folds, next⟩ := ram_fold_carves carving boundless begins
    (by rw [ends]; omega) ascending outside room false false
  refine ⟨enough, result, fun fuel le => ?_, next⟩
  rw [kmemBody, parse_or_panic_ok.mpr parsed, ok_bind]
  simp only [made, ok_bind, folds fuel le, Bool.false_or, Bool.not_not]
  cases found : gapsOf before.reg (ramParts ram.reg layout) with
  | nil => simp
  | cons gap free =>
      have someParts : (ramParts ram.reg layout).isEmpty = false := by
        cases parts : ramParts ram.reg layout with
        | nil =>
            rw [parts] at found
            cases found
        | cons part rest => rfl
      simp [someParts]

theorem parsed_pos {texts : List (List UInt8)} {layouts : List (Nat × Nat)}
    (parsed : Parsed W texts layouts) : ∀ layout ∈ layouts, 0 < layout.1 := by
  induction parsed with
  | nil => simp
  | cons first _ ih =>
      intro layout member
      rcases List.mem_cons.mp member with rfl | inRest
      · exact (parse_mem_layout_word first).1
      · exact ih layout inRest

/-- All parameters from one on. -/
theorem kmem_fold_carves {before l ram : RegionList W} {done layouts : List (Nat × Nat)}
    {texts : List (List UInt8)} (parsed : Parsed W texts layouts)
    (carving : Carving before done l) (boundless : Boundless before)
    (bounded : ∀ layout ∈ layouts, layout.2 + layout.1 ≤ W.modulus)
    (apart : layouts.Pairwise LayoutsApart) (ascending : Ascending ram.reg)
    (outside : ∀ gap ∈ done, ∀ part ∈ allParts ram.reg layouts, PartsApart gap part)
    (room : RoomForAll before (done ++ gapsOf before.reg (allParts ram.reg layouts)))
    (added : Bool) :
    ∃ enough result, (∀ fuel, enough ≤ fuel →
        texts.foldlM (fun state s => kmemBody W fuel ram s (argLen s) state) (added, l) =
          .ok (added || !(gapsOf before.reg (allParts ram.reg layouts)).isEmpty, result)) ∧
      Carving before (done ++ gapsOf before.reg (allParts ram.reg layouts)) result := by
  induction parsed generalizing l done added with
  | nil =>
      refine ⟨0, l, fun fuel _ => ?_, ?_⟩
      · rw [allParts, List.flatMap_nil, gapsOf, List.flatMap_nil]
        simp only [List.isEmpty_nil, Bool.not_true, Bool.or_false]
        rfl
      · simpa [allParts, gapsOf] using carving
  | @cons s layout texts layouts first others ih =>
      obtain ⟨pos, _, _⟩ := parse_mem_layout_word first
      obtain ⟨fromRest, restApart⟩ := List.pairwise_cons.mp apart
      have split : allParts ram.reg (layout :: layouts) =
          ramParts ram.reg layout ++ allParts ram.reg layouts := List.flatMap_cons
      rw [split] at outside room ⊢
      rw [gaps_of_append, ← List.append_assoc] at room ⊢
      obtain ⟨enough, between, step, next⟩ := kmem_body_carves carving boundless first
        (bounded layout (by simp)) ascending
        (fun gap member part inPart => outside gap member part (by simp [inPart])) room.front
        (argLen s) added
      have outsideRest : ∀ gap ∈ done ++ gapsOf before.reg (ramParts ram.reg layout),
          ∀ part ∈ allParts ram.reg layouts, PartsApart gap part := by
        intro gap member part inRest
        rcases List.mem_append.mp member with old | new
        · exact outside gap old part (by simp [inRest])
        · obtain ⟨own, isOwn, low, high⟩ := gaps_of_inside
            (fun part inPart => (ram_parts_inside pos inPart).1) new
          obtain ⟨_, ownLow, ownHigh, _⟩ := ram_parts_inside pos isOwn
          obtain ⟨other, isOther, isPart⟩ := List.mem_flatMap.mp inRest
          have otherPos := parsed_pos others other isOther
          obtain ⟨_, partLow, partHigh, _⟩ := ram_parts_inside otherPos isPart
          have := fromRest other isOther
          unfold LayoutsApart at this
          unfold PartsApart
          omega
      obtain ⟨more, result, steps, last⟩ := ih next (fun other member => bounded other (by simp [member]))
        restApart outsideRest room (added || !(gapsOf before.reg (ramParts ram.reg layout)).isEmpty)
      refine ⟨max enough more, result, fun fuel le => ?_, last⟩
      rw [List.foldlM_cons, step fuel (by omega), ok_bind, steps fuel (by omega)]
      simp only [Bool.or_assoc, not_empty_append]

/-- The bytes of the gaps that the regions leave in the areas. -/
theorem gaps_of_has {reg : List (Region W)} {parts : List (Nat × Nat)} (ascending : Ascending reg)
    (ordered : ∀ part ∈ parts, part.1 ≤ part.2) (p : Nat) :
    (∃ gap ∈ gapsOf reg parts, gap.1 ≤ p ∧ p ≤ gap.2) ↔
      (∃ part ∈ parts, part.1 ≤ p ∧ p ≤ part.2) ∧ ¬ Covered reg p := by
  constructor
  · rintro ⟨gap, member, inside⟩
    obtain ⟨part, isPart, inGaps⟩ := List.mem_flatMap.mp member
    obtain ⟨low, high, free⟩ := (gaps_spec ascending (ordered part isPart) p).mp ⟨gap, inGaps, inside⟩
    exact ⟨⟨part, isPart, low, high⟩, free⟩
  · rintro ⟨⟨part, isPart, low, high⟩, free⟩
    obtain ⟨gap, inGaps, inside⟩ := (gaps_spec ascending (ordered part isPart) p).mpr ⟨low, high, free⟩
    exact ⟨gap, List.mem_flatMap.mpr ⟨part, isPart, inGaps⟩, inside⟩

/-- A byte that is asked for and RAM. -/
def KmemWanted (ram : List (Region W)) (layouts : List (Nat × Nat)) (p : Nat) : Prop :=
  Covered ram p ∧ ∃ layout ∈ layouts, LayoutHas layout p

theorem all_parts_has {ram : List (Region W)} {layouts : List (Nat × Nat)}
    (pos : ∀ layout ∈ layouts, 0 < layout.1) (p : Nat) :
    (∃ part ∈ allParts ram layouts, part.1 ≤ p ∧ p ≤ part.2) ↔ KmemWanted ram layouts p := by
  constructor
  · rintro ⟨part, member, inside⟩
    obtain ⟨layout, isLayout, isPart⟩ := List.mem_flatMap.mp member
    obtain ⟨has, covered⟩ := (ram_parts_has (pos layout isLayout) p).mp ⟨part, isPart, inside⟩
    exact ⟨covered, layout, isLayout, has⟩
  · rintro ⟨covered, layout, isLayout, has⟩
    obtain ⟨part, isPart, inside⟩ := (ram_parts_has (pos layout isLayout) p).mpr ⟨has, covered⟩
    exact ⟨part, List.mem_flatMap.mpr ⟨layout, isLayout, isPart⟩, inside⟩

theorem all_parts_ordered {ram : List (Region W)} {layouts : List (Nat × Nat)}
    (pos : ∀ layout ∈ layouts, 0 < layout.1) : ∀ part ∈ allParts ram layouts, part.1 ≤ part.2 := by
  intro part member
  obtain ⟨layout, isLayout, isPart⟩ := List.mem_flatMap.mp member
  exact (ram_parts_inside (pos layout isLayout) isPart).1

/-- What the options lead to: all old regions stay, new ones are kernel memory and overlap
nothing, and exactly the bytes asked for that are RAM are taken in addition. -/
structure KmemAreas (ram regions : List (Region W)) (layouts : List (Nat × Nat)) (answer : Bool)
    (result : List (Region W)) : Prop where
  ascending : Ascending result
  entries : ∃ new, result.Perm (new ++ regions) ∧ ∀ e ∈ new, e.attr = kmemAttr
  covered : ∀ p, Covered result p ↔ Covered regions p ∨ KmemWanted ram layouts p
  answer : answer = true ↔ ∃ p, KmemWanted ram layouts p ∧ ¬ Covered regions p

/-- `-kmemarea=12k@4k` -/
def oneKmemOption : List UInt8 := kmemOption ++ [0x31, 0x32, 0x6b, 0x40, 0x34, 0x6b]

def threePages : RegionList .w64 :=
  ⟨[.fixed 0 0x2fff ramAttr (.refl true)], 32, Wordsize.w64.maxWord, Wordsize.w64.maxWord, 0x3000⟩

def halfPage : RegionList .w64 :=
  ⟨[.fixed 0x1800 0x1fff {} (.refl true)], 300, Wordsize.w64.maxWord, Wordsize.w64.maxWord, 0x800⟩

end L4Bootstrap
