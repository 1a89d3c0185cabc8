import L4Bootstrap.ModuleMove
import L4Bootstrap.RegionOptimize

/-!
# The checks in front of a move

`_move_module` looks at the first byte of the destination before it moves the module, and
at the whole destination only afterwards, when it enters the region: a module whose first
byte has a free place overwrites what stands behind it before the overlap is noticed.
-/

namespace L4Bootstrap

open MachineWord CheckedState ByteMemory

set_option autoImplicit false

variable {W : Wordsize}

/-- One RAM region holds the whole destination, and no entry has a byte of it. -/
structure Acceptable (m : Memory W) (dest size : Nat) : Prop where
  ram : ∃ rr ∈ m.ram.reg, rr.begin ≤ dest ∧ dest + size - 1 ≤ rr.last
  free : FreeIn m.regions.reg size dest

/-- The bytes of the module in their new place, and zeros in the rest of the last page. -/
structure MovedInto (before after : Bytes) (dest src size : Nat) : Prop where
  copied : ∀ k, k < size → after (dest + k) = before (src + k)
  padded : ∀ a, dest + size ≤ a → a < pageUp (dest + size) → after a = 0
  frame : ∀ a, a < dest ∨ pageUp (dest + size) ≤ a → after a = before a

/-- The region stands in the list, next to what the list covered before. -/
structure Entered (before after : RegionList W) (region : Region W) : Prop where
  member : region ∈ after.reg
  covers : ∀ keep p, CoveredBy before.reg keep p → CoveredBy after.reg keep p

/-- A move to an acceptable place happens as a whole, any other one stops without a trace. -/
structure AllOrNothing (s : Machine W) (dest src size : Nat) (attr : Attr) : Prop where
  rejects : ¬ Acceptable s.memory dest size →
    ∃ message, moveModuleTo dest src size attr s = .error (.panic message) s
  moves : Acceptable s.memory dest size →
    ∃ after region, moveModuleTo dest src size attr s = .ok () after ∧
      MovedInto s.bytes after.bytes dest src size ∧
      Region.startSize dest size attr = .ok region ∧
      Entered s.memory.regions after.memory.regions region

/-- The first byte of the destination is not in RAM, or an entry has it. -/
def FirstByteTaken (m : Memory W) (dest : Nat) : Prop :=
  (∀ rr ∈ m.ram.reg, ¬ (rr.begin ≤ dest ∧ dest ≤ rr.last)) ∨
    ∃ z ∈ m.regions.reg, z.begin ≤ dest ∧ dest ≤ z.last

/-- The list has room for the region, and neither drops nor clips it. -/
structure Takes (l : RegionList W) (region : Region W) : Prop where
  two : region.begin < region.last
  limits : l.InLimit region
  room : ∃ roomy, l.makeRoom = .ok roomy ∧ ∀ z ∈ roomy.reg, region.overlaps z = false

/-! ## The region list -/

section

variable {l : RegionList W} {region : Region W}

theorem takes_of_entered (formed : l.WellFormed) (free : ∀ z ∈ l.reg, region.overlaps z = false)
    (extent : region.last - region.begin + 1 < W.modulus) {after : RegionList W}
    (added : l.add region = .ok after) (member : region ∈ after.reg) : Takes l region := by
  have ordered := region.ordered
  have absent : region ∉ l.reg := by
    intro inList
    have apart := Region.overlaps_eq_false_iff.mp (free region inList)
    omega
  rcases RegionList.add_part added with rfl | ⟨part, begins, _, limits, added⟩
  · exact absurd member absent
  · rcases RegionList.add_nolimitcheck_cases added with rfl | ⟨two, roomy, madeRoom, inserted⟩
    · exact absurd member absent
    · obtain ⟨ascending, _⟩ := RegionList.make_room_well_formed formed madeRoom
      -- a merged entry begins where an old entry begins, so the region is the new entry
      have same : part = region := by
        rcases List.mem_cons.mp ((RegionList.insert_perm inserted).mem_iff.mp member) with
          isPart | inRoomy
        · exact isPart.symm
        · obtain ⟨x, inList, _, _, xBegins, _⟩ := RegionList.make_room_origin madeRoom inRoomy
          have apart := Region.overlaps_eq_false_iff.mp (free x inList)
          have := x.ordered
          omega
      subst same
      refine ⟨two, limits rfl extent, roomy, madeRoom, ?_⟩
      by_contra overlapping
      push Not at overlapping
      obtain ⟨z, inRoomy, overlap⟩ := overlapping
      rw [RegionList.insert_overlap ascending inRoomy (by simpa using overlap)] at inserted
      cases inserted

theorem entered_of_takes (formed : l.WellFormed) (takes : Takes l region) :
    ∃ after, l.add region = .ok after ∧ Entered l after region := by
  obtain ⟨roomy, madeRoom, free⟩ := takes.room
  obtain ⟨ascending, _⟩ := RegionList.make_room_well_formed formed madeRoom
  have order := RegionList.ascending_merge_order formed.ascending
  have merged := (RegionList.make_room_merged order madeRoom).1
  obtain ⟨front, back, whole, inserted, _⟩ := RegionList.insert_disjoint ascending free
  have two := takes.two
  have adds : l.add region = .ok { roomy with
      reg := front ++ region :: back
      combinedSize := W.add roomy.combinedSize region.size } := by
    rw [RegionList.add_in_limit false takes.limits two, RegionList.addNolimitcheck,
      if_neg (by omega), madeRoom, CheckedLoop.ok_bind, inserted, CheckedLoop.ok_bind]
  refine ⟨_, adds, by simp, ?_⟩
  intro keep p covered
  apply (merged.covers keep p covered).of_mem
  rw [whole]
  intro r member
  simp only [List.mem_append, List.mem_cons] at member ⊢
  tauto

end

/-! ## The checks -/

section

variable {s : Machine W} {dest src size : Nat} {attr : Attr}

theorem of_address_extent (destWord : dest < W.modulus) :
    (Region.ofAddress dest : Region W).begin = dest ∧
      (Region.ofAddress dest : Region W).last = dest :=
  ⟨Nat.mod_eq_of_lt destWord, Nat.mod_eq_of_lt destWord⟩

/-- The two checks of the code. -/
theorem first_byte_taken_iff (destWord : dest < W.modulus) :
    FirstByteTaken s.memory dest ↔
      (s.memory.ram.containing (Region.ofAddress dest)).isNone = true ∨
        (s.memory.regions.find (Region.ofAddress dest)).isSome = true := by
  obtain ⟨begins, ends⟩ := of_address_extent (W := W) destWord
  apply or_congr
  · rw [RegionList.containing, Option.isNone_iff_eq_none, List.find?_eq_none]
    simp only [Region.contains_iff, begins, ends]
  · rw [RegionList.find, List.find?_isSome]
    simp only [Region.overlaps_iff, begins, ends, And.comm]

/-- A destination whose first byte is taken is refused, and nothing has happened. -/
theorem taken_stops (destWord : dest < W.modulus) (different : src ≠ dest)
    (taken : FirstByteTaken s.memory dest) :
    ∃ message, moveModuleTo dest src size attr s = .error (.panic message) s := by
  unfold moveModuleTo
  rw [if_neg different, get_bind]
  split_ifs with outside overlap
  · exact ⟨_, rfl⟩
  · exact ⟨_, rfl⟩
  · exact absurd ((first_byte_taken_iff destWord).mp taken) (by tauto)

/-- Behind the two checks the module is moved before its region is entered. -/
theorem free_moves (destWord : dest < W.modulus) (different : src ≠ dest)
    (free : ¬ FirstByteTaken s.memory dest) :
    moveModuleTo dest src size attr s =
      addRegion dest size attr { s with bytes := moveBytes W dest src size s.bytes } := by
  rw [first_byte_taken_iff destWord, not_or] at free
  unfold moveModuleTo
  rw [if_neg different, get_bind, if_neg free.1, if_neg free.2]
  rfl

/-- Entering the region leaves the bytes alone, whatever comes of it. -/
def finalBytes {α : Type} : EStateM.Result Stop (Machine W) α → Bytes
  | .ok _ after => after.bytes
  | .error _ after => after.bytes

theorem add_region_bytes (start : Nat) : finalBytes (addRegion start size attr s) = s.bytes := by
  change finalBytes (EStateM.bind (lift (Region.startSize start size attr)) _ s) = _
  unfold EStateM.bind lift
  cases (Region.startSize start size attr : Checked (Region W)) with
  | error failure => rfl
  | ok region =>
      change finalBytes (EStateM.bind (lift (s.memory.regions.add region)) _ s) = _
      unfold EStateM.bind lift
      cases s.memory.regions.add region with
      | error failure => rfl
      | ok regions => rfl

/-- A memory with zeros everywhere but at the destination loses its byte there. -/
theorem first_byte_moved (sizePos : 1 ≤ size) (different : src ≠ dest)
    {bytes : Bytes} (zero : ∀ a, a ≠ dest → bytes a = 0) :
    moveBytes W dest src size bytes dest = 0 := by
  have copied : memmove dest src size bytes dest = 0 := by
    have first : memmove dest src size bytes (dest + 0) = bytes (src + 0) :=
      memmove_inside sizePos
    rw [Nat.add_zero, Nat.add_zero] at first
    rw [first]
    exact zero src different
  unfold moveBytes memset
  split_ifs with padded
  · rfl
  · exact copied

theorem moved_into (fits : dest + size ≤ W.modulus) (bytes : Bytes) :
    MovedInto bytes (moveBytes W dest src size bytes) dest src size := by
  have rest := round_page_rest fits
  have up : dest + size ≤ pageUp (dest + size) := le_round_up pageShift _
  have moved : moveBytes W dest src size bytes =
      memset (dest + size) 0 (pageUp (dest + size) - (dest + size))
        (memmove dest src size bytes) := by
    unfold moveBytes
    simp only [Wordsize.add, rest]
    rcases Nat.lt_or_eq_of_le fits with below | top
    · rw [Nat.mod_eq_of_lt below]
    · -- the module ends with the address space, and nothing is left to pad
      have whole : pageUp (dest + size) = dest + size := by
        rw [top]
        exact round_up_of_dvd (W.pow_dvd_modulus (page_shift_le_bits W))
      rw [whole, Nat.sub_self, memset_zero, memset_zero]
  rw [moved]
  constructor
  · intro k inside
    rw [memset_outside (by omega), memmove_inside inside]
  · intro a above below
    rw [memset, if_pos (by omega)]
  · intro a outside
    rw [memset_outside (by omega), memmove_outside (by omega)]

/-- Moves to `dest` are all or nothing, for every contents of the memory, exactly if the
first byte of the destination decides: it is taken, or all of the destination is free and
the list takes the region. -/
theorem move_all_or_nothing_iff (formed : s.memory.regions.WellFormed)
    (destWord : dest < W.modulus) (sizePos : 1 ≤ size) (sizeWord : size < W.modulus)
    (different : src ≠ dest) :
    (∀ bytes, AllOrNothing { s with bytes := bytes } dest src size attr) ↔
      FirstByteTaken s.memory dest ∨
        Acceptable s.memory dest size ∧ ∃ region : Region W, region.begin = dest ∧
          region.last = dest + size - 1 ∧ region.attr = attr ∧ Takes s.memory.regions region := by
  constructor
  · intro contract
    by_cases taken : FirstByteTaken s.memory dest
    · exact .inl taken
    · right
      let marked : Machine W := { s with bytes := fun a => if a = dest then 1 else 0 }
      obtain ⟨rejects, moves⟩ := contract marked.bytes
      have ran : moveModuleTo dest src size attr marked = _ := free_moves destWord different taken
      by_cases acceptable : Acceptable s.memory dest size
      · refine ⟨acceptable, ?_⟩
        obtain ⟨after, region, returned, _, made, entered⟩ := moves acceptable
        rw [show moveModuleTo dest src size attr marked = _ from returned] at ran
        obtain ⟨other, regions, isOther, added, same⟩ := add_region_ok ran.symm
        rw [made] at isOther
        cases isOther
        obtain ⟨fits, begins, ends, sameAttr⟩ := Region.start_size_last made sizeWord
        have free : ∀ z ∈ s.memory.regions.reg, region.overlaps z = false := by
          intro z member
          have apart := acceptable.free z member
          rw [Region.overlaps_eq_false_iff]
          omega
        rw [same] at entered
        exact ⟨region, begins, ends, sameAttr,
          takes_of_entered formed free (by omega) added entered.member⟩
      · obtain ⟨message, stopped⟩ := rejects acceptable
        have final : finalBytes (moveModuleTo dest src size attr marked) dest = 0 := by
          rw [ran, add_region_bytes]
          exact first_byte_moved sizePos different fun a other => if_neg other
        rw [show moveModuleTo dest src size attr marked = _ from stopped] at final
        have kept : marked.bytes dest = 1 := if_pos rfl
        exact absurd (kept.symm.trans final) (by decide)
  · rintro (taken | ⟨acceptable, region, begins, ends, sameAttr, takes⟩) bytes
    · have refused : ¬ Acceptable s.memory dest size := by
        rintro ⟨⟨rr, member, above, below⟩, free⟩
        rcases taken with outside | ⟨z, inList, zBegins, zEnds⟩
        · exact outside rr member (by omega)
        · have apart := free z inList
          omega
      exact ⟨fun _ => taken_stops (s := { s with bytes := bytes }) destWord different taken,
        fun acceptable => absurd acceptable refused⟩
    · refine ⟨fun refused => absurd acceptable refused, fun _ => ?_⟩
      obtain ⟨rr, member, above, below⟩ := acceptable.ram
      have bounded := rr.bounded
      have untaken : ¬ FirstByteTaken s.memory dest := by
        rintro (outside | ⟨z, inList, zBegins, zEnds⟩)
        · exact outside rr member (by omega)
        · have apart := acceptable.free z inList
          omega
      obtain ⟨regions, added, entered⟩ := entered_of_takes formed takes
      have made : Region.startSize dest size attr = .ok region :=
        Region.start_size_ok.mpr ⟨sizePos, begins,
          ends.trans (W.last_of_fits sizePos (by omega)).symm, sameAttr⟩
      have ran : moveModuleTo dest src size attr { s with bytes := bytes } = _ :=
        free_moves destWord different untaken
      refine ⟨Machine.withRegions { s with bytes := moveBytes W dest src size bytes } regions,
        region, ?_, moved_into (by omega) bytes, made, entered⟩
      rw [ran]
      change EStateM.bind (lift (Region.startSize dest size attr)) _ _ = _
      rw [made]
      change EStateM.bind (lift (s.memory.regions.add region)) _ _ = _
      rw [added]
      rfl

end

/-- RAM with one page that is in use, and a module at 0x8000. -/
def usedPage : Machine .w64 where
  bytes a := if 0x8000 ≤ a then 7 else 1
  memory :=
    { ram := Memory.unlimited [.fixed 0x1000 0xffff {} (.refl true)]
      sysalloc := Memory.unlimited []
      regions := Memory.unlimited [.fixed 0x3000 0x3fff {} (.refl true)]
      validate := none }
  mods := []
  sorter := []

theorem used_page_formed : usedPage.memory.regions.WellFormed :=
  ⟨List.pairwise_singleton _ _, by decide⟩

theorem move_all_or_nothing_behind_used_page :
    AllOrNothing usedPage 0x4000 0x8000 0x2000 { name := .modReg, type := .root } := by
  have contract := (@move_all_or_nothing_iff _ usedPage 0x4000 0x8000 0x2000
    { name := .modReg, type := .root } used_page_formed (by decide) (by decide) (by decide)
    (by decide)).mpr
  apply contract
  right
  refine ⟨⟨⟨_, List.mem_singleton.mpr rfl, by decide⟩, ?_⟩,
    ⟨0x4000, 0x5fff, { name := .modReg, type := .root }, by decide, by decide⟩, rfl, rfl, rfl,
    by decide, ⟨by decide, by decide, by decide⟩, _, rfl, ?_⟩
  · intro z member
    rw [List.mem_singleton.mp member]
    decide
  · intro z member
    rw [List.mem_singleton.mp member]
    decide

/-- Two pages to the page in front of the used one: the used page is overwritten, and then
the overlap is noticed. -/
theorem move_overwrites_used_page :
    ∃ after, moveModuleTo 0x2000 0x8000 0x2000 { name := .modReg, type := .root } usedPage =
        .error (.panic "Region overlap") after ∧
      ¬ Acceptable usedPage.memory 0x2000 0x2000 ∧
      usedPage.bytes 0x3000 = 1 ∧ after.bytes 0x3000 = 7 ∧
      ¬ AllOrNothing usedPage 0x2000 0x8000 0x2000 { name := .modReg, type := .root } := by
  have untaken : ¬ FirstByteTaken usedPage.memory 0x2000 := by
    rw [first_byte_taken_iff (s := usedPage) (by decide)]
    decide
  have stopped : moveModuleTo 0x2000 0x8000 0x2000 { name := .modReg, type := .root } usedPage =
      .error (.panic "Region overlap")
        { usedPage with bytes := moveBytes .w64 0x2000 0x8000 0x2000 usedPage.bytes } := by
    rw [free_moves (by decide) (by decide) untaken]
    rfl
  have refused : ¬ Acceptable usedPage.memory 0x2000 0x2000 := by
    intro acceptable
    have apart := acceptable.free _ (List.mem_singleton.mpr rfl)
    revert apart
    decide
  have overwritten : moveBytes .w64 0x2000 0x8000 0x2000 usedPage.bytes 0x3000 = 7 := by decide
  refine ⟨_, stopped, refused, by decide, overwritten, fun contract => ?_⟩
  obtain ⟨message, unchanged⟩ := contract.rejects refused
  rw [stopped] at unchanged
  have sameBytes := congrArg (fun result => finalBytes result 0x3000) unchanged
  change moveBytes .w64 0x2000 0x8000 0x2000 usedPage.bytes 0x3000 = usedPage.bytes 0x3000
    at sameBytes
  rw [overwritten] at sameBytes
  exact absurd sameBytes (by decide)

end L4Bootstrap
