import L4Bootstrap.RegionCover
import L4Bootstrap.Startup.Images
import Mathlib.Algebra.Order.BigOperators.Group.List
import Mathlib.Data.List.Flatten

/-!
# What is reserved for the images

The first half of loading: from a sorted list with room for all segments the list grows by
exactly the segments of the images, which are apart from each other and from the lasting
entries that were there.
-/

namespace L4Bootstrap

open MachineWord CheckedState ByteMemory

set_option autoImplicit false

variable {W : Wordsize}

/-! ## Segments as areas -/

def Region.area (r : Region W) : Area := (r.begin, r.last - r.begin + 1)

def Area.Has (area : Area) (p : Nat) : Prop := area.1 ≤ p ∧ p < area.1 + area.2

theorem Region.area_has_iff {r : Region W} {p : Nat} :
    r.area.Has p ↔ r.begin ≤ p ∧ p ≤ r.last := by
  have ordered := r.ordered
  unfold Area.Has area
  simp only
  omega

/-- Where a segment is loaded. -/
def ProgramHeader.area (W : Wordsize) (offset : Nat) (ph : ProgramHeader) : Area :=
  (W.add ph.paddr offset, ph.memsz)

def ElfFile.areas (W : Wordsize) (elf : ElfFile) (offset : Nat) : List Area :=
  elf.loads.map (ProgramHeader.area W offset)

def ElfFile.sizes (elf : ElfFile) : List Nat := elf.loads.map ProgramHeader.memsz

theorem ElfFile.areas_sizes (elf : ElfFile) (offset : Nat) :
    (elf.areas W offset).map Prod.snd = elf.sizes := by
  rw [areas, sizes, List.map_map]
  rfl

/-- A list without limits that has room for areas of these sizes. -/
structure RoomFor (l : RegionList W) (sizes : List Nat) : Prop where
  entries : l.reg.length + sizes.length ≤ l.max
  bytes : l.Unlimited sizes.sum

theorem RoomFor.sublist {l : RegionList W} {sizes fewer : List Nat} (room : RoomFor l sizes)
    (sub : fewer.Sublist sizes) : RoomFor l fewer := by
  obtain ⟨entries, address, combined, bytes⟩ := room
  have length := sub.length_le
  have sum : fewer.sum ≤ sizes.sum := sub.sum_le_sum fun x _ => Nat.zero_le x
  exact ⟨by omega, address, combined, by omega⟩

/-! ## One image -/

/-- The list has grown by `segments`. -/
structure SegmentsEntered (start : RegionList W) (segments : List (Region W)) (l : RegionList W) :
    Prop where
  mixed : Interleaved l.reg
  perm : l.reg.Perm (segments ++ start.reg)
  lasting : ∀ n ∈ segments, n.isTemporary = false
  limits : SameLimits start l
  counted : l.combinedSize = start.combinedSize + ((segments.map Region.area).map Prod.snd).sum

section

variable {sysalloc start l result : RegionList W} {segments : List (Region W)} {info : ElfInfo}
  {cmdline : Nat}

theorem segments_entered_start (ascending : Ascending start.reg) : SegmentsEntered start [] start :=
  ⟨ascending_interleaved ascending, List.Perm.refl _, by simp, ⟨rfl, rfl, rfl⟩, by simp⟩

/-- The list takes a segment of two bytes or more whole. -/
theorem SegmentsEntered.segment {ph : ProgramHeader} (entered : SegmentsEntered start segments l)
    (room : RoomFor start ((segments.map Region.area).map Prod.snd ++ [ph.memsz]))
    (isLoad : ph.isLoad = true) (two : 2 ≤ ph.memsz) (small : ph.memsz < W.modulus)
    (called : l4ExecAddRegion sysalloc l info ph.phdr cmdline = .ok result) :
    ∃ n, SegmentsEntered start (segments ++ [n]) result ∧ n.area = ph.area W info.offset := by
  obtain ⟨mixed, perm, lasting, limits, counted⟩ := entered
  obtain ⟨entries, address, combined, bytes⟩ := room
  have load : ph.phdr.load = true := by
    simp only [ProgramHeader.isLoad, Bool.and_eq_true] at isLoad
    exact isLoad.1
  have maxWord : W.maxWord = W.modulus - 1 := rfl
  rw [List.sum_append, List.sum_singleton] at bytes
  rw [List.length_append, List.length_map, List.length_map, List.length_singleton] at entries
  -- the call got behind the construction of the region
  obtain ⟨n, built⟩ : ∃ n, segmentRegion (W := W) info ph.phdr cmdline = .ok n := by
    rw [l4ExecAddRegion, if_neg (by simp only [ProgramHeader.phdr]; omega),
      if_neg (by simp [load]), CheckedLoop.bind_ok_iff] at called
    obtain ⟨n, built, _⟩ := called
    exact ⟨n, built⟩
  have nLasting := segment_region_lasting built
  obtain ⟨fits, begins, ends, _⟩ := Region.start_size_last built small
  change n.begin = W.add ph.paddr info.offset at begins
  change n.last = W.add ph.paddr info.offset + ph.memsz - 1 at ends
  have bounded := n.bounded
  have size : n.size = ph.memsz := by
    rw [Region.size_eq (by omega)]
    omega
  have area : n.area = ph.area W info.offset := by
    rw [Region.area, ProgramHeader.area, begins]
    congr 1
    omega
  obtain ⟨none, added⟩ := l4_exec_add_region_ok load built called
  have length := perm.length_eq
  rw [List.length_append] at length
  obtain ⟨capacity, sameAddress, sameCombined⟩ := limits
  have sum : W.add l.combinedSize n.size = l.combinedSize + ph.memsz := by
    rw [size]
    exact W.add_of_lt (by omega)
  rw [RegionList.add_eq_insert true (by omega) ⟨by omega, by omega, by omega⟩ (by omega),
    CheckedLoop.bind_ok_iff] at added
  obtain ⟨reg, inserted, isResult⟩ := added
  cases isResult
  obtain ⟨kept, grown⟩ := insert_interleaved mixed nLasting (find_region_overlap_none.mp none) inserted
  refine ⟨n, ⟨kept, ?_, ?_, ⟨capacity, sameAddress, sameCombined⟩, ?_⟩, area⟩
  · rw [List.append_assoc]
    exact (grown.trans (perm.cons n)).trans List.perm_middle.symm
  · intro r member
    rcases List.mem_append.mp member with earlier | same
    · exact lasting r earlier
    · rw [List.mem_singleton.mp same]
      exact nLasting
  · rw [List.map_append, List.map_append, List.sum_append, List.map_singleton, List.map_singleton,
      List.sum_singleton, area]
    change W.add l.combinedSize n.size = _
    rw [sum, counted, ProgramHeader.area]
    omega

/-- All segments of a file. -/
theorem SegmentsEntered.headers {phdrs : List ProgramHeader} (entered : SegmentsEntered start segments l)
    (room : RoomFor start ((segments.map Region.area).map Prod.snd ++
      (loadsOf phdrs).map ProgramHeader.memsz))
    (sizes : ∀ ph ∈ loadsOf phdrs, 2 ≤ ph.memsz ∧ ph.memsz < W.modulus)
    (ran : phdrs.foldlM (fun l ph => l4ExecAddRegion sysalloc l info ph.phdr cmdline) l =
      .ok result) :
    ∃ more, SegmentsEntered start (segments ++ more) result ∧
      more.map Region.area = (loadsOf phdrs).map (ProgramHeader.area W info.offset) := by
  induction phdrs generalizing l segments with
  | nil =>
      cases ran
      exact ⟨[], by rwa [List.append_nil], rfl⟩
  | cons ph rest ih =>
      rw [List.foldlM_cons, CheckedLoop.bind_ok_iff] at ran
      obtain ⟨next, called, ran⟩ := ran
      cases isLoad : ph.isLoad with
      | false =>
          have loads : loadsOf (ph :: rest) = loadsOf rest :=
            List.filter_cons_of_neg (by simp [isLoad])
          rw [loads] at room sizes ⊢
          rw [add_region_skip isLoad] at called
          cases called
          exact ih entered room sizes ran
      | true =>
          have loads : loadsOf (ph :: rest) = ph :: loadsOf rest :=
            List.filter_cons_of_pos isLoad
          rw [loads] at room sizes ⊢
          obtain ⟨two, small⟩ := sizes ph (by simp)
          rw [List.map_cons, List.append_cons] at room
          obtain ⟨n, grown, area⟩ := entered.segment (room.sublist (List.sublist_append_left _ _))
            isLoad two small called
          obtain ⟨more, done, areas⟩ := ih grown
            (by
              rw [List.map_append, List.map_append, List.map_singleton, List.map_singleton, area]
              exact room)
            (fun other member => sizes other (by simp [member])) ran
          refine ⟨n :: more, by rwa [List.append_cons], ?_⟩
          rw [List.map_cons, List.map_cons, area, areas]

end

/-- Segments are apart from each other and from the lasting entries. -/
theorem SegmentsEntered.all_apart {start l : RegionList W} {segments : List (Region W)}
    (entered : SegmentsEntered start segments l) :
    (segments ++ start.reg.filter fun r => !r.isTemporary).Pairwise
      fun r o => r.area.Apart o.area := by
  have ascending := interleaved_lasting_ascending entered.mixed
  have perm := entered.perm.filter fun r => !r.isTemporary
  have kept : segments.filter (fun r => !r.isTemporary) = segments :=
    List.filter_eq_self.mpr fun r member => by simp [entered.lasting r member]
  rw [List.filter_append, kept] at perm
  refine (perm.pairwise_iff fun either => either.symm).mp (ascending.imp ?_)
  intro r o below
  have ordered := r.ordered
  refine .inl ?_
  unfold Region.area
  simp only
  omega

theorem SegmentsEntered.apart {start l : RegionList W} {segments : List (Region W)}
    (entered : SegmentsEntered start segments l) : (segments.map Region.area).Pairwise Area.Apart := by
  rw [List.pairwise_map]
  exact (List.pairwise_append.mp entered.all_apart).1

/-- A byte of a lasting entry is in no segment. -/
theorem SegmentsEntered.off_lasting {start l : RegionList W} {segments : List (Region W)}
    (entered : SegmentsEntered start segments l) {n r : Region W} (isSegment : n ∈ segments)
    (member : r ∈ start.reg) (lasting : r.isTemporary = false) {p : Nat} (above : r.begin ≤ p)
    (below : p ≤ r.last) : ¬ n.area.Has p := by
  have isOld : r ∈ start.reg.filter fun r => !r.isTemporary :=
    List.mem_filter.mpr ⟨member, by simp [lasting]⟩
  have apart := (List.pairwise_append.mp entered.all_apart).2.2 n isSegment r isOld
  have inOld : r.area.Has p := Region.area_has_iff.mpr ⟨above, below⟩
  unfold Area.Apart at apart
  unfold Area.Has at inOld ⊢
  omega

/-! ## The images of a run -/

/-- The ELF file of a module. -/
def Machine.file (s : Machine W) (around : Surroundings W) (index : Nat) : ElfFile :=
  (s.elfModule around index).elf

/-- The areas of images, which are given by module and offset. -/
def Machine.areas (s : Machine W) (around : Surroundings W) (images : List (Nat × Nat)) :
    List Area :=
  images.flatMap fun image => (s.file around image.1).areas W image.2

def Machine.sizes (s : Machine W) (around : Surroundings W) (indexes : List Nat) : List Nat :=
  indexes.flatMap fun index => (s.file around index).sizes

/-- The segments of the file have two bytes or more. -/
def Machine.Sized (s : Machine W) (around : Surroundings W) (index : Nat) : Prop :=
  ∀ ph ∈ (s.file around index).loads, 2 ≤ ph.memsz ∧ ph.memsz < W.modulus

/-- Only the list of regions is new, and has grown by the segments of the images. -/
structure Reserves (around : Surroundings W) (s : Machine W) (images : List (Nat × Nat))
    (u : Machine W) : Prop where
  state : u = s.withRegions u.memory.regions
  entered : ∃ segments, SegmentsEntered s.memory.regions segments u.memory.regions ∧
    segments.map Region.area = s.areas around images

section

variable {around : Surroundings W} {s u t : Machine W} {images : List (Nat × Nat)}
  {index node : Nat}

theorem areas_sizes (images : List (Nat × Nat)) :
    (s.areas around images).map Prod.snd = s.sizes around (images.map Prod.fst) := by
  rw [Machine.areas, Machine.sizes, List.map_flatMap, List.flatMap_map]
  congr 1
  funext image
  exact ElfFile.areas_sizes _ _

theorem areas_append (images more : List (Nat × Nat)) :
    s.areas around (images ++ more) = s.areas around images ++ s.areas around more :=
  List.flatMap_append

theorem sizes_append (indexes more : List Nat) :
    s.sizes around (indexes ++ more) = s.sizes around indexes ++ s.sizes around more :=
  List.flatMap_append

theorem sizes_sublist {indexes more : List Nat} (sub : indexes.Sublist more) :
    (s.sizes around indexes).Sublist (s.sizes around more) := by
  rw [Machine.sizes, Machine.sizes]
  exact sub.flatMap _

theorem Reserves.elfModule (reserves : Reserves around s images u) (index : Nat) :
    u.elfModule around index = s.elfModule around index := by
  rw [reserves.state]
  rfl

theorem Reserves.baseModIdx (reserves : Reserves around s images u) (flag : ModuleFlag)
    (node : Nat) : u.baseModIdx around flag node = s.baseModIdx around flag node := by
  rw [reserves.state]
  rfl

theorem reserve_image {type : RegionType} {minAlign offset : Nat}
    (sized : s.Sized around index) (reserves : Reserves around s images u)
    (room : RoomFor s.memory.regions (s.sizes around (images.map Prod.fst ++ [index])))
    (ran : reserveImage around index type node minAlign u = .ok offset t) :
    Reserves around s (images ++ [(index, offset)]) t := by
  obtain ⟨segments, entered, areas⟩ := reserves.entered
  rw [reserveImage, get_bind, CheckedState.bind_ok_iff] at ran
  obtain ⟨⟨found, regions⟩, v, added, ran⟩ := ran
  obtain ⟨added, same⟩ := lift_ok_iff.mp added
  rw [same] at ran
  simp only [CheckedState.bind_ok_iff, modify_ok_iff, pure_ok_iff] at ran
  obtain ⟨_, _, rfl, rfl, rfl⟩ := ran
  rw [reserves.elfModule, addElfRegions, CheckedLoop.bind_ok_iff] at added
  obtain ⟨si, _, added⟩ := added
  rw [CheckedLoop.bind_ok_iff] at added
  obtain ⟨⟨moved, shift⟩, _, added⟩ := added
  -- behind the announcement of the kernel, what is left is the pass that reserves
  have passed : ∃ l, execLoadElf (fun regions ph => l4ExecAddRegion u.memory.sysalloc regions
      ⟨type, shift⟩ ph.phdr (s.elfModule around index).cmdline) (s.elfModule around index).elf
      (fun error => "This is an invalid binary, fix it (" ++ error ++ ").") u.memory.regions =
        .ok l ∧ shift = offset ∧ l = regions := by
    simp only at added
    by_cases kernel : type = .kernel
    · rw [if_pos kernel] at added
      simp only [CheckedLoop.bind_ok_iff] at added
      obtain ⟨_, _, _, _, l, passed, same⟩ := added
      cases same
      exact ⟨_, passed, rfl, rfl⟩
    · rw [if_neg kernel] at added
      simp only [CheckedLoop.bind_ok_iff] at added
      obtain ⟨l, passed, same⟩ := added
      cases same
      exact ⟨_, passed, rfl, rfl⟩
  obtain ⟨l, passed, rfl, rfl⟩ := passed
  rw [execLoadElf] at passed
  split_ifs at passed with magic arch
  · cases passed
  · cases passed
  have loads := loads_used (s.elfModule around index).elf
  change (s.elfModule around index).elf.used.foldlM _ _ = _ at passed
  obtain ⟨more, grown, moreAreas⟩ := entered.headers
    (by
      rw [loads, areas, areas_sizes]
      rw [sizes_append] at room
      simpa [Machine.sizes, Machine.file, ElfFile.sizes] using room)
    (by
      rw [loads]
      exact sized) passed
  refine ⟨?_, segments ++ more, grown, ?_⟩
  · rw [reserves.state]
    rfl
  · rw [List.map_append, areas, moreAreas, loads, areas_append]
    simp [Machine.areas, ElfFile.areas, Machine.file]

/-- The modules that are loaded for nodes at most. -/
def Machine.nodeModules (s : Machine W) (around : Surroundings W) (node : Nat) : List Nat :=
  (s.baseModIdx around .sigma0 node).toList ++ (s.baseModIdx around .roottask node).toList

/-- The search for a KIP of the node in the file of the kernel ends with this answer. -/
def Machine.KipSearch (s : Machine W) (around : Surroundings W) (kernel node : Nat)
    (present : Bool) : Prop :=
  (kipExistsForNode W around.kip s.bytes around.fuel (s.kipHdr around kernel)
    (s.module kernel).start node).result = .ok present

/-- The images of a node are reserved at the offsets that the arrays hold. -/
structure NodeReserved (around : Surroundings W) (s : Machine W) (images : List (Nat × Nat))
    (node : Nat) (offsets : NodeOffsets) : Prop where
  sigma0 : ∀ index, s.baseModIdx around .sigma0 node = some index → (index, offsets.sigma0) ∈ images
  roottask : ∀ index, s.baseModIdx around .roottask node = some index →
    (index, offsets.roottask) ∈ images

theorem NodeReserved.mono {more : List (Nat × Nat)} {offsets : NodeOffsets}
    (reserved : NodeReserved around s images node offsets) (sub : images ⊆ more) :
    NodeReserved around s more node offsets :=
  ⟨fun index found => sub (reserved.sigma0 index found),
    fun index found => sub (reserved.roottask index found)⟩

theorem reserve_module {flag : ModuleFlag} {type : RegionType} {before after : Nat}
    (sized : ∀ index, s.baseModIdx around flag node = some index → s.Sized around index)
    (reserves : Reserves around s images u)
    (room : RoomFor s.memory.regions
      (s.sizes around (images.map Prod.fst ++ (s.baseModIdx around flag node).toList)))
    (ran : reserveModule around flag type node before u = .ok after t) :
    ∃ more, Reserves around s (images ++ more) t ∧
      more.map Prod.fst = (s.baseModIdx around flag node).toList ∧
      ∀ index, s.baseModIdx around flag node = some index → (index, after) ∈ more := by
  rw [reserveModule, get_bind, reserves.baseModIdx] at ran
  cases found : s.baseModIdx around flag node with
  | none =>
      rw [found] at ran
      obtain ⟨rfl, rfl⟩ := pure_ok_iff.mp ran
      exact ⟨[], by rwa [List.append_nil], rfl, by simp⟩
  | some index =>
      rw [found] at ran room
      refine ⟨[(index, after)], reserve_image (sized index found) reserves room ran, rfl, ?_⟩
      intro other same
      cases same
      exact List.mem_singleton_self _

theorem reserve_node {kernel : Nat} {before after : NodeOffsets}
    (sized : ∀ index ∈ s.nodeModules around node, s.Sized around index)
    (reserves : Reserves around s images u)
    (room : RoomFor s.memory.regions
      (s.sizes around (images.map Prod.fst ++ s.nodeModules around node)))
    (ran : reserveNode around kernel node before u = .ok after t) :
    ∃ more, Reserves around s (images ++ more) t ∧
      (more.map Prod.fst).Sublist (s.nodeModules around node) ∧
      ∃ present, s.KipSearch around kernel node present ∧
        (present = true → NodeReserved around s more node after) := by
  rw [reserveNode, get_bind, CheckedState.bind_ok_iff] at ran
  obtain ⟨present, _, searched, ran⟩ := ran
  obtain ⟨searched, rfl⟩ := lift_ok_iff.mp searched
  have sameSearch : s.KipSearch around kernel node present := by
    rw [Machine.KipSearch, ← searched, reserves.state]
    rfl
  cases present with
  | false =>
      obtain ⟨rfl, rfl⟩ := pure_ok_iff.mp ran
      exact ⟨[], by rwa [List.append_nil], List.nil_sublist _, false, sameSearch, by simp⟩
  | true =>
      simp only [Bool.not_true, Bool.false_eq_true, if_false, CheckedState.bind_ok_iff] at ran
      obtain ⟨sigma0, mid, ranSigma0, roottask, last, ranRoottask, ran⟩ := ran
      obtain ⟨rfl, rfl⟩ := pure_ok_iff.mp ran
      rw [Machine.nodeModules] at sized room ⊢
      rw [← List.append_assoc, sizes_append] at room
      obtain ⟨first, firstReserves, firstModules, firstOffset⟩ := reserve_module
        (fun index found => sized index (by simp [found])) reserves
        (room.sublist (List.sublist_append_left _ _)) ranSigma0
      obtain ⟨second, bothReserve, secondModules, secondOffset⟩ := reserve_module
        (fun index found => sized index (by simp [found])) firstReserves
        (by
          rw [List.map_append, firstModules, sizes_append]
          exact room) ranRoottask
      refine ⟨first ++ second, by rwa [← List.append_assoc], ?_, true, sameSearch, fun _ => ⟨?_, ?_⟩⟩
      · rw [List.map_append, firstModules, secondModules]
      · exact fun index found => List.mem_append_left _ (firstOffset index found)
      · exact fun index found => List.mem_append_right _ (secondOffset index found)

theorem reserve_nodes {kernel : Nat} {nodes reserved : List (Nat × NodeOffsets)}
    (sized : ∀ index ∈ nodes.flatMap fun n => s.nodeModules around n.1, s.Sized around index)
    (reserves : Reserves around s images u)
    (room : RoomFor s.memory.regions
      (s.sizes around (images.map Prod.fst ++ nodes.flatMap fun n => s.nodeModules around n.1)))
    (ran : reserveNodes around kernel nodes u = .ok reserved t) :
    ∃ more, Reserves around s (images ++ more) t ∧
      (more.map Prod.fst).Sublist (nodes.flatMap fun n => s.nodeModules around n.1) ∧
      reserved.map Prod.fst = nodes.map Prod.fst ∧
      ∀ n ∈ reserved, ∃ present, s.KipSearch around kernel n.1 present ∧
        (present = true → NodeReserved around s more n.1 n.2) := by
  induction nodes generalizing images u reserved with
  | nil =>
      obtain ⟨rfl, rfl⟩ := pure_ok_iff.mp ran
      exact ⟨[], by rwa [List.append_nil], List.nil_sublist _, rfl, by simp⟩
  | cons n rest ih =>
      obtain ⟨node, offsets⟩ := n
      simp only [reserveNodes, CheckedState.bind_ok_iff] at ran
      obtain ⟨after, mid, ranNode, later, last, ranRest, ran⟩ := ran
      obtain ⟨rfl, rfl⟩ := pure_ok_iff.mp ran
      rw [List.flatMap_cons] at sized room ⊢
      simp only at sized room ⊢
      rw [← List.append_assoc, sizes_append] at room
      obtain ⟨here, hereReserves, hereModules, found, search, hereNode⟩ := reserve_node
        (fun index member => sized index (List.mem_append_left _ member)) reserves
        (room.sublist (List.sublist_append_left _ _)) ranNode
      have left : (images ++ here).map Prod.fst = images.map Prod.fst ++ here.map Prod.fst :=
        List.map_append
      obtain ⟨more, allReserve, moreModules, sameNodes, moreNodes⟩ := ih
        (fun index member => sized index (List.mem_append_right _ member)) hereReserves
        (by
          rw [left, sizes_append]
          apply room.sublist
          rw [sizes_append, sizes_append]
          exact ((List.Sublist.refl _).append (sizes_sublist hereModules)).append
            (List.Sublist.refl _)) ranRest
      refine ⟨here ++ more, by rwa [← List.append_assoc], ?_, by simp [sameNodes], ?_⟩
      · rw [List.map_append]
        exact hereModules.append moreModules
      · intro n member
        rcases List.mem_cons.mp member with rfl | inRest
        · exact ⟨found, search, fun isPresent =>
            (hereNode isPresent).mono (List.subset_append_left _ _)⟩
        · obtain ⟨present, moreSearch, moreReserved⟩ := moreNodes n inRest
          exact ⟨present, moreSearch, fun isPresent =>
            (moreReserved isPresent).mono (List.subset_append_right _ _)⟩

end

end L4Bootstrap
