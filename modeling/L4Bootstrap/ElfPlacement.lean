import L4Bootstrap.ElfReservation
import L4Bootstrap.FreeSearchForward
import L4Bootstrap.Lib.ByteMemory

/-!
# Placing an ELF module

`add_elf_regions` of `startup.cc` goes through the program headers of a module
three times: `l4_exec_gather_info` finds out whether the segments are where they
can be loaded, `l4_exec_add_region` reserves them, shifted by one offset, and
much later `l4_exec_read_exec` copies them to the shifted addresses. Without
relocation the offset is 0; else it moves the lowest segment, rounded down to
the largest alignment, to the free memory that was found.
-/

namespace L4Bootstrap

open MachineWord CheckedLoop ByteMemory

set_option autoImplicit false

variable {W : Wordsize}

/-- The values of `p_type` that are told apart. -/
inductive SegmentType
  | null
  | load
  | dynamic
  | other (code : UInt32)
  deriving DecidableEq

structure ProgramHeader where
  type : SegmentType
  writable : Bool
  executable : Bool
  offset : Nat
  paddr : Nat
  filesz : Nat
  memsz : Nat
  align : Nat
  deriving DecidableEq

/-- The part that `l4_exec_add_region` reads. -/
def ProgramHeader.phdr (ph : ProgramHeader) : Phdr where
  load := ph.type = .load
  writable := ph.writable
  executable := ph.executable
  paddr := ph.paddr
  memsz := ph.memsz

/-- An ELF file with the outcome of the two checks of its header. -/
structure ElfFile where
  magic : Bool
  arch : Bool
  phdrs : List ProgramHeader

/-- A module with an ELF file at `start`; `reloc` is the attribute of the same
name. -/
structure ElfModule where
  elf : ElfFile
  start : Nat
  cmdline : Nat
  reloc : Bool

/-- `exec_load_elf` for a handler that returns 0, with the panic of the caller. -/
def execLoadElf {σ : Type} (handler : σ → ProgramHeader → Checked σ) (elf : ElfFile)
    (failed : String → String) (state : σ) : Checked σ :=
  if !elf.magic then panic (failed "no ELF executable")
  else if !elf.arch then panic (failed "wrong ELF architecture")
  else (elf.phdrs.filter fun ph => ph.type ≠ .null).foldlM handler state

/-- `Section_info`; `last` is `end`. -/
structure SectionInfo (W : Wordsize) where
  start : Nat := W.maxWord
  last : Nat := 0
  align : Nat := 1
  hasDynamic : Bool := false
  needsRelocation : Bool := false
  deriving DecidableEq

def l4ExecGatherInfo (m : Memory W) (info : SectionInfo W) (ph : ProgramHeader) :
    Checked (SectionInfo W) :=
  if ph.memsz = 0 then .ok info
  else
    let info := if ph.type = .dynamic then { info with hasDynamic := true } else info
    if ph.type ≠ .load then .ok info
    else do
      let info := { info with
        start := min info.start ph.paddr
        last := max info.last (W.sub (W.add ph.paddr ph.memsz) 1)
        align := max info.align ph.align }
      let r ← Region.startSize ph.paddr ph.memsz {}
      if (m.sysalloc.containing r).isNone || (m.ram.containing r).isNone ||
          (findRegionOverlap m.regions r).isSome then
        .ok { info with needsRelocation := true }
      else .ok info

/-- The address for the sections; the kernel goes behind the caller of
`add_elf_regions` if there is room. -/
def findSections (m : Memory W) (type : RegionType) (returnAddress node : Nat)
    (si : SectionInfo W) : Checked Nat := do
  let size := W.add (W.sub si.last si.start) 1
  let addr ← m.findFreeRam size (if type = .kernel then returnAddress else 0) W.maxWord
    si.align.log2 node
  let addr ← if addr ≠ 0 then .ok addr else m.findFreeRam size 0 W.maxWord si.align.log2 node
  if addr = 0 then panic "Not enough free memory to load binary" else .ok addr

/-- The decision of `add_elf_regions`: the sections with the rounded start, and
the offset. -/
def relocateSections (m : Memory W) (type : RegionType) (returnAddress node minAlign : Nat)
    (si : SectionInfo W) : Checked (SectionInfo W × Nat) :=
  if si.needsRelocation && si.hasDynamic && si.start < si.last then do
    let align := max si.align minAlign
    let si := { si with
      align := align
      start := si.start - (si.start &&& W.sub align 1) }
    let addr ← findSections m type returnAddress node si
    .ok (si, W.sub addr si.start)
  else .ok (si, 0)

/-- `add_elf_regions`, with the firmware's `firmware_announce_memory`. The answer
is the offset and the list of reserved regions. -/
def addElfRegions (m : Memory W) (announce : Region W → Checked Unit) (mod : ElfModule)
    (type : RegionType) (returnAddress node minAlign : Nat) : Checked (Nat × RegionList W) := do
  let si ← execLoadElf (l4ExecGatherInfo m) mod.elf
    (fun error => "Could not gather load section infos (" ++ error ++ ")")
    { needsRelocation := mod.reloc }
  let (si, offset) ← relocateSections m type returnAddress node minAlign si
  if type = .kernel then do
    let area ← Region.make (W.add si.start offset) (W.add si.last offset) {}
    announce area
  let regions ← execLoadElf
    (fun regions ph => l4ExecAddRegion m.sysalloc regions ⟨type, offset⟩ ph.phdr mod.cmdline)
    mod.elf (fun error => "This is an invalid binary, fix it (" ++ error ++ ").") m.regions
  .ok (offset, regions)

/-- `f->name (...)` for the first entry that overlaps `o`. -/
def renameFirst (o : Region W) (name : Name) : List (Region W) → Option (List (Region W))
  | [] => none
  | r :: rest =>
      if r.overlaps o then some ({ r with attr := { r.attr with name := name } } :: rest)
      else (renameFirst o name rest).map (r :: ·)

def l4ExecReadExec (ram sysalloc : RegionList W) (mod : ElfModule) (offset : Nat)
    (s : Bytes × RegionList W) (ph : ProgramHeader) : Checked (Bytes × RegionList W) :=
  if ph.memsz = 0 then .ok s
  else if ph.type ≠ .load then .ok s
  else do
    let memAddr := W.add ph.paddr offset
    let elfRegion ← Region.startSize memAddr ph.memsz {}
    if (sysalloc.containing elfRegion).isNone || (ram.containing elfRegion).isNone then
      panic "Binary outside memory"
    else
      let bytes := memmove memAddr (W.add mod.start ph.offset) ph.filesz s.1
      let bytes := if ph.filesz < ph.memsz then
        memset (W.add memAddr ph.filesz) 0 (ph.memsz - ph.filesz) bytes else bytes
      match renameFirst (Region.ofAddress memAddr)
        (if mod.cmdline = 0 then .literal ".[Unknown]" else .cmdline mod.cmdline) s.2.reg with
      | none => panic "Region for module not found"
      | some reg => .ok (bytes, { s.2 with reg := reg })

/-! ## The segments of a file -/

def ProgramHeader.isLoad (ph : ProgramHeader) : Bool := ph.type = .load && ph.memsz ≠ 0

def ProgramHeader.isDynamic (ph : ProgramHeader) : Bool := ph.type = .dynamic && ph.memsz ≠ 0

def loadsOf (phdrs : List ProgramHeader) : List ProgramHeader :=
  phdrs.filter ProgramHeader.isLoad

def ElfFile.loads (elf : ElfFile) : List ProgramHeader := loadsOf elf.phdrs

/-- The address of the last byte without relocation. -/
def ProgramHeader.last (ph : ProgramHeader) : Nat := ph.paddr + ph.memsz - 1

def lowest (low : Nat) (loads : List ProgramHeader) : Nat :=
  loads.foldl (fun low ph => min low ph.paddr) low

def highest (high : Nat) (loads : List ProgramHeader) : Nat :=
  loads.foldl (fun high ph => max high ph.last) high

def largestAlign (align : Nat) (loads : List ProgramHeader) : Nat :=
  loads.foldl (fun align ph => max align ph.align) align

/-- Inside one RAM region and one `sysalloc` region, and apart from all lasting
entries. -/
structure Placed (m : Memory W) (addr size : Nat) : Prop where
  inside : addr + size ≤ W.modulus
  ram : ∃ rr ∈ m.ram.reg, rr.begin ≤ addr ∧ addr + size - 1 ≤ rr.last
  sysalloc : ∃ s ∈ m.sysalloc.reg, s.begin ≤ addr ∧ addr + size - 1 ≤ s.last
  free : ∀ r ∈ m.regions.reg, r.isTemporary = false → r.last < addr ∨ addr + size - 1 < r.begin

/-- Segments as a linker writes them. -/
structure SegmentsFormed (W : Wordsize) (loads : List ProgramHeader) : Prop where
  disjoint : loads.Pairwise fun ph other =>
    ph.paddr + ph.memsz ≤ other.paddr ∨ other.paddr + other.memsz ≤ ph.paddr
  inside : ∀ ph ∈ loads, ph.paddr + ph.memsz ≤ W.modulus
  small : ∀ ph ∈ loads, ph.memsz < W.modulus
  aligned : ∀ ph ∈ loads, ∃ k < W.bits, ph.align = 2 ^ k

theorem containing_iff {l : RegionList W} {o : Region W} :
    (l.containing o).isNone = false ↔ ∃ r ∈ l.reg, r.begin ≤ o.begin ∧ o.last ≤ r.last := by
  unfold RegionList.containing
  rw [← Bool.not_eq_true, Option.isNone_iff_eq_none, List.find?_eq_none]
  push Not
  simp only [Region.contains_iff]

/-- What `l4_exec_gather_info` finds out about one segment. -/
theorem placed_iff {m : Memory W} {ph : ProgramHeader} (pos : ph.memsz ≠ 0)
    (inside : ph.paddr + ph.memsz ≤ W.modulus) {r : Region W} (begins : r.begin = ph.paddr)
    (ends : r.last = ph.paddr + ph.memsz - 1) :
    ((m.sysalloc.containing r).isNone || (m.ram.containing r).isNone ||
        (findRegionOverlap m.regions r).isSome) = false ↔ Placed m ph.paddr ph.memsz := by
  rw [Bool.or_eq_false_iff, Bool.or_eq_false_iff, containing_iff, containing_iff,
    Option.isSome_eq_false_iff, Option.isNone_iff_eq_none, find_region_overlap_none, begins, ends]
  have ordered : ph.paddr ≤ ph.paddr + ph.memsz - 1 := by omega
  constructor
  · rintro ⟨⟨sysalloc, ram⟩, free⟩
    refine ⟨inside, ram, sysalloc, ?_⟩
    intro z member lasting
    have apart := Region.overlaps_eq_false_iff.mp (free z member lasting)
    omega
  · rintro ⟨_, ram, sysalloc, free⟩
    refine ⟨⟨sysalloc, ram⟩, ?_⟩
    intro z member lasting
    rw [Region.overlaps_eq_false_iff]
    have apart := free z member lasting
    omega

/-! ## Gathering -/

/-- What the pass over the headers finds out. -/
structure Gathered (m : Memory W) (phdrs : List ProgramHeader) (info out : SectionInfo W) :
    Prop where
  start : out.start = lowest info.start (loadsOf phdrs)
  last : out.last = highest info.last (loadsOf phdrs)
  align : out.align = largestAlign info.align (loadsOf phdrs)
  hasDynamic : out.hasDynamic = true ↔
    info.hasDynamic = true ∨ ∃ ph ∈ phdrs, ph.isDynamic = true
  needsRelocation : out.needsRelocation = false ↔
    info.needsRelocation = false ∧ ∀ ph ∈ loadsOf phdrs, Placed m ph.paddr ph.memsz

theorem Gathered.append {m : Memory W} {front back : List ProgramHeader}
    {info mid out : SectionInfo W} (first : Gathered m front info mid)
    (second : Gathered m back mid out) : Gathered m (front ++ back) info out := by
  have loads : loadsOf (front ++ back) = loadsOf front ++ loadsOf back := List.filter_append ..
  constructor
  · rw [second.start, first.start, loads, lowest, lowest, lowest, List.foldl_append]
  · rw [second.last, first.last, loads, highest, highest, highest, List.foldl_append]
  · rw [second.align, first.align, loads, largestAlign, largestAlign, largestAlign,
      List.foldl_append]
  · rw [second.hasDynamic, first.hasDynamic]
    simp only [List.mem_append, or_and_right, exists_or, or_assoc]
  · rw [second.needsRelocation, first.needsRelocation, loads]
    simp only [List.mem_append, or_imp, forall_and, and_assoc]

/-- A header that is no segment. -/
theorem gathered_skip {m : Memory W} {ph : ProgramHeader} {info out : SectionInfo W}
    (noLoad : ph.isLoad = false) (start : out.start = info.start) (last : out.last = info.last)
    (align : out.align = info.align)
    (dynamic : out.hasDynamic = true ↔ info.hasDynamic = true ∨ ph.isDynamic = true)
    (needs : out.needsRelocation = info.needsRelocation) : Gathered m [ph] info out := by
  have loads : loadsOf [ph] = [] := by simp [loadsOf, noLoad]
  refine ⟨?_, ?_, ?_, by simpa using dynamic, by simp [loads, needs]⟩
  · rw [loads, start, lowest, List.foldl_nil]
  · rw [loads, last, highest, List.foldl_nil]
  · rw [loads, align, largestAlign, List.foldl_nil]

theorem gather_one {m : Memory W} {ph : ProgramHeader}
    (inside : ph.isLoad = true → ph.paddr + ph.memsz ≤ W.modulus) (info : SectionInfo W) :
    ∃ out, l4ExecGatherInfo m info ph = .ok out ∧ Gathered m [ph] info out := by
  unfold l4ExecGatherInfo
  by_cases empty : ph.memsz = 0
  · refine ⟨info, if_pos empty, gathered_skip ?_ rfl rfl rfl ?_ rfl⟩
    · simp [ProgramHeader.isLoad, empty]
    · simp [ProgramHeader.isDynamic, empty]
  rw [if_neg empty]
  by_cases load : ph.type = .load
  · have isLoad : ph.isLoad = true := by simp [ProgramHeader.isLoad, load, empty]
    have loads : loadsOf [ph] = [ph] := by simp [loadsOf, isLoad]
    obtain ⟨r, made, begins, ends, _⟩ :=
      @Region.start_size_of_fits W ph.paddr ph.memsz {} (by omega) (inside isLoad)
    have placed := placed_iff (m := m) empty (inside isLoad) begins ends
    have lastByte : W.sub (W.add ph.paddr ph.memsz) 1 = ph.last :=
      W.last_of_fits (by omega) (inside isLoad)
    have noDynamic : ph.isDynamic = false := by simp [ProgramHeader.isDynamic, load]
    simp only [load, reduceCtorEq, if_false, ne_eq, not_true_eq_false, made, ok_bind, lastByte]
    split_ifs with moves
    · refine ⟨_, rfl, by rw [loads]; rfl, by rw [loads]; rfl, by rw [loads]; rfl,
        by simp [noDynamic], ?_⟩
      have notPlaced : ¬ Placed m ph.paddr ph.memsz := by
        rw [← placed, moves]
        simp
      simp [loads, notPlaced]
    · refine ⟨_, rfl, by rw [loads]; rfl, by rw [loads]; rfl, by rw [loads]; rfl,
        by simp [noDynamic], ?_⟩
      have isPlaced : Placed m ph.paddr ph.memsz :=
        placed.mp ((Bool.not_eq_true _).mp moves)
      simp [loads, isPlaced]
  · have noLoad : ph.isLoad = false := by simp [ProgramHeader.isLoad, load]
    simp only [ne_eq, load, not_false_eq_true, if_true]
    by_cases dynamic : ph.type = .dynamic
    · have isDynamic : ph.isDynamic = true := by simp [ProgramHeader.isDynamic, dynamic, empty]
      rw [if_pos dynamic]
      exact ⟨_, rfl, gathered_skip noLoad rfl rfl rfl (by simp [isDynamic]) rfl⟩
    · have noDynamic : ph.isDynamic = false := by simp [ProgramHeader.isDynamic, dynamic]
      rw [if_neg dynamic]
      exact ⟨_, rfl, gathered_skip noLoad rfl rfl rfl (by simp [noDynamic]) rfl⟩

theorem gather_all {m : Memory W} {phdrs : List ProgramHeader}
    (inside : ∀ ph ∈ loadsOf phdrs, ph.paddr + ph.memsz ≤ W.modulus) (info : SectionInfo W) :
    ∃ out, phdrs.foldlM (l4ExecGatherInfo m) info = .ok out ∧ Gathered m phdrs info out := by
  induction phdrs generalizing info with
  | nil =>
      refine ⟨info, rfl, rfl, rfl, rfl, ?_, ?_⟩
      · simp
      · simp [loadsOf]
  | cons ph rest ih =>
      have loads : loadsOf (ph :: rest) = loadsOf [ph] ++ loadsOf rest := by
        rw [← List.singleton_append]
        exact List.filter_append ..
      obtain ⟨mid, gathered, first⟩ := @gather_one W m ph
        (fun isLoad => inside ph (List.mem_filter.mpr ⟨by simp, isLoad⟩)) info
      obtain ⟨out, rested, second⟩ := ih
        (fun other member => inside other (by rw [loads]; simp [member])) mid
      exact ⟨out, by rw [List.foldlM_cons, gathered, ok_bind, rested], first.append second⟩

/-! ## The extent of the segments -/

theorem lowest_le (low : Nat) {loads : List ProgramHeader} :
    lowest low loads ≤ low ∧ ∀ ph ∈ loads, lowest low loads ≤ ph.paddr := by
  induction loads generalizing low with
  | nil => exact ⟨le_rfl, by simp⟩
  | cons ph rest ih =>
      obtain ⟨below, each⟩ := ih (min low ph.paddr)
      change lowest (min low ph.paddr) rest ≤ low ∧ _
      refine ⟨by omega, ?_⟩
      intro other member
      rcases List.mem_cons.mp member with rfl | inRest
      · change lowest (min low other.paddr) rest ≤ _
        omega
      · exact each other inRest

theorem le_highest (high : Nat) {loads : List ProgramHeader} :
    high ≤ highest high loads ∧ ∀ ph ∈ loads, ph.last ≤ highest high loads := by
  induction loads generalizing high with
  | nil => exact ⟨le_rfl, by simp⟩
  | cons ph rest ih =>
      obtain ⟨above, each⟩ := ih (max high ph.last)
      change high ≤ highest (max high ph.last) rest ∧ _
      refine ⟨by omega, ?_⟩
      intro other member
      rcases List.mem_cons.mp member with rfl | inRest
      · change _ ≤ highest (max high other.last) rest
        omega
      · exact each other inRest

theorem highest_lt {high bound : Nat} {loads : List ProgramHeader} (low : high < bound)
    (each : ∀ ph ∈ loads, ph.last < bound) : highest high loads < bound := by
  induction loads generalizing high with
  | nil => exact low
  | cons ph rest ih =>
      apply ih
      · exact max_lt low (each ph (by simp))
      · exact fun other member => each other (by simp [member])

/-- Among powers of two the largest one is a multiple of the others. -/
theorem largest_align_pow {k bits : Nat} {loads : List ProgramHeader} (small : k < bits)
    (aligned : ∀ ph ∈ loads, ∃ k < bits, ph.align = 2 ^ k) :
    ∃ n < bits, largestAlign (2 ^ k) loads = 2 ^ n ∧ k ≤ n ∧
      ∀ ph ∈ loads, ph.align ∣ 2 ^ n := by
  induction loads generalizing k with
  | nil => exact ⟨k, small, rfl, le_rfl, by simp⟩
  | cons ph rest ih =>
      obtain ⟨j, jSmall, isAlign⟩ := aligned ph (by simp)
      have larger : max (2 ^ k) ph.align = 2 ^ max k j := by
        rw [isAlign]
        exact (pow_right_mono₀ (show 1 ≤ 2 by decide)).map_max.symm
      obtain ⟨n, nSmall, isLargest, le, each⟩ := @ih (max k j) (by omega)
        (fun other member => aligned other (by simp [member]))
      refine ⟨n, nSmall, ?_, by omega, ?_⟩
      · change largestAlign (max (2 ^ k) ph.align) rest = _
        rw [larger, isLargest]
      · intro other member
        rcases List.mem_cons.mp member with rfl | inRest
        · rw [isAlign]
          exact pow_dvd_pow 2 (by omega)
        · exact each other inRest

/-! ## Shifted segments -/

/-- Disjoint blocks stay disjoint when both are shifted modulo the word. -/
theorem shifted_disjoint {a b offset sizeA sizeB : Nat} (offsetWord : offset < W.modulus)
    (aInside : a + sizeA ≤ W.modulus) (bInside : b + sizeB ≤ W.modulus) (aPos : 0 < sizeA)
    (bPos : 0 < sizeB) (apart : a + sizeA ≤ b ∨ b + sizeB ≤ a) :
    W.add a offset + sizeA ≤ W.add b offset ∨ W.add b offset + sizeB ≤ W.add a offset := by
  have reduce : ∀ x, x < W.modulus → W.add x offset = x + offset ∨
      (W.modulus ≤ x + offset ∧ W.add x offset = x + offset - W.modulus) := by
    intro x word
    rcases Nat.lt_or_ge (x + offset) W.modulus with fits | wraps
    · exact .inl (W.add_of_lt fits)
    · right
      refine ⟨wraps, ?_⟩
      rw [Wordsize.add, Nat.mod_eq_sub_mod wraps, Nat.mod_eq_of_lt (by omega)]
  have aWord := reduce a (by omega)
  have bWord := reduce b (by omega)
  omega

/-! ## Reserving -/

/-- The bytes that the list has counted before each segment do not add up to the
largest word. -/
def CountsBelow (W : Wordsize) (counted : Nat) (loads : List ProgramHeader) : Prop :=
  ∀ front ph back, loads = front ++ ph :: back →
    (counted + (front.map ProgramHeader.memsz).sum) % W.modulus < W.maxWord

/-- A list without limits and with room for the segments. -/
structure TakesSegments (l : RegionList W) (loads : List ProgramHeader) : Prop where
  address : l.addressLimit = W.maxWord
  combined : l.maxCombinedSize = W.maxWord
  room : l.reg.length + loads.length ≤ l.max
  word : l.combinedSize < W.modulus
  counts : CountsBelow W l.combinedSize loads

/-- What reserving is to do. -/
structure SegmentsReserved (info : ElfInfo) (cmdline : Nat) (loads : List ProgramHeader)
    (before after : RegionList W) : Prop where
  reserved : ∀ ph ∈ loads, ∃ n ∈ after.reg, segmentRegion info ph.phdr cmdline = .ok n
  kept : ∀ r ∈ before.reg, r ∈ after.reg
  noMore : ∀ r ∈ after.reg, r ∈ before.reg ∨
    ∃ ph ∈ loads, segmentRegion info ph.phdr cmdline = .ok r

/-- The entry that contains the region is the first one that overlaps it. -/
theorem sysalloc_find {sysalloc : RegionList W} (sorted : Ascending sysalloc.reg) {n : Region W}
    (inside : ∃ s ∈ sysalloc.reg, s.begin ≤ n.begin ∧ n.last ≤ s.last) :
    ∃ r, sysalloc.find n = some r ∧ r.contains n = true := by
  obtain ⟨s, member, begins, ends⟩ := inside
  have nOrdered := n.ordered
  have overlap : s.overlaps n = true := Region.overlaps_iff.mpr ⟨by omega, by omega⟩
  refine ⟨s, ?_, Region.contains_iff.mpr ⟨begins, ends⟩⟩
  obtain ⟨front, back, whole⟩ := List.append_of_mem member
  rw [whole] at sorted
  refine List.find?_eq_some_iff_append.mpr ⟨overlap, front, back, whole, ?_⟩
  intro o inFront
  have before := (ascending_append.mp sorted).2.2 o inFront s (by simp)
  rw [Bool.not_eq_true', Region.overlaps_eq_false_iff]
  omega

theorem segment_region_made {info : ElfInfo} {ph : ProgramHeader} (cmdline : Nat)
    (pos : 0 < ph.memsz) (inside : W.add ph.paddr info.offset + ph.memsz ≤ W.modulus) :
    ∃ n : Region W, segmentRegion info ph.phdr cmdline = .ok n ∧
      n.begin = W.add ph.paddr info.offset ∧
      n.last = W.add ph.paddr info.offset + ph.memsz - 1 := by
  obtain ⟨n, made, begins, ends, _⟩ := Region.start_size_of_fits
    { name := if cmdline = 0 then .literal ".[Unknown]" else .cmdline cmdline
      type := info.type
      subType := if info.type = .root then ph.phdr.rights else noSubtype
      eager := info.type ≠ .kernel } pos inside
  exact ⟨n, made, begins, ends⟩

theorem add_one_segment {sysalloc l : RegionList W} {info : ElfInfo} (cmdline : Nat)
    {ph : ProgramHeader} {loads : List ProgramHeader} (sorted : Ascending sysalloc.reg)
    (takes : TakesSegments l (ph :: loads)) (isLoad : ph.isLoad = true) (two : 2 ≤ ph.memsz)
    (small : ph.memsz < W.modulus)
    (inside : W.add ph.paddr info.offset + ph.memsz ≤ W.modulus)
    (inSysalloc : ∃ s ∈ sysalloc.reg, s.begin ≤ W.add ph.paddr info.offset ∧
      W.add ph.paddr info.offset + ph.memsz - 1 ≤ s.last)
    (free : ∀ r ∈ l.reg, r.isTemporary = false → r.last < W.add ph.paddr info.offset ∨
      W.add ph.paddr info.offset + ph.memsz - 1 < r.begin) :
    ∃ n next, segmentRegion info ph.phdr cmdline = .ok n ∧
      n.begin = W.add ph.paddr info.offset ∧
      n.last = W.add ph.paddr info.offset + ph.memsz - 1 ∧
      l4ExecAddRegion sysalloc l info ph.phdr cmdline = .ok next ∧
      next.reg.Perm (n :: l.reg) ∧ TakesSegments next loads := by
  obtain ⟨address, combined, room, word, counts⟩ := takes
  have maxWord : W.maxWord = W.modulus - 1 := rfl
  obtain ⟨n, made, begins, ends⟩ := @segment_region_made W info ph cmdline (by omega) inside
  have bounded := n.bounded
  have size : n.size = ph.memsz := by
    rw [Region.size_eq (by omega)]
    omega
  have load : ph.phdr.load = true := by
    simp only [ProgramHeader.isLoad, Bool.and_eq_true] at isLoad
    exact isLoad.1
  have none : findRegionOverlap l n = none := by
    rw [find_region_overlap_none]
    intro r member lasting
    rw [Region.overlaps_eq_false_iff]
    have := free r member lasting
    omega
  obtain ⟨r, found, contains⟩ := sysalloc_find sorted
    (show ∃ s ∈ sysalloc.reg, s.begin ≤ n.begin ∧ n.last ≤ s.last by rw [begins, ends]; exact inSysalloc)
  have counted := counts [] ph loads rfl
  rw [List.map_nil, List.sum_nil, Nat.add_zero, Nat.mod_eq_of_lt word] at counted
  have sum := W.add_lt l.combinedSize n.size
  rw [List.length_cons] at room
  have limits : l.InLimit n := ⟨by omega, by omega, by omega⟩
  obtain ⟨reg, inserted, perm⟩ := RegionList.insert_permitted n l.reg
  have added := RegionList.add_eq_insert true (by omega) limits (by omega)
  rw [inserted, ok_bind] at added
  refine ⟨n, { l with reg := reg, combinedSize := W.add l.combinedSize n.size }, made,
    begins, ends, ?_, perm, ?_⟩
  · have nonempty : ¬ ph.phdr.memsz = 0 := by
      change ¬ ph.memsz = 0
      omega
    rw [l4ExecAddRegion, if_neg nonempty, if_neg (by simp [load]), made, ok_bind]
    simp only [none, Option.isSome_none, Bool.false_eq_true, if_false, found, contains, if_true]
    exact added
  · refine ⟨address, combined, ?_, sum, ?_⟩
    · simp only [perm.length_eq, List.length_cons]
      omega
    · intro front other back split
      have later := counts (ph :: front) other back (by rw [split, List.cons_append])
      rw [List.map_cons, List.sum_cons, ← Nat.add_assoc] at later
      change (W.add l.combinedSize n.size + _) % W.modulus < W.maxWord
      rw [Wordsize.add, Nat.mod_add_mod, size]
      exact later

theorem add_region_skip {sysalloc l : RegionList W} {info : ElfInfo} {cmdline : Nat}
    {ph : ProgramHeader} (noLoad : ph.isLoad = false) :
    l4ExecAddRegion sysalloc l info ph.phdr cmdline = .ok l := by
  rw [l4ExecAddRegion]
  split_ifs with empty load
  · rfl
  · rfl
  · have isLoad : ph.isLoad = true := by
      simp only [ProgramHeader.isLoad, Bool.and_eq_true, decide_eq_true_eq]
      exact ⟨by simpa [ProgramHeader.phdr] using load, empty⟩
    rw [isLoad] at noLoad
    cases noLoad

/-- All segments, at one offset. -/
theorem add_segments {sysalloc l : RegionList W} {info : ElfInfo} {cmdline : Nat}
    {phdrs : List ProgramHeader} (sorted : Ascending sysalloc.reg)
    (formed : SegmentsFormed W (loadsOf phdrs)) (takes : TakesSegments l (loadsOf phdrs))
    (offsetWord : info.offset < W.modulus) (two : ∀ ph ∈ loadsOf phdrs, 2 ≤ ph.memsz)
    (inside : ∀ ph ∈ loadsOf phdrs, W.add ph.paddr info.offset + ph.memsz ≤ W.modulus)
    (inSysalloc : ∀ ph ∈ loadsOf phdrs, ∃ s ∈ sysalloc.reg,
      s.begin ≤ W.add ph.paddr info.offset ∧
        W.add ph.paddr info.offset + ph.memsz - 1 ≤ s.last)
    (free : ∀ ph ∈ loadsOf phdrs, ∀ r ∈ l.reg, r.isTemporary = false →
      r.last < W.add ph.paddr info.offset ∨
        W.add ph.paddr info.offset + ph.memsz - 1 < r.begin) :
    ∃ result, phdrs.foldlM (fun l ph => l4ExecAddRegion sysalloc l info ph.phdr cmdline) l =
        .ok result ∧ SegmentsReserved info cmdline (loadsOf phdrs) l result := by
  induction phdrs generalizing l with
  | nil => exact ⟨l, rfl, by simp [loadsOf], fun r member => member, fun r member => .inl member⟩
  | cons ph rest ih =>
      rw [List.foldlM_cons]
      cases isLoad : ph.isLoad with
      | false =>
          have loads : loadsOf (ph :: rest) = loadsOf rest :=
            List.filter_cons_of_neg (by simp [isLoad])
          rw [loads] at formed takes two inside inSysalloc free ⊢
          rw [add_region_skip isLoad, ok_bind]
          exact ih formed takes two inside inSysalloc free
      | true =>
          have loads : loadsOf (ph :: rest) = ph :: loadsOf rest :=
            List.filter_cons_of_pos isLoad
          rw [loads] at formed takes two inside inSysalloc free ⊢
          obtain ⟨disjoint, insides, smalls, aligned⟩ := formed
          obtain ⟨phDisjoint, restDisjoint⟩ := List.pairwise_cons.mp disjoint
          obtain ⟨n, next, made, begins, ends, added, perm, nextTakes⟩ :=
            add_one_segment cmdline sorted takes isLoad (two ph (by simp)) (smalls ph (by simp))
              (inside ph (by simp)) (inSysalloc ph (by simp)) (free ph (by simp))
          have members : ∀ r, r ∈ next.reg ↔ r = n ∨ r ∈ l.reg := by
            intro r
            rw [perm.mem_iff, List.mem_cons]
          obtain ⟨result, done, reserved, kept, noMore⟩ := ih
            ⟨restDisjoint, fun o member => insides o (by simp [member]),
              fun o member => smalls o (by simp [member]),
              fun o member => aligned o (by simp [member])⟩ nextTakes
            (fun o member => two o (by simp [member]))
            (fun o member => inside o (by simp [member]))
            (fun o member => inSysalloc o (by simp [member])) (by
              intro o member r inNext lasting
              rcases (members r).mp inNext with rfl | old
              · have phTwo := two ph (by simp)
                have oTwo := two o (by simp [member])
                have apart := shifted_disjoint offsetWord (insides ph (by simp))
                  (insides o (by simp [member])) (by omega) (by omega) (phDisjoint o member)
                omega
              · exact free o (by simp [member]) r old lasting)
          refine ⟨result, by rw [added, ok_bind, done], ?_, ?_, ?_⟩
          · intro o member
            rcases List.mem_cons.mp member with rfl | inRest
            · exact ⟨n, kept n ((members n).mpr (.inl rfl)), made⟩
            · exact reserved o inRest
          · exact fun r member => kept r ((members r).mpr (.inr member))
          · intro r member
            rcases noMore r member with inNext | ⟨o, inRest, isRegion⟩
            · rcases (members r).mp inNext with rfl | old
              · exact .inr ⟨ph, by simp, made⟩
              · exact .inl old
            · exact .inr ⟨o, by simp [inRest], isRegion⟩

/-! ## Loading -/

theorem rename_first_found {o : Region W} (name : Name) {reg : List (Region W)} {r : Region W}
    (member : r ∈ reg) (overlap : r.overlaps o = true) :
    ∃ renamed, renameFirst o name reg = some renamed := by
  induction reg with
  | nil => cases member
  | cons first rest ih =>
      rw [renameFirst]
      split_ifs with here
      · exact ⟨_, rfl⟩
      · rcases List.mem_cons.mp member with rfl | inRest
        · exact absurd overlap here
        · obtain ⟨renamed, found⟩ := ih inRest
          exact ⟨first :: renamed, by rw [found]; rfl⟩

/-- The bytes of the file, and zeros behind them, in exactly the range of the
segment. -/
def LoadsSegment (W : Wordsize) (mod : ElfModule) (offset : Nat) (ph : ProgramHeader)
    (before after : Bytes) : Prop :=
  ∀ a, after a =
    if W.add ph.paddr offset ≤ a ∧ a < W.add ph.paddr offset + ph.memsz then
      if a < W.add ph.paddr offset + ph.filesz then
        before (W.add mod.start ph.offset + (a - W.add ph.paddr offset))
      else 0
    else before a

theorem load_segment {m : Memory W} {mod : ElfModule} {offset : Nat} {ph : ProgramHeader}
    {regions : RegionList W} (isLoad : ph.isLoad = true) (whole : ph.filesz ≤ ph.memsz)
    (placed : Placed m (W.add ph.paddr offset) ph.memsz)
    (reserved : ∃ r ∈ regions.reg, r.begin ≤ W.add ph.paddr offset ∧
      W.add ph.paddr offset ≤ r.last) (bytes : Bytes) :
    ∃ after reg, l4ExecReadExec m.ram m.sysalloc mod offset (bytes, regions) ph =
        .ok (after, { regions with reg := reg }) ∧ LoadsSegment W mod offset ph bytes after := by
  have parts : ph.type = .load ∧ ph.memsz ≠ 0 := by
    simpa [ProgramHeader.isLoad] using isLoad
  have inside := placed.inside
  obtain ⟨r, made, begins, ends, _⟩ :=
    @Region.start_size_of_fits W (W.add ph.paddr offset) ph.memsz {} (by omega) placed.inside
  have inSysalloc : (m.sysalloc.containing r).isNone = false := by
    rw [containing_iff, begins, ends]
    exact placed.sysalloc
  have inRam : (m.ram.containing r).isNone = false := by
    rw [containing_iff, begins, ends]
    exact placed.ram
  obtain ⟨entry, member, low, high⟩ := reserved
  have atAddress : entry.overlaps (Region.ofAddress (W.add ph.paddr offset)) = true := by
    rw [Region.overlaps_iff]
    simp only [Region.ofAddress, Nat.mod_eq_of_lt (W.add_lt ph.paddr offset)]
    exact ⟨high, low⟩
  obtain ⟨renamed, found⟩ := rename_first_found
    (if mod.cmdline = 0 then .literal ".[Unknown]" else .cmdline mod.cmdline) member atAddress
  unfold l4ExecReadExec
  rw [if_neg parts.2, if_neg (not_not.mpr parts.1)]
  simp only [made, ok_bind, inSysalloc, inRam, Bool.or_self, Bool.false_eq_true, if_false, found]
  refine ⟨_, renamed, rfl, ?_⟩
  intro a
  by_cases padded : ph.filesz < ph.memsz
  · have behind : W.add (W.add ph.paddr offset) ph.filesz = W.add ph.paddr offset + ph.filesz :=
      W.add_of_lt (by omega)
    rw [if_pos padded, behind, memset, memmove]
    split_ifs <;> first | rfl | omega
  · rw [if_neg padded, memmove]
    split_ifs <;> first | rfl | omega

/-! ## Relocation -/

/-- The search for the sections from `start` to `last` is sound: their size is a
word, and each of the two searches that is made has a free spot to find or never
leaves the address space. -/
structure SearchSound (m : Memory W) (type : RegionType) (returnAddress node start last align : Nat) :
    Prop where
  size : last - start + 1 < W.modulus
  returnWord : returnAddress < W.modulus
  steps : (∃ t, m.FreeSpot (roundUp align (last - start + 1))
        (if type = .kernel then returnAddress else 0) W.maxWord align node t) ∨
      (m.StepsStayInside (roundUp align (last - start + 1))
          (if type = .kernel then returnAddress else 0) W.maxWord align node ∧
        ((∃ t, m.FreeSpot (roundUp align (last - start + 1)) 0 W.maxWord align node t) ∨
          m.StepsStayInside (roundUp align (last - start + 1)) 0 W.maxWord align node))

theorem find_sections_spot {m : Memory W} {type : RegionType} {returnAddress node k : Nat}
    {si : SectionInfo W} (ramSorted : Ascending m.ram.reg) (sysSorted : Ascending m.sysalloc.reg)
    (narrows : m.Narrows) (isAlign : si.align = 2 ^ k) (small : k < W.bits)
    (order : si.start < si.last) (lastWord : si.last < W.modulus)
    (sound : SearchSound m type returnAddress node si.start si.last k) :
    findSections m type returnAddress node si = panic "Not enough free memory to load binary" ∨
      ∃ addr least, findSections m type returnAddress node si = .ok addr ∧
        m.FreeSpot (roundUp k (si.last - si.start + 1)) least W.maxWord k node addr := by
  obtain ⟨size, returnWord, steps⟩ := sound
  have maxWord : W.maxWord = W.modulus - 1 := rfl
  have modulusGe := W.modulus_ge
  have bytesLe := W.bytes_le
  have isSize : W.add (W.sub si.last si.start) 1 = si.last - si.start + 1 := by
    rw [W.sub_of_le order.le lastWord, W.add_of_lt size]
  have shift : si.align.log2 = k := by rw [isAlign, Nat.log2_two_pow]
  have search : ∀ least, least < W.modulus →
      (∃ t, m.FreeSpot (roundUp k (si.last - si.start + 1)) least W.maxWord k node t) ∨
        m.StepsStayInside (roundUp k (si.last - si.start + 1)) least W.maxWord k node →
      ∃ t, m.findFreeRam (si.last - si.start + 1) least W.maxWord k node = .ok t ∧
        LowestOrZero (m.FreeSpot (roundUp k (si.last - si.start + 1)) least W.maxWord k node) t := by
    intro least word steps
    exact Memory.find_free_ram_from_lowest small.le (by omega) sysSorted narrows (by omega)
      m.ram.reg (max least W.bytes) ramSorted (fun rr member => member) (.inl rfl) steps
  unfold findSections
  simp only [isSize, shift]
  have second : (∃ t, m.FreeSpot (roundUp k (si.last - si.start + 1)) 0 W.maxWord k node t) ∨
        m.StepsStayInside (roundUp k (si.last - si.start + 1)) 0 W.maxWord k node →
      (do
        let addr ← m.findFreeRam (si.last - si.start + 1) 0 W.maxWord k node
        if addr = 0 then panic "Not enough free memory to load binary" else .ok addr) =
          panic "Not enough free memory to load binary" ∨
      ∃ addr least, (do
        let addr ← m.findFreeRam (si.last - si.start + 1) 0 W.maxWord k node
        if addr = 0 then panic "Not enough free memory to load binary" else .ok addr) = .ok addr ∧
        m.FreeSpot (roundUp k (si.last - si.start + 1)) least W.maxWord k node addr := by
    intro steps
    obtain ⟨addr, found, answer⟩ := search 0 (by omega) steps
    rw [found, ok_bind]
    by_cases zero : addr = 0
    · exact .inl (if_pos zero)
    · exact .inr ⟨addr, 0, if_neg zero, (answer.2 zero).1⟩
  have leastWord : (if type = .kernel then returnAddress else 0) < W.modulus := by
    split_ifs <;> omega
  obtain ⟨addr, found, answer⟩ := search _ leastWord (steps.imp id And.left)
  rw [found, ok_bind]
  by_cases zero : addr = 0
  · rw [if_neg (not_not.mpr zero)]
    apply second
    rcases steps with ⟨t, spot⟩ | ⟨_, later⟩
    · exact absurd spot (answer.1 zero t)
    · exact later
  · rw [if_pos zero, ok_bind, if_neg zero]
    exact .inr ⟨addr, _, rfl, (answer.2 zero).1⟩

/-- Where the segments go when the lowest one, rounded down, is moved to a free
spot. -/
theorem relocated_placed {m : Memory W} {size least start align node addr paddr memsz : Nat}
    (spot : m.FreeSpot size least W.maxWord align node addr) (low : start ≤ paddr)
    (fits : paddr - start + memsz ≤ size) (pos : 0 < memsz) (startWord : start < W.modulus) :
    W.add paddr (W.sub addr start) = addr + (paddr - start) ∧
      Placed m (addr + (paddr - start)) memsz := by
  obtain ⟨rr, inRam, ⟨ramLow, ramHigh⟩, _⟩ := spot.ram
  obtain ⟨s, inSysalloc, sysLow, sysHigh⟩ := spot.sysalloc
  have bounded := rr.bounded
  constructor
  · have sum : paddr + (addr + W.modulus - start) = addr + (paddr - start) + W.modulus := by omega
    rw [Wordsize.add, Wordsize.sub, Nat.add_mod_mod, sum, Nat.add_mod_right,
      Nat.mod_eq_of_lt (by omega)]
  · refine ⟨by omega, ⟨rr, inRam, by omega, by omega⟩, ⟨s, inSysalloc, by omega, by omega⟩, ?_⟩
    intro r member _
    have apart := spot.free r member
    omega

/-- The offset that is decided on, and what the rest of the function relies on. -/
structure OffsetFits (m : Memory W) (loads : List ProgramHeader) (minAlign : Nat)
    (si : SectionInfo W) (offset : Nat) : Prop where
  word : offset < W.modulus
  placed : ∀ ph ∈ loads, Placed m (W.add ph.paddr offset) ph.memsz
  aligned : ∀ ph ∈ loads, ph.align ∣ offset
  minAligned : minAlign ≠ 0 → minAlign ∣ offset
  extent : loads ≠ [] → W.add si.start offset ≤ W.add si.last offset

theorem highest_word {loads : List ProgramHeader} (formed : SegmentsFormed W loads)
    (pos : ∀ ph ∈ loads, 0 < ph.memsz) : highest 0 loads < W.modulus := by
  apply highest_lt W.modulus_pos
  intro ph member
  have := formed.inside ph member
  have := pos ph member
  unfold ProgramHeader.last
  omega

theorem unmoved_fits {m : Memory W} {loads : List ProgramHeader} {minAlign : Nat}
    {si : SectionInfo W} (formed : SegmentsFormed W loads)
    (placed : ∀ ph ∈ loads, Placed m ph.paddr ph.memsz) (pos : ∀ ph ∈ loads, 0 < ph.memsz)
    (start : si.start = lowest W.maxWord loads) (last : si.last = highest 0 loads) :
    OffsetFits m loads minAlign si 0 := by
  have modulusPos := W.modulus_pos
  refine ⟨W.modulus_pos, ?_, fun _ _ => Nat.dvd_zero _, fun _ => Nat.dvd_zero _, ?_⟩
  · intro ph member
    have inside := formed.inside ph member
    have := pos ph member
    rw [W.add_of_lt (by omega)]
    exact placed ph member
  · intro nonempty
    obtain ⟨ph, member⟩ := List.exists_mem_of_ne_nil loads nonempty
    have low := (lowest_le W.maxWord).2 ph member
    have high := (le_highest 0).2 ph member
    have bound := highest_word formed pos
    have := pos ph member
    unfold ProgramHeader.last at high
    rw [start, last, W.add_of_lt (by omega), W.add_of_lt (by omega)]
    omega

theorem lowest_lt_highest {loads : List ProgramHeader} (two : ∀ ph ∈ loads, 2 ≤ ph.memsz)
    (nonempty : loads ≠ []) : lowest W.maxWord loads < highest 0 loads := by
  obtain ⟨ph, member⟩ := List.exists_mem_of_ne_nil loads nonempty
  have low := (lowest_le W.maxWord).2 ph member
  have high := (le_highest 0).2 ph member
  have := two ph member
  unfold ProgramHeader.last at high
  omega

/-- The alignment for the search is a power of two that all others divide. -/
theorem search_align {loads : List ProgramHeader} {minAlign : Nat}
    (formed : SegmentsFormed W loads) (minPow : minAlign = 0 ∨ ∃ k < W.bits, minAlign = 2 ^ k) :
    ∃ k < W.bits, max (largestAlign 1 loads) minAlign = 2 ^ k ∧
      (∀ ph ∈ loads, ph.align ∣ 2 ^ k) ∧ (minAlign ≠ 0 → minAlign ∣ 2 ^ k) := by
  have bitsPos : 0 < W.bits := by cases W <;> decide
  obtain ⟨n, nSmall, isLargest, _, each⟩ := largest_align_pow bitsPos formed.aligned
  rw [Nat.pow_zero] at isLargest
  rcases minPow with rfl | ⟨j, jSmall, rfl⟩
  · exact ⟨n, nSmall, by rw [isLargest, Nat.max_zero], each, fun nonzero => absurd rfl nonzero⟩
  · refine ⟨max n j, by omega, ?_, ?_, fun _ => pow_dvd_pow 2 (by omega)⟩
    · rw [isLargest]
      exact (pow_right_mono₀ (show 1 ≤ 2 by decide)).map_max.symm
    · exact fun ph member => (each ph member).trans (pow_dvd_pow 2 (by omega))

/-- `si.start &= ~(si.align - 1U)`. -/
theorem mask_start (start : Nat) {k : Nat} (small : k < W.bits) :
    start - (start &&& W.sub (2 ^ k) 1) = truncSize k start := by
  have pos := Nat.two_pow_pos k
  rw [W.sub_of_le (by omega) (Nat.pow_lt_pow_right (by decide) small), Nat.and_two_pow_sub_one_eq_mod,
    truncSize]

/-- The sections at a free spot. -/
theorem moved_fits {m : Memory W} {loads : List ProgramHeader} {minAlign k least node addr : Nat}
    {si : SectionInfo W} (formed : SegmentsFormed W loads) (two : ∀ ph ∈ loads, 2 ≤ ph.memsz)
    (small : k < W.bits) (start : si.start = truncSize k (lowest W.maxWord loads))
    (last : si.last = highest 0 loads) (order : si.start < si.last)
    (each : ∀ ph ∈ loads, ph.align ∣ 2 ^ k) (minDvd : minAlign ≠ 0 → minAlign ∣ 2 ^ k)
    (spot : m.FreeSpot (roundUp k (si.last - si.start + 1)) least W.maxWord k node addr) :
    OffsetFits m loads minAlign si (W.sub addr si.start) := by
  have pos : ∀ ph ∈ loads, 0 < ph.memsz := fun ph member => by
    have := two ph member
    omega
  have fits := le_round_up k (si.last - si.start + 1)
  have startLe := trunc_size_le k (lowest W.maxWord loads)
  have lastWord := highest_word formed pos
  have startWord : si.start < W.modulus := by omega
  have startDvd : 2 ^ k ∣ si.start := by
    rw [start]
    exact dvd_trunc_size _ _
  have modulusDvd : 2 ^ k ∣ W.modulus := W.pow_dvd_modulus small.le
  have aligned : 2 ^ k ∣ W.sub addr si.start :=
    (Nat.dvd_mod_iff modulusDvd).mpr (Nat.dvd_sub (Nat.dvd_add spot.aligned modulusDvd) startDvd)
  refine ⟨W.sub_lt _ _, ?_, fun ph member => (each ph member).trans aligned,
    fun nonzero => (minDvd nonzero).trans aligned, ?_⟩
  · intro ph member
    have low := (lowest_le W.maxWord).2 ph member
    have high := (le_highest 0).2 ph member
    have := pos ph member
    unfold ProgramHeader.last at high
    obtain ⟨isAddr, placed⟩ := @relocated_placed W m _ least si.start k node addr ph.paddr ph.memsz
      spot (by omega) (by omega) (by omega) startWord
    rw [isAddr]
    exact placed
  · intro _
    have begins := (@relocated_placed W m _ least si.start k node addr si.start 1 spot le_rfl
      (by omega) (by omega) startWord).1
    have ends := (@relocated_placed W m _ least si.start k node addr si.last 1 spot order.le
      (by omega) (by omega) startWord).1
    rw [begins, ends]
    omega

theorem relocate_sections_fits {m : Memory W} {type : RegionType}
    {returnAddress node minAlign : Nat} {loads : List ProgramHeader} {si : SectionInfo W}
    (formed : SegmentsFormed W loads) (two : ∀ ph ∈ loads, 2 ≤ ph.memsz)
    (minPow : minAlign = 0 ∨ ∃ k < W.bits, minAlign = 2 ^ k)
    (ramSorted : Ascending m.ram.reg) (sysSorted : Ascending m.sysalloc.reg) (narrows : m.Narrows)
    (start : si.start = lowest W.maxWord loads) (last : si.last = highest 0 loads)
    (align : si.align = largestAlign 1 loads)
    (placed : si.needsRelocation = false → ∀ ph ∈ loads, Placed m ph.paddr ph.memsz)
    (decided : si.needsRelocation = false ∨ si.hasDynamic = true)
    (search : si.needsRelocation = true → loads ≠ [] → ∀ k,
      max (largestAlign 1 loads) minAlign = 2 ^ k →
        SearchSound m type returnAddress node (truncSize k (lowest W.maxWord loads))
          (highest 0 loads) k) :
    relocateSections m type returnAddress node minAlign si =
        panic "Not enough free memory to load binary" ∨
      ∃ moved offset, relocateSections m type returnAddress node minAlign si = .ok (moved, offset) ∧
        OffsetFits m loads minAlign moved offset := by
  have pos : ∀ ph ∈ loads, 0 < ph.memsz := fun ph member => by
    have := two ph member
    omega
  unfold relocateSections
  by_cases moves : (si.needsRelocation && si.hasDynamic && decide (si.start < si.last)) = true
  · rw [if_pos moves]
    rw [Bool.and_eq_true, Bool.and_eq_true, decide_eq_true_eq] at moves
    obtain ⟨⟨needs, _⟩, order⟩ := moves
    have nonempty : loads ≠ [] := by
      rintro rfl
      rw [start, last] at order
      exact absurd order (Nat.not_lt_zero _)
    obtain ⟨k, small, isAlign, each, minDvd⟩ := search_align formed minPow
    have sound := search needs nonempty k isAlign
    simp only [align, isAlign, mask_start si.start small]
    have movedOrder : truncSize k si.start < si.last :=
      lt_of_le_of_lt (trunc_size_le k si.start) order
    have movedStart : truncSize k si.start = truncSize k (lowest W.maxWord loads) := by rw [start]
    generalize isMoved : ({ si with start := truncSize k si.start, align := 2 ^ k } : SectionInfo W) =
      moved
    have startEq : moved.start = truncSize k si.start := by rw [← isMoved]
    have lastEq : moved.last = si.last := by rw [← isMoved]
    have alignEq : moved.align = 2 ^ k := by rw [← isMoved]
    rw [← startEq] at movedOrder movedStart ⊢
    rw [← lastEq] at last movedOrder
    rw [← movedStart, ← last] at sound
    have lastWord : moved.last < W.modulus := by
      rw [last]
      exact highest_word formed pos
    rcases find_sections_spot ramSorted sysSorted narrows alignEq small movedOrder lastWord sound with
      exhausted | ⟨addr, least, isAddr, spot⟩
    · left
      rw [exhausted]
      rfl
    · right
      refine ⟨moved, W.sub addr moved.start, by rw [isAddr, ok_bind], ?_⟩
      exact moved_fits formed two small movedStart last movedOrder each minDvd spot
  · rw [if_neg moves]
    refine .inr ⟨si, 0, rfl, unmoved_fits formed ?_ pos start last⟩
    cases needs : si.needsRelocation with
    | false => exact placed needs
    | true =>
        have dynamic : si.hasDynamic = true := by simpa [needs] using decided
        intro ph member
        have order := @lowest_lt_highest W loads two (List.ne_nil_of_mem member)
        rw [← start, ← last] at order
        exact absurd (by simp [needs, dynamic, order]) moves

/-! ## The three passes together -/

/-- The headers that `exec_load_elf` hands out. -/
def ElfFile.used (elf : ElfFile) : List ProgramHeader := elf.phdrs.filter fun ph => ph.type ≠ .null

theorem loads_used (elf : ElfFile) : loadsOf elf.used = elf.loads := by
  unfold ElfFile.used ElfFile.loads loadsOf
  rw [List.filter_filter]
  apply List.filter_congr
  intro ph _
  cases isLoad : ph.isLoad with
  | false => rfl
  | true =>
      have load : ph.type = .load := by
        simp only [ProgramHeader.isLoad, Bool.and_eq_true, decide_eq_true_eq] at isLoad
        exact isLoad.1
      simp [load]

/-- The decision that the segments stay, or that they can be moved. -/
def Decided (m : Memory W) (mod : ElfModule) : Prop :=
  (mod.reloc = false ∧ ∀ ph ∈ mod.elf.loads, Placed m ph.paddr ph.memsz) ∨
    ∃ ph ∈ mod.elf.phdrs, ph.isDynamic = true

/-- What placing and loading rely on: no segment of one byte, no file part
longer than the segment, a list that takes all segments, and, if the sections
have to be moved, a sound search. -/
structure Loadable (m : Memory W) (mod : ElfModule) (type : RegionType)
    (returnAddress node minAlign : Nat) : Prop where
  nonempty : type = .kernel → mod.elf.loads ≠ []
  two : ∀ ph ∈ mod.elf.loads, 2 ≤ ph.memsz
  whole : ∀ ph ∈ mod.elf.loads, ph.filesz ≤ ph.memsz
  takes : TakesSegments m.regions mod.elf.loads
  search : ¬ (mod.reloc = false ∧ ∀ ph ∈ mod.elf.loads, Placed m ph.paddr ph.memsz) →
    mod.elf.loads ≠ [] → ∀ k, max (largestAlign 1 mod.elf.loads) minAlign = 2 ^ k →
      SearchSound m type returnAddress node (truncSize k (lowest W.maxWord mod.elf.loads))
        (highest 0 mod.elf.loads) k

/-- Placement, reservation and loading agree on one offset. -/
structure Agrees (m : Memory W) (mod : ElfModule) (type : RegionType) (minAlign offset : Nat)
    (regions : RegionList W) : Prop where
  placed : ∀ ph ∈ mod.elf.loads, Placed m (W.add ph.paddr offset) ph.memsz
  aligned : ∀ ph ∈ mod.elf.loads, ph.align ∣ offset
  minAligned : minAlign ≠ 0 → minAlign ∣ offset
  reserved : SegmentsReserved ⟨type, offset⟩ mod.cmdline mod.elf.loads m.regions regions
  loaded : ∀ ph ∈ mod.elf.loads, ∀ later : RegionList W,
    (∀ r ∈ regions.reg, ∃ o ∈ later.reg, o.begin ≤ r.begin ∧ r.last ≤ o.last) → ∀ bytes,
      ∃ after reg, l4ExecReadExec m.ram m.sysalloc mod offset (bytes, later) ph =
          .ok (after, { later with reg := reg }) ∧ LoadsSegment W mod offset ph bytes after

theorem exec_load_elf_used {σ : Type} {handler : σ → ProgramHeader → Checked σ} {elf : ElfFile}
    (magic : elf.magic = true) (arch : elf.arch = true) (failed : String → String) (state : σ) :
    execLoadElf handler elf failed state = elf.used.foldlM handler state := by
  rw [execLoadElf, magic, arch]
  rfl

theorem dynamic_used (elf : ElfFile) :
    (∃ ph ∈ elf.used, ph.isDynamic = true) ↔ ∃ ph ∈ elf.phdrs, ph.isDynamic = true := by
  constructor
  · rintro ⟨ph, member, dynamic⟩
    exact ⟨ph, (List.mem_filter.mp member).1, dynamic⟩
  · rintro ⟨ph, member, dynamic⟩
    refine ⟨ph, List.mem_filter.mpr ⟨member, ?_⟩, dynamic⟩
    simp only [ProgramHeader.isDynamic, Bool.and_eq_true, decide_eq_true_eq] at dynamic
    simp [dynamic.1]

/-- The decision and the offset. -/
theorem gather_and_relocate {m : Memory W} {mod : ElfModule} {type : RegionType}
    {returnAddress node minAlign : Nat} (formed : SegmentsFormed W mod.elf.loads)
    (minPow : minAlign = 0 ∨ ∃ k < W.bits, minAlign = 2 ^ k)
    (ramSorted : Ascending m.ram.reg) (sysSorted : Ascending m.sysalloc.reg) (narrows : m.Narrows)
    (decided : Decided m mod) (loadable : Loadable m mod type returnAddress node minAlign) :
    ∃ si, mod.elf.used.foldlM (l4ExecGatherInfo m) { needsRelocation := mod.reloc } = .ok si ∧
      (relocateSections m type returnAddress node minAlign si =
          panic "Not enough free memory to load binary" ∨
        ∃ moved offset, relocateSections m type returnAddress node minAlign si =
            .ok (moved, offset) ∧ OffsetFits m mod.elf.loads minAlign moved offset) := by
  have loads := loads_used mod.elf
  obtain ⟨si, gathered, start, last, align, dynamic, needs⟩ := @gather_all W m mod.elf.used
    (by rw [loads]; exact formed.inside) { needsRelocation := mod.reloc }
  rw [loads] at start last align needs
  refine ⟨si, gathered, relocate_sections_fits formed loadable.two minPow ramSorted sysSorted narrows
    start last align (fun stays => (needs.mp stays).2) ?_ ?_⟩
  · rcases decided with stay | isDynamic
    · exact .inl (needs.mpr stay)
    · exact .inr (dynamic.mpr (.inr ((dynamic_used mod.elf).mpr isDynamic)))
  · intro moves
    apply loadable.search
    intro stay
    rw [needs.mpr stay] at moves
    cases moves

theorem add_elf_regions_agree {m : Memory W} {announce : Region W → Checked Unit} {mod : ElfModule}
    {type : RegionType} {returnAddress node minAlign : Nat}
    (magic : mod.elf.magic = true) (arch : mod.elf.arch = true)
    (formed : SegmentsFormed W mod.elf.loads)
    (minPow : minAlign = 0 ∨ ∃ k < W.bits, minAlign = 2 ^ k)
    (ramSorted : Ascending m.ram.reg) (sysSorted : Ascending m.sysalloc.reg) (narrows : m.Narrows)
    (announced : ∀ area, announce area = .ok ()) (decided : Decided m mod)
    (loadable : Loadable m mod type returnAddress node minAlign) :
    addElfRegions m announce mod type returnAddress node minAlign =
        panic "Not enough free memory to load binary" ∨
      ∃ offset regions, addElfRegions m announce mod type returnAddress node minAlign =
          .ok (offset, regions) ∧ Agrees m mod type minAlign offset regions := by
  obtain ⟨si, gathered, outcome⟩ :=
    gather_and_relocate formed minPow ramSorted sysSorted narrows decided loadable
  unfold addElfRegions
  rw [exec_load_elf_used magic arch, gathered, ok_bind]
  rcases outcome with exhausted | ⟨moved, offset, relocated, fits⟩
  · left
    rw [exhausted]
    rfl
  right
  obtain ⟨word, placed, aligned, minAligned, extent⟩ := fits
  have loads := loads_used mod.elf
  obtain ⟨regions, added, reserved⟩ := @add_segments W m.sysalloc m.regions ⟨type, offset⟩ mod.cmdline
    mod.elf.used sysSorted (by rw [loads]; exact formed) (by rw [loads]; exact loadable.takes) word
    (by rw [loads]; exact loadable.two) (by rw [loads]; exact fun ph member => (placed ph member).inside)
    (by rw [loads]; exact fun ph member => (placed ph member).sysalloc)
    (by rw [loads]; exact fun ph member => (placed ph member).free)
  rw [loads] at reserved
  refine ⟨offset, regions, ?_, placed, aligned, minAligned, reserved, ?_⟩
  · rw [relocated, ok_bind]
    simp only [exec_load_elf_used magic arch, added, ok_bind]
    by_cases kernel : type = .kernel
    · have made : Region.make (W.add moved.start offset) (W.add moved.last offset) {} =
          .ok (⟨_, _, {}, extent (loadable.nonempty kernel), W.add_lt _ _⟩ : Region W) :=
        Region.make_ok.mpr ⟨rfl, rfl, rfl⟩
      rw [if_pos kernel, made, ok_bind, announced, ok_bind]
    · rw [if_neg kernel]
  · intro ph member later covers bytes
    have isLoad : ph.isLoad = true := (List.mem_filter.mp member).2
    obtain ⟨n, inRegions, made⟩ := reserved.reserved ph member
    obtain ⟨_, begins, _⟩ := Region.start_size_ok.mp made
    obtain ⟨o, inLater, low, high⟩ := covers n inRegions
    have ordered := n.ordered
    change n.begin = W.add ph.paddr offset at begins
    exact load_segment isLoad (loadable.whole ph member) (placed ph member)
      ⟨o, inLater, by omega, by omega⟩ bytes

/-- RAM at both ends of the address space, with a page of it taken. -/
def takenPage : Memory .w32 where
  ram := ⟨[.fixed 0x1000 0xffff {} (.refl true),
      .fixed 0xfff00000 0xffffffff {} (.refl true)], 16, Wordsize.w32.maxWord,
    Wordsize.w32.maxWord, 0x10f000⟩
  sysalloc := ⟨[.fixed 0x1000 0xffffffff {} (.refl true)], 16, Wordsize.w32.maxWord,
    Wordsize.w32.maxWord, 0xfffff000⟩
  regions := ⟨[.fixed 0x2000 0x2fff { type := .boot } (.refl true)], 300, Wordsize.w32.maxWord,
    Wordsize.w32.maxWord, 0x1000⟩
  validate := none

/-- A relocatable root task whose first segment is linked to the taken page. -/
def twoSegments : ElfModule where
  elf :=
    { magic := true
      arch := true
      phdrs := [⟨.load, false, true, 0x1000, 0x2000, 0x1000, 0x1000, 0x1000⟩,
        ⟨.load, true, false, 0x2000, 0x4000, 0x400, 0x800, 0x1000⟩,
        ⟨.dynamic, true, false, 0x2000, 0x4000, 0x100, 0x100, 8⟩] }
  start := 0x8000
  cmdline := 0x7000
  reloc := false

theorem two_segments_loads : twoSegments.elf.loads =
    [⟨.load, false, true, 0x1000, 0x2000, 0x1000, 0x1000, 0x1000⟩,
      ⟨.load, true, false, 0x2000, 0x4000, 0x400, 0x800, 0x1000⟩] := by
  decide

theorem two_segments_formed : SegmentsFormed .w32 twoSegments.elf.loads := by
  rw [two_segments_loads]
  refine ⟨by decide, by decide, by decide, ?_⟩
  intro ph member
  refine ⟨12, by decide, ?_⟩
  rcases List.mem_cons.mp member with rfl | isData
  · rfl
  · rw [List.mem_singleton.mp isData]
    rfl

theorem taken_page_search :
    SearchSound takenPage .root 0 0 (truncSize 12 (lowest Wordsize.w32.maxWord twoSegments.elf.loads))
      (highest 0 twoSegments.elf.loads) 12 := by
  refine ⟨by decide, by decide, .inl ⟨0x3000, by decide, by decide, by decide, ?_, ?_, ?_⟩⟩
  · refine ⟨.fixed 0x1000 0xffff {} (.refl true), List.mem_cons_self, by decide, ?_⟩
    exact ⟨.fixed 0x1000 0xffff {} (.refl true),
      ⟨.fixed 0x1000 0xffff {} (.refl true), by decide, by decide, rfl, rfl⟩, by decide, by decide⟩
  · exact ⟨_, List.mem_singleton_self _, by decide, by decide⟩
  · intro z member
    rw [List.mem_singleton.mp member]
    decide

/-- Both segments go behind the taken page. -/
theorem add_elf_regions_agree_moved :
    ∃ offset regions, addElfRegions takenPage (fun _ => .ok ()) twoSegments .root 0 0 0 =
        .ok (offset, regions) ∧ Agrees takenPage twoSegments .root 0 offset regions := by
  have narrows : takenPage.Narrows := by
    intro area node narrowed same
    cases same
    exact ⟨le_rfl, le_rfl⟩
  have loadable : Loadable takenPage twoSegments .root 0 0 0 := by
    refine ⟨?_, ?_, ?_, ⟨rfl, rfl, by decide, by decide, ?_⟩, ?_⟩
    · intro kernel
      cases kernel
    · rw [two_segments_loads]
      decide
    · rw [two_segments_loads]
      decide
    · rw [two_segments_loads]
      intro front ph back split
      rcases front with _ | ⟨first, _ | ⟨second, rest⟩⟩
      · decide
      · cases split
        decide
      · have lengths := congrArg List.length split
        simp at lengths
    · intro _ _ k isAlign
      have same : k = 12 := Nat.pow_right_injective le_rfl (isAlign.symm.trans (by decide))
      rw [same]
      exact taken_page_search
  have outcome := @add_elf_regions_agree .w32 takenPage (fun _ => .ok ()) twoSegments .root 0 0 0
    rfl rfl two_segments_formed (.inl rfl) (by unfold Ascending; decide)
    (List.pairwise_singleton _ _) narrows (fun _ => rfl)
    (.inr ⟨_, List.mem_cons_of_mem _ (List.mem_cons_of_mem _ (List.mem_singleton_self _)),
      by decide⟩) loadable
  apply outcome.resolve_left
  intro exhausted
  have returns : (addElfRegions takenPage (fun _ => .ok ()) twoSegments .root 0 0 0).isOk =
      true := by
    decide +kernel
  rw [exhausted] at returns
  cases returns

/-- RAM and `sysalloc` from 0x1000 on, and nothing reserved. -/
def openMemory : Memory .w64 where
  ram := ⟨[.fixed 0x1000 0xffff {} (.refl true)], 16, Wordsize.w64.maxWord,
    Wordsize.w64.maxWord, 0xf000⟩
  sysalloc := ⟨[.fixed 0x1000 0xffff {} (.refl true)], 16, Wordsize.w64.maxWord,
    Wordsize.w64.maxWord, 0xf000⟩
  regions := .init 300
  validate := none

/-- A root task with one segment of `memsz` bytes, linked to 0x2000. -/
def oneSegment (memsz : Nat) : ElfModule where
  elf :=
    { magic := true
      arch := true
      phdrs := [⟨.load, true, true, 0x1000, 0x2000, memsz, memsz, 0x1000⟩] }
  start := 0x8000
  cmdline := 0x7000
  reloc := false

theorem open_memory_sorted :
    Ascending openMemory.ram.reg ∧ Ascending openMemory.sysalloc.reg ∧ openMemory.Narrows := by
  refine ⟨List.pairwise_singleton _ _, List.pairwise_singleton _ _, ?_⟩
  intro area node narrowed same
  cases same
  exact ⟨le_rfl, le_rfl⟩

theorem one_segment_loads {memsz : Nat} (pos : memsz ≠ 0) :
    (oneSegment memsz).elf.loads =
      [⟨.load, true, true, 0x1000, 0x2000, memsz, memsz, 0x1000⟩] := by
  simp [oneSegment, ElfFile.loads, loadsOf, ProgramHeader.isLoad, pos]

theorem one_segment_formed {memsz : Nat} (pos : memsz ≠ 0) (small : memsz ≤ 0x1000) :
    SegmentsFormed .w64 (oneSegment memsz).elf.loads ∧
      ∀ ph ∈ (oneSegment memsz).elf.loads, Placed openMemory ph.paddr ph.memsz := by
  have modulus : Wordsize.w64.modulus = 2 ^ 64 := rfl
  rw [one_segment_loads pos]
  refine ⟨⟨List.pairwise_singleton _ _, ?_, ?_, ?_⟩, ?_⟩ <;> intro ph member <;>
    rw [List.mem_singleton.mp member]
  · simp only
    omega
  · simp only
    omega
  · exact ⟨12, by decide, rfl⟩
  · have inside : 0x1000 ≤ 0x2000 ∧ 0x2000 + memsz - 1 ≤ 0xffff := by omega
    refine ⟨by simp only; omega, ⟨_, List.mem_singleton_self _, inside⟩,
      ⟨_, List.mem_singleton_self _, inside⟩, ?_⟩
    intro r inRegions
    cases inRegions

/-- A segment of one byte is not reserved, and loading stops. -/
theorem one_byte_segment_is_not_reserved :
    SegmentsFormed .w64 (oneSegment 1).elf.loads ∧ Decided openMemory (oneSegment 1) ∧
      Ascending openMemory.ram.reg ∧ Ascending openMemory.sysalloc.reg ∧
      addElfRegions openMemory (fun _ => .ok ()) (oneSegment 1) .root 0 0 0 =
        .ok (0, openMemory.regions) ∧
      ∀ bytes, l4ExecReadExec openMemory.ram openMemory.sysalloc (oneSegment 1) 0
        (bytes, openMemory.regions) ⟨.load, true, true, 0x1000, 0x2000, 1, 1, 0x1000⟩ =
          panic "Region for module not found" := by
  obtain ⟨formed, placed⟩ := one_segment_formed (show 1 ≠ 0 by decide) (by decide)
  exact ⟨formed, .inl ⟨rfl, placed⟩, open_memory_sorted.1, open_memory_sorted.2.1, by decide,
    fun bytes => rfl⟩

end L4Bootstrap
