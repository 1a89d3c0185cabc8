import L4Bootstrap.Boot32.LoadElfCorrect
import L4Bootstrap.Boot32.PagingInit

/-!
# The bootstrap function of boot32

`bootstrap` of `boot_kernel.c` reserves what is still needed, sets up the page tables and
loads the 64-bit part of the program, which it then enters. What was reserved is still there
at that point, the page tables included, and an image that had to move stands in mapped RAM.
-/

namespace L4Bootstrap

namespace Boot32

open MachineWord CheckedLoop ByteMemory Paging

set_option autoImplicit false

/-- `l4util_mb_mod_t`, the length of its command line, and what stands at `mod_start` if it
is read as an ELF file. -/
structure BootMod where
  modStart : Nat
  modEnd : Nat
  cmdline : Nat
  cmdlineLength : Nat
  elf : Elf64

/-- The fields of `l4util_mb_info_t` that are used, with its address, the length of the
command line and the sizes of the two structures. -/
structure BootInfo where
  address : Nat
  cmdline : Nat
  cmdlineLength : Nat
  modsAddr : Nat
  mods : List BootMod
  memUpper : Nat
  map : Mbi
  infoSize : Nat
  modSize : Nat

/-- `_image_start`, `_image_end` and `_binary_bootstrap64_bin_start`. -/
structure BootImage where
  start : Nat
  stop : Nat
  elf : Elf64

/-! ## Reservations -/

/-- The `unsigned long` arguments of `reservation_add` for a segment. -/
def segmentCall (ph : Elf64Phdr) : Nat × Nat := (ph.paddr % 2 ^ 32, ph.memsz % 2 ^ 32)

def reserveElf (elf : Elf64) (entries : Reservations) : Checked Reservations := do
  sanityElf elf
  elf.phdrs.foldlM (fun entries ph =>
    if ph.load then reservationAdd (segmentCall ph).1 (segmentCall ph).2 entries
    else .ok entries) entries

/-- `mbi->mods_count * sizeof(l4util_mb_mod_t)` -/
def BootInfo.modsSize (info : BootInfo) : Nat := info.mods.length * info.modSize % 2 ^ 32

def reserveMbi (info : BootInfo) (entries : Reservations) : Checked Reservations := do
  let entries ← reservationAdd info.address info.infoSize entries
  let entries ← reservationAdd info.cmdline (add32 info.cmdlineLength 1) entries
  let entries ← reservationAdd info.modsAddr info.modsSize entries
  info.mods.foldlM (fun entries mod => do
    let entries ← reservationAdd mod.cmdline (add32 mod.cmdlineLength 1) entries
    reservationAdd mod.modStart (sub32 mod.modEnd mod.modStart) entries) entries

/-- What `bootstrap` reserves: its own image, the null page, the page of the trampoline, the
memory of the first three modules, and the multiboot info. -/
def bootReservations (image : BootImage) (info : BootInfo) : Checked Reservations := do
  let entries ← reservationAdd image.start (sub32 image.stop image.start) []
  let entries ← reservationAdd 0 0x1000 entries
  let entries ← reservationAdd 0x1000 0x1000 entries
  let entries ← (info.mods.take 3).foldlM (fun entries mod => reserveElf mod.elf entries) entries
  reserveMbi info entries

def elfCalls (elf : Elf64) : List (Nat × Nat) := elf.segments.map segmentCall

def mbiCalls (info : BootInfo) : List (Nat × Nat) :=
  (info.address, info.infoSize) :: (info.cmdline, add32 info.cmdlineLength 1) ::
    (info.modsAddr, info.modsSize) ::
    info.mods.flatMap fun mod => [(mod.cmdline, add32 mod.cmdlineLength 1),
      (mod.modStart, sub32 mod.modEnd mod.modStart)]

/-- The arguments of all calls of `reservation_add`, in their order. -/
def bootCalls (image : BootImage) (info : BootInfo) : List (Nat × Nat) :=
  [(image.start, sub32 image.stop image.start), (0, 0x1000), (0x1000, 0x1000)] ++
    (info.mods.take 3).flatMap (fun mod => elfCalls mod.elf) ++ mbiCalls info

/-- The calls one after the other. -/
def reserveAll : List (Nat × Nat) → Reservations → Checked Reservations
  | [], entries => .ok entries
  | call :: rest, entries => do
      let entries ← reservationAdd call.1 call.2 entries
      reserveAll rest entries

/-! ## Loading -/

/-- The entries of the memory map from an address on. -/
def Mbi.rangesFrom (mbi : Mbi) : Nat → Nat → List AddrRange
  | 0, _ => []
  | rounds + 1, a =>
      if rangeInMap mbi a then mbi.entryAt a :: mbi.rangesFrom rounds (mbi.next a) else []

/-- What `l4util_mb_for_each_mmap_entry` visits; an entry has at least one byte. -/
def Mbi.ranges (mbi : Mbi) : List AddrRange := mbi.rangesFrom mbi.mmapLength mbi.first

/-- The pool behind `base_paging_init`: zeroed, with the tables that were written to it. -/
def storeTables (pool : Nat) (t : Tables) (bytes : Bytes) : Bytes := fun a =>
  if pool ≤ a ∧ a < pool + poolSize then
    (leBytes 8 (t.entry (truncPage a) (a % 2 ^ pageShift / 8))).getD (a % 8) 0
  else bytes a

/-- The 64-bit part as it is entered: `far_ptr.start`, memory and the page tables. -/
structure Handover where
  start : Nat
  bytes : Bytes
  pml4 : Nat
  tables : Tables

/-- `bootstrap` with the allocator linked in or not. -/
def bootstrap (cpu : CpuInfo) (linked : Bool) (image : BootImage) (info : BootInfo)
    (pool : PtabPool) (bytes : Bytes) : Checked Handover := do
  let entries ← bootReservations image info
  let (pml4, tables) ← basePagingInit cpu pool (memUpper info.map.ranges info.memUpper)
  let (start, bytes, _) ← loadElf (if linked then some info.map else none) entries image.elf
    (mmAllocInit ⟨0, 0, []⟩) (storeTables pool.pool tables bytes)
  .ok ⟨start, bytes, pml4, tables⟩

/-! ## The calls -/

section

variable {entries after : Reservations} {calls rest : List (Nat × Nat)}

theorem reserve_all_append :
    reserveAll (calls ++ rest) entries = reserveAll calls entries >>= reserveAll rest := by
  induction calls generalizing entries with
  | nil => rw [List.nil_append, reserveAll, ok_bind]
  | cons call calls ih =>
      rw [List.cons_append, reserveAll, reserveAll, bind_assoc]
      apply bind_congr
      intro next
      exact ih

theorem reserve_elf_ok {elf : Elf64} (reserved : reserveElf elf entries = .ok after) :
    reserveAll (elfCalls elf) entries = .ok after := by
  rw [reserveElf, bind_ok_iff] at reserved
  obtain ⟨_, _, added⟩ := reserved
  rw [elfCalls, Elf64.segments]
  generalize elf.phdrs = phdrs at added ⊢
  induction phdrs generalizing entries with
  | nil =>
      rw [List.filter_nil, List.map_nil, reserveAll]
      rw [List.foldlM_nil] at added
      exact added
  | cons ph others ih =>
      rw [List.foldlM_cons, bind_ok_iff] at added
      obtain ⟨next, here, later⟩ := added
      cases load : ph.load with
      | false =>
          rw [if_neg (by simp [load])] at here
          obtain rfl : entries = next := Except.ok.inj here
          rw [List.filter_cons_of_neg (by simp [load])]
          exact ih later
      | true =>
          rw [if_pos load] at here
          rw [List.filter_cons_of_pos load, List.map_cons, reserveAll, here, ok_bind]
          exact ih later

theorem reserve_elfs_ok {mods : List BootMod}
    (reserved : mods.foldlM (fun entries mod => reserveElf mod.elf entries) entries = .ok after) :
    reserveAll (mods.flatMap fun mod => elfCalls mod.elf) entries = .ok after := by
  induction mods generalizing entries with
  | nil =>
      rw [List.flatMap_nil, reserveAll]
      rw [List.foldlM_nil] at reserved
      exact reserved
  | cons mod others ih =>
      rw [List.foldlM_cons, bind_ok_iff] at reserved
      obtain ⟨next, here, later⟩ := reserved
      rw [List.flatMap_cons, reserve_all_append, reserve_elf_ok here, ok_bind]
      exact ih later

theorem reserve_mbi_eq (info : BootInfo) :
    reserveMbi info entries = reserveAll (mbiCalls info) entries := by
  have modules : ∀ (mods : List BootMod) (entries : Reservations),
      mods.foldlM (fun entries mod => do
        let entries ← reservationAdd mod.cmdline (add32 mod.cmdlineLength 1) entries
        reservationAdd mod.modStart (sub32 mod.modEnd mod.modStart) entries) entries =
      reserveAll (mods.flatMap fun mod => [(mod.cmdline, add32 mod.cmdlineLength 1),
        (mod.modStart, sub32 mod.modEnd mod.modStart)]) entries := by
    intro mods
    induction mods with
    | nil =>
        intro entries
        rw [List.foldlM_nil, List.flatMap_nil, reserveAll]
        rfl
    | cons mod others ih =>
        intro entries
        rw [List.foldlM_cons, List.flatMap_cons, reserve_all_append]
        simp only [reserveAll, bind_assoc, ok_bind, ih]
  simp only [reserveMbi, mbiCalls, reserveAll, modules]

theorem boot_reservations_ok {image : BootImage} {info : BootInfo}
    (reserved : bootReservations image info = .ok after) :
    reserveAll (bootCalls image info) [] = .ok after := by
  simp only [bootReservations, bind_ok_iff] at reserved
  obtain ⟨first, addFirst, second, addSecond, third, addThird, modules, addElfs, addMbi⟩ := reserved
  rw [bootCalls, reserve_all_append, reserve_all_append, reserveAll, addFirst, ok_bind,
    reserveAll, addSecond, ok_bind, reserveAll, addThird, ok_bind]
  change (reserveAll _ third >>= _) = _
  rw [reserve_elfs_ok addElfs, ok_bind, ← reserve_mbi_eq]
  exact addMbi

/-- All calls keep what is reserved, see `SafeStep`. -/
def SafeCalls : Reservations → List (Nat × Nat) → Prop
  | _, [] => True
  | entries, call :: rest => 1 ≤ call.2 ∧ call.1 + call.2 ≤ 2 ^ 32 ∧
      SafeStep entries call.1 call.2 ∧
        ∀ after, reservationAdd call.1 call.2 entries = .ok after → SafeCalls after rest

theorem reserve_all_reserves {earlier : List (Nat × Nat)} (run : Reserves earlier entries)
    (safe : SafeCalls entries calls) (reserved : reserveAll calls entries = .ok after) :
    Reserves (earlier ++ calls) after := by
  induction calls generalizing earlier entries with
  | nil =>
      obtain rfl : entries = after := Except.ok.inj reserved
      rw [List.append_nil]
      exact run
  | cons call rest ih =>
      obtain ⟨pos, fits, step, later⟩ := safe
      rw [reserveAll, bind_ok_iff] at reserved
      obtain ⟨next, added, others⟩ := reserved
      rw [List.append_cons]
      exact ih (run.add pos fits step added) (later next added) others

end

theorem boot_remembers {image : BootImage} {info : BootInfo} {entries : Reservations}
    (safe : SafeCalls [] (bootCalls image info))
    (reserved : bootReservations image info = .ok entries) :
    Remembers (bootCalls image info) entries := by
  have run := @reserve_all_reserves _ entries _ [] .start safe (boot_reservations_ok reserved)
  rw [List.nil_append] at run
  exact reserves_remembers run

/-! ## The memory map -/

section

variable {mbi : Mbi} (steps : StepsThroughMap mbi)

include steps

/-- Each entry lies behind the one before, so that there are not more of them than bytes. -/
theorem iterate_above {k : Nat} (inside : ∀ j ≤ k, rangeInMap mbi (mbi.next^[j] mbi.first) = true) :
    mbi.mmapAddr + k ≤ mbi.next^[k] mbi.first ∧ k < mbi.mmapLength := by
  have above : mbi.mmapAddr + k ≤ mbi.next^[k] mbi.first := by
    induction k with
    | zero => exact steps.first.ge
    | succ k ih =>
        have before := ih fun j le => inside j (by omega)
        have forward := steps.forward _ (inside k (Nat.le_succ k))
        rw [Function.iterate_succ_apply']
        omega
  have within := ((range_in_map_iff steps).mp (inside k le_rfl)).2
  exact ⟨above, by omega⟩

omit steps in
theorem ranges_from_entry {k rounds : Nat} (enough : k < rounds) {a : Nat}
    (inside : ∀ j ≤ k, rangeInMap mbi (mbi.next^[j] a) = true) :
    mbi.entryAt (mbi.next^[k] a) ∈ mbi.rangesFrom rounds a := by
  induction k generalizing rounds a with
  | zero =>
      obtain ⟨rounds, rfl⟩ := Nat.exists_eq_add_one_of_ne_zero (Nat.ne_of_gt enough)
      have here : rangeInMap mbi a = true := inside 0 le_rfl
      rw [Mbi.rangesFrom, if_pos here]
      exact List.mem_cons_self
  | succ k ih =>
      obtain ⟨rounds, rfl⟩ := Nat.exists_eq_add_one_of_ne_zero (show rounds ≠ 0 by omega)
      have here : rangeInMap mbi a = true := inside 0 (Nat.zero_le _)
      rw [Mbi.rangesFrom, if_pos here]
      apply List.mem_cons_of_mem
      exact ih (by omega) fun j le => inside (j + 1) (by omega)

/-- The loop over the map visits what the allocator can use. -/
theorem entry_mem_ranges {a : Nat} (entry : IsEntry mbi a) : mbi.entryAt a ∈ mbi.ranges := by
  obtain ⟨k, rfl, inside⟩ := entry
  exact ranges_from_entry (iterate_above steps inside).2 inside

end

/-! ## The page tables in memory -/

section

variable {pool : PtabPool} {t : Tables} {bytes : Bytes}

theorem stored_outside {a : Nat} (outside : a < pool.pool ∨ pool.pool + poolSize ≤ a) :
    storeTables pool.pool t bytes a = bytes a := if_neg (by omega)

/-- A processor that walks the tables in memory reads the entries. -/
theorem stored_entry {table i : Nat} (aligned : pageSize ∣ table) (above : pool.pool ≤ table)
    (inside : table + pageSize ≤ pool.pool + poolSize) (small : i < 512) :
    Holds (storeTables pool.pool t bytes) (table + 8 * i) (leBytes 8 (t.entry table i)) := by
  have isPage : pageSize = 2 ^ pageShift := by decide
  have page : 2 ^ pageShift = 4096 := by decide
  rw [isPage] at aligned inside
  intro k less
  rw [length_le_bytes] at less
  have start : truncPage (table + 8 * i + k) = table :=
    trunc_size_eq aligned (by omega) (by omega)
  have offset : (table + 8 * i + k) % 2 ^ pageShift / 8 = i := by
    rw [page] at aligned ⊢
    omega
  have byte : (table + 8 * i + k) % 8 = k := by
    rw [page] at aligned
    omega
  rw [storeTables, if_pos (by omega), start, offset, byte]

end

/-! ## The image -/

/-- The program itself: its file of the 64-bit part and its pool of page tables lie in it, apart
from each other. -/
structure SoundImage (image : BootImage) (pool : PtabPool) (length : Nat) (bytes : Bytes) : Prop where
  below : image.stop + pageSize < 2 ^ 32
  elf : ImageOk image.elf bytes
  nonempty : 0 < length
  file : image.start ≤ image.elf.base ∧ image.elf.base + length ≤ image.stop
  segments : ∀ ph ∈ image.elf.segments, ph.offset + ph.filesz ≤ length
  sections : ∀ sh ∈ image.elf.shdrs, sh.type = .rela → sh.offset + sh.size ≤ length ∧ 24 ∣ sh.size
  tables : image.start ≤ pool.pool ∧ pool.pool + poolSize ≤ image.stop
  apart : image.elf.base + length ≤ pool.pool ∨ pool.pool + poolSize ≤ image.elf.base
  fresh : pool.initialized = false

/-- What the loader relies on, once the reservations are made. -/
structure LoadsSafely (info : BootInfo) (entries : Reservations) (elf : Elf64) : Prop where
  inPlace : Usable entries elf.phdrs → ∀ ph ∈ elf.segments, Queried entries ph.paddr ph.memsz
  moved : ¬ Usable entries elf.phdrs →
    SafeRequest info.map entries 0 (scan entries elf.phdrs).request

section

variable {image : BootImage} {info : BootInfo} {pool : PtabPool} {length : Nat} {bytes : Bytes}
  {entries : Reservations}

theorem image_touched (sound : SoundImage image pool length bytes) {a : Nat}
    (above : image.start ≤ a) (inside : a < image.stop) :
    ∃ call ∈ bootCalls image info, Touched call.1 call.2 a := by
  refine ⟨(image.start, sub32 image.stop image.start), ?_, ?_, ?_⟩
  · rw [bootCalls, List.append_assoc]
    exact List.mem_cons_self
  · exact (trunc_size_le pageShift _).trans above
  · have below := sound.below
    have modulus : Wordsize.w32.modulus = 2 ^ 32 := rfl
    have size : sub32 image.stop image.start = image.stop - image.start :=
      Wordsize.w32.sub_of_le (by omega) (by omega)
    have up := le_round_up pageShift (image.start + (image.stop - image.start))
    simp only [size]
    unfold pageUp
    omega

theorem file_reserved (sound : SoundImage image pool length bytes)
    (remembers : Remembers (bootCalls image info) entries) :
    FileReserved image.elf entries length := by
  obtain ⟨start, stop⟩ := sound.file
  have below := sound.below
  refine ⟨sound.nonempty, by omega, ?_, sound.segments, sound.sections⟩
  intro a above inside
  obtain ⟨call, member, touched⟩ := @image_touched image info pool length bytes sound a (by omega)
    (by omega)
  exact remembers.covers call member a touched

theorem relas_kept {elf : Elf64} {current : Bytes}
    (sections : ∀ sh ∈ elf.shdrs, sh.type = .rela → sh.offset + sh.size ≤ length ∧ 24 ∣ sh.size)
    (kept : KeepsFile elf length bytes current) : elf.relas current = elf.relas bytes := by
  rw [Elf64.relas, Elf64.relas]
  apply List.flatMap_congr
  intro sh member
  split_ifs with isRela
  · obtain ⟨inside, whole⟩ := sections sh member isRela
    apply List.map_congr_left
    intro address isAddress
    obtain ⟨above, less⟩ := mem_rela_addresses whole isAddress
    exact rela_at_kept kept (by omega) (by omega)
  · rfl

/-- Writing the page tables leaves the file of the 64-bit part as it is. -/
theorem stored_image (sound : SoundImage image pool length bytes) (t : Tables) :
    ImageOk image.elf (storeTables pool.pool t bytes) := by
  have apart := sound.apart
  have kept : KeepsFile image.elf length bytes (storeTables pool.pool t bytes) := by
    intro a above inside
    exact stored_outside (by omega)
  have same := relas_kept sound.sections kept
  obtain ⟨header, below, sizes, power, disjoint, noRel, relative⟩ := sound.elf
  refine ⟨header, below, sizes, power, disjoint, noRel, ?_⟩
  rw [same]
  exact relative

/-! ## The loader -/

theorem segment_in_block {elf : Elf64} (isImage : ImageOk elf bytes)
    (pos : 1 ≤ (scan entries elf.phdrs).request) {ph : Elf64Phdr} (member : ph ∈ elf.segments) :
    ph.paddr - (scan entries elf.phdrs).base + ph.memsz ≤ (scan entries elf.phdrs).request := by
  obtain ⟨inTable, load⟩ := mem_segments.mp member
  have scanned : Scanned entries elf.phdrs _ (scan entries elf.phdrs) := scan_scanned isImage
  have low := base_le (scan entries elf.phdrs)
  have lowest := scanned.lowest ph inTable load
  have highest := scanned.highest ph inTable load
  have high := scanned.below (Nat.zero_le _)
  have modulus : Wordsize.w64.modulus = 2 ^ 64 := rfl
  rw [Span.request, Wordsize.w64.sub_of_le (by omega) (by omega)] at pos ⊢
  omega

/-- An address in a RAM range of the map, below 4 GiB. -/
def InLowRam (mbi : Mbi) (x : Nat) : Prop :=
  x < maxInitialMem ∧ ∃ range ∈ mbi.ranges, range.memory = true ∧
    range.addr + range.size < 2 ^ 64 ∧ range.addr ≤ x ∧ x < range.addr + range.size

/-- Where a run of the loader has put the image, and what it has done there. -/
structure RanTo (mbi : Mbi) (entries : Reservations) (elf : Elf64) (bytes after : Bytes)
    (start p m : Nat) : Prop where
  placed : PlacedAt entries elf p m
  inRam : Wordsize.w64.sub p m ≠ 0 → ∀ ph ∈ elf.segments, ∀ k < ph.memsz,
    InLowRam mbi (p + (ph.paddr - m) + k)
  start : start = Wordsize.w64.add elf.entry (Wordsize.w64.sub p m) % 2 ^ 32
  memory : ∃ copied, Copied elf p m bytes copied ∧
    after = if Wordsize.w64.sub p m = 0 then copied
      else writeAll ((elf.relas bytes).map (relaWrite p m)) copied

theorem load_elf_ran {elf : Elf64} {linked : Bool} (isImage : ImageOk elf bytes)
    (file : FileReserved elf entries length) (ends : ∀ r ∈ entries, r.start + r.size < 2 ^ 32)
    (safe : LoadsSafely info entries elf) {start : Nat} {after : Bytes} {st : AllocState}
    (returned : loadElf (if linked then some info.map else none) entries elf
      (mmAllocInit ⟨0, 0, []⟩) bytes = .ok (start, after, st)) :
    ∃ p m, RanTo info.map entries elf bytes after start p m := by
  by_cases usable : Usable entries elf.phdrs
  · have placed := placed_in_place isImage ends usable (safe.inPlace usable)
    obtain ⟨copied, isCopied, ran⟩ := load_elf_run isImage file placed
      (choose_reloc_in_place isImage usable)
    rw [ran] at returned
    simp only [Except.ok.injEq, Prod.mk.injEq] at returned
    obtain ⟨isStart, isAfter, _⟩ := returned
    exact ⟨0, 0, placed, fun moved => absurd rfl moved, isStart.symm, copied, isCopied,
      isAfter.symm⟩
  · have need : (scan entries elf.phdrs).needReloc = true := by
      by_contra notNeeded
      exact usable ((need_reloc_iff isImage).mp (by simpa using notNeeded))
    obtain ⟨steps, ram, pos, search⟩ := safe.moved usable
    obtain ⟨result, served, allocated, outcome⟩ := mm_alloc_first_fit steps ram ends pos search
    cases linked with
    | false =>
        rw [if_neg Bool.false_ne_true, loadElf, isImage.header, ok_bind, chooseReloc] at returned
        simp only [need, Bool.not_true, Bool.false_eq_true, if_false] at returned
        cases returned
    | true =>
        by_cases null : result = 0
        · rw [if_pos rfl, loadElf, isImage.header, ok_bind, chooseReloc] at returned
          simp only [need, Bool.not_true, Bool.false_eq_true, if_false, if_true, allocated, ok_bind,
            null] at returned
          cases returned
        · obtain ⟨a, ⟨⟨entry, memory, above, inside⟩, under, free⟩, _⟩ :=
            (outcome.resolve_left fun exhausted => null exhausted.1).spot
          have placed := placed_in_block isImage pos under free.unreserved
          have chosen : chooseReloc (some info.map) entries elf (mmAllocInit ⟨0, 0, []⟩) =
              .ok (Wordsize.w64.sub result (scan entries elf.phdrs).base, served) := by
            rw [chooseReloc]
            simp only [need, Bool.not_true, Bool.false_eq_true, if_false, allocated, ok_bind, null]
          obtain ⟨copied, isCopied, ran⟩ := load_elf_run isImage file placed chosen
          rw [if_pos rfl, ran] at returned
          simp only [Except.ok.injEq, Prod.mk.injEq] at returned
          obtain ⟨isStart, isAfter, _⟩ := returned
          refine ⟨result, _, placed, ?_, isStart.symm, copied, isCopied, isAfter.symm⟩
          intro _ ph member k less
          have most : maxInitialMem = 2 ^ 32 := by decide
          have within := segment_in_block isImage pos member
          exact ⟨by omega, _, entry_mem_ranges steps entry, memory, ram a entry memory, by omega,
            by omega⟩

/-! ## The hand-over -/

theorem base_paging_init_nonempty {cpu : CpuInfo} {upper pml4 : Nat} {t : Tables}
    (returned : basePagingInit cpu pool upper = .ok (pml4, t)) : 0 < upper := by
  by_contra empty
  obtain rfl : upper = 0 := by omega
  rw [basePagingInit] at returned
  cases root : pool.pageAt 0 with
  | none =>
      rw [root] at returned
      cases returned
  | some page =>
      rw [root] at returned
      cases returned

/-- What the 64-bit part finds when it is entered. -/
structure HandedTo64 (image : BootImage) (info : BootInfo) (pool : PtabPool)
    (entries : Reservations) (before : Bytes) (h : Handover) : Prop where
  kept : ∀ call ∈ bootCalls image info, ∀ a, Touched call.1 call.2 a →
    a < pool.pool ∨ pool.pool + poolSize ≤ a → h.bytes a = before a
  root : h.pml4 = pool.pool
  paging : HandedOver pool (memUpper info.map.ranges info.memUpper) h.tables
  stored : ∀ table, IsTable (fun k => pool.pageAt k) h.tables table → ∀ i < 512,
    Holds h.bytes (table + 8 * i) (leBytes 8 (h.tables.entry table i))
  loaded : ∃ reloc, h.start = Wordsize.w64.add image.elf.entry reloc % 2 ^ 32 ∧
    (∀ ph ∈ image.elf.segments, ∀ k < ph.memsz,
      (∀ call ∈ bootCalls image info, ¬ Touched call.1 call.2 (Wordsize.w64.add ph.paddr reloc + k)) ∧
      (reloc ≠ 0 → translate h.tables 3 h.pml4 (Wordsize.w64.add ph.paddr reloc + k) =
        some (Wordsize.w64.add ph.paddr reloc + k))) ∧
    (Suits image.elf (storeTables pool.pool h.tables before) reloc →
      Loaded entries image.elf (storeTables pool.pool h.tables before) h.bytes h.start reloc)

end

/-! ## A boot with one module -/

theorem safe_calls_few {entries next : Reservations} {call : Nat × Nat} {rest : List (Nat × Nat)}
    (added : reservationAdd call.1 call.2 entries = .ok next) (pos : 1 ≤ call.2)
    (below : pageUp (call.1 + call.2) < 2 ^ 32)
    (notBefore : firstHit (pageStart call.1) (pageLength call.1 call.2) entries ≠ some .before)
    (few : entries.length < maxReservations) (later : SafeCalls next rest) :
    SafeCalls entries (call :: rest) := by
  have sum := le_round_up pageShift (call.1 + call.2)
  refine ⟨pos, (sum.trans_lt below).le, ⟨below, notBefore, fun full => absurd full few.ne⟩, ?_⟩
  intro after other
  rw [added] at other
  obtain rfl : next = after := Except.ok.inj other
  exact later

/-- Boot32 at 256 MiB with the file of `smallElf` at its start. -/
def smallBoot : BootImage := ⟨0x10000000, 0x10010000, smallElf (2 ^ 12)⟩

def smallPool : PtabPool where
  bytes := fun _ => 0
  pool := 0x10008000
  pdirs := 0
  initialized := false
  ptab64Addr := 0
  ptab64Size := 0
  aligned := by decide
  inside := by decide

/-- A module that goes to where the image is linked to. -/
def oneModule : BootInfo where
  address := 0x8000
  cmdline := 0x8800
  cmdlineLength := 4
  modsAddr := 0x8900
  mods := [⟨0x11000000, 0x11001000, 0x11002000, 4,
    { smallElf 1 with base := 0x11000000, phdrs := [⟨true, 0x100, 0x400000, 0x10, 0x1000, 1⟩] }⟩]
  memUpper := 0
  map := oneRange
  infoSize := 88
  modSize := 16

def oneModuleReservations : Reservations :=
  [⟨0x10000000, 0x10000⟩, ⟨0, 0x2000⟩, ⟨0x400000, 0x1000⟩, ⟨0x8000, 0x1000⟩,
    ⟨0x11002000, 0x1000⟩, ⟨0x11000000, 0x1000⟩]

theorem one_module_reserved : bootReservations smallBoot oneModule = .ok oneModuleReservations := by
  decide +kernel

theorem one_module_safe : SafeCalls [] (bootCalls smallBoot oneModule) := by
  have calls : bootCalls smallBoot oneModule = [(0x10000000, 0x10000), (0, 0x1000),
      (0x1000, 0x1000), (0x400000, 0x1000), (0x8000, 88), (0x8800, 5), (0x8900, 16),
      (0x11002000, 5), (0x11000000, 0x1000)] := by decide +kernel
  rw [calls]
  repeat
    apply safe_calls_few
    · rfl
    · decide
    · decide +kernel
    · decide +kernel
    · decide
  trivial

theorem one_module_loads : LoadsSafely oneModule oneModuleReservations (smallElf (2 ^ 12)) := by
  have request : (scan oneModuleReservations (smallElf (2 ^ 12)).phdrs).request = 0x20 := by
    decide +kernel
  constructor
  · intro usable
    exact absurd (usable _ (List.mem_singleton.mpr rfl) rfl) (by decide +kernel)
  · intro _
    rw [request]
    have entry : IsEntry oneRange 0x9000 := first_entry one_range_steps (by decide)
    have free : Apart oneModuleReservations 0x100000 0x20 := by
      unfold Apart
      decide
    refine ⟨one_range_steps, one_range_ram.bounded, by decide, fun _ => by decide, ?_, ?_⟩
    · exact .inl ⟨0x9000, 0x100000, ⟨entry, rfl, by decide, by decide⟩, by decide, free,
        .inl (entry.pos one_range_steps)⟩
    · intro b p tries atTop
      have := one_range_tries tries
      omega

theorem small_boot_sound : SoundImage smallBoot smallPool 0x200 smallBytes := by
  obtain ⟨nonempty, _, _, segments, sections⟩ := small_file (2 ^ 12)
  exact ⟨by decide, small_image 12 (by decide), nonempty, by decide, segments, sections, by decide,
    by decide, rfl⟩

end Boot32

end L4Bootstrap
