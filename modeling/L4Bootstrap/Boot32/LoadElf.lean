import L4Bootstrap.Boot32.MmAlloc
import L4Bootstrap.Lib.ByteImage
import Mathlib.Data.Nat.ModEq

/-!
# The ELF loader of boot32

`load_elf` of `boot32/load_elf.c` copies the 64-bit bootstrap to the addresses it
is linked to or, if one of them is taken, to a block of the allocator, and then
applies the RELA entries. Headers are given as data; segments and RELA entries
are read from memory. `reloc` is a 64-bit word.
-/

namespace L4Bootstrap

namespace Boot32

open MachineWord CheckedLoop ByteMemory MemoryTransfer

set_option autoImplicit false

/-- The fields of `Elf64_Phdr` that are used; `load` says that `p_type` is `PT_LOAD`. -/
structure Elf64Phdr where
  load : Bool
  offset : Nat
  paddr : Nat
  filesz : Nat
  memsz : Nat
  align : Nat
  deriving DecidableEq, Repr

/-- `sh_type`. -/
inductive SectionType
  | rela
  | rel
  | other
  deriving DecidableEq, Repr

structure Elf64Shdr where
  type : SectionType
  offset : Nat
  size : Nat
  deriving DecidableEq, Repr

structure Elf64Rela where
  offset : Nat
  info : Nat
  addend : Nat
  deriving DecidableEq, Repr

/-- An ELF file at address `base`: the checked fields of its header, `e_entry` and
the two tables. -/
structure Elf64 where
  base : Nat
  magic : List UInt8
  fileClass : Nat
  machine : Nat
  entry : Nat
  phdrs : List Elf64Phdr
  shdrs : List Elf64Shdr
  deriving DecidableEq, Repr

/-- `ELFMAG0` to `ELFMAG3`. -/
def elfMagic : List UInt8 := [0x7f, 0x45, 0x4c, 0x46]

def elfClass64 : Nat := 2

def emX8664 : Nat := 62

/-- `R_X86_64_RELATIVE`. -/
def relative : Nat := 8

def sanityElf (elf : Elf64) : Checked Unit :=
  if elf.magic ≠ elfMagic then panic "Invalid ELF file: bad header magic"
  else if elf.fileClass ≠ elfClass64 then panic "Invalid ELF file: wrong class"
  else if elf.machine ≠ emX8664 then panic "Invalid ELF file: wrong machine"
  else .ok ()

def usableRange (reservations : Reservations) (start size : Nat) : Bool :=
  isRangeIn4g start size &&
    overlapsReservation (start % 2 ^ 32) (size % 2 ^ 32) reservations == 0

/-! ## The first pass -/

/-- What the first pass over the program headers collects. -/
structure Span where
  needReloc : Bool
  minAddr : Nat
  maxAddr : Nat
  maxAlign : Nat
  deriving DecidableEq, Repr

/-- `max_align` has 32 bits, `p_align` has 64. -/
def Span.visit (reservations : Reservations) (span : Span) (ph : Elf64Phdr) : Span :=
  if !ph.load then span
  else
    { maxAlign :=
        if span.maxAlign < ph.align ∧ 1 < ph.align then ph.align % 2 ^ 32 else span.maxAlign
      minAddr := if ph.paddr < span.minAddr then ph.paddr else span.minAddr
      maxAddr :=
        if span.maxAddr < Wordsize.w64.add ph.paddr ph.memsz then
          Wordsize.w64.add ph.paddr ph.memsz
        else span.maxAddr
      needReloc := span.needReloc || !usableRange reservations ph.paddr ph.memsz }

def scan (reservations : Reservations) (phdrs : List Elf64Phdr) : Span :=
  phdrs.foldl (Span.visit reservations) ⟨false, Wordsize.w64.maxWord, 0, 0⟩

/-- `min_addr & ~(max_align - 1)`; the mask is computed with 32 bits. -/
def Span.base (span : Span) : Nat :=
  span.minAddr &&& (2 ^ 32 - 1 - sub32 span.maxAlign 1)

/-- The argument of `mm_alloc_alloc`, an `unsigned long`. -/
def Span.request (span : Span) : Nat := Wordsize.w64.sub span.maxAddr span.base % 2 ^ 32

/-- The choice of `reloc`. `alloc` is the memory map of the allocator, or `none`
if the allocator is not linked in. -/
def chooseReloc (alloc : Option Mbi) (reservations : Reservations) (elf : Elf64)
    (st : AllocState) : Checked (Nat × AllocState) :=
  let span := scan reservations elf.phdrs
  if !span.needReloc then .ok (0, st)
  else
    match alloc with
    | none => panic "Memory already used and relocation not enabled!"
    | some mbi => do
        let (allocBase, st) ← mmAllocAlloc mbi reservations span.request st
        if allocBase = 0 then panic "Unable to allocate memory for relocation!"
        else .ok (Wordsize.w64.sub allocBase span.base, st)

/-! ## The second pass -/

def copySegment (elf : Elf64) (reloc : Nat) (bytes : Bytes) (ph : Elf64Phdr) : Checked Bytes :=
  if !ph.load then .ok bytes
  else
    let target := Wordsize.w64.add ph.paddr reloc % 2 ^ 32
    if !isRangeIn4g elf.base ph.offset then
      panic "Could not load PHDR. Location in ELF exceeds 32-bit limits!"
    else
      let bytes := memmove target (add32 elf.base ph.offset) (ph.filesz % 2 ^ 32) bytes
      if ph.filesz < ph.memsz then
        .ok (memset (add32 target ph.filesz) 0 ((ph.memsz - ph.filesz) % 2 ^ 32) bytes)
      else .ok bytes

/-! ## The third pass -/

def relaAt (bytes : Bytes) (address : Nat) : Elf64Rela :=
  ⟨readLe bytes address 8, readLe bytes (address + 8) 8, readLe bytes (address + 16) 8⟩

def relocateRelaEntry (reloc : Nat) (bytes : Bytes) (address : Nat) : Checked Bytes :=
  let rel := relaAt bytes address
  let relocAddr := Wordsize.w64.add rel.offset reloc % 2 ^ 32
  if rel.info % 2 ^ 32 = relative then
    .ok (writeList relocAddr (leBytes 8 (Wordsize.w64.add rel.addend reloc)) bytes)
  else panic "Unsupported RELA entry"

/-- The values of `rel` in the loop from `start` to `stop`; an entry has 24 bytes. -/
def relaAddresses (start stop : Nat) : List Nat :=
  (List.range ((stop - start + 23) / 24)).map fun k => start + 24 * k

def relocateSection (elf : Elf64) (reloc : Nat) (bytes : Bytes) (sh : Elf64Shdr) :
    Checked Bytes :=
  match sh.type with
  | .rela =>
      let start := add32 elf.base sh.offset
      (relaAddresses start (add32 start sh.size)).foldlM (relocateRelaEntry reloc) bytes
  | .rel => panic "Unsupported relocation type SHT_REL"
  | .other => .ok bytes

/-- `load_elf`: the address of the entry point, the memory and the allocator. -/
def loadElf (alloc : Option Mbi) (reservations : Reservations) (elf : Elf64) (st : AllocState)
    (bytes : Bytes) : Checked (Nat × Bytes × AllocState) := do
  sanityElf elf
  let (reloc, st) ← chooseReloc alloc reservations elf st
  let bytes ← elf.phdrs.foldlM (copySegment elf reloc) bytes
  let bytes ← if reloc ≠ 0 then elf.shdrs.foldlM (relocateSection elf reloc) bytes else .ok bytes
  .ok (Wordsize.w64.add elf.entry reloc % 2 ^ 32, bytes, st)

/-! ## Images -/

def Elf64.segments (elf : Elf64) : List Elf64Phdr := elf.phdrs.filter (·.load)

def Elf64Phdr.Has (ph : Elf64Phdr) (address : Nat) : Prop :=
  ph.paddr ≤ address ∧ address < ph.paddr + ph.memsz

instance (ph : Elf64Phdr) (address : Nat) : Decidable (ph.Has address) :=
  inferInstanceAs (Decidable (_ ∧ _))

/-- The entries of all RELA sections of the file. -/
def Elf64.relas (elf : Elf64) (bytes : Bytes) : List Elf64Rela :=
  elf.shdrs.flatMap fun sh =>
    if sh.type = .rela then
      (relaAddresses (elf.base + sh.offset) (elf.base + sh.offset + sh.size)).map (relaAt bytes)
    else []

/-- The images that are considered: an x86-64 ELF file with disjoint segments below
4 GiB and no relocations but relative RELA entries for loaded memory. -/
structure ImageOk (elf : Elf64) (bytes : Bytes) : Prop where
  header : sanityElf elf = .ok ()
  below : ∀ ph ∈ elf.segments, ph.paddr + ph.memsz ≤ 2 ^ 32
  sizes : ∀ ph ∈ elf.segments, ph.filesz ≤ ph.memsz
  power : ∀ ph ∈ elf.segments, ∃ i < 64, ph.align = 2 ^ i
  apart : elf.segments.Pairwise fun x y => ∀ address, x.Has address → ¬ y.Has address
  noRel : ∀ sh ∈ elf.shdrs, sh.type ≠ .rel
  relative : ∀ e ∈ elf.relas bytes, e.info % 2 ^ 32 = relative ∧
    ∃ ph ∈ elf.segments, ph.paddr ≤ e.offset ∧ e.offset + 8 ≤ ph.paddr + ph.memsz

/-- The file is part of the image of boot32, which its `bootstrap` reserves before
it loads the file. -/
structure FileReserved (elf : Elf64) (reservations : Reservations) (length : Nat) : Prop where
  nonempty : 0 < length
  below : elf.base + length < 2 ^ 32
  reserved : ∀ address, elf.base ≤ address → address < elf.base + length →
    Covered reservations address
  segments : ∀ ph ∈ elf.segments, ph.offset + ph.filesz ≤ length
  sections : ∀ sh ∈ elf.shdrs, sh.type = .rela → sh.offset + sh.size ≤ length ∧ 24 ∣ sh.size

/-- A byte of a segment: from the file, or zero behind it. -/
def Elf64.segmentByte (elf : Elf64) (bytes : Bytes) (ph : Elf64Phdr) (k : Nat) : UInt8 :=
  if k < ph.filesz then bytes (elf.base + ph.offset + k) else 0

/-- The image at the addresses it is linked to. -/
def Elf64.linked (elf : Elf64) (bytes : Bytes) : Bytes := fun address =>
  match elf.segments.find? fun ph => ph.Has address with
  | some ph => elf.segmentByte bytes ph (address - ph.paddr)
  | none => 0

/-- An address that a RELA entry writes to. -/
def Elf64.IsTarget (elf : Elf64) (bytes : Bytes) (address : Nat) : Prop :=
  ∃ e ∈ elf.relas bytes, e.offset ≤ address ∧ address < e.offset + 8

/-- The image is loaded with the offset `reloc`. -/
structure Loaded (reservations : Reservations) (elf : Elf64) (before after : Bytes)
    (result reloc : Nat) : Prop where
  word : reloc < 2 ^ 64
  located : ∀ ph ∈ elf.segments, 0 < ph.memsz →
    Wordsize.w64.add ph.paddr reloc + ph.memsz ≤ 2 ^ 32
  copied : ∀ ph ∈ elf.segments, ∀ k < ph.filesz, ¬ elf.IsTarget before (ph.paddr + k) →
    after (Wordsize.w64.add ph.paddr reloc + k) = before (elf.base + ph.offset + k)
  zeroed : ∀ ph ∈ elf.segments, ∀ k, ph.filesz ≤ k → k < ph.memsz →
    ¬ elf.IsTarget before (ph.paddr + k) → after (Wordsize.w64.add ph.paddr reloc + k) = 0
  aligned : ∀ ph ∈ elf.segments, Wordsize.w64.add ph.paddr reloc ≡ ph.paddr [MOD ph.align]
  unreserved : ∀ ph ∈ elf.segments, ∀ k < ph.memsz,
    ¬ Covered reservations (Wordsize.w64.add ph.paddr reloc + k)
  written : ∀ address, after address ≠ before address →
    ∃ ph ∈ elf.segments, ∃ k < ph.memsz, address = Wordsize.w64.add ph.paddr reloc + k
  relocated : ∀ e ∈ elf.relas before, Holds after (Wordsize.w64.add e.offset reloc)
    (leBytes 8 (Wordsize.w64.add e.addend reloc))
  entry : result = Wordsize.w64.add elf.entry reloc % 2 ^ 32

/-! ## Copying the segments -/

/-- All segments stay below 4 GiB when address `m` of the image is put to `p`. -/
structure Shifts (elf : Elf64) (p m : Nat) : Prop where
  above : ∀ ph ∈ elf.segments, m ≤ ph.paddr
  within : ∀ ph ∈ elf.segments, p + (ph.paddr - m) + ph.memsz ≤ 2 ^ 32

/-- They get to memory that is not reserved. -/
structure PlacedAt (reservations : Reservations) (elf : Elf64) (p m : Nat) : Prop extends
    Shifts elf p m where
  free : ∀ ph ∈ elf.segments, ∀ k < ph.memsz, ¬ Covered reservations (p + (ph.paddr - m) + k)

def segmentTransfer (elf : Elf64) (p m : Nat) (ph : Elf64Phdr) : Transfer Nat UInt8 :=
  padTransfer (elf.base + ph.offset) ((p + (ph.paddr - m)) % 2 ^ 32) ph.filesz
    (ph.memsz - ph.filesz)

section

variable {reservations : Reservations} {elf : Elf64} {bytes : Bytes} {length p m : Nat}

theorem mem_segments {ph : Elf64Phdr} : ph ∈ elf.segments ↔ ph ∈ elf.phdrs ∧ ph.load = true := by
  rw [Elf64.segments, List.mem_filter]

section

variable (image : ImageOk elf bytes) (file : FileReserved elf reservations length)
  (placed : PlacedAt reservations elf p m)

include image in
theorem shifted_segment {ph : Elf64Phdr} (member : ph ∈ elf.segments)
    (placed : Shifts elf p m) {k : Nat} (inside : k ≤ ph.memsz) :
    Wordsize.w64.add (ph.paddr + k) (Wordsize.w64.sub p m) = p + (ph.paddr - m) + k := by
  have above := placed.above ph member
  have within := placed.within ph member
  have below := image.below ph member
  have modulus : Wordsize.w64.modulus = 2 ^ 64 := rfl
  rw [Wordsize.w64.add_sub_of_le (by omega) (by omega) (by omega)]
  omega

include file placed in
/-- No segment takes all of the 4 GiB, since the file has its place there. -/
theorem segment_size_lt {ph : Elf64Phdr} (member : ph ∈ elf.segments) : ph.memsz < 2 ^ 32 := by
  by_contra large
  have within := placed.within ph member
  have below := file.below
  have nonempty := file.nonempty
  have covered := file.reserved elf.base le_rfl (by omega)
  have start : p + (ph.paddr - m) = 0 := by omega
  apply placed.free ph member elf.base (by omega)
  rw [start, Nat.zero_add]
  exact covered

include image file placed in
theorem copy_segment {ph : Elf64Phdr} (member : ph ∈ elf.segments) (current : Bytes) :
    copySegment elf (Wordsize.w64.sub p m) current ph =
      .ok ((segmentTransfer elf p m ph).run current) := by
  have load := (mem_segments.mp member).2
  have within := placed.within ph member
  have size := segment_size_lt file placed member
  have sizes := image.sizes ph member
  have inFile := file.segments ph member
  have fileBelow := file.below
  have target := shifted_segment image member placed.toShifts (Nat.zero_le _)
  rw [Nat.add_zero, Nat.add_zero] at target
  have inRange : isRangeIn4g elf.base ph.offset = true := by
    simp only [isRangeIn4g, Bool.and_eq_true, decide_eq_true_eq]
    omega
  have source : add32 elf.base ph.offset = elf.base + ph.offset := add32_of_lt (by omega)
  unfold copySegment
  simp only [load, inRange, source, target, Bool.not_true, Bool.false_eq_true, if_false]
  rw [Nat.mod_eq_of_lt (show ph.filesz < 2 ^ 32 by omega)]
  change _ = Except.ok (memset _ 0 (ph.memsz - ph.filesz) _)
  split_ifs with pads
  · have low : (p + (ph.paddr - m)) % 2 ^ 32 = p + (ph.paddr - m) :=
      Nat.mod_eq_of_lt (by omega)
    have padStart : add32 (p + (ph.paddr - m)) ph.filesz = p + (ph.paddr - m) + ph.filesz :=
      add32_of_lt (by omega)
    rw [low, padStart, Nat.mod_eq_of_lt (by omega)]
  · have noPad : ph.memsz - ph.filesz = 0 := by omega
    rw [noPad, memset_zero]

include image file placed in
theorem copy_segments {phdrs : List Elf64Phdr} (part : phdrs ⊆ elf.phdrs) (current : Bytes) :
    phdrs.foldlM (copySegment elf (Wordsize.w64.sub p m)) current =
      .ok (runAll ((phdrs.filter (·.load)).map (segmentTransfer elf p m)) current) := by
  induction phdrs generalizing current with
  | nil => rfl
  | cons ph rest ih =>
      obtain ⟨member, restPart⟩ := List.cons_subset.mp part
      rw [List.foldlM_cons]
      cases load : ph.load with
      | false =>
          have skipped : copySegment elf (Wordsize.w64.sub p m) current ph = .ok current := by
            simp [copySegment, load]
          rw [skipped, ok_bind, ih restPart, List.filter_cons_of_neg (by simp [load])]
      | true =>
          rw [copy_segment image file placed (mem_segments.mpr ⟨member, load⟩), ok_bind,
            ih restPart, List.filter_cons_of_pos load, List.map_cons, run_all_cons]

include image placed in
/-- The memory that a segment is copied to. -/
theorem mem_segment_window {ph : Elf64Phdr} (member : ph ∈ elf.segments) {address : Nat} :
    address ∈ (segmentTransfer elf p m ph).window ↔
      ∃ k < ph.memsz, address = p + (ph.paddr - m) + k := by
  have within := placed.within ph member
  have sizes := image.sizes ph member
  change (_ ≤ address ∧ address < _ + ph.filesz + (ph.memsz - ph.filesz)) ↔ _
  rcases Nat.eq_zero_or_pos ph.memsz with empty | pos
  · constructor
    · rintro ⟨above, less⟩
      omega
    · rintro ⟨k, inside, _⟩
      omega
  · rw [Nat.mod_eq_of_lt (by omega)]
    constructor
    · rintro ⟨above, less⟩
      exact ⟨address - (p + (ph.paddr - m)), by omega, by omega⟩
    · rintro ⟨k, inside, rfl⟩
      omega

include image file placed in
/-- Segments are copied from reserved memory to places of their own. -/
theorem segments_keep_clear :
    (elf.segments.map (segmentTransfer elf p m)).Pairwise Transfer.KeepsClear := by
  rw [List.pairwise_map]
  apply List.Pairwise.imp_of_mem _ image.apart
  intro x y xMember yMember apart
  constructor
  · intro address inSource inWindow
    obtain ⟨k, inside, rfl⟩ := (mem_segment_window image placed xMember).mp inWindow
    obtain ⟨above, less⟩ := inSource
    have inFile := file.segments y yMember
    exact placed.free x xMember k inside (file.reserved _ (by omega) (by omega))
  · intro address inTarget inWindow
    obtain ⟨k, inside, rfl⟩ := (mem_segment_window image placed xMember).mp inTarget
    obtain ⟨j, inOther, same⟩ := (mem_segment_window image placed yMember).mp inWindow
    have xAbove := placed.above x xMember
    have yAbove := placed.above y yMember
    exact apart (x.paddr + k) ⟨by omega, by omega⟩ ⟨by omega, by omega⟩

/-- The memory after the second pass. -/
structure Copied (elf : Elf64) (p m : Nat) (bytes copied : Bytes) : Prop where
  inside : ∀ ph ∈ elf.segments, ∀ k < ph.memsz,
    copied (p + (ph.paddr - m) + k) = elf.segmentByte bytes ph k
  outside : ∀ address, (∀ ph ∈ elf.segments, ∀ k < ph.memsz, address ≠ p + (ph.paddr - m) + k) →
    copied address = bytes address

include image file placed in
theorem copy_segments_copied :
    ∃ copied, elf.phdrs.foldlM (copySegment elf (Wordsize.w64.sub p m)) bytes = .ok copied ∧
      Copied elf p m bytes copied := by
  refine ⟨_, copy_segments image file placed (List.Subset.refl _) bytes, ?_, ?_⟩
  · intro ph member k inside
    have within := placed.within ph member
    have sizes := image.sizes ph member
    have inTarget := (mem_segment_window image placed member).mpr ⟨k, inside, rfl⟩
    rw [← Elf64.segments, run_all_target (segments_keep_clear image file placed)
      (List.mem_map_of_mem member) inTarget]
    have low : (p + (ph.paddr - m)) % 2 ^ 32 = p + (ph.paddr - m) := Nat.mod_eq_of_lt (by omega)
    rw [segmentTransfer, low, pad_transfer_run (by omega)]
    rfl
  · intro address outside
    apply run_all_frame
    intro transfer isTransfer inWindow
    obtain ⟨ph, member, rfl⟩ := List.mem_map.mp isTransfer
    obtain ⟨k, inside, same⟩ := (mem_segment_window image placed member).mp inWindow
    exact outside ph member k inside same

end

/-! ## Applying the RELA entries -/

/-- What the third pass writes for an entry. -/
def relaWrite (p m : Nat) (e : Elf64Rela) : Nat × List UInt8 :=
  (p + (e.offset - m), leBytes 8 (Wordsize.w64.add e.addend (Wordsize.w64.sub p m)))

/-- The file still stands where it stood. -/
def KeepsFile (elf : Elf64) (length : Nat) (bytes current : Bytes) : Prop :=
  ∀ address, elf.base ≤ address → address < elf.base + length → current address = bytes address

theorem rela_at_kept {current : Bytes} {address : Nat} (kept : KeepsFile elf length bytes current)
    (above : elf.base ≤ address) (inside : address + 24 ≤ elf.base + length) :
    relaAt current address = relaAt bytes address := by
  have same : ∀ offset, offset + 8 ≤ 24 →
      readLe current (address + offset) 8 = readLe bytes (address + offset) 8 := by
    intro offset small
    apply read_le_congr
    intro i less
    exact kept _ (by omega) (by omega)
  have first := same 0 (by omega)
  rw [Nat.add_zero] at first
  rw [relaAt, relaAt, first, same 8 (by omega), same 16 (by omega)]

theorem mem_rela_addresses {start size address : Nat} (whole : 24 ∣ size)
    (member : address ∈ relaAddresses start (start + size)) :
    start ≤ address ∧ address + 24 ≤ start + size := by
  obtain ⟨k, inRange, rfl⟩ := List.mem_map.mp member
  obtain ⟨count, rfl⟩ := whole
  rw [List.mem_range] at inRange
  omega

section

variable (image : ImageOk elf bytes) (file : FileReserved elf reservations length)
  (placed : PlacedAt reservations elf p m)

include image placed in
/-- The target of an entry moves with the segment around it. -/
theorem shifted_target {e : Elf64Rela} (member : e ∈ elf.relas bytes) :
    Wordsize.w64.add e.offset (Wordsize.w64.sub p m) = p + (e.offset - m) ∧
      p + (e.offset - m) + 8 ≤ 2 ^ 32 ∧
      ∀ k < 8, ∃ ph ∈ elf.segments, ∃ j < ph.memsz, p + (e.offset - m) + k =
        p + (ph.paddr - m) + j := by
  obtain ⟨_, ph, isSegment, above, inside⟩ := image.relative e member
  have low := placed.above ph isSegment
  have within := placed.within ph isSegment
  have shifted := shifted_segment image isSegment placed.toShifts
    (show e.offset - ph.paddr ≤ ph.memsz by omega)
  rw [Nat.add_sub_cancel' above] at shifted
  refine ⟨by omega, by omega, ?_⟩
  intro k small
  exact ⟨ph, isSegment, e.offset - ph.paddr + k, by omega, by omega⟩

include image placed in
theorem relocate_entry {current : Bytes} {address : Nat}
    (kept : KeepsFile elf length bytes current) (above : elf.base ≤ address)
    (inside : address + 24 ≤ elf.base + length) (member : relaAt bytes address ∈ elf.relas bytes) :
    relocateRelaEntry (Wordsize.w64.sub p m) current address =
      .ok (writeList (relaWrite p m (relaAt bytes address)).1
        (relaWrite p m (relaAt bytes address)).2 current) := by
  obtain ⟨target, within, _⟩ := shifted_target image placed member
  have isRelative := (image.relative _ member).1
  unfold relocateRelaEntry
  simp only [rela_at_kept kept above inside, isRelative, if_true, target]
  rw [Nat.mod_eq_of_lt (by omega)]
  rfl

include image file placed in
theorem rela_writes_keep_file {entries : List Elf64Rela} {current : Bytes}
    (kept : KeepsFile elf length bytes current) (part : entries ⊆ elf.relas bytes) :
    KeepsFile elf length bytes (writeAll (entries.map (relaWrite p m)) current) := by
  intro address above less
  rw [write_all_outside, kept address above less]
  intro write isWrite
  obtain ⟨e, isEntry, rfl⟩ := List.mem_map.mp isWrite
  obtain ⟨_, _, inSegment⟩ := shifted_target image placed (part isEntry)
  simp only [relaWrite, length_le_bytes]
  by_contra shared
  obtain ⟨ph, isSegment, j, inside, same⟩ :=
    inSegment (address - (p + (e.offset - m))) (by omega)
  apply placed.free ph isSegment j inside
  rw [← same, Nat.add_sub_cancel' (by omega)]
  exact file.reserved address above less

include image file placed in
theorem relocate_entries {addresses : List Nat} {current : Bytes}
    (kept : KeepsFile elf length bytes current)
    (inFile : ∀ address ∈ addresses, elf.base ≤ address ∧ address + 24 ≤ elf.base + length ∧
      relaAt bytes address ∈ elf.relas bytes) :
    addresses.foldlM (relocateRelaEntry (Wordsize.w64.sub p m)) current =
      .ok (writeAll ((addresses.map (relaAt bytes)).map (relaWrite p m)) current) := by
  induction addresses generalizing current with
  | nil => rfl
  | cons address rest ih =>
      obtain ⟨above, inside, member⟩ := inFile address (by simp)
      have next := rela_writes_keep_file image file placed kept
        (List.cons_subset.mpr ⟨member, List.nil_subset _⟩)
      rw [List.foldlM_cons, relocate_entry image placed kept above inside member, ok_bind]
      exact ih next fun other inRest => inFile other (by simp [inRest])

include image file placed in
theorem relocate_sections {shdrs : List Elf64Shdr} {current : Bytes}
    (kept : KeepsFile elf length bytes current) (part : shdrs ⊆ elf.shdrs) :
    shdrs.foldlM (relocateSection elf (Wordsize.w64.sub p m)) current =
      .ok (writeAll (({ elf with shdrs := shdrs }.relas bytes).map (relaWrite p m)) current) := by
  induction shdrs generalizing current with
  | nil => rfl
  | cons sh rest ih =>
      obtain ⟨member, restPart⟩ := List.cons_subset.mp part
      rw [List.foldlM_cons, Elf64.relas, List.flatMap_cons]
      cases kind : sh.type with
      | rel => exact absurd kind (image.noRel sh member)
      | other =>
          simp only [relocateSection, kind, ok_bind, reduceCtorEq, if_false, List.nil_append]
          exact ih kept restPart
      | rela =>
          obtain ⟨inside, whole⟩ := file.sections sh member kind
          have below := file.below
          have start : add32 elf.base sh.offset = elf.base + sh.offset := add32_of_lt (by omega)
          have stop : add32 (elf.base + sh.offset) sh.size = elf.base + sh.offset + sh.size :=
            add32_of_lt (by omega)
          have here : ∀ address ∈
              relaAddresses (elf.base + sh.offset) (elf.base + sh.offset + sh.size),
              elf.base ≤ address ∧ address + 24 ≤ elf.base + length ∧
                relaAt bytes address ∈ elf.relas bytes := by
            intro address isAddress
            obtain ⟨above, less⟩ := mem_rela_addresses whole isAddress
            refine ⟨by omega, by omega, List.mem_flatMap.mpr ⟨sh, member, ?_⟩⟩
            rw [if_pos kind]
            exact List.mem_map_of_mem isAddress
          have next := @rela_writes_keep_file reservations elf bytes length p m image file placed
            ((relaAddresses (elf.base + sh.offset) (elf.base + sh.offset + sh.size)).map
              (relaAt bytes)) current kept (by
                intro e isEntry
                obtain ⟨address, isAddress, rfl⟩ := List.mem_map.mp isEntry
                exact (here address isAddress).2.2)
          simp only [relocateSection, kind, start, stop, if_true]
          rw [relocate_entries image file placed kept here, ok_bind, ih next restPart, List.map_append,
            writeAll, writeAll, writeAll, List.foldl_append]
          rfl

include image file placed in
/-- A run of the loader with its offset chosen. -/
theorem load_elf_run {alloc : Option Mbi} {st after : AllocState}
    (chosen : chooseReloc alloc reservations elf st = .ok (Wordsize.w64.sub p m, after)) :
    ∃ copied, Copied elf p m bytes copied ∧
      loadElf alloc reservations elf st bytes =
        .ok (Wordsize.w64.add elf.entry (Wordsize.w64.sub p m) % 2 ^ 32,
          if Wordsize.w64.sub p m = 0 then copied
          else writeAll ((elf.relas bytes).map (relaWrite p m)) copied, after) := by
  obtain ⟨copied, ran, isCopied⟩ := copy_segments_copied image file placed
  refine ⟨copied, isCopied, ?_⟩
  have kept : KeepsFile elf length bytes copied := by
    intro address above less
    apply isCopied.outside
    rintro ph member k inside rfl
    exact placed.free ph member k inside (file.reserved _ above less)
  rw [loadElf, image.header, ok_bind, chosen, ok_bind]
  simp only
  rw [ran, ok_bind]
  by_cases inPlace : Wordsize.w64.sub p m = 0
  · rw [if_neg (not_not.mpr inPlace), if_pos inPlace, ok_bind]
  · rw [if_pos inPlace, if_neg inPlace,
      relocate_sections image file placed kept (List.Subset.refl _), ok_bind]

end

end

end Boot32

end L4Bootstrap
