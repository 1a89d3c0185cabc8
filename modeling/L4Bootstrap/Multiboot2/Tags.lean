import L4Bootstrap.Multiboot2.Buffer

/-!
# Well-formed multiboot2 information and what a v1 structure denotes

The input side: tags as byte lists, and an information buffer made of them. The
output side: what a reader of the v1 structures finds in memory. `SameData`
compares the two.
-/

namespace L4Bootstrap.Multiboot2

open MachineWord ByteMemory

set_option autoImplicit false

/-! ## Tags -/

/-- A tag with its padding to the next multiple of eight. -/
structure Tag where
  raw : List UInt8
  header : 8 ≤ leAt raw 4 4
  padded : roundUp 3 (leAt raw 4 4) = raw.length
  deriving DecidableEq

namespace Tag

def size (t : Tag) : Nat := leAt t.raw 4 4

def kind (t : Tag) : TagKind := tagKind (leAt t.raw 0 4)

def payload (t : Tag) (offset : Nat) : List UInt8 := (t.raw.take t.size).drop offset

/-- The C string at an offset. -/
def text (t : Tag) (offset : Nat) : List UInt8 := (t.payload offset).takeWhile (· ≠ 0)

/-- The demands on the payload of a tag of a kind. -/
def FormedAs (t : Tag) : TagKind → Prop
  | .terminator => False
  | .bootCmdline => 0 ∈ t.payload 8
  | .module => 0 ∈ t.payload 16
  | .memoryMap => 16 ≤ t.size ∧ leAt t.raw 8 4 = 24 ∧ 24 ∣ t.size - 16
  | .framebuffer => 32 ≤ t.size
  | .rsdp => True
  | .unknown => True

instance (t : Tag) : (kind : TagKind) → Decidable (t.FormedAs kind)
  | .terminator => inferInstanceAs (Decidable False)
  | .bootCmdline => inferInstanceAs (Decidable (0 ∈ t.payload 8))
  | .module => inferInstanceAs (Decidable (0 ∈ t.payload 16))
  | .memoryMap =>
      inferInstanceAs (Decidable (16 ≤ t.size ∧ leAt t.raw 8 4 = 24 ∧ 24 ∣ t.size - 16))
  | .framebuffer => inferInstanceAs (Decidable (32 ≤ t.size))
  | .rsdp => inferInstanceAs (Decidable True)
  | .unknown => inferInstanceAs (Decidable True)

def Formed (t : Tag) : Prop := t.FormedAs t.kind

instance (t : Tag) : Decidable t.Formed := inferInstanceAs (Decidable (t.FormedAs t.kind))

/-- A framebuffer of the one supported type. -/
def isVideo (t : Tag) : Bool := t.kind = .framebuffer ∧ leAt t.raw 29 1 = 1

/-- The bytes that the conversion of the tag takes from the end of the buffer. -/
def reserved (t : Tag) : Nat :=
  match t.kind with
  | .bootCmdline => t.raw.length - 8
  | .module => t.raw.length
  | .memoryMap => t.raw.length - 16
  | .rsdp => t.raw.length - 8
  | .framebuffer => if t.isVideo then vbeModeSize + vbeCtrlSize else 0
  | .terminator => 0
  | .unknown => 0

/-- The bytes of the tag that stay behind the unread tags after its conversion. -/
def leftover (t : Tag) : Nat :=
  match t.kind with
  | .bootCmdline => 8
  | .memoryMap => 16
  | .rsdp => 8
  | .framebuffer => t.raw.length - t.reserved
  | .module => 0
  | .terminator => 0
  | .unknown => 0

theorem size_le (t : Tag) : t.size ≤ t.raw.length := by
  rw [← t.padded]
  exact le_round_up 3 _

theorem eight_le (t : Tag) : 8 ≤ t.raw.length := t.header.trans t.size_le

theorem length_payload (t : Tag) (offset : Nat) : (t.payload offset).length = t.size - offset := by
  rw [payload, List.length_drop, List.length_take, Nat.min_eq_left t.size_le]

theorem le_size_of_mem {t : Tag} {offset : Nat} (ended : 0 ∈ t.payload offset) :
    offset < t.size := by
  have pos := List.length_pos_of_mem ended
  rw [length_payload] at pos
  omega

end Tag

section

variable {bytes : Bytes} {p : Nat} {t : Tag}

theorem tag_size_eq (held : Holds bytes p t.raw) : tagSize bytes p = t.size :=
  held.read_le (by have := t.eight_le; omega)

theorem tag_kind_eq (held : Holds bytes p t.raw) : tagKind (tagType bytes p) = t.kind := by
  have type : readLe bytes (p + 0) 4 = leAt t.raw 0 4 :=
    held.read_le (by have := t.eight_le; omega)
  exact congrArg tagKind type

/-- Where a tag stands in memory, its payload stands behind its header. -/
theorem holds_payload (held : Holds bytes p t.raw) {offset : Nat} (inside : offset ≤ t.size) :
    Holds bytes (p + offset) (t.payload offset) := by
  have takeLength : (t.raw.take t.size).length = t.size := by
    rw [List.length_take, Nat.min_eq_left t.size_le]
  have whole := held
  rw [← List.take_append_drop t.size t.raw, holds_append] at whole
  have front := whole.1
  rw [← List.take_append_drop offset (t.raw.take t.size), holds_append] at front
  have skip : ((t.raw.take t.size).take offset).length = offset := by
    rw [List.length_take, takeLength, Nat.min_eq_left inside]
  rw [skip] at front
  exact front.2

end

/-! ## The information buffer -/

def image (tags : List Tag) : List UInt8 := tags.flatMap Tag.raw

def total (tags : List Tag) (last : Tag) : Nat := 8 + (image tags).length + last.raw.length

/-- The kinds of which there is at most one tag. -/
def singleKinds : List TagKind := [.bootCmdline, .memoryMap, .framebuffer, .rsdp]

/-- A well-formed multiboot2 information buffer in memory. No module tag stands
behind the first block of module tags. -/
structure Info where
  bytes : Bytes
  address : Nat
  reserved : Nat
  tags : List Tag
  last : Tag
  formed : ∀ t ∈ tags, t.Formed
  ends : last.kind = .terminator
  together : ∀ t ∈ (tags.dropWhile (·.kind ≠ .module)).dropWhile (·.kind = .module),
    t.kind ≠ .module
  single : ∀ kind ∈ singleKinds, tags.countP (·.kind = kind) ≤ 1
  fits : address + total tags last < 2 ^ 32
  held : Holds bytes address
    (leBytes 4 (total tags last) ++ leBytes 4 reserved ++ (image tags ++ last.raw))

def reservedBy (tags : List Tag) : Nat := (tags.map Tag.reserved).sum

def leftoverOf (tags : List Tag) : Nat := (tags.map Tag.leftover).sum

/-- Enough space for the assertions of `finalize`. -/
def Info.HasSpace (info : Info) : Prop :=
  reservedBy info.tags + mbiSize +
    (if info.tags.any Tag.isVideo then vbeModeSize + vbeCtrlSize else 0) ≤
      total info.tags info.last

/-- The framebuffer reservation takes nothing but the framebuffer tag and the
leftovers of earlier tags, or every tag behind it is skipped. -/
def Info.FramebufferClear (info : Info) : Prop :=
  ∀ before t after, info.tags = before ++ t :: after → t.isVideo = true →
    (∀ u ∈ after, u.kind = .unknown) ∨
      vbeModeSize + vbeCtrlSize ≤ leftoverOf before + t.raw.length

/-! ## What the v1 structures denote -/

structure AddrRange where
  addr : Nat
  size : Nat
  type : Nat
  deriving DecidableEq, Repr

/-- The string at an address. -/
def Spells (bytes : Bytes) (p : Nat) (s : List UInt8) : Prop :=
  0 ∉ s ∧ Holds bytes p (s ++ [0])

/-- A v1 module record. -/
structure DenotesModule (bytes : Bytes) (p start stop : Nat) (cmdline : List UInt8) : Prop where
  start : readLe bytes p 4 = start
  stop : readLe bytes (p + 4) 4 = stop
  cmdline : Spells bytes (readLe bytes (p + 8) 4) cmdline

/-- The entries of a v1 memory map: each one says how long it is. -/
def addrRanges (bytes : Bytes) : Nat → Nat → Nat → List AddrRange
  | 0, _, _ => []
  | rounds + 1, p, stop =>
      if p < stop then
        ⟨readLe bytes (p + 4) 8, readLe bytes (p + 12) 8, readLe bytes (p + 20) 4⟩ ::
          addrRanges bytes rounds (p + (readLe bytes p 4 + 4)) stop
      else []

/-- The `i`-th entry of a memory map tag. -/
def Tag.range (t : Tag) (i : Nat) : AddrRange where
  addr := leAt t.raw (16 + 24 * i) 8
  size := leAt t.raw (16 + 24 * i + 8) 8
  type := leAt t.raw (16 + 24 * i + 16) 4

def Tag.ranges (t : Tag) : List AddrRange := (List.range ((t.size - 16) / 24)).map t.range

def firstOf (kind : TagKind) (tags : List Tag) : Option Tag := tags.find? (·.kind = kind)

def modulesOf (tags : List Tag) : List Tag := tags.filter (·.kind = .module)

/-- The v1 structure at `mbi` and the ACPI globals denote the data of the tags. -/
structure SameData (b : ConvertibleBuffer) (mbi : Nat) (tags : List Tag) : Prop where
  hasCmdline : (readLe b.bytes mbi 4).testBit 2 = (firstOf .bootCmdline tags).isSome
  cmdline : ∀ t ∈ firstOf .bootCmdline tags,
    Spells b.bytes (readLe b.bytes (mbi + 16) 4) (t.text 8)
  hasModules : (readLe b.bytes mbi 4).testBit 3 = decide (modulesOf tags ≠ [])
  modsCount : readLe b.bytes (mbi + 20) 4 = (modulesOf tags).length
  modules : ∀ i t, (modulesOf tags)[i]? = some t →
    DenotesModule b.bytes (readLe b.bytes (mbi + 24) 4 + 16 * i)
      (leAt t.raw 8 4) (leAt t.raw 12 4) (t.text 16)
  hasMemmap : (readLe b.bytes mbi 4).testBit 6 = (firstOf .memoryMap tags).isSome
  memmap : ∀ t ∈ firstOf .memoryMap tags,
    addrRanges b.bytes (readLe b.bytes (mbi + 44) 4) (readLe b.bytes (mbi + 48) 4)
      (readLe b.bytes (mbi + 48) 4 + readLe b.bytes (mbi + 44) 4) = t.ranges
  noRsdp : firstOf .rsdp tags = none → b.rsdpStart = 0 ∧ b.rsdpSize = 0
  rsdp : ∀ t ∈ firstOf .rsdp tags, readList b.bytes b.rsdpStart b.rsdpSize = t.payload 8

end L4Bootstrap.Multiboot2
