import L4Bootstrap.Support
import L4Bootstrap.Lib.ByteImage

/-!
# The multiboot2 information buffer

`multiboot2.cc`: the conversion of a multiboot2 information buffer into the
multiboot (v1) structures, in place and on a 32-bit machine. Memory is a byte
image, pointers are addresses; the layouts of the tags and of the v1 structures
are those of the multiboot specifications. The two ACPI globals `rsdp_start` and
`rsdp_size` are fields of the buffer.
-/

namespace L4Bootstrap.Multiboot2

open MachineWord ByteMemory CheckedLoop

set_option autoImplicit false

def add32 (a b : Nat) : Nat := Wordsize.w32.add a b

def sub32 (a b : Nat) : Nat := Wordsize.w32.sub a b

/-- `l4_round_size (size, L4UTIL_MB2_TAG_ALIGN_SHIFT)`. -/
def roundTag (size : Nat) : Nat := Wordsize.w32.roundSize 3 size

inductive TagKind
  | terminator
  | bootCmdline
  | module
  | memoryMap
  | framebuffer
  | rsdp
  | unknown
  deriving DecidableEq, Repr

def tagKind : Nat → TagKind
  | 0 => .terminator
  | 1 => .bootCmdline
  | 3 => .module
  | 6 => .memoryMap
  | 8 => .framebuffer
  | 14 => .rsdp
  | 15 => .rsdp
  | _ => .unknown

/-! ## The v1 structures -/

/-- The fields of `l4util_mb_info_t` that the conversion sets. -/
structure Mbi where
  flags : Nat := 0
  cmdline : Nat := 0
  modsCount : Nat := 0
  modsAddr : Nat := 0
  mmapLength : Nat := 0
  mmapAddr : Nat := 0
  vbeCtrlInfo : Nat := 0
  vbeModeInfo : Nat := 0
  deriving DecidableEq, Repr

def flagCmdline : Nat := 2 ^ 2
def flagMods : Nat := 2 ^ 3
def flagMemMap : Nat := 2 ^ 6
def flagVideoInfo : Nat := 2 ^ 11

/-- The 22 words of the structure. -/
def Mbi.words (mbi : Mbi) : List Nat :=
  [mbi.flags, 0, 0, 0, mbi.cmdline, mbi.modsCount, mbi.modsAddr, 0, 0, 0, 0, mbi.mmapLength,
    mbi.mmapAddr, 0, 0, 0, 0, 0, mbi.vbeCtrlInfo, mbi.vbeModeInfo, 0, 0]

def Mbi.encode (mbi : Mbi) : List UInt8 := mbi.words.flatMap (leBytes 4)

structure VbeMode where
  bytesPerScanline : Nat := 0
  xResolution : Nat := 0
  yResolution : Nat := 0
  bitsPerPixel : Nat := 0
  redMaskSize : Nat := 0
  redFieldPosition : Nat := 0
  greenMaskSize : Nat := 0
  greenFieldPosition : Nat := 0
  blueMaskSize : Nat := 0
  blueFieldPosition : Nat := 0
  physBase : Nat := 0
  reserved1 : Nat := 0
  deriving DecidableEq, Repr

def zeros (n : Nat) : List UInt8 := List.replicate n 0

@[simp] theorem length_zeros (n : Nat) : (zeros n).length = n := List.length_replicate

def VbeMode.encode (mode : VbeMode) : List UInt8 :=
  zeros 16 ++ leBytes 2 mode.bytesPerScanline ++ leBytes 2 mode.xResolution ++
    leBytes 2 mode.yResolution ++ zeros 3 ++ leBytes 1 mode.bitsPerPixel ++ zeros 5 ++
    leBytes 1 mode.redMaskSize ++ leBytes 1 mode.redFieldPosition ++
    leBytes 1 mode.greenMaskSize ++ leBytes 1 mode.greenFieldPosition ++
    leBytes 1 mode.blueMaskSize ++ leBytes 1 mode.blueFieldPosition ++ zeros 3 ++
    leBytes 4 mode.physBase ++ leBytes 4 mode.reserved1 ++ zeros 208

structure VbeCtrl where
  totalMemory : Nat := 0
  deriving DecidableEq, Repr

def VbeCtrl.encode (ctrl : VbeCtrl) : List UInt8 :=
  zeros 18 ++ leBytes 2 ctrl.totalMemory ++ zeros 492

def mbiSize : Nat := 88
def vbeModeSize : Nat := 256
def vbeCtrlSize : Nat := 512

theorem length_mbi_encode (mbi : Mbi) : mbi.encode.length = mbiSize := by
  simp only [Mbi.encode, Mbi.words, List.flatMap_cons, List.flatMap_nil, List.length_append,
    List.length_nil, length_le_bytes, mbiSize]

theorem length_vbe_mode_encode (mode : VbeMode) : mode.encode.length = vbeModeSize := by
  simp only [VbeMode.encode, List.length_append, length_zeros, length_le_bytes, vbeModeSize]

theorem length_vbe_ctrl_encode (ctrl : VbeCtrl) : ctrl.encode.length = vbeCtrlSize := by
  simp only [VbeCtrl.encode, List.length_append, length_zeros, length_le_bytes, vbeCtrlSize]

/-! ## The buffer -/

structure ConvertibleBuffer where
  bytes : Bytes
  buf : Nat
  size : Nat
  mbi : Mbi := {}
  vbeMode : VbeMode := {}
  vbeCtrl : VbeCtrl := {}
  rsdpStart : Nat := 0
  rsdpSize : Nat := 0

/-- `end ()`. -/
def ConvertibleBuffer.stop (b : ConvertibleBuffer) : Nat := add32 b.buf b.size

def tagType (bytes : Bytes) (tag : Nat) : Nat := readLe bytes tag 4

def tagSize (bytes : Bytes) (tag : Nat) : Nat := readLe bytes (tag + 4) 4

/-- The temporary buffer of `rotate_to_end`. -/
def rotateBuffer : Nat := 1024

/-- The loop of `rotate_to_end`; a round takes at least one byte, so `size`
rounds are enough. -/
def rotateLoop (stop src : Nat) : Nat → Nat → Bytes → Bytes
  | 0, _, bytes => bytes
  | rounds + 1, size, bytes =>
      if size = 0 then bytes
      else
        let copied := min rotateBuffer size
        let buffer := readList bytes src copied
        let moved := memmove src (src + copied) (sub32 (sub32 stop src) copied) bytes
        rotateLoop stop src rounds (size - copied) (writeList (sub32 stop copied) buffer moved)

def rotateToEnd (b : ConvertibleBuffer) (tag : Nat) : ConvertibleBuffer × Nat :=
  let size := roundTag (tagSize b.bytes tag)
  ({ b with bytes := rotateLoop b.stop tag size size b.bytes }, sub32 b.stop size)

def reserveFromEnd (size : Nat) (b : ConvertibleBuffer) : Checked ConvertibleBuffer := do
  require (roundTag size ≤ b.size)
  .ok { b with size := b.size - roundTag size }

def processCmdline (b : ConvertibleBuffer) (tag : Nat) : Checked ConvertibleBuffer := do
  let (b, dst) := rotateToEnd b tag
  let b ← reserveFromEnd (sub32 (tagSize b.bytes dst) 8) b
  .ok { b with mbi := { b.mbi with flags := b.mbi.flags ||| flagCmdline, cmdline := dst + 8 } }

/-- The v1 record of a module tag. -/
def modRecord (bytes : Bytes) (dst : Nat) : List UInt8 :=
  leBytes 4 (readLe bytes (dst + 8) 4) ++ leBytes 4 (readLe bytes (dst + 12) 4) ++
    leBytes 4 (dst + 16) ++ leBytes 4 0

def moduleRound (tag : Nat) (st : ConvertibleBuffer × Nat) :
    Checked (Round (ConvertibleBuffer × Nat) (ConvertibleBuffer × Nat)) := do
  if tagKind (tagType st.1.bytes tag) = .module then
    let (b, dst) := rotateToEnd st.1 tag
    let b ← reserveFromEnd (sub32 (tagSize b.bytes dst) 16) b
    .ok (.again ({ b with bytes := writeList dst (modRecord b.bytes dst) b.bytes }, st.2 + 1))
  else .ok (.leave st)

/-- The reservation of the converted records. -/
def reserveModules (b : ConvertibleBuffer) (cnt : Nat) : Checked ConvertibleBuffer :=
  if cnt = 0 then .ok b
  else do
    let b ← reserveFromEnd (16 * cnt) b
    .ok { b with
      mbi := { b.mbi with
        flags := b.mbi.flags ||| flagMods, modsCount := cnt, modsAddr := b.stop } }

def processModules (fuel : Nat) (b : ConvertibleBuffer) (tag : Nat) :
    Checked ConvertibleBuffer := do
  let (b, cnt) ← loop (moduleRound tag) .diverges fuel (b, 0)
  reserveModules b cnt

/-- The v1 record of a memory map entry. -/
def rangeRecord (entrySize : Nat) (bytes : Bytes) (entry : Nat) : List UInt8 :=
  leBytes 4 (sub32 entrySize 4) ++ leBytes 8 (readLe bytes entry 8) ++
    leBytes 8 (readLe bytes (entry + 8) 8) ++ leBytes 4 (readLe bytes (entry + 16) 4)

def memmapRound (dst entrySize : Nat) (st : Bytes × Nat) :
    Checked (Round (Bytes × Nat) Bytes) :=
  if st.2 < add32 dst (tagSize st.1 dst) then
    .ok (.again (writeList st.2 (rangeRecord entrySize st.1 st.2) st.1, add32 st.2 entrySize))
  else .ok (.leave st.1)

def processMemmap (fuel : Nat) (b : ConvertibleBuffer) (tag : Nat) :
    Checked ConvertibleBuffer := do
  let (b, dst) := rotateToEnd b tag
  let size := sub32 (tagSize b.bytes dst) 16
  let entrySize := readLe b.bytes (dst + 8) 4
  let bytes ← loop (memmapRound dst entrySize) .diverges fuel (b.bytes, dst + 16)
  let b ← reserveFromEnd size { b with bytes := bytes }
  .ok { b with
    mbi := { b.mbi with
      flags := b.mbi.flags ||| flagMemMap, mmapLength := size, mmapAddr := b.stop } }

def framebufferMode (bytes : Bytes) (dst : Nat) : VbeMode where
  physBase := readLe bytes (dst + 8) 8 % 2 ^ 32
  reserved1 := readLe bytes (dst + 8) 8 / 2 ^ 32
  bytesPerScanline := readLe bytes (dst + 16) 4 % 2 ^ 16
  xResolution := readLe bytes (dst + 20) 4 % 2 ^ 16
  yResolution := readLe bytes (dst + 24) 4 % 2 ^ 16
  bitsPerPixel := readLe bytes (dst + 28) 1
  redFieldPosition := readLe bytes (dst + 32) 1
  redMaskSize := readLe bytes (dst + 33) 1
  greenFieldPosition := readLe bytes (dst + 34) 1
  greenMaskSize := readLe bytes (dst + 35) 1
  blueFieldPosition := readLe bytes (dst + 36) 1
  blueMaskSize := readLe bytes (dst + 37) 1

def VbeMode.totalMemory (mode : VbeMode) : Nat :=
  (mode.bytesPerScanline * mode.yResolution + 64 * 1024 - 1) % 2 ^ 32 / (64 * 1024) % 2 ^ 16

/-- The part of `process_fb` behind the check of the framebuffer type. -/
def convertFb (b : ConvertibleBuffer) (dst : Nat) : Checked ConvertibleBuffer := do
  let b ← reserveFromEnd (vbeModeSize + vbeCtrlSize) b
  let mode := framebufferMode b.bytes dst
  .ok { b with
    vbeMode := mode
    vbeCtrl := { totalMemory := mode.totalMemory }
    mbi := { b.mbi with flags := b.mbi.flags ||| flagVideoInfo } }

def processFb (b : ConvertibleBuffer) (tag : Nat) : Checked ConvertibleBuffer :=
  let (b, dst) := rotateToEnd b tag
  if readLe b.bytes (dst + 29) 1 ≠ 1 then .ok b else convertFb b dst

def processRsdp (b : ConvertibleBuffer) (tag : Nat) : Checked ConvertibleBuffer := do
  let (b, dst) := rotateToEnd b tag
  let size := sub32 (tagSize b.bytes dst) 8
  let b ← reserveFromEnd size b
  .ok { b with rsdpStart := b.stop, rsdpSize := size }

/-- The copy of the two video structures to the start of the buffer, with the
number of bytes they take. -/
def finalizeVideo (b : ConvertibleBuffer) : Checked (ConvertibleBuffer × Nat) :=
  if b.mbi.flags.testBit 11 then do
    require (mbiSize + vbeModeSize + vbeCtrlSize ≤ b.size)
    let bytes := writeList b.buf b.vbeMode.encode b.bytes
    let bytes := writeList (b.buf + vbeModeSize) b.vbeCtrl.encode bytes
    .ok ({ b with
      bytes := bytes
      mbi := { b.mbi with vbeModeInfo := b.buf, vbeCtrlInfo := b.buf + vbeModeSize } },
      vbeModeSize + vbeCtrlSize)
  else .ok (b, 0)

def finalize (b : ConvertibleBuffer) : Checked (ConvertibleBuffer × Nat) := do
  require (mbiSize ≤ b.size)
  let (b, s) ← finalizeVideo b
  let bytes := writeList (b.buf + s) b.mbi.encode b.bytes
  .ok ({ b with bytes := memset (b.buf + (s + mbiSize)) 0 (b.size - (s + mbiSize)) bytes },
    b.buf + s)

/-! ## The conversion -/

/-- The `switch` over the type of the tag; the tag after it. -/
def processTag (fuel : Nat) (b : ConvertibleBuffer) (tag : Nat) :
    Checked (ConvertibleBuffer × Nat) :=
  match tagKind (tagType b.bytes tag) with
  | .bootCmdline => (·, tag) <$> processCmdline b tag
  | .module => (·, tag) <$> processModules fuel b tag
  | .memoryMap => (·, tag) <$> processMemmap fuel b tag
  | .framebuffer => (·, tag) <$> processFb b tag
  | .rsdp => (·, tag) <$> processRsdp b tag
  | .terminator | .unknown => .ok (b, add32 tag (roundTag (tagSize b.bytes tag)))

def convertRound (fuel : Nat) (st : ConvertibleBuffer × Nat) :
    Checked (Round (ConvertibleBuffer × Nat) ConvertibleBuffer) :=
  if tagKind (tagType st.1.bytes st.2) = .terminator then .ok (.leave st.1)
  else .again <$> processTag fuel st.1 st.2

/-- `_multiboot2_to_multiboot`: the buffer afterwards and the address of the v1
information structure. -/
def multiboot2ToMultiboot (fuel : Nat) (bytes : Bytes) (mbi2 : Nat) :
    Checked (ConvertibleBuffer × Nat) := do
  let b : ConvertibleBuffer := { bytes := bytes, buf := mbi2, size := readLe bytes mbi2 4 }
  let b ← loop (convertRound fuel) .diverges fuel (b, mbi2 + 8)
  finalize b

end L4Bootstrap.Multiboot2
