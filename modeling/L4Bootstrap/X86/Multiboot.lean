import L4Bootstrap.L4mod
import L4Bootstrap.ModuleMove
import L4Bootstrap.Multiboot2.Buffer
import Mathlib.Algebra.BigOperators.Ring.List

/-!
# The copy of the multiboot info

`Platform_x86_multiboot::construct_mbi` of `x86_pc.cc` up to the call of
`move_modules`. What the boot loader left in memory is kept beside the byte memory, as long
as the block is not taken from there: most of it lies in the regions named `.mbi`, but the
region of an empty string is dropped by the list.
-/

namespace L4Bootstrap.X86

open MachineWord CheckedState ByteMemory Multiboot2

set_option autoImplicit false

/-- `l4util_mb_mod_t`. -/
structure MbMod where
  modStart : UInt32
  modEnd : UInt32
  cmdline : UInt32
  deriving DecidableEq, Repr

/-- The multiboot info at its address, with what its pointers point to: the modules, the
string at each address and the two VBE blocks. A field whose flag is clear has any value. -/
structure MultibootInfo (W : Wordsize) where
  addr : Nat
  mbi : Mbi
  mods : List MbMod
  text : Nat → CString W
  vbeMode : List UInt8
  vbeCtrl : List UInt8
  counted : mbi.modsCount = mods.length
  few : mods.length < 2 ^ 32
  modeLength : vbeMode.length = vbeModeSize
  ctrlLength : vbeCtrl.length = vbeCtrlSize

variable {W : Wordsize}

/-- `round_wordsize (strlen (...) + 1)`. -/
def stringSize (c : CString W) : Nat := roundWordsize W (W.add c.strlen 1)

/-- `"cpu_firmware"`. -/
def cpuFirmware : List UInt8 := "cpu_firmware".toList.map fun c => UInt8.ofNat c.toNat

namespace MultibootInfo

def hasCmdline (src : MultibootInfo W) : Bool := src.mbi.flags &&& flagCmdline ≠ 0

def hasVideo (src : MultibootInfo W) : Bool := src.mbi.flags &&& flagVideoInfo ≠ 0

def cmdlineText (src : MultibootInfo W) : CString W := src.text src.mbi.cmdline

/-- The `switch` over the index of a module. -/
def moduleFlag (src : MultibootInfo W) (mod : MbMod) : Nat → ModuleFlag
  | 0 => .kernel
  | 1 => .sigma0
  | 2 => .roottask
  | _ => if cpuFirmware <:+: (src.text mod.cmdline.toNat).chars then .cpuFw else .unspec

/-- What the body of the loop enters for the `i`-th module. -/
def item (src : MultibootInfo W) (i : Nat) (mod : MbMod) : Item W where
  cmdline := if mod.cmdline ≠ 0 then some (src.text mod.cmdline.toNat) else none
  flags := src.moduleFlag mod i
  modStart := mod.modStart.toUInt64
  modEnd := mod.modEnd.toUInt64

def items (src : MultibootInfo W) : List (Item W) := src.mods.mapIdx src.item

end MultibootInfo

/-! ## The size of the copy -/

def totalSize (abi : L4modAbi W) (src : MultibootInfo W) : Nat :=
  let size := abi.infoSize
  let size := if src.hasCmdline then W.add size (stringSize src.cmdlineText) else size
  let size :=
    if src.hasVideo then
      let size := if src.mbi.vbeModeInfo ≠ 0 then W.add size vbeModeSize else size
      if src.mbi.vbeCtrlInfo ≠ 0 then W.add size vbeCtrlSize else size
    else size
  let size := W.add size (abi.modSize * src.mbi.modsCount)
  src.mods.foldl (fun size m =>
    if m.cmdline ≠ 0 then W.add size (stringSize (src.text m.cmdline.toNat)) else size) size

/-! ## The contents of the copy -/

/-- A block of bytes goes to the cursor, and the header gets its address. -/
def copyPart (abi : L4modAbi W) (mb : Nat) (block : List UInt8) (size : Nat)
    (enter : UInt64 → L4modInfo → L4modInfo) (f : Filling W) : Filling W :=
  { f with
    bytes := writeList f.strs block f.bytes
    strs := W.add f.strs size }.writeInfo abi mb (enter (.ofNat f.strs) f.info)

def copyVbeMode (abi : L4modAbi W) (mb : Nat) (src : MultibootInfo W) (f : Filling W) : Filling W :=
  if src.mbi.vbeModeInfo ≠ 0 then
    copyPart abi mb src.vbeMode vbeModeSize (fun d info => { info with vbeModeInfo := d }) f
  else f

def copyVbeCtrl (abi : L4modAbi W) (mb : Nat) (src : MultibootInfo W) (f : Filling W) : Filling W :=
  if src.mbi.vbeCtrlInfo ≠ 0 then
    copyPart abi mb src.vbeCtrl vbeCtrlSize (fun d info => { info with vbeCtrlInfo := d }) f
  else f

def copyVideo (abi : L4modAbi W) (mb : Nat) (src : MultibootInfo W) (f : Filling W) : Filling W :=
  if src.hasVideo then
    let f := copyVbeCtrl abi mb src (copyVbeMode abi mb src f)
    f.writeInfo abi mb { f.info with flags := f.info.flags ||| .ofNat flagVideoInfo }
  else f

def copyCmdline (abi : L4modAbi W) (mb : Nat) (src : MultibootInfo W) (f : Filling W) : Filling W :=
  if src.mbi.cmdline ≠ 0 then
    copyPart abi mb src.cmdlineText.text (stringSize src.cmdlineText)
      (fun d info => { info with cmdline := d, flags := info.flags ||| .ofNat flagCmdline }) f
  else f

/-- The cleared block with its counter and the address of the array. -/
def startCopy (abi : L4modAbi W) (mb size : Nat) (src : MultibootInfo W) (bytes : Bytes) :
    Filling W :=
  let array := W.add mb abi.infoSize
  let start : Filling W :=
    { bytes := memset mb 0 size bytes
      info := {}
      mods := []
      cnt := 0
      strs := W.add array (abi.modSize * src.mbi.modsCount) }
  start.writeInfo abi mb { modsCount := .ofNat src.mbi.modsCount, modsAddr := .ofNat array }

/-- The part in front of the loop over the modules. -/
def copyHeader (abi : L4modAbi W) (mb size : Nat) (src : MultibootInfo W) (bytes : Bytes) :
    Filling W :=
  copyCmdline abi mb src (copyVideo abi mb src (startCopy abi mb size src bytes))

def fillCopy (abi : L4modAbi W) (mb size : Nat) (src : MultibootInfo W) (bytes : Bytes) :
    Filling W :=
  src.items.foldl (Filling.putNext abi (W.add mb abi.infoSize)) (copyHeader abi mb size src bytes)

/-! ## What is read and written -/

abbrev Part := Nat × List UInt8

def Part.area (part : Part) : Area := (part.1, part.2.length)

namespace MultibootInfo

/-- The VBE blocks and the command line as far as the flags announce them. -/
def modeBlocks (src : MultibootInfo W) : List (List UInt8) :=
  if src.hasVideo ∧ src.mbi.vbeModeInfo ≠ 0 then [src.vbeMode] else []

def ctrlBlocks (src : MultibootInfo W) : List (List UInt8) :=
  if src.hasVideo ∧ src.mbi.vbeCtrlInfo ≠ 0 then [src.vbeCtrl] else []

def cmdlineBlocks (src : MultibootInfo W) : List (List UInt8) :=
  if src.hasCmdline then [src.cmdlineText.text] else []

def blocks (src : MultibootInfo W) : List (List UInt8) :=
  src.modeBlocks ++ src.ctrlBlocks ++ src.cmdlineBlocks

/-- The blocks that are copied: the command line goes by its pointer. -/
def copiedBlocks (src : MultibootInfo W) : List (List UInt8) :=
  src.modeBlocks ++ src.ctrlBlocks ++ if src.mbi.cmdline ≠ 0 then [src.cmdlineText.text] else []

/-- The string of a module, which `strstr` reads also at a null pointer. -/
def stringArea (src : MultibootInfo W) (i : Nat) (mod : MbMod) : Area :=
  (mod.cmdline.toNat,
    if mod.cmdline ≠ 0 ∨ 3 ≤ i then (src.text mod.cmdline.toNat).strlen + 1 else 0)

/-- What is read while the copy is written. -/
def sources (src : MultibootInfo W) : List Area :=
  (src.addr, Multiboot2.mbiSize) :: (src.mbi.modsAddr, 16 * src.mods.length) ::
    (src.modeBlocks.map fun block => (src.mbi.vbeModeInfo, block.length)) ++
    (src.ctrlBlocks.map fun block => (src.mbi.vbeCtrlInfo, block.length)) ++
    (src.mbi.cmdline, if src.mbi.cmdline ≠ 0 then src.cmdlineText.strlen + 1 else 0) ::
    src.mods.mapIdx src.stringArea

end MultibootInfo

/-- What blocks take when each starts at a word. -/
def blocksRoom (W : Wordsize) (blocks : List (List UInt8)) : Nat :=
  (blocks.map fun block => wordUp W block.length).sum

/-- Where blocks go when the first one starts at `o` and each other one at a word. -/
def placed (W : Wordsize) : Nat → List (List UInt8) → List Part
  | _, [] => []
  | o, block :: rest => (o % W.modulus, block) :: placed W (o + wordUp W block.length) rest

/-- Where the array ends. -/
def arrayEnd (abi : L4modAbi W) (mb : Nat) (src : MultibootInfo W) : Nat :=
  mb + (abi.infoSize + abi.modSize * src.mods.length)

/-- The areas that are written, with the `memset` of the block. -/
def copyWrites (abi : L4modAbi W) (mb : Nat) (src : MultibootInfo W) : List Area :=
  (mb, totalSize abi src) :: (mb, abi.infoSize) ::
    ((placed W (arrayEnd abi mb src) src.copiedBlocks).map Part.area ++
      (logFrom abi (W.add mb abi.infoSize) (fun _ => []) 0
        ((arrayEnd abi mb src + blocksRoom W src.copiedBlocks) % W.modulus) src.items).map
          fun write => (write.1, write.2.length))

/-! ## The function -/

def reserveMbi (abi : L4modAbi W) (src : MultibootInfo W) : Run W Nat := do
  let mb ← findFreeRam (totalSize abi src) 0
  if mb = 0 then stop "Could not allocate memory for multi-boot info"
  else do
    addRegion mb (totalSize abi src)
      { name := .literal ".mbi_rt", type := .root, subType := rootSectionRwx }
    pure mb

/-- The condition of `remove_if` behind the copy. -/
def isOldMbi (r : Region W) : Bool := r.attr.name = .literal ".mbi"

/-- `lost` is whatever the code does when it reads what it has overwritten. -/
def copyMbi (abi : L4modAbi W) (src : MultibootInfo W) (lost : Run W BootInfo) :
    Run W BootInfo := do
  let mb ← reserveMbi abi src
  if touches (copyWrites abi mb src) src.sources then lost
  else do
    let s ← get
    let filled := fillCopy abi mb (totalSize abi src) src s.bytes
    updateBytes fun _ => filled.bytes
    lift (require (W.sub filled.strs mb = totalSize abi src))
    updateRegions fun regions => .ok (regions.removeIf isOldMbi)
    pure ⟨mb, filled.info, filled.mods⟩

/-! ## What the copy carries -/

namespace MultibootInfo

/-- The same with the addresses that the header of the copy has for them. -/
def parts (src : MultibootInfo W) (info : L4modInfo) : List Part :=
  src.modeBlocks.map (info.vbeModeInfo.toNat, ·) ++
    src.ctrlBlocks.map (info.vbeCtrlInfo.toNat, ·) ++
    src.cmdlineBlocks.map (info.cmdline.toNat, ·)

end MultibootInfo

/-- The copy lies in a block of so many bytes, and has everything that the source has. -/
structure Carries (abi : L4modAbi W) (src : MultibootInfo W) (before after : Bytes)
    (mbi : BootInfo) : Prop where
  filled : MbiFilled abi (totalSize abi src) ((src.parts mbi.info).map Part.area) src.items
    before after mbi
  held : ∀ part ∈ src.parts mbi.info, Holds after part.1 part.2
  cmdlineFlag : mbi.info.flags &&& .ofNat flagCmdline ≠ 0 ↔ src.hasCmdline
  videoFlag : mbi.info.flags &&& .ofNat flagVideoInfo ≠ 0 ↔ src.hasVideo
  noMode : src.modeBlocks = [] → mbi.info.vbeModeInfo = 0
  noCtrl : src.ctrlBlocks = [] → mbi.info.vbeCtrlInfo = 0
  noCmdline : src.cmdlineBlocks = [] → mbi.info.cmdline = 0
  bare : ∀ (i : Nat) (x : Item W) (e : L4modMod), src.items[i]? = some x →
    mbi.mods[i]? = some e → x.cmdline = none → e.cmdline = 0

/-- The command line is announced when its pointer is set, the lengths of the module strings
are `unsigned`, and the size of the copy is a machine word. -/
structure CopyFits (abi : L4modAbi W) (src : MultibootInfo W) : Prop where
  cmdline : src.hasCmdline ↔ src.mbi.cmdline ≠ 0
  counted : ∀ mod ∈ src.mods, mod.cmdline ≠ 0 →
    (src.text mod.cmdline.toNat).strlen + 1 < 2 ^ 32
  size : abi.infoSize + abi.modSize * src.mods.length + blocksRoom W src.blocks +
    roomOf src.items < W.modulus

/-! ## Blocks one behind the other -/

section

variable {o : Nat} {block : List UInt8} {blocks front back rest : List (List UInt8)}

@[simp] theorem blocks_room_nil : blocksRoom W [] = 0 := rfl

@[simp] theorem blocks_room_cons :
    blocksRoom W (block :: rest) = wordUp W block.length + blocksRoom W rest := by
  simp [blocksRoom]

theorem blocks_room_append :
    blocksRoom W (front ++ back) = blocksRoom W front + blocksRoom W back := by
  simp [blocksRoom]

theorem placed_append :
    placed W o (front ++ back) = placed W o front ++ placed W (o + blocksRoom W front) back := by
  induction front generalizing o with
  | nil => rfl
  | cons block front ih =>
      rw [List.cons_append, placed, placed, ih, blocks_room_cons, Nat.add_assoc, List.cons_append]

theorem placed_where (some : ∀ block ∈ blocks, block ≠ [])
    (fits : o + blocksRoom W blocks ≤ W.modulus) {area : Area}
    (member : area ∈ (placed W o blocks).map Part.area) :
    area.Inside (o, blocksRoom W blocks) := by
  induction blocks generalizing o with
  | nil => simp [placed] at member
  | cons block rest ih =>
      have upTo := le_word_up (W := W) block.length
      have pos := List.length_pos_iff.mpr (some block List.mem_cons_self)
      rw [blocks_room_cons] at fits ⊢
      rw [placed, List.map_cons, List.mem_cons] at member
      rcases member with rfl | inRest
      · rw [Part.area, Nat.mod_eq_of_lt (by omega)]
        exact ⟨le_rfl, by dsimp only; omega⟩
      · obtain ⟨above, below⟩ := ih (fun other inRest => some other (List.mem_cons_of_mem _ inRest))
          (by omega) inRest
        dsimp only at above below
        exact ⟨by dsimp only; omega, by dsimp only; omega⟩

theorem placed_apart (some : ∀ block ∈ blocks, block ≠ [])
    (fits : o + blocksRoom W blocks ≤ W.modulus) :
    ((placed W o blocks).map Part.area).Pairwise Area.Apart := by
  induction blocks generalizing o with
  | nil => exact .nil
  | cons block rest ih =>
      have upTo := le_word_up (W := W) block.length
      have pos := List.length_pos_iff.mpr (some block List.mem_cons_self)
      have someRest := fun other inRest => some other (List.mem_cons_of_mem _ inRest)
      rw [blocks_room_cons] at fits
      rw [placed, List.map_cons]
      refine List.pairwise_cons.mpr ⟨?_, ih someRest (by omega)⟩
      intro area inRest
      obtain ⟨above, _⟩ := placed_where someRest (by omega) inRest
      rw [Part.area, Nat.mod_eq_of_lt (by omega)]
      exact Or.inl (by dsimp only at above ⊢; omega)

theorem dvd_blocks_room : W.bytes ∣ blocksRoom W blocks := by
  rw [blocksRoom, bytes_eq_shift]
  apply List.dvd_sum
  intro room member
  obtain ⟨block, _, rfl⟩ := List.mem_map.mp member
  exact dvd_round_up _ _

/-- Blocks that all lie in the copy leave room for what they take of it. -/
theorem blocks_room_inside {mb size off : Nat} (pos : 0 < mb) (block : mb + size ≤ W.modulus)
    (sizeAligned : W.bytes ∣ size) (offAligned : W.bytes ∣ off) (start : off ≤ size)
    (inside : ∀ area ∈ (placed W (mb + off) blocks).map Part.area, area.Inside (mb, size)) :
    off + blocksRoom W blocks ≤ size := by
  induction blocks generalizing off with
  | nil => exact start
  | cons b rest ih =>
      rw [placed, List.map_cons, Nat.add_assoc] at inside
      have first := room_inside pos block sizeAligned offAligned start
        (inside _ List.mem_cons_self)
      rw [blocks_room_cons, ← Nat.add_assoc]
      apply ih _ first fun area inRest => inside area (List.mem_cons_of_mem _ inRest)
      rw [bytes_eq_shift] at offAligned ⊢
      exact Nat.dvd_add offAligned (dvd_round_up _ _)

end

/-! ## The part in front of the modules -/

/-- Blocks are copied behind the array, which ends at `o`; the bytes were `base` when the
header was not yet written. -/
structure Copied (abi : L4modAbi W) (mb o : Nat) (base : Bytes) (blocks : List (List UInt8))
    (f : Filling W) : Prop where
  header : Holds f.bytes mb (abi.infoBytes f.info)
  outside : ∀ a, Outside a (mb, abi.infoSize) →
    (∀ area ∈ (placed W o blocks).map Part.area, Outside a area) → f.bytes a = base a
  held : ((mb, abi.infoSize) :: (placed W o blocks).map Part.area).Pairwise Area.Apart →
    ∀ part ∈ placed W o blocks, Holds f.bytes part.1 part.2
  strs : f.strs = (o + blocksRoom W blocks) % W.modulus
  mods : f.mods = []
  cnt : f.cnt = 0

section

variable {abi : L4modAbi W} {mb o size : Nat} {base bytes : Bytes} {f : Filling W}
  {block : List UInt8} {blocks : List (List UInt8)} {src : MultibootInfo W}

theorem held_of_apart {part : Part} {p : Nat} {l : List UInt8} (held : Holds bytes part.1 part.2)
    (apart : part.area.Apart (p, l.length)) : Holds (writeList p l bytes) part.1 part.2 := by
  apply held.frame
  intro a above below
  exact write_list_outside (outside_of_apart apart above below)

namespace Copied

theorem writeInfo (copied : Copied abi mb o base blocks f) (info : L4modInfo) :
    Copied abi mb o base blocks (f.writeInfo abi mb info) := by
  refine ⟨holds_write_list, ?_, ?_, copied.strs, copied.mods, copied.cnt⟩
  · intro a offHeader offParts
    rw [← copied.outside a offHeader offParts]
    exact write_list_outside (by rw [abi.infoLength]; exact offHeader)
  · intro apart part member
    apply held_of_apart (copied.held apart part member)
    rw [abi.infoLength]
    exact ((List.pairwise_cons.mp apart).1 _ (List.mem_map_of_mem member)).symm

theorem copyPart (copied : Copied abi mb o base blocks f)
    (isSize : size % W.modulus = wordUp W block.length % W.modulus)
    (enter : UInt64 → L4modInfo → L4modInfo) :
    Copied abi mb o base (blocks ++ [block]) (copyPart abi mb block size enter f) := by
  have isPlaced : placed W o (blocks ++ [block]) = placed W o blocks ++ [(f.strs, block)] := by
    rw [placed_append, copied.strs]
    rfl
  refine ⟨holds_write_list, ?_, ?_, ?_, copied.mods, copied.cnt⟩
  · intro a offHeader offParts
    rw [isPlaced, List.map_append] at offParts
    rw [← copied.outside a offHeader fun area inParts => offParts area (List.mem_append_left _ inParts)]
    exact (write_list_outside (by rw [abi.infoLength]; exact offHeader)).trans
      (write_list_outside (offParts _ (List.mem_append_right _ List.mem_cons_self)))
  · intro apart part member
    rw [isPlaced] at apart member
    have offHeader := ((List.pairwise_cons.mp apart).1 _ (List.mem_map_of_mem member)).symm
    apply held_of_apart (l := abi.infoBytes _) _ (by rw [abi.infoLength]; exact offHeader)
    rw [List.map_append, ← List.cons_append] at apart
    obtain ⟨apart, _, between⟩ := List.pairwise_append.mp apart
    rcases List.mem_append.mp member with inParts | isNew
    · exact held_of_apart (copied.held apart part inParts)
        (between _ (List.mem_cons_of_mem _ (List.mem_map_of_mem inParts)) _ List.mem_cons_self)
    · rw [List.mem_singleton.mp isNew]
      exact holds_write_list
  · change W.add f.strs size = _
    rw [copied.strs, Wordsize.add, Nat.mod_add_mod, Nat.add_mod, isSize, ← Nat.add_mod,
      blocks_room_append, blocks_room_cons, blocks_room_nil, Nat.add_zero, Nat.add_assoc]

/-- One of the optional blocks. -/
theorem optional (copied : Copied abi mb o base blocks f) (given : Prop) [Decidable given]
    (isSize : size % W.modulus = wordUp W block.length % W.modulus)
    (enter : UInt64 → L4modInfo → L4modInfo) :
    Copied abi mb o base (blocks ++ if given then [block] else [])
        (if given then X86.copyPart abi mb block size enter f else f) ∧
      (if given then X86.copyPart abi mb block size enter f else f).info =
        if given then enter (.ofNat ((o + blocksRoom W blocks) % W.modulus)) f.info else f.info := by
  split_ifs
  · refine ⟨copied.copyPart isSize enter, ?_⟩
    rw [← copied.strs]
    rfl
  · rw [List.append_nil]
    exact ⟨copied, rfl⟩

end Copied

theorem string_size_mod (c : CString W) :
    stringSize c = wordUp W (c.strlen + 1) % W.modulus := by
  rw [stringSize, round_wordsize_mod]
  rcases Nat.lt_or_ge (c.strlen + 1) W.modulus with less | top
  · rw [W.add_of_lt less]
  · -- the longest string: the sum is 0 in the machine and a multiple of the modulus here
    have short : c.strlen < W.modulus := c.short
    have isTop : c.strlen + 1 = W.modulus := by omega
    have whole : wordUp W W.modulus = W.modulus := round_up_of_dvd (W.pow_dvd_modulus (word_shift_le W))
    have none : wordUp W 0 = 0 := round_up_of_dvd (Nat.dvd_zero _)
    rw [Wordsize.add, isTop, Nat.mod_self, whole, none, Nat.mod_self, Nat.zero_mod]

variable (src) in
theorem mode_size : vbeModeSize % W.modulus = wordUp W src.vbeMode.length % W.modulus := by
  rw [src.modeLength]
  cases W <;> decide

variable (src) in
theorem ctrl_size : vbeCtrlSize % W.modulus = wordUp W src.vbeCtrl.length % W.modulus := by
  rw [src.ctrlLength]
  cases W <;> decide

variable (src) in
theorem cmdline_size : stringSize src.cmdlineText % W.modulus =
    wordUp W src.cmdlineText.text.length % W.modulus := by
  rw [string_size_mod, Nat.mod_mod, cstring_text_length]

variable (abi mb size bytes src) in
theorem start_copied : Copied abi mb (arrayEnd abi mb src) (memset mb 0 size bytes) []
    (startCopy abi mb size src bytes) := by
  refine ⟨holds_write_list, ?_, ?_, ?_, rfl, rfl⟩
  · intro a offHeader _
    exact write_list_outside (by rw [abi.infoLength]; exact offHeader)
  · intro _ part member
    simp [placed] at member
  · change W.add (W.add mb abi.infoSize) (abi.modSize * src.mbi.modsCount) = _
    rw [Wordsize.add, Wordsize.add, Nat.mod_add_mod, src.counted, blocks_room_nil, Nat.add_zero,
      arrayEnd, Nat.add_assoc]

theorem copy_video_copied (copied : Copied abi mb o base [] f) :
    Copied abi mb o base (src.modeBlocks ++ src.ctrlBlocks) (copyVideo abi mb src f) ∧
      (copyVideo abi mb src f).info =
        { f.info with
          flags := if src.hasVideo then f.info.flags ||| .ofNat flagVideoInfo else f.info.flags
          vbeModeInfo := if src.hasVideo ∧ src.mbi.vbeModeInfo ≠ 0 then .ofNat (o % W.modulus)
            else f.info.vbeModeInfo
          vbeCtrlInfo := if src.hasVideo ∧ src.mbi.vbeCtrlInfo ≠ 0 then
            .ofNat ((o + blocksRoom W src.modeBlocks) % W.modulus) else f.info.vbeCtrlInfo } := by
  unfold copyVideo MultibootInfo.modeBlocks MultibootInfo.ctrlBlocks
  cases video : src.hasVideo
  · simpa using copied
  · obtain ⟨withMode, modeInfo⟩ := copied.optional (src.mbi.vbeModeInfo ≠ 0) (mode_size src)
      fun d info => { info with vbeModeInfo := d }
    obtain ⟨withCtrl, ctrlInfo⟩ := withMode.optional (src.mbi.vbeCtrlInfo ≠ 0) (ctrl_size src)
      fun d info => { info with vbeCtrlInfo := d }
    simp only [true_and, if_true, List.nil_append] at withCtrl ctrlInfo ⊢
    refine ⟨withCtrl.writeInfo _, ?_⟩
    change ({ (copyVbeCtrl abi mb src (copyVbeMode abi mb src f)).info with
      flags := (copyVbeCtrl abi mb src (copyVbeMode abi mb src f)).info.flags ||| _ } :
        L4modInfo) = _
    have isInfo : (copyVbeCtrl abi mb src (copyVbeMode abi mb src f)).info = _ := ctrlInfo
    rw [isInfo, modeInfo]
    simp only [blocks_room_nil, Nat.add_zero]
    split_ifs <;> rfl

/-- The header that the copy gets. -/
def headerInfo (abi : L4modAbi W) (mb : Nat) (src : MultibootInfo W) : L4modInfo where
  flags := (if src.hasVideo then .ofNat flagVideoInfo else 0) |||
    if src.mbi.cmdline ≠ 0 then .ofNat flagCmdline else 0
  cmdline := if src.mbi.cmdline ≠ 0 then .ofNat ((arrayEnd abi mb src +
    blocksRoom W (src.modeBlocks ++ src.ctrlBlocks)) % W.modulus) else 0
  modsAddr := .ofNat (W.add mb abi.infoSize)
  modsCount := .ofNat src.mods.length
  vbeCtrlInfo := if src.hasVideo ∧ src.mbi.vbeCtrlInfo ≠ 0 then .ofNat ((arrayEnd abi mb src +
    blocksRoom W src.modeBlocks) % W.modulus) else 0
  vbeModeInfo := if src.hasVideo ∧ src.mbi.vbeModeInfo ≠ 0 then
    .ofNat (arrayEnd abi mb src % W.modulus) else 0

variable (abi mb size bytes src) in
theorem copy_header_copied :
    Copied abi mb (arrayEnd abi mb src) (memset mb 0 size bytes) src.copiedBlocks
        (copyHeader abi mb size src bytes) ∧
      (copyHeader abi mb size src bytes).info = headerInfo abi mb src := by
  obtain ⟨withVideo, videoInfo⟩ := copy_video_copied (start_copied abi mb size bytes src)
  obtain ⟨withCmdline, info⟩ := withVideo.optional (src.mbi.cmdline ≠ 0) (cmdline_size src)
    fun d info => { info with cmdline := d, flags := info.flags ||| .ofNat flagCmdline }
  refine ⟨withCmdline, ?_⟩
  have isInfo : (copyHeader abi mb size src bytes).info = _ := info
  rw [isInfo, videoInfo]
  have start : (startCopy abi mb size src bytes).info =
      { modsCount := .ofNat src.mods.length, modsAddr := .ofNat (W.add mb abi.infoSize) } := by
    rw [← src.counted]
    rfl
  rw [start, headerInfo]
  simp only [UInt64.zero_or]
  split_ifs <;> simp only [UInt64.or_zero, UInt64.zero_or]

theorem header_cmdline_flag :
    (headerInfo abi mb src).flags &&& .ofNat flagCmdline ≠ 0 ↔ src.mbi.cmdline ≠ 0 := by
  unfold headerInfo
  dsimp only
  split_ifs with video given given
  · exact iff_of_true (by decide) given
  · exact iff_of_false (by decide) given
  · exact iff_of_true (by decide) given
  · exact iff_of_false (by decide) given

theorem header_video_flag :
    (headerInfo abi mb src).flags &&& .ofNat flagVideoInfo ≠ 0 ↔ src.hasVideo := by
  unfold headerInfo
  dsimp only
  split_ifs with video
  · exact iff_of_true (by decide) video
  · exact iff_of_true (by decide) video
  · exact iff_of_false (by decide) video
  · exact iff_of_false (by decide) video

variable (abi mb) in
/-- The header points to the blocks where they lie. -/
theorem parts_placed (same : src.hasCmdline ↔ src.mbi.cmdline ≠ 0) :
    src.parts (headerInfo abi mb src) = placed W (arrayEnd abi mb src) src.blocks := by
  have word : ∀ a, (UInt64.ofNat (a % W.modulus)).toNat = a % W.modulus := fun a =>
    UInt64.toNat_ofNat_of_lt ((Nat.mod_lt a W.modulus_pos).trans_le (words_le_modulus W))
  have one : ∀ (given : Prop) [Decidable given] (block : List UInt8) (o : Nat) (field : UInt64),
      (given → field.toNat = o % W.modulus) →
        (if given then [block] else []).map (fun b => (field.toNat, b)) =
          placed W o (if given then [block] else []) := by
    intro given _ block o field isField
    split_ifs with yes
    · rw [List.map_singleton, isField yes]
      rfl
    · rfl
  unfold MultibootInfo.parts MultibootInfo.blocks
  rw [placed_append, placed_append]
  congr 1
  · congr 1
    · exact one _ _ _ _ fun yes => by rw [headerInfo]; dsimp only; rw [if_pos yes, word]
    · exact one _ _ _ _ fun yes => by rw [headerInfo]; dsimp only; rw [if_pos yes, word]
  · exact one _ _ _ _ fun yes => by
      rw [headerInfo]
      dsimp only
      rw [if_pos (same.mp yes), word]

/-! ## The size against the contents -/

/-- What the string of a module takes of the copy. -/
def moduleRoom (src : MultibootInfo W) (mod : MbMod) : Nat :=
  if mod.cmdline ≠ 0 then wordUp W ((src.text mod.cmdline.toNat).strlen + 1) else 0

theorem room_of_items : roomOf src.items = (src.mods.map (moduleRoom src)).sum := by
  unfold roomOf MultibootInfo.items
  congr 1
  apply List.ext_getElem
  · simp only [List.length_map, List.length_mapIdx]
  · intro i inItems inMods
    simp only [List.getElem_map, List.getElem_mapIdx, Item.room, MultibootInfo.item, moduleRoom]
    split_ifs <;> rfl

theorem counted_items : (∀ x ∈ src.items, x.Counted) ↔ ∀ mod ∈ src.mods, mod.cmdline ≠ 0 →
    (src.text mod.cmdline.toNat).strlen + 1 < 2 ^ 32 := by
  constructor
  · intro counted mod member given
    obtain ⟨i, inside, rfl⟩ := List.getElem_of_mem member
    have inItems : src.item i src.mods[i] ∈ src.items :=
      List.mem_mapIdx.mpr ⟨i, inside, rfl⟩
    exact counted _ inItems _ (if_pos given)
  · intro short x member t isText
    obtain ⟨i, inside, rfl⟩ := List.mem_mapIdx.mp member
    simp only [MultibootInfo.item, Option.ite_none_right_eq_some, Option.some.injEq] at isText
    obtain ⟨given, rfl⟩ := isText
    exact short _ (List.getElem_mem inside) given

theorem blocks_room_optional (given : Prop) [Decidable given] (block : List UInt8) :
    blocksRoom W (if given then [block] else []) = if given then wordUp W block.length else 0 := by
  split_ifs <;> simp

/-- A sum of the sizes of optional parts as the machine computes it. -/
theorem add_optional_mod (given : Prop) [Decidable given] {sum other part room : Nat}
    (same : sum % W.modulus = other % W.modulus) (isRoom : part % W.modulus = room % W.modulus) :
    (if given then W.add sum part else sum) % W.modulus =
      (other + if given then room else 0) % W.modulus := by
  split_ifs
  · rw [Wordsize.add, Nat.mod_mod, Nat.add_mod, same, isRoom, ← Nat.add_mod]
  · exact same

theorem fold_module_rooms (mods : List MbMod) {start : Nat} (word : start < W.modulus) :
    mods.foldl (fun size m =>
        if m.cmdline ≠ 0 then W.add size (stringSize (src.text m.cmdline.toNat)) else size) start =
      (start + (mods.map (moduleRoom src)).sum) % W.modulus := by
  induction mods generalizing start with
  | nil => exact (Nat.mod_eq_of_lt word).symm
  | cons m mods ih =>
      have isRoom : stringSize (src.text m.cmdline.toNat) % W.modulus =
          wordUp W ((src.text m.cmdline.toNat).strlen + 1) % W.modulus := by
        rw [string_size_mod, Nat.mod_mod]
      have next := add_optional_mod (m.cmdline ≠ 0) (Eq.refl (start % W.modulus)) isRoom
      have nextWord : (if m.cmdline ≠ 0 then
          W.add start (stringSize (src.text m.cmdline.toNat)) else start) < W.modulus := by
        split_ifs
        · exact W.add_lt _ _
        · exact word
      rw [Nat.mod_eq_of_lt nextWord] at next
      rw [List.foldl_cons, ih nextWord, next, Nat.mod_add_mod, List.map_cons, List.sum_cons,
        Nat.add_assoc]
      rfl

theorem total_size_eq : totalSize abi src =
    (abi.infoSize + abi.modSize * src.mods.length + blocksRoom W src.blocks +
      roomOf src.items) % W.modulus := by
  have withCmdline := add_optional_mod src.hasCmdline (Eq.refl (abi.infoSize % W.modulus))
    (cmdline_size src)
  have withMode := add_optional_mod (src.hasVideo ∧ src.mbi.vbeModeInfo ≠ 0) withCmdline
    (mode_size src)
  have withCtrl := add_optional_mod (src.hasVideo ∧ src.mbi.vbeCtrlInfo ≠ 0) withMode
    (ctrl_size src)
  have blocks : blocksRoom W src.blocks =
      (if src.hasVideo ∧ src.mbi.vbeModeInfo ≠ 0 then wordUp W src.vbeMode.length else 0) +
      (if src.hasVideo ∧ src.mbi.vbeCtrlInfo ≠ 0 then wordUp W src.vbeCtrl.length else 0) +
      if src.hasCmdline then wordUp W src.cmdlineText.text.length else 0 := by
    simp only [MultibootInfo.blocks, MultibootInfo.modeBlocks, MultibootInfo.ctrlBlocks,
      MultibootInfo.cmdlineBlocks, blocks_room_append, blocks_room_optional]
  unfold totalSize
  dsimp only
  rw [fold_module_rooms src.mods (W.add_lt _ _), room_of_items, src.counted, Wordsize.add,
    Nat.mod_add_mod]
  apply Nat.ModEq.add_right
  have sameSize : abi.infoSize + abi.modSize * src.mods.length + blocksRoom W src.blocks =
      abi.infoSize + (if src.hasCmdline then wordUp W src.cmdlineText.text.length else 0) +
        (if src.hasVideo ∧ src.mbi.vbeModeInfo ≠ 0 then wordUp W src.vbeMode.length else 0) +
        (if src.hasVideo ∧ src.mbi.vbeCtrlInfo ≠ 0 then wordUp W src.vbeCtrl.length else 0) +
        abi.modSize * src.mods.length := by
    rw [blocks]
    omega
  rw [sameSize]
  apply Nat.ModEq.add_right
  refine Eq.trans (congrArg (· % W.modulus) ?_) withCtrl
  cases src.hasVideo <;> simp

/-! ## The copy fits exactly when everything is announced and counted -/

/-- The copy that `fill_copy` leaves behind. -/
def filledCopy (abi : L4modAbi W) (mb size : Nat) (src : MultibootInfo W) (bytes : Bytes) :
    BootInfo where
  addr := mb
  info := (fillCopy abi mb size src bytes).info
  mods := (fillCopy abi mb size src bytes).mods

theorem length_items : src.items.length = src.mods.length := List.length_mapIdx

variable (abi mb size bytes src) in
theorem fill_copy_ran :
    Ran abi (W.add mb abi.infoSize) (fun _ => []) 0 src.items (copyHeader abi mb size src bytes)
        (fillCopy abi mb size src bytes) ∧
      (fillCopy abi mb size src bytes).info = headerInfo abi mb src := by
  obtain ⟨copied, info⟩ := copy_header_copied abi mb size bytes src
  obtain ⟨ran, sameInfo, _⟩ := put_next_ran abi (W.add mb abi.infoSize) 0 src.items copied.cnt
  exact ⟨ran, sameInfo.trans info⟩

variable (abi mb size bytes src) in
theorem filled_copy_info : (filledCopy abi mb size src bytes).info = headerInfo abi mb src :=
  (fill_copy_ran _ _ _ _ _).2

variable (abi mb size bytes src) in
theorem copy_mods_addr :
    (filledCopy abi mb size src bytes).info.modsAddr.toNat = W.add mb abi.infoSize := by
  rw [filled_copy_info]
  exact UInt64.toNat_ofNat_of_lt ((W.add_lt mb _).trans_le (words_le_modulus W))

variable (abi mb size bytes src) in
theorem fill_copy_listing :
    Listing abi (fun _ => []) (copyHeader abi mb size src bytes).strs src.items
      (copyHeader abi mb size src bytes).bytes (fillCopy abi mb size src bytes).bytes
      (filledCopy abi mb size src bytes) := by
  obtain ⟨copied, _⟩ := copy_header_copied abi mb size bytes src
  obtain ⟨ran, _⟩ := fill_copy_ran abi mb size bytes src
  refine ⟨?_, ?_, ?_, by simp⟩
  · rw [copy_mods_addr]
    exact ran.bytes
  · rw [filledCopy]
    dsimp only
    rw [ran.mods, copied.mods, List.nil_append]
  · rw [copied.strs]
    exact Nat.mod_lt _ W.modulus_pos

/-- The modules leave alone what lies in front of them. -/
theorem front_stays {extra : List Area} {start : Nat} {items : List (Item W)} {mbi : BootInfo}
    {after : Bytes} (listing : Listing abi (fun _ => []) start items base after mbi)
    (slots : Slots abi mbi.info.modsAddr.toNat 0 items)
    (apart : (mbi.areas abi extra items).Pairwise Area.Apart) {area : Area}
    (inFront : area ∈ (mbi.addr, abi.infoSize) :: extra) {a : Nat} (above : area.1 ≤ a)
    (below : a < area.1 + area.2) : after a = base a := by
  obtain ⟨_, _, between⟩ := List.pairwise_append.mp apart
  have offItems := fun other inItems => outside_of_apart (between area inFront other inItems) above below
  rw [listing.mods] at offItems
  rw [listing.bytes]
  exact log_outside slots listing.word (by simp) offItems

theorem blocks_some : ∀ block ∈ src.blocks, block ≠ [] := by
  intro block member
  simp only [MultibootInfo.blocks, MultibootInfo.modeBlocks, MultibootInfo.ctrlBlocks,
    MultibootInfo.cmdlineBlocks, List.mem_append, List.mem_ite_nil_right, List.mem_singleton]
    at member
  rw [← List.length_pos_iff]
  rcases member with (⟨_, rfl⟩ | ⟨_, rfl⟩) | ⟨_, rfl⟩
  · rw [src.modeLength]
    decide
  · rw [src.ctrlLength]
    decide
  · rw [cstring_text_length]
    exact Nat.succ_pos _

theorem copied_blocks_of_same (same : src.hasCmdline ↔ src.mbi.cmdline ≠ 0) :
    src.copiedBlocks = src.blocks := by
  unfold MultibootInfo.copiedBlocks MultibootInfo.blocks MultibootInfo.cmdlineBlocks
  simp only [same]

variable (abi mb size bytes) in
theorem copied_of_same (same : src.hasCmdline ↔ src.mbi.cmdline ≠ 0) :
    Copied abi mb (arrayEnd abi mb src) (memset mb 0 size bytes) src.blocks
      (copyHeader abi mb size src bytes) := by
  have copied := (copy_header_copied abi mb size bytes src).1
  rwa [copied_blocks_of_same same] at copied

theorem dvd_total_size : W.bytes ∣ totalSize abi src := by
  rw [total_size_eq]
  exact (Nat.dvd_mod_iff (dvd_modulus W)).mpr (Nat.dvd_add (Nat.dvd_add (Nat.dvd_add abi.infoAligned
    (abi.modAligned.mul_right _)) dvd_blocks_room) dvd_room_of)

variable (abi mb) in
theorem header_absent (same : src.hasCmdline ↔ src.mbi.cmdline ≠ 0) :
    (src.modeBlocks = [] → (headerInfo abi mb src).vbeModeInfo = 0) ∧
      (src.ctrlBlocks = [] → (headerInfo abi mb src).vbeCtrlInfo = 0) ∧
      (src.cmdlineBlocks = [] → (headerInfo abi mb src).cmdline = 0) := by
  unfold MultibootInfo.modeBlocks MultibootInfo.ctrlBlocks MultibootInfo.cmdlineBlocks headerInfo
  simp only [same, ite_eq_right_iff, List.cons_ne_nil, imp_false]
  exact ⟨fun absent given => absurd given absent, fun absent given => absurd given absent,
    fun absent given => absurd given absent⟩

variable (bytes) in
/-- The parts of the copy that fits: the header, the array, the blocks and the strings. -/
theorem copy_places (isSize : size = totalSize abi src) (block : mb + size ≤ W.modulus)
    (fits : CopyFits abi src) :
    Slots abi (filledCopy abi mb size src bytes).info.modsAddr.toNat 0 src.items ∧
      (∀ area ∈ (filledCopy abi mb size src bytes).areas abi
        ((placed W (arrayEnd abi mb src) src.blocks).map Part.area) src.items,
          area.Inside (mb, size)) ∧
      ((filledCopy abi mb size src bytes).areas abi
        ((placed W (arrayEnd abi mb src) src.blocks).map Part.area) src.items).Pairwise
          Area.Apart := by
  obtain ⟨same, short, sizes⟩ := fits
  have listing := fill_copy_listing abi mb size bytes src
  have isTotal := isSize.trans (total_size_eq.trans (Nat.mod_eq_of_lt sizes))
  have isArray := copy_mods_addr abi mb size bytes src
  have isStart : (copyHeader abi mb size src bytes).strs =
      (mb + (abi.infoSize + abi.modSize * src.mods.length + blocksRoom W src.blocks)) %
        W.modulus := by
    rw [(copied_of_same _ _ _ _ same).strs, arrayEnd, Nat.add_assoc mb]
  have array : src.items ≠ [] → W.add mb abi.infoSize = mb + abi.infoSize := by
    intro some
    have pos := List.length_pos_iff.mpr some
    rw [length_items] at pos
    have slotsPos : 0 < abi.modSize * src.mods.length := Nat.mul_pos abi.mod_size_pos pos
    exact W.add_of_lt (by omega)
  have partsFit : arrayEnd abi mb src + blocksRoom W src.blocks ≤ W.modulus := by
    unfold arrayEnd
    omega
  constructor
  · refine ⟨by rw [length_items, Nat.zero_add]; exact src.few.le, ?_⟩
    rw [isArray, Nat.zero_add, length_items]
    rcases Nat.eq_zero_or_pos src.mods.length with none | pos
    · rw [none, Nat.mul_zero, Nat.add_zero]
      exact (W.add_lt _ _).le
    · rw [array (List.length_pos_iff.mp (by rw [length_items]; exact pos))]
      omega
  · apply listing.places_of_fits _ (fun some => isArray.trans (array some)) isStart
      (counted_items.mpr short) isTotal.ge block (by rw [length_items]; omega)
      (placed_apart blocks_some partsFit)
    intro area member
    obtain ⟨above, below⟩ := placed_where blocks_some partsFit member
    unfold arrayEnd at above below
    rw [length_items]
    dsimp only [filledCopy] at above below ⊢
    omega

theorem fill_copy_of_fits (isSize : size = totalSize abi src) (block : mb + size ≤ W.modulus)
    (fits : CopyFits abi src) :
    Carries abi src bytes (fillCopy abi mb size src bytes).bytes
      (filledCopy abi mb size src bytes) := by
  have same := fits.cmdline
  have counted := counted_items.mpr fits.counted
  have listing := fill_copy_listing abi mb size bytes src
  have copied := copied_of_same abi mb size bytes same
  have info := filled_copy_info abi mb size bytes src
  have isParts := parts_placed abi mb same
  rw [← info] at isParts
  obtain ⟨slots, inside, apart⟩ := copy_places bytes isSize block fits
  obtain ⟨noMode, noCtrl, noCmdline⟩ := header_absent abi mb same
  rw [← info] at noMode noCtrl noCmdline
  refine ⟨?_, ?_, ?_, ?_, noMode, noCtrl, noCmdline, ?_⟩
  · rw [← isSize, isParts]
    refine listing.filled slots inside apart counted ?_ ?_ ?_
    · rw [info, length_items]
      exact UInt32.toNat_ofNat_of_lt src.few
    · have held := copied.header
      rw [(copy_header_copied _ _ _ _ _).2, ← info] at held
      apply held.frame
      rw [abi.infoLength]
      exact fun a above below => front_stays listing slots apart List.mem_cons_self above below
    · intro a off
      rw [copied.outside a (Listing.outside_of_inside (inside _ List.mem_cons_self) off)]
      · exact memset_outside off
      · exact fun area member => Listing.outside_of_inside (inside _ (List.mem_append_left _
          (List.mem_cons_of_mem _ member))) off
  · intro part member
    rw [isParts] at member
    apply (copied.held (List.pairwise_append.mp apart).1 part member).frame
    exact fun a above below => front_stays listing slots apart
      (List.mem_cons_of_mem _ (List.mem_map_of_mem member)) above below
  · rw [info, header_cmdline_flag, same]
  · rw [info, header_video_flag]
  · intro i x e isItem isEntry bare
    rw [listing.mods] at isEntry
    obtain ⟨strs, rfl⟩ := entries_from_get isItem isEntry
    rw [Item.entry, bare]
    rfl

/-- Nothing else is written. -/
theorem fill_copy_frame {a : Nat} (off : ∀ area ∈ copyWrites abi mb src, Outside a area) :
    (fillCopy abi mb (totalSize abi src) src bytes).bytes a = bytes a := by
  have offBlock : Outside a (mb, totalSize abi src) := off _ List.mem_cons_self
  have offHeader : Outside a (mb, abi.infoSize) :=
    off _ (List.mem_cons_of_mem _ List.mem_cons_self)
  have offRest := fun area member => off area (List.mem_cons_of_mem _ (List.mem_cons_of_mem _ member))
  obtain ⟨copied, _⟩ := copy_header_copied abi mb (totalSize abi src) bytes src
  rw [(fill_copy_ran _ _ _ _ _).1.bytes, write_all_outside, copied.outside a offHeader,
    memset_outside offBlock]
  · exact fun area member => offRest area (List.mem_append_left _ member)
  · intro write inLog
    rw [copied.strs] at inLog
    exact offRest _ (List.mem_append_right _ (List.mem_map_of_mem inLog))

/-- Where everything fits, nothing is written outside of the block. -/
theorem copy_writes_of_fits (block : mb + totalSize abi src ≤ W.modulus)
    (fits : CopyFits abi src) : AllInside (copyWrites abi mb src) (mb, totalSize abi src) := by
  obtain ⟨slots, inside, _⟩ := copy_places (fun _ => 0) rfl block fits
  have listing := fill_copy_listing abi mb (totalSize abi src) (fun _ => 0) src
  have copied := copied_of_same abi mb (totalSize abi src) (fun _ => 0) fits.cmdline
  intro area member
  rw [copyWrites, copied_blocks_of_same fits.cmdline] at member
  rcases List.mem_cons.mp member with rfl | member
  · exact .inr ⟨le_rfl, le_rfl⟩
  rcases List.mem_cons.mp member with rfl | member
  · exact .inr (inside _ List.mem_cons_self)
  rcases List.mem_append.mp member with isPart | isItem
  · exact .inr (inside _ (List.mem_append_left _ (List.mem_cons_of_mem _ isPart)))
  · obtain ⟨write, inLog, rfl⟩ := List.mem_map.mp isItem
    rw [← copy_mods_addr abi mb (totalSize abi src) (fun _ => 0) src, ← copied.strs] at inLog
    rcases log_windows slots listing.word inLog with ⟨_, none⟩ | empty | ⟨own, inItems, within⟩
    · cases none
    · left
      rw [empty]
      rfl
    · right
      rw [← listing.mods] at inItems
      obtain ⟨low, high⟩ := inside own (List.mem_append_right _ inItems)
      exact ⟨low.trans within.1, within.2.trans high⟩

/-- The cursor stands at the end of the copy. -/
theorem fill_copy_strs (isSize : size = totalSize abi src) (fits : CopyFits abi src) :
    (fillCopy abi mb size src bytes).strs = (size + mb) % W.modulus := by
  have isTotal := isSize.trans (total_size_eq.trans (Nat.mod_eq_of_lt fits.size))
  rw [(fill_copy_ran _ _ _ _ _).1.strs, (copied_of_same _ _ _ _ fits.cmdline).strs,
    cursor_after_eq (counted_items.mpr fits.counted), arrayEnd, Nat.add_assoc mb, Nat.add_assoc mb,
    ← isTotal, Nat.add_comm]

theorem fits_of_fill_copy (isSize : size = totalSize abi src) (pos : 0 < mb)
    (block : mb + size ≤ W.modulus)
    (carries : Carries abi src bytes (fillCopy abi mb size src bytes).bytes
      (filledCopy abi mb size src bytes)) : CopyFits abi src := by
  have listing := fill_copy_listing abi mb size bytes src
  have info := filled_copy_info abi mb size bytes src
  have same : src.hasCmdline ↔ src.mbi.cmdline ≠ 0 := by
    rw [← carries.cmdlineFlag, info, header_cmdline_flag]
  have copied := copied_of_same abi mb size bytes same
  have isParts := parts_placed abi mb same
  have filled := carries.filled
  rw [← info] at isParts
  rw [isParts, ← isSize] at filled
  have isArray := copy_mods_addr abi mb size bytes src
  have headerEnd := (filled.inside _ List.mem_cons_self).2
  change mb + abi.infoSize ≤ mb + size at headerEnd
  obtain ⟨slots, arrayInside⟩ :
      Slots abi (filledCopy abi mb size src bytes).info.modsAddr.toNat 0 src.items ∧
        abi.infoSize + abi.modSize * src.mods.length ≤ size := by
    rcases eq_or_ne src.items [] with none | some
    · have noMods : src.mods.length = 0 := by rw [← length_items, none]; rfl
      rw [none, noMods]
      refine ⟨⟨by simp, ?_⟩, by omega⟩
      rw [isArray]
      exact (W.add_lt _ _).le
    · obtain ⟨above, arrayEnd, slots⟩ := listing.slots_of_filled filled block some
      refine ⟨slots, ?_⟩
      rw [isArray, length_items] at arrayEnd
      rw [isArray] at above
      change mb ≤ _ at above
      change _ ≤ mb + size at arrayEnd
      have array : W.add mb abi.infoSize = mb + abi.infoSize := by
        rcases Nat.lt_or_ge (mb + abi.infoSize) W.modulus with less | top
        · exact W.add_of_lt less
        · have same : mb + abi.infoSize = W.modulus := by omega
          rw [Wordsize.add, same, Nat.mod_self] at above
          omega
      omega
  have counted : ∀ x ∈ src.items, x.Counted := by
    apply listing.counted_of_filled filled slots
    intro a offHeader offParts low high
    rw [copied.outside a offHeader offParts]
    exact if_pos ⟨low, high⟩
  have sizeAligned : W.bytes ∣ size := by
    rw [isSize]
    exact dvd_total_size
  have arrayAligned : W.bytes ∣ abi.infoSize + abi.modSize * src.mods.length :=
    Nat.dvd_add abi.infoAligned (abi.modAligned.mul_right _)
  have blocksInside := blocks_room_inside pos block sizeAligned arrayAligned arrayInside
    fun area member => filled.inside area
      (List.mem_append_left _ (List.mem_cons_of_mem _ member))
  have stringsInside := rooms_inside abi (W.add mb abi.infoSize) 0 counted pos block sizeAligned
    (Nat.dvd_add arrayAligned dvd_blocks_room) blocksInside (by
      intro area member
      apply filled.inside area (List.mem_append_right _ _)
      rw [listing.mods, isArray, copied.strs, arrayEnd, Nat.add_assoc mb]
      exact member)
  have word : size < W.modulus := by
    rw [isSize, total_size_eq]
    exact Nat.mod_lt _ W.modulus_pos
  exact ⟨same, counted_items.mp counted, stringsInside.trans_lt word⟩

end

/-! ## The whole copy -/

section

variable {abi : L4modAbi W} {src : MultibootInfo W} {mb : Nat} {mbi : BootInfo}
  {lost : Run W BootInfo} {s between t : Machine W}

theorem reserve_mbi_ok (ran : reserveMbi abi src s = .ok mb between) :
    0 < mb ∧ mb + totalSize abi src ≤ W.modulus ∧ between.bytes = s.bytes := by
  rw [reserveMbi, CheckedState.bind_ok_iff] at ran
  obtain ⟨found, mid, search, ran⟩ := ran
  rw [findFreeRam, get_bind, lift_ok_iff] at search
  obtain ⟨_, rfl⟩ := search
  split_ifs at ran with zero
  · exact absurd ran stop_not_ok
  · obtain ⟨_, reserved, added, isFound⟩ := CheckedState.bind_ok_iff.mp ran
    obtain ⟨rfl, rfl⟩ := pure_ok_iff.mp isFound
    obtain ⟨region, regions, made, _, rfl⟩ := add_region_ok added
    have sizeWord : totalSize abi src < W.modulus := by
      rw [total_size_eq]
      exact Nat.mod_lt _ W.modulus_pos
    exact ⟨Nat.pos_of_ne_zero zero, (Region.start_size_last made sizeWord).1, rfl⟩

theorem copy_mbi_ok (reserved : reserveMbi abi src s = .ok mb between)
    (clear : touches (copyWrites abi mb src) src.sources = false)
    (ran : copyMbi abi src lost s = .ok mbi t) :
    mbi = filledCopy abi mb (totalSize abi src) src between.bytes ∧
      t.bytes = (fillCopy abi mb (totalSize abi src) src between.bytes).bytes := by
  rw [copyMbi, CheckedState.bind_ok_iff] at ran
  obtain ⟨_, _, first, ran⟩ := ran
  rw [reserved] at first
  cases first
  rw [clear, if_neg Bool.false_ne_true] at ran
  simp only [get_bind, CheckedState.bind_ok_iff, lift_ok_iff, pure_ok_iff, updateBytes,
    modify_ok_iff] at ran
  obtain ⟨_, _, rfl, _, _, ⟨_, rfl⟩, _, after, removed, rfl, rfl⟩ := ran
  obtain ⟨_, _, rfl⟩ := update_regions_ok removed
  exact ⟨rfl, rfl⟩

/-- Behind the reservation only the assertion can fail. -/
theorem copy_mbi_returns (reserved : reserveMbi abi src s = .ok mb between)
    (clear : touches (copyWrites abi mb src) src.sources = false)
    (balanced : W.sub (fillCopy abi mb (totalSize abi src) src between.bytes).strs mb =
      totalSize abi src) :
    ∃ t, copyMbi abi src lost s =
      .ok (filledCopy abi mb (totalSize abi src) src between.bytes) t := by
  let filled : Machine W :=
    { between with bytes := (fillCopy abi mb (totalSize abi src) src between.bytes).bytes }
  refine ⟨filled.withRegions (filled.memory.regions.removeIf isOldMbi), ?_⟩
  refine CheckedState.bind_ok_iff.mpr ⟨mb, between, reserved, ?_⟩
  rw [clear, if_neg Bool.false_ne_true, get_bind]
  refine CheckedState.bind_ok_iff.mpr ⟨(), filled, rfl, ?_⟩
  refine CheckedState.bind_ok_iff.mpr ⟨(), filled, lift_ok_iff.mpr ⟨require_ok.mpr balanced, rfl⟩, ?_⟩
  rfl

/-- A run that loses nothing has written on nothing that it reads. -/
theorem copy_mbi_loses_nothing (reserved : reserveMbi abi src s = .ok mb between)
    (ran : copyMbi abi src (stop "") s = .ok mbi t) :
    touches (copyWrites abi mb src) src.sources = false := by
  rw [copyMbi, CheckedState.bind_ok_iff] at ran
  obtain ⟨_, _, first, ran⟩ := ran
  rw [reserved] at first
  cases first
  split_ifs at ran with lost
  · exact absurd ran stop_not_ok
  · exact Bool.eq_false_iff.mpr lost

end

theorem seven_fits : 7 < Wordsize.w64.modulus := by decide

theorem two_fits : 2 < Wordsize.w64.modulus := by decide

def someStrings (address : Nat) : CString .w64 :=
  if address = 0x800 then .repeated 7 seven_fits else .repeated 2 two_fits

/-- Two modules of a machine with a video mode; only the first module has a command line. -/
def videoInfo : MultibootInfo .w64 where
  addr := 0x500
  mbi := {
    flags := flagCmdline ||| flagVideoInfo
    cmdline := 0x800
    modsCount := 2
    modsAddr := 0x600
    vbeModeInfo := 0x900 }
  mods := [⟨0x100000, 0x101000, 0x810⟩, ⟨0x102000, 0x103000, 0⟩]
  text := someStrings
  vbeMode := List.replicate vbeModeSize 1
  vbeCtrl := List.replicate vbeCtrlSize 2
  counted := rfl
  few := by decide
  modeLength := List.length_replicate
  ctrlLength := List.length_replicate

/-- One module, and a command line that is not announced. -/
def staleCmdline : MultibootInfo .w64 where
  addr := 0x500
  mbi := { cmdline := 0x800, modsCount := 1, modsAddr := 0x600 }
  mods := [⟨0x100000, 0x101000, 0⟩]
  text := someStrings
  vbeMode := List.replicate vbeModeSize 1
  vbeCtrl := List.replicate vbeCtrlSize 2
  counted := rfl
  few := by decide
  modeLength := List.length_replicate
  ctrlLength := List.length_replicate

end L4Bootstrap.X86
