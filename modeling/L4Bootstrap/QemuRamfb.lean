import L4Bootstrap.FreeSearchReverse
import L4Bootstrap.QemuFwCfg
import L4Bootstrap.RegionApart
import L4Bootstrap.RegionOptimize
import L4Bootstrap.Strtoul

/-!
# The frame buffer in RAM

`qemu_ramfb.cc`: the resolution comes from a firmware item, the frame buffer from the
free RAM, and the device is told both. The size of the frame buffer is computed in 32
bits, while the device gets the factors.
-/

namespace L4Bootstrap

open MachineWord CheckedLoop CheckedState ByteMemory Numerals

set_option autoImplicit false

/-- `L4_SUPERPAGESHIFT` and the size of the two VBE structures. -/
structure RamfbAbi where
  superPageShift : Nat
  vbeSize : Nat
  positive : 1 ≤ superPageShift
  small : superPageShift < 32

/-- `Ramfb_cfg`, packed and big-endian. -/
structure RamfbCfg where
  addr : Nat
  fourcc : Nat
  flags : Nat
  width : Nat
  height : Nat
  stride : Nat

def RamfbCfg.bytes (cfg : RamfbCfg) : List UInt8 :=
  beBytes 8 cfg.addr ++ beBytes 4 cfg.fourcc ++ beBytes 4 cfg.flags ++ beBytes 4 cfg.width ++
    beBytes 4 cfg.height ++ beBytes 4 cfg.stride

def ramfbCfgSize : Nat := 28

def ramfbFormat : Nat := 0x34325258

def ramfbStride : Nat := 4

def ramfbDefaultWidth : Nat := 1280

def ramfbDefaultHeight : Nat := 720

def fileName (s : String) : List UInt8 := s.toList.map fun c => UInt8.ofNat c.toNat

/-- `strtoul` with base 10. -/
def strtoulDecimal (W : Wordsize) (text : List UInt8) : Nat × List UInt8 :=
  let (negative, number) := readSign (text.dropWhile isspace)
  let n := numeral 10 (digits 10 number)
  let rest := number.dropWhile (isDigit 10)
  if digits 10 number = [] then (0, text)
  else if W.modulus ≤ n then (W.maxWord, rest)
  else if negative then (W.sub 0 n, rest)
  else (n, rest)

/-- What the two functions work on. -/
structure RamfbState (W : Wordsize) (σ : Type) where
  fw : FwCfg σ
  memory : Memory W

abbrev RamfbRun (W : Wordsize) (σ : Type) := EStateM Stop (RamfbState W σ)

variable {W : Wordsize} {σ : Type}

def onFwCfg {α : Type} (action : FwCfgRun σ α) : RamfbRun W σ α := fun s =>
  match action s.fw with
  | .ok value fw => .ok value { s with fw := fw }
  | .error failure fw => .error failure { s with fw := fw }

/-- The resolution in a text: `strchr`, and a `strtoul` for each of the two factors, which
are stored in 32 bits. The first `strtoul` moves `sep` to the end of its number. -/
def parseResolution (W : Wordsize) (text : List UInt8) : Nat × Nat :=
  if 0x78 ∈ text then
    let width := strtoulDecimal W text
    let height := strtoulDecimal W (width.2.drop 1)
    (width.1 % 2 ^ 32, height.1 % 2 ^ 32)
  else (ramfbDefaultWidth, ramfbDefaultHeight)

/-- `detect_ramfb_size` with its buffer at `fbeRes`. The string there ends at the latest
behind the buffer, where `read_str` puts its zero. -/
def detectRamfbSize (W : Wordsize) (d : FwCfgDevice σ) (fbeRes : Nat) : FwCfgRun σ (Nat × Nat) := do
  let fbeResLen ← FwCfg.selectFile d (fileName "opt/org.l4re/fb_res")
  if fbeResLen = 0 then return (ramfbDefaultWidth, ramfbDefaultHeight)
  FwCfg.readStr d 32 fbeResLen fbeRes
  return parseResolution W ((readList (← get).bytes fbeRes 33).takeWhile (· ≠ 0))

/-- The product and the rounded size are both stored in 32 bits. -/
def fbSize (W : Wordsize) (abi : RamfbAbi) (width height : Nat) : Nat :=
  W.roundSize abi.superPageShift (width * height * ramfbStride % 2 ^ 32) % 2 ^ 32

def fbAttr : Attr := { name := .literal ".fb", type := .arch }

def rootSectionRw : Subtype := 6

def vbeAttr : Attr :=
  { name := .literal ".vbe", type := .root, subType := rootSectionRw }

/-- "Allocate memory for frame buffer." and "mark the region as reserved". -/
def allocFrameBuffer (abi : RamfbAbi) (size : Nat) : RamfbRun W σ Nat := do
  let memory := (← get).memory
  let fb ← lift (memory.findFreeRamRev size 0 W.maxWord abi.superPageShift Memory.anyNode)
  if fb = 0 then lift (panic "Could not allocate memory for frame buffer.")
  let region ← lift (Region.startSize fb size fbAttr)
  let regions ← lift (memory.regions.add region)
  modify fun s => { s with memory := { memory with regions := regions } }
  return fb

/-- "Allocate and reserve region to hold VBE info for ramfb." -/
def allocVbe (abi : RamfbAbi) : RamfbRun W σ Bool := do
  let memory := (← get).memory
  let vbeAddr ← lift (memory.findFreeRam abi.vbeSize 0 W.maxWord pageShift Memory.anyNode)
  if vbeAddr = 0 then return false
  let region ← lift (Region.startSize vbeAddr abi.vbeSize vbeAttr)
  let regions ← lift (memory.regions.add region)
  modify fun s => { s with memory := { memory with regions := regions } }
  return true

/-- `setup_ramfb` up to the contents of the VBE info. -/
def setupRamfb (abi : RamfbAbi) (d : FwCfgDevice σ) (fbeRes : Nat) : RamfbRun W σ Bool := do
  if ¬ (← get).fw.present then return false
  match ← onFwCfg (FwCfg.findFile d (fileName "etc/ramfb")) with
  | none => return false
  | some (ramfbFile, ramfbFileSize) =>
      if ramfbFileSize ≠ ramfbCfgSize then return false
      let (width, height) ← onFwCfg (detectRamfbSize W d fbeRes)
      let fb ← allocFrameBuffer abi (fbSize W abi width height)
      modify fun s =>
        { s with fw := { s.fw with bytes := memset fb 0 (fbSize W abi width height) s.fw.bytes } }
      onFwCfg (FwCfg.select d ramfbFile)
      onFwCfg (FwCfg.writeBytes d
        (RamfbCfg.bytes ⟨fb, ramfbFormat, 0, width, height, width * ramfbStride⟩))
      allocVbe abi

/-! ## The steps of a run -/

section

variable {abi : RamfbAbi} {d : FwCfgDevice σ} {fbeRes size fb width height : Nat}

theorem on_fw_cfg_ok {α : Type} {action : FwCfgRun σ α} {before after : RamfbState W σ}
    {value : α} (ran : onFwCfg action before = .ok value after) :
    action before.fw = .ok value after.fw ∧ after.memory = before.memory := by
  unfold onFwCfg at ran
  split at ran <;> cases ran
  rename_i answered
  exact ⟨answered, rfl⟩

theorem parse_resolution_lt (W : Wordsize) (text : List UInt8) :
    (parseResolution W text).1 < 2 ^ 32 ∧ (parseResolution W text).2 < 2 ^ 32 := by
  unfold parseResolution
  split_ifs with separated
  · exact ⟨Nat.mod_lt _ (by decide), Nat.mod_lt _ (by decide)⟩
  · decide

theorem detect_ramfb_size_lt {before after : FwCfg σ} {resolution : Nat × Nat}
    (ran : detectRamfbSize W d fbeRes before = .ok resolution after) :
    resolution.1 < 2 ^ 32 ∧ resolution.2 < 2 ^ 32 := by
  unfold detectRamfbSize at ran
  obtain ⟨len, mid, selected, ran⟩ := bind_ok_iff.mp ran
  split_ifs at ran with absent
  · obtain ⟨rfl, _⟩ := pure_ok_iff.mp ran
    decide
  · obtain ⟨_, filled, _, ran⟩ := bind_ok_iff.mp ran
    rw [get_bind] at ran
    obtain ⟨rfl, _⟩ := pure_ok_iff.mp ran
    exact parse_resolution_lt W _

theorem write_bytes_ok {data : List UInt8} {before after : FwCfg σ} (nonempty : data.length ≠ 0)
    (ran : FwCfg.writeBytes d data before = .ok () after) :
    after.transfers = before.transfers ++ [.write data] := by
  unfold FwCfg.writeBytes at ran
  rw [get_bind] at ran
  split_ifs at ran with present
  · obtain ⟨_, mid, sent, ran⟩ := bind_ok_iff.mp ran
    obtain ⟨_, rfl⟩ := pure_ok_iff.mp ran
    unfold FwCfg.dmaTransfer at sent
    rw [if_neg (show (DmaTransfer.write data).length ≠ 0 from nonempty)] at sent
    obtain ⟨_, posted, isPosted, sent⟩ := bind_ok_iff.mp sent
    obtain rfl := modify_ok_iff.mp isPosted
    rw [get_bind] at sent
    generalize d.transfer _ _ = status at sent
    cases status with
    | failed => cases sent
    | pending => cases sent
    | done outcome =>
        cases sent
        rfl
  · obtain ⟨_, _, failed, _⟩ := bind_ok_iff.mp ran
    cases (lift_ok_iff.mp failed).1

theorem alloc_frame_buffer_ok {before after : RamfbState W σ}
    (ran : allocFrameBuffer abi size before = .ok fb after) :
    fb ≠ 0 ∧
      before.memory.findFreeRamRev size 0 W.maxWord abi.superPageShift Memory.anyNode = .ok fb ∧
      ∃ region, Region.startSize fb size fbAttr = .ok region ∧
        ∃ regions, before.memory.regions.add region = .ok regions ∧
          after.memory = { before.memory with regions := regions } := by
  unfold allocFrameBuffer at ran
  rw [get_bind] at ran
  obtain ⟨found, mid, search, ran⟩ := bind_ok_iff.mp ran
  obtain ⟨search, rfl⟩ := lift_ok_iff.mp search
  split_ifs at ran with zero
  · obtain ⟨_, _, failed, _⟩ := bind_ok_iff.mp ran
    cases (lift_ok_iff.mp failed).1
  · obtain ⟨region, _, isMade, ran⟩ := bind_ok_iff.mp ran
    obtain ⟨made, rfl⟩ := lift_ok_iff.mp isMade
    obtain ⟨regions, _, isAdded, ran⟩ := bind_ok_iff.mp ran
    obtain ⟨added, rfl⟩ := lift_ok_iff.mp isAdded
    obtain ⟨_, entered, isEntered, ran⟩ := bind_ok_iff.mp ran
    obtain rfl := modify_ok_iff.mp isEntered
    obtain ⟨rfl, rfl⟩ := pure_ok_iff.mp ran
    exact ⟨zero, search, region, made, regions, added, rfl⟩

theorem alloc_vbe_ok {before after : RamfbState W σ} (ran : allocVbe abi before = .ok true after) :
    after.fw = before.fw ∧ ∃ region, region.attr = vbeAttr ∧
      before.memory.regions.add region = .ok after.memory.regions := by
  unfold allocVbe at ran
  rw [get_bind] at ran
  obtain ⟨found, mid, search, ran⟩ := bind_ok_iff.mp ran
  obtain ⟨_, rfl⟩ := lift_ok_iff.mp search
  split_ifs at ran with zero
  · cases (pure_ok_iff.mp ran).1
  · obtain ⟨region, _, isMade, ran⟩ := bind_ok_iff.mp ran
    obtain ⟨made, rfl⟩ := lift_ok_iff.mp isMade
    obtain ⟨regions, _, isAdded, ran⟩ := bind_ok_iff.mp ran
    obtain ⟨added, rfl⟩ := lift_ok_iff.mp isAdded
    obtain ⟨_, entered, isEntered, ran⟩ := bind_ok_iff.mp ran
    obtain rfl := modify_ok_iff.mp isEntered
    obtain ⟨_, rfl⟩ := pure_ok_iff.mp ran
    exact ⟨rfl, region, (Region.start_size_ok.mp made).2.2.2, added⟩

theorem length_cfg_bytes (cfg : RamfbCfg) : cfg.bytes.length = ramfbCfgSize := by
  simp [RamfbCfg.bytes, ramfbCfgSize]

/-- The three steps of a successful run: the frame buffer, the device, and the VBE info. -/
theorem setup_ramfb_ok {before after : RamfbState W σ}
    (ran : setupRamfb abi d fbeRes before = .ok true after) :
    ∃ width height fb, ∃ start reserved : RamfbState W σ, width < 2 ^ 32 ∧ height < 2 ^ 32 ∧
      start.memory = before.memory ∧
      allocFrameBuffer abi (fbSize W abi width height) start = .ok fb reserved ∧
      after.fw.transfers.getLast? = some (.write
        (RamfbCfg.bytes ⟨fb, ramfbFormat, 0, width, height, width * ramfbStride⟩)) ∧
      ∃ region, region.attr = vbeAttr ∧
        reserved.memory.regions.add region = .ok after.memory.regions := by
  unfold setupRamfb at ran
  rw [get_bind] at ran
  split_ifs at ran with present
  · obtain ⟨file, found, isFound, ran⟩ := bind_ok_iff.mp ran
    cases file with
    | none => cases (pure_ok_iff.mp ran).1
    | some entry =>
        obtain ⟨ramfbFile, ramfbFileSize⟩ := entry
        simp only at ran
        split_ifs at ran with otherSize
        · cases (pure_ok_iff.mp ran).1
        · obtain ⟨⟨width, height⟩, start, detected, ran⟩ := bind_ok_iff.mp ran
          obtain ⟨fb, reserved, allocated, ran⟩ := bind_ok_iff.mp ran
          obtain ⟨_, cleared, isCleared, ran⟩ := bind_ok_iff.mp ran
          obtain rfl := modify_ok_iff.mp isCleared
          obtain ⟨_, selected, isSelected, ran⟩ := bind_ok_iff.mp ran
          obtain ⟨_, written, isWritten, ran⟩ := bind_ok_iff.mp ran
          obtain ⟨sameFw, region, attr, added⟩ := alloc_vbe_ok ran
          have resolution := detect_ramfb_size_lt (on_fw_cfg_ok detected).1
          have memory := (on_fw_cfg_ok detected).2.trans (on_fw_cfg_ok isFound).2
          obtain ⟨wrote, sameMemory⟩ := on_fw_cfg_ok isWritten
          have sent := write_bytes_ok (by rw [length_cfg_bytes]; decide) wrote
          rw [sameMemory, (on_fw_cfg_ok isSelected).2] at added
          exact ⟨width, height, fb, start, reserved, resolution.1, resolution.2, memory, allocated,
            by rw [sameFw, sent]; simp, region, attr, added⟩
  · cases (pure_ok_iff.mp ran).1

end

/-! ## The size of the frame buffer -/

section

variable {abi : RamfbAbi} {width height : Nat}

theorem RamfbAbi.shift_lt_bits (abi : RamfbAbi) (W : Wordsize) : abi.superPageShift < W.bits := by
  have := abi.small
  cases W <;> simp only [Wordsize.bits] <;> omega

theorem modulus_le (W : Wordsize) : W.modulus ≤ 2 ^ 64 := by
  cases W <;> decide

theorem bytes_le_max_word (W : Wordsize) : max 0 W.bytes ≤ W.maxWord := by
  cases W <;> decide

theorem fb_size_lt (W : Wordsize) (abi : RamfbAbi) (width height : Nat) :
    fbSize W abi width height < 2 ^ 32 := Nat.mod_lt _ (by decide)

theorem dvd_fb_size (W : Wordsize) (abi : RamfbAbi) (width height : Nat) :
    2 ^ abi.superPageShift ∣ fbSize W abi width height :=
  (Nat.dvd_mod_iff (pow_dvd_pow 2 abi.small.le)).mpr (W.dvd_round_size _ _)

/-- Without a wrap the size is the rounded product, unless the rounding wraps to 0. -/
theorem fb_size_eq (positive : 0 < fbSize W abi width height)
    (fits : width * height * ramfbStride < 2 ^ 32) :
    fbSize W abi width height = roundUp abi.superPageShift (width * height * ramfbStride) := by
  have whole : 2 ^ 32 ∣ W.modulus := W.pow_dvd_modulus (by cases W <;> decide)
  have upper := round_up_le (pow_dvd_pow 2 abi.small.le) fits.le
  unfold fbSize at positive ⊢
  rw [Nat.mod_eq_of_lt fits, W.round_size_mod (abi.shift_lt_bits W).le,
    Nat.mod_mod_of_dvd _ whole] at positive ⊢
  rcases upper.lt_or_eq with below | wraps
  · exact Nat.mod_eq_of_lt below
  · rw [wraps, Nat.mod_self] at positive
    omega

end

/-! ## The reservation and the mode -/

/-- The frame buffer at `addr` is reserved for the whole mode, in memory that was free. -/
def FrameBufferReserved (abi : RamfbAbi) (before : Memory W) (after : RegionList W)
    (addr width height : Nat) : Prop :=
  ∃ r ∈ after.reg, r.attr = fbAttr ∧ r.begin = addr ∧
    height * (width * ramfbStride) ≤ r.last - r.begin + 1 ∧
    before.FreeSpot (r.last - r.begin + 1) 0 W.maxWord abi.superPageShift Memory.anyNode r.begin

section

variable {abi : RamfbAbi} {d : FwCfgDevice σ} {fbeRes : Nat} {before after : RamfbState W σ}

/-- The fields that the device gets, as it reads them. -/
theorem cfg_bytes_fields (cfg : RamfbCfg) (addr : cfg.addr < 2 ^ 64) (width : cfg.width < 2 ^ 32)
    (height : cfg.height < 2 ^ 32) :
    beAt cfg.bytes 0 8 = cfg.addr ∧ beAt cfg.bytes 16 4 = cfg.width ∧
      beAt cfg.bytes 20 4 = cfg.height := by
  have atAddr : cfg.bytes = [] ++ beBytes 8 cfg.addr ++ (beBytes 4 cfg.fourcc ++
      beBytes 4 cfg.flags ++ beBytes 4 cfg.width ++ beBytes 4 cfg.height ++
      beBytes 4 cfg.stride) := by
    simp [RamfbCfg.bytes]
  have atWidth : cfg.bytes = (beBytes 8 cfg.addr ++ beBytes 4 cfg.fourcc ++ beBytes 4 cfg.flags) ++
      beBytes 4 cfg.width ++ (beBytes 4 cfg.height ++ beBytes 4 cfg.stride) := by
    simp [RamfbCfg.bytes]
  have atHeight : cfg.bytes = (beBytes 8 cfg.addr ++ beBytes 4 cfg.fourcc ++ beBytes 4 cfg.flags ++
      beBytes 4 cfg.width) ++ beBytes 4 cfg.height ++ beBytes 4 cfg.stride := by
    simp [RamfbCfg.bytes]
  exact ⟨(be_at_of_split atAddr rfl).trans (Nat.mod_eq_of_lt addr),
    (be_at_of_split atWidth (by simp)).trans (Nat.mod_eq_of_lt width),
    (be_at_of_split atHeight (by simp)).trans (Nat.mod_eq_of_lt height)⟩

/-- A run that returns true has reserved the whole mode exactly if the size of the mode
fits 32 bits and free RAM of that size existed. -/
theorem setup_ramfb_covers_mode_iff (ramSorted : Ascending before.memory.ram.reg)
    (sysSorted : Ascending before.memory.sysalloc.reg)
    (regionsFormed : before.memory.regions.WellFormed) (narrows : before.memory.Narrows)
    (limits : ∀ r, before.memory.regions.InLimit r)
    (fresh : ∀ r ∈ before.memory.regions.reg, r.attr ≠ fbAttr)
    (returned : setupRamfb abi d fbeRes before = .ok true after) :
    ∃ data, after.fw.transfers.getLast? = some (.write data) ∧
      (FrameBufferReserved abi before.memory after.memory.regions (beAt data 0 8)
          (beAt data 16 4) (beAt data 20 4) ↔
        beAt data 16 4 * beAt data 20 4 * ramfbStride < 2 ^ 32 ∧
          ∃ t, before.memory.FreeSpot
            (roundUp abi.superPageShift (beAt data 16 4 * beAt data 20 4 * ramfbStride)) 0
            W.maxWord abi.superPageShift Memory.anyNode t) := by
  obtain ⟨width, height, fb, start, reserved, widthWord, heightWord, sameMemory, allocated, written,
    vbe, vbeIsAttr, vbeAdded⟩ := setup_ramfb_ok returned
  obtain ⟨nonzero, search, region, made, regions, added, memory⟩ := alloc_frame_buffer_ok allocated
  rw [sameMemory] at search added memory
  rw [memory] at vbeAdded
  have modulus := W.modulus_ge
  have shiftSmall := abi.small
  have pagePos : 2 ≤ 2 ^ abi.superPageShift := by
    calc 2 = 2 ^ 1 := rfl
      _ ≤ 2 ^ abi.superPageShift := Nat.pow_le_pow_right (by decide) abi.positive
  have small := fb_size_lt W abi width height
  have whole := dvd_fb_size W abi width height
  obtain ⟨positive, begins, _, attr⟩ := Region.start_size_ok.mp made
  have fbWord : fb < W.modulus := by
    have := region.ordered
    have := region.bounded
    omega
  obtain ⟨_, _, ends, _⟩ := Region.start_size_last made (by omega)
  have two : 2 ≤ fbSize W abi width height := pagePos.trans (Nat.le_of_dvd positive whole)
  have sole : Sole after.memory.regions.reg region := by
    have first := add_sole (limits region) (by omega) (by rw [attr]; exact fresh) added
    have formed := RegionList.add_well_formed regionsFormed added
    exact add_other_sole (RegionList.ascending_merge_order formed.ascending) first
      (by rw [vbeIsAttr, attr]; decide) vbeAdded
  have fields := cfg_bytes_fields ⟨fb, ramfbFormat, 0, width, height, width * ramfbStride⟩
    (fbWord.trans_le (modulus_le W)) widthWord heightWord
  refine ⟨_, written, ?_⟩
  rw [fields.1, fields.2.1, fields.2.2]
  simp only
  have product : height * (width * ramfbStride) = width * height * ramfbStride := by
    rw [← Nat.mul_assoc, Nat.mul_comm height width]
  have size : region.last - region.begin + 1 = fbSize W abi width height := by omega
  constructor
  · rintro ⟨r, member, rAttr, _, covers, spot⟩
    obtain rfl := sole.unique r member (rAttr.trans attr.symm)
    rw [size, product] at covers
    have fits : width * height * ramfbStride < 2 ^ 32 := covers.trans_lt small
    rw [size, fb_size_eq positive fits] at spot
    exact ⟨fits, _, spot⟩
  · rintro ⟨fits, exists_spot⟩
    have rounded := fb_size_eq positive fits
    have settled : roundUp abi.superPageShift (fbSize W abi width height) =
        fbSize W abi width height := round_up_of_dvd whole
    obtain ⟨t, found, highest⟩ := Memory.find_free_ram_rev_highest ramSorted sysSorted narrows two
      (show _ < W.modulus by omega) (abi.shift_lt_bits W) (bytes_le_max_word W)
      (.inl (by rw [settled, rounded]; exact exists_spot))
    rw [search] at found
    cases found
    have spot := (highest.2 nonzero).1
    rw [settled] at spot
    refine ⟨region, sole.member, attr, begins, ?_, ?_⟩
    · rw [size, product, rounded]
      exact le_round_up _ _
    · rw [size, begins]
      exact spot

end

/-! ## A machine with 32 MiB of RAM -/

def dirEntry (name : List UInt8) (sel size : Nat) : List UInt8 :=
  beBytes 4 size ++ beBytes 2 sel ++ beBytes 2 0 ++ name ++ List.replicate (56 - name.length) 0

/-- The items of a device with a resolution. -/
def ramfbItem (resolution : List UInt8) (sel : Nat) : List UInt8 :=
  if sel = FwCfg.fileDir then
    beBytes 4 2 ++ dirEntry (fileName "etc/ramfb") 0x20 28 ++
      dirEntry (fileName "opt/org.l4re/fb_res") 0x21 resolution.length
  else if sel = 0x21 then resolution
  else []

/-- A device that goes through the selected item. -/
def itemDevice (item : Nat → List UInt8) : FwCfgDevice (Nat × Nat) where
  select sel _ := (sel, 0)
  transfer
    | .read length, (sel, offset) =>
        .done ((List.range length).map fun i => (item sel).getD (offset + i) 0,
          (sel, offset + length))
    | .write data, (sel, offset) => .done ([], (sel, offset + data.length))
  length_read done := by
    cases done
    simp

def smallAbi : RamfbAbi := ⟨21, 0x400, by decide, by decide⟩

def emptyRam : Memory .w64 where
  ram := Memory.unlimited [⟨0, 0x1ffffff, {}, by decide, by decide⟩]
  sysalloc := Memory.unlimited [⟨0, 0x1ffffff, {}, by decide, by decide⟩]
  regions := Memory.unlimited []
  validate := none

def qemuStart : RamfbState .w64 (Nat × Nat) := ⟨⟨true, (0, 0), [], fun _ => 0⟩, emptyRam⟩

/-- What the device gets, and the extents of the reserved regions. -/
def programmed (s : RamfbState .w64 (Nat × Nat)) : Option DmaTransfer × List (Nat × Nat) :=
  (s.fw.transfers.getLast?, s.memory.regions.reg.map fun r : Region .w64 => (r.begin, r.last))

/-- The answer of a run on this machine, with what it has programmed. -/
def runOn (resolution : List UInt8) : Option (Bool × Option DmaTransfer × List (Nat × Nat)) :=
  match setupRamfb smallAbi (itemDevice (ramfbItem resolution)) 0x1000 qemuStart with
  | .ok answer after => some (answer, programmed after)
  | .error _ _ => none

theorem exists_of_run_on {resolution : List UInt8} {answer : Bool}
    {seen : Option DmaTransfer × List (Nat × Nat)} (ran : runOn resolution = some (answer, seen)) :
    ∃ after, setupRamfb smallAbi (itemDevice (ramfbItem resolution)) 0x1000 qemuStart =
      .ok answer after ∧ programmed after = seen := by
  unfold runOn at ran
  split at ran
  · rename_i answered after returned
    cases ran
    exact ⟨after, returned, rfl⟩
  · cases ran

theorem qemu_start_limits (r : Region .w64) : qemuStart.memory.regions.InLimit r := by
  have bounded := r.bounded
  have sum := Wordsize.w64.add_lt 0 r.size
  have maxWord : Wordsize.w64.maxWord = Wordsize.w64.modulus - 1 := rfl
  have positive := Wordsize.w64.modulus_pos
  constructor
  · change r.last ≤ Wordsize.w64.maxWord
    omega
  · decide
  · change Wordsize.w64.add 0 r.size ≤ Wordsize.w64.maxWord
    omega

theorem setup_ramfb_covers_640_480 :
    ∃ after data, setupRamfb smallAbi (itemDevice (ramfbItem (fileName "640x480"))) 0x1000
        qemuStart = .ok true after ∧
      after.fw.transfers.getLast? = some (.write data) ∧
      (beAt data 16 4, beAt data 20 4) = (640, 480) ∧
      FrameBufferReserved smallAbi emptyRam after.memory.regions (beAt data 0 8)
        (beAt data 16 4) (beAt data 20 4) := by
  have ran : runOn (fileName "640x480") = some (true,
      some (.write [0, 0, 0, 0, 1, 224, 0, 0, 52, 50, 82, 88, 0, 0, 0, 0, 0, 0, 2, 128, 0, 0,
          1, 224, 0, 0, 10, 0]),
      [(0x1000, 0x13ff), (0x1e00000, 0x1ffffff)]) := by
    decide +kernel
  obtain ⟨after, returned, seen⟩ := exists_of_run_on ran
  obtain ⟨data, written, reserved⟩ := @setup_ramfb_covers_mode_iff _ _ smallAbi _ 0x1000 qemuStart
    after (List.pairwise_singleton _ _) (List.pairwise_singleton _ _)
    ⟨List.Pairwise.nil, by decide⟩ (fun area node narrowed same => by cases same; simp)
    qemu_start_limits (by simp [qemuStart, emptyRam, Memory.unlimited]) returned
  have transfer := written.symm.trans (congrArg Prod.fst seen)
  simp only [Option.some.injEq, DmaTransfer.write.injEq] at transfer
  subst transfer
  have spot : emptyRam.FreeSpot 0x200000 0 Wordsize.w64.maxWord 21 Memory.anyNode 0x1e00000 := by
    refine ⟨by decide, by decide, by decide, ?_, ?_, by simp [RegionList.Free, emptyRam,
      Memory.unlimited]⟩
    · refine ⟨_, List.mem_singleton.mpr rfl, by decide, ?_⟩
      exact ⟨⟨8, 0x1ffffff, {}, by decide, by decide⟩,
        ⟨_, by decide, by decide, by decide, rfl⟩, by decide⟩
    · exact ⟨_, List.mem_singleton.mpr rfl, by decide⟩
  exact ⟨after, _, returned, written, by decide +kernel,
    reserved.mpr ⟨by decide +kernel, 0x1e00000, spot⟩⟩

/-- 2^32 and 2^18 pixels: the device gets all of them, and 2 MiB are reserved. -/
theorem setup_ramfb_wraps :
    ∃ after data, setupRamfb smallAbi (itemDevice (ramfbItem (fileName "65536x16385"))) 0x1000
        qemuStart = .ok true after ∧
      after.fw.transfers.getLast? = some (.write data) ∧
      (beAt data 16 4, beAt data 20 4) = (65536, 16385) ∧
      ¬ FrameBufferReserved smallAbi emptyRam after.memory.regions (beAt data 0 8)
        (beAt data 16 4) (beAt data 20 4) := by
  have ran : runOn (fileName "65536x16385") = some (true,
      some (.write [0, 0, 0, 0, 1, 224, 0, 0, 52, 50, 82, 88, 0, 0, 0, 0, 0, 1, 0, 0, 0, 0,
          64, 1, 0, 4, 0, 0]),
      [(0x1000, 0x13ff), (0x1e00000, 0x1ffffff)]) := by
    decide +kernel
  obtain ⟨after, returned, seen⟩ := exists_of_run_on ran
  refine ⟨after, _, returned, congrArg Prod.fst seen, by decide +kernel, ?_⟩
  rintro ⟨r, member, _, _, covers, _⟩
  have extent : (r.begin, r.last) ∈ (programmed after).2 :=
    List.mem_map_of_mem (f := fun r : Region .w64 => (r.begin, r.last)) member
  rw [seen] at extent
  have small : r.last - r.begin + 1 ≤ 0x200000 := by
    simp only [List.mem_cons, Prod.mk.injEq, List.not_mem_nil, or_false] at extent
    omega
  exact absurd (covers.trans small) (by decide +kernel)

end L4Bootstrap
