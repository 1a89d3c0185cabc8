import L4Bootstrap.X86.PciBars
import L4Bootstrap.X86.PciIterator

/-!
# Drivers for PCI serial cards

`Serial_board`, the drivers and the table of devices of `x86_pc-base.h`. The drivers of
the table whose id matches are tried in turn on one board. Each of them decodes the base
address registers into the board, and the one that accepts the device fills in the rest.
-/

namespace L4Bootstrap.X86

open MachineWord

set_option autoImplicit false

/-- The word size, and `Base_rate_x86` of the UART driver. -/
structure PcPlatform where
  wordsize : Wordsize
  baseRateX86 : Nat

structure SerialBoard where
  flags : Nat := 0
  baseBar : Nat := 0
  numPorts : Nat := 0
  baseBaud : Nat := 0
  portOffset : Nat := 0
  baseOffset : Nat := 0
  regShift : Nat := 0
  bars : Bars

namespace SerialBoard

/-- Behind the constructor only the types of the bars are initialised. -/
def fresh (left : Fin numBars → Nat × Nat) : SerialBoard :=
  { bars := fun bar => ⟨.noBar, (left bar).1, (left bar).2⟩ }

def numIoBars (board : SerialBoard) : Nat :=
  (List.finRange numBars).countP fun bar => (board.bars bar).type = .ioBar

/-- `none` stands for -1. -/
def firstIoBar (board : SerialBoard) : Option (Fin numBars) :=
  (List.finRange numBars).find? fun bar => (board.bars bar).type = .ioBar

/-- The length that is read at the index of the first I/O bar. In front of the array are the
fields `base_offset` and `reg_shift`. -/
def firstLen (W : Wordsize) (board : SerialBoard) : Nat :=
  match board.firstIoBar, W with
  | some bar, _ => (board.bars bar).len
  | none, .w64 => board.baseOffset + board.regShift * 2 ^ 32
  | none, .w32 => board.regShift

/-- The index as an `unsigned short`. -/
def firstBar (board : SerialBoard) : Nat :=
  match board.firstIoBar with
  | some bar => bar
  | none => 0xffff

end SerialBoard

def enableIo (cfg : ConfigSpace) (dev : PciIterator) : ConfigSpace :=
  pciWrite cfg dev.slot 4 (pciRead cfg dev.slot 4 16 ||| 1) 16

def enableMmio (cfg : ConfigSpace) (dev : PciIterator) : ConfigSpace :=
  pciWrite cfg dev.slot 4 (pciRead cfg dev.slot 4 16 ||| 2) 16

/-! ## The drivers -/

/-- `Pci_com_drv::read_bars`, on the board. -/
def readBoard (P : PcPlatform) (dev : PciIterator) (cfg : ConfigSpace) (board : SerialBoard) :
    ConfigSpace × SerialBoard :=
  let (cfg, bars) := readBars P.wordsize dev.slot cfg board.bars
  (cfg, { board with bars := bars })

/-- What all drivers for I/O ports fill in. -/
def SerialBoard.ioPorts (P : PcPlatform) (board : SerialBoard) (numPorts : Nat) : SerialBoard :=
  { board with
    portOffset := 8
    baseBaud := P.baseRateX86
    baseBar := board.firstBar
    numPorts := numPorts
    flags := 0 }

/-- The number of ports is an `unsigned`. -/
def SerialBoard.portsOfFirst (P : PcPlatform) (board : SerialBoard) : Nat :=
  board.firstLen P.wordsize / 8 % 2 ^ 32

abbrev Setup := PciIterator → ConfigSpace → SerialBoard → Bool × ConfigSpace × SerialBoard

/-- `Pci_com_drv_default::setup`. -/
def setupDefault (P : PcPlatform) : Setup := fun dev cfg board =>
  let (cfg, board) := readBoard P dev cfg board
  if board.numIoBars ≠ 1 then (false, cfg, board)
  else (true, enableIo cfg dev, board.ioPorts P (board.portsOfFirst P))

def setupFallback (P : PcPlatform) : Setup := fun dev cfg board =>
  if dev.classcode cfg ≠ 7 then (false, cfg, board)
  else if dev.subclass cfg ≠ 0x80 then (false, cfg, board)
  else setupDefault P dev cfg board

/-- The drivers of two cards with memory bars, which know one device each. -/
def setupMmio (P : PcPlatform) (id : BitVec 32) (baseBaud portOffset baseOffset : Nat) : Setup :=
  fun dev cfg board =>
    let (cfg, board) := readBoard P dev cfg board
    let board := { board with flags := 0, numPorts := 0 }
    let board :=
      if dev.device = id then
        { board with
          numPorts := 2
          baseBaud := baseBaud
          portOffset := portOffset
          baseBar := 0
          baseOffset := baseOffset
          regShift := 0 }
      else board
    if board.numPorts = 0 then (false, cfg, board)
    else (true, enableMmio cfg dev, board)

def setupOxsemi (P : PcPlatform) : Setup := setupMmio P 0xc158 4000000 0x200 0x1000

def setupExar (P : PcPlatform) : Setup := setupMmio P 0x0352 7812500 0x400 0

def setupMoschip (P : PcPlatform) : Setup := fun dev cfg board =>
  if dev.subclass cfg ≠ 0 then (false, cfg, board)
  else
    let (cfg, board) := readBoard P dev cfg board
    (true, enableIo cfg dev, board.ioPorts P (board.portsOfFirst P))

def setupAgestar (P : PcPlatform) : Setup := fun dev cfg board =>
  let (cfg, board) := readBoard P dev cfg board
  (true, enableIo cfg dev, board.ioPorts P 2)

def wchPorts (device : BitVec 32) : Nat :=
  if device = 0x3253 then 2 else if device = 0x3470 then 4 else 2

def setupWchChip (P : PcPlatform) : Setup := fun dev cfg board =>
  let (cfg, board) := readBoard P dev cfg board
  (true, enableIo cfg dev, { board.ioPorts P (wchPorts dev.device) with baseOffset := 0xc0 })

inductive PciComDrv
  | default
  | fallback
  | oxsemi
  | exar
  | moschip
  | agestar
  | wchChip
  deriving DecidableEq, Repr

def PciComDrv.setup (P : PcPlatform) : PciComDrv → Setup
  | default => setupDefault P
  | fallback => setupFallback P
  | oxsemi => setupOxsemi P
  | exar => setupExar P
  | moschip => setupMoschip P
  | agestar => setupAgestar P
  | wchChip => setupWchChip P

structure PciComDev where
  vendorDevice : BitVec 32
  mask : BitVec 32
  driver : PciComDrv

/-- `PCI_DEVICE_ID`. -/
def pciDeviceId (vendor device : BitVec 32) (driver : PciComDrv) : PciComDev :=
  ⟨(device <<< 16) ||| (vendor &&& 0xffff), 0xffffffff, driver⟩

/-- `PCI_ANY_DEVICE`. -/
def pciAnyDevice (driver : PciComDrv) : PciComDev := ⟨0, 0, driver⟩

/-- `_devs`. -/
def devs : List PciComDev :=
  [pciDeviceId 0x1415 0xc158 .oxsemi,
    pciDeviceId 0x9710 0x9835 .moschip,
    pciDeviceId 0x9710 0x9865 .moschip,
    pciDeviceId 0x9710 0x9922 .moschip,
    pciDeviceId 0x125b 0x9100 .moschip,
    pciDeviceId 0x5372 0x6872 .agestar,
    pciDeviceId 0x1c00 0x3253 .wchChip,
    pciDeviceId 0x1c00 0x3470 .wchChip,
    pciDeviceId 0x8086 0x8c3d .default,
    pciDeviceId 0x8086 0x9d3d .default,
    pciDeviceId 0x13a8 0x0352 .exar,
    pciAnyDevice .fallback]

/-- The condition in front of `setup`. -/
def PciComDev.Matches (dev : PciIterator) (d : PciComDev) : Prop :=
  dev.vd &&& d.mask = d.vendorDevice

instance (dev : PciIterator) (d : PciComDev) : Decidable (d.Matches dev) :=
  inferInstanceAs (Decidable (_ = _))

/-- The loop over the table, with the driver that accepts the device. -/
def tryDevs (P : PcPlatform) (dev : PciIterator) : List PciComDev → ConfigSpace → SerialBoard →
    Option PciComDrv × ConfigSpace × SerialBoard
  | [], cfg, board => (none, cfg, board)
  | d :: rest, cfg, board =>
      if d.Matches dev then
        match d.driver.setup P dev cfg board with
        | (true, cfg, board) => (some d.driver, cfg, board)
        | (false, cfg, board) => tryDevs P dev rest cfg board
      else tryDevs P dev rest cfg board

/-! ## What a driver does -/

/-- The board with the registers of the device decoded into it. -/
def SerialBoard.decoded (P : PcPlatform) (cfg : ConfigSpace) (dev : PciIterator)
    (board : SerialBoard) : SerialBoard :=
  { board with
    bars := fun bar => decodeBar P.wordsize (barRegister cfg dev.slot bar) (board.bars bar) }

namespace PciComDrv

/-- The checks in front of the first access to the board. -/
def Takes (cfg : ConfigSpace) (dev : PciIterator) : PciComDrv → Prop
  | fallback => dev.classcode cfg = 7 ∧ dev.subclass cfg = 0x80
  | moschip => dev.subclass cfg = 0
  | _ => True

/-- The checks behind the registers have been decoded. -/
def Accepts (dev : PciIterator) (board : SerialBoard) : PciComDrv → Prop
  | default | fallback => board.numIoBars = 1
  | oxsemi => dev.device = 0xc158
  | exar => dev.device = 0x0352
  | _ => True

instance (cfg : ConfigSpace) (dev : PciIterator) (drv : PciComDrv) :
    Decidable (drv.Takes cfg dev) := by
  cases drv <;> unfold Takes <;> infer_instance

instance (dev : PciIterator) (board : SerialBoard) (drv : PciComDrv) :
    Decidable (drv.Accepts dev board) := by
  cases drv <;> unfold Accepts <;> infer_instance

/-- The offset that the driver sets, if it does. -/
def ownOffset : PciComDrv → Option Nat
  | oxsemi => some 0x1000
  | exar => some 0
  | wchChip => some 0xc0
  | _ => none

/-- The board for a device that is not accepted. -/
def reject (board : SerialBoard) : PciComDrv → SerialBoard
  | oxsemi | exar => { board with flags := 0, numPorts := 0 }
  | _ => board

/-- The board for an accepted device. -/
def configure (P : PcPlatform) (dev : PciIterator) (board : SerialBoard) :
    PciComDrv → SerialBoard
  | default | fallback | moschip => board.ioPorts P (board.portsOfFirst P)
  | agestar => board.ioPorts P 2
  | wchChip => { board.ioPorts P (wchPorts dev.device) with baseOffset := 0xc0 }
  | oxsemi => { board with
      flags := 0, numPorts := 2, baseBaud := 4000000, portOffset := 0x200, baseBar := 0
      baseOffset := 0x1000, regShift := 0 }
  | exar => { board with
      flags := 0, numPorts := 2, baseBaud := 7812500, portOffset := 0x400, baseBar := 0
      baseOffset := 0, regShift := 0 }

end PciComDrv

open PciIterator

section

variable {P : PcPlatform} {cfg other : ConfigSpace} {dev : PciIterator} {board : SerialBoard}

theorem read_board_eq : readBoard P dev cfg board = (cfg, board.decoded P cfg dev) := by
  rw [readBoard, read_bars_eq]
  rfl

theorem same_functions_enable_io (cfg : ConfigSpace) (dev : PciIterator) :
    SameFunctions (enableIo cfg dev) cfg := same_functions_write _

theorem same_functions_enable_mmio (cfg : ConfigSpace) (dev : PciIterator) :
    SameFunctions (enableMmio cfg dev) cfg := same_functions_write _

/-- The outcomes of a setup. -/
inductive SetUp (P : PcPlatform) (cfg : ConfigSpace) (dev : PciIterator) (board : SerialBoard)
    (drv : PciComDrv) : Bool × ConfigSpace × SerialBoard → Prop
  | notTaken (no : ¬drv.Takes cfg dev) : SetUp P cfg dev board drv (false, cfg, board)
  | rejected (takes : drv.Takes cfg dev) (no : ¬drv.Accepts dev (board.decoded P cfg dev)) :
      SetUp P cfg dev board drv (false, cfg, drv.reject (board.decoded P cfg dev))
  | accepted {enabled : ConfigSpace} (takes : drv.Takes cfg dev)
      (accepts : drv.Accepts dev (board.decoded P cfg dev)) (same : SameFunctions enabled cfg) :
      SetUp P cfg dev board drv (true, enabled, drv.configure P dev (board.decoded P cfg dev))

theorem setup_default_spec (drv : PciComDrv) (takes : drv.Takes cfg dev)
    (accepts : ∀ board, drv.Accepts dev board ↔ board.numIoBars = 1)
    (rejects : ∀ board, drv.reject board = board)
    (configures : ∀ board, drv.configure P dev board = board.ioPorts P (board.portsOfFirst P)) :
    SetUp P cfg dev board drv (setupDefault P dev cfg board) := by
  rw [setupDefault, read_board_eq]
  dsimp only
  split_ifs with notOne
  · have rejected := SetUp.rejected takes (mt (accepts (board.decoded P cfg dev)).mp notOne)
    rw [rejects] at rejected
    exact rejected
  · rw [← configures]
    exact .accepted takes ((accepts _).mpr (not_not.mp notOne)) (same_functions_enable_io cfg dev)

theorem setup_mmio_spec {id : BitVec 32} {baseBaud portOffset baseOffset : Nat}
    (drv : PciComDrv) (takes : drv.Takes cfg dev)
    (accepts : ∀ board, drv.Accepts dev board ↔ dev.device = id)
    (rejects : ∀ board, drv.reject board = { board with flags := 0, numPorts := 0 })
    (configures : ∀ board, drv.configure P dev board =
      { board with
        flags := 0, numPorts := 2, baseBaud := baseBaud, portOffset := portOffset, baseBar := 0
        baseOffset := baseOffset, regShift := 0 }) :
    SetUp P cfg dev board drv (setupMmio P id baseBaud portOffset baseOffset dev cfg board) := by
  rw [setupMmio, read_board_eq]
  by_cases known : dev.device = id
  · simp only [if_pos known]
    have accepted := SetUp.accepted takes ((accepts (board.decoded P cfg dev)).mpr known)
      (same_functions_enable_mmio cfg dev)
    rw [configures] at accepted
    exact accepted
  · simp only [if_neg known]
    have rejected := SetUp.rejected takes (mt (accepts (board.decoded P cfg dev)).mp known)
    rw [rejects] at rejected
    exact rejected

variable (P cfg dev board) in
theorem setup_spec (drv : PciComDrv) :
    SetUp P cfg dev board drv (drv.setup P dev cfg board) := by
  cases drv with
  | default =>
      exact setup_default_spec .default trivial (fun _ => Iff.rfl) (fun _ => rfl) fun _ => rfl
  | fallback =>
      change SetUp P cfg dev board .fallback (setupFallback P dev cfg board)
      rw [setupFallback]
      split_ifs with notClass notSubclass
      · exact .notTaken fun takes => notClass takes.1
      · exact .notTaken fun takes => notSubclass takes.2
      · exact setup_default_spec .fallback ⟨not_not.mp notClass, not_not.mp notSubclass⟩
          (fun _ => Iff.rfl) (fun _ => rfl) fun _ => rfl
  | oxsemi => exact setup_mmio_spec .oxsemi trivial (fun _ => Iff.rfl) (fun _ => rfl) fun _ => rfl
  | exar => exact setup_mmio_spec .exar trivial (fun _ => Iff.rfl) (fun _ => rfl) fun _ => rfl
  | moschip =>
      change SetUp P cfg dev board .moschip (setupMoschip P dev cfg board)
      rw [setupMoschip, read_board_eq]
      split_ifs with notSerial
      · exact .notTaken notSerial
      · exact .accepted (not_not.mp notSerial) trivial (same_functions_enable_io cfg dev)
  | agestar =>
      change SetUp P cfg dev board .agestar (setupAgestar P dev cfg board)
      rw [setupAgestar, read_board_eq]
      exact .accepted trivial trivial (same_functions_enable_io cfg dev)
  | wchChip =>
      change SetUp P cfg dev board .wchChip (setupWchChip P dev cfg board)
      rw [setupWchChip, read_board_eq]
      exact .accepted trivial trivial (same_functions_enable_io cfg dev)

/-! ## What the outcome depends on -/

variable (P dev board) in
theorem decoded_congr (same : SameFunctions cfg other) :
    board.decoded P cfg dev = board.decoded P other dev := by
  have sameBars : ∀ bar, barRegister cfg dev.slot bar = barRegister other dev.slot bar := by
    intro bar
    apply same
    rw [barOffset]
    omega
  simp only [SerialBoard.decoded, sameBars]

variable (dev) in
theorem takes_congr (same : SameFunctions cfg other) (drv : PciComDrv) :
    drv.Takes cfg dev ↔ drv.Takes other dev := by
  have sameClass : dev.classcode cfg = dev.classcode other := same.read (by decide)
  have sameSubclass : dev.subclass cfg = dev.subclass other := same.read (by decide)
  cases drv <;> simp only [PciComDrv.Takes, sameClass, sameSubclass]

theorem accepts_congr {first second : SerialBoard} (same : first.bars = second.bars)
    (drv : PciComDrv) : drv.Accepts dev first ↔ drv.Accepts dev second := by
  cases drv <;> simp only [PciComDrv.Accepts, SerialBoard.numIoBars, same]

theorem configure_bars (drv : PciComDrv) : (drv.configure P dev board).bars = board.bars := by
  cases drv <;> rfl

variable (P dev board) in
theorem configure_offset (drv : PciComDrv) :
    (drv.configure P dev board).baseOffset = drv.ownOffset.getD board.baseOffset := by
  cases drv <;> rfl

theorem configure_shift (noShift : board.regShift = 0) (drv : PciComDrv) :
    (drv.configure P dev board).regShift = 0 := by
  cases drv <;> first | exact noShift | rfl

theorem configure_congr {first second : SerialBoard} {drv : PciComDrv}
    (sameBars : first.bars = second.bars) (sameShift : first.regShift = second.regShift)
    (sameOffset : drv.ownOffset = none → first.baseOffset = second.baseOffset) :
    drv.configure P dev first = drv.configure P dev second := by
  obtain ⟨_, _, _, _, _, _, _, bars⟩ := first
  obtain ⟨_, _, _, _, _, _, _, _⟩ := second
  dsimp only at sameBars sameShift sameOffset
  subst sameBars sameShift
  cases drv <;> first | rfl | (have same := sameOffset rfl; subst same; rfl)

theorem decode_bar_idem (W : Wordsize) (r : Register) (before : Resource) :
    decodeBar W r (decodeBar W r before) = decodeBar W r before := by
  unfold decodeBar
  split_ifs <;> rfl

theorem decoded_bars_again {after : SerialBoard}
    (bars : after.bars = (board.decoded P cfg dev).bars) :
    (after.decoded P cfg dev).bars = (board.decoded P cfg dev).bars := by
  funext bar
  change decodeBar _ _ (after.bars bar) = _
  rw [bars]
  exact decode_bar_idem _ _ _

variable (P cfg dev board) in
theorem setup_same_functions (drv : PciComDrv) :
    SameFunctions (drv.setup P dev cfg board).2.1 cfg := by
  have outcome := setup_spec P cfg dev board drv
  generalize drv.setup P dev cfg board = result at outcome
  cases outcome with
  | notTaken => exact .refl cfg
  | rejected => exact .refl cfg
  | accepted _ _ same => exact same

variable (P dev board) in
theorem setup_congr (same : SameFunctions cfg other) (drv : PciComDrv) :
    (drv.setup P dev cfg board).1 = (drv.setup P dev other board).1 ∧
      (drv.setup P dev cfg board).2.2 = (drv.setup P dev other board).2.2 := by
  have first := setup_spec P cfg dev board drv
  have second := setup_spec P other dev board drv
  have sameDecoded := decoded_congr P dev board same
  have sameTakes := takes_congr dev same drv
  generalize drv.setup P dev cfg board = one at first
  generalize drv.setup P dev other board = two at second
  cases first with
  | notTaken no =>
      cases second with
      | notTaken => exact ⟨rfl, rfl⟩
      | rejected takes => exact absurd (sameTakes.mpr takes) no
      | accepted takes => exact absurd (sameTakes.mpr takes) no
  | rejected takes no =>
      cases second with
      | notTaken notTaken => exact absurd (sameTakes.mp takes) notTaken
      | rejected => exact ⟨rfl, congrArg drv.reject sameDecoded⟩
      | accepted _ accepts => exact absurd (sameDecoded ▸ accepts) no
  | accepted takes accepts =>
      cases second with
      | notTaken notTaken => exact absurd (sameTakes.mp takes) notTaken
      | rejected _ no => exact absurd (sameDecoded ▸ accepts) no
      | accepted =>
          exact ⟨rfl, congrArg (fun board => drv.configure P dev board) sameDecoded⟩

/-! ## The table -/

/-- Some driver gets as far as decoding the registers. -/
def Probed (cfg : ConfigSpace) (dev : PciIterator) (list : List PciComDev) : Prop :=
  ∃ d ∈ list, d.Matches dev ∧ d.driver.Takes cfg dev

/-- The driver of the entry accepts the device on a board with these bars. -/
def PciComDev.Serves (P : PcPlatform) (cfg : ConfigSpace) (dev : PciIterator) (board : SerialBoard)
    (d : PciComDev) : Prop :=
  d.Matches dev ∧ d.driver.Takes cfg dev ∧ d.driver.Accepts dev (board.decoded P cfg dev)

instance (d : PciComDev) : Decidable (d.Serves P cfg dev board) :=
  inferInstanceAs (Decidable (_ ∧ _))

def servedBy (P : PcPlatform) (cfg : ConfigSpace) (dev : PciIterator) (board : SerialBoard)
    (list : List PciComDev) : Option PciComDrv :=
  (list.find? fun d => d.Serves P cfg dev board).map (·.driver)

/-- The outcomes of the loop over the table. -/
inductive Tried (P : PcPlatform) (cfg : ConfigSpace) (dev : PciIterator) (board : SerialBoard)
    (list : List PciComDev) : Option PciComDrv × ConfigSpace × SerialBoard → Prop
  | served {drv : PciComDrv} {enabled : ConfigSpace}
      (driver : servedBy P cfg dev board list = some drv) (probed : Probed cfg dev list)
      (same : SameFunctions enabled cfg) :
      Tried P cfg dev board list
        (some drv, enabled, drv.configure P dev (board.decoded P cfg dev))
  | rejected {after : SerialBoard} (noDriver : servedBy P cfg dev board list = none)
      (probed : Probed cfg dev list) (bars : after.bars = (board.decoded P cfg dev).bars)
      (offset : after.baseOffset = board.baseOffset) (shift : after.regShift = board.regShift) :
      Tried P cfg dev board list (none, cfg, after)
  | untouched (noDriver : servedBy P cfg dev board list = none)
      (notProbed : ¬Probed cfg dev list) : Tried P cfg dev board list (none, cfg, board)

theorem probed_cons {d : PciComDev} {rest : List PciComDev} : Probed cfg dev (d :: rest) ↔
    (d.Matches dev ∧ d.driver.Takes cfg dev) ∨ Probed cfg dev rest := by
  simp only [Probed, List.mem_cons, exists_eq_or_imp]

theorem served_by_skip {d : PciComDev} {rest : List PciComDev}
    (no : ¬d.Serves P cfg dev board) :
    servedBy P cfg dev board (d :: rest) = servedBy P cfg dev board rest := by
  rw [servedBy, servedBy, List.find?_cons_of_neg (by simpa using no)]

theorem served_by_first {d : PciComDev} {rest : List PciComDev}
    (serves : d.Serves P cfg dev board) :
    servedBy P cfg dev board (d :: rest) = some d.driver := by
  rw [servedBy, List.find?_cons_of_pos (by simpa using serves)]
  rfl

/-- Which driver accepts the device depends on the decoded bars only. -/
theorem served_by_congr {first second : SerialBoard} (list : List PciComDev)
    (same : (first.decoded P cfg dev).bars = (second.decoded P cfg dev).bars) :
    servedBy P cfg dev first list = servedBy P cfg dev second list := by
  have sameServes : ∀ d : PciComDev, d.Serves P cfg dev first ↔ d.Serves P cfg dev second := by
    intro d
    rw [PciComDev.Serves, PciComDev.Serves, accepts_congr same]
  simp only [servedBy, sameServes]

theorem Tried.skip {d : PciComDev} {rest : List PciComDev}
    {result : Option PciComDrv × ConfigSpace × SerialBoard} (no : ¬d.Serves P cfg dev board)
    (notProbed : ¬(d.Matches dev ∧ d.driver.Takes cfg dev))
    (tried : Tried P cfg dev board rest result) : Tried P cfg dev board (d :: rest) result := by
  cases tried with
  | served driver probed same =>
      exact .served ((served_by_skip no).trans driver) (probed_cons.mpr (.inr probed)) same
  | rejected noDriver probed bars offset shift =>
      exact .rejected ((served_by_skip no).trans noDriver) (probed_cons.mpr (.inr probed)) bars
        offset shift
  | untouched noDriver restNot =>
      exact .untouched ((served_by_skip no).trans noDriver)
        fun probed => (probed_cons.mp probed).elim notProbed restNot

/-- Behind a driver that has decoded the registers but not accepted the device. -/
theorem Tried.behind {d : PciComDev} {rest : List PciComDev} {after : SerialBoard}
    {result : Option PciComDrv × ConfigSpace × SerialBoard} (no : ¬d.Serves P cfg dev board)
    (probed : d.Matches dev ∧ d.driver.Takes cfg dev)
    (bars : after.bars = (board.decoded P cfg dev).bars)
    (offset : after.baseOffset = board.baseOffset) (shift : after.regShift = board.regShift)
    (tried : Tried P cfg dev after rest result) : Tried P cfg dev board (d :: rest) result := by
  have sameBars := decoded_bars_again bars
  have sameDriver := (served_by_skip no).trans (served_by_congr rest sameBars).symm
  have isProbed : Probed cfg dev (d :: rest) := probed_cons.mpr (.inl probed)
  cases tried with
  | @served drv _ driver _ same =>
      have configured : drv.configure P dev (after.decoded P cfg dev) =
          drv.configure P dev (board.decoded P cfg dev) :=
        configure_congr sameBars shift fun _ => offset
      rw [configured]
      exact .served (sameDriver.trans driver) isProbed same
  | rejected noDriver _ laterBars laterOffset laterShift =>
      exact .rejected (sameDriver.trans noDriver) isProbed (laterBars.trans sameBars)
        (laterOffset.trans offset) (laterShift.trans shift)
  | untouched noDriver _ =>
      exact .rejected (sameDriver.trans noDriver) isProbed bars offset shift

theorem reject_rest (board : SerialBoard) (drv : PciComDrv) : (drv.reject board).bars = board.bars ∧
    (drv.reject board).baseOffset = board.baseOffset ∧
    (drv.reject board).regShift = board.regShift := by
  cases drv <;> exact ⟨rfl, rfl, rfl⟩

variable (P cfg dev board) in
theorem try_devs_spec (list : List PciComDev) :
    Tried P cfg dev board list (tryDevs P dev list cfg board) := by
  induction list generalizing board with
  | nil =>
      refine .untouched rfl ?_
      rintro ⟨d, member, _⟩
      cases member
  | cons d rest ih =>
      rw [tryDevs]
      by_cases isMatch : d.Matches dev
      · rw [if_pos isMatch]
        have outcome := setup_spec P cfg dev board d.driver
        generalize d.driver.setup P dev cfg board = result at outcome
        cases outcome with
        | notTaken no =>
            exact (ih _).skip (fun serves => no serves.2.1) fun probed => no probed.2
        | rejected takes no =>
            obtain ⟨bars, offset, shift⟩ := reject_rest (board.decoded P cfg dev) d.driver
            exact (ih _).behind (fun serves => no serves.2.2) ⟨isMatch, takes⟩ bars offset shift
        | accepted takes accepts same =>
            exact .served (served_by_first ⟨isMatch, takes, accepts⟩)
              (probed_cons.mpr (.inl ⟨isMatch, takes⟩)) same
      · rw [if_neg isMatch]
        exact (ih _).skip (fun serves => isMatch serves.1) fun probed => isMatch probed.1

variable (P cfg dev board) in
theorem try_devs_same_functions (list : List PciComDev) :
    SameFunctions (tryDevs P dev list cfg board).2.1 cfg := by
  have outcome := try_devs_spec P cfg dev board list
  generalize tryDevs P dev list cfg board = result at outcome
  cases outcome with
  | served _ _ same => exact same
  | rejected => exact .refl cfg
  | untouched => exact .refl cfg

variable (P dev board) in
theorem try_devs_congr (same : SameFunctions cfg other) (list : List PciComDev) :
    (tryDevs P dev list cfg board).1 = (tryDevs P dev list other board).1 ∧
      (tryDevs P dev list cfg board).2.2 = (tryDevs P dev list other board).2.2 := by
  induction list generalizing board cfg other with
  | nil => exact ⟨rfl, rfl⟩
  | cons d rest ih =>
      rw [tryDevs, tryDevs]
      by_cases isMatch : d.Matches dev
      · rw [if_pos isMatch, if_pos isMatch]
        obtain ⟨sameOk, sameBoard⟩ := setup_congr P dev board same d.driver
        have kept := setup_same_functions P cfg dev board d.driver
        have otherKept := setup_same_functions P other dev board d.driver
        generalize d.driver.setup P dev cfg board = one at *
        generalize d.driver.setup P dev other board = two at *
        obtain ⟨ok, cfgOne, boardOne⟩ := one
        obtain ⟨_, cfgTwo, _⟩ := two
        dsimp only at sameOk sameBoard kept otherKept
        subst sameOk sameBoard
        cases ok with
        | true => exact ⟨rfl, rfl⟩
        | false => exact ih _ (kept.trans (same.trans otherKept.symm))
      · rw [if_neg isMatch, if_neg isMatch]
        exact ih _ same

/-! ## Bars that are not set -/

/-- Equal but for base and length of bars that are not there. -/
structure SameBoard (first second : SerialBoard) : Prop where
  flags : first.flags = second.flags
  baseBar : first.baseBar = second.baseBar
  numPorts : first.numPorts = second.numPorts
  baseBaud : first.baseBaud = second.baseBaud
  portOffset : first.portOffset = second.portOffset
  baseOffset : first.baseOffset = second.baseOffset
  regShift : first.regShift = second.regShift
  bars : ∀ bar, first.bars bar = second.bars bar ∨
    ((first.bars bar).type = .noBar ∧ (second.bars bar).type = .noBar)

theorem same_board_fresh (left other : Fin numBars → Nat × Nat) :
    SameBoard (.fresh left) (.fresh other) :=
  ⟨rfl, rfl, rfl, rfl, rfl, rfl, rfl, fun _ => .inr ⟨rfl, rfl⟩⟩

namespace SameBoard

variable {first second : SerialBoard}

theorem type (same : SameBoard first second) (bar : Fin numBars) :
    (first.bars bar).type = (second.bars bar).type := by
  rcases same.bars bar with equal | ⟨firstNone, secondNone⟩
  · rw [equal]
  · rw [firstNone, secondNone]

theorem num_io_bars (same : SameBoard first second) : first.numIoBars = second.numIoBars := by
  simp only [SerialBoard.numIoBars, same.type]

theorem first_io_bar (same : SameBoard first second) : first.firstIoBar = second.firstIoBar := by
  simp only [SerialBoard.firstIoBar, same.type]

theorem first_len (same : SameBoard first second) (W : Wordsize) :
    first.firstLen W = second.firstLen W := by
  unfold SerialBoard.firstLen
  rw [← same.first_io_bar, same.baseOffset, same.regShift]
  cases isFirst : first.firstIoBar with
  | none => cases W <;> rfl
  | some bar =>
      have found := isFirst
      rw [SerialBoard.firstIoBar, List.find?_eq_some_iff_append] at found
      have isIo : (first.bars bar).type = .ioBar := of_decide_eq_true found.1
      rcases same.bars bar with equal | ⟨firstNone, _⟩
      · dsimp only
        rw [equal]
      · rw [firstNone] at isIo
        cases isIo

variable (P cfg dev) in
theorem decoded (same : SameBoard first second) :
    SameBoard (first.decoded P cfg dev) (second.decoded P cfg dev) := by
  refine { same with bars := fun bar => ?_ }
  change decodeBar _ _ _ = decodeBar _ _ _ ∨ (decodeBar _ _ _).type = _ ∧ (decodeBar _ _ _).type = _
  by_cases zero : (barRegister cfg dev.slot bar).value = 0
  · simp only [decodeBar, if_pos zero]
    exact same.bars bar
  · simp only [decodeBar, if_neg zero]
    exact .inl trivial

variable (dev) in
theorem accepts (same : SameBoard first second) (drv : PciComDrv) :
    drv.Accepts dev first ↔ drv.Accepts dev second := by
  cases drv <;> simp only [PciComDrv.Accepts, same.num_io_bars]

theorem reject (same : SameBoard first second) (drv : PciComDrv) :
    SameBoard (drv.reject first) (drv.reject second) := by
  cases drv <;> first | exact same | exact { same with flags := rfl, numPorts := rfl }

theorem io_ports (same : SameBoard first second) {n m : Nat} (ports : n = m) :
    SameBoard (first.ioPorts P n) (second.ioPorts P m) := by
  have firstBar : first.firstBar = second.firstBar := by
    rw [SerialBoard.firstBar, SerialBoard.firstBar, same.first_io_bar]
  exact { same with
    flags := rfl, baseBar := firstBar, numPorts := ports, baseBaud := rfl, portOffset := rfl }

theorem configure (same : SameBoard first second) (drv : PciComDrv) :
    SameBoard (drv.configure P dev first) (drv.configure P dev second) := by
  have ports : first.portsOfFirst P = second.portsOfFirst P := by
    rw [SerialBoard.portsOfFirst, SerialBoard.portsOfFirst, same.first_len]
  cases drv with
  | default => exact same.io_ports ports
  | fallback => exact same.io_ports ports
  | moschip => exact same.io_ports ports
  | agestar => exact same.io_ports rfl
  | wchChip => exact { same.io_ports (P := P) rfl with baseOffset := rfl }
  | oxsemi => exact ⟨rfl, rfl, rfl, rfl, rfl, rfl, rfl, same.bars⟩
  | exar => exact ⟨rfl, rfl, rfl, rfl, rfl, rfl, rfl, same.bars⟩

end SameBoard

variable (P cfg dev) in
/-- Neither the driver nor the board depends on bars that are not there. -/
theorem setup_same_board {first second : SerialBoard} (same : SameBoard first second)
    (drv : PciComDrv) :
    (drv.setup P dev cfg first).1 = (drv.setup P dev cfg second).1 ∧
      SameBoard (drv.setup P dev cfg first).2.2 (drv.setup P dev cfg second).2.2 := by
  have one := setup_spec P cfg dev first drv
  have two := setup_spec P cfg dev second drv
  have decoded := same.decoded P cfg dev
  have accepts := decoded.accepts dev drv
  generalize drv.setup P dev cfg first = resultOne at one
  generalize drv.setup P dev cfg second = resultTwo at two
  cases one with
  | notTaken no =>
      cases two with
      | notTaken => exact ⟨rfl, same⟩
      | rejected takes => exact absurd takes no
      | accepted takes => exact absurd takes no
  | rejected takes no =>
      cases two with
      | notTaken notTaken => exact absurd takes notTaken
      | rejected => exact ⟨rfl, decoded.reject drv⟩
      | accepted _ isAccepted => exact absurd (accepts.mpr isAccepted) no
  | accepted takes isAccepted =>
      cases two with
      | notTaken notTaken => exact absurd takes notTaken
      | rejected _ no => exact absurd (accepts.mp isAccepted) no
      | accepted => exact ⟨rfl, decoded.configure drv⟩

variable (P cfg dev) in
theorem try_devs_same_board {first second : SerialBoard} (same : SameBoard first second)
    (list : List PciComDev) :
    (tryDevs P dev list cfg first).1 = (tryDevs P dev list cfg second).1 ∧
      SameBoard (tryDevs P dev list cfg first).2.2 (tryDevs P dev list cfg second).2.2 := by
  induction list generalizing first second with
  | nil => exact ⟨rfl, same⟩
  | cons d rest ih =>
      rw [tryDevs, tryDevs]
      by_cases isMatch : d.Matches dev
      · rw [if_pos isMatch, if_pos isMatch]
        obtain ⟨sameOk, sameBoard⟩ := setup_same_board P cfg dev same d.driver
        have one := setup_spec P cfg dev first d.driver
        have two := setup_spec P cfg dev second d.driver
        generalize d.driver.setup P dev cfg first = resultOne at *
        generalize d.driver.setup P dev cfg second = resultTwo at *
        cases one with
        | accepted =>
            cases two with
            | accepted => exact ⟨rfl, sameBoard⟩
            | rejected => cases sameOk
            | notTaken => cases sameOk
        | rejected =>
            cases two with
            | accepted => cases sameOk
            | rejected => exact ih sameBoard
            | notTaken => exact ih sameBoard
        | notTaken =>
            cases two with
            | accepted => cases sameOk
            | rejected => exact ih sameBoard
            | notTaken => exact ih sameBoard
      · rw [if_neg isMatch, if_neg isMatch]
        exact ih same

end

end L4Bootstrap.X86
