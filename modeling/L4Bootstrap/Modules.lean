import L4Bootstrap.FreeSearch
import L4Bootstrap.Lib.ByteMemory

/-!
# Boot modules

The module table, the byte memory and the memory manager as one machine state,
and the functions of `boot_modules.cc` that move modules. Bytes are addressed by
physical addresses. The table is kept beside the byte memory: its descriptors
lie in the reserved region `.modinfo`, or in the MBI, which no module is ever
moved to.
-/

namespace L4Bootstrap

open MachineWord CheckedState ByteMemory

set_option autoImplicit false

/-- `l4util_l4mod_mod_info_flag` under `L4util_l4mod_mod_flag_mask`. -/
inductive ModuleFlag
  | unspec
  | kernel
  | sigma0
  | roottask
  | cpuFw
  deriving DecidableEq, Repr, Inhabited

/-- The fields of `Mod_info` that move: a module is stored compressed if its two
sizes differ. -/
structure ModInfo where
  start : Nat
  size : Nat
  sizeUncompressed : Nat
  flag : ModuleFlag := .unspec
  deriving DecidableEq, Repr, Inhabited

namespace ModInfo

def compressed (mod : ModInfo) : Bool := mod.size ≠ mod.sizeUncompressed

def isBaseModule (mod : ModInfo) : Bool :=
  match mod.flag with
  | .kernel | .sigma0 | .roottask => true
  | .unspec | .cpuFw => false

/-- `Mod_info::region`. The index becomes the subtype, cut to eight bits. -/
def region {W : Wordsize} (mod : ModInfo) (index : Nat) (round : Bool := false)
    (type : RegionType := .boot) : Checked (Region W) :=
  Region.startSize mod.start (if round then roundPage W mod.size else mod.size)
    { name := .modReg, type := type, subType := UInt8.ofNat index }

end ModInfo

structure Machine (W : Wordsize) where
  bytes : Bytes
  memory : Memory W
  mods : List ModInfo
  /-- The used part of `mod_sorter`. -/
  sorter : List Nat

abbrev Run (W : Wordsize) := EStateM Stop (Machine W)

variable {W : Wordsize}

def Machine.module (s : Machine W) (index : Nat) : ModInfo := s.mods.getD index default

def Machine.withRegions (s : Machine W) (regions : RegionList W) : Machine W :=
  { s with memory := { s.memory with regions := regions } }

def stop {α : Type} (message : String) : Run W α := lift (panic message)

def updateRegions (f : RegionList W → Checked (RegionList W)) : Run W Unit := do
  let s ← get
  let regions ← lift (f s.memory.regions)
  modify fun s => s.withRegions regions

def updateBytes (f : Bytes → Bytes) : Run W Unit := modify fun s => { s with bytes := f s.bytes }

def updateModule (index : Nat) (f : ModInfo → ModInfo) : Run W Unit :=
  modify fun s => { s with mods := s.mods.set index (f (s.module index)) }

def addRegion (start size : Nat) (attr : Attr) : Run W Unit := do
  let region ← lift (Region.startSize start size attr)
  updateRegions fun regions => regions.add region

/-- `mem_manager->find_free_ram` with its defaults for the last arguments. -/
def findFreeRam (size minAddr : Nat) : Run W Nat := do
  let s ← get
  lift (s.memory.findFreeRam size minAddr W.maxWord pageShift Memory.anyNode)

/-- The bytes written by `_move_module`: the module, and zeros up to the end of
its last page. -/
def moveBytes (W : Wordsize) (dest src size : Nat) (bytes : Bytes) : Bytes :=
  let x := W.add dest size
  memset x 0 (W.sub (roundPage W x) x) (memmove dest src size bytes)

/-- `Boot_modules::_move_module`. Both checks of the destination look at its
first byte only. -/
def moveModuleTo (dest src size : Nat) (attr : Attr) : Run W Unit := do
  if src = dest then addRegion dest size attr
  else do
    let s ← get
    if (s.memory.ram.containing (Region.ofAddress dest)).isNone then
      stop "Would move module outside of RAM"
    else if (s.memory.regions.find (Region.ofAddress dest)).isSome then
      stop "Cannot move module"
    else do
      updateBytes (moveBytes W dest src size)
      addRegion dest size attr

/-- The two classes that implement `Boot_modules`. The kernel interface defines
the value of `Region::Arch_cpu_fw`. -/
inductive BootMode
  | image
  | multiboot (archCpuFw : Subtype)
  deriving DecidableEq, Repr

def movedAttr : BootMode → ModuleFlag → Attr
  | .multiboot archCpuFw, .cpuFw =>
      { name := .literal ".cpu_firmware", type := .arch, subType := archCpuFw }
  | _, _ => { name := .modReg, type := .root, subType := noSubtype }

/-- The assertions of the multiboot class behind the move. -/
def checkDestination (dest size : Nat) : BootMode → Run W Unit
  | .image => pure ()
  | .multiboot _ => do
      lift (require (dest < 0xfffffff0))
      lift (require (dest < W.sub 0xfffffff0 size))

def moveModule (mode : BootMode) (index dest : Nat) : Run W Unit := do
  let s ← get
  let mod := s.module index
  moveModuleTo dest mod.start mod.size (movedAttr mode mod.flag)
  checkDestination dest mod.size mode
  updateModule index fun mod => { mod with start := dest }

/-! ## The module sorter -/

/-- `sizeof (mod_sorter) / sizeof (mod_sorter[0])`. -/
def maxMods : Nat := 256

/-- The loop of `mod_insert_sorted`: in front of the first entry that `v` is less
than. -/
def insertSorted (less : Nat → Nat → Bool) (v : Nat) : List Nat → List Nat
  | [] => [v]
  | i :: rest => if less v i then v :: i :: rest else i :: insertSorted less v rest

/-- `mod_insert_sorted` with `Mbi_mod_cmp`. -/
def modInsertSorted (v : Nat) : Run W Unit := do
  let s ← get
  if maxMods ≤ s.sorter.length then stop "Too many modules for module sorter"
  else
    let less := fun l r => decide ((s.module l).start < (s.module r).start)
    modify fun s => { s with sorter := insertSorted less v s.sorter }

def sortModules : List Nat → Run W Unit
  | [] => pure ()
  | i :: rest => do
      modInsertSorted i
      sortModules rest

/-! ## Moving all modules -/

/-- `calc_modules_size` over all modules. -/
def calcModulesSize (W : Wordsize) (p2align : Nat) (mods : List ModInfo) : Nat :=
  mods.foldl (fun s mod => W.add s (W.roundSize p2align mod.size)) 0

/-- The loop that finds `end_fwd`: the modules that move forwards, the others,
and the target address of the first of the others. -/
def splitForward (s : Machine W) : Nat → List Nat → List Nat × List Nat × Nat
  | cursor, [] => ([], [], cursor)
  | cursor, i :: rest =>
      if cursor < (s.module i).start then ([], i :: rest, cursor)
      else
        let (forward, backward, cursor) :=
          splitForward s (W.add cursor (roundPage W (s.module i).size)) rest
        (i :: forward, backward, cursor)

/-- The loop over the forward group; the list is the group from its last module
to its first. -/
def moveForward (mode : BootMode) : Nat → List Nat → Run W Unit
  | _, [] => pure ()
  | endFwdAddr, i :: rest => do
      let s ← get
      let endFwdAddr := W.sub endFwdAddr (roundPage W (s.module i).size)
      moveModule mode i endFwdAddr
      moveForward mode endFwdAddr rest

def moveBackward (mode : BootMode) : Nat → List Nat → Run W Unit
  | _, [] => pure ()
  | cursor, i :: rest => do
      let s ← get
      let size := (s.module i).size
      moveModule mode i cursor
      moveBackward mode (W.add cursor (roundPage W size)) rest

/-- The last part of `move_modules`, behind the sorting of `count` modules. -/
def moveSorted (mode : BootMode) (target count : Nat) : Run W Unit := do
  let s ← get
  let split := splitForward s target (s.sorter.take count)
  moveForward mode split.2.2 split.1.reverse
  moveBackward mode split.2.2 split.2.1

/-- The condition of `remove_if` at the start of `move_modules`. -/
def isModuleRegion (r : Region W) : Bool := r.attr.name = .modReg

def moveModules (mode : BootMode) (modaddr : Nat) : Run W Unit := do
  updateRegions fun regions => .ok (regions.removeIf isModuleRegion)
  let s ← get
  let count := s.mods.length
  let target ← findFreeRam (calcModulesSize W pageShift s.mods) modaddr
  if target = 0 then stop "Could not find free RAM region for modules!"
  else do
    sortModules (List.range count)
    moveSorted mode target count

end L4Bootstrap
