import L4Bootstrap.ElfPlacement
import L4Bootstrap.ImageMbi
import L4Bootstrap.SearchKip
import L4Bootstrap.Startup.KmemOptions

/-!
# Loading the kernel and its first tasks

`startup` of `startup.cc` from the first `add_elf_regions` to the end of its second part:
the segments of kernel, sigma0 and roottask are reserved, `construct_mbi` moves the modules
out of their way, and the segments are loaded one image after the other. In between the
KIPs and the kernel options in the loaded kernel are set up.
-/

namespace L4Bootstrap

open MachineWord CheckedLoop CheckedState ByteMemory

set_option autoImplicit false

variable {W : Wordsize}

/-- `boot_info_t` -/
structure BootStarts where
  kernelStart : Nat
  sigma0Start : Nat
  roottaskStart : Nat
  deriving DecidableEq, Repr

/-- What `startup` takes from elsewhere: the headers of `l4/util/elf.h`, the kernel
interface, the module header and the platform. -/
structure Surroundings (W : Wordsize) where
  /-- The ELF file at an address, and its `e_entry`. -/
  elf : Bytes → Nat → ElfFile
  entry : Bytes → Nat → Nat
  kip : KipLayout
  /-- `L4_SUPERPAGESIZE` -/
  superPage : Nat
  /-- Command line and attributes of a module. -/
  cmdline : Nat → Nat
  reloc : Nat → Bool
  forNode : Nat → Nat → Bool
  /-- `__builtin_return_address (0)` in `add_elf_regions` -/
  returnAddress : Nat
  firstNode : Nat
  firstNodeWord : firstNode < 2 ^ 32
  numNodes : Nat
  announce : Region W → Checked Unit
  kernelCmdline : Option (List UInt8)
  /-- `copy_kip_feature_string` and `setup_kernel_config`, from the offset of the kernel,
  its first KIP and that of the node. -/
  configure : Nat → Nat → Nat → Run W Unit
  /-- From `late_setup` to `setup_kernel_options`, from the offset of the kernel, the KIP,
  the node, and what goes into the KIP and the options. -/
  complete : Nat → Nat → Nat → Bool → BootStarts → Nat → Run W Unit
  fuel : Nat

/-- `Max_num_nodes` -/
def maxNumNodes : Nat := 6

/-- `Boot_modules_image_mode::module` for a module that is not compressed. -/
def Machine.elfModule (s : Machine W) (around : Surroundings W) (index : Nat) : ElfModule where
  elf := around.elf s.bytes (s.module index).start
  start := (s.module index).start
  cmdline := around.cmdline index
  reloc := around.reloc index

/-- `base_mod_idx` -/
def Machine.baseModIdx (s : Machine W) (around : Surroundings W) (flag : ModuleFlag) (node : Nat) :
    Option Nat :=
  (List.range s.mods.length).find? fun i =>
    (s.module i).flag = flag && around.forNode i node

/-- `exec_load_elf` with `l4_exec_find_hdr`: the first header of the type. -/
def ElfFile.findHdr (elf : ElfFile) (type : SegmentType) : Option HdrInfo :=
  if !elf.magic || !elf.arch then none
  else
    ((elf.phdrs.filter fun ph => ph.type ≠ .null).find? fun ph => ph.type = type).map fun ph =>
      ⟨ph.paddr, ph.memsz, ph.offset⟩

def ptCustomL4Kip : SegmentType := .other 0x10

def Machine.kipHdr (s : Machine W) (around : Surroundings W) (kernel : Nat) : Option HdrInfo :=
  (s.elfModule around kernel).elf.findHdr ptCustomL4Kip

/-! ## Reserving -/

/-- `add_elf_regions` on the state. -/
def reserveImage (around : Surroundings W) (index : Nat) (type : RegionType) (node minAlign : Nat) :
    Run W Nat := do
  let s ← get
  let (offset, regions) ← lift (addElfRegions s.memory around.announce (s.elfModule around index)
    type around.returnAddress node minAlign)
  modify fun s => s.withRegions regions
  pure offset

/-- A base module of a node; `offset` is what the array holds. -/
def reserveModule (around : Surroundings W) (flag : ModuleFlag) (type : RegionType)
    (node offset : Nat) : Run W Nat := do
  let s ← get
  match s.baseModIdx around flag node with
  | none => pure offset
  | some index => reserveImage around index type node 0

/-- Elements of `sigma0_offset` and `roottask_offset`. -/
structure NodeOffsets where
  sigma0 : Nat
  roottask : Nat
  deriving DecidableEq, Repr

/-- The body of the first loop over the nodes. -/
def reserveNode (around : Surroundings W) (kernel node : Nat) (offsets : NodeOffsets) :
    Run W NodeOffsets := do
  let s ← get
  let present ← lift (kipExistsForNode W around.kip s.bytes around.fuel (s.kipHdr around kernel)
    (s.module kernel).start node).result
  if !present then pure offsets
  else do
    let sigma0 ← reserveModule around .sigma0 .sigma0 node offsets.sigma0
    let roottask ← reserveModule around .roottask .root node offsets.roottask
    pure ⟨sigma0, roottask⟩

/-! ## Loading -/

/-- The end of `load_elf_module`: the region of the file goes, up to a page boundary or
as it is. -/
def freeFile (W : Wordsize) (mod : ModInfo) (regions : RegionList W) : Checked (RegionList W) := do
  let last := W.add mod.start mod.size
  let pages ← Region.startSize mod.start (W.sub (roundPage W last) mod.start) {}
  let (found, regions) ← regions.sub pages
  if found then .ok regions
  else do
    let exact ← Region.startSize mod.start (W.sub last mod.start) {}
    let (_, regions) ← regions.sub exact
    .ok regions

/-- `e_phnum` has 16 bits. -/
def maxHeaders : Nat := 2 ^ 16

/-- The loop of `exec_load_elf`, which reads a header when its turn comes. -/
def forEachHeader {σ : Type} (headers : σ → List ProgramHeader)
    (handler : σ → ProgramHeader → Checked σ) : Nat → Nat → σ → Checked σ
  | 0, _, state => .ok state
  | count + 1, i, state =>
      match (headers state)[i]? with
      | none => .ok state
      | some ph => do
          let state ← if ph.type = .null then .ok state else handler state ph
          forEachHeader headers handler count (i + 1) state

/-- An image that was loaded, with the arguments and the answer of `load_elf_module`. -/
structure LoadedImage where
  index : Nat
  offset : Nat
  start : Nat
  deriving DecidableEq, Repr

/-- `load_elf_module` -/
def loadElfModule (around : Surroundings W) (index offset : Nat) : Run W LoadedImage := do
  let s ← get
  let mod := s.elfModule around index
  if !mod.elf.magic then stop "Can't load module (no ELF executable)"
  else if !mod.elf.arch then stop "Can't load module (wrong ELF architecture)"
  else do
    let (bytes, regions) ← lift (forEachHeader (fun state => (around.elf state.1 mod.start).phdrs)
      (l4ExecReadExec s.memory.ram s.memory.sysalloc mod offset) maxHeaders 0
      (s.bytes, s.memory.regions))
    let regions ← lift (freeFile W (s.module index) regions)
    modify fun s => { s.withRegions regions with bytes := bytes }
    pure ⟨index, offset, W.add (around.entry bytes mod.start) offset⟩

/-- A base module of a node, or the warning that there is none. -/
def loadModule (around : Surroundings W) (flag : ModuleFlag) (node offset : Nat) :
    Run W (Option LoadedImage) := do
  let s ← get
  match s.baseModIdx around flag node with
  | none => pure none
  | some index => some <$> loadElfModule around index offset

def findNodeKip (around : Surroundings W) (kernel kernelOffset node : Nat) :
    Run W (Option Nat) := do
  let s ← get
  lift (findKip W around.kip s.bytes around.fuel (s.kipHdr around kernel) kernelOffset node).result

/-- What was loaded for a node. -/
structure BootNode where
  node : Nat
  sigma0 : Option LoadedImage
  roottask : Option LoadedImage
  deriving DecidableEq, Repr

/-- `boot_info` of a node; an image that is missing has the start 0. -/
def BootNode.starts (boot : BootNode) (kernelStart : Nat) : BootStarts where
  kernelStart := kernelStart
  sigma0Start := boot.sigma0.elim 0 LoadedImage.start
  roottaskStart := boot.roottask.elim 0 LoadedImage.start

/-- What is set up before the loop over the nodes. -/
structure KernelSetup where
  kernel : LoadedImage
  kip : Nat
  haveKmemAreas : Bool
  mbi : Nat
  deriving DecidableEq, Repr

/-- `l4i`; `first` says that `i` is 0. -/
def nodeKip (around : Surroundings W) (setup : KernelSetup) (first : Bool) (node : Nat) :
    Run W (Option Nat) :=
  if first then pure (some setup.kip)
  else findNodeKip around setup.kernel.index setup.kernel.offset node

/-- The body of the second loop over the nodes. -/
def loadNode (around : Surroundings W) (setup : KernelSetup) (first : Bool) (node : Nat)
    (offsets : NodeOffsets) : Run W (Option BootNode) := do
  match ← nodeKip around setup first node with
  | none => pure none
  | some l4i => do
      around.configure setup.kernel.offset setup.kip l4i
      let sigma0 ← loadModule around .sigma0 node offsets.sigma0
      let roottask ← loadModule around .roottask node offsets.roottask
      let boot : BootNode := ⟨node, sigma0, roottask⟩
      around.complete setup.kernel.offset l4i node setup.haveKmemAreas
        (boot.starts setup.kernel.start) setup.mbi
      pure (some boot)

/-- What is in memory when the kernel is started. -/
structure Booting where
  setup : KernelSetup
  mbi : BootInfo
  nodes : List BootNode
  deriving DecidableEq, Repr

/-- The number of the `i`-th node. -/
def Surroundings.node (around : Surroundings W) (i : Nat) : Nat := (around.firstNode + i) % 2 ^ 32

/-- The nodes with their elements of the two arrays. -/
def Surroundings.nodes (around : Surroundings W) (stack : Nat → NodeOffsets) :
    List (Nat × NodeOffsets) :=
  (List.range around.numNodes).map fun i => (around.node i, stack i)

/-- Both loops over the nodes. -/
def reserveNodes (around : Surroundings W) (kernel : Nat) :
    List (Nat × NodeOffsets) → Run W (List (Nat × NodeOffsets))
  | [] => pure []
  | (node, offsets) :: rest => do
      let reserved ← reserveNode around kernel node offsets
      let later ← reserveNodes around kernel rest
      pure ((node, reserved) :: later)

def loadNodes (around : Surroundings W) (setup : KernelSetup) (first : Bool) :
    List (Nat × NodeOffsets) → Run W (List BootNode)
  | [] => pure []
  | (node, offsets) :: rest => do
      let boot ← loadNode around setup first node offsets
      let later ← loadNodes around setup false rest
      pure (boot.toList ++ later)

/-- The part behind `construct_mbi`. -/
def loadImages (around : Surroundings W) (kernel kernelOffset : Nat) (mbi : BootInfo)
    (nodes : List (Nat × NodeOffsets)) : Run W Booting := do
  updateRegions RegionList.optimize
  let loaded ← loadElfModule around kernel kernelOffset
  match ← findNodeKip around kernel kernelOffset around.firstNode with
  | none => stop "No KIP found!"
  | some kip => do
      let s ← get
      let (haveKmemAreas, regions) ←
        lift (setupKmemAreas W around.fuel around.kernelCmdline s.memory.ram s.memory.regions)
      modify fun s => s.withRegions regions
      let setup : KernelSetup := ⟨loaded, kip, haveKmemAreas, mbi.addr⟩
      let booted ← loadNodes around setup true nodes
      pure ⟨setup, mbi, booted⟩

/-- `stack` is what the two arrays hold before they are filled. -/
def startupImages (around : Surroundings W) (abi : L4modAbi W) (build : Build)
    (descriptors : Descriptors W) (lost : Run W BootInfo) (internals : InternalModuleList W)
    (stack : Nat → NodeOffsets) (modAddr : Nat) : Run W Booting := do
  let s ← get
  if maxNumNodes < around.numNodes then stop "Adapt Max_num_nodes"
  else match s.baseModIdx around .kernel 0 with
  | none => stop "No kernel module available"
  | some kernel => do
      let kernelOffset ← reserveImage around kernel .kernel around.firstNode around.superPage
      let nodes ← reserveNodes around kernel (around.nodes stack)
      let mbi ← constructMbi abi build descriptors lost internals modAddr
      loadImages around kernel kernelOffset mbi nodes

end L4Bootstrap
