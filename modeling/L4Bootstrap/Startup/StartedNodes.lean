import L4Bootstrap.Startup.LoadedImages

/-!
# The nodes that are started

The loop over the nodes loads what was reserved for them: a node is skipped in the second
loop exactly if it was skipped in the first one, so that no element of the two arrays is used
before it is set. Setting up the kernel in between only touches the kernel.
-/

namespace L4Bootstrap

open MachineWord CheckedState ByteMemory

set_option autoImplicit false

variable {W : Wordsize}

/-! ## Setting up the kernel -/

/-- The code leaves the modules alone and writes to no other bytes. -/
def Patches (patched : Nat → Prop) (run : Run W Unit) : Prop :=
  ∀ v w, run v = .ok () w → w.mods = v.mods ∧ ∀ a, ¬ patched a → w.bytes a = v.bytes a

/-- The KIPs and the kernel options, which are what is set up, lie in segments of the kernel. -/
structure SetsUpKernel (around : Surroundings W) (s : Machine W) (kernel : Nat)
    (patched : Nat → Nat → Prop) : Prop where
  configure : ∀ offset kip l4i, Patches (patched offset) (around.configure offset kip l4i)
  complete : ∀ offset l4i node areas starts mbi,
    Patches (patched offset) (around.complete offset l4i node areas starts mbi)
  inside : ∀ offset a, patched offset a →
    ∃ area ∈ s.imageAreas around (kernel, offset), area.Has a

/-- The answer of `load_elf_module` for a file as it is at first. -/
def Machine.loadedImage (s : Machine W) (around : Surroundings W) (offset index : Nat) :
    LoadedImage where
  index := index
  offset := offset
  start := W.add (around.entry s.bytes (s.module index).start) offset

def LoadedImage.image (loaded : LoadedImage) : Nat × Nat := (loaded.index, loaded.offset)

def BootNode.images (boot : BootNode) : List LoadedImage :=
  boot.sigma0.toList ++ boot.roottask.toList

/-- What is to be loaded for a node with these offsets. -/
def Machine.bootNode (s : Machine W) (around : Surroundings W) (node : Nat) (offsets : NodeOffsets) :
    BootNode where
  node := node
  sigma0 := (s.baseModIdx around .sigma0 node).map (s.loadedImage around offsets.sigma0)
  roottask := (s.baseModIdx around .roottask node).map (s.loadedImage around offsets.roottask)

/-- Whether the file of the kernel has a KIP for the node. -/
def Machine.kipPresent (s : Machine W) (around : Surroundings W) (kernel node : Nat) : Bool :=
  match (kipExistsForNode W around.kip s.bytes around.fuel (s.kipHdr around kernel)
    (s.module kernel).start node).result with
  | .ok present => present
  | .error _ => false

section

variable {around : Surroundings W} {s mid v w : Machine W} {images loaded : List (Nat × Nat)}
  {kernel kernelOffset : Nat} {patched : Nat → Nat → Prop} {node : Nat}

theorem Machine.KipSearch.present {present : Bool}
    (search : s.KipSearch around kernel node present) :
    s.kipPresent around kernel node = present := by
  rw [Machine.kipPresent]
  unfold Machine.KipSearch at search
  rw [search]

theorem FilesKept.baseModIdx (kept : FilesKept s mid) (flag : ModuleFlag) (node : Nat) :
    mid.baseModIdx around flag node = s.baseModIdx around flag node := by
  unfold Machine.baseModIdx
  simp only [kept.length, kept.flag]

theorem Loaded.baseModIdx (state : Loaded around s mid images (patched kernelOffset) loaded v)
    (ready : ReadyToLoad around s mid images) (flag : ModuleFlag) (node : Nat) :
    v.baseModIdx around flag node = s.baseModIdx around flag node := by
  rw [← ready.files.baseModIdx]
  unfold Machine.baseModIdx Machine.module
  rw [state.mods]

/-- Only the regions are new. -/
theorem Loaded.with_regions (state : Loaded around s mid images (patched kernelOffset) loaded v)
    (regions : RegionList W) :
    Loaded around s mid images (patched kernelOffset) loaded (v.withRegions regions) :=
  ⟨state.mods, state.reserved, state.filled, state.frame⟩

theorem Loaded.patch {run : Run W Unit} {offset : Nat}
    (state : Loaded around s mid images (patched offset) loaded v)
    (isLoaded : (kernel, offset) ∈ loaded)
    (inside : ∀ a, patched offset a → ∃ area ∈ s.imageAreas around (kernel, offset), area.Has a)
    (patches : Patches (patched offset) run) (ran : run v = .ok () w) :
    Loaded around s mid images (patched offset) loaded w := by
  obtain ⟨mods, bytes⟩ := patches v w ran
  refine ⟨mods.trans state.mods, state.reserved, ?_, ?_⟩
  · intro image member ph isSegment k less spared
    rw [bytes _ spared]
    exact state.filled image member ph isSegment k less spared
  · intro a outside
    rw [bytes a, state.frame a outside]
    intro isPatched
    obtain ⟨area, inKernel, has⟩ := inside a isPatched
    exact outside _ isLoaded area inKernel has

theorem load_module {flag : ModuleFlag} {offset : Nat} {answer : Option LoadedImage}
    (state : Loaded around s mid images (patched kernelOffset) loaded v)
    (ready : ReadyToLoad around s mid images)
    (reserved : ∀ index, s.baseModIdx around flag node = some index → (index, offset) ∈ images)
    (ran : loadModule around flag node offset v = .ok answer w) :
    answer = (s.baseModIdx around flag node).map (s.loadedImage around offset) ∧
      Loaded around s mid images (patched kernelOffset)
        (loaded ++ answer.toList.map LoadedImage.image) w := by
  rw [loadModule, get_bind, state.baseModIdx ready] at ran
  cases found : s.baseModIdx around flag node with
  | none =>
      rw [found] at ran
      obtain ⟨rfl, rfl⟩ := pure_ok_iff.mp ran
      exact ⟨rfl, by simpa using state⟩
  | some index =>
      rw [found] at ran
      change ((do
        let image ← loadElfModule around index offset
        pure (some image)) : Run W (Option LoadedImage)) v = _ at ran
      rw [CheckedState.bind_ok_iff] at ran
      obtain ⟨image, u, ran, isAnswer⟩ := ran
      obtain ⟨rfl, rfl⟩ := pure_ok_iff.mp isAnswer
      obtain ⟨next, rfl⟩ := state.load ready (reserved index found) ran
      exact ⟨rfl, next⟩

theorem find_node_kip {found : Option Nat} {present : Bool}
    (state : Loaded around s mid images (patched kernelOffset) loaded v)
    (ready : ReadyToLoad around s mid images) (isLoaded : (kernel, kernelOffset) ∈ loaded)
    (kips : ∀ hdr, s.kipHdr around kernel = some hdr → KipSection around s kernel patched hdr)
    (fits : (s.module kernel).start + (s.module kernel).size ≤ W.modulus)
    (search : s.KipSearch around kernel node present)
    (ran : findNodeKip around kernel kernelOffset node v = .ok found w) :
    w = v ∧ found.isSome = present := by
  have member := state.reserved isLoaded
  obtain ⟨_, _, sound⟩ := ready.modules _ member
  rw [findNodeKip, get_bind, lift_ok_iff] at ran
  obtain ⟨returned, same⟩ := ran
  have sameHdr : v.kipHdr around kernel = s.kipHdr around kernel :=
    congrArg (ElfFile.findHdr · _) (state.file ready member).1
  rw [sameHdr] at returned
  refine ⟨same, kip_found_iff kips sound fits ?_ (state.filled _ isLoaded) search returned⟩
  intro ph isSegment
  exact ready.inside _ (image_areas_subset member (List.mem_map_of_mem isSegment))

/-- The KIP of the first node is known. -/
theorem node_kip {setup : KernelSetup} {first : Bool} {found : Option Nat} {present : Bool}
    (isKernel : setup.kernel.image = (kernel, kernelOffset))
    (state : Loaded around s mid images (patched kernelOffset) loaded v)
    (ready : ReadyToLoad around s mid images) (isLoaded : (kernel, kernelOffset) ∈ loaded)
    (kips : ∀ hdr, s.kipHdr around kernel = some hdr → KipSection around s kernel patched hdr)
    (fits : (s.module kernel).start + (s.module kernel).size ≤ W.modulus)
    (search : s.KipSearch around kernel node present) (isFirst : first = true → present = true)
    (ran : nodeKip around setup first node v = .ok found w) : w = v ∧ found.isSome = present := by
  have sameIndex : setup.kernel.index = kernel := congrArg Prod.fst isKernel
  have sameOffset : setup.kernel.offset = kernelOffset := congrArg Prod.snd isKernel
  rw [nodeKip, sameIndex, sameOffset] at ran
  cases first with
  | true =>
      obtain ⟨rfl, rfl⟩ := pure_ok_iff.mp ran
      exact ⟨rfl, (isFirst rfl).symm⟩
  | false => exact find_node_kip state ready isLoaded kips fits search ran

/-- What a KIP of the node decides, and what is loaded then. -/
theorem load_node {setup : KernelSetup} {first : Bool} {offsets : NodeOffsets}
    {answer : Option BootNode} {present : Bool}
    (isKernel : setup.kernel.image = (kernel, kernelOffset))
    (state : Loaded around s mid images (patched kernelOffset) loaded v)
    (ready : ReadyToLoad around s mid images) (isLoaded : (kernel, kernelOffset) ∈ loaded)
    (sets : SetsUpKernel around s kernel patched)
    (kips : ∀ hdr, s.kipHdr around kernel = some hdr → KipSection around s kernel patched hdr)
    (fits : (s.module kernel).start + (s.module kernel).size ≤ W.modulus)
    (search : s.KipSearch around kernel node present) (isFirst : first = true → present = true)
    (reserved : present = true → NodeReserved around s images node offsets)
    (ran : loadNode around setup first node offsets v = .ok answer w) :
    answer = (if present then some (s.bootNode around node offsets) else none) ∧
      Loaded around s mid images (patched kernelOffset)
        (loaded ++ (answer.toList.flatMap BootNode.images).map LoadedImage.image) w := by
  have sameOffset : setup.kernel.offset = kernelOffset := congrArg Prod.snd isKernel
  rw [loadNode, CheckedState.bind_ok_iff] at ran
  obtain ⟨found, u, isFound, ran⟩ := ran
  obtain ⟨rfl, isPresent⟩ :=
    node_kip isKernel state ready isLoaded kips fits search isFirst isFound
  cases found with
  | none =>
      obtain ⟨rfl, rfl⟩ := pure_ok_iff.mp ran
      rw [← isPresent]
      exact ⟨rfl, by simpa using state⟩
  | some l4i =>
      rw [← isPresent]
      obtain ⟨sigma0Reserved, roottaskReserved⟩ := reserved isPresent.symm
      simp only [CheckedState.bind_ok_iff] at ran
      obtain ⟨_, configured, ranConfigure, sigma0, afterSigma0, ranSigma0, roottask, afterRoottask,
        ranRoottask, _, completed, ranComplete, isAnswer⟩ := ran
      rw [sameOffset] at ranConfigure ranComplete
      have start := state.patch isLoaded (sets.inside kernelOffset) (sets.configure _ _ _) ranConfigure
      obtain ⟨isSigma0, second⟩ := load_module start ready sigma0Reserved ranSigma0
      obtain ⟨isRoottask, third⟩ := load_module second ready roottaskReserved ranRoottask
      have last := third.patch (by simp [isLoaded]) (sets.inside kernelOffset)
        (sets.complete _ _ _ _ _ _) ranComplete
      obtain ⟨rfl, rfl⟩ := pure_ok_iff.mp isAnswer
      rw [isSigma0, isRoottask] at last ⊢
      refine ⟨rfl, ?_⟩
      simpa [BootNode.images] using last

/-- All nodes: those with a KIP in the file of the kernel. -/
theorem load_nodes {setup : KernelSetup} {first : Bool} {nodes : List (Nat × NodeOffsets)}
    {answer : List BootNode} (isKernel : setup.kernel.image = (kernel, kernelOffset))
    (state : Loaded around s mid images (patched kernelOffset) loaded v)
    (ready : ReadyToLoad around s mid images) (isLoaded : (kernel, kernelOffset) ∈ loaded)
    (sets : SetsUpKernel around s kernel patched)
    (kips : ∀ hdr, s.kipHdr around kernel = some hdr → KipSection around s kernel patched hdr)
    (fits : (s.module kernel).start + (s.module kernel).size ≤ W.modulus)
    (reserved : ∀ n ∈ nodes, ∃ present, s.KipSearch around kernel n.1 present ∧
      (present = true → NodeReserved around s images n.1 n.2))
    (isFirst : first = true → ∀ n rest, nodes = n :: rest → s.kipPresent around kernel n.1 = true)
    (ran : loadNodes around setup first nodes v = .ok answer w) :
    answer = (nodes.filter fun n => s.kipPresent around kernel n.1).map
        (fun n => s.bootNode around n.1 n.2) ∧
      Loaded around s mid images (patched kernelOffset)
        (loaded ++ (answer.flatMap BootNode.images).map LoadedImage.image) w := by
  induction nodes generalizing loaded v answer first with
  | nil =>
      obtain ⟨rfl, rfl⟩ := pure_ok_iff.mp ran
      exact ⟨rfl, by simpa using state⟩
  | cons n rest ih =>
      obtain ⟨node, offsets⟩ := n
      simp only [loadNodes, CheckedState.bind_ok_iff] at ran
      obtain ⟨boot, u, ranNode, later, last, ranRest, isAnswer⟩ := ran
      obtain ⟨rfl, rfl⟩ := pure_ok_iff.mp isAnswer
      obtain ⟨present, search, nodeReserved⟩ := reserved (node, offsets) (by simp)
      simp only at search nodeReserved
      have isPresent := search.present
      obtain ⟨isBoot, next⟩ := load_node isKernel state ready isLoaded sets kips fits search
        (fun isTrue => isPresent ▸ isFirst isTrue _ _ rfl) nodeReserved ranNode
      obtain ⟨isLater, done⟩ := ih next (by simp [isLoaded])
        (fun other member => reserved other (by simp [member])) (by simp) ranRest
      constructor
      · rw [isBoot, isLater]
        cases present with
        | true => simp [isPresent]
        | false => simp [isPresent]
      · simpa using done

end

end L4Bootstrap
