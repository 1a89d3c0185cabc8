import L4Bootstrap.Startup.StartedNodes

/-!
# Everything that is loaded

From the first reserved segment to the last loaded one. When the kernel is about to be
started, every segment of kernel, sigma0 and roottask has the contents that its file had at
first, no matter where `construct_mbi` has moved the file in between, and the modules and
the block that lists them are still there.
-/

namespace L4Bootstrap

open MachineWord CheckedState ByteMemory

set_option autoImplicit false

variable {W : Wordsize}

def Booting.images (booting : Booting) : List LoadedImage :=
  booting.setup.kernel :: booting.nodes.flatMap BootNode.images

/-- The modules that may be loaded. -/
def Machine.planned (s : Machine W) (around : Surroundings W) : List Nat :=
  (s.baseModIdx around .kernel 0).toList ++
    (List.range around.numNodes).flatMap fun i => s.nodeModules around (around.node i)

/-- What the loader relies on when it is entered. -/
structure ReadyToStart (around : Surroundings W) (abi : L4modAbi W) (build : Build)
    (descriptors : Descriptors W) (internals : InternalModuleList W)
    (patched : Nat → Nat → Prop) (s : Machine W) : Prop where
  fresh : s.sorter = []
  ascending : Ascending s.memory.regions.reg
  room : RoomFor s.memory.regions (s.sizes around (s.planned around))
  modules : ModulesReady build (s.sizes around (s.planned around)) s
  reserved : InLasting descriptors.areas s.memory.regions.reg
  mbi : MbiFits abi (mbiTexts ((List.range s.mods.length).map descriptors.cmdline) internals)
  files : ∀ index ∈ s.planned around, SoundFile around s index
  sets : ∀ kernel, s.baseModIdx around .kernel 0 = some kernel → SetsUpKernel around s kernel patched
  kips : ∀ kernel, s.baseModIdx around .kernel 0 = some kernel →
    ∀ hdr, s.kipHdr around kernel = some hdr → KipSection around s kernel patched hdr

/-! ## The base modules -/

section

variable {around : Surroundings W} {s u mid t : Machine W} {build : Build} {sizes : List Nat}
  {flag : ModuleFlag} {index node : Nat}

theorem base_mod_idx_some (found : s.baseModIdx around flag node = some index) :
    index < s.mods.length ∧ (s.module index).flag = flag := by
  have member := List.mem_of_find?_eq_some found
  have holds := List.find?_some found
  simp only [Bool.and_eq_true, decide_eq_true_eq] at holds
  exact ⟨List.mem_range.mp member, holds.1⟩

theorem planned_base_module (member : index ∈ s.planned around) :
    index < s.mods.length ∧ (s.module index).isBaseModule = true := by
  have ofFlag : ∀ flag node, flag = .kernel ∨ flag = .sigma0 ∨ flag = .roottask →
      s.baseModIdx around flag node = some index →
      index < s.mods.length ∧ (s.module index).isBaseModule = true := by
    intro flag node isBase found
    obtain ⟨inside, rfl⟩ := base_mod_idx_some found
    refine ⟨inside, ?_⟩
    unfold ModInfo.isBaseModule
    rcases isBase with same | same | same <;> rw [same]
  rw [Machine.planned, List.mem_append] at member
  rcases member with isKernel | ofNode
  · exact ofFlag .kernel 0 (by simp) (Option.mem_toList.mp isKernel)
  · obtain ⟨i, _, inNode⟩ := List.mem_flatMap.mp ofNode
    rcases List.mem_append.mp inNode with isSigma0 | isRoottask
    · exact ofFlag .sigma0 _ (by simp) (Option.mem_toList.mp isSigma0)
    · exact ofFlag .roottask _ (by simp) (Option.mem_toList.mp isRoottask)

/-- The files are not empty and lie in the address space. -/
theorem ModulesReady.file (ready : ModulesReady build sizes s) (inside : index < s.mods.length)
    (isBase : (s.module index).isBaseModule = true) :
    0 < (s.module index).size ∧
      (s.module index).start + (s.module index).size ≤ W.modulus := by
  cases build with
  | plain =>
      obtain ⟨two, inOrder, _⟩ := ready
      have member := module_mem inside
      have size := two _ member
      exact ⟨by omega, inOrder.inside _ member⟩
  | compress zlib copyIndex =>
      obtain ⟨two, word, e, made, _⟩ := ready.2.2.2.2.1 index inside isBase
      exact ⟨by omega, (Region.start_size_last made word).1⟩

end

/-! ## From reserving to loading -/

section

variable {around : Surroundings W} {s u mid t : Machine W} {build : Build} {sizes : List Nat}
  {images : List (Nat × Nat)} {mbi size : Nat}

theorem reserves_start (ascending : Ascending s.memory.regions.reg) : Reserves around s [] s :=
  ⟨rfl, [], segments_entered_start ascending, rfl⟩

theorem ready_to_load (reserves : Reserves around s images u)
    (ready : ModulesReady build sizes s)
    (modules : ∀ image ∈ images, image.1 < s.mods.length ∧
      (s.module image.1).isBaseModule = true ∧ SoundFile around s image.1)
    (away : OutOfTheWay (s.areas around images) s mid mbi size) :
    ReadyToLoad around s mid images := by
  obtain ⟨segments, entered, areas⟩ := reserves.entered
  refine ⟨?_, ?_, away.modules, away.inside, away.files, modules, ?_⟩
  · rw [← areas]
    exact entered.apart
  · intro area member
    rw [← areas] at member
    obtain ⟨n, _, rfl⟩ := List.mem_map.mp member
    have ordered := n.ordered
    have bounded := n.bounded
    unfold Region.area
    simp only
    omega
  · intro image member
    obtain ⟨inside, isBase, _⟩ := modules image member
    exact (ready.file inside isBase).1

end

/-! ## Behind `construct_mbi` -/

section

variable {around : Surroundings W} {s mid t : Machine W} {images : List (Nat × Nat)}
  {patched : Nat → Nat → Prop} {kernel offset : Nat} {mbi : BootInfo}
  {nodes : List (Nat × NodeOffsets)} {booting : Booting}

theorem loaded_start : Loaded around s mid images (patched offset) [] mid :=
  ⟨rfl, List.nil_subset _, by simp, fun _ _ => rfl⟩

/-- The kernel is loaded and has a KIP for the first node, and what is left is the loop. -/
theorem load_images_steps (ready : ReadyToLoad around s mid images)
    (member : (kernel, offset) ∈ images)
    (kips : ∀ hdr, s.kipHdr around kernel = some hdr → KipSection around s kernel patched hdr)
    (fits : (s.module kernel).start + (s.module kernel).size ≤ W.modulus)
    (reserved : ∀ n ∈ nodes, ∃ present, s.KipSearch around kernel n.1 present ∧
      (present = true → NodeReserved around s images n.1 n.2))
    (isFirst : ∀ n rest, nodes = n :: rest → n.1 = around.firstNode)
    (ran : loadImages around kernel offset mbi nodes mid = .ok booting t) :
    ∃ v, Loaded around s mid images (patched offset) [(kernel, offset)] v ∧
      booting.setup.kernel = s.loadedImage around offset kernel ∧
      booting.setup.mbi = mbi.addr ∧ booting.mbi = mbi ∧
      (∀ n rest, nodes = n :: rest → s.kipPresent around kernel n.1 = true) ∧
      loadNodes around booting.setup true nodes v = .ok booting.nodes t ∧
      ∀ others, loadNodes around booting.setup true others v = .ok booting.nodes t →
        loadImages around kernel offset mbi others mid = .ok booting t := by
  rw [loadImages, CheckedState.bind_ok_iff] at ran
  obtain ⟨_, optimized, isOptimized, ran⟩ := ran
  have state : Loaded around s mid images (patched offset) [] optimized := by
    obtain ⟨regions, _, rfl⟩ := update_regions_ok isOptimized
    exact loaded_start.with_regions regions
  rw [CheckedState.bind_ok_iff] at ran
  obtain ⟨image, afterKernel, ranKernel, ran⟩ := ran
  obtain ⟨kernelLoaded, isImage⟩ := state.load ready member ranKernel
  rw [CheckedState.bind_ok_iff] at ran
  obtain ⟨found, afterKip, isFound, ran⟩ := ran
  have sameState : afterKip = afterKernel := by
    rw [findNodeKip, get_bind, lift_ok_iff] at isFound
    exact isFound.2
  subst sameState
  cases found with
  | none => exact absurd ran stop_not_ok
  | some kip =>
      simp only [get_bind, CheckedState.bind_ok_iff, lift_ok_iff, modify_ok_iff, pure_ok_iff] at ran
      obtain ⟨⟨areas, grown⟩, _, ⟨isGrown, rfl⟩, _, _, ⟨_, rfl⟩, booted, last, ranNodes, rfl, rfl⟩ :=
        ran
      refine ⟨_, kernelLoaded.with_regions grown, isImage, rfl, rfl, ?_, ranNodes, ?_⟩
      -- a KIP for the first node is in memory, so there was one in the file
      · intro n rest isNodes
        obtain ⟨present, search, _⟩ := reserved n (by simp [isNodes])
        rw [← isFirst n rest isNodes] at isFound
        obtain ⟨_, isSome⟩ := find_node_kip kernelLoaded ready (by simp) kips fits search isFound
        rw [search.present, ← isSome]
        rfl
      · intro others ranOthers
        rw [loadImages, CheckedState.bind_ok_iff]
        refine ⟨(), optimized, isOptimized, ?_⟩
        rw [CheckedState.bind_ok_iff]
        refine ⟨image, _, ranKernel, ?_⟩
        rw [CheckedState.bind_ok_iff]
        refine ⟨some kip, _, isFound, ?_⟩
        simp only [get_bind, CheckedState.bind_ok_iff, lift_ok_iff, modify_ok_iff, pure_ok_iff]
        exact ⟨(areas, grown), _, ⟨isGrown, rfl⟩, (), _, rfl, booted, _, ranOthers, rfl, rfl⟩

theorem load_images (ready : ReadyToLoad around s mid images) (member : (kernel, offset) ∈ images)
    (sets : SetsUpKernel around s kernel patched)
    (kips : ∀ hdr, s.kipHdr around kernel = some hdr → KipSection around s kernel patched hdr)
    (fits : (s.module kernel).start + (s.module kernel).size ≤ W.modulus)
    (reserved : ∀ n ∈ nodes, ∃ present, s.KipSearch around kernel n.1 present ∧
      (present = true → NodeReserved around s images n.1 n.2))
    (isFirst : ∀ n rest, nodes = n :: rest → n.1 = around.firstNode)
    (ran : loadImages around kernel offset mbi nodes mid = .ok booting t) :
    booting.mbi = mbi ∧ booting.setup.kernel = s.loadedImage around offset kernel ∧
      booting.nodes = (nodes.filter fun n => s.kipPresent around kernel n.1).map
        (fun n => s.bootNode around n.1 n.2) ∧
      Loaded around s mid images (patched offset) (booting.images.map LoadedImage.image) t := by
  obtain ⟨v, state, isImage, _, isMbi, present, ranNodes, _⟩ :=
    load_images_steps ready member kips fits reserved isFirst ran
  obtain ⟨isNodes, done⟩ := load_nodes (by rw [isImage]; rfl) state ready (by simp) sets kips fits
    reserved (fun _ => present) ranNodes
  refine ⟨isMbi, isImage, isNodes, ?_⟩
  rw [Booting.images, isImage]
  exact done

end

/-! ## The whole of it -/

/-- What is in memory in the end, where `mid` is how `construct_mbi` left it. The kernel may
be patched, and what else is loaded is as in its file. -/
structure ImagesBooted (around : Surroundings W) (areas : List Area) (patched : Nat → Nat → Prop)
    (mbiSize : Nat) (s mid t : Machine W) (booting : Booting) : Prop where
  kernel : s.baseModIdx around .kernel 0 = some booting.setup.kernel.index
  nodes : booting.nodes.map BootNode.node = ((List.range around.numNodes).map around.node).filter
    (s.kipPresent around booting.setup.kernel.index)
  modules : ∀ boot ∈ booting.nodes,
    boot.sigma0.map LoadedImage.index = s.baseModIdx around .sigma0 boot.node ∧
      boot.roottask.map LoadedImage.index = s.baseModIdx around .roottask boot.node
  start : ∀ image ∈ booting.images, image.start =
    W.add (around.entry s.bytes (s.module image.index).start) image.offset
  kernelFilled : SegmentsFilledBut W (patched booting.setup.kernel.offset)
    (s.file around booting.setup.kernel.index).loads booting.setup.kernel.offset
    (s.module booting.setup.kernel.index).start s.bytes t.bytes
  filled : ∀ boot ∈ booting.nodes, ∀ image ∈ boot.images,
    SegmentsFilled W (s.file around image.index).loads image.offset (s.module image.index).start
      s.bytes t.bytes
  itself : ∀ image ∈ booting.images, (s.imageAreas around image.image).Pairwise Area.Apart
  apart : ∀ image ∈ booting.images, ∀ other ∈ booting.images, image.image ≠ other.image →
    ∀ area ∈ s.imageAreas around image.image, ∀ b ∈ s.imageAreas around other.image, area.Apart b
  table : t.mods = mid.mods
  files : FilesKept s t
  payload : ∀ i < mid.mods.length, ∀ p, mid.Image i p → t.bytes p = mid.bytes p
  block : ∀ p, booting.mbi.addr ≤ p → p < booting.mbi.addr + mbiSize → t.bytes p = mid.bytes p
  descriptors : ∀ p, InAreas areas p → t.bytes p = mid.bytes p
  frame : ∀ a, (∀ image ∈ booting.images, ∀ area ∈ s.imageAreas around image.image,
    ¬ area.Has a) → t.bytes a = mid.bytes a

section

variable {around : Surroundings W} {abi : L4modAbi W} {build : Build}
  {descriptors : Descriptors W} {lost : Run W BootInfo}
  {internals : InternalModuleList W} {patched : Nat → Nat → Prop} {s mid t : Machine W}
  {stack : Nat → NodeOffsets} {modAddr : Nat} {booting : Booting} {images : List (Nat × Nat)}

theorem Machine.bootNode_modules (node : Nat) (offsets : NodeOffsets) :
    (s.bootNode around node offsets).sigma0.map LoadedImage.index =
        s.baseModIdx around .sigma0 node ∧
      (s.bootNode around node offsets).roottask.map LoadedImage.index =
        s.baseModIdx around .roottask node := by
  have index : ∀ offset, LoadedImage.index ∘ s.loadedImage around offset = id := fun _ => rfl
  rw [Machine.bootNode]
  simp only [Option.map_map, index, Option.map_id]
  exact ⟨rfl, rfl⟩

/-- Images start at their entry. -/
theorem Machine.bootNode_start {node : Nat} {offsets : NodeOffsets} {image : LoadedImage}
    (member : image ∈ (s.bootNode around node offsets).images) : image.start =
      W.add (around.entry s.bytes (s.module image.index).start) image.offset := by
  rcases List.mem_append.mp member with isSigma0 | isRoottask
  · obtain ⟨_, _, rfl⟩ := Option.map_eq_some_iff.mp (Option.mem_toList.mp isSigma0)
    rfl
  · obtain ⟨_, _, rfl⟩ := Option.map_eq_some_iff.mp (Option.mem_toList.mp isRoottask)
    rfl

/-- The images of nodes are not that of the kernel. -/
theorem node_image_index {boot : BootNode} {image : LoadedImage} {kernel : Nat}
    (isKernel : s.baseModIdx around .kernel 0 = some kernel)
    (sigma0 : boot.sigma0.map LoadedImage.index = s.baseModIdx around .sigma0 boot.node)
    (roottask : boot.roottask.map LoadedImage.index = s.baseModIdx around .roottask boot.node)
    (member : image ∈ boot.images) : image.index ≠ kernel := by
  intro same
  have kernelFlag := (base_mod_idx_some isKernel).2
  rcases List.mem_append.mp member with isSigma0 | isRoottask
  · rw [Option.mem_toList.mp isSigma0, Option.map_some, same] at sigma0
    have flag := (base_mod_idx_some sigma0.symm).2
    rw [kernelFlag] at flag
    cases flag
  · rw [Option.mem_toList.mp isRoottask, Option.map_some, same] at roottask
    have flag := (base_mod_idx_some roottask.symm).2
    rw [kernelFlag] at flag
    cases flag

theorem Booting.node_image {boot : BootNode} {image : LoadedImage} (isNode : boot ∈ booting.nodes)
    (member : image ∈ boot.images) : image ∈ booting.images :=
  List.mem_cons_of_mem _ (List.mem_flatMap.mpr ⟨boot, isNode, member⟩)

/-- What is loaded is out of the way of what `construct_mbi` left. -/
theorem Loaded.untouched {loaded : List (Nat × Nat)} {wanted : Nat → Prop} {p : Nat}
    (state : Loaded around s mid images wanted loaded t)
    (away : ∀ area ∈ s.areas around images, ¬ area.Has p) : t.bytes p = mid.bytes p :=
  state.frame p fun _ isLoaded area inImage =>
    away area (image_areas_subset (state.reserved isLoaded) inImage)

theorem Loaded.files_kept {loaded : List (Nat × Nat)} {wanted : Nat → Prop}
    (state : Loaded around s mid images wanted loaded t) (ready : ReadyToLoad around s mid images) :
    FilesKept s t := by
  obtain ⟨length, flag, size, bytes⟩ := ready.files
  have same : ∀ i, t.module i = mid.module i := by
    intro i
    rw [Machine.module, Machine.module, state.mods]
  refine ⟨by rw [state.mods, length], fun i => by rw [same, flag], ?_, ?_⟩
  · intro i inside isBase
    rw [same, size i inside isBase]
  · intro i inside isBase k less
    rw [same, ← bytes i inside isBase k less]
    apply state.untouched
    apply ready.clear i (by rwa [length])
    have sameSize := size i inside isBase
    unfold Machine.Image Machine.imageEnd
    omega

/-- An image that is not the kernel's has no patched byte. -/
theorem Loaded.filled_whole {kernel offset : Nat} {image : Nat × Nat} {loaded : List (Nat × Nat)}
    (state : Loaded around s mid images (patched offset) loaded t)
    (ready : ReadyToLoad around s mid images) (sets : SetsUpKernel around s kernel patched)
    (isKernel : (kernel, offset) ∈ loaded) (member : image ∈ loaded)
    (differ : image ≠ (kernel, offset)) :
    SegmentsFilled W (s.file around image.1).loads image.2 (s.module image.1).start s.bytes
      t.bytes := by
  intro ph isSegment k inside
  apply state.filled image member ph isSegment k inside
  intro isPatched
  obtain ⟨area, inKernel, has⟩ := sets.inside offset _ isPatched
  have apart := ready.others (state.reserved member) (state.reserved isKernel) differ _
    (List.mem_map_of_mem isSegment) area inKernel
  unfold Area.Apart ProgramHeader.area at apart
  unfold Area.Has at has
  simp only at apart
  omega

/-- What is in front of loading. -/
theorem startup_images_steps
    (ran : startupImages around abi build descriptors lost internals stack modAddr s =
      .ok booting t) :
    around.numNodes ≤ maxNumNodes ∧
      ∃ (kernel offset : Nat) (v u mid : Machine W) (reserved : List (Nat × NodeOffsets))
        (mbi : BootInfo), s.baseModIdx around .kernel 0 = some kernel ∧
        reserveImage around kernel .kernel around.firstNode around.superPage s = .ok offset v ∧
        reserveNodes around kernel (around.nodes stack) v = .ok reserved u ∧
        constructMbi abi build descriptors lost internals modAddr u = .ok mbi mid ∧
        loadImages around kernel offset mbi reserved mid = .ok booting t := by
  rw [startupImages, get_bind] at ran
  split_ifs at ran with tooMany
  · exact absurd ran stop_not_ok
  cases isKernel : s.baseModIdx around .kernel 0 with
  | none =>
      rw [isKernel] at ran
      exact absurd ran stop_not_ok
  | some kernel =>
      rw [isKernel] at ran
      simp only [CheckedState.bind_ok_iff] at ran
      obtain ⟨offset, v, ranKernel, reserved, u, ranNodes, mbi, mid, ranMbi, ran⟩ := ran
      exact ⟨by omega, kernel, offset, v, u, mid, reserved, mbi, rfl, ranKernel, ranNodes, ranMbi, ran⟩

/-- The images with their offsets when the kernel is about to be loaded. -/
structure Prepared (around : Surroundings W) (s mid : Machine W) (images : List (Nat × Nat))
    (kernel offset : Nat) (offsets : List (Nat × NodeOffsets)) : Prop where
  ready : ReadyToLoad around s mid images
  member : (kernel, offset) ∈ images
  fits : (s.module kernel).start + (s.module kernel).size ≤ W.modulus
  nodes : offsets.map Prod.fst = (List.range around.numNodes).map around.node
  reserved : ∀ n ∈ offsets, ∃ present, s.KipSearch around kernel n.1 present ∧
    (present = true → NodeReserved around s images n.1 n.2)

theorem Prepared.first {kernel offset : Nat} {offsets : List (Nat × NodeOffsets)}
    (prepared : Prepared around s mid images kernel offset offsets) {n : Nat × NodeOffsets}
    {rest : List (Nat × NodeOffsets)} (isList : offsets = n :: rest) : n.1 = around.firstNode := by
  have nodes := prepared.nodes
  rw [isList] at nodes
  cases count : around.numNodes with
  | zero =>
      rw [count] at nodes
      cases nodes
  | succ count =>
      rw [count, List.range_succ_eq_map, List.map_cons, List.map_cons] at nodes
      rw [(List.cons.inj nodes).1]
      exact Nat.mod_eq_of_lt around.firstNodeWord

theorem startup_images_prepared
    (ready : ReadyToStart around abi build descriptors internals patched s) {kernel offset : Nat}
    {v u : Machine W} {reserved : List (Nat × NodeOffsets)} {mbi : BootInfo}
    (isKernel : s.baseModIdx around .kernel 0 = some kernel)
    (ranKernel : reserveImage around kernel .kernel around.firstNode around.superPage s =
      .ok offset v)
    (ranNodes : reserveNodes around kernel (around.nodes stack) v = .ok reserved u)
    (ranMbi : constructMbi abi build descriptors lost internals modAddr u = .ok mbi mid) :
    ∃ images, Reserves around s images u ∧ Spared abi build descriptors internals modAddr u ∧
      OutOfTheWay (s.areas around images) s mid mbi.addr
        (mbiSize abi ((List.range s.mods.length).map descriptors.cmdline) internals) ∧
      Prepared around s mid images kernel offset reserved := by
  have planned : s.planned around =
      [kernel] ++ (around.nodes stack).flatMap fun n => s.nodeModules around n.1 := by
    rw [Machine.planned, isKernel, Surroundings.nodes, List.flatMap_map]
    rfl
  obtain ⟨fresh, ascending, room, modules, isReserved, fits, files, _, _⟩ := ready
  have kernelReserved := reserve_image (files kernel (by simp [planned])).sized
    (reserves_start ascending) (room.sublist (sizes_sublist (by simp [planned]))) ranKernel
  obtain ⟨more, reserves, sub, sameNodes, nodesReserved⟩ := reserve_nodes
    (fun index member => (files index (by simp [planned, member])).sized) kernelReserved
    (by
      rw [planned] at room
      exact room) ranNodes
  have subPlanned : (([] ++ [(kernel, offset)] ++ more).map Prod.fst).Sublist
      (s.planned around) := by
    rw [List.map_append, planned]
    exact (List.Sublist.refl _).append sub
  have spared : Spared abi build descriptors internals modAddr u :=
    reserves.spared fresh ascending (sizes_sublist subPlanned) modules isReserved fits
  have away := construct_mbi_out_of_the_way reserves fresh ascending
    (sizes_sublist subPlanned) modules fits spared ranMbi
  obtain ⟨inside, isBase⟩ := planned_base_module
    (show kernel ∈ s.planned around by simp [planned])
  refine ⟨_, reserves, spared, away, ?_, by simp, (modules.file inside isBase).2, ?_, ?_⟩
  · apply ready_to_load reserves modules _ away
    intro image member
    have inPlan : image.1 ∈ s.planned around := subPlanned.subset (List.mem_map_of_mem member)
    obtain ⟨inside, isBase⟩ := planned_base_module inPlan
    exact ⟨inside, isBase, files image.1 inPlan⟩
  · rw [sameNodes, Surroundings.nodes, List.map_map]
    rfl
  · intro n member
    obtain ⟨present, search, nodeReserved⟩ := nodesReserved n member
    exact ⟨present, search, fun isPresent =>
      (nodeReserved isPresent).mono (List.subset_append_right _ _)⟩

end

/-! ## A kernel with two KIPs -/

/-- Tells files by their first byte. -/
def taggedElf (bytes : Bytes) (start : Nat) : ElfFile where
  magic := true
  arch := true
  phdrs :=
    if bytes start = 1 then
      [⟨ptCustomL4Kip, false, false, 0x10, 0x400000, 0x2000, 0x2000, 0x1000⟩,
        ⟨.load, true, true, 0x10, 0x400000, 0x2000, 0x2100, 0x1000⟩]
    else if bytes start = 2 then [⟨.load, false, true, 0x8, 0x500000, 0x20, 0x1000, 0x1000⟩]
    else [⟨.load, false, true, 0, 0x600000, 0x20, 0x20, 0x1000⟩,
      ⟨.load, true, false, 0x10, 0x601000, 0, 0x800, 0x1000⟩]

def taggedEntry (bytes : Bytes) (start : Nat) : Nat :=
  if bytes start = 1 then 0x400020 else if bytes start = 2 then 0x500000 else 0x600004

/-- The files lie where the kernel goes, and its second KIP is for node 2. -/
def threeImages : Machine .w64 where
  bytes := fun a =>
    if a = 0x3ff000 then 1 else if a = 0x402000 then 2 else if a = 0x403000 then 3
    else if a = 0x400020 then 2 else 0
  memory := {
    ram := Memory.unlimited [.fixed 0x1000 0xffffff {} (.refl true)]
    sysalloc := Memory.unlimited [.fixed 0 0xffffff {} (.refl true)]
    regions := Memory.unlimited [.fixed 0x1000 0x1fff {} (.refl true)]
    validate := none }
  mods := [⟨0x3ff000, 0x2010, 0x2010, .kernel⟩, ⟨0x402000, 0x30, 0x30, .sigma0⟩,
    ⟨0x403000, 0x20, 0x20, .roottask⟩]
  sorter := []

/-- A platform that starts nodes 0 to 2 and notes in the kernel that it is complete. -/
def threeNodes : Surroundings .w64 where
  elf := taggedElf
  entry := taggedEntry
  kip := ⟨0x100, 0x10, 4, by decide⟩
  superPage := 0x200000
  cmdline := fun _ => 0
  reloc := fun _ => false
  forNode := fun _ node => node = 0
  returnAddress := 0x1100
  firstNode := 0
  firstNodeWord := by decide
  numNodes := 3
  announce := fun _ => .ok ()
  kernelCmdline := none
  configure := fun _ _ _ => pure ()
  complete := fun offset _ _ _ _ _ => updateBytes fun bytes a =>
    if a = Wordsize.w64.add 0x400000 offset + 0x40 then 0xff else bytes a
  fuel := 3

/-- The header, the table of three modules and their texts. -/
def threeDescriptors : Descriptors .w64 where
  areas := [(0x1000, 56), (0x1038, 288), (0x1158, 0x60)]
  cmdline := fun _ => .repeated 3 (by decide)

def notedByte (offset a : Nat) : Prop := a = Wordsize.w64.add 0x400000 offset + 0x40

theorem three_images_file : ∀ index ∈ [0, 1, 2], SoundFile threeNodes threeImages index := by
  have nonempty : ∀ index ∈ [0, 1, 2], 0 < (threeImages.module index).size := by decide
  have few : ∀ index ∈ [0, 1, 2],
      (threeImages.file threeNodes index).phdrs.length < maxHeaders := by decide +kernel
  have sized : ∀ index ∈ [0, 1, 2], threeImages.Sized threeNodes index := by
    unfold Machine.Sized
    decide +kernel
  have inFile : ∀ index ∈ [0, 1, 2], ∀ ph ∈ (threeImages.file threeNodes index).loads,
      ph.InFile (threeImages.module index).size := by
    unfold ProgramHeader.InFile
    decide +kernel
  intro index member
  refine ⟨?_, few index member, sized index member, inFile index member⟩
  intro bytes start same
  -- the tag is the first byte of the file
  have tag : bytes start = threeImages.bytes (threeImages.module index).start :=
    same 0 (nonempty index member)
  constructor
  · change taggedElf bytes start = taggedElf threeImages.bytes (threeImages.module index).start
    rw [taggedElf, taggedElf, tag]
  · change taggedEntry bytes start = taggedEntry threeImages.bytes (threeImages.module index).start
    rw [taggedEntry, taggedEntry, tag]

theorem three_images_ready : ReadyToStart threeNodes (packedAbi .w64) .plain threeDescriptors
    .empty notedByte threeImages := by
  have planned : threeImages.planned threeNodes = [0, 1, 2] := by decide +kernel
  have sizes : threeImages.sizes threeNodes [0, 1, 2] = [0x2100, 0x1000, 0x20, 0x800] := by
    decide +kernel
  have isKernel : threeImages.baseModIdx threeNodes .kernel 0 = some 0 := by decide +kernel
  have loads : (threeImages.file threeNodes 0).loads =
      [⟨.load, true, true, 0x10, 0x400000, 0x2000, 0x2100, 0x1000⟩] := by decide +kernel
  constructor
  · rfl
  · exact List.pairwise_singleton _ _
  · rw [planned, sizes]
    exact ⟨by decide, rfl, rfl, by decide⟩
  · rw [planned, sizes]
    exact ⟨by decide, ⟨by decide, by decide, by decide, by
      unfold ModInfo.Apart
      decide⟩, rfl, rfl, by decide⟩
  · rintro p ⟨area, isArea, above, below⟩
    have inside : ∀ area ∈ threeDescriptors.areas, 0x1000 ≤ area.1 ∧ area.1 + area.2 ≤ 0x2000 := by
      decide
    have := inside area isArea
    have low : 0x1000 ≤ p := by omega
    have high : p ≤ 0x1fff := by omega
    exact ⟨_, List.mem_singleton_self _, rfl, low, high⟩
  · exact ⟨by decide, by decide, by decide⟩
  · rw [planned]
    exact three_images_file
  · intro kernel found
    rw [isKernel] at found
    cases found
    refine ⟨?_, ?_, ?_⟩
    · intro offset kip l4i v w ran
      obtain ⟨_, rfl⟩ := pure_ok_iff.mp ran
      exact ⟨rfl, fun _ _ => rfl⟩
    · intro offset l4i node areas starts mbi v w ran
      cases ran
      exact ⟨rfl, fun a other => if_neg other⟩
    · intro offset a noted
      refine ⟨(Wordsize.w64.add 0x400000 offset, 0x2100), ?_, ?_⟩
      · rw [Machine.imageAreas, ElfFile.areas, loads]
        exact List.mem_singleton_self _
      · unfold notedByte at noted
        unfold Area.Has
        simp only
        omega
  · intro kernel found hdr isHdr
    rw [isKernel] at found
    cases found
    have same : threeImages.kipHdr threeNodes 0 = some ⟨0x400000, 0x2000, 0x10⟩ := by
      decide +kernel
    rw [same] at isHdr
    cases isHdr
    refine ⟨by decide, ⟨_, by rw [loads]; exact List.mem_singleton_self _, by decide, by decide,
      by decide⟩, ?_⟩
    intro offset k inSection j less
    unfold notedByte
    simp only [threeNodes, pageSize, pageShift] at less ⊢
    omega

end L4Bootstrap
