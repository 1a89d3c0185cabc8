import L4Bootstrap.ModulesApart
import L4Bootstrap.Startup.ReservedImages

/-!
# The modules while the images wait

`construct_mbi` between reserving and loading: the files of kernel, sigma0 and roottask
keep their contents wherever they are moved, and afterwards no module and no byte of the
new block lies in a reserved segment.
-/

namespace L4Bootstrap

open MachineWord CheckedState ByteMemory MemoryTransfer

set_option autoImplicit false

variable {W : Wordsize}

/-! ## Kinds of modules -/

section

variable {s t : Machine W} {index dest : Nat} {plan : List (Nat × Nat)} {zlib : Zlib}

theorem ModuleMoved.flag {mode : BootMode} (moved : ModuleMoved mode index dest s t) (other : Nat) :
    (t.module other).flag = (s.module other).flag := by
  rcases eq_or_ne other index with rfl | apart
  · rcases Nat.lt_or_ge other s.mods.length with inside | outside
    · rw [moved.itself inside]
    · rw [Machine.module, Machine.module, moved.mods, List.set_eq_of_length_le outside]
  · rw [moved.others apart]

theorem Moves.flag {mode : BootMode} (moves : Moves mode s plan t) (other : Nat) :
    (t.module other).flag = (s.module other).flag := by
  induction moves with
  | nil => rfl
  | cons moved _ ih => rw [ih, moved.flag]

theorem ModuleUnpacked.flag (step : ModuleUnpacked zlib index dest s t) (other : Nat) :
    (t.module other).flag = (s.module other).flag := by
  rcases eq_or_ne other index with rfl | apart
  · rcases Nat.lt_or_ge other s.mods.length with inside | outside
    · rw [step.itself inside]
    · rw [Machine.module, Machine.module, step.mods, List.set_eq_of_length_le outside]
  · rw [step.others apart]

theorem Unpackings.flag (steps : Unpackings zlib s plan t) (other : Nat) :
    (t.module other).flag = (s.module other).flag := by
  induction steps with
  | nil => rfl
  | cons step _ ih => rw [ih, step.flag]

theorem move_base_modules_flag {order : List Nat} (ran : moveBaseModules order s = .ok () t)
    (other : Nat) : (t.module other).flag = (s.module other).flag := by
  induction order generalizing s with
  | nil =>
      rw [moveBaseModules, pure_ok_iff] at ran
      rw [ran.2]
  | cons i rest ih =>
      rw [moveBaseModules, CheckedState.bind_ok_iff] at ran
      obtain ⟨_, u, moved, ran⟩ := ran
      rw [ih ran]
      simp only [moveOutOfTheWay, get_bind] at moved
      split_ifs at moved with isBase
      · rw [(pure_ok_iff.mp moved).2]
      · simp only [CheckedState.bind_ok_iff, lift_ok_iff] at moved
        obtain ⟨_, _, ⟨_, rfl⟩, moved⟩ := moved
        split_ifs at moved with blocked
        · rw [CheckedState.bind_ok_iff] at moved
          obtain ⟨_, _, searched, moved⟩ := moved
          obtain ⟨_, same⟩ := find_free_ram_ok searched
          rw [same] at moved
          split_ifs at moved
          · exact absurd moved stop_not_ok
          · exact (move_module_moved moved).flag other
        · rw [(pure_ok_iff.mp moved).2]

end

/-! ## Files -/

/-- The base modules have the contents that they had. -/
structure FilesKept (s t : Machine W) : Prop where
  length : t.mods.length = s.mods.length
  flag : ∀ i, (t.module i).flag = (s.module i).flag
  size : ∀ i < s.mods.length, (s.module i).isBaseModule = true →
    (t.module i).size = (s.module i).size
  bytes : ∀ i < s.mods.length, (s.module i).isBaseModule = true → ∀ k < (s.module i).size,
    t.bytes ((t.module i).start + k) = s.bytes ((s.module i).start + k)

section

variable {s t : Machine W} {modAddr : Nat}

/-- Moving keeps the contents of all modules. -/
theorem move_modules_keeps_files (fresh : s.sorter = []) (modules : ModulesInOrder W s.mods)
    (ran : moveModules .image modAddr s = .ok () t) : FilesKept s t := by
  obtain ⟨target, u, zero, found, sorted, moved⟩ := move_modules_ok ran
  obtain ⟨order, rfl, perm, inOrder⟩ := sort_modules_ok
    (by rw [Machine.withRegions, fresh]; exact .nil) sorted
  rw [Machine.withRegions, fresh, List.append_nil] at perm
  have chain := sorted_chain modules perm inOrder
  have insideOf : ∀ i ∈ order, i < s.mods.length :=
    fun i member => List.mem_range.mp (perm.subset member)
  have wholeFits : 0 + total s.slot order ≤ W.modulus :=
    chain_total chain (fun i _ => Nat.zero_le _)
      (fun i member => module_pages_inside modules (insideOf i member)) (Nat.zero_le _)
  have placed := Memory.find_free_ram_placed found zero
  have fits := placed.fits
  rw [modules_size_eq perm (by omega) placed.pos] at fits
  obtain ⟨plan, moves, planPerm, clear⟩ := move_sorted_plan moved (Nat.pos_of_ne_zero zero)
    (fun i member => slot_pos modules (insideOf i member)) fits
    (perm.length_eq.trans List.length_range) chain
  change plan.Perm (layout s.slot target order) at planPerm
  have distinct : (plan.map Prod.fst).Nodup := by
    rw [(planPerm.map Prod.fst).nodup_iff, layout_indexes, perm.nodup_iff]
    exact List.nodup_range
  have bytes := moves.bytes distinct fun move member =>
    ⟨layout_aligned placed.aligned (fun i => dvd_round_up pageShift _) (planPerm.subset member), by
      have inside := layout_inside (planPerm.subset member)
      have sizeLe : (s.module move.1).size ≤ s.slot move.1 := le_round_up pageShift _
      exact (Nat.add_le_add_left sizeLe _).trans (inside.2.trans fits)⟩
  refine ⟨moves.length, moves.flag, fun i _ _ => moves.size i, ?_⟩
  intro i inside _ k small
  have isPlanned : i ∈ plan.map Prod.fst := by
    rw [(planPerm.map Prod.fst).mem_iff, layout_indexes]
    exact perm.mem_iff.mpr (List.mem_range.mpr inside)
  obtain ⟨⟨j, dest⟩, member, same⟩ := List.mem_map.mp isPlanned
  change j = i at same
  subst same
  rw [moves.start distinct member inside, bytes,
    run_all_target clear (List.mem_map_of_mem member)]
  · exact move_transfer_copies small s.bytes
  · exact ⟨Nat.le_add_right _ _, Nat.add_lt_add_left small _⟩

/-- Filling the slots writes inside of the place that was found for them. -/
theorem Filled.frame {zlib : Zlib} {plain : List UInt8 → List UInt8} {dest : Nat}
    {regions : RegionList W} {plan : List (Nat × Nat)} (sound : zlib.Unpacks plain)
    {copyIndex : Nat → Int} (filled : Filled zlib copyIndex s dest regions plan t) {p : Nat}
    (outside : p < dest ∨ dest + total s.unpacked s.payload ≤ p) : t.bytes p = s.bytes p := by
  rw [filled.steps.bytes sound filled.distinct]
  apply run_all_frame
  intro transfer member
  obtain ⟨move, inPlan, rfl⟩ := List.mem_map.mp member
  have inside := filled.inside inPlan
  have pages : (s.module move.1).sizeUncompressed ≤ s.unpacked move.1 := le_round_up pageShift _
  rintro ⟨above, below⟩
  change p < move.2 + (s.module move.1).sizeUncompressed at below
  omega

/-- Unpacking keeps the contents of the base modules. -/
theorem decompress_mods_keeps_files {zlib : Zlib} {plain : List UInt8 → List UInt8}
    {copyIndex : Nat → Int} (sound : zlib.Unpacks plain) (fresh : s.sorter = [])
    (ready : ReadyToUnpack copyIndex s)
    (ran : decompressMods zlib copyIndex (decompressedSize W s.mods) modAddr s = .ok () t) :
    FilesKept s t := by
  have maxWord : W.maxWord = W.modulus - 1 := rfl
  have room := ready.limits.room
  have word : total s.unpacked s.payload < W.modulus := by omega
  rw [decompressed_size_eq, Nat.mod_eq_of_lt word] at ran
  obtain ⟨sorted, dest, fwd, found, filled, isSorted, chosen, used, isFilled, moved⟩ :=
    decompress_mods_ok ran
  obtain ⟨sorter, rfl, perm, _⟩ := sort_modules_ok (by rw [fresh]; exact .nil) isSorted
  rw [fresh, List.append_nil] at perm
  obtain ⟨regions, rfl, place⟩ :=
    choose_destination_free (total_unpacked_dvd s s.payload) word chosen used
  -- no condition looks at the sorter
  let sorted : Machine W := { s with sorter := sorter }
  have readySorted : ReadyToUnpack copyIndex sorted :=
    ⟨ready.count, ready.base, ready.copies, ready.apart, ready.order, ready.limits⟩
  have sum : total s.unpacked sorter = total s.unpacked s.payload := total_of_perm perm
  have fits := place.fits
  have pos := place.pos
  rw [← sum] at word fits pos isFilled
  have steps : Unpackings zlib (sorted.withRegions regions)
      (fillOrder (layout s.unpacked dest sorter) fwd) filled :=
    uncompress_all_layout (fun i member => mem_payload.mp (perm.subset member)) (by omega) word fits
      isFilled
  have slots : Filled zlib copyIndex sorted dest regions
      (fillOrder (layout s.unpacked dest sorter) fwd) filled :=
    ⟨steps, fill_order_perm _ fwd, perm, place⟩
  have lodged := slots.lodged readySorted
  have length : filled.mods.length = s.mods.length := steps.length
  have kinds : ∀ i, (filled.module i).isBaseModule = (s.module i).isBaseModule := steps.kind
  have others : ∀ i, (s.module i).isBaseModule = true → filled.module i = s.module i := by
    intro i isBase
    apply steps.others
    intro isPlanned
    have notBase : (s.module i).isBaseModule = false :=
      (mem_payload.mp (slots.indexes.subset isPlanned)).2
    rw [notBase] at isBase
    cases isBase
  have sheltered : Sheltered (total filled.baseSize (List.range filled.mods.length)) filled :=
    ⟨lodged.housed.order, lodged.limits, fun i inside p inImage => lodged.covered inside inImage⟩
  rw [← length] at moved
  have same := move_base_modules_sheltered (fun i member => List.mem_range.mp member)
    (by
      intro i member isBase
      rw [List.mem_range, length] at member
      rw [kinds i] at isBase
      rw [others i isBase]
      exact ⟨(ready.base i member isBase).1, (ready.base i member isBase).2.1⟩) sheltered moved
  constructor
  · rw [same.length, length]
  · intro i
    rw [move_base_modules_flag moved, steps.flag]
    rfl
  · intro i inside isBase
    rw [same.size, others i isBase]
  · intro i inside isBase k small
    have bytes := same.bytes i (by rw [length]; exact inside) k (by
      rw [others i isBase]
      exact small)
    rw [others i isBase] at bytes
    rw [bytes]
    exact slots.frame sound (slots.base_outside readySorted inside isBase
      ⟨Nat.le_add_right _ _, Nat.add_lt_add_left small _⟩)

end

/-! ## Behind the reserved segments -/

/-- The table and the list before the images are reserved, for segments of these sizes. A
compressing build moves no module unless it has more than the three base modules. -/
def ModulesReady (build : Build) (sizes : List Nat) (s : Machine W) : Prop :=
  match build with
  | .plain => (∀ mod ∈ s.mods, 2 ≤ mod.size) ∧ ModulesInOrder W s.mods ∧
      s.memory.regions.Unlimited (sizes.sum + (s.mods.map fun mod => pageUp mod.size).sum)
  | .compress zlib copyIndex => (∃ plain, zlib.Unpacks plain) ∧ numBaseModules < s.mods.length ∧
      s.mods.length ≤ 256 ∧
      (∀ j ∈ s.payload, ∀ i < s.mods.length, (s.module i).isBaseModule = true →
        copyIndex j ≠ i) ∧
      (∀ i < s.mods.length, (s.module i).isBaseModule = true →
        2 ≤ (s.module i).size ∧ (s.module i).size < W.modulus ∧
          ∃ e, (s.module i).region i = .ok e ∧ Sole s.memory.regions.reg e) ∧
      s.memory.regions.Unlimited (sizes.sum +
        (total s.unpacked s.payload + total s.baseSize (List.range s.mods.length)))

section

variable {around : Surroundings W} {build : Build} {s u t : Machine W}
  {images : List (Nat × Nat)} {modAddr : Nat}

/-- The entries of segments are not those of modules. -/
theorem foreign_of_lasting {r : Region W} (lasting : r.isTemporary = false) : Foreign r.attr := by
  intro isModule
  unfold OfModule at isModule
  simp [Region.isTemporary, isModule] at lasting

/-- A list without limits that has grown by segments. -/
theorem SegmentsEntered.unlimited {start l : RegionList W} {segments : List (Region W)} {more : Nat}
    (entered : SegmentsEntered start segments l)
    (limits : start.Unlimited (((segments.map Region.area).map Prod.snd).sum + more)) :
    l.Unlimited more := by
  obtain ⟨address, combined, room⟩ := limits
  refine ⟨entered.limits.address.trans address, entered.limits.combined.trans combined, ?_⟩
  rw [entered.counted]
  omega

/-- What `construct_mbi` relies on. -/
theorem Reserves.ready {sizes : List Nat} (reserves : Reserves around s images u)
    (ascending : Ascending s.memory.regions.reg)
    (sub : (s.sizes around (images.map Prod.fst)).Sublist sizes)
    (ready : ModulesReady build sizes s) : ReadyToPlace build u := by
  obtain ⟨segments, entered, areas⟩ := reserves.entered
  have sum : ((segments.map Region.area).map Prod.snd).sum ≤ sizes.sum := by
    rw [areas, areas_sizes]
    exact sub.sum_le_sum fun x _ => Nat.zero_le x
  have order : MergeOrder u.memory.regions.reg := interleaved_merge_order entered.mixed
  have less : ∀ more, s.memory.regions.Unlimited (sizes.sum + more) →
      s.memory.regions.Unlimited (((segments.map Region.area).map Prod.snd).sum + more) := by
    rintro more ⟨address, combined, room⟩
    exact ⟨address, combined, by omega⟩
  have mods : u.mods = s.mods := by
    rw [reserves.state]
    rfl
  have modules : u.module = s.module := by
    funext i
    rw [Machine.module, Machine.module, mods]
  cases build with
  | plain =>
      obtain ⟨two, _, limits⟩ := ready
      refine ⟨by rwa [mods], order.sublist List.filter_sublist, ?_⟩
      rw [mods]
      exact entered.unlimited (less _ limits)
  | compress zlib copyIndex =>
      obtain ⟨_, many, count, copies, base, limits⟩ := ready
      rw [ReadyToPlace, mods, if_pos many]
      have isSegment : ∀ n ∈ segments, Foreign n.attr :=
        fun n member => foreign_of_lasting (entered.lasting n member)
      have payload : u.payload = s.payload := by
        rw [Machine.payload, Machine.payload, mods, modules]
      have unpacked : u.unpacked = s.unpacked := by
        funext i
        rw [Machine.unpacked, Machine.unpacked, modules]
      have baseSize : u.baseSize = s.baseSize := by
        funext i
        rw [Machine.baseSize, Machine.baseSize, modules]
      refine ⟨by rwa [mods], ?_, by rwa [payload, mods, modules], ?_, order, ?_⟩
      · intro i inside isBase
        rw [mods] at inside
        rw [modules] at isBase ⊢
        obtain ⟨two, word, e, made, sole⟩ := base i inside isBase
        refine ⟨two, word, e, made, ?_⟩
        have isModule : OfModule e.attr := by
          rw [(Region.start_size_ok.mp made).2.2.2]
          rfl
        refine ⟨entered.perm.mem_iff.mpr (List.mem_append_right _ sole.member), ?_⟩
        intro r member sameAttr
        rcases List.mem_append.mp (entered.perm.mem_iff.mp member) with isNew | old
        · exact absurd (sameAttr ▸ isModule) (isSegment r isNew)
        · exact sole.unique r old sameAttr
      · apply EntriesApart.of_perm _ entered.perm
        refine List.pairwise_append.mpr ⟨?_, ascending.imp fun below _ _ => .inl below, ?_⟩
        · apply List.pairwise_of_forall_mem_list
          intro r member o _ isModule
          exact absurd isModule (isSegment r member)
        · intro r member o _ isModule
          exact absurd isModule (isSegment r member)
      · rw [payload, unpacked, baseSize, mods]
        exact entered.unlimited (less _ limits)

theorem place_modules_keeps_files {sizes : List Nat} (reserves : Reserves around s images u)
    (fresh : s.sorter = []) (ready : ModulesReady build sizes s)
    (readyToPlace : ReadyToPlace build u)
    (ran : placeModules build modAddr u = .ok () t) : FilesKept u t := by
  have mods : u.mods = s.mods := by
    rw [reserves.state]
    rfl
  have sorter : u.sorter = [] := by
    rw [reserves.state]
    exact fresh
  rw [placeModules, get_bind, CheckedState.bind_ok_iff] at ran
  obtain ⟨_, checked, isChecked, ran⟩ := ran
  rw [check_sizes_ok isChecked, CheckedState.bind_ok_iff] at ran
  obtain ⟨_, relocated, isRelocated, merged⟩ := ran
  obtain ⟨regions, _, rfl⟩ := update_regions_ok merged
  have kept : FilesKept u relocated := by
    cases build with
    | plain =>
        apply move_modules_keeps_files sorter _ isRelocated
        rw [mods]
        exact ready.2.1
    | compress zlib copyIndex =>
        obtain ⟨⟨plain, sound⟩, many, _⟩ := ready
        rw [← mods] at many
        simp only [relocateModules, get_bind, if_pos many] at isRelocated
        rw [ReadyToPlace, if_pos many] at readyToPlace
        exact decompress_mods_keeps_files sound sorter readyToPlace isRelocated
  exact ⟨kept.length, kept.flag, kept.size, kept.bytes⟩

/-- The files are kept, the modules and the block of `size` bytes at `mbi` are out of the
way of the areas, and the modules are in the address space. -/
structure OutOfTheWay (areas : List Area) (s t : Machine W) (mbi size : Nat) : Prop where
  files : FilesKept s t
  modules : ∀ i < t.mods.length, ∀ p, t.Image i p → ∀ area ∈ areas, ¬ area.Has p
  block : ∀ p, mbi ≤ p → p < mbi + size → ∀ area ∈ areas, ¬ area.Has p
  inside : ∀ i < t.mods.length, ∀ p, t.Image i p → p < W.modulus

variable {abi : L4modAbi W} {descriptors : Descriptors W} {lost : Run W BootInfo}
  {internals : InternalModuleList W} {mbi : BootInfo}

/-- Areas in lasting entries. -/
def InLasting (areas : List Area) (reg : List (Region W)) : Prop :=
  ∀ p, InAreas areas p → ∃ r ∈ reg, r.isTemporary = false ∧ r.begin ≤ p ∧ p ≤ r.last

/-- Descriptors in lasting entries are in no segment. -/
theorem Reserves.off_descriptors {areas : List Area} (reserves : Reserves around s images u)
    (reserved : InLasting areas s.memory.regions.reg) {p : Nat} (described : InAreas areas p) :
    ∀ area ∈ s.areas around images, ¬ area.Has p := by
  obtain ⟨segments, entered, areAreas⟩ := reserves.entered
  obtain ⟨r, member, lasting, above, below⟩ := reserved p described
  intro area isArea
  rw [← areAreas] at isArea
  obtain ⟨n, isSegment, rfl⟩ := List.mem_map.mp isArea
  exact entered.off_lasting isSegment member lasting above below

/-- `construct_mbi` writes nothing to descriptors in lasting entries. -/
theorem Reserves.spared {sizes : List Nat} (reserves : Reserves around s images u)
    (fresh : s.sorter = []) (ascending : Ascending s.memory.regions.reg)
    (sub : (s.sizes around (images.map Prod.fst)).Sublist sizes)
    (ready : ModulesReady build sizes s)
    (reserved : InLasting descriptors.areas s.memory.regions.reg)
    (fits : MbiFits abi (mbiTexts ((List.range s.mods.length).map descriptors.cmdline)
      internals)) : Spared abi build descriptors internals modAddr u := by
  have mods : u.mods = s.mods := by
    rw [reserves.state]
    rfl
  have sorter : u.sorter = [] := by
    rw [reserves.state]
    exact fresh
  obtain ⟨segments, entered, _⟩ := reserves.entered
  rw [← mods] at fits
  refine (places_clear sorter (reserves.ready ascending sub ready) ?_).spared fits
  intro p described
  obtain ⟨r, member, lasting, inside⟩ := reserved p described
  exact ⟨r, entered.perm.mem_iff.mpr (List.mem_append_right _ member),
    foreign_of_lasting lasting, inside⟩

theorem construct_mbi_out_of_the_way {sizes : List Nat} (reserves : Reserves around s images u)
    (fresh : s.sorter = []) (ascending : Ascending s.memory.regions.reg)
    (sub : (s.sizes around (images.map Prod.fst)).Sublist sizes)
    (ready : ModulesReady build sizes s)
    (fits : MbiFits abi (mbiTexts ((List.range s.mods.length).map descriptors.cmdline) internals))
    (spared : Spared abi build descriptors internals modAddr u)
    (ran : constructMbi abi build descriptors lost internals modAddr u = .ok mbi t) :
    OutOfTheWay (s.areas around images) s t mbi.addr
      (mbiSize abi ((List.range s.mods.length).map descriptors.cmdline) internals) := by
  have readyToPlace := reserves.ready ascending sub ready
  have mods : u.mods = s.mods := by
    rw [reserves.state]
    rfl
  have sorter : u.sorter = [] := by
    rw [reserves.state]
    exact fresh
  have sameBytes : u.bytes = s.bytes := by
    rw [reserves.state]
    rfl
  have modules : u.module = s.module := by
    funext i
    rw [Machine.module, Machine.module, mods]
  obtain ⟨between, placed, isBlock, sameMods, bytes⟩ := construct_mbi_ok ran spared
  have block := isBlock.inside
  have nonempty := isBlock.nonempty
  obtain ⟨_, nonzero, found, region, made, added⟩ := isBlock
  have length := KeepsTable.placeModules build modAddr u _ between placed
  rw [mods] at length
  have cmdlines : (between.table descriptors.cmdline).map Prod.snd =
      (List.range s.mods.length).map descriptors.cmdline := by
    rw [← placed_cmdlines placed, mods]
  obtain ⟨lodged, _⟩ := place_modules_lodged sorter readyToPlace placed
  have kept := place_modules_keeps_files reserves fresh ready readyToPlace placed
  obtain ⟨ground, clear⟩ := lodged.block found nonzero made added
  have blockSize : mbiSize abi ((between.table descriptors.cmdline).map Prod.snd) internals <
      W.modulus := mbi_size_lt _
  -- every byte of a segment has an entry that is not one of a module
  obtain ⟨segments, entered, areas⟩ := reserves.entered
  have covered : ∀ area ∈ s.areas around images, ∀ p, area.Has p →
      CoveredBy u.memory.regions.reg Foreign p := by
    intro area member p inside
    rw [← areas] at member
    obtain ⟨n, isSegment, rfl⟩ := List.mem_map.mp member
    exact ⟨n, entered.perm.mem_iff.mpr (List.mem_append_left _ isSegment),
      foreign_of_lasting (entered.lasting n isSegment), Region.area_has_iff.mp inside⟩
  have sameImage : ∀ i p, t.Image i p ↔ between.Image i p := by
    intro i p
    rw [Machine.Image, Machine.imageEnd, Machine.module, sameMods]
    rfl
  rw [← cmdlines] at fits ⊢
  have filled := @fill_mbi_of_fits W abi mbi.addr (between.table descriptors.cmdline) internals _
    between.bytes rfl block nonempty fits
  have upTo : mbiSize abi ((between.table descriptors.cmdline).map Prod.snd) internals ≤
      roundPage W (mbiSize abi ((between.table descriptors.cmdline).map Prod.snd) internals) := by
    rw [roundPage, round_size_of_pos blockSize (Region.start_size_ok.mp made).1]
    exact le_round_up pageShift _
  refine ⟨?_, ?_, ?_, ?_⟩
  · constructor
    · rw [sameMods, length]
    · intro i
      rw [Machine.module, sameMods]
      exact (kept.flag i).trans (by rw [modules])
    · intro i inside isBase
      rw [Machine.module, sameMods]
      rw [← modules] at isBase ⊢
      exact kept.size i (by rw [mods]; exact inside) isBase
    · intro i inside isBase k small
      have same : t.module i = between.module i := by rw [Machine.module, Machine.module, sameMods]
      rw [← modules] at isBase small
      have size := kept.size i (by rw [mods]; exact inside) isBase
      have outside := (clear i (by rw [length]; exact inside) ((between.module i).start + k)
        ⟨Nat.le_add_right _ _, Nat.add_lt_add_left (by omega) _⟩).1
      have frame : Outside ((between.module i).start + k)
          (mbi.addr,
            mbiSize abi ((between.table descriptors.cmdline).map Prod.snd) internals) := by
        unfold Outside
        simp only
        omega
      rw [same, bytes, filled.frame _ frame, kept.bytes i (by rw [mods]; exact inside) isBase k small,
        sameBytes, modules]
  · intro i inside p inImage area member inArea
    rw [sameMods] at inside
    obtain ⟨r, inList, foreign, above, below⟩ := ground p (covered area member p inArea)
    have := (clear i inside p ((sameImage i p).mp inImage)).2 r inList foreign
    omega
  · intro p above below area member inArea
    have pages : 2 ^ pageShift ∣
        roundPage W (mbiSize abi ((between.table descriptors.cmdline).map Prod.snd) internals) :=
      W.dvd_round_size pageShift _
    have word := W.round_size_lt pageShift
      (mbiSize abi ((between.table descriptors.cmdline).map Prod.snd) internals)
    obtain ⟨_, _, _, free⟩ := Memory.find_free_ram_placed found nonzero
    rw [round_page_of_dvd pages word] at free
    have := (lodged.housed.ground p (covered area member p inArea)).outside free
    omega
  · intro i inside p inImage
    rw [sameMods] at inside
    obtain ⟨r, _, _, _, upper⟩ := lodged.covered inside ((sameImage i p).mp inImage)
    exact upper.trans_lt r.bounded

end

end L4Bootstrap
