import L4Bootstrap.DecompressPlace
import L4Bootstrap.Lib.ByteImage
import Mathlib.Data.List.Pairwise

/-!
# Decompression delivers the original contents

Decompressing or moving one module is a transfer from its stored image to its
slot. In the order that goes with the place no transfer writes to an image that
is still to be read. Each slot is entered into the region list before the base
modules are moved, so that these moves leave the slots alone.
-/

namespace L4Bootstrap

open MachineWord CheckedState ByteMemory MemoryTransfer

set_option autoImplicit false

variable {W : Wordsize}

/-- The stream has ended and the destination is full. -/
def Inflated.complete (strm : Inflated) : Bool := strm.streamEnd && strm.availOut = 0

/-- The compression library: `inflate` reads its source only, writes to its
destination only, and leaves there what the source stands for when it is
complete. -/
structure Zlib.Unpacks (zlib : Zlib) (plain : List UInt8 → List UInt8) : Prop where
  writes : ∀ start size dest n bytes a, a < dest ∨ dest + n ≤ a →
    (zlib.inflate start size dest n bytes).bytes a = bytes a
  reads : ∀ start size dest n bytes other,
    (∀ a, start ≤ a → a < start + size → bytes a = other a) →
    (zlib.inflate start size dest n bytes).complete =
        (zlib.inflate start size dest n other).complete ∧
      ((zlib.inflate start size dest n bytes).complete = true →
        ∀ a, dest ≤ a → a < dest + n → (zlib.inflate start size dest n bytes).bytes a =
          (zlib.inflate start size dest n other).bytes a)
  unpacks : ∀ start size dest n bytes, (start + size ≤ dest ∨ dest + n ≤ start) →
    (zlib.inflate start size dest n bytes).complete = true →
    (plain (readList bytes start size)).length = n ∧
      Holds (zlib.inflate start size dest n bytes).bytes dest (plain (readList bytes start size))

/-! ## One module -/

/-- What `decomp_move_mod` does to memory. -/
def unpackBytes (zlib : Zlib) (mod : ModInfo) (dest : Nat) (bytes : Bytes) : Bytes :=
  if mod.compressed then
    (zlib.inflate mod.start mod.size dest mod.sizeUncompressed bytes).bytes
  else memmove dest mod.start mod.sizeUncompressed bytes

/-- A copy always gets to its end. -/
def unpackFinished (zlib : Zlib) (mod : ModInfo) (dest : Nat) (bytes : Bytes) : Bool :=
  !mod.compressed ||
    (zlib.inflate mod.start mod.size dest mod.sizeUncompressed bytes).complete

/-- The effect of a successful `decomp_move_mod`. -/
structure ModuleUnpacked (zlib : Zlib) (index dest : Nat) (s t : Machine W) : Prop where
  bytes : t.bytes = unpackBytes zlib (s.module index) dest s.bytes
  finished : unpackFinished zlib (s.module index) dest s.bytes = true
  mods : t.mods = s.mods.set index
    { s.module index with start := dest, size := (s.module index).sizeUncompressed }
  reserved : ∃ region type, Region.startSize dest (roundPage W (s.module index).sizeUncompressed)
      { name := .modReg, type := type, subType := UInt8.ofNat index } = .ok region ∧
    (s.memory.regions.dropModRegion index).add region = .ok t.memory.regions
  memory : t.memory = { s.memory with regions := t.memory.regions }
  sorter : t.sorter = s.sorter

theorem add_mod_region_ok {index : Nat} {round : Bool} {type : RegionType} {s t : Machine W}
    (ran : addModRegion index round type s = .ok () t) :
    ∃ region regions, (s.module index).region index round type = .ok region ∧
      s.memory.regions.add region = .ok regions ∧ t = s.withRegions regions := by
  simp only [addModRegion, get_bind, CheckedState.bind_ok_iff, lift_ok_iff] at ran
  obtain ⟨region, _, ⟨made, rfl⟩, ran⟩ := ran
  obtain ⟨regions, added, same⟩ := update_regions_ok ran
  exact ⟨region, regions, made, added, same⟩

theorem add_mod_regions_ok {order : List Nat} {s t : Machine W}
    (ran : addModRegions order s = .ok () t) : ∃ regions, t = s.withRegions regions := by
  induction order generalizing s with
  | nil =>
      rw [addModRegions, pure_ok_iff] at ran
      exact ⟨s.memory.regions, ran.2⟩
  | cons i rest ih =>
      rw [addModRegions, CheckedState.bind_ok_iff] at ran
      obtain ⟨_, u, added, ran⟩ := ran
      obtain ⟨_, _, _, _, rfl⟩ := add_mod_region_ok added
      obtain ⟨regions, rfl⟩ := ih ran
      exact ⟨regions, rfl⟩

theorem init_mod_regions_ok {modHeader payloadSize : Nat} {s t : Machine W}
    (ran : initModRegions modHeader payloadSize s = .ok () t) :
    t = s.withRegions t.memory.regions := by
  simp only [initModRegions, addRegion, CheckedState.bind_ok_iff, get_bind, lift_ok_iff] at ran
  obtain ⟨_, u, ⟨_, _, ⟨_, rfl⟩, header⟩, ran⟩ := ran
  obtain ⟨_, _, rfl⟩ := update_regions_ok header
  obtain ⟨regions, rfl⟩ := add_mod_regions_ok ran
  rfl

theorem module_set {mods : List ModInfo} {index : Nat} (mod : ModInfo)
    (inside : index < mods.length) : (mods.set index mod).getD index default = mod := by
  simp only [List.getD_eq_getElem?_getD]
  rw [List.getElem?_set_self inside, Option.getD_some]

/-- The bookkeeping behind both ways to fill a slot. -/
theorem re_enter_ok {index : Nat} {f : ModInfo → ModInfo} {type : RegionType} {s t : Machine W}
    (inside : index < s.mods.length)
    (ran : (do
      dropModRegion index
      updateModule index f
      addModRegion index true type) s = .ok () t) :
    ∃ region regions, (f (s.module index)).region index true type = .ok region ∧
      (s.memory.regions.dropModRegion index).add region = .ok regions ∧
      t = { s with mods := s.mods.set index (f (s.module index)) }.withRegions regions := by
  simp only [CheckedState.bind_ok_iff] at ran
  obtain ⟨_, u, dropped, _, v, updated, added⟩ := ran
  obtain ⟨regions, isDropped, rfl⟩ := update_regions_ok dropped
  cases isDropped
  rw [updateModule, modify_ok_iff] at updated
  subst updated
  obtain ⟨region, regions, isRegion, isAdded, rfl⟩ := add_mod_region_ok added
  change ((s.mods.set index (f (s.module index))).getD index default).region index true type =
    .ok region at isRegion
  rw [module_set _ inside] at isRegion
  exact ⟨region, regions, isRegion, isAdded, rfl⟩

theorem decompress_ok {zlib : Zlib} {start dest size n image : Nat} {s t : Machine W}
    (ran : decompress zlib start dest size n s = .ok image t) (found : image ≠ 0) :
    image = dest ∧ (zlib.inflate start size dest n s.bytes).complete = true ∧
      t = { s with bytes := (zlib.inflate start size dest n s.bytes).bytes } := by
  unfold decompress at ran
  split_ifs at ran with ready
  · rw [pure_ok_iff] at ran
    exact absurd ran.1 found
  · simp only [get_bind, CheckedState.bind_ok_iff, updateBytes, modify_ok_iff, pure_ok_iff] at ran
    obtain ⟨_, _, rfl, isImage, rfl⟩ := ran
    split_ifs at isImage with finished
    · exact ⟨isImage, finished, rfl⟩
    · exact absurd isImage found

theorem decompress_mod_unpacked {zlib : Zlib} {index dest : Nat} {s t : Machine W}
    (inside : index < s.mods.length) (packed : (s.module index).compressed = true)
    (ran : decompressMod zlib index dest s = .ok () t) : ModuleUnpacked zlib index dest s t := by
  simp only [decompressMod, get_bind] at ran
  split_ifs at ran with null
  · exact absurd ran stop_not_ok
  simp only [CheckedState.bind_ok_iff, lift_ok_iff] at ran
  obtain ⟨target, _, ⟨made, rfl⟩, ran⟩ := ran
  split_ifs at ran with outside
  · exact absurd ran stop_not_ok
  rw [CheckedState.bind_ok_iff] at ran
  obtain ⟨image, u, unpacked, ran⟩ := ran
  split_ifs at ran with failed
  · exact absurd ran stop_not_ok
  have isDest : image = dest := not_not.mp failed
  obtain ⟨_, complete, rfl⟩ := decompress_ok unpacked (by rw [isDest]; exact null)
  obtain ⟨region, regions, isRegion, isAdded, rfl⟩ := re_enter_ok (by exact inside) ran
  refine ⟨?_, ?_, rfl, ⟨region, .boot, isRegion, isAdded⟩, rfl, rfl⟩
  · rw [unpackBytes, if_pos packed]
    rfl
  · rw [unpackFinished, complete, Bool.or_true]

theorem decomp_move_mod_unpacked {zlib : Zlib} {index dest : Nat} {s t : Machine W}
    (inside : index < s.mods.length) (ran : decompMoveMod zlib index dest s = .ok () t) :
    ModuleUnpacked zlib index dest s t := by
  simp only [decompMoveMod, get_bind] at ran
  cases packed : (s.module index).compressed with
  | true =>
      rw [if_pos packed] at ran
      exact decompress_mod_unpacked inside packed ran
  | false =>
      rw [if_neg (by simp [packed])] at ran
      have sizes : (s.module index).size = (s.module index).sizeUncompressed := by
        simpa [ModInfo.compressed] using packed
      rw [CheckedState.bind_ok_iff] at ran
      obtain ⟨_, u, moved, ran⟩ := ran
      rw [updateBytes, modify_ok_iff] at moved
      subst moved
      obtain ⟨region, regions, isRegion, isAdded, rfl⟩ := re_enter_ok (by exact inside) ran
      refine ⟨?_, ?_, ?_, ⟨region, .root, ?_, isAdded⟩, rfl, rfl⟩
      · rw [unpackBytes, if_neg (by simp [packed])]
        rfl
      · rw [unpackFinished, packed]
        rfl
      · rw [← sizes]
        rfl
      · rw [← sizes]
        exact isRegion

namespace ModuleUnpacked

variable {zlib : Zlib} {index dest : Nat} {s t : Machine W}

theorem length (step : ModuleUnpacked zlib index dest s t) : t.mods.length = s.mods.length := by
  rw [step.mods, List.length_set]

theorem others (step : ModuleUnpacked zlib index dest s t) {other : Nat} (apart : other ≠ index) :
    t.module other = s.module other := by
  rw [Machine.module, Machine.module, step.mods]
  simp only [List.getD_eq_getElem?_getD]
  rw [List.getElem?_set_ne (Ne.symm apart)]

theorem itself (step : ModuleUnpacked zlib index dest s t) (inside : index < s.mods.length) :
    t.module index =
      { s.module index with start := dest, size := (s.module index).sizeUncompressed } := by
  rw [Machine.module, step.mods, module_set _ inside]

/-- What no step changes about a module. -/
theorem kind (step : ModuleUnpacked zlib index dest s t) (other : Nat) :
    (t.module other).sizeUncompressed = (s.module other).sizeUncompressed ∧
      (t.module other).isBaseModule = (s.module other).isBaseModule := by
  rcases eq_or_ne other index with rfl | apart
  · rcases Nat.lt_or_ge other s.mods.length with inside | outside
    · rw [step.itself inside]
      exact ⟨rfl, rfl⟩
    · rw [Machine.module, Machine.module, step.mods, List.set_eq_of_length_le outside]
      exact ⟨rfl, rfl⟩
  · rw [step.others apart]
    exact ⟨rfl, rfl⟩

end ModuleUnpacked

/-! ## A sequence of modules -/

/-- The modules of a plan are unpacked one after the other. -/
inductive Unpackings (zlib : Zlib) : Machine W → List (Nat × Nat) → Machine W → Prop
  | nil (s : Machine W) : Unpackings zlib s [] s
  | cons {s u t : Machine W} {index dest : Nat} {rest : List (Nat × Nat)} :
      ModuleUnpacked zlib index dest s u → Unpackings zlib u rest t →
      Unpackings zlib s ((index, dest) :: rest) t

namespace Unpackings

variable {zlib : Zlib} {s t u : Machine W} {plan : List (Nat × Nat)}

theorem length (steps : Unpackings zlib s plan t) : t.mods.length = s.mods.length := by
  induction steps with
  | nil => rfl
  | cons step _ ih => rw [ih, step.length]

theorem others (steps : Unpackings zlib s plan t) {index : Nat}
    (apart : index ∉ plan.map Prod.fst) : t.module index = s.module index := by
  induction steps with
  | nil => rfl
  | cons step _ ih =>
      simp only [List.map_cons, List.mem_cons, not_or] at apart
      rw [ih apart.2, step.others apart.1]

theorem memory (steps : Unpackings zlib s plan t) :
    t.memory = { s.memory with regions := t.memory.regions } := by
  induction steps with
  | nil => rfl
  | cons step _ ih => rw [ih, step.memory]

theorem kind (steps : Unpackings zlib s plan t) (index : Nat) :
    (t.module index).isBaseModule = (s.module index).isBaseModule := by
  induction steps with
  | nil => rfl
  | cons step _ ih => rw [ih, (step.kind index).2]

theorem planned (steps : Unpackings zlib s plan t) (distinct : (plan.map Prod.fst).Nodup)
    {index dest : Nat} (member : (index, dest) ∈ plan) (inside : index < s.mods.length) :
    t.module index =
      { s.module index with start := dest, size := (s.module index).sizeUncompressed } := by
  induction steps with
  | nil => simp at member
  | @cons s u t first _ rest step steps ih =>
      simp only [List.map_cons, List.nodup_cons] at distinct
      rcases List.mem_cons.mp member with same | inRest
      · cases same
        rw [steps.others distinct.1, step.itself inside]
      · have apart : index ≠ first := by
          intro same
          exact distinct.1 (same ▸ List.mem_map_of_mem inRest)
        rw [ih distinct.2 inRest (by rwa [step.length]), step.others apart]

end Unpackings

theorem ModuleUnpacked.unpacked {zlib : Zlib} {index dest : Nat} {s t : Machine W}
    (step : ModuleUnpacked zlib index dest s t) : t.unpacked = s.unpacked := by
  funext other
  rw [Machine.unpacked, Machine.unpacked, (step.kind other).1]

/-- The indexes are those of modules in the table that are not base modules. -/
def Machine.IsPayload (s : Machine W) (order : List Nat) : Prop :=
  ∀ i ∈ order, i < s.mods.length ∧ (s.module i).isBaseModule = false

theorem ModuleUnpacked.isPayload {zlib : Zlib} {index dest : Nat} {s t : Machine W}
    (step : ModuleUnpacked zlib index dest s t) {order : List Nat} (payload : s.IsPayload order) :
    t.IsPayload order := by
  intro i member
  rw [step.length, (step.kind i).2]
  exact payload i member

/-- A slot is not empty, and its entry reaches to its end. -/
theorem ModuleUnpacked.slot {zlib : Zlib} {index dest : Nat} {s t : Machine W}
    (step : ModuleUnpacked zlib index dest s t) (small : s.unpacked index < W.modulus) :
    0 < s.unpacked index ∧ dest + s.unpacked index ≤ W.modulus ∧
      ∃ region, region.begin = dest ∧ region.last = dest + s.unpacked index - 1 ∧
        region.attr.name = .modReg ∧ region.attr.subType = UInt8.ofNat index ∧
        (s.memory.regions.dropModRegion index).add region = .ok t.memory.regions := by
  obtain ⟨region, type, made, added⟩ := step.reserved
  have rounded : roundPage W (s.module index).sizeUncompressed = s.unpacked index :=
    round_page_eq W small
  rw [rounded] at made
  have pos := (Region.start_size_ok.mp made).1
  obtain ⟨fits, begins, ends, attr⟩ := Region.start_size_last made small
  exact ⟨pos, fits, region, begins, ends, by rw [attr], by rw [attr], added⟩

theorem uncompress_forwards_layout {zlib : Zlib} {start : Nat} {order : List Nat}
    {s t : Machine W} (payload : s.IsPayload order) (small : total s.unpacked order < W.modulus)
    (fits : start + total s.unpacked order ≤ W.modulus)
    (ran : uncompressForwards zlib (start % W.modulus) order s = .ok () t) :
    Unpackings zlib s (layout s.unpacked start order) t := by
  induction order generalizing start s with
  | nil =>
      rw [uncompressForwards, pure_ok_iff] at ran
      rw [ran.2]
      exact .nil s
  | cons i rest ih =>
      rw [total_cons] at fits small
      obtain ⟨inside, notBase⟩ := payload i (by simp)
      simp only [uncompressForwards, get_bind] at ran
      rw [if_neg (by simp [notBase]), CheckedState.bind_ok_iff] at ran
      obtain ⟨_, u, moved, ran⟩ := ran
      have slotWord : s.unpacked i < W.modulus := by omega
      have pos := ((decomp_move_mod_unpacked inside moved).slot slotWord).1
      have word : start % W.modulus = start := Nat.mod_eq_of_lt (by omega)
      rw [word] at moved ran
      have first := decomp_move_mod_unpacked inside moved
      have next : W.add start (roundPage W (s.module i).sizeUncompressed) =
          (start + s.unpacked i) % W.modulus := by
        rw [round_page_mod, Wordsize.add, Nat.add_mod_mod]
        rfl
      rw [next] at ran
      refine .cons first ?_
      rw [← first.unpacked]
      apply ih
      · exact first.isPayload fun j inRest => payload j (by simp [inRest])
      · rw [first.unpacked]
        omega
      · rw [first.unpacked]
        omega
      · rw [first.unpacked]
        exact ran

theorem uncompress_backwards_layout {zlib : Zlib} {start : Nat} {order : List Nat}
    {s t : Machine W} (payload : s.IsPayload order) (small : total s.unpacked order < W.modulus)
    (fits : start + total s.unpacked order ≤ W.modulus)
    (ran : uncompressBackwards zlib ((start + total s.unpacked order) % W.modulus) order.reverse s =
      .ok () t) :
    Unpackings zlib s (layout s.unpacked start order).reverse t := by
  induction order using List.reverseRecOn generalizing s with
  | nil =>
      rw [List.reverse_nil, uncompressBackwards, pure_ok_iff] at ran
      rw [ran.2]
      exact .nil s
  | append_singleton front i ih =>
      simp only [total_append, total_cons, total_nil, Nat.add_zero] at fits small ran
      obtain ⟨inside, notBase⟩ := payload i (by simp)
      rw [List.reverse_append, List.reverse_singleton, List.singleton_append,
        uncompressBackwards] at ran
      simp only [get_bind] at ran
      rw [if_neg (by simp [notBase]), CheckedState.bind_ok_iff] at ran
      obtain ⟨_, u, moved, ran⟩ := ran
      have slotWord : s.unpacked i < W.modulus := by omega
      have pos := ((decomp_move_mod_unpacked inside moved).slot slotWord).1
      have slot : roundPage W (s.module i).sizeUncompressed = s.unpacked i :=
        round_page_eq W (by change s.unpacked i < _; omega)
      have dest : W.sub ((start + (total s.unpacked front + s.unpacked i)) % W.modulus)
          (roundPage W (s.module i).sizeUncompressed) = start + total s.unpacked front := by
        rw [slot, ← Nat.add_assoc, W.sub_add_mod (by omega) slotWord.le]
      rw [dest] at moved ran
      have first := decomp_move_mod_unpacked inside moved
      rw [layout_append, List.reverse_append]
      refine .cons first ?_
      rw [← first.unpacked]
      apply ih
      · exact first.isPayload fun j inFront => payload j (by simp [inFront])
      · rw [first.unpacked]
        omega
      · rw [first.unpacked]
        omega
      · rw [first.unpacked, Nat.mod_eq_of_lt (by omega)]
        exact ran

/-! ## The transfers -/

section

variable {zlib : Zlib} {plain : List UInt8 → List UInt8} (sound : zlib.Unpacks plain)
  (s : Machine W) (move : Nat × Nat)

include sound

theorem unpack_transfer_frame (bytes : Bytes) (a : Nat)
    (outside : a ∉ Set.Ico move.2 (move.2 + (s.module move.1).sizeUncompressed)) :
    (if unpackFinished zlib (s.module move.1) move.2 bytes then
      unpackBytes zlib (s.module move.1) move.2 bytes
    else memset move.2 0 (s.module move.1).sizeUncompressed bytes) a = bytes a := by
  simp only [Set.mem_Ico, not_and, not_lt] at outside
  unfold unpackBytes
  split_ifs with finished packed
  · exact sound.writes _ _ _ _ _ _ (by omega)
  · exact memmove_outside (by omega)
  · exact memset_outside (by omega)

theorem unpack_transfer_reads (bytes other : Bytes)
    (same : ∀ a ∈ Set.Ico (s.module move.1).start (s.imageEnd move.1), bytes a = other a)
    (a : Nat) (inTarget : a ∈ Set.Ico move.2 (move.2 + (s.module move.1).sizeUncompressed)) :
    (if unpackFinished zlib (s.module move.1) move.2 bytes then
      unpackBytes zlib (s.module move.1) move.2 bytes
    else memset move.2 0 (s.module move.1).sizeUncompressed bytes) a =
    (if unpackFinished zlib (s.module move.1) move.2 other then
      unpackBytes zlib (s.module move.1) move.2 other
    else memset move.2 0 (s.module move.1).sizeUncompressed other) a := by
  obtain ⟨sameEnd, sameBytes⟩ := sound.reads _ _ move.2 (s.module move.1).sizeUncompressed
    bytes other fun p above below => same p ⟨above, below⟩
  have agree : unpackFinished zlib (s.module move.1) move.2 bytes =
      unpackFinished zlib (s.module move.1) move.2 other := by
    rw [unpackFinished, unpackFinished, sameEnd]
  rw [← agree]
  unfold unpackBytes
  split_ifs with finished packed
  · apply sameBytes
    · rwa [unpackFinished, packed] at finished
    · exact inTarget.1
    · exact inTarget.2
  · have sizes : (s.module move.1).size = (s.module move.1).sizeUncompressed := by
      simpa [ModInfo.compressed] using packed
    obtain ⟨k, rfl⟩ := Nat.exists_eq_add_of_le inTarget.1
    have inside : k < (s.module move.1).sizeUncompressed := by
      have := inTarget.2
      omega
    rw [memmove_inside inside, memmove_inside inside]
    apply same
    exact ⟨by omega, by unfold Machine.imageEnd; omega⟩
  · rw [memset, memset, if_pos (by exact inTarget), if_pos (by exact inTarget)]

end

/-- The transfer of one planned module, from the image described in `s`. No
successful step has a stream that does not end; there the slot is cleared. -/
def unpackTransfer {zlib : Zlib} {plain : List UInt8 → List UInt8} (sound : zlib.Unpacks plain)
    (s : Machine W) (move : Nat × Nat) : Transfer Nat UInt8 where
  run bytes :=
    if unpackFinished zlib (s.module move.1) move.2 bytes then
      unpackBytes zlib (s.module move.1) move.2 bytes
    else memset move.2 0 (s.module move.1).sizeUncompressed bytes
  source := Set.Ico (s.module move.1).start (s.imageEnd move.1)
  window := Set.Ico move.2 (move.2 + (s.module move.1).sizeUncompressed)
  target := Set.Ico move.2 (move.2 + (s.module move.1).sizeUncompressed)
  frame := unpack_transfer_frame sound s move
  reads := unpack_transfer_reads sound s move

section

variable {zlib : Zlib} {plain : List UInt8 → List UInt8} (sound : zlib.Unpacks plain)
  {s t : Machine W} {plan : List (Nat × Nat)}

/-- A step leaves the transfers of other modules as they are. -/
theorem ModuleUnpacked.transfers {index dest : Nat} {rest : List (Nat × Nat)}
    (step : ModuleUnpacked zlib index dest s t) (apart : index ∉ rest.map Prod.fst) :
    rest.map (unpackTransfer sound t) = rest.map (unpackTransfer sound s) := by
  apply List.map_congr_left
  intro move inRest
  have differ : move.1 ≠ index := by
    intro same
    exact apart (same ▸ List.mem_map_of_mem inRest)
  simp only [unpackTransfer, Machine.imageEnd, step.others differ]

theorem ModuleUnpacked.transfer_run {index dest : Nat} (step : ModuleUnpacked zlib index dest s t) :
    (unpackTransfer sound s (index, dest)).run s.bytes = t.bytes := by
  rw [step.bytes]
  exact if_pos step.finished

theorem Unpackings.bytes (steps : Unpackings zlib s plan t)
    (distinct : (plan.map Prod.fst).Nodup) :
    t.bytes = runAll (plan.map (unpackTransfer sound s)) s.bytes := by
  induction steps with
  | nil => rfl
  | cons step steps ih =>
      simp only [List.map_cons, List.nodup_cons] at distinct
      have first := step.transfer_run sound
      rw [ih distinct.2, step.transfers sound distinct.1, List.map_cons, run_all_cons, first]

/-- Each stream would have ended in the memory before all steps. -/
theorem Unpackings.finished (steps : Unpackings zlib s plan t)
    (distinct : (plan.map Prod.fst).Nodup)
    (clear : (plan.map (unpackTransfer sound s)).Pairwise Transfer.KeepsClear)
    {move : Nat × Nat} (member : move ∈ plan) :
    unpackFinished zlib (s.module move.1) move.2 s.bytes = true := by
  induction steps with
  | nil => simp at member
  | @cons s u t index dest rest step steps ih =>
      simp only [List.map_cons, List.nodup_cons] at distinct
      rw [List.map_cons] at clear
      obtain ⟨firstClear, restClear⟩ := List.pairwise_cons.mp clear
      rcases List.mem_cons.mp member with rfl | inRest
      · exact step.finished
      · have apart : move.1 ≠ index := by
          intro same
          exact distinct.1 (same ▸ List.mem_map_of_mem inRest)
        rw [← step.transfers sound distinct.1] at restClear
        have later := ih distinct.2 restClear inRest
        rw [step.others apart] at later
        -- the first step did not write to the image
        have same : ∀ a, (s.module move.1).start ≤ a →
            a < (s.module move.1).start + (s.module move.1).size → u.bytes a = s.bytes a := by
          intro a above below
          rw [← step.transfer_run sound]
          exact (unpackTransfer sound s (index, dest)).frame s.bytes a
            ((firstClear _ (List.mem_map_of_mem inRest)).source a ⟨above, below⟩)
        obtain ⟨sameEnd, _⟩ := sound.reads (s.module move.1).start (s.module move.1).size
          move.2 (s.module move.1).sizeUncompressed u.bytes s.bytes same
        rw [unpackFinished, sameEnd] at later
        exact later

/-- The contents that a module stands for. -/
def Machine.contents (plain : List UInt8 → List UInt8) (s : Machine W) (index : Nat) :
    List UInt8 :=
  if (s.module index).compressed then
    plain (readList s.bytes (s.module index).start (s.module index).size)
  else readList s.bytes (s.module index).start (s.module index).size

theorem Unpackings.contents (steps : Unpackings zlib s plan t)
    (distinct : (plan.map Prod.fst).Nodup)
    (clear : (plan.map (unpackTransfer sound s)).Pairwise Transfer.KeepsClear)
    {move : Nat × Nat} (member : move ∈ plan)
    (own : s.imageEnd move.1 ≤ move.2 ∨
      move.2 + (s.module move.1).sizeUncompressed ≤ (s.module move.1).start) :
    (s.contents plain move.1).length = (s.module move.1).sizeUncompressed ∧
      Holds t.bytes move.2 (s.contents plain move.1) := by
  have finished := steps.finished sound distinct clear member
  have delivered : ∀ k < (s.module move.1).sizeUncompressed,
      t.bytes (move.2 + k) = unpackBytes zlib (s.module move.1) move.2 s.bytes (move.2 + k) := by
    intro k inside
    rw [steps.bytes sound distinct,
      run_all_target clear (List.mem_map_of_mem member) ⟨by omega, by omega⟩ s.bytes]
    exact congrFun (if_pos finished) _
  unfold Machine.contents
  unfold unpackBytes at delivered
  cases packed : (s.module move.1).compressed with
  | true =>
      have complete : (zlib.inflate (s.module move.1).start (s.module move.1).size move.2
          (s.module move.1).sizeUncompressed s.bytes).complete = true := by
        rwa [unpackFinished, packed] at finished
      obtain ⟨length, held⟩ := sound.unpacks _ _ _ _ s.bytes own complete
      simp only [packed, if_true] at delivered ⊢
      refine ⟨length, held.frame ?_⟩
      intro a above below
      rw [length] at below
      have := delivered (a - move.2) (by omega)
      rw [Nat.add_sub_cancel' above] at this
      exact this
  | false =>
      have sizes : (s.module move.1).size = (s.module move.1).sizeUncompressed := by
        simpa [ModInfo.compressed] using packed
      simp only [packed, Bool.false_eq_true, if_false] at delivered ⊢
      refine ⟨by rw [length_read_list, sizes], holds_read_list.moved ?_⟩
      intro k inside
      rw [length_read_list, sizes] at inside
      rw [delivered k inside, memmove_inside inside]

end

/-! ## The entries of the slots -/

/-- The attributes of an entry that is taken for that of the module with some index. -/
def IsSlotOf (index : Int) (attr : Attr) : Prop :=
  attr.name = .modReg ∧ (attr.subType.toNat : Int) = index

instance (index : Int) (attr : Attr) : Decidable (IsSlotOf index attr) :=
  inferInstanceAs (Decidable (_ ∧ _))

theorem is_region_of_iff {index : Int} {r : Region W} :
    isRegionOf index r = true ↔ IsSlotOf index r.attr := by
  simp [isRegionOf, IsSlotOf]

theorem drop_mod_region_dropped (index : Nat) (l : RegionList W) :
    Dropped [(index : Int)] l (l.dropModRegion index) := by
  unfold RegionList.dropModRegion
  cases found : l.reg.findIdx? (isRegionOf (index : Int)) with
  | none => exact .refl _ _
  | some i =>
      refine ⟨List.eraseIdx_sublist _ _, rfl, ?_⟩
      intro r member other
      obtain ⟨j, isAt⟩ := List.mem_iff_getElem?.mp member
      apply List.mem_eraseIdx_iff_getElem?.mpr
      refine ⟨j, ?_, isAt⟩
      rintro rfl
      obtain ⟨inside, isRegion, _⟩ := List.findIdx?_eq_some_iff_getElem.mp found
      rw [List.getElem?_eq_getElem inside, Option.some.injEq] at isAt
      rw [isAt, other index (by simp)] at isRegion
      cases isRegion

theorem Dropped.covers {indexes : List Int} {before after : RegionList W}
    (dropped : Dropped indexes before after) {keep : Attr → Prop} {p : Nat}
    (other : ∀ attr, keep attr → ∀ i ∈ indexes, ¬ IsSlotOf i attr)
    (covered : CoveredBy before.reg keep p) : CoveredBy after.reg keep p := by
  obtain ⟨r, member, kept, inside⟩ := covered
  refine ⟨r, dropped.keeps r member ?_, kept, inside⟩
  intro i isIndex
  rw [← Bool.not_eq_true, is_region_of_iff]
  exact other r.attr kept i isIndex

/-- What the loop over the modules leaves in the list. -/
theorem Dropped.spares {copyIndex : Nat → Int} {order : List Nat} {before after : RegionList W}
    (dropped : Dropped (order.map copyIndex) before after) {keep : Attr → Prop} {p : Nat}
    (other : ∀ attr, keep attr → ∀ j ∈ order, ¬ IsSlotOf (copyIndex j) attr)
    (covered : CoveredBy before.reg keep p) : CoveredBy after.reg keep p := by
  apply dropped.covers _ covered
  intro attr kept i isIndex
  obtain ⟨j, inOrder, rfl⟩ := List.mem_map.mp isIndex
  exact other attr kept j inOrder

theorem Dropped.unlimited {indexes : List Int} {before after : RegionList W} {bytes : Nat}
    (dropped : Dropped indexes before after) (limits : before.Unlimited bytes) :
    after.Unlimited bytes := by
  rw [dropped.rest]
  exact ⟨limits.address, limits.combined, limits.room⟩

/-- The list while slots are still to be entered; `more` bytes come later. -/
structure Reserving (slot : Nat → Nat) (rest : List (Nat × Nat)) (more : Nat)
    (regions : RegionList W) : Prop where
  order : MergeOrder regions.reg
  limits : regions.Unlimited (total slot (rest.map Prod.fst) + more)
  free : ∀ move ∈ rest, FreeIn regions.reg (slot move.1) move.2

/-- The slots of a plan are whole pages, apart from each other. -/
structure PlanApart (slot : Nat → Nat) (plan : List (Nat × Nat)) : Prop where
  pages : ∀ i, 2 ^ pageShift ∣ slot i
  pos : ∀ move ∈ plan, 0 < slot move.1
  aligned : ∀ move ∈ plan, 2 ^ pageShift ∣ move.2
  apart : plan.Pairwise fun a b => a.2 + slot a.1 ≤ b.2 ∨ b.2 + slot b.1 ≤ a.2

theorem PlanApart.later {slot : Nat → Nat} {move : Nat × Nat} {rest : List (Nat × Nat)}
    (slots : PlanApart slot (move :: rest)) : PlanApart slot rest :=
  ⟨slots.pages, fun other inRest => slots.pos other (by simp [inRest]),
    fun other inRest => slots.aligned other (by simp [inRest]),
    (List.pairwise_cons.mp slots.apart).2⟩

/-- Two slots of different modules. -/
theorem PlanApart.beside {slot : Nat → Nat} {plan : List (Nat × Nat)} {i j iDest jDest : Nat}
    (slots : PlanApart slot plan) (iMember : (i, iDest) ∈ plan) (jMember : (j, jDest) ∈ plan)
    (differ : i ≠ j) : iDest + slot i ≤ jDest ∨ jDest + slot j ≤ iDest := by
  have symm : Std.Symm fun a b : Nat × Nat =>
      a.2 + slot a.1 ≤ b.2 ∨ b.2 + slot b.1 ≤ a.2 := ⟨fun _ _ either => either.symm⟩
  exact slots.apart.forall iMember jMember (by simp [differ])

theorem Reserving.dropped {slot : Nat → Nat} {rest : List (Nat × Nat)} {more : Nat}
    {indexes : List Int} {before after : RegionList W}
    (reserving : Reserving slot rest more before) (dropped : Dropped indexes before after) :
    Reserving slot rest more after :=
  ⟨reserving.order.sublist dropped.fewer, dropped.unlimited reserving.limits,
    fun move member => (reserving.free move member).sublist dropped.fewer⟩

/-- A region at the start of the next slot. -/
theorem Reserving.enter {slot : Nat → Nat} {index dest more : Nat} {rest : List (Nat × Nat)}
    {before after : RegionList W} {region : Region W}
    (reserving : Reserving slot ((index, dest) :: rest) more before)
    (plan : PlanApart slot ((index, dest) :: rest)) (two : region.begin < region.last)
    (inside : region.begin = dest ∧ region.last < dest + slot index)
    (added : before.add region = .ok after) :
    RegionList.Added before region after ∧ Reserving slot rest more after := by
  obtain ⟨begins, ends⟩ := inside
  have limits : before.Unlimited (slot index + total slot (rest.map Prod.fst) + more) :=
    reserving.limits
  have aligned := plan.aligned (index, dest) (by simp)
  have entered := RegionList.add_added reserving.order limits two (by omega) aligned
    (plan.pages index) (reserving.free (index, dest) (by simp)) (by omega) added
  refine ⟨entered, entered.order, ?_, ?_⟩
  · apply entered.unlimited
    obtain ⟨address, combined, room⟩ := limits
    exact ⟨address, combined, by omega⟩
  · intro move inRest
    have apart : dest + slot index ≤ move.2 ∨ move.2 + slot move.1 ≤ dest :=
      (List.pairwise_cons.mp plan.apart).1 move inRest
    have pos := plan.pos move (by simp [inRest])
    apply entered.free _ _ (plan.aligned move (by simp [inRest])) (plan.pages move.1) pos
    · exact reserving.free move (by simp [inRest])
    · omega

section

variable {slot : Nat → Nat} {start more : Nat} {order : List Nat} {plan : List (Nat × Nat)}

/-- Consecutive slots, in any order. -/
theorem layout_apart (perm : plan.Perm (layout slot start order)) :
    plan.Pairwise fun a b => a.2 + slot a.1 ≤ b.2 ∨ b.2 + slot b.1 ≤ a.2 := by
  have ascending : (layout slot start order).Pairwise fun a b =>
      a.2 + slot a.1 ≤ b.2 ∨ b.2 + slot b.1 ≤ a.2 := (layout_ascending start order).imp .inl
  exact (perm.pairwise_iff fun either => either.symm).mpr ascending

theorem layout_plan_apart (pages : ∀ i, 2 ^ pageShift ∣ slot i)
    (pos : ∀ move ∈ plan, 0 < slot move.1) (aligned : 2 ^ pageShift ∣ start)
    (perm : plan.Perm (layout slot start order)) : PlanApart slot plan :=
  ⟨pages, pos, fun _ member => layout_aligned aligned pages (perm.subset member),
    layout_apart perm⟩

theorem layout_reserving {regions : RegionList W} (inOrder : MergeOrder regions.reg)
    (limits : regions.Unlimited (total slot order + more))
    (free : FreeIn regions.reg (total slot order) start)
    (perm : plan.Perm (layout slot start order)) : Reserving slot plan more regions := by
  have sum : total slot (plan.map Prod.fst) = total slot order := by
    rw [total_of_perm (perm.map Prod.fst), layout_indexes]
  refine ⟨inOrder, by rw [sum]; exact limits, ?_⟩
  intro move member z inList
  have inside := layout_inside (perm.subset member)
  have := free z inList
  omega

end

/-- What is asked of the slots of a plan. -/
structure SlotsApart (W : Wordsize) (slot : Nat → Nat) (plan : List (Nat × Nat)) : Prop where
  indexes : ∀ move ∈ plan, move.1 < 256
  pages : ∀ i, 2 ^ pageShift ∣ slot i
  aligned : ∀ move ∈ plan, 2 ^ pageShift ∣ move.2
  word : ∀ move ∈ plan, move.2 + slot move.1 < W.modulus
  apart : plan.Pairwise fun a b => a.2 + slot a.1 ≤ b.2 ∨ b.2 + slot b.1 ≤ a.2

section

variable {zlib : Zlib} {s t : Machine W} {index dest more : Nat} {rest plan : List (Nat × Nat)}

/-- Entering one slot. -/
theorem ModuleUnpacked.reserves (step : ModuleUnpacked zlib index dest s t)
    (slots : SlotsApart W s.unpacked ((index, dest) :: rest))
    (pos : ∀ move ∈ rest, 0 < s.unpacked move.1)
    (reserving : Reserving s.unpacked ((index, dest) :: rest) more s.memory.regions) :
    Reserving s.unpacked rest more t.memory.regions ∧
      (∀ keep p, (∀ attr, keep attr → ¬ IsSlotOf index attr) →
        CoveredBy s.memory.regions.reg keep p → CoveredBy t.memory.regions.reg keep p) ∧
      ∀ p, dest ≤ p → p < dest + s.unpacked index →
        CoveredBy t.memory.regions.reg (IsSlotOf index) p := by
  have word : dest + s.unpacked index < W.modulus := slots.word (index, dest) (by simp)
  obtain ⟨indexPos, _, region, begins, ends, name, subType, added⟩ := step.slot (by omega)
  have dropped := drop_mod_region_dropped index s.memory.regions
  have page : 2 ^ pageShift ≤ s.unpacked index := Nat.le_of_dvd indexPos (slots.pages index)
  have pageSize : 2 ≤ 2 ^ pageShift := by decide
  have plan : PlanApart s.unpacked ((index, dest) :: rest) := by
    refine ⟨slots.pages, ?_, slots.aligned, slots.apart⟩
    intro move member
    rcases List.mem_cons.mp member with rfl | inRest
    · exact indexPos
    · exact pos move inRest
  obtain ⟨entered, next⟩ := (reserving.dropped dropped).enter plan (by omega)
    ⟨begins, by omega⟩ added
  refine ⟨next, ?_, ?_⟩
  · intro keep p other covered
    apply entered.covers
    apply dropped.covers _ covered
    intro attr kept i isIndex
    rw [List.mem_singleton.mp isIndex]
    exact other attr kept
  · intro p above below
    refine ⟨region, entered.member, ⟨name, ?_⟩, by omega, by omega⟩
    rw [subType, UInt8.toNat_ofNat', Nat.mod_eq_of_lt (slots.indexes (index, dest) (by simp))]

theorem SlotsApart.later {slot : Nat → Nat} (slots : SlotsApart W slot ((index, dest) :: rest)) :
    SlotsApart W slot rest :=
  ⟨fun move inRest => slots.indexes move (by simp [inRest]), slots.pages,
    fun move inRest => slots.aligned move (by simp [inRest]),
    fun move inRest => slots.word move (by simp [inRest]), (List.pairwise_cons.mp slots.apart).2⟩

theorem Unpackings.slot_pos (steps : Unpackings zlib s plan t)
    (small : ∀ move ∈ plan, s.unpacked move.1 < W.modulus) {move : Nat × Nat}
    (member : move ∈ plan) : 0 < s.unpacked move.1 := by
  induction steps with
  | nil => simp at member
  | @cons s u t index dest rest step _ ih =>
      rcases List.mem_cons.mp member with rfl | inRest
      · exact (step.slot (small (index, dest) (by simp))).1
      · rw [← step.unpacked] at small ⊢
        exact ih (fun other isOther => small other (by simp [isOther])) inRest

/-- Entering all slots. -/
theorem Unpackings.reserves (steps : Unpackings zlib s plan t)
    (distinct : (plan.map Prod.fst).Nodup) (slots : SlotsApart W s.unpacked plan)
    (reserving : Reserving s.unpacked plan more s.memory.regions) :
    Reserving s.unpacked [] more t.memory.regions ∧
      (∀ keep p, (∀ attr, keep attr → ∀ i ∈ plan.map Prod.fst, ¬ IsSlotOf i attr) →
        CoveredBy s.memory.regions.reg keep p → CoveredBy t.memory.regions.reg keep p) ∧
      ∀ move ∈ plan, ∀ p, move.2 ≤ p → p < move.2 + s.unpacked move.1 →
        CoveredBy t.memory.regions.reg (IsSlotOf move.1) p := by
  induction steps with
  | nil s => exact ⟨reserving, fun _ _ _ covered => covered, by simp⟩
  | @cons s u t index dest rest step steps ih =>
      simp only [List.map_cons, List.nodup_cons] at distinct
      have pos : ∀ move ∈ rest, 0 < s.unpacked move.1 := by
        intro move inRest
        rw [← step.unpacked]
        apply steps.slot_pos _ inRest
        intro other isOther
        have := slots.later.word other isOther
        rw [step.unpacked]
        omega
      obtain ⟨next, kept, entered⟩ := step.reserves slots pos reserving
      have later := ih distinct.2
      rw [step.unpacked] at later
      obtain ⟨last, laterKept, laterEntered⟩ := later slots.later next
      refine ⟨last, ?_, ?_⟩
      · intro keep p other covered
        apply laterKept
        · intro attr isKept i inRest
          exact other attr isKept i (by simp [inRest])
        · apply kept _ _ _ covered
          intro attr isKept
          exact other attr isKept index (by simp)
      · intro move member p above below
        rcases List.mem_cons.mp member with rfl | inRest
        · apply laterKept _ _ _ (entered p above below)
          rintro attr ⟨_, isIndex⟩ i inRest ⟨_, isOther⟩
          rw [isIndex] at isOther
          exact distinct.1 (Int.ofNat_inj.mp isOther ▸ inRest)
        · exact laterEntered move inRest p above below

end

/-! ## Moving base modules out of the way -/

/-- Every byte of a module lies in an entry of the region list, which takes `more`
bytes. -/
structure Sheltered (more : Nat) (s : Machine W) : Prop where
  order : MergeOrder s.memory.regions.reg
  limits : s.memory.regions.Unlimited more
  covered : ∀ i < s.mods.length, ∀ p, s.Image i p →
    CoveredBy s.memory.regions.reg (fun _ => True) p

/-- All modules have the contents that they had, and only base modules moved. Bytes in
entries of the list stay. -/
structure SameContents (s t : Machine W) : Prop where
  length : t.mods.length = s.mods.length
  size : ∀ i, (t.module i).size = (s.module i).size
  base : ∀ i, (t.module i).isBaseModule = (s.module i).isBaseModule
  others : ∀ i, (s.module i).isBaseModule = false → t.module i = s.module i
  bytes : ∀ i < s.mods.length, ∀ k < (s.module i).size,
    t.bytes ((t.module i).start + k) = s.bytes ((s.module i).start + k)
  covered : ∀ p, CoveredBy s.memory.regions.reg (fun _ => True) p →
    t.bytes p = s.bytes p ∧ CoveredBy t.memory.regions.reg (fun _ => True) p
  moved : ∀ i, t.module i = s.module i ∨
    ∀ p, CoveredBy s.memory.regions.reg (fun _ => True) p → ¬ t.Image i p

theorem SameContents.refl (s : Machine W) : SameContents s s :=
  ⟨rfl, fun _ => rfl, fun _ => rfl, fun _ _ => rfl, fun _ _ _ _ => rfl,
    fun _ covered => ⟨rfl, covered⟩, fun _ => .inl rfl⟩

theorem SameContents.trans {s t u : Machine W} (first : SameContents s t)
    (second : SameContents t u) : SameContents s u := by
  constructor
  · rw [second.length, first.length]
  · intro i
    rw [second.size, first.size]
  · intro i
    rw [second.base, first.base]
  · intro i notBase
    rw [second.others i (by rw [first.base, notBase]), first.others i notBase]
  · intro i inside k small
    rw [second.bytes i (by rw [first.length]; exact inside) k (by rw [first.size]; exact small),
      first.bytes i inside k small]
  · intro p covered
    obtain ⟨same, still⟩ := first.covered p covered
    obtain ⟨later, last⟩ := second.covered p still
    exact ⟨later.trans same, last⟩
  · intro i
    rcases second.moved i with stays | avoids
    · rcases first.moved i with before | away
      · exact .inl (stays.trans before)
      · right
        intro p covered inImage
        rw [Machine.Image, Machine.imageEnd, stays] at inImage
        exact away p covered inImage
    · exact .inr fun p covered => avoids p (first.covered p covered).2

section

variable {s t : Machine W} {index dest more : Nat}

/-- The rounded size wraps around only to 0. -/
theorem round_size_of_pos {size : Nat} (word : size < W.modulus)
    (pos : 0 < W.roundSize pageShift size) : W.roundSize pageShift size = pageUp size := by
  rw [W.round_size_mod (page_shift_le_bits W)] at pos ⊢
  have upTo : pageUp size ≤ W.modulus :=
    round_up_le (W.pow_dvd_modulus (page_shift_le_bits W)) word.le
  rcases Nat.lt_or_eq_of_le upTo with below | top
  · exact Nat.mod_eq_of_lt below
  · change 0 < pageUp size % W.modulus at pos
    rw [top, Nat.mod_self] at pos
    omega

/-- A module moves to free memory. -/
theorem ModuleMoved.sheltered (moved : ModuleMoved .image index dest s t)
    (inside : index < s.mods.length) (isBase : (s.module index).isBaseModule = true)
    (two : 2 ≤ (s.module index).size) (word : (s.module index).size < W.modulus)
    (placed : s.memory.regions.Placed (W.roundSize pageShift (s.module index).size) pageShift dest)
    (sheltered : Sheltered ((s.module index).size + more) s) :
    Sheltered more t ∧ SameContents s t := by
  obtain ⟨pos, aligned, fits, free⟩ := placed
  have rounded := round_size_of_pos word pos
  rw [rounded] at pos fits free
  have sizeUp : (s.module index).size ≤ pageUp (s.module index).size := le_round_up pageShift _
  have pages : 2 ^ pageShift ∣ pageUp (s.module index).size := dvd_round_up pageShift _
  obtain ⟨region, begins, ends, _, added⟩ := moved.region word
  have size : region.last - region.begin + 1 = (s.module index).size := by omega
  have entered := RegionList.add_added sheltered.order sheltered.limits (by omega) (by omega)
    aligned pages free (by omega) added
  have bytes := moved.bytes
  rw [moved_bytes_eq aligned (by omega)] at bytes
  have kept : ∀ p, CoveredBy s.memory.regions.reg (fun _ => True) p → t.bytes p = s.bytes p := by
    intro p covered
    rw [bytes]
    apply Transfer.frame
    rintro ⟨above, below⟩
    have outside := covered.outside free
    omega
  constructor
  · refine ⟨entered.order, ?_, ?_⟩
    · apply entered.unlimited
      rw [size]
      exact sheltered.limits
    · intro i inTable p inImage
      rw [moved.length] at inTable
      rcases eq_or_ne i index with rfl | apart
      · rw [Machine.Image, Machine.imageEnd, moved.itself inside] at inImage
        simp only at inImage
        exact ⟨region, entered.member, trivial, by omega, by omega⟩
      · rw [Machine.Image, Machine.imageEnd, moved.others apart] at inImage
        exact entered.covers _ _ (sheltered.covered i inTable p inImage)
  · refine ⟨moved.length, moved.size, moved.isBaseModule, ?_, ?_,
      fun p covered => ⟨kept p covered, entered.covers _ _ covered⟩, ?_⟩
    · intro i notBase
      apply moved.others
      rintro rfl
      rw [notBase] at isBase
      cases isBase
    · intro i inTable k small
      rcases eq_or_ne i index with rfl | apart
      · rw [moved.itself inside, bytes]
        exact move_transfer_copies small s.bytes
      · rw [moved.others apart]
        apply kept
        exact sheltered.covered i inTable _ ⟨by omega, by unfold Machine.imageEnd; omega⟩
    · intro i
      rcases eq_or_ne i index with rfl | apart
      · right
        intro p covered inImage
        have outside := covered.outside free
        rw [Machine.Image, Machine.imageEnd, moved.itself inside] at inImage
        obtain ⟨above, below⟩ := inImage
        simp only at above below
        omega
      · exact .inl (moved.others apart)

/-- What a base module adds to the list at most. -/
def Machine.baseSize (s : Machine W) (index : Nat) : Nat :=
  if (s.module index).isBaseModule then (s.module index).size else 0

/-- Filling slots of other modules leaves the base modules as they are. -/
theorem Unpackings.base_size {zlib : Zlib} {plan : List (Nat × Nat)}
    (steps : Unpackings zlib s plan t)
    (others : ∀ move ∈ plan, (s.module move.1).isBaseModule = false) :
    t.baseSize = s.baseSize := by
  funext i
  rw [Machine.baseSize, Machine.baseSize, steps.kind]
  split_ifs with isBase
  · rw [steps.others]
    intro planned
    obtain ⟨move, member, rfl⟩ := List.mem_map.mp planned
    rw [others move member] at isBase
    cases isBase
  · rfl

theorem Sheltered.less {less : Nat} (sheltered : Sheltered (more + less) s) : Sheltered less s := by
  refine ⟨sheltered.order, ⟨sheltered.limits.address, sheltered.limits.combined, ?_⟩,
    sheltered.covered⟩
  have := sheltered.limits.room
  omega

theorem move_out_of_the_way_sheltered (inside : index < s.mods.length)
    (sizes : (s.module index).isBaseModule = true →
      2 ≤ (s.module index).size ∧ (s.module index).size < W.modulus)
    (sheltered : Sheltered (s.baseSize index + more) s)
    (ran : moveOutOfTheWay index s = .ok () t) : Sheltered more t ∧ SameContents s t := by
  simp only [moveOutOfTheWay, get_bind] at ran
  cases isBase : (s.module index).isBaseModule with
  | false =>
      rw [if_pos (by simp [isBase]), pure_ok_iff] at ran
      rw [ran.2]
      exact ⟨sheltered.less, .refl s⟩
  | true =>
      rw [if_neg (by simp [isBase])] at ran
      simp only [CheckedState.bind_ok_iff, lift_ok_iff] at ran
      obtain ⟨mr, _, ⟨_, rfl⟩, ran⟩ := ran
      split_ifs at ran with blocked
      · rw [CheckedState.bind_ok_iff] at ran
        obtain ⟨dest, between, searched, ran⟩ := ran
        obtain ⟨found, same⟩ := find_free_ram_ok searched
        rw [same] at ran
        split_ifs at ran with null
        · exact absurd ran stop_not_ok
        · obtain ⟨two, word⟩ := sizes isBase
          rw [Machine.baseSize, if_pos isBase] at sheltered
          exact (move_module_moved ran).sheltered inside isBase two word
            (Memory.find_free_ram_placed found null) sheltered
      · rw [pure_ok_iff] at ran
        rw [ran.2]
        exact ⟨sheltered.less, .refl _⟩

theorem move_base_modules_sheltered {order : List Nat} (inside : ∀ i ∈ order, i < s.mods.length)
    (sizes : ∀ i ∈ order, (s.module i).isBaseModule = true →
      2 ≤ (s.module i).size ∧ (s.module i).size < W.modulus)
    (sheltered : Sheltered (total s.baseSize order) s)
    (ran : moveBaseModules order s = .ok () t) : SameContents s t := by
  induction order generalizing s with
  | nil =>
      rw [moveBaseModules, pure_ok_iff] at ran
      rw [ran.2]
      exact .refl s
  | cons i rest ih =>
      rw [moveBaseModules, CheckedState.bind_ok_iff] at ran
      obtain ⟨_, u, moved, ran⟩ := ran
      rw [total_cons] at sheltered
      obtain ⟨next, same⟩ := move_out_of_the_way_sheltered (inside i (by simp)) (sizes i (by simp))
        sheltered moved
      have baseSize : u.baseSize = s.baseSize := by
        funext j
        rw [Machine.baseSize, Machine.baseSize, same.base, same.size]
      apply same.trans
      apply ih _ _ _ ran
      · intro j inRest
        rw [same.length]
        exact inside j (by simp [inRest])
      · intro j inRest
        rw [same.base, same.size]
        exact sizes j (by simp [inRest])
      · rw [baseSize]
        exact next

end

end L4Bootstrap
