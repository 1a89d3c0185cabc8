import L4Bootstrap.DecompressContents
import L4Bootstrap.L4mod

/-!
# Decompressing all modules

`decompress_mods` sorts the modules that are not base modules, finds a place for
them, fills the slots and moves base modules out of the way. Its contents arrive
if the region list protects all images while memory is looked for. The table is kept
beside the byte memory, and so the list has to protect its bytes as well.
-/

namespace L4Bootstrap

open MachineWord CheckedState ByteMemory MemoryTransfer

set_option autoImplicit false

variable {W : Wordsize}

theorem CoveredBy.imp {reg : List (Region W)} {keep kept : Attr → Prop} {p : Nat}
    (covered : CoveredBy reg keep p) (weaker : ∀ attr, keep attr → kept attr) :
    CoveredBy reg kept p := by
  obtain ⟨r, member, isKept, inside⟩ := covered
  exact ⟨r, member, weaker _ isKept, inside⟩

/-! ## The slots of a destination -/

/-- The order in which the slots are filled. -/
def fillOrder (slots : List (Nat × Nat)) (fwd : Bool) : List (Nat × Nat) :=
  if fwd then slots else slots.reverse

theorem fill_order_perm (slots : List (Nat × Nat)) (fwd : Bool) :
    (fillOrder slots fwd).Perm slots := by
  unfold fillOrder
  split_ifs
  · exact .refl _
  · exact List.reverse_perm _

section

variable {zlib : Zlib} {plain : List UInt8 → List UInt8} (sound : zlib.Unpacks plain)
  {copyIndex : Nat → Int} {s t : Machine W} {dest : Nat} {fwd : Bool} {regions : RegionList W}

/-- Images are intervals: one that avoids the whole area lies on one side of it. -/
theorem image_beside {index low size : Nat} (nonempty : 1 ≤ (s.module index).size)
    (pos : 0 < size) (avoids : ∀ p, s.Image index p → p < low ∨ low + size ≤ p) :
    s.imageEnd index ≤ low ∨ low + size ≤ (s.module index).start := by
  have ends : s.imageEnd index = (s.module index).start + (s.module index).size := rfl
  have first := avoids (s.module index).start ⟨le_rfl, by omega⟩
  by_contra inside
  have hit := avoids low ⟨by omega, by omega⟩
  omega

/-- A slot and the image of its own module. -/
theorem Destination.own (destination : Destination copyIndex s dest fwd regions)
    (nonempty : ∀ i ∈ s.payload, 1 ≤ (s.module i).size) (pos : 0 < total s.unpacked s.payload)
    {move : Nat × Nat} (member : move ∈ layout s.unpacked dest s.payload) :
    s.imageEnd move.1 ≤ move.2 ∨
      move.2 + (s.module move.1).sizeUncompressed ≤ (s.module move.1).start := by
  have isPayload : move.1 ∈ s.payload := by
    rw [← layout_indexes s.unpacked dest s.payload]
    exact List.mem_map_of_mem member
  have inside := layout_inside member
  have pages : (s.module move.1).sizeUncompressed ≤ s.unpacked move.1 := le_round_up pageShift _
  cases fwd with
  | true =>
      rcases destination.forwards rfl move member with avoids | before
      · rcases image_beside (nonempty _ isPayload) pos avoids with below | above
        · left
          omega
        · right
          omega
      · exact .inr before
  | false => exact .inl (destination.backwards rfl move member)

theorem Destination.clear (destination : Destination copyIndex s dest fwd regions) :
    ((fillOrder (layout s.unpacked dest s.payload) fwd).map (unpackTransfer sound s)).Pairwise
      Transfer.KeepsClear := by
  have pages : ∀ i, (s.module i).sizeUncompressed ≤ s.unpacked i :=
    fun i => le_round_up pageShift _
  have ascending := @layout_ascending s.unpacked dest s.payload
  rw [List.pairwise_map]
  cases fwd with
  | true =>
      apply ascending.imp_of_mem
      intro early late earlyMember lateMember order
      have earlyPages := pages early.1
      have lateInside := layout_inside lateMember
      have earlyInside := layout_inside earlyMember
      constructor
      · rintro a ⟨above, below⟩ ⟨inAbove, inBelow⟩
        rcases destination.forwards rfl late lateMember with avoids | before
        · have := avoids a ⟨above, below⟩
          omega
        · omega
      · rintro a ⟨above, below⟩ ⟨inAbove, inBelow⟩
        omega
  | false =>
      simp only [fillOrder, Bool.false_eq_true, if_false, List.pairwise_reverse]
      apply ascending.imp_of_mem
      intro late early lateMember earlyMember order
      have latePages := pages late.1
      have behind := destination.backwards rfl late lateMember
      constructor
      · rintro a ⟨above, below⟩ ⟨inAbove, inBelow⟩
        omega
      · rintro a ⟨above, below⟩ ⟨inAbove, inBelow⟩
        omega

theorem Destination.slots (destination : Destination copyIndex s dest fwd regions)
    (indexes : ∀ i ∈ s.payload, i < 256)
    (word : dest + total s.unpacked s.payload < W.modulus) :
    SlotsApart W s.unpacked (fillOrder (layout s.unpacked dest s.payload) fwd) := by
  have perm := fill_order_perm (layout s.unpacked dest s.payload) fwd
  refine ⟨?_, unpacked_dvd s, ?_, ?_, layout_apart perm⟩
  · intro move member
    apply indexes
    rw [← layout_indexes s.unpacked dest s.payload]
    exact List.mem_map_of_mem (perm.subset member)
  · intro move member
    exact layout_aligned destination.aligned (unpacked_dvd s) (perm.subset member)
  · intro move member
    have := layout_inside (perm.subset member)
    omega

theorem Destination.reserving {more : Nat} (destination : Destination copyIndex s dest fwd regions)
    (order : MergeOrder s.memory.regions.reg)
    (limits : s.memory.regions.Unlimited (total s.unpacked s.payload + more)) :
    Reserving s.unpacked (fillOrder (layout s.unpacked dest s.payload) fwd) more regions :=
  layout_reserving (order.sublist destination.dropped.fewer)
    (destination.dropped.unlimited limits) destination.free (fill_order_perm _ fwd)

end

/-! ## The whole function -/

theorem decompressed_size_eq (s : Machine W) :
    decompressedSize W s.mods = total s.unpacked s.payload % W.modulus := by
  suffices general : ∀ (order : List Nat) (start : Nat),
      (order.map s.module).foldl (fun total mod =>
        if mod.isBaseModule then total else W.add total (roundPage W mod.sizeUncompressed))
        (start % W.modulus) = (start + total s.unpacked
          (order.filter fun i => !(s.module i).isBaseModule)) % W.modulus by
    have whole := general (List.range s.mods.length) 0
    rw [← mods_eq_map, Nat.zero_mod, Nat.zero_add] at whole
    exact whole
  intro order
  induction order with
  | nil =>
      intro start
      rfl
  | cons i rest ih =>
      intro start
      rw [List.map_cons, List.foldl_cons]
      cases isBase : (s.module i).isBaseModule with
      | true =>
          rw [if_pos rfl, ih, List.filter_cons_of_neg (by simp [isBase])]
      | false =>
          have step : W.add (start % W.modulus) (roundPage W (s.module i).sizeUncompressed) =
              (start + s.unpacked i) % W.modulus := by
            rw [round_page_mod, Wordsize.add, ← Nat.add_mod]
            rfl
          rw [if_neg (by simp), step, ih, List.filter_cons_of_pos (by simp [isBase]), total_cons,
            Nat.add_assoc]

/-- The table as the image builder emits it: images in ascending order, none of
them empty. -/
structure PayloadInOrder (s : Machine W) : Prop where
  ascending : s.payload.Pairwise fun i j => s.imageEnd i ≤ (s.module j).start
  nonempty : ∀ i ∈ s.payload, 1 ≤ (s.module i).size

theorem mem_payload {s : Machine W} {i : Nat} :
    i ∈ s.payload ↔ i < s.mods.length ∧ (s.module i).isBaseModule = false := by
  rw [Machine.payload, List.mem_filter, List.mem_range]
  simp

/-- Sorting leaves a table in order alone. -/
theorem sort_payload {s t : Machine W} (fresh : s.sorter = []) (inOrder : PayloadInOrder s)
    (ran : sortModules s.payload s = .ok () t) : t = { s with sorter := s.payload } := by
  obtain ⟨sorter, rfl, perm, sorted⟩ := sort_modules_ok (by rw [fresh]; exact .nil) ran
  rw [fresh, List.append_nil] at perm
  have strict : s.payload.Pairwise fun i j => (s.module i).start < (s.module j).start := by
    apply inOrder.ascending.imp_of_mem
    intro i j iMember _ below
    have := inOrder.nonempty i iMember
    unfold Machine.imageEnd at below
    omega
  have distinct : ∀ i ∈ s.payload, ∀ j ∈ s.payload,
      (s.module i).start = (s.module j).start → i = j := by
    have symm : Std.Symm fun i j => (s.module i).start ≠ (s.module j).start :=
      ⟨fun _ _ differ => differ.symm⟩
    have differ : s.payload.Pairwise fun i j => (s.module i).start ≠ (s.module j).start :=
      strict.imp Nat.ne_of_lt
    intro i iMember j jMember equal
    by_contra apart
    exact differ.forall iMember jMember apart equal
  have same : sorter = s.payload := by
    apply List.Perm.eq_of_pairwise _ sorted (strict.imp Nat.le_of_lt) perm
    intro i j iMember jMember below above
    exact distinct i (perm.subset iMember) j jMember (le_antisymm below above)
  rw [same]

/-- The region list protects the modules: images that are still to be read, base
modules independently of what is dropped, the descriptors (header, table and texts) in
other entries than those of modules, and with room for the new entries. -/
structure Guarded (copyIndex : Nat → Int) (descriptors : List Area) (s : Machine W) :
    Prop where
  indexes : ∀ i ∈ s.payload, i < 256
  payload : ∀ i ∈ s.payload, ∀ p, s.Image i p →
    CoveredBy s.memory.regions.reg (fun _ => True) p
  base : ∀ i < s.mods.length, (s.module i).isBaseModule = true → ∀ p, s.Image i p →
    CoveredBy s.memory.regions.reg
      (fun attr => ∀ j ∈ s.payload, ¬ IsSlotOf j attr ∧ ¬ IsSlotOf (copyIndex j) attr) p
  descriptors : ∀ p, InAreas descriptors p →
    CoveredBy s.memory.regions.reg (fun attr => attr.name ≠ .modReg) p
  baseSizes : ∀ i < s.mods.length, (s.module i).isBaseModule = true →
    2 ≤ (s.module i).size ∧ (s.module i).size < W.modulus
  order : MergeOrder s.memory.regions.reg
  limits : s.memory.regions.Unlimited
    (total s.unpacked s.payload + total s.baseSize (List.range s.mods.length))
  bounded : s.memory.Bounded
  fits : s.rightEnd 0 s.payload < W.modulus

/-- The slots of `plan` are filled one after the other, and none of them touches its
own image or one that is still to be read. -/
structure ReadBeforeWritten (zlib : Zlib) (s t : Machine W) (plan : List (Nat × Nat)) : Prop where
  steps : Unpackings zlib s plan t
  own : ∀ move ∈ plan, s.imageEnd move.1 ≤ move.2 ∨
    move.2 + (s.module move.1).sizeUncompressed ≤ (s.module move.1).start
  later : plan.Pairwise fun early late => ∀ p, s.Image late.1 p →
    p < early.2 ∨ early.2 + (s.module early.1).sizeUncompressed ≤ p

/-- The contents have arrived: those of the modules that are not base modules in
slots of RAM of their own, those of the base modules wherever these are now. No
module has been put on the descriptors. -/
structure Delivered (zlib : Zlib) (plain : List UInt8 → List UInt8) (descriptors : List Area)
    (s t : Machine W) : Prop where
  length : t.mods.length = s.mods.length
  contents : ∀ i ∈ s.payload, (t.module i).size = (s.module i).sizeUncompressed ∧
    (s.contents plain i).length = (s.module i).sizeUncompressed ∧
    Holds t.bytes (t.module i).start (s.contents plain i)
  apart : s.payload.Pairwise fun i j =>
    (t.module i).start + s.unpacked i ≤ (t.module j).start
  ram : ∀ i ∈ s.payload, ∃ rr ∈ s.memory.ram.reg, rr.begin ≤ (t.module i).start ∧
    (t.module i).start + s.unpacked i - 1 ≤ rr.last
  base : ∀ i < s.mods.length, (s.module i).isBaseModule = true →
    (t.module i).size = (s.module i).size ∧ ∀ k < (s.module i).size,
      t.bytes ((t.module i).start + k) = s.bytes ((s.module i).start + k)
  descriptors : ∀ p, InAreas descriptors p → t.bytes p = s.bytes p ∧
    ∀ i < s.mods.length, t.module i = s.module i ∨ ¬ t.Image i p
  writes : ∃ found filled plan, found.bytes = s.bytes ∧ found.mods = s.mods ∧
    (plan.map Prod.fst).Perm s.payload ∧ ReadBeforeWritten zlib found filled plan ∧
    moveBaseModules (List.range s.mods.length) filled = .ok () t

/-- The steps of `decompress_mods`. -/
theorem decompress_mods_ok {zlib : Zlib} {copyIndex : Nat → Int} {s t : Machine W}
    {totalSize modAddr : Nat} (ran : decompressMods zlib copyIndex totalSize modAddr s = .ok () t) :
    ∃ sorted dest fwd found filled, sortModules s.payload s = .ok () sorted ∧
      chooseDestination copyIndex totalSize modAddr sorted = .ok (dest, fwd) found ∧ dest ≠ 0 ∧
      uncompressAll zlib dest totalSize fwd found = .ok () filled ∧
      moveBaseModules (List.range s.mods.length) filled = .ok () t := by
  simp only [decompressMods, get_bind, CheckedState.bind_ok_iff, lift_ok_iff] at ran
  obtain ⟨_, _, ⟨_, rfl⟩, _, sorted, isSorted, ⟨dest, fwd⟩, found, chosen, ran⟩ := ran
  simp only at ran
  split_ifs at ran with null
  · exact absurd ran stop_not_ok
  · rw [CheckedState.bind_ok_iff] at ran
    obtain ⟨_, filled, isFilled, moved⟩ := ran
    exact ⟨sorted, dest, fwd, found, filled, isSorted, chosen, null, isFilled, moved⟩

section

variable {zlib : Zlib} {copyIndex : Nat → Int} {descriptors : List Area} {s t : Machine W}
  {dest : Nat} {fwd : Bool} {regions : RegionList W}

/-- Filling the slots follows the layout. -/
theorem uncompress_all_layout (payload : s.IsPayload s.sorter) (below : dest < W.modulus)
    (small : total s.unpacked s.sorter < W.modulus)
    (fits : dest + total s.unpacked s.sorter ≤ W.modulus)
    (ran : uncompressAll zlib dest (total s.unpacked s.sorter) fwd s = .ok () t) :
    Unpackings zlib s (fillOrder (layout s.unpacked dest s.sorter) fwd) t := by
  simp only [uncompressAll, get_bind] at ran
  cases fwd with
  | true =>
      apply uncompress_forwards_layout payload small fits
      rw [Nat.mod_eq_of_lt below]
      exact ran
  | false =>
      simp only [Bool.false_eq_true, if_false] at ran
      exact uncompress_backwards_layout payload small fits ran

/-- Behind the destination there is a page of the address space. -/
theorem Destination.word (destination : Destination copyIndex s dest fwd regions)
    (bounded : s.memory.Bounded) : dest + total s.unpacked s.payload < W.modulus := by
  obtain ⟨rr, inRam, _, ends⟩ := destination.ram
  have top := bounded.ram rr inRam
  have pagePos := Nat.two_pow_pos pageShift
  omega

/-- The indexes of the plan are those of the payload, each once. -/
theorem fill_order_indexes (s : Machine W) (dest : Nat) (fwd : Bool) :
    ((fillOrder (layout s.unpacked dest s.payload) fwd).map Prod.fst).Perm s.payload := by
  have mapped := (fill_order_perm (layout s.unpacked dest s.payload) fwd).map Prod.fst
  rwa [layout_indexes] at mapped

theorem fill_order_nodup (s : Machine W) (dest : Nat) (fwd : Bool) :
    ((fillOrder (layout s.unpacked dest s.payload) fwd).map Prod.fst).Nodup :=
  (fill_order_indexes s dest fwd).nodup_iff.mpr (List.nodup_range.filter _)

/-- Filling the slots enters them into the list and leaves the base modules in
entries. -/
theorem filled_sheltered (guarded : Guarded copyIndex descriptors s)
    (destination : Destination copyIndex s dest fwd regions)
    (steps : Unpackings zlib (s.withRegions regions)
      (fillOrder (layout s.unpacked dest s.payload) fwd) t) :
    Sheltered (total s.baseSize (List.range s.mods.length)) t := by
  have indexes := fill_order_indexes s dest fwd
  have distinct := fill_order_nodup s dest fwd
  obtain ⟨reserved, kept, entered⟩ := steps.reserves distinct
    (destination.slots guarded.indexes (destination.word guarded.bounded))
    (destination.reserving guarded.order guarded.limits)
  have limits := reserved.limits
  rw [List.map_nil, total_nil, Nat.zero_add] at limits
  refine ⟨reserved.order, limits, ?_⟩
  intro i inTable p inImage
  rw [steps.length] at inTable
  change i < s.mods.length at inTable
  cases isBase : (s.module i).isBaseModule with
  | true =>
      have apart : i ∉ (fillOrder (layout s.unpacked dest s.payload) fwd).map Prod.fst := by
        rw [indexes.mem_iff, mem_payload, isBase]
        simp
      rw [Machine.Image, Machine.imageEnd, steps.others apart] at inImage
      have covered := guarded.base i inTable isBase p inImage
      have left := destination.dropped.spares (fun attr isKept j member => (isKept j member).2)
        covered
      obtain ⟨r, member, _, inside⟩ := kept _ p
        (fun attr isKept j inPlan => (isKept j (indexes.subset inPlan)).1) left
      exact ⟨r, member, trivial, inside⟩
  | false =>
      have isPlanned : i ∈ (fillOrder (layout s.unpacked dest s.payload) fwd).map Prod.fst :=
        indexes.mem_iff.mpr (mem_payload.mpr ⟨inTable, isBase⟩)
      obtain ⟨⟨j, slot⟩, member, rfl⟩ := List.mem_map.mp isPlanned
      have planned := steps.planned distinct member inTable
      rw [Machine.Image, Machine.imageEnd, planned] at inImage
      simp only at inImage inTable
      have pages : (s.module j).sizeUncompressed ≤ s.unpacked j := le_round_up pageShift _
      have above : slot ≤ p := inImage.1
      have below : p < slot + (s.module j).sizeUncompressed := inImage.2
      obtain ⟨r, isEntry, _, inside⟩ := entered (j, slot) member p above
        (below.trans_le (Nat.add_le_add_left pages slot))
      exact ⟨r, isEntry, trivial, inside⟩

/-- The entries of the descriptors are not dropped, so that the destination avoids them. -/
theorem Destination.avoids (destination : Destination copyIndex s dest fwd regions)
    (guarded : Guarded copyIndex descriptors s) {p : Nat} (described : InAreas descriptors p) :
    CoveredBy regions.reg (fun attr => attr.name ≠ .modReg) p ∧
      (p < dest ∨ dest + total s.unpacked s.payload ≤ p) := by
  have left := destination.dropped.spares (fun _ foreign _ _ slot => foreign slot.1)
    (guarded.descriptors p described)
  exact ⟨left, left.outside destination.free⟩

theorem filled_kept (guarded : Guarded copyIndex descriptors s)
    (destination : Destination copyIndex s dest fwd regions)
    (steps : Unpackings zlib (s.withRegions regions)
      (fillOrder (layout s.unpacked dest s.payload) fwd) t) {p : Nat}
    (left : CoveredBy regions.reg (fun attr => attr.name ≠ .modReg) p) :
    CoveredBy t.memory.regions.reg (fun attr => attr.name ≠ .modReg) p := by
  obtain ⟨_, kept, _⟩ := steps.reserves (fill_order_nodup s dest fwd)
    (destination.slots guarded.indexes (destination.word guarded.bounded))
    (destination.reserving guarded.order guarded.limits)
  exact kept _ p (fun _ foreign _ _ slot => foreign slot.1) left

/-- Filling the slots reads before it writes. -/
theorem filled_reads {plain : List UInt8 → List UInt8} (sound : zlib.Unpacks plain)
    (nonempty : ∀ i ∈ s.payload, 1 ≤ (s.module i).size)
    (word : dest + total s.unpacked s.payload < W.modulus)
    (destination : Destination copyIndex s dest fwd regions)
    (steps : Unpackings zlib (s.withRegions regions)
      (fillOrder (layout s.unpacked dest s.payload) fwd) t) :
    ReadBeforeWritten zlib (s.withRegions regions) t
      (fillOrder (layout s.unpacked dest s.payload) fwd) := by
  have perm := fill_order_perm (layout s.unpacked dest s.payload) fwd
  refine ⟨steps, ?_, ?_⟩
  · intro move member
    have inLayout := perm.subset member
    have inside := layout_inside inLayout
    have slotPos : 0 < s.unpacked move.1 := by
      apply steps.slot_pos _ member
      intro other isOther
      have := layout_inside (perm.subset isOther)
      change s.unpacked other.1 < W.modulus
      omega
    exact destination.own nonempty (by omega) inLayout
  · have clear := destination.clear sound
    rw [List.pairwise_map] at clear
    apply clear.imp
    intro early late keeps p inImage
    have outside := keeps.source p inImage
    simp only [unpackTransfer, Set.mem_Ico, not_and, not_lt] at outside
    change p < early.2 ∨ early.2 + (s.module early.1).sizeUncompressed ≤ p
    omega

/-- A byte outside of the destination stays. -/
theorem filled_frame {plain : List UInt8 → List UInt8} (sound : zlib.Unpacks plain)
    (steps : Unpackings zlib (s.withRegions regions)
      (fillOrder (layout s.unpacked dest s.payload) fwd) t) {p : Nat}
    (outside : p < dest ∨ dest + total s.unpacked s.payload ≤ p) : t.bytes p = s.bytes p := by
  rw [steps.bytes sound (fill_order_nodup s dest fwd)]
  apply run_all_frame
  intro transfer member
  obtain ⟨move, inPlan, rfl⟩ := List.mem_map.mp member
  have inside := layout_inside ((fill_order_perm _ fwd).subset inPlan)
  have pages : (s.module move.1).sizeUncompressed ≤ s.unpacked move.1 := le_round_up pageShift _
  rintro ⟨above, below⟩
  change p < move.2 + (s.module move.1).sizeUncompressed at below
  omega

/-- The slot of each module. -/
theorem filled_slot (steps : Unpackings zlib (s.withRegions regions)
    (fillOrder (layout s.unpacked dest s.payload) fwd) t) {move : Nat × Nat}
    (member : move ∈ layout s.unpacked dest s.payload) :
    t.module move.1 =
      { s.module move.1 with start := move.2, size := (s.module move.1).sizeUncompressed } := by
  have isPayload : move.1 ∈ s.payload := by
    rw [← layout_indexes s.unpacked dest s.payload]
    exact List.mem_map_of_mem member
  exact steps.planned (fill_order_nodup s dest fwd)
    ((fill_order_perm _ fwd).mem_iff.mpr member) (mem_payload.mp isPayload).1

/-- What filling the slots and moving the base modules leave behind. -/
theorem delivered_of_filled {plain : List UInt8 → List UInt8} {filled : Machine W}
    (sound : zlib.Unpacks plain) (nonempty : ∀ i ∈ s.payload, 1 ≤ (s.module i).size)
    (guarded : Guarded copyIndex descriptors s)
    (destination : Destination copyIndex s dest fwd regions)
    (steps : Unpackings zlib (s.withRegions regions)
      (fillOrder (layout s.unpacked dest s.payload) fwd) filled)
    (ran : moveBaseModules (List.range s.mods.length) filled = .ok () t) :
    Delivered zlib plain descriptors s t := by
  have word := destination.word guarded.bounded
  have reads := filled_reads sound nonempty word destination steps
  have indexes := fill_order_indexes s dest fwd
  have others : ∀ i, (s.module i).isBaseModule = true → filled.module i = s.module i := by
    intro i isBase
    apply steps.others
    rw [indexes.mem_iff, mem_payload, isBase]
    simp
  have slots : ∀ move ∈ layout s.unpacked dest s.payload, filled.module move.1 =
      { s.module move.1 with start := move.2, size := (s.module move.1).sizeUncompressed } :=
    fun move member => filled_slot steps member
  have slotOf : ∀ i ∈ s.payload, ∃ start, (i, start) ∈ layout s.unpacked dest s.payload :=
    fun i isPayload => layout_slot_of isPayload
  have kinds : ∀ i, (filled.module i).isBaseModule = (s.module i).isBaseModule := steps.kind
  have same : SameContents filled t := by
    have baseSize : filled.baseSize = s.baseSize := steps.base_size fun move member =>
      (mem_payload.mp (indexes.subset (List.mem_map_of_mem member))).2
    apply move_base_modules_sheltered _ _ _ ran
    · intro i member
      rw [steps.length]
      exact List.mem_range.mp member
    · intro i member isBase
      rw [kinds i] at isBase
      rw [others i isBase]
      exact guarded.baseSizes i (List.mem_range.mp member) isBase
    · rw [baseSize]
      exact filled_sheltered guarded destination steps
  have still : ∀ i ∈ s.payload, t.module i = filled.module i := by
    intro i isPayload
    obtain ⟨inTable, notBase⟩ := mem_payload.mp isPayload
    exact same.others i (by rw [kinds i, notBase])
  have placed : ∀ move ∈ layout s.unpacked dest s.payload,
      (t.module move.1).start = move.2 := by
    intro move member
    have isPayload : move.1 ∈ s.payload := by
      rw [← layout_indexes s.unpacked dest s.payload]
      exact List.mem_map_of_mem member
    rw [still _ isPayload, slots move member]
  refine ⟨?_, ?_, ?_, ?_, ?_, ?_, ?_⟩
  · rw [same.length, steps.length]
    rfl
  · intro i isPayload
    obtain ⟨inTable, notBase⟩ := mem_payload.mp isPayload
    obtain ⟨start, member⟩ := slotOf i isPayload
    have inPlan := (fill_order_perm (layout s.unpacked dest s.payload) fwd).mem_iff.mpr member
    obtain ⟨length, held⟩ := steps.contents sound (fill_order_nodup s dest fwd)
      (destination.clear sound) inPlan (reads.own _ inPlan)
    have size : (t.module i).size = (s.module i).sizeUncompressed := by
      rw [still i isPayload, slots _ member]
    refine ⟨size, length, held.moved ?_⟩
    intro k inside
    have bytes := same.bytes i (by rw [steps.length]; exact inTable) k (by
      rw [slots _ member]
      exact inside.trans_eq length)
    rw [slots _ member] at bytes
    exact bytes
  · have ascending := @layout_ascending s.unpacked dest s.payload
    have mapped : ((layout s.unpacked dest s.payload).map Prod.fst).Pairwise fun i j =>
        (t.module i).start + s.unpacked i ≤ (t.module j).start := by
      rw [List.pairwise_map]
      apply ascending.imp_of_mem
      intro a b aMember bMember below
      rw [placed a aMember, placed b bMember]
      exact below
    rwa [layout_indexes] at mapped
  · intro i isPayload
    obtain ⟨start, member⟩ := slotOf i isPayload
    obtain ⟨rr, inRam, begins, ends⟩ := destination.ram
    have inside : dest ≤ start ∧ start + s.unpacked i ≤ dest + total s.unpacked s.payload :=
      layout_inside member
    have isStart : (t.module i).start = start := placed _ member
    exact ⟨rr, inRam, by omega, by omega⟩
  · intro i inTable isBase
    have size := same.size i
    rw [others i isBase] at size
    refine ⟨size, ?_⟩
    intro k inside
    have bytes := same.bytes i (by rw [steps.length]; exact inTable) k (by
      rw [others i isBase]
      exact inside)
    rw [others i isBase] at bytes
    rw [bytes]
    apply filled_frame sound steps
    have covered := guarded.base i inTable isBase ((s.module i).start + k)
      ⟨by omega, by unfold Machine.imageEnd; omega⟩
    exact (destination.dropped.spares (fun attr isKept j member => (isKept j member).2)
      covered).outside destination.free
  · intro p described
    obtain ⟨left, outside⟩ := destination.avoids guarded described
    have covered := (filled_kept guarded destination steps left).imp fun _ _ => trivial
    refine ⟨(same.covered p covered).1.trans (filled_frame sound steps outside), ?_⟩
    intro i inTable
    cases isBase : (s.module i).isBaseModule with
    | true =>
        rcases same.moved i with stays | avoids
        · exact .inl (stays.trans (others i isBase))
        · exact .inr (avoids p covered)
    | false =>
        right
        have isPayload := mem_payload.mpr ⟨inTable, isBase⟩
        obtain ⟨start, member⟩ := slotOf i isPayload
        have inside : dest ≤ start ∧ start + s.unpacked i ≤ dest + total s.unpacked s.payload :=
          layout_inside member
        have pages : (s.module i).sizeUncompressed ≤ s.unpacked i := le_round_up pageShift _
        have isSlot : filled.module i =
            { s.module i with start := start, size := (s.module i).sizeUncompressed } :=
          slots _ member
        rw [Machine.Image, Machine.imageEnd, still i isPayload, isSlot]
        rintro ⟨above, below⟩
        simp only at above below
        omega
  · exact ⟨s.withRegions regions, filled, _, rfl, rfl, indexes, reads, ran⟩

end

/-! ## Modules in RAM -/

/-- A library that knows one stream. -/
def Zlib.single (stream contents : List UInt8) : Zlib where
  ready := true
  inflate start size dest n bytes :=
    if readList bytes start size = stream ∧ contents.length = n then
      ⟨true, 0, writeList dest contents bytes⟩
    else ⟨false, n, bytes⟩

theorem read_list_congr {bytes other : Bytes} {start size : Nat}
    (same : ∀ a, start ≤ a → a < start + size → bytes a = other a) :
    readList bytes start size = readList other start size := by
  have held : Holds bytes start (readList other start size) := by
    apply holds_read_list.frame
    rw [length_read_list]
    exact same
  have read := held.read_list
  rwa [length_read_list] at read

theorem single_unpacks (stream contents : List UInt8) :
    (Zlib.single stream contents).Unpacks fun _ => contents := by
  constructor
  · intro start size dest n bytes a outside
    simp only [Zlib.single]
    split_ifs with known
    · exact write_list_outside (by omega)
    · rfl
  · intro start size dest n bytes other same
    simp only [Zlib.single, read_list_congr same]
    split_ifs with known
    · refine ⟨rfl, ?_⟩
      intro _ a above below
      change writeList dest contents bytes a = writeList dest contents other a
      unfold writeList
      rw [if_pos (by omega), if_pos (by omega)]
    · exact ⟨rfl, nofun⟩
  · intro start size dest n bytes _ complete
    simp only [Zlib.single] at complete ⊢
    split_ifs at complete ⊢ with known
    · exact ⟨known.2, holds_write_list⟩
    · cases complete

/-- Zeros as `gzip` packs them. -/
def packedZeros : List UInt8 :=
  [0x1f, 0x8b, 0x08, 0x00, 0x00, 0x00, 0x00, 0x00, 0x02, 0x03, 0xed, 0xc1, 0x01, 0x0d, 0x00, 0x00,
    0x00, 0xc2, 0xa0, 0xf7, 0x4f, 0x6d, 0x0f, 0x07, 0x14, 0x00, 0x00, 0x00, 0x00, 0x00, 0xf0, 0x66,
    0x3f, 0xc3, 0xfe, 0xca, 0x00, 0x18, 0x00, 0x00]

/-- An image within one entry. -/
theorem covered_image {s : Machine W} {index : Nat} {keep : Attr → Prop}
    (within : ∃ r ∈ s.memory.regions.reg, keep r.attr ∧ r.begin ≤ (s.module index).start ∧
      s.imageEnd index ≤ r.last + 1) :
    ∀ p, s.Image index p → CoveredBy s.memory.regions.reg keep p := by
  obtain ⟨r, member, kept, begins, ends⟩ := within
  rintro p ⟨above, below⟩
  exact ⟨r, member, kept, by omega, by omega⟩

/-- The header, the table of five modules and their texts. -/
def fiveDescriptors : List Area := [(0x1000, 56), (0x1038, 480), (0x1218, 0x80)]

/-- The answer of `index ()` for a copy on a stack that lies far behind the table. -/
def stackCopies (_ : Nat) : Int := 12000

/-- Three base modules and two others in RAM, before any of them has a region. -/
def fiveModules (bytes : Bytes) (first second : ModInfo) : Machine .w64 where
  bytes := bytes
  memory := {
    ram := Memory.unlimited [.fixed 0x1000 0xffff {} (.refl true)]
    sysalloc := Memory.unlimited [.fixed 0 0xfffff {} (.refl true)]
    regions := Memory.unlimited []
    validate := none }
  mods := [⟨0x2000, 0x400, 0x400, .kernel⟩, ⟨0x2400, 0x400, 0x400, .sigma0⟩,
    ⟨0x2800, 0x400, 0x400, .roottask⟩, first, second]
  sorter := []

/-- The entries of the descriptors and of the base modules. -/
def baseRegions : List (Region .w64) := [
  .fixed 0x1000 0x1fff { name := .literal ".modinfo", type := .boot } (.refl true),
  .fixed 0x2000 0x23ff { name := .modReg, type := .boot, subType := 0 } (.refl true),
  .fixed 0x2400 0x27ff { name := .modReg, type := .boot, subType := 1 } (.refl true),
  .fixed 0x2800 0x2bff { name := .modReg, type := .boot, subType := 2 } (.refl true)]

/-- The second module lies where the first one is unpacked to. -/
def packedModules : Machine .w64 :=
  (fiveModules (writeList 0x3000 packedZeros fun a => UInt8.ofNat a)
    ⟨0x3000, 40, 0x1800, .unspec⟩ ⟨0x3800, 0x1000, 0x1000, .unspec⟩).withRegions
    { Memory.unlimited (baseRegions ++ [
        ⟨0x3000, 0x3027, { name := .modReg, type := .boot, subType := 3 }, by decide, by decide⟩,
        ⟨0x3800, 0x47ff, { name := .modReg, type := .boot, subType := 4 }, by decide, by decide⟩])
      with combinedSize := 11304 }

theorem packed_modules_guarded : Guarded stackCopies fiveDescriptors packedModules := by
  have payload : packedModules.payload = [3, 4] := by decide +kernel
  constructor
  · rw [payload]
    decide
  · intro i isPayload
    apply covered_image
    revert i
    rw [payload]
    decide +kernel
  · intro i inTable isBase
    apply covered_image
    rw [payload]
    revert i
    decide +kernel
  · have entry : ∃ r ∈ packedModules.memory.regions.reg, r.attr.name ≠ .modReg ∧
        ∀ area ∈ fiveDescriptors, r.begin ≤ area.1 ∧ area.1 + area.2 ≤ r.last + 1 := by
      decide +kernel
    obtain ⟨r, member, foreign, within⟩ := entry
    rintro p ⟨area, inAreas, above, below⟩
    have := within area inAreas
    exact ⟨r, member, foreign, by omega, by omega⟩
  · decide +kernel
  · exact ⟨by decide +kernel, by decide +kernel⟩
  · exact ⟨rfl, rfl, by decide +kernel⟩
  · refine ⟨by unfold BelowTop; decide +kernel, by unfold BelowTop; decide +kernel, ?_⟩
    intro area node narrowed isNarrowed
    cases isNarrowed
    exact ⟨le_rfl, le_rfl⟩
  · decide +kernel

/-- A module of one byte behind a larger one. -/
def oneByteModule : Machine .w64 :=
  fiveModules (fun a => UInt8.ofNat (a / 0x1000))
    ⟨0x3000, 0x2000, 0x2000, .unspec⟩ ⟨0x6000, 1, 1, .unspec⟩

end L4Bootstrap
