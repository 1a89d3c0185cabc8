import L4Bootstrap.ModuleEntries

/-!
# The placed modules stay apart

`construct_mbi` keeps the modules apart from each other, from the entries of anything else
and from its block if the list knows every module when memory is looked for. The list
forgets a module of one byte when it is moved, and a compressing build leaves up to three
modules where they are.
-/

namespace L4Bootstrap

open MachineWord CheckedState

set_option autoImplicit false

variable {W : Wordsize}

/-! ## Placed and waiting modules -/

/-- The entry that `init_mod_regions` makes of a module. -/
structure Machine.OwnEntry (s : Machine W) (index : Nat) (e : Region W) : Prop where
  made : (s.module index).region index = .ok e
  begins : e.begin = (s.module index).start
  ends : e.last + 1 = s.imageEnd index

theorem own_entry {s : Machine W} {index : Nat} {e : Region W}
    (made : (s.module index).region index = .ok e) (word : (s.module index).size < W.modulus) :
    s.OwnEntry index e := by
  have pos := (Region.start_size_ok.mp made).1
  obtain ⟨_, begins, ends, _⟩ := Region.start_size_last made word
  refine ⟨made, begins, ?_⟩
  unfold Machine.imageEnd
  change 0 < (s.module index).size at pos
  change e.last = (s.module index).start + (s.module index).size - 1 at ends
  omega

namespace Machine.OwnEntry

variable {s : Machine W} {index : Nat} {e : Region W}

theorem attr (own : s.OwnEntry index e) :
    e.attr = { name := .modReg, type := .boot, subType := UInt8.ofNat index } :=
  (Region.start_size_ok.mp own.made).2.2.2

theorem inside_iff (own : s.OwnEntry index e) {p : Nat} :
    s.Image index p ↔ e.begin ≤ p ∧ p ≤ e.last := by
  have begins := own.begins
  have ends := own.ends
  unfold Machine.Image
  omega

/-- The subtypes of entries are the indexes as long as these have eight bits. -/
theorem slot_of (own : s.OwnEntry index e) (small : index < 256) {other : Int} :
    IsSlotOf other e.attr ↔ other = index := by
  rw [own.attr]
  unfold IsSlotOf
  rw [UInt8.toNat_ofNat', Nat.mod_eq_of_lt small]
  exact ⟨fun ⟨_, same⟩ => same.symm, fun same => ⟨rfl, same.symm⟩⟩

theorem congr {t : Machine W} (own : s.OwnEntry index e) (same : t.module index = s.module index) :
    t.OwnEntry index e := by
  refine ⟨?_, ?_, ?_⟩
  · rw [same]
    exact own.made
  · rw [same]
    exact own.begins
  · unfold Machine.imageEnd
    rw [same]
    exact own.ends

end Machine.OwnEntry

/-- The modules that do not wait are placed. Those that wait still lie on their own entries. -/
structure Lodged (ground : Nat → Prop) (waiting : List Nat) (more : Nat) (s : Machine W) :
    Prop where
  housed : Housed OfModule ground (fun p => ∃ i < s.mods.length, i ∉ waiting ∧ s.Image i p)
    s.memory.regions.reg
  own : ∀ i ∈ waiting, 2 ≤ (s.module i).size ∧
    ∃ e, s.OwnEntry i e ∧ Sole s.memory.regions.reg e
  apart : ∀ i < s.mods.length, ∀ j < s.mods.length, i ≠ j → ∀ p, s.Image i p → ¬ s.Image j p
  limits : s.memory.regions.Unlimited more

section

variable {ground : Nat → Prop} {waiting rest : List Nat} {s t : Machine W}
  {index dest more : Nat}

/-- Every byte of a module has an entry. -/
theorem Lodged.covered (lodged : Lodged ground waiting more s) {i p : Nat}
    (inside : i < s.mods.length) (inImage : s.Image i p) :
    CoveredBy s.memory.regions.reg (fun _ => True) p := by
  by_cases isWaiting : i ∈ waiting
  · obtain ⟨_, e, own, sole⟩ := lodged.own i isWaiting
    exact ⟨e, sole.member, trivial, own.inside_iff.mp inImage⟩
  · exact (lodged.housed.covered p ⟨i, inside, isWaiting, inImage⟩).imp fun _ _ => trivial

/-- A module stays on its own entry if nothing else touches that. -/
theorem Lodged.settle (lodged : Lodged ground (index :: rest) more s)
    (clear : ∀ mr, (s.module index).region index = .ok mr → ∀ z ∈ s.memory.regions.reg,
      Foreign z.attr → z.overlaps mr = false) :
    Lodged ground rest more s := by
  obtain ⟨_, e, own, sole⟩ := lodged.own index (by simp)
  have isModule : OfModule e.attr := by
    rw [own.attr]
    rfl
  have settled := lodged.housed.settle sole.member isModule fun z member foreign =>
    Region.overlaps_eq_false_iff.mp (clear e own.made z member foreign)
  refine ⟨settled.imp (fun _ kept => kept) ?_, fun i member => lodged.own i (by simp [member]),
    lodged.apart, lodged.limits⟩
  rintro p ⟨i, inside, notWaiting, inImage⟩
  rcases eq_or_ne i index with rfl | differ
  · exact .inr (own.inside_iff.mp inImage)
  · exact .inl ⟨i, inside, by simp [differ, notWaiting], inImage⟩

/-- The bytes of a moved module, and those of the others. -/
theorem ModuleMoved.image {mode : BootMode} (moved : ModuleMoved mode index dest s t)
    (inside : index < s.mods.length) {i p : Nat} :
    t.Image i p ↔ (i = index ∧ dest ≤ p ∧ p < dest + (s.module index).size) ∨
      (i ≠ index ∧ s.Image i p) := by
  rcases eq_or_ne i index with rfl | differ
  · simp [Machine.Image, Machine.imageEnd, moved.itself inside]
  · simp [Machine.Image, Machine.imageEnd, moved.others differ, differ]

/-- A module is moved to free memory, away from its own entry. -/
theorem Lodged.move (lodged : Lodged ground (index :: rest) ((s.module index).size + more) s)
    (inside : index < s.mods.length) (fresh : index ∉ rest)
    (moved : ModuleMoved .image index dest s t)
    (placed : s.memory.regions.Placed (W.roundSize pageShift (s.module index).size) pageShift dest) :
    Lodged ground rest more t := by
  obtain ⟨two, _⟩ := lodged.own index (by simp)
  have maxWord : W.maxWord = W.modulus - 1 := rfl
  have room := lodged.limits.room
  have word : (s.module index).size < W.modulus := by omega
  obtain ⟨pos, aligned, fits, free⟩ := placed
  have rounded := round_size_of_pos word pos
  rw [rounded] at free
  have sizeUp : (s.module index).size ≤ pageUp (s.module index).size := le_round_up pageShift _
  have pages : 2 ^ pageShift ∣ pageUp (s.module index).size := dvd_round_up pageShift _
  obtain ⟨region, begins, ends, attr, added⟩ := moved.region word
  have size : region.last - region.begin + 1 = (s.module index).size := by omega
  have entered := RegionList.add_added lodged.housed.order lodged.limits (by omega) (by omega)
    aligned pages free (by omega) added
  have joined := RegionList.add_joined lodged.housed.order lodged.limits (by omega) aligned pages
    free (by omega) added
  have isModule : OfModule region.attr := by
    rw [attr]
    rfl
  -- no module has a byte in the new place
  have outside : ∀ i < s.mods.length, ∀ p, s.Image i p →
      p < dest ∨ dest + (s.module index).size ≤ p := by
    intro i iInside p inImage
    have := (lodged.covered iInside inImage).outside free
    omega
  constructor
  · refine (lodged.housed.add entered joined isModule isModule).imp (fun _ kept => kept) ?_
    rintro p ⟨i, iInside, notWaiting, inImage⟩
    rw [moved.length] at iInside
    rcases (moved.image inside).mp inImage with ⟨rfl, here⟩ | ⟨differ, inOld⟩
    · right
      omega
    · exact .inl ⟨i, iInside, by simp [differ, notWaiting], inOld⟩
  · intro i isWaiting
    have differ : i ≠ index := fun same => fresh (same ▸ isWaiting)
    obtain ⟨iTwo, e, own, sole⟩ := lodged.own i (by simp [isWaiting])
    have same := moved.others differ
    refine ⟨by rw [same]; exact iTwo, e, own.congr same, joined.sole lodged.housed.order sole ?_⟩
    rw [attr, own.attr]
    intro equal
    cases congrArg Attr.type equal
  · intro i iInside j jInside differ p inFirst inSecond
    rw [moved.length] at iInside jInside
    rcases (moved.image inside).mp inFirst with ⟨rfl, here⟩ | ⟨iOther, inOld⟩
    · rcases (moved.image inside).mp inSecond with ⟨rfl, _⟩ | ⟨_, otherOld⟩
      · exact differ rfl
      · have := outside j jInside p otherOld
        omega
    · rcases (moved.image inside).mp inSecond with ⟨rfl, here⟩ | ⟨_, otherOld⟩
      · have := outside i iInside p inOld
        omega
      · exact lodged.apart i iInside j jInside differ p inOld otherOld
  · apply entered.unlimited
    rw [size]
    exact lodged.limits

theorem Lodged.less {less : Nat} (lodged : Lodged ground waiting (more + less) s) :
    Lodged ground waiting less s := by
  refine ⟨lodged.housed, lodged.own, lodged.apart,
    ⟨lodged.limits.address, lodged.limits.combined, ?_⟩⟩
  have := lodged.limits.room
  omega

end

/-! ## Places off the ground -/

/-- The pages of a module are off the ground. -/
structure OffGround (W : Wordsize) (ground : Nat → Prop) (mod : ModInfo) : Prop where
  aligned : 2 ^ pageShift ∣ mod.start
  fits : mod.start + pageUp mod.size ≤ W.modulus
  avoids : ∀ p, ground p → p < mod.start ∨ mod.start + pageUp mod.size ≤ p

/-- Every module stays or gets a place off the ground. -/
def KeepsOff (ground : Nat → Prop) (s t : Machine W) : Prop :=
  ∀ i, t.module i = s.module i ∨ OffGround W ground (t.module i)

section

variable {ground : Nat → Prop} {s t u : Machine W} {index dest : Nat} {mod : ModInfo}

theorem KeepsOff.refl (s : Machine W) : KeepsOff ground s s := fun _ => .inl rfl

theorem KeepsOff.trans (first : KeepsOff ground s t) (second : KeepsOff ground t u) :
    KeepsOff ground s u := by
  intro i
  rcases second i with same | off
  · rw [same]
    exact first i
  · exact .inr off

/-- What is written for a module stays in its pages. -/
theorem OffGround.put_areas (off : OffGround W ground mod) (build : Build) {area : Area}
    (member : area ∈ build.putAreas W mod) {p : Nat} (above : area.1 ≤ p)
    (below : p < area.1 + area.2) : ¬ ground p := by
  have sizeUp : mod.size ≤ pageUp mod.size := le_round_up pageShift _
  have fits := off.fits
  have pages : pageUp (mod.start + mod.size) = mod.start + pageUp mod.size :=
    round_up_add off.aligned
  have rest : W.sub (roundPage W ((mod.start + mod.size) % W.modulus))
      ((mod.start + mod.size) % W.modulus) =
        mod.start + pageUp mod.size - (mod.start + mod.size) := by
    rw [round_page_rest (by omega), pages]
  have within : mod.start ≤ p ∧ p < mod.start + pageUp mod.size := by
    have either : area = (mod.start, mod.size) ∨ area = ((mod.start + mod.size) % W.modulus,
        mod.start + pageUp mod.size - (mod.start + mod.size)) := by
      rw [← rest]
      cases build with
      | plain => simpa [Build.putAreas, Wordsize.add] using member
      | compress zlib copyIndex =>
          simp only [Build.putAreas] at member
          split_ifs at member
          · simpa [Wordsize.add] using member
          · exact .inl (List.mem_singleton.mp member)
    rcases either with rfl | rfl
    · exact ⟨above, by omega⟩
    · rcases Nat.lt_or_ge (mod.start + mod.size) W.modulus with less | top
      · rw [Nat.mod_eq_of_lt less] at above below
        omega
      · omega
  intro onGround
  have := off.avoids p onGround
  omega

/-- A module that is moved to free memory. -/
theorem ModuleMoved.keeps_off {mode : BootMode} (moved : ModuleMoved mode index dest s t)
    (inside : index < s.mods.length) (word : (s.module index).size < W.modulus)
    (placed : s.memory.regions.Placed (W.roundSize pageShift (s.module index).size) pageShift dest)
    (covered : ∀ p, ground p → CoveredBy s.memory.regions.reg (fun _ => True) p) :
    KeepsOff ground s t := by
  obtain ⟨pos, aligned, fits, free⟩ := placed
  rw [round_size_of_pos word pos] at fits free
  intro i
  rcases eq_or_ne i index with rfl | differ
  · right
    rw [moved.itself inside]
    exact ⟨aligned, fits, fun p onGround => (covered p onGround).outside free⟩
  · exact .inl (moved.others differ)

end

/-! ## Base modules -/

section

variable {ground : Nat → Prop} {s t : Machine W} {order : List Nat} {index more : Nat}

/-- The base modules of a list. -/
def Machine.baseModules (s : Machine W) (order : List Nat) : List Nat :=
  order.filter fun i => (s.module i).isBaseModule

theorem base_modules_congr (same : ∀ i, (t.module i).isBaseModule = (s.module i).isBaseModule) :
    t.baseModules order = s.baseModules order := by
  unfold Machine.baseModules
  simp only [same]

/-- What the loop over the base modules does not change. -/
structure SameSizes (s t : Machine W) : Prop where
  length : t.mods.length = s.mods.length
  size : ∀ i, (t.module i).size = (s.module i).size
  base : ∀ i, (t.module i).isBaseModule = (s.module i).isBaseModule

theorem SameSizes.refl (s : Machine W) : SameSizes s s := ⟨rfl, fun _ => rfl, fun _ => rfl⟩

theorem move_out_of_the_way_lodged (inside : index < s.mods.length) (fresh : index ∉ order)
    (lodged : Lodged ground (s.baseModules (index :: order)) (s.baseSize index + more) s)
    (ran : moveOutOfTheWay index s = .ok () t) :
    Lodged ground (s.baseModules order) more t ∧ SameSizes s t ∧ KeepsOff ground s t := by
  simp only [moveOutOfTheWay, get_bind] at ran
  unfold Machine.baseModules at lodged ⊢
  cases isBase : (s.module index).isBaseModule with
  | false =>
      rw [if_pos (by simp [isBase]), pure_ok_iff] at ran
      rw [List.filter_cons_of_neg (by simp [isBase])] at lodged
      rw [ran.2]
      exact ⟨lodged.less, .refl s, .refl s⟩
  | true =>
      rw [if_neg (by simp [isBase])] at ran
      rw [List.filter_cons_of_pos (by simp [isBase]), Machine.baseSize, if_pos isBase] at lodged
      have word : (s.module index).size < W.modulus := by
        have maxWord : W.maxWord = W.modulus - 1 := rfl
        have room := lodged.limits.room
        omega
      have covered : ∀ p, ground p → CoveredBy s.memory.regions.reg (fun _ => True) p :=
        fun p onGround => (lodged.housed.ground p onGround).imp fun _ _ => trivial
      simp only [CheckedState.bind_ok_iff, lift_ok_iff] at ran
      obtain ⟨mr, _, ⟨made, rfl⟩, ran⟩ := ran
      split_ifs at ran with blocked
      · rw [CheckedState.bind_ok_iff] at ran
        obtain ⟨dest, between, searched, ran⟩ := ran
        obtain ⟨found, same⟩ := find_free_ram_ok searched
        rw [same] at ran
        split_ifs at ran with null
        · exact absurd ran stop_not_ok
        · have moved := move_module_moved ran
          have placed := Memory.find_free_ram_placed found null
          refine ⟨lodged.move inside ?_ moved placed,
            ⟨moved.length, moved.size, moved.isBaseModule⟩,
            moved.keeps_off inside word placed covered⟩
          exact fun member => fresh (List.mem_filter.mp member).1
      · rw [pure_ok_iff] at ran
        rw [ran.2]
        refine ⟨lodged.less.settle ?_, .refl _, .refl _⟩
        intro other isOther z member foreign
        rw [made] at isOther
        cases isOther
        rw [List.any_eq_true] at blocked
        by_contra overlaps
        rw [Bool.not_eq_false] at overlaps
        apply blocked
        refine ⟨z, member, ?_⟩
        rw [overlaps, Bool.true_and, Bool.not_eq_true', isModuleRegion, decide_eq_false_iff_not]
        exact foreign

theorem move_base_modules_lodged (distinct : order.Nodup) (inside : ∀ i ∈ order, i < s.mods.length)
    (lodged : Lodged ground (s.baseModules order) (total s.baseSize order + more) s)
    (ran : moveBaseModules order s = .ok () t) : Lodged ground [] more t ∧ KeepsOff ground s t := by
  induction order generalizing s with
  | nil =>
      rw [moveBaseModules, pure_ok_iff] at ran
      rw [ran.2]
      rw [total_nil, Nat.zero_add] at lodged
      exact ⟨lodged, .refl s⟩
  | cons i rest ih =>
      obtain ⟨fresh, restDistinct⟩ := List.nodup_cons.mp distinct
      rw [moveBaseModules, CheckedState.bind_ok_iff] at ran
      obtain ⟨_, u, moved, ran⟩ := ran
      rw [total_cons, Nat.add_assoc] at lodged
      obtain ⟨next, same, off⟩ := move_out_of_the_way_lodged (inside i (by simp)) fresh lodged moved
      have baseSize : u.baseSize = s.baseSize := by
        funext j
        rw [Machine.baseSize, Machine.baseSize, same.base, same.size]
      have stillInside : ∀ j ∈ rest, j < u.mods.length := by
        intro j inRest
        rw [same.length]
        exact inside j (by simp [inRest])
      rw [← baseSize, ← base_modules_congr same.base] at next
      obtain ⟨lodgedAll, offAll⟩ := ih restDistinct stillInside next ran
      exact ⟨lodgedAll, off.trans offAll⟩

end

/-! ## Modules that are unpacked -/

/-- The table and the list before modules are unpacked. The entries of base modules are
those that `init_mod_regions` makes, no others have their attributes, and no copy of a
descriptor is taken for theirs. -/
structure ReadyToUnpack (copyIndex : Nat → Int) (s : Machine W) : Prop where
  count : s.mods.length ≤ 256
  base : ∀ i < s.mods.length, (s.module i).isBaseModule = true →
    2 ≤ (s.module i).size ∧ (s.module i).size < W.modulus ∧
      ∃ e, (s.module i).region i = .ok e ∧ Sole s.memory.regions.reg e
  copies : ∀ j ∈ s.payload, ∀ i < s.mods.length, (s.module i).isBaseModule = true →
    copyIndex j ≠ i
  apart : EntriesApart OfModule s.memory.regions.reg
  order : MergeOrder s.memory.regions.reg
  limits : s.memory.regions.Unlimited
    (total s.unpacked s.payload + total s.baseSize (List.range s.mods.length))

section

variable {zlib : Zlib} {copyIndex : Nat → Int} {s t : Machine W} {regions : RegionList W}
  {dest : Nat} {fwd : Bool}

theorem ReadyToUnpack.small (ready : ReadyToUnpack copyIndex s) {i : Nat}
    (inside : i < s.mods.length) : i < 256 := inside.trans_le ready.count

theorem ReadyToUnpack.entry (ready : ReadyToUnpack copyIndex s) {i : Nat}
    (inside : i < s.mods.length) (isBase : (s.module i).isBaseModule = true) :
    ∃ e, s.OwnEntry i e ∧ Sole s.memory.regions.reg e := by
  obtain ⟨_, word, e, made, sole⟩ := ready.base i inside isBase
  exact ⟨e, own_entry made word, sole⟩

/-- The entry of a base module is not taken for that of another one. -/
theorem Machine.OwnEntry.kept {i j : Nat} {e : Region W} (own : s.OwnEntry i e) (small : i < 256)
    (isBase : (s.module i).isBaseModule = true) (isPayload : j ∈ s.payload) :
    ¬ IsSlotOf j e.attr := by
  rw [own.slot_of small, Int.ofNat_inj]
  rintro rfl
  rw [(mem_payload.mp isPayload).2] at isBase
  cases isBase

theorem Machine.OwnEntry.spared (ready : ReadyToUnpack copyIndex s) {i j : Nat} {e : Region W}
    (own : s.OwnEntry i e) (inside : i < s.mods.length)
    (isBase : (s.module i).isBaseModule = true) (isPayload : j ∈ s.payload) :
    ¬ IsSlotOf (copyIndex j) e.attr := by
  rw [own.slot_of (ready.small inside)]
  exact ready.copies j isPayload i inside isBase

/-- Modules on entries of their own. -/
theorem own_entries_apart {i j : Nat} {e f : Region W}
    (apart : EntriesApart OfModule s.memory.regions.reg) (iOwn : s.OwnEntry i e)
    (jOwn : s.OwnEntry j f) (eMember : e ∈ s.memory.regions.reg)
    (fMember : f ∈ s.memory.regions.reg) (iSmall : i < 256) (jSmall : j < 256) (differ : i ≠ j)
    {p : Nat} (inFirst : s.Image i p) : ¬ s.Image j p := by
  intro inSecond
  have others : e ≠ f := by
    rintro rfl
    exact differ (Int.ofNat_inj.mp ((jOwn.slot_of jSmall).mp ((iOwn.slot_of iSmall).mpr rfl)))
  have eModule : OfModule e.attr := by
    rw [iOwn.attr]
    rfl
  have fModule : OfModule f.attr := by
    rw [jOwn.attr]
    rfl
  have either := apart.distinct eMember fMember eModule fModule others
  rw [iOwn.inside_iff] at inFirst
  rw [jOwn.inside_iff] at inSecond
  omega

/-- The slots of a table in any order. -/
structure Filled (zlib : Zlib) (copyIndex : Nat → Int) (s : Machine W) (dest : Nat)
    (regions : RegionList W) (plan : List (Nat × Nat)) (t : Machine W) : Prop where
  steps : Unpackings zlib (s.withRegions regions) plan t
  perm : plan.Perm (layout s.unpacked dest s.sorter)
  sorted : s.sorter.Perm s.payload
  place : FreePlace copyIndex s (total s.unpacked s.payload) dest regions

namespace Filled

variable {plan : List (Nat × Nat)}

theorem indexes (filled : Filled zlib copyIndex s dest regions plan t) :
    (plan.map Prod.fst).Perm s.payload := by
  have mapped := filled.perm.map Prod.fst
  rw [layout_indexes] at mapped
  exact mapped.trans filled.sorted

theorem distinct (filled : Filled zlib copyIndex s dest regions plan t) :
    (plan.map Prod.fst).Nodup :=
  filled.indexes.nodup_iff.mpr (List.nodup_range.filter _)

theorem payload (filled : Filled zlib copyIndex s dest regions plan t) {move : Nat × Nat}
    (member : move ∈ plan) : move.1 ∈ s.payload :=
  filled.indexes.subset (List.mem_map_of_mem member)

theorem sum (filled : Filled zlib copyIndex s dest regions plan t) :
    total s.unpacked s.sorter = total s.unpacked s.payload := total_of_perm filled.sorted

theorem inside (filled : Filled zlib copyIndex s dest regions plan t) {move : Nat × Nat}
    (member : move ∈ plan) :
    dest ≤ move.2 ∧ move.2 + s.unpacked move.1 ≤ dest + total s.unpacked s.payload := by
  rw [← filled.sum]
  exact layout_inside (filled.perm.subset member)

/-- A base module is where it was, any other one in its slot. -/
theorem image (filled : Filled zlib copyIndex s dest regions plan t) {i p : Nat}
    (inTable : i < s.mods.length) (inImage : t.Image i p) :
    ((s.module i).isBaseModule = true ∧ s.Image i p) ∨
      ∃ start, (i, start) ∈ plan ∧ start ≤ p ∧ p < start + s.unpacked i := by
  cases isBase : (s.module i).isBaseModule with
  | true =>
      left
      have same : t.module i = s.module i := by
        apply filled.steps.others
        rw [filled.indexes.mem_iff, mem_payload, isBase]
        simp
      unfold Machine.Image Machine.imageEnd at inImage ⊢
      rw [same] at inImage
      exact ⟨rfl, inImage⟩
  | false =>
      right
      have isPayload : i ∈ s.payload := mem_payload.mpr ⟨inTable, isBase⟩
      obtain ⟨start, inLayout⟩ : ∃ start, (i, start) ∈ layout s.unpacked dest s.sorter :=
        layout_slot_of (filled.sorted.mem_iff.mpr isPayload)
      have member := filled.perm.mem_iff.mpr inLayout
      have placed := filled.steps.planned filled.distinct member inTable
      have sizeUp : (s.module i).sizeUncompressed ≤ s.unpacked i := le_round_up pageShift _
      unfold Machine.Image Machine.imageEnd at inImage
      rw [placed] at inImage
      obtain ⟨above, below⟩ := inImage
      exact ⟨start, member, above, below.trans_le (Nat.add_le_add_left sizeUp start)⟩

theorem slots (filled : Filled zlib copyIndex s dest regions plan t)
    (ready : ReadyToUnpack copyIndex s) : PlanApart s.unpacked plan := by
  have maxWord : W.maxWord = W.modulus - 1 := rfl
  have room := ready.limits.room
  have small : ∀ move ∈ plan, s.unpacked move.1 < W.modulus := by
    intro move member
    have := filled.inside member
    omega
  exact layout_plan_apart (unpacked_dvd s) (fun _ member => filled.steps.slot_pos small member)
    filled.place.aligned filled.perm

/-- The entries of base modules are not dropped, so that the place avoids these modules. -/
theorem base_outside (filled : Filled zlib copyIndex s dest regions plan t)
    (ready : ReadyToUnpack copyIndex s) {i p : Nat} (inside : i < s.mods.length) (isBase : (s.module i).isBaseModule = true)
    (inImage : s.Image i p) : p < dest ∨ dest + total s.unpacked s.payload ≤ p := by
  obtain ⟨e, own, sole⟩ := ready.entry inside isBase
  have kept := sole.dropped filled.place.dropped fun index isIndex => by
    obtain ⟨j, isPayload, rfl⟩ := List.mem_map.mp isIndex
    exact own.spared ready inside isBase isPayload
  have covered : CoveredBy regions.reg (fun _ => True) p :=
    ⟨e, kept.member, trivial, own.inside_iff.mp inImage⟩
  exact covered.outside filled.place.free

theorem apart (filled : Filled zlib copyIndex s dest regions plan t)
    (ready : ReadyToUnpack copyIndex s) {i j p : Nat}
    (iInside : i < s.mods.length) (jInside : j < s.mods.length) (differ : i ≠ j)
    (inFirst : t.Image i p) : ¬ t.Image j p := by
  intro inSecond
  rcases filled.image iInside inFirst with ⟨iBase, inOld⟩ | ⟨start, member, here⟩
  · rcases filled.image jInside inSecond with ⟨jBase, otherOld⟩ | ⟨other, isOther, there⟩
    · obtain ⟨e, iOwn, eSole⟩ := ready.entry iInside iBase
      obtain ⟨f, jOwn, fSole⟩ := ready.entry jInside jBase
      exact own_entries_apart ready.apart iOwn jOwn eSole.member fSole.member
        (ready.small iInside) (ready.small jInside) differ inOld otherOld
    · have := filled.base_outside ready iInside iBase inOld
      have : dest ≤ other ∧ other + s.unpacked j ≤ _ := filled.inside isOther
      omega
  · rcases filled.image jInside inSecond with ⟨jBase, otherOld⟩ | ⟨other, isOther, there⟩
    · have := filled.base_outside ready jInside jBase otherOld
      have : dest ≤ start ∧ start + s.unpacked i ≤ _ := filled.inside member
      omega
    · have := (filled.slots ready).beside member isOther differ
      omega

/-- The slots get entries, and the base modules keep theirs. -/
theorem housed (filled : Filled zlib copyIndex s dest regions plan t)
    (ready : ReadyToUnpack copyIndex s) :
    Housed OfModule (fun p => CoveredBy s.memory.regions.reg Foreign p)
        (fun p => ∃ move ∈ plan, move.2 ≤ p ∧ p < move.2 + s.unpacked move.1)
        t.memory.regions.reg ∧
      t.memory.regions.Unlimited (total s.baseSize (List.range s.mods.length)) ∧
      ∀ e, Sole s.memory.regions.reg e →
        (∀ i ∈ s.payload, ¬ IsSlotOf i e.attr ∧ ¬ IsSlotOf (copyIndex i) e.attr) →
          Sole t.memory.regions.reg e := by
  have place := filled.place
  have order := ready.order.sublist place.dropped.fewer
  have limits := place.dropped.unlimited ready.limits
  have free := place.free
  rw [← filled.sum] at limits free
  have start : Housed (Stays plan) (fun p => CoveredBy s.memory.regions.reg Foreign p)
      (fun _ => False) regions.reg := by
    apply housed_start order (ready.apart.sublist place.dropped.fewer)
    intro p covered
    apply place.dropped.covers _ covered
    rintro attr foreign i _ ⟨isModule, _⟩
    exact foreign isModule
  obtain ⟨housed, reserved, soles⟩ := filled.steps.housed
    (fun _ member => ready.small (mem_payload.mp (filled.payload member)).1) filled.distinct
    (filled.slots ready) (layout_reserving order limits free filled.perm) start
  refine ⟨housed.imp (fun _ kept => kept) fun _ inSlot => .inr inSlot, ?_, ?_⟩
  · have kept := reserved.limits
    rw [List.map_nil, total_nil, Nat.zero_add] at kept
    exact kept
  · intro e sole kept
    refine soles e (sole.dropped place.dropped ?_) fun move member =>
      (kept _ (filled.payload member)).1
    intro index isIndex
    obtain ⟨j, isPayload, rfl⟩ := List.mem_map.mp isIndex
    exact (kept j isPayload).2

/-- The slots are off what other entries cover. -/
theorem keeps_off (filled : Filled zlib copyIndex s dest regions plan t) :
    KeepsOff (fun p => CoveredBy s.memory.regions.reg Foreign p) s t := by
  intro i
  by_cases isPayload : i ∈ s.payload
  · right
    obtain ⟨start, inLayout⟩ : ∃ start, (i, start) ∈ layout s.unpacked dest s.sorter :=
      layout_slot_of (filled.sorted.mem_iff.mpr isPayload)
    have member := filled.perm.mem_iff.mpr inLayout
    have isSlot : t.module i =
        { s.module i with start := start, size := (s.module i).sizeUncompressed } :=
      filled.steps.planned filled.distinct member (mem_payload.mp isPayload).1
    have inside : dest ≤ start ∧ start + s.unpacked i ≤ dest + total s.unpacked s.payload :=
      filled.inside member
    have fits := filled.place.fits
    rw [isSlot]
    refine ⟨layout_aligned filled.place.aligned (unpacked_dvd s) inLayout, ?_, ?_⟩
    · change start + s.unpacked i ≤ W.modulus
      omega
    · intro p covered
      have left := filled.place.dropped.spares
        (fun _ foreign _ _ slot => foreign slot.1) covered
      have outside := left.outside filled.place.free
      change p < start ∨ start + s.unpacked i ≤ p
      omega
  · left
    apply filled.steps.others
    rwa [filled.indexes.mem_iff]

/-- After the slots are filled only base modules wait. -/
theorem lodged (filled : Filled zlib copyIndex s dest regions plan t)
    (ready : ReadyToUnpack copyIndex s) :
    Lodged (fun p => CoveredBy s.memory.regions.reg Foreign p)
      (t.baseModules (List.range t.mods.length))
      (total t.baseSize (List.range t.mods.length)) t := by
  have length : t.mods.length = s.mods.length := filled.steps.length
  have kinds : ∀ i, (t.module i).isBaseModule = (s.module i).isBaseModule := filled.steps.kind
  have baseSize : t.baseSize = s.baseSize :=
    filled.steps.base_size fun move member => (mem_payload.mp (filled.payload member)).2
  obtain ⟨housed, limits, soles⟩ := filled.housed ready
  constructor
  · refine housed.imp (fun _ kept => kept) ?_
    rintro p ⟨i, inside, notWaiting, inImage⟩
    rw [length] at inside
    rcases filled.image inside inImage with ⟨isBase, _⟩ | ⟨start, member, here⟩
    · rw [← kinds] at isBase
      rw [← length] at inside
      exact absurd (List.mem_filter.mpr ⟨List.mem_range.mpr inside, isBase⟩) notWaiting
    · exact ⟨(i, start), member, here⟩
  · intro i isWaiting
    obtain ⟨inRange, isBase⟩ := List.mem_filter.mp isWaiting
    rw [List.mem_range, length] at inRange
    rw [kinds] at isBase
    obtain ⟨two, _⟩ := ready.base i inRange isBase
    obtain ⟨e, own, sole⟩ := ready.entry inRange isBase
    have same : t.module i = s.module i := by
      apply filled.steps.others
      rw [filled.indexes.mem_iff, mem_payload, isBase]
      simp
    refine ⟨by rw [same]; exact two, e, own.congr same, ?_⟩
    exact soles e sole fun j isPayload => ⟨own.kept (ready.small inRange) isBase isPayload,
      own.spared ready inRange isBase isPayload⟩
  · intro i iInside j jInside differ p
    rw [length] at iInside jInside
    exact filled.apart ready iInside jInside differ
  · rw [baseSize, length]
    exact limits

end Filled

end

theorem decompress_mods_lodged {zlib : Zlib} {copyIndex : Nat → Int} {s t : Machine W}
    {modAddr : Nat}
    (fresh : s.sorter = []) (ready : ReadyToUnpack copyIndex s)
    (ran : decompressMods zlib copyIndex (decompressedSize W s.mods) modAddr s = .ok () t) :
    Lodged (fun p => CoveredBy s.memory.regions.reg Foreign p) [] 0 t ∧
      KeepsOff (fun p => CoveredBy s.memory.regions.reg Foreign p) s t := by
  have maxWord : W.maxWord = W.modulus - 1 := rfl
  have room := ready.limits.room
  have word : total s.unpacked s.payload < W.modulus := by omega
  rw [decompressed_size_eq, Nat.mod_eq_of_lt word] at ran
  obtain ⟨sorted, dest, fwd, found, filled, isSorted, chosen, used, isFilled, moved⟩ :=
    decompress_mods_ok ran
  obtain ⟨sorter, rfl, perm, _⟩ := sort_modules_ok (by rw [fresh]; exact .nil) isSorted
  rw [fresh, List.append_nil] at perm
  obtain ⟨regions, rfl, place⟩ :=
    choose_destination_free (total_unpacked_dvd s s.payload) word chosen used
  -- no condition looks at the sorter
  let sorted : Machine W := { s with sorter := sorter }
  have sum : total s.unpacked sorter = total s.unpacked s.payload := total_of_perm perm
  have fits := place.fits
  have pos := place.pos
  rw [← sum] at word fits pos isFilled
  have steps : Unpackings zlib (sorted.withRegions regions)
      (fillOrder (layout s.unpacked dest sorter) fwd) filled :=
    uncompress_all_layout (fun i member => mem_payload.mp (perm.subset member)) (by omega) word fits
      isFilled
  have slots : Filled zlib copyIndex sorted dest regions
      (fillOrder (layout s.unpacked dest sorter) fwd) filled := ⟨steps, fill_order_perm _ fwd, perm, place⟩
  have sortedReady : ReadyToUnpack copyIndex sorted :=
    ⟨ready.count, ready.base, ready.copies, ready.apart, ready.order, ready.limits⟩
  have length : filled.mods.length = s.mods.length := steps.length
  rw [← length] at moved
  have filledLodged : Lodged _ _
      (total filled.baseSize (List.range filled.mods.length) + 0) filled := slots.lodged sortedReady
  obtain ⟨lodged, off⟩ := move_base_modules_lodged List.nodup_range
    (fun i member => List.mem_range.mp member) filledLodged moved
  exact ⟨lodged, slots.keeps_off.trans off⟩

/-! ## Modules that are moved as they are -/

/-- The table and the list before modules are moved. -/
structure ReadyToMove (s : Machine W) : Prop where
  sizes : ∀ mod ∈ s.mods, 2 ≤ mod.size
  order : MergeOrder (s.memory.regions.removeIf isModuleRegion).reg
  limits : s.memory.regions.Unlimited (s.mods.map fun mod => pageUp mod.size).sum

theorem not_of_module {l : RegionList W} {r : Region W}
    (member : r ∈ (l.removeIf isModuleRegion).reg) : Foreign r.attr := by
  have kept := (List.mem_filter.mp member).2
  rw [Bool.not_eq_true', isModuleRegion, decide_eq_false_iff_not] at kept
  exact kept

/-- All modules are moved to the slots of a plan in free memory. -/
structure MovedTo (s : Machine W) (target : Nat) (order : List Nat) (plan : List (Nat × Nat))
    (t : Machine W) : Prop where
  moves : Moves .image (s.withRegions (s.memory.regions.removeIf isModuleRegion)) plan t
  perm : plan.Perm (layout s.slot target order)
  all : order.Perm (List.range s.mods.length)
  aligned : 2 ^ pageShift ∣ target
  fits : target + total s.slot order ≤ W.modulus
  free : FreeIn (s.memory.regions.removeIf isModuleRegion).reg (total s.slot order) target

section

variable {s t : Machine W} {modaddr target : Nat} {order : List Nat} {plan : List (Nat × Nat)}

theorem ReadyToMove.two (ready : ReadyToMove s) {i : Nat} (inside : i < s.mods.length) :
    2 ≤ (s.module i).size := ready.sizes _ (module_mem inside)

theorem ReadyToMove.slot_pos (ready : ReadyToMove s) {i : Nat} (inside : i < s.mods.length) :
    0 < s.slot i := by
  have := ready.two inside
  exact round_up_pos (by omega)

theorem move_modules_moved (fresh : s.sorter = []) (ready : ReadyToMove s)
    (ran : moveModules .image modaddr s = .ok () t) :
    ∃ target order plan, MovedTo { s with sorter := order } target order plan t := by
  obtain ⟨target, u, zero, found, sorted, moved⟩ := move_modules_ok ran
  obtain ⟨order, rfl, perm, _⟩ := sort_modules_ok
    (by rw [Machine.withRegions, fresh]; exact .nil) sorted
  rw [Machine.withRegions, fresh, List.append_nil] at perm
  have maxWord : W.maxWord = W.modulus - 1 := rfl
  have sum : total s.slot order = (s.mods.map fun mod => pageUp mod.size).sum := total_eq_sum perm
  have room := ready.limits.room
  have placed := Memory.find_free_ram_placed found zero
  have size := modules_size_eq perm (by omega) placed.pos
  have fits := placed.fits
  have free := placed.free
  rw [size] at fits free
  obtain ⟨forward, backward, split, moves, _⟩ := move_sorted_moves moved (Nat.pos_of_ne_zero zero)
    (fun i member => ready.slot_pos (List.mem_range.mp (perm.subset member))) fits
    (perm.length_eq.trans List.length_range)
  change order = forward ++ backward at split
  have planPerm := sorted_plan_perm s target forward backward
  rw [← split] at planPerm
  exact ⟨target, order, _, moves, planPerm, perm, placed.aligned, fits, free⟩

namespace MovedTo

theorem inside (moved : MovedTo s target order plan t) {move : Nat × Nat} (member : move ∈ plan) :
    move.1 < s.mods.length := by
  have inOrder : move.1 ∈ (layout s.slot target order).map Prod.fst :=
    List.mem_map_of_mem (moved.perm.subset member)
  rw [layout_indexes] at inOrder
  exact List.mem_range.mp (moved.all.subset inOrder)

theorem slots (moved : MovedTo s target order plan t) (ready : ReadyToMove s) :
    PlanApart s.slot plan :=
  layout_plan_apart (fun _ => dvd_round_up pageShift _)
    (fun _ member => ready.slot_pos (moved.inside member)) moved.aligned moved.perm

/-- A module is in its slot. -/
theorem image (moved : MovedTo s target order plan t) {i p : Nat} (inTable : i < s.mods.length)
    (inImage : t.Image i p) :
    ∃ dest, (i, dest) ∈ plan ∧ dest ≤ p ∧ p < dest + (s.module i).size := by
  obtain ⟨above, below⟩ := inImage
  have distinct : (plan.map Prod.fst).Nodup := by
    rw [(moved.perm.map Prod.fst).nodup_iff, layout_indexes, moved.all.nodup_iff]
    exact List.nodup_range
  have inOrder : i ∈ order := moved.all.mem_iff.mpr (List.mem_range.mpr inTable)
  obtain ⟨dest, inLayout⟩ : ∃ dest, (i, dest) ∈ layout s.slot target order :=
    layout_slot_of inOrder
  have member := moved.perm.mem_iff.mpr inLayout
  have isStart : (t.module i).start = dest := moved.moves.start distinct member inTable
  have sameSize : (t.module i).size = (s.module i).size := moved.moves.size i
  unfold Machine.imageEnd at below
  rw [isStart] at above below
  rw [sameSize] at below
  exact ⟨dest, member, above, below⟩

/-- No entry of a module is left when the slots get theirs. -/
theorem housed (moved : MovedTo s target order plan t) (ready : ReadyToMove s) :
    Housed OfModule (fun p => CoveredBy s.memory.regions.reg Foreign p)
        (fun p => ∃ move ∈ plan, move.2 ≤ p ∧ p < move.2 + (s.module move.1).size)
        t.memory.regions.reg ∧
      t.memory.regions.Unlimited 0 := by
  have sum : total s.slot order = (s.mods.map fun mod => pageUp mod.size).sum :=
    total_eq_sum moved.all
  have limits := ready.limits
  rw [← sum] at limits
  have start : Housed OfModule (fun p => CoveredBy s.memory.regions.reg Foreign p)
      (fun _ => False) (s.memory.regions.removeIf isModuleRegion).reg := by
    apply housed_start ready.order
    · apply List.pairwise_of_forall_mem_list
      intro r member o _ isModule
      exact absurd isModule (not_of_module member)
    · rintro p ⟨r, member, foreign, inside⟩
      refine ⟨r, List.mem_filter.mpr ⟨member, ?_⟩, foreign, inside⟩
      rw [Bool.not_eq_true', isModuleRegion, decide_eq_false_iff_not]
      exact foreign
  have reserving : Reserving s.slot plan 0 (s.memory.regions.removeIf isModuleRegion) :=
    layout_reserving ready.order ⟨limits.address, limits.combined, limits.room⟩ moved.free
      moved.perm
  obtain ⟨housed, reserved⟩ := moved.moves.housed (moved.slots ready)
    (fun _ member => ready.two (moved.inside member)) reserving start
  refine ⟨housed.imp (fun _ kept => kept) fun _ inSlot => .inr inSlot, ?_⟩
  have kept := reserved.limits
  rw [List.map_nil, total_nil, Nat.zero_add] at kept
  exact kept

/-- The slots are off the entries that are left. -/
theorem keeps_off (moved : MovedTo s target order plan t) :
    KeepsOff (fun p => CoveredBy s.memory.regions.reg Foreign p) s t := by
  have distinct : (plan.map Prod.fst).Nodup := by
    rw [(moved.perm.map Prod.fst).nodup_iff, layout_indexes, moved.all.nodup_iff]
    exact List.nodup_range
  intro i
  by_cases inTable : i < s.mods.length
  · right
    obtain ⟨dest, inLayout⟩ : ∃ dest, (i, dest) ∈ layout s.slot target order :=
      layout_slot_of (moved.all.mem_iff.mpr (List.mem_range.mpr inTable))
    have member := moved.perm.mem_iff.mpr inLayout
    have isStart : (t.module i).start = dest := moved.moves.start distinct member inTable
    have sameSize : (t.module i).size = (s.module i).size := moved.moves.size i
    have inside : target ≤ dest ∧ dest + s.slot i ≤ target + total s.slot order :=
      layout_inside inLayout
    have fits := moved.fits
    constructor
    · rw [isStart]
      exact layout_aligned moved.aligned (fun _ => dvd_round_up pageShift _) inLayout
    · rw [isStart, sameSize]
      change dest + s.slot i ≤ W.modulus
      omega
    · rintro p ⟨r, isEntry, foreign, within⟩
      have left : CoveredBy (s.memory.regions.removeIf isModuleRegion).reg (fun _ => True) p := by
        refine ⟨r, List.mem_filter.mpr ⟨isEntry, ?_⟩, trivial, within⟩
        rw [Bool.not_eq_true', isModuleRegion, decide_eq_false_iff_not]
        exact foreign
      have outside := left.outside moved.free
      rw [isStart, sameSize]
      change p < dest ∨ dest + s.slot i ≤ p
      omega
  · left
    have length : t.mods.length = s.mods.length := moved.moves.length
    rw [Machine.module, Machine.module, List.getD_eq_default _ _ (by omega),
      List.getD_eq_default _ _ (by omega)]

theorem lodged (moved : MovedTo s target order plan t) (ready : ReadyToMove s) :
    Lodged (fun p => CoveredBy s.memory.regions.reg Foreign p) [] 0 t := by
  have length : t.mods.length = s.mods.length := moved.moves.length
  obtain ⟨housed, limits⟩ := moved.housed ready
  refine ⟨housed.imp (fun _ kept => kept) ?_, by simp, ?_, limits⟩
  · rintro p ⟨i, inside, _, inImage⟩
    obtain ⟨dest, member, here⟩ := moved.image (by omega) inImage
    exact ⟨(i, dest), member, here⟩
  · intro i iInside j jInside differ p inFirst inSecond
    obtain ⟨iDest, iMember, iAbove, iBelow⟩ := moved.image (by omega) inFirst
    obtain ⟨jDest, jMember, jAbove, jBelow⟩ := moved.image (by omega) inSecond
    have iSize : (s.module i).size ≤ s.slot i := le_round_up pageShift _
    have jSize : (s.module j).size ≤ s.slot j := le_round_up pageShift _
    have := (moved.slots ready).beside iMember jMember differ
    omega

end MovedTo

theorem move_modules_lodged (fresh : s.sorter = []) (ready : ReadyToMove s)
    (ran : moveModules .image modaddr s = .ok () t) :
    Lodged (fun p => CoveredBy s.memory.regions.reg Foreign p) [] 0 t ∧
      KeepsOff (fun p => CoveredBy s.memory.regions.reg Foreign p) s t := by
  obtain ⟨target, order, plan, moved⟩ := move_modules_moved fresh ready ran
  -- no condition looks at the sorter
  exact ⟨moved.lodged ⟨ready.sizes, ready.order, ready.limits⟩, moved.keeps_off⟩

end

/-! ## Modules that stay -/

/-- The table and the list where modules are not moved: they must be in place. -/
structure ReadyToStay (s : Machine W) : Prop where
  own : ∀ i < s.mods.length, (s.module i).size < W.modulus ∧
    ∃ e ∈ s.memory.regions.reg, (s.module i).region i = .ok e ∧
      ∀ z ∈ s.memory.regions.reg, Foreign z.attr → z.overlaps e = false
  apart : EntriesApart OfModule s.memory.regions.reg
  order : MergeOrder s.memory.regions.reg
  limits : s.memory.regions.Unlimited 0

theorem stay_lodged {s : Machine W} (few : s.mods.length ≤ numBaseModules)
    (ready : ReadyToStay s) : Lodged (fun p => CoveredBy s.memory.regions.reg Foreign p) [] 0 s := by
  have small : ∀ i < s.mods.length, i < 256 := by
    intro i inside
    have : numBaseModules = 3 := rfl
    omega
  have entries : ∀ i < s.mods.length, ∃ e ∈ s.memory.regions.reg, s.OwnEntry i e ∧
      ∀ z ∈ s.memory.regions.reg, Foreign z.attr → z.last < e.begin ∨ e.last < z.begin := by
    intro i inside
    obtain ⟨word, e, member, made, clear⟩ := ready.own i inside
    exact ⟨e, member, own_entry made word, fun z inList foreign =>
      Region.overlaps_eq_false_iff.mp (clear z inList foreign)⟩
  have isModule : ∀ i e, s.OwnEntry i e → OfModule e.attr := by
    intro i e own
    rw [own.attr]
    rfl
  refine ⟨⟨ready.order, ready.apart, ?_, ?_, fun _ covered => covered⟩, by simp, ?_, ready.limits⟩
  · rintro p ⟨i, inside, _, inImage⟩
    obtain ⟨e, member, own, _⟩ := entries i inside
    exact ⟨e, member, isModule i e own, own.inside_iff.mp inImage⟩
  · rintro p ⟨i, inside, _, inImage⟩
    obtain ⟨e, member, own, clear⟩ := entries i inside
    obtain ⟨above, below⟩ := own.inside_iff.mp inImage
    exact divided_of_entry ready.order member (isModule i e own) clear above below
  · intro i iInside j jInside differ p inFirst
    obtain ⟨e, eMember, iOwn, _⟩ := entries i iInside
    obtain ⟨f, fMember, jOwn, _⟩ := entries j jInside
    exact own_entries_apart ready.apart iOwn jOwn eMember fMember (small i iInside)
      (small j jInside) differ inFirst

/-! ## The whole function -/

/-- What the step that the build decides relies on. -/
def ReadyToPlace (build : Build) (s : Machine W) : Prop :=
  match build with
  | .plain => ReadyToMove s
  | .compress _ copyIndex =>
      if numBaseModules < s.mods.length then ReadyToUnpack copyIndex s else ReadyToStay s

/-- The modules are apart from each other, from all entries of anything else, old and new,
and from a block of `size` bytes at `mbi`. -/
structure KeptApart (s t : Machine W) (mbi size : Nat) : Prop where
  modules : ∀ i < t.mods.length, ∀ j < t.mods.length, i ≠ j → ∀ p, t.Image i p → ¬ t.Image j p
  entries : ∀ i < t.mods.length, ∀ p, t.Image i p → ∀ z ∈ t.memory.regions.reg,
    z.attr.name ≠ .modReg → p < z.begin ∨ z.last < p
  before : ∀ i < t.mods.length, ∀ p, t.Image i p → ∀ z ∈ s.memory.regions.reg,
    z.attr.name ≠ .modReg → p < z.begin ∨ z.last < p
  block : ∀ i < t.mods.length, ∀ p, t.Image i p → p < mbi ∨ mbi + size ≤ p

section

variable {build : Build} {s t : Machine W} {modAddr : Nat}

theorem check_sizes_ok {mods : List ModInfo} (ran : checkSizes mods s = .ok () t) : t = s := by
  induction mods with
  | nil => exact (pure_ok_iff.mp ran).2
  | cons mod rest ih =>
      rw [checkSizes] at ran
      split_ifs at ran with empty
      · exact absurd ran stop_not_ok
      · exact ih ran

theorem relocate_modules_lodged (fresh : s.sorter = []) (ready : ReadyToPlace build s)
    (ran : relocateModules modAddr build s = .ok () t) :
    Lodged (fun p => CoveredBy s.memory.regions.reg Foreign p) [] 0 t ∧
      KeepsOff (fun p => CoveredBy s.memory.regions.reg Foreign p) s t := by
  cases build with
  | plain => exact move_modules_lodged fresh ready ran
  | compress zlib copyIndex =>
      simp only [relocateModules, get_bind] at ran
      simp only [ReadyToPlace] at ready
      split_ifs at ran ready with many
      · exact decompress_mods_lodged fresh ready ran
      · rw [pure_ok_iff] at ran
        rw [ran.2]
        exact ⟨stay_lodged (Nat.le_of_not_lt many) ready, .refl s⟩

theorem place_modules_lodged (fresh : s.sorter = []) (ready : ReadyToPlace build s)
    (ran : placeModules build modAddr s = .ok () t) :
    Lodged (fun p => CoveredBy s.memory.regions.reg Foreign p) [] 0 t ∧
      KeepsOff (fun p => CoveredBy s.memory.regions.reg Foreign p) s t := by
  rw [placeModules, get_bind, CheckedState.bind_ok_iff] at ran
  obtain ⟨_, checked, isChecked, ran⟩ := ran
  rw [check_sizes_ok isChecked, CheckedState.bind_ok_iff] at ran
  obtain ⟨_, relocated, isRelocated, merged⟩ := ran
  obtain ⟨lodged, off⟩ := relocate_modules_lodged fresh ready isRelocated
  obtain ⟨regions, rfl, housed, limits⟩ := merge_mod_regions_housed lodged.housed merged
  exact ⟨⟨housed, by simp, lodged.apart, limits 0 lodged.limits⟩, off⟩

/-- A block in free pages that the list does not know as a module. -/
theorem Lodged.block {ground : Nat → Prop} {regions : RegionList W} {region : Region W}
    {attr : Attr} {size addr : Nat} (lodged : Lodged ground [] 0 s)
    (found : s.memory.findFreeRam (roundPage W size) modAddr W.maxWord pageShift Memory.anyNode =
      .ok addr) (nonzero : addr ≠ 0)
    (made : Region.startSize addr (roundPage W size) attr = .ok region)
    (added : s.memory.regions.add region = .ok regions) :
    (∀ p, ground p → CoveredBy regions.reg Foreign p) ∧
      ∀ i < s.mods.length, ∀ p, s.Image i p → (p < addr ∨ addr + roundPage W size ≤ p) ∧
        ∀ z ∈ regions.reg, Foreign z.attr → p < z.begin ∨ z.last < p := by
  have pages : 2 ^ pageShift ∣ roundPage W size := W.dvd_round_size pageShift size
  have word : roundPage W size < W.modulus := W.round_size_lt pageShift size
  obtain ⟨pos, aligned, _, free⟩ := Memory.find_free_ram_placed found nonzero
  rw [round_page_of_dvd pages word] at pos free
  have page : 2 ^ pageShift ≤ roundPage W size := Nat.le_of_dvd pos pages
  have pageSize : 2 ≤ 2 ^ pageShift := by decide
  obtain ⟨_, begins, ends, _⟩ := Region.start_size_last made word
  have joined := RegionList.add_joined lodged.housed.order lodged.limits (by omega) aligned pages
    free (by omega) added
  refine ⟨fun p inGround => joined.covers lodged.housed.order (lodged.housed.ground p inGround), ?_⟩
  intro i inside p inImage
  have outside := (lodged.covered inside inImage).outside free
  refine ⟨outside, ?_⟩
  intro z member foreign
  have divided := lodged.housed.divided p ⟨i, inside, by simp, inImage⟩
  exact (joined.avoids divided (fun _ isModule other => other isModule) (by omega) member
    foreign).symm

variable {abi : L4modAbi W} {descriptors : Descriptors W} {lost : Run W BootInfo}
  {internals : InternalModuleList W} {mbi : BootInfo}

/-- Descriptors in entries that are none of modules are out of the way of all places. -/
theorem places_clear (fresh : s.sorter = []) (ready : ReadyToPlace build s)
    (reserved : ∀ p, InAreas descriptors.areas p → CoveredBy s.memory.regions.reg Foreign p) :
    PlacesClear abi build descriptors internals modAddr s := by
  constructor
  · intro between placed
    obtain ⟨_, off⟩ := place_modules_lodged fresh ready placed
    rw [Descriptors.hit_eq_false]
    intro area member p above below inAreas
    obtain ⟨i, isMoved, inPut⟩ := List.mem_flatMap.mp member
    rcases off i with same | pages
    · simp [same] at isMoved
    · exact pages.put_areas build inPut above below (reserved p inAreas)
  · intro between addr regions placed block
    obtain ⟨lodged, _⟩ := place_modules_lodged fresh ready placed
    exact block.clear fun p inAreas =>
      (lodged.housed.ground p (reserved p inAreas)).imp fun _ _ => trivial

/-- A compressing build leaves few modules where they are, on other entries as well. -/
theorem construct_mbi_few_modules {zlib : Zlib} {copyIndex : Nat → Int} {size : Nat}
    (few : s.mods.length ≤ numBaseModules)
    (spared : Spared abi (.compress zlib copyIndex) descriptors internals modAddr s)
    (ran : constructMbi abi (.compress zlib copyIndex) descriptors lost internals modAddr s =
      .ok mbi t) :
    t.mods = s.mods ∧ (KeptApart s t mbi.addr size →
      ∀ i < s.mods.length, ∀ p, s.Image i p → ∀ z ∈ s.memory.regions.reg,
        z.attr.name ≠ .modReg → p < z.begin ∨ z.last < p) := by
  obtain ⟨between, placed, _, sameMods, _⟩ := construct_mbi_ok ran spared
  rw [placeModules, get_bind, CheckedState.bind_ok_iff] at placed
  obtain ⟨_, checked, isChecked, placed⟩ := placed
  rw [check_sizes_ok isChecked, CheckedState.bind_ok_iff] at placed
  obtain ⟨_, relocated, isRelocated, merged⟩ := placed
  simp only [relocateModules, get_bind] at isRelocated
  rw [if_neg (Nat.not_lt.mpr few), pure_ok_iff] at isRelocated
  obtain ⟨regions, _, same⟩ := update_regions_ok merged
  have stays : t.mods = s.mods := by
    rw [sameMods, same, isRelocated.2]
    rfl
  refine ⟨stays, ?_⟩
  intro apart i inside p inImage z member foreign
  apply apart.before i (by rw [stays]; exact inside) p _ z member foreign
  rw [Machine.Image, Machine.imageEnd, Machine.module, stays]
  exact inImage

end

/-- The entries of five modules and an ELF segment on the first one. -/
def elfRegions : List (Region .w64) := [
  .fixed 0x1000 0x1fff { name := .literal ".modinfo", type := .boot } (.refl true),
  .fixed 0x2000 0x23ff { name := .modReg, type := .boot, subType := 0 } (.refl true),
  .fixed 0x2200 0x23ff { name := .literal "fiasco", type := .kernel } (.refl true),
  .fixed 0x2400 0x27ff { name := .modReg, type := .boot, subType := 1 } (.refl true),
  .fixed 0x2800 0x2bff { name := .modReg, type := .boot, subType := 2 } (.refl true),
  .fixed 0x3000 0x3027 { name := .modReg, type := .boot, subType := 3 } (.refl true),
  .fixed 0x3800 0x47ff { name := .modReg, type := .boot, subType := 4 } (.refl true)]

def elfOnModule : Machine .w64 :=
  packedModules.withRegions { Memory.unlimited elfRegions with combinedSize := 11816 }

theorem elf_on_module_ready : ReadyToUnpack stackCopies elfOnModule := by
  have entries : ∀ i < elfOnModule.mods.length, (elfOnModule.module i).isBaseModule = true →
      2 ≤ (elfOnModule.module i).size ∧ (elfOnModule.module i).size < Wordsize.w64.modulus ∧
        ∃ e ∈ elfOnModule.memory.regions.reg, (elfOnModule.module i).region i = .ok e ∧
          ∀ r ∈ elfOnModule.memory.regions.reg, r.attr = e.attr → r = e := by
    decide +kernel
  constructor
  · decide +kernel
  · intro i inside isBase
    obtain ⟨two, word, e, member, made, unique⟩ := entries i inside isBase
    exact ⟨two, word, e, made, member, unique⟩
  · decide +kernel
  · unfold EntriesApart OfModule
    decide +kernel
  · exact ⟨by decide +kernel, by decide +kernel⟩
  · exact ⟨rfl, rfl, by decide +kernel⟩

def fiveModuleDescriptors : Descriptors .w64 := ⟨fiveDescriptors, shortCmdlines⟩

/-- A build that unpacks the modules of the examples. -/
def zerosBuild : Build :=
  .compress (Zlib.single packedZeros (List.replicate 0x1800 0)) stackCopies

/-- A kernel and a module of one byte. -/
def oneByteBeside : Machine .w64 :=
  { twoModules with mods := [⟨0x5000, 0x1001, 0x1001, .kernel⟩, ⟨0x2000, 1, 1, .unspec⟩] }

end L4Bootstrap
