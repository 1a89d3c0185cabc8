import L4Bootstrap.DecompressMods
import L4Bootstrap.ImageMbi
import L4Bootstrap.RegionApart

/-!
# Entries for all placed modules

Where a module has been put, the region list gets an entry for it. From then on the bytes
of the module are taken, and no merge of other entries reaches across them. The list may
still lose the entries of modules that are not placed yet.
-/

namespace L4Bootstrap

open MachineWord CheckedState

set_option autoImplicit false

variable {W : Wordsize}

/-- The attributes of an entry of some module. -/
def OfModule (attr : Attr) : Prop := attr.name = .modReg

/-- The attributes of an entry of something else. -/
def Foreign (attr : Attr) : Prop := ¬ OfModule attr

instance (attr : Attr) : Decidable (OfModule attr) := inferInstanceAs (Decidable (_ = _))

instance (attr : Attr) : Decidable (Foreign attr) := inferInstanceAs (Decidable (¬ _))

/-- The bytes `home` of the placed modules have entries, with attributes in `keep`, that keep
all others away. The bytes `ground` are those of the others. -/
structure Housed (keep : Attr → Prop) (ground home : Nat → Prop) (reg : List (Region W)) :
    Prop where
  order : MergeOrder reg
  apart : EntriesApart OfModule reg
  covered : ∀ p, home p → CoveredBy reg keep p
  divided : ∀ p, home p → Divided keep Foreign reg p
  ground : ∀ p, ground p → CoveredBy reg Foreign p

section

variable {keep : Attr → Prop} {ground home : Nat → Prop} {reg : List (Region W)}
  {before after : RegionList W} {region : Region W}

/-- Before any module is placed. -/
theorem housed_start (order : MergeOrder reg) (apart : EntriesApart OfModule reg)
    (covers : ∀ p, ground p → CoveredBy reg Foreign p) :
    Housed keep ground (fun _ => False) reg :=
  ⟨order, apart, fun _ => False.elim, fun _ => False.elim, covers⟩

theorem Housed.imp {kept : Attr → Prop} {fewer : Nat → Prop} (housed : Housed keep ground home reg)
    (weaker : ∀ attr, keep attr → kept attr) (less : ∀ p, fewer p → home p) :
    Housed kept ground fewer reg :=
  ⟨housed.order, housed.apart, fun p inHome => (housed.covered p (less p inHome)).imp weaker,
    fun p inHome => (housed.divided p (less p inHome)).imp weaker, housed.ground⟩

/-- An entry of a placed module for its region. -/
theorem Housed.add (housed : Housed keep ground home before.reg)
    (added : RegionList.Added before region after) (joined : before.Joined region after)
    (kept : keep region.attr) (isModule : OfModule region.attr) :
    Housed keep ground (fun p => home p ∨ region.begin ≤ p ∧ p ≤ region.last) after.reg := by
  have neutral : ¬ Foreign region.attr := fun foreign => foreign isModule
  constructor
  · exact added.order
  · exact joined.entries_apart housed.order housed.apart
  · rintro p (inHome | inside)
    · exact added.covers _ _ (housed.covered p inHome)
    · exact ⟨region, added.member, kept, inside⟩
  · rintro p (inHome | ⟨above, below⟩)
    · exact joined.divided (housed.divided p inHome) neutral
    · apply (joined.itself added.order neutral above below).imp
      rintro attr rfl
      exact kept
  · intro p inGround
    exact added.covers _ _ (housed.ground p inGround)

/-- The entries of a module that is not placed yet can go. -/
theorem Housed.drop {index : Nat} (housed : Housed keep ground home before.reg)
    (spared : ∀ attr, keep attr → ¬ IsSlotOf index attr) :
    Housed keep ground home (before.dropModRegion index).reg := by
  have dropped := drop_mod_region_dropped index before
  constructor
  · exact housed.order.sublist dropped.fewer
  · exact housed.apart.sublist dropped.fewer
  · intro p inHome
    apply dropped.covers _ (housed.covered p inHome)
    intro attr kept i isIndex
    rw [List.mem_singleton.mp isIndex]
    exact spared attr kept
  · intro p inHome
    unfold RegionList.dropModRegion
    cases found : before.reg.findIdx? (isRegionOf (index : Int)) with
    | none => exact housed.divided p inHome
    | some i =>
        apply (housed.divided p inHome).erase_idx
        intro r isAt kept
        obtain ⟨inside, isRegion, _⟩ := List.findIdx?_eq_some_iff_getElem.mp found
        rw [List.getElem?_eq_getElem inside, Option.some.injEq] at isAt
        rw [isAt, is_region_of_iff] at isRegion
        exact spared r.attr kept isRegion
  · intro p inGround
    apply dropped.covers _ (housed.ground p inGround)
    rintro attr foreign i _ ⟨isModule, _⟩
    exact foreign isModule

/-- A module that stays where it is, on an entry of its own that no other entry touches. -/
theorem Housed.settle {e : Region W} (housed : Housed keep ground home reg) (member : e ∈ reg)
    (kept : keep e.attr)
    (clear : ∀ z ∈ reg, Foreign z.attr → z.last < e.begin ∨ e.last < z.begin) :
    Housed keep ground (fun p => home p ∨ e.begin ≤ p ∧ p ≤ e.last) reg := by
  constructor
  · exact housed.order
  · exact housed.apart
  · rintro p (inHome | inside)
    · exact housed.covered p inHome
    · exact ⟨e, member, kept, inside⟩
  · rintro p (inHome | ⟨above, below⟩)
    · exact housed.divided p inHome
    · exact divided_of_entry housed.order member kept clear above below
  · exact housed.ground

end

/-! ## Modules that are moved as they are -/

section

variable {ground home : Nat → Prop} {s t : Machine W} {index dest more : Nat}
  {rest plan : List (Nat × Nat)}

/-- A module of at least two bytes gets an entry in its slot. -/
theorem ModuleMoved.housed (moved : ModuleMoved .image index dest s t)
    (slots : PlanApart s.slot ((index, dest) :: rest)) (two : 2 ≤ (s.module index).size)
    (reserving : Reserving s.slot ((index, dest) :: rest) more s.memory.regions)
    (housed : Housed OfModule ground home s.memory.regions.reg) :
    Housed OfModule ground (fun p => home p ∨ dest ≤ p ∧ p < dest + (s.module index).size)
        t.memory.regions.reg ∧
      Reserving s.slot rest more t.memory.regions := by
  have sizeUp : (s.module index).size ≤ s.slot index := le_round_up pageShift _
  have maxWord : W.maxWord = W.modulus - 1 := rfl
  have room : s.memory.regions.combinedSize + (s.slot index + _ + more) < W.maxWord :=
    reserving.limits.room
  obtain ⟨region, begins, ends, attr, added⟩ := moved.region (by omega)
  obtain ⟨entered, next⟩ := reserving.enter slots (by omega) ⟨begins, by omega⟩ added
  have joined := RegionList.add_joined reserving.order reserving.limits (by omega)
    (slots.aligned (index, dest) (by simp)) (slots.pages index)
    (reserving.free (index, dest) (by simp)) (by omega) added
  have isModule : OfModule region.attr := by
    rw [attr]
    rfl
  refine ⟨(housed.add entered joined isModule isModule).imp (fun _ kept => kept) ?_, next⟩
  rintro p (inHome | inside)
  · exact .inl inHome
  · right
    omega

theorem Moves.housed (moves : Moves .image s plan t) (slots : PlanApart s.slot plan)
    (two : ∀ move ∈ plan, 2 ≤ (s.module move.1).size)
    (reserving : Reserving s.slot plan more s.memory.regions)
    (housed : Housed OfModule ground home s.memory.regions.reg) :
    Housed OfModule ground
        (fun p => home p ∨ ∃ move ∈ plan, move.2 ≤ p ∧ p < move.2 + (s.module move.1).size)
        t.memory.regions.reg ∧
      Reserving s.slot [] more t.memory.regions := by
  induction moves generalizing home with
  | nil s => exact ⟨housed.imp (fun _ kept => kept) (by simp), reserving⟩
  | @cons s u t index dest rest moved moves ih =>
      obtain ⟨first, next⟩ := moved.housed slots (two (index, dest) (by simp)) reserving housed
      have sameSlot : u.slot = s.slot := (Moves.cons moved (.nil u)).slot_eq
      rw [← sameSlot] at next slots ⊢
      obtain ⟨last, done⟩ := ih slots.later
        (fun move inRest => by
          rw [moved.size]
          exact two move (by simp [inRest])) next first
      refine ⟨last.imp (fun _ kept => kept) ?_, done⟩
      rintro p (inHome | ⟨move, member, inside⟩)
      · exact .inl (.inl inHome)
      · rcases List.mem_cons.mp member with rfl | inRest
        · exact .inl (.inr inside)
        · rw [← moved.size] at inside
          exact .inr ⟨move, inRest, inside⟩

end

/-! ## Modules that are unpacked -/

/-- The attributes of entries that stay while the modules of a plan lose theirs. -/
def Stays (plan : List (Nat × Nat)) (attr : Attr) : Prop :=
  OfModule attr ∧ ∀ move ∈ plan, ¬ IsSlotOf move.1 attr

section

variable {zlib : Zlib} {ground home : Nat → Prop} {s t : Machine W} {index dest more : Nat}
  {rest plan : List (Nat × Nat)}

theorem Sole.sublist {reg part : List (Region W)} {e : Region W} (sole : Sole reg e)
    (sub : part.Sublist reg) (member : e ∈ part) : Sole part e :=
  ⟨member, fun r inPart => sole.unique r (sub.subset inPart)⟩

/-- The only entry with its attributes is not dropped with those of other modules. -/
theorem Sole.dropped {indexes : List Int} {before after : RegionList W} {e : Region W}
    (sole : Sole before.reg e) (dropped : Dropped indexes before after)
    (other : ∀ i ∈ indexes, ¬ IsSlotOf i e.attr) : Sole after.reg e := by
  apply sole.sublist dropped.fewer
  apply dropped.keeps e sole.member
  intro i isIndex
  rw [← Bool.not_eq_true, is_region_of_iff]
  exact other i isIndex

/-- An unpacked module gets an entry for its slot. -/
theorem ModuleUnpacked.housed (step : ModuleUnpacked zlib index dest s t)
    (indexSmall : index < 256) (fresh : index ∉ rest.map Prod.fst)
    (slots : PlanApart s.unpacked ((index, dest) :: rest))
    (reserving : Reserving s.unpacked ((index, dest) :: rest) more s.memory.regions)
    (housed : Housed (Stays ((index, dest) :: rest)) ground home s.memory.regions.reg) :
    Housed (Stays rest) ground (fun p => home p ∨ dest ≤ p ∧ p < dest + s.unpacked index)
        t.memory.regions.reg ∧
      Reserving s.unpacked rest more t.memory.regions ∧
      ∀ e, Sole s.memory.regions.reg e → ¬ IsSlotOf index e.attr →
        Sole t.memory.regions.reg e := by
  have maxWord : W.maxWord = W.modulus - 1 := rfl
  have room : s.memory.regions.combinedSize + (s.unpacked index + _ + more) < W.maxWord :=
    reserving.limits.room
  obtain ⟨pos, _, region, begins, ends, name, subType, added⟩ := step.slot (by omega)
  have page : 2 ^ pageShift ≤ s.unpacked index := Nat.le_of_dvd pos (slots.pages index)
  have pageSize : 2 ≤ 2 ^ pageShift := by decide
  have dropped := drop_mod_region_dropped index s.memory.regions
  have ready := reserving.dropped dropped
  obtain ⟨entered, next⟩ := ready.enter slots (by omega) ⟨begins, by omega⟩ added
  have joined := RegionList.add_joined ready.order ready.limits (by omega)
    (slots.aligned (index, dest) (by simp)) (slots.pages index)
    (ready.free (index, dest) (by simp)) (by omega) added
  have isSlot : IsSlotOf index region.attr := by
    refine ⟨name, ?_⟩
    rw [subType, UInt8.toNat_ofNat', Nat.mod_eq_of_lt indexSmall]
  have stays : Stays rest region.attr := by
    refine ⟨name, ?_⟩
    rintro move inRest ⟨_, isOther⟩
    rw [isSlot.2] at isOther
    exact fresh (Int.ofNat_inj.mp isOther ▸ List.mem_map_of_mem inRest)
  have less : Housed (Stays ((index, dest) :: rest)) ground home
      (s.memory.regions.dropModRegion index).reg :=
    housed.drop fun attr kept => kept.2 (index, dest) (by simp)
  have weaker : Housed (Stays rest) ground home (s.memory.regions.dropModRegion index).reg :=
    less.imp (fun attr kept => ⟨kept.1, fun move inRest => kept.2 move (by simp [inRest])⟩)
      fun _ inHome => inHome
  refine ⟨(weaker.add entered joined stays stays.1).imp (fun _ kept => kept) ?_, next, ?_⟩
  · rintro p (inHome | inside)
    · exact .inl inHome
    · right
      omega
  · intro e sole other
    apply joined.sole ready.order (sole.dropped dropped (by simpa using other))
    intro same
    exact other (same ▸ isSlot)

theorem Unpackings.housed (steps : Unpackings zlib s plan t)
    (indexes : ∀ move ∈ plan, move.1 < 256) (distinct : (plan.map Prod.fst).Nodup)
    (slots : PlanApart s.unpacked plan)
    (reserving : Reserving s.unpacked plan more s.memory.regions)
    (housed : Housed (Stays plan) ground home s.memory.regions.reg) :
    Housed OfModule ground
        (fun p => home p ∨ ∃ move ∈ plan, move.2 ≤ p ∧ p < move.2 + s.unpacked move.1)
        t.memory.regions.reg ∧
      Reserving s.unpacked [] more t.memory.regions ∧
      ∀ e, Sole s.memory.regions.reg e → (∀ move ∈ plan, ¬ IsSlotOf move.1 e.attr) →
        Sole t.memory.regions.reg e := by
  induction steps generalizing home with
  | nil s =>
      exact ⟨housed.imp (fun _ kept => kept.1) (by simp), reserving, fun _ sole _ => sole⟩
  | @cons s u t index dest rest step steps ih =>
      simp only [List.map_cons, List.nodup_cons] at distinct
      obtain ⟨first, next, kept⟩ := step.housed (indexes (index, dest) (by simp)) distinct.1 slots
        reserving housed
      rw [← step.unpacked] at next slots ⊢
      obtain ⟨last, done, later⟩ := ih (fun move inRest => indexes move (by simp [inRest]))
        distinct.2 slots.later next first
      refine ⟨last.imp (fun _ isKept => isKept) ?_, done, ?_⟩
      · rintro p (inHome | ⟨move, member, inside⟩)
        · exact .inl (.inl inHome)
        · rcases List.mem_cons.mp member with rfl | inRest
          · rw [step.unpacked] at inside
            exact .inl (.inr inside)
          · exact .inr ⟨move, inRest, inside⟩
      · intro e sole other
        exact later e (kept e sole (other (index, dest) (by simp)))
          fun move inRest => other move (by simp [inRest])

end

/-! ## Merging the regions of all modules -/

/-- What `merge_mod_regions` does to an entry before it optimizes the list. -/
def retagged (r : Region W) : Region W :=
  if isModuleRegion r then { r with attr := { r.attr with subType := rootSectionRwx } } else r

section

variable {keep : Attr → Prop} {ground home : Nat → Prop} {reg : List (Region W)}
  {before after : RegionList W}

theorem retagged_place (r : Region W) :
    (retagged r).begin = r.begin ∧ (retagged r).last = r.last := by
  unfold retagged
  split_ifs
  · exact ⟨rfl, rfl⟩
  · exact ⟨rfl, rfl⟩

theorem retagged_name (r : Region W) : (retagged r).attr.name = r.attr.name := by
  unfold retagged
  split_ifs <;> rfl

theorem retagged_foreign {r : Region W} (foreign : Foreign r.attr) : retagged r = r := by
  unfold retagged
  rw [if_neg]
  simp only [isModuleRegion, decide_eq_true_eq]
  exact foreign

/-- The entries of the modules get equal attributes; they are in order, as none of them
overlaps another one. -/
theorem retagged_order (order : MergeOrder reg) (apart : EntriesApart OfModule reg) :
    MergeOrder (reg.map retagged) := by
  constructor
  · rw [List.pairwise_map]
    apply order.reaches.imp
    intro r o reaches
    rw [(retagged_place r).1, (retagged_place o).2]
    exact reaches
  · rw [List.pairwise_map]
    apply ((order.reaches.and order.same).and apart).imp
    rintro r o ⟨⟨reaches, same⟩, apart⟩ equal
    rw [(retagged_place r).1, (retagged_place r).2, (retagged_place o).1, (retagged_place o).2]
    have names : r.attr.name = o.attr.name := by
      rw [← retagged_name r, ← retagged_name o, equal]
    by_cases isModule : OfModule r.attr
    · have either := apart isModule (names.symm.trans isModule)
      have := r.ordered
      have := o.ordered
      omega
    · have isForeign : Foreign o.attr := fun other => isModule (names.trans other)
      rw [retagged_foreign isModule, retagged_foreign isForeign] at equal
      exact same equal

theorem CoveredBy.retagged {kept : Attr → Prop} {p : Nat} (covered : CoveredBy reg keep p)
    (keeps : ∀ r ∈ reg, keep r.attr → kept (L4Bootstrap.retagged r).attr) :
    CoveredBy (reg.map L4Bootstrap.retagged) kept p := by
  obtain ⟨r, member, isKept, above, below⟩ := covered
  refine ⟨_, List.mem_map_of_mem member, keeps r member isKept, ?_, ?_⟩
  · rw [(retagged_place r).1]
    exact above
  · rw [(retagged_place r).2]
    exact below

theorem Housed.retagged (housed : Housed OfModule ground home reg) :
    Housed OfModule ground home (reg.map L4Bootstrap.retagged) := by
  constructor
  · exact retagged_order housed.order housed.apart
  · apply List.pairwise_map.mpr
    apply housed.apart.imp
    intro r o apart rModule oModule
    unfold OfModule at rModule oModule
    rw [retagged_name] at rModule oModule
    rw [(retagged_place r).1, (retagged_place r).2, (retagged_place o).1, (retagged_place o).2]
    exact apart rModule oModule
  · intro p inHome
    exact (housed.covered p inHome).retagged fun r _ kept => (retagged_name r).trans kept
  · intro p inHome
    apply (housed.divided p inHome).map retagged_place
    · exact fun r kept => (retagged_name r).trans kept
    · exact fun r foreign isModule => foreign ((retagged_name r).trans isModule)
  · intro p inGround
    apply (housed.ground p inGround).retagged
    intro r _ foreign
    rw [retagged_foreign foreign]
    exact foreign

theorem Housed.optimized (housed : Housed OfModule ground home before.reg)
    (made : before.optimize = .ok after) : Housed OfModule ground home after.reg := by
  obtain ⟨merged, _⟩ := RegionList.optimize_merged housed.order made
  exact ⟨merged.order, optimize_apart housed.order housed.apart made,
    fun p inHome => merged.covers _ _ (housed.covered p inHome),
    fun p inHome => optimize_divided (housed.divided p inHome) made,
    fun p inGround => merged.covers _ _ (housed.ground p inGround)⟩

theorem merge_mod_regions_housed {s t : Machine W}
    (housed : Housed OfModule ground home s.memory.regions.reg)
    (ran : mergeModRegions s = .ok () t) :
    ∃ regions, t = s.withRegions regions ∧ Housed OfModule ground home regions.reg ∧
      ∀ bytes, s.memory.regions.Unlimited bytes → regions.Unlimited bytes := by
  obtain ⟨regions, made, rfl⟩ := update_regions_ok ran
  have retagged : Housed OfModule ground home
      ({ s.memory.regions with
        reg := s.memory.regions.reg.map L4Bootstrap.retagged } : RegionList W).reg :=
    housed.retagged
  refine ⟨regions, rfl, retagged.optimized made, ?_⟩
  intro bytes limits
  obtain ⟨_, same⟩ := RegionList.optimize_merged retagged.order made
  rw [same]
  exact ⟨limits.address, limits.combined, limits.room⟩

end

end L4Bootstrap
