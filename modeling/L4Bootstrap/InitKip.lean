import L4Bootstrap.Region
import L4Bootstrap.SearchKip

/-!
# The memory descriptors of the kernel info page

`init_kip_md` of `init_kip.cc`. The descriptors are the arguments of `Mem_desc::set`,
one behind the other from `Mem_desc::first` on. RAM is rounded to whole KiB on the
words of the machine.
-/

namespace L4Bootstrap

open MachineWord CheckedLoop

set_option autoImplicit false

/-- `Mem_desc::Mem_type`. -/
inductive MemType
  | conventional
  | reserved
  | dedicated
  | bootloader
  | arch
  | info
  | kmem
  deriving DecidableEq, Repr

structure MemDesc where
  begin : Nat
  last : Nat
  type : MemType
  subType : Subtype := 0
  virt : Bool := false
  eager : Bool := false
  deriving DecidableEq, Repr

variable {W : Wordsize}

def conventionalDesc (W : Wordsize) (r : Region W) : MemDesc where
  begin := W.roundSize 10 r.begin
  last := W.sub (truncSize 10 (W.add r.last 1)) 1
  type := .conventional

/-- The `switch` over the type; `none` goes on with the next region. -/
def regionDesc (r : Region W) : Option MemDesc :=
  match r.attr.type with
  | .noMem | .ramDontUse | .boot => none
  | .kmem => some ⟨r.begin, r.last, .kmem, 0, false, r.attr.eager⟩
  | .kernel => some ⟨r.begin, r.last, .reserved, 0, false, r.attr.eager⟩
  | .sigma0 => some ⟨r.begin, r.last, .dedicated, 0, false, r.attr.eager⟩
  | .root => some ⟨r.begin, r.last, .bootloader, r.attr.subType, false, r.attr.eager⟩
  | .arch => some ⟨r.begin, r.last, .arch, r.attr.subType, false, r.attr.eager⟩
  | .info => some ⟨r.begin, r.last, .info, r.attr.subType, false, r.attr.eager⟩

/-- `md` is the result of `Mem_desc::first (l4i)`. -/
def initKipMd (W : Wordsize) (L : KipLayout) (l4i md : Nat) (ram regions : RegionList W) :
    Checked (List MemDesc) := do
  require (L.size ≤ W.sub md l4i)
  pure (ram.reg.map (conventionalDesc W) ++ regions.reg.filterMap regionDesc)

/-! ## Whole KiB of a region -/

def kib : Nat := 1024

/-- The area from `begin` to `last` is a part of the region of whole KiB. -/
structure KibArea (r : Region W) (begin last : Nat) : Prop where
  lower : r.begin ≤ begin
  upper : last ≤ r.last
  ordered : begin ≤ last
  aligned : kib ∣ begin
  alignedEnd : kib ∣ last + 1

structure LargestKibArea (r : Region W) (begin last : Nat) : Prop extends KibArea r begin last where
  largest : ∀ otherBegin otherLast, KibArea r otherBegin otherLast →
    begin ≤ otherBegin ∧ otherLast ≤ last

/-- The region has an aligned KiB in it. -/
def HoldsKib (r : Region W) : Prop := ∃ k, r.begin ≤ kib * k ∧ kib * k + (kib - 1) ≤ r.last

/-- One descriptor for each RAM region that has an aligned KiB, and none for the others. -/
inductive DescribesRam : List (Region W) → List MemDesc → Prop
  | nil : DescribesRam [] []
  | skip {r : Region W} {ram : List (Region W)} {descs : List MemDesc}
      (tooSmall : ∀ begin last, ¬KibArea r begin last) (rest : DescribesRam ram descs) :
      DescribesRam (r :: ram) descs
  | take {r : Region W} {ram : List (Region W)} {desc : MemDesc} {descs : List MemDesc}
      (conventional : desc.type = .conventional)
      (largest : LargestKibArea r desc.begin desc.last) (rest : DescribesRam ram descs) :
      DescribesRam (r :: ram) (desc :: descs)

def reported (r : Region W) : Bool :=
  decide (r.attr.type ≠ .noMem ∧ r.attr.type ≠ .boot ∧ r.attr.type ≠ .ramDontUse)

/-- What a region of some type is for the kernel; `none` is not reported. -/
def memTypeOf : RegionType → Option MemType
  | .noMem => none
  | .kernel => some .reserved
  | .sigma0 => some .dedicated
  | .boot => none
  | .root => some .bootloader
  | .arch => some .arch
  | .ramDontUse => none
  | .info => some .info
  | .kmem => some .kmem

/-- The types that have subtypes. -/
def HasSubtype (type : RegionType) : Prop := type = .root ∨ type = .arch ∨ type = .info

structure DescribesRegion (r : Region W) (desc : MemDesc) : Prop where
  begin_eq : desc.begin = r.begin
  last_eq : desc.last = r.last
  type_eq : memTypeOf r.attr.type = some desc.type
  sub_type_eq : HasSubtype r.attr.type → desc.subType = r.attr.subType
  no_sub_type : ¬HasSubtype r.attr.type → desc.subType = noSubtype
  physical : desc.virt = false
  eager_eq : desc.eager = r.attr.eager

/-- First the RAM, then the regions whose type is reported, each in the order of its list. -/
structure KipMdExact (ram regions : List (Region W)) (descs : List MemDesc) : Prop where
  parts : ∃ conventional typed, descs = conventional ++ typed ∧ DescribesRam ram conventional ∧
    List.Forall₂ DescribesRegion (regions.filter reported) typed
  insideRam : ∀ desc ∈ descs, desc.type = .conventional →
    ∀ p, desc.begin ≤ p → p ≤ desc.last → ∃ r ∈ ram, r.begin ≤ p ∧ p ≤ r.last

theorem kib_shift_le_bits (W : Wordsize) : 10 ≤ W.bits := by
  cases W <;> decide

section

variable {r : Region W} {ram regions : List (Region W)} {begin last : Nat}

theorem kib_dvd_modulus : kib ∣ W.modulus := W.pow_dvd_modulus (kib_shift_le_bits W)

theorem KibArea.holds_kib (area : KibArea r begin last) : HoldsKib r := by
  obtain ⟨k, rfl⟩ := area.aligned
  have gap := Nat.le_of_dvd (by have := area.ordered; omega)
    ((Nat.dvd_sub_iff_left (by have := area.ordered; omega) ⟨k, rfl⟩).mpr area.alignedEnd)
  have upper := area.upper
  unfold kib at gap
  refine ⟨k, area.lower, ?_⟩
  unfold kib at *
  omega

/-- Rounding on the unbounded numbers. -/
theorem largest_kib_area (holds : HoldsKib r) :
    LargestKibArea r (roundUp 10 r.begin) (truncSize 10 (r.last + 1) - 1) := by
  obtain ⟨k, lower, upper⟩ := holds
  have kibPos : 0 < kib := by decide
  have begins : roundUp 10 r.begin ≤ kib * k := round_up_le ⟨k, rfl⟩ lower
  have ends : kib * (k + 1) ≤ truncSize 10 (r.last + 1) := by
    have whole : kib * (k + 1) ≤ r.last + 1 := by
      rw [Nat.mul_succ]
      omega
    exact le_trunc_size (Dvd.intro (k + 1) rfl) whole
  rw [Nat.mul_succ] at ends
  have below := trunc_size_le 10 (r.last + 1)
  have back : truncSize 10 (r.last + 1) - 1 + 1 = truncSize 10 (r.last + 1) := by omega
  refine ⟨⟨le_round_up 10 _, by omega, by omega, dvd_round_up 10 _, ?_⟩, ?_⟩
  · rw [back]
    exact dvd_trunc_size 10 _
  · intro otherBegin otherLast area
    refine ⟨round_up_le area.aligned area.lower, ?_⟩
    have largest : otherLast + 1 ≤ truncSize 10 (r.last + 1) :=
      le_trunc_size area.alignedEnd (Nat.succ_le_succ area.upper)
    omega

theorem truncated_end : W.sub (truncSize 10 (W.add r.last 1)) 1 =
    (truncSize 10 (r.last + 1) + W.modulus - 1) % W.modulus := by
  have bounded := r.bounded
  rcases Nat.lt_or_eq_of_le (Nat.succ_le_of_lt bounded) with below | top
  · rw [W.add_of_lt below, Wordsize.sub]
  · have wrapped : W.add r.last 1 = 0 := by
      rw [Wordsize.add]
      exact top ▸ Nat.mod_self _
    have whole : truncSize 10 (r.last + 1) = W.modulus := by
      rw [← Nat.succ_eq_add_one, top]
      exact trunc_size_of_dvd kib_dvd_modulus
    have modulusPos := W.modulus_pos
    rw [wrapped, whole, Wordsize.sub, truncSize, Nat.zero_mod, Nat.sub_zero, Nat.zero_add,
      Nat.add_sub_assoc (by omega), Nat.add_mod_left]

/-- With an aligned KiB in the region the words of the machine suffice. -/
theorem conventional_desc_eq (holds : HoldsKib r) :
    (conventionalDesc W r).begin = roundUp 10 r.begin ∧
      (conventionalDesc W r).last = truncSize 10 (r.last + 1) - 1 := by
  have area := (largest_kib_area holds).toKibArea
  have bounded := r.bounded
  have ordered := area.ordered
  have upper := area.upper
  have nonzero : 0 < truncSize 10 (r.last + 1) := by
    have ends := area.alignedEnd
    by_contra zero
    rw [Nat.eq_zero_of_not_pos zero] at ends
    exact absurd (Nat.le_of_dvd (by decide) ends) (by decide)
  constructor
  · exact W.round_size_eq (kib_shift_le_bits W) (by omega)
  · have shift : truncSize 10 (r.last + 1) + W.modulus - 1 =
        truncSize 10 (r.last + 1) - 1 + W.modulus := by omega
    rw [conventionalDesc, truncated_end, shift, Nat.add_mod_right, Nat.mod_eq_of_lt (by omega)]

theorem conventional_desc_largest (holds : HoldsKib r) :
    LargestKibArea r (conventionalDesc W r).begin (conventionalDesc W r).last := by
  rw [(conventional_desc_eq holds).1, (conventional_desc_eq holds).2]
  exact largest_kib_area holds

theorem describes_ram (holds : ∀ r ∈ ram, HoldsKib r) :
    DescribesRam ram (ram.map (conventionalDesc W)) := by
  induction ram with
  | nil => exact .nil
  | cons r ram ih =>
      exact .take rfl (conventional_desc_largest (holds r List.mem_cons_self))
        (ih fun other member => holds other (List.mem_cons_of_mem _ member))

theorem DescribesRam.length_le {descs : List MemDesc} (describes : DescribesRam ram descs) :
    descs.length ≤ ram.length := by
  induction describes with
  | nil => exact Nat.le_refl _
  | skip _ _ ih => exact Nat.le_succ_of_le ih
  | take _ _ _ ih => exact Nat.succ_le_succ ih

/-- With as many descriptors as regions none is skipped. -/
theorem DescribesRam.holds_kib {descs : List MemDesc} (describes : DescribesRam ram descs)
    (all : ram.length ≤ descs.length) : ∀ r ∈ ram, HoldsKib r := by
  induction describes with
  | nil => exact fun r member => absurd member List.not_mem_nil
  | skip _ rest _ =>
      have fewer := rest.length_le
      rw [List.length_cons] at all
      omega
  | take _ largest _ ih =>
      intro r member
      rcases List.mem_cons.mp member with rfl | later
      · exact largest.toKibArea.holds_kib
      · exact ih (Nat.le_of_succ_le_succ all) r later

theorem DescribesRam.inside {descs : List MemDesc} (describes : DescribesRam ram descs)
    {desc : MemDesc} (member : desc ∈ descs) {p : Nat} (above : desc.begin ≤ p)
    (below : p ≤ desc.last) : ∃ r ∈ ram, r.begin ≤ p ∧ p ≤ r.last := by
  induction describes with
  | nil => exact absurd member List.not_mem_nil
  | skip _ _ ih =>
      obtain ⟨r, inRam, inside⟩ := ih member
      exact ⟨r, List.mem_cons_of_mem _ inRam, inside⟩
  | take _ largest _ ih =>
      rcases List.mem_cons.mp member with rfl | later
      · exact ⟨_, List.mem_cons_self, largest.lower.trans above, below.trans largest.upper⟩
      · obtain ⟨r, inRam, inside⟩ := ih later
        exact ⟨r, List.mem_cons_of_mem _ inRam, inside⟩

/-! ## The regions by their types -/

theorem region_desc_none (hidden : reported r = false) : regionDesc r = none := by
  unfold reported at hidden
  unfold regionDesc
  cases type : r.attr.type <;> simp_all

theorem region_desc_some (isReported : reported r = true) :
    ∃ desc, regionDesc r = some desc ∧ DescribesRegion r desc := by
  unfold reported at isReported
  unfold regionDesc
  cases type : r.attr.type <;> simp [type] at isReported <;>
    exact ⟨_, rfl, rfl, rfl, by rw [type]; rfl, by simp [HasSubtype, type],
      by simp [HasSubtype, type, noSubtype], rfl, rfl⟩

theorem describes_regions :
    List.Forall₂ DescribesRegion (regions.filter reported) (regions.filterMap regionDesc) := by
  induction regions with
  | nil => exact .nil
  | cons r regions ih =>
      cases isReported : reported r with
      | true =>
          obtain ⟨desc, isDesc, describes⟩ := region_desc_some isReported
          rw [List.filter_cons_of_pos isReported, List.filterMap_cons_some isDesc]
          exact .cons describes ih
      | false =>
          rw [List.filter_cons_of_neg (by rw [isReported]; exact Bool.false_ne_true),
            List.filterMap_cons_none (region_desc_none isReported)]
          exact ih

theorem region_desc_type {desc : MemDesc} (isDesc : regionDesc r = some desc) :
    desc.type ≠ .conventional := by
  unfold regionDesc at isDesc
  cases type : r.attr.type <;> rw [type] at isDesc <;> cases isDesc <;> exact MemType.noConfusion

/-- The descriptors are well-formed and exact exactly when each RAM region has an aligned KiB. -/
theorem init_kip_md_exact_iff {L : KipLayout} {l4i md : Nat} {ram regions : RegionList W}
    (behind : L.size ≤ W.sub md l4i) :
    (∃ descs, initKipMd W L l4i md ram regions = .ok descs ∧
        KipMdExact ram.reg regions.reg descs) ↔ ∀ r ∈ ram.reg, HoldsKib r := by
  have returned : initKipMd W L l4i md ram regions =
      .ok (ram.reg.map (conventionalDesc W) ++ regions.reg.filterMap regionDesc) := by
    have passed : require (L.size ≤ W.sub md l4i) = .ok () := require_ok.mpr behind
    rw [initKipMd, passed]
    rfl
  rw [returned]
  constructor
  · rintro ⟨descs, isDescs, ⟨conventional, typed, rfl, ofRam, ofRegions⟩, _⟩
    have lengths := congrArg List.length (Except.ok.inj isDescs)
    rw [List.length_append, List.length_append, List.length_map, ← describes_regions.length_eq,
      ← ofRegions.length_eq] at lengths
    exact ofRam.holds_kib (by omega)
  · intro holds
    refine ⟨_, rfl, ⟨_, _, rfl, describes_ram holds, describes_regions⟩, ?_⟩
    intro desc member conventional p above below
    rcases List.mem_append.mp member with inRam | inRegions
    · exact (describes_ram holds).inside inRam above below
    · obtain ⟨r, _, isDesc⟩ := List.mem_filterMap.mp inRegions
      exact absurd conventional (region_desc_type isDesc)

end

/-- RAM from the middle of a page on, and a kernel in it. -/
def kipRam : RegionList .w64 :=
  ⟨[.fixed 0x1001 0xffff {} (.refl true)], 16, 0, 0, 0⟩

def kipRegions : RegionList .w64 :=
  ⟨[.fixed 0x2000 0x3fff { type := .kernel } (.refl true),
    .fixed 0x5000 0x5fff { type := .boot } (.refl true)], 16, 0, 0, 0⟩

theorem init_kip_md_exact_kernel :
    ∃ descs, initKipMd .w64 smallKip 0x1000 0x1130 kipRam kipRegions = .ok descs ∧
      KipMdExact kipRam.reg kipRegions.reg descs := by
  refine (init_kip_md_exact_iff (by decide)).mpr fun r member => ?_
  rw [List.mem_singleton.mp member]
  exact ⟨5, by decide⟩

/-- Two bytes of RAM. -/
def tinyRam : RegionList .w64 :=
  ⟨[⟨0x1001, 0x1002, {}, by decide, by decide⟩], 16, 0, 0, 0⟩

/-- They are reported from `0x1400` to `0xfff`. -/
theorem init_kip_md_inverted :
    ∃ descs, initKipMd .w64 smallKip 0x1000 0x1130 tinyRam ⟨[], 16, 0, 0, 0⟩ = .ok descs ∧
      descs.map (fun desc => (desc.begin, desc.last)) = [(0x1400, 0xfff)] ∧
      ¬KipMdExact tinyRam.reg [] descs := by
  refine ⟨_, rfl, rfl, ?_⟩
  rintro ⟨⟨conventional, typed, isDescs, ofRam, ofRegions⟩, _⟩
  have noTyped : typed = [] := by
    cases ofRegions
    rfl
  rw [noTyped, List.append_nil] at isDescs
  have holds := ofRam.holds_kib (isDescs ▸ Nat.le_refl _) _ List.mem_cons_self
  obtain ⟨k, lower, upper⟩ := holds
  change 0x1001 ≤ 1024 * k at lower
  change 1024 * k + 1023 ≤ 0x1002 at upper
  omega

end L4Bootstrap
