import L4Bootstrap.RegionLaws

/-!
# The memory map of EFI

`Efi::setup_memory` of `efi-support.cc` takes the memory descriptors of the
firmware in the order in which they come. Descriptors of RAM may overlap. A new
entry is placed in front of the first one that it overlaps, and at the end
`optimize` gives each merged entry the end of the later one, so RAM is kept as
long as a descriptor begins and ends no later than the earlier ones it overlaps.
-/

namespace L4Bootstrap

open MachineWord CheckedLoop

set_option autoImplicit false

variable {W : Wordsize}

namespace Efi

/-- The memory types that `setup_memory` tells apart. -/
inductive MemoryType
  | loaderCode
  | loaderData
  | bootServicesCode
  | bootServicesData
  | conventionalMemory
  | acpiReclaimMemory
  | acpiMemoryNvs
  | other (code : UInt32)
  deriving DecidableEq

structure MemoryDescriptor where
  type : MemoryType
  physicalStart : Nat
  numberOfPages : Nat
  deriving DecidableEq

/-- The answer of `LibMemoryMap`. -/
structure MemoryMap where
  version : UInt32
  descriptors : List MemoryDescriptor

/-- Subtypes that are numbered by the kernel interface page. -/
structure KipSubtypes where
  archAcpi : Subtype
  archNvs : Subtype
  infoAcpiRsdp : Subtype

/-- The two lists of the memory manager that are filled. -/
structure Lists (W : Wordsize) where
  ram : RegionList W
  regions : RegionList W
  deriving DecidableEq

def memoryDescriptorVersion : UInt32 := 1

def xsdpSize : Nat := 36

def ramAttr : Attr := { name := .literal ".ram", type := .noMem }

def newRegion (m : MemoryDescriptor) (attr : Attr) : Checked (Region W) :=
  Region.startSize (m.physicalStart % W.modulus) (0x1000 * m.numberOfPages % W.modulus) attr

/-- The end of the first two cases of the switch. -/
def addRam (ram : RegionList W) (m : MemoryDescriptor) : Checked (RegionList W) := do
  let region ← newRegion m ramAttr
  ram.add region true

def addDescriptor (kip : KipSubtypes) (l : Lists W) (m : MemoryDescriptor) : Checked (Lists W) :=
  match m.type with
  | .bootServicesCode | .bootServicesData => do
      -- RAM that is reserved while the boot services are available
      let reserved ← newRegion m { name := .literal ".efi", type := .ramDontUse }
      let regions ← l.regions.add reserved true
      let ram ← addRam l.ram m
      .ok ⟨ram, regions⟩
  | .loaderCode | .loaderData | .conventionalMemory => do
      let ram ← addRam l.ram m
      .ok { l with ram := ram }
  | .acpiReclaimMemory => do
      let region ← newRegion m
        { name := .literal ".ACPI", type := .arch, subType := kip.archAcpi }
      let regions ← l.regions.add region
      .ok { l with regions := regions }
  | .acpiMemoryNvs => do
      let region ← newRegion m
        { name := .literal ".ACPI", type := .arch, subType := kip.archNvs }
      let regions ← l.regions.add region
      .ok { l with regions := regions }
  | .other _ => .ok l

def addRsdp (kip : KipSubtypes) (rsdp : Option Nat) (regions : RegionList W) :
    Checked (RegionList W) :=
  match rsdp with
  | none => .ok regions
  | some address => do
      let region ← Region.startSize address xsdpSize
        { name := .literal ".ACPI", type := .info, subType := kip.infoAcpiRsdp }
      regions.add region true

/-- `setup_memory`, where `rsdp` is `_acpi_rsdp`. -/
def setupMemory (kip : KipSubtypes) (rsdp : Option Nat) (map : Option MemoryMap) (l : Lists W) :
    Checked (Lists W) :=
  match map with
  | none => panic "EFI: failed to get memory map"
  | some map =>
      if map.version ≠ memoryDescriptorVersion then
        panic "EFI: unexpected memory descriptor version"
      else do
        let l ← map.descriptors.foldlM (addDescriptor kip) l
        let regions ← addRsdp kip rsdp l.regions
        let ram ← l.ram.optimize
        .ok ⟨ram, regions⟩

/-! ## The two lists apart -/

def MemoryDescriptor.isRam (m : MemoryDescriptor) : Bool :=
  match m.type with
  | .loaderCode | .loaderData | .bootServicesCode | .bootServicesData | .conventionalMemory => true
  | _ => false

/-- The descriptors of RAM, in the order of the map. -/
def MemoryMap.ram (map : MemoryMap) : List MemoryDescriptor :=
  map.descriptors.filter MemoryDescriptor.isRam

/-- What one descriptor reserves. -/
def reserve (kip : KipSubtypes) (regions : RegionList W) (m : MemoryDescriptor) :
    Checked (RegionList W) :=
  match m.type with
  | .bootServicesCode | .bootServicesData => do
      let region ← newRegion m { name := .literal ".efi", type := .ramDontUse }
      regions.add region true
  | .acpiReclaimMemory => do
      let region ← newRegion m
        { name := .literal ".ACPI", type := .arch, subType := kip.archAcpi }
      regions.add region
  | .acpiMemoryNvs => do
      let region ← newRegion m
        { name := .literal ".ACPI", type := .arch, subType := kip.archNvs }
      regions.add region
  | _ => .ok regions

def reserveAll (kip : KipSubtypes) (rsdp : Option Nat) (map : MemoryMap) (regions : RegionList W) :
    Checked (RegionList W) := do
  let regions ← map.descriptors.foldlM (reserve kip) regions
  addRsdp kip rsdp regions

theorem add_descriptor_ok {kip : KipSubtypes} {l out : Lists W} {m : MemoryDescriptor} :
    addDescriptor kip l m = .ok out ↔
      (if m.isRam then addRam l.ram m else .ok l.ram) = .ok out.ram ∧
        reserve kip l.regions m = .ok out.regions := by
  obtain ⟨ram, regions⟩ := l
  obtain ⟨ram', regions'⟩ := out
  unfold addDescriptor MemoryDescriptor.isRam reserve
  cases m.type <;>
    simp only [bind_ok_iff, Except.ok.injEq, Lists.mk.injEq, if_true, Bool.false_eq_true, if_false]
      <;> grind

theorem add_descriptors_ok {kip : KipSubtypes} {map : List MemoryDescriptor} {l out : Lists W} :
    map.foldlM (addDescriptor kip) l = .ok out ↔
      (map.filter MemoryDescriptor.isRam).foldlM addRam l.ram = .ok out.ram ∧
        map.foldlM (reserve kip) l.regions = .ok out.regions := by
  induction map generalizing l with
  | nil =>
      obtain ⟨ram, regions⟩ := l
      obtain ⟨ram', regions'⟩ := out
      simp [pure, Except.pure]
  | cons m rest ih =>
      rw [List.foldlM_cons, List.foldlM_cons, bind_ok_iff, bind_ok_iff]
      simp only [ih, add_descriptor_ok]
      cases isRam : m.isRam with
      | false =>
          rw [List.filter_cons_of_neg (by simp [isRam])]
          simp only [Bool.false_eq_true, if_false, Except.ok.injEq]
          constructor
          · rintro ⟨next, ⟨same, reserved⟩, rams, rest⟩
            exact ⟨by rw [same]; exact rams, next.regions, reserved, rest⟩
          · rintro ⟨rams, regions, reserved, rest⟩
            exact ⟨⟨l.ram, regions⟩, ⟨rfl, reserved⟩, rams, rest⟩
      | true =>
          rw [List.filter_cons_of_pos isRam, List.foldlM_cons, bind_ok_iff]
          simp only [if_true]
          constructor
          · rintro ⟨next, ⟨added, reserved⟩, rams, rest⟩
            exact ⟨⟨next.ram, added, rams⟩, next.regions, reserved, rest⟩
          · rintro ⟨⟨ram, added, rams⟩, regions, reserved, rest⟩
            exact ⟨⟨ram, regions⟩, ⟨added, reserved⟩, rams, rest⟩

/-- The setup returns if both lists can be filled; neither depends on the other. -/
theorem setup_memory_ok {kip : KipSubtypes} {rsdp : Option Nat} {map : MemoryMap} {l out : Lists W} :
    setupMemory kip rsdp (some map) l = .ok out ↔ map.version = memoryDescriptorVersion ∧
      (∃ ram, map.ram.foldlM addRam l.ram = .ok ram ∧ ram.optimize = .ok out.ram) ∧
        reserveAll kip rsdp map l.regions = .ok out.regions := by
  obtain ⟨ram, regions⟩ := out
  unfold setupMemory reserveAll MemoryMap.ram
  simp only [bind_ok_iff]
  split_ifs with version
  · constructor
    · rintro ⟨⟩
    · rintro ⟨same, _⟩
      exact absurd same version
  · simp only [bind_ok_iff, add_descriptors_ok, Except.ok.injEq, Lists.mk.injEq]
    constructor
    · rintro ⟨lists, ⟨rams, reserved⟩, all, rsdpAdded, merged, optimized, rfl, rfl⟩
      exact ⟨not_not.mp version, ⟨lists.ram, rams, optimized⟩, lists.regions, reserved, rsdpAdded⟩
    · rintro ⟨_, ⟨filled, rams, optimized⟩, all, reserved, rsdpAdded⟩
      exact ⟨⟨filled, all⟩, ⟨rams, reserved⟩, regions, rsdpAdded, ram, optimized, rfl, rfl⟩

/-! ## The RAM list -/

/-- The first address behind the described memory. -/
def MemoryDescriptor.stop (m : MemoryDescriptor) : Nat := m.physicalStart + 0x1000 * m.numberOfPages

def HasByte (map : List MemoryDescriptor) (a : Nat) : Prop :=
  ∃ m ∈ map, m.physicalStart ≤ a ∧ a < m.stop

/-- Whole pages inside the address space of the machine, but not all of it. -/
structure MemoryDescriptor.Formed (W : Wordsize) (m : MemoryDescriptor) : Prop where
  aligned : 2 ^ pageShift ∣ m.physicalStart
  pages : 0 < m.numberOfPages
  inside : m.stop ≤ W.modulus
  part : 0x1000 * m.numberOfPages < W.modulus

def MemoryDescriptor.Overlaps (m o : MemoryDescriptor) : Prop :=
  m.physicalStart < o.stop ∧ o.physicalStart < m.stop

theorem new_region_formed {m : MemoryDescriptor} (formed : m.Formed W) (attr : Attr) :
    ∃ r : Region W, newRegion m attr = .ok r ∧ r.begin = m.physicalStart ∧ r.last + 1 = m.stop ∧
      r.attr = attr := by
  obtain ⟨_, pages, inside, part⟩ := formed
  unfold MemoryDescriptor.stop at inside ⊢
  rw [newRegion, Nat.mod_eq_of_lt (show m.physicalStart < W.modulus by omega),
    Nat.mod_eq_of_lt part]
  obtain ⟨r, made, begins, ends, sameAttr⟩ :=
    Region.start_size_of_fits attr (show 0 < 0x1000 * m.numberOfPages by omega) inside
  exact ⟨r, made, begins, by omega, sameAttr⟩

theorem MemoryDescriptor.Formed.stop_dvd {m : MemoryDescriptor} (formed : m.Formed W) :
    2 ^ pageShift ∣ m.stop :=
  Nat.dvd_add formed.aligned (Nat.dvd_mul_right _ _)

/-- A formed descriptor holds all of a page or nothing of it. -/
theorem has_byte_page {map : List MemoryDescriptor} (formed : ∀ m ∈ map, m.Formed W) {a b : Nat}
    (samePage : truncPage a = truncPage b) (has : HasByte map a) : HasByte map b := by
  obtain ⟨m, member, lower, upper⟩ := has
  refine ⟨m, member, ?_, ?_⟩
  · have low := le_trunc_size (formed m member).aligned lower
    have := trunc_size_le pageShift b
    unfold truncPage at samePage
    omega
  · by_contra above
    have high := le_trunc_size (formed m member).stop_dvd (Nat.le_of_not_lt above)
    have := trunc_size_le pageShift a
    unfold truncPage at samePage
    omega

/-- Where an entry goes in a list that is sorted by both ends. -/
theorem insert_sorted {reg : List (Region W)} (region : Region W)
    (sorted : reg.Pairwise fun r o => r.last ≤ o.last) :
    ∃ front back, reg = front ++ back ∧
      RegionList.insert reg region true = .ok (front ++ region :: back) ∧
      (∀ r ∈ front, r.last < region.begin) ∧ ∀ r ∈ back, region.begin ≤ r.last := by
  unfold RegionList.insert
  cases isLast : reg.getLast? with
  | none =>
      rw [List.getLast?_eq_none_iff] at isLast
      subst reg
      exact ⟨[], [], rfl, rfl, by simp, by simp⟩
  | some last =>
      simp only
      split_ifs with behind
      · refine ⟨reg, [], by simp, rfl, ?_, by simp⟩
        intro r member
        obtain ⟨front, rfl⟩ := List.getLast?_eq_some_iff.mp isLast
        rw [Region.before_iff] at behind
        rcases List.mem_append.mp member with inFront | same
        · have := (List.pairwise_append.mp sorted).2.2 r inFront last (by simp)
          omega
        · rw [List.mem_singleton.mp same]
          exact behind
      · obtain ⟨result, inserted⟩ := RegionList.insert_from_permitted region reg
        obtain ⟨front, back, rfl, rfl, below, head⟩ := RegionList.insert_from_ok inserted
        refine ⟨front, back, rfl, inserted, below, ?_⟩
        cases back with
        | nil => simp
        | cons first rest =>
            have firstReaches := (head first rfl).1
            have restSorted := (List.pairwise_append.mp sorted).2.1
            intro r member
            rcases List.mem_cons.mp member with rfl | inRest
            · exact firstReaches
            · exact firstReaches.trans ((List.pairwise_cons.mp restSorted).1 r inRest)

theorem merge_order_sorted {reg : List (Region W)} {attr : Attr} (order : MergeOrder reg)
    (attrs : ∀ r ∈ reg, r.attr = attr) :
    reg.Pairwise fun r o => r.begin ≤ o.begin ∧ r.last ≤ o.last := by
  refine order.same.imp_of_mem ?_
  intro r o rMember oMember same
  exact same ((attrs r rMember).trans (attrs o oMember).symm)

theorem sorted_merge_order {reg : List (Region W)}
    (sorted : reg.Pairwise fun r o => r.begin ≤ o.begin ∧ r.last ≤ o.last) : MergeOrder reg := by
  constructor
  · apply sorted.imp
    intro r o both
    exact r.ordered.trans both.2
  · apply sorted.imp
    intro r o both _
    exact both

/-- An entry that begins and ends no later than those that it overlaps keeps the
list sorted by both ends. -/
theorem insert_leading {reg : List (Region W)} {region : Region W} (order : MergeOrder reg)
    (attrs : ∀ o ∈ reg, o.attr = region.attr)
    (leads : ∀ o ∈ reg, region.overlaps o = true → region.begin ≤ o.begin ∧ region.last ≤ o.last) :
    ∃ result, RegionList.insert reg region true = .ok result ∧ result.Perm (region :: reg) ∧
      MergeOrder result := by
  have sorted := merge_order_sorted order attrs
  obtain ⟨front, back, rfl, inserted, below, reaches⟩ :=
    insert_sorted region (sorted.imp And.right)
  refine ⟨_, inserted, List.perm_middle, sorted_merge_order ?_⟩
  obtain ⟨frontSorted, backSorted, across⟩ := List.pairwise_append.mp sorted
  have regionOrdered := region.ordered
  rw [List.pairwise_append, List.pairwise_cons]
  refine ⟨frontSorted, ⟨?_, backSorted⟩, ?_⟩
  · intro o member
    have reach := reaches o member
    have oOrdered := o.ordered
    by_cases overlap : region.overlaps o = true
    · exact leads o (by simp [member]) overlap
    · rw [Region.overlaps_iff] at overlap
      omega
  · intro r inFront o member
    rcases List.mem_cons.mp member with rfl | inBack
    · have := below r inFront
      have := r.ordered
      omega
    · exact across r inFront o inBack

theorem optimize_from_total {c : Region W} {rest : List (Region W)}
    (order : MergeOrder (c :: rest)) :
    ∃ result, RegionList.optimizeFrom c rest = .ok result := by
  induction rest generalizing c with
  | nil => exact ⟨[c], rfl⟩
  | cons n rest ih =>
      rw [RegionList.optimizeFrom]
      split_ifs with merge
      · have reach := (List.pairwise_cons.mp order.reaches).1 n (by simp)
        have isMerged : c.setLast n.last = .ok ⟨c.begin, n.last, c.attr, reach, n.bounded⟩ :=
          Region.set_last_ok.mpr ⟨rfl, rfl, rfl⟩
        simp only [RegionList.mergeable, Bool.and_eq_true, decide_eq_true_eq] at merge
        obtain ⟨result, made⟩ := ih (RegionList.merge_order_merged order merge.1 isMerged)
        exact ⟨result, by rw [isMerged, ok_bind, made]⟩
      · obtain ⟨result, made⟩ := ih (order.sublist (List.sublist_cons_self c _))
        exact ⟨c :: result, by rw [made, ok_bind]⟩

theorem optimize_total {l : RegionList W} (order : MergeOrder l.reg) :
    ∃ result, l.optimize = .ok result := by
  unfold RegionList.optimize
  cases entries : l.reg with
  | nil => exact ⟨l, rfl⟩
  | cons c rest =>
      rw [entries] at order
      obtain ⟨result, made⟩ := optimize_from_total order
      exact ⟨{ l with reg := result }, by simp only [made, ok_bind]⟩

theorem optimize_ends {l result : RegionList W} (made : l.optimize = .ok result) {r : Region W}
    (member : r ∈ result.reg) : ∃ y ∈ l.reg, r.last = y.last ∧ r.attr = y.attr := by
  unfold RegionList.optimize at made
  cases entries : l.reg with
  | nil =>
      rw [entries] at made
      cases made
      rw [entries] at member
      cases member
  | cons c rest =>
      rw [entries] at made
      obtain ⟨reg, isReg, made⟩ := bind_ok_iff.mp made
      cases made
      obtain ⟨x, _, y, yMember, _, ends, attr, sameAttr⟩ :=
        RegionList.optimize_from_origin isReg member
      exact ⟨y, yMember, ends, attr.trans sameAttr.symm⟩

/-- The first byte of an entry and the first one behind it. -/
def bounds (r : Region W) : Nat × Nat := (r.begin, r.last + 1)

def MemoryDescriptor.bounds (m : MemoryDescriptor) : Nat × Nat := (m.physicalStart, m.stop)

/-- A list of RAM behind some descriptors. It is merged only if the store was
full. -/
structure RamState (n : Nat) (map : List MemoryDescriptor) (l : RegionList W) : Prop where
  order : MergeOrder l.reg
  attrs : ∀ r ∈ l.reg, r.attr = ramAttr
  covers : ∀ a, Covered l.reg a ↔ HasByte map a
  ends : ∀ r ∈ l.reg, ∃ m ∈ map, r.last + 1 = m.stop
  entries : (l.reg.map bounds).Perm (map.map MemoryDescriptor.bounds) ∨ n ≤ map.length
  capacity : l.max = n
  address : l.addressLimit = W.maxWord
  combined : l.maxCombinedSize = W.maxWord
  pages : 2 ^ pageShift ∣ l.combinedSize
  word : l.combinedSize < W.modulus

/-- Merging a RAM list changes no byte of it. -/
theorem optimize_ram {map : List MemoryDescriptor} {l result : RegionList W}
    (formed : ∀ m ∈ map, m.Formed W) (order : MergeOrder l.reg)
    (covers : ∀ a, Covered l.reg a ↔ HasByte map a) (made : l.optimize = .ok result) (a : Nat) :
    Covered result.reg a ↔ HasByte map a := by
  obtain ⟨merged, _⟩ := RegionList.optimize_merged order made
  constructor
  · intro covered
    by_contra outside
    have free : FreeIn l.reg (2 ^ pageShift) (truncPage a) := by
      intro z member
      by_contra touches
      push Not at touches
      have zOrdered := z.ordered
      -- a byte of the entry in the page of `a`
      have inEntry : Covered l.reg (max z.begin (truncPage a)) := by
        refine covered_iff.mpr ⟨z, member, ?_⟩
        unfold Region.Has
        omega
      apply outside
      apply has_byte_page formed _ ((covers _).mp inEntry)
      have pagePos := Nat.two_pow_pos pageShift
      exact trunc_size_eq (dvd_trunc_size _ _) (le_max_right _ _) (by omega)
    have still := merged.free _ _ (dvd_trunc_size _ _) dvd_rfl (Nat.two_pow_pos _) free
    have := covered.outside still
    have := trunc_size_le pageShift a
    have := lt_trunc_size_add pageShift a
    unfold truncPage at *
    omega
  · intro has
    exact merged.covers _ a ((covers a).mpr has)

/-- A region for `m` begins and ends no later than the entries that it overlaps. -/
def LeadsEntries (reg : List (Region W)) (m : MemoryDescriptor) : Prop :=
  ∀ o ∈ reg, m.physicalStart ≤ o.last → o.begin < m.stop →
    m.physicalStart ≤ o.begin ∧ m.stop ≤ o.last + 1

theorem LeadsEntries.of_region {reg : List (Region W)} {m : MemoryDescriptor} {region : Region W}
    (leads : LeadsEntries reg m) (begins : region.begin = m.physicalStart)
    (ends : region.last + 1 = m.stop) :
    ∀ o ∈ reg, region.overlaps o = true → region.begin ≤ o.begin ∧ region.last ≤ o.last := by
  intro o member overlap
  obtain ⟨low, high⟩ := Region.overlaps_iff.mp overlap
  have := leads o member (by omega) (by omega)
  omega

/-- In a list that was not merged yet, the entries are the descriptors. -/
theorem mem_unmerged {map : List MemoryDescriptor} {reg : List (Region W)}
    (entries : (reg.map bounds).Perm (map.map MemoryDescriptor.bounds)) :
    (∀ r ∈ reg, ∃ m ∈ map, r.begin = m.physicalStart ∧ r.last + 1 = m.stop) ∧
      ∀ m ∈ map, ∃ r ∈ reg, r.begin = m.physicalStart ∧ r.last + 1 = m.stop := by
  constructor
  · intro r member
    obtain ⟨m, inMap, same⟩ :=
      List.mem_map.mp (entries.subset (List.mem_map_of_mem (f := bounds) member))
    obtain ⟨begins, ends⟩ := Prod.mk.inj same
    exact ⟨m, inMap, begins.symm, ends.symm⟩
  · intro m member
    obtain ⟨r, inReg, same⟩ :=
      List.mem_map.mp (entries.symm.subset (List.mem_map_of_mem (f := MemoryDescriptor.bounds) member))
    obtain ⟨begins, ends⟩ := Prod.mk.inj same
    exact ⟨r, inReg, begins, ends⟩

/-- No earlier descriptor is overlapped from above, and in a list that may be
merged before its time none of them ends where an overlapping one begins. -/
structure Leads (n : Nat) (map : List MemoryDescriptor) (m : MemoryDescriptor) : Prop where
  first : ∀ o ∈ map, m.Overlaps o → m.physicalStart ≤ o.physicalStart ∧ m.stop ≤ o.stop
  behind : n ≤ map.length → (∃ o ∈ map, m.Overlaps o) → ∀ o ∈ map, o.stop ≠ m.physicalStart

/-- A descriptor leads the entries of the list as it leads the descriptors. -/
theorem Leads.entries {n : Nat} {map : List MemoryDescriptor} {m : MemoryDescriptor}
    {l : RegionList W} (leads : Leads n map m) (state : RamState n map l)
    (formed : ∀ o ∈ map, o.Formed W) (pages : m.physicalStart < m.stop) :
    LeadsEntries l.reg m := by
  intro o member low high
  have oOrdered := o.ordered
  rcases state.entries with entries | merged
  · obtain ⟨d, inMap, dBegin, dEnd⟩ := (mem_unmerged entries).1 o member
    have := leads.first d inMap ⟨by omega, by omega⟩
    omega
  · constructor
    · -- the byte below the region would be in a descriptor that ends there
      by_contra above
      have inEntry : ∀ a, o.begin ≤ a → a ≤ o.last → HasByte map a := by
        intro a lower upper
        exact (state.covers a).mp (covered_iff.mpr ⟨o, member, lower, upper⟩)
      obtain ⟨d, inMap, dLow, dHigh⟩ := inEntry (m.physicalStart - 1) (by omega) (by omega)
      obtain ⟨e, eMap, eLow, eHigh⟩ := inEntry m.physicalStart (by omega) low
      have apart := leads.behind merged ⟨e, eMap, by omega, by omega⟩ d inMap
      have := leads.first d inMap ⟨by omega, by omega⟩
      omega
    · obtain ⟨d, inMap, dEnd⟩ := state.ends o member
      by_contra above
      have dPages := (formed d inMap).pages
      have dStop : d.stop = d.physicalStart + 0x1000 * d.numberOfPages := rfl
      have := leads.first d inMap ⟨by omega, by omega⟩
      omega

/-- Merging keeps the state, once the store is full. -/
theorem RamState.optimized {n : Nat} {map : List MemoryDescriptor} {l result : RegionList W}
    (state : RamState n map l) (formed : ∀ o ∈ map, o.Formed W) (full : n ≤ map.length)
    (made : l.optimize = .ok result) : RamState n map result := by
  obtain ⟨merged, same⟩ := RegionList.optimize_merged state.order made
  have covers := optimize_ram formed state.order state.covers made
  have ends : ∀ r ∈ result.reg, r.attr = ramAttr ∧ ∃ m ∈ map, r.last + 1 = m.stop := by
    intro r member
    obtain ⟨y, yMember, last, attr⟩ := optimize_ends made member
    obtain ⟨m, inMap, stop⟩ := state.ends y yMember
    exact ⟨attr.trans (state.attrs y yMember), m, inMap, by omega⟩
  rw [same] at covers ends merged ⊢
  exact ⟨merged.order, fun r member => (ends r member).1, covers, fun r member => (ends r member).2,
    .inr full, state.capacity, state.address, state.combined, state.pages, state.word⟩

theorem RamState.make_room {n : Nat} {map : List MemoryDescriptor} {l result : RegionList W}
    (state : RamState n map l) (formed : ∀ o ∈ map, o.Formed W)
    (made : l.makeRoom = .ok result) : RamState n map result := by
  unfold RegionList.makeRoom at made
  split_ifs at made with full
  · obtain ⟨merged, isMerged, made⟩ := bind_ok_iff.mp made
    split_ifs at made with stillFull
    · cases made
    · cases made
      apply state.optimized formed _ isMerged
      rcases state.entries with entries | many
      · have same := entries.length_eq
        rw [List.length_map, List.length_map] at same
        rw [← same, ← state.capacity]
        exact full
      · exact many
  · cases made
    exact state

theorem RamState.has_room {n : Nat} {map : List MemoryDescriptor} {l : RegionList W}
    (state : RamState n map l) (few : map.length < n) : l.makeRoom = .ok l := by
  have same := (state.entries.resolve_right (by omega)).length_eq
  rw [List.length_map, List.length_map] at same
  rw [RegionList.makeRoom, if_neg]
  rw [state.capacity]
  omega

/-- A region of whole pages passes the limits of the list. -/
theorem add_ram_eq {n : Nat} {map : List MemoryDescriptor} {m : MemoryDescriptor}
    {l : RegionList W} {region : Region W} (state : RamState n map l) (formed : m.Formed W)
    (begins : region.begin = m.physicalStart) (ends : region.last + 1 = m.stop) :
    l.add region true = l.addNolimitcheck region true := by
  obtain ⟨aligned, pages, inside, part⟩ := formed
  have maxWord : W.maxWord = W.modulus - 1 := rfl
  have bounded := region.bounded
  have stop : m.stop = m.physicalStart + 0x1000 * m.numberOfPages := rfl
  have address := state.address
  have combined := state.combined
  have valid : ¬ region.invalid = true := by
    simp only [Region.invalid, Bool.and_eq_true, decide_eq_true_eq]
    omega
  have notFull : l.combinedSize < W.maxWord := by
    have word := state.word
    by_contra full
    have top : l.combinedSize + 1 = W.modulus := by omega
    have dvdOne : 2 ^ pageShift ∣ 1 :=
      (Nat.dvd_add_right state.pages).mp (top ▸ W.pow_dvd_modulus (page_shift_le_bits W))
    exact absurd dvdOne (by decide)
  have sum := W.add_lt l.combinedSize region.size
  rw [RegionList.add, if_neg valid, if_neg (by omega), if_neg (by omega), RegionList.addSizeLimited,
    if_neg (by omega), if_neg (by omega)]

/-- The size of the region is that of the descriptor. -/
theorem region_size {m : MemoryDescriptor} {region : Region W} (formed : m.Formed W)
    (begins : region.begin = m.physicalStart) (ends : region.last + 1 = m.stop) :
    region.size = 0x1000 * m.numberOfPages := by
  have stop : m.stop = m.physicalStart + 0x1000 * m.numberOfPages := rfl
  have part := formed.part
  have ordered := region.ordered
  rw [Region.size_eq (by omega)]
  omega

theorem add_ram_state {n : Nat} {map : List MemoryDescriptor} {m : MemoryDescriptor}
    {l : RegionList W} (state : RamState n map l) (formed : ∀ o ∈ map, o.Formed W)
    (mFormed : m.Formed W) (leads : ∀ roomy, l.makeRoom = .ok roomy → LeadsEntries roomy.reg m) :
    (∀ result, addRam l m = .ok result → RamState n (map ++ [m]) result) ∧
      (map.length < n → ∃ result, addRam l m = .ok result) := by
  obtain ⟨region, made, begins, ends, attr⟩ := new_region_formed mFormed ramAttr
  have stop : m.stop = m.physicalStart + 0x1000 * m.numberOfPages := rfl
  have pages := mFormed.pages
  have size := region_size mFormed begins ends
  rw [addRam, made, ok_bind, add_ram_eq state mFormed begins ends, RegionList.addNolimitcheck,
    if_neg (by omega)]
  constructor
  · intro result made
    obtain ⟨roomy, isRoomy, made⟩ := bind_ok_iff.mp made
    have roomyState := state.make_room formed isRoomy
    obtain ⟨reg, inserted, perm, order⟩ := insert_leading roomyState.order
      (fun o member => (roomyState.attrs o member).trans attr.symm)
      ((leads roomy isRoomy).of_region begins ends)
    rw [inserted] at made
    cases made
    have members : ∀ r, r ∈ reg ↔ r = region ∨ r ∈ roomy.reg := by
      intro r
      rw [perm.mem_iff, List.mem_cons]
    constructor
    · exact order
    · intro r member
      rcases (members r).mp member with rfl | old
      · exact attr
      · exact roomyState.attrs r old
    · intro a
      have appended : HasByte (map ++ [m]) a ↔
          (m.physicalStart ≤ a ∧ a < m.stop) ∨ HasByte map a := by
        simp [HasByte, or_and_right, exists_or, or_comm]
      have consed : Covered reg a ↔ Covered (region :: roomy.reg) a := covered_by_perm perm
      rw [appended, ← roomyState.covers a, consed, covered_cons]
      unfold Region.Has
      apply or_congr_left
      omega
    · intro r member
      rcases (members r).mp member with rfl | old
      · exact ⟨m, by simp, ends⟩
      · obtain ⟨o, inMap, stops⟩ := roomyState.ends r old
        exact ⟨o, by simp [inMap], stops⟩
    · rcases roomyState.entries with entries | many
      · left
        have added : bounds region = m.bounds := Prod.ext begins ends
        calc (reg.map bounds).Perm ((region :: roomy.reg).map bounds) := perm.map bounds
          _ = m.bounds :: roomy.reg.map bounds := by rw [List.map_cons, added]
          List.Perm _ (m.bounds :: map.map MemoryDescriptor.bounds) := entries.cons _
          List.Perm _ ((map ++ [m]).map MemoryDescriptor.bounds) := by
            rw [List.map_append]
            exact (List.perm_append_singleton _ _).symm
      · exact .inr (by simp; omega)
    · exact roomyState.capacity
    · exact roomyState.address
    · exact roomyState.combined
    · change 2 ^ pageShift ∣ W.add roomy.combinedSize region.size
      rw [size]
      exact (Nat.dvd_mod_iff (W.pow_dvd_modulus (page_shift_le_bits W))).mpr
        (Nat.dvd_add roomyState.pages (Nat.dvd_mul_right _ _))
    · exact W.add_lt _ _
  · intro few
    have room := state.has_room few
    obtain ⟨reg, inserted, _⟩ := insert_leading state.order
      (fun o member => (state.attrs o member).trans attr.symm)
      ((leads l room).of_region begins ends)
    rw [room, ok_bind, inserted]
    exact ⟨_, rfl⟩

/-- Every descriptor leads the entries of the list that it is put into. These
are the entries of the list before the step, which is merged if it is full. -/
def Placeable : RegionList W → List MemoryDescriptor → Prop
  | _, [] => True
  | l, m :: rest =>
      (∀ roomy, l.makeRoom = .ok roomy → LeadsEntries roomy.reg m) ∧
        ∀ next, addRam l m = .ok next → Placeable next rest

theorem add_rams_state {n : Nat} {rest : List MemoryDescriptor} {map : List MemoryDescriptor}
    {l : RegionList W} (state : RamState n map l) (formed : ∀ o ∈ map ++ rest, o.Formed W)
    (placeable : Placeable l rest) :
    (∀ result, rest.foldlM addRam l = .ok result → RamState n (map ++ rest) result) ∧
      ((map ++ rest).length ≤ n → ∃ result, rest.foldlM addRam l = .ok result) := by
  induction rest generalizing map l with
  | nil =>
      rw [List.append_nil]
      refine ⟨?_, fun _ => ⟨l, rfl⟩⟩
      intro result done
      cases done
      exact state
  | cons m rest ih =>
      obtain ⟨leads, later⟩ := placeable
      have mapFormed : ∀ o ∈ map, o.Formed W := fun o member => formed o (by simp [member])
      obtain ⟨kept, total⟩ := add_ram_state state mapFormed (formed m (by simp)) leads
      have shape : map ++ m :: rest = map ++ [m] ++ rest := by simp
      rw [shape] at formed ⊢
      rw [List.foldlM_cons]
      constructor
      · intro result done
        obtain ⟨next, added, done⟩ := bind_ok_iff.mp done
        exact (ih (kept next added) formed (later next added)).1 result done
      · intro few
        simp only [List.length_append, List.length_cons, List.length_nil] at few
        obtain ⟨next, added⟩ := total (by omega)
        rw [added, ok_bind]
        exact (ih (kept next added) formed (later next added)).2 (by simp; omega)

/-- Descriptors that lead the earlier ones lead the entries made of them. -/
theorem placeable_of_leads {n : Nat} {rest map : List MemoryDescriptor} {l : RegionList W}
    (state : RamState n map l) (formed : ∀ o ∈ map ++ rest, o.Formed W)
    (leads : ∀ front m back, rest = front ++ m :: back → Leads n (map ++ front) m) :
    Placeable l rest := by
  induction rest generalizing map l with
  | nil => trivial
  | cons m rest ih =>
      have mapFormed : ∀ o ∈ map, o.Formed W := fun o member => formed o (by simp [member])
      have mFormed := formed m (by simp)
      have mPages : m.physicalStart < m.stop := by
        have := mFormed.pages
        have : m.stop = m.physicalStart + 0x1000 * m.numberOfPages := rfl
        omega
      have first : Leads n map m := by simpa using leads [] m rest rfl
      have entries : ∀ roomy, l.makeRoom = .ok roomy → LeadsEntries roomy.reg m :=
        fun roomy isRoomy => first.entries (state.make_room mapFormed isRoomy) mapFormed mPages
      refine ⟨entries, fun next added => ?_⟩
      apply ih ((add_ram_state state mapFormed mFormed entries).1 next added) (by simpa using formed)
      rintro front o back rfl
      simpa using leads (m :: front) o back rfl

/-- In a store with an entry for each descriptor this is a condition on the map
alone: a descriptor begins and ends no later than the earlier ones it overlaps. -/
theorem placeable_iff {n : Nat} {rest map : List MemoryDescriptor} {l : RegionList W}
    (state : RamState n map l) (formed : ∀ o ∈ map ++ rest, o.Formed W)
    (first : map.Pairwise fun o m => m.Overlaps o →
      m.physicalStart ≤ o.physicalStart ∧ m.stop ≤ o.stop)
    (few : (map ++ rest).length ≤ n) :
    Placeable l rest ↔ (map ++ rest).Pairwise fun o m => m.Overlaps o →
      m.physicalStart ≤ o.physicalStart ∧ m.stop ≤ o.stop := by
  constructor
  · intro placeable
    induction rest generalizing map l with
    | nil => simpa using first
    | cons m rest ih =>
        obtain ⟨leads, later⟩ := placeable
        have mapFormed : ∀ o ∈ map, o.Formed W := fun o member => formed o (by simp [member])
        obtain ⟨kept, total⟩ := add_ram_state state mapFormed (formed m (by simp)) leads
        have shape : map ++ m :: rest = map ++ [m] ++ rest := by simp
        rw [shape] at formed few ⊢
        have shorter : map.length < n := by
          simp only [List.length_append, List.length_cons] at few
          omega
        obtain ⟨next, added⟩ := total shorter
        refine ih (kept next added) formed ?_ few (later next added)
        rw [List.pairwise_append]
        refine ⟨first, List.pairwise_singleton _ _, ?_⟩
        intro o inMap other isM overlap
        cases List.mem_singleton.mp isM
        -- without a merge the descriptor `o` is an entry
        obtain ⟨r, inReg, begins, ends⟩ :=
          (mem_unmerged (state.entries.resolve_right (by omega))).2 o inMap
        obtain ⟨low, high⟩ := overlap
        have := leads l (state.has_room shorter) r inReg (by omega) (by omega)
        omega
  · intro pairs
    apply placeable_of_leads state formed
    rintro front m back rfl
    constructor
    · intro o member
      rw [← List.append_assoc] at pairs
      exact (List.pairwise_append.mp pairs).2.2 o member m (by simp)
    · intro full
      simp only [List.length_append, List.length_cons] at few full
      omega

theorem ram_state_init (n : Nat) : RamState n [] (.init n : RegionList W) := by
  refine ⟨⟨.nil, .nil⟩, by simp [RegionList.init], ?_, by simp [RegionList.init],
    .inl (by simp [RegionList.init]), rfl, rfl, rfl, Nat.dvd_zero _, W.modulus_pos⟩
  intro a
  simp [HasByte, RegionList.init, not_covered_nil]

/-- What the setup is to do with the descriptors of RAM. -/
structure KeepsRam (map : MemoryMap) (ram : RegionList W) : Prop where
  kept : ∀ a, HasByte map.ram a → Covered ram.reg a
  noPage : ∀ a, Covered ram.reg a → ∃ b, truncPage b = truncPage a ∧ HasByte map.ram b

/-- No RAM is lost, and the RAM list is filled whenever its store is large
enough. -/
theorem setup_memory_keeps_ram {kip : KipSubtypes} {rsdp : Option Nat} {map : MemoryMap} {n : Nat}
    {regions : RegionList W} (formed : ∀ m ∈ map.ram, m.Formed W)
    (placeable : Placeable (.init n : RegionList W) map.ram) :
    (∀ out, setupMemory kip rsdp (some map) ⟨.init n, regions⟩ = .ok out →
      KeepsRam map out.ram) ∧
    (map.version = memoryDescriptorVersion → map.ram.length ≤ n →
      ∀ reserved, reserveAll kip rsdp map regions = .ok reserved →
        ∃ ram, setupMemory kip rsdp (some map) ⟨.init n, regions⟩ = .ok ⟨ram, reserved⟩) := by
  obtain ⟨kept, total⟩ := add_rams_state (ram_state_init n) (by simpa using formed) placeable
  rw [List.nil_append] at kept total
  constructor
  · intro out done
    obtain ⟨_, ⟨ram, filled, optimized⟩, _⟩ := setup_memory_ok.mp done
    have state := kept ram filled
    have covers := optimize_ram formed state.order state.covers optimized
    exact ⟨fun a has => (covers a).mpr has, fun a covered => ⟨a, rfl, (covers a).mp covered⟩⟩
  · intro version few reserved isReserved
    obtain ⟨ram, filled⟩ := total few
    obtain ⟨merged, optimized⟩ := optimize_total (kept ram filled).order
    exact ⟨merged, setup_memory_ok.mpr ⟨version, ⟨ram, filled, optimized⟩, isReserved⟩⟩

/-- Sixteen pages, and boot services in the first two of them. -/
def overlappingMap : MemoryMap where
  version := 1
  descriptors := [⟨.conventionalMemory, 0x100000, 16⟩, ⟨.bootServicesData, 0x100000, 2⟩]

def sampleKip : KipSubtypes where
  archAcpi := 3
  archNvs := 4
  infoAcpiRsdp := 0

theorem setup_memory_keeps_overlapping_ram :
    ∃ ram regions, setupMemory sampleKip none (some overlappingMap)
        ⟨(.init 300 : RegionList .w64), .init 300⟩ = .ok ⟨ram, regions⟩ ∧
      KeepsRam overlappingMap ram := by
  have formed : ∀ m ∈ overlappingMap.ram, m.Formed .w64 := by
    intro m member
    have inMap : m = ⟨.conventionalMemory, 0x100000, 16⟩ ∨ m = ⟨.bootServicesData, 0x100000, 2⟩ := by
      simpa [overlappingMap] using (List.mem_filter.mp member).1
    rcases inMap with rfl | rfl <;> exact ⟨by decide, by decide, by decide, by decide⟩
  have placeable : Placeable (.init 300 : RegionList .w64) overlappingMap.ram := by
    refine (placeable_iff (ram_state_init 300) (by simpa using formed) .nil (by decide)).mpr ?_
    refine .cons ?_ (.cons (by simp) .nil)
    intro m member _
    rw [List.mem_singleton.mp member]
    decide
  obtain ⟨kept, total⟩ :=
    @setup_memory_keeps_ram .w64 sampleKip none overlappingMap 300 (.init 300) formed placeable
  have reserved : reserveAll sampleKip none overlappingMap (.init 300 : RegionList .w64) = .ok
      ⟨[⟨0x100000, 0x101fff, { name := .literal ".efi", type := .ramDontUse }, by decide, by decide⟩],
        300, Wordsize.w64.maxWord, Wordsize.w64.maxWord, 0x2000⟩ := by
    decide +kernel
  obtain ⟨ram, done⟩ := total rfl (by decide) _ reserved
  exact ⟨ram, _, done, kept _ done⟩

/-- A page in the middle of sixteen others: the pages below it are lost. -/
def nestedMap : MemoryMap where
  version := 1
  descriptors := [⟨.conventionalMemory, 0x100000, 16⟩, ⟨.loaderData, 0x101000, 1⟩]

theorem nested_descriptor_loses_ram :
    (∀ m ∈ nestedMap.ram, m.Formed .w64) ∧ HasByte nestedMap.ram 0x100000 ∧
      ∃ out : Lists .w64,
        setupMemory sampleKip none (some nestedMap) ⟨.init 300, .init 300⟩ = .ok out ∧
          ¬ Covered out.ram.reg 0x100000 := by
  refine ⟨?_, ⟨⟨.conventionalMemory, 0x100000, 16⟩, by decide, by decide, by decide⟩,
    ⟨⟨[⟨0x101000, 0x10ffff, ramAttr, by decide, by decide⟩], 300, Wordsize.w64.maxWord,
      Wordsize.w64.maxWord, 0x11000⟩, .init 300⟩, by decide +kernel, ?_⟩
  · intro m member
    have inMap : m = ⟨.conventionalMemory, 0x100000, 16⟩ ∨ m = ⟨.loaderData, 0x101000, 1⟩ := by
      simpa [nestedMap] using (List.mem_filter.mp member).1
    rcases inMap with rfl | rfl <;> exact ⟨by decide, by decide, by decide, by decide⟩
  · rw [covered_singleton]
    unfold Region.Has
    decide

end Efi

end L4Bootstrap
