import L4Bootstrap.RegionInvariant

/-!
# Reserving ELF segments over module regions

`find_region_overlap` and `l4_exec_add_region` of `startup.cc`. A segment may
overlap module regions and temporary boot regions, so while segments are being
reserved the list is neither sorted nor disjoint. What survives every insertion
is `Interleaved`: nothing in front of a lasting entry reaches into it, and no
entry begins behind the end of a later one.
-/

namespace L4Bootstrap

open MachineWord CheckedLoop

set_option autoImplicit false

variable {W : Wordsize}

/-- Module regions and regions with subtype `Boot_temporary`. -/
def Region.isTemporary (r : Region W) : Bool :=
  r.attr.name = .modReg || (r.attr.type = .boot && r.attr.subType = bootTemporary)

/-- The fields of a program header that are read here; `load` is
`p_type == PT_LOAD`. -/
structure Phdr where
  load : Bool
  writable : Bool
  executable : Bool
  paddr : Nat
  memsz : Nat
  deriving DecidableEq, Repr

structure ElfInfo where
  type : RegionType
  offset : Nat
  deriving DecidableEq, Repr

def Phdr.rights (ph : Phdr) : Subtype :=
  rootSectionRo ||| (if ph.writable then rootSectionW else 0) |||
    (if ph.executable then rootSectionX else 0)

/-- The region that `l4_exec_add_region` builds for a segment of a module with
command line pointer `cmdline` (0 is null). -/
def segmentRegion (info : ElfInfo) (ph : Phdr) (cmdline : Nat) : Checked (Region W) :=
  Region.startSize (W.add ph.paddr info.offset) ph.memsz
    { name := if cmdline = 0 then .literal ".[Unknown]" else .cmdline cmdline
      type := info.type
      subType := if info.type = .root then ph.rights else noSubtype
      eager := info.type ≠ .kernel }

def findRegionOverlap (regions : RegionList W) (n : Region W) : Option (Region W) :=
  regions.reg.find? fun r => r.overlaps n && r.attr.name ≠ .modReg &&
    !(r.attr.type = .boot && r.attr.subType = bootTemporary)

def l4ExecAddRegion (sysalloc regions : RegionList W) (info : ElfInfo) (ph : Phdr)
    (cmdline : Nat) : Checked (RegionList W) :=
  if ph.memsz = 0 then .ok regions
  else if !ph.load then .ok regions
  else do
    let n ← segmentRegion info ph cmdline
    if (findRegionOverlap regions n).isSome then panic "Region overlap"
    else match sysalloc.find n with
      | some r =>
          if r.contains n then regions.add n true else panic "Check -sysalloc= parameters!"
      | none => panic "Check -sysalloc= parameters!"

theorem segment_region_lasting {info : ElfInfo} {ph : Phdr} {cmdline : Nat} {n : Region W}
    (made : segmentRegion info ph cmdline = .ok n) : n.isTemporary = false := by
  obtain ⟨_, _, _, attr⟩ := Region.start_size_ok.mp made
  unfold Region.isTemporary
  rw [attr]
  by_cases null : cmdline = 0 <;> by_cases root : info.type = .root <;>
    simp [null, root, noSubtype, bootTemporary]

theorem find_region_overlap_none {regions : RegionList W} {n : Region W} :
    findRegionOverlap regions n = none ↔
      ∀ r ∈ regions.reg, r.isTemporary = false → n.overlaps r = false := by
  unfold findRegionOverlap Region.isTemporary
  rw [List.find?_eq_none]
  constructor
  · intro none r member lasting
    have apart := none r member
    rw [Region.overlaps_comm] at apart
    simp only [Bool.or_eq_false_iff, decide_eq_false_iff_not] at lasting
    by_contra overlap
    rw [Bool.not_eq_false] at overlap
    simp [overlap, lasting.1, lasting.2] at apart
  · intro apart r member found
    simp only [Bool.and_eq_true, decide_eq_true_eq, Bool.not_eq_true'] at found
    obtain ⟨⟨overlap, name⟩, type⟩ := found
    have := apart r member (by simp [name, type])
    rw [Region.overlaps_comm, overlap] at this
    cases this

/-! ## The order that survives insertion over temporary regions -/

structure Interleaved (reg : List (Region W)) : Prop where
  reaches : reg.Pairwise fun r o => r.begin ≤ o.last
  lasting : reg.Pairwise fun r o => o.isTemporary = false → r.last < o.begin
  temporary : reg.Pairwise fun r o =>
    r.isTemporary = true → o.isTemporary = true → r.last < o.begin

theorem ascending_interleaved {reg : List (Region W)} (ascending : Ascending reg) :
    Interleaved reg := by
  refine ⟨ascending.imp ?_, ascending.imp ?_, ascending.imp ?_⟩
  · intro r o before
    have := r.ordered
    have := o.ordered
    omega
  · exact fun before _ => before
  · exact fun before _ _ => before

/-- Among the lasting entries the order is the strict one. -/
theorem interleaved_lasting_ascending {reg : List (Region W)} (mixed : Interleaved reg) :
    Ascending (reg.filter fun r => !r.isTemporary) := by
  unfold Ascending
  rw [List.pairwise_filter]
  refine mixed.lasting.imp ?_
  intro r o before _ oLasting
  exact before (by simpa using oLasting)

theorem interleaved_append {front back : List (Region W)} (mixed : Interleaved (front ++ back)) :
    Interleaved front ∧ Interleaved back ∧ ∀ r ∈ front, ∀ o ∈ back, r.begin ≤ o.last ∧
      (o.isTemporary = false → r.last < o.begin) ∧
      (r.isTemporary = true → o.isTemporary = true → r.last < o.begin) := by
  obtain ⟨reaches, lasting, temporary⟩ := mixed
  rw [List.pairwise_append] at reaches lasting temporary
  exact ⟨⟨reaches.1, lasting.1, temporary.1⟩, ⟨reaches.2.1, lasting.2.1, temporary.2.1⟩,
    fun r inFront o inBack => ⟨reaches.2.2 r inFront o inBack, lasting.2.2 r inFront o inBack,
      temporary.2.2 r inFront o inBack⟩⟩

/-- A lasting region may be placed where everything in front ends below it and
everything behind reaches up to it, if it overlaps no lasting entry. -/
theorem interleaved_insert {front back : List (Region W)} {n : Region W}
    (mixed : Interleaved (front ++ back)) (nLasting : n.isTemporary = false)
    (free : ∀ r ∈ back, r.isTemporary = false → n.overlaps r = false)
    (below : ∀ r ∈ front, r.last < n.begin) (reached : ∀ r ∈ back, n.begin ≤ r.last) :
    Interleaved (front ++ n :: back) := by
  obtain ⟨frontMixed, backMixed, across⟩ := interleaved_append mixed
  have nOrdered := n.ordered
  constructor
  · refine List.pairwise_append.mpr ⟨frontMixed.reaches,
      List.pairwise_cons.mpr ⟨reached, backMixed.reaches⟩, ?_⟩
    intro r inFront o inTail
    rcases List.mem_cons.mp inTail with rfl | inBack
    · have := below r inFront
      have := r.ordered
      omega
    · exact (across r inFront o inBack).1
  · refine List.pairwise_append.mpr ⟨frontMixed.lasting,
      List.pairwise_cons.mpr ⟨?_, backMixed.lasting⟩, ?_⟩
    · intro o inBack oLasting
      have apart := Region.overlaps_eq_false_iff.mp (free o inBack oLasting)
      have := reached o inBack
      omega
    · intro r inFront o inTail
      rcases List.mem_cons.mp inTail with rfl | inBack
      · exact fun _ => below r inFront
      · exact (across r inFront o inBack).2.1
  · refine List.pairwise_append.mpr ⟨frontMixed.temporary,
      List.pairwise_cons.mpr ⟨?_, backMixed.temporary⟩, ?_⟩
    · intro o _ nTemporary
      rw [nLasting] at nTemporary
      cases nTemporary
    · intro r inFront o inTail
      rcases List.mem_cons.mp inTail with rfl | inBack
      · exact fun _ _ => below r inFront
      · exact (across r inFront o inBack).2.2

/-- Behind an entry that reaches up to `n`, every later entry does so too. -/
theorem interleaved_reached {r n : Region W} {back : List (Region W)}
    (mixed : Interleaved (r :: back)) (free : r.isTemporary = false → n.overlaps r = false)
    (reached : n.begin ≤ r.last) : ∀ o ∈ r :: back, n.begin ≤ o.last := by
  intro o member
  rcases List.mem_cons.mp member with rfl | inBack
  · exact reached
  · have across := (interleaved_append (show Interleaved ([r] ++ back) from mixed)).2.2 r
      (by simp) o inBack
    have oOrdered := o.ordered
    have nOrdered := n.ordered
    cases oKind : o.isTemporary with
    | false =>
        have := across.2.1 oKind
        omega
    | true =>
        cases rKind : r.isTemporary with
        | true =>
            have := across.2.2 rKind oKind
            omega
        | false =>
            have apart := Region.overlaps_eq_false_iff.mp (free rKind)
            have := across.1
            omega

/-- If the last entry ends below `n`, every entry does. -/
theorem interleaved_last_below {front : List (Region W)} {last n : Region W}
    (mixed : Interleaved (front ++ [last]))
    (free : ∀ r ∈ front, r.isTemporary = false → n.overlaps r = false)
    (below : last.last < n.begin) : ∀ r ∈ front ++ [last], r.last < n.begin := by
  intro r member
  rcases List.mem_append.mp member with inFront | same
  · have across := (interleaved_append mixed).2.2 r inFront last (by simp)
    have lastOrdered := last.ordered
    have nOrdered := n.ordered
    cases rKind : r.isTemporary with
    | false =>
        have apart := Region.overlaps_eq_false_iff.mp (free r inFront rKind)
        have := across.1
        omega
    | true =>
        cases lastKind : last.isTemporary with
        | false =>
            have := across.2.1 lastKind
            omega
        | true =>
            have := across.2.2 rKind lastKind
            omega
  · rw [List.mem_singleton.mp same]
    exact below

/-- One insertion with permission to overlap keeps the order and adds exactly
the new region. -/
theorem insert_interleaved {reg result : List (Region W)} {n : Region W}
    (mixed : Interleaved reg) (nLasting : n.isTemporary = false)
    (free : ∀ r ∈ reg, r.isTemporary = false → n.overlaps r = false)
    (inserted : RegionList.insert reg n true = .ok result) :
    Interleaved result ∧ result.Perm (n :: reg) := by
  have placed : ∀ front back : List (Region W), reg = front ++ back →
      (∀ r ∈ front, r.last < n.begin) → (∀ r ∈ back, n.begin ≤ r.last) →
      Interleaved (front ++ n :: back) ∧ (front ++ n :: back).Perm (n :: reg) := by
    rintro front back rfl below reached
    refine ⟨interleaved_insert mixed nLasting ?_ below reached, List.perm_middle⟩
    exact fun r inBack => free r (List.mem_append_right _ inBack)
  unfold RegionList.insert at inserted
  cases isLast : reg.getLast? with
  | none =>
      rw [List.getLast?_eq_none_iff] at isLast
      simp only [isLast, List.getLast?_nil] at inserted
      cases inserted
      exact placed [] [] isLast (by simp) (by simp)
  | some last =>
      simp only [isLast] at inserted
      split_ifs at inserted with below
      · cases inserted
        obtain ⟨front, rfl⟩ := List.getLast?_eq_some_iff.mp isLast
        refine placed (front ++ [last]) [] (by simp) ?_ (by simp)
        exact interleaved_last_below mixed
          (fun r inFront => free r (by simp [inFront])) (Region.before_iff.mp below)
      · obtain ⟨front, back, whole, rfl, frontBelow, backHead⟩ :=
          RegionList.insert_from_ok inserted
        refine placed front back whole frontBelow ?_
        cases back with
        | nil => simp
        | cons r rest =>
            have tailMixed := (interleaved_append (whole ▸ mixed)).2.1
            exact interleaved_reached tailMixed
              (free r (by simp [whole])) (backHead r rfl).1

/-! ## Any sequence of segments -/

/-- Lists reached from `start` by calls for load segments, with the regions
inserted so far; `assumed` is what is known of the list and the region at each
call. -/
inductive Reserved (assumed : RegionList W → Region W → Prop) (sysalloc start : RegionList W) :
    List (Region W) → RegionList W → Prop
  | start : Reserved assumed sysalloc start [] start
  | segment {segments : List (Region W)} {l result : RegionList W} {n : Region W}
      (info : ElfInfo) (ph : Phdr) (cmdline : Nat)
      (prior : Reserved assumed sysalloc start segments l) (load : ph.load = true)
      (built : segmentRegion info ph cmdline = .ok n) (known : assumed l n)
      (called : l4ExecAddRegion sysalloc l info ph cmdline = .ok result) :
      Reserved assumed sysalloc start (n :: segments) result

/-- A segment of at least two bytes, and a free entry in the store. -/
def SegmentFits (l : RegionList W) (n : Region W) : Prop :=
  n.begin < n.last ∧ l.reg.length < l.max

/-- A call for a load segment inserts its region after a successful overlap check. -/
theorem l4_exec_add_region_ok {sysalloc regions result : RegionList W} {info : ElfInfo}
    {ph : Phdr} {cmdline : Nat} {n : Region W} (load : ph.load = true)
    (built : segmentRegion info ph cmdline = .ok n)
    (called : l4ExecAddRegion sysalloc regions info ph cmdline = .ok result) :
    findRegionOverlap regions n = none ∧ regions.add n true = .ok result := by
  obtain ⟨nonempty, _⟩ := Region.start_size_ok.mp built
  rw [l4ExecAddRegion, if_neg (by omega), if_neg (by simp [load]), built, ok_bind] at called
  cases overlap : findRegionOverlap regions n with
  | some r => simp [overlap, panic] at called
  | none =>
      simp only [overlap, Option.isSome_none, Bool.false_eq_true, if_false] at called
      cases area : sysalloc.find n with
      | none => simp [area, panic] at called
      | some r =>
          simp only [area] at called
          split_ifs at called with inside
          · exact ⟨rfl, called⟩
          · cases called

/-- Inside the limits of the list the lasting entries stay apart and in order,
and they are the lasting entries of the start and the inserted segments. -/
theorem reserved_interleaved {sysalloc start final : RegionList W} {segments : List (Region W)}
    (ascending : Ascending start.reg)
    (run : Reserved (fun l n => SegmentFits l n ∧ l.InLimit n) sysalloc start segments final) :
    Interleaved final.reg ∧ final.reg.Perm (segments ++ start.reg) ∧
      ∀ n ∈ segments, n.isTemporary = false := by
  induction run with
  | start => exact ⟨ascending_interleaved ascending, List.Perm.refl _, by simp⟩
  | @segment segments l result n info ph cmdline prior load built known called ih =>
      obtain ⟨mixed, perm, lasting⟩ := ih
      obtain ⟨⟨two, room⟩, limits⟩ := known
      obtain ⟨none, added⟩ := l4_exec_add_region_ok load built called
      rw [RegionList.add_eq_insert true room limits two] at added
      obtain ⟨reg, inserted, ⟨⟩⟩ := bind_ok_iff.mp added
      have nLasting := segment_region_lasting built
      obtain ⟨kept, grown⟩ := insert_interleaved mixed nLasting
        (find_region_overlap_none.mp none) inserted
      refine ⟨kept, grown.trans (perm.cons n), ?_⟩
      intro r member
      rcases List.mem_cons.mp member with rfl | earlier
      · exact nLasting
      · exact lasting r earlier

/-- After the temporary entries are removed the list is sorted and disjoint
again and holds exactly the other entries of the start and the segments. -/
theorem elf_reservation_clean {sysalloc start final : RegionList W} {segments : List (Region W)}
    (ascending : Ascending start.reg)
    (run : Reserved (fun l n => SegmentFits l n ∧ l.InLimit n) sysalloc start segments final) :
    Ascending (final.removeIf Region.isTemporary).reg ∧
      (final.removeIf Region.isTemporary).reg.Perm
        (segments ++ (start.removeIf Region.isTemporary).reg) := by
  obtain ⟨mixed, perm, lasting⟩ := reserved_interleaved ascending run
  refine ⟨interleaved_lasting_ascending mixed, ?_⟩
  have kept : segments.filter (fun r => !r.isTemporary) = segments :=
    List.filter_eq_self.mpr fun r member => by simp [lasting r member]
  have filtered := perm.filter (fun r => !r.isTemporary)
  rw [List.filter_append, kept] at filtered
  exact filtered

def moduleRegion : Region .w64 :=
  ⟨0x1000, 0x8fff, { name := .modReg, type := .boot }, by decide, by decide⟩

def kernelSegment : Region .w64 :=
  ⟨0x2000, 0x2fff, { name := .cmdline 1, type := .kernel }, by decide, by decide⟩

def sigma0Segment : Region .w64 :=
  ⟨0x4000, 0x4aff, { name := .cmdline 2, type := .sigma0, eager := true }, by decide, by decide⟩

def bootstrapRegion : Region .w64 :=
  ⟨0x9000, 0x9fff, { name := .literal "bootstrap", type := .boot }, by decide, by decide⟩

def moduleRegions : RegionList .w64 :=
  ⟨[moduleRegion, bootstrapRegion], 300, Wordsize.w64.maxWord, Wordsize.w64.maxWord, 0x9000⟩

def wholeSysalloc : RegionList .w64 :=
  ⟨[⟨1, 2 ^ 64 - 1, {}, by decide, by decide⟩], 16, Wordsize.w64.maxWord, Wordsize.w64.maxWord, 0⟩

/-- The list with segments in the middle of its module region. -/
def segmentRegions : RegionList .w64 :=
  ⟨[kernelSegment, sigma0Segment, moduleRegion, bootstrapRegion], 300, Wordsize.w64.maxWord,
    Wordsize.w64.maxWord, 0xab00⟩

/-- The segment of sigma0 is entered first, and the module region is removed from the middle. -/
theorem elf_reservation_clean_two_segments :
    Ascending (segmentRegions.removeIf Region.isTemporary).reg ∧
      (segmentRegions.removeIf Region.isTemporary).reg.Perm
        ([kernelSegment, sigma0Segment] ++ (moduleRegions.removeIf Region.isTemporary).reg) := by
  have first : Reserved (fun l n => SegmentFits l n ∧ l.InLimit n) wholeSysalloc moduleRegions
      [sigma0Segment] ⟨[sigma0Segment, moduleRegion, bootstrapRegion], 300,
        Wordsize.w64.maxWord, Wordsize.w64.maxWord, 0x9b00⟩ :=
    .segment ⟨.sigma0, 0⟩ ⟨true, false, true, 0x4000, 0xb00⟩ 2 .start rfl (by decide)
      ⟨⟨by decide, by decide⟩, ⟨by decide, by decide, by decide⟩⟩ (by decide)
  have both : Reserved (fun l n => SegmentFits l n ∧ l.InLimit n) wholeSysalloc moduleRegions
      [kernelSegment, sigma0Segment] segmentRegions :=
    .segment ⟨.kernel, 0⟩ ⟨true, false, true, 0x2000, 0x1000⟩ 1 first rfl (by decide)
      ⟨⟨by decide, by decide⟩, ⟨by decide, by decide, by decide⟩⟩ (by decide)
  have ascending : Ascending moduleRegions.reg := by
    unfold Ascending
    decide
  exact elf_reservation_clean ascending both

def fullRegions : RegionList .w64 :=
  ⟨[⟨1, 2 ^ 64 - 1, { name := .modReg, type := .boot }, by decide, by decide⟩], 300,
    Wordsize.w64.maxWord, Wordsize.w64.maxWord, 2 ^ 64 - 1⟩

/-- `add` counts the bytes ever added. Once the count is the largest word, a
list without limits drops every segment, with a message. -/
theorem elf_reservation_drops_segment :
    RegionList.Reachable fullRegions ∧ Ascending fullRegions.reg ∧
      Reserved SegmentFits wholeSysalloc fullRegions [kernelSegment] fullRegions ∧
      ¬ (fullRegions.removeIf Region.isTemporary).reg.Perm
        ([kernelSegment] ++ (fullRegions.removeIf Region.isTemporary).reg) := by
  refine ⟨?_, List.pairwise_singleton _ _, ?_, ?_⟩
  · exact .step (.add ⟨1, 2 ^ 64 - 1, { name := .modReg, type := .boot }, by decide, by decide⟩)
      (.init 300 Wordsize.w64.maxWord Wordsize.w64.maxWord) (by decide)
  · exact .segment ⟨.kernel, 0⟩ ⟨true, false, true, 0x2000, 0x1000⟩ 1 .start rfl (by decide)
      ⟨by decide, by decide⟩ (by decide)
  · intro perm
    have lengths := perm.length_eq
    revert lengths
    decide

end L4Bootstrap
