import L4Bootstrap.MemLayout
import L4Bootstrap.RegionLimits
import L4Bootstrap.RegionOptimize
import L4Bootstrap.Startup.OptionLoop
import Mathlib.Algebra.Order.BigOperators.Group.List

/-!
# The memory map from the command line

`setup_memory_map` and `setup_sysalloc_map` of `startup.cc`. Each `-mem=` becomes an
entry of the list of RAM; without one the platform is asked. Each `-sysalloc=` that
meets RAM becomes an entry of the list of memory that the loader may use itself;
without one that is all memory.
-/

namespace L4Bootstrap

open MachineWord CheckedLoop

set_option autoImplicit false

/-- `-mem=` -/
def memOption : List UInt8 := [0x2d, 0x6d, 0x65, 0x6d, 0x3d]

/-- `-sysalloc=` -/
def sysallocOption : List UInt8 :=
  [0x2d, 0x73, 0x79, 0x73, 0x61, 0x6c, 0x6c, 0x6f, 0x63, 0x3d]

/-- The bytes that `%.*s` prints. -/
def asText (bytes : List UInt8) : String := String.ofList (bytes.map fun c => Char.ofNat c.toNat)

/-- `parse_mem_layout` on the text at `s`, with the panic of its callers. -/
def parseOrPanic (W : Wordsize) (name : String) (s : List UInt8) (argLen : Nat) :
    Checked (Nat × Nat) :=
  match parseMemLayout W s with
  | none => panic ("Invalid '" ++ name ++ asText (s.take argLen) ++ "' parameter")
  | some layout => .ok layout

/-- The body of the two loops: the area of one parameter is added to a list if it is
wanted there. The flag says that there was a parameter. -/
def areaBody (W : Wordsize) (name : String) (attr : Attr) (wanted : Region W → Bool)
    (s : List UInt8) (argLen : Nat) (state : Bool × RegionList W) :
    Checked (Bool × RegionList W) := do
  let (size, offset) ← parseOrPanic W name s argLen
  let area ← Region.startSize offset size attr
  if wanted area then do
    let areas ← state.2.add area
    .ok (true, areas)
  else .ok (true, state.2)

def ramAttr : Attr := { name := .literal ".ram" }

def memBody (W : Wordsize) : List UInt8 → Nat → Bool × RegionList W → Checked (Bool × RegionList W) :=
  areaBody W "-mem=" ramAttr fun _ => true

/-- The map of the platform is a parameter. -/
def setupMemoryMap (W : Wordsize) (fuel : Nat)
    (platformMap : RegionList W → Checked (RegionList W)) (cmdline : Option (List UInt8))
    (ram : RegionList W) : Checked (RegionList W) := do
  let (parsedMemOption, ram) ← forEachArg fuel memOption (memBody W) cmdline (false, ram)
  if !parsedMemOption then platformMap ram else .ok ram

def sysallocBody (W : Wordsize) (ram : RegionList W) :
    List UInt8 → Nat → Bool × RegionList W → Checked (Bool × RegionList W) :=
  areaBody W "-sysalloc=" {} fun rSysalloc => (ram.find rSysalloc).isSome

def setupSysallocMap (W : Wordsize) (fuel : Nat) (cmdline : Option (List UInt8))
    (ram sysalloc : RegionList W) : Checked (RegionList W) := do
  let (parsedSysallocOption, sysalloc) ←
    forEachArg fuel sysallocOption (sysallocBody W ram) cmdline (false, sysalloc)
  if !parsedSysallocOption then do
    let everything ← Region.make 0 W.maxWord {}
    sysalloc.add everything
  else if sysalloc.reg.isEmpty then
    panic "No intersection between -sysalloc regions and RAM regions"
  else sysalloc.optimize

theorem mem_option_plain : PlainOption memOption := ⟨by decide, by decide +kernel⟩

theorem sysalloc_option_plain : PlainOption sysallocOption := ⟨by decide, by decide +kernel⟩

/-! ## Sizes and offsets -/

/-- The bytes that a size and an offset stand for. -/
def LayoutHas (layout : Nat × Nat) (p : Nat) : Prop := layout.2 ≤ p ∧ p < layout.2 + layout.1

/-- A list drops one single byte. -/
def isArea (layout : Nat × Nat) : Bool := 2 ≤ layout.1

def LayoutsApart (layout other : Nat × Nat) : Prop :=
  layout.2 + layout.1 ≤ other.2 ∨ other.2 + other.1 ≤ layout.2

/-- None of them wraps around, and no two of them have a byte in common unless one of
them is a single byte. -/
structure LayoutsFit (W : Wordsize) (layouts : List (Nat × Nat)) : Prop where
  bounded : ∀ layout ∈ layouts, layout.2 + layout.1 ≤ W.modulus
  disjoint : (layouts.filter isArea).Pairwise LayoutsApart

section

variable {W : Wordsize} {s : List UInt8} {size offset : Nat}

theorem parse_mem_layout_word (parsed : parseMemLayout W s = some (size, offset)) :
    0 < size ∧ size < W.modulus ∧ offset < W.modulus := by
  obtain ⟨v₁, k₁, behind, v₂, k₂, reads, isSize, isOffset⟩ := parse_mem_layout_iff.mp parsed
  have nonzero := reads.nonzero
  have sizeWord := Nat.mod_lt (v₁ * 2 ^ k₁) W.modulus_pos
  have offsetWord := Nat.mod_lt (v₂ * 2 ^ k₂) W.modulus_pos
  omega

theorem parse_or_panic_ok {name : String} {argLen : Nat} {layout : Nat × Nat} :
    parseOrPanic W name s argLen = .ok layout ↔ parseMemLayout W s = some layout := by
  unfold parseOrPanic
  cases parseMemLayout W s with
  | none => simp [panic]
  | some other => simp

/-- Appending one more. -/
theorem layouts_fit_append {layouts : List (Nat × Nat)} {layout : Nat × Nat} :
    LayoutsFit W (layouts ++ [layout]) ↔
      LayoutsFit W layouts ∧ layout.2 + layout.1 ≤ W.modulus ∧
        (isArea layout = true → ∀ other ∈ layouts, isArea other = true →
          LayoutsApart other layout) := by
  constructor
  · intro fit
    have disjoint := fit.disjoint
    rw [List.filter_append, List.pairwise_append] at disjoint
    refine ⟨⟨fun other member => fit.bounded other (by simp [member]), disjoint.1⟩,
      fit.bounded layout (by simp), ?_⟩
    intro area other member otherArea
    exact disjoint.2.2 other (List.mem_filter.mpr ⟨member, otherArea⟩) layout (by simp [area])
  · rintro ⟨fit, bounded, apart⟩
    constructor
    · intro other member
      rcases List.mem_append.mp member with old | new
      · exact fit.bounded other old
      · rw [List.mem_singleton.mp new]
        exact bounded
    · rw [List.filter_append, List.pairwise_append]
      refine ⟨fit.disjoint, ?_, ?_⟩
      · exact List.Pairwise.filter _ (List.pairwise_singleton _ _)
      · intro other member new isNew
        obtain ⟨inNew, area⟩ := List.mem_filter.mp isNew
        rw [List.mem_singleton] at inNew
        subst inNew
        obtain ⟨inOld, otherArea⟩ := List.mem_filter.mp member
        exact apart area other inOld otherArea

end

/-! ## A list that such areas are added to -/

/-- A list without limits that has got these areas, with the running size that they
make. -/
structure GotLayouts {W : Wordsize} (attr : Attr) (capacity : Nat) (layouts : List (Nat × Nat))
    (l : RegionList W) : Prop where
  ascending : Ascending l.reg
  address : l.addressLimit = W.maxWord
  combined : l.maxCombinedSize = W.maxWord
  capacity : l.max = capacity
  counted : l.combinedSize = bytesOf l.reg
  bytes : bytesOf l.reg ≤ (layouts.map Prod.fst).sum
  short : l.reg.length ≤ layouts.length
  entries : ∀ e : Region W, e ∈ l.reg ↔ e.attr = attr ∧
    ∃ layout ∈ layouts, isArea layout = true ∧ e.begin = layout.2 ∧ e.last + 1 = layout.2 + layout.1

section

variable {W : Wordsize} {attr : Attr} {capacity : Nat} {layouts : List (Nat × Nat)}
  {layout : Nat × Nat} {l result : RegionList W} {area : Region W}

theorem got_none (capacity : Nat) : GotLayouts attr capacity [] (.init capacity : RegionList W) := by
  refine ⟨List.Pairwise.nil, rfl, rfl, rfl, rfl, le_rfl, le_rfl, ?_⟩
  simp [RegionList.init]

/-- Which bytes are covered. -/
theorem GotLayouts.covered (got : GotLayouts attr capacity layouts l)
    (fit : LayoutsFit W layouts) (p : Nat) :
    Covered l.reg p ↔ ∃ layout ∈ layouts, isArea layout = true ∧ LayoutHas layout p := by
  rw [covered_iff]
  constructor
  · rintro ⟨e, member, inside⟩
    obtain ⟨_, layout, isLayout, large, begins, ends⟩ := (got.entries e).mp member
    refine ⟨layout, isLayout, large, ?_⟩
    unfold Region.Has at inside
    unfold LayoutHas
    omega
  · rintro ⟨layout, isLayout, large, inside⟩
    have bounded := fit.bounded layout isLayout
    unfold LayoutHas at inside
    obtain ⟨e, begins, ends, isAttr⟩ : ∃ e : Region W, e.begin = layout.2 ∧
        e.last = layout.2 + layout.1 - 1 ∧ e.attr = attr :=
      ⟨⟨layout.2, layout.2 + layout.1 - 1, attr, by omega, by omega⟩, rfl, rfl, rfl⟩
    refine ⟨e, (got.entries e).mpr ⟨isAttr, layout, isLayout, large, begins, by omega⟩, ?_⟩
    unfold Region.Has
    omega

theorem GotLayouts.nonempty_iff (got : GotLayouts attr capacity layouts l)
    (fit : LayoutsFit W layouts) : l.reg ≠ [] ↔ ∃ layout ∈ layouts, isArea layout = true := by
  constructor
  · intro nonempty
    obtain ⟨e, member⟩ := List.exists_mem_of_ne_nil _ nonempty
    obtain ⟨_, layout, isLayout, large, _⟩ := (got.entries e).mp member
    exact ⟨layout, isLayout, large⟩
  · rintro ⟨layout, isLayout, large⟩ empty
    have two : 2 ≤ layout.1 := by simpa [isArea] using large
    have covered := (got.covered fit layout.2).mpr
      ⟨layout, isLayout, large, le_rfl, by omega⟩
    rw [empty] at covered
    exact not_covered_nil covered

theorem GotLayouts.isOpen (got : GotLayouts attr capacity layouts l)
    (room : layouts.length < capacity) : l.Open := by
  refine ⟨got.address, got.combined, ?_⟩
  have := got.short
  have := got.capacity
  omega

/-- An area that is no entry of the list: a single byte, or one that the list has been told
about and left out. -/
theorem GotLayouts.skip (got : GotLayouts attr capacity layouts l)
    (small : isArea layout = false) : GotLayouts attr capacity (layouts ++ [layout]) l := by
  refine ⟨got.ascending, got.address, got.combined, got.capacity, got.counted, ?_, ?_, ?_⟩
  · have := got.bytes
    rw [List.map_append, List.sum_append]
    omega
  · have := got.short
    rw [List.length_append]
    omega
  · intro e
    rw [got.entries e]
    apply and_congr_right
    intro _
    constructor
    · rintro ⟨other, member, large, isEntry⟩
      exact ⟨other, by simp [member], large, isEntry⟩
    · rintro ⟨other, member, large, isEntry⟩
      rcases List.mem_append.mp member with old | new
      · exact ⟨other, old, large, isEntry⟩
      · rw [List.mem_singleton.mp new, small] at large
        cases large

/-- An area that has become an entry. -/
theorem GotLayouts.insert (got : GotLayouts attr capacity layouts l) (large : isArea layout = true)
    (begins : area.begin = layout.2) (ends : area.last + 1 = layout.2 + layout.1)
    (isAttr : area.attr = attr) {reg : List (Region W)} {combined : Nat}
    (perm : reg.Perm (area :: l.reg)) (ascending : Ascending reg)
    (sum : combined = bytesOf l.reg + layout.1) :
    GotLayouts attr capacity (layouts ++ [layout]) { l with reg := reg, combinedSize := combined } := by
  have ordered := area.ordered
  refine ⟨ascending, got.address, got.combined, got.capacity, ?_, ?_, ?_, ?_⟩
  · simp only [sum, bytes_of_perm perm, bytes_of_cons]
    omega
  · have := got.bytes
    rw [List.map_append, List.sum_append, bytes_of_perm perm, bytes_of_cons]
    simp only [List.map_cons, List.map_nil, List.sum_cons, List.sum_nil]
    omega
  · have := got.short
    rw [List.length_append, perm.length_eq, List.length_cons, List.length_singleton]
    omega
  · intro e
    rw [perm.mem_iff, List.mem_cons, got.entries e]
    constructor
    · rintro (rfl | ⟨sameAttr, other, member, otherLarge, isEntry⟩)
      · exact ⟨isAttr, layout, by simp, large, begins, ends⟩
      · exact ⟨sameAttr, other, by simp [member], otherLarge, isEntry⟩
    · rintro ⟨sameAttr, other, member, otherLarge, otherBegins, otherEnds⟩
      rcases List.mem_append.mp member with old | new
      · exact .inr ⟨sameAttr, other, old, otherLarge, otherBegins, otherEnds⟩
      · left
        rw [List.mem_singleton.mp new] at otherBegins otherEnds
        obtain ⟨eBegin, eLast, eAttr, _, _⟩ := e
        obtain ⟨aBegin, aLast, aAttr, _, _⟩ := area
        simp only at begins ends isAttr sameAttr otherBegins otherEnds
        have sameLast : eLast = aLast := by omega
        rw [Region.mk.injEq]
        exact ⟨otherBegins.trans begins.symm, sameLast, sameAttr.trans isAttr.symm⟩

/-- The entry of an area, and the areas that a region does not overlap. -/
theorem GotLayouts.free_iff (got : GotLayouts attr capacity layouts l) (fit : LayoutsFit W layouts)
    (begins : area.begin = layout.2) (ends : area.last + 1 = layout.2 + layout.1) :
    (∀ e ∈ l.reg, area.overlaps e = false) ↔
      ∀ other ∈ layouts, isArea other = true → LayoutsApart other layout := by
  constructor
  · intro free other member large
    have two : 2 ≤ other.1 := by simpa [isArea] using large
    have bounded := fit.bounded other member
    obtain ⟨e, eBegin, eLast, isAttr⟩ : ∃ e : Region W, e.begin = other.2 ∧
        e.last = other.2 + other.1 - 1 ∧ e.attr = attr :=
      ⟨⟨other.2, other.2 + other.1 - 1, attr, by omega, by omega⟩, rfl, rfl, rfl⟩
    have inList : e ∈ l.reg :=
      (got.entries e).mpr ⟨isAttr, other, member, large, eBegin, by omega⟩
    have apart := Region.overlaps_eq_false_iff.mp (free e inList)
    unfold LayoutsApart
    omega
  · intro apart e member
    obtain ⟨_, other, isOther, large, eBegin, eLast⟩ := (got.entries e).mp member
    have := apart other isOther large
    unfold LayoutsApart at this
    rw [Region.overlaps_eq_false_iff]
    omega

/-- One single byte is dropped, whether it overlaps an entry or not. -/
theorem add_single (isOpen : l.Open) (single : area.begin = area.last) : l.add area = .ok l := by
  have bounded := area.bounded
  have maxWord : W.maxWord = W.modulus - 1 := rfl
  have sumWord := W.add_lt l.combinedSize area.size
  rw [RegionList.add, if_neg (show ¬ l.addressLimit < area.begin by rw [isOpen.address]; omega),
    if_neg (show ¬ l.addressLimit < area.last by rw [isOpen.address]; omega),
    RegionList.addSizeLimited, isOpen.combined,
    if_neg (show ¬ W.maxWord < W.add l.combinedSize area.size by omega),
    RegionList.addNolimitcheck, if_pos single]
  split_ifs <;> rfl

/-- A further area is taken if it overlaps none of the others, and always if it is a
single byte. -/
theorem GotLayouts.add_iff (got : GotLayouts attr capacity layouts l) (fit : LayoutsFit W layouts)
    (room : layouts.length < capacity)
    (total : (layouts.map Prod.fst).sum + layout.1 < W.maxWord)
    (begins : area.begin = layout.2) (ends : area.last + 1 = layout.2 + layout.1)
    (isAttr : area.attr = attr) :
    ((∃ result, l.add area = .ok result) ↔ (isArea layout = true → ∀ other ∈ layouts,
        isArea other = true → LayoutsApart other layout)) ∧
      ∀ result, l.add area = .ok result →
        GotLayouts attr capacity (layouts ++ [layout]) result := by
  have ordered := area.ordered
  have isOpen := got.isOpen room
  have bytes := got.bytes
  have notFull : l.combinedSize < W.maxWord := by
    rw [got.counted]
    omega
  have isLarge : isArea layout = true ↔ area.begin < area.last := by
    simp only [isArea, decide_eq_true_eq]
    omega
  cases large : isArea layout with
  | false =>
      have single : area.begin = area.last := by
        rw [large] at isLarge
        have := mt isLarge.mpr (by decide)
        omega
      have same := add_single isOpen single
      refine ⟨⟨fun _ none => (by cases none), fun _ => ⟨l, same⟩⟩, ?_⟩
      intro result added
      rw [same] at added
      cases added
      exact got.skip large
  | true =>
      have two := isLarge.mp large
      rw [← got.free_iff fit begins ends]
      constructor
      · constructor
        · rintro ⟨result, added⟩ _
          rcases RegionList.add_open got.ascending isOpen added with ⟨_, lost⟩ | ⟨_, free, _⟩
          · omega
          · exact free
        · intro free
          rcases RegionList.add_open_free got.ascending isOpen (free rfl) with
            ⟨lost, _⟩ | ⟨_, _, _, _, _, _, adds⟩
          · exact absurd ⟨two, notFull⟩ lost
          · exact ⟨_, adds⟩
      · intro result added
        rcases RegionList.add_open got.ascending isOpen added with ⟨_, lost⟩ | ⟨_, free, _⟩
        · omega
        · rcases RegionList.add_open_free got.ascending isOpen free with
            ⟨lost, _⟩ | ⟨_, front, back, whole, below, above, adds⟩
          · exact absurd ⟨two, notFull⟩ lost
          · rw [adds] at added
            cases added
            apply got.insert large begins ends isAttr
            · rw [whole]
              exact List.perm_middle
            · have ascending := got.ascending
              rw [whole] at ascending
              exact ascending_insert ascending below above
            · have maxWord : W.maxWord = W.modulus - 1 := rfl
              rw [W.add_of_lt (by rw [got.counted]; omega), got.counted]
              omega

end

/-! ## The loop over the parameters -/

section

variable {W : Wordsize} {attr : Attr} {capacity : Nat} {seen : List (Nat × Nat)}
  {layout : Nat × Nat} {l : RegionList W} {wanted : Region W → Bool} {meets : Nat × Nat → Bool}
  {s : List UInt8}

/-- A test of regions, as a test of sizes and offsets. -/
def TestsLayout {W : Wordsize} (wanted : Region W → Bool) (meets : Nat × Nat → Bool) : Prop :=
  ∀ (area : Region W) layout, area.begin = layout.2 → area.last + 1 = layout.2 + layout.1 →
    wanted area = meets layout

/-- The areas that the list takes: none of all wraps around, the wanted ones fit. -/
structure LayoutsTaken (W : Wordsize) (meets : Nat × Nat → Bool) (layouts : List (Nat × Nat)) :
    Prop where
  bounded : ∀ layout ∈ layouts, layout.2 + layout.1 ≤ W.modulus
  fit : LayoutsFit W (layouts.filter meets)

/-- One parameter. -/
theorem area_body_spec (name : String) (tests : TestsLayout wanted meets) (taken : LayoutsTaken W meets seen)
    (got : GotLayouts attr capacity (seen.filter meets) l) (room : seen.length < capacity)
    (total : (seen.map Prod.fst).sum + layout.1 < W.maxWord)
    (parsed : parseMemLayout W s = some layout) (argLen : Nat) (flag : Bool) :
    ((∃ result, areaBody W name attr wanted s argLen (flag, l) = .ok result) ↔
        LayoutsTaken W meets (seen ++ [layout])) ∧
      ∀ result, areaBody W name attr wanted s argLen (flag, l) = .ok result →
        result.1 = true ∧ GotLayouts attr capacity ((seen ++ [layout]).filter meets) result.2 := by
  obtain ⟨pos, sizeWord, _⟩ := parse_mem_layout_word parsed
  have short := (List.length_filter_le meets seen).trans_lt room
  have bytes : ((seen.filter meets).map Prod.fst).sum + layout.1 < W.maxWord := by
    have := ((List.filter_sublist (p := meets) (l := seen)).map Prod.fst).sum_le_sum
      fun _ _ => Nat.zero_le _
    omega
  rw [areaBody, parse_or_panic_ok.mpr parsed, ok_bind]
  by_cases bounded : layout.2 + layout.1 ≤ W.modulus
  · obtain ⟨area, made, begins, ends, isAttr⟩ :=
      Region.start_size_of_fits (W := W) attr pos bounded
    have allBounded : ∀ other ∈ seen ++ [layout], other.2 + other.1 ≤ W.modulus := by
      intro other member
      rcases List.mem_append.mp member with old | new
      · exact taken.bounded other old
      · rw [List.mem_singleton.mp new]
        exact bounded
    simp only [made, ok_bind]
    rw [tests area layout begins (by omega)]
    cases meeting : meets layout with
    | false =>
        have filtered : (seen ++ [layout]).filter meets = seen.filter meets := by
          simp [List.filter_append, meeting]
        simp only [Bool.false_eq_true, if_false]
        refine ⟨⟨fun _ => ⟨allBounded, filtered ▸ taken.fit⟩, fun _ => ⟨_, rfl⟩⟩, ?_⟩
        intro result same
        cases same
        exact ⟨rfl, filtered ▸ got⟩
    | true =>
        have filtered : (seen ++ [layout]).filter meets = seen.filter meets ++ [layout] := by
          simp [List.filter_append, meeting]
        obtain ⟨adds, gets⟩ := got.add_iff taken.fit short bytes begins (by omega) isAttr
        simp only [if_true]
        constructor
        · constructor
          · rintro ⟨result, returned⟩
            obtain ⟨areas, added, _⟩ := bind_ok_iff.mp returned
            refine ⟨allBounded, ?_⟩
            rw [filtered]
            exact layouts_fit_append.mpr ⟨taken.fit, bounded, adds.mp ⟨areas, added⟩⟩
          · intro all
            have fit := all.fit
            rw [filtered] at fit
            obtain ⟨areas, added⟩ := adds.mpr (layouts_fit_append.mp fit).2.2
            exact ⟨(true, areas), by rw [added, ok_bind]⟩
        · intro result returned
          obtain ⟨areas, added, same⟩ := bind_ok_iff.mp returned
          cases same
          exact ⟨rfl, filtered ▸ gets areas added⟩
  · have wraps : ∀ area : Region W, Region.startSize layout.2 layout.1 attr ≠ .ok area :=
      fun area made => bounded (Region.start_size_last made sizeWord).1
    constructor
    · constructor
      · rintro ⟨result, returned⟩
        obtain ⟨area, made, _⟩ := bind_ok_iff.mp returned
        exact absurd made (wraps area)
      · intro all
        exact absurd (all.bounded layout (by simp)) bounded
    · intro result returned
      obtain ⟨area, made, _⟩ := bind_ok_iff.mp returned
      exact absurd made (wraps area)

theorem LayoutsFit.sublist {layouts part : List (Nat × Nat)} (fit : LayoutsFit W layouts)
    (sublist : part.Sublist layouts) : LayoutsFit W part :=
  ⟨fun layout member => fit.bounded layout (sublist.subset member),
    fit.disjoint.sublist (sublist.filter isArea)⟩

theorem LayoutsTaken.front {layouts more : List (Nat × Nat)}
    (taken : LayoutsTaken W meets (layouts ++ more)) : LayoutsTaken W meets layouts :=
  ⟨fun layout member => taken.bounded layout (by simp [member]),
    taken.fit.sublist ((List.sublist_append_left layouts more).filter meets)⟩

/-- What the parameters stand for. -/
def Parsed (W : Wordsize) (texts : List (List UInt8)) (layouts : List (Nat × Nat)) : Prop :=
  List.Forall₂ (fun s layout => parseMemLayout W s = some layout) texts layouts

/-- All parameters from one on. -/
theorem area_fold_spec (name : String) (tests : TestsLayout wanted meets) {texts : List (List UInt8)}
    {layouts : List (Nat × Nat)} (parsed : Parsed W texts layouts)
    (taken : LayoutsTaken W meets seen) (got : GotLayouts attr capacity (seen.filter meets) l)
    (room : seen.length + layouts.length ≤ capacity)
    (total : ((seen ++ layouts).map Prod.fst).sum < W.maxWord) (flag : Bool) :
    ((∃ result, texts.foldlM (fun state s => areaBody W name attr wanted s (argLen s) state)
          (flag, l) = .ok result) ↔ LayoutsTaken W meets (seen ++ layouts)) ∧
      ∀ result, texts.foldlM (fun state s => areaBody W name attr wanted s (argLen s) state)
          (flag, l) = .ok result →
        result.1 = (flag || !texts.isEmpty) ∧
          GotLayouts attr capacity ((seen ++ layouts).filter meets) result.2 := by
  induction parsed generalizing seen l flag with
  | nil =>
      rw [List.append_nil]
      refine ⟨⟨fun _ => taken, fun _ => ⟨_, rfl⟩⟩, ?_⟩
      intro result same
      cases same
      simpa using got
  | @cons s layout texts layouts first others ih =>
      rw [List.length_cons] at room
      have sum : (seen.map Prod.fst).sum + layout.1 < W.maxWord := by
        simp only [List.map_append, List.map_cons, List.sum_append, List.sum_cons] at total
        omega
      have split : seen ++ layout :: layouts = (seen ++ [layout]) ++ layouts := by simp
      obtain ⟨adds, gets⟩ := area_body_spec name tests taken got (by omega) sum first (argLen s) flag
      rw [List.foldlM_cons]
      cases step : areaBody W name attr wanted s (argLen s) (flag, l) with
      | error failure =>
          simp only [error_bind, reduceCtorEq, exists_false, false_iff, false_implies,
            implies_true, and_true]
          intro all
          rw [split] at all
          obtain ⟨result, returned⟩ := adds.mpr all.front
          rw [step] at returned
          cases returned
      | ok result =>
          obtain ⟨isTrue, gotNext⟩ := gets result step
          obtain ⟨nextFlag, next⟩ := result
          simp only at isTrue gotNext
          subst isTrue
          simp only [ok_bind]
          rw [split] at total ⊢
          obtain ⟨taken, gives⟩ := ih (adds.mp ⟨_, step⟩) gotNext
            (by rw [List.length_append, List.length_singleton]; omega) total true
          refine ⟨taken, ?_⟩
          intro result returned
          obtain ⟨flagged, got⟩ := gives result returned
          exact ⟨by simpa using flagged, got⟩

/-- The loop from an empty list on. -/
theorem area_loop_exact (name : String) (attr : Attr) (tests : TestsLayout wanted meets)
    {texts : List (List UInt8)} {layouts : List (Nat × Nat)} (parsed : Parsed W texts layouts)
    (room : layouts.length ≤ capacity) (total : (layouts.map Prod.fst).sum < W.maxWord) :
    ((∃ result, texts.foldlM (fun state s => areaBody W name attr wanted s (argLen s) state)
          (false, .init capacity) = .ok result) ↔ LayoutsTaken W meets layouts) ∧
      ∀ result, texts.foldlM (fun state s => areaBody W name attr wanted s (argLen s) state)
          (false, .init capacity) = .ok result →
        result.1 = (!texts.isEmpty) ∧
          GotLayouts attr capacity (layouts.filter meets) result.2 := by
  have nothing : LayoutsTaken W meets [] := ⟨by simp, by simp, List.Pairwise.nil⟩
  have exact := area_fold_spec name tests parsed nothing (@got_none W attr capacity)
    (by simpa using room) (by simpa using total) false
  simpa only [List.nil_append, Bool.false_or] using exact

/-- A parameter that is no layout, behind ones that are taken. -/
theorem area_loop_invalid (name : String) (attr : Attr) (tests : TestsLayout wanted meets)
    {texts rest : List (List UInt8)} {layouts : List (Nat × Nat)}
    (parsed : Parsed W texts layouts) (taken : LayoutsTaken W meets layouts)
    (room : layouts.length ≤ capacity) (total : (layouts.map Prod.fst).sum < W.maxWord)
    (invalid : parseMemLayout W s = none) :
    (texts ++ s :: rest).foldlM (fun state s => areaBody W name attr wanted s (argLen s) state)
        (false, .init capacity) =
      panic ("Invalid '" ++ name ++ asText (s.take (argLen s)) ++ "' parameter") := by
  obtain ⟨result, returned⟩ := (area_loop_exact name attr tests parsed room total).1.mpr taken
  rw [List.foldlM_append, returned, ok_bind, List.foldlM_cons, areaBody, parseOrPanic, invalid]
  rfl

end

/-! ## The two maps -/

section

variable {W : Wordsize} {text : List UInt8} {layouts : List (Nat × Nat)}
  {capacity fuel : Nat} {platformMap : RegionList W → Checked (RegionList W)}

theorem wants_all : TestsLayout (fun _ : Region W => true) fun _ => true := fun _ _ _ _ => rfl

theorem taken_all : LayoutsTaken W (fun _ => true) layouts ↔ LayoutsFit W layouts := by
  constructor
  · intro taken
    simpa using taken.fit
  · intro fit
    exact ⟨fit.bounded, by simpa using fit⟩

theorem Parsed.nonempty {texts : List (List UInt8)} (parsed : Parsed W texts layouts)
    (given : layouts ≠ []) : (!texts.isEmpty) = true := by
  cases parsed with
  | nil => exact absurd rfl given
  | cons first others => rfl

/-- With `-mem=` options that only start words the map of RAM is theirs: it is made
exactly if no area wraps around and no two of them overlap, and then covers the bytes of
the areas, where a single byte does not count. The first option that is no layout is
named by the panic. -/
theorem setup_memory_map_exact (starts : StartsWords text memOption)
    (enough : text.length < fuel) (room : (parameters memOption text).length ≤ capacity) :
    (parameters memOption text = [] →
      setupMemoryMap W fuel platformMap (some text) (.init capacity) =
        platformMap (.init capacity)) ∧
    (∀ layouts, Parsed W (parameters memOption text) layouts → layouts ≠ [] →
      (layouts.map Prod.fst).sum < W.maxWord →
      ((∃ ram, setupMemoryMap W fuel platformMap (some text) (.init capacity) = .ok ram) ↔
          LayoutsFit W layouts) ∧
        ∀ ram, setupMemoryMap W fuel platformMap (some text) (.init capacity) = .ok ram →
          Ascending ram.reg ∧ (∀ e ∈ ram.reg, e.attr = ramAttr) ∧ ∀ p, Covered ram.reg p ↔
            ∃ layout ∈ layouts, isArea layout = true ∧ LayoutHas layout p) ∧
    (∀ valid s rest layouts, parameters memOption text = valid ++ s :: rest →
      Parsed W valid layouts → LayoutsFit W layouts → (layouts.map Prod.fst).sum < W.maxWord →
      parseMemLayout W s = none →
      setupMemoryMap W fuel platformMap (some text) (.init capacity) =
        panic ("Invalid '-mem=" ++ asText (s.take (argLen s)) ++ "' parameter")) := by
  have folds := for_each_arg_folds fuel (memBody W) mem_option_plain starts
    (false, .init capacity) enough
  unfold setupMemoryMap
  rw [folds]
  refine ⟨?_, ?_, ?_⟩
  · intro absent
    rw [absent]
    rfl
  · intro layouts parsed given total
    have short : layouts.length ≤ capacity := parsed.length_eq ▸ room
    obtain ⟨taken, gives⟩ := area_loop_exact "-mem=" ramAttr wants_all parsed short total
    rw [taken_all] at taken
    constructor
    · rw [← taken]
      constructor
      · rintro ⟨ram, returned⟩
        obtain ⟨result, folded, _⟩ := bind_ok_iff.mp returned
        exact ⟨result, folded⟩
      · rintro ⟨⟨flag, ram⟩, folded⟩
        have isGiven := (gives _ folded).1.trans (parsed.nonempty given)
        refine ⟨ram, bind_ok_iff.mpr ⟨_, folded, ?_⟩⟩
        simp only at isGiven
        rw [isGiven]
        rfl
    · intro ram returned
      obtain ⟨⟨flag, areas⟩, folded, same⟩ := bind_ok_iff.mp returned
      obtain ⟨isGiven, got⟩ := gives _ folded
      simp only [parsed.nonempty given] at isGiven
      rw [isGiven] at same
      cases same
      rw [List.filter_eq_self.mpr fun _ _ => rfl] at got
      exact ⟨got.ascending, fun e member => ((got.entries e).mp member).1,
        got.covered (taken.mp ⟨_, folded⟩)⟩
  · intro valid s rest layouts split parsed fit total invalid
    rw [split] at room ⊢
    have short : layouts.length ≤ capacity := by
      have := parsed.length_eq
      rw [List.length_append] at room
      omega
    have stops := @area_loop_invalid W capacity _ _ s "-mem=" ramAttr wants_all valid rest
      layouts parsed (taken_all.mpr fit) short total invalid
    change (List.foldlM (fun state s => areaBody W "-mem=" ramAttr _ s (argLen s) state) _ _ >>= _) = _
    rw [stops]
    rfl

end

/-- `-mem=1M@2M -mem=8k@0` -/
def twoMemOptions : List UInt8 :=
  [0x2d, 0x6d, 0x65, 0x6d, 0x3d, 0x31, 0x4d, 0x40, 0x32, 0x4d, 0x20,
    0x2d, 0x6d, 0x65, 0x6d, 0x3d, 0x38, 0x6b, 0x40, 0x30]

def twoLayouts : List (Nat × Nat) := [(0x100000, 0x200000), (0x2000, 0)]

theorem setup_memory_map_exact_two_options :
    ∃ ram, setupMemoryMap .w64 100 .ok (some twoMemOptions) (.init 32) = .ok ram ∧
      ∀ p, Covered ram.reg p ↔ p < 0x2000 ∨ (0x200000 ≤ p ∧ p < 0x300000) := by
  have starts : StartsWords twoMemOptions memOption := by
    have all : ∀ s, s ≤ twoMemOptions.length → Occurs twoMemOptions memOption s →
        WordStart twoMemOptions s := by decide
    intro s occurs
    exact all s occurs.1 occurs
  have parsed : Parsed .w64 (parameters memOption twoMemOptions) twoLayouts := by
    have texts : parameters memOption twoMemOptions = [[0x31, 0x4d, 0x40, 0x32, 0x4d, 0x20,
        0x2d, 0x6d, 0x65, 0x6d, 0x3d, 0x38, 0x6b, 0x40, 0x30], [0x38, 0x6b, 0x40, 0x30]] := by
      decide
    rw [texts]
    exact .cons (by decide +kernel) (.cons (by decide +kernel) .nil)
  have fit : LayoutsFit .w64 twoLayouts := by
    constructor
    · decide
    · unfold LayoutsApart
      decide
  obtain ⟨_, given, _⟩ := @setup_memory_map_exact .w64 twoMemOptions 32 100 .ok starts (by decide)
    (by decide)
  obtain ⟨made, covers⟩ := given twoLayouts parsed (by decide) (by decide)
  obtain ⟨ram, returned⟩ := made.mpr fit
  refine ⟨ram, returned, fun p => ?_⟩
  rw [(covers ram returned).2.2 p]
  simp only [twoLayouts, List.mem_cons, List.not_mem_nil, or_false, exists_eq_or_imp, LayoutHas,
    isArea, exists_eq_left]
  simp only [Nat.reduceLeDiff, decide_true, true_and]
  omega

section

variable {W : Wordsize} {text : List UInt8} {layouts : List (Nat × Nat)} {capacity fuel : Nat}

/-- A size and an offset have a byte in common with an entry of RAM. -/
def meetsRam (ram : RegionList W) (layout : Nat × Nat) : Bool :=
  ram.reg.any fun e => layout.2 ≤ e.last && e.begin < layout.2 + layout.1

theorem tests_ram (ram : RegionList W) :
    TestsLayout (fun area => (ram.find area).isSome) (meetsRam ram) := by
  intro area layout begins ends
  change (ram.reg.find? fun e => e.overlaps area).isSome = _
  rw [Bool.eq_iff_iff, List.find?_isSome, meetsRam, List.any_eq_true]
  apply exists_congr
  intro e
  simp only [Region.overlaps_iff, Bool.and_eq_true, decide_eq_true_eq]
  have := area.ordered
  constructor
  · rintro ⟨member, below, above⟩
    exact ⟨member, by omega, by omega⟩
  · rintro ⟨member, below, above⟩
    exact ⟨member, by omega, by omega⟩

theorem optimize_within_pages {l : RegionList W} (ascending : Ascending l.reg)
    (nonempty : l.reg ≠ []) :
    ∃ merged, l.optimize = .ok merged ∧ RegionList.MergedWithinPages l.reg merged.reg := by
  obtain ⟨reg, capacity, combined, limit, used⟩ := l
  cases reg with
  | nil => exact absurd rfl nonempty
  | cons c rest =>
      obtain ⟨result, made, _⟩ := RegionList.optimize_from_ascending ascending
      exact ⟨_, by simp only [RegionList.optimize, made, ok_bind]; rfl,
        RegionList.optimize_from_merged ascending made⟩

/-- The list of all memory. -/
theorem add_everything (pos : 0 < capacity) :
    ∃ sysalloc everything : _, Region.make 0 W.maxWord {} = .ok everything ∧
      (RegionList.init capacity : RegionList W).add everything = .ok sysalloc ∧
        ∀ p, p < W.modulus → Covered sysalloc.reg p := by
  have maxWord : W.maxWord = W.modulus - 1 := rfl
  have word := W.modulus_ge
  obtain ⟨everything, begins, ends, isAttr⟩ : ∃ everything : Region W, everything.begin = 0 ∧
      everything.last = W.maxWord ∧ everything.attr = {} :=
    ⟨⟨0, W.maxWord, {}, Nat.zero_le _, by omega⟩, rfl, rfl, rfl⟩
  have isOpen : (RegionList.init capacity : RegionList W).Open := ⟨rfl, rfl, pos⟩
  have ascending : Ascending (RegionList.init capacity : RegionList W).reg := List.Pairwise.nil
  have free : ∀ o ∈ (RegionList.init capacity : RegionList W).reg, everything.overlaps o = false := by
    simp [RegionList.init]
  rcases RegionList.add_open_free ascending isOpen free with
    ⟨lost, _⟩ | ⟨_, front, back, _, _, _, adds⟩
  · refine absurd ⟨by omega, ?_⟩ lost
    change 0 < W.maxWord
    omega
  · refine ⟨_, everything, Region.make_ok.mpr ⟨begins, ends, isAttr⟩, adds, ?_⟩
    intro p below
    rw [covered_iff]
    refine ⟨everything, by simp, ?_⟩
    unfold Region.Has
    omega

/-- A page that a region touches has a byte of the region. -/
theorem Region.Touches.byte {r : Region W} {page : Nat} (touches : r.Touches page) :
    ∃ p, r.Has p ∧ p / pageSize = page := by
  obtain ⟨low, high⟩ := touches
  have size : pageSize = 4096 := rfl
  have ordered := r.ordered
  rw [size] at low high ⊢
  refine ⟨max r.begin (page * 4096), ?_, by omega⟩
  unfold Region.Has
  omega

end

/-- `-sysalloc=8k@0` -/
def oneSysallocOption : List UInt8 := sysallocOption ++ [0x38, 0x6b, 0x40, 0x30]

def lowRam : RegionList .w64 := ⟨[.fixed 0x1000 0xffff ramAttr (.refl true)], 32,
  Wordsize.w64.maxWord, Wordsize.w64.maxWord, 0xf000⟩

end L4Bootstrap
