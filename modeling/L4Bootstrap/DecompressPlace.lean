import L4Bootstrap.Decompress
import L4Bootstrap.ModuleMove
import L4Bootstrap.RegionCover

/-!
# The place for the decompressed modules

The modules go to consecutive page-rounded slots. The search for an overlapping
place moves two candidates: on the right each slot must begin behind its own
image, on the left each slot must end before it. A later shift of a candidate
keeps what was achieved for the earlier modules, as it moves all slots in the
good direction. The left candidate may run past the end of the address space; it
then stays there, and no RAM contains it.
-/

namespace L4Bootstrap

open MachineWord CheckedState ByteMemory

set_option autoImplicit false

variable {W : Wordsize}

/-- The slot of a decompressed module. -/
def Machine.unpacked (s : Machine W) (index : Nat) : Nat :=
  pageUp (s.module index).sizeUncompressed

def Machine.imageEnd (s : Machine W) (index : Nat) : Nat :=
  (s.module index).start + (s.module index).size

/-- A byte of the stored module. -/
def Machine.Image (s : Machine W) (index p : Nat) : Prop :=
  (s.module index).start ≤ p ∧ p < s.imageEnd index

/-- The end of the slots when each of them begins behind the last one and behind
the image of its module. -/
def Machine.rightEnd (s : Machine W) (cursor : Nat) (order : List Nat) : Nat :=
  order.foldl (fun cursor i => max cursor (pageUp (s.imageEnd i)) + s.unpacked i) cursor

theorem right_end_cons (s : Machine W) (cursor i : Nat) (rest : List Nat) :
    s.rightEnd cursor (i :: rest) =
      s.rightEnd (max cursor (pageUp (s.imageEnd i)) + s.unpacked i) rest := List.foldl_cons

theorem layout_shift (slot : Nat → Nat) (start distance : Nat) (order : List Nat) :
    layout slot (start + distance) order =
      (layout slot start order).map fun move => (move.1, move.2 + distance) := by
  induction order generalizing start with
  | nil => rfl
  | cons i rest ih =>
      have next : start + distance + slot i = start + slot i + distance := by omega
      rw [layout, layout, next, ih, List.map_cons]

theorem unpacked_dvd (s : Machine W) (index : Nat) : 2 ^ pageShift ∣ s.unpacked index :=
  dvd_round_up pageShift _

theorem total_unpacked_dvd (s : Machine W) (order : List Nat) :
    2 ^ pageShift ∣ total s.unpacked order := by
  apply List.dvd_sum
  intro x member
  obtain ⟨i, _, rfl⟩ := List.mem_map.mp member
  exact unpacked_dvd s i

/-! ## The right candidate -/

namespace Cursors

variable (c : Cursors) (mod : ModInfo)

@[simp] theorem step_left_rdest : (c.stepLeft W mod).rdest = c.rdest := by
  simp only [stepLeft]
  split_ifs <;> rfl

@[simp] theorem step_left_rpos : (c.stepLeft W mod).rpos = c.rpos := by
  simp only [stepLeft]
  split_ifs <;> rfl

theorem step_right_left_ldest :
    ((c.stepRight W mod).stepLeft W mod).ldest = (c.stepLeft W mod).ldest := by
  simp only [stepRight]
  split_ifs
  · simp only [stepLeft]
    split_ifs <;> rfl
  · rfl

theorem step_right_left_lpos :
    ((c.stepRight W mod).stepLeft W mod).lpos = (c.stepLeft W mod).lpos := by
  simp only [stepRight]
  split_ifs
  · simp only [stepLeft]
    split_ifs <;> rfl
  · rfl

end Cursors

/-- The right candidate after the modules `finished`. -/
structure RightFits (s : Machine W) (c : Cursors) (finished : List Nat) : Prop where
  aligned : 2 ^ pageShift ∣ c.rdest
  position : c.rpos = c.rdest + total s.unpacked finished
  behind : ∀ move ∈ layout s.unpacked c.rdest finished, s.imageEnd move.1 ≤ move.2

theorem RightFits.shift {s : Machine W} {c : Cursors} {finished : List Nat}
    (fits : RightFits s c finished) {dest : Nat} (above : c.rdest ≤ dest) :
    ∀ move ∈ layout s.unpacked dest finished, s.imageEnd move.1 ≤ move.2 := by
  obtain ⟨distance, rfl⟩ := Nat.exists_eq_add_of_le above
  rw [layout_shift]
  intro move member
  obtain ⟨origin, inLayout, rfl⟩ := List.mem_map.mp member
  have := fits.behind origin inLayout
  change s.imageEnd origin.1 ≤ origin.2 + distance
  omega

theorem right_fits_step {s : Machine W} {c : Cursors} {finished : List Nat} {i : Nat}
    (fits : RightFits s c finished)
    (below : max c.rpos (pageUp (s.imageEnd i)) + s.unpacked i < W.modulus) :
    RightFits s (c.step W (s.module i)) (finished ++ [i]) ∧
      (c.step W (s.module i)).rpos = max c.rpos (pageUp (s.imageEnd i)) + s.unpacked i := by
  have endUp : s.imageEnd i ≤ pageUp (s.imageEnd i) := le_round_up pageShift _
  have position := fits.position
  have finishedDvd := total_unpacked_dvd s finished
  have mend : W.add (s.module i).start (s.module i).size = s.imageEnd i := by
    have word : s.imageEnd i < W.modulus := by omega
    exact W.add_of_lt word
  have rounded : roundPage W (s.module i).sizeUncompressed = s.unpacked i :=
    round_page_eq W (by unfold Machine.unpacked at below; omega)
  -- the new candidate begins at `dest`, and the slot of the module at `slot`
  suffices moved : ∃ dest, (c.stepRight W (s.module i)).rdest = dest ∧ c.rdest ≤ dest ∧
      2 ^ pageShift ∣ dest ∧
      (c.stepRight W (s.module i)).rpos = dest + total s.unpacked finished ∧
      dest + total s.unpacked finished = max c.rpos (pageUp (s.imageEnd i)) by
    obtain ⟨dest, isDest, above, aligned, isPos, slot⟩ := moved
    have rdest : (c.step W (s.module i)).rdest = dest := by
      simp only [Cursors.step, Cursors.step_left_rdest, isDest]
    have rpos : (c.step W (s.module i)).rpos = dest + total s.unpacked finished + s.unpacked i := by
      simp only [Cursors.step, Cursors.step_left_rpos, isPos, rounded]
      exact W.add_of_lt (by omega)
    refine ⟨⟨by rw [rdest]; exact aligned, ?_, ?_⟩, by omega⟩
    · rw [rpos, rdest, total_append, total_cons, total_nil]
      omega
    · rw [rdest, layout_append]
      intro move member
      rcases List.mem_append.mp member with inFinished | isNew
      · exact fits.shift above move inFinished
      · rw [List.mem_singleton.mp isNew]
        change s.imageEnd i ≤ dest + total s.unpacked finished
        omega
  unfold Cursors.stepRight
  simp only [mend]
  split_ifs with overlap
  · have endRounded : roundPage W (s.imageEnd i) = pageUp (s.imageEnd i) :=
      round_page_eq W (by omega)
    have delta : W.sub (pageUp (s.imageEnd i)) c.rpos = pageUp (s.imageEnd i) - c.rpos :=
      W.sub_of_le (by omega) (by omega)
    have endDvd : 2 ^ pageShift ∣ pageUp (s.imageEnd i) := dvd_round_up pageShift _
    have posDvd : 2 ^ pageShift ∣ c.rpos := by
      rw [position]
      exact Nat.dvd_add fits.aligned finishedDvd
    refine ⟨c.rdest + (pageUp (s.imageEnd i) - c.rpos), ?_, by omega,
      Nat.dvd_add fits.aligned (Nat.dvd_sub endDvd posDvd), ?_, by omega⟩
    · rw [endRounded, delta, W.add_of_lt (by omega)]
    · change W.add c.rpos _ = _
      rw [endRounded, delta, W.add_of_lt (by omega)]
      omega
  · have posDvd : 2 ^ pageShift ∣ c.rpos := by
      rw [position]
      exact Nat.dvd_add fits.aligned finishedDvd
    have endLe : pageUp (s.imageEnd i) ≤ c.rpos := round_up_le posDvd (by omega)
    exact ⟨c.rdest, rfl, le_rfl, fits.aligned, position, by omega⟩

theorem right_end_ge (s : Machine W) (cursor : Nat) (order : List Nat) :
    cursor ≤ s.rightEnd cursor order := by
  induction order generalizing cursor with
  | nil => exact le_rfl
  | cons i rest ih =>
      have next := ih (max cursor (pageUp (s.imageEnd i)) + s.unpacked i)
      rw [right_end_cons]
      omega

theorem right_end_total (s : Machine W) (cursor : Nat) (order : List Nat) :
    cursor + total s.unpacked order ≤ s.rightEnd cursor order := by
  induction order generalizing cursor with
  | nil => exact le_rfl
  | cons i rest ih =>
      have next := ih (max cursor (pageUp (s.imageEnd i)) + s.unpacked i)
      rw [right_end_cons, total_cons]
      omega

def Cursors.steps (W : Wordsize) (s : Machine W) (c : Cursors) (order : List Nat) : Cursors :=
  order.foldl (fun c i => c.step W (s.module i)) c

theorem right_fits_steps {s : Machine W} {c : Cursors} {finished order : List Nat}
    (fits : RightFits s c finished) (below : s.rightEnd c.rpos order < W.modulus) :
    RightFits s (c.steps W s order) (finished ++ order) ∧
      (c.steps W s order).rpos = s.rightEnd c.rpos order := by
  induction order generalizing c finished with
  | nil =>
      rw [List.append_nil]
      exact ⟨fits, rfl⟩
  | cons i rest ih =>
      rw [right_end_cons] at below ⊢
      have least := right_end_ge s (max c.rpos (pageUp (s.imageEnd i)) + s.unpacked i) rest
      obtain ⟨next, position⟩ := right_fits_step (i := i) fits (by omega)
      rw [← position] at below ⊢
      have whole := ih next below
      rw [List.append_assoc] at whole
      exact whole

/-! ## The left candidate -/

/-- The left candidate after the modules `finished`: given up, past the end of
the address space, or with all slots in front of their images. -/
structure LeftFits (s : Machine W) (c : Cursors) (finished : List Nat) : Prop where
  aligned : 2 ^ pageShift ∣ c.ldest
  word : c.ldest < W.modulus
  position : c.ldest ≠ 0 → c.lpos = (c.ldest + total s.unpacked finished) % W.modulus
  before : c.ldest ≠ 0 → W.modulus ≤ c.ldest + total s.unpacked finished ∨
    ∀ move ∈ layout s.unpacked c.ldest finished,
      move.2 + (s.module move.1).sizeUncompressed ≤ (s.module move.1).start

/-- What the shift of the left candidate achieves for one module. -/
theorem left_shift {cursor size start delta : Nat} (aligned : 2 ^ pageShift ∣ cursor)
    (overlap : start < (cursor + size) % W.modulus)
    (isDelta : delta = roundPage W ((cursor + size) % W.modulus - start)) :
    W.modulus + delta ≤ cursor + pageUp size ∨
      (cursor + size < W.modulus ∧ cursor + size ≤ start + delta) := by
  have modulusPos := W.modulus_pos
  have modulusDvd : 2 ^ pageShift ∣ W.modulus := W.pow_dvd_modulus (page_shift_le_bits W)
  have pages : pageUp (cursor + size) = cursor + pageUp size := round_up_add aligned
  have parts := Nat.mod_add_div (cursor + size) W.modulus
  have small : pageUp ((cursor + size) % W.modulus - start) ≤ pageUp ((cursor + size) % W.modulus) :=
    round_up_mono (by omega)
  rw [round_page_mod] at isDelta
  have deltaLe : delta ≤ pageUp ((cursor + size) % W.modulus - start) := by
    rw [isDelta]
    exact Nat.mod_le _ _
  rcases Nat.lt_or_ge (cursor + size) W.modulus with inside | past
  · rw [Nat.mod_eq_of_lt inside] at isDelta deltaLe small overlap
    have upTo : pageUp (cursor + size - start) ≤ W.modulus :=
      round_up_le modulusDvd (by omega)
    have reach : cursor + size - start ≤ pageUp (cursor + size - start) := le_round_up pageShift _
    rcases Nat.lt_or_eq_of_le upTo with below | top
    · rw [Nat.mod_eq_of_lt below] at isDelta
      right
      omega
    · rw [top, Nat.mod_self] at isDelta
      left
      omega
  · left
    have quotient : 1 ≤ (cursor + size) / W.modulus := (Nat.one_le_div_iff modulusPos).mpr past
    have multiple : W.modulus ≤ W.modulus * ((cursor + size) / W.modulus) :=
      Nat.le_mul_of_pos_right _ quotient
    have split : pageUp (cursor + size) =
        W.modulus * ((cursor + size) / W.modulus) + pageUp ((cursor + size) % W.modulus) := by
      have whole : pageUp (W.modulus * ((cursor + size) / W.modulus) + (cursor + size) % W.modulus) =
          _ := round_up_add (modulusDvd.mul_right _)
      rw [Nat.add_comm, parts] at whole
      exact whole
    omega

theorem left_fits_step {s : Machine W} {c : Cursors} {finished : List Nat} (i : Nat)
    (fits : LeftFits s c finished) : LeftFits s (c.step W (s.module i)) (finished ++ [i]) := by
  obtain ⟨aligned, word, position, before⟩ := fits
  have finishedDvd := total_unpacked_dvd s finished
  have whole : total s.unpacked (finished ++ [i]) = total s.unpacked finished + s.unpacked i := by
    rw [total_append, total_cons, total_nil, Nat.add_zero]
  have ldest : (c.step W (s.module i)).ldest = (c.stepLeft W (s.module i)).ldest :=
    c.step_right_left_ldest (s.module i)
  have lpos : (c.step W (s.module i)).lpos =
      ((c.stepLeft W (s.module i)).lpos + s.unpacked i) % W.modulus := by
    have rounded : roundPage W (s.module i).sizeUncompressed = s.unpacked i % W.modulus :=
      round_page_mod _
    simp only [Cursors.step, Cursors.step_right_left_lpos, rounded, Wordsize.add, Nat.add_mod_mod]
  -- a candidate `dest` that lies `delta` below the old one
  suffices moved : (c.stepLeft W (s.module i)).ldest = 0 ∨ ∃ delta, delta ≤ c.ldest ∧
      2 ^ pageShift ∣ delta ∧ (c.stepLeft W (s.module i)).ldest = c.ldest - delta ∧
      (c.stepLeft W (s.module i)).lpos = (c.ldest + total s.unpacked finished - delta) % W.modulus ∧
      (W.modulus + delta ≤ c.ldest + total s.unpacked finished + s.unpacked i ∨
        (c.ldest + total s.unpacked finished < W.modulus ∧ c.ldest + total s.unpacked finished +
          (s.module i).sizeUncompressed ≤ (s.module i).start + delta)) by
    rcases moved with given | ⟨delta, le, deltaDvd, isDest, isPos, good⟩
    · rw [given] at ldest
      refine ⟨by rw [ldest]; exact Nat.dvd_zero _, by rw [ldest]; exact W.modulus_pos, ?_, ?_⟩
      · exact fun used => absurd ldest used
      · exact fun used => absurd ldest used
    · rw [isDest] at ldest
      refine ⟨by rw [ldest]; exact Nat.dvd_sub aligned deltaDvd, by omega, ?_, ?_⟩
      · intro used
        have sum : c.ldest + total s.unpacked finished - delta + s.unpacked i =
            c.ldest - delta + (total s.unpacked finished + s.unpacked i) := by omega
        rw [lpos, isPos, Nat.mod_add_mod, ldest, whole, sum]
      · intro used
        rw [ldest, whole]
        rcases good with past | ⟨inside, front⟩
        · left
          omega
        · rcases before (by omega) with old | slots
          · left
            omega
          · right
            have shifted := layout_shift s.unpacked (c.ldest - delta) delta finished
            rw [Nat.sub_add_cancel le] at shifted
            rw [layout_append]
            intro move member
            rcases List.mem_append.mp member with inFinished | isNew
            · have old := slots (move.1, move.2 + delta) (by
                rw [shifted]
                exact List.mem_map_of_mem inFinished)
              change move.2 + delta + (s.module move.1).sizeUncompressed ≤
                (s.module move.1).start at old
              omega
            · rw [List.mem_singleton.mp isNew]
              change c.ldest - delta + total s.unpacked finished +
                (s.module i).sizeUncompressed ≤ (s.module i).start
              omega
  by_cases used : c.ldest = 0
  · left
    simp only [Cursors.stepLeft, used, ne_eq, not_true_eq_false, false_and, if_false]
  · have cursorDvd : 2 ^ pageShift ∣ c.ldest + total s.unpacked finished :=
      Nat.dvd_add aligned finishedDvd
    have sum : W.add c.lpos (s.module i).sizeUncompressed =
        (c.ldest + total s.unpacked finished + (s.module i).sizeUncompressed) % W.modulus := by
      rw [position used, Wordsize.add, Nat.mod_add_mod]
    simp only [Cursors.stepLeft, sum]
    split_ifs with overlap lower
    · right
      have overlapping := overlap.2
      rw [W.sub_of_le overlapping.le (Nat.mod_lt _ W.modulus_pos)] at lower ⊢
      have shift := left_shift cursorDvd overlapping rfl
      refine ⟨_, lower.le, W.dvd_round_size _ _, W.sub_of_le lower.le word, ?_, ?_⟩
      · change W.sub c.lpos _ = _
        rw [position used, W.sub_mod (by omega) (by omega)]
      · rcases shift with past | inside
        · exact .inl past
        · right
          omega
    · left
      rfl
    · right
      have clear : (c.ldest + total s.unpacked finished + (s.module i).sizeUncompressed) % W.modulus ≤
          (s.module i).start := by
        by_contra overlapping
        exact overlap ⟨used, Nat.lt_of_not_le overlapping⟩
      have pages : (s.module i).sizeUncompressed ≤ s.unpacked i := le_round_up pageShift _
      refine ⟨0, Nat.zero_le _, Nat.dvd_zero _, rfl, position used, ?_⟩
      rcases Nat.lt_or_ge (c.ldest + total s.unpacked finished + (s.module i).sizeUncompressed)
        W.modulus with inside | past
      · rw [Nat.mod_eq_of_lt inside] at clear
        right
        omega
      · left
        omega

theorem left_fits_steps {s : Machine W} {c : Cursors} {finished : List Nat} (order : List Nat)
    (fits : LeftFits s c finished) : LeftFits s (c.steps W s order) (finished ++ order) := by
  induction order generalizing c finished with
  | nil =>
      rw [List.append_nil]
      exact fits
  | cons i rest ih =>
      have next := ih (left_fits_step i fits)
      rw [List.append_assoc] at next
      exact next

/-! ## Dropping the regions of the modules -/

/-- Module entries with some indexes may be missing; the rest of the list is unchanged. -/
structure Dropped (indexes : List Int) (before after : RegionList W) : Prop where
  fewer : after.reg.Sublist before.reg
  rest : after = { before with reg := after.reg }
  keeps : ∀ r ∈ before.reg, (∀ i ∈ indexes, isRegionOf i r = false) → r ∈ after.reg

theorem Dropped.refl (indexes : List Int) (l : RegionList W) : Dropped indexes l l :=
  ⟨.refl _, rfl, fun _ member _ => member⟩

theorem Dropped.trans {indexes : List Int} {one two three : RegionList W}
    (first : Dropped indexes one two) (second : Dropped indexes two three) :
    Dropped indexes one three := by
  refine ⟨second.fewer.trans first.fewer, ?_, ?_⟩
  · rw [second.rest, first.rest]
  · intro r member other
    exact second.keeps r (first.keeps r member other) other

theorem remove_if_dropped {indexes : List Int} {i : Int} (member : i ∈ indexes)
    (l : RegionList W) : Dropped indexes l (l.removeIf (isRegionOf i)) := by
  refine ⟨List.filter_sublist, rfl, ?_⟩
  intro r inList other
  exact List.mem_filter.mpr ⟨inList, by rw [other i member]; rfl⟩

theorem overlap_modules_ok {copyIndex : Nat → Int} {s t : Machine W} {order : List Nat}
    {c d : Cursors} (ran : overlapModules copyIndex order c s = .ok d t) :
    d = c.steps W s (order.filter fun i => !(s.module i).isBaseModule) ∧
      ∃ regions, t = s.withRegions regions ∧
        Dropped ((order.filter fun i => !(s.module i).isBaseModule).map copyIndex)
          s.memory.regions regions := by
  suffices general : ∀ indexes : List Int,
      (∀ i ∈ order, (s.module i).isBaseModule = false → copyIndex i ∈ indexes) →
      d = c.steps W s (order.filter fun i => !(s.module i).isBaseModule) ∧
        ∃ regions, t = s.withRegions regions ∧ Dropped indexes s.memory.regions regions by
    apply general
    intro i member notBase
    exact List.mem_map_of_mem (List.mem_filter.mpr ⟨member, by rw [notBase]; rfl⟩)
  intro indexes all
  induction order generalizing s c with
  | nil =>
      rw [overlapModules, pure_ok_iff] at ran
      exact ⟨ran.1, s.memory.regions, ran.2, .refl _ _⟩
  | cons i rest ih =>
      simp only [overlapModules, get_bind] at ran
      cases isBase : (s.module i).isBaseModule with
      | true =>
          rw [if_pos isBase] at ran
          rw [List.filter_cons_of_neg (by simp [isBase])]
          exact ih ran fun j member => all j (by simp [member])
      | false =>
          rw [if_neg (by simp [isBase]), CheckedState.bind_ok_iff] at ran
          obtain ⟨_, u, removed, ran⟩ := ran
          obtain ⟨regions, same, rfl⟩ := update_regions_ok removed
          cases same
          obtain ⟨isResult, regions, isState, dropped⟩ := ih ran fun j member =>
            all j (by simp [member])
          rw [List.filter_cons_of_pos (by simp [isBase])]
          exact ⟨isResult, regions, isState,
            (remove_if_dropped (all i (by simp) isBase) _).trans dropped⟩

/-! ## The choice -/

/-- Where the decompressed modules go, and in which order. -/
structure Destination (copyIndex : Nat → Int) (s : Machine W) (dest : Nat) (fwd : Bool)
    (regions : RegionList W) : Prop where
  aligned : 2 ^ pageShift ∣ dest
  ram : ∃ rr ∈ s.memory.ram.reg, rr.begin ≤ dest ∧ dest + total s.unpacked s.payload - 1 ≤ rr.last
  free : FreeIn regions.reg (total s.unpacked s.payload) dest
  dropped : Dropped (s.payload.map copyIndex) s.memory.regions regions
  /-- Forwards, a slot ends before its image unless the image lies outside of
  the whole area. -/
  forwards : fwd = true → ∀ move ∈ layout s.unpacked dest s.payload,
    (∀ p, s.Image move.1 p → p < dest ∨ dest + total s.unpacked s.payload ≤ p) ∨
      move.2 + (s.module move.1).sizeUncompressed ≤ (s.module move.1).start
  backwards : fwd = false → ∀ move ∈ layout s.unpacked dest s.payload, s.imageEnd move.1 ≤ move.2

theorem blocked_eq_false {m : Memory W} {dest : Region W} (clear : m.blocked dest = false) :
    (∃ rr ∈ m.ram.reg, rr.begin ≤ dest.begin ∧ dest.last ≤ rr.last) ∧
      ∀ z ∈ m.regions.reg, z.last < dest.begin ∨ dest.last < z.begin := by
  simp only [Memory.blocked, Bool.or_eq_false_iff] at clear
  obtain ⟨contained, unused⟩ := clear
  constructor
  · rw [Option.isNone_eq_false_iff, Option.isSome_iff_exists] at contained
    obtain ⟨rr, found⟩ := contained
    have contains := List.find?_some found
    exact ⟨rr, List.mem_of_find?_eq_some found, Region.contains_iff.mp contains⟩
  · intro z member
    rw [Option.isSome_eq_false_iff, Option.isNone_iff_eq_none] at unused
    have apart := List.find?_eq_none.mp unused z member
    rw [Bool.not_eq_true, Region.overlaps_eq_false_iff] at apart
    exact apart

theorem find_free_ram_ok {s t : Machine W} {size minAddr dest : Nat}
    (ran : findFreeRam size minAddr s = .ok dest t) :
    s.memory.findFreeRam size minAddr W.maxWord pageShift Memory.anyNode = .ok dest ∧ t = s := by
  rw [findFreeRam, get_bind, lift_ok_iff] at ran
  exact ran

/-- No entry of RAM or of the region list lies in the last page of the address
space, and the platform's check of a search area only narrows it. -/
structure Memory.Bounded (m : Memory W) : Prop where
  ram : BelowTop pageShift m.ram.reg
  regions : BelowTop pageShift m.regions.reg
  narrows : m.Narrows

theorem round_page_of_dvd {size : Nat} (pages : 2 ^ pageShift ∣ size) (word : size < W.modulus) :
    W.roundSize pageShift size = size := by
  rw [W.round_size_mod (page_shift_le_bits W), round_up_of_dvd pages, Nat.mod_eq_of_lt word]

/-- A free area of RAM for all modules. -/
theorem found_area {m : Memory W} {size minAddr dest : Nat} (bounded : m.Bounded)
    (pages : 2 ^ pageShift ∣ size) (word : size < W.modulus)
    (found : m.findFreeRam size minAddr W.maxWord pageShift Memory.anyNode = .ok dest)
    (used : dest ≠ 0) :
    0 < size ∧ minAddr ≤ dest ∧ 2 ^ pageShift ∣ dest ∧ FreeIn m.regions.reg size dest ∧
      ∃ rr ∈ m.ram.reg, rr.begin ≤ dest ∧ dest + size - 1 ≤ rr.last := by
  have placed := Memory.find_free_ram_placed found used
  have inside := Memory.find_free_ram_inside bounded.narrows bounded.ram bounded.regions found used
  rw [round_page_of_dvd pages word] at placed inside
  exact ⟨placed.pos, inside.1, placed.aligned, placed.free, inside.2⟩

section

variable {copyIndex : Nat → Int} {s t : Machine W} {regions : RegionList W}
  {dest totalSize : Nat} {fwd : Bool}

/-- The three places that the search on the images can come up with. -/
theorem choose_overlap_cases {c : Cursors}
    (ran : chooseOverlap totalSize c s = .ok (dest, fwd) t) :
    t = s ∧
      ((fwd = true ∧ dest = c.ldest ∧ ∃ area : Region W,
          Region.startSize c.ldest totalSize {} = .ok area ∧ s.memory.blocked area = false) ∨
        (fwd = false ∧ dest = c.rdest ∧ ∃ area : Region W,
          Region.startSize c.rdest totalSize {} = .ok area ∧ s.memory.blocked area = false) ∨
        (fwd = false ∧ s.memory.findFreeRam totalSize c.rdest W.maxWord pageShift
          Memory.anyNode = .ok dest)) ∧
      0 < totalSize := by
  simp only [chooseOverlap, get_bind, CheckedState.bind_ok_iff, lift_ok_iff] at ran
  obtain ⟨leftArea, _, ⟨madeLeft, rfl⟩, ran⟩ := ran
  have pos := (Region.start_size_ok.mp madeLeft).1
  split_ifs at ran with leftBlocked
  · simp only [CheckedState.bind_ok_iff, lift_ok_iff] at ran
    obtain ⟨rightArea, _, ⟨madeRight, rfl⟩, ran⟩ := ran
    split_ifs at ran with rightBlocked
    · rw [CheckedState.bind_ok_iff] at ran
      obtain ⟨freeRam, between, searched, ran⟩ := ran
      obtain ⟨found, same⟩ := find_free_ram_ok searched
      rw [pure_ok_iff, same] at ran
      obtain ⟨isDest, rfl⟩ := ran
      cases isDest
      exact ⟨rfl, .inr (.inr ⟨rfl, found⟩), pos⟩
    · rw [pure_ok_iff] at ran
      obtain ⟨isDest, rfl⟩ := ran
      cases isDest
      exact ⟨rfl, .inr (.inl ⟨rfl, rfl, rightArea, madeRight, Bool.not_eq_true _ ▸ rightBlocked⟩),
        pos⟩
  · rw [pure_ok_iff] at ran
    obtain ⟨isDest, rfl⟩ := ran
    cases isDest
    simp only [Bool.or_eq_true, decide_eq_true_eq, not_or, Bool.not_eq_true] at leftBlocked
    exact ⟨rfl, .inl ⟨rfl, rfl, leftArea, madeLeft, leftBlocked.2⟩, pos⟩

theorem choose_overlap_destination {c : Cursors} (bounded : (s.withRegions regions).memory.Bounded)
    (isTotal : totalSize = total s.unpacked s.payload) (word : totalSize < W.modulus)
    (dropped : Dropped (s.payload.map copyIndex) s.memory.regions regions)
    (right : RightFits s c s.payload) (left : LeftFits s c s.payload)
    (ran : chooseOverlap totalSize c (s.withRegions regions) = .ok (dest, fwd) t)
    (used : dest ≠ 0) :
    t = s.withRegions regions ∧ Destination copyIndex s dest fwd regions := by
  have pages : 2 ^ pageShift ∣ totalSize := by
    rw [isTotal]
    exact total_unpacked_dvd s s.payload
  obtain ⟨isState, places, pos⟩ := choose_overlap_cases ran
  refine ⟨isState, ?_⟩
  rcases places with ⟨rfl, rfl, area, made, unblocked⟩ | ⟨rfl, rfl, area, made, unblocked⟩ |
    ⟨rfl, found⟩
  · obtain ⟨_, begins, ends, _⟩ := Region.start_size_last made word
    have clear := blocked_eq_false unblocked
    rw [begins, ends, isTotal] at clear
    refine ⟨left.aligned, clear.1, clear.2, dropped, ?_, nofun⟩
    intro _ move member
    right
    rcases left.before used with past | slots
    · obtain ⟨rr, inRam, _, reach⟩ := clear.1
      have top := bounded.ram rr inRam
      have pagePos := Nat.two_pow_pos pageShift
      omega
    · exact slots move member
  · obtain ⟨_, begins, ends, _⟩ := Region.start_size_last made word
    have clear := blocked_eq_false unblocked
    rw [begins, ends, isTotal] at clear
    exact ⟨right.aligned, clear.1, clear.2, dropped, nofun, fun _ => right.behind⟩
  · obtain ⟨_, above, aligned, free, ram⟩ := found_area bounded pages word found used
    rw [isTotal] at free ram
    exact ⟨aligned, ram, free, dropped, nofun, fun _ => right.shift above⟩

/-- The candidates before the loop: around the image of the first module. -/
def Machine.firstCursors (s : Machine W) : Cursors :=
  let m0 := s.module (s.sorter.getD 0 0)
  let rdest := roundPage W (W.add m0.start m0.size)
  let ldest := truncPage (W.sub m0.start m0.sizeUncompressed)
  ⟨rdest, ldest, rdest, ldest⟩

theorem first_cursors (sorted : s.sorter = s.payload) (fits : s.rightEnd 0 s.payload < W.modulus)
    (pos : 0 < total s.unpacked s.payload) :
    RightFits s s.firstCursors [] ∧ LeftFits s s.firstCursors [] ∧
      s.rightEnd s.firstCursors.rpos s.payload = s.rightEnd 0 s.payload := by
  have ldestWord : s.firstCursors.ldest < W.modulus := (trunc_size_le _ _).trans_lt (W.sub_lt _ _)
  refine ⟨⟨W.dvd_round_size _ _, rfl, by simp [layout]⟩,
    ⟨dvd_trunc_size _ _, ldestWord, fun _ => (Nat.mod_eq_of_lt ldestWord).symm,
      fun _ => .inr (by simp [layout])⟩, ?_⟩
  cases entries : s.payload with
  | nil =>
      rw [entries, total_nil] at pos
      omega
  | cons first rest =>
      rw [entries, right_end_cons] at fits
      have least := right_end_ge s (max 0 (pageUp (s.imageEnd first)) + s.unpacked first) rest
      have endUp : s.imageEnd first ≤ pageUp (s.imageEnd first) := le_round_up pageShift _
      have isRdest : s.firstCursors.rpos = pageUp (s.imageEnd first) := by
        have isFirst : s.module (s.sorter.getD 0 0) = s.module first := by
          rw [sorted, entries]
          rfl
        change roundPage W (W.add (s.module (s.sorter.getD 0 0)).start _) = _
        rw [isFirst, W.add_of_lt (by change s.imageEnd first < _; omega)]
        exact round_page_eq W (by change pageUp (s.imageEnd first) < _; omega)
      rw [right_end_cons, right_end_cons, isRdest, max_self, Nat.zero_max]

/-- Free memory below or behind the images, or a place on the images. -/
theorem choose_destination_cases {modAddr : Nat}
    (ran : chooseDestination copyIndex totalSize modAddr s = .ok (dest, fwd) t) :
    (fwd = true ∧ t = s ∧ s.memory.findFreeRam totalSize modAddr W.maxWord pageShift
        Memory.anyNode = .ok dest) ∨
      ∃ regions, Dropped (s.payload.map copyIndex) s.memory.regions regions ∧
        chooseOverlap totalSize (s.firstCursors.steps W s s.payload) (s.withRegions regions) =
          .ok (dest, fwd) t := by
  simp only [chooseDestination, get_bind, CheckedState.bind_ok_iff] at ran
  obtain ⟨freeRam, between, searched, ran⟩ := ran
  obtain ⟨found, same⟩ := find_free_ram_ok searched
  rw [same] at ran
  split_ifs at ran with overlap
  · right
    rw [CheckedState.bind_ok_iff] at ran
    obtain ⟨c, u, moved, ran⟩ := ran
    obtain ⟨isCursors, regions, rfl, dropped⟩ := overlap_modules_ok moved
    rw [isCursors] at ran
    exact ⟨regions, dropped, ran⟩
  · left
    rw [pure_ok_iff] at ran
    obtain ⟨isDest, rfl⟩ := ran
    cases isDest
    exact ⟨rfl, rfl, found⟩

theorem choose_destination_ok {modAddr : Nat} (bounded : s.memory.Bounded)
    (sorted : s.sorter = s.payload) (fits : s.rightEnd 0 s.payload < W.modulus)
    (covered : ∀ i ∈ s.payload, ∀ p, s.Image i p →
      CoveredBy s.memory.regions.reg (fun _ => True) p)
    (ran : chooseDestination copyIndex (total s.unpacked s.payload) modAddr s = .ok (dest, fwd) t)
    (used : dest ≠ 0) :
    ∃ regions, t = s.withRegions regions ∧ Destination copyIndex s dest fwd regions := by
  have pages := total_unpacked_dvd s s.payload
  have word : total s.unpacked s.payload < W.modulus := by
    have := right_end_total s 0 s.payload
    omega
  rcases choose_destination_cases ran with ⟨rfl, rfl, found⟩ | ⟨regions, dropped, overlap⟩
  · obtain ⟨_, _, aligned, free, ram⟩ := found_area bounded pages word found used
    refine ⟨t.memory.regions, rfl, aligned, ram, free, .refl _ _, ?_, nofun⟩
    intro _ move member
    left
    have inPayload : move.1 ∈ t.payload := by
      rw [← layout_indexes t.unpacked dest t.payload]
      exact List.mem_map_of_mem member
    exact fun p inImage => (covered move.1 inPayload p inImage).outside free
  · obtain ⟨_, _, pos⟩ := choose_overlap_cases overlap
    obtain ⟨right, left, ends⟩ := first_cursors sorted fits pos
    obtain ⟨rightFits, _⟩ := right_fits_steps right (by rw [ends]; exact fits)
    have leftFits := left_fits_steps s.payload left
    rw [List.nil_append] at rightFits leftFits
    have kept : (s.withRegions regions).memory.Bounded :=
      ⟨bounded.ram, fun r member => bounded.regions r (dropped.fewer.subset member), bounded.narrows⟩
    obtain ⟨isState, destination⟩ := choose_overlap_destination kept rfl word dropped rightFits
      leftFits overlap used
    exact ⟨regions, isState, destination⟩

end

/-! ## The place for any table -/

/-- The cursors are page addresses. -/
structure Cursors.Aligned (c : Cursors) : Prop where
  rdest : 2 ^ pageShift ∣ c.rdest
  ldest : 2 ^ pageShift ∣ c.ldest
  rpos : 2 ^ pageShift ∣ c.rpos
  lpos : 2 ^ pageShift ∣ c.lpos

namespace Cursors.Aligned

variable {c : Cursors}

theorem stepRight (aligned : c.Aligned) (mod : ModInfo) : (c.stepRight W mod).Aligned := by
  have page := page_shift_le_bits W
  unfold Cursors.stepRight
  dsimp only
  split_ifs
  · have delta := W.dvd_sub page (W.dvd_round_size pageShift (W.add mod.start mod.size)) aligned.rpos
    exact ⟨W.dvd_add page aligned.rdest delta, aligned.ldest, W.dvd_add page aligned.rpos delta,
      aligned.lpos⟩
  · exact aligned

theorem stepLeft (aligned : c.Aligned) (mod : ModInfo) : (c.stepLeft W mod).Aligned := by
  have page := page_shift_le_bits W
  unfold Cursors.stepLeft
  dsimp only
  split_ifs
  · have delta := W.dvd_round_size pageShift
      (W.sub (W.add c.lpos mod.sizeUncompressed) mod.start)
    exact ⟨aligned.rdest, W.dvd_sub page aligned.ldest delta, aligned.rpos,
      W.dvd_sub page aligned.lpos delta⟩
  · exact ⟨aligned.rdest, Nat.dvd_zero _, aligned.rpos, aligned.lpos⟩
  · exact aligned

theorem step (aligned : c.Aligned) (mod : ModInfo) : (c.step W mod).Aligned := by
  have page := page_shift_le_bits W
  have moved := (aligned.stepRight (W := W) mod).stepLeft (W := W) mod
  have slot := W.dvd_round_size pageShift mod.sizeUncompressed
  exact ⟨moved.rdest, moved.ldest, W.dvd_add page moved.rpos slot, W.dvd_add page moved.lpos slot⟩

theorem steps (aligned : c.Aligned) (s : Machine W) (order : List Nat) :
    (c.steps W s order).Aligned := by
  induction order generalizing c with
  | nil => exact aligned
  | cons i rest ih => exact ih (aligned.step (s.module i))

end Cursors.Aligned

/-- A free place of pages for all modules, wherever their images are. -/
structure FreePlace (copyIndex : Nat → Int) (s : Machine W) (size dest : Nat)
    (regions : RegionList W) : Prop where
  pos : 0 < size
  aligned : 2 ^ pageShift ∣ dest
  fits : dest + size ≤ W.modulus
  free : FreeIn regions.reg size dest
  dropped : Dropped (s.payload.map copyIndex) s.memory.regions regions

section

variable {copyIndex : Nat → Int} {s t : Machine W} {regions : RegionList W}
  {dest size : Nat} {fwd : Bool}

theorem find_free_ram_free {minAddr : Nat} (pages : 2 ^ pageShift ∣ size) (word : size < W.modulus)
    (dropped : Dropped (s.payload.map copyIndex) s.memory.regions regions)
    (found : (s.withRegions regions).memory.findFreeRam size minAddr W.maxWord pageShift
      Memory.anyNode = .ok dest) (used : dest ≠ 0) : FreePlace copyIndex s size dest regions := by
  have placed := Memory.find_free_ram_placed found used
  rw [round_page_of_dvd pages word] at placed
  exact ⟨placed.pos, placed.aligned, placed.fits, placed.free, dropped⟩

/-- A candidate that is not blocked. -/
theorem unblocked_free {area : Region W} {attr : Attr} (word : size < W.modulus)
    (aligned : 2 ^ pageShift ∣ dest)
    (dropped : Dropped (s.payload.map copyIndex) s.memory.regions regions)
    (made : Region.startSize dest size attr = .ok area)
    (unblocked : (s.withRegions regions).memory.blocked area = false) :
    FreePlace copyIndex s size dest regions := by
  have pos := (Region.start_size_ok.mp made).1
  obtain ⟨fits, begins, ends, _⟩ := Region.start_size_last made word
  have clear := (blocked_eq_false unblocked).2
  rw [begins, ends] at clear
  exact ⟨pos, aligned, fits, clear, dropped⟩

theorem choose_destination_free {modAddr : Nat} (pages : 2 ^ pageShift ∣ size)
    (word : size < W.modulus) (ran : chooseDestination copyIndex size modAddr s = .ok (dest, fwd) t)
    (used : dest ≠ 0) :
    ∃ regions, t = s.withRegions regions ∧ FreePlace copyIndex s size dest regions := by
  rcases choose_destination_cases ran with ⟨_, rfl, found⟩ | ⟨regions, dropped, overlap⟩
  · exact ⟨_, rfl, find_free_ram_free pages word (.refl _ _) found used⟩
  · have first : s.firstCursors.Aligned :=
      ⟨W.dvd_round_size _ _, dvd_trunc_size _ _, W.dvd_round_size _ _, dvd_trunc_size _ _⟩
    have aligned := first.steps s s.payload
    obtain ⟨isState, places, _⟩ := choose_overlap_cases overlap
    refine ⟨regions, isState, ?_⟩
    rcases places with ⟨_, rfl, area, made, unblocked⟩ | ⟨_, rfl, area, made, unblocked⟩ |
      ⟨_, found⟩
    · exact unblocked_free word aligned.ldest dropped made unblocked
    · exact unblocked_free word aligned.rdest dropped made unblocked
    · exact find_free_ram_free pages word dropped found used

end

end L4Bootstrap
