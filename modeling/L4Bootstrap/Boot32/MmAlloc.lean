import L4Bootstrap.Boot32.Reservations
import Mathlib.Logic.Function.Iterate

/-!
# The allocator of boot32

`mm_alloc.c` hands out memory from the ranges of the multiboot memory map, range
after range, and steps over reservations. Entries of the map are known by their
addresses; 0 is the null pointer. The state is extended by the list of the
addresses at which an entry was looked at.
-/

namespace L4Bootstrap

namespace Boot32

open MachineWord CheckedLoop

set_option autoImplicit false

/-- The fields of `l4util_mb_addr_range_t`; `memory` says that its type is
`MB_ART_MEMORY`. -/
structure AddrRange where
  addr : Nat
  size : Nat
  memory : Bool
  deriving DecidableEq, Repr

/-- The memory map of a multiboot info, whatever lies at an address read as an
entry, and `l4util_mb_first_mmap_entry` and `l4util_mb_next_mmap_entry`. -/
structure Mbi where
  mmapAddr : Nat
  mmapLength : Nat
  entryAt : Nat → AddrRange
  first : Nat
  next : Nat → Nat

/-- `mm_alloc_state` without the pointer to the multiboot info. -/
structure AllocState where
  range : Nat
  used : Nat
  inspected : List Nat
  deriving DecidableEq, Repr

def mmAllocInit (st : AllocState) : AllocState := { st with range := 0 }

section

variable (mbi : Mbi)

def rangeInMap (range : Nat) : Bool :=
  mbi.mmapAddr ≤ range && range < add32 mbi.mmapAddr mbi.mmapLength

/-- `range_in_4G_for_size`, in 64-bit arithmetic. -/
def rangeIn4GForSize (st : AllocState) (size : Nat) : Bool :=
  let range := mbi.entryAt st.range
  size ≤ Wordsize.w64.sub range.size st.used &&
    Wordsize.w64.add (Wordsize.w64.add range.addr st.used) size ≤ 2 ^ 32

/-- One round of the loop of `next_ram_range`. All other code reads only entries
that were looked at here. -/
def nextRamRangeRound (size : Nat) (st : AllocState) : Checked (Round AllocState AllocState) :=
  if st.range = 0 then .ok (.leave st)
  else
    let st := { st with inspected := st.range :: st.inspected }
    if (mbi.entryAt st.range).memory && rangeIn4GForSize mbi st size then .ok (.leave st)
    else if rangeInMap mbi (mbi.next st.range) then
      .ok (.again { st with range := mbi.next st.range })
    else .ok (.again { st with range := 0 })

def nextRamRange (size : Nat) (st : AllocState) : Checked AllocState :=
  let range := if st.range = 0 then mbi.first else mbi.next st.range
  loop (nextRamRangeRound mbi size) .diverges (mbi.mmapLength + 2)
    { st with range := range, used := 0 }

/-- One round of the loop of `mm_alloc_alloc`. -/
def mmAllocRound (reservations : Reservations) (size : Nat) (st : AllocState) :
    Checked (Round AllocState (Nat × AllocState)) :=
  if st.range = 0 then .ok (.leave (0, st))
  else
    let range := mbi.entryAt st.range
    let result := add32 (range.addr % 2 ^ 32) st.used
    let overlap := overlapsReservation result size reservations
    if overlap = 0 then .ok (.leave (result, { st with used := add32 st.used size }))
    else
      let st := { st with used := Wordsize.w64.sub overlap range.addr % 2 ^ 32 }
      if range.size ≤ st.used || !rangeIn4GForSize mbi st size then do
        let st ← nextRamRange mbi size st
        .ok (.again st)
      else .ok (.again st)

/-- The first statement of `mm_alloc_alloc`. -/
def enoughInRange (size : Nat) (st : AllocState) : Checked AllocState :=
  if st.range = 0 || !rangeIn4GForSize mbi st size then nextRamRange mbi size st else .ok st

def mmAllocAlloc (reservations : Reservations) (size : Nat) (st : AllocState) :
    Checked (Nat × AllocState) := do
  let st ← enoughInRange mbi size st
  loop (mmAllocRound mbi reservations size) .diverges
    ((mbi.mmapLength + 1) * (reservations.length + 2)) st

end

/-! ## Memory maps -/

/-- `a` is the address of an entry: it is reached from the first one without
leaving the map. -/
def IsEntry (mbi : Mbi) (a : Nat) : Prop :=
  ∃ k, a = mbi.next^[k] mbi.first ∧ ∀ j ≤ k, rangeInMap mbi (mbi.next^[j] mbi.first) = true

/-- The two accessors step through the map by entry sizes. -/
structure StepsThroughMap (mbi : Mbi) : Prop where
  addrPos : 0 < mbi.mmapAddr
  bounded : mbi.mmapAddr + mbi.mmapLength < 2 ^ 32
  first : mbi.first = mbi.mmapAddr
  forward : ∀ a, rangeInMap mbi a = true → a < mbi.next a

/-- RAM ranges end below the end of the 64-bit address space and do not share
memory. -/
structure RamOk (mbi : Mbi) : Prop where
  bounded : ∀ a, IsEntry mbi a → (mbi.entryAt a).memory = true →
    (mbi.entryAt a).addr + (mbi.entryAt a).size < 2 ^ 64
  apart : ∀ a b, IsEntry mbi a → IsEntry mbi b → a ≠ b →
    (mbi.entryAt a).memory = true → (mbi.entryAt b).memory = true →
    (mbi.entryAt a).addr + (mbi.entryAt a).size ≤ (mbi.entryAt b).addr ∨
      (mbi.entryAt b).addr + (mbi.entryAt b).size ≤ (mbi.entryAt a).addr

/-- The part of `RamOk` that the search for a block rests on. -/
def RamBounded (mbi : Mbi) : Prop :=
  ∀ a, IsEntry mbi a → (mbi.entryAt a).memory = true →
    (mbi.entryAt a).addr + (mbi.entryAt a).size < 2 ^ 64

section

variable {mbi : Mbi}

theorem IsEntry.inMap {a : Nat} (entry : IsEntry mbi a) : rangeInMap mbi a = true := by
  obtain ⟨k, rfl, inside⟩ := entry
  exact inside k le_rfl

theorem IsEntry.step {a : Nat} (entry : IsEntry mbi a)
    (inside : rangeInMap mbi (mbi.next a) = true) : IsEntry mbi (mbi.next a) := by
  obtain ⟨k, rfl, chain⟩ := entry
  refine ⟨k + 1, (Function.iterate_succ_apply' _ _ _).symm, ?_⟩
  intro j le
  rcases Nat.lt_or_eq_of_le le with less | rfl
  · exact chain j (by omega)
  · rw [Function.iterate_succ_apply']
    exact inside

/-- How far an entry is away from the end of the map. -/
def distance (mbi : Mbi) (range : Nat) : Nat :=
  if range = 0 then 0 else mbi.mmapAddr + mbi.mmapLength - range

variable (steps : StepsThroughMap mbi)

include steps

theorem range_in_map_iff {a : Nat} :
    rangeInMap mbi a = true ↔ mbi.mmapAddr ≤ a ∧ a < mbi.mmapAddr + mbi.mmapLength := by
  rw [rangeInMap, add32_of_lt steps.bounded]
  simp

theorem entry_mono {k : Nat} (inside : ∀ j ≤ k, rangeInMap mbi (mbi.next^[j] mbi.first) = true)
    {i j : Nat} (order : i ≤ j) (within : j ≤ k + 1) :
    mbi.next^[i] mbi.first ≤ mbi.next^[j] mbi.first := by
  induction j, order using Nat.le_induction with
  | base => exact le_rfl
  | succ j _ ih =>
      rw [Function.iterate_succ_apply']
      exact (ih (by omega)).trans (steps.forward _ (inside j (by omega))).le

theorem IsEntry.pos {a : Nat} (entry : IsEntry mbi a) : 0 < a := by
  have := (range_in_map_iff steps).mp entry.inMap
  have := steps.addrPos
  omega

theorem IsEntry.forward {a : Nat} (entry : IsEntry mbi a) : a < mbi.next a :=
  steps.forward a entry.inMap

/-- No entry lies between an entry and the next one. -/
theorem IsEntry.next_le {a b : Nat} (entry : IsEntry mbi a) (other : IsEntry mbi b)
    (less : a < b) : mbi.next a ≤ b ∧ IsEntry mbi (mbi.next a) := by
  obtain ⟨k, rfl, inside⟩ := entry
  obtain ⟨j, rfl, otherInside⟩ := other
  have later : k + 1 ≤ j := by
    by_contra notLater
    have := entry_mono steps inside (i := j) (j := k) (by omega) (by omega)
    omega
  have shape : mbi.next (mbi.next^[k] mbi.first) = mbi.next^[k + 1] mbi.first :=
    (Function.iterate_succ_apply' _ _ _).symm
  rw [shape]
  refine ⟨entry_mono steps otherInside later (by omega), k + 1, rfl, ?_⟩
  intro i le
  exact otherInside i (by omega)

theorem IsEntry.first_le {a : Nat} (entry : IsEntry mbi a) :
    mbi.first ≤ a ∧ IsEntry mbi mbi.first := by
  obtain ⟨k, rfl, inside⟩ := entry
  refine ⟨entry_mono steps inside (Nat.zero_le k) (by omega), 0, rfl, ?_⟩
  intro j le
  exact inside j (by omega)

theorem distance_of_entry {a : Nat} (entry : IsEntry mbi a) :
    distance mbi a + a = mbi.mmapAddr + mbi.mmapLength ∧ 0 < distance mbi a ∧
      distance mbi a ≤ mbi.mmapLength := by
  have pos := entry.pos steps
  have inside := (range_in_map_iff steps).mp entry.inMap
  rw [distance, if_neg (by omega)]
  omega

theorem first_entry (nonempty : 0 < mbi.mmapLength) : IsEntry mbi mbi.first := by
  refine ⟨0, rfl, ?_⟩
  intro j le
  obtain rfl : j = 0 := by omega
  rw [Function.iterate_zero, id_eq, range_in_map_iff steps, steps.first]
  omega

end

/-! ## Looking for a range -/

/-- An entry that can take the request if nothing in it is reserved or used. -/
def Suitable (mbi : Mbi) (size a : Nat) : Prop :=
  (mbi.entryAt a).memory = true ∧ size ≤ (mbi.entryAt a).size ∧
    (mbi.entryAt a).addr + size ≤ 2 ^ 32

section

variable {mbi : Mbi} {size : Nat}

theorem range_in_4g_iff {st : AllocState}
    (bounded : (mbi.entryAt st.range).addr + (mbi.entryAt st.range).size < 2 ^ 64)
    (inside : st.used ≤ (mbi.entryAt st.range).size) :
    rangeIn4GForSize mbi st size = true ↔
      st.used + size ≤ (mbi.entryAt st.range).size ∧
        (mbi.entryAt st.range).addr + st.used + size ≤ 2 ^ 32 := by
  have modulus : Wordsize.w64.modulus = 2 ^ 64 := rfl
  have position : Wordsize.w64.add (mbi.entryAt st.range).addr st.used =
      (mbi.entryAt st.range).addr + st.used := Wordsize.w64.add_of_lt (by omega)
  have rest : Wordsize.w64.sub (mbi.entryAt st.range).size st.used =
      (mbi.entryAt st.range).size - st.used := Wordsize.w64.sub_of_le inside (by omega)
  simp only [rangeIn4GForSize, position, rest, Bool.and_eq_true, decide_eq_true_eq]
  constructor
  · rintro ⟨room, below⟩
    rw [Wordsize.w64.add_of_lt (by omega)] at below
    exact ⟨by omega, below⟩
  · rintro ⟨room, below⟩
    rw [Wordsize.w64.add_of_lt (by omega)]
    exact ⟨by omega, below⟩

theorem suitable_iff {st : AllocState} (ram : RamBounded mbi) (entry : IsEntry mbi st.range)
    (unused : st.used = 0) :
    ((mbi.entryAt st.range).memory && rangeIn4GForSize mbi st size) = true ↔
      Suitable mbi size st.range := by
  rw [Bool.and_eq_true, Suitable]
  apply and_congr_right
  intro memory
  rw [range_in_4g_iff (ram _ entry memory) (by omega), unused, Nat.zero_add, Nat.add_zero]

/-- The outcome of a search through the entries from `a` on. -/
structure RangeFrom (mbi : Mbi) (size a : Nat) (st : AllocState) : Prop where
  unused : st.used = 0
  inspected : ∀ b ∈ st.inspected, rangeInMap mbi b = true
  found : st.range ≠ 0 → IsEntry mbi st.range ∧ a ≤ st.range ∧ Suitable mbi size st.range
  skipped : ∀ b, IsEntry mbi b → a ≤ b → Suitable mbi size b → st.range ≠ 0 ∧ st.range ≤ b

theorem next_ram_range_from {st : AllocState} (steps : StepsThroughMap mbi) (ram : RamBounded mbi)
    (inspected : ∀ b ∈ st.inspected, rangeInMap mbi b = true)
    (entry : IsEntry mbi (if st.range = 0 then mbi.first else mbi.next st.range)) :
    ∃ after, nextRamRange mbi size st = .ok after ∧
      RangeFrom mbi size (if st.range = 0 then mbi.first else mbi.next st.range) after := by
  unfold nextRamRange
  simp only
  generalize (if st.range = 0 then mbi.first else mbi.next st.range) = a at entry ⊢
  -- a round looks at an entry that lies in the map, or the search is over
  apply loop_total (nextRamRangeRound mbi size) Stop.diverges
    (fun now => now.used = 0 ∧ (∀ b ∈ now.inspected, rangeInMap mbi b = true) ∧
      (now.range ≠ 0 → IsEntry mbi now.range ∧ a ≤ now.range) ∧
      ∀ b, IsEntry mbi b → a ≤ b → Suitable mbi size b → now.range ≠ 0 ∧ now.range ≤ b)
    (RangeFrom mbi size a)
    (fun now => distance mbi now.range)
  · rintro now ⟨unused, seen, current, ahead⟩
    unfold nextRamRangeRound
    split_ifs with exhausted
    · exact .inl ⟨now, rfl, unused, seen, fun going => absurd exhausted going, ahead⟩
    obtain ⟨isEntry, behind⟩ := current exhausted
    have seen' : ∀ b ∈ now.range :: now.inspected, rangeInMap mbi b = true := by
      intro b member
      rcases List.mem_cons.mp member with rfl | old
      · exact isEntry.inMap
      · exact seen b old
    have fits := @suitable_iff mbi size { now with inspected := now.range :: now.inspected } ram
      isEntry unused
    simp only at fits ⊢
    by_cases suitable : Suitable mbi size now.range
    · rw [if_pos (fits.mpr suitable)]
      exact .inl ⟨_, rfl, unused, seen', fun _ => ⟨isEntry, behind, suitable⟩, ahead⟩
    · rw [if_neg (fun isSuitable => suitable (fits.mp isSuitable))]
      have later : ∀ b, IsEntry mbi b → a ≤ b → Suitable mbi size b →
          mbi.next now.range ≤ b ∧ IsEntry mbi (mbi.next now.range) := by
        intro b isB aLe isSuitable
        have notLess := (ahead b isB aLe isSuitable).2
        have differs : now.range ≠ b := by
          rintro rfl
          exact suitable isSuitable
        exact isEntry.next_le steps isB (by omega)
      have forward := isEntry.forward steps
      have here := distance_of_entry steps isEntry
      right
      by_cases nextInside : rangeInMap mbi (mbi.next now.range) = true
      · rw [if_pos nextInside]
        have nextEntry := isEntry.step nextInside
        have there := distance_of_entry steps nextEntry
        refine ⟨_, rfl, ⟨unused, seen', ?_, ?_⟩, ?_⟩
        · intro _
          exact ⟨nextEntry, behind.trans forward.le⟩
        · intro b isB aLe isSuitable
          exact ⟨Nat.pos_iff_ne_zero.mp (nextEntry.pos steps), (later b isB aLe isSuitable).1⟩
        · change distance mbi (mbi.next now.range) < _
          omega
      · rw [if_neg nextInside]
        refine ⟨_, rfl, ⟨unused, seen', fun going => absurd rfl going, ?_⟩, here.2.1⟩
        intro b isB aLe isSuitable
        exact absurd (later b isB aLe isSuitable).2.inMap nextInside
  · refine ⟨rfl, inspected, fun _ => ⟨entry, le_rfl⟩, ?_⟩
    intro b _ aLe _
    exact ⟨Nat.pos_iff_ne_zero.mp (entry.pos steps), aLe⟩
  · have := distance_of_entry steps entry
    change distance mbi a < _
    omega

end

/-! ## Blocks and free spots -/

/-- No byte of the block is reserved. -/
def Unreserved (reservations : Reservations) (start size : Nat) : Prop :=
  ∀ address, start ≤ address → address < start + size → ¬ Covered reservations address

/-- No reservation is in the way of the block. An empty one is, inside of it. -/
def Apart (reservations : Reservations) (start size : Nat) : Prop :=
  ∀ r ∈ reservations, r.start + r.size ≤ start ∨ start + size ≤ r.start

theorem Apart.unreserved {reservations : Reservations} {start size : Nat}
    (apart : Apart reservations start size) : Unreserved reservations start size := by
  rintro address above less ⟨r, member, rAbove, rLess⟩
  have := apart r member
  omega

/-- The first reservation that is in the way. -/
def firstMet (reservations : Reservations) (start size : Nat) : Option Area :=
  reservations.find? fun r => r.start < start + size ∧ start < r.start + r.size

theorem first_met_none {reservations : Reservations} {start size : Nat} :
    firstMet reservations start size = none ↔ Apart reservations start size := by
  unfold firstMet Apart
  rw [List.find?_eq_none]
  apply forall₂_congr
  intro r _
  rw [decide_eq_true_eq]
  omega

/-- Below 4 GiB a query answers with the end of the first reservation in the way. -/
theorem overlaps_reservation_eq {reservations : Reservations} {start size : Nat}
    (ends : ∀ r ∈ reservations, r.start + r.size < 2 ^ 32) (below : start + size < 2 ^ 32) :
    overlapsReservation start size reservations =
      match firstMet reservations start size with
      | none => 0
      | some r => r.start + r.size := by
  induction reservations with
  | nil => rfl
  | cons r rest ih =>
      unfold firstMet at ih ⊢
      rw [overlapsReservation, add32_of_lt (ends r (by simp)), add32_of_lt below, List.find?_cons]
      by_cases meets : r.start < start + size ∧ start < r.start + r.size
      · rw [if_pos meets, decide_eq_true meets]
      · rw [if_neg meets, decide_eq_false meets]
        exact ih fun o member => ends o (by simp [member])

/-- A block that ends at 4 GiB is always let through. -/
theorem overlaps_reservation_top {reservations : Reservations} {start size : Nat}
    (top : start + size = 2 ^ 32) : overlapsReservation start size reservations = 0 := by
  have wraps : add32 start size = 0 := by
    rw [add32, Wordsize.add, show Wordsize.w32.modulus = 2 ^ 32 from rfl, top, Nat.mod_self]
  induction reservations with
  | nil => rfl
  | cons r rest ih =>
      rw [overlapsReservation, wraps, if_neg (by omega)]
      exact ih

/-- `size` bytes from `p` lie in the RAM range of entry `a`. -/
structure BlockIn (mbi : Mbi) (a p size : Nat) : Prop where
  entry : IsEntry mbi a
  memory : (mbi.entryAt a).memory = true
  above : (mbi.entryAt a).addr ≤ p
  inside : p + size ≤ (mbi.entryAt a).addr + (mbi.entryAt a).size

/-- The allocator has passed the block. -/
def Passed (mbi : Mbi) (st : AllocState) (block : Nat × Nat) : Prop :=
  ∃ a, BlockIn mbi a block.1 block.2 ∧
    (a < st.range ∨ (a = st.range ∧ block.1 + block.2 ≤ (mbi.entryAt a).addr + st.used))

/-- The request can be served by `size` bytes from `p` in the range of entry `a`. -/
structure Spot (mbi : Mbi) (reservations : Reservations) (size a p : Nat) : Prop where
  isIn : BlockIn mbi a p size
  under : p + size ≤ 2 ^ 32
  free : Apart reservations p size

/-- The allocator has not passed position `p` of entry `a`. -/
def AheadOf (mbi : Mbi) (st : AllocState) (a p : Nat) : Prop :=
  st.range < a ∨ (st.range = a ∧ (mbi.entryAt a).addr + st.used ≤ p)

/-- A spot for the request that the allocator has not passed. -/
def SpotAhead (mbi : Mbi) (reservations : Reservations) (size : Nat) (st : AllocState) : Prop :=
  ∃ a p, BlockIn mbi a p size ∧ p + size ≤ 2 ^ 32 ∧ Apart reservations p size ∧
    (st.range < a ∨ (st.range = a ∧ (mbi.entryAt a).addr + st.used ≤ p))

/-- The last entry of the map is too small for the request. -/
def LastUnsuitable (mbi : Mbi) (size : Nat) : Prop :=
  ∀ a, IsEntry mbi a → rangeInMap mbi (mbi.next a) = false → ¬ Suitable mbi size a

/-- The positions that a call in state `st` tries: the one it stands at, the begin
of an entry that no spot comes before, and from a position that is taken the end of
the first reservation in the way. -/
inductive Tries (mbi : Mbi) (reservations : Reservations) (size : Nat) (st : AllocState) :
    Nat → Nat → Prop
  | here : st.range ≠ 0 → st.used + size ≤ (mbi.entryAt st.range).size →
      Tries mbi reservations size st st.range ((mbi.entryAt st.range).addr + st.used)
  | enter {a : Nat} : IsEntry mbi a → Suitable mbi size a → (st.range = 0 ∨ st.range < a) →
      (∀ b p, Spot mbi reservations size b p → st.range = 0 ∨ AheadOf mbi st b p → a ≤ b) →
      Tries mbi reservations size st a (mbi.entryAt a).addr
  | behind {a p : Nat} {r : Area} : Tries mbi reservations size st a p →
      firstMet reservations p size = some r →
      r.start + r.size + size ≤ (mbi.entryAt a).addr + (mbi.entryAt a).size →
      r.start + r.size + size ≤ 2 ^ 32 → Tries mbi reservations size st a (r.start + r.size)

/-- The state of the loop of `mm_alloc_alloc` with a range, for a call in state
`origin`: the position fits the request, every block was passed, and the search
cannot run out of the map. -/
structure Going (mbi : Mbi) (reservations : Reservations) (size : Nat)
    (blocks : List (Nat × Nat)) (origin st : AllocState) : Prop where
  entry : IsEntry mbi st.range
  memory : (mbi.entryAt st.range).memory = true
  fits : st.used + size ≤ (mbi.entryAt st.range).size
  below : (mbi.entryAt st.range).addr + st.used + size ≤ 2 ^ 32
  tried : Tries mbi reservations size origin st.range ((mbi.entryAt st.range).addr + st.used)
  forth : origin.range = 0 ∨ origin.range ≤ st.range
  passed : ∀ block ∈ blocks, Passed mbi st block
  ahead : SpotAhead mbi reservations size st ∨ LastUnsuitable mbi size

/-- The state of the loop of `mm_alloc_alloc`; no spot was passed. -/
structure LoopOk (mbi : Mbi) (reservations : Reservations) (size : Nat)
    (blocks : List (Nat × Nat)) (origin st : AllocState) : Prop where
  inspected : ∀ b ∈ st.inspected, rangeInMap mbi b = true
  going : st.range ≠ 0 → Going mbi reservations size blocks origin st
  spots : ∀ a p, Spot mbi reservations size a p → origin.range = 0 ∨ AheadOf mbi origin a p →
    st.range ≠ 0 ∧ AheadOf mbi st a p

section

variable {mbi : Mbi} {reservations : Reservations} {size : Nat} {blocks : List (Nat × Nat)}

/-- A spot behind the position lies behind the reservation that was met there. -/
theorem spot_behind_reservation {position p : Nat} {r : Area} (member : r ∈ reservations)
    (free : Apart reservations p size) (order : position ≤ p)
    (reaches : r.start < position + size) : r.start + r.size ≤ p := by
  have := free r member
  omega

/-- Where the search for an entry goes on. -/
def nextOrigin (mbi : Mbi) (st : AllocState) : Nat :=
  if st.range = 0 then mbi.first else mbi.next st.range

/-- Going on to the next suitable entry. -/
theorem next_ram_range_going {origin st : AllocState} (steps : StepsThroughMap mbi)
    (ram : RamBounded mbi) (inspected : ∀ b ∈ st.inspected, rangeInMap mbi b = true)
    (entry : IsEntry mbi (nextOrigin mbi st))
    (forth : origin.range = 0 ∨ origin.range < nextOrigin mbi st)
    (passed : ∀ block ∈ blocks, ∃ a, BlockIn mbi a block.1 block.2 ∧ a < nextOrigin mbi st)
    (ahead : (∃ a p, BlockIn mbi a p size ∧ p + size ≤ 2 ^ 32 ∧ Apart reservations p size ∧
      nextOrigin mbi st ≤ a) ∨ LastUnsuitable mbi size)
    (spots : ∀ a p, Spot mbi reservations size a p → origin.range = 0 ∨ AheadOf mbi origin a p →
      nextOrigin mbi st ≤ a) :
    ∃ after, nextRamRange mbi size st = .ok after ∧
      LoopOk mbi reservations size blocks origin after ∧
      (after.range ≠ 0 → nextOrigin mbi st ≤ after.range) := by
  obtain ⟨after, ran, from'⟩ := @next_ram_range_from mbi size st steps ram inspected entry
  have found : ∀ a p, Spot mbi reservations size a p → nextOrigin mbi st ≤ a →
      after.range ≠ 0 ∧ AheadOf mbi after a p := by
    rintro a p ⟨isIn, under, _⟩ behind
    have unused := from'.unused
    have above := isIn.above
    have inside := isIn.inside
    have reached := from'.skipped a isIn.entry behind ⟨isIn.memory, by omega, by omega⟩
    refine ⟨reached.1, ?_⟩
    rcases Nat.lt_or_eq_of_le reached.2 with less | same
    · exact .inl less
    · exact .inr ⟨same, by omega⟩
  have foundAll : ∀ a p, Spot mbi reservations size a p →
      origin.range = 0 ∨ AheadOf mbi origin a p → after.range ≠ 0 ∧ AheadOf mbi after a p :=
    fun a p spot order => found a p spot (spots a p spot order)
  refine ⟨after, ran, ⟨from'.inspected, ?_, foundAll⟩, fun going => (from'.found going).2.1⟩
  intro going
  obtain ⟨isEntry, order, suitable⟩ := from'.found going
  obtain ⟨memory, room, low⟩ := id suitable
  have unused := from'.unused
  have order : nextOrigin mbi st ≤ after.range := order
  refine ⟨isEntry, memory, by omega, by omega, ?_, by omega, ?_, ?_⟩
  · rw [unused, Nat.add_zero]
    apply Tries.enter isEntry suitable (by omega)
    intro b p spot isAhead
    rcases (foundAll b p spot isAhead).2 with less | ⟨same, _⟩
    · exact less.le
    · exact same.le
  · intro block member
    obtain ⟨a, isIn, less⟩ := passed block member
    exact ⟨a, isIn, .inl (by omega)⟩
  · refine ahead.imp ?_ id
    rintro ⟨a, p, isIn, under, free, behind⟩
    exact ⟨a, p, isIn, under, free, (found a p ⟨isIn, under, free⟩ behind).2⟩

/-- From a range of the loop the next entry lies in the map, unless a spot is
left in the range itself. -/
theorem next_entry_of_going {origin st : AllocState} (steps : StepsThroughMap mbi)
    (going : Going mbi reservations size blocks origin st)
    (noSpot : ∀ p, BlockIn mbi st.range p size → p + size ≤ 2 ^ 32 →
      Apart reservations p size → ¬ (mbi.entryAt st.range).addr + st.used ≤ p) :
    IsEntry mbi (mbi.next st.range) ∧
      ((∃ a p, BlockIn mbi a p size ∧ p + size ≤ 2 ^ 32 ∧ Apart reservations p size ∧
        mbi.next st.range ≤ a) ∨ LastUnsuitable mbi size) := by
  have fits := going.fits
  have low := going.below
  rcases going.ahead with ⟨a, p, isIn, under, free, less | ⟨same, behind⟩⟩ | last
  · have next := going.entry.next_le steps isIn.entry less
    exact ⟨next.2, .inl ⟨a, p, isIn, under, free, next.1⟩⟩
  · rw [← same] at isIn behind
    exact absurd behind (noSpot p isIn under free)
  · refine ⟨going.entry.step ?_, .inr last⟩
    by_contra outside
    exact last st.range going.entry (by simpa using outside)
      ⟨going.memory, by omega, by omega⟩

/-- The measure of the loop of `mm_alloc_alloc`: the way to the end of the map,
then the reservations that still lie ahead. -/
def allocMeasure (mbi : Mbi) (reservations : Reservations) (st : AllocState) : Nat :=
  if st.range = 0 then 0
  else distance mbi st.range * (reservations.length + 1) + 1 +
    reservations.countP fun r => (mbi.entryAt st.range).addr + st.used < r.start + r.size

theorem alloc_measure_lt_of_next {st after : AllocState} (steps : StepsThroughMap mbi)
    (entry : IsEntry mbi st.range)
    (later : after.range ≠ 0 → IsEntry mbi after.range ∧ st.range < after.range) :
    allocMeasure mbi reservations after < allocMeasure mbi reservations st := by
  have here := distance_of_entry steps entry
  have pos := entry.pos steps
  unfold allocMeasure
  rw [if_neg (Nat.pos_iff_ne_zero.mp pos)]
  split_ifs with exhausted
  · omega
  · obtain ⟨afterEntry, less⟩ := later exhausted
    have there := distance_of_entry steps afterEntry
    have counted : (reservations.countP fun r =>
        (mbi.entryAt after.range).addr + after.used < r.start + r.size) ≤ reservations.length :=
      List.countP_le_length
    have nearer : (distance mbi after.range + 1) * (reservations.length + 1) ≤
        distance mbi st.range * (reservations.length + 1) :=
      Nat.mul_le_mul_right _ (by omega)
    rw [Nat.add_mul, Nat.one_mul] at nearer
    omega

theorem alloc_measure_lt_of_jump {st : AllocState} {r : Area} {used : Nat} (pos : st.range ≠ 0)
    (member : r ∈ reservations)
    (before : (mbi.entryAt st.range).addr + st.used < r.start + r.size)
    (reached : (mbi.entryAt st.range).addr + used = r.start + r.size) :
    allocMeasure mbi reservations { st with used := used } <
      allocMeasure mbi reservations st := by
  unfold allocMeasure
  simp only [if_neg pos, reached]
  apply Nat.add_lt_add_left
  apply count_lt_of_narrower _ member
  · simp
  · simpa using before
  · intro o _ ahead
    simp only [decide_eq_true_eq] at ahead ⊢
    omega

/-- One round of `mm_alloc_alloc` in a range: a block that is free, or a step to
a later position. -/
theorem mm_alloc_round {origin st : AllocState} (steps : StepsThroughMap mbi)
    (ram : RamBounded mbi) (ends : ∀ r ∈ reservations, r.start + r.size < 2 ^ 32) (pos : 1 ≤ size)
    (top : ∀ a p, Tries mbi reservations size origin a p → p + size = 2 ^ 32 →
      Apart reservations p size)
    (ok : LoopOk mbi reservations size blocks origin st) (notOver : st.range ≠ 0) :
    (mmAllocRound mbi reservations size st =
      .ok (.leave ((mbi.entryAt st.range).addr + st.used,
        { st with used := add32 st.used size })) ∧
      Apart reservations ((mbi.entryAt st.range).addr + st.used) size) ∨
    ∃ after, mmAllocRound mbi reservations size st = .ok (.again after) ∧
      LoopOk mbi reservations size blocks origin after ∧
      allocMeasure mbi reservations after < allocMeasure mbi reservations st := by
  have going := ok.going notOver
  obtain ⟨entry, memory, fits, below, tried, forth, passed, ahead⟩ := id going
  have bounded := ram _ entry memory
  have result : add32 ((mbi.entryAt st.range).addr % 2 ^ 32) st.used =
      (mbi.entryAt st.range).addr + st.used := by
    rw [Nat.mod_eq_of_lt (by omega), add32_of_lt (by omega)]
  unfold mmAllocRound
  rw [if_neg notOver]
  simp only [result]
  rcases Nat.lt_or_eq_of_le below with inside | atTop
  swap
  · left
    rw [if_pos (overlaps_reservation_top atTop)]
    exact ⟨rfl, top _ _ tried atTop⟩
  rw [overlaps_reservation_eq ends inside]
  cases met : firstMet reservations ((mbi.entryAt st.range).addr + st.used) size with
  | none =>
      left
      rw [if_pos rfl]
      exact ⟨rfl, first_met_none.mp met⟩
  | some r =>
    right
    have member : r ∈ reservations := List.mem_of_find?_eq_some met
    have meets := List.find?_some met
    obtain ⟨reaches, behind⟩ := of_decide_eq_true meets
    have rBelow := ends r member
    have jump : Wordsize.w64.sub (r.start + r.size) (mbi.entryAt st.range).addr % 2 ^ 32 =
        r.start + r.size - (mbi.entryAt st.range).addr := by
      have modulus : Wordsize.w64.modulus = 2 ^ 64 := rfl
      rw [Wordsize.w64.sub_of_le (by omega) (by omega), Nat.mod_eq_of_lt (by omega)]
    have spotBehind := fun p => @spot_behind_reservation reservations size
      ((mbi.entryAt st.range).addr + st.used) p r member
    simp only [jump]
    rw [if_neg (by omega)]
    generalize isUsed : r.start + r.size - (mbi.entryAt st.range).addr = used
    have reached : (mbi.entryAt st.range).addr + used = r.start + r.size := by omega
    by_cases leaves : (mbi.entryAt st.range).size ≤ used ∨
        rangeIn4GForSize mbi { st with used := used } size = false
    · rw [if_pos (by simpa using leaves)]
      have noSpot : ∀ p, BlockIn mbi st.range p size → p + size ≤ 2 ^ 32 →
          Apart reservations p size → ¬ (mbi.entryAt st.range).addr + st.used ≤ p := by
        intro p isIn under isFree order
        have after := spotBehind p isFree order reaches
        have inside := isIn.inside
        rcases leaves with exceeded | noRoom
        · omega
        · have room := (@range_in_4g_iff mbi size { st with used := used } bounded
            (by simp only; omega)).mpr ⟨by simp only; omega, by simp only; omega⟩
          rw [noRoom] at room
          cases room
      obtain ⟨nextEntry, nextAhead⟩ := next_entry_of_going steps going noSpot
      have next : nextOrigin mbi { st with used := used } = mbi.next st.range := if_neg notOver
      have forward := entry.forward steps
      obtain ⟨after, ran, afterOk, later⟩ :=
        @next_ram_range_going mbi reservations size blocks origin { st with used := used } steps ram
          ok.inspected (by rw [next]; exact nextEntry) (by rw [next]; omega)
          (by
            intro block isBlock
            obtain ⟨a, isIn, order⟩ := passed block isBlock
            refine ⟨a, isIn, ?_⟩
            rw [next]
            omega)
          (by rw [next]; exact nextAhead)
          (by
            intro a p spot order
            rw [next]
            rcases (ok.spots a p spot order).2 with less | ⟨rfl, starts⟩
            · exact (entry.next_le steps spot.isIn.entry less).1
            · exact absurd starts (noSpot p spot.isIn spot.under spot.free))
      rw [next] at later
      refine ⟨after, by rw [ran, ok_bind], afterOk, ?_⟩
      apply alloc_measure_lt_of_next steps entry
      intro goes
      exact ⟨(afterOk.going goes).entry, by have := later goes; omega⟩
    · obtain ⟨inRange, room⟩ := not_or.mp leaves
      rw [if_neg (by simpa using leaves)]
      have inRange' : used ≤ (mbi.entryAt st.range).size := by omega
      have room' := (@range_in_4g_iff mbi size { st with used := used } bounded inRange').mp
        (by simpa using room)
      simp only at room'
      have kept : ∀ a p, Spot mbi reservations size a p → AheadOf mbi st a p →
          AheadOf mbi { st with used := used } a p := by
        rintro a p spot (less | ⟨rfl, starts⟩)
        · exact .inl less
        · have := spotBehind p spot.free starts reaches
          exact .inr ⟨rfl, by simp only; omega⟩
      refine ⟨{ st with used := used }, rfl, ⟨ok.inspected, fun _ => ?_, ?_⟩, ?_⟩
      · refine ⟨entry, memory, room'.1, by simp only; omega, ?_, forth, ?_, ?_⟩
        · simp only [reached]
          exact tried.behind met (by omega) (by omega)
        · intro block isBlock
          obtain ⟨a, isIn, order⟩ := passed block isBlock
          refine ⟨a, isIn, order.imp id ?_⟩
          rintro ⟨rfl, blockEnds⟩
          exact ⟨rfl, by simp only; omega⟩
        · refine ahead.imp ?_ id
          rintro ⟨a, p, isIn, under, isFree, order⟩
          exact ⟨a, p, isIn, under, isFree, kept a p ⟨isIn, under, isFree⟩ order⟩
      · intro a p spot order
        exact ⟨notOver, kept a p spot (ok.spots a p spot order).2⟩
      · exact alloc_measure_lt_of_jump notOver member behind reached

end

/-! ## Runs of the allocator -/

/-- What is promised about the blocks that were handed out. -/
structure BlocksOk (mbi : Mbi) (reservations : Reservations) (blocks : List (Nat × Nat)) :
    Prop where
  inside : ∀ block ∈ blocks, (∃ a, BlockIn mbi a block.1 block.2) ∧
    block.1 + block.2 ≤ 2 ^ 32 ∧ Unreserved reservations block.1 block.2
  apart : blocks.Pairwise fun x y => x.1 + x.2 ≤ y.1 ∨ y.1 + y.2 ≤ x.1

/-- The invariant between two calls. -/
structure AllocOk (mbi : Mbi) (reservations : Reservations) (blocks : List (Nat × Nat))
    (st : AllocState) : Prop where
  handedOut : BlocksOk mbi reservations blocks
  inspected : ∀ b ∈ st.inspected, rangeInMap mbi b = true
  position : st.range ≠ 0 → IsEntry mbi st.range ∧ (mbi.entryAt st.range).memory = true ∧
    st.used ≤ (mbi.entryAt st.range).size ∧ ∀ block ∈ blocks, Passed mbi st block

/-- The calls that are served as they should: the search does not run off the end
of the map, and tries no block that ends at 4 GiB with a reservation in its way. -/
structure SafeSearch (mbi : Mbi) (reservations : Reservations) (st : AllocState) (size : Nat) :
    Prop where
  nonempty : st.range = 0 → 0 < mbi.mmapLength
  ahead : SpotAhead mbi reservations size st ∨
    (LastUnsuitable mbi size ∧ (st.range ≠ 0 → rangeInMap mbi (mbi.next st.range) = true))
  top : ∀ a p, Tries mbi reservations size st a p → p + size = 2 ^ 32 → Apart reservations p size

/-- The calls that keep the promise: the allocator does not start anew after it
has handed out memory, and its mark does not wrap, as it does behind a block that
ends at 4 GiB in an entry that begins at 0. -/
structure SafeCall (mbi : Mbi) (reservations : Reservations) (blocks : List (Nat × Nat))
    (st : AllocState) (size : Nat) : Prop extends SafeSearch mbi reservations st size where
  restart : st.range = 0 → blocks = []
  wraps : ∀ a p, Tries mbi reservations size st a p → p + size = 2 ^ 32 →
    (mbi.entryAt a).addr ≠ 0

section

variable {mbi : Mbi} {reservations : Reservations} {size : Nat} {blocks : List (Nat × Nat)}
  {st : AllocState}

/-- The first part of `mm_alloc_alloc` reaches the loop. -/
theorem mm_alloc_enter (steps : StepsThroughMap mbi) (ram : RamBounded mbi)
    (ok : AllocOk mbi reservations blocks st) (restart : st.range = 0 → blocks = [])
    (safe : SafeSearch mbi reservations st size) :
    ∃ now, enoughInRange mbi size st = .ok now ∧
      LoopOk mbi reservations size blocks st now := by
  unfold enoughInRange
  by_cases exhausted : st.range = 0
  · have none := restart exhausted
    have next : nextOrigin mbi st = mbi.first := if_pos exhausted
    obtain ⟨now, ran, loopOk, _⟩ := @next_ram_range_going mbi reservations size blocks st st
      steps ram ok.inspected (by rw [next]; exact first_entry steps (safe.nonempty exhausted))
      (.inl exhausted) (by rw [none]; simp)
      (by
        rw [next]
        rcases safe.ahead with ⟨a, p, isIn, under, free, _⟩ | ⟨last, _⟩
        · exact .inl ⟨a, p, isIn, under, free, (isIn.entry.first_le steps).1⟩
        · exact .inr last)
      (by
        intro a p spot _
        rw [next]
        exact (spot.isIn.entry.first_le steps).1)
    exact ⟨now, by rw [if_pos (by simp [exhausted]), ran], loopOk⟩
  · obtain ⟨entry, memory, inRange, passed⟩ := ok.position exhausted
    have bounded := ram _ entry memory
    have roomIff := @range_in_4g_iff mbi size st bounded inRange
    by_cases room : rangeIn4GForSize mbi st size = true
    · rw [if_neg (by simp [exhausted, room])]
      obtain ⟨fits, under⟩ := roomIff.mp room
      refine ⟨st, rfl, ok.inspected, fun _ => ?_, ?_⟩
      · exact ⟨entry, memory, fits, under, .here exhausted fits, .inr le_rfl, passed,
          safe.ahead.imp id And.left⟩
      · rintro a p _ (zero | order)
        · exact absurd zero exhausted
        · exact ⟨exhausted, order⟩
    · have next : nextOrigin mbi st = mbi.next st.range := if_neg exhausted
      have noSpot : ∀ a p, Spot mbi reservations size a p → AheadOf mbi st a p →
          mbi.next st.range ≤ a ∧ IsEntry mbi (mbi.next st.range) := by
        rintro a p spot (less | ⟨same, behind⟩)
        · exact entry.next_le steps spot.isIn.entry less
        · have fits := spot.isIn.inside
          have under := spot.under
          rw [← same] at fits behind
          exact absurd (roomIff.mpr ⟨by omega, by omega⟩) room
      have goesOn : IsEntry mbi (mbi.next st.range) ∧
          ((∃ a p, BlockIn mbi a p size ∧ p + size ≤ 2 ^ 32 ∧ Apart reservations p size ∧
            mbi.next st.range ≤ a) ∨ LastUnsuitable mbi size) := by
        rcases safe.ahead with ⟨a, p, isIn, under, free, order⟩ | ⟨last, inside⟩
        · obtain ⟨behind, isEntry⟩ := noSpot a p ⟨isIn, under, free⟩ order
          exact ⟨isEntry, .inl ⟨a, p, isIn, under, free, behind⟩⟩
        · exact ⟨entry.step (inside exhausted), .inr last⟩
      have forward := entry.forward steps
      obtain ⟨now, ran, loopOk, _⟩ := @next_ram_range_going mbi reservations size blocks st st
        steps ram ok.inspected (by rw [next]; exact goesOn.1) (by rw [next]; exact .inr forward)
        (by
          intro block member
          obtain ⟨a, isIn, order⟩ := passed block member
          refine ⟨a, isIn, ?_⟩
          rw [next]
          omega)
        (by rw [next]; exact goesOn.2)
        (by
          rw [next]
          rintro a p spot (zero | order)
          · exact absurd zero exhausted
          · exact (noSpot a p spot order).1)
      exact ⟨now, by rw [if_pos (by simp [exhausted, room]), ran], loopOk⟩

/-- A new block behind all blocks handed out before. -/
theorem blocks_ok_append {origin : AllocState} (ram : RamOk mbi)
    (ok : BlocksOk mbi reservations blocks) (going : Going mbi reservations size blocks origin st)
    (free : Apart reservations ((mbi.entryAt st.range).addr + st.used) size) :
    BlocksOk mbi reservations (blocks ++ [((mbi.entryAt st.range).addr + st.used, size)]) := by
  have fits := going.fits
  have below := going.below
  have isIn : BlockIn mbi st.range ((mbi.entryAt st.range).addr + st.used) size :=
    ⟨going.entry, going.memory, by omega, by omega⟩
  constructor
  · intro block member
    rcases List.mem_append.mp member with old | new
    · exact ok.inside block old
    · rw [List.mem_singleton.mp new]
      exact ⟨⟨st.range, isIn⟩, by simp only; omega, free.unreserved⟩
  · rw [List.pairwise_append]
    refine ⟨ok.apart, List.pairwise_singleton _ _, ?_⟩
    intro x old y new
    rw [List.mem_singleton.mp new]
    obtain ⟨a, xIn, less | ⟨same, blockEnds⟩⟩ := going.passed x old
    · have xAbove := xIn.above
      have xInside := xIn.inside
      have apart := ram.apart a st.range xIn.entry going.entry (by omega) xIn.memory going.memory
      simp only
      omega
    · rw [same] at blockEnds
      exact .inl blockEnds

/-- How a call in state `origin` leaves the loop: without a range and without a
spot, or at the first spot that lies ahead. -/
inductive Served (mbi : Mbi) (reservations : Reservations) (size : Nat)
    (blocks : List (Nat × Nat)) (origin now : AllocState) : Nat × AllocState → Prop
  | exhausted (ended : now.range = 0)
      (none : ∀ a p, Spot mbi reservations size a p →
        ¬ (origin.range = 0 ∨ AheadOf mbi origin a p)) :
      Served mbi reservations size blocks origin now (0, now)
  | found (going : Going mbi reservations size blocks origin now)
      (spot : Spot mbi reservations size now.range ((mbi.entryAt now.range).addr + now.used))
      (first : ∀ a p, Spot mbi reservations size a p → origin.range = 0 ∨ AheadOf mbi origin a p →
        AheadOf mbi now a p) :
      Served mbi reservations size blocks origin now
        ((mbi.entryAt now.range).addr + now.used, { now with used := add32 now.used size })

/-- A safe call returns the first spot. -/
theorem mm_alloc_serves (steps : StepsThroughMap mbi) (ram : RamBounded mbi)
    (ends : ∀ r ∈ reservations, r.start + r.size < 2 ^ 32) (pos : 1 ≤ size)
    (ok : AllocOk mbi reservations blocks st) (restart : st.range = 0 → blocks = [])
    (safe : SafeSearch mbi reservations st size) :
    ∃ outcome now, mmAllocAlloc mbi reservations size st = .ok outcome ∧
      LoopOk mbi reservations size blocks st now ∧
      Served mbi reservations size blocks st now outcome := by
  obtain ⟨entered, enters, enteredOk⟩ := mm_alloc_enter steps ram ok restart safe
  have enough : allocMeasure mbi reservations entered <
      (mbi.mmapLength + 1) * (reservations.length + 2) := by
    have product : (mbi.mmapLength + 1) * (reservations.length + 2) =
        mbi.mmapLength * (reservations.length + 1) + mbi.mmapLength + reservations.length + 2 := by
      ring
    rw [product]
    unfold allocMeasure
    split_ifs with exhausted
    · omega
    · have here := (distance_of_entry steps (enteredOk.going exhausted).entry).2.2
      have counted : (reservations.countP fun r =>
          (mbi.entryAt entered.range).addr + entered.used < r.start + r.size) ≤
            reservations.length := List.countP_le_length
      have := Nat.mul_le_mul_right (reservations.length + 1) here
      omega
  obtain ⟨outcome, returned, now, loopOk, served⟩ := loop_total
    (mmAllocRound mbi reservations size) Stop.diverges
    (LoopOk mbi reservations size blocks st)
    (fun outcome => ∃ now, LoopOk mbi reservations size blocks st now ∧
      Served mbi reservations size blocks st now outcome)
    (allocMeasure mbi reservations) (fun now loopOk => by
      by_cases exhausted : now.range = 0
      · refine .inl ⟨(0, now), by rw [mmAllocRound, if_pos exhausted], now, loopOk, ?_⟩
        apply Served.exhausted exhausted
        intro a p spot order
        exact (loopOk.spots a p spot order).1 exhausted
      · have going := loopOk.going exhausted
        rcases mm_alloc_round steps ram ends pos safe.top loopOk exhausted with
          ⟨left, free⟩ | ⟨after, again, afterOk, less⟩
        · refine .inl ⟨_, left, now, loopOk, ?_⟩
          have fits := going.fits
          have below := going.below
          apply Served.found going
          · exact ⟨⟨going.entry, going.memory, by omega, by omega⟩, by omega, free⟩
          · intro a p spot order
            exact (loopOk.spots a p spot order).2
        · exact .inr ⟨after, again, afterOk, less⟩) enteredOk enough
  exact ⟨outcome, now, by rw [mmAllocAlloc, enters, ok_bind, returned], loopOk, served⟩

/-- A safe call returns and keeps the promise. -/
theorem mm_alloc_alloc_ok (steps : StepsThroughMap mbi) (ram : RamOk mbi)
    (ends : ∀ r ∈ reservations, r.start + r.size < 2 ^ 32) (pos : 1 ≤ size)
    (ok : AllocOk mbi reservations blocks st) (safe : SafeCall mbi reservations blocks st size) :
    ∃ result after, mmAllocAlloc mbi reservations size st = .ok (result, after) ∧
      AllocOk mbi reservations (if result = 0 then blocks else blocks ++ [(result, size)]) after := by
  obtain ⟨outcome, now, returned, loopOk, served⟩ :=
    mm_alloc_serves steps ram.bounded ends pos ok safe.restart safe.toSafeSearch
  cases served with
  | exhausted ended none =>
      refine ⟨0, now, returned, ?_⟩
      exact ⟨ok.handedOut, loopOk.inspected, fun going => absurd ended going⟩
  | found going spot first =>
      have fits := going.fits
      have below := going.below
      have whole := blocks_ok_append ram ok.handedOut going spot.free
      -- the mark behind the block is a word
      have marked : add32 now.used size = now.used + size := by
        apply add32_of_lt
        have := safe.wraps _ _ going.tried
        omega
      rw [marked] at returned
      have passed : ∀ block ∈ blocks ++ [((mbi.entryAt now.range).addr + now.used, size)],
          Passed mbi { now with used := now.used + size } block := by
        intro block member
        rcases List.mem_append.mp member with old | new
        · obtain ⟨a, isIn, order⟩ := going.passed block old
          refine ⟨a, isIn, order.imp id ?_⟩
          rintro ⟨rfl, blockEnds⟩
          exact ⟨rfl, by simp only; omega⟩
        · rw [List.mem_singleton.mp new]
          exact ⟨now.range, spot.isIn, .inr ⟨rfl, by simp only; omega⟩⟩
      refine ⟨_, _, returned, ?_, loopOk.inspected, fun _ => ⟨going.entry, going.memory, fits, ?_⟩⟩
      · split_ifs
        · exact ok.handedOut
        · exact whole
      · intro block member
        split_ifs at member
        · exact passed block (by simp [member])
        · exact passed block member

/-- The first block for a request in the order of the map. -/
structure FirstSpot (mbi : Mbi) (reservations : Reservations) (size p : Nat) : Prop where
  spot : ∃ a, Spot mbi reservations size a p ∧
    ∀ b q, Spot mbi reservations size b q → a < b ∨ (a = b ∧ p ≤ q)

/-- A fresh allocator is first fit: it returns the first block, or the null
pointer if there is none. -/
theorem mm_alloc_first_fit {used : Nat} (steps : StepsThroughMap mbi) (ram : RamBounded mbi)
    (ends : ∀ r ∈ reservations, r.start + r.size < 2 ^ 32) (pos : 1 ≤ size)
    (safe : SafeSearch mbi reservations (mmAllocInit ⟨0, used, []⟩) size) :
    ∃ result after,
      mmAllocAlloc mbi reservations size (mmAllocInit ⟨0, used, []⟩) = .ok (result, after) ∧
      ((result = 0 ∧ ∀ p, ¬ FirstSpot mbi reservations size p) ∨
        FirstSpot mbi reservations size result) := by
  have fresh : AllocOk mbi reservations [] (mmAllocInit ⟨0, used, []⟩) :=
    ⟨⟨by simp, .nil⟩, by simp [mmAllocInit], fun going => absurd rfl going⟩
  obtain ⟨outcome, now, returned, loopOk, served⟩ :=
    mm_alloc_serves steps ram ends pos fresh (fun _ => rfl) safe
  cases served with
  | exhausted ended none =>
      refine ⟨0, now, returned, .inl ⟨rfl, ?_⟩⟩
      rintro p ⟨a, spot, _⟩
      exact none a p spot (.inl rfl)
  | found going spot first =>
      refine ⟨_, _, returned, .inr ⟨now.range, spot, ?_⟩⟩
      intro b q other
      rcases first b q other (.inl rfl) with less | ⟨same, order⟩
      · exact .inl less
      · rw [← same] at order
        exact .inr ⟨same, order⟩

theorem FirstSpot.unique {p q : Nat} (first : FirstSpot mbi reservations size p)
    (second : FirstSpot mbi reservations size q) : p = q := by
  obtain ⟨a, aSpot, aFirst⟩ := first
  obtain ⟨b, bSpot, bFirst⟩ := second
  have := aFirst b q bSpot
  have := bFirst a p aSpot
  omega

end

/-- The state and the blocks handed out after a sequence of safe calls. -/
inductive AllocRun (mbi : Mbi) (reservations : Reservations) :
    List (Nat × Nat) → AllocState → Prop
  | init (used : Nat) : AllocRun mbi reservations [] (mmAllocInit ⟨0, used, []⟩)
  | alloc {blocks : List (Nat × Nat)} {st after : AllocState} {size result : Nat} :
      AllocRun mbi reservations blocks st → 1 ≤ size → SafeCall mbi reservations blocks st size →
      mmAllocAlloc mbi reservations size st = .ok (result, after) →
      AllocRun mbi reservations (if result = 0 then blocks else blocks ++ [(result, size)]) after

theorem alloc_run_ok {mbi : Mbi} {reservations : Reservations} {blocks : List (Nat × Nat)}
    {st : AllocState} (steps : StepsThroughMap mbi) (ram : RamOk mbi)
    (ends : ∀ r ∈ reservations, r.start + r.size < 2 ^ 32)
    (run : AllocRun mbi reservations blocks st) :
    AllocOk mbi reservations blocks st := by
  induction run with
  | init used => exact ⟨⟨by simp, .nil⟩, by simp [mmAllocInit], fun going => absurd rfl going⟩
  | alloc _ pos safe returned ih =>
      obtain ⟨result, after, same, ok⟩ := mm_alloc_alloc_ok steps ram ends pos ih safe
      rw [returned] at same
      cases same
      exact ok

/-- The allocator hands out RAM below 4 GiB that is neither reserved nor handed
out before, and looks only at entries of the map. -/
theorem mm_alloc_never_reuses {mbi : Mbi} {reservations : Reservations}
    {blocks : List (Nat × Nat)} {st : AllocState} (steps : StepsThroughMap mbi) (ram : RamOk mbi)
    (ends : ∀ r ∈ reservations, r.start + r.size < 2 ^ 32)
    (run : AllocRun mbi reservations blocks st) :
    (∀ block ∈ blocks, (∃ a, BlockIn mbi a block.1 block.2) ∧ block.1 + block.2 ≤ 2 ^ 32 ∧
      Unreserved reservations block.1 block.2) ∧
    (blocks.Pairwise fun x y => x.1 + x.2 ≤ y.1 ∨ y.1 + y.2 ≤ x.1) ∧
    ∀ a ∈ st.inspected, rangeInMap mbi a = true := by
  have ok := alloc_run_ok steps ram ends run
  exact ⟨ok.handedOut.inside, ok.handedOut.apart, ok.inspected⟩

/-- A map with one RAM range of 1 MiB at 1 MiB; entries take 24 bytes. -/
def oneRange : Mbi where
  mmapAddr := 0x9000
  mmapLength := 24
  entryAt a := if a = 0x9000 then ⟨0x100000, 0x100000, true⟩ else ⟨0, 0, false⟩
  first := 0x9000
  next a := a + 24

theorem one_range_entry {a : Nat} (entry : IsEntry oneRange a) : a = 0x9000 := by
  obtain ⟨k, rfl, inside⟩ := entry
  cases k with
  | zero => rfl
  | succ k =>
      exact absurd (inside 1 (by omega)) (by decide)

theorem one_range_steps : StepsThroughMap oneRange := by
  refine ⟨by decide, by decide, rfl, ?_⟩
  intro a _
  exact Nat.lt_add_of_pos_right (by decide)

theorem one_range_ram : RamOk oneRange := by
  constructor
  · intro a entry _
    rw [one_range_entry entry]
    decide
  · intro a b aEntry bEntry differ
    rw [one_range_entry aEntry, one_range_entry bEntry] at differ
    exact absurd rfl differ

/-- No position in the range is near 4 GiB. -/
theorem one_range_tries {reservations : Reservations} {st : AllocState} {a p size : Nat}
    (tries : Tries oneRange reservations size st a p) : p ≤ 0x200000 := by
  have low : (oneRange.entryAt a).addr + (oneRange.entryAt a).size ≤ 0x200000 := by
    unfold oneRange
    simp only
    split_ifs <;> decide
  cases tries with
  | here _ fits => omega
  | enter => omega
  | behind => omega

/-- Two calls; the first page of the range and a page behind it are reserved, so
that the second block goes behind the second reservation. -/
theorem mm_alloc_never_reuses_one_range :
    ∃ st, AllocRun oneRange [⟨0x100000, 0x1000⟩, ⟨0x103000, 0x1000⟩]
        [(0x101000, 0x1800), (0x104000, 0x1000)] st ∧
      (∀ block ∈ [(0x101000, 0x1800), (0x104000, 0x1000)],
        (∃ a, BlockIn oneRange a block.1 block.2) ∧ block.1 + block.2 ≤ 2 ^ 32 ∧
          Unreserved [⟨0x100000, 0x1000⟩, ⟨0x103000, 0x1000⟩] block.1 block.2) ∧
      [(0x101000, 0x1800), (0x104000, 0x1000)].Pairwise
        (fun x y : Nat × Nat => x.1 + x.2 ≤ y.1 ∨ y.1 + y.2 ≤ x.1) ∧
      ∀ a ∈ st.inspected, rangeInMap oneRange a = true := by
  have steps := one_range_steps
  have entry : IsEntry oneRange 0x9000 := first_entry steps (by decide)
  have first : SafeCall oneRange [⟨0x100000, 0x1000⟩, ⟨0x103000, 0x1000⟩] []
      (mmAllocInit ⟨0, 0, []⟩) 0x1800 := by
    refine ⟨⟨fun _ => by decide, .inl ⟨0x9000, 0x101000, ⟨entry, rfl, by decide, by decide⟩,
      by decide, by unfold Apart; decide, .inl (by decide)⟩, ?_⟩, fun _ => rfl, ?_⟩
    · intro a p tries atTop
      have := one_range_tries tries
      omega
    · intro a p tries atTop
      have := one_range_tries tries
      omega
  have second : SafeCall oneRange [⟨0x100000, 0x1000⟩, ⟨0x103000, 0x1000⟩] [(0x101000, 0x1800)]
      ⟨0x9000, 0x2800, [0x9000]⟩ 0x1000 := by
    refine ⟨⟨fun beyond => absurd beyond (by decide), .inl ⟨0x9000, 0x104000,
      ⟨entry, rfl, by decide, by decide⟩, by decide, by unfold Apart; decide,
      .inr ⟨rfl, by decide⟩⟩, ?_⟩, fun beyond => absurd beyond (by decide), ?_⟩
    · intro a p tries atTop
      have := one_range_tries tries
      omega
    · intro a p tries atTop
      have := one_range_tries tries
      omega
  have ran : mmAllocAlloc oneRange [⟨0x100000, 0x1000⟩, ⟨0x103000, 0x1000⟩] 0x1800
      (mmAllocInit ⟨0, 0, []⟩) = .ok (0x101000, ⟨0x9000, 0x2800, [0x9000]⟩) := by decide +kernel
  have ranAgain : mmAllocAlloc oneRange [⟨0x100000, 0x1000⟩, ⟨0x103000, 0x1000⟩] 0x1000
      ⟨0x9000, 0x2800, [0x9000]⟩ = .ok (0x104000, ⟨0x9000, 0x5000, [0x9000]⟩) := by decide +kernel
  have one : AllocRun oneRange [⟨0x100000, 0x1000⟩, ⟨0x103000, 0x1000⟩] [(0x101000, 0x1800)]
      ⟨0x9000, 0x2800, [0x9000]⟩ := .alloc (.init 0) (by decide) first ran
  have two : AllocRun oneRange [⟨0x100000, 0x1000⟩, ⟨0x103000, 0x1000⟩]
      [(0x101000, 0x1800), (0x104000, 0x1000)] ⟨0x9000, 0x5000, [0x9000]⟩ :=
    .alloc one (by decide) second ranAgain
  exact ⟨_, two, mm_alloc_never_reuses steps one_range_ram (by decide) two⟩

/-- A request that cannot be served makes the allocator look behind the end of
the map, and the request after it gets memory that was handed out before. -/
theorem mm_alloc_reuses :
    ∃ st₁ st₂ st₃,
      mmAllocAlloc oneRange [] 0x80000 (mmAllocInit ⟨0, 0, []⟩) = .ok (0x100000, st₁) ∧
      mmAllocAlloc oneRange [] 0x200000 st₁ = .ok (0, st₂) ∧
      mmAllocAlloc oneRange [] 0x1000 st₂ = .ok (0x100000, st₃) ∧
      0x9018 ∈ st₂.inspected ∧ rangeInMap oneRange 0x9018 = false := by
  refine ⟨⟨0x9000, 0x80000, [0x9000]⟩, ⟨0, 0, [0x9018, 0x9000]⟩,
    ⟨0x9000, 0x1000, [0x9000, 0x9018, 0x9000]⟩, ?_, ?_, ?_, by decide, by decide⟩
  · decide +kernel
  · decide +kernel
  · decide +kernel

end Boot32

end L4Bootstrap
