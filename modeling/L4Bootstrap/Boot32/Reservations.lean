import L4Bootstrap.Support

/-!
# The reservation map of boot32

`reservation_add` and `overlaps_reservation` of `boot32/support.c`, in the 32-bit
arithmetic of that program. The map is the used part of the table. Reserving
never loses a page as long as a range ends below 4 GiB, does not get merged into
an entry that begins where it ends, and does not pull down the begin of the last
entry of a full table.
-/

namespace L4Bootstrap

namespace Boot32

open MachineWord CheckedLoop

set_option autoImplicit false

/-- The sum of two `unsigned long` of the 32-bit program. -/
def add32 (a b : Nat) : Nat := Wordsize.w32.add a b

def sub32 (a b : Nat) : Nat := Wordsize.w32.sub a b

def isRangeIn4g (start size : Nat) : Bool := size ≤ 2 ^ 32 && start ≤ 2 ^ 32 - size

structure Area where
  start : Nat
  size : Nat
  deriving DecidableEq, Repr

/-- `reservations.entries` up to `reservations.num`. -/
abbrev Reservations := List Area

def maxReservations : Nat := 16

/-- How a new range meets an entry. -/
inductive Hit
  | inside
  | after
  | before
  deriving DecidableEq, Repr

/-- The three tests of `reservation_add`, in their order. -/
def Area.hit (r : Area) (start size : Nat) : Option Hit :=
  if r.start ≤ start ∧ add32 start size ≤ add32 r.start r.size then some .inside
  else if add32 r.start r.size = start then some .after
  else if r.start = add32 start size then some .before
  else none

/-- What a hit does to the entry. -/
def Area.merge (r : Area) (start size : Nat) : Hit → Area
  | .inside => r
  | .after => { r with size := add32 r.size size }
  | .before => { r with start := start }

/-- The loop over the table: the first entry that is hit absorbs the range. -/
def mergeInto (start size : Nat) : Reservations → Option Reservations
  | [] => none
  | r :: rest =>
      match r.hit start size with
      | some hit => some (r.merge start size hit :: rest)
      | none => (mergeInto start size rest).map (r :: ·)

/-- The last entry of a full table grows. -/
def Area.extend (e : Area) (start size : Nat) : Area :=
  let e := if start < e.start then { e with start := start } else e
  if add32 e.start e.size < add32 start size then
    { e with size := sub32 (add32 start size) e.start }
  else e

/-- `_start` and `_size` of `reservation_add`. -/
def pageStart (start : Nat) : Nat := truncPage start

def pageLength (start size : Nat) : Nat :=
  roundPage .w32 (add32 (sub32 start (pageStart start)) size)

def reservationAdd (start size : Nat) (entries : Reservations) : Checked Reservations :=
  let start' := pageStart start
  let size' := pageLength start size
  if !isRangeIn4g start' size' then
    panic "Cannot add reservation that exceeds 32-bit address space"
  else
    match mergeInto start' size' entries with
    | some entries => .ok entries
    | none =>
        if entries.length < maxReservations then .ok (entries ++ [⟨start', size'⟩])
        else .ok (entries.modify (maxReservations - 1) fun e => e.extend start' size')

def overlapsReservation (start size : Nat) : Reservations → Nat
  | [] => 0
  | r :: rest =>
      if r.start < add32 start size ∧ start < add32 r.start r.size then add32 r.start r.size
      else overlapsReservation start size rest

/-! ## What the map stands for -/

/-- An address on a page touched by `size` bytes from `start`. -/
def Touched (start size address : Nat) : Prop :=
  truncPage start ≤ address ∧ address < pageUp (start + size)

def Area.Covers (r : Area) (address : Nat) : Prop :=
  r.start ≤ address ∧ address < r.start + r.size

def Covered (entries : Reservations) (address : Nat) : Prop :=
  ∃ r ∈ entries, r.Covers address

/-- The range that `reservation_add` works with, for a range that ends below
4 GiB. -/
theorem page_range {start size : Nat} (below : pageUp (start + size) < 2 ^ 32) :
    pageStart start + pageLength start size = pageUp (start + size) := by
  have startLe : truncPage start ≤ start := trunc_size_le pageShift start
  have aligned : 2 ^ pageShift ∣ truncPage start := dvd_trunc_size pageShift start
  have sumLe : start + size ≤ pageUp (start + size) := le_round_up pageShift _
  have modulus : Wordsize.w32.modulus = 2 ^ 32 := rfl
  have split : truncPage start + (start - truncPage start + size) = start + size := by omega
  have pages : pageUp (start + size) = truncPage start + pageUp (start - truncPage start + size) := by
    rw [← split]
    exact round_up_add aligned
  have inner : add32 (sub32 start (pageStart start)) size = start - truncPage start + size := by
    rw [add32, sub32, pageStart, Wordsize.w32.sub_of_le startLe (by omega),
      Wordsize.w32.add_of_lt (by omega)]
  rw [pageStart, pageLength, inner, round_page_eq .w32 (by omega), pages]

theorem covered_append {front back : Reservations} {r : Area} {address : Nat} :
    Covered (front ++ r :: back) address ↔ r.Covers address ∨ Covered (front ++ back) address := by
  unfold Covered
  constructor
  · rintro ⟨o, member, covers⟩
    rcases List.mem_append.mp member with inFront | inTail
    · exact .inr ⟨o, by simp [inFront], covers⟩
    · rcases List.mem_cons.mp inTail with rfl | inBack
      · exact .inl covers
      · exact .inr ⟨o, by simp [inBack], covers⟩
  · rintro (covers | ⟨o, member, covers⟩)
    · exact ⟨r, by simp, covers⟩
    · rcases List.mem_append.mp member with inFront | inBack
      · exact ⟨o, by simp [inFront], covers⟩
      · exact ⟨o, by simp [inBack], covers⟩

/-! ## One step -/

/-- No entry is empty and none reaches the end of the address space. -/
def Area.Sane (r : Area) : Prop := 0 < r.size ∧ r.start + r.size < 2 ^ 32

structure TableOk (entries : Reservations) : Prop where
  sane : ∀ r ∈ entries, r.Sane
  bounded : entries.length ≤ maxReservations

/-- The first entry, in table order, that the range hits. -/
def firstHit (start size : Nat) (entries : Reservations) : Option Hit :=
  entries.findSome? fun r => r.hit start size

/-- The calls that keep everything reserved. -/
structure SafeStep (entries : Reservations) (start size : Nat) : Prop where
  below : pageUp (start + size) < 2 ^ 32
  notBefore : firstHit (pageStart start) (pageLength start size) entries ≠ some .before
  last : entries.length = maxReservations →
    firstHit (pageStart start) (pageLength start size) entries = none →
    ∀ e, entries.getLast? = some e →
      e.start ≤ pageStart start ∨ e.start + e.size ≤ pageStart start + pageLength start size

theorem add32_of_lt {a b : Nat} (fits : a + b < 2 ^ 32) : add32 a b = a + b :=
  Wordsize.w32.add_of_lt fits

theorem merge_into_some {start size : Nat} {entries merged : Reservations}
    (found : mergeInto start size entries = some merged) :
    ∃ front r back hit, entries = front ++ r :: back ∧
      merged = front ++ r.merge start size hit :: back ∧ r.hit start size = some hit ∧
      firstHit start size entries = some hit := by
  induction entries generalizing merged with
  | nil => cases found
  | cons r rest ih =>
      rw [mergeInto] at found
      unfold firstHit
      rw [List.findSome?_cons]
      cases met : r.hit start size with
      | some hit =>
          rw [met] at found
          cases found
          exact ⟨[], r, rest, hit, rfl, rfl, met, rfl⟩
      | none =>
          rw [met] at found
          obtain ⟨tail, foundTail, rfl⟩ := Option.map_eq_some_iff.mp found
          obtain ⟨front, o, back, hit, rfl, rfl, metThere, first⟩ := ih foundTail
          exact ⟨r :: front, o, back, hit, rfl, rfl, metThere, first⟩

theorem merge_into_none {start size : Nat} {entries : Reservations}
    (notFound : mergeInto start size entries = none) : firstHit start size entries = none := by
  induction entries with
  | nil => rfl
  | cons r rest ih =>
      rw [mergeInto] at notFound
      unfold firstHit
      rw [List.findSome?_cons]
      cases met : r.hit start size with
      | some hit =>
          rw [met] at notFound
          cases notFound
      | none =>
          rw [met] at notFound
          exact ih (Option.map_eq_none_iff.mp notFound)

section

variable {r : Area} {start size : Nat} (sane : r.Sane) (below : start + size < 2 ^ 32)

include sane below

/-- Away from the defective branch, a merged entry covers both ranges and
nothing else. -/
theorem merge_covers {hit : Hit} (met : r.hit start size = some hit) (notBefore : hit ≠ .before)
    (pos : 0 < size) :
    (r.merge start size hit).Sane ∧ ∀ address, (r.merge start size hit).Covers address ↔
      r.Covers address ∨ (start ≤ address ∧ address < start + size) := by
  obtain ⟨rPos, rBelow⟩ := sane
  unfold Area.hit at met
  rw [add32_of_lt below, add32_of_lt rBelow] at met
  split_ifs at met with inside after before
  · cases met
    refine ⟨⟨rPos, rBelow⟩, ?_⟩
    intro address
    simp only [Area.merge, Area.Covers]
    omega
  · cases met
    have grown : add32 r.size size = r.size + size := add32_of_lt (by omega)
    refine ⟨⟨?_, ?_⟩, ?_⟩
    · simp only [Area.merge, grown]
      omega
    · simp only [Area.merge, grown]
      omega
    · intro address
      simp only [Area.merge, grown, Area.Covers]
      omega
  · cases met
    exact absurd rfl notBefore

/-- The last entry of a full table covers both ranges after it has grown. -/
theorem extend_covers
    (keeps : r.start ≤ start ∨ r.start + r.size ≤ start + size) (pos : 0 < size) :
    (r.extend start size).Sane ∧ ∀ address,
      r.Covers address ∨ (start ≤ address ∧ address < start + size) →
        (r.extend start size).Covers address := by
  obtain ⟨rPos, rBelow⟩ := sane
  unfold Area.extend Area.Sane Area.Covers
  by_cases pulled : start < r.start
  · have old : add32 start r.size = start + r.size := add32_of_lt (by omega)
    have length : sub32 (start + size) start = size := by
      rw [sub32, Wordsize.w32.sub_of_le (by omega) below, Nat.add_sub_cancel_left]
    simp only [if_pos pulled, old, add32_of_lt below]
    rw [if_pos (by omega), length]
    refine ⟨⟨pos, below⟩, ?_⟩
    intro address
    simp only
    omega
  · simp only [if_neg pulled, add32_of_lt rBelow, add32_of_lt below]
    split_ifs with grows
    · have length : sub32 (start + size) r.start = start + size - r.start :=
        Wordsize.w32.sub_of_le (by omega) below
      simp only [length]
      refine ⟨⟨by omega, by omega⟩, ?_⟩
      intro address
      omega
    · refine ⟨⟨rPos, rBelow⟩, ?_⟩
      intro address
      omega

end

/-- The outcomes of `reservation_add`, for a range that was rounded to `start` and
`size`. -/
theorem reservation_add_cases {start size : Nat} {entries after : Reservations}
    (added : reservationAdd start size entries = .ok after) :
    (∃ front r back hit, entries = front ++ r :: back ∧
      after = front ++ r.merge (pageStart start) (pageLength start size) hit :: back ∧
      r.hit (pageStart start) (pageLength start size) = some hit ∧
      firstHit (pageStart start) (pageLength start size) entries = some hit) ∨
    (firstHit (pageStart start) (pageLength start size) entries = none ∧
      entries.length < maxReservations ∧
      after = entries ++ [⟨pageStart start, pageLength start size⟩]) ∨
    (firstHit (pageStart start) (pageLength start size) entries = none ∧
      maxReservations ≤ entries.length ∧
      after = entries.modify (maxReservations - 1)
        fun e => e.extend (pageStart start) (pageLength start size)) := by
  unfold reservationAdd at added
  cases merged : mergeInto (pageStart start) (pageLength start size) entries with
  | some other =>
      simp only [merged] at added
      split_ifs at added
      · cases added
      · cases added
        exact .inl (merge_into_some merged)
  | none =>
      simp only [merged] at added
      split_ifs at added with _ space
      · cases added
      · cases added
        exact .inr (.inl ⟨merge_into_none merged, space, rfl⟩)
      · cases added
        exact .inr (.inr ⟨merge_into_none merged, Nat.le_of_not_lt space, rfl⟩)

/-- What one call does to the reserved addresses, in terms of a rounded range. -/
structure Reserved (start size : Nat) (entries after : Reservations) : Prop where
  table : TableOk after
  kept : ∀ address, Covered entries address → Covered after address
  added : ∀ address, start ≤ address → address < start + size → Covered after address
  exact : after.length < maxReservations → ∀ address, Covered after address →
    Covered entries address ∨ (start ≤ address ∧ address < start + size)

section

variable {start size : Nat}

theorem reserved_of_merge {front back : Reservations} {r : Area} {hit : Hit}
    (table : TableOk (front ++ r :: back)) (below : start + size < 2 ^ 32) (pos : 0 < size)
    (met : r.hit start size = some hit) (notBefore : hit ≠ .before) :
    Reserved start size (front ++ r :: back) (front ++ r.merge start size hit :: back) := by
  obtain ⟨sane, covers⟩ := merge_covers (table.sane r (by simp)) below met notBefore pos
  have bounded := table.bounded
  rw [List.length_append, List.length_cons] at bounded
  constructor
  · constructor
    · intro o member
      rcases List.mem_append.mp member with inFront | inTail
      · exact table.sane o (by simp [inFront])
      · rcases List.mem_cons.mp inTail with rfl | inBack
        · exact sane
        · exact table.sane o (by simp [inBack])
    · rw [List.length_append, List.length_cons]
      exact bounded
  · intro address
    rw [covered_append, covered_append, covers]
    exact Or.imp_left .inl
  · intro address above less
    rw [covered_append, covers]
    exact .inl (.inr ⟨above, less⟩)
  · intro _ address
    rw [covered_append, covered_append, covers, or_right_comm]
    exact id

theorem reserved_of_new {entries : Reservations} (table : TableOk entries)
    (below : start + size < 2 ^ 32) (pos : 0 < size) (space : entries.length < maxReservations) :
    Reserved start size entries (entries ++ [⟨start, size⟩]) := by
  have split : ∀ address, Covered (entries ++ [⟨start, size⟩]) address ↔
      (start ≤ address ∧ address < start + size) ∨ Covered entries address := by
    intro address
    rw [covered_append, List.append_nil]
    rfl
  constructor
  · constructor
    · intro o member
      rcases List.mem_append.mp member with old | new
      · exact table.sane o old
      · rw [List.mem_singleton.mp new]
        exact ⟨pos, below⟩
    · rw [List.length_append, List.length_singleton]
      exact space
  · intro address covered
    exact (split address).mpr (.inr covered)
  · intro address above less
    exact (split address).mpr (.inl ⟨above, less⟩)
  · intro _ address covered
    exact ((split address).mp covered).symm

theorem reserved_of_extend {front : Reservations} {e : Area}
    (table : TableOk (front ++ [e])) (below : start + size < 2 ^ 32) (pos : 0 < size)
    (full : (front ++ [e]).length = maxReservations)
    (keeps : e.start ≤ start ∨ e.start + e.size ≤ start + size) :
    Reserved start size (front ++ [e]) (front ++ [e.extend start size]) := by
  obtain ⟨sane, covers⟩ := extend_covers (table.sane e (by simp)) below keeps pos
  rw [List.length_append, List.length_singleton] at full
  constructor
  · constructor
    · intro o member
      rcases List.mem_append.mp member with inFront | isLast
      · exact table.sane o (by simp [inFront])
      · rw [List.mem_singleton.mp isLast]
        exact sane
    · rw [List.length_append, List.length_singleton]
      exact full.le
  · intro address
    rw [covered_append, covered_append]
    exact Or.imp_left fun here => covers address (.inl here)
  · intro address above less
    rw [covered_append]
    exact .inl (covers address (.inr ⟨above, less⟩))
  · intro notFull
    rw [List.length_append, List.length_singleton, full] at notFull
    exact absurd notFull (Nat.lt_irrefl _)

end

theorem modify_last {α : Type} (f : α → α) (front : List α) (e : α) :
    (front ++ [e]).modify front.length f = front ++ [f e] := by
  induction front with
  | nil => rfl
  | cons r rest ih =>
      rw [List.cons_append, List.length_cons, List.modify_succ_cons, ih, List.cons_append]

theorem reservation_add_reserved {start size : Nat} {entries after : Reservations}
    (table : TableOk entries) (pos : 1 ≤ size) (safe : SafeStep entries start size)
    (added : reservationAdd start size entries = .ok after) :
    Reserved (pageStart start) (pageLength start size) entries after := by
  have range := page_range safe.below
  have below : pageStart start + pageLength start size < 2 ^ 32 := by
    rw [range]
    exact safe.below
  have lengthPos : 0 < pageLength start size := by
    have startLe : pageStart start ≤ start := trunc_size_le pageShift start
    have sumLe : start + size ≤ pageUp (start + size) := le_round_up pageShift _
    omega
  rcases reservation_add_cases added with
    ⟨front, r, back, hit, rfl, rfl, met, first⟩ | ⟨_, space, rfl⟩ | ⟨noHit, full, rfl⟩
  · apply reserved_of_merge table below lengthPos met
    intro same
    exact safe.notBefore (by rw [first, same])
  · exact reserved_of_new table below lengthPos space
  · have exactly : entries.length = maxReservations := le_antisymm table.bounded full
    rcases List.eq_nil_or_concat entries with none | ⟨front, e, whole⟩
    · rw [none] at exactly
      cases exactly
    · rw [List.concat_eq_append] at whole
      subst whole
      have position : maxReservations - 1 = front.length := by
        rw [← exactly, List.length_append, List.length_singleton, Nat.add_sub_cancel]
      have keeps := safe.last exactly noHit e List.getLast?_concat
      have changed : (front ++ [e]).modify (maxReservations - 1)
          (fun e => e.extend (pageStart start) (pageLength start size)) =
          front ++ [e.extend (pageStart start) (pageLength start size)] := by
        rw [position, modify_last]
      rw [changed]
      exact reserved_of_extend table below lengthPos exactly keeps

/-! ## Queries -/

/-- `overlaps_reservation` is exact about the table for a range that ends below
4 GiB, and for one that ends there if no entry reaches it. -/
def QuerySafe (entries : Reservations) (start size : Nat) : Prop :=
  start + size < 2 ^ 32 ∨ ∀ r ∈ entries, r.start + r.size ≤ start

theorem overlaps_reservation_eq_zero {entries : Reservations} {start size : Nat}
    (sane : ∀ r ∈ entries, r.Sane) (pos : 1 ≤ size)
    (query : QuerySafe entries start size) :
    overlapsReservation start size entries = 0 ↔
      ∀ address, start ≤ address → address < start + size → ¬ Covered entries address := by
  induction entries with
  | nil =>
      constructor
      · rintro _ address _ _ ⟨r, member, _⟩
        cases member
      · intro _
        rfl
  | cons r rest ih =>
      obtain ⟨rPos, rBelow⟩ := sane r (by simp)
      have restQuery : QuerySafe rest start size :=
        query.imp id fun behind o member => behind o (by simp [member])
      have restIff := ih (fun o member => sane o (by simp [member])) restQuery
      have split : ∀ address, Covered (r :: rest) address ↔
          r.Covers address ∨ Covered rest address :=
        fun address => @covered_append [] rest r address
      rw [overlapsReservation, add32_of_lt rBelow]
      split_ifs with meets
      · -- the entry and the range share the higher one of their first bytes
        constructor
        · intro zero
          omega
        · intro disjoint
          have sum : start + size < 2 ^ 32 := by
            rcases query with less | behind
            · exact less
            · have := behind r (by simp)
              omega
          rw [add32_of_lt sum] at meets
          have shared : Covered (r :: rest) (max r.start start) :=
            (split _).mpr (.inl ⟨by omega, by omega⟩)
          exact absurd shared (disjoint _ (by omega) (by omega))
      · have apart : ∀ address, start ≤ address → address < start + size →
            ¬ r.Covers address := by
          rintro address above less ⟨inAbove, inLess⟩
          rcases query with sum | behind
          · rw [add32_of_lt sum] at meets
            omega
          · have := behind r (by simp)
            omega
        rw [restIff]
        constructor
        · intro disjoint address above less
          rw [split]
          rintro (here | later)
          · exact apart address above less here
          · exact disjoint address above less later
        · intro disjoint address above less later
          exact disjoint address above less ((split address).mpr (.inr later))

/-! ## Runs -/

/-- The table after a sequence of safe calls. -/
inductive Reserves : List (Nat × Nat) → Reservations → Prop
  | start : Reserves [] []
  | add {calls : List (Nat × Nat)} {entries after : Reservations} {start size : Nat} :
      Reserves calls entries → 1 ≤ size → start + size ≤ 2 ^ 32 → SafeStep entries start size →
      reservationAdd start size entries = .ok after → Reserves (calls ++ [(start, size)]) after

/-- The invariant of a run: the table is sane, covers every touched page and,
while it is not full, nothing else. -/
structure Remembers (calls : List (Nat × Nat)) (entries : Reservations) : Prop where
  table : TableOk entries
  covers : ∀ call ∈ calls, ∀ address, Touched call.1 call.2 address → Covered entries address
  exact : entries.length < maxReservations → ∀ address, Covered entries address →
    ∃ call ∈ calls, Touched call.1 call.2 address

theorem reservation_add_length {start size : Nat} {entries after : Reservations}
    (added : reservationAdd start size entries = .ok after) : entries.length ≤ after.length := by
  rcases reservation_add_cases added with
    ⟨front, r, back, hit, rfl, rfl, _, _⟩ | ⟨_, _, rfl⟩ | ⟨_, _, rfl⟩
  · simp
  · simp
  · simp

theorem touched_iff {start size address : Nat} (below : pageUp (start + size) < 2 ^ 32) :
    Touched start size address ↔
      pageStart start ≤ address ∧ address < pageStart start + pageLength start size := by
  rw [page_range below]
  rfl

theorem reserves_remembers {calls : List (Nat × Nat)} {entries : Reservations}
    (run : Reserves calls entries) : Remembers calls entries := by
  induction run with
  | start =>
      refine ⟨⟨by simp, by simp⟩, by simp, ?_⟩
      rintro _ address ⟨r, member, _⟩
      cases member
  | @add calls entries after start size _ pos _ safe added ih =>
      have reserved := reservation_add_reserved ih.table pos safe added
      have touched : ∀ address, Touched start size address ↔ pageStart start ≤ address ∧
          address < pageStart start + pageLength start size := fun address => touched_iff safe.below
      refine ⟨reserved.table, ?_, ?_⟩
      · intro call member address isTouched
        rcases List.mem_append.mp member with old | new
        · exact reserved.kept address (ih.covers call old address isTouched)
        · rw [List.mem_singleton.mp new] at isTouched
          obtain ⟨above, less⟩ := (touched address).mp isTouched
          exact reserved.added address above less
      · intro notFull address covered
        rcases reserved.exact notFull address covered with old | new
        · have length := reservation_add_length added
          obtain ⟨call, member, isTouched⟩ := ih.exact (length.trans_lt notFull) address old
          exact ⟨call, by simp [member], isTouched⟩
        · exact ⟨(start, size), by simp, (touched address).mpr new⟩

/-- The map never forgets memory, and its answers are right. -/
theorem reservations_never_forget {calls : List (Nat × Nat)} {entries : Reservations}
    (run : Reserves calls entries) :
    (∀ call ∈ calls, ∀ address, Touched call.1 call.2 address → Covered entries address) ∧
    ∀ start size, 1 ≤ size → start + size ≤ 2 ^ 32 → QuerySafe entries start size →
      (overlapsReservation start size entries = 0 → ∀ call ∈ calls, ∀ address, start ≤ address →
        address < start + size → ¬ Touched call.1 call.2 address) ∧
      (entries.length < maxReservations → (∀ call ∈ calls, ∀ address, start ≤ address →
        address < start + size → ¬ Touched call.1 call.2 address) →
          overlapsReservation start size entries = 0) := by
  have remembers := reserves_remembers run
  refine ⟨remembers.covers, ?_⟩
  intro start size pos _ query
  have zero := overlaps_reservation_eq_zero remembers.table.sane pos query
  constructor
  · intro free call member address above less isTouched
    exact zero.mp free address above less (remembers.covers call member address isTouched)
  · intro notFull disjoint
    rw [zero]
    intro address above less covered
    obtain ⟨call, member, isTouched⟩ := remembers.exact notFull address covered
    exact disjoint call member address above less isTouched

/-- A range, the range directly behind it, and one that lies inside of both. -/
theorem reservations_never_forget_three_calls :
    (Touched 0x1800 0x1000 0x2fff → Covered [⟨0x1000, 0x3000⟩] 0x2fff) ∧
      overlapsReservation 0x4000 0x1000 [⟨0x1000, 0x3000⟩] = 0 := by
  have safe : ∀ entries start size, pageUp (start + size) < 2 ^ 32 →
      firstHit (pageStart start) (pageLength start size) entries ≠ some .before →
      entries.length ≠ maxReservations → SafeStep entries start size :=
    fun _ _ _ below notBefore notFull => ⟨below, notBefore, fun full => absurd full notFull⟩
  have first : Reserves ([] ++ [(0x1800, 0x1000)]) [⟨0x1000, 0x2000⟩] :=
    .add .start (by decide) (by decide) (safe _ _ _ (by decide) (by decide) (by decide)) rfl
  have second : Reserves (([] ++ [(0x1800, 0x1000)]) ++ [(0x3000, 1)]) [⟨0x1000, 0x3000⟩] :=
    .add first (by decide) (by decide) (safe _ _ _ (by decide) (by decide) (by decide)) rfl
  have third : Reserves ((([] ++ [(0x1800, 0x1000)]) ++ [(0x3000, 1)]) ++ [(0x2abc, 0x10)])
      [⟨0x1000, 0x3000⟩] :=
    .add second (by decide) (by decide) (safe _ _ _ (by decide) (by decide) (by decide)) rfl
  obtain ⟨covers, queries⟩ := reservations_never_forget third
  refine ⟨covers (0x1800, 0x1000) (by simp) 0x2fff, ?_⟩
  apply (queries 0x4000 0x1000 (by decide) (by decide) (.inl (by decide))).2 (by decide)
  intro call member address above less touched
  simp only [List.nil_append, List.cons_append, List.mem_cons, List.not_mem_nil, or_false] at member
  rcases member with rfl | rfl | rfl
  · exact absurd touched.2 (by simp only [show pageUp (0x1800 + 0x1000) = 0x3000 by decide]; omega)
  · exact absurd touched.2 (by simp only [show pageUp (0x3000 + 1) = 0x4000 by decide]; omega)
  · exact absurd touched.2 (by simp only [show pageUp (0x2abc + 0x10) = 0x3000 by decide]; omega)

/-- A range directly before an entry takes over the begin of the entry but not
its end: the last page of the first call is lost. A query that ends at 4 GiB is
answered with 0 whatever is reserved. -/
theorem reservation_before_forgets :
    ∃ first second, reservationAdd 0x3000 0x2000 [] = .ok first ∧
      reservationAdd 0x2000 0x1000 first = .ok second ∧
      Touched 0x3000 0x2000 0x4000 ∧ ¬ Covered second 0x4000 ∧
      overlapsReservation 0x4000 0x1000 second = 0 ∧
      Covered second 0x3000 ∧ overlapsReservation 0x3000 (2 ^ 32 - 0x3000) second = 0 := by
  refine ⟨_, _, rfl, rfl, by unfold Touched; decide, ?_, by decide, ?_, by decide⟩
  · rintro ⟨r, member, covers⟩
    rw [List.mem_singleton.mp member] at covers
    revert covers
    unfold Area.Covers
    decide
  · refine ⟨_, List.mem_singleton.mpr rfl, ?_⟩
    unfold Area.Covers
    decide

end Boot32

end L4Bootstrap
