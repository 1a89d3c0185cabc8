import L4Bootstrap.Paging.Requests

/-!
# How many tables a request needs

On a processor with 2 MiB pages a request for whole large pages from address 0 takes one
PDPT and at most one page directory for each GiB, on top of the PML4. With so many pages
at hand it does not fail.
-/

namespace L4Bootstrap

open MachineWord CheckedLoop FlagWord

set_option autoImplicit false

namespace Paging

/-- Whole pages of 2 MiB. -/
structure Cursor.Large (c : Cursor) : Prop where
  ready : c.Ready
  aligned : ptabSize 1 ∣ c.la
  pages : ptabSize 1 ∣ c.size

/-- The entries of the table from an index on are empty. -/
def FreeFrom (s : Tables) (table index : Nat) : Prop := ∀ i, index ≤ i → s.entry table i = 0

/-- The number of GiB that are begun. -/
def gibs (size : Nat) : Nat := (size + (2 ^ 30 - 1)) / 2 ^ 30

section

variable {cpu : CpuInfo} {alloc : Nat → Option Nat} {mappingBits level table : Nat}
  {map : Nat → Cursor → Tables → Checked (Cursor × Tables)} {c : Cursor} {s : Tables}

/-! ## One entry -/

/-- An empty entry becomes a leaf. -/
theorem map_entry_leaf (flags : Flags mappingBits) (ready : c.Ready) (small : level ≤ 2)
    (allowed : allowLeaf cpu level = true) (aligned : ptabSize level ∣ c.la)
    (room : ptabSize level ≤ c.size) (free : s.entry table (ptabeIndex level c.la) = 0) :
    mapEntry cpu alloc mappingBits level map table c s =
      .ok (c.advance level, s.write table (ptabeIndex level c.la)
        (c.pa ||| ptabValid ||| mappingBits ||| leafBit level)) := by
  have invalid : isValid (s.entry table (ptabeIndex level c.la)) = false := by
    rw [free]
    rfl
  have inside := ready.inside
  obtain ⟨valid, isLeaf, _⟩ := leaf_entry flags
    (show 2 ^ 12 ∣ c.pa by rw [ready.identity]; exact ready.aligned)
    (show c.pa < 2 ^ 52 by rw [ready.identity]; omega) small
  have written : (s.write table (ptabeIndex level c.la)
      (c.pa ||| ptabValid ||| mappingBits ||| leafBit level)).entry table (ptabeIndex level c.la) =
        c.pa ||| ptabValid ||| mappingBits ||| leafBit level := by
    rw [write_entry, if_pos ⟨rfl, rfl⟩]
  rw [mapEntry]
  simp only [allowed, if_true, map_leaf_free ready invalid, if_pos (And.intro aligned room), written,
    valid, isLeaf, Bool.and_self]

/-- An empty entry that cannot become a leaf gets a new table. -/
theorem map_entry_link (flags : Flags mappingBits) (allocator : Allocator alloc) (ready : c.Ready)
    (pos : 0 < level)
    (noLeaf : ¬ (allowLeaf cpu level = true ∧ ptabSize level ∣ c.la ∧ ptabSize level ≤ c.size))
    (free : s.entry table (ptabeIndex level c.la) = 0) {page : Nat}
    (isPage : alloc s.used = some page) :
    mapEntry cpu alloc mappingBits level map table c s =
      map page c (linked mappingBits s page table (ptabeIndex level c.la)) := by
  have invalid : isValid (s.entry table (ptabeIndex level c.la)) = false := by
    rw [free]
    rfl
  have same : (if allowLeaf cpu level = true then mapLeaf mappingBits level table c s else s) = s := by
    split_ifs with allowed
    · rw [map_leaf_free ready invalid, if_neg fun fits => noLeaf ⟨allowed, fits⟩]
    · rfl
  have address : ((linked mappingBits s page table (ptabeIndex level c.la)).entry table
      (ptabeIndex level c.la) &&& ptabPfn) % Wordsize.w32.modulus = page := by
    rw [linked_entry, if_pos ⟨rfl, rfl⟩, (link_entry flags (allocator.aligned _ _ isPage)
      (allocator.word _ _ isPage) pos).2.2]
    exact Nat.mod_eq_of_lt (allocator.word _ _ isPage)
  have required : require (0 < level) = .ok () := if_pos pos
  rw [mapEntry]
  simp only [same, invalid, Bool.and_false, Bool.false_and, Bool.false_eq_true, if_false, required,
    ok_bind, linkTable, Bool.not_false, if_true, ptabAlloc, isPage]
  change map (((linked mappingBits s page table _).entry table _ &&& ptabPfn) % _) c
    (linked mappingBits s page table _) = _
  rw [address]

/-- The loop of a table: each round leads on inside the table or out of it. -/
theorem map_entries_total (Inv Post : Cursor × Tables → Prop)
    (round : ∀ c s, Inv (c, s) → ∃ next t,
      mapEntry cpu alloc mappingBits level map table c s = .ok (next, t) ∧
        (0 < next.size → ¬ ptabSize (level + 1) ∣ next.la → Inv (next, t) ∧ next.size < c.size) ∧
        (next.size = 0 ∨ ptabSize (level + 1) ∣ next.la → Post (next, t)))
    (start : Inv (c, s)) :
    ∃ next t, mapEntries cpu alloc mappingBits level map table c s = .ok (next, t) ∧
      Post (next, t) := by
  suffices total : ∃ last, mapEntries cpu alloc mappingBits level map table c s = .ok last ∧
      Post last by
    obtain ⟨⟨next, t⟩, done, post⟩ := total
    exact ⟨next, t, done, post⟩
  apply loop_total _ Stop.diverges Inv Post (fun now => now.1.size) _ start
    (Nat.lt_succ_self c.size)
  rintro ⟨c, s⟩ inv
  obtain ⟨next, t, mapped, onward, out⟩ := round c s inv
  simp only [mapped, ok_bind]
  by_cases more : 0 < next.size ∧ ¬ ptabSize (level + 1) ∣ next.la
  · right
    have goesOn : (decide (0 < next.size) && !isPtabAligned (level + 1) next.la) = true := by
      rw [Bool.and_eq_true, decide_eq_true_eq, Bool.not_eq_true', ← Bool.not_eq_true,
        is_ptab_aligned_iff]
      exact more
    rw [if_pos goesOn]
    exact ⟨_, rfl, onward more.1 more.2⟩
  · left
    have ends : ¬ (decide (0 < next.size) && !isPtabAligned (level + 1) next.la) = true := by
      rw [Bool.and_eq_true, decide_eq_true_eq, Bool.not_eq_true', ← Bool.not_eq_true,
        is_ptab_aligned_iff]
      exact more
    rw [if_neg ends]
    refine ⟨_, rfl, out ?_⟩
    by_cases empty : next.size = 0
    · exact .inl empty
    · exact .inr (not_not.mp fun inside => more ⟨Nat.pos_of_ne_zero empty, inside⟩)

/-! ## A page directory -/

theorem ptab_size_literals : ptabSize 1 = 2097152 ∧ ptabSize 2 = 1073741824 ∧
    ptabSize 3 = 549755813888 := by decide

/-- The entry behind that of a large page, in the same directory or not. -/
theorem next_large_page {la : Nat} (aligned : ptabSize 1 ∣ la) :
    la + ptabSize 1 ≤ entryStart 2 la + ptabSize 2 ∧
      (ptabSize 2 ∣ la + ptabSize 1 → la + ptabSize 1 = entryStart 2 la + ptabSize 2) ∧
      (¬ ptabSize 2 ∣ la + ptabSize 1 → entryStart 2 (la + ptabSize 1) = entryStart 2 la ∧
        ptabeIndex 1 (la + ptabSize 1) = ptabeIndex 1 la + 1) := by
  have start : ∀ x, entryStart 2 x = x - x % ptabSize 2 := by
    intro x
    rw [ptab_size_eq]
    rfl
  rw [ptabe_index_eq, ptabe_index_eq, start, start]
  obtain ⟨one, two, _⟩ := ptab_size_literals
  rw [one] at aligned
  rw [one, two]
  refine ⟨?_, ?_, ?_⟩ <;> omega

theorem Cursor.Large.advance (large : c.Large) (more : 0 < (c.advance 1).size) :
    (c.advance 1).Large ∧ (c.advance 1).la = c.la + ptabSize 1 ∧
      (c.advance 1).la + (c.advance 1).size = c.la + c.size := by
  obtain ⟨⟨identity, page, pages, pos, inside⟩, aligned, whole⟩ := large
  have modulus : Wordsize.w64.modulus = 2 ^ 64 := rfl
  obtain ⟨one, _, _⟩ := ptab_size_literals
  have room : ptabSize 1 ≤ c.size := Nat.le_of_dvd pos whole
  have la : (c.advance 1).la = c.la + ptabSize 1 := Wordsize.w64.add_of_lt (by omega)
  have pa : (c.advance 1).pa = c.la + ptabSize 1 := by
    change Wordsize.w64.add c.pa (ptabSize 1) = _
    rw [identity]
    exact la
  have size : (c.advance 1).size = c.size - ptabSize 1 := by
    change c.size - (if ptabSize 1 ≤ c.size then ptabSize 1 else c.size) = _
    rw [if_pos room]
  refine ⟨⟨⟨pa.trans la.symm, ?_, ?_, more, ?_⟩, ?_, ?_⟩, la, ?_⟩
  · omega
  · omega
  · omega
  · rw [la]
    exact Nat.dvd_add aligned dvd_rfl
  · rw [size]
    exact Nat.dvd_sub whole dvd_rfl
  · omega

/-- The loop of a directory: the cursor stands at one of its empty entries. -/
structure InDirectory (s : Tables) (table : Nat) (c : Cursor) (now : Cursor × Tables) : Prop where
  large : now.1.Large
  sum : now.1.la + now.1.size = c.la + c.size
  start : entryStart 2 now.1.la = entryStart 2 c.la
  free : FreeFrom now.2 table (ptabeIndex 1 now.1.la)
  used : now.2.used = s.used
  others : ∀ other, other ≠ table → now.2.entry other = s.entry other

/-- A directory has room for a GiB, and takes no further table. -/
theorem map_directory (pse : allowLeaf cpu 1 = true) (flags : Flags mappingBits) (large : c.Large)
    (free : FreeFrom s table (ptabeIndex 1 c.la)) :
    ∃ next t, mapEntries cpu alloc mappingBits 1 map table c s = .ok (next, t) ∧
      t.used = s.used ∧ (∀ other, other ≠ table → t.entry other = s.entry other) ∧
      (next.size = 0 ∨ next.Large ∧ next.la = entryStart 2 c.la + ptabSize 2 ∧
        next.la + next.size = c.la + c.size) := by
  obtain ⟨one, two, _⟩ := ptab_size_literals
  apply map_entries_total (InDirectory s table c)
    (fun last => last.2.used = s.used ∧
      (∀ other, other ≠ table → last.2.entry other = s.entry other) ∧
      (last.1.size = 0 ∨ last.1.Large ∧ last.1.la = entryStart 2 c.la + ptabSize 2 ∧
        last.1.la + last.1.size = c.la + c.size)) _ ⟨large, rfl, rfl, free, rfl, fun _ _ => rfl⟩
  intro now u inv
  obtain ⟨nowLarge, sum, start, nowFree, used, others⟩ := inv
  simp only at nowLarge sum start nowFree used others ⊢
  have pos := nowLarge.ready.pos
  have room : ptabSize 1 ≤ now.size := Nat.le_of_dvd pos nowLarge.pages
  have othersNext : ∀ other, other ≠ table → (u.write table (ptabeIndex 1 now.la)
      (now.pa ||| ptabValid ||| mappingBits ||| leafBit 1)).entry other = s.entry other := by
    intro other differ
    rw [← others other differ]
    exact Function.update_of_ne differ _ _
  obtain ⟨_, atEnd, inside⟩ := next_large_page nowLarge.aligned
  refine ⟨_, _, map_entry_leaf flags nowLarge.ready (by decide) pse nowLarge.aligned room
    (nowFree _ le_rfl), ?_, ?_⟩
  · intro more notEnd
    obtain ⟨nextLarge, nextLa, nextSum⟩ := nowLarge.advance more
    rw [nextLa] at notEnd
    obtain ⟨sameStart, nextIndex⟩ := inside notEnd
    refine ⟨⟨nextLarge, nextSum.trans sum, ?_, ?_, used, othersNext⟩, by omega⟩
    · rw [nextLa, sameStart, start]
    · intro i above
      rw [nextLa, nextIndex] at above
      rw [write_entry, if_neg (by omega)]
      exact nowFree i (by omega)
  · intro ends
    refine ⟨used, othersNext, ?_⟩
    by_cases more : 0 < (now.advance 1).size
    · obtain ⟨nextLarge, nextLa, nextSum⟩ := nowLarge.advance more
      have aligned := ends.resolve_left more.ne'
      rw [nextLa] at aligned
      exact .inr ⟨nextLarge, by rw [nextLa, atEnd aligned, start], nextSum.trans sum⟩
    · exact .inl (Nat.eq_zero_of_not_pos more)

/-! ## The PDPT -/

/-- There are pages for this number of tables. -/
def Supplies (alloc : Nat → Option Nat) (count : Nat) : Prop := ∀ k < count, ∃ page, alloc k = some page

/-- Behind an entry of the PDPT: all is mapped, or the cursor stands at the next GiB. -/
def NextGib (c next : Cursor) : Prop :=
  next.size = 0 ∨ next.Large ∧ next.la = c.la + ptabSize 2 ∧ next.la + next.size = c.la + c.size

/-- A GiB takes one table at most. -/
theorem map_gib (pse : allowLeaf cpu 1 = true) (flags : Flags mappingBits)
    (allocator : Allocator alloc) (supplies : Supplies alloc (s.used + 1)) (large : c.Large)
    (aligned : ptabSize 2 ∣ c.la) (isTable : IsTable alloc s table)
    (free : s.entry table (ptabeIndex 2 c.la) = 0) :
    ∃ next t, mapEntry cpu alloc mappingBits 2 (ptabMapLevel cpu alloc mappingBits 1) table c s =
        .ok (next, t) ∧ s.used ≤ t.used ∧ t.used ≤ s.used + 1 ∧ NextGib c next ∧
      ∀ i, i ≠ ptabeIndex 2 c.la → t.entry table i = s.entry table i := by
  obtain ⟨one, two, _⟩ := ptab_size_literals
  have modulus : Wordsize.w64.modulus = 2 ^ 64 := rfl
  have inside := large.ready.inside
  by_cases leaf : allowLeaf cpu 2 = true ∧ ptabSize 2 ∣ c.la ∧ ptabSize 2 ≤ c.size
  · obtain ⟨allowed, _, room⟩ := leaf
    refine ⟨_, _, map_entry_leaf flags large.ready le_rfl allowed aligned room free, le_rfl,
      Nat.le_succ _, ?_, ?_⟩
    · have la : (c.advance 2).la = c.la + ptabSize 2 := Wordsize.w64.add_of_lt (by omega)
      have pa : (c.advance 2).pa = c.la + ptabSize 2 := by
        change Wordsize.w64.add c.pa (ptabSize 2) = _
        rw [large.ready.identity]
        exact la
      have size : (c.advance 2).size = c.size - ptabSize 2 := by
        change c.size - (if ptabSize 2 ≤ c.size then ptabSize 2 else c.size) = _
        rw [if_pos room]
      obtain ⟨⟨_, page, pages, _, _⟩, begins, whole⟩ := large
      by_cases more : 0 < (c.advance 2).size
      · refine .inr ⟨⟨⟨pa.trans la.symm, by omega, by omega, more, by omega⟩, ?_, ?_⟩, la, by omega⟩
        · rw [la]
          exact Nat.dvd_add begins (ptab_size_dvd (by decide))
        · rw [size]
          exact Nat.dvd_sub whole (ptab_size_dvd (by decide))
      · exact .inl (Nat.eq_zero_of_not_pos more)
    · intro i differ
      rw [write_entry, if_neg (by omega)]
  · obtain ⟨page, isPage⟩ := supplies s.used (Nat.lt_succ_self _)
    have differ := table_ne_page allocator isPage isTable
    rw [map_entry_link flags allocator large.ready (by decide) leaf free isPage]
    obtain ⟨next, t, done, used, others, moved⟩ := @map_directory cpu alloc mappingBits page
      (ptabMapLevel cpu alloc mappingBits 0) c (linked mappingBits s page table (ptabeIndex 2 c.la))
      pse flags large (by
        intro i _
        rw [linked_entry, if_neg fun same => differ same.1.symm, if_pos rfl])
    refine ⟨next, t, done, ?_, used.le, ?_, ?_⟩
    · rw [used]
      exact Nat.le_succ _
    · have start : entryStart 2 c.la = c.la :=
        entry_start_eq aligned le_rfl (Nat.lt_add_of_pos_right (ptab_size_pos 2))
      rw [start] at moved
      exact moved
    · intro i other
      rw [others table differ, linked_entry, if_neg fun same => other same.2, if_neg differ]

/-- The loop of the PDPT: `limit` tables are enough for what is left. -/
structure InPdpt (alloc : Nat → Option Nat) (table limit : Nat) (now : Cursor × Tables) : Prop where
  large : now.1.Large
  aligned : ptabSize 2 ∣ now.1.la
  inside : now.1.la + now.1.size ≤ ptabSize 3
  isTable : IsTable alloc now.2 table
  free : FreeFrom now.2 table (ptabeIndex 2 now.1.la)
  budget : now.2.used + gibs now.1.size ≤ limit

theorem map_pdpt (pse : allowLeaf cpu 1 = true) (flags : Flags mappingBits)
    (allocator : Allocator alloc) {limit : Nat} (supplies : Supplies alloc limit)
    (start : InPdpt alloc table limit (c, s)) :
    ∃ next t, ptabMapLevel cpu alloc mappingBits 2 table c s = .ok (next, t) ∧
      next.size = 0 ∧ t.used ≤ limit := by
  obtain ⟨one, two, three⟩ := ptab_size_literals
  apply map_entries_total (InPdpt alloc table limit)
    (fun last => last.1.size = 0 ∧ last.2.used ≤ limit) _ start
  intro now u inv
  obtain ⟨large, aligned, inside, isTable, free, budget⟩ := inv
  simp only at large aligned inside isTable free budget ⊢
  have pos := large.ready.pos
  have begun : 1 ≤ gibs now.size := by
    unfold gibs
    omega
  obtain ⟨next, v, mapped, grows, used, moved, others⟩ := map_gib pse flags allocator
    (fun k less => supplies k (by omega)) large aligned isTable (free _ le_rfl)
  refine ⟨next, v, mapped, ?_, ?_⟩
  · intro more _
    obtain ⟨nextLarge, nextLa, sum⟩ := moved.resolve_left more.ne'
    obtain ⟨k, below, isPage⟩ := isTable
    refine ⟨⟨nextLarge, ?_, ?_, ⟨k, below.trans_le grows, isPage⟩, ?_, ?_⟩, by omega⟩
    · rw [nextLa]
      exact Nat.dvd_add aligned dvd_rfl
    · simp only
      omega
    · intro i above
      have index : ptabeIndex 2 next.la = ptabeIndex 2 now.la + 1 := by
        rw [ptabe_index_eq, ptabe_index_eq, nextLa, two]
        omega
      simp only at above ⊢
      rw [others i (by omega)]
      exact free i (by omega)
    · have left : gibs next.size + 1 = gibs now.size := by
        unfold gibs
        omega
      simp only
      omega
  · intro ends
    rcases moved with empty | ⟨nextLarge, nextLa, sum⟩
    · exact ⟨empty, by omega⟩
    · have more := nextLarge.ready.pos
      have atEnd : ptabSize 3 ∣ next.la := ends.resolve_left more.ne'
      have below := Nat.le_of_dvd (by omega) atEnd
      omega

/-! ## The whole request -/

theorem ptab_map_range_tables {pml4 size : Nat} (pse : allowLeaf cpu 1 = true)
    (flags : Flags mappingBits) (allocator : Allocator alloc) (root : alloc 0 = some pml4)
    (supplies : Supplies alloc (2 + gibs size)) (pos : 0 < size) (whole : ptabSize 1 ∣ size)
    (inside : size ≤ ptabSize 3) :
    ∃ t, ptabMapRange cpu alloc mappingBits pml4 0 0 size emptyTables = .ok t ∧
      t.used ≤ 2 + gibs size := by
  obtain ⟨one, two, three⟩ := ptab_size_literals
  have large := Nat.le_of_dvd pos whole
  have modulus : Wordsize.w64.modulus = 2 ^ 64 := rfl
  obtain ⟨pages, ready⟩ := @request_pages 0 size ⟨by omega, by omega⟩
  have zeroPage : truncPage 0 = 0 := by decide
  have round : pageUp (0 + size) = size := by
    rw [Nat.zero_add, pageUp]
    exact round_up_of_dvd ((ptab_size_dvd (Nat.zero_le 1)).trans whole)
  rw [zeroPage, round, Nat.sub_zero] at pages ready
  have large : Cursor.Large ⟨0, 0, size⟩ := ⟨ready, Nat.dvd_zero _, whole⟩
  have nonempty : require (size ≠ 0) = .ok () := if_pos (by omega)
  have noWrap : require (0 < Wordsize.w64.sub (Wordsize.w64.add 0 size) 1) = .ok () := by
    rw [Wordsize.w64.add_of_lt (by omega), Wordsize.w64.sub_of_le (by omega) (by omega)]
    exact if_pos (by omega)
  obtain ⟨page, isPage⟩ := supplies 1 (by unfold gibs; omega)
  have differ : page ≠ pml4 := by
    rintro rfl
    exact absurd (allocator.fresh _ _ _ isPage root) (by decide)
  have start : InPdpt alloc page (2 + gibs size)
      (⟨0, 0, size⟩, linked mappingBits emptyTables page pml4 (ptabeIndex 3 0)) := by
    refine ⟨large, Nat.dvd_zero _, by simp only; omega, ⟨1, Nat.lt_succ_self 1, isPage⟩, ?_, le_rfl⟩
    intro i _
    rw [linked_entry, if_neg fun same => differ same.1, if_pos rfl]
  obtain ⟨next, t, done, empty, used⟩ := @map_pdpt cpu alloc mappingBits page _ _ pse flags
    allocator _ supplies start
  have entry : mapEntry cpu alloc mappingBits 3 (ptabMapLevel cpu alloc mappingBits 2) pml4
      ⟨0, 0, size⟩ emptyTables = .ok (next, t) := by
    rw [@map_entry_link cpu alloc mappingBits 3 pml4 _ _ emptyTables flags allocator large.ready
      (by decide) (fun fits => Bool.false_ne_true fits.1) rfl page isPage]
    exact done
  refine ⟨t, ?_, used⟩
  unfold ptabMapRange
  simp only [nonempty, noWrap, ok_bind, zeroPage, pages]
  rw [ptabMapLevel, mapEntries, loop]
  simp only [entry, ok_bind, empty]
  rfl

end

end Paging

end L4Bootstrap
