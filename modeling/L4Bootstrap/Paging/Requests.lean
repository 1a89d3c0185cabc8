import L4Bootstrap.Paging.Mapping

/-!
# Runs of mapping requests

The tables that identity requests build from an empty PML4 stay well formed, and
each request maps its pages and nothing else, as long as it does not start in
the middle of a large page that it leaves again: there the cursor is moved by a
whole large page, and the pages behind that large page are skipped.
-/

namespace L4Bootstrap

open MachineWord CheckedLoop FlagWord

set_option autoImplicit false

namespace Paging

/-- A request for at least two bytes below the 48th bit. -/
structure Request (la size : Nat) : Prop where
  two : 2 ≤ size
  inside : la + size ≤ 2 ^ 48

/-- The first page of the request does not lie behind the start of an existing
leaf that ends before the request. -/
def ClearStart (s : Tables) (pml4 la size : Nat) : Prop :=
  Clear s 3 pml4 (truncPage la) (pageUp (la + size) - truncPage la)

/-- What a request is to do. -/
structure MapsExactly (s t : Tables) (pml4 la size : Nat) : Prop where
  mapped : ∀ x, truncPage la ≤ x → x < pageUp (la + size) → translate t 3 pml4 x = some x
  kept : ∀ x < 2 ^ 48, ∀ y, translate s 3 pml4 x = some y → translate t 3 pml4 x = some y
  noMore : ∀ x < 2 ^ 48, ¬ (truncPage la ≤ x ∧ x < pageUp (la + size)) →
    translate s 3 pml4 x = none → translate t 3 pml4 x = none

/-- The tables behind identity requests with a clear start. -/
inductive Reached (cpu : CpuInfo) (alloc : Nat → Option Nat) (pml4 : Nat) : Tables → Prop
  | empty : Reached cpu alloc pml4 emptyTables
  | map {s t : Tables} {mappingBits la size : Nat} (earlier : Reached cpu alloc pml4 s)
      (flags : Flags mappingBits) (request : Request la size) (clear : ClearStart s pml4 la size)
      (done : ptabMapRange cpu alloc mappingBits pml4 la la size s = .ok t) :
      Reached cpu alloc pml4 t

variable {cpu : CpuInfo} {alloc : Nat → Option Nat} {pml4 : Nat}

/-- Formed tables translate every address to itself. -/
theorem translate_identity {s : Tables} {place : Nat → Place} (formed : Formed cpu alloc s place)
    {level table x y : Nat} (isTable : IsTable alloc s table)
    (isLevel : (place table).level = level) (covers : (place table).Covers x)
    (translated : translate s level table x = some y) : y = x := by
  induction level generalizing table with
  | zero =>
      cases formed_entry formed isTable isLevel covers with
      | free invalid =>
          rw [translate_eq, invalid] at translated
          cases translated
      | leaf valid isLeaf allowed address =>
          rw [translate_leaf valid isLeaf address] at translated
          exact (Option.some.inj translated).symm
      | link next valid noLeaf address nextTable nextLevel => omega
  | succ level ih =>
      cases formed_entry formed isTable isLevel covers with
      | free invalid =>
          rw [translate_eq, invalid] at translated
          cases translated
      | leaf valid isLeaf allowed address =>
          rw [translate_leaf valid isLeaf address] at translated
          exact (Option.some.inj translated).symm
      | link next valid noLeaf address nextTable nextLevel nextBase =>
          rw [(translate_link valid noLeaf address).1] at translated
          exact ih nextTable (Nat.succ_injective nextLevel) (covers_of_entry nextLevel nextBase rfl)
            translated

/-- The invariant of a run. -/
structure Rooted (cpu : CpuInfo) (alloc : Nat → Option Nat) (pml4 : Nat) (s : Tables)
    (place : Nat → Place) : Prop where
  formed : Formed cpu alloc s place
  root : IsTable alloc s pml4
  place : place pml4 = ⟨3, 0⟩

theorem empty_rooted (root : alloc 0 = some pml4) :
    Rooted cpu alloc pml4 emptyTables fun _ => ⟨3, 0⟩ := by
  refine ⟨⟨fun _ _ => Nat.dvd_zero _, fun _ _ => by decide, ?_⟩, ⟨0, by decide, root⟩, rfl⟩
  intro table _ index _ valid
  change isValid 0 = true at valid
  exact absurd valid (by decide)

theorem rooted_covers {s : Tables} {place : Nat → Place} (rooted : Rooted cpu alloc pml4 s place)
    {x : Nat} (inside : x < 2 ^ 48) : (place pml4).Covers x := by
  rw [rooted.place]
  exact ⟨Nat.zero_le x, by rw [Nat.zero_add, ptab_size_eq]; exact inside⟩

/-- The page-aligned range of the request. -/
theorem request_pages {la size : Nat} (request : Request la size) :
    roundPage .w64 (Wordsize.w64.add (Wordsize.w64.sub la (truncPage la)) size) =
        pageUp (la + size) - truncPage la ∧
      Cursor.Ready ⟨truncPage la, truncPage la, pageUp (la + size) - truncPage la⟩ := by
  obtain ⟨two, inside⟩ := request
  have modulus : Wordsize.w64.modulus = 2 ^ 64 := rfl
  have low := trunc_size_le pageShift la
  have high := le_round_up pageShift (la + size)
  have aligned := dvd_trunc_size pageShift la
  have roundAligned := dvd_round_up pageShift (la + size)
  have top : roundUp pageShift (la + size) ≤ 2 ^ 48 := round_up_le (by decide) inside
  have parts : la + size = truncSize pageShift la + (la - truncSize pageShift la + size) := by omega
  have shifted : roundUp pageShift (la + size) =
      truncSize pageShift la + roundUp pageShift (la - truncSize pageShift la + size) := by
    rw [← round_up_add aligned, ← parts]
  unfold truncPage pageUp
  constructor
  · rw [Wordsize.w64.sub_of_le low (by omega), Wordsize.w64.add_of_lt (by omega), roundPage,
      Wordsize.w64.round_size_eq (page_shift_le_bits _) (by omega)]
    omega
  · exact ⟨rfl, aligned, Nat.dvd_sub roundAligned aligned, by simp only; omega, by simp only; omega⟩

theorem ptab_map_range_outcome {s : Tables} {place : Nat → Place} (allocator : Allocator alloc)
    (rooted : Rooted cpu alloc pml4 s place) {mappingBits la size : Nat}
    (flags : Flags mappingBits) (request : Request la size) (clear : ClearStart s pml4 la size) :
    ptabMapRange cpu alloc mappingBits pml4 la la size s = panic "Cannot allocate page table" ∨
      ∃ t newPlace, ptabMapRange cpu alloc mappingBits pml4 la la size s = .ok t ∧
        Rooted cpu alloc pml4 t newPlace ∧ MapsExactly s t pml4 la size := by
  obtain ⟨pages, ready⟩ := request_pages request
  have modulus : Wordsize.w64.modulus = 2 ^ 64 := rfl
  have two := request.two
  have inside := request.inside
  have nonempty : require (size ≠ 0) = .ok () := if_pos (by omega)
  have noWrap : require (la < Wordsize.w64.sub (Wordsize.w64.add la size) 1) = .ok () := by
    rw [Wordsize.w64.add_of_lt (by omega), Wordsize.w64.sub_of_le (by omega) (by omega)]
    exact if_pos (by omega)
  have low := trunc_size_le pageShift la
  have isLevel : (place pml4).level = 3 := by rw [rooted.place]
  have covers : (place pml4).Covers (truncPage la) :=
    rooted_covers rooted (by unfold truncPage; omega)
  have outcome := ptab_map_level_outcome allocator flags 3 pml4 _ s place rooted.formed rooted.root
    isLevel ready covers clear
  unfold ptabMapRange
  simp only [nonempty, noWrap, ok_bind, pages]
  rcases outcome with exhausted | ⟨next, t, newPlace, done, change, _, mapped⟩
  · left
    simp only [exhausted, panic, error_bind]
  right
  refine ⟨t, newPlace, by simp only [done, ok_bind], ?_, ?_⟩
  · obtain ⟨root, samePlace⟩ := change.tables pml4 rooted.root
    exact ⟨change.formed, root, by rw [samePlace, rooted.place]⟩
  · have effect : ∀ x < 2 ^ 48, translate t 3 pml4 x =
        if truncPage la ≤ x ∧ x < pageUp (la + size) then some x else translate s 3 pml4 x := by
      intro x below
      have here := mapped x (rooted_covers rooted below)
      rw [rooted.place] at here
      rw [here]
      apply if_congr _ rfl rfl
      have high := le_round_up pageShift (la + size)
      have size48 : (0 : Nat) + ptabSize (3 + 1) = 2 ^ 48 := by decide
      unfold truncPage pageUp
      simp only [size48]
      omega
    have top : pageUp (la + size) ≤ 2 ^ 48 := round_up_le (by decide) inside
    constructor
    · intro x lower upper
      rw [effect x (by omega), if_pos ⟨lower, upper⟩]
    · intro x below y translated
      obtain rfl : y = x :=
        translate_identity rooted.formed rooted.root isLevel (rooted_covers rooted below) translated
      rw [effect y below, translated, ite_self]
    · intro x below outside unmapped
      rw [effect x below, if_neg outside, unmapped]

theorem reached_rooted {s : Tables} (allocator : Allocator alloc) (root : alloc 0 = some pml4)
    (reached : Reached cpu alloc pml4 s) : ∃ place, Rooted cpu alloc pml4 s place := by
  induction reached with
  | empty => exact ⟨_, empty_rooted root⟩
  | map earlier flags request clear done ih =>
      obtain ⟨place, rooted⟩ := ih
      rcases ptab_map_range_outcome allocator rooted flags request clear with
        exhausted | ⟨t, newPlace, made, newRooted, _⟩
      · rw [exhausted] at done
        cases done
      · rw [made] at done
        cases done
        exact ⟨newPlace, newRooted⟩

/-- In every run of requests with a clear start, each of them maps exactly its
pages. -/
theorem ptab_map_range_exact {s : Tables} (allocator : Allocator alloc) (root : alloc 0 = some pml4)
    (reached : Reached cpu alloc pml4 s) {mappingBits la size : Nat} (flags : Flags mappingBits)
    (request : Request la size) (clear : ClearStart s pml4 la size) :
    ptabMapRange cpu alloc mappingBits pml4 la la size s = panic "Cannot allocate page table" ∨
      ∃ t, ptabMapRange cpu alloc mappingBits pml4 la la size s = .ok t ∧
        MapsExactly s t pml4 la size := by
  obtain ⟨place, rooted⟩ := reached_rooted allocator root reached
  rcases ptab_map_range_outcome allocator rooted flags request clear with
    exhausted | ⟨t, _, made, _, exact⟩
  · exact .inl exhausted
  · exact .inr ⟨t, made, exact⟩

/-- The pool of `boot_cpu.c`, at some address. -/
def samplePool (k : Nat) : Option Nat := if k < 6 then some (0x100000 + k * 0x1000) else none

theorem sample_pool_allocator : Allocator samplePool := by
  constructor
  · intro i j page first second
    unfold samplePool at first second
    split_ifs at first second
    simp only [Option.some.injEq] at first second
    omega
  · intro k page isPage
    unfold samplePool at isPage
    split_ifs at isPage
    simp only [Option.some.injEq] at isPage
    exact ⟨0x100 + k, by omega⟩
  · intro k page isPage
    unfold samplePool at isPage
    split_ifs at isPage
    simp only [Option.some.injEq] at isPage
    omega

/-- A processor with 2 MiB pages. -/
def sampleCpu : CpuInfo := ⟨cpufPse, 0⟩

theorem write_user_flags : Flags (ptabWrite ||| ptabUser) := ⟨by decide, by decide⟩

theorem ptab_map_range_exact_empty :
    ∃ t, ptabMapRange sampleCpu samplePool (ptabWrite ||| ptabUser) 0x100000 0x3000 0x3000 0x600000
        emptyTables = .ok t ∧ MapsExactly emptyTables t 0x100000 0x3000 0x600000 := by
  have clear : ClearStart emptyTables 0x100000 0x3000 0x600000 := by
    intro found isFound
    have noLeaf : leafLevel emptyTables 3 0x100000 (truncPage 0x3000) = none := by decide
    rw [noLeaf] at isFound
    cases isFound
  apply (ptab_map_range_exact sample_pool_allocator rfl .empty write_user_flags
    ⟨by decide, by decide⟩ clear).resolve_left
  intro exhausted
  have returns : (ptabMapRange sampleCpu samplePool (ptabWrite ||| ptabUser) 0x100000 0x3000 0x3000
      0x600000 emptyTables).isOk = true := by
    decide +kernel
  rw [exhausted] at returns
  cases returns

/-- A large page at 0, then a request from its second page to the page behind
it. -/
def requestInLargePage : Checked (Option Nat) := do
  let s ← ptabMapRange sampleCpu samplePool (ptabWrite ||| ptabUser) 0x100000 0 0 0x200000
    emptyTables
  let t ← ptabMapRange sampleCpu samplePool (ptabWrite ||| ptabUser) 0x100000 0x1000 0x1000
    0x200000 s
  .ok (translate t 3 0x100000 0x200000)

theorem page_behind_large_page_is_not_mapped :
    Request 0 0x200000 ∧ Request 0x1000 0x200000 ∧ ∃ s t,
      ptabMapRange sampleCpu samplePool (ptabWrite ||| ptabUser) 0x100000 0 0 0x200000
          emptyTables = .ok s ∧
        ptabMapRange sampleCpu samplePool (ptabWrite ||| ptabUser) 0x100000 0x1000 0x1000 0x200000
          s = .ok t ∧
        truncPage 0x1000 ≤ 0x200000 ∧ 0x200000 < pageUp (0x1000 + 0x200000) ∧
        translate t 3 0x100000 0x200000 = none := by
  have run : requestInLargePage = .ok none := by decide +kernel
  obtain ⟨s, first, run⟩ := bind_ok_iff.mp run
  obtain ⟨t, second, run⟩ := bind_ok_iff.mp run
  exact ⟨⟨by decide, by decide⟩, ⟨by decide, by decide⟩, s, t, first, second, by decide, by decide,
    Except.ok.inj run⟩

end Paging

end L4Bootstrap
