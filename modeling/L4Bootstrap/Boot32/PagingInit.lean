import L4Bootstrap.Boot32.MmAlloc
import L4Bootstrap.Boot32.PtabPool
import L4Bootstrap.FillMem
import L4Bootstrap.Paging.TableCount

/-!
# The page tables of boot32

`base_paging_init` of `boot_cpu.c` for the memory that `bootstrap` of `boot_kernel.c` finds.
The pool has a page for each table as long as not more than 4 GiB are mapped, so that the
page behind the pool, which `ptab_alloc` would hand out next, is never asked for.
-/

namespace L4Bootstrap

namespace Boot32

open MachineWord CheckedLoop Paging

set_option autoImplicit false

/-- The page that a call of `ptab_alloc` returns after some others. -/
def PtabPool.pageAt : Nat → PtabPool → Option Nat
  | 0, s =>
      match s.ptabAlloc with
      | .ok (page, _) => some page
      | .error _ => none
  | earlier + 1, s =>
      match s.ptabAlloc with
      | .ok (_, t) => t.pageAt earlier
      | .error _ => none

/-- `base_paging_init` up to `paging_enable`. -/
def basePagingInit (cpu : CpuInfo) (pool : PtabPool) (physMemMax : Nat) : Checked (Nat × Tables) :=
  match pool.pageAt 0 with
  | none => panic "Cannot allocate page table -- increase ptab_alloc::pool"
  | some pml4 => do
      let tables ← ptabMapRange cpu (fun k => pool.pageAt k) (ptabWrite ||| ptabUser) pml4 0 0
        physMemMax emptyTables
      .ok (pml4, tables)

/-- The `l4_uint64_t` in the loop of `find_upper_mem`. -/
def AddrRange.end64 (range : AddrRange) : Nat := Wordsize.w64.add range.addr range.size

def findUpperMem (mmap : List AddrRange) : Nat :=
  mmap.foldl (fun max range => if max < range.end64 && range.memory then range.end64 else max) 0

def roundSuperpage (x : Nat) : Nat := truncSize 21 (Wordsize.w64.add x (2 ^ 21 - 1))

/-- `Max_initial_mem` -/
def maxInitialMem : Nat := 4 <<< 30

/-- `mem_upper` of `bootstrap` as it is printed; the size without a memory map is a product of
32-bit values. -/
def foundUpper (mmap : List AddrRange) (mbiMemUpper : Nat) : Nat :=
  if findUpperMem mmap = 0 then 1024 * (1024 + mbiMemUpper) % 2 ^ 32 else findUpperMem mmap

/-- `mem_upper` of `bootstrap` as it is mapped. -/
def memUpper (mmap : List AddrRange) (mbiMemUpper : Nat) : Nat :=
  let found := foundUpper mmap mbiMemUpper
  roundSuperpage (if maxInitialMem < found then maxInitialMem else found)

/-- `boot32_info.mem_end` -/
def memEnd (mmap : List AddrRange) (mbiMemUpper : Nat) : Nat :=
  Wordsize.w64.sub (memUpper mmap mbiMemUpper) 1

/-! ## The pages of the pool -/

section

variable {s t : PtabPool} {calls : List PtabCall}

theorem page_at_inside (fresh : s.initialized = false)
    (below : s.pool + poolSize + pageSize < 2 ^ 32) (run : PoolRun s calls t) (k : Nat)
    (few : calls.length + k ≤ poolPages) :
    t.pageAt k = some (s.pool + (calls.length + k) * pageSize) := by
  induction k generalizing calls t with
  | zero =>
      obtain ⟨u, returned⟩ := pool_run_page fresh (by omega) run few
      rw [PtabPool.pageAt, returned]
      rfl
  | succ k ih =>
      obtain ⟨u, returned⟩ := pool_run_page fresh (by omega) run (by omega)
      have later := ih (run.call returned) (by rw [List.length_cons]; omega)
      rw [PtabPool.pageAt, returned]
      rw [List.length_cons] at later
      simp only [later, Nat.add_assoc, Nat.add_comm 1 k]

/-- Behind the page behind the pool there are no more pages. -/
theorem page_at_stuck (stuck : t.ptabAlloc =
    panic "Cannot allocate page table -- increase ptab_alloc::pool") (k : Nat) :
    t.pageAt k = none := by
  cases k with
  | zero => rw [PtabPool.pageAt, stuck]; rfl
  | succ k => rw [PtabPool.pageAt, stuck]; rfl

theorem page_at_outside (fresh : s.initialized = false)
    (below : s.pool + poolSize + pageSize < 2 ^ 32) (run : PoolRun s calls t) (k : Nat)
    (few : calls.length ≤ poolPages) (behind : poolPages < calls.length + k) :
    t.pageAt k = none := by
  induction k generalizing calls t with
  | zero => omega
  | succ k ih =>
      obtain ⟨u, returned⟩ := pool_run_page fresh (by omega) run few
      have further : u.pageAt k = none := by
        rcases Nat.lt_or_ge calls.length poolPages with inside | last
        · exact ih (run.call returned) inside (by rw [List.length_cons]; omega)
        · -- this call took the page behind the pool
          obtain ⟨_, _, samePool, isReady, _, next, _⟩ := ptab_alloc_ok returned
          have pool := (pool_run_kept fresh run).pool
          have size : poolSize = 6 * 4096 := rfl
          have isPage : pageSize = 4096 := rfl
          have pages : poolPages = 6 := rfl
          apply page_at_stuck
          have top : add32 u.pool poolSize = s.pool + poolSize := by
            rw [samePool, pool]
            exact Wordsize.w32.add_of_lt (by change _ < 2 ^ 32; omega)
          have pdirs : u.pdirs = s.pool + (calls.length + 1) * pageSize := by
            rw [next, Nat.add_one_mul, ← Nat.add_assoc]
            exact Wordsize.w32.add_of_lt (by rw [isPage]; change _ < 2 ^ 32; omega)
          simp only [PtabPool.ptabAlloc]
          rw [isReady, top, if_pos (by rw [pdirs, isPage]; omega)]
      rw [PtabPool.pageAt, returned]
      exact further

/-- All pages that a fresh pool hands out. -/
theorem page_at_eq (fresh : s.initialized = false)
    (below : s.pool + poolSize + pageSize < 2 ^ 32) (k : Nat) :
    s.pageAt k = if k ≤ poolPages then some (s.pool + k * pageSize) else none := by
  split_ifs with inside
  · have page := page_at_inside fresh below .start k (by rw [List.length_nil]; omega)
    rw [List.length_nil, Nat.zero_add] at page
    exact page
  · exact page_at_outside fresh below .start k (Nat.zero_le _) (by rw [List.length_nil]; omega)

theorem page_at_allocator (fresh : s.initialized = false)
    (below : s.pool + poolSize + pageSize < 2 ^ 32) : Allocator fun k => s.pageAt k := by
  have size : poolSize = 6 * 4096 := rfl
  have isPage : pageSize = 4096 := rfl
  have pages : poolPages = 6 := rfl
  have isSome : ∀ k page, s.pageAt k = some page → k ≤ 6 ∧ page = s.pool + k * 4096 := by
    intro k page found
    rw [page_at_eq fresh below] at found
    split_ifs at found with inside
    exact ⟨inside, (Option.some.inj found).symm⟩
  constructor
  · intro i j page first second
    obtain ⟨_, atFirst⟩ := isSome i page first
    obtain ⟨_, atSecond⟩ := isSome j page second
    omega
  · intro k page found
    obtain ⟨_, rfl⟩ := isSome k page found
    exact Nat.dvd_add s.aligned (Nat.dvd_mul_left _ _)
  · intro k page found
    obtain ⟨inside, rfl⟩ := isSome k page found
    omega

end

/-! ## The memory that is mapped -/

section

variable {mmap : List AddrRange} {mbiMemUpper : Nat}

theorem find_upper_mem_foldl (max : Nat) :
    max ≤ mmap.foldl (fun max range =>
        if max < range.end64 && range.memory then range.end64 else max) max ∧
      ∀ range ∈ mmap, range.memory = true → range.end64 ≤ mmap.foldl (fun max range =>
        if max < range.end64 && range.memory then range.end64 else max) max := by
  induction mmap generalizing max with
  | nil => exact ⟨le_rfl, by simp⟩
  | cons first rest ih =>
      rw [List.foldl_cons]
      obtain ⟨grows, bounds⟩ := ih (if max < first.end64 && first.memory then first.end64 else max)
      have here : max ≤ (if max < first.end64 && first.memory then first.end64 else max) := by
        split_ifs with larger
        · rw [Bool.and_eq_true, decide_eq_true_eq] at larger
          exact larger.1.le
        · exact le_rfl
      refine ⟨here.trans grows, ?_⟩
      intro range member memory
      rcases List.mem_cons.mp member with rfl | later
      · apply le_trans _ grows
        split_ifs with larger
        · exact le_rfl
        · rw [memory, Bool.and_true, decide_eq_true_eq] at larger
          exact Nat.le_of_not_lt larger
      · exact bounds range later memory

/-- No RAM of the map lies above. -/
theorem find_upper_mem_bounds {range : AddrRange} (member : range ∈ mmap)
    (memory : range.memory = true) : range.end64 ≤ findUpperMem mmap :=
  (find_upper_mem_foldl 0).2 range member memory

theorem round_superpage_eq {x : Nat} (below : x ≤ 2 ^ 32) :
    roundSuperpage x = (x + (2 ^ 21 - 1)) / 2 ^ 21 * 2 ^ 21 := by
  have modulus : Wordsize.w64.modulus = 2 ^ 64 := rfl
  rw [roundSuperpage, Wordsize.w64.add_of_lt (by omega), truncSize]
  omega

theorem mem_upper_sound :
    ptabSize 1 ∣ memUpper mmap mbiMemUpper ∧ memUpper mmap mbiMemUpper ≤ maxInitialMem ∧
      min maxInitialMem (foundUpper mmap mbiMemUpper) ≤ memUpper mmap mbiMemUpper ∧
      (foundUpper mmap mbiMemUpper = 0 → memUpper mmap mbiMemUpper = 0) := by
  have most : maxInitialMem = 4294967296 := by decide
  obtain ⟨one, _, _⟩ := ptab_size_literals
  have upper : memUpper mmap mbiMemUpper = roundSuperpage
      (if maxInitialMem < foundUpper mmap mbiMemUpper then maxInitialMem
        else foundUpper mmap mbiMemUpper) := rfl
  rw [upper, one, most]
  generalize foundUpper mmap mbiMemUpper = found
  by_cases cut : 4294967296 < found
  · rw [if_pos cut, round_superpage_eq (show 4294967296 ≤ 2 ^ 32 by decide)]
    omega
  · rw [if_neg cut, round_superpage_eq (Nat.le_of_not_lt cut)]
    omega

theorem mem_upper_pos_iff :
    0 < memUpper mmap mbiMemUpper ↔ 0 < foundUpper mmap mbiMemUpper := by
  obtain ⟨_, _, covers, none⟩ := @mem_upper_sound mmap mbiMemUpper
  have most : maxInitialMem = 4294967296 := by decide
  omega

/-- RAM of the map below 4 GiB lies below the end of what is mapped. -/
theorem ram_below_mem_upper {range : AddrRange} (member : range ∈ mmap)
    (memory : range.memory = true) (word : range.addr + range.size < 2 ^ 64) {x : Nat}
    (inside : x < range.addr + range.size) (low : x < maxInitialMem) :
    x < memUpper mmap mbiMemUpper := by
  have ends : range.end64 = range.addr + range.size := Wordsize.w64.add_of_lt word
  have bounds := find_upper_mem_bounds member memory
  have found : foundUpper mmap mbiMemUpper = findUpperMem mmap := if_neg (by omega)
  obtain ⟨_, _, covers, _⟩ := @mem_upper_sound mmap mbiMemUpper
  omega

end

/-! ## The hand-over -/

/-- What the 64-bit part finds: its tables lie in the pool, and map the memory below `upper`. -/
structure HandedOver (pool : PtabPool) (upper : Nat) (t : Tables) : Prop where
  tables : ∀ table, IsTable (fun k => pool.pageAt k) t table →
    pool.pool ≤ table ∧ table + pageSize ≤ pool.pool + poolSize
  mapped : ∀ x < upper, translate t 3 pool.pool x = some x
  unmapped : ∀ x < 2 ^ 48, upper ≤ x → translate t 3 pool.pool x = none

section

variable {cpu : CpuInfo} {pool : PtabPool}

/-- Six pages are enough for 4 GiB. -/
theorem base_paging_init_ok (pse : allowLeaf cpu 1 = true) (fresh : pool.initialized = false)
    (below : pool.pool + poolSize + pageSize < 2 ^ 32) {upper : Nat} (pos : 0 < upper)
    (whole : ptabSize 1 ∣ upper) (most : upper ≤ maxInitialMem) :
    ∃ t, basePagingInit cpu pool upper = .ok (pool.pool, t) ∧ HandedOver pool upper t := by
  have size : poolSize = 6 * 4096 := rfl
  have isPage : pageSize = 4096 := rfl
  have pages : poolPages = 6 := rfl
  have initial : maxInitialMem = 4294967296 := by decide
  obtain ⟨one, _, three⟩ := ptab_size_literals
  have atLeast := Nat.le_of_dvd pos whole
  have few : 2 + gibs upper ≤ poolPages := by
    unfold gibs
    omega
  have allocator := page_at_allocator fresh below
  have root : pool.pageAt 0 = some pool.pool := by
    rw [page_at_eq fresh below, if_pos (Nat.zero_le _), Nat.zero_mul, Nat.add_zero]
  have supplies : Supplies (fun k => pool.pageAt k) (2 + gibs upper) := by
    intro k less
    exact ⟨_, (page_at_eq fresh below k).trans (if_pos (by omega))⟩
  obtain ⟨t, done, used⟩ := ptab_map_range_tables pse write_user_flags allocator root supplies pos
    whole (by omega)
  have request : Request 0 upper := ⟨by omega, by omega⟩
  have clear : ClearStart emptyTables pool.pool 0 upper := by
    intro found isLeaf
    rw [(translate_empty (fun _ => rfl) 3 _).2] at isLeaf
    cases isLeaf
  rcases ptab_map_range_outcome allocator (empty_rooted root) write_user_flags request clear with
    failed | ⟨u, place, same, _, exact⟩
  · rw [failed] at done
    cases done
  · rw [done] at same
    obtain rfl : t = u := Except.ok.inj same
    have round : pageUp (0 + upper) = upper := by
      rw [Nat.zero_add, pageUp]
      exact round_up_of_dvd ((ptab_size_dvd (Nat.zero_le 1)).trans whole)
    refine ⟨t, ?_, ?_, ?_, ?_⟩
    · rw [basePagingInit, root]
      simp only [done, ok_bind]
    · rintro table ⟨k, less, found⟩
      have page := (page_at_eq fresh below k).trans (if_pos (show k ≤ poolPages by omega))
      have same := Option.some.inj (found.symm.trans page)
      rw [isPage] at same ⊢
      omega
    · intro x inside
      exact exact.mapped x (Nat.zero_le x) (by rw [round]; exact inside)
    · intro x word outside
      refine exact.noMore x word ?_ ?_
      · rw [round]
        omega
      · exact (translate_empty (fun _ => rfl) 3 x).1

/-- Presetting memory up to `mem_end` stays below what is mapped. -/
theorem fill_mem_below {ram regions : List (Region .w64)} {calls : List (Nat × Nat)}
    (ascending : Ascending regions) (top : ∀ r ∈ regions, r.last < Wordsize.w64.maxWord)
    {upper : Nat} (pos : 0 < upper) (most : upper ≤ maxInitialMem)
    (filled : fillMem regions (Wordsize.w64.sub upper 1) ram = .ok calls) {a : Nat}
    (written : Written .w64 calls a) : a < upper := by
  have modulus : Wordsize.w64.modulus = 2 ^ 64 := rfl
  have maxWord : Wordsize.w64.maxWord = 2 ^ 64 - 1 := rfl
  have initial : maxInitialMem = 4294967296 := by decide
  obtain ⟨others, same, ordered, _, inside⟩ :=
    fill_mem_exact ascending top (Wordsize.w64.sub upper 1) ram
  rw [filled] at same
  obtain rfl : calls = others := Except.ok.inj same
  obtain ⟨call, member, above, behind⟩ := written
  obtain ⟨rr, _, ⟨_, _, last⟩, _⟩ := inside call member
  have isOrdered := ordered call member
  rw [Wordsize.w64.sub_of_le (by omega) (by omega)] at last
  rw [memset_size_eq isOrdered (by omega) (by omega)] at behind
  omega

/-- Whatever the memory map says, the six pages of the pool map all RAM below 4 GiB and every
address that the 64-bit part presets, one to one, and nothing behind the rounded end of memory. -/
theorem boot32_identity_map {mmap : List AddrRange} {mbiMemUpper : Nat}
    (pse : allowLeaf cpu 1 = true) (fresh : pool.initialized = false)
    (below : pool.pool + poolSize + pageSize < 2 ^ 32) (found : 0 < foundUpper mmap mbiMemUpper) :
    ∃ t, basePagingInit cpu pool (memUpper mmap mbiMemUpper) = .ok (pool.pool, t) ∧
      HandedOver pool (memUpper mmap mbiMemUpper) t ∧
      (∀ range ∈ mmap, range.memory = true → range.addr + range.size < 2 ^ 64 →
        ∀ x < range.addr + range.size, x < maxInitialMem → translate t 3 pool.pool x = some x) ∧
      ∀ (ram regions : List (Region .w64)) (calls : List (Nat × Nat)), Ascending regions →
        (∀ r ∈ regions, r.last < Wordsize.w64.maxWord) →
        fillMem regions (memEnd mmap mbiMemUpper) ram = .ok calls →
        ∀ x, Written .w64 calls x → translate t 3 pool.pool x = some x := by
  obtain ⟨whole, most, _, _⟩ := @mem_upper_sound mmap mbiMemUpper
  have pos := mem_upper_pos_iff.mpr found
  obtain ⟨t, done, handed⟩ := base_paging_init_ok pse fresh below pos whole most
  refine ⟨t, done, handed, ?_, ?_⟩
  · intro range member memory word x inside low
    exact handed.mapped x (ram_below_mem_upper member memory word inside low)
  · intro ram regions calls ascending top filled x written
    exact handed.mapped x (fill_mem_below ascending top pos most filled written)

theorem boot32_identity_map_two_ranges :
    ∃ t, basePagingInit sampleCpu freshPool
        (memUpper [⟨0, 0xa0000, true⟩, ⟨0x100000, 0x7ff00000, true⟩] 0) = .ok (0x100000, t) ∧
      translate t 3 0x100000 0x7fffffff = some 0x7fffffff := by
  obtain ⟨t, done, _, mapped, _⟩ := @boot32_identity_map sampleCpu freshPool
    [⟨0, 0xa0000, true⟩, ⟨0x100000, 0x7ff00000, true⟩] 0 (by decide) rfl (by decide +kernel)
    (by decide +kernel)
  exact ⟨t, done, mapped ⟨0x100000, 0x7ff00000, true⟩ (by simp) rfl (by decide) 0x7fffffff
    (by decide) (by decide)⟩

end

end Boot32

end L4Bootstrap
