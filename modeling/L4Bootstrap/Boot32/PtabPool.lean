import L4Bootstrap.Boot32.Reservations
import L4Bootstrap.Lib.ByteMemory
import L4Bootstrap.Paging.Mapping

/-!
# The pool of page tables

`ptab_alloc` of `boot32/boot_cpu.c` hands out the pages of a static array, one after
the other. It panics when the next page begins behind the end of the array, not when
it begins at the end, so that the page behind the array is handed out as well.
-/

namespace L4Bootstrap

namespace Boot32

open MachineWord ByteMemory

set_option autoImplicit false

/-- The number of pages in `pool`. -/
def poolPages : Nat := 6

/-- `sizeof (pool)`. -/
def poolSize : Nat := poolPages <<< 12

/-- The static variables of `ptab_alloc` with the memory around them, and the two fields of
`boot32_info` that it sets. -/
structure PtabPool where
  bytes : Bytes
  pool : Nat
  pdirs : Nat
  initialized : Bool
  ptab64Addr : Nat
  ptab64Size : Nat
  aligned : pageSize ∣ pool
  inside : pool + poolSize ≤ Wordsize.w32.modulus

namespace PtabPool

/-- The block of the first call. -/
def firstCall (s : PtabPool) : PtabPool :=
  { s with
    initialized := true
    ptab64Addr := s.pool
    ptab64Size := poolSize
    bytes := memset s.pool 0 poolSize s.bytes
    pdirs := truncPage (sub32 (add32 s.pool pageSize) 1) }

def ready (s : PtabPool) : PtabPool := if s.initialized then s else s.firstCall

def ptabAlloc (s : PtabPool) : Checked (Nat × PtabPool) :=
  let s := s.ready
  if add32 s.pool poolSize < s.pdirs then
    panic "Cannot allocate page table -- increase ptab_alloc::pool"
  else .ok (s.pdirs, { s with pdirs := add32 s.pdirs pageSize })

end PtabPool

/-! ## Runs -/

/-- A call of `ptab_alloc`: the page that it returned, and memory at that time. -/
structure PtabCall where
  page : Nat
  bytes : Bytes

/-- A byte outside of the pool, or in a page that was handed out. -/
def Owned (pool : Nat) (calls : List PtabCall) (a : Nat) : Prop :=
  a < pool ∨ pool + poolSize ≤ a ∨ ∃ call ∈ calls, call.page ≤ a ∧ a < call.page + pageSize

/-- The calls since the start, the last one first. In between, the program writes to the pages
that it was given and to memory outside of the pool. -/
inductive PoolRun (s : PtabPool) : List PtabCall → PtabPool → Prop
  | start : PoolRun s [] s
  | call {calls : List PtabCall} {t u : PtabPool} {page : Nat} (run : PoolRun s calls t)
      (returned : t.ptabAlloc = .ok (page, u)) : PoolRun s (⟨page, u.bytes⟩ :: calls) u
  | write {calls : List PtabCall} {t : PtabPool} (run : PoolRun s calls t) {a : Nat}
      (value : UInt8) (owned : Owned s.pool calls a) :
      PoolRun s calls { t with bytes := Function.update t.bytes a value }

/-- What the users of `ptab_alloc` expect of the pages. -/
structure SoundPages (pool : Nat) (calls : List PtabCall) : Prop where
  aligned : ∀ call ∈ calls, pageSize ∣ call.page
  inside : ∀ call ∈ calls, pool ≤ call.page ∧ call.page + pageSize ≤ pool + poolSize
  zeroed : ∀ call ∈ calls, ∀ a, call.page ≤ a → a < call.page + pageSize → call.bytes a = 0
  distinct : calls.Pairwise fun late early => late.page ≠ early.page

/-! ## The invariant -/

/-- The pool in front of a call, up to the first one that gets no page of it. -/
structure PoolState (pool : Nat) (calls : List PtabCall) (t : PtabPool) : Prop where
  pdirs : t.pdirs = pool + calls.length * pageSize
  before : ∀ call ∈ calls, call.page + pageSize ≤ t.pdirs
  zeroed : ∀ a, t.pdirs ≤ a → a < pool + poolSize → t.bytes a = 0

structure PoolKept (s : PtabPool) (calls : List PtabCall) (t : PtabPool) : Prop where
  pool : t.pool = s.pool
  started : t.initialized = !calls.isEmpty
  state : calls.length ≤ poolPages → PoolState s.pool calls t.ready
  few : calls.length ≤ poolPages → SoundPages s.pool calls
  many : poolPages < calls.length → ∃ call ∈ calls, call.page = s.pool + poolSize

variable {s t u : PtabPool} {calls : List PtabCall} {page : Nat}

theorem pool_room (t : PtabPool) : t.pool + poolSize ≤ 2 ^ 32 := t.inside

theorem ready_pool (t : PtabPool) : t.ready.pool = t.pool := by
  unfold PtabPool.ready
  split_ifs <;> rfl

theorem ready_initialized (t : PtabPool) : t.ready.initialized = true := by
  unfold PtabPool.ready
  split_ifs with initialized
  · exact initialized
  · rfl

theorem ready_of_initialized (initialized : t.initialized = true) : t.ready = t := by
  rw [PtabPool.ready, if_pos initialized]

/-- The first call begins with the first page of the pool. -/
theorem ready_fresh (fresh : t.initialized = false) : PoolState t.pool [] t.ready := by
  have room := pool_room t
  have size : poolSize = 6 * 4096 := rfl
  have isPage : pageSize = 4096 := rfl
  have pdirs : t.ready.pdirs = t.pool := by
    have modulus : Wordsize.w32.modulus = 2 ^ 32 := rfl
    rw [PtabPool.ready, fresh, if_neg Bool.false_ne_true]
    change truncPage (Wordsize.w32.sub (Wordsize.w32.add t.pool pageSize) 1) = t.pool
    rw [Wordsize.w32.add_of_lt (by omega), Wordsize.w32.sub_of_le (by omega) (by omega)]
    exact trunc_size_eq t.aligned (by omega) (by change _ < t.pool + pageSize; omega)
  refine ⟨?_, fun call member => absurd member List.not_mem_nil, ?_⟩
  · rw [pdirs, List.length_nil, Nat.zero_mul, Nat.add_zero]
  · intro a above below
    rw [pdirs] at above
    rw [PtabPool.ready, fresh, if_neg Bool.false_ne_true]
    change memset t.pool 0 poolSize t.bytes a = 0
    rw [memset, if_pos ⟨above, below⟩]

/-- What a call does, once the pool is set up. -/
theorem ptab_alloc_ok (returned : t.ptabAlloc = .ok (page, u)) :
    t.ready.pdirs ≤ add32 t.pool poolSize ∧ page = t.ready.pdirs ∧ u.pool = t.pool ∧
      u.ready = u ∧ u.initialized = true ∧ u.pdirs = add32 page pageSize ∧
      u.bytes = t.ready.bytes := by
  simp only [PtabPool.ptabAlloc] at returned
  split_ifs at returned with behind
  · cases returned
  · simp only [Except.ok.injEq, Prod.mk.injEq] at returned
    obtain ⟨rfl, rfl⟩ := returned
    rw [ready_pool] at behind
    exact ⟨Nat.le_of_not_lt behind, rfl, ready_pool t, ready_of_initialized (ready_initialized t),
      ready_initialized t, rfl, rfl⟩

/-- A pool that ends with the address space hands out nothing. -/
theorem pool_below (returned : t.ptabAlloc = .ok (page, u))
    (above : t.pool ≤ t.ready.pdirs) : t.pool + poolSize < 2 ^ 32 := by
  obtain ⟨upTo, _⟩ := ptab_alloc_ok returned
  have room := pool_room t
  have size : poolSize = 6 * 4096 := rfl
  by_contra top
  have wrapped : add32 t.pool poolSize = 0 := by
    have whole : t.pool + poolSize = Wordsize.w32.modulus := Nat.le_antisymm room (Nat.le_of_not_lt top)
    rw [add32, Wordsize.add, whole, Nat.mod_self]
  omega

theorem pool_kept_call (kept : PoolKept s calls t) (returned : t.ptabAlloc = .ok (page, u)) :
    PoolKept s (⟨page, u.bytes⟩ :: calls) u := by
  obtain ⟨_, isPdirs, samePool, sameReady, initialized, nextPdirs, bytes⟩ := ptab_alloc_ok returned
  obtain ⟨pool, started, state, few, many⟩ := kept
  have size : poolSize = 6 * 4096 := rfl
  have isPage : pageSize = 4096 := rfl
  have pages : poolPages = 6 := rfl
  refine ⟨samePool.trans pool, initialized, ?_, ?_, ?_⟩
  · intro fewer
    rw [List.length_cons] at fewer
    obtain ⟨pdirs, before, zeroed⟩ := state (by omega)
    have below := pool_below returned (by omega)
    rw [← isPdirs] at pdirs before zeroed
    rw [isPage] at pdirs
    have next : u.pdirs = page + pageSize := by
      rw [nextPdirs]
      exact Wordsize.w32.add_of_lt (by change _ < 2 ^ 32; omega)
    rw [sameReady]
    refine ⟨?_, ?_, ?_⟩
    · rw [next, pdirs, List.length_cons, isPage]
      ring
    · intro call member
      rw [next]
      rcases List.mem_cons.mp member with rfl | earlier
      · exact le_rfl
      · exact (before call earlier).trans (Nat.le_add_right _ _)
    · intro a above inPool
      rw [bytes]
      exact zeroed a (by omega) inPool
  · intro fewer
    rw [List.length_cons] at fewer
    obtain ⟨pdirs, before, zeroed⟩ := state (by omega)
    obtain ⟨aligned, inside, zero, distinct⟩ := few (by omega)
    rw [← isPdirs] at pdirs before zeroed
    have pageAligned : pageSize ∣ page := by
      rw [pdirs, ← pool]
      exact Nat.dvd_add t.aligned (Nat.dvd_mul_left _ _)
    rw [isPage] at pdirs
    refine ⟨?_, ?_, ?_, ?_⟩
    · exact List.forall_mem_cons.mpr ⟨pageAligned, aligned⟩
    · exact List.forall_mem_cons.mpr ⟨⟨by simp only; omega, by simp only; omega⟩, inside⟩
    · refine List.forall_mem_cons.mpr ⟨?_, zero⟩
      intro a above below
      simp only at above below ⊢
      rw [bytes]
      exact zeroed a above (by omega)
    · refine .cons ?_ distinct
      intro call earlier
      have := before call earlier
      simp only
      omega
  · intro more
    rw [List.length_cons] at more
    rcases Nat.lt_or_ge poolPages calls.length with already | last
    · obtain ⟨call, member, isOutside⟩ := many already
      exact ⟨call, List.mem_cons_of_mem _ member, isOutside⟩
    · refine ⟨_, List.mem_cons_self, ?_⟩
      have pdirs := (state last).pdirs
      rw [← isPdirs, isPage] at pdirs
      simp only
      omega

theorem pool_kept_write (kept : PoolKept s calls t) {a : Nat} (value : UInt8)
    (owned : Owned s.pool calls a) :
    PoolKept s calls { t with bytes := Function.update t.bytes a value } := by
  obtain ⟨pool, started, state, few, many⟩ := kept
  refine ⟨pool, started, ?_, few, many⟩
  intro fewer
  cases calls with
  | nil =>
      rw [← pool]
      exact ready_fresh (t := { t with bytes := Function.update t.bytes a value }) started
  | cons last earlier =>
      obtain ⟨pdirs, before, zeroed⟩ := state fewer
      have initialized : t.initialized = true := started
      rw [ready_of_initialized initialized] at pdirs before zeroed
      rw [ready_of_initialized (t := { t with bytes := Function.update t.bytes a value }) initialized]
      refine ⟨pdirs, before, ?_⟩
      intro b above inPool
      change t.pdirs ≤ b at above
      have other : b ≠ a := by
        rintro rfl
        rcases owned with low | high | ⟨call, member, _, below⟩
        · omega
        · omega
        · have := before call member
          omega
      change Function.update t.bytes a value b = 0
      rw [Function.update_of_ne other]
      exact zeroed b above inPool

theorem pool_run_kept (fresh : s.initialized = false) (run : PoolRun s calls t) :
    PoolKept s calls t := by
  induction run with
  | start =>
      refine ⟨rfl, fresh, fun _ => ready_fresh fresh, fun _ => ?_, ?_⟩
      · exact ⟨by simp, by simp, by simp, .nil⟩
      · intro more
        exact absurd more (Nat.not_lt_zero _)
  | call run returned ih => exact pool_kept_call ih returned
  | write run value owned ih => exact pool_kept_write ih value owned

/-! ## The pages -/

/-- In front of each of the first seven calls there is a page for it. -/
theorem pool_run_page (fresh : s.initialized = false) (below : s.pool + poolSize < 2 ^ 32)
    (run : PoolRun s calls t) (few : calls.length ≤ poolPages) :
    ∃ u, t.ptabAlloc = .ok (s.pool + calls.length * pageSize, u) := by
  have kept := pool_run_kept fresh run
  have pdirs := (kept.state few).pdirs
  have size : poolSize = poolPages * pageSize := rfl
  have upTo : calls.length * pageSize ≤ poolSize := by
    rw [size]
    exact Nat.mul_le_mul_right pageSize few
  have top : add32 t.ready.pool poolSize = s.pool + poolSize := by
    rw [ready_pool, kept.pool]
    exact Wordsize.w32.add_of_lt below
  refine ⟨{ t.ready with pdirs := add32 t.ready.pdirs pageSize }, ?_⟩
  simp only [PtabPool.ptabAlloc]
  rw [if_neg (by omega), pdirs]

theorem pool_run_exists (fresh : s.initialized = false) (below : s.pool + poolSize < 2 ^ 32)
    {n : Nat} (few : n ≤ poolPages + 1) : ∃ calls t, PoolRun s calls t ∧ calls.length = n := by
  induction n with
  | zero => exact ⟨[], s, .start, rfl⟩
  | succ n ih =>
      obtain ⟨calls, t, run, length⟩ := ih (by omega)
      obtain ⟨u, returned⟩ := pool_run_page fresh below run (by omega)
      exact ⟨_, u, run.call returned, by rw [List.length_cons, length]⟩

/-- The pages of the pool as the mapper counts them. -/
def poolPage (pool k : Nat) : Option Nat :=
  if k < poolPages then some (pool + k * pageSize) else none

theorem pool_page_allocator (s : PtabPool) : Paging.Allocator (poolPage s.pool) := by
  have room := pool_room s
  have size : poolSize = 6 * 4096 := rfl
  have isPage : pageSize = 4096 := rfl
  have pages : poolPages = 6 := rfl
  have isSome : ∀ k page, poolPage s.pool k = some page → k < 6 ∧ page = s.pool + k * 4096 := by
    intro k page found
    rw [poolPage] at found
    split_ifs at found with inPool
    exact ⟨inPool, (Option.some.inj found).symm⟩
  constructor
  · intro i j page first second
    obtain ⟨_, atFirst⟩ := isSome i page first
    obtain ⟨_, atSecond⟩ := isSome j page second
    omega
  · intro k page found
    obtain ⟨_, rfl⟩ := isSome k page found
    exact Nat.dvd_add s.aligned (Nat.dvd_mul_left _ _)
  · intro k page found
    obtain ⟨inPool, rfl⟩ := isSome k page found
    omega

/-- The pages of a run are sound exactly as long as there are not more of them than the pool
has. -/
theorem pool_pages_sound_iff (fresh : s.initialized = false) (run : PoolRun s calls t) :
    SoundPages s.pool calls ↔ calls.length ≤ poolPages := by
  have kept := pool_run_kept fresh run
  refine ⟨?_, kept.few⟩
  intro sound
  by_contra more
  obtain ⟨call, member, isOutside⟩ := kept.many (Nat.lt_of_not_le more)
  have inside := (sound.inside call member).2
  rw [isOutside] at inside
  have pos : 0 < pageSize := Nat.two_pow_pos _
  omega

def freshPool : PtabPool where
  bytes := fun _ => 0xff
  pool := 0x100000
  pdirs := 0
  initialized := false
  ptab64Addr := 0
  ptab64Size := 0
  aligned := by decide
  inside := by decide

theorem pool_pages_sound_six :
    ∃ calls t, PoolRun freshPool calls t ∧ calls.length = 6 ∧ SoundPages freshPool.pool calls := by
  obtain ⟨calls, t, run, length⟩ := pool_run_exists (s := freshPool) (n := 6) rfl (by decide +kernel)
    (by decide)
  exact ⟨calls, t, run, length, (pool_pages_sound_iff rfl run).mpr length.le⟩

/-- The seventh page begins where the pool ends. -/
theorem pool_pages_seventh :
    freshPool.initialized = false ∧ ∃ calls t, PoolRun freshPool calls t ∧
      (∃ call ∈ calls, call.page = 0x106000) ∧ ¬SoundPages freshPool.pool calls := by
  obtain ⟨calls, t, run, length⟩ := pool_run_exists (s := freshPool) (n := 7) rfl (by decide +kernel)
    (by decide)
  have seven : poolPages < calls.length := by
    rw [length]
    decide
  obtain ⟨call, member, isOutside⟩ := (pool_run_kept rfl run).many seven
  refine ⟨rfl, calls, t, run, ⟨call, member, isOutside⟩, ?_⟩
  intro sound
  have inside := (sound.inside call member).2
  rw [isOutside] at inside
  exact absurd inside (by decide)

end Boot32

end L4Bootstrap
