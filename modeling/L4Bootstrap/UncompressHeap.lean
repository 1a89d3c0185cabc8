import L4Bootstrap.Support
import Mathlib.Data.Nat.Bitwise

/-!
# The heap of the decompressor

`malloc` and `free` of `uncompress.cc`: zlib gets its memory from a static
buffer through a pointer that only goes up. The size is meant to be rounded up to
whole words, but the mask keeps only the low bits of the sum: a call advances the
pointer by less than a word, and always by less than the block it hands out.
-/

namespace L4Bootstrap

open MachineWord

set_option autoImplicit false

/-- `sizeof (static_buf)`. -/
def staticBufSize : Nat := 16 * 1024

/-- `static_buf` and `free_ptr`. The buffer is an object of the program that is
aligned as a `long`. -/
structure Heap (W : Wordsize) where
  staticBuf : Nat
  freePtr : Nat
  aligned : W.bytes ∣ staticBuf
  inside : staticBuf + staticBufSize ≤ W.modulus
  used : staticBuf ≤ freePtr ∧ freePtr ≤ staticBuf + staticBufSize

namespace Heap

variable {W : Wordsize}

def remaining (h : Heap W) : Nat := h.staticBuf + staticBufSize - h.freePtr

/-- The size as `malloc` rounds it. -/
def rounded (W : Wordsize) (size : Nat) : Nat :=
  W.sub (W.add size W.bytes) 1 &&& (W.bytes - 1)

/-- The returned pointer, or `none` for null, and the heap behind the call. -/
def malloc (h : Heap W) (size : Nat) : Option Nat × Heap W :=
  if fits : rounded W size ≤ h.remaining then
    (some h.freePtr,
      { h with
        freePtr := h.freePtr + rounded W size
        used := by
          have := h.used
          unfold remaining at fits
          omega })
  else (none, h)

def free (h : Heap W) (_address : Nat) : Heap W := h

end Heap

inductive HeapCall
  | malloc (size : Nat)
  | free (address : Nat)
  deriving DecidableEq, Repr

/-- One call of `malloc`: the heap it found, its argument and its answer. -/
structure Allocation (W : Wordsize) where
  heap : Heap W
  size : Nat
  block : Option Nat

variable {W : Wordsize}

/-- The calls of `malloc` in a sequence of calls. -/
def Heap.allocations (h : Heap W) : List HeapCall → List (Allocation W)
  | [] => []
  | .malloc size :: rest => ⟨h, size, (h.malloc size).1⟩ :: (h.malloc size).2.allocations rest
  | .free address :: rest => (h.free address).allocations rest

def HeapCall.size? : HeapCall → Option Nat
  | .malloc size => some size
  | .free _ => none

/-- What a heap owes its users: blocks inside of the buffer, on word boundaries,
disjoint from all blocks handed out earlier, and null only if the rounded size
does not fit. -/
structure SoundAllocations (allocations : List (Allocation W)) : Prop where
  inside : ∀ a ∈ allocations, ∀ block, a.block = some block →
    a.heap.staticBuf ≤ block ∧ block + a.size ≤ a.heap.staticBuf + staticBufSize
  aligned : ∀ a ∈ allocations, ∀ block, a.block = some block → W.bytes ∣ block
  disjoint : allocations.Pairwise fun a b => ∀ first second, a.block = some first →
    b.block = some second → first + a.size ≤ second ∨ second + b.size ≤ first
  refused : ∀ a ∈ allocations, a.block = none →
    a.heap.remaining < (a.size + W.bytes - 1) / W.bytes * W.bytes

/-- The pointer advances by less than the size and by less than a word. -/
theorem rounded_eq {size : Nat} (pos : 1 ≤ size) :
    Heap.rounded W size = (size - 1) % W.bytes := by
  obtain ⟨less, rfl⟩ := Nat.exists_eq_add_of_le pos
  cases W with
  | w32 =>
      change _ &&& (2 ^ 2 - 1) = _ % 2 ^ 2
      rw [Nat.and_two_pow_sub_one_eq_mod]
      simp only [Wordsize.sub, Wordsize.add, Wordsize.modulus, Wordsize.bits, Wordsize.bytes]
      omega
  | w64 =>
      change _ &&& (2 ^ 3 - 1) = _ % 2 ^ 3
      rw [Nat.and_two_pow_sub_one_eq_mod]
      simp only [Wordsize.sub, Wordsize.add, Wordsize.modulus, Wordsize.bits, Wordsize.bytes]
      omega

theorem rounded_lt {size : Nat} (pos : 1 ≤ size) :
    Heap.rounded W size < size ∧ Heap.rounded W size < 8 := by
  rw [rounded_eq pos]
  have low := Nat.mod_lt (size - 1) W.bytes_pos
  have le := Nat.mod_le (size - 1) W.bytes
  have words := W.bytes_le
  omega

theorem malloc_of_room {h : Heap W} {size : Nat} (pos : 1 ≤ size) (room : 8 ≤ h.remaining) :
    (h.malloc size).1 = some h.freePtr ∧
      (h.malloc size).2.freePtr = h.freePtr + Heap.rounded W size ∧
      (h.malloc size).2.staticBuf = h.staticBuf := by
  have less := (rounded_lt (W := W) pos).2
  rw [Heap.malloc, dif_pos (by omega)]
  exact ⟨rfl, rfl, rfl⟩

/-- Calls of `free` do not count. -/
theorem allocations_mallocs (h : Heap W) (calls : List HeapCall) :
    h.allocations calls = h.allocations ((calls.filterMap HeapCall.size?).map .malloc) := by
  induction calls generalizing h with
  | nil => rfl
  | cons call rest ih =>
      cases call with
      | malloc size =>
          change _ :: _ = _ :: _
          rw [ih]
      | free address => exact ih h

/-- The heap serves its purpose exactly for at most one block, which must fit
into the buffer: the second block already overlaps the first one. -/
theorem malloc_sound_iff {h : Heap W} {calls : List HeapCall} (fresh : h.freePtr = h.staticBuf)
    (sizes : ∀ size ∈ calls.filterMap HeapCall.size?, 1 ≤ size) :
    SoundAllocations (h.allocations calls) ↔
      calls.filterMap HeapCall.size? = [] ∨
        ∃ size, calls.filterMap HeapCall.size? = [size] ∧ size ≤ staticBufSize := by
  rw [allocations_mallocs]
  generalize calls.filterMap HeapCall.size? = requests at sizes
  have whole : h.remaining = staticBufSize := by
    rw [Heap.remaining, fresh]
    omega
  have large : 16 ≤ staticBufSize := by decide
  cases requests with
  | nil =>
      simp only [true_or, iff_true]
      exact ⟨by simp [Heap.allocations], by simp [Heap.allocations], .nil,
        by simp [Heap.allocations]⟩
  | cons first rest =>
      have firstPos := sizes first (by simp)
      obtain ⟨firstBlock, nextPtr, sameBuf⟩ := malloc_of_room firstPos (h := h) (by omega)
      have firstLess := rounded_lt (W := W) firstPos
      cases rest with
      | nil =>
          constructor
          · intro sound
            right
            refine ⟨first, rfl, ?_⟩
            have fits := (sound.inside _ (List.mem_singleton_self _) h.freePtr firstBlock).2
            change h.freePtr + first ≤ h.staticBuf + staticBufSize at fits
            omega
          · rintro (none | ⟨size, same, fits⟩)
            · cases none
            · cases same
              refine ⟨?_, ?_, List.pairwise_singleton _ _, ?_⟩
              · intro a member block isBlock
                rw [List.mem_singleton.mp member] at isBlock ⊢
                cases firstBlock.symm.trans isBlock
                change h.staticBuf ≤ h.freePtr ∧ h.freePtr + first ≤ h.staticBuf + staticBufSize
                omega
              · intro a member block isBlock
                rw [List.mem_singleton.mp member] at isBlock
                cases firstBlock.symm.trans isBlock
                rw [fresh]
                exact h.aligned
              · intro a member isNull
                rw [List.mem_singleton.mp member] at isNull
                cases firstBlock.symm.trans isNull
      | cons second rest =>
          simp only [List.cons_ne_nil, List.cons.injEq, false_and, and_false, exists_false,
            or_self, iff_false]
          intro sound
          have secondPos := sizes second (by simp)
          have room : 8 ≤ (h.malloc first).2.remaining := by
            rw [Heap.remaining, nextPtr, sameBuf]
            omega
          have secondBlock := (malloc_of_room secondPos room).1
          have apart := (List.pairwise_cons.mp sound.disjoint).1 _ (List.mem_cons_self ..)
            h.freePtr (h.malloc first).2.freePtr firstBlock secondBlock
          change h.freePtr + first ≤ _ ∨ _ + second ≤ h.freePtr at apart
          rw [nextPtr] at apart
          omega

/-- The heap at the start of a 64-bit loader. -/
def freshHeap : Heap .w64 where
  staticBuf := 0x8000
  freePtr := 0x8000
  aligned := by decide
  inside := by decide
  used := by decide

/-- One block of 4 KiB with a `free` behind it. -/
theorem malloc_sound_one_block :
    freshHeap.freePtr = freshHeap.staticBuf ∧
      (SoundAllocations (freshHeap.allocations [.malloc 4096, .free 0x8000]) ↔
        [4096] = ([] : List Nat) ∨ ∃ size, [4096] = [size] ∧ size ≤ staticBufSize) := by
  refine ⟨rfl, @malloc_sound_iff .w64 freshHeap [.malloc 4096, .free 0x8000] rfl ?_⟩
  intro size member
  rw [List.mem_singleton.mp member]
  decide

/-- Two words: the second one begins in the last byte of the first one. -/
theorem malloc_two_words_overlap :
    (∀ size ∈ [HeapCall.malloc 8, .malloc 8].filterMap HeapCall.size?, 1 ≤ size) ∧
      ¬ SoundAllocations (freshHeap.allocations [.malloc 8, .malloc 8]) := by
  refine ⟨by decide, ?_⟩
  intro sound
  have apart := (List.pairwise_cons.mp sound.disjoint).1 _ (List.mem_cons_self ..) 0x8000 0x8007
    (by decide) (by decide)
  revert apart
  decide

end L4Bootstrap
