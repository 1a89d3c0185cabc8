import L4Bootstrap.Lib.BlockWrites
import L4Bootstrap.Lib.Word
import L4Bootstrap.Support

/-!
# Copying memory in the 32-bit part

`memcpy.S` and `memmove.c` of the small C library of `boot32`. `memcpy` goes up, `memmove`
goes down where the destination is above the source and the two overlap; both copy
words where they can.
-/

namespace L4Bootstrap.Boot32.Libc

open ByteMemory MachineWord

set_option autoImplicit false

/-- A load of `width` bytes at `s` and their store at `d`. -/
def copy (width d s : Nat) (bytes : Bytes) : Bytes := writeList d (readList bytes s width) bytes

/-! ## `memcpy` -/

/-- `rep movsl` or a loop over `movsb`, with the registers `%ecx`, `%edi` and `%esi`. -/
def movs (width : Nat) : Nat → Nat → Nat → Bytes → Bytes
  | 0, _, _, bytes => bytes
  | ecx + 1, edi, esi, bytes =>
      movs width ecx (edi + width) (esi + width) (copy width edi esi bytes)

/-- The code from label `1:` on. -/
def memcpyWords (ecx edi esi : Nat) (bytes : Bytes) : Bytes :=
  let edx := ecx
  let ecx := ecx >>> 2
  let bytes := movs 4 ecx edi esi bytes
  let edx' := edx &&& 3
  if edx' = 0 then bytes else movs 1 edx' (edi + 4 * ecx) (esi + 4 * ecx) bytes

/-- The loop at the first label `2:`; a count that runs out would wrap around. -/
def memcpyAlign : Nat → Nat → Nat → Bytes → Checked Bytes
  | 0, _, _, _ => .error .outOfBounds
  | ecx + 1, edi, esi, bytes =>
      let bytes := copy 1 edi esi bytes
      if (edi + 1) &&& 3 ≠ 0 then memcpyAlign ecx (edi + 1) (esi + 1) bytes
      else .ok (memcpyWords ecx (edi + 1) (esi + 1) bytes)

def memcpy (dest src n : Nat) (bytes : Bytes) : Checked Bytes :=
  if n < 4 then .ok (memcpyWords n dest src bytes)
  else if dest &&& 3 = 0 then .ok (memcpyWords n dest src bytes)
  else memcpyAlign n dest src bytes

/-! ## `memmove` -/

/-- `for (; n; n--) *d++ = *s++;` -/
def upBytes : Nat → Nat → Nat → Bytes → Bytes
  | 0, _, _, bytes => bytes
  | n + 1, d, s, bytes => upBytes n (d + 1) (s + 1) (copy 1 d s bytes)

/-- `for (; n>=WS; n-=WS, d+=WS, s+=WS)`, and then bytes. -/
def upWords : Nat → Nat → Nat → Bytes → Bytes
  | n + 4, d, s, bytes => upWords n (d + 4) (s + 4) (copy 4 d s bytes)
  | n, d, s, bytes => upBytes n d s bytes

/-- `while ((uintptr_t)d % WS)`, and then words. -/
def upAlign : Nat → Nat → Nat → Bytes → Bytes
  | 0, d, s, bytes => if d % 4 ≠ 0 then bytes else upWords 0 d s bytes
  | n + 1, d, s, bytes =>
      if d % 4 ≠ 0 then upAlign n (d + 1) (s + 1) (copy 1 d s bytes) else upWords (n + 1) d s bytes

/-- `while (n) n--, d[n] = s[n];` -/
def downBytes (d s : Nat) : Nat → Bytes → Bytes
  | 0, bytes => bytes
  | n + 1, bytes => downBytes d s n (copy 1 (d + n) (s + n) bytes)

/-- `while (n>=WS)`, and then bytes. -/
def downWords (d s : Nat) : Nat → Bytes → Bytes
  | n + 4, bytes => downWords d s n (copy 4 (d + n) (s + n) bytes)
  | n, bytes => downBytes d s n bytes

/-- `while ((uintptr_t)(d+n) % WS)`, and then words. -/
def downAlign (d s : Nat) : Nat → Bytes → Bytes
  | 0, bytes => if d % 4 ≠ 0 then bytes else downWords d s 0 bytes
  | n + 1, bytes =>
      if (d + (n + 1)) % 4 ≠ 0 then downAlign d s n (copy 1 (d + n) (s + n) bytes)
      else downWords d s (n + 1) bytes

/-- `(uintptr_t)s-(uintptr_t)d-n <= -2*n` in 32 bits. -/
def looksApart (d s n : Nat) : Bool :=
  Wordsize.w32.sub (Wordsize.w32.sub s d) n ≤ Wordsize.w32.sub 0 (2 * n % 2 ^ 32)

def memmove (dest src n : Nat) (bytes : Bytes) : Checked Bytes :=
  if dest = src then .ok bytes
  else if looksApart dest src n then memcpy dest src n bytes
  else if dest < src then
    if src % 4 = dest % 4 then .ok (upAlign n dest src bytes) else .ok (upBytes n dest src bytes)
  else
    if src % 4 = dest % 4 then .ok (downAlign dest src n bytes)
    else .ok (downBytes dest src n bytes)

section

variable {dest src size width d s n : Nat} {bytes : Bytes}

theorem copy_moves : copy width d s bytes = ByteMemory.memmove d s width bytes :=
  write_list_read_list

/-! ## Upwards -/

theorem movs_moves (order : d ≤ s ∨ s + width * n ≤ d) :
    movs width n d s bytes = ByteMemory.memmove d s (width * n) bytes := by
  induction n generalizing d s bytes with
  | zero =>
      rw [Nat.mul_zero, memmove_zero]
      rfl
  | succ n ih =>
      rw [Nat.mul_succ] at order
      rw [movs, copy_moves, ih (by omega), memmove_upward (by omega), Nat.mul_succ,
        Nat.add_comm width]

theorem memcpy_words_moves (order : d ≤ s ∨ s + n ≤ d) :
    memcpyWords n d s bytes = ByteMemory.memmove d s n bytes := by
  have words : n >>> 2 = n / 4 := Nat.shiftRight_eq_div_pow n 2
  have rest : n &&& 3 = n % 4 := Nat.and_two_pow_sub_one_eq_mod n 2
  rw [memcpyWords]
  simp only [words, rest]
  rw [movs_moves (by omega)]
  by_cases whole : n % 4 = 0
  · rw [if_pos whole, show 4 * (n / 4) = n by omega]
  · rw [if_neg whole, movs_moves (by omega), memmove_upward (by omega),
      show 4 * (n / 4) + 1 * (n % 4) = n by omega]

/-- The loop stops before the count runs out: an aligned address is three bytes away at most. -/
theorem memcpy_align_moves (order : d ≤ s ∨ s + n ≤ d) (aligns : ∃ k < n, (d + (k + 1)) % 4 = 0) :
    memcpyAlign n d s bytes = .ok (ByteMemory.memmove d s n bytes) := by
  induction n generalizing d s bytes with
  | zero =>
      obtain ⟨k, below, _⟩ := aligns
      exact absurd below (Nat.not_lt_zero k)
  | succ n ih =>
      have mask : d + 1 &&& 3 = (d + 1) % 4 := Nat.and_two_pow_sub_one_eq_mod (d + 1) 2
      obtain ⟨k, below, aligned⟩ := aligns
      rw [memcpyAlign, copy_moves]
      simp only [mask]
      by_cases more : (d + 1) % 4 ≠ 0
      · cases k with
        | zero => exact absurd aligned more
        | succ k =>
            rw [if_pos more, ih (by omega) ⟨k, by omega, by omega⟩, memmove_upward (by omega),
              Nat.add_comm 1]
      · rw [if_neg more, memcpy_words_moves (by omega), memmove_upward (by omega), Nat.add_comm 1]

theorem memcpy_moves (order : d ≤ s ∨ s + n ≤ d) :
    memcpy d s n bytes = .ok (ByteMemory.memmove d s n bytes) := by
  rw [memcpy, memcpy_words_moves order]
  by_cases few : n < 4
  · rw [if_pos few]
  · rw [if_neg few]
    by_cases aligned : d &&& 3 = 0
    · rw [if_pos aligned]
    · have near : ∃ k < n, (d + (k + 1)) % 4 = 0 := ⟨3 - d % 4, by omega, by omega⟩
      rw [if_neg aligned, memcpy_align_moves order near]

theorem up_bytes_moves (order : d ≤ s) :
    upBytes n d s bytes = ByteMemory.memmove d s n bytes := by
  induction n generalizing d s bytes with
  | zero =>
      rw [memmove_zero]
      rfl
  | succ n ih =>
      rw [upBytes, copy_moves, ih (by omega), memmove_upward (by omega), Nat.add_comm 1]

theorem up_words_moves (order : d ≤ s) :
    upWords n d s bytes = ByteMemory.memmove d s n bytes := by
  induction n, d, s, bytes using upWords.induct with
  | case1 n d s bytes ih =>
      rw [upWords, copy_moves]
      rw [copy_moves] at ih
      rw [ih (by omega), memmove_upward (by omega), Nat.add_comm 4]
  | case2 n d s bytes few =>
      rw [upWords]
      · exact up_bytes_moves order
      · exact few

theorem up_align_moves (order : d ≤ s) :
    upAlign n d s bytes = ByteMemory.memmove d s n bytes := by
  induction n generalizing d s bytes with
  | zero =>
      rw [upAlign, up_words_moves order, memmove_zero, ite_self]
  | succ n ih =>
      rw [upAlign, copy_moves, up_words_moves order, ih (by omega), memmove_upward (by omega),
        Nat.add_comm 1, ite_self]

/-! ## Downwards -/

theorem down_bytes_moves (order : s ≤ d) :
    downBytes d s n bytes = ByteMemory.memmove d s n bytes := by
  induction n generalizing bytes with
  | zero =>
      rw [memmove_zero]
      rfl
  | succ n ih => rw [downBytes, copy_moves, ih, memmove_downward (.inl order)]

theorem down_words_moves (order : s ≤ d) :
    downWords d s n bytes = ByteMemory.memmove d s n bytes := by
  induction n, bytes using downWords.induct d s with
  | case1 n bytes ih =>
      rw [copy_moves] at ih
      rw [downWords, copy_moves, ih, memmove_downward (.inl order)]
  | case2 n bytes few =>
      rw [downWords]
      · exact down_bytes_moves order
      · exact few

theorem down_align_moves (order : s ≤ d) :
    downAlign d s n bytes = ByteMemory.memmove d s n bytes := by
  induction n generalizing bytes with
  | zero => rw [downAlign, down_words_moves order, memmove_zero, ite_self]
  | succ n ih =>
      rw [downAlign, copy_moves, down_words_moves order, ih, memmove_downward (.inl order),
        ite_self]

/-! ## Which of the two -/

/-- The comparison finds out whether the blocks overlap, for blocks of up to half of the
address space. -/
theorem looks_apart_iff (half : n ≤ 2 ^ 31) (nonempty : 0 < n) (destInside : d + n < 2 ^ 32)
    (srcInside : s + n < 2 ^ 32) : looksApart d s n = true ↔ d + n ≤ s ∨ s + n ≤ d := by
  have modulus : Wordsize.w32.modulus = 4294967296 := rfl
  rw [looksApart, decide_eq_true_iff, Wordsize.sub, Wordsize.sub, Wordsize.sub, modulus]
  omega

theorem looks_apart_order (half : n ≤ 2 ^ 31) (destInside : d + n < 2 ^ 32)
    (srcInside : s + n < 2 ^ 32) (apart : looksApart d s n = true) : d ≤ s ∨ s + n ≤ d := by
  by_cases nonempty : 0 < n
  · have := (looks_apart_iff half nonempty destInside srcInside).mp apart
    omega
  · omega

theorem memmove_eq (half : n ≤ 2 ^ 31) (destInside : dest + n < 2 ^ 32)
    (srcInside : src + n < 2 ^ 32) :
    memmove dest src n bytes = .ok (ByteMemory.memmove dest src n bytes) := by
  rw [memmove]
  by_cases same : dest = src
  · rw [if_pos same, same, memmove_same]
  rw [if_neg same]
  by_cases apart : looksApart dest src n = true
  · rw [if_pos apart, memcpy_moves (looks_apart_order half destInside srcInside apart)]
  rw [if_neg apart]
  by_cases below : dest < src
  · rw [if_pos below, up_align_moves below.le, up_bytes_moves below.le, ite_self]
  · have above : src ≤ dest := Nat.le_of_not_lt below
    rw [if_neg below, down_align_moves above, down_bytes_moves above, ite_self]

/-- `memmove` leaves in the destination what the source held before, whether and how the
two overlap, and changes nothing else. -/
theorem memmove_moves (half : n ≤ 2 ^ 31) (destInside : dest + n < 2 ^ 32)
    (srcInside : src + n < 2 ^ 32) :
    ∃ after, memmove dest src n bytes = .ok after ∧ (∀ k < n, after (dest + k) = bytes (src + k)) ∧
      ∀ a, a < dest ∨ dest + n ≤ a → after a = bytes a :=
  ⟨_, memmove_eq half destInside srcInside, fun _ below => memmove_inside below,
    fun _ outside => memmove_outside outside⟩

/-- Twelve bytes move up by five. -/
theorem memmove_moves_12_bytes :
    ∃ after, memmove 1005 1000 12 (fun a => UInt8.ofNat a) = .ok after ∧
      (∀ k < 12, after (1005 + k) = UInt8.ofNat (1000 + k)) ∧
      ∀ a, a < 1005 ∨ 1005 + 12 ≤ a → after a = UInt8.ofNat a :=
  memmove_moves (by decide) (by decide) (by decide)

end

end L4Bootstrap.Boot32.Libc
