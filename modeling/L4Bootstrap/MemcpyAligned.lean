import L4Bootstrap.Lib.ByteImage
import L4Bootstrap.Support

/-!
# The copy of aligned memory

`memcpy_aligned.c`: blocks of eight 64-bit words, then single words, then the bytes
that are left. `l4_exec_read_exec` copies the segments of kernel and tasks with it
where both addresses are aligned, and with `memcpy` otherwise.
-/

namespace L4Bootstrap

open ByteMemory CheckedLoop MachineWord

set_option autoImplicit false

/-- `memcpy`, which is defined for areas without a common byte only. -/
def memcpy (dst src size : Nat) (bytes : Bytes) : Checked Bytes := do
  require (dst + size ≤ src ∨ src + size ≤ dst)
  pure (memmove dst src size bytes)

namespace MemcpyAligned

/-- The bytes of one `l4_uint64_t` in the order in which they stand in memory. -/
def load8 (bytes : Bytes) (address : Nat) : Checked (List UInt8) := do
  require (address % 8 = 0)
  pure (readList bytes address 8)

def store8 (address : Nat) (word : List UInt8) (bytes : Bytes) : Checked Bytes := do
  require (address % 8 = 0)
  pure (writeList address word bytes)

/-- The body of the first loop, for the pointers `s8` and `d8`: all loads come before
the first store. -/
def copyBlock (d8 s8 i : Nat) (bytes : Bytes) : Checked Bytes := do
  let a0 ← load8 bytes (s8 + 8 * i)
  let a1 ← load8 bytes (s8 + 8 * (i + 1))
  let a2 ← load8 bytes (s8 + 8 * (i + 2))
  let a3 ← load8 bytes (s8 + 8 * (i + 3))
  let a4 ← load8 bytes (s8 + 8 * (i + 4))
  let a5 ← load8 bytes (s8 + 8 * (i + 5))
  let a6 ← load8 bytes (s8 + 8 * (i + 6))
  let a7 ← load8 bytes (s8 + 8 * (i + 7))
  let bytes ← store8 (d8 + 8 * i) a0 bytes
  let bytes ← store8 (d8 + 8 * (i + 1)) a1 bytes
  let bytes ← store8 (d8 + 8 * (i + 2)) a2 bytes
  let bytes ← store8 (d8 + 8 * (i + 3)) a3 bytes
  let bytes ← store8 (d8 + 8 * (i + 4)) a4 bytes
  let bytes ← store8 (d8 + 8 * (i + 5)) a5 bytes
  let bytes ← store8 (d8 + 8 * (i + 6)) a6 bytes
  store8 (d8 + 8 * (i + 7)) a7 bytes

def copyWord (d8 s8 i : Nat) (bytes : Bytes) : Checked Bytes := do
  let a ← load8 bytes (s8 + 8 * i)
  store8 (d8 + 8 * i) a bytes

def copyByte (d1 s1 i : Nat) (bytes : Bytes) : Checked Bytes :=
  pure (writeList (d1 + i) (readList bytes (s1 + i) 1) bytes)

/-- `for (size_t i = 0; i < limit; i += step)`. -/
def forRound (W : Wordsize) (limit step : Nat) (body : Nat → Bytes → Checked Bytes)
    (state : Nat × Bytes) : Checked (Round (Nat × Bytes) Bytes) :=
  if state.1 < limit then do
    let next ← body state.1 state.2
    pure (.again (W.add state.1 step, next))
  else pure (.leave state.2)

def forLoop (W : Wordsize) (limit step : Nat) (body : Nat → Bytes → Checked Bytes)
    (bytes : Bytes) : Checked Bytes :=
  loop (forRound W limit step body) .diverges (limit + 1) (0, bytes)

end MemcpyAligned

open MemcpyAligned

/-- A pointer to words that is moved by `sz8` elements moves by `8 * sz8` bytes. The mask
of the first loop is `~7`, extended to `size_t`. -/
def memcpyAligned (W : Wordsize) (dst src size : Nat) (bytes : Bytes) : Checked Bytes := do
  let sz8 := size / 8 &&& (W.modulus - 8)
  let bytes ← forLoop W sz8 8 (copyBlock dst src) bytes
  let s8 := src + 8 * sz8
  let d8 := dst + 8 * sz8
  let sz8 := size / 8 &&& 7
  let bytes ← forLoop W sz8 1 (copyWord d8 s8) bytes
  let s1 := s8 + 8 * sz8
  let d1 := d8 + 8 * sz8
  forLoop W (size % 8) 1 (copyByte d1 s1) bytes

/-- The copy of the file contents of a segment in `l4_exec_read_exec`. -/
def copySegment (W : Wordsize) (dst src size : Nat) (bytes : Bytes) : Checked Bytes :=
  if src % 8 ≠ 0 ∨ dst % 8 ≠ 0 then memcpy dst src size bytes
  else memcpyAligned W dst src size bytes

/-! ## One step of a loop -/

section

variable {dst src size m n : Nat} {bytes : Bytes}

theorem memcpy_eq (apart : dst + size ≤ src ∨ src + size ≤ dst) :
    memcpy dst src size bytes = .ok (memmove dst src size bytes) := by
  rw [memcpy, require, if_pos apart]
  rfl

theorem load8_eq {address : Nat} (aligned : 8 ∣ address) :
    load8 bytes address = .ok (readList bytes address 8) := by
  rw [load8, require, if_pos (Nat.mod_eq_zero_of_dvd aligned)]
  rfl

theorem store8_eq {address : Nat} {word : List UInt8} (aligned : 8 ∣ address) :
    store8 address word bytes = .ok (writeList address word bytes) := by
  rw [store8, require, if_pos (Nat.mod_eq_zero_of_dvd aligned)]
  rfl

theorem copy_block_copies {d8 s8 i : Nat} (dstAligned : 8 ∣ d8) (srcAligned : 8 ∣ s8) :
    copyBlock d8 s8 i bytes = .ok (memmove (d8 + 8 * i) (s8 + 8 * i) 64 bytes) := by
  have word : ∀ p j, 8 * (p + j) = 8 * p + 8 * j := fun p j => Nat.mul_add 8 p j
  have dstWord : ∀ j, 8 ∣ d8 + 8 * j := fun j => Nat.dvd_add dstAligned (Nat.dvd_mul_right 8 j)
  have srcWord : ∀ j, 8 ∣ s8 + 8 * j := fun j => Nat.dvd_add srcAligned (Nat.dvd_mul_right 8 j)
  rw [copyBlock]
  simp only [load8_eq (srcWord _), store8_eq (dstWord _), ok_bind]
  rw [write_list_read_list]
  simp only [word, ← Nat.add_assoc, write_list_memmove]

theorem copy_word_copies {d8 s8 i : Nat} (dstAligned : 8 ∣ d8) (srcAligned : 8 ∣ s8) :
    copyWord d8 s8 i bytes = .ok (memmove (d8 + 8 * i) (s8 + 8 * i) 8 bytes) := by
  rw [copyWord, load8_eq (Nat.dvd_add srcAligned (Nat.dvd_mul_right 8 i)), ok_bind,
    store8_eq (Nat.dvd_add dstAligned (Nat.dvd_mul_right 8 i)), write_list_read_list]

theorem copy_byte_copies {d1 s1 i : Nat} :
    copyByte d1 s1 i bytes = .ok (memmove (d1 + i) (s1 + i) 1 bytes) := by
  rw [copyByte, write_list_read_list]
  rfl

end

/-! ## The loops -/

section

variable {W : Wordsize} {dst src size unit limit step : Nat} {bytes : Bytes}
  {body : Nat → Bytes → Checked Bytes}

/-- A round in the middle of the loop, when the elements before `i` are copied. -/
theorem for_round_copies {i : Nat} (bytes : Bytes) (whole : step ∣ limit)
    (fits : limit < W.modulus) (apart : dst + unit * limit ≤ src ∨ src + unit * limit ≤ dst)
    (copies : ∀ i current, body i current =
      .ok (memmove (dst + unit * i) (src + unit * i) (unit * step) current))
    (steps : step ∣ i) (running : i < limit) :
    forRound W limit step body (i, memmove dst src (unit * i) bytes) =
        .ok (.again (i + step, memmove dst src (unit * (i + step)) bytes)) ∧
      i + step ≤ limit := by
  have rest : step ≤ limit - i := Nat.le_of_dvd (by omega) (Nat.dvd_sub whole steps)
  have product : unit * (i + step) ≤ unit * limit := Nat.mul_le_mul_left unit (by omega)
  rw [Nat.mul_add] at product
  constructor
  · rw [forRound, if_pos running]
    simp only [copies, ok_bind, Nat.mul_add]
    rw [memmove_append (by omega), W.add_of_lt (by omega)]
    rfl
  · omega

/-- A loop whose rounds copy `step` elements of `unit` bytes each copies `limit` elements:
before the round `i` the first `i` of them are copied. -/
theorem for_loop_copies (stepPos : 0 < step) (whole : step ∣ limit)
    (fits : limit < W.modulus)
    (apart : dst + unit * limit ≤ src ∨ src + unit * limit ≤ dst)
    (copies : ∀ i current, body i current =
      .ok (memmove (dst + unit * i) (src + unit * i) (unit * step) current)) :
    forLoop W limit step body bytes = .ok (memmove dst src (unit * limit) bytes) := by
  let Inv : Nat × Bytes → Prop := fun state => state.1 ≤ limit ∧ step ∣ state.1 ∧
    state.2 = memmove dst src (unit * state.1) bytes
  have round : ∀ state, Inv state →
      (∃ value, forRound W limit step body state = .ok (.leave value) ∧
        value = memmove dst src (unit * limit) bytes) ∨
      ∃ next, forRound W limit step body state = .ok (.again next) ∧ Inv next ∧
        limit - next.1 < limit - state.1 := by
    rintro ⟨i, current⟩ ⟨le, steps, copied⟩
    simp only at le steps copied
    subst copied
    by_cases running : i < limit
    · right
      obtain ⟨again, inside⟩ := for_round_copies bytes whole fits apart copies steps running
      refine ⟨_, again, ⟨inside, Nat.dvd_add steps (Nat.dvd_refl step), rfl⟩, ?_⟩
      simp only
      omega
    · left
      obtain rfl : i = limit := Nat.le_antisymm le (by omega)
      exact ⟨_, by rw [forRound, if_neg running]; rfl, rfl⟩
  have start : Inv (0, bytes) := ⟨Nat.zero_le limit, Nat.dvd_zero step, by simp⟩
  obtain ⟨value, returned, rfl⟩ := loop_total _ Stop.diverges Inv _ _ round start
    (Nat.lt_succ_self limit)
  exact returned

theorem mask_eq (W : Wordsize) {count : Nat} (word : count < W.modulus) :
    count &&& (W.modulus - 8) = 8 * (count / 8) := by
  have high : (W.modulus - 8) / 2 ^ 3 = 2 ^ (W.bits - 3) - 1 := by cases W <;> rfl
  have low : (W.modulus - 8) % 2 ^ 3 = 0 := by cases W <;> rfl
  have below : count / 2 ^ 3 < 2 ^ (W.bits - 3) := by
    rw [Nat.div_lt_iff_lt_mul (by decide), ← pow_add]
    cases W <;> exact word
  have quotient : (count &&& (W.modulus - 8)) / 2 ^ 3 = count / 2 ^ 3 := by
    rw [Nat.and_div_two_pow, high, Nat.and_two_pow_sub_one_eq_mod, Nat.mod_eq_of_lt below]
  have remainder : (count &&& (W.modulus - 8)) % 2 ^ 3 = 0 := by
    rw [Nat.and_mod_two_pow, low, Nat.and_zero]
  omega

theorem memcpy_aligned_eq (dstAligned : 8 ∣ dst) (srcAligned : 8 ∣ src)
    (word : size < W.modulus) (apart : dst + size ≤ src ∨ src + size ≤ dst) :
    memcpyAligned W dst src size bytes = .ok (memmove dst src size bytes) := by
  have large := W.modulus_ge
  have blocks : size / 8 &&& (W.modulus - 8) = 8 * (size / 64) := by
    rw [mask_eq W (by omega), Nat.div_div_eq_div_mul]
  have words : size / 8 &&& 7 = size / 8 % 8 := Nat.and_two_pow_sub_one_eq_mod (size / 8) 3
  rw [memcpyAligned, blocks, words]
  have split : size = 8 * (8 * (size / 64)) + 8 * (size / 8 % 8) + 1 * (size % 8) := by omega
  have wordsFit : size / 8 % 8 < W.modulus := by omega
  have bytesFit : size % 8 < W.modulus := by omega
  have blocksFit : 8 * (size / 64) < W.modulus := by omega
  have blocksWhole : 8 ∣ 8 * (size / 64) := Nat.dvd_mul_right 8 _
  generalize 8 * (size / 64) = blockWords at split blocksFit blocksWhole
  generalize size / 8 % 8 = words at split wordsFit
  generalize size % 8 = rest at split bytesFit
  have eights : ∀ p, 8 ∣ p → 8 ∣ p + 8 * blockWords := fun p aligned =>
    Nat.dvd_add aligned (Nat.dvd_mul_right 8 blockWords)
  have blocksDone : forLoop W blockWords 8 (copyBlock dst src) bytes =
      .ok (memmove dst src (8 * blockWords) bytes) :=
    for_loop_copies (by decide) blocksWhole blocksFit (by omega)
      (fun _ _ => copy_block_copies dstAligned srcAligned)
  have wordsDone : forLoop W words 1 (copyWord (dst + 8 * blockWords) (src + 8 * blockWords))
        (memmove dst src (8 * blockWords) bytes) =
      .ok (memmove (dst + 8 * blockWords) (src + 8 * blockWords) (8 * words)
        (memmove dst src (8 * blockWords) bytes)) :=
    for_loop_copies (by decide) (Nat.one_dvd words) wordsFit (by omega)
      (fun _ _ => copy_word_copies (eights dst dstAligned) (eights src srcAligned))
  rw [memmove_append (by omega)] at wordsDone
  have bytesDone : forLoop W rest 1
        (copyByte (dst + 8 * blockWords + 8 * words) (src + 8 * blockWords + 8 * words))
        (memmove dst src (8 * blockWords + 8 * words) bytes) =
      .ok (memmove (dst + 8 * blockWords + 8 * words) (src + 8 * blockWords + 8 * words)
        (1 * rest) (memmove dst src (8 * blockWords + 8 * words) bytes)) :=
    for_loop_copies (by decide) (Nat.one_dvd rest) bytesFit (by omega)
      (fun i _ => by rw [copy_byte_copies, Nat.one_mul])
  rw [Nat.add_assoc dst, Nat.add_assoc src, memmove_append (by omega), ← split] at bytesDone
  simp only [blocksDone, wordsDone, ok_bind, Nat.add_assoc] at bytesDone ⊢
  exact bytesDone

/-- The optimised copy is `memcpy`: it moves the bytes of the source into the destination
and leaves all others alone. -/
theorem memcpy_aligned_agrees_with_memcpy (dstAligned : 8 ∣ dst) (srcAligned : 8 ∣ src)
    (word : size < W.modulus) (apart : dst + size ≤ src ∨ src + size ≤ dst) :
    ∃ after, memcpyAligned W dst src size bytes = .ok after ∧
      memcpy dst src size bytes = .ok after ∧
      (∀ k, k < size → after (dst + k) = bytes (src + k)) ∧
      ∀ a, a < dst ∨ dst + size ≤ a → after a = bytes a :=
  ⟨memmove dst src size bytes, memcpy_aligned_eq dstAligned srcAligned word apart,
    memcpy_eq apart, fun _ inside => memmove_inside inside, fun _ outside => memmove_outside outside⟩

/-- One block, one word and three bytes. -/
theorem memcpy_aligned_agrees_with_memcpy_on_75_bytes :
    ∃ after, memcpyAligned .w64 128 0 75 (fun a => UInt8.ofNat a) = .ok after ∧
      memcpy 128 0 75 (fun a => UInt8.ofNat a) = .ok after ∧ after 202 = 74 ∧ after 203 = 203 := by
  obtain ⟨after, copied, same, inside, outside⟩ :=
    @memcpy_aligned_agrees_with_memcpy .w64 128 0 75 (fun a => UInt8.ofNat a)
      (by decide) (by decide) (by decide) (by decide)
  exact ⟨after, copied, same, inside 74 (by decide), outside 203 (by decide)⟩

/-- Whichever of the two copies is chosen for a segment. -/
theorem copy_segment_eq_memcpy (word : size < W.modulus)
    (apart : dst + size ≤ src ∨ src + size ≤ dst) :
    copySegment W dst src size bytes = memcpy dst src size bytes := by
  unfold copySegment
  split_ifs with unaligned
  · rfl
  · push Not at unaligned
    rw [memcpy_aligned_eq (Nat.dvd_of_mod_eq_zero unaligned.2)
      (Nat.dvd_of_mod_eq_zero unaligned.1) word apart, memcpy_eq apart]

end

end L4Bootstrap
