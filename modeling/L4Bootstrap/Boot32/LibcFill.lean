import L4Bootstrap.Lib.BlockWrites
import L4Bootstrap.Lib.Word
import L4Bootstrap.Support

/-!
# Filling memory in the 32-bit part

`memset.c` of the small C library of `boot32`: single bytes at both ends first, then words
of four bytes at both ends of the aligned rest, then 32 bytes a round. The stores overlap,
and the tail is written before the loop gets there.
-/

namespace L4Bootstrap.Boot32.Libc

open ByteMemory CheckedLoop MachineWord

set_option autoImplicit false

/-- A store of `width` bytes, in little-endian order. -/
def store (width address value : Nat) (bytes : Bytes) : Bytes :=
  writeList address (leBytes width value) bytes

/-- `for (; n >= 32; n-=32, s+=32)` -/
def fillRound (c64 : Nat) (state : Nat × Nat × Bytes) : Checked (Round (Nat × Nat × Bytes) Bytes) :=
  let (s, n, bytes) := state
  if 32 ≤ n then
    let bytes := store 8 s c64 bytes
    let bytes := store 8 (s + 8) c64 bytes
    let bytes := store 8 (s + 16) c64 bytes
    let bytes := store 8 (s + 24) c64 bytes
    .ok (.again (s + 32, n - 32, bytes))
  else .ok (.leave bytes)

/-- The part of `memset` behind the alignment of `s` and `n` to words. -/
def fillWords (s c n : Nat) (bytes : Bytes) : Checked Bytes :=
  let c32 := (2 ^ 32 - 1) / 255 * c
  let bytes := store 4 s c32 bytes
  let bytes := store 4 (s + n - 4) c32 bytes
  if n ≤ 8 then .ok bytes
  else
    let bytes := store 4 (s + 4) c32 bytes
    let bytes := store 4 (s + 8) c32 bytes
    let bytes := store 4 (s + n - 12) c32 bytes
    let bytes := store 4 (s + n - 8) c32 bytes
    if n ≤ 24 then .ok bytes
    else
      let bytes := store 4 (s + 12) c32 bytes
      let bytes := store 4 (s + 16) c32 bytes
      let bytes := store 4 (s + 20) c32 bytes
      let bytes := store 4 (s + 24) c32 bytes
      let bytes := store 4 (s + n - 28) c32 bytes
      let bytes := store 4 (s + n - 24) c32 bytes
      let bytes := store 4 (s + n - 20) c32 bytes
      let bytes := store 4 (s + n - 16) c32 bytes
      let k := 24 + (s &&& 4)
      let c64 := c32 ||| (c32 <<< 32)
      loop (fillRound c64) .diverges (n + 1) (s + k, n - k, bytes)

/-- `memset`; the argument `c` is an `int`, given by its 32 bits. -/
def memset (dest c n : Nat) (bytes : Bytes) : Checked Bytes :=
  if n = 0 then .ok bytes
  else
    let bytes := store 1 dest c bytes
    let bytes := store 1 (dest + (n - 1)) c bytes
    if n ≤ 2 then .ok bytes
    else
      let bytes := store 1 (dest + 1) c bytes
      let bytes := store 1 (dest + 2) c bytes
      let bytes := store 1 (dest + (n - 2)) c bytes
      let bytes := store 1 (dest + (n - 3)) c bytes
      if n ≤ 6 then .ok bytes
      else
        let bytes := store 1 (dest + 3) c bytes
        let bytes := store 1 (dest + (n - 4)) c bytes
        if n ≤ 8 then .ok bytes
        else
          let k := Wordsize.w32.sub 0 dest &&& 3
          fillWords (dest + k) (c % 256) ((n - k) &&& (2 ^ 32 - 4)) bytes

/-! ## One store -/

section

variable {dest size width address next value head tail offset m : Nat} {fill : UInt8}
  {bytes : Bytes}

/-- All bytes of a value are the same. -/
def Fills (width value : Nat) (fill : UInt8) : Prop :=
  leBytes width value = List.replicate width fill

theorem Fills.store (fills : Fills width value fill) :
    store width address value bytes = ByteMemory.memset address fill width bytes := by
  rw [Libc.store, fills, write_list_replicate]

/-- A store right behind bytes that are filled. -/
theorem Fills.store_next (fills : Fills width value fill) (follows : next = address + m) :
    Libc.store width next value (ByteMemory.memset address fill m bytes) =
      ByteMemory.memset address fill (m + width) bytes := by
  rw [fills.store, follows, memset_append]

theorem Fills.store_two (fills : Fills width value fill) (follows : next = address + width) :
    Libc.store width next value (Libc.store width address value bytes) =
      ByteMemory.memset address fill (width + width) bytes := by
  have first : Libc.store width address value bytes = ByteMemory.memset address fill width bytes :=
    fills.store
  rw [first, fills.store_next follows]

/-- Four stores in a row. -/
theorem Fills.store_four (fills : Fills width value fill) {second third fourth : Nat}
    (one : second = address + width) (two : third = address + (width + width))
    (three : fourth = address + (width + width + width)) :
    Libc.store width fourth value (Libc.store width third value
        (Libc.store width second value (Libc.store width address value bytes))) =
      ByteMemory.memset address fill (width + width + width + width) bytes := by
  rw [fills.store_two one, fills.store_next two, fills.store_next three]

theorem Fills.store_head (fills : Fills width value fill) (place : address = dest + offset)
    (touches : offset ≤ head) (grows : head ≤ offset + width) (inside : offset + width ≤ size) :
    Libc.store width address value (fillEnds dest size fill head tail bytes) =
      fillEnds dest size fill (offset + width) tail bytes := by
  rw [fills.store, place, fill_head touches grows inside]

theorem Fills.store_tail (fills : Fills width value fill)
    (place : address = dest + (size - (offset + width))) (touches : offset ≤ tail)
    (grows : tail ≤ offset + width) (inside : offset + width ≤ size) :
    Libc.store width address value (fillEnds dest size fill head tail bytes) =
      fillEnds dest size fill head (offset + width) bytes := by
  rw [fills.store, place, fill_tail touches grows inside]

theorem fills_byte (c : Nat) : Fills 1 c (UInt8.ofNat c) := rfl

theorem fills_word {c : Nat} (byte : c < 256) :
    Fills 4 ((2 ^ 32 - 1) / 255 * c) (UInt8.ofNat c) :=
  @le_bytes_ones 4 c byte

theorem fills_double_word {c : Nat} (byte : c < 256) :
    Fills 8 ((2 ^ 32 - 1) / 255 * c ||| ((2 ^ 32 - 1) / 255 * c) <<< 32) (UInt8.ofNat c) := by
  have below : (2 ^ 32 - 1) / 255 * c < 2 ^ 32 := by omega
  have sum : (2 ^ 32 - 1) / 255 * c ||| ((2 ^ 32 - 1) / 255 * c) <<< 32 = ones 8 * c := by
    rw [Nat.or_comm, ← Nat.shiftLeft_add_eq_or_of_lt below, Nat.shiftLeft_eq]
    have eight : ones 8 = 72340172838076673 := by decide
    rw [eight]
    omega
  rw [sum]
  exact le_bytes_ones byte

end

/-! ## The loop -/

section

variable {dest size c c64 s n rest : Nat} {fill : UInt8} {bytes : Bytes}

/-- The loop fills what lies between the bytes before its pointer and a tail of 28 bytes:
when fewer than 32 bytes are left there are at most 28, as the count is in words. -/
theorem fill_loop (fills : Fills 8 c64 fill) {head offset fuel : Nat} (words : 4 ∣ n)
    (place : s = dest + offset) (before : offset ≤ head) (within : head ≤ offset + 32)
    (ends : offset + n + rest = size) (fits : head ≤ size) (rounds : n < fuel) :
    loop (fillRound c64) .diverges fuel
        (s, n, fillEnds dest size fill head (rest + 28) bytes) =
      .ok (ByteMemory.memset dest fill size bytes) := by
  suffices total : ∃ last, loop (fillRound c64) .diverges fuel
      (s, n, fillEnds dest size fill head (rest + 28) bytes) = .ok last ∧
        last = ByteMemory.memset dest fill size bytes by
    obtain ⟨last, done, rfl⟩ := total
    exact done
  apply loop_total (fillRound c64) Stop.diverges
    (fun state => ∃ offset head, 4 ∣ state.2.1 ∧ state.1 = dest + offset ∧ offset ≤ head ∧
      head ≤ offset + 32 ∧ offset + state.2.1 + rest = size ∧ head ≤ size ∧
      state.2.2 = fillEnds dest size fill head (rest + 28) bytes)
    (fun last => last = ByteMemory.memset dest fill size bytes) (fun state => state.2.1)
    _ ⟨offset, head, words, place, before, within, ends, fits, rfl⟩ rounds
  intro state inv
  obtain ⟨s, n, current⟩ := state
  obtain ⟨offset, head, words, place, before, within, ends, fits, same⟩ := inv
  simp only at words place ends same
  subst same
  by_cases more : 32 ≤ n
  · right
    have stores : store 8 (s + 24) c64 (store 8 (s + 16) c64 (store 8 (s + 8) c64
        (store 8 s c64 (fillEnds dest size fill head (rest + 28) bytes)))) =
          fillEnds dest size fill (offset + (8 + 8 + 8 + 8)) (rest + 28) bytes := by
      rw [fills.store_four rfl rfl rfl, place]
      exact fill_head before within (by omega)
    have wordsLeft : 4 ∣ n - 32 := by omega
    rw [fillRound]
    simp only [if_pos more, stores]
    refine ⟨_, rfl, ⟨offset + 32, offset + 32, wordsLeft, ?_, le_rfl, ?_, ?_, ?_, rfl⟩, ?_⟩
    · omega
    · omega
    · simp only
      omega
    · omega
    · simp only
      omega
  · left
    rw [fillRound]
    simp only [if_neg more]
    exact ⟨_, rfl, fill_ends_meet (by omega)⟩

/-! ## The whole block -/

theorem mask_words (word : n < 2 ^ 32) : n &&& (2 ^ 32 - 4) = 4 * (n / 4) := by
  have quotient : (n &&& (2 ^ 32 - 4)) / 2 ^ 2 = n / 2 ^ 2 := by
    rw [Nat.and_div_two_pow, show (2 ^ 32 - 4) / 2 ^ 2 = 2 ^ 30 - 1 from rfl,
      Nat.and_two_pow_sub_one_eq_mod, Nat.mod_eq_of_lt (by omega)]
  have remainder : (n &&& (2 ^ 32 - 4)) % 2 ^ 2 = 0 := by
    rw [Nat.and_mod_two_pow, show (2 ^ 32 - 4) % 2 ^ 2 = 0 from rfl, Nat.and_zero]
  omega

/-- The words between a head of four bytes or more and a tail that begins behind them. -/
theorem fill_words_fills {k head tail : Nat} (byte : c < 256) (words : 4 ∣ n) (enough : 4 ≤ n)
    (ends : k + n + rest = size) (headFits : k ≤ head ∧ head ≤ k + 4)
    (tailFits : rest ≤ tail ∧ tail ≤ rest + 4) :
    fillWords (dest + k) c n (fillEnds dest size (UInt8.ofNat c) head tail bytes) =
      .ok (ByteMemory.memset dest (UInt8.ofNat c) size bytes) := by
  have fills := fills_word byte
  have double := fills_double_word byte
  rw [fillWords]
  generalize (2 ^ 32 - 1) / 255 * c = c32 at fills double ⊢
  simp only
  rw [fills.store_head rfl headFits.1 headFits.2 (by omega),
    fills.store_tail (show dest + k + n - 4 = dest + (size - (rest + 4)) by omega) tailFits.1
      tailFits.2 (by omega)]
  by_cases two : n ≤ 8
  · rw [if_pos two, fill_ends_meet (by omega)]
  rw [if_neg two]
  rw [fills.store_two (show dest + k + 8 = dest + k + 4 + 4 by omega),
    fills.store_two (show dest + k + n - 8 = dest + k + n - 12 + 4 by omega),
    show dest + k + 4 = dest + (k + 4) by omega, fill_head le_rfl (by omega) (by omega),
    show dest + k + n - 12 = dest + (size - (rest + 4 + (4 + 4))) by omega,
    fill_tail le_rfl (by omega) (by omega)]
  by_cases six : n ≤ 24
  · rw [if_pos six, fill_ends_meet (by omega)]
  rw [if_neg six,
    fills.store_four (show dest + k + 16 = dest + k + 12 + 4 by omega)
      (show dest + k + 20 = dest + k + 12 + (4 + 4) by omega)
      (show dest + k + 24 = dest + k + 12 + (4 + 4 + 4) by omega),
    fills.store_four (show dest + k + n - 24 = dest + k + n - 28 + 4 by omega)
      (show dest + k + n - 20 = dest + k + n - 28 + (4 + 4) by omega)
      (show dest + k + n - 16 = dest + k + n - 28 + (4 + 4 + 4) by omega),
    show dest + k + 12 = dest + (k + 12) by omega, fill_head (by omega) (by omega) (by omega),
    show dest + k + n - 28 = dest + (size - (rest + 12 + (4 + 4 + 4 + 4))) by omega,
    fill_tail (by omega) (by omega) (by omega)]
  have skipFits : dest + k &&& 4 ≤ 4 := Nat.and_le_right
  have skipWords : (dest + k &&& 4) % 2 ^ 2 = 0 := by
    rw [Nat.and_mod_two_pow, show 4 % 2 ^ 2 = 0 from rfl, Nat.and_zero]
  generalize dest + k &&& 4 = skip at skipFits skipWords ⊢
  exact fill_loop double (by omega)
    (show dest + k + (24 + skip) = dest + (k + (24 + skip)) by omega) (by omega) (by omega)
    (by omega) (by omega) (by omega)

theorem memset_eq {n : Nat} (inside : dest + n < 2 ^ 32) :
    memset dest c n bytes = .ok (ByteMemory.memset dest (UInt8.ofNat c) n bytes) := by
  have byte := fills_byte c
  rw [memset]
  by_cases zero : n = 0
  · rw [if_pos zero, zero, memset_zero]
  rw [if_neg zero]
  simp only
  rw [← @fill_ends_none dest n (UInt8.ofNat c) bytes,
    byte.store_head (Nat.add_zero dest).symm le_rfl (Nat.zero_le _) (by omega),
    byte.store_tail (show dest + (n - 1) = dest + (n - (0 + 1)) by omega) le_rfl (by omega)
      (by omega)]
  by_cases one : n ≤ 2
  · rw [if_pos one, fill_ends_meet (by omega), fill_ends_none]
  rw [if_neg one, byte.store_head rfl le_rfl (by omega) (by omega),
    byte.store_head rfl le_rfl (by omega) (by omega),
    byte.store_tail (show dest + (n - 2) = dest + (n - (1 + 1)) by omega) le_rfl (by omega)
      (by omega),
    byte.store_tail (show dest + (n - 3) = dest + (n - (2 + 1)) by omega) le_rfl (by omega)
      (by omega)]
  by_cases three : n ≤ 6
  · rw [if_pos three, fill_ends_meet (by omega), fill_ends_none]
  rw [if_neg three, byte.store_head rfl le_rfl (by omega) (by omega),
    byte.store_tail (show dest + (n - 4) = dest + (n - (3 + 1)) by omega) le_rfl (by omega)
      (by omega)]
  by_cases four : n ≤ 8
  · rw [if_pos four, fill_ends_meet (by omega), fill_ends_none]
  have small : Wordsize.w32.sub 0 dest &&& 3 ≤ 3 := Nat.and_le_right
  rw [if_neg four, mask_words (by omega)]
  generalize Wordsize.w32.sub 0 dest &&& 3 = k at small ⊢
  have value : UInt8.ofNat c = UInt8.ofNat (c % 256) := by
    apply UInt8.toNat_inj.mp
    rw [UInt8.toNat_ofNat', UInt8.toNat_ofNat']
    omega
  rw [value, fill_words_fills (Nat.mod_lt _ (by decide)) (Nat.dvd_mul_right 4 _) (by omega)
    (show k + 4 * ((n - k) / 4) + (n - k) % 4 = n by omega) (by omega) (by omega), fill_ends_none]

/-- `memset` returns, with every byte of the block filled and all others as before. -/
theorem memset_fills {n : Nat} (inside : dest + n < 2 ^ 32) :
    ∃ after, memset dest c n bytes = .ok after ∧ (∀ k < n, after (dest + k) = UInt8.ofNat c) ∧
      ∀ a, a < dest ∨ dest + n ≤ a → after a = bytes a := by
  refine ⟨_, memset_eq inside, ?_, fun a outside => memset_outside outside⟩
  intro k below
  rw [ByteMemory.memset, if_pos (by omega)]

/-- A line of the screen, from an odd address on. -/
theorem memset_fills_160_bytes :
    ∃ after, memset 0xb9f01 0x120 160 (fun _ => 0) = .ok after ∧
      (∀ k < 160, after (0xb9f01 + k) = UInt8.ofNat 0x120) ∧
      ∀ a, a < 0xb9f01 ∨ 0xb9f01 + 160 ≤ a → after a = 0 :=
  memset_fills (by decide)

end

end L4Bootstrap.Boot32.Libc
