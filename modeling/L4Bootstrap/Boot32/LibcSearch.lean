import L4Bootstrap.Lib.BlockWrites
import L4Bootstrap.Lib.Word
import L4Bootstrap.Support

/-!
# Searching memory in the 32-bit part

`memchr.c`, `strnlen.c` and `strlen.c` of the small C library of `boot32`. They look at a
word at a time and leave the word in which `HASZERO` sees a zero byte to a loop over bytes.
-/

namespace L4Bootstrap.Boot32.Libc

open ByteMemory CheckedLoop MachineWord

set_option autoImplicit false

/-- `ONES` and `HIGHS` for a `size_t` of 32 bits. -/
def wordOnes : Nat := (2 ^ 32 - 1) / 255

def wordHighs : Nat := wordOnes * (255 / 2 + 1)

/-- `HASZERO`, before its conversion to a condition. -/
def hasZero (x : Nat) : Nat := Wordsize.w32.sub x wordOnes &&& (2 ^ 32 - 1 - x) &&& wordHighs

section

variable (bytes : Bytes)

/-- `for (; ((uintptr_t)s & ALIGN) && n && *s != c; s++, n--)` -/
def chrAlign (c : UInt8) : Nat → Nat → Nat × Nat
  | 0, s => (0, s)
  | n + 1, s => if s &&& 3 ≠ 0 ∧ bytes s ≠ c then chrAlign c n (s + 1) else (n + 1, s)

/-- `for (w = (const void *)s; n>=SS && !HASZERO(*w^k); w++, n-=SS)` -/
def chrWords (k : Nat) : Nat → Nat → Nat × Nat
  | n + 4, w => if hasZero (readLe bytes w 4 ^^^ k) = 0 then chrWords k n (w + 4) else (n + 4, w)
  | n, w => (n, w)

/-- `for (; n && *s != c; s++, n--)` -/
def chrBytes (c : UInt8) : Nat → Nat → Nat × Nat
  | 0, s => (0, s)
  | n + 1, s => if bytes s ≠ c then chrBytes c n (s + 1) else (n + 1, s)

/-- `memchr`, with `none` for the null pointer. -/
def memchr (src c n : Nat) : Option Nat :=
  let c := UInt8.ofNat c
  let (n, s) := chrAlign bytes c n src
  let (n, s) :=
    if n ≠ 0 ∧ bytes s ≠ c then chrWords bytes (wordOnes * c.toNat) n s else (n, s)
  let (n, s) := chrBytes bytes c n s
  if n ≠ 0 then some s else none

def strnlen (s n : Nat) : Nat :=
  match memchr bytes s 0 n with
  | some p => p - s
  | none => n

/-- `for (; (uintptr_t)s % SS; s++) if (!*s) return s-a;` -/
def lenAlign (a s : Nat) : Checked (Round Nat (Nat ⊕ Nat)) :=
  if s % 4 ≠ 0 then
    if bytes s = 0 then .ok (.leave (.inl (s - a))) else .ok (.again (s + 1))
  else .ok (.leave (.inr s))

/-- `for (w = (const void *)s; !HASZERO(*w); w++);` -/
def lenWords (w : Nat) : Checked (Round Nat Nat) :=
  if hasZero (readLe bytes w 4) = 0 then .ok (.again (w + 4)) else .ok (.leave w)

/-- `for (; *s; s++);` -/
def lenBytes (s : Nat) : Checked (Round Nat Nat) :=
  if bytes s ≠ 0 then .ok (.again (s + 1)) else .ok (.leave s)

/-- `strlen`; each loop gets a round for every address. -/
def strlen (s : Nat) : Checked Nat := do
  let a := s
  match ← loop (lenAlign bytes a) .diverges (2 ^ 32) s with
  | .inl len => .ok len
  | .inr s =>
      let w ← loop (lenWords bytes) .diverges (2 ^ 32) s
      let s ← loop (lenBytes bytes) .diverges (2 ^ 32) w
      .ok (s - a)

end

/-! ## The test of a word -/

section

variable {bytes : Bytes} {x p s n w k len : Nat} {c : UInt8}

/-- The lowest zero byte borrows, and nothing below it does. -/
theorem has_zero_of_byte {j : Nat} (word : x < 2 ^ 32) (low : j < 4)
    (zero : x / 256 ^ j % 256 = 0) :
    hasZero x ≠ 0 := by
  suffices bit : ∃ i, (hasZero x).testBit i = true by
    intro none
    obtain ⟨i, set⟩ := bit
    rw [none, Nat.zero_testBit] at set
    exact Bool.false_ne_true set
  have modulus : Wordsize.w32.modulus = 4294967296 := rfl
  have onesEq : wordOnes = 16843009 := rfl
  have set : ∀ i, wordHighs.testBit i = true →
      (x + 4294967296 - 16843009) % 4294967296 / 2 ^ i % 2 = 1 →
      (2 ^ 32 - 1 - x) / 2 ^ i % 2 = 1 → ∃ i, (hasZero x).testBit i = true := by
    intro i high borrows clear
    refine ⟨i, ?_⟩
    rw [hasZero, Nat.testBit_and, Nat.testBit_and, high, Nat.testBit_eq_decide_div_mod_eq,
      Nat.testBit_eq_decide_div_mod_eq, Wordsize.sub, modulus, onesEq, borrows, clear]
    rfl
  by_cases first : x % 256 = 0
  · apply set 7 rfl
    · omega
    · omega
  by_cases second : x / 256 % 256 = 0
  · apply set 15 rfl
    · omega
    · omega
  by_cases third : x / 65536 % 256 = 0
  · apply set 23 rfl
    · omega
    · omega
  have fourth : x / 16777216 % 256 = 0 := by
    obtain rfl | rfl | rfl | rfl : j = 0 ∨ j = 1 ∨ j = 2 ∨ j = 3 := by omega
    all_goals omega
  apply set 31 rfl
  · omega
  · omega

theorem has_zero_of_zero {j : Nat} (low : j < 4) (zero : bytes (w + j) = 0) :
    hasZero (readLe bytes w 4) ≠ 0 := by
  apply has_zero_of_byte read_le_lt low
  rw [read_le_byte low, zero]
  rfl

theorem has_zero_of_match {j : Nat} (low : j < 4) (found : bytes (w + j) = c) :
    hasZero (readLe bytes w 4 ^^^ (wordOnes * c.toNat)) ≠ 0 := by
  have byte := c.toNat_lt
  have onesEq : wordOnes = 16843009 := rfl
  have all : wordOnes * c.toNat / 256 ^ j % 256 = c.toNat := @ones_byte 4 _ j byte low
  have power : 256 ^ j = 2 ^ (8 * j) := (pow_mul 2 8 j).symm
  have word : wordOnes * c.toNat < 2 ^ 32 := by
    rw [onesEq]
    omega
  apply has_zero_of_byte (Nat.xor_lt_two_pow read_le_lt word) low
  rw [power, Nat.xor_div_two_pow, show 256 = 2 ^ 8 from rfl, Nat.xor_mod_two_pow, ← power,
    show 2 ^ 8 = 256 from rfl, read_le_byte low, all, found, Nat.xor_self]

/-! ## `memchr` -/

/-- Whatever a phase of the search skips, the loop over bytes would have skipped. -/
theorem chr_align_skips :
    chrBytes bytes c (chrAlign bytes c n s).1 (chrAlign bytes c n s).2 = chrBytes bytes c n s := by
  induction n generalizing s with
  | zero => rfl
  | succ n ih =>
      rw [chrAlign]
      by_cases skip : s &&& 3 ≠ 0 ∧ bytes s ≠ c
      · rw [if_pos skip, ih, chrBytes, if_pos skip.2]
      · rw [if_neg skip]

theorem chr_bytes_skips {m : Nat} (differs : ∀ j < m, bytes (s + j) ≠ c) :
    chrBytes bytes c (n + m) s = chrBytes bytes c n (s + m) := by
  induction m generalizing s with
  | zero => rfl
  | succ m ih =>
      have first : bytes s ≠ c := differs 0 (Nat.succ_pos m)
      have rest : ∀ j < m, bytes (s + 1 + j) ≠ c := by
        intro j below
        rw [Nat.add_assoc, Nat.add_comm 1]
        exact differs (j + 1) (by omega)
      rw [← Nat.add_assoc, chrBytes, if_pos first, ih rest, Nat.add_assoc s, Nat.add_comm 1]

theorem chr_words_skips :
    chrBytes bytes c (chrWords bytes (wordOnes * c.toNat) n w).1
      (chrWords bytes (wordOnes * c.toNat) n w).2 = chrBytes bytes c n w := by
  induction n, w using chrWords.induct bytes (wordOnes * c.toNat) with
  | case1 n w clear ih =>
      have differs : ∀ j < 4, bytes (w + j) ≠ c := fun j low found =>
        has_zero_of_match low found clear
      rw [chrWords, if_pos clear, ih, chr_bytes_skips differs]
  | case2 n w found => rw [chrWords, if_neg found]
  | case3 n w few =>
      rw [chrWords]
      exact few

/-- The optimised search is the plain one. -/
theorem memchr_eq (src value n : Nat) :
    memchr bytes src value n =
      if (chrBytes bytes (UInt8.ofNat value) n src).1 ≠ 0 then
        some (chrBytes bytes (UInt8.ofNat value) n src).2
      else none := by
  rw [memchr]
  generalize UInt8.ofNat value = c
  have skipped : ∀ n s, chrBytes bytes c
      (if n ≠ 0 ∧ bytes s ≠ c then chrWords bytes (wordOnes * c.toNat) n s else (n, s)).1
      (if n ≠ 0 ∧ bytes s ≠ c then chrWords bytes (wordOnes * c.toNat) n s else (n, s)).2 =
        chrBytes bytes c n s := by
    intro n s
    split_ifs
    · exact chr_words_skips
    · rfl
  simp only [skipped, chr_align_skips]

theorem chr_bytes_finds (n s : Nat) :
    (∃ k < n, bytes (s + k) = c ∧ (∀ j < k, bytes (s + j) ≠ c) ∧
      chrBytes bytes c n s = (n - k, s + k)) ∨
    (∀ k < n, bytes (s + k) ≠ c) ∧ chrBytes bytes c n s = (0, s + n) := by
  induction n generalizing s with
  | zero =>
      right
      exact ⟨fun k below => absurd below (Nat.not_lt_zero k), rfl⟩
  | succ n ih =>
      rw [chrBytes]
      by_cases here : bytes s = c
      · left
        rw [if_neg (not_not.mpr here)]
        exact ⟨0, Nat.succ_pos n, here, fun j below => absurd below (Nat.not_lt_zero j), rfl⟩
      rw [if_pos here]
      have shift : ∀ k, s + 1 + k = s + (k + 1) := by
        intro k
        omega
      rcases ih (s + 1) with ⟨k, below, found, before, result⟩ | ⟨never, result⟩
      · left
        rw [shift] at found result
        refine ⟨k + 1, by omega, found, ?_, by rw [result, Nat.add_sub_add_right]⟩
        intro j below
        cases j with
        | zero => exact here
        | succ j =>
            rw [← shift]
            exact before j (by omega)
      · right
        rw [shift] at result
        refine ⟨?_, result⟩
        intro j below
        cases j with
        | zero => exact here
        | succ j =>
            rw [← shift]
            exact never j (by omega)

/-- `memchr` returns the first place of the byte in the block, and nothing if there is none. -/
theorem memchr_finds (src value n : Nat) (found : Nat) :
    memchr bytes src value n = some found ↔
      ∃ k < n, found = src + k ∧ bytes (src + k) = UInt8.ofNat value ∧
        ∀ j < k, bytes (src + j) ≠ UInt8.ofNat value := by
  rw [memchr_eq]
  rcases @chr_bytes_finds bytes (UInt8.ofNat value) n src with
    ⟨k, below, here, before, result⟩ | ⟨never, result⟩
  · rw [result, if_pos (by simp only; omega), Option.some_inj]
    constructor
    · intro same
      exact ⟨k, below, same.symm, here, before⟩
    · intro first
      obtain ⟨other, _, same, otherHere, otherBefore⟩ := first
      have order : other = k := by
        apply Nat.le_antisymm
        · exact Nat.le_of_not_lt fun less => otherBefore k less here
        · exact Nat.le_of_not_lt fun less => before other less otherHere
      rw [same, order]
  · rw [result, if_neg (by simp)]
    constructor
    · intro impossible
      cases impossible
    · intro first
      obtain ⟨k, below, _, here, _⟩ := first
      exact absurd here (never k below)

/-! ## The length of a string -/

/-- A string of this length begins at the address. -/
structure IsString (bytes : Bytes) (s len : Nat) : Prop where
  terminated : bytes (s + len) = 0
  nonzero : ∀ k < len, bytes (s + k) ≠ 0

theorem IsString.strnlen_eq (string : IsString bytes s len) : strnlen bytes s n = min n len := by
  rw [strnlen, memchr_eq]
  have zero : UInt8.ofNat 0 = 0 := rfl
  rw [zero]
  rcases @chr_bytes_finds bytes 0 n s with ⟨k, below, here, before, result⟩ | ⟨never, result⟩
  · have isLen : k = len := by
      apply Nat.le_antisymm
      · exact Nat.le_of_not_lt fun less => before len less string.terminated
      · exact Nat.le_of_not_lt fun less => string.nonzero k less here
    rw [result, if_pos (by simp only; omega)]
    simp only
    omega
  · have atLeast : n ≤ len := Nat.le_of_not_lt fun less => never len less string.terminated
    rw [result, if_neg (by simp)]
    exact (Nat.min_eq_left atLeast).symm

/-- A place inside the string or at its end. -/
def InString (s len place : Nat) : Prop := s ≤ place ∧ place ≤ s + len

theorem IsString.inside (string : IsString bytes s len) {place : Nat}
    (inString : InString s len place)
    (more : bytes place ≠ 0) : place < s + len := by
  apply Nat.lt_of_le_of_ne inString.2
  intro atEnd
  rw [atEnd] at more
  exact more string.terminated

theorem IsString.at_end (string : IsString bytes s len) {place : Nat}
    (inString : InString s len place)
    (zero : bytes place = 0) : place = s + len := by
  apply Nat.le_antisymm inString.2
  apply Nat.le_of_not_lt
  intro before
  obtain ⟨k, rfl⟩ := Nat.exists_eq_add_of_le inString.1
  exact string.nonzero k (by omega) zero

/-- The bytes in front of a word boundary: the end of the string is among them or not. -/
theorem IsString.align_leaves (string : IsString bytes s len) (fits : s + len < 2 ^ 32) :
    ∃ found, loop (lenAlign bytes s) .diverges (2 ^ 32) s = .ok found ∧
      (found = .inl len ∨ ∃ place, found = .inr place ∧ InString s len place) := by
  apply loop_total (lenAlign bytes s) Stop.diverges (InString s len) _
    (fun place => s + len - place) _ ⟨le_rfl, Nat.le_add_right s len⟩ (by omega)
  intro place inString
  rw [lenAlign]
  by_cases aligned : place % 4 ≠ 0
  · rw [if_pos aligned]
    by_cases zero : bytes place = 0
    · left
      have atEnd := string.at_end inString zero
      rw [if_pos zero]
      exact ⟨_, rfl, .inl (by rw [atEnd, Nat.add_sub_cancel_left])⟩
    · right
      have more := string.inside inString zero
      have above := inString.1
      rw [if_neg zero]
      exact ⟨_, rfl, ⟨by omega, by omega⟩, by omega⟩
  · left
    rw [if_neg aligned]
    exact ⟨_, rfl, .inr ⟨place, rfl, inString⟩⟩

/-- A word that is skipped has no part of the end of the string. -/
theorem IsString.words_leave (string : IsString bytes s len) (fits : s + len < 2 ^ 32)
    {place : Nat} (inString : InString s len place) :
    ∃ w, loop (lenWords bytes) .diverges (2 ^ 32) place = .ok w ∧ InString s len w := by
  apply loop_total (lenWords bytes) Stop.diverges (InString s len) (InString s len)
    (fun place => s + len - place) _ inString (by omega)
  intro place inString
  have above := inString.1
  have below := inString.2
  rw [lenWords]
  by_cases clear : hasZero (readLe bytes place 4) = 0
  · right
    have skipped : place + 4 ≤ s + len := by
      apply Nat.le_of_not_lt
      intro overrun
      have atEnd : bytes (place + (s + len - place)) = 0 := by
        rw [Nat.add_sub_cancel' below]
        exact string.terminated
      exact has_zero_of_zero (by omega) atEnd clear
    rw [if_pos clear]
    exact ⟨_, rfl, ⟨by omega, skipped⟩, by omega⟩
  · left
    rw [if_neg clear]
    exact ⟨_, rfl, inString⟩

theorem IsString.bytes_leave (string : IsString bytes s len) (fits : s + len < 2 ^ 32)
    {place : Nat} (inString : InString s len place) :
    loop (lenBytes bytes) .diverges (2 ^ 32) place = .ok (s + len) := by
  suffices total : ∃ last, loop (lenBytes bytes) .diverges (2 ^ 32) place = .ok last ∧
      last = s + len by
    obtain ⟨last, done, rfl⟩ := total
    exact done
  apply loop_total (lenBytes bytes) Stop.diverges (InString s len) (fun last => last = s + len)
    (fun place => s + len - place) _ inString (by omega)
  intro place inString
  rw [lenBytes]
  by_cases nonzero : bytes place ≠ 0
  · right
    have more := string.inside inString nonzero
    have above := inString.1
    rw [if_pos nonzero]
    exact ⟨_, rfl, ⟨by omega, by omega⟩, by omega⟩
  · left
    rw [if_neg nonzero]
    exact ⟨_, rfl, string.at_end inString (not_not.mp nonzero)⟩

/-- `strlen` returns the length of every string, and `strnlen` the same up to its limit. -/
theorem string_lengths (string : IsString bytes s len) (fits : s + len < 2 ^ 32) :
    strlen bytes s = .ok len ∧ ∀ n, strnlen bytes s n = min n len := by
  constructor
  · obtain ⟨found, aligned, outcome⟩ := string.align_leaves fits
    rw [strlen]
    simp only [aligned, ok_bind]
    rcases outcome with rfl | ⟨place, rfl, inString⟩
    · rfl
    · obtain ⟨w, words, inWord⟩ := string.words_leave fits inString
      simp only [words, ok_bind, string.bytes_leave fits inWord, Nat.add_sub_cancel_left]
  · intro n
    exact string.strnlen_eq

/-- Ten characters from an address that is no word boundary. -/
theorem string_lengths_of_ten :
    strlen (fun a => if a = 4105 then 0 else 0x41) 4095 = .ok 10 ∧
      ∀ n, strnlen (fun a => if a = 4105 then 0 else 0x41) 4095 n = min n 10 :=
  string_lengths ⟨rfl, by decide⟩ (by decide)

end

end L4Bootstrap.Boot32.Libc
