import L4Bootstrap.Strtoul

/-!
# Memory-layout arguments

`parse_memvalue` and `parse_mem_layout` of `startup.cc`: a size and an offset with a
suffix each, for the options `-mem=` and `-sysalloc=`.
-/

namespace L4Bootstrap

open MachineWord Numerals

set_option autoImplicit false

/-- `*val <<= 10`. -/
def shl10 (W : Wordsize) (val : Nat) : Nat := val * 2 ^ 10 % W.modulus

/-- Value and end pointer; `none` stands for `false`. -/
def parseMemvalue (W : Wordsize) (s : List UInt8) : Option (Nat × List UInt8) :=
  let (val, ep) := strtoul W s
  if val = W.maxWord then none
  else
    match ep with
    | [] => some (val, [])
    | c :: rest =>
        if c = 0x47 then some (shl10 W (shl10 W (shl10 W val)), rest)
        else if c = 0x4d then some (shl10 W (shl10 W val), rest)
        else if c = 0x6b ∨ c = 0x4b then some (shl10 W val, rest)
        else some (val, c :: rest)

/-- The check behind the second value. -/
def atEnd : List UInt8 → Bool
  | [] => true
  | c :: _ => isspace c

/-- Size and offset; `none` stands for `false`. -/
def parseMemLayout (W : Wordsize) (s : List UInt8) : Option (Nat × Nat) := do
  let (size, ep) ← parseMemvalue W s
  if size = 0 then none
  else
    match ep with
    | [] => none
    | c :: behind =>
        if c ≠ 0x40 then none
        else do
          let (offset, ep) ← parseMemvalue W behind
          if atEnd ep then some (size, offset) else none

/-! ## The documented syntax -/

/-- A suffix and the power of two that it stands for. -/
inductive Suffix : List UInt8 → Nat → Prop
  | bytes : Suffix [] 0
  | kib {c : UInt8} (isK : c = 0x6b ∨ c = 0x4b) : Suffix [c] 10
  | mib : Suffix [0x4d] 20
  | gib : Suffix [0x47] 30

/-- A literal with a suffix denotes a number that fits the machine. -/
def DenotesValue (W : Wordsize) (text : List UInt8) (value : Nat) : Prop :=
  ∃ number suffix n k, text = number ++ suffix ∧ Literal number n ∧ Suffix suffix k ∧
    value = n * 2 ^ k ∧ value < W.modulus

/-- The text up to the first blank denotes a size and an offset. -/
def DenotesLayout (W : Wordsize) (s : List UInt8) (size offset : Nat) : Prop :=
  ∃ first second, s.takeWhile (fun c => !isspace c) = first ++ 0x40 :: second ∧
    DenotesValue W first size ∧ size ≠ 0 ∧ DenotesValue W second offset

/-- Success exactly for the texts that denote a layout, with what they denote. -/
def LayoutParsed (W : Wordsize) (s : List UInt8) : Prop :=
  ∀ size offset, parseMemLayout W s = some (size, offset) ↔ DenotesLayout W s size offset

/-! ## Texts as `strtoul` reads them -/

/-- The power of two of the suffix in front of a text, and what is behind it. -/
def suffixShift : List UInt8 → Nat × List UInt8
  | [] => (0, [])
  | c :: rest =>
      if c = 0x47 then (30, rest)
      else if c = 0x4d then (20, rest)
      else if c = 0x6b ∨ c = 0x4b then (10, rest)
      else (0, c :: rest)

/-- `strtoul` reads a number that is not the largest word, a suffix follows, then `rest`. -/
def ReadsValue (W : Wordsize) (text : List UInt8) (v k : Nat) (rest : List UInt8) : Prop :=
  (strtoul W text).1 = v ∧ suffixShift (strtoul W text).2 = (k, rest) ∧ v ≠ W.maxWord

/-- Two such numbers with an `@` between them and the end of the word behind them, where the
first one is not 0 as a word. -/
structure ReadsLayout (W : Wordsize) (s : List UInt8) (v₁ k₁ : Nat) (behind : List UInt8)
    (v₂ k₂ : Nat) : Prop where
  size : ReadsValue W s v₁ k₁ (0x40 :: behind)
  nonzero : v₁ * 2 ^ k₁ % W.modulus ≠ 0
  offset : ∃ rest, ReadsValue W behind v₂ k₂ rest ∧ atEnd rest = true

/-- A text with two numbers is only read where both are there, without blanks and signs, and
fit with their suffixes. -/
def PlainNumbers (W : Wordsize) (s : List UInt8) : Prop :=
  ∀ v₁ k₁ behind v₂ k₂, ReadsLayout W s v₁ k₁ behind v₂ k₂ →
    StartsWithDigit s ∧ v₁ * 2 ^ k₁ < W.modulus ∧
      StartsWithDigit behind ∧ v₂ * 2 ^ k₂ < W.modulus

/-- No number that the text denotes is the largest word. -/
def NotLargest (W : Wordsize) (s : List UInt8) : Prop :=
  ∀ size offset, DenotesLayout W s size offset → size ≠ W.maxWord ∧ offset ≠ W.maxWord

section

variable {W : Wordsize} {s text rest behind suffix : List UInt8} {v k n size offset : Nat}
  {v₁ k₁ v₂ k₂ : Nat} {c : UInt8}

theorem shl10_shl10 (val : Nat) : shl10 W (shl10 W val) = val * 2 ^ 20 % W.modulus := by
  rw [shl10, shl10, Nat.mod_mul_mod, Nat.mul_assoc]
  rfl

theorem shl10_thrice (val : Nat) : shl10 W (shl10 W (shl10 W val)) = val * 2 ^ 30 % W.modulus := by
  rw [shl10_shl10, shl10, Nat.mod_mul_mod, Nat.mul_assoc]
  rfl

/-- `parse_memvalue` by what `strtoul` reads. -/
theorem parse_memvalue_eq : parseMemvalue W s =
    if (strtoul W s).1 = W.maxWord then none
    else some ((strtoul W s).1 * 2 ^ (suffixShift (strtoul W s).2).1 % W.modulus,
      (suffixShift (strtoul W s).2).2) := by
  have word := strtoul_lt W s
  rw [parseMemvalue]
  generalize strtoul W s = read at word ⊢
  obtain ⟨val, ep⟩ := read
  dsimp only at word ⊢
  have unscaled : val * 2 ^ 0 % W.modulus = val := by
    rw [Nat.pow_zero, Nat.mul_one, Nat.mod_eq_of_lt word]
  by_cases largest : val = W.maxWord
  · rw [if_pos largest, if_pos largest]
  · rw [if_neg largest, if_neg largest]
    cases ep with
    | nil =>
        rw [suffixShift, unscaled]
    | cons c rest =>
        dsimp only [suffixShift]
        by_cases isG : c = 0x47
        · simp only [if_pos isG, shl10_thrice]
        · by_cases isM : c = 0x4d
          · simp only [if_neg isG, if_pos isM, shl10_shl10]
          · by_cases isK : c = 0x6b ∨ c = 0x4b
            · simp only [if_neg isG, if_neg isM, if_pos isK, shl10]
            · simp only [if_neg isG, if_neg isM, if_neg isK, unscaled]

theorem parse_memvalue_iff {value : Nat} : parseMemvalue W s = some (value, rest) ↔
    ∃ v k, ReadsValue W s v k rest ∧ value = v * 2 ^ k % W.modulus := by
  rw [parse_memvalue_eq]
  constructor
  · intro parsed
    split_ifs at parsed with largest
    cases parsed
    exact ⟨_, _, ⟨rfl, rfl, largest⟩, rfl⟩
  · rintro ⟨v, k, ⟨rfl, shift, notLargest⟩, rfl⟩
    rw [if_neg notLargest, shift]

/-- What is read of a text is unique. -/
theorem ReadsValue.unique {v' k' : Nat} {rest' : List UInt8} (reads : ReadsValue W text v k rest)
    (again : ReadsValue W text v' k' rest') : v = v' ∧ k = k' ∧ rest = rest' := by
  obtain ⟨rfl, shift, _⟩ := reads
  obtain ⟨rfl, shift', _⟩ := again
  rw [shift] at shift'
  cases shift'
  exact ⟨rfl, rfl, rfl⟩

/-- `parse_mem_layout` by what it reads. -/
theorem parse_mem_layout_iff : parseMemLayout W s = some (size, offset) ↔
    ∃ v₁ k₁ behind v₂ k₂, ReadsLayout W s v₁ k₁ behind v₂ k₂ ∧
      size = v₁ * 2 ^ k₁ % W.modulus ∧ offset = v₂ * 2 ^ k₂ % W.modulus := by
  rw [parseMemLayout, Option.bind_eq_bind, Option.bind_eq_some_iff]
  constructor
  · rintro ⟨⟨first, ep⟩, firstParsed, rest⟩
    obtain ⟨v₁, k₁, firstReads, rfl⟩ := parse_memvalue_iff.mp firstParsed
    dsimp only at rest
    split_ifs at rest with zero
    cases ep with
    | nil => cases rest
    | cons c behind =>
        dsimp only at rest
        split_ifs at rest with isAt
        rw [Option.bind_eq_some_iff] at rest
        obtain ⟨⟨second, ep⟩, secondParsed, last⟩ := rest
        obtain ⟨v₂, k₂, secondReads, rfl⟩ := parse_memvalue_iff.mp secondParsed
        dsimp only at last
        split_ifs at last with ends
        cases last
        rw [not_not] at isAt
        subst isAt
        exact ⟨v₁, k₁, behind, v₂, k₂, ⟨firstReads, zero, ep, secondReads, ends⟩, rfl, rfl⟩
  · rintro ⟨v₁, k₁, behind, v₂, k₂, ⟨firstReads, nonzero, ep, secondReads, ends⟩, rfl, rfl⟩
    refine ⟨(v₁ * 2 ^ k₁ % W.modulus, 0x40 :: behind),
      parse_memvalue_iff.mpr ⟨v₁, k₁, firstReads, rfl⟩, ?_⟩
    have second := parse_memvalue_iff.mpr ⟨v₂, k₂, secondReads, rfl⟩
    dsimp only
    rw [if_neg nonzero, if_neg (not_not.mpr rfl), second, Option.bind_some]
    exact if_pos ends

/-! ## Texts that denote a value -/

/-- Where a value of a layout ends: at the `@`, a blank, or the end. -/
def Boundary (rest : List UInt8) : Prop :=
  ∀ c back, rest = c :: back → c = 0x40 ∨ isspace c = true

theorem boundary_at : Boundary (0x40 :: behind) := by
  intro c back same
  exact .inl (List.cons.inj same).1.symm

/-- The bytes that end a value are no letters and no digits. -/
theorem boundary_byte (ends : c = 0x40 ∨ isspace c = true) :
    isDigit 16 c = false ∧ ∀ letter : UInt8, 0x40 < letter.toNat → c ≠ letter := by
  have low : c.toNat ≤ 32 ∨ c.toNat = 64 := by
    rcases ends with rfl | blank
    · exact .inr rfl
    · exact .inl (isspace_le blank)
  constructor
  · by_contra digit
    have range := is_digit_iff.mp (Bool.not_eq_false _ ▸ digit)
    omega
  · rintro letter above rfl
    omega

theorem Boundary.stops (boundary : Boundary rest) : Stops rest := by
  intro c back isRest
  obtain ⟨noDigit, noLetter⟩ := boundary_byte (boundary c back isRest)
  exact ⟨noDigit, noLetter 0x78 (by decide), noLetter 0x58 (by decide)⟩

theorem Boundary.no_suffix (boundary : Boundary rest) : suffixShift rest = (0, rest) := by
  cases rest with
  | nil => rfl
  | cons c back =>
      obtain ⟨_, noLetter⟩ := boundary_byte (boundary c back rfl)
      rw [suffixShift, if_neg (noLetter 0x47 (by decide)), if_neg (noLetter 0x4d (by decide)),
        if_neg]
      rintro (isk | isK)
      · exact noLetter 0x6b (by decide) isk
      · exact noLetter 0x4b (by decide) isK

theorem Suffix.shift (isSuffix : Suffix suffix k) (boundary : Boundary rest) :
    suffixShift (suffix ++ rest) = (k, rest) := by
  cases isSuffix with
  | bytes => exact boundary.no_suffix
  | kib isK => rcases isK with rfl | rfl <;> rfl
  | mib => rfl
  | gib => rfl

theorem Suffix.stops (isSuffix : Suffix suffix k) (boundary : Boundary rest) :
    Stops (suffix ++ rest) := by
  cases isSuffix with
  | bytes => exact boundary.stops
  | kib isK =>
      intro c back same
      rw [← (List.cons.inj same).1]
      rcases isK with rfl | rfl <;> decide
  | mib =>
      intro c back same
      rw [← (List.cons.inj same).1]
      decide
  | gib =>
      intro c back same
      rw [← (List.cons.inj same).1]
      decide

/-- The suffix that `parse_memvalue` takes off. -/
theorem suffix_of_shift (shift : suffixShift text = (k, rest)) :
    ∃ suffix, text = suffix ++ rest ∧ Suffix suffix k := by
  cases text with
  | nil =>
      cases shift
      exact ⟨[], rfl, .bytes⟩
  | cons c back =>
      rw [suffixShift] at shift
      split_ifs at shift with isG isM isK <;> cases shift
      · exact ⟨[c], rfl, isG ▸ .gib⟩
      · exact ⟨[c], rfl, isM ▸ .mib⟩
      · exact ⟨[c], rfl, .kib isK⟩
      · exact ⟨[], rfl, .bytes⟩

/-- Scaled by a suffix only the largest word itself is the largest word. -/
theorem largest_iff (isSuffix : Suffix suffix k) (fits : n * 2 ^ k < W.modulus) :
    n * 2 ^ k = W.maxWord ↔ n = W.maxWord := by
  have word := W.modulus_ge
  have even : 2 ∣ W.modulus := by
    have dvd := W.pow_dvd_modulus (show 1 ≤ W.bits by cases W <;> decide)
    exact dvd
  have largest : W.maxWord = W.modulus - 1 := rfl
  cases isSuffix <;> omega

/-- A text that denotes a value is read as its number and suffix. -/
theorem reads_of_denotes {value : Nat} (denotes : DenotesValue W text value)
    (boundary : Boundary rest) (notLargest : value ≠ W.maxWord) :
    ∃ v k, ReadsValue W (text ++ rest) v k rest ∧ value = v * 2 ^ k := by
  obtain ⟨number, suffix, n, k, rfl, literal, isSuffix, rfl, fits⟩ := denotes
  have small : n < W.modulus :=
    (Nat.le_mul_of_pos_right n (Nat.two_pow_pos k)).trans_lt fits
  have read := strtoul_literal W literal (isSuffix.stops boundary)
  rw [if_neg (Nat.not_le_of_lt small)] at read
  rw [List.append_assoc]
  refine ⟨n, k, ⟨by rw [read], by rw [read]; exact isSuffix.shift boundary, ?_⟩, rfl⟩
  exact fun largest => notLargest ((largest_iff isSuffix fits).mpr largest)

theorem DenotesValue.starts {value : Nat} (denotes : DenotesValue W text value) :
    StartsWithDigit (text ++ rest) := by
  obtain ⟨number, suffix, n, k, rfl, literal, _⟩ := denotes
  rw [List.append_assoc]
  exact literal.starts

theorem DenotesValue.no_space {value : Nat} (denotes : DenotesValue W text value) :
    ∀ c ∈ text, isspace c = false := by
  obtain ⟨number, suffix, n, k, rfl, literal, isSuffix, _⟩ := denotes
  intro c member
  rcases List.mem_append.mp member with inNumber | inSuffix
  · exact literal.no_space c inNumber
  · cases isSuffix with
    | bytes => exact absurd inSuffix List.not_mem_nil
    | kib isK =>
        rw [List.mem_singleton.mp inSuffix]
        rcases isK with rfl | rfl <;> rfl
    | mib =>
        rw [List.mem_singleton.mp inSuffix]
        rfl
    | gib =>
        rw [List.mem_singleton.mp inSuffix]
        rfl

/-- What is read from a digit on, and fits, is denoted. -/
theorem denotes_of_reads (reads : ReadsValue W text v k rest) (starts : StartsWithDigit text)
    (fits : v * 2 ^ k < W.modulus) :
    ∃ t, text = t ++ rest ∧ DenotesValue W t (v * 2 ^ k) := by
  obtain ⟨number, n, after, rfl, literal, scanned⟩ := scan_number_digit starts
  obtain ⟨value, shift, notLargest⟩ := reads
  have small : ¬W.modulus ≤ n := by
    intro large
    rw [strtoul, scanned] at value
    dsimp only at value
    rw [if_pos large] at value
    exact notLargest value.symm
  have read : strtoul W (number ++ after) = (n, after) := by
    rw [strtoul, scanned]
    dsimp only
    rw [if_neg small, if_neg Bool.false_ne_true]
  rw [read] at value shift
  obtain ⟨suffix, rfl, isSuffix⟩ := suffix_of_shift shift
  have isNumber : n = v := value
  subst isNumber
  exact ⟨number ++ suffix, (List.append_assoc _ _ _).symm, number, suffix, n, k, rfl, literal,
    isSuffix, rfl, fits⟩

/-! ## Texts that denote a layout -/

/-- The word of a text is in front of its first blank. -/
theorem take_word (noSpace : ∀ c ∈ text, isspace c = false) (ends : atEnd rest = true) :
    (text ++ rest).takeWhile (fun c => !isspace c) = text := by
  have all : ∀ c ∈ text, (!isspace c) = true := fun c member => by rw [noSpace c member]; rfl
  cases rest with
  | nil => rw [List.append_nil, take_while_all all]
  | cons c back =>
      have blank : isspace c = true := ends
      exact take_while_front all (by rw [blank]; rfl)

theorem word_cases (s : List UInt8) : ∃ rest, s = s.takeWhile (fun c => !isspace c) ++ rest ∧
    atEnd rest = true ∧ Boundary rest := by
  rcases front_cases (fun c => !isspace c) s with all | ⟨front, c, back, rfl, all, other⟩
  · refine ⟨[], ?_, rfl, fun c back same => absurd same (List.cons_ne_nil c back).symm⟩
    rw [take_while_all all, List.append_nil]
  · have blank : isspace c = true := by simpa using other
    refine ⟨c :: back, by rw [take_while_front all other], blank, fun d behind same => .inr ?_⟩
    rw [← (List.cons.inj same).1]
    exact blank

/-- A text that denotes a layout is read as it, unless a value is the largest word. -/
theorem reads_layout_of_denotes (denotes : DenotesLayout W s size offset)
    (sizeNotLargest : size ≠ W.maxWord) (offsetNotLargest : offset ≠ W.maxWord) :
    ∃ v₁ k₁ behind v₂ k₂, ReadsLayout W s v₁ k₁ behind v₂ k₂ ∧ size = v₁ * 2 ^ k₁ ∧
      offset = v₂ * 2 ^ k₂ ∧ StartsWithDigit s ∧ StartsWithDigit behind := by
  obtain ⟨first, second, isWord, firstDenotes, nonzero, secondDenotes⟩ := denotes
  obtain ⟨rest, isText, ends, boundary⟩ := word_cases s
  rw [isWord, List.append_assoc, List.cons_append] at isText
  have boundaryAt : Boundary (0x40 :: (second ++ rest)) := boundary_at
  obtain ⟨v₁, k₁, firstReads, isSize⟩ := reads_of_denotes firstDenotes boundaryAt sizeNotLargest
  obtain ⟨v₂, k₂, secondReads, isOffset⟩ :=
    reads_of_denotes secondDenotes boundary offsetNotLargest
  have starts : StartsWithDigit (first ++ 0x40 :: (second ++ rest)) := firstDenotes.starts
  rw [← isText] at firstReads starts
  obtain ⟨_, _, _, _, _, _, _, _, fits⟩ := firstDenotes
  refine ⟨v₁, k₁, second ++ rest, v₂, k₂, ⟨firstReads, ?_, rest, secondReads, ends⟩, isSize,
    isOffset, starts, secondDenotes.starts⟩
  rw [← isSize, Nat.mod_eq_of_lt fits]
  exact nonzero

/-- Plain numbers that are read are denoted. -/
theorem denotes_of_reads_layout (reads : ReadsLayout W s v₁ k₁ behind v₂ k₂)
    (starts : StartsWithDigit s) (sizeFits : v₁ * 2 ^ k₁ < W.modulus)
    (startsBehind : StartsWithDigit behind) (offsetFits : v₂ * 2 ^ k₂ < W.modulus) :
    DenotesLayout W s (v₁ * 2 ^ k₁) (v₂ * 2 ^ k₂) := by
  obtain ⟨firstReads, nonzero, rest, secondReads, ends⟩ := reads
  obtain ⟨first, rfl, firstDenotes⟩ := denotes_of_reads firstReads starts sizeFits
  obtain ⟨second, rfl, secondDenotes⟩ := denotes_of_reads secondReads startsBehind offsetFits
  refine ⟨first, second, ?_, firstDenotes, ?_, secondDenotes⟩
  · rw [← List.cons_append, ← List.append_assoc]
    apply take_word _ ends
    intro c member
    rcases List.mem_append.mp member with inFirst | later
    · exact firstDenotes.no_space c inFirst
    · rcases List.mem_cons.mp later with rfl | inSecond
      · rfl
      · exact secondDenotes.no_space c inSecond
  · rwa [Nat.mod_eq_of_lt sizeFits] at nonzero

theorem ReadsLayout.unique {v₁' k₁' v₂' k₂' : Nat} {behind' : List UInt8}
    (reads : ReadsLayout W s v₁ k₁ behind v₂ k₂)
    (again : ReadsLayout W s v₁' k₁' behind' v₂' k₂') :
    v₁ = v₁' ∧ k₁ = k₁' ∧ behind = behind' ∧ v₂ = v₂' ∧ k₂ = k₂' := by
  obtain ⟨first, _, rest, second, _⟩ := reads
  obtain ⟨first', _, rest', second', _⟩ := again
  obtain ⟨rfl, rfl, isBehind⟩ := first.unique first'
  have sameBehind := (List.cons.inj isBehind).2
  subst sameBehind
  obtain ⟨rfl, rfl, _⟩ := second.unique second'
  exact ⟨rfl, rfl, rfl, rfl, rfl⟩

/-- No value that `parse_memvalue` returns is the largest word. -/
theorem value_not_largest (reads : ReadsValue W text v k rest) :
    v * 2 ^ k % W.modulus ≠ W.maxWord := by
  obtain ⟨value, shift, notLargest⟩ := reads
  have word := value ▸ strtoul_lt W text
  obtain ⟨suffix, _, isSuffix⟩ := suffix_of_shift shift
  have modulus := W.modulus_ge
  have even : 2 ∣ W.modulus := W.pow_dvd_modulus (show 1 ≤ W.bits by cases W <;> decide)
  have largest : W.maxWord = W.modulus - 1 := rfl
  have scaled : k ≠ 0 → 2 ∣ v * 2 ^ k % W.modulus := by
    intro positive
    rw [Nat.dvd_mod_iff even]
    exact Dvd.dvd.mul_left (dvd_pow_self 2 positive) v
  cases isSuffix with
  | bytes => rwa [Nat.pow_zero, Nat.mul_one, Nat.mod_eq_of_lt word]
  | kib _ =>
      have := scaled (by decide)
      omega
  | mib =>
      have := scaled (by decide)
      omega
  | gib =>
      have := scaled (by decide)
      omega

theorem DenotesLayout.fits (denotes : DenotesLayout W s size offset) :
    size < W.modulus ∧ offset < W.modulus := by
  obtain ⟨_, _, _, ⟨_, _, _, _, _, _, _, _, sizeFits⟩, _, second⟩ := denotes
  obtain ⟨_, _, _, _, _, _, _, _, offsetFits⟩ := second
  exact ⟨sizeFits, offsetFits⟩

/-- Memory-layout arguments denote what they say exactly when no denoted number is the largest
word, and only plain numbers that fit are read. -/
theorem parse_mem_layout_denotes_iff :
    LayoutParsed W s ↔ NotLargest W s ∧ PlainNumbers W s := by
  constructor
  · intro parsed
    have readNotLargest : NotLargest W s := by
      intro size offset denotes
      obtain ⟨v₁, k₁, behind, v₂, k₂, ⟨firstReads, _, rest, secondReads, _⟩, rfl, rfl⟩ :=
        parse_mem_layout_iff.mp ((parsed size offset).mpr denotes)
      exact ⟨value_not_largest firstReads, value_not_largest secondReads⟩
    refine ⟨readNotLargest, fun v₁ k₁ behind v₂ k₂ reads => ?_⟩
    have denotes := (parsed _ _).mp
      (parse_mem_layout_iff.mpr ⟨v₁, k₁, behind, v₂, k₂, reads, rfl, rfl⟩)
    obtain ⟨sizeNotLargest, offsetNotLargest⟩ := readNotLargest _ _ denotes
    obtain ⟨v₁', k₁', behind', v₂', k₂', again, isSize, isOffset, starts, startsBehind⟩ :=
      reads_layout_of_denotes denotes sizeNotLargest offsetNotLargest
    obtain ⟨rfl, rfl, rfl, rfl, rfl⟩ := reads.unique again
    obtain ⟨sizeFits, offsetFits⟩ := denotes.fits
    exact ⟨starts, isSize ▸ sizeFits, startsBehind, isOffset ▸ offsetFits⟩
  · rintro ⟨notLargest, plain⟩ size offset
    constructor
    · intro accepted
      obtain ⟨v₁, k₁, behind, v₂, k₂, reads, rfl, rfl⟩ := parse_mem_layout_iff.mp accepted
      obtain ⟨starts, sizeFits, startsBehind, offsetFits⟩ := plain _ _ _ _ _ reads
      rw [Nat.mod_eq_of_lt sizeFits, Nat.mod_eq_of_lt offsetFits]
      exact denotes_of_reads_layout reads starts sizeFits startsBehind offsetFits
    · intro denotes
      obtain ⟨sizeNotLargest, offsetNotLargest⟩ := notLargest size offset denotes
      obtain ⟨v₁, k₁, behind, v₂, k₂, reads, rfl, rfl, _⟩ :=
        reads_layout_of_denotes denotes sizeNotLargest offsetNotLargest
      obtain ⟨_, sizeFits, _, offsetFits⟩ := plain _ _ _ _ _ reads
      rw [parse_mem_layout_iff]
      exact ⟨v₁, k₁, behind, v₂, k₂, reads, (Nat.mod_eq_of_lt sizeFits).symm,
        (Nat.mod_eq_of_lt offsetFits).symm⟩

end

/-- The text `1M@`. -/
def missingOffset : List UInt8 := [0x31, 0x4d, 0x40]

/-- The missing number is read as the offset 0. -/
theorem parse_mem_layout_missing_offset :
    parseMemLayout .w64 missingOffset = some (0x100000, 0) ∧ ¬LayoutParsed .w64 missingOffset := by
  have accepted : parseMemLayout .w64 missingOffset = some (0x100000, 0) := by decide +kernel
  refine ⟨accepted, fun parsed => ?_⟩
  obtain ⟨first, second, isWord, _, _, denotes⟩ := (parsed _ _).mp accepted
  have isSecond : second = [] := by
    change [0x31, 0x4d, 0x40] = first ++ 0x40 :: second at isWord
    rcases first with _ | ⟨a, _ | ⟨b, _ | ⟨c, first⟩⟩⟩ <;> simp at isWord
    exact isWord.2.2
  have starts : StartsWithDigit (second ++ []) := denotes.starts
  obtain ⟨c, rest, isCons, _⟩ := starts
  rw [isSecond] at isCons
  cases isCons

end L4Bootstrap
