import L4Bootstrap.CheckArg
import L4Bootstrap.Lib.Numerals

/-!
# Numbers on the command line

`strtoul` and `strtol` of the C library with base 0, on texts in front of their
terminating zero: blanks, a sign, a number that is hexadecimal behind `0x`, octal behind
`0` and else decimal. Numbers that do not fit give the largest value.
-/

namespace L4Bootstrap

open MachineWord Numerals

set_option autoImplicit false

/-- The base by the front of the number, and its digits with what follows. -/
def numberBase (text : List UInt8) : Nat × List UInt8 :=
  match text with
  | zero :: x :: rest =>
      if zero = 0x30 ∧ (x = 0x78 ∨ x = 0x58) ∧ digits 16 rest ≠ [] then (16, rest)
      else if zero = 0x30 then (8, text)
      else (10, text)
  | [c] => if c = 0x30 then (8, text) else (10, text)
  | [] => (10, text)

/-- Is there a minus, and what follows the sign. -/
def readSign (text : List UInt8) : Bool × List UInt8 :=
  match text with
  | c :: rest =>
      if c = 0x2d then (true, rest) else if c = 0x2b then (false, rest) else (false, text)
  | [] => (false, text)

/-- The sign, the number, and the text behind it. -/
def scanNumber (text : List UInt8) : Option (Bool × Nat × List UInt8) :=
  let (negative, text) := readSign (text.dropWhile isspace)
  let (base, text) := numberBase text
  if digits base text = [] then none
  else some (negative, numeral base (digits base text), text.dropWhile (isDigit base))

/-- Without a number the value is 0 and the end pointer stays in front of the text. -/
def strtoul (W : Wordsize) (text : List UInt8) : Nat × List UInt8 :=
  match scanNumber text with
  | none => (0, text)
  | some (negative, n, rest) =>
      if W.modulus ≤ n then (W.maxWord, rest)
      else if negative then (W.sub 0 n, rest)
      else (n, rest)

/-- `strtol` as a word of the machine. -/
def strtol (W : Wordsize) (text : List UInt8) : Nat × List UInt8 :=
  match scanNumber text with
  | none => (0, text)
  | some (negative, n, rest) =>
      if negative then (if W.modulus / 2 < n then W.modulus / 2 else W.sub 0 n, rest)
      else (if W.modulus / 2 ≤ n then W.modulus / 2 - 1 else n, rest)

theorem strtoul_lt (W : Wordsize) (text : List UInt8) : (strtoul W text).1 < W.modulus := by
  have pos := W.modulus_pos
  unfold strtoul
  cases scanNumber text with
  | none => exact pos
  | some scanned =>
      obtain ⟨negative, n, rest⟩ := scanned
      dsimp only
      split_ifs with large minus
      · exact Nat.sub_lt pos Nat.one_pos
      · exact W.sub_lt 0 n
      · exact Nat.lt_of_not_le large

/-! ## Integer literals -/

/-- A decimal, octal or hexadecimal literal of C without a suffix. -/
inductive Literal : List UInt8 → Nat → Prop
  | decimal {c : UInt8} {ds : List UInt8} (nonzero : c ≠ 0x30)
      (all : ∀ d ∈ c :: ds, isDigit 10 d = true) : Literal (c :: ds) (numeral 10 (c :: ds))
  | octal {ds : List UInt8} (all : ∀ d ∈ ds, isDigit 8 d = true) :
      Literal (0x30 :: ds) (numeral 8 ds)
  | hexadecimal {x : UInt8} {ds : List UInt8} (isX : x = 0x78 ∨ x = 0x58) (nonempty : ds ≠ [])
      (all : ∀ d ∈ ds, isDigit 16 d = true) : Literal (0x30 :: x :: ds) (numeral 16 ds)

/-- The text does not go on with a digit of any base or with an `x`. -/
def Stops (rest : List UInt8) : Prop :=
  ∀ c back, rest = c :: back → isDigit 16 c = false ∧ c ≠ 0x78 ∧ c ≠ 0x58

def StartsWithDigit (text : List UInt8) : Prop := ∃ c rest, text = c :: rest ∧ isDigit 10 c = true

section

variable {base n : Nat} {c : UInt8} {text rest ds t : List UInt8}

theorem is_digit_mono {small large : Nat} (le : small ≤ large) (digit : isDigit small c = true) :
    isDigit large c = true :=
  decide_eq_true ((of_decide_eq_true digit).trans_le le)

theorem Stops.digits (stops : Stops rest) (le : base ≤ 16)
    (all : ∀ d ∈ ds, isDigit base d = true) :
    Numerals.digits base (ds ++ rest) = ds ∧ (ds ++ rest).dropWhile (isDigit base) = rest := by
  cases rest with
  | nil =>
      have taken := List.takeWhile_append_dropWhile (p := isDigit base) (l := ds)
      rw [take_while_all all] at taken
      rw [List.append_nil]
      exact ⟨digits_all all, List.append_cancel_left (taken.trans (List.append_nil _).symm)⟩
  | cons c back =>
      have other : isDigit base c = false := by
        by_contra digit
        have isHex := is_digit_mono le (Bool.not_eq_false _ ▸ digit)
        rw [(stops c back rfl).1] at isHex
        cases isHex
      exact ⟨digits_front all other, drop_while_front all other⟩

theorem is_digit_ten : isDigit 10 c = true ↔ 48 ≤ c.toNat ∧ c.toNat ≤ 57 := by
  rw [is_digit_iff]
  omega

theorem isspace_le (blank : isspace c = true) : c.toNat ≤ 32 := by
  rw [isspace, Bool.or_eq_true, Bool.and_eq_true, decide_eq_true_iff, decide_eq_true_iff,
    decide_eq_true_iff] at blank
  rcases blank with isSpace | ⟨_, low⟩
  · rw [isSpace]
    decide
  · exact (UInt8.le_iff_toNat_le.mp low).trans (by decide)

theorem digit_plain (digit : isDigit 10 c = true) :
    isspace c = false ∧ c ≠ 0x2d ∧ c ≠ 0x2b := by
  have range := is_digit_ten.mp digit
  refine ⟨?_, fun isMinus => ?_, fun isPlus => ?_⟩
  · by_contra blank
    have low := isspace_le (Bool.not_eq_false _ ▸ blank)
    omega
  · rw [isMinus] at range
    exact absurd range (by decide)
  · rw [isPlus] at range
    exact absurd range (by decide)

/-- In front of a digit there are neither blanks nor a sign. -/
theorem read_sign_digit (digit : isDigit 10 c = true) :
    readSign ((c :: rest).dropWhile isspace) = (false, c :: rest) := by
  obtain ⟨noSpace, noMinus, noPlus⟩ := digit_plain digit
  rw [List.dropWhile_cons_of_neg (by simp [noSpace]), readSign, if_neg noMinus, if_neg noPlus]

theorem numeral_zero_cons (base : Nat) (ds : List UInt8) :
    numeral base (0x30 :: ds) = numeral base ds := by
  have zero : digitValue 0x30 = 0 := rfl
  rw [numeral, List.foldl_cons, zero, Nat.mul_zero]
  rfl

theorem number_base_other (other : c ≠ 0x30) : numberBase (c :: rest) = (10, c :: rest) := by
  cases rest with
  | nil => rw [numberBase, if_neg other]
  | cons x back =>
      rw [numberBase, if_neg fun both => other both.1, if_neg other]

theorem number_base_zero (noX : ∀ x back, rest = x :: back →
    ¬((x = 0x78 ∨ x = 0x58) ∧ digits 16 back ≠ [])) :
    numberBase (0x30 :: rest) = (8, 0x30 :: rest) := by
  cases rest with
  | nil => rfl
  | cons x back => rw [numberBase, if_neg fun both => noX x back rfl both.2, if_pos rfl]

theorem number_base_hex {x : UInt8} (isX : x = 0x78 ∨ x = 0x58) (nonempty : digits 16 rest ≠ []) :
    numberBase (0x30 :: x :: rest) = (16, rest) := by
  rw [numberBase, if_pos ⟨rfl, isX, nonempty⟩]

/-- The rest of the scan, once the base is known. -/
theorem scan_number_base {front : List UInt8} (digit : isDigit 10 c = true)
    (isBase : numberBase (c :: text) = (base, front)) (nonempty : digits base front ≠ []) :
    scanNumber (c :: text) =
      some (false, numeral base (digits base front), front.dropWhile (isDigit base)) := by
  rw [scanNumber, read_sign_digit digit]
  dsimp only
  rw [isBase]
  exact if_neg nonempty

/-- A literal is scanned as its number. -/
theorem scan_number_literal (literal : Literal t n) (stops : Stops rest) :
    scanNumber (t ++ rest) = some (false, n, rest) := by
  cases literal with
  | @decimal c ds nonzero all =>
      obtain ⟨isDigits, behind⟩ := stops.digits (by decide) all
      rw [List.cons_append] at isDigits behind ⊢
      rw [scan_number_base (all c List.mem_cons_self) (number_base_other nonzero)
        (by rw [isDigits]; exact List.cons_ne_nil c ds), isDigits, behind]
  | @octal ds all =>
      have zeroDigit : isDigit 8 0x30 = true := rfl
      obtain ⟨isDigits, behind⟩ := stops.digits (by decide)
        (List.forall_mem_cons.mpr ⟨zeroDigit, all⟩)
      rw [List.cons_append] at isDigits behind ⊢
      have noX : ∀ x back, ds ++ rest = x :: back →
          ¬((x = 0x78 ∨ x = 0x58) ∧ digits 16 back ≠ []) := by
        rintro x back isFront ⟨isX, _⟩
        cases ds with
        | nil =>
            obtain ⟨_, notLower, notUpper⟩ := stops x back isFront
            exact isX.elim notLower notUpper
        | cons d ds =>
            have octal := all d List.mem_cons_self
            rw [(List.cons.inj isFront).1] at octal
            rcases isX with rfl | rfl <;> cases octal
      rw [scan_number_base rfl (number_base_zero noX)
        (by rw [isDigits]; exact List.cons_ne_nil _ ds), isDigits, behind, numeral_zero_cons]
  | @hexadecimal x ds isX nonempty all =>
      obtain ⟨isDigits, behind⟩ := stops.digits (by decide) all
      rw [List.cons_append, List.cons_append,
        scan_number_base rfl (number_base_hex isX (by rw [isDigits]; exact nonempty))
          (by rw [isDigits]; exact nonempty), isDigits, behind]

theorem digits_append_rest (base : Nat) (text : List UInt8) :
    text = digits base text ++ text.dropWhile (isDigit base) :=
  List.takeWhile_append_dropWhile.symm

theorem digits_are (base : Nat) (text : List UInt8) :
    ∀ d ∈ digits base text, isDigit base d = true :=
  List.all_eq_true.mp List.all_takeWhile

/-- From a digit on a literal is scanned. -/
theorem scan_number_digit (starts : StartsWithDigit text) :
    ∃ t n rest, text = t ++ rest ∧ Literal t n ∧ scanNumber text = some (false, n, rest) := by
  obtain ⟨c, tail, rfl, digit⟩ := starts
  by_cases isZero : c = 0x30
  · subst isZero
    by_cases isHex : ∃ x back, tail = x :: back ∧ (x = 0x78 ∨ x = 0x58) ∧ digits 16 back ≠ []
    · obtain ⟨x, back, rfl, isX, nonempty⟩ := isHex
      refine ⟨0x30 :: x :: digits 16 back, _, _, ?_, .hexadecimal isX nonempty (digits_are 16 back),
        scan_number_base rfl (number_base_hex isX nonempty) nonempty⟩
      rw [List.cons_append, List.cons_append, ← digits_append_rest]
    · have isDigits : digits 8 (0x30 :: tail) = 0x30 :: digits 8 tail := rfl
      have noX : ∀ x back, tail = x :: back → ¬((x = 0x78 ∨ x = 0x58) ∧ digits 16 back ≠ []) :=
        fun x back isTail both => isHex ⟨x, back, isTail, both⟩
      have scanned := scan_number_base rfl (number_base_zero noX) (List.cons_ne_nil _ _)
      rw [isDigits, numeral_zero_cons] at scanned
      exact ⟨0x30 :: digits 8 tail, _, _, digits_append_rest 8 (0x30 :: tail),
        .octal (digits_are 8 tail), scanned⟩
  · have isDigits : digits 10 (c :: tail) = c :: digits 10 tail := by
      rw [digits, List.takeWhile_cons_of_pos digit, digits]
    refine ⟨digits 10 (c :: tail), _, _, digits_append_rest 10 (c :: tail), ?_,
      scan_number_base digit (number_base_other isZero)
        (by rw [isDigits]; exact List.cons_ne_nil _ _)⟩
    rw [isDigits]
    exact .decimal isZero (List.forall_mem_cons.mpr ⟨digit, digits_are 10 tail⟩)

/-- A literal is converted to its number, or to the largest word. -/
theorem strtoul_literal (W : Wordsize) (literal : Literal t n) (stops : Stops rest) :
    strtoul W (t ++ rest) = (if W.modulus ≤ n then W.maxWord else n, rest) := by
  rw [strtoul, scan_number_literal literal stops]
  dsimp only
  by_cases large : W.modulus ≤ n
  · rw [if_pos large, if_pos large]
  · rw [if_neg large, if_neg large, if_neg Bool.false_ne_true]

theorem Literal.starts (literal : Literal t n) : StartsWithDigit (t ++ rest) := by
  cases literal with
  | @decimal c ds _ all => exact ⟨c, ds ++ rest, rfl, all c List.mem_cons_self⟩
  | @octal ds _ => exact ⟨0x30, ds ++ rest, rfl, rfl⟩
  | @hexadecimal x ds _ _ _ => exact ⟨0x30, x :: (ds ++ rest), rfl, rfl⟩

/-- No byte of a literal is a blank. -/
theorem Literal.no_space (literal : Literal t n) : ∀ c ∈ t, isspace c = false := by
  have high : ∀ base c, base ≤ 16 → isDigit base c = true → isspace c = false := by
    intro base c le digit
    have range := is_digit_iff.mp (is_digit_mono le digit)
    by_contra blank
    have low := isspace_le (Bool.not_eq_false _ ▸ blank)
    omega
  intro c member
  cases literal with
  | decimal _ all => exact high 10 c (by decide) (all c member)
  | octal all =>
      rcases List.mem_cons.mp member with rfl | inDigits
      · rfl
      · exact high 8 c (by decide) (all c inDigits)
  | hexadecimal isX _ all =>
      rcases List.mem_cons.mp member with rfl | later
      · rfl
      · rcases List.mem_cons.mp later with rfl | inDigits
        · rcases isX with rfl | rfl <;> rfl
        · exact high 16 c (by decide) (all c inDigits)

end

end L4Bootstrap
