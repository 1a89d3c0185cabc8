import L4Bootstrap.Support
import Mathlib.Tactic.Ring
import Mathlib.Tactic.Linarith

/-!
# Arithmetic that the compiler calls

`gcc_lib.c`: division of unsigned words by shifting and subtracting, shifts of 64-bit
values by halves, and the counts of zero bits at either end of a word.
-/

namespace L4Bootstrap.GccLib

open MachineWord CheckedLoop

set_option autoImplicit false

/-! ## Division -/

/-- `x <<= 1`. -/
def shl1 (W : Wordsize) (x : Nat) : Nat := x * 2 % W.modulus

/-- The first loop, on `s` and `tmp`. -/
def scaleRound (W : Wordsize) (div : Nat) (x : Nat × Nat) : Checked (Round (Nat × Nat) (Nat × Nat)) :=
  if !x.1.testBit (W.bits - 1) && x.1 < div then .ok (.again (shl1 W x.1, shl1 W x.2))
  else .ok (.leave x)

structure DivState where
  div : Nat
  s : Nat
  tmp : Nat
  i : Nat

/-- `if (div >= s)`. -/
def DivState.subtract (x : DivState) : DivState :=
  if x.s ≤ x.div then { x with div := x.div - x.s, i := x.i ||| x.tmp } else x

/-- The second loop. It is left with quotient and remainder. -/
def subtractRound (x : DivState) : Checked (Round DivState (Nat × Nat)) :=
  let y := x.subtract
  if y.div = 0 then .ok (.leave (y.i, y.div))
  else
    let tmp := y.tmp / 2
    if tmp = 0 then .ok (.leave (y.i, y.div))
    else .ok (.again { y with tmp := tmp, s := y.s / 2 })

/-- `ullmoddiv` and `umoddiv`, which differ in the word only. -/
def moddiv (W : Wordsize) (fuel div s : Nat) : Checked (Nat × Nat) :=
  if s = 0 then .ok (0, 0)
  else if div < s then .ok (0, div)
  else do
    let (s, tmp) ← loop (scaleRound W div) .diverges fuel (s, 1)
    loop subtractRound .diverges fuel ⟨div, s, tmp, 0⟩

def ullmoddiv (fuel div s : Nat) : Checked (Nat × Nat) := moddiv .w64 fuel div s

def umoddiv (fuel div s : Nat) : Checked (Nat × Nat) := moddiv .w32 fuel div s

/-- `__umoddi3`. -/
def umoddi3 (fuel div s : Nat) : Checked Nat := Prod.snd <$> ullmoddiv fuel div s

/-- `__udivdi3`. -/
def udivdi3 (fuel div s : Nat) : Checked Nat := Prod.fst <$> ullmoddiv fuel div s

/-- The divisor after `k` shifts. -/
structure ScaledBy (W : Wordsize) (divisor k : Nat) (x : Nat × Nat) : Prop where
  s : x.1 = divisor * 2 ^ k
  tmp : x.2 = 2 ^ k
  word : x.1 < W.modulus

section

variable {W : Wordsize} {div divisor k : Nat}

theorem modulus_halves (W : Wordsize) : W.modulus = 2 * 2 ^ (W.bits - 1) := by
  cases W <;> decide

/-- Without its highest bit a word can be doubled. -/
theorem top_bit_iff {x : Nat} (word : x < W.modulus) :
    x.testBit (W.bits - 1) = true ↔ 2 ^ (W.bits - 1) ≤ x := by
  rw [modulus_halves] at word
  constructor
  · exact Nat.ge_two_pow_of_testBit
  · intro large
    have quotient : x / 2 ^ (W.bits - 1) = 1 := by
      apply Nat.div_eq_of_lt_le <;> omega
    rw [Nat.testBit_eq_decide_div_mod_eq, quotient]
    rfl

/-- The divisor cannot be shifted any further than the word is long. -/
theorem ScaledBy.shift_lt {x : Nat × Nat} (pos : 0 < divisor) (scaled : ScaledBy W divisor k x) :
    k < W.bits ∧ 2 ^ k ≤ x.1 := by
  have power : 2 ^ k ≤ x.1 := by
    rw [scaled.s]
    exact Nat.le_mul_of_pos_left _ pos
  have word : 2 ^ k < 2 ^ W.bits := power.trans_lt scaled.word
  exact ⟨(Nat.pow_lt_pow_iff_right (by decide)).mp word, power⟩

/-- A round of the first loop. -/
theorem scale_round_spec {x : Nat × Nat} (pos : 0 < divisor) (scaled : ScaledBy W divisor k x) :
    (scaleRound W div x = .ok (.leave x) ∧ (div < 2 * x.1 ∨ W.modulus ≤ 2 * x.1)) ∨
      ∃ next, scaleRound W div x = .ok (.again next) ∧ ScaledBy W divisor (k + 1) next := by
  have halves := modulus_halves W
  have word := scaled.word
  have tmpLe : x.2 ≤ x.1 := by
    rw [scaled.tmp]
    exact (scaled.shift_lt pos).2
  unfold scaleRound
  cases top : x.1.testBit (W.bits - 1) with
  | true =>
      have large := (top_bit_iff word).mp top
      left
      refine ⟨by simp, .inr ?_⟩
      omega
  | false =>
      have small : x.1 < 2 ^ (W.bits - 1) := by
        by_contra large
        rw [(top_bit_iff word).mpr (by omega)] at top
        cases top
      by_cases below : x.1 < div
      · right
        have sDoubled : shl1 W x.1 = x.1 * 2 := Nat.mod_eq_of_lt (by omega)
        have tmpDoubled : shl1 W x.2 = x.2 * 2 := Nat.mod_eq_of_lt (by omega)
        refine ⟨(x.1 * 2, x.2 * 2), by simp [below, sDoubled, tmpDoubled], ?_, ?_, by simp only; omega⟩
        · rw [scaled.s, pow_succ, Nat.mul_assoc]
        · rw [scaled.tmp, pow_succ]
      · left
        have large : 0 < x.1 := (Nat.two_pow_pos k).trans_le (scaled.shift_lt pos).2
        refine ⟨by simp [below], .inl ?_⟩
        omega

/-- The first loop ends with the divisor above one half of the dividend. -/
theorem scale_loop_spec {fuel : Nat} {x : Nat × Nat} (pos : 0 < divisor)
    (word : div < W.modulus) (scaled : ScaledBy W divisor k x) (enough : W.bits < fuel + k) :
    ∃ last result, loop (scaleRound W div) .diverges fuel x = .ok result ∧
      ScaledBy W divisor last result ∧ div < 2 * result.1 := by
  induction fuel generalizing x k with
  | zero =>
      have := (scaled.shift_lt pos).1
      omega
  | succ fuel ih =>
      rw [loop]
      rcases scale_round_spec pos scaled with ⟨round, reaches⟩ | ⟨next, round, further⟩
      · exact ⟨k, x, by rw [round], scaled, by omega⟩
      · rw [round]
        exact ih further (by omega)

/-- The state of the second loop: `q` is the quotient by the divisor as far as it is known, in
units of `2 ^ (k + 1)`. -/
structure DividingBy (dividend divisor k : Nat) (x : DivState) : Prop where
  s : x.s = divisor * 2 ^ k
  tmp : x.tmp = 2 ^ k
  unit : 2 ^ (k + 1) ∣ x.i
  sum : dividend = x.i * divisor + x.div
  rest : x.div < 2 * x.s

/-- The state after the subtraction. -/
theorem subtract_spec {dividend : Nat} {x : DivState} (dividing : DividingBy dividend divisor k x) :
    x.subtract.s = x.s ∧ x.subtract.tmp = x.tmp ∧ 2 ^ k ∣ x.subtract.i ∧
      dividend = x.subtract.i * divisor + x.subtract.div ∧ x.subtract.div < x.s := by
  obtain ⟨s, tmp, ⟨q, isUnit⟩, sum, rest⟩ := dividing
  unfold DivState.subtract
  split_ifs with large
  · have disjoint : x.i ||| x.tmp = x.i + x.tmp := by
      rw [isUnit, tmp]
      exact (Nat.two_pow_add_eq_or_of_lt (Nat.pow_lt_pow_right (by decide) (Nat.lt_succ_self k)) q).symm
    refine ⟨rfl, rfl, ?_, ?_, by simp only; omega⟩
    · rw [disjoint, isUnit, tmp, pow_succ, Nat.mul_assoc]
      exact Nat.dvd_add (Nat.dvd_mul_right _ _) (dvd_refl _)
    · simp only
      rw [disjoint, Nat.add_mul, tmp]
      have product : 2 ^ k * divisor = x.s := by rw [s, Nat.mul_comm]
      omega
  · refine ⟨rfl, rfl, ?_, sum, by omega⟩
    rw [isUnit, pow_succ, Nat.mul_assoc]
    exact Nat.dvd_mul_right _ _

/-- A round of the second loop: it is left with less than the divisor, or goes on with the
next bit of the quotient. -/
theorem subtract_round_spec {dividend : Nat} {x : DivState} (pos : 0 < divisor)
    (dividing : DividingBy dividend divisor k x) :
    (subtractRound x = .ok (.leave (x.subtract.i, x.subtract.div)) ∧ x.subtract.div < divisor) ∨
      ∃ less next, k = less + 1 ∧ subtractRound x = .ok (.again next) ∧
        DividingBy dividend divisor less next := by
  obtain ⟨sameS, sameTmp, unit, sum, rest⟩ := subtract_spec dividing
  by_cases zero : x.subtract.div = 0
  · left
    exact ⟨by simp only [subtractRound, zero, if_true], by omega⟩
  · cases k with
    | zero =>
        left
        have noBit : x.subtract.tmp / 2 = 0 := by
          rw [sameTmp, dividing.tmp]
          rfl
        refine ⟨by simp only [subtractRound, zero, noBit, if_false, if_true], ?_⟩
        rw [dividing.s, pow_zero, Nat.mul_one] at rest
        exact rest
    | succ less =>
        right
        have halfTmp : x.subtract.tmp / 2 = 2 ^ less := by
          rw [sameTmp, dividing.tmp, pow_succ, Nat.mul_div_cancel _ (by decide)]
        have halfS : x.subtract.s / 2 = divisor * 2 ^ less := by
          rw [sameS, dividing.s, pow_succ, ← Nat.mul_assoc, Nat.mul_div_cancel _ (by decide)]
        have someBit : ¬ 2 ^ less = 0 := (Nat.two_pow_pos less).ne'
        refine ⟨less, { x.subtract with tmp := 2 ^ less, s := divisor * 2 ^ less }, rfl, ?_,
          rfl, rfl, unit, sum, ?_⟩
        · simp only [subtractRound, zero, halfTmp, halfS, someBit, if_false]
        · rw [dividing.s, pow_succ] at rest
          simp only
          linarith

/-- The second loop divides. -/
theorem subtract_loop_spec {dividend fuel : Nat} {x : DivState} (pos : 0 < divisor)
    (dividing : DividingBy dividend divisor k x) (enough : k < fuel) :
    loop subtractRound .diverges fuel x = .ok (dividend / divisor, dividend % divisor) := by
  induction fuel generalizing x k with
  | zero => omega
  | succ fuel ih =>
      rw [loop]
      rcases subtract_round_spec pos dividing with ⟨round, small⟩ | ⟨less, next, rfl, round, further⟩
      · obtain ⟨_, _, _, sum, _⟩ := subtract_spec dividing
        have exact : dividend / divisor = x.subtract.i ∧ dividend % divisor = x.subtract.div :=
          (Nat.div_mod_unique pos).mpr ⟨by rw [sum]; ring, small⟩
        rw [round, exact.1, exact.2]
      · rw [round]
        exact ih further (by omega)

/-- Division of words: quotient and remainder, and twice 0 for the divisor 0. -/
theorem moddiv_exact (word : div < W.modulus) (divisorWord : divisor < W.modulus) {fuel : Nat}
    (enough : W.bits < fuel) :
    moddiv W fuel div divisor =
      .ok (if divisor = 0 then (0, 0) else (div / divisor, div % divisor)) := by
  unfold moddiv
  by_cases zero : divisor = 0
  · rw [if_pos zero, if_pos zero]
  · have pos := Nat.pos_of_ne_zero zero
    rw [if_neg zero, if_neg zero]
    by_cases small : div < divisor
    · rw [if_pos small, Nat.div_eq_of_lt small, Nat.mod_eq_of_lt small]
    · have start : ScaledBy W divisor 0 (divisor, 1) :=
        ⟨by rw [pow_zero, Nat.mul_one], rfl, divisorWord⟩
      obtain ⟨last, ⟨s, tmp⟩, scales, scaled, below⟩ := scale_loop_spec pos word start
        (by omega : W.bits < fuel + 0)
      rw [if_neg small, scales, ok_bind]
      have dividing : DividingBy div divisor last ⟨div, s, tmp, 0⟩ :=
        ⟨scaled.s, scaled.tmp, Nat.dvd_zero _, by simp, below⟩
      have lastSmall := (scaled.shift_lt pos).1
      exact subtract_loop_spec pos dividing (by omega)

/-- `7 * 2 ^ 60 / 3`, where the shifted divisor reaches the highest bit. -/
theorem moddiv_exact_high_bit :
    moddiv .w64 65 (7 * 2 ^ 60) 3 = .ok (7 * 2 ^ 60 / 3, 7 * 2 ^ 60 % 3) :=
  moddiv_exact (W := .w64) (by decide) (by decide) (by decide)

end

/-! ## Shifts by halves -/

/-- The two members of `llval_t`. -/
def low (val : BitVec 64) : BitVec 32 := val.extractLsb' 0 32

def high (val : BitVec 64) : BitVec 32 := val.extractLsb' 32 32

def ofHalves (high low : BitVec 32) : BitVec 64 := high ++ low

/-- `__ashldi3`. -/
def ashldi3 (val : BitVec 64) (bits : Nat) : BitVec 64 :=
  if 32 ≤ bits then ofHalves (low val <<< (bits - 32)) 0
  else if bits ≠ 0 then
    ofHalves ((high val <<< bits) ||| (low val >>> (32 - bits))) (low val <<< bits)
  else val

/-- `__ashrdi3`. -/
def ashrdi3 (val : BitVec 64) (bits : Nat) : BitVec 64 :=
  if 32 ≤ bits then ofHalves ((high val).sshiftRight 31) ((high val).sshiftRight (bits - 32))
  else if bits ≠ 0 then
    ofHalves ((high val).sshiftRight bits) ((high val <<< (32 - bits)) ||| (low val >>> bits))
  else val

theorem of_halves_bit (h l : BitVec 32) (i : Nat) :
    (ofHalves h l).getLsbD i = if i < 32 then l.getLsbD i else h.getLsbD (i - 32) :=
  BitVec.getLsbD_append

theorem low_bit (val : BitVec 64) (i : Nat) :
    (low val).getLsbD i = (decide (i < 32) && val.getLsbD i) := by
  rw [low, BitVec.getLsbD_extractLsb', Nat.zero_add]

theorem high_bit (val : BitVec 64) (i : Nat) :
    (high val).getLsbD i = (decide (i < 32) && val.getLsbD (32 + i)) := by
  rw [high, BitVec.getLsbD_extractLsb']

theorem high_msb (val : BitVec 64) : (high val).msb = val.msb := by
  rw [BitVec.msb_eq_getLsbD_last, BitVec.msb_eq_getLsbD_last, high_bit]
  rfl

theorem ashldi3_eq (val : BitVec 64) (bits : Nat) : ashldi3 val bits = val <<< bits := by
  apply BitVec.eq_of_getLsbD_eq
  intro i less
  rw [BitVec.getLsbD_shiftLeft, ashldi3]
  by_cases large : 32 ≤ bits
  · rw [if_pos large]
    simp only [of_halves_bit, BitVec.getLsbD_shiftLeft, low_bit]
    grind
  · rw [if_neg large]
    by_cases some : bits ≠ 0
    · rw [if_pos some]
      simp only [of_halves_bit, BitVec.getLsbD_shiftLeft, low_bit, high_bit, BitVec.getLsbD_or,
        BitVec.getLsbD_ushiftRight]
      grind
    · rw [if_neg some]
      grind

theorem ashrdi3_eq (val : BitVec 64) (bits : Nat) : ashrdi3 val bits = val.sshiftRight bits := by
  apply BitVec.eq_of_getLsbD_eq
  intro i less
  rw [BitVec.getLsbD_sshiftRight, ashrdi3]
  by_cases large : 32 ≤ bits
  · rw [if_pos large]
    simp only [of_halves_bit, BitVec.getLsbD_sshiftRight, high_bit, high_msb]
    grind
  · rw [if_neg large]
    by_cases some : bits ≠ 0
    · rw [if_pos some]
      simp only [of_halves_bit, BitVec.getLsbD_sshiftRight, BitVec.getLsbD_shiftLeft, low_bit,
        high_bit, BitVec.getLsbD_or, BitVec.getLsbD_ushiftRight, high_msb]
      grind
    · rw [if_neg some]
      grind

/-! ## Counting zero bits -/

/-- The rest of the loop of `__ffssi2` and `__ffsdi2`, with `count` rounds left. -/
def ffsFrom {w : Nat} : Nat → Nat → BitVec w → Nat
  | 0, _, _ => 0
  | count + 1, i, val => if val.getLsbD 0 then i else ffsFrom count (i + 1) (val.sshiftRight 1)

def ffssi2 (val : BitVec 32) : Nat := ffsFrom 32 1 val

def ffsdi2 (val : BitVec 64) : Nat := ffsFrom 64 1 val

/-- One test of `__ctzsi2`, on `val` and `c`. -/
def ctzStep (mask bits : Nat) (x : Nat × Nat) : Nat × Nat :=
  if x.1 &&& mask = 0 then (x.1 / 2 ^ bits, x.2 + bits) else x

/-- `__ctzsi2`. -/
def ctzsi2 (val : Nat) : Nat :=
  if val = 0 then 32
  else
    let x := ctzStep 0x3 2 (ctzStep 0xf 4 (ctzStep 0xff 8 (ctzStep 0xffff 16 (val, 0))))
    if x.1 &&& 0x1 = 0 then x.2 + 1 else x.2

/-- One test of `__clzsi2`, on `val` and `c`. -/
def clzStep (mask bits : Nat) (x : Nat × Nat) : Nat × Nat :=
  if x.1 &&& mask = 0 then (x.1 * 2 ^ bits % 2 ^ 32, x.2 + bits) else x

/-- `__clzsi2`. -/
def clzsi2 (val : Nat) : Nat :=
  if val = 0 then 32
  else
    let x := clzStep 0xc0000000 2 (clzStep 0xf0000000 4 (clzStep 0xff000000 8
      (clzStep 0xffff0000 16 (val, 0))))
    if x.1 &&& 0x80000000 = 0 then x.2 + 1 else x.2

/-- The lowest bit that is set, counted from 1, or 0 without one. -/
def LowestBit {w : Nat} (val : BitVec w) (answer : Nat) : Prop :=
  (answer = 0 ∧ val = 0) ∨
    ∃ k, answer = k + 1 ∧ val.getLsbD k = true ∧ ∀ i, i < k → val.getLsbD i = false

/-- The loop after `done` rounds. -/
theorem ffs_from_spec {w : Nat} (val : BitVec w) (count done : Nat) (all : count + done = w)
    (clear : ∀ i, i < done → val.getLsbD i = false) :
    LowestBit val (ffsFrom count (done + 1) (val.sshiftRight done)) := by
  induction count generalizing done with
  | zero =>
      left
      refine ⟨rfl, ?_⟩
      apply BitVec.eq_of_getLsbD_eq
      intro i less
      rw [clear i (by omega), BitVec.ofNat_eq_ofNat, BitVec.getLsbD_zero]
  | succ count ih =>
      have bit : (val.sshiftRight done).getLsbD 0 = val.getLsbD done := by
        rw [BitVec.getLsbD_sshiftRight]
        simp only [Nat.add_zero, show done < w by omega, if_true]
        simp only [show ¬ w ≤ 0 by omega, decide_false, Bool.not_false, Bool.true_and]
      rw [ffsFrom, bit]
      cases found : val.getLsbD done with
      | true => exact .inr ⟨done, rfl, found, clear⟩
      | false =>
          rw [if_neg (by decide), ← BitVec.sshiftRight_add]
          apply ih (done + 1) (by omega)
          intro i less
          rcases Nat.lt_succ_iff_lt_or_eq.mp less with before | rfl
          · exact clear i before
          · exact found

theorem ffs_spec {w : Nat} (val : BitVec w) : LowestBit val (ffsFrom w 1 val) := by
  have spec := ffs_from_spec val w 0 (Nat.add_zero w) (by simp)
  rwa [BitVec.sshiftRight_zero] at spec

/-- The value has been moved down by the count, and one of the lowest `window` bits is set. -/
structure CtzState (val window : Nat) (x : Nat × Nat) : Prop where
  moved : val = x.1 * 2 ^ x.2
  some : ¬ 2 ^ window ∣ x.1

theorem ctz_step_spec {val : Nat} {x : Nat × Nat} (bits : Nat)
    (state : CtzState val (bits + bits) x) : CtzState val bits (ctzStep (2 ^ bits - 1) bits x) := by
  obtain ⟨moved, some⟩ := state
  unfold ctzStep
  rw [Nat.and_two_pow_sub_one_eq_mod]
  split_ifs with none
  · have whole : x.1 / 2 ^ bits * 2 ^ bits = x.1 := Nat.div_mul_cancel (Nat.dvd_of_mod_eq_zero none)
    constructor
    · simp only
      rw [pow_add, Nat.mul_comm (2 ^ x.2), ← Nat.mul_assoc, whole, moved]
    · intro divides
      apply some
      rw [← whole, pow_add]
      exact Nat.mul_dvd_mul divides (dvd_refl _)
  · exact ⟨moved, fun divides => none (Nat.mod_eq_zero_of_dvd divides)⟩

/-- The value has been moved up by the count, and one of the highest `window` bits is set. -/
structure ClzState (val window : Nat) (x : Nat × Nat) : Prop where
  moved : x.1 = val * 2 ^ x.2
  word : x.1 < 2 ^ 32
  some : 2 ^ 32 ≤ x.1 * 2 ^ window

/-- A mask of the highest bits of a word. -/
theorem and_high_mask_iff {v bits : Nat} (word : v < 2 ^ 32) (fits : bits ≤ 32) :
    v &&& (2 ^ bits - 1) * 2 ^ (32 - bits) = 0 ↔ v * 2 ^ bits < 2 ^ 32 := by
  have whole : 2 ^ (32 - bits) * 2 ^ bits = 2 ^ 32 := by
    rw [← pow_add, Nat.sub_add_cancel fits]
  have masked : v &&& (2 ^ bits - 1) * 2 ^ (32 - bits) = v / 2 ^ (32 - bits) * 2 ^ (32 - bits) := by
    apply Nat.eq_of_testBit_eq
    intro i
    rw [Nat.testBit_and, Nat.testBit_mul_two_pow, Nat.testBit_mul_two_pow, Nat.testBit_two_pow_sub_one,
      Nat.testBit_div_two_pow]
    by_cases below : 32 - bits ≤ i
    · have index : i - (32 - bits) + (32 - bits) = i := Nat.sub_add_cancel below
      simp only [below, decide_true, Bool.true_and, index]
      by_cases inWord : i < 32
      · have inMask : i - (32 - bits) < bits := by omega
        simp only [inMask, decide_true, Bool.and_true]
      · have clear : v.testBit i = false := by
          apply Nat.testBit_lt_two_pow
          exact word.trans_le (Nat.pow_le_pow_right (by decide) (by omega))
        rw [clear, Bool.false_and]
    · simp [below]
  have pos := Nat.two_pow_pos (32 - bits)
  rw [masked, Nat.mul_eq_zero, or_iff_left pos.ne', Nat.div_eq_zero_iff_lt pos, ← whole]
  exact (Nat.mul_lt_mul_right (Nat.two_pow_pos bits)).symm

theorem clz_step_spec {val : Nat} {x : Nat × Nat} (bits : Nat) (fits : bits ≤ 32)
    (state : ClzState val (bits + bits) x) :
    ClzState val bits (clzStep ((2 ^ bits - 1) * 2 ^ (32 - bits)) bits x) := by
  obtain ⟨moved, word, some⟩ := state
  unfold clzStep
  split_ifs with masked
  · have none := (and_high_mask_iff word fits).mp masked
    rw [Nat.mod_eq_of_lt none]
    refine ⟨?_, none, ?_⟩
    · simp only
      rw [moved, pow_add, Nat.mul_assoc]
    · simp only
      rw [pow_add, ← Nat.mul_assoc] at some
      exact some
  · have reaches := mt (and_high_mask_iff word fits).mpr masked
    exact ⟨moved, word, by omega⟩

/-- The last test only counts. -/
theorem ctz_state_last {val : Nat} {x : Nat × Nat} (state : CtzState val (1 + 1) x) :
    let c := if x.1 &&& 0x1 = 0 then x.2 + 1 else x.2
    2 ^ c ∣ val ∧ ¬ 2 ^ (c + 1) ∣ val := by
  intro c
  have last : CtzState val 1 (ctzStep 0x1 1 x) := ctz_step_spec 1 state
  have count : (ctzStep 0x1 1 x).2 = c := by
    simp only [ctzStep, c]
    split_ifs <;> rfl
  obtain ⟨moved, some⟩ := last
  rw [count] at moved
  refine ⟨⟨_, moved.trans (Nat.mul_comm _ _)⟩, fun divides => some ?_⟩
  rw [moved, pow_succ, Nat.mul_comm (2 ^ c)] at divides
  rw [pow_one]
  exact Nat.dvd_of_mul_dvd_mul_right (Nat.two_pow_pos c) divides

theorem clz_state_last {val : Nat} {x : Nat × Nat} (state : ClzState val (1 + 1) x) :
    let c := if x.1 &&& 0x80000000 = 0 then x.2 + 1 else x.2
    val * 2 ^ c < 2 ^ 32 ∧ 2 ^ 32 ≤ val * 2 ^ (c + 1) := by
  intro c
  have last : ClzState val 1 (clzStep 0x80000000 1 x) := clz_step_spec 1 (by decide) state
  have count : (clzStep 0x80000000 1 x).2 = c := by
    simp only [clzStep, c]
    split_ifs <;> rfl
  obtain ⟨moved, word, some⟩ := last
  rw [count] at moved
  rw [moved] at word some
  rw [Nat.mul_assoc, ← pow_add] at some
  exact ⟨word, some⟩

/-- The counts of a word that is not 0: the lowest bit that is set is the one with the number
`__ctzsi2`, the highest one has as many bits above it as `__clzsi2` says. -/
theorem zero_bits_exact {val : Nat} (word : val < 2 ^ 32) (some : val ≠ 0) :
    (2 ^ ctzsi2 val ∣ val ∧ ¬ 2 ^ (ctzsi2 val + 1) ∣ val) ∧
      val * 2 ^ clzsi2 val < 2 ^ 32 ∧ 2 ^ 32 ≤ val * 2 ^ (clzsi2 val + 1) := by
  constructor
  · have start : CtzState val (16 + 16) (val, 0) :=
      ⟨by simp, fun divides => some (Nat.eq_zero_of_dvd_of_lt divides word)⟩
    rw [ctzsi2, if_neg some]
    exact ctz_state_last (ctz_step_spec 2 (ctz_step_spec 4 (ctz_step_spec 8 (ctz_step_spec 16 start))))
  · have start : ClzState val (16 + 16) (val, 0) := by
      refine ⟨by simp, word, ?_⟩
      simp only
      omega
    rw [clzsi2, if_neg some]
    exact clz_state_last (clz_step_spec 2 (by decide) (clz_step_spec 4 (by decide)
      (clz_step_spec 8 (by decide) (clz_step_spec 16 (by decide) start))))

theorem zero_bits_exact_one_bit :
    (2 ^ ctzsi2 0x400 ∣ 0x400 ∧ ¬ 2 ^ (ctzsi2 0x400 + 1) ∣ 0x400) ∧
      0x400 * 2 ^ clzsi2 0x400 < 2 ^ 32 ∧ 2 ^ 32 ≤ 0x400 * 2 ^ (clzsi2 0x400 + 1) :=
  zero_bits_exact (by decide) (by decide)

end L4Bootstrap.GccLib
