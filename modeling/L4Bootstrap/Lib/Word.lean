import Mathlib.Data.Nat.Basic
import Mathlib.Algebra.Order.Ring.Nat
import Mathlib.Tactic.Ring
import Mathlib.Tactic.Linarith

/-!
# Unsigned machine words

Unsigned words of a 32-bit or a 64-bit machine are natural numbers below the
modulus of the machine; every operation that can wrap around says so by an
explicit remainder. `roundUp` and `truncSize` are the unbounded roundings to a
power of two, `Wordsize.roundSize` is the one a machine computes.
-/

namespace MachineWord

set_option autoImplicit false

inductive Wordsize
  | w32
  | w64
  deriving DecidableEq, Repr

namespace Wordsize

def bits : Wordsize → Nat
  | w32 => 32
  | w64 => 64

/-- `sizeof (unsigned long)`. -/
def bytes : Wordsize → Nat
  | w32 => 4
  | w64 => 8

def modulus (W : Wordsize) : Nat := 2 ^ W.bits

/-- `~0UL`. -/
def maxWord (W : Wordsize) : Nat := W.modulus - 1

def add (W : Wordsize) (a b : Nat) : Nat := (a + b) % W.modulus

def sub (W : Wordsize) (a b : Nat) : Nat := (a + W.modulus - b) % W.modulus

theorem modulus_pos (W : Wordsize) : 0 < W.modulus := Nat.two_pow_pos _

theorem modulus_ge (W : Wordsize) : 2 ^ 32 ≤ W.modulus := by
  cases W <;> decide

theorem bytes_pos (W : Wordsize) : 0 < W.bytes := by
  cases W <;> decide

theorem bytes_le (W : Wordsize) : W.bytes ≤ 8 := by
  cases W <;> decide

theorem pow_dvd_modulus (W : Wordsize) {k : Nat} (small : k ≤ W.bits) : 2 ^ k ∣ W.modulus :=
  pow_dvd_pow 2 small

theorem add_lt (W : Wordsize) (a b : Nat) : W.add a b < W.modulus :=
  Nat.mod_lt _ W.modulus_pos

theorem sub_lt (W : Wordsize) (a b : Nat) : W.sub a b < W.modulus :=
  Nat.mod_lt _ W.modulus_pos

theorem add_of_lt (W : Wordsize) {a b : Nat} (fits : a + b < W.modulus) : W.add a b = a + b :=
  Nat.mod_eq_of_lt fits

theorem sub_of_le (W : Wordsize) {a b : Nat} (le : b ≤ a) (word : a < W.modulus) :
    W.sub a b = a - b := by
  have split : a + W.modulus - b = (a - b) + W.modulus := by omega
  rw [sub, split, Nat.add_mod_right, Nat.mod_eq_of_lt (by omega)]

/-- Moving an address from above `m` to above `p`. -/
theorem add_sub_of_le (W : Wordsize) {a p m : Nat} (le : m ≤ a) (word : m ≤ W.modulus)
    (fits : p + (a - m) < W.modulus) : W.add a (W.sub p m) = p + (a - m) := by
  rw [add, sub, Nat.add_mod_mod]
  have split : a + (p + W.modulus - m) = p + (a - m) + W.modulus := by omega
  rw [split, Nat.add_mod_right, Nat.mod_eq_of_lt fits]

/-- The last byte of `size` bytes from `start`, as the machine computes it. -/
theorem last_of_fits (W : Wordsize) {start size : Nat} (pos : 0 < size)
    (fits : start + size ≤ W.modulus) : W.sub (W.add start size) 1 = start + size - 1 := by
  have modulusPos := W.modulus_pos
  rcases Nat.lt_or_eq_of_le fits with below | top
  · rw [W.add_of_lt below, W.sub_of_le (by omega) below]
  · have wrapped : W.add start size = 0 := by
      rw [add, top, Nat.mod_self]
    rw [wrapped, sub, Nat.mod_eq_of_lt (by omega)]
    omega

/-- Past the end of the address space the computed last byte lies below the start. -/
theorem last_of_wraps (W : Wordsize) {start size : Nat} (startWord : start < W.modulus)
    (sizeWord : size < W.modulus) (wraps : W.modulus < start + size) :
    W.sub (W.add start size) 1 < start := by
  have wrapped : W.add start size = start + size - W.modulus := by
    have split : start + size = (start + size - W.modulus) + W.modulus := by omega
    rw [add, split, Nat.add_mod_right, Nat.mod_eq_of_lt (by omega)]
    omega
  rw [wrapped, W.sub_of_le (by omega) (by omega)]
  omega

end Wordsize

/-! ## Rounding to a power of two -/

/-- `value & (~0UL << k)`. -/
def truncSize (k value : Nat) : Nat := value - value % 2 ^ k

/-- The least multiple of `2 ^ k` at or above `value`, without a word bound. -/
def roundUp (k value : Nat) : Nat := truncSize k (value + 2 ^ k - 1)

/-- `(value + (1UL << k) - 1) & (~0UL << k)`. -/
def Wordsize.roundSize (W : Wordsize) (k value : Nat) : Nat :=
  truncSize k ((value + 2 ^ k - 1) % W.modulus)

theorem trunc_size_le (k value : Nat) : truncSize k value ≤ value := Nat.sub_le _ _

theorem lt_trunc_size_add (k value : Nat) : value < truncSize k value + 2 ^ k := by
  have remainder := Nat.mod_lt value (Nat.two_pow_pos k)
  have below := Nat.mod_le value (2 ^ k)
  unfold truncSize
  omega

theorem dvd_trunc_size (k value : Nat) : 2 ^ k ∣ truncSize k value := Nat.dvd_sub_mod value

theorem trunc_size_of_dvd {k value : Nat} (aligned : 2 ^ k ∣ value) : truncSize k value = value := by
  rw [truncSize, Nat.mod_eq_zero_of_dvd aligned, Nat.sub_zero]

/-- A multiple below `value` is at most the truncation. -/
theorem le_trunc_size {k value t : Nat} (aligned : 2 ^ k ∣ t) (le : t ≤ value) :
    t ≤ truncSize k value := by
  have upper := lt_trunc_size_add k value
  obtain ⟨q, rfl⟩ := aligned
  obtain ⟨p, same⟩ := dvd_trunc_size k value
  rw [same] at upper ⊢
  have strict : 2 ^ k * q < 2 ^ k * (p + 1) := by
    rw [Nat.mul_add, Nat.mul_one]
    omega
  exact Nat.mul_le_mul_left _ (Nat.le_of_lt_succ (Nat.lt_of_mul_lt_mul_left strict))

theorem trunc_size_eq {k value t : Nat} (aligned : 2 ^ k ∣ t) (lower : t ≤ value)
    (upper : value < t + 2 ^ k) : truncSize k value = t := by
  apply le_antisymm _ (le_trunc_size aligned lower)
  by_contra above
  have gap := Nat.le_of_dvd (by omega) (Nat.dvd_sub (dvd_trunc_size k value) aligned)
  have := trunc_size_le k value
  omega

theorem le_round_up (k value : Nat) : value ≤ roundUp k value := by
  have upper := lt_trunc_size_add k (value + 2 ^ k - 1)
  have pos := Nat.two_pow_pos k
  unfold roundUp
  omega

theorem round_up_lt (k value : Nat) : roundUp k value < value + 2 ^ k := by
  have below := trunc_size_le k (value + 2 ^ k - 1)
  have pos := Nat.two_pow_pos k
  unfold roundUp
  omega

theorem dvd_round_up (k value : Nat) : 2 ^ k ∣ roundUp k value := dvd_trunc_size k _

/-- `roundUp` is the least multiple at or above its argument. -/
theorem round_up_le {k value t : Nat} (aligned : 2 ^ k ∣ t) (le : value ≤ t) :
    roundUp k value ≤ t := by
  by_contra above
  have upper := round_up_lt k value
  obtain ⟨q, rfl⟩ := aligned
  obtain ⟨p, same⟩ := dvd_round_up k value
  rw [same] at upper above
  have order : q + 1 ≤ p := by
    have strict : 2 ^ k * q < 2 ^ k * p := by omega
    exact Nat.lt_of_mul_lt_mul_left strict
  have scaled := Nat.mul_le_mul_left (2 ^ k) order
  rw [Nat.mul_add, Nat.mul_one] at scaled
  omega

theorem round_up_mono {k a b : Nat} (le : a ≤ b) : roundUp k a ≤ roundUp k b :=
  round_up_le (dvd_round_up k b) (le.trans (le_round_up k b))

theorem round_up_of_dvd {k value : Nat} (aligned : 2 ^ k ∣ value) : roundUp k value = value :=
  le_antisymm (round_up_le aligned le_rfl) (le_round_up k value)

theorem round_up_pos {k value : Nat} (pos : 0 < value) : 0 < roundUp k value :=
  pos.trans_le (le_round_up k value)

/-- Rounding commutes with adding an aligned base. -/
theorem round_up_add {k base value : Nat} (aligned : 2 ^ k ∣ base) :
    roundUp k (base + value) = base + roundUp k value := by
  apply le_antisymm
  · exact round_up_le (Nat.dvd_add aligned (dvd_round_up k value))
      (Nat.add_le_add_left (le_round_up k value) base)
  · have above : base ≤ roundUp k (base + value) :=
      (Nat.le_add_right base value).trans (le_round_up k _)
    have rest : roundUp k value ≤ roundUp k (base + value) - base := by
      apply round_up_le (Nat.dvd_sub (dvd_round_up k _) aligned)
      have := le_round_up k (base + value)
      omega
    omega

namespace Wordsize

theorem round_size_of_lt (W : Wordsize) {k value : Nat} (fits : value + 2 ^ k - 1 < W.modulus) :
    W.roundSize k value = roundUp k value := by
  rw [roundSize, Nat.mod_eq_of_lt fits, roundUp]

theorem round_size_mod (W : Wordsize) {k : Nat} (small : k ≤ W.bits) (value : Nat) :
    W.roundSize k value = roundUp k value % W.modulus := by
  rw [roundSize, roundUp, truncSize, truncSize]
  generalize value + 2 ^ k - 1 = x
  have low : x % W.modulus % 2 ^ k = x % 2 ^ k := Nat.mod_mod_of_dvd x (W.pow_dvd_modulus small)
  have lowLe := Nat.mod_le (x % W.modulus) (2 ^ k)
  rw [low] at lowLe ⊢
  have parts := Nat.div_add_mod x W.modulus
  have shape : x - x % 2 ^ k = (x % W.modulus - x % 2 ^ k) + W.modulus * (x / W.modulus) := by omega
  have below := Nat.mod_lt x W.modulus_pos
  have word : x % W.modulus - x % 2 ^ k < W.modulus := by omega
  rw [shape, Nat.add_mul_mod_self_left, Nat.mod_eq_of_lt word]

theorem add_mod_left (W : Wordsize) (a b : Nat) : W.add (a % W.modulus) b = (a + b) % W.modulus :=
  Nat.mod_add_mod a W.modulus b

/-- Subtraction from a reduced number. -/
theorem sub_mod (W : Wordsize) {a b : Nat} (le : b ≤ a) (word : b ≤ W.modulus) :
    W.sub (a % W.modulus) b = (a - b) % W.modulus := by
  have parts := Nat.mod_add_div a W.modulus
  have shifted : a - b + W.modulus =
      a % W.modulus + W.modulus - b + W.modulus * (a / W.modulus) := by omega
  rw [sub, ← Nat.add_mul_mod_self_left _ W.modulus (a / W.modulus), ← shifted, Nat.add_mod_right]

theorem sub_add_mod (W : Wordsize) {a b : Nat} (word : a < W.modulus) (le : b ≤ W.modulus) :
    W.sub ((a + b) % W.modulus) b = a := by
  rw [W.sub_mod (Nat.le_add_left b a) le, Nat.add_sub_cancel, Nat.mod_eq_of_lt word]

/-- Wrapping keeps the multiples of a power of two that is a word. -/
theorem dvd_add (W : Wordsize) {k a b : Nat} (small : k ≤ W.bits) (left : 2 ^ k ∣ a)
    (right : 2 ^ k ∣ b) : 2 ^ k ∣ W.add a b :=
  (Nat.dvd_mod_iff (W.pow_dvd_modulus small)).mpr (Nat.dvd_add left right)

theorem dvd_sub (W : Wordsize) {k a b : Nat} (small : k ≤ W.bits) (left : 2 ^ k ∣ a)
    (right : 2 ^ k ∣ b) : 2 ^ k ∣ W.sub a b :=
  (Nat.dvd_mod_iff (W.pow_dvd_modulus small)).mpr
    (Nat.dvd_sub (Nat.dvd_add left (W.pow_dvd_modulus small)) right)

theorem dvd_round_size (W : Wordsize) (k value : Nat) : 2 ^ k ∣ W.roundSize k value :=
  dvd_trunc_size k _

theorem round_size_lt (W : Wordsize) (k value : Nat) : W.roundSize k value < W.modulus :=
  (trunc_size_le k _).trans_lt (Nat.mod_lt _ W.modulus_pos)

/-- A rounding that fits the word is the unbounded one: the intermediate sum
may be as large as the modulus only if the result is the modulus itself. -/
theorem round_size_eq (W : Wordsize) {k value : Nat} (small : k ≤ W.bits)
    (fits : roundUp k value < W.modulus) : W.roundSize k value = roundUp k value := by
  apply W.round_size_of_lt
  by_contra wraps
  have reached : W.modulus ≤ roundUp k value :=
    le_trunc_size (W.pow_dvd_modulus small) (Nat.le_of_not_lt wraps)
  omega

end Wordsize

end MachineWord
