import Mathlib.Data.Nat.Basic
import Mathlib.Algebra.Order.Ring.Nat
import Mathlib.Tactic.Linarith
import Mathlib.Tactic.SplitIfs
import Mathlib.Data.List.Induction

/-!
# Numerals in a text

Texts are lists of bytes. A numeral of some base is a run of digits and letters whose
values are below the base. A text is cut behind its longest front of bytes of a kind.
-/

namespace Numerals

set_option autoImplicit false

/-! ## The longest front -/

section

variable {α : Type} {p : α → Bool} {front back list : List α} {c : α}

theorem take_while_all (all : ∀ a ∈ list, p a = true) : list.takeWhile p = list := by
  have joined : (list ++ []).takeWhile p = list ++ [].takeWhile p :=
    List.takeWhile_append_of_pos all
  simpa using joined

theorem take_while_front (all : ∀ a ∈ front, p a = true) (other : p c = false) :
    (front ++ c :: back).takeWhile p = front := by
  rw [List.takeWhile_append_of_pos all, List.takeWhile_cons_of_neg (by simp [other]),
    List.append_nil]

theorem drop_while_front (all : ∀ a ∈ front, p a = true) (other : p c = false) :
    (front ++ c :: back).dropWhile p = c :: back := by
  rw [List.dropWhile_append_of_pos all, List.dropWhile_cons_of_neg (by simp [other])]

theorem front_cases (p : α → Bool) (list : List α) : (∀ a ∈ list, p a = true) ∨
    ∃ front c back, list = front ++ c :: back ∧ (∀ a ∈ front, p a = true) ∧ p c = false := by
  induction list with
  | nil => exact .inl fun a member => absurd member List.not_mem_nil
  | cons a rest ih =>
      cases first : p a with
      | false => exact .inr ⟨[], a, rest, rfl, fun b member => absurd member List.not_mem_nil, first⟩
      | true =>
          rcases ih with all | ⟨front, c, back, rfl, all, other⟩
          · exact .inl (List.forall_mem_cons.mpr ⟨first, all⟩)
          · exact .inr ⟨a :: front, c, back, rfl, List.forall_mem_cons.mpr ⟨first, all⟩, other⟩

end

/-! ## Digits -/

/-- The value of a digit or a letter, at least 36 for other bytes. -/
def digitValue (c : UInt8) : Nat :=
  if 48 ≤ c ∧ c ≤ 57 then c.toNat - 48
  else if 97 ≤ c ∧ c ≤ 122 then c.toNat - 87
  else if 65 ≤ c ∧ c ≤ 90 then c.toNat - 55
  else 255

def isDigit (base : Nat) (c : UInt8) : Bool := digitValue c < base

/-- The longest front of digits. -/
def digits (base : Nat) (text : List UInt8) : List UInt8 := text.takeWhile (isDigit base)

/-- The number that digits denote. -/
def numeral (base : Nat) (ds : List UInt8) : Nat :=
  ds.foldl (fun value c => base * value + digitValue c) 0

variable {base : Nat} {ds text : List UInt8} {c : UInt8}

theorem is_digit_iff : isDigit base c = true ↔
    (48 ≤ c.toNat ∧ c.toNat ≤ 57 ∧ c.toNat - 48 < base) ∨
      (97 ≤ c.toNat ∧ c.toNat ≤ 122 ∧ c.toNat - 87 < base) ∨
      (65 ≤ c.toNat ∧ c.toNat ≤ 90 ∧ c.toNat - 55 < base) ∨
      255 < base ∧ ¬(48 ≤ c.toNat ∧ c.toNat ≤ 57) ∧ ¬(97 ≤ c.toNat ∧ c.toNat ≤ 122) ∧
        ¬(65 ≤ c.toNat ∧ c.toNat ≤ 90) := by
  have order : ∀ low high : UInt8,
      (low ≤ c ∧ c ≤ high) ↔ low.toNat ≤ c.toNat ∧ c.toNat ≤ high.toNat := fun low high => by
    rw [UInt8.le_iff_toNat_le, UInt8.le_iff_toNat_le]
  rw [isDigit, decide_eq_true_iff, digitValue]
  simp only [order, UInt8.reduceToNat]
  split_ifs <;> omega

theorem digits_all (all : ∀ c ∈ ds, isDigit base c = true) : digits base ds = ds :=
  take_while_all all

theorem digits_front (all : ∀ c ∈ ds, isDigit base c = true) (other : isDigit base c = false) :
    digits base (ds ++ c :: text) = ds := take_while_front all other

theorem numeral_append (front : List UInt8) (c : UInt8) :
    numeral base (front ++ [c]) = base * numeral base front + digitValue c := by
  rw [numeral, List.foldl_append]
  rfl

theorem numeral_lt (all : ∀ c ∈ ds, isDigit base c = true) : numeral base ds < base ^ ds.length := by
  induction ds using List.reverseRecOn with
  | nil => exact Nat.one_pos
  | append_singleton front c ih =>
      have before := ih fun a member => all a (List.mem_append_left _ member)
      have digit : digitValue c < base :=
        of_decide_eq_true (all c (List.mem_append_right _ List.mem_cons_self))
      have scaled := Nat.mul_le_mul_left base (Nat.succ_le_of_lt before)
      rw [Nat.mul_succ] at scaled
      rw [numeral_append, List.length_append, List.length_singleton, Nat.pow_succ,
        Nat.mul_comm (base ^ front.length)]
      omega

end Numerals
