import L4Bootstrap.Lib.Word
import L4Bootstrap.Lib.Checked

/-!
# Panics, assertions and pages

A function of the loader either returns or stops the machine: by `panic` with a
message, by a failed `assert`, by a division by zero, by an access behind the end of
an array, or by never leaving a loop. Page arithmetic is that of `l4/sys/consts.h` on
`unsigned long`.
-/

namespace L4Bootstrap

open MachineWord

set_option autoImplicit false

inductive Stop
  | panic (message : String)
  | assertion
  | divisionByZero
  | outOfBounds
  | diverges
  deriving DecidableEq, Repr

abbrev Checked (α : Type) := Except Stop α

def panic {α : Type} (message : String) : Checked α := .error (.panic message)

def require (condition : Prop) [Decidable condition] : Checked Unit :=
  if condition then .ok () else .error .assertion

@[simp] theorem require_ok {condition : Prop} [Decidable condition] {value : Unit} :
    require condition = .ok value ↔ condition := by
  unfold require
  split_ifs <;> simp_all

/-- `L4_PAGESHIFT`. -/
def pageShift : Nat := 12

def pageSize : Nat := 2 ^ pageShift

def truncPage (address : Nat) : Nat := truncSize pageShift address

def roundPage (W : Wordsize) (address : Nat) : Nat := W.roundSize pageShift address

/-- `l4_round_page` without the bound of the machine word. -/
def pageUp (address : Nat) : Nat := roundUp pageShift address

theorem page_shift_le_bits (W : Wordsize) : pageShift ≤ W.bits := by
  cases W <;> decide

theorem round_page_eq (W : Wordsize) {address : Nat} (fits : pageUp address < W.modulus) :
    roundPage W address = pageUp address :=
  W.round_size_eq (page_shift_le_bits W) fits

end L4Bootstrap
