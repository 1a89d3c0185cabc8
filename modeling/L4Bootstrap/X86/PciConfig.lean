import Mathlib.Logic.Function.Basic
import Mathlib.Tactic.SplitIfs

/-!
# PCI configuration space

A register has writable bits and bits that keep their value. Registers are found by
bus, device, function and the offset of their four bytes, with all ones where no
function is. `pci_read` and `pci_write` of `x86_pc-base.h` reach the bytes of a
register that their width covers.
-/

namespace L4Bootstrap.X86

set_option autoImplicit false

structure Register where
  mask : BitVec 32
  value : BitVec 32
  deriving DecidableEq

/-- Of the bits in `lanes` the writable ones are written. -/
def Register.write (r : Register) (lanes word : BitVec 32) : Register :=
  { r with value := (word &&& (r.mask &&& lanes)) ||| (r.value &&& ~~~(r.mask &&& lanes)) }

structure Slot where
  bus : Nat
  dev : Nat
  func : Nat
  deriving DecidableEq, Repr

abbrev ConfigSpace := Slot → Nat → Register

/-- The bus number is an `unsigned char`. -/
def Slot.onBus (slot : Slot) : Slot := { slot with bus := slot.bus % 256 }

def ConfigSpace.set (cfg : ConfigSpace) (slot : Slot) (reg : Nat) (r : Register) : ConfigSpace :=
  Function.update cfg slot (Function.update (cfg slot) reg r)

/-- The first bit that an access of the width reaches in its register. -/
def firstBit (reg width : Nat) : Nat :=
  match width with
  | 8 => 8 * (reg % 4)
  | 16 => 8 * (reg % 4 / 2 * 2)
  | _ => 0

def laneBits (width : Nat) : BitVec 32 :=
  match width with
  | 8 => 0xff
  | 16 => 0xffff
  | 32 => BitVec.allOnes 32
  | _ => 0

def pciRead (cfg : ConfigSpace) (slot : Slot) (reg width : Nat) : BitVec 32 :=
  ((cfg slot.onBus (reg - reg % 4)).value >>> firstBit reg width) &&& laneBits width

def pciWrite (cfg : ConfigSpace) (slot : Slot) (reg : Nat) (word : BitVec 32) (width : Nat) :
    ConfigSpace :=
  cfg.set slot.onBus (reg - reg % 4)
    ((cfg slot.onBus (reg - reg % 4)).write (laneBits width <<< firstBit reg width)
      (word <<< firstBit reg width))

section

variable {cfg : ConfigSpace} {slot : Slot} {reg : Nat} {r : Register}

@[simp] theorem set_same : cfg.set slot reg r slot reg = r := by
  rw [ConfigSpace.set, Function.update_self, Function.update_self]

theorem set_other {otherSlot : Slot} {other : Nat} (apart : otherSlot ≠ slot ∨ other ≠ reg) :
    cfg.set slot reg r otherSlot other = cfg otherSlot other := by
  rw [ConfigSpace.set]
  by_cases same : otherSlot = slot
  · subst same
    rw [Function.update_self, Function.update_of_ne (apart.resolve_left (not_not.mpr rfl))]
  · rw [Function.update_of_ne same]

theorem set_set (first : Register) :
    (cfg.set slot reg first).set slot reg r = cfg.set slot reg r := by
  simp only [ConfigSpace.set, Function.update_self, Function.update_idem]

theorem set_self : cfg.set slot reg (cfg slot reg) = cfg := by
  rw [ConfigSpace.set, Function.update_eq_self, Function.update_eq_self]

/-- Reading and writing a whole register at its own offset. -/
theorem pci_read_word (aligned : reg % 4 = 0) :
    pciRead cfg slot reg 32 = (cfg slot.onBus reg).value := by
  rw [pciRead, aligned, Nat.sub_zero, firstBit, laneBits, BitVec.ushiftRight_zero,
    BitVec.and_allOnes]
  · intro same
    cases same
  · intro same
    cases same

theorem pci_write_word (aligned : reg % 4 = 0) (word : BitVec 32) :
    pciWrite cfg slot reg word 32 =
      cfg.set slot.onBus reg ((cfg slot.onBus reg).write (BitVec.allOnes 32) word) := by
  have lanes : laneBits 32 <<< firstBit reg 32 = BitVec.allOnes 32 := rfl
  have whole : word <<< firstBit reg 32 = word := BitVec.shiftLeft_zero word
  rw [pciWrite, aligned, Nat.sub_zero, lanes, whole]

theorem write_bit (word : BitVec 32) (i : Nat) :
    (r.write (BitVec.allOnes 32) word).value.getLsbD i =
      if r.mask.getLsbD i then word.getLsbD i else r.value.getLsbD i := by
  rw [Register.write, BitVec.and_allOnes]
  cases writable : r.mask.getLsbD i
  · simp [writable]
    exact BitVec.lt_of_getLsbD
  · simp [writable]

/-- Writing back what was read restores a register, whatever was written between. -/
theorem write_back (word : BitVec 32) :
    (r.write (BitVec.allOnes 32) word).write (BitVec.allOnes 32) r.value = r := by
  have restored : ((r.write (BitVec.allOnes 32) word).write (BitVec.allOnes 32) r.value).value =
      r.value := by
    apply BitVec.eq_of_getLsbD_eq
    intro i _
    rw [write_bit, write_bit]
    change (if r.mask.getLsbD i then _ else _) = _
    split_ifs <;> rfl
  cases r
  exact congrArg (Register.mk _) restored

/-- A register is probed with all ones and gets its value back. -/
theorem probe_restores (aligned : reg % 4 = 0) (word : BitVec 32) :
    pciWrite (pciWrite cfg slot reg word 32) slot reg (pciRead cfg slot reg 32) 32 = cfg := by
  rw [pci_write_word aligned, pci_write_word aligned, pci_read_word aligned, set_same, write_back,
    set_set, set_self]

end

end L4Bootstrap.X86
