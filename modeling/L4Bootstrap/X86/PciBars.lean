import Mathlib.Data.List.FinRange
import L4Bootstrap.Lib.Word
import L4Bootstrap.X86.PciConfig

/-!
# Base address registers

`Pci_com_drv::read_bars` of `x86_pc-base.h` and `xhci_probe_bar` of `x86_pc.cc`, two
decoders for the base address registers of a function.
-/

namespace L4Bootstrap.X86

open MachineWord

set_option autoImplicit false

/-- `Resource::Type`. -/
inductive ResourceType
  | noBar
  | ioBar
  | memBar
  deriving DecidableEq, Repr

structure Resource where
  type : ResourceType
  base : Nat
  len : Nat
  deriving DecidableEq, Repr

/-- `NUM_BARS`. -/
abbrev numBars : Nat := 6

abbrev Bars := Fin numBars → Resource

def barOffset (bar : Fin numBars) : Nat := 0x10 + bar * 4

/-- The scan for a bit from bit 2 on. -/
def sizeShift (x : BitVec 32) : Nat := ((List.range' 2 30).find? fun s => x.getLsbD s).getD 32

/-- `1 << s` is an `int`, the length an `unsigned long`. -/
def shiftedOne (W : Wordsize) (s : Nat) : Nat := ((1#32 <<< s).signExtend W.bits).toNat

/-- The body of the loop in `read_bars`. -/
def readBar (W : Wordsize) (dev : Slot) (st : ConfigSpace × Bars) (bar : Fin numBars) :
    ConfigSpace × Bars :=
  let v := pciRead st.1 dev (barOffset bar) 32
  let probed := pciWrite st.1 dev (barOffset bar) (BitVec.allOnes 32) 32
  let x := pciRead probed dev (barOffset bar) 32
  let restored := pciWrite probed dev (barOffset bar) v 32
  if v = 0 then (restored, st.2)
  else
    (restored, Function.update st.2 bar
      { type := if v.getLsbD 0 then .ioBar else .memBar
        base := (v &&& ~~~3#32).toNat
        len := shiftedOne W (sizeShift x) })

def readBars (W : Wordsize) (dev : Slot) (cfg : ConfigSpace) (bars : Bars) : ConfigSpace × Bars :=
  (List.finRange numBars).foldl (readBar W dev) (cfg, bars)

/-- `Pci_iterator::read_bar_size`. -/
def readBarSize (cfg : ConfigSpace) (dev : Slot) (offset : Nat) (bar : BitVec 32) :
    ConfigSpace × BitVec 32 :=
  let probed := pciWrite cfg dev offset (BitVec.allOnes 32) 32
  (pciWrite probed dev offset bar 32, pciRead probed dev offset 32)

/-- Address and size, when the function succeeds. -/
def xhciProbeBar (cfg : ConfigSpace) (dev : Slot) :
    ConfigSpace × Option (BitVec 64 × BitVec 64) :=
  let bar := pciRead cfg dev 0x10 32
  if bar = 0 then (cfg, none)
  else if bar.getLsbD 0 then (cfg, none)
  else
    let addr := (bar &&& ~~~0xf#32).setWidth 64
    let (cfg, sz32) := readBarSize cfg dev 0x10 bar
    if sz32 = 0xffffffff#32 then (cfg, none)
    else if bar &&& 6#32 = 4#32 then
      let upper := pciRead cfg dev 0x14 32
      let (cfg, szUpper) := readBarSize cfg dev 0x14 upper
      (cfg, some (addr ||| (upper.setWidth 64 <<< 32),
        ~~~((szUpper.setWidth 64 <<< 32) ||| (sz32 &&& ~~~0xf#32).setWidth 64) + 1))
    else (cfg, some (addr, (~~~(sz32 &&& ~~~0xf#32) + 1).setWidth 64))

/-! ## Implemented registers -/

/-- An I/O register may decode 16 bits only. A memory register has its type in two bits. -/
inductive BarKind
  | io (short : Bool)
  | memory (type : BitVec 2) (prefetchable : Bool)
  deriving DecidableEq, Repr

namespace BarKind

def attributes : BarKind → BitVec 32
  | io _ => 1
  | memory type prefetchable => (type.setWidth 32 <<< 1) ||| (if prefetchable then 8 else 0)

def attributeMask : BarKind → BitVec 32
  | io _ => 3
  | memory _ _ => 0xf

/-- The number of attribute bits, and the bit above the address. -/
def attributeBits : BarKind → Nat
  | io _ => 2
  | memory _ _ => 4

def top : BarKind → Nat
  | io true => 16
  | _ => 32

def IsMemory32 : BarKind → Prop
  | io _ => False
  | memory type _ => type ≠ 2

/-- Not prefetchable, and not of a type with its upper bit set. -/
def Plain (kind : BarKind) : Prop :=
  kind.attributes.getLsbD 2 = false ∧ kind.attributes.getLsbD 3 = false

end BarKind

/-- A register of `2 ^ order` bytes: the address bits are writable, the others fixed. -/
structure ImplementsBar (r : Register) (kind : BarKind) (order : Nat) : Prop where
  least : kind.attributeBits ≤ order
  below : order < kind.top
  mask_bit : ∀ i, r.mask.getLsbD i = decide (order ≤ i ∧ i < kind.top)
  fixed : r.value &&& ~~~r.mask = kind.attributes

def barRegister (cfg : ConfigSpace) (dev : Slot) (bar : Fin numBars) : Register :=
  cfg dev.onBus (barOffset bar)

/-- Base and length of an implemented register are reported whatever was in the board before,
the register has its value back, and the two decoders agree on a memory register 0. -/
def BarDecoded (W : Wordsize) (cfg : ConfigSpace) (dev : Slot) (bar : Fin numBars) (kind : BarKind)
    (order : Nat) : Prop :=
  ∀ bars, (readBars W dev cfg bars).1 = cfg ∧
    ((readBars W dev cfg bars).2 bar).base =
      ((barRegister cfg dev bar).value &&& ~~~kind.attributeMask).toNat ∧
    ((readBars W dev cfg bars).2 bar).len = 2 ^ order ∧
    (bar = 0 → kind.IsMemory32 → ∃ addr size, (xhciProbeBar cfg dev).2 = some (addr, size) ∧
      addr.toNat = ((readBars W dev cfg bars).2 bar).base ∧
      size.toNat = ((readBars W dev cfg bars).2 bar).len)

section

variable {W : Wordsize} {cfg : ConfigSpace} {dev : Slot} {bar : Fin numBars} {bars : Bars}

theorem bar_offset_aligned : barOffset bar % 4 = 0 := by
  rw [barOffset]
  omega

/-- What the probe of a register reads. -/
def probed (r : Register) : BitVec 32 := (r.write (BitVec.allOnes 32) (BitVec.allOnes 32)).value

/-- What the loop leaves in an entry. -/
def decodeBar (W : Wordsize) (r : Register) (before : Resource) : Resource :=
  if r.value = 0 then before
  else
    { type := if r.value.getLsbD 0 then .ioBar else .memBar
      base := (r.value &&& ~~~3#32).toNat
      len := shiftedOne W (sizeShift (probed r)) }

/-- The read behind the probe, also in `read_bar_size`. -/
theorem pci_read_probed : pciRead (pciWrite cfg dev (barOffset bar) (BitVec.allOnes 32) 32) dev
    (barOffset bar) 32 = probed (barRegister cfg dev bar) := by
  rw [pci_read_word bar_offset_aligned, pci_write_word bar_offset_aligned, set_same, probed,
    barRegister]

theorem read_bar_eq : readBar W dev (cfg, bars) bar =
    (cfg, Function.update bars bar (decodeBar W (barRegister cfg dev bar) (bars bar))) := by
  have value : pciRead cfg dev (barOffset bar) 32 = (barRegister cfg dev bar).value :=
    pci_read_word bar_offset_aligned
  have restored : pciWrite (pciWrite cfg dev (barOffset bar) (BitVec.allOnes 32) 32) dev
      (barOffset bar) (pciRead cfg dev (barOffset bar) 32) 32 = cfg :=
    probe_restores bar_offset_aligned _
  rw [readBar]
  dsimp only
  rw [restored, pci_read_probed, value]
  unfold decodeBar
  by_cases zero : (barRegister cfg dev bar).value = 0
  · rw [if_pos zero, if_pos zero, Function.update_eq_self]
  · rw [if_neg zero, if_neg zero]

theorem read_bar_size_eq (bar : Fin numBars) :
    readBarSize cfg dev (barOffset bar) (barRegister cfg dev bar).value =
      (cfg, probed (barRegister cfg dev bar)) := by
  have restored : pciWrite (pciWrite cfg dev (barOffset bar) (BitVec.allOnes 32) 32) dev
      (barOffset bar) (pciRead cfg dev (barOffset bar) 32) 32 = cfg :=
    probe_restores bar_offset_aligned _
  rw [pci_read_word bar_offset_aligned] at restored
  rw [readBarSize]
  exact Prod.ext restored pci_read_probed

theorem read_bars_foldl (list : List (Fin numBars)) (unique : list.Nodup) :
    list.foldl (readBar W dev) (cfg, bars) =
      (cfg, fun bar => if bar ∈ list then decodeBar W (barRegister cfg dev bar) (bars bar)
        else bars bar) := by
  induction list generalizing bars with
  | nil => simp
  | cons first rest ih =>
      obtain ⟨notMember, uniqueRest⟩ := List.nodup_cons.mp unique
      rw [List.foldl_cons, read_bar_eq, ih uniqueRest]
      congr 1
      funext bar
      by_cases isFirst : bar = first
      · subst isFirst
        rw [if_neg notMember, if_pos List.mem_cons_self, Function.update_self]
      · rw [Function.update_of_ne isFirst]
        simp only [List.mem_cons, isFirst, false_or]

/-- The whole loop: each entry is that of its register, and configuration space is unchanged. -/
theorem read_bars_eq : readBars W dev cfg bars =
    (cfg, fun bar => decodeBar W (barRegister cfg dev bar) (bars bar)) := by
  rw [readBars, read_bars_foldl _ (List.nodup_finRange numBars)]
  simp only [List.mem_finRange, if_true]

/-! ## The two decoders on an implemented register -/

variable {r : Register} {kind : BarKind} {order : Nat}

theorem probed_bit {i : Nat} (small : i < 32) :
    (probed r).getLsbD i = (r.mask.getLsbD i || r.value.getLsbD i) := by
  have ones : (BitVec.allOnes 32).getLsbD i = true :=
    BitVec.getLsbD_allOnes.trans (decide_eq_true small)
  rw [probed, write_bit, ones]
  cases r.mask.getLsbD i <;> rfl

theorem BarKind.attribute_bits_range (kind : BarKind) :
    2 ≤ kind.attributeBits ∧ kind.attributeBits ≤ 4 := by
  cases kind <;> simp [BarKind.attributeBits]

theorem BarKind.top_le (kind : BarKind) : kind.top ≤ 32 := by
  rcases kind with (_ | _) | _ <;> simp [BarKind.top]

/-- The bits that cannot be written are those of the attributes. -/
theorem ImplementsBar.attribute_bit (implemented : ImplementsBar r kind order) {i : Nat}
    (small : i < 32) (fixed : r.mask.getLsbD i = false) :
    r.value.getLsbD i = kind.attributes.getLsbD i := by
  rw [← implemented.fixed, BitVec.getLsbD_and, BitVec.getLsbD_not, fixed]
  simp [small]

theorem ImplementsBar.low_bit (implemented : ImplementsBar r kind order) {i : Nat}
    (low : i < kind.attributeBits) : r.value.getLsbD i = kind.attributes.getLsbD i := by
  have least := implemented.least
  have few := kind.attribute_bits_range.2
  apply implemented.attribute_bit (by omega)
  rw [implemented.mask_bit]
  exact decide_eq_false (by omega)

theorem BarKind.attributes_high (kind : BarKind) {i : Nat} (high : 4 ≤ i) :
    kind.attributes.getLsbD i = false := by
  cases kind with
  | io _ =>
      change (1#32).getLsbD i = false
      rw [BitVec.getLsbD_one]
      simp
      omega
  | memory type prefetchable =>
      have typeBit : type.getLsbD (i - 1) = false := type.getLsbD_of_ge _ (by omega)
      have flag : (8#32).getLsbD i = false := by
        rw [show (8#32) = BitVec.twoPow 32 3 from rfl, BitVec.getLsbD_twoPow]
        simp
        omega
      cases prefetchable <;> simp [BarKind.attributes, typeBit, flag]

/-- With plain attributes the lowest bit that the scan finds is the size. -/
theorem size_shift_probed (implemented : ImplementsBar r kind order) (plain : kind.Plain) :
    sizeShift (probed r) = order := by
  have least := implemented.least
  have below := implemented.below
  have top := kind.top_le
  have two := kind.attribute_bits_range.1
  have found : ((List.range' 2 30).find? fun s => (probed r).getLsbD s) = some order := by
    rw [List.find?_range'_eq_some]
    refine ⟨?_, List.mem_range'_1.mpr (by omega), fun s lower upper => ?_⟩
    · rw [probed_bit (by omega), implemented.mask_bit, decide_eq_true (by omega), Bool.true_or]
    · have fixed : r.mask.getLsbD s = false := by
        rw [implemented.mask_bit]
        exact decide_eq_false (by omega)
      rw [probed_bit (by omega), implemented.attribute_bit (by omega) fixed, fixed, Bool.false_or,
        Bool.not_eq_true']
      rcases Nat.lt_or_ge s 4 with low | high
      · rcases (by omega : s = 2 ∨ s = 3) with rfl | rfl
        · exact plain.1
        · exact plain.2
      · exact kind.attributes_high high
  rw [sizeShift, found, Option.getD_some]

theorem BarKind.io_plain (short : Bool) : (BarKind.io short).Plain := by
  constructor
  · change (1#32).getLsbD 2 = false
    decide
  · change (1#32).getLsbD 3 = false
    decide

/-- Two cleared bits and four cleared bits are the same in plain attributes only. -/
theorem base_eq_iff (implemented : ImplementsBar r kind order) :
    r.value &&& ~~~3#32 = r.value &&& ~~~kind.attributeMask ↔ kind.Plain := by
  cases kind with
  | io short => exact ⟨fun _ => BarKind.io_plain short, fun _ => rfl⟩
  | memory type prefetchable =>
      have fixedBit : ∀ i, i < 4 → r.value.getLsbD i =
          (BarKind.memory type prefetchable).attributes.getLsbD i := fun i low =>
        implemented.low_bit low
      constructor
      · intro same
        have bit : ∀ i, i < 32 → (r.value &&& ~~~3#32).getLsbD i =
            (r.value &&& ~~~0xf#32).getLsbD i := fun i _ => by
          rw [same]
          rfl
        have bit2 := bit 2 (by decide)
        have bit3 := bit 3 (by decide)
        rw [BitVec.getLsbD_and, BitVec.getLsbD_and] at bit2 bit3
        refine ⟨?_, ?_⟩
        · rw [← fixedBit 2 (by decide)]
          simpa using bit2
        · rw [← fixedBit 3 (by decide)]
          simpa using bit3
      · rintro ⟨bit2, bit3⟩
        rw [← fixedBit 2 (by decide)] at bit2
        rw [← fixedBit 3 (by decide)] at bit3
        have masks : ∀ i, i < 32 → i ≠ 2 → i ≠ 3 →
            (~~~3#32).getLsbD i = (~~~0xf#32).getLsbD i := by
          decide
        apply BitVec.eq_of_getLsbD_eq
        intro i small
        change (r.value &&& ~~~3#32).getLsbD i = (r.value &&& ~~~0xf#32).getLsbD i
        rw [BitVec.getLsbD_and, BitVec.getLsbD_and]
        by_cases isTwo : i = 2
        · rw [isTwo, bit2, Bool.false_and, Bool.false_and]
        · by_cases isThree : i = 3
          · rw [isThree, bit3, Bool.false_and, Bool.false_and]
          · rw [masks i small isTwo isThree]

/-- The length does not fit an `int` that is extended to 64 bits. -/
theorem shifted_one_eq_iff (small : order < 32) :
    shiftedOne W order = 2 ^ order ↔ ¬(W = .w64 ∧ order = 31) := by
  have shifted : ∀ s : Fin 32, ∀ W : Wordsize, shiftedOne W s = 2 ^ s.val ↔
      ¬(W = .w64 ∧ s.val = 31) := by
    intro s W
    cases W <;> revert s <;> decide +kernel
  exact shifted ⟨order, small⟩ W

theorem negated_mask (small : order < 32) :
    (~~~(BitVec.allOnes 32 <<< order) + 1).toNat = 2 ^ order := by
  have negated : ∀ s : Fin 32, (~~~(BitVec.allOnes 32 <<< s.val) + 1).toNat = 2 ^ s.val := by
    decide +kernel
  exact negated ⟨order, small⟩

theorem mask_bit_shift {i : Nat} :
    (BitVec.allOnes 32 <<< order).getLsbD i = decide (order ≤ i ∧ i < 32) := by
  rw [BitVec.getLsbD_shiftLeft, BitVec.getLsbD_allOnes]
  by_cases inside : order ≤ i
  · by_cases small : i < 32
    · simp only [inside, small, not_lt.mpr inside, Nat.lt_of_le_of_lt (Nat.sub_le i order) small,
        true_and, decide_true, decide_false, Bool.not_false, Bool.and_self]
    · simp [small]
  · simp [inside]

/-- Without the attribute bits the probe of a memory register is its mask. -/
theorem probed_address {type : BitVec 2} {prefetchable : Bool}
    (implemented : ImplementsBar r (.memory type prefetchable) order) :
    probed r &&& ~~~0xf#32 = BitVec.allOnes 32 <<< order := by
  apply BitVec.eq_of_getLsbD_eq
  intro i small
  have least : 4 ≤ order := implemented.least
  have clear : (~~~0xf#32).getLsbD i = decide (4 ≤ i) := by
    revert i
    decide
  have writable : r.mask.getLsbD i = decide (order ≤ i ∧ i < 32) := implemented.mask_bit i
  rw [BitVec.getLsbD_and, clear, probed_bit small, writable, mask_bit_shift]
  by_cases inside : order ≤ i
  · simp only [inside, small, least.trans inside, true_and, decide_true, Bool.true_or,
      Bool.and_true]
  · have fixed : decide (order ≤ i ∧ i < 32) = false := decide_eq_false (by omega)
    rw [implemented.attribute_bit small (writable.trans fixed), fixed, Bool.false_or]
    by_cases high : 4 ≤ i
    · rw [BarKind.attributes_high _ high, Bool.false_and]
    · rw [decide_eq_false high, Bool.and_false]

/-- `xhci_probe_bar` on a plain 32-bit memory register. -/
theorem xhci_probe_bar_memory (implemented : ImplementsBar (barRegister cfg dev 0) kind order)
    (isMemory : kind.IsMemory32) (plain : kind.Plain)
    (nonzero : (barRegister cfg dev 0).value ≠ 0) :
    ∃ addr size, (xhciProbeBar cfg dev).2 = some (addr, size) ∧
      addr.toNat = ((barRegister cfg dev 0).value &&& ~~~kind.attributeMask).toNat ∧
      size.toNat = 2 ^ order := by
  cases kind with
  | io _ => exact isMemory.elim
  | memory type prefetchable =>
      have below : order < 32 := implemented.below
      have value : pciRead cfg dev 0x10 32 = (barRegister cfg dev 0).value :=
        pci_read_word rfl
      have read : readBarSize cfg dev 0x10 (barRegister cfg dev 0).value =
          (cfg, probed (barRegister cfg dev 0)) := read_bar_size_eq 0
      have bit0 : (barRegister cfg dev 0).value.getLsbD 0 = false := by
        rw [implemented.low_bit (Nat.succ_pos 3)]
        cases prefetchable <;> simp [BarKind.attributes]
      have notAll : probed (barRegister cfg dev 0) ≠ 0xffffffff#32 := by
        intro all
        have bit := probed_bit (r := barRegister cfg dev 0) (i := 0) (by decide)
        rw [all, bit0, implemented.mask_bit, decide_eq_false] at bit
        · exact absurd bit (by decide)
        · have least : 4 ≤ order := implemented.least
          omega
      have not64 : (barRegister cfg dev 0).value &&& 6#32 ≠ 4#32 := by
        intro is64
        have low : 2 < (BarKind.memory type prefetchable).attributeBits := (by decide : 2 < 4)
        have bit := congrArg (fun x => x.getLsbD 2) is64
        rw [BitVec.getLsbD_and, implemented.low_bit low, plain.1] at bit
        exact absurd bit (by decide)
      have size := probed_address implemented
      refine ⟨((barRegister cfg dev 0).value &&& ~~~0xf#32).setWidth 64,
        (~~~(BitVec.allOnes 32 <<< order) + 1).setWidth 64, ?_, ?_, ?_⟩
      · rw [xhciProbeBar, value, if_neg nonzero, bit0, if_neg Bool.false_ne_true, read]
        dsimp only
        rw [if_neg notAll, if_neg not64, size]
      · exact BitVec.toNat_setWidth_of_le (by decide)
      · rw [BitVec.toNat_setWidth_of_le (by decide), negated_mask below]

/-- A register is decoded as the PCI layout says exactly when it is not zero, its memory
attributes are plain, and the length is not `1 << 31` on a machine of 64 bits. -/
theorem read_bars_decoded_iff (implemented : ImplementsBar (barRegister cfg dev bar) kind order) :
    BarDecoded W cfg dev bar kind order ↔
      (barRegister cfg dev bar).value ≠ 0 ∧ kind.Plain ∧ ¬(W = .w64 ∧ order = 31) := by
  have below : order < 32 := implemented.below.trans_le kind.top_le
  unfold BarDecoded
  simp only [read_bars_eq]
  constructor
  · intro decoded
    by_cases zero : (barRegister cfg dev bar).value = 0
    · obtain ⟨_, _, len, _⟩ := decoded fun _ => ⟨.noBar, 0, 0⟩
      rw [decodeBar, if_pos zero] at len
      exact absurd len (Nat.two_pow_pos order).ne
    · obtain ⟨_, base, len, _⟩ := decoded fun _ => ⟨.noBar, 0, 0⟩
      rw [decodeBar, if_neg zero] at base len
      have plain := (base_eq_iff implemented).mp (BitVec.eq_of_toNat_eq base)
      rw [size_shift_probed implemented plain, shifted_one_eq_iff below] at len
      exact ⟨zero, plain, len⟩
  · rintro ⟨nonzero, plain, short⟩ bars
    have base := congrArg BitVec.toNat ((base_eq_iff implemented).mpr plain)
    have len := (shifted_one_eq_iff (W := W) below).mpr short
    rw [decodeBar, if_neg nonzero, size_shift_probed implemented plain]
    refine ⟨trivial, base, len, fun isFirst isMemory => ?_⟩
    subst isFirst
    obtain ⟨addr, size, probes, addrEq, sizeEq⟩ :=
      xhci_probe_bar_memory implemented isMemory plain nonzero
    exact ⟨addr, size, probes, addrEq.trans base.symm, sizeEq.trans len.symm⟩

end

/-- A function with one register of `2 ^ order` bytes and attributes in `value`. -/
def oneBar (order : Nat) (value : BitVec 32) : ConfigSpace := fun _ reg =>
  if reg = 0x10 then ⟨BitVec.allOnes 32 <<< order, value⟩ else ⟨0, 0⟩

theorem one_bar_implements {type : BitVec 2} {prefetchable : Bool} {order : Nat}
    {value : BitVec 32} (least : 4 ≤ order) (below : order < 32)
    (fixed : value &&& ~~~(BitVec.allOnes 32 <<< order) =
      (BarKind.memory type prefetchable).attributes) :
    ImplementsBar (barRegister (oneBar order value) ⟨0, 0, 0⟩ 0) (.memory type prefetchable)
      order :=
  ⟨least, below, fun _ => mask_bit_shift, fixed⟩

theorem read_bars_decoded_mmio :
    BarDecoded .w64 (oneBar 12 0xfebf1000) ⟨0, 0, 0⟩ 0 (.memory 0 false) 12 :=
  (read_bars_decoded_iff (one_bar_implements (by decide) (by decide) (by decide))).mpr
    ⟨by decide, ⟨by decide, by decide⟩, by decide⟩

/-- A prefetchable register is reported with its attribute in the base, and 8 bytes long. -/
theorem read_bars_prefetchable :
    ImplementsBar (barRegister (oneBar 12 0xe0001008) ⟨0, 0, 0⟩ 0) (.memory 0 true) 12 ∧
      (readBars .w64 ⟨0, 0, 0⟩ (oneBar 12 0xe0001008) fun _ => ⟨.noBar, 0, 0⟩).2 0 =
        ⟨.memBar, 0xe0001008, 8⟩ ∧
      ¬BarDecoded .w64 (oneBar 12 0xe0001008) ⟨0, 0, 0⟩ 0 (.memory 0 true) 12 := by
  have entry : (readBars .w64 ⟨0, 0, 0⟩ (oneBar 12 0xe0001008) fun _ => ⟨.noBar, 0, 0⟩).2 0 =
      ⟨.memBar, 0xe0001008, 8⟩ := by
    rw [read_bars_eq]
    decide
  refine ⟨one_bar_implements (by decide) (by decide) (by decide), entry, fun decoded => ?_⟩
  have base := (decoded fun _ => ⟨.noBar, 0, 0⟩).2.1
  rw [entry] at base
  exact absurd base (by decide)

end L4Bootstrap.X86
