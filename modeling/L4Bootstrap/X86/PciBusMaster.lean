import L4Bootstrap.X86.PciIterator

/-!
# Taking the bus from PCI devices

`Platform_x86::disable_pci_bus_master` of `x86_pc-base.h`. Before the kernel starts no
device may go on with transfers of the firmware. Controllers for xHCI are left alone until
their handover.
-/

namespace L4Bootstrap.X86

set_option autoImplicit false

namespace PciIterator

def pciClass (cfg : ConfigSpace) (i : PciIterator) : BitVec 32 := pciRead cfg i.slot 8 32 >>> 8

end PciIterator

def pciClassSerialUsbXhci : BitVec 32 := 0x0c0330

/-- `Cmd_reg::Bus_master` -/
def busMaster : BitVec 32 := 4

def disableBusMaster (cfg : ConfigSpace) (dev : PciIterator) : ConfigSpace :=
  pciWrite cfg dev.slot 4 (pciRead cfg dev.slot 4 16 &&& ~~~busMaster) 16

/-- The loop body. -/
def takeBus (cfg : ConfigSpace) (i : PciIterator) : ConfigSpace :=
  if i.pciClass cfg = pciClassSerialUsbXhci then cfg else disableBusMaster cfg i

/-- The loop, from an iterator on. -/
def disableFrom (cfg : ConfigSpace) (i : PciIterator) : ConfigSpace :=
  if i.slot ≠ endSlot then disableFrom (takeBus cfg i) (i.next (takeBus cfg i)) else cfg
termination_by endSlot.index - i.slot.index
decreasing_by
  have later : i.slot.index < (i.next (takeBus cfg i)).slot.index := PciIterator.next_index ‹_›
  have upTo := PciIterator.index_le (i.next (takeBus cfg i))
  omega

/-- `disable_pci_bus_master`, with what the uninitialised iterator holds. -/
def disablePciBusMaster (vd : BitVec 32) (cfg : ConfigSpace) : ConfigSpace :=
  disableFrom cfg (PciIterator.start vd)

/-! ## One device -/

/-- The bit is cleared where the register lets it be written. -/
def Register.withoutBusMaster (r : Register) : Register :=
  { r with value := r.value &&& ~~~(r.mask &&& busMaster) }

section

variable {cfg other : ConfigSpace} {i : PciIterator} {slot : Slot} {reg : Nat} {r : Register}

@[simp] theorem without_bus_master_again :
    r.withoutBusMaster.withoutBusMaster = r.withoutBusMaster := by
  simp only [Register.withoutBusMaster, BitVec.and_assoc, BitVec.and_self]

/-- The 16 bits of the command register are written back, the status bits are not. -/
theorem write_without_bus_master :
    r.write 0xffff ((r.value &&& 0xffff) &&& ~~~busMaster) = r.withoutBusMaster := by
  have bits : (((r.value &&& 0xffff) &&& ~~~busMaster) &&& (r.mask &&& 0xffff)) |||
      (r.value &&& ~~~(r.mask &&& 0xffff)) = r.value &&& ~~~(r.mask &&& busMaster) := by
    apply BitVec.eq_of_getLsbD_eq
    intro i inside
    have lane : busMaster.getLsbD i = true → (0xffff : BitVec 32).getLsbD i = true := by
      revert inside
      revert i
      decide
    simp only [BitVec.getLsbD_or, BitVec.getLsbD_and, BitVec.getLsbD_not, inside, decide_true,
      Bool.true_and]
    cases r.value.getLsbD i <;> cases r.mask.getLsbD i <;> cases master : busMaster.getLsbD i <;>
      cases low : (0xffff : BitVec 32).getLsbD i <;> simp_all
  rw [Register.write, bits]
  rfl

theorem on_bus (inside : i.slot ≠ endSlot) : i.slot.onBus = i.slot := by
  have below : i.slot.bus < 256 := (PciIterator.bus_lt i).mpr inside
  rw [Slot.onBus, Nat.mod_eq_of_lt below]

theorem disable_bus_master_eq (inside : i.slot ≠ endSlot) :
    disableBusMaster cfg i = cfg.set i.slot 4 (cfg i.slot 4).withoutBusMaster := by
  have lanes : laneBits 16 <<< firstBit 4 16 = 0xffff := rfl
  have word : ∀ w : BitVec 32, w <<< firstBit 4 16 = w := fun w => BitVec.shiftLeft_zero w
  have read : pciRead cfg i.slot 4 16 = (cfg i.slot 4).value &&& 0xffff := by
    rw [pciRead, on_bus inside]
    change ((cfg i.slot 4).value >>> 0) &&& _ = _
    rw [BitVec.ushiftRight_zero]
    rfl
  rw [disableBusMaster, pciWrite, read, lanes, word, on_bus inside]
  change cfg.set i.slot 4 ((cfg i.slot 4).write _ _) = _
  rw [write_without_bus_master]

/-! ## All devices -/

theorem PciIterator.SameFunctions.pci_class (same : PciIterator.SameFunctions cfg other) :
    i.pciClass cfg = i.pciClass other := by
  rw [PciIterator.pciClass, PciIterator.pciClass, same.read (by decide)]

/-- A device that the loop meets and that is no xHCI controller. -/
def LosesBus (cfg : ConfigSpace) (i : PciIterator) (slot : Slot) : Prop :=
  ∃ dev ∈ i.functions cfg, dev.slot = slot ∧ dev.pciClass cfg ≠ pciClassSerialUsbXhci

/-- The function that the iterator stands at loses the bus. -/
def LosesHere (cfg : ConfigSpace) (i : PciIterator) (slot : Slot) : Prop :=
  i.slot = slot ∧ i.pciClass cfg ≠ pciClassSerialUsbXhci

theorem loses_bus_iff (inside : i.slot ≠ endSlot) :
    LosesBus cfg i slot ↔ LosesHere cfg i slot ∨ LosesBus cfg (i.next cfg) slot := by
  rw [LosesBus, PciIterator.functions_inside inside]
  constructor
  · intro loses
    obtain ⟨dev, member, isSlot⟩ := loses
    rcases List.mem_cons.mp member with rfl | behind
    · exact .inl isSlot
    · exact .inr ⟨dev, behind, isSlot⟩
  · intro loses
    rcases loses with here | ⟨dev, behind, isSlot⟩
    · exact ⟨i, by simp, here⟩
    · exact ⟨dev, by simp [behind], isSlot⟩

/-- What the loop body does to one register. -/
theorem take_bus_spec (same : PciIterator.SameFunctions other cfg) (inside : i.slot ≠ endSlot) :
    PciIterator.SameFunctions (takeBus other i) cfg ∧
      (LosesHere cfg i slot → takeBus other i slot 4 = (other slot 4).withoutBusMaster) ∧
      (reg ≠ 4 ∨ ¬ LosesHere cfg i slot → takeBus other i slot reg = other slot reg) := by
  rw [takeBus, same.pci_class]
  by_cases xhci : i.pciClass cfg = pciClassSerialUsbXhci
  · rw [if_pos xhci]
    exact ⟨same, fun here => absurd xhci here.2, fun _ => rfl⟩
  rw [if_neg xhci, disable_bus_master_eq inside]
  refine ⟨?_, ?_, ?_⟩
  · intro anySlot anyReg notCommand
    rw [set_other (.inr notCommand)]
    exact same anySlot anyReg notCommand
  · intro here
    rw [← here.1, set_same]
  · intro unchanged
    apply set_other
    by_cases isSlot : i.slot = slot
    · exact .inr (unchanged.resolve_right (not_not.mpr ⟨isSlot, xhci⟩))
    · exact .inl (Ne.symm isSlot)

/-- The functions still to come are the same whatever command registers were written. -/
theorem disable_from_spec (same : PciIterator.SameFunctions other cfg) :
    (LosesBus cfg i slot → disableFrom other i slot 4 = (other slot 4).withoutBusMaster) ∧
      ∀ reg, reg ≠ 4 ∨ ¬ LosesBus cfg i slot → disableFrom other i slot reg = other slot reg := by
  fun_induction PciIterator.functions cfg i generalizing other with
  | case1 i inside ih =>
      obtain ⟨sameNext, taken, _⟩ := @take_bus_spec cfg other i slot 4 same inside
      obtain ⟨loses, keeps⟩ := ih sameNext
      rw [disableFrom, if_pos inside, sameNext.next, loses_bus_iff inside]
      constructor
      · intro lost
        have here : takeBus other i slot 4 = (other slot 4).withoutBusMaster ∨
            takeBus other i slot 4 = other slot 4 := by
          by_cases here : LosesHere cfg i slot
          · exact .inl (taken here)
          · exact .inr ((@take_bus_spec cfg other i slot 4 same inside).2.2 (.inr here))
        by_cases later : LosesBus cfg (i.next cfg) slot
        · rw [loses later]
          rcases here with cleared | kept
          · rw [cleared, without_bus_master_again]
          · rw [kept]
        · rw [keeps 4 (.inr later)]
          exact taken (lost.resolve_right later)
      · intro reg unchanged
        rw [keeps reg (unchanged.imp_right fun none later => none (.inr later))]
        exact (@take_bus_spec cfg other i slot reg same inside).2.2
          (unchanged.imp_right fun none here => none (.inl here))
  | case2 i isEnd =>
      rw [disableFrom, if_neg isEnd]
      refine ⟨fun loses => ?_, fun _ _ => rfl⟩
      obtain ⟨dev, member, _⟩ := loses
      rw [PciIterator.functions_end (not_not.mp isEnd)] at member
      exact absurd member List.not_mem_nil

/-! ## The functions that are found -/

/-- The iterator looks at function 0 of each device, and at the others where the header of
function 0 says that there are several, as it also does where function 0 is missing. -/
structure Scanned (cfg : ConfigSpace) (slot : Slot) : Prop where
  bus : slot.bus < maxBus
  dev : slot.dev < 32
  func : slot.func < 8
  several : slot.func = 0 ∨ (pciRead cfg ⟨slot.bus, slot.dev, 0⟩ 0xe 8).getLsbD 7 = true

def Present (cfg : ConfigSpace) (slot : Slot) : Prop := pciRead cfg slot 0 32 ≠ BitVec.allOnes 32

theorem Scanned.index_lt (scanned : Scanned cfg slot) : slot.index < endSlot.index := by
  obtain ⟨bus, dev, func, _⟩ := scanned
  have last : maxBus = 256 := rfl
  simp only [Slot.index, endSlot]
  omega

theorem Scanned.eq_of_index {found : Slot} (one : Scanned cfg slot) (two : Scanned cfg found)
    (same : slot.index = found.index) : slot = found := by
  obtain ⟨_, dev, func, _⟩ := one
  obtain ⟨_, otherDev, otherFunc, _⟩ := two
  simp only [Slot.index] at same
  cases slot
  cases found
  simp only [Slot.mk.injEq] at *
  omega

/-- One step leads to the next slot that is looked at. -/
theorem Scanned.advance (scanned : Scanned cfg slot) :
    (slot.advance cfg = endSlot ∨ Scanned cfg (slot.advance cfg)) ∧
      ∀ found, Scanned cfg found → slot.index < found.index →
        (slot.advance cfg).index ≤ found.index := by
  obtain ⟨bus, dev, func, several⟩ := scanned
  have last : maxBus = 256 := rfl
  have nextBus : (⟨slot.bus + 1, 0, 0⟩ : Slot) = endSlot ∨ Scanned cfg ⟨slot.bus + 1, 0, 0⟩ := by
    rcases Nat.lt_or_eq_of_le (Nat.succ_le_of_lt bus) with inner | isLast
    · exact .inr ⟨inner, Nat.zero_lt_succ 31, Nat.zero_lt_succ 7, .inl rfl⟩
    · exact .inl (congrArg (fun bus => Slot.mk bus 0 0) isLast)
  have sameDevice : ∀ found, Scanned cfg found → slot.index < found.index →
      found.index < slot.bus * 256 + slot.dev * 8 + 8 → slot.func = 0 →
        (pciRead cfg slot 0xe 8).getLsbD 7 = true := by
    intro found isFound above below first
    obtain ⟨_, foundDev, foundFunc, foundSeveral⟩ := isFound
    simp only [Slot.index] at above below
    have there : found.bus = slot.bus ∧ found.dev = slot.dev ∧ found.func ≠ 0 := by omega
    have isFirst : (⟨found.bus, found.dev, 0⟩ : Slot) = slot := by
      rw [there.1, there.2.1, ← first]
    have set := foundSeveral.resolve_left there.2.2
    rw [isFirst] at set
    exact set
  by_cases first : slot.func = 0
  · have isFirst : (⟨slot.bus, slot.dev, 0⟩ : Slot) = slot := by rw [← first]
    by_cases multi : (pciRead cfg slot 0xe 8).getLsbD 7 = true
    · have moved : slot.advance cfg = { slot with func := slot.func + 1 } := by
        rw [Slot.advance, if_pos first, if_pos multi]
        exact if_neg (by simp only; omega)
      rw [moved]
      refine ⟨.inr ⟨bus, dev, by simp only; omega, .inr ?_⟩, fun found _ above => ?_⟩
      · rw [isFirst]
        exact multi
      · simp only [Slot.index] at above ⊢
        omega
    · have least : ∀ found, Scanned cfg found → slot.index < found.index →
          slot.bus * 256 + slot.dev * 8 + 8 ≤ found.index := by
        intro found isFound above
        apply Nat.le_of_not_lt
        intro below
        exact multi (sameDevice found isFound above below first)
      by_cases wraps : 32 ≤ slot.dev + 1
      · have moved : slot.advance cfg = ⟨slot.bus + 1, 0, 0⟩ := by
          rw [Slot.advance, if_pos first, if_neg multi]
          exact if_pos wraps
        rw [moved]
        refine ⟨nextBus, fun found isFound above => ?_⟩
        have bound := least found isFound above
        simp only [Slot.index] at bound ⊢
        omega
      · have moved : slot.advance cfg = { slot with dev := slot.dev + 1 } := by
          rw [Slot.advance, if_pos first, if_neg multi]
          exact if_neg wraps
        rw [moved]
        refine ⟨.inr ⟨bus, by simp only; omega, func, .inl first⟩, fun found isFound above => ?_⟩
        have bound := least found isFound above
        simp only [Slot.index] at bound ⊢
        omega
  · have multi := several.resolve_left first
    by_cases inDevice : slot.func < 7
    · have moved : slot.advance cfg = { slot with func := slot.func + 1 } := by
        rw [Slot.advance, if_neg first, if_pos inDevice]
        exact if_neg (by simp only; omega)
      rw [moved]
      refine ⟨.inr ⟨bus, dev, by simp only; omega, .inr multi⟩, fun found _ above => ?_⟩
      simp only [Slot.index] at above ⊢
      omega
    · by_cases wraps : 32 ≤ slot.dev + 1
      · have moved : slot.advance cfg = ⟨slot.bus + 1, 0, 0⟩ := by
          rw [Slot.advance, if_neg first, if_neg inDevice]
          exact if_pos wraps
        rw [moved]
        refine ⟨nextBus, fun found _ above => ?_⟩
        simp only [Slot.index] at above ⊢
        omega
      · have moved : slot.advance cfg = { slot with func := 0, dev := slot.dev + 1 } := by
          rw [Slot.advance, if_neg first, if_neg inDevice]
          exact if_neg wraps
        rw [moved]
        refine ⟨.inr ⟨bus, by simp only; omega, Nat.zero_lt_succ 7, .inl rfl⟩,
          fun found _ above => ?_⟩
        simp only [Slot.index] at above ⊢
        omega

/-- `operator ++` leads to the next function that is present. -/
theorem Scanned.next (scanned : Scanned cfg i.slot) :
    ((i.next cfg).slot = endSlot ∨ Scanned cfg (i.next cfg).slot ∧ Present cfg (i.next cfg).slot) ∧
      ∀ found, Scanned cfg found → Present cfg found → i.slot.index < found.index →
        (i.next cfg).slot.index ≤ found.index := by
  fun_induction PciIterator.next cfg i with
  | case1 i inside absent ih =>
      obtain ⟨onward, least⟩ := scanned.advance
      rcases onward with isEnd | isScanned
      · have ends : ((i.moved cfg inside).next cfg).slot = endSlot := PciIterator.next_end isEnd
        refine ⟨.inl ends, fun found isFound _ above => ?_⟩
        rw [ends, ← isEnd]
        exact least found isFound above
      · obtain ⟨outcome, leastNext⟩ := ih isScanned
        refine ⟨outcome, fun found isFound present above => ?_⟩
        apply leastNext found isFound present
        apply Nat.lt_of_le_of_ne (least found isFound above)
        intro same
        have isMoved := isScanned.eq_of_index isFound same
        rw [← isMoved] at present
        exact present absent
  | case2 i inside present =>
      obtain ⟨onward, least⟩ := scanned.advance
      exact ⟨onward.imp_right fun isScanned => ⟨isScanned, present⟩,
        fun found isFound _ above => least found isFound above⟩
  | case3 i outside => exact absurd scanned.bus outside

/-- The functions that a loop over all of them meets. -/
theorem Scanned.functions (scanned : Scanned cfg i.slot) :
    (∃ dev ∈ i.functions cfg, dev.slot = slot) ↔
      slot = i.slot ∨ Scanned cfg slot ∧ Present cfg slot ∧ i.slot.index < slot.index := by
  fun_induction PciIterator.functions cfg i with
  | case1 i inside ih =>
      obtain ⟨onward, least⟩ := scanned.next
      have later : i.slot.index < (i.next cfg).slot.index := PciIterator.next_index inside
      have rest : (∃ dev ∈ (i.next cfg).functions cfg, dev.slot = slot) ↔
          Scanned cfg slot ∧ Present cfg slot ∧ i.slot.index < slot.index := by
        rcases onward with isEnd | ⟨isScanned, isPresent⟩
        · rw [PciIterator.functions_end isEnd]
          constructor
          · intro found
            obtain ⟨dev, member, _⟩ := found
            exact absurd member List.not_mem_nil
          · intro found
            have bound := least slot found.1 found.2.1 found.2.2
            rw [isEnd] at bound
            exact absurd found.1.index_lt (Nat.not_lt.mpr bound)
        · rw [ih isScanned]
          constructor
          · intro found
            rcases found with rfl | ⟨isFound, present, above⟩
            · exact ⟨isScanned, isPresent, later⟩
            · exact ⟨isFound, present, Nat.lt_trans later above⟩
          · intro found
            obtain ⟨isFound, present, above⟩ := found
            rcases Nat.lt_or_eq_of_le (least slot isFound present above) with beyond | same
            · exact .inr ⟨isFound, present, beyond⟩
            · exact .inl (isFound.eq_of_index isScanned same.symm)
      rw [← rest]
      constructor
      · intro found
        obtain ⟨dev, member, isSlot⟩ := found
        rcases List.mem_cons.mp member with rfl | behind
        · exact .inl isSlot.symm
        · exact .inr ⟨dev, behind, isSlot⟩
      · intro found
        rcases found with rfl | ⟨dev, behind, isSlot⟩
        · exact ⟨i, by simp, rfl⟩
        · exact ⟨dev, by simp [behind], isSlot⟩
  | case2 i isEnd =>
      have isLast := not_not.mp isEnd
      have inBus := scanned.bus
      rw [isLast] at inBus
      exact absurd inBus (Nat.lt_irrefl _)

/-- The functions that lose the bus: those found, and slot 0:0.0 whether a function is there
or not, unless they are xHCI controllers. -/
def Loses (cfg : ConfigSpace) (slot : Slot) : Prop :=
  (slot = ⟨0, 0, 0⟩ ∨ Scanned cfg slot ∧ Present cfg slot) ∧
    pciRead cfg slot 8 32 >>> 8 ≠ pciClassSerialUsbXhci

theorem loses_bus_start (vd : BitVec 32) :
    LosesBus cfg (PciIterator.start vd) slot ↔ Loses cfg slot := by
  have first : Scanned cfg (PciIterator.start vd).slot :=
    ⟨show 0 < maxBus by decide, show 0 < 32 by decide, show 0 < 8 by decide, .inl rfl⟩
  have isStart : (PciIterator.start vd).slot = ⟨0, 0, 0⟩ := rfl
  have startIndex : (⟨0, 0, 0⟩ : Slot).index = 0 := rfl
  have met : (∃ dev ∈ (PciIterator.start vd).functions cfg, dev.slot = slot) ↔
      slot = ⟨0, 0, 0⟩ ∨ Scanned cfg slot ∧ Present cfg slot := by
    rw [first.functions, isStart, startIndex]
    constructor
    · exact Or.imp_right fun found => ⟨found.1, found.2.1⟩
    · intro found
      rcases found with isFirst | ⟨isFound, present⟩
      · exact .inl isFirst
      · rcases Nat.eq_zero_or_pos slot.index with zero | behind
        · exact .inl (isFound.eq_of_index first zero)
        · exact .inr ⟨isFound, present, behind⟩
  rw [Loses, ← met]
  constructor
  · intro loses
    obtain ⟨dev, member, rfl, other⟩ := loses
    exact ⟨⟨dev, member, rfl⟩, other⟩
  · intro loses
    obtain ⟨⟨dev, member, rfl⟩, other⟩ := loses
    exact ⟨dev, member, rfl, other⟩

/-- Afterwards the bus master bit is clear in the functions that lose the bus, wherever it can
be written, and nothing else of the configuration space has changed. -/
theorem disable_pci_bus_master_exact (vd : BitVec 32) (cfg : ConfigSpace) (slot : Slot) :
    (Loses cfg slot → disablePciBusMaster vd cfg slot 4 = (cfg slot 4).withoutBusMaster) ∧
      ∀ reg, reg ≠ 4 ∨ ¬ Loses cfg slot → disablePciBusMaster vd cfg slot reg = cfg slot reg := by
  rw [← loses_bus_start vd]
  exact disable_from_spec (PciIterator.SameFunctions.refl cfg)

end

end L4Bootstrap.X86
