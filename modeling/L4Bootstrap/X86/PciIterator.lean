import L4Bootstrap.X86.PciConfig

/-!
# Iterating over PCI functions

`Pci_iterator` of `x86_pc-base.h`. The functions of a machine are visited by bus, device
and function number, the further functions of a device only where its header says so.
The command registers are written during an iteration, which does not affect it.
-/

namespace L4Bootstrap.X86

set_option autoImplicit false

/-- `Max_bus`. -/
def maxBus : Nat := 0x100

def endSlot : Slot := ⟨maxBus, 0, 0⟩

def Slot.InRange (slot : Slot) : Prop :=
  slot.bus < maxBus ∧ slot.dev < 32 ∧ slot.func < 8 ∨ slot = endSlot

/-- The place of a slot in the order of the iterator. -/
def Slot.index (slot : Slot) : Nat := slot.bus * 256 + slot.dev * 8 + slot.func

/-- The loop body of `operator ++` up to the read of `vd`. -/
def Slot.advance (cfg : ConfigSpace) (slot : Slot) : Slot :=
  let slot :=
    if slot.func = 0 then
      if (pciRead cfg slot 0xe 8).getLsbD 7 then { slot with func := slot.func + 1 }
      else { slot with dev := slot.dev + 1 }
    else if slot.func < 7 then { slot with func := slot.func + 1 }
    else { slot with func := 0, dev := slot.dev + 1 }
  if 32 ≤ slot.dev then ⟨slot.bus + 1, 0, 0⟩ else slot

theorem Slot.advance_spec (cfg : ConfigSpace) {slot : Slot} (inRange : slot.InRange)
    (inside : slot.bus < maxBus) :
    (slot.advance cfg).InRange ∧ slot.index < (slot.advance cfg).index := by
  obtain ⟨_, smallDev, smallFunc⟩ : slot.bus < maxBus ∧ slot.dev < 32 ∧ slot.func < 8 := by
    rcases inRange with inner | isEnd
    · exact inner
    · rw [isEnd] at inside
      exact absurd inside (Nat.lt_irrefl _)
  have wrapped : Slot.InRange ⟨slot.bus + 1, 0, 0⟩ := by
    rcases Nat.lt_or_eq_of_le (Nat.succ_le_of_lt inside) with inner | isLast
    · exact .inl ⟨inner, Nat.zero_lt_succ 31, Nat.zero_lt_succ 7⟩
    · exact .inr (congrArg (fun bus => Slot.mk bus 0 0) isLast)
  have later : slot.index < (Slot.mk (slot.bus + 1) 0 0).index := by
    simp only [Slot.index]
    omega
  have forward : ∀ moved : Slot, moved.bus = slot.bus → moved.func < 8 →
      (moved.dev = slot.dev ∧ slot.func < moved.func ∨ slot.dev < moved.dev) →
      moved.dev < 32 → moved.InRange ∧ slot.index < moved.index := by
    intro moved sameBus few moves inBus
    refine ⟨.inl ⟨sameBus ▸ inside, inBus, few⟩, ?_⟩
    simp only [Slot.index]
    omega
  unfold Slot.advance
  dsimp only
  split_ifs with first multi wraps wraps next wraps wraps
  all_goals first
    | exact ⟨wrapped, later⟩
    | exact forward _ rfl (by dsimp only; omega) (by dsimp only; omega) (by dsimp only at *; omega)

structure PciIterator where
  slot : Slot
  vd : BitVec 32
  inRange : slot.InRange

namespace PciIterator

/-- The default constructor does not initialise `vd`. -/
def start (vd : BitVec 32) : PciIterator := ⟨⟨0, 0, 0⟩, vd, .inl ⟨by decide, by decide, by decide⟩⟩

def device (i : PciIterator) : BitVec 32 := i.vd >>> 16

def classcode (cfg : ConfigSpace) (i : PciIterator) : BitVec 32 := pciRead cfg i.slot 0x0b 8

def subclass (cfg : ConfigSpace) (i : PciIterator) : BitVec 32 := pciRead cfg i.slot 0x0a 8

/-- One round of the loop in `operator ++`. -/
def moved (cfg : ConfigSpace) (i : PciIterator) (inside : i.slot.bus < maxBus) : PciIterator :=
  ⟨i.slot.advance cfg, pciRead cfg (i.slot.advance cfg) 0 32,
    (Slot.advance_spec cfg i.inRange inside).1⟩

theorem index_lt (i : PciIterator) (notEnd : i.slot ≠ endSlot) : i.slot.index < endSlot.index := by
  rcases i.inRange with inner | isEnd
  · simp only [Slot.index, endSlot]
    omega
  · exact absurd isEnd notEnd

theorem index_le (i : PciIterator) : i.slot.index ≤ endSlot.index := by
  by_cases isEnd : i.slot = endSlot
  · exact Nat.le_of_eq (congrArg Slot.index isEnd)
  · exact Nat.le_of_lt (index_lt i isEnd)

theorem moved_index (cfg : ConfigSpace) (i : PciIterator) (inside : i.slot.bus < maxBus) :
    i.slot.index < (i.moved cfg inside).slot.index :=
  (Slot.advance_spec cfg i.inRange inside).2

/-- `operator ++`. -/
def next (cfg : ConfigSpace) (i : PciIterator) : PciIterator :=
  if inside : i.slot.bus < maxBus then
    if (i.moved cfg inside).vd = BitVec.allOnes 32 then (i.moved cfg inside).next cfg
    else i.moved cfg inside
  else
    ⟨{ i.slot with dev := 0, func := 0 }, i.vd, by
      rcases i.inRange with inner | isEnd
      · exact absurd inner.1 inside
      · exact .inr (by rw [isEnd]; rfl)⟩
termination_by endSlot.index - i.slot.index
decreasing_by
  have later := moved_index cfg i inside
  have upTo := index_le (i.moved cfg inside)
  omega

section

variable {cfg other : ConfigSpace} {i : PciIterator} {slot : Slot} {reg width : Nat}

theorem bus_lt (i : PciIterator) : i.slot.bus < maxBus ↔ i.slot ≠ endSlot := by
  constructor
  · intro inside isEnd
    rw [isEnd] at inside
    exact absurd inside (Nat.lt_irrefl _)
  · intro notEnd
    rcases i.inRange with inner | isEnd
    · exact inner.1
    · exact absurd isEnd notEnd

theorem next_end (isEnd : i.slot = endSlot) : (i.next cfg).slot = endSlot := by
  have outside : ¬i.slot.bus < maxBus := fun inside => (bus_lt i).mp inside isEnd
  rw [next, dif_neg outside]
  change (⟨i.slot.bus, 0, 0⟩ : Slot) = endSlot
  rw [isEnd]
  rfl

theorem next_index (notEnd : i.slot ≠ endSlot) : i.slot.index < (i.next cfg).slot.index := by
  fun_induction next cfg i with
  | case1 i inside absent ih =>
      have later := moved_index cfg i inside
      by_cases isEnd : (i.moved cfg inside).slot = endSlot
      · rw [next_end isEnd, ← isEnd]
        exact later
      · exact Nat.lt_trans later (ih isEnd)
  | case2 i inside present => exact moved_index cfg i inside
  | case3 i outside => exact absurd ((bus_lt i).mpr notEnd) outside

/-! ## The functions of a machine -/

/-- The iterators from `i` up to the end. -/
def functions (cfg : ConfigSpace) (i : PciIterator) : List PciIterator :=
  if i.slot ≠ endSlot then i :: (i.next cfg).functions cfg else []
termination_by endSlot.index - i.slot.index
decreasing_by
  have later : i.slot.index < (i.next cfg).slot.index := next_index ‹_›
  have upTo := index_le (i.next cfg)
  omega

theorem functions_end (isEnd : i.slot = endSlot) : i.functions cfg = [] := by
  rw [functions, if_neg (not_not.mpr isEnd)]

theorem functions_inside (notEnd : i.slot ≠ endSlot) :
    i.functions cfg = i :: (i.next cfg).functions cfg := by
  rw [functions, if_pos notEnd]

theorem functions_sorted (cfg : ConfigSpace) (i : PciIterator) :
    (i.functions cfg).Pairwise (fun a b => a.slot.index < b.slot.index) ∧
      ∀ dev ∈ i.functions cfg, i.slot.index ≤ dev.slot.index ∧ dev.slot ≠ endSlot := by
  fun_induction functions cfg i with
  | case1 i notEnd ih =>
      obtain ⟨sorted, above⟩ := ih
      have later : i.slot.index < (i.next cfg).slot.index := next_index notEnd
      refine ⟨List.pairwise_cons.mpr ⟨fun dev member => ?_, sorted⟩, fun dev member => ?_⟩
      · exact Nat.lt_of_lt_of_le later (above dev member).1
      · rcases List.mem_cons.mp member with rfl | behind
        · exact ⟨Nat.le_refl _, notEnd⟩
        · exact ⟨Nat.le_of_lt (Nat.lt_of_lt_of_le later (above dev behind).1), (above dev behind).2⟩
  | case2 i isEnd =>
      exact ⟨List.Pairwise.nil, fun dev member => absurd member List.not_mem_nil⟩

/-- Nothing is behind the only function. -/
theorem next_of_absent (absent : ∀ slot : Slot, slot.InRange → i.slot.index < slot.index →
    slot ≠ endSlot → pciRead cfg slot 0 32 = BitVec.allOnes 32) :
    (i.next cfg).slot = endSlot := by
  fun_induction next cfg i with
  | case1 i inside isAbsent ih =>
      apply ih
      intro slot inRange behind
      exact absent slot inRange (Nat.lt_trans (moved_index cfg i inside) behind)
  | case2 i inside present =>
      by_contra notEnd
      exact present (absent _ (i.moved cfg inside).inRange (moved_index cfg i inside) notEnd)
  | case3 i outside =>
      have isEnd := not_not.mp ((bus_lt i).not.mp outside)
      change (⟨i.slot.bus, 0, 0⟩ : Slot) = endSlot
      rw [isEnd]
      rfl

/-! ## The command registers -/

/-- Equal up to the command registers. -/
def SameFunctions (cfg other : ConfigSpace) : Prop :=
  ∀ slot reg, reg ≠ 4 → cfg slot reg = other slot reg

theorem SameFunctions.refl (cfg : ConfigSpace) : SameFunctions cfg cfg := fun _ _ _ => rfl

theorem SameFunctions.symm (same : SameFunctions cfg other) : SameFunctions other cfg :=
  fun slot reg notCommand => (same slot reg notCommand).symm

theorem SameFunctions.trans {third : ConfigSpace} (first : SameFunctions cfg other)
    (second : SameFunctions other third) : SameFunctions cfg third :=
  fun slot reg notCommand => (first slot reg notCommand).trans (second slot reg notCommand)

theorem SameFunctions.read (same : SameFunctions cfg other) (notCommand : reg - reg % 4 ≠ 4) :
    pciRead cfg slot reg width = pciRead other slot reg width := by
  rw [pciRead, pciRead, same _ _ notCommand]

theorem SameFunctions.advance (same : SameFunctions cfg other) :
    slot.advance cfg = slot.advance other := by
  rw [Slot.advance, Slot.advance, same.read (by decide)]

theorem SameFunctions.next (same : SameFunctions cfg other) : i.next cfg = i.next other := by
  have sameMoved : ∀ (i : PciIterator) inside, i.moved cfg inside = i.moved other inside := by
    intro i inside
    simp only [PciIterator.moved, same.advance, same.read (by decide : 0 - 0 % 4 ≠ 4)]
  fun_induction PciIterator.next cfg i with
  | case1 i inside absent ih =>
      rw [ih, PciIterator.next.eq_def other i, dif_pos inside, ← sameMoved, if_pos absent]
  | case2 i inside present =>
      rw [PciIterator.next.eq_def other i, dif_pos inside, ← sameMoved, if_neg present]
  | case3 i outside =>
      rw [PciIterator.next.eq_def other i, dif_neg outside]

theorem same_functions_write (word : BitVec 32) :
    SameFunctions (pciWrite cfg slot 4 word 16) cfg :=
  fun _ _ notCommand => set_other (.inr notCommand)

end

end PciIterator

end L4Bootstrap.X86
