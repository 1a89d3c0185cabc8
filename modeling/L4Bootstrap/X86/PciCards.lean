import L4Bootstrap.X86.PciSerial

/-!
# PCI serial cards by number

`_search_pci_serial_devs` of `x86_pc-base.h` with its two callers: `search_pci_serial_devs`
selects a card for `-comport=pci:<card>:<port>`, `scan_pci_uarts` announces the numbers
that can be given there. Both use one board for all devices.
-/

namespace L4Bootstrap.X86

open PciIterator

set_option autoImplicit false

/-- `Pci_iterator::end`. Nothing reads its `vd`. -/
def PciIterator.last : PciIterator := ⟨endSlot, 0, .inr rfl⟩

/-- `_search_pci_serial_devs`, up to the end. -/
def searchDevs (P : PcPlatform) (i : PciIterator) (cfg : ConfigSpace) (board : SerialBoard) :
    PciIterator × ConfigSpace × SerialBoard :=
  if i.slot ≠ endSlot then
    match tryDevs P i devs cfg board with
    | (some _, cfg, board) => (i, cfg, board)
    | (none, cfg, board) => searchDevs P (i.next cfg) cfg board
  else (.last, cfg, board)
termination_by endSlot.index - i.slot.index
decreasing_by
  have later : i.slot.index < (i.next cfg).slot.index := next_index ‹_›
  have upTo := index_le (i.next cfg)
  omega

theorem search_devs_index (P : PcPlatform) (i : PciIterator) (cfg : ConfigSpace)
    (board : SerialBoard) : i.slot.index ≤ (searchDevs P i cfg board).1.slot.index := by
  fun_induction searchDevs P i cfg board with
  | case1 i cfg board notEnd drv cfg' board' found => exact Nat.le_refl _
  | case2 i cfg board notEnd cfg' board' notFound ih =>
      exact (Nat.le_of_lt (next_index notEnd)).trans ih
  | case3 i cfg board isEnd => exact index_le i

/-- The iterator behind a search is nearer to the end. -/
theorem next_search_index (P : PcPlatform) {i : PciIterator} (cfg other : ConfigSpace)
    (board : SerialBoard) (notEnd : i.slot ≠ endSlot) :
    endSlot.index - ((searchDevs P i cfg board).1.next other).slot.index <
      endSlot.index - i.slot.index := by
  have reached := search_devs_index P i cfg board
  have before := index_lt i notEnd
  by_cases found : (searchDevs P i cfg board).1.slot = endSlot
  · rw [next_end found]
    omega
  · have later : (searchDevs P i cfg board).1.slot.index <
        ((searchDevs P i cfg board).1.next other).slot.index := next_index found
    omega

/-- The loop of `search_pci_serial_devs`: the returned number and the iterator, with
configuration space and board. -/
def searchCards (P : PcPlatform) (cardIdx : Nat) (card : Nat) (i : PciIterator)
    (cfg : ConfigSpace) (board : SerialBoard) : Nat × PciIterator × ConfigSpace × SerialBoard :=
  if i.slot ≠ endSlot then
    let found := searchDevs P i cfg board
    if card = cardIdx then (1, found)
    else searchCards P cardIdx (card + 1) (found.1.next found.2.1) found.2.1 found.2.2
  else (0, i, cfg, board)
termination_by endSlot.index - i.slot.index
decreasing_by exact next_search_index P cfg _ board ‹_›

/-- `search_pci_serial_devs`; the `vd` of the first iterator is not initialised. -/
def searchPciSerialDevs (P : PcPlatform) (cfg : ConfigSpace) (vd : BitVec 32) (cardIdx : Nat)
    (board : SerialBoard) : Nat × PciIterator × ConfigSpace × SerialBoard :=
  searchCards P cardIdx 0 (.start vd) cfg board

/-- An announcement: `-comport=pci:<card>:<port>`, with the device. -/
structure Announcement where
  card : Nat
  port : Nat
  slot : Slot
  deriving DecidableEq, Repr

/-- The loop of `scan_pci_uarts`. -/
def scanCards (P : PcPlatform) (card : Nat) (i : PciIterator) (cfg : ConfigSpace)
    (board : SerialBoard) : List Announcement :=
  if i.slot ≠ endSlot then
    let found := searchDevs P i cfg board
    if found.1.slot = endSlot then []
    else (List.range found.2.2.numPorts).map (fun port => ⟨card, port, found.1.slot⟩) ++
      scanCards P (card + 1) (found.1.next found.2.1) found.2.1 found.2.2
  else []
termination_by endSlot.index - i.slot.index
decreasing_by exact next_search_index P cfg _ board ‹_›

def scanPciUarts (P : PcPlatform) (cfg : ConfigSpace) (vd : BitVec 32) (board : SerialBoard) :
    List Announcement :=
  scanCards P 0 (.start vd) cfg board

/-! ## The cards of a machine -/

/-- A device that some driver accepts, and the board behind its setup. -/
structure Card where
  dev : PciIterator
  driver : PciComDrv
  board : SerialBoard

/-- The cards among some functions, with one board for all. -/
def cards (P : PcPlatform) (cfg : ConfigSpace) : List PciIterator → SerialBoard → List Card
  | [], _ => []
  | dev :: rest, board =>
      match tryDevs P dev devs cfg board with
      | (some driver, _, board) => ⟨dev, driver, board⟩ :: cards P cfg rest board
      | (none, _, board) => cards P cfg rest board

/-- The board behind some functions. -/
def boardBehind (P : PcPlatform) (cfg : ConfigSpace) (front : List PciIterator)
    (board : SerialBoard) : SerialBoard :=
  front.foldl (fun board dev => (tryDevs P dev devs cfg board).2.2) board

/-- The cards that the loops find from an iterator on. -/
def cardsFrom (P : PcPlatform) (cfg : ConfigSpace) (i : PciIterator) (board : SerialBoard) :
    List Card :=
  cards P cfg (i.functions cfg) board

section

variable {P : PcPlatform} {cfg cur : ConfigSpace} {i dev : PciIterator} {board : SerialBoard}
  {front rest : List PciIterator}

theorem cards_from_end (isEnd : i.slot = endSlot) : cardsFrom P cfg i board = [] := by
  rw [cardsFrom, functions_end isEnd, cards]

theorem cards_cons_found {driver : PciComDrv}
    (found : (tryDevs P dev devs cfg board).1 = some driver) :
    cards P cfg (dev :: rest) board =
      ⟨dev, driver, (tryDevs P dev devs cfg board).2.2⟩ ::
        cards P cfg rest (tryDevs P dev devs cfg board).2.2 := by
  rw [cards]
  generalize tryDevs P dev devs cfg board = result at found
  obtain ⟨_, _, _⟩ := result
  cases found
  rfl

theorem cards_cons_none (notFound : (tryDevs P dev devs cfg board).1 = none) :
    cards P cfg (dev :: rest) board =
      cards P cfg rest (tryDevs P dev devs cfg board).2.2 := by
  rw [cards]
  generalize tryDevs P dev devs cfg board = result at notFound
  obtain ⟨_, _, _⟩ := result
  cases notFound
  rfl

/-- A search reaches the end when there are no cards, and else the first card. -/
structure FirstFound (P : PcPlatform) (cfg : ConfigSpace) (i : PciIterator) (board : SerialBoard)
    (found : PciIterator × ConfigSpace × SerialBoard) : Prop where
  sameFunctions : SameFunctions found.2.1 cfg
  outcome : (cardsFrom P cfg i board = [] ∧ found.1.slot = endSlot) ∨
    ∃ driver, cardsFrom P cfg i board =
        ⟨found.1, driver, found.2.2⟩ :: cardsFrom P cfg (found.1.next cfg) found.2.2 ∧
      found.1.slot ≠ endSlot

variable (P i board) in
theorem search_devs_spec (same : SameFunctions cur cfg) :
    FirstFound P cfg i board (searchDevs P i cur board) := by
  fun_induction searchDevs P i cur board with
  | case1 i cur board notEnd driver cur' board' found =>
      obtain ⟨sameDriver, sameBoard⟩ := try_devs_congr P i board same devs
      have kept := try_devs_same_functions P cur i board devs
      rw [found] at sameDriver sameBoard kept
      refine ⟨kept.trans same, .inr ⟨driver, ?_, notEnd⟩⟩
      rw [cardsFrom, functions_inside notEnd, cards_cons_found sameDriver.symm, ← sameBoard]
      rfl
  | case2 i cur board notEnd cur' board' notFound ih =>
      obtain ⟨sameDriver, sameBoard⟩ := try_devs_congr P i board same devs
      have kept := try_devs_same_functions P cur i board devs
      rw [notFound] at sameDriver sameBoard kept
      have later := ih (kept.trans same)
      have skipped : cardsFrom P cfg i board = cardsFrom P cfg (i.next cur') board' := by
        rw [cardsFrom, functions_inside notEnd, cards_cons_none sameDriver.symm, ← sameBoard,
          ← (kept.trans same).next]
        rfl
      obtain ⟨sameFunctions, outcome⟩ := later
      rw [← skipped] at outcome
      exact ⟨sameFunctions, outcome⟩
  | case3 i cur board isEnd =>
      exact ⟨same, .inl ⟨cards_from_end (not_not.mp isEnd), rfl⟩⟩

/-! ## The two loops -/

/-- The loop comes to a round for card `j`: there is a function behind the card before it. -/
def RoundStarts (cfg : ConfigSpace) (i : PciIterator) (found : List Card) : Nat → Prop
  | 0 => i.slot ≠ endSlot
  | j + 1 => ∃ card, found[j]? = some card ∧ (card.dev.next cfg).slot ≠ endSlot

/-- A round for a card that exists selects it. A round for one that does not returns 1 all the
same, with the end for a device. -/
inductive SearchEnds (cfg : ConfigSpace) (i : PciIterator) (found : List Card) (j : Nat) :
    Nat × PciIterator × ConfigSpace × SerialBoard → Prop
  | selected {card : Card} {after : ConfigSpace} (isCard : found[j]? = some card) :
      SearchEnds cfg i found j (1, card.dev, after, card.board)
  | noCard {dev : PciIterator} {after : ConfigSpace} {board : SerialBoard}
      (absent : found[j]? = none) (starts : RoundStarts cfg i found j) (isEnd : dev.slot = endSlot) :
      SearchEnds cfg i found j (1, dev, after, board)
  | noRound {dev : PciIterator} {after : ConfigSpace} {board : SerialBoard}
      (absent : found[j]? = none) (ends : ¬RoundStarts cfg i found j) :
      SearchEnds cfg i found j (0, dev, after, board)

theorem search_cards_end {cardIdx card : Nat} (isEnd : i.slot = endSlot) :
    searchCards P cardIdx card i cur board = (0, i, cur, board) := by
  rw [searchCards, if_neg (not_not.mpr isEnd)]

theorem no_round_end (isEnd : i.slot = endSlot) (j : Nat) : ¬RoundStarts cfg i [] j := by
  cases j with
  | zero => exact not_not.mpr isEnd
  | succ j =>
      rintro ⟨card, isCard, _⟩
      cases isCard

/-- Behind a card the rounds go on with the next function. -/
theorem SearchEnds.later {card : Card} {found : List Card} {j : Nat}
    {result : Nat × PciIterator × ConfigSpace × SerialBoard}
    (ends : SearchEnds cfg (card.dev.next cfg) found j result) :
    SearchEnds cfg i (card :: found) (j + 1) result := by
  have sameRound : RoundStarts cfg i (card :: found) (j + 1) ↔
      RoundStarts cfg (card.dev.next cfg) found j := by
    cases j with
    | zero =>
        constructor
        · rintro ⟨_, isCard, notEnd⟩
          cases isCard
          exact notEnd
        · intro notEnd
          exact ⟨card, rfl, notEnd⟩
    | succ j => exact Iff.rfl
  cases ends with
  | selected isCard => exact .selected isCard
  | noCard absent starts isEnd => exact .noCard absent (sameRound.mpr starts) isEnd
  | noRound absent ends => exact .noRound absent (mt sameRound.mp ends)

theorem search_cards_spec (same : SameFunctions cur cfg) (card j : Nat) :
    SearchEnds cfg i (cardsFrom P cfg i board) j (searchCards P (card + j) card i cur board) := by
  induction j generalizing i cur board card with
  | zero =>
      by_cases isEnd : i.slot = endSlot
      · rw [search_cards_end isEnd, cards_from_end isEnd]
        exact .noRound rfl (no_round_end isEnd 0)
      · rw [searchCards, if_pos isEnd]
        dsimp only
        rw [Nat.add_zero, if_pos rfl]
        obtain ⟨_, ⟨noCards, atEnd⟩ | ⟨driver, isFirst, _⟩⟩ :=
          search_devs_spec P i board same
        · rw [noCards]
          exact .noCard rfl isEnd atEnd
        · have isCard : (cardsFrom P cfg i board)[0]? =
              some ⟨(searchDevs P i cur board).1, driver, (searchDevs P i cur board).2.2⟩ := by
            rw [isFirst]
            rfl
          exact .selected isCard
  | succ j ih =>
      by_cases isEnd : i.slot = endSlot
      · rw [search_cards_end isEnd, cards_from_end isEnd]
        exact .noRound rfl (no_round_end isEnd _)
      · have nextCard : card + (j + 1) = card + 1 + j := by omega
        rw [searchCards, if_pos isEnd]
        dsimp only
        rw [if_neg (by omega), nextCard]
        obtain ⟨kept, ⟨noCards, atEnd⟩ | ⟨driver, isFirst, _⟩⟩ :=
          search_devs_spec P i board same
        · have nextEnd : ((searchDevs P i cur board).1.next (searchDevs P i cur board).2.1).slot =
              endSlot := next_end atEnd
          rw [search_cards_end nextEnd, noCards]
          refine .noRound rfl ?_
          rintro ⟨_, isCard, _⟩
          cases isCard
        · rw [isFirst, kept.next]
          exact (ih kept (card + 1)).later

/-- The announcement is for a port of the card with its number. -/
def IsAnnounced (card : Nat) (found : List Card) (entry : Announcement) : Prop :=
  ∃ j c, entry.card = card + j ∧ found[j]? = some c ∧ entry.port < c.board.numPorts ∧
    entry.slot = c.dev.slot

theorem is_announced_cons {card : Nat} {first : Card} {found : List Card} {entry : Announcement} :
    IsAnnounced card (first :: found) entry ↔
      (entry.card = card ∧ entry.port < first.board.numPorts ∧ entry.slot = first.dev.slot) ∨
        IsAnnounced (card + 1) found entry := by
  constructor
  · rintro ⟨j, c, isNumber, isCard, isPort, isDevice⟩
    cases j with
    | zero =>
        cases isCard
        exact .inl ⟨isNumber, isPort, isDevice⟩
    | succ j => exact .inr ⟨j, c, by omega, isCard, isPort, isDevice⟩
  · rintro (⟨isNumber, isPort, isDevice⟩ | ⟨j, c, isNumber, isCard, isPort, isDevice⟩)
    · exact ⟨0, first, isNumber, rfl, isPort, isDevice⟩
    · exact ⟨j + 1, c, by omega, isCard, isPort, isDevice⟩

theorem not_announced_nil {card : Nat} {entry : Announcement} : ¬IsAnnounced card [] entry := by
  rintro ⟨j, c, _, isCard, _⟩
  cases isCard

theorem mem_ports {n card : Nat} {slot : Slot} {entry : Announcement} :
    entry ∈ (List.range n).map (fun port => ⟨card, port, slot⟩) ↔
      entry.card = card ∧ entry.port < n ∧ entry.slot = slot := by
  obtain ⟨number, port, device⟩ := entry
  simp only [List.mem_map, List.mem_range, Announcement.mk.injEq]
  constructor
  · rintro ⟨p, isPort, rfl, rfl, rfl⟩
    exact ⟨rfl, isPort, rfl⟩
  · rintro ⟨rfl, isPort, rfl⟩
    exact ⟨port, isPort, rfl, rfl, rfl⟩

theorem mem_scan_cards (same : SameFunctions cur cfg) (card : Nat) (entry : Announcement) :
    entry ∈ scanCards P card i cur board ↔
      IsAnnounced card (cardsFrom P cfg i board) entry := by
  fun_induction scanCards P card i cur board with
  | case1 card i cur board notEnd found atEnd =>
      obtain ⟨_, ⟨noCards, _⟩ | ⟨_, _, inside⟩⟩ := search_devs_spec P i board same
      · rw [noCards]
        exact iff_of_false List.not_mem_nil not_announced_nil
      · exact absurd atEnd inside
  | case2 card i cur board notEnd found inside ih =>
      obtain ⟨kept, ⟨_, atEnd⟩ | ⟨driver, isFirst, _⟩⟩ := search_devs_spec P i board same
      · exact absurd atEnd inside
      · rw [isFirst, is_announced_cons, List.mem_append, mem_ports, ih kept, kept.next]
  | case3 card i cur board isEnd =>
      rw [cards_from_end (not_not.mp isEnd)]
      exact iff_of_false List.not_mem_nil not_announced_nil

/-! ## The board -/

/-- A card stands behind a front of functions that holds the cards before it. -/
theorem cards_split {fs : List PciIterator} {k : Nat} {card : Card}
    (isCard : (cards P cfg fs board)[k]? = some card) :
    ∃ front back, fs = front ++ card.dev :: back ∧
      cards P cfg front board = (cards P cfg fs board).take k ∧
      (tryDevs P card.dev devs cfg (boardBehind P cfg front board)).1 = some card.driver ∧
      (tryDevs P card.dev devs cfg (boardBehind P cfg front board)).2.2 = card.board := by
  induction fs generalizing board k with
  | nil => cases isCard
  | cons dev rest ih =>
      cases found : (tryDevs P dev devs cfg board).1 with
      | none =>
          rw [cards_cons_none found] at isCard ⊢
          obtain ⟨front, back, isRest, earlier, isDriver, isBoard⟩ := ih isCard
          refine ⟨dev :: front, back, congrArg (dev :: ·) isRest, ?_, isDriver, isBoard⟩
          rw [cards_cons_none found, earlier]
      | some driver =>
          rw [cards_cons_found found] at isCard ⊢
          cases k with
          | zero =>
              cases isCard
              exact ⟨[], rest, rfl, rfl, found, rfl⟩
          | succ k =>
              obtain ⟨front, back, isRest, earlier, isDriver, isBoard⟩ := ih isCard
              refine ⟨dev :: front, back, congrArg (dev :: ·) isRest, ?_, isDriver, isBoard⟩
              rw [cards_cons_found found, earlier, List.take_succ_cons]

/-- The offset that cards leave in a board. -/
def offsetLeft (found : List Card) (offset : Nat) : Nat :=
  found.foldl (fun offset card => card.driver.ownOffset.getD offset) offset

/-- What the devices in front leave of a board: the bars of registers that no probed device has
are what they were, the others are there. -/
structure LeftBehind (P : PcPlatform) (cfg : ConfigSpace) (front : List PciIterator)
    (board after : SerialBoard) : Prop where
  shift : board.regShift = 0 → after.regShift = 0
  offset : after.baseOffset = offsetLeft (cards P cfg front board) board.baseOffset
  kept : ∀ bar, (∀ dev ∈ front, Probed cfg dev devs → (barRegister cfg dev.slot bar).value = 0) →
    after.bars bar = board.bars bar
  filled : ∀ bar, (board.bars bar).type ≠ .noBar ∨ (∃ dev ∈ front, Probed cfg dev devs ∧
    (barRegister cfg dev.slot bar).value ≠ 0) → (after.bars bar).type ≠ .noBar

theorem decode_bar_type (W : MachineWord.Wordsize) (r : Register) (before : Resource) :
    (decodeBar W r before).type ≠ .noBar ↔ before.type ≠ .noBar ∨ r.value ≠ 0 := by
  unfold decodeBar
  split_ifs with zero
  · simp [zero]
  · exact iff_of_true (fun same => by cases same) (.inr zero)
  · exact iff_of_true (fun same => by cases same) (.inr zero)

theorem decode_bar_zero {W : MachineWord.Wordsize} {r : Register} (before : Resource)
    (zero : r.value = 0) : decodeBar W r before = before := if_pos zero

variable (P cfg) in
theorem cards_append (front rest : List PciIterator) (board : SerialBoard) :
    cards P cfg (front ++ rest) board =
      cards P cfg front board ++ cards P cfg rest (boardBehind P cfg front board) := by
  induction front generalizing board with
  | nil => rfl
  | cons dev front ih =>
      cases found : (tryDevs P dev devs cfg board).1 with
      | none =>
          rw [List.cons_append, cards_cons_none found, cards_cons_none found, ih]
          rfl
      | some driver =>
          rw [List.cons_append, cards_cons_found found, cards_cons_found found, ih]
          rfl

variable (P cfg) in
theorem offset_left_one (dev : PciIterator) (board : SerialBoard) (offset : Nat) :
    offsetLeft (cards P cfg [dev] board) offset =
      ((tryDevs P dev devs cfg board).1.bind (·.ownOffset)).getD offset := by
  cases found : (tryDevs P dev devs cfg board).1 with
  | none =>
      rw [cards_cons_none found]
      rfl
  | some driver =>
      rw [cards_cons_found found]
      rfl

/-- A device whose registers are decoded. -/
theorem left_behind_decoded {after : SerialBoard} (probed : Probed cfg dev devs)
    (bars : after.bars = (board.decoded P cfg dev).bars)
    (shift : board.regShift = 0 → after.regShift = 0)
    (offset : after.baseOffset = offsetLeft (cards P cfg [dev] board) board.baseOffset) :
    LeftBehind P cfg [dev] board after := by
  refine ⟨shift, offset, fun bar zero => ?_, fun bar there => ?_⟩
  · rw [bars]
    exact decode_bar_zero _ (zero dev List.mem_cons_self probed)
  · rw [bars]
    apply (decode_bar_type _ _ _).mpr
    rcases there with before | ⟨other, member, _, isBar⟩
    · exact .inl before
    · rw [List.mem_singleton.mp member] at isBar
      exact .inr isBar

variable (P cfg) in
/-- One device. -/
theorem left_behind_one (dev : PciIterator) (board : SerialBoard) :
    LeftBehind P cfg [dev] board (tryDevs P dev devs cfg board).2.2 := by
  have outcome := try_devs_spec P cfg dev board devs
  have offset := offset_left_one P cfg dev board board.baseOffset
  generalize tryDevs P dev devs cfg board = result at outcome offset ⊢
  cases outcome with
  | served driver probed same =>
      have shift : board.regShift = 0 → (board.decoded P cfg dev).regShift = 0 := id
      apply left_behind_decoded probed (configure_bars _) fun noShift =>
        configure_shift (shift noShift) _
      rw [offset]
      exact configure_offset _ _ _ _
  | rejected noDriver probed bars sameOffset sameShift =>
      apply left_behind_decoded probed bars fun noShift => sameShift.trans noShift
      rw [offset]
      exact sameOffset
  | untouched noDriver notProbed =>
      refine ⟨id, offset.symm, fun _ _ => rfl, fun bar there => ?_⟩
      rcases there with before | ⟨other, member, probed, _⟩
      · exact before
      · rw [List.mem_singleton.mp member] at probed
        exact absurd probed notProbed

variable (P cfg) in
theorem left_behind (front : List PciIterator) (board : SerialBoard) :
    LeftBehind P cfg front board (boardBehind P cfg front board) := by
  induction front generalizing board with
  | nil =>
      refine ⟨id, rfl, fun _ _ => rfl, fun bar there => ?_⟩
      rcases there with before | ⟨other, member, _⟩
      · exact before
      · cases member
  | cons dev front ih =>
      have first := left_behind_one P cfg dev board
      have later := ih (tryDevs P dev devs cfg board).2.2
      refine ⟨fun noShift => later.shift (first.shift noShift), ?_, fun bar zero => ?_,
        fun bar there => ?_⟩
      · have split := cards_append P cfg [dev] front board
        have behindFirst : boardBehind P cfg [dev] board = (tryDevs P dev devs cfg board).2.2 := rfl
        rw [List.singleton_append, behindFirst] at split
        rw [split, offsetLeft, List.foldl_append]
        exact later.offset.trans (congrArg _ first.offset)
      · have behind := later.kept bar fun other member => zero other (List.mem_cons_of_mem _ member)
        apply behind.trans
        apply first.kept bar
        intro other member
        rw [List.mem_singleton.mp member]
        exact zero dev List.mem_cons_self
      · apply later.filled bar
        rcases there with before | ⟨other, member, probed, isBar⟩
        · exact .inl (first.filled bar (.inl before))
        · rcases List.mem_cons.mp member with rfl | inFront
          · exact .inl (first.filled bar (.inr ⟨other, List.mem_cons_self, probed, isBar⟩))
          · exact .inr ⟨other, inFront, probed, isBar⟩

/-! ## The board of a card -/

variable (P cfg) in
theorem try_devs_driver (dev : PciIterator) (board : SerialBoard) :
    (tryDevs P dev devs cfg board).1 = servedBy P cfg dev board devs := by
  have outcome := try_devs_spec P cfg dev board devs
  generalize tryDevs P dev devs cfg board = result at outcome
  cases outcome with
  | served driver => exact driver.symm
  | rejected noDriver => exact noDriver.symm
  | untouched noDriver => exact noDriver.symm

theorem try_devs_configured {driver : PciComDrv}
    (found : (tryDevs P dev devs cfg board).1 = some driver) :
    (tryDevs P dev devs cfg board).2.2 = driver.configure P dev (board.decoded P cfg dev) := by
  have outcome := try_devs_spec P cfg dev board devs
  generalize tryDevs P dev devs cfg board = result at outcome found
  cases outcome with
  | served =>
      cases found
      rfl
  | rejected => cases found
  | untouched => cases found

/-- The device is accepted on a fresh board, with this board behind it. -/
def SetUpFresh (P : PcPlatform) (cfg : ConfigSpace) (dev : PciIterator)
    (left : Fin numBars → Nat × Nat) (board : SerialBoard) : Prop :=
  ∃ driver, (tryDevs P dev devs cfg (.fresh left)).1 = some driver ∧
    (tryDevs P dev devs cfg (.fresh left)).2.2 = board

/-- A register that the device does not have is one that no probed device in front has. -/
def NoStaleBars (cfg : ConfigSpace) (front : List PciIterator) (dev : PciIterator) : Prop :=
  ∀ bar, (barRegister cfg dev.slot bar).value = 0 →
    ∀ other ∈ front, Probed cfg other devs → (barRegister cfg other.slot bar).value = 0

theorem set_up_fresh_iff {left : Fin numBars → Nat × Nat} {driver : PciComDrv}
    {after : SerialBoard}
    (found : (tryDevs P dev devs cfg (boardBehind P cfg front (.fresh left))).1 = some driver)
    (isBoard : (tryDevs P dev devs cfg (boardBehind P cfg front (.fresh left))).2.2 = after) :
    SetUpFresh P cfg dev left after ↔ NoStaleBars cfg front dev ∧
      (driver.ownOffset = none → offsetLeft (cards P cfg front (.fresh left)) 0 = 0) := by
  have behind := left_behind P cfg front (.fresh left)
  have configured := try_devs_configured found
  have noShift : (boardBehind P cfg front (.fresh left)).regShift = 0 := behind.shift rfl
  rw [isBoard] at configured
  constructor
  · rintro ⟨freshDriver, freshFound, freshBoard⟩
    have freshConfigured := try_devs_configured freshFound
    rw [freshBoard] at freshConfigured
    have sameBars : ((boardBehind P cfg front (.fresh left)).decoded P cfg dev).bars =
        ((SerialBoard.fresh left).decoded P cfg dev).bars := by
      rw [← configure_bars (P := P) driver, ← configured, freshConfigured, configure_bars]
    have sameDriver : freshDriver = driver := by
      apply Option.some_inj.mp
      rw [← freshFound, ← found, try_devs_driver, try_devs_driver, served_by_congr devs sameBars]
    refine ⟨fun bar zero other member probed => ?_, fun noOwn => ?_⟩
    · by_contra isBar
      have there := behind.filled bar (.inr ⟨other, member, probed, isBar⟩)
      have same := congrFun sameBars bar
      change decodeBar _ _ _ = decodeBar _ _ _ at same
      rw [decode_bar_zero _ zero, decode_bar_zero _ zero] at same
      rw [same] at there
      exact there rfl
    · have offset := configure_offset P dev
        ((boardBehind P cfg front (.fresh left)).decoded P cfg dev) driver
      have freshOffset := configure_offset P dev ((SerialBoard.fresh left).decoded P cfg dev) driver
      rw [noOwn, Option.getD_none, ← configured] at offset
      rw [noOwn, Option.getD_none, ← sameDriver, ← freshConfigured] at freshOffset
      exact behind.offset.symm.trans (offset.symm.trans freshOffset)
  · rintro ⟨noStale, noOffset⟩
    have sameBars : ((boardBehind P cfg front (.fresh left)).decoded P cfg dev).bars =
        ((SerialBoard.fresh left).decoded P cfg dev).bars := by
      funext bar
      change decodeBar _ _ _ = decodeBar _ _ _
      by_cases zero : (barRegister cfg dev.slot bar).value = 0
      · rw [behind.kept bar (noStale bar zero)]
      · rw [decodeBar, decodeBar, if_neg zero, if_neg zero]
    have freshFound : (tryDevs P dev devs cfg (.fresh left)).1 = some driver := by
      rw [← found, try_devs_driver, try_devs_driver, served_by_congr devs sameBars]
    refine ⟨driver, freshFound, ?_⟩
    rw [try_devs_configured freshFound, configured]
    exact (configure_congr sameBars noShift
      fun noOwn => behind.offset.trans (noOffset noOwn)).symm

/-! ## Numbers -/

/-- The device of an announcement with the number. -/
def numbered (found : List Card) (k : Nat) : Option Slot :=
  found[k]?.bind fun card => if card.board.numPorts = 0 then none else some card.dev.slot

theorem numbered_some {found : List Card} {k : Nat} {slot : Slot} :
    numbered found k = some slot ↔
      ∃ card, found[k]? = some card ∧ card.board.numPorts ≠ 0 ∧ slot = card.dev.slot := by
  rw [numbered, Option.bind_eq_some_iff]
  apply exists_congr
  intro card
  apply and_congr_right
  intro isCard
  split_ifs with noPorts
  · exact iff_of_false (fun same => by cases same) (fun ports => ports.1 noPorts)
  · rw [Option.some_inj, eq_comm]
    exact (and_iff_right noPorts).symm

variable (P cfg board) in
theorem announced_iff_numbered (vd : BitVec 32) (k : Nat) (slot : Slot) :
    (∃ port, ⟨k, port, slot⟩ ∈ scanPciUarts P cfg vd board) ↔
      numbered (cardsFrom P cfg (.start vd) board) k = some slot := by
  rw [numbered_some]
  constructor
  · rintro ⟨port, member⟩
    obtain ⟨j, card, isNumber, isCard, isPort, isDevice⟩ :=
      (mem_scan_cards (.refl cfg) 0 _).mp member
    have same : k = j := isNumber.trans (Nat.zero_add j)
    subst same
    exact ⟨card, isCard, Nat.ne_zero_of_lt isPort, isDevice⟩
  · rintro ⟨card, isCard, ports, isDevice⟩
    refine ⟨0, (mem_scan_cards (.refl cfg) 0 _).mpr ⟨k, card, (Nat.zero_add k).symm, isCard, ?_,
      isDevice⟩⟩
    exact Nat.pos_of_ne_zero ports

/-- `search_pci_serial_devs` agrees with `scan_pci_uarts` on card `k` of a machine. The two
iterators start with the uninitialised words `vd` and `scanVd`, the boards with `left` and
`scanLeft` in their bars. -/
structure CardsAgree (P : PcPlatform) (cfg : ConfigSpace) (vd scanVd : BitVec 32)
    (left scanLeft : Fin numBars → Nat × Nat) (k : Nat) : Prop where
  returns : (searchPciSerialDevs P cfg vd k (.fresh left)).1 = 1 ↔
    ∃ port slot, ⟨k, port, slot⟩ ∈ scanPciUarts P cfg scanVd (.fresh scanLeft)
  sameDevice : (searchPciSerialDevs P cfg vd k (.fresh left)).1 = 1 →
    ∀ port slot, ⟨k, port, slot⟩ ∈ scanPciUarts P cfg scanVd (.fresh scanLeft) →
      slot = (searchPciSerialDevs P cfg vd k (.fresh left)).2.1.slot
  board : (searchPciSerialDevs P cfg vd k (.fresh left)).1 = 1 →
    SetUpFresh P cfg (searchPciSerialDevs P cfg vd k (.fresh left)).2.1 left
      (searchPciSerialDevs P cfg vd k (.fresh left)).2.2.2
  otherwise : (searchPciSerialDevs P cfg vd k (.fresh left)).1 ≠ 1 →
    (searchPciSerialDevs P cfg vd k (.fresh left)).1 = 0

/-- No device in front of the card has left a bar or an offset that the card does not set. -/
def NothingStale (cfg : ConfigSpace) (functions : List PciIterator) (earlier : List Card)
    (card : Card) : Prop :=
  NoStaleBars cfg (functions.filter fun dev => dev.slot.index < card.dev.slot.index) card.dev ∧
    (card.driver.ownOffset = none → offsetLeft earlier 0 = 0)

theorem filter_front {fs front back : List PciIterator}
    (sorted : fs.Pairwise fun a b => a.slot.index < b.slot.index)
    (split : fs = front ++ dev :: back) :
    fs.filter (fun other => other.slot.index < dev.slot.index) = front := by
  subst split
  obtain ⟨_, rest, frontBefore⟩ := List.pairwise_append.mp sorted
  obtain ⟨behind, _⟩ := List.pairwise_cons.mp rest
  have none : (dev :: back).filter (fun other => other.slot.index < dev.slot.index) = [] := by
    apply List.filter_eq_nil_iff.mpr
    intro other member
    rw [decide_eq_true_iff]
    rcases List.mem_cons.mp member with rfl | inBack
    · exact lt_irrefl _
    · exact Nat.lt_asymm (behind other inBack)
  rw [List.filter_append, none, List.append_nil, List.filter_eq_self]
  intro other member
  exact decide_eq_true (frontBefore other member dev List.mem_cons_self)

/-- The board of a card is that of a fresh setup exactly if nothing stale is in it. -/
theorem card_set_up_fresh_iff {left : Fin numBars → Nat × Nat} {k : Nat} {card : Card}
    (isCard : (cardsFrom P cfg i (.fresh left))[k]? = some card) :
    SetUpFresh P cfg card.dev left card.board ↔
      NothingStale cfg (i.functions cfg) ((cardsFrom P cfg i (.fresh left)).take k) card := by
  obtain ⟨front, back, split, earlier, found, isBoard⟩ := cards_split isCard
  have isFront := filter_front (functions_sorted cfg i).1 split
  rw [set_up_fresh_iff found isBoard, NothingStale, isFront, earlier]
  rfl

theorem card_not_end {k : Nat} {card : Card}
    (isCard : (cardsFrom P cfg i board)[k]? = some card) : card.dev.slot ≠ endSlot := by
  obtain ⟨front, back, split, _⟩ := cards_split isCard
  apply ((functions_sorted cfg i).2 card.dev _).2
  rw [split]
  exact List.mem_append_right _ List.mem_cons_self

theorem numbered_not_end {k : Nat} {slot : Slot}
    (isNumbered : numbered (cardsFrom P cfg i board) k = some slot) : slot ≠ endSlot := by
  obtain ⟨card, isCard, _, isDevice⟩ := numbered_some.mp isNumbered
  rw [isDevice]
  exact card_not_end isCard

theorem cards_agree_numbered {vd scanVd : BitVec 32} {left scanLeft : Fin numBars → Nat × Nat}
    {k : Nat} {result : Nat × PciIterator × ConfigSpace × SerialBoard}
    (searched : searchPciSerialDevs P cfg vd k (.fresh left) = result) :
    CardsAgree P cfg vd scanVd left scanLeft k ↔
      (result.1 = 1 ↔
        ∃ slot, numbered (cardsFrom P cfg (.start scanVd) (.fresh scanLeft)) k = some slot) ∧
      (result.1 = 1 → ∀ slot,
        numbered (cardsFrom P cfg (.start scanVd) (.fresh scanLeft)) k = some slot →
        slot = result.2.1.slot) ∧
      (result.1 = 1 → SetUpFresh P cfg result.2.1 left result.2.2.2) ∧
      (result.1 ≠ 1 → result.1 = 0) := by
  have announced := announced_iff_numbered P cfg (.fresh scanLeft) scanVd k
  subst searched
  constructor
  · rintro ⟨returns, sameDevice, board, otherwise⟩
    refine ⟨returns.trans ?_, fun isOne slot isNumbered => ?_, board, otherwise⟩
    · rw [exists_comm]
      exact exists_congr announced
    · obtain ⟨port, member⟩ := (announced slot).mpr isNumbered
      exact sameDevice isOne port slot member
  · rintro ⟨returns, sameDevice, board, otherwise⟩
    refine ⟨returns.trans ?_, fun isOne port slot member => ?_, board, otherwise⟩
    · rw [exists_comm]
      exact exists_congr fun slot => (announced slot).symm
    · exact sameDevice isOne slot ((announced slot).mp ⟨port, member⟩)

/-- The two functions agree on card `k` exactly if: the number is announced for the device that
the search has as card `k`, and for none if it has no such card; nothing stale is left in the
board of the card; and without a card there is no function behind the card before. -/
theorem cards_agree_iff (P : PcPlatform) (cfg : ConfigSpace)
    (vd scanVd : BitVec 32) (left scanLeft : Fin numBars → Nat × Nat) (k : Nat) :
    let found := cardsFrom P cfg (.start vd) (.fresh left)
    CardsAgree P cfg vd scanVd left scanLeft k ↔
      numbered (cardsFrom P cfg (.start scanVd) (.fresh scanLeft)) k =
        found[k]?.map (fun card => card.dev.slot) ∧
      (∀ card, found[k]? = some card →
        NothingStale cfg ((start vd).functions cfg) (found.take k) card) ∧
      (found[k]? = none → ¬RoundStarts cfg (.start vd) found k) := by
  intro found
  have ends : SearchEnds cfg (.start vd) found k (searchCards P (0 + k) 0 (.start vd) cfg
      (.fresh left)) := search_cards_spec (.refl cfg) 0 k
  have isScanned : ∀ slot, numbered (cardsFrom P cfg (.start scanVd) (.fresh scanLeft)) k =
      some slot → slot ≠ endSlot := fun _ => numbered_not_end
  rw [Nat.zero_add] at ends
  generalize isResult : searchCards P k 0 (start vd) cfg (.fresh left) = result at ends
  rw [cards_agree_numbered isResult]
  generalize numbered (cardsFrom P cfg (.start scanVd) (.fresh scanLeft)) k = announced at *
  cases ends with
  | @selected card after isCard =>
      rw [isCard, Option.map_some]
      have fresh := card_set_up_fresh_iff isCard
      constructor
      · rintro ⟨returns, sameDevice, board, _⟩
        obtain ⟨slot, isNumbered⟩ := returns.mp rfl
        refine ⟨?_, fun other same => ?_, fun absent => by cases absent⟩
        · rw [isNumbered, sameDevice rfl slot isNumbered]
        · cases same
          exact fresh.mp (board rfl)
      · rintro ⟨isNumbered, noneStale, _⟩
        refine ⟨iff_of_true rfl ⟨_, isNumbered⟩, fun _ slot same => ?_, fun _ => ?_,
          fun notOne => absurd rfl notOne⟩
        · exact Option.some_inj.mp (same.symm.trans isNumbered)
        · exact fresh.mpr (noneStale card rfl)
  | @noCard dev after board absent starts isEnd =>
      rw [absent]
      constructor
      · rintro ⟨returns, sameDevice, _, _⟩
        obtain ⟨slot, isNumbered⟩ := returns.mp rfl
        exact absurd ((sameDevice rfl slot isNumbered).trans isEnd) (isScanned slot isNumbered)
      · rintro ⟨_, _, noRound⟩
        exact absurd starts (noRound rfl)
  | @noRound dev after board absent ends =>
      have notOne : (0 : Nat) ≠ 1 := by decide
      rw [absent]
      constructor
      · rintro ⟨returns, _⟩
        refine ⟨?_, fun card isCard => absurd isCard (Option.some_ne_none card).symm, fun _ => ends⟩
        apply Option.eq_none_iff_forall_ne_some.mpr
        intro slot isNumbered
        exact absurd (returns.mpr ⟨slot, isNumbered⟩) notOne
      · rintro ⟨isNone, _, _⟩
        refine ⟨iff_of_false notOne ?_, fun isOne => absurd isOne notOne,
          fun isOne => absurd isOne notOne, fun _ => rfl⟩
        rintro ⟨slot, isNumbered⟩
        rw [isNone] at isNumbered
        cases isNumbered

/-! ## The same word in both iterators -/

/-- Cards found on boards that differ in unset bars only. -/
def SameCard (first second : Card) : Prop :=
  first.dev = second.dev ∧ first.driver = second.driver ∧
    first.board.numPorts = second.board.numPorts

theorem cards_same_board (fs : List PciIterator) {first second : SerialBoard}
    (same : SameBoard first second) :
    List.Forall₂ SameCard (cards P cfg fs first) (cards P cfg fs second) := by
  induction fs generalizing first second with
  | nil => exact .nil
  | cons dev rest ih =>
      obtain ⟨sameDriver, sameBoard⟩ := try_devs_same_board P cfg dev same devs
      cases found : (tryDevs P dev devs cfg first).1 with
      | none =>
          rw [cards_cons_none found, cards_cons_none (sameDriver.symm.trans found)]
          exact ih sameBoard
      | some driver =>
          rw [cards_cons_found found, cards_cons_found (sameDriver.symm.trans found)]
          exact .cons ⟨rfl, rfl, sameBoard.numPorts⟩ (ih sameBoard)

theorem same_card_at {first second : List Card} (same : List.Forall₂ SameCard first second)
    (k : Nat) : (first[k]? = none ∧ second[k]? = none) ∨
      ∃ one two, first[k]? = some one ∧ second[k]? = some two ∧ SameCard one two := by
  induction same generalizing k with
  | nil => exact .inl ⟨rfl, rfl⟩
  | cons sameHead _ ih =>
      cases k with
      | zero => exact .inr ⟨_, _, rfl, rfl, sameHead⟩
      | succ k => exact ih k

/-- When both iterators start with the same word, all cards have the same numbers, and a number is
missing in the announcements exactly for a card without ports. -/
theorem numbered_same_vd (vd : BitVec 32) (left scanLeft : Fin numBars → Nat × Nat) (k : Nat) :
    let found := cardsFrom P cfg (.start vd) (.fresh left)
    numbered (cardsFrom P cfg (.start vd) (.fresh scanLeft)) k =
        found[k]?.map (fun card => card.dev.slot) ↔
      ∀ card, found[k]? = some card → card.board.numPorts ≠ 0 := by
  intro found
  have same : List.Forall₂ SameCard found (cardsFrom P cfg (.start vd) (.fresh scanLeft)) :=
    cards_same_board _ (same_board_fresh left scanLeft)
  rcases same_card_at same k with ⟨absent, scanAbsent⟩ | ⟨card, scanCard, isCard, isScan, sameCard⟩
  · rw [numbered, scanAbsent, absent]
    exact iff_of_true rfl fun card isCard => absurd isCard (Option.some_ne_none card).symm
  · obtain ⟨sameDev, _, samePorts⟩ := sameCard
    rw [isCard, Option.map_some, numbered_some, isScan]
    constructor
    · rintro ⟨other, isOther, ports, _⟩ _ isSame
      cases isOther
      cases isSame
      rw [samePorts]
      exact ports
    · intro ports
      refine ⟨scanCard, rfl, ?_, by rw [sameDev]⟩
      rw [← samePorts]
      exact ports card rfl

/-- The exact condition for any words in the iterators, and for the same word in both: card `k`
has a port, nothing stale is left in its board, and without a card there is no function behind
the card before. -/
theorem search_pci_serial_devs_agrees_iff (P : PcPlatform) (cfg : ConfigSpace)
    (vd scanVd : BitVec 32) (left scanLeft : Fin numBars → Nat × Nat) (k : Nat) :
    let found := cardsFrom P cfg (.start vd) (.fresh left)
    let NoneStale := ∀ card, found[k]? = some card →
      NothingStale cfg ((start vd).functions cfg) (found.take k) card
    let NoRound := found[k]? = none → ¬RoundStarts cfg (.start vd) found k
    (CardsAgree P cfg vd scanVd left scanLeft k ↔
      numbered (cardsFrom P cfg (.start scanVd) (.fresh scanLeft)) k =
        found[k]?.map (fun card => card.dev.slot) ∧ NoneStale ∧ NoRound) ∧
    (scanVd = vd →
      (CardsAgree P cfg vd scanVd left scanLeft k ↔
        (∀ card, found[k]? = some card → card.board.numPorts ≠ 0) ∧ NoneStale ∧ NoRound)) := by
  intro found NoneStale NoRound
  refine ⟨cards_agree_iff P cfg vd scanVd left scanLeft k, ?_⟩
  intro sameVd
  rw [sameVd]
  have exactly := cards_agree_iff P cfg vd vd left scanLeft k
  exact exactly.trans (and_congr (numbered_same_vd vd left scanLeft k) Iff.rfl)

end

/-! ## A machine without cards -/

/-- A host bridge and nothing else. -/
def hostBridge : ConfigSpace := fun slot reg =>
  if slot = ⟨0, 0, 0⟩ then
    ⟨0, if reg = 0 then 0x12378086 else if reg = 8 then 0x06000000 else 0⟩
  else ⟨0, BitVec.allOnes 32⟩

def noLeft : Fin numBars → Nat × Nat := fun _ => (0, 0)

def pc64 : PcPlatform := ⟨.w64, 115200⟩

theorem host_bridge_functions : (start 0).functions hostBridge = [start 0] := by
  have inside : (start 0).slot ≠ endSlot := by decide
  have nextEnd : ((start 0).next hostBridge).slot = endSlot := by
    apply next_of_absent
    intro slot inRange behind notEnd
    have notFirst : slot.onBus ≠ ⟨0, 0, 0⟩ := by
      rcases inRange with ⟨smallBus, _, _⟩ | isEnd
      · have sameSlot : slot.onBus = slot := by
          cases slot
          exact congrArg (fun bus => Slot.mk bus _ _) (Nat.mod_eq_of_lt smallBus)
        rw [sameSlot]
        rintro rfl
        exact absurd behind (by decide)
      · exact absurd isEnd notEnd
    rw [pci_read_word rfl, hostBridge, if_neg notFirst]
  rw [functions_inside inside, functions_end nextEnd]

theorem host_bridge_cards (board : SerialBoard) :
    cardsFrom pc64 hostBridge (start 0) board = [] := by
  have noDriver : ∀ d ∈ devs, ¬(d.Matches (start 0) ∧ d.driver.Takes hostBridge (start 0)) := by
    decide
  have notProbed : ¬Probed hostBridge (start 0) devs := fun ⟨d, member, probed⟩ =>
    noDriver d member probed
  have outcome := try_devs_spec pc64 hostBridge (start 0) board devs
  have notFound : (tryDevs pc64 (start 0) devs hostBridge board).1 = none := by
    generalize tryDevs pc64 (start 0) devs hostBridge board = result at outcome
    cases outcome with
    | served _ probed => exact absurd probed notProbed
    | rejected => rfl
    | untouched => rfl
  rw [cardsFrom, host_bridge_functions, cards_cons_none notFound, cards]

/-- Without any card the search for card 0 returns 1. -/
theorem search_pci_serial_devs_no_card :
    (searchPciSerialDevs pc64 hostBridge 0 0 (.fresh noLeft)).1 = 1 ∧
      scanPciUarts pc64 hostBridge 0 (.fresh noLeft) = [] ∧
      ¬CardsAgree pc64 hostBridge 0 0 noLeft noLeft 0 := by
  have ends : SearchEnds hostBridge (start 0) [] 0
      (searchPciSerialDevs pc64 hostBridge 0 0 (.fresh noLeft)) := by
    rw [← host_bridge_cards (.fresh noLeft)]
    exact search_cards_spec (.refl hostBridge) 0 0
  have isOne : (searchPciSerialDevs pc64 hostBridge 0 0 (.fresh noLeft)).1 = 1 := by
    generalize searchPciSerialDevs pc64 hostBridge 0 0 (.fresh noLeft) = result at ends
    cases ends with
    | selected => rfl
    | noCard => rfl
    | noRound _ noRound => exact absurd (show (start 0).slot ≠ endSlot by decide) noRound
  have noEntries : scanPciUarts pc64 hostBridge 0 (.fresh noLeft) = [] := by
    apply List.eq_nil_iff_forall_not_mem.mpr
    intro entry member
    have isAnnounced := (mem_scan_cards (.refl hostBridge) 0 entry).mp member
    rw [host_bridge_cards] at isAnnounced
    exact not_announced_nil isAnnounced
  refine ⟨isOne, noEntries, fun agree => ?_⟩
  obtain ⟨port, slot, member⟩ := agree.returns.mp isOne
  rw [noEntries] at member
  cases member

end L4Bootstrap.X86
