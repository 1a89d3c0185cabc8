import L4Bootstrap.SearchKip

/-!
# The kernel options

The structure of `koptions-def.h` and `find_kopts` of `startup.cc`. An option page
has one structure for each node. The log has what is read of them.
-/

namespace L4Bootstrap

open MachineWord CheckedLoop ByteMemory LoggedRun

set_option autoImplicit false

structure KernelUart where
  baseBaud : UInt32 := 0
  baud : UInt32 := 0
  irqno : UInt16 := 0
  regShift : UInt8 := 0
  accessType : UInt8 := 0
  baseAddress : UInt64 := 0
  compatibleId : List UInt8 := List.replicate 32 0
  compatibleIdLength : compatibleId.length = 32 := by rfl
  deriving DecidableEq

def jdbCmdSize : Nat := 128

structure KernelOptions where
  magic : UInt32
  version : UInt32
  flags : UInt32 := 0
  kmemsize : UInt32 := 0
  perfProfile : UInt32 := 0
  uart : KernelUart := {}
  coreSpinAddr : UInt64 := 0
  jdbCmd : List UInt8 := List.replicate jdbCmdSize 0
  tbufEntries : UInt32 := 0
  outBuf : UInt32 := 0
  node : UInt32 := 0
  jdbCmdLength : jdbCmd.length = jdbCmdSize := by rfl
  deriving DecidableEq

/-- `Magic`. -/
def optionsMagic : Nat := 0x4C344B43

def versionCurrent : Nat := 6

def KernelUart.encode (u : KernelUart) : List UInt8 :=
  leBytes 4 u.baseBaud.toNat ++ (leBytes 4 u.baud.toNat ++ (leBytes 2 u.irqno.toNat ++
    (leBytes 1 u.regShift.toNat ++ (leBytes 1 u.accessType.toNat ++
    (leBytes 8 u.baseAddress.toNat ++ u.compatibleId)))))

/-- The packed structure in front of its field `node`. -/
def KernelOptions.front (o : KernelOptions) : List UInt8 :=
  leBytes 4 o.flags.toNat ++ (leBytes 4 o.kmemsize.toNat ++
    (leBytes 4 o.perfProfile.toNat ++ (o.uart.encode ++ (leBytes 8 o.coreSpinAddr.toNat ++
    (o.jdbCmd ++ (leBytes 4 o.tbufEntries.toNat ++ leBytes 4 o.outBuf.toNat))))))

def KernelOptions.encode (o : KernelOptions) : List UInt8 :=
  leBytes 4 o.magic.toNat ++ (leBytes 4 o.version.toNat ++ (o.front ++ leBytes 4 o.node.toNat))

/-- `sizeof (Options)`, and the offset of `node`. -/
def optionsSize : Nat := 220
def nodeOffset : Nat := 216

variable {W : Wordsize}

/-- The body of the loop over `ko` and `hdr.size`. -/
def findKoptsRound (W : Wordsize) (bytes : Bytes) (node : Nat) (st : Nat × Nat) :
    Reading (Round (Nat × Nat) Nat) :=
  if optionsSize ≤ st.2 then do
    let found ← readAt bytes (st.1 + nodeOffset) 4
    if found = node then pure (.leave st.1)
    else pure (.again (W.add st.1 optionsSize, W.sub st.2 optionsSize))
  else pure (.leave st.1)

/-- The two checks behind the search. -/
def checkKopts (bytes : Bytes) (ko : Nat) : Reading Nat := do
  let magic ← readAt bytes ko 4
  if magic ≠ optionsMagic then fail (.panic "Could not find kernel options page")
  else do
    let version ← readAt bytes (ko + 4) 4
    if version ≠ versionCurrent then
      fail (.panic "Cannot boot kernel with incompatible options version: %lu, need %u")
    else pure ko

/-- `hdr` is what `exec_load_elf` finds for the header of the kernel options. -/
def findKopts (W : Wordsize) (L : KipLayout) (bytes : Bytes) (fuel : Nat) (hdr : Option HdrInfo)
    (kip offset node : Nat) : Reading Nat :=
  match hdr with
  | some hdr => do
      let ko ← scan (findKoptsRound W bytes node) .diverges fuel (W.add hdr.start offset, hdr.size)
      if ko = 0 then fail (.panic "Cannot find node in kernel options page")
      else checkKopts bytes ko
  | none => checkKopts bytes (roundPage W (W.add kip L.size))

/-- Where the `i`-th element of a page of options starts. -/
def optionsAt (W : Wordsize) (page i : Nat) : Nat := (page + i * optionsSize) % W.modulus

def InPage (size i : Nat) : Prop := i * optionsSize + optionsSize ≤ size

instance (size i : Nat) : Decidable (InPage size i) := inferInstanceAs (Decidable (_ ≤ _))

def optionsNode (bytes : Bytes) (ko : Nat) : Nat := readLe bytes (ko + nodeOffset) 4

/-- The options of the node, in a complete element of the page. -/
structure OptionsOf (W : Wordsize) (bytes : Bytes) (page size node ko : Nat) : Prop where
  element : ∃ i, InPage size i ∧ ko = optionsAt W page i
  ofNode : optionsNode bytes ko = node
  magic : readLe bytes ko 4 = optionsMagic
  version : readLe bytes (ko + 4) 4 = versionCurrent

def InElement (W : Wordsize) (page size : Nat) (area : Nat × Nat) : Prop :=
  ∃ i, InPage size i ∧ optionsAt W page i ≤ area.1 ∧
    area.1 + area.2 ≤ optionsAt W page i + optionsSize

/-- The search ends with the options of the node or with a panic, and looks only at complete
elements of the page. -/
def KoptsTaken (W : Wordsize) (L : KipLayout) (bytes : Bytes) (hdr : HdrInfo)
    (kip offset node : Nat) : Prop :=
  ∃ fuel,
    ((∃ ko, (findKopts W L bytes fuel (some hdr) kip offset node).result = .ok ko ∧
        OptionsOf W bytes (W.add hdr.start offset) hdr.size node ko) ∨
      ∃ message, (findKopts W L bytes fuel (some hdr) kip offset node).result =
        .error (.panic message)) ∧
    ∀ area ∈ (findKopts W L bytes fuel (some hdr) kip offset node).log,
      InElement W (W.add hdr.start offset) hdr.size area

/-! ## The elements of the page -/

theorem length_uart_encode (u : KernelUart) : u.encode.length = 52 := by
  simp only [KernelUart.encode, List.length_append, length_le_bytes, u.compatibleIdLength]

theorem length_front (o : KernelOptions) : o.front.length = 208 := by
  simp only [KernelOptions.front, List.length_append, length_le_bytes, length_uart_encode,
    o.jdbCmdLength, jdbCmdSize]

theorem length_options_encode (o : KernelOptions) : o.encode.length = optionsSize := by
  simp only [KernelOptions.encode, List.length_append, length_le_bytes, length_front, optionsSize]

/-- The three fields that the search reads. -/
theorem read_options {bytes : Bytes} {ko : Nat} {o : KernelOptions} (held : Holds bytes ko o.encode) :
    readLe bytes ko 4 = o.magic.toNat ∧ readLe bytes (ko + 4) 4 = o.version.toNat ∧
      readLe bytes (ko + nodeOffset) 4 = o.node.toNat := by
  have word : ∀ x : UInt32, x.toNat % 256 ^ 4 = x.toNat := fun x => Nat.mod_eq_of_lt x.toNat_lt
  rw [KernelOptions.encode, holds_append, holds_append, holds_append, length_le_bytes,
    length_le_bytes, length_front, Nat.add_assoc, Nat.add_assoc] at held
  obtain ⟨magic, version, _, node⟩ := held
  exact ⟨magic.read_le_bytes.trans (word _), version.read_le_bytes.trans (word _),
    node.read_le_bytes.trans (word _)⟩

/-- A page holds its elements one behind the other. -/
theorem holds_element {bytes : Bytes} {page i : Nat} {elements : List KernelOptions}
    {o : KernelOptions} (held : Holds bytes page (elements.flatMap KernelOptions.encode))
    (isElement : elements[i]? = some o) : Holds bytes (page + i * optionsSize) o.encode := by
  induction elements generalizing page i with
  | nil => cases isElement
  | cons first rest ih =>
      rw [List.flatMap_cons, holds_append, length_options_encode] at held
      obtain ⟨here, later⟩ := held
      cases i with
      | zero =>
          rw [Nat.zero_mul, Nat.add_zero, ← Option.some.inj isElement]
          exact here
      | succ i =>
          rw [Nat.succ_mul, Nat.add_comm (i * optionsSize), ← Nat.add_assoc]
          exact ih later isElement

section

variable {bytes : Bytes} {page size node i ko : Nat}

theorem options_at_succ : W.add (optionsAt W page i) optionsSize = optionsAt W page (i + 1) := by
  rw [optionsAt, W.add_mod_left, optionsAt, Nat.add_mul, Nat.one_mul, Nat.add_assoc]

/-- One round, with what it looks at. -/
theorem find_kopts_round {st : Nat × Nat} (fits : optionsSize ≤ st.2) :
    findKoptsRound W bytes node st =
      ⟨[(st.1 + nodeOffset, 4)],
        .ok (if optionsNode bytes st.1 = node then .leave st.1
          else .again (W.add st.1 optionsSize, W.sub st.2 optionsSize))⟩ := by
  rw [findKoptsRound, if_pos fits, read_at_bind, optionsNode]
  split_ifs <;> rfl

/-- Behind `i` rounds without a match the search stands at the `i`-th element. -/
def ScansFrom (W : Wordsize) (bytes : Bytes) (page size node : Nat) (st : Nat × Nat) : Prop :=
  ∃ i, st = (optionsAt W page i, size - i * optionsSize) ∧ i * optionsSize ≤ size ∧
    ∀ j < i, optionsNode bytes (optionsAt W page j) ≠ node

theorem scans_from_start (pageWord : page < W.modulus) :
    ScansFrom W bytes page size node (page, size) := by
  refine ⟨0, ?_, by omega, by omega⟩
  rw [optionsAt, Nat.zero_mul, Nat.add_zero, Nat.sub_zero, Nat.mod_eq_of_lt pageWord]

/-- What the loop leaves with: the first element of the node, else the address behind the last
complete one. -/
def KoptsFound (W : Wordsize) (bytes : Bytes) (page size node ko : Nat) : Prop :=
  (∃ i, InPage size i ∧ ko = optionsAt W page i ∧ optionsNode bytes ko = node) ∨
    (∀ i, InPage size i → optionsNode bytes (optionsAt W page i) ≠ node) ∧
      ko = optionsAt W page (size / optionsSize)

/-- One round of the search. -/
theorem find_kopts_step (sizeWord : size < W.modulus) {st : Nat × Nat}
    (scans : ScansFrom W bytes page size node st) :
    (∀ area ∈ (findKoptsRound W bytes node st).log, InElement W page size area) ∧
      ((∃ ko, (findKoptsRound W bytes node st).result = .ok (.leave ko) ∧
          KoptsFound W bytes page size node ko) ∨
        ∃ next, (findKoptsRound W bytes node st).result = .ok (.again next) ∧
          ScansFrom W bytes page size node next ∧ next.2 < st.2) := by
  obtain ⟨i, rfl, upTo, before⟩ := scans
  have pos : 0 < optionsSize := by decide
  by_cases fits : optionsSize ≤ size - i * optionsSize
  · have here : InPage size i := by
      unfold InPage
      omega
    rw [find_kopts_round fits]
    constructor
    · intro area member
      rw [List.mem_singleton] at member
      subst member
      exact ⟨i, here, Nat.le_add_right _ _, by rw [Nat.add_assoc]; exact Nat.le_refl _⟩
    · dsimp only
      split_ifs with same
      · exact .inl ⟨_, rfl, .inl ⟨i, here, rfl, same⟩⟩
      · refine .inr ⟨_, rfl, ⟨i + 1, ?_, ?_, ?_⟩, ?_⟩
        · rw [options_at_succ, W.sub_of_le fits (by omega), Nat.succ_mul, Nat.sub_sub]
        · rw [Nat.succ_mul]
          omega
        · intro j less
          rcases Nat.lt_succ_iff_lt_or_eq.mp less with smaller | rfl
          · exact before j smaller
          · exact same
        · dsimp only
          rw [W.sub_of_le fits (by omega)]
          omega
  · rw [findKoptsRound, if_neg fits]
    refine ⟨by simp, .inl ⟨_, rfl, .inr ⟨fun j inside => before j ?_, ?_⟩⟩⟩
    · by_contra late
      have later := Nat.mul_le_mul_right optionsSize (Nat.le_of_not_lt late)
      unfold InPage at inside
      omega
    · have isLast : size / optionsSize = i := by
        apply Nat.div_eq_of_lt_le upTo
        rw [Nat.succ_mul]
        omega
      rw [isLast]

variable (bytes node) in
/-- The whole search, with enough fuel. -/
theorem scan_kopts_ends (pageWord : page < W.modulus) (sizeWord : size < W.modulus) :
    (∃ ko, (scan (findKoptsRound W bytes node) .diverges (size + 1) (page, size)).result = .ok ko ∧
        KoptsFound W bytes page size node ko) ∧
      ∀ area ∈ (scan (findKoptsRound W bytes node) .diverges (size + 1) (page, size)).log,
        InElement W page size area :=
  scan_total Prod.snd (fun _ scans => find_kopts_step sizeWord scans)
    (scans_from_start pageWord) (Nat.lt_succ_self _)

variable (bytes node) in
/-- With any fuel: the search is stuck, or leaves as above. -/
theorem scan_kopts_returns (pageWord : page < W.modulus) (sizeWord : size < W.modulus)
    (fuel : Nat) :
    (scan (findKoptsRound W bytes node) .diverges fuel (page, size)).result = .error .diverges ∨
      ∃ ko, (scan (findKoptsRound W bytes node) .diverges fuel (page, size)).result = .ok ko ∧
        KoptsFound W bytes page size node ko := by
  have step : ∀ st, ScansFrom W bytes page size node st →
      (∃ ko, (findKoptsRound W bytes node st).result = .ok (.leave ko) ∧
          KoptsFound W bytes page size node ko) ∨
        ∃ next, (findKoptsRound W bytes node st).result = .ok (.again next) ∧
          ScansFrom W bytes page size node next := by
    intro st scans
    rcases (find_kopts_step sizeWord scans).2 with left | ⟨next, again, kept, _⟩
    · exact .inl left
    · exact .inr ⟨next, again, kept⟩
  exact scan_returns step (scans_from_start pageWord)

/-- The address behind the last complete element is in none of them. -/
theorem behind_last_outside (sizeWord : size < W.modulus) :
    ¬InElement W page size (optionsAt W page (size / optionsSize), 4) := by
  rintro ⟨i, inside, above, below⟩
  unfold InPage at inside
  have upTo : size / optionsSize * optionsSize ≤ size := Nat.div_mul_le_self _ _
  have later : i + 1 ≤ size / optionsSize := by
    apply (Nat.le_div_iff_mul_le (by decide)).mpr
    rw [Nat.succ_mul]
    exact inside
  obtain ⟨gap, isGap⟩ := Nat.exists_eq_add_of_le later
  have apart : size / optionsSize * optionsSize =
      i * optionsSize + (optionsSize + gap * optionsSize) := by
    rw [isGap, Nat.add_mul, Nat.succ_mul, Nat.add_assoc]
  have moved : optionsAt W page (size / optionsSize) =
      (optionsAt W page i + (optionsSize + gap * optionsSize)) % W.modulus := by
    rw [optionsAt, apart, optionsAt, Nat.mod_add_mod, Nat.add_assoc]
  have word : optionsAt W page i < W.modulus := Nat.mod_lt _ W.modulus_pos
  dsimp only at above below
  rw [moved] at above below
  by_cases wraps : optionsAt W page i + (optionsSize + gap * optionsSize) < W.modulus
  · rw [Nat.mod_eq_of_lt wraps] at below
    omega
  · rw [Nat.mod_eq_sub_mod (Nat.le_of_not_lt wraps), Nat.mod_eq_of_lt (by omega)] at above
    omega

/-- The checks on an element of the node give its options or a panic. -/
theorem check_kopts_element (inside : InPage size i) (isElement : ko = optionsAt W page i)
    (ofNode : optionsNode bytes ko = node) :
    ((∃ taken, (checkKopts bytes ko).result = .ok taken ∧ OptionsOf W bytes page size node taken) ∨
      ∃ message, (checkKopts bytes ko).result = .error (.panic message)) ∧
    ∀ area ∈ (checkKopts bytes ko).log, InElement W page size area := by
  have within : ∀ offset, offset + 4 ≤ optionsSize → InElement W page size (ko + offset, 4) := by
    intro offset small
    refine ⟨i, inside, ?_, ?_⟩ <;> dsimp only <;> rw [isElement]
    · exact Nat.le_add_right _ _
    · omega
  rw [checkKopts, read_at_bind]
  split_ifs with badMagic
  · refine ⟨.inr ⟨_, rfl⟩, fun area member => ?_⟩
    rw [fail_log, List.mem_singleton] at member
    rw [member]
    exact within 0 (by decide)
  · rw [read_at_bind]
    split_ifs with badVersion
    · refine ⟨.inr ⟨_, rfl⟩, fun area member => ?_⟩
      rw [fail_log, List.mem_cons, List.mem_singleton] at member
      rcases member with rfl | rfl
      · exact within 0 (by decide)
      · exact within 4 (by decide)
    · refine ⟨.inl ⟨ko, rfl, ⟨i, inside, isElement⟩, ofNode, not_not.mp badMagic,
        not_not.mp badVersion⟩, fun area member => ?_⟩
      rw [pure_log, List.mem_cons, List.mem_singleton] at member
      rcases member with rfl | rfl
      · exact within 0 (by decide)
      · exact within 4 (by decide)

theorem check_kopts_ok (magic : readLe bytes ko 4 = optionsMagic)
    (version : readLe bytes (ko + 4) 4 = versionCurrent) :
    (checkKopts bytes ko).result = .ok ko := by
  rw [checkKopts, read_at_bind, if_neg (not_not.mpr magic), read_at_bind,
    if_neg (not_not.mpr version)]
  rfl

/-- The first check reads the magic number in any case. -/
theorem magic_in_log : (ko, 4) ∈ (checkKopts bytes ko).log := by
  rw [checkKopts, read_at_bind]
  exact List.mem_cons_self

variable {L : KipLayout} {hdr : HdrInfo} {kip offset : Nat}

theorem kopts_taken (sizeWord : hdr.size < W.modulus)
    (good : (∃ i, InPage hdr.size i ∧
        optionsNode bytes (optionsAt W (W.add hdr.start offset) i) = node) ∨
      optionsAt W (W.add hdr.start offset) (hdr.size / optionsSize) = 0) :
    KoptsTaken W L bytes hdr kip offset node := by
  obtain ⟨⟨ko, found, isFound⟩, inside⟩ :=
    scan_kopts_ends bytes node (W.add_lt hdr.start offset) sizeWord
  refine ⟨hdr.size + 1, ?_⟩
  rw [findKopts, bind_of_ok found]
  dsimp only
  split_ifs with null
  · refine ⟨.inr ⟨_, rfl⟩, fun area member => ?_⟩
    rw [fail_log, List.append_nil] at member
    exact inside area member
  · have element : ∃ i, InPage hdr.size i ∧ ko = optionsAt W (W.add hdr.start offset) i ∧
        optionsNode bytes ko = node := by
      rcases isFound with element | ⟨noMatch, isLast⟩
      · exact element
      · rcases good with ⟨i, inPage, same⟩ | isNull
        · exact absurd same (noMatch i inPage)
        · exact absurd (isLast.trans isNull) null
    obtain ⟨i, inPage, isElement, ofNode⟩ := element
    obtain ⟨outcome, checked⟩ := check_kopts_element inPage isElement ofNode
    refine ⟨outcome, fun area member => ?_⟩
    rcases List.mem_append.mp member with inScan | inCheck
    · exact inside area inScan
    · exact checked area inCheck

/-- Without an element of the node, what lies behind the last element is checked. -/
theorem find_kopts_no_match (sizeWord : hdr.size < W.modulus)
    (noMatch : ∀ i, InPage hdr.size i →
      optionsNode bytes (optionsAt W (W.add hdr.start offset) i) ≠ node)
    (notNull : optionsAt W (W.add hdr.start offset) (hdr.size / optionsSize) ≠ 0) :
    (findKopts W L bytes (hdr.size + 1) (some hdr) kip offset node).result =
      (checkKopts bytes (optionsAt W (W.add hdr.start offset) (hdr.size / optionsSize))).result := by
  obtain ⟨⟨ko, found, isFound⟩, _⟩ :=
    scan_kopts_ends bytes node (W.add_lt hdr.start offset) sizeWord
  have isLast : ko = optionsAt W (W.add hdr.start offset) (hdr.size / optionsSize) := by
    rcases isFound with ⟨i, inPage, isElement, ofNode⟩ | ⟨_, isLast⟩
    · exact absurd (isElement ▸ ofNode) (noMatch i inPage)
    · exact isLast
  rw [findKopts, bind_of_ok found, isLast, if_neg notNull]

theorem kopts_not_taken (sizeWord : hdr.size < W.modulus)
    (noMatch : ∀ i, InPage hdr.size i →
      optionsNode bytes (optionsAt W (W.add hdr.start offset) i) ≠ node)
    (notNull : optionsAt W (W.add hdr.start offset) (hdr.size / optionsSize) ≠ 0) :
    ¬KoptsTaken W L bytes hdr kip offset node := by
  rintro ⟨fuel, outcome, inside⟩
  rcases scan_kopts_returns bytes node (W.add_lt hdr.start offset)
    sizeWord fuel with stuck | ⟨ko, found, isFound⟩
  · rw [findKopts, bind_of_error stuck] at outcome
    rcases outcome with ⟨_, returned, _⟩ | ⟨_, panics⟩
    · cases returned
    · cases panics
  · have isLast : ko = optionsAt W (W.add hdr.start offset) (hdr.size / optionsSize) := by
      rcases isFound with ⟨i, inPage, isElement, ofNode⟩ | ⟨_, isLast⟩
      · exact absurd (isElement ▸ ofNode) (noMatch i inPage)
      · exact isLast
    subst isLast
    have outside : ¬InElement W (W.add hdr.start offset) hdr.size
        (optionsAt W (W.add hdr.start offset) (hdr.size / optionsSize), 4) :=
      behind_last_outside sizeWord
    apply outside
    apply inside
    rw [findKopts, bind_of_ok found]
    dsimp only
    rw [if_neg notNull]
    exact List.mem_append_right _ magic_in_log

/-- The search keeps to the elements of the page, and to the requested node, exactly when an
element belongs to the node, or the page ends with the address space. -/
theorem find_kopts_of_node_iff (sizeWord : hdr.size < W.modulus) :
    KoptsTaken W L bytes hdr kip offset node ↔
      (∃ i, InPage hdr.size i ∧
        optionsNode bytes (optionsAt W (W.add hdr.start offset) i) = node) ∨
      optionsAt W (W.add hdr.start offset) (hdr.size / optionsSize) = 0 := by
  constructor
  · intro taken
    by_contra bad
    obtain ⟨noMatch, notNull⟩ := not_or.mp bad
    exact kopts_not_taken sizeWord (fun i inPage same => noMatch ⟨i, inPage, same⟩) notNull taken
  · exact kopts_taken sizeWord

end

/-- The options of the nodes 0 and 1. -/
def twoOptions : List KernelOptions :=
  [{ magic := 0x4C344B43, version := 6 }, { magic := 0x4C344B43, version := 6, node := 1 }]

def optionsMemory : Bytes :=
  writeList 0x1000 (twoOptions.flatMap KernelOptions.encode) fun _ => 0

theorem options_memory_holds {i : Nat} {o : KernelOptions} (isElement : twoOptions[i]? = some o) :
    Holds optionsMemory (0x1000 + i * optionsSize) o.encode := by
  have held : Holds optionsMemory 0x1000 (twoOptions.flatMap KernelOptions.encode) :=
    holds_write_list
  exact holds_element held isElement

theorem find_kopts_second_node :
    KoptsTaken .w64 smallKip optionsMemory ⟨0x1000, 440, 0x1000⟩ 0 0 1 := by
  have second := read_options (options_memory_holds (i := 1) rfl)
  exact (find_kopts_of_node_iff (by decide)).mpr (.inl ⟨1, by decide, second.2.2⟩)

/-- In a section with the first options only, the search for node 2 returns what lies behind
the section. -/
theorem find_kopts_behind_section :
    (findKopts .w64 smallKip optionsMemory 221 (some ⟨0x1000, 220, 0x1000⟩) 0 0 2).result =
        .ok 0x10dc ∧
      optionsNode optionsMemory 0x10dc = 1 ∧
      ¬KoptsTaken .w64 smallKip optionsMemory ⟨0x1000, 220, 0x1000⟩ 0 0 2 := by
  have first := read_options (options_memory_holds (i := 0) rfl)
  have second := read_options (options_memory_holds (i := 1) rfl)
  have noMatch : ∀ i, InPage 220 i →
      optionsNode optionsMemory (optionsAt .w64 (Wordsize.w64.add 0x1000 0) i) ≠ 2 := by
    intro i inPage
    have isFirst : i = 0 := by
      change i * 220 + 220 ≤ 220 at inPage
      omega
    rw [isFirst]
    intro same
    cases first.2.2.symm.trans same
  have notNull : optionsAt .w64 (Wordsize.w64.add 0x1000 0) (220 / optionsSize) ≠ 0 := by decide
  refine ⟨?_, second.2.2, kopts_not_taken (by decide) noMatch notNull⟩
  have unmatched : (findKopts .w64 smallKip optionsMemory 221 (some ⟨0x1000, 220, 0x1000⟩) 0 0
      2).result = (checkKopts optionsMemory 0x10dc).result :=
    find_kopts_no_match (by decide) noMatch notNull
  rw [unmatched]
  exact check_kopts_ok second.1 second.2.1

end L4Bootstrap
