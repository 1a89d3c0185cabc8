import L4Bootstrap.Support
import L4Bootstrap.Lib.Logged

/-!
# The search for a kernel info page

`search_kip` of `startup.cc` and its two callers. The layout of `l4_kernel_info_t`
belongs to the kernel interface; of it only the size and the field `node` are used.
The log has the fields that are looked at.
-/

namespace L4Bootstrap

open MachineWord CheckedLoop ByteMemory LoggedRun

set_option autoImplicit false

/-- `sizeof (l4_kernel_info_t)`, and offset and size of `node` in it. -/
structure KipLayout where
  size : Nat
  nodeOffset : Nat
  nodeSize : Nat
  inside : nodeOffset + nodeSize ≤ size

abbrev Reading := Logged (Nat × Nat) Stop

variable {W : Wordsize}

/-- What `l4_exec_find_hdr` finds out about a header. -/
structure HdrInfo where
  start : Nat
  size : Nat
  fileOfs : Nat
  deriving DecidableEq, Repr

/-- The body of the loop over `kip` and `size`. -/
def searchKipRound (W : Wordsize) (L : KipLayout) (bytes : Bytes) (node : Nat) (st : Nat × Nat) :
    Reading (Round (Nat × Nat) (Option Nat)) :=
  if L.size ≤ st.2 then do
    let found ← readAt bytes (st.1 + L.nodeOffset) L.nodeSize
    if found = node then pure (.leave (some st.1))
    else pure (.again (W.add st.1 pageSize, W.sub st.2 pageSize))
  else pure (.leave none)

def searchKip (W : Wordsize) (L : KipLayout) (bytes : Bytes) (fuel kip size node : Nat) :
    Reading (Option Nat) :=
  scan (searchKipRound W L bytes node) .diverges fuel (kip, size)

/-- `hdr` is what `exec_load_elf` finds for the header of the KIP. -/
def findKip (W : Wordsize) (L : KipLayout) (bytes : Bytes) (fuel : Nat) (hdr : Option HdrInfo)
    (offset node : Nat) : Reading (Option Nat) :=
  match hdr with
  | none => fail (.panic "Could not find kernel info page, maybe your kernel is too old")
  | some hdr => searchKip W L bytes fuel (W.add hdr.start offset) hdr.size node

/-- Without a header the answer errs on the safe side. -/
def kipExistsForNode (W : Wordsize) (L : KipLayout) (bytes : Bytes) (fuel : Nat)
    (hdr : Option HdrInfo) (modStart node : Nat) : Reading Bool :=
  match hdr with
  | none => pure true
  | some hdr => do
      let kip ← searchKip W L bytes fuel (W.add modStart hdr.fileOfs) hdr.size node
      pure kip.isSome

/-! ## The KIPs of a section -/

/-- Where the KIP on the `k`-th page of a section starts. -/
def kipAt (W : Wordsize) (kip k : Nat) : Nat := (kip + k * pageSize) % W.modulus

def InSection (L : KipLayout) (size k : Nat) : Prop := k * pageSize + L.size ≤ size

instance (L : KipLayout) (size k : Nat) : Decidable (InSection L size k) :=
  inferInstanceAs (Decidable (_ ≤ _))

def kipNode (L : KipLayout) (bytes : Bytes) (kip : Nat) : Nat :=
  readLe bytes (kip + L.nodeOffset) L.nodeSize

/-- The first KIP of a section that belongs to the node. -/
def firstKip (W : Wordsize) (L : KipLayout) (bytes : Bytes) (kip size node : Nat) : Option Nat :=
  ((List.range (size / pageSize + 1)).find? fun k =>
    InSection L size k ∧ kipNode L bytes (kipAt W kip k) = node).map (kipAt W kip)

/-- The field of a KIP that lies in the section. -/
def NodeField (W : Wordsize) (L : KipLayout) (kip size : Nat) (field : Nat × Nat) : Prop :=
  ∃ k, InSection L size k ∧ field = (kipAt W kip k + L.nodeOffset, L.nodeSize)

/-- The search ends, looks only at KIPs of the section, and finds the first one of the node. -/
def KipSearched (W : Wordsize) (L : KipLayout) (bytes : Bytes) (kip size node : Nat) : Prop :=
  ∃ fuel, (searchKip W L bytes fuel kip size node).result = .ok (firstKip W L bytes kip size node) ∧
    ∀ field ∈ (searchKip W L bytes fuel kip size node).log, NodeField W L kip size field

section

variable {L : KipLayout} {bytes : Bytes} {kip size node k : Nat}

theorem first_kip_none
    (noMatch : ∀ k, InSection L size k → kipNode L bytes (kipAt W kip k) ≠ node) :
    firstKip W L bytes kip size node = none := by
  rw [firstKip, Option.map_eq_none_iff, List.find?_eq_none]
  intro k _ found
  obtain ⟨inside, same⟩ := of_decide_eq_true found
  exact noMatch k inside same

theorem first_kip_some (inside : InSection L size k) (same : kipNode L bytes (kipAt W kip k) = node)
    (first : ∀ i < k, kipNode L bytes (kipAt W kip i) ≠ node) :
    firstKip W L bytes kip size node = some (kipAt W kip k) := by
  rw [firstKip, Option.map_eq_some_iff]
  refine ⟨k, ?_, rfl⟩
  rw [List.find?_range_eq_some]
  refine ⟨decide_eq_true ⟨inside, same⟩, List.mem_range.mpr ?_, fun i less => ?_⟩
  · have upTo : k ≤ size / pageSize :=
      (Nat.le_div_iff_mul_le (by decide)).mpr (le_trans (Nat.le_add_right _ _) inside)
    omega
  · rw [Bool.not_eq_true']
    exact decide_eq_false fun found => first i less found.2

theorem kip_at_succ : W.add (kipAt W kip k) pageSize = kipAt W kip (k + 1) := by
  rw [kipAt, W.add_mod_left, kipAt, Nat.add_mul, Nat.one_mul, Nat.add_assoc]

theorem sub_page_mod (left : Nat) : W.sub left pageSize % pageSize = left % pageSize := by
  have dvd : pageSize ∣ W.modulus := W.pow_dvd_modulus (page_shift_le_bits W)
  obtain ⟨pages, isModulus⟩ := dvd
  have word := W.modulus_ge
  have page : pageSize = 4096 := rfl
  have shift : left + W.modulus - pageSize = left + pageSize * (pages - 1) := by
    rw [Nat.mul_sub, ← isModulus]
    omega
  rw [Wordsize.sub, Nat.mod_mod_of_dvd _ (Dvd.intro _ isModulus.symm), shift,
    Nat.add_mul_mod_self_left]

/-- One round, with what it looks at. -/
theorem search_kip_round {st : Nat × Nat} (fits : L.size ≤ st.2) :
    searchKipRound W L bytes node st =
      ⟨[(st.1 + L.nodeOffset, L.nodeSize)],
        .ok (if kipNode L bytes st.1 = node then .leave (some st.1)
          else .again (W.add st.1 pageSize, W.sub st.2 pageSize))⟩ := by
  rw [searchKipRound, if_pos fits, read_at_bind, kipNode]
  split_ifs <;> rfl

/-- Behind `k` rounds without a match the search stands at the `k`-th page. -/
def SearchesFrom (W : Wordsize) (L : KipLayout) (bytes : Bytes) (kip size node : Nat)
    (st : Nat × Nat) : Prop :=
  ∃ k, st = (kipAt W kip k, size - k * pageSize) ∧ k * pageSize ≤ size ∧
    ∀ i < k, kipNode L bytes (kipAt W kip i) ≠ node

/-- A tail that holds a KIP is the last thing that is looked at. -/
theorem page_left (good : size % pageSize < L.size ∨
      ∃ k, InSection L size k ∧ kipNode L bytes (kipAt W kip k) = node)
    (upTo : k * pageSize ≤ size) (fits : L.size ≤ size - k * pageSize)
    (before : ∀ i < k + 1, kipNode L bytes (kipAt W kip i) ≠ node) :
    pageSize ≤ size - k * pageSize := by
  by_contra tail
  have isTail : size % pageSize = size - k * pageSize := by
    have parts : size = (size - k * pageSize) + pageSize * k := by
      rw [Nat.mul_comm pageSize]
      omega
    conv_lhs => rw [parts]
    rw [Nat.add_mul_mod_self_left, Nat.mod_eq_of_lt (by omega)]
  rcases good with small | ⟨j, inside, isNode⟩
  · omega
  · unfold InSection at inside
    have behind : k < j := by
      by_contra early
      exact before j (by omega) isNode
    have later := Nat.mul_le_mul_right pageSize behind
    rw [Nat.succ_mul] at later
    omega

theorem search_kip_ends (kipWord : kip < W.modulus) (sizeWord : size < W.modulus)
    (good : size % pageSize < L.size ∨
      ∃ k, InSection L size k ∧ kipNode L bytes (kipAt W kip k) = node) :
    KipSearched W L bytes kip size node := by
  have start : SearchesFrom W L bytes kip size node (kip, size) := by
    refine ⟨0, ?_, by omega, by omega⟩
    rw [kipAt, Nat.zero_mul, Nat.add_zero, Nat.sub_zero, Nat.mod_eq_of_lt kipWord]
  have step : ∀ st, SearchesFrom W L bytes kip size node st →
      (∀ field ∈ (searchKipRound W L bytes node st).log, NodeField W L kip size field) ∧
        ((∃ found, (searchKipRound W L bytes node st).result = .ok (.leave found) ∧
            found = firstKip W L bytes kip size node) ∨
          ∃ next, (searchKipRound W L bytes node st).result = .ok (.again next) ∧
            SearchesFrom W L bytes kip size node next ∧ next.2 < st.2) := by
    rintro st ⟨k, rfl, upTo, before⟩
    by_cases fits : L.size ≤ size - k * pageSize
    · have here : InSection L size k := by
        unfold InSection
        omega
      rw [search_kip_round fits]
      refine ⟨fun field member => ⟨k, here, List.mem_singleton.mp member⟩, ?_⟩
      dsimp only
      split_ifs with same
      · exact .inl ⟨_, rfl, (first_kip_some here same before).symm⟩
      · have beforeNext : ∀ i < k + 1, kipNode L bytes (kipAt W kip i) ≠ node := by
          intro i less
          rcases Nat.lt_succ_iff_lt_or_eq.mp less with smaller | rfl
          · exact before i smaller
          · exact same
        have page := page_left good upTo fits beforeNext
        have pos : 0 < pageSize := by decide
        refine .inr ⟨_, rfl, ⟨k + 1, ?_, ?_, beforeNext⟩, ?_⟩
        · rw [kip_at_succ, W.sub_of_le page (by omega), Nat.succ_mul, Nat.sub_sub]
        · rw [Nat.succ_mul]
          omega
        · dsimp only
          rw [W.sub_of_le page (by omega)]
          omega
    · rw [searchKipRound, if_neg fits]
      refine ⟨by simp, .inl ⟨none, rfl, (first_kip_none fun j inside isNode => ?_).symm⟩⟩
      apply before j _ isNode
      by_contra late
      have later := Nat.mul_le_mul_right pageSize (Nat.le_of_not_lt late)
      unfold InSection at inside
      omega
  have ends : (∃ found, (searchKip W L bytes (size + 1) kip size node).result = .ok found ∧
        found = firstKip W L bytes kip size node) ∧
      ∀ field ∈ (searchKip W L bytes (size + 1) kip size node).log, NodeField W L kip size field :=
    scan_total Prod.snd step start (Nat.lt_succ_self _)
  obtain ⟨⟨found, returned, isFirst⟩, inside⟩ := ends
  exact ⟨size + 1, returned.trans (congrArg Except.ok isFirst), inside⟩

/-- With a tail that holds a KIP the size never gets below the size of a KIP. -/
theorem search_kip_runs_on (tail : L.size ≤ size % pageSize)
    (noMatch : ∀ k, InSection L size k → kipNode L bytes (kipAt W kip k) ≠ node) :
    ¬KipSearched W L bytes kip size node := by
  rintro ⟨fuel, returned, inside⟩
  suffices kept : ∀ st : Nat × Nat, st.2 % pageSize = size % pageSize →
      (∀ field ∈ (searchKipRound W L bytes node st).log, NodeField W L kip size field) →
      ∃ next, (searchKipRound W L bytes node st).result = .ok (.again next) ∧
        next.2 % pageSize = size % pageSize from
    scan_never kept rfl inside _ returned
  intro st sameTail allowed
  have fits : L.size ≤ st.2 := by
    have le := Nat.mod_le st.2 pageSize
    omega
  rw [search_kip_round fits] at allowed ⊢
  obtain ⟨k, inSection, isField⟩ := allowed _ List.mem_cons_self
  have isKip : st.1 = kipAt W kip k := by
    have address := congrArg Prod.fst isField
    dsimp only at address
    omega
  have other : kipNode L bytes st.1 ≠ node := by
    rw [isKip]
    exact noMatch k inSection
  refine ⟨_, congrArg Except.ok (if_neg other), ?_⟩
  dsimp only
  rw [sub_page_mod, sameTail]

/-- The search stays in its section exactly when the tail of the section is too small for a
KIP, or some KIP of the section matches. -/
theorem search_kip_inside_iff (kipWord : kip < W.modulus) (sizeWord : size < W.modulus) :
    KipSearched W L bytes kip size node ↔
      size % pageSize < L.size ∨
        ∃ k, InSection L size k ∧ kipNode L bytes (kipAt W kip k) = node := by
  constructor
  · intro searched
    by_contra bad
    obtain ⟨tail, noMatch⟩ := not_or.mp bad
    exact search_kip_runs_on (Nat.le_of_not_lt tail)
      (fun k inside isNode => noMatch ⟨k, inside, isNode⟩) searched
  · exact search_kip_ends kipWord sizeWord

theorem first_kip_is_some : (firstKip W L bytes kip size node).isSome ↔
    ∃ k, InSection L size k ∧ kipNode L bytes (kipAt W kip k) = node := by
  rw [firstKip, Option.isSome_map, List.find?_isSome]
  constructor
  · rintro ⟨k, _, found⟩
    exact ⟨k, of_decide_eq_true found⟩
  · rintro ⟨k, inside, same⟩
    have upTo : k ≤ size / pageSize :=
      (Nat.le_div_iff_mul_le (by decide)).mpr (le_trans (Nat.le_add_right _ _) inside)
    exact ⟨k, List.mem_range.mpr (by omega), decide_eq_true ⟨inside, same⟩⟩

/-- In a section that is loaded unchanged, the KIP that exists in the module is found. -/
theorem kip_exists_for_node_agrees {loaded : Bytes} {hdr : HdrInfo} {offset modStart : Nat}
    (before : KipSearched W L bytes (W.add modStart hdr.fileOfs) hdr.size node)
    (after : KipSearched W L loaded (W.add hdr.start offset) hdr.size node)
    (same : ∀ k, InSection L hdr.size k →
      kipNode L loaded (kipAt W (W.add hdr.start offset) k) =
        kipNode L bytes (kipAt W (W.add modStart hdr.fileOfs) k)) :
    ∃ answer found,
      (∃ fuel, (kipExistsForNode W L bytes fuel (some hdr) modStart node).result = .ok answer) ∧
      (∃ fuel, (findKip W L loaded fuel (some hdr) offset node).result = .ok found) ∧
      (answer = true ↔ found.isSome) := by
  obtain ⟨fuel, searched, _⟩ := before
  obtain ⟨fuelAfter, found, _⟩ := after
  refine ⟨(firstKip W L bytes (W.add modStart hdr.fileOfs) hdr.size node).isSome, _,
    ⟨fuel, ?_⟩, ⟨fuelAfter, found⟩, ?_⟩
  · rw [kipExistsForNode, bind_of_ok searched]
    rfl
  · rw [first_kip_is_some, first_kip_is_some]
    constructor
    · rintro ⟨k, inside, isNode⟩
      exact ⟨k, inside, (same k inside).trans isNode⟩
    · rintro ⟨k, inside, isNode⟩
      exact ⟨k, inside, (same k inside).symm.trans isNode⟩

end

/-- A layout of the structure. -/
def smallKip : KipLayout := ⟨0x130, 0x128, 4, by decide⟩

/-- Two KIPs on the pages from `0x1000` on, for the nodes 0 and 1. -/
def twoKips : Bytes := fun address => if address = 0x2128 then 1 else 0

theorem search_kip_inside_two_kips : KipSearched .w64 smallKip twoKips 0x1000 0x2000 1 :=
  (search_kip_inside_iff (by decide) (by decide)).mpr (.inl (by decide))

/-- Behind a section with one KIP and nothing else, the search for another node runs on. -/
theorem search_kip_one_kip :
    (0x2128, 4) ∈ (searchKip .w64 smallKip (fun _ => 0) 2 0x1000 0x130 1).log ∧
      ¬KipSearched .w64 smallKip (fun _ => 0) 0x1000 0x130 1 := by
  refine ⟨by decide +kernel, search_kip_runs_on (by decide) fun k _ => ?_⟩
  simp [kipNode, smallKip, readLe]

end L4Bootstrap
