import L4Bootstrap.RegionLaws

/-!
# The limits of a region list

A list may have a highest allowed address and a maximum for the sum of its
sizes; `add` should clip a region to both. The clipping at the highest address
takes it for the first forbidden one and loses a byte, or fails if the region
begins there; the sum of the sizes may wrap when the whole address space is
covered; and a part of one byte is dropped. Additions that avoid these steps
contribute exactly what the limits allow, in every run.
-/

namespace L4Bootstrap

open MachineWord CheckedLoop

set_option autoImplicit false

variable {W : Wordsize}

def bytesOf (reg : List (Region W)) : Nat := (reg.map fun r => r.last - r.begin + 1).sum

@[simp] theorem bytes_of_nil : bytesOf ([] : List (Region W)) = 0 := rfl

@[simp] theorem bytes_of_cons {r : Region W} {reg : List (Region W)} :
    bytesOf (r :: reg) = r.last - r.begin + 1 + bytesOf reg := by
  simp [bytesOf]

theorem bytes_of_perm {reg other : List (Region W)} (perm : reg.Perm other) :
    bytesOf reg = bytesOf other :=
  (perm.map _).sum_nat

/-- Disjoint entries fit into the address space. -/
theorem ascending_bytes {reg : List (Region W)} (ascending : Ascending reg) :
    bytesOf reg ≤ W.modulus := by
  suffices general : ∀ lower, lower ≤ W.modulus → (∀ r ∈ reg, lower ≤ r.begin) →
      lower + bytesOf reg ≤ W.modulus by
    have := general 0 (Nat.zero_le _) fun r _ => Nat.zero_le _
    omega
  induction reg with
  | nil =>
      intro lower fits _
      simpa using fits
  | cons r rest ih =>
      intro lower fits above
      obtain ⟨behind, restAscending⟩ := ascending_cons.mp ascending
      have ordered := r.ordered
      have bounded := r.bounded
      have first := above r (by simp)
      have tail := ih restAscending (r.last + 1) (by omega) fun o member => behind o member
      rw [bytes_of_cons]
      omega

/-- So does one more region that is disjoint from them. -/
theorem disjoint_bytes {reg : List (Region W)} {r : Region W} (ascending : Ascending reg)
    (free : ∀ o ∈ reg, r.overlaps o = false) :
    bytesOf reg + (r.last - r.begin + 1) ≤ W.modulus := by
  obtain ⟨front, back, rfl, _, below, above⟩ := RegionList.insert_disjoint ascending free
  have total := ascending_bytes (ascending_insert ascending below above)
  rw [bytes_of_perm List.perm_middle, bytes_of_cons] at total
  omega

/-- The number of bytes that the limits leave of a region. -/
def RegionList.allowed (l : RegionList W) (r : Region W) : Nat :=
  if l.addressLimit < r.begin then 0
  else min (min r.last l.addressLimit - r.begin + 1) (l.maxCombinedSize - bytesOf l.reg)

/-- The region contributes its lowest bytes, as many as the limits allow. -/
def Contributes (l : RegionList W) (r : Region W) (result : RegionList W) : Prop :=
  ∀ p, Covered result.reg p ↔ Covered l.reg p ∨ (r.begin ≤ p ∧ p < r.begin + l.allowed r)

/-- What the limits promise about the list itself. -/
structure WithinLimits (l : RegionList W) : Prop where
  address : ∀ e ∈ l.reg, e.last ≤ l.addressLimit
  combined : bytesOf l.reg ≤ l.maxCombinedSize

/-- The step avoids the defects: the region lies above the highest address, or it
does not straddle it (unless the size limit cuts off that part anyway), one byte
alone is not to be added, the whole address space does not become covered, and
the store has a free entry. -/
def CleanAdd (l : RegionList W) (r : Region W) : Prop :=
  l.addressLimit < r.begin ∨
    ((r.last ≤ l.addressLimit ∨
        (r.begin < l.addressLimit ∧
          l.maxCombinedSize ≤ bytesOf l.reg + (l.addressLimit - r.begin))) ∧
      l.allowed r ≠ 1 ∧
      (l.maxCombinedSize ≤ bytesOf l.reg ∨
        bytesOf l.reg + (r.last - r.begin + 1) < W.modulus ∨ l.addressLimit < r.last) ∧
      (l.allowed r = 0 ∨ l.reg.length < l.max))

/-- The lists that clean additions of disjoint regions lead to. -/
inductive CleanRun (capacity maxCombinedSize addressLimit : Nat) :
    List (Region W) → RegionList W → Prop
  | init : CleanRun capacity maxCombinedSize addressLimit []
      (RegionList.init capacity maxCombinedSize addressLimit)
  | step {added : List (Region W)} {l result : RegionList W} {r : Region W} :
      CleanRun capacity maxCombinedSize addressLimit added l →
      (∀ o ∈ added, r.overlaps o = false) → CleanAdd l r → l.add r = .ok result →
      CleanRun capacity maxCombinedSize addressLimit (r :: added) result

/-- Behind the clipping at the size limit: `add` ends with the region `part`. -/
structure Inserted (l : RegionList W) (part : Region W) (result : RegionList W) : Prop where
  perm : result.reg.Perm (part :: l.reg)
  ascending : Ascending result.reg
  combinedSize : result.combinedSize = l.combinedSize + (part.last - part.begin + 1)
  maxCombinedSize : result.maxCombinedSize = l.maxCombinedSize
  addressLimit : result.addressLimit = l.addressLimit

theorem add_nolimitcheck_inserted {l : RegionList W} {part : Region W}
    (ascending : Ascending l.reg) (free : ∀ o ∈ l.reg, part.overlaps o = false)
    (room : l.reg.length < l.max) (two : part.begin < part.last)
    (word : l.combinedSize + (part.last - part.begin + 1) < W.modulus) :
    ∃ result, l.addNolimitcheck part false = .ok result ∧ Inserted l part result := by
  obtain ⟨front, back, whole, inserted, below, above⟩ := RegionList.insert_disjoint ascending free
  have roomy : l.makeRoom = .ok l := by
    rw [RegionList.makeRoom, if_neg (by omega)]
  have size : part.size = part.last - part.begin + 1 := Region.size_eq (by omega)
  have adds : l.addNolimitcheck part false = .ok
      { l with reg := front ++ part :: back, combinedSize := W.add l.combinedSize part.size } := by
    rw [RegionList.addNolimitcheck, if_neg (by omega), roomy, ok_bind, inserted, ok_bind]
  refine ⟨_, adds, ?_, ?_, ?_, rfl, rfl⟩
  · rw [whole]
    exact List.perm_middle
  · rw [whole] at ascending
    exact ascending_insert ascending below above
  · change W.add l.combinedSize part.size = _
    rw [size, W.add_of_lt word]

/-- The size limit: the lowest bytes that are left, as one entry. -/
theorem add_size_limited_exact {l : RegionList W} (mem : Region W) {count : Nat}
    (ascending : Ascending l.reg) (isBytes : l.combinedSize = bytesOf l.reg)
    (free : ∀ o ∈ l.reg, mem.overlaps o = false)
    (isCount : count = min (mem.last - mem.begin + 1) (l.maxCombinedSize - bytesOf l.reg))
    (notOne : count ≠ 1) (room : count = 0 ∨ l.reg.length < l.max)
    (word : l.maxCombinedSize ≤ bytesOf l.reg ∨
      bytesOf l.reg + (mem.last - mem.begin + 1) < W.modulus) :
    (count = 0 ∧ l.addSizeLimited mem false = .ok l) ∨
      ∃ part result, part.begin = mem.begin ∧ part.last + 1 = mem.begin + count ∧
        l.addSizeLimited mem false = .ok result ∧ Inserted l part result := by
  have ordered := mem.ordered
  have bounded := mem.bounded
  rw [RegionList.addSizeLimited, isBytes]
  by_cases full : l.maxCombinedSize ≤ bytesOf l.reg
  · left
    exact ⟨by omega, by rw [if_pos full]⟩
  · right
    have fits : bytesOf l.reg + (mem.last - mem.begin + 1) < W.modulus := by omega
    have size : mem.size = mem.last - mem.begin + 1 := Region.size_eq (by omega)
    have sum : W.add (bytesOf l.reg) mem.size = bytesOf l.reg + (mem.last - mem.begin + 1) := by
      rw [size, W.add_of_lt fits]
    rw [if_neg full, sum]
    split_ifs with exceeds
    · have last : W.sub (W.sub (W.add mem.begin l.maxCombinedSize) (bytesOf l.reg)) 1 =
          mem.begin + count - 1 := by
        rw [Wordsize.add, W.sub_mod (by omega) (by omega), W.sub_mod (by omega) (by omega),
          Nat.mod_eq_of_lt (by omega)]
        omega
      obtain ⟨part, begins, ends, attr⟩ : ∃ part : Region W, part.begin = mem.begin ∧
          part.last = mem.begin + count - 1 ∧ part.attr = mem.attr :=
        ⟨⟨mem.begin, mem.begin + count - 1, mem.attr, by omega, by omega⟩, rfl, rfl, rfl⟩
      have made : mem.setLast (mem.begin + count - 1) = .ok part :=
        Region.set_last_ok.mpr ⟨begins, ends, attr⟩
      have partFree : ∀ o ∈ l.reg, part.overlaps o = false := by
        intro o member
        have apart := Region.overlaps_eq_false_iff.mp (free o member)
        rw [Region.overlaps_eq_false_iff]
        omega
      obtain ⟨result, adds, inserted⟩ := add_nolimitcheck_inserted ascending partFree (by omega)
        (by omega) (by omega)
      exact ⟨part, result, begins, by omega, by rw [last, made, ok_bind, adds], inserted⟩
    · obtain ⟨result, adds, inserted⟩ := add_nolimitcheck_inserted ascending free (by omega)
        (by omega) (by omega)
      exact ⟨mem, result, rfl, by omega, adds, inserted⟩

/-- What holds of every list of a clean run. -/
structure LimitInvariant (added : List (Region W)) (l : RegionList W) : Prop where
  ascending : Ascending l.reg
  combinedSize : l.combinedSize = bytesOf l.reg
  origin : ∀ e ∈ l.reg, ∃ r ∈ added, r.begin ≤ e.begin ∧ e.last ≤ r.last
  limits : WithinLimits l

/-- A clean addition: the list is unchanged and nothing is allowed, or the
allowed bytes are one new entry. -/
theorem clean_add_inserted {added : List (Region W)} {l : RegionList W} {r : Region W}
    (inv : LimitInvariant added l) (disjoint : ∀ o ∈ added, r.overlaps o = false)
    (clean : CleanAdd l r) :
    (l.allowed r = 0 ∧ l.add r = .ok l) ∨
      ∃ part result, part.begin = r.begin ∧ part.last + 1 = r.begin + l.allowed r ∧
        l.add r = .ok result ∧ Inserted l part result := by
  have ordered := r.ordered
  have bounded := r.bounded
  have free : ∀ e ∈ l.reg, r.overlaps e = false := by
    intro e member
    obtain ⟨o, inAdded, begins, ends⟩ := inv.origin e member
    have apart := Region.overlaps_eq_false_iff.mp (disjoint o inAdded)
    rw [Region.overlaps_eq_false_iff]
    omega
  unfold RegionList.allowed
  rcases clean with above | ⟨straddles, notOne, word, room⟩
  · left
    have valid : ¬ r.invalid = true := by
      simp only [Region.invalid, Bool.and_eq_true, decide_eq_true_eq]
      omega
    exact ⟨if_pos above, by rw [RegionList.add, if_neg valid, if_pos above]⟩
  · by_cases above : l.addressLimit < r.begin
    · omega
    · unfold RegionList.allowed at notOne room
      rw [if_neg above] at notOne room ⊢
      by_cases isInvalid : r.invalid = true
      · -- the null page is one byte, of which nothing may be allowed
        left
        simp only [Region.invalid, Bool.and_eq_true, decide_eq_true_eq] at isInvalid
        refine ⟨by omega, ?_⟩
        rw [RegionList.add, if_pos (by simp [Region.invalid, isInvalid])]
      · rw [RegionList.add, if_neg isInvalid, if_neg above]
        by_cases beyond : l.addressLimit < r.last
        · -- cut one byte too short, but the size limit is shorter still
          rw [if_pos beyond]
          have limitWord : W.sub l.addressLimit 1 = l.addressLimit - 1 :=
            W.sub_of_le (by omega) (by omega)
          obtain ⟨mem, begins, ends, attr⟩ : ∃ mem : Region W, mem.begin = r.begin ∧
              mem.last = l.addressLimit - 1 ∧ mem.attr = r.attr :=
            ⟨⟨r.begin, l.addressLimit - 1, r.attr, by omega, by omega⟩, rfl, rfl, rfl⟩
          have made : r.setLast (l.addressLimit - 1) = .ok mem :=
            Region.set_last_ok.mpr ⟨begins, ends, attr⟩
          have memFree : ∀ o ∈ l.reg, mem.overlaps o = false := by
            intro o member
            have apart := Region.overlaps_eq_false_iff.mp (free o member)
            rw [Region.overlaps_eq_false_iff]
            omega
          have whole := disjoint_bytes inv.ascending free
          rw [limitWord, made, ok_bind]
          have exact := add_size_limited_exact mem inv.ascending inv.combinedSize memFree
            rfl (by omega) (by omega) (by omega)
          rcases exact with ⟨none, same⟩ | ⟨part, result, partBegin, partLast, adds, inserted⟩
          · exact .inl ⟨by omega, same⟩
          · exact .inr ⟨part, result, by omega, by omega, adds, inserted⟩
        · rw [if_neg beyond]
          have exact := add_size_limited_exact r inv.ascending inv.combinedSize free
            rfl (by omega) (by omega) (by omega)
          rcases exact with ⟨none, same⟩ | ⟨part, result, partBegin, partLast, adds, inserted⟩
          · exact .inl ⟨by omega, same⟩
          · exact .inr ⟨part, result, by omega, by omega, adds, inserted⟩

theorem inserted_contributes {l result : RegionList W} {r part : Region W}
    (begins : part.begin = r.begin) (ends : part.last + 1 = r.begin + l.allowed r)
    (inserted : Inserted l part result) : Contributes l r result := by
  intro p
  rw [Covered, covered_by_perm inserted.perm]
  change Covered (part :: l.reg) p ↔ _
  rw [covered_cons, or_comm]
  unfold Region.Has
  constructor
  · rintro (old | inside)
    · exact .inl old
    · exact .inr ⟨by omega, by omega⟩
  · rintro (old | inside)
    · exact .inl old
    · exact .inr ⟨by omega, by omega⟩

theorem clean_add_invariant {added : List (Region W)} {l result : RegionList W} {r : Region W}
    (inv : LimitInvariant added l) (disjoint : ∀ o ∈ added, r.overlaps o = false)
    (clean : CleanAdd l r) (adds : l.add r = .ok result) :
    LimitInvariant (r :: added) result ∧ result.maxCombinedSize = l.maxCombinedSize ∧
      result.addressLimit = l.addressLimit := by
  have older : ∀ e ∈ l.reg, ∃ o ∈ r :: added, o.begin ≤ e.begin ∧ e.last ≤ o.last := by
    intro e member
    obtain ⟨o, inAdded, inside⟩ := inv.origin e member
    exact ⟨o, by simp [inAdded], inside⟩
  rcases clean_add_inserted inv disjoint clean with
    ⟨none, same⟩ | ⟨part, other, begins, ends, adds', inserted⟩
  · rw [same] at adds
    cases adds
    exact ⟨⟨inv.ascending, inv.combinedSize, older, inv.limits⟩, rfl, rfl⟩
  · rw [adds'] at adds
    cases adds
    have partOrdered := part.ordered
    have isAllowed : l.allowed r = part.last - part.begin + 1 := by omega
    have limited : part.last ≤ l.addressLimit ∧ part.last ≤ r.last ∧
        bytesOf l.reg + (part.last - part.begin + 1) ≤ l.maxCombinedSize := by
      have rOrdered := r.ordered
      unfold RegionList.allowed at isAllowed
      split_ifs at isAllowed with above
      omega
    refine ⟨⟨inserted.ascending, ?_, ?_, ?_, ?_⟩, inserted.maxCombinedSize, inserted.addressLimit⟩
    · rw [inserted.combinedSize, inv.combinedSize, bytes_of_perm inserted.perm, bytes_of_cons]
      omega
    · intro e member
      rcases List.mem_cons.mp (inserted.perm.mem_iff.mp member) with rfl | old
      · exact ⟨r, by simp, begins.ge, limited.2.1⟩
      · exact older e old
    · intro e member
      rw [inserted.addressLimit]
      rcases List.mem_cons.mp (inserted.perm.mem_iff.mp member) with rfl | old
      · exact limited.1
      · exact inv.limits.address e old
    · rw [inserted.maxCombinedSize, bytes_of_perm inserted.perm, bytes_of_cons]
      omega

theorem clean_run_invariant {capacity maxCombinedSize addressLimit : Nat}
    {added : List (Region W)} {l : RegionList W}
    (run : CleanRun capacity maxCombinedSize addressLimit added l) :
    LimitInvariant added l ∧ l.maxCombinedSize = maxCombinedSize ∧
      l.addressLimit = addressLimit := by
  induction run with
  | init =>
      refine ⟨⟨.nil, rfl, by simp [RegionList.init], ⟨by simp [RegionList.init], ?_⟩⟩, rfl, rfl⟩
      exact Nat.zero_le _
  | step prior disjoint clean adds ih =>
      obtain ⟨inv, sameSize, sameAddress⟩ := clean_add_invariant ih.1 disjoint clean adds
      exact ⟨inv, sameSize.trans ih.2.1, sameAddress.trans ih.2.2⟩

/-- In every run of clean additions the limits hold, and each further clean
addition returns and contributes exactly what they allow. -/
theorem limit_clipping_exact {capacity maxCombinedSize addressLimit : Nat}
    {added : List (Region W)} {l : RegionList W}
    (run : CleanRun capacity maxCombinedSize addressLimit added l) :
    (∀ e ∈ l.reg, e.last ≤ addressLimit) ∧ bytesOf l.reg ≤ maxCombinedSize ∧
      l.maxCombinedSize = maxCombinedSize ∧ l.addressLimit = addressLimit ∧
      ∀ r, (∀ o ∈ added, r.overlaps o = false) → CleanAdd l r →
        ∃ result, l.add r = .ok result ∧ Contributes l r result := by
  obtain ⟨inv, sameSize, sameAddress⟩ := clean_run_invariant run
  refine ⟨?_, ?_, sameSize, sameAddress, ?_⟩
  · rw [← sameAddress]
    exact inv.limits.address
  · rw [← sameSize]
    exact inv.limits.combined
  · intro r disjoint clean
    rcases clean_add_inserted inv disjoint clean with
      ⟨none, same⟩ | ⟨part, result, begins, ends, adds, inserted⟩
    · refine ⟨l, same, ?_⟩
      intro p
      rw [none]
      constructor
      · exact .inl
      · rintro (old | inside)
        · exact old
        · omega
    · exact ⟨result, adds, inserted_contributes begins ends inserted⟩

def firstPage : Region .w32 := .fixed 0x1000 0x1fff {} (.refl true)

def twoPages : Region .w32 := ⟨0x3000, 0x4fff, {}, by decide, by decide⟩

/-- A list for at most 0x1800 bytes that holds a page already. -/
def pageAndHalf : RegionList .w32 := ⟨[firstPage], 16, 0x1800, 0xffff, 0x1000⟩

theorem limit_clipping_second_page :
    ∃ result, pageAndHalf.add twoPages = .ok result ∧ Contributes pageAndHalf twoPages result := by
  have run : CleanRun 16 0x1800 0xffff [firstPage] pageAndHalf := by
    apply CleanRun.step .init (by simp)
    · unfold CleanAdd
      decide
    · decide
  have clean : CleanAdd pageAndHalf twoPages := by
    unfold CleanAdd
    decide
  exact (limit_clipping_exact run).2.2.2.2 twoPages (by decide) clean

/-- The RAM list of a 32-bit boot: the last allowed byte is not added, and a
region that begins with it fails an assertion. -/
theorem highest_address_is_lost :
    let list : RegionList .w32 := RegionList.init 16 Wordsize.w32.maxWord 0xbcffffff
    (∃ result, list.add ⟨0xb0000000, 0xbfffffff, {}, by decide, by decide⟩ = .ok result ∧
      ¬ Contributes list ⟨0xb0000000, 0xbfffffff, {}, by decide, by decide⟩ result) ∧
      list.add ⟨0xbcffffff, 0xbfffffff, {}, by decide, by decide⟩ = .error .assertion := by
  intro list
  refine ⟨⟨⟨[⟨0xb0000000, 0xbcfffffe, {}, by decide, by decide⟩], 16, Wordsize.w32.maxWord,
    0xbcffffff, 0xcffffff⟩, by decide, ?_⟩, by decide⟩
  intro contributes
  have lost := (contributes 0xbcffffff).mpr (.inr (by decide))
  rw [covered_singleton] at lost
  unfold Region.Has at lost
  revert lost
  decide

end L4Bootstrap
