import L4Bootstrap.ElfReservation
import L4Bootstrap.FreeSearch

/-!
# What a region list covers

A list protects the bytes of its entries, whatever their order. Insertion keeps
all entries, but a full store is first optimized, and merging two entries keeps
their bytes only if the later one reaches at least as far. `MergeOrder` says so
for entries with equal attributes; it holds while ELF segments overlap temporary
regions and survives removal and insertion at free places. Merging also fills
the gap between two entries, but never a whole free page.
-/

namespace L4Bootstrap

open MachineWord CheckedLoop

set_option autoImplicit false

variable {W : Wordsize}

/-- A byte of an entry whose attributes satisfy `keep`. -/
def CoveredBy (reg : List (Region W)) (keep : Attr → Prop) (p : Nat) : Prop :=
  ∃ r ∈ reg, keep r.attr ∧ r.begin ≤ p ∧ p ≤ r.last

/-- No entry has a byte in common with `size` bytes from `t`. -/
def FreeIn (reg : List (Region W)) (size t : Nat) : Prop :=
  ∀ z ∈ reg, z.last < t ∨ t + size - 1 < z.begin

structure MergeOrder (reg : List (Region W)) : Prop where
  reaches : reg.Pairwise fun r o => r.begin ≤ o.last
  same : reg.Pairwise fun r o => r.attr = o.attr → r.begin ≤ o.begin ∧ r.last ≤ o.last

theorem interleaved_merge_order {reg : List (Region W)} (mixed : Interleaved reg) :
    MergeOrder reg := by
  refine ⟨mixed.reaches, ?_⟩
  apply (mixed.lasting.and mixed.temporary).imp
  rintro r o ⟨lasting, temporary⟩ sameAttr
  have rOrdered := r.ordered
  have oOrdered := o.ordered
  have kind : r.isTemporary = o.isTemporary := by
    unfold Region.isTemporary
    rw [sameAttr]
  cases isTemporary : o.isTemporary with
  | false =>
      have below := lasting isTemporary
      omega
  | true =>
      have below := temporary (kind.trans isTemporary) isTemporary
      omega

theorem MergeOrder.sublist {part reg : List (Region W)} (order : MergeOrder reg)
    (sub : part.Sublist reg) : MergeOrder part :=
  ⟨order.reaches.sublist sub, order.same.sublist sub⟩

theorem FreeIn.sublist {part reg : List (Region W)} {size t : Nat} (free : FreeIn reg size t)
    (sub : part.Sublist reg) : FreeIn part size t :=
  fun z member => free z (sub.subset member)

theorem CoveredBy.of_mem {part reg : List (Region W)} {keep : Attr → Prop} {p : Nat}
    (covered : CoveredBy part keep p) (sub : ∀ r ∈ part, r ∈ reg) : CoveredBy reg keep p := by
  obtain ⟨r, member, kept, inside⟩ := covered
  exact ⟨r, sub r member, kept, inside⟩

/-- A covered byte lies in no free area. -/
theorem CoveredBy.outside {reg : List (Region W)} {keep : Attr → Prop} {p size t : Nat}
    (covered : CoveredBy reg keep p) (free : FreeIn reg size t) : p < t ∨ t + size ≤ p := by
  obtain ⟨r, member, _, above, below⟩ := covered
  have apart := free r member
  omega

namespace RegionList

/-! ## Merging -/

/-- Each entry of an optimized list begins where an old entry begins and ends
where an old entry with equal attributes ends. -/
theorem optimize_from_origin {c : Region W} {rest result : List (Region W)}
    (made : optimizeFrom c rest = .ok result) {r : Region W} (member : r ∈ result) :
    ∃ x ∈ c :: rest, ∃ y ∈ c :: rest, r.begin = x.begin ∧ r.last = y.last ∧ r.attr = x.attr ∧
      y.attr = x.attr := by
  induction rest generalizing c result with
  | nil =>
      cases made
      rw [List.mem_singleton.mp member]
      exact ⟨c, by simp, c, by simp, rfl, rfl, rfl, rfl⟩
  | cons n rest ih =>
      rw [optimizeFrom] at made
      split_ifs at made with merge
      · obtain ⟨merged, isMerged, made⟩ := bind_ok_iff.mp made
        obtain ⟨begins, ends, attr⟩ := Region.set_last_ok.mp isMerged
        have sameAttr : n.attr = c.attr := by
          simp only [mergeable, Bool.and_eq_true, decide_eq_true_eq] at merge
          exact merge.1
        have lift : ∀ x ∈ merged :: rest, ∃ z ∈ c :: n :: rest,
            x.begin = z.begin ∧ x.attr = z.attr := by
          intro x inMerged
          rcases List.mem_cons.mp inMerged with rfl | inRest
          · exact ⟨c, by simp, begins, attr⟩
          · exact ⟨x, by simp [inRest], rfl, rfl⟩
        have liftLast : ∀ y ∈ merged :: rest, ∃ z ∈ c :: n :: rest,
            y.last = z.last ∧ y.attr = z.attr := by
          intro y inMerged
          rcases List.mem_cons.mp inMerged with rfl | inRest
          · exact ⟨n, by simp, ends, attr.trans sameAttr.symm⟩
          · exact ⟨y, by simp [inRest], rfl, rfl⟩
        obtain ⟨x, xMember, y, yMember, xBegin, yLast, xAttr, yAttr⟩ := ih made member
        obtain ⟨x', x'Member, x'Begin, x'Attr⟩ := lift x xMember
        obtain ⟨y', y'Member, y'Last, y'Attr⟩ := liftLast y yMember
        exact ⟨x', x'Member, y', y'Member, xBegin.trans x'Begin, yLast.trans y'Last,
          xAttr.trans x'Attr, y'Attr.symm.trans (yAttr.trans x'Attr)⟩
      · obtain ⟨tail, isTail, made⟩ := bind_ok_iff.mp made
        cases made
        rcases List.mem_cons.mp member with rfl | inTail
        · exact ⟨r, by simp, r, by simp, rfl, rfl, rfl, rfl⟩
        · obtain ⟨x, xMember, y, yMember, facts⟩ := ih isTail inTail
          exact ⟨x, by simp [List.mem_cons.mp xMember], y, by simp [List.mem_cons.mp yMember], facts⟩

/-- The first entry of a merge order with its last address moved to that of the
next one. -/
theorem merge_order_merged {c n merged : Region W} {rest : List (Region W)}
    (order : MergeOrder (c :: n :: rest)) (sameAttr : n.attr = c.attr)
    (isMerged : c.setLast n.last = .ok merged) : MergeOrder (merged :: rest) := by
  obtain ⟨begins, ends, attr⟩ := Region.set_last_ok.mp isMerged
  obtain ⟨cReaches, reaches⟩ := List.pairwise_cons.mp order.reaches
  obtain ⟨cSame, same⟩ := List.pairwise_cons.mp order.same
  obtain ⟨_, restReaches⟩ := List.pairwise_cons.mp reaches
  obtain ⟨nSame, restSame⟩ := List.pairwise_cons.mp same
  constructor
  · refine .cons ?_ restReaches
    intro o member
    rw [begins]
    exact cReaches o (by simp [member])
  · refine .cons ?_ restSame
    intro o member equal
    rw [begins, ends]
    exact ⟨(cSame o (by simp [member]) (attr.symm.trans equal)).1,
      (nSame o member (sameAttr.trans (attr.symm.trans equal))).2⟩

theorem optimize_from_order {c : Region W} {rest result : List (Region W)}
    (order : MergeOrder (c :: rest)) (made : optimizeFrom c rest = .ok result) :
    MergeOrder result := by
  induction rest generalizing c result with
  | nil =>
      cases made
      exact order
  | cons n rest ih =>
      rw [optimizeFrom] at made
      split_ifs at made with merge
      · obtain ⟨merged, isMerged, made⟩ := bind_ok_iff.mp made
        simp only [mergeable, Bool.and_eq_true, decide_eq_true_eq] at merge
        exact ih (merge_order_merged order merge.1 isMerged) made
      · obtain ⟨tail, isTail, made⟩ := bind_ok_iff.mp made
        cases made
        obtain ⟨cReaches, reaches⟩ := List.pairwise_cons.mp order.reaches
        obtain ⟨cSame, same⟩ := List.pairwise_cons.mp order.same
        have tailOrder := ih ⟨reaches, same⟩ isTail
        constructor
        · refine .cons ?_ tailOrder.reaches
          intro o member
          obtain ⟨x, xMember, y, yMember, _, yLast, _⟩ := optimize_from_origin isTail member
          rw [yLast]
          exact cReaches y yMember
        · refine .cons ?_ tailOrder.same
          intro o member equal
          obtain ⟨x, xMember, y, yMember, xBegin, yLast, xAttr, yAttr⟩ :=
            optimize_from_origin isTail member
          rw [xBegin, yLast]
          exact ⟨(cSame x xMember (equal.trans xAttr)).1,
            (cSame y yMember (equal.trans (xAttr.trans yAttr.symm))).2⟩

theorem optimize_from_covers {c : Region W} {rest result : List (Region W)} {keep : Attr → Prop}
    {p : Nat} (order : MergeOrder (c :: rest)) (made : optimizeFrom c rest = .ok result)
    (covered : CoveredBy (c :: rest) keep p) : CoveredBy result keep p := by
  induction rest generalizing c result with
  | nil =>
      cases made
      exact covered
  | cons n rest ih =>
      rw [optimizeFrom] at made
      split_ifs at made with merge
      · obtain ⟨merged, isMerged, made⟩ := bind_ok_iff.mp made
        simp only [mergeable, Bool.and_eq_true, decide_eq_true_eq] at merge
        apply ih (merge_order_merged order merge.1 isMerged) made
        obtain ⟨begins, ends, attr⟩ := Region.set_last_ok.mp isMerged
        have reach := (List.pairwise_cons.mp order.same).1 n (by simp) merge.1.symm
        obtain ⟨r, member, kept, above, below⟩ := covered
        rcases List.mem_cons.mp member with rfl | inTail
        · exact ⟨merged, by simp, by rw [attr]; exact kept, by omega, by omega⟩
        · rcases List.mem_cons.mp inTail with rfl | inRest
          · exact ⟨merged, by simp, by rw [attr, ← merge.1]; exact kept, by omega, by omega⟩
          · exact ⟨r, by simp [inRest], kept, above, below⟩
      · obtain ⟨tail, isTail, made⟩ := bind_ok_iff.mp made
        cases made
        have tailOrder : MergeOrder (n :: rest) := order.sublist (List.sublist_cons_self c _)
        obtain ⟨r, member, kept, inside⟩ := covered
        rcases List.mem_cons.mp member with rfl | inTail
        · exact ⟨r, by simp, kept, inside⟩
        · exact (ih tailOrder isTail ⟨r, inTail, kept, inside⟩).of_mem fun o inOut => by simp [inOut]

/-- The gap between two entries that are merged holds no whole page. -/
theorem merged_free {c n : Region W} {size t : Nat} (merge : mergeable c n = true)
    (aligned : 2 ^ pageShift ∣ t) (whole : 2 ^ pageShift ∣ size) (pos : 0 < size)
    (cFree : c.last < t ∨ t + size - 1 < c.begin)
    (nFree : n.last < t ∨ t + size - 1 < n.begin) : n.last < t ∨ t + size - 1 < c.begin := by
  simp only [mergeable, Bool.and_eq_true, decide_eq_true_eq] at merge
  rcases nFree with below | above
  · exact .inl below
  · rcases cFree with cBelow | cAbove
    · have low : roundPage W c.last ≤ t := by
        rw [roundPage, W.round_size_mod (page_shift_le_bits W)]
        exact (Nat.mod_le _ _).trans (round_up_le aligned cBelow.le)
      have high : t + size ≤ truncPage n.begin :=
        le_trunc_size (Nat.dvd_add aligned whole) (by omega)
      omega
    · exact .inr cAbove

theorem optimize_from_free {c : Region W} {rest result : List (Region W)} {size t : Nat}
    (order : MergeOrder (c :: rest)) (made : optimizeFrom c rest = .ok result)
    (aligned : 2 ^ pageShift ∣ t) (whole : 2 ^ pageShift ∣ size) (pos : 0 < size)
    (free : FreeIn (c :: rest) size t) : FreeIn result size t := by
  induction rest generalizing c result with
  | nil =>
      cases made
      exact free
  | cons n rest ih =>
      rw [optimizeFrom] at made
      split_ifs at made with merge
      · obtain ⟨merged, isMerged, made⟩ := bind_ok_iff.mp made
        obtain ⟨begins, ends, _⟩ := Region.set_last_ok.mp isMerged
        have sameAttr : n.attr = c.attr := by
          simp only [mergeable, Bool.and_eq_true, decide_eq_true_eq] at merge
          exact merge.1
        apply ih (merge_order_merged order sameAttr isMerged) made
        intro z member
        rcases List.mem_cons.mp member with rfl | inRest
        · rw [begins, ends]
          exact merged_free merge aligned whole pos (free c (by simp)) (free n (by simp))
        · exact free z (by simp [inRest])
      · obtain ⟨tail, isTail, made⟩ := bind_ok_iff.mp made
        cases made
        have tailFree := ih (order.sublist (List.sublist_cons_self c _)) isTail
          (free.sublist (List.sublist_cons_self c _))
        intro z member
        rcases List.mem_cons.mp member with rfl | inTail
        · exact free z (by simp)
        · exact tailFree z inTail

/-- A list after merging: in order, with at least the bytes it covered, and
with the same free pages. -/
structure Merged (before after : List (Region W)) : Prop where
  order : MergeOrder after
  covers : ∀ keep p, CoveredBy before keep p → CoveredBy after keep p
  free : ∀ size t, 2 ^ pageShift ∣ t → 2 ^ pageShift ∣ size → 0 < size → FreeIn before size t →
    FreeIn after size t

theorem optimize_merged {l result : RegionList W} (order : MergeOrder l.reg)
    (made : l.optimize = .ok result) :
    Merged l.reg result.reg ∧ result = { l with reg := result.reg } := by
  unfold optimize at made
  cases entries : l.reg with
  | nil =>
      rw [entries] at made
      cases made
      rw [entries] at order ⊢
      exact ⟨⟨order, fun _ _ covered => covered, fun _ _ _ _ _ free => free⟩, by rw [← entries]⟩
  | cons c rest =>
      rw [entries] at made order
      obtain ⟨reg, isReg, made⟩ := bind_ok_iff.mp made
      cases made
      exact ⟨⟨optimize_from_order order isReg, fun keep p => optimize_from_covers order isReg,
        fun size t => optimize_from_free order isReg⟩, rfl⟩

theorem make_room_cases {l result : RegionList W} (made : l.makeRoom = .ok result) :
    result = l ∨ l.optimize = .ok result := by
  unfold makeRoom at made
  split_ifs at made with full
  · obtain ⟨merged, isMerged, made⟩ := bind_ok_iff.mp made
    split_ifs at made with stillFull
    · cases made
    · cases made
      exact .inr isMerged
  · cases made
    exact .inl rfl

theorem make_room_merged {l result : RegionList W} (order : MergeOrder l.reg)
    (made : l.makeRoom = .ok result) :
    Merged l.reg result.reg ∧ result = { l with reg := result.reg } := by
  rcases make_room_cases made with rfl | isMerged
  · exact ⟨⟨order, fun _ _ covered => covered, fun _ _ _ _ _ free => free⟩, rfl⟩
  · exact optimize_merged order isMerged

/-- A list with room is made of beginnings and ends of entries with equal attributes. -/
theorem make_room_origin {l after : RegionList W} {r : Region W} (made : l.makeRoom = .ok after)
    (member : r ∈ after.reg) :
    ∃ x ∈ l.reg, ∃ y ∈ l.reg, r.begin = x.begin ∧ r.last = y.last ∧ r.attr = x.attr ∧
      y.attr = x.attr := by
  rcases make_room_cases made with rfl | isMerged
  · exact ⟨r, member, r, member, rfl, rfl, rfl, rfl⟩
  · unfold optimize at isMerged
    cases entries : l.reg with
    | nil =>
        rw [entries] at isMerged
        cases isMerged
        rw [entries] at member
        cases member
    | cons c rest =>
        rw [entries] at isMerged
        obtain ⟨reg, optimized, isMerged⟩ := bind_ok_iff.mp isMerged
        cases isMerged
        exact optimize_from_origin optimized member

/-! ## What `add` inserts -/

theorem insert_split {reg result : List (Region W)} {region : Region W} {mayOverlap : Bool}
    (inserted : insert reg region mayOverlap = .ok result) :
    ∃ front back, reg = front ++ back ∧ result = front ++ region :: back := by
  unfold insert at inserted
  cases isLast : reg.getLast? with
  | none =>
      rw [isLast] at inserted
      cases inserted
      exact ⟨[], [], List.getLast?_eq_none_iff.mp isLast, rfl⟩
  | some last =>
      simp only [isLast] at inserted
      split_ifs at inserted with behind
      · cases inserted
        exact ⟨reg, [], (List.append_nil reg).symm, rfl⟩
      · obtain ⟨front, back, whole, result, _⟩ := insert_from_ok inserted
        exact ⟨front, back, whole, result⟩

theorem insert_perm {reg result : List (Region W)} {region : Region W} {mayOverlap : Bool}
    (inserted : insert reg region mayOverlap = .ok result) :
    result.Perm (region :: reg) := by
  obtain ⟨front, back, rfl, rfl⟩ := insert_split inserted
  exact List.perm_middle

/-- Inside the limits `add` is `add_nolimitcheck`. -/
theorem add_in_limit {l : RegionList W} {region : Region W} (mayOverlap : Bool)
    (limits : l.InLimit region) (two : region.begin < region.last) :
    l.add region mayOverlap = l.addNolimitcheck region mayOverlap := by
  obtain ⟨address, unused, combined⟩ := limits
  have valid : ¬ region.invalid = true := by
    simp only [Region.invalid, Bool.and_eq_true, decide_eq_true_eq]
    omega
  rw [add, if_neg valid, if_neg (by omega), if_neg (by omega), addSizeLimited,
    if_neg (by omega), if_neg (by omega)]

theorem add_nolimitcheck_ok {l after : RegionList W} {region : Region W} {mayOverlap : Bool}
    (two : region.begin < region.last) (added : l.addNolimitcheck region mayOverlap = .ok after) :
    ∃ roomy, l.makeRoom = .ok roomy ∧ insert roomy.reg region mayOverlap = .ok after.reg := by
  rw [addNolimitcheck, if_neg (by omega)] at added
  obtain ⟨roomy, madeRoom, added⟩ := bind_ok_iff.mp added
  obtain ⟨reg, inserted, same⟩ := bind_ok_iff.mp added
  cases same
  exact ⟨roomy, madeRoom, inserted⟩

theorem add_nolimitcheck_cases {l after : RegionList W} {region : Region W} {mayOverlap : Bool}
    (added : l.addNolimitcheck region mayOverlap = .ok after) :
    after = l ∨ region.begin < region.last ∧ ∃ roomy, l.makeRoom = .ok roomy ∧
      insert roomy.reg region mayOverlap = .ok after.reg := by
  have ordered := region.ordered
  by_cases single : region.begin = region.last
  · rw [addNolimitcheck, if_pos single] at added
    cases added
    exact .inl rfl
  · have two : region.begin < region.last := by omega
    exact .inr ⟨two, add_nolimitcheck_ok two added⟩

/-- The end that the size limit leaves of a region lies below its own end. -/
theorem clipped_last_lt (W : Wordsize) {begin size used limit : Nat} (unused : used < limit)
    (part : size < W.modulus) (fits : begin + size ≤ W.modulus)
    (exceeds : limit < W.add used size) :
    W.sub (W.sub (W.add begin limit) used) 1 < begin + size - 1 := by
  cases W <;>
    simp only [Wordsize.add, Wordsize.sub, Wordsize.modulus, Wordsize.bits] at * <;> omega

theorem add_size_limited_part {l after : RegionList W} {mem : Region W}
    (added : l.addSizeLimited mem false = .ok after) :
    after = l ∨ ∃ part : Region W, part.begin = mem.begin ∧ part.attr = mem.attr ∧
      (part.last < mem.last ∧ mem.last - mem.begin + 1 < W.modulus ∨
        part = mem ∧ l.combinedSize < l.maxCombinedSize ∧
          W.add l.combinedSize mem.size ≤ l.maxCombinedSize) ∧
      l.addNolimitcheck part false = .ok after := by
  have ordered := mem.ordered
  have bounded := mem.bounded
  unfold addSizeLimited at added
  split_ifs at added with full exceeds
  · cases added
    exact .inl rfl
  · right
    obtain ⟨part, isPart, added⟩ := bind_ok_iff.mp added
    obtain ⟨begins, ends, attr⟩ := Region.set_last_ok.mp isPart
    have extent : mem.last - mem.begin + 1 < W.modulus := by
      by_contra whole
      have noSize : mem.size = 0 := by
        have all : mem.last - mem.begin + 1 = W.modulus := by omega
        rw [Region.size, W.sub_of_le ordered bounded, Wordsize.add, all, Nat.mod_self]
      rw [noSize, Wordsize.add, Nat.add_zero] at exceeds
      have := Nat.mod_le l.combinedSize W.modulus
      omega
    rw [Region.size_eq extent] at exceeds
    have below := clipped_last_lt W (Nat.lt_of_not_le full) extent
      (show mem.begin + _ ≤ W.modulus by omega) exceeds
    exact ⟨part, begins, attr, .inl ⟨by omega, extent⟩, added⟩
  · exact .inr ⟨mem, rfl, rfl, .inr ⟨rfl, by omega, by omega⟩, added⟩

/-- `add` drops a region or inserts a part of it, which is the whole region only inside
the limits. -/
theorem add_part {l after : RegionList W} {region : Region W} (added : l.add region = .ok after) :
    after = l ∨ ∃ part : Region W, part.begin = region.begin ∧ part.attr = region.attr ∧
      (part = region → region.last - region.begin + 1 < W.modulus → l.InLimit region) ∧
      l.addNolimitcheck part false = .ok after := by
  have ordered := region.ordered
  have bounded := region.bounded
  unfold add at added
  split_ifs at added with invalid dropped clipped
  · cases added
    exact .inl rfl
  · cases added
    exact .inl rfl
  · obtain ⟨mem, isMem, added⟩ := bind_ok_iff.mp added
    obtain ⟨begins, ends, attr⟩ := Region.set_last_ok.mp isMem
    refine (add_size_limited_part added).imp id ?_
    rintro ⟨part, partBegins, partAttr, kind, inserted⟩
    refine ⟨part, partBegins.trans begins, partAttr.trans attr, ?_, inserted⟩
    rintro rfl extent
    -- a limit of 0 would leave the whole address space of a smaller region
    have cut : l.addressLimit = 0 ∧ mem.last = W.modulus - 1 ∨ mem.last < part.last := by
      rcases Nat.eq_zero_or_pos l.addressLimit with zero | pos
      · left
        rw [ends, zero, Wordsize.sub, Nat.mod_eq_of_lt (by omega)]
        omega
      · right
        rw [ends, W.sub_of_le pos (by omega)]
        omega
    rcases kind with ⟨below, whole⟩ | ⟨rfl, _⟩ <;> omega
  · refine (add_size_limited_part added).imp id ?_
    rintro ⟨part, partBegins, partAttr, kind, inserted⟩
    refine ⟨part, partBegins, partAttr, ?_, inserted⟩
    rintro rfl _
    rcases kind with ⟨below, _⟩ | ⟨_, unused, combined⟩
    · omega
    · exact ⟨by omega, unused, combined⟩

/-! ## Insertion at a free place -/

theorem merge_order_insert {front back : List (Region W)} {region : Region W}
    (order : MergeOrder (front ++ back)) (below : ∀ r ∈ front, r.last < region.begin)
    (above : ∀ r ∈ back, region.last < r.begin) : MergeOrder (front ++ region :: back) := by
  obtain ⟨reaches, same⟩ := order
  have ordered := region.ordered
  rw [List.pairwise_append] at reaches same
  constructor
  · rw [List.pairwise_append, List.pairwise_cons]
    refine ⟨reaches.1, ⟨?_, reaches.2.1⟩, ?_⟩
    · intro o member
      have := above o member
      have := o.ordered
      omega
    · intro r inFront o member
      rcases List.mem_cons.mp member with rfl | inBack
      · have := below r inFront
        have := r.ordered
        omega
      · exact reaches.2.2 r inFront o inBack
  · rw [List.pairwise_append, List.pairwise_cons]
    refine ⟨same.1, ⟨?_, same.2.1⟩, ?_⟩
    · intro o member _
      have := above o member
      have := o.ordered
      omega
    · intro r inFront o member equal
      rcases List.mem_cons.mp member with rfl | inBack
      · have := below r inFront
        have := r.ordered
        omega
      · exact same.2.2 r inFront o inBack equal

theorem insert_order {reg result : List (Region W)} {region : Region W} (order : MergeOrder reg)
    (apart : ∀ z ∈ reg, z.last < region.begin ∨ region.last < z.begin)
    (inserted : insert reg region false = .ok result) :
    result.Perm (region :: reg) ∧ MergeOrder result := by
  have ordered := region.ordered
  unfold insert at inserted
  cases isLast : reg.getLast? with
  | none =>
      rw [isLast] at inserted
      cases inserted
      rw [List.getLast?_eq_none_iff.mp isLast]
      exact ⟨.refl _, List.pairwise_singleton _ _, List.pairwise_singleton _ _⟩
  | some last =>
      simp only [isLast] at inserted
      split_ifs at inserted with behind
      · cases inserted
        have below : ∀ r ∈ reg, r.last < region.begin := by
          intro r member
          obtain ⟨front, whole⟩ := List.getLast?_eq_some_iff.mp isLast
          have reach : r.begin ≤ last.last := by
            rw [whole] at member order
            rcases List.mem_append.mp member with inFront | same
            · exact (List.pairwise_append.mp order.reaches).2.2 r inFront last (by simp)
            · rw [List.mem_singleton.mp same]
              exact last.ordered
          rw [Region.before_iff] at behind
          rcases apart r member with low | high
          · exact low
          · omega
        refine ⟨List.perm_append_comm, merge_order_insert ?_ below (by simp)⟩
        rw [List.append_nil]
        exact order
      · obtain ⟨front, back, rfl, rfl, below, head⟩ := insert_from_ok inserted
        have above : ∀ r ∈ back, region.last < r.begin := by
          cases back with
          | nil => simp
          | cons first rest =>
              have firstAbove := (head first rfl).2 rfl
              intro r member
              rcases List.mem_cons.mp member with rfl | inRest
              · exact firstAbove
              · have reach := (List.pairwise_cons.mp
                  (List.pairwise_append.mp order.reaches).2.1).1 r inRest
                rcases apart r (by simp [inRest]) with low | high
                · omega
                · exact high
        exact ⟨List.perm_middle, merge_order_insert order below above⟩

/-- A list without limits that takes `bytes` more bytes. -/
structure Unlimited (l : RegionList W) (bytes : Nat) : Prop where
  address : l.addressLimit = W.maxWord
  combined : l.maxCombinedSize = W.maxWord
  room : l.combinedSize + bytes < W.maxWord

/-- What `add` does with a region of at least two bytes in free pages. -/
structure Added (before : RegionList W) (region : Region W) (after : RegionList W) : Prop where
  order : MergeOrder after.reg
  covers : ∀ keep p, CoveredBy before.reg keep p → CoveredBy after.reg keep p
  member : region ∈ after.reg
  free : ∀ size t, 2 ^ pageShift ∣ t → 2 ^ pageShift ∣ size → 0 < size →
    FreeIn before.reg size t → (region.last < t ∨ t + size - 1 < region.begin) →
      FreeIn after.reg size t
  unlimited : ∀ bytes, before.Unlimited (region.last - region.begin + 1 + bytes) →
    after.Unlimited bytes

theorem add_added {l result : RegionList W} {region : Region W} {size t bytes : Nat}
    (order : MergeOrder l.reg) (limits : l.Unlimited bytes) (two : region.begin < region.last)
    (small : region.last - region.begin + 1 ≤ bytes) (aligned : 2 ^ pageShift ∣ t)
    (whole : 2 ^ pageShift ∣ size) (free : FreeIn l.reg size t)
    (inside : t ≤ region.begin ∧ region.last < t + size) (added : l.add region = .ok result) :
    Added l region result := by
  obtain ⟨address, combined, room⟩ := limits
  have bounded := region.bounded
  have modulusPos := W.modulus_pos
  have maxWord : W.maxWord = W.modulus - 1 := rfl
  have regionSize : region.size = region.last - region.begin + 1 := Region.size_eq (by omega)
  have sum : W.add l.combinedSize region.size = l.combinedSize + region.size :=
    W.add_of_lt (by omega)
  have valid : ¬ region.invalid = true := by
    simp only [Region.invalid, Bool.and_eq_true, decide_eq_true_eq]
    omega
  rw [add, if_neg valid, if_neg (by omega), if_neg (by omega), addSizeLimited, if_neg (by omega),
    sum, if_neg (by omega), addNolimitcheck, if_neg (by omega)] at added
  obtain ⟨roomy, isRoomy, added⟩ := bind_ok_iff.mp added
  obtain ⟨merged, same⟩ := make_room_merged order isRoomy
  obtain ⟨reg, inserted, added⟩ := bind_ok_iff.mp added
  cases added
  have pos : 0 < size := by omega
  have apart : ∀ z ∈ roomy.reg, z.last < region.begin ∨ region.last < z.begin := by
    intro z member
    have zFree := merged.free size t aligned whole pos free z member
    omega
  obtain ⟨perm, kept⟩ := insert_order merged.order apart inserted
  have fields : roomy.addressLimit = l.addressLimit ∧ roomy.maxCombinedSize = l.maxCombinedSize ∧
      roomy.combinedSize = l.combinedSize := by
    rw [same]
    exact ⟨rfl, rfl, rfl⟩
  constructor
  · exact kept
  · intro keep p covered
    exact (merged.covers keep p covered).of_mem fun r member => perm.mem_iff.mpr (by simp [member])
  · exact perm.mem_iff.mpr (by simp)
  · intro other s otherAligned otherWhole otherPos otherFree clear z member
    rcases List.mem_cons.mp (perm.mem_iff.mp member) with rfl | inOld
    · exact clear
    · exact merged.free other s otherAligned otherWhole otherPos otherFree z inOld
  · intro more limits
    have := limits.room
    refine ⟨fields.1.trans address, fields.2.1.trans combined, ?_⟩
    change W.add roomy.combinedSize region.size + more < _
    rw [fields.2.2, sum]
    omega

end RegionList

end L4Bootstrap
