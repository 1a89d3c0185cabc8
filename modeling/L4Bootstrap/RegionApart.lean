import L4Bootstrap.RegionCover
import Mathlib.Data.List.Pairwise

/-!
# Entries that keep others apart

An entry with attributes of its own is never merged. Other entries are, and merging two of
them fills the gap between them; the gap can hold bytes that belong to something else. It
does not where an entry of that something stands between the two, since only neighbours with
equal attributes are merged.
-/

namespace L4Bootstrap

open MachineWord CheckedLoop

set_option autoImplicit false

variable {W : Wordsize}

/-! ## An entry with attributes of its own -/

/-- `region` is the only entry with its attributes. -/
structure Sole (reg : List (Region W)) (region : Region W) : Prop where
  member : region ∈ reg
  unique : ∀ r ∈ reg, r.attr = region.attr → r = region

section

variable {reg result : List (Region W)} {l after : RegionList W} {region other : Region W}

theorem make_room_attr {a : Attr} (made : l.makeRoom = .ok after)
    (fresh : ∀ r ∈ l.reg, r.attr ≠ a) : ∀ r ∈ after.reg, r.attr ≠ a := by
  intro r member
  obtain ⟨x, inList, _, _, _, _, attr, _⟩ := RegionList.make_room_origin made member
  rw [attr]
  exact fresh x inList

theorem make_room_sole (order : MergeOrder l.reg) (made : l.makeRoom = .ok after)
    (sole : Sole l.reg region) : Sole after.reg region := by
  have unique : ∀ r ∈ after.reg, r.attr = region.attr → r = region := by
    intro r member sameAttr
    obtain ⟨x, inList, y, alsoIn, begins, ends, attr, equal⟩ :=
      RegionList.make_room_origin made member
    rw [sole.unique x inList (attr.symm.trans sameAttr)] at begins
    rw [sole.unique y alsoIn (equal.trans (attr.symm.trans sameAttr))] at ends
    cases r
    cases region
    simp_all
  have covered : CoveredBy l.reg (fun attr => attr = region.attr) region.begin :=
    ⟨region, sole.member, rfl, le_rfl, region.ordered⟩
  have merged := RegionList.make_room_merged order made
  obtain ⟨r, member, sameAttr, _⟩ := merged.1.covers _ _ covered
  have same := unique r member sameAttr
  rw [same] at member
  exact ⟨member, unique⟩

theorem Sole.of_perm (perm : result.Perm (region :: reg))
    (fresh : ∀ r ∈ reg, r.attr ≠ region.attr) : Sole result region := by
  refine ⟨perm.mem_iff.mpr (by simp), fun r member sameAttr => ?_⟩
  rcases List.mem_cons.mp (perm.mem_iff.mp member) with same | inReg
  · exact same
  · exact absurd sameAttr (fresh r inReg)

theorem Sole.with_other (sole : Sole reg region) (different : other.attr ≠ region.attr)
    (perm : result.Perm (other :: reg)) : Sole result region := by
  refine ⟨perm.mem_iff.mpr (by simp [sole.member]), fun r member sameAttr => ?_⟩
  rcases List.mem_cons.mp (perm.mem_iff.mp member) with rfl | inReg
  · exact absurd sameAttr different
  · exact sole.unique r inReg sameAttr

/-- The first region with its attributes in a list that neither drops nor clips it. -/
theorem add_sole (limits : l.InLimit region) (two : region.begin < region.last)
    (fresh : ∀ r ∈ l.reg, r.attr ≠ region.attr) (added : l.add region = .ok after) :
    Sole after.reg region := by
  rw [RegionList.add_in_limit false limits two] at added
  obtain ⟨roomy, madeRoom, inserted⟩ := RegionList.add_nolimitcheck_ok two added
  exact Sole.of_perm (RegionList.insert_perm inserted) (make_room_attr madeRoom fresh)

/-- It stays when a region with other attributes is added. -/
theorem add_other_sole (order : MergeOrder l.reg) (sole : Sole l.reg region)
    (different : other.attr ≠ region.attr) (added : l.add other = .ok after) :
    Sole after.reg region := by
  rcases RegionList.add_part added with rfl | ⟨part, _, attr, _, added⟩
  · exact sole
  · rcases RegionList.add_nolimitcheck_cases added with rfl | ⟨_, roomy, madeRoom, inserted⟩
    · exact sole
    · exact (make_room_sole order madeRoom sole).with_other (by rw [attr]; exact different)
        (RegionList.insert_perm inserted)

end

/-! ## Entries that do not overlap each other -/

/-- The entries whose attributes satisfy `keep` are disjoint. -/
def EntriesApart (keep : Attr → Prop) (reg : List (Region W)) : Prop :=
  reg.Pairwise fun r o => keep r.attr → keep o.attr → r.last < o.begin ∨ o.last < r.begin

section

variable {keep : Attr → Prop} {reg result : List (Region W)} {l after : RegionList W}

theorem EntriesApart.sublist {part : List (Region W)} (apart : EntriesApart keep reg)
    (sub : part.Sublist reg) : EntriesApart keep part :=
  List.Pairwise.sublist sub apart

theorem EntriesApart.of_perm {other : List (Region W)} (apart : EntriesApart keep reg)
    (perm : other.Perm reg) : EntriesApart keep other := by
  refine (perm.pairwise_iff ?_).mpr apart
  intro r o either oKept rKept
  exact (either rKept oKept).symm

theorem EntriesApart.distinct {r o : Region W} (apart : EntriesApart keep reg) (rMember : r ∈ reg)
    (oMember : o ∈ reg) (rKept : keep r.attr) (oKept : keep o.attr) (differ : r ≠ o) :
    r.last < o.begin ∨ o.last < r.begin := by
  have symm : Std.Symm fun r o : Region W =>
      keep r.attr → keep o.attr → r.last < o.begin ∨ o.last < r.begin :=
    ⟨fun _ _ either oKept rKept => (either rKept oKept).symm⟩
  exact List.Pairwise.forall apart rMember oMember differ rKept oKept

/-- In the order of the list the one before lies below. -/
theorem EntriesApart.below {c : Region W} {rest : List (Region W)} (order : MergeOrder (c :: rest))
    (apart : EntriesApart keep (c :: rest)) (cKept : keep c.attr) :
    ∀ o ∈ rest, keep o.attr → c.last < o.begin := by
  intro o member oKept
  have reaches := (List.pairwise_cons.mp order.reaches).1 o member
  have either := (List.pairwise_cons.mp apart).1 o member cKept oKept
  have := c.ordered
  omega

theorem optimize_from_apart {c : Region W} {rest : List (Region W)}
    (order : MergeOrder (c :: rest)) (apart : EntriesApart keep (c :: rest))
    (made : RegionList.optimizeFrom c rest = .ok result) : EntriesApart keep result := by
  induction rest generalizing c result with
  | nil =>
      cases made
      exact apart
  | cons n rest ih =>
      have tailOrder : MergeOrder (n :: rest) := order.sublist (List.sublist_cons_self c _)
      have tailApart : EntriesApart keep (n :: rest) :=
        apart.sublist (List.sublist_cons_self c _)
      rw [RegionList.optimizeFrom] at made
      split_ifs at made with merge
      · obtain ⟨merged, isMerged, made⟩ := bind_ok_iff.mp made
        obtain ⟨_, ends, attr⟩ := Region.set_last_ok.mp isMerged
        simp only [RegionList.mergeable, Bool.and_eq_true, decide_eq_true_eq] at merge
        have mergedOrder := RegionList.merge_order_merged order merge.1 isMerged
        refine ih mergedOrder (.cons ?_ (List.pairwise_cons.mp tailApart).2) made
        intro o member mergedKept oKept
        rw [attr, ← merge.1] at mergedKept
        have below := tailApart.below tailOrder mergedKept o member oKept
        left
        omega
      · obtain ⟨tail, isTail, made⟩ := bind_ok_iff.mp made
        cases made
        refine .cons ?_ (ih tailOrder tailApart isTail)
        intro o member cKept oKept
        obtain ⟨x, xMember, _, _, xBegin, _, xAttr, _⟩ :=
          RegionList.optimize_from_origin isTail member
        rw [xAttr] at oKept
        have below := apart.below order cKept x xMember oKept
        left
        omega

theorem optimize_apart (order : MergeOrder l.reg) (apart : EntriesApart keep l.reg)
    (made : l.optimize = .ok after) : EntriesApart keep after.reg := by
  unfold RegionList.optimize at made
  cases entries : l.reg with
  | nil =>
      rw [entries] at made
      cases made
      exact apart
  | cons c rest =>
      rw [entries] at made order apart
      obtain ⟨reg, isReg, made⟩ := bind_ok_iff.mp made
      cases made
      exact optimize_from_apart order apart isReg

end

/-! ## An entry between others -/

/-- An entry with attributes in `keep` stands in the list between the entries with attributes
in `others` that lie below `p` and those that lie above. -/
def Divided (keep others : Attr → Prop) (reg : List (Region W)) (p : Nat) : Prop :=
  ∃ front e back, reg = front ++ e :: back ∧ keep e.attr ∧
    (∀ z ∈ front, others z.attr → z.last < p) ∧ ∀ z ∈ back, others z.attr → p < z.begin

section

variable {keep others : Attr → Prop} {reg result : List (Region W)} {l after : RegionList W}
  {p : Nat}

/-- An entry that holds `p` and touches none of the others divides them. -/
theorem divided_of_entry {e : Region W} (order : MergeOrder reg) (member : e ∈ reg)
    (kept : keep e.attr) (apart : ∀ z ∈ reg, others z.attr → z.last < e.begin ∨ e.last < z.begin)
    (above : e.begin ≤ p) (below : p ≤ e.last) : Divided keep others reg p := by
  obtain ⟨front, back, rfl⟩ := List.append_of_mem member
  obtain ⟨_, behind, across⟩ := List.pairwise_append.mp order.reaches
  refine ⟨front, e, back, rfl, kept, ?_, ?_⟩
  · intro z inFront isOther
    have reaches := across z inFront e (by simp)
    have := apart z (by simp [inFront]) isOther
    have := z.ordered
    omega
  · intro z inBack isOther
    have reaches := (List.pairwise_cons.mp behind).1 z inBack
    have := apart z (by simp [inBack]) isOther
    have := e.ordered
    omega

theorem Divided.avoids (divided : Divided keep others reg p)
    (differ : ∀ attr, keep attr → ¬ others attr) {z : Region W} (member : z ∈ reg)
    (isOther : others z.attr) : z.last < p ∨ p < z.begin := by
  obtain ⟨front, e, back, rfl, kept, below, above⟩ := divided
  rcases List.mem_append.mp member with inFront | inRest
  · exact .inl (below z inFront isOther)
  · rcases List.mem_cons.mp inRest with rfl | inBack
    · exact absurd isOther (differ _ kept)
    · exact .inr (above z inBack isOther)

theorem Divided.imp {kept : Attr → Prop} (divided : Divided keep others reg p)
    (weaker : ∀ attr, keep attr → kept attr) : Divided kept others reg p := by
  obtain ⟨front, e, back, whole, isKept, below, above⟩ := divided
  exact ⟨front, e, back, whole, weaker _ isKept, below, above⟩

/-- One more entry in front. -/
theorem Divided.cons {c : Region W} (divided : Divided keep others reg p)
    (below : others c.attr → c.last < p) : Divided keep others (c :: reg) p := by
  obtain ⟨front, e, back, rfl, kept, frontBelow, above⟩ := divided
  refine ⟨c :: front, e, back, rfl, kept, ?_, above⟩
  intro z member isOther
  rcases List.mem_cons.mp member with rfl | inFront
  · exact below isOther
  · exact frontBelow z inFront isOther

/-- The entry that divides comes first. -/
theorem divided_front {e : Region W} {back : List (Region W)} (kept : keep e.attr)
    (above : ∀ z ∈ back, others z.attr → p < z.begin) : Divided keep others (e :: back) p :=
  ⟨[], e, back, rfl, kept, by simp, above⟩

/-- Merging the first two entries. -/
theorem Divided.merged {c n merged : Region W} {rest : List (Region W)}
    (divided : Divided keep others (c :: n :: rest) p) (sameAttr : n.attr = c.attr)
    (isMerged : c.setLast n.last = .ok merged) : Divided keep others (merged :: rest) p := by
  obtain ⟨_, ends, attr⟩ := Region.set_last_ok.mp isMerged
  obtain ⟨front, e, back, whole, kept, below, above⟩ := divided
  cases front with
  | nil =>
      cases whole
      exact divided_front (by rw [attr]; exact kept) fun z member => above z (by simp [member])
  | cons f front =>
      rw [List.cons_append, List.cons.injEq] at whole
      obtain ⟨rfl, whole⟩ := whole
      cases front with
      | nil =>
          -- the entry that divides becomes a part of the first one
          cases whole
          exact divided_front (by rw [attr, ← sameAttr]; exact kept) above
      | cons g front =>
          rw [List.cons_append, List.cons.injEq] at whole
          obtain ⟨rfl, rfl⟩ := whole
          have rest : Divided keep others (front ++ e :: back) p :=
            ⟨front, e, back, rfl, kept, fun z member => below z (by simp [member]), above⟩
          apply rest.cons
          intro isOther
          rw [attr, ← sameAttr] at isOther
          rw [ends]
          exact below n (by simp) isOther

/-- Merging does not reach across the entry that divides: its neighbours have other
attributes, or become a part of it. -/
theorem optimize_from_divided {c : Region W} {rest : List (Region W)}
    (divided : Divided keep others (c :: rest) p)
    (made : RegionList.optimizeFrom c rest = .ok result) : Divided keep others result p := by
  induction rest generalizing c result with
  | nil =>
      cases made
      exact divided
  | cons n rest ih =>
      rw [RegionList.optimizeFrom] at made
      split_ifs at made with merge
      · obtain ⟨merged, isMerged, made⟩ := bind_ok_iff.mp made
        simp only [RegionList.mergeable, Bool.and_eq_true, decide_eq_true_eq] at merge
        exact ih (divided.merged merge.1 isMerged) made
      · obtain ⟨tail, isTail, made⟩ := bind_ok_iff.mp made
        cases made
        obtain ⟨front, e, back, whole, kept, below, above⟩ := divided
        cases front with
        | nil =>
            cases whole
            apply divided_front kept
            intro z member isOther
            obtain ⟨x, xMember, _, _, xBegin, _, xAttr, _⟩ :=
              RegionList.optimize_from_origin isTail member
            rw [xBegin]
            rw [xAttr] at isOther
            exact above x xMember isOther
        | cons f front =>
            rw [List.cons_append, List.cons.injEq] at whole
            obtain ⟨rfl, whole⟩ := whole
            have later : Divided keep others (n :: rest) p :=
              ⟨front, e, back, whole, kept, fun z member => below z (by simp [member]), above⟩
            exact (ih later isTail).cons (below c (by simp))

theorem optimize_divided (divided : Divided keep others l.reg p)
    (made : l.optimize = .ok after) : Divided keep others after.reg p := by
  unfold RegionList.optimize at made
  cases entries : l.reg with
  | nil =>
      rw [entries] at made
      cases made
      exact divided
  | cons c rest =>
      rw [entries] at made divided
      obtain ⟨reg, isReg, made⟩ := bind_ok_iff.mp made
      cases made
      exact optimize_from_divided divided isReg

/-- An entry that is not one of the others can stand anywhere. -/
theorem Divided.insert {front back : List (Region W)} {region : Region W}
    (divided : Divided keep others (front ++ back) p) (neutral : ¬ others region.attr) :
    Divided keep others (front ++ region :: back) p := by
  obtain ⟨low, e, high, whole, kept, below, above⟩ := divided
  rcases List.append_eq_append_iff.mp whole with ⟨gap, rfl, rfl⟩ | ⟨gap, rfl, isRest⟩
  · refine ⟨front ++ region :: gap, e, high, by simp, kept, ?_, above⟩
    intro z member isOther
    rcases List.mem_append.mp member with inFront | inGap
    · exact below z (by simp [inFront]) isOther
    · rcases List.mem_cons.mp inGap with rfl | inGap
      · exact absurd isOther neutral
      · exact below z (by simp [inGap]) isOther
  · cases gap with
    | nil =>
        rw [List.nil_append] at isRest
        refine ⟨low ++ [region], e, high, by simp [← isRest], kept, ?_, above⟩
        intro z member isOther
        rcases List.mem_append.mp member with inLow | isNew
        · exact below z inLow isOther
        · rw [List.mem_singleton.mp isNew] at isOther
          exact absurd isOther neutral
    | cons g gap =>
        rw [List.cons_append, List.cons.injEq] at isRest
        obtain ⟨rfl, rfl⟩ := isRest
        refine ⟨low, e, gap ++ region :: back, by simp, kept, below, ?_⟩
        intro z member isOther
        rcases List.mem_append.mp member with inGap | inRest
        · exact above z (by simp [inGap]) isOther
        · rcases List.mem_cons.mp inRest with rfl | inBack
          · exact absurd isOther neutral
          · exact above z (by simp [inBack]) isOther

/-- Any entry can go that does not divide. -/
theorem Divided.erase_idx {i : Nat} (divided : Divided keep others reg p)
    (spared : ∀ r, reg[i]? = some r → ¬ keep r.attr) : Divided keep others (reg.eraseIdx i) p := by
  obtain ⟨front, e, back, rfl, kept, below, above⟩ := divided
  rcases Nat.lt_trichotomy i front.length with inFront | here | behind
  · rw [List.eraseIdx_append_of_lt_length inFront]
    exact ⟨_, e, back, rfl, kept,
      fun z member => below z ((List.eraseIdx_sublist _ _).subset member), above⟩
  · exact absurd kept (spared e (by simp [here]))
  · obtain ⟨k, rfl⟩ := Nat.exists_eq_add_of_lt behind
    rw [List.eraseIdx_append_of_length_le (by omega)]
    have index : front.length + k + 1 - front.length = k + 1 := by omega
    rw [index, List.eraseIdx_cons_succ]
    exact ⟨front, e, _, rfl, kept, below,
      fun z member => above z ((List.eraseIdx_sublist _ _).subset member)⟩

/-- Entries keep their places when they get other attributes. -/
theorem Divided.map {f : Region W → Region W} {kept : Attr → Prop}
    (divided : Divided keep others reg p)
    (places : ∀ r, (f r).begin = r.begin ∧ (f r).last = r.last)
    (keeps : ∀ r, keep r.attr → kept (f r).attr)
    (origin : ∀ r, others (f r).attr → others r.attr) : Divided kept others (reg.map f) p := by
  obtain ⟨front, e, back, rfl, isKept, below, above⟩ := divided
  refine ⟨front.map f, f e, back.map f, by simp, keeps e isKept, ?_, ?_⟩
  · intro z member isOther
    obtain ⟨r, inFront, rfl⟩ := List.mem_map.mp member
    rw [(places r).2]
    exact below r inFront (origin r isOther)
  · intro z member isOther
    obtain ⟨r, inBack, rfl⟩ := List.mem_map.mp member
    rw [(places r).1]
    exact above r inBack (origin r isOther)

end

/-! ## A region in free pages -/

namespace RegionList

variable {l after : RegionList W} {region : Region W} {bytes : Nat}

theorem Unlimited.in_limit (limits : l.Unlimited bytes) (region : Region W) : l.InLimit region := by
  obtain ⟨address, combined, room⟩ := limits
  have bounded := region.bounded
  have sum := W.add_lt l.combinedSize region.size
  have maxWord : W.maxWord = W.modulus - 1 := rfl
  exact ⟨by omega, by omega, by omega⟩

/-- Once there is room, the region is put between entries that do not touch it. -/
def Joined (before : RegionList W) (region : Region W) (after : RegionList W) : Prop :=
  ∃ roomy front back, before.makeRoom = .ok roomy ∧ roomy.reg = front ++ back ∧
    after.reg = front ++ region :: back ∧
    ∀ z ∈ roomy.reg, z.last < region.begin ∨ region.last < z.begin

theorem add_joined {size t : Nat} (order : MergeOrder l.reg) (limits : l.Unlimited bytes)
    (two : region.begin < region.last) (aligned : 2 ^ pageShift ∣ t) (whole : 2 ^ pageShift ∣ size)
    (free : FreeIn l.reg size t) (inside : t ≤ region.begin ∧ region.last < t + size)
    (added : l.add region = .ok after) : l.Joined region after := by
  rw [add_in_limit false (limits.in_limit region) two] at added
  obtain ⟨roomy, madeRoom, inserted⟩ := add_nolimitcheck_ok two added
  obtain ⟨front, back, split, isResult⟩ := insert_split inserted
  obtain ⟨merged, _⟩ := make_room_merged order madeRoom
  refine ⟨roomy, front, back, madeRoom, split, isResult, ?_⟩
  intro z member
  have zFree := merged.free size t aligned whole (by omega) free z member
  omega

section

variable {keep others : Attr → Prop} {p : Nat}

theorem make_room_divided (divided : Divided keep others l.reg p)
    (made : l.makeRoom = .ok after) : Divided keep others after.reg p := by
  rcases make_room_cases made with rfl | isMerged
  · exact divided
  · exact optimize_divided divided isMerged

theorem Joined.divided (joined : l.Joined region after) (divided : Divided keep others l.reg p)
    (neutral : ¬ others region.attr) : Divided keep others after.reg p := by
  obtain ⟨roomy, front, back, madeRoom, split, isResult, _⟩ := joined
  have kept := make_room_divided divided madeRoom
  rw [split] at kept
  rw [isResult]
  exact kept.insert neutral

theorem Joined.covers (joined : l.Joined region after) (order : MergeOrder l.reg)
    (covered : CoveredBy l.reg keep p) : CoveredBy after.reg keep p := by
  obtain ⟨roomy, front, back, madeRoom, split, isResult, _⟩ := joined
  apply ((make_room_merged order madeRoom).1.covers _ _ covered).of_mem
  intro r member
  rw [split] at member
  rw [isResult]
  simp only [List.mem_append, List.mem_cons] at member ⊢
  tauto

/-- The others, and the region itself if it is one of them, leave a divided byte alone. -/
theorem Joined.avoids (joined : l.Joined region after) (divided : Divided keep others l.reg p)
    (differ : ∀ attr, keep attr → ¬ others attr) (clear : p < region.begin ∨ region.last < p)
    {z : Region W} (member : z ∈ after.reg) (isOther : others z.attr) :
    z.last < p ∨ p < z.begin := by
  obtain ⟨roomy, front, back, madeRoom, split, isResult, _⟩ := joined
  have kept := make_room_divided divided madeRoom
  rw [isResult, List.mem_append, List.mem_cons] at member
  rcases member with inFront | rfl | inBack
  · exact kept.avoids differ (by simp [split, inFront]) isOther
  · exact clear.symm
  · exact kept.avoids differ (by simp [split, inBack]) isOther

theorem Joined.entries_apart (joined : l.Joined region after) (order : MergeOrder l.reg)
    (apart : EntriesApart keep l.reg) : EntriesApart keep after.reg := by
  obtain ⟨roomy, front, back, madeRoom, split, isResult, clear⟩ := joined
  have kept : EntriesApart keep roomy.reg := by
    rcases make_room_cases madeRoom with rfl | isMerged
    · exact apart
    · exact optimize_apart order apart isMerged
  have perm : after.reg.Perm (region :: roomy.reg) := by
    rw [isResult, split]
    exact List.perm_middle
  refine EntriesApart.of_perm (.cons ?_ kept) perm
  intro z member _ _
  exact (clear z member).symm

theorem Joined.sole {e : Region W} (joined : l.Joined region after) (order : MergeOrder l.reg)
    (sole : Sole l.reg e) (different : region.attr ≠ e.attr) : Sole after.reg e := by
  obtain ⟨roomy, front, back, madeRoom, split, isResult, _⟩ := joined
  refine (make_room_sole order madeRoom sole).with_other different ?_
  rw [isResult, split]
  exact List.perm_middle

/-- The region divides the other entries at each of its bytes. -/
theorem Joined.itself (joined : l.Joined region after) (order : MergeOrder after.reg)
    (neutral : ¬ others region.attr) (above : region.begin ≤ p) (below : p ≤ region.last) :
    Divided (fun attr => attr = region.attr) others after.reg p := by
  obtain ⟨roomy, front, back, _, split, isResult, clear⟩ := joined
  refine divided_of_entry order (by simp [isResult]) rfl ?_ above below
  intro z member isOther
  rw [isResult] at member
  rcases List.mem_append.mp member with inFront | inRest
  · exact clear z (by simp [split, inFront])
  · rcases List.mem_cons.mp inRest with rfl | inBack
    · exact absurd isOther neutral
    · exact clear z (by simp [split, inBack])

end

end RegionList

end L4Bootstrap
