import L4Bootstrap.Boot32.LoadElf
import Mathlib.Data.List.Pairwise

/-!
# Images that boot32 loads correctly

When `load_elf` returns, the image is correct exactly if it may stay and its file
holds relocated targets already, or if it has to move and the first free block of
the memory map suits its alignments. The allocator knows nothing of alignments.
-/

namespace L4Bootstrap

namespace Boot32

open MachineWord CheckedLoop ByteMemory MemoryTransfer

set_option autoImplicit false

/-! ## The conditions -/

section

variable {reservations : Reservations} {elf : Elf64} {bytes : Bytes} {length p m : Nat}

/-- The file holds what its RELA entries would write without relocation. -/
def SettledTargets (elf : Elf64) (bytes : Bytes) : Prop :=
  ∀ e ∈ elf.relas bytes, Holds (elf.linked bytes) e.offset (leBytes 8 e.addend)

/-- RELA entries that share target bytes write the same there. -/
def AgreeingTargets (elf : Elf64) (bytes : Bytes) (reloc : Nat) : Prop :=
  ∀ e ∈ elf.relas bytes, ∀ f ∈ elf.relas bytes,
    Agree (e.offset, leBytes 8 (Wordsize.w64.add e.addend reloc))
      (f.offset, leBytes 8 (Wordsize.w64.add f.addend reloc))

/-- The image can live with the offset. -/
structure Suits (elf : Elf64) (bytes : Bytes) (reloc : Nat) : Prop where
  aligned : ∀ ph ∈ elf.segments, ph.align ∣ reloc
  settled : reloc = 0 → SettledTargets elf bytes
  agreeing : reloc ≠ 0 → AgreeingTargets elf bytes reloc

theorem linked_eq (image : ImageOk elf bytes) {ph : Elf64Phdr} (member : ph ∈ elf.segments)
    {k : Nat} (inside : k < ph.memsz) :
    elf.linked bytes (ph.paddr + k) = elf.segmentByte bytes ph k := by
  have has : ph.Has (ph.paddr + k) := ⟨by omega, by omega⟩
  unfold Elf64.linked
  cases found : elf.segments.find? fun ph' => ph'.Has (ph.paddr + k) with
  | none =>
      rw [List.find?_eq_none] at found
      exact absurd (decide_eq_true has) (found ph member)
  | some other =>
      have otherHas : other.Has (ph.paddr + k) := by
        have holds := List.find?_some found
        simpa using holds
      have same : other = ph := by
        by_contra differ
        have symm : Std.Symm fun x y : Elf64Phdr => ∀ a, x.Has a → ¬ y.Has a :=
          ⟨fun x y clear a inY inX => clear a inX inY⟩
        have apart := image.apart.forall (List.mem_of_find?_eq_some found) member differ
        exact apart _ otherHas has
      simp only [same, Nat.add_sub_cancel_left]

theorem rela_addend_lt {e : Elf64Rela} (member : e ∈ elf.relas bytes) : e.addend < 2 ^ 64 := by
  obtain ⟨sh, _, inSection⟩ := List.mem_flatMap.mp member
  split_ifs at inSection
  · obtain ⟨address, _, rfl⟩ := List.mem_map.mp inSection
    exact read_le_lt
  · simp at inSection

/-- Adding a word keeps an address congruent exactly if the word is a multiple. -/
theorem congruent_iff {i a reloc : Nat} (small : i < 64) :
    Wordsize.w64.add a reloc ≡ a [MOD 2 ^ i] ↔ 2 ^ i ∣ reloc := by
  have divides : 2 ^ i ∣ Wordsize.w64.modulus := Wordsize.w64.pow_dvd_modulus small.le
  have reduced : Wordsize.w64.add a reloc ≡ a + reloc [MOD 2 ^ i] :=
    Nat.mod_mod_of_dvd _ divides
  constructor
  · intro congruent
    have cancelled : a + reloc ≡ a + 0 [MOD 2 ^ i] := reduced.symm.trans congruent
    exact (Nat.modEq_zero_iff_dvd).mp (Nat.ModEq.add_left_cancel' a cancelled)
  · intro multiple
    exact reduced.trans (Nat.ModEq.add_left a ((Nat.modEq_zero_iff_dvd).mpr multiple))

/-- The entry point determines the lower half of the offset. -/
theorem low_half_unique {entry one two : Nat}
    (same : Wordsize.w64.add entry one % 2 ^ 32 = Wordsize.w64.add entry two % 2 ^ 32) :
    one % 2 ^ 32 = two % 2 ^ 32 := by
  have divides : 2 ^ 32 ∣ Wordsize.w64.modulus := Wordsize.w64.pow_dvd_modulus (by decide)
  rw [Wordsize.add, Wordsize.add, Nat.mod_mod_of_dvd _ divides, Nat.mod_mod_of_dvd _ divides] at same
  exact Nat.ModEq.add_left_cancel' entry same

section

variable (image : ImageOk elf bytes) (placed : PlacedAt reservations elf p m) {copied after : Bytes}
  (isCopied : Copied elf p m bytes copied)
  (isAfter : after = if Wordsize.w64.sub p m = 0 then copied
    else writeAll ((elf.relas bytes).map (relaWrite p m)) copied)

include image placed isAfter in
/-- The third pass touches nothing but targets. -/
theorem after_off_targets {address : Nat} (above : m ≤ address)
    (noTarget : ¬ elf.IsTarget bytes address) :
    after (p + (address - m)) = copied (p + (address - m)) := by
  rw [isAfter]
  split_ifs with inPlace
  · rfl
  · apply write_all_outside
    intro write isWrite
    obtain ⟨e, member, rfl⟩ := List.mem_map.mp isWrite
    obtain ⟨_, ph, isSegment, low, _⟩ := image.relative e member
    have := placed.above ph isSegment
    simp only [relaWrite, length_le_bytes]
    by_contra shared
    exact noTarget ⟨e, member, by omega, by omega⟩

include image placed isCopied isAfter in
theorem after_segment_byte {ph : Elf64Phdr} (member : ph ∈ elf.segments) {k : Nat}
    (inside : k < ph.memsz) (noTarget : ¬ elf.IsTarget bytes (ph.paddr + k)) :
    after (Wordsize.w64.add ph.paddr (Wordsize.w64.sub p m) + k) = elf.segmentByte bytes ph k := by
  have above := placed.above ph member
  have shifted := shifted_segment image member placed.toShifts (Nat.zero_le _)
  have same := after_off_targets image placed isAfter (show m ≤ ph.paddr + k by omega) noTarget
  have position : p + (ph.paddr + k - m) = p + (ph.paddr - m) + k := by omega
  rw [Nat.add_zero, Nat.add_zero] at shifted
  rw [shifted, ← isCopied.inside ph member k inside, ← position, same]

include image placed isCopied isAfter in
theorem after_unwritten {address : Nat}
    (outside : ∀ ph ∈ elf.segments, ∀ k < ph.memsz, address ≠ p + (ph.paddr - m) + k) :
    after address = bytes address := by
  rw [isAfter, ← isCopied.outside address outside]
  split_ifs with inPlace
  · rfl
  · apply write_all_outside
    intro write isWrite
    obtain ⟨e, member, rfl⟩ := List.mem_map.mp isWrite
    obtain ⟨_, _, inSegment⟩ := shifted_target image placed member
    simp only [relaWrite, length_le_bytes]
    by_contra shared
    obtain ⟨ph, isSegment, j, inside, same⟩ :=
      inSegment (address - (p + (e.offset - m))) (by omega)
    exact outside ph isSegment j inside (by omega)

include image placed isCopied in
/-- What the second pass leaves at a target. -/
theorem copied_target {e : Elf64Rela} (member : e ∈ elf.relas bytes) {l : List UInt8}
    (size : l.length = 8) :
    Holds copied (p + (e.offset - m)) l ↔ Holds (elf.linked bytes) e.offset l := by
  obtain ⟨_, ph, isSegment, low, high⟩ := image.relative e member
  have above := placed.above ph isSegment
  have same : ∀ i < 8, copied (p + (e.offset - m) + i) = elf.linked bytes (e.offset + i) := by
    intro i small
    have link := linked_eq image isSegment (show e.offset - ph.paddr + i < ph.memsz by omega)
    have copy := isCopied.inside ph isSegment (e.offset - ph.paddr + i) (by omega)
    have linkAt : ph.paddr + (e.offset - ph.paddr + i) = e.offset + i := by omega
    have copyAt : p + (ph.paddr - m) + (e.offset - ph.paddr + i) = p + (e.offset - m) + i := by
      omega
    rw [linkAt] at link
    rw [copyAt] at copy
    rw [copy, link]
  constructor
  · intro held
    apply held.moved
    intro i inside
    exact (same i (by omega)).symm
  · intro held
    apply held.moved
    intro i inside
    exact same i (by omega)

include image placed in
theorem agree_shifted {e f : Elf64Rela} (eMember : e ∈ elf.relas bytes)
    (fMember : f ∈ elf.relas bytes) {k l : List UInt8} :
    Agree (p + (e.offset - m), k) (p + (f.offset - m), l) ↔ Agree (e.offset, k) (f.offset, l) := by
  obtain ⟨_, x, isX, xLow, _⟩ := image.relative e eMember
  obtain ⟨_, y, isY, yLow, _⟩ := image.relative f fMember
  have xAbove := placed.above x isX
  have yAbove := placed.above y isY
  constructor
  · intro agree i j inK inL same
    exact agree i j inK inL (by simp only at same ⊢; omega)
  · intro agree i j inK inL same
    exact agree i j inK inL (by simp only at same ⊢; omega)

include image placed isCopied isAfter in
theorem suits_relocated (suits : Suits elf bytes (Wordsize.w64.sub p m)) {e : Elf64Rela}
    (member : e ∈ elf.relas bytes) :
    Holds after (Wordsize.w64.add e.offset (Wordsize.w64.sub p m))
      (leBytes 8 (Wordsize.w64.add e.addend (Wordsize.w64.sub p m))) := by
  rw [(shifted_target image placed member).1, isAfter]
  split_ifs with inPlace
  · have held := suits.settled inPlace e member
    rw [inPlace, Wordsize.w64.add_of_lt (rela_addend_lt member), Nat.add_zero]
    exact (copied_target image placed isCopied member length_le_bytes).mpr held
  · have agree : ∀ one ∈ (elf.relas bytes).map (relaWrite p m),
        ∀ two ∈ (elf.relas bytes).map (relaWrite p m), Agree one two := by
      intro one isOne two isTwo
      obtain ⟨f, fMember, rfl⟩ := List.mem_map.mp isOne
      obtain ⟨g, gMember, rfl⟩ := List.mem_map.mp isTwo
      exact (agree_shifted image placed fMember gMember).mpr
        (suits.agreeing inPlace f fMember g gMember)
    have isWrite : relaWrite p m e ∈ (elf.relas bytes).map (relaWrite p m) :=
      List.mem_map_of_mem member
    exact holds_write_all agree (.inl isWrite) (agree _ isWrite)

include image placed isCopied isAfter in
theorem loaded_of_suits (suits : Suits elf bytes (Wordsize.w64.sub p m)) :
    Loaded reservations elf bytes after
      (Wordsize.w64.add elf.entry (Wordsize.w64.sub p m) % 2 ^ 32) (Wordsize.w64.sub p m) := by
  have shifted : ∀ ph ∈ elf.segments,
      Wordsize.w64.add ph.paddr (Wordsize.w64.sub p m) = p + (ph.paddr - m) :=
    fun ph member => shifted_segment image member placed.toShifts (Nat.zero_le _)
  have segmentByte : ∀ ph ∈ elf.segments, ∀ k < ph.memsz, ¬ elf.IsTarget bytes (ph.paddr + k) →
      after (Wordsize.w64.add ph.paddr (Wordsize.w64.sub p m) + k) = elf.segmentByte bytes ph k :=
    fun ph member k inside noTarget =>
      after_segment_byte image placed isCopied isAfter member inside noTarget
  constructor
  · exact Wordsize.w64.sub_lt p m
  · intro ph member _
    rw [shifted ph member]
    exact placed.within ph member
  · intro ph member k inside noTarget
    have sizes := image.sizes ph member
    rw [segmentByte ph member k (by omega) noTarget, Elf64.segmentByte, if_pos inside]
  · intro ph member k behind inside noTarget
    rw [segmentByte ph member k inside noTarget, Elf64.segmentByte, if_neg (by omega)]
  · intro ph member
    obtain ⟨i, small, power⟩ := image.power ph member
    have multiple := suits.aligned ph member
    rw [power] at multiple ⊢
    exact (congruent_iff small).mpr multiple
  · intro ph member k inside
    rw [shifted ph member]
    exact placed.free ph member k inside
  · intro address changed
    by_contra outside
    apply changed
    apply after_unwritten image placed isCopied isAfter
    intro ph member k inside same
    apply outside
    refine ⟨ph, member, k, inside, ?_⟩
    rw [shifted ph member, same]
  · intro e member
    exact suits_relocated image placed isCopied isAfter suits member
  · rfl

include image in
/-- With a segment that is not empty there is only one offset. -/
theorem loaded_offset_unique {result reloc : Nat} {ph : Elf64Phdr} (member : ph ∈ elf.segments)
    (pos : 0 < ph.memsz) (shifts : Shifts elf p m)
    (isResult : result = Wordsize.w64.add elf.entry (Wordsize.w64.sub p m) % 2 ^ 32)
    (loaded : Loaded reservations elf bytes after result reloc) : reloc = Wordsize.w64.sub p m := by
  have low := low_half_unique (loaded.entry.symm.trans isResult)
  have located := loaded.located ph member pos
  have word := loaded.word
  have within := shifts.within ph member
  have below := image.below ph member
  have shifted := shifted_segment image member shifts (Nat.zero_le _)
  have subWord := Wordsize.w64.sub_lt p m
  rw [Nat.add_zero, Nat.add_zero] at shifted
  have modulus : Wordsize.w64.modulus = 2 ^ 64 := rfl
  rw [Wordsize.add, modulus] at located shifted
  rw [modulus] at subWord
  generalize Wordsize.w64.sub p m = offset at low shifted subWord ⊢
  omega

include image placed isCopied isAfter in
theorem suits_of_loaded {result reloc : Nat} (source : p < 2 ^ 32) (origin : m < 2 ^ 32)
    (isResult : result = Wordsize.w64.add elf.entry (Wordsize.w64.sub p m) % 2 ^ 32)
    (loaded : Loaded reservations elf bytes after result reloc) :
    Suits elf bytes (Wordsize.w64.sub p m) := by
  have unique : ∀ e ∈ elf.relas bytes, reloc = Wordsize.w64.sub p m := by
    intro e member
    obtain ⟨_, ph, isSegment, _, _⟩ := image.relative e member
    exact loaded_offset_unique image isSegment (by omega) placed.toShifts isResult loaded
  have held : ∀ e ∈ elf.relas bytes, Holds after (p + (e.offset - m))
      (leBytes 8 (Wordsize.w64.add e.addend (Wordsize.w64.sub p m))) := by
    intro e member
    have holds := loaded.relocated e member
    rw [unique e member, (shifted_target image placed member).1] at holds
    exact holds
  constructor
  · intro ph member
    obtain ⟨i, small, power⟩ := image.power ph member
    have congruent := loaded.aligned ph member
    have low := low_half_unique (loaded.entry.symm.trans isResult)
    rw [power] at congruent ⊢
    have multiple := (congruent_iff small).mp congruent
    rcases Nat.le_total i 32 with low32 | high32
    · have reduced : reloc ≡ Wordsize.w64.sub p m [MOD 2 ^ i] :=
        Nat.ModEq.of_dvd (pow_dvd_pow 2 low32) low
      exact (reduced.dvd_iff dvd_rfl).mp multiple
    · -- the offset is smaller than 4 GiB, so only 0 is a multiple
      have half : 2 ^ 32 ∣ reloc := (pow_dvd_pow 2 high32).trans multiple
      have zero : Wordsize.w64.sub p m = 0 := by
        have modulus : Wordsize.w64.modulus = 2 ^ 64 := rfl
        rw [Nat.mod_eq_zero_of_dvd half] at low
        rw [Wordsize.sub, modulus] at low ⊢
        omega
      rw [zero]
      exact Nat.dvd_zero _
  · intro inPlace e member
    have holds := held e member
    rw [isAfter, if_pos inPlace, inPlace, Wordsize.w64.add_of_lt (rela_addend_lt member),
      Nat.add_zero] at holds
    exact (copied_target image placed isCopied member length_le_bytes).mp holds
  · intro _ e eMember f fMember
    apply (agree_shifted image placed eMember fMember).mp
    exact agree_of_holds (held e eMember) (held f fMember)

end

end

/-! ## Choosing the offset -/

/-- All segments may stay where they are linked to, as far as `usable_range` can
tell. -/
def Usable (reservations : Reservations) (phdrs : List Elf64Phdr) : Prop :=
  ∀ ph ∈ phdrs, ph.load = true → usableRange reservations ph.paddr ph.memsz = true

/-- What a scan from `span` has found. -/
structure Scanned (reservations : Reservations) (phdrs : List Elf64Phdr) (span after : Span) :
    Prop where
  minLe : after.minAddr ≤ span.minAddr
  lowest : ∀ ph ∈ phdrs, ph.load = true → after.minAddr ≤ ph.paddr
  maxLe : span.maxAddr ≤ after.maxAddr
  highest : ∀ ph ∈ phdrs, ph.load = true → ph.paddr + ph.memsz ≤ after.maxAddr
  below : span.maxAddr ≤ 2 ^ 32 → after.maxAddr ≤ 2 ^ 32
  needReloc : after.needReloc = false ↔ span.needReloc = false ∧ Usable reservations phdrs

section

variable {reservations : Reservations}

theorem scanned_visit {span : Span} {ph : Elf64Phdr}
    (below : ph.load = true → ph.paddr + ph.memsz ≤ 2 ^ 32) :
    Scanned reservations [ph] span (span.visit reservations ph) := by
  unfold Span.visit
  cases load : ph.load with
  | false =>
      simp only [Bool.not_false, if_true]
      constructor
      all_goals simp [Usable, load]
  | true =>
      have fits := below load
      have modulus : Wordsize.w64.modulus = 2 ^ 64 := rfl
      have stop : Wordsize.w64.add ph.paddr ph.memsz = ph.paddr + ph.memsz :=
        Wordsize.w64.add_of_lt (by omega)
      simp only [stop, Bool.not_true, Bool.false_eq_true, if_false]
      constructor
      · simp only
        split_ifs <;> omega
      · intro other member _
        rw [List.mem_singleton.mp member]
        simp only
        split_ifs <;> omega
      · simp only
        split_ifs <;> omega
      · intro other member _
        rw [List.mem_singleton.mp member]
        simp only
        split_ifs <;> omega
      · intro small
        simp only
        split_ifs <;> omega
      · simp [Usable, load]

theorem scanned_append {front back : List Elf64Phdr} {span mid after : Span}
    (first : Scanned reservations front span mid) (second : Scanned reservations back mid after) :
    Scanned reservations (front ++ back) span after := by
  constructor
  · exact second.minLe.trans first.minLe
  · intro ph member load
    rcases List.mem_append.mp member with inFront | inBack
    · exact second.minLe.trans (first.lowest ph inFront load)
    · exact second.lowest ph inBack load
  · exact first.maxLe.trans second.maxLe
  · intro ph member load
    rcases List.mem_append.mp member with inFront | inBack
    · exact (first.highest ph inFront load).trans second.maxLe
    · exact second.highest ph inBack load
  · intro small
    exact second.below (first.below small)
  · rw [second.needReloc, first.needReloc, and_assoc]
    apply and_congr_right
    intro _
    unfold Usable
    constructor
    · rintro ⟨inFront, inBack⟩ ph member
      exact (List.mem_append.mp member).elim (inFront ph) (inBack ph)
    · intro all
      exact ⟨fun ph member => all ph (by simp [member]), fun ph member => all ph (by simp [member])⟩

theorem scanned_fold {phdrs : List Elf64Phdr}
    (below : ∀ ph ∈ phdrs, ph.load = true → ph.paddr + ph.memsz ≤ 2 ^ 32) (span : Span) :
    Scanned reservations phdrs span (phdrs.foldl (Span.visit reservations) span) := by
  induction phdrs generalizing span with
  | nil =>
      rw [List.foldl_nil]
      constructor
      all_goals simp [Usable]
  | cons ph rest ih =>
      rw [List.foldl_cons]
      exact scanned_append (scanned_visit (below ph (by simp)))
        (ih (fun other inRest => below other (by simp [inRest])) _)

theorem base_le (span : Span) : span.base ≤ span.minAddr := Nat.and_le_left

theorem base_lt (span : Span) : span.base < 2 ^ 32 := by
  have masked : span.base ≤ 2 ^ 32 - 1 - sub32 span.maxAlign 1 := Nat.and_le_right
  omega

variable {elf : Elf64} {bytes : Bytes} {length : Nat}

theorem scan_scanned (image : ImageOk elf bytes) :
    Scanned reservations elf.phdrs ⟨false, Wordsize.w64.maxWord, 0, 0⟩ (scan reservations elf.phdrs) :=
  scanned_fold (fun ph member load => image.below ph (mem_segments.mpr ⟨member, load⟩)) _

theorem need_reloc_iff (image : ImageOk elf bytes) :
    (scan reservations elf.phdrs).needReloc = false ↔ Usable reservations elf.phdrs := by
  rw [(scan_scanned image).needReloc]
  exact and_iff_right rfl

/-- A block for the request has room for all segments. -/
theorem placed_in_block (image : ImageOk elf bytes) {p : Nat}
    (pos : 1 ≤ (scan reservations elf.phdrs).request)
    (under : p + (scan reservations elf.phdrs).request ≤ 2 ^ 32)
    (free : Unreserved reservations p (scan reservations elf.phdrs).request) :
    PlacedAt reservations elf p (scan reservations elf.phdrs).base := by
  have scanned : Scanned reservations elf.phdrs _ (scan reservations elf.phdrs) :=
    scan_scanned image
  have low := base_le (scan reservations elf.phdrs)
  have lowWord := base_lt (scan reservations elf.phdrs)
  have high := scanned.below (Nat.zero_le _)
  have room : ∀ ph ∈ elf.segments, (scan reservations elf.phdrs).base ≤ ph.paddr ∧
      ph.paddr - (scan reservations elf.phdrs).base + ph.memsz ≤
        (scan reservations elf.phdrs).request := by
    intro ph member
    obtain ⟨inTable, load⟩ := mem_segments.mp member
    have lowest := scanned.lowest ph inTable load
    have highest := scanned.highest ph inTable load
    have modulus : Wordsize.w64.modulus = 2 ^ 64 := rfl
    rw [Span.request, Wordsize.w64.sub_of_le (by omega) (by omega)] at pos ⊢
    omega
  refine ⟨⟨?_, ?_⟩, ?_⟩
  · intro ph member
    exact (room ph member).1
  · intro ph member
    have := (room ph member).2
    omega
  · intro ph member k inside
    have := (room ph member).2
    exact free _ (by omega) (by omega)

theorem shifts_in_place (image : ImageOk elf bytes) : Shifts elf 0 0 := by
  constructor
  · intro ph _
    exact Nat.zero_le _
  · intro ph member
    rw [Nat.sub_zero, Nat.zero_add]
    exact image.below ph member

/-- A range that `overlaps_reservation` answers for: it ends below 4 GiB, or none of
its bytes is reserved. -/
def Queried (reservations : Reservations) (start size : Nat) : Prop :=
  start + size < 2 ^ 32 ∨ Unreserved reservations start size

theorem apart_of_query {start size : Nat} (ends : ∀ r ∈ reservations, r.start + r.size < 2 ^ 32)
    (below : start + size < 2 ^ 32) (zero : overlapsReservation start size reservations = 0) :
    Apart reservations start size := by
  rw [overlaps_reservation_eq ends below] at zero
  cases met : firstMet reservations start size with
  | none => exact first_met_none.mp met
  | some r =>
      have meets := List.find?_some met
      obtain ⟨_, less⟩ := of_decide_eq_true meets
      rw [met] at zero
      exact absurd zero (by simp only; omega)

/-- The segments have room where they are linked to. -/
theorem placed_in_place (image : ImageOk elf bytes)
    (ends : ∀ r ∈ reservations, r.start + r.size < 2 ^ 32) (usable : Usable reservations elf.phdrs)
    (query : ∀ ph ∈ elf.segments, Queried reservations ph.paddr ph.memsz) :
    PlacedAt reservations elf 0 0 := by
  refine ⟨shifts_in_place image, ?_⟩
  intro ph member k inside
  rw [Nat.sub_zero, Nat.zero_add]
  have free : Unreserved reservations ph.paddr ph.memsz := by
    rcases query ph member with below | free
    · obtain ⟨inTable, load⟩ := mem_segments.mp member
      have usable := usable ph inTable load
      rw [usableRange, Bool.and_eq_true, Nat.mod_eq_of_lt (by omega), Nat.mod_eq_of_lt (by omega),
        beq_iff_eq] at usable
      exact (apart_of_query ends below usable.2).unreserved
    · exact free
  exact free _ (by omega) (by omega)

end

/-! ## Loading -/

/-- The request of the loader is one that the allocator serves as it should. -/
structure SafeRequest (mbi : Mbi) (reservations : Reservations) (used size : Nat) : Prop where
  steps : StepsThroughMap mbi
  ram : RamBounded mbi
  pos : 1 ≤ size
  search : SafeSearch mbi reservations (mmAllocInit ⟨0, used, []⟩) size

/-- Whenever `load_elf` returns, the image is loaded with some offset. -/
def LoadsCorrectly (alloc : Option Mbi) (reservations : Reservations) (elf : Elf64)
    (st : AllocState) (bytes : Bytes) : Prop :=
  ∀ result after st', loadElf alloc reservations elf st bytes = .ok (result, after, st') →
    ∃ reloc, Loaded reservations elf bytes after result reloc

/-- Either the image may stay: then no segment reaches up to 4 GiB across a
reservation, and the file holds relocated targets. Or it has to move: then the
first free block suits it. -/
structure Placeable (alloc : Option Mbi) (reservations : Reservations) (elf : Elf64)
    (bytes : Bytes) : Prop where
  inPlace : Usable reservations elf.phdrs →
    (∀ ph ∈ elf.segments, Queried reservations ph.paddr ph.memsz) ∧ SettledTargets elf bytes
  moved : ¬ Usable reservations elf.phdrs → ∀ mbi, alloc = some mbi →
    ∀ p, FirstSpot mbi reservations (scan reservations elf.phdrs).request p → p ≠ 0 →
      Suits elf bytes (Wordsize.w64.sub p (scan reservations elf.phdrs).base)

section

variable {alloc : Option Mbi} {reservations : Reservations} {elf : Elf64} {bytes : Bytes}
  {st : AllocState} {length used : Nat}

theorem choose_reloc_in_place (image : ImageOk elf bytes)
    (usable : Usable reservations elf.phdrs) :
    chooseReloc alloc reservations elf st = .ok (Wordsize.w64.sub 0 0, st) := by
  unfold chooseReloc
  simp only [(need_reloc_iff image).mpr usable, Bool.not_false, if_true]
  rfl

/-- Copying without relocation always returns. -/
theorem copy_returns (file : FileReserved elf reservations length) {phdrs : List Elf64Phdr}
    (part : phdrs ⊆ elf.phdrs) (current : Bytes) :
    ∃ copied, phdrs.foldlM (copySegment elf 0) current = .ok copied := by
  induction phdrs generalizing current with
  | nil => exact ⟨current, rfl⟩
  | cons ph rest ih =>
      obtain ⟨member, restPart⟩ := List.cons_subset.mp part
      have one : ∃ next, copySegment elf 0 current ph = .ok next := by
        unfold copySegment
        cases load : ph.load with
        | false => exact ⟨current, rfl⟩
        | true =>
            have inFile := file.segments ph (mem_segments.mpr ⟨member, load⟩)
            have below := file.below
            have inRange : isRangeIn4g elf.base ph.offset = true := by
              simp only [isRangeIn4g, Bool.and_eq_true, decide_eq_true_eq]
              omega
            simp only [inRange, Bool.not_true, Bool.false_eq_true, if_false]
            split_ifs
            · exact ⟨_, rfl⟩
            · exact ⟨_, rfl⟩
      obtain ⟨next, copied⟩ := one
      rw [List.foldlM_cons, copied, ok_bind]
      exact ih restPart next

theorem loads_in_place_iff (image : ImageOk elf bytes)
    (file : FileReserved elf reservations length)
    (ends : ∀ r ∈ reservations, r.start + r.size < 2 ^ 32)
    (usable : Usable reservations elf.phdrs) :
    LoadsCorrectly alloc reservations elf st bytes ↔
      (∀ ph ∈ elf.segments, Queried reservations ph.paddr ph.memsz) ∧
        SettledTargets elf bytes := by
  have chosen := @choose_reloc_in_place alloc reservations elf bytes st image usable
  constructor
  · intro loads
    have query : ∀ ph ∈ elf.segments, Queried reservations ph.paddr ph.memsz := by
      intro ph member
      right
      intro address above less
      obtain ⟨k, rfl⟩ := Nat.exists_eq_add_of_le above
      have inside : k < ph.memsz := by omega
      obtain ⟨copied, copies⟩ := copy_returns file (List.Subset.refl _) bytes
      have returned : loadElf alloc reservations elf st bytes =
          .ok (Wordsize.w64.add elf.entry (Wordsize.w64.sub 0 0) % 2 ^ 32, copied, st) := by
        rw [loadElf, image.header, ok_bind, chosen, ok_bind]
        simp only
        rw [show Wordsize.w64.sub 0 0 = 0 from rfl, copies, ok_bind, if_neg (by simp), ok_bind]
      obtain ⟨reloc, loaded⟩ := loads _ _ _ returned
      have unique := loaded_offset_unique image member (by omega) (shifts_in_place image) rfl loaded
      have free := loaded.unreserved ph member k inside
      have stays := shifted_segment image member (shifts_in_place image) (Nat.zero_le _)
      rw [Nat.add_zero, Nat.add_zero, Nat.zero_add, Nat.sub_zero] at stays
      rw [unique, stays] at free
      exact free
    refine ⟨query, ?_⟩
    have placed := placed_in_place image ends usable query
    obtain ⟨copied, isCopied, ran⟩ := load_elf_run image file placed chosen
    obtain ⟨reloc, loaded⟩ := loads _ _ _ ran
    exact (suits_of_loaded image placed isCopied rfl (by decide) (by decide) rfl loaded).settled rfl
  · rintro ⟨query, settled⟩ result after st' returned
    have placed := placed_in_place image ends usable query
    obtain ⟨copied, isCopied, ran⟩ := load_elf_run image file placed chosen
    rw [ran] at returned
    cases returned
    refine ⟨_, loaded_of_suits image placed isCopied rfl ⟨?_, fun _ => settled, ?_⟩⟩
    · intro ph _
      exact Nat.dvd_zero _
    · intro moved
      exact absurd rfl moved

theorem loads_moved_iff {mbi : Mbi} (image : ImageOk elf bytes)
    (file : FileReserved elf reservations length)
    (ends : ∀ r ∈ reservations, r.start + r.size < 2 ^ 32)
    (taken : ¬ Usable reservations elf.phdrs)
    (safe : SafeRequest mbi reservations used (scan reservations elf.phdrs).request) :
    LoadsCorrectly (some mbi) reservations elf (mmAllocInit ⟨0, used, []⟩) bytes ↔
      ∀ p, FirstSpot mbi reservations (scan reservations elf.phdrs).request p → p ≠ 0 →
        Suits elf bytes (Wordsize.w64.sub p (scan reservations elf.phdrs).base) := by
  have need : (scan reservations elf.phdrs).needReloc = true := by
    by_contra notNeeded
    exact taken ((need_reloc_iff image).mp (by simpa using notNeeded))
  obtain ⟨result, served, allocated, outcome⟩ :=
    mm_alloc_first_fit safe.steps safe.ram ends safe.pos safe.search
  by_cases null : result = 0
  · have panics : ∀ value, loadElf (some mbi) reservations elf (mmAllocInit ⟨0, used, []⟩) bytes ≠
        .ok value := by
      intro value returned
      rw [loadElf, image.header, ok_bind, chooseReloc] at returned
      simp only [need, Bool.not_true, Bool.false_eq_true, if_false, allocated, ok_bind, null,
        if_true] at returned
      cases returned
    constructor
    · intro _ p first notNull
      rcases outcome with ⟨_, none⟩ | found
      · exact absurd first (none p)
      · exact absurd ((first.unique found).trans null) notNull
    · intro _ result after st' returned
      exact absurd returned (panics _)
  · have first := outcome.resolve_left fun exhausted => null exhausted.1
    obtain ⟨a, spot, _⟩ := first.spot
    have pos := safe.pos
    have under := spot.under
    have placed := placed_in_block image pos under spot.free.unreserved
    have chosen : chooseReloc (some mbi) reservations elf (mmAllocInit ⟨0, used, []⟩) =
        .ok (Wordsize.w64.sub result (scan reservations elf.phdrs).base, served) := by
      rw [chooseReloc]
      simp only [need, Bool.not_true, Bool.false_eq_true, if_false, allocated, ok_bind, null]
    obtain ⟨copied, isCopied, ran⟩ := load_elf_run image file placed chosen
    constructor
    · intro loads p other _
      obtain ⟨reloc, loaded⟩ := loads _ _ _ ran
      rw [other.unique first]
      exact suits_of_loaded image placed isCopied rfl (by omega) (base_lt _) rfl loaded
    · intro suits entry after st' returned
      rw [ran] at returned
      cases returned
      exact ⟨_, loaded_of_suits image placed isCopied rfl (suits result first null)⟩

end

/-! ## An image that has to move -/

/-- One segment of 32 bytes at 4 MiB, 16 of them in the file at 256 MiB, and one
RELA section. -/
def smallElf (align : Nat) : Elf64 where
  base := 0x10000000
  magic := elfMagic
  fileClass := elfClass64
  machine := emX8664
  entry := 0x400000
  phdrs := [⟨true, 0x100, 0x400000, 0x10, 0x20, align⟩]
  shdrs := [⟨.rela, 0x80, 24⟩]

/-- The file of `smallElf` has one RELA entry. -/
def smallBytes : Bytes :=
  writeList 0x10000080 (leBytes 8 0x400008 ++ leBytes 8 relative ++ leBytes 8 0x400010) fun _ => 0

/-- The link address, the file and the last page but one are reserved. -/
def smallReservations : Reservations :=
  [⟨0x400000, 0x1000⟩, ⟨0x10000000, 0x1000⟩, ⟨0xffffe000, 0x1000⟩]

theorem small_relas (align : Nat) :
    (smallElf align).relas smallBytes = [⟨0x400008, relative, 0x400010⟩] := by
  have run : (smallElf 1).relas smallBytes = [⟨0x400008, relative, 0x400010⟩] := by decide +kernel
  exact run

theorem small_image (i : Nat) (small : i < 64) : ImageOk (smallElf (2 ^ i)) smallBytes := by
  have segments : (smallElf (2 ^ i)).segments = [⟨true, 0x100, 0x400000, 0x10, 0x20, 2 ^ i⟩] := rfl
  constructor
  · rfl
  · simp [segments]
  · simp [segments]
  · simp only [segments, List.mem_singleton, forall_eq]
    exact ⟨i, small, rfl⟩
  · rw [segments]
    exact List.pairwise_singleton _ _
  · simp [smallElf]
  · rw [small_relas, segments]
    simp only [List.mem_singleton, forall_eq, exists_eq_left]
    exact ⟨rfl, by decide, by decide⟩

theorem small_ends : ∀ r ∈ smallReservations, r.start + r.size < 2 ^ 32 := by
  decide

theorem small_file (align : Nat) : FileReserved (smallElf align) smallReservations 0x200 := by
  refine ⟨by decide, by simp [smallElf], ?_, ?_, ?_⟩
  · intro address above less
    change 0x10000000 ≤ address at above
    change address < 0x10000000 + 0x200 at less
    exact ⟨⟨0x10000000, 0x1000⟩, by simp [smallReservations], above, by simp only; omega⟩
  · simp [Elf64.segments, smallElf]
  · simp [smallElf]

theorem small_first_spot : FirstSpot oneRange smallReservations 0x20 0x100000 := by
  have entry : IsEntry oneRange 0x9000 := first_entry one_range_steps (by decide)
  have free : Apart smallReservations 0x100000 0x20 := by
    unfold Apart
    decide
  refine ⟨0x9000, ⟨⟨entry, rfl, by decide, by decide⟩, by decide, free⟩, ?_⟩
  intro b q spot
  have above := spot.isIn.above
  rw [one_range_entry spot.isIn.entry] at above ⊢
  exact .inr ⟨rfl, above⟩

theorem small_safe : SafeRequest oneRange smallReservations 0 0x20 := by
  obtain ⟨a, spot, _⟩ := small_first_spot.spot
  refine ⟨one_range_steps, one_range_ram.bounded, by decide, fun _ => by decide, ?_, ?_⟩
  · exact .inl ⟨a, 0x100000, spot.isIn, spot.under, spot.free, .inl (spot.isIn.entry.pos one_range_steps)⟩
  · intro b p tries atTop
    have := one_range_tries tries
    omega

end Boot32

end L4Bootstrap
