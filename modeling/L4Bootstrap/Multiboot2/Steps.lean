import L4Bootstrap.Multiboot2.Tags

/-!
# One step of the conversion

What each `process_*` function does to a buffer whose unread tags fill it up to
its end. Rotation takes the tag at the front of the unread part behind
everything else; a reservation then cuts a piece off the end. Whatever stands
behind the end is never written again.
-/

namespace L4Bootstrap.Multiboot2

open MachineWord ByteMemory CheckedLoop

set_option autoImplicit false

/-! ## Words -/

theorem sub32_of_le {a b : Nat} (le : b ≤ a) (word : a < 2 ^ 32) : sub32 a b = a - b :=
  Wordsize.w32.sub_of_le le word

theorem add32_of_lt {a b : Nat} (fits : a + b < 2 ^ 32) : add32 a b = a + b :=
  Wordsize.w32.add_of_lt fits

theorem round_tag_of_lt {size : Nat} (fits : roundUp 3 size < 2 ^ 32) :
    roundTag size = roundUp 3 size :=
  Wordsize.w32.round_size_eq (by decide) fits

/-- Rounding a part of a tag: an aligned front is left out. -/
theorem round_tag_rest (t : Tag) {front : Nat} (aligned : 8 ∣ front) (inside : front ≤ t.size)
    (word : t.raw.length < 2 ^ 32) : roundTag (t.size - front) = t.raw.length - front := by
  have padded : roundUp 3 t.size = t.raw.length := t.padded
  have split : t.size = front + (t.size - front) := by omega
  rw [split, round_up_add aligned] at padded
  rw [round_tag_of_lt (by omega)]
  omega

/-! ## Rotation -/

theorem rotate_loop_rotates {stop src : Nat} (word : stop < 2 ^ 32) (rounds : Nat)
    {front back : List UInt8} {bytes : Bytes} (enough : front.length ≤ rounds)
    (held : Holds bytes src (front ++ back)) (ends : src + (front ++ back).length = stop) :
    Holds (rotateLoop stop src rounds front.length bytes) src (back ++ front) ∧
      ∀ a, a < src ∨ stop ≤ a → rotateLoop stop src rounds front.length bytes a = bytes a := by
  induction rounds generalizing front back bytes with
  | zero =>
      have empty : front = [] := List.length_eq_zero_iff.mp (by omega)
      subst empty
      exact ⟨by simpa [rotateLoop] using held, fun a _ => rfl⟩
  | succ rounds ih =>
      rw [rotateLoop]
      split_ifs with done
      · have empty : front = [] := List.length_eq_zero_iff.mp done
        subst empty
        exact ⟨by simpa using held, fun a _ => rfl⟩
      · have copiedLe : min rotateBuffer front.length ≤ front.length := Nat.min_le_right _ _
        have copiedPos : 0 < min rotateBuffer front.length := by
          unfold rotateBuffer
          omega
        generalize min rotateBuffer front.length = copied at copiedLe copiedPos ⊢
        -- the piece in the temporary buffer, and what the next rounds have to rotate
        obtain ⟨piece, rest, rfl, pieceLength⟩ :
            ∃ piece rest, front = piece ++ rest ∧ piece.length = copied :=
          ⟨front.take copied, front.drop copied, (List.take_append_drop copied front).symm,
            by rw [List.length_take, Nat.min_eq_left copiedLe]⟩
        subst pieceLength
        simp only [List.length_append] at ends enough ⊢
        rw [List.append_assoc] at held
        have buffer : readList bytes src piece.length = piece :=
          (holds_append.mp held).1.read_list
        have length : sub32 (sub32 stop src) piece.length = (rest ++ back).length := by
          rw [sub32_of_le (by omega) word, sub32_of_le (by omega) (by omega), List.length_append]
          omega
        have place : sub32 stop piece.length = src + (rest ++ back).length := by
          rw [sub32_of_le (by omega) word, List.length_append]
          omega
        have next := held.rotate_piece
        rw [List.append_assoc] at next
        rw [buffer, length, place, Nat.add_sub_cancel_left]
        have result := ih (by omega) next (by simp only [List.length_append]; omega)
        constructor
        · rw [← List.append_assoc]
          simpa only [List.append_assoc] using result.1
        · intro a outside
          rw [result.2 a outside, write_list_outside (by simp only [List.length_append]; omega),
            memmove_outside (by simp only [List.length_append]; omega)]

/-- The unread part of the buffer: it starts at `tag` and fills the buffer. -/
structure Unread (bytes : Bytes) (stop tag : Nat) (l : List UInt8) : Prop where
  held : Holds bytes tag l
  ends : tag + l.length = stop
  word : stop < 2 ^ 32

/-- A list behind the end of the buffer. -/
structure Kept (bytes : Bytes) (stop p : Nat) (l : List UInt8) : Prop where
  above : stop ≤ p
  word : p + l.length < 2 ^ 32
  held : Holds bytes p l

/-- Nothing behind the end has changed, and the end has not moved up. -/
structure Shrinks (bytes : Bytes) (stop : Nat) (after : Bytes) (stopAfter : Nat) : Prop where
  lower : stopAfter ≤ stop
  frame : ∀ a, stop ≤ a → after a = bytes a

theorem Shrinks.trans {bytes mid after : Bytes} {stop stopMid stopAfter : Nat}
    (first : Shrinks bytes stop mid stopMid) (second : Shrinks mid stopMid after stopAfter) :
    Shrinks bytes stop after stopAfter where
  lower := second.lower.trans first.lower
  frame a above := by rw [second.frame a (first.lower.trans above), first.frame a above]

theorem Kept.shrinks {bytes after : Bytes} {stop stopAfter p : Nat} {l : List UInt8}
    (kept : Kept bytes stop p l) (step : Shrinks bytes stop after stopAfter) :
    Kept after stopAfter p l where
  above := step.lower.trans kept.above
  word := kept.word
  held := kept.held.frame fun a inside _ => step.frame a (kept.above.trans inside)

theorem reserve_from_end_eq {b : ConvertibleBuffer} {size n : Nat} (rounded : roundTag size = n)
    (fits : n ≤ b.size) : reserveFromEnd size b = .ok { b with size := b.size - n } := by
  rw [reserveFromEnd, rounded, require, if_pos fits]
  rfl

section

variable {b : ConvertibleBuffer} {tag : Nat} {t : Tag} {back : List UInt8}

theorem Unread.front {bytes : Bytes} {stop : Nat}
    (unread : Unread bytes stop tag (t.raw ++ back)) : Holds bytes tag t.raw :=
  (holds_append.mp unread.held).1

theorem Unread.room {bytes : Bytes} {stop : Nat}
    (unread : Unread bytes stop tag (t.raw ++ back)) :
    tag + back.length + t.raw.length = stop ∧ stop < 2 ^ 32 := by
  have ends := unread.ends
  rw [List.length_append] at ends
  exact ⟨by omega, unread.word⟩

/-- `rotate_to_end` on the tag at the front. -/
theorem Unread.rotate (unread : Unread b.bytes (b.buf + b.size) tag (t.raw ++ back)) :
    ∃ bytes, rotateToEnd b tag = ({ b with bytes := bytes }, tag + back.length) ∧
      Unread bytes (b.buf + b.size) tag (back ++ t.raw) ∧
      Shrinks b.bytes (b.buf + b.size) bytes (b.buf + b.size) := by
  have rotated := rotate_loop_rotates unread.word t.raw.length le_rfl unread.held unread.ends
  obtain ⟨ends, word⟩ := unread.room
  have stop : b.stop = b.buf + b.size := add32_of_lt word
  have size : roundTag (tagSize b.bytes tag) = t.raw.length := by
    have whole := round_tag_rest t (Nat.dvd_zero 8) (Nat.zero_le _) (by omega)
    rw [tag_size_eq unread.front]
    simpa using whole
  refine ⟨rotateLoop (b.buf + b.size) tag t.raw.length t.raw.length b.bytes, ?_, ?_, ?_⟩
  · rw [rotateToEnd, size, stop, sub32_of_le (by omega) word]
    congr 1
    omega
  · exact ⟨rotated.1, by rw [List.length_append]; omega, word⟩
  · exact ⟨le_rfl, fun a above => rotated.2 a (.inr above)⟩

/-- A reservation that leaves the first bytes of the last list in the buffer. -/
theorem Unread.cut {bytes : Bytes} {stop front : Nat} {l : List UInt8}
    (unread : Unread bytes stop tag (back ++ l)) (inside : front ≤ l.length) :
    Unread bytes (stop - (l.length - front)) tag (back ++ l.take front) := by
  have ends := unread.ends
  have word := unread.word
  have whole := unread.held
  rw [List.length_append] at ends
  rw [← List.take_append_drop front l, ← List.append_assoc, holds_append] at whole
  constructor
  · exact whole.1
  · rw [List.length_append, List.length_take, Nat.min_eq_left inside]
    omega
  · omega

/-- The tag at the front has been rotated to the end and cut off behind its
first bytes. -/
structure Taken (b : ConvertibleBuffer) (tag : Nat) (t : Tag) (back : List UInt8) (front : Nat)
    (bytes : Bytes) : Prop where
  placed : Holds bytes (tag + back.length) t.raw
  stop : b.buf + (b.size - (t.raw.length - front)) = tag + back.length + front
  unread : Unread bytes (b.buf + (b.size - (t.raw.length - front))) tag
    (back ++ t.raw.take front)
  kept : Kept bytes (b.buf + (b.size - (t.raw.length - front))) (tag + back.length + front)
    (t.payload front)
  shrinks : Shrinks b.bytes (b.buf + b.size) bytes (b.buf + (b.size - (t.raw.length - front)))

theorem Unread.taken (unread : Unread b.bytes (b.buf + b.size) tag (t.raw ++ back))
    {front : Nat} (inside : front ≤ t.size) (fits : t.raw.length - front ≤ b.size) :
    ∃ bytes, rotateToEnd b tag = ({ b with bytes := bytes }, tag + back.length) ∧
      Taken b tag t back front bytes := by
  obtain ⟨bytes, rotated, moved, shrinks⟩ := unread.rotate
  obtain ⟨ends, word⟩ := unread.room
  have sizeLe := t.size_le
  have placed : Holds bytes (tag + back.length) t.raw := (holds_append.mp moved.held).2
  have cut := moved.cut (inside.trans sizeLe)
  have stop : b.buf + b.size - (t.raw.length - front) =
      b.buf + (b.size - (t.raw.length - front)) := by omega
  rw [stop] at cut
  refine ⟨bytes, rotated, placed, by omega, cut, ⟨by omega, ?_, ?_⟩, by omega, shrinks.frame⟩
  · rw [Tag.length_payload]
    omega
  · exact holds_payload placed inside

section

variable {front : Nat} {bytes : Bytes}

theorem Taken.stop_eq (taken : Taken b tag t back front bytes) :
    add32 b.buf (b.size - (t.raw.length - front)) = tag + back.length + front := by
  rw [← taken.stop]
  exact add32_of_lt taken.unread.word

theorem Taken.size_eq (taken : Taken b tag t back front bytes) (inside : front ≤ t.size)
    (word : t.raw.length < 2 ^ 32) :
    sub32 (tagSize bytes (tag + back.length)) front = t.size - front := by
  rw [tag_size_eq taken.placed]
  exact sub32_of_le inside (t.size_le.trans_lt word)

/-- The reservation after the rotation. -/
theorem reserve_rest {bytes : Bytes} (aligned : 8 ∣ front) (inside : front ≤ t.size)
    (fits : t.raw.length - front ≤ b.size) (word : t.raw.length < 2 ^ 32) :
    reserveFromEnd (t.size - front) { b with bytes := bytes } =
      .ok { b with bytes := bytes, size := b.size - (t.raw.length - front) } :=
  reserve_from_end_eq (round_tag_rest t aligned inside word) fits

end

/-! ## The simple tags -/

theorem process_cmdline_spec (unread : Unread b.bytes (b.buf + b.size) tag (t.raw ++ back))
    (fits : t.raw.length - 8 ≤ b.size) :
    ∃ bytes, processCmdline b tag =
        .ok { b with
          bytes := bytes
          size := b.size - (t.raw.length - 8)
          mbi := { b.mbi with
            flags := b.mbi.flags ||| flagCmdline, cmdline := tag + back.length + 8 } } ∧
      Taken b tag t back 8 bytes := by
  obtain ⟨ends, word⟩ := unread.room
  obtain ⟨bytes, rotated, taken⟩ := unread.taken t.header fits
  refine ⟨bytes, ?_, taken⟩
  have size := taken.size_eq t.header (by omega)
  rw [processCmdline, rotated]
  simp only [size, reserve_rest (by decide) t.header fits (by omega), ok_bind]

theorem process_rsdp_spec (unread : Unread b.bytes (b.buf + b.size) tag (t.raw ++ back))
    (fits : t.raw.length - 8 ≤ b.size) :
    ∃ bytes, processRsdp b tag =
        .ok { b with
          bytes := bytes
          size := b.size - (t.raw.length - 8)
          rsdpStart := tag + back.length + 8
          rsdpSize := t.size - 8 } ∧
      Taken b tag t back 8 bytes := by
  obtain ⟨ends, word⟩ := unread.room
  obtain ⟨bytes, rotated, taken⟩ := unread.taken t.header fits
  refine ⟨bytes, ?_, taken⟩
  have size := taken.size_eq t.header (by omega)
  rw [processRsdp, rotated]
  simp only [size, reserve_rest (by decide) t.header fits (by omega), ok_bind,
    ConvertibleBuffer.stop, taken.stop_eq]

/-- A framebuffer of another type is only rotated. -/
theorem process_fb_other (unread : Unread b.bytes (b.buf + b.size) tag (t.raw ++ back))
    (large : 32 ≤ t.size) (other : leAt t.raw 29 1 ≠ 1) :
    ∃ bytes, processFb b tag = .ok { b with bytes := bytes } ∧
      Unread bytes (b.buf + b.size) tag (back ++ t.raw) ∧
      Shrinks b.bytes (b.buf + b.size) bytes (b.buf + b.size) := by
  obtain ⟨bytes, rotated, moved, shrinks⟩ := unread.rotate
  have sizeLe := t.size_le
  have type := (holds_append.mp moved.held).2.read_le (show 29 + 1 ≤ t.raw.length by omega)
  refine ⟨bytes, ?_, moved, shrinks⟩
  rw [processFb, rotated]
  simp only [type]
  rw [if_pos other]

/-- A framebuffer of type 1 is rotated, and the size of the two video structures
is cut off the end, whatever stands there. -/
theorem process_fb_video (unread : Unread b.bytes (b.buf + b.size) tag (t.raw ++ back))
    (large : 32 ≤ t.size) (video : leAt t.raw 29 1 = 1)
    (fits : vbeModeSize + vbeCtrlSize ≤ b.size) :
    ∃ bytes mode ctrl, processFb b tag =
        .ok { b with
          bytes := bytes
          size := b.size - (vbeModeSize + vbeCtrlSize)
          vbeMode := mode
          vbeCtrl := ctrl
          mbi := { b.mbi with flags := b.mbi.flags ||| flagVideoInfo } } ∧
      Unread bytes (b.buf + b.size) tag (back ++ t.raw) ∧
      Shrinks b.bytes (b.buf + b.size) bytes (b.buf + b.size) := by
  obtain ⟨bytes, rotated, moved, shrinks⟩ := unread.rotate
  have sizeLe := t.size_le
  have type := (holds_append.mp moved.held).2.read_le (show 29 + 1 ≤ t.raw.length by omega)
  have reserve : reserveFromEnd (vbeModeSize + vbeCtrlSize) { b with bytes := bytes } =
      .ok { b with bytes := bytes, size := b.size - (vbeModeSize + vbeCtrlSize) } :=
    reserve_from_end_eq (by decide) fits
  refine ⟨bytes, framebufferMode bytes (tag + back.length),
    ⟨(framebufferMode bytes (tag + back.length)).totalMemory⟩, ?_, moved, shrinks⟩
  rw [processFb, rotated]
  simp only [type]
  rw [if_neg (by simpa using video), convertFb]
  simp only [reserve, ok_bind]

/-! ## The memory map -/

def AddrRange.encode (range : AddrRange) : List UInt8 :=
  leBytes 4 20 ++ leBytes 8 range.addr ++ leBytes 8 range.size ++ leBytes 4 range.type

@[simp] theorem length_range_encode (range : AddrRange) : range.encode.length = 24 := by
  simp [AddrRange.encode]

/-- The conversion has come to the `done`-th entry of the map at `dst`. -/
structure Mapping (t : Tag) (dst : Nat) (before : Bytes) (done : Nat) (bytes : Bytes) : Prop where
  converted : ∀ i, i < done → Holds bytes (dst + 16 + 24 * i) (t.range i).encode
  frame : ∀ a, a < dst + 16 ∨ dst + 16 + 24 * done ≤ a → bytes a = before a

theorem Mapping.record {dst done : Nat} {before bytes : Bytes}
    (mapping : Mapping t dst before done bytes) (placed : Holds before dst t.raw)
    (inside : 16 + 24 * (done + 1) ≤ t.raw.length) :
    rangeRecord 24 bytes (dst + 16 + 24 * done) = (t.range done).encode := by
  have field : ∀ offset n, offset + n ≤ 24 → readLe bytes (dst + 16 + 24 * done + offset) n =
      leAt t.raw (16 + 24 * done + offset) n := by
    intro offset n small
    rw [← placed.read_le (show 16 + 24 * done + offset + n ≤ t.raw.length by omega)]
    apply read_le_congr
    intro i less
    rw [mapping.frame _ (by omega)]
    congr 1
    omega
  have addr := field 0 8 (by omega)
  rw [Nat.add_zero, Nat.add_zero] at addr
  rw [rangeRecord, addr, field 8 8 (by omega), field 16 4 (by omega)]
  rfl

theorem Mapping.next {dst done : Nat} {before bytes : Bytes}
    (mapping : Mapping t dst before done bytes) :
    Mapping t dst before (done + 1)
      (writeList (dst + 16 + 24 * done) (t.range done).encode bytes) where
  converted i less := by
    rcases Nat.lt_succ_iff_lt_or_eq.mp less with earlier | rfl
    · apply (mapping.converted i earlier).frame
      intro a above below
      rw [length_range_encode] at below
      apply write_list_outside
      omega
    · exact holds_write_list
  frame a outside := by
    rw [write_list_outside (by rw [length_range_encode]; omega), mapping.frame a (by omega)]

theorem memmap_loop_converts {dst fuel : Nat} {bytes : Bytes} (placed : Holds bytes dst t.raw)
    (header : 16 ≤ t.size) (whole : 24 ∣ t.size - 16) (word : dst + t.raw.length < 2 ^ 32)
    (enough : (t.size - 16) / 24 < fuel) :
    ∃ after, loop (memmapRound dst 24) .diverges fuel (bytes, dst + 16) = .ok after ∧
      Mapping t dst bytes ((t.size - 16) / 24) after := by
  obtain ⟨entries, count⟩ := whole
  have quotient : (t.size - 16) / 24 = entries := by omega
  have sizeLe := t.size_le
  rw [quotient] at enough ⊢
  apply loop_descends (memmapRound dst 24) .diverges
    (fun left st => ∃ done, done + left = entries ∧ st.2 = dst + 16 + 24 * done ∧
      Mapping t dst bytes done st.1) _ _ ⟨0, by omega, by omega, ?_⟩ enough
  · rintro left ⟨now, entry⟩ ⟨done, sum, rfl, mapping⟩
    have size : tagSize now dst = t.size := by
      rw [← tag_size_eq placed]
      apply read_le_congr
      intro i less
      exact mapping.frame _ (by omega)
    have bound : add32 dst (tagSize now dst) = dst + 16 + 24 * entries := by
      rw [size, add32_of_lt (by omega)]
      omega
    simp only [memmapRound, bound]
    split_ifs with more
    · have record := mapping.record placed (by omega)
      refine .inr ⟨_, left - 1, rfl, by omega, done + 1, by omega, ?_, ?_⟩
      · rw [add32_of_lt (by omega)]
        omega
      · rw [record]
        exact mapping.next
    · have finished : done = entries := by omega
      subst finished
      exact .inl ⟨now, rfl, mapping⟩
  · exact ⟨fun i less => absurd less (Nat.not_lt_zero i), fun a _ => rfl⟩

theorem process_memmap_spec {fuel : Nat}
    (unread : Unread b.bytes (b.buf + b.size) tag (t.raw ++ back)) (header : 16 ≤ t.size)
    (entrySize : leAt t.raw 8 4 = 24) (whole : 24 ∣ t.size - 16)
    (fits : t.raw.length - 16 ≤ b.size) (enough : t.raw.length < fuel) :
    ∃ bytes, processMemmap fuel b tag =
        .ok { b with
          bytes := bytes
          size := b.size - (t.raw.length - 16)
          mbi := { b.mbi with
            flags := b.mbi.flags ||| flagMemMap
            mmapLength := t.size - 16
            mmapAddr := tag + back.length + 16 } } ∧
      Unread bytes (b.buf + (b.size - (t.raw.length - 16))) tag (back ++ t.raw.take 16) ∧
      Shrinks b.bytes (b.buf + b.size) bytes (b.buf + (b.size - (t.raw.length - 16))) ∧
      ∀ i, i < (t.size - 16) / 24 →
        Kept bytes (b.buf + (b.size - (t.raw.length - 16))) (tag + back.length + 16 + 24 * i)
          (t.range i).encode := by
  obtain ⟨ends, word⟩ := unread.room
  obtain ⟨bytes, rotated, taken⟩ := unread.taken header fits
  have sizeLe := t.size_le
  have size := taken.size_eq header (by omega)
  have entry : readLe bytes (tag + back.length + 8) 4 = 24 := by
    rw [taken.placed.read_le (by omega), entrySize]
  obtain ⟨after, looped, mapping⟩ := memmap_loop_converts taken.placed header whole (by omega)
    (show (t.size - 16) / 24 < fuel by omega)
  have multiple := Nat.div_mul_le_self (t.size - 16) 24
  have stop := taken.stop
  refine ⟨after, ?_, ⟨?_, taken.unread.ends, taken.unread.word⟩, ⟨taken.shrinks.lower, ?_⟩, ?_⟩
  · rw [processMemmap, rotated]
    simp only [size, entry, looped, ok_bind]
    simp only [reserve_rest (by decide) header fits (by omega), ok_bind, ConvertibleBuffer.stop,
      taken.stop_eq]
  · apply taken.unread.held.frame
    intro a above below
    have length := taken.unread.ends
    exact mapping.frame a (.inl (by omega))
  · intro a above
    rw [mapping.frame a (.inr (by omega)), taken.shrinks.frame a above]
  · intro i less
    have inside : 24 * i + 24 ≤ t.size - 16 := by omega
    exact ⟨by omega, by rw [length_range_encode]; omega, mapping.converted i less⟩

end

/-! ## Modules -/

/-- The v1 record of a module whose string has been put at an address. -/
def modEntry (entry : Tag × Nat) : List UInt8 :=
  leBytes 4 (leAt entry.1.raw 8 4) ++ leBytes 4 (leAt entry.1.raw 12 4) ++ leBytes 4 entry.2 ++
    leBytes 4 0

def modEntries (placed : List (Tag × Nat)) : List UInt8 := placed.flatMap modEntry

@[simp] theorem length_mod_entry (entry : Tag × Nat) : (modEntry entry).length = 16 := by
  simp [modEntry]

theorem length_mod_entries (placed : List (Tag × Nat)) :
    (modEntries placed).length = 16 * placed.length := by
  induction placed with
  | nil => rfl
  | cons entry placed ih =>
      rw [modEntries, List.flatMap_cons, List.length_append, length_mod_entry, List.length_cons]
      rw [modEntries] at ih
      omega

/-- The loop of `process_modules` in the middle of a block: `done` is converted,
its records stand at the end of the buffer, and `behind` follows the block. -/
structure ModulesMoved (b : ConvertibleBuffer) (tag : Nat) (behind : List UInt8)
    (done rest : List Tag) (placed : List (Tag × Nat)) (now : ConvertibleBuffer) : Prop where
  same : now = { b with bytes := now.bytes, size := now.size }
  unread : Unread now.bytes (b.buf + now.size) tag (image rest ++ (behind ++ modEntries placed))
  mods : placed.map Prod.fst = done
  kept : ∀ entry ∈ placed,
    Kept now.bytes (b.buf + now.size) entry.2 (entry.1.payload 16)
  shrinks : Shrinks b.bytes (b.buf + b.size) now.bytes (b.buf + now.size)
  size : now.size + (done.map fun t => t.raw.length - 16).sum = b.size

section

variable {b now : ConvertibleBuffer} {tag : Nat} {behind back : List UInt8} {t : Tag}
  {done rest : List Tag} {placed : List (Tag × Nat)}

theorem mod_record_eq {bytes : Bytes} {dst : Nat} (held : Holds bytes dst t.raw)
    (large : 16 ≤ t.size) : modRecord bytes dst = modEntry (t, dst + 16) := by
  have sizeLe := t.size_le
  rw [modRecord, modEntry, held.read_le (by omega), held.read_le (by omega)]

/-- Overwriting the header of the tag at the end by a record of the same size. -/
theorem Unread.overwrite {bytes : Bytes} {stop : Nat} {last entry : List UInt8}
    (unread : Unread bytes stop tag (back ++ last)) (same : entry.length = last.length) :
    Unread (writeList (tag + back.length) entry bytes) stop tag (back ++ entry) := by
  have ends := unread.ends
  rw [List.length_append] at ends
  refine ⟨holds_append.mpr ⟨?_, holds_write_list⟩, by rw [List.length_append]; omega, unread.word⟩
  apply (holds_append.mp unread.held).1.frame
  intro a _ below
  exact write_list_outside (.inl below)

theorem ModulesMoved.step
    (moved : ModulesMoved b tag behind done (t :: rest) placed now) (base : b.buf ≤ tag)
    (kind : t.kind = .module) (large : 16 ≤ t.size) (cnt : Nat) :
    ∃ p next, moduleRound tag (now, cnt) = .ok (.again (next, cnt + 1)) ∧
      ModulesMoved b tag behind (done ++ [t]) rest (placed ++ [(t, p)]) next := by
  have unread := moved.unread
  have buf : now.buf = b.buf := by rw [moved.same]
  have size := moved.size
  rw [image, List.flatMap_cons, ← image, List.append_assoc, ← buf] at unread
  obtain ⟨ends, word⟩ := unread.room
  have fits : t.raw.length - 16 ≤ now.size := by omega
  obtain ⟨bytes, rotated, taken⟩ := unread.taken large fits
  generalize backIs : image rest ++ (behind ++ modEntries placed) = back at *
  have sizeLe := t.size_le
  have stop := taken.stop
  have takeLength : (t.raw.take 16).length = 16 := by
    rw [List.length_take]
    omega
  -- the record overwrites the header, right below the new end
  have written : Shrinks bytes (now.buf + (now.size - (t.raw.length - 16)))
      (writeList (tag + back.length) (modEntry (t, tag + back.length + 16)) bytes)
      (now.buf + (now.size - (t.raw.length - 16))) := by
    refine ⟨le_rfl, ?_⟩
    intro a above
    exact write_list_outside (.inr (by rw [length_mod_entry]; omega))
  have left := taken.unread
  have kept := taken.kept
  have shrinks := taken.shrinks.trans written
  rw [buf] at shrinks left kept written
  refine ⟨tag + back.length + 16, { now with
    bytes := writeList (tag + back.length) (modEntry (t, tag + back.length + 16)) bytes
    size := now.size - (t.raw.length - 16) }, ?_, ?_⟩
  · rw [moduleRound, if_pos (by rw [tag_kind_eq unread.front, kind]), rotated]
    simp only [taken.size_eq large (by omega), reserve_rest (by decide) large fits (by omega),
      ok_bind, mod_record_eq taken.placed large]
  · constructor
    · rw [moved.same]
    · rw [modEntries, List.flatMap_append, List.flatMap_singleton, ← modEntries,
        ← List.append_assoc behind, ← List.append_assoc, backIs]
      exact left.overwrite (by rw [length_mod_entry, takeLength])
    · rw [List.map_append, moved.mods]
      rfl
    · intro entry member
      rcases List.mem_append.mp member with old | new
      · exact (moved.kept entry old).shrinks shrinks
      · rw [List.mem_singleton.mp new]
        exact kept.shrinks written
    · exact moved.shrinks.trans shrinks
    · rw [List.map_append, List.sum_append]
      simp only [List.map_cons, List.map_nil, List.sum_cons, List.sum_nil]
      omega

/-- The loop ends at the first tag behind the block. -/
theorem module_loop_converts {fuel : Nat} {block : List Tag} {next : Tag} {more : List UInt8}
    (unread : Unread b.bytes (b.buf + b.size) tag (image block ++ (next.raw ++ more)))
    (base : b.buf ≤ tag) (mods : ∀ t ∈ block, t.kind = .module ∧ 16 ≤ t.size)
    (other : next.kind ≠ .module) (enough : block.length < fuel) :
    ∃ st, loop (moduleRound tag) .diverges fuel (b, 0) = .ok st ∧ st.2 = block.length ∧
      ∃ placed, ModulesMoved b tag (next.raw ++ more) block [] placed st.1 := by
  apply loop_descends (moduleRound tag) .diverges
    (fun left st => ∃ done rest placed, block = done ++ rest ∧ rest.length = left ∧
      st.2 = done.length ∧ ModulesMoved b tag (next.raw ++ more) done rest placed st.1)
    (fun st => st.2 = block.length ∧
      ∃ placed, ModulesMoved b tag (next.raw ++ more) block [] placed st.1)
    _ ⟨[], block, [], rfl, rfl, rfl, ?_⟩ enough
  · rintro left ⟨now, cnt⟩ ⟨done, rest, placed, split, length, count, moved⟩
    cases rest with
    | nil =>
        rw [List.append_nil] at split
        have front := moved.unread
        rw [image, List.flatMap_nil, List.nil_append, List.append_assoc] at front
        have kind := tag_kind_eq front.front
        refine .inl ⟨(now, cnt), ?_, ?_, placed, ?_⟩
        · rw [moduleRound, if_neg (by rw [kind]; exact other)]
        · rw [split]
          exact count
        · rw [split]
          exact moved
    | cons t rest =>
        obtain ⟨kind, large⟩ := mods t (by rw [split]; simp)
        obtain ⟨p, after, round, movedNext⟩ := moved.step base kind large cnt
        refine .inr ⟨(after, cnt + 1), rest.length, round, ?_, done ++ [t], rest, _, ?_, rfl, ?_,
          movedNext⟩
        · rw [← length, List.length_cons]
          exact Nat.lt_succ_self _
        · rw [split, List.append_assoc]
          rfl
        · rw [List.length_append]
          exact congrArg (· + 1) count
  · constructor
    · rfl
    · simpa [modEntries] using unread
    · rfl
    · intro entry member
      cases member
    · exact ⟨le_rfl, fun a _ => rfl⟩
    · rfl

theorem sum_without_headers {block : List Tag} (large : ∀ t ∈ block, 16 ≤ t.raw.length) :
    (block.map fun t => t.raw.length - 16).sum + 16 * block.length = (image block).length := by
  induction block with
  | nil => rfl
  | cons t block ih =>
      have rest := ih fun u member => large u (by simp [member])
      have head := large t (by simp)
      rw [image] at rest ⊢
      rw [List.flatMap_cons, List.length_append, List.map_cons, List.sum_cons, List.length_cons]
      omega

theorem process_modules_spec {fuel : Nat} {block : List Tag} {next : Tag} {more : List UInt8}
    (unread : Unread b.bytes (b.buf + b.size) tag (image block ++ (next.raw ++ more)))
    (base : b.buf ≤ tag) (mods : ∀ t ∈ block, t.kind = .module ∧ 16 ≤ t.size)
    (other : next.kind ≠ .module) (enough : block.length < fuel) (nonempty : block ≠ []) :
    ∃ bytes placed, processModules fuel b tag =
        .ok { b with
          bytes := bytes
          size := b.size - (image block).length
          mbi := { b.mbi with
            flags := b.mbi.flags ||| flagMods
            modsCount := block.length
            modsAddr := tag + (next.raw ++ more).length } } ∧
      Unread bytes (b.buf + (b.size - (image block).length)) tag (next.raw ++ more) ∧
      Shrinks b.bytes (b.buf + b.size) bytes (b.buf + (b.size - (image block).length)) ∧
      placed.map Prod.fst = block ∧
      Kept bytes (b.buf + (b.size - (image block).length)) (tag + (next.raw ++ more).length)
        (modEntries placed) ∧
      ∀ entry ∈ placed, Kept bytes (b.buf + (b.size - (image block).length)) entry.2
        (entry.1.payload 16) := by
  obtain ⟨⟨now, cnt⟩, looped, count, placed, moved⟩ :=
    module_loop_converts unread base mods other enough
  simp only at count moved
  subst count
  have sizes := moved.size
  have sum := sum_without_headers fun t member => (mods t member).2.trans t.size_le
  have lengths : placed.length = block.length := by
    rw [← moved.mods, List.length_map]
  have entries := length_mod_entries placed
  have left := moved.unread
  rw [image, List.flatMap_nil, List.nil_append] at left
  have ends := left.ends
  have whole := unread.ends
  rw [List.length_append] at ends whole
  generalize next.raw ++ more = behind at *
  have word := left.word
  have stop : b.buf + (b.size - (image block).length) = tag + behind.length := by omega
  have reserve : reserveFromEnd (16 * block.length) now =
      .ok { now with size := now.size - 16 * block.length } := by
    apply reserve_from_end_eq _ (by omega)
    have aligned : 2 ^ 3 ∣ 16 * block.length := ⟨2 * block.length, by omega⟩
    rw [round_tag_of_lt (by rw [round_up_of_dvd aligned]; omega), round_up_of_dvd aligned]
  obtain ⟨behindHeld, entriesHeld⟩ := holds_append.mp left.held
  refine ⟨now.bytes, placed, ?_, ⟨behindHeld, by omega, by omega⟩,
    ⟨by omega, moved.shrinks.frame⟩, moved.mods, ⟨by omega, by omega, entriesHeld⟩, ?_⟩
  · have positive : block.length ≠ 0 := fun none => nonempty (List.length_eq_zero_iff.mp none)
    have size : now.size - 16 * block.length = b.size - (image block).length := by omega
    rw [processModules, looped]
    simp only [ok_bind]
    rw [reserveModules, if_neg positive, reserve]
    simp only [ok_bind, ConvertibleBuffer.stop, size]
    rw [moved.same]
    simp only [add32_of_lt (show b.buf + (b.size - (image block).length) < 2 ^ 32 by omega), stop]
  · intro entry member
    have kept := moved.kept entry member
    exact ⟨le_trans (by omega) kept.above, kept.word, kept.held⟩

end

end L4Bootstrap.Multiboot2
