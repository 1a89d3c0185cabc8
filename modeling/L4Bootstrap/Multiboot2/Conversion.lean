import L4Bootstrap.Multiboot2.Walk
import Mathlib.Data.List.TakeWhile

/-!
# The conversion preserves the data

`finalize` leaves the v1 structure at the start of the buffer. A reader of it
finds what the tags said, as long as the framebuffer reservation stays within
the framebuffer tag and the leftovers before it.
-/

namespace L4Bootstrap.Multiboot2

open MachineWord ByteMemory CheckedLoop

set_option autoImplicit false

/-! ## The v1 structure -/

section

variable {b : ConvertibleBuffer} {bytes : Bytes} {p : Nat} {l : List UInt8}

/-- The video structures stand below the rest of what `finalize` writes. -/
theorem finalize_video_writes
    (video : b.mbi.flags.testBit 11 = true → mbiSize + vbeModeSize + vbeCtrlSize ≤ b.size) :
    ∃ bytes s mode ctrl, finalizeVideo b =
        .ok ({ b with
          bytes := bytes, mbi := { b.mbi with vbeModeInfo := mode, vbeCtrlInfo := ctrl } }, s) ∧
      (s = 0 ∨ s + mbiSize ≤ b.size) ∧
      Shrinks b.bytes (b.buf + b.size) bytes (b.buf + b.size) := by
  unfold finalizeVideo
  split_ifs with flagged
  · have room := video flagged
    unfold mbiSize vbeModeSize vbeCtrlSize at room
    refine ⟨writeList (b.buf + vbeModeSize) b.vbeCtrl.encode
        (writeList b.buf b.vbeMode.encode b.bytes),
      vbeModeSize + vbeCtrlSize, b.buf, b.buf + vbeModeSize, ?_, ?_, le_rfl, ?_⟩
    · rw [require, if_pos (video flagged)]
      rfl
    · right
      unfold mbiSize vbeModeSize vbeCtrlSize
      omega
    · intro a above
      have modeLength := length_vbe_mode_encode b.vbeMode
      have ctrlLength := length_vbe_ctrl_encode b.vbeCtrl
      unfold vbeModeSize at modeLength ⊢
      unfold vbeCtrlSize at ctrlLength
      rw [write_list_outside (by omega), write_list_outside (by omega)]
  · exact ⟨b.bytes, 0, b.mbi.vbeModeInfo, b.mbi.vbeCtrlInfo, rfl, .inl rfl, le_rfl, fun a _ => rfl⟩

/-- `finalize` writes below the end of the buffer; the structure it leaves has the
fields that the loop has set. -/
theorem finalize_keeps {tags : List Tag} (converted : Converted b tags) (room : mbiSize ≤ b.size)
    (video : b.mbi.flags.testBit 11 = true → mbiSize + vbeModeSize + vbeCtrlSize ≤ b.size) :
    ∃ after p, finalize b = .ok (after, p) ∧ Converted after tags ∧
      Holds after.bytes p after.mbi.encode := by
  obtain ⟨bytes, s, mode, ctrl, written, fits, shrinks⟩ := finalize_video_writes video
  have length := length_mbi_encode { b.mbi with vbeModeInfo := mode, vbeCtrlInfo := ctrl }
  have finalized : finalize b = .ok ({ b with
      bytes := memset (b.buf + (s + mbiSize)) 0 (b.size - (s + mbiSize))
        (writeList (b.buf + s) { b.mbi with vbeModeInfo := mode, vbeCtrlInfo := ctrl : Mbi }.encode
          bytes)
      mbi := { b.mbi with vbeModeInfo := mode, vbeCtrlInfo := ctrl } }, b.buf + s) := by
    rw [finalize, require, if_pos room, ok_bind, written]
    rfl
  have lower : Shrinks b.bytes (b.buf + b.size)
      (memset (b.buf + (s + mbiSize)) 0 (b.size - (s + mbiSize))
        (writeList (b.buf + s) { b.mbi with vbeModeInfo := mode, vbeCtrlInfo := ctrl : Mbi }.encode
          bytes)) (b.buf + b.size) := by
    refine ⟨le_rfl, ?_⟩
    intro a above
    rw [memset_outside (by omega), write_list_outside (by omega), shrinks.frame a above]
  refine ⟨_, _, finalized, ?_, ?_⟩
  · exact ⟨converted.cmdline.carry lower rfl rfl, converted.modules.carry lower rfl rfl,
      converted.memmap.carry lower rfl rfl, converted.rsdp.carry lower rfl, converted.video⟩
  · apply holds_write_list.frame
    intro a _ below
    have inside : a < b.buf + s + mbiSize := length ▸ below
    exact memset_outside (by omega)

theorem spells_text (held : Holds bytes p l) (ended : 0 ∈ l) :
    Spells bytes p (l.takeWhile (· ≠ 0)) := by
  constructor
  · intro member
    have nonzero := List.all_eq_true.mp List.all_takeWhile 0 member
    simp at nonzero
  · have parts : l.takeWhile (· ≠ 0) ++ l.dropWhile (· ≠ 0) = l :=
      List.takeWhile_append_dropWhile
    rw [← parts, holds_append] at held
    refine holds_append.mpr ⟨held.1, ?_⟩
    cases rest : l.dropWhile (· ≠ 0) with
    | nil =>
        have all := List.dropWhile_eq_nil_iff.mp rest 0 ended
        simp at all
    | cons first more =>
        have stopped : first = 0 := by
          have head := List.head?_dropWhile_not (· ≠ 0) l
          rw [rest] at head
          simpa using head
        rw [rest, holds_cons, stopped] at held
        exact holds_cons.mpr ⟨held.2.1, holds_nil⟩

theorem le_at_mod {offset n : Nat} : leAt l offset n % 256 ^ n = leAt l offset n :=
  Nat.mod_eq_of_lt read_le_lt

theorem holds_mod_entry {placed : List (Tag × Nat)} (held : Holds bytes p (modEntries placed))
    {i : Nat} {entry : Tag × Nat} (found : placed[i]? = some entry) :
    Holds bytes (p + 16 * i) (modEntry entry) := by
  induction placed generalizing p i with
  | nil => simp at found
  | cons first placed ih =>
      rw [modEntries, List.flatMap_cons, holds_append, length_mod_entry] at held
      cases i with
      | zero =>
          simp only [List.getElem?_cons_zero, Option.some.injEq] at found
          rw [← found]
          exact held.1
      | succ i =>
          have rest := ih held.2 (by simpa using found)
          have shift : p + 16 * (i + 1) = p + 16 + 16 * i := by omega
          rw [shift]
          exact rest

/-- A record of the table denotes its module. -/
theorem denotes_module {t : Tag} {q : Nat} (record : Holds bytes p (modEntry (t, q)))
    (word : q < 2 ^ 32) (string : Holds bytes q (t.payload 16)) (ended : 0 ∈ t.payload 16) :
    DenotesModule bytes p (leAt t.raw 8 4) (leAt t.raw 12 4) (t.text 16) := by
  simp only [modEntry, holds_append, List.length_append, length_le_bytes] at record
  obtain ⟨⟨⟨first, second⟩, third⟩, _⟩ := record
  constructor
  · rw [first.read_le_bytes, le_at_mod]
  · rw [second.read_le_bytes, le_at_mod]
  · rw [third.read_le_bytes, Nat.mod_eq_of_lt (show q < 256 ^ 4 from word)]
    exact spells_text string ended

/-- A reader of the v1 memory map finds the entries of the tag. -/
theorem addr_ranges_eq {t : Tag} {first count rounds : Nat} (enough : count ≤ rounds)
    (held : ∀ i, first ≤ i → i < first + count → Holds bytes (p + 24 * i) (t.range i).encode) :
    addrRanges bytes rounds (p + 24 * first) (p + 24 * (first + count)) =
      (List.range' first count).map t.range := by
  induction count generalizing first rounds with
  | zero =>
      cases rounds with
      | zero => rfl
      | succ rounds => simp [addrRanges]
  | succ count ih =>
      cases rounds with
      | zero => omega
      | succ rounds =>
          have record := held first le_rfl (by omega)
          simp only [AddrRange.encode, holds_append, List.length_append, length_le_bytes] at record
          obtain ⟨⟨⟨size, addr⟩, length⟩, type⟩ := record
          have rest : addrRanges bytes rounds (p + 24 * (first + 1))
              (p + 24 * (first + 1 + count)) = (List.range' (first + 1) count).map t.range :=
            ih (by omega) fun i above below => held i (by omega) (by omega)
          have next : p + 24 * first + (readLe bytes (p + 24 * first) 4 + 4) =
              p + 24 * (first + 1) := by
            rw [size.read_le_bytes]
            omega
          have more : p + 24 * first < p + 24 * (first + (count + 1)) := by omega
          have stop : first + (count + 1) = first + 1 + count := by omega
          rw [addrRanges, if_pos more, next, stop, rest, List.range'_succ, List.map_cons]
          rw [addr.read_le_bytes, length.read_le_bytes, type.read_le_bytes]
          simp only [Tag.range, le_at_mod]

theorem firstOf_formed {tags : List Tag} {kind : TagKind} (formed : ∀ t ∈ tags, t.Formed) {t : Tag}
    (first : t ∈ firstOf kind tags) : t.FormedAs kind := by
  have member := List.mem_of_find?_eq_some first
  have same : t.kind = kind := by simpa using List.find?_some first
  rw [← same]
  exact formed t member

/-- Reading the v1 structure that `finalize` has written. -/
theorem same_data_of_converted {tags : List Tag} (formed : ∀ t ∈ tags, t.Formed)
    (converted : Converted b tags) (few : tags.length < 2 ^ 32)
    (held : Holds b.bytes p b.mbi.encode) : SameData b p tags := by
  have word : ∀ i, i < 22 → readLe b.bytes (p + 4 * i) 4 = b.mbi.words.getD i 0 % 2 ^ 32 :=
    fun i less => held.read_word (by simpa [Mbi.words] using less)
  have flagsWord : readLe b.bytes p 4 = b.mbi.flags % 2 ^ 32 :=
    word 0 (by decide)
  have cmdlineWord : readLe b.bytes (p + 16) 4 = b.mbi.cmdline % 2 ^ 32 :=
    word 4 (by decide)
  have countWord : readLe b.bytes (p + 20) 4 = b.mbi.modsCount % 2 ^ 32 :=
    word 5 (by decide)
  have modsWord : readLe b.bytes (p + 24) 4 = b.mbi.modsAddr % 2 ^ 32 :=
    word 6 (by decide)
  have lengthWord : readLe b.bytes (p + 44) 4 = b.mbi.mmapLength % 2 ^ 32 :=
    word 11 (by decide)
  have mmapWord : readLe b.bytes (p + 48) 4 = b.mbi.mmapAddr % 2 ^ 32 :=
    word 12 (by decide)
  have bit : ∀ k, k < 32 → (readLe b.bytes p 4).testBit k = b.mbi.flags.testBit k := by
    intro k less
    rw [flagsWord, Nat.testBit_mod_two_pow]
    simp [less]
  constructor
  · rw [bit 2 (by decide)]
    exact converted.cmdline.flag
  · intro t first
    have kept := converted.cmdline.kept t first
    have inside : b.mbi.cmdline < 2 ^ 32 := lt_of_le_of_lt (Nat.le_add_right _ _) kept.word
    rw [cmdlineWord, Nat.mod_eq_of_lt inside]
    exact spells_text kept.held (firstOf_formed formed first)
  · rw [bit 3 (by decide)]
    exact converted.modules.flag
  · have le : (modulesOf tags).length ≤ tags.length := List.length_filter_le _ _
    rw [countWord, converted.modules.count, Nat.mod_eq_of_lt (by omega)]
  · intro i t found
    have nonempty : modulesOf tags ≠ [] := by
      intro empty
      simp [empty] at found
    obtain ⟨placed, same, records, strings⟩ := converted.modules.kept nonempty
    have inside : b.mbi.modsAddr < 2 ^ 32 := lt_of_le_of_lt (Nat.le_add_right _ _) records.word
    rw [modsWord, Nat.mod_eq_of_lt inside]
    rw [← same, List.getElem?_map, Option.map_eq_some_iff] at found
    obtain ⟨⟨u, q⟩, entry, rfl⟩ := found
    have string := strings (u, q) (List.mem_of_getElem? entry)
    have isModule : u ∈ modulesOf tags := by
      rw [← same]
      exact List.mem_map_of_mem (List.mem_of_getElem? entry)
    have ended : 0 ∈ u.payload 16 := by
      rw [modulesOf, List.mem_filter] at isModule
      have ok := formed u isModule.1
      have kind : u.kind = .module := by simpa using isModule.2
      rw [Tag.Formed, kind] at ok
      exact ok
    exact denotes_module (holds_mod_entry records.held entry)
      (lt_of_le_of_lt (Nat.le_add_right _ _) string.word) string.held ended
  · rw [bit 6 (by decide)]
    exact converted.memmap.flag
  · intro t first
    have part := converted.memmap
    obtain ⟨header, _, whole⟩ := firstOf_formed formed first
    have inside := part.word t first
    have length := part.length t first
    rw [lengthWord, mmapWord, length, Nat.mod_eq_of_lt (by omega), Nat.mod_eq_of_lt (by omega)]
    obtain ⟨count, size⟩ := whole
    have quotient : (t.size - 16) / 24 = count := by omega
    have entries : ∀ i, 0 ≤ i → i < 0 + count →
        Holds b.bytes (b.mbi.mmapAddr + 24 * i) (t.range i).encode :=
      fun i _ below => (part.kept t first i (by omega)).held
    have ranges := addr_ranges_eq (show count ≤ t.size - 16 by omega) entries
    rw [Nat.mul_zero, Nat.add_zero, Nat.zero_add] at ranges
    rw [Tag.ranges, quotient, List.range_eq_range', size]
    rw [size] at ranges
    exact ranges
  · exact converted.rsdp.none
  · intro t first
    rw [converted.rsdp.size t first, ← Tag.length_payload]
    exact (converted.rsdp.kept t first).held.read_list

end

/-- The loop starts with the size in the header of the information buffer. -/
theorem multiboot2_to_multiboot_eq (info : Info) (fuel : Nat) :
    multiboot2ToMultiboot fuel info.bytes info.address =
      loop (convertRound fuel) .diverges fuel (info.buffer, info.address + 8) >>= finalize := by
  have fits := info.fits
  have held := info.held
  rw [holds_append, holds_append] at held
  have size : readLe info.bytes info.address 4 = total info.tags info.last := by
    rw [held.1.1.read_le_bytes, Nat.mod_eq_of_lt (show _ < 256 ^ 4 by omega)]
  rw [multiboot2ToMultiboot, size]
  rfl

/-- Every well-formed information buffer with enough space whose framebuffer
reservation is covered is converted to a v1 structure with the same data. -/
theorem multiboot2_to_multiboot_same_data (info : Info) (space : info.HasSpace)
    (clear : info.FramebufferClear) {fuel : Nat} (enough : total info.tags info.last < fuel) :
    ∃ b mbi, multiboot2ToMultiboot fuel info.bytes info.address = .ok (b, mbi) ∧
      SameData b mbi info.tags := by
  obtain ⟨b, looped, buf, size, converted⟩ := convert_loop_converts info space clear enough
  have fits := info.fits
  have room := space
  rw [Info.HasSpace, ← size] at room
  have fewTags := length_le_image info.tags
  have few : info.tags.length < 2 ^ 32 := by
    rw [total] at fits
    omega
  have video : b.mbi.flags.testBit 11 = true → mbiSize + vbeModeSize + vbeCtrlSize ≤ b.size := by
    intro flagged
    rw [converted.video] at flagged
    simp only [flagged, if_true] at room
    omega
  obtain ⟨after, p, finalized, kept, held⟩ := finalize_keeps converted (by omega) video
  refine ⟨after, p, ?_, same_data_of_converted info.formed kept few held⟩
  rw [multiboot2_to_multiboot_eq, looped, ok_bind, finalized]

/-! ## A buffer of every kind, and one that is not converted -/

/-- A tag from its type and what follows the header, padded with zeros. -/
def rawTag (type : Nat) (body : List UInt8) : List UInt8 :=
  leBytes 4 type ++ (leBytes 4 (8 + body.length) ++ (body ++
    zeros (roundUp 3 (8 + body.length) - (8 + body.length))))

theorem raw_tag_size {type : Nat} {body : List UInt8} (short : 8 + body.length < 2 ^ 32) :
    leAt (rawTag type body) 4 4 = 8 + body.length := by
  have held : Holds (fun i => (rawTag type body).getD i 0) 0 (rawTag type body) := by
    intro i _
    rw [Nat.zero_add]
  rw [rawTag, holds_append, holds_append, length_le_bytes] at held
  have size := held.2.1.read_le_bytes
  rw [Nat.mod_eq_of_lt (show _ < 256 ^ 4 from short)] at size
  exact size

def Tag.ofBody (type : Nat) (body : List UInt8) (short : 8 + body.length < 2 ^ 32) : Tag where
  raw := rawTag type body
  header := by
    rw [raw_tag_size short]
    omega
  padded := by
    have above := le_round_up 3 (8 + body.length)
    rw [raw_tag_size short, rawTag]
    simp only [List.length_append, length_le_bytes, length_zeros]
    omega

/-- Memory with nothing but an information buffer. -/
def infoBytes (address : Nat) (tags : List Tag) (last : Tag) : Bytes :=
  writeList address
    (leBytes 4 (total tags last) ++ leBytes 4 0 ++ (image tags ++ last.raw)) fun _ => 0

def lastTag : Tag := .ofBody 0 [] (by decide)

def cmdlineTag : Tag := .ofBody 1 [107, 0] (by decide)

/-- A framebuffer of type 1 with 1024 times 768 pixels. -/
def framebufferTag : Tag :=
  .ofBody 8 (leBytes 8 0xe0000000 ++ leBytes 4 4096 ++ leBytes 4 1024 ++ leBytes 4 768 ++
    [32, 1, 0, 0, 16, 8, 8, 8, 0, 8]) (by decide)

/-- The same with so many bytes behind it that the reservation takes nothing but the tag. -/
def wideFramebufferTag : Tag :=
  .ofBody 8 (leBytes 8 0xe0000000 ++ leBytes 4 4096 ++ leBytes 4 1024 ++ leBytes 4 768 ++
    [32, 1, 0, 0, 16, 8, 8, 8, 0, 8] ++ zeros 1600) (by decide +kernel)

def everyTag : List Tag :=
  [.ofBody 9 (zeros 40) (by decide), wideFramebufferTag, cmdlineTag,
    .ofBody 3 (leBytes 4 0x200000 ++ leBytes 4 0x201000 ++ [97, 0]) (by decide),
    .ofBody 3 (leBytes 4 0x300000 ++ leBytes 4 0x300800 ++ [98, 99, 0]) (by decide),
    .ofBody 6 (leBytes 4 24 ++ leBytes 4 0 ++ leBytes 8 0 ++ leBytes 8 0x9fc00 ++ leBytes 4 1 ++
      leBytes 4 0) (by decide),
    .ofBody 14 (leBytes 8 0x2052545020445352 ++ zeros 12) (by decide)]

def everyInfo : Info where
  bytes := infoBytes 0x10000 everyTag lastTag
  address := 0x10000
  reserved := 0
  tags := everyTag
  last := lastTag
  formed := by decide +kernel
  ends := by decide +kernel
  together := by decide +kernel
  single := by decide +kernel
  fits := by decide +kernel
  held := holds_write_list

/-- A buffer with a tag of every kind; most of them are converted behind the framebuffer. -/
theorem multiboot2_to_multiboot_same_data_every_tag :
    (everyInfo.HasSpace ∧ everyInfo.FramebufferClear ∧
      total everyInfo.tags everyInfo.last < 2000) ∧
    ∃ b mbi, multiboot2ToMultiboot 2000 everyInfo.bytes everyInfo.address = .ok (b, mbi) ∧
      SameData b mbi everyInfo.tags := by
  have space : everyInfo.HasSpace := by
    unfold Info.HasSpace
    decide +kernel
  have clear : everyInfo.FramebufferClear := by
    have places : ∀ i < everyTag.length, ∀ t ∈ (everyTag.drop i).take 1, t.isVideo = true →
        vbeModeSize + vbeCtrlSize ≤ leftoverOf (everyTag.take i) + t.raw.length := by
      decide +kernel
    intro before t after split video
    have isSplit : everyTag = before ++ t :: after := split
    right
    have own := places before.length (by simp [isSplit]) t (by simp [isSplit]) video
    rwa [isSplit, List.take_left] at own
  have short : total everyInfo.tags everyInfo.last < 2000 := by decide +kernel
  exact ⟨⟨space, clear, short⟩, multiboot2_to_multiboot_same_data everyInfo space clear short⟩

/-- A tag that the conversion skips; its payload is zero but for one word near
its end. -/
def longTag : Tag :=
  .ofBody 9 (zeros 1576 ++ leBytes 4 2 ++ zeros 12) (by
    simp only [List.length_append, length_zeros, length_le_bytes]
    decide)

def framebufferFirst : Info where
  bytes := infoBytes 0x10000 [framebufferTag, cmdlineTag, longTag] lastTag
  address := 0x10000
  reserved := 0
  tags := [framebufferTag, cmdlineTag, longTag]
  last := lastTag
  formed := by decide +kernel
  ends := by decide +kernel
  together := by decide +kernel
  single := by decide +kernel
  fits := by decide +kernel
  held := holds_write_list

/-- A skipped tag of size zero keeps the loop where it is. -/
theorem convert_round_stays {fuel tag : Nat} {b : ConvertibleBuffer}
    (kind : tagKind (tagType b.bytes tag) = .unknown) (size : tagSize b.bytes tag = 0)
    (word : tag < 2 ^ 32) : convertRound fuel (b, tag) = .ok (.again (b, tag)) := by
  have round : roundTag 0 = 0 := by decide
  rw [convertRound, if_neg (by simp [kind]), processTag, kind]
  simp only [size, round]
  rw [add32_of_lt (by omega), Nat.add_zero]
  rfl

/-- After the framebuffer: the rest of the tags as they were, but the buffer ends
880 bytes into the long tag. -/
theorem framebuffer_first_round (fuel : Nat) :
    ∃ b : ConvertibleBuffer,
      convertRound fuel (framebufferFirst.buffer, 0x10008) = .ok (.again (b, 0x10008)) ∧
      b.buf = 0x10000 ∧ b.size = 904 ∧
      Holds b.bytes 0x10008
        (cmdlineTag.raw ++ (longTag.raw ++ (lastTag.raw ++ framebufferTag.raw))) := by
  have held := (holds_append.mp framebufferFirst.held).2
  have size : framebufferFirst.buffer.size = 1672 := by decide +kernel
  have unread : Unread framebufferFirst.buffer.bytes
      (framebufferFirst.buffer.buf + framebufferFirst.buffer.size) 0x10008
      (framebufferTag.raw ++ (cmdlineTag.raw ++ (longTag.raw ++ lastTag.raw))) := by
    rw [size]
    refine ⟨?_, by decide +kernel, by decide⟩
    rw [List.length_append, length_le_bytes, length_le_bytes] at held
    simpa [framebufferFirst, Info.buffer, image] using held
  have kind : framebufferTag.kind = .framebuffer := by decide +kernel
  obtain ⟨bytes, mode, ctrl, processed, left, _⟩ :=
    process_fb_video unread (by decide +kernel) (by decide +kernel) (by rw [size]; decide)
  have ran := process_tag_fb fuel unread.front kind
  rw [processed] at ran
  have round := convert_round_eq unread.front (by rw [kind]; decide) ran
  refine ⟨_, round, rfl, ?_, ?_⟩
  · rw [size]
    rfl
  · simpa only [List.append_assoc] using left.held

/-- After the command line: the long tag has slid down in the shortened buffer,
and behind its end nothing has moved. -/
theorem framebuffer_second_round (fuel : Nat) {b : ConvertibleBuffer} (buf : b.buf = 0x10000)
    (size : b.size = 904)
    (held : Holds b.bytes 0x10008
      (cmdlineTag.raw ++ (longTag.raw ++ (lastTag.raw ++ framebufferTag.raw)))) :
    ∃ after : ConvertibleBuffer, convertRound fuel (b, 0x10008) = .ok (.again (after, 0x10008)) ∧
      Holds after.bytes 0x10008 (longTag.raw.take 880) ∧
      ∀ a, 0x10000 + 904 ≤ a → after.bytes a = b.bytes a := by
  have unread : Unread b.bytes (b.buf + b.size) 0x10008
      (cmdlineTag.raw ++ longTag.raw.take 880) := by
    rw [buf, size]
    refine ⟨?_, by decide +kernel, by decide⟩
    rw [← List.take_append_drop 880 longTag.raw, List.append_assoc, ← List.append_assoc,
      holds_append] at held
    exact held.1
  have kind : cmdlineTag.kind = .bootCmdline := by decide +kernel
  obtain ⟨bytes, processed, taken⟩ := process_cmdline_spec unread (by rw [size]; decide +kernel)
  have ran := process_tag_cmdline fuel unread.front kind
  rw [processed] at ran
  have round := convert_round_eq unread.front (by rw [kind]; decide) ran
  refine ⟨_, round, ?_, ?_⟩
  · exact (holds_append.mp taken.unread.held).1
  · intro a above
    exact taken.shrinks.frame a (by rw [buf, size]; exact above)

/-- The framebuffer reservation ends in the middle of the long tag. The command
line is rotated to that place, so that only the first part of the long tag slides
down; the loop leaves the long tag inside its old payload and stays there. -/
theorem framebuffer_reservation_cuts_tags :
    framebufferFirst.HasSpace ∧
    ∀ fuel b mbi, multiboot2ToMultiboot fuel framebufferFirst.bytes framebufferFirst.address ≠
      .ok (b, mbi) := by
  constructor
  · unfold Info.HasSpace
    decide +kernel
  intro fuel b mbi
  obtain ⟨first, firstRound, buf, size, held⟩ := framebuffer_first_round fuel
  obtain ⟨second, secondRound, slid, frame⟩ := framebuffer_second_round fuel buf size held
  -- the header of the long tag sends the loop 1600 bytes ahead
  have kind : tagKind (tagType second.bytes 0x10008) = .unknown := by
    have type := slid.read_le (show 0 + 4 ≤ (longTag.raw.take 880).length by decide +kernel)
    rw [tagType]
    rw [Nat.add_zero] at type
    rw [type]
    decide +kernel
  have thirdRound : convertRound fuel (second, 0x10008) = .ok (.again (second, 0x10008 + 1600)) := by
    have length := slid.read_le (show 4 + 4 ≤ (longTag.raw.take 880).length by decide +kernel)
    have long : tagSize second.bytes 0x10008 = 1600 := by
      rw [tagSize, length]
      decide +kernel
    rw [convertRound, if_neg (by simp [kind]), processTag, kind]
    simp only [long]
    rfl
  -- there the old payload reads as a tag of type 2 and size 0
  have old : ∀ offset, offset = 1600 ∨ offset = 1604 →
      readLe second.bytes (0x10008 + offset) 4 =
        leAt (cmdlineTag.raw ++ (longTag.raw ++ (lastTag.raw ++ framebufferTag.raw))) offset 4 := by
    intro offset place
    have length : (cmdlineTag.raw ++ (longTag.raw ++ (lastTag.raw ++ framebufferTag.raw))).length =
        1664 := by decide +kernel
    rw [← held.read_le (show offset + 4 ≤ _ by omega)]
    apply read_le_congr
    intro i less
    exact frame _ (by omega)
  have stays : convertRound fuel (second, 0x10008 + 1600) =
      .ok (.again (second, 0x10008 + 1600)) := by
    apply convert_round_stays
    · rw [tagType, old 1600 (.inl rfl)]
      decide +kernel
    · rw [tagSize, Nat.add_assoc, old 1604 (.inr rfl)]
      decide +kernel
    · decide
  have never : ∀ rounds, loop (convertRound fuel) .diverges rounds
      (framebufferFirst.buffer, framebufferFirst.address + 8) = .error .diverges :=
    loop_stuck_again firstRound (loop_stuck_again secondRound
      (loop_stuck_again thirdRound (loop_forever stays .diverges)))
  rw [multiboot2_to_multiboot_eq, never]
  simp

end L4Bootstrap.Multiboot2
