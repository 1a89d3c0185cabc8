import L4Bootstrap.Multiboot2.Steps

/-!
# The loop over the tags

The loop of `_multiboot2_to_multiboot` goes through the tags. Behind the tags
that are still to be read stand the terminator and the leftovers of converted
tags; what has been converted stands behind the end of the buffer.
-/

namespace L4Bootstrap.Multiboot2

open MachineWord ByteMemory CheckedLoop

set_option autoImplicit false

/-! ## What has been converted -/

structure CmdlinePart (bytes : Bytes) (stop : Nat) (flag : Bool) (cmdline : Nat)
    (first : Option Tag) : Prop where
  flag : flag = first.isSome
  kept : ∀ t ∈ first, Kept bytes stop cmdline (t.payload 8)

structure ModulesPart (bytes : Bytes) (stop : Nat) (flag : Bool) (count addr : Nat)
    (mods : List Tag) : Prop where
  flag : flag = decide (mods ≠ [])
  count : count = mods.length
  kept : mods ≠ [] → ∃ placed : List (Tag × Nat), placed.map Prod.fst = mods ∧
    Kept bytes stop addr (modEntries placed) ∧
      ∀ entry ∈ placed, Kept bytes stop entry.2 (entry.1.payload 16)

structure MemmapPart (bytes : Bytes) (stop : Nat) (flag : Bool) (length addr : Nat)
    (first : Option Tag) : Prop where
  flag : flag = first.isSome
  length : ∀ t ∈ first, length = t.size - 16
  word : ∀ t ∈ first, addr + (t.size - 16) < 2 ^ 32
  kept : ∀ t ∈ first, ∀ i, i < (t.size - 16) / 24 →
    Kept bytes stop (addr + 24 * i) (t.range i).encode

structure RsdpPart (bytes : Bytes) (stop start size : Nat) (first : Option Tag) : Prop where
  none : first = none → start = 0 ∧ size = 0
  size : ∀ t ∈ first, size = t.size - 8
  kept : ∀ t ∈ first, Kept bytes stop start (t.payload 8)

/-- The data of the tags in `done` stands behind the end of the buffer. -/
structure Converted (b : ConvertibleBuffer) (done : List Tag) : Prop where
  cmdline : CmdlinePart b.bytes (b.buf + b.size) (b.mbi.flags.testBit 2) b.mbi.cmdline
    (firstOf .bootCmdline done)
  modules : ModulesPart b.bytes (b.buf + b.size) (b.mbi.flags.testBit 3) b.mbi.modsCount
    b.mbi.modsAddr (modulesOf done)
  memmap : MemmapPart b.bytes (b.buf + b.size) (b.mbi.flags.testBit 6) b.mbi.mmapLength
    b.mbi.mmapAddr (firstOf .memoryMap done)
  rsdp : RsdpPart b.bytes (b.buf + b.size) b.rsdpStart b.rsdpSize (firstOf .rsdp done)
  video : b.mbi.flags.testBit 11 = done.any Tag.isVideo

section

variable {bytes after : Bytes} {stop stopAfter : Nat} {flag flagAfter : Bool}
  {first firstAfter : Option Tag}

theorem CmdlinePart.carry {cmdline : Nat} (part : CmdlinePart bytes stop flag cmdline first)
    (step : Shrinks bytes stop after stopAfter) (sameFlag : flagAfter = flag)
    (sameFirst : firstAfter = first) :
    CmdlinePart after stopAfter flagAfter cmdline firstAfter := by
  subst sameFlag sameFirst
  exact ⟨part.flag, fun t member => (part.kept t member).shrinks step⟩

theorem ModulesPart.carry {count addr : Nat} {mods modsAfter : List Tag}
    (part : ModulesPart bytes stop flag count addr mods)
    (step : Shrinks bytes stop after stopAfter) (sameFlag : flagAfter = flag)
    (sameMods : modsAfter = mods) :
    ModulesPart after stopAfter flagAfter count addr modsAfter := by
  subst sameFlag sameMods
  refine ⟨part.flag, part.count, ?_⟩
  intro nonempty
  obtain ⟨placed, same, records, strings⟩ := part.kept nonempty
  exact ⟨placed, same, records.shrinks step, fun entry member =>
    (strings entry member).shrinks step⟩

theorem MemmapPart.carry {length addr : Nat} (part : MemmapPart bytes stop flag length addr first)
    (step : Shrinks bytes stop after stopAfter) (sameFlag : flagAfter = flag)
    (sameFirst : firstAfter = first) :
    MemmapPart after stopAfter flagAfter length addr firstAfter := by
  subst sameFlag sameFirst
  exact ⟨part.flag, part.length, part.word, fun t member i less =>
    (part.kept t member i less).shrinks step⟩

theorem RsdpPart.carry {start size : Nat} (part : RsdpPart bytes stop start size first)
    (step : Shrinks bytes stop after stopAfter) (sameFirst : firstAfter = first) :
    RsdpPart after stopAfter start size firstAfter := by
  subst sameFirst
  exact ⟨part.none, part.size, fun t member => (part.kept t member).shrinks step⟩

end

section

variable {done : List Tag} {t : Tag} {kind : TagKind}

theorem first_of_append_other (other : t.kind ≠ kind) :
    firstOf kind (done ++ [t]) = firstOf kind done := by
  simp [firstOf, List.find?_append, other]

theorem first_of_append_new (same : t.kind = kind) (none : ∀ u ∈ done, u.kind ≠ kind) :
    firstOf kind (done ++ [t]) = some t := by
  have empty : done.find? (·.kind = kind) = Option.none := by
    simpa [List.find?_eq_none] using none
  simp [firstOf, List.find?_append, empty, same]

theorem modules_of_append_other (other : t.kind ≠ .module) :
    modulesOf (done ++ [t]) = modulesOf done := by
  simp [modulesOf, List.filter_append, other]

theorem first_of_append_modules {block : List Tag} (mods : ∀ u ∈ block, u.kind = .module)
    (other : TagKind.module ≠ kind) : firstOf kind (done ++ block) = firstOf kind done := by
  have empty : block.find? (·.kind = kind) = none := by
    apply List.find?_eq_none.mpr
    intro u member
    simp [mods u member, other]
  simp [firstOf, List.find?_append, empty]

theorem any_video_append_other (other : t.kind ≠ .framebuffer) :
    (done ++ [t]).any Tag.isVideo = done.any Tag.isVideo := by
  simp [Tag.isVideo, other]

end

@[simp] theorem flag_cmdline_bit (k : Nat) : flagCmdline.testBit k = decide (2 = k) :=
  Nat.testBit_two_pow

@[simp] theorem flag_mods_bit (k : Nat) : flagMods.testBit k = decide (3 = k) :=
  Nat.testBit_two_pow

@[simp] theorem flag_mem_map_bit (k : Nat) : flagMemMap.testBit k = decide (6 = k) :=
  Nat.testBit_two_pow

@[simp] theorem flag_video_info_bit (k : Nat) : flagVideoInfo.testBit k = decide (11 = k) :=
  Nat.testBit_two_pow

section

variable {b : ConvertibleBuffer} {done : List Tag} {t : Tag} {bytes : Bytes} {size p : Nat}

theorem Converted.skip (converted : Converted b done) (kind : t.kind = .unknown) :
    Converted b (done ++ [t]) := by
  have still : Shrinks b.bytes (b.buf + b.size) b.bytes (b.buf + b.size) := ⟨le_rfl, fun _ _ => rfl⟩
  constructor
  · exact converted.cmdline.carry still rfl (first_of_append_other (by simp [kind]))
  · exact converted.modules.carry still rfl (modules_of_append_other (by simp [kind]))
  · exact converted.memmap.carry still rfl (first_of_append_other (by simp [kind]))
  · exact converted.rsdp.carry still (first_of_append_other (by simp [kind]))
  · rw [any_video_append_other (by simp [kind])]
    exact converted.video

theorem Converted.cmdline_step (converted : Converted b done) (kind : t.kind = .bootCmdline)
    (none : ∀ u ∈ done, u.kind ≠ .bootCmdline)
    (step : Shrinks b.bytes (b.buf + b.size) bytes (b.buf + size))
    (kept : Kept bytes (b.buf + size) p (t.payload 8)) :
    Converted { b with
      bytes := bytes
      size := size
      mbi := { b.mbi with flags := b.mbi.flags ||| flagCmdline, cmdline := p } }
      (done ++ [t]) := by
  constructor
  · rw [first_of_append_new kind none]
    constructor
    · simp
    · intro u same
      cases same
      exact kept
  · exact converted.modules.carry step (by simp)
      (modules_of_append_other (by simp [kind]))
  · exact converted.memmap.carry step (by simp)
      (first_of_append_other (by simp [kind]))
  · exact converted.rsdp.carry step (first_of_append_other (by simp [kind]))
  · rw [any_video_append_other (by simp [kind]), ← converted.video]
    simp

theorem Converted.memmap_step (converted : Converted b done) (kind : t.kind = .memoryMap)
    (none : ∀ u ∈ done, u.kind ≠ .memoryMap)
    (step : Shrinks b.bytes (b.buf + b.size) bytes (b.buf + size))
    (word : p + (t.size - 16) < 2 ^ 32)
    (kept : ∀ i, i < (t.size - 16) / 24 →
      Kept bytes (b.buf + size) (p + 24 * i) (t.range i).encode) :
    Converted { b with
      bytes := bytes
      size := size
      mbi := { b.mbi with
        flags := b.mbi.flags ||| flagMemMap, mmapLength := t.size - 16, mmapAddr := p } }
      (done ++ [t]) := by
  constructor
  · exact converted.cmdline.carry step (by simp)
      (first_of_append_other (by simp [kind]))
  · exact converted.modules.carry step (by simp)
      (modules_of_append_other (by simp [kind]))
  · rw [first_of_append_new kind none]
    constructor
    · simp
    · intro u same
      cases same
      rfl
    · intro u same
      cases same
      exact word
    · intro u same
      cases same
      exact kept
  · exact converted.rsdp.carry step (first_of_append_other (by simp [kind]))
  · rw [any_video_append_other (by simp [kind]), ← converted.video]
    simp

theorem Converted.rsdp_step (converted : Converted b done) (kind : t.kind = .rsdp)
    (none : ∀ u ∈ done, u.kind ≠ .rsdp)
    (step : Shrinks b.bytes (b.buf + b.size) bytes (b.buf + size))
    (kept : Kept bytes (b.buf + size) p (t.payload 8)) :
    Converted { b with bytes := bytes, size := size, rsdpStart := p, rsdpSize := t.size - 8 }
      (done ++ [t]) := by
  constructor
  · exact converted.cmdline.carry step rfl (first_of_append_other (by simp [kind]))
  · exact converted.modules.carry step rfl (modules_of_append_other (by simp [kind]))
  · exact converted.memmap.carry step rfl (first_of_append_other (by simp [kind]))
  · rw [first_of_append_new kind none]
    constructor
    · intro absent
      cases absent
    · intro u same
      cases same
      rfl
    · intro u same
      cases same
      exact kept
  · rw [any_video_append_other (by simp [kind])]
    exact converted.video

theorem Converted.framebuffer_step (converted : Converted b done) (kind : t.kind = .framebuffer)
    (step : Shrinks b.bytes (b.buf + b.size) bytes (b.buf + size)) (mode : VbeMode)
    (ctrl : VbeCtrl) {flags : Nat}
    (sameFlags : ∀ k, flags.testBit k = (b.mbi.flags.testBit k || (t.isVideo && decide (11 = k)))) :
    Converted { b with
      bytes := bytes
      size := size
      vbeMode := mode
      vbeCtrl := ctrl
      mbi := { b.mbi with flags := flags } } (done ++ [t]) := by
  constructor
  · exact converted.cmdline.carry step (by simp [sameFlags])
      (first_of_append_other (by simp [kind]))
  · exact converted.modules.carry step (by simp [sameFlags])
      (modules_of_append_other (by simp [kind]))
  · exact converted.memmap.carry step (by simp [sameFlags])
      (first_of_append_other (by simp [kind]))
  · exact converted.rsdp.carry step (first_of_append_other (by simp [kind]))
  · rw [List.any_append, ← converted.video]
    simp [sameFlags]

theorem Converted.modules_step {block : List Tag} {placed : List (Tag × Nat)}
    (converted : Converted b done) (mods : ∀ u ∈ block, u.kind = .module)
    (none : ∀ u ∈ done, u.kind ≠ .module) (nonempty : block ≠ [])
    (step : Shrinks b.bytes (b.buf + b.size) bytes (b.buf + size))
    (same : placed.map Prod.fst = block) (records : Kept bytes (b.buf + size) p (modEntries placed))
    (strings : ∀ entry ∈ placed, Kept bytes (b.buf + size) entry.2 (entry.1.payload 16)) :
    Converted { b with
      bytes := bytes
      size := size
      mbi := { b.mbi with
        flags := b.mbi.flags ||| flagMods, modsCount := block.length, modsAddr := p } }
      (done ++ block) := by
  have found : modulesOf (done ++ block) = block := by
    have empty : done.filter (·.kind = .module) = [] := by
      simpa [List.filter_eq_nil_iff] using none
    have whole : block.filter (·.kind = .module) = block := by
      simpa [List.filter_eq_self] using mods
    rw [modulesOf, List.filter_append, empty, whole, List.nil_append]
  constructor
  · exact converted.cmdline.carry step (by simp)
      (first_of_append_modules mods (by decide))
  · rw [found]
    refine ⟨?_, rfl, fun _ => ⟨placed, same, records, strings⟩⟩
    simp [nonempty]
  · exact converted.memmap.carry step (by simp)
      (first_of_append_modules mods (by decide))
  · exact converted.rsdp.carry step (first_of_append_modules mods (by decide))
  · have silent : block.any Tag.isVideo = false := by
      apply List.any_eq_false.mpr
      intro u member
      simp [Tag.isVideo, mods u member]
    rw [List.any_append, silent, Bool.or_false, ← converted.video]
    simp

end

/-! ## The position of the loop -/

def Tag.skipped (t : Tag) : Nat := if t.kind = .unknown then t.raw.length else 0

def skippedBy (tags : List Tag) : Nat := (tags.map Tag.skipped).sum

/-- The unread tags, the terminator and leftovers fill the buffer from `tag` on. -/
def Walking (info : Info) (b : ConvertibleBuffer) (tag : Nat) (rest : List Tag) : Prop :=
  ∃ residue, Unread b.bytes (b.buf + b.size) tag (image rest ++ (info.last.raw ++ residue))

/-- Only tags that are skipped are left, wherever the end of the buffer is. -/
def Coasting (info : Info) (b : ConvertibleBuffer) (tag : Nat) (rest : List Tag) : Prop :=
  (∀ t ∈ rest, t.kind = .unknown) ∧ Holds b.bytes tag (image rest ++ info.last.raw)

structure Position (info : Info) (b : ConvertibleBuffer) (tag : Nat) (done rest : List Tag) :
    Prop where
  split : info.tags = done ++ rest
  buf : b.buf = info.address
  size : b.size + reservedBy done = total info.tags info.last
  offset : tag = info.address + 8 + skippedBy done
  mods : (∀ t ∈ done, t.kind ≠ .module) ∨ ∀ t ∈ rest, t.kind ≠ .module
  converted : Converted b done
  ahead : Walking info b tag rest ∨ Coasting info b tag rest

@[simp] theorem image_cons (t : Tag) (tags : List Tag) : image (t :: tags) = t.raw ++ image tags :=
  List.flatMap_cons

theorem length_le_image (tags : List Tag) : tags.length ≤ (image tags).length := by
  induction tags with
  | nil => exact le_rfl
  | cons u tags ih =>
      have eight := u.eight_le
      rw [image_cons, List.length_append, List.length_cons]
      omega

@[simp] theorem image_append (front back : List Tag) :
    image (front ++ back) = image front ++ image back :=
  List.flatMap_append

@[simp] theorem reserved_by_append (front back : List Tag) :
    reservedBy (front ++ back) = reservedBy front + reservedBy back := by
  rw [reservedBy, List.map_append, List.sum_append]
  rfl

@[simp] theorem skipped_by_append (front back : List Tag) :
    skippedBy (front ++ back) = skippedBy front + skippedBy back := by
  rw [skippedBy, List.map_append, List.sum_append]
  rfl

@[simp] theorem reserved_by_singleton (t : Tag) : reservedBy [t] = t.reserved := by
  simp [reservedBy]

@[simp] theorem skipped_by_singleton (t : Tag) : skippedBy [t] = t.skipped := by
  simp [skippedBy]

theorem skipped_by_le (tags : List Tag) : skippedBy tags ≤ (image tags).length := by
  induction tags with
  | nil => exact le_rfl
  | cons t tags ih =>
      have head : t.skipped ≤ t.raw.length := by
        unfold Tag.skipped
        split_ifs <;> omega
      rw [skippedBy] at ih ⊢
      rw [image_cons, List.length_append, List.map_cons, List.sum_cons]
      omega

/-- A tag is skipped, or divided into what is reserved and what is left over. -/
theorem Tag.parts {t : Tag} (formed : t.Formed) (other : t.kind ≠ .framebuffer) :
    t.reserved + t.leftover + t.skipped = t.raw.length := by
  have eight := t.eight_le
  have sizeLe := t.size_le
  unfold Tag.reserved Tag.leftover Tag.skipped
  cases kind : t.kind with
  | framebuffer => exact absurd kind other
  | memoryMap =>
      have large : 16 ≤ t.size := by
        rw [Tag.Formed, kind] at formed
        exact formed.1
      simp only [reduceCtorEq, if_false]
      omega
  | bootCmdline | rsdp | module | unknown =>
      simp only [reduceCtorEq, if_false, if_true]
      omega
  | terminator =>
      rw [Tag.Formed, kind] at formed
      exact absurd formed id

theorem parts_sum {tags : List Tag} (formed : ∀ t ∈ tags, t.Formed)
    (other : ∀ t ∈ tags, t.kind ≠ .framebuffer) :
    reservedBy tags + leftoverOf tags + skippedBy tags = (image tags).length := by
  induction tags with
  | nil => rfl
  | cons t tags ih =>
      have rest := ih (fun u member => formed u (by simp [member]))
        (fun u member => other u (by simp [member]))
      have head := Tag.parts (formed t (by simp)) (other t (by simp))
      rw [reservedBy, leftoverOf, skippedBy] at rest ⊢
      rw [image_cons, List.length_append, List.map_cons, List.map_cons, List.map_cons,
        List.sum_cons, List.sum_cons, List.sum_cons]
      omega

section

variable {info : Info} {b : ConvertibleBuffer} {tag fuel : Nat} {t : Tag} {done rest : List Tag}

theorem Position.below (position : Position info b tag done rest) :
    tag + (image rest).length + info.last.raw.length ≤
      info.address + total info.tags info.last := by
  have skipped := skipped_by_le done
  rw [position.offset, total, position.split, image_append, List.length_append]
  omega

theorem Position.formed (position : Position info b tag done (t :: rest)) : t.Formed :=
  info.formed t (by rw [position.split]; simp)

/-- The tag in front of the loop. -/
theorem Position.front (position : Position info b tag done (t :: rest)) :
    Holds b.bytes tag t.raw := by
  rcases position.ahead with ⟨residue, unread⟩ | ⟨_, held⟩
  · rw [image_cons, List.append_assoc] at unread
    exact unread.front
  · rw [image_cons, List.append_assoc, holds_append] at held
    exact held.1

theorem Position.front_last (position : Position info b tag done []) :
    Holds b.bytes tag info.last.raw := by
  rcases position.ahead with ⟨residue, unread⟩ | ⟨_, held⟩
  · exact unread.front
  · exact held

/-- Only skipped tags are met while coasting. -/
theorem Position.walking (position : Position info b tag done (t :: rest))
    (kind : t.kind ≠ .unknown) :
    ∃ residue, Unread b.bytes (b.buf + b.size) tag
      (t.raw ++ (image rest ++ (info.last.raw ++ residue))) := by
  rcases position.ahead with ⟨residue, unread⟩ | ⟨unknown, _⟩
  · rw [image_cons, List.append_assoc] at unread
    exact ⟨residue, unread⟩
  · exact absurd (unknown t (by simp)) kind

/-- The other tags of a kind that occurs at most once. -/
theorem Position.first (position : Position info b tag done (t :: rest))
    (single : t.kind ∈ singleKinds) : ∀ u ∈ done, u.kind ≠ t.kind := by
  intro u member same
  have count := info.single t.kind single
  rw [position.split, List.countP_append, List.countP_cons] at count
  have positive : 0 < done.countP (·.kind = t.kind) :=
    List.countP_pos_iff.mpr ⟨u, member, by simpa using same⟩
  simp only [decide_true, if_true] at count
  omega

theorem Position.base (position : Position info b tag done rest) : b.buf ≤ tag := by
  rw [position.buf, position.offset]
  omega

/-- One round of the loop goes to a later position. -/
def Advances (info : Info) (fuel : Nat) (b : ConvertibleBuffer) (tag : Nat) (rest : List Tag) :
    Prop :=
  ∃ after next done left, convertRound fuel (b, tag) = .ok (.again (after, next)) ∧
    left.length < rest.length ∧ Position info after next done left

/-- The round after the check for the terminator. -/
theorem convert_round_eq {st : ConvertibleBuffer × Nat} (front : Holds b.bytes tag t.raw)
    (kind : t.kind ≠ .terminator) (processed : processTag fuel b tag = .ok st) :
    convertRound fuel (b, tag) = .ok (.again st) := by
  rw [convertRound, if_neg (by rw [tag_kind_eq front]; exact kind), processed]
  rfl

theorem process_tag_cmdline (fuel : Nat) (front : Holds b.bytes tag t.raw)
    (kind : t.kind = .bootCmdline) : processTag fuel b tag = (·, tag) <$> processCmdline b tag := by
  rw [processTag, tag_kind_eq front, kind]

theorem process_tag_rsdp (fuel : Nat) (front : Holds b.bytes tag t.raw) (kind : t.kind = .rsdp) :
    processTag fuel b tag = (·, tag) <$> processRsdp b tag := by
  rw [processTag, tag_kind_eq front, kind]

theorem process_tag_memmap (fuel : Nat) (front : Holds b.bytes tag t.raw)
    (kind : t.kind = .memoryMap) : processTag fuel b tag = (·, tag) <$> processMemmap fuel b tag := by
  rw [processTag, tag_kind_eq front, kind]

theorem process_tag_fb (fuel : Nat) (front : Holds b.bytes tag t.raw)
    (kind : t.kind = .framebuffer) : processTag fuel b tag = (·, tag) <$> processFb b tag := by
  rw [processTag, tag_kind_eq front, kind]

theorem process_tag_modules (fuel : Nat) (front : Holds b.bytes tag t.raw)
    (kind : t.kind = .module) : processTag fuel b tag = (·, tag) <$> processModules fuel b tag := by
  rw [processTag, tag_kind_eq front, kind]

/-- The position behind one tag that is not a module. -/
theorem Position.advance {after : ConvertibleBuffer} {next : Nat}
    (position : Position info b tag done (t :: rest)) (other : t.kind ≠ .module)
    (buf : after.buf = b.buf) (size : after.size + t.reserved = b.size)
    (offset : next = tag + t.skipped) (converted : Converted after (done ++ [t]))
    (ahead : Walking info after next rest ∨ Coasting info after next rest) :
    Position info after next (done ++ [t]) rest where
  split := by
    rw [position.split, List.append_assoc]
    rfl
  buf := buf.trans position.buf
  size := by
    have before := position.size
    rw [reserved_by_append, reserved_by_singleton]
    omega
  offset := by
    rw [skipped_by_append, skipped_by_singleton, offset, position.offset]
    omega
  mods := by
    rcases position.mods with before | behind
    · left
      intro u member
      rcases List.mem_append.mp member with old | new
      · exact before u old
      · rw [List.mem_singleton.mp new]
        exact other
    · exact .inr fun u member => behind u (by simp [member])
  converted := converted
  ahead := ahead

theorem Position.skip (position : Position info b tag done (t :: rest))
    (kind : t.kind = .unknown) : Advances info fuel b tag (t :: rest) := by
  have below := position.below
  have fits := info.fits
  rw [image_cons, List.length_append] at below
  have size : roundTag (tagSize b.bytes tag) = t.raw.length := by
    have whole := round_tag_rest t (Nat.dvd_zero 8) (Nat.zero_le _) (by omega)
    rw [tag_size_eq position.front]
    simpa using whole
  have processed : processTag fuel b tag = .ok (b, tag + t.raw.length) := by
    rw [processTag, tag_kind_eq position.front, kind]
    simp only [size]
    rw [add32_of_lt (by omega)]
  have ahead : Walking info b (tag + t.raw.length) rest ∨
      Coasting info b (tag + t.raw.length) rest := by
    rcases position.ahead with ⟨residue, unread⟩ | ⟨unknown, held⟩
    · left
      have ends := unread.ends
      have whole := unread.held
      rw [image_cons, List.append_assoc] at whole ends
      rw [List.length_append] at ends
      exact ⟨residue, (holds_append.mp whole).2, by omega, unread.word⟩
    · right
      rw [image_cons, List.append_assoc] at held
      exact ⟨fun u member => unknown u (by simp [member]), (holds_append.mp held).2⟩
  refine ⟨b, tag + t.raw.length, done ++ [t], rest,
    convert_round_eq position.front (by simp [kind]) processed, by simp, ?_⟩
  exact position.advance (by simp [kind]) rfl (by simp [Tag.reserved, kind])
    (by simp [Tag.skipped, kind]) (position.converted.skip kind) ahead

theorem Position.fits_size (position : Position info b tag done (t :: rest))
    {back : List UInt8} (unread : Unread b.bytes (b.buf + b.size) tag (t.raw ++ back)) :
    t.raw.length ≤ b.size := by
  have base := position.base
  have ends := unread.room.1
  omega

/-- One round on a tag that is rotated to the end. -/
theorem Position.processed {after : ConvertibleBuffer}
    (position : Position info b tag done (t :: rest)) (known : t.kind ≠ .unknown)
    (other : t.kind ≠ .module) (converted : Converted after (done ++ [t]))
    (processed : processTag fuel b tag = .ok (after, tag))
    (buf : after.buf = b.buf) (size : after.size + t.reserved = b.size)
    (ahead : Walking info after tag rest ∨ Coasting info after tag rest) :
    Advances info fuel b tag (t :: rest) := by
  have going : t.kind ≠ .terminator := by
    intro ended
    have formed := position.formed
    rw [Tag.Formed, ended] at formed
    exact formed.elim
  have offset : tag = tag + t.skipped := by simp [Tag.skipped, known]
  exact ⟨after, tag, done ++ [t], rest, convert_round_eq position.front going processed, by simp,
    position.advance other buf size offset converted ahead⟩

theorem Position.cmdline (position : Position info b tag done (t :: rest))
    (kind : t.kind = .bootCmdline) : Advances info fuel b tag (t :: rest) := by
  obtain ⟨residue, unread⟩ := position.walking (by simp [kind])
  have fits := position.fits_size unread
  obtain ⟨bytes, processed, taken⟩ := process_cmdline_spec unread (by omega)
  have once := position.first (by simp [kind, singleKinds])
  rw [kind] at once
  refine position.processed (by simp [kind]) (by simp [kind])
    (position.converted.cmdline_step kind once taken.shrinks taken.kept) ?_ rfl ?_
    (.inl ⟨residue ++ t.raw.take 8, ?_⟩)
  · rw [process_tag_cmdline fuel position.front kind, processed]
    rfl
  · simp only [Tag.reserved, kind]
    omega
  · simpa only [List.append_assoc] using taken.unread

theorem Position.rsdp (position : Position info b tag done (t :: rest))
    (kind : t.kind = .rsdp) : Advances info fuel b tag (t :: rest) := by
  obtain ⟨residue, unread⟩ := position.walking (by simp [kind])
  have fits := position.fits_size unread
  obtain ⟨bytes, processed, taken⟩ := process_rsdp_spec unread (by omega)
  have once := position.first (by simp [kind, singleKinds])
  rw [kind] at once
  refine position.processed (by simp [kind]) (by simp [kind])
    (position.converted.rsdp_step kind once taken.shrinks taken.kept) ?_ rfl ?_
    (.inl ⟨residue ++ t.raw.take 8, ?_⟩)
  · rw [process_tag_rsdp fuel position.front kind, processed]
    rfl
  · simp only [Tag.reserved, kind]
    omega
  · simpa only [List.append_assoc] using taken.unread

theorem Position.memmap (position : Position info b tag done (t :: rest))
    (kind : t.kind = .memoryMap) (enough : t.raw.length < fuel) :
    Advances info fuel b tag (t :: rest) := by
  obtain ⟨residue, unread⟩ := position.walking (by simp [kind])
  have fits := position.fits_size unread
  have formed := position.formed
  rw [Tag.Formed, kind] at formed
  obtain ⟨header, entrySize, whole⟩ := formed
  obtain ⟨bytes, processed, left, shrinks, kept⟩ :=
    process_memmap_spec unread header entrySize whole (by omega) enough
  have once := position.first (by simp [kind, singleKinds])
  rw [kind] at once
  have sizeLe := t.size_le
  obtain ⟨ends, word⟩ := unread.room
  refine position.processed (by simp [kind]) (by simp [kind])
    (position.converted.memmap_step kind once shrinks (by omega) kept) ?_ rfl ?_
    (.inl ⟨residue ++ t.raw.take 16, ?_⟩)
  · rw [process_tag_memmap fuel position.front kind, processed]
    rfl
  · simp only [Tag.reserved, kind]
    omega
  · simpa only [List.append_assoc] using left

/-- Before the framebuffer is met, the bytes behind the terminator are the
leftovers of the converted tags. -/
theorem Position.residue_length {residue : List UInt8}
    (position : Position info b tag done (t :: rest)) (kind : t.kind = .framebuffer)
    (unread : Unread b.bytes (b.buf + b.size) tag
      (t.raw ++ (image rest ++ (info.last.raw ++ residue)))) :
    residue.length = leftoverOf done := by
  have once := position.first (by simp [kind, singleKinds])
  rw [kind] at once
  have parts := parts_sum (fun u member => info.formed u (by rw [position.split]; simp [member])) once
  have ends := unread.ends
  have size := position.size
  rw [position.buf, position.offset] at ends
  rw [total, position.split, image_append, image_cons] at size
  simp only [List.length_append] at ends size
  omega

theorem Position.framebuffer_other (position : Position info b tag done (t :: rest))
    (kind : t.kind = .framebuffer) (other : t.isVideo = false) :
    Advances info fuel b tag (t :: rest) := by
  obtain ⟨residue, unread⟩ := position.walking (by simp [kind])
  have large : 32 ≤ t.size := by
    have formed := position.formed
    rw [Tag.Formed, kind] at formed
    exact formed
  have type : leAt t.raw 29 1 ≠ 1 := by
    simpa [Tag.isVideo, kind] using other
  obtain ⟨bytes, processed, left, shrinks⟩ := process_fb_other unread large type
  have sameFlags : ∀ k, b.mbi.flags.testBit k =
      (b.mbi.flags.testBit k || (t.isVideo && decide (11 = k))) := by simp [other]
  refine position.processed (by simp [kind]) (by simp [kind])
    (position.converted.framebuffer_step kind shrinks b.vbeMode b.vbeCtrl sameFlags) ?_ rfl ?_
    (.inl ⟨residue ++ t.raw, ?_⟩)
  · rw [process_tag_fb fuel position.front kind, processed]
    rfl
  · simp [Tag.reserved, kind, other]
  · simpa only [List.append_assoc] using left

theorem Position.framebuffer_video (position : Position info b tag done (t :: rest))
    (kind : t.kind = .framebuffer) (video : t.isVideo = true) (space : info.HasSpace)
    (clear : info.FramebufferClear) : Advances info fuel b tag (t :: rest) := by
  obtain ⟨residue, unread⟩ := position.walking (by simp [kind])
  have large : 32 ≤ t.size := by
    have formed := position.formed
    rw [Tag.Formed, kind] at formed
    exact formed
  have type : leAt t.raw 29 1 = 1 := by
    simpa [Tag.isVideo, kind] using video
  have reserved : t.reserved = vbeModeSize + vbeCtrlSize := by
    simp [Tag.reserved, kind, video]
  have fits : vbeModeSize + vbeCtrlSize ≤ b.size := by
    have size := position.size
    have room := space
    have whole : reservedBy info.tags = reservedBy done + (t.reserved + reservedBy rest) := by
      rw [position.split, reserved_by_append]
      simp [reservedBy]
    rw [Info.HasSpace, whole] at room
    omega
  obtain ⟨bytes, mode, ctrl, processed, left, shrinks⟩ :=
    process_fb_video unread large type fits
  have lower : Shrinks b.bytes (b.buf + b.size) bytes
      (b.buf + (b.size - (vbeModeSize + vbeCtrlSize))) := ⟨by omega, shrinks.frame⟩
  have sameFlags : ∀ k, (b.mbi.flags ||| flagVideoInfo).testBit k =
      (b.mbi.flags.testBit k || (t.isVideo && decide (11 = k))) := by simp [video]
  refine position.processed (by simp [kind]) (by simp [kind])
    (position.converted.framebuffer_step kind lower mode ctrl sameFlags) ?_ rfl ?_ ?_
  · rw [process_tag_fb fuel position.front kind, processed]
    rfl
  · simp only [reserved]
    omega
  · rcases clear done t rest position.split video with unknown | covered
    · right
      refine ⟨unknown, ?_⟩
      have held := left.held
      rw [← List.append_assoc, List.append_assoc, holds_append] at held
      exact held.1
    · left
      have length := position.residue_length kind unread
      have whole := left
      rw [List.append_assoc, List.append_assoc, ← List.append_assoc] at whole
      have cut := whole.cut (Nat.sub_le (residue ++ t.raw).length (vbeModeSize + vbeCtrlSize))
      have taken : (residue ++ t.raw).length -
          ((residue ++ t.raw).length - (vbeModeSize + vbeCtrlSize)) =
            vbeModeSize + vbeCtrlSize := by
        rw [List.length_append]
        omega
      rw [taken, Nat.add_sub_assoc fits] at cut
      exact ⟨_, by simpa only [List.append_assoc] using cut⟩

theorem reserved_by_modules {block : List Tag} (mods : ∀ u ∈ block, u.kind = .module) :
    reservedBy block = (image block).length ∧ skippedBy block = 0 := by
  induction block with
  | nil => exact ⟨rfl, rfl⟩
  | cons u block ih =>
      have head := mods u (by simp)
      have rest := ih fun v member => mods v (by simp [member])
      have reserved : u.reserved = u.raw.length := by simp [Tag.reserved, head]
      have skipped : u.skipped = 0 := by simp [Tag.skipped, head]
      rw [reservedBy, skippedBy] at rest ⊢
      rw [image_cons, List.length_append, List.map_cons, List.map_cons, List.sum_cons,
        List.sum_cons]
      omega

/-- The unread tags from the first module on: one block, and no module behind it. -/
theorem Position.block (position : Position info b tag done (t :: rest))
    (kind : t.kind = .module) :
    ∃ block left, t :: rest = block ++ left ∧ block ≠ [] ∧ (∀ u ∈ block, u.kind = .module) ∧
      (∀ u ∈ left, u.kind ≠ .module) ∧ ∀ u ∈ done, u.kind ≠ .module := by
  have before : ∀ u ∈ done, u.kind ≠ .module := by
    rcases position.mods with before | behind
    · exact before
    · exact absurd kind (behind t (by simp))
  have apart := info.together
  rw [position.split, List.dropWhile_append_of_pos (by simpa using before),
    List.dropWhile_cons_of_neg (by simp [kind])] at apart
  refine ⟨(t :: rest).takeWhile (·.kind = .module), (t :: rest).dropWhile (·.kind = .module),
    List.takeWhile_append_dropWhile.symm, by simp [kind], ?_, apart, before⟩
  intro u member
  simpa using List.all_eq_true.mp List.all_takeWhile u member

/-- What stands behind the block starts with a tag that is not a module. -/
theorem behind_block (info : Info) {left : List Tag} (residue : List UInt8)
    (others : ∀ u ∈ left, u.kind ≠ .module) :
    ∃ (next : Tag) (more : List UInt8), image left ++ (info.last.raw ++ residue) = next.raw ++ more ∧
      next.kind ≠ .module := by
  cases left with
  | nil => exact ⟨info.last, residue, rfl, by rw [info.ends]; decide⟩
  | cons next left =>
      refine ⟨next, image left ++ (info.last.raw ++ residue), ?_, others next (by simp)⟩
      rw [image_cons, List.append_assoc]

theorem Position.modules (position : Position info b tag done (t :: rest))
    (kind : t.kind = .module) (enough : (t :: rest).length < fuel) :
    Advances info fuel b tag (t :: rest) := by
  obtain ⟨block, left, split, nonempty, mods, others, before⟩ := position.block kind
  have formed : ∀ u ∈ block, u.kind = .module ∧ 16 ≤ u.size := by
    intro u member
    have ok := info.formed u (by rw [position.split, split]; simp [member])
    rw [Tag.Formed, mods u member] at ok
    exact ⟨mods u member, (Tag.le_size_of_mem ok).le⟩
  obtain ⟨residue, unread⟩ := position.walking (by simp [kind])
  obtain ⟨next, more, behind, nextKind⟩ := behind_block info residue others
  have whole : t.raw ++ (image rest ++ (info.last.raw ++ residue)) =
      image block ++ (next.raw ++ more) := by
    rw [← behind, ← List.append_assoc, ← image_cons, split, image_append, List.append_assoc]
  rw [whole] at unread
  have lengths := congrArg List.length split
  rw [List.length_append] at lengths
  have short : 0 < block.length := List.length_pos_iff.mpr nonempty
  obtain ⟨bytes, placed, processed, ahead, shrinks, same, records, strings⟩ :=
    process_modules_spec unread position.base formed nextKind (show block.length < fuel by omega)
      nonempty
  have room := unread.ends
  have base := position.base
  rw [List.length_append] at room
  obtain ⟨reserved, skipped⟩ := reserved_by_modules mods
  have converted :=
    position.converted.modules_step mods before nonempty shrinks same records strings
  refine ⟨_, tag, done ++ block, left, ?_, ?_, ?_, ?_, ?_, ?_, .inr others, converted,
    .inl ⟨residue, ?_⟩⟩
  · apply convert_round_eq position.front (by simp [kind])
    rw [process_tag_modules fuel position.front kind, processed]
    rfl
  · omega
  · rw [position.split, split, List.append_assoc]
  · exact position.buf
  · have size := position.size
    rw [reserved_by_append, reserved]
    change b.size - (image block).length + _ = _
    omega
  · rw [skipped_by_append, skipped, position.offset]
    rfl
  · rw [behind]
    exact ahead

/-- Every tag that is still to be read takes the loop to a later position. -/
theorem Position.advances (position : Position info b tag done (t :: rest))
    (space : info.HasSpace) (clear : info.FramebufferClear)
    (enough : (image (t :: rest)).length < fuel) : Advances info fuel b tag (t :: rest) := by
  have short : t.raw.length < fuel := by
    rw [image_cons, List.length_append] at enough
    omega
  cases kind : t.kind with
  | terminator =>
      have formed := position.formed
      rw [Tag.Formed, kind] at formed
      exact formed.elim
  | bootCmdline => exact position.cmdline kind
  | module => exact position.modules kind ((length_le_image _).trans_lt enough)
  | memoryMap => exact position.memmap kind short
  | framebuffer =>
      cases video : t.isVideo with
      | false => exact position.framebuffer_other kind video
      | true => exact position.framebuffer_video kind video space clear
  | rsdp => exact position.rsdp kind
  | unknown => exact position.skip kind

/-! ## The run -/

/-- The buffer that the constructor makes. -/
def Info.buffer (info : Info) : ConvertibleBuffer :=
  { bytes := info.bytes, buf := info.address, size := total info.tags info.last }

theorem Info.start (info : Info) :
    Position info info.buffer (info.address + 8) [] info.tags := by
  unfold Info.buffer
  have fits := info.fits
  have held := info.held
  rw [holds_append] at held
  constructor
  · rfl
  · rfl
  · rfl
  · rfl
  · exact .inl fun t member => absurd member (by simp)
  · constructor
    · exact ⟨by simp [firstOf], fun t none => by simp [firstOf] at none⟩
    · exact ⟨by simp [modulesOf], rfl, fun some => absurd rfl some⟩
    · exact ⟨by simp [firstOf], fun t none => by simp [firstOf] at none,
        fun t none => by simp [firstOf] at none, fun t none => by simp [firstOf] at none⟩
    · exact ⟨fun _ => ⟨rfl, rfl⟩, fun t none => by simp [firstOf] at none,
        fun t none => by simp [firstOf] at none⟩
    · simp
  · refine .inl ⟨[], ?_, ?_, fits⟩
    · simpa using held.2
    · simp only [total, List.append_nil, List.length_append]
      omega

theorem convert_loop_converts (info : Info) (space : info.HasSpace)
    (clear : info.FramebufferClear) (enough : total info.tags info.last < fuel) :
    ∃ b, loop (convertRound fuel) .diverges fuel (info.buffer, info.address + 8) = .ok b ∧
      b.buf = info.address ∧ b.size + reservedBy info.tags = total info.tags info.last ∧
      Converted b info.tags := by
  have few := length_le_image info.tags
  have short : info.tags.length < fuel := by
    rw [total] at enough
    omega
  apply loop_descends (convertRound fuel) .diverges
    (fun left st => ∃ done rest, rest.length = left ∧ Position info st.1 st.2 done rest)
    _ _ ⟨[], info.tags, rfl, info.start⟩ short
  rintro left ⟨b, tag⟩ ⟨done, rest, rfl, position⟩
  cases rest with
  | nil =>
      have whole := position.split
      rw [List.append_nil] at whole
      have ended : convertRound fuel (b, tag) = .ok (.leave b) := by
        rw [convertRound, if_pos (by rw [tag_kind_eq position.front_last, info.ends])]
      refine .inl ⟨b, ended, position.buf, ?_, ?_⟩
      · have size := position.size
        rw [← whole] at size
        exact size
      · rw [whole]
        exact position.converted
  | cons t rest =>
      have inside : (image (t :: rest)).length < fuel := by
        rw [total, position.split, image_append, List.length_append] at enough
        omega
      obtain ⟨after, next, doneAfter, leftAfter, round, less, later⟩ :=
        position.advances space clear inside
      exact .inr ⟨(after, next), leftAfter.length, round, less, doneAfter, leftAfter, rfl, later⟩

end

end L4Bootstrap.Multiboot2
