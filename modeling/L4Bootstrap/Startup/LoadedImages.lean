import L4Bootstrap.Startup.LoadElfModule

/-!
# The images that the kernel is started with

All of the loading: whatever the two arrays of offsets hold at first, the images that are
loaded are those that were reserved, and when the kernel is started every segment has the
contents that its file had when the loader was entered.
-/

namespace L4Bootstrap

open MachineWord CheckedState ByteMemory LoggedRun

set_option autoImplicit false

variable {W : Wordsize}

/-! ## The KIPs in the file and in memory -/

/-- What a search that stays in its section returns. -/
theorem KipSearched.answer {L : KipLayout} {bytes : Bytes} {kip size node fuel : Nat}
    {found : Option Nat} (searched : KipSearched W L bytes kip size node)
    (returned : (searchKip W L bytes fuel kip size node).result = .ok found) :
    found = firstKip W L bytes kip size node := by
  obtain ⟨other, isFirst, _⟩ := searched
  exact scan_unique returned isFirst

/-- The KIPs lie in the file part of a segment with no room for half a KIP behind them, and
code that writes to the bytes `patched` of a kernel at some offset leaves their nodes alone. -/
structure KipSection (around : Surroundings W) (s : Machine W) (kernel : Nat)
    (patched : Nat → Nat → Prop) (hdr : HdrInfo) : Prop where
  tail : hdr.size % pageSize < around.kip.size
  segment : ∃ ph ∈ (s.file around kernel).loads, ph.offset ≤ hdr.fileOfs ∧
    hdr.fileOfs + hdr.size ≤ ph.offset + ph.filesz ∧
    hdr.start = ph.paddr + (hdr.fileOfs - ph.offset)
  spared : ∀ offset k, InSection around.kip hdr.size k → ∀ j < around.kip.nodeSize,
    ¬ patched offset (W.add hdr.start offset + k * pageSize + around.kip.nodeOffset + j)

/-- The segments are filled but for some bytes. -/
def SegmentsFilledBut (W : Wordsize) (patched : Nat → Prop) (loads : List ProgramHeader)
    (offset start : Nat) (source bytes : Bytes) : Prop :=
  ∀ ph ∈ loads, ∀ k < ph.memsz, ¬ patched (W.add ph.paddr offset + k) →
    bytes (W.add ph.paddr offset + k) = ph.byte source start k

section

variable {around : Surroundings W} {s : Machine W} {kernel node offset : Nat}
  {patched : Nat → Nat → Prop} {bytes : Bytes}

/-- The node of a KIP in the loaded kernel is that of the KIP in its file. -/
theorem KipSection.kip_node {hdr : HdrInfo} (kips : KipSection around s kernel patched hdr)
    (sound : SoundFile around s kernel)
    (fits : (s.module kernel).start + (s.module kernel).size ≤ W.modulus)
    (inside : ∀ ph ∈ (s.file around kernel).loads, W.add ph.paddr offset + ph.memsz ≤ W.modulus)
    (filled : SegmentsFilledBut W (patched offset) (s.file around kernel).loads offset
      (s.module kernel).start s.bytes bytes) {k : Nat} (inSection : InSection around.kip hdr.size k) :
    kipNode around.kip bytes (kipAt W (W.add hdr.start offset) k) =
      kipNode around.kip s.bytes (kipAt W (W.add (s.module kernel).start hdr.fileOfs) k) := by
  obtain ⟨ph, member, front, back, start⟩ := kips.segment
  obtain ⟨whole, inFile⟩ := sound.inFile ph member
  have word := inside ph member
  have tail := kips.tail
  have field := around.kip.inside
  unfold InSection at inSection
  -- neither address wraps around
  have kipWord : W.add hdr.start offset = W.add ph.paddr offset + (hdr.fileOfs - ph.offset) := by
    rw [start, Wordsize.add, Nat.add_right_comm, Nat.add_mod, Nat.mod_eq_of_lt
      (show hdr.fileOfs - ph.offset < W.modulus by omega)]
    change (W.add ph.paddr offset + _) % W.modulus = _
    rw [Nat.mod_eq_of_lt (by omega)]
  have fileWord : W.add (s.module kernel).start hdr.fileOfs =
      (s.module kernel).start + hdr.fileOfs := W.add_of_lt (by omega)
  rw [kipNode, kipNode, kipAt, kipAt, fileWord, Nat.mod_eq_of_lt (by omega),
    Nat.mod_eq_of_lt (by omega)]
  apply read_le_congr
  intro j less
  have spared := kips.spared offset k inSection j less
  have sum : W.add hdr.start offset + k * pageSize + around.kip.nodeOffset + j =
      W.add ph.paddr offset +
        (hdr.fileOfs - ph.offset + k * pageSize + around.kip.nodeOffset + j) := by omega
  rw [sum] at spared ⊢
  rw [filled ph member _ (by omega) spared, ProgramHeader.byte, if_pos (by omega)]
  congr 1
  omega

/-- A KIP is found in memory exactly if it was found in the file. -/
theorem kip_found_iff {present : Bool} {found : Option Nat}
    (kips : ∀ hdr, s.kipHdr around kernel = some hdr → KipSection around s kernel patched hdr)
    (sound : SoundFile around s kernel)
    (fits : (s.module kernel).start + (s.module kernel).size ≤ W.modulus)
    (inside : ∀ ph ∈ (s.file around kernel).loads, W.add ph.paddr offset + ph.memsz ≤ W.modulus)
    (filled : SegmentsFilledBut W (patched offset) (s.file around kernel).loads offset
      (s.module kernel).start s.bytes bytes)
    (search : s.KipSearch around kernel node present)
    (returned : (findKip W around.kip bytes around.fuel (s.kipHdr around kernel) offset node).result =
      .ok found) : found.isSome = present := by
  cases isHdr : s.kipHdr around kernel with
  | none =>
      rw [isHdr] at returned
      cases returned
  | some hdr =>
      have kipSection := kips hdr isHdr
      rw [Machine.KipSearch, isHdr, kipExistsForNode] at search
      rw [isHdr, findKip] at returned
      obtain ⟨ph, member, _, back, _⟩ := kipSection.segment
      have small := (sound.sized ph member).2
      have inFile := sound.inFile ph member
      unfold ProgramHeader.InFile at inFile
      have sizeWord : hdr.size < W.modulus := by omega
      have isFound := (search_kip_ends (W.add_lt _ _) sizeWord (.inl kipSection.tail)).answer returned
      have inMemory : KipSearched W around.kip s.bytes
          (W.add (s.module kernel).start hdr.fileOfs) hdr.size node :=
        search_kip_ends (W.add_lt _ _) sizeWord (.inl kipSection.tail)
      cases outcome : (searchKip W around.kip s.bytes around.fuel
          (W.add (s.module kernel).start hdr.fileOfs) hdr.size node).result with
      | error failure =>
          rw [bind_of_error outcome] at search
          cases search
      | ok first =>
          rw [bind_of_ok outcome] at search
          have isPresent : first.isSome = present := Except.ok.inj search
          rw [← isPresent, inMemory.answer outcome, isFound, Bool.eq_iff_iff, first_kip_is_some,
            first_kip_is_some]
          constructor
          · rintro ⟨k, inSection, same⟩
            rw [kipSection.kip_node sound fits inside filled inSection] at same
            exact ⟨k, inSection, same⟩
          · rintro ⟨k, inSection, same⟩
            rw [← kipSection.kip_node sound fits inside filled inSection] at same
            exact ⟨k, inSection, same⟩

end

/-! ## One image after the other -/

/-- What is reserved and kept when loading begins. -/
structure ReadyToLoad (around : Surroundings W) (s mid : Machine W) (images : List (Nat × Nat)) :
    Prop where
  apart : (s.areas around images).Pairwise Area.Apart
  inside : ∀ area ∈ s.areas around images, area.1 + area.2 ≤ W.modulus
  clear : ∀ i < mid.mods.length, ∀ p, mid.Image i p → ∀ area ∈ s.areas around images, ¬ area.Has p
  bounded : ∀ i < mid.mods.length, ∀ p, mid.Image i p → p < W.modulus
  files : FilesKept s mid
  modules : ∀ image ∈ images, image.1 < s.mods.length ∧ (s.module image.1).isBaseModule = true ∧
    SoundFile around s image.1
  nonempty : ∀ image ∈ images, 0 < (s.module image.1).size

/-- The areas of one image. -/
def Machine.imageAreas (s : Machine W) (around : Surroundings W) (image : Nat × Nat) : List Area :=
  (s.file around image.1).areas W image.2

/-- The images `loaded` are in memory but for patched bytes, and nothing else is new. -/
structure Loaded (around : Surroundings W) (s mid : Machine W) (images : List (Nat × Nat))
    (patched : Nat → Prop) (loaded : List (Nat × Nat)) (v : Machine W) : Prop where
  mods : v.mods = mid.mods
  reserved : loaded ⊆ images
  filled : ∀ image ∈ loaded, SegmentsFilledBut W patched (s.file around image.1).loads image.2
    (s.module image.1).start s.bytes v.bytes
  frame : ∀ a, (∀ image ∈ loaded, ∀ area ∈ s.imageAreas around image, ¬ area.Has a) →
    v.bytes a = mid.bytes a

section

variable {around : Surroundings W} {s mid v w : Machine W} {images loaded : List (Nat × Nat)}
  {image other : Nat × Nat} {patched : Nat → Prop}

theorem image_areas_subset (member : image ∈ images) {area : Area}
    (inImage : area ∈ s.imageAreas around image) : area ∈ s.areas around images :=
  List.mem_flatMap.mpr ⟨image, member, inImage⟩

namespace ReadyToLoad

theorem itself (ready : ReadyToLoad around s mid images) (member : image ∈ images) :
    (s.imageAreas around image).Pairwise Area.Apart :=
  (List.pairwise_flatMap.mp ready.apart).1 image member

/-- Different images have no byte in common. -/
theorem others (ready : ReadyToLoad around s mid images) (member : image ∈ images)
    (isOther : other ∈ images) (differ : image ≠ other) :
    ∀ area ∈ s.imageAreas around image, ∀ b ∈ s.imageAreas around other, area.Apart b := by
  have symm : Std.Symm fun image other : Nat × Nat => ∀ area ∈ s.imageAreas around image,
      ∀ b ∈ s.imageAreas around other, area.Apart b :=
    ⟨fun _ _ apart b bMember area aMember => (apart area aMember b bMember).symm⟩
  have apart : images.Pairwise fun image other => ∀ area ∈ s.imageAreas around image,
      ∀ b ∈ s.imageAreas around other, area.Apart b := (List.pairwise_flatMap.mp ready.apart).2
  exact apart.forall member isOther differ

theorem length (ready : ReadyToLoad around s mid images) (member : image ∈ images) :
    image.1 < mid.mods.length := by
  rw [ready.files.length]
  exact (ready.modules image member).1

theorem size (ready : ReadyToLoad around s mid images) (member : image ∈ images) :
    (mid.module image.1).size = (s.module image.1).size := by
  obtain ⟨inside, isBase, _⟩ := ready.modules image member
  exact ready.files.size image.1 inside isBase

/-- The byte `k` of a file belongs to the image of its module. -/
theorem image_byte (ready : ReadyToLoad around s mid images) (member : image ∈ images) {k : Nat}
    (less : k < (s.module image.1).size) : mid.Image image.1 ((mid.module image.1).start + k) := by
  have size := ready.size member
  unfold Machine.Image Machine.imageEnd
  omega

theorem fits (ready : ReadyToLoad around s mid images) (member : image ∈ images) :
    (mid.module image.1).start + (mid.module image.1).size ≤ W.modulus := by
  have size := ready.size member
  have pos := ready.nonempty image member
  have last := ready.bounded image.1 (ready.length member) _
    (ready.image_byte member (k := (s.module image.1).size - 1) (by omega))
  omega

end ReadyToLoad

namespace Loaded

/-- No module has been touched. -/
theorem file_bytes (state : Loaded around s mid images patched loaded v)
    (ready : ReadyToLoad around s mid images) (member : image ∈ images) {k : Nat}
    (less : k < (s.module image.1).size) :
    v.bytes ((v.module image.1).start + k) = s.bytes ((s.module image.1).start + k) := by
  obtain ⟨inside, isBase, _⟩ := ready.modules image member
  have same : v.module image.1 = mid.module image.1 := by
    rw [Machine.module, Machine.module, state.mods]
  rw [same, ← ready.files.bytes image.1 inside isBase k less]
  apply state.frame
  intro done isDone area inDone
  exact ready.clear image.1 (ready.length member) _ (ready.image_byte member less) area
    (image_areas_subset (state.reserved isDone) inDone)

/-- The file of a module is the one that the loader found at first. -/
theorem file (state : Loaded around s mid images patched loaded v)
    (ready : ReadyToLoad around s mid images) (member : image ∈ images) :
    v.file around image.1 = s.file around image.1 ∧
      around.entry v.bytes (v.module image.1).start =
        around.entry s.bytes (s.module image.1).start :=
  (ready.modules image member).2.2.headers v.bytes _ fun _ less =>
    state.file_bytes ready member less

theorem size (state : Loaded around s mid images patched loaded v)
    (ready : ReadyToLoad around s mid images) (member : image ∈ images) :
    (v.module image.1).size = (s.module image.1).size := by
  have same : v.module image.1 = mid.module image.1 := by
    rw [Machine.module, Machine.module, state.mods]
  rw [same, ready.size member]

theorem sound (state : Loaded around s mid images patched loaded v)
    (ready : ReadyToLoad around s mid images) (member : image ∈ images) :
    SoundFile around v image.1 := by
  obtain ⟨_, _, headers, few, sized, inFile⟩ := ready.modules image member
  obtain ⟨sameFile, sameEntry⟩ := state.file ready member
  constructor
  · intro bytes start same
    rw [sameFile, sameEntry]
    apply headers
    intro k less
    rw [same k (by rwa [state.size ready member]), state.file_bytes ready member less]
  · rwa [sameFile]
  · unfold Machine.Sized
    rwa [sameFile]
  · rw [sameFile, state.size ready member]
    exact inFile

/-- Loading one more of the reserved images. -/
theorem load {index offset : Nat} {answer : LoadedImage}
    (state : Loaded around s mid images patched loaded v)
    (ready : ReadyToLoad around s mid images) (member : (index, offset) ∈ images)
    (ran : loadElfModule around index offset v = .ok answer w) :
    Loaded around s mid images patched (loaded ++ [(index, offset)]) w ∧
      answer = ⟨index, offset,
        W.add (around.entry s.bytes (s.module index).start) offset⟩ := by
  have sound := state.sound ready member
  obtain ⟨sameFile, sameEntry⟩ := state.file ready member
  have size := state.size ready member
  simp only at sound sameFile sameEntry size
  have sameModule : v.module index = mid.module index := by
    rw [Machine.module, Machine.module, state.mods]
  have fits : (v.module index).start + (v.module index).size ≤ W.modulus := by
    rw [sameModule]
    exact ready.fits member
  have clear : AreasClear W (v.file around index).loads offset (v.module index).start
      (v.module index).size := by
    rw [sameFile]
    refine ⟨ready.itself member, ?_⟩
    intro ph isSegment k less
    rw [sameModule]
    exact ready.clear index (ready.length member) _
      (ready.image_byte member (by rwa [← size])) _
      (image_areas_subset member (List.mem_map_of_mem isSegment))
  obtain ⟨mods, isAnswer, filled, frame⟩ := load_elf_module_ok sound fits clear ran
  rw [sameFile] at filled frame
  rw [sameEntry] at isAnswer
  have fromFile : SegmentsFilledBut W patched (s.file around index).loads offset
      (s.module index).start s.bytes w.bytes := by
    intro ph isSegment k inside _
    rw [filled ph isSegment k inside]
    exact ProgramHeader.byte_congr ((ready.modules _ member).2.2.inFile ph isSegment)
      fun j less => state.file_bytes ready member less
  refine ⟨⟨mods.trans state.mods, ?_, ?_, ?_⟩, isAnswer⟩
  · exact List.append_subset.mpr ⟨state.reserved, by simpa using member⟩
  · intro done isDone
    rcases List.mem_append.mp isDone with earlier | isNew
    · by_cases same : done = (index, offset)
      · rw [same]
        exact fromFile
      · intro ph isSegment k inside spared
        rw [frame]
        · exact state.filled done earlier ph isSegment k inside spared
        · intro area inArea has
          have apart := ready.others (state.reserved earlier) member same _
            (List.mem_map_of_mem isSegment) area inArea
          unfold Area.Apart ProgramHeader.area at apart
          unfold Area.Has at has
          simp only at apart
          omega
    · rw [List.mem_singleton.mp isNew]
      exact fromFile
  · intro a outside
    have here : ∀ area ∈ s.imageAreas around (index, offset), ¬ area.Has a := outside _ (by simp)
    rw [frame a here, state.frame a fun done isDone => outside done (by simp [isDone])]

end Loaded

end

end L4Bootstrap
