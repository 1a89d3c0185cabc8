import L4Bootstrap.Startup.PlacedImages

/-!
# Loading one image

`load_elf_module` copies each segment from the file to its area and clears the rest of the
area. As long as the areas are apart from each other and from the file, the headers stay as
they are while they are read, and in the end each area has what the file says.
-/

namespace L4Bootstrap

open MachineWord CheckedState ByteMemory

set_option autoImplicit false

variable {W : Wordsize}

/-! ## The loop over the headers -/

section

variable {σ : Type} {headers : σ → List ProgramHeader} {handler : σ → ProgramHeader → Checked σ}
  {phdrs : List ProgramHeader} {state last : σ}

/-- While the handler keeps the headers, the loop hands out those of the start. -/
theorem for_each_header_ok (Inv : σ → Prop) (same : ∀ state, Inv state → headers state = phdrs)
    (step : ∀ state next ph, Inv state → ph ∈ phdrs → handler state ph = .ok next → Inv next)
    {count i : Nat} (enough : phdrs.length < i + count) (start : Inv state)
    (ran : forEachHeader headers handler count i state = .ok last) :
    ((phdrs.drop i).filter fun ph => ph.type ≠ .null).foldlM handler state = .ok last := by
  induction count generalizing i state with
  | zero =>
      cases ran
      rw [List.drop_eq_nil_of_le (by omega)]
      rfl
  | succ count ih =>
      rw [forEachHeader, same state start] at ran
      cases header : phdrs[i]? with
      | none =>
          rw [header] at ran
          cases ran
          rw [List.drop_eq_nil_of_le (List.getElem?_eq_none_iff.mp header)]
          rfl
      | some ph =>
          obtain ⟨inside, isHeader⟩ := List.getElem?_eq_some_iff.mp header
          simp only [header] at ran
          rw [List.drop_eq_getElem_cons inside, isHeader]
          by_cases null : ph.type = .null
          · rw [if_pos null] at ran
            rw [List.filter_cons_of_neg (by simp [null])]
            exact ih (by omega) start ran
          · rw [if_neg null, CheckedLoop.bind_ok_iff] at ran
            obtain ⟨next, handled, ran⟩ := ran
            rw [List.filter_cons_of_pos (by simp [null]), List.foldlM_cons, handled]
            have member : ph ∈ phdrs := isHeader ▸ List.getElem_mem inside
            exact ih (by omega) (step state next ph start member handled) ran

end

/-! ## Segments -/

/-- What the byte `k` of a segment is to be, for a file at `start`. -/
def ProgramHeader.byte (ph : ProgramHeader) (bytes : Bytes) (start k : Nat) : UInt8 :=
  if k < ph.filesz then bytes (start + ph.offset + k) else 0

/-- The file part of a segment is not larger than the segment, and lies in the file. -/
def ProgramHeader.InFile (ph : ProgramHeader) (size : Nat) : Prop :=
  ph.filesz ≤ ph.memsz ∧ ph.offset + ph.filesz ≤ size

section

variable {ram sysalloc regions : RegionList W} {mod : ElfModule} {offset size : Nat}
  {bytes : Bytes} {ph : ProgramHeader} {out : Bytes × RegionList W}

theorem read_exec_skip (noLoad : ph.isLoad = false)
    (ran : l4ExecReadExec ram sysalloc mod offset (bytes, regions) ph = .ok out) :
    out = (bytes, regions) := by
  have parts : ph.memsz = 0 ∨ ph.type ≠ .load := by
    by_contra both
    obtain ⟨nonempty, load⟩ := not_or.mp both
    have isLoad : ph.isLoad = true := by
      simp only [ProgramHeader.isLoad, Bool.and_eq_true, decide_eq_true_eq]
      exact ⟨not_not.mp load, nonempty⟩
    rw [isLoad] at noLoad
    cases noLoad
  unfold l4ExecReadExec at ran
  by_cases empty : ph.memsz = 0
  · rw [if_pos empty] at ran
    cases ran
    rfl
  · rw [if_neg empty, if_pos (parts.resolve_left empty)] at ran
    cases ran
    rfl

/-- A segment that is loaded fills its area, and nothing else. -/
theorem read_exec_fills (isLoad : ph.isLoad = true) (small : ph.memsz < W.modulus)
    (inFile : ph.InFile size) (fits : mod.start + size ≤ W.modulus)
    (ran : l4ExecReadExec ram sysalloc mod offset (bytes, regions) ph = .ok out) :
    W.add ph.paddr offset + ph.memsz ≤ W.modulus ∧
      (∀ k < ph.memsz, out.1 (W.add ph.paddr offset + k) = ph.byte bytes mod.start k) ∧
      ∀ a, ¬ (ph.area W offset).Has a → out.1 a = bytes a := by
  obtain ⟨whole, inside⟩ := inFile
  have parts : ph.type = .load ∧ ph.memsz ≠ 0 := by
    simpa [ProgramHeader.isLoad] using isLoad
  unfold l4ExecReadExec at ran
  rw [if_neg parts.2, if_neg (not_not.mpr parts.1), CheckedLoop.bind_ok_iff] at ran
  obtain ⟨r, made, ran⟩ := ran
  obtain ⟨above, _⟩ := Region.start_size_last made small
  simp only at ran
  generalize (if mod.cmdline = 0 then Name.literal ".[Unknown]" else .cmdline mod.cmdline) = name
    at ran
  split_ifs at ran with checked padded
  · cases ran
  all_goals
    cases found : renameFirst (Region.ofAddress (W.add ph.paddr offset)) name regions.reg with
    | none =>
        rw [found] at ran
        cases ran
    | some reg => ?_
    rw [found] at ran
    cases ran
    refine ⟨above, ?_, ?_⟩
    all_goals simp only
  · intro k inArea
    have behind : W.add (W.add ph.paddr offset) ph.filesz = W.add ph.paddr offset + ph.filesz :=
      W.add_of_lt (by omega)
    rw [behind, ProgramHeader.byte]
    split_ifs with copied
    · have source : W.add mod.start ph.offset = mod.start + ph.offset := W.add_of_lt (by omega)
      rw [memset_outside (by omega), memmove_inside copied, source]
    · rw [memset, if_pos (by omega)]
  · intro a outside
    have behind : W.add (W.add ph.paddr offset) ph.filesz = W.add ph.paddr offset + ph.filesz :=
      W.add_of_lt (by omega)
    unfold Area.Has ProgramHeader.area at outside
    simp only at outside
    rw [behind, memset_outside (by omega), memmove_outside (by omega)]
  · intro k inArea
    have copied : k < ph.filesz := by omega
    have source : W.add mod.start ph.offset = mod.start + ph.offset := W.add_of_lt (by omega)
    rw [memmove_inside copied, ProgramHeader.byte, if_pos copied, source]
  · intro a outside
    unfold Area.Has ProgramHeader.area at outside
    simp only at outside
    exact memmove_outside (by omega)

end

/-! ## All segments of a file -/

section

variable {ram sysalloc : RegionList W} {mod : ElfModule} {offset size : Nat}
  {phdrs : List ProgramHeader}

/-- The areas are apart from each other and from the file. -/
structure AreasClear (W : Wordsize) (loads : List ProgramHeader) (offset start size : Nat) : Prop where
  apart : (loads.map (ProgramHeader.area W offset)).Pairwise Area.Apart
  file : ∀ ph ∈ loads, ∀ k < size, ¬ (ph.area W offset).Has (start + k)

/-- The segments of a file have the contents that the file had in `source`. -/
def SegmentsFilled (W : Wordsize) (loads : List ProgramHeader) (offset start : Nat)
    (source bytes : Bytes) : Prop :=
  ∀ ph ∈ loads, ∀ k < ph.memsz,
    bytes (W.add ph.paddr offset + k) = ph.byte source start k

theorem ProgramHeader.byte_congr {ph : ProgramHeader} {bytes other : Bytes} {start there k : Nat}
    (inFile : ph.InFile size) (same : ∀ j < size, bytes (start + j) = other (there + j)) :
    ph.byte bytes start k = ph.byte other there k := by
  obtain ⟨_, inside⟩ := inFile
  unfold byte
  split_ifs with copied
  · rw [Nat.add_assoc, same (ph.offset + k) (by omega), Nat.add_assoc]
  · rfl

theorem AreasClear.tail {ph : ProgramHeader} {rest : List ProgramHeader} {start : Nat}
    (clear : AreasClear W (ph :: rest) offset start size) : AreasClear W rest offset start size :=
  ⟨(List.pairwise_cons.mp clear.apart).2, fun other member => clear.file other (by simp [member])⟩

/-- Area by area: an area that is filled stays so, because the later ones are apart from it. -/
theorem read_exec_all {start last : Bytes × RegionList W}
    (small : ∀ ph ∈ loadsOf phdrs, ph.memsz < W.modulus)
    (inFile : ∀ ph ∈ loadsOf phdrs, ph.InFile size) (fits : mod.start + size ≤ W.modulus)
    (clear : AreasClear W (loadsOf phdrs) offset mod.start size)
    (ran : phdrs.foldlM (l4ExecReadExec ram sysalloc mod offset) start = .ok last) :
    SegmentsFilled W (loadsOf phdrs) offset mod.start start.1 last.1 ∧
      ∀ a, (∀ ph ∈ loadsOf phdrs, ¬ (ph.area W offset).Has a) → last.1 a = start.1 a := by
  induction phdrs generalizing start with
  | nil =>
      cases ran
      exact ⟨fun ph member => by simp [loadsOf] at member, fun _ _ => rfl⟩
  | cons ph rest ih =>
      rw [List.foldlM_cons, CheckedLoop.bind_ok_iff] at ran
      obtain ⟨next, handled, ran⟩ := ran
      cases isLoad : ph.isLoad with
      | false =>
          have loads : loadsOf (ph :: rest) = loadsOf rest :=
            List.filter_cons_of_neg (by simp [isLoad])
          rw [loads] at small inFile clear ⊢
          rw [read_exec_skip isLoad handled] at ran
          exact ih small inFile clear ran
      | true =>
          have loads : loadsOf (ph :: rest) = ph :: loadsOf rest :=
            List.filter_cons_of_pos isLoad
          rw [loads] at small inFile clear ⊢
          obtain ⟨_, filled, frame⟩ := read_exec_fills isLoad (small ph (by simp))
            (inFile ph (by simp)) fits handled
          obtain ⟨restFilled, restFrame⟩ := ih (fun other member => small other (by simp [member]))
            (fun other member => inFile other (by simp [member])) clear.tail ran
          obtain ⟨first, _⟩ := List.pairwise_cons.mp clear.apart
          constructor
          · intro other member k inside
            rcases List.mem_cons.mp member with rfl | inRest
            · rw [restFrame, filled k inside]
              intro later isLater has
              have apart := first _ (List.mem_map_of_mem isLater)
              unfold Area.Apart ProgramHeader.area at apart
              unfold Area.Has ProgramHeader.area at has
              simp only at apart has
              omega
            · rw [restFilled other inRest k inside]
              apply ProgramHeader.byte_congr (inFile other (by simp [inRest]))
              intro j less
              exact frame _ (clear.file ph (by simp) j less)
          · intro a outside
            rw [restFrame a fun other member => outside other (by simp [member]),
              frame a (outside ph (by simp))]

end

/-! ## The whole function -/

/-- What the loader relies on in the file of a module: its headers lie in the file, there
are not too many of them, and so do its segments, which are not single bytes. -/
structure SoundFile (around : Surroundings W) (s : Machine W) (index : Nat) : Prop where
  headers : ∀ bytes start,
    (∀ k < (s.module index).size, bytes (start + k) = s.bytes ((s.module index).start + k)) →
      around.elf bytes start = s.file around index ∧
        around.entry bytes start = around.entry s.bytes (s.module index).start
  few : (s.file around index).phdrs.length < maxHeaders
  sized : s.Sized around index
  inFile : ∀ ph ∈ (s.file around index).loads, ph.InFile (s.module index).size

/-- What `load_elf_module` has done. -/
structure ImageLoaded (around : Surroundings W) (s : Machine W) (index offset : Nat)
    (loaded : LoadedImage) (t : Machine W) : Prop where
  mods : t.mods = s.mods
  answer : loaded = ⟨index, offset, W.add (around.entry s.bytes (s.module index).start) offset⟩
  filled : SegmentsFilled W (s.file around index).loads offset (s.module index).start s.bytes t.bytes
  frame : ∀ a, (∀ area ∈ (s.file around index).areas W offset, ¬ area.Has a) → t.bytes a = s.bytes a

theorem load_elf_module_ok {around : Surroundings W} {s t : Machine W} {index offset : Nat}
    {loaded : LoadedImage} (sound : SoundFile around s index)
    (fits : (s.module index).start + (s.module index).size ≤ W.modulus)
    (clear : AreasClear W (s.file around index).loads offset (s.module index).start
      (s.module index).size)
    (ran : loadElfModule around index offset s = .ok loaded t) :
    ImageLoaded around s index offset loaded t := by
  rw [loadElfModule, get_bind] at ran
  simp only at ran
  split_ifs at ran with magic arch
  · exact absurd ran stop_not_ok
  · exact absurd ran stop_not_ok
  simp only [CheckedState.bind_ok_iff, lift_ok_iff, modify_ok_iff, pure_ok_iff] at ran
  obtain ⟨⟨bytes, regions⟩, _, ⟨passed, rfl⟩, freed, u, ⟨_, rfl⟩, _, _, rfl, isLoaded, rfl⟩ := ran
  have loads := loads_used (u.file around index)
  have small : ∀ ph ∈ (u.file around index).loads, ph.memsz < W.modulus :=
    fun ph member => (sound.sized ph member).2
  -- what is written so far leaves the file alone
  have kept : ∀ (state next : Bytes × RegionList W), ∀ ph ∈ (u.file around index).phdrs,
      (∀ k < (u.module index).size, state.1 ((u.module index).start + k) =
        u.bytes ((u.module index).start + k)) →
      l4ExecReadExec u.memory.ram u.memory.sysalloc (u.elfModule around index) offset state ph =
        .ok next →
      ∀ k < (u.module index).size, next.1 ((u.module index).start + k) =
        u.bytes ((u.module index).start + k) := by
    intro state next ph member same handled k less
    cases isLoad : ph.isLoad with
    | false =>
        rw [read_exec_skip isLoad handled]
        exact same k less
    | true =>
        have isSegment : ph ∈ (u.file around index).loads := List.mem_filter.mpr ⟨member, isLoad⟩
        obtain ⟨_, _, frame⟩ := read_exec_fills isLoad (small ph isSegment)
          (sound.inFile ph isSegment) fits handled
        rw [frame _ (clear.file ph isSegment k less)]
        exact same k less
  have enough := sound.few
  have folded := @for_each_header_ok _ _ _ (u.file around index).phdrs _ _
    (fun state : Bytes × RegionList W => ∀ k < (u.module index).size,
      state.1 ((u.module index).start + k) = u.bytes ((u.module index).start + k))
    (fun state same => congrArg ElfFile.phdrs (sound.headers state.1 _ same).1)
    (fun state next ph same member handled => kept state next ph member same handled)
    maxHeaders 0 (by omega) (fun _ _ => rfl) passed
  rw [List.drop_zero] at folded
  obtain ⟨filled, frame⟩ := @read_exec_all W _ _ _ _ _ (u.file around index).used _ _
    (by rw [loads]; exact small) (by rw [loads]; exact sound.inFile) fits
    (by rw [loads]; exact clear) folded
  rw [loads] at filled frame
  have fileKept : ∀ k < (u.module index).size, bytes ((u.module index).start + k) =
      u.bytes ((u.module index).start + k) :=
    fun k less => frame _ fun ph member => clear.file ph member k less
  refine ⟨rfl, ?_, filled, ?_⟩
  · rw [isLoaded, ← (sound.headers bytes _ fileKept).2]
    rfl
  · intro a outside
    apply frame
    intro ph member
    exact outside _ (List.mem_map_of_mem member)

end L4Bootstrap
