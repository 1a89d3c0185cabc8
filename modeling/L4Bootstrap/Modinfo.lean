import L4Bootstrap.ModAttr
import L4Bootstrap.Region

/-!
# The region of the module info

`modinfo_gen_payload_size` and `mod_header_region` of `boot_modules.cc`. Behind the module
header the image builder puts the module table, strings and attribute lists, wherever it
likes. The region `.modinfo` reaches from the header to the end of the last string; a
table or a list of attributes behind all strings is left out.
-/

namespace L4Bootstrap

open MachineWord CheckedLoop ByteMemory

set_option autoImplicit false

/-! ## The structures in memory -/

/-- `sizeof (Mod_header)`. -/
def modHeaderSize : Nat := 56

/-- `sizeof (Mod_info)`. -/
def modInfoSize : Nat := 96

/-- `Mod_base::rel2abs`. -/
def rel2abs (W : Wordsize) (this v : Nat) : Nat := (this + v) % W.modulus

namespace ModHeader

def numMods (bytes : Bytes) (header : Nat) : Nat := readLe bytes (header + 32) 4

def mbiCmdline (W : Wordsize) (bytes : Bytes) (header : Nat) : Nat :=
  rel2abs W header (readLe bytes (header + 40) 8)

/-- The start of the table. -/
def table (W : Wordsize) (bytes : Bytes) (header : Nat) : Nat :=
  rel2abs W header (readLe bytes (header + 48) 8)

/-- The addresses of the entries. -/
def mods (W : Wordsize) (bytes : Bytes) (header : Nat) : List Nat :=
  (List.range (numMods bytes header)).map fun i => table W bytes header + modInfoSize * i

end ModHeader

namespace ModInfoAt

def name (W : Wordsize) (bytes : Bytes) (m : Nat) : Nat := rel2abs W m (readLe bytes (m + 56) 8)

def cmdline (W : Wordsize) (bytes : Bytes) (m : Nat) : Nat := rel2abs W m (readLe bytes (m + 64) 8)

def md5sumCompr (W : Wordsize) (bytes : Bytes) (m : Nat) : Nat :=
  rel2abs W m (readLe bytes (m + 72) 8)

def md5sumUncompr (W : Wordsize) (bytes : Bytes) (m : Nat) : Nat :=
  rel2abs W m (readLe bytes (m + 80) 8)

def attrs (W : Wordsize) (bytes : Bytes) (m : Nat) : Nat := rel2abs W m (readLe bytes (m + 88) 8)

/-- The strings of a module. -/
def strings (W : Wordsize) (bytes : Bytes) (m : Nat) : List Nat :=
  [name W bytes m, cmdline W bytes m, md5sumCompr W bytes m, md5sumUncompr W bytes m]

end ModInfoAt

/-- `strlen`, for a string that ends after at most `fuel` bytes. -/
def strlenFrom (bytes : Bytes) : Nat → Nat → Checked Nat
  | 0, _ => .error .outOfBounds
  | fuel + 1, v =>
      if bytes v = 0 then .ok 0
      else do
        let rest ← strlenFrom bytes fuel (v + 1)
        pure (rest + 1)

/-! ## The region -/

def maxPayloadAddr (max v : Nat) : Nat := if max < v then v else max

def maxPayloadAddrStr (W : Wordsize) (bytes : Bytes) (max v : Nat) : Checked Nat := do
  let length ← strlenFrom bytes W.modulus v
  pure (maxPayloadAddr max (W.add (W.add v length) 1))

/-- `modinfo_gen_payload_size`, with the value of `modinfo_max_payload_addr` behind it. -/
def modinfoGenPayloadSize (W : Wordsize) (bytes : Bytes) (header : Nat) : Checked Nat := do
  let max ← maxPayloadAddrStr W bytes 0 (ModHeader.mbiCmdline W bytes header)
  (ModHeader.mods W bytes header).foldlM (fun max m => do
    let max ← maxPayloadAddrStr W bytes max (ModInfoAt.name W bytes m)
    let max ← maxPayloadAddrStr W bytes max (ModInfoAt.cmdline W bytes m)
    let max ← maxPayloadAddrStr W bytes max (ModInfoAt.md5sumCompr W bytes m)
    maxPayloadAddrStr W bytes max (ModInfoAt.md5sumUncompr W bytes m)) max

def modHeaderRegion (W : Wordsize) (bytes : Bytes) (header : Nat) : Checked (Region W) := do
  let max ← modinfoGenPayloadSize W bytes header
  Region.startSize header (W.sub max header) { name := .literal ".modinfo", type := .boot }

/-! ## What is read later -/

/-- A string of `n` characters. -/
def Terminated (bytes : Bytes) (v n : Nat) : Prop :=
  (∀ i, i < n → bytes (v + i) ≠ 0) ∧ bytes (v + n) = 0

/-- A list of attributes, from its magic to the byte that is no valid header. -/
def AttrListAt (bytes : Bytes) (kvs size : Nat) : Prop :=
  ∃ entries last, Holds bytes kvs (encodeAttrs entries last) ∧ validHeader last = false ∧
    size = (encodeAttrs entries last).length

/-- All strings that belong to a header. -/
def modinfoStrings (W : Wordsize) (bytes : Bytes) (header : Nat) : List Nat :=
  ModHeader.mbiCmdline W bytes header ::
    (ModHeader.mods W bytes header).flatMap (ModInfoAt.strings W bytes)

variable {W : Wordsize}

/-- Table, strings and attributes at any places behind the header, inside of the module
data of the image. -/
structure ModinfoLayout (W : Wordsize) (bytes : Bytes) (header dataEnd : Nat) : Prop where
  inside : dataEnd < W.modulus
  table : header + modHeaderSize ≤ ModHeader.table W bytes header ∧
    ModHeader.table W bytes header + modInfoSize * ModHeader.numMods bytes header ≤ dataEnd
  strings : ∀ v ∈ modinfoStrings W bytes header, header + modHeaderSize ≤ v ∧
    ∃ n, Terminated bytes v n ∧ v + n < dataEnd
  attrs : ∀ m ∈ ModHeader.mods W bytes header, ∀ size,
    AttrListAt bytes (ModInfoAt.attrs W bytes m) size →
      header + modHeaderSize ≤ ModInfoAt.attrs W bytes m ∧
        ModInfoAt.attrs W bytes m + size ≤ dataEnd

def Region.Covers (region : Region W) (start size : Nat) : Prop :=
  ∀ p, start ≤ p → p < start + size → region.begin ≤ p ∧ p ≤ region.last

/-- The region has every byte that the loader reads later. -/
structure ModinfoReserved (W : Wordsize) (bytes : Bytes) (header : Nat) (region : Region W) :
    Prop where
  itself : region.Covers header modHeaderSize
  table : region.Covers (ModHeader.table W bytes header)
    (modInfoSize * ModHeader.numMods bytes header)
  strings : ∀ v ∈ modinfoStrings W bytes header, ∀ n, Terminated bytes v n →
    region.Covers v (n + 1)
  attrs : ∀ m ∈ ModHeader.mods W bytes header, ∀ size,
    AttrListAt bytes (ModInfoAt.attrs W bytes m) size →
      region.Covers (ModInfoAt.attrs W bytes m) size

/-! ## The extent of a list of attributes -/

section

variable {bytes : Bytes} {kvs d : Nat}

theorem encoded_length_unique {e f : EncodedAttr} {rest other : List UInt8}
    (one : Holds bytes d (e.encode ++ rest)) (two : Holds bytes d (f.encode ++ other)) :
    e.encode.length = f.encode.length := by
  obtain ⟨eHeader, eKey, eVal, _⟩ := holds_encode_attr one
  obtain ⟨fHeader, fKey, fVal, _⟩ := holds_encode_attr two
  have header : e.header = f.header := eHeader.symm.trans fHeader
  have key : e.key.length = f.key.length := by
    have same := eKey.read_le_bytes
    rw [header, fKey.read_le_bytes, Nat.mod_eq_of_lt f.keyFits, ← header,
      Nat.mod_eq_of_lt e.keyFits] at same
    exact same.symm
  have val : e.val.length = f.val.length := by
    have same := eVal.read_le_bytes
    rw [header, fVal.read_le_bytes, Nat.mod_eq_of_lt f.valFits, ← header,
      Nat.mod_eq_of_lt e.valFits] at same
    exact same.symm
  rw [length_encode_attr, length_encode_attr, header, key, val]

theorem no_descriptor {e : EncodedAttr} {rest : List UInt8} {last : UInt8}
    (single : Holds bytes d [last]) (isLast : validHeader last = false) :
    ¬ Holds bytes d (e.encode ++ rest) := by
  intro held
  have header := (holds_cons.mp single).1.symm.trans (holds_encode_attr held).1
  rw [header, e.valid] at isLast
  cases isLast

/-- The descriptors alone say where a list ends. -/
theorem descriptors_length_unique {entries others : List EncodedAttr} {last final : UInt8}
    (one : Holds bytes d (entries.flatMap EncodedAttr.encode ++ [last]))
    (isLast : validHeader last = false)
    (two : Holds bytes d (others.flatMap EncodedAttr.encode ++ [final]))
    (isFinal : validHeader final = false) :
    (entries.flatMap EncodedAttr.encode).length = (others.flatMap EncodedAttr.encode).length := by
  induction entries generalizing d others with
  | nil =>
      cases others with
      | nil => rfl
      | cons f others =>
          rw [List.flatMap_cons, List.append_assoc] at two
          exact absurd two (no_descriptor one isLast)
  | cons e entries ih =>
      rw [List.flatMap_cons, List.append_assoc] at one
      cases others with
      | nil => exact absurd one (no_descriptor two isFinal)
      | cons f others =>
          rw [List.flatMap_cons, List.append_assoc] at two
          have same := encoded_length_unique one two
          have oneRest := (holds_append.mp one).2
          have twoRest := (holds_append.mp two).2
          rw [← same] at twoRest
          rw [List.flatMap_cons, List.flatMap_cons, List.length_append, List.length_append, same,
            ih oneRest twoRest]

theorem AttrListAt.unique {size other : Nat} (list : AttrListAt bytes kvs size)
    (same : AttrListAt bytes kvs other) : other = size := by
  obtain ⟨entries, last, held, isLast, rfl⟩ := list
  obtain ⟨others, final, alsoHeld, isFinal, rfl⟩ := same
  have lengths := descriptors_length_unique (holds_append.mp held).2 isLast
    (holds_append.mp alsoHeld).2 isFinal
  simp [encodeAttrs, lengths]

end

/-! ## The running maximum -/

section

variable {bytes : Bytes} {header dataEnd v n fuel : Nat} {strings : List Nat}

theorem strlen_terminated (text : Terminated bytes v n) (enough : n < fuel) :
    strlenFrom bytes fuel v = .ok n := by
  induction n generalizing v fuel with
  | zero =>
      obtain ⟨fuel, rfl⟩ := Nat.exists_eq_succ_of_ne_zero (by omega : fuel ≠ 0)
      have zero : bytes v = 0 := text.2
      rw [strlenFrom, if_pos zero]
  | succ n ih =>
      obtain ⟨fuel, rfl⟩ := Nat.exists_eq_succ_of_ne_zero (by omega : fuel ≠ 0)
      have first : bytes v ≠ 0 := text.1 0 (by omega)
      have rest : Terminated bytes (v + 1) n := by
        constructor
        · intro i inside
          rw [Nat.add_assoc, Nat.add_comm 1 i]
          exact text.1 (i + 1) (by omega)
        · rw [Nat.add_assoc, Nat.add_comm 1 n]
          exact text.2
      rw [strlenFrom, if_neg first, ih rest (by omega)]
      rfl

theorem Terminated.unique {other : Nat} (text : Terminated bytes v n)
    (same : Terminated bytes v other) : other = n := by
  rcases Nat.lt_trichotomy other n with less | equal | more
  · exact absurd same.2 (text.1 other less)
  · exact equal
  · exact absurd text.2 (same.1 n more)

/-- The end of the string that ends last, or the start value. -/
structure LastEnd (bytes : Bytes) (strings : List Nat) (max : Nat) : Prop where
  upper : ∀ v ∈ strings, ∀ n, Terminated bytes v n → v + n + 1 ≤ max
  reached : max = 0 ∨ ∃ v ∈ strings, ∃ n, Terminated bytes v n ∧ max = v + n + 1

theorem max_payload_addr_str {max : Nat} (last : LastEnd bytes strings max)
    (text : Terminated bytes v n) (fits : v + n + 1 < W.modulus) :
    ∃ next, maxPayloadAddrStr W bytes max v = .ok next ∧
      LastEnd bytes (strings ++ [v]) next := by
  refine ⟨maxPayloadAddr max (v + n + 1), ?_, ?_, ?_⟩
  · have inner : W.add v n = v + n := W.add_of_lt (by omega)
    rw [maxPayloadAddrStr, strlen_terminated text (by omega), ok_bind, inner, W.add_of_lt fits]
    rfl
  · intro w member k ends
    unfold maxPayloadAddr
    rcases List.mem_append.mp member with earlier | same
    · have := last.upper w earlier k ends
      split_ifs <;> omega
    · rw [List.mem_singleton] at same
      subst same
      have := text.unique ends
      split_ifs <;> omega
  · unfold maxPayloadAddr
    split_ifs with larger
    · exact .inr ⟨v, by simp, n, text, rfl⟩
    · refine last.reached.imp id ?_
      rintro ⟨w, member, k, ends, same⟩
      exact ⟨w, by simp [member], k, ends, same⟩

/-- The loop over the modules visits the strings one after the other. -/
theorem modinfo_gen_payload_size_eq :
    modinfoGenPayloadSize W bytes header =
      (modinfoStrings W bytes header).foldlM (maxPayloadAddrStr W bytes) 0 := by
  have modules : ∀ (mods : List Nat) (max : Nat), mods.foldlM (fun max m => do
      let max ← maxPayloadAddrStr W bytes max (ModInfoAt.name W bytes m)
      let max ← maxPayloadAddrStr W bytes max (ModInfoAt.cmdline W bytes m)
      let max ← maxPayloadAddrStr W bytes max (ModInfoAt.md5sumCompr W bytes m)
      maxPayloadAddrStr W bytes max (ModInfoAt.md5sumUncompr W bytes m)) max =
      (mods.flatMap (ModInfoAt.strings W bytes)).foldlM (maxPayloadAddrStr W bytes) max := by
    intro mods
    induction mods with
    | nil => exact fun max => rfl
    | cons m rest ih =>
        intro max
        rw [List.foldlM_cons, List.flatMap_cons, List.foldlM_append]
        simp [ModInfoAt.strings, ih]
  rw [modinfoGenPayloadSize, modinfoStrings, List.foldlM_cons]
  simp only [modules]

theorem fold_last_end {before : List Nat} {max : Nat} (last : LastEnd bytes before max)
    (texts : ∀ v ∈ strings, ∃ n, Terminated bytes v n ∧ v + n + 1 < W.modulus) :
    ∃ result, strings.foldlM (maxPayloadAddrStr W bytes) max = .ok result ∧
      LastEnd bytes (before ++ strings) result := by
  induction strings generalizing before max with
  | nil => exact ⟨max, rfl, by rw [List.append_nil]; exact last⟩
  | cons v rest ih =>
      obtain ⟨n, text, fits⟩ := texts v (by simp)
      obtain ⟨next, visited, lastNext⟩ := max_payload_addr_str last text fits
      obtain ⟨result, folded, lastResult⟩ := ih lastNext fun w member => texts w (by simp [member])
      refine ⟨result, ?_, ?_⟩
      · rw [List.foldlM_cons, visited, ok_bind, folded]
      · rw [List.append_assoc, List.singleton_append] at lastResult
        exact lastResult

/-- The region ends with the last string. -/
theorem mod_header_region_ends (layout : ModinfoLayout W bytes header dataEnd) :
    ∃ region, modHeaderRegion W bytes header = .ok region ∧ region.begin = header ∧
      LastEnd bytes (modinfoStrings W bytes header) (region.last + 1) ∧
      header + modHeaderSize ≤ region.last := by
  have inside := layout.inside
  have start : LastEnd bytes [] 0 := ⟨by simp, .inl rfl⟩
  have texts : ∀ v ∈ modinfoStrings W bytes header,
      ∃ n, Terminated bytes v n ∧ v + n + 1 < W.modulus := by
    intro v member
    obtain ⟨_, n, text, before⟩ := layout.strings v member
    exact ⟨n, text, by omega⟩
  obtain ⟨max, folded, last⟩ := fold_last_end start texts
  rw [List.nil_append] at last
  obtain ⟨above, n, text, before⟩ := layout.strings (ModHeader.mbiCmdline W bytes header)
    (by simp [modinfoStrings])
  have lower := last.upper _ (by simp [modinfoStrings]) n text
  have upper : max < W.modulus := by
    rcases last.reached with zero | ⟨v, member, k, ends, same⟩
    · omega
    · obtain ⟨k', other, fits⟩ := texts v member
      have := ends.unique other
      omega
  obtain ⟨region, made, begins, ends, _⟩ := Region.start_size_of_fits (W := W)
    { name := .literal ".modinfo", type := .boot } (show 0 < max - header by omega)
    (show header + (max - header) ≤ W.modulus by omega)
  have isLast : region.last + 1 = max := by omega
  refine ⟨region, ?_, begins, by rw [isLast]; exact last, by omega⟩
  rw [modHeaderRegion, modinfo_gen_payload_size_eq, folded, ok_bind,
    W.sub_of_le (by omega) upper, made]

/-- The region has all that is read later exactly if one of the strings ends behind the
table and behind all lists of attributes. -/
theorem modinfo_reserved_iff (layout : ModinfoLayout W bytes header dataEnd) :
    ∃ region, modHeaderRegion W bytes header = .ok region ∧
      (ModinfoReserved W bytes header region ↔
        ∃ v ∈ modinfoStrings W bytes header, ∃ n, Terminated bytes v n ∧
          (ModHeader.numMods bytes header = 0 ∨ ModHeader.table W bytes header +
            modInfoSize * ModHeader.numMods bytes header ≤ v + n + 1) ∧
          ∀ m ∈ ModHeader.mods W bytes header, ∀ size,
            AttrListAt bytes (ModInfoAt.attrs W bytes m) size →
              ModInfoAt.attrs W bytes m + size ≤ v + n + 1) := by
  obtain ⟨region, made, begins, last, whole⟩ := mod_header_region_ends layout
  refine ⟨region, made, ?_⟩
  constructor
  · intro reserved
    obtain ⟨v, member, n, text, same⟩ := last.reached.resolve_left (by omega)
    refine ⟨v, member, n, text, ?_, ?_⟩
    · rcases Nat.eq_zero_or_pos (ModHeader.numMods bytes header) with empty | nonempty
      · exact .inl empty
      · have entry : modInfoSize ≤ modInfoSize * ModHeader.numMods bytes header :=
          Nat.le_mul_of_pos_right _ nonempty
        have positive : 0 < modInfoSize := by decide
        have final := reserved.table (ModHeader.table W bytes header +
          modInfoSize * ModHeader.numMods bytes header - 1) (by omega) (by omega)
        exact .inr (by omega)
    · intro m inMods size list
      have positive : 0 < size := by
        obtain ⟨entries, byte, _, _, rfl⟩ := list
        simp [encodeAttrs]
      have final := reserved.attrs m inMods size list
        (ModInfoAt.attrs W bytes m + size - 1) (by omega) (by omega)
      omega
  · rintro ⟨v, member, n, text, table, attrs⟩
    have reach := last.upper v member n text
    constructor
    · intro p above below
      omega
    · intro p above below
      have lower := layout.table.1
      rcases table with empty | ends
      · rw [empty, Nat.mul_zero] at below
        omega
      · omega
    · intro w inStrings k ends p above below
      have lower := (layout.strings w inStrings).1
      have upper := last.upper w inStrings k ends
      omega
    · intro m inMods size list p above below
      have lower := (layout.attrs m inMods size list).1
      have upper := attrs m inMods size list
      omega

end

/-! ## An image with one module -/

/-- The header at 0x1000, the table behind the bootstrap command line, and the strings and
the attributes of the module at the given places. All strings are empty. -/
def oneModuleImage (strings attrs : Nat) : Bytes :=
  writeList attrs (encodeAttrs nodesAttrs 0)
    (writeList 0x1078 (leBytes 8 (strings - 0x1040) ++ leBytes 8 (strings - 0x1040) ++
        leBytes 8 (strings - 0x1040) ++ leBytes 8 (strings - 0x1040) ++ leBytes 8 (attrs - 0x1040))
      (writeList 0x1020 (leBytes 4 1 ++ leBytes 4 0 ++ leBytes 8 0x38 ++ leBytes 8 0x40)
        fun _ => 0))

/-- What the loader finds in such an image. -/
structure OneModule (strings attrs : Nat) : Prop where
  count : ModHeader.numMods (oneModuleImage strings attrs) 0x1000 = 1
  table : ModHeader.table .w64 (oneModuleImage strings attrs) 0x1000 = 0x1040
  list : ModInfoAt.attrs .w64 (oneModuleImage strings attrs) 0x1040 = attrs
  texts : modinfoStrings .w64 (oneModuleImage strings attrs) 0x1000 =
    [0x1038, strings, strings, strings, strings]
  first : oneModuleImage strings attrs 0x1038 = 0
  others : oneModuleImage strings attrs strings = 0

theorem attr_list_size {strings attrs size : Nat} :
    AttrListAt (oneModuleImage strings attrs) attrs size ↔
      size = (encodeAttrs nodesAttrs 0).length := by
  have list : AttrListAt (oneModuleImage strings attrs) attrs (encodeAttrs nodesAttrs 0).length :=
    ⟨nodesAttrs, 0, holds_write_list, by decide, rfl⟩
  constructor
  · intro other
    exact list.unique other
  · rintro rfl
    exact list

theorem OneModule.mods {strings attrs : Nat} (image : OneModule strings attrs) :
    ModHeader.mods .w64 (oneModuleImage strings attrs) 0x1000 = [0x1040] := by
  rw [ModHeader.mods, image.count, image.table]
  rfl

theorem OneModule.layout {strings attrs : Nat} (image : OneModule strings attrs)
    (stringsAbove : 0x1038 ≤ strings) (stringsBelow : strings < 0x2000)
    (attrsAbove : 0x1038 ≤ attrs)
    (attrsBelow : attrs + (encodeAttrs nodesAttrs 0).length ≤ 0x2000) :
    ModinfoLayout .w64 (oneModuleImage strings attrs) 0x1000 0x2000 := by
  constructor
  · decide
  · rw [image.table, image.count]
    decide
  · rw [image.texts]
    intro v member
    have empty : oneModuleImage strings attrs v = 0 ∧ 0x1038 ≤ v ∧ v < 0x2000 := by
      rcases List.mem_cons.mp member with same | same
      · subst same
        exact ⟨image.first, by decide, by decide⟩
      · have same : v = strings := by simpa using same
        subst same
        exact ⟨image.others, stringsAbove, stringsBelow⟩
    obtain ⟨ends, above, below⟩ := empty
    refine ⟨above, 0, ⟨?_, ends⟩, below⟩
    intro i inside
    exact absurd inside (Nat.not_lt_zero i)
  · rw [image.mods]
    intro m member size list
    rw [List.mem_singleton] at member
    subst member
    rw [image.list, attr_list_size] at list
    rw [image.list, list]
    exact ⟨attrsAbove, attrsBelow⟩

/-- The strings behind the attributes: the region reaches to the strings' end. -/
theorem modinfo_reserved_strings_last :
    ∃ region, modHeaderRegion .w64 (oneModuleImage 0x1100 0x10a0) 0x1000 = .ok region ∧
      ModinfoReserved .w64 (oneModuleImage 0x1100 0x10a0) 0x1000 region := by
  have image : OneModule 0x1100 0x10a0 := by constructor <;> decide +kernel
  have layout := image.layout (by decide) (by decide) (by decide) (by decide)
  obtain ⟨region, made, reserved⟩ := modinfo_reserved_iff layout
  refine ⟨region, made, reserved.mpr ?_⟩
  refine ⟨0x1100, by rw [image.texts]; simp, 0, ⟨by simp, image.others⟩, .inr ?_, ?_⟩
  · rw [image.table, image.count]
    decide
  · intro m member size list
    rw [image.mods, List.mem_singleton] at member
    subst member
    rw [image.list, attr_list_size] at list
    rw [image.list, list]
    decide

/-- The attributes behind the strings are left out. -/
theorem modinfo_misses_attributes :
    ModinfoLayout .w64 (oneModuleImage 0x10a0 0x10b0) 0x1000 0x2000 ∧
      ∃ region, modHeaderRegion .w64 (oneModuleImage 0x10a0 0x10b0) 0x1000 = .ok region ∧
        ¬ ModinfoReserved .w64 (oneModuleImage 0x10a0 0x10b0) 0x1000 region := by
  have image : OneModule 0x10a0 0x10b0 := by constructor <;> decide +kernel
  have layout := image.layout (by decide) (by decide) (by decide) (by decide)
  obtain ⟨region, made, _, last, _⟩ := mod_header_region_ends layout
  refine ⟨layout, region, made, ?_⟩
  intro reserved
  have list := reserved.attrs 0x1040 (by rw [image.mods]; simp) _
    (by rw [image.list]; exact attr_list_size.mpr rfl) 0x10b0 (by rw [image.list]) (by
      rw [image.list]
      decide)
  -- no string reaches the first byte of the list
  rcases last.reached with zero | ⟨v, member, n, text, same⟩
  · cases zero
  · have empty : v ≤ 0x10a0 ∧ oneModuleImage 0x10a0 0x10b0 v = 0 := by
      rw [image.texts] at member
      rcases List.mem_cons.mp member with first | others
      · subst first
        exact ⟨by decide, image.first⟩
      · have others : v = 0x10a0 := by simpa using others
        subst others
        exact ⟨Nat.le_refl _, image.others⟩
    have short : n = 0 := Terminated.unique ⟨by simp, empty.2⟩ text
    omega

end L4Bootstrap
