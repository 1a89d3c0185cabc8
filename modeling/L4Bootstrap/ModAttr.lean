import L4Bootstrap.Support
import L4Bootstrap.Lib.ByteImage

/-!
# Module attributes

`Mod_attr_list` of `mod_info.h`. A list of attributes stands in memory behind the
characters `ATTR` as descriptors with variable-width lengths. A `cxx::String` is the
list of its bytes.
-/

namespace L4Bootstrap

open MachineWord ByteMemory

set_option autoImplicit false

structure ModAttr where
  key : List UInt8
  val : List UInt8
  deriving DecidableEq, Repr

/-! ## The descriptor -/

/-- The bit `Valid` of a header byte. -/
def validHeader (header : UInt8) : Bool := 128 ≤ header.toNat

def keyLenExp (header : UInt8) : Nat := header.toNat % 4
def valLenExp (header : UInt8) : Nat := header.toNat / 4 % 4

def keyLenSize (header : UInt8) : Nat := 2 ^ keyLenExp header
def valLenSize (header : UInt8) : Nat := 2 ^ valLenExp header

/-- `Descriptor (char const *)`; `none` is the descriptor that is not valid. -/
def descriptor (bytes : Bytes) (d : Nat) : Option Nat :=
  if d ≠ 0 ∧ validHeader (bytes d) then some d else none

/-- `d[i] << (8*i)` is an `int`, the size an `unsigned long`. -/
def sizeByte (W : Wordsize) (b : UInt8) (i : Nat) : BitVec W.bits :=
  (BitVec.ofNat 32 b.toNat <<< (8 * i)).signExtend W.bits

/-- The loop of `key_size` and `val_size`. -/
def sizeField (W : Wordsize) (bytes : Bytes) (p len : Nat) : BitVec W.bits :=
  (List.range len).foldl (fun size i => size ||| sizeByte W (bytes (W.add p i)) i) 0

def keySize (W : Wordsize) (bytes : Bytes) (d : Nat) : Nat :=
  (sizeField W bytes (W.add d 1) (keyLenSize (bytes d))).toNat

def valSize (W : Wordsize) (bytes : Bytes) (d : Nat) : Nat :=
  (sizeField W bytes (W.add d (1 + keyLenSize (bytes d))) (valLenSize (bytes d))).toNat

def headerSize (header : UInt8) : Nat := 1 + keyLenSize header + valLenSize header

/-- `Descriptor::size`. -/
def descriptorSize (W : Wordsize) (bytes : Bytes) (d : Nat) : Nat :=
  W.add (W.add (headerSize (bytes d)) (keySize W bytes d)) (valSize W bytes d)

def nextDescriptor (W : Wordsize) (bytes : Bytes) (d : Nat) : Option Nat :=
  descriptor bytes (W.add d (descriptorSize W bytes d))

/-- `Iterator::operator *`. -/
def modAttr (W : Wordsize) (bytes : Bytes) (d : Nat) : ModAttr where
  key := readList bytes (W.add d (headerSize (bytes d))) (keySize W bytes d)
  val := readList bytes (W.add (W.add d (headerSize (bytes d))) (keySize W bytes d))
    (valSize W bytes d)

/-! ## The list -/

/-- The characters `ATTR`. -/
def attrMagic : List UInt8 := [0x41, 0x54, 0x54, 0x52]

/-- `begin ()` of `Mod_attr_list (kvs)`. -/
def attrBegin (W : Wordsize) (bytes : Bytes) (kvs : Nat) : Option Nat :=
  if readList bytes kvs 4 = attrMagic then descriptor bytes (W.add kvs 4) else none

/-- The attributes that an iterator yields up to `end ()`. -/
def iterate (W : Wordsize) (bytes : Bytes) : Nat → Option Nat → Checked (List ModAttr)
  | _, none => .ok []
  | 0, some _ => .error .diverges
  | fuel + 1, some d => do
      let rest ← iterate W bytes fuel (nextDescriptor W bytes d)
      pure (modAttr W bytes d :: rest)

/-- The loop of `find`. -/
def findFrom (W : Wordsize) (bytes : Bytes) (key : List UInt8) :
    Nat → Option Nat → Checked (List UInt8)
  | _, none => .ok []
  | 0, some _ => .error .diverges
  | fuel + 1, some d =>
      if (modAttr W bytes d).key = key then .ok (modAttr W bytes d).val
      else findFrom W bytes key fuel (nextDescriptor W bytes d)

def modAttrs (W : Wordsize) (bytes : Bytes) (fuel kvs : Nat) : Checked (List ModAttr) :=
  iterate W bytes fuel (attrBegin W bytes kvs)

def findAttr (W : Wordsize) (bytes : Bytes) (fuel kvs : Nat) (key : List UInt8) :
    Checked (List UInt8) :=
  findFrom W bytes key fuel (attrBegin W bytes kvs)

/-! ## The layout -/

/-- An attribute with a header byte whose lengths can hold those of key and value. -/
structure EncodedAttr where
  header : UInt8
  key : List UInt8
  val : List UInt8
  valid : validHeader header = true
  keyFits : key.length < 256 ^ keyLenSize header
  valFits : val.length < 256 ^ valLenSize header
  keyShort : key.length < 2 ^ 31
  valShort : val.length < 2 ^ 31

def EncodedAttr.attr (e : EncodedAttr) : ModAttr := ⟨e.key, e.val⟩

@[simp] theorem attr_key (e : EncodedAttr) : e.attr.key = e.key := rfl

@[simp] theorem attr_val (e : EncodedAttr) : e.attr.val = e.val := rfl

def EncodedAttr.encode (e : EncodedAttr) : List UInt8 :=
  e.header :: (leBytes (keyLenSize e.header) e.key.length ++
    (leBytes (valLenSize e.header) e.val.length ++ (e.key ++ e.val)))

/-- Descriptors behind the magic, and a byte that is no valid header. -/
def encodeAttrs (entries : List EncodedAttr) (last : UInt8) : List UInt8 :=
  attrMagic ++ (entries.flatMap EncodedAttr.encode ++ [last])

/-- The value of the first entry with the key. -/
def firstValue (entries : List EncodedAttr) (key : List UInt8) : List UInt8 :=
  ((entries.find? fun e => e.key = key).map EncodedAttr.val).getD []

section

variable {W : Wordsize} {bytes : Bytes} {p d n kvs fuel : Nat} {e : EncodedAttr}
  {entries : List EncodedAttr} {last : UInt8} {key rest : List UInt8}

theorem word_bits_ge (W : Wordsize) : 32 ≤ W.bits := by
  cases W <;> decide

/-- A byte that keeps the number below `2 ^ 31` is shifted to its place. -/
theorem size_byte_eq {b : UInt8} {i : Nat} (small : 256 ^ i * b.toNat < 2 ^ 31) :
    (sizeByte W b i).toNat = 256 ^ i * b.toNat := by
  have power : 256 ^ i = 2 ^ (8 * i) := by
    rw [Nat.pow_mul]
  have shifted : (BitVec.ofNat 32 b.toNat <<< (8 * i)).toNat = 256 ^ i * b.toNat := by
    rw [BitVec.toNat_shiftLeft, BitVec.toNat_ofNat, Nat.shiftLeft_eq, Nat.mod_mul_mod, ← power,
      Nat.mul_comm, Nat.mod_eq_of_lt (by omega)]
  have positive : (BitVec.ofNat 32 b.toNat <<< (8 * i)).msb = false := by
    rw [BitVec.msb_eq_false_iff_two_mul_lt, shifted]
    omega
  rw [sizeByte, BitVec.signExtend_eq_setWidth_of_msb_false positive,
    BitVec.toNat_setWidth_of_le (word_bits_ge W), shifted]

/-- The last byte of a little-endian number is its highest. -/
theorem read_le_succ (bytes : Bytes) (p n : Nat) :
    readLe bytes p (n + 1) = readLe bytes p n + 256 ^ n * (bytes (p + n)).toNat := by
  induction n generalizing p with
  | zero => simp [readLe]
  | succ n ih =>
      rw [readLe, ih, readLe, Nat.pow_succ, Nat.add_assoc p 1 n, Nat.add_comm 1 n]
      ring

theorem size_field_eq (fits : p + n ≤ W.modulus) (small : readLe bytes p n < 2 ^ 31) :
    (sizeField W bytes p n).toNat = readLe bytes p n := by
  induction n with
  | zero => rfl
  | succ n ih =>
      rw [read_le_succ] at small ⊢
      have before := ih (by omega) (by omega)
      have place : W.add p n = p + n := W.add_of_lt (by omega)
      have low : readLe bytes p n < 2 ^ (8 * n) := by
        rw [Nat.pow_mul]
        exact read_le_lt
      rw [sizeField, List.range_succ, List.foldl_append, List.foldl_cons, List.foldl_nil,
        BitVec.toNat_or, ← sizeField, before, place, size_byte_eq (by omega), Nat.or_comm,
        show 256 ^ n = 2 ^ (8 * n) by rw [Nat.pow_mul], ← Nat.two_pow_add_eq_or_of_lt low,
        Nat.add_comm]

/-! ## Decoding one descriptor -/

theorem length_encode_attr : e.encode.length = headerSize e.header + e.key.length + e.val.length := by
  rw [EncodedAttr.encode, List.length_cons, List.length_append, List.length_append,
    List.length_append, length_le_bytes, length_le_bytes, headerSize]
  omega

/-- The fields of a descriptor, one behind the other. -/
theorem holds_encode_attr (held : Holds bytes d (e.encode ++ rest)) :
    bytes d = e.header ∧ Holds bytes (d + 1) (leBytes (keyLenSize e.header) e.key.length) ∧
      Holds bytes (d + (1 + keyLenSize e.header))
        (leBytes (valLenSize e.header) e.val.length) ∧
      Holds bytes (d + headerSize e.header) e.key ∧
      Holds bytes (d + headerSize e.header + e.key.length) e.val ∧
      Holds bytes (d + e.encode.length) rest := by
  obtain ⟨entry, behind⟩ := holds_append.mp held
  rw [EncodedAttr.encode, holds_cons, holds_append, holds_append, holds_append, length_le_bytes,
    length_le_bytes] at entry
  obtain ⟨header, keyLen, valLen, key, val⟩ := entry
  have keyAt : d + 1 + keyLenSize e.header + valLenSize e.header = d + headerSize e.header := by
    rw [headerSize]
    omega
  rw [keyAt] at key val
  rw [Nat.add_assoc d 1] at valLen
  exact ⟨header, keyLen, valLen, key, val, behind⟩

/-- A length field of a descriptor. -/
theorem size_field_le_bytes {length : Nat} (held : Holds bytes p (leBytes n length))
    (fits : p + n ≤ W.modulus) (room : length < 256 ^ n) (short : length < 2 ^ 31) :
    (sizeField W bytes p n).toNat = length := by
  have read : readLe bytes p n = length := held.read_le_bytes.trans (Nat.mod_eq_of_lt room)
  rw [size_field_eq fits (by omega), read]

/-- A descriptor gives its attribute and its size. -/
theorem decode_descriptor (held : Holds bytes d (e.encode ++ rest))
    (fits : d + e.encode.length < W.modulus) :
    modAttr W bytes d = e.attr ∧ descriptorSize W bytes d = e.encode.length := by
  obtain ⟨header, keyLen, valLen, key, val, _⟩ := holds_encode_attr held
  rw [length_encode_attr] at fits ⊢
  have parts : headerSize e.header = 1 + keyLenSize e.header + valLenSize e.header := rfl
  have keyIs : keySize W bytes d = e.key.length := by
    rw [keySize, header, W.add_of_lt (by omega)]
    exact size_field_le_bytes keyLen (by omega) e.keyFits e.keyShort
  have valIs : valSize W bytes d = e.val.length := by
    rw [valSize, header, W.add_of_lt (by omega)]
    exact size_field_le_bytes valLen (by omega) e.valFits e.valShort
  constructor
  · rw [modAttr, header, keyIs, valIs, W.add_of_lt (by omega), W.add_of_lt (by omega),
      key.read_list, val.read_list]
    rfl
  · have inner : W.add (headerSize e.header) e.key.length = headerSize e.header + e.key.length :=
      W.add_of_lt (by omega)
    rw [descriptorSize, header, keyIs, valIs, inner, W.add_of_lt (by omega)]

theorem descriptor_encoded (held : Holds bytes d (e.encode ++ rest)) (nonnull : d ≠ 0) :
    descriptor bytes d = some d := by
  have header := (holds_encode_attr held).1
  rw [descriptor, header, if_pos ⟨nonnull, e.valid⟩]

theorem descriptor_last (held : Holds bytes d [last]) (isLast : validHeader last = false) :
    descriptor bytes d = none := by
  rw [descriptor, (holds_cons.mp held).1, isLast, if_neg (by simp)]

/-- The descriptor behind a descriptor. -/
theorem next_descriptor (held : Holds bytes d (e.encode ++ rest))
    (fits : d + e.encode.length < W.modulus) :
    nextDescriptor W bytes d = descriptor bytes (d + e.encode.length) := by
  rw [nextDescriptor, (decode_descriptor held fits).2, W.add_of_lt fits]

/-! ## Decoding the list -/

/-- A list whose first descriptor stands at `d`. -/
structure AttrsAt (W : Wordsize) (bytes : Bytes) (d : Nat) (entries : List EncodedAttr)
    (last : UInt8) : Prop where
  held : Holds bytes d (entries.flatMap EncodedAttr.encode ++ [last])
  isLast : validHeader last = false
  nonnull : d ≠ 0
  fits : d + (entries.flatMap EncodedAttr.encode).length < W.modulus

theorem AttrsAt.cons (attrs : AttrsAt W bytes d (e :: entries) last) :
    Holds bytes d (e.encode ++ (entries.flatMap EncodedAttr.encode ++ [last])) ∧
      d + e.encode.length < W.modulus ∧
      AttrsAt W bytes (d + e.encode.length) entries last := by
  obtain ⟨held, isLast, nonnull, fits⟩ := attrs
  rw [List.flatMap_cons, List.append_assoc] at held
  rw [List.flatMap_cons, List.length_append] at fits
  exact ⟨held, by omega, (holds_append.mp held).2, isLast, by omega, by omega⟩

theorem iterate_encoded (attrs : AttrsAt W bytes d entries last) (enough : entries.length ≤ fuel) :
    iterate W bytes fuel (descriptor bytes d) = .ok (entries.map EncodedAttr.attr) := by
  induction entries generalizing d fuel with
  | nil =>
      rw [descriptor_last attrs.held attrs.isLast, iterate]
      rfl
  | cons e entries ih =>
      obtain ⟨held, fits, later⟩ := attrs.cons
      obtain ⟨fuel, rfl⟩ := Nat.exists_eq_succ_of_ne_zero (by simp at enough; omega : fuel ≠ 0)
      rw [descriptor_encoded held attrs.nonnull, iterate, next_descriptor held fits,
        ih later (Nat.le_of_succ_le_succ enough), (decode_descriptor held fits).1]
      rfl

theorem find_from_encoded (attrs : AttrsAt W bytes d entries last) (enough : entries.length ≤ fuel)
    (key : List UInt8) :
    findFrom W bytes key fuel (descriptor bytes d) = .ok (firstValue entries key) := by
  induction entries generalizing d fuel with
  | nil =>
      rw [descriptor_last attrs.held attrs.isLast, findFrom]
      rfl
  | cons e entries ih =>
      obtain ⟨held, fits, later⟩ := attrs.cons
      obtain ⟨fuel, rfl⟩ := Nat.exists_eq_succ_of_ne_zero (by simp at enough; omega : fuel ≠ 0)
      rw [descriptor_encoded held attrs.nonnull, findFrom, (decode_descriptor held fits).1,
        attr_key, attr_val, firstValue]
      by_cases same : e.key = key
      · rw [if_pos same, List.find?_cons_of_pos (by simpa using same)]
        rfl
      · rw [if_neg same, List.find?_cons_of_neg (by simpa using same), next_descriptor held fits]
        exact ih later (Nat.le_of_succ_le_succ enough)

/-- Behind the magic the list begins with its first descriptor. -/
theorem attr_begin_encoded (held : Holds bytes kvs (encodeAttrs entries last))
    (isLast : validHeader last = false)
    (fits : kvs + (encodeAttrs entries last).length ≤ W.modulus) :
    attrBegin W bytes kvs = descriptor bytes (kvs + 4) ∧
      AttrsAt W bytes (kvs + 4) entries last := by
  obtain ⟨magic, behind⟩ := holds_append.mp held
  have four : attrMagic.length = 4 := rfl
  rw [four] at behind
  rw [encodeAttrs, List.length_append, List.length_append, four, List.length_singleton] at fits
  have isMagic : readList bytes kvs 4 = attrMagic := magic.read_list
  constructor
  · rw [attrBegin, if_pos isMagic, W.add_of_lt (by omega)]
  · exact ⟨behind, isLast, by omega, by omega⟩

theorem find_attr_encoded (held : Holds bytes kvs (encodeAttrs entries last))
    (isLast : validHeader last = false)
    (fits : kvs + (encodeAttrs entries last).length ≤ W.modulus) (key : List UInt8) :
    findAttr W bytes entries.length kvs key = .ok (firstValue entries key) := by
  obtain ⟨isBegin, attrs⟩ := attr_begin_encoded held isLast fits
  rw [findAttr, isBegin]
  exact find_from_encoded attrs (Nat.le_refl _) key

/-- An encoded list is iterated entry by entry to its end, and a search gives the value of the
first entry with the key. -/
theorem attrs_decode_encoded (held : Holds bytes kvs (encodeAttrs entries last))
    (isLast : validHeader last = false)
    (fits : kvs + (encodeAttrs entries last).length ≤ W.modulus) :
    (∃ fuel, modAttrs W bytes fuel kvs = .ok (entries.map EncodedAttr.attr)) ∧
      ∀ key, ∃ fuel, findAttr W bytes fuel kvs key = .ok (firstValue entries key) := by
  obtain ⟨isBegin, attrs⟩ := attr_begin_encoded held isLast fits
  refine ⟨⟨entries.length, ?_⟩, fun key => ⟨entries.length, find_attr_encoded held isLast fits key⟩⟩
  rw [modAttrs, isBegin]
  exact iterate_encoded attrs (Nat.le_refl _)

end

/-- The attribute `nodes=1-3` with lengths of one byte, and `nodes=` with a length of two bytes. -/
def nodesAttrs : List EncodedAttr :=
  [⟨0x80, [0x6e, 0x6f, 0x64, 0x65, 0x73], [0x31, 0x2d, 0x33], by decide, by decide, by decide,
      by decide, by decide⟩,
    ⟨0x84, [0x6e, 0x6f, 0x64, 0x65, 0x73], [], by decide, by decide, by decide, by decide,
      by decide⟩]

def nodesMemory : Bytes := writeList 0x1000 (encodeAttrs nodesAttrs 0) fun _ => 0

theorem attrs_decode_nodes :
    (∃ fuel, modAttrs .w64 nodesMemory fuel 0x1000 = .ok (nodesAttrs.map EncodedAttr.attr)) ∧
      ∀ key, ∃ fuel, findAttr .w64 nodesMemory fuel 0x1000 key =
        .ok (firstValue nodesAttrs key) :=
  attrs_decode_encoded holds_write_list (by decide) (by decide)

end L4Bootstrap
