import L4Bootstrap.KernelOptions
import L4Bootstrap.Strtoul
import L4Bootstrap.Lib.TableFold

/-!
# The kernel command line

`kcmdline_parse` of `koptions.cc`. The text of an option starts with the space in front
of it. Only its first occurrence is looked at, and for a boolean option not even what
follows it.
-/

namespace L4Bootstrap

open MachineWord TableFold

set_option autoImplicit false

inductive Flags
  | wait | serialEsc | noserial | noscreen | esc | nojdb | nohlt | apic | loadcnt | watchdog
  | keymapDe | irq0 | nosfn | jdbNeverStop | kmemsize | tbufEntries | outBuf | uartBaud | uartBase
  | uartIrq | jdbCmd | serialInput | oneshotTimer | perfProfile | kmemDescs
  deriving DecidableEq

/-- The number of the bit. -/
def Flags.bit : Flags → Nat
  | wait => 0
  | serialEsc => 1
  | noserial => 2
  | noscreen => 3
  | esc => 4
  | nojdb => 5
  | nohlt => 7
  | apic => 8
  | loadcnt => 9
  | watchdog => 10
  | keymapDe => 11
  | irq0 => 13
  | nosfn => 15
  | jdbNeverStop => 16
  | kmemsize => 17
  | tbufEntries => 18
  | outBuf => 19
  | uartBaud => 20
  | uartBase => 21
  | uartIrq => 22
  | jdbCmd => 23
  | serialInput => 24
  | oneshotTimer => 25
  | perfProfile => 26
  | kmemDescs => 27

def Flags.mask (f : Flags) : UInt32 := .ofBitVec (BitVec.twoPow 32 f.bit)

/-- `lko->flags |= flag`. -/
def KernelOptions.setFlag (o : KernelOptions) (f : Flags) : KernelOptions :=
  { o with flags := o.flags ||| f.mask }

def KernelOptions.flagBit (o : KernelOptions) (i : Nat) : Bool := o.flags.toBitVec.getLsbD i

def optionText (s : String) : List UInt8 := s.toList.map fun c => UInt8.ofNat c.toNat

structure BooleanOpt where
  s : List UInt8
  flag : Flags

def booleanOpts : List BooleanOpt :=
  [⟨optionText " -wait", .wait⟩,
    ⟨optionText " -serial_esc", .serialEsc⟩,
    ⟨optionText " -serial_input", .serialInput⟩,
    ⟨optionText " -noserial", .noserial⟩,
    ⟨optionText " -noscreen", .noscreen⟩,
    ⟨optionText " -esc", .esc⟩,
    ⟨optionText " -nojdb", .nojdb⟩,
    ⟨optionText " -nohlt", .nohlt⟩,
    ⟨optionText " -apic", .apic⟩,
    ⟨optionText " -loadcnt", .loadcnt⟩,
    ⟨optionText " -watchdog", .watchdog⟩,
    ⟨optionText " -irq0", .irq0⟩,
    ⟨optionText " -nosfn", .nosfn⟩,
    ⟨optionText " -jdb_never_stop", .jdbNeverStop⟩,
    ⟨optionText " -oneshot-timer", .oneshotTimer⟩]

/-- The fields for the values of integer options. -/
inductive UnsignedField
  | kmemsize | tbufEntries | outBuf | perfProfile
  deriving DecidableEq

def UnsignedField.get (o : KernelOptions) : UnsignedField → UInt32
  | kmemsize => o.kmemsize
  | tbufEntries => o.tbufEntries
  | outBuf => o.outBuf
  | perfProfile => o.perfProfile

def UnsignedField.set (o : KernelOptions) (value : UInt32) : UnsignedField → KernelOptions
  | kmemsize => { o with kmemsize := value }
  | tbufEntries => { o with tbufEntries := value }
  | outBuf => { o with outBuf := value }
  | perfProfile => { o with perfProfile := value }

structure UnsignedOpt where
  s : List UInt8
  flag : Flags
  offset : UnsignedField

def unsignedOpts : List UnsignedOpt :=
  [⟨optionText " -kmemsize", .kmemsize, .kmemsize⟩,
    ⟨optionText " -tbuf_entries", .tbufEntries, .tbufEntries⟩,
    ⟨optionText " -out_buf", .outBuf, .outBuf⟩,
    ⟨optionText " -perf_profile", .perfProfile, .perfProfile⟩]

/-- The fields for the values of string options. -/
inductive StringField
  | jdbCmd

def StringField.size : StringField → Nat
  | jdbCmd => jdbCmdSize

structure StringOpt where
  s : List UInt8
  flag : Flags
  offset : StringField

def stringOpts : List StringOpt := [⟨optionText " -jdb_cmd", .jdbCmd, .jdbCmd⟩]

/-- `c[i] == ' ' || c[i] == '='`. -/
def isDelimiter (text : List UInt8) (i : Nat) : Bool := text[i]? = some 0x20 || text[i]? = some 0x3d

/-- Where the argument of an option starts, by the first occurrence of the option. -/
def findArgument (cmdline s : List UInt8) : Option Nat :=
  match strstr cmdline 0 s with
  | none => none
  | some c => if isDelimiter cmdline (c + s.length) then some (c + s.length + 1) else none

def parseBooleanOpt (cmdline : List UInt8) (lko : KernelOptions) (opt : BooleanOpt) :
    KernelOptions :=
  match strstr cmdline 0 opt.s with
  | none => lko
  | some _ => lko.setFlag opt.flag

/-- `strtol` returns a `long`, which is cut to the size of the field. -/
def unsignedValue (W : Wordsize) (text : List UInt8) : UInt32 := .ofNat (strtol W text).1

def parseUnsignedOpt (W : Wordsize) (cmdline : List UInt8) (lko : KernelOptions)
    (opt : UnsignedOpt) : KernelOptions :=
  match findArgument cmdline opt.s with
  | none => lko
  | some c => opt.offset.set (lko.setFlag opt.flag) (unsignedValue W (cmdline.drop c))

/-- The loop that copies a word, with `room` bytes left for it, and the zero behind it. -/
def copyWord (room : Nat) (c dst : List UInt8) : List UInt8 :=
  match room, c, dst with
  | _, _, [] => []
  | 0, _, _ :: dst => 0 :: dst
  | _ + 1, [], _ :: dst => 0 :: dst
  | room + 1, c :: rest, _ :: dst => if c = 0x20 then 0 :: dst else c :: copyWord room rest dst

theorem length_copy_word (room : Nat) (c dst : List UInt8) :
    (copyWord room c dst).length = dst.length := by
  induction room generalizing c dst with
  | zero => cases dst <;> rfl
  | succ room ih =>
      cases dst with
      | nil => rfl
      | cons byte dst =>
          cases c with
          | nil => rfl
          | cons c rest =>
              rw [copyWord]
              split_ifs
              · rfl
              · rw [List.length_cons, ih, List.length_cons]

def StringField.get (o : KernelOptions) : StringField → List UInt8
  | jdbCmd => o.jdbCmd

/-- `size - 1` bytes may be written in front of the zero. -/
def StringField.copy (o : KernelOptions) (c : List UInt8) : StringField → KernelOptions
  | jdbCmd =>
      { o with
        jdbCmd := copyWord (jdbCmd.size - 1) c o.jdbCmd
        jdbCmdLength := (length_copy_word _ _ _).trans o.jdbCmdLength }

def parseStringOpt (cmdline : List UInt8) (lko : KernelOptions) (opt : StringOpt) :
    KernelOptions :=
  match findArgument cmdline opt.s with
  | none => lko
  | some c => opt.offset.copy (lko.setFlag opt.flag) (cmdline.drop c)

/-- `kcmdline_parse`: the three loops, each over its table. -/
def kcmdlineParse (W : Wordsize) (cmdline : List UInt8) (lko : KernelOptions) : KernelOptions :=
  stringOpts.foldl (parseStringOpt cmdline)
    (unsignedOpts.foldl (parseUnsignedOpt W cmdline)
      (booleanOpts.foldl (parseBooleanOpt cmdline) lko))

/-! ## Whole options -/

/-- The option is a word of its own; its text has the space in front of it. -/
def CompleteWord (text s : List UInt8) (p : Nat) : Prop :=
  Occurs text s p ∧ (text[p + s.length]? = none ∨ text[p + s.length]? = some 0x20)

/-- `<option>=` or `<option> ` behind a space. -/
def Delimited (text s : List UInt8) (p : Nat) : Prop :=
  Occurs text s p ∧ isDelimiter text (p + s.length) = true

def FirstDelimited (text s : List UInt8) (p : Nat) : Prop :=
  Delimited text s p ∧ ∀ earlier < p, ¬Delimited text s earlier

/-- Flag and field of an option with an argument get their values from the first delimited
occurrence, and without one they stay as they are. -/
def ArgumentTaken {α : Type} (text s : List UInt8) (value : Nat → α) (before after : Bool × α) :
    Prop :=
  (∀ p, FirstDelimited text s p → after = (true, value (p + s.length + 1))) ∧
    ((∀ p, ¬Delimited text s p) → after = before)

/-- The word at the start of a text, cut to fit the field, and its zero. -/
def storedWord (size : Nat) (text old : List UInt8) : List UInt8 :=
  let word := (text.takeWhile (· ≠ 0x20)).take (size - 1)
  word ++ 0 :: old.drop (word.length + 1)

def UnsignedOpt.state (opt : UnsignedOpt) (o : KernelOptions) : Bool × UInt32 :=
  (o.flagBit opt.flag.bit, opt.offset.get o)

def UnsignedOpt.argument (W : Wordsize) (text : List UInt8) (c : Nat) : UInt32 :=
  unsignedValue W (text.drop c)

def StringOpt.state (opt : StringOpt) (o : KernelOptions) : Bool × List UInt8 :=
  (o.flagBit opt.flag.bit, opt.offset.get o)

def StringOpt.argument (opt : StringOpt) (text : List UInt8) (o : KernelOptions) (c : Nat) :
    List UInt8 :=
  storedWord opt.offset.size (text.drop c) (opt.offset.get o)

/-- A bit that is the flag of some option of the tables. -/
def IsOptionFlag (i : Nat) : Prop :=
  (∃ opt ∈ booleanOpts, opt.flag.bit = i) ∨ (∃ opt ∈ unsignedOpts, opt.flag.bit = i) ∨
    ∃ opt ∈ stringOpts, opt.flag.bit = i

/-- The fields that belong to no option. -/
def KernelOptions.otherFields (o : KernelOptions) :
    UInt32 × UInt32 × KernelUart × UInt64 × UInt32 :=
  (o.magic, o.version, o.uart, o.coreSpinAddr, o.node)

/-- Whole options are parsed, and nothing else changes. -/
structure OptionsParsed (W : Wordsize) (text : List UInt8) (before after : KernelOptions) :
    Prop where
  boolean : ∀ opt ∈ booleanOpts, after.flagBit opt.flag.bit = true ↔
    before.flagBit opt.flag.bit = true ∨ ∃ p, CompleteWord text opt.s p
  unsigned : ∀ opt ∈ unsignedOpts,
    ArgumentTaken text opt.s (UnsignedOpt.argument W text) (opt.state before) (opt.state after)
  string : ∀ opt ∈ stringOpts,
    ArgumentTaken text opt.s (opt.argument text before) (opt.state before) (opt.state after)
  otherFlags : ∀ i, ¬IsOptionFlag i → after.flagBit i = before.flagBit i
  otherFields : after.otherFields = before.otherFields

/-- The first occurrence of a boolean option decides for all of them, unless the flag is set. -/
def WordsOnly (text : List UInt8) (o : KernelOptions) (opt : BooleanOpt) : Prop :=
  (∀ p, ¬Occurs text opt.s p) ∨ (∃ p, CompleteWord text opt.s p) ∨
    o.flagBit opt.flag.bit = true

/-- The first delimited occurrence is the first one, unless flag and field have the values
already. -/
def DelimitedFirst {α : Type} (text s : List UInt8) (value : Nat → α) (before : Bool × α) : Prop :=
  ∀ p, FirstDelimited text s p →
    FirstOccurrence text s p ∨ before = (true, value (p + s.length + 1))

section

variable {W : Wordsize} {text s : List UInt8} {o : KernelOptions}

/-! ## The first occurrence -/

theorem first_occurrence_unique {p q : Nat} (first : FirstOccurrence text s p)
    (other : FirstOccurrence text s q) : p = q := by
  by_contra differ
  rcases Nat.lt_or_gt_of_ne differ with less | greater
  · exact other.2 p less first.1
  · exact first.2 q greater other.1

theorem strstr_none : strstr text 0 s = none ↔ ∀ p, ¬Occurs text s p := by
  rw [strstr_zero, (first_offset_spec text s).2]

theorem strstr_some {p : Nat} : strstr text 0 s = some p ↔ FirstOccurrence text s p := by
  rw [strstr_zero, (first_offset_spec text s).1]

variable (text s) in
theorem find_argument_cases :
    (findArgument text s = none ∧ ∀ p, FirstOccurrence text s p → ¬Delimited text s p) ∨
      ∃ p, FirstOccurrence text s p ∧ FirstDelimited text s p ∧
        findArgument text s = some (p + s.length + 1) := by
  unfold findArgument
  cases found : strstr text 0 s with
  | none => exact .inl ⟨rfl, fun p first => absurd first.1 (strstr_none.mp found p)⟩
  | some p =>
      have first := strstr_some.mp found
      dsimp only
      cases behind : isDelimiter text (p + s.length) with
      | false =>
          refine .inl ⟨rfl, fun q other delimited => ?_⟩
          rw [first_occurrence_unique other first] at delimited
          rw [delimited.2] at behind
          cases behind
      | true =>
          have firstDelimited : FirstDelimited text s p :=
            ⟨⟨first.1, behind⟩, fun earlier less delimited => first.2 earlier less delimited.1⟩
          exact .inr ⟨p, first, firstDelimited, rfl⟩

/-- What the two loops for options with an argument do to the flag and the field. -/
def takeArgument {α : Type} (text s : List UInt8) (value : Nat → α) (before : Bool × α) :
    Bool × α :=
  match findArgument text s with
  | none => before
  | some c => (true, value c)

theorem argument_taken_iff {α : Type} {value : Nat → α} {before : Bool × α} :
    ArgumentTaken text s value before (takeArgument text s value before) ↔
      DelimitedFirst text s value before := by
  unfold takeArgument
  rcases find_argument_cases text s with
    ⟨found, noDelimiter⟩ | ⟨p, first, firstDelimited, found⟩
  · rw [found]
    constructor
    · rintro ⟨taken, _⟩ p delimited
      exact .inr (taken p delimited)
    · intro good
      refine ⟨fun p delimited => ?_, fun _ => rfl⟩
      rcases good p delimited with first | already
      · exact absurd delimited.1 (noDelimiter p first)
      · exact already
  · rw [found]
    have isFirst : ∀ q, FirstDelimited text s q → q = p := by
      intro q delimited
      by_contra differ
      rcases Nat.lt_or_gt_of_ne differ with less | greater
      · exact first.2 q less delimited.1.1
      · exact delimited.2 p greater firstDelimited.1
    constructor
    · intro _ q delimited
      rw [isFirst q delimited]
      exact .inl first
    · intro _
      refine ⟨fun q delimited => ?_, fun absent => absurd firstDelimited.1 (absent p)⟩
      rw [isFirst q delimited]

/-! ## Flags and fields -/

theorem Flags.bit_lt (f : Flags) : f.bit < 32 := by cases f <;> decide

theorem flag_bit_set (o : KernelOptions) (f : Flags) (i : Nat) :
    (o.setFlag f).flagBit i = (o.flagBit i || decide (f.bit = i)) := by
  have mask : f.mask.toBitVec.getLsbD i = decide (f.bit = i) := by
    change (BitVec.twoPow 32 f.bit).getLsbD i = _
    rw [BitVec.getLsbD_twoPow, decide_eq_true f.bit_lt, Bool.true_and]
  rw [KernelOptions.flagBit, KernelOptions.setFlag, UInt32.toBitVec_or, BitVec.getLsbD_or, mask]
  rfl

theorem flag_bit_set_self (o : KernelOptions) (f : Flags) : (o.setFlag f).flagBit f.bit = true := by
  rw [flag_bit_set, decide_eq_true rfl, Bool.or_true]

theorem flag_bit_set_other {f : Flags} {i : Nat} (other : f.bit ≠ i) :
    (o.setFlag f).flagBit i = o.flagBit i := by
  rw [flag_bit_set, decide_eq_false other, Bool.or_false]

theorem UnsignedField.get_set (field : UnsignedField) (value : UInt32) :
    field.get (field.set o value) = value := by
  cases field <;> rfl

theorem UnsignedField.get_set_other {field other : UnsignedField} (value : UInt32)
    (differ : other ≠ field) : field.get (other.set o value) = field.get o := by
  cases field <;> cases other <;> first | rfl | exact absurd rfl differ

/-- The fields outside the values of integer options. -/
theorem UnsignedField.set_frame (field : UnsignedField) (value : UInt32) :
    (field.set o value).flags = o.flags ∧ (field.set o value).jdbCmd = o.jdbCmd ∧
      (field.set o value).otherFields = o.otherFields := by
  cases field <;> exact ⟨rfl, rfl, rfl⟩

theorem StringField.copy_frame (field : StringField) (c : List UInt8) :
    (field.copy o c).flags = o.flags ∧ (∀ f : UnsignedField, f.get (field.copy o c) = f.get o) ∧
      (field.copy o c).otherFields = o.otherFields := by
  cases field
  exact ⟨rfl, fun f => by cases f <;> rfl, rfl⟩

theorem copy_word_eq {room : Nat} {c dst : List UInt8} (fits : room < dst.length) :
    copyWord room c dst = storedWord (room + 1) c dst := by
  induction room generalizing c dst with
  | zero =>
      cases dst with
      | nil => cases fits
      | cons byte dst => rfl
  | succ room ih =>
      cases dst with
      | nil => cases fits
      | cons byte dst =>
          cases c with
          | nil => rfl
          | cons c rest =>
              rw [copyWord]
              split_ifs with isSpace
              · rw [storedWord, List.takeWhile_cons_of_neg (by simpa using isSpace)]
                rfl
              · rw [ih (Nat.lt_of_succ_lt_succ fits), storedWord, storedWord,
                  List.takeWhile_cons_of_pos (by simpa using isSpace)]
                rfl

theorem StringField.get_copy (field : StringField) (c : List UInt8) :
    field.get (field.copy o c) = storedWord field.size c (field.get o) := by
  cases field
  apply copy_word_eq
  rw [o.jdbCmdLength]
  decide

/-! ## One option -/

variable (text o) in
theorem parse_boolean_cases (opt : BooleanOpt) :
    (parseBooleanOpt text o opt = o ∧ ∀ p, ¬Occurs text opt.s p) ∨
      parseBooleanOpt text o opt = o.setFlag opt.flag ∧ ∃ p, Occurs text opt.s p := by
  unfold parseBooleanOpt
  cases found : strstr text 0 opt.s with
  | none => exact .inl ⟨rfl, strstr_none.mp found⟩
  | some p => exact .inr ⟨rfl, p, (strstr_some.mp found).1⟩

theorem parse_boolean_other {opt : BooleanOpt} {i : Nat} (other : opt.flag.bit ≠ i) :
    (parseBooleanOpt text o opt).flagBit i = o.flagBit i := by
  rcases parse_boolean_cases text o opt with ⟨same, _⟩ | ⟨set, _⟩
  · rw [same]
  · rw [set, flag_bit_set_other other]

theorem parse_boolean_fields (opt : BooleanOpt) :
    (∀ f : UnsignedField, f.get (parseBooleanOpt text o opt) = f.get o) ∧
      (∀ f : StringField, f.get (parseBooleanOpt text o opt) = f.get o) ∧
      (parseBooleanOpt text o opt).otherFields = o.otherFields := by
  rcases parse_boolean_cases text o opt with ⟨same, _⟩ | ⟨set, _⟩
  · rw [same]
    exact ⟨fun _ => rfl, fun _ => rfl, rfl⟩
  · rw [set]
    exact ⟨fun f => by cases f <;> rfl, fun f => by cases f; rfl, rfl⟩

theorem flag_bit_congr {a b : KernelOptions} (same : a.flags = b.flags) (i : Nat) :
    a.flagBit i = b.flagBit i := by
  rw [KernelOptions.flagBit, KernelOptions.flagBit, same]

theorem parse_unsigned_own (opt : UnsignedOpt) :
    opt.state (parseUnsignedOpt W text o opt) =
      takeArgument text opt.s (UnsignedOpt.argument W text) (opt.state o) := by
  unfold parseUnsignedOpt takeArgument
  cases findArgument text opt.s with
  | none => rfl
  | some c =>
      dsimp only
      rw [UnsignedOpt.state, flag_bit_congr (opt.offset.set_frame _).1, flag_bit_set_self,
        UnsignedField.get_set]
      rfl

theorem parse_unsigned_flag {opt : UnsignedOpt} {i : Nat} (other : opt.flag.bit ≠ i) :
    (parseUnsignedOpt W text o opt).flagBit i = o.flagBit i := by
  unfold parseUnsignedOpt
  cases findArgument text opt.s with
  | none => rfl
  | some c =>
      dsimp only
      rw [flag_bit_congr (opt.offset.set_frame _).1, flag_bit_set_other other]

theorem parse_unsigned_field {opt : UnsignedOpt} {field : UnsignedField}
    (other : opt.offset ≠ field) : field.get (parseUnsignedOpt W text o opt) = field.get o := by
  unfold parseUnsignedOpt
  cases findArgument text opt.s with
  | none => rfl
  | some c =>
      dsimp only
      rw [UnsignedField.get_set_other _ other]
      cases field <;> rfl

theorem parse_unsigned_fields (opt : UnsignedOpt) :
    (∀ f : StringField, f.get (parseUnsignedOpt W text o opt) = f.get o) ∧
      (parseUnsignedOpt W text o opt).otherFields = o.otherFields := by
  unfold parseUnsignedOpt
  cases findArgument text opt.s with
  | none => exact ⟨fun _ => rfl, rfl⟩
  | some c => exact ⟨fun f => by cases f; exact (opt.offset.set_frame _).2.1,
      (opt.offset.set_frame _).2.2⟩

theorem parse_string_own (opt : StringOpt) :
    opt.state (parseStringOpt text o opt) =
      takeArgument text opt.s (opt.argument text o) (opt.state o) := by
  unfold parseStringOpt takeArgument
  cases findArgument text opt.s with
  | none => rfl
  | some c =>
      dsimp only
      rw [StringOpt.state, flag_bit_congr (opt.offset.copy_frame _).1, flag_bit_set_self,
        StringField.get_copy]
      rfl

theorem parse_string_flag {opt : StringOpt} {i : Nat} (other : opt.flag.bit ≠ i) :
    (parseStringOpt text o opt).flagBit i = o.flagBit i := by
  unfold parseStringOpt
  cases findArgument text opt.s with
  | none => rfl
  | some c =>
      dsimp only
      rw [flag_bit_congr (opt.offset.copy_frame _).1, flag_bit_set_other other]

theorem parse_string_fields (opt : StringOpt) :
    (∀ f : UnsignedField, f.get (parseStringOpt text o opt) = f.get o) ∧
      (parseStringOpt text o opt).otherFields = o.otherFields := by
  unfold parseStringOpt
  cases findArgument text opt.s with
  | none => exact ⟨fun _ => rfl, rfl⟩
  | some c =>
      obtain ⟨_, fields, others⟩ := opt.offset.copy_frame (o := o.setFlag opt.flag) (text.drop c)
      exact ⟨fun f => (fields f).trans (by cases f <;> rfl), others⟩

/-! ## The tables -/

theorem boolean_flags_nodup : (booleanOpts.map fun opt => opt.flag.bit).Nodup := by decide

theorem unsigned_flags_nodup : (unsignedOpts.map fun opt => opt.flag.bit).Nodup := by decide

theorem string_flags_nodup : (stringOpts.map fun opt => opt.flag.bit).Nodup := by decide

theorem boolean_unsigned_apart :
    ∀ a ∈ booleanOpts, ∀ b ∈ unsignedOpts, a.flag.bit ≠ b.flag.bit := by decide

theorem boolean_string_apart :
    ∀ a ∈ booleanOpts, ∀ b ∈ stringOpts, a.flag.bit ≠ b.flag.bit := by decide

theorem unsigned_string_apart :
    ∀ a ∈ unsignedOpts, ∀ b ∈ stringOpts, a.flag.bit ≠ b.flag.bit := by decide

theorem unsigned_fields_apart : ∀ a ∈ unsignedOpts, ∀ b ∈ unsignedOpts,
    a.flag.bit ≠ b.flag.bit → a.offset ≠ b.offset := by decide

/-- A view that no option changes in any of the three loops. -/
theorem kcmdline_parse_frame {β : Type} (view : KernelOptions → β)
    (boolean : ∀ opt ∈ booleanOpts, ∀ o, view (parseBooleanOpt text o opt) = view o)
    (unsigned : ∀ opt ∈ unsignedOpts, ∀ o, view (parseUnsignedOpt W text o opt) = view o)
    (string : ∀ opt ∈ stringOpts, ∀ o, view (parseStringOpt text o opt) = view o) :
    view (kcmdlineParse W text o) = view o := by
  rw [kcmdlineParse, foldl_frame view string, foldl_frame view unsigned, foldl_frame view boolean]

theorem kcmdline_parse_boolean {opt : BooleanOpt} (member : opt ∈ booleanOpts) :
    (kcmdlineParse W text o).flagBit opt.flag.bit = true ↔
      o.flagBit opt.flag.bit = true ∨ ∃ p, Occurs text opt.s p := by
  let flag := fun o : KernelOptions => o.flagBit opt.flag.bit
  let found := (strstr text 0 opt.s).isSome
  have own : ∀ o, flag (parseBooleanOpt text o opt) = (flag o || found) := by
    intro o
    dsimp only [flag, found]
    unfold parseBooleanOpt
    cases strstr text 0 opt.s with
    | none => exact (Bool.or_false _).symm
    | some p => exact (flag_bit_set_self o opt.flag).trans (Bool.or_true _).symm
  have booleans : flag (booleanOpts.foldl (parseBooleanOpt text) o) = (flag o || found) :=
    foldl_own flag (· || found) boolean_flags_nodup member own
      (fun _ _ differs _ => parse_boolean_other differs) o
  have after : flag (kcmdlineParse W text o) = (flag o || found) := by
    rw [kcmdlineParse, foldl_frame flag, foldl_frame flag, booleans]
    · intro other inTable o
      exact parse_unsigned_flag (boolean_unsigned_apart opt member other inTable).symm
    · intro other inTable o
      exact parse_string_flag (boolean_string_apart opt member other inTable).symm
  have occurs : found = true ↔ ∃ p, Occurs text opt.s p := by
    rw [← Option.ne_none_iff_isSome, ne_eq, strstr_none]
    simp only [not_forall, not_not]
  change flag (kcmdlineParse W text o) = true ↔ flag o = true ∨ _
  rw [after, Bool.or_eq_true, occurs]

theorem kcmdline_parse_unsigned {opt : UnsignedOpt} (member : opt ∈ unsignedOpts) :
    opt.state (kcmdlineParse W text o) =
      takeArgument text opt.s (UnsignedOpt.argument W text) (opt.state o) := by
  let taken := takeArgument text opt.s (UnsignedOpt.argument W text)
  have unsigneds : ∀ o, opt.state (unsignedOpts.foldl (parseUnsignedOpt W text) o) =
      taken (opt.state o) := by
    apply foldl_own opt.state taken unsigned_flags_nodup member fun _ => parse_unsigned_own opt
    intro other inTable differs o
    exact Prod.ext (parse_unsigned_flag differs)
      (parse_unsigned_field (unsigned_fields_apart other inTable opt member differs))
  rw [kcmdlineParse, foldl_frame opt.state, unsigneds, foldl_frame opt.state]
  · intro other inTable o
    exact Prod.ext (parse_boolean_other (boolean_unsigned_apart other inTable opt member))
      ((parse_boolean_fields other).1 opt.offset)
  · intro other inTable o
    exact Prod.ext (parse_string_flag (unsigned_string_apart opt member other inTable).symm)
      ((parse_string_fields other).1 opt.offset)

theorem kcmdline_parse_string {opt : StringOpt} (member : opt ∈ stringOpts) :
    opt.state (kcmdlineParse W text o) =
      takeArgument text opt.s (opt.argument text o) (opt.state o) := by
  have isOnly : ∀ other ∈ stringOpts, other = opt := by
    intro other inTable
    rw [List.mem_singleton.mp inTable, List.mem_singleton.mp member]
  let stored := fun state : Bool × List UInt8 =>
    takeArgument text opt.s (fun c => storedWord opt.offset.size (text.drop c) state.2) state
  have strings : ∀ o, opt.state (stringOpts.foldl (parseStringOpt text) o) =
      stored (opt.state o) := by
    apply foldl_own opt.state stored string_flags_nodup member fun _ => parse_string_own opt
    intro other inTable differs
    exact absurd (by rw [isOnly other inTable]) differs
  rw [kcmdlineParse, strings, foldl_frame opt.state, foldl_frame opt.state]
  · rfl
  · intro other inTable o
    exact Prod.ext (parse_boolean_other (boolean_string_apart other inTable opt member))
      ((parse_boolean_fields other).2.1 opt.offset)
  · intro other inTable o
    exact Prod.ext (parse_unsigned_flag (unsigned_string_apart other inTable opt member))
      ((parse_unsigned_fields other).1 opt.offset)

theorem kcmdline_parse_other_flag {i : Nat} (other : ¬IsOptionFlag i) :
    (kcmdlineParse W text o).flagBit i = o.flagBit i := by
  unfold IsOptionFlag at other
  apply kcmdline_parse_frame fun o => o.flagBit i
  · intro opt member o
    exact parse_boolean_other fun same => other (.inl ⟨opt, member, same⟩)
  · intro opt member o
    exact parse_unsigned_flag fun same => other (.inr (.inl ⟨opt, member, same⟩))
  · intro opt member o
    exact parse_string_flag fun same => other (.inr (.inr ⟨opt, member, same⟩))

theorem kcmdline_parse_other_fields : (kcmdlineParse W text o).otherFields = o.otherFields := by
  apply kcmdline_parse_frame
  · intro opt member o
    exact (parse_boolean_fields opt).2.2
  · intro opt member o
    exact (parse_unsigned_fields opt).2
  · intro opt member o
    exact (parse_string_fields opt).2

/-! ## All options -/

theorem words_only_iff {opt : BooleanOpt} (member : opt ∈ booleanOpts) :
    ((kcmdlineParse W text o).flagBit opt.flag.bit = true ↔
        o.flagBit opt.flag.bit = true ∨ ∃ p, CompleteWord text opt.s p) ↔
      WordsOnly text o opt := by
  have weaker : (∃ p, CompleteWord text opt.s p) → ∃ p, Occurs text opt.s p :=
    fun ⟨p, word⟩ => ⟨p, word.1⟩
  rw [kcmdline_parse_boolean member, WordsOnly, ← not_exists]
  tauto

/-- Whole options are parsed exactly where the first occurrence of each option is already a
whole one, or what the other occurrences would change is there already. -/
theorem kcmdline_parse_whole_iff (W : Wordsize) (text : List UInt8) (o : KernelOptions) :
    OptionsParsed W text o (kcmdlineParse W text o) ↔
      (∀ opt ∈ booleanOpts, WordsOnly text o opt) ∧
      (∀ opt ∈ unsignedOpts,
        DelimitedFirst text opt.s (UnsignedOpt.argument W text) (opt.state o)) ∧
      ∀ opt ∈ stringOpts, DelimitedFirst text opt.s (opt.argument text o) (opt.state o) := by
  constructor
  · intro parsed
    refine ⟨fun opt member => ?_, fun opt member => ?_, fun opt member => ?_⟩
    · exact (words_only_iff member).mp (parsed.boolean opt member)
    · have taken := parsed.unsigned opt member
      rw [kcmdline_parse_unsigned member] at taken
      exact argument_taken_iff.mp taken
    · have taken := parsed.string opt member
      rw [kcmdline_parse_string member] at taken
      exact argument_taken_iff.mp taken
  · rintro ⟨boolean, unsigned, string⟩
    constructor
    · intro opt member
      exact (words_only_iff member).mpr (boolean opt member)
    · intro opt member
      rw [kcmdline_parse_unsigned member]
      exact argument_taken_iff.mpr (unsigned opt member)
    · intro opt member
      rw [kcmdline_parse_string member]
      exact argument_taken_iff.mpr (string opt member)
    · intro i other
      exact kcmdline_parse_other_flag other
    · exact kcmdline_parse_other_fields

end

/-- An unknown option that starts like a known one. -/
theorem kcmdline_parse_longer_word :
    let text := optionText "fiasco -waitfoo"
    let o : KernelOptions := { magic := 0x4C344B43, version := 6 }
    (kcmdlineParse .w64 text o).flagBit Flags.wait.bit = true ∧ o.flagBit Flags.wait.bit = false ∧
      (∀ p, ¬CompleteWord text (optionText " -wait") p) ∧
      ¬OptionsParsed .w64 text o (kcmdlineParse .w64 text o) := by
  intro text o
  have member : ⟨optionText " -wait", .wait⟩ ∈ booleanOpts := List.mem_cons_self
  have occurs : Occurs text (optionText " -wait") 6 := by decide
  have isSet : (kcmdlineParse .w64 text o).flagBit Flags.wait.bit = true :=
    (kcmdline_parse_boolean member).mpr (.inr ⟨6, occurs⟩)
  have unset : o.flagBit Flags.wait.bit = false := by decide
  have noWord : ∀ p, ¬CompleteWord text (optionText " -wait") p := by
    rintro p ⟨⟨inText, isPrefix⟩, behind⟩
    have upTo : p < 16 := Nat.lt_succ_of_le inText
    have only : ∀ p < 16, optionText " -wait" <+: text.drop p → p = 6 := by decide +kernel
    rw [only p upTo isPrefix] at behind
    revert behind
    decide
  refine ⟨isSet, unset, noWord, fun parsed => ?_⟩
  rcases (parsed.boolean _ member).mp isSet with already | ⟨p, word⟩
  · cases unset.symm.trans already
  · exact noWord p word

end L4Bootstrap
