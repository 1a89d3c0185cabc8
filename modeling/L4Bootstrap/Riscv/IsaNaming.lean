import L4Bootstrap.Riscv.IsaParser

/-!
# The naming convention of ISA strings

Single-letter extensions come first, then those with more letters, separated by
underscores; each may have a version. The parser ends a name at its first digit,
takes a `p` behind a number for the point of a version, and skips `su` where it
follows something else than an underscore. Strings without these three clashes
are exactly those that it reads as the convention does.
-/

namespace L4Bootstrap.Riscv

set_option autoImplicit false

/-- `<digits>[p<digits>]`. -/
structure Version where
  major : List Char
  minor : Option (List Char)
  majorDigits : major ≠ [] ∧ ∀ c ∈ major, c.isDigit = true
  minorDigits : ∀ digits ∈ minor, digits ≠ [] ∧ ∀ c ∈ digits, c.isDigit = true

def Version.text (v : Version) : List Char :=
  v.major ++ match v.minor with
    | none => []
    | some digits => 'p' :: digits

def versionText : Option Version → List Char
  | none => []
  | some v => v.text

structure SingleExt where
  letter : Char
  version : Option Version
  isLetter : letter.isAlpha = true
  isSingle : isMultiLetter letter = false

/-- The name is `first :: others`; it ends with a letter. -/
structure MultiExt where
  first : Char
  others : List Char
  version : Option Version
  isMulti : isMultiLetter first = true
  characters : ∀ c ∈ others, c.isAlpha = true ∨ c.isDigit = true
  ends : ∀ c ∈ others.getLast?, c.isAlpha = true

def SingleExt.text (x : SingleExt) : List Char := x.letter :: versionText x.version

def MultiExt.name (m : MultiExt) : List Char := m.first :: m.others

def MultiExt.text (m : MultiExt) : List Char := m.name ++ versionText m.version

/-- A string that follows the convention. The underscore in front of the first
multi-letter extension is optional. -/
structure IsaString where
  singles : List SingleExt
  underscore : Bool
  multis : List MultiExt

/-- Further multi-letter extensions. -/
def furtherText (multis : List MultiExt) : List Char := multis.flatMap fun m => '_' :: m.text

def multisText (underscore : Bool) : List MultiExt → List Char
  | [] => []
  | m :: more => (if underscore then ['_'] else []) ++ (m.text ++ furtherText more)

def singlesText (singles : List SingleExt) (tail : List Char) : List Char :=
  singles.flatMap SingleExt.text ++ tail

def IsaString.text (isa : IsaString) : List Char :=
  singlesText isa.singles (multisText isa.underscore isa.multis)

def singleNames (singles : List SingleExt) : List (List Char) := singles.map fun x => [x.letter]

def IsaString.names (isa : IsaString) : List (List Char) :=
  singleNames isa.singles ++ isa.multis.map MultiExt.name

/-! ## Characters -/

theorem not_digit_of_alpha {c : Char} (letter : c.isAlpha = true) : c.isDigit = false := by
  change (decide (c.val ≥ 'A'.val ∧ c.val ≤ 'Z'.val) ||
    (decide (c.val ≥ 'a'.val) && decide (c.val ≤ 'z'.val))) = true at letter
  change (decide (c.val ≥ '0'.val) && decide (c.val ≤ '9'.val)) = false
  simp only [Bool.or_eq_true, Bool.and_eq_true, decide_eq_true_eq, Bool.and_eq_false_iff,
    decide_eq_false_iff_not, ge_iff_le, UInt32.le_iff_toNat_le] at *
  have : 'A'.val.toNat = 65 := rfl
  have : 'a'.val.toNat = 97 := rfl
  have : '9'.val.toNat = 57 := rfl
  omega

theorem is_multi_letter_iff {c : Char} : isMultiLetter c = true ↔
    c = 's' ∨ c = 'S' ∨ c = 'z' ∨ c = 'Z' ∨ c = 'x' ∨ c = 'X' := by
  simp [isMultiLetter, or_assoc]

theorem alpha_of_multi {c : Char} (multi : isMultiLetter c = true) :
    c.isAlpha = true ∧ c.toLower ≠ 'p' := by
  rcases is_multi_letter_iff.mp multi with rfl | rfl | rfl | rfl | rfl | rfl <;> decide

/-! ## Versions -/

/-- The next character, if there is one, does not satisfy `accept`. -/
def Stops (accept : Char → Bool) (rest : List Char) : Prop := ∀ c ∈ rest.head?, accept c = false

theorem skip_while_append {accept : Char → Bool} {prev : Option Char} {front rest : List Char}
    (all : ∀ c ∈ front, accept c = true) (stops : Stops accept rest) :
    (⟨prev, front ++ rest⟩ : Cursor).skipWhile accept = ⟨front.getLast?.or prev, rest⟩ := by
  have taken : rest.takeWhile accept = [] := by
    cases rest with
    | nil => rfl
    | cons c rest => rw [List.takeWhile_cons, if_neg (by simp [stops c (by simp)])]
  have dropped : rest.dropWhile accept = rest := by
    cases rest with
    | nil => rfl
    | cons c rest => rw [List.dropWhile_cons, if_neg (by simp [stops c (by simp)])]
  simp only [Cursor.skipWhile]
  rw [List.takeWhile_append_of_pos all, List.dropWhile_append_of_pos all, taken, dropped,
    List.append_nil]

theorem skip_version_none {prev : Option Char} {rest : List Char} (stops : Stops Char.isDigit rest) :
    (⟨prev, rest⟩ : Cursor).skipVersion = ⟨prev, rest⟩ := by
  have isStop : (rest.head?.all fun d => !d.isDigit) = true := by
    rw [Option.all_eq_true]
    intro c isHead
    simp [stops c isHead]
  rw [Cursor.skipVersion, if_pos isStop]

/-- A number with something behind it that is no digit. -/
theorem skip_version_digits {prev : Option Char} {digits rest : List Char} (nonempty : digits ≠ [])
    (all : ∀ c ∈ digits, c.isDigit = true) (stops : Stops Char.isDigit rest) :
    (⟨prev, digits ++ rest⟩ : Cursor).skipVersion = Cursor.skipMinor ⟨digits.getLast?, rest⟩ := by
  have first : ¬ ((digits ++ rest).head?.all fun d => !d.isDigit) = true := by
    cases digits with
    | nil => exact absurd rfl nonempty
    | cons d digits => simp [all d (by simp)]
  have major : (⟨prev, digits ++ rest⟩ : Cursor).skipWhile Char.isDigit =
      ⟨digits.getLast?, rest⟩ := by
    rw [skip_while_append all stops]
    obtain ⟨last, isLast⟩ := Option.isSome_iff_exists.mp (by simpa using nonempty :
      digits.getLast?.isSome = true)
    rw [isLast]
    rfl
  rw [Cursor.skipVersion, if_neg first, major]

theorem skip_version_major {prev : Option Char} {digits rest : List Char} (nonempty : digits ≠ [])
    (all : ∀ c ∈ digits, c.isDigit = true) (stops : Stops Char.isDigit rest)
    (noPoint : ∀ c ∈ rest.head?, c.toLower ≠ 'p') :
    (⟨prev, digits ++ rest⟩ : Cursor).skipVersion = ⟨digits.getLast?, rest⟩ := by
  rw [skip_version_digits nonempty all stops]
  cases rest with
  | nil => rfl
  | cons c rest => simp only [Cursor.skipMinor, if_neg (noPoint c (by simp))]

/-- A `p` behind a number goes with the digits behind it, if there are any. -/
theorem skip_version_point {prev : Option Char} {digits minor rest : List Char} {p : Char}
    (nonempty : digits ≠ []) (all : ∀ c ∈ digits, c.isDigit = true) (isPoint : p.toLower = 'p')
    (noDigit : p.isDigit = false) (minorAll : ∀ c ∈ minor, c.isDigit = true)
    (stops : Stops Char.isDigit rest) :
    (⟨prev, digits ++ p :: (minor ++ rest)⟩ : Cursor).skipVersion =
      ⟨minor.getLast?.or (some p), rest⟩ := by
  rw [skip_version_digits nonempty all (by simp [Stops, noDigit])]
  simp only [Cursor.skipMinor, if_pos isPoint]
  exact skip_while_append minorAll stops

/-! ## Single-letter extensions -/

theorem yields_more_iff {cursor next : Cursor} {hasErr mid last : Bool} {ext : List Char}
    {names : List (List Char)}
    (found : nextExt hasErr cursor.prev cursor.rest = (some (ext, next), mid)) :
    Yields cursor hasErr names last ↔ ∃ later, names = ext :: later ∧ Yields next mid later last := by
  constructor
  · intro yields
    cases yields with
    | done ended =>
        rw [found] at ended
        cases ended
    | more other later =>
        rw [found] at other
        cases other
        exact ⟨_, rfl, later⟩
  · rintro ⟨later, rfl, yields⟩
    exact .more found yields

theorem yields_congr {cursor other : Cursor} {hasErr flag last : Bool} {names : List (List Char)}
    (same : nextExt hasErr cursor.prev cursor.rest = nextExt flag other.prev other.rest) :
    Yields cursor hasErr names last ↔ Yields other flag names last := by
  constructor
  · intro yields
    cases yields with
    | done ended => exact .done (same ▸ ended)
    | more found later => exact .more (same ▸ found) later
  · intro yields
    cases yields with
    | done ended => exact .done (same.symm ▸ ended)
    | more found later => exact .more (same.symm ▸ found) later

theorem next_ext_valid {prev : Option Char} {c : Char} {rest : List Char}
    (valid : isInvalidSu prev c rest = false) (hasErr : Bool) :
    nextExt hasErr prev (c :: rest) =
      if isMultiLetter c then
        (some (c :: rest.takeWhile Char.isAlpha,
          ((⟨some c, rest⟩ : Cursor).skipWhile Char.isAlpha).skipVersion), hasErr)
      else if !c.isAlpha then nextExt (hasErr || c ≠ '_') (some c) rest
      else (some ([c], Cursor.skipVersion ⟨some c, rest⟩), hasErr) := by
  rw [nextExt.eq_def]
  simp only [valid, Bool.false_eq_true, if_false]

theorem next_ext_single {c : Char} (letter : c.isAlpha = true) (single : isMultiLetter c = false)
    (hasErr : Bool) (prev : Option Char) (rest : List Char) :
    nextExt hasErr prev (c :: rest) = (some ([c], Cursor.skipVersion ⟨some c, rest⟩), hasErr) := by
  have valid : isInvalidSu prev c rest = false := by
    have notS : c ≠ 's' := by
      rintro rfl
      cases single
    simp [isInvalidSu, notS]
  rw [next_ext_valid valid, single, letter]
  simp

/-- The cursor stands behind something that is no underscore. -/
def Inside (prev : Option Char) : Prop := ∃ c, prev = some c ∧ c ≠ '_'

theorem inside_alpha {c : Char} (letter : c.isAlpha = true) : Inside (some c) := by
  refine ⟨c, rfl, ?_⟩
  rintro rfl
  cases letter

theorem inside_digits {digits : List Char} (nonempty : digits ≠ [])
    (all : ∀ c ∈ digits, c.isDigit = true) : Inside digits.getLast? := by
  refine ⟨digits.getLast nonempty, List.getLast?_eq_some_getLast nonempty, ?_⟩
  intro isUnderscore
  have digit := all _ (List.getLast_mem nonempty)
  rw [isUnderscore] at digit
  cases digit

theorem inside_point {digits : List Char} {p : Char} (all : ∀ c ∈ digits, c.isDigit = true)
    (letter : p.isAlpha = true) : Inside (digits.getLast?.or (some p)) := by
  cases digits with
  | nil => exact inside_alpha letter
  | cons d digits =>
      have inside := inside_digits (by simp) all
      obtain ⟨c, isLast, other⟩ := inside
      exact ⟨c, by rw [isLast]; rfl, other⟩

/-- Where a run over the rest `R` of the string begins: there, or behind a number
that may still take a `p`. -/
inductive Start (R : List Char) : Bool → Cursor → Prop
  | here {prev : Option Char} : Inside prev → Start R false ⟨prev, R⟩
  | behind {prev : Option Char} {digits : List Char} : digits ≠ [] →
      (∀ c ∈ digits, c.isDigit = true) → Start R true (Cursor.skipVersion ⟨prev, digits ++ R⟩)

def isOpen : Option Version → Bool
  | none => false
  | some v => v.minor.isNone

def hasMinor : Option Version → Bool
  | none => false
  | some v => v.minor.isSome

/-- Behind a single-letter extension. -/
theorem start_behind {c : Char} (letter : c.isAlpha = true) (version : Option Version)
    {R : List Char} (stops : Stops Char.isDigit R) :
    Start R (isOpen version) (Cursor.skipVersion ⟨some c, versionText version ++ R⟩) := by
  cases version with
  | none =>
      rw [versionText, List.nil_append, skip_version_none stops]
      exact .here (inside_alpha letter)
  | some v =>
      obtain ⟨nonempty, all⟩ := v.majorDigits
      cases minor : v.minor with
      | none =>
          have text : v.text ++ R = v.major ++ R := by simp [Version.text, minor]
          rw [isOpen, minor, versionText, text]
          exact .behind nonempty all
      | some digits =>
          obtain ⟨_, minorAll⟩ := v.minorDigits digits (by simp [minor])
          have text : v.text ++ R = v.major ++ 'p' :: (digits ++ R) := by simp [Version.text, minor]
          rw [isOpen, minor, versionText, text,
            skip_version_point nonempty all rfl (by decide) minorAll stops]
          exact .here (inside_point minorAll (by decide))

theorem singles_text_cons (x : SingleExt) (rest : List SingleExt) (tail : List Char) :
    singlesText (x :: rest) tail =
      x.letter :: (versionText x.version ++ singlesText rest tail) := by
  simp [singlesText, SingleExt.text]

theorem singles_text_stops {tail : List Char} (stops : Stops Char.isDigit tail)
    (singles : List SingleExt) : Stops Char.isDigit (singlesText singles tail) := by
  cases singles with
  | nil => exact stops
  | cons x rest =>
      rw [singles_text_cons]
      intro c isHead
      simp only [List.head?_cons, Option.mem_def, Option.some.injEq] at isHead
      rw [← isHead]
      exact not_digit_of_alpha x.isLetter

/-- No clash of a `p` with the number in front of it. A `p` with a full version may stand
there: the parser takes it and its major version for the minor version in front of
it, and then the point of its own version for the extension. -/
def clear : Bool → List SingleExt → Bool
  | _, [] => true
  | pending, x :: rest =>
      if pending && x.letter.toLower = 'p' then
        x.letter = 'p' && hasMinor x.version && clear true rest
      else clear (isOpen x.version) rest

section

variable {tail : List Char} (stops : Stops Char.isDigit tail) {x : SingleExt}
  {rest : List SingleExt} {pending : Bool} {cursor : Cursor}

include stops

theorem start_single (start : Start (singlesText (x :: rest) tail) pending cursor)
    (noClash : (pending && x.letter.toLower = 'p') = false) :
    ∃ next, Start (singlesText rest tail) (isOpen x.version) next ∧
      ∀ hasErr names last, Yields cursor hasErr names last ↔
        ∃ later, names = [x.letter] :: later ∧ Yields next hasErr later last := by
  have restStops := singles_text_stops stops rest
  refine ⟨_, start_behind x.isLetter x.version restStops, ?_⟩
  intro hasErr names last
  have atLetter : ∃ prev, cursor = ⟨prev, singlesText (x :: rest) tail⟩ := by
    cases start with
    | here _ => exact ⟨_, rfl⟩
    | behind nonempty all =>
        refine ⟨_, skip_version_major nonempty all (singles_text_stops stops (x :: rest)) ?_⟩
        intro c isHead
        rw [singles_text_cons] at isHead
        simp only [List.head?_cons, Option.mem_def, Option.some.injEq] at isHead
        rw [← isHead]
        simpa using noClash
  obtain ⟨prev, rfl⟩ := atLetter
  apply yields_more_iff
  rw [singles_text_cons]
  exact next_ext_single x.isLetter x.isSingle hasErr prev _

omit stops in
/-- A `p` with a full version behind a number. -/
theorem start_point (start : Start (singlesText (x :: rest) tail) true cursor)
    (isPoint : x.letter.toLower = 'p') (minor : hasMinor x.version = true) :
    ∃ next, Start (singlesText rest tail) true next ∧
      ∀ hasErr names last, Yields cursor hasErr names last ↔
        ∃ later, names = ['p'] :: later ∧ Yields next hasErr later last := by
  cases start with
  | @behind prev digits nonempty all =>
      cases isVersion : x.version with
      | none =>
          rw [isVersion] at minor
          cases minor
      | some v =>
          rw [isVersion, hasMinor, Option.isSome_iff_exists] at minor
          obtain ⟨own, isOwn⟩ := minor
          obtain ⟨ownNonempty, ownAll⟩ := v.minorDigits own (by simp [isOwn])
          have text : singlesText (x :: rest) tail =
              x.letter :: (v.major ++ 'p' :: (own ++ singlesText rest tail)) := by
            simp [singles_text_cons, isVersion, versionText, Version.text, isOwn]
          rw [text, skip_version_point nonempty all isPoint (not_digit_of_alpha x.isLetter)
            v.majorDigits.2 (by simp [Stops])]
          refine ⟨Cursor.skipVersion ⟨some 'p', own ++ singlesText rest tail⟩,
            .behind ownNonempty ownAll, ?_⟩
          intro hasErr names last
          exact yields_more_iff (next_ext_single (by decide) (by decide) hasErr _ _)

/-- Another `p` behind a number is lost. -/
theorem start_lost (start : Start (singlesText (x :: rest) tail) true cursor)
    (isPoint : x.letter.toLower = 'p') (noMinor : hasMinor x.version = false) :
    Start (singlesText rest tail) false cursor := by
  have restStops := singles_text_stops stops rest
  cases start with
  | @behind prev digits nonempty all =>
      have noDigit := not_digit_of_alpha x.isLetter
      have split : ∃ major : List Char, (∀ c ∈ major, c.isDigit = true) ∧
          singlesText (x :: rest) tail = x.letter :: (major ++ singlesText rest tail) := by
        rw [singles_text_cons]
        cases isVersion : x.version with
        | none => exact ⟨[], by simp, by simp [versionText]⟩
        | some v =>
            have none : v.minor = none := by
              rw [isVersion, hasMinor] at noMinor
              simpa using noMinor
            exact ⟨v.major, v.majorDigits.2, by simp [versionText, Version.text, none]⟩
      obtain ⟨major, majorAll, text⟩ := split
      rw [text, skip_version_point nonempty all isPoint noDigit majorAll restStops]
      exact .here (inside_point majorAll x.isLetter)

end

/-- The tail behind the single letters begins with nothing that a version takes. -/
structure Tail (tail : List Char) : Prop where
  stops : Stops Char.isDigit tail
  noPoint : ∀ c ∈ tail.head?, c.toLower ≠ 'p'

theorem start_tail {tail : List Char} (ends : Tail tail) {pending : Bool} {cursor : Cursor}
    (start : Start tail pending cursor) : ∃ prev, Inside prev ∧ cursor = ⟨prev, tail⟩ := by
  cases start with
  | here inside => exact ⟨_, inside, rfl⟩
  | behind nonempty all =>
      exact ⟨_, inside_digits nonempty all, skip_version_major nonempty all ends.stops ends.noPoint⟩

/-- The single letters yield at most as many extensions, each of one letter. -/
theorem singles_split {tail : List Char} (ends : Tail tail) {singles : List SingleExt}
    {pending : Bool} {cursor : Cursor} {hasErr last : Bool} {names : List (List Char)}
    (start : Start (singlesText singles tail) pending cursor)
    (yields : Yields cursor hasErr names last) :
    ∃ front later prev, names = front ++ later ∧ front.length ≤ singles.length ∧
      (∀ name ∈ front, name.length = 1) ∧ Inside prev ∧ Yields ⟨prev, tail⟩ hasErr later last := by
  induction singles generalizing pending cursor names with
  | nil =>
      obtain ⟨prev, inside, rfl⟩ := start_tail ends start
      exact ⟨[], names, prev, rfl, le_rfl, by simp, inside, yields⟩
  | cons x rest ih =>
      cases clash : (pending && decide (x.letter.toLower = 'p')) with
      | false =>
          obtain ⟨next, nextStart, step⟩ := start_single ends.stops start clash
          obtain ⟨later, rfl, laterYields⟩ := (step hasErr names last).mp yields
          obtain ⟨front, further, prev, rfl, short, single, facts⟩ := ih nextStart laterYields
          exact ⟨[x.letter] :: front, further, prev, rfl, by simpa using short,
            by simpa using single, facts⟩
      | true =>
          simp only [Bool.and_eq_true, decide_eq_true_eq] at clash
          obtain ⟨rfl, isPoint⟩ := clash
          cases minor : hasMinor x.version with
          | true =>
              obtain ⟨next, nextStart, step⟩ := start_point start isPoint minor
              obtain ⟨later, rfl, laterYields⟩ := (step hasErr names last).mp yields
              obtain ⟨front, further, prev, rfl, short, single, facts⟩ := ih nextStart laterYields
              exact ⟨['p'] :: front, further, prev, rfl, by simpa using short,
                by simpa using single, facts⟩
          | false =>
              obtain ⟨front, further, prev, same, short, facts⟩ :=
                ih (start_lost ends.stops start isPoint minor) yields
              exact ⟨front, further, prev, same, by simp; omega, facts⟩

/-- Where the tail is read as it should be, the whole string is unless a `p` clashes. -/
theorem singles_yield_iff {tail : List Char} (ends : Tail tail) {tailNames : List (List Char)}
    (tailYields : ∀ prev, Inside prev → ∀ hasErr names last,
      Yields ⟨prev, tail⟩ hasErr names last ↔ names = tailNames ∧ last = hasErr)
    {singles : List SingleExt} {pending : Bool} {cursor : Cursor} (hasErr : Bool)
    (start : Start (singlesText singles tail) pending cursor) :
    Yields cursor hasErr (singleNames singles ++ tailNames) hasErr ↔
      clear pending singles = true := by
  induction singles generalizing pending cursor with
  | nil =>
      obtain ⟨prev, inside, rfl⟩ := start_tail ends start
      rw [tailYields prev inside]
      simp [singleNames, clear]
  | cons x rest ih =>
      rw [clear]
      cases clash : (pending && decide (x.letter.toLower = 'p')) with
      | false =>
          obtain ⟨next, nextStart, step⟩ := start_single ends.stops start clash
          rw [step, if_neg (by simp), ← ih nextStart]
          simp [singleNames]
      | true =>
          simp only [Bool.and_eq_true, decide_eq_true_eq] at clash
          obtain ⟨rfl, isPoint⟩ := clash
          rw [if_pos rfl]
          cases minor : hasMinor x.version with
          | true =>
              obtain ⟨next, nextStart, step⟩ := start_point start isPoint minor
              rw [step, Bool.and_true, Bool.and_eq_true, decide_eq_true_eq, ← ih nextStart]
              simp [singleNames, eq_comm]
          | false =>
              rw [Bool.and_false, Bool.false_and]
              constructor
              · intro yields
                have lost := start_lost ends.stops start isPoint minor
                obtain ⟨front, later, prev, same, short, _, inside, tailRun⟩ :=
                  singles_split ends lost yields
                obtain ⟨rfl, _⟩ := (tailYields prev inside _ _ _).mp tailRun
                have lengths := congrArg List.length same
                simp only [singleNames, List.length_append, List.length_map,
                  List.length_cons] at lengths
                omega
              · intro impossible
                cases impossible

/-! ## Multi-letter extensions -/

/-- The rest of the string is empty or begins with an underscore. -/
def Separated (rest : List Char) : Prop := ∀ c ∈ rest.head?, c = '_'

theorem Separated.stops {rest : List Char} (separated : Separated rest) (accept : Char → Bool)
    (refuses : accept '_' = false) : Stops accept rest := by
  intro c isHead
  rw [separated c isHead]
  exact refuses

theorem Separated.tail {rest : List Char} (separated : Separated rest) : Tail rest := by
  refine ⟨separated.stops _ (by decide), ?_⟩
  intro c isHead
  rw [separated c isHead]
  decide

theorem further_separated (multis : List MultiExt) : Separated (furtherText multis) := by
  cases multis with
  | nil => simp [Separated, furtherText]
  | cons m more => simp [Separated, furtherText]

theorem further_cons (m : MultiExt) (more : List MultiExt) :
    furtherText (m :: more) = '_' :: (m.text ++ furtherText more) := by
  simp [furtherText]

/-- No digit in the name. -/
def MultiExt.Plain (m : MultiExt) : Prop := ∀ c ∈ m.others, c.isAlpha = true

theorem version_text_head (version : Option Version) {rest : List Char} {c : Char}
    (isHead : c ∈ (versionText version ++ rest).head?) : c.isDigit = true ∨ c ∈ rest.head? := by
  cases version with
  | none => exact .inr isHead
  | some v =>
      obtain ⟨nonempty, all⟩ := v.majorDigits
      obtain ⟨d, digits, isMajor⟩ := List.exists_cons_of_ne_nil nonempty
      left
      have isDigit : c = d := by
        simp only [versionText, Version.text, isMajor, List.cons_append, List.head?_cons,
          Option.mem_def, Option.some.injEq] at isHead
        exact isHead.symm
      rw [isDigit]
      exact all d (by simp [isMajor])

theorem not_alpha_of_digit {c : Char} (digit : c.isDigit = true) : c.isAlpha = false := by
  by_contra letter
  rw [Bool.not_eq_false] at letter
  rw [not_digit_of_alpha letter] at digit
  cases digit

theorem version_text_stops (version : Option Version) {rest : List Char}
    (separated : Separated rest) : Stops Char.isAlpha (versionText version ++ rest) := by
  intro c isHead
  rcases version_text_head version isHead with digit | inRest
  · exact not_alpha_of_digit digit
  · exact separated.stops _ (by decide) c inRest

theorem next_ext_multi {m : MultiExt} (plain : m.Plain) {prev : Option Char} {rest : List Char}
    (separated : Separated rest)
    (valid : isInvalidSu prev m.first (m.others ++ (versionText m.version ++ rest)) = false)
    (hasErr : Bool) :
    ∃ behind, nextExt hasErr prev (m.text ++ rest) = (some (m.name, ⟨behind, rest⟩), hasErr) := by
  have text : m.text ++ rest = m.first :: (m.others ++ (versionText m.version ++ rest)) := by
    simp [MultiExt.text, MultiExt.name]
  have stops := version_text_stops m.version separated
  have name : (m.others ++ (versionText m.version ++ rest)).takeWhile Char.isAlpha = m.others := by
    rw [List.takeWhile_append_of_pos plain]
    cases behind : versionText m.version ++ rest with
    | nil => simp
    | cons c more =>
        rw [behind] at stops
        rw [List.takeWhile_cons, if_neg (by simp [stops c (by simp)]), List.append_nil]
  obtain ⟨letter, _⟩ := alpha_of_multi m.isMulti
  have lastLetter : ∃ c, m.others.getLast?.or (some m.first) = some c ∧ c.isAlpha = true := by
    cases isLast : m.others.getLast? with
    | none => exact ⟨m.first, rfl, letter⟩
    | some c => exact ⟨c, rfl, m.ends c isLast⟩
  obtain ⟨last, isLast, lastAlpha⟩ := lastLetter
  obtain ⟨behind, _, cursor⟩ := start_tail separated.tail
    (start_behind lastAlpha m.version (separated.stops _ (by decide)))
  refine ⟨behind, ?_⟩
  rw [text, next_ext_valid valid, if_pos m.isMulti, name, skip_while_append plain stops, isLast,
    cursor]
  rfl

theorem yields_end_iff {prev : Option Char} {hasErr last : Bool} {names : List (List Char)} :
    Yields ⟨prev, []⟩ hasErr names last ↔ names = [] ∧ last = hasErr := by
  constructor
  · intro yields
    cases yields with
    | done ended =>
        rw [nextExt, Prod.mk.injEq] at ended
        exact ⟨rfl, ended.2.symm⟩
    | more found _ =>
        rw [nextExt] at found
        cases found
  · rintro ⟨rfl, rfl⟩
    exact .done (by rw [nextExt])

theorem next_ext_underscore (hasErr : Bool) (prev : Option Char) (rest : List Char) :
    nextExt hasErr prev ('_' :: rest) = nextExt hasErr (some '_') rest := by
  rw [next_ext_valid (by simp [isInvalidSu]), if_neg (by decide), if_pos (by decide)]
  simp

theorem yields_underscore_iff {prev : Option Char} {rest : List Char} {hasErr last : Bool}
    {names : List (List Char)} :
    Yields ⟨prev, '_' :: rest⟩ hasErr names last ↔ Yields ⟨some '_', rest⟩ hasErr names last :=
  yields_congr (next_ext_underscore hasErr prev rest)

theorem valid_behind_underscore (c : Char) (rest : List Char) :
    isInvalidSu (some '_') c rest = false := by
  simp [isInvalidSu]

theorem further_yields_iff {multis : List MultiExt} (plain : ∀ m ∈ multis, m.Plain)
    {prev : Option Char} {hasErr last : Bool} {names : List (List Char)} :
    Yields ⟨prev, furtherText multis⟩ hasErr names last ↔
      names = multis.map MultiExt.name ∧ last = hasErr := by
  induction multis generalizing prev names with
  | nil => exact yields_end_iff
  | cons m more ih =>
      rw [further_cons]
      rw [yields_underscore_iff]
      obtain ⟨behind, found⟩ := next_ext_multi (plain m (by simp)) (further_separated more)
        (valid_behind_underscore _ _) hasErr
      rw [yields_more_iff found]
      simp only [ih fun other member => plain other (by simp [member]), List.map_cons]
      constructor
      · rintro ⟨later, rfl, rfl, rfl⟩
        exact ⟨rfl, rfl⟩
      · rintro ⟨rfl, rfl⟩
        exact ⟨_, rfl, rfl, rfl⟩

end L4Bootstrap.Riscv
