import L4Bootstrap.Riscv.IsaNaming

/-!
# Which ISA strings are recognised

A string of the naming convention is read as the convention reads it exactly
when no name has a digit, no `su` follows a single-letter extension, and no `p`
follows a number without a point.
-/

namespace L4Bootstrap.Riscv

set_option autoImplicit false

/-! ## The first multi-letter extension -/

/-- The name begins with what the parser skips behind a single-letter extension. -/
def MultiExt.LikeSu (m : MultiExt) : Prop := m.first = 's' ∧ m.others.head? = some 'u'

theorem head_of_text (m : MultiExt) {rest : List Char} (separated : Separated rest) {c : Char}
    (letter : c.isAlpha = true) :
    (m.others ++ (versionText m.version ++ rest)).head? = some c ↔ m.others.head? = some c := by
  cases m.others with
  | nil =>
      have other : (versionText m.version ++ rest).head? ≠ some c := by
        intro isHead
        have refused := version_text_stops m.version separated c isHead
        rw [letter] at refused
        cases refused
      simp only [List.nil_append, other, List.head?_nil, reduceCtorEq]
  | cons d others => simp

theorem invalid_su_iff (m : MultiExt) {rest : List Char} (separated : Separated rest)
    {prev : Option Char} (inside : Inside prev) :
    isInvalidSu prev m.first (m.others ++ (versionText m.version ++ rest)) = true ↔ m.LikeSu := by
  obtain ⟨c, rfl, other⟩ := inside
  have isU := head_of_text m separated (show 'u'.isAlpha = true by decide)
  simp only [isInvalidSu, MultiExt.LikeSu, Bool.and_eq_true, decide_eq_true_eq, isU,
    Option.any_some, other, ne_eq, not_false_eq_true, and_true]

theorem multi_yields_iff {m : MultiExt} {more : List MultiExt} (plain : ∀ x ∈ m :: more, x.Plain)
    {prev : Option Char}
    (valid : isInvalidSu prev m.first (m.others ++ (versionText m.version ++ furtherText more)) =
      false) {hasErr last : Bool} {names : List (List Char)} :
    Yields ⟨prev, m.text ++ furtherText more⟩ hasErr names last ↔
      names = (m :: more).map MultiExt.name ∧ last = hasErr := by
  obtain ⟨behind, found⟩ := next_ext_multi (plain m (by simp)) (further_separated more) valid hasErr
  have morePlain : ∀ x ∈ more, x.Plain := fun x member => plain x (List.mem_cons_of_mem m member)
  rw [yields_more_iff found]
  simp only [further_yields_iff morePlain, List.map_cons]
  constructor
  · rintro ⟨later, rfl, rfl, rfl⟩
    exact ⟨rfl, rfl⟩
  · rintro ⟨rfl, rfl⟩
    exact ⟨_, rfl, rfl, rfl⟩

/-- No extension of more letters begins with `su` right behind `prev`. -/
def NoSu (prev : Option Char) (underscore : Bool) (multis : List MultiExt) : Prop :=
  prev.isSome → underscore = false → ∀ m ∈ multis.head?, ¬ m.LikeSu

theorem multis_yield_iff {multis : List MultiExt} (plain : ∀ m ∈ multis, m.Plain)
    {underscore : Bool} {prev : Option Char} (behind : prev = none ∨ Inside prev)
    (noSu : NoSu prev underscore multis) {hasErr last : Bool} {names : List (List Char)} :
    Yields ⟨prev, multisText underscore multis⟩ hasErr names last ↔
      names = multis.map MultiExt.name ∧ last = hasErr := by
  cases multis with
  | nil => exact yields_end_iff
  | cons m more =>
      cases underscore with
      | true =>
          have text : multisText true (m :: more) = furtherText (m :: more) := by
            rw [further_cons]
            rfl
          rw [text]
          exact further_yields_iff plain
      | false =>
          refine multi_yields_iff plain ?_
          rcases behind with rfl | inside
          · simp [isInvalidSu]
          · rw [Bool.eq_false_iff, Ne, invalid_su_iff m (further_separated more) inside]
            obtain ⟨c, rfl, _⟩ := inside
            exact noSu rfl rfl m (by simp)

/-! ## Names of letters -/

theorem next_ext_alpha {hasErr mid : Bool} {prev : Option Char} {rest : List Char}
    {ext : List Char} {next : Cursor}
    (found : nextExt hasErr prev rest = (some (ext, next), mid)) : ∀ c ∈ ext, c.isAlpha = true := by
  fun_induction nextExt hasErr prev rest with
  | case1 => cases found
  | case2 => cases found
  | case3 hasErr prev c u rest invalid ih => exact ih found
  | case4 hasErr prev c rest _ multi name =>
      cases found
      intro d member
      rcases List.mem_cons.mp member with rfl | inName
      · exact (alpha_of_multi multi).1
      · exact List.mem_takeWhile_imp inName
  | case5 hasErr prev c rest _ _ _ ih => exact ih found
  | case6 hasErr prev c rest _ _ letter =>
      cases found
      simpa using letter

theorem yields_alpha {cursor : Cursor} {hasErr last : Bool} {names : List (List Char)}
    (yields : Yields cursor hasErr names last) : ∀ name ∈ names, ∀ c ∈ name, c.isAlpha = true := by
  induction yields with
  | done _ => simp
  | more found _ ih =>
      intro name member
      rcases List.mem_cons.mp member with rfl | inLater
      · exact next_ext_alpha found
      · exact ih name inLater

/-! ## Parts of the string -/

section

variable {t R : List Char}

theorem drop_while_within {accept : Char → Bool} (stops : Stops accept R) :
    (t ++ R).dropWhile accept = t.dropWhile accept ++ R := by
  induction t with
  | nil =>
      cases R with
      | nil => rfl
      | cons c R => simp [stops c (by simp)]
  | cons c t ih =>
      cases accepted : accept c with
      | true => simp [accepted, ih]
      | false => simp [accepted]

theorem take_while_within {accept : Char → Bool} (stops : Stops accept R) :
    (t ++ R).takeWhile accept = t.takeWhile accept := by
  induction t with
  | nil =>
      cases R with
      | nil => rfl
      | cons c R => simp [stops c (by simp)]
  | cons c t ih =>
      cases accepted : accept c with
      | true => simp [accepted, ih]
      | false => simp [accepted]

theorem skip_while_within {accept : Char → Bool} (stops : Stops accept R) (prev : Option Char) :
    ∃ behind, (⟨prev, t ++ R⟩ : Cursor).skipWhile accept = ⟨behind, t.dropWhile accept ++ R⟩ := by
  rw [Cursor.skipWhile]
  simp only [drop_while_within stops]
  exact ⟨_, rfl⟩

theorem skip_minor_within (separated : Separated R) (prev : Option Char) :
    ∃ behind s, s <:+ t ∧ (⟨prev, t ++ R⟩ : Cursor).skipMinor = ⟨behind, s ++ R⟩ := by
  have none : Cursor.skipMinor ⟨prev, R⟩ = ⟨prev, R⟩ := by
    cases R with
    | nil => rfl
    | cons c R =>
        have isSeparator : c = '_' := separated c (by simp)
        subst isSeparator
        rfl
  cases t with
  | nil => exact ⟨prev, [], List.suffix_rfl, none⟩
  | cons p t =>
      simp only [Cursor.skipMinor, List.cons_append]
      split_ifs with isPoint
      · obtain ⟨behind, skipped⟩ := skip_while_within (t := t)
          (separated.stops Char.isDigit (by decide)) (some p)
        exact ⟨behind, _, (List.dropWhile_suffix _).trans (List.suffix_cons p t), skipped⟩
      · exact ⟨prev, p :: t, List.suffix_rfl, rfl⟩

theorem skip_version_within (separated : Separated R) (prev : Option Char) :
    ∃ behind s, s <:+ t ∧ (⟨prev, t ++ R⟩ : Cursor).skipVersion = ⟨behind, s ++ R⟩ := by
  rw [Cursor.skipVersion]
  split_ifs
  · exact ⟨prev, t, List.suffix_rfl, rfl⟩
  · obtain ⟨middle, skipped⟩ := skip_while_within (t := t)
      (separated.stops Char.isDigit (by decide)) prev
    obtain ⟨behind, s, suffix, minor⟩ := skip_minor_within (t := t.dropWhile Char.isDigit)
      separated middle
    exact ⟨behind, s, suffix.trans (List.dropWhile_suffix _), by rw [skipped, minor]⟩

def letters (t : List Char) : Nat := (t.filter Char.isAlpha).length

theorem letters_suffix {s : List Char} (suffix : s <:+ t) : letters s ≤ letters t :=
  (suffix.sublist.filter _).length_le

theorem letters_take_while : (t.takeWhile Char.isAlpha).length ≤ letters t := by
  have all : (t.takeWhile Char.isAlpha).filter Char.isAlpha = t.takeWhile Char.isAlpha :=
    List.filter_eq_self.mpr fun c member => List.mem_takeWhile_imp member
  rw [← all]
  exact ((List.takeWhile_sublist _).filter _).length_le

theorem letters_cons (c : Char) : letters (c :: t) = (if c.isAlpha then 1 else 0) + letters t := by
  cases isLetter : c.isAlpha <;> simp [letters, isLetter, Nat.add_comm]

theorem letters_append (front back : List Char) :
    letters (front ++ back) = letters front + letters back := by
  simp [letters, List.filter_append]

theorem letters_digits {digits : List Char} (all : ∀ c ∈ digits, c.isDigit = true) :
    letters digits = 0 := by
  rw [letters, List.length_eq_zero_iff, List.filter_eq_nil_iff]
  intro c member
  rw [not_alpha_of_digit (all c member)]
  decide

theorem letters_version (version : Option Version) : letters (versionText version) ≤ 1 := by
  cases version with
  | none => exact Nat.zero_le 1
  | some v =>
      rw [versionText, Version.text, letters_append, letters_digits v.majorDigits.2]
      cases minor : v.minor with
      | none => exact Nat.zero_le 1
      | some digits =>
          have := letters_digits (v.minorDigits digits (by simp [minor])).2
          simp only [letters_cons, this]
          decide

/-- Names of at most `limit` characters, and then those that are found from `R` on. -/
def ReadsWithin (R : List Char) (limit : Nat) (names : List (List Char)) (last : Bool) : Prop :=
  ∃ front later behind flag, names = front ++ later ∧ (∀ name ∈ front, name.length ≤ limit) ∧
    Yields ⟨behind, R⟩ flag later last

theorem ReadsWithin.mono {low high : Nat} {names : List (List Char)} {last : Bool}
    (reads : ReadsWithin R low names last) (le : low ≤ high) : ReadsWithin R high names last := by
  obtain ⟨front, later, behind, flag, same, short, run⟩ := reads
  exact ⟨front, later, behind, flag, same, fun name member => (short name member).trans le, run⟩

theorem ReadsWithin.cons {limit : Nat} {names : List (List Char)} {last : Bool}
    (reads : ReadsWithin R limit names last) {ext : List Char} (short : ext.length ≤ limit) :
    ReadsWithin R limit (ext :: names) last := by
  obtain ⟨front, later, behind, flag, rfl, shorts, run⟩ := reads
  exact ⟨ext :: front, later, behind, flag, rfl, by simpa using ⟨short, shorts⟩, run⟩

theorem invalid_su_within (separated : Separated R) {prev : Option Char} {c : Char}
    (invalid : isInvalidSu prev c (t ++ R) = true) : ∃ s, t = 'u' :: s := by
  simp only [isInvalidSu, Bool.and_eq_true, decide_eq_true_eq] at invalid
  cases t with
  | nil =>
      have isSeparator := separated 'u' invalid.2
      cases isSeparator
  | cons u s =>
      have isU := invalid.2
      simp only [List.cons_append, List.head?_cons, Option.some.injEq] at isU
      exact ⟨s, by rw [isU]⟩

/-- The part of the string in front of an underscore yields names of its own letters,
and the parser then stands at the underscore. -/
theorem yields_within (separated : Separated R) {prev : Option Char} {hasErr last : Bool}
    {names : List (List Char)} (yields : Yields ⟨prev, t ++ R⟩ hasErr names last) :
    ReadsWithin R (letters t) names last := by
  induction size : t.length using Nat.strong_induction_on generalizing t prev hasErr names with
  | _ size ih =>
  cases t with
  | nil => exact ⟨[], names, prev, hasErr, rfl, by simp, yields⟩
  | cons c t =>
      have further {s : List Char} (suffix : s <:+ t) {prev : Option Char} {hasErr : Bool}
          {names : List (List Char)} (yields : Yields ⟨prev, s ++ R⟩ hasErr names last) :
          ReadsWithin R (letters (c :: t)) names last := by
        have shorter := suffix.length_le
        simp only [List.length_cons] at size
        exact (ih s.length (by omega) yields rfl).mono
          (letters_suffix (suffix.trans (List.suffix_cons c t)))
      rw [List.cons_append] at yields
      cases invalid : isInvalidSu prev c (t ++ R) with
      | true =>
          obtain ⟨s, rfl⟩ := invalid_su_within separated invalid
          have step : nextExt hasErr prev (c :: ('u' :: s ++ R)) =
              nextExt hasErr (some 'u') (s ++ R) := by
            rw [nextExt.eq_def]
            simp only [invalid, if_true]
            rfl
          have behind : Yields ⟨some 'u', s ++ R⟩ hasErr names last := (yields_congr step).mp yields
          exact further (List.suffix_cons 'u' s) behind
      | false =>
          have step := next_ext_valid invalid hasErr
          have alpha := letters_cons (t := t) c
          split_ifs at step with multi other
          · obtain ⟨middle, name⟩ := skip_while_within (t := t)
              (separated.stops Char.isAlpha (by decide)) (some c)
            obtain ⟨behind, s, suffix, version⟩ := skip_version_within
              (t := t.dropWhile Char.isAlpha) separated middle
            rw [name, version, take_while_within (separated.stops _ (by decide))] at step
            obtain ⟨later, rfl, laterYields⟩ := (yields_more_iff step).mp yields
            refine (further (suffix.trans (List.dropWhile_suffix _)) laterYields).cons ?_
            have short := letters_take_while (t := t)
            rw [alpha, (alpha_of_multi multi).1, List.length_cons]
            simp only [if_true]
            omega
          · have behind : Yields ⟨some c, t ++ R⟩ (hasErr || decide (c ≠ '_')) names last :=
              (yields_congr step).mp yields
            exact further List.suffix_rfl behind
          · obtain ⟨behind, s, suffix, version⟩ := skip_version_within (t := t) separated (some c)
            rw [version] at step
            obtain ⟨later, rfl, laterYields⟩ := (yields_more_iff step).mp yields
            refine (further suffix laterYields).cons ?_
            simp only [Bool.not_eq_true', Bool.not_eq_false] at other
            simp [alpha, other]

end

/-! ## The whole string -/

structure IsaString.Recognised (isa : IsaString) : Prop where
  plain : ∀ m ∈ isa.multis, m.Plain
  noSu : isa.singles ≠ [] → isa.underscore = false → ∀ m ∈ isa.multis.head?, ¬ m.LikeSu
  clear : clear false isa.singles = true

theorem multis_tail (underscore : Bool) (multis : List MultiExt) :
    Tail (multisText underscore multis) := by
  have separator : Tail ['_'] := ⟨by simp [Stops], by simp⟩
  cases multis with
  | nil => exact ⟨by simp [Stops, multisText], by simp [multisText]⟩
  | cons m more =>
      cases underscore with
      | true => exact ⟨by simp [Stops, multisText], by simp [multisText]⟩
      | false =>
          obtain ⟨letter, noPoint⟩ := alpha_of_multi m.isMulti
          have isHead : (multisText false (m :: more)).head? = some m.first := by
            simp [multisText, MultiExt.text, MultiExt.name]
          refine ⟨?_, ?_⟩
          · intro c isFirst
            rw [isHead, Option.mem_some_iff] at isFirst
            rw [← isFirst]
            exact not_digit_of_alpha letter
          · intro c isFirst
            rw [isHead, Option.mem_some_iff] at isFirst
            rwa [← isFirst]

/-- What precedes the string does not matter for a single letter. -/
theorem yields_from_start {x : SingleExt} {rest : List SingleExt} {tail : List Char}
    {hasErr last : Bool} {names : List (List Char)} :
    Yields ⟨none, singlesText (x :: rest) tail⟩ hasErr names last ↔
      Yields ⟨some 'i', singlesText (x :: rest) tail⟩ hasErr names last := by
  apply yields_congr
  rw [singles_text_cons]
  exact (next_ext_single x.isLetter x.isSingle hasErr none _).trans
    (next_ext_single x.isLetter x.isSingle hasErr (some 'i') _).symm

theorem plain_of_yields {isa : IsaString} {cursor : Cursor} {hasErr last : Bool}
    (yields : Yields cursor hasErr isa.names last) : ∀ m ∈ isa.multis, m.Plain := by
  intro m member c inOthers
  have inNames : m.name ∈ isa.names :=
    List.mem_append_right _ (List.mem_map_of_mem member)
  exact yields_alpha yields m.name inNames c (List.mem_cons_of_mem m.first inOthers)

/-- A name in front of which `su` is skipped is not found. -/
theorem like_su_lost {singles : List SingleExt} {m : MultiExt} {more : List MultiExt}
    (plain : ∀ x ∈ m :: more, x.Plain) (likeSu : m.LikeSu) {cursor : Cursor} {hasErr last : Bool}
    (start : Start (singlesText singles (multisText false (m :: more))) false cursor) :
    ¬ Yields cursor hasErr (singleNames singles ++ m.name :: more.map MultiExt.name) last := by
  intro yields
  obtain ⟨front, later, prev, same, _, single, inside, run⟩ :=
    singles_split (multis_tail false (m :: more)) start yields
  obtain ⟨isFirst, isSecond⟩ := likeSu
  obtain ⟨others, isOthers⟩ : ∃ others, m.others = 'u' :: others := by
    cases isCons : m.others with
    | nil =>
        rw [isCons] at isSecond
        cases isSecond
    | cons u others =>
        rw [isCons, List.head?_cons, Option.some.injEq] at isSecond
        exact ⟨others, by rw [isSecond]⟩
  have text : multisText false (m :: more) =
      's' :: 'u' :: ((others ++ versionText m.version) ++ furtherText more) := by
    simp [multisText, MultiExt.text, MultiExt.name, isFirst, isOthers]
  rw [text] at run
  have behind : Yields ⟨some 'u', (others ++ versionText m.version) ++ furtherText more⟩ hasErr later
      last := by
    refine (yields_congr ?_).mp run
    obtain ⟨c, rfl, other⟩ := inside
    rw [nextExt.eq_def]
    simp [isInvalidSu, other]
  obtain ⟨middle, further, _, flag, rfl, short, furtherRun⟩ :=
    yields_within (further_separated more) behind
  obtain ⟨rfl, _⟩ :=
    (further_yields_iff fun x member => plain x (List.mem_cons_of_mem m member)).mp furtherRun
  have found : m.name ∈ front ++ middle := by
    have names : (singleNames singles ++ [m.name]) ++ more.map MultiExt.name =
        (front ++ middle) ++ more.map MultiExt.name := by simpa using same
    rw [← List.append_cancel_right names]
    simp
  have long : m.name.length = others.length + 2 := by simp [MultiExt.name, isOthers]
  rcases List.mem_append.mp found with inFront | inMiddle
  · have := single m.name inFront
    omega
  · have bound := short m.name inMiddle
    rw [letters_append] at bound
    have fromName : letters others ≤ others.length := List.length_filter_le _ _
    have fromVersion := letters_version m.version
    omega

theorem isa_extensions_recognised_iff (isa : IsaString) :
    isaExtensions isa.text = some (isa.names, false) ↔ isa.Recognised := by
  rw [isa_extensions_iff]
  have tail := multis_tail isa.underscore isa.multis
  rcases isSingles : isa.singles with _ | ⟨x, rest⟩
  · have text : isa.text = multisText isa.underscore isa.multis := by
      simp [IsaString.text, singlesText, isSingles]
    have names : isa.names = isa.multis.map MultiExt.name := by
      simp [IsaString.names, singleNames, isSingles]
    constructor
    · intro yields
      refine ⟨plain_of_yields yields, fun nonempty => absurd isSingles nonempty, ?_⟩
      rw [isSingles]
      rfl
    · intro recognised
      rw [text, multis_yield_iff recognised.plain (.inl rfl) (by simp [NoSu])]
      exact ⟨names, rfl⟩
  · have text : isa.text = singlesText (x :: rest) (multisText isa.underscore isa.multis) := by
      rw [IsaString.text, isSingles]
    have start : Start isa.text false ⟨some 'i', isa.text⟩ := .here (inside_alpha (by decide))
    have cursor : Yields ⟨none, isa.text⟩ false isa.names false ↔
        Yields ⟨some 'i', isa.text⟩ false isa.names false := by
      rw [text]
      exact yields_from_start
    rw [cursor]
    -- with plain names and no `su`, the multi-letter extensions are read in full
    have singles (plain : ∀ m ∈ isa.multis, m.Plain)
        (noSu : isa.underscore = false → ∀ m ∈ isa.multis.head?, ¬ m.LikeSu) :
        Yields ⟨some 'i', isa.text⟩ false isa.names false ↔ clear false isa.singles = true := by
      refine singles_yield_iff tail ?_ false start
      intro prev inside hasErr names last
      exact multis_yield_iff plain (.inr inside) fun _ => noSu
    constructor
    · intro yields
      have plain := plain_of_yields yields
      have noSu : isa.underscore = false → ∀ m ∈ isa.multis.head?, ¬ m.LikeSu := by
        intro none m isFirst likeSu
        obtain ⟨more, isMultis⟩ := List.head?_eq_some_iff.mp isFirst
        have atStart : Start (singlesText isa.singles (multisText false (m :: more))) false
            ⟨some 'i', isa.text⟩ := by
          rw [text, ← isSingles, none, isMultis] at start
          rw [text, ← isSingles, none, isMultis]
          exact start
        rw [isMultis] at plain
        rw [IsaString.names, isMultis] at yields
        exact like_su_lost plain likeSu atStart yields
      exact ⟨plain, fun _ => noSu, (singles plain noSu).mp yields⟩
    · intro recognised
      exact (singles recognised.plain (recognised.noSu (by simp [isSingles]))).mpr recognised.clear

/-- `zvl128b`. -/
def vectorLength : MultiExt where
  first := 'z'
  others := "vl128b".toList
  version := none
  isMulti := rfl
  characters c member := by
    have alphanumeric : ("vl128b".toList.all fun c => c.isAlpha || c.isDigit) = true := by
      decide +kernel
    exact Bool.or_eq_true_iff.mp (List.all_eq_true.mp alphanumeric c member)
  ends c isLast := by
    have same : "vl128b".toList.getLast? = some 'b' := by decide +kernel
    rw [same] at isLast
    cases isLast
    rfl

/-- `imac_zvl128b`: the name is cut at its digits, and the rest of it taken for the
single letter `b`. -/
theorem isa_extensions_digits : ∃ isa : IsaString,
    isa.text = "imac_zvl128b".toList ∧
      isa.names = ["i".toList, "m".toList, "a".toList, "c".toList, "zvl128b".toList] ∧
      isaExtensions isa.text = some
        (["i".toList, "m".toList, "a".toList, "c".toList, "zvl".toList, "b".toList], false) ∧
      isaExtensions isa.text ≠ some (isa.names, false) := by
  let single (letter : Char) (isLetter : letter.isAlpha = true)
      (isSingle : isMultiLetter letter = false) : SingleExt := ⟨letter, none, isLetter, isSingle⟩
  refine ⟨⟨[single 'i' rfl rfl, single 'm' rfl rfl, single 'a' rfl rfl, single 'c' rfl rfl], true,
    [vectorLength]⟩, ?_⟩
  decide +kernel

end L4Bootstrap.Riscv
