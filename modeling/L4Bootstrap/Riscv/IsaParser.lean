import Mathlib.Data.List.TakeWhile
import Mathlib.Data.List.Basic

/-!
# The parser of RISC-V ISA strings

`Isa_parser` of `isa_parser.h`, for the part of the string behind `rv32` or
`rv64`, and the naming convention that it follows. A string is a list of
characters without its terminator.
-/

namespace L4Bootstrap.Riscv

set_option autoImplicit false

/-- `_cur` as the character in front of it, if there is one, and those behind it. -/
structure Cursor where
  prev : Option Char
  rest : List Char
  deriving DecidableEq, Repr

def Cursor.skipWhile (c : Cursor) (accept : Char → Bool) : Cursor where
  prev := (c.rest.takeWhile accept).getLast?.or c.prev
  rest := c.rest.dropWhile accept

/-- The second half of `skip_version`, behind the major version. -/
def Cursor.skipMinor (c : Cursor) : Cursor :=
  match c.rest with
  | [] => c
  | p :: minor =>
      if p.toLower = 'p' then (⟨some p, minor⟩ : Cursor).skipWhile Char.isDigit else c

def Cursor.skipVersion (c : Cursor) : Cursor :=
  if c.rest.head?.all fun d => !d.isDigit then c
  else (c.skipWhile Char.isDigit).skipMinor

/-- The first letters of extensions with more than one letter. -/
def isMultiLetter (c : Char) : Bool :=
  c = 's' || c = 'S' || c = 'z' || c = 'Z' || c = 'x' || c = 'X'

/-- The invalid `su` of old versions of QEMU. -/
def isInvalidSu (prev : Option Char) (c : Char) (rest : List Char) : Bool :=
  c = 's' && prev.any (· ≠ '_') && rest.head? = some 'u'

/-- `next_ext`: the extension with the cursor behind it, or nothing at the end of
the string, and `has_err`. -/
def nextExt (hasErr : Bool) : Option Char → List Char → Option (List Char × Cursor) × Bool
  | _, [] => (none, hasErr)
  | prev, c :: rest =>
      if isInvalidSu prev c rest then
        match rest with
        | [] => (none, hasErr)
        | u :: rest => nextExt hasErr (some u) rest
      else if isMultiLetter c then
        let name := (⟨some c, rest⟩ : Cursor).skipWhile Char.isAlpha
        (some (c :: rest.takeWhile Char.isAlpha, name.skipVersion), hasErr)
      else if !c.isAlpha then nextExt (hasErr || c ≠ '_') (some c) rest
      else (some ([c], Cursor.skipVersion ⟨some c, rest⟩), hasErr)

/-- The values of `ext ()` over successive calls of `next_ext ()` until the first one
that returns false, and `has_err ()` after it. -/
def extensions : Nat → Cursor → Bool → Option (List (List Char) × Bool)
  | 0, _, _ => none
  | fuel + 1, cursor, hasErr =>
      match nextExt hasErr cursor.prev cursor.rest with
      | (none, hasErr) => some ([], hasErr)
      | (some (ext, cursor), hasErr) =>
          (extensions fuel cursor hasErr).map fun found => (ext :: found.1, found.2)

def isaExtensions (isa : List Char) : Option (List (List Char) × Bool) :=
  extensions (isa.length + 1) ⟨none, isa⟩ false

/-! ## Runs of the parser -/

/-- The parser finds `names` and ends with `last` as its error flag. -/
inductive Yields : Cursor → Bool → List (List Char) → Bool → Prop
  | done {cursor : Cursor} {hasErr last : Bool} :
      nextExt hasErr cursor.prev cursor.rest = (none, last) → Yields cursor hasErr [] last
  | more {cursor next : Cursor} {hasErr mid last : Bool} {ext : List Char}
      {names : List (List Char)} :
      nextExt hasErr cursor.prev cursor.rest = (some (ext, next), mid) →
      Yields next mid names last → Yields cursor hasErr (ext :: names) last

theorem Yields.unique {cursor : Cursor} {hasErr one two : Bool} {first second : List (List Char)}
    (left : Yields cursor hasErr first one) (right : Yields cursor hasErr second two) :
    first = second ∧ one = two := by
  induction left generalizing second two with
  | done ended =>
      cases right with
      | done other =>
          rw [ended] at other
          cases other
          exact ⟨rfl, rfl⟩
      | more other _ =>
          rw [ended] at other
          cases other
  | more found _ ih =>
      cases right with
      | done other =>
          rw [found] at other
          cases other
      | more other later =>
          rw [found] at other
          cases other
          obtain ⟨rfl, rfl⟩ := ih later
          exact ⟨rfl, rfl⟩

theorem extensions_yields {fuel : Nat} {cursor : Cursor} {hasErr last : Bool}
    {names : List (List Char)} (ran : extensions fuel cursor hasErr = some (names, last)) :
    Yields cursor hasErr names last := by
  induction fuel generalizing cursor hasErr names with
  | zero => cases ran
  | succ fuel ih =>
      rw [extensions] at ran
      split at ran
      · rename_i ended
        cases ran
        exact .done ended
      · rename_i ext next mid found
        obtain ⟨⟨later, flag⟩, isLater, same⟩ := Option.map_eq_some_iff.mp ran
        cases same
        exact .more found (ih isLater)

theorem skip_while_rest (c : Cursor) (accept : Char → Bool) :
    (c.skipWhile accept).rest.length ≤ c.rest.length :=
  (List.dropWhile_sublist accept).length_le

theorem skip_minor_rest (c : Cursor) : c.skipMinor.rest.length ≤ c.rest.length := by
  unfold Cursor.skipMinor
  split
  · exact le_rfl
  · rename_i p minor isRest
    split_ifs
    · rw [isRest]
      exact (skip_while_rest ⟨some p, minor⟩ Char.isDigit).trans (Nat.le_succ _)
    · exact le_rfl

theorem skip_version_rest (c : Cursor) : c.skipVersion.rest.length ≤ c.rest.length := by
  unfold Cursor.skipVersion
  split_ifs
  · exact le_rfl
  · exact (skip_minor_rest _).trans (skip_while_rest c Char.isDigit)

/-- Each extension takes at least one character. -/
theorem next_ext_shorter {hasErr mid : Bool} {prev : Option Char} {rest : List Char}
    {ext : List Char} {next : Cursor}
    (found : nextExt hasErr prev rest = (some (ext, next), mid)) :
    next.rest.length < rest.length := by
  fun_induction nextExt hasErr prev rest with
  | case1 => cases found
  | case2 => cases found
  | case3 hasErr prev c u rest invalid ih =>
      have := ih found
      simp only [List.length_cons]
      omega
  | case4 hasErr prev c rest _ _ name =>
      cases found
      have letters : name.rest.length ≤ rest.length := skip_while_rest ⟨some c, rest⟩ Char.isAlpha
      have version := skip_version_rest name
      simp only [List.length_cons]
      omega
  | case5 hasErr prev c rest _ _ _ ih =>
      have := ih found
      simp only [List.length_cons]
      omega
  | case6 hasErr prev c rest _ _ _ =>
      cases found
      have version := skip_version_rest ⟨some c, rest⟩
      simp only [List.length_cons]
      exact Nat.lt_succ_of_le version

/-- The iteration ends on every string. -/
theorem extensions_total {fuel : Nat} {cursor : Cursor} (hasErr : Bool)
    (enough : cursor.rest.length < fuel) :
    ∃ names last, extensions fuel cursor hasErr = some (names, last) := by
  induction fuel generalizing cursor hasErr with
  | zero => omega
  | succ fuel ih =>
      rw [extensions]
      split
      · exact ⟨_, _, rfl⟩
      · rename_i ext next mid found
        have shorter := next_ext_shorter found
        obtain ⟨names, last, ran⟩ := ih mid (show next.rest.length < fuel by omega)
        exact ⟨ext :: names, last, by rw [ran]; rfl⟩

theorem isa_extensions_iff {isa : List Char} {names : List (List Char)} {last : Bool} :
    isaExtensions isa = some (names, last) ↔ Yields ⟨none, isa⟩ false names last := by
  constructor
  · exact extensions_yields
  · intro yields
    have enough : (⟨none, isa⟩ : Cursor).rest.length < isa.length + 1 := Nat.lt_succ_self _
    obtain ⟨other, flag, ran⟩ := extensions_total false enough
    obtain ⟨rfl, rfl⟩ := yields.unique (extensions_yields ran)
    exact ran

end L4Bootstrap.Riscv
