import L4Bootstrap.Support
import Mathlib.Data.List.Basic
import Mathlib.Data.List.Infix

/-!
# Looking for an option on the command line

`check_arg` of `startup.cc`. A command line is the list of its bytes in front of
the terminating zero, a pointer into it is a position. An occurrence that does
not start a word is meant to be skipped; but the search goes on at that very
position, finds the same occurrence again, and never ends.
-/

namespace L4Bootstrap

open CheckedLoop

set_option autoImplicit false

/-- `isspace` in the C locale. -/
def isspace (c : UInt8) : Bool := c = 32 || (9 ≤ c && c ≤ 13)

/-- The offset of the first occurrence in a text. -/
def firstOffset (arg : List UInt8) : List UInt8 → Option Nat
  | [] => if arg <+: [] then some 0 else none
  | c :: rest => if arg <+: c :: rest then some 0 else (firstOffset arg rest).map (· + 1)

/-- `strstr` on the part of the text behind the position `s`. -/
def strstr (text : List UInt8) (s : Nat) (arg : List UInt8) : Option Nat :=
  (firstOffset arg (text.drop s)).map (s + ·)

/-- At the start of the command line or behind whitespace. -/
def WordStart (text : List UInt8) (s : Nat) : Prop :=
  s = 0 ∨ isspace (text.getD (s - 1) 0) = true

instance (text : List UInt8) (s : Nat) : Decidable (WordStart text s) :=
  inferInstanceAs (Decidable (_ ∨ _))

/-- The loop that counts `*arg_len`. -/
def argLen : List UInt8 → Nat
  | [] => 0
  | c :: rest => if isspace c then 0 else argLen rest + 1

/-- One evaluation of the condition of the loop, with its body: position and
length of the parameter, or nothing for the null pointer. -/
def checkArgRound (cmdline arg : List UInt8) (s : Nat) :
    Checked (Round Nat (Option (Nat × Nat))) :=
  match strstr cmdline s arg with
  | none => .ok (.leave none)
  | some s =>
      if WordStart cmdline s then
        .ok (.leave (some (s + arg.length, argLen (cmdline.drop (s + arg.length)))))
      else .ok (.again s)

/-- `check_arg`, for at most `fuel` rounds of its loop. -/
def checkArg (fuel : Nat) (cmdline : Option (List UInt8)) (arg : List UInt8) :
    Checked (Option (Nat × Nat)) :=
  match cmdline with
  | none => .ok none
  | some text => loop (checkArgRound text arg) .diverges fuel 0

/-! ## Occurrences -/

def Occurs (text arg : List UInt8) (s : Nat) : Prop := s ≤ text.length ∧ arg <+: text.drop s

instance (text arg : List UInt8) (s : Nat) : Decidable (Occurs text arg s) :=
  inferInstanceAs (Decidable (_ ∧ _))

def FirstOccurrence (text arg : List UInt8) (s : Nat) : Prop :=
  Occurs text arg s ∧ ∀ earlier, earlier < s → ¬ Occurs text arg earlier

theorem occurs_cons {text arg : List UInt8} {c : UInt8} {s : Nat} :
    Occurs (c :: text) arg (s + 1) ↔ Occurs text arg s := by
  simp [Occurs]

theorem first_occurrence_cons {text arg : List UInt8} {c : UInt8} {s : Nat}
    (absent : ¬ Occurs (c :: text) arg 0) :
    FirstOccurrence (c :: text) arg (s + 1) ↔ FirstOccurrence text arg s := by
  constructor
  · rintro ⟨occurs, first⟩
    refine ⟨occurs_cons.mp occurs, ?_⟩
    intro earlier less earlierOccurs
    exact first (earlier + 1) (by omega) (occurs_cons.mpr earlierOccurs)
  · rintro ⟨occurs, first⟩
    refine ⟨occurs_cons.mpr occurs, ?_⟩
    intro earlier less earlierOccurs
    cases earlier with
    | zero => exact absent earlierOccurs
    | succ earlier => exact first earlier (by omega) (occurs_cons.mp earlierOccurs)

theorem first_offset_spec (text arg : List UInt8) :
    (∀ s, firstOffset arg text = some s ↔ FirstOccurrence text arg s) ∧
      (firstOffset arg text = none ↔ ∀ s, ¬ Occurs text arg s) := by
  induction text with
  | nil =>
      rw [firstOffset]
      split_ifs with isPrefix
      · constructor
        · intro s
          constructor
          · rintro ⟨⟩
            exact ⟨⟨le_rfl, isPrefix⟩, fun earlier less => absurd less (by omega)⟩
          · rintro ⟨⟨short, _⟩, _⟩
            have zero : s = 0 := by simpa using short
            rw [zero]
        · simp only [false_iff, not_forall, not_not]
          exact ⟨0, le_rfl, isPrefix⟩
      · have absent : ∀ s, ¬ Occurs [] arg s := by
          rintro s ⟨_, occurs⟩
          rw [List.drop_nil] at occurs
          exact isPrefix occurs
        constructor
        · intro s
          simp only [false_iff]
          exact fun first => absent s first.1
        · exact ⟨fun _ => absent, fun _ => rfl⟩
  | cons c rest ih =>
      rw [firstOffset]
      split_ifs with isPrefix
      · have here : Occurs (c :: rest) arg 0 := ⟨Nat.zero_le _, isPrefix⟩
        constructor
        · intro s
          constructor
          · rintro ⟨⟩
            exact ⟨here, fun earlier less => absurd less (by omega)⟩
          · rintro ⟨_, first⟩
            cases s with
            | zero => rfl
            | succ s => exact absurd here (first 0 (by omega))
        · simp only [false_iff, not_forall, not_not]
          exact ⟨0, here⟩
      · have absent : ¬ Occurs (c :: rest) arg 0 := fun here => isPrefix here.2
        constructor
        · intro s
          cases s with
          | zero =>
              simp only [Option.map_eq_some_iff, Nat.add_eq_zero_iff, one_ne_zero, and_false,
                exists_false, false_iff]
              exact fun first => absent first.1
          | succ s =>
              rw [first_occurrence_cons absent, ← ih.1 s]
              simp
        · rw [Option.map_eq_none_iff, ih.2]
          constructor
          · intro none s
            cases s with
            | zero => exact absent
            | succ s => exact fun occurs => none s (occurs_cons.mp occurs)
          · intro none s occurs
            exact none (s + 1) (occurs_cons.mpr occurs)

/-- The search from the start of the text. -/
theorem strstr_zero {text arg : List UInt8} : strstr text 0 arg = firstOffset arg text := by
  simp [strstr]

/-- The search from an occurrence finds that occurrence. -/
theorem strstr_occurrence {text arg : List UInt8} {s : Nat} (occurs : Occurs text arg s) :
    strstr text s arg = some s := by
  have here : firstOffset arg (text.drop s) = some 0 := by
    rw [(first_offset_spec _ _).1]
    exact ⟨⟨Nat.zero_le _, by simpa using occurs.2⟩, fun earlier less => absurd less (by omega)⟩
  rw [strstr, here]
  rfl

theorem arg_len_eq (text : List UInt8) :
    argLen text = (text.takeWhile fun c => !isspace c).length := by
  induction text with
  | nil => rfl
  | cons c rest ih =>
      rw [argLen, List.takeWhile_cons]
      cases isspace c with
      | true => rfl
      | false => simp [ih]

/-! ## The answer -/

/-- What the caller wants to know: the position behind the first occurrence that
starts a word and the length of the parameter there, or that there is none. -/
def IsAnswer (text arg : List UInt8) : Option (Nat × Nat) → Prop
  | none => ∀ s, Occurs text arg s → ¬ WordStart text s
  | some (position, length) => ∃ s, Occurs text arg s ∧ WordStart text s ∧
      (∀ earlier, earlier < s → Occurs text arg earlier → ¬ WordStart text earlier) ∧
      position = s + arg.length ∧
      length = ((text.drop position).takeWhile fun c => !isspace c).length

/-- The search comes back with the right answer exactly if the very first
occurrence, if there is one, starts a word. -/
theorem check_arg_answers_iff (text arg : List UInt8) :
    (∃ fuel answer, checkArg fuel (some text) arg = .ok answer ∧ IsAnswer text arg answer) ↔
      ∀ s, FirstOccurrence text arg s → WordStart text s := by
  constructor
  · rintro ⟨fuel, answer, returned, _⟩ s first
    by_contra inWord
    -- the first occurrence is found again in every round
    have found : checkArgRound text arg 0 = .ok (.again s) := by
      rw [checkArgRound, strstr_zero, (first_offset_spec text arg).1 s |>.mpr first]
      simp only [if_neg inWord]
    have again : checkArgRound text arg s = .ok (.again s) := by
      rw [checkArgRound, strstr_occurrence first.1]
      simp only [if_neg inWord]
    have hangs : checkArg fuel (some text) arg = .error .diverges :=
      loop_stuck_again found (loop_forever again .diverges) fuel
    rw [hangs] at returned
    cases returned
  · intro starts
    cases offset : firstOffset arg text with
    | none =>
        have absent := (first_offset_spec text arg).2.mp offset
        refine ⟨1, none, ?_, fun s occurs => absurd occurs (absent s)⟩
        rw [checkArg, loop, checkArgRound, strstr_zero, offset]
    | some s =>
        have first := (first_offset_spec text arg).1 s |>.mp offset
        refine ⟨1, some (s + arg.length, argLen (text.drop (s + arg.length))), ?_, s, first.1,
          starts s first, fun earlier less occurs => absurd occurs (first.2 earlier less), rfl,
          arg_len_eq _⟩
        rw [checkArg, loop, checkArgRound, strstr_zero, offset]
        simp only [if_pos (starts s first)]

/-- `x-mem=1 -mem=2`: the option stands alone, but behind a word that ends with
it. -/
theorem check_arg_hangs :
    let text : List UInt8 := [120, 45, 109, 101, 109, 61, 49, 32, 45, 109, 101, 109, 61, 50]
    let arg : List UInt8 := [45, 109, 101, 109, 61]
    (arg ≠ [] ∧ (∀ c ∈ arg, isspace c = false) ∧ ∀ c ∈ text, c ≠ 0) ∧
      IsAnswer text arg (some (13, 1)) ∧
      ∀ fuel, checkArg fuel (some text) arg = .error .diverges := by
  intro text arg
  refine ⟨by decide +kernel, ?_, ?_⟩
  · refine ⟨8, by decide, by decide, ?_, by decide, by decide⟩
    intro earlier less
    revert earlier
    decide
  · have found : checkArgRound text arg 0 = .ok (.again 1) := rfl
    have again : checkArgRound text arg 1 = .ok (.again 1) := rfl
    exact loop_stuck_again found (loop_forever again .diverges)

end L4Bootstrap
