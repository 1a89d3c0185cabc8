import L4Bootstrap.CheckArg
import Mathlib.Data.List.GetD

/-!
# Options that may be given several times

`setup_memory_map`, `setup_sysalloc_map` and `setup_kmem_areas` of `startup.cc` share
one loop, `for (int arg_len = 0; (s = check_arg(s, "-mem=", &arg_len));)`: the next
search starts behind the option found last, where `check_arg` takes the pointer that
it is given for the start of a command line. If the option only occurs at the start of
a word, the loop is a fold over the texts behind its occurrences.
-/

namespace L4Bootstrap

open CheckedLoop

set_option autoImplicit false

variable {σ : Type}

/-- The condition of the loop and its body, on the pointer `s` and what the body
changes. The body reads the text at `s` and `arg_len`. -/
def argRound (fuel : Nat) (arg : List UInt8) (body : List UInt8 → Nat → σ → Checked σ)
    (state : Option (List UInt8) × σ) : Checked (Round (Option (List UInt8) × σ) σ) := do
  match ← checkArg fuel state.1 arg with
  | none => .ok (.leave state.2)
  | some (position, argLen) => do
      let s := (state.1.getD []).drop position
      let changed ← body s argLen state.2
      .ok (.again (some s, changed))

/-- The loop, with `fuel` for its own rounds and for those of `check_arg`. -/
def forEachArg (fuel : Nat) (arg : List UInt8) (body : List UInt8 → Nat → σ → Checked σ)
    (cmdline : Option (List UInt8)) (start : σ) : Checked σ :=
  loop (argRound fuel arg body) .diverges fuel (cmdline, start)

/-- The texts behind all occurrences of the option, in their order. -/
def parameters (arg : List UInt8) : List UInt8 → List (List UInt8)
  | [] => []
  | c :: rest =>
      if arg <+: c :: rest then (c :: rest).drop arg.length :: parameters arg rest
      else parameters arg rest

/-- Nothing that can be told from an option but one that starts a word. -/
structure PlainOption (arg : List UInt8) : Prop where
  nonempty : arg ≠ []
  oneWord : ∀ c ∈ arg, isspace c = false

/-- The option is written at the start of words only. -/
def StartsWords (text arg : List UInt8) : Prop := ∀ s, Occurs text arg s → WordStart text s

variable {text arg : List UInt8}

/-- The text behind some position, searched on its own. -/
theorem StartsWords.drop (starts : StartsWords text arg) (n : Nat) :
    StartsWords (text.drop n) arg := by
  intro s occurs
  have inText : Occurs text arg (n + s) ∨ text.length < n + s := by
    by_cases short : n + s ≤ text.length
    · left
      exact ⟨short, by simpa [List.drop_drop] using occurs.2⟩
    · exact .inr (by omega)
  rcases inText with inText | behind
  · rcases starts (n + s) inText with zero | blank
    · exact .inl (by omega)
    · by_cases first : s = 0
      · exact .inl first
      · right
        rw [List.getD_eq_getElem?_getD, List.getElem?_drop, ← List.getD_eq_getElem?_getD]
        have index : n + (s - 1) = n + s - 1 := by omega
        rw [index]
        exact blank
  · have short := occurs.1
    rw [List.length_drop] at short
    exact .inl (by omega)

theorem parameters_of_absent (absent : ∀ s, ¬ Occurs text arg s) : parameters arg text = [] := by
  induction text with
  | nil => rfl
  | cons c rest ih =>
      have notHere : ¬ arg <+: c :: rest := fun isPrefix =>
        absent 0 ⟨Nat.zero_le _, by simpa using isPrefix⟩
      rw [parameters, if_neg notHere]
      apply ih
      intro s occurs
      exact absent (s + 1) (occurs_cons.mpr occurs)

/-- Skipping a part in which the option does not start. -/
theorem parameters_skip (n : Nat) (absent : ∀ s, s < n → ¬ Occurs text arg s) :
    parameters arg text = parameters arg (text.drop n) := by
  induction n generalizing text with
  | zero => rfl
  | succ n ih =>
      cases text with
      | nil => rfl
      | cons c rest =>
          have notHere : ¬ arg <+: c :: rest := fun isPrefix =>
            absent 0 (by omega) ⟨Nat.zero_le _, by simpa using isPrefix⟩
          rw [parameters, if_neg notHere, List.drop_succ_cons]
          apply ih
          intro s less occurs
          exact absent (s + 1) (by omega) (occurs_cons.mpr occurs)

/-- An option does not start inside of itself. -/
theorem not_inside (plain : PlainOption arg) (starts : StartsWords text arg) {s inside : Nat}
    (occurs : Occurs text arg s) (pos : 0 < inside) (le : inside < arg.length) :
    ¬ Occurs text arg (s + inside) := by
  intro again
  rcases starts (s + inside) again with zero | blank
  · omega
  · have sameByte : text.getD (s + inside - 1) 0 = arg.getD (inside - 1) 0 := by
      obtain ⟨behind, whole⟩ := occurs.2
      have index : s + inside - 1 = s + (inside - 1) := by omega
      rw [List.getD_eq_getElem?_getD, List.getD_eq_getElem?_getD, index, ← List.getElem?_drop,
        ← whole, List.getElem?_append_left (by omega)]
    have member : arg.getD (inside - 1) 0 ∈ arg := by
      rw [List.getD_eq_getElem _ _ (by omega)]
      exact List.getElem_mem _
    rw [sameByte, plain.oneWord _ member] at blank
    cases blank

/-- The first occurrence gives the first parameter, the others are behind it. -/
theorem parameters_of_first (plain : PlainOption arg) (starts : StartsWords text arg) {s : Nat}
    (first : FirstOccurrence text arg s) :
    parameters arg text =
      text.drop (s + arg.length) :: parameters arg (text.drop (s + arg.length)) := by
  have long : 0 < arg.length := List.length_pos_iff.mpr plain.nonempty
  have here : arg <+: text.drop s := first.1.2
  rw [parameters_skip s first.2]
  cases found : text.drop s with
  | nil =>
      rw [found] at here
      exact absurd (List.prefix_nil.mp here) plain.nonempty
  | cons c rest =>
      rw [found] at here
      have behind : rest.drop (arg.length - 1) = text.drop (s + arg.length) := by
        rw [← List.drop_drop, found]
        cases size : arg.length with
        | zero => omega
        | succ n => rfl
      rw [parameters, if_pos here, parameters_skip (arg.length - 1), behind, ← List.drop_drop, found]
      intro inside less occurs
      apply not_inside plain starts first.1 (Nat.succ_pos inside) (by omega)
      refine ⟨?_, ?_⟩
      · have short := first.1.1
        have size := congrArg List.length found
        have bound := occurs.1
        rw [List.length_drop, List.length_cons] at size
        omega
      · rw [← List.drop_drop, found]
        exact occurs.2

/-- One round: the loop is left, or the body gets the first parameter. -/
theorem arg_round_spec (fuel : Nat) (body : List UInt8 → Nat → σ → Checked σ) (st : σ)
    (plain : PlainOption arg) (starts : StartsWords text arg) :
    (parameters arg text = [] ∧ argRound (fuel + 1) arg body (some text, st) = .ok (.leave st)) ∨
      ∃ s, parameters arg text = s :: parameters arg s ∧ s.length < text.length ∧
        StartsWords s arg ∧
        argRound (fuel + 1) arg body (some text, st) = (do
          let changed ← body s (argLen s) st
          .ok (.again (some s, changed))) := by
  cases offset : firstOffset arg text with
  | none =>
      left
      refine ⟨parameters_of_absent ((first_offset_spec text arg).2.mp offset), ?_⟩
      rw [argRound, checkArg, loop, checkArgRound, strstr_zero, offset]
      rfl
  | some s =>
      right
      have first := (first_offset_spec text arg).1 s |>.mp offset
      have long : 0 < arg.length := List.length_pos_iff.mpr plain.nonempty
      have fits : s + arg.length ≤ text.length := by
        have size := first.1.2.length_le
        have short := first.1.1
        rw [List.length_drop] at size
        omega
      refine ⟨text.drop (s + arg.length), parameters_of_first plain starts first, ?_,
        starts.drop _, ?_⟩
      · rw [List.length_drop]
        omega
      · rw [argRound, checkArg, loop, checkArgRound, strstr_zero, offset]
        simp only [if_pos (starts s first.1), ok_bind, Option.getD_some]

theorem arg_loop_folds (fuel : Nat) (body : List UInt8 → Nat → σ → Checked σ)
    (plain : PlainOption arg) (starts : StartsWords text arg) (st : σ) {rounds : Nat}
    (enough : text.length < rounds) :
    loop (argRound (fuel + 1) arg body) .diverges rounds (some text, st) =
      (parameters arg text).foldlM (fun st s => body s (argLen s) st) st := by
  induction rounds generalizing text st with
  | zero => omega
  | succ rounds ih =>
      rw [loop]
      rcases arg_round_spec fuel body st plain starts with ⟨none, round⟩ | ⟨s, next, less, rest, round⟩
      · rw [round, none]
        rfl
      · rw [round, next, List.foldlM_cons]
        cases step : body s (argLen s) st with
        | error failure => rfl
        | ok changed =>
            simp only [ok_bind]
            exact ih rest changed (by omega)

/-- The loop over an option that is only written at the start of words: its body runs
once for each occurrence, from left to right. -/
theorem for_each_arg_folds (fuel : Nat) (body : List UInt8 → Nat → σ → Checked σ)
    (plain : PlainOption arg) (starts : StartsWords text arg) (st : σ)
    (enough : text.length < fuel) :
    forEachArg fuel arg body (some text) st =
      (parameters arg text).foldlM (fun st s => body s (argLen s) st) st := by
  cases fuel with
  | zero => omega
  | succ fuel => exact arg_loop_folds fuel body plain starts st enough

end L4Bootstrap
