import Mathlib.Data.Nat.Basic
import Mathlib.Tactic.Common
import Mathlib.Data.List.Count

/-!
# Computations that can fail, and their endless loops

Inversion of a successful sequence, and `while (1)` loops of a language with
errors: a round of the body fails, leaves the loop with a value, or goes on
with the next loop state. `loop` runs at most `fuel` rounds and reports `stuck`
when they are used up. Two rules are used about it: what holds whenever the
loop returns, and that a decreasing measure makes it return.
-/

namespace CheckedLoop

set_option autoImplicit false

variable {ε σ β : Type}

theorem bind_ok_iff {α : Type} {first : Except ε α} {rest : α → Except ε β} {value : β} :
    (first >>= rest) = .ok value ↔ ∃ mid, first = .ok mid ∧ rest mid = .ok value := by
  cases first with
  | error failure => simp [Bind.bind, Except.bind]
  | ok mid => simp [Bind.bind, Except.bind]

theorem map_ok_iff {α : Type} {first : Except ε α} {f : α → β} {value : β} :
    (f <$> first) = .ok value ↔ ∃ mid, first = .ok mid ∧ f mid = value := by
  cases first with
  | error failure => simp [Functor.map, Except.map]
  | ok mid => simp [Functor.map, Except.map]

@[simp] theorem ok_bind {α : Type} (mid : α) (rest : α → Except ε β) :
    ((Except.ok mid : Except ε α) >>= rest) = rest mid := rfl

@[simp] theorem error_bind {α : Type} (failure : ε) (rest : α → Except ε β) :
    ((Except.error failure : Except ε α) >>= rest) = .error failure := rfl

inductive Round (σ β : Type)
  | again (state : σ)
  | leave (value : β)

def loop (body : σ → Except ε (Round σ β)) (stuck : ε) : Nat → σ → Except ε β
  | 0, _ => .error stuck
  | fuel + 1, state =>
      match body state with
      | .error failure => .error failure
      | .ok (.leave value) => .ok value
      | .ok (.again next) => loop body stuck fuel next

/-- Partial correctness: whatever the fuel, a returned value was left by a
round whose state satisfies the invariant. -/
theorem loop_returns (body : σ → Except ε (Round σ β)) (stuck : ε) (Inv : σ → Prop)
    (step : ∀ state next, Inv state → body state = .ok (.again next) → Inv next)
    {fuel : Nat} {state : σ} {value : β} (start : Inv state)
    (returned : loop body stuck fuel state = .ok value) :
    ∃ last, Inv last ∧ body last = .ok (.leave value) := by
  induction fuel generalizing state with
  | zero => cases returned
  | succ fuel ih =>
      rw [loop] at returned
      cases round : body state with
      | error failure => simp [round] at returned
      | ok outcome =>
          cases outcome with
          | leave left =>
              simp only [round, Except.ok.injEq] at returned
              exact ⟨state, start, by rw [round, returned]⟩
          | again next =>
              simp only [round] at returned
              exact ih (step state next start round) returned

/-- Total correctness: under an invariant indexed by a number, a round leaves
with `Post` or goes on at a smaller index; then the loop returns. -/
theorem loop_descends (body : σ → Except ε (Round σ β)) (stuck : ε) (Inv : Nat → σ → Prop)
    (Post : β → Prop)
    (step : ∀ index state, Inv index state → (∃ value, body state = .ok (.leave value) ∧ Post value) ∨
      ∃ next smaller, body state = .ok (.again next) ∧ smaller < index ∧ Inv smaller next)
    {fuel index : Nat} {state : σ} (start : Inv index state) (enough : index < fuel) :
    ∃ value, loop body stuck fuel state = .ok value ∧ Post value := by
  induction fuel generalizing index state with
  | zero => omega
  | succ fuel ih =>
      rw [loop]
      rcases step index state start with ⟨value, left, post⟩ | ⟨next, smaller, again, less, kept⟩
      · exact ⟨value, by simp only [left], post⟩
      · obtain ⟨value, returned, post⟩ := ih kept (by omega)
        exact ⟨value, by simp only [again, returned], post⟩

/-- `loop_descends` with a measure of the state as the index. -/
theorem loop_total (body : σ → Except ε (Round σ β)) (stuck : ε) (Inv : σ → Prop)
    (Post : β → Prop) (measure : σ → Nat)
    (step : ∀ state, Inv state → (∃ value, body state = .ok (.leave value) ∧ Post value) ∨
      ∃ next, body state = .ok (.again next) ∧ Inv next ∧ measure next < measure state)
    {fuel : Nat} {state : σ} (start : Inv state) (enough : measure state < fuel) :
    ∃ value, loop body stuck fuel state = .ok value ∧ Post value := by
  apply loop_descends body stuck (fun index state => Inv state ∧ measure state = index) Post
    _ ⟨start, rfl⟩ enough
  rintro index state ⟨inv, rfl⟩
  rcases step state inv with left | ⟨next, again, kept, less⟩
  · exact .inl left
  · exact .inr ⟨next, measure next, again, less, kept, rfl⟩

/-- A loop that goes on to a state from which it never returns. -/
theorem loop_stuck_again {body : σ → Except ε (Round σ β)} {stuck : ε} {state next : σ}
    (again : body state = .ok (.again next))
    (never : ∀ fuel, loop body stuck fuel next = .error stuck) (fuel : Nat) :
    loop body stuck fuel state = .error stuck := by
  cases fuel with
  | zero => rfl
  | succ fuel =>
      rw [loop]
      simp only [again, never]

/-- A round that comes back to its own state never ends. -/
theorem loop_forever {body : σ → Except ε (Round σ β)} {state : σ}
    (same : body state = .ok (.again state)) (stuck : ε) (fuel : Nat) :
    loop body stuck fuel state = .error stuck := by
  induction fuel with
  | zero => rfl
  | succ fuel ih =>
      rw [loop]
      simp only [same, ih]

/-- More fuel does not change what a loop returns. -/
theorem loop_more_fuel {body : σ → Except ε (Round σ β)} {stuck : ε} {fuel more : Nat} {state : σ}
    {value : β} (returned : loop body stuck fuel state = .ok value) (le : fuel ≤ more) :
    loop body stuck more state = .ok value := by
  induction fuel generalizing more state with
  | zero => cases returned
  | succ fuel ih =>
      cases more with
      | zero => omega
      | succ more =>
          rw [loop] at returned ⊢
          cases round : body state with
          | error failure =>
              rw [round] at returned
              cases returned
          | ok outcome =>
              rw [round] at returned
              cases outcome with
              | leave left => exact returned
              | again next => exact ih returned (by omega)

/-- A measure for loops that go through the entries of a list: the count of a
condition that is strictly narrower at one member. -/
theorem count_lt_of_narrower {α : Type} {p q : α → Bool} {items : List α} {x : α}
    (narrower : ∀ y ∈ items, p y = true → q y = true) (member : x ∈ items)
    (out : p x = false) (into : q x = true) : items.countP p < items.countP q := by
  induction items with
  | nil => simp at member
  | cons y rest ih =>
      have restNarrower : ∀ y ∈ rest, p y = true → q y = true :=
        fun y inRest => narrower y (by simp [inRest])
      have le := List.countP_mono_left restNarrower
      rcases List.mem_cons.mp member with rfl | inRest
      · simp only [List.countP_cons, out, into, if_true, Bool.false_eq_true, if_false]
        omega
      · have less := ih restNarrower inRest
        have head := narrower y (by simp)
        simp only [List.countP_cons]
        cases py : p y with
        | false =>
            simp only [Bool.false_eq_true, if_false]
            split_ifs <;> omega
        | true =>
            simp only [head py, if_true]
            omega

end CheckedLoop

/-! ## Computations with a state

The state survives a failure, so that one can say what a failed computation has
done before it stopped.
-/

namespace CheckedState

set_option autoImplicit false

variable {ε σ α β : Type}

theorem bind_ok_iff {first : EStateM ε σ α} {rest : α → EStateM ε σ β} {value : β}
    {before after : σ} :
    (first >>= rest) before = .ok value after ↔
      ∃ mid between, first before = .ok mid between ∧ rest mid between = .ok value after := by
  change EStateM.bind first rest before = _ ↔ _
  unfold EStateM.bind
  cases first before with
  | ok mid between => simp
  | error failure between => simp

/-- A computation that does not look at the state. -/
def lift (result : Except ε α) : EStateM ε σ α := fun state =>
  match result with
  | .ok value => .ok value state
  | .error failure => .error failure state

theorem lift_ok_iff {result : Except ε α} {value : α} {before after : σ} :
    lift result before = .ok value after ↔ result = .ok value ∧ after = before := by
  unfold lift
  cases result with
  | ok other =>
      simp only [EStateM.Result.ok.injEq, Except.ok.injEq]
      tauto
  | error failure => simp

def succeeds : EStateM.Result ε σ α → Bool
  | .ok _ _ => true
  | .error _ _ => false

theorem exists_of_succeeds {result : EStateM.Result ε σ Unit} (ok : succeeds result = true) :
    ∃ after, result = .ok () after := by
  cases result with
  | ok value after => exact ⟨after, rfl⟩
  | error failure after => cases ok

/-- What can be seen of the state after a computation that got to its end. -/
def observe (f : σ → β) : EStateM.Result ε σ α → Option β
  | .ok _ after => some (f after)
  | .error _ _ => none

theorem exists_of_observe {result : EStateM.Result ε σ Unit} {f : σ → β} {seen : β}
    (observed : observe f result = some seen) : ∃ after, result = .ok () after ∧ f after = seen := by
  cases result with
  | ok value after =>
      cases observed
      exact ⟨after, rfl, rfl⟩
  | error failure after => cases observed

/-- The value of a computation that got to its end. -/
def answer : EStateM.Result ε σ α → Option α
  | .ok value _ => some value
  | .error _ _ => none

theorem exists_of_answer {result : EStateM.Result ε σ α} {value : α}
    (answered : answer result = some value) : ∃ after, result = .ok value after := by
  cases result with
  | ok other after =>
      cases answered
      exact ⟨after, rfl⟩
  | error failure after => cases answered

theorem get_bind (rest : σ → EStateM ε σ β) (state : σ) :
    ((get : EStateM ε σ σ) >>= rest) state = rest state state := rfl

theorem modify_ok_iff {f : σ → σ} {value : PUnit} {before after : σ} :
    (modify f : EStateM ε σ PUnit) before = .ok value after ↔ after = f before := by
  change EStateM.Result.ok PUnit.unit (f before) = _ ↔ _
  simp only [EStateM.Result.ok.injEq]
  tauto

theorem pure_ok_iff {value other : α} {before after : σ} :
    (pure value : EStateM ε σ α) before = .ok other after ↔ other = value ∧ after = before := by
  change EStateM.Result.ok value before = _ ↔ _
  simp only [EStateM.Result.ok.injEq]
  tauto

end CheckedState
