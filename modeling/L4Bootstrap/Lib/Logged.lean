import L4Bootstrap.Lib.Checked
import L4Bootstrap.Lib.ByteImage

/-!
# Computations with a log

A computation that may fail, with what it has done so far: the log ends with the
last action in front of the failure. For programs that read memory the actions are
the areas that are read. `scan` is a `while` loop of such computations.
-/

namespace LoggedRun

open CheckedLoop ByteMemory

set_option autoImplicit false

structure Logged (ρ ε α : Type) where
  log : List ρ
  result : Except ε α
  deriving Repr

variable {ρ ε α β σ : Type}

instance : Monad (Logged ρ ε) where
  pure value := ⟨[], .ok value⟩
  bind first rest :=
    match first.result with
    | .ok value => ⟨first.log ++ (rest value).log, (rest value).result⟩
    | .error failure => ⟨first.log, .error failure⟩

def fail (failure : ε) : Logged ρ ε α := ⟨[], .error failure⟩

def tell (entry : ρ) (value : α) : Logged ρ ε α := ⟨[entry], .ok value⟩

/-- A little-endian number of `n` bytes is read from memory. -/
def readAt (bytes : Bytes) (p n : Nat) : Logged (Nat × Nat) ε Nat := tell (p, n) (readLe bytes p n)

@[simp] theorem pure_log (value : α) : (pure value : Logged ρ ε α).log = [] := rfl

@[simp] theorem pure_result (value : α) : (pure value : Logged ρ ε α).result = .ok value := rfl

@[simp] theorem fail_log (failure : ε) : (fail failure : Logged ρ ε α).log = [] := rfl

@[simp] theorem fail_result (failure : ε) : (fail failure : Logged ρ ε α).result = .error failure :=
  rfl

@[simp] theorem tell_bind (entry : ρ) (value : α) (rest : α → Logged ρ ε β) :
    tell entry value >>= rest = ⟨entry :: (rest value).log, (rest value).result⟩ := rfl

@[simp] theorem read_at_bind (bytes : Bytes) (p n : Nat) (rest : Nat → Logged (Nat × Nat) ε β) :
    readAt bytes p n >>= rest =
      ⟨(p, n) :: (rest (readLe bytes p n)).log, (rest (readLe bytes p n)).result⟩ := rfl

theorem bind_of_ok {first : Logged ρ ε α} {value : α} (ok : first.result = .ok value)
    (rest : α → Logged ρ ε β) :
    first >>= rest = ⟨first.log ++ (rest value).log, (rest value).result⟩ := by
  change (match first.result with
    | .ok value => (⟨first.log ++ (rest value).log, (rest value).result⟩ : Logged ρ ε β)
    | .error failure => ⟨first.log, .error failure⟩) = _
  rw [ok]

theorem bind_of_error {first : Logged ρ ε α} {failure : ε} (error : first.result = .error failure)
    (rest : α → Logged ρ ε β) : first >>= rest = ⟨first.log, .error failure⟩ := by
  change (match first.result with
    | .ok value => (⟨first.log ++ (rest value).log, (rest value).result⟩ : Logged ρ ε β)
    | .error failure => ⟨first.log, .error failure⟩) = _
  rw [error]

/-- At most `fuel` rounds; `stuck` when they are used up. -/
def scan (body : σ → Logged ρ ε (Round σ β)) (stuck : ε) : Nat → σ → Logged ρ ε β
  | 0, _ => fail stuck
  | fuel + 1, state => do
      match ← body state with
      | .leave value => pure value
      | .again next => scan body stuck fuel next

section

variable {body : σ → Logged ρ ε (Round σ β)} {stuck : ε} {fuel : Nat} {state next : σ}

theorem scan_leave {value : β} (left : (body state).result = .ok (.leave value)) :
    scan body stuck (fuel + 1) state = ⟨(body state).log, .ok value⟩ := by
  rw [scan, bind_of_ok left]
  simp

theorem scan_again (again : (body state).result = .ok (.again next)) :
    scan body stuck (fuel + 1) state =
      ⟨(body state).log ++ (scan body stuck fuel next).log, (scan body stuck fuel next).result⟩ := by
  rw [scan, bind_of_ok again]

/-- Total correctness: a round leaves with `Post`, or goes on at a smaller measure; its log is
within `Allowed` in both cases. -/
theorem scan_total {Inv : σ → Prop} {Post : β → Prop} {Allowed : ρ → Prop} (measure : σ → Nat)
    (step : ∀ state, Inv state → (∀ entry ∈ (body state).log, Allowed entry) ∧
      ((∃ value, (body state).result = .ok (.leave value) ∧ Post value) ∨
        ∃ next, (body state).result = .ok (.again next) ∧ Inv next ∧ measure next < measure state))
    (start : Inv state) (enough : measure state < fuel) :
    (∃ value, (scan body stuck fuel state).result = .ok value ∧ Post value) ∧
      ∀ entry ∈ (scan body stuck fuel state).log, Allowed entry := by
  induction fuel generalizing state with
  | zero => omega
  | succ fuel ih =>
      obtain ⟨allowed, outcome⟩ := step state start
      rcases outcome with ⟨value, left, post⟩ | ⟨next, again, kept, less⟩
      · rw [scan_leave left]
        exact ⟨⟨value, rfl, post⟩, allowed⟩
      · rw [scan_again again]
        obtain ⟨returned, later⟩ := ih kept (by omega)
        refine ⟨returned, fun entry member => ?_⟩
        rcases List.mem_append.mp member with inRound | inRest
        · exact allowed entry inRound
        · exact later entry inRest

/-- Partial correctness: what is returned satisfies `Post`, and without enough fuel nothing is. -/
theorem scan_returns {Inv : σ → Prop} {Post : β → Prop}
    (step : ∀ state, Inv state → (∃ value, (body state).result = .ok (.leave value) ∧ Post value) ∨
      ∃ next, (body state).result = .ok (.again next) ∧ Inv next) (start : Inv state) :
    (scan body stuck fuel state).result = .error stuck ∨
      ∃ value, (scan body stuck fuel state).result = .ok value ∧ Post value := by
  induction fuel generalizing state with
  | zero => exact .inl rfl
  | succ fuel ih =>
      rcases step state start with ⟨value, left, post⟩ | ⟨next, again, kept⟩
      · rw [scan_leave left]
        exact .inr ⟨value, rfl, post⟩
      · rw [scan_again again]
        exact ih kept

/-- A loop whose rounds either log something that is not allowed or go on never ends within what
is allowed. -/
theorem scan_never {Inv : σ → Prop} {Allowed : ρ → Prop}
    (step : ∀ state, Inv state → (∀ entry ∈ (body state).log, Allowed entry) →
      ∃ next, (body state).result = .ok (.again next) ∧ Inv next)
    (start : Inv state) (allowed : ∀ entry ∈ (scan body stuck fuel state).log, Allowed entry)
    (value : β) : (scan body stuck fuel state).result ≠ .ok value := by
  induction fuel generalizing state with
  | zero => simp [scan]
  | succ fuel ih =>
      have inRound : ∀ entry ∈ (body state).log, Allowed entry := by
        intro entry member
        apply allowed
        rw [scan]
        cases outcome : (body state).result with
        | ok round =>
            rw [bind_of_ok outcome]
            exact List.mem_append_left _ member
        | error failure =>
            rw [bind_of_error outcome]
            exact member
      obtain ⟨next, again, kept⟩ := step state start inRound
      rw [scan_again again] at allowed ⊢
      exact ih kept fun entry member => allowed entry (List.mem_append_right _ member)

/-- What a scan returns does not depend on its fuel. -/
theorem scan_unique {value other : β} {more : Nat}
    (first : (scan body stuck fuel state).result = .ok value)
    (second : (scan body stuck more state).result = .ok other) : value = other := by
  induction fuel generalizing state more with
  | zero => cases first
  | succ fuel ih =>
      cases more with
      | zero => cases second
      | succ more =>
          cases round : (body state).result with
          | error failure =>
              rw [scan, bind_of_error round] at first
              cases first
          | ok outcome =>
              cases outcome with
              | leave left =>
                  rw [scan_leave round] at first second
                  cases first
                  cases second
                  rfl
              | again next =>
                  rw [scan_again round] at first second
                  exact ih first second

end

end LoggedRun
