import Mathlib.Data.Set.Basic

/-!
# Transfers between parts of a memory

A memory is a function from addresses to values. A transfer is an operation on
memories that changes nothing outside of its window and whose result on its
target is determined by what it finds in its source: a copy, a copy with
padding, a decompression. Transfers that run one after the other keep out of
each other's way if no transfer writes to the source of a later one or to the
target of an earlier one; each target then holds what its transfer makes of the
memory at the very beginning.
-/

namespace MemoryTransfer

set_option autoImplicit false

variable {A V : Type}

structure Transfer (A V : Type) where
  run : (A → V) → A → V
  source : Set A
  window : Set A
  target : Set A
  frame : ∀ memory a, a ∉ window → run memory a = memory a
  reads : ∀ memory other, (∀ a ∈ source, memory a = other a) →
    ∀ a ∈ target, run memory a = run other a

/-- `late` may run after `early` as if `early` had not run, and leaves the
result of `early` alone. -/
structure Transfer.KeepsClear (early late : Transfer A V) : Prop where
  source : ∀ a ∈ late.source, a ∉ early.window
  target : ∀ a ∈ early.target, a ∉ late.window

def runAll (transfers : List (Transfer A V)) (memory : A → V) : A → V :=
  transfers.foldl (fun current transfer => transfer.run current) memory

@[simp] theorem run_all_nil (memory : A → V) : runAll [] memory = memory := rfl

@[simp] theorem run_all_cons (transfer : Transfer A V) (rest : List (Transfer A V))
    (memory : A → V) : runAll (transfer :: rest) memory = runAll rest (transfer.run memory) := rfl

theorem run_all_frame {transfers : List (Transfer A V)} {a : A}
    (outside : ∀ transfer ∈ transfers, a ∉ transfer.window) (memory : A → V) :
    runAll transfers memory a = memory a := by
  induction transfers generalizing memory with
  | nil => rfl
  | cons transfer rest ih =>
      rw [run_all_cons, ih (fun other inRest => outside other (by simp [inRest]))]
      exact transfer.frame memory a (outside transfer (by simp))

/-- Each transfer delivers what it would have delivered first. -/
theorem run_all_target {transfers : List (Transfer A V)}
    (clear : transfers.Pairwise Transfer.KeepsClear) {transfer : Transfer A V}
    (member : transfer ∈ transfers) {a : A} (inTarget : a ∈ transfer.target) (memory : A → V) :
    runAll transfers memory a = transfer.run memory a := by
  induction transfers generalizing memory with
  | nil => simp at member
  | cons first rest ih =>
      obtain ⟨firstClear, restClear⟩ := List.pairwise_cons.mp clear
      rw [run_all_cons]
      rcases List.mem_cons.mp member with same | inRest
      · rw [same] at inTarget ⊢
        exact run_all_frame (fun late inRest => (firstClear late inRest).target a inTarget) _
      · rw [ih restClear inRest]
        apply transfer.reads _ _ _ a inTarget
        intro x inSource
        exact first.frame memory x ((firstClear transfer inRest).source x inSource)

end MemoryTransfer
