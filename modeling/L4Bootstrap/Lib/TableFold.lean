import Mathlib.Data.List.Nodup

/-!
# Folds over a table

A state is updated once for each entry of a table. A view of the state that only one
entry of the table changes is changed as by that entry alone.
-/

namespace TableFold

set_option autoImplicit false

variable {σ ι κ β : Type} {step : σ → ι → σ} {key : ι → κ} {table : List ι} {entry : ι}

theorem foldl_frame (view : σ → β) (frame : ∀ other ∈ table, ∀ s, view (step s other) = view s) (s : σ) :
    view (table.foldl step s) = view s := by
  induction table generalizing s with
  | nil => rfl
  | cons first rest ih =>
      rw [List.foldl_cons, ih (fun other member => frame other (List.mem_cons_of_mem _ member))]
      exact frame first List.mem_cons_self s

theorem foldl_own (view : σ → β) (f : β → β) (nodup : (table.map key).Nodup) (member : entry ∈ table)
    (own : ∀ s, view (step s entry) = f (view s))
    (others : ∀ other ∈ table, key other ≠ key entry → ∀ s, view (step s other) = view s)
    (s : σ) : view (table.foldl step s) = f (view s) := by
  induction table generalizing s with
  | nil => cases member
  | cons first rest ih =>
      obtain ⟨fresh, restNodup⟩ := List.nodup_cons.mp nodup
      rw [List.foldl_cons]
      have laterOthers : ∀ other ∈ rest, key other ≠ key entry →
          ∀ s, view (step s other) = view s :=
        fun other later => others other (List.mem_cons_of_mem _ later)
      cases member with
      | head =>
          have frame : ∀ other ∈ rest, ∀ s, view (step s other) = view s := by
            intro other later
            apply laterOthers other later
            intro same
            exact fresh (same ▸ List.mem_map_of_mem later)
          rw [foldl_frame view frame, own]
      | tail _ later =>
          have differs : key first ≠ key entry := fun same =>
            fresh (same ▸ List.mem_map_of_mem later)
          rw [ih restNodup later laterOthers, others first List.mem_cons_self differs]

end TableFold
