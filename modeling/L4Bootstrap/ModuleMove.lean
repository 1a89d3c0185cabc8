import L4Bootstrap.Modules
import Mathlib.Data.List.GetD
import Mathlib.Algebra.BigOperators.Ring.List

/-!
# Moving modules keeps their contents

`move_modules` packs the modules into consecutive page-rounded slots, in the
order of their addresses. Every single move is a transfer that writes only to
its slot. The modules that move up go first, from the last one down, then the
modules that move down, from the first one up: in this order no move writes to
a module that is still to be moved.
-/

namespace L4Bootstrap

open MachineWord CheckedState ByteMemory MemoryTransfer

set_option autoImplicit false

variable {W : Wordsize}

/-! ## One move -/

/-- What `_move_module` does to memory. -/
def movedBytes (W : Wordsize) (dest src size : Nat) (bytes : Bytes) : Bytes :=
  if src = dest then bytes else moveBytes W dest src size bytes

/-- The effect of a successful `move_module`. -/
structure ModuleMoved (mode : BootMode) (index dest : Nat) (s t : Machine W) : Prop where
  reserved : ∃ region, Region.startSize dest (s.module index).size
      (movedAttr mode (s.module index).flag) = .ok region ∧
    s.memory.regions.add region = .ok t.memory.regions
  bytes : t.bytes = movedBytes W dest (s.module index).start (s.module index).size s.bytes
  mods : t.mods = s.mods.set index { s.module index with start := dest }
  memory : t.memory = { s.memory with regions := t.memory.regions }
  sorter : t.sorter = s.sorter

theorem update_regions_ok {f : RegionList W → Checked (RegionList W)} {s t : Machine W}
    (ran : updateRegions f s = .ok () t) :
    ∃ regions, f s.memory.regions = .ok regions ∧
      t = s.withRegions regions := by
  simp only [updateRegions, CheckedState.bind_ok_iff, get_bind, lift_ok_iff, modify_ok_iff] at ran
  obtain ⟨regions, _, ⟨made, rfl⟩, rfl⟩ := ran
  exact ⟨regions, made, rfl⟩

theorem add_region_ok {start size : Nat} {attr : Attr} {s t : Machine W}
    (ran : addRegion start size attr s = .ok () t) :
    ∃ region regions, Region.startSize start size attr = .ok region ∧
      s.memory.regions.add region = .ok regions ∧
      t = s.withRegions regions := by
  simp only [addRegion, CheckedState.bind_ok_iff, lift_ok_iff] at ran
  obtain ⟨region, _, ⟨made, rfl⟩, ran⟩ := ran
  obtain ⟨regions, added, same⟩ := update_regions_ok ran
  exact ⟨region, regions, made, added, same⟩

theorem stop_not_ok {α : Type} {message : String} {s t : Machine W} {value : α} :
    ¬ (stop message : Run W α) s = .ok value t := by
  intro ran
  cases ran

theorem move_module_to_ok {dest src size : Nat} {attr : Attr} {s t : Machine W}
    (ran : moveModuleTo dest src size attr s = .ok () t) :
    ∃ region regions, Region.startSize dest size attr = .ok region ∧
      s.memory.regions.add region = .ok regions ∧
      t = { s with bytes := movedBytes W dest src size s.bytes }.withRegions regions := by
  unfold moveModuleTo at ran
  unfold movedBytes
  split_ifs at ran ⊢ with inPlace
  · exact add_region_ok ran
  · simp only [get_bind] at ran
    split_ifs at ran
    · exact absurd ran stop_not_ok
    · exact absurd ran stop_not_ok
    · simp only [CheckedState.bind_ok_iff, updateBytes, modify_ok_iff] at ran
      obtain ⟨_, _, rfl, ran⟩ := ran
      exact add_region_ok ran

theorem move_module_moved {mode : BootMode} {index dest : Nat} {s t : Machine W}
    (ran : moveModule mode index dest s = .ok () t) : ModuleMoved mode index dest s t := by
  simp only [moveModule, get_bind, CheckedState.bind_ok_iff] at ran
  obtain ⟨_, u, moved, _, v, checked, updated⟩ := ran
  have same : v = u := by
    cases mode with
    | image => exact (pure_ok_iff.mp checked).2
    | multiboot archCpuFw =>
        simp only [checkDestination, CheckedState.bind_ok_iff, lift_ok_iff] at checked
        obtain ⟨_, _, ⟨_, rfl⟩, _, rfl⟩ := checked
        rfl
  obtain ⟨region, regions, made, added, rfl⟩ := move_module_to_ok moved
  rw [updateModule, modify_ok_iff] at updated
  subst same updated
  exact ⟨⟨region, made, added⟩, rfl, rfl, rfl, rfl⟩

namespace ModuleMoved

variable {mode : BootMode} {index dest : Nat} {s t : Machine W}

theorem length (moved : ModuleMoved mode index dest s t) : t.mods.length = s.mods.length := by
  rw [moved.mods, List.length_set]

theorem others (moved : ModuleMoved mode index dest s t) {other : Nat} (apart : other ≠ index) :
    t.module other = s.module other := by
  rw [Machine.module, Machine.module, moved.mods]
  simp only [List.getD_eq_getElem?_getD]
  rw [List.getElem?_set_ne (Ne.symm apart)]

theorem itself (moved : ModuleMoved mode index dest s t) (inside : index < s.mods.length) :
    t.module index = { s.module index with start := dest } := by
  rw [Machine.module, moved.mods]
  simp only [List.getD_eq_getElem?_getD]
  rw [List.getElem?_set_self inside, Option.getD_some]

theorem size (moved : ModuleMoved mode index dest s t) (other : Nat) :
    (t.module other).size = (s.module other).size := by
  rcases eq_or_ne other index with rfl | apart
  · rcases Nat.lt_or_ge other s.mods.length with inside | outside
    · rw [moved.itself inside]
    · rw [Machine.module, Machine.module, moved.mods, List.set_eq_of_length_le outside]
  · rw [moved.others apart]

theorem isBaseModule (moved : ModuleMoved mode index dest s t) (other : Nat) :
    (t.module other).isBaseModule = (s.module other).isBaseModule := by
  rcases eq_or_ne other index with rfl | apart
  · rcases Nat.lt_or_ge other s.mods.length with inside | outside
    · rw [moved.itself inside]
      rfl
    · rw [Machine.module, Machine.module, moved.mods, List.set_eq_of_length_le outside]
  · rw [moved.others apart]

/-- The region of a moved module. -/
theorem region (moved : ModuleMoved mode index dest s t)
    (small : (s.module index).size < W.modulus) :
    ∃ region, region.begin = dest ∧ region.last = dest + (s.module index).size - 1 ∧
      region.attr = movedAttr mode (s.module index).flag ∧
      s.memory.regions.add region = .ok t.memory.regions := by
  obtain ⟨region, made, added⟩ := moved.reserved
  obtain ⟨_, begins, ends, attr⟩ := Region.start_size_last made small
  exact ⟨region, begins, ends, attr, added⟩

end ModuleMoved

/-! ## A sequence of moves -/

/-- The moves of a plan, one after the other; a plan pairs module indexes with
destinations. -/
inductive Moves (mode : BootMode) : Machine W → List (Nat × Nat) → Machine W → Prop
  | nil (s : Machine W) : Moves mode s [] s
  | cons {s u t : Machine W} {index dest : Nat} {rest : List (Nat × Nat)} :
      ModuleMoved mode index dest s u → Moves mode u rest t →
      Moves mode s ((index, dest) :: rest) t

/-- The transfer of one planned move, from the addresses in `s`. -/
def planTransfer (s : Machine W) (move : Nat × Nat) : Transfer Nat UInt8 :=
  moveTransfer (s.module move.1).start move.2 (s.module move.1).size
    (pageUp (s.module move.1).size - (s.module move.1).size)

/-- The rest of the last page behind `x`, as `_move_module` computes it. -/
theorem round_page_rest {x : Nat} (fits : x ≤ W.modulus) :
    W.sub (roundPage W (x % W.modulus)) (x % W.modulus) = pageUp x - x := by
  have wholePage : pageUp W.modulus = W.modulus :=
    round_up_of_dvd (W.pow_dvd_modulus (page_shift_le_bits W))
  have modulusPos := W.modulus_pos
  rcases Nat.lt_or_eq_of_le fits with below | top
  · have above : x ≤ pageUp x := le_round_up pageShift x
    have pageFits : pageUp x ≤ W.modulus := by
      rw [← wholePage]
      exact round_up_mono fits
    rw [Nat.mod_eq_of_lt below, roundPage, W.round_size_mod (page_shift_le_bits W)]
    change W.sub (pageUp x % W.modulus) x = _
    rcases Nat.lt_or_eq_of_le pageFits with inside | reached
    · rw [Nat.mod_eq_of_lt inside, W.sub_of_le above inside]
    · rw [reached, Nat.mod_self, Wordsize.sub, Nat.mod_eq_of_lt]
      · omega
      · have : 0 < x := by
          by_contra zero
          have none : x = 0 := by omega
          rw [none] at reached
          have : pageUp 0 = 0 := round_up_of_dvd (Nat.dvd_zero _)
          omega
        omega
  · rw [top, Nat.mod_self, wholePage, Nat.sub_self, roundPage,
      W.round_size_mod (page_shift_le_bits W), round_up_of_dvd (Nat.dvd_zero _), Nat.zero_mod,
      W.sub_of_le le_rfl modulusPos]

/-- A move to a page boundary is the transfer that pads the last page. -/
theorem moved_bytes_eq {dest src size : Nat} (aligned : 2 ^ pageShift ∣ dest)
    (fits : dest + size ≤ W.modulus) (bytes : Bytes) :
    movedBytes W dest src size bytes =
      (moveTransfer src dest size (pageUp size - size)).run bytes := by
  change (if src = dest then bytes else moveBytes W dest src size bytes) =
    if src = dest then bytes else memset (dest + size) 0 (pageUp size - size) _
  split_ifs with inPlace
  · rfl
  · have pages : pageUp (dest + size) - (dest + size) = pageUp size - size := by
      have : pageUp (dest + size) = dest + pageUp size := round_up_add aligned
      omega
    have rest := round_page_rest fits
    rw [pages] at rest
    unfold moveBytes
    simp only [Wordsize.add, rest]
    rcases Nat.lt_or_eq_of_le fits with below | top
    · rw [Nat.mod_eq_of_lt below]
    · -- the module ends with the address space, and nothing is left to pad
      have none : pageUp size - size = 0 := by
        rw [← pages, top]
        have : pageUp W.modulus = W.modulus :=
          round_up_of_dvd (W.pow_dvd_modulus (page_shift_le_bits W))
        omega
      rw [none, memset_zero, memset_zero]

namespace Moves

variable {mode : BootMode} {s t u : Machine W} {plan : List (Nat × Nat)}

theorem append {front back : List (Nat × Nat)} (first : Moves mode s front u)
    (second : Moves mode u back t) : Moves mode s (front ++ back) t := by
  induction first with
  | nil => exact second
  | cons moved _ ih => exact .cons moved (ih second)

theorem length (moves : Moves mode s plan t) : t.mods.length = s.mods.length := by
  induction moves with
  | nil => rfl
  | cons moved _ ih => rw [ih, moved.length]

theorem size (moves : Moves mode s plan t) (index : Nat) :
    (t.module index).size = (s.module index).size := by
  induction moves with
  | nil => rfl
  | cons moved _ ih => rw [ih, moved.size]

theorem others (moves : Moves mode s plan t) {index : Nat} (apart : index ∉ plan.map Prod.fst) :
    t.module index = s.module index := by
  induction moves with
  | nil => rfl
  | cons moved _ ih =>
      simp only [List.map_cons, List.mem_cons, not_or] at apart
      rw [ih apart.2, moved.others apart.1]

/-- Each planned module ends up at its destination. -/
theorem start (moves : Moves mode s plan t) (distinct : (plan.map Prod.fst).Nodup)
    {index dest : Nat} (member : (index, dest) ∈ plan) (inside : index < s.mods.length) :
    (t.module index).start = dest := by
  induction moves with
  | nil => simp at member
  | cons moved rest ih =>
      simp only [List.map_cons, List.nodup_cons] at distinct
      rcases List.mem_cons.mp member with same | inRest
      · cases same
        rw [rest.others distinct.1, moved.itself inside]
      · exact ih distinct.2 inRest (by rwa [moved.length])

/-- The bytes after a plan are the bytes after its transfers. -/
theorem bytes (moves : Moves mode s plan t) (distinct : (plan.map Prod.fst).Nodup)
    (placed : ∀ move ∈ plan, 2 ^ pageShift ∣ move.2 ∧
      move.2 + (s.module move.1).size ≤ W.modulus) :
    t.bytes = runAll (plan.map (planTransfer s)) s.bytes := by
  induction moves with
  | nil => rfl
  | @cons s u t index dest rest moved moves ih =>
      simp only [List.map_cons, List.nodup_cons] at distinct
      obtain ⟨aligned, fits⟩ := placed (index, dest) (by simp)
      have sameRest : rest.map (planTransfer u) = rest.map (planTransfer s) := by
        apply List.map_congr_left
        intro move inRest
        have apart : move.1 ≠ index := by
          intro same
          exact distinct.1 (same ▸ List.mem_map_of_mem inRest)
        rw [planTransfer, planTransfer, moved.others apart]
      rw [ih distinct.2, sameRest, List.map_cons, run_all_cons, moved.bytes,
        moved_bytes_eq aligned fits]
      · rfl
      · intro move inRest
        rw [moved.size]
        exact placed move (by simp [inRest])

end Moves

/-! ## The slots -/

/-- Consecutive slots from `start` for the modules of a list. -/
def layout (slot : Nat → Nat) : Nat → List Nat → List (Nat × Nat)
  | _, [] => []
  | start, i :: rest => (i, start) :: layout slot (start + slot i) rest

def total (slot : Nat → Nat) (order : List Nat) : Nat := (order.map slot).sum

section

variable {slot : Nat → Nat}

@[simp] theorem total_nil : total slot [] = 0 := rfl

@[simp] theorem total_cons {i : Nat} {rest : List Nat} :
    total slot (i :: rest) = slot i + total slot rest := rfl

@[simp] theorem total_append {front back : List Nat} :
    total slot (front ++ back) = total slot front + total slot back := by
  rw [total, List.map_append, List.sum_append]
  rfl

theorem layout_indexes (slot : Nat → Nat) (start : Nat) (order : List Nat) :
    (layout slot start order).map Prod.fst = order := by
  induction order generalizing start with
  | nil => rfl
  | cons i rest ih => rw [layout, List.map_cons, ih]

theorem layout_slot_of {start index : Nat} {order : List Nat} (member : index ∈ order) :
    ∃ dest, (index, dest) ∈ layout slot start order := by
  rw [← layout_indexes slot start order] at member
  obtain ⟨⟨i, dest⟩, inLayout, rfl⟩ := List.mem_map.mp member
  exact ⟨dest, inLayout⟩

theorem layout_append (start : Nat) (front back : List Nat) :
    layout slot start (front ++ back) =
      layout slot start front ++ layout slot (start + total slot front) back := by
  induction front generalizing start with
  | nil => rfl
  | cons i rest ih =>
      rw [List.cons_append, layout, layout, ih, total_cons, Nat.add_assoc, List.cons_append]

theorem layout_inside {start : Nat} {order : List Nat} {move : Nat × Nat}
    (member : move ∈ layout slot start order) :
    start ≤ move.2 ∧ move.2 + slot move.1 ≤ start + total slot order := by
  induction order generalizing start with
  | nil => cases member
  | cons i rest ih =>
      rw [total_cons]
      rcases List.mem_cons.mp member with rfl | inRest
      · exact ⟨le_rfl, Nat.add_le_add_left (Nat.le_add_right _ _) start⟩
      · have := ih inRest
        omega

theorem layout_aligned {start d : Nat} {order : List Nat} (aligned : d ∣ start)
    (slots : ∀ i, d ∣ slot i) {move : Nat × Nat} (member : move ∈ layout slot start order) :
    d ∣ move.2 := by
  induction order generalizing start with
  | nil => cases member
  | cons i rest ih =>
      rcases List.mem_cons.mp member with rfl | inRest
      · exact aligned
      · exact ih (Nat.dvd_add aligned (slots i)) inRest

theorem layout_ascending (start : Nat) (order : List Nat) :
    (layout slot start order).Pairwise fun a b => a.2 + slot a.1 ≤ b.2 := by
  induction order generalizing start with
  | nil => exact .nil
  | cons i rest ih =>
      refine .cons ?_ (ih _)
      intro b inRest
      exact (layout_inside inRest).1

/-- The slot of a module lies behind the slots of the modules below it. -/
theorem layout_slot {key : Nat → Nat} {start : Nat} {order : List Nat}
    (sorted : order.Pairwise fun i j => key i < key j) {move : Nat × Nat}
    (member : move ∈ layout slot start order) :
    move.2 = start + total slot (order.filter fun j => key j < key move.1) := by
  induction order generalizing start with
  | nil => cases member
  | cons i rest ih =>
      obtain ⟨below, restSorted⟩ := List.pairwise_cons.mp sorted
      rcases List.mem_cons.mp member with rfl | inRest
      · have none : (i :: rest).filter (fun j => key j < key i) = [] := by
          rw [List.filter_eq_nil_iff]
          intro j inOrder
          simp only [decide_eq_true_eq, not_lt]
          rcases List.mem_cons.mp inOrder with rfl | later
          · exact le_rfl
          · exact (below j later).le
        rw [none, total_nil, Nat.add_zero]
      · have later : move.1 ∈ rest := by
          rw [← layout_indexes slot (start + slot i) rest]
          exact List.mem_map_of_mem inRest
        rw [List.filter_cons_of_pos (by simpa using below _ later), total_cons, ih restSorted inRest,
          Nat.add_assoc]

end

/-! ## The loops follow the layout -/

/-- The slot of a module is its size rounded to pages. -/
def Machine.slot (s : Machine W) (index : Nat) : Nat := pageUp (s.module index).size

theorem Moves.slot_eq {mode : BootMode} {s t : Machine W} {plan : List (Nat × Nat)}
    (moves : Moves mode s plan t) : t.slot = s.slot := by
  funext index
  rw [Machine.slot, Machine.slot, moves.size]

theorem round_page_mod (address : Nat) : roundPage W address = pageUp address % W.modulus :=
  W.round_size_mod (page_shift_le_bits W) address

theorem split_forward_spec {s : Machine W} {start : Nat} {order forward backward : List Nat}
    {cursor : Nat} (fits : start + total s.slot order ≤ W.modulus)
    (slots : ∀ i ∈ order, 0 < s.slot i)
    (split : splitForward s (start % W.modulus) order = (forward, backward, cursor)) :
    order = forward ++ backward ∧ cursor = (start + total s.slot forward) % W.modulus ∧
      (∀ move ∈ layout s.slot start forward, (s.module move.1).start ≤ move.2) ∧
      ∀ i rest, backward = i :: rest → start + total s.slot forward < (s.module i).start := by
  induction order generalizing start forward with
  | nil =>
      cases split
      exact ⟨rfl, rfl, by simp [layout], by simp⟩
  | cons i rest ih =>
      rw [total_cons] at fits
      have iPos := slots i (by simp)
      have word : start % W.modulus = start := Nat.mod_eq_of_lt (by omega)
      rw [splitForward, word] at split
      split_ifs at split with moveBack
      · cases split
        refine ⟨rfl, word.symm, by simp [layout], ?_⟩
        rintro j later ⟨⟩
        exact moveBack
      · have next : W.add start (roundPage W (s.module i).size) =
            (start + s.slot i) % W.modulus := by
          rw [round_page_mod, Wordsize.add, Nat.add_mod_mod]
          rfl
        rw [next] at split
        cases inner : splitForward s ((start + s.slot i) % W.modulus) rest with
        | mk front others =>
            obtain ⟨back, last⟩ := others
            rw [inner] at split
            cases split
            obtain ⟨whole, ends, up, down⟩ := ih (by omega) (fun j inRest => slots j (by simp [inRest]))
              inner
            refine ⟨by rw [whole, List.cons_append], ?_, ?_, ?_⟩
            · rw [ends, total_cons, Nat.add_assoc]
            · intro move member
              rcases List.mem_cons.mp member with rfl | inRest
              · exact Nat.le_of_not_lt moveBack
              · exact up move inRest
            · intro j later same
              have := down j later same
              rw [total_cons]
              omega

theorem move_backward_moves {mode : BootMode} {start : Nat} {order : List Nat} {s t : Machine W}
    (fits : start + total s.slot order ≤ W.modulus) (slots : ∀ i ∈ order, 0 < s.slot i)
    (ran : moveBackward mode (start % W.modulus) order s = .ok () t) :
    Moves mode s (layout s.slot start order) t := by
  induction order generalizing start s with
  | nil =>
      rw [moveBackward, pure_ok_iff] at ran
      rw [ran.2]
      exact .nil s
  | cons i rest ih =>
      rw [total_cons] at fits
      have iPos := slots i (by simp)
      have word : start % W.modulus = start := Nat.mod_eq_of_lt (by omega)
      simp only [moveBackward, get_bind, CheckedState.bind_ok_iff] at ran
      obtain ⟨_, u, moved, ran⟩ := ran
      rw [word] at moved ran
      have first := move_module_moved moved
      have next : W.add start (roundPage W (s.module i).size) =
          (start + s.slot i) % W.modulus := by
        rw [round_page_mod, Wordsize.add, Nat.add_mod_mod]
        rfl
      have sameSlot : u.slot = s.slot := (Moves.cons first (.nil u)).slot_eq
      rw [next] at ran
      refine .cons first ?_
      rw [← sameSlot]
      apply ih
      · rw [sameSlot]
        omega
      · intro j inRest
        rw [sameSlot]
        exact slots j (by simp [inRest])
      · rw [sameSlot]
        exact ran

theorem move_forward_moves {mode : BootMode} {start : Nat} {order : List Nat} {s t : Machine W}
    (startPos : 0 < start)
    (fits : start + total s.slot order ≤ W.modulus) (slots : ∀ i ∈ order, 0 < s.slot i)
    (ran : moveForward mode ((start + total s.slot order) % W.modulus) order.reverse s =
      .ok () t) :
    Moves mode s (layout s.slot start order).reverse t := by
  induction order using List.reverseRecOn generalizing s with
  | nil =>
      rw [List.reverse_nil, moveForward, pure_ok_iff] at ran
      rw [ran.2]
      exact .nil s
  | append_singleton front i ih =>
      simp only [total_append, total_cons, total_nil, Nat.add_zero] at fits ran
      have iPos := slots i (by simp)
      rw [List.reverse_append, List.reverse_singleton, List.singleton_append, moveForward] at ran
      simp only [get_bind, CheckedState.bind_ok_iff] at ran
      obtain ⟨_, u, moved, ran⟩ := ran
      have word : s.slot i < W.modulus := by omega
      have dest : W.sub ((start + (total s.slot front + s.slot i)) % W.modulus)
          (roundPage W (s.module i).size) = start + total s.slot front := by
        rw [round_page_mod]
        change W.sub _ (s.slot i % W.modulus) = _
        rw [Nat.mod_eq_of_lt word, ← Nat.add_assoc, W.sub_add_mod (by omega) word.le]
      rw [dest] at moved ran
      have first := move_module_moved moved
      have sameSlot : u.slot = s.slot := (Moves.cons first (.nil u)).slot_eq
      rw [layout_append, List.reverse_append]
      refine .cons first ?_
      rw [← sameSlot]
      apply ih
      · rw [sameSlot]
        omega
      · intro j inFront
        rw [sameSlot]
        exact slots j (by simp [inFront])
      · rw [sameSlot, Nat.mod_eq_of_lt (by omega)]
        exact ran

/-! ## The sorter -/

theorem insert_sorted_perm (less : Nat → Nat → Bool) (v : Nat) (sorter : List Nat) :
    (insertSorted less v sorter).Perm (v :: sorter) := by
  induction sorter with
  | nil => exact .refl _
  | cons i rest ih =>
      rw [insertSorted]
      split_ifs
      · exact .refl _
      · exact (ih.cons i).trans (.swap v i rest)

theorem insert_sorted_sorted {key : Nat → Nat} {v : Nat} {sorter : List Nat}
    (sorted : sorter.Pairwise fun i j => key i ≤ key j) :
    (insertSorted (fun l r => decide (key l < key r)) v sorter).Pairwise
      fun i j => key i ≤ key j := by
  induction sorter with
  | nil => exact List.pairwise_singleton _ _
  | cons i rest ih =>
      obtain ⟨below, restSorted⟩ := List.pairwise_cons.mp sorted
      rw [insertSorted]
      split_ifs with less
      · have less' : key v < key i := by simpa using less
        refine .cons ?_ sorted
        intro j member
        rcases List.mem_cons.mp member with rfl | inRest
        · exact less'.le
        · exact less'.le.trans (below j inRest)
      · refine .cons ?_ (ih restSorted)
        intro j member
        rcases List.mem_cons.mp ((insert_sorted_perm _ v rest).subset member) with rfl | inRest
        · simpa using less
        · exact below j inRest

theorem mod_insert_sorted_ok {v : Nat} {s t : Machine W} (ran : modInsertSorted v s = .ok () t) :
    t = { s with
      sorter := insertSorted (fun l r => decide ((s.module l).start < (s.module r).start)) v
        s.sorter } := by
  simp only [modInsertSorted, get_bind] at ran
  split_ifs at ran with full
  · exact absurd ran stop_not_ok
  · exact modify_ok_iff.mp ran

/-- Sorting a list of indexes into a sorter that is in order. -/
theorem sort_modules_ok {indexes : List Nat} {s t : Machine W}
    (sorted : s.sorter.Pairwise fun i j => (s.module i).start ≤ (s.module j).start)
    (ran : sortModules indexes s = .ok () t) :
    ∃ sorter, t = { s with sorter := sorter } ∧ sorter.Perm (indexes ++ s.sorter) ∧
      sorter.Pairwise fun i j => (s.module i).start ≤ (s.module j).start := by
  induction indexes generalizing s with
  | nil =>
      rw [sortModules, pure_ok_iff] at ran
      exact ⟨s.sorter, ran.2, .refl _, sorted⟩
  | cons i rest ih =>
      rw [sortModules, CheckedState.bind_ok_iff] at ran
      obtain ⟨_, u, inserted, ran⟩ := ran
      have same := mod_insert_sorted_ok inserted
      subst same
      obtain ⟨sorter, same, perm, order⟩ := ih (insert_sorted_sorted sorted) ran
      refine ⟨sorter, same, ?_, order⟩
      calc sorter.Perm (rest ++ insertSorted _ i s.sorter) := perm
        _ |>.Perm (rest ++ i :: s.sorter) := (insert_sorted_perm _ i s.sorter).append_left rest
        _ |>.Perm (i :: rest ++ s.sorter) := List.perm_middle

/-! ## Disjoint modules on page boundaries -/

def ModInfo.Apart (a b : ModInfo) : Prop :=
  a.start + a.size ≤ b.start ∨ b.start + b.size ≤ a.start

/-- What the boot loader guarantees about the modules. -/
structure ModulesInOrder (W : Wordsize) (mods : List ModInfo) : Prop where
  aligned : ∀ mod ∈ mods, pageSize ∣ mod.start
  nonempty : ∀ mod ∈ mods, 1 ≤ mod.size
  inside : ∀ mod ∈ mods, mod.start + mod.size ≤ W.modulus
  apart : mods.Pairwise ModInfo.Apart

theorem module_mem {s : Machine W} {i : Nat} (inside : i < s.mods.length) :
    s.module i ∈ s.mods := by
  rw [Machine.module, List.getD_eq_getElem _ _ inside]
  exact List.getElem_mem inside

theorem mods_eq_map (s : Machine W) : s.mods = (List.range s.mods.length).map s.module := by
  apply List.ext_getElem
  · simp
  · intro i inside _
    rw [List.getElem_map, List.getElem_range, Machine.module, List.getD_eq_getElem _ _ inside]

theorem modules_apart {s : Machine W} (apart : s.mods.Pairwise ModInfo.Apart) {i j : Nat}
    (iInside : i < s.mods.length) (jInside : j < s.mods.length) (distinct : i ≠ j) :
    ModInfo.Apart (s.module i) (s.module j) := by
  rw [Machine.module, Machine.module, List.getD_eq_getElem _ _ iInside,
    List.getD_eq_getElem _ _ jInside]
  rcases Nat.lt_or_gt_of_ne distinct with less | greater
  · exact List.pairwise_iff_getElem.mp apart i j iInside jInside less
  · exact (List.pairwise_iff_getElem.mp apart j i jInside iInside greater).symm

/-- In address order the pages of a module end before the next module begins. -/
theorem sorted_chain {s : Machine W} (modules : ModulesInOrder W s.mods) {order : List Nat}
    (perm : order.Perm (List.range s.mods.length))
    (sorted : order.Pairwise fun i j => (s.module i).start ≤ (s.module j).start) :
    order.Pairwise fun i j => (s.module i).start + s.slot i ≤ (s.module j).start := by
  have distinct : order.Pairwise (· ≠ ·) := perm.nodup_iff.mpr List.nodup_range
  apply (sorted.and distinct).imp_of_mem
  rintro i j iMember jMember ⟨le, ne⟩
  have iInside : i < s.mods.length := List.mem_range.mp (perm.subset iMember)
  have jInside : j < s.mods.length := List.mem_range.mp (perm.subset jMember)
  have jNonempty := modules.nonempty _ (module_mem jInside)
  have behind : (s.module i).start + (s.module i).size ≤ (s.module j).start := by
    rcases modules_apart modules.apart iInside jInside ne with before | after
    · exact before
    · omega
  calc (s.module i).start + s.slot i
      = pageUp ((s.module i).start + (s.module i).size) :=
        (round_up_add (modules.aligned _ (module_mem iInside))).symm
    _ ≤ (s.module j).start := round_up_le (modules.aligned _ (module_mem jInside)) behind

theorem module_pages_inside {s : Machine W} (modules : ModulesInOrder W s.mods) {i : Nat}
    (inside : i < s.mods.length) : (s.module i).start + s.slot i ≤ W.modulus := by
  have aligned := modules.aligned _ (module_mem inside)
  have fits := modules.inside _ (module_mem inside)
  calc (s.module i).start + s.slot i
      = pageUp ((s.module i).start + (s.module i).size) := (round_up_add aligned).symm
    _ ≤ W.modulus := round_up_le (W.pow_dvd_modulus (page_shift_le_bits W)) fits

theorem slot_pos {s : Machine W} (modules : ModulesInOrder W s.mods) {i : Nat}
    (inside : i < s.mods.length) : 0 < s.slot i :=
  round_up_pos (modules.nonempty _ (module_mem inside))

/-- Areas that follow each other within a bound have a total size within it. -/
theorem chain_total {key slot : Nat → Nat} {bound lower : Nat} {order : List Nat}
    (chain : order.Pairwise fun i j => key i + slot i ≤ key j)
    (above : ∀ i ∈ order, lower ≤ key i) (below : ∀ i ∈ order, key i + slot i ≤ bound)
    (start : lower ≤ bound) : lower + total slot order ≤ bound := by
  induction order generalizing lower with
  | nil => simpa using start
  | cons i rest ih =>
      obtain ⟨iBelow, restChain⟩ := List.pairwise_cons.mp chain
      have first := above i (by simp)
      have rest := ih restChain iBelow (fun j member => below j (by simp [member]))
        (below i (by simp))
      rw [total_cons]
      omega

theorem calc_modules_size_eq (mods : List ModInfo) :
    calcModulesSize W pageShift mods = (mods.map fun mod => pageUp mod.size).sum % W.modulus := by
  suffices general : ∀ start, mods.foldl (fun s mod => W.add s (W.roundSize pageShift mod.size))
      (start % W.modulus) = (start + (mods.map fun mod => pageUp mod.size).sum) % W.modulus by
    have whole := general 0
    rwa [Nat.zero_mod, Nat.zero_add] at whole
  intro start
  induction mods generalizing start with
  | nil => rfl
  | cons mod rest ih =>
      have step : W.add (start % W.modulus) (W.roundSize pageShift mod.size) =
          (start + pageUp mod.size) % W.modulus := by
        rw [W.round_size_mod (page_shift_le_bits W), Wordsize.add, ← Nat.add_mod]
        rfl
      rw [List.foldl_cons, step, ih, List.map_cons, List.sum_cons, Nat.add_assoc]

theorem total_of_perm {slot : Nat → Nat} {order other : List Nat} (perm : order.Perm other) :
    total slot order = total slot other :=
  (perm.map slot).sum_nat

/-- The slots of some of the modules, counted along the order or along the
table. -/
theorem total_filter_eq_sum {s : Machine W} {order : List Nat} (p : ModInfo → Bool)
    (perm : order.Perm (List.range s.mods.length)) :
    total s.slot (order.filter fun i => p (s.module i)) =
      ((s.mods.filter p).map fun mod => pageUp mod.size).sum := by
  rw [total_of_perm (perm.filter _), total]
  conv_rhs => rw [mods_eq_map s, List.filter_map, List.map_map]
  rfl

theorem total_eq_sum {s : Machine W} {order : List Nat}
    (perm : order.Perm (List.range s.mods.length)) :
    total s.slot order = (s.mods.map fun mod => pageUp mod.size).sum := by
  have all := total_filter_eq_sum (fun _ => true) perm
  rwa [List.filter_true, List.filter_true] at all

/-! ## All moves together -/

/-- Two moves in the order in which `move_modules` makes them: `early` was moved
up before the lower `late`, or it lies below `late` and `late` moves down. -/
theorem plan_transfer_clear {s : Machine W} {early late : Nat × Nat}
    (order : (late.2 + s.slot late.1 ≤ early.2 ∧
        (s.module late.1).start + s.slot late.1 ≤ (s.module early.1).start ∧
        (s.module early.1).start ≤ early.2) ∨
      (early.2 + s.slot early.1 ≤ late.2 ∧
        early.2 + s.slot early.1 ≤ (s.module late.1).start)) :
    (planTransfer s early).KeepsClear (planTransfer s late) := by
  have earlySlot : (s.module early.1).size ≤ s.slot early.1 := le_round_up _ _
  have lateSlot : (s.module late.1).size ≤ s.slot late.1 := le_round_up _ _
  unfold Machine.slot at *
  constructor
  · rintro a ⟨above, below⟩ ⟨inAbove, inBelow⟩
    omega
  · rintro a ⟨above, below⟩ ⟨inAbove, inBelow⟩
    omega

/-- Slots and sources of a group in address order. -/
theorem layout_chain {s : Machine W} {start : Nat} {order : List Nat}
    (chain : order.Pairwise fun i j => (s.module i).start + s.slot i ≤ (s.module j).start) :
    (layout s.slot start order).Pairwise fun a b => a.2 + s.slot a.1 ≤ b.2 ∧
      (s.module a.1).start + s.slot a.1 ≤ (s.module b.1).start := by
  apply (layout_ascending start order).and
  rw [← layout_indexes s.slot start order, List.pairwise_map] at chain
  exact chain

/-- Behind a first module that moves down, all modules move down. -/
theorem layout_moves_down {s : Machine W} {start : Nat} {order : List Nat}
    (chain : order.Pairwise fun i j => (s.module i).start + s.slot i ≤ (s.module j).start)
    (first : ∀ i rest, order = i :: rest → start < (s.module i).start) :
    ∀ move ∈ layout s.slot start order, move.2 < (s.module move.1).start := by
  induction order generalizing start with
  | nil => intro move member; cases member
  | cons i rest ih =>
      obtain ⟨below, restChain⟩ := List.pairwise_cons.mp chain
      have down := first i rest rfl
      intro move member
      rcases List.mem_cons.mp member with rfl | inRest
      · exact down
      · apply ih restChain _ move inRest
        rintro j later rfl
        have := below j (by simp)
        omega

theorem plan_clear {s : Machine W} {start : Nat} {forward backward : List Nat}
    (chain : (forward ++ backward).Pairwise fun i j =>
      (s.module i).start + s.slot i ≤ (s.module j).start)
    (up : ∀ move ∈ layout s.slot start forward, (s.module move.1).start ≤ move.2)
    (down : ∀ i rest, backward = i :: rest →
      start + total s.slot forward < (s.module i).start) :
    (((layout s.slot start forward).reverse ++
      layout s.slot (start + total s.slot forward) backward).map (planTransfer s)).Pairwise
        Transfer.KeepsClear := by
  obtain ⟨forwardChain, backwardChain, _⟩ := List.pairwise_append.mp chain
  rw [List.pairwise_map, List.pairwise_append]
  refine ⟨?_, ?_, ?_⟩
  · rw [List.pairwise_reverse]
    apply (layout_chain forwardChain).imp_of_mem
    intro late early _ member order
    exact plan_transfer_clear (.inl ⟨order.1, order.2, up early member⟩)
  · apply (layout_chain backwardChain).imp_of_mem
    intro early late member _ order
    have := layout_moves_down backwardChain down early member
    exact plan_transfer_clear (.inr ⟨order.1, by omega⟩)
  · intro early inForward late inBackward
    have above := (layout_inside (List.mem_reverse.mp inForward)).2
    have below := (layout_inside inBackward).1
    have := layout_moves_down backwardChain down late inBackward
    exact plan_transfer_clear (.inr ⟨by omega, by omega⟩)

/-- The order of the moves: the modules that move up from the last one down, then the others. -/
def sortedPlan (s : Machine W) (target : Nat) (forward backward : List Nat) : List (Nat × Nat) :=
  (layout s.slot target forward).reverse ++
    layout s.slot (target + total s.slot forward) backward

theorem sorted_plan_perm (s : Machine W) (target : Nat) (forward backward : List Nat) :
    (sortedPlan s target forward backward).Perm (layout s.slot target (forward ++ backward)) := by
  rw [layout_append]
  exact (List.reverse_perm _).append_right _

/-- The last part of `move_modules` moves the sorted modules to their slots. -/
theorem move_sorted_moves {mode : BootMode} {target count : Nat} {s t : Machine W}
    (ran : moveSorted mode target count s = .ok () t)
    (targetPos : 0 < target) (slots : ∀ i ∈ s.sorter, 0 < s.slot i)
    (fits : target + total s.slot s.sorter ≤ W.modulus) (whole : s.sorter.length = count) :
    ∃ forward backward, s.sorter = forward ++ backward ∧
      Moves mode s (sortedPlan s target forward backward) t ∧
      (∀ move ∈ layout s.slot target forward, (s.module move.1).start ≤ move.2) ∧
      ∀ i rest, backward = i :: rest →
        target + total s.slot forward < (s.module i).start := by
  rw [moveSorted, get_bind, ← whole, List.take_length] at ran
  cases split : splitForward s target s.sorter with
  | mk forward others =>
      obtain ⟨backward, cursor⟩ := others
      simp only [split, CheckedState.bind_ok_iff] at ran
      obtain ⟨_, w, wentForward, wentBackward⟩ := ran
      rcases Nat.lt_or_eq_of_le (Nat.le_of_add_right_le fits) with word | top
      · rw [← Nat.mod_eq_of_lt word] at split
        obtain ⟨order, ends, up, down⟩ := split_forward_spec fits slots split
        rw [order] at fits slots
        rw [total_append] at fits
        rw [ends] at wentForward wentBackward
        have movedUp := move_forward_moves targetPos (by omega)
          (fun i member => slots i (by simp [member])) wentForward
        have movedDown : Moves mode w
            (layout s.slot (target + total s.slot forward) backward) t := by
          rw [← movedUp.slot_eq] at wentBackward fits slots ⊢
          exact move_backward_moves (by omega) (fun i member => slots i (by simp [member]))
            wentBackward
        exact ⟨forward, backward, order, movedUp.append movedDown, up, down⟩
      · -- no room for a slot: there are no modules
        cases none : s.sorter with
        | nil =>
            rw [none] at split
            cases split
            rw [List.reverse_nil, moveForward, pure_ok_iff] at wentForward
            rw [moveBackward, pure_ok_iff] at wentBackward
            rw [wentBackward.2, wentForward.2]
            exact ⟨[], [], rfl, .nil s, by simp [layout], by simp⟩
        | cons i rest =>
            rw [none, total_cons] at fits
            have := slots i (by rw [none]; simp)
            omega

/-- For modules apart from each other this order keeps the transfers clear of each other. -/
theorem move_sorted_plan {mode : BootMode} {target count : Nat} {s t : Machine W}
    (ran : moveSorted mode target count s = .ok () t)
    (targetPos : 0 < target) (slots : ∀ i ∈ s.sorter, 0 < s.slot i)
    (fits : target + total s.slot s.sorter ≤ W.modulus) (whole : s.sorter.length = count)
    (chain : s.sorter.Pairwise fun i j => (s.module i).start + s.slot i ≤ (s.module j).start) :
    ∃ plan, Moves mode s plan t ∧ plan.Perm (layout s.slot target s.sorter) ∧
      (plan.map (planTransfer s)).Pairwise Transfer.KeepsClear := by
  obtain ⟨forward, backward, order, moves, up, down⟩ :=
    move_sorted_moves ran targetPos slots fits whole
  rw [order] at chain ⊢
  exact ⟨_, moves, sorted_plan_perm s target forward backward, plan_clear chain up down⟩

/-- The steps of `move_modules`. -/
theorem move_modules_ok {mode : BootMode} {modaddr : Nat} {s t : Machine W}
    (ran : moveModules mode modaddr s = .ok () t) :
    ∃ target u, target ≠ 0 ∧
      (s.withRegions (s.memory.regions.removeIf isModuleRegion)).memory.findFreeRam
        (calcModulesSize W pageShift s.mods) modaddr W.maxWord pageShift Memory.anyNode =
          .ok target ∧
      sortModules (List.range s.mods.length)
        (s.withRegions (s.memory.regions.removeIf isModuleRegion)) = .ok () u ∧
      moveSorted mode target s.mods.length u = .ok () t := by
  rw [moveModules, CheckedState.bind_ok_iff] at ran
  obtain ⟨_, removed, isRemoved, ran⟩ := ran
  obtain ⟨regions, same, made⟩ := update_regions_ok isRemoved
  cases same
  subst made
  rw [get_bind, CheckedState.bind_ok_iff] at ran
  obtain ⟨target, between, found, ran⟩ := ran
  rw [findFreeRam, get_bind, lift_ok_iff] at found
  obtain ⟨found, same⟩ := found
  subst same
  split_ifs at ran with zero
  · exact absurd ran stop_not_ok
  · rw [CheckedState.bind_ok_iff] at ran
    obtain ⟨_, u, sorted, moved⟩ := ran
    exact ⟨target, u, zero, found, sorted, moved⟩

/-- The size that is asked for is the size of all slots. -/
theorem modules_size_eq {s : Machine W} {order : List Nat}
    (perm : order.Perm (List.range s.mods.length)) (fits : total s.slot order ≤ W.modulus)
    (pos : 0 < W.roundSize pageShift (calcModulesSize W pageShift s.mods)) :
    W.roundSize pageShift (calcModulesSize W pageShift s.mods) = total s.slot order := by
  have sums := total_eq_sum perm
  have pages : 2 ^ pageShift ∣ total s.slot order := by
    apply List.dvd_sum
    intro x member
    obtain ⟨i, _, rfl⟩ := List.mem_map.mp member
    exact dvd_round_up pageShift _
  rw [calc_modules_size_eq, ← sums, W.round_size_mod (page_shift_le_bits W)] at pos ⊢
  rcases Nat.lt_or_eq_of_le fits with below | top
  · rw [Nat.mod_eq_of_lt below, round_up_of_dvd pages, Nat.mod_eq_of_lt below]
  · rw [top, Nat.mod_self, round_up_of_dvd (Nat.dvd_zero _), Nat.zero_mod] at pos
    omega

/-- `move_modules` keeps the contents of all modules. It is the only user of the
sorter in a build, so that it starts with an empty one. -/
theorem move_modules_contents {mode : BootMode} {modaddr : Nat} {s t : Machine W}
    (fresh : s.sorter = []) (modules : ModulesInOrder W s.mods)
    (ran : moveModules mode modaddr s = .ok () t) :
    ∃ target, target ≠ 0 ∧
      (s.withRegions (s.memory.regions.removeIf isModuleRegion)).memory.findFreeRam
        (calcModulesSize W pageShift s.mods) modaddr W.maxWord pageShift Memory.anyNode =
          .ok target ∧
      t.mods.length = s.mods.length ∧
      (∀ i < s.mods.length, (t.module i).size = (s.module i).size ∧
        (t.module i).start = target +
          ((s.mods.filter fun mod => mod.start < (s.module i).start).map
            fun mod => pageUp mod.size).sum ∧
        ∀ k < (s.module i).size,
          t.bytes ((t.module i).start + k) = s.bytes ((s.module i).start + k)) ∧
      ∀ a, (a < target ∨ target + (s.mods.map fun mod => pageUp mod.size).sum ≤ a) →
        t.bytes a = s.bytes a := by
  obtain ⟨target, u, zero, found, sorted, moved⟩ := move_modules_ok ran
  obtain ⟨order, same, perm, inOrder⟩ := sort_modules_ok
    (by rw [Machine.withRegions, fresh]; exact .nil) sorted
  subst same
  rw [Machine.withRegions, fresh, List.append_nil] at perm
  have chain := sorted_chain modules perm inOrder
  have insideOf : ∀ i ∈ order, i < s.mods.length :=
    fun i member => List.mem_range.mp (perm.subset member)
  have wholeFits : 0 + total s.slot order ≤ W.modulus :=
    chain_total chain (fun i _ => Nat.zero_le _)
      (fun i member => module_pages_inside modules (insideOf i member)) (Nat.zero_le _)
  have placed := Memory.find_free_ram_placed found zero
  have size := modules_size_eq perm (by omega) placed.pos
  have fits := placed.fits
  rw [size] at fits
  obtain ⟨plan, moves, planPerm, clear⟩ := move_sorted_plan moved (Nat.pos_of_ne_zero zero)
    (fun i member => slot_pos modules (insideOf i member)) fits
    (perm.length_eq.trans List.length_range) chain
  change plan.Perm (layout s.slot target order) at planPerm
  have distinct : (plan.map Prod.fst).Nodup := by
    rw [(planPerm.map Prod.fst).nodup_iff, layout_indexes, perm.nodup_iff]
    exact List.nodup_range
  have inSlots : ∀ move ∈ plan, target ≤ move.2 ∧
      move.2 + s.slot move.1 ≤ target + total s.slot order :=
    fun move member => layout_inside (planPerm.subset member)
  have sizeLe : ∀ i, (s.module i).size ≤ s.slot i := fun i => le_round_up pageShift _
  have bytes := moves.bytes distinct fun move member =>
    ⟨layout_aligned placed.aligned (fun i => dvd_round_up pageShift _) (planPerm.subset member),
      (Nat.add_le_add_left (sizeLe move.1) _).trans ((inSlots move member).2.trans fits)⟩
  refine ⟨target, zero, found, moves.length, ?_, ?_⟩
  · intro i inside
    have inOrder : i ∈ (layout s.slot target order).map Prod.fst := by
      rw [layout_indexes]
      exact perm.mem_iff.mpr (List.mem_range.mpr inside)
    obtain ⟨⟨j, dest⟩, inLayout, same⟩ := List.mem_map.mp inOrder
    change j = i at same
    subst same
    have member := planPerm.mem_iff.mpr inLayout
    have start := moves.start distinct member inside
    refine ⟨moves.size j, ?_, ?_⟩
    · have ascending : order.Pairwise fun i j => (s.module i).start < (s.module j).start := by
        apply chain.imp_of_mem
        intro a b aMember _ behind
        have := slot_pos modules (insideOf a aMember)
        omega
      have slot : dest = _ := layout_slot ascending inLayout
      rw [start, slot, ← total_filter_eq_sum _ perm]
    · intro k small
      rw [start, bytes, run_all_target clear (List.mem_map_of_mem member)]
      · exact move_transfer_copies small s.bytes
      · exact ⟨Nat.le_add_right _ _, Nat.add_lt_add_left small _⟩
  · intro a outside
    rw [bytes, run_all_frame]
    · rfl
    · intro transfer isPlanned
      obtain ⟨move, member, rfl⟩ := List.mem_map.mp isPlanned
      have window := inSlots move member
      have := sizeLe move.1
      rw [← total_eq_sum perm] at outside
      rintro ⟨above, below⟩
      change a < move.2 + (s.module move.1).size + (s.slot move.1 - (s.module move.1).size) at below
      omega

/-- Two modules in RAM, the first of which lies above the second. -/
def twoModules : Machine .w64 where
  bytes := fun a => UInt8.ofNat a
  memory := {
    ram := Memory.unlimited [.fixed 0x1000 0xffff {} (.refl true)]
    sysalloc := Memory.unlimited [.fixed 0 0xfffff {} (.refl true)]
    regions := Memory.unlimited [.fixed 0x1000 0x1fff {} (.refl true)]
    validate := none }
  mods := [⟨0x5000, 0x1001, 0x1001, .kernel⟩, ⟨0x2000, 0x800, 0x800, .unspec⟩]
  sorter := []

/-- The second module moves up, the first one moves down over its own first page. -/
theorem move_modules_contents_two_modules :
    ∃ t, moveModules .image 0x3000 twoModules = .ok () t ∧
      ∃ target, target ≠ 0 ∧
        (twoModules.withRegions
          (twoModules.memory.regions.removeIf isModuleRegion)).memory.findFreeRam
          (calcModulesSize .w64 pageShift twoModules.mods) 0x3000 Wordsize.w64.maxWord pageShift
            Memory.anyNode = .ok target ∧
        t.mods.length = 2 ∧
        (∀ i < 2, (t.module i).size = (twoModules.module i).size ∧
          (t.module i).start = target +
            ((twoModules.mods.filter fun mod => mod.start < (twoModules.module i).start).map
              fun mod => pageUp mod.size).sum ∧
          ∀ k < (twoModules.module i).size,
            t.bytes ((t.module i).start + k) = twoModules.bytes ((twoModules.module i).start + k)) ∧
        ∀ a, (a < target ∨ target + (twoModules.mods.map fun mod => pageUp mod.size).sum ≤ a) →
          t.bytes a = twoModules.bytes a := by
  have runs : succeeds (moveModules .image 0x3000 twoModules) = true := by decide +kernel
  obtain ⟨t, ran⟩ := exists_of_succeeds runs
  have modules : ModulesInOrder .w64 twoModules.mods := by
    refine ⟨by decide, by decide, by decide, ?_⟩
    unfold ModInfo.Apart
    decide
  exact ⟨t, ran, move_modules_contents rfl modules ran⟩

end L4Bootstrap
