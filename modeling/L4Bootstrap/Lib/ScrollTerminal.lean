import Mathlib.Data.List.GetD
import Mathlib.Data.List.Induction
import Mathlib.Logic.Function.Basic

/-!
# Scrolling terminals

A terminal of a number of columns that is only written to at its bottom: the lines, counted
from the bottom, and the column of the cursor. What is written in a line wraps when it reaches
the last column, and not before the next cell is written.
-/

namespace ScrollTerminal

set_option autoImplicit false

structure Terminal (α : Type) where
  lines : Nat → Nat → α
  col : Nat

namespace Terminal

variable {α : Type}

/-- A new line at the bottom. -/
def feed (blank : α) (t : Terminal α) : Terminal α where
  lines
    | 0 => fun _ => blank
    | k + 1 => t.lines k
  col := 0

def home (t : Terminal α) : Terminal α := { t with col := 0 }

/-- To the next multiple of `stop`. -/
def tab (stop : Nat) (t : Terminal α) : Terminal α := { t with col := (t.col + stop) / stop * stop }

def write (cell : α) (t : Terminal α) : Terminal α where
  lines := Function.update t.lines 0 (Function.update (t.lines 0) t.col cell)
  col := t.col + 1

/-- A cell, in the next line if there is no room for it. -/
def put (width : Nat) (blank cell : α) (t : Terminal α) : Terminal α :=
  if width ≤ t.col then (t.feed blank).write cell else t.write cell

def putAll (width : Nat) (blank : α) (cells : List α) (t : Terminal α) : Terminal α :=
  cells.foldl (fun t cell => t.put width blank cell) t

/-- Nothing is written in the last line. -/
structure Fresh (blank : α) (t : Terminal α) : Prop where
  col : t.col = 0
  empty : ∀ c, t.lines 0 c = blank

theorem fresh_feed (blank : α) (t : Terminal α) : (t.feed blank).Fresh blank := ⟨rfl, fun _ => rfl⟩

theorem put_all_snoc (width : Nat) (blank : α) (cells : List α) (cell : α) (t : Terminal α) :
    t.putAll width blank (cells ++ [cell]) = (t.putAll width blank cells).put width blank cell := by
  rw [putAll, List.foldl_append]
  rfl

/-! ## Cells in a fresh line -/

/-- The number of line breaks in `n` cells. -/
def breaks (width n : Nat) : Nat := (n - 1) / width

theorem breaks_spec {width n : Nat} (pos : 0 < width) :
    width * breaks width n ≤ n ∧ n ≤ width * breaks width n + width ∧
      (0 < n → width * breaks width n < n) := by
  have below := Nat.mul_div_le (n - 1) width
  have above := Nat.lt_mul_div_succ (n - 1) pos
  rw [Nat.mul_add_one] at above
  unfold breaks
  omega

theorem breaks_succ {width n : Nat} (pos : 0 < width) :
    (n < width * breaks width n + width → breaks width (n + 1) = breaks width n) ∧
      (n = width * breaks width n + width → breaks width (n + 1) = breaks width n + 1) := by
  obtain ⟨low, _, _⟩ := @breaks_spec width n pos
  constructor
  · intro room
    rw [← Nat.mul_add_one] at room
    exact Nat.div_eq_of_lt_le (by rw [Nat.mul_comm]; exact low)
      (by rw [Nat.mul_comm]; exact room)
  · intro full
    rw [← Nat.mul_add_one] at full
    exact Nat.div_eq_of_eq_mul_right pos full

/-- The cells stand in rows from the top down, and the cursor behind the last one. -/
structure Laid (width : Nat) (blank : α) (cells : List α) (t after : Terminal α) : Prop where
  col : after.col = cells.length - width * breaks width cells.length
  rows : ∀ k ≤ breaks width cells.length, ∀ c < width, after.lines k c =
    cells.getD (width * (breaks width cells.length - k) + c) blank
  above : ∀ k, after.lines (breaks width cells.length + 1 + k) = t.lines (1 + k)

variable {width : Nat} {blank : α} {t : Terminal α}

theorem put_all_laid (pos : 0 < width) (fresh : t.Fresh blank) (cells : List α) :
    Laid width blank cells t (t.putAll width blank cells) := by
  induction cells using List.reverseRecOn with
  | nil =>
      have none : breaks width 0 = 0 := Nat.zero_div width
      refine ⟨fresh.col.trans (Nat.zero_sub _).symm, ?_, ?_⟩
      · intro k less c _
        rw [List.length_nil, none] at less
        obtain rfl : k = 0 := Nat.le_zero.mp less
        rw [List.getD_nil]
        exact fresh.empty c
      · intro k
        rw [List.length_nil, none]
        rfl
  | append_singleton cells cell ih =>
      rw [put_all_snoc]
      generalize t.putAll width blank cells = now at ih ⊢
      obtain ⟨col, rows, above⟩ := ih
      obtain ⟨low, high, _⟩ := @breaks_spec width cells.length pos
      obtain ⟨same, further⟩ := @breaks_succ width cells.length pos
      have length : (cells ++ [cell]).length = cells.length + 1 := by simp
      have old : ∀ i < cells.length, (cells ++ [cell]).getD i blank = cells.getD i blank :=
        fun i less => List.getD_append _ _ _ _ less
      have new : (cells ++ [cell]).getD cells.length blank = cell := by simp
      by_cases full : width ≤ now.col
      · -- the line is full: the cell begins the next one
        have isFull : cells.length = width * breaks width cells.length + width := by omega
        have next := further isFull
        rw [put, if_pos full]
        refine ⟨?_, ?_, ?_⟩
        · rw [length, next, Nat.mul_add_one]
          change 0 + 1 = _
          omega
        · intro k less c inside
          rw [length, next] at less ⊢
          cases k with
          | zero =>
              rw [Nat.sub_zero, Nat.mul_add_one, ← isFull]
              change Function.update (fun _ => blank) 0 cell c = _
              by_cases first : c = 0
              · rw [first, Function.update_self, Nat.add_zero, new]
              · rw [Function.update_of_ne first, List.getD_eq_default _ _ (by omega)]
          | succ k =>
              change now.lines k c = _
              have position : breaks width cells.length + 1 - (k + 1) =
                  breaks width cells.length - k := by omega
              have bound := Nat.mul_le_mul_left width (Nat.sub_le (breaks width cells.length) k)
              rw [rows k (by omega) c inside, position, old _ (by omega)]
        · intro k
          rw [length, next, ← above k]
          have index : breaks width cells.length + 1 + 1 + k =
              (breaks width cells.length + 1 + k) + 1 := by omega
          rw [index]
          rfl
      · have room : cells.length < width * breaks width cells.length + width := by omega
        have next := same room
        rw [put, if_neg full]
        refine ⟨?_, ?_, ?_⟩
        · rw [length, next]
          change now.col + 1 = _
          omega
        · intro k less c inside
          rw [length, next] at less ⊢
          cases k with
          | zero =>
              change Function.update (now.lines 0) now.col cell c = _
              rw [Nat.sub_zero]
              by_cases here : c = now.col
              · have position : width * breaks width cells.length + c = cells.length := by omega
                rw [here, Function.update_self, ← here, position, new]
              · rw [Function.update_of_ne here, rows 0 (Nat.zero_le _) c inside, Nat.sub_zero]
                rcases Nat.lt_or_ge (width * breaks width cells.length + c) cells.length with
                  before | behind
                · rw [old _ before]
                · rw [List.getD_eq_default _ _ behind, List.getD_eq_default _ _ (by omega)]
          | succ k =>
              change now.lines (k + 1) c = _
              have less' : breaks width cells.length - (k + 1) + 1 ≤ breaks width cells.length := by
                omega
              have bound := Nat.mul_le_mul_left width less'
              rw [Nat.mul_add_one] at bound
              rw [rows (k + 1) less c inside, old _ (by omega)]
        · intro k
          rw [length, next, ← above k]
          have index : breaks width cells.length + 1 + k =
              (breaks width cells.length + k) + 1 := by omega
          rw [index]
          rfl

/-! ## Lines of text -/

/-- The rows that a line of text takes, from the top down. -/
def rowsOf (width : Nat) (cells : List α) : List (List α) :=
  (List.range (breaks width cells.length + 1)).map fun i => (cells.drop (width * i)).take width

/-- The cells of each line with a new line behind them. -/
def putLines (width : Nat) (blank : α) (texts : List (List α)) (t : Terminal α) : Terminal α :=
  texts.foldl (fun t cells => (t.putAll width blank cells).feed blank) t

/-- Above a fresh line stand these rows, and above them what was there before. -/
structure Scrolled (width : Nat) (blank : α) (rows : List (List α)) (t after : Terminal α) :
    Prop where
  fresh : after.Fresh blank
  shown : ∀ k < rows.length, ∀ c < width,
    after.lines (1 + k) c = (rows.getD (rows.length - 1 - k) []).getD c blank
  above : ∀ k, after.lines (1 + rows.length + k) = t.lines (1 + k)

theorem length_rows_of (cells : List α) :
    (rowsOf width cells).length = breaks width cells.length + 1 := by
  rw [rowsOf, List.length_map, List.length_range]

theorem rows_of_get_d (cells : List α) {i : Nat} (inside : i < breaks width cells.length + 1) {c : Nat}
    (column : c < width) :
    ((rowsOf width cells).getD i []).getD c blank = cells.getD (width * i + c) blank := by
  have row : (rowsOf width cells).getD i [] = (cells.drop (width * i)).take width := by
    rw [List.getD_eq_getElem _ _ (by rw [length_rows_of]; exact inside)]
    simp [rowsOf]
  rw [row]
  simp only [List.getD_eq_getElem?_getD, List.getElem?_take_of_lt column, List.getElem?_drop]

/-- One line more. -/
theorem scrolled_line (pos : 0 < width) {rows : List (List α)} {now : Terminal α}
    (scrolled : Scrolled width blank rows t now) (cells : List α) :
    Scrolled width blank (rows ++ rowsOf width cells) t ((now.putAll width blank cells).feed blank) := by
  obtain ⟨fresh, old, above⟩ := scrolled
  obtain ⟨_, laid, before⟩ := put_all_laid pos fresh cells
  have new : (rowsOf width cells).length = breaks width cells.length + 1 := length_rows_of cells
  refine ⟨fresh_feed _ _, ?_, ?_⟩
  · intro k less c column
    rw [Nat.add_comm 1 k]
    change (now.putAll width blank cells).lines k c = _
    rw [List.length_append, new] at less ⊢
    rcases Nat.lt_or_ge k (breaks width cells.length + 1) with here | further
    · have position : rows.length + (breaks width cells.length + 1) - 1 - k - rows.length =
          breaks width cells.length - k := by omega
      rw [List.getD_append_right _ _ _ _ (by omega), position, rows_of_get_d cells (by omega) column]
      exact laid k (by omega) c column
    · obtain ⟨j, rfl⟩ := Nat.exists_eq_add_of_le further
      have position : rows.length + (breaks width cells.length + 1) - 1 -
          (breaks width cells.length + 1 + j) = rows.length - 1 - j := by omega
      rw [before j, position, List.getD_append _ _ _ _ (by omega)]
      exact old j (by omega) c column
  · intro k
    rw [List.length_append, new, ← above k]
    have index : 1 + (rows.length + (breaks width cells.length + 1)) + k =
        breaks width cells.length + 1 + (rows.length + k) + 1 := by omega
    rw [index]
    change (now.putAll width blank cells).lines _ = _
    rw [before, Nat.add_assoc]

/-- All rows of the lines stand one below the other. -/
theorem put_lines_scrolled (pos : 0 < width) (fresh : t.Fresh blank) (texts : List (List α)) :
    Scrolled width blank (texts.flatMap (rowsOf width)) t (t.putLines width blank texts) := by
  induction texts using List.reverseRecOn with
  | nil =>
      refine ⟨fresh, fun k less => absurd less (Nat.not_lt_zero k), ?_⟩
      intro k
      rfl
  | append_singleton texts cells ih =>
      rw [putLines, List.foldl_append, List.flatMap_append, List.flatMap_singleton]
      exact scrolled_line pos ih cells

end Terminal

end ScrollTerminal
