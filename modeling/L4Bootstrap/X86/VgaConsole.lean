import L4Bootstrap.Lib.ByteMemory
import L4Bootstrap.Lib.ScrollTerminal

/-!
# The VGA console

`vga_putchar` of `x86_pc-base.h` and its copy `direct_cons_putchar` of boot32. The text buffer
is memory like any other; it always shows the last 25 lines of a terminal that is written to
at the bottom only.
-/

namespace L4Bootstrap.X86

open ByteMemory ScrollTerminal

set_option autoImplicit false

/-- `vidbase` -/
def vidbase : Nat := 0xb8000

/-- The state of an escape sequence and the attribute that is set by it: the static variables
`esc`, `esc_val` and `attr`. The `int` `esc_val` wraps. -/
structure Escape where
  esc : Nat
  escVal : BitVec 32
  attr : UInt8
  deriving DecidableEq, Repr

/-- The static variables and memory. `ofs` is `none` for the value in front of the first call. -/
structure Console extends Escape where
  ofs : Option Nat
  bytes : Bytes

/-- The first `switch` of `vga_putchar`; the answer says whether the character was consumed. -/
def Escape.next (e : Escape) (c : UInt8) : Bool × Escape :=
  if e.esc = 1 then
    if c = 0x5b then (true, { e with esc := e.esc + 1 }) else (false, { e with esc := 0 })
  else if e.esc = 2 then
    if 0x30 ≤ c ∧ c ≤ 0x39 then
      (true, { e with escVal := 10 * e.escVal + BitVec.ofNat 32 c.toNat - 0x30 })
    else if c = 0x6d then (true, { e with attr := if e.escVal ≠ 0 then 0x0f else 0x07 })
    else (false, { e with esc := 0 })
  else (false, e)

/-- One line up. -/
def scroll (bytes : Bytes) : Bytes :=
  memset (vidbase + 80 * 2 * 24) 0 (80 * 2)
    (memmove vidbase (vidbase + 80 * 2) (80 * 2 * 24) bytes)

/-- The second `switch` of `vga_putchar`; `newline` is the call for a full line. -/
def Console.control (newline : Console → Console) (c : UInt8) (s : Console) : Console :=
  if c = 0x0a then { s with bytes := scroll s.bytes, ofs := some 0 }
  else if c = 0x0d then { s with ofs := some 0 }
  else if c = 0x09 then { s with ofs := some ((s.ofs.getD 0 + 8) / 8 * 8) }
  else if c = 0x1b then { s with esc := 1, escVal := 0 }
  else
    let s := if 80 ≤ s.ofs.getD 0 then newline s else s
    let p := vidbase + 80 * 2 * 24 + s.ofs.getD 0 * 2
    { s with
      bytes := Function.update (Function.update s.bytes p c) (p + 1) s.attr
      ofs := some (s.ofs.getD 0 + 1) }

/-- Both `switch` statements. -/
def Console.switches (newline : Console → Console) (c : UInt8) (s : Console) : Console :=
  let (consumed, e) := s.toEscape.next c
  let s := { s with toEscape := e }
  if consumed then s else s.control newline c

/-- The body that both functions share. `first` is what `ofs` is set to in the first call; the
calls are nested no deeper than `depth`. -/
def putchar (first : Nat) : Nat → UInt8 → Console → Console
  | 0, _, s => s
  | depth + 1, c, s =>
      let s := match s.ofs with
        | none => putchar first depth 0x0a { s with ofs := some first }
        | some _ => s
      s.switches (putchar first depth 0x0a) c

def vgaPutchar : UInt8 → Console → Console := putchar 0 2

def directConsPutchar : UInt8 → Console → Console := putchar (80 * 2 * 24) 2

/-- `Uart_vga::write` -/
def uartVgaWrite (text : List UInt8) (s : Console) : Console :=
  text.foldl (fun s c => vgaPutchar c (if c = 0x0a then vgaPutchar 0x0d s else s)) s

/-- `__libc_backend_outs` of boot32 -/
def libcBackendOuts (text : List UInt8) (s : Console) : Console :=
  text.foldl (fun s c => directConsPutchar c s) s

/-! ## The terminal -/

/-- A character and its attribute. -/
abbrev Cell := UInt8 × UInt8

def blankCell : Cell := (0, 0)

abbrev Screen := Terminal Cell

/-- What a character does to the terminal, behind the escape sequences. -/
def Screen.putChar (attr : UInt8) (c : UInt8) (t : Screen) : Screen :=
  if c = 0x0a then t.feed blankCell
  else if c = 0x0d then t.home
  else if c = 0x09 then t.tab 8
  else if c = 0x1b then t
  else t.put 80 blankCell (c, attr)

/-- A character in the code: what it does to the static variables of the escape state, and to
the terminal. -/
def follow (c : UInt8) (state : Escape × Screen) : Escape × Screen :=
  match state.1.next c with
  | (true, e) => (e, state.2)
  | (false, e) =>
      (if c = 0x1b then { e with esc := 1, escVal := 0 } else e, state.2.putChar e.attr c)

/-- The text buffer shows the last 25 lines of the terminal. -/
structure Shows (t : Screen) (s : Console) : Prop where
  ofs : s.ofs = some t.col
  chars : ∀ r < 25, ∀ c < 80, s.bytes (vidbase + (r * 80 + c) * 2) = (t.lines (24 - r) c).1
  attrs : ∀ r < 25, ∀ c < 80, s.bytes (vidbase + (r * 80 + c) * 2 + 1) = (t.lines (24 - r) c).2

/-- Memory outside of the text buffer is the same. -/
def OnlyScreen (before after : Bytes) : Prop :=
  ∀ a, a < vidbase ∨ vidbase + 80 * 2 * 25 ≤ a → after a = before a

theorem OnlyScreen.trans {one two three : Bytes} (first : OnlyScreen one two)
    (second : OnlyScreen two three) : OnlyScreen one three :=
  fun a outside => (second a outside).trans (first a outside)

section

variable {s : Console} {t : Screen}

theorem scroll_only_screen (bytes : Bytes) : OnlyScreen bytes (scroll bytes) := by
  intro a outside
  have base : vidbase = 753664 := rfl
  rw [scroll, memset_outside (by rw [base] at outside ⊢; omega),
    memmove_outside (by rw [base] at outside ⊢; omega)]

theorem shows_scroll (shows : Shows t s) (e : Escape) :
    Shows (t.feed blankCell) ⟨e, some 0, scroll s.bytes⟩ := by
  have moved : ∀ r < 24, ∀ k < 160, scroll s.bytes (vidbase + r * 160 + k) =
      s.bytes (vidbase + (r + 1) * 160 + k) := by
    intro r above k inside
    have source := @memmove_inside vidbase (vidbase + 80 * 2) (80 * 2 * 24) s.bytes (r * 160 + k)
      (by omega)
    have from' : vidbase + 80 * 2 + (r * 160 + k) = vidbase + (r + 1) * 160 + k := by omega
    rw [← Nat.add_assoc, from'] at source
    rw [scroll, memset_outside (by omega), source]
  have cleared : ∀ k < 160, scroll s.bytes (vidbase + 24 * 160 + k) = 0 := by
    intro k inside
    rw [scroll, memset, if_pos (by omega)]
  refine ⟨rfl, ?_, ?_⟩
  · intro r below c column
    rcases Nat.lt_or_eq_of_le (Nat.le_of_lt_succ below) with above | rfl
    · have here := moved r above (c * 2) (by omega)
      have position : vidbase + (r * 80 + c) * 2 = vidbase + r * 160 + c * 2 := by omega
      have next : vidbase + (r + 1) * 160 + c * 2 = vidbase + ((r + 1) * 80 + c) * 2 := by omega
      have line : 24 - r = (24 - (r + 1)) + 1 := by omega
      rw [next, shows.chars (r + 1) (by omega) c column] at here
      rw [position, line]
      exact here
    · have position : vidbase + (24 * 80 + c) * 2 = vidbase + 24 * 160 + c * 2 := by omega
      rw [position]
      exact cleared (c * 2) (by omega)
  · intro r below c column
    rcases Nat.lt_or_eq_of_le (Nat.le_of_lt_succ below) with above | rfl
    · have here := moved r above (c * 2 + 1) (by omega)
      have position : vidbase + (r * 80 + c) * 2 + 1 = vidbase + r * 160 + (c * 2 + 1) := by omega
      have next : vidbase + (r + 1) * 160 + (c * 2 + 1) = vidbase + ((r + 1) * 80 + c) * 2 + 1 := by
        omega
      have line : 24 - r = (24 - (r + 1)) + 1 := by omega
      rw [next, shows.attrs (r + 1) (by omega) c column] at here
      rw [position, line]
      exact here
    · have position : vidbase + (24 * 80 + c) * 2 + 1 = vidbase + 24 * 160 + (c * 2 + 1) := by omega
      rw [position]
      exact cleared (c * 2 + 1) (by omega)

/-- A character in the last line. -/
theorem shows_write (shows : Shows t s) (room : t.col < 80) (e : Escape) (c attr : UInt8) :
    Shows (t.write (c, attr)) ⟨e, some (t.col + 1),
      Function.update (Function.update s.bytes (vidbase + 80 * 2 * 24 + t.col * 2) c)
        (vidbase + 80 * 2 * 24 + t.col * 2 + 1) attr⟩ := by
  have line : ∀ r < 25, ∀ k, (t.write (c, attr)).lines (24 - r) k =
      if r = 24 ∧ k = t.col then (c, attr) else t.lines (24 - r) k := by
    intro r below k
    change Function.update t.lines 0 (Function.update (t.lines 0) t.col (c, attr)) (24 - r) k = _
    by_cases last : r = 24
    · subst last
      rw [Nat.sub_self, Function.update_self, Function.update_apply]
      simp only [true_and]
    · rw [Function.update_of_ne (by omega), if_neg (by omega)]
  refine ⟨rfl, ?_, ?_⟩
  · intro r below k column
    change Function.update _ _ _ _ = _
    rw [line r below k, Function.update_of_ne (by omega), Function.update_apply]
    by_cases here : r = 24 ∧ k = t.col
    · rw [if_pos (by omega), if_pos here]
    · rw [if_neg (by omega), if_neg here]
      exact shows.chars r below k column
  · intro r below k column
    change Function.update _ _ _ _ = _
    rw [line r below k, Function.update_apply]
    by_cases here : r = 24 ∧ k = t.col
    · rw [if_pos (by omega), if_pos here]
    · rw [if_neg (by omega), if_neg here, Function.update_of_ne (by omega)]
      exact shows.attrs r below k column

/-! ## Characters -/

/-- Outside of an escape sequence. -/
def Escape.Idle (e : Escape) : Prop := e.esc ≠ 1 ∧ e.esc ≠ 2

theorem next_idle {e after : Escape} {c : UInt8} (through : e.next c = (false, after)) :
    after.Idle := by
  have reset : Escape.Idle { e with esc := 0 } := ⟨Nat.zero_ne_one, Nat.zero_ne_add_one 1⟩
  unfold Escape.next at through
  by_cases one : e.esc = 1
  · rw [if_pos one] at through
    by_cases bracket : c = 0x5b
    · rw [if_pos bracket] at through
      cases through
    · rw [if_neg bracket] at through
      cases through
      exact reset
  rw [if_neg one] at through
  by_cases two : e.esc = 2
  · rw [if_pos two] at through
    by_cases digit : 0x30 ≤ c ∧ c ≤ 0x39
    · rw [if_pos digit] at through
      cases through
    rw [if_neg digit] at through
    by_cases mode : c = 0x6d
    · rw [if_pos mode] at through
      cases through
    · rw [if_neg mode] at through
      cases through
      exact reset
  · rw [if_neg two] at through
    cases through
    exact ⟨one, two⟩

theorem next_of_idle {e : Escape} (idle : e.Idle) (c : UInt8) : e.next c = (false, e) := by
  rw [Escape.next, if_neg idle.1, if_neg idle.2]

/-- The nested calls only scroll. -/
theorem putchar_newline (first depth : Nat) {col : Nat} (idle : s.toEscape.Idle)
    (ofs : s.ofs = some col) :
    putchar first (depth + 1) 0x0a s = { s with bytes := scroll s.bytes, ofs := some 0 } := by
  simp only [putchar, ofs, Console.switches, next_of_idle idle, Bool.false_eq_true, if_false]
  rfl

theorem control_shows (shows : Shows t s) (idle : s.toEscape.Idle) (first depth : Nat) (c : UInt8) :
    Shows (t.putChar s.attr c) (s.control (putchar first (depth + 1) 0x0a) c) ∧
      (s.control (putchar first (depth + 1) 0x0a) c).toEscape =
        (if c = 0x1b then { s.toEscape with esc := 1, escVal := 0 } else s.toEscape) ∧
      OnlyScreen s.bytes (s.control (putchar first (depth + 1) 0x0a) c).bytes := by
  have col : s.ofs.getD 0 = t.col := by rw [shows.ofs, Option.getD_some]
  have same : OnlyScreen s.bytes s.bytes := fun _ _ => rfl
  have base : vidbase = 753664 := rfl
  have written : ∀ (bytes : Bytes) (k : Nat), k < 80 → OnlyScreen bytes
      (Function.update (Function.update bytes (vidbase + 80 * 2 * 24 + k * 2) c)
        (vidbase + 80 * 2 * 24 + k * 2 + 1) s.attr) := by
    intro bytes k room a outside
    rw [base] at outside
    rw [Function.update_of_ne (by omega), Function.update_of_ne (by omega)]
  unfold Console.control Screen.putChar
  by_cases feed : c = 0x0a
  · rw [if_pos feed, if_pos feed, if_neg (by rw [feed]; decide)]
    exact ⟨shows_scroll shows s.toEscape, rfl, scroll_only_screen s.bytes⟩
  rw [if_neg feed, if_neg feed]
  by_cases home : c = 0x0d
  · rw [if_pos home, if_pos home, if_neg (by rw [home]; decide)]
    exact ⟨⟨rfl, shows.chars, shows.attrs⟩, rfl, same⟩
  rw [if_neg home, if_neg home]
  by_cases tab : c = 0x09
  · rw [if_pos tab, if_pos tab, if_neg (by rw [tab]; decide), col]
    exact ⟨⟨rfl, shows.chars, shows.attrs⟩, rfl, same⟩
  rw [if_neg tab, if_neg tab]
  by_cases escape : c = 0x1b
  · rw [if_pos escape, if_pos escape, if_pos escape]
    exact ⟨⟨shows.ofs, shows.chars, shows.attrs⟩, rfl, same⟩
  rw [if_neg escape, if_neg escape, if_neg escape, Terminal.put]
  by_cases full : 80 ≤ t.col
  · have newline := putchar_newline first depth idle shows.ofs
    have scrolled := shows_scroll shows s.toEscape
    have room : (t.feed blankCell).col < 80 := Nat.zero_lt_succ 79
    rw [if_pos full, col, if_pos full, newline]
    exact ⟨shows_write scrolled room s.toEscape c s.attr, rfl,
      (scroll_only_screen s.bytes).trans (written _ 0 (by decide))⟩
  · have room := Nat.lt_of_not_le full
    rw [if_neg full, col, if_neg full]
    refine ⟨?_, rfl, ?_⟩
    · simp only [col]
      exact shows_write shows room s.toEscape c s.attr
    · simp only [col]
      exact written s.bytes t.col room

/-- One character. -/
theorem putchar_shows (shows : Shows t s) (first : Nat) (c : UInt8) :
    Shows (follow c (s.toEscape, t)).2 (putchar first 2 c s) ∧
      (putchar first 2 c s).toEscape = (follow c (s.toEscape, t)).1 ∧
      OnlyScreen s.bytes (putchar first 2 c s).bytes := by
  rw [putchar, follow, shows.ofs]
  simp only [Console.switches]
  cases step : s.toEscape.next c with
  | mk consumed e =>
      cases consumed with
      | true => exact ⟨⟨shows.ofs, shows.chars, shows.attrs⟩, rfl, fun _ _ => rfl⟩
      | false =>
          have here : Shows t { s with toEscape := e } := ⟨shows.ofs, shows.chars, shows.attrs⟩
          exact control_shows here (next_idle step) first 0 c

/-- The first call makes room for a line; what it sets `ofs` to does not matter. -/
theorem putchar_first (fresh : s.ofs = none) (idle : s.toEscape.Idle) {first : Nat} {c : UInt8} :
    putchar first 2 c s = putchar first 2 c { s with bytes := scroll s.bytes, ofs := some 0 } := by
  have newline := @putchar_newline { s with ofs := some first } first 0 first idle rfl
  have step : putchar first 2 c s = Console.switches (putchar first 1 0x0a) c
      (putchar first 1 0x0a { s with ofs := some first }) := by
    rw [putchar, fresh]
  rw [step, newline]
  rfl

end

/-! ## Texts -/

/-- What the text buffer shows in front of the first character: its old lines, one line higher. -/
def Console.cleared (bytes : Bytes) : Screen :=
  Terminal.feed blankCell
    { lines := fun k c => (bytes (vidbase + ((24 - k) * 80 + c) * 2),
        bytes (vidbase + ((24 - k) * 80 + c) * 2 + 1))
      col := 0 }

/-- The terminal behind a console: what it shows, and what it will show as soon as something is
written. -/
inductive Displays (t : Screen) (s : Console) : Prop
  | started (shows : Shows t s)
  | fresh (ofs : s.ofs = none) (idle : s.toEscape.Idle) (cleared : t = Console.cleared s.bytes)

section

variable {s : Console} {t : Screen}

theorem shows_cleared (s : Console) (e : Escape) :
    Shows (Console.cleared s.bytes) ⟨e, some 0, scroll s.bytes⟩ := by
  have lines : ∀ r < 25, 24 - (24 - r) = r := by
    intro r below
    omega
  apply @shows_scroll ⟨e, some 0, s.bytes⟩ _ _ e
  refine ⟨rfl, ?_, ?_⟩
  · intro r below c _
    simp only [lines r below]
  · intro r below c _
    simp only [lines r below]

/-- A text on the terminal. -/
def followAll (text : List UInt8) (state : Escape × Screen) : Escape × Screen :=
  text.foldl (fun state c => follow c state) state

theorem console_shows (shows : Shows t s) (first : Nat) (text : List UInt8) :
    Shows (followAll text (s.toEscape, t)).2 (text.foldl (fun s c => putchar first 2 c s) s) ∧
      (text.foldl (fun s c => putchar first 2 c s) s).toEscape =
        (followAll text (s.toEscape, t)).1 ∧
      OnlyScreen s.bytes (text.foldl (fun s c => putchar first 2 c s) s).bytes := by
  induction text generalizing s t with
  | nil => exact ⟨shows, rfl, fun _ _ => rfl⟩
  | cons c rest ih =>
      obtain ⟨next, escape, only⟩ := putchar_shows shows first c
      obtain ⟨shown, last, others⟩ := ih next
      rw [escape] at shown last
      exact ⟨shown, last, only.trans others⟩

theorem follow_through {e after : Escape} {c : UInt8} (through : e.next c = (false, after))
    (noEscape : c ≠ 0x1b) : follow c (e, t) = (after, t.putChar after.attr c) := by
  rw [follow, through]
  simp only [if_neg noEscape]

/-- A carriage return in front of a line feed changes nothing. -/
theorem follow_return_feed (state : Escape × Screen) :
    follow 0x0a (follow 0x0d state) = follow 0x0a state := by
  obtain ⟨e, t⟩ := state
  have both : ∀ after : Escape, after.Idle → e.next 0x0d = (false, after) →
      e.next 0x0a = (false, after) →
        follow 0x0a (follow 0x0d (e, t)) = follow 0x0a (e, t) := by
    intro after idle home feed
    rw [follow_through home (by decide), follow_through (next_of_idle idle 0x0a) (by decide),
      follow_through feed (by decide)]
    rfl
  have reset : Escape.Idle { e with esc := 0 } := ⟨Nat.zero_ne_one, Nat.zero_ne_add_one 1⟩
  by_cases one : e.esc = 1
  · have control : ∀ c : UInt8, c ≠ 0x5b → e.next c = (false, { e with esc := 0 }) := by
      intro c other
      rw [Escape.next, if_pos one, if_neg other]
    exact both _ reset (control 0x0d (by decide)) (control 0x0a (by decide))
  by_cases two : e.esc = 2
  · have control : ∀ c : UInt8, c < 0x30 → e.next c = (false, { e with esc := 0 }) := by
      intro c low
      have notDigit : ¬ (0x30 ≤ c ∧ c ≤ 0x39) := fun digit => absurd low (UInt8.not_lt.mpr digit.1)
      have notMode : c ≠ 0x6d := by
        rintro rfl
        exact absurd low (by decide)
      rw [Escape.next, if_neg one, if_pos two, if_neg notDigit, if_neg notMode]
    exact both _ reset (control 0x0d (by decide)) (control 0x0a (by decide))
  · have isIdle : e.Idle := ⟨one, two⟩
    exact both e isIdle (next_of_idle isIdle 0x0d) (next_of_idle isIdle 0x0a)

theorem uart_vga_write_shows (shows : Shows t s) (text : List UInt8) :
    Shows (followAll text (s.toEscape, t)).2 (uartVgaWrite text s) ∧
      (uartVgaWrite text s).toEscape = (followAll text (s.toEscape, t)).1 ∧
      OnlyScreen s.bytes (uartVgaWrite text s).bytes := by
  induction text generalizing s t with
  | nil => exact ⟨shows, rfl, fun _ _ => rfl⟩
  | cons c rest ih =>
      rw [uartVgaWrite, List.foldl_cons]
      by_cases feed : c = 0x0a
      · obtain ⟨returned, returnedEscape, onlyReturn⟩ := putchar_shows shows 0 0x0d
        obtain ⟨next, escape, only⟩ := putchar_shows returned 0 c
        obtain ⟨shown, last, others⟩ := ih next
        have same : follow c (follow 0x0d (s.toEscape, t)) = follow c (s.toEscape, t) := by
          rw [feed]
          exact follow_return_feed _
        rw [escape, returnedEscape, same] at shown last
        rw [if_pos feed]
        exact ⟨shown, last, (onlyReturn.trans only).trans others⟩
      · obtain ⟨next, escape, only⟩ := putchar_shows shows 0 c
        obtain ⟨shown, last, others⟩ := ih next
        rw [escape] at shown last
        rw [if_neg feed]
        exact ⟨shown, last, only.trans others⟩

/-- The text buffer shows the last 25 lines of what the code follows, and memory outside of it
stays the same. -/
theorem write_shows {write : List UInt8 → Console → Console}
    (console : write = uartVgaWrite ∨ write = libcBackendOuts) (displays : Displays t s)
    {text : List UInt8} (nonempty : text ≠ []) :
    Shows (followAll text (s.toEscape, t)).2 (write text s) ∧
      (write text s).toEscape = (followAll text (s.toEscape, t)).1 ∧
      OnlyScreen s.bytes (write text s).bytes := by
  rcases console with rfl | rfl
  · cases displays with
    | started shows => exact uart_vga_write_shows shows text
    | fresh ofs idle cleared =>
        -- from the first character on it does not matter that there was none before
        have same : uartVgaWrite text s =
            uartVgaWrite text { s with bytes := scroll s.bytes, ofs := some 0 } := by
          cases text with
          | nil => exact absurd rfl nonempty
          | cons c rest =>
              rw [uartVgaWrite, uartVgaWrite, List.foldl_cons, List.foldl_cons]
              congr 1
              by_cases feed : c = 0x0a
              · rw [if_pos feed, if_pos feed]
                exact congrArg (putchar 0 2 c) (putchar_first ofs idle)
              · rw [if_neg feed, if_neg feed]
                exact putchar_first ofs idle
        obtain ⟨shown, last, only⟩ := @uart_vga_write_shows
          { s with bytes := scroll s.bytes, ofs := some 0 } t (cleared ▸ shows_cleared s _) text
        rw [same]
        exact ⟨shown, last, (scroll_only_screen s.bytes).trans only⟩
  · cases displays with
    | started shows => exact console_shows shows (80 * 2 * 24) text
    | fresh ofs idle cleared =>
        have same : libcBackendOuts text s =
            libcBackendOuts text { s with bytes := scroll s.bytes, ofs := some 0 } := by
          cases text with
          | nil => exact absurd rfl nonempty
          | cons c rest =>
              rw [libcBackendOuts, libcBackendOuts, List.foldl_cons, List.foldl_cons]
              congr 1
              exact putchar_first ofs idle
        obtain ⟨shown, last, only⟩ := @console_shows
          { s with bytes := scroll s.bytes, ofs := some 0 } t (cleared ▸ shows_cleared s _)
          (80 * 2 * 24) text
        rw [same]
        exact ⟨shown, last, (scroll_only_screen s.bytes).trans only⟩

/-! ## The terminal with escape sequences -/

/-- Where a text is: outside of escape sequences, behind ESC, or behind `ESC [` and the digits of
a number. -/
inductive Sequence
  | text
  | escape
  | parameter (number : Nat)

/-- A terminal with one escape sequence: `ESC [ number m` sets bright letters, or normal ones for
the number 0. The sequence stays open until another character than a digit or `m` comes. -/
structure Display where
  sequence : Sequence
  attr : UInt8
  screen : Screen

namespace Display

/-- A character that is no part of a sequence, or that begins one. -/
def plain (c : UInt8) (d : Display) : Display where
  sequence := if c = 0x1b then .escape else .text
  attr := d.attr
  screen := d.screen.putChar d.attr c

/-- What a character means; numbers count modulo the range of an `int`. -/
def interpret (c : UInt8) (d : Display) : Display :=
  match d.sequence with
  | .text => d.plain c
  | .escape => if c = 0x5b then { d with sequence := .parameter 0 } else d.plain c
  | .parameter number =>
      if 0x30 ≤ c ∧ c ≤ 0x39 then
        { d with sequence := .parameter (10 * number + (c.toNat - 0x30)) }
      else if c = 0x6d then { d with attr := if 2 ^ 32 ∣ number then 0x07 else 0x0f }
      else d.plain c

def interpretAll (text : List UInt8) (d : Display) : Display :=
  text.foldl (fun d c => d.interpret c) d

/-- The static variables stand for the state of the terminal. -/
structure StandsFor (e : Escape) (d : Display) : Prop where
  attr : e.attr = d.attr
  sequence : match d.sequence with
    | .text => e.Idle
    | .escape => e.esc = 1 ∧ e.escVal = 0
    | .parameter number => e.esc = 2 ∧ e.escVal = BitVec.ofNat 32 number

theorem stands_for_plain {e : Escape} {d : Display} (attr : e.attr = d.attr) (idle : e.Idle)
    (c : UInt8) :
    StandsFor (if c = 0x1b then { e with esc := 1, escVal := 0 } else e) (d.plain c) ∧
      d.screen.putChar e.attr c = (d.plain c).screen := by
  refine ⟨?_, by rw [attr]; rfl⟩
  by_cases escape : c = 0x1b
  · rw [if_pos escape]
    refine ⟨attr, ?_⟩
    simp only [plain, if_pos escape]
    exact ⟨trivial, trivial⟩
  · rw [if_neg escape]
    refine ⟨attr, ?_⟩
    simp only [plain, if_neg escape]
    exact idle

/-- One digit more. -/
theorem number_digit {c : UInt8} (digit : 0x30 ≤ c) (number : Nat) :
    10 * BitVec.ofNat 32 number + BitVec.ofNat 32 c.toNat - 0x30 =
      BitVec.ofNat 32 (10 * number + (c.toNat - 0x30)) := by
  have low : 0x30 ≤ c.toNat := UInt8.le_iff_toNat_le.mp digit
  have ten : (10 : BitVec 32).toNat = 10 := rfl
  have zero : (0x30 : BitVec 32).toNat = 0x30 := rfl
  apply BitVec.eq_of_toNat_eq
  simp only [BitVec.toNat_sub, BitVec.toNat_add, BitVec.toNat_mul, BitVec.toNat_ofNat, ten, zero]
  omega

theorem number_zero_iff (number : Nat) : BitVec.ofNat 32 number = 0 ↔ 2 ^ 32 ∣ number := by
  rw [Nat.dvd_iff_mod_eq_zero, ← BitVec.toNat_ofNat]
  constructor
  · intro zero
    rw [zero]
    rfl
  · intro zero
    exact BitVec.eq_of_toNat_eq zero

/-- One character: the code follows the terminal. -/
theorem follow_interpret {e : Escape} {d : Display} (stands : StandsFor e d) (c : UInt8) :
    StandsFor (follow c (e, d.screen)).1 (d.interpret c) ∧
      (follow c (e, d.screen)).2 = (d.interpret c).screen := by
  obtain ⟨attr, sequence⟩ := stands
  have reset : Escape.Idle { e with esc := 0 } := ⟨Nat.zero_ne_one, Nat.zero_ne_add_one 1⟩
  have resetAttr : ({ e with esc := 0 } : Escape).attr = d.attr := attr
  unfold interpret
  cases isSequence : d.sequence with
  | text =>
      rw [isSequence] at sequence
      rw [follow, next_of_idle sequence]
      exact stands_for_plain attr sequence c
  | escape =>
      rw [isSequence] at sequence
      obtain ⟨esc, value⟩ := sequence
      by_cases bracket : c = 0x5b
      · have next : e.next c = (true, { e with esc := e.esc + 1 }) := by
          rw [Escape.next, if_pos esc, if_pos bracket]
        rw [follow, next]
        simp only [if_pos bracket]
        exact ⟨⟨attr, by simp only [esc]; exact ⟨trivial, value⟩⟩, trivial⟩
      · have next : e.next c = (false, { e with esc := 0 }) := by
          rw [Escape.next, if_pos esc, if_neg bracket]
        rw [follow, next]
        simp only [if_neg bracket]
        exact stands_for_plain resetAttr reset c
  | parameter number =>
      rw [isSequence] at sequence
      obtain ⟨esc, value⟩ := sequence
      have notOne : e.esc ≠ 1 := by omega
      by_cases digit : 0x30 ≤ c ∧ c ≤ 0x39
      · have next : e.next c =
            (true, { e with escVal := 10 * e.escVal + BitVec.ofNat 32 c.toNat - 0x30 }) := by
          rw [Escape.next, if_neg notOne, if_pos esc, if_pos digit]
        rw [follow, next]
        simp only [if_pos digit]
        refine ⟨⟨attr, esc, ?_⟩, trivial⟩
        simp only [value]
        exact number_digit digit.1 number
      by_cases mode : c = 0x6d
      · have next : e.next c = (true, { e with attr := if e.escVal ≠ 0 then 0x0f else 0x07 }) := by
          rw [Escape.next, if_neg notOne, if_pos esc, if_neg digit, if_pos mode]
        rw [follow, next]
        simp only [if_neg digit, if_pos mode]
        refine ⟨⟨?_, ?_⟩, trivial⟩
        · simp only [value, ne_eq, number_zero_iff, ite_not]
        · simp only
          exact ⟨esc, value⟩
      · have next : e.next c = (false, { e with esc := 0 }) := by
          rw [Escape.next, if_neg notOne, if_pos esc, if_neg digit, if_neg mode]
        rw [follow, next]
        simp only [if_neg digit, if_neg mode]
        exact stands_for_plain resetAttr reset c

theorem follow_all_interpret {e : Escape} {d : Display} (stands : StandsFor e d)
    (text : List UInt8) :
    StandsFor (followAll text (e, d.screen)).1 (d.interpretAll text) ∧
      (followAll text (e, d.screen)).2 = (d.interpretAll text).screen := by
  induction text generalizing e d with
  | nil => exact ⟨stands, rfl⟩
  | cons c rest ih =>
      obtain ⟨next, screen⟩ := follow_interpret stands c
      have later := ih next
      rw [← screen] at later
      exact later

end Display

/-- Whatever is written, the text buffer shows the last 25 lines of the terminal, the static
variables stand for its state, and memory outside of the buffer stays the same. The bound keeps
`ofs` an `int`, which only tabs can move far. -/
def IsTerminal (write : List UInt8 → Console → Console) : Prop :=
  ∀ (d : Display) (s : Console) (text : List UInt8), Displays d.screen s →
    d.StandsFor s.toEscape → text ≠ [] → d.screen.col + 8 * text.length < 2 ^ 31 →
      Shows (d.interpretAll text).screen (write text s) ∧
        (d.interpretAll text).StandsFor (write text s).toEscape ∧
        (d.interpretAll text).screen.col < 2 ^ 31 ∧ OnlyScreen s.bytes (write text s).bytes

/-- A character moves the cursor by eight columns at most. -/
theorem put_char_col (attr c : UInt8) (t : Screen) : (t.putChar attr c).col ≤ t.col + 8 := by
  unfold Screen.putChar
  split_ifs
  · exact Nat.zero_le _
  · exact Nat.zero_le _
  · change (t.col + 8) / 8 * 8 ≤ t.col + 8
    exact Nat.div_mul_le_self _ _
  · omega
  · unfold Terminal.put
    split_ifs
    · change 0 + 1 ≤ t.col + 8
      omega
    · change t.col + 1 ≤ t.col + 8
      omega

theorem interpret_all_col (text : List UInt8) (d : Display) :
    (d.interpretAll text).screen.col ≤ d.screen.col + 8 * text.length := by
  induction text generalizing d with
  | nil => exact Nat.le_refl _
  | cons c rest ih =>
      have one : (d.interpret c).screen.col ≤ d.screen.col + 8 := by
        have plain := put_char_col d.attr c d.screen
        unfold Display.interpret
        cases d.sequence with
        | text => exact plain
        | escape =>
            simp only
            split_ifs
            · exact Nat.le_add_right _ _
            · exact plain
        | parameter number =>
            by_cases digit : 0x30 ≤ c ∧ c ≤ 0x39
            · simp only [if_pos digit]
              exact Nat.le_add_right _ _
            by_cases mode : c = 0x6d
            · simp only [if_neg digit, if_pos mode]
              exact Nat.le_add_right _ _
            · simp only [if_neg digit, if_neg mode]
              exact plain
      have later := ih (d.interpret c)
      change (Display.interpretAll rest (d.interpret c)).screen.col ≤ _
      rw [List.length_cons]
      omega

/-- The consoles of both parts of the program are the same terminal. -/
theorem consoles_are_terminals : IsTerminal uartVgaWrite ∧ IsTerminal libcBackendOuts := by
  have terminal : ∀ write, write = uartVgaWrite ∨ write = libcBackendOuts → IsTerminal write := by
    intro write console d s text displays stands nonempty short
    obtain ⟨shows, escape, only⟩ := write_shows console displays nonempty
    obtain ⟨still, screen⟩ := d.follow_all_interpret stands text
    rw [screen] at shows
    rw [← escape] at still
    have col := interpret_all_col text d
    exact ⟨shows, still, by omega, only⟩
  exact ⟨terminal _ (.inl rfl), terminal _ (.inr rfl)⟩

/-! ## Plain lines -/

/-- A character that is neither a control character of the console nor starts a sequence. -/
def Printable (c : UInt8) : Prop := c ≠ 0x0a ∧ c ≠ 0x0d ∧ c ≠ 0x09 ∧ c ≠ 0x1b

instance (c : UInt8) : Decidable (Printable c) := inferInstanceAs (Decidable (_ ∧ _))

theorem follow_printable {e : Escape} (idle : e.Idle) {text : List UInt8}
    (printable : ∀ c ∈ text, Printable c) :
    followAll text (e, t) =
      (e, t.putAll 80 blankCell (text.map fun c => (c, e.attr))) := by
  induction text generalizing t with
  | nil => rfl
  | cons c rest ih =>
      obtain ⟨⟨feed, home, tab, escape⟩, others⟩ := List.forall_mem_cons.mp printable
      have step : follow c (e, t) = (e, t.put 80 blankCell (c, e.attr)) := by
        rw [follow, next_of_idle idle]
        simp only [if_neg escape]
        rw [Screen.putChar, if_neg feed, if_neg home, if_neg tab, if_neg escape]
      rw [followAll, List.foldl_cons, step]
      exact ih others

/-- The lines of a text, each with a line feed. -/
def linesText (texts : List (List UInt8)) : List UInt8 := texts.flatMap fun text => text ++ [0x0a]

theorem follow_lines {e : Escape} (idle : e.Idle) {texts : List (List UInt8)}
    (printable : ∀ text ∈ texts, ∀ c ∈ text, Printable c) :
    followAll (linesText texts) (e, t) =
      (e, t.putLines 80 blankCell (texts.map fun text => text.map fun c => (c, e.attr))) := by
  induction texts generalizing t with
  | nil => rfl
  | cons text rest ih =>
      obtain ⟨here, others⟩ := List.forall_mem_cons.mp printable
      have line : followAll (text ++ [0x0a]) (e, t) =
          (e, (t.putAll 80 blankCell (text.map fun c => (c, e.attr))).feed blankCell) := by
        rw [followAll, List.foldl_append]
        change follow 0x0a (followAll text (e, t)) = _
        rw [follow_printable idle here, follow, next_of_idle idle]
        rfl
      rw [linesText, List.flatMap_cons, followAll, List.foldl_append]
      change followAll (linesText rest) (followAll (text ++ [0x0a]) (e, t)) = _
      rw [line]
      exact ih others

/-- The cells of rows of 80 that the lines take. -/
def textRows (attr : UInt8) (texts : List (List UInt8)) : List (List Cell) :=
  (texts.map fun text => text.map fun c => (c, attr)).flatMap (Terminal.rowsOf 80)

/-- The row of the text buffer that is `k` rows above the last but one. -/
structure RowShows (bytes : Bytes) (k : Nat) (row : List Cell) : Prop where
  chars : ∀ c < 80, bytes (vidbase + ((23 - k) * 80 + c) * 2) = (row.getD c blankCell).1
  attrs : ∀ c < 80, bytes (vidbase + ((23 - k) * 80 + c) * 2 + 1) = (row.getD c blankCell).2

theorem displayed_rows {texts : List (List UInt8)} (fresh : t.Fresh blankCell)
    {after : Console} (attr : UInt8)
    (shows : Shows (t.putLines 80 blankCell (texts.map fun text => text.map fun c => (c, attr))) after)
    {k : Nat} (inside : k < (textRows attr texts).length) (onScreen : k < 24) :
    RowShows after.bytes k
      ((textRows attr texts).getD ((textRows attr texts).length - 1 - k) []) := by
  have scrolled := Terminal.put_lines_scrolled (show 0 < 80 by decide) fresh
    (texts.map fun text => text.map fun c => (c, attr))
  have line : 24 - (23 - k) = 1 + k := by omega
  constructor
  · intro c column
    rw [shows.chars (23 - k) (by omega) c column, line, scrolled.shown k inside c column]
    rfl
  · intro c column
    rw [shows.attrs (23 - k) (by omega) c column, line, scrolled.shown k inside c column]
    rfl

/-- The row at the bottom is empty. -/
structure BottomEmpty (bytes : Bytes) : Prop where
  chars : ∀ c < 80, bytes (vidbase + (24 * 80 + c) * 2) = 0
  attrs : ∀ c < 80, bytes (vidbase + (24 * 80 + c) * 2 + 1) = 0

theorem bottom_empty_of_fresh {after : Console} (shows : Shows t after) (fresh : t.Fresh blankCell) :
    BottomEmpty after.bytes := by
  constructor
  · intro c column
    rw [shows.chars 24 (by decide) c column, fresh.empty c]
    rfl
  · intro c column
    rw [shows.attrs 24 (by decide) c column, fresh.empty c]
    rfl

/-- The last rows of plain lines stand above the bottom of the screen, which is empty. -/
theorem lines_on_screen {write : List UInt8 → Console → Console}
    (console : write = uartVgaWrite ∨ write = libcBackendOuts) (displays : Displays t s)
    (idle : s.toEscape.Idle) (fresh : t.Fresh blankCell) {texts : List (List UInt8)}
    (nonempty : texts ≠ []) (printable : ∀ text ∈ texts, ∀ c ∈ text, Printable c) :
    (∀ k < (textRows s.attr texts).length, k < 24 →
      RowShows (write (linesText texts) s).bytes k
        ((textRows s.attr texts).getD ((textRows s.attr texts).length - 1 - k) [])) ∧
      BottomEmpty (write (linesText texts) s).bytes ∧ (write (linesText texts) s).ofs = some 0 := by
  have written : linesText texts ≠ [] := by
    cases texts with
    | nil => exact absurd rfl nonempty
    | cons text rest => simp [linesText]
  obtain ⟨shows, _, _⟩ := write_shows console displays written
  rw [follow_lines idle printable] at shows
  have scrolled := Terminal.put_lines_scrolled (show 0 < 80 by decide) fresh
    (texts.map fun text => text.map fun c => (c, s.attr))
  refine ⟨fun k inside onScreen => displayed_rows fresh s.attr shows inside onScreen,
    bottom_empty_of_fresh shows scrolled.fresh, ?_⟩
  rw [shows.ofs, scrolled.fresh.col]

/-- A console in front of the first call, on a screen full of blanks. -/
def bootConsole : Console := ⟨⟨0, 0, 0x07⟩, none, fun _ => 0x20⟩

/-- The second line is one character longer than a row. -/
def bootTexts : List (List UInt8) := [[0x4f, 0x4b], List.replicate 81 0x2d, [0x3e]]

theorem lines_on_screen_boot :
    RowShows (libcBackendOuts (linesText bootTexts) bootConsole).bytes 3
        [(0x4f, 0x07), (0x4b, 0x07)] ∧
      RowShows (libcBackendOuts (linesText bootTexts) bootConsole).bytes 2
        (List.replicate 80 (0x2d, 0x07)) ∧
      RowShows (libcBackendOuts (linesText bootTexts) bootConsole).bytes 1 [(0x2d, 0x07)] ∧
      RowShows (libcBackendOuts (linesText bootTexts) bootConsole).bytes 0 [(0x3e, 0x07)] ∧
      BottomEmpty (libcBackendOuts (linesText bootTexts) bootConsole).bytes := by
  have shown := @lines_on_screen bootConsole _ libcBackendOuts (.inr rfl)
    (.fresh rfl ⟨by decide, by decide⟩ rfl) ⟨by decide, by decide⟩ (Terminal.fresh_feed _ _)
    bootTexts (by decide) (by simp [bootTexts, Printable])
  have rows : textRows 0x07 bootTexts = [[(0x4f, 0x07), (0x4b, 0x07)],
      List.replicate 80 (0x2d, 0x07), [(0x2d, 0x07)], [(0x3e, 0x07)]] := by decide +kernel
  have attr : bootConsole.attr = 0x07 := rfl
  rw [attr, rows] at shown
  exact ⟨shown.1 3 (by decide) (by decide), shown.1 2 (by decide) (by decide),
    shown.1 1 (by decide) (by decide), shown.1 0 (by decide) (by decide), shown.2.1⟩

end

end L4Bootstrap.X86
