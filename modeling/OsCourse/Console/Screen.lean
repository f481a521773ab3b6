import OsCourse.Console.Model

/-!
# OsCourse.Console.Screen

The CGA screen of the warm-up kernel (`OS-lab-xv6-warm-up/console.c`), 25 rows
of 80 cells, and `cgaputc` and `changePos`, which draw on it; `none` is the
panic for a cursor outside the screen. The cursor position is the content of
the CRT registers.

`pos` is an `int` of 32 bits; starting from a value of 16 bits, a sum that
leaves its range is negative or beyond the screen whether it wraps or not, so
sums are taken in `Int`.
-/

namespace OsCourse.Console

/-- The video memory and the cursor position. -/
structure Screen where
  crt : Nat → UInt16
  pos : Nat

/-- `c | 0x0700`: black on white. -/
def cell (c : UInt8) : UInt16 := c.toUInt16 ||| 0x0700

/-- The end of `cgaputc` and `changePos`: check the position, scroll up if it is
in the last row, and write it to the CRT registers. -/
def place (crt : Nat → UInt16) (pos : Int) : Option Screen :=
  if pos < 0 ∨ pos > 25 * 80 then none
  else if pos / 80 ≥ 24 then
    let pos := (pos - 80).toNat
    some ⟨fun i =>
      if pos ≤ i ∧ i < 24 * 80 then 0 else if i < 23 * 80 then crt (i + 80) else crt i, pos⟩
  else some ⟨crt, pos.toNat⟩

/-- `cgaputc`, called while `input` has the indices `w`, `e` and `end`. -/
def cgaputc (x : Screen) (c : Glyph) (w e end_ : UInt32) : Option Screen := do
  let x ←
    match c with
    | .backspace => place x.crt (if x.pos > 0 then x.pos - 1 else x.pos)
    | .char c =>
        if c = NEWLINE then place x.crt (x.pos + (80 - x.pos % 80))
        else if c = CURLY_LEFT then place x.crt (x.pos - signed (e - w))
        else if c = CURLY_RIGHT then place x.crt (x.pos + signed (end_ - e))
        else place (Function.update x.crt x.pos (cell c)) (x.pos + 1)
  if c ≠ .char CURLY_LEFT ∧ e = end_ then
    some { x with crt := Function.update x.crt x.pos (cell ' '.toUInt8) }
  else some x

/-- `changePos`. -/
def changePos (x : Screen) (change : Int) : Option Screen := place x.crt (x.pos + change)

/-- A call that reaches the screen. -/
def Screen.run (x : Screen) : ScreenOp → Option Screen
  | .cgaputc c w e end_ => cgaputc x c w e end_
  | .changePos change => changePos x change

/-- The calls of one key, one after another. -/
def Screen.runAll (x : Screen) (ops : List ScreenOp) : Option Screen := ops.foldlM Screen.run x

/-- The console with its screen. -/
structure Display where
  input : Input
  screen : Screen

/-- One key, when nothing else is printed: `none` if a subscript leaves
`input.buf` or the screen panics. -/
def Display.key (s : Display) (c : UInt8) : Option Display := do
  let (input, ops) ← consoleintr s.input c
  let screen ← s.screen.runAll ops
  some ⟨input, screen⟩

end OsCourse.Console
