import Mathlib.Algebra.Group.Nat.Defs
import Mathlib.Logic.Function.Basic
import OsCourse.Lib.CBuf
import OsCourse.Lib.Machine

/-!
# OsCourse.Console.Model

The line discipline of the warm-up kernel (`OS-lab-xv6-warm-up/console.c`): the
input buffer, the functions that edit it, `consoleintr` and `consoleread`.

Everything runs under `cons.lock`, one key of `consoleintr` and one stretch of
`consoleread` (from `acquire` or the return of `sleep` to the next `sleep` or
`release`) at a time; these are the events of `machine`. A function returns
`none` when it applies a subscript outside `0..INPUT_BUF-1` to `input.buf`.

The buffer does not depend on the screen. What an editing function sends there
is returned beside the new buffer, in order, as a list of `ScreenOp`s;
`cgaputc` also looks at `w`, `e` and `end`, so such an operation carries their
values at the moment of the call. The copy sent to the serial port is left out,
and so is `procdump()` (^P), which does not touch the buffer.
-/

namespace OsCourse.Console

open OsCourse.Lib

/-- `INPUT_BUF`. -/
abbrev INPUT_BUF : Nat := 128

/-- `C(x)`: Control-x. -/
def C (x : Char) : UInt8 := x.toUInt8 - '@'.toUInt8

/-- `'\n'`. -/
def NEWLINE : UInt8 := '\n'.toUInt8

/-- `CURLY_LEFT`. -/
def CURLY_LEFT : UInt8 := '{'.toUInt8

/-- `CURLY_RIGHT`. -/
def CURLY_RIGHT : UInt8 := '}'.toUInt8

/-- The value of a `uint` converted to `int`. -/
def signed (x : UInt32) : Int := (x.toNat : Int).bmod (2 ^ 32)

/-- `input`. -/
structure Input where
  buf : CBuf INPUT_BUF
  /-- Read index. -/
  r : UInt32
  /-- Write index. -/
  w : UInt32
  /-- Edit index. -/
  e : UInt32
  /-- End of the buffer. -/
  end_ : UInt32
  deriving DecidableEq

/-- What `consputc` and `cgaputc` are called with: a character or `BACKSPACE`. -/
inductive Glyph
  | backspace
  | char (c : UInt8)
  deriving DecidableEq, Repr

/-- A call that reaches the screen. -/
inductive ScreenOp
  /-- `cgaputc(c)`, called while `input` has these indices. -/
  | cgaputc (c : Glyph) (w e end_ : UInt32)
  | changePos (change : Int)
  deriving DecidableEq, Repr

/-- `consputc(c)` or `cgaputc(c)`, called with `input` as it is. -/
def Input.putc (s : Input) (c : Glyph) : ScreenOp := .cgaputc c s.w s.e s.end_

/-! ### The editing functions -/

/-- The loop of `shiftToRight` with `k` rounds to go: `i` is `start + k - 1`. -/
def shiftToRightLoop (start : Int) : Nat → CBuf INPUT_BUF → Option (CBuf INPUT_BUF)
  | 0, buffer => some buffer
  | k + 1, buffer => do
      let c ← CBuf.read buffer (start + k)
      let buffer ← CBuf.write buffer (start + k + 1) c
      shiftToRightLoop start k buffer

/-- `shiftToRight`: `for (i = end; i >= start; i--) buffer[i+1] = buffer[i]`. -/
def shiftToRight (buffer : CBuf INPUT_BUF) (end_ start : Int) : Option (CBuf INPUT_BUF) :=
  shiftToRightLoop start (end_ + 1 - start).toNat buffer

/-- The loop of `shiftToLeft` from `i` on, with `k` rounds to go. -/
def shiftToLeftLoop : Nat → Int → CBuf INPUT_BUF → Option (CBuf INPUT_BUF)
  | 0, _, buffer => some buffer
  | k + 1, i, buffer => do
      let c ← CBuf.read buffer i
      let buffer ← CBuf.write buffer (i - 1) c
      shiftToLeftLoop k (i + 1) buffer

/-- `shiftToLeft`: `for (i = start; i <= end; i++) buffer[i-1] = buffer[i]`. -/
def shiftToLeft (buffer : CBuf INPUT_BUF) (end_ start : Int) : Option (CBuf INPUT_BUF) :=
  shiftToLeftLoop (end_ + 1 - start).toNat start buffer

/-- The loop of `killLine`, with at most `k` rounds to go (each takes `end` one
closer to `w`). -/
def killLoop : Nat → Input → Option (Input × List ScreenOp)
  | 0, s => some (s, [])
  | k + 1, s =>
      if s.end_ = s.w then some (s, [])
      else do
        let c ← CBuf.read s.buf ((s.e - 1) % 128).toNat
        if c = NEWLINE then some (s, [])
        else
          let s := { s with e := s.e - 1, end_ := s.end_ - 1 }
          let (s', ops) ← killLoop k s
          some (s', s.putc .backspace :: ops)

/-- `killLine`. -/
def killLine (s : Input) : Option (Input × List ScreenOp) := do
  let change := signed (s.end_ - s.e)
  let (s', ops) ← killLoop (s.end_ - s.w).toNat { s with e := s.end_ }
  some (s', .changePos change :: ops)

/-- `handleWriteInmid`. -/
def handleWriteInmid (s : Input) (c : UInt8) : Option (Input × List ScreenOp) := do
  let buf ← shiftToRight s.buf (signed s.end_) (signed s.e)
  let buf ← CBuf.write buf (s.e % 128).toNat c
  let text ← CBuf.readRange buf s.w.toNat (s.end_.toNat + 1 - s.w.toNat)
  some ({ s with buf := buf, end_ := s.end_ + 1, e := s.e + 1 },
    .changePos (signed (s.end_ - s.e)) ::
      (List.replicate (s.end_.toNat - s.w.toNat) (s.putc .backspace) ++
        (text.map (fun c => s.putc (.char c)) ++ [.changePos (signed (-(s.end_ - s.e)))])))

/-- `handleBackspaceInMid`. -/
def handleBackspaceInMid (s : Input) : Option (Input × List ScreenOp) := do
  let buf ← shiftToLeft s.buf (signed s.end_) (signed s.e)
  let text ← CBuf.readRange buf s.w.toNat (s.end_.toNat - s.w.toNat)
  some ({ s with buf := buf, end_ := s.end_ - 1, e := s.e - 1 },
    .changePos (signed (s.end_ - s.e)) ::
      (List.replicate (s.end_.toNat - s.w.toNat) (s.putc .backspace) ++
        (text.map (fun c => s.putc (.char c)) ++ [.changePos (signed (-(s.end_ - s.e + 1)))])))

/-- The branches of `consoleintr` that put `c` at the end of the line. -/
def appendChar (s : Input) (c : UInt8) : Option (Input × List ScreenOp) := do
  let buf ← shiftToRight s.buf (signed s.end_) (signed s.e)
  let buf ← CBuf.write buf (s.e % 128).toNat c
  let s := { s with buf := buf, e := s.e + 1, end_ := s.end_ + 1 }
  some (s, [s.putc (.char c)])

/-- `finalDecision`: commit the line (and wake the readers up). -/
def finalDecision (s : Input) (c : UInt8) : Input × List ScreenOp :=
  if c = NEWLINE ∨ c = C 'D' ∨ s.end_ = s.r + 128 then
    ({ s with e := s.end_, w := s.end_ }, [.changePos (signed (s.end_ - s.e))])
  else (s, [])

/-- A branch of `consoleintr` that ends with `finalDecision(c)`. -/
def thenDecide (c : UInt8) (p : Input × List ScreenOp) : Input × List ScreenOp :=
  ((finalDecision p.1 c).1, p.2 ++ (finalDecision p.1 c).2)

/-- `consoleintr`: what is done with one key. -/
def consoleintr (s : Input) (c : UInt8) : Option (Input × List ScreenOp) :=
  if c = C 'P' then some (s, [])
  else if c = C 'U' then killLine s
  else if c = C 'C' then killLine s
  else if c = C 'H' ∨ c = 0x7f then
    if s.e ≠ s.w then
      if s.e < s.end_ then handleBackspaceInMid s
      else
        let s := { s with e := s.e - 1, end_ := s.end_ - 1 }
        some (s, [s.putc .backspace])
    else some (s, [])
  else if c ≠ 0 ∧ s.end_ - s.r < 128 then
    let c := if c = '\r'.toUInt8 then NEWLINE else c
    if c = NEWLINE then do
      let change := ScreenOp.changePos (signed (s.end_ - s.e))
      let (s, ops) ← appendChar { s with e := s.end_ } c
      some (thenDecide c (s, change :: ops))
    else if c = CURLY_LEFT then some ({ s with e := s.w }, [s.putc (.char c)])
    else if c = CURLY_RIGHT then some ({ s with e := s.end_ }, [s.putc (.char c)])
    else if s.e < s.end_ then (handleWriteInmid s c).map (thenDecide c)
    else (appendChar s c).map (thenDecide c)
  else some (s, [])

/-! ### Reading -/

/-- A process that calls `consoleread`. -/
inductive Reader
  /-- It has not called it yet. -/
  | idle
  /-- Asleep on `&input.r`, with `n` bytes still to read of `target`; `dst` has
  been stored. -/
  | asleep (target n : Nat) (dst : List UInt8)
  /-- Its last call returned `ret`, with `dst` stored. -/
  | done (ret : Int) (dst : List UInt8)
  deriving DecidableEq, Repr

/-- The loop of `consoleread` while `n` bytes are wanted, up to its return or
its next `sleep`; `killed` is the flag it finds if it has to wait. -/
def readLoop (killed : Bool) (target : Nat) :
    Nat → Input → List UInt8 → Option (Input × Reader)
  | 0, s, dst => some (s, .done target dst)
  | n + 1, s, dst =>
      if s.r = s.w then
        some (s, if killed then .done (-1) dst else .asleep target (n + 1) dst)
      else do
        let c ← CBuf.read s.buf (s.r % 128).toNat
        let s := { s with r := s.r + 1 }
        if c = C 'D' then
          -- end of file; saved for the next call if there is something to return
          let s := if n + 1 < target then { s with r := s.r - 1 } else s
          some (s, .done (target - (n + 1 : Nat)) dst)
        else if c = NEWLINE then some (s, .done (target - n) (dst ++ [c]))
        else readLoop killed target n s (dst ++ [c])

/-! ### The machine -/

/-- The events, for readers named by `ι`. -/
inductive Event (ι : Type)
  /-- `consoleintr` gets the key `c`. -/
  | key (c : UInt8)
  /-- `p` calls `consoleread` for `n` bytes (none, if its `int` is negative). -/
  | read (p : ι) (n : Nat) (killed : Bool)
  /-- `sleep` returns in `p`. -/
  | wake (p : ι) (killed : Bool)
  deriving DecidableEq, Repr

/-- The console: the buffer and the processes that read it. -/
structure State (ι : Type) where
  input : Input
  reader : ι → Reader

variable {ι : Type} [DecidableEq ι]

/-- An event; `none` if a subscript leaves the buffer. An event that does not
apply (a call by a process that sleeps in one, a wakeup of one that does not)
changes nothing. -/
def step (s : State ι) : Event ι → Option (State ι)
  | .key c => (consoleintr s.input c).map fun p => { s with input := p.1 }
  | .read p n killed =>
      match s.reader p with
      | .asleep .. => some s
      | _ => (readLoop killed n n s.input []).map fun q =>
          ⟨q.1, Function.update s.reader p q.2⟩
  | .wake p killed =>
      match s.reader p with
      | .asleep target n dst => (readLoop killed target n s.input dst).map fun q =>
          ⟨q.1, Function.update s.reader p q.2⟩
      | _ => some s

/-- The buffer at boot: all zero. -/
def Input.zero : Input := ⟨Vector.replicate INPUT_BUF 0, 0, 0, 0, 0⟩

/-- The console, from boot. -/
def machine (ι : Type) [DecidableEq ι] : Machine (State ι) (Event ι) where
  init := ⟨Input.zero, fun _ => .idle⟩
  step := step

end OsCourse.Console
