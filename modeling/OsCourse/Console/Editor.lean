import OsCourse.Console.Model

/-!
# OsCourse.Console.Editor

What the console is for: an editor of one line of text with a cursor, in front
of a queue of committed text that readers consume. The line is kept as the
text before the cursor and the text after it, so the cursor cannot leave it.
-/

namespace OsCourse.Console

/-- The line being edited, and the committed text that has not been read. -/
structure Editor where
  before : List UInt8
  after : List UInt8
  queue : List UInt8
  deriving DecidableEq, Repr

/-- What a key means to the editor. -/
inductive Key
  | ignored
  | kill
  | backspace
  | home
  | toEnd
  | newline
  /-- An ordinary character; `commit` says that it also ends the line. -/
  | char (c : UInt8) (commit : Bool)
  deriving DecidableEq, Repr

/-- The keys: ^P and NUL do nothing to the line, carriage return is a newline,
^D is a character that commits the line. -/
def keyOf (c : UInt8) : Key :=
  if c = C 'P' ∨ c = 0 then .ignored
  else if c = C 'U' ∨ c = C 'C' then .kill
  else if c = C 'H' ∨ c = 0x7f then .backspace
  else if c = '\r'.toUInt8 ∨ c = NEWLINE then .newline
  else if c = CURLY_LEFT then .home
  else if c = CURLY_RIGHT then .toEnd
  else .char c (c = C 'D')

namespace Editor

/-- The line. -/
def line (s : Editor) : List UInt8 := s.before ++ s.after

/-- The position of the cursor in the line. -/
def cursor (s : Editor) : Nat := s.before.length

/-- The line is moved to the queue. -/
def commit (s : Editor) : Editor := ⟨[], [], s.queue ++ s.line⟩

/-- A key does what it means. -/
def press (s : Editor) : Key → Editor
  | .ignored => s
  | .kill => { s with before := [], after := [] }
  | .backspace => { s with before := s.before.dropLast }
  | .home => { s with before := [], after := s.line }
  | .toEnd => { s with before := s.line, after := [] }
  | .newline => commit { s with before := s.line ++ [NEWLINE], after := [] }
  | .char c false => { s with before := s.before ++ [c] }
  | .char c true => commit { s with before := s.before ++ [c] }

/-- A reader that wants `n` more of `target` bytes takes them off the queue, up
to the end of a line, to ^D (which it leaves there if it has something to
return), or until the queue is empty. -/
def readQueue (killed : Bool) (target : Nat) :
    Nat → List UInt8 → List UInt8 → List UInt8 × Reader
  | 0, queue, dst => (queue, .done target dst)
  | n + 1, [], dst => ([], if killed then .done (-1) dst else .asleep target (n + 1) dst)
  | n + 1, c :: queue, dst =>
      if c = C 'D' then
        (if n + 1 < target then c :: queue else queue, .done (target - (n + 1 : Nat)) dst)
      else if c = NEWLINE then (queue, .done (target - n) (dst ++ [c]))
      else readQueue killed target n queue (dst ++ [c])

end Editor

/-- The editor and its readers. -/
structure Reference (ι : Type) where
  editor : Editor
  reader : ι → Reader

variable {ι : Type} [DecidableEq ι]

/-- A reader goes on (or starts) wanting `n` bytes. -/
def Reference.readOn (s : Reference ι) (p : ι) (killed : Bool) (target n : Nat)
    (dst : List UInt8) : Reference ι :=
  ⟨{ s.editor with queue := (Editor.readQueue killed target n s.editor.queue dst).1 },
    Function.update s.reader p (Editor.readQueue killed target n s.editor.queue dst).2⟩

/-- What an event means. -/
def Reference.step (s : Reference ι) : Event ι → Reference ι
  | .key c => { s with editor := s.editor.press (keyOf c) }
  | .read p n killed =>
      match s.reader p with
      | .asleep .. => s
      | _ => s.readOn p killed n n []
  | .wake p killed =>
      match s.reader p with
      | .asleep target n dst => s.readOn p killed target n dst
      | _ => s

/-- The editor at boot. -/
def Reference.init (ι : Type) : Reference ι := ⟨⟨[], [], []⟩, fun _ => .idle⟩

end OsCourse.Console
