import Mathlib.Data.Fintype.BigOperators
import OsCourse.Files.Fds
import OsCourse.Lib.Machine

/-!
# OsCourse.Files.Model

The table of open files (`file.c`) and the calls that change descriptors or the working
directory: `open`, `dup`, `close`, `pipe` and `chdir` (`sysfile.c`, `pipe.c`), and what
`fork` and `exit` do with these (`proc.c`), with the ways in which each can fail. A call that
fails before it has an inode or a file changes nothing here; for a path that leads to no inode
there is no step at all.

Any number of processes are in calls at the same time. What is done under `ftable.lock` is
one step, and so is what a process does with its own descriptors up to the next call into
`file.c`. A descriptor is a place of its `ofile`, which no other process looks at; the one
exception is `fork`, which fills the `ofile` of a child that does not run yet. The same holds
of `cwd`.

What is behind a file is an inode or an end of a pipe. `opened` and `closed` count the
references to these that the calls got (from `namei`, `create` and `idup`; from `pipealloc`)
and gave back (with `iput`, `pipeclose`).
-/

namespace OsCourse.Files

open OsCourse.Lib

/-- `NFILE`. -/
abbrev NFILE : Nat := 100

abbrev O_RDONLY : Nat := 0x000
abbrev O_CREATE : Nat := 0x200

/-- What is behind a file. -/
inductive Obj
  /-- `FD_PIPE`: the page of the pipe, and `writable`. -/
  | pipe (p : Nat) (writable : Bool)
  /-- `FD_INODE` -/
  | inode (ip : Nat)
  deriving DecidableEq, Repr

/-- `struct file`. No object is `FD_NONE`. -/
@[ext] structure File where
  ref : Nat
  obj : Option Obj
  deriving DecidableEq, Repr

/-- `struct file *`: the place in `ftable.file`. -/
abbrev Ptr : Type := Fin NFILE

/-- What is still to be given back in a call. -/
inductive Back
  /-- `fileclose(f)` -/
  | file (f : Ptr)
  /-- `iput` or `pipeclose` -/
  | obj (o : Obj)
  deriving DecidableEq, Repr

/-- Where a process stands. -/
inductive Pc (π : Type)
  /-- There is no process. -/
  | unused
  /-- `fork` is building it. -/
  | embryo
  /-- In none of the calls. -/
  | idle
  /-- `sys_open` has the inode. -/
  | opening (ip : Nat)
  /-- `sys_open` has the file, from `filealloc`. -/
  | allocated (ip : Nat) (f : Ptr)
  /-- `sys_open` has the descriptor. -/
  | typing (ip : Nat) (f : Ptr)
  /-- `sys_dup` has the descriptor. -/
  | duping (fd : Nat) (f : Ptr)
  /-- `sys_chdir` has the directory. -/
  | moving (ip : Nat)
  /-- `pipealloc` has its first file. -/
  | pipe1 (f0 : Ptr)
  /-- `pipealloc` has both. -/
  | pipe2 (f0 f1 : Ptr)
  /-- `pipealloc` has returned to `sys_pipe`. -/
  | pipe3 (f0 f1 : Ptr)
  /-- `sys_pipe` has the first descriptor. -/
  | pipe4 (fd0 : Nat) (f0 f1 : Ptr)
  /-- On the way out of a call. -/
  | closing (l : List Back)
  /-- In the loop of `fork`. -/
  | forking (q : π) (i : Nat)
  /-- In the loop of `exit`. -/
  | exits (fd : Nat)
  /-- In `fileclose`, called from this loop. -/
  | exitClose (fd : Nat) (l : List Obj)
  /-- `ZOMBIE` -/
  | zombie
  deriving DecidableEq

/-- The table, and the processes. -/
structure State (π : Type) where
  file : Ptr → File
  ofile : π → Fds Ptr
  /-- The inode; `none` is the null pointer. -/
  cwd : π → Option Nat
  pc : π → Pc π
  opened : Obj → Nat
  closed : Obj → Nat
  panicked : Bool

variable {π : Type} [DecidableEq π]

namespace State

/-- Process `p` stands at `c`. -/
def goto (s : State π) (p : π) (c : Pc π) : State π :=
  { s with pc := Function.update s.pc p c }

/-- The descriptors of process `p`. -/
def setOfile (s : State π) (p : π) (ofile : Fds Ptr) : State π :=
  { s with ofile := Function.update s.ofile p ofile }

/-- The working directory of process `p`. -/
def setCwd (s : State π) (p : π) (cwd : Option Nat) : State π :=
  { s with cwd := Function.update s.cwd p cwd }

/-- What stands in the table at `f`. -/
def setFile (s : State π) (f : Ptr) (x : File) : State π :=
  { s with file := Function.update s.file f x }

/-- `filealloc`: the file it finds. -/
def filealloc (s : State π) : Option Ptr :=
  (List.finRange NFILE).find? fun f => (s.file f).ref = 0

/-- `filealloc`: the file it has found. -/
def take (s : State π) (f : Ptr) : State π := s.setFile f { s.file f with ref := 1 }

/-- `filedup`. -/
def filedup (s : State π) (f : Ptr) : State π :=
  if (s.file f).ref < 1 then { s with panicked := true }
  else s.setFile f { s.file f with ref := (s.file f).ref + 1 }

/-- `fileclose`, up to the `release`: the object that is to be given back then. -/
def fileclose (s : State π) (f : Ptr) : State π × List Obj :=
  if (s.file f).ref < 1 then ({ s with panicked := true }, [])
  else if 0 < (s.file f).ref - 1 then
    (s.setFile f { s.file f with ref := (s.file f).ref - 1 }, [])
  else (s.setFile f ⟨0, none⟩, (s.file f).obj.toList)

/-- `f->type = ...`, with the object. -/
def setObj (s : State π) (f : Ptr) (o : Obj) : State π :=
  s.setFile f { s.file f with obj := some o }

/-- One more reference to the object. -/
def gain (s : State π) (o : Obj) : State π :=
  { s with opened := Function.update s.opened o (s.opened o + 1) }

/-- `iput`, or `pipeclose`. -/
def drop (s : State π) (o : Obj) : State π :=
  { s with closed := Function.update s.closed o (s.closed o + 1) }

/-- `np->cwd = idup(curproc->cwd)`. With no directory to count it goes through the null
pointer, which is taken for a panic. -/
def idupCwd (s : State π) (p q : π) : State π :=
  match s.cwd p with
  | none => { s with panicked := true }
  | some ip => (s.gain (.inode ip)).setCwd q (some ip)

/-- `iput(curproc->cwd); curproc->cwd = cwd`, in the same way. -/
def iputCwd (s : State π) (p : π) (cwd : Option Nat) : State π :=
  match s.cwd p with
  | none => { s with panicked := true }
  | some ip => (s.drop (.inode ip)).setCwd p cwd

/-- Process `p` goes on in its call. `page` is what `kalloc` returns. -/
def next (s : State π) (p : π) (page : Option Nat) : Option (State π) :=
  match s.pc p with
  | .opening ip =>
      match s.filealloc with
      | none => some (s.goto p (.closing [.obj (.inode ip)]))
      | some f => some ((s.take f).goto p (.allocated ip f))
  | .allocated ip f =>
      match fdalloc (s.ofile p) f with
      | none => some (s.goto p (.closing [.file f, .obj (.inode ip)]))
      | some r => some ((s.setOfile p r.2).goto p (.typing ip f))
  | .typing ip f => some ((s.setObj f (.inode ip)).goto p .idle)
  | .duping _ f => some ((s.filedup f).goto p .idle)
  | .moving ip => some ((s.iputCwd p (some ip)).goto p .idle)
  | .pipe1 f0 =>
      match s.filealloc with
      | none => some (s.goto p (.closing [.file f0]))
      | some f1 => some ((s.take f1).goto p (.pipe2 f0 f1))
  | .pipe2 f0 f1 =>
      match page with
      | none => some (s.goto p (.closing [.file f0, .file f1]))
      | some a =>
          some ((((s.setObj f0 (.pipe a false)).setObj f1 (.pipe a true)).gain
            (.pipe a false)).gain (.pipe a true) |>.goto p (.pipe3 f0 f1))
  | .pipe3 f0 f1 =>
      match fdalloc (s.ofile p) f0 with
      | none => some (s.goto p (.closing [.file f0, .file f1]))
      | some r => some ((s.setOfile p r.2).goto p (.pipe4 r.1 f0 f1))
  | .pipe4 fd0 f0 f1 =>
      match fdalloc (s.ofile p) f1 with
      | none =>
          some ((s.setOfile p ((s.ofile p).set fd0 none)).goto p (.closing [.file f0, .file f1]))
      | some r => some ((s.setOfile p r.2).goto p .idle)
  | .closing [] => some (s.goto p .idle)
  | .closing (.file f :: l) =>
      some ((s.fileclose f).1.goto p (.closing ((s.fileclose f).2.map .obj ++ l)))
  | .closing (.obj o :: l) => some ((s.drop o).goto p (.closing l))
  | .forking q i =>
      if i < NOFILE then
        match argfd (s.ofile p) i with
        | none => some (s.goto p (.forking q (i + 1)))
        | some f =>
            some (((s.filedup f).setOfile q ((s.ofile q).set i (some f))).goto p
              (.forking q (i + 1)))
      else some (((s.idupCwd p q).goto q .idle).goto p .idle)
  | .exits fd =>
      if fd < NOFILE then
        match argfd (s.ofile p) fd with
        | none => some (s.goto p (.exits (fd + 1)))
        | some f => some ((s.fileclose f).1.goto p (.exitClose fd (s.fileclose f).2))
      else some ((s.iputCwd p none).goto p .zombie)
  | .exitClose fd [] =>
      some ((s.setOfile p ((s.ofile p).set fd none)).goto p (.exits (fd + 1)))
  | .exitClose fd (o :: l) => some ((s.drop o).goto p (.exitClose fd l))
  | _ => none

end State

/-- What happens next. -/
inductive Act (π : Type)
  /-- `open` by process `p`, with the inode that `create` or `namei` has found; `dir` says
  whether its type is `T_DIR`. -/
  | openFile (p : π) (omode ip : Nat) (dir : Bool)
  /-- `dup` by process `p`. -/
  | dup (p : π) (fd : Nat)
  /-- `close` by process `p`. -/
  | close (p : π) (fd : Nat)
  /-- `pipe` by process `p`. -/
  | pipe (p : π)
  /-- `chdir` by process `p`, with the inode that `namei` has found. -/
  | chdir (p : π) (ip : Nat) (dir : Bool)
  /-- `fork` by process `p`, up to its loop. -/
  | fork (p q : π)
  /-- `exit` by process `p`. -/
  | exit (p : π)
  /-- `wait` has found the zombie `q`. -/
  | reap (q : π)
  /-- Process `p` goes on in its call. -/
  | next (p : π) (page : Option Nat)

open State in
/-- One step. -/
def step (s : State π) : Act π → Option (State π)
  | .openFile p omode ip dir =>
      if s.pc p = .idle then
        if omode &&& O_CREATE = 0 ∧ dir ∧ omode ≠ O_RDONLY then
          some ((s.gain (.inode ip)).goto p (.closing [.obj (.inode ip)]))
        else some ((s.gain (.inode ip)).goto p (.opening ip))
      else none
  | .dup p fd =>
      if s.pc p = .idle then
        match argfd (s.ofile p) fd with
        | none => some s
        | some f =>
            match fdalloc (s.ofile p) f with
            | none => some s
            | some r => some ((s.setOfile p r.2).goto p (.duping r.1 f))
      else none
  | .close p fd =>
      if s.pc p = .idle then
        match argfd (s.ofile p) fd with
        | none => some s
        | some f =>
            some ((s.setOfile p ((s.ofile p).set fd none)).goto p (.closing [.file f]))
      else none
  | .pipe p =>
      if s.pc p = .idle then
        match s.filealloc with
        | none => some s
        | some f => some ((s.take f).goto p (.pipe1 f))
      else none
  | .chdir p ip dir =>
      if s.pc p = .idle then
        if dir then some ((s.gain (.inode ip)).goto p (.moving ip))
        else some ((s.gain (.inode ip)).goto p (.closing [.obj (.inode ip)]))
      else none
  | .fork p q =>
      if s.pc p = .idle ∧ s.pc q = .unused then some ((s.goto q .embryo).goto p (.forking q 0))
      else none
  | .exit p => if s.pc p = .idle then some (s.goto p (.exits 0)) else none
  | .reap q => if s.pc q = .zombie then some (s.goto q .unused) else none
  | .next p page => s.next p page

/-- The first process, with no files open. `userinit` gets its working directory, the inode
`root`, from `namei("/")`. -/
def init (p₀ : π) (root : Nat) : State π where
  file _ := ⟨0, none⟩
  ofile _ := List.replicate NOFILE none
  cwd := Function.update (fun _ => none) p₀ (some root)
  pc := Function.update (fun _ => .unused) p₀ .idle
  opened := Function.update (fun _ => 0) (.inode root) 1
  closed _ := 0
  panicked := false

/-- The machine of the calls. -/
def machine (p₀ : π) (root : Nat) : Machine (State π) (Act π) := ⟨init p₀ root, step⟩

end OsCourse.Files
