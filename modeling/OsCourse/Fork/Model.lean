import OsCourse.Lib.CString
import OsCourse.Sched.System
import OsCourse.Vm.Model

/-!
# OsCourse.Fork.Model

`fork` and `allocproc` with the resources of a process
(`OS-lab-xv6-scheduling/proc.c`, `file.c`, `fs.c`): kernel stack, address space,
trap frame, descriptors, current directory.

A call runs from its start to its end. The process table is that of `Sched`;
`Resources` are the other fields of `struct proc`. `kalloc` fails when its list
is empty, and the list may have any length. The context on the new kernel stack,
which is the same for all processes, is left out.
-/

namespace OsCourse.Fork

open Lib Vm
open Sched (Table FloatOps generateRandom)

/-- `NOFILE`: open files per process. -/
abbrev NOFILE : Nat := 16

/-- `struct trapframe`: `eax`, and the other words. -/
structure TrapFrame where
  eax : UInt32
  others : List UInt32
  deriving DecidableEq

/-- The fields of `struct proc` that `Sched.Proc` does not have, for files `κ` and
inodes `ι`. Null pointers are `none`. -/
structure Resources (φ ι κ : Type) where
  sz : Nat
  pgdir : Option (Pgdir φ)
  kstack : Option φ
  tf : TrapFrame
  ofile : Fin NOFILE → Option κ
  cwd : Option ι
  name : CBuf 16

variable {n : Nat} {F φ ι κ : Type}

/-- The kernel, as far as `fork` reads or changes it. -/
structure State (n : Nat) (F φ ι κ : Type) where
  /-- `ptable.proc`. -/
  proc : Table n F
  res : Fin n → Resources φ ι κ
  nextpid : Int32
  ticks : UInt32
  kmem : Kmem φ
  /-- `f->ref`. -/
  fileRef : κ → Int
  /-- `ip->ref`. -/
  inodeRef : ι → Int

/-- Why a call does not return. -/
inductive Stuck
  /-- A panic in `copyuvm`. -/
  | vm (e : Vm.Panic)
  /-- `panic("filedup")`. -/
  | filedup
  /-- A null pointer is used: the page directory or the current directory. -/
  | null
  deriving DecidableEq

variable [DecidableEq φ] [DecidableEq ι] [DecidableEq κ]

/-- `filedup`. -/
def filedup (ref : κ → Int) (f : κ) : Except Stuck (κ → Int) :=
  if ref f < 1 then .error .filedup else .ok (Function.update ref f (ref f + 1))

/-- `idup`. -/
def idup (ref : ι → Int) (ip : ι) : ι → Int := Function.update ref ip (ref ip + 1)

/-- `safestrcpy` of a name. -/
def copyName (dst src : CBuf 16) : CBuf 16 := dst.safestrcpy (src.toList.takeWhile (· ≠ 0))

/-- `allocproc`, with the kernel stack. -/
def allocproc [FloatOps F] (s : State n F φ ι κ) : Option (Fin n) × State n F φ ι κ :=
  match Sched.allocproc s.proc s.nextpid s.ticks with
  | none => (none, s)
  | some (p, proc) =>
      let s := { s with proc, nextpid := s.nextpid + 1 }
      match s.kmem.kalloc with
      | none =>
          (none,
            { s with
              proc := s.proc.setState p .unused
              res := Function.update s.res p { s.res p with kstack := none } })
      | some (kstack, kmem) =>
          (some p, { s with kmem, res := Function.update s.res p { s.res p with kstack := some kstack } })

/-- The loop of `fork` over the descriptors. -/
def dupLoop (parent : Fin NOFILE → Option κ) :
    List (Fin NOFILE) → (Fin NOFILE → Option κ) → (κ → Int) →
      Except Stuck ((Fin NOFILE → Option κ) × (κ → Int))
  | [], ofile, ref => .ok (ofile, ref)
  | i :: is, ofile, ref =>
      match parent i with
      | none => dupLoop parent is ofile ref
      | some f =>
          match filedup ref f with
          | .error e => .error e
          | .ok ref => dupLoop parent is (Function.update ofile i (some f)) ref

/-- The end of `fork`, with the copy `d` of the address space. -/
def forkChild (s : State n F φ ι κ) (curproc np : Fin n) (d : Pgdir φ) :
    Except Stuck (Option Int32 × State n F φ ι κ) :=
  let cur := s.res curproc
  match dupLoop cur.ofile (List.finRange NOFILE) (s.res np).ofile s.fileRef with
  | .error e => .error e
  | .ok (ofile, fileRef) =>
      match cur.cwd with
      | none => .error .null
      | some cwd =>
          .ok (some (s.proc np).pid,
            { s with
              fileRef
              inodeRef := idup s.inodeRef cwd
              proc := Function.update s.proc np
                { s.proc np with parent := some curproc, state := .runnable }
              res := Function.update s.res np
                { s.res np with
                  pgdir := some d
                  sz := cur.sz
                  tf := { cur.tf with eax := 0 }
                  ofile
                  cwd := some cwd
                  name := copyName (s.res np).name cur.name } })

/-- `fork` by the process `curproc`: `none` for -1. -/
def fork [FloatOps F] (s : State n F φ ι κ) (curproc : Fin n) :
    Except Stuck (Option Int32 × State n F φ ι κ) :=
  match allocproc s with
  | (none, s) => .ok (none, s)
  | (some np, s) =>
      match (s.res curproc).pgdir with
      | none => .error .null
      | some pgdir =>
          match copyuvm s.kmem pgdir (s.res curproc).sz with
          | .error e => .error (.vm e)
          | .ok (none, kmem) =>
              .ok (none,
                { s with
                  kmem := ((s.res np).kstack.map kmem.kfree).getD kmem
                  proc := s.proc.setState np .unused
                  res := Function.update s.res np { s.res np with pgdir := none, kstack := none } })
          | .ok (some d, kmem) => forkChild { s with kmem } curproc np d

end OsCourse.Fork
