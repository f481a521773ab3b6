import OsCourse.Lib.Family
import OsCourse.Lib.Machine
import OsCourse.Sched.Table

/-!
# OsCourse.Process.Model

The process management of the lock kernel (`OS-lab-xv6-lock/proc.c`) as one
machine: `m` CPUs over a table of `n` slots, from boot, with the round-robin
scheduler.

The grain is `ptable.lock`, as in `OsCourse.Sched.System`: a critical section is one
step, enabled while the lock is free, and cut where it reaches `swtch`, because
the lock is handed across it; `lock` is the CPU that holds the lock in between.
The writes `fork` and `allocproc` make without the lock are steps that do not
look at it.

`exited` and `reaped` are the history: the calls of `exit`, and the calls of `wait`
that returned the pid of a child. What does not bear on processes and their
states is left out: address spaces, open files, kernel stacks, the second lock
of `sleep`. A step of the kernel that panics is not enabled.
-/

namespace OsCourse.Process

open Lib
open Sched (ProcState Chan)

/-- `struct proc`. -/
structure Proc (n : Nat) where
  state : ProcState
  pid : Int32
  parent : Option (Fin n)
  chan : Option (Chan n)
  killed : Bool

/-- `ptable.proc`. -/
abbrev Table (n : Nat) := Fin n → Proc n

/-- Where the kernel thread of a process is. -/
inductive Thread
  /-- New: its first dispatch starts in `forkret`. -/
  | forkret
  /-- In user mode, or in kernel code outside `sched()`. -/
  | run
  /-- Inside `sched()`, called by `yield`. -/
  | yield
  /-- Inside `sched()`, called by `sleep` with another lock than `ptable.lock`. -/
  | sleep
  /-- Inside `sched()`, called by the `sleep` of `wait`. -/
  | wait
  /-- Inside `sched()`, called by `exit`. -/
  | exit
  deriving DecidableEq, Repr

/-- Where a process is in `fork`. -/
inductive ForkPC (n : Nat)
  | idle
  /-- `allocproc` has returned `np`. -/
  | allocated (np : Fin n)
  /-- `np->parent` is set. -/
  | linked (np : Fin n)
  deriving DecidableEq, Repr

/-- Where a CPU is. `c->proc` is the process in `running`, and 0 elsewhere but
in `back`, where it is set to 0 first. -/
inductive CpuPC (n : Nat)
  /-- Before `scheduler()`. -/
  | boot
  /-- The boot CPU in `userinit()`, after its `allocproc()` returned `p`. -/
  | userinit (p : Fin n)
  /-- At the head of the loop of `scheduler()`. -/
  | top
  /-- Running `p`; the scheduler is suspended in `swtch`. -/
  | running (p : Fin n)
  /-- `p` has switched back to the scheduler. -/
  | back (p : Fin n)
  deriving DecidableEq, Repr

/-- The state of process management. -/
structure Sys (m n : Nat) where
  proc : Table n
  thread : Fin n → Thread
  fork : Fin n → ForkPC n
  nextpid : Int32
  initproc : Option (Fin n)
  lock : Option (Fin m)
  cpu : Fin m → CpuPC n
  exited : List (Fin n × Int32)
  reaped : List (Reap (Fin n) Int32)

/-- The steps. -/
inductive Act (m n : Nat)
  /-- `userinit()`: its call of `allocproc()`. -/
  | userinitAlloc (c : Fin m)
  /-- `userinit()`: `p->state = RUNNABLE`. -/
  | userinitReady (c : Fin m)
  /-- CPU `c` enters `scheduler()`. -/
  | start (c : Fin m)
  /-- From `acquire(&ptable.lock)` to the first switch or the end of the scan. -/
  | scan (c : Fin m)
  /-- From the return of `swtch` to the next switch or the end of the scan. -/
  | sched (c : Fin m)
  /-- The dispatched process goes on from its own `swtch` (or starts). -/
  | resumed (c : Fin m)
  | yield (c : Fin m)
  | sleep (c : Fin m) (chan : Chan n)
  /-- `wakeup(chan)`, by a process or an interrupt handler. -/
  | wakeup (chan : Chan n)
  | kill (pid : Int32)
  /-- `fork()`: the critical section of `allocproc()`. -/
  | forkAlloc (c : Fin m)
  /-- `fork()`: out of memory, `np->state = UNUSED`. -/
  | forkFail (c : Fin m)
  /-- `fork()`: `np->parent = curproc`. -/
  | forkParent (c : Fin m)
  /-- `fork()`: `np->state = RUNNABLE`. -/
  | forkReady (c : Fin m)
  | exit (c : Fin m)
  | wait (c : Fin m)
  deriving DecidableEq

variable {m n : Nat}

/-! ### Functions on the table -/

/-- `p->state = st` for slot `i`. -/
def Table.setState (t : Table n) (i : Fin n) (st : ProcState) : Table n :=
  Function.update t i { t i with state := st }

/-- `allocproc`: the first `UNUSED` slot becomes `EMBRYO`. -/
def allocproc (t : Table n) (nextpid : Int32) : Option (Fin n × Table n) :=
  ((List.finRange n).find? fun i => (t i).state = .unused).map fun i =>
    (i, Function.update t i { t i with state := .embryo, pid := nextpid })

/-- `wakeup1`. -/
def wakeup1 (t : Table n) (chan : Option (Chan n)) : Table n := fun i =>
  if (t i).state = .sleeping ∧ (t i).chan = chan then { t i with state := .runnable } else t i

/-- `kill`. -/
def kill (t : Table n) (pid : Int32) : Table n :=
  match (List.finRange n).find? fun i => (t i).pid = pid with
  | some i =>
      Function.update t i { t i with
        killed := true
        state := if (t i).state = .sleeping then .runnable else (t i).state }
  | none => t

/-- `exit`: pass abandoned children to init. -/
def passChildren (cur : Fin n) (initproc : Option (Fin n)) (t : Table n) : Table n :=
  (List.finRange n).foldl
    (fun t i =>
      if (t i).parent = some cur then
        let t := Function.update t i { t i with parent := initproc }
        if (t i).state = .zombie then wakeup1 t (initproc.map .proc) else t
      else t) t

/-- `exit`: the critical section, up to `sched()`. -/
def exit (t : Table n) (cur : Fin n) (initproc : Option (Fin n)) : Table n :=
  Table.setState (passChildren cur initproc (wakeup1 t ((t cur).parent.map .proc))) cur .zombie

/-- How a round of the loop of `wait` ends. -/
inductive WaitOut (n : Nat)
  /-- The child in slot `i` was reaped: `wait` returns `pid`. -/
  | reaped (i : Fin n) (pid : Int32) (t : Table n)
  /-- `wait` returns -1. -/
  | noChild
  /-- `sleep(curproc, &ptable.lock)`. -/
  | sleep (t : Table n)

/-- A round of the loop of `wait`: reap the first `ZOMBIE` child; else return
if there is no child or the caller was killed; else sleep. -/
def waitLoop (t : Table n) (cur : Fin n) : WaitOut n :=
  match (List.finRange n).find? fun i => (t i).parent = some cur ∧ (t i).state = .zombie with
  | some i =>
      .reaped i (t i).pid (Function.update t i
        { t i with pid := 0, parent := none, killed := false, state := .unused })
  | none =>
      if (∀ i, (t i).parent ≠ some cur) ∨ (t cur).killed then .noChild
      else
        .sleep (Function.update t cur { t cur with chan := some (.proc cur), state := .sleeping })

/-! ### The machine -/

namespace Sys

/-- The process that CPU `c` is running, when it is outside every critical
section of `ptable.lock`. -/
def current (s : Sys m n) (c : Fin m) : Option (Fin n) :=
  match s.cpu c with
  | .running p => if s.lock = some c then none else some p
  | _ => none

/-- The process `cur` running on CPU `c` calls `sched()`: the table is `t`, its
thread is suspended in `th`, the scheduler of `c` is next. -/
def enterSched (s : Sys m n) (c : Fin m) (cur : Fin n) (t : Table n) (th : Thread) : Sys m n :=
  { s with
    proc := t
    thread := Function.update s.thread cur th
    lock := some c
    cpu := Function.update s.cpu c (.back cur) }

/-- A round of the loop of `wait`, run by `cur` on CPU `c` with the lock held. -/
def waitRound (s : Sys m n) (c : Fin m) (cur : Fin n) (t : Table n) : Sys m n :=
  match waitLoop t cur with
  | .reaped i pid t' =>
      { s with
        proc := t'
        lock := none
        thread := Function.update s.thread cur .run
        reaped := ⟨cur, i, pid⟩ :: s.reaped }
  | .noChild => { s with proc := t, lock := none, thread := Function.update s.thread cur .run }
  | .sleep t' => s.enterSched c cur t' .wait

/-- `scheduler()` on CPU `c` goes through the slots from the first that is in
`rest`: to the next switch, or to the end of the scan. -/
def scanFrom (s : Sys m n) (c : Fin m) (rest : Fin n → Bool) : Sys m n :=
  match (List.finRange n).find? fun i => rest i ∧ (s.proc i).state = .runnable with
  | some i =>
      { s with
        proc := s.proc.setState i .running
        lock := some c
        cpu := Function.update s.cpu c (.running i) }
  | none => { s with lock := none, cpu := Function.update s.cpu c .top }

end Sys

/-- The next state, if `a` can be taken. -/
def step (s : Sys m n) : Act m n → Option (Sys m n)
  | .userinitAlloc c =>
      if s.lock = none ∧ s.cpu c = .boot ∧ s.initproc = none then
        (allocproc s.proc s.nextpid).map fun (p, t) =>
          { s with
            proc := t
            nextpid := s.nextpid + 1
            initproc := some p
            cpu := Function.update s.cpu c (.userinit p) }
      else none
  | .userinitReady c =>
      match s.cpu c with
      | .userinit p =>
          if s.lock = none then
            some { s with
              proc := s.proc.setState p .runnable
              thread := Function.update s.thread p .forkret
              cpu := Function.update s.cpu c .boot }
          else none
      | _ => none
  | .start c =>
      if s.cpu c = .boot then some { s with cpu := Function.update s.cpu c .top } else none
  | .scan c =>
      if s.cpu c = .top ∧ s.lock = none then some (s.scanFrom c fun _ => true) else none
  | .sched c =>
      match s.cpu c with
      | .back p => if s.lock = some c then some (s.scanFrom c (p < ·)) else none
      | _ => none
  | .resumed c =>
      match s.cpu c with
      | .running p =>
          if s.lock = some c then
            match s.thread p with
            | .forkret | .yield =>
                some { s with lock := none, thread := Function.update s.thread p .run }
            | .sleep =>
                some { s with
                  proc := Function.update s.proc p { s.proc p with chan := none }
                  lock := none
                  thread := Function.update s.thread p .run }
            | .wait =>
                some (s.waitRound c p
                  (Function.update s.proc p { s.proc p with chan := none }))
            -- exit() panics if it is ever resumed
            | .run | .exit => none
          else none
      | _ => none
  | .yield c =>
      (s.current c).bind fun p =>
        if s.lock = none then some (s.enterSched c p (s.proc.setState p .runnable) .yield)
        else none
  | .sleep c chan =>
      (s.current c).bind fun p =>
        if s.lock = none then
          some (s.enterSched c p
            (Function.update s.proc p { s.proc p with chan := some chan, state := .sleeping })
            .sleep)
        else none
  | .wakeup chan =>
      if s.lock = none then some { s with proc := wakeup1 s.proc (some chan) } else none
  | .kill pid => if s.lock = none then some { s with proc := kill s.proc pid } else none
  | .forkAlloc c =>
      (s.current c).bind fun p =>
        if s.lock = none ∧ s.fork p = .idle then
          match allocproc s.proc s.nextpid with
          | some (np, t) =>
              some { s with
                proc := t
                nextpid := s.nextpid + 1
                fork := Function.update s.fork p (.allocated np) }
          | none => some s
        else none
  | .forkFail c =>
      (s.current c).bind fun p =>
        match s.fork p with
        | .allocated np =>
            some { s with
              proc := s.proc.setState np .unused
              fork := Function.update s.fork p .idle }
        | _ => none
  | .forkParent c =>
      (s.current c).bind fun p =>
        match s.fork p with
        | .allocated np =>
            some { s with
              proc := Function.update s.proc np { s.proc np with parent := some p }
              fork := Function.update s.fork p (.linked np) }
        | _ => none
  | .forkReady c =>
      (s.current c).bind fun p =>
        match s.fork p with
        | .linked np =>
            if s.lock = none then
              some { s with
                proc := s.proc.setState np .runnable
                thread := Function.update s.thread np .forkret
                fork := Function.update s.fork p .idle }
            else none
        | _ => none
  | .exit c =>
      (s.current c).bind fun p =>
        if s.lock = none ∧ s.fork p = .idle ∧ s.initproc ≠ some p then
          some { s.enterSched c p (exit s.proc p s.initproc) .exit with
            exited := (p, (s.proc p).pid) :: s.exited }
        else none
  | .wait c =>
      (s.current c).bind fun p =>
        if s.lock = none ∧ s.fork p = .idle then some (s.waitRound c p s.proc) else none

/-- The machine as it is switched on: an empty table, every CPU before
`scheduler()`. -/
def boot (m n : Nat) : Sys m n where
  proc := fun _ => ⟨.unused, 0, none, none, false⟩
  thread := fun _ => .run
  fork := fun _ => .idle
  nextpid := 1
  initproc := none
  lock := none
  cpu := fun _ => .boot
  exited := []
  reaped := []

/-- Process management on `m` CPUs with `n` slots. -/
def machine (m n : Nat) : Machine (Sys m n) (Act m n) := ⟨boot m n, step⟩

end OsCourse.Process
