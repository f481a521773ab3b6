import OsCourse.Lib.Machine
import OsCourse.Sched.Pass

/-!
# OsCourse.Sched.System

The process management of the scheduling kernel (`OS-lab-xv6-scheduling/proc.c`)
as one machine: `m` CPUs, each in `scheduler()` or running a process, over a
table of `n` slots, from boot.

The grain is `ptable.lock`. A critical section that neither begins nor ends in
`swtch` is one step, enabled while the lock is free. Sections that reach
`swtch` are cut there, because the lock is handed across it: the scheduler
dispatches a process *holding* the lock, and that process releases it (in
`forkret`, `yield` or `sleep`, or goes round the loop of `wait`) as a step of
its own; a process enters `sched()` holding the lock, and the scheduler of its
CPU goes on as a step of its own. `lock` is the CPU that holds the lock in
between. The writes `fork` and `allocproc` make without the lock are steps that
do not look at it.

What does not bear on process management is left out: address spaces, open
files, kernel stacks, the second lock of `sleep`. A step of the kernel that
panics or spins is not enabled.
-/

namespace OsCourse.Sched

open OsCourse.Lib

/-- Where the kernel thread of a process is. -/
inductive Thread
  /-- New: its first dispatch starts in `forkret`. -/
  | forkret
  /-- In user mode, or in kernel code outside `sched()`. -/
  | run
  /-- Inside `sched()`, called by `yield`. -/
  | yield
  /-- Inside `sched()`, called by `sleep` with another lock than `ptable.lock`. -/
  | sleep
  /-- Inside `sched()`, called by the `sleep` of `wait`. -/
  | wait
  /-- Inside `sched()`, called by `exit`. -/
  | exit
  deriving DecidableEq, Repr

/-- Where a CPU is. -/
inductive CpuPC (n : Nat)
  /-- Before `scheduler()`. -/
  | boot
  /-- The boot CPU in `userinit()`, after its `allocproc()` returned `p`. -/
  | userinit (p : Fin n)
  /-- At the head of the loop of `scheduler()`. -/
  | top
  /-- After `rnd = generate_random(getTotal())`. -/
  | drawn (rnd : Int32)
  /-- Running `c->proc`; the scheduler is suspended in the `swtch` at `site`. -/
  | running (site : Site) (f : Flags)
  /-- `c->proc` has switched back to the scheduler. -/
  | back (site : Site) (f : Flags)
  /-- A candidate pointer was used unset. -/
  | wild
  deriving DecidableEq, Repr

/-- `struct cpu`, and the history of its scheduler: how often the loop body
took `ptable.lock` and how often it released it. -/
structure Cpu (n : Nat) where
  proc : Option (Fin n)
  pc : CpuPC n
  acquires : Nat
  releases : Nat
  deriving DecidableEq, Repr

/-- The state of process management. `forking p` is the slot `np` of a `fork`
that `p` has under way. -/
structure Sys (m n : Nat) (F : Type) where
  proc : Table n F
  thread : Fin n → Thread
  forking : Fin n → Option (Fin n)
  nextpid : Int32
  initproc : Option (Fin n)
  lock : Option (Fin m)
  cpu : Fin m → Cpu n

/-- The steps. `ticks` is the clock the step reads. -/
inductive Act (m n : Nat) (F : Type)
  /-- `userinit()`: its call of `allocproc()`. -/
  | userinitAlloc (c : Fin m) (ticks : UInt32)
  /-- `userinit()`: `p->state = RUNNABLE`. -/
  | userinitReady (c : Fin m)
  /-- CPU `c` enters `scheduler()`. -/
  | start (c : Fin m)
  /-- `rnd = generate_random(getTotal())`. -/
  | draw (c : Fin m) (ticks : UInt32)
  /-- From `acquire(&ptable.lock)` to the first switch or the end of the pass. -/
  | pass (c : Fin m) (ticks : UInt32)
  /-- From the return of `swtch` to the next switch or the end of the pass. -/
  | sched (c : Fin m) (ticks : UInt32)
  /-- The dispatched process goes on from its own `swtch` (or starts). -/
  | resumed (c : Fin m)
  | yield (c : Fin m)
  | sleep (c : Fin m) (chan : Chan n)
  /-- `wakeup(chan)`, by a process or an interrupt handler. -/
  | wakeup (chan : Chan n)
  | kill (pid : Int32)
  /-- `fork()`: the critical section of `allocproc()`. -/
  | forkAlloc (c : Fin m) (ticks : UInt32)
  /-- `fork()`: out of memory, `np->state = UNUSED`. -/
  | forkFail (c : Fin m)
  /-- `fork()`: `np->parent = curproc`. -/
  | forkParent (c : Fin m)
  /-- `fork()`: `np->state = RUNNABLE`. -/
  | forkReady (c : Fin m)
  | exit (c : Fin m)
  | wait (c : Fin m)
  | setTickets (pid : Int32) (tickets : Int32)
  | setPriority (pid : Int32) (priority : F)
  | changeQueue (pid : Int32) (level : Int32)

variable {m n : Nat} {F : Type}

/-! ### Functions on the table -/

/-- `allocproc`: the first `UNUSED` slot becomes `EMBRYO`. -/
def allocproc [FloatOps F] (t : Table n F) (nextpid : Int32) (ticks : UInt32) :
    Option (Fin n × Table n F) :=
  ((List.finRange n).find? fun i => (t i).state = .unused).map fun i =>
    (i, Function.update t i { t i with
      state := .embryo
      pid := nextpid
      level := .lottery
      tickets := generateRandom ticks 60
      cycleNum := 1
      entryTime := ticks
      priority := FloatOps.ofInt 1 })

/-- `wakeup1`. -/
def wakeup1 (t : Table n F) (chan : Option (Chan n)) : Table n F := fun i =>
  if (t i).state = .sleeping ∧ (t i).chan = chan then { t i with state := .runnable } else t i

/-- The loops that look for `pid` and change the first slot that has it. -/
def updatePid (t : Table n F) (pid : Int32) (g : Proc n F → Proc n F) : Table n F :=
  match (List.finRange n).find? fun i => (t i).pid = pid with
  | some i => Function.update t i (g (t i))
  | none => t

/-- `kill`. -/
def kill (t : Table n F) (pid : Int32) : Table n F :=
  updatePid t pid fun p =>
    { p with killed := true, state := if p.state = .sleeping then .runnable else p.state }

/-- `set_tickets`. -/
def setTickets (t : Table n F) (pid tickets : Int32) : Table n F :=
  updatePid t pid fun p => { p with tickets := tickets }

/-- `set_priority`. -/
def setPriority (t : Table n F) (pid : Int32) (priority : F) : Table n F :=
  updatePid t pid fun p => { p with priority := priority }

/-- `change_queue`: queue 2 is HRRN, 3 is SRPF, any other number is LOTTERY. -/
def changeQueue (t : Table n F) (pid level : Int32) : Table n F :=
  updatePid t pid fun p =>
    { p with level := if level = 2 then .hrrn else if level = 3 then .srpf else .lottery }

/-- `exit`: pass abandoned children to init. -/
def passChildren (cur : Fin n) (initproc : Option (Fin n)) (t : Table n F) : Table n F :=
  (List.finRange n).foldl
    (fun t i =>
      if (t i).parent = some cur then
        let t := Function.update t i { t i with parent := initproc }
        if (t i).state = .zombie then wakeup1 t (initproc.map .proc) else t
      else t) t

/-- `exit`: the critical section, up to `sched()`. -/
def exit (t : Table n F) (cur : Fin n) (initproc : Option (Fin n)) : Table n F :=
  Table.setState (passChildren cur initproc (wakeup1 t ((t cur).parent.map .proc))) cur .zombie

/-- `wait`: a reaped child's slot. -/
def reap (p : Proc n F) : Proc n F :=
  { p with pid := 0, parent := none, killed := false, state := .unused }

/-- How a round of the loop of `wait` ends. -/
inductive WaitOut (n : Nat) (F : Type)
  /-- A child was reaped, or there is nothing to wait for. -/
  | ret (t : Table n F)
  /-- `sleep(curproc, &ptable.lock)`. -/
  | sleep (t : Table n F)

/-- A round of the loop of `wait`: reap the first `ZOMBIE` child; else return
if there is no child or the caller was killed; else sleep. -/
def waitLoop (t : Table n F) (cur : Fin n) : WaitOut n F :=
  match (List.finRange n).find? fun i => (t i).parent = some cur ∧ (t i).state = .zombie with
  | some i => .ret (Function.update t i (reap (t i)))
  | none =>
      if (∀ i, (t i).parent ≠ some cur) ∨ (t cur).killed then .ret t
      else
        .sleep (Function.update t cur
          { t cur with chan := some (.proc cur), state := .sleeping })

/-! ### The machine -/

namespace Sys

/-- The process that CPU `c` is running, when it is outside every critical
section of `ptable.lock`. -/
def current (s : Sys m n F) (c : Fin m) : Option (Fin n) :=
  match (s.cpu c).pc with
  | .running .. => if s.lock = some c then none else (s.cpu c).proc
  | _ => none

/-- The process `cur` running on CPU `c` calls `sched()`: the table is `t`, its
thread is suspended in `th`, the scheduler of `c` is next. -/
def enterSched (s : Sys m n F) (c : Fin m) (cur : Fin n) (t : Table n F) (th : Thread) :
    Sys m n F :=
  match (s.cpu c).pc with
  | .running site f =>
      { s with
        proc := t
        thread := Function.update s.thread cur th
        lock := some c
        cpu := Function.update s.cpu c { s.cpu c with pc := .back site f } }
  | _ => s

/-- A round of the loop of `wait`, run by `cur` on CPU `c` with the lock held. -/
def waitRound (s : Sys m n F) (c : Fin m) (cur : Fin n) (t : Table n F) : Sys m n F :=
  match waitLoop t cur with
  | .ret t' => { s with proc := t', lock := none, thread := Function.update s.thread cur .run }
  | .sleep t' => s.enterSched c cur t' .wait

/-- A stretch of `scheduler()` on CPU `c` ends. -/
def finish (s : Sys m n F) (c : Fin m) : Out n F → Sys m n F
  | .swtch site p t f =>
      { s with
        proc := t
        lock := some c
        cpu := Function.update s.cpu c { s.cpu c with proc := some p, pc := .running site f } }
  | .release t =>
      { s with
        proc := t
        lock := none
        cpu := Function.update s.cpu c
          { s.cpu c with proc := none, pc := .top, releases := (s.cpu c).releases + 1 } }
  | .skip t =>
      { s with
        proc := t
        lock := some c
        cpu := Function.update s.cpu c { s.cpu c with proc := none, pc := .top } }
  | .unset =>
      { s with
        lock := some c
        cpu := Function.update s.cpu c { s.cpu c with proc := none, pc := .wild } }

end Sys

variable [FloatOps F]

/-- The next state, if `a` can be taken. -/
def step (s : Sys m n F) : Act m n F → Option (Sys m n F)
  | .userinitAlloc c ticks =>
      if s.lock = none ∧ (s.cpu c).pc = .boot ∧ s.initproc = none
          ∧ generateRandom ticks 60 ≠ 0 then
        (allocproc s.proc s.nextpid ticks).map fun (p, t) =>
          { s with
            proc := t
            nextpid := s.nextpid + 1
            initproc := some p
            cpu := Function.update s.cpu c { s.cpu c with pc := .userinit p } }
      else none
  | .userinitReady c =>
      match (s.cpu c).pc with
      | .userinit p =>
          if s.lock = none then
            some { s with
              proc := s.proc.setState p .runnable
              thread := Function.update s.thread p .forkret
              cpu := Function.update s.cpu c { s.cpu c with pc := .boot } }
          else none
      | _ => none
  | .start c =>
      if (s.cpu c).pc = .boot then
        some { s with cpu := Function.update s.cpu c { s.cpu c with proc := none, pc := .top } }
      else none
  | .draw c ticks =>
      -- getTotal() reads the table under ptable.lock; here it may also do so between the
      -- steps of a CPU that has the lock
      if (s.cpu c).pc = .top then
        let rnd := generateRandom ticks (getTotal s.proc)
        some { s with cpu := Function.update s.cpu c { s.cpu c with pc := .drawn rnd } }
      else none
  | .pass c ticks =>
      match (s.cpu c).pc with
      | .drawn rnd =>
          if s.lock = none then
            let own := { s.cpu c with acquires := (s.cpu c).acquires + 1 }
            let s' := { s with cpu := Function.update s.cpu c own }
            some (s'.finish c (lotteryPhase (hrrnBetter ticks) s.proc rnd))
          else none
      | _ => none
  | .sched c ticks =>
      match (s.cpu c).pc with
      | .back site f =>
          if s.lock = some c then
            -- c->proc = 0
            let own := { s.cpu c with proc := none }
            let s' := { s with cpu := Function.update s.cpu c own }
            some (s'.finish c (resume (hrrnBetter ticks) site s.proc f))
          else none
      | _ => none
  | .resumed c =>
      match (s.cpu c).pc, (s.cpu c).proc with
      | .running .., some p =>
          if s.lock = some c then
            match s.thread p with
            | .forkret | .yield =>
                some { s with lock := none, thread := Function.update s.thread p .run }
            | .sleep =>
                some { s with
                  proc := Function.update s.proc p { s.proc p with chan := none }
                  lock := none
                  thread := Function.update s.thread p .run }
            | .wait =>
                some (s.waitRound c p
                  (Function.update s.proc p { s.proc p with chan := none }))
            -- exit() panics if it is ever resumed
            | .run | .exit => none
          else none
      | _, _ => none
  | .yield c =>
      (s.current c).bind fun p =>
        if s.lock = none then some (s.enterSched c p (s.proc.setState p .runnable) .yield)
        else none
  | .sleep c chan =>
      (s.current c).bind fun p =>
        if s.lock = none then
          some (s.enterSched c p
            (Function.update s.proc p { s.proc p with chan := some chan, state := .sleeping })
            .sleep)
        else none
  | .wakeup chan =>
      if s.lock = none then some { s with proc := wakeup1 s.proc (some chan) } else none
  | .kill pid => if s.lock = none then some { s with proc := kill s.proc pid } else none
  | .forkAlloc c ticks =>
      (s.current c).bind fun p =>
        if s.lock = none ∧ s.forking p = none ∧ generateRandom ticks 60 ≠ 0 then
          match allocproc s.proc s.nextpid ticks with
          | some (np, t) =>
              some { s with
                proc := t
                nextpid := s.nextpid + 1
                forking := Function.update s.forking p (some np) }
          | none => some s
        else none
  | .forkFail c =>
      (s.current c).bind fun p => (s.forking p).bind fun np =>
        if (s.proc np).parent = some p then none
        else
          some { s with
            proc := s.proc.setState np .unused
            forking := Function.update s.forking p none }
  | .forkParent c =>
      (s.current c).bind fun p => (s.forking p).bind fun np =>
        some { s with proc := Function.update s.proc np { s.proc np with parent := some p } }
  | .forkReady c =>
      (s.current c).bind fun p => (s.forking p).bind fun np =>
        if s.lock = none ∧ (s.proc np).parent = some p then
          some { s with
            proc := s.proc.setState np .runnable
            thread := Function.update s.thread np .forkret
            forking := Function.update s.forking p none }
        else none
  | .exit c =>
      (s.current c).bind fun p =>
        if s.lock = none ∧ s.forking p = none ∧ s.initproc ≠ some p then
          some (s.enterSched c p (exit s.proc p s.initproc) .exit)
        else none
  | .wait c =>
      (s.current c).bind fun p =>
        if s.lock = none ∧ s.forking p = none then some (s.waitRound c p s.proc) else none
  | .setTickets pid k => if s.lock = none then some { s with proc := setTickets s.proc pid k } else none
  | .setPriority pid x =>
      if s.lock = none then some { s with proc := setPriority s.proc pid x } else none
  | .changeQueue pid l =>
      if s.lock = none then some { s with proc := changeQueue s.proc pid l } else none

/-- The machine as it is switched on: an empty table, every CPU before
`scheduler()`. -/
def boot (m n : Nat) (F : Type) [FloatOps F] : Sys m n F where
  proc := fun _ => Proc.zero
  thread := fun _ => .run
  forking := fun _ => none
  nextpid := 1
  initproc := none
  lock := none
  cpu := fun _ => ⟨none, .boot, 0, 0⟩

/-- Process management on `m` CPUs with `n` slots. -/
def machine (m n : Nat) (F : Type) [FloatOps F] : Machine (Sys m n F) (Act m n F) where
  init := boot m n F
  step := step

end OsCourse.Sched
