import Mathlib.Data.Fintype.Card
import Mathlib.Logic.Function.Basic
import OsCourse.Lib.Machine

/-!
# OsCourse.Barrier.Model

The `barrier(number)` system call of the lock kernel (`OS-lab-xv6-lock/proc.c`),
together with the parts of `sleep`, `wakeup` and `sched` it runs, as a machine
whose actor is the process that takes the next step.

`N` processes call `barrier(N)`, process `p` at most `calls p` times. A step is
one atomic access of the code: a lock is taken or given up, `bar.waitCount` is
read or written, the loop of `wakeup1` runs (under `ptable.lock`). Nothing but
these steps changes the modelled state, so the timer may preempt a process
between any two of them.

* `acquire` spins until the lock is free: the step is not enabled while somebody
  holds it. `release` needs the caller to be the holder (it panics otherwise).
* `sched()` gives the processor and `ptable.lock` to the scheduler, which takes
  no part in the barrier: it is folded into the step that goes to sleep (the
  lock becomes free) and into the step that resumes a woken process (the lock
  is taken for it, as in `scheduler()`).
* The state and channel of a process matter only while it is inside `sched()`:
  they are the two program points `asleep` (`SLEEPING` on `&bar.sl`) and `woken`
  (`RUNNABLE`, not yet dispatched).
-/

namespace OsCourse.Barrier

open OsCourse.Lib

/-- Where a process stands in `barrier()` and the functions it calls. -/
inductive PC
  /-- In user code, outside `barrier`. -/
  | user
  /-- `if(bar.waitCount < number)`, with no lock held. -/
  | test
  /-- `acquire(&bar.countLock)`. -/
  | acquireCount
  /-- `bar.waitCount++`. -/
  | incr
  /-- `if (bar.waitCount == number) … else if (bar.waitCount < number)`. -/
  | compare
  /-- `wakeup`: `acquire(&ptable.lock)`. -/
  | wakeAcquire
  /-- `wakeup`: the loop of `wakeup1(&bar.sl)`. -/
  | wakeup1
  /-- `wakeup`: `release(&ptable.lock)`. -/
  | wakeRelease
  /-- `bar.waitCount = 0`. -/
  | reset
  /-- `release(&bar.countLock)` of the process that reset the count. -/
  | releaseLast
  /-- `release(&bar.countLock)` of a process that has to wait. -/
  | releaseCount
  /-- `acquire(&bar.sl)`. -/
  | acquireSl
  /-- `sleep`: `acquire(&ptable.lock)`. -/
  | sleepAcquire
  /-- `sleep`: `release(lk)`. -/
  | sleepRelease
  /-- `sleep`: `p->chan = chan; p->state = SLEEPING; sched()`. -/
  | sleepState
  /-- Inside `sched()`, `SLEEPING` on `&bar.sl`. -/
  | asleep
  /-- Inside `sched()`, made `RUNNABLE` by a wakeup. -/
  | woken
  /-- `sleep`: `p->chan = 0; release(&ptable.lock)`. -/
  | tidy
  /-- `sleep`: `acquire(lk)`. -/
  | reacquireSl
  /-- `release(&bar.sl)`. -/
  | releaseSl
  deriving DecidableEq, Repr

/-- `struct barrier bar`, `ptable.lock` and the processes. A lock is its holder.
`entered`, `returned` and `nth` are history: how often each process has called
and left `barrier`, and whose increment was the last to make the count `N`. -/
structure State (N : Nat) where
  waitCount : Nat
  countLock : Option (Fin N)
  sl : Option (Fin N)
  ptable : Option (Fin N)
  pc : Fin N → PC
  entered : Fin N → Nat
  returned : Fin N → Nat
  nth : Option (Fin N)

namespace State

variable {N : Nat}

/-- Process `p` moves on to `k`. -/
def goto (s : State N) (p : Fin N) (k : PC) : State N :=
  { s with pc := Function.update s.pc p k }

/-- Process `p` leaves `barrier`. -/
def ret (s : State N) (p : Fin N) : State N :=
  { s.goto p .user with returned := Function.update s.returned p (s.returned p + 1) }

/-- `wakeup1(&bar.sl)`: every process sleeping on the channel becomes runnable. -/
def wakeup1 (s : State N) : State N :=
  { s with pc := fun q => if s.pc q = .asleep then .woken else s.pc q }

end State

/-- After `init_barrier()`: nobody has called yet, every lock is free. -/
def init (N : Nat) : State N where
  waitCount := 0
  countLock := none
  sl := none
  ptable := none
  pc := fun _ => .user
  entered := fun _ => 0
  returned := fun _ => 0
  nth := none

/-- The next step of process `p`. -/
def step {N : Nat} (calls : Fin N → Nat) (s : State N) (p : Fin N) : Option (State N) :=
  match s.pc p with
  | .user =>
      if s.entered p < calls p then
        some { s.goto p .test with entered := Function.update s.entered p (s.entered p + 1) }
      else none
  | .test => if s.waitCount < N then some (s.goto p .acquireCount) else some (s.ret p)
  | .acquireCount =>
      if s.countLock = none then some { s.goto p .incr with countLock := some p } else none
  | .incr =>
      some { s.goto p .compare with
        waitCount := s.waitCount + 1
        nth := if s.waitCount + 1 = N then some p else s.nth }
  | .compare =>
      if s.waitCount = N then some (s.goto p .wakeAcquire)
      else if s.waitCount < N then some (s.goto p .releaseCount)
      -- neither branch is taken: `barrier` returns with `countLock` still held
      else some (s.ret p)
  | .wakeAcquire =>
      if s.ptable = none then some { s.goto p .wakeup1 with ptable := some p } else none
  | .wakeup1 => some (s.wakeup1.goto p .wakeRelease)
  | .wakeRelease =>
      if s.ptable = some p then some { s.goto p .reset with ptable := none } else none
  | .reset => some { s.goto p .releaseLast with waitCount := 0 }
  | .releaseLast =>
      if s.countLock = some p then some { s.ret p with countLock := none } else none
  | .releaseCount =>
      if s.countLock = some p then some { s.goto p .acquireSl with countLock := none } else none
  | .acquireSl =>
      if s.sl = none then some { s.goto p .sleepAcquire with sl := some p } else none
  | .sleepAcquire =>
      if s.ptable = none then some { s.goto p .sleepRelease with ptable := some p } else none
  | .sleepRelease =>
      if s.sl = some p then some { s.goto p .sleepState with sl := none } else none
  | .sleepState =>
      if s.ptable = some p then some { s.goto p .asleep with ptable := none } else none
  | .asleep => none
  | .woken =>
      if s.ptable = none then some { s.goto p .tidy with ptable := some p } else none
  | .tidy =>
      if s.ptable = some p then some { s.goto p .reacquireSl with ptable := none } else none
  | .reacquireSl =>
      if s.sl = none then some { s.goto p .releaseSl with sl := some p } else none
  | .releaseSl =>
      if s.sl = some p then some { s.ret p with sl := none } else none

/-- `N` processes calling `barrier(N)`, process `p` at most `calls p` times. -/
def machine {N : Nat} (calls : Fin N → Nat) : Machine (State N) (Fin N) where
  init := init N
  step := step calls

/-! ### Regions of the code -/

namespace PC

/-- Points between the unlocked test and the increment of the count. -/
def Before : PC → Prop
  | test | acquireCount | incr => True
  | _ => False

/-- Points of a process that has been counted and has not gone to sleep yet,
on the branch that sleeps: it is on its way to `sleep(&bar.sl, &bar.sl)`. -/
def GoingToSleep : PC → Prop
  | releaseCount | acquireSl | sleepAcquire | sleepRelease | sleepState => True
  | _ => False

/-- Points of a process that `wakeup1` has let go. -/
def Leaving : PC → Prop
  | woken | tidy | reacquireSl | releaseSl => True
  | _ => False

/-- Points at which a process holds `bar.countLock`. -/
def HoldsCount : PC → Prop
  | incr | compare | wakeAcquire | wakeup1 | wakeRelease | reset | releaseLast
  | releaseCount => True
  | _ => False

/-- Points at which a process holds `bar.sl`. -/
def HoldsSl : PC → Prop
  | sleepAcquire | sleepRelease | releaseSl => True
  | _ => False

/-- Points at which a process holds `ptable.lock`. -/
def HoldsPtable : PC → Prop
  | wakeup1 | wakeRelease | sleepRelease | sleepState | tidy => True
  | _ => False

/-- Points from which a process may still reach the wakeup of its call. -/
def MayWake : PC → Prop
  | test | acquireCount | incr | compare | wakeAcquire | wakeup1 => True
  | _ => False

instance : DecidablePred Before := fun k => by cases k <;> unfold Before <;> infer_instance

instance : DecidablePred GoingToSleep := fun k => by
  cases k <;> unfold GoingToSleep <;> infer_instance

instance : DecidablePred Leaving := fun k => by cases k <;> unfold Leaving <;> infer_instance

instance : DecidablePred HoldsCount := fun k => by cases k <;> unfold HoldsCount <;> infer_instance

instance : DecidablePred HoldsSl := fun k => by cases k <;> unfold HoldsSl <;> infer_instance

instance : DecidablePred HoldsPtable := fun k => by
  cases k <;> unfold HoldsPtable <;> infer_instance

instance : DecidablePred MayWake := fun k => by cases k <;> unfold MayWake <;> infer_instance

end PC

end OsCourse.Barrier
