import Mathlib.Logic.Function.Basic
import OsCourse.Lib.Machine

/-!
# OsCourse.Monitoring.Model

The road program (`OS-monitoring/Monitor.cpp`, `Condition.cpp`, `main.cpp`):
one `Monitor` per road, one thread per car, and the cars crossing their roads
by `Monitor::moveInPath`.

What a thread still has to do inside a call is a list of atomic operations, and
a method is the list of the operations it stands for. `wait`, `signal` and the
test of `next->count` are operations that put others in front of the rest: this
is how the methods call each other.

A semaphore is its value: `sem_wait` is not enabled at 0, `sem_post` adds one.
`totalEmission += emission` reads the global and writes it back in two steps.
The emission of a crossing, summed up by the loop of `moveInPath` from the
numbers of the car and of the road, is taken as an exact number. Clocks and the
output files play no part and are left out.
-/

namespace OsCourse.Monitoring

open OsCourse.Lib

/-! ### `Condition` and `Monitor` -/

/-- `class Condition`. -/
structure Condition where
  count : Int
  s : Nat
  deriving DecidableEq, Repr

/-- `Condition::Condition`. -/
def Condition.new : Condition := ⟨0, 1⟩

/-- A `Condition*` inside a monitor: its own `next`, or one of its users'. -/
inductive Cond (γ : Type)
  | next
  | user (c : γ)
  deriving DecidableEq, Repr

/-- `class Monitor`, with the conditions used in it. -/
structure Monitor (γ : Type) where
  mutex : Nat
  cond : Cond γ → Condition

/-- `Monitor::Monitor`, and the constructors of the conditions. -/
def Monitor.new (γ : Type) : Monitor γ := ⟨1, fun _ => .new⟩

/-- One atomic operation on a monitor. -/
inductive Op (γ : Type)
  /-- `sem_wait(&mutex)`. -/
  | enter
  /-- `sem_post(&mutex)`. -/
  | exit
  /-- `if (next->count > 0) signal(next); else sem_post(&mutex);`. -/
  | leave
  /-- A call of `wait`. -/
  | wait (c : Cond γ)
  /-- A call of `signal`, and its test `inCondition->count > 0`. -/
  | signal (c : Cond γ)
  /-- `sem_wait(&(inCondition->s))`. -/
  | semWait (c : Cond γ)
  /-- `sem_post(&(inCondition->s))`. -/
  | semPost (c : Cond γ)
  /-- `inCondition->count++`. -/
  | inc (c : Cond γ)
  /-- `inCondition->count--`. -/
  | dec (c : Cond γ)
  deriving DecidableEq, Repr

variable {γ : Type}

/-- The body of `Monitor::wait`. -/
def wait (inCondition : Cond γ) : List (Op γ) :=
  [.leave, .semWait inCondition, .inc inCondition]

/-- What `Monitor::signal` does if somebody is waiting. -/
def signal (inCondition : Cond γ) : List (Op γ) :=
  [.inc .next, .semPost inCondition, .wait .next, .dec .next]

namespace Monitor

variable [DecidableEq γ]

/-- The monitor with one condition changed. -/
def setCond (m : Monitor γ) (c : Cond γ) (x : Condition) : Monitor γ :=
  { m with cond := Function.update m.cond c x }

/-- Do one operation: the new monitor, and the operations that come before the
rest of the caller's. -/
def exec (m : Monitor γ) : Op γ → Option (Monitor γ × List (Op γ))
  | .enter => if 0 < m.mutex then some ({ m with mutex := m.mutex - 1 }, []) else none
  | .exit => some ({ m with mutex := m.mutex + 1 }, [])
  | .leave => if 0 < (m.cond .next).count then some (m, [.signal .next]) else some (m, [.exit])
  | .wait c => some (m, wait c)
  | .signal c => if 0 < (m.cond c).count then some (m, signal c) else some (m, [])
  | .semWait c =>
      if 0 < (m.cond c).s then some (m.setCond c { m.cond c with s := (m.cond c).s - 1 }, [])
      else none
  | .semPost c => some (m.setCond c { m.cond c with s := (m.cond c).s + 1 }, [])
  | .inc c => some (m.setCond c { m.cond c with count := (m.cond c).count + 1 }, [])
  | .dec c => some (m.setCond c { m.cond c with count := (m.cond c).count - 1 }, [])

end Monitor

/-! ### The cars -/

/-- `struct Point`, the two ends of a road; `h` only enters the emission. -/
structure Point where
  source : String
  destination : String
  deriving DecidableEq, Repr

/-- `findMonitor`: the first monitor whose road has the same ends. -/
def findMonitor (monitors : List Point) (po : Point) : Option Nat :=
  monitors.findIdx? fun p => p.source = po.source && p.destination = po.destination

/-- One operation of a car's thread; monitors are numbered. -/
inductive Instr (γ : Type)
  /-- An operation on monitor `m`. -/
  | on (m : Nat) (o : Op γ)
  /-- The loop of `moveInPath` and `car->emission = emission`. -/
  | setEmission (m : Nat)
  /-- `sem_wait(&totalEmissionSem)`. -/
  | waitTotal
  /-- `totalEmission += emission`: the read. -/
  | readTotal
  /-- `totalEmission += emission`: the write. -/
  | writeTotal (m : Nat)
  /-- `car->totalEmission += totalEmission`. -/
  | addToCar
  /-- `sem_post(&totalEmissionSem)`. -/
  | postTotal
  deriving DecidableEq, Repr

/-- `Monitor::moveInPath`, on monitor `m`. -/
def moveInPath (m : Nat) : List (Instr γ) :=
  [.on m .enter, .setEmission m, .waitTotal, .readTotal, .writeTotal m, .addToCar, .postTotal,
    .on m .leave]

/-- A car and its thread: the roads left of `carPath.pathSequence`, what is left
of the call it is in, the value read by `totalEmission += emission`, and the two
numbers of `struct Car`. (`emission` stands for the local variable, too.) -/
structure Car (γ : Type) where
  path : List Point
  code : List (Instr γ)
  tmp : Int
  emission : Int
  totalEmission : Int

/-- What the program is started with: the roads, the path of every car, and
the emission of a car on a road. -/
structure Input (κ : Type) where
  monitors : List Point
  pathSequence : κ → List Point
  emission : κ → Nat → Int

/-- The semaphores, the global total and the cars. `added` is history: the
crossings that have added their emission, in that order. -/
structure State (κ γ : Type) where
  monitor : Nat → Monitor γ
  totalEmissionSem : Nat
  totalEmission : Int
  car : κ → Car γ
  added : List (κ × Nat)

variable {κ : Type} [DecidableEq κ] [DecidableEq γ]

/-- The state with car `c` changed to `x`. -/
def State.setCar (s : State κ γ) (c : κ) (x : Car γ) : State κ γ :=
  { s with car := Function.update s.car c x }

/-- `main`, with all threads started. -/
def start (inp : Input κ) : State κ γ where
  monitor := fun _ => .new γ
  totalEmissionSem := 1
  totalEmission := 0
  car := fun c => ⟨inp.pathSequence c, [], 0, 0, 0⟩
  added := []

/-- Car `c` does the operation `i` and has `k` left of its call. -/
def exec (inp : Input κ) (s : State κ γ) (c : κ) (k : List (Instr γ)) :
    Instr γ → Option (State κ γ)
  | .on m o => ((s.monitor m).exec o).map fun r =>
      { s.setCar c { s.car c with code := r.2.map (.on m) ++ k } with
        monitor := Function.update s.monitor m r.1 }
  | .setEmission m => some (s.setCar c { s.car c with code := k, emission := inp.emission c m })
  | .waitTotal =>
      if 0 < s.totalEmissionSem then
        some { s.setCar c { s.car c with code := k } with
          totalEmissionSem := s.totalEmissionSem - 1 }
      else none
  | .readTotal => some (s.setCar c { s.car c with code := k, tmp := s.totalEmission })
  | .writeTotal m =>
      some { s.setCar c { s.car c with code := k } with
        totalEmission := (s.car c).tmp + (s.car c).emission
        added := s.added ++ [(c, m)] }
  | .addToCar =>
      some (s.setCar c { s.car c with
        code := k, totalEmission := (s.car c).totalEmission + s.totalEmission })
  | .postTotal =>
      some { s.setCar c { s.car c with code := k } with
        totalEmissionSem := s.totalEmissionSem + 1 }

/-- The next step of the thread of car `c`: `moveInRoad`. A road without a
monitor is a null pointer, and the thread does not go on. -/
def step (inp : Input κ) (s : State κ γ) (c : κ) : Option (State κ γ) :=
  match (s.car c).code with
  | i :: k => exec inp s c k i
  | [] =>
      match (s.car c).path with
      | [] => none
      | po :: path => (findMonitor inp.monitors po).map fun m =>
          s.setCar c { s.car c with code := moveInPath m, path }

/-- The cars of `κ` crossing their roads. -/
def machine (inp : Input κ) : Machine (State κ γ) κ where
  init := start inp
  step := step inp

end OsCourse.Monitoring
