import Mathlib.Data.Fin.Basic
import Mathlib.Data.List.FinRange
import Mathlib.Data.Rat.Defs
import Mathlib.Algebra.Order.Ring.Unbundled.Rat

/-!
# OsCourse.Sched.Table

The process table of the scheduling kernel (`OS-lab-xv6-scheduling/proc.h`):
the fields of `struct proc` that process management and the three-queue
scheduler read or write. C's `int` and `uint` are 32 bits wide and wrap, as
`Int32` and `UInt32` do.

The table has `n` slots (`NPROC` in the kernel). A `struct proc *` is a slot, a
null pointer is `none`. The scheduler computes with `float`s; nothing here
depends on how they round, so they are any type `F` with the operations the
kernel applies to them (`FloatOps`), with no law assumed.
-/

namespace OsCourse.Sched

/-- `NPROC`: maximum number of processes. -/
abbrev NPROC : Nat := 64

/-- `enum procstate`. -/
inductive ProcState
  | unused | embryo | sleeping | runnable | running | zombie
  deriving DecidableEq, Repr

/-- `enum Levels`: the three queues. -/
inductive Levels
  | lottery | hrrn | srpf
  deriving DecidableEq, Repr

/-- A sleep channel: the address of a process slot or of another kernel object. -/
inductive Chan (n : Nat)
  | proc (i : Fin n)
  | addr (a : UInt32)
  deriving DecidableEq, Repr

/-- The operations on `float` that `scheduler()` and `calculateHRRN()` use. -/
class FloatOps (F : Type) where
  /-- `(float)x` for `uint x`. -/
  ofUInt : UInt32 → F
  /-- `(float)x` for `int x`. -/
  ofInt : Int32 → F
  /-- `x / y`. -/
  div : F → F → F
  /-- `x < y`. -/
  lt : F → F → Bool
  /-- `x - 0.1 >= 0`. -/
  canLower : F → Bool
  /-- `x - 0.1`, rounded back to `float`. -/
  lower : F → F

/-- `float` read as an exact rational. -/
instance : FloatOps ℚ where
  ofUInt x := x.toNat
  ofInt x := x.toInt
  div x y := x / y
  lt x y := decide (x < y)
  canLower x := decide (x - 1 / 10 ≥ 0)
  lower x := x - 1 / 10

/-- `struct proc`. -/
structure Proc (n : Nat) (F : Type) where
  state : ProcState
  pid : Int32
  parent : Option (Fin n)
  chan : Option (Chan n)
  killed : Bool
  level : Levels
  priority : F
  tickets : Int32
  cycleNum : Int32
  entryTime : UInt32

/-- `ptable.proc`. -/
abbrev Table (n : Nat) (F : Type) := Fin n → Proc n F

variable {n : Nat} {F : Type}

/-- A slot of the zero-initialised table (`LOTTERY` is 0). -/
def Proc.zero [FloatOps F] : Proc n F where
  state := .unused
  pid := 0
  parent := none
  chan := none
  killed := false
  level := .lottery
  priority := FloatOps.ofInt 0
  tickets := 0
  cycleNum := 0
  entryTime := 0

/-- `p->state = st` for slot `i`. -/
def Table.setState (t : Table n F) (i : Fin n) (st : ProcState) : Table n F :=
  Function.update t i { t i with state := st }

@[simp] theorem Table.setState_self (t : Table n F) (i : Fin n) (st : ProcState) :
    t.setState i st i = { t i with state := st } := Function.update_self ..

theorem Table.setState_of_ne (t : Table n F) {i j : Fin n} (h : j ≠ i) (st : ProcState) :
    t.setState i st j = t j := Function.update_of_ne h ..

/-- Slot `i` is in queue `lv` and may be dispatched. -/
def Runnable (t : Table n F) (lv : Levels) (i : Fin n) : Prop :=
  (t i).state = .runnable ∧ (t i).level = lv

instance (t : Table n F) (lv : Levels) (i : Fin n) : Decidable (Runnable t lv i) := by
  unfold Runnable
  infer_instance

/-- `calculateHRRN`: waiting time over the number of dispatches. -/
def calculateHRRN [FloatOps F] (ticks : UInt32) (p : Proc n F) : F :=
  FloatOps.div (FloatOps.ofUInt (ticks - p.entryTime)) (FloatOps.ofInt p.cycleNum)

end OsCourse.Sched
