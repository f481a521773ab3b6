import OsCourse.Lib.Levels
import OsCourse.Lib.Numeral
import OsCourse.Sched.Table

/-!
# OsCourse.Descendants.Model

`get_children` of the system-call kernel (`Os-lab-xv6-system-call/proc.c`) and
the functions it uses, over a process table of `n` slots that nobody changes
during the call. An `int` is an `Int32`, so `+`, `-` and `*` wrap.

`p->parent->pid` with a null `parent` does not fault: it reads the `int` at the
offset of `pid` in the page that the calling program has at address 0. `low` is
what stands there.

A division by 0 traps; `Outcome.fault` is that. (The other trap of `idiv` needs
the divisor -1, and `pow(10, n)` is even.)
-/

namespace OsCourse.Descendants

open Sched (ProcState)

/-- `struct proc`. -/
structure Proc (n : Nat) where
  state : ProcState
  pid : Int32
  parent : Option (Fin n)

/-- `ptable.proc`. -/
abbrev Table (n : Nat) := Fin n → Proc n

variable {n : Nat}

/-! ### The code -/

/-- `p->parent->pid` for slot `i`. -/
def Table.parentPid (t : Table n) (low : Int32) (i : Fin n) : Int32 :=
  match (t i).parent with
  | some p => (t p).pid
  | none => low

/-- `get_process_children`. -/
def getProcessChildren (t : Table n) (low pid : Int32) : Int32 :=
  (List.finRange n).foldl (fun children p =>
    if t.parentPid low p = pid then children * 10 + (t p).pid else children) 0

/-- The loop of `num_of_degits`, with fuel. -/
def degits : Nat → Int32 → Int32 → Int32
  | 0, _, digits => digits
  | fuel + 1, num, digits => if num > 0 then degits fuel (num / 10) (digits + 1) else digits

/-- `num_of_degits`. The loop divides `num`, so it makes no more than `num` rounds. -/
def numOfDegits (num : Int32) : Int32 := degits num.toNatClampNeg num 0

/-- `pow`: not the power, the base is squared `n - 1` times. -/
def pow (ten n : Int32) : Int32 := (fun ten => ten * ten)^[(n - 1).toNatClampNeg] ten

/-- The local variables of `get_children` that live from one round to the next. -/
structure Vars where
  allChildren : Int32
  numOfAllChildren : Int32
  final : Int32
  i : Int32
  deriving DecidableEq, Repr

/-- `a / b`, where 0 traps. -/
def divide (a b : Int32) : Option Int32 := if b = 0 then none else some (a / b)

/-- `a % b`, where 0 traps. -/
def remainder (a b : Int32) : Option Int32 := if b = 0 then none else some (a % b)

/-- `cur_pid`: the first digit of `all_children`. -/
def Vars.curPid (s : Vars) : Option Int32 :=
  if s.allChildren < 10 then some s.allChildren
  else divide s.allChildren (pow 10 (s.numOfAllChildren - 1))

/-- The middle of the loop body: the children of `cur_pid` are appended. -/
def Vars.append (t : Table n) (low : Int32) (s : Vars) (curPid : Int32) : Vars :=
  let curChildren := getProcessChildren t low curPid
  let numOfCurChildren := numOfDegits curChildren
  if curChildren ≠ 0 then
    { allChildren := s.allChildren * pow 10 numOfCurChildren + curChildren
      numOfAllChildren := s.numOfAllChildren + numOfCurChildren
      final := s.final * pow 10 numOfCurChildren + curChildren
      i := s.i + 1 }
  else { s with i := s.i + 1 }

/-- The end of the loop body: the first digit is dropped. -/
def Vars.drop (s : Vars) : Option Vars :=
  (remainder s.allChildren (pow 10 (s.numOfAllChildren - 1))).map fun allChildren =>
    { s with allChildren := allChildren, numOfAllChildren := s.numOfAllChildren - 1 }

/-- The body of the loop of `get_children`. -/
def body (t : Table n) (low : Int32) (s : Vars) : Option Vars :=
  s.curPid.bind fun curPid => (s.append t low curPid).drop

/-- How far a call of `get_children` has come. -/
inductive Outcome
  /-- In the loop, when the fuel was used up. -/
  | running
  /-- A division by 0. -/
  | fault
  | returned (final : Int32)
  deriving DecidableEq, Repr

/-- The loop of `get_children`. -/
def loop (t : Table n) (low : Int32) : Nat → Vars → Outcome
  | 0, _ => .running
  | fuel + 1, s =>
      if s.i ≤ s.numOfAllChildren then
        match body t low s with
        | some s' => loop t low fuel s'
        | none => .fault
      else .returned s.final

/-- `get_children`, with fuel for its loop. -/
def getChildren (t : Table n) (low pid : Int32) (fuel : Nat) : Outcome :=
  let allChildren := getProcessChildren t low pid
  let numOfAllChildren := numOfDegits allChildren
  if numOfAllChildren = 1 ∧ allChildren = 0 then .returned 0
  else loop t low fuel ⟨allChildren, numOfAllChildren, allChildren, 0⟩

/-! ### What it is for -/

/-- The slot holds a process. -/
def Table.Live (t : Table n) (i : Fin n) : Prop := (t i).state ≠ .unused

instance (t : Table n) (i : Fin n) : Decidable (t.Live i) :=
  inferInstanceAs (Decidable (_ ≠ _))

/-- The parent links are a forest of processes. -/
structure Table.Forest (t : Table n) : Prop where
  acyclic : Lib.Acyclic fun i => (t i).parent
  live : ∀ i p, t.Live i → (t i).parent = some p → t.Live p
  distinct : ∀ i j, t.Live i → t.Live j → (t i).pid = (t j).pid → i = j

/-- The children of the process in slot `i`, in table order. -/
def Table.kids (t : Table n) (i : Fin n) : List (Fin n) :=
  (List.finRange n).filter fun j => t.Live j ∧ (t j).parent = some i

/-- The children of process `pid`, in table order. -/
def Table.kidsOf (t : Table n) (pid : Int32) : List (Fin n) :=
  (List.finRange n).filter fun j => t.Live j ∧ ∃ p, (t j).parent = some p ∧ (t p).pid = pid

/-- The descendants of process `pid`, breadth first. -/
def Table.descendants (t : Table n) (pid : Int32) : List (Fin n) :=
  Lib.levels t.kids n (t.kidsOf pid)

/-- A pid in decimal. -/
def decimal (pid : Int32) : List ℕ :=
  if pid = 0 then [0] else (Nat.digits 10 pid.toNatClampNeg).reverse

/-- The concatenation of the decimal pids of all descendants. -/
def Table.concat (t : Table n) (pid : Int32) : ℕ :=
  Lib.numeral 10 ((t.descendants pid).flatMap fun i => decimal (t i).pid)

/-- The call returns the list of all descendants. -/
def Table.Lists (t : Table n) (low pid : Int32) : Prop :=
  ∃ fuel v, getChildren t low pid fuel = .returned v ∧ v.toInt = t.concat pid

/-! ### When it does -/

/-- What the loop has found when it has looked up the first `k` descendants. -/
def Table.found (t : Table n) (pid : Int32) (k : ℕ) : List (Fin n) :=
  Lib.found t.kids (t.kidsOf pid) (t.descendants pid) k

/-- The loop comes to the `k`-th descendant: its bound, the number of those found
and not looked up, has not fallen below `k`. -/
def Table.Scanned (t : Table n) (pid : Int32) (k : ℕ) : Prop := 2 * k ≤ (t.found pid k).length

/-- Only children of `q` are taken for such: no slot that is not in use, none
without a parent. -/
def Table.Reads (t : Table n) (low q : Int32) : Prop :=
  ∀ i, t.parentPid low i = q → t.Live i ∧ (t i).parent ≠ none

instance (t : Table n) (pid : Int32) (k : ℕ) : Decidable (t.Scanned pid k) :=
  inferInstanceAs (Decidable (_ ≤ _))

instance (t : Table n) (low q : Int32) : Decidable (t.Reads low q) :=
  inferInstanceAs (Decidable (∀ i, t.parentPid low i = q → t.Live i ∧ (t i).parent ≠ none))

/-- The queue of digits can be used as one. -/
structure Table.Clean (t : Table n) (low pid : Int32) : Prop where
  /-- Every pid is one digit, and not 0. -/
  digit : ∀ i ∈ t.descendants pid, 0 < (t i).pid ∧ (t i).pid < 10
  root : t.Reads low pid
  scan : ∀ k (hk : k < (t.descendants pid).length), t.Scanned pid k →
    t.Reads low (t (t.descendants pid)[k]).pid
  /-- Without descendants the loop looks up 0. -/
  zero : t.descendants pid = [] → ∀ i, t.parentPid low i ≠ 0
  /-- There are never more than three digits in the queue, the one that is looked
  up included. -/
  queue : ∀ k < (t.descendants pid).length, t.Scanned pid k →
    (t.found pid (k + 1)).length ≤ k + 3

/-- No descendant that the loop does not come to has children. -/
def Table.Swept (t : Table n) (pid : Int32) : Prop :=
  ∀ k (hk : k < (t.descendants pid).length), ¬ t.Scanned pid k →
    t.kids (t.descendants pid)[k] = []

instance (t : Table n) (pid : Int32) : Decidable (t.Swept pid) :=
  inferInstanceAs (Decidable (∀ k (hk : k < (t.descendants pid).length), ¬ t.Scanned pid k →
    t.kids (t.descendants pid)[k] = []))

instance (t : Table n) : Decidable t.Forest :=
  decidable_of_iff (Lib.Acyclic (fun i => (t i).parent) ∧
      (∀ i p, t.Live i → (t i).parent = some p → t.Live p) ∧
      ∀ i j, t.Live i → t.Live j → (t i).pid = (t j).pid → i = j)
    ⟨fun ⟨ha, hl, hd⟩ => ⟨ha, hl, hd⟩, fun h => ⟨h.acyclic, h.live, h.distinct⟩⟩

end OsCourse.Descendants
