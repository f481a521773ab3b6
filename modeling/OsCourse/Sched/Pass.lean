import OsCourse.Sched.Table

/-!
# OsCourse.Sched.Pass

One pass of the loop of `scheduler()` (`OS-lab-xv6-scheduling/proc.c`).

A pass can give the processor away at three places, the calls of `swtch` after
the lottery scan, the HRRN scan and the SRPF scan (`Site`). It is therefore cut
into the stretches between them: each stretch is a function of the table it
finds and ends in an `Out`, which is a switch (with the local variables that
are needed afterwards), the end of the pass, the `continue` that skips
`release(&ptable.lock)`, or the use of a candidate pointer that was never set.
`resume` is what the scheduler does when the dispatched process switches back.

The three flags keep their names; in spite of these, a flag that is set says
that the scan *found* a runnable process.
-/

namespace OsCourse.Sched

variable {n : Nat} {F : Type}

/-- `generate_random`: a linear congruence of `ticks`, reduced by C's `%`
(`long` is 32 bits wide; the reduced number is odd, so `%` never overflows). -/
def generateRandom (ticks : UInt32) (ceil : Int32) : Int32 :=
  if ceil = 0 then 1
  else
    let temp := ticks.toInt32
    let temp := temp * 12345678 + 87654321
    temp % ceil

/-- `getTotal`: the tickets of all slots at `LOTTERY` level, whatever their state. -/
def getTotal (t : Table n F) : Int32 :=
  (List.finRange n).foldl
    (fun totalTickets i =>
      if (t i).level = .lottery then totalTickets + (t i).tickets else totalTickets) 0

/-- The places where `scheduler()` calls `swtch`. -/
inductive Site
  | lottery | hrrn | srpf
  deriving DecidableEq, Repr

/-- The local flags of `scheduler()`. -/
structure Flags where
  isLotteryQEmpty : Bool
  isHRRNEmpty : Bool
  isSRPFEmpty : Bool
  deriving DecidableEq, Repr

/-- How a stretch of `scheduler()` ends. -/
inductive Out (n : Nat) (F : Type)
  /-- `swtch(&(c->scheduler), p->context)` with `c->proc = p` and `p` `RUNNING`. -/
  | swtch (site : Site) (p : Fin n) (t : Table n F) (f : Flags)
  /-- `release(&ptable.lock)`: the pass is over. -/
  | release (t : Table n F)
  /-- The `continue` that goes round the loop without releasing the lock. -/
  | skip (t : Table n F)
  /-- `maxHrrnProc` or `minSRPFProc` is used without having been set. -/
  | unset

/-! ### The lottery -/

/-- The lottery scan over the slots `ps`: the process the draw falls on, if
any, and `isLotteryQEmpty`. -/
def lotteryScan (t : Table n F) : List (Fin n) → Int32 → Bool → Option (Fin n) × Bool
  | [], _, isLotteryQEmpty => (none, isLotteryQEmpty)
  | p :: ps, rnd, isLotteryQEmpty =>
      if (t p).state ≠ .runnable then lotteryScan t ps rnd isLotteryQEmpty
      else if (t p).level ≠ .lottery then lotteryScan t ps rnd isLotteryQEmpty
      else
        let rnd := rnd - (t p).tickets
        if rnd ≤ 0 then (some p, true) else lotteryScan t ps rnd true

/-! ### The HRRN and SRPF scans -/

/-- The scan for the best runnable process of level `lv`: `flag` is
`isHRRNEmpty` or `isSRPFEmpty`, `cand` the candidate pointer (`none` while it is
not set). `none` if the comparison reads a candidate that is not set. -/
def bestScan (better : Proc n F → Proc n F → Bool) (lv : Levels) (t : Table n F) :
    List (Fin n) → Bool → Option (Fin n) → Option (Bool × Option (Fin n))
  | [], flag, cand => some (flag, cand)
  | p :: ps, flag, cand =>
      if (t p).state ≠ .runnable then bestScan better lv t ps flag cand
      else if (t p).level ≠ lv then bestScan better lv t ps flag cand
      else if flag = false then bestScan better lv t ps true (some p)
      else
        match cand with
        | none => none
        | some m =>
            if better (t m) (t p) then bestScan better lv t ps true (some p)
            else bestScan better lv t ps flag cand

variable [FloatOps F]

/-- `calculateHRRN(maxHrrnProc) < calculateHRRN(p)`. -/
def hrrnBetter (ticks : UInt32) (m p : Proc n F) : Bool :=
  FloatOps.lt (calculateHRRN ticks m) (calculateHRRN ticks p)

/-- `minSRPFProc->priority > p->priority`. -/
def srpfBetter (m p : Proc n F) : Bool := FloatOps.lt p.priority m.priority

/-- `if (minSRPFProc->priority - 0.1 >= 0) minSRPFProc->priority -= 0.1`. -/
def lowerPriority (p : Proc n F) : Proc n F :=
  if FloatOps.canLower p.priority then { p with priority := FloatOps.lower p.priority } else p

/-! ### The stretches of a pass -/

/-- From the end of the SRPF block to the end of the loop body. -/
def passEnd (t : Table n F) (f : Flags) : Out n F :=
  if f.isSRPFEmpty = false ∧ f.isHRRNEmpty ∧ f.isLotteryQEmpty then .skip t else .release t

/-- From the end of the HRRN block: the SRPF scan, and the end of the body. -/
def srpfPhase (t : Table n F) (f : Flags) : Out n F :=
  if f.isHRRNEmpty = false then
    match bestScan srpfBetter .srpf t (List.finRange n) false none with
    | none => .unset
    | some (false, _) => passEnd t { f with isSRPFEmpty := false }
    | some (true, none) => .unset
    | some (true, some m) =>
        .swtch .srpf m (Table.setState (Function.update t m (lowerPriority (t m))) m .running)
          { f with isSRPFEmpty := true }
  else passEnd t f

/-- From the end of the lottery scan: the HRRN scan and what follows it. The
processes are compared by `better` (`hrrnBetter ticks` in the kernel). -/
def hrrnPhase (better : Proc n F → Proc n F → Bool) (t : Table n F) (f : Flags) : Out n F :=
  if f.isLotteryQEmpty = false then
    match bestScan better .hrrn t (List.finRange n) false none with
    | none => .unset
    | some (false, _) => srpfPhase t { f with isHRRNEmpty := false }
    | some (true, none) => .unset
    | some (true, some m) =>
        .swtch .hrrn m
          (Table.setState (Function.update t m { t m with cycleNum := (t m).cycleNum + 1 })
            m .running)
          { f with isHRRNEmpty := true }
  else srpfPhase t f

/-- From `acquire(&ptable.lock)`: the lottery scan and what follows it. -/
def lotteryPhase (better : Proc n F → Proc n F → Bool) (t : Table n F) (rnd : Int32) : Out n F :=
  match lotteryScan t (List.finRange n) rnd false with
  | (some p, isLotteryQEmpty) =>
      .swtch .lottery p (t.setState p .running) ⟨isLotteryQEmpty, false, false⟩
  | (none, isLotteryQEmpty) => hrrnPhase better t ⟨isLotteryQEmpty, false, false⟩

/-- The scheduler goes on after the process it dispatched at `site` switched
back; `t` is the table it now finds. -/
def resume (better : Proc n F → Proc n F → Bool) (site : Site) (t : Table n F) (f : Flags) :
    Out n F :=
  match site with
  | .lottery => hrrnPhase better t f
  | .hrrn => srpfPhase t f
  | .srpf => passEnd t f

/-! ### Whole passes -/

/-- A dispatch of a pass: where, which slot, and its queue at that moment. -/
structure Dispatch (n : Nat) where
  site : Site
  slot : Fin n
  level : Levels
  deriving DecidableEq, Repr

/-- If the pass is at `site`, let the dispatched process run until it switches
back with the table `back site`, and go on. -/
def atSite (better : Proc n F → Proc n F → Bool) (back : Site → Table n F)
    (acc : List (Dispatch n) × Out n F) (site : Site) : List (Dispatch n) × Out n F :=
  match acc.2 with
  | .swtch site' p t f =>
      if site' = site then (acc.1 ++ [⟨site, p, (t p).level⟩], resume better site (back site) f)
      else acc
  | _ => acc

/-- Run a pass to its end: the dispatches it makes, in order, and how it ends.
The sites are visited in source order, each at most once. Whatever a dispatched
process does until it switches back is summed up in the table `back site`. -/
def runPass (better : Proc n F → Proc n F → Bool) (back : Site → Table n F) (o : Out n F) :
    List (Dispatch n) × Out n F :=
  [Site.lottery, .hrrn, .srpf].foldl (atSite better back) ([], o)

/-- One pass of the loop: `getTotal` reads the table `t₀`, the scans start from
`t` (the lock is free in between), `ticks` is the clock. -/
def schedulerPass (ticks : UInt32) (t₀ t : Table n F) (back : Site → Table n F) :
    List (Dispatch n) × Out n F :=
  runPass (hrrnBetter ticks) back
    (lotteryPhase (hrrnBetter ticks) t (generateRandom ticks (getTotal t₀)))

end OsCourse.Sched
