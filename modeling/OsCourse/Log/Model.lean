import OsCourse.Lib.Block
import OsCourse.Lib.Machine

/-!
# OsCourse.Log.Model

The log of the lock kernel (`OS-lab-xv6-lock/log.c`): `commit` and
`recover_from_log`, one block write at a time, and `begin_op`, `log_write` and
`end_op` as any number of processes run them.

The disk maps block numbers to blocks. `buf` is what `bread` returns: the cached
copy of a block, or the block on disk. `bwrite` copies it to the disk. A restart
forgets the copies.

`commit` runs without the lock: its loops are program points (`Point`), and one
`advance` is one iteration, with at most one block written. The same points, from
`readHead` on, are the recovery.

A process takes the lock for one step: from `acquire` to `release`, or to the
`sleep` in between. The two tests in front of `log_write` read the log without
the lock and are steps of their own. What the operations put into the blocks
plays no part in this and is left out.
-/

namespace OsCourse.Log

open OsCourse.Lib

/-- `MAXOPBLOCKS`. -/
abbrev MAXOPBLOCKS : Nat := 10
/-- `LOGSIZE`. -/
abbrev LOGSIZE : Nat := 30

/-! ### The log on disk -/

/-- `log.start` and `log.size`. -/
structure Layout where
  start : Nat
  size : Nat

/-- `struct logheader`; the loops go up to `n`, and not at all for a negative one. -/
structure LogHeader where
  n : Nat
  block : Nat → UInt32

/-- The block numbers in a header. -/
def LogHeader.blocks (lh : LogHeader) : List UInt32 := (List.range lh.n).map lh.block

/-- `lh->n`, read from a block. -/
def headN (b : Block) : Nat := if (word b 0).toNat < 2 ^ 31 then (word b 0).toNat else 0

/-- The header in memory, the disk, and the blocks as `bread` returns them. -/
structure Mem where
  lh : LogHeader
  disk : Nat → Block
  buf : Nat → Block

namespace Mem

/-- `memmove` of block `b` into the buffer of block `bno`, and `bwrite` of it. -/
def bwrite (m : Mem) (bno : Nat) (b : Block) : Mem :=
  { m with disk := Function.update m.disk bno b, buf := Function.update m.buf bno b }

/-- The block number of home block `tail`. -/
def home (m : Mem) (tail : Nat) : Nat := (m.lh.block tail).toNat

/-- The loop of `write_head`, with the entries from `i` on to go. -/
def putBlocks (lh : LogHeader) : Nat → Block → Block
  | 0, b => b
  | i + 1, b => setWord (putBlocks lh i b) (i + 1) (lh.block i)

/-- `write_head`. -/
def write_head (L : Layout) (m : Mem) : Mem :=
  m.bwrite L.start (putBlocks m.lh m.lh.n (setWord (m.buf L.start) 0 (UInt32.ofNat m.lh.n)))

/-- `read_head`. -/
def read_head (L : Layout) (m : Mem) : Mem :=
  let n := headN (m.buf L.start)
  { m with lh := ⟨n, fun i => if i < n then word (m.buf L.start) (i + 1) else m.lh.block i⟩ }

/-- One iteration of the loop of `write_log`. -/
def write_log (L : Layout) (m : Mem) (tail : Nat) : Mem :=
  m.bwrite (L.start + tail + 1) (m.buf (m.home tail))

/-- One iteration of the loop of `install_trans`. -/
def install_trans (L : Layout) (m : Mem) (tail : Nat) : Mem :=
  m.bwrite (m.home tail) (m.buf (L.start + tail + 1))

/-- After a restart only the disk is left. -/
def restart (disk : Nat → Block) : Mem := ⟨⟨0, fun _ => 0⟩, disk, disk⟩

end Mem

/-- A program point of `commit` or `recover_from_log`. -/
inductive Point
  /-- `write_log`, in front of iteration `tail`. -/
  | writeLog (tail : Nat)
  /-- `write_head`, the commit. -/
  | writeHead
  /-- `read_head`. -/
  | readHead
  /-- `install_trans`, in front of iteration `tail`. -/
  | install (tail : Nat)
  /-- `log.lh.n = 0`. -/
  | clear
  /-- `write_head`, which erases the transaction. -/
  | eraseHead
  | done
  deriving DecidableEq, Repr

/-- The first point of `commit`: `if (log.lh.n > 0)`. -/
def Point.commit (m : Mem) : Point := if 0 < m.lh.n then .writeLog 0 else .done

/-- The next step of `commit` or `recover_from_log`. -/
def advance (L : Layout) (m : Mem) : Point → Mem × Point
  | .writeLog tail =>
      if tail < m.lh.n then (m.write_log L tail, .writeLog (tail + 1)) else (m, .writeHead)
  | .writeHead => (m.write_head L, .install 0)
  | .readHead => (m.read_head L, .install 0)
  | .install tail =>
      if tail < m.lh.n then (m.install_trans L tail, .install (tail + 1)) else (m, .clear)
  | .clear => ({ m with lh := { m.lh with n := 0 } }, .eraseHead)
  | .eraseHead => (m.write_head L, .done)
  | .done => (m, .done)

/-- `k` steps. -/
def run (L : Layout) : Nat → Mem × Point → Mem × Point
  | 0, s => s
  | k + 1, s => run L k (advance L s.1 s.2)

/-- The steps of a complete `recover_from_log`. -/
def recoverySteps (L : Layout) (disk : Nat → Block) : Nat := headN (disk L.start) + 4

/-- A recovery from `disk`, cut after `k` steps: the disk it leaves. -/
def recoverFor (L : Layout) (k : Nat) (disk : Nat → Block) : Nat → Block :=
  (run L k (.restart disk, .readHead)).1.disk

/-- `recover_from_log`, after a restart. -/
def recover_from_log (L : Layout) (disk : Nat → Block) : Nat → Block :=
  recoverFor L (recoverySteps L disk) disk

/-- Recoveries one after another, each cut after the given number of steps. -/
def crashes (L : Layout) (disk : Nat → Block) (ks : List Nat) : Nat → Block :=
  ks.foldl (fun d k => recoverFor L k d) disk

/-! ### Any number of operations -/

/-- Why the kernel stopped. -/
inductive Panic
  | tooBigTransaction
  | outsideOfTrans
  | committing
  deriving DecidableEq, Repr

/-- Where a process stands. -/
inductive PC
  /-- In no file system operation. -/
  | user
  /-- `sleep(&log, &log.lock)` in `begin_op`. -/
  | waiting (asleep : Bool)
  /-- In an operation. -/
  | inOp
  /-- `log_write` of a block, between its two tests. -/
  | checked (b : UInt32)
  /-- `log_write` of a block, about to acquire the lock. -/
  | writing (b : UInt32)
  /-- In `commit`. -/
  | commit (k : Point)
  /-- `commit` has returned to `end_op`. -/
  | committed
  deriving DecidableEq, Repr

/-- What happened, in order. -/
inductive Event (π : Type)
  | begin (p : π)
  | log (p : π) (b : UInt32)
  | endOp (p : π)
  /-- A commit is over; `bs` are the home blocks it has written. -/
  | commit (bs : List UInt32)
  deriving DecidableEq, Repr

/-- `log`, the blocks, and the processes. `installed` and `events` are history. -/
structure State (π : Type) where
  mem : Mem
  outstanding : Int
  committing : Bool
  pc : π → PC
  panic : Option Panic
  installed : List UInt32
  events : List (Event π)

variable {π : Type} [DecidableEq π]

namespace State

/-- Process `p` moves on to `k`. -/
def goto (s : State π) (p : π) (k : PC) : State π := { s with pc := Function.update s.pc p k }

/-- `wakeup(&log)`. -/
def wakeup (s : State π) : State π :=
  { s with pc := fun q => match s.pc q with
      | .waiting _ => .waiting false
      | k => k }

/-- One round of the loop of `begin_op`. -/
def begin_op (s : State π) (p : π) : State π :=
  if s.committing then s.goto p (.waiting true)
  else if (s.mem.lh.n : Int) + (s.outstanding + 1) * MAXOPBLOCKS > LOGSIZE then
    s.goto p (.waiting true)
  else { s.goto p .inOp with
    outstanding := s.outstanding + 1, events := s.events ++ [.begin p] }

/-- `end_op`, up to the release of the lock. -/
def end_op (s : State π) (p : π) : State π :=
  let s := { s with outstanding := s.outstanding - 1 }
  if s.committing then { s with panic := some .committing }
  else if s.outstanding = 0 then
    { s.goto p (.commit (.commit s.mem)) with
      committing := true, installed := [], events := s.events ++ [.endOp p] }
  else { s.wakeup.goto p .user with events := s.events ++ [.endOp p] }

/-- `end_op`, after `commit`. -/
def end_commit (s : State π) (p : π) : State π :=
  { s.wakeup.goto p .user with
    committing := false, events := s.events ++ [.commit s.installed] }

end State

/-- The first index below `n` that holds `b`, or `n`. -/
def LogHeader.find (lh : LogHeader) (b : UInt32) : Nat :=
  ((List.range lh.n).find? fun i => lh.block i = b).getD lh.n

/-- The locked part of `log_write`. -/
def LogHeader.add (lh : LogHeader) (b : UInt32) : LogHeader :=
  let i := lh.find b
  { block := Function.update lh.block i b, n := if i = lh.n then lh.n + 1 else lh.n }

/-- The home block written at a point. -/
def Mem.written (m : Mem) : Point → List UInt32
  | .install tail => if tail < m.lh.n then [m.lh.block tail] else []
  | _ => []

/-- What happens next. -/
inductive Act (π : Type)
  /-- Process `p` calls `begin_op`. -/
  | begin (p : π)
  /-- Process `p` calls `log_write` for block `b`. -/
  | logWrite (p : π) (b : UInt32)
  /-- Process `p` calls `end_op`. -/
  | endOp (p : π)
  /-- Process `p` goes on in its call. -/
  | step (p : π)
  deriving DecidableEq, Repr

/-- One step: `none` if it cannot be taken. Nothing happens after a panic. -/
def step (L : Layout) (s : State π) (a : Act π) : Option (State π) :=
  if s.panic.isSome then none
  else match a with
  | .begin p => if s.pc p = .user then some (s.begin_op p) else none
  | .logWrite p b =>
      if s.pc p = .inOp then
        if LOGSIZE ≤ s.mem.lh.n ∨ (L.size : Int) - 1 ≤ s.mem.lh.n then
          some { s with panic := some .tooBigTransaction }
        else some (s.goto p (.checked b))
      else none
  | .endOp p => if s.pc p = .inOp then some (s.end_op p) else none
  | .step p =>
      match s.pc p with
      | .waiting false => some (s.begin_op p)
      | .checked b =>
          if s.outstanding < 1 then some { s with panic := some .outsideOfTrans }
          else some (s.goto p (.writing b))
      | .writing b =>
          some { s.goto p .inOp with
            mem := { s.mem with lh := s.mem.lh.add b }, events := s.events ++ [.log p b] }
      | .commit k =>
          if k = .done then some (s.goto p .committed)
          else some { s.goto p (.commit (advance L s.mem k).2) with
            mem := (advance L s.mem k).1, installed := s.installed ++ s.mem.written k }
      | .committed => some (s.end_commit p)
      | .user | .inOp | .waiting true => none

/-- `initlog`, after the recovery: an empty log. -/
def initlog (disk : Nat → Block) : State π where
  mem := .restart disk
  outstanding := 0
  committing := false
  pc := fun _ => .user
  panic := none
  installed := []
  events := []

/-- The processes of `π` on one log. -/
def machine (L : Layout) (disk : Nat → Block) : Machine (State π) (Act π) where
  init := initlog disk
  step := step L

end OsCourse.Log
