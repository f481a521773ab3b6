import OsCourse.Lib.Dlist
import OsCourse.Lib.Lock
import OsCourse.Lib.Machine

/-!
# OsCourse.Bio.Model

The buffer cache (`OS-lab-xv6-lock/bio.c`), with what `iderw` and `log_write` do
to the flags of a buffer.

An actor is one use of a buffer: a call of `bread`, any number of calls of
`bwrite`, and the `brelse` at the end. A process has as many of them as buffers
it uses. A step is a section under `bcache.lock`, or one of the points between
them at which a process waits or hands on: the sleep-lock of the buffer and the
disk. The sections write `dev`, `blockno`, `refcnt` and the links; `bget` looks
at the flags of unreferenced buffers only, and those are in nobody's hands.

`log_write` is called by whoever uses the buffer; it takes another lock, and is
a step that may come at any time, for any buffer. Its panics and the log are left
out, and so are the data of the buffers and the order of the disk queue.
-/

namespace OsCourse.Bio

open OsCourse.Lib

/-- `struct buf`: the two bits of `flags`, and the sleep-lock as its holder. The
count is one for every reference, and never near `2 ^ 32`. -/
structure Buf (ι : Type) where
  dev : UInt32
  blockno : UInt32
  valid : Bool
  dirty : Bool
  refcnt : ℕ
  lock : Option ι

/-- Where the use of a buffer stands. -/
inductive PC (NBUF : ℕ)
  /-- About to call `bread`, or after `brelse`. -/
  | idle
  /-- In `bget`, at `acquiresleep`. -/
  | waiting (i : Fin NBUF)
  /-- In `iderw`, with the buffer on the disk queue. -/
  | queued (i : Fin NBUF)
  /-- In `iderw`, after the `wakeup` of `ideintr`. -/
  | served (i : Fin NBUF)
  /-- Between `bread` and `brelse`. -/
  | holding (i : Fin NBUF)
  /-- In `brelse`, after `releasesleep`. -/
  | releasing (i : Fin NBUF)
  deriving DecidableEq

/-- `bcache`, and the uses of it. -/
structure State (ι : Type) (NBUF : ℕ) where
  buf : Fin NBUF → Buf ι
  /-- The links of the buffers and of `bcache.head`, which is `none`. -/
  next : Link (Fin NBUF)
  prev : Link (Fin NBUF)
  pc : ι → PC NBUF
  /-- Not in the code: how often a count has gone to zero. -/
  clock : ℕ
  /-- Not in the code: when the count of a buffer last went to zero; 0 is never. -/
  released : Fin NBUF → ℕ

variable {ι : Type} {NBUF : ℕ}

/-- `binit`, on the zeroed `bcache`. Nobody reads the links of a buffer
before it is in the list. -/
def binit (ι : Type) (NBUF : ℕ) : State ι NBUF :=
  let links := (List.finRange NBUF).foldl pushFront (fun _ => none, fun _ => none)
  { buf := fun _ => ⟨0, 0, false, false, 0, none⟩
    next := links.1
    prev := links.2
    pc := fun _ => .idle
    clock := 0
    released := fun _ => 0 }

namespace State

/-- `b->dev == dev && b->blockno == blockno`. -/
def caches (s : State ι NBUF) (dev blockno : UInt32) (i : Fin NBUF) : Bool :=
  (s.buf i).dev == dev && (s.buf i).blockno == blockno

/-- `b->refcnt == 0 && (b->flags & B_DIRTY) == 0`. -/
def unused (s : State ι NBUF) (i : Fin NBUF) : Bool :=
  (s.buf i).refcnt == 0 && !(s.buf i).dirty

def setBuf (s : State ι NBUF) (i : Fin NBUF) (b : Buf ι) : State ι NBUF :=
  { s with buf := Function.update s.buf i b }

/-- A buffer that is found: `b->refcnt++`. -/
def hit (s : State ι NBUF) (i : Fin NBUF) : State ι NBUF :=
  s.setBuf i { s.buf i with refcnt := (s.buf i).refcnt + 1 }

/-- A buffer that gets another block. -/
def recycle (s : State ι NBUF) (dev blockno : UInt32) (i : Fin NBUF) : State ι NBUF :=
  s.setBuf i
    { s.buf i with dev := dev, blockno := blockno, valid := false, dirty := false, refcnt := 1 }

/-- `bget` under `bcache.lock`; `none` is its panic. Each loop meets a buffer at
most once, so that `NBUF` rounds are enough. -/
def bget (s : State ι NBUF) (dev blockno : UInt32) : Option (Fin NBUF × State ι NBUF) := do
  match ← scan s.next (s.caches dev blockno) NBUF (s.next none) with
  | some i => some (i, s.hit i)
  | none =>
      let i ← ← scan s.prev s.unused NBUF (s.prev none)
      some (i, s.recycle dev blockno i)

/-- `brelse` under `bcache.lock`. -/
def brelse (s : State ι NBUF) (i : Fin NBUF) : State ι NBUF :=
  let s := s.setBuf i { s.buf i with refcnt := (s.buf i).refcnt - 1 }
  if (s.buf i).refcnt = 0 then
    let links := pushFront (unlink (s.next, s.prev) i) i
    { s with
      next := links.1
      prev := links.2
      clock := s.clock + 1
      released := Function.update s.released i (s.clock + 1) }
  else s

variable [DecidableEq ι]

/-- The use `h` moves on to `k`. -/
def goto (s : State ι NBUF) (h : ι) (k : PC NBUF) : State ι NBUF :=
  { s with pc := Function.update s.pc h k }

end State

/-- The steps of the uses `h`. -/
inductive Act (ι : Type) (NBUF : ℕ)
  /-- `bread(dev, blockno)` as far as `bget`'s `acquiresleep`. -/
  | bread (h : ι) (dev blockno : UInt32)
  /-- `acquiresleep`, and the rest of `bread` up to the wait of `iderw`. -/
  | acquiresleep (h : ι)
  /-- `ideintr` for the buffer of `h`. -/
  | ideintr (h : ι)
  /-- `iderw` returns. -/
  | iderw (h : ι)
  /-- `bwrite` up to the wait of `iderw`. -/
  | bwrite (h : ι)
  /-- `log_write`. -/
  | logWrite (i : Fin NBUF)
  /-- `brelse` up to `releasesleep`. -/
  | releasesleep (h : ι)
  /-- The rest of `brelse`. -/
  | brelse (h : ι)

variable [DecidableEq ι]

/-- One step; `none` where it is not the turn of `h`, where `h` has to wait, and for
the panics of `bget`, `bwrite` and `brelse`. -/
def step (s : State ι NBUF) : Act ι NBUF → Option (State ι NBUF)
  | .bread h dev blockno =>
      if s.pc h = .idle then
        (s.bget dev blockno).map fun r => r.2.goto h (.waiting r.1)
      else none
  | .acquiresleep h =>
      match s.pc h with
      | .waiting i =>
          if (s.buf i).lock = none then
            some ((s.setBuf i { s.buf i with lock := some h }).goto h
              (if (s.buf i).valid then .holding i else .queued i))
          else none
      | _ => none
  | .ideintr h =>
      match s.pc h with
      | .queued i =>
          some ((s.setBuf i { s.buf i with valid := true, dirty := false }).goto h (.served i))
      | _ => none
  | .iderw h =>
      match s.pc h with
      | .served i =>
          if (s.buf i).valid && !(s.buf i).dirty then some (s.goto h (.holding i)) else none
      | _ => none
  | .bwrite h =>
      match s.pc h with
      | .holding i =>
          if (s.buf i).lock = some h then
            some ((s.setBuf i { s.buf i with dirty := true }).goto h (.queued i))
          else none
      | _ => none
  | .logWrite i => some (s.setBuf i { s.buf i with dirty := true })
  | .releasesleep h =>
      match s.pc h with
      | .holding i =>
          if (s.buf i).lock = some h then
            some ((s.setBuf i { s.buf i with lock := none }).goto h (.releasing i))
          else none
      | _ => none
  | .brelse h =>
      match s.pc h with
      | .releasing i => some ((s.brelse i).goto h .idle)
      | _ => none

/-- The cache of `NBUF` buffers, with the uses `ι`. -/
def bcache (ι : Type) [DecidableEq ι] (NBUF : ℕ) : Machine (State ι NBUF) (Act ι NBUF) where
  init := binit ι NBUF
  step := step

end OsCourse.Bio
