import OsCourse.Lib.Machine
import OsCourse.Lib.Ring

/-!
# OsCourse.Pipes.Model

The pipes of the lock kernel (`OS-lab-xv6-lock/pipe.c`), with the file layer
that calls them (`file.c`: `filedup`, `fileclose`).

Any number of processes hold descriptors of the two files of one pipe. What a
process does from the `acquire(&p->lock)` of a call, or from a wakeup, up to the
next `release` or `sleep` is one step: that is what the lock makes of it. The
counters are C `uint`s and wrap.

A descriptor counts as one reference of its file, so that `filedup` and
`fileclose` never see a dead one; the last `fileclose` of a file closes its end
of the pipe. Calls come from processes that hold a descriptor of
the right file and cannot close it while they are in the call. The pipe is gone
after `kfree`: nothing can be done with it any more.

`stored` and `returns` are history: the bytes stored by writers, and what the
calls returned, both in order.
-/

namespace OsCourse.Pipes

open OsCourse.Lib

/-- `PIPESIZE`. -/
abbrev PIPESIZE : Nat := 512

/-- `struct pipe`. -/
structure Pipe where
  data : Vector UInt8 PIPESIZE
  nread : UInt32
  nwrite : UInt32
  readopen : Bool
  writeopen : Bool

/-- The pipe as `pipealloc` sets it up; the page from `kalloc` has any content. -/
def Pipe.init (junk : Vector UInt8 PIPESIZE) : Pipe where
  data := junk
  nread := 0
  nwrite := 0
  readopen := true
  writeopen := true

namespace Pipe

/-- `p->nwrite == p->nread + PIPESIZE`. -/
def full (p : Pipe) : Bool := p.nwrite == p.nread + 512

/-- `p->nread == p->nwrite`. -/
def empty (p : Pipe) : Bool := p.nread == p.nwrite

/-- `p->data[p->nwrite++ % PIPESIZE] = x`. -/
def push (p : Pipe) (x : UInt8) : Pipe :=
  { p with data := setCell p.data p.nwrite.toNat x, nwrite := p.nwrite + 1 }

/-- The byte `p->data[p->nread % PIPESIZE]`. -/
def front (p : Pipe) : UInt8 := cell p.data p.nread.toNat

/-- `p->nread++`. -/
def pop (p : Pipe) : Pipe := { p with nread := p.nread + 1 }

/-- What the buffer holds: the bytes from `nread` up to `nwrite`. -/
def buffered (p : Pipe) : List UInt8 :=
  (List.range (p.nwrite - p.nread).toNat).map fun j =>
    cell p.data (p.nread + UInt32.ofNat j).toNat

/-- The `for` loop of `pipewrite` from `i` on, up to the end or a full buffer,
with `k` bytes to go: the pipe and the `i` it stops at. -/
def store (addr : Nat → UInt8) : Nat → Nat → Pipe → Pipe × Nat
  | 0, i, p => (p, i)
  | k + 1, i, p => if p.full then (p, i) else store addr k (i + 1) (p.push (addr i))

/-- The `for` loop of `piperead`, with `k` bytes to go. -/
def fetch : Nat → Pipe → Pipe × List UInt8
  | 0, p => (p, [])
  | k + 1, p =>
      if p.empty then (p, []) else ((fetch k p.pop).1, p.front :: (fetch k p.pop).2)

/-- The two assignments at the start of `pipeclose`. -/
def shut (p : Pipe) (writable : Bool) : Pipe :=
  if writable then { p with writeopen := false } else { p with readopen := false }

end Pipe

/-- Where a process stands. -/
inductive Call
  /-- In no call on the pipe. -/
  | none
  /-- `sleep(&p->nwrite, &p->lock)` in `pipewrite(p, addr, n)`, at index `i`. -/
  | write (addr : Nat → UInt8) (n : Int) (i : Nat) (asleep : Bool)
  /-- `sleep(&p->nread, &p->lock)` in `piperead(p, addr, n)`. -/
  | read (n : Int) (asleep : Bool)

/-- What a call returned; a read also has the bytes it put at `addr`. -/
inductive Return
  | write (n r : Int)
  | read (n r : Int) (bytes : List UInt8)
  deriving DecidableEq, Repr

/-- The bytes a call handed to its reader. -/
def Return.bytes : Return → List UInt8
  | .write _ _ => []
  | .read _ _ bytes => bytes

/-- The pipe, its two files (`ref`; the writable one is `true`), the open
descriptors and the processes. -/
structure State (π : Type) where
  pipe : Option Pipe
  ref : Bool → Nat
  ofile : List (π × Bool)
  call : π → Call
  killed : π → Bool
  stored : List UInt8
  returns : List (π × Return)

variable {π : Type} [DecidableEq π]

namespace State

/-- The bytes returned by reads, in order. -/
def returned (s : State π) : List UInt8 := s.returns.flatMap fun r => r.2.bytes

/-- Process `q` stands at `c`. -/
def setCall (s : State π) (q : π) (c : Call) : State π :=
  { s with call := Function.update s.call q c }

/-- Process `q` returns from its call. -/
def ret (s : State π) (q : π) (r : Return) : State π :=
  { s.setCall q .none with returns := s.returns ++ [(q, r)] }

/-- `wakeup(&p->nread)`. -/
def wakeReaders (s : State π) : State π :=
  { s with call := fun q => match s.call q with
      | .read n _ => .read n false
      | c => c }

/-- `wakeup(&p->nwrite)`. -/
def wakeWriters (s : State π) : State π :=
  { s with call := fun q => match s.call q with
      | .write addr n i _ => .write addr n i false
      | c => c }

/-- `pipewrite` of process `q` with the lock held, at index `i` of the loop. -/
def pipewrite (s : State π) (q : π) (p : Pipe) (addr : Nat → UInt8) (n : Int) (i : Nat) :
    State π :=
  let r := p.store addr (n.toNat - i) i
  let s := { s with
    pipe := some r.1
    stored := s.stored ++ (List.range' i (r.2 - i)).map addr }
  if (r.2 : Int) < n then
    -- the buffer is full
    if !r.1.readopen || s.killed q then s.ret q (.write n (-1))
    else s.wakeReaders.setCall q (.write addr n r.2 true)
  else s.wakeReaders.ret q (.write n n)

/-- `piperead` of process `q` with the lock held. -/
def piperead (s : State π) (q : π) (p : Pipe) (n : Int) : State π :=
  if p.empty && p.writeopen then
    if s.killed q then s.ret q (.read n (-1) [])
    else s.setCall q (.read n true)
  else
    let r := p.fetch n.toNat
    { s with pipe := some r.1 }.wakeWriters.ret q (.read n r.2.length r.2)

/-- `pipeclose`. -/
def pipeclose (s : State π) (p : Pipe) (writable : Bool) : State π :=
  let p := p.shut writable
  let s := if writable then s.wakeReaders else s.wakeWriters
  { s with pipe := if p.readopen || p.writeopen then some p else none }

/-- `filedup`, for a descriptor of process `q`. -/
def filedup (s : State π) (q : π) (w : Bool) : State π :=
  { s with ref := Function.update s.ref w (s.ref w + 1), ofile := (q, w) :: s.ofile }

/-- `fileclose`, for a descriptor of process `q`. -/
def fileclose (s : State π) (q : π) (w : Bool) : Option (State π) :=
  let s := { s with ref := Function.update s.ref w (s.ref w - 1), ofile := s.ofile.erase (q, w) }
  if 0 < s.ref w then some s else s.pipe.map fun p => s.pipeclose p w

end State

/-- What happens next. -/
inductive Act (π : Type)
  /-- Process `q` calls `pipewrite`. -/
  | write (q : π) (addr : Nat → UInt8) (n : Int)
  /-- Process `q` calls `piperead`. -/
  | read (q : π) (n : Int)
  /-- Process `q`, woken up, goes on in its call. -/
  | resume (q : π)
  /-- `dup` by process `q`, or `fork`: `q'` gets a copy of a descriptor. -/
  | dup (q q' : π) (w : Bool)
  /-- Process `q` closes a descriptor. -/
  | close (q : π) (w : Bool)
  /-- `kill`, which wakes its victim. -/
  | kill (q : π)

/-- One step: `none` if it cannot be taken. -/
def step (s : State π) : Act π → Option (State π)
  | .write q addr n =>
      match s.call q with
      | .none => if (q, true) ∈ s.ofile then s.pipe.map fun p => s.pipewrite q p addr n 0 else none
      | _ => none
  | .read q n =>
      match s.call q with
      | .none => if (q, false) ∈ s.ofile then s.pipe.map fun p => s.piperead q p n else none
      | _ => none
  | .resume q =>
      match s.call q with
      | .write addr n i false => s.pipe.map fun p => s.pipewrite q p addr n i
      | .read n false => s.pipe.map fun p => s.piperead q p n
      | _ => none
  | .dup q q' w =>
      match s.call q with
      | .none => if (q, w) ∈ s.ofile then some (s.filedup q' w) else none
      | _ => none
  | .close q w =>
      match s.call q with
      | .none => if (q, w) ∈ s.ofile then s.fileclose q w else none
      | _ => none
  | .kill q =>
      some { s with
        killed := Function.update s.killed q true
        call := Function.update s.call q (match s.call q with
          | .write addr n i _ => .write addr n i false
          | .read n _ => .read n false
          | .none => .none) }

/-- `pipealloc`, with both descriptors at process `q₀`. -/
def pipealloc (q₀ : π) (junk : Vector UInt8 PIPESIZE) : State π where
  pipe := some (.init junk)
  ref := fun _ => 1
  ofile := [(q₀, false), (q₀, true)]
  call := fun _ => .none
  killed := fun _ => false
  stored := []
  returns := []

/-- The processes of `π` on one pipe. -/
def machine (q₀ : π) (junk : Vector UInt8 PIPESIZE) : Machine (State π) (Act π) where
  init := pipealloc q₀ junk
  step := step

end OsCourse.Pipes
