import Mathlib.Logic.Function.Basic
import OsCourse.Lib.Machine
import OsCourse.Lib.Slist

/-!
# OsCourse.Umalloc.Model

The memory allocator of user programs (`umalloc.c`, the same in all four kernels).

Memory is counted in units of a `Header`, of eight bytes: a pointer is the number of its
unit, and 0 is null. A block is a header and the units behind it, `size` of them together.
What a program stores behind the headers of its blocks is in the same memory.

`sbrk` belongs to the kernel; the program may call it too, so that the blocks that `malloc`
gets need not stand together, but they stand one behind the other. A call takes the results
of its calls of `sbrk` from a list. Sizes and pointers do not wrap, since blocks stand in
the memory of the process; what is computed from a request is computed with `uint`s.
-/

namespace OsCourse.Umalloc

open OsCourse.Lib

/-- `union header`. -/
structure Header where
  ptr : Nat
  size : Nat
  deriving DecidableEq, Repr

/-- A block of units. -/
structure Block where
  addr : Nat
  size : Nat
  deriving DecidableEq, Repr

/-- What the program and the allocator share. -/
structure Heap where
  mem : Nat → Header
  freep : Nat
  /-- What `sbrk` has given to `morecore`. -/
  regions : List Block
  /-- The end of the memory of the process. -/
  top : Nat

/-- `p->s.ptr`. -/
def link (mem : Nat → Header) (p : Nat) : Nat := (mem p).ptr

/-- The two conditions of the loop of `free`. -/
def stops (mem : Nat → Header) (bp p : Nat) : Bool :=
  (p < bp && bp < link mem p) || (link mem p ≤ p && (p < bp || bp < link mem p))

/-- `free`, behind its loop, which has stopped at `p`. -/
def insert (mem : Nat → Header) (bp p : Nat) : Nat → Header :=
  let next := link mem p
  let mem :=
    if bp + (mem bp).size = next then
      Function.update mem bp ⟨link mem next, (mem bp).size + (mem next).size⟩
    else Function.update mem bp ⟨next, (mem bp).size⟩
  if p + (mem p).size = bp then
    Function.update mem p ⟨link mem bp, (mem p).size + (mem bp).size⟩
  else Function.update mem p ⟨bp, (mem p).size⟩

/-- `free`. -/
def free (fuel : Nat) (h : Heap) (ap : Nat) : Option Heap :=
  let bp := ap - 1
  (follow (link h.mem) (stops h.mem bp) fuel h.freep).map fun p =>
    { h with mem := insert h.mem bp p, freep := p }

/-- `sbrk`, with the address that the kernel returns: not below what the process has. -/
def sbrk (h : Heap) (n : Int) (p : Nat) : Option Heap :=
  if h.top ≤ p then
    some { h with regions := ⟨p, n.toNat / 8⟩ :: h.regions, top := p + n.toNat / 8 }
  else none

/-- `nu` in `morecore`. -/
def units (nu : UInt32) : UInt32 := if nu < 4096 then 4096 else nu

/-- `morecore`, when `sbrk` does not fail. -/
def morecore (fuel : Nat) (h : Heap) (nu : UInt32) (p : Nat) : Option Heap :=
  match sbrk h (units nu * 8).toInt32.toInt p with
  | none => none
  | some h =>
      free fuel { h with mem := Function.update h.mem p { h.mem p with size := (units nu).toNat } }
        (p + 1)

/-- What `malloc` does with the block it has found, behind `prevp`. -/
def carve (h : Heap) (nunits : UInt32) (prevp p : Nat) : Heap × Nat :=
  if (h.mem p).size = nunits.toNat then
    ({ h with
        mem := Function.update h.mem prevp { h.mem prevp with ptr := link h.mem p }
        freep := prevp }, p + 1)
  else
    let size := (h.mem p).size - nunits.toNat
    let mem := Function.update h.mem p { h.mem p with size := size }
    let p := p + size
    ({ h with
        mem := Function.update mem p { mem p with size := nunits.toNat }
        freep := prevp }, p + 1)

/-- The loop of `malloc`: the heap, and what it returns. -/
def mallocLoop (nunits : UInt32) : Nat → Heap → Nat → Nat → List (Option Nat) →
    Option (Heap × Nat)
  | 0, _, _, _, _ => none
  | fuel + 1, h, prevp, p, brks =>
      if nunits.toNat ≤ (h.mem p).size then some (carve h nunits prevp p)
      else if p = h.freep then
        match brks with
        | [] => none
        | none :: _ => some (h, 0)
        | some a :: brks =>
            match morecore fuel h nunits a with
            | none => none
            | some h => mallocLoop nunits fuel h h.freep (link h.mem h.freep) brks
      else mallocLoop nunits fuel h p (link h.mem p) brks

/-- `nunits`. -/
def nunits (nbytes : UInt32) : UInt32 := (nbytes + 8 - 1) / 8 + 1

/-- The first lines of `malloc`; `base` is the static variable. -/
def start (base : Nat) (h : Heap) : Heap :=
  if h.freep = 0 then { h with mem := Function.update h.mem base ⟨base, 0⟩, freep := base } else h

/-- `malloc`. -/
def malloc (base fuel : Nat) (h : Heap) (nbytes : UInt32) (brks : List (Option Nat)) :
    Option (Heap × Nat) :=
  let h := start base h
  mallocLoop (nunits nbytes) fuel h h.freep (link h.mem h.freep) brks

/-! ### Programs -/

/-- A block that the program has: its header, and what was asked for. -/
structure Live where
  block : Block
  nbytes : UInt32
  deriving DecidableEq, Repr

/-- The heap and the blocks of the program. -/
structure State where
  heap : Heap
  live : List Live

/-- What the program does. -/
inductive Act
  /-- `malloc(nbytes)`, with the results of `sbrk`. -/
  | malloc (fuel : Nat) (nbytes : UInt32) (brks : List (Option Nat))
  /-- `free` of one of its blocks. -/
  | free (fuel : Nat) (l : Live)
  /-- A store to the unit `i` of a block, behind the header. -/
  | store (l : Live) (i : Nat) (x : Header)

/-- One step; `malloc` of a block makes it one of the program's. -/
def step (base : Nat) (s : State) : Act → Option State
  | .malloc fuel nbytes brks =>
      (malloc base fuel s.heap nbytes brks).map fun r =>
        { heap := r.1
          live := if r.2 = 0 then s.live
            else ⟨⟨r.2 - 1, (nunits nbytes).toNat⟩, nbytes⟩ :: s.live }
  | .free fuel l =>
      if l ∈ s.live then
        (free fuel s.heap (l.block.addr + 1)).map fun h => { heap := h, live := s.live.erase l }
      else none
  | .store l i x =>
      if l ∈ s.live ∧ 1 ≤ i ∧ i < l.block.size then
        some { s with heap := { s.heap with
          mem := Function.update s.heap.mem (l.block.addr + i) x } }
      else none

/-- The program starts with any memory, its static variables 0. -/
def machine (base top : Nat) (mem : Nat → Header) : Machine State Act where
  init := ⟨⟨mem, 0, [], top⟩, []⟩
  step := step base

end OsCourse.Umalloc
