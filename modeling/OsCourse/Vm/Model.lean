import Mathlib.Logic.Function.Basic

/-!
# OsCourse.Vm.Model

User address spaces (`OS-lab-xv6-scheduling/vm.c`, `kalloc.c`, and `growproc` of
`proc.c`): the page allocator, page directories with their page tables, and the
functions that grow, shrink and copy an address space.

Physical pages are the elements of a type `φ`. `kalloc` hands out pages between
`end` and `PHYSTOP`, so that none of them is at physical address 0 and the
checks of `kfree` never fail: the panics `"kfree"` are left out. The allocator
fails when its list is empty; as the list may have any length, it may fail at
any call.

Addresses are natural numbers below 2^32. A page table entry is `none` unless
`PTE_P` is set. The kernel half of a page directory is the same everywhere and
never changes: of it only the pages of its page tables are kept, and `setupkvm`
only allocates them.
-/

namespace OsCourse.Vm

/-- `PGSIZE`: bytes mapped by a page. -/
abbrev PGSIZE : Nat := 4096

/-- Bytes mapped by a page table. -/
abbrev PTSIZE : Nat := 4194304

/-- `KERNBASE`: first kernel virtual address. -/
abbrev KERNBASE : Nat := 2147483648

/-- Page tables that the entries of `kmap` need: 56 for the memory up to
`PHYSTOP`, 8 for the devices. -/
abbrev kernelTables : Nat := 64

/-- `PDX`: page directory index. (The mask of `PDX` keeps all bits there are.) -/
def PDX (va : Nat) : Nat := va / PTSIZE

/-- `PTX`: page table index. -/
def PTX (va : Nat) : Nat := va / PGSIZE % 1024

/-- `PGROUNDUP`, in `uint` arithmetic. -/
def PGROUNDUP (sz : Nat) : Nat := (sz + (PGSIZE - 1)) % 4294967296 / PGSIZE * PGSIZE

/-- The `uint` sum of a `uint` and an `int`. -/
def uintAdd (sz : Nat) (n : Int) : Nat := ((sz + n) % 4294967296).toNat

/-! ### The page allocator -/

/-- The bytes of a physical page. -/
abbrev Page := Fin PGSIZE → UInt8

/-- `kmem.freelist`, and the contents of physical memory. -/
structure Kmem (φ : Type) where
  freelist : List φ
  data : φ → Page

variable {φ : Type} [DecidableEq φ]

namespace Kmem

/-- `kalloc`. -/
def kalloc (m : Kmem φ) : Option (φ × Kmem φ) :=
  match m.freelist with
  | [] => none
  | r :: next => some (r, { m with freelist := next })

/-- `memset` of a whole page. -/
def memset (m : Kmem φ) (v : φ) (b : UInt8) : Kmem φ :=
  { m with data := Function.update m.data v fun _ => b }

/-- `memmove` of a whole page. -/
def memmove (m : Kmem φ) (dst src : φ) : Kmem φ :=
  { m with data := Function.update m.data dst (m.data src) }

/-- `kfree`: fill with junk and put in front of the list. -/
def kfree (m : Kmem φ) (v : φ) : Kmem φ :=
  { m.memset v 1 with freelist := v :: m.freelist }

end Kmem

/-! ### Page directories -/

/-- A page table entry with `PTE_P`: the page, `PTE_W` and `PTE_U`. -/
structure Pte (φ : Type) where
  page : φ
  w : Bool
  u : Bool

/-- A page table, in its own page. -/
structure PageTable (φ : Type) where
  page : φ
  pte : Nat → Option (Pte φ)

/-- A page directory, in its own page: the entries of the user half, and the
pages of the page tables of the kernel half. -/
structure Pgdir (φ : Type) where
  page : φ
  pde : Nat → Option (PageTable φ)
  kernel : List φ

/-- Why a call does not return. -/
inductive Panic
  /-- `mappages`: `panic("remap")`. -/
  | remap
  /-- `panic("copyuvm: pte should exist")`. -/
  | pteShouldExist
  /-- `panic("copyuvm: page not present")`. -/
  | pageNotPresent
  deriving DecidableEq, Repr

namespace Pgdir

/-- `walkpgdir` with `alloc = 0`: the entry for `va`, if its table is there. -/
def walk (d : Pgdir φ) (va : Nat) : Option (Option (Pte φ)) :=
  (d.pde (PDX va)).map fun t => t.pte (PTX va)

/-- `*pte = e`, for the entry of `va` in a table that is there. -/
def setPte (d : Pgdir φ) (va : Nat) (e : Option (Pte φ)) : Pgdir φ :=
  { d with
    pde := Function.update d.pde (PDX va)
      ((d.pde (PDX va)).map fun t => { t with pte := Function.update t.pte (PTX va) e }) }

end Pgdir

/-- `walkpgdir` with `alloc = 1`: the table for `va` is there afterwards. -/
def walkpgdir (m : Kmem φ) (d : Pgdir φ) (va : Nat) : Option (Kmem φ × Pgdir φ) :=
  match d.pde (PDX va) with
  | some _ => some (m, d)
  | none => m.kalloc.map fun (pgtab, m) =>
      (m.memset pgtab 0,
        { d with pde := Function.update d.pde (PDX va) (some ⟨pgtab, fun _ => none⟩) })

/-- `mappages` of one user page at an aligned address: `false` for -1. -/
def mappages (m : Kmem φ) (d : Pgdir φ) (va : Nat) (page : φ) (w u : Bool) :
    Except Panic (Bool × Kmem φ × Pgdir φ) :=
  match walkpgdir m d va with
  | none => .ok (false, m, d)
  | some (m, d) =>
      match d.walk va with
      | some (some _) => .error .remap
      | _ => .ok (true, m, d.setPte va (some ⟨page, w, u⟩))

/-! ### Growing and shrinking -/

/-- The loop of `deallocuvm`, from `a` on. -/
def deallocLoop (oldsz : Nat) (m : Kmem φ) (d : Pgdir φ) (a : Nat) : Kmem φ × Pgdir φ :=
  if a < oldsz then
    match d.walk a with
    -- no page table: on to PGADDR(PDX(a) + 1, 0, 0)
    | none => deallocLoop oldsz m d ((PDX a + 1) * PTSIZE)
    | some none => deallocLoop oldsz m d (a + PGSIZE)
    | some (some e) => deallocLoop oldsz (m.kfree e.page) (d.setPte a none) (a + PGSIZE)
  else (m, d)
termination_by oldsz - a
decreasing_by all_goals simp only [PDX, PTSIZE, PGSIZE] at *; omega

/-- `deallocuvm`. -/
def deallocuvm (m : Kmem φ) (d : Pgdir φ) (oldsz newsz : Nat) : Nat × Kmem φ × Pgdir φ :=
  if newsz ≥ oldsz then (oldsz, m, d) else (newsz, deallocLoop oldsz m d (PGROUNDUP newsz))

/-- The loop of `allocuvm`, from `a` on. -/
def allocLoop (oldsz newsz : Nat) (m : Kmem φ) (d : Pgdir φ) (a : Nat) :
    Except Panic (Nat × Kmem φ × Pgdir φ) :=
  if a < newsz then
    match m.kalloc with
    | none => .ok (0, (deallocuvm m d newsz oldsz).2)
    | some (mem, m) =>
        match mappages (m.memset mem 0) d a mem true true with
        | .error e => .error e
        | .ok (false, m, d) =>
            let (_, m, d) := deallocuvm m d newsz oldsz
            .ok (0, m.kfree mem, d)
        | .ok (true, m, d) => allocLoop oldsz newsz m d (a + PGSIZE)
  else .ok (newsz, m, d)
termination_by newsz - a
decreasing_by simp only [PGSIZE] at *; omega

/-- `allocuvm`. -/
def allocuvm (m : Kmem φ) (d : Pgdir φ) (oldsz newsz : Nat) :
    Except Panic (Nat × Kmem φ × Pgdir φ) :=
  if newsz ≥ KERNBASE then .ok (0, m, d)
  else if newsz < oldsz then .ok (oldsz, m, d)
  else allocLoop oldsz newsz m d (PGROUNDUP oldsz)

/-- The part of `struct proc` that `growproc` works on. -/
structure Proc (φ : Type) where
  pgdir : Pgdir φ
  sz : Nat

/-- `growproc`. -/
def growproc (m : Kmem φ) (p : Proc φ) (n : Int) : Except Panic (Int × Kmem φ × Proc φ) :=
  if n > 0 then
    match allocuvm m p.pgdir p.sz (uintAdd p.sz n) with
    | .error e => .error e
    | .ok (sz, m, pgdir) =>
        if sz = 0 then .ok (-1, m, { p with pgdir }) else .ok (0, m, ⟨pgdir, sz⟩)
  else if n < 0 then
    let (sz, m, pgdir) := deallocuvm m p.pgdir p.sz (uintAdd p.sz n)
    if sz = 0 then .ok (-1, m, { p with pgdir }) else .ok (0, m, ⟨pgdir, sz⟩)
  else .ok (0, m, p)

/-! ### Copying -/

/-- `freevm`: the user pages, then the page tables and the directory. -/
def freevm (m : Kmem φ) (d : Pgdir φ) : Kmem φ :=
  let (_, m, d) := deallocuvm m d KERNBASE 0
  let tables := (List.range (KERNBASE / PTSIZE)).filterMap fun i => (d.pde i).map (·.page)
  (tables ++ d.kernel ++ [d.page]).foldl Kmem.kfree m

/-- The page tables that `mappages` allocates for the entries of `kmap`: `k` to go. -/
def kmapLoop : Nat → Kmem φ → Pgdir φ → Option (Pgdir φ) × Kmem φ
  | 0, m, d => (some d, m)
  | k + 1, m, d =>
      match m.kalloc with
      | none => (none, freevm m d)
      | some (pgtab, m) => kmapLoop k (m.memset pgtab 0) { d with kernel := d.kernel ++ [pgtab] }

/-- `setupkvm`. -/
def setupkvm (m : Kmem φ) : Option (Pgdir φ) × Kmem φ :=
  match m.kalloc with
  | none => (none, m)
  | some (pgdir, m) => kmapLoop kernelTables (m.memset pgdir 0) ⟨pgdir, fun _ => none, []⟩

/-- The loop of `copyuvm`, from `i` on: `c` is the copy made so far. -/
def copyLoop (pgdir : Pgdir φ) (sz : Nat) (m : Kmem φ) (c : Pgdir φ) (i : Nat) :
    Except Panic (Option (Pgdir φ) × Kmem φ) :=
  if i < sz then
    match pgdir.walk i with
    | none => .error .pteShouldExist
    | some none => .error .pageNotPresent
    | some (some e) =>
        match m.kalloc with
        | none => .ok (none, freevm m c)
        | some (mem, m) =>
            match mappages (m.memmove mem e.page) c i mem e.w e.u with
            | .error e => .error e
            | .ok (false, m, c) => .ok (none, freevm (m.kfree mem) c)
            | .ok (true, m, c) => copyLoop pgdir sz m c (i + PGSIZE)
  else .ok (some c, m)
termination_by sz - i
decreasing_by simp only [PGSIZE] at *; omega

/-- `copyuvm`. -/
def copyuvm (m : Kmem φ) (pgdir : Pgdir φ) (sz : Nat) :
    Except Panic (Option (Pgdir φ) × Kmem φ) :=
  match setupkvm m with
  | (none, m) => .ok (none, m)
  | (some d, m) => copyLoop pgdir sz m d 0

end OsCourse.Vm
