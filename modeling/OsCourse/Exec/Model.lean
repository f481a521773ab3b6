import OsCourse.Lib.Block
import OsCourse.Path.Refs
import OsCourse.Vm.Model

/-!
# OsCourse.Exec.Model

`exec` of the system-call kernel (`Os-lab-xv6-system-call/exec.c`, `vm.c`), with
the search of `path.h` for a command that is not found. `vm.c` and `kalloc.c` are
those of the scheduling kernel, modelled in `Vm`.

A call runs from its start to its end. What `readi` stores and returns is
arbitrary: any bytes, any result, at every call again. The arguments are texts
in the memory of the calling process, without their NULs.

The kernel half of an address space is the same everywhere: the memory up to
`PHYSTOP` and the devices, without `PTE_U`, and no page table in between.
-/

namespace OsCourse.Exec

open Lib Vm
open OsCourse.Path (FileSystem Inodes nameiRefs joinPath slash)

/-- `PHYSTOP`: top of the physical memory. -/
abbrev PHYSTOP : Nat := 234881024

/-- `DEVSPACE`: address of the devices. -/
abbrev DEVSPACE : Nat := 4261412864

/-- `MAXARG`: number of arguments. -/
abbrev MAXARG : Nat := 32

/-- `ELF_MAGIC`. -/
abbrev ELF_MAGIC : Nat := 1179403647

/-- `ELF_PROG_LOAD`. -/
abbrev ELF_PROG_LOAD : Nat := 1

/-- A result as a `uint`. -/
def uint (n : Nat) : Nat := n % 4294967296

/-! ### File headers -/

/-- The part of `struct elfhdr` that `exec` reads. -/
structure ElfHdr where
  magic : Nat
  entry : Nat
  phoff : Nat
  phnum : Nat

/-- The part of `struct proghdr` that `exec` reads. -/
structure ProgHdr where
  type : Nat
  off : Nat
  vaddr : Nat
  filesz : Nat
  memsz : Nat

/-- Bytes of `struct elfhdr`. -/
abbrev elfhdrSize : Nat := 52

/-- Bytes of `struct proghdr`. -/
abbrev proghdrSize : Nat := 32

/-- The bytes as a `struct elfhdr`. -/
def elfhdr (bs : List UInt8) : ElfHdr :=
  let b : Block := fun i => bs.getD i 0
  ⟨getField b 0 4, getField b 24 4, getField b 28 4, getField b 44 2⟩

/-- The bytes as a `struct proghdr`. -/
def proghdr (bs : List UInt8) : ProgHdr :=
  let b : Block := fun i => bs.getD i 0
  ⟨getField b 0 4, getField b 4 4, getField b 8 4, getField b 16 4, getField b 20 4⟩

/-- The bytes of a `uint`. -/
def uintBytes (w : Nat) : List UInt8 :=
  [UInt8.ofNat w, UInt8.ofNat (w / 256), UInt8.ofNat (w / 65536), UInt8.ofNat (w / 16777216)]

/-! ### State -/

variable {φ ι : Type}

/-- The kernel as `exec` uses it. -/
structure Kernel (φ ι : Type) where
  kmem : Kmem φ
  inodes : Inodes ι
  /-- Calls of `begin_op`. -/
  begins : Nat
  /-- Calls of `end_op`. -/
  ends : Nat
  /-- Calls of `readi`. -/
  reads : Nat

/-- The part of `struct proc` that `exec` changes. -/
structure Proc (φ : Type) where
  pgdir : Pgdir φ
  sz : Nat
  name : CBuf 16
  /-- `tf->eip`. -/
  eip : Nat
  /-- `tf->esp`. -/
  esp : Nat

/-- The world around `exec`. -/
structure Env (ι : Type) where
  fs : FileSystem ι
  /-- `PATH` and `indexPath`. -/
  table : Path.Table
  /-- The call of `readi` with this number, of an inode at an offset: what it
  stores and what it returns. -/
  readi : Nat → ι → Nat → Nat → List UInt8 × Int

/-- Why a call does not return. -/
inductive Stuck
  /-- A panic of `mappages`. -/
  | vm (e : Vm.Panic)
  /-- A panic of `ilock` or `iunlock`, or a wait for a lock of one's own. -/
  | inode
  /-- A name that is too long for `pathBuff`, or an entry outside of `PATH`. -/
  | pathBuff
  /-- `panic("loaduvm: address should exist")`, or a page that is not there. -/
  | loaduvm
  /-- `panic("clearpteu")`. -/
  | clearpteu
  /-- `uva2ka` reads the entry of a page table that is not there. -/
  | nullPte
  deriving DecidableEq

variable [DecidableEq φ] [DecidableEq ι]

/-- `readi` of `n` bytes at `off`. -/
def Kernel.readi (k : Kernel φ ι) (env : Env ι) (ip : ι) (off n : Nat) :
    List UInt8 × Int × Kernel φ ι :=
  let (bs, r) := env.readi k.reads ip off n
  (bs.take n, r, { k with reads := k.reads + 1 })

/-- Bytes stored into a page, from `off` on. -/
def store (m : Kmem φ) (page : φ) (off : Nat) (bs : List UInt8) : Kmem φ :=
  { m with
    data := Function.update m.data page fun i =>
      if off ≤ i.val then (bs[i.val - off]?).getD (m.data page i) else m.data page i }

/-! ### `vm.c` -/

/-- The loop of `loaduvm`, from `i` on: `false` for -1. -/
def loadLoop (env : Env ι) (ip : ι) (d : Pgdir φ) (addr offset sz : Nat) (k : Kernel φ ι) (i : Nat) :
    Except Stuck (Bool × Kernel φ ι) :=
  if i < sz then
    let va := uint (addr + i)
    if va < KERNBASE then
      match d.walk va with
      | some (some e) =>
          let n := if sz - i < PGSIZE then sz - i else PGSIZE
          let (bs, r, k) := k.readi env ip (uint (offset + i)) n
          let k := { k with kmem := store k.kmem e.page 0 bs }
          if r ≠ n then .ok (false, k) else loadLoop env ip d addr offset sz k (i + PGSIZE)
      | _ => .error .loaduvm
    else .error .loaduvm
  else .ok (true, k)
termination_by sz - i
decreasing_by simp only [PGSIZE] at *; omega

/-- `loaduvm`, at an address on a page boundary. -/
def loaduvm (env : Env ι) (ip : ι) (d : Pgdir φ) (addr offset sz : Nat) (k : Kernel φ ι) :
    Except Stuck (Bool × Kernel φ ι) :=
  if addr % PGSIZE ≠ 0 then .error .loaduvm else loadLoop env ip d addr offset sz k 0

/-- `clearpteu`. -/
def clearpteu (d : Pgdir φ) (uva : Nat) : Except Stuck (Pgdir φ) :=
  if uva < KERNBASE then
    match d.walk uva with
    | none => .error .clearpteu
    | some e => .ok (d.setPte uva (e.map fun e => { e with u := false }))
  else .error .clearpteu

/-- `uva2ka`. -/
def uva2ka (d : Pgdir φ) (uva : Nat) : Except Stuck (Option φ) :=
  if uva < KERNBASE then
    match d.walk uva with
    | none => .error .nullPte
    | some none => .ok none
    | some (some e) => .ok (if e.u then some e.page else none)
  else if KERNBASE + PHYSTOP ≤ uva ∧ uva < DEVSPACE then .error .nullPte
  else .ok none

/-- `copyout`: `false` for -1. -/
def copyout (d : Pgdir φ) (m : Kmem φ) (va : Nat) (p : List UInt8) : Except Stuck (Bool × Kmem φ) :=
  if p.length = 0 then .ok (true, m)
  else
    let va0 := va / PGSIZE * PGSIZE
    match uva2ka d va0 with
    | .error e => .error e
    | .ok none => .ok (false, m)
    | .ok (some pa0) =>
        let n := PGSIZE - (va - va0)
        let n := if n > p.length then p.length else n
        copyout d (store m pa0 (va - va0) (p.take n)) (va0 + PGSIZE) (p.drop n)
termination_by p.length
decreasing_by
  have hoff : va - va / 4096 * 4096 < 4096 := by omega
  simp only [List.length_drop, PGSIZE] at *
  split <;> omega

/-! ### `exec` -/

/-- The search of `exec` in the entries of `PATH` from `i` on, `n` of them to go. -/
def searchLoop (env : Env ι) (s : Inodes ι) (path : List UInt8) :
    Nat → Nat → Except Stuck (Option ι × Inodes ι)
  | 0, _ => .ok (none, s)
  | n + 1, i =>
      match (env.table.PATH[i]?.bind fun entry => joinPath entry path).bind CBuf.cstring with
      | none => .error .pathBuff
      | some pathBuff =>
          match nameiRefs env.fs s pathBuff with
          | none => .error .inode
          | some (some ip, s) => .ok (some ip, s)
          | some (none, s) => searchLoop env s path n (i + 1)

/-- The inode that `exec` goes on with. -/
def search (env : Env ι) (s : Inodes ι) (path : List UInt8) :
    Except Stuck (Option ι × Inodes ι) :=
  match nameiRefs env.fs s path with
  | none => .error .inode
  | some (some ip, s) => .ok (some ip, s)
  | some (none, s) => searchLoop env s path env.table.indexPath 0

/-- The exits at `bad`, with `pgdir` and `ip` if these are not null. -/
def bad (k : Kernel φ ι) (p : Proc φ) (pgdir : Option (Pgdir φ)) (ip : Option ι) :
    Except Stuck (Int × Kernel φ ι × Proc φ) :=
  let k := { k with kmem := (pgdir.map (freevm k.kmem)).getD k.kmem }
  match ip with
  | none => .ok (-1, k, p)
  | some ip =>
      match k.inodes.iunlockput ip with
      | none => .error .inode
      | some inodes => .ok (-1, { k with inodes, ends := k.ends + 1 }, p)

/-- The loop over the program headers, `n` of them to go from `off` on: the size,
or `none` for `goto bad`. -/
def loadSegments (env : Env ι) (ip : ι) :
    Nat → Kernel φ ι → Pgdir φ → Nat → Nat → Except Stuck (Option Nat × Kernel φ ι × Pgdir φ)
  | 0, k, d, sz, _ => .ok (some sz, k, d)
  | n + 1, k, d, sz, off =>
      let (bs, r, k) := k.readi env ip off proghdrSize
      let ph := proghdr bs
      if r ≠ proghdrSize then .ok (none, k, d)
      else if ph.type ≠ ELF_PROG_LOAD then
        loadSegments env ip n k d sz (uint (off + proghdrSize))
      else if ph.memsz < ph.filesz then .ok (none, k, d)
      else if uint (ph.vaddr + ph.memsz) < ph.vaddr then .ok (none, k, d)
      else
        match allocuvm k.kmem d sz (uint (ph.vaddr + ph.memsz)) with
        | .error e => .error (.vm e)
        | .ok (sz, kmem, d) =>
            let k := { k with kmem }
            if sz = 0 then .ok (none, k, d)
            else if ph.vaddr % PGSIZE ≠ 0 then .ok (none, k, d)
            else
              match loaduvm env ip d ph.vaddr ph.off ph.filesz k with
              | .error e => .error e
              | .ok (false, k) => .ok (none, k, d)
              | .ok (true, k) => loadSegments env ip n k d sz (uint (off + proghdrSize))

/-- The loop over the arguments: `sp`, and the addresses put on `ustack`; `none` for
`goto bad`. -/
def pushArgs (d : Pgdir φ) :
    List (List UInt8) → Kmem φ → Nat → List Nat → Except Stuck (Option (Nat × List Nat) × Kmem φ)
  | [], m, sp, addrs => .ok (some (sp, addrs), m)
  | arg :: argv, m, sp, addrs =>
      if addrs.length ≥ MAXARG then .ok (none, m)
      else
        let sp := uintAdd sp (-(arg.length + 1 : Int)) / 4 * 4
        match copyout d m sp (arg ++ [0]) with
        | .error e => .error e
        | .ok (false, m) => .ok (none, m)
        | .ok (true, m) => pushArgs d argv m sp (addrs ++ [sp])

/-- The name after the last `'/'`. -/
def last (path : List UInt8) : List UInt8 := (path.reverse.takeWhile (· ≠ slash)).reverse

/-- `exec` from the allocation of the stack on. -/
def execStack (k : Kernel φ ι) (p : Proc φ) (d : Pgdir φ) (sz entry : Nat) (path : List UInt8)
    (argv : List (List UInt8)) : Except Stuck (Int × Kernel φ ι × Proc φ) :=
  let sz := PGROUNDUP sz
  match allocuvm k.kmem d sz (uint (sz + 2 * PGSIZE)) with
  | .error e => .error (.vm e)
  | .ok (sz, kmem, d) =>
      if sz = 0 then bad { k with kmem } p (some d) none
      else
        match clearpteu d (uintAdd sz (-(2 * PGSIZE : Int))) with
        | .error e => .error e
        | .ok d =>
            match pushArgs d argv kmem sz [] with
            | .error e => .error e
            | .ok (none, kmem) => bad { k with kmem } p (some d) none
            | .ok (some (sp, addrs), kmem) =>
                let argc := addrs.length
                let ustack :=
                  [4294967295, argc, uintAdd sp (-((argc + 1) * 4 : Int))] ++ addrs ++ [0]
                let sp := uintAdd sp (-((3 + argc + 1) * 4 : Int))
                match copyout d kmem sp (ustack.flatMap uintBytes) with
                | .error e => .error e
                | .ok (false, kmem) => bad { k with kmem } p (some d) none
                | .ok (true, kmem) =>
                    .ok (0, { k with kmem := freevm kmem p.pgdir },
                      { pgdir := d
                        sz
                        name := p.name.safestrcpy (last path)
                        eip := entry
                        esp := sp })

/-- `exec` from the ELF header on, with the inode `ip` locked. -/
def execFile (env : Env ι) (k : Kernel φ ι) (p : Proc φ) (ip : ι) (path : List UInt8)
    (argv : List (List UInt8)) : Except Stuck (Int × Kernel φ ι × Proc φ) :=
  let (bs, r, k) := k.readi env ip 0 elfhdrSize
  let elf := elfhdr bs
  if r ≠ elfhdrSize then bad k p none (some ip)
  else if elf.magic ≠ ELF_MAGIC then bad k p none (some ip)
  else
    match setupkvm k.kmem with
    | (none, kmem) => bad { k with kmem } p none (some ip)
    | (some d, kmem) =>
        match loadSegments env ip elf.phnum { k with kmem } d 0 elf.phoff with
        | .error e => .error e
        | .ok (none, k, d) => bad k p (some d) (some ip)
        | .ok (some sz, k, d) =>
            match k.inodes.iunlockput ip with
            | none => .error .inode
            | some inodes =>
                execStack { k with inodes, ends := k.ends + 1 } p d sz elf.entry path argv

/-- `exec`, by the process `p`: the result, the kernel and the process. -/
def exec (env : Env ι) (k : Kernel φ ι) (p : Proc φ) (path : List UInt8)
    (argv : List (List UInt8)) : Except Stuck (Int × Kernel φ ι × Proc φ) :=
  let k := { k with begins := k.begins + 1 }
  match search env k.inodes path with
  | .error e => .error e
  | .ok (none, inodes) => .ok (-1, { k with inodes, ends := k.ends + 1 }, p)
  | .ok (some ip, inodes) =>
      match inodes.ilock ip with
      | none => .error .inode
      | some inodes => execFile env { k with inodes } p ip path argv

end OsCourse.Exec
