import OsCourse.Exec.Model
import OsCourse.Vm.Conserve

/-!
# OsCourse.Exec.Clean

Every exit of `exec` is clean. The pages of the address space that is made come
off the free list, and go back to it at `bad`; one inode is referenced and locked
while the file is read. `Midway` says how things stand between two steps of a
call, and the exits are read off it.
-/

namespace OsCourse.Exec

open Lib Vm
open OsCourse.Path (Inodes withRef nameiRefs nameiRefs_spec)

variable {φ ι : Type}

/-- `exec` returned -1: nothing has changed for the process, its pages are as they
were, all other pages are free again. -/
structure Failed (k k' : Kernel φ ι) (p p' : Proc φ) : Prop where
  proc : p' = p
  free : k'.kmem.free = k.kmem.free
  data : Kept k.kmem.free k.kmem k'.kmem
  inodes : k'.inodes = k.inodes
  ops : k'.begins = k.begins + 1 ∧ k'.ends = k.ends + 1

/-- Where the last argument stands below `sz`. -/
def argsTop (sz : Nat) (argv : List (List UInt8)) : Nat :=
  argv.foldl (fun sp arg => uintAdd sp (-(arg.length + 1 : Int)) / 4 * 4) sz

/-- `exec` returned 0: the process has a new address space, all of whose pages were free
before, and starts at `entry`; then the old address space was freed, once. -/
structure Replaced [DecidableEq φ] (k k' : Kernel φ ι) (p p' : Proc φ) (path : List UInt8)
    (argv : List (List UInt8)) (entry : Nat) : Prop where
  /-- The memory with both address spaces, and after `freevm` of the old one. -/
  freed : ∃ m, m.free + p'.pgdir.pages = k.kmem.free ∧ Kept k.kmem.free k.kmem m ∧
    k'.kmem = freevm m p.pgdir
  pages : k'.kmem.free + p'.pgdir.pages = k.kmem.free + p.pgdir.pages
  /-- Below `sz` are the stack and its guard page. -/
  sz : ∃ sz, p'.sz = PGROUNDUP sz + 2 * PGSIZE ∧ p'.sz < KERNBASE
  name : p'.name = p.name.safestrcpy (last path)
  eip : p'.eip = entry
  /-- Below the arguments are their addresses, a null, `argv`, `argc` and the return address. -/
  esp : p'.esp = uintAdd (argsTop p'.sz argv) (-((3 + argv.length + 1) * 4 : Int))
  inodes : k'.inodes = k.inodes
  ops : k'.begins = k.begins + 1 ∧ k'.ends = k.ends + 1

/-! ### Steps on the new address space -/

/-- From `k` and `d` to `k'` and `d'` only memory has changed, and no page was lost. -/
structure Keeps (k : Kernel φ ι) (d : Pgdir φ) (k' : Kernel φ ι) (d' : Pgdir φ) : Prop where
  total : total k'.kmem d' = total k.kmem d
  data : Kept (Vm.total k.kmem d) k.kmem k'.kmem
  inodes : k'.inodes = k.inodes
  begins : k'.begins = k.begins
  ends : k'.ends = k.ends

theorem Keeps.refl (k : Kernel φ ι) (d : Pgdir φ) : Keeps k d k d :=
  ⟨rfl, Kept.refl _ _, rfl, rfl, rfl⟩

theorem Keeps.trans {k₁ k₂ k₃ : Kernel φ ι} {d₁ d₂ d₃ : Pgdir φ} (h₁ : Keeps k₁ d₁ k₂ d₂)
    (h₂ : Keeps k₂ d₂ k₃ d₃) : Keeps k₁ d₁ k₃ d₃ where
  total := h₂.total.trans h₁.total
  data := h₁.data.trans (h₁.total ▸ h₂.data)
  inodes := h₂.inodes.trans h₁.inodes
  begins := h₂.begins.trans h₁.begins
  ends := h₂.ends.trans h₁.ends

variable [DecidableEq φ]

@[simp] theorem free_store (m : Kmem φ) (page : φ) (off : Nat) (bs : List UInt8) :
    (store m page off bs).free = m.free := rfl

variable [DecidableEq ι]

/-- How things stand in a call that began at `k`, with the new address space `pgdir`
and the inode `ip` if these are not null: the inode is referenced and locked. -/
structure Midway (k k' : Kernel φ ι) (pgdir : Option (Pgdir φ)) (ip : Option ι) : Prop where
  pages : k'.kmem.free + pgdir.elim 0 Pgdir.pages = k.kmem.free
  data : Kept k.kmem.free k.kmem k'.kmem
  begins : k'.begins = k.begins + 1
  locked : ∀ i, ip = some i → (withRef k.inodes ip).ilock i = some k'.inodes ∧ k'.ends = k.ends
  released : ip = none → k'.inodes = k.inodes ∧ k'.ends = k.ends + 1

omit [DecidableEq φ] in
/-- Steps on the new address space. -/
theorem Midway.keeps {k k₁ k₂ : Kernel φ ι} {d₁ d₂ : Pgdir φ} {ip : Option ι}
    (h : Midway k k₁ (some d₁) ip) (hkeeps : Keeps k₁ d₁ k₂ d₂) : Midway k k₂ (some d₂) ip where
  pages := hkeeps.total.trans h.pages
  data := by
    refine h.data.trans (hkeeps.data.mono (Multiset.subset_of_le ?_))
    exact le_of_eq h.pages
  begins := hkeeps.begins.trans h.begins
  locked := by
    rw [hkeeps.inodes, hkeeps.ends]
    exact h.locked
  released := by
    rw [hkeeps.inodes, hkeeps.ends]
    exact h.released

omit [DecidableEq φ] in
/-- `iunlockput` gives the inode back. -/
theorem Midway.iunlockput {k k' : Kernel φ ι} {pgdir : Option (Pgdir φ)} {ip : ι}
    {inodes : Inodes ι} (h : Midway k k' pgdir (some ip))
    (hput : k'.inodes.iunlockput ip = some inodes) : inodes = k.inodes ∧ k'.ends = k.ends := by
  obtain ⟨hlock, hends⟩ := h.locked ip rfl
  exact ⟨(Path.iunlockput_of_ilock hlock hput).trans (Path.iput_withRef k.inodes ip), hends⟩

/-- What a call of `exec` does, with the entry point of the file. -/
def Clean (k k' : Kernel φ ι) (p p' : Proc φ) (path : List UInt8) (argv : List (List UInt8))
    (entry : Nat) (r : Int) : Prop :=
  r = -1 ∧ Failed k k' p p' ∨ r = 0 ∧ Replaced k k' p p' path argv entry

/-! ### The new image -/

end OsCourse.Exec
