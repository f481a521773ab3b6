import OsCourse.Copyout.Exact
import OsCourse.Exec.Model

/-!
# OsCourse.Copyout.Process

**The page directory of a process in full**: the user half, and a kernel half that
maps the memory up to `PHYSTOP` and the devices, without `PTE_U`. Between the two
there is no page table.

On such a directory `copyout` is the one that the model of `exec` calls
(`copyout_full`), where the kernel half is built in and addresses do not wrap.
-/

namespace OsCourse.Copyout

open OsCourse.Lib OsCourse.Vm
open OsCourse.Exec (PHYSTOP DEVSPACE Stuck store)

variable {φ : Type}

/-- What the kernel half maps: the page of a page table, the page of a virtual page, and
whether it is mapped with `PTE_W`. -/
structure KernelMap (φ : Type) where
  table : Nat → φ
  page : Nat → φ
  w : Nat → Bool

/-- A page table of the kernel half. -/
def KernelMap.pageTable (K : KernelMap φ) (i : Nat) : PageTable φ :=
  ⟨K.table i, fun j => some ⟨K.page (1024 * i + j), K.w (1024 * i + j), false⟩⟩

/-- The page directory of a process, with its kernel half. -/
def full (K : KernelMap φ) (d : Pgdir φ) : Pgdir φ :=
  { d with
    pde := fun i =>
      if i < PDX KERNBASE then d.pde i
      else if i < PDX (KERNBASE + PHYSTOP) ∨ PDX DEVSPACE ≤ i then some (K.pageTable i)
      else none }

theorem walk_full_user (K : KernelMap φ) (d : Pgdir φ) {va : Nat} (hva : va < KERNBASE) :
    (full K d).walk va = d.walk va := by
  have hlow : PDX va < PDX KERNBASE := by
    simp only [PDX, PTSIZE, KERNBASE] at hva ⊢
    omega
  simp only [Pgdir.walk, full, if_pos hlow]

theorem walk_full_kernel (K : KernelMap φ) (d : Pgdir φ) {va : Nat} (hva : KERNBASE ≤ va)
    (hmap : ¬ (KERNBASE + PHYSTOP ≤ va ∧ va < DEVSPACE)) :
    ∃ pte, (full K d).walk va = some (some pte) ∧ pte.u = false := by
  have hhigh : ¬ PDX va < PDX KERNBASE := by
    simp only [PDX, PTSIZE, KERNBASE] at hva ⊢
    omega
  have hin : PDX va < PDX (KERNBASE + PHYSTOP) ∨ PDX DEVSPACE ≤ PDX va := by
    simp only [PDX, PTSIZE, KERNBASE, PHYSTOP, DEVSPACE] at hmap ⊢
    omega
  simp only [Pgdir.walk, full, if_neg hhigh, if_pos hin]
  exact ⟨_, rfl, rfl⟩

theorem walk_full_hole (K : KernelMap φ) (d : Pgdir φ) {va : Nat} (hva : KERNBASE ≤ va)
    (hmap : KERNBASE + PHYSTOP ≤ va ∧ va < DEVSPACE) : (full K d).walk va = none := by
  have hhigh : ¬ PDX va < PDX KERNBASE := by
    simp only [PDX, PTSIZE, KERNBASE] at hva ⊢
    omega
  have hout : ¬ (PDX va < PDX (KERNBASE + PHYSTOP) ∨ PDX DEVSPACE ≤ PDX va) := by
    simp only [PDX, PTSIZE, KERNBASE, PHYSTOP, DEVSPACE] at hmap ⊢
    omega
  simp only [Pgdir.walk, full, if_neg hhigh, if_neg hout]
  rfl

/-- What a read through a null pointer is in the model of `exec`. -/
def orStuck {α : Type} : Option α → Except Stuck α
  | none => .error .nullPte
  | some r => .ok r

theorem uva2ka_full (K : KernelMap φ) (d : Pgdir φ) (uva : UInt32) :
    Exec.uva2ka d uva.toNat = orStuck (uva2ka (full K d) uva) := by
  rw [Exec.uva2ka, uva2ka]
  split_ifs with huser hmap
  · rw [walk_full_user K d huser]
    cases d.walk uva.toNat with
    | none => rfl
    | some e =>
        cases e with
        | none => rfl
        | some pte => cases hu : pte.u <;> simp [orStuck, hu]
  · rw [walk_full_hole K d (Nat.not_lt.mp huser) hmap]
    rfl
  · obtain ⟨pte, hwalk, hu⟩ := walk_full_kernel K d (Nat.not_lt.mp huser) hmap
    simp [hwalk, hu, orStuck]

/-- A page of a process is below the kernel half: the next one does not wrap around. -/
theorem toNat_next_page {K : KernelMap φ} {d : Pgdir φ} {va : UInt32} {pa0 : φ}
    (h : uva2ka (full K d) (PGROUNDDOWN va) = some (some pa0)) :
    (PGROUNDDOWN va).toNat + PGSIZE = (PGROUNDDOWN va + 4096).toNat := by
  have hexec := uva2ka_full K d (PGROUNDDOWN va)
  rw [h, Exec.uva2ka] at hexec
  split_ifs at hexec with huser
  · have hpage : (4096 : UInt32).toNat = PGSIZE := rfl
    simp only [KERNBASE] at huser
    rw [UInt32.toNat_add, hpage, Nat.mod_eq_of_lt]
    simp only [PGSIZE]
    omega
  · cases hexec
  · cases hexec

variable [DecidableEq φ]

theorem store_eq_memmove (m : Kmem φ) (page : φ) (off : Nat) (p : List UInt8) {n : Nat}
    (hn : n ≤ p.length) :
    store m page off (p.take n) = memmove m page off (fun i => p.getD i 0) n := by
  rw [store, memmove]
  congr 2
  funext i
  by_cases hlo : off ≤ i.val
  · by_cases hhi : i.val < off + n
    · have hin : i.val - off < n := by omega
      rw [if_pos hlo, if_pos ⟨hlo, hhi⟩, List.getElem?_take_of_lt hin, List.getD_eq_getElem?_getD,
        List.getElem?_eq_getElem (by omega)]
      rfl
    · rw [if_pos hlo, if_neg (fun h => hhi h.2), List.getElem?_eq_none]
      · rfl
      · rw [List.length_take]
        omega
  · rw [if_neg hlo, if_neg (fun h => hlo h.1)]

/-- The result of `copyout` as the model of `exec` has it. -/
def copied (r : Int × Kmem φ) : Bool × Kmem φ := (r.1 = 0, r.2)

/-- `exec` calls `copyout` on the directory in full. -/
theorem copyout_full (K : KernelMap φ) (d : Pgdir φ) (m : Kmem φ) (va : UInt32) (p : List UInt8)
    {len : UInt32} (hp : p.length = len.toNat) :
    Exec.copyout d m va.toNat p =
      orStuck ((copyout (full K d) m va (fun i => p.getD i 0) len).map copied) := by
  induction hsize : p.length using Nat.strongRecOn generalizing m va p len with
  | ind size ih =>
      subst hsize
      by_cases hzero : p.length = 0
      · have hlen : ¬ len > 0 := by
          rw [gt_iff_lt, UInt32.lt_iff_toNat_lt, ← hp, hzero]
          exact Nat.lt_irrefl 0
        rw [Exec.copyout, if_pos hzero, copyout, if_neg hlen]
        rfl
      · have hlen : len > 0 := by
          rw [gt_iff_lt, UInt32.lt_iff_toNat_lt, ← hp]
          exact Nat.pos_of_ne_zero hzero
        have hva0 : va.toNat / PGSIZE * PGSIZE = (PGROUNDDOWN va).toNat :=
          (toNat_PGROUNDDOWN va).symm
        have hoff : va.toNat - (PGROUNDDOWN va).toNat = (va - PGROUNDDOWN va).toNat := by
          rw [toNat_sub_PGROUNDDOWN, toNat_PGROUNDDOWN]
          omega
        have hchunk : (if PGSIZE - (va - PGROUNDDOWN va).toNat > p.length then p.length
            else PGSIZE - (va - PGROUNDDOWN va).toNat) = (chunk va len).toNat := by
          rw [toNat_chunk, toNat_sub_PGROUNDDOWN, hp]
          simp only [PGSIZE]
          split <;> omega
        have hpos : 0 < (chunk va len).toNat := by
          have := Nat.mod_lt va.toNat (show 4096 > 0 by decide)
          rw [toNat_chunk]
          omega
        have hle : (chunk va len).toNat ≤ p.length := by
          rw [hp]
          exact chunk_le va len
        rw [Exec.copyout, if_neg hzero, copyout, if_pos hlen]
        simp only [hva0, hoff, hchunk, uva2ka_full K d (PGROUNDDOWN va)]
        cases hpage : uva2ka (full K d) (PGROUNDDOWN va) with
        | none => rfl
        | some r =>
            cases r with
            | none => rfl
            | some pa0 =>
                have hrest : (p.drop (chunk va len).toNat).length = (len - chunk va len).toNat := by
                  rw [List.length_drop, hp, toNat_sub_chunk]
                have hdrop : (fun i => (p.drop (chunk va len).toNat).getD i 0) =
                    fun i => p.getD ((chunk va len).toNat + i) 0 := by
                  funext i
                  rw [List.getD_eq_getElem?_getD, List.getElem?_drop, List.getD_eq_getElem?_getD]
                have hnext := ih _ (by rw [List.length_drop]; omega)
                  (memmove m pa0 (va - PGROUNDDOWN va).toNat (fun i => p.getD i 0)
                    (chunk va len).toNat) (PGROUNDDOWN va + 4096) (p.drop (chunk va len).toNat)
                  hrest rfl
                simp only [orStuck]
                rw [store_eq_memmove m pa0 _ p hle, toNat_next_page hpage, hnext, hdrop]
                rfl

end OsCourse.Copyout
