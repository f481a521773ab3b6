import OsCourse.Lib.Stores
import OsCourse.Vm.Model

/-!
# OsCourse.Copyout.Model

`uva2ka` and `copyout` (`vm.c`, the same in all four kernels; the copy of
`OS-lab-xv6-lock` is cited), for any page directory and any 32-bit address.

Here the directories of `Vm` have all of their 1024 entries in `pde`. An entry
without `PTE_P` is `none`; the flags of directory entries are not looked at. The
pages mapped are pages of the physical memory, whose kernel addresses are not null,
and neither they nor the bytes to be copied share memory with the page tables.
`buf` is the source, from the byte on that is copied next.

A result `none` stands for a read through a null pointer: `uva2ka` does not ask
whether `walkpgdir` has found a page table.
-/

namespace OsCourse.Copyout

open OsCourse.Lib OsCourse.Vm

variable {φ : Type}

/-- `PGROUNDDOWN`. -/
def PGROUNDDOWN (a : UInt32) : UInt32 := a &&& ~~~4095

/-- `uva2ka`: the page, or `none` for a null pointer. -/
def uva2ka (pgdir : Pgdir φ) (uva : UInt32) : Option (Option φ) :=
  match pgdir.walk uva.toNat with
  | none => none
  | some none => some none
  | some (some pte) => if pte.u then some (some pte.page) else some none

/-- What a byte of the address space is: a page and a place in it. -/
abbrev Cell (φ : Type) := φ × Fin PGSIZE

/-- The byte in a cell. -/
def byte (m : Kmem φ) (x : Cell φ) : UInt8 := m.data x.1 x.2

/-- The place of an address in its page. -/
def offset (va : UInt32) : Fin PGSIZE := ⟨va.toNat % PGSIZE, Nat.mod_lt _ (by decide)⟩

/-- The cell of a user address: none unless its page is present with `PTE_U`. -/
def userCell (pgdir : Pgdir φ) (va : UInt32) : Option (Cell φ) :=
  match pgdir.walk va.toNat with
  | some (some pte) => if pte.u then some (pte.page, offset va) else none
  | _ => none

/-- The address is in a present user page. -/
def IsUser (pgdir : Pgdir φ) (va : UInt32) : Prop := (userCell pgdir va).isSome

/-- There is a page table for the address. -/
def HasTable (pgdir : Pgdir φ) (va : UInt32) : Prop := (pgdir.pde (PDX va.toNat)).isSome

instance (pgdir : Pgdir φ) (va : UInt32) : Decidable (IsUser pgdir va) :=
  inferInstanceAs (Decidable ((userCell pgdir va).isSome = true))

instance (pgdir : Pgdir φ) (va : UInt32) : Decidable (HasTable pgdir va) :=
  inferInstanceAs (Decidable ((pgdir.pde (PDX va.toNat)).isSome = true))

/-! ### Pages -/

/-- The mask of `PGROUNDDOWN` clears the low 12 bits. -/
theorem toNat_PGROUNDDOWN (a : UInt32) : (PGROUNDDOWN a).toNat = a.toNat / 4096 * 4096 := by
  have hmask : UInt32.size - 1 - (4095 : UInt32).toNat = 2 ^ 32 - (4095 + 1) := by decide
  have hlow : (4095 : Nat) = 2 ^ 12 - 1 := by decide
  have hbits : (PGROUNDDOWN a).toNat = a.toNat >>> 12 <<< 12 := by
    refine Nat.eq_of_testBit_eq fun i => ?_
    rw [PGROUNDDOWN, UInt32.toNat_and, UInt32.toNat_not, hmask, Nat.testBit_and,
      Nat.testBit_two_pow_sub_succ (by decide), hlow, Nat.testBit_two_pow_sub_one,
      Nat.testBit_shiftLeft, Nat.testBit_shiftRight]
    by_cases hi : 12 ≤ i
    · rw [Nat.add_sub_cancel' hi]
      by_cases hword : i < 32
      · simp [hi, hword, Nat.not_lt.mpr hi]
      · have hlt : a.toNat < 2 ^ i :=
          Nat.lt_of_lt_of_le a.toNat_lt (Nat.pow_le_pow_right (by decide) (Nat.not_lt.mp hword))
        simp [Nat.testBit_lt_two_pow hlt]
    · simp [hi, Nat.not_le.mp hi]
  rw [hbits, Nat.shiftLeft_eq, Nat.shiftRight_eq_div_pow]

/-- `va - va0`. -/
theorem toNat_sub_PGROUNDDOWN (va : UInt32) :
    (va - PGROUNDDOWN va).toNat = va.toNat % 4096 := by
  have hround := toNat_PGROUNDDOWN va
  rw [UInt32.toNat_sub_of_le]
  · omega
  · rw [UInt32.le_iff_toNat_le]
    omega

/-- `n`, the bytes that go into the first page. -/
def chunk (va len : UInt32) : UInt32 :=
  let n := 4096 - (va - PGROUNDDOWN va)
  if n > len then len else n

theorem toNat_chunk (va len : UInt32) :
    (chunk va len).toNat = min (4096 - va.toNat % 4096) len.toNat := by
  have hoff := toNat_sub_PGROUNDDOWN va
  have hsub : (4096 - (va - PGROUNDDOWN va)).toNat = 4096 - va.toNat % 4096 := by
    rw [UInt32.toNat_sub_of_le, hoff]
    · rfl
    · rw [UInt32.le_iff_toNat_le, hoff]
      exact Nat.le_of_lt (Nat.mod_lt _ (by decide))
  simp only [chunk]
  split
  · next h =>
    rw [gt_iff_lt, UInt32.lt_iff_toNat_lt, hsub] at h
    rw [Nat.min_eq_right (Nat.le_of_lt h)]
  · next h =>
    rw [gt_iff_lt, UInt32.lt_iff_toNat_lt, hsub] at h
    rw [hsub, Nat.min_eq_left (Nat.not_lt.mp h)]

theorem chunk_le (va len : UInt32) : (chunk va len).toNat ≤ len.toNat := by
  rw [toNat_chunk]
  exact Nat.min_le_right _ _

theorem toNat_sub_chunk (va len : UInt32) :
    (len - chunk va len).toNat = len.toNat - (chunk va len).toNat :=
  UInt32.toNat_sub_of_le _ _ (UInt32.le_iff_toNat_le.mpr (chunk_le va len))

/-! ### The copy -/

variable [DecidableEq φ]

/-- `memmove(pa0 + off, buf, n)`. -/
def memmove (m : Kmem φ) (pa0 : φ) (off : Nat) (buf : Nat → UInt8) (n : Nat) : Kmem φ :=
  { m with
    data := Function.update m.data pa0 fun i =>
      if off ≤ i.val ∧ i.val < off + n then buf (i.val - off) else m.data pa0 i }

/-- `copyout`. -/
def copyout (pgdir : Pgdir φ) (m : Kmem φ) (va : UInt32) (buf : Nat → UInt8) (len : UInt32) :
    Option (Int × Kmem φ) :=
  if len > 0 then
    let va0 := PGROUNDDOWN va
    match uva2ka pgdir va0 with
    | none => none
    | some none => some (-1, m)
    | some (some pa0) =>
        let n := chunk va len
        copyout pgdir (memmove m pa0 (va - va0).toNat buf n.toNat) (va0 + 4096)
          (fun i => buf (n.toNat + i)) (len - n)
  else some (0, m)
termination_by len.toNat
decreasing_by
  rename_i hlen
  have hpos := UInt32.lt_iff_toNat_lt.mp hlen
  have hoff := Nat.mod_lt va.toNat (show 4096 > 0 by decide)
  rw [UInt32.toNat_zero] at hpos
  rw [toNat_sub_chunk, toNat_chunk]
  omega

end OsCourse.Copyout
