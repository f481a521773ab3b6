import OsCourse.Exec.Clean
import OsCourse.Path.Exec
import OsCourse.Vm.Growproc

/-!
# OsCourse.Exec.Returns

When `exec` returns. Its panics are never reached: the pages that `loaduvm`,
`clearpteu` and `copyout` use are the ones that `allocuvm` has put there. What is
left are names that do not fit in `pathBuff`, and arguments so long that the stack
pointer wraps around to addresses below the devices, where there is no page
table.
-/

namespace OsCourse.Exec

open Lib Vm
open OsCourse.Path (Inodes Unlocked withRef)

variable {φ ι : Type}

/-- The addresses from the devices up: this far the stack pointer may wrap. -/
abbrev deviceSpace : Nat := 33554432

/-- No argument is longer than the space of the devices. -/
def ShortArgs (argv : List (List UInt8)) : Prop := ∀ arg ∈ argv, arg.length < deviceSpace

/-- An address space of a program of size `sz` that is being made. -/
structure Image (d : Pgdir φ) (sz : Nat) : Prop where
  size : sz ≤ KERNBASE
  pages : Fits d (PGROUNDUP sz)

theorem Image.walk {d : Pgdir φ} {sz va : Nat} (h : Image d sz) (hva : va < sz) :
    ∃ e, d.walk va = some (some e) := by
  have hlt : va < KERNBASE := Nat.lt_of_lt_of_le hva h.size
  have hround := pgroundup_eq h.size
  obtain ⟨e, he⟩ := Option.isSome_iff_exists.mp ((h.pages va hlt).mpr (by omega))
  exact ⟨e, Option.join_eq_some_iff.mp he⟩

variable [DecidableEq φ]

theorem image_of_setupkvm {m m' : Kmem φ} {d : Pgdir φ} (h : setupkvm m = (some d, m')) :
    Image d 0 := ⟨Nat.zero_le _, setupkvm_fits h⟩

/-! ### Memory -/

/-- `allocuvm` fails, or there is room for a program of that size. -/
theorem allocuvm_image (m : Kmem φ) {d : Pgdir φ} {oldsz : Nat} (h : Image d oldsz) (newsz : Nat) :
    ∃ sz m' d', allocuvm m d oldsz newsz = .ok (sz, m', d') ∧
      (sz ≠ 0 → newsz ≤ sz ∧ Image d' sz ∧ (oldsz ≤ newsz → sz = newsz ∧ newsz < KERNBASE)) := by
  unfold allocuvm
  split
  · exact ⟨0, m, d, rfl, fun h => absurd rfl h⟩
  · next hnew =>
    split
    · next hless =>
      exact ⟨oldsz, m, d, rfl, fun _ => ⟨Nat.le_of_lt hless, h,
        fun hle => absurd hless (Nat.not_lt.mpr hle)⟩⟩
    · next hless =>
      have hlt := Nat.not_le.mp hnew
      obtain ⟨sz, m', d', hloop, hend⟩ := allocLoop_spec h.size hlt h.pages m d (PGROUNDUP oldsz)
        (Nat.mul_mod_left _ _) (Nat.le_refl _)
        (by rw [pgroundup_eq h.size, pgroundup_eq (Nat.le_of_lt hlt)]; omega) h.pages fun _ _ => rfl
      refine ⟨sz, m', d', hloop, fun hsz => ?_⟩
      rcases hend with ⟨hzero, -⟩ | ⟨rfl, hfits⟩
      · exact absurd hzero hsz
      · exact ⟨Nat.le_refl _, ⟨Nat.le_of_lt hlt, hfits⟩, fun _ => ⟨rfl, hlt⟩⟩

/-- `loaduvm` of a segment for which there is room. -/
theorem loaduvm_returns (env : Env ι) (ip : ι) {d : Pgdir φ} {sz addr filesz : Nat}
    (h : Image d sz) (haddr : addr % PGSIZE = 0) (hfit : addr + filesz ≤ sz) (offset : Nat)
    (k : Kernel φ ι) : ∃ r, loaduvm env ip d addr offset filesz k = .ok r := by
  have hsize := h.size
  have hloop : ∀ (k : Kernel φ ι) (i : Nat),
      ∃ r, loadLoop env ip d addr offset filesz k i = .ok r := by
    intro k i
    fun_induction loadLoop env ip d addr offset filesz k i with
    | case1 => exact ⟨_, rfl⟩
    | case2 k i hlt va hva e hwalk n bs r k₁ hread k₂ hr ih => exact ih
    | case3 k i hlt va hva hwalk =>
        have hin : addr + i < sz := by omega
        obtain ⟨e, he⟩ := h.walk hin
        have hvaeq : va = addr + i := Nat.mod_eq_of_lt (by simp only [KERNBASE] at hsize; omega)
        rw [← hvaeq] at he
        exact absurd he (hwalk e)
    | case4 k i hlt va hva =>
        have hvaeq : va = addr + i := Nat.mod_eq_of_lt (by simp only [KERNBASE] at hsize; omega)
        omega
    | case5 => exact ⟨_, rfl⟩
  rw [loaduvm, if_neg (not_not.mpr haddr)]
  exact hloop k 0

omit [DecidableEq φ] in
/-- `clearpteu` of a page that is there. -/
theorem clearpteu_image {d : Pgdir φ} {sz uva : Nat} (h : Image d sz) (huva : uva < sz) :
    ∃ d', clearpteu d uva = .ok d' ∧ Image d' sz := by
  obtain ⟨e, he⟩ := h.walk huva
  rw [clearpteu, if_pos (Nat.lt_of_lt_of_le huva h.size), he]
  refine ⟨_, rfl, h.size, fun va hva => ?_⟩
  rw [entry_setPte (isSome_pde_of_walk he)]
  split
  · next hpage =>
    rw [← h.pages va hva, entry_of_walk hpage, he]
    rfl
  · exact h.pages va hva

/-- `copyout` to what the kernel half maps fails: its pages have no `PTE_U`. -/
theorem copyout_kernel (d : Pgdir φ) (m : Kmem φ) {va : Nat} {p : List UInt8}
    (hva : KERNBASE ≤ va) (hmap : ¬ (KERNBASE + PHYSTOP ≤ va ∧ va < DEVSPACE))
    (hp : p.length ≠ 0) : copyout d m va p = .ok (false, m) := by
  have hka : uva2ka d (va / PGSIZE * PGSIZE) = .ok none := by
    simp only [KERNBASE, PHYSTOP, DEVSPACE, PGSIZE] at hva hmap ⊢
    rw [uva2ka, if_neg (by simp only [KERNBASE]; omega),
      if_neg (by simp only [KERNBASE, PHYSTOP, DEVSPACE]; omega)]
  unfold copyout
  simp only [if_neg hp, hka]

/-- `copyout` to addresses of the program. -/
theorem copyout_returns {d : Pgdir φ} {sz : Nat} (h : Image d sz) (m : Kmem φ) {va : Nat}
    {p : List UInt8} (hva : p.length ≠ 0 → va + p.length ≤ sz) : ∃ r, copyout d m va p = .ok r := by
  have hsize := h.size
  fun_induction copyout d m va p with
  | case1 => exact ⟨_, rfl⟩
  | case2 m va p hp va0 e hka =>
      have hle : va0 ≤ va := Nat.div_mul_le_self va PGSIZE
      have hlt : va0 < sz := by
        have hfit := hva hp
        omega
      obtain ⟨e, he⟩ := h.walk hlt
      rw [uva2ka, if_pos (Nat.lt_of_lt_of_le hlt hsize), he] at hka
      cases hka
  | case3 => exact ⟨_, rfl⟩
  | case4 m va p hp va0 pa0 hka n n' ih =>
      have hfit := hva hp
      refine ih fun hrest => ?_
      rw [List.length_drop] at hrest ⊢
      simp only [n', n, va0, PGSIZE] at hrest ⊢
      split at hrest
      · omega
      · rw [dif_neg ‹_›]
        omega

/-! ### Arguments -/

omit [DecidableEq φ] in
theorem uintAdd_sub {sp n : Nat} (hsp : sp ≤ KERNBASE) (hn : n ≤ KERNBASE) :
    uintAdd sp (-(n : Int)) = if n ≤ sp then sp - n else sp + 4294967296 - n := by
  simp only [uintAdd, KERNBASE] at *
  split <;> omega

omit [DecidableEq φ] in
theorem Image.roundup {d : Pgdir φ} {sz : Nat} (h : Image d sz) : Image d (PGROUNDUP sz) := by
  have hsize := h.size
  have hround := pgroundup_eq h.size
  have hle : PGROUNDUP sz ≤ KERNBASE := by
    simp only [KERNBASE] at *
    omega
  refine ⟨hle, ?_⟩
  have hagain : PGROUNDUP (PGROUNDUP sz) = PGROUNDUP sz := by
    rw [pgroundup_eq hle]
    omega
  rw [hagain]
  exact h.pages

theorem length_ustack (words : List Nat) : (words.flatMap uintBytes).length = 4 * words.length := by
  induction words with
  | nil => rfl
  | cons w words ih =>
      rw [List.flatMap_cons, List.length_append, ih, List.length_cons]
      simp only [uintBytes, List.length_cons, List.length_nil]
      omega

variable [DecidableEq ι]

omit [DecidableEq φ] [DecidableEq ι] in
/-- The sum of two `uint`s that is not smaller than the first has not wrapped. -/
theorem uint_of_not_lt {a b : Nat} (ha : a < 256 ^ 4) (hb : b < 256 ^ 4) (h : ¬ uint (a + b) < a) :
    uint (a + b) = a + b := by
  simp only [uint] at h ⊢
  omega

omit [DecidableEq ι] in
/-- The loop over the program headers. -/
theorem loadSegments_returns (env : Env ι) (ip : ι) (n : Nat) (k : Kernel φ ι) {d : Pgdir φ}
    {sz : Nat} (h : Image d sz) (off : Nat) :
    ∃ r k' d', loadSegments env ip n k d sz off = .ok (r, k', d') ∧
      ∀ sz', r = some sz' → Image d' sz' := by
  induction n generalizing k d sz off with
  | zero =>
      refine ⟨_, k, d, rfl, fun sz' hr => ?_⟩
      obtain rfl := Option.some.inj hr
      exact h
  | succ n ih =>
      have hbad : ∀ (k : Kernel φ ι) (d : Pgdir φ), ∃ r k' d',
          (.ok (none, k, d) : Except Stuck (Option Nat × Kernel φ ι × Pgdir φ)) =
            .ok (r, k', d') ∧ ∀ sz', r = some sz' → Image d' sz' := fun k d =>
        ⟨none, k, d, rfl, fun _ hr => by cases hr⟩
      unfold loadSegments
      rcases k.readi env ip off proghdrSize with ⟨bs, res, k₁⟩
      dsimp only
      split
      · exact hbad k₁ d
      · split
        · exact ih k₁ h _
        · split
          · exact hbad k₁ d
          · next hmem =>
            split
            · exact hbad k₁ d
            · next hwrap =>
              obtain ⟨sz₂, kmem, d₂, halloc, hroom⟩ := allocuvm_image k₁.kmem h
                (uint ((proghdr bs).vaddr + (proghdr bs).memsz))
              simp only [halloc]
              split
              · exact hbad _ d₂
              · next hsz₂ =>
                split
                · exact hbad _ d₂
                · next halign =>
                  obtain ⟨hle, himage, -⟩ := hroom hsz₂
                  have hfit : (proghdr bs).vaddr + (proghdr bs).filesz ≤ sz₂ := by
                    have hvaddr : (proghdr bs).vaddr < 256 ^ 4 := getField_lt _ _ _
                    have hmemsz : (proghdr bs).memsz < 256 ^ 4 := getField_lt _ _ _
                    rw [uint_of_not_lt hvaddr hmemsz hwrap] at hle
                    omega
                  obtain ⟨⟨ok, k₃⟩, hload⟩ := loaduvm_returns env ip himage (not_not.mp halign) hfit
                    (proghdr bs).off { k₁ with kmem }
                  simp only [hload]
                  cases ok with
                  | false => exact hbad k₃ d₂
                  | true => exact ih k₃ himage _

/-- A file that starts with an ELF header without program headers. -/
def oneFile : Env Nat where
  fs := Path.binLs
  table := Path.Table.empty
  readi := fun _ _ off n =>
    ((([127, 69, 76, 70] ++ List.replicate 48 0 : List UInt8).drop off).take n, n)

/-- A kernel with some free pages, and no inode in use. -/
def idle : Kernel Nat Nat :=
  ⟨⟨List.range' 3 70, fun _ _ => 0⟩, ⟨fun _ => 0, fun _ => false⟩, 0, 0, 0⟩

end OsCourse.Exec
