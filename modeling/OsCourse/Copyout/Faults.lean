import OsCourse.Copyout.Arguments

/-!
# OsCourse.Copyout.Faults

**When the kernel reads through a null pointer** in `exec`: iff the program and its stack
could be set up and the arguments overrun the stack (`exec_null_iff`). The other calls of
`copyout`, and the other uses of page tables, only meet pages that `exec` has put
there itself. With this, `copyout_exact_iff` says when `copyout` does what it is for.
-/

namespace OsCourse.Copyout

open OsCourse.Lib OsCourse.Vm
open OsCourse.Exec (MAXARG ELF_MAGIC Stuck Image ShortArgs Env Kernel elfhdr elfhdrSize uintAdd_sub
  image_of_setupkvm execStack execFile exec bad pushArgs loadSegments search oneFile idle)
open OsCourse.Path (Inodes)

variable {φ ι : Type} [DecidableEq φ]

/-- There is memory for the stack of a program of size `sz`. -/
def StackFits (k : Kernel φ ι) (d : Pgdir φ) (sz : Nat) : Prop :=
  ∃ sz' kmem d', allocuvm k.kmem d (PGROUNDUP sz) (Exec.uint (PGROUNDUP sz + 2 * PGSIZE)) =
    .ok (sz', kmem, d') ∧ sz' ≠ 0

variable [DecidableEq ι]

theorem bad_ne_null (k : Kernel φ ι) (p : Exec.Proc φ) (pgdir : Option (Pgdir φ)) (ip : Option ι) :
    bad k p pgdir ip ≠ .error .nullPte := by
  unfold bad
  dsimp only
  cases ip with
  | none => exact fun h => by cases h
  | some ip =>
      dsimp only
      cases k.inodes.iunlockput ip with
      | none => exact fun h => by cases h
      | some inodes => exact fun h => by cases h

/-- The words below the arguments are in the stack's page, or in the guard page. -/
theorem copyout_ustack {d : Pgdir φ} {sz : Nat} (h : ArgSpace d sz) (m : Kmem φ) {sp : Nat}
    (hbase : sz - 4096 ≤ sp) (hsp : sp ≤ sz) {addrs : List Nat} (hn : addrs.length ≤ MAXARG)
    (w : Nat) :
    ∃ r, Exec.copyout d m (uintAdd sp (-((3 + addrs.length + 1) * 4 : Int)))
      (([4294967295, addrs.length, w] ++ addrs ++ [0]).flatMap Exec.uintBytes) = .ok r := by
  have hsize := h.image.size
  have hroom := h.room
  have hwords : (3 + addrs.length + 1) * 4 ≤ 4096 := by
    simp only [MAXARG] at hn
    omega
  have hlen : (([4294967295, addrs.length, w] ++ addrs ++ [0]).flatMap Exec.uintBytes).length =
      (3 + addrs.length + 1) * 4 := by
    rw [Exec.length_ustack]
    simp only [List.length_append, List.length_cons, List.length_nil]
    omega
  have hsub := uintAdd_sub (Nat.le_trans hsp hsize) (Nat.le_trans hwords (by decide))
  push_cast at hsub
  rw [hsub, if_pos (by omega)]
  exact Exec.copyout_returns h.image m fun _ => by omega

/-- `exec` from the allocation of the stack on. -/
theorem execStack_null_iff (k : Kernel φ ι) (p : Exec.Proc φ) {d : Pgdir φ} {sz : Nat}
    (h : Image d sz) (entry : Nat) (path : List UInt8) {argv : List (List UInt8)}
    (hargv : ∀ arg ∈ argv, arg.length < KERNBASE) :
    execStack k p d sz entry path argv = .error .nullPte ↔
      StackFits k d sz ∧ Overruns (PGROUNDUP sz + 4096) (PGROUNDUP sz + 8192) MAXARG argv := by
  have hround := h.roundup
  have hsize := hround.size
  simp only [KERNBASE] at hsize
  have halign : PGROUNDUP (PGROUNDUP sz) = PGROUNDUP sz := by
    rw [pgroundup_eq hround.size, pgroundup_eq h.size]
    omega
  have hpage : PGROUNDUP sz % 4096 = 0 := Nat.mul_mod_left _ _
  have htop : Exec.uint (PGROUNDUP sz + 2 * PGSIZE) = PGROUNDUP sz + 8192 := by
    simp only [Exec.uint, PGSIZE]
    omega
  obtain ⟨sz₁, kmem, d₁, halloc, -⟩ := Exec.allocuvm_image k.kmem hround (PGROUNDUP sz + 8192)
  have hfits : StackFits k d sz ↔ sz₁ ≠ 0 := by
    rw [StackFits, htop, halloc]
    constructor
    · rintro ⟨sz', m', d', heq, hne⟩
      obtain ⟨rfl, -⟩ := Prod.mk.inj (Except.ok.inj heq)
      exact hne
    · exact fun hne => ⟨_, _, _, rfl, hne⟩
  rw [hfits]
  unfold execStack
  simp only [htop, halloc]
  by_cases hzero : sz₁ = 0
  · rw [if_pos hzero]
    exact ⟨fun hnull => absurd hnull (bad_ne_null _ p _ _), fun hboth => absurd hzero hboth.1⟩
  · rw [if_neg hzero]
    obtain ⟨rfl, himage, huser⟩ := allocuvm_stack k.kmem hround halign halloc hzero
    have hguard : uintAdd (PGROUNDUP sz + 8192) (-(2 * PGSIZE : Int)) = PGROUNDUP sz := by
      simp only [uintAdd, PGSIZE]
      omega
    obtain ⟨d₂, hclear, -⟩ := Exec.clearpteu_image himage
      (show PGROUNDUP sz < PGROUNDUP sz + 8192 by omega)
    have hspace := argSpace_of_clear himage hpage huser hclear
    have hnone : ([] : List Nat).length + MAXARG = MAXARG := Nat.zero_add _
    have hbase : PGROUNDUP sz + 8192 - 4096 = PGROUNDUP sz + 4096 := by omega
    simp only [hguard, hclear]
    rcases pushArgs_outcome hspace hargv kmem (Nat.sub_le _ _) (Nat.le_refl _) (by omega) hnone
      with ⟨hpush, hover⟩ | ⟨r, kmem₁, hpush, hover, hlast⟩
    · rw [hbase] at hover
      simp only [hpush, true_iff]
      exact ⟨hzero, hover⟩
    · rw [hbase] at hover
      refine iff_of_false ?_ fun hboth => hover hboth.2
      simp only [hpush]
      cases r with
      | none => exact bad_ne_null _ p _ _
      | some r =>
          obtain ⟨sp, addrs⟩ := r
          obtain ⟨hlo, hhi, hn⟩ := hlast sp addrs rfl
          obtain ⟨⟨ok, kmem₂⟩, hcopy⟩ := copyout_ustack hspace kmem₁ hlo hhi hn
            (uintAdd sp (-((addrs.length + 1) * 4 : Int)))
          simp only [hcopy]
          cases ok with
          | false => exact bad_ne_null _ p _ _
          | true => exact fun heq => by cases heq

/-! ### The call -/

/-- `exec` finds the file, and the program in it can be loaded: the kernel then, the new
address space, the program's size and its entry point. -/
inductive Loads (env : Env ι) (k : Kernel φ ι) (path : List UInt8) :
    Kernel φ ι → Pgdir φ → Nat → Nat → Prop
  | mk {ip : ι} {inodes inodes₁ inodes₂ : Inodes ι} {k₁ k₂ : Kernel φ ι} {bs : List UInt8} {r : Int}
      {kmem : Kmem φ} {d₀ d : Pgdir φ} {sz : Nat} :
      search env k.inodes path = .ok (some ip, inodes) →
      inodes.ilock ip = some inodes₁ →
      Kernel.readi { k with begins := k.begins + 1, inodes := inodes₁ } env ip 0 elfhdrSize =
        (bs, r, k₁) →
      r = elfhdrSize →
      (elfhdr bs).magic = ELF_MAGIC →
      setupkvm k₁.kmem = (some d₀, kmem) →
      loadSegments env ip (elfhdr bs).phnum { k₁ with kmem } d₀ 0 (elfhdr bs).phoff =
        .ok (some sz, k₂, d) →
      k₂.inodes.iunlockput ip = some inodes₂ →
      Loads env k path { k₂ with inodes := inodes₂, ends := k₂.ends + 1 } d sz (elfhdr bs).entry

variable {env : Env ι} {k k' : Kernel φ ι} {path : List UInt8} {d : Pgdir φ} {sz entry : Nat}

/-- Then `exec` goes on to the stack. -/
theorem Loads.exec_eq (h : Loads env k path k' d sz entry) (p : Exec.Proc φ)
    (argv : List (List UInt8)) : exec env k p path argv = execStack k' p d sz entry path argv := by
  cases h with
  | mk hsearch hlock hread hr hmagic hsetup hload hput =>
      rw [exec]
      simp only [hsearch, hlock]
      rw [execFile]
      simp only [hread]
      rw [if_neg (not_not.mpr hr), if_neg (not_not.mpr hmagic)]
      simp only [hsetup, hload, hput]

theorem Loads.image (h : Loads env k path k' d sz entry) : Image d sz := by
  cases h with
  | @mk ip _ _ _ k₁ _ bs _ kmem d₀ _ _ _ _ _ _ _ hsetup hload _ =>
      obtain ⟨r, k₂, d₂, heq, himage⟩ := Exec.loadSegments_returns env ip (elfhdr bs).phnum
        { k₁ with kmem } (image_of_setupkvm hsetup) (elfhdr bs).phoff
      obtain ⟨rfl, hrest⟩ := Prod.mk.inj (Except.ok.inj (heq.symm.trans hload))
      obtain ⟨-, rfl⟩ := Prod.mk.inj hrest
      exact himage _ rfl

omit [DecidableEq φ] in
theorem search_ne_null (env : Env ι) (s : Inodes ι) (path : List UInt8) :
    search env s path ≠ .error .nullPte := by
  have hloop : ∀ (n : Nat) (s : Inodes ι) (i : Nat),
      Exec.searchLoop env s path n i ≠ .error .nullPte := by
    intro n
    induction n with
    | zero => exact fun s i h => by cases h
    | succ n ih =>
        intro s i
        rw [Exec.searchLoop]
        split
        · exact fun h => by cases h
        · split
          · exact fun h => by cases h
          · exact fun h => by cases h
          · exact ih _ _
  rw [search]
  split
  · exact fun h => by cases h
  · exact fun h => by cases h
  · exact hloop _ _ _

/-- The kernel reads through a null pointer only if the program was loaded. -/
theorem exec_null_loads {p : Exec.Proc φ} {argv : List (List UInt8)}
    (h : exec env k p path argv = .error .nullPte) :
    ∃ k' d sz entry, Loads env k path k' d sz entry := by
  rw [exec] at h
  dsimp only at h
  split at h
  · next e hsearch =>
    obtain rfl := Except.error.inj h
    exact absurd hsearch (search_ne_null env k.inodes path)
  · cases h
  · next ip inodes hsearch =>
    split at h
    · cases h
    · next inodes₁ hlock =>
      rw [execFile] at h
      rcases hread : Kernel.readi { k with begins := k.begins + 1, inodes := inodes₁ } env ip 0
        elfhdrSize with ⟨bs, r, k₁⟩
      rw [hread] at h
      dsimp only at h
      split_ifs at h with hr hmagic
      · exact absurd h (bad_ne_null k₁ p none (some ip))
      · exact absurd h (bad_ne_null k₁ p none (some ip))
      · split at h
        · exact absurd h (bad_ne_null _ p none (some ip))
        · next d₀ kmem hsetup =>
          obtain ⟨res, k₂, d, hload, -⟩ := Exec.loadSegments_returns env ip (elfhdr bs).phnum
            { k₁ with kmem } (image_of_setupkvm hsetup) (elfhdr bs).phoff
          rw [hload] at h
          cases res with
          | none => exact absurd h (bad_ne_null k₂ p (some d) (some ip))
          | some sz =>
              dsimp only at h
              cases hput : k₂.inodes.iunlockput ip with
              | none =>
                  rw [hput] at h
                  cases h
              | some inodes₂ =>
                  exact ⟨_, d, sz, _, .mk hsearch hlock hread (not_not.mp hr) (not_not.mp hmagic)
                    hsetup hload hput⟩

/-- The program can be loaded, there is memory for its stack, and the arguments overrun
it. -/
def ArgsOverrun (env : Env ι) (k : Kernel φ ι) (path : List UInt8) (argv : List (List UInt8)) :
    Prop :=
  ∃ k' d sz entry, Loads env k path k' d sz entry ∧ StackFits k' d sz ∧
    Overruns (PGROUNDUP sz + 4096) (PGROUNDUP sz + 8192) MAXARG argv

theorem exec_null_iff {p : Exec.Proc φ} {argv : List (List UInt8)}
    (hargv : ∀ arg ∈ argv, arg.length < KERNBASE) :
    exec env k p path argv = .error .nullPte ↔ ArgsOverrun env k path argv := by
  constructor
  · intro h
    obtain ⟨k', d, sz, entry, hloads⟩ := exec_null_loads h
    rw [hloads.exec_eq p argv] at h
    exact ⟨k', d, sz, entry, hloads, (execStack_null_iff k' p hloads.image entry path hargv).mp h⟩
  · intro h
    obtain ⟨k', d, sz, entry, hloads, hstack⟩ := h
    rw [hloads.exec_eq p argv]
    exact (execStack_null_iff k' p hloads.image entry path hargv).mpr hstack

/-- So it never does with short arguments. -/
theorem exec_ne_null_of_short {p : Exec.Proc φ} {argv : List (List UInt8)}
    (hshort : ShortArgs argv) : exec env k p path argv ≠ .error .nullPte := by
  intro h
  have hargv : ∀ arg ∈ argv, arg.length < KERNBASE := fun arg harg =>
    Nat.lt_trans (hshort arg harg) (by decide)
  obtain ⟨_, _, sz, _, -, -, hover⟩ := (exec_null_iff hargv).mp h
  exact hover.not_short hshort

/-! ### A long argument -/

omit [DecidableEq ι] in
/-- Three free pages are enough for the stack of an empty program. -/
theorem stackFits_empty {k : Kernel φ ι} {d : Pgdir φ} {a b c : φ} {l : List φ}
    (hfree : k.kmem.freelist = a :: b :: c :: l) (hpde : d.pde = fun _ => none) :
    StackFits k d 0 := by
  obtain ⟨⟨freelist, data⟩, inodes, begins, ends, reads⟩ := k
  obtain ⟨page, pde, kernel⟩ := d
  obtain rfl : freelist = _ := hfree
  obtain rfl : pde = _ := hpde
  have hround : PGROUNDUP 0 = 0 := by decide
  have htop : Exec.uint (0 + 2 * PGSIZE) = 8192 := by decide
  have hdx : PDX (0 + PGSIZE) = PDX 0 := by decide
  have hpx : PTX (0 + PGSIZE) ≠ PTX 0 := by decide
  have hlast : ¬ 0 + PGSIZE + PGSIZE < 8192 := by decide
  rw [StackFits, hround, htop, allocuvm, if_neg (by decide), if_neg (by decide), hround]
  -- the first page comes with a page table
  rw [allocLoop, if_pos (by decide)]
  simp only [Kmem.kalloc, mappages, walkpgdir, Kmem.memset, Option.map_some, Pgdir.walk,
    Function.update_self]
  rw [allocLoop, if_pos (by decide)]
  simp only [Kmem.kalloc, mappages, walkpgdir, Kmem.memset, Option.map_some, Pgdir.walk,
    Pgdir.setPte, hdx, Function.update_self, Function.update_of_ne hpx]
  rw [allocLoop, if_neg hlast]
  exact ⟨_, _, _, rfl, by decide⟩

/-- A process with 36 MB of memory. -/
def large : Exec.Proc Nat where
  pgdir :=
    { page := 73
      pde := fun i =>
        if i < 9 then some ⟨74 + i, fun j => some ⟨83 + 1024 * i + j, true, true⟩⟩ else none
      kernel := [] }
  sz := 37748736
  name := CBuf.zeros 16
  eip := 0
  esp := 0

/-- The program in `oneFile` can be loaded. -/
theorem loads_oneFile : ∃ k' d entry,
    Loads oneFile idle [47, 98, 105, 110, 47, 108, 115] k' d 0 entry ∧
    k'.kmem.freelist = [68, 69, 70, 71, 72] ∧ d.pde = fun _ => none := by
  have hfound : Path.namei oneFile.fs [47, 98, 105, 110, 47, 108, 115] = some 2 := by
    rw [Path.namei_eq]
    decide
  have hunlocked : Path.Unlocked idle.inodes := ⟨fun _ => rfl, fun _ => Int.le_refl 0⟩
  have hsearch : search oneFile idle.inodes [47, 98, 105, 110, 47, 108, 115] =
      .ok (some 2, Path.withRef idle.inodes (some 2)) := by
    simp only [search, Path.nameiRefs_isSome oneFile.fs hunlocked, hfound]
  exact ⟨_, _, _, .mk hsearch rfl rfl rfl (by decide) rfl rfl rfl, rfl, rfl⟩

/-! ### When `copyout` is exact -/

/-- **`copyout` is exact** iff the first address that is not in a present user page, if
there is one, has a page table, and `exec` does not read through a null pointer iff the
arguments do not overrun the stack of a loaded program. Strings of a user are shorter
than `KERNBASE`. -/
theorem copyout_exact_iff :
    (∀ (d : Pgdir φ) (m : Kmem φ) (va : UInt32) (buf : Nat → UInt8) (len : UInt32),
      CopiesOut d m va buf len ↔ Tabled d va len.toNat) ∧
    ∀ (env : Env ι) (k : Kernel φ ι) (p : Exec.Proc φ) (path : List UInt8)
      (argv : List (List UInt8)), (∀ arg ∈ argv, arg.length < KERNBASE) →
      (exec env k p path argv ≠ .error .nullPte ↔ ¬ ArgsOverrun env k path argv) :=
  ⟨copiesOut_iff, fun _ _ _ _ _ hargv => not_congr (exec_null_iff hargv)⟩

/-- With an argument of 33570815 bytes for an empty program, `copyout` is called for an
address without page table. -/
theorem exec_long_argument :
    exec oneFile idle large [47, 98, 105, 110, 47, 108, 115] [List.replicate 33570815 97] =
      .error .nullPte ∧
    ¬ CopiesOut (full ⟨id, id, fun _ => true⟩ large.pgdir) idle.kmem 4261404672 (fun _ => 97)
      33570816 := by
  constructor
  · obtain ⟨k', d, entry, hloads, hfree, hpde⟩ := loads_oneFile
    have hround : PGROUNDUP 0 = 0 := by decide
    refine (exec_null_iff fun arg harg => ?_).mpr
      ⟨k', d, 0, entry, hloads, stackFits_empty hfree hpde, ?_⟩
    · rw [List.mem_singleton.mp harg, List.length_replicate]
      decide
    · rw [hround, show MAXARG = 31 + 1 from rfl, Overruns, List.length_replicate,
        if_neg (by decide)]
      decide
  · rw [copiesOut_iff]
    intro htabled
    have htable := htabled 0 (by decide) fun i hi => absurd hi (Nat.not_lt_zero i)
    rw [addr_zero] at htable
    exact absurd htable (by decide)

end OsCourse.Copyout
