import OsCourse.Copyout.Process
import OsCourse.Exec.Returns

/-!
# OsCourse.Copyout.Arguments

**The arguments of `exec`.** Their strings are copied onto the new stack from the top
down. One that does not fit makes `copyout` fail at the guard page below the stack, or at
the kernel's pages if the stack pointer has wrapped around; but the addresses between the
memory of the kernel and the devices have no page table, and there `uva2ka` reads
through a null pointer. So the kernel faults iff the first argument that does not fit puts
the stack pointer there (`Overruns`).

`exec` from the ELF header on is the same in all four kernels; the search for the file is
that of the system-call kernel, and with an empty `PATH` that of the others.
-/

namespace OsCourse.Copyout

open OsCourse.Lib OsCourse.Vm
open OsCourse.Exec (PHYSTOP DEVSPACE MAXARG Stuck Image ShortArgs deviceSpace copyout_kernel
  pushArgs uintAdd_sub)

variable {φ : Type}

/-- The first argument that does not fit above `base` makes the stack pointer, `sp` at
first, wrap around to an address between `PHYSTOP` and the devices. Of `exec`'s slots for
arguments `n` are left. -/
def Overruns (base : Nat) : Nat → Nat → List (List UInt8) → Prop
  | _, _, [] => False
  | _, 0, _ :: _ => False
  | sp, n + 1, arg :: argv =>
      if base + (arg.length + 1) ≤ sp then
        Overruns base ((sp - (arg.length + 1)) / 4 * 4) n argv
      else
        KERNBASE + PHYSTOP + (arg.length + 1) ≤ sp + 4294967296 ∧
          sp + 4294967296 < DEVSPACE + (arg.length + 1)

/-- Then some argument is longer than the space of the devices. -/
theorem Overruns.not_short {base sp n : Nat} {argv : List (List UInt8)}
    (h : Overruns base sp n argv) : ¬ ShortArgs argv := by
  intro hshort
  induction argv generalizing sp n with
  | nil => simp [Overruns] at h
  | cons arg argv ih =>
      have harg : arg.length < deviceSpace := hshort arg (List.mem_cons_self ..)
      cases n with
      | zero => exact h
      | succ n =>
          rw [Overruns] at h
          split at h
          · exact ih h fun a ha => hshort a (List.mem_cons_of_mem _ ha)
          · simp only [DEVSPACE, deviceSpace] at h harg
            omega

/-- The address space of a program with its stack, of size `sz`. -/
structure ArgSpace (d : Pgdir φ) (sz : Nat) : Prop where
  image : Image d sz
  aligned : sz % 4096 = 0
  room : 8192 ≤ sz
  /-- The stack is a user page. -/
  stack : ∀ va, sz - 4096 ≤ va → va < sz → ∃ e, d.walk va = some (some e) ∧ e.u = true
  /-- The page below is not. -/
  guard : ∀ va, sz - 8192 ≤ va → va < sz - 4096 → ∃ e, d.walk va = some (some e) ∧ e.u = false

/-! ### One copy -/

theorem toNat_addr_ofNat {va i : Nat} (h : va + i < 4294967296) :
    (addr (UInt32.ofNat va) i).toNat = va + i := by
  rw [addr, UInt32.toNat_add, UInt32.toNat_ofNat', UInt32.toNat_ofNat']
  omega

/-- Which addresses of a process are user addresses. -/
theorem isUser_full (K : KernelMap φ) (d : Pgdir φ) {a : UInt32} {e : Pte φ}
    (ha : a.toNat < KERNBASE) (he : d.walk a.toNat = some (some e)) :
    IsUser (full K d) a ↔ e.u = true := by
  rw [IsUser, userCell, walk_full_user K d ha, he]
  cases hu : e.u <;> simp [hu]

variable [DecidableEq φ]

/-- A copy that returns has succeeded iff all addresses are user addresses. -/
theorem copyout_ok_iff (K : KernelMap φ) {d : Pgdir φ} {m m' : Kmem φ} {va : Nat}
    {p : List UInt8} {ok : Bool} (hva : va < 4294967296) (hp : p.length < 4294967296)
    (h : Exec.copyout d m va p = .ok (ok, m')) :
    ok = true ↔ ∀ i, i < p.length → IsUser (full K d) (addr (UInt32.ofNat va) i) := by
  have hvaeq : (UInt32.ofNat va).toNat = va := by
    rw [UInt32.toNat_ofNat', Nat.mod_eq_of_lt hva]
  have hlen : p.length = (UInt32.ofNat p.length).toNat := by
    rw [UInt32.toNat_ofNat', Nat.mod_eq_of_lt hp]
  have hcopies := copyout_copies (full K d) m (UInt32.ofNat va) (fun i => p.getD i 0)
    (UInt32.ofNat p.length)
  have hfull := copyout_full K d m (UInt32.ofNat va) p hlen
  rw [hvaeq, h] at hfull
  rw [← hlen] at hcopies
  generalize copyout (full K d) m (UInt32.ofNat va) (fun i => p.getD i 0)
    (UInt32.ofNat p.length) = res at hcopies hfull
  cases hcopies with
  | all huser _ =>
      obtain ⟨rfl, -⟩ := Prod.mk.inj (Except.ok.inj hfull)
      exact ⟨fun _ => huser, fun _ => rfl⟩
  | stopped hk _ _ hnot _ =>
      obtain ⟨rfl, -⟩ := Prod.mk.inj (Except.ok.inj hfull)
      exact ⟨fun h => by simp at h, fun hall => absurd (hall _ hk) hnot⟩
  | null => cases hfull

/-- A copy to addresses of a program succeeds iff all of them are user addresses. -/
theorem copyout_image {d : Pgdir φ} {sz : Nat} (h : Image d sz) (m : Kmem φ) {va : Nat}
    {p : List UInt8} (hfit : va + p.length ≤ sz) :
    ∃ ok m', Exec.copyout d m va p = .ok (ok, m') ∧
      (ok = true ↔ ∀ i, i < p.length → ∃ e, d.walk (va + i) = some (some e) ∧ e.u = true) := by
  have hsize := h.size
  simp only [KERNBASE] at hsize
  obtain ⟨⟨ok, m'⟩, hcopy⟩ : ∃ r, Exec.copyout d m va p = .ok r :=
    Exec.copyout_returns h m fun _ => hfit
  have K : KernelMap φ := ⟨fun _ => d.page, fun _ => d.page, fun _ => true⟩
  refine ⟨ok, m', hcopy, (copyout_ok_iff K (by omega) (by omega) hcopy).trans
    (forall₂_congr fun i hi => ?_)⟩
  have haddr : (addr (UInt32.ofNat va) i).toNat = va + i := toNat_addr_ofNat (by omega)
  have hlt : va + i < sz := by omega
  obtain ⟨e, he⟩ := h.walk hlt
  rw [← haddr] at he
  rw [isUser_full K d (by rw [haddr]; simp only [KERNBASE]; omega) he, ← haddr, he]
  simp

/-- A copy into the stack. -/
theorem copyout_stack {d : Pgdir φ} {sz : Nat} (h : ArgSpace d sz) (m : Kmem φ) {va : Nat}
    {p : List UInt8} (hlo : sz - 4096 ≤ va) (hhi : va + p.length ≤ sz) :
    ∃ m', Exec.copyout d m va p = .ok (true, m') := by
  obtain ⟨ok, m', hcopy, hok⟩ := copyout_image h.image m hhi
  rw [hok.mpr fun i hi => h.stack (va + i) (by omega) (by omega)] at hcopy
  exact ⟨m', hcopy⟩

/-- A copy that reaches the guard page from below or in it. -/
theorem copyout_guard {d : Pgdir φ} {sz : Nat} (h : ArgSpace d sz) (m : Kmem φ) {va : Nat}
    {p : List UInt8} (hp : p.length ≠ 0) (hlo : va < sz - 4096)
    (hguard : sz - 8192 < va + p.length) (hhi : va + p.length ≤ sz) :
    ∃ m', Exec.copyout d m va p = .ok (false, m') := by
  have hroom := h.room
  obtain ⟨ok, m', hcopy, hok⟩ := copyout_image h.image m hhi
  have hfalse : ok = false := by
    refine Bool.eq_false_iff.mpr fun heq => ?_
    -- a byte for the guard page
    have hin : max va (sz - 8192) - va < p.length := by omega
    obtain ⟨e, he, hu⟩ := hok.mp heq _ hin
    obtain ⟨e', he', hu'⟩ := h.guard (va + (max va (sz - 8192) - va)) (by omega) (by omega)
    obtain rfl := Option.some.inj (Option.some.inj (he.symm.trans he'))
    rw [hu] at hu'
    cases hu'
  rw [hfalse] at hcopy
  exact ⟨m', hcopy⟩

/-- A copy to addresses without page table reads through a null pointer. -/
theorem copyout_hole (d : Pgdir φ) (m : Kmem φ) {va : Nat} {p : List UInt8}
    (hmap : KERNBASE + PHYSTOP ≤ va ∧ va < DEVSPACE) (hp : p.length ≠ 0) :
    Exec.copyout d m va p = .error .nullPte := by
  have hka : Exec.uva2ka d (va / PGSIZE * PGSIZE) = .error .nullPte := by
    simp only [KERNBASE, PHYSTOP, DEVSPACE, PGSIZE] at hmap ⊢
    rw [Exec.uva2ka, if_neg (by simp only [KERNBASE]; omega),
      if_pos (by simp only [KERNBASE, PHYSTOP, DEVSPACE]; omega)]
  unfold Exec.copyout
  simp only [if_neg hp, hka]

/-! ### All arguments -/

/-- The copy of one argument, below `sp` in the stack. -/
theorem copyout_arg {d : Pgdir φ} {sz : Nat} (h : ArgSpace d sz) (m : Kmem φ) {arg : List UInt8}
    (harg : arg.length < KERNBASE) {sp : Nat} (hbase : sz - 4096 ≤ sp) (hsp : sp ≤ sz)
    (hfour : sp % 4 = 0) :
    let sp₁ := uintAdd sp (-(arg.length + 1 : Int)) / 4 * 4
    if sz - 4096 + (arg.length + 1) ≤ sp then
      sp₁ = (sp - (arg.length + 1)) / 4 * 4 ∧
        ∃ m', Exec.copyout d m sp₁ (arg ++ [0]) = .ok (true, m')
    else if KERNBASE + PHYSTOP + (arg.length + 1) ≤ sp + 4294967296 ∧
        sp + 4294967296 < DEVSPACE + (arg.length + 1) then
      Exec.copyout d m sp₁ (arg ++ [0]) = .error .nullPte
    else ∃ m', Exec.copyout d m sp₁ (arg ++ [0]) = .ok (false, m') := by
  have hsize := h.image.size
  have hroom := h.room
  have halign := h.aligned
  have hlast : (arg ++ [0]).length = arg.length + 1 := by simp
  have hnew := uintAdd_sub (Nat.le_trans hsp hsize) harg
  rw [Nat.cast_succ] at hnew
  simp only [hnew]
  by_cases hle : arg.length + 1 ≤ sp
  · rw [if_pos hle]
    split_ifs with hfit hmap
    · exact ⟨rfl, copyout_stack h m (by omega) (by omega)⟩
    · simp only [DEVSPACE] at hmap
      omega
    · exact copyout_guard h m (by omega) (by omega) (by omega) (by omega)
  · rw [if_neg hle]
    split_ifs with hfit hmap
    · omega
    · refine copyout_hole d m ?_ (by omega)
      simp only [KERNBASE, PHYSTOP, DEVSPACE] at hmap ⊢
      omega
    · refine ⟨m, copyout_kernel d m ?_ (fun hin => hmap ?_) (by omega)⟩
      · simp only [KERNBASE] at harg ⊢
        omega
      · simp only [KERNBASE, PHYSTOP, DEVSPACE] at hin ⊢
        omega

/-- The loop over the arguments faults iff they overrun the stack. -/
theorem pushArgs_outcome {d : Pgdir φ} {sz : Nat} (h : ArgSpace d sz) {argv : List (List UInt8)}
    (hargv : ∀ arg ∈ argv, arg.length < KERNBASE) (m : Kmem φ) {sp n : Nat}
    (hbase : sz - 4096 ≤ sp) (hsp : sp ≤ sz) (hfour : sp % 4 = 0) {addrs : List Nat}
    (hn : addrs.length + n = MAXARG) :
    pushArgs d argv m sp addrs = .error .nullPte ∧ Overruns (sz - 4096) sp n argv ∨
      ∃ r m', pushArgs d argv m sp addrs = .ok (r, m') ∧ ¬ Overruns (sz - 4096) sp n argv ∧
        ∀ sp' addrs', r = some (sp', addrs') →
          sz - 4096 ≤ sp' ∧ sp' ≤ sz ∧ addrs'.length ≤ MAXARG := by
  have halign := h.aligned
  induction argv generalizing m sp n addrs with
  | nil =>
      refine .inr ⟨_, m, rfl, by simp [Overruns], fun sp' addrs' hr => ?_⟩
      obtain ⟨rfl, rfl⟩ := Prod.mk.inj (Option.some.inj hr)
      exact ⟨hbase, hsp, by omega⟩
  | cons arg argv ih =>
      cases n with
      | zero =>
          refine .inr ⟨none, m, ?_, id, fun _ _ hr => by cases hr⟩
          rw [pushArgs, if_pos (by omega)]
      | succ n =>
          have hcopy := copyout_arg h m (hargv arg (List.mem_cons_self ..)) hbase hsp hfour
          dsimp only at hcopy
          rw [Overruns, pushArgs, if_neg (by omega)]
          dsimp only
          split_ifs at hcopy with hfit hmap
          · obtain ⟨hto, m₁, hcopy⟩ := hcopy
            rw [if_pos hfit, hcopy, hto]
            refine ih (fun a ha => hargv a (List.mem_cons_of_mem _ ha)) m₁ (by omega) (by omega)
              (by omega) ?_
            rw [List.length_append, List.length_singleton]
            omega
          · rw [if_neg hfit, hcopy]
            exact .inl ⟨rfl, hmap⟩
          · obtain ⟨m₁, hcopy⟩ := hcopy
            rw [if_neg hfit, hcopy]
            exact .inr ⟨none, m₁, rfl, hmap, fun _ _ hr => by cases hr⟩

/-! ### The stack -/

/-- The two pages that `exec` allocates behind the program are user pages. -/
theorem allocuvm_stack (m : Kmem φ) {d : Pgdir φ} {sz : Nat} (h : Image d sz)
    (halign : PGROUNDUP sz = sz) {sz' : Nat} {m' : Kmem φ} {d' : Pgdir φ}
    (halloc : allocuvm m d sz (sz + 8192) = .ok (sz', m', d')) (hsz : sz' ≠ 0) :
    sz' = sz + 8192 ∧ Image d' sz' ∧
      ∀ va, sz ≤ va → va < sz' → ∃ e, d'.walk va = some (some e) ∧ e.u = true := by
  obtain ⟨sz₁, m₁, d₁, heq, hroom⟩ := Exec.allocuvm_image m h (sz + 8192)
  obtain ⟨rfl, hrest⟩ := Prod.mk.inj (Except.ok.inj (heq.symm.trans halloc))
  obtain ⟨rfl, rfl⟩ := Prod.mk.inj hrest
  obtain ⟨-, himage, hgrown⟩ := hroom hsz
  obtain ⟨rfl, hlt⟩ := hgrown (Nat.le_add_right sz 8192)
  refine ⟨rfl, himage, fun va hlo hva => ?_⟩
  rw [allocuvm, if_neg (Nat.not_le.mpr hlt), if_neg (by omega), halign] at halloc
  have hpages := h.pages
  rw [halign] at hpages
  have haligned : sz % PGSIZE = 0 := by
    rw [← halign]
    exact Nat.mul_mod_left _ _
  obtain ⟨e, he, hu⟩ := allocLoop_user hlt m d sz haligned hpages
    (fun va hlo hlt => absurd hlt (Nat.not_lt.mpr hlo)) halloc hsz va hlo hva
  exact ⟨e, Option.join_eq_some_iff.mp he, hu⟩

omit [DecidableEq φ] in
/-- Without `PTE_U` on the first of them, it guards the second. -/
theorem argSpace_of_clear {d d' : Pgdir φ} {sz : Nat} (h : Image d (sz + 8192))
    (halign : sz % 4096 = 0)
    (huser : ∀ va, sz ≤ va → va < sz + 8192 → ∃ e, d.walk va = some (some e) ∧ e.u = true)
    (hclear : Exec.clearpteu d sz = .ok d') : ArgSpace d' (sz + 8192) := by
  have hsize := h.size
  obtain ⟨d₁, heq, himage⟩ := Exec.clearpteu_image h (show sz < sz + 8192 by omega)
  obtain rfl := Except.ok.inj (heq.symm.trans hclear)
  obtain ⟨e₀, he₀, -⟩ := huser sz (Nat.le_refl _) (by omega)
  have hentry : ∀ va, d₁.entry va =
      if va / PGSIZE = sz / PGSIZE then some { e₀ with u := false } else d.entry va := by
    rw [Exec.clearpteu, if_pos (by simp only [KERNBASE] at hsize ⊢; omega), he₀] at hclear
    obtain rfl := Except.ok.inj hclear
    exact entry_setPte (isSome_pde_of_walk he₀) _
  refine ⟨himage, by omega, by omega, fun va hlo hva => ?_, fun va hlo hva => ?_⟩
  · obtain ⟨e, he, hu⟩ := huser va (by omega) hva
    refine ⟨e, Option.join_eq_some_iff.mp ?_, hu⟩
    rw [← Pgdir.entry, hentry va, if_neg]
    · exact Option.join_eq_some_iff.mpr he
    · simp only [PGSIZE]
      omega
  · refine ⟨{ e₀ with u := false }, Option.join_eq_some_iff.mp ?_, rfl⟩
    rw [← Pgdir.entry, hentry va, if_pos]
    simp only [PGSIZE]
    omega

end OsCourse.Copyout
