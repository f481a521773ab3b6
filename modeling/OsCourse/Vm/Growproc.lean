import OsCourse.Lib.Machine
import OsCourse.Vm.Space

/-!
# OsCourse.Vm.Growproc

`growproc` over runs of `sbrk` calls, and `copyuvm` in a later `fork`.

A process is `Consistent` if exactly the pages below `PGROUNDUP(sz)` are present
in the user half of its address space. `growproc` reads the result 0 of
`deallocuvm` as a failure; but 0 is also its result when it frees all pages.
`ShrinksToSome` leaves this call out: it is what keeps a process consistent.
-/

namespace OsCourse.Vm

open Lib

variable {φ : Type}

/-- Exactly the pages below `PGROUNDUP(sz)` are present. -/
structure Consistent (p : Proc φ) : Prop where
  size : p.sz ≤ KERNBASE
  pages : Fits p.pgdir (PGROUNDUP p.sz)

/-- The values of an `int`. -/
def IsInt (n : Int) : Prop := -2147483648 ≤ n ∧ n < 2147483648

instance (n : Int) : Decidable (IsInt n) := inferInstanceAs (Decidable (_ ∧ _))

/-- What a `growproc` that takes `p` to `p'` and returns `ret` should do. -/
structure GrowSound (p : Proc φ) (ret : Int) (p' : Proc φ) : Prop where
  failed : ret = -1 →
    p'.sz = p.sz ∧ ∀ va, va < KERNBASE → p'.pgdir.entry va = p.pgdir.entry va
  consistent : Consistent p'

/-- The call does not shrink a non-empty process to nothing. -/
def ShrinksToSome (p : Proc φ) (n : Int) : Prop := p.sz = 0 ∨ p.sz + n ≠ 0

variable [DecidableEq φ]

/-! ### One call -/

/-- Growing by `n`. -/
theorem growproc_pos (m : Kmem φ) {p : Proc φ} (hp : Consistent p) {n : Int} (hn : IsInt n)
    (hpos : 0 < n) : ∃ ret m' p', growproc m p n = .ok (ret, m', p') ∧ GrowSound p ret p' := by
  have hsize := hp.size
  obtain ⟨hlow, hhigh⟩ := hn
  have hnew : (uintAdd p.sz n : Int) = p.sz + n := by
    simp only [uintAdd, KERNBASE] at hsize ⊢
    omega
  rw [growproc, if_pos hpos, allocuvm]
  split_ifs with hkern hless
  · exact ⟨_, _, _, rfl, ⟨fun _ => ⟨rfl, fun _ _ => rfl⟩, hp⟩⟩
  · omega
  · obtain ⟨sz, m', d', hloop, hend⟩ := allocLoop_spec hsize (Nat.not_le.mp hkern) hp.pages m p.pgdir
      (PGROUNDUP p.sz) (Nat.mul_mod_left _ _) (Nat.le_refl _)
      (by rw [pgroundup_eq hsize, pgroundup_eq (by omega)]; omega) hp.pages fun _ _ => rfl
    rw [hloop]
    rcases hend with ⟨rfl, hsame⟩ | ⟨rfl, hfits⟩
    · refine ⟨_, _, _, rfl, ⟨fun _ => ⟨rfl, hsame⟩, hsize, fun va hva => ?_⟩⟩
      rw [hsame va hva]
      exact hp.pages va hva
    · refine ⟨0, m', ⟨d', uintAdd p.sz n⟩, ?_, ⟨fun h => ?_, ?_, hfits⟩⟩
      · simp only
        rw [if_neg (by omega)]
      · cases h
      · exact Nat.le_of_lt (Nat.not_le.mp hkern)

/-- A negative `n` is passed to `deallocuvm`, whose result 0 means failure. -/
theorem growproc_of_neg (m : Kmem φ) (p : Proc φ) {n : Int} (hneg : n < 0) :
    growproc m p n =
      if (deallocuvm m p.pgdir p.sz (uintAdd p.sz n)).1 = 0 then
        .ok (-1, (deallocuvm m p.pgdir p.sz (uintAdd p.sz n)).2.1,
          { p with pgdir := (deallocuvm m p.pgdir p.sz (uintAdd p.sz n)).2.2 })
      else
        .ok (0, (deallocuvm m p.pgdir p.sz (uintAdd p.sz n)).2.1,
          ⟨(deallocuvm m p.pgdir p.sz (uintAdd p.sz n)).2.2,
            (deallocuvm m p.pgdir p.sz (uintAdd p.sz n)).1⟩) := by
  rw [growproc, if_neg (by omega), if_pos hneg]

/-- Shrinking to a size that is not 0, or below 0: then nothing changes. -/
theorem growproc_neg (m : Kmem φ) {p : Proc φ} (hp : Consistent p) {n : Int} (hn : IsInt n)
    (hneg : n < 0) (hsome : ShrinksToSome p n) :
    ∃ ret m' p', growproc m p n = .ok (ret, m', p') ∧ GrowSound p ret p' := by
  have hsize := hp.size
  obtain ⟨hlow, hhigh⟩ := hn
  by_cases hwrap : p.sz ≤ uintAdd p.sz n
  · have hkeep : deallocuvm m p.pgdir p.sz (uintAdd p.sz n) = (p.sz, m, p.pgdir) := by
      rw [deallocuvm, if_pos hwrap]
    rw [growproc_of_neg m p hneg, hkeep]
    split_ifs with hzero
    · exact ⟨-1, m, _, rfl, ⟨fun _ => ⟨rfl, fun _ _ => rfl⟩, hp⟩⟩
    · exact ⟨0, m, _, rfl, ⟨fun h => absurd h (by decide), hp⟩⟩
  · have hlt := Nat.not_le.mp hwrap
    have hnew : (uintAdd p.sz n : Int) = p.sz + n := by
      simp only [uintAdd, KERNBASE] at hsize hlt ⊢
      omega
    obtain ⟨hret, -⟩ := deallocuvm_spec m (d := p.pgdir) hlt
    have hfits := fits_deallocuvm m hlt hsize hp.pages
    rw [growproc_of_neg m p hneg, hret, if_neg (by unfold ShrinksToSome at hsome; omega)]
    refine ⟨0, _, _, rfl, ⟨fun h => absurd h (by decide), ⟨?_, hfits⟩⟩⟩
    exact Nat.le_of_lt (Nat.lt_of_lt_of_le hlt hsize)

/-- Freeing all pages of a process: reported as a failure, and `sz` stays. -/
theorem growproc_all (m : Kmem φ) {p : Proc φ} (hp : Consistent p) (hsz : p.sz ≠ 0) :
    ∃ m' p', growproc m p (-p.sz) = .ok (-1, m', p') ∧ p'.sz = p.sz ∧
      ∀ va, va < KERNBASE → p'.pgdir.entry va = none := by
  have hzero : uintAdd p.sz (-p.sz) = 0 := by
    simp only [uintAdd]
    omega
  have hlt : uintAdd p.sz (-p.sz) < p.sz := by omega
  obtain ⟨hret, -⟩ := deallocuvm_spec m (d := p.pgdir) hlt
  have hfits := fits_deallocuvm m hlt hp.size hp.pages
  have hround : PGROUNDUP (uintAdd p.sz (-p.sz)) = 0 := by rw [hzero]; rfl
  rw [growproc_of_neg m p (by omega), hret, if_pos hzero]
  refine ⟨_, _, rfl, rfl, fun va hva => ?_⟩
  simpa using mt (hfits va hva).mp (by omega)

omit [DecidableEq φ] in
/-- A process of some size has its first page, if it is consistent. -/
theorem Consistent.first_page {p : Proc φ} (hp : Consistent p) (hsz : p.sz ≠ 0) :
    (p.pgdir.entry 0).isSome := by
  refine (hp.pages 0 (by simp only [KERNBASE]; omega)).mpr ?_
  rw [pgroundup_eq hp.size]
  omega

/-- A call returns; it does what it should exactly if it does not shrink a
process to nothing. -/
theorem growproc_spec (m : Kmem φ) {p : Proc φ} (hp : Consistent p) {n : Int} (hn : IsInt n) :
    ∃ ret m' p', growproc m p n = .ok (ret, m', p') ∧
      (GrowSound p ret p' ↔ ShrinksToSome p n) ∧
      (Consistent p' ↔ ShrinksToSome p n) := by
  by_cases hsome : ShrinksToSome p n
  · have hgood : ∃ ret m' p', growproc m p n = .ok (ret, m', p') ∧ GrowSound p ret p' := by
      by_cases hpos : 0 < n
      · exact growproc_pos m hp hn hpos
      · by_cases hneg : n < 0
        · exact growproc_neg m hp hn hneg hsome
        · refine ⟨0, m, p, ?_, ⟨fun h => absurd h (by decide), hp⟩⟩
          rw [growproc, if_neg hpos, if_neg hneg]
    obtain ⟨ret, m', p', hcall, hsound⟩ := hgood
    exact ⟨ret, m', p', hcall, iff_of_true hsound hsome, iff_of_true hsound.consistent hsome⟩
  · obtain ⟨hsz, hall⟩ : p.sz ≠ 0 ∧ n = -p.sz := by
      unfold ShrinksToSome at hsome
      omega
    subst hall
    obtain ⟨m', p', hcall, hsame, hnone⟩ := growproc_all m hp hsz
    have hbroken : ¬ Consistent p' := by
      intro hcons
      have hpage := hcons.first_page (by omega)
      rw [hnone 0 (by simp only [KERNBASE]; omega)] at hpage
      cases hpage
    exact ⟨-1, m', p', hcall, iff_of_false (fun h => hbroken h.consistent) hsome,
      iff_of_false hbroken hsome⟩

/-! ### Copying -/

/-- The page tables of the kernel half do not touch the user half. -/
theorem kmapLoop_entry {k : Nat} {m m' : Kmem φ} {d d' : Pgdir φ}
    (h : kmapLoop k m d = (some d', m')) : SameEntries d d' := by
  induction k generalizing m d with
  | zero =>
      obtain ⟨hd, -⟩ := Prod.mk.inj h
      obtain rfl := Option.some.inj hd
      exact fun _ => rfl
  | succ k ih =>
      unfold kmapLoop at h
      split at h
      · cases h
      · exact fun va => ih h va

/-- With enough free pages `setupkvm` does not fail. -/
theorem setupkvm_isSome {m : Kmem φ} (hm : kernelTables < m.freelist.length) :
    (setupkvm m).1.isSome := by
  have hloop : ∀ (k : Nat) (m : Kmem φ) (d : Pgdir φ), k ≤ m.freelist.length →
      (kmapLoop k m d).1.isSome := by
    intro k
    induction k with
    | zero => exact fun _ _ _ => rfl
    | succ k ih =>
        intro m d hk
        obtain ⟨freelist, data⟩ := m
        cases freelist with
        | nil => cases hk
        | cons r next => exact ih _ _ (Nat.le_of_succ_le_succ hk)
  obtain ⟨freelist, data⟩ := m
  cases freelist with
  | nil => cases hm
  | cons r next => exact hloop _ _ _ (Nat.le_of_lt_succ hm)

/-- The user half of a new page directory is empty. -/
theorem setupkvm_fits {m m' : Kmem φ} {d : Pgdir φ} (h : setupkvm m = (some d, m')) : Fits d 0 := by
  unfold setupkvm at h
  split at h
  · cases h
  · refine (kmapLoop_entry h).fits fun va _ => ?_
    simp [Pgdir.entry, Pgdir.walk]

/-- The loop of `copyuvm` on an address space without holes, with the pages
below `i` copied already: it does not panic, and a copy that it finishes has the
same pages. -/
theorem copyLoop_spec {pgdir : Pgdir φ} {sz : Nat} (hsz : sz ≤ KERNBASE)
    (hpages : Fits pgdir (PGROUNDUP sz)) (m : Kmem φ) (c : Pgdir φ) (i : Nat) (hi : i % PGSIZE = 0)
    (hle : i ≤ PGROUNDUP sz) (hc : Fits c i) :
    ∃ r m', copyLoop pgdir sz m c i = .ok (r, m') ∧ ∀ d, r = some d → Fits d (PGROUNDUP sz) := by
  have hround := pgroundup_eq hsz
  fun_induction copyLoop pgdir sz m c i with
  | case1 m c i hlt hwalk =>
      have hpresent := (hpages i (by omega)).mpr (by omega)
      rw [Pgdir.entry, hwalk] at hpresent
      cases hpresent
  | case2 m c i hlt hwalk =>
      have hpresent := (hpages i (by omega)).mpr (by omega)
      rw [Pgdir.entry, hwalk] at hpresent
      cases hpresent
  | case3 m c i hlt e hwalk hfail => exact ⟨none, _, rfl, fun d hd => by cases hd⟩
  | case4 m c i hlt e hwalk mem m₁ hmem err hmap =>
      have hnone : c.entry i = none := by
        simpa using mt (hc i (by omega)).mp (Nat.lt_irrefl i)
      obtain ⟨ok, m', c', heq, -⟩ := mappages_spec (m₁.memmove mem e.page) hnone mem e.w e.u
      rw [heq] at hmap
      cases hmap
  | case5 m c i hlt e hwalk mem m₁ hmem m₂ c₂ hmap =>
      exact ⟨none, _, rfl, fun d hd => by cases hd⟩
  | case6 m c i hlt e hwalk mem m₁ hmem m₂ c₂ hmap ih =>
      have hnone : c.entry i = none := by
        simpa using mt (hc i (by omega)).mp (Nat.lt_irrefl i)
      obtain ⟨ok, m', c', heq, hentry⟩ := mappages_spec (m₁.memmove mem e.page) hnone mem e.w e.u
      obtain ⟨rfl, rfl, rfl⟩ : ok = true ∧ m' = m₂ ∧ c' = c₂ := by simpa using heq.symm.trans hmap
      refine ih (aligned_add hi) ?_ (fits_map hi hc hentry).1
      simp only [PGSIZE] at hi ⊢
      omega
  | case7 m c i hlt =>
      have hend : i = PGROUNDUP sz := by
        simp only [PGSIZE] at hi
        omega
      refine ⟨some c, m, rfl, fun d hd => ?_⟩
      obtain rfl := Option.some.inj hd
      exact hend ▸ hc

/-- **`copyuvm`** of a consistent process does not panic; a copy is consistent. -/
theorem copyuvm_spec (m : Kmem φ) {p : Proc φ} (hp : Consistent p) :
    ∃ r m', copyuvm m p.pgdir p.sz = .ok (r, m') ∧ ∀ d, r = some d → Consistent ⟨d, p.sz⟩ := by
  unfold copyuvm
  split
  · exact ⟨none, _, rfl, fun d hd => by cases hd⟩
  · next d m₁ hsetup =>
    obtain ⟨r, m', hcopy, hfits⟩ := copyLoop_spec hp.size hp.pages m₁ d 0 (Nat.zero_mod _)
      (Nat.zero_le _) (setupkvm_fits hsetup)
    exact ⟨r, m', hcopy, fun d hd => ⟨hp.size, hfits d hd⟩⟩

/-- A process of some size without its first page cannot be copied. -/
theorem copyuvm_panics {m : Kmem φ} (hm : kernelTables < m.freelist.length) {p : Proc φ}
    (hsz : 0 < p.sz) (hpage : p.pgdir.entry 0 = none) :
    ∃ e, copyuvm m p.pgdir p.sz = .error e := by
  unfold copyuvm
  split
  · next hsetup =>
    have hsome := setupkvm_isSome hm
    rw [hsetup] at hsome
    cases hsome
  · rw [copyLoop, if_pos hsz]
    split
    · exact ⟨_, rfl⟩
    · exact ⟨_, rfl⟩
    · next e hwalk =>
      rw [Pgdir.entry, hwalk] at hpage
      cases hpage

/-! ### Runs -/

/-- A call of `growproc`, with the allocator as it finds it. -/
structure Sbrk (φ : Type) where
  n : Int
  isInt : IsInt n
  kmem : Kmem φ

/-- A process that calls `growproc`. -/
def sbrks (p : Proc φ) : Machine (Proc φ) (Sbrk φ) where
  init := p
  step q c := (growproc c.kmem q c.n).toOption.map fun r => r.2.2

/-- A `fork` would not panic in `copyuvm`. -/
def CanFork (p : Proc φ) : Prop := ∀ m : Kmem φ, ∃ r, copyuvm m p.pgdir p.sz = .ok r

/-- **`growproc` and the address space.** A call returns, and does what it
should exactly if it does not shrink the process to nothing. A run of such calls
keeps the process consistent, and able to `fork`; no other run does. -/
theorem growproc_sound (p : Proc φ) (hp : Consistent p) :
    (∀ c : Sbrk φ, ∃ ret m' p', growproc c.kmem p c.n = .ok (ret, m', p') ∧
      (GrowSound p ret p' ↔ ShrinksToSome p c.n)) ∧
    ∀ calls : List (Sbrk φ),
      (sbrks p).Always (fun q => Consistent q ∧ CanFork q) p calls ↔
        (sbrks p).Meets (fun q c => ShrinksToSome q c.n) p calls := by
  refine ⟨fun c => ?_, fun calls => ?_⟩
  · obtain ⟨ret, m', p', hcall, hsound, -⟩ := growproc_spec c.kmem hp c.isInt
    exact ⟨ret, m', p', hcall, hsound⟩
  · have hfork : ∀ q : Proc φ, Consistent q → Consistent q ∧ CanFork q := by
      intro q hq
      refine ⟨hq, fun m => ?_⟩
      obtain ⟨r, m', hcopy, -⟩ := copyuvm_spec m hq
      exact ⟨_, hcopy⟩
    have hgood : ∀ q (c : Sbrk φ), Consistent q → True → ShrinksToSome q c.n →
        ∃ t, (sbrks p).step q c = some t ∧ Consistent t := by
      intro q c hq _ hc
      obtain ⟨ret, m', q', hcall, -, hcons⟩ := growproc_spec c.kmem hq c.isInt
      refine ⟨q', ?_, hcons.mpr hc⟩
      simp only [sbrks, hcall]
      rfl
    have hbad : ∀ q (c : Sbrk φ) t, Consistent q → True → ¬ ShrinksToSome q c.n →
        (sbrks p).step q c = some t → ¬ (Consistent t ∧ CanFork t) := by
      intro q c t hq _ hc ht hcons
      obtain ⟨ret, m', q', hcall, -, hiff⟩ := growproc_spec c.kmem hq c.isInt
      simp only [sbrks, hcall] at ht
      obtain rfl := Option.some.inj ht
      exact hc (hiff.mp hcons.1)
    exact (sbrks p).always_iff_meets hfork hgood hbad hp
      ((sbrks p).meets_of_forall (fun _ _ => trivial) _ _)

/-- A process with one page. -/
def onePage : Proc Nat where
  sz := 4096
  pgdir :=
    { page := 0
      pde := fun i => if i = 0 then some ⟨1, fun j => if j = 0 then some ⟨2, true, true⟩ else none⟩
        else none
      kernel := [] }

theorem consistent_onePage : Consistent onePage := by
  refine ⟨by decide, fun va hva => ?_⟩
  have hround : PGROUNDUP onePage.sz = 4096 := rfl
  rw [hround]
  simp only [Pgdir.entry, Pgdir.walk, onePage, PDX, PTX, PTSIZE, PGSIZE]
  split_ifs with hdir
  · simp only [Option.map_some, Option.join_some]
    split_ifs with hpage
    · simp only [Option.isSome_some, true_iff]
      omega
    · simp only [Option.isSome_none, Bool.false_eq_true, false_iff]
      omega
  · simp only [Option.map_none, Option.join_none, Option.isSome_none, Bool.false_eq_true, false_iff]
    omega

/-- The process with one page gives back all but a byte of it, and grows again. -/
theorem growproc_sound_twice :
    (sbrks onePage).Always (fun q => Consistent q ∧ CanFork q) onePage
      [⟨-4095, by decide, ⟨[], fun _ _ => 0⟩⟩, ⟨8191, by decide, ⟨[3, 4], fun _ _ => 0⟩⟩] := by
  refine ((growproc_sound onePage consistent_onePage).2 _).mpr ⟨.inr ?_, fun q _ => ⟨.inr ?_, ?_⟩⟩
  · decide
  · change (q.sz : Int) + 8191 ≠ 0
    omega
  · exact fun _ _ => trivial

/-- `sbrk(-4096)` of the process with one page fails, the page is gone and the
size still 4096: a `fork` panics. -/
theorem growproc_unsound : ∃ m' p', growproc ⟨[], fun _ _ => 0⟩ onePage (-4096) = .ok (-1, m', p') ∧
    ¬ GrowSound onePage (-1) p' ∧
    ∃ e, copyuvm ⟨List.range 65, fun _ _ => 0⟩ p'.pgdir p'.sz = .error e := by
  obtain ⟨m', p', hcall, hsame, hnone⟩ :=
    growproc_all ⟨[], fun _ _ => 0⟩ consistent_onePage (by decide)
  have hsz : 0 < p'.sz := by
    rw [hsame]
    decide
  have hpage := hnone 0 (by decide)
  refine ⟨m', p', hcall, fun h => ?_, copyuvm_panics (by decide) hsz hpage⟩
  have hfirst := h.consistent.first_page (Nat.ne_of_gt hsz)
  rw [hpage] at hfirst
  cases hfirst

end OsCourse.Vm
