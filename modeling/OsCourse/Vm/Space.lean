import Mathlib.Tactic.SplitIfs
import OsCourse.Vm.Model

/-!
# OsCourse.Vm.Space

What the functions on user address spaces do, page by page. `Pgdir.entry` is the
page table entry of an address, whether its table is there or not; every
function is described by the entries it leaves behind.

`Fits d lim` says that among the addresses below `KERNBASE` exactly those below
`lim` are mapped: the state `growproc` keeps, for `lim = PGROUNDUP(sz)`.
-/

namespace OsCourse.Vm

variable {φ : Type}

/-- The entry for `va`: `none` if `PTE_P` is not set or there is no table. -/
def Pgdir.entry (d : Pgdir φ) (va : Nat) : Option (Pte φ) := (d.walk va).join

/-- Among the addresses below `KERNBASE` exactly those below `lim` are mapped. -/
def Fits (d : Pgdir φ) (lim : Nat) : Prop :=
  ∀ va, va < KERNBASE → ((d.entry va).isSome ↔ va < lim)

/-- Two page directories with the same user entries. -/
def SameEntries (d d' : Pgdir φ) : Prop := ∀ va, d'.entry va = d.entry va

theorem SameEntries.fits {d d' : Pgdir φ} {lim : Nat} (h : SameEntries d d') (hd : Fits d lim) :
    Fits d' lim := fun va hva => by rw [h va]; exact hd va hva

/-! ### Pages -/

/-- Two addresses share directory and table index iff they are on one page. -/
theorem same_page {va a : Nat} : PDX va = PDX a ∧ PTX va = PTX a ↔ va / PGSIZE = a / PGSIZE := by
  simp only [PDX, PTX, PTSIZE, PGSIZE]
  omega

theorem entry_setPte {d : Pgdir φ} {a : Nat} (ht : (d.pde (PDX a)).isSome) (e : Option (Pte φ))
    (va : Nat) : (d.setPte a e).entry va = if va / PGSIZE = a / PGSIZE then e else d.entry va := by
  obtain ⟨t, ht⟩ := Option.isSome_iff_exists.mp ht
  simp only [Pgdir.entry, Pgdir.walk, Pgdir.setPte, ht, Option.map_some]
  by_cases hdx : PDX va = PDX a
  · rw [hdx, Function.update_self, ht]
    by_cases hpx : PTX va = PTX a
    · rw [if_pos (same_page.mp ⟨hdx, hpx⟩)]
      simp [hpx]
    · rw [if_neg fun h => hpx (same_page.mpr h).2]
      simp [hpx]
  · rw [Function.update_of_ne hdx, if_neg fun h => hdx (same_page.mpr h).1]

theorem aligned_add {a : Nat} (h : a % PGSIZE = 0) : (a + PGSIZE) % PGSIZE = 0 := by
  rw [Nat.add_mod_right, h]

/-- Off the page of `a`, being past it is being past its first address. -/
theorem next_page_le {a va : Nat} (ha : a % PGSIZE = 0) (h : ¬ va / PGSIZE = a / PGSIZE) :
    a + PGSIZE ≤ va ↔ a ≤ va := by
  simp only [PGSIZE] at ha h ⊢
  omega

theorem isSome_pde_of_walk {d : Pgdir φ} {a : Nat} {e : Option (Pte φ)} (h : d.walk a = some e) :
    (d.pde (PDX a)).isSome := by
  obtain ⟨t, ht, -⟩ := Option.map_eq_some_iff.mp h
  rw [ht]
  rfl

/-- The entries on the page of `a` are what `walkpgdir` finds for `a`. -/
theorem entry_of_walk {d : Pgdir φ} {a va : Nat} (h : va / PGSIZE = a / PGSIZE) :
    d.entry va = (d.walk a).join := by
  obtain ⟨hdx, hpx⟩ := same_page.mpr h
  rw [Pgdir.entry, Pgdir.walk, Pgdir.walk, hdx, hpx]

/-- Without a page table none of its addresses is mapped. -/
theorem entry_of_no_table {d : Pgdir φ} {a va : Nat} (h : d.walk a = none) (hva : PDX va = PDX a) :
    d.entry va = none := by
  have ht : d.pde (PDX a) = none := Option.map_eq_none_iff.mp h
  rw [Pgdir.entry, Pgdir.walk, hva, ht]
  rfl

theorem pgroundup_eq {sz : Nat} (h : sz ≤ KERNBASE) :
    PGROUNDUP sz = (sz + 4095) / 4096 * 4096 := by
  simp only [PGROUNDUP, PGSIZE, KERNBASE] at *
  omega

variable [DecidableEq φ]

/-- `walkpgdir` with `alloc = 1` changes no entry. -/
theorem walkpgdir_spec {m m' : Kmem φ} {d d' : Pgdir φ} {va : Nat}
    (h : walkpgdir m d va = some (m', d')) : SameEntries d d' ∧ (d'.pde (PDX va)).isSome := by
  unfold walkpgdir at h
  split at h
  · next t ht =>
    obtain ⟨-, rfl⟩ := Prod.mk.inj (Option.some.inj h)
    exact ⟨fun _ => rfl, by rw [ht]; rfl⟩
  · next ht =>
    obtain ⟨⟨pgtab, m₁⟩, -, heq⟩ := Option.map_eq_some_iff.mp h
    obtain ⟨-, rfl⟩ := Prod.mk.inj heq
    refine ⟨fun a => ?_, by simp⟩
    simp only [Pgdir.entry, Pgdir.walk]
    by_cases ha : PDX a = PDX va
    · rw [ha, Function.update_self, ht]
      rfl
    · rw [Function.update_of_ne ha]

/-- `mappages` on a page that is not mapped: it maps the page, or has run out of
memory and changed no entry. -/
theorem mappages_spec (m : Kmem φ) {d : Pgdir φ} {a : Nat} (hnone : d.entry a = none) (page : φ)
    (w u : Bool) : ∃ ok m' d', mappages m d a page w u = .ok (ok, m', d') ∧
      if ok then ∀ va, d'.entry va = if va / PGSIZE = a / PGSIZE then some ⟨page, w, u⟩ else d.entry va
      else SameEntries d d' := by
  unfold mappages
  split
  · exact ⟨false, m, d, rfl, fun _ => rfl⟩
  · next m₁ d₁ hwalk =>
    obtain ⟨hsame, htable⟩ := walkpgdir_spec hwalk
    have hfree : ∀ e, d₁.walk a ≠ some (some e) := by
      intro e he
      have hentry := hsame a
      rw [hnone, Pgdir.entry, he] at hentry
      cases hentry
    split
    · next e he => exact absurd he (hfree e)
    · refine ⟨true, m₁, _, rfl, fun va => ?_⟩
      rw [entry_setPte htable, hsame va]

/-! ### Shrinking -/

/-- The loop of `deallocuvm` unmaps the pages from `a` to `oldsz`. -/
theorem deallocLoop_spec (oldsz : Nat) (m : Kmem φ) (d : Pgdir φ) (a : Nat) (ha : a % PGSIZE = 0)
    (va : Nat) : (deallocLoop oldsz m d a).2.entry va =
      if a ≤ va ∧ va / PGSIZE * PGSIZE < oldsz then none else d.entry va := by
  fun_induction deallocLoop oldsz m d a with
  | case1 m d a hlt hwalk ih =>
      rw [ih (by simp only [PTSIZE, PGSIZE]; omega)]
      -- the addresses jumped over have no table
      by_cases hdx : PDX va = PDX a
      · rw [entry_of_no_table hwalk hdx, ite_self, ite_self]
      · have hjump : (PDX a + 1) * PTSIZE ≤ va ↔ a ≤ va := by
          simp only [PDX, PTSIZE] at hdx ⊢
          omega
        simp only [hjump]
  | case2 m d a hlt hwalk ih =>
      rw [ih (aligned_add ha)]
      by_cases hpage : va / PGSIZE = a / PGSIZE
      · rw [entry_of_walk hpage, hwalk, Option.join_some, ite_self, ite_self]
      · simp only [next_page_le ha hpage]
  | case3 m d a hlt e hwalk ih =>
      rw [ih (aligned_add ha), entry_setPte (isSome_pde_of_walk hwalk)]
      by_cases hpage : va / PGSIZE = a / PGSIZE
      · have hin : a ≤ va ∧ va / PGSIZE * PGSIZE < oldsz := by
          simp only [PGSIZE] at ha hpage ⊢
          omega
        rw [if_pos hin, if_pos hpage, ite_self]
      · simp only [if_neg hpage, next_page_le ha hpage]
  | case4 m d a hlt =>
      rw [if_neg]
      simp only [PGSIZE] at ha ⊢
      omega

/-- `deallocuvm` down to `newsz` leaves the pages below `newsz` mapped. -/
theorem deallocuvm_spec (m : Kmem φ) {d : Pgdir φ} {oldsz newsz : Nat} (hlt : newsz < oldsz) :
    (deallocuvm m d oldsz newsz).1 = newsz ∧
      ∀ va, (deallocuvm m d oldsz newsz).2.2.entry va =
        if PGROUNDUP newsz ≤ va ∧ va / PGSIZE * PGSIZE < oldsz then none else d.entry va := by
  rw [deallocuvm, if_neg (Nat.not_le.mpr hlt)]
  refine ⟨rfl, fun va => deallocLoop_spec oldsz m d _ ?_ va⟩
  simp only [PGROUNDUP, PGSIZE]
  omega

/-- Shrinking to `newsz`. -/
theorem fits_deallocuvm (m : Kmem φ) {d : Pgdir φ} {oldsz newsz : Nat} (hlt : newsz < oldsz)
    (hold : oldsz ≤ KERNBASE) (hd : Fits d (PGROUNDUP oldsz)) :
    Fits (deallocuvm m d oldsz newsz).2.2 (PGROUNDUP newsz) := by
  intro va hva
  rw [(deallocuvm_spec m hlt).2 va]
  have hfits := hd va hva
  rw [pgroundup_eq hold] at hfits
  rw [pgroundup_eq (by omega)]
  split_ifs with h
  · simp only [Option.isSome_none, Bool.false_eq_true, false_iff]
    omega
  · rw [hfits]
    simp only [PGSIZE] at h
    omega

/-! ### Growing -/

omit [DecidableEq φ] in
/-- Mapping the page at `a`, when the pages below it are mapped. -/
theorem fits_map {d d' : Pgdir φ} {a : Nat} {e : Pte φ} (ha : a % PGSIZE = 0) (hd : Fits d a)
    (hmap : ∀ va, d'.entry va = if va / PGSIZE = a / PGSIZE then some e else d.entry va) :
    Fits d' (a + PGSIZE) ∧ ∀ va, va < a → d'.entry va = d.entry va := by
  refine ⟨fun va hva => ?_, fun va hva => ?_⟩
  · rw [hmap va]
    have hfits := hd va hva
    simp only [PGSIZE] at ha ⊢
    split_ifs with hpage
    · simp only [Option.isSome_some, true_iff]
      omega
    · rw [hfits]
      omega
  · rw [hmap va, if_neg]
    simp only [PGSIZE] at ha ⊢
    omega

/-- Taking back a growth that ran out of memory: the entries are what they were. -/
theorem undo_spec (m : Kmem φ) {d₀ d : Pgdir φ} {oldsz newsz a : Nat} (hold : oldsz ≤ KERNBASE)
    (hlo : PGROUNDUP oldsz ≤ a) (hlt : a < newsz) (hd₀ : Fits d₀ (PGROUNDUP oldsz)) (hd : Fits d a)
    (hsame : ∀ va, va < PGROUNDUP oldsz → d.entry va = d₀.entry va) :
    ∀ va, va < KERNBASE → (deallocuvm m d newsz oldsz).2.2.entry va = d₀.entry va := by
  intro va hva
  have hround := pgroundup_eq hold
  rw [(deallocuvm_spec m (by omega)).2 va]
  by_cases hlow : va < PGROUNDUP oldsz
  · rw [if_neg (by omega), hsame va hlow]
  · have hnone₀ : d₀.entry va = none := by
      simpa using mt (hd₀ va hva).mp hlow
    rw [hnone₀]
    split_ifs with h
    · rfl
    · -- past `newsz` nothing has been mapped yet
      have hpast : ¬ va < a := by
        simp only [PGSIZE] at h
        omega
      simpa using mt (hd va hva).mp hpast

/-- The loop of `allocuvm`, with the pages below `a` mapped already: either all
pages up to `newsz` get mapped, or the entries are what they were at the start. -/
theorem allocLoop_spec {d₀ : Pgdir φ} {oldsz newsz : Nat} (hold : oldsz ≤ KERNBASE)
    (hnew : newsz < KERNBASE) (hd₀ : Fits d₀ (PGROUNDUP oldsz)) (m : Kmem φ) (d : Pgdir φ) (a : Nat)
    (ha : a % PGSIZE = 0) (hlo : PGROUNDUP oldsz ≤ a) (hhi : a ≤ PGROUNDUP newsz) (hd : Fits d a)
    (hsame : ∀ va, va < PGROUNDUP oldsz → d.entry va = d₀.entry va) :
    ∃ sz m' d', allocLoop oldsz newsz m d a = .ok (sz, m', d') ∧
      (sz = 0 ∧ (∀ va, va < KERNBASE → d'.entry va = d₀.entry va) ∨
        sz = newsz ∧ Fits d' (PGROUNDUP newsz)) := by
  have hround := pgroundup_eq (Nat.le_of_lt hnew)
  fun_induction allocLoop oldsz newsz m d a with
  | case1 m d a hlt hfail =>
      exact ⟨_, _, _, rfl, .inl ⟨rfl, undo_spec m hold hlo hlt hd₀ hd hsame⟩⟩
  | case2 m d a hlt mem m₁ hmem e hmap =>
      have hnone : d.entry a = none := by
        simpa using mt (hd a (by omega)).mp (Nat.lt_irrefl a)
      obtain ⟨ok, m', d', heq, -⟩ := mappages_spec (m₁.memset mem 0) hnone mem true true
      rw [heq] at hmap
      cases hmap
  | case3 m d a hlt mem m₁ hmem m₂ d₂ hmap sz m₃ d₃ hundo =>
      have hnone : d.entry a = none := by
        simpa using mt (hd a (by omega)).mp (Nat.lt_irrefl a)
      obtain ⟨ok, m', d', heq, hsame'⟩ := mappages_spec (m₁.memset mem 0) hnone mem true true
      obtain ⟨rfl, rfl, rfl⟩ : ok = false ∧ m' = m₂ ∧ d' = d₂ := by simpa using heq.symm.trans hmap
      have hentries := undo_spec m' hold hlo hlt hd₀ (hsame'.fits hd)
        fun va hva => (hsame' va).trans (hsame va hva)
      rw [hundo] at hentries
      exact ⟨_, _, _, rfl, .inl ⟨rfl, hentries⟩⟩
  | case4 m d a hlt mem m₁ hmem m₂ d₂ hmap ih =>
      have hnone : d.entry a = none := by
        simpa using mt (hd a (by omega)).mp (Nat.lt_irrefl a)
      obtain ⟨ok, m', d', heq, hentry⟩ := mappages_spec (m₁.memset mem 0) hnone mem true true
      obtain ⟨rfl, rfl, rfl⟩ : ok = true ∧ m' = m₂ ∧ d' = d₂ := by simpa using heq.symm.trans hmap
      obtain ⟨hfits, hbelow⟩ := fits_map ha hd hentry
      refine ih (aligned_add ha) (by omega) ?_ hfits fun va hva => ?_
      · simp only [PGSIZE] at ha ⊢
        omega
      · rw [hbelow va (by omega), hsame va hva]
  | case5 m d a hlt =>
      have hend : a = PGROUNDUP newsz := by
        simp only [PGSIZE] at ha
        omega
      exact ⟨_, _, _, rfl, .inr ⟨rfl, hend ▸ hd⟩⟩

/-- The pages that the loop of `allocuvm` maps are user pages. -/
theorem allocLoop_user {oldsz newsz start : Nat} (hnew : newsz < KERNBASE) (m : Kmem φ)
    (d : Pgdir φ) (a : Nat) (ha : a % PGSIZE = 0) (hd : Fits d a)
    (huser : ∀ va, start ≤ va → va < a → ∃ e, d.entry va = some e ∧ e.u = true) {sz : Nat}
    {m' : Kmem φ} {d' : Pgdir φ} (h : allocLoop oldsz newsz m d a = .ok (sz, m', d'))
    (hsz : sz ≠ 0) : ∀ va, start ≤ va → va < newsz → ∃ e, d'.entry va = some e ∧ e.u = true := by
  fun_induction allocLoop oldsz newsz m d a with
  | case1 m d a hlt hfail =>
      obtain ⟨rfl, -⟩ := Prod.mk.inj (Except.ok.inj h)
      exact absurd rfl hsz
  | case2 m d a hlt mem m₁ hmem e hmap => cases h
  | case3 m d a hlt mem m₁ hmem m₂ d₂ hmap sz m₃ d₃ hundo =>
      obtain ⟨rfl, -⟩ := Prod.mk.inj (Except.ok.inj h)
      exact absurd rfl hsz
  | case4 m d a hlt mem m₁ hmem m₂ d₂ hmap ih =>
      have hnone : d.entry a = none := by
        simpa using mt (hd a (by omega)).mp (Nat.lt_irrefl a)
      obtain ⟨ok, m', d', heq, hentry⟩ := mappages_spec (m₁.memset mem 0) hnone mem true true
      obtain ⟨rfl, rfl, rfl⟩ : ok = true ∧ m' = m₂ ∧ d' = d₂ := by simpa using heq.symm.trans hmap
      obtain ⟨hfits, hbelow⟩ := fits_map ha hd hentry
      refine ih (aligned_add ha) hfits (fun va hlo hva => ?_) h
      by_cases hold : va < a
      · rw [hbelow va hold]
        exact huser va hlo hold
      · have hpage : va / PGSIZE = a / PGSIZE := by
          simp only [PGSIZE] at ha hva ⊢
          omega
        exact ⟨_, (hentry va).trans (if_pos hpage), rfl⟩
  | case5 m d a hlt =>
      obtain ⟨-, heq⟩ := Prod.mk.inj (Except.ok.inj h)
      obtain ⟨-, rfl⟩ := Prod.mk.inj heq
      exact fun va hlo hva => huser va hlo (by omega)

end OsCourse.Vm
