import OsCourse.Vm.Conserve
import OsCourse.Vm.Growproc

/-!
# OsCourse.Vm.Copy

`copyuvm` page by page: the copy has the contents and the flags of the original,
on pages that were free; and when memory runs out these pages are free again.
-/

namespace OsCourse.Vm

open Lib

variable {φ : Type}

/-- Below `lim`, `c` maps copies of the pages that `pgdir` maps: same flags, and
the contents that the original had in `m₀`. -/
def Copied (m₀ : Kmem φ) (pgdir : Pgdir φ) (m : Kmem φ) (c : Pgdir φ) (lim : Nat) : Prop :=
  ∀ va, va < lim → ∀ e, pgdir.entry va = some e →
    ∃ e', c.entry va = some e' ∧ e'.w = e.w ∧ e'.u = e.u ∧ m.data e'.page = m₀.data e.page

/-- An address space none of whose user pages is in `s`. -/
def Apart (pgdir : Pgdir φ) (s : Multiset φ) : Prop :=
  ∀ va, va < KERNBASE → ∀ e, pgdir.entry va = some e → e.page ∉ s

theorem Apart.mono {pgdir : Pgdir φ} {s t : Multiset φ} (h : Apart pgdir t) (hst : s ⊆ t) :
    Apart pgdir s := fun va hva e he hs => h va hva e he (hst hs)

theorem notMem_free_of_mapped {m : Kmem φ} {c : Pgdir φ} (hnodup : (total m c).Nodup) {va : Nat}
    (hva : va < KERNBASE) {e : Pte φ} (he : c.entry va = some e) : e.page ∉ m.free := by
  have hdisj := (Multiset.nodup_add.mp hnodup).2.2
  intro hfree
  refine Multiset.disjoint_left.mp hdisj hfree ?_
  exact Multiset.mem_of_le (mapped_le_pages c) (mapped_of_entry hva he)

variable [DecidableEq φ]

/-- One round of the loop of `copyuvm` that succeeds. -/
theorem copy_page {m m₁ m₂ : Kmem φ} {c c₂ : Pgdir φ} {i : Nat} {e : Pte φ} {mem : φ}
    (hi : i < KERNBASE) (hmem : m.kalloc = some (mem, m₁))
    (hmap : mappages (m₁.memmove mem e.page) c i mem e.w e.u = .ok (true, m₂, c₂)) :
    total m₂ c₂ = total m c ∧ Taken m m₂ ∧
      ((total m c).Nodup → m₂.data mem = m.data e.page) := by
  obtain ⟨hfree, hdata⟩ := Kmem.kalloc_spec hmem
  obtain ⟨hsum, htaken⟩ := mappages_conserve hi hmap
  have hfirst : Taken m (m₁.memmove mem e.page) := Kmem.taken_memmove hmem e.page
  have htotal : total m c = {mem} + total (m₁.memmove mem e.page) c := by
    rw [total, total, hfree, Kmem.free_memmove, add_assoc]
  refine ⟨?_, hfirst.trans htaken, fun hnodup => ?_⟩
  · rw [hsum, if_pos rfl, htotal, add_comm]
  · -- the new page is not free any more
    have hused : mem ∉ (m₁.memmove mem e.page).free := by
      rw [htotal, Multiset.singleton_add, Multiset.nodup_cons] at hnodup
      exact fun h => hnodup.1 (Multiset.mem_of_le (free_le_total _ c) h)
    rw [htaken.data mem hused, ← hdata]
    exact Function.update_self ..

/-- The loop of `copyuvm` neither loses nor invents a page. -/
theorem copyLoop_made {pgdir : Pgdir φ} {sz : Nat} (hsz : sz ≤ KERNBASE) (m : Kmem φ)
    (c : Pgdir φ) (i : Nat) {r : Option (Pgdir φ)} {m' : Kmem φ}
    (h : copyLoop pgdir sz m c i = .ok (r, m')) : Made (total m c) m r m' := by
  fun_induction copyLoop pgdir sz m c i with
  | case1 m c i hlt hwalk => cases h
  | case2 m c i hlt hwalk => cases h
  | case3 m c i hlt e hwalk hfail =>
      obtain ⟨rfl, rfl⟩ : none = r ∧ freevm m c = m' := by simpa using h
      exact made_freevm m c
  | case4 m c i hlt e hwalk mem m₁ hmem err hmap => cases h
  | case5 m c i hlt e hwalk mem m₁ hmem m₂ c₂ hmap =>
      obtain ⟨rfl, rfl⟩ : none = r ∧ freevm (m₂.kfree mem) c₂ = m' := by simpa using h
      obtain ⟨hfree, -⟩ := Kmem.kalloc_spec hmem
      obtain ⟨hsum, htaken⟩ := mappages_conserve (Nat.lt_of_lt_of_le hlt hsz) hmap
      rw [if_neg (by decide), add_zero] at hsum
      have htotal : total (m₂.kfree mem) c₂ = total m c := by
        rw [total, Kmem.free_kfree, add_assoc]
        change {mem} + total m₂ c₂ = _
        rw [hsum, total, total, hfree, Kmem.free_memmove, add_assoc]
      have hfirst : Taken m (m₁.memmove mem e.page) := Kmem.taken_memmove hmem e.page
      have hin : mem ∈ total m c := by
        rw [total, hfree]
        exact Multiset.mem_add.mpr (.inl (Multiset.mem_add.mpr (.inl (Multiset.mem_singleton_self _))))
      have hmade := made_freevm (m₂.kfree mem) c₂
      rw [htotal] at hmade
      refine hmade.after (Kept.trans ?_ (m₂.kept_kfree hin))
      exact (hfirst.trans htaken).data.mono (Multiset.subset_of_le (free_le_total m c))
  | case6 m c i hlt e hwalk mem m₁ hmem m₂ c₂ hmap ih =>
      obtain ⟨hsum, htaken, -⟩ := copy_page (Nat.lt_of_lt_of_le hlt hsz) hmem hmap
      have hmade := ih h
      rw [hsum] at hmade
      exact hmade.after (htaken.data.mono (Multiset.subset_of_le (free_le_total m c)))
  | case7 m c i hlt =>
      obtain ⟨rfl, rfl⟩ : some c = r ∧ m = m' := by simpa using h
      exact ⟨rfl, Kept.refl _ m⟩

/-- The loop of `copyuvm` copies: the pages below `i` are copied already. -/
theorem copyLoop_copied {m₀ : Kmem φ} {pgdir : Pgdir φ} {sz : Nat} (hsz : sz ≤ KERNBASE)
    (m : Kmem φ) (c : Pgdir φ) (i : Nat) (hi : i % PGSIZE = 0) (hc : Fits c i)
    (hnodup : (total m c).Nodup) (hapart : Apart pgdir (total m c)) (hkept : Kept (total m c) m₀ m)
    (hcopied : Copied m₀ pgdir m c i) {d : Pgdir φ} {m' : Kmem φ}
    (h : copyLoop pgdir sz m c i = .ok (some d, m')) : Copied m₀ pgdir m' d sz := by
  fun_induction copyLoop pgdir sz m c i with
  | case1 m c i hlt hwalk => cases h
  | case2 m c i hlt hwalk => cases h
  | case3 m c i hlt e hwalk hfail => cases h
  | case4 m c i hlt e hwalk mem m₁ hmem err hmap => cases h
  | case5 m c i hlt e hwalk mem m₁ hmem m₂ c₂ hmap => cases h
  | case6 m c i hlt e hwalk mem m₁ hmem m₂ c₂ hmap ih =>
      have hik := Nat.lt_of_lt_of_le hlt hsz
      have hnone : c.entry i = none := by
        simpa using mt (hc i hik).mp (Nat.lt_irrefl i)
      obtain ⟨ok, m₃, c₃, heq, hentry⟩ := mappages_spec (m₁.memmove mem e.page) hnone mem e.w e.u
      obtain ⟨rfl, rfl, rfl⟩ : ok = true ∧ m₃ = m₂ ∧ c₃ = c₂ := by simpa using heq.symm.trans hmap
      obtain ⟨hsum, htaken, hpage⟩ := copy_page hik hmem hmap
      have hfits := fits_map hi hc hentry
      have hstep : Kept (total m c) m m₃ :=
        htaken.data.mono (Multiset.subset_of_le (free_le_total m c))
      rw [← hsum] at hapart hstep
      refine ih (aligned_add hi) hfits.1 (hsum ▸ hnodup) hapart
        (Kept.trans (hsum ▸ hkept) hstep) (fun va hva e₁ he₁ => ?_) h
      by_cases hlow : va < i
      · -- copied before: its page is not free
        obtain ⟨e', he', hw, hu, hdata⟩ := hcopied va hlow e₁ he₁
        have hused := notMem_free_of_mapped hnodup (Nat.lt_trans hlow hik) he'
        exact ⟨e', (hfits.2 va hlow).trans he', hw, hu, (htaken.data _ hused).trans hdata⟩
      · have hsame : va / PGSIZE = i / PGSIZE := by
          simp only [PGSIZE] at hi hva ⊢
          omega
        have he : pgdir.entry va = some e := by
          rw [entry_of_walk hsame, hwalk]
          rfl
        obtain rfl : e = e₁ := Option.some.inj (he.symm.trans he₁)
        have hva' : va < KERNBASE := by
          simp only [PGSIZE, KERNBASE] at hi hik hva ⊢
          omega
        refine ⟨⟨mem, e.w, e.u⟩, ?_, rfl, rfl, ?_⟩
        · rw [hentry va]
          exact if_pos hsame
        · rw [hpage hnodup]
          exact hkept _ (hsum ▸ hapart va hva' e he)
  | case7 m c i hlt =>
      obtain ⟨rfl, rfl⟩ : c = d ∧ m = m' := by simpa using h
      exact fun va hva => hcopied va (Nat.lt_of_lt_of_le hva (Nat.le_of_not_lt hlt))

/-- What `copyuvm` leaves. -/
theorem copyuvm_copies {m m' : Kmem φ} {p : Proc φ} (hp : Consistent p) {r : Option (Pgdir φ)}
    (h : copyuvm m p.pgdir p.sz = .ok (r, m')) :
    Made m.free m r m' ∧ (m.free.Nodup → Apart p.pgdir m.free → ∀ d, r = some d →
      Copied m p.pgdir m' d p.sz) := by
  unfold copyuvm at h
  split at h
  · next m₁ hsetup =>
    obtain ⟨rfl, rfl⟩ : none = r ∧ m₁ = m' := by simpa using h
    exact ⟨setupkvm_made hsetup, fun _ _ d hd => by cases hd⟩
  · next d₁ m₁ hsetup =>
    obtain ⟨hpages, hkept⟩ := setupkvm_made hsetup
    have htotal : total m₁ d₁ = m.free := hpages
    have hmade := copyLoop_made hp.size m₁ d₁ 0 h
    rw [htotal] at hmade
    refine ⟨hmade.after hkept, ?_⟩
    rintro hnodup hapart d rfl
    rw [← htotal] at hnodup hapart hkept
    exact copyLoop_copied hp.size m₁ d₁ 0 (Nat.zero_mod _) (setupkvm_fits hsetup) hnodup hapart hkept
      (fun va hva => absurd hva (Nat.not_lt_zero va)) h

end OsCourse.Vm
