import Mathlib.Tactic.Abel
import OsCourse.Lib.Held
import OsCourse.Vm.Space

/-!
# OsCourse.Vm.Conserve

No page is lost, freed twice or used twice by the functions on address spaces.

The pages of a page directory are the user pages it maps, the pages of its page
tables and its own page. `total m d` adds the free pages to them, as a multiset:
a page that is both free and mapped counts twice. Every function keeps this sum,
up to the page that `mappages` is given, and writes on none but these pages.
-/

namespace OsCourse.Vm

open Lib

variable {φ : Type}

/-- The free pages. -/
def Kmem.free (m : Kmem φ) : Multiset φ := m.freelist

/-- Pages below `KERNBASE`. -/
def userPages : Nat := KERNBASE / PGSIZE

/-- Page tables below `KERNBASE`. -/
def userTables : Nat := KERNBASE / PTSIZE

namespace Pgdir

/-- The user pages. -/
def mapped (d : Pgdir φ) : Multiset φ :=
  held (fun k => (d.entry (k * PGSIZE)).map (·.page)) userPages

/-- The pages of the page tables of the user half. -/
def tables (d : Pgdir φ) : Multiset φ := held (fun k => (d.pde k).map (·.page)) userTables

/-- All pages of an address space. -/
def pages (d : Pgdir φ) : Multiset φ := d.mapped + d.tables + d.kernel + {d.page}

end Pgdir

/-- The free pages and those of an address space. -/
def total (m : Kmem φ) (d : Pgdir φ) : Multiset φ := m.free + d.pages

/-- Pages not in `s` have kept their contents. -/
def Kept (s : Multiset φ) (m m' : Kmem φ) : Prop := ∀ x, x ∉ s → m'.data x = m.data x

theorem Kept.refl (s : Multiset φ) (m : Kmem φ) : Kept s m m := fun _ _ => rfl

theorem Kept.trans {s : Multiset φ} {m₁ m₂ m₃ : Kmem φ} (h₁ : Kept s m₁ m₂) (h₂ : Kept s m₂ m₃) :
    Kept s m₁ m₃ := fun x hx => (h₂ x hx).trans (h₁ x hx)

theorem Kept.mono {s t : Multiset φ} {m m' : Kmem φ} (h : Kept s m m') (hst : s ⊆ t) :
    Kept t m m' := fun x hx => h x fun hs => hx (hst hs)

/-- Pages were taken off the free list; only these may have been written on. -/
structure Taken (m m' : Kmem φ) : Prop where
  free : m'.free ≤ m.free
  data : Kept m.free m m'

theorem Taken.refl (m : Kmem φ) : Taken m m := ⟨le_rfl, Kept.refl _ m⟩

theorem Taken.trans {m₁ m₂ m₃ : Kmem φ} (h₁ : Taken m₁ m₂) (h₂ : Taken m₂ m₃) : Taken m₁ m₃ :=
  ⟨h₂.free.trans h₁.free, h₁.data.trans (h₂.data.mono (Multiset.subset_of_le h₁.free))⟩

/-! ### The allocator -/

section Kmem

variable [DecidableEq φ]

@[simp] theorem Kmem.free_memset (m : Kmem φ) (v : φ) (b : UInt8) : (m.memset v b).free = m.free :=
  rfl

@[simp] theorem Kmem.free_memmove (m : Kmem φ) (dst src : φ) : (m.memmove dst src).free = m.free :=
  rfl

@[simp] theorem Kmem.free_kfree (m : Kmem φ) (v : φ) : (m.kfree v).free = {v} + m.free := rfl

theorem Kmem.kept_kfree {s : Multiset φ} (m : Kmem φ) {v : φ} (hv : v ∈ s) :
    Kept s m (m.kfree v) := fun _ hx => Function.update_of_ne (ne_of_mem_of_not_mem hv hx).symm _ _

omit [DecidableEq φ] in
/-- `kalloc` takes a page and writes nothing. -/
theorem Kmem.kalloc_spec {m m' : Kmem φ} {r : φ} (h : m.kalloc = some (r, m')) :
    m.free = {r} + m'.free ∧ m'.data = m.data := by
  unfold Kmem.kalloc at h
  split at h
  · cases h
  · next r₁ next hlist =>
    obtain ⟨rfl, rfl⟩ := Prod.mk.inj (Option.some.inj h)
    refine ⟨?_, rfl⟩
    rw [Kmem.free, hlist]
    rfl

omit [DecidableEq φ] in
/-- A page is allocated and written on. -/
theorem Kmem.kalloc_taken {m m' : Kmem φ} {r : φ} (h : m.kalloc = some (r, m')) {m'' : Kmem φ}
    (hfree : m''.free = m'.free) (hdata : ∀ x, x ≠ r → m''.data x = m'.data x) : Taken m m'' := by
  obtain ⟨hm, hsame⟩ := Kmem.kalloc_spec h
  refine ⟨?_, fun x hx => ?_⟩
  · rw [hfree, hm]
    exact Multiset.le_add_left _ _
  · rw [hdata x, hsame]
    rintro rfl
    refine hx ?_
    rw [hm]
    exact Multiset.mem_add.mpr (.inl (Multiset.mem_singleton_self _))

/-- A page is allocated and filled. -/
theorem Kmem.taken_memset {m m' : Kmem φ} {r : φ} (h : m.kalloc = some (r, m')) (b : UInt8) :
    Taken m (m'.memset r b) :=
  Kmem.kalloc_taken h rfl fun _ hx => Function.update_of_ne hx _ _

/-- A page is allocated for a copy. -/
theorem Kmem.taken_memmove {m m' : Kmem φ} {r : φ} (h : m.kalloc = some (r, m')) (src : φ) :
    Taken m (m'.memmove r src) :=
  Kmem.kalloc_taken h rfl fun _ hx => Function.update_of_ne hx _ _

theorem Kmem.kfree_foldl (vs : List φ) (m : Kmem φ) :
    (vs.foldl Kmem.kfree m).free = m.free + (vs : Multiset φ) ∧
      Kept (m.free + (vs : Multiset φ)) m (vs.foldl Kmem.kfree m) := by
  induction vs generalizing m with
  | nil => exact ⟨(add_zero _).symm, Kept.refl _ m⟩
  | cons v vs ih =>
      obtain ⟨hfree, hdata⟩ := ih (m.kfree v)
      have hsum : (m.kfree v).free + (vs : Multiset φ) = m.free + ↑(v :: vs) := by
        rw [Kmem.free_kfree, ← Multiset.cons_coe, ← Multiset.singleton_add]
        abel
      rw [hsum] at hfree hdata
      refine ⟨hfree, (m.kept_kfree ?_).trans hdata⟩
      exact Multiset.mem_add.mpr (.inr (List.mem_cons_self ..))

end Kmem

/-! ### Page directories -/

theorem entry_page (d : Pgdir φ) (va : Nat) : d.entry (va / PGSIZE * PGSIZE) = d.entry va :=
  entry_of_walk (Nat.mul_div_cancel _ (by decide))

theorem page_lt {va : Nat} (h : va < KERNBASE) : va / PGSIZE < userPages := by
  simp only [userPages, KERNBASE, PGSIZE] at *
  omega

theorem table_lt {va : Nat} (h : va < KERNBASE) : PDX va < userTables := by
  simp only [userTables, KERNBASE, PTSIZE, PDX] at *
  omega

theorem userPages_le {k : Nat} (h : k < userPages) : k * PGSIZE < KERNBASE := by
  simp only [userPages, KERNBASE, PGSIZE] at *
  omega

theorem mem_mapped {d : Pgdir φ} {x : φ} :
    x ∈ d.mapped ↔ ∃ va, va < KERNBASE ∧ ∃ e, d.entry va = some e ∧ e.page = x := by
  refine mem_held.trans ⟨fun h => ?_, fun h => ?_⟩
  · obtain ⟨k, hk, hentry⟩ := h
    obtain ⟨e, he, hpage⟩ := Option.map_eq_some_iff.mp hentry
    exact ⟨_, userPages_le hk, e, he, hpage⟩
  · obtain ⟨va, hva, e, he, hpage⟩ := h
    exact ⟨_, page_lt hva, by rw [entry_page, he, Option.map_some, hpage]⟩

theorem mapped_of_entry {d : Pgdir φ} {va : Nat} {e : Pte φ} (hva : va < KERNBASE)
    (h : d.entry va = some e) : e.page ∈ d.mapped := mem_mapped.mpr ⟨va, hva, e, h, rfl⟩

theorem mapped_le_pages (d : Pgdir φ) : d.mapped ≤ d.pages := by
  rw [Pgdir.pages, add_assoc, add_assoc]
  exact Multiset.le_add_right _ _

theorem mapped_le_total (m : Kmem φ) (d : Pgdir φ) : d.mapped ≤ total m d :=
  (mapped_le_pages d).trans (Multiset.le_add_left _ _)

theorem free_le_total (m : Kmem φ) (d : Pgdir φ) : m.free ≤ total m d := Multiset.le_add_right _ _

theorem SameEntries.mapped {d d' : Pgdir φ} (h : SameEntries d d') : d'.mapped = d.mapped :=
  held_congr fun _ _ => congrArg _ (h _)

/-- Address spaces that agree off the page of `a`. -/
theorem mapped_change {d d' : Pgdir φ} {a : Nat} (ha : a < KERNBASE)
    (hoff : ∀ va, ¬ va / PGSIZE = a / PGSIZE → d'.entry va = d.entry va) :
    d'.mapped + one ((d.entry a).map (·.page)) = d.mapped + one ((d'.entry a).map (·.page)) := by
  have hchange := held_change (f := fun k => (d.entry (k * PGSIZE)).map (·.page))
    (g := fun k => (d'.entry (k * PGSIZE)).map (·.page)) (page_lt ha) fun k _ hk => by
      have hpage : ¬ k * PGSIZE / PGSIZE = a / PGSIZE := by
        rwa [Nat.mul_div_cancel _ (by decide)]
      rw [hoff _ hpage]
  simp only [entry_page] at hchange
  exact hchange

/-- Changing an entry leaves the page tables where they are. -/
theorem tables_setPte (d : Pgdir φ) (a : Nat) (e : Option (Pte φ)) :
    (d.setPte a e).tables = d.tables := by
  refine held_congr fun k _ => ?_
  simp only [Pgdir.setPte]
  by_cases hk : k = PDX a
  · rw [hk, Function.update_self, Option.map_map]
    rfl
  · rw [Function.update_of_ne hk]

/-- Changing an entry. -/
theorem pages_setPte {d : Pgdir φ} {a : Nat} (ha : a < KERNBASE) (ht : (d.pde (PDX a)).isSome)
    (e : Option (Pte φ)) : (d.setPte a e).pages + one ((d.entry a).map (·.page)) =
      d.pages + one (e.map (·.page)) := by
  have hoff : ∀ va, ¬ va / PGSIZE = a / PGSIZE → (d.setPte a e).entry va = d.entry va :=
    fun va hva => by rw [entry_setPte ht, if_neg hva]
  have hchange := mapped_change ha hoff
  rw [entry_setPte ht, if_pos rfl] at hchange
  have hsum : (d.setPte a e).pages =
      (d.setPte a e).mapped + (d.tables + d.kernel + {d.page}) := by
    rw [Pgdir.pages, tables_setPte, add_assoc, add_assoc, add_assoc]
    rfl
  have hsum' : d.pages = d.mapped + (d.tables + d.kernel + {d.page}) := by
    rw [Pgdir.pages, add_assoc, add_assoc, add_assoc]
  rw [hsum, hsum', add_right_comm, hchange, add_right_comm]

variable [DecidableEq φ]

/-- `walkpgdir` turns a free page into a page table, or changes nothing. -/
theorem walkpgdir_conserve {m m' : Kmem φ} {d d' : Pgdir φ} {va : Nat} (hva : va < KERNBASE)
    (h : walkpgdir m d va = some (m', d')) : total m' d' = total m d ∧ Taken m m' := by
  have hsame := (walkpgdir_spec h).1.mapped
  unfold walkpgdir at h
  split at h
  · obtain ⟨rfl, rfl⟩ := Prod.mk.inj (Option.some.inj h)
    exact ⟨rfl, Taken.refl m⟩
  · next hnone =>
    obtain ⟨⟨pgtab, m₁⟩, hmem, heq⟩ := Option.map_eq_some_iff.mp h
    obtain ⟨rfl, rfl⟩ := Prod.mk.inj heq
    obtain ⟨hfree, hdata⟩ := Kmem.kalloc_spec hmem
    have htables := held_fill (f := fun k => (d.pde k).map (·.page))
      (g := fun k => (Function.update d.pde (PDX va) (some ⟨pgtab, fun _ => none⟩) k).map (·.page))
      (table_lt hva) (fun j _ hj => by rw [Function.update_of_ne hj]) (by rw [hnone]; rfl)
    rw [Function.update_self] at htables
    refine ⟨?_, Kmem.taken_memset hmem 0⟩
    rw [total, total, Pgdir.pages, Pgdir.pages, hsame, hfree, Kmem.free_memset, Pgdir.tables,
      htables]
    simp only [Option.map_some, one_some, Pgdir.tables]
    abel

/-- `mappages` adds the page it is given, if it succeeds. -/
theorem mappages_conserve {m m' : Kmem φ} {d d' : Pgdir φ} {a : Nat} {page : φ} {w u ok : Bool}
    (ha : a < KERNBASE) (h : mappages m d a page w u = .ok (ok, m', d')) :
    total m' d' = total m d + (if ok then {page} else 0) ∧ Taken m m' := by
  unfold mappages at h
  split at h
  · obtain ⟨rfl, rfl, rfl⟩ : false = ok ∧ m = m' ∧ d = d' := by simpa using h
    exact ⟨(add_zero _).symm, Taken.refl m⟩
  · next m₁ d₁ hwalk =>
    obtain ⟨hsum, htaken⟩ := walkpgdir_conserve ha hwalk
    obtain ⟨-, htable⟩ := walkpgdir_spec hwalk
    split at h
    · cases h
    · next hfree =>
      obtain ⟨rfl, rfl, rfl⟩ : true = ok ∧ m₁ = m' ∧ d₁.setPte a (some ⟨page, w, u⟩) = d' := by
        simpa using h
      have hnone : d₁.entry a = none := by
        rw [Pgdir.entry]
        cases he : d₁.walk a with
        | none => rfl
        | some e =>
            cases e with
            | none => rfl
            | some e => exact absurd he (hfree e)
      have hpages := pages_setPte ha htable (some ⟨page, w, u⟩)
      rw [hnone] at hpages
      refine ⟨?_, htaken⟩
      rw [← hsum, total, total, add_assoc, if_pos rfl]
      exact congrArg _ ((add_zero _).symm.trans hpages)

/-! ### Freeing -/

/-- The loop of `deallocuvm` frees the pages it unmaps. -/
theorem deallocLoop_conserve {oldsz : Nat} (hold : oldsz ≤ KERNBASE) (m : Kmem φ) (d : Pgdir φ)
    (a : Nat) :
    total (deallocLoop oldsz m d a).1 (deallocLoop oldsz m d a).2 = total m d ∧
      Kept (total m d) m (deallocLoop oldsz m d a).1 := by
  fun_induction deallocLoop oldsz m d a with
  | case1 m d a hlt hwalk ih => exact ih
  | case2 m d a hlt hwalk ih => exact ih
  | case3 m d a hlt e hwalk ih =>
      have hentry : d.entry a = some e := by
        rw [Pgdir.entry, hwalk]
        rfl
      have hsum : total (m.kfree e.page) (d.setPte a none) = total m d := by
        have hpages := pages_setPte (Nat.lt_of_lt_of_le hlt hold) (isSome_pde_of_walk hwalk) none
        rw [hentry, Option.map_some, one_some, Option.map_none, one_none, add_zero] at hpages
        rw [total, total, ← hpages, Kmem.free_kfree]
        abel
      rw [hsum] at ih
      refine ⟨ih.1, (m.kept_kfree ?_).trans ih.2⟩
      exact Multiset.mem_of_le (mapped_le_total m d)
        (mapped_of_entry (Nat.lt_of_lt_of_le hlt hold) hentry)
  | case4 m d a hlt => exact ⟨rfl, Kept.refl _ m⟩

/-- **`deallocuvm`** frees the pages it unmaps. -/
theorem deallocuvm_conserve {oldsz : Nat} (hold : oldsz ≤ KERNBASE) (m : Kmem φ) (d : Pgdir φ)
    (newsz : Nat) :
    total (deallocuvm m d oldsz newsz).2.1 (deallocuvm m d oldsz newsz).2.2 = total m d ∧
      Kept (total m d) m (deallocuvm m d oldsz newsz).2.1 := by
  unfold deallocuvm
  split
  · exact ⟨rfl, Kept.refl _ m⟩
  · exact deallocLoop_conserve hold m d _

/-- **`freevm`** frees all pages of an address space, each once. -/
theorem freevm_conserve (m : Kmem φ) (d : Pgdir φ) :
    (freevm m d).free = total m d ∧ Kept (total m d) m (freevm m d) := by
  have hpos : 0 < KERNBASE := by decide
  obtain ⟨-, hentries⟩ := deallocuvm_spec m (d := d) hpos
  obtain ⟨hsum, hdata⟩ := deallocuvm_conserve (Nat.le_refl KERNBASE) m d 0
  unfold freevm
  rcases hdealloc : deallocuvm m d KERNBASE 0 with ⟨_, m₁, d₁⟩
  rw [hdealloc] at hentries hsum hdata
  -- no user page is left
  have hmapped : d₁.mapped = 0 := by
    refine held_eq_zero fun k hk => ?_
    have hround : PGROUNDUP 0 = 0 := rfl
    have hin : k * PGSIZE / PGSIZE * PGSIZE < KERNBASE := by
      rw [Nat.mul_div_cancel _ (by decide)]
      exact userPages_le hk
    rw [hentries, hround, if_pos ⟨Nat.zero_le _, hin⟩, Option.map_none]
  have hpages : total m₁ d₁ = m₁.free +
      ((List.range (KERNBASE / PTSIZE)).filterMap (fun i => (d₁.pde i).map (·.page)) ++
        d₁.kernel ++ [d₁.page] : List φ) := by
    rw [total, Pgdir.pages, hmapped, zero_add]
    rfl
  obtain ⟨hfree, hkept⟩ := Kmem.kfree_foldl
    ((List.range (KERNBASE / PTSIZE)).filterMap (fun i => (d₁.pde i).map (·.page)) ++
        d₁.kernel ++ [d₁.page]) m₁
  rw [← hpages, hsum] at hfree hkept
  exact ⟨hfree, hdata.trans hkept⟩

/-! ### Allocating -/

/-- Pages `s` went into an address space, or are free if there is none. -/
structure Made (s : Multiset φ) (m : Kmem φ) (r : Option (Pgdir φ)) (m' : Kmem φ) : Prop where
  pages : m'.free + r.elim 0 Pgdir.pages = s
  kept : Kept s m m'

omit [DecidableEq φ] in
/-- What is done before an address space is made. -/
theorem Made.after {s : Multiset φ} {m₀ m m' : Kmem φ} {r : Option (Pgdir φ)} (h : Made s m r m')
    (hkept : Kept s m₀ m) : Made s m₀ r m' := ⟨h.pages, hkept.trans h.kept⟩

/-- An address space that is given up. -/
theorem made_freevm (m : Kmem φ) (d : Pgdir φ) : Made (total m d) m none (freevm m d) := by
  obtain ⟨hfree, hkept⟩ := freevm_conserve m d
  exact ⟨by rw [hfree]; exact add_zero _, hkept⟩

/-- The page tables of the kernel half. -/
theorem kmapLoop_made {k : Nat} {m m' : Kmem φ} {d : Pgdir φ} {r : Option (Pgdir φ)}
    (h : kmapLoop k m d = (r, m')) : Made (total m d) m r m' := by
  induction k generalizing m d with
  | zero =>
      obtain ⟨rfl, rfl⟩ := Prod.mk.inj h
      exact ⟨rfl, Kept.refl _ m⟩
  | succ k ih =>
      unfold kmapLoop at h
      split at h
      · obtain ⟨rfl, rfl⟩ := Prod.mk.inj h
        exact made_freevm m d
      · next pgtab m₁ hmem =>
        have hmade := ih h
        have hsum : total (m₁.memset pgtab 0) { d with kernel := d.kernel ++ [pgtab] } =
            total m d := by
          have hpages : ({ d with kernel := d.kernel ++ [pgtab] } : Pgdir φ).pages =
              d.mapped + d.tables + (d.kernel ++ [pgtab] : List φ) + {d.page} := rfl
          rw [total, total, (Kmem.kalloc_spec hmem).1, Kmem.free_memset, hpages, Pgdir.pages,
            ← Multiset.coe_add, Multiset.coe_singleton]
          abel
        rw [hsum] at hmade
        refine hmade.after ?_
        exact (Kmem.taken_memset hmem 0).data.mono (Multiset.subset_of_le (free_le_total m d))

/-- **`setupkvm`**: the pages of the new page directory were free. -/
theorem setupkvm_made {m m' : Kmem φ} {r : Option (Pgdir φ)} (h : setupkvm m = (r, m')) :
    Made m.free m r m' := by
  unfold setupkvm at h
  split at h
  · obtain ⟨rfl, rfl⟩ := Prod.mk.inj h
    exact ⟨add_zero _, Kept.refl _ m⟩
  · next pgdir m₁ hmem =>
    have hmade := kmapLoop_made h
    have hsum : total (m₁.memset pgdir 0) ⟨pgdir, fun _ => none, []⟩ = m.free := by
      have hmapped : (⟨pgdir, fun _ => none, []⟩ : Pgdir φ).mapped = 0 :=
        held_eq_zero fun _ _ => rfl
      have htables : (⟨pgdir, fun _ => none, []⟩ : Pgdir φ).tables = 0 :=
        held_eq_zero fun _ _ => rfl
      rw [total, Pgdir.pages, hmapped, htables, (Kmem.kalloc_spec hmem).1, Kmem.free_memset,
        Multiset.coe_nil]
      abel
    rw [hsum] at hmade
    exact hmade.after (Kmem.taken_memset hmem 0).data

end OsCourse.Vm
