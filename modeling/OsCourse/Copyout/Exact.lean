import OsCourse.Copyout.Model
import OsCourse.Vm.Space

/-!
# OsCourse.Copyout.Exact

**What `copyout` does**, byte by byte. The abstract copy stores the bytes one after
another at `va`, `va + 1`, …, with addresses that wrap around, each in the cell
that the page directory has for it, and ends at the first address that is not in a
present user page, with a read through a null pointer if that address has no page table
either (`Copies`). `copyout` does the same page by page (`copies_iff`).
-/

namespace OsCourse.Copyout

open OsCourse.Lib OsCourse.Vm

variable {φ : Type}

/-- The address of byte `i`. -/
def addr (va : UInt32) (i : Nat) : UInt32 := va + UInt32.ofNat i

theorem addr_zero (va : UInt32) : addr va 0 = va := UInt32.add_zero va

theorem addr_add (va : UInt32) (k i : Nat) : addr (addr va k) i = addr va (k + i) := by
  rw [addr, addr, addr, UInt32.ofNat_add, UInt32.add_assoc]

/-- On the page of `va`, addresses do not wrap around. -/
theorem toNat_addr {va : UInt32} {i : Nat} (hi : i < 4096 - va.toNat % 4096) :
    (addr va i).toNat = va.toNat + i := by
  have hlt := va.toNat_lt
  rw [addr, UInt32.toNat_add, UInt32.toNat_ofNat']
  omega

/-! ### One page -/

theorem walk_of_page (d : Pgdir φ) {a b : Nat} (h : a / PGSIZE = b / PGSIZE) :
    d.walk a = d.walk b := by
  obtain ⟨hdx, hpx⟩ := same_page.mpr h
  rw [Pgdir.walk, Pgdir.walk, hdx, hpx]

theorem PGROUNDDOWN_page (va : UInt32) :
    (PGROUNDDOWN va).toNat / PGSIZE = va.toNat / PGSIZE := by
  rw [toNat_PGROUNDDOWN, Nat.mul_div_cancel _ (by decide)]

theorem hasTable_iff {d : Pgdir φ} {va : UInt32} : HasTable d va ↔ d.walk va.toNat ≠ none := by
  rw [HasTable, Pgdir.walk, ne_eq, Option.map_eq_none_iff, Option.isSome_iff_ne_none]

theorem IsUser.hasTable {d : Pgdir φ} {va : UInt32} (h : IsUser d va) : HasTable d va := by
  rw [hasTable_iff]
  intro hnone
  rw [IsUser, userCell, hnone] at h
  cases h

/-- `uva2ka` reads through a null pointer iff there is no page table. -/
theorem uva2ka_none {d : Pgdir φ} {va : UInt32} (h : uva2ka d (PGROUNDDOWN va) = none) :
    ¬ HasTable d va := by
  rw [hasTable_iff, not_not, ← walk_of_page d (PGROUNDDOWN_page va)]
  unfold uva2ka at h
  split at h
  · assumption
  · cases h
  · split at h <;> cases h

/-- It returns 0 for an address that is not in a present user page. -/
theorem uva2ka_null {d : Pgdir φ} {va : UInt32} (h : uva2ka d (PGROUNDDOWN va) = some none) :
    HasTable d va ∧ ¬ IsUser d va := by
  rw [hasTable_iff, IsUser, userCell, ← walk_of_page d (PGROUNDDOWN_page va)]
  unfold uva2ka at h
  split at h
  · cases h
  · next hwalk => simp [hwalk]
  · next pte hwalk =>
    split at h
    · cases h
    · next hu => simp [hwalk, hu]

/-- It returns the page of a user address. -/
theorem uva2ka_page {d : Pgdir φ} {va : UInt32} {pa0 : φ}
    (h : uva2ka d (PGROUNDDOWN va) = some (some pa0)) {a : UInt32}
    (ha : a.toNat / PGSIZE = va.toNat / PGSIZE) : userCell d a = some (pa0, offset a) := by
  rw [userCell, walk_of_page d (ha.trans (PGROUNDDOWN_page va).symm)]
  unfold uva2ka at h
  split at h
  · cases h
  · cases h
  · next pte hwalk =>
    split at h
    · next hu =>
      obtain rfl := Option.some.inj (Option.some.inj h)
      simp [hwalk, hu]
    · cases h

/-! ### The abstract copy -/

/-- The memory after the first `k` bytes have been stored; nothing is allocated. -/
structure Written (d : Pgdir φ) (va : UInt32) (buf : Nat → UInt8) (k : Nat) (m m' : Kmem φ) :
    Prop where
  stores : Stores (fun i => userCell d (addr va i)) buf k (byte m) (byte m')
  freelist : m'.freelist = m.freelist

theorem Written.zero (d : Pgdir φ) (va : UInt32) (buf : Nat → UInt8) (m : Kmem φ) :
    Written d va buf 0 m m := ⟨Stores.zero _ _ _, rfl⟩

theorem Written.append {d : Pgdir φ} {va : UInt32} {buf : Nat → UInt8} {k l : Nat}
    {m m₁ m₂ : Kmem φ} (h₁ : Written d va buf k m m₁)
    (h₂ : Written d (addr va k) (fun i => buf (k + i)) l m₁ m₂) :
    Written d va buf (k + l) m m₂ := by
  refine ⟨h₁.stores.append ?_, h₂.freelist.trans h₁.freelist⟩
  have hstores := h₂.stores
  simp only [addr_add] at hstores
  exact hstores

theorem Written.unique {d : Pgdir φ} {va : UInt32} {buf : Nat → UInt8} {k : Nat}
    {m m₁ m₂ : Kmem φ} (h₁ : Written d va buf k m m₁) (h₂ : Written d va buf k m m₂) :
    m₁ = m₂ := by
  have hbyte := h₁.stores.unique h₂.stores
  have hfree := h₁.freelist.trans h₂.freelist.symm
  have hdata : m₁.data = m₂.data := by
    funext page o
    exact congrFun hbyte (page, o)
  obtain ⟨freelist₁, data₁⟩ := m₁
  obtain ⟨freelist₂, data₂⟩ := m₂
  obtain rfl : freelist₁ = freelist₂ := hfree
  obtain rfl : data₁ = data₂ := hdata
  rfl

/-- In an address space without two addresses for one byte, the bytes are found at the
addresses they were copied to. -/
theorem Written.read {d : Pgdir φ} {va : UInt32} {buf : Nat → UInt8} {len : UInt32}
    {m m' : Kmem φ} (h : Written d va buf len.toNat m m')
    (hd : ∀ a b x, userCell d a = some x → userCell d b = some x → a = b) {i : Nat} {x : Cell φ}
    (hi : i < len.toNat) (hx : userCell d (addr va i) = some x) : byte m' x = buf i := by
  refine h.stores.of_injective (fun i j x hi hj hix hjx => ?_) hi hx
  have hlen := len.toNat_lt
  have hsame := UInt32.toNat_inj.mpr (hd _ _ x hix hjx)
  rw [addr, addr, UInt32.toNat_add, UInt32.toNat_add, UInt32.toNat_ofNat',
    UInt32.toNat_ofNat'] at hsame
  omega

/-- How the abstract copy of `len` bytes ends. -/
inductive Copies (d : Pgdir φ) (m : Kmem φ) (va : UInt32) (buf : Nat → UInt8) (len : Nat) :
    Option (Int × Kmem φ) → Prop
  /-- All addresses are in present user pages. -/
  | all {m' : Kmem φ} : (∀ i, i < len → IsUser d (addr va i)) → Written d va buf len m m' →
      Copies d m va buf len (some (0, m'))
  /-- It stops at the first address that is not, before byte `k`. -/
  | stopped {k : Nat} {m' : Kmem φ} : k < len → (∀ i, i < k → IsUser d (addr va i)) →
      HasTable d (addr va k) → ¬ IsUser d (addr va k) → Written d va buf k m m' →
      Copies d m va buf len (some (-1, m'))
  /-- That address has no page table. -/
  | null {k : Nat} : k < len → (∀ i, i < k → IsUser d (addr va i)) → ¬ HasTable d (addr va k) →
      Copies d m va buf len none

/-- A copy of some bytes, and the copy of the ones that follow. -/
theorem Copies.extend {d : Pgdir φ} {m m₁ : Kmem φ} {va : UInt32} {buf : Nat → UInt8}
    {n len : Nat} {r : Option (Int × Kmem φ)} (hn : ∀ i, i < n → IsUser d (addr va i))
    (hw : Written d va buf n m m₁)
    (h : Copies d m₁ (addr va n) (fun i => buf (n + i)) len r) :
    Copies d m va buf (n + len) r := by
  have hfirst : ∀ k, (∀ i, i < k → IsUser d (addr (addr va n) i)) →
      ∀ i, i < n + k → IsUser d (addr va i) := by
    intro k hk i hi
    by_cases hin : i < n
    · exact hn i hin
    · obtain ⟨j, rfl⟩ := Nat.exists_eq_add_of_le (Nat.not_lt.mp hin)
      rw [← addr_add]
      exact hk j (by omega)
  cases h with
  | all huser hrest => exact .all (hfirst len huser) (hw.append hrest)
  | stopped hk huser htable hnot hrest =>
      rw [addr_add] at htable hnot
      exact .stopped (by omega) (hfirst _ huser) htable hnot (hw.append hrest)
  | null hk huser hnot =>
      rw [addr_add] at hnot
      exact .null (by omega) (hfirst _ huser) hnot

/-- Of no bytes, it does not matter where. -/
theorem Copies.of_zero {d : Pgdir φ} {m : Kmem φ} {va va' : UInt32} {buf buf' : Nat → UInt8}
    {r : Option (Int × Kmem φ)} (h : Copies d m va buf 0 r) : Copies d m va' buf' 0 r := by
  cases h with
  | all _ hw =>
      refine .all (fun i hi => absurd hi (Nat.not_lt_zero i)) ⟨⟨fun i x hi => ?_, fun x _ => ?_⟩,
        hw.freelist⟩
      · exact absurd hi (Nat.not_lt_zero i)
      · exact hw.stores.outside x fun i hi => absurd hi (Nat.not_lt_zero i)
  | stopped hk => exact absurd hk (Nat.not_lt_zero _)
  | null hk => exact absurd hk (Nat.not_lt_zero _)

/-- Where a copy stops is fixed. -/
theorem stop_unique {d : Pgdir φ} {va : UInt32} {k l : Nat}
    (hk : ∀ i, i < k → IsUser d (addr va i)) (hk' : ¬ IsUser d (addr va k))
    (hl : ∀ i, i < l → IsUser d (addr va i)) (hl' : ¬ IsUser d (addr va l)) : k = l := by
  rcases Nat.lt_trichotomy k l with hlt | heq | hgt
  · exact absurd (hl k hlt) hk'
  · exact heq
  · exact absurd (hk l hgt) hl'

/-- The abstract copy has one result. -/
theorem Copies.unique {d : Pgdir φ} {m : Kmem φ} {va : UInt32} {buf : Nat → UInt8} {len : Nat}
    {r r' : Option (Int × Kmem φ)} (h : Copies d m va buf len r) (h' : Copies d m va buf len r') :
    r = r' := by
  cases h with
  | all huser hw =>
      cases h' with
      | all _ hw' => rw [hw.unique hw']
      | stopped hk _ _ hnot _ => exact absurd (huser _ hk) hnot
      | null hk _ hnot => exact absurd (huser _ hk).hasTable hnot
  | stopped hk huser htable hnot hw =>
      cases h' with
      | all huser' _ => exact absurd (huser' _ hk) hnot
      | stopped _ huser' _ hnot' hw' =>
          obtain rfl := stop_unique huser hnot huser' hnot'
          rw [hw.unique hw']
      | null _ huser' hnot' =>
          obtain rfl := stop_unique huser hnot huser' fun hu => hnot' hu.hasTable
          exact absurd htable hnot'
  | null hk huser hnot =>
      cases h' with
      | all huser' _ => exact absurd (huser' _ hk).hasTable hnot
      | stopped _ huser' htable' hnot' _ =>
          obtain rfl := stop_unique huser (fun hu => hnot hu.hasTable) huser' hnot'
          exact absurd htable' hnot
      | null => rfl

/-- The first address that is not in a present user page, if there is one, has a page
table. -/
def Tabled (d : Pgdir φ) (va : UInt32) (len : Nat) : Prop :=
  ∀ k, k < len → (∀ i, i < k → IsUser d (addr va i)) → HasTable d (addr va k)

theorem Copies.tabled_iff {d : Pgdir φ} {m : Kmem φ} {va : UInt32} {buf : Nat → UInt8}
    {len : Nat} {r : Option (Int × Kmem φ)} (h : Copies d m va buf len r) :
    r ≠ none ↔ Tabled d va len := by
  cases h with
  | all huser _ => exact ⟨fun _ k hk _ => (huser k hk).hasTable, fun _ => Option.some_ne_none _⟩
  | @stopped k _ hk huser htable hnot _ =>
      refine ⟨fun _ i hi hall => ?_, fun _ => Option.some_ne_none _⟩
      rcases Nat.lt_trichotomy i k with hlt | rfl | hgt
      · exact (huser i hlt).hasTable
      · exact htable
      · exact absurd (hall k hgt) hnot
  | null hk huser hnot =>
      exact ⟨fun hne => absurd rfl hne, fun htabled => absurd (htabled _ hk huser) hnot⟩

/-! ### The loop -/

variable [DecidableEq φ]

/-- `memmove` into a page stores the bytes one after another. -/
theorem memmove_written {d : Pgdir φ} {va : UInt32} {pa0 : φ} {n : Nat}
    (hn : va.toNat % 4096 + n ≤ 4096)
    (hcell : ∀ i, i < n → userCell d (addr va i) = some (pa0, offset (addr va i)))
    (m : Kmem φ) (buf : Nat → UInt8) :
    Written d va buf n m (memmove m pa0 (va.toNat % 4096) buf n) := by
  have hoff : ∀ i, i < n → (offset (addr va i)).val = va.toNat % 4096 + i := by
    intro i hi
    have haddr : (addr va i).toNat = va.toNat + i := toNat_addr (by omega)
    simp only [offset, PGSIZE]
    omega
  refine ⟨⟨fun i x hi hx _ => ?_, fun x hx => ?_⟩, rfl⟩
  · rw [hcell i hi] at hx
    obtain rfl := Option.some.inj hx
    simp only [byte, memmove, Function.update_self]
    rw [hoff i hi, if_pos ⟨by omega, by omega⟩, Nat.add_sub_cancel_left]
  · obtain ⟨page, o⟩ := x
    simp only [byte, memmove]
    by_cases hpage : page = pa0
    · subst hpage
      rw [Function.update_self, if_neg]
      intro hin
      have hi : o.val - va.toNat % 4096 < n := by omega
      have hsame : offset (addr va (o.val - va.toNat % 4096)) = o := by
        refine Fin.ext ?_
        rw [hoff _ hi]
        omega
      exact hx _ hi (by rw [hcell _ hi, hsame])
    · rw [Function.update_of_ne hpage]

/-- `copyout` goes page by page and does the same. -/
theorem copyout_copies (d : Pgdir φ) (m : Kmem φ) (va : UInt32) (buf : Nat → UInt8)
    (len : UInt32) : Copies d m va buf len.toNat (copyout d m va buf len) := by
  fun_induction copyout d m va buf len with
  | case1 m va buf len hlen va0 hka =>
      have hpos := UInt32.lt_iff_toNat_lt.mp hlen
      refine .null (k := 0) hpos (fun i hi => absurd hi (Nat.not_lt_zero i)) ?_
      rw [addr_zero]
      exact uva2ka_none hka
  | case2 m va buf len hlen va0 hka =>
      have hpos := UInt32.lt_iff_toNat_lt.mp hlen
      obtain ⟨htable, hnot⟩ := uva2ka_null hka
      rw [← addr_zero va] at htable hnot
      exact .stopped hpos (fun i hi => absurd hi (Nat.not_lt_zero i)) htable hnot
        (Written.zero d va buf m)
  | case3 m va buf len hlen va0 pa0 hka n ih =>
      have hsize : n.toNat = min (4096 - va.toNat % 4096) len.toNat := toNat_chunk va len
      have hcell : ∀ i, i < n.toNat → userCell d (addr va i) = some (pa0, offset (addr va i)) := by
        intro i hi
        refine uva2ka_page hka ?_
        rw [toNat_addr (by omega)]
        simp only [PGSIZE]
        omega
      have huser : ∀ i, i < n.toNat → IsUser d (addr va i) := fun i hi => by
        rw [IsUser, hcell i hi]
        rfl
      have hoff : (va - va0).toNat = va.toNat % 4096 := toNat_sub_PGROUNDDOWN va
      have hwritten := memmove_written (by omega) hcell m buf
      rw [← hoff] at hwritten
      have hrest : (len - n).toNat = len.toNat - n.toNat := toNat_sub_chunk va len
      rw [hrest] at ih
      have hnext : Copies d (memmove m pa0 (va - va0).toNat buf n.toNat) (addr va n.toNat)
          (fun i => buf (n.toNat + i)) (len.toNat - n.toNat)
          (copyout d (memmove m pa0 (va - va0).toNat buf n.toNat) (va0 + 4096)
            (fun i => buf (n.toNat + i)) (len - n)) := by
        by_cases hless : n.toNat < len.toNat
        · -- the page was filled, and the next one starts right behind it
          have hva : va0 + 4096 = addr va n.toNat := by
            have hround : va0.toNat = va.toNat / 4096 * 4096 := toNat_PGROUNDDOWN va
            have hpage : (4096 : UInt32).toNat = 4096 := rfl
            rw [← UInt32.toNat_inj, addr, UInt32.ofNat_toNat, UInt32.toNat_add, UInt32.toNat_add,
              hround, hpage]
            omega
          rw [hva] at ih ⊢
          exact ih
        · rw [Nat.sub_eq_zero_of_le (Nat.not_lt.mp hless)] at ih ⊢
          exact ih.of_zero
      have hall := hnext.extend huser hwritten
      rwa [Nat.add_sub_cancel' (by omega)] at hall
  | case4 m va buf len hlen =>
      have hzero : len.toNat = 0 := by
        have hle := UInt32.le_iff_toNat_le.mp (UInt32.not_lt.mp hlen)
        rw [UInt32.toNat_zero] at hle
        omega
      rw [hzero]
      exact .all (fun i hi => absurd hi (Nat.not_lt_zero i)) (Written.zero d va buf m)

/-- The abstract copy and `copyout` have the same results. -/
theorem copies_iff {d : Pgdir φ} {m : Kmem φ} {va : UInt32} {buf : Nat → UInt8} {len : UInt32}
    {r : Option (Int × Kmem φ)} :
    Copies d m va buf len.toNat r ↔ copyout d m va buf len = r := by
  constructor
  · exact fun h => (copyout_copies d m va buf len).unique h
  · rintro rfl
    exact copyout_copies d m va buf len

/-! ### When it is exact -/

/-- `copyout` returns 0 iff all addresses are in present user pages, and has then stored
the bytes there and nothing else; it returns -1 otherwise, and has then changed
nothing but such addresses. -/
def CopiesOut (d : Pgdir φ) (m : Kmem φ) (va : UInt32) (buf : Nat → UInt8) (len : UInt32) :
    Prop :=
  ∃ r m', copyout d m va buf len = some (r, m') ∧
    (r = 0 ↔ ∀ i, i < len.toNat → IsUser d (addr va i)) ∧
    (r = 0 → Written d va buf len.toNat m m') ∧
    (r ≠ 0 → r = -1 ∧ m'.freelist = m.freelist ∧
      ∀ x, byte m' x ≠ byte m x → ∃ i, i < len.toNat ∧ userCell d (addr va i) = some x)

theorem copiesOut_iff (d : Pgdir φ) (m : Kmem φ) (va : UInt32) (buf : Nat → UInt8)
    (len : UInt32) : CopiesOut d m va buf len ↔ Tabled d va len.toNat := by
  have h := copyout_copies d m va buf len
  rw [← h.tabled_iff]
  generalize hr : copyout d m va buf len = res at h
  constructor
  · intro hout
    obtain ⟨r, m', hrun, -⟩ := hout
    rw [← hr, hrun]
    exact Option.some_ne_none _
  · intro hne
    cases h with
    | all huser hw =>
        exact ⟨0, _, hr, ⟨fun _ => huser, fun _ => rfl⟩, fun _ => hw, fun h => absurd rfl h⟩
    | stopped hk huser htable hnot hw =>
        refine ⟨-1, _, hr, ⟨fun h => absurd h (by decide), fun hall => absurd (hall _ hk) hnot⟩,
          fun h => absurd h (by decide), fun _ => ⟨rfl, hw.freelist, fun x hx => ?_⟩⟩
        obtain ⟨i, hi, hcell⟩ := hw.stores.exists_of_ne hx
        exact ⟨i, Nat.lt_trans hi hk, hcell⟩
    | null => exact absurd rfl hne

end OsCourse.Copyout
