import Mathlib.Algebra.Order.Group.Multiset
import Mathlib.Data.Multiset.Filter
import Mathlib.Data.Multiset.Range

/-!
# OsCourse.Lib.Held

Tables of pointers, and what they hold. A table maps the indices below `n` to
pointers that may be null; `held` collects the pointers with their multiplicity,
so that two entries with one pointer are seen. Resources that are moved between
tables and free lists are accounted for by sums of such multisets.
-/

namespace OsCourse.Lib

variable {α : Type}

/-- What one entry holds. -/
def one (o : Option α) : Multiset α := (o.map singleton).getD 0

@[simp] theorem one_none : one (none : Option α) = 0 := rfl

@[simp] theorem one_some (a : α) : one (some a) = {a} := rfl

/-- What the entries below `n` hold. -/
def held (f : Nat → Option α) (n : Nat) : Multiset α := (Multiset.range n).filterMap f

variable {f g : Nat → Option α} {n i : Nat}

theorem mem_held {a : α} : a ∈ held f n ↔ ∃ i, i < n ∧ f i = some a := by
  simp [held]

theorem held_congr (h : ∀ i, i < n → g i = f i) : held g n = held f n := by
  rw [held, held, Multiset.range, Multiset.filterMap_coe, Multiset.filterMap_coe]
  exact congrArg _ (List.filterMap_congr fun i hi => h i (List.mem_range.mp hi))

theorem held_eq_zero (h : ∀ i, i < n → f i = none) : held f n = 0 := by
  rw [Multiset.eq_zero_iff_forall_notMem]
  intro a ha
  obtain ⟨i, hi, hfi⟩ := mem_held.mp ha
  rw [h i hi] at hfi
  cases hfi

/-- A table in two parts. -/
theorem held_add (f : Nat → Option α) (m n : Nat) :
    held f (m + n) = held f m + held (fun i => f (m + i)) n := by
  simp only [held, Multiset.range, Multiset.filterMap_coe, List.range_add, List.filterMap_append,
    List.filterMap_map, Multiset.coe_add]
  rfl

/-- One entry apart from the others. -/
theorem held_split (f : Nat → Option α) (hi : i < n) :
    held f n = one (f i) + ((Multiset.range n).erase i).filterMap f := by
  rw [held, ← Multiset.cons_erase (Multiset.mem_range.mpr hi), Multiset.filterMap_cons,
    Multiset.erase_cons_head]
  rfl

/-- Tables that agree off `i` differ by their entries at `i`. -/
theorem held_change (hi : i < n) (hoff : ∀ j, j < n → j ≠ i → g j = f j) :
    held g n + one (f i) = held f n + one (g i) := by
  have hrest : ((Multiset.range n).erase i).filterMap g =
      ((Multiset.range n).erase i).filterMap f := by
    rw [Multiset.range, Multiset.coe_erase, Multiset.filterMap_coe, Multiset.filterMap_coe]
    refine congrArg _ (List.filterMap_congr fun j hj => ?_)
    have hmem := (List.Nodup.mem_erase_iff List.nodup_range).mp hj
    exact hoff j (List.mem_range.mp hmem.2) hmem.1
  rw [held_split g hi, held_split f hi, hrest]
  ac_rfl

/-- Filling a null entry. -/
theorem held_fill (hi : i < n) (hoff : ∀ j, j < n → j ≠ i → g j = f j) (hnone : f i = none) :
    held g n = held f n + one (g i) := by
  have hchange := held_change hi hoff
  rwa [hnone, one_none, add_zero] at hchange

/-- Nothing is held twice: then an index is determined by its pointer. -/
theorem held_inj {j : Nat} {a : α} (h : (held f n).Nodup) (hi : i < n) (hj : j < n)
    (hfi : f i = some a) (hfj : f j = some a) : i = j := by
  by_contra hne
  rw [held_split f hi, hfi, one_some, Multiset.singleton_add, Multiset.nodup_cons] at h
  refine h.1 ((Multiset.mem_filterMap f _).mpr ⟨j, ?_, hfj⟩)
  exact (Multiset.mem_erase_of_ne (Ne.symm hne)).mpr (Multiset.mem_range.mpr hj)

end OsCourse.Lib
