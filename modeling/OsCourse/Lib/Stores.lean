import Mathlib.Data.Nat.Init

/-!
# OsCourse.Lib.Stores

**Values stored one after another** in the cells of a memory. The `i`-th value goes
to the cell `cell i`, if there is one; the cells need not be different. `Stores` says
what the memory is afterwards: it fixes it (`Stores.unique`), however the values were
grouped into larger writes (`Stores.append`).
-/

namespace OsCourse.Lib

variable {κ β : Type*}

/-- `mem'` is `mem` after the first `k` values have been stored. -/
structure Stores (cell : ℕ → Option κ) (value : ℕ → β) (k : ℕ) (mem mem' : κ → β) : Prop where
  /-- A cell holds the last value that was stored there. -/
  inside : ∀ i x, i < k → cell i = some x → (∀ j, i < j → j < k → cell j ≠ some x) →
    mem' x = value i
  /-- The other cells are as they were. -/
  outside : ∀ x, (∀ i, i < k → cell i ≠ some x) → mem' x = mem x

namespace Stores

variable {cell : ℕ → Option κ} {value : ℕ → β} {k l : ℕ} {mem mem₁ mem₂ : κ → β}

theorem zero (cell : ℕ → Option κ) (value : ℕ → β) (mem : κ → β) :
    Stores cell value 0 mem mem :=
  ⟨fun _ _ h => absurd h (Nat.not_lt_zero _), fun _ _ => rfl⟩

/-- First some values, then the ones that follow. -/
theorem append (h₁ : Stores cell value k mem mem₁)
    (h₂ : Stores (fun i => cell (k + i)) (fun i => value (k + i)) l mem₁ mem₂) :
    Stores cell value (k + l) mem mem₂ where
  inside i x hi hx hlast := by
    by_cases hik : i < k
    · have hrest : ∀ j, j < l → cell (k + j) ≠ some x := fun j hj =>
        hlast (k + j) (by omega) (by omega)
      rw [h₂.outside x hrest]
      exact h₁.inside i x hik hx fun j hij hj => hlast j hij (by omega)
    · obtain ⟨j, rfl⟩ := Nat.exists_eq_add_of_le (Nat.not_lt.mp hik)
      exact h₂.inside j x (by omega) hx fun m hjm hm => hlast (k + m) (by omega) (by omega)
  outside x hx := by
    rw [h₂.outside x fun i hi => hx (k + i) (by omega), h₁.outside x fun i hi => hx i (by omega)]

/-- A cell that is stored to is stored to a last time. -/
theorem exists_last {x : κ} (h : ∃ i, i < k ∧ cell i = some x) :
    ∃ i, i < k ∧ cell i = some x ∧ ∀ j, i < j → j < k → cell j ≠ some x := by
  induction k with
  | zero =>
      obtain ⟨i, hi, -⟩ := h
      exact absurd hi (Nat.not_lt_zero i)
  | succ k ih =>
      by_cases hk : cell k = some x
      · exact ⟨k, Nat.lt_succ_self k, hk, fun j hkj hj => by omega⟩
      · obtain ⟨i, hi, hx⟩ := h
        have hne : i ≠ k := fun heq => hk (heq ▸ hx)
        obtain ⟨i, hi, hx, hlast⟩ := ih ⟨i, by omega, hx⟩
        refine ⟨i, by omega, hx, fun j hij hj => ?_⟩
        rcases Nat.lt_succ_iff_lt_or_eq.mp hj with hlt | rfl
        · exact hlast j hij hlt
        · exact hk

/-- The memory afterwards is fixed by the values and their cells. -/
theorem unique (h₁ : Stores cell value k mem mem₁) (h₂ : Stores cell value k mem mem₂) :
    mem₁ = mem₂ := by
  funext x
  by_cases hx : ∃ i, i < k ∧ cell i = some x
  · obtain ⟨i, hi, hcell, hlast⟩ := exists_last hx
    rw [h₁.inside i x hi hcell hlast, h₂.inside i x hi hcell hlast]
  · have hnot : ∀ i, i < k → cell i ≠ some x := fun i hi hcell => hx ⟨i, hi, hcell⟩
    rw [h₁.outside x hnot, h₂.outside x hnot]

/-- In cells that are all different every value is found again. -/
theorem of_injective (h : Stores cell value k mem mem₁)
    (hcell : ∀ i j x, i < k → j < k → cell i = some x → cell j = some x → i = j) {i : ℕ} {x : κ}
    (hi : i < k) (hx : cell i = some x) : mem₁ x = value i :=
  h.inside i x hi hx fun j hij hj hjx => absurd (hcell i j x hi hj hx hjx) (Nat.ne_of_lt hij)

/-- What has changed was stored to. -/
theorem exists_of_ne (h : Stores cell value k mem mem₁) {x : κ} (hx : mem₁ x ≠ mem x) :
    ∃ i, i < k ∧ cell i = some x :=
  Classical.byContradiction fun hnone => hx (h.outside x fun i hi hcell => hnone ⟨i, hi, hcell⟩)

end Stores

end OsCourse.Lib
