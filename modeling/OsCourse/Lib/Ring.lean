import Mathlib.Algebra.GroupWithZero.Nat
import Mathlib.Data.List.Basic

/-!
# OsCourse.Lib.Ring

**Ring buffers.** `N` cells and two positions that only grow: `r`, how many
elements were taken out, and `w`, how many were put in. The element at position
`k` lies in cell `k % N`; `window b r w` is what the ring holds, the elements at
the positions from `r` up to `w`.

Programs keep the positions in machine words. As long as the size of a word is
a multiple of `N` a wrapped position finds the same cell, and as long as the
ring holds fewer elements than a word has values, comparing wrapped positions
compares the positions (`wrap_eq_iff`).
-/

namespace OsCourse.Lib

variable {α : Type*} {N : Nat} [NeZero N]

/-- The cell of position `k`. -/
def cell (b : Vector α N) (k : Nat) : α := b[Fin.ofNat N k]

/-- The ring with `x` in the cell of position `k`. -/
def setCell (b : Vector α N) (k : Nat) (x : α) : Vector α N := b.set (Fin.ofNat N k) x

/-- The elements at the positions from `r` up to, and without, `w`. -/
def window (b : Vector α N) (r w : Nat) : List α := (List.range' r (w - r)).map (cell b)

@[simp] theorem length_window (b : Vector α N) (r w : Nat) : (window b r w).length = w - r := by
  simp [window]

@[simp] theorem window_self (b : Vector α N) (r : Nat) : window b r r = [] := by
  simp [window]

@[simp] theorem cell_setCell (b : Vector α N) (k : Nat) (x : α) : cell (setCell b k x) k = x := by
  simp [cell, setCell]

theorem cell_setCell_of_ne (b : Vector α N) {j k : Nat} (h : j % N ≠ k % N) (x : α) :
    cell (setCell b k x) j = cell b j := by
  simp only [cell, setCell, Fin.getElem_fin, Fin.val_ofNat]
  rw [Vector.getElem_set_ne _ _ (Ne.symm h)]

omit [NeZero N] in
/-- Two positions less than `N` apart have different cells. -/
theorem mod_ne_of_lt {j k : Nat} (h : j < k) (hN : k < j + N) : j % N ≠ k % N := by
  intro heq
  have hdvd : N ∣ k - j := Nat.dvd_of_mod_eq_zero (Nat.sub_mod_eq_zero_of_mod_eq heq.symm)
  have := Nat.le_of_dvd (by omega) hdvd
  omega

/-- Putting an element into a ring that is not full. -/
theorem window_push (b : Vector α N) {r w : Nat} (hrw : r ≤ w) (hroom : w < r + N) (x : α) :
    window (setCell b w x) r (w + 1) = window b r w ++ [x] := by
  have hlen : w + 1 - r = (w - r) + 1 := by omega
  have hend : r + 1 * (w - r) = w := by omega
  rw [window, hlen, List.range'_concat, List.map_append, hend, List.map_singleton, cell_setCell,
    window]
  congr 1
  refine List.map_congr_left fun k hk => ?_
  have hkw : r ≤ k ∧ k < w := by
    rw [List.mem_range'_1] at hk
    omega
  exact cell_setCell_of_ne b (mod_ne_of_lt hkw.2 (by omega)) x

/-- Taking an element out of a ring that is not empty. -/
theorem window_pop (b : Vector α N) {r w : Nat} (h : r < w) :
    window b r w = cell b r :: window b (r + 1) w := by
  have hlen : w - r = (w - (r + 1)) + 1 := by omega
  rw [window, hlen, List.range'_succ, List.map_cons, window]

/-! ### Positions in machine words -/

/-- A position wrapped at a multiple of `N` has the same cell. -/
theorem cell_wrap (b : Vector α N) {M : Nat} (hM : N ∣ M) (k : Nat) :
    cell b (k % M) = cell b k := by
  simp [cell, Nat.mod_mod_of_dvd k hM]

theorem setCell_wrap (b : Vector α N) {M : Nat} (hM : N ∣ M) (k : Nat) (x : α) :
    setCell b (k % M) x = setCell b k x := by
  simp [setCell, Nat.mod_mod_of_dvd k hM]

/-- Wrapped positions less than a word apart are equal only if the positions are. -/
theorem wrap_eq_iff {M j k : Nat} (h : j ≤ k) (hM : k < j + M) : k % M = j % M ↔ k = j := by
  constructor
  · intro heq
    have hdvd : M ∣ k - j := Nat.dvd_of_mod_eq_zero (Nat.sub_mod_eq_zero_of_mod_eq heq)
    by_contra hne
    have := Nat.le_of_dvd (by omega) hdvd
    omega
  · rintro rfl
    rfl

end OsCourse.Lib
