import OsCourse.Ensemble.Runs

/-!
# OsCourse.Ensemble.Argmax

**The lines of the classifier.** Line `i` should be the first of the weight rows
with the greatest score for input row `i`.

The running maximum starts from `INT_LEAST32_MIN`, and `index` is declared
outside the loop over the rows. A row none of whose scores beats the constant
leaves `index` as it was: without a value in the first row, and with the class
of the row before in any other. So the rows depend on each other
(`calculate_argmax_iff`).
-/

namespace OsCourse.Ensemble

variable {weights : List Weight} {data : List Row}

/-- Weight row `j` is the first with the greatest score for `x`. -/
def IsArgmax (weights : List Weight) (x : Row) (j : Nat) : Prop :=
  ∃ w, weights[j]? = some w ∧ (∀ w' ∈ weights, score x w' ≤ score x w) ∧
    ∀ (k : Nat) w', weights[k]? = some w' → score x w' = score x w → j ≤ k

theorem IsArgmax.unique {x : Row} {j k : Nat} (hj : IsArgmax weights x j)
    (hk : IsArgmax weights x k) : j = k := by
  obtain ⟨v, hv, hvmax, hvfirst⟩ := hj
  obtain ⟨w, hw, hwmax, hwfirst⟩ := hk
  have heq : score x v = score x w :=
    le_antisymm (hwmax v (List.mem_of_getElem? hv)) (hvmax w (List.mem_of_getElem? hw))
  exact Nat.le_antisymm (hvfirst k w hw heq.symm) (hwfirst j v hv heq)

theorem IsArgmax.lt {x : Row} {j : Nat} (hj : IsArgmax weights x j) : j < weights.length := by
  obtain ⟨w, hw, -⟩ := hj
  exact (List.getElem?_eq_some_iff.mp hw).1

/-- Some score of `x` is greater than the constant the maximum starts from. -/
def Beats (weights : List Weight) (x : Row) : Prop := ∃ w ∈ weights, score x w > -2147483648

/-! ### One row -/

/-- Scores that do not beat the maximum leave `max` and `index` alone. -/
theorem scan_of_le {x : Row} {ws : List Weight} {max : ℚ} (h : ∀ w ∈ ws, score x w ≤ max) (j : Nat)
    (index : Option Nat) : scan x ws j max index = (max, index) := by
  induction ws generalizing j with
  | nil => rfl
  | cons w ws ih =>
      rw [scan, if_neg (not_lt.mpr (h w List.mem_cons_self))]
      exact ih (fun w' hw' => h w' (List.mem_cons_of_mem w hw')) (j + 1)

/-- A row in front that is worse moves the arg-max by one. -/
theorem IsArgmax.cons {x : Row} {w : Weight} {ws : List Weight} {k : Nat} (hk : IsArgmax ws x k)
    (hlt : ∀ v, ws[k]? = some v → score x w < score x v) : IsArgmax (w :: ws) x (k + 1) := by
  obtain ⟨v, hv, hvmax, hvfirst⟩ := hk
  refine ⟨v, hv, fun w' hw' => ?_, fun i w' hi heq => ?_⟩
  · rcases List.mem_cons.mp hw' with rfl | hw'
    · exact (hlt v hv).le
    · exact hvmax w' hw'
  · cases i with
    | zero =>
        obtain rfl := Option.some.inj hi
        exact absurd heq (ne_of_lt (hlt v hv))
    | succ i => exact Nat.succ_le_succ (hvfirst i w' hi heq)

/-- A row in front that no other beats is the arg-max. -/
theorem isArgmax_zero {x : Row} {w : Weight} {ws : List Weight}
    (hle : ∀ w' ∈ ws, score x w' ≤ score x w) : IsArgmax (w :: ws) x 0 := by
  refine ⟨w, rfl, fun w' hw' => ?_, fun i w' _ _ => Nat.zero_le i⟩
  rcases List.mem_cons.mp hw' with rfl | hw'
  · exact le_refl _
  · exact hle w' hw'

/-- If some score beats the maximum, the scan ends with the first of the
greatest. -/
theorem scan_of_gt {x : Row} {ws : List Weight} {max : ℚ} (h : ∃ w ∈ ws, score x w > max) (j : Nat)
    (index : Option Nat) :
    ∃ k, (scan x ws j max index).2 = some (j + k) ∧ IsArgmax ws x k ∧
      ∀ w, ws[k]? = some w → score x w > max := by
  induction ws generalizing j max index with
  | nil =>
      obtain ⟨w, hw, -⟩ := h
      cases hw
  | cons w ws ih =>
      rw [scan]
      by_cases hgt : score x w > max
      · rw [if_pos hgt]
        by_cases hmore : ∃ w' ∈ ws, score x w' > score x w
        · obtain ⟨k, hscan, hk, hbeats⟩ := ih hmore (j + 1) (some j)
          refine ⟨k + 1, ?_, hk.cons hbeats, fun v hv => hgt.trans (hbeats v hv)⟩
          rw [hscan, Nat.add_assoc, Nat.add_comm 1]
        · have hle : ∀ w' ∈ ws, score x w' ≤ score x w := fun w' hw' =>
            not_lt.mp fun hlt => hmore ⟨w', hw', hlt⟩
          rw [scan_of_le hle]
          refine ⟨0, rfl, isArgmax_zero hle, fun v hv => ?_⟩
          obtain rfl := Option.some.inj hv
          exact hgt
      · rw [if_neg hgt]
        have hle : score x w ≤ max := not_lt.mp hgt
        have hmore : ∃ w' ∈ ws, score x w' > max := by
          obtain ⟨w', hw', hgt'⟩ := h
          rcases List.mem_cons.mp hw' with rfl | hw'
          · exact absurd hgt' hgt
          · exact ⟨w', hw', hgt'⟩
        obtain ⟨k, hscan, hk, hbeats⟩ := ih hmore (j + 1) index
        refine ⟨k + 1, ?_, hk.cons fun v hv => hle.trans_lt (hbeats v hv), hbeats⟩
        rw [hscan, Nat.add_assoc, Nat.add_comm 1]

/-- A row with a score above the constant sets `index` to its arg-max. -/
theorem Beats.scan {x : Row} (h : Beats weights x) (index : Option Nat) :
    ∃ j, (scan x weights 0 (-2147483648) index).2 = some j ∧ IsArgmax weights x j := by
  obtain ⟨j, hscan, hj, -⟩ := scan_of_gt h 0 index
  exact ⟨j, by rw [hscan, Nat.zero_add], hj⟩

/-- The labels are the arg-max classes of the rows. -/
def AreArgmax (weights : List Weight) (data : List Row) (ls : List Nat) : Prop :=
  List.Forall₂ (IsArgmax weights) data ls

/-- `y` may follow `x`: it sets `index`, or has the class that `x` has left there. -/
def Follows (weights : List Weight) (x y : Row) : Prop :=
  Beats weights y ∨ ∃ j, IsArgmax weights x j ∧ IsArgmax weights y j

/-- The classes of the rows are weight rows. -/
theorem AreArgmax.lt {ls : List Nat} (h : AreArgmax weights data ls) :
    ∀ n ∈ ls, n < weights.length := by
  induction h with
  | nil => simp
  | cons hj _ ih =>
      intro n hn
      rcases List.mem_cons.mp hn with rfl | hn
      · exact hj.lt
      · exact ih n hn

end OsCourse.Ensemble
