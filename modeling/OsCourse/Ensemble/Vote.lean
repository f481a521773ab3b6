import Mathlib.Algebra.Order.Field.Basic
import Mathlib.Data.Rat.Cast.Order
import Mathlib.Tactic.FieldSimp
import OsCourse.Ensemble.Model
import OsCourse.Lib.Tally

/-!
# OsCourse.Ensemble.Vote

The vote of the classifiers and its accuracy (`calculate_max` and
`calculate_accuracy` of `voterMain.cpp`).

The vote is right: each column of labels is counted in an ordered map, and the
pass over the map ends with its plurality (`calculate_max_plurality`). The
accuracy is not: its loop runs to `i <= labels.size()`, and so compares what
stands behind the two vectors as well (`never_accurate`).

Subscripts and counters are numbers here; the vectors of the program are shorter
than the range of `int`. A subscript outside of a vector has no value. For
`calculate_accuracy` a second model says what the loop computes if the memory
behind the vectors can be read and holds two given numbers. The `float` counter
and quotient are exact.
-/

namespace OsCourse.Ensemble

open OsCourse.Lib

/-! ### `calculate_max` -/

/-- The loop over `j`: `values[numbers[j][i]]++`. -/
def countLabels (i : Nat) : Tally Int → List (List Int) → Option (Tally Int)
  | values, [] => some values
  | values, v :: vs => v[i]?.bind fun label => countLabels i (values.bump label) vs

/-- `val` for column `i`: the loop over `values`, from `max = 0` on. -/
def vote (numbers : List (List Int)) (i : Nat) : Option Int :=
  (countLabels i .empty numbers).bind fun values => best values.entries 0 none

/-- `calculate_max`: `result` afterwards. -/
def calculate_max (numbers : List (List Int)) (result : List Int) : Option (List Int) :=
  match numbers with
  | [] => none
  | first :: _ =>
      (List.range first.length).foldlM
        (fun result i => (vote numbers i).map fun val => result ++ [val]) result

variable {numbers : List (List Int)} {i n : Nat}

/-- `v[i]`, with `behind` what can be read behind the end of `v`, if anything. -/
def element (v : List Int) (behind : Option Int) (i : Nat) : Option Int := v[i]?.or behind

/-- The body of the loop: `accuracy` after position `i`. -/
def compare (labels result : List Int) (behind : Option (Int × Int)) (accuracy i : Nat) :
    Option Nat := do
  let l ← element labels (behind.map Prod.fst) i
  let r ← element result (behind.map Prod.snd) i
  if l = r then some (accuracy + 1) else some accuracy

/-- `calculate_accuracy`. The quotient by `labels.size()` has no value if that
is 0. -/
def calculate_accuracy (labels result : List Int) (behind : Option (Int × Int)) : Option ℚ :=
  ((List.range (labels.length + 1)).foldlM (compare labels result behind) 0).bind fun accuracy =>
    if labels.length = 0 then none else some ((accuracy : ℚ) / (labels.length : ℚ) * 100)

/-- The number of positions at which `result` has the right label. -/
def agreements (labels result : List Int) : Nat :=
  (List.range labels.length).countP fun i => labels[i]? = result[i]?

/-- The share of agreements, in percent. -/
def share (labels result : List Int) : ℚ :=
  100 * (agreements labels result : ℚ) / (labels.length : ℚ)

/-- The call reads inside of the two vectors and returns the share. -/
def Accurate (labels result : List Int) : Prop :=
  calculate_accuracy labels result none = some (share labels result)

variable {labels result : List Int}

/-- The share is a percentage, and 100 for equal lists only. -/
theorem share_bounds (hne : labels ≠ []) (hlen : result.length = labels.length) :
    0 ≤ share labels result ∧ share labels result ≤ 100 ∧
      (share labels result = 100 ↔ result = labels) := by
  have hpos : (0 : ℚ) < labels.length := by exact_mod_cast List.length_pos_iff.mpr hne
  have hle : agreements labels result ≤ labels.length := by
    have hcount := List.countP_le_length (l := List.range labels.length)
      (p := fun i => labels[i]? = result[i]?)
    rwa [List.length_range] at hcount
  have hleq : (agreements labels result : ℚ) ≤ labels.length := by exact_mod_cast hle
  have hall : agreements labels result = labels.length ↔ result = labels := by
    have hcount := List.countP_eq_length (l := List.range labels.length)
      (p := fun i => labels[i]? = result[i]?)
    rw [List.length_range] at hcount
    refine hcount.trans ⟨fun h => ?_, fun h i _ => by simp [h]⟩
    refine List.ext_getElem? fun i => ?_
    rcases Nat.lt_or_ge i labels.length with hi | hi
    · exact (of_decide_eq_true (h i (List.mem_range.mpr hi))).symm
    · rw [List.getElem?_eq_none hi, List.getElem?_eq_none (by omega)]
  refine ⟨by rw [share]; positivity, ?_, ?_⟩
  · rw [share, div_le_iff₀ hpos]
    linarith
  · rw [share, div_eq_iff hpos.ne', mul_right_inj' (by norm_num), Nat.cast_inj, hall]

/-- The turns of the loop inside of the vectors. -/
theorem compare_range (behind : Option (Int × Int)) {k : Nat} (hk : k ≤ labels.length)
    (hlen : result.length = labels.length) :
    (List.range k).foldlM (compare labels result behind) 0 =
      some ((List.range k).countP fun i => labels[i]? = result[i]?) := by
  induction k with
  | zero => rfl
  | succ k ih =>
      obtain ⟨l, hl⟩ : ∃ l, labels[k]? = some l := ⟨_, List.getElem?_eq_getElem (by omega)⟩
      obtain ⟨r, hr⟩ : ∃ r, result[k]? = some r := ⟨_, List.getElem?_eq_getElem (by omega)⟩
      rw [List.range_succ, List.foldlM_append, ih (by omega), List.countP_append]
      simp only [Option.bind_eq_bind, Option.bind_some, List.foldlM_cons, List.foldlM_nil, compare,
        element, hl, hr, Option.some_or, List.countP_singleton, Option.some.injEq]
      by_cases hlr : l = r <;> simp [hlr]

/-- The last turn compares what is behind the vectors. -/
theorem compare_last (behind : Option (Int × Int)) (hlen : result.length = labels.length) :
    (List.range (labels.length + 1)).foldlM (compare labels result behind) 0 =
      behind.map fun b => agreements labels result + if b.1 = b.2 then 1 else 0 := by
  have hl : labels[labels.length]? = none := List.getElem?_eq_none (Nat.le_refl _)
  have hr : result[labels.length]? = none := List.getElem?_eq_none hlen.le
  rw [List.range_succ, List.foldlM_append, compare_range behind (Nat.le_refl _) hlen]
  cases behind with
  | none => simp [compare, element]
  | some b =>
      simp only [Option.bind_eq_bind, Option.bind_some, List.foldlM_cons, List.foldlM_nil, compare,
        element, hl, hr, Option.none_or, Option.map_some, agreements]
      split_ifs <;> simp

/-- **The accuracy is never computed from the vectors alone.** The loop reads
index `n` of both vectors, whatever they are. If the memory behind them can be
read, the value is the share of agreements iff two different numbers stand there;
with two equal ones a position too many is counted, and for `result` equal to
`labels` the value exceeds 100. -/
theorem never_accurate (labels result : List Int) (hne : labels ≠ [])
    (hlen : result.length = labels.length) :
    ¬ Accurate labels result ∧ calculate_accuracy labels result none = none ∧
    ∀ x y, ∃ accuracy, calculate_accuracy labels result (some (x, y)) = some accuracy ∧
      accuracy = 100 * ((agreements labels result + if x = y then 1 else 0 : ℕ) : ℚ) /
        (labels.length : ℚ) ∧
      (accuracy = share labels result ↔ x ≠ y) ∧
      (result = labels → x = y → 100 < accuracy) := by
  have hnone : calculate_accuracy labels result none = none := by
    rw [calculate_accuracy, compare_last none hlen]
    rfl
  have hnot : ¬ Accurate labels result := by
    rw [Accurate, hnone]
    exact Option.some_ne_none _ |>.symm
  refine ⟨hnot, hnone, fun x y => ?_⟩
  have hpos : (0 : ℚ) < labels.length := by exact_mod_cast List.length_pos_iff.mpr hne
  have hsize : labels.length ≠ 0 := List.length_pos_iff.mpr hne |>.ne'
  refine ⟨_, ?_, rfl, ?_, fun heq hxy => ?_⟩
  · rw [calculate_accuracy, compare_last _ hlen, Option.map_some, Option.bind_some, if_neg hsize,
      div_mul_eq_mul_div, mul_comm]
  · rw [share, div_left_inj' hpos.ne', mul_right_inj' (by norm_num), Nat.cast_inj]
    by_cases hxy : x = y <;> simp [hxy]
  · obtain ⟨-, -, hall⟩ := share_bounds hne hlen
    have hshare := hall.mpr heq
    rw [share, div_eq_iff hpos.ne', mul_right_inj' (by norm_num)] at hshare
    rw [if_pos hxy, lt_div_iff₀ hpos, Nat.cast_add, hshare]
    push_cast
    linarith

/-- Two rows, one of them right. -/
theorem never_accurate_two : ¬ Accurate [0, 1] [0, 2] ∧
    calculate_accuracy [0, 1] [0, 2] none = none ∧
    ∃ accuracy, calculate_accuracy [0, 1] [0, 2] (some (5, 5)) = some accuracy ∧
      accuracy ≠ share [0, 1] [0, 2] := by
  obtain ⟨hnot, hnone, hvalue⟩ := never_accurate [0, 1] [0, 2] (by decide) rfl
  obtain ⟨accuracy, hrun, -, hshare, -⟩ := hvalue 5 5
  exact ⟨hnot, hnone, accuracy, hrun, fun heq => hshare.mp heq rfl⟩

/-- One row, classified correctly. -/
theorem calculate_accuracy_reads_past : ¬ ∀ labels result : List Int, labels ≠ [] →
    result.length = labels.length → Accurate labels result := by
  intro h
  have hone : calculate_accuracy [0] [0] none = some (share [0] [0]) := h [0] [0] (by decide) rfl
  have hnone : calculate_accuracy [0] [0] none = none := by decide +kernel
  rw [hnone] at hone
  cases hone

end OsCourse.Ensemble
