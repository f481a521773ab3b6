import Mathlib.Data.Fintype.Pigeonhole

/-!
# OsCourse.Lib.Levels

**Forests and their breadth-first order.** A forest is given by its parent
links, `climb` follows them, and it is `Acyclic` when nobody comes back to
itself; over a finite type every climb then ends (`Acyclic.climb_none`).

Downwards the same forest is a function to the lists of children. `levels` is
what lies below a list, level by level, the list first. That is the order of a
search with a queue: `found` is what the search has found when it has visited
the first `k` of them, and what is not yet visited of it is the queue
(`drop_found`, `found_succ`).
-/

namespace OsCourse.Lib

variable {α : Type*}

/-! ### Upwards -/

/-- Follow `k` parent links. -/
def climb (parent : α → Option α) : ℕ → α → Option α
  | 0, x => some x
  | k + 1, x => (parent x).bind (climb parent k)

/-- Nobody is its own ancestor. -/
def Acyclic (parent : α → Option α) : Prop := ∀ x k, climb parent (k + 1) x ≠ some x

theorem climb_add (parent : α → Option α) (j k : ℕ) (x : α) :
    climb parent (j + k) x = (climb parent j x).bind (climb parent k) := by
  induction j generalizing x with
  | zero => simp [climb]
  | succ j ih =>
      rw [Nat.succ_add, climb, climb]
      cases parent x with
      | none => rfl
      | some y => exact ih y

/-- Climbing past the root stays past it. -/
theorem climb_none_of_le {parent : α → Option α} {j k : ℕ} {x : α} (hjk : j ≤ k)
    (hj : climb parent j x = none) : climb parent k x = none := by
  rw [← Nat.add_sub_cancel' hjk, climb_add, hj]
  rfl

theorem Acyclic.climb_ne {parent : α → Option α} (h : Acyclic parent) {j k : ℕ} {x y : α}
    (hjk : j < k) (hj : climb parent j x = some y) : climb parent k x ≠ some y := by
  obtain ⟨d, rfl⟩ := Nat.exists_eq_add_of_lt hjk
  rw [Nat.add_assoc, climb_add, hj]
  exact h y d

/-- In a finite forest every climb ends. -/
theorem Acyclic.climb_none [Fintype α] {parent : α → Option α} (h : Acyclic parent) (x : α) :
    climb parent (Fintype.card α) x = none := by
  by_contra hne
  have hsome (j : Fin (Fintype.card α + 1)) : ∃ y, climb parent j x = some y := by
    refine Option.ne_none_iff_exists'.mp fun hj => hne ?_
    exact climb_none_of_le (Nat.le_of_lt_succ j.isLt) hj
  choose anc hanc using hsome
  -- one ancestor more than there are elements: two of them are the same
  obtain ⟨i, j, hij, heq⟩ := Fintype.exists_ne_map_eq_of_card_lt anc (by simp)
  rcases Nat.lt_or_gt_of_ne (Fin.val_ne_of_ne hij) with hlt | hlt
  · exact h.climb_ne hlt (hanc i) (heq ▸ hanc j)
  · exact h.climb_ne hlt (hanc j) (heq ▸ hanc i)

theorem acyclic_of_climb_none {parent : α → Option α} {m : ℕ}
    (h : ∀ x, climb parent m x = none) : Acyclic parent := by
  intro x k hk
  have hround (j : ℕ) : climb parent (j * (k + 1)) x = some x := by
    induction j with
    | zero => rw [Nat.zero_mul]; rfl
    | succ j ih => rw [Nat.succ_mul, climb_add, ih]; exact hk
  have hnone := climb_none_of_le (Nat.le_mul_of_pos_right m k.succ_pos) (h x)
  rw [hround m] at hnone
  cases hnone

theorem acyclic_iff [Fintype α] {parent : α → Option α} :
    Acyclic parent ↔ ∀ x, climb parent (Fintype.card α) x = none :=
  ⟨Acyclic.climb_none, acyclic_of_climb_none⟩

instance [Fintype α] [DecidableEq α] (parent : α → Option α) : Decidable (Acyclic parent) :=
  decidable_of_iff _ acyclic_iff.symm

/-! ### Downwards -/

/-- The `k`-th level below `l`. -/
def level (kids : α → List α) : ℕ → List α → List α
  | 0, l => l
  | k + 1, l => level kids k (l.flatMap kids)

/-- The first `k` levels, from `l` on. -/
def levels (kids : α → List α) : ℕ → List α → List α
  | 0, _ => []
  | k + 1, l => l ++ levels kids k (l.flatMap kids)

variable {kids : α → List α}

/-- A level is the children of the one above it. -/
theorem level_succ (k : ℕ) (l : List α) : level kids (k + 1) l = (level kids k l).flatMap kids := by
  induction k generalizing l with
  | zero => rfl
  | succ k ih => exact ih (l.flatMap kids)

theorem mem_levels {k : ℕ} {l : List α} {x : α} :
    x ∈ levels kids k l ↔ ∃ j < k, x ∈ level kids j l := by
  induction k generalizing l with
  | zero => simp [levels]
  | succ k ih =>
      rw [levels, List.mem_append, ih]
      constructor
      · intro hx
        rcases hx with hx | ⟨j, hj, hx⟩
        · exact ⟨0, k.succ_pos, hx⟩
        · exact ⟨j + 1, Nat.succ_lt_succ hj, hx⟩
      · intro ⟨j, hj, hx⟩
        cases j with
        | zero => exact .inl hx
        | succ j => exact .inr ⟨j, Nat.lt_of_succ_lt_succ hj, hx⟩

@[simp] theorem levels_nil (k : ℕ) : levels kids k [] = [] := by
  induction k with
  | zero => rfl
  | succ k ih => exact ih

/-- Below a level without elements there are none. -/
theorem levels_eq {k : ℕ} {l : List α} (h : level kids k l = []) :
    levels kids k l = l ++ (levels kids k l).flatMap kids := by
  induction k generalizing l with
  | zero => rw [show l = [] from h]; rfl
  | succ k ih =>
      rw [levels, List.flatMap_append, ← ih h]

/-- An element of a level climbs to the list the levels start at. -/
theorem exists_climb_of_mem_level {parent : α → Option α}
    (hkids : ∀ x y, y ∈ kids x → parent y = some x) {k : ℕ} {l : List α} {x : α}
    (hx : x ∈ level kids k l) : ∃ y ∈ l, climb parent k x = some y := by
  induction k generalizing x with
  | zero => exact ⟨x, hx, rfl⟩
  | succ k ih =>
      rw [level_succ] at hx
      obtain ⟨z, hz, hzx⟩ := List.mem_flatMap.mp hx
      obtain ⟨y, hy, hclimb⟩ := ih hz
      refine ⟨y, hy, ?_⟩
      rw [climb, hkids z x hzx]
      exact hclimb

/-- The levels of a finite forest run out. -/
theorem Acyclic.level_eq_nil [Fintype α] {parent : α → Option α} (h : Acyclic parent)
    (hkids : ∀ x y, y ∈ kids x → parent y = some x) (l : List α) :
    level kids (Fintype.card α) l = [] := by
  refine List.eq_nil_iff_forall_not_mem.mpr fun x hx => ?_
  obtain ⟨y, -, hy⟩ := exists_climb_of_mem_level hkids hx
  rw [h.climb_none x] at hy
  cases hy

/-! ### The search -/

/-- What a search from `l` has found when it has visited the first `k` elements
of `d`. -/
def found (kids : α → List α) (l d : List α) (k : ℕ) : List α := l ++ (d.take k).flatMap kids

@[simp] theorem found_zero (l d : List α) : found kids l d 0 = l := by simp [found]

theorem found_succ (l : List α) {d : List α} {k : ℕ} (hk : k < d.length) :
    found kids l d (k + 1) = found kids l d k ++ kids d[k] := by
  rw [found, found, ← List.take_concat_get' d k hk, List.flatMap_append, List.flatMap_singleton,
    List.append_assoc]

/-- What a search finds, it finds in the order in which it visits. -/
theorem found_prefix {l d : List α} (hd : d = l ++ d.flatMap kids) (k : ℕ) :
    found kids l d k <+: d := by
  refine ⟨(d.drop k).flatMap kids, ?_⟩
  rw [found, List.append_assoc, ← List.flatMap_append, List.take_append_drop]
  exact hd.symm

theorem found_of_length_le {l d : List α} (hd : d = l ++ d.flatMap kids) {k : ℕ}
    (hk : d.length ≤ k) : found kids l d k = d := by
  rw [found, List.take_of_length_le hk]
  exact hd.symm

/-- The head of the queue is the next to visit. -/
theorem drop_found {l d : List α} (hd : d = l ++ d.flatMap kids) {k : ℕ}
    (hk : k < (found kids l d k).length) :
    ∃ h : k < d.length,
      (found kids l d k).drop k = d[k] :: (found kids l d k).drop (k + 1) := by
  have hp := found_prefix hd k
  refine ⟨Nat.lt_of_lt_of_le hk hp.length_le, ?_⟩
  rw [List.drop_eq_getElem_cons hk, hp.getElem]

/-- Past `k` nothing is found when nobody that is left to visit has children. -/
theorem found_eq_iff {l d : List α} (hd : d = l ++ d.flatMap kids) (k : ℕ) :
    found kids l d k = d ↔ ∀ j (hj : j < d.length), k ≤ j → kids d[j] = [] := by
  have hsplit : found kids l d k ++ (d.drop k).flatMap kids = d := by
    rw [found, List.append_assoc, ← List.flatMap_append, List.take_append_drop]
    exact hd.symm
  have hnil : found kids l d k = d ↔ (d.drop k).flatMap kids = [] := by
    constructor
    · intro h
      rw [h] at hsplit
      exact List.append_right_eq_self.mp hsplit
    · intro h
      rw [h, List.append_nil] at hsplit
      exact hsplit
  rw [hnil, List.flatMap_eq_nil_iff]
  constructor
  · intro h j hj hkj
    exact h _ (List.mem_drop_iff_getElem.mpr ⟨j - k, by omega, by congr 1; omega⟩)
  · intro h x hx
    obtain ⟨i, hi, rfl⟩ := List.mem_drop_iff_getElem.mp hx
    exact h _ _ (Nat.le_add_right k i)

end OsCourse.Lib
