import Mathlib.Data.List.Basic

/-!
# OsCourse.Lib.Words

**The words of a text**: the maximal runs of characters that are not separators.
Texts are lists over any type, separators a predicate on it.

`words_append` says when the words of a text in two parts are the words of the
parts: at the seam a separator must stand, or one of the parts must be empty.
Otherwise two words become one (`length_words_fused`).
-/

namespace OsCourse.Lib

variable {α : Type*} {sep : α → Bool}

/-- The maximal runs of characters that are not separators. -/
def words (sep : α → Bool) (l : List α) : List (List α) :=
  (l.splitOnP sep).filter fun w => !w.isEmpty

/-- No word of `l` starts at its first character: there is none, or a separator. -/
def Gap (sep : α → Bool) (l : List α) : Prop := ∀ c ∈ l.head?, sep c = true

/-- No word of `l` ends at its last character. -/
def GapEnd (sep : α → Bool) (l : List α) : Prop := ∀ c ∈ l.getLast?, sep c = true

instance (l : List α) : Decidable (Gap sep l) :=
  inferInstanceAs (Decidable (∀ c ∈ l.head?, sep c = true))

instance (l : List α) : Decidable (GapEnd sep l) :=
  inferInstanceAs (Decidable (∀ c ∈ l.getLast?, sep c = true))

@[simp] theorem words_nil : words sep [] = [] := rfl

theorem gap_nil : Gap sep ([] : List α) := fun _ h => by cases h

/-- A separator between two texts. -/
theorem words_append_cons {c : α} (hc : sep c = true) (l l' : List α) :
    words sep (l ++ c :: l') = words sep l ++ words sep l' := by
  rw [words, List.splitOnP_append_cons l l' hc, List.filter_append]
  rfl

theorem words_sep_cons {c : α} (hc : sep c = true) (l : List α) :
    words sep (c :: l) = words sep l :=
  words_append_cons hc [] l

theorem words_dropWhile (l : List α) : words sep (l.dropWhile sep) = words sep l := by
  induction l with
  | nil => rfl
  | cons c l ih =>
      by_cases hc : sep c = true
      · rw [List.dropWhile_cons_of_pos hc, ih, words_sep_cons hc]
      · rw [List.dropWhile_cons_of_neg hc]

/-- A text without separators is a word. -/
theorem words_singleton {w : List α} (hw : w ≠ []) (hsep : ∀ c ∈ w, sep c = false) :
    words sep w = [w] := by
  rw [words, List.splitOnP_eq_singleton hsep]
  simp [hw]

theorem words_append {l l' : List α} (h : GapEnd sep l ∨ Gap sep l') :
    words sep (l ++ l') = words sep l ++ words sep l' := by
  rcases h with hend | hgap
  · rcases List.eq_nil_or_concat l with rfl | ⟨l₀, c, rfl⟩
    · rfl
    · have hc : sep c = true := hend c (by simp)
      rw [List.concat_eq_append, List.append_assoc, List.singleton_append,
        words_append_cons hc, words_append_cons hc, words_nil, List.append_nil]
  · cases l' with
    | nil => rw [List.append_nil, words_nil, List.append_nil]
    | cons c l' =>
        have hc : sep c = true := hgap c rfl
        rw [words_append_cons hc, words_sep_cons hc]

/-- A character that is not a separator starts a word, or makes one longer. -/
theorem length_words_cons {c : α} (hc : sep c = false) (l : List α) :
    (words sep (c :: l)).length = (words sep l).length + if Gap sep l then 1 else 0 := by
  cases l with
  | nil => simp [words_singleton (w := [c]) (by simp) (by simpa using hc), Gap]
  | cons d l =>
      by_cases hd : sep d = true
      · rw [← List.singleton_append, words_append_cons hd, words_sep_cons hd,
          words_singleton (w := [c]) (by simp) (by simpa using hc), if_pos (by simpa [Gap] using hd)]
        simp [Nat.add_comm]
      · obtain ⟨w, ws, hsplit⟩ := List.exists_cons_of_ne_nil (List.splitOnP_ne_nil sep l)
        simp [words, List.splitOnP_cons_eq_if_modifyHead, hc, hd, hsplit, Gap]

/-- Without a separator at the seam two words become one. -/
theorem length_words_fused {l l' : List α} (hend : ¬ GapEnd sep l) (hgap : ¬ Gap sep l') :
    (words sep (l ++ l')).length + 1 = (words sep l).length + (words sep l').length := by
  induction l with
  | nil => exact absurd (fun _ h => by cases h) hend
  | cons c l ih =>
      rcases l with _ | ⟨d, l⟩
      · have hc : sep c = false := by simpa [GapEnd] using hend
        rw [List.singleton_append, length_words_cons hc, if_neg hgap, length_words_cons hc,
          if_pos gap_nil, words_nil]
        simp [Nat.add_comm]
      · have htail := ih (by simpa [GapEnd] using hend)
        by_cases hc : sep c = true
        · rw [List.cons_append, words_sep_cons hc, words_sep_cons hc, htail]
        · have hc : sep c = false := by simpa using hc
          rw [List.cons_append, length_words_cons hc, length_words_cons hc]
          -- whether a word starts after `c` does not depend on `l'`
          have hsame : Gap sep (d :: l ++ l') ↔ Gap sep (d :: l) := Iff.rfl
          simp only [hsame]
          omega

end OsCourse.Lib
