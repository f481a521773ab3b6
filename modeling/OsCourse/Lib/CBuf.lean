import Mathlib.Data.List.Basic

/-!
# OsCourse.Lib.CBuf

**C character arrays.** A `char` array of `N` elements, read and written by a
subscript of type `int`: an access whose subscript is not in `0..N-1` has no
result. What an array holds between two positions is a list, `slice b i j`;
programs that move bytes about are specified cell by cell, through `b[k]?`, and
the `slice` lemmas turn such a specification into one about lists.
-/

namespace OsCourse.Lib

/-- `char b[N]`. -/
abbrev CBuf (N : Nat) := Vector UInt8 N

namespace CBuf

variable {N : Nat}

/-- `b[i]`. -/
def read (b : CBuf N) (i : Int) : Option UInt8 := if 0 ≤ i then b[i.toNat]? else none

/-- `b[i] = c`. -/
def write (b : CBuf N) (i : Int) (c : UInt8) : Option (CBuf N) :=
  if h : 0 ≤ i ∧ i.toNat < N then some (b.set i.toNat c h.2) else none

/-- The elements `b[i], …, b[i+k-1]`, read one after another. -/
def readRange (b : CBuf N) (i : Int) : Nat → Option (List UInt8)
  | 0 => some []
  | k + 1 => do
      let c ← read b i
      let cs ← readRange b (i + 1) k
      some (c :: cs)

/-- What `b` holds from position `i` up to, and without, position `j`. -/
def slice (b : CBuf N) (i j : Nat) : List UInt8 := (b.toList.take j).drop i

/-! ### Accesses -/

theorem read_natCast (b : CBuf N) (i : Nat) : read b i = b[i]? := by
  simp [read]

theorem exists_getElem? (b : CBuf N) {i : Nat} (h : i < N) : ∃ c, b[i]? = some c :=
  ⟨b[i], by simp [h]⟩

theorem write_natCast (b : CBuf N) {i : Nat} (h : i < N) (c : UInt8) :
    write b i c = some (b.set i c) := by
  simp [write, h]

/-- A write beyond the end of the array. -/
theorem write_of_le (b : CBuf N) {i : Int} (h : (N : Int) ≤ i) (c : UInt8) :
    write b i c = none := by
  rw [write, dif_neg]
  omega

theorem getElem?_set (b : CBuf N) {i : Nat} (h : i < N) (c : UInt8) (k : Nat) :
    (b.set i c)[k]? = if k = i then some c else b[k]? := by
  rw [Vector.getElem?_set]
  by_cases hk : k = i
  · simp [hk]
  · simp [hk, Ne.symm hk]

/-! ### Slices -/

theorem getElem?_slice (b : CBuf N) (i j k : Nat) :
    (slice b i j)[k]? = if i + k < j then b[i + k]? else none := by
  rw [slice, List.getElem?_drop, List.getElem?_take]
  split_ifs
  · simp
  · rfl

theorem length_slice (b : CBuf N) {i j : Nat} (h : j ≤ N) : (slice b i j).length = j - i := by
  simp [slice, h]

theorem mem_slice {b : CBuf N} {i j : Nat} {c : UInt8} (h : c ∈ slice b i j) :
    ∃ k, i ≤ k ∧ k < j ∧ b[k]? = some c := by
  obtain ⟨k, hk⟩ := List.mem_iff_getElem?.mp h
  rw [getElem?_slice] at hk
  split_ifs at hk with hlt
  exact ⟨i + k, by omega, hlt, hk⟩

/-- Slices of two arrays are equal if the arrays agree cell by cell, perhaps
at an offset. -/
theorem slice_eq {M : Nat} {b : CBuf N} {b' : CBuf M} {i j i' j' : Nat} (hij : j + i' = j' + i)
    (h : ∀ k, i + k < j → b[i + k]? = b'[i' + k]?) : slice b i j = slice b' i' j' := by
  refine List.ext_getElem? fun k => ?_
  rw [getElem?_slice, getElem?_slice]
  by_cases hk : i + k < j
  · rw [if_pos hk, if_pos (by omega), h k hk]
  · rw [if_neg hk, if_neg (by omega)]

theorem slice_of_le (b : CBuf N) {i j : Nat} (h : j ≤ i) : slice b i j = [] := by
  refine List.ext_getElem? fun k => ?_
  rw [getElem?_slice, if_neg (by omega)]
  rfl

/-- A slice is cut at any position inside it. -/
theorem slice_append (b : CBuf N) {i j k : Nat} (hij : i ≤ j) (hjk : j ≤ k) (hk : k ≤ N) :
    slice b i j ++ slice b j k = slice b i k := by
  refine List.ext_getElem? fun m => ?_
  rw [List.getElem?_append, length_slice b (Nat.le_trans hjk hk), getElem?_slice, getElem?_slice,
    getElem?_slice]
  by_cases hm : i + m < j
  · rw [if_pos (by omega), if_pos hm, if_pos (by omega)]
  · rw [if_neg (by omega), show j + (m - (j - i)) = i + m by omega]

/-- A slice starts with the element at its first position. -/
theorem slice_cons {b : CBuf N} {i j : Nat} {c : UInt8} (hij : i < j) (hc : b[i]? = some c) :
    slice b i j = c :: slice b (i + 1) j := by
  refine List.ext_getElem? fun k => ?_
  rw [getElem?_slice]
  cases k with
  | zero => simpa [hij] using hc
  | succ k =>
      rw [List.getElem?_cons_succ, getElem?_slice, show i + (k + 1) = i + 1 + k by omega]

/-- A slice ends with the element before its last position. -/
theorem slice_concat {b : CBuf N} {i j : Nat} {c : UInt8} (hij : i ≤ j) (hc : b[j]? = some c) :
    slice b i (j + 1) = slice b i j ++ [c] := by
  have hj : j < N := by
    by_contra hj
    rw [Vector.getElem?_eq_none (by omega)] at hc
    cases hc
  rw [← slice_append b hij (Nat.le_succ j) hj, slice_cons (Nat.lt_succ_self j) hc,
    slice_of_le b (Nat.le_refl _)]

/-- Reading a range inside the array gives its slice. -/
theorem readRange_natCast (b : CBuf N) (i k : Nat) (h : i + k ≤ N) :
    readRange b i k = some (slice b i (i + k)) := by
  induction k generalizing i with
  | zero => rw [readRange, slice_of_le b (by omega)]
  | succ k ih =>
      obtain ⟨c, hc⟩ := exists_getElem? b (show i < N by omega)
      have hnext : readRange b ((i : Int) + 1) k = some (slice b (i + 1) (i + 1 + k)) := by
        exact_mod_cast ih (i + 1) (by omega)
      rw [readRange, read_natCast, hc, hnext, slice_cons (show i < i + (k + 1) by omega) hc,
        show i + (k + 1) = i + 1 + k by omega]
      rfl

end CBuf

end OsCourse.Lib
