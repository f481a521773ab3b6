import Mathlib.Data.Nat.Digits.Lemmas

/-!
# OsCourse.Lib.Numeral

**Numerals**: lists of digits to a base `b`, the most significant first.

A number can be used as a queue of digits: the first one is a quotient by a
power of the base (`numeral_cons_div`), the remainder drops it
(`numeral_cons_mod`), and shifting by as many digits as another numeral has
appends that one (`numeral_append`). Zeros would get lost at the front, so the
digits of such a queue are positive.

`paddedDigits` writes a number with at least so many digits, zeros in front.
-/

namespace OsCourse.Lib

variable {b d : ℕ} {l m : List ℕ}

/-- The number that the digits `l` are a numeral of. -/
def numeral (b : ℕ) (l : List ℕ) : ℕ := Nat.ofDigits b l.reverse

/-- `l` are digits to base `b`, none of them 0. -/
def Digits (b : ℕ) (l : List ℕ) : Prop := ∀ d ∈ l, 0 < d ∧ d < b

@[simp] theorem numeral_nil : numeral b [] = 0 := rfl

@[simp] theorem numeral_singleton : numeral b [d] = d := by simp [numeral]

theorem numeral_append (l m : List ℕ) :
    numeral b (l ++ m) = numeral b l * b ^ m.length + numeral b m := by
  rw [numeral, List.reverse_append, Nat.ofDigits_append, List.length_reverse, Nat.add_comm,
    Nat.mul_comm]
  rfl

theorem numeral_cons (d : ℕ) (l : List ℕ) :
    numeral b (d :: l) = d * b ^ l.length + numeral b l := by
  rw [← List.singleton_append, numeral_append, numeral_singleton]

theorem Digits.append (hl : Digits b l) (hm : Digits b m) : Digits b (l ++ m) := by
  intro d hd
  rcases List.mem_append.mp hd with hd | hd
  · exact hl d hd
  · exact hm d hd

theorem numeral_lt_pow (hb : 1 < b) (hl : ∀ d ∈ l, d < b) : numeral b l < b ^ l.length := by
  have hlen : l.reverse.length = l.length := List.length_reverse
  rw [← hlen]
  exact Nat.ofDigits_lt_base_pow_length hb fun d hd => hl d (List.mem_reverse.mp hd)

theorem Digits.numeral_lt (hl : Digits b l) (hb : 1 < b) : numeral b l < b ^ l.length :=
  numeral_lt_pow hb fun d hd => (hl d hd).2

/-- The first digit. -/
theorem numeral_cons_div (hl : Digits b l) (hb : 1 < b) (d : ℕ) :
    numeral b (d :: l) / b ^ l.length = d := by
  rw [numeral_cons, Nat.mul_comm, Nat.mul_add_div (Nat.pow_pos (by omega)),
    Nat.div_eq_of_lt (hl.numeral_lt hb), Nat.add_zero]

/-- The other digits. -/
theorem numeral_cons_mod (hl : Digits b l) (hb : 1 < b) (d : ℕ) :
    numeral b (d :: l) % b ^ l.length = numeral b l := by
  rw [numeral_cons, Nat.mul_comm, Nat.mul_add_mod, Nat.mod_eq_of_lt (hl.numeral_lt hb)]

theorem pow_le_numeral_cons (hd : 0 < d) (l : List ℕ) : b ^ l.length ≤ numeral b (d :: l) := by
  rw [numeral_cons]
  have hle : b ^ l.length ≤ d * b ^ l.length := Nat.le_mul_of_pos_left _ hd
  omega

theorem Digits.numeral_pos (hl : Digits b l) (hb : 1 < b) (hne : l ≠ []) : 0 < numeral b l := by
  obtain ⟨d, l, rfl⟩ := List.exists_cons_of_ne_nil hne
  have hpow : 0 < b ^ l.length := Nat.pow_pos (by omega)
  exact Nat.lt_of_lt_of_le hpow (pow_le_numeral_cons (hl d (by simp)).1 l)

/-- Appending digits makes the number greater. -/
theorem numeral_append_eq_iff (hm : Digits b m) (hb : 1 < b) (l : List ℕ) :
    numeral b (l ++ m) = numeral b l ↔ m = [] := by
  constructor
  · intro h
    by_contra hne
    have hpos := hm.numeral_pos hb hne
    have hle : numeral b l ≤ numeral b l * b ^ m.length :=
      Nat.le_mul_of_pos_right _ (Nat.pow_pos (by omega))
    rw [numeral_append] at h
    omega
  · intro h
    rw [h, List.append_nil]

theorem numeral_le_append (hb : 1 < b) (l m : List ℕ) : numeral b l ≤ numeral b (l ++ m) := by
  rw [numeral_append]
  have hle : numeral b l ≤ numeral b l * b ^ m.length :=
    Nat.le_mul_of_pos_right _ (Nat.pow_pos (by omega))
  omega

/-- How many digits the numeral has can be read off the number. -/
theorem Digits.length_digits (hl : Digits b l) (hb : 1 < b) :
    (b.digits (numeral b l)).length = l.length := by
  rw [numeral, Nat.digits_ofDigits b hb, List.length_reverse]
  · intro d hd
    exact (hl d (List.mem_reverse.mp hd)).2
  · intro hne
    exact Nat.ne_of_gt (hl _ (List.mem_reverse.mp (List.getLast_mem hne))).1

/-- Reading digits one by one. -/
theorem numeral_concat (l : List ℕ) (d : ℕ) : numeral b (l ++ [d]) = numeral b l * b + d := by
  rw [numeral_append, numeral_singleton, List.length_singleton, Nat.pow_one]

/-! ### Writing a number -/

variable {n w : ℕ}

/-- The digits of `n`, with zeros in front if there are less than `w` of them. -/
def paddedDigits (b w n : ℕ) : List ℕ :=
  List.replicate (w - (Nat.digits b n).length) 0 ++ (Nat.digits b n).reverse

theorem length_paddedDigits (b w n : ℕ) :
    (paddedDigits b w n).length = max w (Nat.digits b n).length := by
  rw [paddedDigits, List.length_append, List.length_replicate, List.length_reverse]
  omega

/-- The width is kept by the numbers that fit. -/
theorem length_paddedDigits_of_lt (hb : 1 < b) (h : n < b ^ w) :
    (paddedDigits b w n).length = w := by
  rw [length_paddedDigits]
  exact Nat.max_eq_left ((Nat.digits_length_le_iff hb n).mpr h)

theorem paddedDigits_lt (hb : 1 < b) (w n : ℕ) : ∀ d ∈ paddedDigits b w n, d < b := by
  intro d hd
  rcases List.mem_append.mp hd with hd | hd
  · rw [List.eq_of_mem_replicate hd]
    exact Nat.zero_lt_of_lt hb
  · exact Nat.digits_lt_base hb (List.mem_reverse.mp hd)

theorem numeral_paddedDigits (b w n : ℕ) : numeral b (paddedDigits b w n) = n := by
  rw [numeral, paddedDigits, List.reverse_append, List.reverse_reverse, List.reverse_replicate,
    Nat.ofDigits_append_replicate_zero, Nat.ofDigits_digits]

theorem paddedDigits_eq_nil_iff : paddedDigits b 0 n = [] ↔ n = 0 := by
  rw [← List.length_eq_zero_iff, length_paddedDigits, Nat.zero_max, List.length_eq_zero_iff,
    Nat.digits_eq_nil_iff_eq_zero]

end OsCourse.Lib
