import Mathlib.Algebra.Order.Field.Basic
import Mathlib.Data.Rat.Cast.Order
import Mathlib.Tactic.NormNum
import OsCourse.Lib.Numeral
import OsCourse.Sched.System

/-!
# OsCourse.Sched.Stof

**Reading a priority** (`stof` and `sys_set_priority`, `sysproc.c`). The string
is a list of characters without its final 0, the result an exact rational.

`pnt_seen` is the position of the first point and, in the same variable, 0 if
there is none. A string without a point is therefore read like one that starts
with a point: its first digit is skipped and the others are decimals. It denotes
the number read only if all its digits are 0 (`stof_correct_iff`); the priority
`"9"` of `foo.c` is read as 0.
-/

namespace OsCourse.Sched

open OsCourse.Lib

variable {n : Nat}

/-! ### The code -/

/-- The first loop of `stof`: `pnt_seen`, for the characters from `i` on. -/
def pntSeen : List UInt8 → Nat → Nat
  | [], _ => 0
  | c :: cs, i => if c = 46 then i else pntSeen cs (i + 1)

/-- `p[i] - 48`, with `char` signed. -/
def digitOf (c : UInt8) : Int32 := c.toInt8.toInt32 - 48

/-- The second loop of `stof`, for the characters from `i` on: `num`, `num2`
and `x`. -/
def readLoop (pnt_seen : Nat) : List UInt8 → Nat → Int32 → Int32 → Nat → Int32 × Int32 × Nat
  | [], _, num, num2, x => (num, num2, x)
  | c :: cs, i, num, num2, x =>
      if i < pnt_seen then readLoop pnt_seen cs (i + 1) (num * 10 + digitOf c) num2 x
      else if i = pnt_seen then readLoop pnt_seen cs (i + 1) num num2 x
      else readLoop pnt_seen cs (i + 1) num (num2 * 10 + digitOf c) (x + 1)

/-- The third loop of `stof`: `y` after `x` rounds. -/
def tenTo : Nat → Int32
  | 0 => 1
  | x + 1 => tenTo x * 10

/-- `stof`; `none` where it divides by 0 (from 32 decimals on). -/
def stof (p : List UInt8) : Option ℚ :=
  match readLoop (pntSeen p 0) p 0 0 0 0 with
  | (num, num2, x) =>
      if tenTo x = 0 then none
      else some (num.toInt + num2.toInt / (tenTo x).toInt)

/-- `sys_set_priority`, after its arguments have been fetched. -/
def sysSetPriority (t : Table n ℚ) (pid : Int32) (priorityArg : List UInt8) : Option (Table n ℚ) :=
  (stof priorityArg).map (setPriority t pid)

/-! ### Decimal numbers -/

/-- The characters of digits. -/
def digitChars (ds : List ℕ) : List UInt8 := ds.map fun d => UInt8.ofNat (48 + d)

@[simp] theorem length_digitChars (ds : List ℕ) : (digitChars ds).length = ds.length := by
  simp [digitChars]

/-- `s` is a decimal number, without a point or with one, with at most 9 digits
on each side of it; it denotes `q`. -/
inductive Decimal : List UInt8 → ℚ → Prop
  | whole (a : List ℕ) : (∀ d ∈ a, d < 10) → a ≠ [] → a.length ≤ 9 →
      Decimal (digitChars a) (numeral 10 a)
  | point (a b : List ℕ) : (∀ d ∈ a, d < 10) → (∀ d ∈ b, d < 10) → a ++ b ≠ [] →
      a.length ≤ 9 → b.length ≤ 9 →
      Decimal (digitChars a ++ 46 :: digitChars b) (numeral 10 a + numeral 10 b / 10 ^ b.length)

theorem digitChar_ne_point {d : ℕ} (hd : d < 10) : UInt8.ofNat (48 + d) ≠ 46 := by
  revert d
  decide

theorem digitOf_toInt {d : ℕ} (hd : d < 10) : (digitOf (UInt8.ofNat (48 + d))).toInt = d := by
  revert d
  decide

theorem tenTo_toInt {x : ℕ} (hx : x ≤ 9) : (tenTo x).toInt = 10 ^ x := by
  have hall : ∀ x < 10, (tenTo x).toInt = 10 ^ x := by decide
  exact hall x (Nat.lt_succ_of_le hx)

/-! ### The loops -/

theorem point_not_mem {a : List ℕ} (ha : ∀ d ∈ a, d < 10) : 46 ∉ digitChars a := by
  intro h
  obtain ⟨d, hd, heq⟩ := List.mem_map.mp h
  exact digitChar_ne_point (ha d hd) heq

theorem pntSeen_of_not_mem {p : List UInt8} (hp : 46 ∉ p) (i : Nat) : pntSeen p i = 0 := by
  induction p generalizing i with
  | nil => rfl
  | cons c cs ih =>
      have hc : c ≠ 46 := fun h => hp (h ▸ List.mem_cons_self)
      rw [pntSeen, if_neg hc]
      exact ih (fun h => hp (List.mem_cons_of_mem c h)) (i + 1)

theorem pntSeen_point {p : List UInt8} (hp : 46 ∉ p) (q : List UInt8) (i : Nat) :
    pntSeen (p ++ 46 :: q) i = i + p.length := by
  induction p generalizing i with
  | nil => simp [pntSeen]
  | cons c cs ih =>
      have hc : c ≠ 46 := fun h => hp (h ▸ List.mem_cons_self)
      rw [List.cons_append, pntSeen, if_neg hc, ih (fun h => hp (List.mem_cons_of_mem c h)),
        List.length_cons]
      omega

/-- One more digit, as long as the number is an `int`. -/
theorem readDigit {num : Int32} {pre : List ℕ} (hnum : num.toInt = numeral 10 pre) {d : ℕ}
    (hd : d < 10) (hlt : numeral 10 (pre ++ [d]) < 2 ^ 31) :
    (num * 10 + digitOf (UInt8.ofNat (48 + d))).toInt = numeral 10 (pre ++ [d]) := by
  have hten : (10 : Int32).toInt = 10 := by decide
  rw [numeral_concat] at hlt ⊢
  rw [Int32.toInt_add, Int32.toInt_mul, hnum, hten, digitOf_toInt hd, Int.bmod_add_bmod,
    Int.bmod_eq_of_le] <;> push_cast <;> omega

/-- The digits before the point. -/
theorem readLoop_num {a : List ℕ} {pnt_seen i : Nat} (hi : i + a.length ≤ pnt_seen)
    {num : Int32} {pre : List ℕ} (hnum : num.toInt = numeral 10 pre) (ha : ∀ d ∈ a, d < 10)
    (hlt : numeral 10 (pre ++ a) < 2 ^ 31) (rest : List UInt8) (num2 : Int32) (x : Nat) :
    ∃ num' : Int32, num'.toInt = numeral 10 (pre ++ a) ∧
      readLoop pnt_seen (digitChars a ++ rest) i num num2 x =
        readLoop pnt_seen rest (i + a.length) num' num2 x := by
  induction a generalizing i num pre with
  | nil => exact ⟨num, by rw [List.append_nil, hnum], rfl⟩
  | cons d ds ih =>
      rw [List.length_cons] at hi ⊢
      rw [List.append_cons] at hlt ⊢
      have hfirst : numeral 10 (pre ++ [d]) < 2 ^ 31 :=
        (numeral_le_append (by decide) (pre ++ [d]) ds).trans_lt hlt
      have hnum' := readDigit hnum (ha d List.mem_cons_self) hfirst
      obtain ⟨num', hval, hloop⟩ :=
        ih (i := i + 1) (by omega) hnum' (fun e he => ha e (List.mem_cons_of_mem d he)) hlt
      refine ⟨num', hval, ?_⟩
      have hbefore : i < pnt_seen := by omega
      have hstep : readLoop pnt_seen (digitChars (d :: ds) ++ rest) i num num2 x =
          readLoop pnt_seen (digitChars ds ++ rest) (i + 1)
            (num * 10 + digitOf (UInt8.ofNat (48 + d))) num2 x := if_pos hbefore
      rw [hstep, hloop, Nat.add_assoc, Nat.add_comm 1]

/-- The digits behind the position of the point. -/
theorem readLoop_num2 {b : List ℕ} {pnt_seen i : Nat} (hi : pnt_seen < i) {num2 : Int32}
    {pre : List ℕ} (hnum : num2.toInt = numeral 10 pre) (hb : ∀ d ∈ b, d < 10)
    (hlt : numeral 10 (pre ++ b) < 2 ^ 31) (num : Int32) (x : Nat) :
    ∃ num2' : Int32, num2'.toInt = numeral 10 (pre ++ b) ∧
      readLoop pnt_seen (digitChars b) i num num2 x = (num, num2', x + b.length) := by
  induction b generalizing i num2 pre x with
  | nil => exact ⟨num2, by rw [List.append_nil, hnum], rfl⟩
  | cons d ds ih =>
      rw [List.append_cons] at hlt ⊢
      have hfirst : numeral 10 (pre ++ [d]) < 2 ^ 31 :=
        (numeral_le_append (by decide) (pre ++ [d]) ds).trans_lt hlt
      have hnum' := readDigit hnum (hb d List.mem_cons_self) hfirst
      obtain ⟨num2', hval, hloop⟩ :=
        ih (i := i + 1) (by omega) hnum' (fun e he => hb e (List.mem_cons_of_mem d he)) hlt (x + 1)
      refine ⟨num2', hval, ?_⟩
      have hge : ¬ i < pnt_seen := by omega
      have hne : i ≠ pnt_seen := by omega
      have hstep : readLoop pnt_seen (digitChars (d :: ds)) i num num2 x =
          readLoop pnt_seen (digitChars ds) (i + 1) num
            (num2 * 10 + digitOf (UInt8.ofNat (48 + d))) (x + 1) :=
        (if_neg hge).trans (if_neg hne)
      rw [hstep, hloop, List.length_cons]
      congr 2
      omega

/-- Numbers of at most 9 digits are `int`s. -/
theorem numeral_lt_int {l : List ℕ} (hl : ∀ d ∈ l, d < 10) (hlen : l.length ≤ 9) :
    numeral 10 l < 2 ^ 31 :=
  calc numeral 10 l < 10 ^ l.length := numeral_lt_pow (by decide) hl
    _ ≤ 10 ^ 9 := Nat.pow_le_pow_right (by decide) hlen
    _ ≤ 2 ^ 31 := by decide

/-- The result for digits `b` read as decimals. -/
theorem stof_of_loop {p : List UInt8} {num num2 : Int32} {x a b : Nat}
    (hloop : readLoop (pntSeen p 0) p 0 0 0 0 = (num, num2, x)) (hx : x ≤ 9)
    (hnum : num.toInt = a) (hnum2 : num2.toInt = b) : stof p = some ((a : ℚ) + b / 10 ^ x) := by
  have hten := tenTo_toInt hx
  have hne : tenTo x ≠ 0 := by
    intro h
    rw [h, Int32.toInt_zero] at hten
    exact absurd hten.symm (pow_ne_zero x (by decide))
  unfold stof
  rw [hloop]
  simp only [if_neg hne, hnum, hnum2, hten]
  refine congrArg some ?_
  push_cast
  rfl

/-- With a point, the number is read as it stands. -/
theorem stof_point {a b : List ℕ} (ha : ∀ d ∈ a, d < 10) (hb : ∀ d ∈ b, d < 10)
    (hla : numeral 10 a < 2 ^ 31) (hlb : b.length ≤ 9) :
    stof (digitChars a ++ 46 :: digitChars b) =
      some ((numeral 10 a : ℚ) + numeral 10 b / 10 ^ b.length) := by
  have hpnt : pntSeen (digitChars a ++ 46 :: digitChars b) 0 = a.length := by
    rw [pntSeen_point (point_not_mem ha), length_digitChars, Nat.zero_add]
  have hzero : (0 : Int32).toInt = numeral 10 [] := rfl
  obtain ⟨num, hnum, hfirst⟩ :=
    readLoop_num (Nat.le_of_eq (Nat.zero_add a.length)) hzero ha hla (46 :: digitChars b) 0 0
  obtain ⟨num2, hnum2, hsecond⟩ :=
    readLoop_num2 (Nat.lt_succ_self a.length) hzero hb (numeral_lt_int hb hlb) num 0
  refine stof_of_loop ?_ hlb hnum hnum2
  have hskip : readLoop a.length (46 :: digitChars b) a.length num 0 0 =
      readLoop a.length (digitChars b) (a.length + 1) num 0 0 :=
    (if_neg (Nat.lt_irrefl _)).trans (if_pos rfl)
  rw [hpnt, hfirst, Nat.zero_add, hskip, hsecond, Nat.zero_add]

/-- Without one, the first digit is skipped and the others are decimals. -/
theorem stof_whole {d : ℕ} {ds : List ℕ} (ha : ∀ e ∈ d :: ds, e < 10)
    (hlen : (d :: ds).length ≤ 9) :
    stof (digitChars (d :: ds)) = some ((numeral 10 ds : ℚ) / 10 ^ ds.length) := by
  have hpnt : pntSeen (digitChars (d :: ds)) 0 = 0 := pntSeen_of_not_mem (point_not_mem ha) 0
  have hds : ∀ e ∈ ds, e < 10 := fun e he => ha e (List.mem_cons_of_mem d he)
  rw [List.length_cons] at hlen
  have hzero : (0 : Int32).toInt = numeral 10 [] := rfl
  obtain ⟨num2, hnum2, hloop⟩ :=
    readLoop_num2 Nat.zero_lt_one hzero hds (numeral_lt_int hds (Nat.le_of_succ_le hlen)) 0 0
  have hskip : readLoop 0 (digitChars (d :: ds)) 0 0 0 0 = readLoop 0 (digitChars ds) 1 0 0 0 :=
    (if_neg (Nat.lt_irrefl 0)).trans (if_pos rfl)
  have hall : readLoop (pntSeen (digitChars (d :: ds)) 0) (digitChars (d :: ds)) 0 0 0 0 =
      (0, num2, ds.length) := by
    rw [hpnt, hskip, hloop, Nat.zero_add]
  have hread := stof_of_loop hall (by omega) hzero hnum2
  simpa using hread

/-! ### Which strings are read as they stand -/

/-- A whole number is at most as large as its own decimals only if it is 0. -/
theorem numeral_eq_decimals_iff {d : ℕ} {ds : List ℕ} (hds : ∀ e ∈ ds, e < 10) :
    (numeral 10 ds : ℚ) / 10 ^ ds.length = numeral 10 (d :: ds) ↔ numeral 10 (d :: ds) = 0 := by
  have hlt : numeral 10 ds < 10 ^ ds.length := numeral_lt_pow (by decide) hds
  have hpos : (0 : ℚ) < 10 ^ ds.length := pow_pos (by norm_num) _
  constructor
  · intro h
    have hone : (numeral 10 (d :: ds) : ℚ) < 1 := by
      rw [← h, div_lt_one hpos]
      exact_mod_cast hlt
    have hnat : numeral 10 (d :: ds) < 1 := by exact_mod_cast hone
    exact Nat.lt_one_iff.mp hnat
  · intro h
    have hzero : numeral 10 ds = 0 := by
      rw [numeral_cons] at h
      exact (Nat.add_eq_zero_iff.mp h).2
    rw [h, hzero]
    simp

theorem numeral_eq_zero_iff {l : List ℕ} : numeral 10 l = 0 ↔ ∀ d ∈ l, d = 0 := by
  induction l with
  | nil => simp
  | cons d ds ih =>
      rw [numeral_cons, Nat.add_eq_zero_iff, ih, Nat.mul_eq_zero]
      simp

theorem digitChar_eq_zero_iff {d : ℕ} (hd : d < 10) : UInt8.ofNat (48 + d) = 48 ↔ d = 0 := by
  revert d
  decide

/-- **The number is read right** exactly if it is written with a point, or is a
row of zeros; `set_priority` stores what was read. -/
theorem stof_correct_iff (s : List UInt8) (q : ℚ) (hs : Decimal s q) :
    (stof s = some q ↔ 46 ∈ s ∨ ∀ c ∈ s, c = 48) ∧
      ∀ (t : Table n ℚ) (pid : Int32) (i : Fin n),
        ((List.finRange n).find? fun i => (t i).pid = pid) = some i →
          ((sysSetPriority t pid s).map (fun t' => (t' i).priority) = some q ↔
            46 ∈ s ∨ ∀ c ∈ s, c = 48) := by
  have hread : stof s = some q ↔ 46 ∈ s ∨ ∀ c ∈ s, c = 48 := by
    cases hs with
    | point a b ha hb hne hla hlb =>
        rw [stof_point ha hb (numeral_lt_int ha hla) hlb]
        simp
    | whole a ha hne hlen =>
        obtain ⟨d, ds, rfl⟩ := List.exists_cons_of_ne_nil hne
        have hds : ∀ e ∈ ds, e < 10 := fun e he => ha e (List.mem_cons_of_mem d he)
        rw [stof_whole ha hlen, Option.some.injEq, numeral_eq_decimals_iff hds,
          numeral_eq_zero_iff]
        constructor
        · intro h
          right
          intro c hc
          obtain ⟨e, he, rfl⟩ := List.mem_map.mp hc
          exact (digitChar_eq_zero_iff (ha e he)).mpr (h e he)
        · rintro (hpoint | hzeros) e he
          · exact absurd hpoint (point_not_mem ha)
          · exact (digitChar_eq_zero_iff (ha e he)).mp (hzeros _ (List.mem_map_of_mem he))
  refine ⟨hread, fun t pid i hi => ?_⟩
  rw [← hread, sysSetPriority]
  cases hstof : stof s with
  | none => simp
  | some v =>
      have hslot : (setPriority t pid v i).priority = v := by
        unfold setPriority updatePid
        rw [hi]
        simp
      simp [hslot]

/-- `set_priority(pid, "9")` sets 0. -/
theorem stof_nine : Decimal [57] 9 ∧ stof [57] = some 0 := by
  refine ⟨?_, by decide +kernel⟩
  have h := Decimal.whole [9] (by decide) (by decide) (by decide)
  simpa [digitChars] using h

/-- `"1.5"` is read right. -/
theorem stof_one_half : stof [49, 46, 53] = some (3 / 2) := by
  have hdec : Decimal [49, 46, 53] (3 / 2) := by
    have h := Decimal.point [1] [5] (by decide) (by decide) (by decide) (by decide) (by decide)
    have hval : ((numeral 10 [1] : ℚ) + numeral 10 [5] / 10 ^ [5].length) = 3 / 2 := by
      simp only [numeral_singleton, List.length_singleton]
      norm_num
    rw [hval] at h
    simpa [digitChars] using h
  exact (stof_correct_iff (n := 0) _ _ hdec).1.mpr (.inl (by decide))

end OsCourse.Sched
