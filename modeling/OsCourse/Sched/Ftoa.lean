import Mathlib.Data.Rat.Floor
import OsCourse.Lib.CString
import OsCourse.Sched.Stof

/-!
# OsCourse.Sched.Ftoa

**Printing a priority** (`reverse`, `intToStr` and `ftoa`, `proc.c`), and what
`stof` makes of the text. Numbers are exact rationals, as in `Stof`.

The digits are written the last first, filled up with zeros and then turned
around in place, so that the zeros come to stand right after the point. A number
below 1 has no digits before the point; the text then starts with it, which
`stof` reads like a number without a point: as decimals only, and so right.
-/

namespace OsCourse.Sched

open OsCourse.Lib CBuf

variable {N : Nat}

/-! ### The code -/

/-- The loop of `reverse`, for the string at position `str` of a buffer. -/
def reverseLoop (res : CBuf N) (str : Nat) (i j : Int) : Option (CBuf N) :=
  if i < j then do
    let temp ← res.read (str + i)
    let c ← res.read (str + j)
    let res ← res.write (str + i) c
    let res ← res.write (str + j) temp
    reverseLoop res str (i + 1) (j - 1)
  else some res
termination_by (j - i).toNat
decreasing_by omega

/-- `reverse`. -/
def reverse (res : CBuf N) (str len : Nat) : Option (CBuf N) :=
  reverseLoop res str 0 (len - 1)

/-- The first loop of `intToStr`: the digits of `x`, the last one first. -/
def digitLoop (res : CBuf N) (str : Nat) (x : Int32) (i : Nat) : Option (CBuf N × Nat) :=
  if x = 0 then some (res, i)
  else do
    let res ← res.write (str + i) (x % 10 + 48).toInt8.toUInt8
    digitLoop res str (x / 10) (i + 1)
termination_by x.toInt.natAbs
decreasing_by
  have hne : x.toInt ≠ 0 := fun h => ‹¬ x = 0› (Int32.toInt_inj.mp (h.trans Int32.toInt_zero.symm))
  have hten : (10 : Int32).toInt = 10 := by decide
  rw [Int32.toInt_div_of_ne_right x 10 (by decide), hten, Int.natAbs_tdiv]
  exact Nat.div_lt_self (Int.natAbs_pos.mpr hne) (by decide)

/-- The second loop of `intToStr`. -/
def padLoop (res : CBuf N) (str : Nat) (d : Int) (i : Nat) : Option (CBuf N × Nat) :=
  if i < d then do
    let res ← res.write (str + i) 48
    padLoop res str d (i + 1)
  else some (res, i)
termination_by (d - i).toNat
decreasing_by omega

/-- `intToStr`: the buffer, and the length of the text. -/
def intToStr (x : Int32) (res : CBuf N) (str : Nat) (d : Int) : Option (CBuf N × Nat) := do
  let (res, i) ← digitLoop res str x 0
  let (res, i) ← padLoop res str d i
  let res ← reverse res str i
  let res ← res.write (str + i) 0
  some (res, i)

/-- `(int)q`, which cuts off the fraction; undefined for numbers that are too large. -/
def castInt (q : ℚ) : Option Int32 :=
  let z := if 0 ≤ q then ⌊q⌋ else ⌈q⌉
  if -2147483648 ≤ z ∧ z < 2147483648 then some (Int32.ofInt z) else none

/-- `ftoa`. -/
def ftoa (n : ℚ) (res : CBuf N) (afterpoint : Int) : Option (CBuf N) := do
  let ipart ← castInt n
  let fpart := n - ipart.toInt
  let (res, i) ← intToStr ipart res 0 0
  if afterpoint ≠ 0 then do
    let res ← res.write i 46
    let pow := tenTo afterpoint.toNat
    let fpart := fpart * pow.toInt
    let fpart ← castInt fpart
    let (res, _) ← intToStr fpart res (i + 1) afterpoint
    some res
  else some res

/-! ### The loops -/

/-- The part from `i` to `j` is turned around. The induction takes off the two ends. -/
theorem reverseLoop_spec {res : CBuf N} {str i : Nat} {l : List UInt8}
    (h : Holds res (str + i) l) :
    ∃ res', reverseLoop res str i (i + l.length - 1) = some res' ∧
      Holds res' (str + i) l.reverse ∧
      ∀ m, m < str + i ∨ str + i + l.length ≤ m → res'[m]? = res[m]? := by
  induction l using List.bidirectionalRec generalizing res i with
  | nil =>
      refine ⟨res, ?_, h, fun _ _ => rfl⟩
      rw [reverseLoop, if_neg (by simp)]
  | singleton c =>
      refine ⟨res, ?_, h, fun _ _ => rfl⟩
      rw [reverseLoop, if_neg (by simp)]
  | cons_append c l d ih =>
      rw [holds_cons, holds_append, holds_singleton] at h
      obtain ⟨hc, hl, hd⟩ := h
      have hlen : (c :: (l ++ [d])).length = l.length + 2 := by simp
      have hend : str + i + 1 + l.length < N := by
        by_contra hge
        rw [Vector.getElem?_eq_none (by omega)] at hd
        cases hd
      have hfirst : ((str : Int) + (i : Int)) = ((str + i : Nat) : Int) := rfl
      have hlast : (str : Int) + ((i : Int) + (c :: (l ++ [d])).length - 1) =
          ((str + i + 1 + l.length : Nat) : Int) := by
        rw [hlen]
        push_cast
        omega
      have hless : (i : Int) < i + (c :: (l ++ [d])).length - 1 := by omega
      have hinner : (i : Int) + (c :: (l ++ [d])).length - 1 - 1 =
          ((i + 1 : Nat) : Int) + l.length - 1 := by
        rw [hlen]
        push_cast
        omega
      have hset : Holds ((res.set (str + i) d).set (str + i + 1 + l.length) c) (str + (i + 1)) l :=
        ((show Holds res (str + (i + 1)) l from hl).set (by omega) (.inl (by omega)) d).set hend
          (.inr (by omega)) c
      obtain ⟨res', hloop, hholds, hrest⟩ := ih hset
      refine ⟨res', ?_, ?_, fun m hm => ?_⟩
      · rw [reverseLoop, if_pos hless, hfirst, hlast, hinner, read_natCast, hc, read_natCast, hd]
        simp only [Option.bind_eq_bind, Option.bind_some]
        rw [write_natCast res (by omega), Option.bind_some, write_natCast _ hend, Option.bind_some]
        exact hloop
      · rw [List.reverse_cons, List.reverse_append, List.reverse_singleton, List.singleton_append,
          List.cons_append, holds_cons, holds_append, holds_singleton]
        refine ⟨?_, hholds, ?_⟩
        · rw [hrest _ (.inl (by omega)), getElem?_set _ hend, if_neg (by omega),
            getElem?_set _ (by omega), if_pos rfl]
        · rw [List.length_reverse, hrest _ (.inr (by omega)), getElem?_set _ hend,
            if_pos (by omega)]
      · rw [hlen] at hm
        rw [hrest m (by omega), getElem?_set _ hend, if_neg (by omega),
          getElem?_set _ (by omega), if_neg (by omega)]

theorem reverse_spec {res : CBuf N} {str : Nat} {l : List UInt8} (h : Holds res str l) :
    ∃ res', reverse res str l.length = some res' ∧ Holds res' str l.reverse ∧
      ∀ m, m < str ∨ str + l.length ≤ m → res'[m]? = res[m]? := by
  obtain ⟨res', hloop, hholds, hrest⟩ := reverseLoop_spec (i := 0) h
  rw [Nat.cast_zero, Int.zero_add] at hloop
  exact ⟨res', hloop, hholds, hrest⟩

/-- A character written behind the text. -/
theorem write_concat {res : CBuf N} {str i : Nat} {l : List UInt8} (h : Holds res str l)
    (hi : i = l.length) (hroom : str + i < N) (c : UInt8) :
    ∃ res', res.write (str + i) c = some res' ∧ Holds res' str (l ++ [c]) ∧
      ∀ m, m < str ∨ str + i < m → res'[m]? = res[m]? := by
  subst hi
  refine ⟨_, write_natCast res hroom c, h.concat hroom c, fun m hm => ?_⟩
  rw [getElem?_set _ hroom, if_neg (by omega)]

theorem digitChar_toUInt8 {x : Int32} {n : ℕ} (hx : x.toInt = n) :
    (x % 10 + 48).toInt8.toUInt8 = UInt8.ofNat (48 + n % 10) := by
  have hsmall : ∀ d < 10, (Int32.ofInt (d : ℕ) + 48).toInt8.toUInt8 = UInt8.ofNat (48 + d) := by
    decide
  have hten : (10 : Int32).toInt = 10 := by decide
  have hmod : x % 10 = Int32.ofInt ((n % 10 : ℕ) : Int) := by
    rw [← Int32.toInt_inj, Int32.toInt_mod, hten, hx, Int32.toInt_ofInt_of_le (by omega) (by omega),
      Int.tmod_eq_emod_of_nonneg (by omega)]
    rfl
  rw [hmod]
  exact hsmall _ (Nat.mod_lt n (by decide))

/-- The digits of a number, the last one first. -/
theorem digitLoop_spec (n : ℕ) {x : Int32} (hx : x.toInt = n) {res : CBuf N} {str i : Nat}
    {l : List UInt8} (h : Holds res str l) (hi : i = l.length)
    (hroom : str + i + (Nat.digits 10 n).length ≤ N) :
    ∃ res', digitLoop res str x i = some (res', i + (Nat.digits 10 n).length) ∧
      Holds res' str (l ++ digitChars (Nat.digits 10 n)) ∧
      ∀ m, m < str ∨ str + i + (Nat.digits 10 n).length ≤ m → res'[m]? = res[m]? := by
  induction n using Nat.strong_induction_on generalizing x res i l with
  | _ n ih =>
      rcases Nat.eq_zero_or_pos n with rfl | hpos
      · obtain rfl : x = 0 := Int32.toInt_inj.mp hx
        refine ⟨res, ?_, ?_, fun _ _ => rfl⟩
        · rw [digitLoop, if_pos rfl]
          rfl
        · simpa [digitChars] using h
      · have hne : x ≠ 0 := by
          rintro rfl
          rw [Int32.toInt_zero] at hx
          omega
        have hdigits : Nat.digits 10 n = n % 10 :: Nat.digits 10 (n / 10) :=
          Nat.digits_def' (by decide) hpos
        rw [hdigits, List.length_cons] at hroom ⊢
        obtain ⟨res₁, hwrite, hholds, hrest⟩ := write_concat h hi (by omega)
          (x % 10 + 48).toInt8.toUInt8
        rw [digitChar_toUInt8 hx] at hwrite hholds
        have hdiv : (x / 10).toInt = (n / 10 : ℕ) := by
          have hten : (10 : Int32).toInt = 10 := by decide
          rw [Int32.toInt_div_of_ne_right x 10 (by decide), hten, hx,
            Int.tdiv_eq_ediv_of_nonneg (by omega)]
          rfl
        obtain ⟨res', hloop, hholds', hrest'⟩ := ih (n / 10) (Nat.div_lt_self hpos (by decide))
          hdiv hholds (i := i + 1) (by rw [List.length_append, ← hi]; rfl) (by omega)
        refine ⟨res', ?_, ?_, fun m hm => ?_⟩
        · rw [digitLoop, if_neg hne, digitChar_toUInt8 hx, hwrite, Option.bind_eq_bind,
            Option.bind_some, hloop]
          congr 2
          omega
        · simpa [digitChars] using hholds'
        · rw [hrest' m (by omega), hrest m (by omega)]

/-- Zeros up to the width `d`. -/
theorem padLoop_spec {k : ℕ} {d i : Nat} (hk : k = d - i) {res : CBuf N} {str : Nat}
    {l : List UInt8} (h : Holds res str l) (hi : i = l.length) (hroom : str + max d i ≤ N) :
    ∃ res', padLoop res str d i = some (res', max d i) ∧
      Holds res' str (l ++ List.replicate k 48) ∧
      ∀ m, m < str ∨ str + max d i ≤ m → res'[m]? = res[m]? := by
  induction k generalizing res i l with
  | zero =>
      refine ⟨res, ?_, by simpa using h, fun _ _ => rfl⟩
      rw [padLoop, if_neg (by omega), Nat.max_eq_right (by omega)]
  | succ k ih =>
      obtain ⟨res₁, hwrite, hholds, hrest⟩ := write_concat h hi (by omega) 48
      obtain ⟨res', hloop, hholds', hrest'⟩ := ih (i := i + 1) (by omega) hholds
        (by rw [List.length_append, ← hi]; rfl) (by omega)
      refine ⟨res', ?_, ?_, fun m hm => ?_⟩
      · rw [padLoop, if_pos (by omega), hwrite, Option.bind_eq_bind, Option.bind_some, hloop]
        congr 2
        omega
      · rw [List.append_assoc, List.singleton_append] at hholds'
        exact hholds'
      · rw [hrest' m (by omega), hrest m (by omega)]

/-- The text of a number, with zeros in front up to the width `d`, and the NUL. -/
theorem intToStr_spec {n : ℕ} {x : Int32} (hx : x.toInt = n) (res : CBuf N) {str d : Nat}
    (hroom : str + (paddedDigits 10 d n).length < N) :
    ∃ res', intToStr x res str d = some (res', (paddedDigits 10 d n).length) ∧
      Holds res' str (digitChars (paddedDigits 10 d n) ++ [0]) ∧
      ∀ m, m < str ∨ str + (paddedDigits 10 d n).length < m → res'[m]? = res[m]? := by
  have hlen := length_paddedDigits 10 d n
  rw [hlen] at hroom ⊢
  have hnil : Holds res str [] := fun _ _ h => by cases h
  obtain ⟨res₁, hdigits, hholds₁, hrest₁⟩ := digitLoop_spec n hx hnil (i := 0) rfl (by omega)
  rw [Nat.zero_add] at hdigits
  rw [List.nil_append] at hholds₁
  obtain ⟨res₂, hpad, hholds₂, hrest₂⟩ := padLoop_spec rfl hholds₁
    (length_digitChars (Nat.digits 10 n)).symm (d := d) (by omega)
  -- turned around, the zeros come to the front
  have hturn : (digitChars (Nat.digits 10 n) ++
      List.replicate (d - (Nat.digits 10 n).length) 48).reverse =
        digitChars (paddedDigits 10 d n) := by
    simp [digitChars, paddedDigits]
  have hsize : (digitChars (Nat.digits 10 n) ++
      List.replicate (d - (Nat.digits 10 n).length) 48).length =
        max d (Nat.digits 10 n).length := by
    rw [← List.length_reverse, hturn, length_digitChars, hlen]
  obtain ⟨res₃, hreverse, hholds₃, hrest₃⟩ := reverse_spec hholds₂
  rw [hsize] at hreverse hrest₃
  rw [hturn] at hholds₃
  obtain ⟨res', hwrite, hholds, hrest⟩ := write_concat hholds₃
    (i := max d (Nat.digits 10 n).length) (by rw [length_digitChars, hlen]) hroom 0
  refine ⟨res', ?_, hholds, fun m hm => ?_⟩
  · rw [intToStr, hdigits]
    simp only [Option.bind_eq_bind, Option.bind_some]
    rw [hpad]
    simp only [Option.bind_some]
    rw [hreverse, Option.bind_some, hwrite, Option.bind_some]
  · rw [hrest m (by omega), hrest₃ m (by omega), hrest₂ m (by omega), hrest₁ m (by omega)]

/-! ### The text of a fraction -/

theorem castInt_of_nonneg {q : ℚ} (hq : 0 ≤ q) (hlt : ⌊q⌋ < 2 ^ 31) :
    ∃ x, castInt q = some x ∧ x.toInt = ⌊q⌋₊ := by
  have hfloor : 0 ≤ ⌊q⌋ := Int.floor_nonneg.mpr hq
  refine ⟨Int32.ofInt ⌊q⌋, ?_, ?_⟩
  · simp only [castInt]
    rw [if_pos hq, if_pos ⟨by omega, by omega⟩]
  · rw [Int32.toInt_ofInt_of_le (by omega) hlt, Int.natCast_floor_eq_floor hq]

/-- The text that `ftoa` writes for `v`. -/
def printed (v : ℚ) (k : ℕ) : List UInt8 :=
  digitChars (paddedDigits 10 0 ⌊v⌋₊) ++
    46 :: digitChars (paddedDigits 10 k ⌊(v - ⌊v⌋₊) * 10 ^ k⌋₊)

theorem fraction_lt {v : ℚ} (hv : 0 ≤ v) (k : ℕ) :
    0 ≤ (v - ⌊v⌋₊) * 10 ^ k ∧ ⌊(v - ⌊v⌋₊) * 10 ^ k⌋₊ < 10 ^ k := by
  have hpow : (0 : ℚ) < 10 ^ k := by positivity
  have hlow : 0 ≤ v - ⌊v⌋₊ := sub_nonneg.mpr (Nat.floor_le hv)
  have hhigh : v - ⌊v⌋₊ < 1 := by
    have := Nat.lt_floor_add_one v
    linarith
  have hnonneg : 0 ≤ (v - ⌊v⌋₊) * 10 ^ k := mul_nonneg hlow hpow.le
  refine ⟨hnonneg, (Nat.floor_lt hnonneg).mpr ?_⟩
  push_cast
  exact mul_lt_of_lt_one_left hpow hhigh

/-- Ten digits are enough for an `int`. -/
theorem length_digits_int {n : ℕ} (hn : n < 2 ^ 31) : (Nat.digits 10 n).length ≤ 10 :=
  (Nat.digits_length_le_iff (by decide) n).mpr (hn.trans (by decide))

theorem ftoa_spec {v : ℚ} {k : ℕ} (hv : 0 ≤ v) (hk : 1 ≤ k) (hk9 : k ≤ 9) (hint : ⌊v⌋ < 2 ^ 31)
    (res : CBuf N) (hN : 21 ≤ N) :
    ∃ res', ftoa v res k = some res' ∧ Holds res' 0 (printed v k ++ [0]) := by
  obtain ⟨ipart, hcast, hipart⟩ := castInt_of_nonneg hv hint
  have hsmall : ⌊v⌋₊ < 2 ^ 31 := by
    have := Int.natCast_floor_eq_floor hv
    omega
  have hlen : (paddedDigits 10 0 ⌊v⌋₊).length ≤ 10 := by
    rw [length_paddedDigits, Nat.zero_max]
    exact length_digits_int hsmall
  have hroom : 0 + (paddedDigits 10 0 ⌊v⌋₊).length < N := by omega
  obtain ⟨res₁, hwhole, hholds₁, hrest₁⟩ := intToStr_spec hipart res hroom
  obtain ⟨hnonneg, hfraction⟩ := fraction_lt hv k
  have hwidth := length_paddedDigits_of_lt (by decide) hfraction
  have hpow : (10 : ℕ) ^ k ≤ 10 ^ 9 := Nat.pow_le_pow_right (by decide) hk9
  have hfloor := Int.natCast_floor_eq_floor hnonneg
  obtain ⟨fpart, hcast₂, hfpart⟩ := castInt_of_nonneg hnonneg (by omega)
  obtain ⟨res₂, hpoint, hholds₂, -⟩ := write_concat (holds_append.mp hholds₁).1
    (i := (paddedDigits 10 0 ⌊v⌋₊).length) (length_digitChars _).symm (by omega) 46
  have hroom₂ : (paddedDigits 10 0 ⌊v⌋₊).length + 1 +
      (paddedDigits 10 k ⌊(v - ⌊v⌋₊) * 10 ^ k⌋₊).length < N := by omega
  obtain ⟨res₃, hdecimals, hholds₃, hrest₃⟩ := intToStr_spec hfpart res₂ hroom₂
  refine ⟨res₃, ?_, ?_⟩
  · have hne : (k : Int) ≠ 0 := by omega
    have hscaled : (v - ipart.toInt) * (tenTo (k : Int).toNat).toInt = (v - ⌊v⌋₊) * 10 ^ k := by
      rw [Int.toNat_natCast, tenTo_toInt hk9, hipart]
      push_cast
      rfl
    have hdot : res₁.write (paddedDigits 10 0 ⌊v⌋₊).length 46 = some res₂ := by
      rw [← hpoint, Nat.cast_zero, Int.zero_add]
    rw [Nat.cast_zero] at hwhole
    rw [ftoa, hcast]
    simp only [Option.bind_eq_bind, Option.bind_some]
    rw [hwhole]
    simp only [Option.bind_some]
    rw [if_pos hne, hdot, Option.bind_some, hscaled, hcast₂, Option.bind_some, hdecimals,
      Option.bind_some]
  · have hkept : Holds res₃ 0 (digitChars (paddedDigits 10 0 ⌊v⌋₊) ++ [46]) := by
      intro m c hm
      have hlt := (List.getElem?_eq_some_iff.mp hm).1
      rw [List.length_append, length_digitChars, List.length_singleton] at hlt
      rw [hrest₃ _ (by omega)]
      exact hholds₂ m c hm
    rw [printed, ← List.singleton_append, ← List.append_assoc, List.append_assoc, holds_append]
    refine ⟨hkept, ?_⟩
    rw [List.length_append, length_digitChars, List.length_singleton, Nat.zero_add]
    exact hholds₃

/-! ### Reading it back -/

/-- The digits printed are those of the number, cut off after `k` decimals. -/
theorem floor_mul_pow {v : ℚ} (hv : 0 ≤ v) (k : ℕ) :
    (⌊v⌋₊ : ℚ) + ⌊(v - ⌊v⌋₊) * 10 ^ k⌋₊ / 10 ^ k = ⌊v * 10 ^ k⌋ / 10 ^ k := by
  have hpow : (10 : ℚ) ^ k ≠ 0 := by positivity
  have hsplit : v * 10 ^ k = ((⌊v⌋₊ * 10 ^ k : ℕ) : ℚ) + (v - ⌊v⌋₊) * 10 ^ k := by
    push_cast
    ring
  have hfloor := natCast_floor_eq_intCast_floor (fraction_lt hv k).1
  rw [hsplit, Int.floor_natCast_add, hfloor, Int.cast_add, add_div, Int.cast_natCast, Nat.cast_mul,
    Nat.cast_pow, Nat.cast_ofNat, mul_div_cancel_right₀ _ hpow]

theorem stof_printed {v : ℚ} {k : ℕ} (hv : 0 ≤ v) (hk9 : k ≤ 9) (hint : ⌊v⌋ < 2 ^ 31) :
    stof (printed v k) = some ((⌊v * 10 ^ k⌋ : ℚ) / 10 ^ k) := by
  have hsmall : ⌊v⌋₊ < 2 ^ 31 := by
    have := Int.natCast_floor_eq_floor hv
    omega
  have hwidth := length_paddedDigits_of_lt (by decide) (fraction_lt hv k).2
  rw [printed, stof_point (paddedDigits_lt (by decide) 0 _) (paddedDigits_lt (by decide) k _)
    (by rwa [numeral_paddedDigits]) (by rwa [hwidth]), numeral_paddedDigits, numeral_paddedDigits,
    hwidth, floor_mul_pow hv]

theorem zero_not_mem_digitChars {ds : List ℕ} (hds : ∀ d ∈ ds, d < 10) : 0 ∉ digitChars ds := by
  have hchar : ∀ d < 10, UInt8.ofNat (48 + d) ≠ 0 := by decide
  intro h
  obtain ⟨d, hd, heq⟩ := List.mem_map.mp h
  exact hchar d (hds d hd) heq

/-- **A number that is printed is read back**, cut off after the decimals printed. The
buffer has room for the longest text. -/
theorem ftoa_read_back (v : ℚ) (k : ℕ) (hv : 0 ≤ v) (hk : 1 ≤ k) (hk9 : k ≤ 9)
    (hint : ⌊v⌋ < 2 ^ 31) (res : CBuf N) (hN : 21 ≤ N) :
    ∃ res' a b, ftoa v res k = some res' ∧
      res'.cstring = some (digitChars a ++ 46 :: digitChars b) ∧
      (∀ d ∈ a ++ b, d < 10) ∧ b.length = k ∧ (a = [] ↔ v < 1) ∧
      stof (digitChars a ++ 46 :: digitChars b) = some ((⌊v * 10 ^ k⌋ : ℚ) / 10 ^ k) ∧
      ((∃ z : ℤ, v * 10 ^ k = z) → stof (digitChars a ++ 46 :: digitChars b) = some v) := by
  obtain ⟨res', hftoa, hholds⟩ := ftoa_spec hv hk hk9 hint res hN
  have hread := stof_printed hv hk9 hint
  have ha := paddedDigits_lt (by decide : 1 < 10) 0 ⌊v⌋₊
  have hb := paddedDigits_lt (by decide : 1 < 10) k ⌊(v - ⌊v⌋₊) * 10 ^ k⌋₊
  refine ⟨res', paddedDigits 10 0 ⌊v⌋₊, paddedDigits 10 k ⌊(v - ⌊v⌋₊) * 10 ^ k⌋₊, hftoa, ?_,
    fun d hd => (List.mem_append.mp hd).elim (ha d) (hb d),
    length_paddedDigits_of_lt (by decide) (fraction_lt hv k).2, ?_, hread, fun hz => ?_⟩
  · refine cstring_spec ?_ hholds
    simp [zero_not_mem_digitChars ha, zero_not_mem_digitChars hb]
  · rw [paddedDigits_eq_nil_iff, Nat.floor_eq_zero]
  · obtain ⟨z, hz⟩ := hz
    have hpow : (10 : ℚ) ^ k ≠ 0 := by positivity
    rw [hz, Int.floor_intCast, ← hz, mul_div_cancel_right₀ _ hpow] at hread
    exact hread

/-- The twentieth is printed as `.05` into the buffer of `print_information`. -/
theorem ftoa_read_back_twentieth : ∃ res' a b, ftoa (1 / 20) (zeros 64) 2 = some res' ∧
    res'.cstring = some (digitChars a ++ 46 :: digitChars b) ∧ b.length = 2 ∧ a = [] ∧
    stof (digitChars a ++ 46 :: digitChars b) = some (1 / 20) := by
  obtain ⟨res', a, b, hftoa, hstring, -, hlen, hbelow, -, hexact⟩ :=
    ftoa_read_back (1 / 20) 2 (by norm_num) (by decide) (by decide) (by norm_num) (zeros 64)
      (by decide)
  exact ⟨res', a, b, hftoa, hstring, hlen, hbelow.mpr (by norm_num), hexact ⟨5, by norm_num⟩⟩

end OsCourse.Sched
