import OsCourse.Descendants.GetChildren

/-!
# OsCourse.Descendants.Safety

**What can go wrong in a call of `get_children`.**

The call always ends: `pow(10, k)` wraps to 0 from `k = 6` on, so a round either
traps or leaves a bound of at most 5, while the counter goes up by one in every
round (`getChildren_ends`). The same zero is the divisor of the next round as
soon as there are seven digits in the queue (`body_eq_none_iff`).

`get_process_children` looks at the parent of every slot before the loop starts.
`init` has none, and neither have the slots that were never used, so every call
dereferences a null pointer (`get_children_never_safe`).
-/

namespace OsCourse.Descendants

variable {n : Nat} {t : Table n} {low pid : Int32}

/-! ### The divisors -/

theorem square_iterate_zero (m : ℕ) : (fun ten : Int32 => ten * ten)^[m] 0 = 0 :=
  Function.iterate_fixed (by decide) m

/-- The fifth square of 10 wraps to 0. -/
theorem pow_eq_zero_iff (k : Int32) : pow 10 k = 0 ↔ 5 ≤ (k - 1).toNatClampNeg := by
  unfold pow
  generalize (k - 1).toNatClampNeg = m
  constructor
  · intro h
    by_contra hlt
    have hall : ∀ m < 5, (fun ten : Int32 => ten * ten)^[m] 10 ≠ 0 := by decide
    exact hall m (by omega) h
  · intro hm
    have hfive : (fun ten : Int32 => ten * ten)^[5] 10 = 0 := by decide
    obtain ⟨j, rfl⟩ := Nat.exists_eq_add_of_le' hm
    rw [Function.iterate_add_apply, hfive, square_iterate_zero]

/-- A round traps iff one of its two divisors is 0. -/
theorem body_eq_none_iff (s : Vars) :
    body t low s = none ↔
      (10 ≤ s.allChildren ∧ pow 10 (s.numOfAllChildren - 1) = 0) ∨
        ∃ curPid, s.curPid = some curPid ∧
          pow 10 ((s.append t low curPid).numOfAllChildren - 1) = 0 := by
  have hcur : s.curPid = none ↔ 10 ≤ s.allChildren ∧ pow 10 (s.numOfAllChildren - 1) = 0 := by
    rw [Vars.curPid]
    by_cases hlt : s.allChildren < 10
    · rw [if_pos hlt]
      simp [Int32.not_le.mpr hlt]
    · rw [if_neg hlt, divide]
      have hle := Int32.not_lt.mp hlt
      split_ifs with hzero
      · simp [hle, hzero]
      · simp [hzero]
  have hdrop : ∀ s' : Vars, s'.drop = none ↔ pow 10 (s'.numOfAllChildren - 1) = 0 := by
    intro s'
    rw [Vars.drop, Option.map_eq_none_iff, remainder]
    split_ifs with hzero
    · simp [hzero]
    · simp [hzero]
  rw [body, Option.bind_eq_none_iff, ← hcur]
  constructor
  · intro h
    cases hc : s.curPid with
    | none => exact .inl rfl
    | some curPid => exact .inr ⟨curPid, rfl, (hdrop _).mp (h curPid hc)⟩
  · rintro (hnone | ⟨curPid, hc, hzero⟩) curPid' hc'
    · rw [hnone] at hc'
      cases hc'
    · rw [hc] at hc'
      obtain rfl := Option.some.inj hc'
      exact (hdrop _).mpr hzero

/-! ### The call ends -/

/-- A number below `10 ^ k` has at most `k` digits. -/
theorem degits_le (k fuel : ℕ) {num digits : Int32} (hnum : num.toInt < 10 ^ k)
    (hroom : digits.toInt + k < 2 ^ 31) (hlow : 0 ≤ digits.toInt) :
    digits.toInt ≤ (degits fuel num digits).toInt ∧
      (degits fuel num digits).toInt ≤ digits.toInt + k := by
  induction k generalizing fuel num digits with
  | zero =>
      have hle : ¬ num > 0 := by
        rw [gt_iff_lt, Int32.lt_iff_toInt_lt, Int32.toInt_zero]
        rw [Int.pow_zero] at hnum
        omega
      cases fuel with
      | zero => simp [degits]
      | succ fuel => simp [degits, hle]
  | succ k ih =>
      cases fuel with
      | zero =>
          rw [degits]
          omega
      | succ fuel =>
          rw [degits]
          split_ifs with hpos
          · have hten : (10 : Int32).toInt = 10 := by decide
            have hdiv : (num / 10).toInt < 10 ^ k := by
              rw [gt_iff_lt, Int32.lt_iff_toInt_lt, Int32.toInt_zero] at hpos
              rw [Int32.toInt_div, hten, Int.tdiv_eq_ediv_of_nonneg hpos.le,
                Int.bmod_eq_of_le]
              · rw [Int.pow_succ] at hnum
                exact Int.ediv_lt_of_lt_mul (by decide) hnum
              · have := Int.ediv_nonneg hpos.le (b := 10) (by decide)
                omega
              · have := Int.ediv_le_self (10 : Int) hpos.le
                have := Int32.toInt_lt num
                omega
            have hone : (1 : Int32).toInt = 1 := by decide
            have hadd : (digits + 1).toInt = digits.toInt + 1 := by
              rw [Int32.toInt_add, hone, Int.bmod_eq_of_le] <;> omega
            have hlow' : 0 ≤ (digits + 1).toInt := by omega
            have hrec := ih fuel hdiv (by omega) hlow'
            omega
          · omega

theorem numOfDegits_le (num : Int32) :
    0 ≤ (numOfDegits num).toInt ∧ (numOfDegits num).toInt ≤ 10 := by
  have hnum : num.toInt < 10 ^ 10 := (Int32.toInt_lt num).trans (by decide)
  have hzero : 0 ≤ (0 : Int32).toInt := by decide
  exact degits_le 10 num.toNatClampNeg hnum (by decide) hzero

/-- The bound of the loop and its counter stay small. -/
structure Vars.Small (s : Vars) (k : ℕ) : Prop where
  low : 0 ≤ s.numOfAllChildren.toInt + 1
  high : s.numOfAllChildren.toInt ≤ 10
  count : s.i.toInt = k

theorem toInt_add_of_small {a b : Int32} (ha : -1 ≤ a.toInt ∧ a.toInt ≤ 20)
    (hb : -1 ≤ b.toInt ∧ b.toInt ≤ 20) : (a + b).toInt = a.toInt + b.toInt := by
  rw [Int32.toInt_add, Int.bmod_eq_of_le] <;> omega

theorem toInt_sub_one {a : Int32} (ha : -1 ≤ a.toInt) : (a - 1).toInt = a.toInt - 1 := by
  have hlt := Int32.toInt_lt a
  have hone : (1 : Int32).toInt = 1 := by decide
  rw [Int32.toInt_sub, hone, Int.bmod_eq_of_le] <;> omega

variable (t low) in
/-- The middle of a round adds at most ten digits. -/
theorem append_small {s : Vars} {k : ℕ} (hs : s.Small k) (hk : k ≤ 10) (curPid : Int32) :
    s.numOfAllChildren.toInt ≤ (s.append t low curPid).numOfAllChildren.toInt ∧
      (s.append t low curPid).numOfAllChildren.toInt ≤ 20 ∧
      (s.append t low curPid).i.toInt = k + 1 := by
  obtain ⟨hlow, hhigh, hcount⟩ := hs
  have hone : (1 : Int32).toInt = 1 := by decide
  have hi : (s.i + 1).toInt = k + 1 := by
    rw [toInt_add_of_small (by omega) (by rw [hone]; omega), hcount, hone]
  obtain ⟨hpos, hten⟩ := numOfDegits_le (getProcessChildren t low curPid)
  rw [Vars.append]
  split_ifs with hcur
  · have hadd := toInt_add_of_small (a := s.numOfAllChildren)
      (b := numOfDegits (getProcessChildren t low curPid)) (by omega) (by omega)
    refine ⟨?_, ?_, hi⟩
    · simp only [hadd]
      omega
    · simp only [hadd]
      omega
  · exact ⟨Int.le_refl _, hhigh.trans (by decide), hi⟩

/-- A round that does not trap leaves a bound of at most 5. -/
theorem body_small {s s' : Vars} {k : ℕ} (hs : s.Small k) (hk : k ≤ 10)
    (hle : s.i ≤ s.numOfAllChildren) (h : body t low s = some s') :
    s'.Small (k + 1) ∧ s'.numOfAllChildren.toInt ≤ 5 := by
  obtain ⟨curPid, -, hdrop⟩ := Option.bind_eq_some_iff.mp h
  obtain ⟨hmono, hbound, hi⟩ := append_small t low hs hk curPid
  have hcount := hs.count
  rw [Int32.le_iff_toInt_le, hcount] at hle
  rw [Vars.drop] at hdrop
  obtain ⟨a, hrem, rfl⟩ := Option.map_eq_some_iff.mp hdrop
  rw [remainder] at hrem
  split_ifs at hrem with hzero
  rw [pow_eq_zero_iff] at hzero
  have hsub := toInt_sub_one (a := (s.append t low curPid).numOfAllChildren) (by omega)
  have hsub' := toInt_sub_one (a := (s.append t low curPid).numOfAllChildren - 1) (by omega)
  have hclamp : ((s.append t low curPid).numOfAllChildren - 1 - 1).toNatClampNeg =
      ((s.append t low curPid).numOfAllChildren.toInt - 2).toNat := by
    rw [← Int32.toNat_toInt, hsub', hsub, Int.sub_sub]
    norm_num
  rw [hclamp] at hzero
  refine ⟨⟨?_, ?_, hi⟩, ?_⟩
  · simp only [hsub]
    omega
  · simp only [hsub]
    omega
  · simp only [hsub]
    omega

/-- With a bound of at most 5 there are at most as many rounds as the counter is
away from it. -/
theorem loop_ends {s : Vars} {k : ℕ} (hs : s.Small k) (hk : k ≤ 6)
    (hbound : s.numOfAllChildren.toInt ≤ 5) : loop t low (7 - k) s ≠ .running := by
  obtain ⟨m, hm⟩ : ∃ m, m = 6 - k := ⟨_, rfl⟩
  induction m generalizing s k with
  | zero =>
      have hfuel : 7 - k = 0 + 1 := by omega
      have hcount := hs.count
      rw [hfuel, loop, if_neg]
      · exact fun h => by cases h
      · rw [Int32.le_iff_toInt_le, hcount]
        omega
  | succ m ih =>
      have hfuel : 7 - k = (7 - (k + 1)) + 1 := by omega
      rw [hfuel, loop]
      split_ifs with hle
      · cases hbody : body t low s with
        | none => exact fun h => by cases h
        | some s' =>
            obtain ⟨hs', hbound'⟩ := body_small hs (by omega) hle hbody
            exact ih hs' (by omega) hbound' (by omega)
      · exact fun h => by cases h

/-- **The call ends** in every table: the loop makes at most six rounds. -/
theorem getChildren_ends (t : Table n) (low pid : Int32) : getChildren t low pid 7 ≠ .running := by
  obtain ⟨hlow, hhigh⟩ := numOfDegits_le (getProcessChildren t low pid)
  rw [getChildren]
  split_ifs with hnone
  · exact fun h => by cases h
  · obtain ⟨s, hs⟩ : ∃ s : Vars, s = ⟨getProcessChildren t low pid,
      numOfDegits (getProcessChildren t low pid), getProcessChildren t low pid, 0⟩ := ⟨_, rfl⟩
    rw [← hs]
    have hsmall : s.Small 0 := by
      rw [hs]
      exact ⟨by dsimp only; omega, hhigh, rfl⟩
    rw [loop]
    split_ifs with hle
    · cases hbody : body t low s with
      | none => exact fun h => by cases h
      | some s' =>
          obtain ⟨hs', hbound⟩ := body_small hsmall (by decide) hle hbody
          exact loop_ends hs' (by decide) hbound
    · exact fun h => by cases h

/-! ### Safe calls -/

/-- The pointers that a scan of `get_process_children` dereferences. -/
def dereferenced (t : Table n) : List (Option (Fin n)) :=
  (List.finRange n).map fun p => (t p).parent

/-- A call of `get_children` that cannot hang or crash. -/
structure Safe (t : Table n) (low pid : Int32) : Prop where
  ends : ∃ fuel, getChildren t low pid fuel ≠ .running
  noTrap : ∀ fuel, getChildren t low pid fuel ≠ .fault
  noNull : none ∉ dereferenced t

/-- **No call is safe**: it ends, but it has dereferenced the parent of `init`. -/
theorem get_children_never_safe (t : Table n) (low pid : Int32)
    (hinit : ∃ i, (t i).parent = none) :
    getChildren t low pid 7 ≠ .running ∧ ¬ Safe t low pid := by
  refine ⟨getChildren_ends t low pid, fun h => ?_⟩
  obtain ⟨i, hi⟩ := hinit
  exact h.noNull (List.mem_map.mpr ⟨i, List.mem_finRange i, hi⟩)

/-- `init` alone. -/
def initOnly : Table Sched.NPROC := fun i =>
  if i.val = 0 then ⟨.sleeping, 1, none⟩ else ⟨.unused, 0, none⟩

theorem get_children_never_safe_initOnly : ¬ Safe initOnly 0 1 :=
  (get_children_never_safe initOnly 0 1 ⟨0, by decide⟩).2

/-- `init` with seven children. -/
def sevenChildren (init : Fin Sched.NPROC) : Table Sched.NPROC := fun i =>
  if i = init then ⟨.sleeping, 1, none⟩
  else if i.val ≤ 7 then ⟨.sleeping, Int32.ofNat (i.val + 1), some init⟩
  else ⟨.unused, 0, none⟩

/-- The call even divides by 0. -/
theorem get_children_traps :
    getChildren (sevenChildren 0) 0 1 1 = .fault ∧ ¬ Safe (sevenChildren 0) 0 1 := by
  have hfault : getChildren (sevenChildren 0) 0 1 1 = .fault := by decide +kernel
  exact ⟨hfault, fun h => h.noTrap 1 hfault⟩

end OsCourse.Descendants
