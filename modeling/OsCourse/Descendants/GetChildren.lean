import OsCourse.Descendants.Tree

/-!
# OsCourse.Descendants.GetChildren

What a call of `get_children` returns.

While there are at most three digits in the queue, `pow` gives the powers of ten
that the loop needs, and a round takes the first pid off the queue and appends
the pids of its children (`body_spec`): the loop is the search with a queue. It
ends where its bound falls below the number of rounds (`loop_spec`), whether or
not anything is left in the queue.
-/

namespace OsCourse.Descendants

open Lib (numeral Digits)

variable {n : Nat} {t : Table n} {low pid : Int32}

/-! ### Arithmetic -/

theorem degits_eq {fuel v : ℕ} (hv : v < 2 ^ 31) (hfuel : v ≤ fuel) (digits : Int32) :
    degits fuel (Int32.ofNat v) digits = digits + Int32.ofNat (Nat.digits 10 v).length := by
  induction fuel generalizing v digits with
  | zero =>
      obtain rfl : v = 0 := Nat.le_zero.mp hfuel
      simp [degits]
  | succ fuel ih =>
      have hpos : Int32.ofNat v > 0 ↔ 0 < v := Int32.ofNat_lt_iff_lt (by decide) hv
      have hdiv : Int32.ofNat v / 10 = Int32.ofNat (v / 10) :=
        (Int32.ofNat_div hv (by decide)).symm
      rw [degits]
      by_cases h : 0 < v
      · rw [if_pos (hpos.mpr h), hdiv, ih (by omega) (by omega),
          Nat.digits_def' (by decide) h, List.length_cons, Int32.ofNat_add, Int32.add_assoc,
          Int32.add_comm 1]
        rfl
      · obtain rfl : v = 0 := by omega
        simp

theorem numeral_small {l : List ℕ} (hl : Digits 10 l) (hlen : l.length ≤ 3) :
    numeral 10 l < 2 ^ 31 := by
  have hpow : 10 ^ l.length ≤ 10 ^ 3 := Nat.pow_le_pow_right (by decide) hlen
  have hlt := hl.numeral_lt (by decide)
  omega

theorem numOfDegits_eq {l : List ℕ} (hl : Digits 10 l) (hlen : l.length ≤ 3) :
    numOfDegits (Int32.ofNat (numeral 10 l)) = Int32.ofNat l.length := by
  have hlt := numeral_small hl hlen
  rw [numOfDegits, Int32.toNatClampNeg_ofNat_of_lt hlt, degits_eq hlt (Nat.le_refl _),
    hl.length_digits (by decide), Int32.zero_add]

theorem ofNat_numeral_ne_zero {l : List ℕ} (hl : Digits 10 l) (hne : l ≠ [])
    (hlen : l.length ≤ 3) : Int32.ofNat (numeral 10 l) ≠ 0 := by
  intro h
  have hpos := hl.numeral_pos (by decide) hne
  have hclamp := congrArg Int32.toNatClampNeg h
  rw [Int32.toNatClampNeg_ofNat_of_lt (numeral_small hl hlen)] at hclamp
  exact absurd hclamp (Nat.ne_of_gt hpos)

theorem ofNat_succ_sub (k : ℕ) : Int32.ofNat (k + 1) - 1 = Int32.ofNat k := by
  rw [Int32.ofNat_add]
  exact Int32.add_sub_cancel _ _

/-- `pow` up to the exponent 2. -/
theorem pow_eq {k : ℕ} (hpos : 0 < k) (hk : k ≤ 2) :
    pow 10 (Int32.ofNat k) = Int32.ofNat (10 ^ k) := by
  obtain rfl | rfl : k = 1 ∨ k = 2 := by omega
  · decide
  · decide

theorem pow_ne_zero {k : ℕ} (hk : k ≤ 2) : pow 10 (Int32.ofNat k) ≠ 0 := by
  obtain rfl | rfl | rfl : k = 0 ∨ k = 1 ∨ k = 2 := by omega
  · decide
  · decide
  · decide

theorem pow_lt {k : ℕ} (hk : k ≤ 2) : 10 ^ k < 2 ^ 31 := by
  have hle : 10 ^ k ≤ 10 ^ 2 := Nat.pow_le_pow_right (by decide) hk
  omega

theorem divide_eq {a k : ℕ} (ha : a < 2 ^ 31) (hpos : 0 < k) (hk : k ≤ 2) :
    divide (Int32.ofNat a) (pow 10 (Int32.ofNat k)) = some (Int32.ofNat (a / 10 ^ k)) := by
  rw [divide, if_neg (pow_ne_zero hk), pow_eq hpos hk, Int32.ofNat_div ha (pow_lt hk)]

theorem remainder_eq {a k : ℕ} (ha : a < 2 ^ 31) (hpos : 0 < k) (hk : k ≤ 2) :
    remainder (Int32.ofNat a) (pow 10 (Int32.ofNat k)) = some (Int32.ofNat (a % 10 ^ k)) := by
  rw [remainder, if_neg (pow_ne_zero hk), pow_eq hpos hk, Int32.ofNat_mod ha (pow_lt hk)]

/-! ### One round -/

/-- The variables of the loop after `k` rounds, with the digits that it has found
and those in its queue. Nobody looks at an empty queue again. -/
structure Vars.Holds (s : Vars) (found queue : List ℕ) (k : ℕ) : Prop where
  allChildren : queue ≠ [] → s.allChildren = Int32.ofNat (numeral 10 queue)
  numOfAllChildren : s.numOfAllChildren = Int32.ofNat queue.length
  final : s.final = Int32.ofNat (numeral 10 found)
  i : s.i = Int32.ofNat k

/-- The pid that is looked up is the first of the queue. -/
theorem curPid_eq {s : Vars} {f l : List ℕ} {v k : ℕ} (hs : s.Holds f (v :: l) k)
    (hq : Digits 10 (v :: l)) (hlen : l.length ≤ 2) : s.curPid = some (Int32.ofNat v) := by
  have hlt := numeral_small hq (by rw [List.length_cons]; omega)
  have hten : Int32.ofNat (numeral 10 (v :: l)) < 10 ↔ numeral 10 (v :: l) < 10 :=
    Int32.ofNat_lt_iff_lt hlt (by decide)
  obtain ⟨hv0, hv⟩ := hq v (by simp)
  have hl : Digits 10 l := fun d hd => hq d (List.mem_cons_of_mem v hd)
  rw [Vars.curPid, hs.allChildren (by simp), hs.numOfAllChildren, List.length_cons, ofNat_succ_sub]
  rcases Nat.eq_zero_or_pos l.length with h0 | hpos
  · obtain rfl := List.length_eq_zero_iff.mp h0
    rw [Lib.numeral_singleton] at hten ⊢
    rw [if_pos (hten.mpr hv)]
  · have hge : 10 ^ 1 ≤ numeral 10 (v :: l) :=
      Nat.le_trans (Nat.pow_le_pow_right (by decide) hpos) (Lib.pow_le_numeral_cons hv0 l)
    rw [if_neg (by rw [hten]; omega), divide_eq hlt hpos hlen, Lib.numeral_cons_div hl (by decide)]

/-- The digits of the children go to the end of both numbers. -/
theorem append_holds {s : Vars} {f q m : List ℕ} {k : ℕ} {curPid : Int32} (hs : s.Holds f q k)
    (hq : q ≠ []) (hm : Digits 10 m) (hlen : m.length ≤ 2)
    (hkids : getProcessChildren t low curPid = Int32.ofNat (numeral 10 m)) :
    (s.append t low curPid).Holds (f ++ m) (q ++ m) (k + 1) := by
  have hi : s.i + 1 = Int32.ofNat (k + 1) := by
    rw [hs.i, Int32.ofNat_add]
    rfl
  rw [Vars.append, hkids, numOfDegits_eq hm (by omega)]
  by_cases hne : m = []
  · subst hne
    rw [List.append_nil, List.append_nil, if_neg (by simp)]
    exact ⟨hs.allChildren, hs.numOfAllChildren, hs.final, hi⟩
  · have hpow := pow_eq (List.length_pos_iff.mpr hne) hlen
    have happ (l : List ℕ) : Int32.ofNat (numeral 10 l) * pow 10 (Int32.ofNat m.length) +
        Int32.ofNat (numeral 10 m) = Int32.ofNat (numeral 10 (l ++ m)) := by
      rw [hpow, Lib.numeral_append, Int32.ofNat_add, Int32.ofNat_mul]
    rw [if_pos (ofNat_numeral_ne_zero hm hne (by omega))]
    constructor
    · intro _
      show s.allChildren * _ + _ = _
      rw [hs.allChildren hq, happ]
    · show s.numOfAllChildren + _ = _
      rw [hs.numOfAllChildren, List.length_append, Int32.ofNat_add]
    · show s.final * _ + _ = _
      rw [hs.final, happ]
    · exact hi

/-- The first digit leaves the queue. -/
theorem drop_holds {s : Vars} {f l : List ℕ} {v k : ℕ} (hs : s.Holds f (v :: l) k)
    (hq : Digits 10 (v :: l)) (hlen : l.length ≤ 2) :
    ∃ s', s.drop = some s' ∧ s'.Holds f l k := by
  have hlt := numeral_small hq (by rw [List.length_cons]; omega)
  have hl : Digits 10 l := fun d hd => hq d (List.mem_cons_of_mem v hd)
  rw [Vars.drop, hs.allChildren (by simp), hs.numOfAllChildren, List.length_cons, ofNat_succ_sub]
  rcases Nat.eq_zero_or_pos l.length with h0 | hpos
  · -- `pow(10, 0)` is 10, so the digit stays, but the queue is empty
    rw [remainder, if_neg (pow_ne_zero hlen)]
    exact ⟨_, rfl, fun hne => absurd (List.length_eq_zero_iff.mp h0) hne, rfl, hs.final, hs.i⟩
  · rw [remainder_eq hlt hpos hlen, Lib.numeral_cons_mod hl (by decide)]
    exact ⟨_, rfl, fun _ => rfl, rfl, hs.final, hs.i⟩

/-- One round of the loop of `get_children`. -/
theorem body_spec {s : Vars} {f l m : List ℕ} {v k : ℕ} (hs : s.Holds f (v :: l) k)
    (hq : Digits 10 (v :: l)) (hm : Digits 10 m) (hlen : l.length + m.length ≤ 2)
    (hkids : getProcessChildren t low (Int32.ofNat v) = Int32.ofNat (numeral 10 m)) :
    ∃ s', body t low s = some s' ∧ s'.Holds (f ++ m) (l ++ m) (k + 1) := by
  have happ := append_holds hs (by simp) hm (by omega) hkids
  rw [body, curPid_eq hs hq (by omega), Option.bind_some]
  exact drop_holds happ (hq.append hm) (by simpa using hlen)

/-! ### The run -/

namespace Table

theorem Clean.digits (hc : t.Clean low pid) {l : List (Fin n)}
    (hl : ∀ i ∈ l, i ∈ t.descendants pid) : Digits 10 (t.pids l) := by
  intro d hd
  obtain ⟨i, hi, rfl⟩ := List.mem_map.mp hd
  obtain ⟨hpos, hlt⟩ := hc.digit i (hl i hi)
  have hof := Int32.ofNat_toNatClampNeg _ (Int32.le_of_lt hpos)
  have hpos' := Int32.lt_iff_toInt_lt.mp hpos
  have hlt' := Int32.lt_iff_toInt_lt.mp hlt
  have h0 : (0 : Int32).toInt = 0 := by decide
  have h10 : (10 : Int32).toInt = 10 := by decide
  rw [Int32.toNatClampNeg]
  omega

/-- One digit is its own decimal numeral. -/
theorem Clean.concat_eq (hc : t.Clean low pid) :
    t.concat pid = numeral 10 (t.pids (t.descendants pid)) := by
  have hdec : ∀ i ∈ t.descendants pid, decimal (t i).pid = [(t i).pid.toNatClampNeg] := by
    intro i hi
    obtain ⟨h0, h10⟩ := hc.digits (fun j hj => hj) (t i).pid.toNatClampNeg
      (List.mem_map_of_mem hi)
    have hne : (t i).pid ≠ 0 := by
      intro h
      rw [h] at h0
      exact absurd h0 (by decide)
    rw [decimal, if_neg hne, Nat.digits_of_lt 10 _ (Nat.ne_of_gt h0) h10]
    rfl
  rw [concat, pids, List.flatMap_congr hdec, List.map_eq_flatMap]

variable {k : ℕ}

theorem Forest.found_prefix (hf : t.Forest) (pid : Int32) (k : ℕ) :
    t.found pid k <+: t.descendants pid :=
  Lib.found_prefix (hf.descendants_eq pid) k

/-- When the loop comes to the `k`-th descendant, it has found it. -/
theorem Scanned.lt_length_found (hk : t.Scanned pid k) (hne : t.descendants pid ≠ []) :
    k < (t.found pid k).length := by
  cases k with
  | zero =>
      rw [found, Lib.found_zero]
      refine List.length_pos_iff.mpr fun hnil => hne ?_
      rw [descendants, hnil, Lib.levels_nil]
  | succ k =>
      have h : 2 * (k + 1) ≤ (t.found pid (k + 1)).length := hk
      omega

theorem Scanned.lt_length (hk : t.Scanned pid k) (hf : t.Forest) (hne : t.descendants pid ≠ []) :
    k < (t.descendants pid).length :=
  Nat.lt_of_lt_of_le (hk.lt_length_found hne) (hf.found_prefix pid k).length_le

theorem length_found_le (hk : k < (t.descendants pid).length) :
    (t.found pid k).length ≤ (t.found pid (k + 1)).length := by
  rw [found, found, Lib.found_succ _ hk, List.length_append]
  exact Nat.le_add_right _ _

/-- The loop makes no more than four rounds. -/
theorem Clean.bound (hc : t.Clean low pid) (hf : t.Forest) (hne : t.descendants pid ≠ [])
    (hscan : ∀ j < k, t.Scanned pid j) : k ≤ 4 ∧ (t.found pid k).length ≤ k + 3 := by
  cases k with
  | zero =>
      have h0 : t.Scanned pid 0 := Nat.zero_le _
      have hlt := h0.lt_length hf hne
      have hle := length_found_le hlt
      have hq := hc.queue 0 hlt h0
      omega
  | succ k =>
      have hk : 2 * k ≤ (t.found pid k).length := hscan k (Nat.lt_succ_self k)
      have hlt := (hscan k (Nat.lt_succ_self k)).lt_length hf hne
      have hle := length_found_le hlt
      have hq := hc.queue k hlt (hscan k (Nat.lt_succ_self k))
      omega

end Table

/-- What the variables stand for after `k` rounds. -/
def Vars.Search (s : Vars) (t : Table n) (pid : Int32) (k : ℕ) : Prop :=
  s.Holds (t.pids (t.found pid k)) (t.pids ((t.found pid k).drop k)) k

/-- A round of the loop is a step of the search. -/
theorem body_search (hf : t.Forest) (hc : t.Clean low pid) (hne : t.descendants pid ≠ [])
    {s : Vars} {k : ℕ} (hk : t.Scanned pid k) (hs : s.Search t pid k) :
    ∃ s', body t low s = some s' ∧ s'.Search t pid (k + 1) := by
  have hlt := hk.lt_length hf hne
  have hdrop : (t.found pid k).drop k =
      (t.descendants pid)[k] :: (t.found pid k).drop (k + 1) := by
    obtain ⟨_, h⟩ := Lib.drop_found (hf.descendants_eq pid) (hk.lt_length_found hne)
    exact h
  have hsucc : t.found pid (k + 1) = t.found pid k ++ t.kids (t.descendants pid)[k] :=
    Lib.found_succ _ hlt
  generalize hx : (t.descendants pid)[k] = x at hdrop hsucc
  generalize hrest : (t.found pid k).drop (k + 1) = rest at hdrop
  have hdrop' : (t.found pid (k + 1)).drop (k + 1) = rest ++ t.kids x := by
    rw [hsucc, List.drop_append_of_le_length (hk.lt_length_found hne), hrest]
  -- all of them are descendants, so their pids are digits
  have hmem : ∀ i ∈ t.found pid (k + 1), i ∈ t.descendants pid :=
    fun i hi => (hf.found_prefix pid (k + 1)).subset hi
  have hxD : x ∈ t.descendants pid := hx ▸ List.getElem_mem hlt
  have hkidsD : ∀ i ∈ t.kids x, i ∈ t.descendants pid := by
    intro i hi
    exact hmem i (hsucc ▸ List.mem_append_right _ hi)
  have hq : Digits 10 (t.pids (x :: rest)) := by
    refine hc.digits fun i hi => (hf.found_prefix pid k).subset ?_
    exact List.mem_of_mem_drop (hdrop ▸ hi)
  have hlen : (t.pids rest).length + (t.pids (t.kids x)).length ≤ 2 := by
    have h := hc.queue k hlt hk
    have hl := congrArg List.length hdrop'
    rw [List.length_drop, List.length_append] at hl
    rw [Table.length_pids, Table.length_pids]
    omega
  -- the first digit is the pid of `x`, and the scan for it sees the children of `x`
  have hpid : Int32.ofNat (t x).pid.toNatClampNeg = (t x).pid :=
    Int32.ofNat_toNatClampNeg _ (Int32.le_of_lt (hc.digit x hxD).1)
  have hkids := hf.kidsOf_pid (Table.live_of_mem_descendants hf hxD)
  have hscan : getProcessChildren t low (Int32.ofNat (t x).pid.toNatClampNeg) =
      Int32.ofNat (numeral 10 (t.pids (t.kids x))) := by
    rw [hpid, ← hkids]
    refine getProcessChildren_eq (hx ▸ hc.scan k hlt hk) fun i hi => ?_
    exact (hc.digit i (hkidsD i (hkids ▸ hi))).1
  rw [Vars.Search, hdrop] at hs
  obtain ⟨s', hbody, hs'⟩ := body_spec hs hq (hc.digits hkidsD) hlen hscan
  refine ⟨s', hbody, ?_⟩
  rw [Vars.Search, hdrop', hsucc, Table.pids_append, Table.pids_append]
  exact hs'

/-- The test of the loop. -/
theorem scanned_iff (hf : t.Forest) (hc : t.Clean low pid) (hne : t.descendants pid ≠ [])
    {s : Vars} {k : ℕ} (hscan : ∀ j < k, t.Scanned pid j) (hs : s.Search t pid k) :
    s.i ≤ s.numOfAllChildren ↔ t.Scanned pid k := by
  obtain ⟨hk, hlen⟩ := hc.bound hf hne hscan
  have hqueue : (t.pids ((t.found pid k).drop k)).length = (t.found pid k).length - k := by
    rw [Table.length_pids, List.length_drop]
  rw [hs.i, hs.numOfAllChildren, hqueue, Int32.ofNat_le_iff_le (by omega) (by omega),
    Table.Scanned]
  omega

/-- The loop ends when its bound has fallen below the number of rounds, and returns
what it has found by then. -/
theorem loop_spec (hf : t.Forest) (hc : t.Clean low pid) (hne : t.descendants pid ≠ [])
    {s : Vars} {k : ℕ} (hscan : ∀ j < k, t.Scanned pid j) (hs : s.Search t pid k) :
    ∃ fuel K, loop t low fuel s = .returned (Int32.ofNat (numeral 10 (t.pids (t.found pid K)))) ∧
      ¬ t.Scanned pid K ∧ ∀ j < K, t.Scanned pid j := by
  induction hm : (t.descendants pid).length - k generalizing s k with
  | zero =>
      have hk : ¬ t.Scanned pid k := by
        intro hk
        have hlt := hk.lt_length hf hne
        omega
      refine ⟨1, k, ?_, hk, hscan⟩
      rw [loop, if_neg (by rwa [scanned_iff hf hc hne hscan hs]), hs.final]
  | succ m ih =>
      by_cases hk : t.Scanned pid k
      · obtain ⟨s', hbody, hs'⟩ := body_search hf hc hne hk hs
        have hscan' : ∀ j < k + 1, t.Scanned pid j := by
          intro j hj
          rcases Nat.lt_succ_iff_lt_or_eq.mp hj with hj | rfl
          · exact hscan j hj
          · exact hk
        obtain ⟨fuel, K, hloop, hK⟩ := ih hscan' hs' (by omega)
        refine ⟨fuel + 1, K, ?_, hK⟩
        rw [loop, if_pos (by rwa [scanned_iff hf hc hne hscan hs]), hbody]
        exact hloop
      · refine ⟨1, k, ?_, hk, hscan⟩
        rw [loop, if_neg (by rwa [scanned_iff hf hc hne hscan hs]), hs.final]

theorem loop_returned_unique {s : Vars} {fuel fuel' : ℕ} {v v' : Int32}
    (h : loop t low fuel s = .returned v) (h' : loop t low fuel' s = .returned v') : v = v' := by
  induction fuel generalizing fuel' s with
  | zero => cases h
  | succ fuel ih =>
      cases fuel' with
      | zero => cases h'
      | succ fuel' =>
          rw [loop] at h h'
          split at h
          · rename_i hle
            rw [if_pos hle] at h'
            cases hbody : body t low s with
            | none => rw [hbody] at h; cases h
            | some s' =>
                rw [hbody] at h h'
                exact ih h h'
          · rename_i hle
            rw [if_neg hle] at h'
            exact (Outcome.returned.inj h).symm.trans (Outcome.returned.inj h')

/-! ### The call -/

theorem getChildren_returned_unique {fuel fuel' : ℕ} {v v' : Int32}
    (h : getChildren t low pid fuel = .returned v)
    (h' : getChildren t low pid fuel' = .returned v') : v = v' := by
  rw [getChildren] at h h'
  split at h
  · rename_i hnone
    rw [if_pos hnone] at h'
    exact (Outcome.returned.inj h).symm.trans (Outcome.returned.inj h')
  · rename_i hnone
    rw [if_neg hnone] at h'
    exact loop_returned_unique h h'

/-- A list of descendants that is not complete is not the number of all. -/
theorem numeral_found_eq_iff (hf : t.Forest) (hc : t.Clean low pid) (K : ℕ) :
    numeral 10 (t.pids (t.found pid K)) = t.concat pid ↔ t.found pid K = t.descendants pid := by
  obtain ⟨rest, hrest⟩ := hf.found_prefix pid K
  have hdigits : Digits 10 (t.pids rest) :=
    hc.digits fun i hi => hrest ▸ List.mem_append_right _ hi
  rw [hc.concat_eq, ← hrest, Table.pids_append, eq_comm,
    Lib.numeral_append_eq_iff hdigits (by decide), Table.pids_eq_nil]
  exact List.append_right_eq_self.symm.trans eq_comm

theorem numeral_found_le (hf : t.Forest) (hc : t.Clean low pid) (K : ℕ) :
    numeral 10 (t.pids (t.found pid K)) ≤ t.concat pid := by
  obtain ⟨rest, hrest⟩ := hf.found_prefix pid K
  rw [hc.concat_eq, ← hrest, Table.pids_append]
  exact Lib.numeral_le_append (by decide) _ _

/-- Where the loop ends, everything has been found if nobody left over has children. -/
theorem found_eq_iff_swept (hf : t.Forest) {K : ℕ} (hK : ¬ t.Scanned pid K)
    (hscan : ∀ j < K, t.Scanned pid j) : t.found pid K = t.descendants pid ↔ t.Swept pid := by
  rw [Table.found, Lib.found_eq_iff (hf.descendants_eq pid)]
  constructor
  · intro h k hk hnot
    exact h k hk (Nat.le_of_not_lt fun hlt => hnot (hscan k hlt))
  · intro h
    have hstay : ∀ j, K ≤ j → t.found pid j = t.found pid K ∧ ¬ t.Scanned pid j := by
      intro j hKj
      induction j, hKj using Nat.le_induction with
      | base => exact ⟨rfl, hK⟩
      | succ j hKj ih =>
          have hfound : t.found pid (j + 1) = t.found pid j := by
            by_cases hj : j < (t.descendants pid).length
            · rw [Table.found, Lib.found_succ _ hj, h j hj ih.2, List.append_nil]
              rfl
            · rw [Table.found, Table.found, Lib.found_of_length_le (hf.descendants_eq pid) (by omega),
                Lib.found_of_length_le (hf.descendants_eq pid) (by omega)]
          refine ⟨hfound.trans ih.1, fun hj => ?_⟩
          have hle : 2 * (j + 1) ≤ (t.found pid (j + 1)).length := hj
          rw [hfound, ih.1] at hle
          exact hK (by rw [Table.Scanned]; omega)
    intro j hj hKj
    exact h j hj (hstay j hKj).2

/-- Without descendants the loop makes one round, for the pid 0. -/
theorem getChildren_nil (hf : t.Forest) (hc : t.Clean low pid) (hnil : t.descendants pid = []) :
    getChildren t low pid 2 = .returned 0 := by
  have hkids : t.kidsOf pid = [] := by
    have h := hf.descendants_eq pid
    rw [hnil] at h
    simpa using h.symm
  have hroot : getProcessChildren t low pid = 0 := by
    rw [getProcessChildren_eq hc.root (by simp [hkids]), hkids]
    rfl
  have hreads : t.Reads low 0 := fun i hi => absurd hi (hc.zero hnil i)
  have hkids0 : t.kidsOf 0 = [] := by
    refine List.eq_nil_iff_forall_not_mem.mpr fun i hi => ?_
    exact hc.zero hnil i ((Table.parentPid_eq_iff hreads).mpr (Table.mem_kidsOf.mp hi))
  have hzero : getProcessChildren t low 0 = 0 := by
    rw [getProcessChildren_eq hreads (by simp [hkids0]), hkids0]
    rfl
  have hbody : body t low ⟨0, 0, 0, 0⟩ = some ⟨0, -1, 0, 1⟩ := by
    have hcur : Vars.curPid ⟨0, 0, 0, 0⟩ = some 0 := by decide
    rw [body, hcur, Option.bind_some, Vars.append, hzero]
    decide
  have hnum : numOfDegits 0 = 0 := by decide
  rw [getChildren, hroot, hnum, if_neg (by decide), loop, if_pos (by decide), hbody]
  rfl

/-- With descendants the call returns what the loop has found when it ends. -/
theorem getChildren_spec (hf : t.Forest) (hc : t.Clean low pid) (hne : t.descendants pid ≠ []) :
    ∃ fuel K, getChildren t low pid fuel =
        .returned (Int32.ofNat (numeral 10 (t.pids (t.found pid K)))) ∧
      ¬ t.Scanned pid K ∧ ∀ j < K, t.Scanned pid j := by
  have h0 : t.Scanned pid 0 := Nat.zero_le _
  have hfound : t.found pid 0 = t.kidsOf pid := Lib.found_zero _ _
  have hmem : ∀ i ∈ t.kidsOf pid, i ∈ t.descendants pid := by
    intro i hi
    exact (hf.found_prefix pid 0).subset (hfound ▸ hi)
  have hlen : (t.pids (t.kidsOf pid)).length ≤ 3 := by
    have h := (hc.bound hf hne (fun j hj => absurd hj (Nat.not_lt_zero j))).2
    rw [hfound] at h
    rwa [Table.length_pids]
  have hroot := getProcessChildren_eq hc.root fun i hi => (hc.digit i (hmem i hi)).1
  have hkids : t.pids (t.kidsOf pid) ≠ [] := by
    have h := h0.lt_length_found hne
    rw [hfound] at h
    rw [Ne, Table.pids_eq_nil]
    exact List.ne_nil_of_length_pos h
  have hstart : Vars.Search ⟨getProcessChildren t low pid,
      numOfDegits (getProcessChildren t low pid), getProcessChildren t low pid, 0⟩ t pid 0 := by
    rw [Vars.Search, hfound, List.drop_zero, hroot, numOfDegits_eq (hc.digits hmem) hlen]
    exact ⟨fun _ => rfl, rfl, rfl, rfl⟩
  obtain ⟨fuel, K, hloop, hK⟩ :=
    loop_spec hf hc hne (fun j hj => absurd hj (Nat.not_lt_zero j)) hstart
  refine ⟨fuel, K, ?_, hK⟩
  rw [getChildren, if_neg]
  · exact hloop
  · intro h
    rw [hroot] at h
    exact ofNat_numeral_ne_zero (hc.digits hmem) hkids hlen h.2

/-- When the queue of digits can be used as one, `get_children` returns the list of
all descendants exactly if those that its loop does not come to have no children. -/
theorem get_children_lists (t : Table n) (low pid : Int32) (hf : t.Forest)
    (hlt : t.concat pid < 2 ^ 31) (hc : t.Clean low pid) : t.Lists low pid ↔ t.Swept pid := by
  by_cases hnil : t.descendants pid = []
  · have hswept : t.Swept pid := by
      intro k hk
      rw [hnil] at hk
      cases hk
    refine iff_of_true ⟨2, 0, getChildren_nil hf hc hnil, ?_⟩ hswept
    rw [hc.concat_eq, hnil]
    rfl
  · obtain ⟨fuel, K, hret, hK, hscan⟩ := getChildren_spec hf hc hnil
    have hval : (Int32.ofNat (numeral 10 (t.pids (t.found pid K)))).toInt =
        (numeral 10 (t.pids (t.found pid K)) : ℕ) :=
      Int32.toInt_ofNat_of_lt (Nat.lt_of_le_of_lt (numeral_found_le hf hc K) hlt)
    rw [← found_eq_iff_swept hf hK hscan, ← numeral_found_eq_iff hf hc K]
    constructor
    · intro ⟨fuel', v, hv, heq⟩
      obtain rfl := getChildren_returned_unique hret hv
      rw [hval] at heq
      exact Int.ofNat_inj.mp heq
    · intro heq
      exact ⟨fuel, _, hret, by rw [hval, heq]⟩

/-- `init`, a shell and the two ends of a pipe. -/
def pipeline : Table 8 := fun i =>
  if i.val = 0 then ⟨.sleeping, 1, none⟩
  else if i.val = 1 then ⟨.sleeping, 2, some 0⟩
  else if i.val = 2 then ⟨.running, 3, some 1⟩
  else if i.val = 3 then ⟨.runnable, 4, some 1⟩
  else ⟨.unused, 0, none⟩

theorem get_children_lists_pipeline : pipeline.Lists 1000 1 :=
  (get_children_lists pipeline 1000 1 (by decide +kernel) (by decide +kernel)
    ⟨by decide +kernel, by decide +kernel, by decide +kernel, by decide +kernel,
      by decide +kernel⟩).mpr (by decide +kernel)

/-- `init`, a shell and the shell's eighth command. -/
def eighthCommand : Table 64 := fun i =>
  if i.val = 0 then ⟨.sleeping, 1, none⟩
  else if i.val = 1 then ⟨.sleeping, 2, some 0⟩
  else if i.val = 2 then ⟨.running, 10, some 1⟩
  else ⟨.unused, 0, none⟩

theorem getChildren_eighthCommand :
    getChildren eighthCommand 1000 2 20 = .returned 102101010 := by
  decide +kernel

/-- A pid of two digits is taken for two. -/
theorem get_children_two_digits :
    ¬ ∀ (t : Table 64) (low pid : Int32), t.Forest → t.concat pid < 2 ^ 31 → t.Lists low pid := by
  intro h
  obtain ⟨fuel, v, hv, heq⟩ := h eighthCommand 1000 2 (by decide +kernel) (by decide +kernel)
  obtain rfl := getChildren_returned_unique getChildren_eighthCommand hv
  exact absurd heq (by decide +kernel)

end OsCourse.Descendants
