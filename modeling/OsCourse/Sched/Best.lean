import Mathlib.Order.OrderDual
import OsCourse.Sched.PassSpec

/-!
# OsCourse.Sched.Best

**The processes HRRN and SRPF pick.** When no lottery process can run, a pass
dispatches the first of the HRRN processes with the greatest ratio, or, if none
of them can run, the first of the SRPF processes with the least priority.

Both scans are `bestScan`, which replaces its candidate only by a strictly
better process. The ratio may be any function into a linear order and the
priority is an exact rational; the least priority is the greatest one in the
dual order.
-/

namespace OsCourse.Sched

variable {n : Nat}

section Scan

variable {F K : Type} [LinearOrder K] (key : Proc n F → K)

/-- `key` of the candidate is less than `key` of the process. -/
def keyBetter (m p : Proc n F) : Bool := key m < key p

/-- Slot `m` is the first of the runnable processes of queue `lv` with the
greatest key. -/
structure Best (lv : Levels) (t : Table n F) (m : Fin n) : Prop where
  runnable : Runnable t lv m
  greatest : ∀ i, Runnable t lv i → key (t i) ≤ key (t m)
  first : ∀ i, Runnable t lv i → key (t i) = key (t m) → m ≤ i

variable {lv : Levels} {t : Table n F}

/-- A scan with a candidate ends with the best of it and the slots behind it;
the candidate stays unless one of them is strictly better. -/
theorem bestScan_best {l : List (Fin n)} (hl : l.Pairwise (· < ·)) {m : Fin n}
    (hm : Runnable t lv m) (hbefore : ∀ i ∈ l, m < i) :
    ∃ m', bestScan (keyBetter key) lv t l true (some m) = some (true, some m') ∧
      Runnable t lv m' ∧ key (t m) ≤ key (t m') ∧ (key (t m) = key (t m') → m' = m) ∧
      ∀ i ∈ l, Runnable t lv i → key (t i) ≤ key (t m') ∧ (key (t i) = key (t m') → m' ≤ i) := by
  induction l generalizing m with
  | nil => exact ⟨m, rfl, hm, le_refl _, fun _ => rfl, by simp⟩
  | cons p ps ih =>
      obtain ⟨hp, hps⟩ := List.pairwise_cons.mp hl
      have hrest : ∀ i ∈ ps, m < i := fun i hi => hbefore i (List.mem_cons_of_mem p hi)
      by_cases hrun : Runnable t lv p
      · rw [bestScan, if_neg (not_not.mpr hrun.1), if_neg (not_not.mpr hrun.2), if_neg (by simp)]
        by_cases hlt : key (t m) < key (t p)
        · -- `p` is the new candidate
          obtain ⟨m', hscan, hm', hle, hsame, hbest⟩ := ih hps hrun hp
          refine ⟨m', ?_, hm', hlt.le.trans hle, ?_, ?_⟩
          · have hbetter : keyBetter key (t m) (t p) = true := decide_eq_true hlt
            rw [← hscan, if_pos hbetter]
          · intro heq
            exact absurd (heq ▸ hlt.trans_le hle) (lt_irrefl _)
          · intro i hi hirun
            rcases List.mem_cons.mp hi with rfl | hi
            · exact ⟨hle, fun heq => (hsame heq).le⟩
            · exact hbest i hi hirun
        · have hge : key (t p) ≤ key (t m) := not_lt.mp hlt
          obtain ⟨m', hscan, hm', hle, hsame, hbest⟩ := ih hps hm hrest
          refine ⟨m', ?_, hm', hle, hsame, ?_⟩
          · rw [← hscan, if_neg]
            simpa [keyBetter] using hge
          · intro i hi hirun
            rcases List.mem_cons.mp hi with rfl | hi
            · refine ⟨hge.trans hle, fun heq => ?_⟩
              -- the candidate is as good as `p`, and before it
              rw [hsame (le_antisymm hle (heq ▸ hge))]
              exact (hbefore i List.mem_cons_self).le
            · exact hbest i hi hirun
      · rw [bestScan_of_not_runnable (keyBetter key) hrun]
        obtain ⟨m', hscan, hm', hle, hsame, hbest⟩ := ih hps hm hrest
        refine ⟨m', hscan, hm', hle, hsame, ?_⟩
        intro i hi hirun
        rcases List.mem_cons.mp hi with rfl | hi
        · exact absurd hirun hrun
        · exact hbest i hi hirun

/-- A scan from scratch over slots in order finds the best process, if there is
one. -/
theorem bestScan_of_exists {l : List (Fin n)} (hl : l.Pairwise (· < ·))
    (hex : ∃ i ∈ l, Runnable t lv i) :
    ∃ m, bestScan (keyBetter key) lv t l false none = some (true, some m) ∧ Runnable t lv m ∧
      ∀ i ∈ l, Runnable t lv i → key (t i) ≤ key (t m) ∧ (key (t i) = key (t m) → m ≤ i) := by
  induction l with
  | nil =>
      obtain ⟨i, hi, -⟩ := hex
      cases hi
  | cons p ps ih =>
      obtain ⟨hp, hps⟩ := List.pairwise_cons.mp hl
      by_cases hrun : Runnable t lv p
      · rw [bestScan, if_neg (not_not.mpr hrun.1), if_neg (not_not.mpr hrun.2), if_pos rfl]
        obtain ⟨m, hscan, hm, hle, hsame, hbest⟩ := bestScan_best key hps hrun hp
        refine ⟨m, hscan, hm, fun i hi hirun => ?_⟩
        rcases List.mem_cons.mp hi with rfl | hi
        · exact ⟨hle, fun heq => (hsame heq).le⟩
        · exact hbest i hi hirun
      · rw [bestScan_of_not_runnable (keyBetter key) hrun]
        obtain ⟨i, hi, hirun⟩ := hex
        have hi' : i ∈ ps := by
          rcases List.mem_cons.mp hi with rfl | hi
          · exact absurd hirun hrun
          · exact hi
        obtain ⟨m, hscan, hm, hbest⟩ := ih hps ⟨i, hi', hirun⟩
        refine ⟨m, hscan, hm, fun j hj hjrun => ?_⟩
        rcases List.mem_cons.mp hj with rfl | hj
        · exact absurd hjrun hrun
        · exact hbest j hj hjrun

theorem bestScan_finRange (hex : ∃ i, Runnable t lv i) :
    ∃ m, bestScan (keyBetter key) lv t (List.finRange n) false none = some (true, some m) ∧
      Best key lv t m := by
  obtain ⟨i, hi⟩ := hex
  obtain ⟨m, hscan, hm, hbest⟩ := bestScan_of_exists key (List.pairwise_lt_finRange n)
    ⟨i, List.mem_finRange i, hi⟩
  exact ⟨m, hscan, hm, fun j hj => (hbest j (List.mem_finRange j) hj).1,
    fun j hj => (hbest j (List.mem_finRange j) hj).2⟩

end Scan

/-! ### The dispatches -/

section Dispatches

variable {K : Type} [LinearOrder K] (key : Proc n ℚ → K) {t : Table n ℚ}

/-- The table the HRRN process `m` is dispatched with. -/
def hrrnTable (t : Table n ℚ) (m : Fin n) : Table n ℚ :=
  Function.update t m { t m with state := .running, cycleNum := (t m).cycleNum + 1 }

/-- The table the SRPF process `m` is dispatched with. -/
def srpfTable (t : Table n ℚ) (m : Fin n) : Table n ℚ :=
  Function.update t m { t m with
    state := .running
    priority := if (t m).priority - 1 / 10 ≥ 0 then (t m).priority - 1 / 10 else (t m).priority }

theorem setState_update (t : Table n ℚ) (m : Fin n) (p : Proc n ℚ) (st : ProcState) :
    Table.setState (Function.update t m p) m st = Function.update t m { p with state := st } := by
  unfold Table.setState
  rw [Function.update_self, Function.update_idem]

theorem srpfTable_eq (t : Table n ℚ) (m : Fin n) :
    Table.setState (Function.update t m (lowerPriority (t m))) m .running = srpfTable t m := by
  rw [setState_update, srpfTable]
  congr 1
  by_cases hlow : (t m).priority - 1 / 10 ≥ 0
  · simp only [lowerPriority, FloatOps.canLower, FloatOps.lower, decide_eq_true hlow, if_true,
      if_pos hlow]
  · simp only [lowerPriority, FloatOps.canLower, decide_eq_false hlow, Bool.false_eq_true, if_false,
      if_neg hlow]

/-- **The right process is picked, and nothing else is touched**: without a
runnable lottery process, a pass dispatches the best HRRN process and counts
the dispatch, or else the best SRPF process and lowers its priority. No scan of
the pass reads a candidate that is not set. -/
theorem best_dispatched (t : Table n ℚ) (rnd : Int32) (hnl : ∀ i, ¬ Runnable t .lottery i) :
    ((∃ i, Runnable t .hrrn i) → ∃ m f, Best key .hrrn t m ∧
      lotteryPhase (keyBetter key) t rnd = .swtch .hrrn m (hrrnTable t m) f) ∧
    ((∀ i, ¬ Runnable t .hrrn i) → (∃ i, Runnable t .srpf i) → ∃ m f,
      Best (fun p => OrderDual.toDual p.priority) .srpf t m ∧
      lotteryPhase (keyBetter key) t rnd = .swtch .srpf m (srpfTable t m) f) ∧
    lotteryPhase (keyBetter key) t rnd ≠ .unset ∧
    ∀ back, (runPass (keyBetter key) back (lotteryPhase (keyBetter key) t rnd)).2 ≠ .unset := by
  have hphase : lotteryPhase (keyBetter key) t rnd =
      hrrnPhase (keyBetter key) t ⟨false, false, false⟩ := by
    rcases lotteryPhase_cases (keyBetter key) t rnd with ⟨p, hp, -⟩ | ⟨-, hphase⟩
    · exact absurd hp (hnl p)
    · rw [hphase, decide_eq_false (not_exists.mpr hnl)]
  have hend : ∀ back, ∃ t',
      (runPass (keyBetter key) back (lotteryPhase (keyBetter key) t rnd)).2 = .release t' :=
    fun back => (runPass_spec t rnd).2
  refine ⟨fun hex => ?_, fun hnh hex => ?_, fun hunset => ?_, fun back hunset => ?_⟩
  · obtain ⟨m, hscan, hbest⟩ := bestScan_finRange key hex
    refine ⟨m, ⟨false, true, false⟩, hbest, ?_⟩
    rw [hphase, hrrnPhase, if_pos rfl, hscan]
    exact congrArg (fun T => Out.swtch .hrrn m T _) (setState_update t m _ .running)
  · have hsrpf : hrrnPhase (keyBetter key) t ⟨false, false, false⟩ =
        srpfPhase t ⟨false, false, false⟩ := by
      rcases hrrnPhase_cases (keyBetter key) t (f := ⟨false, false, false⟩) rfl with
        ⟨-, hphase⟩ | ⟨m, hm, -⟩
      · exact hphase
      · exact absurd hm (hnh m)
    obtain ⟨m, hscan, hbest⟩ :=
      bestScan_finRange (fun p : Proc n ℚ => OrderDual.toDual p.priority) hex
    refine ⟨m, ⟨false, false, true⟩, hbest, ?_⟩
    have hbetter : (srpfBetter : Proc n ℚ → Proc n ℚ → Bool) =
        keyBetter fun p => OrderDual.toDual p.priority := rfl
    rw [hphase, hsrpf, srpfPhase, if_pos rfl, hbetter, hscan]
    exact congrArg (fun T => Out.swtch .srpf m T _) (srpfTable_eq t m)
  · obtain ⟨t', hrelease⟩ := hend fun _ => t
    rw [hunset] at hrelease
    simp [runPass, atSite] at hrelease
  · obtain ⟨t', hrelease⟩ := hend back
    rw [hunset] at hrelease
    cases hrelease

end Dispatches

/-- Slots 1 and 2 hold HRRN processes. -/
def twoHrrn : Table NPROC ℚ := fun i =>
  if i.val = 1 ∨ i.val = 2 then
    { Proc.zero with state := .runnable, level := .hrrn, cycleNum := 1 }
  else Proc.zero

theorem twoHrrn_dispatched :
    ∃ m f, Best (calculateHRRN 7) .hrrn twoHrrn m ∧
      lotteryPhase (keyBetter (calculateHRRN 7)) twoHrrn 0 =
        .swtch .hrrn m (hrrnTable twoHrrn m) f :=
  (best_dispatched (calculateHRRN 7) twoHrrn 0 (by decide)).1 ⟨1, by decide⟩

end OsCourse.Sched
