import Mathlib.Algebra.BigOperators.Group.List.Basic
import OsCourse.Sched.Pass

/-!
# OsCourse.Sched.PassSpec

What one pass of `scheduler()` does, in terms of the tables it scans.

The lottery walk is described by `DrawHits`: it subtracts the tickets of the
runnable lottery processes from the draw, slot by slot in 32-bit arithmetic,
until the rest is not positive. The two other scans are characterised by
whether they find a runnable process of their level. `PassSpec` puts the
stretches together: it lists the four ways a pass can go, with the dispatches
of each; `schedulerPass_spec` says that every pass goes one of them and ends by
releasing `ptable.lock`.
-/

namespace OsCourse.Sched

variable {n : Nat} {F : Type}

/-! ### The lottery walk -/

/-- The tickets of the runnable lottery processes among the slots `l`. -/
def ticketsOf (t : Table n F) (l : List (Fin n)) : Int :=
  (l.map fun i => if Runnable t .lottery i then (t i).tickets.toInt else 0).sum

@[simp] theorem ticketsOf_nil (t : Table n F) : ticketsOf t [] = 0 := rfl

@[simp] theorem ticketsOf_cons (t : Table n F) (i : Fin n) (l : List (Fin n)) :
    ticketsOf t (i :: l) =
      (if Runnable t .lottery i then (t i).tickets.toInt else 0) + ticketsOf t l := by
  simp [ticketsOf]

/-- The slots `0, …, i`. -/
def slotsUpTo (i : Fin n) : List (Fin n) := (List.finRange n).take (i.val + 1)

/-- The draw falls on a ticket of a runnable lottery process: less the tickets
of those up to some such slot (in 32 bits), it is not positive. -/
def DrawHits (t : Table n F) (rnd : Int32) : Prop :=
  ∃ i, Runnable t .lottery i ∧
    (rnd.toInt - ticketsOf t (slotsUpTo i)).bmod (2 ^ 32) ≤ 0

instance (t : Table n F) (rnd : Int32) : Decidable (DrawHits t rnd) := by
  unfold DrawHits
  infer_instance

/-- The walk stops inside the list `l`, started with the remainder `r`. -/
def StopsIn (t : Table n F) (l : List (Fin n)) (r : Int) : Prop :=
  ∃ pre i post, l = pre ++ i :: post ∧ Runnable t .lottery i ∧
    (r - ticketsOf t (pre ++ [i])).bmod (2 ^ 32) ≤ 0

theorem drawHits_iff_stopsIn {t : Table n F} {rnd : Int32} :
    DrawHits t rnd ↔ StopsIn t (List.finRange n) rnd.toInt := by
  constructor
  · rintro ⟨i, hi, hle⟩
    refine ⟨(List.finRange n).take i, i, (List.finRange n).drop (i + 1), ?_, hi, ?_⟩
    · have hdrop : (List.finRange n).drop i = i :: (List.finRange n).drop (i + 1) := by
        rw [List.drop_eq_getElem_cons (by simp)]
        simp
      rw [← hdrop, List.take_append_drop]
    · have hsplit : (List.finRange n).take i ++ [i] = slotsUpTo i := by
        rw [slotsUpTo, ← List.take_append_getElem (by simp)]
        simp
      rwa [hsplit]
  · rintro ⟨pre, i, post, hl, hi, hle⟩
    have hlen : pre.length = i.val := by
      have hlt : pre.length < (List.finRange n).length := by rw [hl]; simp
      have hget : (List.finRange n).get ⟨pre.length, hlt⟩ = i := by simp [hl]
      simpa using congrArg Fin.val hget
    have hsplit : slotsUpTo i = pre ++ [i] := by
      rw [slotsUpTo, hl, ← hlen]
      simp [List.take_append]
    exact ⟨i, hi, by rwa [hsplit]⟩

/-- The first slot of a list that is not a runnable lottery process does not
matter to the walk. -/
theorem stopsIn_cons_of_not {t : Table n F} {p : Fin n} {ps : List (Fin n)} {r : Int}
    (hp : ¬ Runnable t .lottery p) : StopsIn t (p :: ps) r ↔ StopsIn t ps r := by
  constructor
  · rintro ⟨_ | ⟨q, pre⟩, i, post, hl, hi, hle⟩
    · obtain ⟨rfl, rfl⟩ := List.cons.inj hl
      exact absurd hi hp
    · obtain ⟨rfl, rfl⟩ := List.cons.inj hl
      refine ⟨pre, i, post, rfl, hi, ?_⟩
      simpa [if_neg hp] using hle
  · rintro ⟨pre, i, post, rfl, hi, hle⟩
    exact ⟨p :: pre, i, post, rfl, hi, by simpa [if_neg hp] using hle⟩

theorem bmod_sub_sub (a b c : Int) (m : Nat) :
    ((a - b).bmod m - c).bmod m = (a - (b + c)).bmod m := by
  rw [Int.bmod_sub_bmod, Int.sub_sub]

/-- A runnable lottery process at the head either stops the walk or takes its
tickets off the remainder. -/
theorem stopsIn_cons {t : Table n F} {p : Fin n} {ps : List (Fin n)} {rnd : Int32}
    (hp : Runnable t .lottery p) :
    StopsIn t (p :: ps) rnd.toInt ↔
      (rnd - (t p).tickets).toInt ≤ 0 ∨ StopsIn t ps (rnd - (t p).tickets).toInt := by
  constructor
  · rintro ⟨_ | ⟨q, pre⟩, i, post, hl, hi, hle⟩
    · obtain ⟨rfl, rfl⟩ := List.cons.inj hl
      left
      simpa [Int32.toInt_sub, if_pos hp] using hle
    · obtain ⟨rfl, rfl⟩ := List.cons.inj hl
      right
      refine ⟨pre, i, post, rfl, hi, ?_⟩
      rw [Int32.toInt_sub, bmod_sub_sub]
      simpa [if_pos hp] using hle
  · rintro (hle | ⟨pre, i, post, rfl, hi, hle⟩)
    · refine ⟨[], p, ps, rfl, hp, ?_⟩
      simpa [Int32.toInt_sub, if_pos hp] using hle
    · refine ⟨p :: pre, i, post, rfl, hi, ?_⟩
      rw [Int32.toInt_sub, bmod_sub_sub] at hle
      simpa [if_pos hp] using hle

theorem lotteryScan_of_not_runnable {t : Table n F} {p : Fin n} (hp : ¬ Runnable t .lottery p)
    (ps : List (Fin n)) (rnd : Int32) (f : Bool) :
    lotteryScan t (p :: ps) rnd f = lotteryScan t ps rnd f := by
  unfold Runnable at hp
  rw [lotteryScan]
  split_ifs with hs hl
  · rfl
  · rfl
  · exact absurd ⟨not_not.mp hs, not_not.mp hl⟩ hp

theorem lotteryScan_of_runnable {t : Table n F} {p : Fin n} (hp : Runnable t .lottery p)
    (ps : List (Fin n)) (rnd : Int32) (f : Bool) :
    lotteryScan t (p :: ps) rnd f =
      if rnd - (t p).tickets ≤ 0 then (some p, true)
      else lotteryScan t ps (rnd - (t p).tickets) true := by
  rw [lotteryScan, if_neg (not_not.mpr hp.1), if_neg (not_not.mpr hp.2)]

/-- `isLotteryQEmpty` is set iff the scan saw a runnable lottery process. -/
theorem lotteryScan_flag (t : Table n F) (l : List (Fin n)) (rnd : Int32) (f : Bool) :
    (lotteryScan t l rnd f).2 = true ↔ f = true ∨ ∃ i ∈ l, Runnable t .lottery i := by
  induction l generalizing rnd f with
  | nil => simp [lotteryScan]
  | cons p ps ih =>
      by_cases hp : Runnable t .lottery p
      · rw [lotteryScan_of_runnable hp]
        split_ifs
        · simp [hp]
        · simp [ih, hp]
      · rw [lotteryScan_of_not_runnable hp, ih]
        simp [hp]

/-- A winner of the lottery is a runnable lottery process. -/
theorem lotteryScan_winner {t : Table n F} {l : List (Fin n)} {rnd : Int32} {f : Bool} {i : Fin n}
    (h : (lotteryScan t l rnd f).1 = some i) : Runnable t .lottery i := by
  induction l generalizing rnd f with
  | nil => simp [lotteryScan] at h
  | cons p ps ih =>
      by_cases hp : Runnable t .lottery p
      · rw [lotteryScan_of_runnable hp] at h
        split_ifs at h
        · obtain rfl : p = i := by simpa using h
          exact hp
        · exact ih h
      · rw [lotteryScan_of_not_runnable hp] at h
        exact ih h

/-- There is a winner iff the walk stops inside the list. -/
theorem lotteryScan_isSome (t : Table n F) (l : List (Fin n)) (rnd : Int32) (f : Bool) :
    (lotteryScan t l rnd f).1.isSome ↔ StopsIn t l rnd.toInt := by
  induction l generalizing rnd f with
  | nil =>
      simp only [lotteryScan, Option.isSome_none, Bool.false_eq_true, false_iff]
      rintro ⟨_ | ⟨q, pre⟩, i, post, hl, -⟩ <;> cases hl
  | cons p ps ih =>
      by_cases hp : Runnable t .lottery p
      · rw [lotteryScan_of_runnable hp, stopsIn_cons hp]
        have hle : rnd - (t p).tickets ≤ 0 ↔ (rnd - (t p).tickets).toInt ≤ 0 := by
          rw [Int32.le_iff_toInt_le, Int32.toInt_zero]
        split_ifs with h0
        · exact ⟨fun _ => .inl (hle.mp h0), fun _ => rfl⟩
        · rw [ih]
          exact ⟨.inr, fun h => h.resolve_left (mt hle.mpr h0)⟩
      · rw [lotteryScan_of_not_runnable hp, stopsIn_cons_of_not hp]
        exact ih rnd f

/-! ### The other two scans -/

section Best

variable (better : Proc n F → Proc n F → Bool) {lv : Levels} {t : Table n F}

theorem bestScan_of_not_runnable {p : Fin n} (hp : ¬ Runnable t lv p) (ps : List (Fin n))
    (flag : Bool) (cand : Option (Fin n)) :
    bestScan better lv t (p :: ps) flag cand = bestScan better lv t ps flag cand := by
  by_cases hs : (t p).state = .runnable
  · have hl : (t p).level ≠ lv := fun hl => hp ⟨hs, hl⟩
    cases cand <;> simp only [bestScan, hs, ne_eq, not_true_eq_false, if_false, hl,
      not_false_eq_true, if_true]
  · cases cand <;> simp only [bestScan, ne_eq, hs, not_false_eq_true, if_true]

/-- Once it has a candidate, the scan keeps one. -/
theorem bestScan_of_cand {m : Fin n} (hm : Runnable t lv m) (l : List (Fin n)) :
    ∃ m', bestScan better lv t l true (some m) = some (true, some m') ∧ Runnable t lv m' := by
  induction l generalizing m with
  | nil => exact ⟨m, rfl, hm⟩
  | cons p ps ih =>
      by_cases hp : Runnable t lv p
      · rw [bestScan, if_neg (not_not.mpr hp.1), if_neg (not_not.mpr hp.2), if_neg (by simp)]
        split_ifs
        · exact ih hp
        · exact ih hm
      · rw [bestScan_of_not_runnable better hp]
        exact ih hm

variable (lv t) in
/-- A scan from scratch finds nothing, or sets flag and candidate together; it
never reads an unset candidate. -/
theorem bestScan_cases (l : List (Fin n)) :
    (bestScan better lv t l false none = some (false, none) ∧ ∀ i ∈ l, ¬ Runnable t lv i) ∨
      ∃ m, bestScan better lv t l false none = some (true, some m) ∧ Runnable t lv m := by
  induction l with
  | nil => exact .inl ⟨rfl, by simp⟩
  | cons p ps ih =>
      by_cases hp : Runnable t lv p
      · right
        rw [bestScan, if_neg (not_not.mpr hp.1), if_neg (not_not.mpr hp.2), if_pos rfl]
        exact bestScan_of_cand better hp ps
      · rw [bestScan_of_not_runnable better hp]
        rcases ih with ⟨hscan, hnone⟩ | hfound
        · left
          refine ⟨hscan, fun i hi => ?_⟩
          rcases List.mem_cons.mp hi with rfl | hi
          · exact hp
          · exact hnone i hi
        · exact .inr hfound

end Best

/-! ### The stretches -/

section Phases

variable [FloatOps F] {better : Proc n F → Proc n F → Bool} {t : Table n F} {f : Flags}

@[simp] theorem lowerPriority_level (p : Proc n F) : (lowerPriority p).level = p.level := by
  unfold lowerPriority
  split <;> rfl

@[simp] theorem lowerPriority_state (p : Proc n F) : (lowerPriority p).state = p.state := by
  unfold lowerPriority
  split <;> rfl

/-- The flags never say that both a lottery and an HRRN process were found. -/
def Flags.Ok (f : Flags) : Prop := ¬ (f.isHRRNEmpty = true ∧ f.isLotteryQEmpty = true)

omit [FloatOps F] in
/-- With such flags the `continue` is not taken. -/
theorem passEnd_of_ok (hf : f.Ok) : passEnd t f = .release t := by
  rw [passEnd, if_neg]
  exact fun h => hf ⟨h.2.1, h.2.2⟩

theorem srpfPhase_of_hrrn (hf : f.isHRRNEmpty = true) : srpfPhase t f = passEnd t f := by
  rw [srpfPhase, if_neg (by simp [hf])]

/-- The SRPF block, when it is entered: nobody to run, or a dispatch. -/
theorem srpfPhase_cases (hf : f.isHRRNEmpty = false) :
    ((∀ i, ¬ Runnable t .srpf i) ∧ srpfPhase t f = .release t) ∨
      ∃ m, Runnable t .srpf m ∧
        srpfPhase t f = .swtch .srpf m
          (Table.setState (Function.update t m (lowerPriority (t m))) m .running)
          { f with isSRPFEmpty := true } := by
  rw [srpfPhase, if_pos hf]
  rcases bestScan_cases srpfBetter .srpf t (List.finRange n) with
    ⟨hscan, hnone⟩ | ⟨m, hscan, hm⟩
  · left
    rw [hscan]
    exact ⟨fun i => hnone i (List.mem_finRange i), passEnd_of_ok (by simp [Flags.Ok, hf])⟩
  · right
    rw [hscan]
    exact ⟨m, hm, rfl⟩

theorem hrrnPhase_of_lottery (hf : f.isLotteryQEmpty = true) :
    hrrnPhase better t f = srpfPhase t f := by
  rw [hrrnPhase, if_neg (by simp [hf])]

variable (better t) in
/-- The HRRN block, when it is entered: nobody to run, or a dispatch. -/
theorem hrrnPhase_cases (hf : f.isLotteryQEmpty = false) :
    ((∀ i, ¬ Runnable t .hrrn i) ∧
        hrrnPhase better t f = srpfPhase t { f with isHRRNEmpty := false }) ∨
      ∃ m, Runnable t .hrrn m ∧
        hrrnPhase better t f = .swtch .hrrn m
          (Table.setState (Function.update t m { t m with cycleNum := (t m).cycleNum + 1 })
            m .running)
          { f with isHRRNEmpty := true } := by
  rw [hrrnPhase, if_pos hf]
  rcases bestScan_cases better .hrrn t (List.finRange n) with
    ⟨hscan, hnone⟩ | ⟨m, hscan, hm⟩
  · left
    rw [hscan]
    exact ⟨fun i => hnone i (List.mem_finRange i), rfl⟩
  · right
    rw [hscan]
    exact ⟨m, hm, rfl⟩

variable (better t) in
/-- The lottery scan: the draw falls on a runnable process, or the pass goes on
with `isLotteryQEmpty` set iff there was one. -/
theorem lotteryPhase_cases (rnd : Int32) :
    (∃ p, Runnable t .lottery p ∧ DrawHits t rnd ∧
        lotteryPhase better t rnd =
          .swtch .lottery p (t.setState p .running) ⟨true, false, false⟩) ∨
      ¬ DrawHits t rnd ∧
        lotteryPhase better t rnd =
          hrrnPhase better t ⟨decide (∃ i, Runnable t .lottery i), false, false⟩ := by
  have hflag := lotteryScan_flag t (List.finRange n) rnd false
  have hsome := lotteryScan_isSome t (List.finRange n) rnd false
  rw [← drawHits_iff_stopsIn] at hsome
  simp only [Bool.false_eq_true, List.mem_finRange, true_and, false_or] at hflag
  rw [lotteryPhase]
  rcases hscan : lotteryScan t (List.finRange n) rnd false with ⟨_ | p, q⟩
  · right
    rw [hscan] at hflag hsome
    have hq : q = decide (∃ i, Runnable t .lottery i) := by
      rw [Bool.eq_iff_iff, decide_eq_true_iff]
      exact hflag
    exact ⟨fun h => by simpa using hsome.mpr h, by rw [hq]⟩
  · left
    have hp : Runnable t .lottery p := lotteryScan_winner (congrArg Prod.fst hscan)
    rw [hscan] at hflag hsome
    obtain rfl : q = true := hflag.mpr ⟨p, hp⟩
    exact ⟨p, hp, hsome.mp rfl, rfl⟩

end Phases

/-! ### Whole passes -/

section Pass

variable [FloatOps F] {better : Proc n F → Proc n F → Bool} {back : Site → Table n F}

/-- What the SRPF block contributes to a pass, run on the table `t`. -/
inductive SrpfTail (t : Table n F) : List (Dispatch n) → Prop
  | idle : (∀ i, ¬ Runnable t .srpf i) → SrpfTail t []
  | run (m : Fin n) : Runnable t .srpf m → SrpfTail t [⟨.srpf, m, .srpf⟩]

/-- The four ways a pass can go, with its dispatches. -/
inductive PassSpec (t : Table n F) (rnd : Int32) (back : Site → Table n F) :
    List (Dispatch n) → Prop
  /-- The draw falls on `p`; the SRPF block then runs on the table `p` left. -/
  | drawn (p : Fin n) {ds : List (Dispatch n)} : Runnable t .lottery p → DrawHits t rnd →
      SrpfTail (back .lottery) ds → PassSpec t rnd back (⟨.lottery, p, .lottery⟩ :: ds)
  /-- There are runnable lottery processes, but the draw misses them all. -/
  | missed {ds : List (Dispatch n)} : (∃ i, Runnable t .lottery i) → ¬ DrawHits t rnd →
      SrpfTail t ds → PassSpec t rnd back ds
  /-- No lottery process can run, an HRRN process does. -/
  | hrrn (m : Fin n) : (∀ i, ¬ Runnable t .lottery i) → Runnable t .hrrn m →
      PassSpec t rnd back [⟨.hrrn, m, .hrrn⟩]
  /-- Neither a lottery nor an HRRN process can run. -/
  | srpf {ds : List (Dispatch n)} : (∀ i, ¬ Runnable t .lottery i) →
      (∀ i, ¬ Runnable t .hrrn i) → SrpfTail t ds → PassSpec t rnd back ds

variable (better back) in
/-- A pass that has only the SRPF block left. -/
theorem runPass_srpfPhase (t : Table n F) {f : Flags} (hf : f.isHRRNEmpty = false)
    (ds : List (Dispatch n)) :
    ∃ ds' t', SrpfTail t ds' ∧
      atSite better back (ds, srpfPhase t f) .srpf = (ds ++ ds', .release t') := by
  rcases srpfPhase_cases (t := t) hf with ⟨hnone, hout⟩ | ⟨m, hm, hout⟩
  · exact ⟨[], t, .idle hnone, by simp [hout, atSite]⟩
  · refine ⟨_, back .srpf, .run m hm, ?_⟩
    simp [hout, atSite, resume, hm.2, passEnd_of_ok (f := { f with isSRPFEmpty := true })
      (by simp [Flags.Ok, hf])]

/-- The SRPF block never switches anywhere but at its own site. -/
theorem atSite_srpfPhase_of_ne (t : Table n F) {f : Flags} (hf : f.isHRRNEmpty = false)
    (ds : List (Dispatch n)) {site : Site} (hs : site ≠ .srpf) :
    atSite better back (ds, srpfPhase t f) site = (ds, srpfPhase t f) := by
  rcases srpfPhase_cases (t := t) hf with ⟨-, hout⟩ | ⟨m, -, hout⟩
  · simp [hout, atSite]
  · simp [hout, atSite, hs.symm]

/-- **Every pass** goes one of the four ways and ends by releasing the lock. -/
theorem runPass_spec (t : Table n F) (rnd : Int32) :
    PassSpec t rnd back (runPass better back (lotteryPhase better t rnd)).1 ∧
      ∃ t', (runPass better back (lotteryPhase better t rnd)).2 = .release t' := by
  unfold runPass
  simp only [List.foldl_cons, List.foldl_nil]
  rcases lotteryPhase_cases better t rnd with
    ⟨p, hp, hhit, hout⟩ | ⟨hmiss, hout⟩
  · -- the lottery dispatches `p`, then the HRRN block is passed over
    have hfirst : atSite better back ([], lotteryPhase better t rnd) .lottery =
        ([⟨.lottery, p, .lottery⟩], srpfPhase (back .lottery) ⟨true, false, false⟩) := by
      simp [hout, atSite, resume, hrrnPhase_of_lottery, hp.2]
    rw [hfirst, atSite_srpfPhase_of_ne _ rfl _ (by decide)]
    obtain ⟨ds, t', hds, hrun⟩ := runPass_srpfPhase better back
      (back .lottery) (f := ⟨true, false, false⟩) rfl [⟨.lottery, p, .lottery⟩]
    rw [hrun]
    exact ⟨.drawn p hp hhit hds, t', rfl⟩
  · by_cases hex : ∃ i, Runnable t .lottery i
    · have hphase : lotteryPhase better t rnd = srpfPhase t ⟨true, false, false⟩ := by
        rw [hout, decide_eq_true hex, hrrnPhase_of_lottery rfl]
      rw [hphase, atSite_srpfPhase_of_ne _ rfl _ (by decide),
        atSite_srpfPhase_of_ne _ rfl _ (by decide)]
      obtain ⟨ds, t', hds, hrun⟩ := runPass_srpfPhase better back t
        (f := ⟨true, false, false⟩) rfl []
      rw [hrun]
      exact ⟨.missed hex hmiss (by simpa using hds), t', rfl⟩
    · have hnl : ∀ i, ¬ Runnable t .lottery i := fun i hi => hex ⟨i, hi⟩
      rw [hout, decide_eq_false hex]
      rcases hrrnPhase_cases better t (f := ⟨false, false, false⟩) rfl with
        ⟨hnh, hphase⟩ | ⟨m, hm, hphase⟩
      · rw [hphase, atSite_srpfPhase_of_ne _ rfl _ (by decide),
          atSite_srpfPhase_of_ne _ rfl _ (by decide)]
        obtain ⟨ds, t', hds, hrun⟩ := runPass_srpfPhase better back t
          (f := ⟨false, false, false⟩) rfl []
        rw [hrun]
        exact ⟨.srpf hnl hnh (by simpa using hds), t', rfl⟩
      · -- HRRN dispatches `m`; its flag keeps the SRPF block from being entered
        have hend : srpfPhase (back .hrrn) ⟨false, true, false⟩ = .release (back .hrrn) := by
          rw [srpfPhase_of_hrrn rfl, passEnd_of_ok (by simp [Flags.Ok])]
        have hrun : atSite better back (atSite better back (atSite better back
            ([], hrrnPhase better t ⟨false, false, false⟩) .lottery) .hrrn) .srpf =
            ([⟨.hrrn, m, .hrrn⟩], .release (back .hrrn)) := by
          simp [hphase, atSite, resume, hend, hm.2]
        rw [hrun]
        exact ⟨.hrrn m hnl hm, _, rfl⟩

theorem schedulerPass_spec (ticks : UInt32) (t₀ t : Table n F) :
    PassSpec t (generateRandom ticks (getTotal t₀)) back (schedulerPass ticks t₀ t back).1 ∧
      ∃ t', (schedulerPass ticks t₀ t back).2 = .release t' :=
  runPass_spec t _

end Pass

end OsCourse.Sched
