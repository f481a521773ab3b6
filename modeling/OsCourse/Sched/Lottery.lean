import Mathlib.Order.WellFounded
import OsCourse.Sched.PassSpec

/-!
# OsCourse.Sched.Lottery

**The shares of the lottery**: how many of the draws `0, …, T - 1`, with
`T = getTotal()`, dispatch each of the lottery processes.

The walk takes the tickets of a process off the draw before it compares with
`≤ 0`, so the first process is dispatched by `t₁ + 1` of the draws (all of
them, if there are not so many) and not by `t₁` (`drawsOf_first`). What it has
too much the last one lacks: the lottery is proportional only if there is
nobody to take the draw from (`proportional_iff`), and a process with one
ticket may never be dispatched (`twoTickets_not_proportional`).
-/

namespace OsCourse.Sched

variable {n : Nat} {F : Type}

/-- The processes of the lottery can all run and have tickets; the other slots
at `LOTTERY` level have none. -/
def LotteryReady (t : Table n F) : Prop :=
  ∀ i, (t i).level = .lottery →
    ((t i).state = .runnable ∧ 0 < (t i).tickets) ∨
      ((t i).state ≠ .runnable ∧ (t i).tickets = 0)

instance (t : Table n F) : Decidable (LotteryReady t) := by
  unfold LotteryReady
  infer_instance

/-- The draw `rnd` makes the walk stop at slot `i`. -/
def Drawn (t : Table n F) (rnd : Int32) (i : Fin n) : Prop :=
  (lotteryScan t (List.finRange n) rnd false).1 = some i

instance (t : Table n F) (rnd : Int32) (i : Fin n) : Decidable (Drawn t rnd i) := by
  unfold Drawn
  infer_instance

/-- The number of draws among `0, …, T - 1` that fall on slot `i`. -/
def drawsOf (t : Table n F) (i : Fin n) : Nat :=
  (List.range (getTotal t).toInt.toNat).countP fun r => Drawn t (Int32.ofNat r) i

/-- Every process of the lottery is drawn as often as it has tickets. -/
def Proportional (t : Table n F) : Prop :=
  ∀ i, Runnable t .lottery i → (drawsOf t i : Int) = (t i).tickets.toInt

/-- The slot drawn is the one the pass switches to. -/
theorem drawn_iff_swtch [FloatOps F] (better : Proc n F → Proc n F → Bool) (t : Table n F)
    (rnd : Int32) (i : Fin n) :
    Drawn t rnd i ↔
      ∃ f, lotteryPhase better t rnd = .swtch .lottery i (t.setState i .running) f := by
  rw [Drawn, lotteryPhase]
  rcases lotteryScan t (List.finRange n) rnd false with ⟨_ | p, q⟩
  · -- nobody is drawn: a switch, if there is one, is made by a later scan
    simp only [reduceCtorEq, false_iff, not_exists]
    intro f h
    rcases q with _ | _
    · rcases hrrnPhase_cases better t (f := ⟨false, false, false⟩) rfl with
        ⟨-, hphase⟩ | ⟨m, -, hphase⟩
      · rcases srpfPhase_cases (t := t) (f := ⟨false, false, false⟩) rfl with
          ⟨-, hsrpf⟩ | ⟨m, -, hsrpf⟩
        · simp [hphase, hsrpf] at h
        · simp [hphase, hsrpf] at h
      · simp [hphase] at h
    · rw [hrrnPhase_of_lottery rfl] at h
      rcases srpfPhase_cases (t := t) (f := ⟨true, false, false⟩) rfl with
        ⟨-, hsrpf⟩ | ⟨m, -, hsrpf⟩
      · simp [hsrpf] at h
      · simp [hsrpf] at h
  · constructor
    · intro h
      obtain rfl : p = i := Option.some.inj h
      exact ⟨_, rfl⟩
    · intro h
      obtain ⟨f, h⟩ := h
      injection h with _ hp
      rw [hp]

/-! ### The first process of the lottery -/

/-- The winner of a walk is one of the slots it visits. -/
theorem lotteryScan_mem {t : Table n F} {l : List (Fin n)} {rnd : Int32} {f : Bool} {i : Fin n}
    (h : (lotteryScan t l rnd f).1 = some i) : i ∈ l := by
  induction l generalizing rnd f with
  | nil => simp [lotteryScan] at h
  | cons p ps ih =>
      by_cases hp : Runnable t .lottery p
      · rw [lotteryScan_of_runnable hp] at h
        split_ifs at h
        · obtain rfl : p = i := by simpa using h
          exact List.mem_cons_self
        · exact List.mem_cons_of_mem p (ih h)
      · rw [lotteryScan_of_not_runnable hp] at h
        exact List.mem_cons_of_mem p (ih h)

/-- The first process of the lottery is drawn iff the draw is used up by its
tickets. -/
theorem lotteryScan_first {t : Table n F} {p : Fin n} (hp : Runnable t .lottery p)
    (hmin : ∀ j, j < p → ¬ Runnable t .lottery j) {l : List (Fin n)}
    (hl : l.Pairwise (· < ·)) (hmem : p ∈ l) (rnd : Int32) (f : Bool) :
    (lotteryScan t l rnd f).1 = some p ↔ rnd - (t p).tickets ≤ 0 := by
  induction l generalizing f with
  | nil => cases hmem
  | cons q ps ih =>
      obtain ⟨hq, hps⟩ := List.pairwise_cons.mp hl
      rcases List.mem_cons.mp hmem with rfl | hmem
      · rw [lotteryScan_of_runnable hp]
        split_ifs with hle
        · simp [hle]
        · -- the slots behind `p` are other slots
          refine ⟨fun h => absurd (hq p (lotteryScan_mem h)) (Nat.lt_irrefl _), fun h => ?_⟩
          exact absurd h hle
      · rw [lotteryScan_of_not_runnable (hmin q (hq p hmem))]
        exact ih hps hmem f

theorem toInt_pos {x : Int32} (h : 0 < x) : 0 < x.toInt := by
  rw [Int32.lt_iff_toInt_lt] at h
  simpa using h

/-- The draws `0, …, T - 1` are `int`s. -/
theorem lt_of_mem_draws {T : Int32} {r : Nat} (hr : r ∈ List.range T.toInt.toNat) :
    r < 2 ^ 31 := by
  have htotal : T.toInt < 2 ^ 31 := Int32.toInt_lt T
  exact Nat.lt_trans (List.mem_range.mp hr) (Int.toNat_lt_of_ne_zero (by decide) |>.mpr htotal)

/-- A draw below `2 ^ 31` is used up by positive tickets iff it is not greater. -/
theorem sub_tickets_le_zero {r : Nat} (hr : r < 2 ^ 31) {tickets : Int32} (hpos : 0 < tickets) :
    Int32.ofNat r - tickets ≤ 0 ↔ (r : Int) ≤ tickets.toInt := by
  have hpos' : 0 < tickets.toInt := toInt_pos hpos
  have hlt : tickets.toInt < 2 ^ 31 := Int32.toInt_lt tickets
  have hsub : (Int32.ofNat r - tickets).toInt = r - tickets.toInt := by
    rw [Int32.toInt_sub, Int32.toInt_ofNat_of_lt hr, Int.bmod_eq_of_le] <;> omega
  rw [Int32.le_iff_toInt_le, hsub, Int32.toInt_zero]
  exact ⟨Int.le_of_sub_nonpos, Int.sub_nonpos_of_le⟩

theorem countP_le_range (k T : Nat) :
    ((List.range T).countP fun r => decide (r ≤ k)) = min T (k + 1) := by
  induction T with
  | zero => simp
  | succ T ih =>
      rw [List.range_succ, List.countP_append, ih, List.countP_singleton]
      split_ifs with h
      · have hk : T ≤ k := by simpa using h
        omega
      · have hk : ¬ T ≤ k := by simpa using h
        omega

/-- The first process of the lottery is drawn by one draw more than it has
tickets, unless there are not so many draws. -/
theorem drawsOf_first {t : Table n F} {p : Fin n} (hp : Runnable t .lottery p)
    (hmin : ∀ j, j < p → ¬ Runnable t .lottery j) (hpos : 0 < (t p).tickets) :
    drawsOf t p = min (getTotal t).toInt.toNat ((t p).tickets.toInt.toNat + 1) := by
  rw [drawsOf, ← countP_le_range]
  refine List.countP_congr fun r hr => ?_
  have htickets : 0 < (t p).tickets.toInt := toInt_pos hpos
  rw [decide_eq_true_iff, decide_eq_true_iff, Drawn,
    lotteryScan_first hp hmin (List.pairwise_lt_finRange n) (List.mem_finRange p),
    sub_tickets_le_zero (lt_of_mem_draws hr) hpos]
  omega

/-! ### The total -/

/-- What slot `i` adds to the total. -/
def ticketShare (t : Table n F) (i : Fin n) : Int32 :=
  if (t i).level = .lottery then (t i).tickets else 0

theorem getTotal_eq (t : Table n F) :
    getTotal t = (List.finRange n).foldl (fun total i => total + ticketShare t i) 0 := by
  unfold getTotal ticketShare
  congr 1
  funext total i
  split_ifs
  · rfl
  · exact (Int32.add_zero total).symm

theorem foldl_share_of_zero {t : Table n F} {l : List (Fin n)}
    (h : ∀ j ∈ l, ticketShare t j = 0) (total : Int32) :
    l.foldl (fun total i => total + ticketShare t i) total = total := by
  induction l generalizing total with
  | nil => rfl
  | cons q ps ih =>
      rw [List.foldl_cons, h q List.mem_cons_self, Int32.add_zero]
      exact ih (fun j hj => h j (List.mem_cons_of_mem q hj)) total

/-- If only slot `p` has tickets, its tickets are the total. -/
theorem foldl_share_of_single {t : Table n F} {p : Fin n} {l : List (Fin n)} (hl : l.Nodup)
    (hmem : p ∈ l) (h : ∀ j, j ≠ p → ticketShare t j = 0) (total : Int32) :
    l.foldl (fun total i => total + ticketShare t i) total = total + ticketShare t p := by
  induction l generalizing total with
  | nil => cases hmem
  | cons q ps ih =>
      obtain ⟨hq, hps⟩ := List.nodup_cons.mp hl
      rw [List.foldl_cons]
      rcases List.mem_cons.mp hmem with rfl | hmem
      · exact foldl_share_of_zero (fun j hj => h j fun hjp => hq (hjp ▸ hj)) _
      · have hne : q ≠ p := fun hqp => hq (hqp ▸ hmem)
        rw [h q hne, Int32.add_zero]
        exact ih hps hmem total

/-- In a ready table only the processes of the lottery count. -/
theorem LotteryReady.share {t : Table n F} (ht : LotteryReady t) {i : Fin n}
    (hi : ¬ Runnable t .lottery i) : ticketShare t i = 0 := by
  unfold ticketShare
  split_ifs with hl
  · rcases ht i hl with ⟨hs, -⟩ | ⟨-, hz⟩
    · exact absurd ⟨hs, hl⟩ hi
    · exact hz
  · rfl

theorem LotteryReady.pos {t : Table n F} (ht : LotteryReady t) {i : Fin n}
    (hi : Runnable t .lottery i) : 0 < (t i).tickets := by
  rcases ht i hi.2 with ⟨-, hpos⟩ | ⟨hs, -⟩
  · exact hpos
  · exact absurd hi.1 hs

/-- With a positive total there is a first process of the lottery. -/
theorem LotteryReady.exists_first {t : Table n F} (ht : LotteryReady t) (htotal : 0 < getTotal t) :
    ∃ p, Runnable t .lottery p ∧ ∀ j, j < p → ¬ Runnable t .lottery j := by
  have hex : ∃ i, Runnable t .lottery i := by
    by_contra hnone
    have hzero : getTotal t = 0 := by
      rw [getTotal_eq]
      exact foldl_share_of_zero (fun j _ => ht.share fun hj => hnone ⟨j, hj⟩) 0
    rw [hzero] at htotal
    exact absurd htotal (by decide)
  obtain ⟨p, hp, hmin⟩ := WellFounded.has_min wellFounded_lt {i | Runnable t .lottery i} hex
  exact ⟨p, hp, fun j hj hrun => hmin j hrun hj⟩

/-! ### The lottery is proportional only for one process -/

/-- **The lottery is proportional** exactly when it has a single process: with
two, the first is drawn once too often, or at every draw. -/
theorem proportional_iff (t : Table n F) (ht : LotteryReady t) (htotal : 0 < getTotal t) :
    Proportional t ↔ ∃! i, Runnable t .lottery i := by
  obtain ⟨p, hp, hmin⟩ := ht.exists_first htotal
  have hpos := ht.pos hp
  have hdraws := drawsOf_first hp hmin hpos
  have hT : 0 < (getTotal t).toInt := toInt_pos htotal
  have htickets : 0 < (t p).tickets.toInt := toInt_pos hpos
  constructor
  · intro hprop
    -- the first process takes all the draws
    have hall : (getTotal t).toInt.toNat = (t p).tickets.toInt.toNat := by
      have := hprop p hp
      omega
    refine ⟨p, hp, fun q hq => ?_⟩
    by_contra hne
    -- so nothing is left for another one
    have hnone : drawsOf t q = 0 := by
      rw [drawsOf, List.countP_eq_zero]
      intro r hr
      have hrlt := List.mem_range.mp hr
      have hdrawn : Drawn t (Int32.ofNat r) p := by
        rw [Drawn, lotteryScan_first hp hmin (List.pairwise_lt_finRange n) (List.mem_finRange p),
          sub_tickets_le_zero (lt_of_mem_draws hr) hpos]
        omega
      rw [decide_eq_true_iff, Drawn, hdrawn]
      exact fun h => hne (Option.some.inj h).symm
    have hqpos := toInt_pos (ht.pos hq)
    have := hprop q hq
    omega
  · intro hone i hi
    obtain ⟨q, hq, huniq⟩ := hone
    obtain rfl : i = p := (huniq i hi).trans (huniq p hp).symm
    have hshare : getTotal t = (t i).tickets := by
      rw [getTotal_eq, foldl_share_of_single (List.nodup_finRange n) (List.mem_finRange i)
        (fun j hj => ht.share fun hrun => hj ((huniq j hrun).trans (huniq i hi).symm)) 0,
        ticketShare, if_pos hi.2, Int32.zero_add]
    rw [hdraws, hshare]
    omega

/-- Two processes with one ticket each. -/
def twoTickets : Table NPROC ℚ := fun i =>
  if i.val < 2 then { Proc.zero with state := .runnable, tickets := 1 } else Proc.zero

/-- The second of them is drawn by neither of the two draws. -/
theorem twoTickets_not_proportional :
    LotteryReady twoTickets ∧ 0 < getTotal twoTickets ∧ Runnable twoTickets .lottery 1 ∧
      drawsOf twoTickets 1 = 0 ∧ ¬ Proportional twoTickets := by
  have hdraws : drawsOf twoTickets 1 = 0 := by decide +kernel
  have hrun : Runnable twoTickets .lottery 1 := by decide
  refine ⟨by decide, by decide +kernel, hrun, hdraws, fun h => ?_⟩
  have hone := h 1 hrun
  rw [hdraws] at hone
  exact absurd hone (by decide)

/-- One process with five tickets. -/
def fiveTickets : Table NPROC ℚ := fun i =>
  if i.val < 1 then { Proc.zero with state := .runnable, tickets := 5 } else Proc.zero

theorem fiveTickets_proportional : Proportional fiveTickets :=
  (proportional_iff fiveTickets (by decide) (by decide +kernel)).mpr
    ⟨0, by decide, fun i hi => by revert i; decide⟩

end OsCourse.Sched
