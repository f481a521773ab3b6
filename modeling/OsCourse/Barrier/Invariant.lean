import Mathlib.Data.Fintype.Card
import Mathlib.Data.Finset.Card
import OsCourse.Barrier.Model
import OsCourse.Lib.Lock

/-!
# OsCourse.Barrier.Invariant

The invariant of the barrier, relative to the number `K` of rounds whose wakeup
has run. It has three parts:

* each of the three locks is held exactly inside its region (`Lib.Held`);
* every process is in round `K` or `K + 1`, according to where it stands
  (`Phase`). A process on its way to sleep may belong to either: if its round's
  wakeup has already run, that wakeup missed it;
* `bar.waitCount` is the number of processes counted in round `K + 1`, except
  between the last arriver's wakeup and its reset, when it is still `N`.

Everything the rounds theorem and the wakeup theorem need is read off this.
The one step that breaks it is an unlocked test made while the count is `N`
(`Inv.step` excludes it): the caller then skips its round.
-/

namespace OsCourse.Barrier

open OsCourse.Lib

variable {N : Nat}

namespace PC

/-- Counted and not yet let go: between the increment and the end of `sched()`. -/
def Arrived : PC → Prop
  | compare | wakeAcquire | wakeup1 | releaseCount | acquireSl | sleepAcquire | sleepRelease
  | sleepState | asleep => True
  | _ => False

/-- Between the wakeup of a round and the reset of its count. -/
def Resetting : PC → Prop
  | wakeRelease | reset => True
  | _ => False

/-- Where the last arriver of a round may stand while the count is `N`. -/
def AtFull : PC → Prop
  | compare | wakeAcquire | wakeup1 | wakeRelease | reset => True
  | _ => False

/-- The branch of the last arriver, up to its reset. -/
def AtWake : PC → Prop
  | wakeAcquire | wakeup1 | wakeRelease | reset => True
  | _ => False

instance : DecidablePred Arrived := fun k => by cases k <;> unfold Arrived <;> infer_instance

instance : DecidablePred Resetting := fun k => by cases k <;> unfold Resetting <;> infer_instance

end PC

/-- The round of a process (`entered`, `returned`) by where it stands, when `K`
rounds have been woken. -/
def Phase (K : Nat) (k : PC) (entered returned : Nat) : Prop :=
  match k with
  | .user => entered = K ∧ returned = K
  | .test | .acquireCount | .incr | .compare | .wakeAcquire | .wakeup1 =>
      entered = K + 1 ∧ returned = K
  | .releaseCount | .acquireSl | .sleepAcquire | .sleepRelease | .sleepState | .asleep =>
      returned + 1 = entered ∧ (entered = K + 1 ∨ entered = K)
  | .woken | .tidy | .reacquireSl | .releaseSl | .wakeRelease | .reset | .releaseLast =>
      entered = K ∧ returned + 1 = K

/-- Every process has entered round `K` and none has left round `K + 1`. -/
theorem Phase.bounds {K e r : Nat} {k : PC} (h : Phase K k e r) : K ≤ e ∧ r ≤ K := by
  cases k <;> simp only [Phase] at h <;> omega

/-- The processes counted in round `K + 1`. -/
def counted (K : Nat) (s : State N) : Finset (Fin N) :=
  Finset.univ.filter fun p => (s.pc p).Arrived ∧ s.entered p = K + 1

theorem mem_counted {K : Nat} {s : State N} {p : Fin N} :
    p ∈ counted K s ↔ (s.pc p).Arrived ∧ s.entered p = K + 1 := by
  simp [counted]

/-- The invariant, with `K` rounds woken. -/
structure Inv (K : Nat) (s : State N) : Prop where
  countLock : Held PC.HoldsCount s.countLock s.pc
  sl : Held PC.HoldsSl s.sl s.pc
  ptable : Held PC.HoldsPtable s.ptable s.pc
  phase : ∀ p, Phase K (s.pc p) (s.entered p) (s.returned p)
  count : s.waitCount = (counted K s).card + if ∃ p, (s.pc p).Resetting then N else 0
  full : s.waitCount = N → ∃ p, (s.pc p).AtFull
  wake : ∀ p, (s.pc p).AtWake → s.waitCount = N

/-! ### Regions imply each other -/

theorem PC.AtFull.holds {k : PC} (h : k.AtFull) : k.HoldsCount := by
  cases k <;> simp_all [PC.AtFull, PC.HoldsCount]

theorem PC.AtWake.holds {k : PC} (h : k.AtWake) : k.HoldsCount := by
  cases k <;> simp_all [PC.AtWake, PC.HoldsCount]

theorem PC.Resetting.atWake {k : PC} (h : k.Resetting) : k.AtWake := by
  cases k <;> simp_all [PC.Resetting, PC.AtWake]

theorem inv_init (hN : 0 < N) : Inv 0 (init N) where
  countLock p := by simp [init, PC.HoldsCount]
  sl p := by simp [init, PC.HoldsSl]
  ptable p := by simp [init, PC.HoldsPtable]
  phase p := by simp [init, Phase]
  count := by
    have h : counted 0 (init N) = ∅ := by
      ext p
      simp [mem_counted, init, PC.Arrived]
    rw [h]
    simp [init, PC.Resetting]
  full h := by simp only [init] at h; omega
  wake p h := by simp [init, PC.AtWake] at h

/-! ### Consequences of the invariant -/

namespace Inv

variable {K : Nat} {s : State N}

theorem counted_card_le (s : State N) : (counted K s).card ≤ N := by
  simpa using Finset.card_le_univ (counted K s)

/-- The count never exceeds the number of processes. -/
theorem waitCount_le (h : Inv K s) : s.waitCount ≤ N := by
  by_cases hr : ∃ p, (s.pc p).Resetting
  · obtain ⟨p, hp⟩ := hr
    exact (h.wake p hp.atWake).le
  · rw [h.count, if_neg hr]
    exact counted_card_le s

/-- Between a wakeup and its reset nobody is counted in the next round yet. -/
theorem counted_empty (h : Inv K s) {p : Fin N} (hp : (s.pc p).Resetting) :
    counted K s = ∅ := by
  have hcount := h.count
  rw [h.wake p hp.atWake, if_pos ⟨p, hp⟩] at hcount
  exact Finset.card_eq_zero.mp (by omega)

/-- While somebody else holds `countLock` outside the last arriver's branch,
the count has not reached `N`. -/
theorem waitCount_ne (h : Inv K s) {p : Fin N} (hp : (s.pc p).HoldsCount)
    (hn : ¬ (s.pc p).AtFull) : s.waitCount ≠ N := by
  intro hN
  obtain ⟨q, hq⟩ := h.full hN
  obtain rfl : q = p := h.countLock.unique hq.holds hp
  exact hn hq

/-- No reset is pending while `p` holds `countLock` outside the reset window. -/
theorem not_resetting (h : Inv K s) {p : Fin N} (hp : (s.pc p).HoldsCount)
    (hn : ¬ (s.pc p).Resetting) : ¬ ∃ q, (s.pc q).Resetting := by
  rintro ⟨q, hq⟩
  obtain rfl : q = p := h.countLock.unique hq.atWake.holds hp
  exact hn hq

/-- When the last arriver runs its wakeup, all processes are counted. -/
theorem counted_univ (h : Inv K s) {p : Fin N} (hp : s.pc p = .wakeup1) (q : Fin N) :
    (s.pc q).Arrived ∧ s.entered q = K + 1 := by
  have hfull : s.waitCount = N := h.wake p (by rw [hp]; trivial)
  have hnr := h.not_resetting (p := p) (by rw [hp]; trivial) (by rw [hp]; exact id)
  have hcard : (counted K s).card = Fintype.card (Fin N) := by
    have hcount := h.count
    rw [if_neg hnr] at hcount
    simp only [Fintype.card_fin]
    omega
  exact mem_counted.mp (Finset.card_eq_iff_eq_univ _ |>.mp hcard ▸ Finset.mem_univ q)

/-! ### Steps that leave the count alone -/

/-- What a step of `p` to `k` does to the fields the round invariant reads,
when it neither changes the count nor wakes anybody. -/
structure Quiet (s s' : State N) (p : Fin N) (k : PC) : Prop where
  pc : s'.pc = Function.update s.pc p k
  waitCount : s'.waitCount = s.waitCount
  entered : ∀ q, q ≠ p → s'.entered q = s.entered q
  returned : ∀ q, q ≠ p → s'.returned q = s.returned q

/-- A quiet step keeps the invariant if the new point of `p` fits its round and
lies on the same side of the counted region and of the reset window. -/
theorem quiet (h : Inv K s) {s' : State N} {p : Fin N} {k : PC} (hq : Quiet s s' p k)
    (hcl : Held PC.HoldsCount s'.countLock s'.pc) (hsl : Held PC.HoldsSl s'.sl s'.pc)
    (hpt : Held PC.HoldsPtable s'.ptable s'.pc)
    (hphase : Phase K k (s'.entered p) (s'.returned p))
    (harr : k.Arrived ∧ s'.entered p = K + 1 ↔ (s.pc p).Arrived ∧ s.entered p = K + 1)
    (hres : k.Resetting ↔ (s.pc p).Resetting)
    (hfull : (s.pc p).AtFull → s.waitCount = N → k.AtFull)
    (hwake : k.AtWake → s.waitCount = N) : Inv K s' := by
  have hpc : ∀ q, q ≠ p → s'.pc q = s.pc q := fun q hne => by
    rw [hq.pc, Function.update_of_ne hne]
  have hpcp : s'.pc p = k := by rw [hq.pc, Function.update_self]
  refine ⟨hcl, hsl, hpt, fun q => ?_, ?_, ?_, fun q hqw => ?_⟩
  · by_cases hne : q = p
    · subst hne
      rw [hpcp]
      exact hphase
    · rw [hpc q hne, hq.entered q hne, hq.returned q hne]
      exact h.phase q
  · have hcounted : counted K s' = counted K s := by
      ext q
      rw [mem_counted, mem_counted]
      by_cases hne : q = p
      · subst hne
        rw [hpcp]
        exact harr
      · rw [hpc q hne, hq.entered q hne]
    have hreset : (∃ q, (s'.pc q).Resetting) ↔ ∃ q, (s.pc q).Resetting := by
      refine exists_congr fun q => ?_
      by_cases hne : q = p
      · subst hne
        rw [hpcp]
        exact hres
      · rw [hpc q hne]
    rw [hq.waitCount, h.count, hcounted]
    simp only [hreset]
  · intro hN
    rw [hq.waitCount] at hN
    obtain ⟨q, hqf⟩ := h.full hN
    by_cases hne : q = p
    · subst hne
      exact ⟨q, by rw [hpcp]; exact hfull hqf hN⟩
    · exact ⟨q, by rw [hpc q hne]; exact hqf⟩
  · rw [hq.waitCount]
    by_cases hne : q = p
    · subst hne
      rw [hpcp] at hqw
      exact hwake hqw
    · rw [hpc q hne] at hqw
      exact h.wake q hqw

/-! ### The steps that change the count -/

/-- `bar.waitCount++`: the caller is counted. -/
theorem incr (h : Inv K s) {p : Fin N} (hp : s.pc p = .incr) {x : Option (Fin N)} :
    Inv K { s.goto p .compare with waitCount := s.waitCount + 1, nth := x } := by
  have hph := h.phase p
  rw [hp] at hph
  have hlock : (s.pc p).HoldsCount := by rw [hp]; trivial
  have hne : s.waitCount ≠ N := h.waitCount_ne hlock (by rw [hp]; exact id)
  have hnr := h.not_resetting hlock (by rw [hp]; exact id)
  have hnr' : ¬ ∃ q, ((s.goto p .compare).pc q).Resetting := by
    rintro ⟨q, hq⟩
    by_cases hqp : q = p
    · subst hqp
      simp [State.goto, PC.Resetting] at hq
    · exact hnr ⟨q, by simpa [State.goto, hqp] using hq⟩
  have hnotin : p ∉ counted K s := by
    rw [mem_counted, hp]
    exact fun hm => hm.1
  have hcounted : counted K (s.goto p .compare) = insert p (counted K s) := by
    ext q
    rw [Finset.mem_insert, mem_counted, mem_counted]
    by_cases hqp : q = p
    · subst hqp
      simpa [State.goto, PC.Arrived] using hph.1
    · simp [State.goto, hqp]
  refine ⟨h.countLock.stay hp Iff.rfl, h.sl.stay hp Iff.rfl, h.ptable.stay hp Iff.rfl,
    fun q => ?_, ?_, fun _ => ?_, fun q hq => ?_⟩
  · by_cases hqp : q = p
    · subst hqp
      simpa [State.goto, Phase] using hph
    · simpa [State.goto, hqp] using h.phase q
  · have hcount := h.count
    rw [if_neg hnr] at hcount
    have hcard := Finset.card_insert_of_notMem hnotin
    rw [← hcounted] at hcard
    show s.waitCount + 1 = (counted K (s.goto p .compare)).card + ite _ N 0
    rw [if_neg hnr', hcard, hcount]
  · exact ⟨p, by simp [State.goto, PC.AtFull]⟩
  · -- only `p` holds `countLock`, and it is not on the waking branch yet
    exfalso
    by_cases hqp : q = p
    · subst hqp
      simp [State.goto, PC.AtWake] at hq
    · have hq' : (s.pc q).AtWake := by simpa [State.goto, hqp] using hq
      exact h.countLock.outside hlock hqp hq'.holds

/-- The loop of `wakeup1`: the round is over for everybody, those on their way
to sleep included. -/
theorem wakeup1 (h : Inv K s) {p : Fin N} (hp : s.pc p = .wakeup1) :
    Inv (K + 1) (s.wakeup1.goto p .wakeRelease) := by
  have hall := h.counted_univ hp
  have hlock : (s.pc p).HoldsCount := by rw [hp]; trivial
  have hw : ∀ q, q ≠ p → (s.wakeup1.goto p .wakeRelease).pc q =
      if s.pc q = .asleep then .woken else s.pc q := fun q hq => by
    simp [State.goto, State.wakeup1, hq]
  have hwp : (s.wakeup1.goto p .wakeRelease).pc p = .wakeRelease := by simp [State.goto]
  have hwr : ∃ q, ((s.wakeup1.goto p .wakeRelease).pc q).Resetting :=
    ⟨p, by rw [hwp]; trivial⟩
  have hempty : counted (K + 1) (s.wakeup1.goto p .wakeRelease) = ∅ := by
    ext q
    have := (hall q).2
    simp only [mem_counted, Finset.notMem_empty, iff_false, not_and]
    intro _ he
    simp only [State.goto, State.wakeup1] at he
    omega
  have hregion : ∀ R : PC → Prop, (R .asleep ↔ R .woken) → (R .wakeRelease ↔ R .wakeup1) →
      ∀ q, R ((s.wakeup1.goto p .wakeRelease).pc q) ↔ R (s.pc q) := by
    intro R hsleep hwake q
    by_cases hqp : q = p
    · subst hqp
      rw [hwp, hp]
      exact hwake
    · rw [hw q hqp]
      split
      · next he => rw [he]; exact hsleep.symm
      · rfl
  refine ⟨h.countLock.congr (hregion _ Iff.rfl Iff.rfl), h.sl.congr (hregion _ Iff.rfl Iff.rfl),
    h.ptable.congr (hregion _ Iff.rfl Iff.rfl), fun q => ?_, ?_, fun _ => ?_, fun q _ => ?_⟩
  · have hph := h.phase q
    have he := (hall q).2
    have harr := (hall q).1
    by_cases hqp : q = p
    · subst hqp
      rw [hwp]
      rw [hp] at hph
      simp only [Phase] at hph ⊢
      simp only [State.goto, State.wakeup1]
      omega
    · rw [hw q hqp]
      have hnh : ¬ (s.pc q).HoldsCount := h.countLock.outside hlock hqp
      simp only [State.goto, State.wakeup1]
      cases hq : s.pc q <;>
        simp_all [Phase, PC.Arrived, PC.HoldsCount]
  · show s.waitCount = _
    rw [hempty, if_pos hwr, Finset.card_empty, h.wake p (by rw [hp]; trivial)]
    omega
  · exact ⟨p, by rw [hwp]; trivial⟩
  · exact h.wake p (by rw [hp]; trivial)

/-- `bar.waitCount = 0`: the next round starts from an empty count. -/
theorem reset (h : Inv K s) (hN : 0 < N) {p : Fin N} (hp : s.pc p = .reset) :
    Inv K { s.goto p .releaseLast with waitCount := 0 } := by
  have hlock : (s.pc p).HoldsCount := by rw [hp]; trivial
  have hempty := h.counted_empty (p := p) (by rw [hp]; trivial)
  have hcounted : counted K { s.goto p .releaseLast with waitCount := 0 } = ∅ := by
    ext q
    have hq : q ∉ counted K s := by simp [hempty]
    rw [mem_counted] at hq
    simp only [mem_counted, Finset.notMem_empty, iff_false]
    by_cases hqp : q = p
    · subst hqp
      simp [State.goto, PC.Arrived]
    · simpa [State.goto, hqp] using hq
  have hnw : ∀ q, ¬ ((s.goto p .releaseLast).pc q).AtWake := by
    intro q hq
    by_cases hqp : q = p
    · subst hqp
      simp [State.goto, PC.AtWake] at hq
    · have hq' : (s.pc q).AtWake := by simpa [State.goto, hqp] using hq
      exact h.countLock.outside hlock hqp hq'.holds
  refine ⟨h.countLock.stay hp Iff.rfl, h.sl.stay hp Iff.rfl, h.ptable.stay hp Iff.rfl,
    fun q => ?_, ?_, fun hz => ?_, fun q hq => absurd hq (hnw q)⟩
  · by_cases hqp : q = p
    · subst hqp
      have hph := h.phase q
      rw [hp] at hph
      simpa [State.goto, Phase] using hph
    · simpa [State.goto, hqp] using h.phase q
  · rw [hcounted, if_neg]
    · rfl
    · rintro ⟨q, hq⟩
      exact hnw q hq.atWake
  · simp only at hz
    omega

/-! ### Every step -/

/-- A step that only moves `p` from `j` to `k` inside its round. -/
theorem move (h : Inv K s) {s' : State N} {p : Fin N} {j k : PC} (hj : s.pc p = j)
    (hpc : s'.pc = Function.update s.pc p k) (hwc : s'.waitCount = s.waitCount)
    (hen : s'.entered = s.entered) (hre : s'.returned = s.returned)
    (hcl : Held PC.HoldsCount s'.countLock s'.pc) (hsl : Held PC.HoldsSl s'.sl s'.pc)
    (hpt : Held PC.HoldsPtable s'.ptable s'.pc)
    (hphase : ∀ e r, Phase K j e r → Phase K k e r) (harr : k.Arrived ↔ j.Arrived)
    (hres : k.Resetting ↔ j.Resetting) (hfull : j.AtFull → s.waitCount = N → k.AtFull)
    (hwake : k.AtWake → s.waitCount = N) : Inv K s' := by
  subst hj
  refine h.quiet ⟨hpc, hwc, fun q _ => by rw [hen], fun q _ => by rw [hre]⟩ hcl hsl hpt ?_ ?_
    hres hfull hwake
  · rw [hen, hre]
    exact hphase _ _ (h.phase p)
  · rw [hen, harr]

/-- Leaving `barrier` from a point `j` that is neither counted nor about to
wake: the call of round `K` is over. -/
theorem leave (h : Inv K s) {s' : State N} {p : Fin N} {j : PC} (hj : s.pc p = j)
    (hpc : s'.pc = Function.update s.pc p .user) (hwc : s'.waitCount = s.waitCount)
    (hen : s'.entered = s.entered)
    (hre : s'.returned = Function.update s.returned p (s.returned p + 1))
    (hcl : Held PC.HoldsCount s'.countLock s'.pc) (hsl : Held PC.HoldsSl s'.sl s'.pc)
    (hpt : Held PC.HoldsPtable s'.ptable s'.pc)
    (hphase : ∀ e r, Phase K j e r → e = K ∧ r + 1 = K) (harr : ¬ j.Arrived)
    (hfull : ¬ j.AtFull) (hres : ¬ j.Resetting) : Inv K s' := by
  subst hj
  refine h.quiet (k := .user) ⟨hpc, hwc, fun q _ => by rw [hen], fun q hq => ?_⟩ hcl hsl hpt ?_ ?_
    ⟨fun hf => hf.elim, fun hf => (hres hf).elim⟩ (fun hf => (hfull hf).elim) (fun hf => hf.elim)
  · rw [hre, Function.update_of_ne hq]
  · rw [hen, hre, Function.update_self]
    exact hphase _ _ (h.phase p)
  · exact ⟨fun hf => hf.1.elim, fun hf => (harr hf.1).elim⟩

/-- Calling `barrier` again: the process enters round `K + 1`. -/
theorem enter (h : Inv K s) {p : Fin N} (hp : s.pc p = .user) :
    Inv K { s.goto p .test with
      entered := Function.update s.entered p (s.entered p + 1) } := by
  have hph := h.phase p
  rw [hp] at hph
  refine h.quiet (k := .test) ⟨rfl, rfl, fun q hq => Function.update_of_ne hq _ _,
    fun _ _ => rfl⟩ (h.countLock.stay hp Iff.rfl) (h.sl.stay hp Iff.rfl)
    (h.ptable.stay hp Iff.rfl) ?_ ?_ ?_ ?_ ?_
  · simp only [Function.update_self]
    exact ⟨by rw [hph.1], hph.2⟩
  · rw [hp]
    exact ⟨fun hf => hf.1.elim, fun hf => hf.1.elim⟩
  · rw [hp]
    exact Iff.rfl
  · rw [hp]
    exact fun hf => hf.elim
  · exact fun hf => hf.elim

/-- Every step keeps the invariant, and only a wakeup completes a round, as
long as no unlocked test reads the full count. -/
theorem next {calls : Fin N → Nat} (hN : 0 < N) (h : Inv K s) {p : Fin N} {t : State N}
    (hc : s.pc p = .test → s.waitCount ≠ N) (hs : step calls s p = some t) :
    Inv K t ∨ s.pc p = .wakeup1 ∧ Inv (K + 1) t := by
  cases hp : s.pc p with
  | user =>
      simp only [step, hp, Option.ite_none_right_eq_some, Option.some.injEq] at hs
      obtain ⟨-, rfl⟩ := hs
      exact .inl (h.enter hp)
  | test =>
      have hlt : s.waitCount < N := lt_of_le_of_ne h.waitCount_le (hc hp)
      simp only [step, hp, if_pos hlt, Option.some.injEq] at hs
      subst hs
      exact .inl (h.move hp rfl rfl rfl rfl (h.countLock.stay hp Iff.rfl) (h.sl.stay hp Iff.rfl)
        (h.ptable.stay hp Iff.rfl) (fun _ _ => id) Iff.rfl Iff.rfl False.elim False.elim)
  | acquireCount =>
      simp only [step, hp, Option.ite_none_right_eq_some, Option.some.injEq] at hs
      obtain ⟨hfree, rfl⟩ := hs
      exact .inl (h.move hp rfl rfl rfl rfl ((hfree ▸ h.countLock).acquire trivial)
        (h.sl.stay hp Iff.rfl) (h.ptable.stay hp Iff.rfl) (fun _ _ => id) Iff.rfl Iff.rfl
        False.elim False.elim)
  | incr =>
      simp only [step, hp, Option.some.injEq] at hs
      subst hs
      exact .inl (h.incr hp)
  | compare =>
      simp only [step, hp] at hs
      by_cases heq : s.waitCount = N
      · rw [if_pos heq] at hs
        obtain rfl := Option.some.inj hs
        exact .inl (h.move hp rfl rfl rfl rfl (h.countLock.stay hp Iff.rfl) (h.sl.stay hp Iff.rfl)
          (h.ptable.stay hp Iff.rfl) (fun _ _ => id) Iff.rfl Iff.rfl (fun _ _ => trivial)
          fun _ => heq)
      · -- the count is below `N`: the third way out of the comparison is never taken
        rw [if_neg heq, if_pos (lt_of_le_of_ne h.waitCount_le heq)] at hs
        obtain rfl := Option.some.inj hs
        exact .inl (h.move hp rfl rfl rfl rfl (h.countLock.stay hp Iff.rfl) (h.sl.stay hp Iff.rfl)
          (h.ptable.stay hp Iff.rfl) (fun e r hph => ⟨by rw [hph.1, hph.2], .inl hph.1⟩) Iff.rfl
          Iff.rfl (fun _ hf => (heq hf).elim) False.elim)
  | wakeAcquire =>
      simp only [step, hp, Option.ite_none_right_eq_some, Option.some.injEq] at hs
      obtain ⟨hfree, rfl⟩ := hs
      exact .inl (h.move hp rfl rfl rfl rfl (h.countLock.stay hp Iff.rfl) (h.sl.stay hp Iff.rfl)
        ((hfree ▸ h.ptable).acquire trivial) (fun _ _ => id) Iff.rfl Iff.rfl (fun _ _ => trivial)
        fun _ => h.wake p (by rw [hp]; trivial))
  | wakeup1 =>
      simp only [step, hp, Option.some.injEq] at hs
      subst hs
      exact .inr ⟨rfl, h.wakeup1 hp⟩
  | wakeRelease =>
      simp only [step, hp, Option.ite_none_right_eq_some, Option.some.injEq] at hs
      obtain ⟨hheld, rfl⟩ := hs
      exact .inl (h.move hp rfl rfl rfl rfl (h.countLock.stay hp Iff.rfl) (h.sl.stay hp Iff.rfl)
        (h.ptable.release hheld id) (fun _ _ => id) Iff.rfl Iff.rfl (fun _ _ => trivial)
        fun _ => h.wake p (by rw [hp]; trivial))
  | reset =>
      simp only [step, hp, Option.some.injEq] at hs
      subst hs
      exact .inl (h.reset hN hp)
  | releaseLast =>
      simp only [step, hp, Option.ite_none_right_eq_some, Option.some.injEq] at hs
      obtain ⟨hheld, rfl⟩ := hs
      exact .inl (h.leave hp rfl rfl rfl rfl (h.countLock.release hheld id)
        (h.sl.stay hp Iff.rfl) (h.ptable.stay hp Iff.rfl) (fun _ _ => id) id id id)
  | releaseCount =>
      simp only [step, hp, Option.ite_none_right_eq_some, Option.some.injEq] at hs
      obtain ⟨hheld, rfl⟩ := hs
      exact .inl (h.move hp rfl rfl rfl rfl (h.countLock.release hheld id)
        (h.sl.stay hp Iff.rfl) (h.ptable.stay hp Iff.rfl) (fun _ _ => id) Iff.rfl Iff.rfl
        False.elim False.elim)
  | acquireSl =>
      simp only [step, hp, Option.ite_none_right_eq_some, Option.some.injEq] at hs
      obtain ⟨hfree, rfl⟩ := hs
      exact .inl (h.move hp rfl rfl rfl rfl (h.countLock.stay hp Iff.rfl)
        ((hfree ▸ h.sl).acquire trivial) (h.ptable.stay hp Iff.rfl) (fun _ _ => id) Iff.rfl
        Iff.rfl False.elim False.elim)
  | sleepAcquire =>
      simp only [step, hp, Option.ite_none_right_eq_some, Option.some.injEq] at hs
      obtain ⟨hfree, rfl⟩ := hs
      exact .inl (h.move hp rfl rfl rfl rfl (h.countLock.stay hp Iff.rfl) (h.sl.stay hp Iff.rfl)
        ((hfree ▸ h.ptable).acquire trivial) (fun _ _ => id) Iff.rfl Iff.rfl False.elim False.elim)
  | sleepRelease =>
      simp only [step, hp, Option.ite_none_right_eq_some, Option.some.injEq] at hs
      obtain ⟨hheld, rfl⟩ := hs
      exact .inl (h.move hp rfl rfl rfl rfl (h.countLock.stay hp Iff.rfl)
        (h.sl.release hheld id) (h.ptable.stay hp Iff.rfl) (fun _ _ => id) Iff.rfl Iff.rfl
        False.elim False.elim)
  | sleepState =>
      simp only [step, hp, Option.ite_none_right_eq_some, Option.some.injEq] at hs
      obtain ⟨hheld, rfl⟩ := hs
      exact .inl (h.move hp rfl rfl rfl rfl (h.countLock.stay hp Iff.rfl) (h.sl.stay hp Iff.rfl)
        (h.ptable.release hheld id) (fun _ _ => id) Iff.rfl Iff.rfl False.elim False.elim)
  | asleep => simp only [step, hp, reduceCtorEq] at hs
  | woken =>
      simp only [step, hp, Option.ite_none_right_eq_some, Option.some.injEq] at hs
      obtain ⟨hfree, rfl⟩ := hs
      exact .inl (h.move hp rfl rfl rfl rfl (h.countLock.stay hp Iff.rfl) (h.sl.stay hp Iff.rfl)
        ((hfree ▸ h.ptable).acquire trivial) (fun _ _ => id) Iff.rfl Iff.rfl False.elim False.elim)
  | tidy =>
      simp only [step, hp, Option.ite_none_right_eq_some, Option.some.injEq] at hs
      obtain ⟨hheld, rfl⟩ := hs
      exact .inl (h.move hp rfl rfl rfl rfl (h.countLock.stay hp Iff.rfl) (h.sl.stay hp Iff.rfl)
        (h.ptable.release hheld id) (fun _ _ => id) Iff.rfl Iff.rfl False.elim False.elim)
  | reacquireSl =>
      simp only [step, hp, Option.ite_none_right_eq_some, Option.some.injEq] at hs
      obtain ⟨hfree, rfl⟩ := hs
      exact .inl (h.move hp rfl rfl rfl rfl (h.countLock.stay hp Iff.rfl)
        ((hfree ▸ h.sl).acquire trivial) (h.ptable.stay hp Iff.rfl) (fun _ _ => id) Iff.rfl
        Iff.rfl False.elim False.elim)
  | releaseSl =>
      simp only [step, hp, Option.ite_none_right_eq_some, Option.some.injEq] at hs
      obtain ⟨hheld, rfl⟩ := hs
      exact .inl (h.leave hp rfl rfl rfl rfl (h.countLock.stay hp Iff.rfl)
        (h.sl.release hheld id) (h.ptable.stay hp Iff.rfl) (fun _ _ => id) id id id)

end Inv

end OsCourse.Barrier
