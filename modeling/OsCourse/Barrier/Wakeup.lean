import Mathlib.Algebra.BigOperators.Ring.Finset
import Mathlib.Algebra.Order.BigOperators.Group.Finset
import OsCourse.Barrier.Invariant

/-!
# OsCourse.Barrier.Wakeup

**No lost wakeup.** `N` processes call `barrier(N)` once each. A process that
has to wait gives `countLock` up before it takes `bar.sl` and goes to sleep; the
last arriver's `wakeup` may run in between, finds nobody on the channel, and the
process then sleeps for ever (`lostWakeup_two`).

That window is the only defect: if every wakeup is run while nobody is on the
way to sleep (`PromptWakeup`), no process is left behind and every maximal run
ends with all of them returned. The argument is a deadlock analysis: in a state
where nobody can step, all locks are free (`Inv.stuck`), so whoever has not
returned is asleep; and the count then shows that the wakeup is still to come.
-/

namespace OsCourse.Barrier

open OsCourse.Lib

variable {N : Nat}

/-- Every process calls `barrier` once. -/
abbrev once : Fin N → Nat := fun _ => 1

/-- The `N`-th arriver has finished while another process sleeps on `&bar.sl`
or is on its way to, and nobody is left who may still run the wakeup. -/
def LostWakeup (s : State N) : Prop :=
  ∃ last, s.nth = some last ∧ s.returned last = 1 ∧
    ∃ p, p ≠ last ∧ ((s.pc p).GoingToSleep ∨ s.pc p = .asleep) ∧
      ∀ q, s.entered q = 1 ∧ ¬ (s.pc q).MayWake

/-- No wakeup is lost, and a run that cannot go on has let everybody return. -/
def BarrierOnce (N : Nat) : Prop :=
  ∀ s, (machine (N := N) once).Reach s →
    ¬ LostWakeup s ∧ ((machine (N := N) once).Stuck s → ∀ p, s.returned p = 1)

/-- The condition on a step: the wakeup is run while nobody is on the way to
sleep. -/
def PromptWakeup (s : State N) (p : Fin N) : Prop :=
  s.pc p = .wakeup1 → ∀ q, ¬ (s.pc q).GoingToSleep

instance (s : State N) (p : Fin N) : Decidable (PromptWakeup s p) := by
  unfold PromptWakeup
  infer_instance

/-! ### Deadlock analysis -/

section Stuck

variable {K : Nat} {s : State N} {calls : Fin N → Nat}

/-- A holder of `ptable.lock` can always take its step. -/
theorem Inv.ptable_free (h : Inv K s) (hs : (machine calls).Stuck s) : s.ptable = none := by
  by_contra hne
  obtain ⟨p, hp⟩ := Option.ne_none_iff_exists'.mp hne
  have hR := (h.ptable p).mpr hp
  have hstep : step calls s p = none := hs p
  cases hpc : s.pc p <;> rw [hpc] at hR <;> try exact hR
  · simp [step, hpc] at hstep
  · simp [step, hpc, hp] at hstep
  · have hsl := (h.sl p).mp (by rw [hpc]; trivial)
    simp [step, hpc, hsl] at hstep
  · simp [step, hpc, hp] at hstep
  · simp [step, hpc, hp] at hstep

/-- With `ptable.lock` free, a holder of `countLock` can take its step. -/
theorem Inv.countLock_free (h : Inv K s) (hs : (machine calls).Stuck s) : s.countLock = none := by
  by_contra hne
  obtain ⟨p, hp⟩ := Option.ne_none_iff_exists'.mp hne
  have hR := (h.countLock p).mpr hp
  have hpt := h.ptable_free hs
  have hstep : step calls s p = none := hs p
  cases hpc : s.pc p <;> rw [hpc] at hR <;> try exact hR
  · simp [step, hpc] at hstep
  · simp only [step, hpc] at hstep
    split_ifs at hstep
  · simp [step, hpc, hpt] at hstep
  · simp [step, hpc] at hstep
  · exact absurd ((h.ptable p).mp (by rw [hpc]; trivial)) (by simp [hpt])
  · simp [step, hpc] at hstep
  · simp [step, hpc, hp] at hstep
  · simp [step, hpc, hp] at hstep

/-- With `ptable.lock` free, a holder of `bar.sl` can take its step. -/
theorem Inv.sl_free (h : Inv K s) (hs : (machine calls).Stuck s) : s.sl = none := by
  by_contra hne
  obtain ⟨p, hp⟩ := Option.ne_none_iff_exists'.mp hne
  have hR := (h.sl p).mpr hp
  have hpt := h.ptable_free hs
  have hstep : step calls s p = none := hs p
  cases hpc : s.pc p <;> rw [hpc] at hR <;> try exact hR
  · simp [step, hpc, hpt] at hstep
  · simp [step, hpc, hp] at hstep
  · simp [step, hpc, hp] at hstep

/-- In a stuck state everybody is asleep or has made all its calls. -/
theorem Inv.stuck (h : Inv K s) (hs : (machine calls).Stuck s) (p : Fin N) :
    s.pc p = .asleep ∨ s.pc p = .user ∧ calls p ≤ s.entered p := by
  have hpt := h.ptable_free hs
  have hcl := h.countLock_free hs
  have hsl := h.sl_free hs
  have hstep : step calls s p = none := hs p
  have hnc := (h.countLock p).not.mpr (by simp [hcl])
  have hns := (h.sl p).not.mpr (by simp [hsl])
  have hnp := (h.ptable p).not.mpr (by simp [hpt])
  cases hpc : s.pc p with
  | asleep => exact .inl rfl
  | user => exact .inr ⟨rfl, by simpa [step, hpc] using hstep⟩
  | test =>
      simp only [step, hpc] at hstep
      split_ifs at hstep
  | acquireCount => simp [step, hpc, hcl] at hstep
  | acquireSl | reacquireSl => simp [step, hpc, hsl] at hstep
  | woken => simp [step, hpc, hpt] at hstep
  | _ =>
      rw [hpc] at hnc hns hnp
      first
        | exact absurd trivial hnc
        | exact absurd trivial hns
        | exact absurd trivial hnp

end Stuck

/-! ### Every run is finite -/

/-- How many steps of its call a process has left at a program point (a sleeping
process counts as one step short of being woken). -/
def PC.stepsLeft : PC → Nat
  | user => 0
  | test => 14
  | acquireCount => 13
  | incr => 12
  | compare => 11
  | releaseCount => 10
  | acquireSl => 9
  | sleepAcquire => 8
  | sleepRelease => 7
  | sleepState => 6
  | asleep | wakeAcquire => 5
  | woken | wakeup1 => 4
  | tidy | wakeRelease => 3
  | reacquireSl | reset => 2
  | releaseSl | releaseLast => 1

/-- The steps process `p` may still take. -/
def weight (calls : Fin N → Nat) (s : State N) (p : Fin N) : Nat :=
  15 * (calls p - s.entered p) + (s.pc p).stepsLeft

/-- The steps all processes together may still take. -/
def budget (calls : Fin N → Nat) (s : State N) : Nat := ∑ p, weight calls s p

/-- What a step does to its actor: it enters a new call, or it moves on in the
call it is in. -/
theorem step_self {calls : Fin N → Nat} {s t : State N} {p : Fin N}
    (h : step calls s p = some t) :
    (s.pc p = .user ∧ t.pc p = .test ∧ s.entered p < calls p ∧ t.entered p = s.entered p + 1) ∨
      t.entered p = s.entered p ∧ (t.pc p).stepsLeft < (s.pc p).stepsLeft := by
  cases hp : s.pc p <;> simp only [step, hp] at h <;> try split_ifs at h
  all_goals simp only [Option.some.injEq, reduceCtorEq] at h
  all_goals subst h
  all_goals simp_all [State.goto, State.ret, State.wakeup1, PC.stepsLeft]

/-- What a step does to the others: nothing, unless it is the wakeup. -/
theorem step_other {calls : Fin N → Nat} {s t : State N} {p q : Fin N}
    (h : step calls s p = some t) (hq : q ≠ p) :
    t.entered q = s.entered q ∧
      (t.pc q = s.pc q ∨ s.pc p = .wakeup1 ∧ s.pc q = .asleep ∧ t.pc q = .woken) := by
  cases hp : s.pc p <;> simp only [step, hp] at h <;> try split_ifs at h
  all_goals simp only [Option.some.injEq, reduceCtorEq] at h
  all_goals subst h
  all_goals simp only [State.goto, State.ret, State.wakeup1, Function.update_of_ne hq, true_or,
    and_self, true_and]
  split
  · next hs => exact .inr ⟨hs, rfl⟩
  · exact .inl rfl

theorem weight_lt_of_step {calls : Fin N → Nat} {s t : State N} {p : Fin N}
    (h : step calls s p = some t) : weight calls t p < weight calls s p := by
  unfold weight
  rcases step_self h with ⟨hp, ht, hlt, he⟩ | ⟨he, hlt⟩
  · rw [hp, ht, he]
    simp only [PC.stepsLeft]
    omega
  · rw [he]
    omega

theorem weight_le_of_step {calls : Fin N → Nat} {s t : State N} {p q : Fin N}
    (h : step calls s p = some t) (hq : q ≠ p) : weight calls t q ≤ weight calls s q := by
  unfold weight
  rcases step_other h hq with ⟨he, hpc | ⟨-, hs, ht⟩⟩
  · rw [he, hpc]
  · rw [he, hs, ht]
    simp [PC.stepsLeft]

theorem budget_lt_of_step {calls : Fin N → Nat} {s t : State N} {p : Fin N}
    (h : step calls s p = some t) : budget calls t < budget calls s := by
  refine Finset.sum_lt_sum (fun q _ => ?_) ⟨p, Finset.mem_univ p, weight_lt_of_step h⟩
  by_cases hq : q = p
  · subst hq
    exact (weight_lt_of_step h).le
  · exact weight_le_of_step h hq

/-- No run is longer than 15 steps for each call. -/
theorem length_le {calls : Fin N → Nat} {as : List (Fin N)} {s : State N}
    (h : (machine calls).exec (init N) as = some s) : as.length ≤ 15 * ∑ p, calls p := by
  have hle := (machine calls).exec_length_le (budget calls)
    (fun _ _ _ hstep => budget_lt_of_step hstep) h
  have hinit : budget calls (init N) = 15 * ∑ p, calls p := by
    simp [budget, weight, init, PC.stepsLeft, Finset.mul_sum]
  omega

/-! ### One call each -/

/-- The invariant of a run with one call each and prompt wakeups: after the
wakeup nobody is asleep or on the way to sleep. -/
structure OnceInv (K : Nat) (s : State N) : Prop where
  inv : Inv K s
  entered_le : ∀ p, s.entered p ≤ 1
  prompt : 0 < K → ∀ p, ¬ (s.pc p).GoingToSleep ∧ s.pc p ≠ .asleep

namespace OnceInv

variable {K : Nat} {s : State N}

theorem le_one (h : OnceInv K s) (p : Fin N) : K ≤ 1 :=
  (h.inv.phase p).bounds.1.trans (h.entered_le p)

/-- With one call each the unlocked test never reads the full count: its caller
has not been counted. -/
theorem settled (h : OnceInv K s) {p : Fin N} (hp : s.pc p = .test) : s.waitCount ≠ N := by
  intro hfull
  have hph := h.inv.phase p
  rw [hp] at hph
  have hK : K = 0 := by
    have := h.entered_le p
    have := hph.1
    omega
  have hnr : ¬ ∃ q, (s.pc q).Resetting := by
    rintro ⟨q, hq⟩
    have hphq := h.inv.phase q
    cases hpc : s.pc q <;> rw [hpc] at hq hphq <;> first | exact hq.elim | (have hpos := hphq.2; omega)
  have hcount := h.inv.count
  rw [if_neg hnr, hfull] at hcount
  have huniv : counted K s = Finset.univ :=
    (Finset.card_eq_iff_eq_univ _).mp (by rw [Fintype.card_fin]; omega)
  have hmem : p ∈ counted K s := huniv ▸ Finset.mem_univ p
  rw [mem_counted, hp] at hmem
  exact hmem.1

theorem entered_le_of_step {t : State N} {p : Fin N} (h : ∀ q, s.entered q ≤ 1)
    (hstep : step once s p = some t) (q : Fin N) : t.entered q ≤ 1 := by
  by_cases hq : q = p
  · subst hq
    rcases step_self hstep with ⟨-, -, hlt, he⟩ | ⟨he, -⟩
    · change s.entered q < 1 at hlt
      omega
    · rw [he]
      exact h q
  · rw [(step_other hstep hq).1]
    exact h q

/-- A step that is not a wakeup puts nobody to sleep who was not going to. -/
theorem awake_of_step {t : State N} {p : Fin N} {calls : Fin N → Nat}
    (h : ∀ q, ¬ (s.pc q).GoingToSleep ∧ s.pc q ≠ .asleep) (hp : s.pc p ≠ .compare)
    (hstep : step calls s p = some t) (q : Fin N) :
    ¬ (t.pc q).GoingToSleep ∧ t.pc q ≠ .asleep := by
  by_cases hq : q = p
  · subst hq
    have hs := h q
    cases hpc : s.pc q <;> simp only [step, hpc] at hstep <;> try split_ifs at hstep
    all_goals simp only [Option.some.injEq, reduceCtorEq] at hstep
    all_goals subst hstep
    all_goals simp_all [State.goto, State.ret, State.wakeup1, PC.GoingToSleep]
  · rcases step_other hstep hq with ⟨-, hpc | ⟨-, -, ht⟩⟩
    · rw [hpc]
      exact h q
    · rw [ht]
      exact ⟨id, by simp⟩

theorem next (hN : 0 < N) (h : OnceInv K s) {p : Fin N} {t : State N}
    (hc : PromptWakeup s p) (hstep : step once s p = some t) : ∃ K', OnceInv K' t := by
  have honce := entered_le_of_step h.entered_le hstep
  rcases h.inv.next hN (fun hp => h.settled hp) hstep with ht | ⟨hp, ht⟩
  · refine ⟨K, ht, honce, fun hK => awake_of_step (h.prompt hK) (fun hp => ?_) hstep⟩
    -- after the wakeup nobody is in its call before the wakeup
    have hph := h.inv.phase p
    rw [hp] at hph
    have := h.entered_le p
    have := hph.1
    omega
  · refine ⟨K + 1, ht, honce, fun _ q => ?_⟩
    have hgo := hc hp q
    simp only [step, hp, Option.some.injEq] at hstep
    subst hstep
    by_cases hq : q = p
    · subst hq
      simp [State.goto, PC.GoingToSleep]
    · simp only [State.goto, State.wakeup1, Function.update_of_ne hq]
      split
      · exact ⟨id, by simp⟩
      · next hs => exact ⟨hgo, hs⟩

/-- Once the wakeup has run nobody sleeps; before it the last arriver is not
done. Either way no wakeup is lost. -/
theorem not_lostWakeup (h : OnceInv K s) : ¬ LostWakeup s := by
  rintro ⟨last, -, hret, p, -, hp, -⟩
  have hK : 0 < K := by
    have := (h.inv.phase last).bounds
    omega
  rcases hp with hp | hp
  · exact (h.prompt hK p).1 hp
  · exact (h.prompt hK p).2 hp

/-- A stuck state is one in which all have returned. -/
theorem returned_of_stuck (h : OnceInv K s) (hs : (machine (N := N) once).Stuck s) (p : Fin N) :
    s.returned p = 1 := by
  -- if nobody has been woken yet, everybody is asleep, hence counted: the last
  -- arriver would still have to be on the waking branch
  have hK : K ≠ 0 := by
    rintro rfl
    have hasleep : ∀ q, s.pc q = .asleep := fun q => by
      rcases h.inv.stuck hs q with hq | ⟨hq, he⟩
      · exact hq
      · have hph := h.inv.phase q
        rw [hq] at hph
        change 1 ≤ s.entered q at he
        have := hph.1
        omega
    have hall : counted 0 s = Finset.univ := by
      ext q
      have hph := h.inv.phase q
      rw [hasleep q] at hph
      obtain ⟨hret, he⟩ := hph
      simp only [mem_counted, hasleep q, Finset.mem_univ, iff_true]
      exact ⟨trivial, by omega⟩
    have hcount := h.inv.count
    rw [hall, Finset.card_univ, Fintype.card_fin, if_neg] at hcount
    · obtain ⟨q, hq⟩ := h.inv.full (by omega)
      rw [hasleep q] at hq
      exact hq
    · rintro ⟨q, hq⟩
      rw [hasleep q] at hq
      exact hq
  rcases h.inv.stuck hs p with hp | ⟨hp, -⟩
  · exact absurd hp (h.prompt (by omega) p).2
  · have hph := h.inv.phase p
    have hle := h.le_one p
    rw [hp] at hph
    have := hph.2
    omega

end OnceInv

theorem onceInv_init (hN : 0 < N) : OnceInv 0 (init N) where
  inv := inv_init hN
  entered_le _ := by simp [init]
  prompt h := absurd h (by omega)

/-- **No lost wakeup** in a run whose wakeups are prompt: nobody is left asleep,
such a run is at most `15 * N` steps long, and when it cannot go on all `N`
processes have returned. -/
theorem barrier_once_of_prompt (hN : 0 < N) (as : List (Fin N)) (s : State N)
    (hc : (machine once).Meets PromptWakeup (init N) as)
    (hs : (machine once).exec (init N) as = some s) :
    ¬ LostWakeup s ∧ as.length ≤ 15 * N ∧
      ((machine (N := N) once).Stuck s → ∀ p, s.returned p = 1) := by
  obtain ⟨K, hK⟩ : ∃ K, OnceInv K s :=
    (machine once).exec_induction (I := fun s => ∃ K, OnceInv K s)
      (fun _ _ _ ⟨_, h⟩ hc hstep => h.next hN hc hstep) ⟨0, onceInv_init hN⟩ hc hs
  refine ⟨hK.not_lostWakeup, ?_, fun hstuck p => hK.returned_of_stuck hstuck p⟩
  simpa using length_le hs

/-- Three processes, the last one arriving after the others fell asleep. -/
theorem barrier_once_three : ∃ s : State 3,
    (machine (N := 3) once).exec (init 3)
      ([0, 0, 0, 0, 0, 0, 0, 0, 0, 0] ++ [2, 2, 2, 2, 2, 2, 2, 2, 2, 2] ++
       [1, 1, 1, 1, 1, 1, 1, 1, 1, 1] ++ [2, 2, 2, 2] ++ [0, 0, 0, 0]) = some s ∧
      ¬ LostWakeup s ∧ ∀ p, s.returned p = 1 := by
  have hrun : (((machine (N := 3) once).execWhile PromptWakeup (init 3)
      ([0, 0, 0, 0, 0, 0, 0, 0, 0, 0] ++ [2, 2, 2, 2, 2, 2, 2, 2, 2, 2] ++
       [1, 1, 1, 1, 1, 1, 1, 1, 1, 1] ++ [2, 2, 2, 2] ++ [0, 0, 0, 0])).map
      fun s => decide (∀ p, s.pc p = .user ∧ s.entered p = 1)) = some true := by decide
  obtain ⟨s, hs, hdone⟩ := Option.map_eq_some_iff.mp hrun
  obtain ⟨hmeets, hexec⟩ := (machine (N := 3) once).meets_of_execWhile hs
  have h := barrier_once_of_prompt (by decide) _ s hmeets hexec
  refine ⟨s, hexec, h.1, h.2.2 fun p => ?_⟩
  have hp := of_decide_eq_true hdone p
  show step once s p = none
  simp [step, hp.1, hp.2]

/-- Without that condition a wakeup can be lost. Process 0 gives `countLock` up
and is interrupted before `acquire(&bar.sl)`; process 1 arrives, wakes nobody,
resets the count and returns. Process 0 will never be woken. -/
theorem lostWakeup_two : ¬ BarrierOnce 2 := by
  have hrun : (((machine (N := 2) once).exec (init 2)
      ([0, 0, 0, 0, 0, 0] ++ [1, 1, 1, 1, 1, 1, 1, 1, 1, 1])).map
      fun s => decide (s.nth = some 1 ∧ s.returned 1 = 1 ∧ s.pc 0 = .acquireSl ∧
        s.pc 1 = .user ∧ ∀ q, s.entered q = 1)) = some true := by decide
  obtain ⟨s, hs, hlost⟩ := Option.map_eq_some_iff.mp hrun
  obtain ⟨hnth, hret, h0, h1, hent⟩ := of_decide_eq_true hlost
  intro hall
  refine (hall s ⟨_, hs⟩).1 ⟨1, hnth, hret, 0, by decide, .inl ?_, fun q => ⟨hent q, ?_⟩⟩
  · rw [h0]
    trivial
  · rcases Fin.exists_fin_two.mp ⟨q, rfl⟩ with rfl | rfl
    · rw [h0]
      exact id
    · rw [h1]
      exact id

end OsCourse.Barrier
