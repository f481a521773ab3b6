import OsCourse.Barrier.Invariant

/-!
# OsCourse.Barrier.Rounds

**Rounds of the barrier.** `N` processes call `barrier(N)` any number of times.
The rounds are kept apart as long as nobody makes the unlocked test while
`bar.waitCount` is `N`, that is between the increment of a round's last arriver
and its reset of the count. A process that does so finds the barrier "full",
skips its round and returns alone; `rounds_overlap` is such a run.
-/

namespace OsCourse.Barrier

open OsCourse.Lib

variable {N : Nat}

/-- No process has returned from its `r`-th call before everybody entered
theirs. -/
def RoundsDisjoint (s : State N) : Prop :=
  ∀ r p, r ≤ s.returned p → ∀ q, r ≤ s.entered q

/-- The condition on a step: an unlocked test is not made while the count of
the previous round still stands at `N`. -/
def SettledTest (s : State N) (p : Fin N) : Prop := s.pc p = .test → s.waitCount ≠ N

instance (s : State N) (p : Fin N) : Decidable (SettledTest s p) := by
  unfold SettledTest
  infer_instance

theorem Inv.roundsDisjoint {K : Nat} {s : State N} (h : Inv K s) : RoundsDisjoint s := by
  intro r p hr q
  have hp := (h.phase p).bounds
  have hq := (h.phase q).bounds
  omega

/-- In a run without a test at the full count, the invariant holds throughout. -/
theorem inv_of_settled (hN : 0 < N) {calls : Fin N → Nat} {s : State N}
    (h : (machine calls).ReachWhile SettledTest s) : ∃ K, Inv K s := by
  refine h.induction (I := fun s => ∃ K, Inv K s) ⟨0, inv_init hN⟩ ?_
  rintro t p u ⟨K, hK⟩ hc hstep
  rcases hK.next hN hc hstep with hu | ⟨-, hu⟩
  · exact ⟨K, hu⟩
  · exact ⟨K + 1, hu⟩

/-- **Rounds never overlap** in a run none of whose unlocked tests is made while
the count is `N`. -/
theorem roundsDisjoint_of_settled (hN : 0 < N) (calls : Fin N → Nat) (s : State N)
    (h : (machine calls).ReachWhile SettledTest s) : RoundsDisjoint s := by
  obtain ⟨K, hK⟩ := inv_of_settled hN h
  exact hK.roundsDisjoint

/-- Two processes going through two rounds, the faster one calling again only
after the reset. -/
theorem roundsDisjoint_two : ∃ s : State 2,
    (machine (N := 2) fun _ => 2).ReachWhile SettledTest s ∧
      (s.returned 0 = 2 ∧ s.returned 1 = 2) ∧ RoundsDisjoint s := by
  have hrun : (((machine (N := 2) fun _ => 2).execWhile SettledTest (init 2)
      ([0, 0, 0, 0, 0, 0, 0, 0, 0, 0] ++ [1, 1, 1, 1, 1, 1, 1, 1, 1, 1] ++ [0, 0, 0, 0] ++
       [1, 1, 1, 1, 1, 1, 1, 1, 1, 1] ++ [0, 0, 0, 0, 0, 0, 0, 0, 0, 0] ++ [1, 1, 1, 1])).map
      fun s => (s.returned 0, s.returned 1)) = some (2, 2) := by decide
  obtain ⟨s, hs, hret⟩ := Option.map_eq_some_iff.mp hrun
  have hreach : (machine (N := 2) fun _ => 2).ReachWhile SettledTest s :=
    ⟨_, (machine _).meets_of_execWhile hs⟩
  exact ⟨s, hreach, Prod.mk.inj hret, roundsDisjoint_of_settled (by decide) _ s hreach⟩

/-- Without that condition rounds do overlap. Process 0 sleeps in round 1,
process 1 arrives last and wakes it; before process 1 resets the count, process
0 returns, calls again, reads the count 2 and returns from its second call,
which process 1 has not entered. -/
theorem rounds_overlap :
    ¬ ∀ s, (machine (N := 2) fun _ => 2).Reach s → RoundsDisjoint s := by
  have hrun : (((machine (N := 2) fun _ => 2).exec (init 2)
      ([0, 0, 0, 0, 0, 0, 0, 0, 0, 0] ++ [1, 1, 1, 1, 1, 1, 1, 1] ++ [0, 0, 0, 0, 0, 0])).map
      fun s => (s.returned 0, s.entered 1)) = some (2, 1) := by decide
  obtain ⟨s, hs, heq⟩ := Option.map_eq_some_iff.mp hrun
  intro hall
  have hle := hall s ⟨_, hs⟩ 2 0 (by rw [show s.returned 0 = 2 from congrArg Prod.fst heq]) 1
  rw [show s.entered 1 = 1 from congrArg Prod.snd heq] at hle
  omega

end OsCourse.Barrier
