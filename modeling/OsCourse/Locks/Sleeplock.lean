import OsCourse.Lib.Lock
import OsCourse.Lib.Machine

/-!
# OsCourse.Locks.Sleeplock

`acquiresleep` and `releasesleep` on one sleep-lock of the lock kernel
(`OS-lab-xv6-lock/sleeplock.c`), together with the parts of `sleep`, `wakeup`
and `sched` they run, as a machine whose actor is the process that takes the
next step.

Any number of processes take the lock and give it back, each as often as it
likes. A step is one atomic access: a spinlock is taken or given up, a field of
the sleep-lock is read or written, the loop of `wakeup1` runs. Spinlocks and
`sched()` are modelled as in `OsCourse.Barrier.Model`: `acquire` is not enabled
while somebody holds the lock (`lk.pid` is -1, no process' pid, so the holder
itself does not get past it either), `release` needs the caller to be the
holder, and going to sleep gives `ptable.lock` to the scheduler.

The invariant says who holds each of the three locks (the sleep-lock itself
included) and that a process asleep on a free sleep-lock is about to be woken:
whoever freed it still has its `wakeup1` to run.
-/

namespace OsCourse.Sleeplock

open OsCourse.Lib

/-- Where a process stands in `acquiresleep`, `releasesleep` and the functions
they call. -/
inductive PC
  /-- Outside, about to call `acquiresleep`: `acquire(&lk->lk)`. -/
  | user
  /-- `while (lk->locked)`. -/
  | check
  /-- `sleep`: `acquire(&ptable.lock)`. -/
  | sleepAcquire
  /-- `sleep`: `release(lk)`. -/
  | sleepRelease
  /-- `sleep`: `p->chan = chan; p->state = SLEEPING; sched()`. -/
  | sleepState
  /-- Inside `sched()`, `SLEEPING` on the sleep-lock. -/
  | asleep
  /-- Inside `sched()`, made `RUNNABLE` by a wakeup. -/
  | woken
  /-- `sleep`: `p->chan = 0; release(&ptable.lock)`. -/
  | tidy
  /-- `sleep`: `acquire(lk)`. -/
  | reacquire
  /-- `lk->locked = 1`. -/
  | setLocked
  /-- `lk->pid = myproc()->pid`. -/
  | setPid
  /-- `acquiresleep`: `release(&lk->lk)`. -/
  | releaseLk
  /-- Returned from `acquiresleep`; the next call is `releasesleep`, which starts
  with `acquire(&lk->lk)`. -/
  | inside
  /-- `lk->locked = 0`. -/
  | clearLocked
  /-- `lk->pid = 0`. -/
  | clearPid
  /-- `wakeup`: `acquire(&ptable.lock)`. -/
  | wakeAcquire
  /-- `wakeup`: the loop of `wakeup1(lk)`. -/
  | wakeup1
  /-- `wakeup`: `release(&ptable.lock)`. -/
  | wakeRelease
  /-- `releasesleep`: `release(&lk->lk)`. -/
  | releaseLast
  deriving DecidableEq, Repr

/-- `struct sleeplock`, `ptable.lock` and the processes. A spinlock is its holder. -/
structure State (ι : Type*) where
  lk : Option ι
  locked : Bool
  pid : Nat
  ptable : Option ι
  pc : ι → PC

variable {ι : Type*} [DecidableEq ι]

namespace State

/-- Process `p` moves on to `k`. -/
def goto (s : State ι) (p : ι) (k : PC) : State ι :=
  { s with pc := Function.update s.pc p k }

/-- `wakeup1(lk)`: every process sleeping on the channel becomes runnable. -/
def wakeup1 (s : State ι) : State ι :=
  { s with pc := fun q => if s.pc q = .asleep then .woken else s.pc q }

end State

/-- `initsleeplock`. -/
def initsleeplock (ι : Type*) : State ι where
  lk := none
  locked := false
  pid := 0
  ptable := none
  pc := fun _ => .user

/-- The next step of process `p`; `pids` are the processes' pids. -/
def step (pids : ι → Nat) (s : State ι) (p : ι) : Option (State ι) :=
  match s.pc p with
  | .user => if s.lk = none then some { s.goto p .check with lk := some p } else none
  | .check => if s.locked then some (s.goto p .sleepAcquire) else some (s.goto p .setLocked)
  | .sleepAcquire =>
      if s.ptable = none then some { s.goto p .sleepRelease with ptable := some p } else none
  | .sleepRelease =>
      if s.lk = some p then some { s.goto p .sleepState with lk := none } else none
  | .sleepState =>
      if s.ptable = some p then some { s.goto p .asleep with ptable := none } else none
  | .asleep => none
  | .woken => if s.ptable = none then some { s.goto p .tidy with ptable := some p } else none
  | .tidy =>
      if s.ptable = some p then some { s.goto p .reacquire with ptable := none } else none
  | .reacquire => if s.lk = none then some { s.goto p .check with lk := some p } else none
  | .setLocked => some { s.goto p .setPid with locked := true }
  | .setPid => some { s.goto p .releaseLk with pid := pids p }
  | .releaseLk => if s.lk = some p then some { s.goto p .inside with lk := none } else none
  | .inside => if s.lk = none then some { s.goto p .clearLocked with lk := some p } else none
  | .clearLocked => some { s.goto p .clearPid with locked := false }
  | .clearPid => some { s.goto p .wakeAcquire with pid := 0 }
  | .wakeAcquire =>
      if s.ptable = none then some { s.goto p .wakeup1 with ptable := some p } else none
  | .wakeup1 => some (s.wakeup1.goto p .wakeRelease)
  | .wakeRelease =>
      if s.ptable = some p then some { s.goto p .releaseLast with ptable := none } else none
  | .releaseLast => if s.lk = some p then some { s.goto p .user with lk := none } else none

/-- The processes of `ι`, taking and giving back one sleep-lock. -/
def machine (pids : ι → Nat) : Machine (State ι) ι where
  init := initsleeplock ι
  step := step pids

namespace PC

/-- Points at which a process holds the spinlock `lk->lk`. -/
def HoldsLk : PC → Prop
  | check | sleepAcquire | sleepRelease | setLocked | setPid | releaseLk | clearLocked | clearPid
  | wakeAcquire | wakeup1 | wakeRelease | releaseLast => True
  | _ => False

/-- Points at which a process holds `ptable.lock`. -/
def HoldsPtable : PC → Prop
  | sleepRelease | sleepState | tidy | wakeup1 | wakeRelease => True
  | _ => False

/-- Points between taking the sleep-lock (`lk->locked = 1`) and giving it back
(`lk->locked = 0`). -/
def Inside : PC → Prop
  | setPid | releaseLk | inside | clearLocked => True
  | _ => False

/-- Points between reading `lk->locked` as set and giving `lk->lk` up. -/
def SawLocked : PC → Prop
  | sleepAcquire | sleepRelease => True
  | _ => False

/-- Asleep on the lock, or past the point where the caller can still see it free. -/
def Waiting : PC → Prop
  | sleepState | asleep => True
  | _ => False

/-- Points of a process that has freed the sleep-lock and has `wakeup1` to run. -/
def WillWake : PC → Prop
  | clearPid | wakeAcquire | wakeup1 => True
  | _ => False

theorem WillWake.holds {k : PC} (h : k.WillWake) : k.HoldsLk := by
  cases k <;> simp_all [WillWake, HoldsLk]

theorem SawLocked.holds {k : PC} (h : k.SawLocked) : k.HoldsLk := by
  cases k <;> simp_all [SawLocked, HoldsLk]

end PC

/-- The invariant of the sleep-lock. -/
structure Inv (s : State ι) : Prop where
  lk : Held PC.HoldsLk s.lk s.pc
  ptable : Held PC.HoldsPtable s.ptable s.pc
  /-- The sleep-lock is a lock too, held by the process `o` inside it. -/
  inside : ∃ o, Held PC.Inside o s.pc ∧ s.locked = o.isSome
  saw : ∀ q, (s.pc q).SawLocked → s.locked = true
  free : ∀ q, s.pc q = .setLocked → s.locked = false
  waiting : ∀ q, (s.pc q).Waiting → s.locked = true ∨ ∃ r, (s.pc r).WillWake

omit [DecidableEq ι] in
theorem inv_init : Inv (initsleeplock ι) where
  lk p := by simp [initsleeplock, PC.HoldsLk]
  ptable p := by simp [initsleeplock, PC.HoldsPtable]
  inside := ⟨none, fun p => by simp [initsleeplock, PC.Inside], rfl⟩
  saw q h := h.elim
  free q h := by simp [initsleeplock] at h
  waiting q h := h.elim

namespace Inv

variable {s t : State ι} {p : ι} {j k : PC}

omit [DecidableEq ι] in
/-- Mutual exclusion, and no process asleep on a free lock with nobody to wake it. -/
theorem safe (h : Inv s) : (∀ q r, (s.pc q).Inside → (s.pc r).Inside → q = r) ∧
    ¬ (s.locked = false ∧ s.lk = none ∧ ∃ q, s.pc q = .asleep) := by
  obtain ⟨o, ho, -⟩ := h.inside
  refine ⟨fun q r hq hr => ho.unique hq hr, ?_⟩
  intro hlost
  obtain ⟨hfree, hlk, q, hq⟩ := hlost
  have hwaiting := h.waiting q (by rw [hq]; trivial)
  rw [hfree] at hwaiting
  obtain ⟨r, hr⟩ := hwaiting.resolve_left (by simp)
  -- whoever freed the lock holds `lk->lk` until its wakeup is done
  have := h.lk.holder hr.holds
  rw [hlk] at this
  contradiction

/-- A step of `p` from `j` to `k` that does not write `lk->locked`. -/
theorem move (h : Inv s) (hj : s.pc p = j) (hpc : t.pc = Function.update s.pc p k)
    (hlocked : t.locked = s.locked) (hlk : Held PC.HoldsLk t.lk t.pc)
    (hpt : Held PC.HoldsPtable t.ptable t.pc) (hin : k.Inside ↔ j.Inside)
    (hsaw : k.SawLocked → s.locked = true) (hset : k = .setLocked → s.locked = false)
    (hwait : k.Waiting → s.locked = true ∨ ∃ r, (s.pc r).WillWake)
    (hwake : j.WillWake → k.WillWake) : Inv t := by
  have hregion : ∀ (R : PC → Prop) q, R (t.pc q) → (q = p ∧ R k) ∨ (q ≠ p ∧ R (s.pc q)) :=
    fun R q hq => region_update (R := R) (hpc ▸ hq)
  have hwaker : (∃ r, (s.pc r).WillWake) → ∃ r, (t.pc r).WillWake := by
    rintro ⟨r, hr⟩
    refine ⟨r, ?_⟩
    rw [hpc]
    by_cases hrp : r = p
    · subst hrp
      rw [Function.update_self]
      exact hwake (hj ▸ hr)
    · rw [Function.update_of_ne hrp]
      exact hr
  refine ⟨hlk, hpt, ?_, fun q hq => ?_, fun q hq => ?_, fun q hq => ?_⟩
  · obtain ⟨o, ho, heq⟩ := h.inside
    exact ⟨o, hpc ▸ ho.stay hj hin, hlocked.trans heq⟩
  · rw [hlocked]
    exact (hregion _ q hq).elim (fun hk => hsaw hk.2) fun hq => h.saw q hq.2
  · rw [hlocked]
    exact (hregion (· = .setLocked) q hq).elim (fun hk => hset hk.2) fun hq => h.free q hq.2
  · rw [hlocked]
    exact ((hregion _ q hq).elim (fun hk => hwait hk.2) fun hq => h.waiting q hq.2).imp_right
      hwaker

/-- `lk->locked = 1`: the sleep-lock, seen free, is taken. -/
theorem setLocked (h : Inv s) (hp : s.pc p = .setLocked) :
    Inv { s.goto p .setPid with locked := true } := by
  have hlock : (s.pc p).HoldsLk := by rw [hp]; trivial
  obtain ⟨o, ho, heq⟩ := h.inside
  obtain rfl : o = none := by simpa [h.free p hp] using heq
  refine ⟨h.lk.stay hp Iff.rfl, h.ptable.stay hp Iff.rfl, ⟨some p, ho.acquire trivial, rfl⟩,
    fun _ _ => rfl, fun q hq => ?_, fun _ _ => .inl rfl⟩
  -- a second process about to take the lock would hold `lk->lk` as well
  obtain ⟨-, hk⟩ | ⟨hqp, hq⟩ := region_update (R := (· = PC.setLocked)) hq
  · cases hk
  · exact absurd (by rw [hq]; trivial) (h.lk.outside hlock hqp)

/-- `lk->locked = 0`: the caller gives the sleep-lock back and owes a wakeup. -/
theorem clearLocked (h : Inv s) (hp : s.pc p = .clearLocked) :
    Inv { s.goto p .clearPid with locked := false } := by
  have hlock : (s.pc p).HoldsLk := by rw [hp]; trivial
  obtain ⟨o, ho, -⟩ := h.inside
  have hinside : o = some p := ho.holder (by rw [hp]; trivial)
  refine ⟨h.lk.stay hp Iff.rfl, h.ptable.stay hp Iff.rfl, ⟨none, ho.release hinside id, rfl⟩,
    fun q hq => ?_, fun _ _ => rfl, fun _ _ => .inr ⟨p, ?_⟩⟩
  · rcases region_update hq with ⟨-, hk⟩ | ⟨hqp, hq⟩
    · exact hk.elim
    · exact absurd hq.holds (h.lk.outside hlock hqp)
  · simp [State.goto, PC.WillWake]

/-- The loop of `wakeup1`: nobody is left asleep. -/
theorem wakeup1 (h : Inv s) (hp : s.pc p = .wakeup1) : Inv (s.wakeup1.goto p .wakeRelease) := by
  have hpt : (s.pc p).HoldsPtable := by rw [hp]; trivial
  have hpcp : (s.wakeup1.goto p .wakeRelease).pc p = .wakeRelease := by simp [State.goto]
  have hpcq : ∀ q, q ≠ p → (s.wakeup1.goto p .wakeRelease).pc q =
      if s.pc q = .asleep then .woken else s.pc q := fun q hq => by
    simp [State.goto, State.wakeup1, hq]
  have hregion : ∀ R : PC → Prop, (R .woken ↔ R .asleep) → (R .wakeRelease ↔ R .wakeup1) →
      ∀ q, R ((s.wakeup1.goto p .wakeRelease).pc q) ↔ R (s.pc q) := by
    intro R hsleep hwake q
    by_cases hqp : q = p
    · subst hqp
      rw [hpcp, hp]
      exact hwake
    · rw [hpcq q hqp]
      split
      · next he => rw [he]; exact hsleep
      · rfl
  obtain ⟨o, ho, heq⟩ := h.inside
  refine ⟨h.lk.congr (hregion _ Iff.rfl Iff.rfl), h.ptable.congr (hregion _ Iff.rfl Iff.rfl),
    ⟨o, ho.congr (hregion _ Iff.rfl Iff.rfl), heq⟩,
    fun q hq => h.saw q ((hregion PC.SawLocked Iff.rfl Iff.rfl q).mp hq),
    fun q hq => h.free q ((hregion (· = .setLocked) (by simp) (by simp) q).mp hq),
    fun q hq => ?_⟩
  -- a process on its way to sleep would hold `ptable.lock`, which the caller has
  exfalso
  by_cases hqp : q = p
  · subst hqp
    simp [hpcp, PC.Waiting] at hq
  · rw [hpcq q hqp] at hq
    split at hq
    · exact hq
    · next hne =>
      have hq' : s.pc q = .sleepState := by
        cases hqk : s.pc q <;> simp_all [PC.Waiting]
      exact h.ptable.outside hpt hqp (by rw [hq']; trivial)

/-- Every step keeps the invariant. -/
theorem next {pids : ι → Nat} (h : Inv s) (hs : step pids s p = some t) : Inv t := by
  cases hp : s.pc p with
  | setLocked =>
      simp only [step, hp, Option.some.injEq] at hs
      exact hs ▸ h.setLocked hp
  | clearLocked =>
      simp only [step, hp, Option.some.injEq] at hs
      exact hs ▸ h.clearLocked hp
  | wakeup1 =>
      simp only [step, hp, Option.some.injEq] at hs
      exact hs ▸ h.wakeup1 hp
  | check =>
      simp only [step, hp] at hs
      split at hs
      · next hl =>
        obtain rfl := Option.some.inj hs
        exact h.move hp rfl rfl (h.lk.stay hp Iff.rfl) (h.ptable.stay hp Iff.rfl) Iff.rfl
          (fun _ => hl) (by simp) False.elim False.elim
      · next hl =>
        obtain rfl := Option.some.inj hs
        exact h.move hp rfl rfl (h.lk.stay hp Iff.rfl) (h.ptable.stay hp Iff.rfl) Iff.rfl
          False.elim (fun _ => by simpa using hl) False.elim False.elim
  | user | reacquire =>
      simp only [step, hp, Option.ite_none_right_eq_some, Option.some.injEq] at hs
      obtain ⟨hfree, rfl⟩ := hs
      exact h.move hp rfl rfl ((hfree ▸ h.lk).acquire trivial) (h.ptable.stay hp Iff.rfl) Iff.rfl
        False.elim (by simp) False.elim False.elim
  | inside =>
      simp only [step, hp, Option.ite_none_right_eq_some, Option.some.injEq] at hs
      obtain ⟨hfree, rfl⟩ := hs
      exact h.move hp rfl rfl ((hfree ▸ h.lk).acquire trivial) (h.ptable.stay hp Iff.rfl) Iff.rfl
        False.elim (by simp) False.elim False.elim
  | sleepAcquire =>
      simp only [step, hp, Option.ite_none_right_eq_some, Option.some.injEq] at hs
      obtain ⟨hfree, rfl⟩ := hs
      exact h.move hp rfl rfl (h.lk.stay hp Iff.rfl) ((hfree ▸ h.ptable).acquire trivial) Iff.rfl
        (fun _ => h.saw p (by rw [hp]; trivial)) (by simp) False.elim False.elim
  | sleepRelease =>
      simp only [step, hp, Option.ite_none_right_eq_some, Option.some.injEq] at hs
      obtain ⟨hheld, rfl⟩ := hs
      -- `lk->lk` is given up with `ptable.lock` held: the lock was seen taken
      exact h.move hp rfl rfl (h.lk.release hheld id) (h.ptable.stay hp Iff.rfl) Iff.rfl
        False.elim (by simp) (fun _ => .inl (h.saw p (by rw [hp]; trivial))) False.elim
  | sleepState =>
      simp only [step, hp, Option.ite_none_right_eq_some, Option.some.injEq] at hs
      obtain ⟨hheld, rfl⟩ := hs
      exact h.move hp rfl rfl (h.lk.stay hp Iff.rfl) (h.ptable.release hheld id) Iff.rfl
        False.elim (by simp) (fun _ => h.waiting p (by rw [hp]; trivial)) False.elim
  | asleep => simp only [step, hp, reduceCtorEq] at hs
  | woken | wakeAcquire =>
      simp only [step, hp, Option.ite_none_right_eq_some, Option.some.injEq] at hs
      obtain ⟨hfree, rfl⟩ := hs
      exact h.move hp rfl rfl (h.lk.stay hp Iff.rfl) ((hfree ▸ h.ptable).acquire trivial) Iff.rfl
        False.elim (by simp) False.elim id
  | tidy | wakeRelease =>
      simp only [step, hp, Option.ite_none_right_eq_some, Option.some.injEq] at hs
      obtain ⟨hheld, rfl⟩ := hs
      exact h.move hp rfl rfl (h.lk.stay hp Iff.rfl) (h.ptable.release hheld id) Iff.rfl
        False.elim (by simp) False.elim id
  | setPid | clearPid =>
      simp only [step, hp, Option.some.injEq] at hs
      subst hs
      exact h.move hp rfl rfl (h.lk.stay hp Iff.rfl) (h.ptable.stay hp Iff.rfl) Iff.rfl
        False.elim (by simp) False.elim id
  | releaseLk | releaseLast =>
      simp only [step, hp, Option.ite_none_right_eq_some, Option.some.injEq] at hs
      obtain ⟨hheld, rfl⟩ := hs
      exact h.move hp rfl rfl (h.lk.release hheld id) (h.ptable.stay hp Iff.rfl) Iff.rfl
        False.elim (by simp) False.elim False.elim

end Inv

/-- **Sleep-lock safety.** In every reachable state at most one process is
between taking the sleep-lock and giving it back, and no process sleeps on it
while it is free and `lk->lk` is not held. -/
theorem sleeplock_safe (pids : ι → Nat) (s : State ι) (hs : (machine pids).Reach s) :
    (∀ p q, (s.pc p).Inside → (s.pc q).Inside → p = q) ∧
      ¬ (s.locked = false ∧ s.lk = none ∧ ∃ p, s.pc p = .asleep) :=
  (hs.induction inv_init fun _ _ _ h _ => h.next ‹_›).safe

/-- Process 0 takes the lock, processes 1 and 2 fall asleep on it, process 0
gives it back and process 2 gets it. -/
theorem sleeplock_safe_three : ∃ s : State (Fin 3),
    ((s.pc 2).Inside ∧ s.pc 1 = .woken) ∧
      (∀ p q, (s.pc p).Inside → (s.pc q).Inside → p = q) ∧
      ¬ (s.locked = false ∧ s.lk = none ∧ ∃ p, s.pc p = .asleep) := by
  have hrun : (((machine fun p : Fin 3 => p.val + 1).exec (initsleeplock (Fin 3))
      ([0, 0, 0, 0, 0] ++ [1, 1, 1, 1, 1] ++ [2, 2, 2, 2, 2] ++ [0, 0, 0, 0, 0, 0, 0] ++
       [2, 2, 2, 2, 2, 2, 2])).map fun s => (s.pc 2, s.pc 1)) = some (.inside, .woken) := by
    decide
  obtain ⟨s, hs, hpc⟩ := Option.map_eq_some_iff.mp hrun
  have h2 : s.pc 2 = .inside := congrArg Prod.fst hpc
  exact ⟨s, ⟨by rw [h2]; trivial, congrArg Prod.snd hpc⟩, sleeplock_safe _ s ⟨_, hs⟩⟩

end OsCourse.Sleeplock
