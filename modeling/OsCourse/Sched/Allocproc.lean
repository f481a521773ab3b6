import OsCourse.Lib.Machine
import OsCourse.Sched.Draw

/-!
# OsCourse.Sched.Allocproc

**The critical section of `allocproc`**, step by step, from `acquire(&ptable.lock)`
to `release(&ptable.lock)`. The draw of the tickets is a loop, run with the lock
held and interrupts off: on a single CPU the clock stands still until it ends.

The other modules have the section as one step (`allocproc`) that takes the first
draw. It does: a draw is odd whatever the clock shows (`generateRandom_odd`), so
the loop is left after it, and every call ends within four steps.
-/

namespace OsCourse.Sched

open OsCourse.Lib

variable {m n : Nat} {F : Type}

/-- Where a call of `allocproc` is. -/
inductive AllocPC (n : Nat)
  /-- Before `acquire`. -/
  | acquire
  /-- At the loop over the table. -/
  | search
  /-- At `while ((rnd = generate_random(60)) == 0)`, for the slot `p`. -/
  | draw (p : Fin n)
  /-- Behind that loop. -/
  | drawn (p : Fin n) (rnd : Int32)
  /-- Behind `release`: the slot, if one was found. -/
  | done (p : Option (Fin n))

/-- What a call of `allocproc` works on. -/
structure AllocState (n : Nat) (F : Type) where
  pc : AllocPC n
  /-- The call holds `ptable.lock`. -/
  locked : Bool
  proc : Table n F
  nextpid : Int32
  /-- The draws made so far. -/
  draws : Nat

/-- The next step, with the clock at `ticks`. -/
def allocStep [FloatOps F] (s : AllocState n F) (ticks : UInt32) : Option (AllocState n F) :=
  match s.pc with
  | .acquire => some { s with locked := true, pc := .search }
  | .search =>
      match (List.finRange n).find? fun i => (s.proc i).state = .unused with
      | none => some { s with locked := false, pc := .done none }
      | some p =>
          some { s with
            proc := Function.update s.proc p { s.proc p with
              state := .embryo
              pid := s.nextpid
              level := .lottery }
            nextpid := s.nextpid + 1
            pc := .draw p }
  | .draw p =>
      let rnd := generateRandom ticks 60
      let s := { s with draws := s.draws + 1 }
      some (if rnd = 0 then s else { s with pc := .drawn p rnd })
  | .drawn p rnd =>
      some { s with
        proc := Function.update s.proc p { s.proc p with
          tickets := rnd
          cycleNum := 1
          entryTime := ticks
          priority := FloatOps.ofInt 1 }
        locked := false
        pc := .done (some p) }
  | .done _ => none

/-- A call of `allocproc` on the table `t`, with the lock free. -/
def allocMachine [FloatOps F] (t : Table n F) (nextpid : Int32) :
    Machine (AllocState n F) UInt32 where
  init := ⟨.acquire, false, t, nextpid, 0⟩
  step := allocStep

/-- The slot has been found and prepared, up to its tickets. -/
def prepared (t : Table n F) (nextpid : Int32) (p : Fin n) : Table n F :=
  Function.update t p { t p with state := .embryo, pid := nextpid, level := .lottery }

/-- What the call returns and leaves: `allocproc` at the time of the draw, with the time
of entry read afterwards. -/
def AllocResult [FloatOps F] (t : Table n F) (nextpid : Int32) :
    Option (Fin n) → Table n F → Prop
  | none, t' => t' = t ∧ ∀ ticks, allocproc t nextpid ticks = none
  | some p, t' => ∃ ticks now t₁, allocproc t nextpid ticks = some (p, t₁) ∧
      t' = Function.update t₁ p { t₁ p with entryTime := now }

/-- What holds at each point of a call. -/
def AllocInv [FloatOps F] (t : Table n F) (nextpid : Int32) (s : AllocState n F) : Prop :=
  match s.pc with
  | .acquire => s.proc = t ∧ s.nextpid = nextpid ∧ s.draws = 0
  | .search => s.locked = true ∧ s.proc = t ∧ s.nextpid = nextpid ∧ s.draws = 0
  | .draw p => s.locked = true ∧ s.proc = prepared t nextpid p ∧ s.draws = 0 ∧
      ((List.finRange n).find? fun i => (t i).state = .unused) = some p
  | .drawn p rnd => s.locked = true ∧ s.proc = prepared t nextpid p ∧ s.draws = 1 ∧
      ((List.finRange n).find? fun i => (t i).state = .unused) = some p ∧
      ∃ ticks, rnd = generateRandom ticks 60
  | .done r => s.locked = false ∧ s.draws ≤ 1 ∧ AllocResult t nextpid r s.proc

/-- How many steps are left at most. -/
def AllocState.left (s : AllocState n F) : Nat :=
  match s.pc with
  | .acquire => 4
  | .search => 3
  | .draw _ => 2
  | .drawn _ _ => 1
  | .done _ => 0

variable [FloatOps F]

theorem allocproc_found {t : Table n F} {p : Fin n}
    (h : ((List.finRange n).find? fun i => (t i).state = .unused) = some p) (nextpid : Int32)
    (ticks : UInt32) :
    allocproc t nextpid ticks = some (p, Function.update t p { t p with
      state := .embryo
      pid := nextpid
      level := .lottery
      tickets := generateRandom ticks 60
      cycleNum := 1
      entryTime := ticks
      priority := FloatOps.ofInt 1 }) := by
  rw [allocproc, h, Option.map_some]

/-- At the loop, one draw leads out of it. -/
theorem allocStep_draw {s : AllocState n F} {p : Fin n} (hpc : s.pc = .draw p) (ticks : UInt32) :
    allocStep s ticks =
      some { s with draws := s.draws + 1, pc := .drawn p (generateRandom ticks 60) } := by
  simp only [allocStep, hpc]
  rw [if_neg (generateRandom_sixty_ne_zero ticks)]

theorem AllocInv.step {t : Table n F} {nextpid : Int32} {s s' : AllocState n F} {ticks : UInt32}
    (hs : AllocInv t nextpid s) (h : allocStep s ticks = some s') :
    AllocInv t nextpid s' ∧ s'.left < s.left := by
  obtain ⟨pc, locked, proc, nextpid', draws⟩ := s
  cases pc with
  | acquire =>
      obtain ⟨rfl, rfl, rfl⟩ := hs
      obtain rfl := Option.some.inj h
      exact ⟨⟨rfl, rfl, rfl, rfl⟩, Nat.lt_succ_self 3⟩
  | search =>
      obtain ⟨rfl, rfl, rfl, rfl⟩ := hs
      simp only [allocStep] at h
      cases hfind : (List.finRange n).find? fun i => (proc i).state = .unused with
      | none =>
          rw [hfind] at h
          obtain rfl := Option.some.inj h
          refine ⟨⟨rfl, Nat.zero_le 1, rfl, fun ticks => ?_⟩, Nat.zero_lt_succ 2⟩
          rw [allocproc, hfind, Option.map_none]
      | some p =>
          rw [hfind] at h
          obtain rfl := Option.some.inj h
          exact ⟨⟨rfl, rfl, rfl, hfind⟩, Nat.lt_succ_self 2⟩
  | draw p =>
      obtain ⟨rfl, rfl, rfl, hfind⟩ := hs
      rw [allocStep_draw rfl] at h
      obtain rfl := Option.some.inj h
      exact ⟨⟨rfl, rfl, rfl, hfind, ticks, rfl⟩, Nat.lt_succ_self 1⟩
  | drawn p rnd =>
      obtain ⟨rfl, rfl, rfl, hfind, time, rfl⟩ := hs
      obtain rfl := Option.some.inj h
      refine ⟨⟨rfl, Nat.le_refl 1, time, ticks, _, allocproc_found hfind nextpid time, ?_⟩,
        Nat.zero_lt_one⟩
      simp [prepared]
  | done r => cases h

theorem allocStep_isSome (s : AllocState n F) (ticks : UInt32) (h : ∀ r, s.pc ≠ .done r) :
    ∃ s', allocStep s ticks = some s' := by
  obtain ⟨pc, locked, proc, nextpid, draws⟩ := s
  cases pc with
  | acquire => exact ⟨_, rfl⟩
  | search =>
      cases hfind : (List.finRange n).find? fun i => (proc i).state = .unused with
      | none => exact ⟨_, by simp only [allocStep, hfind]; rfl⟩
      | some p => exact ⟨_, by simp only [allocStep, hfind]; rfl⟩
  | draw p => exact ⟨_, allocStep_draw rfl ticks⟩
  | drawn p rnd => exact ⟨_, rfl⟩
  | done r => exact absurd rfl (h r)

theorem allocInv_init (t : Table n F) (nextpid : Int32) :
    AllocInv t nextpid (allocMachine t nextpid).init := ⟨rfl, rfl, rfl⟩

theorem allocInv_exec {t : Table n F} {nextpid : Int32} {clock : List UInt32}
    {s : AllocState n F} (h : (allocMachine t nextpid).exec (allocMachine t nextpid).init clock =
      some s) : AllocInv t nextpid s :=
  Machine.Reach.induction ⟨clock, h⟩ (allocInv_init t nextpid) fun _ _ _ hs hstep =>
    (AllocInv.step hs hstep).1

theorem AllocInv.draws_le {t : Table n F} {nextpid : Int32} {s : AllocState n F}
    (hs : AllocInv t nextpid s) : s.draws ≤ 1 := by
  obtain ⟨pc, locked, proc, nextpid', draws⟩ := s
  cases pc with
  | acquire => exact hs.2.2.trans_le (Nat.zero_le 1)
  | search => exact hs.2.2.2.trans_le (Nat.zero_le 1)
  | draw p => exact hs.2.2.1.trans_le (Nat.zero_le 1)
  | drawn p rnd => exact Nat.le_of_eq hs.2.2.1
  | done r => exact hs.2.1

/-- **The loop ends after its first draw**, which is odd at every time: at the loop, with
the lock held, the next step leads out of it whatever the clock shows, no call draws
twice, and every call is done after at most four steps, with the lock released and the
result of `allocproc`. -/
theorem ticket_loop_ends (t : Table n F) (nextpid : Int32) :
    (∀ ticks, congruence ticks % 2 = 1 ∧ (generateRandom ticks 60).toInt % 2 = 1 ∧
      generateRandom ticks 60 ≠ 0) ∧
    (∀ clock s, (allocMachine t nextpid).exec (allocMachine t nextpid).init clock = some s →
      s.draws ≤ 1 ∧ ∀ p, s.pc = .draw p → s.locked = true ∧ s.draws = 0 ∧
        ∀ ticks, allocStep s ticks =
          some { s with draws := 1, pc := .drawn p (generateRandom ticks 60) }) ∧
    ∀ clock : ℕ → UInt32, ∃ k, k ≤ 4 ∧ ∃ s r, (allocMachine t nextpid).exec
        (allocMachine t nextpid).init ((List.range k).map clock) = some s ∧
      s.pc = .done r ∧ s.locked = false ∧ AllocResult t nextpid r s.proc := by
  refine ⟨fun ticks => ⟨congruence_odd ticks, generateRandom_odd ticks (by decide) (by decide),
    generateRandom_sixty_ne_zero ticks⟩, fun clock s h => ?_, fun clock => ?_⟩
  · have hs := allocInv_exec h
    refine ⟨hs.draws_le, fun p hpc => ?_⟩
    rw [AllocInv, hpc] at hs
    obtain ⟨hlocked, -, hdraws, -⟩ := hs
    refine ⟨hlocked, hdraws, fun ticks => ?_⟩
    rw [allocStep_draw hpc, hdraws]
  · obtain ⟨k, hk, s, hexec, hs, r, hpc⟩ := (allocMachine t nextpid).exec_done AllocState.left
      (AllocInv t nextpid) (fun s => ∃ r, s.pc = .done r)
      (fun s ticks s' hI h => AllocInv.step hI h)
      (fun s ticks hI hnot => allocStep_isSome s ticks fun r hr => hnot ⟨r, hr⟩)
      (allocInv_init t nextpid) clock
    rw [AllocInv, hpc] at hs
    exact ⟨k, hk, s, r, hexec, hpc, hs.1, hs.2.2⟩

/-! ### In the machine -/

/-- A `fork` that may allocate does so at any time. -/
theorem forkAlloc_isSome {s : Sys m n F} {c : Fin m} {p : Fin n} (hp : s.current c = some p)
    (hlock : s.lock = none) (hfork : s.forking p = none) (ticks : UInt32) :
    (step s (.forkAlloc c ticks)).isSome := by
  have hne := generateRandom_sixty_ne_zero ticks
  simp only [step, hp, Option.bind_some, hlock, hfork, ne_eq, hne, not_false_eq_true, and_self,
    if_true]
  cases allocproc s.proc s.nextpid ticks with
  | none => rfl
  | some r => rfl

end OsCourse.Sched
