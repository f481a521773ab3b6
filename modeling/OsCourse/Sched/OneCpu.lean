import OsCourse.Sched.Effect

/-!
# OsCourse.Sched.OneCpu

One process, one CPU: the invariant of `Ownership` holds in every state that
process management reaches from boot, whatever the number of CPUs and slots and
however their steps interleave.

The steps fall into few kinds, and each kind has its rule: a CPU goes through a
stretch of `scheduler()` (`Inv.finish`), a process enters `sched()`
(`Inv.enterSched`) or gives the lock back (`Inv.free`), or no CPU moves and the
table changes calmly (`Inv.still`). The steps of `fork` and `userinit`
additionally take up or finish a slot (`Built.add`, `Built.mono`).
-/

namespace OsCourse.Sched

open OsCourse.Lib

variable {m n : Nat} {F : Type} {s s' : Sys m n F} {c : Fin m} {p : Fin n}

/-! ### Who runs and who builds -/

theorem Cpu.not_runs {k : Cpu n} (h : ∀ site f, k.pc ≠ .running site f) (p : Fin n) :
    ¬ k.Runs p := by
  rintro ⟨⟨site, f, hpc⟩, -⟩
  exact h site f hpc

/-- The lock is free or stays with `c`: no other CPU is concerned. -/
theorem lock_iff {l l' : Option (Fin m)} (hl : l = none ∨ l = some c)
    (hl' : l' = none ∨ l' = some c) {d : Fin m} (hd : d ≠ c) :
    l' = some d ↔ l = some d := by
  rcases hl with rfl | rfl <;> rcases hl' with rfl | rfl <;> simp [Ne.symm hd]

/-- A step that moves one CPU, not into `userinit`, and starts no `fork` gives
nobody a slot to build. -/
theorem builds_of_move {k : Cpu n} (hcpu : s'.cpu = Function.update s.cpu c k)
    (hc : ∀ p, k.pc ≠ .userinit p) (hf : s'.forking = s.forking) (b : Fin n ⊕ Fin m) (p : Fin n)
    (h : Builds s' b p) : Builds s b p := by
  cases b with
  | inl q => rwa [Builds, hf] at h
  | inr d =>
      rw [Builds, hcpu] at h
      by_cases hd : d = c
      · subst hd
        rw [Function.update_self] at h
        exact absurd h (hc p)
      · rwa [Function.update_of_ne hd] at h

namespace Built

/-- A step that starts no new slot keeps `Built`, if it is calm at the slots
still being built. -/
theorem mono (h : Built s) {away : Fin n → Prop}
    (hb : ∀ b p, Builds s' b p → Builds s b p) (ht : CalmOff away s.proc s'.proc)
    (haway : ∀ b p, Builds s' b p → ¬ away p) : Built s' where
  embryo b p hbp := (ht p (haway b p hbp)).2 (h.embryo b p (hb b p hbp))
  builder b b' p hbp hbp' := h.builder b b' p (hb b p hbp) (hb b' p hbp')

/-- A builder `b₀` takes up the slot `p₀`, which was `UNUSED`. -/
theorem add (h : Built s) (b₀ : Fin n ⊕ Fin m) {p₀ : Fin n}
    (hb : ∀ b p, Builds s' b p → Builds s b p ∨ b = b₀ ∧ p = p₀)
    (hold : (s.proc p₀).state = .unused) (hnew : (s'.proc p₀).state = .embryo)
    (ht : Calm s.proc s'.proc) : Built s' := by
  have hfresh : ∀ b, ¬ Builds s b p₀ := fun b hbp => by
    rw [h.embryo b p₀ hbp] at hold
    cases hold
  refine ⟨fun b p hbp => ?_, fun b b' p hbp hbp' => ?_⟩
  · rcases hb b p hbp with hbp | ⟨-, rfl⟩
    · exact (ht p id).2 (h.embryo b p hbp)
    · exact hnew
  · rcases hb b p hbp with hbp | ⟨rfl, rfl⟩
    · rcases hb b' p hbp' with hbp' | ⟨-, rfl⟩
      · exact h.builder b b' p hbp hbp'
      · exact absurd hbp (hfresh b)
    · rcases hb b' p hbp' with hbp' | ⟨rfl, -⟩
      · exact absurd hbp' (hfresh b')
      · rfl

/-- The builder `b₀` of the slot `p₀` is done with it. -/
theorem done (h : Built s) {b₀ : Fin n ⊕ Fin m} {p₀ : Fin n} (hb₀ : Builds s b₀ p₀)
    (hb : ∀ b p, Builds s' b p → Builds s b p ∧ b ≠ b₀)
    (ht : CalmOff (· = p₀) s.proc s'.proc) : Built s' := by
  refine h.mono (fun b p hbp => (hb b p hbp).1) ht fun b p hbp hp => ?_
  subst hp
  exact (hb b p hbp).2 (h.builder b b₀ p (hb b p hbp).1 hb₀)

end Built

/-! ### The kinds of steps -/

/-- The invariant of process management. -/
structure Inv (s : Sys m n F) : Prop where
  owned : Owned s
  built : Built s

namespace Inv

/-- No CPU moves, no slot is taken up or finished. -/
theorem still (h : Inv s) (hcpu : s'.cpu = s.cpu) (hl : s'.lock = s.lock)
    (hf : s'.forking = s.forking) (ht : Calm s.proc s'.proc) : Inv s' where
  owned := h.owned.still hcpu hl ht.sameRunning
  built := by
    refine h.built.mono (fun b p hb => ?_) ht fun _ _ _ => id
    cases b <;> simpa [Builds, hf, hcpu] using hb

/-- The process running on `c` gives the lock back, or goes on without it. -/
theorem free (h : Inv s) (hc : (s.cpu c).Runs p) (hl : s.lock = none ∨ s.lock = some c)
    (hcpu : s'.cpu = s.cpu) (hl' : s'.lock = none) (hf : s'.forking = s.forking)
    (ht : Calm s.proc s'.proc) : Inv s' where
  owned := by
    refine h.owned.move (k := s.cpu c) (by rw [hcpu, Function.update_eq_self])
      (fun d hd => lock_iff hl (.inl hl') hd) ?_ (fun q => ?_) (fun q hq _ => hq)
    · have hok := h.owned.cpu c
      obtain ⟨⟨site, f, hpc⟩, -⟩ := hc
      rw [CpuOk, hpc] at hok ⊢
      obtain ⟨⟨q, hq, hrun⟩, hrest⟩ := hok
      exact ⟨⟨q, hq, (ht q id).1.mpr hrun⟩, hrest⟩
    · rw [(ht q id).1]
      constructor
      · intro hq
        by_cases hcq : (s.cpu c).Runs q
        · exact .inl hcq
        · exact .inr ⟨hq, hcq⟩
      · rintro (hcq | ⟨hq, -⟩)
        · exact h.owned.running hcq
        · exact hq
  built := by
    refine h.built.mono (fun b p hb => ?_) ht fun _ _ _ => id
    cases b <;> simpa [Builds, hf, hcpu] using hb

/-- CPU `c` moves on, not into `userinit`; the slots `away` are not embryos. -/
theorem built_of_move (h : Inv s) {k : Cpu n} (hcpu : s'.cpu = Function.update s.cpu c k)
    (hc : ∀ p, k.pc ≠ .userinit p) (hf : s'.forking = s.forking) {away : Fin n → Prop}
    (ht : CalmOff away s.proc s'.proc) (haway : ∀ p, away p → (s.proc p).state ≠ .embryo) :
    Built s' :=
  h.built.mono (builds_of_move hcpu hc hf) ht fun b p hb hp =>
    haway p hp (h.built.embryo b p (builds_of_move hcpu hc hf b p hb))

/-- The process running on `c` stops and enters `sched()`. -/
theorem enterSched (h : Inv s) (hc : (s.cpu c).Runs p) (hl : s.lock = none ∨ s.lock = some c)
    {t : Table n F} (th : Thread) (ht : CalmOff (· = p) s.proc t) (hp : (t p).state ≠ .running) :
    Inv (s.enterSched c p t th) := by
  have hrunning := h.owned.running hc
  have hok := h.owned.cpu c
  obtain ⟨⟨site, f, hpc⟩, hproc⟩ := hc
  have hruns : ∀ q, (s.cpu c).Runs q ↔ q = p := fun q =>
    ⟨fun hq => Option.some.inj (hq.2.symm.trans hproc), fun hq => hq ▸ ⟨⟨site, f, hpc⟩, hproc⟩⟩
  rw [CpuOk, hpc] at hok
  have hidle : ∀ q, ¬ (Cpu.Runs { s.cpu c with pc := .back site f } q) :=
    Cpu.not_runs (by simp)
  simp only [Sys.enterSched, hpc]
  constructor
  · refine h.owned.move rfl (fun d hd => lock_iff hl (.inr rfl) hd) ⟨rfl, hok.2⟩ (fun q => ?_)
      (fun q hq => absurd hq (hidle q))
    rw [hruns]
    by_cases hq : q = p
    · subst hq
      simp [hp, hidle]
    · simp [hidle, hq, (ht q hq).1]
  · refine h.built_of_move rfl (by simp) rfl ht fun q hq => ?_
    subst hq
    simp [hrunning]

/-- The scheduler of `c`, which runs nobody, goes through a stretch of its
loop with the lock and ends it as the stretch says. -/
theorem finish (h : Inv s) (hidle : ∀ q, ¬ (s.cpu c).Runs q)
    (hl : s.lock = none ∨ s.lock = some c) {k : Cpu n} (hk : k.acquires = k.releases + 1)
    {o : Out n F} (ho : StretchOk s.proc o) :
    Inv (Sys.finish { s with cpu := Function.update s.cpu c k } c o) := by
  cases o with
  | swtch site p t f =>
      obtain ⟨hrunnable, hrunning, ht, hf⟩ := ho
      have hruns : ∀ q, Cpu.Runs { k with proc := some p, pc := .running site f } q ↔ q = p := by
        intro q
        simp [Cpu.Runs, eq_comm]
      simp only [Sys.finish, Function.update_idem, Function.update_self]
      constructor
      · refine h.owned.move rfl (fun d hd => lock_iff hl (.inr rfl) hd)
          ⟨⟨p, rfl, hrunning⟩, hf, hk⟩ (fun q => ?_) (fun q hq hrun => ?_)
        · rw [hruns]
          by_cases hq : q = p
          · subst hq
            simp [hrunning]
          · simp [hidle, hq, (ht q hq).1]
        · rw [hruns] at hq
          subst hq
          rw [hrunnable] at hrun
          cases hrun
      · refine h.built_of_move rfl (by simp) rfl ht fun q hq => ?_
        subst hq
        simp [hrunnable]
  | release t =>
      obtain rfl : t = s.proc := ho
      simp only [Sys.finish, Function.update_idem, Function.update_self]
      constructor
      · exact h.owned.idle rfl (fun d hd => lock_iff hl (.inl rfl) hd) ⟨rfl, by simp, hk⟩
          (Calm.refl _).sameRunning hidle (Cpu.not_runs (by simp))
      · exact h.built_of_move rfl (by simp) rfl (Calm.refl _) fun _ hq => hq.elim
  | skip t => exact ho.elim
  | unset => exact ho.elim

/-- A round of `wait`, by the process running on `c`. -/
theorem waitRound (h : Inv s) (hc : (s.cpu c).Runs p) (hl : s.lock = none ∨ s.lock = some c)
    {t : Table n F} (ht : Calm s.proc t) : Inv (s.waitRound c p t) := by
  unfold Sys.waitRound
  rcases waitLoop_spec t p with ⟨t', hout, ht'⟩ | ⟨t', hout, ht', hsleep⟩
  · rw [hout]
    exact h.free hc hl rfl rfl rfl (ht.trans ht')
  · rw [hout]
    exact h.enterSched hc hl .wait ((ht.off _).trans ht') (by simp [hsleep])

/-- A CPU whose scheduler does not wait for a process runs nobody. -/
theorem not_runs_of_pc {pc : CpuPC n} (hpc : (s.cpu c).pc = pc)
    (h : ∀ site f, pc ≠ .running site f) (p : Fin n) : ¬ (s.cpu c).Runs p :=
  Cpu.not_runs (by rw [hpc]; exact h) p

/-- The idle steps of a CPU: it enters `scheduler()`, or draws. -/
theorem between (h : Inv s) {pc pc' : CpuPC n} (hpc : (s.cpu c).pc = pc)
    (hold : pc = .boot ∨ pc = .top) (hnew : pc' = .top ∨ ∃ rnd, pc' = .drawn rnd)
    (hcpu : s'.cpu = Function.update s.cpu c ⟨none, pc', (s.cpu c).acquires, (s.cpu c).releases⟩)
    (hproc : s'.proc = s.proc) (hl : s'.lock = s.lock) (hf : s'.forking = s.forking) :
    Inv s' := by
  have hok := h.owned.cpu c
  have hidle : s.lock ≠ some c ∧ (s.cpu c).acquires = (s.cpu c).releases := by
    rcases hold with rfl | rfl <;> rw [CpuOk, hpc] at hok <;> exact hok.2
  constructor
  · refine h.owned.idle hcpu (fun d _ => by rw [hl]) ?_ (by rw [hproc]; exact fun _ => Iff.rfl)
      (not_runs_of_pc hpc ?_) (Cpu.not_runs ?_)
    · rw [hl]
      rcases hnew with rfl | ⟨rnd, rfl⟩ <;> exact ⟨rfl, hidle⟩
    · rcases hold with rfl | rfl <;> simp
    · rcases hnew with rfl | ⟨rnd, rfl⟩ <;> simp
  · refine h.built_of_move hcpu ?_ hf (by rw [hproc]; exact Calm.refl _) fun _ => False.elim
    rcases hnew with rfl | ⟨rnd, rfl⟩ <;> simp

/-- `fork` is done with the slot `np`, which gets a state other than `RUNNING`. -/
theorem forkDone (h : Inv s) {np : Fin n} {st : ProcState} (hst : st ≠ .running)
    (hfork : s.forking p = some np) (hcpu : s'.cpu = s.cpu) (hl : s'.lock = s.lock)
    (hf : s'.forking = Function.update s.forking p none)
    (ht : s'.proc = s.proc.setState np st) : Inv s' := by
  have hb : Builds s (.inl p) np := hfork
  have hembryo := h.built.embryo _ np hb
  constructor
  · refine h.owned.still hcpu hl ?_
    rw [ht]
    exact sameRunning_setState (by simp [hembryo]) hst
  · refine h.built.done hb (fun b q hbq => ?_) (by rw [ht]; exact calmOff_update _ _ _)
    cases b with
    | inl r =>
        rw [Builds, hf] at hbq
        by_cases hr : r = p
        · subst hr
          simp at hbq
        · rw [Function.update_of_ne hr] at hbq
          exact ⟨hbq, by simpa using hr⟩
    | inr d =>
        rw [Builds, hcpu] at hbq
        exact ⟨hbq, by simp⟩

variable [FloatOps F]

/-- The boot CPU takes up the slot of the first process. -/
theorem userinitAlloc (h : Inv s) {ticks : UInt32} {t : Table n F} (hpc : (s.cpu c).pc = .boot)
    (halloc : allocproc s.proc s.nextpid ticks = some (p, t)) :
    Inv { s with
      proc := t
      nextpid := s.nextpid + 1
      initproc := some p
      cpu := Function.update s.cpu c { s.cpu c with pc := .userinit p } } := by
  obtain ⟨hunused, hembryo, ht⟩ := allocproc_spec halloc
  have hok := h.owned.cpu c
  rw [CpuOk, hpc] at hok
  constructor
  · exact h.owned.idle rfl (fun _ _ => Iff.rfl) hok ht.sameRunning
      (not_runs_of_pc hpc (by simp)) (Cpu.not_runs (by simp))
  · refine h.built.add (.inr c) (fun b q hb => ?_) hunused hembryo ht
    cases b with
    | inl r => exact .inl hb
    | inr d =>
        simp only [Builds] at hb ⊢
        by_cases hd : d = c
        · subst hd
          rw [Function.update_self] at hb
          exact .inr ⟨rfl, (CpuPC.userinit.inj hb).symm⟩
        · rw [Function.update_of_ne hd] at hb
          exact .inl hb

omit [FloatOps F] in
/-- The boot CPU makes the first process runnable. -/
theorem userinitReady (h : Inv s) (hpc : (s.cpu c).pc = .userinit p) :
    Inv { s with
      proc := s.proc.setState p .runnable
      thread := Function.update s.thread p .forkret
      cpu := Function.update s.cpu c { s.cpu c with pc := .boot } } := by
  have hb : Builds s (.inr c) p := hpc
  have hembryo := h.built.embryo _ p hb
  have hok := h.owned.cpu c
  rw [CpuOk, hpc] at hok
  constructor
  · exact h.owned.idle rfl (fun _ _ => Iff.rfl) hok
      (sameRunning_setState (by simp [hembryo]) (by simp))
      (not_runs_of_pc hpc (by simp)) (Cpu.not_runs (by simp))
  · refine h.built.done hb (fun b q hbq => ⟨?_, ?_⟩) (calmOff_update _ _ _)
    · refine builds_of_move (c := c) (k := { s.cpu c with pc := .boot }) ?_ (by simp) ?_ b q hbq
      · rfl
      · rfl
    · intro he
      subst he
      simp [Builds] at hbq

/-- `fork` takes up the slot of the child. -/
theorem forkAlloc (h : Inv s) {ticks : UInt32} {np : Fin n} {t : Table n F}
    (halloc : allocproc s.proc s.nextpid ticks = some (np, t)) :
    Inv { s with
      proc := t
      nextpid := s.nextpid + 1
      forking := Function.update s.forking p (some np) } := by
  obtain ⟨hunused, hembryo, ht⟩ := allocproc_spec halloc
  refine ⟨h.owned.still rfl rfl ht.sameRunning, ?_⟩
  refine h.built.add (.inl p) (fun b q hb => ?_) hunused hembryo ht
  cases b with
  | inl r =>
      simp only [Builds] at hb ⊢
      by_cases hr : r = p
      · subst hr
        rw [Function.update_self] at hb
        exact .inr ⟨rfl, (Option.some.inj hb).symm⟩
      · rw [Function.update_of_ne hr] at hb
        exact .inl hb
  | inr d => exact .inl hb

/-- **Every step keeps the invariant.** -/
theorem step (h : Inv s) {a : Act m n F} (hs : step s a = some s') : Inv s' := by
  cases effect_of_step hs with
  | userinitAlloc hpc halloc => exact h.userinitAlloc hpc halloc
  | userinitReady hpc => exact h.userinitReady hpc
  | start hpc => exact h.between hpc (.inl rfl) (.inl rfl) rfl rfl rfl rfl
  | @draw c ticks hpc =>
      have hok := h.owned.cpu c
      rw [CpuOk, hpc] at hok
      exact h.between hpc (.inr rfl) (.inr ⟨_, rfl⟩) (by rw [← hok.1]) rfl rfl rfl
  | @pass c ticks rnd hl hpc =>
      have hok := h.owned.cpu c
      rw [CpuOk, hpc] at hok
      exact h.finish (not_runs_of_pc hpc (by simp)) (.inl hl) (by simp [hok.2.2])
        (lotteryPhase_stretchOk _ _)
  | @sched c ticks site f hl hpc =>
      have hok := h.owned.cpu c
      rw [CpuOk, hpc] at hok
      exact h.finish (k := { s.cpu c with proc := none }) (not_runs_of_pc hpc (by simp)) (.inr hl)
        hok.2.2 (resume_stretchOk _ site hok.2.1)
  | resumed hl hc => exact h.free hc (.inr hl) rfl rfl rfl (Calm.refl _)
  | resumedSleep hl hc => exact h.free hc (.inr hl) rfl rfl rfl (calm_update_of_state rfl)
  | resumedWait hl hc => exact h.waitRound hc (.inr hl) (calm_update_of_state rfl)
  | yield hl hp | sleep hl hp =>
      exact h.enterSched (runs_of_current hp) (.inl hl) _ (calmOff_update _ _ _) (by simp)
  | wakeup => exact h.still rfl rfl rfl (wakeup1_calm _ _)
  | kill => exact h.still rfl rfl rfl (kill_calm _ _)
  | forkAlloc halloc => exact h.forkAlloc halloc
  | forkNone => exact h
  | forkFail _ hnp => exact h.forkDone (by simp) hnp rfl rfl rfl rfl
  | forkParent => exact h.still rfl rfl rfl (calm_update_of_state rfl)
  | forkReady hnp => exact h.forkDone (by simp) hnp rfl rfl rfl rfl
  | exit hl hp =>
      exact h.enterSched (runs_of_current hp) (.inl hl) _ (exit_calmOff _ _ _) (by simp [exit_self])
  | wait hl hp => exact h.waitRound (runs_of_current hp) (.inl hl) (Calm.refl _)
  | setTickets => exact h.still rfl rfl rfl (setTickets_calm _ _ _)
  | setPriority => exact h.still rfl rfl rfl (setPriority_calm _ _ _)
  | changeQueue => exact h.still rfl rfl rfl (changeQueue_calm _ _ _)

end Inv

/-! ### One process, one CPU -/

section Runs

variable [FloatOps F]

theorem inv_boot : Inv (boot m n F) where
  owned := by
    refine ⟨fun c => ?_, fun p hp => ?_, fun c d p hc => ?_⟩
    · exact ⟨rfl, by simp [boot], rfl⟩
    · simp [boot, Proc.zero] at hp
    · exact absurd hc (Cpu.not_runs (by simp [boot]) p)
  built := by
    refine ⟨fun b p hb => ?_, fun b b' p hb => ?_⟩ <;> cases b <;> simp [Builds, boot] at hb

theorem reach_inv (h : (machine m n F).Reach s) : Inv s :=
  h.induction inv_boot fun _ _ _ hI hs => hI.step hs

/-- In `s`, the action `a` is a stretch of `scheduler()` on `c` that ends by
handing `p` to `swtch`. -/
def Dispatches (s : Sys m n F) (a : Act m n F) (c : Fin m) (p : Fin n) : Prop :=
  (∃ ticks, a = .pass c ticks ∨ a = .sched c ticks) ∧
    ∃ s', step s a = some s' ∧ (s'.cpu c).Runs p

/-- What holds of a state of process management: while `ptable.lock` is free,
`c->proc` is null or a `RUNNING` process and every `RUNNING` process is the
`c->proc` of exactly one CPU; a process handed to `swtch` is `RUNNABLE`; no
candidate pointer was used unset; and the scheduler of a CPU has released the
lock once for each time it took it, but for the pass it is in. -/
structure OneCpu (s : Sys m n F) : Prop where
  running : s.lock = none → ∀ c p, (s.cpu c).proc = some p → (s.proc p).state = .running
  on_one_cpu : s.lock = none → ∀ p, (s.proc p).state = .running →
    ∃! c, (s.cpu c).proc = some p
  dispatch : ∀ a c p, Dispatches s a c p → (s.proc p).state = .runnable
  not_unset : ∀ c, (s.cpu c).pc ≠ .wild
  released : ∀ c, (s.cpu c).acquires =
    (s.cpu c).releases + match (s.cpu c).pc with
      | .running .. | .back .. => 1
      | _ => 0
  lock_free : ∀ c, (s.cpu c).pc = .top → s.lock ≠ some c

omit [FloatOps F] in
/-- While the lock is free, having a current process is running it. -/
theorem Owned.runs_iff (h : Owned s) (hl : s.lock = none) (c : Fin m) (p : Fin n) :
    (s.cpu c).Runs p ↔ (s.cpu c).proc = some p := by
  refine ⟨fun hc => hc.2, fun hproc => ?_⟩
  have hok := h.cpu c
  unfold CpuOk at hok
  cases hpc : (s.cpu c).pc with
  | boot | userinit | top | drawn =>
      rw [hpc] at hok
      rw [hok.1] at hproc
      cases hproc
  | running site f => exact ⟨⟨site, f, hpc⟩, hproc⟩
  | back site f =>
      rw [hpc, hl] at hok
      cases hok.1
  | wild =>
      rw [hpc] at hok
      exact hok.elim

omit [FloatOps F] in
/-- A stretch that leaves `c` running `p` was given a table where `p` is `RUNNABLE`. -/
theorem runnable_of_finish {s : Sys m n F} {k : Cpu n} {o : Out n F} (ho : StretchOk s.proc o)
    (h : ((Sys.finish { s with cpu := Function.update s.cpu c k } c o).cpu c).Runs p) :
    (s.proc p).state = .runnable := by
  cases o with
  | swtch site q t f =>
      simp only [Sys.finish, Function.update_idem, Function.update_self] at h
      obtain rfl : q = p := Option.some.inj h.2
      exact ho.1
  | release t =>
      simp only [Sys.finish, Function.update_idem, Function.update_self] at h
      exact absurd h (Cpu.not_runs (by simp) p)
  | skip t => exact ho.elim
  | unset => exact ho.elim

theorem Owned.dispatch (h : Owned s) {a : Act m n F} (hd : Dispatches s a c p) :
    (s.proc p).state = .runnable := by
  rcases hd with ⟨⟨ticks, rfl | rfl⟩, s', hs, hruns⟩
  · cases effect_of_step hs with
    | pass => exact runnable_of_finish (lotteryPhase_stretchOk _ _) hruns
  · cases effect_of_step hs with
    | @sched _ _ site f hl hpc =>
        have hok := h.cpu c
        rw [CpuOk, hpc] at hok
        exact runnable_of_finish (resume_stretchOk _ site hok.2.1) hruns

theorem Owned.oneCpu (h : Owned s) : OneCpu s where
  running hl c p hc := h.running ((h.runs_iff hl c p).mpr hc)
  on_one_cpu hl p hp := by
    obtain ⟨c, hc⟩ := h.owner p hp
    refine ⟨c, (h.runs_iff hl c p).mp hc, fun d hd => ?_⟩
    exact h.unique d c p ((h.runs_iff hl d p).mpr hd) hc
  dispatch _ _ _ := h.dispatch
  not_unset c hpc := by
    have hok := h.cpu c
    rwa [CpuOk, hpc] at hok
  released c := by
    have hok := h.cpu c
    unfold CpuOk at hok
    cases hpc : (s.cpu c).pc with
    | boot | userinit | top | drawn =>
        rw [hpc] at hok
        exact hok.2.2
    | running | back =>
        rw [hpc] at hok
        exact hok.2.2
    | wild =>
        rw [hpc] at hok
        exact hok.elim
  lock_free c hpc := by
    have hok := h.cpu c
    rw [CpuOk, hpc] at hok
    exact hok.2.1

/-- **One process, one CPU**, in every reachable state. -/
theorem oneCpu_of_reach (h : (machine m n F).Reach s) : OneCpu s := (reach_inv h).owned.oneCpu

/-- Two CPUs boot; the first one dispatches the first process. -/
def firstDispatch : List (Act 2 2 ℚ) :=
  [.userinitAlloc 0 0, .userinitReady 0, .start 0, .start 1, .draw 0 0, .pass 0 0, .resumed 0]

theorem oneCpu_firstDispatch :
    ∃ s, (machine 2 2 ℚ).Reach s ∧ s.lock = none ∧ (s.proc 0).state = .running ∧ OneCpu s := by
  have hrun : ((machine 2 2 ℚ).exec (boot 2 2 ℚ) firstDispatch).map
      (fun s => (s.lock, (s.proc 0).state)) = some (none, .running) := by decide +kernel
  obtain ⟨s, hs, hat⟩ := Option.map_eq_some_iff.mp hrun
  obtain ⟨hl, hp⟩ := Prod.mk.inj hat
  exact ⟨s, ⟨_, hs⟩, hl, hp, oneCpu_of_reach ⟨_, hs⟩⟩

end Runs

end OsCourse.Sched
