import OsCourse.Sched.PassSpec
import OsCourse.Sched.System

/-!
# OsCourse.Sched.Ownership

The invariant that ties the process table to the CPUs. It has two parts, kept
apart because different steps touch them:

* `Owned`: the `RUNNING` slots are exactly the processes the CPUs run, one CPU
  each, and every CPU is in order with respect to `ptable.lock` and its flags
  (`CpuOk`);
* `Built`: a slot that `fork` or `userinit` is still filling in is `EMBRYO`, and
  is being filled in by one of them only. Nothing but its builder makes such a
  slot runnable or frees it.

A step of the machine moves at most one CPU, so `Owned` is kept by one lemma
about such steps (`Owned.move`), whose premises say whom the CPU comes to run
and whom it stops running. That a dispatch is only ever of a `RUNNABLE` process
is a fact about the stretches of `scheduler()` (`StretchOk`), which holds as
long as the flags are `Flags.Ok`; the flags of a suspended pass are, by `CpuOk`.
-/

namespace OsCourse.Sched

variable {m n : Nat} {F : Type}

/-! ### The invariant -/

/-- The CPU is running process `p`, and its scheduler waits for `p` to switch back. -/
def Cpu.Runs (k : Cpu n) (p : Fin n) : Prop :=
  (∃ site f, k.pc = .running site f) ∧ k.proc = some p

/-- CPU `c` with record `k` is in order. Between passes it runs nobody, does not
hold the lock and has released it as often as it took it; within a pass it
has to release it once more. -/
def CpuOk (t : Table n F) (lock : Option (Fin m)) (c : Fin m) (k : Cpu n) : Prop :=
  match k.pc with
  | .boot | .userinit _ | .top | .drawn _ =>
      k.proc = none ∧ lock ≠ some c ∧ k.acquires = k.releases
  | .running _ f =>
      (∃ p, k.proc = some p ∧ (t p).state = .running) ∧ f.Ok ∧ k.acquires = k.releases + 1
  | .back _ f => lock = some c ∧ f.Ok ∧ k.acquires = k.releases + 1
  | .wild => False

/-- The running processes and the CPUs belong together. -/
structure Owned (s : Sys m n F) : Prop where
  cpu : ∀ c, CpuOk s.proc s.lock c (s.cpu c)
  owner : ∀ p, (s.proc p).state = .running → ∃ c, (s.cpu c).Runs p
  unique : ∀ c d p, (s.cpu c).Runs p → (s.cpu d).Runs p → c = d

/-- Who is filling in slot `p`: a `fork` of a process or the `userinit` of a CPU. -/
def Builds (s : Sys m n F) (b : Fin n ⊕ Fin m) (p : Fin n) : Prop :=
  match b with
  | .inl q => s.forking q = some p
  | .inr c => (s.cpu c).pc = .userinit p

/-- Slots being filled in are `EMBRYO` and have one builder. -/
structure Built (s : Sys m n F) : Prop where
  embryo : ∀ b p, Builds s b p → (s.proc p).state = .embryo
  builder : ∀ b b' p, Builds s b p → Builds s b' p → b = b'

/-- A change of the table that starts and stops no process and leaves embryos
alone, except perhaps at the slots in `away`. -/
def CalmOff (away : Fin n → Prop) (t t' : Table n F) : Prop :=
  ∀ i, ¬ away i →
    ((t' i).state = .running ↔ (t i).state = .running) ∧
      ((t i).state = .embryo → (t' i).state = .embryo)

/-- A change of the table that starts and stops no process and leaves embryos alone. -/
abbrev Calm (t t' : Table n F) : Prop := CalmOff (fun _ => False) t t'

/-- A change of the table that starts and stops no process. -/
def SameRunning (t t' : Table n F) : Prop :=
  ∀ i, (t' i).state = .running ↔ (t i).state = .running

/-! ### The functions on the table are calm -/

theorem Calm.refl (t : Table n F) : Calm t t := fun _ _ => ⟨Iff.rfl, id⟩

theorem CalmOff.trans {away : Fin n → Prop} {t t' t'' : Table n F} (h : CalmOff away t t')
    (h' : CalmOff away t' t'') : CalmOff away t t'' := fun i hi =>
  ⟨(h' i hi).1.trans (h i hi).1, fun he => (h' i hi).2 ((h i hi).2 he)⟩

theorem Calm.off {t t' : Table n F} (h : Calm t t') (away : Fin n → Prop) : CalmOff away t t' :=
  fun i _ => h i id

theorem Calm.sameRunning {t t' : Table n F} (h : Calm t t') : SameRunning t t' :=
  fun i => (h i id).1

/-- `p->state = st` where neither the old nor the new state is `RUNNING`. -/
theorem sameRunning_setState {t : Table n F} {i : Fin n} {st : ProcState}
    (hi : (t i).state ≠ .running) (hst : st ≠ .running) : SameRunning t (t.setState i st) := by
  intro j
  by_cases hj : j = i
  · subst hj
    simp [hi, hst]
  · rw [Table.setState_of_ne t hj]

/-- Changing one slot is calm everywhere else. -/
theorem calmOff_update (t : Table n F) (i : Fin n) (x : Proc n F) :
    CalmOff (· = i) t (Function.update t i x) := by
  intro j hj
  rw [Function.update_of_ne hj]
  exact ⟨Iff.rfl, id⟩

/-- A change of one slot is calm if it is calm there. -/
theorem calm_update {t : Table n F} {i : Fin n} {x : Proc n F}
    (hr : x.state = .running ↔ (t i).state = .running)
    (he : (t i).state = .embryo → x.state = .embryo) : Calm t (Function.update t i x) := by
  intro j _
  by_cases hj : j = i
  · subst hj
    rw [Function.update_self]
    exact ⟨hr, he⟩
  · exact calmOff_update t i x j hj

/-- Changing a slot without touching its state is calm. -/
theorem calm_update_of_state {t : Table n F} {i : Fin n} {x : Proc n F}
    (hx : x.state = (t i).state) : Calm t (Function.update t i x) :=
  calm_update (by rw [hx]) (fun he => hx.trans he)

theorem wakeup1_calm (t : Table n F) (chan : Option (Chan n)) : Calm t (wakeup1 t chan) := by
  intro i _
  unfold wakeup1
  split_ifs with h
  · simp [h.1]
  · exact ⟨Iff.rfl, id⟩

theorem updatePid_calm (t : Table n F) (pid : Int32) {g : Proc n F → Proc n F}
    (hr : ∀ p, (g p).state = .running ↔ p.state = .running)
    (he : ∀ p, p.state = .embryo → (g p).state = .embryo) : Calm t (updatePid t pid g) := by
  unfold updatePid
  split
  · exact calm_update (hr _) (he _)
  · exact Calm.refl t

theorem kill_calm (t : Table n F) (pid : Int32) : Calm t (kill t pid) := by
  refine updatePid_calm t pid (fun p => ?_) (fun p he => ?_)
  · by_cases hs : p.state = .sleeping <;> simp [hs]
  · simp [he]

theorem setTickets_calm (t : Table n F) (pid tickets : Int32) :
    Calm t (setTickets t pid tickets) :=
  updatePid_calm t pid (fun _ => Iff.rfl) (fun _ => id)

theorem setPriority_calm (t : Table n F) (pid : Int32) (priority : F) :
    Calm t (setPriority t pid priority) :=
  updatePid_calm t pid (fun _ => Iff.rfl) (fun _ => id)

theorem changeQueue_calm (t : Table n F) (pid level : Int32) :
    Calm t (changeQueue t pid level) :=
  updatePid_calm t pid (fun _ => Iff.rfl) (fun _ => id)

theorem passChildren_calm (cur : Fin n) (initproc : Option (Fin n)) (t : Table n F) :
    Calm t (passChildren cur initproc t) := by
  unfold passChildren
  generalize List.finRange n = l
  induction l generalizing t with
  | nil => exact Calm.refl t
  | cons i l ih =>
      rw [List.foldl_cons]
      refine CalmOff.trans ?_ (ih _)
      dsimp only
      split_ifs
      · have hparent : Calm t (Function.update t i { t i with parent := initproc }) :=
          calm_update_of_state rfl
        exact hparent.trans (wakeup1_calm _ _)
      · exact calm_update_of_state rfl
      · exact Calm.refl t

/-- `exit` stops its caller and is calm elsewhere. -/
theorem exit_calmOff (t : Table n F) (cur : Fin n) (initproc : Option (Fin n)) :
    CalmOff (· = cur) t (exit t cur initproc) := by
  have hcalm : Calm t (passChildren cur initproc (wakeup1 t ((t cur).parent.map .proc))) :=
    (wakeup1_calm _ _).trans (passChildren_calm _ _ _)
  exact (Calm.off hcalm _).trans (calmOff_update _ _ _)

theorem exit_self (t : Table n F) (cur : Fin n) (initproc : Option (Fin n)) :
    (exit t cur initproc cur).state = .zombie := by
  simp [exit]

/-- `allocproc` turns an unused slot into an embryo and is calm. -/
theorem allocproc_spec [FloatOps F] {t t' : Table n F} {nextpid : Int32} {ticks : UInt32}
    {p : Fin n} (h : allocproc t nextpid ticks = some (p, t')) :
    (t p).state = .unused ∧ (t' p).state = .embryo ∧ Calm t t' := by
  unfold allocproc at h
  obtain ⟨i, hfind, hi⟩ := Option.map_eq_some_iff.mp h
  obtain ⟨rfl, rfl⟩ := Prod.mk.inj hi
  have hunused : (t i).state = .unused := by simpa using List.find?_some hfind
  refine ⟨hunused, by simp, calm_update ?_ ?_⟩
  · simp [hunused]
  · simp

/-- A round of `wait` ends calmly, or puts the caller to sleep. -/
theorem waitLoop_spec (t : Table n F) (cur : Fin n) :
    (∃ t', waitLoop t cur = .ret t' ∧ Calm t t') ∨
      ∃ t', waitLoop t cur = .sleep t' ∧ CalmOff (· = cur) t t' ∧ (t' cur).state = .sleeping := by
  unfold waitLoop
  split
  · next i hfind =>
      left
      have hz : (t i).state = .zombie := by
        have := List.find?_some hfind
        simp only [decide_eq_true_eq] at this
        exact this.2
      exact ⟨_, rfl, calm_update (by simp [reap, hz]) (by simp [hz])⟩
  · split_ifs
    · exact .inl ⟨t, rfl, Calm.refl t⟩
    · exact .inr ⟨_, rfl, calmOff_update _ _ _, by simp⟩

/-! ### The stretches of a pass -/

/-- What a stretch of `scheduler()` may do with the table `t`: end the pass
without touching it, or make one `RUNNABLE` process `RUNNING`. -/
def StretchOk (t : Table n F) : Out n F → Prop
  | .swtch _ p t' f =>
      (t p).state = .runnable ∧ (t' p).state = .running ∧ CalmOff (· = p) t t' ∧ f.Ok
  | .release t' => t' = t
  | .skip _ | .unset => False

/-- A dispatch: the candidate's slot is changed and made `RUNNING`. -/
theorem stretchOk_swtch {t : Table n F} {lv : Levels} {p : Fin n} (hp : Runnable t lv p)
    (site : Site) (x : Proc n F) {f : Flags} (hf : f.Ok) :
    StretchOk t (.swtch site p (Table.setState (Function.update t p x) p .running) f) := by
  refine ⟨hp.1, by simp, ?_, hf⟩
  exact (calmOff_update t p x).trans (calmOff_update _ _ _)

section Stretches

variable [FloatOps F] {better : Proc n F → Proc n F → Bool} (t : Table n F) {f : Flags}

omit [FloatOps F] in
theorem passEnd_stretchOk (hf : f.Ok) : StretchOk t (passEnd t f) := by
  rw [passEnd_of_ok hf]
  exact rfl

theorem srpfPhase_stretchOk (hf : f.Ok) : StretchOk t (srpfPhase t f) := by
  cases hh : f.isHRRNEmpty with
  | true =>
      rw [srpfPhase_of_hrrn hh]
      exact passEnd_stretchOk t hf
  | false =>
      rcases srpfPhase_cases (t := t) hh with ⟨-, hout⟩ | ⟨p, hp, hout⟩
      · rw [hout]
        exact rfl
      · rw [hout]
        exact stretchOk_swtch hp _ _ (by simp [Flags.Ok, hh])

theorem hrrnPhase_stretchOk (hf : f.Ok) : StretchOk t (hrrnPhase better t f) := by
  cases hl : f.isLotteryQEmpty with
  | true =>
      rw [hrrnPhase_of_lottery hl]
      exact srpfPhase_stretchOk t hf
  | false =>
      rcases hrrnPhase_cases better t hl with ⟨-, hout⟩ | ⟨p, hp, hout⟩
      · rw [hout]
        exact srpfPhase_stretchOk t (by simp [Flags.Ok])
      · rw [hout]
        exact stretchOk_swtch hp _ _ (by simp [Flags.Ok, hl])

theorem lotteryPhase_stretchOk (rnd : Int32) : StretchOk t (lotteryPhase better t rnd) := by
  rcases lotteryPhase_cases better t rnd with ⟨p, hp, -, hout⟩ | ⟨-, hout⟩
  · rw [hout]
    simpa using stretchOk_swtch hp .lottery (t p) (by simp [Flags.Ok])
  · rw [hout]
    exact hrrnPhase_stretchOk t (by simp [Flags.Ok])

/-- The flags a suspended pass goes on with do not bring it to the `continue`. -/
theorem resume_stretchOk (site : Site) (hf : f.Ok) :
    StretchOk t (resume better site t f) := by
  cases site with
  | lottery => exact hrrnPhase_stretchOk t hf
  | hrrn => exact srpfPhase_stretchOk t hf
  | srpf => exact passEnd_stretchOk t hf

end Stretches

/-! ### Steps of one CPU -/

namespace Owned

variable {s s' : Sys m n F}

/-- A CPU that runs `p` is the reason that `p` is `RUNNING`. -/
theorem running (h : Owned s) {c : Fin m} {p : Fin n} (hc : (s.cpu c).Runs p) :
    (s.proc p).state = .running := by
  obtain ⟨⟨site, f, hpc⟩, hproc⟩ := hc
  have hok := h.cpu c
  rw [CpuOk, hpc] at hok
  obtain ⟨⟨q, hq, hrun⟩, -⟩ := hok
  obtain rfl : q = p := Option.some.inj (hq.symm.trans hproc)
  exact hrun

/-- The record of a CPU stays in order when the lock does not come to it or
leave it and the process it runs goes on running. -/
theorem cpuOk_congr {t t' : Table n F} {lock lock' : Option (Fin m)} {c : Fin m} {k : Cpu n}
    (h : CpuOk t lock c k) (hl : lock' = some c ↔ lock = some c)
    (ht : ∀ p, k.Runs p → (t p).state = .running → (t' p).state = .running) :
    CpuOk t' lock' c k := by
  unfold CpuOk at h ⊢
  cases hpc : k.pc with
  | boot | userinit | top | drawn =>
      rw [hpc] at h
      exact ⟨h.1, fun hc => h.2.1 (hl.mp hc), h.2.2⟩
  | running site f =>
      rw [hpc] at h
      obtain ⟨⟨p, hp, hrun⟩, hf⟩ := h
      exact ⟨⟨p, hp, ht p ⟨⟨site, f, hpc⟩, hp⟩ hrun⟩, hf⟩
  | back site f =>
      rw [hpc] at h
      exact ⟨hl.mpr h.1, h.2⟩
  | wild =>
      rw [hpc] at h
      exact h

/-- **One CPU moves.** The table may change as long as the running processes
change by what the CPU stops and starts running. -/
theorem move (h : Owned s) {c : Fin m} {k : Cpu n} (hcpu : s'.cpu = Function.update s.cpu c k)
    (hl : ∀ d, d ≠ c → (s'.lock = some d ↔ s.lock = some d)) (hok : CpuOk s'.proc s'.lock c k)
    (hrun : ∀ p, (s'.proc p).state = .running ↔
      k.Runs p ∨ ((s.proc p).state = .running ∧ ¬ (s.cpu c).Runs p))
    (hnew : ∀ p, k.Runs p → (s.proc p).state = .running → (s.cpu c).Runs p) : Owned s' := by
  have hself : s'.cpu c = k := by rw [hcpu, Function.update_self]
  have hne : ∀ d, d ≠ c → s'.cpu d = s.cpu d := fun d hd => by
    rw [hcpu, Function.update_of_ne hd]
  have hother : ∀ d p, d ≠ c → (s.cpu d).Runs p → ¬ (s.cpu c).Runs p :=
    fun d p hd hdp hcp => hd (h.unique d c p hdp hcp)
  refine ⟨fun d => ?_, fun p hp => ?_, fun d e p hd he => ?_⟩
  · by_cases hd : d = c
    · subst hd
      rw [hself]
      exact hok
    · rw [hne d hd]
      refine cpuOk_congr (h.cpu d) (hl d hd) fun p hdp hp => ?_
      exact (hrun p).mpr (.inr ⟨hp, hother d p hd hdp⟩)
  · rcases (hrun p).mp hp with hc | ⟨hp, hc⟩
    · exact ⟨c, by rwa [hself]⟩
    · obtain ⟨d, hdp⟩ := h.owner p hp
      have hd : d ≠ c := by
        intro hd
        subst hd
        exact hc hdp
      exact ⟨d, by rwa [hne d hd]⟩
  · -- a CPU other than `c` that runs `p` keeps `c` from starting it
    have hkeep : ∀ d, d ≠ c → (s.cpu d).Runs p → ¬ k.Runs p := fun d hd hdp hkp =>
      hother d p hd hdp (hnew p hkp (h.running hdp))
    by_cases hdc : d = c
    · by_cases hec : e = c
      · rw [hdc, hec]
      · rw [hne e hec] at he
        rw [hdc, hself] at hd
        exact absurd hd (hkeep e hec he)
    · rw [hne d hdc] at hd
      by_cases hec : e = c
      · rw [hec, hself] at he
        exact absurd he (hkeep d hdc hd)
      · rw [hne e hec] at he
        exact h.unique d e p hd he

/-- No CPU moves, no process starts or stops. -/
theorem still (h : Owned s) (hcpu : s'.cpu = s.cpu) (hl : s'.lock = s.lock)
    (ht : SameRunning s.proc s'.proc) : Owned s' := by
  refine ⟨fun c => ?_, fun p hp => ?_, ?_⟩
  · rw [hcpu, hl]
    exact cpuOk_congr (h.cpu c) Iff.rfl fun p _ hp => (ht p).mpr hp
  · rw [hcpu]
    exact h.owner p ((ht p).mp hp)
  · rw [hcpu]
    exact h.unique

/-- A CPU that runs nobody before and after its step. -/
theorem idle (h : Owned s) {c : Fin m} {k : Cpu n} (hcpu : s'.cpu = Function.update s.cpu c k)
    (hl : ∀ d, d ≠ c → (s'.lock = some d ↔ s.lock = some d)) (hok : CpuOk s'.proc s'.lock c k)
    (ht : SameRunning s.proc s'.proc) (hidle : ∀ p, ¬ (s.cpu c).Runs p)
    (hidle' : ∀ p, ¬ k.Runs p) : Owned s' := by
  refine h.move hcpu hl hok (fun p => ?_) (fun p hp => absurd hp (hidle' p))
  rw [ht p]
  exact ⟨fun hp => .inr ⟨hp, hidle p⟩, fun hp => (hp.resolve_left (hidle' p)).1⟩

end Owned

end OsCourse.Sched
