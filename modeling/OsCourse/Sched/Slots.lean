import OsCourse.Sched.OneCpu

/-!
# OsCourse.Sched.Slots

What the steps of process management do to the identity of a slot: its `pid`,
its `killed` flag, and whether it is `UNUSED`. Most steps leave all three alone
(`SameIds`). The others are the four ways a slot is recycled, and `kill`
(`step_ids`): everything about pids and about killing is read off that.
-/

namespace OsCourse.Sched

variable {m n : Nat} {F : Type}

/-- The slot keeps its pid and its `killed` flag, and stays free or taken. -/
def SameId (x y : Proc n F) : Prop :=
  y.pid = x.pid ∧ y.killed = x.killed ∧ (y.state = .unused ↔ x.state = .unused)

/-- All slots do. -/
def SameIds (t t' : Table n F) : Prop := ∀ i, SameId (t i) (t' i)

theorem SameId.refl (x : Proc n F) : SameId x x := ⟨rfl, rfl, Iff.rfl⟩

theorem SameIds.refl (t : Table n F) : SameIds t t := fun i => .refl (t i)

theorem SameIds.trans {t t' t'' : Table n F} (h : SameIds t t') (h' : SameIds t' t'') :
    SameIds t t'' := fun i =>
  ⟨(h' i).1.trans (h i).1, (h' i).2.1.trans (h i).2.1, (h' i).2.2.trans (h i).2.2⟩

theorem sameIds_update {t : Table n F} {i : Fin n} {x : Proc n F} (h : SameId (t i) x) :
    SameIds t (Function.update t i x) := by
  intro j
  by_cases hj : j = i
  · subst hj
    rwa [Function.update_self]
  · rw [Function.update_of_ne hj]
    exact .refl (t j)

/-- `p->state = st` on a slot that is taken and stays so. -/
theorem sameIds_setState {t : Table n F} {i : Fin n} {st : ProcState}
    (hi : (t i).state ≠ .unused) (hst : st ≠ .unused) : SameIds t (t.setState i st) :=
  sameIds_update ⟨rfl, rfl, by simp [hi, hst]⟩

/-! ### The functions on the table -/

theorem wakeup1_sameIds (t : Table n F) (chan : Option (Chan n)) : SameIds t (wakeup1 t chan) := by
  intro i
  unfold wakeup1
  split_ifs with h
  · exact ⟨rfl, rfl, by simp [h.1]⟩
  · exact .refl (t i)

theorem updatePid_sameIds (t : Table n F) (pid : Int32) {g : Proc n F → Proc n F}
    (hg : ∀ p, SameId p (g p)) : SameIds t (updatePid t pid g) := by
  unfold updatePid
  split
  · exact sameIds_update (hg _)
  · exact .refl t

theorem passChildren_sameIds (cur : Fin n) (initproc : Option (Fin n)) (t : Table n F) :
    SameIds t (passChildren cur initproc t) := by
  unfold passChildren
  generalize List.finRange n = l
  induction l generalizing t with
  | nil => exact .refl t
  | cons i l ih =>
      rw [List.foldl_cons]
      refine SameIds.trans ?_ (ih _)
      have hparent : SameIds t (Function.update t i { t i with parent := initproc }) :=
        sameIds_update ⟨rfl, rfl, Iff.rfl⟩
      dsimp only
      split_ifs
      · exact hparent.trans (wakeup1_sameIds _ _)
      · exact hparent
      · exact .refl t

theorem exit_sameIds {t : Table n F} {cur : Fin n} (initproc : Option (Fin n))
    (hcur : (t cur).state ≠ .unused) : SameIds t (exit t cur initproc) := by
  have h : SameIds t (passChildren cur initproc (wakeup1 t ((t cur).parent.map .proc))) :=
    (wakeup1_sameIds _ _).trans (passChildren_sameIds _ _ _)
  exact h.trans (sameIds_setState (mt (h cur).2.2.mp hcur) (by simp))

/-- A round of `wait` reaps one `ZOMBIE`, or leaves the slots' identities alone. -/
theorem waitLoop_ids {t : Table n F} {cur : Fin n} (hcur : (t cur).state ≠ .unused) :
    (∃ i, (t i).state = .zombie ∧
      waitLoop t cur = .ret (Function.update t i (reap (t i)))) ∨
    ∃ t', SameIds t t' ∧ (waitLoop t cur = .ret t' ∨ waitLoop t cur = .sleep t') := by
  unfold waitLoop
  split
  · next i hfind =>
      have hz := List.find?_some hfind
      simp only [decide_eq_true_eq] at hz
      exact .inl ⟨i, hz.2, rfl⟩
  · split_ifs
    · exact .inr ⟨t, .refl t, .inl rfl⟩
    · have hsleep : SameIds t (Function.update t cur
          { t cur with chan := some (.proc cur), state := .sleeping }) :=
        sameIds_update ⟨rfl, rfl, by simp [hcur]⟩
      exact .inr ⟨_, hsleep, .inr rfl⟩

/-! ### The scheduler -/

/-- The stretch leaves the slots' identities alone. -/
def KeepsIds (t : Table n F) : Out n F → Prop
  | .swtch _ _ t' _ | .release t' | .skip t' => SameIds t t'
  | .unset => True

section Stretches

variable [FloatOps F] {better : Proc n F → Proc n F → Bool} (t : Table n F) (f : Flags)

omit [FloatOps F] in
theorem keepsIds_dispatch {lv : Levels} {p : Fin n} (hp : Runnable t lv p) {x : Proc n F}
    (hx : SameId (t p) x) :
    SameIds t (Table.setState (Function.update t p x) p .running) := by
  have hne : (t p).state ≠ .unused := by rw [hp.1]; simp
  refine (sameIds_update hx).trans (sameIds_setState ?_ (by simp))
  rw [Function.update_self]
  exact mt hx.2.2.mp hne

omit [FloatOps F] in
theorem passEnd_keepsIds : KeepsIds t (passEnd t f) := by
  unfold passEnd
  split_ifs <;> exact SameIds.refl t

theorem srpfPhase_keepsIds : KeepsIds t (srpfPhase t f) := by
  unfold srpfPhase
  split_ifs
  · rcases bestScan_cases srpfBetter .srpf t (List.finRange n) with ⟨hscan, -⟩ | ⟨p, hscan, hp⟩
    · rw [hscan]
      exact passEnd_keepsIds t _
    · rw [hscan]
      refine keepsIds_dispatch t hp ?_
      unfold lowerPriority
      split_ifs <;> exact ⟨rfl, rfl, Iff.rfl⟩
  · exact passEnd_keepsIds t f

theorem hrrnPhase_keepsIds : KeepsIds t (hrrnPhase better t f) := by
  unfold hrrnPhase
  split_ifs
  · rcases bestScan_cases better .hrrn t (List.finRange n) with ⟨hscan, -⟩ | ⟨p, hscan, hp⟩
    · rw [hscan]
      exact srpfPhase_keepsIds t _
    · rw [hscan]
      exact keepsIds_dispatch t hp ⟨rfl, rfl, Iff.rfl⟩
  · exact srpfPhase_keepsIds t f

theorem lotteryPhase_keepsIds (rnd : Int32) : KeepsIds t (lotteryPhase better t rnd) := by
  rcases lotteryPhase_cases better t rnd with ⟨p, hp, -, hout⟩ | ⟨-, hout⟩
  · rw [hout]
    exact sameIds_setState (by rw [hp.1]; simp) (by simp)
  · rw [hout]
    exact hrrnPhase_keepsIds t _

theorem resume_keepsIds (site : Site) : KeepsIds t (resume better site t f) := by
  cases site with
  | lottery => exact hrrnPhase_keepsIds t f
  | hrrn => exact srpfPhase_keepsIds t f
  | srpf => exact passEnd_keepsIds t f

end Stretches

/-! ### The steps -/

/-- How a step from table `t` and counter `k` may change the slots' identities. -/
inductive IdStep [FloatOps F] (s : Sys m n F) : Act m n F → Sys m n F → Prop
  /-- Not at all. -/
  | same {a s'} (ht : SameIds s.proc s'.proc) (hk : s'.nextpid = s.nextpid) : IdStep s a s'
  /-- `allocproc`, called by `userinit` or `fork`. -/
  | alloc {a s'} {c : Fin m} {ticks : UInt32} {i : Fin n}
      (ha : a = .forkAlloc c ticks ∨ a = .userinitAlloc c ticks)
      (ht : allocproc s.proc s.nextpid ticks = some (i, s'.proc))
      (hk : s'.nextpid = s.nextpid + 1) : IdStep s a s'
  /-- `wait` reaps slot `i`. -/
  | reap {a s' t i} (ht : SameIds s.proc t) (hi : (t i).state = .zombie)
      (hs : s'.proc = Function.update t i (reap (t i))) (hk : s'.nextpid = s.nextpid) :
      IdStep s a s'
  /-- `fork` gives up the slot `i` it has taken. -/
  | forkFail {s' c p i} (hp : s.current c = some p) (hf : s.forking p = some i)
      (hi : (s.proc i).state = .embryo) (hs : s'.proc = s.proc.setState i .unused)
      (hk : s'.nextpid = s.nextpid) : IdStep s (.forkFail c) s'
  /-- `kill`. -/
  | kill {s' pid} (hs : s'.proc = kill s.proc pid) (hk : s'.nextpid = s.nextpid) :
      IdStep s (.kill pid) s'

section Steps

variable {s s' : Sys m n F} {c : Fin m} {p : Fin n}

/-- The process that a CPU runs has a slot that is taken. -/
theorem Inv.taken (h : Inv s) (hp : s.current c = some p) : (s.proc p).state ≠ .unused := by
  rw [h.owned.running (runs_of_current hp)]
  simp

theorem enterSched_proc (h : (s.cpu c).Runs p) (t : Table n F) (th : Thread) :
    (s.enterSched c p t th).proc = t ∧ (s.enterSched c p t th).nextpid = s.nextpid := by
  obtain ⟨⟨site, f, hpc⟩, -⟩ := h
  simp [Sys.enterSched, hpc]

variable [FloatOps F]

omit [FloatOps F] in
theorem finish_ids {k : Cpu n} {o : Out n F} (ho : KeepsIds s.proc o) :
    SameIds s.proc (Sys.finish { s with cpu := Function.update s.cpu c k } c o).proc ∧
      (Sys.finish { s with cpu := Function.update s.cpu c k } c o).nextpid = s.nextpid := by
  cases o with
  | swtch | release | skip => exact ⟨ho, rfl⟩
  | unset => exact ⟨.refl _, rfl⟩

theorem waitRound_ids {a : Act m n F} {t : Table n F} (h : (s.cpu c).Runs p)
    (hp : (t p).state ≠ .unused) (ht : SameIds s.proc t) : IdStep s a (s.waitRound c p t) := by
  unfold Sys.waitRound
  rcases waitLoop_ids hp with ⟨i, hi, hout⟩ | ⟨t', ht', hout | hout⟩
  · rw [hout]
    exact .reap ht hi rfl rfl
  · rw [hout]
    exact .same (ht.trans ht') rfl
  · rw [hout]
    obtain ⟨hproc, hk⟩ := enterSched_proc h t' .wait
    exact .same (by rw [hproc]; exact ht.trans ht') hk

/-- **What a step does to the slots' identities.** -/
theorem step_ids (h : Inv s) {a : Act m n F} (hs : step s a = some s') : IdStep s a s' := by
  have henter : ∀ c p t th, s.current c = some p → SameIds s.proc t →
      IdStep s a (s.enterSched c p t th) := by
    intro c p t th hp ht
    obtain ⟨hproc, hk⟩ := enterSched_proc (runs_of_current hp) t th
    exact .same (by rw [hproc]; exact ht) hk
  cases effect_of_step hs with
  | userinitAlloc _ halloc => exact .alloc (.inr rfl) halloc rfl
  | @userinitReady c i hpc =>
      have hembryo := h.built.embryo (.inr c) i hpc
      exact .same (sameIds_setState (by simp [hembryo]) (by simp)) rfl
  | start | draw | forkNone | resumed => exact .same (.refl _) rfl
  | @pass c ticks rnd =>
      obtain ⟨ht, hk⟩ := finish_ids (s := s) (c := c) (lotteryPhase_keepsIds s.proc rnd)
      exact .same ht hk
  | @sched c ticks site f =>
      obtain ⟨ht, hk⟩ := finish_ids (s := s) (c := c) (resume_keepsIds s.proc f site)
      exact .same ht hk
  | resumedSleep => exact .same (sameIds_update ⟨rfl, rfl, Iff.rfl⟩) rfl
  | resumedWait _ hc =>
      refine waitRound_ids hc ?_ (sameIds_update ⟨rfl, rfl, Iff.rfl⟩)
      rw [Function.update_self]
      simp [h.owned.running hc]
  | @yield c p _ hp | @sleep c p chan _ hp =>
      exact henter c p _ _ hp (sameIds_update ⟨rfl, rfl, by simp [h.taken hp]⟩)
  | wakeup => exact .same (wakeup1_sameIds _ _) rfl
  | kill => exact .kill rfl rfl
  | forkAlloc halloc => exact .alloc (.inl rfl) halloc rfl
  | @forkFail c p i hp hi => exact .forkFail hp hi (h.built.embryo (.inl p) i hi) rfl rfl
  | forkParent => exact .same (sameIds_update ⟨rfl, rfl, Iff.rfl⟩) rfl
  | @forkReady c p i hi =>
      have hembryo := h.built.embryo (.inl p) i hi
      exact .same (sameIds_setState (by simp [hembryo]) (by simp)) rfl
  | @exit c p _ hp => exact henter c p _ _ hp (exit_sameIds _ (h.taken hp))
  | wait _ hp => exact waitRound_ids (runs_of_current hp) (h.taken hp) (.refl _)
  | setTickets | setPriority | changeQueue =>
      exact .same (updatePid_sameIds _ _ fun _ => ⟨rfl, rfl, Iff.rfl⟩) rfl

end Steps

end OsCourse.Sched
