import OsCourse.Process.Effect

/-!
# OsCourse.Process.Invariant

The machine of process management keeps a family of processes (`OsCourse.Lib.Family`)
in its table. Beside the invariant of the family itself, `Inv` says

* which CPU runs which process (`Owned`);
* that a slot a `fork` or `userinit` is still setting up is `EMBRYO` and is set
  up by one of them only, and how far it has got (`Built`);
* that who sleeps in `wait` sleeps on its own slot (`Chans`).

The steps of the machine fall into a few kinds. There is one lemma for each, which
says that the invariant is kept and which step of the family it is.
-/

namespace OsCourse.Process

open Lib
open Sched (ProcState Chan)

variable {m n : Nat}

/-! ### The family in the table -/

/-- What the state of a slot means for the family. -/
def kindOf : ProcState → Kind
  | .unused => .free
  | .embryo => .embryo
  | .sleeping | .runnable | .running => .alive
  | .zombie => .zombie

/-- Sleeping inside `wait`. -/
def Sys.Waits (s : Sys m n) (p : Fin n) : Prop :=
  (s.proc p).state = .sleeping ∧ s.thread p = .wait

/-- The family of processes. -/
def family (s : Sys m n) : Family (Fin n) Int32 where
  kind i := kindOf (s.proc i).state
  pid i := (s.proc i).pid
  parent i := (s.proc i).parent
  init := s.initproc
  waiting := s.Waits
  exited := s.exited
  reaped := s.reaped

theorem kindOf_free {st : ProcState} : kindOf st = .free ↔ st = .unused := by
  cases st <;> simp [kindOf]

theorem kindOf_zombie {st : ProcState} : kindOf st = .zombie ↔ st = .zombie := by
  cases st <;> simp [kindOf]

/-! ### The invariant -/

/-- Each CPU that runs a process runs another, and these are `RUNNING`. -/
structure Owned (s : Sys m n) : Prop where
  running : ∀ c p, s.cpu c = .running p → (s.proc p).state = .running
  unique : ∀ c d p, s.cpu c = .running p → s.cpu d = .running p → c = d

/-- The slot that a `fork` is setting up. -/
def ForkPC.slot : ForkPC n → Option (Fin n)
  | .idle => none
  | .allocated np | .linked np => some np

/-- Who is setting up slot `i`: a `fork` of a process or the `userinit` of a CPU. -/
def Builds (s : Sys m n) (b : Fin n ⊕ Fin m) (i : Fin n) : Prop :=
  match b with
  | .inl p => (s.fork p).slot = some i
  | .inr c => s.cpu c = .userinit i

/-- The slots being set up. -/
structure Built (s : Sys m n) : Prop where
  embryo : ∀ b i, Builds s b i → (s.proc i).state = .embryo
  builder : ∀ b b' i, Builds s b i → Builds s b' i → b = b'
  allocated : ∀ p i, s.fork p = .allocated i → (s.proc i).parent = none
  linked : ∀ p i, s.fork p = .linked i → (s.proc i).parent = some p
  userinit : ∀ c i, s.cpu c = .userinit i → s.initproc = some i
  child : ∀ p i, (s.fork p).slot = some i → s.initproc ≠ some i

/-- Who sleeps in `wait` sleeps on its own slot. -/
def Chans (s : Sys m n) : Prop := ∀ p, s.Waits p → (s.proc p).chan = some (.proc p)

/-- The invariant of process management. -/
structure Inv (s : Sys m n) : Prop where
  owned : Owned s
  built : Built s
  chans : Chans s
  family : (family s).Inv

variable {s s' : Sys m n} {c : Fin m} {p i : Fin n}

/-- Being set up does not change while the builders and their slots stay. -/
theorem Built.mono (h : Built s) (hfork : ∀ p, s'.fork p = s.fork p ∨ s'.fork p = .idle)
    (hcpu : ∀ c i, s'.cpu c = .userinit i → s.cpu c = .userinit i) (hinit : s'.initproc = s.initproc)
    (hslot : ∀ b i, Builds s b i → Builds s' b i →
      (s'.proc i).state = .embryo ∧ (s'.proc i).parent = (s.proc i).parent) : Built s' := by
  have hkeep : ∀ {p f}, s'.fork p = f → f ≠ .idle → s.fork p = f := by
    intro p f hf hidle
    rcases hfork p with heq | heq
    · exact heq.symm.trans hf
    · exact absurd (hf.symm.trans heq) hidle
  have hslotKeep : ∀ {p i}, (s'.fork p).slot = some i → (s.fork p).slot = some i := by
    intro p i hi
    rw [hkeep rfl fun heq => by rw [heq] at hi; cases hi]
    exact hi
  have hb : ∀ {b i}, Builds s' b i → Builds s b i := by
    intro b i hi
    cases b with
    | inl p => exact hslotKeep hi
    | inr c => exact hcpu c i hi
  constructor
  · exact fun b i hi => (hslot b i (hb hi) hi).1
  · exact fun b b' i hi hi' => h.builder b b' i (hb hi) (hb hi')
  · intro p i hp
    have hp₀ := hkeep hp (by simp)
    rw [(hslot (.inl p) i (by rw [Builds, hp₀]; rfl) (by rw [Builds, hp]; rfl)).2]
    exact h.allocated p i hp₀
  · intro p i hp
    have hp₀ := hkeep hp (by simp)
    rw [(hslot (.inl p) i (by rw [Builds, hp₀]; rfl) (by rw [Builds, hp]; rfl)).2]
    exact h.linked p i hp₀
  · exact fun c i hc => hinit.trans (h.userinit c i (hcpu c i hc))
  · intro p i hp
    rw [hinit]
    exact h.child p i (hslotKeep hp)

/-- Nobody new comes to sleep in `wait`. -/
theorem Chans.mono (h : Chans s) (hw : ∀ q, s'.Waits q → s.Waits q ∧
    (s'.proc q).chan = (s.proc q).chan) : Chans s' := fun q hq => by
  rw [(hw q hq).2]
  exact h q (hw q hq).1

/-- CPUs that come to run nobody else. -/
theorem Owned.mono (h : Owned s) (hcpu : ∀ d q, s'.cpu d = .running q → s.cpu d = .running q)
    (hstate : ∀ d q, s'.cpu d = .running q → (s'.proc q).state = .running) : Owned s' where
  running := hstate
  unique d e q hd he := h.unique d e q (hcpu d q hd) (hcpu e q he)

/-! ### The kinds of steps -/

/-- A state stays, or a sleeper wakes up. -/
def Wakes (st st' : ProcState) : Prop := st' = st ∨ st = .sleeping ∧ st' = .runnable

namespace Wakes

variable {st st' st'' : ProcState}

theorem trans (h : Wakes st st') (h' : Wakes st' st'') : Wakes st st'' := by
  rcases h with rfl | ⟨hst, rfl⟩
  · exact h'
  · rcases h' with rfl | ⟨hsleep, -⟩
    · exact .inr ⟨hst, rfl⟩
    · cases hsleep

theorem kind (h : Wakes st st') : kindOf st' = kindOf st := by
  rcases h with rfl | ⟨rfl, rfl⟩
  · rfl
  · rfl

/-- Whoever was not asleep stays in its state. -/
theorem state_eq (h : Wakes st st') {x : ProcState} (hx : x ≠ .sleeping) (hst : st = x) :
    st' = x := by
  rcases h with rfl | ⟨hsleep, -⟩
  · exact hst
  · exact absurd (hst.symm.trans hsleep) hx

theorem sleeping (h : Wakes st st') (hst : st' = .sleeping) : st = .sleeping := by
  rcases h with rfl | ⟨hsleep, -⟩
  · exact hst
  · exact hsleep

end Wakes

/-- Sleepers wake up, and nothing else changes. -/
structure Stirs (x y : Proc n) : Prop where
  pid : y.pid = x.pid
  parent : y.parent = x.parent
  chan : y.chan = x.chan
  state : Wakes x.state y.state

theorem Stirs.refl (x : Proc n) : Stirs x x := ⟨rfl, rfl, rfl, .inl rfl⟩

/-- A step that keeps the invariant, and is a step of the family. -/
def Keeps (s s' : Sys m n) : Prop := Inv s' ∧ Family.Step (family s) (family s')

namespace Inv

theorem keeps (h : Inv s) (howned : Owned s') (hbuilt : Built s') (hchans : Chans s')
    (hstep : Family.Step (Process.family s) (Process.family s')) : Keeps s s' :=
  ⟨⟨howned, hbuilt, hchans, h.family.step hstep⟩, hstep⟩

/-- No CPU moves, and sleepers may wake up. -/
theorem stir (h : Inv s) {t : Table n} (ht : ∀ i, Stirs (s.proc i) (t i)) :
    Keeps s { s with proc := t } := by
  have hw : ∀ q, Sys.Waits { s with proc := t } q → s.Waits q := fun q hq =>
    ⟨(ht q).state.sleeping hq.1, hq.2⟩
  refine h.keeps ?_ ?_ ?_ ?_
  · exact h.owned.mono (fun _ _ => id) fun d q hd =>
      (ht q).state.state_eq (by simp) (h.owned.running d q hd)
  · exact h.built.mono (fun _ => .inl rfl) (fun _ _ => id) rfl fun b i hi _ =>
      ⟨(ht i).state.state_eq (by simp) (h.built.embryo b i hi), (ht i).parent⟩
  · exact h.chans.mono fun q hq => ⟨hw q hq, (ht q).chan⟩
  · exact .wake_of (funext fun i => (ht i).state.kind) (funext fun i => (ht i).pid)
      (funext fun i => (ht i).parent) rfl rfl rfl hw

/-- A CPU that runs nobody afterwards moves. -/
theorem idle (h : Inv s) {k : CpuPC n} (l : Option (Fin m)) (hrun : ∀ p, k ≠ .running p)
    (huser : ∀ p, k ≠ .userinit p) :
    Keeps s { s with lock := l, cpu := Function.update s.cpu c k } := by
  have hcpu : ∀ {d} {k' : CpuPC n}, k ≠ k' → Function.update s.cpu c k d = k' → s.cpu d = k' := by
    intro d k' hne hd
    by_cases hdc : d = c
    · subst hdc
      rw [Function.update_self] at hd
      exact absurd hd hne
    · rwa [Function.update_of_ne hdc] at hd
  refine h.keeps ?_ ?_ ?_ ?_
  · exact h.owned.mono (fun d q => hcpu (hrun q)) fun d q hd =>
      h.owned.running d q (hcpu (hrun q) hd)
  · exact h.built.mono (fun _ => .inl rfl) (fun d i => hcpu (huser i)) rfl fun b i hi _ =>
      ⟨h.built.embryo b i hi, rfl⟩
  · exact h.chans
  · exact .wake_of rfl rfl rfl rfl rfl rfl fun _ => id

end Inv

/-- CPU `c` comes to run process `p`, goes on running it or stops running it, and
nobody else runs it. -/
structure Takes (s : Sys m n) (c : Fin m) (p : Fin n) (k : CpuPC n) (st : ProcState) : Prop where
  next : k = .running p ∧ st = .running ∨ k = .back p
  other : ∀ d, d ≠ c → s.cpu d ≠ .running p

namespace Takes

variable {k : CpuPC n} {st : ProcState}

/-- Who runs whom afterwards. -/
theorem running (h : Takes s c p k st) {d : Fin m} {q : Fin n}
    (hd : Function.update s.cpu c k d = .running q) :
    d = c ∧ q = p ∧ st = .running ∨ d ≠ c ∧ q ≠ p ∧ s.cpu d = .running q := by
  by_cases hdc : d = c
  · subst hdc
    rw [Function.update_self] at hd
    rcases h.next with ⟨rfl, hrun⟩ | rfl
    · exact .inl ⟨rfl, (CpuPC.running.inj hd).symm, hrun⟩
    · cases hd
  · rw [Function.update_of_ne hdc] at hd
    exact .inr ⟨hdc, fun hq => h.other d hdc (hq ▸ hd), hd⟩

theorem userinit (h : Takes s c p k st) {d : Fin m} {q : Fin n}
    (hd : Function.update s.cpu c k d = .userinit q) : s.cpu d = .userinit q := by
  by_cases hdc : d = c
  · subst hdc
    rw [Function.update_self] at hd
    rcases h.next with ⟨rfl, -⟩ | rfl
    · cases hd
    · cases hd
  · rwa [Function.update_of_ne hdc] at hd

theorem owned {y : Proc n} (h : Takes s c p k y.state) (ho : Owned s)
    (hproc : s'.proc = Function.update s.proc p y) (hcpu : s'.cpu = Function.update s.cpu c k) :
    Owned s' := by
  refine ⟨fun d q hd => ?_, fun d e q hd he => ?_⟩
  · rw [hcpu] at hd
    rw [hproc]
    rcases h.running hd with ⟨-, rfl, hrun⟩ | ⟨-, hq, hd⟩
    · rw [Function.update_self]
      exact hrun
    · rw [Function.update_of_ne hq]
      exact ho.running d q hd
  · rw [hcpu] at hd he
    rcases h.running hd with ⟨hdc, hq, -⟩ | ⟨hdc, hq, hd⟩
    · rcases h.running he with ⟨hec, -⟩ | ⟨-, hq', -⟩
      · rw [hdc, hec]
      · exact absurd hq hq'
    · rcases h.running he with ⟨-, hq', -⟩ | ⟨-, -, he⟩
      · exact absurd hq' hq
      · exact ho.unique d e q hd he

end Takes

/-- A field that keeps its value in the slot that changes. -/
theorem field_update {α : Type} (f : Proc n → α) {t : Table n} {y : Proc n}
    (h : f y = f (t p)) : (fun i => f (Function.update t p y i)) = fun i => f (t i) := by
  funext i
  by_cases hip : i = p
  · rw [hip, Function.update_self, h]
  · rw [Function.update_of_ne hip]

namespace Inv

/-- CPU `c` moves with process `p`, whose slot becomes `y` and whose thread is at `th`. -/
theorem move (h : Inv s) {y : Proc n} {k : CpuPC n} (th : Thread) (l : Option (Fin m))
    (hx : kindOf (s.proc p).state = .alive) (hy : kindOf y.state = .alive)
    (hpid : y.pid = (s.proc p).pid) (hparent : y.parent = (s.proc p).parent)
    (htakes : Takes s c p k y.state)
    (hwait : y.state = .sleeping → th = .wait →
      y.chan = some (.proc p) ∧ (Process.family s).NoZombieChild p) :
    Keeps s { s with
      proc := Function.update s.proc p y
      thread := Function.update s.thread p th
      lock := l
      cpu := Function.update s.cpu c k } := by
  have hne : ∀ {q}, q ≠ p → Function.update s.proc p y q = s.proc q :=
    fun hq => Function.update_of_ne hq ..
  refine h.keeps (htakes.owned h.owned rfl rfl) ?_ (fun q hq => ?_) ?_
  · refine h.built.mono (fun _ => .inl rfl) (fun _ _ => htakes.userinit) rfl fun b i hi _ => ?_
    have hembryo := h.built.embryo b i hi
    have hip : i ≠ p := by
      intro heq
      rw [heq] at hembryo
      rw [hembryo] at hx
      cases hx
    simp only [hne hip]
    exact ⟨hembryo, trivial⟩
  · obtain ⟨hsleep, hth⟩ := hq
    by_cases hqp : q = p
    · subst hqp
      simp only [Function.update_self] at hsleep hth ⊢
      exact (hwait hsleep hth).1
    · simp only [hne hqp, Function.update_of_ne hqp] at hsleep hth ⊢
      exact h.chans q ⟨hsleep, hth⟩
  · have hkind := field_update (fun x => kindOf x.state) (hy.trans hx.symm)
    have hpids := field_update (fun x => x.pid) hpid
    have hparents := field_update (fun x => x.parent) hparent
    by_cases hblock : y.state = .sleeping ∧ th = .wait
    · refine .block_of (p := p) (hwait hblock.1 hblock.2).2 hkind hpids hparents rfl rfl rfl
        fun q hq => ?_
      obtain ⟨hsleep, hth⟩ := hq
      by_cases hqp : q = p
      · exact .inr hqp
      · simp only [hne hqp, Function.update_of_ne hqp] at hsleep hth
        exact .inl ⟨hsleep, hth⟩
    · refine .wake_of hkind hpids hparents rfl rfl rfl fun q hq => ?_
      obtain ⟨hsleep, hth⟩ := hq
      by_cases hqp : q = p
      · subst hqp
        simp only [Function.update_self] at hsleep hth
        exact absurd ⟨hsleep, hth⟩ hblock
      · simp only [hne hqp, Function.update_of_ne hqp] at hsleep hth
        exact ⟨hsleep, hth⟩

/-- Whoever sets up a slot in whose parent link `cur` stands is `cur` itself. -/
theorem parent_ne_of_builds (h : Inv s) {b : Fin n ⊕ Fin m} (hi : Builds s b i)
    (hidle : s.fork p = .idle) : (s.proc i).parent ≠ some p := by
  intro hparent
  cases b with
  | inl q =>
      cases hq : s.fork q with
      | idle =>
          rw [Builds, hq] at hi
          cases hi
      | allocated j =>
          rw [Builds, hq] at hi
          obtain rfl := Option.some.inj hi
          rw [h.built.allocated q j hq] at hparent
          cases hparent
      | linked j =>
          rw [Builds, hq] at hi
          obtain rfl := Option.some.inj hi
          rw [h.built.linked q j hq] at hparent
          obtain rfl := Option.some.inj hparent
          rw [hidle] at hq
          cases hq
  | inr d =>
      have hnone := h.family.initParent i (h.built.userinit d i hi)
      exact absurd (hnone.symm.trans hparent) (by simp)

end Inv

/-! ### Slots that are set up -/

/-- One slot changes, and nobody is asleep in it. -/
structure SlotStep (s s' : Sys m n) (i : Fin n) (y : Proc n) : Prop where
  proc : s'.proc = Function.update s.proc i y
  thread : ∀ q, q ≠ i → s'.thread q = s.thread q ∨ (s.proc q).state ≠ .sleeping
  before : (s.proc i).state ≠ .sleeping
  after : y.state ≠ .sleeping

namespace SlotStep

variable {y : Proc n} (h : SlotStep s s' i y)

include h

theorem self : s'.proc i = y := by rw [h.proc, Function.update_self]

theorem other {q : Fin n} (hq : q ≠ i) : s'.proc q = s.proc q := by
  rw [h.proc, Function.update_of_ne hq]

theorem waits (q : Fin n) : s'.Waits q ↔ s.Waits q := by
  by_cases hq : q = i
  · subst hq
    refine iff_of_false (fun hw => h.after ?_) fun hw => h.before hw.1
    rw [← h.self]
    exact hw.1
  · rw [Sys.Waits, Sys.Waits, h.other hq]
    rcases h.thread q hq with hth | hawake
    · rw [hth]
    · exact iff_of_false (fun hw => hawake hw.1) fun hw => hawake hw.1

theorem owned (ho : Owned s) (hidle : (s.proc i).state ≠ .running)
    (hcpu : ∀ d q, s'.cpu d = .running q → s.cpu d = .running q) :
    Owned s' := by
  refine ho.mono hcpu fun d q hd => ?_
  have hrun := ho.running d q (hcpu d q hd)
  rwa [h.other fun hq => hidle (hq ▸ hrun)]

theorem chans (hc : Chans s) : Chans s' := by
  refine hc.mono fun q hq => ⟨(h.waits q).mp hq, ?_⟩
  rw [h.other fun heq => h.before (heq ▸ ((h.waits q).mp hq).1)]

/-- The family after the step. -/
theorem family_eq : family s' = { family s with
    kind := Function.update (family s).kind i (kindOf y.state)
    pid := Function.update (family s).pid i y.pid
    parent := Function.update (family s).parent i y.parent
    init := s'.initproc
    exited := s'.exited
    reaped := s'.reaped } := by
  have happly : ∀ {α : Type} (f : Proc n → α), (fun j => f (s'.proc j)) =
      Function.update (fun j => f (s.proc j)) i (f y) := by
    intro α f
    rw [h.proc]
    exact Function.comp_update f s.proc i y
  have hw : s'.Waits = s.Waits := funext fun q => propext (h.waits q)
  simp only [family, hw]
  rw [happly fun x => kindOf x.state, happly fun x => x.pid, happly fun x => x.parent]

end SlotStep

namespace Built

/-- A free slot is taken. -/
theorem add (h : Built s) {y : Proc n} (hs : SlotStep s s' i y) (hx : (s.proc i).state = .unused)
    (hy : y.state = .embryo) (b₀ : Fin n ⊕ Fin m)
    (hb : ∀ b j, Builds s' b j → Builds s b j ∨ b = b₀ ∧ j = i)
    (hallocated : ∀ p j, s'.fork p = .allocated j → s.fork p = .allocated j ∨ y.parent = none ∧ j = i)
    (hlinked : ∀ p j, s'.fork p = .linked j → s.fork p = .linked j)
    (huser : ∀ c j, s'.cpu c = .userinit j → s'.initproc = some j)
    (hchild : ∀ p j, (s'.fork p).slot = some j → s'.initproc ≠ some j) : Built s' := by
  have hfresh : ∀ b, ¬ Builds s b i := by
    intro b hb
    rw [h.embryo b i hb] at hx
    cases hx
  constructor
  · intro b j hj
    rcases hb b j hj with hj | ⟨-, rfl⟩
    · rw [hs.other fun heq => hfresh b (heq ▸ hj)]
      exact h.embryo b j hj
    · rw [hs.self, hy]
  · intro b b' j hj hj'
    rcases hb b j hj with hj | ⟨rfl, rfl⟩
    · rcases hb b' j hj' with hj' | ⟨-, rfl⟩
      · exact h.builder b b' j hj hj'
      · exact absurd hj (hfresh b)
    · rcases hb b' j hj' with hj' | ⟨rfl, -⟩
      · exact absurd hj' (hfresh b')
      · rfl
  · intro p j hp
    rcases hallocated p j hp with hp | ⟨hnone, rfl⟩
    · have hj : Builds s (.inl p) j := by
        rw [Builds, hp]
        rfl
      rw [hs.other fun heq => hfresh _ (heq ▸ hj)]
      exact h.allocated p j hp
    · rw [hs.self, hnone]
  · intro p j hp
    have hp := hlinked p j hp
    have hj : Builds s (.inl p) j := by
      rw [Builds, hp]
      rfl
    rw [hs.other fun heq => hfresh _ (heq ▸ hj)]
    exact h.linked p j hp
  · exact huser
  · exact hchild

/-- The builder of slot `i` is done with it. -/
theorem done (h : Built s) {y : Proc n} (hs : SlotStep s s' i y) {b₀ : Fin n ⊕ Fin m}
    (hb₀ : Builds s b₀ i) (hdone : ∀ j, ¬ Builds s' b₀ j)
    (hfork : ∀ p, s'.fork p = s.fork p ∨ s'.fork p = .idle)
    (hcpu : ∀ c i, s'.cpu c = .userinit i → s.cpu c = .userinit i)
    (hinit : s'.initproc = s.initproc) : Built s' := by
  refine h.mono hfork hcpu hinit fun b j hj hj' => ?_
  have hji : j ≠ i := by
    intro heq
    subst heq
    obtain rfl := h.builder b b₀ j hj hb₀
    exact hdone j hj'
  rw [hs.other hji]
  exact ⟨h.embryo b j hj, rfl⟩

end Built

namespace Inv

/-- A process that is running has an `init` that is alive. -/
theorem init_alive (h : Inv s) (hp : (s.proc p).state = .running) :
    ∃ r, s.initproc = some r ∧ kindOf (s.proc r).state = .alive :=
  h.family.initAlive p (.inl (congrArg kindOf hp))

/-- `allocproc` in a `fork` of `p`. -/
theorem forkAlloc (h : Inv s) (hrun : (s.proc p).state = .running) (hidle : s.fork p = .idle)
    (hi : (s.proc i).state = .unused) (k : Int32) :
    Keeps s { s with
      proc := Function.update s.proc i { s.proc i with state := .embryo, pid := k }
      nextpid := s.nextpid + 1
      fork := Function.update s.fork p (.allocated i) } := by
  have hs : SlotStep s { s with
      proc := Function.update s.proc i { s.proc i with state := .embryo, pid := k }
      nextpid := s.nextpid + 1
      fork := Function.update s.fork p (.allocated i) } i
      { s.proc i with state := .embryo, pid := k } :=
    ⟨rfl, fun _ _ => .inl rfl, by simp [hi], by simp⟩
  have hslot : ∀ {q f}, Function.update s.fork p (.allocated i) q = f → s.fork q = f ∨
      q = p ∧ f = .allocated i := by
    intro q f hq
    by_cases hqp : q = p
    · subst hqp
      rw [Function.update_self] at hq
      exact .inr ⟨rfl, hq.symm⟩
    · rw [Function.update_of_ne hqp] at hq
      exact .inl hq
  obtain ⟨r, hr, halive⟩ := h.init_alive hrun
  have hir : s.initproc ≠ some i := by
    intro heq
    obtain rfl := Option.some.inj (hr.symm.trans heq)
    rw [hi] at halive
    cases halive
  have hforks : ∀ q j, (Function.update s.fork p (.allocated i) q).slot = some j →
      (s.fork q).slot = some j ∨ q = p ∧ j = i := by
    intro q j hj
    obtain hq | ⟨rfl, hq⟩ := hslot (q := q) rfl
    · rw [hq]
      exact .inl hj
    · rw [hq] at hj
      exact .inr ⟨rfl, (Option.some.inj hj).symm⟩
  refine h.keeps (hs.owned h.owned (by simp [hi]) fun _ _ => id) ?_ (hs.chans h.chans) ?_
  · refine h.built.add hs hi rfl (.inl p) (fun b j hj => ?_) (fun q j hq => ?_) (fun q j hq => ?_)
      h.built.userinit fun q j hq => ?_
    · cases b with
      | inl q =>
          rcases hforks q j hj with hj | ⟨rfl, rfl⟩
          · exact .inl hj
          · exact .inr ⟨rfl, rfl⟩
      | inr d => exact .inl hj
    · rcases hslot hq with hq | ⟨-, hq⟩
      · exact .inl hq
      · exact .inr ⟨h.family.free i (congrArg kindOf hi), ForkPC.allocated.inj hq⟩
    · rcases hslot hq with hq | ⟨-, hq⟩
      · exact hq
      · cases hq
    · rcases hforks q j hq with hq | ⟨-, rfl⟩
      · exact h.built.child q j hq
      · exact hir
  · rw [hs.family_eq]
    simp only [Process.family, Function.update_eq_self]
    exact .alloc (s := Process.family s) k (congrArg kindOf hi)

/-- `allocproc` in `userinit`. -/
theorem userinitAlloc (h : Inv s) (hinit : s.initproc = none) (hi : (s.proc i).state = .unused)
    (k : Int32) :
    Keeps s { s with
      proc := Function.update s.proc i { s.proc i with state := .embryo, pid := k }
      nextpid := s.nextpid + 1
      initproc := some i
      cpu := Function.update s.cpu c (.userinit i) } := by
  have hs : SlotStep s { s with
      proc := Function.update s.proc i { s.proc i with state := .embryo, pid := k }
      nextpid := s.nextpid + 1
      initproc := some i
      cpu := Function.update s.cpu c (.userinit i) } i
      { s.proc i with state := .embryo, pid := k } :=
    ⟨rfl, fun _ _ => .inl rfl, by simp [hi], by simp⟩
  have hcpu : ∀ {d k'}, Function.update s.cpu c (.userinit i) d = k' → s.cpu d = k' ∨
      d = c ∧ k' = .userinit i := by
    intro d k' hd
    by_cases hdc : d = c
    · subst hdc
      rw [Function.update_self] at hd
      exact .inr ⟨rfl, hd.symm⟩
    · rw [Function.update_of_ne hdc] at hd
      exact .inl hd
  have huser : ∀ d j, s.cpu d ≠ .userinit j := by
    intro d j hd
    have hsome := h.built.userinit d j hd
    rw [hinit] at hsome
    cases hsome
  -- no process runs before `init`, so that none forks
  have hfork : ∀ q j, (s.fork q).slot = some j → j ≠ i := by
    intro q j hj heq
    have hembryo := h.built.embryo (.inl q) j hj
    rw [heq, hi] at hembryo
    cases hembryo
  refine h.keeps (hs.owned h.owned (by simp [hi]) fun d q hd => ?_) ?_ (hs.chans h.chans) ?_
  · rcases hcpu hd with hd | ⟨-, hd⟩
    · exact hd
    · cases hd
  · refine h.built.add hs hi rfl (.inr c) (fun b j hj => ?_) (fun q j hq => .inl hq)
      (fun q j hq => hq) (fun d j hd => ?_) fun q j hq heq => ?_
    · cases b with
      | inl q => exact .inl hj
      | inr d =>
          rcases hcpu hj with hd | ⟨rfl, hd⟩
          · exact .inl hd
          · exact .inr ⟨rfl, CpuPC.userinit.inj hd⟩
    · rcases hcpu hd with hd | ⟨-, hd⟩
      · exact absurd hd (huser d j)
      · exact congrArg some (CpuPC.userinit.inj hd).symm
    · exact hfork q j hq (Option.some.inj heq).symm
  · rw [hs.family_eq]
    simp only [Process.family, Function.update_eq_self]
    exact .allocInit (s := Process.family s) k (congrArg kindOf hi) hinit

/-- The process in a slot that has been set up becomes `RUNNABLE`. -/
theorem ready (h : Inv s) {fork : Fin n → ForkPC n} {cpu : Fin m → CpuPC n}
    {b : Fin n ⊕ Fin m} (hb : Builds s b i)
    (hdone : ∀ j, ¬ Builds { s with fork := fork, cpu := cpu } b j)
    (hfork : ∀ p, fork p = s.fork p ∨ fork p = .idle)
    (hcpu : ∀ d k, cpu d = k → s.cpu d = k ∨ k = .boot)
    (hp : s.initproc = some i ∨ (s.proc i).parent ≠ none) :
    Keeps s { s with
      proc := s.proc.setState i .runnable
      thread := Function.update s.thread i .forkret
      fork := fork
      cpu := cpu } := by
  have hi := h.built.embryo b i hb
  have hs : SlotStep s { s with
      proc := s.proc.setState i .runnable
      thread := Function.update s.thread i .forkret
      fork := fork
      cpu := cpu } i { s.proc i with state := .runnable } :=
    ⟨rfl, fun _ hq => .inl (Function.update_of_ne hq ..), by simp [hi], by simp⟩
  have hrun : ∀ d q, cpu d = .running q → s.cpu d = .running q := fun d q hd =>
    (hcpu d _ hd).resolve_right (by simp)
  refine h.keeps (hs.owned h.owned (by simp [hi]) hrun) ?_ (hs.chans h.chans) ?_
  · exact h.built.done hs hb (fun j hj => hdone j (by cases b <;> exact hj)) hfork
      (fun d j hd => (hcpu d _ hd).resolve_right (by simp)) rfl
  · rw [hs.family_eq]
    simp only [Process.family, Function.update_eq_self]
    exact .start (s := Process.family s) (congrArg kindOf hi) hp

/-- A `fork` gives up the slot it has taken. -/
theorem forkFail (h : Inv s) (hf : s.fork p = .allocated i) :
    Keeps s { s with
      proc := s.proc.setState i .unused
      fork := Function.update s.fork p .idle } := by
  have hb₀ : Builds s (.inl p) i := by
    rw [Builds, hf]
    rfl
  have hi := h.built.embryo _ i hb₀
  have hs : SlotStep s { s with
      proc := s.proc.setState i .unused
      fork := Function.update s.fork p .idle } i { s.proc i with state := .unused } :=
    ⟨rfl, fun _ _ => .inl rfl, by simp [hi], by simp⟩
  refine h.keeps (hs.owned h.owned (by simp [hi]) fun _ _ => id) ?_ (hs.chans h.chans) ?_
  · refine h.built.done hs hb₀ (fun j hj => ?_) (fun q => ?_) (fun _ _ => id) rfl
    · simp only [Builds, Function.update_self] at hj
      cases hj
    · by_cases hq : q = p
      · subst hq
        exact .inr (Function.update_self ..)
      · exact .inl (Function.update_of_ne hq ..)
  · rw [hs.family_eq]
    simp only [Process.family, Function.update_eq_self]
    exact .abandon (s := Process.family s) (congrArg kindOf hi) (h.built.allocated p i hf)
      (h.built.child p i (by rw [hf]; rfl))

/-- A `fork` of `p` sets the parent of the slot it has taken. -/
theorem forkParent (h : Inv s) (hrun : (s.proc p).state = .running)
    (hf : s.fork p = .allocated i) :
    Keeps s { s with
      proc := Function.update s.proc i { s.proc i with parent := some p }
      fork := Function.update s.fork p (.linked i) } := by
  have hb₀ : Builds s (.inl p) i := by
    rw [Builds, hf]
    rfl
  have hi := h.built.embryo _ i hb₀
  have hchild := h.built.child p i (by rw [hf]; rfl)
  have hs : SlotStep s { s with
      proc := Function.update s.proc i { s.proc i with parent := some p }
      fork := Function.update s.fork p (.linked i) } i { s.proc i with parent := some p } :=
    ⟨rfl, fun _ _ => .inl rfl, by simp [hi], by simp [hi]⟩
  have hslot : ∀ q, (Function.update s.fork p (.linked i) q).slot = (s.fork q).slot := by
    intro q
    by_cases hq : q = p
    · subst hq
      rw [Function.update_self, hf]
      rfl
    · rw [Function.update_of_ne hq]
  have hsame : ∀ b j, Builds { s with
      proc := Function.update s.proc i { s.proc i with parent := some p }
      fork := Function.update s.fork p (.linked i) } b j ↔ Builds s b j := by
    intro b j
    cases b with
    | inl q => rw [Builds, Builds, hslot]
    | inr d => exact Iff.rfl
  have hne : ∀ {q j}, q ≠ p → (s.fork q).slot = some j → j ≠ i := by
    intro q j hq hj heq
    subst heq
    exact hq (Sum.inl.inj (h.built.builder (.inl q) (.inl p) j hj hb₀))
  refine h.keeps (hs.owned h.owned (by simp [hi]) fun _ _ => id) ⟨fun b j hj => ?_, fun b b' j hj hj' => ?_,
    fun q j hq => ?_, fun q j hq => ?_, h.built.userinit, fun q j hq => ?_⟩ (hs.chans h.chans) ?_
  · have hembryo := h.built.embryo b j ((hsame b j).mp hj)
    by_cases hji : j = i
    · subst hji
      rw [hs.self]
      exact hi
    · rwa [hs.other hji]
  · exact h.built.builder b b' j ((hsame b j).mp hj) ((hsame b' j).mp hj')
  · have hqp : q ≠ p := by
      intro heq
      subst heq
      simp only [Function.update_self] at hq
      cases hq
    simp only [Function.update_of_ne hqp] at hq
    rw [hs.other (hne hqp (by rw [hq]; rfl))]
    exact h.built.allocated q j hq
  · by_cases hqp : q = p
    · subst hqp
      simp only [Function.update_self] at hq
      obtain rfl := ForkPC.linked.inj hq
      rw [hs.self]
    · simp only [Function.update_of_ne hqp] at hq
      rw [hs.other (hne hqp (by rw [hq]; rfl))]
      exact h.built.linked q j hq
  · exact h.built.child q j ((hslot q).symm.trans hq)
  · rw [hs.family_eq]
    simp only [Process.family, Function.update_eq_self]
    exact .adopt (s := Process.family s) (congrArg kindOf hi) (congrArg kindOf hrun) hchild

end Inv

end OsCourse.Process
