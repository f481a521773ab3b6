import OsCourse.Lib.Lock
import OsCourse.Lib.Machine
import OsCourse.Locks.Spinlock

/-!
# OsCourse.Locks.Reentrant

The reentrant spinlock of the lock kernel among several CPUs
(`OS-lab-xv6-lock/spinlock.c`, used as in `reentrant()` of `proc.c`): one lock,
set up by `initlock` and `setLockPid`, any number of CPUs and processes, and
every interleaving of `acquire` and `release`, cut at their accesses to the
lock. `holding` makes two of them, as it reads `lock->locked` and `lock->cpu`.

Of `struct cpu` only `ncli` and `proc` matter here: a CPU changes to another
process while `ncli` is 0 and at no other time, since interrupts are off while
it is positive. What `pushcli` and `popcli` do to the flag itself, and that the
pairs inside `holding` and `myproc` cancel out, is in `OsCourse.Locks.Spinlock`;
of those pairs the one around the `holding` of `release` is kept, the only one
that may start from `ncli = 0`.

The lock keeps no nesting depth. A nested `acquire` leaves no trace, and one
`release` undoes all of them, as `reentrant()` has it: from the outermost
`acquire` to the next `release` the section is exclusive in every run
(`exclusive_until_release`). Under calls that nest like parentheses it is
exclusive exactly as long as no inner `release` frees the lock (`exclusive_iff`).
-/

namespace OsCourse.Locks.Reentrant

open OsCourse.Lib

/-- Where a process stands in `acquire` or `release`. -/
inductive PC
  /-- In neither. -/
  | user
  /-- `acquire`: `holding` reads `lock->locked`. -/
  | acqLocked
  /-- `acquire`: `holding` reads `lock->cpu`. -/
  | acqCpu
  /-- `acquire`, lock held: `if (myproc()->pid != lk->pid) … else …; popcli()`. -/
  | again
  /-- `while(xchg(&lk->locked, 1) != 0)`. -/
  | xchg
  /-- `lk->cpu = mycpu()`. -/
  | setCpu
  /-- `release`: `holding` reads `lock->locked`. -/
  | relLocked
  /-- `release`: `holding` reads `lock->cpu`. -/
  | relCpu
  /-- `lk->cpu = 0`. -/
  | clearCpu
  /-- `movl $0, lk->locked`. -/
  | clearLocked
  /-- `release`: `popcli()`. -/
  | popcli
  deriving DecidableEq, Repr

/-- The lock, the CPUs and the processes. `depth` and `inside` are history: how
many `acquire` calls a process has completed that no `release` of its own has
been paired with, and whether it has completed one since its last `release`. -/
structure State (n : Nat) (ρ : Type) where
  lk : Spinlock (Fin n)
  ncli : Fin n → Nat
  proc : Fin n → Option ρ
  pc : ρ → PC
  depth : ρ → Nat
  inside : ρ → Bool

/-- What a CPU does next. -/
inductive Action (n : Nat) (ρ : Type)
  /-- Its process calls `acquire`. -/
  | acquire (c : Fin n)
  /-- Its process calls `release`. -/
  | release (c : Fin n)
  /-- Its process goes on inside the call. -/
  | go (c : Fin n)
  /-- It changes to another process, or to none. -/
  | switch (c : Fin n) (o : Option ρ)

variable {n : Nat} {ρ : Type} [DecidableEq ρ]

/-- Process `p` on CPU `c` moves on to `k`, with `ncli` changed to `m`. -/
def State.goto (s : State n ρ) (c : Fin n) (p : ρ) (k : PC) (m : Nat) : State n ρ :=
  { s with pc := Function.update s.pc p k, ncli := Function.update s.ncli c m }

/-- After `initlock` and `setLockPid(&lock, pid)`, with idle CPUs. -/
def init (n : Nat) (ρ : Type) (pid : Int) : State n ρ where
  lk := setLockPid initlock pid
  ncli := fun _ => 0
  proc := fun _ => none
  pc := fun _ => .user
  depth := fun _ => 0
  inside := fun _ => false

/-- The next step of process `p`, running on CPU `c`, inside a call. -/
def go (pids : ρ → Int) (s : State n ρ) (c : Fin n) (p : ρ) : Option (State n ρ) :=
  match s.pc p with
  | .user => none
  | .acqLocked => some (s.goto c p (if s.lk.locked then .acqCpu else .xchg) (s.ncli c))
  | .acqCpu => some (s.goto c p (if s.lk.cpu = some c then .again else .xchg) (s.ncli c))
  | .again =>
      if pids p = s.lk.pid ∧ 0 < s.ncli c then some (s.goto c p .setCpu (s.ncli c - 1)) else none
  | .xchg =>
      if s.lk.locked then none
      else some { s.goto c p .setCpu (s.ncli c) with lk := { s.lk with locked := true } }
  | .setCpu =>
      some { s.goto c p .user (s.ncli c) with
        lk := { s.lk with cpu := some c }
        depth := Function.update s.depth p (s.depth p + 1)
        inside := Function.update s.inside p true }
  | .relLocked => if s.lk.locked then some (s.goto c p .relCpu (s.ncli c)) else none
  | .relCpu =>
      if s.lk.cpu = some c ∧ 0 < s.ncli c then some (s.goto c p .clearCpu (s.ncli c - 1)) else none
  | .clearCpu =>
      some { s.goto c p .clearLocked (s.ncli c) with lk := { s.lk with cpu := none } }
  | .clearLocked =>
      some { s.goto c p .popcli (s.ncli c) with
        lk := { s.lk with locked := false }
        depth := Function.update s.depth p (s.depth p - 1)
        inside := Function.update s.inside p false }
  | .popcli => if 0 < s.ncli c then some (s.goto c p .user (s.ncli c - 1)) else none

/-- One step of a CPU. Calls are bracketed: `release` is called by a process
with an `acquire` to undo. -/
def step (pids : ρ → Int) (s : State n ρ) : Action n ρ → Option (State n ρ)
  | .acquire c => (s.proc c).bind fun p =>
      if s.pc p = .user then some (s.goto c p .acqLocked (s.ncli c + 1)) else none
  | .release c => (s.proc c).bind fun p =>
      if s.pc p = .user ∧ 0 < s.depth p then some (s.goto c p .relLocked (s.ncli c + 1)) else none
  | .go c => (s.proc c).bind fun p => go pids s c p
  | .switch c o =>
      if s.ncli c = 0 ∧ ∀ q, o = some q → ∀ d, s.proc d ≠ some q then
        some { s with proc := Function.update s.proc c o }
      else none

/-- `n` CPUs and the processes of `ρ` with their pids, around one lock that
belongs to `pid`. -/
def machine (n : Nat) (pids : ρ → Int) (pid : Int) : Machine (State n ρ) (Action n ρ) where
  init := init n ρ pid
  step := step pids

/-- While a process is in the section `sec` the lock is held and no other
process is in it. -/
def Exclusive (s : State n ρ) (sec : ρ → Prop) : Prop :=
  (∀ p, sec p → s.lk.locked = true) ∧ ∀ p q, sec p → sec q → p = q

/-! ### The invariant -/

/-- How `ncli` of a CPU fits its process at point `k`, inside its section or not. -/
def Fits (k : PC) (inside : Bool) (m : Nat) : Prop :=
  match k with
  | .user => m = inside.toNat
  | .acqLocked | .acqCpu | .relLocked | .relCpu => m = 1 + inside.toNat
  | .again => inside = true ∧ m = 2
  | .xchg => inside = false ∧ m = 1
  | .setCpu => m = 1
  | .clearCpu | .clearLocked => inside = true ∧ m = 1
  | .popcli => inside = false ∧ m = 1

/-- With `ncli = 0` the process of a CPU is in user code, outside any section. -/
theorem Fits.user {k : PC} {b : Bool} (h : Fits k b 0) : k = .user ∧ b = false := by
  cases k <;> cases b <;> simp_all [Fits]

/-- Point of each process, and whether it is inside its section. -/
def State.at (s : State n ρ) (p : ρ) : PC × Bool := (s.pc p, s.inside p)

/-- The lock belongs to a process there: between its `xchg` and the write that
frees the lock. -/
def Owns (x : PC × Bool) : Prop := x.1 = .setCpu ∨ x.2 = true

/-- `lk->cpu` names the CPU of a process there. -/
def Recorded (x : PC × Bool) : Prop := x.2 = true ∧ x.1 ≠ .clearLocked

/-- The invariant. -/
structure Inv (s : State n ρ) : Prop where
  place : ∀ c d p, s.proc c = some p → s.proc d = some p → c = d
  runs : ∀ p, s.pc p ≠ .user ∨ s.inside p = true → ∃ c, s.proc c = some p
  fits : ∀ c p, s.proc c = some p → Fits (s.pc p) (s.inside p) (s.ncli c)
  owner : ∃ o, Held Owns o s.at ∧ s.lk.locked = o.isSome
  cpu : ∀ c, s.lk.cpu = some c ↔ ∃ p, s.proc c = some p ∧ Recorded (s.at p)

omit [DecidableEq ρ] in
theorem inv_init (pid : Int) : Inv (init n ρ pid) where
  place c d p hc := by simp [init] at hc
  runs p h := by simp [init] at h
  fits c p hc := by simp [init] at hc
  owner := ⟨none, fun p => by simp [init, State.at, Owns], rfl⟩
  cpu c := by simp [init, setLockPid, initlock]

theorem State.at_update {s t : State n ρ} {p : ρ} {k : PC} {b : Bool}
    (hpc : t.pc = Function.update s.pc p k) (hb : t.inside = Function.update s.inside p b) :
    t.at = Function.update s.at p (k, b) := by
  funext q
  by_cases hq : q = p
  · subst hq
    simp [State.at, hpc, hb]
  · simp [State.at, hpc, hb, hq]

theorem State.at_goto (s : State n ρ) (c : Fin n) (p : ρ) (k : PC) (m : Nat) :
    (s.goto c p k m).at = Function.update s.at p (k, s.inside p) :=
  at_update rfl (Function.update_eq_self p s.inside).symm

namespace Inv

variable {s t : State n ρ} {c : Fin n} {p : ρ} {j k : PC} {m : Nat} {b : Bool}

omit [DecidableEq ρ] in
/-- Mutual exclusion is part of the invariant. -/
theorem exclusive (h : Inv s) : Exclusive s fun p => s.inside p = true := by
  obtain ⟨o, ho, hlocked⟩ := h.owner
  refine ⟨fun p hp => ?_, fun p q hp hq => ho.unique (.inr hp) (.inr hq)⟩
  rw [hlocked, ho.holder (p := p) (.inr hp)]
  rfl

omit [DecidableEq ρ] in
/-- A process inside its section runs on the CPU that `lk->cpu` names, until
`release` clears the field. -/
theorem cpu_iff (h : Inv s) (hc : s.proc c = some p) :
    s.lk.cpu = some c ↔ s.inside p = true ∧ s.pc p ≠ .clearLocked := by
  rw [h.cpu c]
  constructor
  · intro hex
    obtain ⟨q, hq, hrec⟩ := hex
    obtain rfl : p = q := Option.some.inj (hc.symm.trans hq)
    exact hrec
  · intro hrec
    exact ⟨p, hc, hrec⟩

/-- A step of `p` on `c` keeps the invariant if what it leaves behind fits. -/
theorem move (h : Inv s) (hc : s.proc c = some p) (hproc : t.proc = s.proc)
    (hncli : t.ncli = Function.update s.ncli c m) (hat : t.at = Function.update s.at p (k, b))
    (hfits : Fits k b m) (howner : ∃ o, Held Owns o t.at ∧ t.lk.locked = o.isSome)
    (hcpu : ∀ c', t.lk.cpu = some c' ↔ ∃ q, s.proc c' = some q ∧ Recorded (t.at q)) : Inv t := by
  obtain ⟨hpc, hb⟩ : t.pc p = k ∧ t.inside p = b := by
    have := congrFun hat p
    rw [Function.update_self] at this
    exact Prod.mk.inj this
  have hother : ∀ q, q ≠ p → t.pc q = s.pc q ∧ t.inside q = s.inside q := by
    intro q hq
    have := congrFun hat q
    rw [Function.update_of_ne hq] at this
    exact Prod.mk.inj this
  refine ⟨fun c' d' q => ?_, fun q hq => ?_, fun c' q hq => ?_, howner, fun c' => ?_⟩
  · rw [hproc]
    exact h.place c' d' q
  · rw [hproc]
    by_cases hqp : q = p
    · subst hqp
      exact ⟨c, hc⟩
    · rw [(hother q hqp).1, (hother q hqp).2] at hq
      exact h.runs q hq
  · rw [hproc] at hq
    by_cases hqp : q = p
    · subst hqp
      obtain rfl := h.place c' c q hq hc
      rw [hpc, hb, hncli, Function.update_self]
      exact hfits
    · have hne : c' ≠ c := by
        rintro rfl
        exact hqp (Option.some.inj (hq.symm.trans hc))
      rw [(hother q hqp).1, (hother q hqp).2, hncli, Function.update_of_ne hne]
      exact h.fits c' q hq
  · rw [hproc]
    exact hcpu c'

/-- A step that leaves the lock and the section alone. -/
theorem quiet (h : Inv s) (hc : s.proc c = some p) (hj : s.pc p = j)
    (hfits : Fits k (s.inside p) m) (hown : Owns (k, s.inside p) ↔ Owns (j, s.inside p))
    (hrec : Recorded (k, s.inside p) ↔ Recorded (j, s.inside p)) : Inv (s.goto c p k m) := by
  have hat := s.at_goto c p k m
  have hatp : s.at p = (j, s.inside p) := by rw [State.at, hj]
  refine h.move hc rfl rfl hat hfits ?_ fun c' => ?_
  · obtain ⟨o, ho, hlocked⟩ := h.owner
    exact ⟨o, hat ▸ ho.stay hatp hown, hlocked⟩
  · refine (h.cpu c').trans (exists_congr fun q => and_congr_right fun _ => ?_)
    rw [hat]
    by_cases hqp : q = p
    · subst hqp
      rw [Function.update_self, hatp]
      exact hrec.symm
    · rw [Function.update_of_ne hqp]

/-- `xchg` on the free lock: the lock gets an owner. -/
theorem xchg (h : Inv s) (hc : s.proc c = some p) (hj : s.pc p = .xchg)
    (hfree : s.lk.locked = false) :
    Inv { s.goto c p .setCpu (s.ncli c) with lk := { s.lk with locked := true } } := by
  have hat := s.at_goto c p .setCpu (s.ncli c)
  have hfits := h.fits c p hc
  rw [hj] at hfits
  obtain ⟨o, ho, hlocked⟩ := h.owner
  obtain rfl : o = none := by simpa [hfree] using hlocked
  refine h.move hc rfl rfl hat hfits.2 ⟨some p, hat ▸ ho.acquire (.inl rfl), rfl⟩ fun c' => ?_
  refine (h.cpu c').trans (exists_congr fun q => and_congr_right fun _ => ?_)
  -- nobody is recorded, before and after
  have hnone : ¬ Recorded (s.at q) := fun hrec => ho.empty q (.inr hrec.1)
  refine iff_of_false hnone fun hrec => ?_
  obtain ⟨-, hrec⟩ | ⟨-, hrec⟩ := region_update (R := Recorded) (hat ▸ hrec)
  · exact Bool.false_ne_true (hfits.1.symm.trans hrec.1)
  · exact hnone hrec

/-- `lk->cpu = mycpu()`: the call of `acquire` is complete. -/
theorem setCpu (h : Inv s) (hc : s.proc c = some p) (hj : s.pc p = .setCpu)
    (ht : t = { s.goto c p .user (s.ncli c) with
      lk := { s.lk with cpu := some c }
      depth := Function.update s.depth p (s.depth p + 1)
      inside := Function.update s.inside p true }) : Inv t := by
  subst ht
  have hat := State.at_update (s := s)
    (t := { s.goto c p .user (s.ncli c) with
      lk := { s.lk with cpu := some c }
      depth := Function.update s.depth p (s.depth p + 1)
      inside := Function.update s.inside p true }) rfl rfl
  have hatp : s.at p = (.setCpu, s.inside p) := by rw [State.at, hj]
  have hfits := h.fits c p hc
  rw [hj] at hfits
  obtain ⟨o, ho, hlocked⟩ := h.owner
  refine h.move hc rfl rfl hat hfits ⟨o, ?_, hlocked⟩ fun c' => ?_
  · rw [hat]
    exact ho.stay hatp (iff_of_true (.inr rfl) (.inl rfl))
  · rw [hat]
    constructor
    · intro hcc
      obtain rfl : c = c' := Option.some.inj hcc
      exact ⟨p, hc, by rw [Function.update_self]; exact ⟨rfl, PC.noConfusion⟩⟩
    · intro hex
      obtain ⟨q, hq, hrec⟩ := hex
      rcases region_update hrec with ⟨rfl, -⟩ | ⟨hqp, hrec⟩
      · rw [h.place c c' q hc hq]
      · -- the lock has one owner, and that is `p`
        exact absurd (.inr hrec.1) (ho.outside (p := p) (by rw [hatp]; exact .inl rfl) hqp)

/-- `lk->cpu = 0`: no CPU is recorded any more. -/
theorem clearCpu (h : Inv s) (hc : s.proc c = some p) (hj : s.pc p = .clearCpu) :
    Inv { s.goto c p .clearLocked (s.ncli c) with lk := { s.lk with cpu := none } } := by
  have hat := s.at_goto c p .clearLocked (s.ncli c)
  have hatp : s.at p = (.clearCpu, s.inside p) := by rw [State.at, hj]
  have hfits := h.fits c p hc
  rw [hj] at hfits
  obtain ⟨o, ho, hlocked⟩ := h.owner
  refine h.move hc rfl rfl hat hfits ⟨o, hat ▸ ho.stay hatp ?_, hlocked⟩ fun c' => ?_
  · exact iff_of_true (.inr hfits.1) (.inr hfits.1)
  · refine iff_of_false (by simp) ?_
    rintro ⟨q, -, hrec⟩
    obtain ⟨-, hrec⟩ | ⟨hqp, hrec⟩ := region_update (R := Recorded) (hat ▸ hrec)
    · exact hrec.2 rfl
    · exact ho.outside (p := p) (by rw [hatp]; exact .inr hfits.1) hqp (.inr hrec.1)

/-- `movl $0, lk->locked`: the lock is free, however often it was acquired. -/
theorem clearLocked (h : Inv s) (hc : s.proc c = some p) (hj : s.pc p = .clearLocked)
    (ht : t = { s.goto c p .popcli (s.ncli c) with
      lk := { s.lk with locked := false }
      depth := Function.update s.depth p (s.depth p - 1)
      inside := Function.update s.inside p false }) : Inv t := by
  subst ht
  have hat := State.at_update (s := s)
    (t := { s.goto c p .popcli (s.ncli c) with
      lk := { s.lk with locked := false }
      depth := Function.update s.depth p (s.depth p - 1)
      inside := Function.update s.inside p false }) rfl rfl
  have hatp : s.at p = (.clearLocked, s.inside p) := by rw [State.at, hj]
  have hfits := h.fits c p hc
  rw [hj] at hfits
  obtain ⟨hinside, hncli⟩ := hfits
  obtain ⟨o, ho, hlocked⟩ := h.owner
  have hp : o = some p := ho.holder (by rw [hatp]; exact .inr hinside)
  refine h.move hc rfl rfl hat ⟨rfl, hncli⟩ ⟨none, ?_, rfl⟩ fun c' => ?_
  · rw [hat]
    exact ho.release hp (by simp [Owns])
  · refine (h.cpu c').trans (exists_congr fun q => and_congr_right fun _ => ?_)
    rw [hat]
    by_cases hqp : q = p
    · subst hqp
      rw [Function.update_self, hatp]
      simp [Recorded]
    · rw [Function.update_of_ne hqp]

omit [DecidableEq ρ] in
/-- A CPU with `ncli = 0` changes to another process: nobody inside a call or a
section is affected. -/
theorem switch (h : Inv s) {o : Option ρ} (hncli : s.ncli c = 0)
    (hidle : ∀ q, o = some q → ∀ d, s.proc d ≠ some q) :
    Inv { s with proc := Function.update s.proc c o } := by
  have hleft : ∀ p, s.proc c = some p → s.pc p = .user ∧ s.inside p = false := fun p hp =>
    (hncli ▸ h.fits c p hp).user
  have hnew : ∀ q, o = some q → s.pc q = .user ∧ s.inside q = false := by
    intro q hq
    by_contra hne
    obtain ⟨d, hd⟩ := h.runs q ((not_and_or.mp hne).imp_right (by simp))
    exact hidle q hq d hd
  have hproc : ∀ d q, Function.update s.proc c o d = some q →
      (d = c ∧ o = some q) ∨ (d ≠ c ∧ s.proc d = some q) :=
    fun d q hd => region_update (R := (· = some q)) hd
  have hout : ∀ q, s.inside q = false → ¬ Recorded (s.at q) := fun q hq hrec =>
    Bool.false_ne_true (hq.symm.trans hrec.1)
  refine ⟨fun d e q hd he => ?_, fun q hq => ?_, fun d q hd => ?_, h.owner, fun d => ?_⟩
  · rcases hproc d q hd with ⟨hdc, ho⟩ | ⟨-, hd'⟩ <;> rcases hproc e q he with ⟨hec, ho'⟩ | ⟨-, he'⟩
    · exact hdc.trans hec.symm
    · exact absurd he' (hidle q ho e)
    · exact absurd hd' (hidle q ho' d)
    · exact h.place d e q hd' he'
  · obtain ⟨d, hd⟩ := h.runs q hq
    have hdc : d ≠ c := by
      rintro rfl
      obtain ⟨hpc, hinside⟩ := hleft q hd
      exact hq.elim (fun hne => hne hpc) fun hin => Bool.false_ne_true (hinside.symm.trans hin)
    exact ⟨d, by simpa [hdc] using hd⟩
  · rcases hproc d q hd with ⟨rfl, ho⟩ | ⟨-, hd⟩
    · obtain ⟨hpc, hinside⟩ := hnew q ho
      simp [hpc, hinside, hncli, Fits]
    · exact h.fits d q hd
  · rw [h.cpu d]
    refine exists_congr fun q => and_congr_left fun hrec => ?_
    by_cases hdc : d = c
    · subst hdc
      simp only [Function.update_self]
      constructor
      · intro hq
        exact absurd hrec (hout q (hleft q hq).2)
      · intro hq
        exact absurd hrec (hout q (hnew q hq).2)
    · simp only [Function.update_of_ne hdc]

/-- A step inside a call keeps the invariant. -/
theorem go {pids : ρ → Int} (h : Inv s) (hc : s.proc c = some p) (hs : go pids s c p = some t) :
    Inv t := by
  have hfits := h.fits c p hc
  cases hj : s.pc p with
  | user => simp only [Reentrant.go, hj, reduceCtorEq] at hs
  | acqLocked =>
      simp only [Reentrant.go, hj, Option.some.injEq] at hs
      subst hs
      rw [hj] at hfits
      split
      · exact h.quiet hc hj hfits (by simp [Owns]) (by simp [Recorded])
      · next hfree =>
        -- a process inside its section finds the lock held
        have hout : s.inside p = false := by
          by_contra hne
          exact hfree (h.exclusive.1 p (by simpa using hne))
        refine h.quiet hc hj ⟨hout, ?_⟩ (by simp [Owns]) (by simp [Recorded])
        rw [show s.ncli c = 1 + (s.inside p).toNat from hfits, hout]
        rfl
  | acqCpu =>
      simp only [Reentrant.go, hj, Option.some.injEq] at hs
      subst hs
      rw [hj] at hfits
      have hcpu := h.cpu_iff hc
      rw [hj] at hcpu
      have hncli : s.ncli c = 1 + (s.inside p).toNat := hfits
      split
      · next hheld =>
        have hin := (hcpu.mp hheld).1
        exact h.quiet hc hj ⟨hin, by rw [hncli, hin]; rfl⟩ (by simp [Owns]) (by simp [Recorded])
      · next hother =>
        have hout : s.inside p = false := by
          by_contra hne
          exact hother (hcpu.mpr ⟨by simpa using hne, PC.noConfusion⟩)
        exact h.quiet hc hj ⟨hout, by rw [hncli, hout]; rfl⟩ (by simp [Owns]) (by simp [Recorded])
  | again =>
      simp only [Reentrant.go, hj, Option.ite_none_right_eq_some, Option.some.injEq] at hs
      obtain ⟨-, rfl⟩ := hs
      rw [hj] at hfits
      obtain ⟨hin, hncli⟩ := hfits
      refine h.quiet hc hj ?_ (by simp [Owns, hin]) (by simp [Recorded])
      show s.ncli c - 1 = 1
      rw [hncli]
  | xchg =>
      simp only [Reentrant.go, hj, Option.ite_none_left_eq_some, Option.some.injEq] at hs
      obtain ⟨hfree, rfl⟩ := hs
      exact h.xchg hc hj (by simpa using hfree)
  | setCpu =>
      simp only [Reentrant.go, hj, Option.some.injEq] at hs
      exact h.setCpu hc hj hs.symm
  | relLocked =>
      simp only [Reentrant.go, hj, Option.ite_none_right_eq_some, Option.some.injEq] at hs
      obtain ⟨-, rfl⟩ := hs
      rw [hj] at hfits
      exact h.quiet hc hj hfits (by simp [Owns]) (by simp [Recorded])
  | relCpu =>
      simp only [Reentrant.go, hj, Option.ite_none_right_eq_some, Option.some.injEq] at hs
      obtain ⟨⟨hheld, -⟩, rfl⟩ := hs
      rw [hj] at hfits
      have hin := ((h.cpu_iff hc).mp hheld).1
      refine h.quiet hc hj ⟨hin, ?_⟩ (by simp [Owns]) (by simp [Recorded])
      rw [show s.ncli c = 1 + (s.inside p).toNat from hfits, hin]
      rfl
  | clearCpu =>
      simp only [Reentrant.go, hj, Option.some.injEq] at hs
      exact hs ▸ h.clearCpu hc hj
  | clearLocked =>
      simp only [Reentrant.go, hj, Option.some.injEq] at hs
      exact h.clearLocked hc hj hs.symm
  | popcli =>
      simp only [Reentrant.go, hj, Option.ite_none_right_eq_some, Option.some.injEq] at hs
      obtain ⟨-, rfl⟩ := hs
      rw [hj] at hfits
      obtain ⟨hout, hncli⟩ := hfits
      refine h.quiet hc hj ?_ (by simp [Owns]) (by simp [Recorded])
      rw [hout, hncli]
      rfl

/-- Every step keeps the invariant. -/
theorem next {pids : ρ → Int} (h : Inv s) {a : Action n ρ} (hs : step pids s a = some t) :
    Inv t := by
  cases a with
  | acquire c | release c =>
      obtain ⟨p, hc, hs⟩ := Option.bind_eq_some_iff.mp hs
      rw [Option.ite_none_right_eq_some, Option.some.injEq] at hs
      obtain ⟨hj, rfl⟩ := hs
      replace hj : s.pc p = .user := by simp_all
      have hfits := h.fits c p hc
      rw [hj] at hfits
      refine h.quiet hc hj ?_ (by simp [Owns]) (by simp [Recorded])
      show s.ncli c + 1 = 1 + (s.inside p).toNat
      rw [show s.ncli c = (s.inside p).toNat from hfits, Nat.add_comm]
  | go c =>
      obtain ⟨p, hc, hs⟩ := Option.bind_eq_some_iff.mp hs
      exact h.go hc hs
  | switch c o =>
      simp only [step, Option.ite_none_right_eq_some, Option.some.injEq] at hs
      obtain ⟨⟨hncli, hidle⟩, rfl⟩ := hs
      exact h.switch hncli hidle

end Inv

/-- **A section is exclusive until its `release`.** In every reachable state the
lock is held by the one process that has completed an `acquire` since its last
`release`: no other `acquire` completes before that process releases the lock. -/
theorem exclusive_until_release (pids : ρ → Int) (pid : Int) (s : State n ρ)
    (hs : (machine n pids pid).Reach s) : Exclusive s fun p => s.inside p = true :=
  (hs.induction (inv_init pid) fun _ _ _ h hstep => h.next hstep).exclusive

/-- CPU 0 goes through `reentrant()`: five `acquire` calls and one `release`,
while CPU 1 waits for the lock and gets it. -/
theorem exclusive_until_release_two : ∃ s : State 2 (Fin 2),
    (s.inside 0 = false ∧ s.inside 1 = true) ∧ Exclusive s fun p => s.inside p = true := by
  have hrun : (((machine 2 (fun p : Fin 2 => p.val + 3) 3).exec (init 2 (Fin 2) 3)
      ([.switch 0 (some 0), .switch 1 (some 1), .acquire 0, .go 0, .go 0, .go 0, .acquire 1] ++
       (List.replicate 4 [.acquire 0, .go 0, .go 0, .go 0, .go 0]).flatten ++
       [.go 1, .go 1, .release 0, .go 0, .go 0, .go 0, .go 0, .go 0, .go 1, .go 1])).map
      fun s => (s.inside 0, s.inside 1)) = some (false, true) := by decide +kernel
  obtain ⟨s, hs, hinside⟩ := Option.map_eq_some_iff.mp hrun
  exact ⟨s, Prod.mk.inj hinside, exclusive_until_release _ 3 s ⟨_, hs⟩⟩

/-- With an inner `release` both CPUs get in: process 0 takes the lock twice
and gives it back once, and process 1 takes it. -/
theorem not_exclusive_two : ¬ ∀ s : State 2 (Fin 2),
    (machine 2 (fun p : Fin 2 => p.val + 3) 3).Reach s → Exclusive s fun p => 0 < s.depth p := by
  have hrun : (((machine 2 (fun p : Fin 2 => p.val + 3) 3).exec (init 2 (Fin 2) 3)
      ([.switch 0 (some 0), .switch 1 (some 1), .acquire 0, .go 0, .go 0, .go 0] ++
       [.acquire 0, .go 0, .go 0, .go 0, .go 0, .release 0, .go 0, .go 0, .go 0, .go 0, .go 0] ++
       [.acquire 1, .go 1, .go 1, .go 1])).map fun s => (s.depth 0, s.depth 1)) =
      some (1, 1) := by decide +kernel
  obtain ⟨s, hs, hdepth⟩ := Option.map_eq_some_iff.mp hrun
  obtain ⟨h0, h1⟩ := Prod.mk.inj hdepth
  intro hall
  have h01 := (hall s ⟨_, hs⟩).2 0 1 (by omega) (by omega)
  exact absurd h01 (by decide)

/-! ### Calls that nest like parentheses -/

/-- The step writes `lk->locked = 0` for a `release` that is not the outermost. -/
def FreesInside (s : State n ρ) : Action n ρ → Prop
  | .go c => ∃ p, s.proc c = some p ∧ s.pc p = .clearLocked ∧ 2 ≤ s.depth p
  | _ => False

/-- What a step does to the sections: nothing, unless it completes an `acquire`
or frees the lock. -/
theorem step_cases {pids : ρ → Int} {s t : State n ρ} {a : Action n ρ}
    (hs : step pids s a = some t) :
    (t.depth = s.depth ∧ t.inside = s.inside) ∨
    (∃ p, t.depth = Function.update s.depth p (s.depth p + 1) ∧
      t.inside = Function.update s.inside p true) ∨
    ∃ c p, a = .go c ∧ s.proc c = some p ∧ s.pc p = .clearLocked ∧
      t.depth = Function.update s.depth p (s.depth p - 1) ∧
      t.inside = Function.update s.inside p false := by
  cases a with
  | acquire c | release c =>
      obtain ⟨p, -, hs⟩ := Option.bind_eq_some_iff.mp hs
      rw [Option.ite_none_right_eq_some, Option.some.injEq] at hs
      obtain ⟨-, rfl⟩ := hs
      exact .inl ⟨rfl, rfl⟩
  | switch c o =>
      simp only [step, Option.ite_none_right_eq_some, Option.some.injEq] at hs
      obtain ⟨-, rfl⟩ := hs
      exact .inl ⟨rfl, rfl⟩
  | go c =>
      obtain ⟨p, hc, hs⟩ := Option.bind_eq_some_iff.mp hs
      cases hj : s.pc p with
      | user => simp only [go, hj, reduceCtorEq] at hs
      | setCpu =>
          simp only [go, hj, Option.some.injEq] at hs
          subst hs
          exact .inr (.inl ⟨p, rfl, rfl⟩)
      | clearLocked =>
          simp only [go, hj, Option.some.injEq] at hs
          subst hs
          exact .inr (.inr ⟨c, p, rfl, hc, hj, rfl, rfl⟩)
      | acqLocked | acqCpu | clearCpu =>
          simp only [go, hj, Option.some.injEq] at hs
          subst hs
          exact .inl ⟨rfl, rfl⟩
      | again | relLocked | relCpu | popcli =>
          simp only [go, hj, Option.ite_none_right_eq_some, Option.some.injEq] at hs
          obtain ⟨-, rfl⟩ := hs
          exact .inl ⟨rfl, rfl⟩
      | xchg =>
          simp only [go, hj, Option.ite_none_left_eq_some, Option.some.injEq] at hs
          obtain ⟨-, rfl⟩ := hs
          exact .inl ⟨rfl, rfl⟩

/-- Whoever has an open `acquire` is still inside its section. -/
def Kept (s : State n ρ) : Prop := ∀ p, 0 < s.depth p → s.inside p = true

theorem Kept.next {pids : ρ → Int} {s t : State n ρ} {a : Action n ρ} (h : Kept s)
    (hgood : ¬ FreesInside s a) (hs : step pids s a = some t) : Kept t := by
  intro q hq
  rcases step_cases hs with ⟨hd, hi⟩ | ⟨p, hd, hi⟩ | ⟨c, p, rfl, hc, hj, hd, hi⟩
  · rw [hi]
    exact h q (hd ▸ hq)
  · rw [hi]
    by_cases hqp : q = p
    · subst hqp
      rw [Function.update_self]
    · rw [Function.update_of_ne hqp]
      rw [hd, Function.update_of_ne hqp] at hq
      exact h q hq
  · have hdepth : s.depth p < 2 := Nat.lt_of_not_le fun hle => hgood ⟨p, hc, hj, hle⟩
    obtain ⟨-, hpos⟩ | ⟨hqp, hpos⟩ := region_update (R := (0 < ·)) (hd ▸ hq)
    · omega
    · rw [hi, Function.update_of_ne hqp]
      exact h q hpos

/-- Freeing the lock inside a section breaks exclusion at once. -/
theorem not_exclusive {pids : ρ → Int} {s t : State n ρ} {a : Action n ρ} (hbad : FreesInside s a)
    (hs : step pids s a = some t) : ¬ Exclusive t fun p => 0 < t.depth p := by
  cases a with
  | acquire c | release c | switch c o => exact hbad.elim
  | go c =>
      obtain ⟨p, hc, hj, hd⟩ := hbad
      simp only [step, hc, Option.bind_some, go, hj, Option.some.injEq] at hs
      subst hs
      intro hex
      have hlocked := hex.1 p (by simp only [Function.update_self]; omega)
      simp at hlocked

/-- Under calls that nest, the outer section is exclusive throughout a run
exactly if no `release` inside it frees the lock. -/
theorem exclusive_iff (pids : ρ → Int) (pid : Int) {as : List (Action n ρ)} {s : State n ρ}
    (h : (machine n pids pid).exec (init n ρ pid) as = some s) :
    (machine n pids pid).Always (fun s => Exclusive s fun p => 0 < s.depth p) (init n ρ pid) as ↔
      (machine n pids pid).Meets (fun s a => ¬ FreesInside s a) (init n ρ pid) as := by
  refine (machine n pids pid).exec_always_iff (I := fun s => Inv s ∧ Kept s) ?_ ?_ ?_
    ⟨inv_init pid, fun p hp => absurd hp (lt_irrefl 0)⟩ h
  · intro s hI
    obtain ⟨hlocked, hunique⟩ := hI.1.exclusive
    exact ⟨fun p hp => hlocked p (hI.2 p hp), fun p q hp hq => hunique p q (hI.2 p hp) (hI.2 q hq)⟩
  · intro s a t hI hgood hs
    exact ⟨hI.1.next hs, hI.2.next hgood hs⟩
  · intro s a t _ hbad hs
    exact not_exclusive (not_not.mp hbad) hs

end OsCourse.Locks.Reentrant
