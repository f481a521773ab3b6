import Mathlib.Data.Finset.Card
import Mathlib.Logic.Function.Basic

/-!
# OsCourse.Locks.Spinlock

The spinlocks of the lock kernel (`OS-lab-xv6-lock/spinlock.c`), as the calls of
one process on one CPU see them: `pushcli`, `popcli`, `holding`, `acquire` and
`release`, with `mycpu` and `myproc` of `proc.c`.

A call returns the new state or does not return at all: it panics, or it spins
for ever because the lock is taken and nobody else is there to free it. The
name of a lock and its recorded call stack are only printed and are left out.
`ncli` counts open calls and does not come near the bounds of an `int`.

The second half says what every sequence of well-bracketed calls does: `ncli`
counts the locks held and the open `pushcli` calls (`cli_balanced`).
-/

namespace OsCourse.Locks

/-- `struct spinlock`; `cpu` is the CPU that holds the lock. -/
structure Spinlock (κ : Type) where
  locked : Bool
  cpu : Option κ
  pid : Int

/-- `initlock`. -/
def initlock {κ : Type} : Spinlock κ where
  locked := false
  cpu := none
  pid := -1

/-- `setLockPid`. -/
def setLockPid {κ : Type} (lk : Spinlock κ) (pid : Int) : Spinlock κ := { lk with pid }

/-- Why a call does not return. -/
inductive Halt
  /-- `panic("mycpu called with interrupts enabled\n")`. -/
  | mycpu
  /-- `panic("popcli - interruptible")`. -/
  | popcliInterruptible
  /-- `panic("popcli")`. -/
  | popcli
  /-- `panic("acquire")`. -/
  | acquire
  /-- `panic("release")`. -/
  | release
  /-- `while(xchg(&lk->locked, 1) != 0)` on a lock nobody will free. -/
  | spin
  deriving DecidableEq, Repr

/-- `struct cpu`, and the interrupt flag of its `eflags`. -/
structure Cpu where
  ncli : Int
  intena : Bool
  flIf : Bool
  deriving DecidableEq, Repr

namespace Cpu

/-- `mycpu`: `cpus[i]` of this CPU, which the caller has at hand already. -/
def mycpu (c : Cpu) : Except Halt Unit := if c.flIf then .error .mycpu else .ok ()

/-- `pushcli`. -/
def pushcli (c : Cpu) : Cpu where
  ncli := c.ncli + 1
  intena := if c.ncli = 0 then c.flIf else c.intena
  flIf := false

/-- `popcli`. -/
def popcli (c : Cpu) : Except Halt Cpu :=
  if c.flIf then .error .popcliInterruptible
  else if c.ncli - 1 < 0 then .error .popcli
  else .ok { c with ncli := c.ncli - 1, flIf := c.ncli - 1 = 0 && c.intena }

end Cpu

/-- One CPU and the locks. -/
structure State (κ L : Type) where
  cpu : Cpu
  lock : L → Spinlock κ

variable {κ L : Type} [DecidableEq κ] [DecidableEq L]

namespace State

/-- `myproc()->pid`, for the process `pid` running on the CPU. -/
def myprocPid (pid : Int) (s : State κ L) : Except Halt (Int × State κ L) := do
  let c := s.cpu.pushcli
  c.mycpu
  let c ← c.popcli
  return (pid, { s with cpu := c })

/-- `holding`. -/
def holding (me : κ) (l : L) (s : State κ L) : Except Halt (Bool × State κ L) := do
  let c := s.cpu.pushcli
  c.mycpu
  let r := (s.lock l).locked && (s.lock l).cpu = some me
  let c ← c.popcli
  return (r, { s with cpu := c })

/-- `acquire`, by the process `pid` on the CPU `me`. -/
def acquire (me : κ) (pid : Int) (l : L) (s : State κ L) : Except Halt (State κ L) := do
  let s := { s with cpu := s.cpu.pushcli }
  let (held, s) ← s.holding me l
  let s ←
    if held then do
      let (p, s) ← s.myprocPid pid
      if p ≠ (s.lock l).pid then throw .acquire
      let c ← s.cpu.popcli
      pure { s with cpu := c }
    else if (s.lock l).locked then throw .spin
    else pure { s with lock := Function.update s.lock l { s.lock l with locked := true } }
  s.cpu.mycpu
  return { s with lock := Function.update s.lock l { s.lock l with cpu := some me } }

/-- `release`. -/
def release (me : κ) (l : L) (s : State κ L) : Except Halt (State κ L) := do
  let (held, s) ← s.holding me l
  if !held then throw .release
  let s := { s with
    lock := Function.update s.lock l { s.lock l with cpu := none, locked := false } }
  let c ← s.cpu.popcli
  return { s with cpu := c }

end State

/-- A call made by the process. -/
inductive Call (L : Type)
  | acquire (l : L)
  | release (l : L)
  | pushcli
  | popcli
  deriving DecidableEq, Repr

/-- Make one call, as the process `pid` on the CPU `me`. -/
def State.call (me : κ) (pid : Int) (s : State κ L) : Call L → Except Halt (State κ L)
  | .acquire l => s.acquire me pid l
  | .release l => s.release me l
  | .pushcli => .ok { s with cpu := s.cpu.pushcli }
  | .popcli => do
      let c ← s.cpu.popcli
      return { s with cpu := c }

/-- Make the calls one after the other. -/
def State.run (me : κ) (pid : Int) (s : State κ L) (calls : List (Call L)) :
    Except Halt (State κ L) :=
  calls.foldlM (State.call me pid) s

/-! ### The counter of one CPU -/

/-- `n` calls are open on a CPU whose interrupt flag was `f` before the first. -/
structure Cpu.Nested (f : Bool) (n : Nat) (c : Cpu) : Prop where
  ncli : c.ncli = n
  off : 0 < n → c.flIf = false ∧ c.intena = f
  on : n = 0 → c.flIf = f

namespace Cpu.Nested

variable {f : Bool} {n : Nat} {c : Cpu}

theorem pushcli (h : c.Nested f n) : c.pushcli.Nested f (n + 1) where
  ncli := by simp [Cpu.pushcli, h.ncli]
  off _ := by
    refine ⟨rfl, ?_⟩
    by_cases hn : n = 0
    · simp [Cpu.pushcli, h.ncli, hn, h.on hn]
    · simp [Cpu.pushcli, h.ncli, hn, (h.off (Nat.pos_of_ne_zero hn)).2]
  on hn := absurd hn (Nat.succ_ne_zero n)

/-- An open call is closed without a panic, and the last one restores the flag. -/
theorem popcli (h : c.Nested f (n + 1)) : ∃ d, c.popcli = .ok d ∧ d.Nested f n := by
  obtain ⟨hoff, hintena⟩ := h.off (Nat.succ_pos n)
  have hncli : c.ncli - 1 = n := by
    rw [h.ncli, Int.natCast_add, Int.natCast_one, Int.add_sub_cancel]
  refine ⟨⟨n, c.intena, n = 0 && c.intena⟩, ?_, rfl, fun hn => ⟨?_, hintena⟩, fun hn => ?_⟩
  · have hneg : ¬ (n : Int) < 0 := Int.not_lt.mpr (Int.natCast_nonneg n)
    simp [Cpu.popcli, hoff, hncli, hneg]
  · simp [Nat.pos_iff_ne_zero.mp hn]
  · simp [hn, hintena]

theorem mycpu (h : c.Nested f (n + 1)) : c.mycpu = .ok () := by
  simp [Cpu.mycpu, (h.off (Nat.succ_pos n)).1]

end Cpu.Nested

/-! ### The calls -/

namespace State

variable {me : κ} {pid : Int} {l : L} {f : Bool} {n : Nat} {s : State κ L}

omit [DecidableEq κ] [DecidableEq L] in
theorem myprocPid_eq (pid : Int) (h : s.cpu.Nested f n) :
    ∃ c, c.Nested f n ∧ s.myprocPid pid = .ok (pid, { s with cpu := c }) := by
  obtain ⟨c, hc, hn⟩ := h.pushcli.popcli
  exact ⟨c, hn, by simp [myprocPid, h.pushcli.mycpu, hc, Bind.bind, Except.bind, pure, Except.pure]⟩

omit [DecidableEq L] in
theorem holding_eq (me : κ) (l : L) (h : s.cpu.Nested f n) :
    ∃ c, c.Nested f n ∧ s.holding me l =
      .ok ((s.lock l).locked && (s.lock l).cpu = some me, { s with cpu := c }) := by
  obtain ⟨c, hc, hn⟩ := h.pushcli.popcli
  exact ⟨c, hn, by simp [holding, h.pushcli.mycpu, hc, Bind.bind, Except.bind, pure, Except.pure]⟩

/-- `acquire` of a free lock opens one more call. -/
theorem acquire_free (me : κ) (pid : Int) (l : L) (h : s.cpu.Nested f n) (hfree : (s.lock l).locked = false) :
    ∃ c, c.Nested f (n + 1) ∧ s.acquire me pid l = .ok
      { cpu := c, lock := Function.update s.lock l
          { s.lock l with locked := true, cpu := some me } } := by
  obtain ⟨c, hn, hc⟩ := holding_eq (s := { s with cpu := s.cpu.pushcli }) me l h.pushcli
  refine ⟨c, hn, ?_⟩
  simp [acquire, hc, hfree, hn.mycpu, Bind.bind, Except.bind, pure, Except.pure]

/-- `acquire` of a lock the caller holds and owns leaves the count alone. -/
theorem acquire_again (h : s.cpu.Nested f (n + 1)) (hlk : s.lock l = ⟨true, some me, pid⟩) :
    ∃ c, c.Nested f (n + 1) ∧ s.acquire me pid l = .ok { s with cpu := c } := by
  obtain ⟨c, hn, hc⟩ := holding_eq (s := { s with cpu := s.cpu.pushcli }) me l h.pushcli
  obtain ⟨d, hn', hd⟩ := myprocPid_eq (s := { s with cpu := c }) pid hn
  obtain ⟨e, he, hne⟩ := hn'.popcli
  have hsame : Function.update s.lock l ⟨true, some me, pid⟩ = s.lock := by
    rw [← hlk]
    exact Function.update_eq_self l s.lock
  refine ⟨e, hne, ?_⟩
  simp [acquire, hc, hd, he, hlk, hsame, hne.mycpu, Bind.bind, Except.bind, pure, Except.pure]

/-- `release` of a lock the caller holds closes one call. -/
theorem release_held (me : κ) (l : L) (h : s.cpu.Nested f (n + 1)) (hheld : (s.lock l).locked = true)
    (hcpu : (s.lock l).cpu = some me) :
    ∃ c, c.Nested f n ∧ s.release me l = .ok
      { cpu := c, lock := Function.update s.lock l
          { s.lock l with cpu := none, locked := false } } := by
  obtain ⟨c, hn, hc⟩ := holding_eq me l h
  obtain ⟨d, hd, hnd⟩ := hn.popcli
  refine ⟨d, hnd, ?_⟩
  simp [release, hc, hd, hheld, hcpu, Bind.bind, Except.bind, pure, Except.pure]

end State

/-! ### Bracketed sequences of calls -/

/-- What a sequence of calls leaves open: the locks held, and the number of
`pushcli` calls not yet matched by a `popcli`. -/
structure Ledger (L : Type) where
  held : Finset L
  opened : Nat

namespace Ledger

/-- Nothing is held or open. -/
def empty (L : Type) : Ledger L := ⟨∅, 0⟩

/-- The entry a call makes. -/
def after (g : Ledger L) : Call L → Ledger L
  | .acquire l => { g with held := insert l g.held }
  | .release l => { g with held := g.held.erase l }
  | .pushcli => { g with opened := g.opened + 1 }
  | .popcli => { g with opened := g.opened - 1 }

/-- A call that is well bracketed: a lock is re-acquired only by its owner
(`own`), only held locks are released, and a `popcli` has its `pushcli`. -/
def Allows (own : L → Prop) (g : Ledger L) : Call L → Prop
  | .acquire l => l ∈ g.held → own l
  | .release l => l ∈ g.held
  | .pushcli => True
  | .popcli => 0 < g.opened

/-- The calls, made from `g` on, are well bracketed. -/
def Bracketed (own : L → Prop) : Ledger L → List (Call L) → Prop
  | _, [] => True
  | g, c :: cs => g.Allows own c ∧ Bracketed own (g.after c) cs

/-- What `ncli` has to be. -/
def depth (g : Ledger L) : Nat := g.held.card + g.opened

end Ledger

/-- The state agrees with the ledger `g` of the calls made since `s₀`. -/
structure Agrees (me : κ) (s₀ : State κ L) (g : Ledger L) (s : State κ L) : Prop where
  nested : s.cpu.Nested s₀.cpu.flIf g.depth
  lock : ∀ l, s.lock l =
    if l ∈ g.held then { s₀.lock l with locked := true, cpu := some me } else s₀.lock l

/-- No call is open and no lock is held: where a sequence of calls starts. -/
structure State.Fresh (s : State κ L) : Prop where
  ncli : s.cpu.ncli = 0
  lock : ∀ l, (s.lock l).locked = false ∧ (s.lock l).cpu = none

namespace Agrees

variable {me : κ} {pid : Int} {s₀ s : State κ L} {g : Ledger L}

omit [DecidableEq κ] in
theorem refl (me : κ) (h : s₀.Fresh) : Agrees me s₀ (.empty L) s₀ where
  nested := ⟨h.ncli, fun hn => absurd hn (by simp [Ledger.depth, Ledger.empty]), fun _ => rfl⟩
  lock l := by simp [Ledger.empty]

/-- One well-bracketed call returns, and is entered in the ledger. -/
theorem call (h : Agrees me s₀ g s) (h₀ : s₀.Fresh) {c : Call L}
    (hc : g.Allows (fun l => (s₀.lock l).pid = pid) c) :
    ∃ t, s.call me pid c = .ok t ∧ Agrees me s₀ (g.after c) t := by
  cases c with
  | acquire l =>
      by_cases hl : l ∈ g.held
      · have hafter : g.after (.acquire l) = g := by
          simp [Ledger.after, Finset.insert_eq_of_mem hl]
        have hown : (s₀.lock l).pid = pid := hc hl
        have hlock : s.lock l = ⟨true, some me, pid⟩ := by
          rw [h.lock l, if_pos hl, ← hown]
        obtain ⟨n, hn⟩ := Nat.exists_eq_add_one_of_ne_zero
          (n := g.depth) (Nat.ne_of_gt (Nat.add_pos_left (Finset.card_pos.mpr ⟨l, hl⟩) _))
        have hnested := h.nested
        rw [hn] at hnested
        obtain ⟨c, hnest, heq⟩ := State.acquire_again hnested hlock
        rw [hafter]
        exact ⟨_, heq, hn ▸ hnest, h.lock⟩
      · have hlock := h.lock l
        rw [if_neg hl] at hlock
        obtain ⟨c, hnest, heq⟩ := State.acquire_free me pid l h.nested
          (by rw [hlock]; exact (h₀.lock l).1)
        refine ⟨_, heq, ?_, fun k => ?_⟩
        · have hdepth : (g.after (.acquire l)).depth = g.depth + 1 := by
            simp only [Ledger.depth, Ledger.after, Finset.card_insert_of_notMem hl]
            omega
          exact hdepth ▸ hnest
        · by_cases hk : k = l
          · subst hk
            simp [Ledger.after, hlock]
          · simpa [Ledger.after, hk] using h.lock k
  | release l =>
      have hl : l ∈ g.held := hc
      have hlock := h.lock l
      rw [if_pos hl] at hlock
      have hdepth : g.depth = (g.after (.release l)).depth + 1 := by
        have := Finset.card_erase_add_one hl
        simp only [Ledger.depth, Ledger.after]
        omega
      obtain ⟨c, hnest, heq⟩ := State.release_held me l (hdepth ▸ h.nested)
        (by rw [hlock]) (by rw [hlock])
      refine ⟨_, heq, hnest, fun k => ?_⟩
      by_cases hk : k = l
      · -- the lock is again as it was before the calls
        subst hk
        obtain ⟨hfree, hcpu⟩ := h₀.lock k
        simp [Ledger.after, hlock, ← hfree, ← hcpu]
      · simpa [Ledger.after, hk] using h.lock k
  | pushcli =>
      refine ⟨_, rfl, ?_, h.lock⟩
      exact h.nested.pushcli
  | popcli =>
      have hdepth : g.depth = (g.after .popcli).depth + 1 := by
        have hpos : 0 < g.opened := hc
        simp only [Ledger.depth, Ledger.after]
        omega
      obtain ⟨c, heq, hnest⟩ := (hdepth ▸ h.nested : s.cpu.Nested _ _).popcli
      refine ⟨{ s with cpu := c }, ?_, hnest, h.lock⟩
      simp [State.call, heq, Bind.bind, Except.bind, pure, Except.pure]

/-- Every well-bracketed sequence of calls returns, and is entered in the ledger. -/
theorem run (h : Agrees me s₀ g s) (h₀ : s₀.Fresh) {calls : List (Call L)}
    (hc : g.Bracketed (fun l => (s₀.lock l).pid = pid) calls) :
    ∃ t, s.run me pid calls = .ok t ∧ Agrees me s₀ (calls.foldl Ledger.after g) t := by
  induction calls generalizing g s with
  | nil => exact ⟨s, rfl, h⟩
  | cons c cs ih =>
      obtain ⟨t, ht, hagrees⟩ := h.call h₀ hc.1
      obtain ⟨u, hu, hagrees'⟩ := ih hagrees hc.2
      refine ⟨u, ?_, hagrees'⟩
      rw [State.run, List.foldlM_cons, ht]
      exact hu

end Agrees

namespace Ledger

variable {own : L → Prop} {l : L}

/-- Nested acquires of one lock by its owner are well bracketed, and hold it once. -/
theorem nested (own : L → Prop) (hl : own l) {g : Ledger L} (hg : l ∈ g.held) (n : Nat)
    {calls : List (Call L)} (hc : g.Bracketed own calls) :
    g.Bracketed own (List.replicate n (.acquire l) ++ calls) ∧
      (List.replicate n (Call.acquire l)).foldl after g = g := by
  have hafter : g.after (.acquire l) = g := by simp [after, Finset.insert_eq_of_mem hg]
  induction n with
  | zero => exact ⟨hc, rfl⟩
  | succ n ih =>
      rw [List.replicate_succ, List.cons_append, List.foldl_cons, hafter]
      exact ⟨⟨fun _ => hl, by rw [hafter]; exact ih.1⟩, ih.2⟩

end Ledger

/-- **Interrupt disabling stays balanced.** A well-bracketed sequence of calls
returns; `ncli` is then the number of locks held plus the open `pushcli` calls,
interrupts are off while a lock is held, and once nothing is held or open the
interrupt flag is what it was at the start. So `n` nested acquires of a lock by
its owner and one release change nothing. -/
theorem cli_balanced (me : κ) (pid : Int) (s : State κ L) (h : s.Fresh) :
    (∀ calls, Ledger.Bracketed (fun l => (s.lock l).pid = pid) (.empty L) calls →
      ∃ t, s.run me pid calls = .ok t ∧
        ∀ g, calls.foldl Ledger.after (.empty L) = g →
          (∀ l, l ∈ g.held ↔ (t.lock l).locked = true) ∧
          t.cpu.ncli = g.held.card + g.opened ∧
          (g.held.Nonempty → t.cpu.flIf = false) ∧
          (g.held = ∅ → g.opened = 0 → t.cpu.flIf = s.cpu.flIf)) ∧
    (∀ l n, (s.lock l).pid = pid → 1 ≤ n →
      ∃ t, s.run me pid (List.replicate n (.acquire l) ++ [.release l]) = .ok t ∧
        t.cpu.ncli = s.cpu.ncli ∧ t.cpu.flIf = s.cpu.flIf ∧ t.lock = s.lock) := by
  constructor
  · intro calls hcalls
    obtain ⟨t, ht, hagrees⟩ := (Agrees.refl me h).run h hcalls
    refine ⟨t, ht, ?_⟩
    rintro g rfl
    refine ⟨fun l => ?_, hagrees.nested.ncli, fun hheld => ?_, fun hheld hopened => ?_⟩
    · rw [hagrees.lock l]
      split
      · next hl => simp [hl]
      · next hl => simp [hl, (h.lock l).1]
    · exact (hagrees.nested.off (Nat.add_pos_left (Finset.card_pos.mpr hheld) _)).1
    · exact hagrees.nested.on (by rw [Ledger.depth, hheld, hopened]; rfl)
  · intro l n hl hn
    obtain ⟨m, rfl⟩ := Nat.exists_eq_add_of_le' hn
    have hmem : l ∈ ((Ledger.empty L).after (.acquire l)).held := by simp [Ledger.after]
    obtain ⟨hbracket, hfold⟩ := Ledger.nested (fun l => (s.lock l).pid = pid) hl hmem m
      (show Ledger.Bracketed _ _ [.release l] from ⟨hmem, trivial⟩)
    have hcalls : (Ledger.empty L).Bracketed (fun l => (s.lock l).pid = pid)
        (List.replicate (m + 1) (Call.acquire l) ++ [.release l]) := ⟨fun _ => hl, hbracket⟩
    obtain ⟨t, ht, hagrees⟩ := (Agrees.refl me h).run h hcalls
    -- after the release nothing is held or open
    have hempty : (List.replicate (m + 1) (Call.acquire l) ++ [Call.release l]).foldl
        Ledger.after (.empty L) = .empty L := by
      rw [List.replicate_succ, List.cons_append, List.foldl_cons, List.foldl_append, hfold]
      simp [Ledger.after, Ledger.empty]
    rw [hempty] at hagrees
    refine ⟨t, ht, ?_, hagrees.nested.on rfl, funext fun k => ?_⟩
    · rw [hagrees.nested.ncli, h.ncli]
      rfl
    · rw [hagrees.lock k, if_neg (by simp [Ledger.empty])]

/-- Two locks held in turn, one of them nested, with a `pushcli` left open over
a release. -/
theorem cli_balanced_two : ∃ t : State Unit (Fin 2),
    (State.run () 3 ⟨⟨0, false, true⟩, fun _ => setLockPid initlock 3⟩
      [.acquire 0, .acquire 1, .acquire 0, .pushcli, .release 0, .popcli, .release 1]) = .ok t ∧
      t.cpu.ncli = 0 ∧ t.cpu.flIf = true := by
  have hfresh : State.Fresh (⟨⟨0, false, true⟩, fun _ => setLockPid initlock 3⟩ :
      State Unit (Fin 2)) := ⟨rfl, fun _ => ⟨rfl, rfl⟩⟩
  obtain ⟨t, ht, hafter⟩ := (cli_balanced () 3 _ hfresh).1
    [.acquire 0, .acquire 1, .acquire 0, .pushcli, .release 0, .popcli, .release 1]
    (by simp [Ledger.Bracketed, Ledger.Allows, Ledger.after, Ledger.empty, setLockPid])
  obtain ⟨-, hncli, -, hflag⟩ := hafter (.empty (Fin 2)) (by
    simp [Ledger.after, Ledger.empty]
    decide)
  exact ⟨t, ht, hncli, hflag rfl rfl⟩

end OsCourse.Locks
