import OsCourse.Process.Invariant

/-!
# OsCourse.Process.Children

No child is lost. Every step of process management keeps the invariant and is a
step of the family of processes (`Inv.step`): in `exit` because the parent, and
`init` if it inherits a zombie, are woken before the lock is given up, in `wait`
because it looks for zombies and goes to sleep in one critical section.
-/

namespace OsCourse.Process

open Lib
open Sched (ProcState Chan)

variable {m n : Nat} {s s' : Sys m n} {c : Fin m} {p cur : Fin n}

/-! ### The functions on the table -/

theorem wakeup1_stirs (t : Table n) (chan : Option (Chan n)) (i : Fin n) :
    Stirs (t i) (wakeup1 t chan i) := by
  unfold wakeup1
  split_ifs with h
  · exact ⟨rfl, rfl, rfl, .inr ⟨h.1, rfl⟩⟩
  · exact .refl (t i)

/-- Nobody is left asleep on the channel. -/
theorem wakeup1_awake {t : Table n} {chan : Option (Chan n)} {i : Fin n}
    (hi : (t i).chan = chan) : (wakeup1 t chan i).state ≠ .sleeping := by
  unfold wakeup1
  split_ifs with h
  · simp
  · exact fun hsleep => h ⟨hsleep, hi⟩

theorem kill_stirs (t : Table n) (pid : Int32) (i : Fin n) : Stirs (t i) (kill t pid i) := by
  unfold kill
  cases (List.finRange n).find? fun i => (t i).pid = pid with
  | none => exact .refl (t i)
  | some j =>
      by_cases hij : i = j
      · subst hij
        simp only [Function.update_self]
        refine ⟨rfl, rfl, rfl, ?_⟩
        by_cases hsleep : (t i).state = .sleeping <;> simp [Wakes, hsleep]
      · simp only [Function.update_of_ne hij]
        exact .refl (t i)

/-- The children of `cur` in the slots `l` go to `init`, which is woken if there
is a zombie among them. -/
structure Passed (cur : Fin n) (init : Option (Fin n)) (l : List (Fin n)) (t t' : Table n) :
    Prop where
  pid : ∀ i, (t' i).pid = (t i).pid
  chan : ∀ i, (t' i).chan = (t i).chan
  state : ∀ i, Wakes (t i).state (t' i).state
  parent : ∀ i, (t' i).parent =
    if i ∈ l ∧ (t i).parent = some cur then init else (t i).parent
  woken : ∀ j ∈ l, (t j).parent = some cur → (t j).state = .zombie →
    ∀ i, (t i).chan = init.map .proc → (t' i).state ≠ .sleeping

namespace Passed

variable {init : Option (Fin n)} {t t' t'' : Table n} {k : Fin n} {l : List (Fin n)}

theorem cons (hinit : init ≠ some cur) (h : Passed cur init [k] t t') (h' : Passed cur init l t' t'') :
    Passed cur init (k :: l) t t'' := by
  refine ⟨fun i => (h'.pid i).trans (h.pid i), fun i => (h'.chan i).trans (h.chan i),
    fun i => (h.state i).trans (h'.state i), fun i => ?_, fun j hj hparent hz i hi hsleep => ?_⟩
  · rw [h'.parent i, h.parent i]
    by_cases hk : i ∈ [k] ∧ (t i).parent = some cur
    · rw [if_pos hk, if_neg fun hl => hinit hl.2,
        if_pos ⟨List.mem_cons.mpr (.inl (List.mem_singleton.mp hk.1)), hk.2⟩]
    · rw [if_neg hk]
      refine if_congr ?_ rfl rfl
      rw [List.mem_cons]
      refine ⟨fun hl => ⟨.inr hl.1, hl.2⟩, fun hl => ⟨?_, hl.2⟩⟩
      exact hl.1.resolve_left fun hik => hk ⟨List.mem_singleton.mpr hik, hl.2⟩
  · have hsleep' := (h'.state i).sleeping hsleep
    rcases List.mem_cons.mp hj with rfl | hj
    · exact h.woken j (List.mem_singleton.mpr rfl) hparent hz i hi hsleep'
    · by_cases hjk : j = k
      · exact h.woken j (List.mem_singleton.mpr hjk) hparent hz i hi hsleep'
      · -- the child has not been passed on yet
        have hparent' : (t' j).parent = some cur := by
          rw [h.parent j, if_neg fun hk => hjk (List.mem_singleton.mp hk.1), hparent]
        exact h'.woken j hj hparent' ((h.state j).state_eq (by simp) hz) i ((h.chan i).trans hi) hsleep

end Passed

/-- One round of the loop of `exit` over the table. -/
theorem passChild_spec (init : Option (Fin n)) (t : Table n) (k : Fin n) :
    Passed cur init [k] t
      (if (t k).parent = some cur then
        let t := Function.update t k { t k with parent := init }
        if (t k).state = .zombie then wakeup1 t (init.map .proc) else t
      else t) := by
  have hother : ∀ {i : Fin n}, i ≠ k → i ∉ [k] := fun hi hmem => hi (List.mem_singleton.mp hmem)
  split_ifs with hk
  · have hmoved : ∀ i, (Function.update t k { t k with parent := init } i).pid = (t i).pid ∧
        (Function.update t k { t k with parent := init } i).chan = (t i).chan ∧
        (Function.update t k { t k with parent := init } i).state = (t i).state ∧
        (Function.update t k { t k with parent := init } i).parent =
          if i ∈ [k] ∧ (t i).parent = some cur then init else (t i).parent := by
      intro i
      by_cases hik : i = k
      · subst hik
        simp [hk]
      · simp [hik]
    dsimp only
    split_ifs with hz
    · have hstir := wakeup1_stirs (Function.update t k { t k with parent := init }) (init.map .proc)
      refine ⟨fun i => (hstir i).pid.trans (hmoved i).1, fun i => (hstir i).chan.trans (hmoved i).2.1,
        fun i => ?_, fun i => (hstir i).parent.trans (hmoved i).2.2.2, fun _ _ _ _ i hi => ?_⟩
      · rw [← (hmoved i).2.2.1]
        exact (hstir i).state
      · exact wakeup1_awake ((hmoved i).2.1.trans hi)
    · refine ⟨fun i => (hmoved i).1, fun i => (hmoved i).2.1, fun i => .inl (hmoved i).2.2.1,
        fun i => (hmoved i).2.2.2, fun j hj _ hjz => ?_⟩
      obtain rfl := List.mem_singleton.mp hj
      exact absurd ((hmoved j).2.2.1.trans hjz) hz
  · refine ⟨fun _ => rfl, fun _ => rfl, fun _ => .inl rfl, fun i => ?_, fun j hj hjp => ?_⟩
    · by_cases hik : i = k
      · rw [if_neg fun h => hk (hik ▸ h.2)]
      · rw [if_neg fun h => hother hik h.1]
    · obtain rfl := List.mem_singleton.mp hj
      exact absurd hjp hk

/-- The loop of `exit` over the table. -/
theorem passChildren_spec {init : Option (Fin n)} (hinit : init ≠ some cur) (t : Table n) :
    Passed cur init (List.finRange n) t (passChildren cur init t) := by
  unfold passChildren
  generalize List.finRange n = l
  induction l generalizing t with
  | nil =>
      exact ⟨fun _ => rfl, fun _ => rfl, fun _ => .inl rfl, fun i => by simp,
        fun j hj => absurd hj List.not_mem_nil⟩
  | cons k l ih =>
      rw [List.foldl_cons]
      exact (passChild_spec init t k).cons hinit (ih _)

/-- What `exit` of `cur` does to the table: all children of `cur` go to `init`;
`cur` becomes a zombie; nobody is left asleep on the slot of the parent, nor, if
`cur` had a zombie child, on that of `init`. -/
structure Exited (cur : Fin n) (init : Option (Fin n)) (t t' : Table n) : Prop where
  pid : ∀ i, (t' i).pid = (t i).pid
  chan : ∀ i, (t' i).chan = (t i).chan
  self : (t' cur).state = .zombie
  state : ∀ i, i ≠ cur → Wakes (t i).state (t' i).state
  parent : ∀ i, (t' i).parent = if (t i).parent = some cur then init else (t i).parent
  parentWoken : ∀ i, (t i).chan = (t cur).parent.map .proc → (t' i).state ≠ .sleeping
  initWoken : ∀ j, (t j).parent = some cur → (t j).state = .zombie →
    ∀ i, (t i).chan = init.map .proc → (t' i).state ≠ .sleeping

theorem exit_spec {init : Option (Fin n)} (hinit : init ≠ some cur) (t : Table n) :
    Exited cur init t (exit t cur init) := by
  have hwake := wakeup1_stirs t ((t cur).parent.map .proc)
  have hpass := passChildren_spec hinit (wakeup1 t ((t cur).parent.map .proc))
  generalize hu : passChildren cur init (wakeup1 t ((t cur).parent.map .proc)) = u at hpass
  have hself : exit t cur init cur = { u cur with state := .zombie } := by
    rw [exit, hu, Table.setState, Function.update_self]
  have hother : ∀ {i : Fin n}, i ≠ cur → exit t cur init i = u i := by
    intro i hi
    rw [exit, hu, Table.setState, Function.update_of_ne hi]
  have hfield : ∀ {α : Type} (f : Proc n → α) (i : Fin n),
      f { u cur with state := .zombie } = f (u cur) → f (exit t cur init i) = f (u i) := by
    intro α f i hf
    by_cases hi : i = cur
    · rw [hi, hself, hf]
    · rw [hother hi]
  have hasleep : ∀ i, (exit t cur init i).state = .sleeping → (u i).state = .sleeping := by
    intro i hi
    by_cases hic : i = cur
    · rw [hic, hself] at hi
      cases hi
    · rwa [hother hic] at hi
  constructor
  · intro i
    rw [hfield (fun x => x.pid) i rfl, hpass.pid i, (hwake i).pid]
  · intro i
    rw [hfield (fun x => x.chan) i rfl, hpass.chan i, (hwake i).chan]
  · rw [hself]
  · intro i hi
    rw [hother hi]
    exact (hwake i).state.trans (hpass.state i)
  · intro i
    rw [hfield (fun x => x.parent) i rfl, hpass.parent i, (hwake i).parent]
    simp only [List.mem_finRange, true_and]
  · intro i hi hsleep
    exact wakeup1_awake hi ((hpass.state i).sleeping (hasleep i hsleep))
  · intro j hj hz i hi hsleep
    have hjz : (wakeup1 t ((t cur).parent.map .proc) j).state = .zombie :=
      (hwake j).state.state_eq (by simp) hz
    exact hpass.woken j (List.mem_finRange j) ((hwake j).parent.trans hj) hjz i
      ((hwake i).chan.trans hi) (hasleep i hsleep)

/-- A round of the loop of `wait`: a zombie child is reaped; else the caller
returns, or goes to sleep on its own slot. -/
theorem waitLoop_spec (t : Table n) (cur : Fin n) :
    (∃ i, (t i).parent = some cur ∧ (t i).state = .zombie ∧
      waitLoop t cur = .reaped i (t i).pid (Function.update t i
        { t i with pid := 0, parent := none, killed := false, state := .unused })) ∨
    (∀ i, (t i).parent = some cur → (t i).state ≠ .zombie) ∧
      (waitLoop t cur = .noChild ∨ waitLoop t cur = .sleep (Function.update t cur
        { t cur with chan := some (.proc cur), state := .sleeping })) := by
  unfold waitLoop
  split
  · next i hfind =>
    have hi := List.find?_some hfind
    simp only [decide_eq_true_eq] at hi
    exact .inl ⟨i, hi.1, hi.2, rfl⟩
  · next hnone =>
    right
    refine ⟨fun i hparent hz => ?_, ?_⟩
    · have hi := List.find?_eq_none.mp hnone i (List.mem_finRange i)
      simp only [decide_eq_true_eq] at hi
      exact hi ⟨hparent, hz⟩
    · split_ifs
      · exact .inl rfl
      · exact .inr rfl

/-! ### `exit` and `wait` -/

namespace Inv

/-- The critical section of `exit`. -/
theorem exit (h : Inv s) (hc : s.cpu c = .running cur) (hidle : s.fork cur = .idle)
    (hinit : s.initproc ≠ some cur) :
    Keeps s { s.enterSched c cur (Process.exit s.proc cur s.initproc) .exit with
      exited := (cur, (s.proc cur).pid) :: s.exited } := by
  have hcur := h.owned.running c cur hc
  have ht := exit_spec hinit s.proc
  generalize Process.exit s.proc cur s.initproc = t at ht
  have hcpu : ∀ {d k}, Function.update s.cpu c (.back cur) d = k → k ≠ .back cur →
      d ≠ c ∧ s.cpu d = k := by
    intro d k hd hk
    by_cases hdc : d = c
    · subst hdc
      rw [Function.update_self] at hd
      exact absurd hd.symm hk
    · rw [Function.update_of_ne hdc] at hd
      exact ⟨hdc, hd⟩
  have hsleep : ∀ {q}, (t q).state = .sleeping → q ≠ cur ∧ (s.proc q).state = .sleeping := by
    intro q hq
    have hqc : q ≠ cur := by
      intro heq
      rw [heq, ht.self] at hq
      cases hq
    exact ⟨hqc, (ht.state q hqc).sleeping hq⟩
  have hwaits : ∀ q, Sys.Waits { s.enterSched c cur t .exit with
      exited := (cur, (s.proc cur).pid) :: s.exited } q → s.Waits q := by
    intro q hq
    obtain ⟨hqc, hsleep⟩ := hsleep hq.1
    exact ⟨hsleep, (Function.update_of_ne hqc ..).symm.trans hq.2⟩
  refine h.keeps (h.owned.mono (fun d q hd => (hcpu hd (by simp)).2) fun d q hd => ?_) ?_
    (h.chans.mono fun q hq => ⟨hwaits q hq, ht.chan q⟩) ?_
  · obtain ⟨hdc, hd⟩ := hcpu hd (by simp)
    have hqc : q ≠ cur := fun heq => hdc (h.owned.unique d c cur (heq ▸ hd) hc)
    exact (ht.state q hqc).state_eq (by simp) (h.owned.running d q hd)
  · refine h.built.mono (fun _ => .inl rfl) (fun d i hd => (hcpu hd (by simp)).2) rfl
      fun b i hi _ => ⟨?_, ?_⟩
    · have hembryo := h.built.embryo b i hi
      have hic : i ≠ cur := by
        intro heq
        rw [heq, hcur] at hembryo
        cases hembryo
      exact (ht.state i hic).state_eq (by simp) hembryo
    · exact (ht.parent i).trans (if_neg (h.parent_ne_of_builds hi hidle))
  · have hkind : (fun i => kindOf (t i).state) =
        Function.update (fun i => kindOf (s.proc i).state) cur .zombie := by
      funext i
      by_cases hic : i = cur
      · subst hic
        rw [Function.update_self, ht.self]
        rfl
      · rw [Function.update_of_ne hic]
        exact (ht.state i hic).kind
    have heq : Process.family { s.enterSched c cur t .exit with
        exited := (cur, (s.proc cur).pid) :: s.exited } = { Process.family s with
        kind := Function.update (Process.family s).kind cur .zombie
        parent := fun i => if (Process.family s).parent i = some cur then (Process.family s).init
          else (Process.family s).parent i
        waiting := Sys.Waits { s.enterSched c cur t .exit with
          exited := (cur, (s.proc cur).pid) :: s.exited }
        exited := (cur, (Process.family s).pid cur) :: (Process.family s).exited } := by
      exact Family.ext hkind (funext ht.pid) (funext ht.parent) rfl rfl rfl rfl
    rw [heq]
    refine .exit (congrArg kindOf hcur) hinit fun q hq => ⟨hwaits q hq, fun hparent => ?_,
      fun hq' j hj hz => ?_⟩
    · -- the parent has been woken
      refine ht.parentWoken q ?_ hq.1
      rw [h.chans q (hwaits q hq), show (s.proc cur).parent = some q from hparent]
      rfl
    · refine ht.initWoken j hj (kindOf_zombie.mp hz) q ?_ hq.1
      rw [h.chans q (hwaits q hq), show s.initproc = some q from hq']
      rfl

/-- The process running on `c` changes its channel, its thread, or the lock. -/
theorem own (h : Inv s) (hc : s.cpu c = .running cur) (ch : Option (Chan n)) (th : Thread)
    (l : Option (Fin m)) : Keeps s { s with
      proc := Function.update s.proc cur { s.proc cur with chan := ch }
      thread := Function.update s.thread cur th
      lock := l } := by
  have hcur := h.owned.running c cur hc
  have hmove := h.move (c := c) (p := cur) (y := { s.proc cur with chan := ch })
    (k := .running cur) th l (by rw [hcur]; rfl) (by rw [hcur]; rfl) rfl rfl
    ⟨.inl ⟨rfl, hcur⟩, fun d hd hdc => hd (h.owned.unique d c cur hdc hc)⟩ fun hsleep _ => by
      rw [show (s.proc cur).state = .sleeping from hsleep] at hcur
      cases hcur
  rwa [← hc, Function.update_eq_self] at hmove

/-- A process that CPU `c` runs calls `sched()`, and is not a zombie. -/
theorem sched (h : Inv s) (hc : s.cpu c = .running cur) {y : Proc n} {th : Thread}
    (hy : kindOf y.state = .alive) (hpid : y.pid = (s.proc cur).pid)
    (hparent : y.parent = (s.proc cur).parent)
    (hwait : y.state = .sleeping → th = .wait →
      y.chan = some (.proc cur) ∧ (Process.family s).NoZombieChild cur) :
    Keeps s (s.enterSched c cur (Function.update s.proc cur y) th) := by
  have hcur := h.owned.running c cur hc
  exact h.move _ (some c) (by rw [hcur]; rfl) hy hpid hparent
    ⟨.inr rfl, fun d hd hdc => hd (h.owned.unique d c cur hdc hc)⟩ hwait

/-- A round of the loop of `wait`. -/
theorem waitRound (h : Inv s) (hc : s.cpu c = .running cur) :
    Keeps s (s.waitRound c cur s.proc) := by
  have hcur := h.owned.running c cur hc
  unfold Sys.waitRound
  rcases waitLoop_spec s.proc cur with ⟨i, hparent, hz, hout⟩ | ⟨hnone, hout | hout⟩
  · rw [hout]
    have hs : SlotStep s { s with
        proc := Function.update s.proc i
          { s.proc i with pid := 0, parent := none, killed := false, state := .unused }
        lock := none
        thread := Function.update s.thread cur .run
        reaped := ⟨cur, i, (s.proc i).pid⟩ :: s.reaped } i
        { s.proc i with pid := 0, parent := none, killed := false, state := .unused } := by
      refine ⟨rfl, fun q _ => ?_, by simp [hz], by simp⟩
      by_cases hqc : q = cur
      · rw [hqc, hcur]
        exact .inr (by simp)
      · exact .inl (Function.update_of_ne hqc ..)
    refine h.keeps (hs.owned h.owned (by simp [hz]) fun _ _ => id) ?_ (hs.chans h.chans) ?_
    · refine h.built.mono (fun _ => .inl rfl) (fun _ _ => id) rfl fun b j hj _ => ?_
      have hembryo := h.built.embryo b j hj
      have hji : j ≠ i := by
        intro heq
        rw [heq, hz] at hembryo
        cases hembryo
      rw [hs.other hji]
      exact ⟨hembryo, rfl⟩
    · rw [hs.family_eq]
      exact .reap (s := Process.family s) 0 hparent (congrArg kindOf hz)
  · rw [hout]
    have hown := h.own hc (s.proc cur).chan .run none
    rwa [Function.update_eq_self] at hown
  · rw [hout]
    exact h.sched hc rfl rfl rfl fun _ _ => ⟨rfl, fun i hi hz =>
      hnone i hi (kindOf_zombie.mp hz)⟩

end Inv

/-! ### The steps -/

/-- A round of the loop of `wait` does not depend on where its caller was before. -/
theorem waitRound_eq (s : Sys m n) (c : Fin m) (cur : Fin n) (t : Table n) :
    s.waitRound c cur t = Sys.waitRound
      { s with proc := t, thread := Function.update s.thread cur .run } c cur t := by
  unfold Sys.waitRound Sys.enterSched
  cases waitLoop t cur with
  | reaped i pid t' => simp only [Function.update_idem]
  | noChild => simp only [Function.update_idem]
  | sleep t' => simp only [Function.update_idem]

/-- Who runs is not asleep: its channel and its thread do not matter to the family. -/
theorem family_own (hcur : (s.proc cur).state = .running) (ch : Option (Chan n)) (th : Thread)
    (l : Option (Fin m)) : family { s with
      proc := Function.update s.proc cur { s.proc cur with chan := ch }
      thread := Function.update s.thread cur th
      lock := l } = family s := by
  have hs : SlotStep s { s with
      proc := Function.update s.proc cur { s.proc cur with chan := ch }
      thread := Function.update s.thread cur th
      lock := l } cur { s.proc cur with chan := ch } :=
    ⟨rfl, fun q hq => .inl (Function.update_of_ne hq ..), by simp [hcur], by simp [hcur]⟩
  rw [hs.family_eq]
  simp only [family, Function.update_eq_self]

namespace Inv

/-- `scheduler()` goes on through the table. -/
theorem scanFrom (h : Inv s) (rest : Fin n → Bool) : Keeps s (s.scanFrom c rest) := by
  unfold Sys.scanFrom
  split
  · next i hfind =>
    have hi := List.find?_some hfind
    simp only [decide_eq_true_eq] at hi
    have hrun : (s.proc i).state = .runnable := hi.2
    have hmove := h.move (c := c) (p := i) (y := { s.proc i with state := .running })
      (k := .running i) (s.thread i) (some c) (by rw [hrun]; rfl) rfl rfl rfl
      ⟨.inl ⟨rfl, rfl⟩, fun d _ hd => ?_⟩ fun hsleep => by cases hsleep
    · rwa [Function.update_eq_self] at hmove
    · have hrun' := h.owned.running d i hd
      rw [hrun] at hrun'
      cases hrun'
  · exact h.idle none (by simp) (by simp)

/-- `wait` goes on with its loop: its channel is cleared first. -/
theorem resumedWait (h : Inv s) (hc : s.cpu c = .running p) :
    Keeps s (s.waitRound c p (Function.update s.proc p { s.proc p with chan := none })) := by
  obtain ⟨hinv, hstep⟩ := (h.own hc none .run s.lock).1.waitRound hc
  rw [family_own (h.owned.running c p hc)] at hstep
  rw [waitRound_eq]
  exact ⟨hinv, hstep⟩

/-- **Every step keeps the invariant**, and is a step of the family. -/
theorem step {a : Act m n} (h : Inv s) (hs : step s a = some s') : Keeps s s' := by
  cases effect_of_step hs with
  | userinitAlloc hinit hi => exact h.userinitAlloc hinit hi s.nextpid
  | @userinitReady c i hc =>
      have hcpu : ∀ d k, Function.update s.cpu c .boot d = k → s.cpu d = k ∨ k = .boot := by
        intro d k hd
        by_cases hdc : d = c
        · subst hdc
          rw [Function.update_self] at hd
          exact .inr hd.symm
        · rw [Function.update_of_ne hdc] at hd
          exact .inl hd
      refine h.ready (b := .inr c) hc (fun j hj => ?_) (fun _ => .inl rfl) hcpu
        (.inl (h.built.userinit c i hc))
      simp only [Builds, Function.update_self] at hj
      cases hj
  | start => exact h.idle s.lock (by simp) (by simp)
  | scan => exact h.scanFrom _
  | sched => exact h.scanFrom _
  | @resumed c p hc =>
      have hown := h.own hc (s.proc p).chan .run none
      rwa [Function.update_eq_self] at hown
  | resumedSleep hc => exact h.own hc none .run none
  | resumedWait hc => exact h.resumedWait hc
  | yield hc => exact h.sched hc rfl rfl rfl fun hsleep => by cases hsleep
  | sleep hc => exact h.sched hc rfl rfl rfl fun _ hth => by cases hth
  | wakeup => exact h.stir (wakeup1_stirs s.proc _)
  | kill => exact h.stir (kill_stirs s.proc _)
  | @forkAlloc c p i hc hf hi => exact h.forkAlloc (h.owned.running c p hc) hf hi s.nextpid
  | forkNone => exact h.stir fun i => .refl (s.proc i)
  | forkFail hf => exact h.forkFail hf
  | @forkParent c p i hc hf => exact h.forkParent (h.owned.running c p hc) hf
  | @forkReady c p i hf =>
      have hfork : ∀ q, Function.update s.fork p .idle q = s.fork q ∨
          Function.update s.fork p .idle q = .idle := by
        intro q
        by_cases hq : q = p
        · subst hq
          exact .inr (Function.update_self ..)
        · exact .inl (Function.update_of_ne hq ..)
      refine h.ready (b := .inl p) (by rw [Builds, hf]; rfl) (fun j hj => ?_) hfork
        (fun _ _ => .inl) (.inr ?_)
      · simp only [Builds, Function.update_self] at hj
        cases hj
      · rw [h.built.linked p i hf]
        exact Option.some_ne_none p
  | exit hc hf hinit => exact h.exit hc hf hinit
  | wait hc => exact h.waitRound hc

theorem boot : Inv (boot m n) := by
  have hidle : ∀ b i, ¬ Builds (Process.boot m n) b i := by
    intro b i hb
    cases b <;> cases hb
  constructor
  · constructor
    · intro c p hc
      cases hc
    · intro c d p hc
      cases hc
  · constructor
    · exact fun b i hb => absurd hb (hidle b i)
    · exact fun b _ i hb => absurd hb (hidle b i)
    · intro p i hp
      cases hp
    · intro p i hp
      cases hp
    · intro c i hc
      cases hc
    · intro p i hp
      cases hp
  · exact fun p hp => absurd hp.1 (by simp [Process.boot])
  · have heq : Process.family (Process.boot m n) = .empty 0 := by
      refine Family.ext rfl rfl rfl rfl (funext fun p => propext ?_) rfl rfl
      exact iff_of_false (fun hp => absurd hp.1 (by simp [Process.boot])) id
    rw [heq]
    exact Family.inv_empty 0

theorem reach (h : (machine m n).Reach s) : Inv s :=
  h.induction boot fun _ _ _ hI hs => (hI.step hs).1

end Inv

/-! ### No lost child -/

/-- What holds of the processes and their children. -/
structure ChildrenSafe (s : Sys m n) : Prop where
  /-- Whoever has started, but for `init`, has a parent that has not exited. -/
  parent : ∀ i, (s.proc i).state ≠ .unused → (s.proc i).state ≠ .embryo → s.initproc ≠ some i →
    ∃ p, (s.proc i).parent = some p ∧ (s.proc p).state ≠ .unused ∧ (s.proc p).state ≠ .zombie
  /-- Nobody sleeps in `wait` while it has a zombie child. -/
  wait : ∀ p i, s.Waits p → (s.proc i).parent = some p → (s.proc i).state ≠ .zombie
  /-- Every `exit` has been answered by one `wait` that returned the pid, or its
  zombie is still there. -/
  reaped : ∀ i pid, s.exited.count (i, pid) =
    (s.reaped.map fun r => (r.slot, r.pid)).count (i, pid) +
      if (s.proc i).state = .zombie ∧ (s.proc i).pid = pid then 1 else 0

/-- A zombie leaves its slot only when its parent returns its pid from `wait`. -/
def ReapedByParent (s : Sys m n) (a : Act m n) (s' : Sys m n) : Prop :=
  ∀ i, (s.proc i).state = .zombie → (s'.proc i).state ≠ .zombie →
    (s'.proc i).state = .unused ∧ ∃ c cur, (a = .wait c ∨ a = .resumed c ∧ s.thread cur = .wait) ∧
      s.cpu c = .running cur ∧ (s.proc i).parent = some cur ∧
      s'.reaped = ⟨cur, i, (s.proc i).pid⟩ :: s.reaped

/-- Only the caller of a round of the loop of `wait` is entered as one who reaped. -/
theorem caller_of_waitRound {t : Table n} {r : Reap (Fin n) Int32}
    (hr : (s.waitRound c cur t).reaped = r :: s.reaped) : r.caller = cur := by
  unfold Sys.waitRound at hr
  cases hout : waitLoop t cur with
  | reaped i pid t' =>
      rw [hout] at hr
      rw [← (List.cons.inj hr).1]
  | noChild =>
      rw [hout] at hr
      exact absurd hr.symm (List.cons_ne_self r s.reaped)
  | sleep t' =>
      rw [hout] at hr
      exact absurd hr.symm (List.cons_ne_self r s.reaped)

/-- Only a `wait` of the process that a CPU runs returns a pid. -/
theorem reaped_of_step {a : Act m n} (hs : step s a = some s') {r : Reap (Fin n) Int32}
    (hr : s'.reaped = r :: s.reaped) :
    ∃ c, (a = .wait c ∨ a = .resumed c ∧ s.thread r.caller = .wait) ∧
      s.cpu c = .running r.caller := by
  have hscan : ∀ c rest, (s.scanFrom c rest).reaped = s.reaped := by
    intro c rest
    unfold Sys.scanFrom
    split <;> rfl
  cases effect_of_step hs with
  | @wait c p hc =>
      obtain rfl := caller_of_waitRound hr
      exact ⟨c, .inl rfl, hc⟩
  | @resumedWait c p hc hth =>
      obtain rfl := caller_of_waitRound hr
      exact ⟨c, .inr ⟨rfl, hth⟩, hc⟩
  | scan | sched =>
      rw [hscan] at hr
      exact absurd hr.symm (List.cons_ne_self r s.reaped)
  | _ => exact absurd hr.symm (List.cons_ne_self r s.reaped)

/-- **No lost child.** -/
theorem no_lost_child (s : Sys m n) (h : (machine m n).Reach s) :
    ChildrenSafe s ∧ ∀ a s', step s a = some s' → ReapedByParent s a s' := by
  have hI := Inv.reach h
  refine ⟨⟨fun i hunused hembryo hinit => ?_, fun p i hp hi hz => ?_, fun i pid => ?_⟩,
    fun a s' hs i hz hgone => ?_⟩
  · have hstarted : (family s).Started i := by
      unfold Family.Started
      cases hst : (s.proc i).state with
      | unused => exact absurd hst hunused
      | embryo => exact absurd hst hembryo
      | sleeping | runnable | running => exact .inl (congrArg kindOf hst)
      | zombie => exact .inr (congrArg kindOf hst)
    obtain ⟨p, hp⟩ := Option.ne_none_iff_exists'.mp (hI.family.hasParent i hstarted hinit)
    have halive := (hI.family.parent i p hp).1
    refine ⟨p, hp, fun hst => ?_, fun hst => ?_⟩
    · exact absurd (halive.symm.trans (congrArg kindOf hst)) (by decide)
    · exact absurd (halive.symm.trans (congrArg kindOf hst)) (by decide)
  · exact hI.family.waiting p hp i hi (congrArg kindOf hz)
  · have hcount := hI.family.reaped (i, pid)
    simp only [Family.reaps, Family.unreaped, family, kindOf_zombie] at hcount
    exact hcount
  · have hstep := (hI.step hs).2
    obtain ⟨hfree, cur, hparent, hreaped⟩ :=
      hstep.reaped (congrArg kindOf hz) fun hz' => hgone (kindOf_zombie.mp hz')
    obtain ⟨c, ha, hc⟩ := reaped_of_step hs hreaped
    exact ⟨kindOf_free.mp hfree, c, cur, ha, hc, hparent, hreaped⟩

/-- One CPU boots; the first process forks and waits; its child exits, and the
`wait` returns the pid 2 of the child. -/
theorem no_lost_child_reaped : ∃ s : Sys 1 2, s.reaped = [⟨0, 1, 2⟩] ∧ ChildrenSafe s := by
  have hrun : ((machine 1 2).exec (boot 1 2)
      [.userinitAlloc 0, .userinitReady 0, .start 0, .scan 0, .resumed 0, .forkAlloc 0,
        .forkParent 0, .forkReady 0, .wait 0, .sched 0, .resumed 0, .exit 0, .sched 0, .scan 0,
        .resumed 0]).map (fun s => s.reaped) = some [⟨0, 1, 2⟩] := by
    decide +kernel
  obtain ⟨s, hs, hreaped⟩ := Option.map_eq_some_iff.mp hrun
  exact ⟨s, hreaped, (no_lost_child s ⟨_, hs⟩).1⟩

end OsCourse.Process
