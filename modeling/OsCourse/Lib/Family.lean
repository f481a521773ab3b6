import Mathlib.Data.List.Count
import Mathlib.Logic.Function.Basic

/-!
# OsCourse.Lib.Family

**Parents, children and the dead.** Processes live in slots; a process that
exits stays behind as a zombie until its parent waits for it, and its children
go to the first process, `init`. A parent without a zombie child blocks in its
wait. The slots, the process ids and who does these steps when are left open.

`Inv` is what every step keeps (`Inv.step`): whoever has a parent has one that
is alive, everybody but `init` has a parent, nobody blocked has a zombie child,
and every exit that is no longer there to see has been reaped once.
-/

namespace OsCourse.Lib

/-- What a slot holds. -/
inductive Kind
  | free
  /-- Being set up by a fork. -/
  | embryo
  | alive
  | zombie
  deriving DecidableEq, Repr

/-- A return from a wait: who waited, for which slot, and the id returned. -/
structure Reap (ι π : Type*) where
  caller : ι
  slot : ι
  pid : π
  deriving DecidableEq

/-- The family of processes, with the history of exits and reaps. -/
@[ext]
structure Family (ι π : Type*) where
  kind : ι → Kind
  pid : ι → π
  parent : ι → Option ι
  init : Option ι
  /-- Blocked in a wait. -/
  waiting : ι → Prop
  exited : List (ι × π)
  reaped : List (Reap ι π)

namespace Family

variable {ι π : Type*} [DecidableEq ι]

/-- No child of `p` is a zombie. -/
def NoZombieChild (s : Family ι π) (p : ι) : Prop :=
  ∀ i, s.parent i = some p → s.kind i ≠ .zombie

/-- The steps. In each some of the blocked may also go on. -/
inductive Step (s : Family ι π) : Family ι π → Prop
  /-- Nothing happens but that. -/
  | wake {w : ι → Prop} (hw : ∀ q, w q → s.waiting q) : Step s { s with waiting := w }
  /-- `p` blocks in its wait. -/
  | block {w : ι → Prop} {p : ι} (hz : s.NoZombieChild p) (hw : ∀ q, w q → s.waiting q ∨ q = p) :
      Step s { s with waiting := w }
  /-- A slot is taken for a child. -/
  | alloc {i : ι} (k : π) (hi : s.kind i = .free) :
      Step s { s with kind := Function.update s.kind i .embryo, pid := Function.update s.pid i k }
  /-- A slot is taken for `init`. -/
  | allocInit {i : ι} (k : π) (hi : s.kind i = .free) (hinit : s.init = none) :
      Step s { s with
        kind := Function.update s.kind i .embryo
        pid := Function.update s.pid i k
        init := some i }
  /-- A slot that has been taken is given up. -/
  | abandon {i : ι} (hi : s.kind i = .embryo) (hp : s.parent i = none) (hinit : s.init ≠ some i) :
      Step s { s with kind := Function.update s.kind i .free }
  /-- The child in slot `i` gets its parent. -/
  | adopt {i p : ι} (hi : s.kind i = .embryo) (hp : s.kind p = .alive) (hinit : s.init ≠ some i) :
      Step s { s with parent := Function.update s.parent i (some p) }
  /-- The process in slot `i` starts. -/
  | start {i : ι} (hi : s.kind i = .embryo) (hp : s.init = some i ∨ s.parent i ≠ none) :
      Step s { s with kind := Function.update s.kind i .alive }
  /-- `cur` exits: its parent goes on, and so does `init` if it inherits a zombie. -/
  | exit {w : ι → Prop} {cur : ι} (hcur : s.kind cur = .alive) (hinit : s.init ≠ some cur)
      (hw : ∀ q, w q → s.waiting q ∧ s.parent cur ≠ some q ∧
        (s.init = some q → s.NoZombieChild cur)) :
      Step s { s with
        kind := Function.update s.kind cur .zombie
        parent := fun i => if s.parent i = some cur then s.init else s.parent i
        waiting := w
        exited := (cur, s.pid cur) :: s.exited }
  /-- `cur` reaps its zombie child in slot `i`. -/
  | reap {cur i : ι} (k : π) (hp : s.parent i = some cur) (hi : s.kind i = .zombie) :
      Step s { s with
        kind := Function.update s.kind i .free
        pid := Function.update s.pid i k
        parent := Function.update s.parent i none
        reaped := ⟨cur, i, s.pid i⟩ :: s.reaped }

/-- A step in which nothing else happens than that some of the blocked go on. -/
theorem Step.wake_of {s t : Family ι π} (hkind : t.kind = s.kind) (hpid : t.pid = s.pid)
    (hparent : t.parent = s.parent) (hinit : t.init = s.init) (hexited : t.exited = s.exited)
    (hreaped : t.reaped = s.reaped) (hw : ∀ q, t.waiting q → s.waiting q) : Step s t := by
  obtain ⟨kind, pid, parent, init, w, exited, reaped⟩ := t
  subst hkind hpid hparent hinit hexited hreaped
  exact .wake hw

/-- A step in which `p` blocks. -/
theorem Step.block_of {s t : Family ι π} {p : ι} (hz : s.NoZombieChild p) (hkind : t.kind = s.kind)
    (hpid : t.pid = s.pid) (hparent : t.parent = s.parent) (hinit : t.init = s.init)
    (hexited : t.exited = s.exited) (hreaped : t.reaped = s.reaped)
    (hw : ∀ q, t.waiting q → s.waiting q ∨ q = p) : Step s t := by
  obtain ⟨kind, pid, parent, init, w, exited, reaped⟩ := t
  subst hkind hpid hparent hinit hexited hreaped
  exact .block hz hw

/-- The process has started. -/
def Started (s : Family ι π) (i : ι) : Prop := s.kind i = .alive ∨ s.kind i = .zombie

/-- How many exits of the process with id `x.2` in slot `x.1` are there to see. -/
def unreaped [DecidableEq π] (s : Family ι π) (x : ι × π) : Nat :=
  if s.kind x.1 = .zombie ∧ s.pid x.1 = x.2 then 1 else 0

/-- The exits that have been reaped. -/
def reaps (s : Family ι π) : List (ι × π) := s.reaped.map fun r => (r.slot, r.pid)

/-- What holds in every family. -/
structure Inv [DecidableEq π] (s : Family ι π) : Prop where
  free : ∀ i, s.kind i = .free → s.parent i = none
  parent : ∀ i p, s.parent i = some p → s.kind p = .alive ∧ i ≠ p
  hasParent : ∀ i, s.Started i → s.init ≠ some i → s.parent i ≠ none
  initParent : ∀ r, s.init = some r → s.parent r = none
  initAlive : ∀ i, s.Started i → ∃ r, s.init = some r ∧ s.kind r = .alive
  waiting : ∀ p, s.waiting p → s.NoZombieChild p
  reaped : ∀ x, s.exited.count x = s.reaps.count x + s.unreaped x

variable [DecidableEq π] {s t : Family ι π}

namespace Inv

/-- `init` is not a zombie. -/
theorem init_ne (h : Inv s) {i : ι} (hi : s.kind i = .zombie) : s.init ≠ some i := by
  intro hinit
  obtain ⟨r, hr, halive⟩ := h.initAlive i (.inr hi)
  obtain rfl := Option.some.inj (hinit.symm.trans hr)
  rw [hi] at halive
  cases halive

/-- A slot that goes from free to embryo or back. -/
theorem setUp (h : Inv s) {i : ι} (hi : ¬ s.Started i) (hi' : ¬ t.Started i)
    (hfree : t.kind i = .free → s.parent i = none) (hkind : ∀ j, j ≠ i → t.kind j = s.kind j)
    (hpid : ∀ j, j ≠ i → t.pid j = s.pid j) (hparent : t.parent = s.parent)
    (hinit : t.init = s.init ∨ s.init = none ∧ t.init = some i ∧ s.parent i = none)
    (hw : t.waiting = s.waiting) (hexited : t.exited = s.exited) (hreaped : t.reaped = s.reaped) :
    Inv t := by
  have hne : ∀ {j}, s.Started j → j ≠ i := fun hj heq => hi (heq ▸ hj)
  have hkeep : ∀ {j}, s.Started j → t.kind j = s.kind j := fun hj => hkind _ (hne hj)
  have hstarted : ∀ {j}, t.Started j → s.Started j := by
    intro j hj
    have hji : j ≠ i := fun heq => hi' (heq ▸ hj)
    unfold Started at hj ⊢
    rwa [hkind j hji] at hj
  -- while there is no `init`, nobody has started
  have hsame : ∀ {j}, s.Started j → t.init = s.init := by
    intro j hj
    rcases hinit with hsame | ⟨hnone, -⟩
    · exact hsame
    · obtain ⟨r, hr, -⟩ := h.initAlive j hj
      rw [hnone] at hr
      cases hr
  constructor
  · intro j hj
    rw [hparent]
    by_cases hji : j = i
    · subst hji
      exact hfree hj
    · exact h.free j ((hkind j hji).symm.trans hj)
  · intro j p hp
    rw [hparent] at hp
    obtain ⟨halive, hself⟩ := h.parent j p hp
    exact ⟨(hkeep (.inl halive)).trans halive, hself⟩
  · intro j hj hnot
    have hj := hstarted hj
    rw [hsame hj] at hnot
    rw [hparent]
    exact h.hasParent j hj hnot
  · intro r hr
    rw [hparent]
    rcases hinit with hsame | ⟨-, hnew, hnone⟩
    · exact h.initParent r (hsame ▸ hr)
    · obtain rfl := Option.some.inj (hnew.symm.trans hr)
      exact hnone
  · intro j hj
    have hj := hstarted hj
    obtain ⟨r, hr, halive⟩ := h.initAlive j hj
    exact ⟨r, (hsame hj).trans hr, (hkeep (.inl halive)).trans halive⟩
  · intro p hp j hj hz
    rw [hw] at hp
    rw [hparent] at hj
    exact h.waiting p hp j hj ((hkeep (hstarted (.inr hz))).symm.trans hz)
  · intro x
    have hsame : t.unreaped x = s.unreaped x := by
      refine if_congr ?_ rfl rfl
      constructor
      · intro hx
        have hj := hstarted (.inr hx.1)
        exact ⟨(hkeep hj).symm.trans hx.1, (hpid _ (hne hj)).symm.trans hx.2⟩
      · intro hx
        have hj : s.Started x.1 := .inr hx.1
        exact ⟨(hkeep hj).trans hx.1, (hpid _ (hne hj)).trans hx.2⟩
    simp only [reaps, hexited, hreaped, hsame]
    exact h.reaped x

/-- A slot that is being set up gets its parent. -/
theorem adopt (h : Inv s) {i p : ι} (hi : s.kind i = .embryo) (hp : s.kind p = .alive)
    (hinit : s.init ≠ some i) : Inv { s with parent := Function.update s.parent i (some p) } := by
  have hne : ∀ {j}, s.Started j → j ≠ i := by
    intro j hj heq
    subst heq
    rcases hj with hj | hj <;> rw [hi] at hj <;> cases hj
  have hkeep : ∀ {j}, j ≠ i → Function.update s.parent i (some p) j = s.parent j :=
    fun hj => Function.update_of_ne hj ..
  constructor
  · intro j hj
    have hji : j ≠ i := by
      intro heq
      subst heq
      exact absurd (hi.symm.trans hj) (by decide)
    exact (hkeep hji).trans (h.free j hj)
  · intro j q hq
    by_cases hji : j = i
    · subst hji
      obtain rfl : p = q := by simpa using hq
      exact ⟨hp, (hne (.inl hp)).symm⟩
    · exact h.parent j q ((hkeep hji).symm.trans hq)
  · intro j hj hnot hnone
    exact h.hasParent j hj hnot ((hkeep (hne hj)).symm.trans hnone)
  · intro r hr
    exact (hkeep fun heq => hinit (heq ▸ hr)).trans (h.initParent r hr)
  · exact h.initAlive
  · intro q hq j hj hz
    exact h.waiting q hq j ((hkeep (hne (.inr hz))).symm.trans hj) hz
  · exact h.reaped

/-- A process starts. -/
theorem start (h : Inv s) {i : ι} (hi : s.kind i = .embryo)
    (hp : s.init = some i ∨ s.parent i ≠ none) :
    Inv { s with kind := Function.update s.kind i .alive } := by
  have hkeep : ∀ {j}, j ≠ i → Function.update s.kind i .alive j = s.kind j :=
    fun hj => Function.update_of_ne hj ..
  have halive : ∀ {j}, s.kind j = .alive → Function.update s.kind i .alive j = .alive := by
    intro j hj
    by_cases hji : j = i
    · subst hji
      exact Function.update_self ..
    · rw [hkeep hji, hj]
  have hzombie : ∀ {j}, Function.update s.kind i .alive j = .zombie ↔ s.kind j = .zombie := by
    intro j
    by_cases hji : j = i
    · subst hji
      simp [hi]
    · rw [hkeep hji]
  have hinit : ∃ r, s.init = some r ∧ Function.update s.kind i .alive r = .alive := by
    rcases hp with hinit | hparent
    · exact ⟨i, hinit, Function.update_self ..⟩
    · obtain ⟨p, hp⟩ := Option.ne_none_iff_exists'.mp hparent
      obtain ⟨r, hr, hra⟩ := h.initAlive p (.inl (h.parent i p hp).1)
      exact ⟨r, hr, halive hra⟩
  constructor
  · intro j hj
    have hji : j ≠ i := by
      intro heq
      subst heq
      simp at hj
    exact h.free j ((hkeep hji).symm.trans hj)
  · intro j q hq
    exact ⟨halive (h.parent j q hq).1, (h.parent j q hq).2⟩
  · intro j hj hnot
    by_cases hji : j = i
    · subst hji
      exact hp.resolve_left hnot
    · simp only [Started, hkeep hji] at hj
      exact h.hasParent j hj hnot
  · exact h.initParent
  · exact fun _ _ => hinit
  · intro q hq j hj hz
    exact h.waiting q hq j hj (hzombie.mp hz)
  · intro x
    have hsame : unreaped { s with kind := Function.update s.kind i .alive } x = s.unreaped x :=
      if_congr (and_congr_left' hzombie) rfl rfl
    rw [hsame]
    exact h.reaped x

/-- A process exits. -/
theorem exit (h : Inv s) {w : ι → Prop} {cur : ι} (hcur : s.kind cur = .alive)
    (hinit : s.init ≠ some cur) (hw : ∀ q, w q → s.waiting q ∧ s.parent cur ≠ some q ∧
      (s.init = some q → s.NoZombieChild cur)) :
    Inv { s with
      kind := Function.update s.kind cur .zombie
      parent := fun i => if s.parent i = some cur then s.init else s.parent i
      waiting := w
      exited := (cur, s.pid cur) :: s.exited } := by
  obtain ⟨r, hr, halive⟩ := h.initAlive cur (.inl hcur)
  have hrcur : r ≠ cur := fun heq => hinit (heq ▸ hr)
  have hroot : s.parent r = none := h.initParent r hr
  have hkeep : ∀ {j}, j ≠ cur → Function.update s.kind cur .zombie j = s.kind j :=
    fun hj => Function.update_of_ne hj ..
  have hstarted : ∀ {j}, (Function.update s.kind cur .zombie j = .alive ∨
      Function.update s.kind cur .zombie j = .zombie) → s.Started j := by
    intro j hj
    by_cases hjc : j = cur
    · subst hjc
      exact .inl hcur
    · rwa [hkeep hjc] at hj
  constructor
  · intro j hj
    have hjc : j ≠ cur := by
      intro heq
      subst heq
      simp at hj
    have hnone := h.free j ((hkeep hjc).symm.trans hj)
    simp [hnone]
  · intro j p hp
    simp only at hp ⊢
    split_ifs at hp with hchild
    · -- an abandoned child goes to `init`
      obtain rfl := Option.some.inj (hr.symm.trans hp)
      refine ⟨(hkeep hrcur).trans halive, fun heq => ?_⟩
      rw [heq, hroot] at hchild
      cases hchild
    · obtain ⟨hpa, hself⟩ := h.parent j p hp
      exact ⟨(hkeep fun heq => hchild (heq ▸ hp)).trans hpa, hself⟩
  · intro j hj hnot
    simp only
    split_ifs with hchild
    · rw [hr]
      exact Option.some_ne_none r
    · exact h.hasParent j (hstarted hj) hnot
  · intro q hq
    obtain rfl := Option.some.inj (hr.symm.trans hq)
    simp [hroot]
  · intro j hj
    exact ⟨r, hr, (hkeep hrcur).trans halive⟩
  · intro q hq j hj hz
    obtain ⟨hwait, hparent, hinherit⟩ := hw q hq
    simp only at hj hz
    by_cases hjc : j = cur
    · -- the parent of `cur` has been woken
      subst hjc
      rw [if_neg fun hself => (h.parent j j hself).2 rfl] at hj
      exact hparent hj
    · rw [hkeep hjc] at hz
      split_ifs at hj with hchild
      · exact hinherit hj j hchild hz
      · exact h.waiting q hwait j hj hz
  · intro x
    have hcount := h.reaped x
    simp only [reaps, unreaped] at hcount ⊢
    by_cases hx : x = (cur, s.pid cur)
    · subst hx
      rw [if_neg fun hz => by simp [hcur] at hz] at hcount
      rw [List.count_cons_self, hcount, if_pos ⟨Function.update_self .., rfl⟩]
    · rw [List.count_cons_of_ne (Ne.symm hx), hcount]
      congr 1
      refine if_congr ?_ rfl rfl
      by_cases hxc : x.1 = cur
      · have hpid : ¬ s.pid x.1 = x.2 := by
          intro hpid
          exact hx (Prod.ext hxc (by rw [← hpid, hxc]))
        exact iff_of_false (fun hz => hpid hz.2) fun hz => hpid hz.2
      · rw [hkeep hxc]

/-- A zombie is reaped. -/
theorem reap (h : Inv s) {cur i : ι} (k : π) (hi : s.kind i = .zombie) :
    Inv { s with
      kind := Function.update s.kind i .free
      pid := Function.update s.pid i k
      parent := Function.update s.parent i none
      reaped := ⟨cur, i, s.pid i⟩ :: s.reaped } := by
  have hkeep : ∀ {j}, j ≠ i → Function.update s.kind i .free j = s.kind j :=
    fun hj => Function.update_of_ne hj ..
  have hparent : ∀ {j}, j ≠ i → Function.update s.parent i none j = s.parent j :=
    fun hj => Function.update_of_ne hj ..
  have hne : ∀ {j}, s.kind j = .alive → j ≠ i := by
    intro j hj heq
    rw [heq, hi] at hj
    cases hj
  have hstarted : ∀ {j}, (Function.update s.kind i .free j = .alive ∨
      Function.update s.kind i .free j = .zombie) → s.Started j ∧ j ≠ i := by
    intro j hj
    by_cases hji : j = i
    · subst hji
      simp at hj
    · rw [hkeep hji] at hj
      exact ⟨hj, hji⟩
  constructor
  · intro j hj
    by_cases hji : j = i
    · subst hji
      exact Function.update_self ..
    · exact (hparent hji).trans (h.free j ((hkeep hji).symm.trans hj))
  · intro j p hp
    have hji : j ≠ i := by
      intro heq
      subst heq
      simp at hp
    obtain ⟨halive, hself⟩ := h.parent j p ((hparent hji).symm.trans hp)
    exact ⟨(hkeep (hne halive)).trans halive, hself⟩
  · intro j hj hnot
    obtain ⟨hj, hji⟩ := hstarted hj
    intro hnone
    exact h.hasParent j hj hnot ((hparent hji).symm.trans hnone)
  · intro r hr
    have hri : r ≠ i := fun heq => h.init_ne hi (heq ▸ hr)
    exact (hparent hri).trans (h.initParent r hr)
  · intro j hj
    obtain ⟨r, hr, halive⟩ := h.initAlive j (hstarted hj).1
    exact ⟨r, hr, (hkeep (hne halive)).trans halive⟩
  · intro q hq j hj hz
    obtain ⟨-, hji⟩ := hstarted (.inr hz)
    exact h.waiting q hq j ((hparent hji).symm.trans hj) ((hkeep hji).symm.trans hz)
  · intro x
    have hcount := h.reaped x
    simp only [reaps, List.map_cons, unreaped] at hcount ⊢
    by_cases hx : x = (i, s.pid i)
    · subst hx
      rw [List.count_cons_self, hcount, if_pos ⟨hi, rfl⟩, if_neg fun hz => by simp at hz]
    · rw [List.count_cons_of_ne (Ne.symm hx), hcount]
      congr 1
      refine if_congr ?_ rfl rfl
      by_cases hxi : x.1 = i
      · have hpid : ¬ s.pid x.1 = x.2 := by
          intro hpid
          exact hx (Prod.ext hxi (by rw [← hpid, hxi]))
        refine iff_of_false (fun hz => hpid hz.2) fun hz => ?_
        rw [hxi, Function.update_self] at hz
        cases hz.1
      · rw [hkeep hxi, Function.update_of_ne hxi]

/-- **Every step keeps the family in order.** -/
theorem step (h : Inv s) (hs : Step s t) : Inv t := by
  cases hs with
  | wake hw => exact { h with waiting := fun q hq => h.waiting q (hw q hq) }
  | block hz hw =>
      refine { h with waiting := fun q hq => ?_ }
      rcases hw q hq with hq | rfl
      · exact h.waiting q hq
      · exact hz
  | alloc k hi =>
      refine h.setUp (by simp [Started, hi]) (by simp [Started]) (fun _ => h.free _ hi)
        (fun j hj => Function.update_of_ne hj ..) (fun j hj => Function.update_of_ne hj ..) rfl
        (.inl rfl) rfl rfl rfl
  | allocInit k hi hinit =>
      refine h.setUp (by simp [Started, hi]) (by simp [Started]) (fun _ => h.free _ hi)
        (fun j hj => Function.update_of_ne hj ..) (fun j hj => Function.update_of_ne hj ..) rfl
        (.inr ⟨hinit, rfl, h.free _ hi⟩) rfl rfl rfl
  | abandon hi hp hinit =>
      exact h.setUp (by simp [Started, hi]) (by simp [Started]) (fun _ => hp)
        (fun j hj => Function.update_of_ne hj ..) (fun _ _ => rfl) rfl (.inl rfl) rfl rfl rfl
  | adopt hi hp hinit => exact h.adopt hi hp hinit
  | start hi hp => exact h.start hi hp
  | exit hcur hinit hw => exact h.exit hcur hinit hw
  | reap k hp hi => exact h.reap k hi

end Inv

/-- Before the first process. -/
def empty (k : π) : Family ι π where
  kind := fun _ => .free
  pid := fun _ => k
  parent := fun _ => none
  init := none
  waiting := fun _ => False
  exited := []
  reaped := []

theorem inv_empty (k : π) : Inv (empty k : Family ι π) := by
  constructor
  · exact fun _ _ => rfl
  · exact fun _ _ hp => by cases hp
  · exact fun _ hi => by simp [Started, empty] at hi
  · exact fun _ _ => rfl
  · exact fun _ hi => by simp [Started, empty] at hi
  · exact fun _ hp => hp.elim
  · exact fun _ => by simp [empty, reaps, unreaped]

omit [DecidableEq π] in
/-- A zombie that is gone after a step has been reaped by its parent in it. -/
theorem Step.reaped (hs : Step s t) {i : ι} (hi : s.kind i = .zombie) (hi' : t.kind i ≠ .zombie) :
    t.kind i = .free ∧ ∃ cur, s.parent i = some cur ∧ t.reaped = ⟨cur, i, s.pid i⟩ :: s.reaped := by
  have hother : ∀ {j : ι} {k : Kind}, s.kind j ≠ .zombie ∨ k = .zombie →
      Function.update s.kind j k i = .zombie := by
    intro j k hjk
    by_cases hij : i = j
    · subst hij
      rw [Function.update_self]
      exact hjk.resolve_left fun hne => hne hi
    · rw [Function.update_of_ne hij, hi]
  cases hs with
  | wake | block | adopt => exact absurd hi hi'
  | alloc k hj | allocInit k hj => exact absurd (hother (.inl (by simp [hj]))) hi'
  | abandon hj | start hj => exact absurd (hother (.inl (by simp [hj]))) hi'
  | exit hcur => exact absurd (hother (.inr rfl)) hi'
  | @reap cur j k hp hj =>
      by_cases hij : i = j
      · subst hij
        exact ⟨Function.update_self .., cur, hp, rfl⟩
      · exact absurd ((Function.update_of_ne hij ..).trans hi) hi'

end Family

end OsCourse.Lib
