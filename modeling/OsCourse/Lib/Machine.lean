import Mathlib.Data.List.Basic
import Mathlib.Data.Option.Basic

/-!
# OsCourse.Lib.Machine

**Machines with labelled steps.** A `Machine` is an initial state and a partial
step function: `step s a = none` means that action `a` cannot be taken in `s`
(a lock is busy, an access leaves its buffer, the actor has nothing to do).

A run is a list of actions, replayed by `exec`. Many of the results of this
development speak of runs *all of whose steps meet a condition* on the state
the step is taken in; `Meets c s as` says that of the run of `as` from `s`.
The rules at the end turn a fact about one step into a fact about whole runs:

* `exec_induction` carries an invariant along a run;
* `exec_length_le` bounds the length of a run by a measure that every step
  decreases;
* `exec_done` turns such a measure into termination, whatever the actions are;
* `isSome_exec_iff` reads the condition off as *exactly* what keeps a run from
  getting stuck;
* `exec_simulation` relates a run to the run of an abstract, total machine;
* `always_iff_meets` (and `exec_always_iff`) reads the condition off as exactly
  what keeps a property true after every step.
-/

namespace OsCourse.Lib

/-- An initial state and a partial step function, one successor per action. -/
structure Machine (σ : Type*) (α : Type*) where
  init : σ
  step : σ → α → Option σ

namespace Machine

variable {σ α τ : Type*} (M : Machine σ α)

/-- Replay the actions from `s`; `none` as soon as one cannot be taken. -/
def exec : σ → List α → Option σ
  | s, [] => some s
  | s, a :: as => (M.step s a).bind fun s' => exec s' as

/-- Every step of the run of `as` from `s` is taken in a state that meets `c`
(steps past a stuck one are not asked about). -/
def Meets (c : σ → α → Prop) : σ → List α → Prop
  | _, [] => True
  | s, a :: as => c s a ∧ ∀ s', M.step s a = some s' → Meets c s' as

/-- The run of `as` from `s` does not get stuck, and all its states satisfy `P`. -/
def Always (P : σ → Prop) : σ → List α → Prop
  | s, [] => P s
  | s, a :: as => P s ∧ ∃ t, M.step s a = some t ∧ Always P t as

/-- `s` is reached from the initial state by a run whose steps all meet `c`. -/
def ReachWhile (c : σ → α → Prop) (s : σ) : Prop :=
  ∃ as, M.Meets c M.init as ∧ M.exec M.init as = some s

/-- `s` is reached from the initial state. -/
def Reach (s : σ) : Prop := ∃ as, M.exec M.init as = some s

/-- No action can be taken in `s`. -/
def Stuck (s : σ) : Prop := ∀ a, M.step s a = none

@[simp] theorem exec_nil (s : σ) : M.exec s [] = some s := rfl

theorem exec_cons (s : σ) (a : α) (as : List α) :
    M.exec s (a :: as) = (M.step s a).bind fun s' => M.exec s' as := rfl

/-- Inverting a run that starts with `a`. -/
theorem exec_cons_eq_some {s u : σ} {a : α} {as : List α} :
    M.exec s (a :: as) = some u ↔ ∃ t, M.step s a = some t ∧ M.exec t as = some u := by
  rw [exec_cons, Option.bind_eq_some_iff]

theorem exec_append (s : σ) (as bs : List α) :
    M.exec s (as ++ bs) = (M.exec s as).bind fun t => M.exec t bs := by
  induction as generalizing s with
  | nil => rfl
  | cons a as ih =>
      rw [List.cons_append, exec_cons, exec_cons]
      cases M.step s a with
      | none => rfl
      | some t => exact ih t

@[simp] theorem meets_nil (c : σ → α → Prop) (s : σ) : M.Meets c s [] := trivial

theorem meets_cons {c : σ → α → Prop} {s : σ} {a : α} {as : List α} :
    M.Meets c s (a :: as) ↔ c s a ∧ ∀ t, M.step s a = some t → M.Meets c t as := Iff.rfl

/-- A condition that always holds is met by every run. -/
theorem meets_of_forall {c : σ → α → Prop} (hc : ∀ s a, c s a) (s : σ) (as : List α) :
    M.Meets c s as := by
  induction as generalizing s with
  | nil => trivial
  | cons a as ih => exact ⟨hc s a, fun t _ => ih t⟩

/-- Replay the actions, checking the condition before every step. -/
def execWhile (c : σ → α → Prop) [∀ s a, Decidable (c s a)] : σ → List α → Option σ
  | s, [] => some s
  | s, a :: as => if c s a then (M.step s a).bind fun s' => execWhile c s' as else none

/-- A checked replay is a run whose steps all meet the condition. -/
theorem meets_of_execWhile {c : σ → α → Prop} [∀ s a, Decidable (c s a)] {s u : σ} {as : List α}
    (h : M.execWhile c s as = some u) : M.Meets c s as ∧ M.exec s as = some u := by
  induction as generalizing s with
  | nil => exact ⟨trivial, h⟩
  | cons a as ih =>
      unfold execWhile at h
      split at h
      · next hc =>
        obtain ⟨t, ht, hu⟩ := Option.bind_eq_some_iff.mp h
        obtain ⟨hm, he⟩ := ih hu
        refine ⟨⟨hc, fun t' ht' => ?_⟩, (exec_cons_eq_some M).mpr ⟨t, ht, he⟩⟩
        obtain rfl : t = t' := Option.some.inj (ht.symm.trans ht')
        exact hm
      · cases h

theorem reach_init : M.Reach M.init := ⟨[], rfl⟩

theorem Reach.step {M : Machine σ α} {s t : σ} {a : α} (hs : M.Reach s)
    (h : M.step s a = some t) : M.Reach t := by
  obtain ⟨as, has⟩ := hs
  refine ⟨as ++ [a], ?_⟩
  rw [exec_append, has, Option.bind_some, exec_cons, h, Option.bind_some, exec_nil]

/-! ### From one step to whole runs -/

/-- An invariant that every step meeting `c` preserves holds at the end of
every run whose steps all meet `c`. -/
theorem exec_induction {c : σ → α → Prop} {I : σ → Prop}
    (hstep : ∀ s a t, I s → c s a → M.step s a = some t → I t) {s u : σ} {as : List α}
    (hs : I s) (hc : M.Meets c s as) (h : M.exec s as = some u) : I u := by
  induction as generalizing s with
  | nil =>
      obtain rfl : s = u := by simpa using h
      exact hs
  | cons a as ih =>
      obtain ⟨t, ht, hu⟩ := (exec_cons_eq_some M).mp h
      exact ih (hstep s a t hs hc.1 ht) (hc.2 t ht) hu

theorem ReachWhile.induction {M : Machine σ α} {c : σ → α → Prop} {I : σ → Prop} {s : σ}
    (hs : M.ReachWhile c s) (hinit : I M.init)
    (hstep : ∀ s a t, I s → c s a → M.step s a = some t → I t) : I s := by
  obtain ⟨as, hc, h⟩ := hs
  exact M.exec_induction hstep hinit hc h

theorem Reach.induction {M : Machine σ α} {I : σ → Prop} {s : σ} (hs : M.Reach s)
    (hinit : I M.init) (hstep : ∀ s a t, I s → M.step s a = some t → I t) : I s := by
  obtain ⟨as, h⟩ := hs
  exact M.exec_induction (c := fun _ _ => True) (fun s a t hI _ => hstep s a t hI) hinit
    (M.meets_of_forall (fun _ _ => trivial) _ _) h

/-- A measure that every step decreases bounds the length of every run. -/
theorem exec_length_le (μ : σ → Nat) (hμ : ∀ s a t, M.step s a = some t → μ t < μ s)
    {s u : σ} {as : List α} (h : M.exec s as = some u) : as.length + μ u ≤ μ s := by
  induction as generalizing s with
  | nil =>
      obtain rfl : s = u := by simpa using h
      simp
  | cons a as ih =>
      obtain ⟨t, ht, hu⟩ := (exec_cons_eq_some M).mp h
      have h1 := ih hu
      have h2 := hμ s a t ht
      simp only [List.length_cons]
      omega

/-- A machine whose steps decrease a measure, and that can take any action unless it is
done, gets done, whatever the actions are. -/
theorem exec_done (μ : σ → Nat) (I Done : σ → Prop) {s : σ}
    (hμ : ∀ s a t, I s → M.step s a = some t → I t ∧ μ t < μ s)
    (hlive : ∀ s a, I s → ¬ Done s → ∃ t, M.step s a = some t) (hs : I s) (f : Nat → α) :
    ∃ k, k ≤ μ s ∧ ∃ t, M.exec s ((List.range k).map f) = some t ∧ I t ∧ Done t := by
  induction hn : μ s using Nat.strongRecOn generalizing s f with
  | ind n ih =>
      by_cases hdone : Done s
      · exact ⟨0, Nat.zero_le _, s, rfl, hs, hdone⟩
      · obtain ⟨t, ht⟩ := hlive s (f 0) hs hdone
        obtain ⟨hI, hless⟩ := hμ s (f 0) t hs ht
        obtain ⟨k, hk, u, hexec, hu⟩ := ih (μ t) (hn ▸ hless) hI (fun i => f (i + 1)) rfl
        refine ⟨k + 1, by omega, u, ?_, hu⟩
        rw [List.range_succ_eq_map, List.map_cons, List.map_map, exec_cons, ht]
        exact hexec

/-- If, under an invariant, the condition is exactly what lets a step be taken,
then it is exactly what keeps a run from getting stuck. -/
theorem isSome_exec_iff {c : σ → α → Prop} {I : σ → Prop}
    (hstep : ∀ s a, I s → ((M.step s a).isSome ↔ c s a))
    (hI : ∀ s a t, I s → M.step s a = some t → I t) {s : σ} {as : List α} (hs : I s) :
    (M.exec s as).isSome ↔ M.Meets c s as := by
  induction as generalizing s with
  | nil => simp
  | cons a as ih =>
      rw [exec_cons, meets_cons, ← hstep s a hs]
      cases ht : M.step s a with
      | none => simp
      | some t =>
          rw [Option.bind_some, ih (hI s a t hs ht)]
          simp

/-- A run whose steps meet the condition is matched by the run of an abstract
machine whose step `astep` is total. -/
theorem exec_simulation {c : σ → α → Prop} {R : σ → τ → Prop} {astep : τ → α → τ}
    (hstep : ∀ s x a, R s x → c s a → ∃ t, M.step s a = some t ∧ R t (astep x a))
    {s : σ} {x : τ} {as : List α} (hR : R s x) (hc : M.Meets c s as) :
    ∃ t, M.exec s as = some t ∧ R t (as.foldl astep x) := by
  induction as generalizing s x with
  | nil => exact ⟨s, rfl, hR⟩
  | cons a as ih =>
      obtain ⟨t, ht, hRt⟩ := hstep s x a hR hc.1
      obtain ⟨u, hu, hRu⟩ := ih hRt (hc.2 t ht)
      exact ⟨u, (exec_cons_eq_some M).mpr ⟨t, ht, hu⟩, hRu⟩

theorem Always.head {M : Machine σ α} {P : σ → Prop} {s : σ} {as : List α}
    (h : M.Always P s as) : P s := by
  cases as with
  | nil => exact h
  | cons a as => exact h.1

theorem Always.exec {M : Machine σ α} {P : σ → Prop} {s u : σ} {as : List α}
    (h : M.Always P s as) (hu : M.exec s as = some u) : P u := by
  induction as generalizing s with
  | nil =>
      obtain rfl : s = u := by simpa using hu
      exact h
  | cons a as ih =>
      obtain ⟨-, t, ht, halways⟩ := h
      obtain ⟨t', ht', hu'⟩ := (exec_cons_eq_some M).mp hu
      obtain rfl : t = t' := Option.some.inj (ht.symm.trans ht')
      exact ih halways hu'

/-- Under an invariant and a side condition, a step that meets `c` keeps the
invariant and one that does not breaks `P`: then `P` holds throughout a run
exactly if all its steps meet `c`. -/
theorem always_iff_meets {side c : σ → α → Prop} {I P : σ → Prop} (hP : ∀ s, I s → P s)
    (hgood : ∀ s a, I s → side s a → c s a → ∃ t, M.step s a = some t ∧ I t)
    (hbad : ∀ s a t, I s → side s a → ¬ c s a → M.step s a = some t → ¬ P t)
    {s : σ} {as : List α} (hs : I s) (hside : M.Meets side s as) :
    M.Always P s as ↔ M.Meets c s as := by
  induction as generalizing s with
  | nil => exact ⟨fun _ => trivial, fun _ => hP s hs⟩
  | cons a as ih =>
      by_cases hc : c s a
      · obtain ⟨t, ht, hIt⟩ := hgood s a hs hside.1 hc
        have hih := ih hIt (hside.2 t ht)
        constructor
        · intro h
          obtain ⟨-, u, hu, halways⟩ := h
          refine ⟨hc, fun v hv => ?_⟩
          obtain rfl : t = u := Option.some.inj (ht.symm.trans hu)
          obtain rfl : t = v := Option.some.inj (ht.symm.trans hv)
          exact hih.mp halways
        · intro h
          exact ⟨hP s hs, t, ht, hih.mpr (h.2 t ht)⟩
      · constructor
        · intro h
          obtain ⟨-, t, ht, halways⟩ := h
          exact absurd halways.head (hbad s a t hs hside.1 hc ht)
        · intro h
          exact absurd h.1 hc

/-- Every step of a run that reaches its end can be taken. -/
theorem meets_isSome {s u : σ} {as : List α} (h : M.exec s as = some u) :
    M.Meets (fun s a => (M.step s a).isSome) s as :=
  (M.isSome_exec_iff (I := fun _ => True) (fun _ _ _ => Iff.rfl)
    (fun _ _ _ _ _ => trivial) trivial).mp (Option.isSome_of_eq_some h)

/-- `always_iff_meets` for a run that reaches its end. -/
theorem exec_always_iff {c : σ → α → Prop} {I P : σ → Prop} (hP : ∀ s, I s → P s)
    (hgood : ∀ s a t, I s → c s a → M.step s a = some t → I t)
    (hbad : ∀ s a t, I s → ¬ c s a → M.step s a = some t → ¬ P t)
    {s u : σ} {as : List α} (hs : I s) (h : M.exec s as = some u) :
    M.Always P s as ↔ M.Meets c s as := by
  refine M.always_iff_meets hP (fun s a hI hside hc => ?_) (fun s a t hI _ => hbad s a t hI) hs
    (M.meets_isSome h)
  obtain ⟨t, ht⟩ := Option.isSome_iff_exists.mp hside
  exact ⟨t, ht, hgood s a t hI hc ht⟩

end Machine

end OsCourse.Lib
