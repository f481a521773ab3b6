import Mathlib.Data.Finset.Card
import Mathlib.Logic.Function.Basic

/-!
# OsCourse.Lib.Lock

**Ownership of a lock by program region.** A lock is modelled by its holder
(`none` when it is free), a program point by any type `κ`. `Held R l pc` says
that the processes standing at a point of the region `R` are exactly the
holder of `l`: one statement gives mutual exclusion of the region and says who
has to give the lock up. The lemmas say how the three kinds of step keep it:
a step that stays on its side of the region, an `acquire` of a free lock, and
a `release` by the holder.

`Counted R n pc` says the same of a counter: `n` processes stand in the region.
-/

namespace OsCourse.Lib

variable {ι κ : Type*} {R : κ → Prop} {l : Option ι} {pc : ι → κ}

/-- Who is inside a region after `p` moved to `k`: `p`, or somebody who was there before. -/
theorem region_update [DecidableEq ι] {p q : ι} {k : κ} (h : R (Function.update pc p k q)) :
    (q = p ∧ R k) ∨ (q ≠ p ∧ R (pc q)) := by
  by_cases hq : q = p
  · subst hq
    exact .inl ⟨rfl, by simpa using h⟩
  · rw [Function.update_of_ne hq] at h
    exact .inr ⟨hq, h⟩

/-- The processes inside the region `R` are exactly the holder of `l`. -/
def Held (R : κ → Prop) (l : Option ι) (pc : ι → κ) : Prop :=
  ∀ p, R (pc p) ↔ l = some p

namespace Held

theorem holder (h : Held R l pc) {p : ι} (hp : R (pc p)) : l = some p := (h p).mp hp

/-- Mutual exclusion: two processes inside the region are the same. -/
theorem unique (h : Held R l pc) {p q : ι} (hp : R (pc p)) (hq : R (pc q)) : p = q :=
  Option.some.inj ((h.holder hp).symm.trans (h.holder hq))

/-- Nobody else is inside the region of a held lock. -/
theorem outside (h : Held R l pc) {p q : ι} (hp : R (pc p)) (hne : q ≠ p) : ¬ R (pc q) :=
  fun hq => hne (h.unique hq hp)

/-- While the lock is free the region is empty. -/
theorem empty (h : Held R none pc) (p : ι) : ¬ R (pc p) := by
  intro hp
  have := h.holder hp
  contradiction

/-- The lock invariant only depends on who is inside the region. -/
theorem congr (h : Held R l pc) {pc' : ι → κ} (hpc : ∀ p, R (pc' p) ↔ R (pc p)) :
    Held R l pc' := fun p => (hpc p).trans (h p)

variable [DecidableEq ι] {p : ι} {j k : κ}

/-- A step from `j` to `k` that neither enters nor leaves the region. -/
theorem stay (h : Held R l pc) (hj : pc p = j) (hk : R k ↔ R j) :
    Held R l (Function.update pc p k) := by
  subst hj
  refine h.congr fun q => ?_
  by_cases hq : q = p
  · subst hq
    simpa using hk
  · rw [Function.update_of_ne hq]

/-- `acquire` of a free lock: the caller enters the region. -/
theorem acquire (h : Held R none pc) (hk : R k) :
    Held R (some p) (Function.update pc p k) := by
  intro q
  by_cases hq : q = p
  · subst hq
    simpa using hk
  · rw [Function.update_of_ne hq]
    exact ⟨fun hR => absurd hR (h.empty q), fun he => absurd (Option.some.inj he).symm hq⟩

/-- `release` by the holder: the caller leaves the region. -/
theorem release (h : Held R l pc) (hl : l = some p) (hk : ¬ R k) :
    Held R none (Function.update pc p k) := by
  subst hl
  intro q
  by_cases hq : q = p
  · subst hq
    simpa using hk
  · rw [Function.update_of_ne hq, h q]
    simp [Ne.symm hq]

end Held

/-! ### Counters -/

/-- The counter `n` is the number of processes inside the region `R`. -/
def Counted (R : κ → Prop) (n : Int) (pc : ι → κ) : Prop :=
  ∃ A : Finset ι, (∀ p, p ∈ A ↔ R (pc p)) ∧ n = A.card

namespace Counted

variable {n : Int}

theorem congr (h : Counted R n pc) {pc' : ι → κ} (hpc : ∀ p, R (pc' p) ↔ R (pc p)) :
    Counted R n pc' := by
  obtain ⟨A, hA, hn⟩ := h
  exact ⟨A, fun p => (hA p).trans (hpc p).symm, hn⟩

/-- Somebody inside the region counts. -/
theorem pos (h : Counted R n pc) {p : ι} (hp : R (pc p)) : 0 < n := by
  obtain ⟨A, hA, rfl⟩ := h
  exact_mod_cast Finset.card_pos.mpr ⟨p, (hA p).mpr hp⟩

variable [DecidableEq ι] {p : ι} {j k : κ}

theorem stay (h : Counted R n pc) (hj : pc p = j) (hk : R k ↔ R j) :
    Counted R n (Function.update pc p k) := by
  subst hj
  refine h.congr fun q => ?_
  by_cases hq : q = p
  · subst hq
    simpa using hk
  · rw [Function.update_of_ne hq]

/-- A process enters the region. -/
theorem enter (h : Counted R n pc) (hj : ¬ R (pc p)) (hk : R k) :
    Counted R (n + 1) (Function.update pc p k) := by
  obtain ⟨A, hA, rfl⟩ := h
  have hp : p ∉ A := fun hp => hj ((hA p).mp hp)
  refine ⟨insert p A, fun q => ?_, by rw [Finset.card_insert_of_notMem hp]; rfl⟩
  by_cases hq : q = p
  · subst hq
    simpa using hk
  · rw [Function.update_of_ne hq, Finset.mem_insert, hA]
    exact ⟨fun h => h.resolve_left hq, .inr⟩

/-- A process leaves the region. -/
theorem leave (h : Counted R n pc) (hj : R (pc p)) (hk : ¬ R k) :
    Counted R (n - 1) (Function.update pc p k) := by
  obtain ⟨A, hA, rfl⟩ := h
  have hp : p ∈ A := (hA p).mpr hj
  refine ⟨A.erase p, fun q => ?_, ?_⟩
  · by_cases hq : q = p
    · subst hq
      simpa using hk
    · rw [Function.update_of_ne hq, Finset.mem_erase, hA]
      exact ⟨fun h => h.2, fun h => ⟨hq, h⟩⟩
  · have hpos := Finset.card_pos.mpr ⟨p, hp⟩
    rw [Finset.card_erase_of_mem hp]
    omega

end Counted

end OsCourse.Lib
