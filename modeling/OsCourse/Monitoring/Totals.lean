import Mathlib.Algebra.BigOperators.Fin
import Mathlib.Algebra.BigOperators.Group.Finset.Basic
import OsCourse.Monitoring.Crossing

/-!
# OsCourse.Monitoring.Totals

The emission total of a car. It should be the sum of the emissions of the car's
own crossings. But `car->totalEmission += totalEmission` adds the global total
instead of the local `emission`, and so what all other cars have added before.

Which of the two is added makes no difference only if everything added before
sums up to 0. Along a run the totals are right iff that is so at every addition
(`own_total_iff`).
-/

namespace OsCourse.Monitoring

open OsCourse.Lib

variable {κ γ : Type} [DecidableEq κ] [DecidableEq γ]

/-- The sum of the emissions of the crossings of car `c` that have been added. -/
def own (inp : Input κ) (s : State κ γ) (c : κ) : Int :=
  ((s.added.filter fun x => x.1 = c).map fun x => inp.emission x.1 x.2).sum

/-- Car `c` is about to do `car->totalEmission += totalEmission`. -/
def Adding (s : State κ γ) (c : κ) : Prop := (s.codes c).head? = some .addToCar

instance (s : State κ γ) (c : κ) : Decidable (Adding s c) :=
  inferInstanceAs (Decidable (_ = _))

/-- The total of every car is the sum of its own emissions, once they have been
added. -/
def OwnTotal (inp : Input κ) (s : State κ γ) : Prop :=
  ∀ c, ¬ Adding s c → (s.car c).totalEmission = own inp s c

/-- The total that car `c` adds is its own emission: what was added before sums
up to 0. -/
def AddsOwn (s : State κ γ) (c : κ) : Prop := Adding s c → s.totalEmission = (s.car c).emission

instance (s : State κ γ) (c : κ) : Decidable (AddsOwn s c) :=
  inferInstanceAs (Decidable (_ → _))

variable {inp : Input κ} {s t : State κ γ} {c : κ}

omit [DecidableEq κ] [DecidableEq γ] in
theorem adding_iff {m : Nat} {k : Pos} (h : s.codes c = rest m k) :
    Adding s c ↔ k = .addToCar := by
  rw [Adding, h]
  cases k <;> simp [rest, moveInPath]

/-- What a step of a car does to the totals: it adds an emission to the global
total, or the global total to its own, or neither. -/
inductive Effect (inp : Input κ) (s t : State κ γ) (c : κ) : Prop
  | writes (m : Nat) (hs : ¬ Adding s c) (ht : Adding t c) (hadded : t.added = s.added ++ [(c, m)])
      (hcar : (t.car c).totalEmission = (s.car c).totalEmission)
      (hemission : (t.car c).emission = inp.emission c m)
  | adds (hs : Adding s c) (ht : ¬ Adding t c) (hadded : t.added = s.added)
      (hcar : (t.car c).totalEmission = (s.car c).totalEmission + s.totalEmission)
  | keeps (hs : ¬ Adding s c) (ht : ¬ Adding t c) (hadded : t.added = s.added)
      (hcar : (t.car c).totalEmission = (s.car c).totalEmission)

/-- A step of car `c` leaves the other cars alone. -/
theorem step_car_of_ne (hs : step inp s c = some t) {d : κ} (hd : d ≠ c) : t.car d = s.car d := by
  unfold step at hs
  split at hs
  · next i k hj =>
    cases i with
    | on m o =>
        obtain ⟨r, -, rfl⟩ := Option.map_eq_some_iff.mp hs
        exact Function.update_of_ne hd _ _
    | waitTotal =>
        simp only [exec, Option.ite_none_right_eq_some, Option.some.injEq] at hs
        obtain ⟨-, rfl⟩ := hs
        exact Function.update_of_ne hd _ _
    | setEmission | readTotal | writeTotal | addToCar | postTotal =>
        obtain rfl := Option.some.inj hs
        exact Function.update_of_ne hd _ _
  · split at hs
    · cases hs
    · obtain ⟨m, -, rfl⟩ := Option.map_eq_some_iff.mp hs
      exact Function.update_of_ne hd _ _

omit [DecidableEq γ] in
/-- A step to the position `k`, with neither end at `addToCar`. -/
theorem Effect.goto {m : Nat} {k : Pos} {x : Car γ} (hs : ¬ Adding s c)
    (hcar : t.car = Function.update s.car c x) (hk : x.code = rest m k) (hne : k ≠ .addToCar)
    (htotal : x.totalEmission = (s.car c).totalEmission) (hadded : t.added = s.added) :
    Effect inp s t c := by
  have hcode : t.codes c = rest m k := by rw [State.codes, hcar, Function.update_self, hk]
  refine .keeps hs (fun hadd => hne ((adding_iff hcode).mp hadd)) hadded ?_
  rw [hcar, Function.update_self, htotal]

/-- The effect of an operation of `moveInPath`. -/
theorem Inv.exec_effect (h : Inv inp s) {k : List (Instr γ)} {i : Instr γ}
    (hj : s.codes c = i :: k) (hs : Monitoring.exec inp s c k i = some t) : Effect inp s t c := by
  rcases h.code c with hnil | ⟨m, j, hrest⟩
  · rw [hnil] at hj
    cases hj
  have hadding : Adding s c ↔ j = .addToCar := adding_iff hrest
  cases j with
  | enter =>
      obtain ⟨rfl, rfl⟩ := List.cons.inj (hrest.symm.trans hj)
      simp only [Monitoring.exec, Monitor.exec, Option.map_eq_some_iff,
        Option.ite_none_right_eq_some, Option.some.injEq] at hs
      obtain ⟨r, ⟨-, rfl⟩, rfl⟩ := hs
      exact .goto (k := .setEmission) (by simp [hadding]) rfl rfl (by simp) rfl rfl
  | setEmission =>
      obtain ⟨rfl, rfl⟩ := List.cons.inj (hrest.symm.trans hj)
      obtain rfl := Option.some.inj hs
      exact .goto (k := .waitTotal) (by simp [hadding]) rfl rfl (by simp) rfl rfl
  | waitTotal =>
      obtain ⟨rfl, rfl⟩ := List.cons.inj (hrest.symm.trans hj)
      simp only [Monitoring.exec, Option.ite_none_right_eq_some, Option.some.injEq] at hs
      obtain ⟨-, rfl⟩ := hs
      exact .goto (k := .readTotal) (by simp [hadding]) rfl rfl (by simp) rfl rfl
  | readTotal =>
      obtain ⟨rfl, rfl⟩ := List.cons.inj (hrest.symm.trans hj)
      obtain rfl := Option.some.inj hs
      exact .goto (k := .writeTotal) (by simp [hadding]) rfl rfl (by simp) rfl rfl
  | writeTotal =>
      obtain ⟨rfl, rfl⟩ := List.cons.inj (hrest.symm.trans hj)
      have hemission := h.emission c m _ hrest trivial
      obtain rfl := Option.some.inj hs
      refine .writes m (by simp [hadding]) ?_ rfl (by simp [State.setCar]) ?_
      · simp [Adding, State.codes, State.setCar]
      · simpa [State.setCar] using hemission
  | addToCar =>
      obtain ⟨rfl, rfl⟩ := List.cons.inj (hrest.symm.trans hj)
      obtain rfl := Option.some.inj hs
      refine .adds (by simp [hadding]) ?_ rfl (by simp [State.setCar])
      simp [Adding, State.codes, State.setCar]
  | postTotal =>
      obtain ⟨rfl, rfl⟩ := List.cons.inj (hrest.symm.trans hj)
      obtain rfl := Option.some.inj hs
      exact .goto (k := .leave) (by simp [hadding]) rfl rfl (by simp) rfl rfl
  | leave =>
      obtain ⟨rfl, rfl⟩ := List.cons.inj (hrest.symm.trans hj)
      have hzero : ¬ 0 < ((s.monitor m).cond .next).count := by rw [h.next m]; exact Int.lt_irrefl 0
      simp only [Monitoring.exec, Monitor.exec, if_neg hzero, Option.map_some,
        Option.some.injEq] at hs
      subst hs
      exact .goto (m := m) (k := .exit) (by simp [hadding]) rfl rfl (by simp) rfl rfl
  | exit =>
      obtain ⟨rfl, rfl⟩ := List.cons.inj (hrest.symm.trans hj)
      obtain rfl := Option.some.inj hs
      refine .keeps (by simp [hadding]) ?_ rfl (by simp [State.setCar])
      simp [Adding, State.codes, State.setCar]

theorem Inv.effect (h : Inv inp s) (hs : step inp s c = some t) : Effect inp s t c := by
  unfold step at hs
  split at hs
  · next i k hj => exact h.exec_effect hj hs
  · next hj =>
    split at hs
    · cases hs
    · obtain ⟨m, -, rfl⟩ := Option.map_eq_some_iff.mp hs
      have hout : ¬ Adding s c := by simp [Adding, State.codes, hj]
      exact .goto (k := .enter) hout rfl rfl (by simp) rfl rfl

/-! ### Along a run -/

/-- Every car has the sum of its own emissions, or will have it after adding its
current one. -/
def Settled (inp : Input κ) (s : State κ γ) : Prop :=
  OwnTotal inp s ∧
    ∀ c, Adding s c → (s.car c).totalEmission + (s.car c).emission = own inp s c

omit [DecidableEq γ] in
theorem own_append {m : Nat} (hadded : t.added = s.added ++ [(c, m)]) (d : κ) :
    own inp t d = own inp s d + if d = c then inp.emission c m else 0 := by
  rw [own, hadded, List.filter_append, List.map_append, List.sum_append, own]
  congr 1
  by_cases hd : d = c
  · simp [hd]
  · simp [hd, Ne.symm hd]

omit [DecidableEq γ] in
theorem own_congr (hadded : t.added = s.added) (d : κ) : own inp t d = own inp s d := by
  rw [own, own, hadded]

omit [DecidableEq γ] in
/-- A step changes the sum of no other car. -/
theorem Effect.own_of_ne (h : Effect inp s t c) {d : κ} (hd : d ≠ c) :
    own inp t d = own inp s d := by
  cases h with
  | writes m _ _ hadded _ _ => rw [own_append hadded, if_neg hd, add_zero]
  | adds _ _ hadded _ | keeps _ _ hadded _ => exact own_congr hadded d

omit [DecidableEq γ] in
theorem settled_start (inp : Input κ) : Settled inp (start inp : State κ γ) := by
  refine ⟨fun c _ => rfl, fun c hc => ?_⟩
  simp [Adding, State.codes, start] at hc

/-- The totals stay right as long as a car adds its own emission. -/
theorem Settled.step (h : Settled inp s) (hI : Inv inp s) (hown : AddsOwn s c)
    (hs : step inp s c = some t) : Settled inp t := by
  have hothers : ∀ d, d ≠ c → t.car d = s.car d ∧ (Adding t d ↔ Adding s d) := by
    intro d hd
    have hcar := step_car_of_ne hs hd
    exact ⟨hcar, by rw [Adding, State.codes, hcar]; rfl⟩
  refine ⟨fun d hd => ?_, fun d hd => ?_⟩
  · by_cases hdc : d = c
    · subst hdc
      cases hI.effect hs with
      | writes m _ ht _ _ _ => exact absurd ht hd
      | adds hadd _ hadded hcar =>
          rw [hcar, own_congr hadded, hown hadd]
          exact h.2 d hadd
      | keeps hout _ hadded hcar =>
          rw [hcar, own_congr hadded]
          exact h.1 d hout
    · obtain ⟨hcar, hadding⟩ := hothers d hdc
      rw [hcar, (hI.effect hs).own_of_ne hdc]
      exact h.1 d fun hadd => hd (hadding.mpr hadd)
  · by_cases hdc : d = c
    · subst hdc
      cases hI.effect hs with
      | writes m hout _ hadded hcar hemission =>
          rw [hcar, hemission, own_append hadded, if_pos rfl, h.1 d hout]
      | adds _ ht _ _ | keeps _ ht _ _ => exact absurd hd ht
    · obtain ⟨hcar, hadding⟩ := hothers d hdc
      rw [hcar, (hI.effect hs).own_of_ne hdc]
      exact h.2 d (hadding.mp hd)

/-- Anything else that a car adds makes its total wrong. -/
theorem Settled.breaks (h : Settled inp s) (hI : Inv inp s) (hown : ¬ AddsOwn s c)
    (hs : Monitoring.step inp s c = some t) : ¬ OwnTotal inp t := by
  obtain ⟨hadd, hne⟩ : Adding s c ∧ s.totalEmission ≠ (s.car c).emission := by
    simpa [AddsOwn] using hown
  intro hall
  cases hI.effect hs with
  | writes _ hout _ _ _ _ | keeps hout _ _ _ => exact hout hadd
  | adds _ ht hadded hcar =>
      have htotal := hall c ht
      rw [hcar, own_congr hadded, ← h.2 c hadd] at htotal
      exact hne (add_left_cancel htotal)

/-- Every crossing is somebody's. -/
theorem sum_own [Fintype κ] (l : List (κ × Nat)) (f : κ × Nat → Int) :
    ∑ c, ((l.filter fun x => x.1 = c).map f).sum = (l.map f).sum := by
  induction l with
  | nil => simp
  | cons x l ih =>
      have hcons : ∀ c, (((x :: l).filter fun x => x.1 = c).map f).sum =
          (if x.1 = c then f x else 0) + ((l.filter fun x => x.1 = c).map f).sum := by
        intro c
        by_cases hc : x.1 = c <;> simp [hc]
      rw [Finset.sum_congr rfl fun c _ => hcons c, Finset.sum_add_distrib, ih, List.map_cons,
        List.sum_cons, Finset.sum_ite_eq, if_pos (Finset.mem_univ _)]

/-- **The totals of the cars.** In a run the total of every car is the sum of its
own emissions in every state iff, whenever a car adds the global total, all
crossings before have emissions that sum up to 0. In such a run the totals of the
cars add up to the global one when all threads are done. -/
theorem own_total_iff [Fintype κ] (inp : Input κ) (as : List κ) (s : State κ γ)
    (h : (machine inp).exec (start inp) as = some s) :
    ((machine inp).Always (OwnTotal inp) (start inp : State κ γ) as ↔
      (machine inp).Meets AddsOwn (start inp : State κ γ) as) ∧
    ((machine inp).Meets AddsOwn (start inp : State κ γ) as → (∀ c, s.codes c = []) →
      ∑ c, (s.car c).totalEmission = s.totalEmission) := by
  have hgood : ∀ (s : State κ γ) c t, Inv inp s ∧ Settled inp s → AddsOwn s c →
      (machine inp).step s c = some t → Inv inp t ∧ Settled inp t := fun s c t hI hown hs =>
    ⟨hI.1.of_step hs, hI.2.step hI.1 hown hs⟩
  refine ⟨(machine inp).exec_always_iff (I := fun s => Inv inp s ∧ Settled inp s)
    (fun s hI => hI.2.1) hgood (fun s c t hI hown hs => hI.2.breaks hI.1 hown hs)
    ⟨inv_start inp, settled_start inp⟩ h, fun hown hdone => ?_⟩
  obtain ⟨hI, hsettled⟩ := (machine inp).exec_induction hgood
    (show Inv inp (start inp : State κ γ) ∧ Settled inp (start inp) from
      ⟨inv_start inp, settled_start inp⟩) hown h
  have htotal : ∀ c, (s.car c).totalEmission = own inp s c := fun c =>
    hsettled.1 c (by simp [Adding, hdone c])
  rw [Finset.sum_congr rfl fun c _ => htotal c, hI.sum]
  exact sum_own s.added _

/-- The first crossing of the first car. -/
theorem own_total_iff_first : ∃ s : State (Fin 2) (Fin 1),
    s.totalEmission = 7 ∧ (machine twoCars).Always (OwnTotal twoCars)
      (start twoCars : State (Fin 2) (Fin 1)) [0, 0, 0, 0, 0, 0, 0, 0, 0, 0] := by
  have hrun : ((machine twoCars).execWhile AddsOwn (start twoCars : State (Fin 2) (Fin 1))
      [0, 0, 0, 0, 0, 0, 0, 0, 0, 0]).map (fun s => s.totalEmission) = some 7 := by
    decide +kernel
  obtain ⟨s, hs, hvalue⟩ := Option.map_eq_some_iff.mp hrun
  obtain ⟨hmeets, hexec⟩ := (machine twoCars).meets_of_execWhile hs
  exact ⟨s, hvalue, (own_total_iff twoCars _ s hexec).1.mpr hmeets⟩

/-- Car 1 crosses road 0 after car 0. -/
theorem own_total_second : ¬ ∀ (inp : Input (Fin 2)) (s : State (Fin 2) (Fin 1)),
    (machine inp).Reach s → OwnTotal inp s := by
  intro h
  have hrun : (((machine twoCars).exec (start twoCars : State (Fin 2) (Fin 1))
      [0, 0, 1, 0, 0, 0, 0, 0, 0, 0, 0, 1, 0, 0, 1, 1, 1, 1, 0, 1, 1]).map
      fun s => (decide (Adding s 1), (s.car 1).totalEmission, own twoCars s 1)) =
        some (false, 12, 5) := by decide +kernel
  obtain ⟨s, hs, heq⟩ := Option.map_eq_some_iff.mp hrun
  obtain ⟨hadding, heq⟩ := Prod.mk.inj heq
  obtain ⟨htotal, hown⟩ := Prod.mk.inj heq
  have hsame := h twoCars s ⟨_, hs⟩ 1 (of_decide_eq_false hadding)
  rw [htotal, hown] at hsame
  exact absurd hsame (by decide)

end OsCourse.Monitoring
