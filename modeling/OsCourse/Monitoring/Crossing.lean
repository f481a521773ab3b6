import Mathlib.Algebra.Ring.Int.Defs
import Mathlib.Data.List.Basic
import OsCourse.Lib.Lock
import OsCourse.Monitoring.Model

/-!
# OsCourse.Monitoring.Crossing

Crossings of roads that only use `moveInPath`: at most one car is on a road,
`next->count` stays 0, so that the `signal` branch at the end of a crossing is
never taken, and the global total is the sum of all emissions added.

The invariant is read off where each thread stands (`Pos`): the two kinds of
semaphore are locks of regions of `moveInPath` (`Lib.Held`), and the value read
by `totalEmission += emission` is still the total when it is written back.
-/

namespace OsCourse.Monitoring

open OsCourse.Lib

/-- The operation a thread inside `moveInPath` does next. -/
inductive Pos
  | enter
  | setEmission
  | waitTotal
  | readTotal
  | writeTotal
  | addToCar
  | postTotal
  | leave
  /-- `sem_post(&mutex)`, with `next->count` seen 0. -/
  | exit
  deriving DecidableEq, Repr

namespace Pos

/-- Between `sem_wait(&mutex)` and the final `sem_post`. -/
def Inside : Pos → Prop
  | enter => False
  | _ => True

/-- Between `sem_wait(&totalEmissionSem)` and its `sem_post`. -/
def HoldsTotal : Pos → Prop
  | readTotal | writeTotal | addToCar | postTotal => True
  | _ => False

/-- The emission of the crossing has been computed. -/
def Emitted : Pos → Prop
  | enter | setEmission => False
  | _ => True

end Pos

variable {γ : Type}

/-- What is left of `moveInPath` on monitor `m`. -/
def rest (m : Nat) : Pos → List (Instr γ)
  | .enter => moveInPath m
  | .setEmission => (moveInPath m).drop 1
  | .waitTotal => (moveInPath m).drop 2
  | .readTotal => (moveInPath m).drop 3
  | .writeTotal => (moveInPath m).drop 4
  | .addToCar => (moveInPath m).drop 5
  | .postTotal => (moveInPath m).drop 6
  | .leave => (moveInPath m).drop 7
  | .exit => [.on m .exit]

/-- What is left tells the road and the operation. -/
theorem rest_inj {m n : Nat} {j k : Pos} (h : (rest m j : List (Instr γ)) = rest n k) :
    m = n ∧ j = k := by
  cases j <;> cases k <;> simp_all [rest, moveInPath]

/-- The thread stands on road `m`, at an operation of the region `R`. -/
def On (m : Nat) (R : Pos → Prop) (code : List (Instr γ)) : Prop :=
  ∃ k, R k ∧ code = rest m k

@[simp] theorem on_rest {m n : Nat} {R : Pos → Prop} {k : Pos} :
    On m R (rest n k : List (Instr γ)) ↔ n = m ∧ R k := by
  constructor
  · intro h
    obtain ⟨j, hj, heq⟩ := h
    obtain ⟨rfl, rfl⟩ := rest_inj heq
    exact ⟨rfl, hj⟩
  · intro h
    obtain ⟨rfl, hk⟩ := h
    exact ⟨k, hk, rfl⟩

@[simp] theorem not_on_nil {m : Nat} {R : Pos → Prop} : ¬ On m R ([] : List (Instr γ)) := by
  rintro ⟨k, -, hk⟩
  cases k <;> simp [rest, moveInPath] at hk

variable {κ : Type}

/-- What is left of the call each thread is in. -/
def State.codes (s : State κ γ) (c : κ) : List (Instr γ) := (s.car c).code

/-- A semaphore of initial value 1 with the holder `o`. -/
def semValue {ι : Type} (o : Option ι) : Nat := if o.isSome then 0 else 1

/-- The invariant. -/
structure Inv (inp : Input κ) (s : State κ γ) : Prop where
  code : ∀ c, s.codes c = [] ∨ ∃ m k, s.codes c = rest m k
  mutex : ∀ m, ∃ o, Held (On m Pos.Inside) o s.codes ∧ (s.monitor m).mutex = semValue o
  next : ∀ m, ((s.monitor m).cond .next).count = 0
  total : ∃ o, Held (fun code => ∃ m, On m Pos.HoldsTotal code) o s.codes ∧
    s.totalEmissionSem = semValue o
  emission : ∀ c m k, s.codes c = rest m k → k.Emitted → (s.car c).emission = inp.emission c m
  tmp : ∀ c m, s.codes c = rest m .writeTotal → (s.car c).tmp = s.totalEmission
  sum : s.totalEmission = (s.added.map fun x => inp.emission x.1 x.2).sum

theorem inv_start (inp : Input κ) : Inv inp (start inp : State κ γ) where
  code c := .inl rfl
  mutex m := ⟨none, fun c => by simp [State.codes, start], rfl⟩
  next m := rfl
  total := ⟨none, fun c => by simp [State.codes, start], rfl⟩
  emission c m k h := by cases k <;> simp [State.codes, start, rest, moveInPath] at h
  tmp c m h := by simp [State.codes, start, rest, moveInPath] at h
  sum := rfl

theorem semValue_pos {ι : Type} {o : Option ι} (h : 0 < semValue o) : o = none := by
  cases o <;> simp_all [semValue]

variable [DecidableEq κ]

theorem State.codes_update {s t : State κ γ} {c : κ} {x : Car γ}
    (hcar : t.car = Function.update s.car c x) :
    t.codes = Function.update s.codes c x.code := by
  funext d
  rw [State.codes, hcar]
  by_cases hd : d = c
  · subst hd
    rw [Function.update_self, Function.update_self]
  · rw [Function.update_of_ne hd, Function.update_of_ne hd, State.codes]

namespace Inv

variable {inp : Input κ} {s t : State κ γ} {c : κ} {m : Nat} {j k : Pos} {x : Car γ}

/-- The mutexes, when the car stays on its side of them. -/
theorem mutex_stay (h : Inv inp s) (hj : s.codes c = rest m j) (hjk : k.Inside ↔ j.Inside)
    (n : Nat) : ∃ o, Held (On n Pos.Inside) o (Function.update s.codes c (rest m k)) ∧
      (s.monitor n).mutex = semValue o := by
  obtain ⟨o, ho, heq⟩ := h.mutex n
  exact ⟨o, ho.stay hj (by simp [hjk]), heq⟩

/-- `totalEmissionSem`, when the car stays on its side of it. -/
theorem total_stay (h : Inv inp s) (hj : s.codes c = rest m j)
    (hjk : k.HoldsTotal ↔ j.HoldsTotal) :
    ∃ o, Held (fun code => ∃ m, On m Pos.HoldsTotal code) o
      (Function.update s.codes c (rest m k)) ∧ s.totalEmissionSem = semValue o := by
  obtain ⟨o, ho, heq⟩ := h.total
  exact ⟨o, ho.stay hj (by simp [hjk]), heq⟩

/-- A step of car `c`, which has `x.code` left afterwards. Only the holder of
`totalEmissionSem` may change the total. -/
theorem move (h : Inv inp s) (hcar : t.car = Function.update s.car c x)
    (hcode : x.code = [] ∨ ∃ m k, x.code = rest m k)
    (hmutex : ∀ n, ∃ o, Held (On n Pos.Inside) o (Function.update s.codes c x.code) ∧
      (t.monitor n).mutex = semValue o)
    (hnext : ∀ n, ((t.monitor n).cond .next).count = ((s.monitor n).cond .next).count)
    (htotal : ∃ o, Held (fun code => ∃ m, On m Pos.HoldsTotal code) o
      (Function.update s.codes c x.code) ∧ t.totalEmissionSem = semValue o)
    (hemission : ∀ m k, x.code = rest m k → k.Emitted → x.emission = inp.emission c m)
    (htmp : ∀ m, x.code = rest m .writeTotal → x.tmp = t.totalEmission)
    (hothers : ∀ d n, d ≠ c → s.codes d = rest n .writeTotal → t.totalEmission = s.totalEmission)
    (hsum : t.totalEmission = (t.added.map fun x => inp.emission x.1 x.2).sum) : Inv inp t := by
  have hcodes : t.codes = Function.update s.codes c x.code := State.codes_update hcar
  have hcases : ∀ d n i, t.codes d = rest n i →
      (d = c ∧ x.code = rest n i) ∨ (d ≠ c ∧ s.codes d = rest n i) := by
    intro d n i hd
    exact region_update (R := (· = rest n i)) (hcodes ▸ hd)
  refine ⟨fun d => ?_, hcodes ▸ hmutex, fun n => (hnext n).trans (h.next n), hcodes ▸ htotal,
    fun d n i hi he => ?_, fun d n hi => ?_, hsum⟩
  · rw [hcodes]
    by_cases hd : d = c
    · subst hd
      rw [Function.update_self]
      exact hcode
    · rw [Function.update_of_ne hd]
      exact h.code d
  · rw [hcar]
    rcases hcases d n i hi with ⟨rfl, hi⟩ | ⟨hd, hi⟩
    · rw [Function.update_self]
      exact hemission n i hi he
    · rw [Function.update_of_ne hd]
      exact h.emission d n i hi he
  · rw [hcar]
    rcases hcases d n _ hi with ⟨rfl, hi⟩ | ⟨hd, hi⟩
    · rw [Function.update_self]
      exact htmp n hi
    · rw [Function.update_of_ne hd, hothers d n hd hi]
      exact h.tmp d n hi

/-- A step of car `c` on road `m` to `k` that leaves the total alone. -/
theorem goto (h : Inv inp s) (hcar : t.car = Function.update s.car c x) (hk : x.code = rest m k)
    (hmutex : ∀ n, ∃ o, Held (On n Pos.Inside) o (Function.update s.codes c (rest m k)) ∧
      (t.monitor n).mutex = semValue o)
    (hnext : ∀ n, ((t.monitor n).cond .next).count = ((s.monitor n).cond .next).count)
    (htotal : ∃ o, Held (fun code => ∃ m, On m Pos.HoldsTotal code) o
      (Function.update s.codes c (rest m k)) ∧ t.totalEmissionSem = semValue o)
    (hemission : k.Emitted → x.emission = inp.emission c m)
    (htmp : k = .writeTotal → x.tmp = s.totalEmission)
    (hsame : t.totalEmission = s.totalEmission) (hadded : t.added = s.added) : Inv inp t := by
  refine h.move hcar (.inr ⟨m, k, hk⟩) (hk ▸ hmutex) hnext (hk ▸ htotal) (fun n i hi he => ?_)
    (fun n hi => ?_) (fun _ _ _ _ => hsame) (by rw [hsame, hadded]; exact h.sum)
  · obtain ⟨rfl, rfl⟩ := rest_inj (hk.symm.trans hi)
    exact hemission he
  · rw [hsame]
    exact htmp (rest_inj (hk.symm.trans hi)).2

/-- A step from `j` to `k` on road `m` that changes no semaphore either. -/
theorem stay (h : Inv inp s) (hj : s.codes c = rest m j) (hk : x.code = rest m k)
    (hinside : k.Inside ↔ j.Inside) (htotal : k.HoldsTotal ↔ j.HoldsTotal)
    (hemission : k.Emitted → x.emission = inp.emission c m)
    (htmp : k = .writeTotal → x.tmp = s.totalEmission) : Inv inp (s.setCar c x) :=
  h.goto rfl hk (h.mutex_stay hj hinside) (fun _ => rfl) (h.total_stay hj htotal) hemission htmp
    rfl rfl

/-- `sem_wait(&mutex)`: the car is alone on the road. -/
theorem enter (h : Inv inp s) (hj : s.codes c = rest m .enter) (hpos : 0 < (s.monitor m).mutex) :
    Inv inp { s.setCar c { s.car c with code := rest m .setEmission } with
      monitor := Function.update s.monitor m
        { s.monitor m with mutex := (s.monitor m).mutex - 1 } } := by
  refine h.goto (k := .setEmission) rfl rfl (fun n => ?_) (fun n => ?_)
    (h.total_stay hj Iff.rfl) False.elim (by simp) rfl rfl
  · obtain ⟨o, ho, heq⟩ := h.mutex n
    by_cases hn : n = m
    · subst hn
      obtain rfl := semValue_pos (heq ▸ hpos)
      exact ⟨some c, ho.acquire (by simp [Pos.Inside]), by simp [heq, semValue]⟩
    · exact ⟨o, ho.stay hj (by simp [Ne.symm hn]), by simpa [hn] using heq⟩
  · by_cases hn : n = m
    · subst hn
      simp
    · simp [hn]

/-- The final `sem_post(&mutex)`: the road is free. -/
theorem exit (h : Inv inp s) (hj : s.codes c = rest m .exit) :
    Inv inp { s.setCar c { s.car c with code := [] } with
      monitor := Function.update s.monitor m
        { s.monitor m with mutex := (s.monitor m).mutex + 1 } } := by
  have hnil : ∀ n k, ([] : List (Instr γ)) ≠ rest n k := by
    intro n k
    cases k <;> simp [rest, moveInPath]
  obtain ⟨o, ho, heq⟩ := h.total
  refine h.move rfl (.inl rfl) (fun n => ?_) (fun n => ?_)
    ⟨o, ho.stay hj (by simp [Pos.HoldsTotal]), heq⟩ (fun n k hk => absurd hk (hnil n k))
    (fun n hk => absurd hk (hnil n _)) (fun _ _ _ _ => rfl) h.sum
  · obtain ⟨o, ho, heq⟩ := h.mutex n
    by_cases hn : n = m
    · subst hn
      have hholder : o = some c := ho.holder (by simp [hj, Pos.Inside])
      exact ⟨none, ho.release hholder not_on_nil, by simp [heq, hholder, semValue]⟩
    · exact ⟨o, ho.stay hj (by simp [Ne.symm hn]), by simpa [hn] using heq⟩
  · by_cases hn : n = m
    · subst hn
      simp
    · simp [hn]

/-- `sem_wait(&totalEmissionSem)`. -/
theorem waitTotal (h : Inv inp s) (hj : s.codes c = rest m .waitTotal)
    (hpos : 0 < s.totalEmissionSem) :
    Inv inp { s.setCar c { s.car c with code := rest m .readTotal } with
      totalEmissionSem := s.totalEmissionSem - 1 } := by
  obtain ⟨o, ho, heq⟩ := h.total
  obtain rfl := semValue_pos (heq ▸ hpos)
  refine h.goto (k := .readTotal) rfl rfl (h.mutex_stay hj Iff.rfl) (fun _ => rfl)
    ⟨some c, ho.acquire ⟨m, by simp [Pos.HoldsTotal]⟩, by simp [heq, semValue]⟩
    (fun _ => h.emission c m _ hj trivial) (by simp) rfl rfl

/-- `totalEmission += emission`: what was read is still the total. -/
theorem writeTotal (h : Inv inp s) (hj : s.codes c = rest m .writeTotal) :
    Inv inp { s.setCar c { s.car c with code := rest m .addToCar } with
      totalEmission := (s.car c).tmp + (s.car c).emission
      added := s.added ++ [(c, m)] } := by
  obtain ⟨o, ho, heq⟩ := h.total
  have hc : ∃ n, On n Pos.HoldsTotal (s.codes c) := ⟨m, by simp [hj, Pos.HoldsTotal]⟩
  have hnew : ∀ n k, (rest m .addToCar : List (Instr γ)) = rest n k → m = n ∧ .addToCar = k :=
    fun _ _ => rest_inj
  refine h.move rfl (.inr ⟨m, .addToCar, rfl⟩) (h.mutex_stay (k := .addToCar) hj Iff.rfl)
    (fun _ => rfl) (h.total_stay (k := .addToCar) hj Iff.rfl) (fun n k hk _ => ?_)
    (fun n hk => absurd (hnew n _ hk).2 (by simp)) (fun d n hd hdn => ?_) ?_
  · rw [← (hnew n k hk).1]
    exact h.emission c m _ hj trivial
  · -- nobody else is about to write the total
    exact absurd ⟨n, by simp [hdn, Pos.HoldsTotal]⟩ (ho.outside hc hd)
  · rw [List.map_append, List.sum_append, ← h.sum, ← h.tmp c m hj]
    simp [h.emission c m _ hj trivial]

/-- `sem_post(&totalEmissionSem)`. -/
theorem postTotal (h : Inv inp s) (hj : s.codes c = rest m .postTotal) :
    Inv inp { s.setCar c { s.car c with code := rest m .leave } with
      totalEmissionSem := s.totalEmissionSem + 1 } := by
  obtain ⟨o, ho, heq⟩ := h.total
  have hholder : o = some c := ho.holder ⟨m, by simp [hj, Pos.HoldsTotal]⟩
  refine h.goto (k := .leave) rfl rfl (h.mutex_stay hj Iff.rfl) (fun _ => rfl)
    ⟨none, ho.release hholder (by simp [Pos.HoldsTotal]), by simp [heq, hholder, semValue]⟩
    (fun _ => h.emission c m _ hj trivial) (by simp) rfl rfl

/-- Starting the next crossing. -/
theorem call (h : Inv inp s) (hj : s.codes c = []) (hk : x.code = rest m .enter) :
    Inv inp (s.setCar c x) := by
  have hout : ∀ n (R : Pos → Prop), ¬ On n R (s.codes c) := by
    intro n R
    rw [hj]
    exact not_on_nil
  refine h.goto (k := .enter) rfl hk (fun n => ?_) (fun _ => rfl) ?_ False.elim (by simp) rfl rfl
  · obtain ⟨o, ho, heq⟩ := h.mutex n
    exact ⟨o, ho.stay hj (by simp [Pos.Inside]), heq⟩
  · obtain ⟨o, ho, heq⟩ := h.total
    exact ⟨o, ho.stay hj (by simp [Pos.HoldsTotal]), heq⟩

variable [DecidableEq γ]

/-- A step inside `moveInPath` keeps the invariant: the test at its end never
finds anybody in `next`. -/
theorem exec (h : Inv inp s) {k : List (Instr γ)} {i : Instr γ} (hj : s.codes c = i :: k)
    (hs : exec inp s c k i = some t) : Inv inp t := by
  rcases h.code c with hnil | ⟨m, j, hrest⟩
  · rw [hnil] at hj
    cases hj
  cases j with
  | enter =>
      obtain ⟨rfl, rfl⟩ := List.cons.inj (hrest.symm.trans hj)
      simp only [Monitoring.exec, Monitor.exec, Option.map_eq_some_iff,
        Option.ite_none_right_eq_some, Option.some.injEq] at hs
      obtain ⟨r, ⟨hpos, rfl⟩, rfl⟩ := hs
      exact h.enter hrest hpos
  | setEmission =>
      obtain ⟨rfl, rfl⟩ := List.cons.inj (hrest.symm.trans hj)
      obtain rfl := Option.some.inj hs
      exact h.stay (k := .waitTotal) hrest rfl Iff.rfl Iff.rfl (fun _ => rfl) (by simp)
  | waitTotal =>
      obtain ⟨rfl, rfl⟩ := List.cons.inj (hrest.symm.trans hj)
      simp only [Monitoring.exec, Option.ite_none_right_eq_some, Option.some.injEq] at hs
      obtain ⟨hpos, rfl⟩ := hs
      exact h.waitTotal hrest hpos
  | readTotal =>
      obtain ⟨rfl, rfl⟩ := List.cons.inj (hrest.symm.trans hj)
      obtain rfl := Option.some.inj hs
      exact h.stay (k := .writeTotal) hrest rfl Iff.rfl Iff.rfl
        (fun _ => h.emission c m _ hrest trivial) (fun _ => rfl)
  | writeTotal =>
      obtain ⟨rfl, rfl⟩ := List.cons.inj (hrest.symm.trans hj)
      obtain rfl := Option.some.inj hs
      exact h.writeTotal hrest
  | addToCar =>
      obtain ⟨rfl, rfl⟩ := List.cons.inj (hrest.symm.trans hj)
      obtain rfl := Option.some.inj hs
      exact h.stay (k := .postTotal) hrest rfl Iff.rfl Iff.rfl
        (fun _ => h.emission c m _ hrest trivial) (by simp)
  | postTotal =>
      obtain ⟨rfl, rfl⟩ := List.cons.inj (hrest.symm.trans hj)
      obtain rfl := Option.some.inj hs
      exact h.postTotal hrest
  | leave =>
      obtain ⟨rfl, rfl⟩ := List.cons.inj (hrest.symm.trans hj)
      have hzero : ¬ 0 < ((s.monitor m).cond .next).count := by rw [h.next m]; exact Int.lt_irrefl 0
      simp only [Monitoring.exec, Monitor.exec, if_neg hzero, Option.map_some, Option.some.injEq,
        Function.update_eq_self] at hs
      subst hs
      exact h.stay (k := .exit) hrest rfl Iff.rfl Iff.rfl
        (fun _ => h.emission c m _ hrest trivial) (by simp)
  | exit =>
      obtain ⟨rfl, rfl⟩ := List.cons.inj (hrest.symm.trans hj)
      obtain rfl := Option.some.inj hs
      exact h.exit hrest

/-- Every step keeps the invariant. -/
theorem of_step (h : Inv inp s) (hs : step inp s c = some t) : Inv inp t := by
  unfold step at hs
  split at hs
  · next i k hj => exact h.exec hj hs
  · next hj =>
    split at hs
    · cases hs
    · obtain ⟨m, -, rfl⟩ := Option.map_eq_some_iff.mp hs
      exact h.call hj rfl

end Inv

variable [DecidableEq γ]

/-- **Road crossings.** In every reachable state each thread is outside
`moveInPath` or at one of its operations; at most one car is inside a road's
section; nobody ever waits in `next`, so that the end of a crossing posts
`mutex`, whose value is 0 or 1; and the global total is the sum of the emissions
of all crossings that have added theirs. -/
theorem crossing_safe (inp : Input κ) (s : State κ γ) (hs : (machine inp).Reach s) :
    (∀ c, s.codes c = [] ∨ ∃ m k, s.codes c = rest m k) ∧
    (∀ m c d, On m Pos.Inside (s.codes c) → On m Pos.Inside (s.codes d) → c = d) ∧
    (∀ m, ((s.monitor m).cond .next).count = 0 ∧ (s.monitor m).mutex ≤ 1) ∧
    (∀ c m, s.codes c = rest m .leave → ∃ t, step inp s c = some t ∧ t.codes c = rest m .exit) ∧
    s.totalEmission = (s.added.map fun x => inp.emission x.1 x.2).sum := by
  have h : Inv inp s := hs.induction (inv_start inp) fun _ _ _ h hstep => h.of_step hstep
  refine ⟨h.code, fun m c d hc hd => ?_, fun m => ⟨h.next m, ?_⟩, fun c m hc => ?_, h.sum⟩
  · obtain ⟨o, ho, -⟩ := h.mutex m
    exact ho.unique hc hd
  · obtain ⟨o, -, heq⟩ := h.mutex m
    rw [heq, semValue]
    split <;> decide
  · have hzero : ¬ 0 < ((s.monitor m).cond .next).count := by rw [h.next m]; exact Int.lt_irrefl 0
    have hcode : (s.car c).code = [.on m .leave] := hc
    refine ⟨_, by simp only [step, hcode, exec, Monitor.exec, if_neg hzero, Option.map_some]; rfl, ?_⟩
    simp [State.codes, State.setCar, rest]

/-- Two roads; car 0 takes both and car 1 the first. -/
def twoCars : Input (Fin 2) where
  monitors := [⟨"1", "2"⟩, ⟨"2", "3"⟩]
  pathSequence c := if c.val = 0 then [⟨"1", "2"⟩, ⟨"2", "3"⟩] else [⟨"1", "2"⟩]
  emission c _ := if c.val = 0 then 7 else 5

/-- Car 1 waits for road 0 until car 0 has left it, and both emissions are in. -/
theorem crossing_safe_two : ∃ s : State (Fin 2) (Fin 1),
    (s.totalEmission = 12 ∧ s.added = [(0, 0), (1, 0)]) ∧
      s.totalEmission = (s.added.map fun x => twoCars.emission x.1 x.2).sum := by
  have hrun : (((machine twoCars).exec (start twoCars : State (Fin 2) (Fin 1))
      [0, 0, 1, 0, 0, 0, 0, 0, 0, 0, 0, 1, 0, 0, 1, 1, 1, 1, 0, 1]).map
      fun s => (s.totalEmission, s.added)) = some (12, [(0, 0), (1, 0)]) := by decide +kernel
  obtain ⟨s, hs, heq⟩ := Option.map_eq_some_iff.mp hrun
  exact ⟨s, Prod.mk.inj heq, (crossing_safe twoCars s ⟨_, hs⟩).2.2.2.2⟩

end OsCourse.Monitoring
