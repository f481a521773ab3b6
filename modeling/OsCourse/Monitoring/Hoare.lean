import OsCourse.Lib.Lock
import OsCourse.Monitoring.Model

/-!
# OsCourse.Monitoring.Hoare

The conditions of a monitor, which the cars never use: any number of threads
that enter by `sem_wait(&mutex)`, leave as `moveInPath` does, and inside call
`wait` and `signal` as often as they like.

The semaphore of a new condition is 1, so that the first `sem_wait` in `wait`
does not wait: the thread goes on without a signal, after giving the mutex up.
As long as nobody gets past that `sem_wait` the counts stay 0 and the monitor is
its mutex (`hoare_of_blocked`).
-/

namespace OsCourse.Monitoring

open OsCourse.Lib

/-! ### Threads -/

/-- A thread: whether it has entered, what is left of the call it is in, and the
condition of its last call, if that was `wait`, with whether `signal` was called
for it since. -/
structure Thread (γ : Type) where
  inside : Bool
  code : List (Op γ)
  waited : Option (γ × Bool)

/-- One monitor and its threads. -/
structure Hall (τ γ : Type) where
  monitor : Monitor γ
  thread : τ → Thread γ

variable {τ γ : Type}

/-- What happens next. -/
inductive Call (τ γ : Type)
  | enter (t : τ)
  | leave (t : τ)
  | wait (t : τ) (c : γ)
  | signal (t : τ) (c : γ)
  /-- Thread `t` does the next operation of its call. -/
  | step (t : τ)
  deriving DecidableEq, Repr

/-- The monitor as constructed, with all threads outside. -/
def Hall.new (τ γ : Type) : Hall τ γ := ⟨.new γ, fun _ => ⟨false, [], none⟩⟩

section Step

variable [DecidableEq τ] [DecidableEq γ]

namespace Hall

/-- Thread `t` changed to `x`. -/
def setThread (s : Hall τ γ) (t : τ) (x : Thread γ) : Hall τ γ :=
  { s with thread := Function.update s.thread t x }

/-- A call of `signal`, as the threads still waiting for `c` see it. -/
def noteSignal (s : Hall τ γ) (c : γ) : Hall τ γ :=
  { s with thread := fun u =>
      if (s.thread u).waited = some (c, false) ∧ (s.thread u).code ≠ [] then
        { s.thread u with waited := some (c, true) }
      else s.thread u }

/-- One step. -/
def next (s : Hall τ γ) : Call τ γ → Option (Hall τ γ)
  | .enter t =>
      if (s.thread t).code = [] ∧ (s.thread t).inside = false then
        some (s.setThread t ⟨true, [.enter], none⟩)
      else none
  | .leave t =>
      if (s.thread t).code = [] ∧ (s.thread t).inside = true then
        some (s.setThread t ⟨false, [.leave], none⟩)
      else none
  | .wait t c =>
      if (s.thread t).code = [] ∧ (s.thread t).inside = true then
        some (s.setThread t ⟨true, [.wait (.user c)], some (c, false)⟩)
      else none
  | .signal t c =>
      if (s.thread t).code = [] ∧ (s.thread t).inside = true then
        some ((s.noteSignal c).setThread t ⟨true, [.signal (.user c)], none⟩)
      else none
  | .step t =>
      match (s.thread t).code with
      | [] => none
      | i :: k => (s.monitor.exec i).map fun r =>
          { s.setThread t { s.thread t with code := r.2 ++ k } with monitor := r.1 }

end Hall

/-- The threads of `τ` in one monitor with the conditions of `γ`. -/
def hall (τ γ : Type) [DecidableEq τ] [DecidableEq γ] : Machine (Hall τ γ) (Call τ γ) where
  init := .new τ γ
  step := Hall.next

end Step

/-! ### What a Hoare monitor promises -/

/-- The thread runs inside the monitor: it is not on its way in, and does not
stand at a `sem_wait` of `wait`. -/
def Thread.Active (x : Thread γ) : Prop :=
  match x.code with
  | [] => x.inside = true
  | .enter :: _ | .semWait _ :: _ => False
  | _ => True

/-- The thread is blocked in `wait(c)`. -/
def Blocked (s : Hall τ γ) (u : τ) (c : γ) : Prop :=
  (s.monitor.cond (.user c)).s = 0 ∧ ∃ k, (s.thread u).code = .semWait (.user c) :: k

/-- The promises, in one state. -/
structure IsHoare [DecidableEq τ] [DecidableEq γ] (s : Hall τ γ) : Prop where
  /-- At most one thread is active inside. -/
  exclusive : ∀ t u, (s.thread t).Active → (s.thread u).Active → t = u
  /-- A `wait(c)` that has returned was followed by a `signal(c)`. -/
  signalled : ∀ t c b, (s.thread t).waited = some (c, b) → (s.thread t).code = [] → b = true
  /-- A `signal(c)` about to test the count, while somebody is blocked in
  `wait(c)`, goes on to post the semaphore. -/
  resumes : ∀ t u c k s', (s.thread t).code = .signal (.user c) :: k → Blocked s u c →
    s.next (.step t) = some s' → Op.semPost (.user c) ∈ (s'.thread t).code

/-- The next operation is the `sem_wait` of a `wait(c)`. -/
def Thread.atWait (x : Thread γ) : Bool :=
  match x.code with
  | .semWait (.user _) :: _ => true
  | _ => false

/-- Nobody gets past the `sem_wait` of a `wait(c)`. -/
def HeldUp (s : Hall τ γ) : Call τ γ → Prop
  | .step t => (s.thread t).atWait = false
  | _ => True

instance (s : Hall τ γ) : ∀ a, Decidable (HeldUp s a)
  | .enter _ | .leave _ | .wait _ _ | .signal _ _ => inferInstanceAs (Decidable True)
  | .step _ => inferInstanceAs (Decidable (_ = _))

/-! ### Where the threads stand -/

/-- A program point of a thread that nobody has resumed from a `wait`. -/
inductive Stand (γ : Type)
  | outside
  | entering
  | inside
  | leaving
  /-- `sem_post(&mutex)` of a thread that leaves. -/
  | exiting
  | signalling (c : γ)
  | waiting (c : γ)
  | waitLeaving (c : γ)
  /-- `sem_post(&mutex)` of a thread that waits. -/
  | waitExiting (c : γ)
  | blocked (c : γ)

namespace Stand

/-- What is left of the call. -/
def code : Stand γ → List (Op γ)
  | outside | inside => []
  | entering => [.enter]
  | leaving => [.leave]
  | exiting => [.exit]
  | signalling c => [.signal (.user c)]
  | waiting c => [.wait (.user c)]
  | waitLeaving c => [.leave, .semWait (.user c), .inc (.user c)]
  | waitExiting c => [.exit, .semWait (.user c), .inc (.user c)]
  | blocked c => [.semWait (.user c), .inc (.user c)]

/-- Between a call of `enter` and a call of `leave`. -/
def entered : Stand γ → Bool
  | outside | leaving | exiting => false
  | _ => true

/-- The thread has the mutex. -/
def Owns : Stand γ → Prop
  | outside | entering | blocked _ => False
  | _ => True

/-- The thread is in a call of `wait`. -/
def Waits : Stand γ → Prop
  | waiting _ | waitLeaving _ | waitExiting _ | blocked _ => True
  | _ => False

end Stand

/-- Thread `x` stands at `k`; it has returned from no `wait`. -/
structure Thread.At (x : Thread γ) (k : Stand γ) : Prop where
  inside : x.inside = k.entered
  code : x.code = k.code
  waited : x.waited.isSome → k.Waits

theorem Thread.At.active_iff {x : Thread γ} {k : Stand γ} (h : x.At k) : x.Active ↔ k.Owns := by
  rw [Thread.Active, h.code, h.inside]
  cases k <;> simp [Stand.code, Stand.Owns, Stand.entered]

/-- The invariant of the runs in which every `wait` is held up. -/
structure HeldUpInv (s : Hall τ γ) : Prop where
  owner : ∃ l, Held Thread.Active l s.thread ∧ s.monitor.mutex = if l.isSome then 0 else 1
  cond : s.monitor.cond = fun _ => .new
  stands : ∀ t, ∃ k, (s.thread t).At k

namespace HeldUpInv

variable {s : Hall τ γ}

theorem init : HeldUpInv (Hall.new τ γ) where
  owner := ⟨none, fun t => by simp [Hall.new, Thread.Active], rfl⟩
  cond := rfl
  stands := fun _ => ⟨.outside, rfl, rfl, by simp [Hall.new]⟩

variable [DecidableEq τ] [DecidableEq γ]

theorem isHoare (h : HeldUpInv s) : IsHoare s where
  exclusive := by
    intro t u ht hu
    obtain ⟨l, hheld, -⟩ := h.owner
    exact hheld.unique ht hu
  signalled := by
    intro t c b hw hcode
    obtain ⟨k, hk⟩ := h.stands t
    have hwaits := hk.waited (by rw [hw]; rfl)
    rw [hk.code] at hcode
    cases k <;> first | exact hwaits.elim | cases hcode
  resumes := by
    intro t u c k s' _ hblocked _
    have hzero := hblocked.1
    rw [h.cond] at hzero
    cases hzero

omit [DecidableEq γ] in
/-- The thread moves on, on its side of the mutex. -/
theorem stay (h : HeldUpInv s) {t : τ} {j k : Stand γ} {x : Thread γ} (hj : (s.thread t).At j)
    (hx : x.At k) (hown : k.Owns ↔ j.Owns) : HeldUpInv (s.setThread t x) where
  owner := by
    obtain ⟨l, hheld, hl⟩ := h.owner
    refine ⟨l, hheld.stay rfl ?_, hl⟩
    rw [hx.active_iff, hj.active_iff, hown]
  cond := h.cond
  stands := by
    intro u
    by_cases hu : u = t
    · subst hu
      exact ⟨k, by simpa [Hall.setThread] using hx⟩
    · simpa [Hall.setThread, hu] using h.stands u

omit [DecidableEq τ] in
/-- Calls of `signal` are seen by threads in a `wait` only. -/
theorem noteSignal (h : HeldUpInv s) (c : γ) : HeldUpInv (s.noteSignal c) := by
  have hsame : ∀ u, ((s.noteSignal c).thread u).inside = (s.thread u).inside ∧
      ((s.noteSignal c).thread u).code = (s.thread u).code := by
    intro u
    simp only [Hall.noteSignal]
    split <;> exact ⟨rfl, rfl⟩
  obtain ⟨l, hheld, hl⟩ := h.owner
  refine ⟨⟨l, hheld.congr fun u => ?_, hl⟩, h.cond, fun u => ?_⟩
  · rw [Thread.Active, Thread.Active, (hsame u).1, (hsame u).2]
  · obtain ⟨k, hk⟩ := h.stands u
    refine ⟨k, (hsame u).1.trans hk.inside, (hsame u).2.trans hk.code, ?_⟩
    simp only [Hall.noteSignal]
    split
    · next hwait => exact fun _ => hk.waited (by rw [hwait.1]; rfl)
    · exact hk.waited

omit [DecidableEq γ] in
/-- The thread takes the mutex, or gives it up. -/
theorem move (h : HeldUpInv s) {t : τ} {j k : Stand γ} (hj : (s.thread t).At j)
    (hx : ({ s.thread t with code := k.code } : Thread γ).At k) {n : Nat}
    (hown : (s.monitor.mutex = 1 ∧ k.Owns ∧ n = 0) ∨ (j.Owns ∧ ¬ k.Owns ∧ n = 1)) :
    HeldUpInv { s.setThread t { s.thread t with code := k.code } with
      monitor := { s.monitor with mutex := n } } where
  owner := by
    obtain ⟨l, hheld, hl⟩ := h.owner
    rcases hown with ⟨hone, hk, rfl⟩ | ⟨hj', hk, rfl⟩
    · have hfree : l = none := by
        cases l with
        | none => rfl
        | some u =>
            rw [hone] at hl
            cases hl
      subst hfree
      exact ⟨some t, hheld.acquire (hx.active_iff.mpr hk), rfl⟩
    · have hholder := hheld.holder (hj.active_iff.mpr hj')
      exact ⟨none, hheld.release hholder fun ha => hk (hx.active_iff.mp ha), rfl⟩
  cond := h.cond
  stands := by
    intro u
    by_cases hu : u = t
    · subst hu
      exact ⟨k, by simpa [Hall.setThread] using hx⟩
    · simpa [Hall.setThread, hu] using h.stands u

/-- One step of a thread inside a call. -/
theorem step (h : HeldUpInv s) {t : τ} (hup : (s.thread t).atWait = false) {s' : Hall τ γ}
    (hs : s.next (.step t) = some s') : HeldUpInv s' := by
  obtain ⟨k, hk⟩ := h.stands t
  have hcode := hk.code
  -- where the thread goes next
  have hat : ∀ k' : Stand γ, k'.entered = k.entered → (k.Waits → k'.Waits) →
      ({ s.thread t with code := k'.code } : Thread γ).At k' := fun k' hin hwaits =>
    ⟨hk.inside.trans hin.symm, rfl, fun hw => hwaits (hk.waited hw)⟩
  have hcount : ∀ c, (s.monitor.cond c).count = 0 := fun c => by rw [h.cond]; rfl
  have hmutex : k.Owns → s.monitor.mutex = 0 := fun hown => by
    obtain ⟨l, hheld, hl⟩ := h.owner
    rw [hheld.holder (hk.active_iff.mpr hown)] at hl
    exact hl
  have hle : s.monitor.mutex ≤ 1 := by
    obtain ⟨l, -, hl⟩ := h.owner
    rw [hl]
    split <;> simp
  cases k with
  | outside => simp [Hall.next, hcode, Stand.code] at hs
  | inside => simp [Hall.next, hcode, Stand.code] at hs
  | entering =>
      simp only [Hall.next, hcode, Stand.code, Monitor.exec] at hs
      split at hs
      · next hpos =>
        obtain rfl := Option.some.inj hs
        have hone : s.monitor.mutex = 1 := by omega
        have hmove := h.move hk (hat .inside rfl id) (.inl ⟨hone, trivial, rfl⟩)
        rw [hone]
        exact hmove
      · cases hs
  | leaving =>
      simp only [Hall.next, hcode, Stand.code, Monitor.exec, hcount, lt_irrefl, if_false] at hs
      obtain rfl := Option.some.inj hs
      exact h.stay hk (hat .exiting rfl id) Iff.rfl
  | exiting =>
      simp only [Hall.next, hcode, Stand.code, Monitor.exec] at hs
      obtain rfl := Option.some.inj hs
      rw [hmutex trivial]
      exact h.move hk (hat .outside rfl id) (.inr ⟨trivial, id, rfl⟩)
  | signalling c =>
      simp only [Hall.next, hcode, Stand.code, Monitor.exec, hcount, lt_irrefl, if_false] at hs
      obtain rfl := Option.some.inj hs
      exact h.stay hk (hat .inside rfl id) Iff.rfl
  | waiting c =>
      simp only [Hall.next, hcode, Stand.code, Monitor.exec] at hs
      obtain rfl := Option.some.inj hs
      exact h.stay hk (hat (.waitLeaving c) rfl id) Iff.rfl
  | waitLeaving c =>
      simp only [Hall.next, hcode, Stand.code, Monitor.exec, hcount, lt_irrefl, if_false] at hs
      obtain rfl := Option.some.inj hs
      exact h.stay hk (hat (.waitExiting c) rfl id) Iff.rfl
  | waitExiting c =>
      simp only [Hall.next, hcode, Stand.code, Monitor.exec] at hs
      obtain rfl := Option.some.inj hs
      rw [hmutex trivial]
      exact h.move hk (hat (.blocked c) rfl id) (.inr ⟨trivial, id, rfl⟩)
  | blocked c => simp [Thread.atWait, hcode, Stand.code] at hup

/-- Every step that is no `sem_wait` of a `wait(c)`. -/
theorem next (h : HeldUpInv s) {a : Call τ γ} (hup : HeldUp s a) {s' : Hall τ γ}
    (hs : s.next a = some s') : HeldUpInv s' := by
  -- a thread that calls stands outside or inside
  have hidle : ∀ t b, (s.thread t).code = [] → (s.thread t).inside = b →
      (s.thread t).At (if b then .inside else .outside) := by
    intro t b hcode hin
    obtain ⟨k, hk⟩ := h.stands t
    have hk1 := hk.code
    have hk2 := hk.inside
    rw [hcode] at hk1
    rw [hin] at hk2
    cases k <;> first | cases hk1; cases hk2; exact hk | cases hk1
  cases a with
  | enter t =>
      simp only [Hall.next, Option.ite_none_right_eq_some, Option.some.injEq] at hs
      obtain ⟨⟨hcode, hin⟩, rfl⟩ := hs
      exact h.stay (k := .entering) (hidle t _ hcode hin) ⟨rfl, rfl, by simp⟩ Iff.rfl
  | leave t =>
      simp only [Hall.next, Option.ite_none_right_eq_some, Option.some.injEq] at hs
      obtain ⟨⟨hcode, hin⟩, rfl⟩ := hs
      exact h.stay (k := .leaving) (hidle t _ hcode hin) ⟨rfl, rfl, by simp⟩ Iff.rfl
  | wait t c =>
      simp only [Hall.next, Option.ite_none_right_eq_some, Option.some.injEq] at hs
      obtain ⟨⟨hcode, hin⟩, rfl⟩ := hs
      exact h.stay (k := .waiting c) (hidle t _ hcode hin) ⟨rfl, rfl, fun _ => trivial⟩ Iff.rfl
  | signal t c =>
      simp only [Hall.next, Option.ite_none_right_eq_some, Option.some.injEq] at hs
      obtain ⟨⟨hcode, hin⟩, rfl⟩ := hs
      have hsame : (s.noteSignal c).thread t = s.thread t := by simp [Hall.noteSignal, hcode]
      have hstand : ((s.noteSignal c).thread t).At .inside := by
        rw [hsame]
        exact hidle t true hcode hin
      exact (h.noteSignal c).stay (k := .signalling c) hstand ⟨rfl, rfl, by simp⟩ Iff.rfl
  | step t => exact h.step hup hs

end HeldUpInv

variable [DecidableEq τ] [DecidableEq γ]

/-- **When the conditions keep the promises.** In every run in which nobody gets
past the `sem_wait` of a `wait`, every state keeps the promises of a Hoare
monitor. -/
theorem hoare_of_blocked (s : Hall τ γ) (hs : (hall τ γ).ReachWhile HeldUp s) : IsHoare s :=
  (hs.induction HeldUpInv.init fun _ _ _ h hup hnext => h.next hup hnext).isHoare

/-- One thread waits, another enters, signals in vain and leaves. -/
theorem hoare_of_blocked_two : ∃ s : Hall (Fin 2) Unit,
    ((s.thread 0).waited = some ((), true) ∧ (s.thread 1).inside = false) ∧ IsHoare s := by
  have hrun : (((hall (Fin 2) Unit).execWhile HeldUp (.new (Fin 2) Unit)
      [.enter 0, .step 0, .wait 0 (), .step 0, .step 0, .step 0, .enter 1, .step 1,
        .signal 1 (), .step 1, .leave 1, .step 1, .step 1]).map fun s =>
          ((s.thread 0).waited, (s.thread 1).inside)) = some (some ((), true), false) := by
    decide +kernel
  obtain ⟨s, hs, hpc⟩ := Option.map_eq_some_iff.mp hrun
  obtain ⟨hup, hexec⟩ := (hall (Fin 2) Unit).meets_of_execWhile hs
  exact ⟨s, ⟨congrArg Prod.fst hpc, congrArg Prod.snd hpc⟩, hoare_of_blocked s ⟨_, hup, hexec⟩⟩

/-- One thread alone: its first `wait` returns without any signal. -/
theorem first_wait_returns : ¬ ∀ s : Hall Unit Unit, (hall Unit Unit).Reach s → IsHoare s := by
  intro h
  have hrun : (((hall Unit Unit).exec (.new Unit Unit) [.enter (), .step (), .wait () (), .step (),
      .step (), .step (), .step (), .step ()]).map fun s =>
        ((s.thread ()).waited, (s.thread ()).code)) = some (some ((), false), []) := by
    decide +kernel
  obtain ⟨s, hs, hpc⟩ := Option.map_eq_some_iff.mp hrun
  have hreturned := (h s ⟨_, hs⟩).signalled () () false (congrArg Prod.fst hpc)
    (congrArg Prod.snd hpc)
  cases hreturned

end OsCourse.Monitoring
