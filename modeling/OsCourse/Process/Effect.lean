import Mathlib.Tactic.SplitIfs
import OsCourse.Process.Model

/-!
# OsCourse.Process.Effect

What each step of process management does, once and for all: `Effect s a s'` has
one constructor for each way a step can go, with what is known of the state in
which it goes that way.
-/

namespace OsCourse.Process

open Lib
open Sched (ProcState Chan)

variable {m n : Nat}

/-- What a step does. -/
inductive Effect (s : Sys m n) : Act m n → Sys m n → Prop
  | userinitAlloc {c i} (hinit : s.initproc = none) (hi : (s.proc i).state = .unused) :
      Effect s (.userinitAlloc c) { s with
        proc := Function.update s.proc i { s.proc i with state := .embryo, pid := s.nextpid }
        nextpid := s.nextpid + 1
        initproc := some i
        cpu := Function.update s.cpu c (.userinit i) }
  | userinitReady {c i} (hc : s.cpu c = .userinit i) :
      Effect s (.userinitReady c) { s with
        proc := s.proc.setState i .runnable
        thread := Function.update s.thread i .forkret
        cpu := Function.update s.cpu c .boot }
  | start {c} : Effect s (.start c) { s with cpu := Function.update s.cpu c .top }
  | scan {c} : Effect s (.scan c) (s.scanFrom c fun _ => true)
  | sched {c p} : Effect s (.sched c) (s.scanFrom c (p < ·))
  | resumed {c p} (hc : s.cpu c = .running p) :
      Effect s (.resumed c) { s with lock := none, thread := Function.update s.thread p .run }
  | resumedSleep {c p} (hc : s.cpu c = .running p) :
      Effect s (.resumed c) { s with
        proc := Function.update s.proc p { s.proc p with chan := none }
        lock := none
        thread := Function.update s.thread p .run }
  | resumedWait {c p} (hc : s.cpu c = .running p) (hth : s.thread p = .wait) :
      Effect s (.resumed c)
        (s.waitRound c p (Function.update s.proc p { s.proc p with chan := none }))
  | yield {c p} (hc : s.cpu c = .running p) :
      Effect s (.yield c) (s.enterSched c p (s.proc.setState p .runnable) .yield)
  | sleep {c p chan} (hc : s.cpu c = .running p) :
      Effect s (.sleep c chan) (s.enterSched c p
        (Function.update s.proc p { s.proc p with chan := some chan, state := .sleeping }) .sleep)
  | wakeup {chan} : Effect s (.wakeup chan) { s with proc := wakeup1 s.proc (some chan) }
  | kill {pid} : Effect s (.kill pid) { s with proc := kill s.proc pid }
  | forkAlloc {c p i} (hc : s.cpu c = .running p) (hf : s.fork p = .idle)
      (hi : (s.proc i).state = .unused) :
      Effect s (.forkAlloc c) { s with
        proc := Function.update s.proc i { s.proc i with state := .embryo, pid := s.nextpid }
        nextpid := s.nextpid + 1
        fork := Function.update s.fork p (.allocated i) }
  | forkNone {c} : Effect s (.forkAlloc c) s
  | forkFail {c p i} (hf : s.fork p = .allocated i) :
      Effect s (.forkFail c) { s with
        proc := s.proc.setState i .unused
        fork := Function.update s.fork p .idle }
  | forkParent {c p i} (hc : s.cpu c = .running p) (hf : s.fork p = .allocated i) :
      Effect s (.forkParent c) { s with
        proc := Function.update s.proc i { s.proc i with parent := some p }
        fork := Function.update s.fork p (.linked i) }
  | forkReady {c p i} (hf : s.fork p = .linked i) :
      Effect s (.forkReady c) { s with
        proc := s.proc.setState i .runnable
        thread := Function.update s.thread i .forkret
        fork := Function.update s.fork p .idle }
  | exit {c p} (hc : s.cpu c = .running p) (hf : s.fork p = .idle) (hinit : s.initproc ≠ some p) :
      Effect s (.exit c) { s.enterSched c p (exit s.proc p s.initproc) .exit with
        exited := (p, (s.proc p).pid) :: s.exited }
  | wait {c p} (hc : s.cpu c = .running p) : Effect s (.wait c) (s.waitRound c p s.proc)

variable {s s' : Sys m n} {c : Fin m} {p : Fin n}

/-- The current process of a CPU is the one it runs. -/
theorem running_of_current (h : s.current c = some p) : s.cpu c = .running p := by
  unfold Sys.current at h
  split at h
  · next q hq =>
    split_ifs at h
    rw [hq, Option.some.inj h]
  · cases h

/-- `allocproc` takes a free slot. -/
theorem allocproc_spec {t t' : Table n} {k : Int32} {i : Fin n} (h : allocproc t k = some (i, t')) :
    (t i).state = .unused ∧
      t' = Function.update t i { t i with state := .embryo, pid := k } := by
  unfold allocproc at h
  obtain ⟨j, hfind, hj⟩ := Option.map_eq_some_iff.mp h
  obtain ⟨rfl, rfl⟩ := Prod.mk.inj hj
  exact ⟨by simpa using List.find?_some hfind, rfl⟩

theorem effect_of_resumed (hs : step s (.resumed c) = some s') : Effect s (.resumed c) s' := by
  simp only [step] at hs
  split at hs
  · next p hc =>
    split_ifs at hs
    split at hs
    · obtain rfl := Option.some.inj hs
      exact .resumed hc
    · obtain rfl := Option.some.inj hs
      exact .resumed hc
    · obtain rfl := Option.some.inj hs
      exact .resumedSleep hc
    · next hth =>
      obtain rfl := Option.some.inj hs
      exact .resumedWait hc hth
    · cases hs
    · cases hs
  · cases hs

/-- **The steps and their effects.** -/
theorem effect_of_step {a : Act m n} (hs : step s a = some s') : Effect s a s' := by
  cases a with
  | userinitAlloc c =>
      simp only [step] at hs
      split_ifs at hs with hc
      obtain ⟨⟨i, t⟩, halloc, rfl⟩ := Option.map_eq_some_iff.mp hs
      obtain ⟨hi, rfl⟩ := allocproc_spec halloc
      exact .userinitAlloc hc.2.2 hi
  | userinitReady c =>
      simp only [step] at hs
      split at hs
      · next i hc =>
        split_ifs at hs
        obtain rfl := Option.some.inj hs
        exact .userinitReady hc
      · cases hs
  | start c =>
      simp only [step] at hs
      split_ifs at hs
      obtain rfl := Option.some.inj hs
      exact .start
  | scan c =>
      simp only [step] at hs
      split_ifs at hs
      obtain rfl := Option.some.inj hs
      exact .scan
  | sched c =>
      simp only [step] at hs
      split at hs
      · split_ifs at hs
        obtain rfl := Option.some.inj hs
        exact .sched
      · cases hs
  | resumed c => exact effect_of_resumed hs
  | yield c =>
      obtain ⟨p, hp, hs⟩ := Option.bind_eq_some_iff.mp hs
      split_ifs at hs
      obtain rfl := Option.some.inj hs
      exact .yield (running_of_current hp)
  | sleep c chan =>
      obtain ⟨p, hp, hs⟩ := Option.bind_eq_some_iff.mp hs
      split_ifs at hs
      obtain rfl := Option.some.inj hs
      exact .sleep (running_of_current hp)
  | wakeup chan =>
      simp only [step] at hs
      split_ifs at hs
      obtain rfl := Option.some.inj hs
      exact .wakeup
  | kill pid =>
      simp only [step] at hs
      split_ifs at hs
      obtain rfl := Option.some.inj hs
      exact .kill
  | forkAlloc c =>
      obtain ⟨p, hp, hs⟩ := Option.bind_eq_some_iff.mp hs
      split_ifs at hs with hidle
      split at hs
      · next i t halloc =>
        obtain rfl := Option.some.inj hs
        obtain ⟨hi, rfl⟩ := allocproc_spec halloc
        exact .forkAlloc (running_of_current hp) hidle.2 hi
      · obtain rfl := Option.some.inj hs
        exact .forkNone
  | forkFail c =>
      obtain ⟨p, -, hs⟩ := Option.bind_eq_some_iff.mp hs
      split at hs
      · next i hf =>
        obtain rfl := Option.some.inj hs
        exact .forkFail hf
      · cases hs
  | forkParent c =>
      obtain ⟨p, hp, hs⟩ := Option.bind_eq_some_iff.mp hs
      split at hs
      · next i hf =>
        obtain rfl := Option.some.inj hs
        exact .forkParent (running_of_current hp) hf
      · cases hs
  | forkReady c =>
      obtain ⟨p, -, hs⟩ := Option.bind_eq_some_iff.mp hs
      split at hs
      · next i hf =>
        split_ifs at hs
        obtain rfl := Option.some.inj hs
        exact .forkReady hf
      · cases hs
  | exit c =>
      obtain ⟨p, hp, hs⟩ := Option.bind_eq_some_iff.mp hs
      split_ifs at hs with hidle
      obtain rfl := Option.some.inj hs
      exact .exit (running_of_current hp) hidle.2.1 hidle.2.2
  | wait c =>
      obtain ⟨p, hp, hs⟩ := Option.bind_eq_some_iff.mp hs
      split_ifs at hs
      obtain rfl := Option.some.inj hs
      exact .wait (running_of_current hp)

end OsCourse.Process
