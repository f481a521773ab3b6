import OsCourse.Sched.Ownership

/-!
# OsCourse.Sched.Effect

What each step of process management does, once and for all: `Effect s a s'` has
one constructor for each way a step can go, with what is known of the state in
which it goes that way.
-/

namespace OsCourse.Sched

variable {m n : Nat} {F : Type}

/-- The current process of a CPU is the one it runs, outside critical sections. -/
theorem runs_of_current {s : Sys m n F} {c : Fin m} {p : Fin n} (h : s.current c = some p) :
    (s.cpu c).Runs p := by
  unfold Sys.current at h
  split at h
  · next site f hpc =>
      split_ifs at h
      exact ⟨⟨site, f, hpc⟩, h⟩
  · cases h

variable [FloatOps F]

/-- What a step does. -/
inductive Effect (s : Sys m n F) : Act m n F → Sys m n F → Prop
  | userinitAlloc {c ticks p t} (hpc : (s.cpu c).pc = .boot)
      (halloc : allocproc s.proc s.nextpid ticks = some (p, t)) :
      Effect s (.userinitAlloc c ticks) { s with
        proc := t
        nextpid := s.nextpid + 1
        initproc := some p
        cpu := Function.update s.cpu c { s.cpu c with pc := .userinit p } }
  | userinitReady {c p} (hpc : (s.cpu c).pc = .userinit p) :
      Effect s (.userinitReady c) { s with
        proc := s.proc.setState p .runnable
        thread := Function.update s.thread p .forkret
        cpu := Function.update s.cpu c { s.cpu c with pc := .boot } }
  | start {c} (hpc : (s.cpu c).pc = .boot) :
      Effect s (.start c)
        { s with cpu := Function.update s.cpu c { s.cpu c with proc := none, pc := .top } }
  | draw {c ticks} (hpc : (s.cpu c).pc = .top) :
      Effect s (.draw c ticks) { s with
        cpu := Function.update s.cpu c
          { s.cpu c with pc := .drawn (generateRandom ticks (getTotal s.proc)) } }
  | pass {c ticks rnd} (hl : s.lock = none) (hpc : (s.cpu c).pc = .drawn rnd) :
      Effect s (.pass c ticks) (Sys.finish
        { s with
          cpu := Function.update s.cpu c { s.cpu c with acquires := (s.cpu c).acquires + 1 } }
        c (lotteryPhase (hrrnBetter ticks) s.proc rnd))
  | sched {c ticks site f} (hl : s.lock = some c) (hpc : (s.cpu c).pc = .back site f) :
      Effect s (.sched c ticks) (Sys.finish
        { s with cpu := Function.update s.cpu c { s.cpu c with proc := none } }
        c (resume (hrrnBetter ticks) site s.proc f))
  | resumed {c p} (hl : s.lock = some c) (hc : (s.cpu c).Runs p) :
      Effect s (.resumed c) { s with lock := none, thread := Function.update s.thread p .run }
  | resumedSleep {c p} (hl : s.lock = some c) (hc : (s.cpu c).Runs p) :
      Effect s (.resumed c) { s with
        proc := Function.update s.proc p { s.proc p with chan := none }
        lock := none
        thread := Function.update s.thread p .run }
  | resumedWait {c p} (hl : s.lock = some c) (hc : (s.cpu c).Runs p) :
      Effect s (.resumed c)
        (s.waitRound c p (Function.update s.proc p { s.proc p with chan := none }))
  | yield {c p} (hl : s.lock = none) (hp : s.current c = some p) :
      Effect s (.yield c) (s.enterSched c p (s.proc.setState p .runnable) .yield)
  | sleep {c p chan} (hl : s.lock = none) (hp : s.current c = some p) :
      Effect s (.sleep c chan) (s.enterSched c p
        (Function.update s.proc p { s.proc p with chan := some chan, state := .sleeping }) .sleep)
  | wakeup {chan} : Effect s (.wakeup chan) { s with proc := wakeup1 s.proc (some chan) }
  | kill {pid} : Effect s (.kill pid) { s with proc := kill s.proc pid }
  | forkAlloc {c p ticks np t} (halloc : allocproc s.proc s.nextpid ticks = some (np, t)) :
      Effect s (.forkAlloc c ticks) { s with
        proc := t
        nextpid := s.nextpid + 1
        forking := Function.update s.forking p (some np) }
  | forkNone {c ticks} : Effect s (.forkAlloc c ticks) s
  | forkFail {c p np} (hp : s.current c = some p) (hnp : s.forking p = some np) :
      Effect s (.forkFail c) { s with
        proc := s.proc.setState np .unused
        forking := Function.update s.forking p none }
  | forkParent {c p np} :
      Effect s (.forkParent c)
        { s with proc := Function.update s.proc np { s.proc np with parent := some p } }
  | forkReady {c p np} (hnp : s.forking p = some np) :
      Effect s (.forkReady c) { s with
        proc := s.proc.setState np .runnable
        thread := Function.update s.thread np .forkret
        forking := Function.update s.forking p none }
  | exit {c p} (hl : s.lock = none) (hp : s.current c = some p) :
      Effect s (.exit c) (s.enterSched c p (exit s.proc p s.initproc) .exit)
  | wait {c p} (hl : s.lock = none) (hp : s.current c = some p) :
      Effect s (.wait c) (s.waitRound c p s.proc)
  | setTickets {pid k} : Effect s (.setTickets pid k) { s with proc := setTickets s.proc pid k }
  | setPriority {pid x} :
      Effect s (.setPriority pid x) { s with proc := setPriority s.proc pid x }
  | changeQueue {pid l} :
      Effect s (.changeQueue pid l) { s with proc := changeQueue s.proc pid l }

variable {s s' : Sys m n F} {c : Fin m}

theorem effect_of_resumed (hs : step s (.resumed c) = some s') : Effect s (.resumed c) s' := by
  simp only [step] at hs
  split at hs
  · next site f p hpc hproc =>
      have hc : (s.cpu c).Runs p := ⟨⟨site, f, hpc⟩, hproc⟩
      split_ifs at hs with hl
      split at hs
      · obtain rfl := Option.some.inj hs
        exact .resumed hl hc
      · obtain rfl := Option.some.inj hs
        exact .resumed hl hc
      · obtain rfl := Option.some.inj hs
        exact .resumedSleep hl hc
      · obtain rfl := Option.some.inj hs
        exact .resumedWait hl hc
      · cases hs
      · cases hs
  · cases hs

/-- **The steps and their effects.** -/
theorem effect_of_step {a : Act m n F} (hs : step s a = some s') : Effect s a s' := by
  cases a with
  | userinitAlloc c ticks =>
      simp only [step] at hs
      split_ifs at hs with hg
      obtain ⟨⟨p, t⟩, halloc, rfl⟩ := Option.map_eq_some_iff.mp hs
      exact .userinitAlloc hg.2.1 halloc
  | userinitReady c =>
      simp only [step] at hs
      split at hs
      · next p hpc =>
          split_ifs at hs
          obtain rfl := Option.some.inj hs
          exact .userinitReady hpc
      · cases hs
  | start c =>
      simp only [step] at hs
      split_ifs at hs with hpc
      obtain rfl := Option.some.inj hs
      exact .start hpc
  | draw c ticks =>
      simp only [step] at hs
      split_ifs at hs with hpc
      obtain rfl := Option.some.inj hs
      exact .draw hpc
  | pass c ticks =>
      simp only [step] at hs
      split at hs
      · next rnd hpc =>
          split_ifs at hs with hl
          obtain rfl := Option.some.inj hs
          exact .pass hl hpc
      · cases hs
  | sched c ticks =>
      simp only [step] at hs
      split at hs
      · next site f hpc =>
          split_ifs at hs with hl
          obtain rfl := Option.some.inj hs
          exact .sched hl hpc
      · cases hs
  | resumed c => exact effect_of_resumed hs
  | yield c =>
      obtain ⟨p, hp, hs⟩ := Option.bind_eq_some_iff.mp hs
      split_ifs at hs with hl
      obtain rfl := Option.some.inj hs
      exact .yield hl hp
  | sleep c chan =>
      obtain ⟨p, hp, hs⟩ := Option.bind_eq_some_iff.mp hs
      split_ifs at hs with hl
      obtain rfl := Option.some.inj hs
      exact .sleep hl hp
  | wakeup chan =>
      simp only [step] at hs
      split_ifs at hs
      obtain rfl := Option.some.inj hs
      exact .wakeup
  | kill pid =>
      simp only [step] at hs
      split_ifs at hs
      obtain rfl := Option.some.inj hs
      exact .kill
  | forkAlloc c ticks =>
      obtain ⟨p, -, hs⟩ := Option.bind_eq_some_iff.mp hs
      split_ifs at hs
      split at hs
      · next np t halloc =>
          obtain rfl := Option.some.inj hs
          exact .forkAlloc halloc
      · obtain rfl := Option.some.inj hs
        exact .forkNone
  | forkFail c =>
      obtain ⟨p, hp, hs⟩ := Option.bind_eq_some_iff.mp hs
      obtain ⟨np, hnp, hs⟩ := Option.bind_eq_some_iff.mp hs
      split_ifs at hs
      obtain rfl := Option.some.inj hs
      exact .forkFail hp hnp
  | forkParent c =>
      obtain ⟨p, -, hs⟩ := Option.bind_eq_some_iff.mp hs
      obtain ⟨np, -, hs⟩ := Option.bind_eq_some_iff.mp hs
      obtain rfl := Option.some.inj hs
      exact .forkParent
  | forkReady c =>
      obtain ⟨p, -, hs⟩ := Option.bind_eq_some_iff.mp hs
      obtain ⟨np, hnp, hs⟩ := Option.bind_eq_some_iff.mp hs
      split_ifs at hs
      obtain rfl := Option.some.inj hs
      exact .forkReady hnp
  | exit c =>
      obtain ⟨p, hp, hs⟩ := Option.bind_eq_some_iff.mp hs
      split_ifs at hs with hg
      obtain rfl := Option.some.inj hs
      exact .exit hg.1 hp
  | wait c =>
      obtain ⟨p, hp, hs⟩ := Option.bind_eq_some_iff.mp hs
      split_ifs at hs with hg
      obtain rfl := Option.some.inj hs
      exact .wait hg.1 hp
  | setTickets pid k =>
      simp only [step] at hs
      split_ifs at hs
      obtain rfl := Option.some.inj hs
      exact .setTickets
  | setPriority pid x =>
      simp only [step] at hs
      split_ifs at hs
      obtain rfl := Option.some.inj hs
      exact .setPriority
  | changeQueue pid l =>
      simp only [step] at hs
      split_ifs at hs
      obtain rfl := Option.some.inj hs
      exact .changeQueue

end OsCourse.Sched
