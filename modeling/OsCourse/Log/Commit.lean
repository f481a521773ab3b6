import OsCourse.Lib.Lock
import OsCourse.Log.Model

/-!
# OsCourse.Log.Commit

Commits and operations exclude each other. `outstanding` counts the processes
between `begin_op` and `end_op`, `committing` is set while one process is in
`commit`, and the two are not positive together: then nobody but the committer
touches the header.

The header holds exactly the blocks logged since the last commit, and whoever
logged them has ended or is still running (`Settled`): at a commit nobody runs,
so what the commit writes are the blocks of ended operations.
-/

namespace OsCourse.Log

open OsCourse.Lib

/-! ### The header as a set of blocks -/

theorem mem_blocks {lh : LogHeader} {b : UInt32} :
    b ∈ lh.blocks ↔ ∃ i, i < lh.n ∧ lh.block i = b := by
  simp [LogHeader.blocks]

theorem blocks_nil {lh : LogHeader} (h : lh.n = 0) : lh.blocks = [] := by
  simp [LogHeader.blocks, h]

/-- `find` is the index of `b`, or the end of a header that lacks it. -/
theorem find_spec (lh : LogHeader) (b : UInt32) :
    (lh.find b < lh.n ∧ lh.block (lh.find b) = b ∧ b ∈ lh.blocks) ∨
      (lh.find b = lh.n ∧ b ∉ lh.blocks) := by
  rw [LogHeader.find]
  cases hf : (List.range lh.n).find? fun i => lh.block i = b with
  | some i =>
      have hi : i < lh.n := List.mem_range.mp (List.mem_of_find?_eq_some hf)
      have hb : lh.block i = b := by simpa using List.find?_some hf
      exact .inl ⟨hi, hb, mem_blocks.mpr ⟨i, hi, hb⟩⟩
  | none =>
      refine .inr ⟨rfl, fun hb => ?_⟩
      obtain ⟨i, hi, hbi⟩ := mem_blocks.mp hb
      have hne := List.find?_eq_none.mp hf i (List.mem_range.mpr hi)
      simp [hbi] at hne

/-- `log_write` absorbs a block that is there and appends one that is not. -/
theorem blocks_add (lh : LogHeader) (b : UInt32) :
    (lh.add b).blocks = if b ∈ lh.blocks then lh.blocks else lh.blocks ++ [b] := by
  rcases find_spec lh b with ⟨hlt, hb, hmem⟩ | ⟨hend, hnot⟩
  · have hsame : lh.add b = lh := by
      rw [LogHeader.add, if_neg (by omega), Function.update_eq_self_iff.mpr hb.symm]
    rw [if_pos hmem, hsame]
  · have hadd : lh.add b = ⟨lh.n + 1, Function.update lh.block lh.n b⟩ := by
      rw [LogHeader.add, if_pos hend, hend]
    rw [if_neg hnot, hadd]
    simp only [LogHeader.blocks, List.range_succ, List.map_append, List.map_singleton,
      Function.update_self]
    congr 1
    refine List.map_congr_left fun i hi => ?_
    rw [List.mem_range] at hi
    rw [Function.update_of_ne (by omega)]

theorem mem_blocks_add {lh : LogHeader} {b c : UInt32} :
    c ∈ (lh.add b).blocks ↔ c ∈ lh.blocks ∨ c = b := by
  rw [blocks_add]
  split
  · next hb =>
    refine ⟨.inl, fun hc => ?_⟩
    rcases hc with hc | rfl
    · exact hc
    · exact hb
  · simp

/-! ### The history since the last commit -/

variable {π : Type}

/-- Is this the end of a commit? -/
def Event.isCommit : Event π → Bool
  | .commit _ => true
  | _ => false

/-- The events since the last commit. -/
def since (es : List (Event π)) : List (Event π) :=
  (es.reverse.takeWhile fun e => !e.isCommit).reverse

/-- The blocks logged by the events, one for each `log_write`. -/
def logged (es : List (Event π)) : List UInt32 := es.filterMap fun e => match e with
  | .log _ b => some b
  | _ => none

@[simp] theorem since_nil : since ([] : List (Event π)) = [] := rfl

theorem since_append (es : List (Event π)) (e : Event π) :
    since (es ++ [e]) = if e.isCommit then [] else since es ++ [e] := by
  cases h : e.isCommit <;> simp [since, h]

theorem mem_logged {es : List (Event π)} {b : UInt32} :
    b ∈ logged es ↔ ∃ p, .log p b ∈ es := by
  simp only [logged, List.mem_filterMap]
  constructor
  · intro h
    obtain ⟨e, he, hb⟩ := h
    cases e with
    | log p c =>
        obtain rfl : c = b := Option.some.inj hb
        exact ⟨p, he⟩
    | begin _ => cases hb
    | endOp _ => cases hb
    | commit _ => cases hb
  · intro h
    obtain ⟨p, he⟩ := h
    exact ⟨_, he, rfl⟩

@[simp] theorem logged_nil : logged ([] : List (Event π)) = [] := rfl

@[simp] theorem logged_append (es fs : List (Event π)) :
    logged (es ++ fs) = logged es ++ logged fs := List.filterMap_append

theorem logged_since_append (es : List (Event π)) {e : Event π} (he : e.isCommit = false) :
    logged (since (es ++ [e])) = logged (since es) ++ logged [e] := by
  rw [since_append, he, if_neg Bool.false_ne_true, logged_append]

/-- An event that logs nothing. -/
theorem logged_since_quiet (es : List (Event π)) {e : Event π} (he : e.isCommit = false)
    (hlog : logged [e] = []) : logged (since (es ++ [e])) = logged (since es) := by
  rw [logged_since_append es he, hlog, List.append_nil]

/-- Whoever logged a block among the events has ended after that, or is in `R`. -/
def Settled (R : π → Prop) (es : List (Event π)) : Prop :=
  ∀ before p b after, es = before ++ .log p b :: after → .endOp p ∈ after ∨ R p

theorem settled_nil (R : π → Prop) : Settled R ([] : List (Event π)) := by
  intro before p b after h
  simp at h

theorem Settled.mono {R S : π → Prop} {es : List (Event π)} (h : Settled R es)
    (hRS : ∀ p, R p → S p) : Settled S es := fun before p b after he =>
  (h before p b after he).imp id (hRS p)

/-- One more event: it may be the log of a process in `S`, and the end of one
that is not. -/
theorem Settled.append {R S : π → Prop} {es : List (Event π)} {e : Event π} (h : Settled R es)
    (hlog : ∀ p b, e = .log p b → S p) (hstay : ∀ p, R p → S p ∨ e = .endOp p) :
    Settled S (es ++ [e]) := by
  intro before p b after he
  rcases List.eq_nil_or_concat after with rfl | ⟨after, e', rfl⟩
  · have hlast := List.append_inj_right' he rfl
    exact .inr (hlog p b (List.singleton_inj.mp hlast))
  · rw [List.concat_eq_append, ← List.cons_append, ← List.append_assoc] at he
    obtain ⟨hes, hlast⟩ := List.append_inj' he rfl
    obtain rfl := List.singleton_inj.mp hlast
    rw [List.concat_eq_append, List.mem_append, List.mem_singleton]
    rcases h before p b after hes with hend | hR
    · exact .inl (.inl hend)
    · rcases hstay p hR with hS | rfl
      · exact .inr hS
      · exact .inl (.inr rfl)

/-! ### The invariant -/

namespace PC

/-- The process is in an operation. -/
def Running : PC → Prop
  | inOp | checked _ | writing _ => True
  | _ => False

/-- The process has set `log.committing`. -/
def Committing : PC → Prop
  | commit _ | committed => True
  | _ => False

end PC

/-- The header holds the blocks of the list. -/
def LogHeader.Holds (lh : LogHeader) (bs : List UInt32) : Prop := ∀ b, b ∈ lh.blocks ↔ b ∈ bs

/-- What the committer has done, at each of its points. -/
def Progress (lh : LogHeader) (installed bs : List UInt32) : PC → Prop
  | .commit (.writeLog _) | .commit .writeHead => installed = [] ∧ lh.Holds bs
  | .commit (.install t) => t ≤ lh.n ∧ installed = lh.blocks.take t ∧ lh.Holds bs
  | .commit .clear => installed = lh.blocks ∧ lh.Holds bs
  | .commit .eraseHead | .commit .done | .committed =>
      lh.n = 0 ∧ ∀ b, b ∈ installed ↔ b ∈ bs
  | .commit .readHead => False
  | _ => True

/-- Nothing is asked of who does not commit. -/
theorem progress_of_not_committing {lh : LogHeader} {installed bs : List UInt32} {k : PC}
    (h : ¬ k.Committing) : Progress lh installed bs k := by
  cases k with
  | commit _ => exact absurd trivial h
  | committed => exact absurd trivial h
  | _ => trivial

/-- The invariant of all runs. -/
structure Inv (s : State π) : Prop where
  running : Counted PC.Running s.outstanding s.pc
  owner : ∃ l, Held PC.Committing l s.pc ∧ s.committing = l.isSome
  /-- A commit starts when nobody runs, and nobody starts during a commit. -/
  alone : s.committing = true → s.outstanding = 0
  holds : s.committing = false → s.mem.lh.Holds (logged (since s.events))
  progress : ∀ p, Progress s.mem.lh s.installed (logged (since s.events)) (s.pc p)
  settled : Settled (fun p => (s.pc p).Running) (since s.events)
  past : ∀ before bs after, s.events = before ++ .commit bs :: after →
    (∀ b, b ∈ bs ↔ b ∈ logged (since before)) ∧ Settled (fun _ => False) (since before)
  panic : s.panic ≠ some .committing ∧ s.panic ≠ some .outsideOfTrans

namespace Inv

variable {s : State π}

theorem not_committing (h : Inv s) {p : π} (hp : (s.pc p).Running) : s.committing = false := by
  have hpos := h.running.pos hp
  cases hc : s.committing with
  | false => rfl
  | true =>
      have := h.alone hc
      omega

/-- While one process commits no other is in an operation or commits. -/
theorem committing (h : Inv s) {p : π} (hp : (s.pc p).Committing) : s.committing = true := by
  obtain ⟨l, hheld, hl⟩ := h.owner
  rw [hl, hheld.holder hp]
  rfl

theorem not_running (h : Inv s) {p : π} (hp : (s.pc p).Committing) (q : π) :
    ¬ (s.pc q).Running := by
  intro hq
  have htrue := h.committing hp
  rw [h.not_committing hq] at htrue
  cases htrue

variable [DecidableEq π]

/-- A step of one process that stays in or out of an operation, and in or out of
a commit, and changes neither the header nor the history. -/
theorem goto (h : Inv s) {p : π} {j k : PC} (hp : s.pc p = j) (hrun : k.Running ↔ j.Running)
    (hcom : k.Committing ↔ j.Committing)
    (hprog : Progress s.mem.lh s.installed (logged (since s.events)) k) : Inv (s.goto p k) where
  running := h.running.stay hp hrun
  owner := by
    obtain ⟨l, hheld, hl⟩ := h.owner
    exact ⟨l, hheld.stay hp hcom, hl⟩
  alone := h.alone
  holds := h.holds
  progress := by
    intro q
    by_cases hq : q = p
    · subst hq
      simpa [State.goto] using hprog
    · simpa [State.goto, hq] using h.progress q
  settled := by
    refine h.settled.mono fun q hq => ?_
    by_cases hqp : q = p
    · subst hqp
      rw [hp] at hq
      simpa [State.goto] using hrun.mpr hq
    · simpa [State.goto, hqp] using hq
  past := h.past
  panic := h.panic

omit [DecidableEq π] in
/-- Who is woken up is in no operation and no commit. -/
theorem wakeup (h : Inv s) : Inv s.wakeup := by
  have hpc : ∀ q, s.wakeup.pc q = s.pc q ∨
      ∃ a, s.pc q = .waiting a ∧ s.wakeup.pc q = .waiting false := by
    intro q
    simp only [State.wakeup]
    cases s.pc q <;> simp
  have hrun : ∀ q, (s.wakeup.pc q).Running ↔ (s.pc q).Running := by
    intro q
    rcases hpc q with hq | ⟨a, hq, hq'⟩
    · rw [hq]
    · rw [hq, hq']
      exact Iff.rfl
  have hcom : ∀ q, (s.wakeup.pc q).Committing ↔ (s.pc q).Committing := by
    intro q
    rcases hpc q with hq | ⟨a, hq, hq'⟩
    · rw [hq]
    · rw [hq, hq']
      exact Iff.rfl
  obtain ⟨l, hheld, hl⟩ := h.owner
  refine ⟨h.running.congr hrun, ⟨l, hheld.congr hcom, hl⟩, h.alone, h.holds, fun q => ?_,
    h.settled.mono fun q hq => (hrun q).mpr hq, h.past, h.panic⟩
  rcases hpc q with hq | ⟨a, hq, hq'⟩
  · rw [hq]
    exact h.progress q
  · rw [hq']
    trivial

omit [DecidableEq π] in
/-- One more event that is not the end of a commit: the commits of the past stay. -/
theorem past_append (h : Inv s) {e : Event π} (he : e.isCommit = false) :
    ∀ before bs after, s.events ++ [e] = before ++ .commit bs :: after →
      (∀ b, b ∈ bs ↔ b ∈ logged (since before)) ∧ Settled (fun _ => False) (since before) := by
  intro before bs after hes
  rcases List.eq_nil_or_concat after with rfl | ⟨after, e', rfl⟩
  · obtain rfl : e = .commit bs := List.singleton_inj.mp (List.append_inj_right' hes rfl)
    cases he
  · rw [List.concat_eq_append, ← List.cons_append, ← List.append_assoc] at hes
    exact h.past before bs after (List.append_inj_left' hes rfl)

theorem begin_op (h : Inv s) {p : π} {j : PC} (hp : s.pc p = j) (hrun : ¬ j.Running)
    (hcom : ¬ j.Committing) : Inv (s.begin_op p) := by
  rw [State.begin_op]
  split
  · exact h.goto hp (iff_of_false id hrun) (iff_of_false id hcom) trivial
  · next hnot =>
    split
    · exact h.goto hp (iff_of_false id hrun) (iff_of_false id hcom) trivial
    · obtain ⟨l, hheld, hl⟩ := h.owner
      refine ⟨h.running.enter (by rwa [hp]) trivial, ⟨l, ?_, hl⟩, fun hc => absurd hc hnot, ?_, ?_,
        ?_, h.past_append rfl, h.panic⟩
      · exact hheld.stay hp (iff_of_false id hcom)
      · intro hc
        rw [logged_since_quiet _ rfl rfl]
        exact h.holds hc
      · intro q
        rw [logged_since_quiet _ rfl rfl]
        by_cases hq : q = p
        · subst hq
          simp [State.goto, Progress]
        · simpa [State.goto, hq] using h.progress q
      · rw [since_append]
        refine h.settled.append (by simp) fun q hq => .inl ?_
        by_cases hqp : q = p
        · subst hqp
          simp [State.goto, PC.Running]
        · simpa [State.goto, hqp] using hq

/-- The last operation ends and the commit begins. -/
theorem start_commit (h : Inv s) {p : π} (hp : s.pc p = .inOp) (hlast : s.outstanding - 1 = 0) :
    Inv { s.goto p (.commit (.commit s.mem)) with
      outstanding := s.outstanding - 1, committing := true, installed := []
      events := s.events ++ [.endOp p] } := by
  have hc : s.committing = false := h.not_committing (p := p) (by rw [hp]; trivial)
  have hholds := h.holds hc
  obtain ⟨l, hheld, hl⟩ := h.owner
  have hnone : l = none := by
    cases l with
    | none => rfl
    | some q =>
        rw [hc] at hl
        cases hl
  subst hnone
  refine ⟨h.running.leave (by rw [hp]; trivial) id, ⟨some p, hheld.acquire trivial, rfl⟩,
    fun _ => hlast, (fun hfalse => by cases hfalse), fun q => ?_, ?_, h.past_append rfl, h.panic⟩
  · rw [logged_since_quiet _ rfl rfl]
    by_cases hq : q = p
    · subst hq
      simp only [State.goto, Function.update_self, Point.commit]
      split
      · exact ⟨rfl, hholds⟩
      · next hn =>
        have hzero : s.mem.lh.n = 0 := by omega
        refine ⟨hzero, fun b => ?_⟩
        rw [← hholds b, blocks_nil hzero]
    · simp only [State.goto, Function.update_of_ne hq]
      exact progress_of_not_committing (hheld.empty q)
  · rw [since_append]
    refine h.settled.append (by simp) fun q hq => ?_
    by_cases hqp : q = p
    · exact .inr (by rw [hqp])
    · exact .inl (by simpa [State.goto, hqp] using hq)

/-- An operation ends while others run. -/
theorem end_op_more (h : Inv s) {p : π} (hp : s.pc p = .inOp) :
    Inv { s.goto p .user with
      outstanding := s.outstanding - 1, events := s.events ++ [.endOp p] } := by
  have hc : s.committing = false := h.not_committing (p := p) (by rw [hp]; trivial)
  obtain ⟨l, hheld, hl⟩ := h.owner
  refine ⟨h.running.leave (by rw [hp]; trivial) id, ⟨l, hheld.stay hp Iff.rfl, hl⟩, ?_, ?_,
    fun q => ?_, ?_, h.past_append rfl, h.panic⟩
  · intro htrue
    have hfalse : s.committing = true := htrue
    rw [hc] at hfalse
    cases hfalse
  · intro _
    rw [logged_since_quiet _ rfl rfl]
    exact h.holds hc
  · rw [logged_since_quiet _ rfl rfl]
    by_cases hq : q = p
    · subst hq
      simp [State.goto, Progress]
    · simpa [State.goto, hq] using h.progress q
  · rw [since_append]
    refine h.settled.append (by simp) fun q hq => ?_
    by_cases hqp : q = p
    · exact .inr (by rw [hqp])
    · exact .inl (by simpa [State.goto, hqp] using hq)

theorem end_op (h : Inv s) {p : π} (hp : s.pc p = .inOp) : Inv (s.end_op p) := by
  have hc : s.committing = false := h.not_committing (p := p) (by rw [hp]; trivial)
  simp only [State.end_op]
  split
  · next htrue =>
    rw [hc] at htrue
    cases htrue
  · split
    · next hlast => exact h.start_commit hp hlast
    · have hwake : s.wakeup.pc p = .inOp := by simp [State.wakeup, hp]
      exact h.wakeup.end_op_more hwake

/-- `log_write` adds its block to the header. -/
theorem log_write (h : Inv s) {p : π} {b : UInt32} (hp : s.pc p = .writing b) :
    Inv { s.goto p .inOp with
      mem := { s.mem with lh := s.mem.lh.add b }, events := s.events ++ [.log p b] } := by
  have hc : s.committing = false := h.not_committing (p := p) (by rw [hp]; trivial)
  obtain ⟨l, hheld, hl⟩ := h.owner
  have hnobody : ∀ q, ¬ (s.pc q).Committing := by
    intro q hq
    have htrue := h.committing hq
    rw [hc] at htrue
    cases htrue
  refine ⟨h.running.stay hp Iff.rfl, ⟨l, hheld.stay hp Iff.rfl, hl⟩, h.alone, ?_, fun q => ?_, ?_,
    h.past_append rfl, h.panic⟩
  · intro _ c
    rw [logged_since_append _ rfl, mem_blocks_add, h.holds hc c]
    simp [logged]
  · by_cases hq : q = p
    · subst hq
      simp [State.goto, Progress]
    · simp only [State.goto, Function.update_of_ne hq]
      exact progress_of_not_committing (hnobody q)
  · rw [since_append]
    refine h.settled.append (fun q c he => ?_) fun q hq => .inl ?_
    · obtain ⟨rfl, rfl⟩ : p = q ∧ b = c := by simpa using he
      simp [State.goto, PC.Running]
    · by_cases hqp : q = p
      · subst hqp
        simp [State.goto, PC.Running]
      · simpa [State.goto, hqp] using hq

end Inv

/-- One step of the committer. -/
theorem Progress.next {L : Layout} {m : Mem} {k : Point} {installed bs : List UInt32}
    (h : Progress m.lh installed bs (.commit k)) :
    Progress (advance L m k).1.lh (installed ++ m.written k) bs (.commit (advance L m k).2) := by
  cases k with
  | writeLog t =>
      obtain ⟨rfl, hbs⟩ := h
      rw [advance]
      split <;> exact ⟨rfl, hbs⟩
  | writeHead =>
      obtain ⟨rfl, hbs⟩ := h
      exact ⟨Nat.zero_le _, by simp [Mem.written], hbs⟩
  | readHead => exact h.elim
  | install t =>
      obtain ⟨hle, rfl, hbs⟩ := h
      rw [advance]
      split
      · next ht =>
        refine ⟨ht, ?_, hbs⟩
        have hlen : t < m.lh.blocks.length := by simpa [LogHeader.blocks] using ht
        show m.lh.blocks.take t ++ m.written (.install t) = m.lh.blocks.take (t + 1)
        rw [List.take_add_one, List.getElem?_eq_getElem hlen]
        simp [Mem.written, ht, LogHeader.blocks]
      · next ht =>
        refine ⟨?_, hbs⟩
        have hend : m.lh.blocks.length ≤ t := by simpa [LogHeader.blocks] using ht
        simp [Mem.written, ht, List.take_of_length_le hend]
  | clear =>
      obtain ⟨rfl, hbs⟩ := h
      refine ⟨rfl, fun b => ?_⟩
      simpa [Mem.written] using hbs b
  | eraseHead => exact ⟨h.1, by simpa [Mem.written] using h.2⟩
  | done => exact ⟨h.1, by simpa [Mem.written] using h.2⟩

section Runs

variable [DecidableEq π] {s t : State π} {L : Layout}

/-- A step of `commit`. -/
theorem Inv.commit_step (h : Inv s) {p : π} {k : Point} (hp : s.pc p = .commit k) :
    Inv { s.goto p (.commit (advance L s.mem k).2) with
      mem := (advance L s.mem k).1, installed := s.installed ++ s.mem.written k } := by
  have hprog := h.progress p
  rw [hp] at hprog
  have hcom : (s.pc p).Committing := by rw [hp]; trivial
  have htrue := h.committing hcom
  obtain ⟨l, hheld, hl⟩ := h.owner
  refine ⟨h.running.stay hp Iff.rfl, ⟨l, hheld.stay hp Iff.rfl, hl⟩, h.alone, ?_, fun q => ?_,
    h.settled.mono fun q hq => absurd hq (h.not_running hcom q), h.past, h.panic⟩
  · intro hc
    have hfalse : s.committing = false := hc
    rw [htrue] at hfalse
    cases hfalse
  · by_cases hq : q = p
    · subst hq
      simp only [State.goto, Function.update_self]
      exact hprog.next
    · simp only [State.goto, Function.update_of_ne hq]
      exact progress_of_not_committing (hheld.outside hcom hq)

/-- The commit is over. -/
theorem Inv.end_commit (h : Inv s) {p : π} (hp : s.pc p = .committed) : Inv (s.end_commit p) := by
  have hcom : (s.pc p).Committing := by rw [hp]; trivial
  have hnobody := h.not_running hcom
  have hprog := h.progress p
  rw [hp] at hprog
  obtain ⟨hzero, hinst⟩ := hprog
  have hwake := h.wakeup
  have hpw : s.wakeup.pc p = .committed := by simp [State.wakeup, hp]
  have hcomw : (s.wakeup.pc p).Committing := by rw [hpw]; trivial
  obtain ⟨l, hheld, hl⟩ := hwake.owner
  refine ⟨hwake.running.stay hpw Iff.rfl,
    ⟨none, hheld.release (hheld.holder hcomw) id, rfl⟩, (fun hfalse => by cases hfalse), ?_,
    fun q => ?_, ?_, ?_, h.panic⟩
  · intro _ b
    have hnil : (s.end_commit p).mem.lh.blocks = [] := blocks_nil hzero
    rw [hnil, State.end_commit, since_append]
    simp [Event.isCommit]
  · by_cases hq : q = p
    · subst hq
      simp [State.end_commit, State.goto, Progress]
    · simp only [State.end_commit, State.goto, Function.update_of_ne hq]
      exact progress_of_not_committing (hheld.outside hcomw hq)
  · rw [State.end_commit, since_append]
    exact settled_nil _
  · intro before bs after hes
    rcases List.eq_nil_or_concat after with rfl | ⟨after, e', rfl⟩
    · -- the commit that ends now
      have hlast := List.append_inj' hes rfl
      obtain rfl : s.installed = bs := by simpa using hlast.2
      rw [← hlast.1]
      exact ⟨hinst, h.settled.mono fun q hq => hnobody q hq⟩
    · rw [List.concat_eq_append, ← List.cons_append, ← List.append_assoc] at hes
      exact h.past before bs after (List.append_inj_left' hes rfl)

omit [DecidableEq π] in
theorem inv_init (disk : Nat → Block) : Inv (initlog disk : State π) where
  running := ⟨∅, fun p => by simp [initlog, PC.Running], rfl⟩
  owner := ⟨none, fun p => by simp [initlog, PC.Committing], rfl⟩
  alone := fun _ => rfl
  holds := fun _ b => by simp [initlog, Mem.restart, LogHeader.blocks]
  progress := fun _ => trivial
  settled := settled_nil _
  past := by
    intro before bs after hes
    simp [initlog] at hes
  panic := by simp [initlog]

omit [DecidableEq π] in
/-- A panic of `log_write` in front of a full log changes nothing else. -/
theorem Inv.tooBig (h : Inv s) : Inv { s with panic := some .tooBigTransaction } :=
  ⟨h.running, h.owner, h.alone, h.holds, h.progress, h.settled, h.past, by simp⟩

/-- One step. -/
theorem Inv.next (h : Inv s) {a : Act π} (ht : step L s a = some t) : Inv t := by
  simp only [step] at ht
  split at ht
  · cases ht
  · cases a with
    | begin p =>
        simp only [Option.ite_none_right_eq_some, Option.some.injEq] at ht
        obtain ⟨hp, rfl⟩ := ht
        exact h.begin_op hp id id
    | logWrite p b =>
        simp only [Option.ite_none_right_eq_some] at ht
        obtain ⟨hp, ht⟩ := ht
        split at ht
        · obtain rfl := Option.some.inj ht
          exact h.tooBig
        · obtain rfl := Option.some.inj ht
          exact h.goto hp Iff.rfl Iff.rfl trivial
    | endOp p =>
        simp only [Option.ite_none_right_eq_some, Option.some.injEq] at ht
        obtain ⟨hp, rfl⟩ := ht
        exact h.end_op hp
    | step p =>
        simp only at ht
        split at ht
        · next hp =>
          obtain rfl := Option.some.inj ht
          exact h.begin_op hp id id
        · next b hp =>
          -- an operation is outstanding: this one
          have hpos := h.running.pos (p := p) (by rw [hp]; trivial)
          rw [if_neg (by omega)] at ht
          obtain rfl := Option.some.inj ht
          exact h.goto hp Iff.rfl Iff.rfl trivial
        · next b hp =>
          obtain rfl := Option.some.inj ht
          exact h.log_write hp
        · next k hp =>
          split at ht
          · next hdone =>
            obtain rfl := Option.some.inj ht
            have hprog := h.progress p
            rw [hp, hdone] at hprog
            exact h.goto hp Iff.rfl Iff.rfl hprog
          · obtain rfl := Option.some.inj ht
            exact h.commit_step hp
        · next hp =>
          obtain rfl := Option.some.inj ht
          exact h.end_commit hp
        · cases ht
        · cases ht
        · cases ht

theorem reach_inv {disk : Nat → Block} (hs : (machine L disk).Reach s) : Inv s :=
  hs.induction (inv_init disk) fun _ _ _ h ht => h.next ht

/-- What `begin_op` leaves alone. -/
theorem begin_op_frame (p : π) :
    (s.begin_op p).mem = s.mem ∧ (s.begin_op p).panic = s.panic := by
  unfold State.begin_op
  split
  · exact ⟨rfl, rfl⟩
  · split <;> exact ⟨rfl, rfl⟩

theorem end_op_mem (p : π) : (s.end_op p).mem = s.mem := by
  simp only [State.end_op]
  split
  · rfl
  · split <;> rfl

/-- Who changes the header: `log_write` with the lock held, and the committer. -/
theorem header_next {a : Act π} (ht : step L s a = some t) :
    t.mem.lh = s.mem.lh ∨ ∃ p, a = .step p ∧
      ((∃ b, s.pc p = .writing b ∧ t.mem.lh = s.mem.lh.add b) ∨
        ∃ k, s.pc p = .commit k ∧ t.mem.lh = (advance L s.mem k).1.lh) := by
  simp only [step] at ht
  split at ht
  · cases ht
  · cases a with
    | begin p =>
        simp only [Option.ite_none_right_eq_some, Option.some.injEq] at ht
        obtain ⟨-, rfl⟩ := ht
        exact .inl (by rw [(begin_op_frame p).1])
    | logWrite p b =>
        simp only [Option.ite_none_right_eq_some] at ht
        obtain ⟨-, ht⟩ := ht
        split at ht <;> exact .inl (congrArg (fun s => s.mem.lh) (Option.some.inj ht)).symm
    | endOp p =>
        simp only [Option.ite_none_right_eq_some, Option.some.injEq] at ht
        obtain ⟨-, rfl⟩ := ht
        exact .inl (by rw [end_op_mem])
    | step p =>
        simp only at ht
        split at ht
        · obtain rfl := Option.some.inj ht
          exact .inl (by rw [(begin_op_frame p).1])
        · split at ht <;> exact .inl (congrArg (fun s => s.mem.lh) (Option.some.inj ht)).symm
        · next b hp =>
          obtain rfl := Option.some.inj ht
          exact .inr ⟨p, rfl, .inl ⟨b, hp, rfl⟩⟩
        · next k hp =>
          split at ht
          · exact .inl (congrArg (fun s => s.mem.lh) (Option.some.inj ht)).symm
          · obtain rfl := Option.some.inj ht
            exact .inr ⟨p, rfl, .inr ⟨k, hp, rfl⟩⟩
        · obtain rfl := Option.some.inj ht
          exact .inl rfl
        · cases ht
        · cases ht
        · cases ht

end Runs

/-- **Commits do not cut an operation in two.** In every reachable state: while
`log.committing` is set no operation is outstanding and only the committer
changes the header; neither of the two panics on the counters has happened; and
what a commit has written are the blocks logged since the commit before it, all
by operations that had ended. -/
theorem commit_isolated [DecidableEq π] (L : Layout) (disk : Nat → Block) (s : State π)
    (hs : (machine L disk).Reach s) :
    (s.committing = true → s.outstanding = 0 ∧
      ∀ a t, step L s a = some t → t.mem.lh ≠ s.mem.lh →
        ∃ p, a = .step p ∧ (s.pc p).Committing) ∧
    (s.panic ≠ some .committing ∧ s.panic ≠ some .outsideOfTrans) ∧
    ∀ before bs after, s.events = before ++ .commit bs :: after →
      (∀ b, b ∈ bs ↔ ∃ p, .log p b ∈ since before) ∧
      ∀ earlier p b later, since before = earlier ++ .log p b :: later → .endOp p ∈ later := by
  have h := reach_inv hs
  refine ⟨fun hc => ⟨h.alone hc, fun a t ht hne => ?_⟩, h.panic, fun before bs after hes => ?_⟩
  · rcases header_next ht with hsame | ⟨p, rfl, ⟨b, hp, -⟩ | ⟨k, hp, -⟩⟩
    · contradiction
    · -- a `log_write` is part of an operation, and none is outstanding
      have hpos := h.running.pos (p := p) (by rw [hp]; trivial)
      have hzero := h.alone hc
      omega
    · exact ⟨p, rfl, by rw [hp]; trivial⟩
  · obtain ⟨hmem, hsettled⟩ := h.past before bs after hes
    refine ⟨fun b => by rw [hmem, mem_logged], fun earlier p b later hsince => ?_⟩
    exact (hsettled earlier p b later hsince).resolve_right id

/-- Two operations, of which the second ends last and commits what both logged. -/
theorem commit_isolated_two : ∃ s : State (Fin 2),
    s.events = [.begin 0, .begin 1, .log 0 50, .log 1 60, .endOp 0, .endOp 1, .commit [50, 60]] ∧
      (∀ b, b ∈ ([50, 60] : List UInt32) ↔ ∃ p : Fin 2, .log p b ∈ since
        [.begin 0, .begin 1, .log 0 50, .log 1 60, .endOp 0, .endOp 1]) := by
  have hrun : ((machine ⟨2, 30⟩ fun _ _ => 0).exec (initlog fun _ _ => 0)
      ([.begin 0, .begin 1, .logWrite 0 50, .step 0, .step 0, .logWrite 1 60, .step 1, .step 1,
        .endOp 0, .endOp 1] ++ List.replicate 11 (.step (1 : Fin 2)))).map
          (fun s => s.events) =
      some [.begin 0, .begin 1, .log 0 50, .log 1 60, .endOp 0, .endOp 1, .commit [50, 60]] := by
    decide +kernel
  obtain ⟨s, hs, hev⟩ := Option.map_eq_some_iff.mp hrun
  refine ⟨s, hev, ((commit_isolated ⟨2, 30⟩ (fun _ _ => 0) s ⟨_, hs⟩).2.2 _ [50, 60] [] ?_).1⟩
  rw [hev]
  rfl

end OsCourse.Log
