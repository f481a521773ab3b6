import OsCourse.Sched.PassSpec

/-!
# OsCourse.Sched.Priority

**Strict priority of the three queues**: while a lottery process can run, the
pass runs no HRRN and no SRPF process; while an HRRN process can run (and no
lottery process), it runs no SRPF process.

The second half always holds. The first fails for SRPF: the guard of the SRPF
block asks only whether an HRRN process was found, and when a lottery process
was found the HRRN scan is not made at all. So a pass that finds a lottery
process still goes on to run an SRPF process if there is one
(`strictPriority_iff`, `lottery_then_srpf`).
-/

namespace OsCourse.Sched

variable {n : Nat} {F : Type}

/-- The dispatches `ds` of a pass over the table `t` respect the queues. -/
def StrictPriority (t : Table n F) (ds : List (Dispatch n)) : Prop :=
  ((∃ i, Runnable t .lottery i) → ∀ d ∈ ds, d.level ≠ .hrrn ∧ d.level ≠ .srpf) ∧
    ((∀ i, ¬ Runnable t .lottery i) → (∃ i, Runnable t .hrrn i) → ∀ d ∈ ds, d.level ≠ .srpf)

/-- The table the SRPF block would scan after the lottery scan: the one the
process drawn leaves behind, or `t` itself if the draw misses. -/
def afterLottery (t : Table n F) (rnd : Int32) (back : Site → Table n F) : Table n F :=
  if DrawHits t rnd then back .lottery else t

variable [FloatOps F] {t : Table n F} {rnd : Int32} {back : Site → Table n F}

omit [FloatOps F] in
/-- The SRPF block runs somebody exactly when somebody can run. -/
theorem SrpfTail.forall_level_ne {T : Table n F} {ds : List (Dispatch n)} (h : SrpfTail T ds) :
    (∀ d ∈ ds, d.level ≠ .srpf) ↔ ∀ j, ¬ Runnable T .srpf j := by
  cases h with
  | idle hnone => simpa using hnone
  | run m hm =>
      refine ⟨fun h => absurd rfl (h _ (List.mem_singleton_self _)), fun h => absurd hm (h m)⟩

omit [FloatOps F] in
theorem SrpfTail.level_ne_hrrn {T : Table n F} {ds : List (Dispatch n)} (h : SrpfTail T ds) :
    ∀ d ∈ ds, d.level ≠ .hrrn := by
  cases h with
  | idle _ => simp
  | run m _ => simp

omit [FloatOps F] in
/-- While there is a lottery process, an SRPF block run on `T` is what decides. -/
theorem strictPriority_of_tail {T : Table n F} {ds : List (Dispatch n)} (ds₀ : List (Dispatch n))
    (hex : ∃ i, Runnable t .lottery i) (hds₀ : ∀ d ∈ ds₀, d.level = .lottery)
    (hds : SrpfTail T ds) :
    StrictPriority t (ds₀ ++ ds) ↔ ∀ j, ¬ Runnable T .srpf j := by
  rw [← hds.forall_level_ne]
  constructor
  · intro h d hd
    exact (h.1 hex d (List.mem_append_right _ hd)).2
  · intro h
    refine ⟨fun _ d hd => ?_, fun hn _ => absurd hex (not_exists.mpr hn)⟩
    rcases List.mem_append.mp hd with hd | hd
    · simp [hds₀ d hd]
    · exact ⟨hds.level_ne_hrrn d hd, h d hd⟩

omit [FloatOps F] in
theorem PassSpec.priority_iff {ds : List (Dispatch n)} (h : PassSpec t rnd back ds) :
    StrictPriority t ds ↔
      ((∃ i, Runnable t .lottery i) → ∀ j, ¬ Runnable (afterLottery t rnd back) .srpf j) := by
  cases h with
  | drawn p hp hhit hds =>
      have hiff := strictPriority_of_tail [⟨.lottery, p, .lottery⟩] ⟨p, hp⟩ (by simp) hds
      rw [List.singleton_append] at hiff
      rw [hiff, afterLottery, if_pos hhit]
      exact ⟨fun h _ => h, fun h => h ⟨p, hp⟩⟩
  | missed hex hmiss hds =>
      have hiff := strictPriority_of_tail [] hex (by simp) hds
      rw [List.nil_append] at hiff
      rw [hiff, afterLottery, if_neg hmiss]
      exact ⟨fun h _ => h, fun h => h hex⟩
  | hrrn m hnl hm =>
      refine ⟨fun _ hex => absurd hex (not_exists.mpr hnl), fun _ => ?_⟩
      exact ⟨fun hex => absurd hex (not_exists.mpr hnl), fun _ _ => by simp⟩
  | srpf hnl hnh hds =>
      refine ⟨fun _ hex => absurd hex (not_exists.mpr hnl), fun _ => ?_⟩
      exact ⟨fun hex => absurd hex (not_exists.mpr hnl),
        fun _ hex => absurd hex (not_exists.mpr hnh)⟩

/-- A pass respects the queues **iff** it finds no runnable lottery process, or
the table it finds after the lottery has no runnable SRPF process. -/
theorem strictPriority_iff (ticks : UInt32) (t₀ t : Table n F) (back : Site → Table n F) :
    StrictPriority t (schedulerPass ticks t₀ t back).1 ↔
      ((∃ i, Runnable t .lottery i) →
        ∀ j, ¬ Runnable (afterLottery t (generateRandom ticks (getTotal t₀)) back) .srpf j) :=
  (schedulerPass_spec ticks t₀ t).1.priority_iff

/-- A lottery process in slot 0 and an SRPF process in slot 1, both runnable. -/
def mixedTable : Table NPROC ℚ := fun i =>
  if i.val = 0 then { Proc.zero with state := .runnable, pid := 1, tickets := 59, cycleNum := 1 }
  else if i.val = 1 then
    { Proc.zero with state := .runnable, pid := 2, level := .srpf, tickets := 21, cycleNum := 1 }
  else Proc.zero

/-- The pass over `mixedTable` at tick 0 runs the lottery process, which is
preempted, and then the SRPF process, with the lottery process runnable. -/
theorem lottery_then_srpf :
    ¬ StrictPriority mixedTable (schedulerPass 0 mixedTable mixedTable fun _ => mixedTable).1 := by
  rw [(schedulerPass_spec 0 mixedTable mixedTable).1.priority_iff]
  intro h
  refine h ⟨0, by decide⟩ 1 ?_
  unfold afterLottery
  split <;> decide

end OsCourse.Sched
