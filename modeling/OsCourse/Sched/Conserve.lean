import OsCourse.Sched.PassSpec

/-!
# OsCourse.Sched.Conserve

**Work conservation**: a pass that finds a runnable process dispatches one, and
if there is a runnable lottery process the lottery dispatches one of them.

The draw is taken below the total of *all* slots at `LOTTERY` level, sleeping
ones and recycled ones included, while the walk counts off the tickets of the
runnable ones only. A draw beyond these selects nobody (`DrawHits`), and this
is the only way a pass can waste its turn: `workConserving_iff`.
-/

namespace OsCourse.Sched

variable {n : Nat} {F : Type}

/-- The dispatches `ds` of a pass over the table `t` waste no turn. -/
def WorkConserving (t : Table n F) (ds : List (Dispatch n)) : Prop :=
  ((∃ i, (t i).state = .runnable) → ds ≠ []) ∧
    ((∃ i, Runnable t .lottery i) →
      ∃ d ∈ ds, d.site = .lottery ∧ Runnable t .lottery d.slot)

variable {t : Table n F} {rnd : Int32} {back : Site → Table n F}

/-- The SRPF block is idle only if nobody is left to run. -/
theorem SrpfTail.ne_nil {T : Table n F} {ds : List (Dispatch n)} (h : SrpfTail T ds)
    (hex : ∃ i, Runnable T .srpf i) : ds ≠ [] := by
  cases h with
  | idle hnone => exact absurd hex (not_exists.mpr hnone)
  | run m _ => simp

/-- The SRPF block makes no dispatch at the lottery's place. -/
theorem SrpfTail.site_eq {T : Table n F} {ds : List (Dispatch n)} (h : SrpfTail T ds) :
    ∀ d ∈ ds, d.site = .srpf := by
  cases h with
  | idle _ => simp
  | run m _ => simp

theorem PassSpec.conserving_iff {ds : List (Dispatch n)} (h : PassSpec t rnd back ds) :
    WorkConserving t ds ↔ ((∃ i, Runnable t .lottery i) → DrawHits t rnd) := by
  cases h with
  | drawn p hp hhit hds =>
      refine ⟨fun _ _ => hhit, fun _ => ⟨fun _ => List.cons_ne_nil _ _, fun _ => ?_⟩⟩
      exact ⟨_, List.mem_cons_self, rfl, hp⟩
  | missed hex hmiss hds =>
      refine ⟨fun hw => ?_, fun hhit => absurd (hhit hex) hmiss⟩
      obtain ⟨d, hd, hsite, -⟩ := hw.2 hex
      rw [hds.site_eq d hd] at hsite
      cases hsite
  | hrrn m hnl hm =>
      refine ⟨fun _ hex => absurd hex (not_exists.mpr hnl), fun _ => ?_⟩
      exact ⟨fun _ => List.cons_ne_nil _ _, fun hex => absurd hex (not_exists.mpr hnl)⟩
  | srpf hnl hnh hds =>
      refine ⟨fun _ hex => absurd hex (not_exists.mpr hnl), fun _ => ?_⟩
      refine ⟨?_, fun hex => absurd hex (not_exists.mpr hnl)⟩
      rintro ⟨i, hi⟩
      -- a runnable process is in one of the three queues, hence in the last one
      refine hds.ne_nil ⟨i, hi, ?_⟩
      cases hlevel : (t i).level with
      | lottery => exact absurd ⟨hi, hlevel⟩ (hnl i)
      | hrrn => exact absurd ⟨hi, hlevel⟩ (hnh i)
      | srpf => rfl

/-- A pass wastes no turn **iff** there is no runnable lottery process or the
draw falls on one of their tickets. -/
theorem workConserving_iff [FloatOps F] (ticks : UInt32) (t₀ t : Table n F)
    (back : Site → Table n F) :
    WorkConserving t (schedulerPass ticks t₀ t back).1 ↔
      ((∃ i, Runnable t .lottery i) → DrawHits t (generateRandom ticks (getTotal t₀))) :=
  (schedulerPass_spec ticks t₀ t).1.conserving_iff

/-! ### When the draw hits -/

theorem ticketsOf_nonneg {l : List (Fin n)}
    (hpos : ∀ i, Runnable t .lottery i → 0 < (t i).tickets.toInt) : 0 ≤ ticketsOf t l := by
  induction l with
  | nil => simp
  | cons i l ih =>
      rw [ticketsOf_cons]
      split
      · next hi =>
        have := hpos i hi
        omega
      · omega

theorem ticketsOf_append (l l' : List (Fin n)) :
    ticketsOf t (l ++ l') = ticketsOf t l + ticketsOf t l' := by
  simp [ticketsOf]

/-- Some prefix of `l` that ends in a runnable lottery process holds all its
tickets. -/
theorem exists_last {l : List (Fin n)} (hex : ∃ i ∈ l, Runnable t .lottery i) :
    ∃ pre i post, l = pre ++ i :: post ∧ Runnable t .lottery i ∧
      ticketsOf t (pre ++ [i]) = ticketsOf t l := by
  induction l with
  | nil => simp at hex
  | cons p ps ih =>
      by_cases hps : ∃ i ∈ ps, Runnable t .lottery i
      · obtain ⟨pre, i, post, rfl, hi, hsum⟩ := ih hps
        refine ⟨p :: pre, i, post, rfl, hi, ?_⟩
        rw [List.cons_append, ticketsOf_cons, hsum, ticketsOf_cons]
      · have hzero : ticketsOf t ps = 0 := by
          rw [ticketsOf]
          refine List.sum_eq_zero fun x hx => ?_
          obtain ⟨i, hi, rfl⟩ := List.mem_map.mp hx
          rw [if_neg fun hr => hps ⟨i, hi, hr⟩]
        obtain ⟨i, hi, hr⟩ := hex
        rcases List.mem_cons.mp hi with rfl | hi
        · refine ⟨[], i, ps, rfl, hr, ?_⟩
          rw [List.nil_append, ticketsOf_cons, ticketsOf_cons, hzero, ticketsOf_nil]
        · exact absurd ⟨i, hi, hr⟩ hps

/-- As long as nothing overflows, the draw hits iff it is at most the number of
tickets held by runnable lottery processes. -/
theorem drawHits_iff_le (hpos : ∀ i, Runnable t .lottery i → 0 < (t i).tickets.toInt)
    (hex : ∃ i, Runnable t .lottery i)
    (hlow : -2 ^ 31 ≤ rnd.toInt - ticketsOf t (List.finRange n)) :
    DrawHits t rnd ↔ rnd.toInt ≤ ticketsOf t (List.finRange n) := by
  have hbmod : ∀ {x : Int}, -2 ^ 31 ≤ x → x < 2 ^ 31 → x.bmod (2 ^ 32) = x := fun h1 h2 =>
    Int.bmod_eq_of_le (by omega) (by omega)
  have hrnd := rnd.toInt_lt
  rw [drawHits_iff_stopsIn]
  constructor
  · rintro ⟨pre, i, post, hl, hi, hle⟩
    have hpost := ticketsOf_nonneg (t := t) (l := post) hpos
    have hpre := ticketsOf_nonneg (t := t) (l := pre ++ [i]) hpos
    rw [hl, ← List.singleton_append, ← List.append_assoc, ticketsOf_append] at hlow ⊢
    rw [hbmod (by omega) (by omega)] at hle
    omega
  · intro hle
    obtain ⟨i, hi⟩ := hex
    obtain ⟨pre, j, post, hl, hj, hsum⟩ := exists_last ⟨i, List.mem_finRange i, hi⟩
    refine ⟨pre, j, post, hl, hj, ?_⟩
    have hpre := ticketsOf_nonneg (t := t) (l := pre ++ [j]) hpos
    rw [hsum] at hpre ⊢
    rw [hbmod (by omega) (by omega)]
    omega

/-- A runnable lottery process with one ticket, and one with 59 that sleeps. -/
def sleepyTable : Table NPROC ℚ := fun i =>
  if i.val = 0 then { Proc.zero with state := .runnable, pid := 1, tickets := 1, cycleNum := 1 }
  else if i.val = 1 then
    { Proc.zero with state := .sleeping, pid := 2, tickets := 59, cycleNum := 1 }
  else Proc.zero

/-- At tick 0 the draw out of 60 is 21: the pass over `sleepyTable` dispatches
nobody, though every lottery process has a ticket and one of them can run. -/
theorem draw_misses :
    (∀ i, (sleepyTable i).level = .lottery → (sleepyTable i).state ≠ .unused →
      1 ≤ (sleepyTable i).tickets) ∧
    ¬ WorkConserving sleepyTable
      (schedulerPass 0 sleepyTable sleepyTable fun _ => sleepyTable).1 := by
  refine ⟨by decide, ?_⟩
  rw [(schedulerPass_spec 0 sleepyTable sleepyTable).1.conserving_iff]
  intro h
  obtain ⟨i, hi, hle⟩ := h ⟨0, by decide⟩
  have hzero : ∀ i, Runnable sleepyTable .lottery i → i = 0 := by decide
  have hdraw : generateRandom 0 (getTotal sleepyTable) = 21 := by decide +kernel
  rw [hzero i hi, hdraw] at hle
  revert hle
  decide

end OsCourse.Sched
