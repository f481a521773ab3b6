import OsCourse.Descendants.Model

/-!
# OsCourse.Descendants.Tree

The descendants of a process: who they are (`mem_descendants`), that they are
found in the order of a search with a queue (`descendants_eq`), and that the scan
of `get_process_children` sees the children of the process it is called for, when
it takes no other slot for one (`getProcessChildren_eq`).
-/

namespace OsCourse.Descendants

variable {n : Nat} {t : Table n} {low pid : Int32} {i j : Fin n}

namespace Table

@[simp] theorem mem_kids : j ∈ t.kids i ↔ t.Live j ∧ (t j).parent = some i := by simp [kids]

@[simp] theorem mem_kidsOf :
    j ∈ t.kidsOf pid ↔ t.Live j ∧ ∃ p, (t j).parent = some p ∧ (t p).pid = pid := by
  simp [kidsOf]

/-- A pid names one process. -/
theorem Forest.kidsOf_pid (hf : t.Forest) (hi : t.Live i) : t.kidsOf (t i).pid = t.kids i := by
  refine List.filter_congr fun j _ => ?_
  simp only [decide_eq_decide]
  constructor
  · intro ⟨hj, p, hp, hpid⟩
    exact ⟨hj, by rw [hp, hf.distinct p i (hf.live j p hj hp) hi hpid]⟩
  · intro ⟨hj, hp⟩
    exact ⟨hj, i, hp, rfl⟩

theorem Forest.level_eq_nil (hf : t.Forest) (l : List (Fin n)) : Lib.level t.kids n l = [] := by
  have h := hf.acyclic.level_eq_nil (fun _ _ hy => (mem_kids.mp hy).2) l
  rwa [Fintype.card_fin] at h

theorem Forest.descendants_eq (hf : t.Forest) (pid : Int32) :
    t.descendants pid = t.kidsOf pid ++ (t.descendants pid).flatMap t.kids :=
  Lib.levels_eq (hf.level_eq_nil _)

theorem mem_level (hf : t.Forest) {k : ℕ} :
    i ∈ Lib.level t.kids k (t.kidsOf pid) ↔
      t.Live i ∧ ∃ p, Lib.climb (fun i => (t i).parent) (k + 1) i = some p ∧ (t p).pid = pid := by
  induction k generalizing i with
  | zero =>
      rw [Lib.level, mem_kidsOf]
      simp only [Lib.climb]
      cases (t i).parent <;> simp
  | succ k ih =>
      rw [Lib.level_succ, List.mem_flatMap]
      constructor
      · intro h
        obtain ⟨z, hz, hi⟩ := h
        obtain ⟨hlive, hp⟩ := mem_kids.mp hi
        obtain ⟨-, p, hclimb, hpid⟩ := ih.mp hz
        refine ⟨hlive, p, ?_, hpid⟩
        rw [Lib.climb, hp]
        exact hclimb
      · intro h
        obtain ⟨hlive, p, hclimb, hpid⟩ := h
        rw [Lib.climb, Option.bind_eq_some_iff] at hclimb
        obtain ⟨z, hp, hclimb⟩ := hclimb
        exact ⟨z, ih.mpr ⟨hf.live i z hlive hp, p, hclimb, hpid⟩, mem_kids.mpr ⟨hlive, hp⟩⟩

/-- The descendants of process `pid` are the processes that climb to it. -/
theorem mem_descendants (hf : t.Forest) :
    i ∈ t.descendants pid ↔
      t.Live i ∧ ∃ k p, Lib.climb (fun i => (t i).parent) (k + 1) i = some p ∧ (t p).pid = pid := by
  rw [descendants, Lib.mem_levels]
  constructor
  · intro ⟨k, _, hi⟩
    obtain ⟨hlive, hp⟩ := (mem_level hf).mp hi
    exact ⟨hlive, k, hp⟩
  · intro ⟨hlive, k, hp⟩
    have hi := (mem_level hf).mpr ⟨hlive, hp⟩
    refine ⟨k, Nat.lt_of_not_le fun hk => ?_, hi⟩
    -- there is no level from `n` on
    obtain ⟨y, hy, -⟩ := hp
    have hnone := hf.acyclic.climb_none i
    rw [Fintype.card_fin] at hnone
    rw [Lib.climb_none_of_le (Nat.le_succ_of_le hk) hnone] at hy
    cases hy

theorem live_of_mem_descendants (hf : t.Forest) (hi : i ∈ t.descendants pid) : t.Live i :=
  ((mem_descendants hf).mp hi).1

/-- The pids of a list of slots. -/
def pids (t : Table n) (l : List (Fin n)) : List ℕ := l.map fun i => (t i).pid.toNatClampNeg

@[simp] theorem length_pids (l : List (Fin n)) : (t.pids l).length = l.length := by simp [pids]

@[simp] theorem pids_eq_nil {l : List (Fin n)} : t.pids l = [] ↔ l = [] := by simp [pids]

theorem pids_append (l m : List (Fin n)) : t.pids (l ++ m) = t.pids l ++ t.pids m := by
  simp [pids]

/-- What the scan takes for a child is one. -/
theorem parentPid_eq_iff {q : Int32} (hr : t.Reads low q) :
    t.parentPid low j = q ↔ t.Live j ∧ ∃ p, (t j).parent = some p ∧ (t p).pid = q := by
  constructor
  · intro h
    obtain ⟨hj, hp⟩ := hr j h
    obtain ⟨p, hp⟩ := Option.ne_none_iff_exists'.mp hp
    refine ⟨hj, p, hp, ?_⟩
    rw [parentPid, hp] at h
    exact h
  · intro ⟨_, p, hp, hpid⟩
    rw [parentPid, hp]
    exact hpid

end Table

/-- Appending pids to a number, one digit each. -/
theorem foldl_pids {l : List (Fin n)} (hl : ∀ i ∈ l, 0 < (t i).pid) (ds : List ℕ) :
    l.foldl (fun children p => children * 10 + (t p).pid) (Int32.ofNat (Lib.numeral 10 ds)) =
      Int32.ofNat (Lib.numeral 10 (ds ++ t.pids l)) := by
  induction l generalizing ds with
  | nil => simp [Table.pids]
  | cons i l ih =>
      have hi : Int32.ofNat (t i).pid.toNatClampNeg = (t i).pid :=
        Int32.ofNat_toNatClampNeg _ (Int32.le_of_lt (hl i (by simp)))
      have hstep : Int32.ofNat (Lib.numeral 10 ds) * 10 + (t i).pid =
          Int32.ofNat (Lib.numeral 10 (ds ++ [(t i).pid.toNatClampNeg])) := by
        rw [Lib.numeral_concat, Int32.ofNat_add, Int32.ofNat_mul, hi]
        rfl
      rw [List.foldl_cons, hstep, ih fun j hj => hl j (List.mem_cons_of_mem i hj), List.append_assoc]
      rfl

/-- The scan of `get_process_children`. -/
theorem getProcessChildren_eq {q : Int32} (hr : t.Reads low q)
    (hpos : ∀ i ∈ t.kidsOf q, 0 < (t i).pid) :
    getProcessChildren t low q = Int32.ofNat (Lib.numeral 10 (t.pids (t.kidsOf q))) := by
  have hfilter : t.kidsOf q = (List.finRange n).filter fun i => t.parentPid low i = q := by
    refine List.filter_congr fun i _ => ?_
    rw [decide_eq_decide]
    exact (Table.parentPid_eq_iff hr).symm
  have h := foldl_pids hpos []
  rw [List.nil_append] at h
  rw [← h, hfilter, List.foldl_filter]
  simp [getProcessChildren]

end OsCourse.Descendants
