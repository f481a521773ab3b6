import Mathlib.Data.List.Dedup
import Mathlib.Data.List.Perm.Subperm
import OsCourse.Log.Commit

/-!
# OsCourse.Log.Space

How much the log holds. `begin_op` admits an operation as long as `MAXOPBLOCKS`
blocks for each outstanding one fit into `LOGSIZE`; a log of `LOGSIZE` blocks has
one of them for the header, and `log_write` does not go beyond `LOGSIZE - 1`.

The header has one entry for each distinct block logged since the last commit
(`header_length`). So `log_write` panics exactly when it is called with
`LOGSIZE - 1` of them logged already, which three operations of `MAXOPBLOCKS`
blocks each bring about.
-/

namespace OsCourse.Log

open OsCourse.Lib

variable {π : Type} [DecidableEq π] {s t : State π} {L : Layout}

/-- `mkfs`: `sb.nlog = LOGSIZE`, behind the boot block and the super block. -/
def mkfs : Layout := ⟨2, LOGSIZE⟩

/-- The blocks process `p` has logged since its last `begin_op`. -/
def opBlocks (es : List (Event π)) (p : π) : List UInt32 :=
  es.foldl (fun bs e => match e with
    | .begin q => if q = p then [] else bs
    | .log q b => if q = p then b :: bs else bs
    | _ => bs) []

/-- No operation logs more than `MAXOPBLOCKS` distinct blocks. -/
def OpBounded (s : State π) : Act π → Prop
  | .logWrite p b => (b :: opBlocks s.events p).dedup.length ≤ MAXOPBLOCKS
  | _ => True

/-- `log_write` finds fewer than `LOGSIZE - 1` distinct blocks logged since the
last commit. -/
def Room (s : State π) : Act π → Prop
  | .logWrite _ _ => (logged (since s.events)).dedup.length < LOGSIZE - 1
  | _ => True

instance (s : State π) : ∀ a, Decidable (OpBounded s a)
  | .logWrite _ _ => inferInstanceAs (Decidable (_ ≤ _))
  | .begin _ | .endOp _ | .step _ => inferInstanceAs (Decidable True)

instance (s : State π) : ∀ a, Decidable (Room s a)
  | .logWrite _ _ => inferInstanceAs (Decidable (_ < _))
  | .begin _ | .endOp _ | .step _ => inferInstanceAs (Decidable True)

/-- The committer leaves the entries alone until it drops them all. -/
theorem advance_blocks (m : Mem) {k : Point} (hk : k ≠ .readHead) :
    (advance L m k).1.lh.blocks = m.lh.blocks ∨ (advance L m k).1.lh.blocks = [] := by
  cases k with
  | readHead => contradiction
  | writeLog t =>
      rw [advance]
      split <;> exact .inl rfl
  | install t =>
      rw [advance]
      split <;> exact .inl rfl
  | clear => exact .inr (blocks_nil rfl)
  | writeHead => exact .inl rfl
  | eraseHead => exact .inl rfl
  | done => exact .inl rfl

/-- The header has no entry twice. -/
theorem Inv.nodup_next (h : Inv s) (hs : s.mem.lh.blocks.Nodup) {a : Act π}
    (ht : step L s a = some t) : t.mem.lh.blocks.Nodup := by
  rcases header_next ht with hsame | ⟨p, rfl, ⟨b, hp, hadd⟩ | ⟨k, hp, hadv⟩⟩
  · rwa [hsame]
  · rw [hadd, blocks_add]
    split
    · exact hs
    · next hb =>
      refine List.nodup_append.mpr ⟨hs, List.nodup_singleton b, fun c hc d hd => ?_⟩
      obtain rfl := List.mem_singleton.mp hd
      exact fun he => hb (he ▸ hc)
  · have hk : k ≠ .readHead := by
      rintro rfl
      have hprog := h.progress p
      rw [hp] at hprog
      exact hprog
    rw [hadv]
    rcases advance_blocks (L := L) s.mem hk with hsame | hnil
    · rwa [hsame]
    · rw [hnil]
      exact List.nodup_nil

omit [DecidableEq π] in
/-- Outside a commit the header counts the distinct blocks logged since the last. -/
theorem Inv.header_length (h : Inv s) (hs : s.mem.lh.blocks.Nodup)
    (hc : s.committing = false) : s.mem.lh.n = (logged (since s.events)).dedup.length := by
  have hperm : s.mem.lh.blocks.Perm (logged (since s.events)).dedup := by
    refine (List.perm_ext_iff_of_nodup hs (List.nodup_dedup _)).mpr fun b => ?_
    rw [h.holds hc b, List.mem_dedup]
  rw [← hperm.length_eq, LogHeader.blocks, List.length_map, List.length_range]

/-- `log_write` has not panicked for want of space. -/
def Fits (s : State π) : Prop := s.panic ≠ some .tooBigTransaction

instance (s : State π) : Decidable (Fits s) := inferInstanceAs (Decidable (_ ≠ _))

/-- A call of `log_write` panics if the header is full but for one entry. -/
theorem logWrite_next {p : π} {b : UInt32} (ht : step mkfs s (.logWrite p b) = some t) :
    s.pc p = .inOp ∧ (Fits t ↔ s.mem.lh.n < LOGSIZE - 1) := by
  simp only [step] at ht
  split at ht
  · cases ht
  · next hpanic =>
    rw [Option.ite_none_right_eq_some] at ht
    obtain ⟨hp, ht⟩ := ht
    refine ⟨hp, ?_⟩
    have hnone : s.panic = none := by simpa using hpanic
    split at ht
    · next hfull =>
      obtain rfl := Option.some.inj ht
      have hfull : 30 ≤ s.mem.lh.n ∨ (30 : Int) - 1 ≤ s.mem.lh.n := hfull
      have hle : ¬ s.mem.lh.n < 29 := by omega
      exact iff_of_false (fun hfits => hfits rfl) hle
    · next hroom =>
      obtain rfl := Option.some.inj ht
      have hroom : ¬ (30 ≤ s.mem.lh.n ∨ (30 : Int) - 1 ≤ s.mem.lh.n) := hroom
      have hlt : s.mem.lh.n < 29 := by omega
      exact iff_of_true (by simp [Fits, State.goto, hnone]) hlt

/-- No other step makes the log too small. -/
theorem fits_next {a : Act π} (ha : ∀ p b, a ≠ .logWrite p b) (ht : step L s a = some t) :
    Fits t := by
  simp only [step] at ht
  split at ht
  · cases ht
  · next hpanic =>
    have hnone : s.panic = none := by simpa using hpanic
    cases a with
    | begin p =>
        simp only [Option.ite_none_right_eq_some, Option.some.injEq] at ht
        obtain ⟨-, rfl⟩ := ht
        rw [Fits, (begin_op_frame p).2, hnone]
        simp
    | logWrite p b => exact absurd rfl (ha p b)
    | endOp p =>
        simp only [Option.ite_none_right_eq_some, Option.some.injEq] at ht
        obtain ⟨-, rfl⟩ := ht
        simp only [State.end_op]
        split
        · simp [Fits]
        · split <;> simp [Fits, State.goto, State.wakeup, hnone]
    | step p =>
        simp only at ht
        split at ht
        · obtain rfl := Option.some.inj ht
          rw [Fits, (begin_op_frame p).2, hnone]
          simp
        · split at ht
          · obtain rfl := Option.some.inj ht
            simp [Fits]
          · obtain rfl := Option.some.inj ht
            simp [Fits, State.goto, hnone]
        · obtain rfl := Option.some.inj ht
          simp [Fits, State.goto, hnone]
        · split at ht
          · obtain rfl := Option.some.inj ht
            simp [Fits, State.goto, hnone]
          · obtain rfl := Option.some.inj ht
            simp [Fits, State.goto, hnone]
        · obtain rfl := Option.some.inj ht
          simp [Fits, State.end_commit, State.goto, State.wakeup, hnone]
        · cases ht
        · cases ht
        · cases ht

/-- **When the log has room.** On a log made by `mkfs` a run keeps clear of the
panic `too big a transaction` iff `log_write` always finds fewer than
`LOGSIZE - 1` distinct blocks logged since the last commit. -/
theorem log_fits_iff (disk : Nat → Block) (as : List (Act π)) {u : State π}
    (hu : (machine mkfs disk).exec (initlog disk) as = some u) :
    (machine mkfs disk).Always Fits (initlog disk) as ↔
      (machine mkfs disk).Meets Room (initlog disk) as := by
  refine (machine mkfs disk).exec_always_iff
    (I := fun s => Inv s ∧ s.mem.lh.blocks.Nodup ∧ Fits s) (fun s h => h.2.2) ?_ ?_
    ⟨inv_init disk, by simp [initlog, Mem.restart, LogHeader.blocks], by simp [Fits, initlog]⟩ hu
  · intro s a t h hroom ht
    obtain ⟨hinv, hnodup, -⟩ := h
    refine ⟨hinv.next ht, hinv.nodup_next hnodup ht, ?_⟩
    by_cases ha : ∃ p b, a = .logWrite p b
    · obtain ⟨p, b, rfl⟩ := ha
      obtain ⟨hp, hfits⟩ := logWrite_next ht
      have hc := hinv.not_committing (p := p) (by rw [hp]; trivial)
      rw [hfits, hinv.header_length hnodup hc]
      exact hroom
    · exact fits_next (fun p b he => ha ⟨p, b, he⟩) ht
  · intro s a t h hroom ht hfits
    obtain ⟨hinv, hnodup, -⟩ := h
    cases a with
    | logWrite p b =>
        obtain ⟨hp, hiff⟩ := logWrite_next ht
        have hc := hinv.not_committing (p := p) (by rw [hp]; trivial)
        rw [hiff, hinv.header_length hnodup hc] at hfits
        exact hroom hfits
    | _ => exact hroom trivial

/-- An operation that logs two blocks, one of them twice, meets the condition. -/
theorem log_fits_iff_two :
    (machine mkfs fun _ _ => 0).Always Fits (initlog fun _ _ => 0)
      [Act.begin (0 : Fin 3), .logWrite 0 50, .step 0, .step 0, .logWrite 0 51, .step 0, .step 0,
        .logWrite 0 50, .step 0, .step 0] := by
  have hrun : ((machine mkfs fun _ _ => 0).execWhile Room (initlog fun _ _ => 0)
      [Act.begin (0 : Fin 3), .logWrite 0 50, .step 0, .step 0, .logWrite 0 51, .step 0, .step 0,
        .logWrite 0 50, .step 0, .step 0]).isSome := by decide +kernel
  have hchecked := Option.eq_some_of_isSome hrun
  obtain ⟨hmeets, hexec⟩ := (machine mkfs fun _ _ => 0).meets_of_execWhile hchecked
  exact (log_fits_iff (fun _ _ => 0) _ hexec).mpr hmeets

/-- Three operations, each with the ten blocks it may log: the thirtieth
`log_write` panics. -/
theorem log_overflow : ¬ ∀ (as : List (Act (Fin 3))) (u : State (Fin 3)),
    (machine mkfs fun _ _ => 0).Meets OpBounded (initlog fun _ _ => 0) as →
    (machine mkfs fun _ _ => 0).exec (initlog fun _ _ => 0) as = some u → Fits u := by
  intro h
  have hrun : (((machine mkfs fun _ _ => 0).execWhile OpBounded (initlog fun _ _ => 0)
      ([Act.begin 0, .begin 1, .begin 2] ++ ((List.range 30).flatMap fun i =>
        [Act.logWrite (Fin.ofNat 3 i) (UInt32.ofNat (100 + i)), .step (Fin.ofNat 3 i),
          .step (Fin.ofNat 3 i)]).take 88)).map fun s => s.panic) =
      some (some .tooBigTransaction) := by
    decide +kernel
  obtain ⟨u, hu, hpanic⟩ := Option.map_eq_some_iff.mp hrun
  obtain ⟨hbounded, hexec⟩ := (machine mkfs fun _ _ => 0).meets_of_execWhile hu
  exact h _ u hbounded hexec hpanic

end OsCourse.Log
