import OsCourse.Console.Buffer

/-!
# OsCourse.Console.Keys

What one key and one stretch of `consoleread` do, as a whole.

`Outcome` lists every way a key can go, with the buffer it leaves and what it
sends to the screen. `consoleintr_spec` and `consoleintr_none` say that it is
one of these, or the write beyond the end of the buffer that inserting a
character at `end = 127` begins with; the later modules never look into
`consoleintr` again. Reading never leaves the buffer, and takes the committed
text off as the queue of the reference editor does.
-/

namespace OsCourse.Console

open OsCourse.Lib

/-! ### Keys -/

/-- The key puts a character into the buffer. -/
def Key.Inserts : Key → Prop
  | .newline | .char .. => True
  | _ => False

instance : DecidablePred Key.Inserts := fun k => by cases k <;> unfold Key.Inserts <;> infer_instance

/-- An ordinary character is typed as it is, and is plain. -/
theorem keyOf_eq_char {c c' : UInt8} {commit : Bool} (h : keyOf c = .char c' commit) :
    c' = c ∧ commit = decide (c = C 'D') ∧ Plain c := by
  unfold keyOf at h
  split_ifs at h with h1 h2 h3 h4 h5 h6
  · obtain ⟨rfl, rfl⟩ := Key.char.inj h
    exact ⟨rfl, rfl, fun hc => h4 (.inr hc), h5, h6⟩

/-- The line is committed. -/
def Input.commit (s : Input) : Input := { s with e := s.end_, w := s.end_ }

/-- The ways a key can go. -/
inductive Outcome (s : Input) : Key → Input → List ScreenOp → Prop
  | ignored : Outcome s .ignored s []
  | kill : Outcome s .kill { s with e := s.w, end_ := s.w }
      (.changePos ((s.end_.toNat : Int) - s.e.toNat) :: killOps s.w (s.end_.toNat - s.w.toNat))
  | noBackspace : s.e = s.w → Outcome s .backspace s []
  /-- Backspace in the middle of the line: `x` is the cell after the line. -/
  | backspaceInMid {s' : Input} {x : UInt8} : s.e ≠ s.w → s.e < s.end_ →
      s.buf[s.end_.toNat]? = some x → s.Erased s' →
      Outcome s .backspace s' (reprint s (s'.line ++ [x]) ((s.e.toNat : Int) - s.end_.toNat - 1))
  | backspaceAtEnd {s' : Input} : s.e ≠ s.w → ¬ s.e < s.end_ →
      s' = { s with e := s.e - 1, end_ := s.end_ - 1 } → s.Erased s' →
      Outcome s .backspace s' [s'.putc .backspace]
  | home : Outcome s .home { s with e := s.w } [s.putc (.char CURLY_LEFT)]
  | toEnd : Outcome s .toEnd { s with e := s.end_ } [s.putc (.char CURLY_RIGHT)]
  | newline {s' : Input} (ops : List ScreenOp) :
      Input.Inserted { s with e := s.end_ } s' NEWLINE → Outcome s .newline s'.commit ops
  | writeInMid {s' : Input} {c : UInt8} : Plain c → s.e < s.end_ → s.Inserted s' c →
      Outcome s (.char c false) s' (reprint s s'.line ((s.e.toNat : Int) - s.end_.toNat))
  | writeAtEnd {s' : Input} {c : UInt8} : Plain c → ¬ s.e < s.end_ → s.Inserted s' c →
      Outcome s (.char c false) s' [s'.putc (.char c)]
  /-- ^D. -/
  | commit {s' : Input} {c : UInt8} (ops : List ScreenOp) : s.Inserted s' c →
      Outcome s (.char c true) s'.commit ops

section Keys

variable {s : Input}

/-- `consoleintr`, by the meaning of the key: there is always room. -/
theorem consoleintr_eq (h : s.Ok) (c : UInt8) :
    consoleintr s c = match keyOf c with
      | .ignored => some (s, [])
      | .kill => killLine s
      | .backspace =>
          if s.e ≠ s.w then
            if s.e < s.end_ then handleBackspaceInMid s
            else
              let s := { s with e := s.e - 1, end_ := s.end_ - 1 }
              some (s, [s.putc .backspace])
          else some (s, [])
      | .home => some ({ s with e := s.w }, [s.putc (.char CURLY_LEFT)])
      | .toEnd => some ({ s with e := s.end_ }, [s.putc (.char CURLY_RIGHT)])
      | .newline => (appendChar { s with e := s.end_ } NEWLINE).map fun p =>
          thenDecide NEWLINE (p.1, .changePos (signed (s.end_ - s.e)) :: p.2)
      | .char c _ =>
          (if s.e < s.end_ then handleWriteInmid s c else appendChar s c).map (thenDecide c) := by
  have hr := h.r_le
  have hw := h.w_le
  have he := h.e_le
  have hend := h.end_le
  have hroom : s.end_ - s.r < 128 := by
    rw [UInt32.lt_iff_toNat_lt, toNat_sub (by omega)]
    simp only [UInt32.reduceToNat]
    omega
  unfold consoleintr keyOf
  by_cases hP : c = C 'P'
  · simp [hP]
  by_cases h0 : c = 0
  · subst h0
    rfl
  by_cases hU : c = C 'U'
  · simp [hU, show C 'U' ≠ C 'P' by decide, show C 'U' ≠ 0 by decide]
  by_cases hC : c = C 'C'
  · simp [hC, show C 'C' ≠ C 'P' by decide, show C 'C' ≠ C 'U' by decide,
      show C 'C' ≠ 0 by decide]
  by_cases hH : c = C 'H' ∨ c = 0x7f
  · simp [hP, h0, hU, hC, hH]
  rw [if_neg hP, if_neg hU, if_neg hC, if_neg hH, if_pos ⟨h0, hroom⟩,
    if_neg (not_or.mpr ⟨hP, h0⟩), if_neg (not_or.mpr ⟨hU, hC⟩), if_neg hH]
  by_cases hcr : c = '\r'.toUInt8
  · simp only [hcr, if_true, true_or]
    cases appendChar { s with e := s.end_ } NEWLINE <;> rfl
  · simp only [hcr, if_false, false_or]
    by_cases hnl : c = NEWLINE
    · simp only [hnl, if_true]
      cases appendChar { s with e := s.end_ } NEWLINE <;> rfl
    · simp only [hnl, if_false]
      by_cases hl : c = CURLY_LEFT
      · simp [hl]
      · by_cases hrt : c = CURLY_RIGHT
        · simp [hrt, show CURLY_RIGHT ≠ CURLY_LEFT by decide]
        · simp only [hl, hrt, if_false]
          split_ifs <;> rfl

/-- `finalDecision` commits after a newline and ^D only: the buffer is never full. -/
theorem thenDecide_eq {c : UInt8} (hr : s.r.toNat ≤ s.end_.toNat) (hend : s.end_.toNat ≤ 127)
    (ops : List ScreenOp) :
    thenDecide c (s, ops) =
      if c = NEWLINE ∨ c = C 'D' then
        (s.commit, ops ++ [.changePos (signed (s.end_ - s.e))])
      else (s, ops) := by
  have hfull : s.end_ ≠ s.r + 128 := by
    intro heq
    have hnat := congrArg UInt32.toNat heq
    rw [UInt32.toNat_add] at hnat
    simp only [UInt32.reduceToNat] at hnat
    omega
  unfold thenDecide finalDecision
  by_cases hc : c = NEWLINE ∨ c = C 'D'
  · have hc' : c = NEWLINE ∨ c = C 'D' ∨ s.end_ = s.r + 128 := by
      rcases hc with hc | hc
      · exact .inl hc
      · exact .inr (.inl hc)
    rw [if_pos hc, if_pos hc']
    rfl
  · have hc' : ¬ (c = NEWLINE ∨ c = C 'D' ∨ s.end_ = s.r + 128) := by
      intro h
      rcases h with h | h | h
      · exact hc (.inl h)
      · exact hc (.inr h)
      · exact hfull h
    rw [if_neg hc, if_neg hc', List.append_nil]

/-- What typing the character `c` in the middle or at the end comes to. -/
theorem outcome_char (h : s.Ok) {c : UInt8} (hplain : Plain c) {s' : Input}
    (hi : s.Inserted s' c) (hend : s.end_.toNat ≤ 126) {ops : List ScreenOp}
    (hops : Outcome s (.char c false) s' ops) :
    ∃ t ops', thenDecide c (s', ops) = (t, ops') ∧
      Outcome s (.char c (decide (c = C 'D'))) t ops' := by
  obtain ⟨hr, hend'⟩ := hi.bounds h hend
  rw [thenDecide_eq hr hend']
  by_cases hD : c = C 'D'
  · rw [if_pos (.inr hD), decide_eq_true hD]
    exact ⟨_, _, rfl, .commit _ hi⟩
  · have hc : ¬ (c = NEWLINE ∨ c = C 'D') := by
      intro h
      rcases h with h | h
      · exact hplain.1 h
      · exact hD h
    rw [if_neg hc, decide_eq_false hD]
    exact ⟨_, _, rfl, hops⟩

/-- **Every key** that fits goes one of the ways of `Outcome`. -/
theorem consoleintr_spec (h : s.Ok) (hclean : s.Clean) {c : UInt8}
    (hfit : (keyOf c).Inserts → s.end_.toNat ≤ 126) :
    ∃ s' ops, consoleintr s c = some (s', ops) ∧ Outcome s (keyOf c) s' ops := by
  have hend := h.end_le
  rw [consoleintr_eq h]
  cases hk : keyOf c with
  | ignored => exact ⟨s, [], rfl, .ignored⟩
  | kill => exact ⟨_, _, killLine_spec h hclean, .kill⟩
  | backspace =>
      dsimp only
      by_cases hew : s.e = s.w
      · rw [if_neg (by simpa using hew)]
        exact ⟨s, [], rfl, .noBackspace hew⟩
      · rw [if_pos hew]
        by_cases hlt : s.e < s.end_
        · obtain ⟨x, hx⟩ := CBuf.exists_getElem? s.buf
            (show s.end_.toNat < INPUT_BUF by simp only [INPUT_BUF]; omega)
          obtain ⟨s', heq, hs'⟩ := handleBackspaceInMid_spec h hew hlt hx
          rw [if_pos hlt, heq]
          exact ⟨s', _, rfl, .backspaceInMid hew hlt hx hs'⟩
        · rw [if_neg hlt]
          exact ⟨_, _, rfl, .backspaceAtEnd hew hlt rfl (erased_of_end h hew hlt)⟩
  | home => exact ⟨_, _, rfl, .home⟩
  | toEnd => exact ⟨_, _, rfl, .toEnd⟩
  | newline =>
      rw [hk] at hfit
      obtain ⟨s', heq, hi⟩ := appendChar_spec h.atEnd (hfit trivial) NEWLINE
      obtain ⟨hr, hend'⟩ := hi.bounds h.atEnd (hfit trivial)
      dsimp only
      rw [heq, Option.map_some, thenDecide_eq hr hend', if_pos (.inl rfl)]
      exact ⟨_, _, rfl, .newline _ hi⟩
  | char c' commit =>
      rw [hk] at hfit
      obtain ⟨rfl, rfl, hplain⟩ := keyOf_eq_char hk
      dsimp only
      by_cases hlt : s.e < s.end_
      · obtain ⟨s', heq, hi⟩ := handleWriteInmid_spec h (hfit trivial) c'
        rw [if_pos hlt, heq, Option.map_some]
        obtain ⟨t, ops, ht, hout⟩ := outcome_char h hplain hi (hfit trivial)
          (.writeInMid hplain hlt hi)
        exact ⟨t, ops, congrArg some ht, hout⟩
      · obtain ⟨s', heq, hi⟩ := appendChar_spec h (hfit trivial) c'
        rw [if_neg hlt, heq, Option.map_some]
        obtain ⟨t, ops, ht, hout⟩ := outcome_char h hplain hi (hfit trivial)
          (.writeAtEnd hplain hlt hi)
        exact ⟨t, ops, congrArg some ht, hout⟩

/-- **No room**: a character typed at `end = 127` is written beyond the buffer. -/
theorem consoleintr_none (h : s.Ok) {c : UInt8} (hins : (keyOf c).Inserts)
    (hfull : ¬ s.end_.toNat ≤ 126) : consoleintr s c = none := by
  rw [consoleintr_eq h]
  cases hk : keyOf c with
  | ignored | kill | backspace | home | toEnd =>
      rw [hk] at hins
      exact hins.elim
  | newline =>
      dsimp only
      rw [appendChar, shiftToRight_full h.atEnd hfull]
      rfl
  | char c' commit =>
      dsimp only
      rw [handleWriteInmid, appendChar, shiftToRight_full h hfull]
      split_ifs <;> rfl

end Keys

/-! ### What the keys keep -/

namespace Input

variable {s s' : Input} {c : UInt8}

theorem Inserted.ok (hi : s.Inserted s' c) (h : s.Ok) (hend : s.end_.toNat ≤ 126) : s'.Ok where
  r_le := by rw [hi.r, hi.w]; exact h.r_le
  w_le := by rw [hi.w, hi.e]; exact Nat.le_succ_of_le h.w_le
  e_le := by rw [hi.e, hi.end_]; exact Nat.succ_le_succ h.e_le
  end_le := (hi.bounds h hend).2

theorem Erased.ok (hi : s.Erased s') (h : s.Ok) (hew : s.e ≠ s.w) : s'.Ok where
  r_le := by rw [hi.r, hi.w]; exact h.r_le
  w_le := by
    have hne : s.e.toNat ≠ s.w.toNat := fun heq => hew (UInt32.toNat_inj.mp heq)
    have hw := h.w_le
    have he := hi.e
    rw [hi.w]
    omega
  e_le := by
    have hle := h.e_le
    have he := hi.e
    have hend := hi.end_
    omega
  end_le := by
    have hle := h.end_le
    have hend := hi.end_
    omega

theorem Ok.commit (h : s.Ok) : s.commit.Ok where
  r_le := Nat.le_trans h.r_le (Nat.le_trans h.w_le h.e_le)
  w_le := Nat.le_refl _
  e_le := Nat.le_refl _
  end_le := h.end_le

/-- Past the place of the insertion the cells only move. -/
theorem Inserted.cell_after (hi : s.Inserted s' c) {j : Nat} (hj : s.e.toNat < j) :
    s'.buf[j]? = s.buf[j - 1]? ∨ s'.buf[j]? = s.buf[j]? := by
  rw [hi.buf, if_neg (by omega)]
  split_ifs
  · exact .inl rfl
  · exact .inr rfl

theorem Inserted.clean (hi : s.Inserted s' c) (h : s.Ok) (hclean : s.Clean) (hc : Plain c) :
    s'.Clean := by
  intro j x hj hx
  rw [hi.w] at hj
  have hw := h.w_le
  by_cases hlt : s.e.toNat < j
  · rcases hi.cell_after hlt with heq | heq
    · rw [heq] at hx
      exact hclean _ x (by omega) hx
    · rw [heq] at hx
      exact hclean _ x hj hx
  · rw [hi.buf] at hx
    split_ifs at hx with h1 h2
    · exact Option.some.inj hx ▸ hc
    · exact absurd h2.1 hlt
    · exact hclean _ x hj hx

/-- Once the line is committed it does not matter which character ended it. -/
theorem Inserted.clean_commit (hi : s.Inserted s' c) (h : s.Ok) (hclean : s.Clean) :
    s'.commit.Clean := by
  intro j x hj hx
  have hw := h.w_le
  have he := h.e_le
  have hj' : s'.end_.toNat ≤ j := hj
  rw [hi.end_] at hj'
  have hx' : s'.buf[j]? = some x := hx
  rcases hi.cell_after (show s.e.toNat < j by omega) with heq | heq
  · rw [heq] at hx'
    exact hclean _ x (by omega) hx'
  · rw [heq] at hx'
    exact hclean _ x (by omega) hx'

theorem Erased.clean (hi : s.Erased s') (hclean : s.Clean) : s'.Clean := by
  intro j x hj hx
  rw [hi.w] at hj
  rcases hi.rest j with heq | heq
  · rw [heq] at hx
    exact hclean _ x (Nat.le_succ_of_le hj) hx
  · rw [heq] at hx
    exact hclean _ x hj hx

end Input

namespace Outcome

variable {s s' : Input} {k : Key} {ops : List ScreenOp}

theorem ok (ho : Outcome s k s' ops) (h : s.Ok) (hfit : k.Inserts → s.end_.toNat ≤ 126) :
    s'.Ok := by
  cases ho with
  | ignored => exact h
  | kill =>
      have hle := Nat.le_trans h.w_le (Nat.le_trans h.e_le h.end_le)
      exact ⟨h.r_le, Nat.le_refl _, Nat.le_refl _, hle⟩
  | noBackspace _ => exact h
  | backspaceInMid hew _ _ hs' => exact hs'.ok h hew
  | backspaceAtEnd hew _ _ hs' => exact hs'.ok h hew
  | home => exact ⟨h.r_le, Nat.le_refl _, Nat.le_trans h.w_le h.e_le, h.end_le⟩
  | toEnd => exact h.atEnd
  | newline _ hi => exact (hi.ok h.atEnd (hfit trivial)).commit
  | writeInMid _ _ hi => exact hi.ok h (hfit trivial)
  | writeAtEnd _ _ hi => exact hi.ok h (hfit trivial)
  | commit _ hi => exact (hi.ok h (hfit trivial)).commit

theorem clean (ho : Outcome s k s' ops) (h : s.Ok) (hclean : s.Clean) : s'.Clean := by
  cases ho with
  | ignored => exact hclean
  | kill => exact hclean
  | noBackspace _ => exact hclean
  | backspaceInMid _ _ _ hs' => exact hs'.clean hclean
  | backspaceAtEnd _ _ _ hs' => exact hs'.clean hclean
  | home => exact hclean
  | toEnd => exact hclean
  | newline _ hi => exact hi.clean_commit h.atEnd hclean
  | writeInMid hplain _ hi => exact hi.clean h hclean hplain
  | writeAtEnd hplain _ hi => exact hi.clean h hclean hplain
  | commit _ hi => exact hi.clean_commit h hclean

end Outcome

/-! ### Reading -/

/-- `consoleread` stays inside the buffer, moves only `r`, not beyond `w`, and
reads as the queue of the editor is read. -/
theorem readLoop_spec (killed : Bool) (target n : Nat) {s : Input} (h : s.Ok) (dst : List UInt8) :
    ∃ r' reader, readLoop killed target n s dst = some ({ s with r := r' }, reader) ∧
      r'.toNat ≤ s.w.toNat ∧
      Editor.readQueue killed target n (CBuf.slice s.buf s.r.toNat s.w.toNat) dst =
        (CBuf.slice s.buf r'.toNat s.w.toNat, reader) := by
  have hw := h.w_le
  have he := h.e_le
  have hend := h.end_le
  induction n generalizing s dst with
  | zero => exact ⟨s.r, _, rfl, h.r_le, rfl⟩
  | succ n ih =>
      by_cases hrw : s.r = s.w
      · refine ⟨s.r, _, by rw [readLoop, if_pos hrw], h.r_le, ?_⟩
        rw [CBuf.slice_of_le _ (Nat.le_of_eq (by rw [hrw])), Editor.readQueue]
      · have hne : s.r.toNat ≠ s.w.toNat := fun heq => hrw (UInt32.toNat_inj.mp heq)
        have hr := h.r_le
        have hr1 := toNat_add_one (show s.r.toNat < 2 ^ 31 by omega)
        obtain ⟨c, hc⟩ := CBuf.exists_getElem? s.buf
          (show s.r.toNat < INPUT_BUF by simp only [INPUT_BUF]; omega)
        have hread : CBuf.read s.buf (s.r % 128).toNat = some c := by
          rw [toNat_mod (by omega), CBuf.read_natCast, hc]
        have hcons := CBuf.slice_cons (show s.r.toNat < s.w.toNat by omega) hc
        rw [readLoop, if_neg hrw, hread, Option.bind_eq_bind, Option.bind_some, hcons,
          Editor.readQueue, ← hr1]
        dsimp only
        by_cases hD : c = C 'D'
        · rw [if_pos hD, if_pos hD]
          by_cases hn : n + 1 < target
          · rw [if_pos hn, if_pos hn, hr1, ← hcons, UInt32.add_sub_cancel]
            exact ⟨s.r, _, rfl, h.r_le, rfl⟩
          · rw [if_neg hn, if_neg hn]
            exact ⟨s.r + 1, _, rfl, by omega, rfl⟩
        · rw [if_neg hD, if_neg hD]
          by_cases hnl : c = NEWLINE
          · rw [if_pos hnl, if_pos hnl]
            exact ⟨s.r + 1, _, rfl, by omega, rfl⟩
          · rw [if_neg hnl, if_neg hnl]
            exact ih (s := { s with r := s.r + 1 }) ⟨by dsimp only; omega, hw, he, hend⟩ _ hw he hend

end OsCourse.Console
