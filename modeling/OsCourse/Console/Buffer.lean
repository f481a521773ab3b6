import OsCourse.Console.Editor

/-!
# OsCourse.Console.Buffer

What the editing functions do to `input`.

The two shifting loops are described cell by cell. An inserted character
(`Inserted`) has the same effect on the buffer in the middle of the line as at
its end, so there is one description for both; an erased one (`Erased`) has not,
since `handleBackspaceInMid` also moves the cell after the line. Neither moves
anything that lies before `w`.

`Ok` is the order of the indices; with it goes `Clean`: at and after `w` there
is no newline and no curly bracket, not even among the leftovers of deleted
text. That is why `killLine` stops at `w`, and why printing the line moves the
cursor by its length.
-/

namespace OsCourse.Console

open OsCourse.Lib

/-! ### The shifting loops -/

theorem shiftToRightLoop_spec (start k : Nat) (b : CBuf INPUT_BUF) (h : start + k < INPUT_BUF) :
    ∃ b', shiftToRightLoop start k b = some b' ∧
      ∀ j, b'[j]? = if start < j ∧ j ≤ start + k then b[j - 1]? else b[j]? := by
  induction k generalizing b with
  | zero =>
      refine ⟨b, rfl, fun j => ?_⟩
      rw [if_neg (by omega)]
  | succ k ih =>
      obtain ⟨c, hc⟩ := CBuf.exists_getElem? b (show start + k < INPUT_BUF by omega)
      have hread : CBuf.read b ((start : Int) + k) = some c := by
        rw [← hc]
        exact_mod_cast CBuf.read_natCast b (start + k)
      have hwrite : CBuf.write b ((start : Int) + k + 1) c = some (b.set (start + k + 1) c) := by
        exact_mod_cast CBuf.write_natCast b (show start + k + 1 < INPUT_BUF by omega) c
      obtain ⟨b', hloop, hb'⟩ := ih (b.set (start + k + 1) c) (by omega)
      refine ⟨b', ?_, fun j => ?_⟩
      · rw [shiftToRightLoop, hread, Option.bind_eq_bind, Option.bind_some, hwrite]
        exact hloop
      · rw [hb', CBuf.getElem?_set, CBuf.getElem?_set]
        by_cases hj : j = start + k + 1
        · subst hj
          rw [if_neg (by omega), if_pos rfl, if_pos (by omega), ← hc]
          rfl
        · rw [if_neg hj]
          by_cases hlt : start < j ∧ j ≤ start + k
          · rw [if_pos hlt, if_neg (by omega), if_pos (by omega)]
          · rw [if_neg hlt, if_neg (by omega)]

/-- `shiftToRight` moves `b[start..end]` one up. -/
theorem shiftToRight_spec {start end_ : Nat} (b : CBuf INPUT_BUF) (hs : start ≤ end_)
    (h : end_ + 1 < INPUT_BUF) :
    ∃ b', shiftToRight b end_ start = some b' ∧
      ∀ j, b'[j]? = if start < j ∧ j ≤ end_ + 1 then b[j - 1]? else b[j]? := by
  obtain ⟨b', hloop, hb'⟩ := shiftToRightLoop_spec start (end_ + 1 - start) b (by omega)
  refine ⟨b', ?_, fun j => ?_⟩
  · rw [shiftToRight, show ((end_ : Int) + 1 - start).toNat = end_ + 1 - start by omega]
    exact hloop
  · rw [hb', show start + (end_ + 1 - start) = end_ + 1 by omega]

/-- With `end` in the last cell, `shiftToRight` starts by writing beyond it. -/
theorem shiftToRight_last {start : Nat} (b : CBuf INPUT_BUF) (hs : start ≤ 127) :
    shiftToRight b (127 : Nat) start = none := by
  obtain ⟨c, hc⟩ := CBuf.exists_getElem? b (show 127 < INPUT_BUF by decide)
  have hread : CBuf.read b ((start : Int) + (127 - start : Nat)) = some c := by
    rw [← hc, show (start : Int) + (127 - start : Nat) = (127 : Nat) by omega]
    exact CBuf.read_natCast b 127
  rw [shiftToRight, show (((127 : Nat) : Int) + 1 - start).toNat = 127 - start + 1 by omega,
    shiftToRightLoop, hread, Option.bind_eq_bind, Option.bind_some, CBuf.write_of_le]
  · rfl
  · simp only [INPUT_BUF]
    omega

theorem shiftToLeftLoop_spec (k i : Nat) (b : CBuf INPUT_BUF) (hi : 1 ≤ i)
    (h : i + k ≤ INPUT_BUF) :
    ∃ b', shiftToLeftLoop k i b = some b' ∧
      ∀ j, b'[j]? = if i ≤ j + 1 ∧ j + 1 < i + k then b[j + 1]? else b[j]? := by
  induction k generalizing i b with
  | zero =>
      refine ⟨b, rfl, fun j => ?_⟩
      rw [if_neg (by omega)]
  | succ k ih =>
      obtain ⟨c, hc⟩ := CBuf.exists_getElem? b (show i < INPUT_BUF by omega)
      have hwrite : CBuf.write b ((i : Int) - 1) c = some (b.set (i - 1) c) := by
        rw [show (i : Int) - 1 = (i - 1 : Nat) by omega]
        exact CBuf.write_natCast b (show i - 1 < INPUT_BUF by omega) c
      obtain ⟨b', hloop, hb'⟩ := ih (i + 1) (b.set (i - 1) c) (by omega) (by omega)
      refine ⟨b', ?_, fun j => ?_⟩
      · rw [shiftToLeftLoop, CBuf.read_natCast, hc, Option.bind_eq_bind, Option.bind_some, hwrite]
        exact_mod_cast hloop
      · rw [hb', CBuf.getElem?_set, CBuf.getElem?_set]
        by_cases hj : j = i - 1
        · subst hj
          rw [if_neg (by omega), if_pos rfl, if_pos (by omega), ← hc,
            show i - 1 + 1 = i by omega]
        · rw [if_neg hj]
          by_cases hlt : i + 1 ≤ j + 1 ∧ j + 1 < i + 1 + k
          · rw [if_pos hlt, if_neg (by omega), if_pos (by omega)]
          · rw [if_neg hlt, if_neg (by omega)]

/-- `shiftToLeft` moves `b[start..end]` one down. -/
theorem shiftToLeft_spec {start end_ : Nat} (b : CBuf INPUT_BUF) (h1 : 1 ≤ start)
    (hs : start ≤ end_) (h : end_ < INPUT_BUF) :
    ∃ b', shiftToLeft b end_ start = some b' ∧
      ∀ j, b'[j]? = if start ≤ j + 1 ∧ j < end_ then b[j + 1]? else b[j]? := by
  obtain ⟨b', hloop, hb'⟩ := shiftToLeftLoop_spec (end_ + 1 - start) start b h1 (by omega)
  refine ⟨b', ?_, fun j => ?_⟩
  · rw [shiftToLeft, show ((end_ : Int) + 1 - start).toNat = end_ + 1 - start by omega]
    exact hloop
  · have hiff : (start ≤ j + 1 ∧ j + 1 < start + (end_ + 1 - start)) ↔
        start ≤ j + 1 ∧ j < end_ := by omega
    rw [hb']
    simp only [hiff]

/-! ### Indices -/

theorem signed_of_lt {x : UInt32} (h : x.toNat < 2 ^ 31) : signed x = x.toNat := by
  unfold signed
  apply Int.bmod_eq_of_le
  · omega
  · omega

theorem toNat_add_one {x : UInt32} (h : x.toNat < 2 ^ 31) : (x + 1).toNat = x.toNat + 1 := by
  rw [UInt32.toNat_add]
  simp only [UInt32.toNat_one]
  omega

theorem toNat_sub_one {x : UInt32} (h : 1 ≤ x.toNat) : (x - 1).toNat = x.toNat - 1 := by
  have hle : (1 : UInt32) ≤ x := UInt32.le_iff_toNat_le.mpr (by simpa using h)
  simpa using UInt32.toNat_sub_of_le x 1 hle

theorem toNat_sub {x y : UInt32} (h : y.toNat ≤ x.toNat) : (x - y).toNat = x.toNat - y.toNat :=
  UInt32.toNat_sub_of_le _ _ (UInt32.le_iff_toNat_le.mpr h)

theorem toNat_mod {x : UInt32} (h : x.toNat < 128) : (x % 128).toNat = x.toNat := by
  rw [UInt32.toNat_mod]
  exact Nat.mod_eq_of_lt h

/-- A difference of two indices, converted to `int`. -/
theorem signed_sub {x y : UInt32} (h : y.toNat ≤ x.toNat) (hx : x.toNat < 2 ^ 31) :
    signed (x - y) = (x.toNat : Int) - y.toNat := by
  have hsub := toNat_sub h
  rw [signed_of_lt (by omega), hsub]
  omega

theorem signed_neg {x : UInt32} (h : x.toNat < 2 ^ 31) : signed (-x) = -(x.toNat : Int) := by
  have hneg : (-x).toNat = (2 ^ 32 - x.toNat) % 2 ^ 32 := UInt32.toNat_neg x
  unfold signed
  by_cases h0 : x.toNat = 0
  · simp [h0]
  · have hmod : ((-x).toNat : Int) = -(x.toNat : Int) + (2 ^ 32 : Nat) := by
      rw [hneg, Nat.mod_eq_of_lt (by omega)]
      omega
    rw [hmod, Int.add_bmod_right]
    apply Int.bmod_eq_of_le
    · omega
    · omega

/-! ### The state of the buffer -/

/-- A character that may lie in the part of the buffer that is being edited. -/
def Plain (c : UInt8) : Prop := c ≠ NEWLINE ∧ c ≠ CURLY_LEFT ∧ c ≠ CURLY_RIGHT

namespace Input

/-- The indices are in order, and within the buffer. -/
structure Ok (s : Input) : Prop where
  r_le : s.r.toNat ≤ s.w.toNat
  w_le : s.w.toNat ≤ s.e.toNat
  e_le : s.e.toNat ≤ s.end_.toNat
  end_le : s.end_.toNat ≤ 127

/-- The cursor moved to the end of the line. -/
theorem Ok.atEnd {s : Input} (h : s.Ok) : Ok { s with e := s.end_ } where
  r_le := h.r_le
  w_le := Nat.le_trans h.w_le h.e_le
  e_le := Nat.le_refl _
  end_le := h.end_le

/-- From `w` on, the buffer holds plain characters only. -/
def Clean (s : Input) : Prop := ∀ j c, s.w.toNat ≤ j → s.buf[j]? = some c → Plain c

/-- The line: `buf[w..end)`. -/
def line (s : Input) : List UInt8 := CBuf.slice s.buf s.w.toNat s.end_.toNat

/-- `s'` is `s` with `c` inserted at `e`. -/
structure Inserted (s s' : Input) (c : UInt8) : Prop where
  r : s'.r = s.r
  w : s'.w = s.w
  e : s'.e.toNat = s.e.toNat + 1
  end_ : s'.end_.toNat = s.end_.toNat + 1
  buf : ∀ j, s'.buf[j]? =
    if j = s.e.toNat then some c
    else if s.e.toNat < j ∧ j ≤ s.end_.toNat + 1 then s.buf[j - 1]?
    else s.buf[j]?

theorem Inserted.bounds {s s' : Input} {c : UInt8} (hi : s.Inserted s' c) (h : s.Ok)
    (hend : s.end_.toNat ≤ 126) : s'.r.toNat ≤ s'.end_.toNat ∧ s'.end_.toNat ≤ 127 := by
  have hr := h.r_le
  have hw := h.w_le
  have he := h.e_le
  rw [hi.r, hi.end_]
  omega

/-- `s'` is `s` with the character before `e` erased; the cells from the one
after the new line on may have been moved down, too. -/
structure Erased (s s' : Input) : Prop where
  r : s'.r = s.r
  w : s'.w = s.w
  e : s'.e.toNat + 1 = s.e.toNat
  end_ : s'.end_.toNat + 1 = s.end_.toNat
  buf : ∀ j, j < s'.end_.toNat →
    s'.buf[j]? = if s.e.toNat ≤ j + 1 then s.buf[j + 1]? else s.buf[j]?
  rest : ∀ j, s'.buf[j]? = s.buf[j + 1]? ∨ s'.buf[j]? = s.buf[j]?

end Input

/-! ### The editing functions -/

section Editing

variable {s : Input}

/-- The buffer after `shiftToRight` and the assignment that follows it. -/
theorem insert_spec (h : s.Ok) (hend : s.end_.toNat ≤ 126) (c : UInt8) :
    ∃ b b', shiftToRight s.buf (signed s.end_) (signed s.e) = some b ∧
      CBuf.write b (s.e % 128).toNat c = some b' ∧
      ∀ j, b'[j]? =
        if j = s.e.toNat then some c
        else if s.e.toNat < j ∧ j ≤ s.end_.toNat + 1 then s.buf[j - 1]?
        else s.buf[j]? := by
  have he := h.e_le
  obtain ⟨b, hshift, hb⟩ := shiftToRight_spec s.buf he
    (show s.end_.toNat + 1 < INPUT_BUF by simp only [INPUT_BUF]; omega)
  have hlt : s.e.toNat < INPUT_BUF := by simp only [INPUT_BUF]; omega
  refine ⟨b, b.set s.e.toNat c, ?_, ?_, fun j => ?_⟩
  · rw [signed_of_lt (by omega), signed_of_lt (by omega)]
    exact hshift
  · rw [toNat_mod (by omega)]
    exact CBuf.write_natCast b hlt c
  · rw [CBuf.getElem?_set, hb]

/-- Inserting with `end` in the last cell runs over the end of the buffer. -/
theorem shiftToRight_full (h : s.Ok) (hend : ¬ s.end_.toNat ≤ 126) :
    shiftToRight s.buf (signed s.end_) (signed s.e) = none := by
  have hle := h.end_le
  have he := h.e_le
  rw [signed_of_lt (by omega), signed_of_lt (by omega), show s.end_.toNat = 127 by omega]
  exact shiftToRight_last s.buf (by omega)

theorem appendChar_spec (h : s.Ok) (hend : s.end_.toNat ≤ 126) (c : UInt8) :
    ∃ s', appendChar s c = some (s', [s'.putc (.char c)]) ∧ s.Inserted s' c := by
  have he := h.e_le
  obtain ⟨b, b', hshift, hwrite, hb'⟩ := insert_spec h hend c
  refine ⟨{ s with buf := b', e := s.e + 1, end_ := s.end_ + 1 }, ?_, ?_⟩
  · rw [appendChar, hshift, Option.bind_eq_bind, Option.bind_some, hwrite]
    rfl
  · exact ⟨rfl, rfl, toNat_add_one (by omega), toNat_add_one (by omega), hb'⟩

/-- The line is printed anew from its start, by way of its old end. -/
def reprint (s : Input) (text : List UInt8) (change : Int) : List ScreenOp :=
  .changePos ((s.end_.toNat : Int) - s.e.toNat) ::
    (List.replicate (s.end_.toNat - s.w.toNat) (s.putc .backspace) ++
      (text.map (fun c => s.putc (.char c)) ++ [.changePos change]))

theorem handleWriteInmid_spec (h : s.Ok) (hend : s.end_.toNat ≤ 126) (c : UInt8) :
    ∃ s', handleWriteInmid s c =
        some (s', reprint s s'.line ((s.e.toNat : Int) - s.end_.toNat)) ∧ s.Inserted s' c := by
  have he := h.e_le
  have hw := h.w_le
  obtain ⟨b, b', hshift, hwrite, hb'⟩ := insert_spec h hend c
  have htext : CBuf.readRange b' s.w.toNat (s.end_.toNat + 1 - s.w.toNat) =
      some (CBuf.slice b' s.w.toNat (s.end_.toNat + 1)) := by
    rw [CBuf.readRange_natCast _ _ _ (by simp only [INPUT_BUF]; omega),
      show s.w.toNat + (s.end_.toNat + 1 - s.w.toNat) = s.end_.toNat + 1 by omega]
  have hsub := toNat_sub he
  refine ⟨{ s with buf := b', end_ := s.end_ + 1, e := s.e + 1 }, ?_, ?_⟩
  · rw [handleWriteInmid, hshift, Option.bind_eq_bind, Option.bind_some, hwrite,
      Option.bind_eq_bind, Option.bind_some, htext, Option.bind_some,
      signed_sub he (by omega), signed_neg (by omega), hsub, reprint, Input.line,
      toNat_add_one (by omega), show -((s.end_.toNat - s.e.toNat : Nat) : Int) =
        (s.e.toNat : Int) - s.end_.toNat by omega]
  · exact ⟨rfl, rfl, toNat_add_one (by omega), toNat_add_one (by omega), hb'⟩

/-- `handleBackspaceInMid` prints the new line and the cell after the old one. -/
theorem handleBackspaceInMid_spec (h : s.Ok) (hew : s.e ≠ s.w) (hlt : s.e < s.end_) {x : UInt8}
    (hx : s.buf[s.end_.toNat]? = some x) :
    ∃ s', handleBackspaceInMid s =
        some (s', reprint s (s'.line ++ [x]) ((s.e.toNat : Int) - s.end_.toNat - 1)) ∧
      s.Erased s' := by
  have he := h.e_le
  have hw := h.w_le
  have hend := h.end_le
  have hne : s.e.toNat ≠ s.w.toNat := fun heq => hew (UInt32.toNat_inj.mp heq)
  have hlt' : s.e.toNat < s.end_.toNat := UInt32.lt_iff_toNat_lt.mp hlt
  obtain ⟨b, hshift, hb⟩ := shiftToLeft_spec s.buf (show 1 ≤ s.e.toNat by omega) he
    (show s.end_.toNat < INPUT_BUF by simp only [INPUT_BUF]; omega)
  have hlast : b[s.end_.toNat - 1]? = some x := by
    rw [hb, if_pos (by omega), show s.end_.toNat - 1 + 1 = s.end_.toNat by omega, hx]
  have htext : CBuf.readRange b s.w.toNat (s.end_.toNat - s.w.toNat) =
      some (CBuf.slice b s.w.toNat (s.end_.toNat - 1) ++ [x]) := by
    rw [CBuf.readRange_natCast _ _ _ (by simp only [INPUT_BUF]; omega),
      ← CBuf.slice_concat (by omega) hlast,
      show s.w.toNat + (s.end_.toNat - s.w.toNat) = s.end_.toNat - 1 + 1 by omega]
  have hsub := toNat_sub he
  have hsub1 : (s.end_ - s.e + 1).toNat = s.end_.toNat - s.e.toNat + 1 := by
    rw [toNat_add_one (by omega), hsub]
  refine ⟨{ s with buf := b, end_ := s.end_ - 1, e := s.e - 1 }, ?_, ?_⟩
  · rw [handleBackspaceInMid, signed_of_lt (by omega), signed_of_lt (by omega), hshift]
    simp only [Option.bind_eq_bind, Option.bind_some, htext]
    rw [signed_sub he (by omega), signed_neg (by omega), hsub1, reprint, Input.line,
      toNat_sub_one (by omega), show -((s.end_.toNat - s.e.toNat + 1 : Nat) : Int) =
        (s.e.toNat : Int) - s.end_.toNat - 1 by omega]
  · refine ⟨rfl, rfl, ?_, ?_, fun j hj => ?_, fun j => ?_⟩
    · rw [toNat_sub_one (by omega)]
      omega
    · rw [toNat_sub_one (by omega)]
      omega
    · rw [toNat_sub_one (by omega)] at hj
      rw [hb]
      by_cases hj' : s.e.toNat ≤ j + 1
      · rw [if_pos hj', if_pos (by omega)]
      · rw [if_neg hj', if_neg (by omega)]
    · rw [hb]
      by_cases hj : s.e.toNat ≤ j + 1 ∧ j < s.end_.toNat
      · rw [if_pos hj]
        exact .inl rfl
      · rw [if_neg hj]
        exact .inr rfl

/-- Backspace at the end of the line only moves the indices. -/
theorem erased_of_end (h : s.Ok) (hew : s.e ≠ s.w) (hge : ¬ s.e < s.end_) :
    s.Erased { s with e := s.e - 1, end_ := s.end_ - 1 } := by
  have he := h.e_le
  have hw := h.w_le
  have hne : s.e.toNat ≠ s.w.toNat := fun heq => hew (UInt32.toNat_inj.mp heq)
  have hge' : ¬ s.e.toNat < s.end_.toNat := fun hlt => hge (UInt32.lt_iff_toNat_lt.mpr hlt)
  refine ⟨rfl, rfl, ?_, ?_, fun j hj => ?_, fun j => .inr rfl⟩
  · rw [toNat_sub_one (by omega)]
    omega
  · rw [toNat_sub_one (by omega)]
    omega
  · rw [toNat_sub_one (by omega)] at hj
    rw [if_neg (by omega)]

/-- The backspaces of `killLine`, with `k` characters left. -/
def killOps (w : UInt32) : Nat → List ScreenOp
  | 0 => []
  | k + 1 => .cgaputc .backspace w (w + UInt32.ofNat k) (w + UInt32.ofNat k) :: killOps w k

theorem killLoop_spec (hclean : s.Clean) {k : Nat} (he : s.e.toNat = s.w.toNat + k)
    (hend : s.end_ = s.e) (hlt : s.end_.toNat ≤ 127) :
    killLoop k s = some ({ s with e := s.w, end_ := s.w }, killOps s.w k) := by
  induction k generalizing s with
  | zero =>
      have hew : s.e = s.w := UInt32.toNat_inj.mp he
      obtain ⟨buf, r, w, e, end_⟩ := s
      dsimp only at hew hend
      subst hend hew
      rfl
  | succ k ih =>
      have hne : s.end_ ≠ s.w := by
        intro heq
        rw [← hend, heq] at he
        omega
      have he1 : (s.e - 1).toNat = s.w.toNat + k := by
        rw [toNat_sub_one (by omega)]
        omega
      have hend1 : (s.end_ - 1).toNat ≤ 127 := by
        rw [hend] at hlt ⊢
        omega
      rw [hend] at hlt
      obtain ⟨c, hc⟩ := CBuf.exists_getElem? s.buf
        (show s.w.toNat + k < INPUT_BUF by simp only [INPUT_BUF]; omega)
      have hread : CBuf.read s.buf ((s.e - 1) % 128).toNat = some c := by
        rw [toNat_mod (by omega), he1, CBuf.read_natCast, hc]
      have hplain := hclean _ c (by omega) hc
      have hwk : s.e - 1 = s.w + UInt32.ofNat k := by
        apply UInt32.toNat_inj.mp
        have hk : (UInt32.ofNat k).toNat = k :=
          UInt32.toNat_ofNat_of_lt' (by simp only [UInt32.size]; omega)
        rw [he1, UInt32.toNat_add, hk]
        omega
      have hrec := ih (s := { s with e := s.e - 1, end_ := s.end_ - 1 }) hclean he1
        (by rw [hend]) hend1
      rw [killLoop, if_neg hne, hread, Option.bind_eq_bind, Option.bind_some, if_neg hplain.1]
      dsimp only at hrec ⊢
      rw [hrec, Option.bind_eq_bind, Option.bind_some, killOps, Input.putc, hend, hwk]

theorem killLine_spec (h : s.Ok) (hclean : s.Clean) :
    killLine s = some ({ s with e := s.w, end_ := s.w },
      .changePos ((s.end_.toNat : Int) - s.e.toNat) ::
        killOps s.w (s.end_.toNat - s.w.toNat)) := by
  have he := h.e_le
  have hw := h.w_le
  have hend := h.end_le
  have hloop := killLoop_spec (s := { s with e := s.end_ }) (k := s.end_.toNat - s.w.toNat)
    hclean (by dsimp only; omega) rfl hend
  rw [killLine, toNat_sub (by omega), hloop, Option.bind_eq_bind, Option.bind_some,
    signed_sub he (by omega)]

end Editing

end OsCourse.Console
