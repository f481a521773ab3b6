import OsCourse.Console.Display

/-!
# OsCourse.Console.Output

**What a program writes and what the screen shows.** `consolewrite` hands every byte
to `cgaputc`, which is also the line editor's. `BACKSPACE` is no byte, so no program
can write it; `CURLY_LEFT` and `CURLY_RIGHT` are the bytes `{` and `}`, and these move
the cursor along the line that is being typed, in whatever program's output they occur.
All other bytes are shown, whatever is pending in the buffer, and these two never are
(`output_shown_iff`).
-/

namespace OsCourse.Console

/-- `consolewrite`. The lock keeps `input` as it is between two bytes. -/
def consolewrite (s : Input) (x : Screen) (buf : List UInt8) : Option (Screen × Nat) :=
  (x.runAll (buf.map fun c => s.putc (.char c))).map fun x => (x, buf.length)

/-! ### Faithful output -/

namespace Screen

/-- A byte is put under the cursor, which advances; a line end moves it to the start
of the next row. -/
def store (x : Screen) (c : UInt8) : Screen :=
  if c = NEWLINE then ⟨x.crt, (x.pos / 80 + 1) * 80⟩
  else ⟨Function.update x.crt x.pos (cell c), x.pos + 1⟩

/-- All rows move up by one, the cursor with them, and the last one is blank. -/
def scroll (x : Screen) : Screen where
  crt i := if i < 23 * 80 then x.crt (i + 80) else if i < 24 * 80 then 0 else x.crt i
  pos := x.pos - 80

/-- Row 24 is not shown: the screen scrolls when the cursor gets there. -/
def settle (x : Screen) : Screen := if x.pos / 80 ≥ 24 then x.scroll else x

end Screen

/-- `y` is `x` after the byte `c`, except that the cell under the cursor may have been
cleared. -/
structure Shown (x : Screen) (c : UInt8) (y : Screen) : Prop where
  pos : y.pos = (x.store c).settle.pos
  crt : ∀ i, y.crt i = (x.store c).settle.crt i ∨ i = y.pos ∧ y.crt i = cell ' '.toUInt8

/-- Every byte of `buf` is shown, without a panic. -/
def ShownAll (s : Input) : Screen → List UInt8 → Prop
  | _, [] => True
  | x, c :: buf => ∃ y, x.run (s.putc (.char c)) = some y ∧ Shown x c y ∧ ShownAll s y buf

variable {s : Input} {x y : Screen} {c : UInt8}

theorem ShownAll.consolewrite {buf : List UInt8} (h : ShownAll s x buf) :
    ∃ y, consolewrite s x buf = some (y, buf.length) := by
  have hrun : ∃ y, x.runAll (buf.map fun c => s.putc (.char c)) = some y := by
    induction buf generalizing x with
    | nil => exact ⟨x, rfl⟩
    | cons c buf ih =>
        obtain ⟨y, hy, -, hrest⟩ := h
        obtain ⟨z, hz⟩ := ih hrest
        refine ⟨z, ?_⟩
        rw [List.map_cons, runAll_cons, hy, Option.bind_some, hz]
  obtain ⟨y, hy⟩ := hrun
  exact ⟨y, by rw [Console.consolewrite, hy]; rfl⟩

/-! ### Other bytes -/

theorem place_eq_settle (hpos : x.pos ≤ 24 * 80) : place x.crt x.pos = some x.settle := by
  rw [place, if_neg (by omega), Screen.settle]
  by_cases hlast : x.pos / 80 ≥ 24
  · have hat : x.pos = 24 * 80 := by omega
    have hpos' : ((x.pos : Int) - 80).toNat = x.pos - 80 := by omega
    rw [if_pos hlast, if_pos (by omega)]
    dsimp only
    rw [hpos', Screen.scroll, hat]
    congr 2
    funext i
    split_ifs <;> first | rfl | omega
  · rw [if_neg hlast, if_neg (by omega)]
    rfl

theorem store_pos_le (hpos : x.pos < 24 * 80) (c : UInt8) : (x.store c).pos ≤ 24 * 80 := by
  unfold Screen.store
  split_ifs
  · dsimp only
    omega
  · exact hpos

theorem settle_pos_lt (hpos : x.pos ≤ 24 * 80) : x.settle.pos < 24 * 80 := by
  unfold Screen.settle
  split_ifs
  · dsimp only [Screen.scroll]
    omega
  · omega

theorem Shown.pos_lt (h : Shown x c y) (hpos : x.pos < 24 * 80) : y.pos < 24 * 80 := by
  rw [h.pos]
  exact settle_pos_lt (store_pos_le hpos c)

/-- The cell under the cursor is cleared if nothing is pending behind it. -/
def Screen.clear (x : Screen) (e end_ : UInt32) : Screen :=
  if e = end_ then { x with crt := Function.update x.crt x.pos (cell ' '.toUInt8) } else x

theorem some_clear (x : Screen) (e end_ : UInt32) : some (x.clear e end_) =
    if e = end_ then some { x with crt := Function.update x.crt x.pos (cell ' '.toUInt8) }
    else some x := by
  rw [Screen.clear]
  split_ifs <;> rfl

/-- A byte that is no brace is stored, and the position is checked. -/
theorem run_eq_place (hleft : c ≠ CURLY_LEFT) (hright : c ≠ CURLY_RIGHT) :
    x.run (s.putc (.char c)) =
      (place (x.store c).crt (x.store c).pos).map fun y => y.clear s.e s.end_ := by
  simp only [Screen.run, Input.putc, cgaputc, hleft, hright, if_false, ne_eq, Glyph.char.injEq,
    not_false_eq_true, true_and, ← some_clear]
  by_cases hnew : c = NEWLINE
  · have hpos : ((x.store c).pos : Int) = x.pos + (80 - x.pos % 80) := by
      rw [Screen.store, if_pos hnew]
      dsimp only
      omega
    rw [hpos, Screen.store, if_pos hnew, if_pos hnew]
    exact (Option.map_eq_bind ..).symm
  · rw [Screen.store, if_neg hnew, if_neg hnew]
    exact (Option.map_eq_bind ..).symm

/-- A byte that is no brace is shown. -/
theorem shown_of_ne (hleft : c ≠ CURLY_LEFT) (hright : c ≠ CURLY_RIGHT) (hpos : x.pos < 24 * 80) :
    ∃ y, x.run (s.putc (.char c)) = some y ∧ Shown x c y := by
  refine ⟨(x.store c).settle.clear s.e s.end_, ?_, ?_⟩
  · rw [run_eq_place hleft hright, place_eq_settle (store_pos_le hpos c)]
    rfl
  · rw [Screen.clear]
    split_ifs
    · refine ⟨rfl, fun i => ?_⟩
      by_cases hat : i = (x.store c).settle.pos
      · subst hat
        exact .inr ⟨rfl, Function.update_self ..⟩
      · exact .inl (Function.update_of_ne hat _ _)
    · exact ⟨rfl, fun i => .inl rfl⟩

/-! ### Braces -/

/-- The screen shows no brace. -/
def NoBrace (x : Screen) : Prop :=
  ∀ i, (x.crt i).toUInt8 ≠ CURLY_LEFT ∧ (x.crt i).toUInt8 ≠ CURLY_RIGHT

theorem NoBrace.place {crt : Nat → UInt16} {pos : Int}
    (hcrt : ∀ i, (crt i).toUInt8 ≠ CURLY_LEFT ∧ (crt i).toUInt8 ≠ CURLY_RIGHT)
    (h : place crt pos = some y) : NoBrace y := by
  unfold Console.place at h
  split_ifs at h
  · obtain rfl := Option.some.inj h
    intro i
    dsimp only
    split_ifs
    · decide
    · exact hcrt _
    · exact hcrt _
  · obtain rfl := Option.some.inj h
    exact hcrt

theorem NoBrace.clear (hx : NoBrace x) (e end_ : UInt32) : NoBrace (x.clear e end_) := by
  rw [Screen.clear]
  split_ifs
  · intro i
    dsimp only
    by_cases hat : i = x.pos
    · subst hat
      rw [Function.update_self, toUInt8_cell]
      decide
    · rw [Function.update_of_ne hat]
      exact hx i
  · exact hx

theorem NoBrace.store (hx : NoBrace x) (hleft : c ≠ CURLY_LEFT) (hright : c ≠ CURLY_RIGHT) :
    NoBrace (x.store c) := by
  rw [Screen.store]
  split_ifs
  · exact hx
  · intro i
    dsimp only
    by_cases hat : i = x.pos
    · subst hat
      rw [Function.update_self, toUInt8_cell]
      exact ⟨hleft, hright⟩
    · rw [Function.update_of_ne hat]
      exact hx i

/-- `{` goes back by what is pending before the edit index. -/
theorem run_left (s : Input) (x : Screen) :
    x.run (s.putc (.char CURLY_LEFT)) = place x.crt (x.pos - signed (s.e - s.w)) := by
  have hnew : CURLY_LEFT ≠ NEWLINE := by decide
  simp [Screen.run, Input.putc, cgaputc, hnew]

/-- `}` goes forward by what is pending behind it. -/
theorem run_right (s : Input) (x : Screen) :
    x.run (s.putc (.char CURLY_RIGHT)) =
      (place x.crt (x.pos + signed (s.end_ - s.e))).map fun y => y.clear s.e s.end_ := by
  have hnew : CURLY_RIGHT ≠ NEWLINE := by decide
  have hleft : CURLY_RIGHT ≠ CURLY_LEFT := by decide
  simp only [Screen.run, Input.putc, cgaputc, hnew, hleft, if_true, if_false, ne_eq,
    Glyph.char.injEq, not_false_eq_true, true_and, ← some_clear]
  exact (Option.map_eq_bind ..).symm

/-- No byte, brace or not, puts a brace on the screen. -/
theorem NoBrace.run (hx : NoBrace x) (h : x.run (s.putc (.char c)) = some y) : NoBrace y := by
  by_cases hleft : c = CURLY_LEFT
  · rw [hleft, run_left] at h
    exact NoBrace.place hx h
  by_cases hright : c = CURLY_RIGHT
  · rw [hright, run_right] at h
    obtain ⟨z, hz, rfl⟩ := Option.map_eq_some_iff.mp h
    exact (NoBrace.place hx hz).clear s.e s.end_
  rw [run_eq_place hleft hright] at h
  obtain ⟨z, hz, rfl⟩ := Option.map_eq_some_iff.mp h
  exact (NoBrace.place (hx.store hleft hright) hz).clear s.e s.end_

/-- A brace is not shown: it would have to stand where the cursor was. -/
theorem NoBrace.not_shown (hy : NoBrace y) (hpos : x.pos < 24 * 80)
    (hc : c = CURLY_LEFT ∨ c = CURLY_RIGHT) : ¬ Shown x c y := by
  intro h
  have hnew : c ≠ NEWLINE := by
    rcases hc with rfl | rfl <;> decide
  -- the cell that was under the cursor, one row up if the screen has scrolled
  obtain ⟨i, hi, hcell⟩ : ∃ i, i ≠ (x.store c).settle.pos ∧ (x.store c).settle.crt i = cell c := by
    have hstore : (x.store c).crt x.pos = cell c := by
      rw [Screen.store, if_neg hnew]
      exact Function.update_self ..
    have hstorePos : (x.store c).pos = x.pos + 1 := by
      rw [Screen.store, if_neg hnew]
    rw [Screen.settle]
    split_ifs with hlast
    · refine ⟨x.pos - 80, ?_, ?_⟩
      · dsimp only [Screen.scroll]
        omega
      · dsimp only [Screen.scroll]
        rw [if_pos (by omega), Nat.sub_add_cancel (by omega), hstore]
    · exact ⟨x.pos, by omega, hstore⟩
  rcases h.crt i with heq | ⟨hat, -⟩
  · have hbyte : (y.crt i).toUInt8 = c := by rw [heq, hcell, toUInt8_cell]
    rcases hc with rfl | rfl
    · exact (hy i).1 hbyte
    · exact (hy i).2 hbyte
  · exact hi (hat.trans h.pos)

/-! ### Whole strings -/

/-- Bytes other than braces are all shown. -/
theorem shownAll_of_ne {buf : List UInt8} (hleft : CURLY_LEFT ∉ buf) (hright : CURLY_RIGHT ∉ buf)
    (hpos : x.pos < 24 * 80) : ShownAll s x buf := by
  induction buf generalizing x with
  | nil => trivial
  | cons c buf ih =>
      rw [List.mem_cons, not_or] at hleft hright
      obtain ⟨y, hy, hshown⟩ := shown_of_ne (s := s) (Ne.symm hleft.1) (Ne.symm hright.1) hpos
      exact ⟨y, hy, hshown, ih hleft.2 hright.2 (hshown.pos_lt hpos)⟩

/-- On a screen without braces nothing but such bytes is. -/
theorem NoBrace.not_mem (hx : NoBrace x) (hpos : x.pos < 24 * 80) {buf : List UInt8}
    (h : ShownAll s x buf) : CURLY_LEFT ∉ buf ∧ CURLY_RIGHT ∉ buf := by
  induction buf generalizing x with
  | nil => simp
  | cons c buf ih =>
      obtain ⟨y, hy, hshown, hrest⟩ := h
      have hyBrace := hx.run hy
      have hc : ¬ (c = CURLY_LEFT ∨ c = CURLY_RIGHT) := fun hc =>
        hyBrace.not_shown hpos hc hshown
      rw [not_or] at hc
      obtain ⟨hleft, hright⟩ := ih hyBrace (hshown.pos_lt hpos) hrest
      exact ⟨List.not_mem_cons_of_ne_of_not_mem (Ne.symm hc.1) hleft,
        List.not_mem_cons_of_ne_of_not_mem (Ne.symm hc.2) hright⟩

/-- **Output.** Whatever is pending in the buffer and wherever the cursor stands, a string
is shown on every screen, and `consolewrite` returns its length, iff there is no brace in
it. -/
theorem output_shown_iff (s : Input) {pos : Nat} (hpos : pos < 24 * 80) (buf : List UInt8) :
    (∀ crt, ShownAll s ⟨crt, pos⟩ buf ∧
        ∃ y, consolewrite s ⟨crt, pos⟩ buf = some (y, buf.length)) ↔
      CURLY_LEFT ∉ buf ∧ CURLY_RIGHT ∉ buf := by
  constructor
  · intro h
    have hcell : (0 : UInt16).toUInt8 ≠ CURLY_LEFT ∧ (0 : UInt16).toUInt8 ≠ CURLY_RIGHT := by decide
    have hzero : NoBrace ⟨fun _ => 0, pos⟩ := fun _ => hcell
    exact hzero.not_mem hpos (h fun _ => 0).1
  · intro h crt
    have hshown : ShownAll s ⟨crt, pos⟩ buf := shownAll_of_ne h.1 h.2 hpos
    exact ⟨hshown, hshown.consolewrite⟩

/-- One character has been typed. -/
def pending : Input := { Input.zero with e := 1, end_ := 1 }

/-- A line of output, and the start of the next one. -/
theorem output_shown_iff_line : ShownAll pending ⟨fun _ => 0, 79⟩ [65, 10, 66] ∧
    ∃ y, consolewrite pending ⟨fun _ => 0, 79⟩ [65, 10, 66] = some (y, 3) :=
  (output_shown_iff pending (by decide) [65, 10, 66]).mpr (by decide) fun _ => 0

/-- The panic is reached by one byte. -/
theorem brace_panics : ¬ ∀ (s : Input) (x : Screen) (buf : List UInt8), s.r ≤ s.w → s.w ≤ s.e →
    s.e ≤ s.end_ → x.pos < 24 * 80 → ShownAll s x buf := by
  intro h
  obtain ⟨y, hy, -⟩ := h pending ⟨fun _ => 0, 0⟩ [CURLY_LEFT] (by decide) (by decide) (by decide)
    (by decide)
  rw [run_left, place, if_pos (by decide)] at hy
  cases hy

end OsCourse.Console
