import OsCourse.Console.Bounds
import OsCourse.Console.Screen

/-!
# OsCourse.Console.Display

When the screen agrees with the line being edited.

Let `S` be the cursor position at the start of the line. The invariant `Drawn`
says that the cells from `S` on show the line, that the cursor is `e - w` cells
further, and that every cell after the line is blank. All keys keep it but one:
`handleBackspaceInMid` prints, after the new line, the cell of the buffer after
the old one, which holds what was typed and deleted there before. The screen
agrees with the line throughout exactly if no such backspace finds anything but
a space or NUL (`display_agrees_iff`).

As long as the cursor stays above the last row, `place` only moves it; the
lemmas about the calls of a key are all within that bound.
-/

namespace OsCourse.Console

open OsCourse.Lib

/-- A cell that shows a space or NUL. -/
def Blank (x : UInt16) : Prop := x.toUInt8 = 0 ∨ x.toUInt8 = ' '.toUInt8

theorem toUInt8_cell (c : UInt8) : (cell c).toUInt8 = c := by
  rw [cell, UInt16.toUInt8_or, UInt8.toUInt8_toUInt16]
  exact UInt8.or_zero

theorem blank_cell_iff {c : UInt8} : Blank (cell c) ↔ c = 0 ∨ c = ' '.toUInt8 := by
  rw [Blank, toUInt8_cell]

/-- Where a space is put on the screen, the cell is blank; the others are what they were. -/
theorem blank_update_space {crt : Nat → UInt16} {p i : Nat} (h : i ≠ p → Blank (crt i)) :
    Blank (Function.update crt p (cell ' '.toUInt8) i) := by
  by_cases hat : i = p
  · subst hat
    rw [Function.update_self, blank_cell_iff]
    exact .inr rfl
  · rw [Function.update_of_ne hat]
    exact h hat

/-! ### Calls that stay above the last row -/

section Calls

variable {x : Screen} {w e end_ : UInt32}

theorem place_of_lt (crt : Nat → UInt16) {p : Nat} (h : p < 24 * 80) :
    place crt p = some ⟨crt, p⟩ := by
  rw [place, if_neg (by omega), if_neg (by omega)]
  rfl

theorem changePos_of_lt {change : Int} {p : Nat} (hp : (x.pos : Int) + change = p)
    (h : p < 24 * 80) : changePos x change = some ⟨x.crt, p⟩ := by
  rw [changePos, hp, place_of_lt _ h]

theorem runAll_append (x : Screen) (ops ops' : List ScreenOp) :
    x.runAll (ops ++ ops') = (x.runAll ops).bind fun y => y.runAll ops' := by
  rw [Screen.runAll, List.foldlM_append]
  rfl

theorem runAll_cons (x : Screen) (op : ScreenOp) (ops : List ScreenOp) :
    x.runAll (op :: ops) = (x.run op).bind fun y => y.runAll ops := by
  rw [Screen.runAll, List.foldlM_cons]
  rfl

@[simp] theorem runAll_nil (x : Screen) : x.runAll [] = some x := rfl

/-- A backspace moves the cursor one cell back; it blanks the cell there if the
edit index is at the end. -/
theorem run_backspace {p : Nat} (hp : x.pos = p + 1) (h : p < 24 * 80) :
    x.run (.cgaputc .backspace w e end_) =
      some ⟨if e = end_ then Function.update x.crt p (cell ' '.toUInt8) else x.crt, p⟩ := by
  have hpos : (if x.pos > 0 then (x.pos : Int) - 1 else (x.pos : Int)) = (p : Nat) := by
    rw [if_pos (by omega)]
    omega
  simp only [Screen.run, cgaputc]
  rw [hpos, place_of_lt _ h, Option.bind_eq_bind, Option.bind_some]
  by_cases he : e = end_
  · rw [if_pos ⟨by simp, he⟩, if_pos he]
  · rw [if_neg (fun hc => he hc.2), if_neg he]

/-- A plain character is put under the cursor. -/
theorem run_char {c : UInt8} (hc : Plain c) (h : x.pos + 1 < 24 * 80) :
    x.run (.cgaputc (.char c) w e end_) =
      some ⟨if e = end_ then
          Function.update (Function.update x.crt x.pos (cell c)) (x.pos + 1) (cell ' '.toUInt8)
        else Function.update x.crt x.pos (cell c), x.pos + 1⟩ := by
  simp only [Screen.run, cgaputc, hc.1, hc.2.1, hc.2.2, if_false]
  have hplace : place (Function.update x.crt x.pos (cell c)) ((x.pos : Int) + 1) =
      some ⟨Function.update x.crt x.pos (cell c), x.pos + 1⟩ := by
    exact_mod_cast place_of_lt _ h
  rw [hplace, Option.bind_eq_bind, Option.bind_some]
  by_cases he : e = end_
  · rw [if_pos ⟨by simpa using hc.2.1, he⟩, if_pos he]
  · rw [if_neg (fun hc => he hc.2), if_neg he]

/-- Backspaces in the middle of the line only move the cursor. -/
theorem runAll_backspaces (hne : e ≠ end_) (k : Nat) {p : Nat} (hp : x.pos = p + k)
    (h : x.pos < 24 * 80) :
    x.runAll (List.replicate k (.cgaputc .backspace w e end_)) = some ⟨x.crt, p⟩ := by
  induction k generalizing x with
  | zero => rw [List.replicate_zero, runAll_nil, ← Nat.add_zero p, ← hp]
  | succ k ih =>
      rw [List.replicate_succ, runAll_cons, run_backspace (p := p + k) (by omega) (by omega),
        if_neg hne, Option.bind_some]
      exact ih rfl (by dsimp only; omega)

/-- Printing a text in the middle of the line. -/
theorem runAll_text (hne : e ≠ end_) {text : List UInt8} (hplain : ∀ c ∈ text, Plain c)
    (h : x.pos + text.length < 24 * 80) :
    ∃ y, x.runAll (text.map fun c => .cgaputc (.char c) w e end_) = some y ∧
      y.pos = x.pos + text.length ∧
      (∀ j c, text[j]? = some c → y.crt (x.pos + j) = cell c) ∧
      ∀ i, i < x.pos ∨ x.pos + text.length ≤ i → y.crt i = x.crt i := by
  induction text generalizing x with
  | nil => exact ⟨x, rfl, rfl, by simp, fun i _ => rfl⟩
  | cons c text ih =>
      rw [List.length_cons] at h ⊢
      obtain ⟨y, hy, hpos, htext, hrest⟩ :=
        ih (x := ⟨Function.update x.crt x.pos (cell c), x.pos + 1⟩)
          (fun d hd => hplain d (List.mem_cons_of_mem c hd)) (by dsimp only; omega)
      dsimp only at hpos htext hrest
      refine ⟨y, ?_, by omega, fun j d hj => ?_, fun i hi => ?_⟩
      · rw [List.map_cons, runAll_cons, run_char (hplain c List.mem_cons_self) (by omega),
          if_neg hne, Option.bind_some]
        exact hy
      · cases j with
        | zero =>
            obtain rfl : c = d := by simpa using hj
            rw [Nat.add_zero, hrest _ (.inl (Nat.lt_succ_self _)), Function.update_self]
        | succ j =>
            rw [show x.pos + (j + 1) = x.pos + 1 + j by omega]
            exact htext j d (by simpa using hj)
      · rw [hrest i (by omega), Function.update_of_ne (by omega)]

/-- The backspaces of `killLine` blank the line. -/
theorem runAll_killOps (k : Nat) {S : Nat} (hp : x.pos = S + k) (h : x.pos < 24 * 80) :
    ∃ y, x.runAll (killOps w k) = some y ∧ y.pos = S ∧
      ∀ i, S ≤ i → (S + k ≤ i → Blank (x.crt i)) → Blank (y.crt i) := by
  induction k generalizing x with
  | zero => exact ⟨x, rfl, hp, fun i hi hb => hb hi⟩
  | succ k ih =>
      obtain ⟨y, hy, hpos, hblank⟩ :=
        ih (x := ⟨Function.update x.crt (S + k) (cell ' '.toUInt8), S + k⟩) rfl
          (by dsimp only; omega)
      dsimp only at hblank
      refine ⟨y, ?_, hpos, fun i hi hb => hblank i hi fun hk => ?_⟩
      · rw [killOps, runAll_cons, run_backspace (p := S + k) (by omega) (by omega), if_pos rfl,
          Option.bind_some]
        exact hy
      · exact blank_update_space fun hik => hb (by omega)

end Calls

/-! ### The line on the screen -/

/-- The line that starts at cell `S` does not reach the last row, and the
indices are at most 126. -/
def Input.Short (s : Input) (S : Nat) : Prop :=
  s.end_.toNat ≤ 126 ∧ S + (s.end_.toNat - s.w.toNat) < 24 * 80

/-- The screen shows the line from cell `S` on, and nothing after it. -/
structure Drawn (S : Nat) (d : Display) : Prop where
  inv : d.input.Inv
  short : d.input.Short S
  pos : d.screen.pos = S + (d.input.e.toNat - d.input.w.toNat)
  line : ∀ i c, d.input.line[i]? = some c → d.screen.crt (S + i) = cell c
  blank : ∀ i, S + (d.input.end_.toNat - d.input.w.toNat) ≤ i → Blank (d.screen.crt i)

/-- Printing the line anew, in the middle of it: the text is shown from the
start of the line on, the other cells are left alone. -/
theorem runAll_reprint {s : Input} {x : Screen} {S p : Nat} (text : List UInt8) (change : Int)
    (hok : s.Ok) (hlt : s.e < s.end_) (hpos : x.pos = S + (s.e.toNat - s.w.toNat))
    (hS : S + (s.end_.toNat - s.w.toNat) < 24 * 80) (hplain : ∀ c ∈ text, Plain c)
    (hlen : S + text.length < 24 * 80) (hp : (S : Int) + text.length + change = p)
    (hplt : p < 24 * 80) :
    ∃ y, x.runAll (reprint s text change) = some y ∧ y.pos = p ∧
      (∀ j c, text[j]? = some c → y.crt (S + j) = cell c) ∧
      ∀ i, S + text.length ≤ i → y.crt i = x.crt i := by
  have hw := hok.w_le
  have hlt' : s.e.toNat < s.end_.toNat := UInt32.lt_iff_toNat_lt.mp hlt
  have hne : s.e ≠ s.end_ := by
    intro heq
    rw [heq] at hlt'
    omega
  obtain ⟨y, hy, hypos, htext, hrest⟩ :=
    runAll_text (x := ⟨x.crt, S⟩) (w := s.w) hne hplain hlen
  dsimp only at hypos htext hrest
  refine ⟨⟨y.crt, p⟩, ?_, rfl, htext, fun i hi => hrest i (.inr hi)⟩
  have hend : x.run (.changePos ((s.end_.toNat : Int) - s.e.toNat)) =
      some ⟨x.crt, S + (s.end_.toNat - s.w.toNat)⟩ :=
    changePos_of_lt (by omega) hS
  have hback : Screen.runAll ⟨x.crt, S + (s.end_.toNat - s.w.toNat)⟩
      (List.replicate (s.end_.toNat - s.w.toNat) (s.putc .backspace)) = some ⟨x.crt, S⟩ :=
    runAll_backspaces hne _ rfl hS
  have hlast : y.runAll [.changePos change] = some ⟨y.crt, p⟩ := by
    rw [runAll_cons, Screen.run, changePos_of_lt (by omega) hplt]
    rfl
  rw [reprint, runAll_cons, hend, Option.bind_some, runAll_append, hback, Option.bind_some,
    runAll_append]
  simp only [Input.putc]
  rw [hy, Option.bind_some, hlast]

theorem plain_of_mem_line {s : Input} (hclean : s.Clean) {c : UInt8} (hc : c ∈ s.line) :
    Plain c := by
  obtain ⟨k, hk, -, hget⟩ := CBuf.mem_slice hc
  exact hclean k c hk hget

theorem Input.Ok.length_line {s : Input} (hok : s.Ok) :
    s.line.length = s.end_.toNat - s.w.toNat := by
  have hend := hok.end_le
  rw [Input.line, CBuf.length_slice _ (by simp only [INPUT_BUF]; omega)]

/-- The line may be read off the buffer, cell by cell. -/
theorem getElem?_line {s : Input} {i : Nat} {c : UInt8} :
    s.line[i]? = some c ↔ s.w.toNat + i < s.end_.toNat ∧ s.buf[s.w.toNat + i]? = some c := by
  rw [Input.line, CBuf.getElem?_slice]
  by_cases h : s.w.toNat + i < s.end_.toNat
  · rw [if_pos h]
    exact ⟨fun hc => ⟨h, hc⟩, fun hc => hc.2⟩
  · rw [if_neg h]
    simp [h]

namespace Drawn

variable {S : Nat} {d : Display}

/-- Text printed over the line, followed by blank cells. -/
theorem of_reprint {s' : Input} {y : Screen} {text : List UInt8} (rest : List UInt8) (hinv : s'.Inv)
    (hshort : s'.Short S) (hpos : y.pos = S + (s'.e.toNat - s'.w.toNat))
    (htext : text = s'.line ++ rest) (hrest : ∀ c ∈ rest, c = 0 ∨ c = ' '.toUInt8)
    (hcells : ∀ j c, text[j]? = some c → y.crt (S + j) = cell c)
    (hblank : ∀ i, S + text.length ≤ i → Blank (y.crt i)) : Drawn S ⟨s', y⟩ := by
  have hlen := hinv.ok.length_line
  refine ⟨hinv, hshort, hpos, fun i c hi => ?_, fun i hi => ?_⟩
  · refine hcells i c ?_
    rw [htext]
    exact List.getElem?_append_left (List.getElem?_eq_some_iff.mp hi).1 |>.trans hi
  · dsimp only at hi
    by_cases hout : S + text.length ≤ i
    · exact hblank i hout
    · rw [htext, List.length_append] at hout
      have hget : ∃ c, rest[i - S - s'.line.length]? = some c :=
        ⟨_, List.getElem?_eq_getElem (by omega)⟩
      obtain ⟨c, hc⟩ := hget
      have hcell := hcells (i - S) c (by
        rw [htext, List.getElem?_append_right (by omega)]
        exact hc)
      rw [show S + (i - S) = i by omega] at hcell
      rw [hcell, blank_cell_iff]
      exact hrest c (List.mem_of_getElem? hc)

/-! ### The keys, one way at a time -/

theorem kill (h : Drawn S d) {s' : Input} (hs' : s' = { d.input with e := d.input.w, end_ := d.input.w })
    (hinv : s'.Inv) (hshort : s'.Short S) :
    ∃ y, d.screen.runAll
        (.changePos ((d.input.end_.toNat : Int) - d.input.e.toNat) ::
          killOps d.input.w (d.input.end_.toNat - d.input.w.toNat)) = some y ∧
      Drawn S ⟨s', y⟩ := by
  have hw := h.inv.ok.w_le
  have he := h.inv.ok.e_le
  have hpos := h.pos
  have hS := h.short.2
  have hend : d.screen.run (.changePos ((d.input.end_.toNat : Int) - d.input.e.toNat)) =
      some ⟨d.screen.crt, S + (d.input.end_.toNat - d.input.w.toNat)⟩ :=
    changePos_of_lt (by omega) hS
  obtain ⟨y, hy, hypos, hblank⟩ := runAll_killOps (w := d.input.w)
    (x := ⟨d.screen.crt, S + (d.input.end_.toNat - d.input.w.toNat)⟩)
    (d.input.end_.toNat - d.input.w.toNat) rfl hS
  refine ⟨y, by rw [runAll_cons, hend, Option.bind_some, hy], hinv, hshort, ?_, ?_, ?_⟩
  · subst hs'
    dsimp only
    omega
  · intro i c hi
    have hlt := (getElem?_line.mp hi).1
    subst hs'
    dsimp only at hlt
    omega
  · intro i hi
    subst hs'
    dsimp only at hi
    exact hblank i (by omega) (h.blank i)

theorem writeAtEnd (h : Drawn S d) {s' : Input} {c : UInt8} (hc : Plain c)
    (hge : ¬ d.input.e < d.input.end_) (hi : d.input.Inserted s' c) (hinv : s'.Inv)
    (hshort : s'.Short S) :
    ∃ y, d.screen.runAll [s'.putc (.char c)] = some y ∧ Drawn S ⟨s', y⟩ := by
  have hw := h.inv.ok.w_le
  have he := h.inv.ok.e_le
  have hge' : ¬ d.input.e.toNat < d.input.end_.toNat :=
    fun hlt => hge (UInt32.lt_iff_toNat_lt.mpr hlt)
  have hpos := h.pos
  have hS := hshort.2
  have hsw : s'.w.toNat = d.input.w.toNat := by rw [hi.w]
  have hse := hi.e
  have hsend := hi.end_
  have heq : s'.e = s'.end_ := UInt32.toNat_inj.mp (by omega)
  refine ⟨_, by rw [runAll_cons, Input.putc, run_char hc (by omega), if_pos heq]; rfl,
    hinv, hshort, ?_, fun i x hx => ?_, fun i hx => ?_⟩
  · dsimp only
    omega
  · obtain ⟨hlt, hx⟩ := getElem?_line.mp hx
    dsimp only at hlt hx ⊢
    rw [Function.update_of_ne (by omega)]
    rw [hi.w, hi.buf] at hx
    by_cases hat : d.input.w.toNat + i = d.input.e.toNat
    · rw [if_pos hat] at hx
      rw [show S + i = d.screen.pos by omega, Function.update_self, Option.some.inj hx]
    · rw [if_neg hat, if_neg (by omega)] at hx
      rw [Function.update_of_ne (by omega)]
      exact h.line i x (getElem?_line.mpr ⟨by omega, hx⟩)
  · dsimp only at hx ⊢
    refine blank_update_space fun hat => ?_
    rw [Function.update_of_ne (by omega)]
    exact h.blank i (by omega)

theorem backspaceAtEnd (h : Drawn S d) {s' : Input} (hew : d.input.e ≠ d.input.w)
    (hge : ¬ d.input.e < d.input.end_)
    (hs' : s' = { d.input with e := d.input.e - 1, end_ := d.input.end_ - 1 })
    (hi : d.input.Erased s') (hinv : s'.Inv) (hshort : s'.Short S) :
    ∃ y, d.screen.runAll [s'.putc .backspace] = some y ∧ Drawn S ⟨s', y⟩ := by
  have hw := h.inv.ok.w_le
  have he := h.inv.ok.e_le
  have hne : d.input.e.toNat ≠ d.input.w.toNat := fun heq => hew (UInt32.toNat_inj.mp heq)
  have hge' : ¬ d.input.e.toNat < d.input.end_.toNat :=
    fun hlt => hge (UInt32.lt_iff_toNat_lt.mpr hlt)
  have hpos := h.pos
  have hS := h.short.2
  have hsw : s'.w.toNat = d.input.w.toNat := by rw [hi.w]
  have hse := hi.e
  have hsend := hi.end_
  have heq : s'.e = s'.end_ := UInt32.toNat_inj.mp (by omega)
  have hp : d.screen.pos = S + (s'.e.toNat - s'.w.toNat) + 1 := by omega
  refine ⟨_, by rw [runAll_cons, Input.putc, run_backspace hp (by omega), if_pos heq]; rfl,
    hinv, hshort, rfl, fun i x hx => ?_, fun i hx => ?_⟩
  · obtain ⟨hlt, hx⟩ := getElem?_line.mp hx
    dsimp only at hlt hx ⊢
    rw [Function.update_of_ne (by omega)]
    refine h.line i x (getElem?_line.mpr ⟨by omega, ?_⟩)
    rw [hs'] at hx
    exact hx
  · dsimp only at hx ⊢
    exact blank_update_space fun hat => h.blank i (by omega)

theorem home (h : Drawn S d) {s' : Input} (hs' : s' = { d.input with e := d.input.w })
    (hinv : s'.Inv) :
    ∃ y, d.screen.runAll [d.input.putc (.char CURLY_LEFT)] = some y ∧ Drawn S ⟨s', y⟩ := by
  have hw := h.inv.ok.w_le
  have he := h.inv.ok.e_le
  have hend := h.inv.ok.end_le
  have hpos := h.pos
  have hS := h.short.2
  have hrun : d.screen.run (d.input.putc (.char CURLY_LEFT)) = some ⟨d.screen.crt, S⟩ := by
    have hleft : (d.screen.pos : Int) - signed (d.input.e - d.input.w) = S := by
      rw [signed_sub hw (by omega)]
      omega
    simp only [Input.putc, Screen.run, cgaputc, show CURLY_LEFT ≠ NEWLINE by decide, if_false,
      if_true, hleft]
    rw [place_of_lt _ (by omega), Option.bind_eq_bind, Option.bind_some,
      if_neg (by simp)]
  refine ⟨_, by rw [runAll_cons, hrun]; rfl, ?_⟩
  subst hs'
  exact ⟨hinv, h.short, by dsimp only; omega, h.line, h.blank⟩

theorem toEnd (h : Drawn S d) {s' : Input} (hs' : s' = { d.input with e := d.input.end_ })
    (hinv : s'.Inv) :
    ∃ y, d.screen.runAll [d.input.putc (.char CURLY_RIGHT)] = some y ∧ Drawn S ⟨s', y⟩ := by
  have hw := h.inv.ok.w_le
  have he := h.inv.ok.e_le
  have hend := h.inv.ok.end_le
  have hpos := h.pos
  have hS := h.short.2
  have hright : (d.screen.pos : Int) + signed (d.input.end_ - d.input.e) =
      (S + (d.input.end_.toNat - d.input.w.toNat) : Nat) := by
    rw [signed_sub he (by omega)]
    omega
  have hrun : d.screen.run (d.input.putc (.char CURLY_RIGHT)) =
      some ⟨if d.input.e = d.input.end_ then
          Function.update d.screen.crt (S + (d.input.end_.toNat - d.input.w.toNat))
            (cell ' '.toUInt8)
        else d.screen.crt, S + (d.input.end_.toNat - d.input.w.toNat)⟩ := by
    simp only [Input.putc, Screen.run, cgaputc, show CURLY_RIGHT ≠ NEWLINE by decide,
      show CURLY_RIGHT ≠ CURLY_LEFT by decide, if_false, if_true, hright]
    rw [place_of_lt _ hS, Option.bind_eq_bind, Option.bind_some]
    by_cases heq : d.input.e = d.input.end_
    · rw [if_pos ⟨by decide, heq⟩, if_pos heq]
    · rw [if_neg (fun hc => heq hc.2), if_neg heq]
  refine ⟨_, by rw [runAll_cons, hrun]; rfl, ?_⟩
  subst hs'
  refine ⟨hinv, h.short, rfl, fun i x hx => ?_, fun i hx => ?_⟩
  · have hlt := (getElem?_line.mp hx).1
    dsimp only at hlt ⊢
    split_ifs
    · rw [Function.update_of_ne (by omega)]
      exact h.line i x hx
    · exact h.line i x hx
  · dsimp only at hx ⊢
    split_ifs
    · exact blank_update_space fun _ => h.blank i hx
    · exact h.blank i hx

theorem writeInMid (h : Drawn S d) {s' : Input} {c : UInt8} (hlt : d.input.e < d.input.end_)
    (hi : d.input.Inserted s' c) (hinv : s'.Inv) (hshort : s'.Short S) :
    ∃ y, d.screen.runAll
        (reprint d.input s'.line ((d.input.e.toNat : Int) - d.input.end_.toNat)) = some y ∧
      Drawn S ⟨s', y⟩ := by
  have hw := h.inv.ok.w_le
  have he := h.inv.ok.e_le
  have hS := hshort.2
  have hS₀ := h.short.2
  have hsw : s'.w.toNat = d.input.w.toNat := by rw [hi.w]
  have hse := hi.e
  have hsend := hi.end_
  have hlen := hinv.ok.length_line
  obtain ⟨y, hy, hypos, hcells, hrest⟩ := runAll_reprint s'.line
    ((d.input.e.toNat : Int) - d.input.end_.toNat)
    (p := S + (s'.e.toNat - s'.w.toNat)) h.inv.ok hlt h.pos hS₀
    (fun c hc => plain_of_mem_line hinv.clean hc) (by omega) (by omega) (by omega)
  refine ⟨y, hy, of_reprint [] hinv hshort hypos (List.append_nil _).symm
    (by simp) hcells fun i hi => ?_⟩
  rw [hrest i hi]
  exact h.blank i (by omega)

/-- Backspace in the middle: the cell after the new line shows `x`. -/
theorem backspaceInMid (h : Drawn S d) {s' : Input} {x : UInt8} (hew : d.input.e ≠ d.input.w)
    (hlt : d.input.e < d.input.end_) (hx : d.input.buf[d.input.end_.toNat]? = some x)
    (hi : d.input.Erased s') (hinv : s'.Inv) (hshort : s'.Short S) :
    ∃ y, d.screen.runAll
        (reprint d.input (s'.line ++ [x]) ((d.input.e.toNat : Int) - d.input.end_.toNat - 1)) =
          some y ∧
      (x = 0 ∨ x = ' '.toUInt8 → Drawn S ⟨s', y⟩) ∧
      y.crt (S + (s'.end_.toNat - s'.w.toNat)) = cell x := by
  have hw := h.inv.ok.w_le
  have he := h.inv.ok.e_le
  have hne : d.input.e.toNat ≠ d.input.w.toNat := fun heq => hew (UInt32.toNat_inj.mp heq)
  have hS := h.short.2
  have hsw : s'.w.toNat = d.input.w.toNat := by rw [hi.w]
  have hse := hi.e
  have hsend := hi.end_
  have hlen := hinv.ok.length_line
  have hlt' : d.input.e.toNat < d.input.end_.toNat := UInt32.lt_iff_toNat_lt.mp hlt
  have hplain : ∀ c ∈ s'.line ++ [x], Plain c := by
    intro c hc
    rcases List.mem_append.mp hc with hc | hc
    · exact plain_of_mem_line hinv.clean hc
    · obtain rfl := List.mem_singleton.mp hc
      exact h.inv.clean _ c (by omega) hx
  have htext : (s'.line ++ [x]).length = s'.end_.toNat - s'.w.toNat + 1 := by
    rw [List.length_append, hlen, List.length_singleton]
  obtain ⟨y, hy, hypos, hcells, hrest⟩ := runAll_reprint (s'.line ++ [x])
    ((d.input.e.toNat : Int) - d.input.end_.toNat - 1)
    (p := S + (s'.e.toNat - s'.w.toNat)) h.inv.ok hlt h.pos hS hplain (by omega) (by omega)
    (by omega)
  refine ⟨y, hy, fun hblank => ?_, ?_⟩
  · refine of_reprint [x] hinv hshort hypos rfl ?_ hcells fun i hi => ?_
    · intro c hc
      obtain rfl := List.mem_singleton.mp hc
      exact hblank
    · rw [hrest i hi]
      exact h.blank i (by omega)
  · rw [← hlen]
    exact hcells _ x (by simp)

end Drawn

/-! ### After every key -/

/-- What is typed while a line is edited: an ordinary character, backspace, a
curly bracket, ^U or ^C. -/
def Key.Edits : Key → Prop
  | .kill | .backspace | .home | .toEnd | .char _ false => True
  | _ => False

instance : DecidablePred Key.Edits := fun k => by
  unfold Key.Edits
  split <;> infer_instance

/-- The cursor is where `e` is in the line, the cells from `S` on show the line
and the cell after it is blank. -/
structure Agrees (S : Nat) (d : Display) : Prop where
  pos : d.screen.pos = S + (d.input.e - d.input.w).toNat
  line : ∀ i, i < (d.input.end_ - d.input.w).toNat →
    ∃ c, d.input.buf[d.input.w.toNat + i]? = some c ∧ d.screen.crt (S + i) = cell c
  after : Blank (d.screen.crt (S + (d.input.end_ - d.input.w).toNat))

/-- The key edits the line, and leaves it short. -/
def EditsShort (S : Nat) (d : Display) (c : UInt8) : Prop :=
  (keyOf c).Edits ∧ ∀ s' ops, consoleintr d.input c = some (s', ops) → s'.Short S

/-- Backspace is typed in the middle of the line, and the cell of the buffer
after the line holds neither a space nor NUL. -/
def BackspaceOverLeftover (d : Display) (c : UInt8) : Prop :=
  keyOf c = .backspace ∧ d.input.e ≠ d.input.w ∧ d.input.e < d.input.end_ ∧
    ∃ x, d.input.buf[d.input.end_.toNat]? = some x ∧ ¬ (x = 0 ∨ x = ' '.toUInt8)

/-- Typing, from the display `d`. -/
def typing (d : Display) : Machine Display UInt8 where
  init := d
  step := Display.key

section Typing

variable {S : Nat} {d d' : Display} {c : UInt8}

theorem Drawn.agrees (h : Drawn S d) : Agrees S d := by
  have hw := h.inv.ok.w_le
  have he := h.inv.ok.e_le
  have hend := h.inv.ok.end_le
  refine ⟨?_, fun i hi => ?_, ?_⟩
  · rw [toNat_sub hw]
    exact h.pos
  · rw [toNat_sub (by omega)] at hi
    obtain ⟨c, hc⟩ := CBuf.exists_getElem? d.input.buf
      (show d.input.w.toNat + i < INPUT_BUF by simp only [INPUT_BUF]; omega)
    exact ⟨c, hc, h.line i c (getElem?_line.mpr ⟨by omega, hc⟩)⟩
  · rw [toNat_sub (by omega)]
    exact h.blank _ (Nat.le_refl _)

/-- What a key does to a display that is drawn: the buffer has room for it. -/
theorem Drawn.consoleintr (h : Drawn S d) (hc : EditsShort S d c) :
    ∃ s' ops, consoleintr d.input c = some (s', ops) ∧ Outcome d.input (keyOf c) s' ops ∧
      s'.Inv ∧ s'.Short S := by
  obtain ⟨s', ops, heq, hout⟩ := consoleintr_spec h.inv.ok h.inv.clean (c := c) fun _ => h.short.1
  exact ⟨s', ops, heq, hout, ⟨hout.ok h.inv.ok fun _ => h.short.1, hout.clean h.inv.ok h.inv.clean⟩,
    hc.2 s' ops heq⟩

theorem Display.key_eq {s' : Input} {ops : List ScreenOp} {y : Screen}
    (hc : consoleintr d.input c = some (s', ops)) (hy : d.screen.runAll ops = some y) :
    d.key c = some ⟨s', y⟩ := by
  rw [Display.key, hc, Option.bind_eq_bind, Option.bind_some]
  dsimp only
  rw [hy, Option.bind_eq_bind, Option.bind_some]

/-- Any other key keeps the display drawn. -/
theorem Drawn.key (h : Drawn S d) (hc : EditsShort S d c) (hgood : ¬ BackspaceOverLeftover d c) :
    ∃ d', d.key c = some d' ∧ Drawn S d' := by
  obtain ⟨s', ops, heq, hout, hinv, hshort⟩ := h.consoleintr hc
  have hrun : ∃ y, d.screen.runAll ops = some y ∧ Drawn S ⟨s', y⟩ := by
    have hedits := hc.1
    cases hk : keyOf c with
    | ignored | newline =>
        rw [hk] at hedits
        exact hedits.elim
    | kill =>
        rw [hk] at hout
        cases hout with
        | kill => exact h.kill rfl hinv hshort
    | backspace =>
        rw [hk] at hout
        cases hout with
        | noBackspace _ => exact ⟨d.screen, rfl, h⟩
        | backspaceInMid hew hlt hx hs' =>
            obtain ⟨y, hy, hdrawn, -⟩ := h.backspaceInMid hew hlt hx hs' hinv hshort
            refine ⟨y, hy, hdrawn ?_⟩
            by_contra hleft
            exact hgood ⟨hk, hew, hlt, _, hx, hleft⟩
        | backspaceAtEnd hew hge hs' hi => exact h.backspaceAtEnd hew hge hs' hi hinv hshort
    | home =>
        rw [hk] at hout
        cases hout with
        | home => exact h.home rfl hinv
    | toEnd =>
        rw [hk] at hout
        cases hout with
        | toEnd => exact h.toEnd rfl hinv
    | char c' commit =>
        rw [hk] at hout hedits
        cases hout with
        | writeInMid _ hlt hi => exact h.writeInMid hlt hi hinv hshort
        | writeAtEnd hplain hge hi => exact h.writeAtEnd hplain hge hi hinv hshort
        | commit => exact hedits.elim
  obtain ⟨y, hy, hdrawn⟩ := hrun
  exact ⟨⟨s', y⟩, Display.key_eq heq hy, hdrawn⟩

/-- A backspace over a leftover shows it after the line. -/
theorem Drawn.not_agrees (h : Drawn S d) (hc : EditsShort S d c)
    (hbad : BackspaceOverLeftover d c) (hd' : d.key c = some d') : ¬ Agrees S d' := by
  obtain ⟨s', ops, heq, hout, hinv, hshort⟩ := h.consoleintr hc
  obtain ⟨hk, hew, hlt, x, hx, hleft⟩ := hbad
  rw [hk] at hout
  cases hout with
  | noBackspace hew' => exact absurd hew' hew
  | backspaceInMid _ _ hx' hs' =>
      obtain rfl := Option.some.inj (hx.symm.trans hx')
      obtain ⟨y, hy, -, hcell⟩ := h.backspaceInMid hew hlt hx hs' hinv hshort
      obtain rfl := Option.some.inj (hd'.symm.trans (Display.key_eq heq hy))
      intro hagrees
      have hafter := hagrees.after
      rw [toNat_sub (Nat.le_trans hinv.ok.w_le hinv.ok.e_le), hcell, blank_cell_iff] at hafter
      exact hleft hafter
  | backspaceAtEnd _ hge _ _ => exact absurd hlt hge

/-- An empty line on a screen that is blank from the cursor on is drawn. -/
theorem drawn_of_empty {s : Input} {x : Screen} (hinv : s.Inv) (hwe : s.w = s.e)
    (hee : s.e = s.end_) (hshort : s.Short x.pos) (hblank : ∀ i, x.pos ≤ i → Blank (x.crt i)) :
    Drawn x.pos ⟨s, x⟩ := by
  refine ⟨hinv, hshort, ?_, fun i c hi => ?_, fun i hi => hblank i (by omega)⟩
  · dsimp only
    rw [hwe, Nat.sub_self, Nat.add_zero]
  · have hlt := (getElem?_line.mp hi).1
    dsimp only at hlt
    rw [hwe, hee] at hlt
    omega

variable {ι : Type} [DecidableEq ι]

theorem reach_inv {s : State ι} (hs : (machine ι).Reach s) : s.input.Inv :=
  hs.induction inStep_init.inv fun _ _ _ h ht => inv_step h ht

/-- **The screen agrees with the line** after every key of a session of line
editing iff no backspace in the middle of the line meets a leftover. -/
theorem display_agrees_iff {s : State ι} (hs : (machine ι).Reach s)
    (hwe : s.input.w = s.input.e) (hee : s.input.e = s.input.end_) {x : Screen}
    (hshort : s.input.Short x.pos) (hblank : ∀ i, x.pos ≤ i → Blank (x.crt i)) {cs : List UInt8}
    (hcs : (typing ⟨s.input, x⟩).Meets (EditsShort x.pos) ⟨s.input, x⟩ cs) :
    (typing ⟨s.input, x⟩).Always (Agrees x.pos) ⟨s.input, x⟩ cs ↔
      (typing ⟨s.input, x⟩).Meets (fun d c => ¬ BackspaceOverLeftover d c) ⟨s.input, x⟩ cs := by
  refine (typing ⟨s.input, x⟩).always_iff_meets (I := Drawn x.pos) (fun _ h => h.agrees)
    (fun _ _ h hc hgood => h.key hc hgood) (fun _ _ _ h hc hbad hd' => ?_)
    (drawn_of_empty (reach_inv hs) hwe hee hshort hblank) hcs
  exact h.not_agrees hc (not_not.mp hbad) hd'

end Typing

/-! ### A leftover on the screen -/

instance (S : Nat) (s : Input) : Decidable (s.Short S) := by
  unfold Input.Short
  infer_instance

instance (S : Nat) (d : Display) (c : UInt8) : Decidable (EditsShort S d c) :=
  match h : consoleintr d.input c with
  | none => decidable_of_iff ((keyOf c).Edits) (by simp [EditsShort, h])
  | some (s', ops) => decidable_of_iff ((keyOf c).Edits ∧ s'.Short S) (by simp [EditsShort, h])

/-- The console at boot, with an empty screen. -/
def blankDisplay : Display := ⟨Input.zero, ⟨fun _ => 0, 0⟩⟩

/-- `b` is typed and deleted; `x` is inserted before the `a` and deleted. -/
def leftoverKeys : List UInt8 :=
  ['a'.toUInt8, 'b'.toUInt8, C 'H', CURLY_LEFT, 'x'.toUInt8, C 'H']

theorem leftoverKeys_editShort :
    (typing blankDisplay).Meets (EditsShort 0) blankDisplay leftoverKeys := by
  have hrun : ((typing blankDisplay).execWhile (EditsShort 0) blankDisplay leftoverKeys).isSome := by
    decide +kernel
  obtain ⟨u, hu⟩ := Option.isSome_iff_exists.mp hrun
  exact ((typing blankDisplay).meets_of_execWhile hu).1

theorem display_agrees_iff_leftoverKeys :
    (typing blankDisplay).Always (Agrees 0) blankDisplay leftoverKeys ↔
      (typing blankDisplay).Meets (fun d c => ¬ BackspaceOverLeftover d c) blankDisplay
        leftoverKeys :=
  display_agrees_iff (s := (machine Unit).init) (x := ⟨fun _ => 0, 0⟩)
    (machine Unit).reach_init rfl rfl (by decide) (fun _ _ => .inl rfl) leftoverKeys_editShort

/-- The line is `a`, and the deleted `b` stands after it on the screen. -/
theorem leftover_shown :
    (typing blankDisplay).Meets (EditsShort 0) blankDisplay leftoverKeys ∧
      ¬ (typing blankDisplay).Always (Agrees 0) blankDisplay leftoverKeys := by
  refine ⟨leftoverKeys_editShort, fun h => ?_⟩
  have hrun : ((typing blankDisplay).exec blankDisplay leftoverKeys).map
      (fun d => ((d.input.end_ - d.input.w).toNat, d.screen.crt 1)) =
        some (1, cell 'b'.toUInt8) := by
    decide +kernel
  obtain ⟨d, hd, hat⟩ := Option.map_eq_some_iff.mp hrun
  obtain ⟨hlen, hcell⟩ := Prod.mk.inj hat
  have hafter := (h.exec hd).after
  rw [hlen, Nat.zero_add, hcell, blank_cell_iff] at hafter
  revert hafter
  decide

end OsCourse.Console
