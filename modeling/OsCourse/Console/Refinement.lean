import OsCourse.Console.Keys

/-!
# OsCourse.Console.Refinement

The buffer refines the editor: in every run from boot in which `end` stays at
most 126, `input` shows exactly the line, the cursor and the queue of the
reference editor, and the readers have got what its readers get.

`Refines` reads the three texts of the editor off the buffer. Each way a key can
go (`Outcome`) is matched by what the key means to the editor, and each stretch
of `consoleread` by a read from its queue; the rest is
`Lib.Machine.exec_simulation`.
-/

namespace OsCourse.Console

open OsCourse.Lib

/-- The buffer holds the texts of the editor. -/
structure Refines (s : Input) (a : Editor) : Prop where
  queue : CBuf.slice s.buf s.r.toNat s.w.toNat = a.queue
  before : CBuf.slice s.buf s.w.toNat s.e.toNat = a.before
  after : CBuf.slice s.buf s.e.toNat s.end_.toNat = a.after

namespace Refines

variable {s s' : Input} {a : Editor} {c : UInt8}

theorem line (h : Refines s a) (hok : s.Ok) : s.line = a.line := by
  have hend := hok.end_le
  rw [Input.line, Editor.line, ← h.before, ← h.after]
  exact (CBuf.slice_append _ hok.w_le hok.e_le (by simp only [INPUT_BUF]; omega)).symm

theorem cursor (h : Refines s a) (hok : s.Ok) : s.e.toNat - s.w.toNat = a.cursor := by
  have he := hok.e_le
  have hend := hok.end_le
  rw [Editor.cursor, ← h.before, CBuf.length_slice _ (by simp only [INPUT_BUF]; omega)]

/-- An insertion puts the character between the text before and after the cursor. -/
theorem inserted (h : Refines s a) (hok : s.Ok) (hi : s.Inserted s' c) :
    Refines s' { a with before := a.before ++ [c] } := by
  have hr := hok.r_le
  have hw := hok.w_le
  have hat : s'.buf[s.e.toNat]? = some c := by
    rw [hi.buf, if_pos rfl]
  have hbelow : ∀ j, j < s.e.toNat → s'.buf[j]? = s.buf[j]? := fun j hj => by
    rw [hi.buf, if_neg (by omega), if_neg (by omega)]
  refine ⟨?_, ?_, ?_⟩
  · rw [hi.r, hi.w, ← h.queue]
    exact CBuf.slice_eq rfl fun k hk => hbelow _ (by omega)
  · rw [hi.w, hi.e, CBuf.slice_concat hw hat, ← h.before]
    congr 1
    exact CBuf.slice_eq rfl fun k hk => hbelow _ hk
  · rw [hi.e, hi.end_, ← h.after]
    refine CBuf.slice_eq (by omega) fun k hk => ?_
    rw [hi.buf, if_neg (by omega), if_pos (by omega),
      show s.e.toNat + 1 + k - 1 = s.e.toNat + k by omega]

/-- An erasure takes away the character before the cursor. -/
theorem erased (h : Refines s a) (hok : s.Ok) (hew : s.e ≠ s.w) (hi : s.Erased s') :
    Refines s' { a with before := a.before.dropLast } := by
  have hr := hok.r_le
  have hw := hok.w_le
  have he := hok.e_le
  have hend := hok.end_le
  have hne : s.e.toNat ≠ s.w.toNat := fun heq => hew (UInt32.toNat_inj.mp heq)
  have he' := hi.e
  have hend' := hi.end_
  have hbelow : ∀ j, j < s'.e.toNat → s'.buf[j]? = s.buf[j]? := fun j hj => by
    rw [hi.buf j (by omega), if_neg (by omega)]
  refine ⟨?_, ?_, ?_⟩
  · rw [hi.r, hi.w, ← h.queue]
    exact CBuf.slice_eq rfl fun k hk => hbelow _ (by omega)
  · obtain ⟨x, hx⟩ := CBuf.exists_getElem? s.buf
      (show s'.e.toNat < INPUT_BUF by simp only [INPUT_BUF]; omega)
    have hbefore := h.before
    rw [← he', CBuf.slice_concat (by omega) hx] at hbefore
    dsimp only
    rw [hi.w, ← hbefore, List.dropLast_concat]
    exact CBuf.slice_eq rfl fun k hk => hbelow _ hk
  · rw [← h.after]
    refine CBuf.slice_eq (by omega) fun k hk => ?_
    rw [hi.buf _ hk, if_pos (by omega),
      show s'.e.toNat + k + 1 = s.e.toNat + k by omega]

/-- Committing moves the line to the queue. -/
theorem commit (h : Refines s a) (hok : s.Ok) : Refines s.commit a.commit := by
  have hline := h.line hok
  have hw := hok.w_le
  have he := hok.e_le
  have hend := hok.end_le
  refine ⟨?_, CBuf.slice_of_le _ (Nat.le_refl _), CBuf.slice_of_le _ (Nat.le_refl _)⟩
  dsimp only [Input.commit, Editor.commit]
  rw [← h.queue, ← hline, Input.line]
  exact (CBuf.slice_append _ hok.r_le (Nat.le_trans hw he)
    (by simp only [INPUT_BUF]; omega)).symm

/-- The cursor goes to the end of the line. -/
theorem toEnd (h : Refines s a) (hok : s.Ok) :
    Refines { s with e := s.end_ } { a with before := a.line, after := [] } :=
  ⟨h.queue, h.line hok, CBuf.slice_of_le _ (Nat.le_refl _)⟩

/-- **Every way a key can go** is what the key means to the editor. -/
theorem press (h : Refines s a) (hok : s.Ok) {k : Key} {ops : List ScreenOp}
    (ho : Outcome s k s' ops) (hfit : k.Inserts → s.end_.toNat ≤ 126) :
    Refines s' (a.press k) := by
  cases ho with
  | ignored => exact h
  | kill =>
      exact ⟨h.queue, CBuf.slice_of_le _ (Nat.le_refl _), CBuf.slice_of_le _ (Nat.le_refl _)⟩
  | noBackspace hew =>
      have hnil : a.before = [] := by
        rw [← h.before, hew]
        exact CBuf.slice_of_le _ (Nat.le_refl _)
      refine ⟨h.queue, ?_, h.after⟩
      dsimp only [Editor.press]
      rw [h.before, hnil]
      rfl
  | backspaceInMid hew _ _ hs' => exact h.erased hok hew hs'
  | backspaceAtEnd hew _ _ hs' => exact h.erased hok hew hs'
  | home => exact ⟨h.queue, CBuf.slice_of_le _ (Nat.le_refl _), h.line hok⟩
  | toEnd => exact h.toEnd hok
  | newline _ hi =>
      exact ((h.toEnd hok).inserted hok.atEnd hi).commit (hi.ok hok.atEnd (hfit trivial))
  | writeInMid _ _ hi => exact h.inserted hok hi
  | writeAtEnd _ _ hi => exact h.inserted hok hi
  | commit _ hi => exact (h.inserted hok hi).commit (hi.ok hok (hfit trivial))

end Refines

/-! ### The invariant of the console -/

section Runs

variable {ι : Type} [DecidableEq ι]

/-- The indices are in order and the line is clean. -/
structure Input.Inv (s : Input) : Prop where
  ok : s.Ok
  clean : s.Clean

/-- The event puts a character into the buffer. -/
def Event.Inserts : Event ι → Prop
  | .key c => (keyOf c).Inserts
  | _ => False

/-- A stretch of reading, at the level of the console. -/
theorem exists_readLoop (killed : Bool) (target n : Nat) {s : Input} (h : s.Inv)
    (dst : List UInt8) :
    ∃ s' reader, readLoop killed target n s dst = some (s', reader) ∧ s'.Inv ∧
      ∀ a, Refines s a →
        Refines s' { a with queue := (Editor.readQueue killed target n a.queue dst).1 } ∧
        reader = (Editor.readQueue killed target n a.queue dst).2 := by
  obtain ⟨r', reader, heq, hr', hqueue⟩ := readLoop_spec killed target n h.ok dst
  refine ⟨_, _, heq, ⟨⟨hr', h.ok.w_le, h.ok.e_le, h.ok.end_le⟩, h.clean⟩, fun a ha => ?_⟩
  rw [ha.queue] at hqueue
  rw [hqueue]
  exact ⟨⟨rfl, ha.before, ha.after⟩, rfl⟩

/-- The console and the reference are in step. -/
structure InStep (s : State ι) (a : Reference ι) : Prop where
  inv : s.input.Inv
  input : Refines s.input a.editor
  reader : s.reader = a.reader

/-- **One event**, with room for the character it may insert. -/
theorem InStep.step {s : State ι} {a : Reference ι} (h : InStep s a) (ev : Event ι)
    (hfit : ev.Inserts → s.input.end_.toNat ≤ 126) :
    ∃ t, step s ev = some t ∧ InStep t (a.step ev) := by
  have hread : ∀ p killed target n dst, ∃ q, readLoop killed target n s.input dst = some q ∧
      InStep ⟨q.1, Function.update s.reader p q.2⟩ (a.readOn p killed target n dst) := by
    intro p killed target n dst
    obtain ⟨s', reader, heq, hinv, href⟩ := exists_readLoop killed target n h.inv dst
    obtain ⟨hs', hreader⟩ := href a.editor h.input
    refine ⟨(s', reader), heq, hinv, hs', ?_⟩
    rw [Reference.readOn, h.reader, ← hreader]
  cases ev with
  | key c =>
      obtain ⟨s', ops, heq, hout⟩ := consoleintr_spec h.inv.ok h.inv.clean hfit
      refine ⟨{ s with input := s' }, ?_, ?_, h.input.press h.inv.ok hout hfit, h.reader⟩
      · rw [Console.step, heq, Option.map_some]
      · exact ⟨hout.ok h.inv.ok hfit, hout.clean h.inv.ok h.inv.clean⟩
  | read p n killed =>
      obtain ⟨q, heq, hq⟩ := hread p killed n n []
      rw [Console.step, Reference.step, ← h.reader]
      cases s.reader p with
      | asleep => exact ⟨s, rfl, h⟩
      | idle | done => exact ⟨_, by dsimp only; rw [heq, Option.map_some], hq⟩
  | wake p killed =>
      rw [Console.step, Reference.step, ← h.reader]
      cases s.reader p with
      | asleep target n dst =>
          obtain ⟨q, heq, hq⟩ := hread p killed target n dst
          exact ⟨_, by dsimp only; rw [heq, Option.map_some], hq⟩
      | idle | done => exact ⟨s, rfl, h⟩

theorem inStep_init : InStep (machine ι).init (Reference.init ι) where
  inv := by
    refine ⟨⟨Nat.le_refl _, Nat.le_refl _, Nat.le_refl _, Nat.zero_le _⟩, fun j c _ hc => ?_⟩
    have hzero : c = 0 := by
      obtain ⟨hj, hc⟩ := Vector.getElem?_eq_some_iff.mp hc
      rw [← hc]
      exact Vector.getElem_replicate _
    rw [hzero]
    exact ⟨by decide, by decide, by decide⟩
  input := ⟨rfl, rfl, rfl⟩
  reader := rfl

/-! ### The console as an editor -/

/-- The console shows the reference: the line between `w` and `end`, the cursor
at `e`, the committed text still to be read between `r` and `w`; and each
reader has got the same. -/
structure Shows (s : State ι) (a : Reference ι) : Prop where
  r_le_w : s.input.r ≤ s.input.w
  w_le_e : s.input.w ≤ s.input.e
  e_le_end : s.input.e ≤ s.input.end_
  line : CBuf.slice s.input.buf s.input.w.toNat s.input.end_.toNat = a.editor.line
  cursor : (s.input.e - s.input.w).toNat = a.editor.cursor
  queue : CBuf.slice s.input.buf s.input.r.toNat s.input.w.toNat = a.editor.queue
  reader : s.reader = a.reader

omit [DecidableEq ι] in
theorem InStep.shows {s : State ι} {a : Reference ι} (h : InStep s a) : Shows s a where
  r_le_w := UInt32.le_iff_toNat_le.mpr h.inv.ok.r_le
  w_le_e := UInt32.le_iff_toNat_le.mpr h.inv.ok.w_le
  e_le_end := UInt32.le_iff_toNat_le.mpr h.inv.ok.e_le
  line := h.input.line h.inv.ok
  cursor := by
    rw [toNat_sub h.inv.ok.w_le]
    exact h.input.cursor h.inv.ok
  queue := h.input.queue
  reader := h.reader

/-- The event leaves `end` at most 126. -/
def StaysSmall (s : State ι) (ev : Event ι) : Prop :=
  ∀ t, step s ev = some t → t.input.end_.toNat ≤ 126

/-- **The console refines the editor**: after any keys and reads since boot that
leave `end` at most 126, it shows what the reference shows. -/
theorem console_refines (evs : List (Event ι))
    (h : (machine ι).Meets StaysSmall (machine ι).init evs) :
    ∃ s, (machine ι).exec (machine ι).init evs = some s ∧
      Shows s (evs.foldl Reference.step (Reference.init ι)) := by
  have hstep : ∀ (s : State ι) (a : Reference ι) (ev : Event ι),
      InStep s a ∧ s.input.end_.toNat ≤ 126 → StaysSmall s ev →
      ∃ t, (machine ι).step s ev = some t ∧ InStep t (a.step ev) ∧ t.input.end_.toNat ≤ 126 := by
    intro s a ev hs hsmall
    obtain ⟨t, ht, hin⟩ := hs.1.step ev fun _ => hs.2
    exact ⟨t, ht, hin, hsmall t ht⟩
  obtain ⟨s, hs, hin, -⟩ := (machine ι).exec_simulation hstep ⟨inStep_init, Nat.zero_le _⟩ h
  exact ⟨s, hs, hin.shows⟩

instance (s : State ι) (ev : Event ι) : Decidable (StaysSmall s ev) :=
  match h : step s ev with
  | none => .isTrue fun t ht => by rw [h] at ht; cases ht
  | some t => decidable_of_iff (t.input.end_.toNat ≤ 126) (by simp [StaysSmall, h])

/-- `a` and `b` are typed, `c` is inserted at the start of the line and the `b`
erased, the line is committed and a reader takes two bytes of it. -/
def editedLine : List (Event Unit) :=
  [.key 'a'.toUInt8, .key 'b'.toUInt8, .key CURLY_LEFT, .key 'c'.toUInt8, .key CURLY_RIGHT,
    .key (C 'H'), .key NEWLINE, .read () 2 false]

theorem console_refines_editedLine :
    ∃ s, (machine Unit).exec (machine Unit).init editedLine = some s ∧
      Shows s (editedLine.foldl Reference.step (Reference.init Unit)) := by
  have hrun : ((machine Unit).execWhile StaysSmall (machine Unit).init editedLine).isSome := by
    decide +kernel
  obtain ⟨u, hu⟩ := Option.isSome_iff_exists.mp hrun
  exact console_refines editedLine ((machine Unit).meets_of_execWhile hu).1

end Runs

end OsCourse.Console
