import OsCourse.Console.Refinement

/-!
# OsCourse.Console.Bounds

Which runs of the console stay inside `input.buf`. Reading and moving about
always do, and so does erasing; a character may be inserted as long as `end` is
at most 126, and inserted at 127 it is written beyond the end of the buffer.
Since the indices never restart, a kernel gets there by typing alone.
-/

namespace OsCourse.Console

open OsCourse.Lib

variable {ι : Type} [DecidableEq ι]

/-- The editor that the buffer shows. -/
def Input.editor (s : Input) : Editor where
  before := CBuf.slice s.buf s.w.toNat s.e.toNat
  after := CBuf.slice s.buf s.e.toNat s.end_.toNat
  queue := CBuf.slice s.buf s.r.toNat s.w.toNat

/-- A character that is inserted fits. -/
def HasRoom (s : State ι) (ev : Event ι) : Prop := ev.Inserts → s.input.end_.toNat ≤ 126

omit [DecidableEq ι] in
theorem inStep_self {s : State ι} (h : s.input.Inv) : InStep s ⟨s.input.editor, s.reader⟩ :=
  ⟨h, ⟨rfl, rfl, rfl⟩, rfl⟩

/-- An event can be taken iff it has room. -/
theorem isSome_step_iff {s : State ι} (h : s.input.Inv) (ev : Event ι) :
    (step s ev).isSome ↔ HasRoom s ev := by
  constructor
  · intro hsome hins
    by_contra hfull
    cases ev with
    | key c =>
        rw [Console.step, consoleintr_none h.ok hins hfull] at hsome
        cases hsome
    | read | wake => exact hins.elim
  · intro hroom
    obtain ⟨t, ht, -⟩ := (inStep_self h).step ev hroom
    rw [ht]
    rfl

/-- Events keep the indices in order and the line clean. -/
theorem inv_step {s t : State ι} {ev : Event ι} (h : s.input.Inv) (ht : step s ev = some t) :
    t.input.Inv := by
  have hroom := (isSome_step_iff h ev).mp (by rw [ht]; rfl)
  obtain ⟨u, hu, hin⟩ := (inStep_self h).step ev hroom
  obtain rfl : t = u := Option.some.inj (ht.symm.trans hu)
  exact hin.inv

/-- **A run stays inside the buffer** iff every character it inserts is typed
while `end` is at most 126. -/
theorem inBounds_iff (evs : List (Event ι)) :
    ((machine ι).exec (machine ι).init evs).isSome ↔
      (machine ι).Meets HasRoom (machine ι).init evs :=
  (machine ι).isSome_exec_iff (fun _ ev h => isSome_step_iff h ev) (fun _ _ _ h ht => inv_step h ht)
    inStep_init.inv

/-- The 128th character typed since boot is written beyond the buffer. -/
theorem overrun_after_128 :
    ¬ ((machine Unit).exec (machine Unit).init
      (List.replicate 128 (.key 'a'.toUInt8))).isSome := by
  decide +kernel

end OsCourse.Console
