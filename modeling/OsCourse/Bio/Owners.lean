import OsCourse.Bio.Model

/-!
# OsCourse.Bio.Owners

Who has a reference to a buffer, and who holds its sleep-lock. `refcnt` counts
the uses of the buffer, from `bget` to the end of `brelse`, and the sleep-lock
is held by the one use that may touch the data. So no count goes below zero, and
`bwrite` and `brelse` do not panic.
-/

namespace OsCourse.Bio

open OsCourse.Lib

variable {ι : Type} {NBUF : ℕ} {s t u : State ι NBUF} {i : Fin NBUF} {dev blockno : UInt32}

/-! ### What a step does -/

/-- `bget` changes one buffer: one that it found, or one that was unused. -/
theorem bget_eq_some (h : s.bget dev blockno = some (i, u)) :
    (s.caches dev blockno i ∧ u = s.hit i) ∨
      (scan s.next (s.caches dev blockno) NBUF (s.next none) = some none ∧
        scan s.prev s.unused NBUF (s.prev none) = some (some i) ∧
        u = s.recycle dev blockno i) := by
  obtain ⟨r, hr, h⟩ := Option.bind_eq_some_iff.mp h
  cases r with
  | some j =>
      obtain ⟨rfl, rfl⟩ := Prod.mk.inj (Option.some.inj h)
      exact .inl ⟨scan_eq_some hr, rfl⟩
  | none =>
      obtain ⟨r, hprev, h⟩ := Option.bind_eq_some_iff.mp h
      obtain ⟨j, rfl, h⟩ := Option.bind_eq_some_iff.mp h
      obtain ⟨rfl, rfl⟩ := Prod.mk.inj (Option.some.inj h)
      exact .inr ⟨hr, hprev, rfl⟩

@[simp] theorem setBuf_self (s : State ι NBUF) (i : Fin NBUF) (b : Buf ι) :
    (s.setBuf i b).buf i = b := Function.update_self ..

theorem setBuf_of_ne {j : Fin NBUF} (hj : j ≠ i) (b : Buf ι) : (s.setBuf i b).buf j = s.buf j :=
  Function.update_of_ne hj ..

/-- What depends on one field of the buffers does not see the others written. -/
theorem setBuf_congr {β : Type*} (f : Buf ι → β) {b : Buf ι} (h : f b = f (s.buf i))
    (j : Fin NBUF) : f ((s.setBuf i b).buf j) = f (s.buf j) := by
  by_cases hj : j = i
  · subst hj
    rwa [setBuf_self]
  · rw [setBuf_of_ne hj]

/-- What `bget` leaves alone, and the count. -/
theorem bget_frame (h : s.bget dev blockno = some (i, u)) :
    u.pc = s.pc ∧ (u.buf i).refcnt = (s.buf i).refcnt + 1 ∧
      (∀ j, j ≠ i → u.buf j = s.buf j) ∧ ∀ j, (u.buf j).lock = (s.buf j).lock := by
  rcases bget_eq_some h with ⟨-, rfl⟩ | ⟨-, hscan, rfl⟩
  · refine ⟨rfl, ?_, fun j hj => setBuf_of_ne hj _, setBuf_congr Buf.lock rfl⟩
    rw [State.hit, setBuf_self]
  · have hunused := scan_eq_some hscan
    refine ⟨rfl, ?_, fun j hj => setBuf_of_ne hj _, setBuf_congr Buf.lock rfl⟩
    rw [State.unused, Bool.and_eq_true, beq_iff_eq] at hunused
    rw [State.recycle, setBuf_self, hunused.1]

/-- What `brelse` does to the buffers. -/
theorem brelse_buf : (s.brelse i).buf =
    (s.setBuf i { s.buf i with refcnt := (s.buf i).refcnt - 1 }).buf := by
  unfold State.brelse
  dsimp only
  split <;> rfl

theorem brelse_lock (j : Fin NBUF) : ((s.brelse i).buf j).lock = (s.buf j).lock := by
  rw [brelse_buf]
  refine setBuf_congr Buf.lock ?_ j
  rfl

theorem brelse_pc : (s.brelse i).pc = s.pc := by
  unfold State.brelse
  dsimp only
  split <;> rfl

variable [DecidableEq ι]

/-- The steps as a relation. -/
inductive Step (s : State ι NBUF) : Act ι NBUF → State ι NBUF → Prop
  | bread {h : ι} {dev blockno : UInt32} {i : Fin NBUF} {u : State ι NBUF} :
      s.pc h = .idle → s.bget dev blockno = some (i, u) →
      Step s (.bread h dev blockno) (u.goto h (.waiting i))
  | acquiresleep {h : ι} {i : Fin NBUF} {k : PC NBUF} : s.pc h = .waiting i →
      (s.buf i).lock = none → k = .holding i ∨ k = .queued i →
      Step s (.acquiresleep h) ((s.setBuf i { s.buf i with lock := some h }).goto h k)
  | ideintr {h : ι} {i : Fin NBUF} : s.pc h = .queued i →
      Step s (.ideintr h)
        ((s.setBuf i { s.buf i with valid := true, dirty := false }).goto h (.served i))
  | iderw {h : ι} {i : Fin NBUF} : s.pc h = .served i → Step s (.iderw h) (s.goto h (.holding i))
  | bwrite {h : ι} {i : Fin NBUF} : s.pc h = .holding i →
      Step s (.bwrite h) ((s.setBuf i { s.buf i with dirty := true }).goto h (.queued i))
  | logWrite (i : Fin NBUF) : Step s (.logWrite i) (s.setBuf i { s.buf i with dirty := true })
  | releasesleep {h : ι} {i : Fin NBUF} : s.pc h = .holding i → (s.buf i).lock = some h →
      Step s (.releasesleep h) ((s.setBuf i { s.buf i with lock := none }).goto h (.releasing i))
  | brelse {h : ι} {i : Fin NBUF} : s.pc h = .releasing i →
      Step s (.brelse h) ((s.brelse i).goto h .idle)

theorem step_eq_some {a : Act ι NBUF} (hstep : step s a = some t) : Step s a t := by
  cases a with
  | bread h dev blockno =>
      simp only [step] at hstep
      split at hstep
      · next hidle =>
        obtain ⟨⟨i, u⟩, hbget, rfl⟩ := Option.map_eq_some_iff.mp hstep
        exact .bread hidle hbget
      · cases hstep
  | acquiresleep h =>
      simp only [step] at hstep
      split at hstep
      · next i hpc =>
        split at hstep
        · next hfree =>
          obtain rfl := Option.some.inj hstep
          refine .acquiresleep hpc hfree ?_
          split
          · exact .inl rfl
          · exact .inr rfl
        · cases hstep
      · cases hstep
  | ideintr h =>
      simp only [step] at hstep
      split at hstep
      · next i hpc =>
        obtain rfl := Option.some.inj hstep
        exact .ideintr hpc
      · cases hstep
  | iderw h =>
      simp only [step] at hstep
      split at hstep
      · next i hpc =>
        split at hstep
        · obtain rfl := Option.some.inj hstep
          exact .iderw hpc
        · cases hstep
      · cases hstep
  | bwrite h =>
      simp only [step] at hstep
      split at hstep
      · next i hpc =>
        split at hstep
        · obtain rfl := Option.some.inj hstep
          exact .bwrite hpc
        · cases hstep
      · cases hstep
  | logWrite i =>
      obtain rfl := Option.some.inj hstep
      exact .logWrite i
  | releasesleep h =>
      simp only [step] at hstep
      split at hstep
      · next i hpc =>
        split at hstep
        · next hlock =>
          obtain rfl := Option.some.inj hstep
          exact .releasesleep hpc hlock
        · cases hstep
      · cases hstep
  | brelse h =>
      simp only [step] at hstep
      split at hstep
      · next i hpc =>
        obtain rfl := Option.some.inj hstep
        exact .brelse hpc
      · cases hstep

/-! ### References and locks -/

/-- The buffer that a use has a reference to. -/
def PC.ref : PC NBUF → Option (Fin NBUF)
  | .idle => none
  | .waiting i | .queued i | .served i | .holding i | .releasing i => some i

/-- The buffer whose sleep-lock a use holds. -/
def PC.locked : PC NBUF → Option (Fin NBUF)
  | .queued i | .served i | .holding i => some i
  | .idle | .waiting _ | .releasing _ => none

structure Owners (s : State ι NBUF) : Prop where
  refs : ∀ i, Counted (fun k : PC NBUF => k.ref = some i) (s.buf i).refcnt s.pc
  locks : ∀ i, Held (fun k : PC NBUF => k.locked = some i) (s.buf i).lock s.pc

namespace Owners

variable {p : ι} {j k : PC NBUF}

omit [DecidableEq ι] in
theorem binit : Owners (binit ι NBUF) where
  refs i := ⟨∅, fun p => by simp [Bio.binit, PC.ref], rfl⟩
  locks i p := by simp [Bio.binit, PC.locked]

omit [DecidableEq ι] in
/-- Only the counts, the locks and the program counters matter. -/
theorem congr (h : Owners s) (hpc : t.pc = s.pc)
    (hrefs : ∀ i, (t.buf i).refcnt = (s.buf i).refcnt)
    (hlocks : ∀ i, (t.buf i).lock = (s.buf i).lock) : Owners t where
  refs i := by
    rw [hpc, hrefs]
    exact h.refs i
  locks i := by
    rw [hpc, hlocks]
    exact h.locks i

/-- A use moves on with the reference and the lock that it has. -/
theorem goto (h : Owners s) (hj : s.pc p = j) (href : k.ref = j.ref)
    (hlocked : k.locked = j.locked) : Owners (s.goto p k) where
  refs i := (h.refs i).stay hj (by rw [href])
  locks i := (h.locks i).stay hj (by rw [hlocked])

/-- A use gets a reference to `i`. -/
theorem bread (h : Owners s) (hidle : s.pc p = .idle) (hbget : s.bget dev blockno = some (i, u)) :
    Owners (u.goto p (.waiting i)) := by
  obtain ⟨hpc, hrefcnt, hother, hlock⟩ := bget_frame hbget
  refine ⟨fun j => ?_, fun j => ?_⟩
  · show Counted _ ((u.buf j).refcnt : ℤ) (Function.update u.pc p (.waiting i))
    rw [hpc]
    by_cases hj : j = i
    · subst hj
      rw [hrefcnt, Int.natCast_succ]
      exact (h.refs j).enter (by simp [hidle, PC.ref]) rfl
    · rw [hother j hj]
      exact (h.refs j).stay hidle (by simp [PC.ref, Ne.symm hj])
  · show Held _ (u.buf j).lock (Function.update u.pc p (.waiting i))
    rw [hpc, hlock]
    exact (h.locks j).stay hidle Iff.rfl

/-- The lock of `i` changes hands. -/
theorem setLock (h : Owners s) {l : Option ι} (hj : s.pc p = j) (href : k.ref = j.ref)
    (hother : ∀ i', i' ≠ i → (k.locked = some i' ↔ j.locked = some i'))
    (hlock : Held (fun k : PC NBUF => k.locked = some i) l (Function.update s.pc p k)) :
    Owners ((s.setBuf i { s.buf i with lock := l }).goto p k) := by
  refine ⟨fun j' => ?_, fun j' => ?_⟩
  · have hrefcnt := setBuf_congr (s := s) (i := i) Buf.refcnt
      (b := { s.buf i with lock := l }) rfl j'
    show Counted _ (((s.setBuf i { s.buf i with lock := l }).buf j').refcnt : ℤ) _
    rw [hrefcnt]
    exact (h.refs j').stay hj (by rw [href])
  · show Held _ ((s.setBuf i { s.buf i with lock := l }).buf j').lock _
    by_cases hi : j' = i
    · subst hi
      rw [setBuf_self]
      exact hlock
    · rw [setBuf_of_ne hi]
      exact (h.locks j').stay hj (hother j' hi)

/-- A use gets the lock of its buffer. -/
theorem acquiresleep (h : Owners s) (hwaiting : s.pc p = .waiting i)
    (hfree : (s.buf i).lock = none) (href : k.ref = some i) (hlocked : k.locked = some i) :
    Owners ((s.setBuf i { s.buf i with lock := some p }).goto p k) := by
  have hheld := h.locks i
  rw [hfree] at hheld
  refine h.setLock hwaiting href (fun i' hi => ?_) (hheld.acquire hlocked)
  rw [hlocked]
  simp [PC.locked, Ne.symm hi]

/-- The holder gives the lock back, and keeps its reference. -/
theorem releasesleep (h : Owners s) (hholding : s.pc p = .holding i)
    (hlock : (s.buf i).lock = some p) :
    Owners ((s.setBuf i { s.buf i with lock := none }).goto p (.releasing i)) := by
  refine h.setLock hholding rfl (fun i' hi => ?_) ((h.locks i).release hlock (by simp [PC.locked]))
  simp [PC.locked, Ne.symm hi]

omit [DecidableEq ι] in
/-- A use that stands in `brelse` has a reference. -/
theorem refcnt_pos (h : Owners s) (href : (s.pc p).ref = some i) : 0 < (s.buf i).refcnt :=
  Int.natCast_pos.mp ((h.refs i).pos href)

/-- A use gives its reference back. -/
theorem brelse (h : Owners s) (hreleasing : s.pc p = .releasing i) :
    Owners ((s.brelse i).goto p .idle) := by
  have hpos : 0 < (s.buf i).refcnt := h.refcnt_pos (by rw [hreleasing]; rfl)
  refine ⟨fun j => ?_, fun j => ?_⟩
  · show Counted _ (((s.brelse i).buf j).refcnt : ℤ) (Function.update (s.brelse i).pc p .idle)
    rw [brelse_pc, brelse_buf]
    by_cases hj : j = i
    · subst hj
      rw [setBuf_self, Int.natCast_sub hpos]
      exact (h.refs j).leave (by rw [hreleasing]; rfl) (by simp [PC.ref])
    · rw [setBuf_of_ne hj]
      exact (h.refs j).stay hreleasing (by simp [PC.ref, Ne.symm hj])
  · show Held _ ((s.brelse i).buf j).lock (Function.update (s.brelse i).pc p .idle)
    rw [brelse_pc, brelse_lock]
    exact (h.locks j).stay hreleasing Iff.rfl

omit [DecidableEq ι] in
/-- Setting flags of a buffer. -/
theorem flags (h : Owners s) (i : Fin NBUF) (valid dirty : Bool) :
    Owners (s.setBuf i { s.buf i with valid := valid, dirty := dirty }) :=
  h.congr rfl (setBuf_congr Buf.refcnt rfl) (setBuf_congr Buf.lock rfl)

/-- Every step keeps the counts and the locks. -/
theorem step (h : Owners s) {a : Act ι NBUF} (hstep : Step s a t) : Owners t := by
  cases hstep with
  | bread hidle hbget => exact h.bread hidle hbget
  | acquiresleep hwaiting hfree hk =>
      rcases hk with rfl | rfl <;> exact h.acquiresleep hwaiting hfree rfl rfl
  | ideintr hqueued => exact (h.flags _ true false).goto hqueued rfl rfl
  | iderw hserved => exact h.goto hserved rfl rfl
  | bwrite hholding => exact (h.flags _ _ true).goto hholding rfl rfl
  | logWrite i => exact h.flags i _ true
  | releasesleep hholding hlock => exact h.releasesleep hholding hlock
  | brelse hreleasing => exact h.brelse hreleasing

end Owners

/-- In every reachable state the counts and the locks are those of the uses. -/
theorem reach_owners (hs : (bcache ι NBUF).Reach s) : Owners s :=
  hs.induction Owners.binit fun _ _ _ h hstep => h.step (step_eq_some hstep)

/-- `bwrite` and `brelse` find their caller holding the lock. -/
theorem holdingsleep (hs : (bcache ι NBUF).Reach s) {h : ι} (hholding : s.pc h = .holding i) :
    (s.buf i).lock = some h :=
  ((reach_owners hs).locks i).holder (by rw [hholding]; rfl)

end OsCourse.Bio
