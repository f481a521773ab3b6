import Mathlib.Data.List.FinRange
import OsCourse.Bio.Owners

/-!
# OsCourse.Bio.Lru

The list of the buffer cache. The links from `bcache.head` go through all the
buffers, and `brelse` puts a buffer whose count goes to zero in front, so that the
buffers stand in the order in which they were last released (`Lru`). `bget` looks
for a block from the front, for an unused buffer from the back, and so takes the
one that was released first; a buffer in use, or dirty, keeps its block.
-/

namespace OsCourse.Bio

open OsCourse.Lib

variable {ι : Type} {NBUF : ℕ} {s t u : State ι NBUF} {i : Fin NBUF} {l : List (Fin NBUF)}
  {dev blockno : UInt32}

/-- The buffers `l`, from the head on, the last released first. -/
structure Lru (s : State ι NBUF) (l : List (Fin NBUF)) : Prop where
  ring : Ring s.next s.prev l
  perm : l.Perm (List.finRange NBUF)
  order : l.Pairwise fun i j => s.released j = 0 ∨ s.released j < s.released i
  clock : ∀ i, s.released i ≤ s.clock

namespace Lru

theorem nodup (h : Lru s l) : l.Nodup := h.perm.nodup_iff.mpr (List.nodup_finRange NBUF)

theorem mem (h : Lru s l) (i : Fin NBUF) : i ∈ l := h.perm.mem_iff.mpr (List.mem_finRange i)

theorem length_le (h : Lru s l) : l.length ≤ NBUF := by
  rw [h.perm.length_eq, List.length_finRange]

/-- The links back from the head. -/
theorem ring_prev (h : Lru s l) : Ring s.prev s.next l.reverse := seg_reverse.mp h.ring

theorem scan_next (h : Lru s l) (p : Fin NBUF → Bool) :
    scan s.next p NBUF (s.next none) = some (l.find? p) := Seg.scan h.ring p h.length_le

theorem scan_prev (h : Lru s l) (p : Fin NBUF → Bool) :
    scan s.prev p NBUF (s.prev none) = some (l.reverse.find? p) :=
  Seg.scan h.ring_prev p (by rw [List.length_reverse]; exact h.length_le)

theorem binit : Lru (binit ι NBUF) (List.finRange NBUF).reverse where
  ring := by
    have hring := Ring.foldl_pushFront (f := (fun _ => none, fun _ => none)) ring_nil List.nodup_nil
      (List.nodup_finRange NBUF) fun _ _ => List.not_mem_nil
    rwa [List.append_nil] at hring
  perm := List.reverse_perm _
  order := List.pairwise_of_forall fun _ _ => .inl rfl
  clock _ := Nat.zero_le _

/-- A step that leaves the links alone. -/
theorem congr (h : Lru s l) (hnext : t.next = s.next) (hprev : t.prev = s.prev)
    (hclock : t.clock = s.clock) (hreleased : t.released = s.released) : Lru t l where
  ring := by
    rw [hnext, hprev]
    exact h.ring
  perm := h.perm
  order := by
    rw [hreleased]
    exact h.order
  clock := by
    rw [hclock, hreleased]
    exact h.clock

/-- The links of `brelse` when the count goes to zero. -/
theorem brelse_zero (hzero : (s.buf i).refcnt - 1 = 0) :
    (s.brelse i).next = (pushFront (unlink (s.next, s.prev) i) i).1 ∧
      (s.brelse i).prev = (pushFront (unlink (s.next, s.prev) i) i).2 ∧
      (s.brelse i).clock = s.clock + 1 ∧
      (s.brelse i).released = Function.update s.released i (s.clock + 1) := by
  have hif : ((s.setBuf i { s.buf i with refcnt := (s.buf i).refcnt - 1 }).buf i).refcnt = 0 := by
    rw [setBuf_self]
    exact hzero
  unfold State.brelse
  dsimp only
  rw [if_pos hif]
  exact ⟨rfl, rfl, rfl, rfl⟩

/-- A buffer whose count goes to zero becomes the first. -/
theorem release (h : Lru s l) (hzero : (s.buf i).refcnt - 1 = 0) :
    ∃ l', Lru (s.brelse i) (i :: l') := by
  obtain ⟨l₁, l₂, rfl⟩ := List.append_of_mem (h.mem i)
  obtain ⟨hnext, hprev, hclock, hreleased⟩ := brelse_zero hzero
  have hperm : (i :: (l₁ ++ l₂)).Perm (l₁ ++ i :: l₂) := List.perm_middle.symm
  obtain ⟨hi, hnodup⟩ := List.nodup_cons.mp (hperm.nodup_iff.mpr h.nodup)
  have hother : ∀ j, j ∈ l₁ ++ l₂ → (s.brelse i).released j = s.released j := by
    intro j hj
    rw [hreleased, Function.update_of_ne]
    exact fun heq => hi (heq ▸ hj)
  have horder : (l₁ ++ l₂).Pairwise fun i j => s.released j = 0 ∨ s.released j < s.released i :=
    h.order.sublist (List.sublist_append_right [i] l₂ |>.append_left l₁)
  refine ⟨l₁ ++ l₂, ?_, hperm.trans h.perm, List.pairwise_cons.mpr ⟨fun j hj => .inr ?_, ?_⟩,
    fun j => ?_⟩
  · rw [hnext, hprev]
    exact Ring.pushFront (h.ring.unlink h.nodup) hnodup hi
  · -- `i` is released now, the others were before
    rw [hother j hj, hreleased, Function.update_self]
    exact Nat.lt_succ_of_le (h.clock j)
  · refine horder.imp_of_mem fun {a b} ha hb hab => ?_
    rw [hother a ha, hother b hb]
    exact hab
  · rw [hreleased, hclock, Function.update_apply]
    split
    · exact Nat.le_refl _
    · exact Nat.le_succ_of_le (h.clock j)

/-- A buffer that is still referenced stays where it is. -/
theorem brelse_succ (h : Lru s l) (hpos : (s.buf i).refcnt - 1 ≠ 0) : Lru (s.brelse i) l := by
  have hif : ((s.setBuf i { s.buf i with refcnt := (s.buf i).refcnt - 1 }).buf i).refcnt ≠ 0 := by
    rw [setBuf_self]
    exact hpos
  unfold State.brelse
  dsimp only
  rw [if_neg hif]
  exact h.congr rfl rfl rfl rfl

theorem bget (h : Lru s l) (hbget : s.bget dev blockno = some (i, u)) : Lru u l := by
  rcases bget_eq_some hbget with ⟨-, rfl⟩ | ⟨-, -, rfl⟩ <;> exact h.congr rfl rfl rfl rfl

variable [DecidableEq ι]

/-- Every step keeps a list. -/
theorem step (h : Lru s l) {a : Act ι NBUF} (hstep : Step s a t) : ∃ l', Lru t l' := by
  cases hstep with
  | bread _ hbget => exact ⟨l, (h.bget hbget).congr rfl rfl rfl rfl⟩
  | brelse _ =>
      rename_i h' i _
      by_cases hzero : (s.buf i).refcnt - 1 = 0
      · obtain ⟨l', hl'⟩ := h.release hzero
        exact ⟨i :: l', hl'.congr rfl rfl rfl rfl⟩
      · exact ⟨l, (h.brelse_succ hzero).congr rfl rfl rfl rfl⟩
  | _ => exact ⟨l, h.congr rfl rfl rfl rfl⟩

end Lru

variable [DecidableEq ι]

theorem reach_lru (hs : (bcache ι NBUF).Reach s) : ∃ l, Lru s l := by
  refine hs.induction (I := fun s => ∃ l, Lru s l) ⟨_, Lru.binit⟩ fun s a t h hstep => ?_
  obtain ⟨l, hl⟩ := h
  exact hl.step (step_eq_some hstep)

/-! ### Blocks -/

/-- What a buffer caches. -/
def State.block (s : State ι NBUF) (i : Fin NBUF) : UInt32 × UInt32 :=
  ((s.buf i).dev, (s.buf i).blockno)

omit [DecidableEq ι] in
theorem caches_iff : s.caches dev blockno i ↔ s.block i = (dev, blockno) := by
  simp [State.caches, State.block]

omit [DecidableEq ι] in
theorem unused_iff : s.unused i ↔ (s.buf i).refcnt = 0 ∧ (s.buf i).dirty = false := by
  simp [State.unused]

omit [DecidableEq ι] in
/-- Blocks do not depend on the other fields. -/
theorem block_setBuf {b : Buf ι} (hdev : b.dev = (s.buf i).dev)
    (hblockno : b.blockno = (s.buf i).blockno) : (s.setBuf i b).block = s.block := by
  funext j
  exact Prod.ext (setBuf_congr Buf.dev hdev j) (setBuf_congr Buf.blockno hblockno j)

omit [DecidableEq ι] in
theorem block_recycle :
    (s.recycle dev blockno i).block = Function.update s.block i (dev, blockno) := by
  funext j
  by_cases hj : j = i
  · subst hj
    rw [Function.update_self, State.block, State.recycle, setBuf_self]
  · rw [Function.update_of_ne hj, State.block, State.recycle, setBuf_of_ne hj, State.block]

/-- A step leaves the blocks alone, or gives `(dev, blockno)`, which is in no buffer, to
the last of the unused buffers in the list. -/
theorem block_cases (hl : Lru s l) {a : Act ι NBUF} (hstep : Step s a t) :
    t.block = s.block ∨ ∃ dev blockno i, (∀ j, s.block j ≠ (dev, blockno)) ∧
      l.reverse.find? s.unused = some i ∧
      t.block = Function.update s.block i (dev, blockno) := by
  cases hstep with
  | bread _ hbget =>
      rename_i h dev blockno i u _
      rcases bget_eq_some hbget with ⟨-, rfl⟩ | ⟨hnext, hprev, rfl⟩
      · exact .inl (block_setBuf rfl rfl)
      · rw [hl.scan_next] at hnext
        rw [hl.scan_prev] at hprev
        have hnone := List.find?_eq_none.mp (Option.some.inj hnext)
        refine .inr ⟨dev, blockno, i, fun j hj => ?_, Option.some.inj hprev, block_recycle⟩
        exact hnone j (hl.mem j) (caches_iff.mpr hj)
  | brelse _ =>
      rename_i h i _
      refine .inl ?_
      have hblock : (s.brelse i).block = s.block := by
        have hset := block_setBuf (s := s) (i := i)
          (b := { s.buf i with refcnt := (s.buf i).refcnt - 1 }) rfl rfl
        unfold State.block at hset ⊢
        rwa [brelse_buf]
      exact hblock
  | acquiresleep => exact .inl (block_setBuf rfl rfl)
  | ideintr => exact .inl (block_setBuf rfl rfl)
  | iderw => exact .inl rfl
  | bwrite => exact .inl (block_setBuf rfl rfl)
  | logWrite => exact .inl (block_setBuf rfl rfl)
  | releasesleep => exact .inl (block_setBuf rfl rfl)

/-- At most one buffer has a given block (of a device other than 0: the buffers that
`binit` leaves all have block 0 of device 0). -/
def Once (s : State ι NBUF) : Prop :=
  ∀ i j, (s.block i).1 ≠ 0 → s.block i = s.block j → i = j

theorem Once.step (h : Once s) (hl : Lru s l) {a : Act ι NBUF} (hstep : Step s a t) : Once t := by
  rcases block_cases hl hstep with heq | ⟨dev, blockno, i, hnone, -, heq⟩
  · intro j k
    rw [heq]
    exact h j k
  · intro j k
    rw [heq, Function.update_apply, Function.update_apply]
    split
    · next hj =>
      split
      · next hk => exact fun _ _ => hj.trans hk.symm
      · exact fun _ hjk => absurd hjk.symm (hnone k)
    · split
      · exact fun _ hjk => absurd hjk (hnone j)
      · exact h j k

theorem reach_once (hs : (bcache ι NBUF).Reach s) : Once s := by
  have hinv : Once s ∧ ∃ l, Lru s l := by
    refine hs.induction (I := fun s => Once s ∧ ∃ l, Lru s l)
      ⟨fun i j hdev => absurd rfl hdev, _, Lru.binit⟩ fun s a t h hstep => ?_
    obtain ⟨honce, l, hl⟩ := h
    exact ⟨honce.step hl (step_eq_some hstep), hl.step (step_eq_some hstep)⟩
  exact hinv.1

/-! ### Steps -/

/-- A buffer that is referenced or dirty keeps its block. -/
theorem step_keeps (hl : Lru s l) {a : Act ι NBUF} (hstep : Step s a t)
    (hi : 0 < (s.buf i).refcnt ∨ (s.buf i).dirty = true) : t.block i = s.block i := by
  rcases block_cases hl hstep with heq | ⟨dev, blockno, j, -, hfind, heq⟩
  · rw [heq]
  · rw [heq, Function.update_of_ne]
    intro hij
    subst hij
    obtain ⟨hzero, hclean⟩ := unused_iff.mp (List.find?_some hfind)
    rcases hi with hpos | hdirty
    · exact Nat.ne_of_gt hpos hzero
    · rw [hclean] at hdirty
      cases hdirty

/-- A buffer that gets another block is unused, and was released before all other
unused buffers, if ever. -/
theorem step_recycles (hl : Lru s l) {a : Act ι NBUF} (hstep : Step s a t)
    (hi : t.block i ≠ s.block i) : s.unused i ∧
      ∀ j, j ≠ i → s.unused j → s.released i = 0 ∨ s.released i < s.released j := by
  rcases block_cases hl hstep with heq | ⟨dev, blockno, k, -, hfind, heq⟩
  · rw [heq] at hi
    exact absurd rfl hi
  · obtain rfl : i = k := by
      by_contra hne
      rw [heq, Function.update_of_ne hne] at hi
      exact hi rfl
    obtain ⟨hunused, as, bs, hsplit, hafter⟩ := List.find?_eq_some_iff_append.mp hfind
    refine ⟨hunused, fun j hj hunusedj => ?_⟩
    have horder := hl.order
    rw [← List.reverse_reverse l, hsplit, List.reverse_append, List.reverse_cons] at horder
    -- `j` stands nearer to the head
    have hbefore : j ∈ bs.reverse := by
      have hmem : j ∈ l.reverse := List.mem_reverse.mpr (hl.mem j)
      rw [hsplit, List.mem_append, List.mem_cons] at hmem
      rcases hmem with has | rfl | hbs
      · have hnot := hafter j has
        rw [hunusedj] at hnot
        cases hnot
      · exact absurd rfl hj
      · exact List.mem_reverse.mpr hbs
    have hfront := (List.pairwise_append.mp horder).1
    exact (List.pairwise_append.mp hfront).2.2 j hbefore i (List.mem_singleton_self i)

/-- Only `brelse` makes a count smaller. -/
theorem refcnt_cases {a : Act ι NBUF} (hstep : Step s a t) :
    (∀ j, (s.buf j).refcnt ≤ (t.buf j).refcnt) ∨ ∃ h i, t = (s.brelse i).goto h .idle := by
  cases hstep with
  | bread _ hbget =>
      rename_i h dev blockno i u _
      obtain ⟨-, hrefcnt, hother, -⟩ := bget_frame hbget
      refine .inl fun j => ?_
      show (s.buf j).refcnt ≤ (u.buf j).refcnt
      by_cases hj : j = i
      · subst hj
        rw [hrefcnt]
        exact Nat.le_succ _
      · rw [hother j hj]
  | brelse _ => exact .inr ⟨_, _, rfl⟩
  | iderw => exact .inl fun j => Nat.le_refl _
  | _ =>
      refine .inl fun j => Nat.le_of_eq (setBuf_congr Buf.refcnt ?_ j).symm
      rfl

/-- A buffer whose count goes to zero is at the head of the list. -/
theorem step_releases (hl : Lru s l) {a : Act ι NBUF} (hstep : Step s a t)
    (hpos : 0 < (s.buf i).refcnt) (hzero : (t.buf i).refcnt = 0) : t.next none = some i := by
  rcases refcnt_cases hstep with hle | ⟨h, j, rfl⟩
  · have hi := hle i
    rw [hzero] at hi
    exact absurd hi (Nat.not_le_of_lt hpos)
  · have hbuf : ((s.brelse j).buf i).refcnt = 0 := hzero
    rw [brelse_buf] at hbuf
    by_cases hj : i = j
    · subst hj
      rw [setBuf_self] at hbuf
      obtain ⟨l', hl'⟩ := hl.release hbuf
      exact hl'.ring.1.1
    · rw [setBuf_of_ne hj] at hbuf
      exact absurd hbuf (Nat.ne_of_gt hpos)

/-- The links from the head go through all the buffers, and back. -/
def Linked (s : State ι NBUF) : Prop :=
  ∃ l : List (Fin NBUF), l.Perm (List.finRange NBUF) ∧
    walk s.next NBUF (s.next none) = some l ∧ walk s.prev NBUF (s.prev none) = some l.reverse

omit [DecidableEq ι] in
theorem Lru.linked (h : Lru s l) : Linked s :=
  ⟨l, h.perm, Seg.walk h.ring h.length_le,
    Seg.walk h.ring_prev (by rw [List.length_reverse]; exact h.length_le)⟩

/-- **The buffer cache.** In every run from `binit` no block is in two buffers, and the
list holds every buffer, in both directions. A use that has to give a reference back
has one, and no step takes a buffer that is referenced or dirty for another block;
a buffer whose count goes to zero is at the head of the list; and a buffer that gets
another block is unreferenced and clean, and of those the one released first. -/
theorem buffer_cache (hs : (bcache ι NBUF).Reach s) :
    Once s ∧ Linked s ∧
      (∀ h i, s.pc h = .releasing i → 0 < (s.buf i).refcnt) ∧
      ∀ a t, (bcache ι NBUF).step s a = some t →
        (∀ i, 0 < (s.buf i).refcnt ∨ (s.buf i).dirty = true → t.block i = s.block i) ∧
        (∀ i, 0 < (s.buf i).refcnt → (t.buf i).refcnt = 0 → t.next none = some i) ∧
        ∀ i, t.block i ≠ s.block i → s.unused i ∧
          ∀ j, j ≠ i → s.unused j → s.released i = 0 ∨ s.released i < s.released j := by
  obtain ⟨l, hl⟩ := reach_lru hs
  refine ⟨reach_once hs, hl.linked, fun h i hpc => ?_, fun a t hstep => ⟨fun i hi => ?_,
    fun i hpos hzero => ?_, fun i hi => ?_⟩⟩
  · exact (reach_owners hs).refcnt_pos (by rw [hpc]; rfl)
  · exact step_keeps hl (step_eq_some hstep) hi
  · exact step_releases hl (step_eq_some hstep) hpos hzero
  · exact step_recycles hl (step_eq_some hstep) hi

/-- Two blocks read and released, one after the other. -/
def twoBlocks : List (Act Bool 2) :=
  [.bread false 1 7, .acquiresleep false, .ideintr false, .iderw false, .bread true 1 8,
    .acquiresleep true, .ideintr true, .releasesleep false, .brelse false, .iderw true,
    .releasesleep true, .brelse true]

/-- A third block then takes the buffer of the first. -/
theorem buffer_cache_two : ∃ s t,
    (bcache Bool 2).exec (bcache Bool 2).init twoBlocks = some s ∧
      (bcache Bool 2).step s (.bread false 1 9) = some t ∧
      s.block 0 = (1, 7) ∧ t.block 0 = (1, 9) ∧ Once s ∧ Linked s ∧ s.unused 0 ∧
      ∀ j, j ≠ 0 → s.unused j → s.released 0 = 0 ∨ s.released 0 < s.released j := by
  have hrun : (((bcache Bool 2).exec (bcache Bool 2).init twoBlocks).bind fun s =>
      ((bcache Bool 2).step s (.bread false 1 9)).map fun t => (s.block 0, t.block 0)) =
        some ((1, 7), (1, 9)) := by decide
  obtain ⟨s, hs, hrun⟩ := Option.bind_eq_some_iff.mp hrun
  obtain ⟨t, ht, hblocks⟩ := Option.map_eq_some_iff.mp hrun
  obtain ⟨hbefore, hafter⟩ := Prod.mk.inj hblocks
  obtain ⟨honce, hlinked, -, hstep⟩ := buffer_cache ⟨twoBlocks, hs⟩
  have hrecycled := (hstep _ t ht).2.2 0 (by rw [hbefore, hafter]; decide)
  exact ⟨s, t, hs, ht, hbefore, hafter, honce, hlinked, hrecycled⟩

end OsCourse.Bio
