import OsCourse.Log.Model

/-!
# OsCourse.Log.Crash

A crash leaves the disk as it is after some prefix of the steps of `commit`, and
so does a crash during a recovery. For one transaction a disk is in one of three
states: the header is empty and the home blocks are old (`Clean` for the old
contents), the header and the log hold the transaction and every home block is
old or new (`Committed`), or the header is empty and the home blocks are new.

`commit` goes through the three in order, and `write_head` alone leads from the
first to the second. A recovery keeps the first and the third, and leads from the
second to the third (`recovery_step`): however often it is cut, it only repeats
itself.
-/

namespace OsCourse.Log

open OsCourse.Lib

variable {L : Layout}

/-! ### The header block -/

theorem word_putBlocks_zero (lh : LogHeader) (i : Nat) (b : Block) :
    word (Mem.putBlocks lh i b) 0 = word b 0 := by
  induction i with
  | zero => rfl
  | succ i ih => rw [Mem.putBlocks, word_setWord_of_ne _ (by omega), ih]

theorem word_putBlocks_succ (lh : LogHeader) {i j : Nat} (h : j < i) (b : Block) :
    word (Mem.putBlocks lh i b) (j + 1) = lh.block j := by
  induction i with
  | zero => omega
  | succ i ih =>
      rw [Mem.putBlocks]
      by_cases hj : j = i
      · rw [hj, word_setWord]
      · rw [word_setWord_of_ne _ (by omega), ih (by omega)]

/-- The header block `write_head` writes. -/
def headBlock (lh : LogHeader) (b : Block) : Block :=
  Mem.putBlocks lh lh.n (setWord b 0 (UInt32.ofNat lh.n))

theorem write_head_eq (m : Mem) :
    m.write_head L = m.bwrite L.start (headBlock m.lh (m.buf L.start)) := rfl

theorem headN_headBlock {lh : LogHeader} (h : lh.n ≤ LOGSIZE) (b : Block) :
    headN (headBlock lh b) = lh.n := by
  have hn : lh.n ≤ 30 := h
  have hword : (word (headBlock lh b) 0).toNat = lh.n := by
    rw [headBlock, word_putBlocks_zero, word_setWord, UInt32.toNat_ofNat']
    omega
  rw [headN, hword, if_pos (by omega)]

/-! ### The states of the disk -/

/-- A block of the log area. -/
def Layout.InLog (L : Layout) (x : Nat) : Prop := L.start ≤ x ∧ x < L.start + L.size

/-- What `log_write` lets into the header, for blocks outside the log. -/
structure Loggable (L : Layout) (lh : LogHeader) : Prop where
  room : (lh.n : Int) ≤ L.size - 1
  entries : lh.n ≤ LOGSIZE
  home : ∀ b ∈ lh.blocks, ¬ L.InLog b.toNat

/-- Block number `x` is one of the logged blocks. -/
def LogHeader.Logs (lh : LogHeader) (x : Nat) : Prop := ∃ b ∈ lh.blocks, b.toNat = x

instance (lh : LogHeader) (x : Nat) : Decidable (lh.Logs x) :=
  inferInstanceAs (Decidable (∃ b ∈ lh.blocks, b.toNat = x))

/-- The home block of entry `i`. -/
def LogHeader.homeOf (lh : LogHeader) (i : Nat) : Nat := (lh.block i).toNat

theorem LogHeader.logs_iff {lh : LogHeader} {x : Nat} :
    lh.Logs x ↔ ∃ i, i < lh.n ∧ lh.homeOf i = x := by
  simp [LogHeader.Logs, LogHeader.blocks, LogHeader.homeOf]

/-- The blocks after the transaction `lh` with the contents `new`. -/
def LogHeader.after (lh : LogHeader) (old new : Nat → Block) (x : Nat) : Block :=
  if lh.Logs x then new x else old x

namespace Loggable

variable {lh : LogHeader} (h : Loggable L lh) {i : Nat}
include h

theorem notInLog (hi : i < lh.n) : ¬ L.InLog (lh.homeOf i) :=
  h.home _ (List.mem_map_of_mem (List.mem_range.mpr hi))

theorem start_inLog : L.InLog L.start := by
  have := h.room
  exact ⟨le_rfl, by omega⟩

theorem entry_inLog (hi : i < lh.n) : L.InLog (L.start + i + 1) := by
  have := h.room
  exact ⟨by omega, by omega⟩

theorem homeOf_ne_start (hi : i < lh.n) : lh.homeOf i ≠ L.start := fun he =>
  h.notInLog hi (he ▸ h.start_inLog)

theorem homeOf_ne_entry {j : Nat} (hi : i < lh.n) (hj : j < lh.n) :
    lh.homeOf i ≠ L.start + j + 1 := fun he => h.notInLog hi (he ▸ h.entry_inLog hj)

end Loggable

/-- The log is empty, and the blocks outside it are those of `f`. -/
structure Clean (L : Layout) (f d : Nat → Block) : Prop where
  head : headN (d L.start) = 0
  home : ∀ x, ¬ L.InLog x → d x = f x

/-- The log holds the transaction `lh` with the contents `new`, on a disk that
was `old` before. -/
structure Committed (L : Layout) (lh : LogHeader) (old new d : Nat → Block) : Prop where
  head : headN (d L.start) = lh.n
  entry : ∀ i, i < lh.n → word (d L.start) (i + 1) = lh.block i
  copy : ∀ i, i < lh.n → d (L.start + i + 1) = new (lh.homeOf i)
  home : ∀ x, ¬ L.InLog x → d x = old x ∨ (lh.Logs x ∧ d x = new x)

/-! ### One step -/

section Steps

variable {lh : LogHeader} {old new : Nat → Block} {m : Mem} {t : Nat}

/-- `write_log` has copied the first `t` blocks. -/
structure Logging (L : Layout) (lh : LogHeader) (old new : Nat → Block) (t : Nat) (m : Mem) :
    Prop where
  header : m.lh = lh
  disk : Clean L old m.disk
  copy : ∀ i, i < t → m.disk (L.start + i + 1) = new (lh.homeOf i) ∧
    m.buf (L.start + i + 1) = new (lh.homeOf i)
  buf : ∀ x, ¬ L.InLog x → m.buf x = new x

/-- `install_trans` has installed the first `t` blocks. -/
structure Installing (L : Layout) (lh : LogHeader) (old new : Nat → Block) (t : Nat) (m : Mem) :
    Prop where
  n : m.lh.n = lh.n
  entry : ∀ i, i < lh.n → m.lh.block i = lh.block i
  disk : Committed L lh old new m.disk
  buf : ∀ i, i < lh.n → m.buf (L.start + i + 1) = m.disk (L.start + i + 1)
  home : ∀ i, i < t → m.disk (lh.homeOf i) = new (lh.homeOf i)

theorem Logging.next (hlh : Loggable L lh) (h : Logging L lh old new t m) (ht : t < lh.n) :
    Logging L lh old new (t + 1) (m.write_log L t) where
  header := h.header
  disk := by
    refine ⟨?_, fun x hx => ?_⟩
    · have hne : L.start ≠ L.start + t + 1 := by omega
      simp only [Mem.write_log, Mem.bwrite, Function.update_of_ne hne]
      exact h.disk.head
    · have hne : x ≠ L.start + t + 1 := fun he => hx (he ▸ hlh.entry_inLog ht)
      simp only [Mem.write_log, Mem.bwrite, Function.update_of_ne hne]
      exact h.disk.home x hx
  copy := by
    intro i hi
    by_cases hit : i = t
    · subst hit
      have hnew : m.buf (m.home i) = new (lh.homeOf i) := by
        rw [Mem.home, h.header]
        exact h.buf _ (hlh.notInLog ht)
      simp [Mem.write_log, Mem.bwrite, hnew]
    · have hne : L.start + i + 1 ≠ L.start + t + 1 := by omega
      simp only [Mem.write_log, Mem.bwrite, Function.update_of_ne hne]
      exact h.copy i (by omega)
  buf := by
    intro x hx
    have hne : x ≠ L.start + t + 1 := fun he => hx (he ▸ hlh.entry_inLog ht)
    simp only [Mem.write_log, Mem.bwrite, Function.update_of_ne hne]
    exact h.buf x hx

/-- The commit: with the header the transaction is on disk. -/
theorem Logging.commit (hlh : Loggable L lh) (h : Logging L lh old new lh.n m) :
    Installing L lh old new 0 (m.write_head L) where
  n := by rw [← h.header]; rfl
  entry := fun i _ => by rw [← h.header]; rfl
  disk := by
    have hstart : (m.write_head L).disk L.start = headBlock lh (m.buf L.start) := by
      simp [write_head_eq, Mem.bwrite, h.header]
    have hother : ∀ x, x ≠ L.start → (m.write_head L).disk x = m.disk x := fun x hx => by
      simp [write_head_eq, Mem.bwrite, hx]
    refine ⟨?_, fun i hi => ?_, fun i hi => ?_, fun x hx => ?_⟩
    · rw [hstart, headN_headBlock hlh.entries]
    · rw [hstart, headBlock, word_putBlocks_succ lh hi]
    · rw [hother _ (by omega)]
      exact (h.copy i hi).1
    · rw [hother x fun he => hx (he ▸ hlh.start_inLog)]
      exact .inl (h.disk.home x hx)
  buf := by
    intro i hi
    have hne : L.start + i + 1 ≠ L.start := by omega
    simp only [write_head_eq, Mem.bwrite, Function.update_of_ne hne]
    rw [(h.copy i hi).1, (h.copy i hi).2]
  home := fun i hi => absurd hi (Nat.not_lt_zero i)

theorem Installing.next (hlh : Loggable L lh) (h : Installing L lh old new t m) (ht : t < lh.n) :
    Installing L lh old new (t + 1) (m.install_trans L t) := by
  have hhome : m.home t = lh.homeOf t := by rw [Mem.home, h.entry t ht, LogHeader.homeOf]
  have hnew : m.buf (L.start + t + 1) = new (lh.homeOf t) := by rw [h.buf t ht, h.disk.copy t ht]
  have hself : (m.install_trans L t).disk (lh.homeOf t) = new (lh.homeOf t) := by
    simp [Mem.install_trans, Mem.bwrite, hhome, hnew]
  have hother : ∀ x, x ≠ lh.homeOf t → (m.install_trans L t).disk x = m.disk x ∧
      (m.install_trans L t).buf x = m.buf x := fun x hx => by
    simp [Mem.install_trans, Mem.bwrite, hhome, hx]
  refine ⟨h.n, h.entry, ⟨?_, fun i hi => ?_, fun i hi => ?_, fun x hx => ?_⟩, fun i hi => ?_,
    fun i hi => ?_⟩
  · rw [(hother _ (hlh.homeOf_ne_start ht).symm).1]
    exact h.disk.head
  · rw [(hother _ (hlh.homeOf_ne_start ht).symm).1]
    exact h.disk.entry i hi
  · rw [(hother _ (hlh.homeOf_ne_entry ht hi).symm).1]
    exact h.disk.copy i hi
  · by_cases hxt : x = lh.homeOf t
    · subst hxt
      exact .inr ⟨LogHeader.logs_iff.mpr ⟨t, ht, rfl⟩, hself⟩
    · rw [(hother x hxt).1]
      exact h.disk.home x hx
  · rw [(hother _ (hlh.homeOf_ne_entry ht hi).symm).1, (hother _ (hlh.homeOf_ne_entry ht hi).symm).2]
    exact h.buf i hi
  · by_cases hxt : lh.homeOf i = lh.homeOf t
    · rw [hxt]
      exact hself
    · rw [(hother _ hxt).1]
      refine h.home i (Nat.lt_of_le_of_ne (by omega) ?_)
      rintro rfl
      exact hxt rfl

/-- All home blocks are new: the header can go. -/
theorem Installing.erase (hlh : Loggable L lh) (h : Committed L lh old new m.disk)
    (hn : m.lh.n = 0) (hall : ∀ i, i < lh.n → m.disk (lh.homeOf i) = new (lh.homeOf i)) :
    Clean L (lh.after old new) (m.write_head L).disk := by
  have hother : ∀ x, x ≠ L.start → (m.write_head L).disk x = m.disk x := fun x hx => by
    simp [write_head_eq, Mem.bwrite, hx]
  refine ⟨?_, fun x hx => ?_⟩
  · have hstart : (m.write_head L).disk L.start = headBlock m.lh (m.buf L.start) := by
      simp [write_head_eq, Mem.bwrite]
    rw [hstart, headN_headBlock (by omega), hn]
  · rw [hother x fun he => hx (he ▸ hlh.start_inLog), LogHeader.after]
    split
    · next hlogs =>
      obtain ⟨i, hi, rfl⟩ := LogHeader.logs_iff.mp hlogs
      exact hall i hi
    · next hlogs =>
      rcases h.home x hx with hold | ⟨hl, -⟩
      · exact hold
      · exact absurd hl hlogs

end Steps

/-! ### Whole runs -/

section Runs

variable {lh : LogHeader} {old new f : Nat → Block}

/-- What is known at each point of a commit or recovery of the transaction `lh`. -/
def Phase (L : Layout) (lh : LogHeader) (old new : Nat → Block) (m : Mem) : Point → Prop
  | .writeLog t => t ≤ lh.n ∧ Logging L lh old new t m
  | .writeHead => Logging L lh old new lh.n m
  | .readHead => m.buf = m.disk ∧ Committed L lh old new m.disk
  | .install t => t ≤ lh.n ∧ Installing L lh old new t m
  | .clear => Installing L lh old new lh.n m
  | .eraseHead => m.lh.n = 0 ∧ Committed L lh old new m.disk ∧
      ∀ i, i < lh.n → m.disk (lh.homeOf i) = new (lh.homeOf i)
  | .done => Clean L (lh.after old new) m.disk

theorem Phase.next (hlh : Loggable L lh) {m : Mem} {k : Point} (h : Phase L lh old new m k) :
    Phase L lh old new (advance L m k).1 (advance L m k).2 := by
  cases k with
  | writeLog t =>
      obtain ⟨hle, hlog⟩ := h
      rw [advance, hlog.header]
      split
      · next ht => exact ⟨ht, hlog.next hlh ht⟩
      · next ht =>
        obtain rfl : t = lh.n := by omega
        exact hlog
  | writeHead => exact ⟨Nat.zero_le _, h.commit hlh⟩
  | readHead =>
      obtain ⟨hbuf, hdisk⟩ := h
      have hn : headN (m.buf L.start) = lh.n := by rw [hbuf, hdisk.head]
      refine ⟨Nat.zero_le _, hn, fun i hi => ?_, hdisk, fun i _ => ?_, fun i hi => ?_⟩
      · simp only [advance, Mem.read_head, hn, if_pos hi]
        rw [hbuf, hdisk.entry i hi]
      · simp only [advance, Mem.read_head]
        rw [hbuf]
      · exact absurd hi (Nat.not_lt_zero i)
  | install t =>
      obtain ⟨hle, hin⟩ := h
      rw [advance, hin.n]
      split
      · next ht => exact ⟨ht, hin.next hlh ht⟩
      · next ht =>
        obtain rfl : t = lh.n := by omega
        exact hin
  | clear => exact ⟨rfl, h.disk, h.home⟩
  | eraseHead => exact Installing.erase hlh h.2.1 h.1 h.2.2
  | done => exact h

theorem Phase.run (hlh : Loggable L lh) {m : Mem} {k : Point} (h : Phase L lh old new m k)
    (j : Nat) : Phase L lh old new (run L j (m, k)).1 (run L j (m, k)).2 := by
  induction j generalizing m k with
  | zero => exact h
  | succ j ih => exact ih (h.next hlh)

/-- What is known at each point of a recovery with nothing to install. -/
def CleanPhase (L : Layout) (f : Nat → Block) (m : Mem) : Point → Prop
  | .writeLog _ | .writeHead => False
  | .readHead => m.buf = m.disk ∧ Clean L f m.disk
  | .install _ | .clear | .eraseHead => m.lh.n = 0 ∧ Clean L f m.disk
  | .done => Clean L f m.disk

/-- `write_head` on an empty log. -/
theorem Clean.write_head {m : Mem} (h : Clean L f m.disk) (hn : m.lh.n = 0)
    (hstart : L.InLog L.start) : Clean L f (m.write_head L).disk where
  head := by
    have hself : (m.write_head L).disk L.start = headBlock m.lh (m.buf L.start) := by
      simp [write_head_eq, Mem.bwrite]
    rw [hself, headN_headBlock (by omega), hn]
  home := by
    intro x hx
    have hne : x ≠ L.start := fun he => hx (he ▸ hstart)
    simp only [write_head_eq, Mem.bwrite, Function.update_of_ne hne]
    exact h.home x hx

theorem CleanPhase.next (hstart : L.InLog L.start) {m : Mem} {k : Point}
    (h : CleanPhase L f m k) : CleanPhase L f (advance L m k).1 (advance L m k).2 := by
  cases k with
  | writeLog _ => exact h.elim
  | writeHead => exact h.elim
  | readHead =>
      obtain ⟨hbuf, hclean⟩ := h
      refine ⟨?_, hclean⟩
      show headN (m.buf L.start) = 0
      rw [hbuf, hclean.head]
  | install t =>
      have hnot : ¬ t < m.lh.n := by
        have := h.1
        omega
      rw [advance, if_neg hnot]
      exact h
  | clear => exact ⟨rfl, h.2⟩
  | eraseHead => exact h.2.write_head h.1 hstart
  | done => exact h

theorem CleanPhase.run (hstart : L.InLog L.start) {m : Mem} {k : Point}
    (h : CleanPhase L f m k) (j : Nat) :
    CleanPhase L f (run L j (m, k)).1 (run L j (m, k)).2 := by
  induction j generalizing m k with
  | zero => exact h
  | succ j ih => exact ih (h.next hstart)

/-! ### Recoveries -/

/-- From iteration `t` of `install_trans` the end is as many steps away as there
are blocks left, and three. -/
theorem run_install {m : Mem} {t j : Nat} (h : t + j = m.lh.n) :
    (run L (j + 3) (m, .install t)).2 = .done := by
  induction j generalizing m t with
  | zero =>
      have hend : advance L m (.install t) = (m, .clear) := by
        rw [advance, if_neg (by omega)]
      simp only [run, hend]
      rfl
  | succ j ih =>
      have hgo : advance L m (.install t) = (m.install_trans L t, .install (t + 1)) := by
        rw [advance, if_pos (by omega)]
      rw [Nat.succ_add, run, hgo]
      have hleft : t + 1 + j = m.lh.n := by omega
      exact ih (m := m.install_trans L t) hleft

/-- `recover_from_log` returns. -/
theorem recover_done (disk : Nat → Block) :
    (run L (recoverySteps L disk) (.restart disk, .readHead)).2 = .done := by
  have hn : ((Mem.restart disk).read_head L).lh.n = headN (disk L.start) := rfl
  have hread : advance L (.restart disk) .readHead =
      ((Mem.restart disk).read_head L, .install 0) := rfl
  rw [recoverySteps, ← Nat.add_assoc (headN (disk L.start)) 3 1, run, hread]
  exact run_install (by rw [hn, Nat.zero_add])

/-- The points after the commit. -/
def Point.committed : Point → Bool
  | .writeLog _ | .writeHead => false
  | _ => true

theorem committed_advance {m : Mem} {k : Point} (h : k.committed = true) :
    (advance L m k).2.committed = true := by
  cases k with
  | writeLog _ => cases h
  | writeHead => cases h
  | readHead => rfl
  | install t =>
      rw [advance]
      split <;> rfl
  | clear => rfl
  | eraseHead => rfl
  | done => rfl

theorem committed_run {m : Mem} {k : Point} (h : k.committed = true) (j : Nat) :
    (run L j (m, k)).2.committed = true := by
  induction j generalizing m k with
  | zero => exact h
  | succ j ih => exact ih (committed_advance h)

/-- The transaction is on disk, in the log or at home. -/
def Decided (L : Layout) (lh : LogHeader) (old new d : Nat → Block) : Prop :=
  Committed L lh old new d ∨ Clean L (lh.after old new) d

theorem Phase.decided {m : Mem} {k : Point} (h : Phase L lh old new m k)
    (hk : k.committed = true) : Decided L lh old new m.disk := by
  cases k with
  | writeLog _ => cases hk
  | writeHead => cases hk
  | readHead => exact .inl h.2
  | install t => exact .inl h.2.disk
  | clear => exact .inl h.disk
  | eraseHead => exact .inl h.2.1
  | done => exact .inr h

theorem Phase.undecided {m : Mem} {k : Point} (h : Phase L lh old new m k)
    (hk : k.committed = false) : Clean L old m.disk := by
  cases k with
  | writeLog _ => exact h.2.disk
  | writeHead => exact h.disk
  | _ => cases hk

/-- A recovery with nothing to install changes no home block, however far it gets. -/
theorem Clean.recoverFor (h : Clean L f old) (hstart : L.InLog L.start) (k : Nat) :
    Clean L f (recoverFor L k old) := by
  have hrun := CleanPhase.run (m := .restart old) (k := .readHead) hstart ⟨rfl, h⟩ k
  have hend : ∀ {m : Mem} {k : Point}, CleanPhase L f m k → Clean L f m.disk := by
    intro m k hk
    cases k with
    | writeLog _ => exact hk.elim
    | writeHead => exact hk.elim
    | done => exact hk
    | _ => exact hk.2
  exact hend hrun

/-- A recovery of a committed transaction, cut anywhere, leaves it to the next one. -/
theorem Decided.recoverFor {d : Nat → Block} (hlh : Loggable L lh) (h : Decided L lh old new d)
    (k : Nat) : Decided L lh old new (recoverFor L k d) := by
  rcases h with hcommitted | hclean
  · have hrun := Phase.run (m := .restart d) (k := .readHead) hlh ⟨rfl, hcommitted⟩ k
    exact hrun.decided (committed_run rfl k)
  · exact .inr (hclean.recoverFor hlh.start_inLog k)

theorem Clean.crashes (h : Clean L f old) (hstart : L.InLog L.start) (ks : List Nat) :
    Clean L f (crashes L old ks) := by
  induction ks generalizing old with
  | nil => exact h
  | cons k ks ih => exact ih (h.recoverFor hstart k)

theorem Decided.crashes {d : Nat → Block} (hlh : Loggable L lh) (h : Decided L lh old new d)
    (ks : List Nat) : Decided L lh old new (crashes L d ks) := by
  induction ks generalizing d with
  | nil => exact h
  | cons k ks ih => exact ih (h.recoverFor hlh k)

/-- A complete recovery installs a committed transaction. -/
theorem Decided.recover {d : Nat → Block} (hlh : Loggable L lh) (h : Decided L lh old new d) :
    Clean L (lh.after old new) (recover_from_log L d) := by
  rcases h with hcommitted | hclean
  · have hrun := Phase.run (m := .restart d) (k := .readHead) hlh ⟨rfl, hcommitted⟩
      (recoverySteps L d)
    rw [recover_done] at hrun
    exact hrun
  · exact hclean.recoverFor hlh.start_inLog _

end Runs

/-- **Transactions are atomic across crashes.** On a disk whose log header is
empty, cut `commit` after any number of steps, restart, cut any number of
recoveries, and let one recovery finish: the log is empty again, the logged
blocks are all new if the first `write_head` was over and all old otherwise, and
the other blocks outside the log are as they were. -/
theorem commit_crash_atomic (L : Layout) (m : Mem) (hclean : headN (m.disk L.start) = 0)
    (hlh : Loggable L m.lh) (k : Nat) (ks : List Nat) :
    let cut := run L k (m, .commit m)
    let final := recover_from_log L (crashes L cut.1.disk ks)
    headN (final L.start) = 0 ∧
      (∀ x, ¬ L.InLog x → ¬ m.lh.Logs x → final x = m.disk x) ∧
      ∀ b ∈ m.lh.blocks,
        final b.toNat = if cut.2.committed then m.buf b.toNat else m.disk b.toNat := by
  intro cut final
  have hstart := hlh.start_inLog
  have hold : Clean L m.disk m.disk := ⟨hclean, fun _ _ => rfl⟩
  have hphase : Phase L m.lh m.disk m.buf cut.1 cut.2 := by
    refine Phase.run hlh ?_ k
    rw [Point.commit]
    split
    · exact ⟨Nat.zero_le _, rfl, hold, fun i hi => absurd hi (Nat.not_lt_zero i), fun _ _ => rfl⟩
    · next hnone =>
      -- nothing was logged
      refine ⟨hclean, fun x _ => ?_⟩
      have hlogs : ¬ m.lh.Logs x := by
        rw [LogHeader.logs_iff]
        rintro ⟨i, hi, -⟩
        omega
      rw [LogHeader.after, if_neg hlogs]
  cases hcut : cut.2.committed with
  | false =>
      have hfinal : Clean L m.disk final :=
        ((hphase.undecided hcut).crashes hstart ks).recoverFor hstart _
      exact ⟨hfinal.head, fun x hx _ => hfinal.home x hx, fun b hb => hfinal.home _ (hlh.home b hb)⟩
  | true =>
      have hfinal : Clean L (m.lh.after m.disk m.buf) final :=
        ((hphase.decided hcut).crashes hlh ks).recover hlh
      refine ⟨hfinal.head, fun x hx hlogs => ?_, fun b hb => ?_⟩
      · rw [hfinal.home x hx, LogHeader.after, if_neg hlogs]
      · rw [hfinal.home _ (hlh.home b hb), LogHeader.after, if_pos ⟨b, hb, rfl⟩]
        rfl

/-- Two logged blocks, a crash right after the header is written, and two
recoveries cut short: the new contents are there. -/
theorem commit_crash_atomic_two :
    let L : Layout := ⟨2, 30⟩
    let m : Mem := ⟨⟨2, fun i => UInt32.ofNat (100 + i)⟩, fun _ _ => 0, fun b _ => UInt8.ofNat b⟩
    recover_from_log L (crashes L (run L 4 (m, .commit m)).1.disk [2, 3]) 101 = m.buf 101 := by
  intro L m
  have hlh : Loggable L m.lh := by
    refine ⟨by decide, by decide, fun b hb hlog => ?_⟩
    have hb : b = 100 ∨ b = 101 := by simpa [LogHeader.blocks, m, List.range_succ] using hb
    have hend : b.toNat < 32 := hlog.2
    rcases hb with rfl | rfl <;> contradiction
  have hatomic := commit_crash_atomic L m (by decide) hlh 4 [2, 3]
  exact hatomic.2.2 101 (by decide)

end OsCourse.Log
