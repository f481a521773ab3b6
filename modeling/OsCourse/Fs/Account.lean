import OsCourse.Fs.System
import OsCourse.Lib.Machine

/-!
# OsCourse.Fs.Account

Runs of `ialloc`, `writei`, `readi`, `iupdate`, `idup` and `iput`, each from start to
end and on an inode that the caller has a reference to. Every run keeps the state
sound (`accounting`): the free map is right, no free block is freed, and what the
inode cache holds in use is what is on the disk.

Two things are not promised (`accounting_literal_fails`). A map that is right up to
blocks named twice does not help: freeing one of the names frees a free block. And
an entry that is not in use keeps an old copy of its inode, until it is recycled.
-/

namespace OsCourse.Fs

open Lib

variable {k : Nat} {sb : Superblock} {disk : Disk} {dev : Devsw} {s s₀ : State k} {i : Fin k}

/-- The operations. `iupdate` comes with the numbers that the caller has changed. -/
inductive Op (k : Nat)
  | ialloc (type : UInt16)
  | writei (i : Fin k) (src : Nat → UInt8) (off n : UInt32)
  | readi (i : Fin k) (off n : UInt32)
  | iupdate (i : Fin k) (major minor nlink : UInt16)
  | idup (i : Fin k)
  | iput (i : Fin k)

namespace Op

/-- An operation, with the inode locked where it has to be. -/
def step (sb : Superblock) (dev : Devsw) (s : State k) : Op k → Except Panic (State k)
  | ialloc type => (Fs.ialloc sb s type).map Prod.snd
  | writei i src off n => (writeLocked sb dev s i src off n).map Prod.snd
  | readi i off n => (readLocked sb dev s i off n).map Prod.snd
  | iupdate i major minor nlink => (updateLocked sb s i major minor nlink).map Prod.snd
  | idup i => .ok (Fs.idup s i)
  | iput i => Fs.iput sb s i

/-- The caller has a reference to the inode. -/
def Referenced (s : State k) : Op k → Prop
  | ialloc _ => True
  | writei i .. | readi i .. | iupdate i .. | idup i | iput i => 0 < (s.icache i).ref

end Op

instance (s : State k) : (op : Op k) → Decidable (op.Referenced s)
  | .ialloc _ => inferInstanceAs (Decidable True)
  | .writei i _ _ _ | .readi i _ _ | .iupdate i _ _ _ | .idup i | .iput i =>
      inferInstanceAs (Decidable (0 < (s.icache i).ref))

/-- The file system, as a machine. -/
def fs (sb : Superblock) (dev : Devsw) (s₀ : State k) : Machine (State k) (Op k) where
  init := s₀
  step s op := (op.step sb dev s).toOption

/-! ### Every operation keeps the state sound -/

/-- All inodes have their blocks. -/
abbrev Every : Nat → Prop := fun _ => True

theorem locked_sound {α : Type} {f : Disk → Nat → Dinode → Except Panic (α × Dinode × Disk)}
    (h : Sound sb Every s) (href : 0 < (s.icache i).ref)
    (hf : (dinode sb s.disk (s.icache i).inum).type ≠ 0 →
      Full s.disk (dinode sb s.disk (s.icache i).inum) →
      Outcome (f s.disk (s.icache i).inum (dinode sb s.disk (s.icache i).inum))
        (fun r => Rewrite sb (others sb s.disk (s.icache i).inum) s.disk (s.icache i).inum
          r.2.2 r.2.1 ∧ r.2.1.type ≠ 0 ∧ Full r.2.2 r.2.1)
        fun e => e = .outOfBlocks) :
    Outcome ((locked sb s i f).map Prod.snd) (Sound sb Every) fun e => e ≠ .freeingFree := by
  have hlt := h.inum_lt i href
  refine Outcome.map (Outcome.mono (locked_spec (P := fun _ _ _ => True) (Q := (· = .outOfBlocks)) h
    href fun htype => ?_) (fun r hr => hr.1) fun e he => ?_)
  · exact (hf htype (h.full _ hlt trivial htype)).mono
      (fun r hr => ⟨hr.1, hr.2.1, fun _ => hr.2.2, trivial⟩) fun _ he => he
  · rcases he with ⟨rfl, -⟩ | rfl
    · exact Panic.noConfusion
    · exact Panic.noConfusion

theorem writeLocked_sound {src : Nat → UInt8} {off n : UInt32} (h : Sound sb Every s)
    (href : 0 < (s.icache i).ref) :
    Outcome ((writeLocked sb dev s i src off n).map Prod.snd) (Sound sb Every)
      fun e => e ≠ .freeingFree := by
  have hlt := h.inum_lt i href
  refine locked_sound h href fun htype hfull => ?_
  by_cases hdev : (dinode sb s.disk (s.icache i).inum).type = T_DEV
  · rw [writei, if_pos hdev]
    cases dev.write (dinode sb s.disk (s.icache i).inum).major with
    | none => exact ⟨h.same hlt, htype, hfull⟩
    | some write => exact ⟨h.same hlt, htype, hfull⟩
  · refine (writei_spec hlt rfl (h.acc_inode hlt) htype hdev hfull).mono (fun r hr => ?_)
      fun e he => he.1
    exact ⟨hr.1, hr.2.1 ▸ htype, hr.2.2.1⟩

theorem readLocked_sound {off n : UInt32} (h : Sound sb Every s) (href : 0 < (s.icache i).ref) :
    Outcome ((readLocked sb dev s i off n).map Prod.snd) (Sound sb Every)
      fun e => e ≠ .freeingFree := by
  have hlt := h.inum_lt i href
  refine locked_sound h href fun htype hfull => Outcome.map ?_
  by_cases hdev : (dinode sb s.disk (s.icache i).inum).type = T_DEV
  · rw [readi, if_pos hdev]
    cases dev.read (dinode sb s.disk (s.icache i).inum).major with
    | none => exact ⟨h.same hlt, htype, hfull⟩
    | some read => exact ⟨h.same hlt, htype, hfull⟩
  · rw [readi_spec hdev hfull]
    split
    · exact ⟨h.same hlt, htype, hfull⟩
    · exact ⟨h.same hlt, htype, hfull⟩

theorem updateLocked_sound {major minor nlink : UInt16} (h : Sound sb Every s)
    (href : 0 < (s.icache i).ref) :
    Outcome ((updateLocked sb s i major minor nlink).map Prod.snd) (Sound sb Every)
      fun e => e ≠ .freeingFree := by
  have hlt := h.inum_lt i href
  refine locked_sound h href fun htype hfull => ?_
  have hacc := h.acc_inode hlt
  generalize hd : dinode sb s.disk (s.icache i).inum = d at *
  obtain ⟨e, he⟩ : ∃ e : Dinode, { d with major, minor, nlink } = e := ⟨_, rfl⟩
  have haddrs : e.addrs = d.addrs := by rw [← he]
  have htype' : e.type = d.type := by rw [← he]
  have hsize : e.size = d.size := by rw [← he]
  have hslots := slots_congr htype' fun j _ => slot_iupdate (i := j) hlt hacc htype haddrs
  dsimp only
  rw [he]
  refine ⟨rewrite_iupdate hlt (fun _ _ => rfl) (fun _ _ => rfl) hslots hacc, htype' ▸ htype,
    fun bn hbn => ?_⟩
  rw [hsize] at hbn
  exact (look_iupdate hlt hacc htype haddrs).trans_ne (hfull bn hbn)

theorem step_sound (dev : Devsw) {op : Op k} (h : Sound sb Every s) (href : op.Referenced s) :
    Outcome (op.step sb dev s) (Sound sb Every) fun e => e ≠ .freeingFree := by
  cases op with
  | ialloc type => exact Outcome.map (ialloc_spec h type)
  | writei i src off n => exact writeLocked_sound h href
  | readi i off n => exact readLocked_sound h href
  | iupdate i major minor nlink => exact updateLocked_sound h href
  | idup i => exact idup_spec h href
  | iput i =>
      obtain ⟨t, hok, hsound⟩ := iput_spec h href
      rw [Op.step, hok]
      exact hsound

/-- The free map marks the metadata, and the blocks that one slot names. -/
def Marked (sb : Superblock) (disk : Disk) : Prop :=
  ∀ b, b < sb.size → (used sb disk b = true ↔ b < sb.nmeta ∨ (named sb disk).count b = 1)

/-- In every run from a sound state, the map marks the metadata and the blocks that
are named, each named once; what the cache holds in use is on the disk; and no
free block is freed. -/
theorem accounting {ops : List (Op k)} (h : Sound sb Every s₀)
    (hrefs : (fs sb dev s₀).Meets (fun s op => op.Referenced s) s₀ ops)
    (hexec : (fs sb dev s₀).exec s₀ ops = some s) :
    (named sb s.disk).Nodup ∧
    Marked sb s.disk ∧
    (∀ i, 0 < (s.icache i).ref → (s.icache i).valid = true →
      (s.icache i).din = dinode sb s.disk (s.icache i).inum) ∧
    ∀ op : Op k, op.Referenced s → op.step sb dev s ≠ .error .freeingFree := by
  have hsound : Sound sb Every s := by
    refine (fs sb dev s₀).exec_induction (fun t op u ht href hstep => ?_) h hrefs hexec
    have hspec := step_sound dev ht href
    simp only [fs] at hstep
    cases hop : op.step sb dev t with
    | error e =>
        rw [hop] at hstep
        cases hstep
    | ok v =>
        rw [hop] at hspec hstep
        obtain rfl := Option.some.inj hstep
        exact hspec
  refine ⟨hsound.acc.nodup, fun b hb => ?_, fun i href hvalid => (hsound.cached i href hvalid).1,
    fun op href herror => ?_⟩
  · rw [hsound.acc.used_iff b hb]
    refine or_congr_right ⟨Multiset.count_eq_one_of_mem hsound.acc.nodup, fun h => ?_⟩
    exact Multiset.one_le_count_iff_mem.mp h.ge
  · have hspec := step_sound dev hsound href
    rw [herror] at hspec
    exact hspec rfl

/-! ### A small disk -/

/-- Six blocks and three inodes; the blocks below 4 are metadata. -/
def smallSb : Superblock := ⟨6, 3, 2, 3, 4, by decide, by decide, by decide⟩

/-- A disk without files. -/
def emptyDisk : Disk := fun b i => if b = 3 ∧ i = 0 then 15 else 0

/-- No device has a driver. -/
def noDev : Devsw := ⟨fun _ => none, fun _ => none⟩

/-- Nothing is open. -/
def emptyState : State 1 := ⟨emptyDisk, fun _ => ⟨0, 0, false, Dinode.zero⟩⟩

theorem used_emptyDisk : ∀ b, b < 6 → used smallSb emptyDisk b = decide (b < 4) := by decide

theorem type_emptyDisk : ∀ i, i < 3 → (dinode smallSb emptyDisk i).type = 0 := by decide

/-- An account without owners. -/
theorem acc_of_slots (hused : ∀ b, b < 6 → used smallSb disk b = decide (b < 4))
    (hslots : ∀ i, i < 3 → slots disk (dinode smallSb disk i) = 0) :
    Acc smallSb disk (named smallSb disk) := by
  have hnamed : named smallSb disk = 0 := by
    refine Multiset.eq_zero_of_forall_notMem fun b hb => ?_
    obtain ⟨i, hi, hmem⟩ := Multiset.mem_bind.mp hb
    rw [hslots i (Multiset.mem_range.mp hi)] at hmem
    exact Multiset.notMem_zero b hmem
  rw [hnamed]
  refine ⟨Multiset.nodup_zero, fun b hb => absurd hb (Multiset.notMem_zero b), fun b hb => ?_⟩
  rw [hused b hb, decide_eq_true_iff]
  exact ⟨.inl, fun h => h.resolve_right (Multiset.notMem_zero b)⟩

theorem emptyState_sound : Sound smallSb Every emptyState where
  acc := acc_of_slots used_emptyDisk fun i hi => slots_of_free (type_emptyDisk i hi)
  full i hi _ htype := absurd (type_emptyDisk i hi) htype
  inum_lt _ hi := absurd hi (Nat.lt_irrefl 0)
  cached _ hi := absurd hi (Nat.lt_irrefl 0)
  unique _ _ hi := absurd hi (Nat.lt_irrefl 0)

/-- A file is made and three bytes are written to it, in the one block that it names. -/
theorem accounting_small : ∃ s,
    (fs smallSb noDev emptyState).exec emptyState [.ialloc 2, .writei 0 (fun _ => 1) 0 3] =
      some s ∧
    named smallSb s.disk = {4} ∧
    (named smallSb s.disk).Nodup ∧
    Marked smallSb s.disk ∧
    (∀ i, 0 < (s.icache i).ref → (s.icache i).valid = true →
      (s.icache i).din = dinode smallSb s.disk (s.icache i).inum) ∧
    ∀ op : Op 1, op.Referenced s → op.step smallSb noDev s ≠ .error .freeingFree := by
  have hrun : ((fs smallSb noDev emptyState).execWhile (fun s op => op.Referenced s) emptyState
      [.ialloc 2, .writei 0 (fun _ => 1) 0 3]).map (fun s => named smallSb s.disk) = some {4} := by
    decide +kernel
  obtain ⟨s, hs, hnamed⟩ := Option.map_eq_some_iff.mp hrun
  obtain ⟨hrefs, hexec⟩ := (fs smallSb noDev emptyState).meets_of_execWhile hs
  exact ⟨s, hexec, hnamed, accounting emptyState_sound hrefs hexec⟩

/-! ### What is not promised -/

/-- Every copy of an inode in memory, in use or not, is what is on the disk. -/
def Cached (sb : Superblock) (s : State k) : Prop :=
  ∀ i, (s.icache i).valid = true → (s.icache i).din = dinode sb s.disk (s.icache i).inum

/-- A file of no bytes that has block 4. -/
def oneBlock : Dinode := { Dinode.zero with type := 2 }.setAddr 0 4

/-- Two files that name block 4, which is free. The first is open and has no links. -/
def twiceNamed : State 1 :=
  ⟨iupdate smallSb (iupdate smallSb emptyDisk 1 oneBlock) 2 oneBlock,
    fun _ => ⟨1, 1, true, oneBlock⟩⟩

theorem slots_oneBlock (disk : Disk) : slots disk oneBlock = {4} := by
  have hzero : ∀ j, ({ Dinode.zero with type := 2 } : Dinode).addr j = 0 := Dinode.addr_zero
  have hne : ∀ j, j ≠ 0 → oneBlock.addr j = 0 := fun j hj =>
    (Dinode.addr_setAddr_of_ne _ hj 4).trans (hzero j)
  have hself : slot disk oneBlock 0 = 4 := by
    rw [slot_addr (by decide)]
    exact Dinode.addr_setAddr _ (by decide) 4
  have hslot : ∀ j, j ≠ 0 → slot disk oneBlock j = 0 := fun j hj => by
    rw [slot, hne j hj, if_pos (hne NDIRECT (by decide)), ite_self]
  have hheld : held (fun j => ptr (slot disk oneBlock j)) NSLOT =
      held (fun _ => none) NSLOT + one (ptr (slot disk oneBlock 0)) :=
    held_fill (by decide) (fun j _ hj => by rw [hslot j hj, ptr_zero]) rfl
  rw [slots_of_ne (by decide), hheld, hself, held_eq_zero fun _ _ => rfl, zero_add]
  rfl

theorem dinode_twiceNamed : ∀ i, i < 3 →
    dinode smallSb twiceNamed.disk i = if i = 0 then dinode smallSb emptyDisk 0 else oneBlock := by
  intro i hi
  rw [twiceNamed]
  dsimp only
  by_cases h2 : i = 2
  · rw [h2, dinode_iupdate_self]
    rfl
  · by_cases h1 : i = 1
    · rw [h1, dinode_iupdate_of_ne (by decide), dinode_iupdate_self]
      rfl
    · obtain rfl : i = 0 := by omega
      rw [dinode_iupdate_of_ne (by decide), dinode_iupdate_of_ne (by decide)]
      rfl

theorem named_twiceNamed : named smallSb twiceNamed.disk = {4, 4} := by
  have hrange : Multiset.range smallSb.ninodes = 0 ::ₘ 1 ::ₘ {2} := rfl
  rw [named, hrange, Multiset.cons_bind, Multiset.cons_bind, Multiset.singleton_bind,
    dinode_twiceNamed 0 (by decide), dinode_twiceNamed 1 (by decide),
    dinode_twiceNamed 2 (by decide), if_pos rfl, if_neg (by decide), if_neg (by decide),
    slots_oneBlock, slots_of_free (type_emptyDisk 0 (by decide))]
  rfl

/-- An open file without blocks, and an old copy of it in an entry that is not in use. -/
def staleEntry : State 2 :=
  ⟨iupdate smallSb emptyDisk 1 { Dinode.zero with type := 2, nlink := 1 }, fun i =>
    ⟨1, if i.val = 0 then 1 else 0, true, { Dinode.zero with type := 2, nlink := 1 }⟩⟩

theorem used_twiceNamed :
    ∀ b, b < 6 → used smallSb twiceNamed.disk b = decide (b < 4) := by decide

theorem marked_twiceNamed : Marked smallSb twiceNamed.disk := by
  intro b hb
  have hcount : Multiset.count b {4, 4} ≠ 1 := by
    by_cases h4 : b = 4
    · rw [h4]
      decide
    · rw [Multiset.count_eq_zero_of_notMem (by simp [h4])]
      exact Nat.zero_ne_one
  rw [used_twiceNamed b hb, named_twiceNamed, decide_eq_true_iff]
  exact ⟨.inl, fun h => h.resolve_right hcount⟩

theorem dinode_staleEntry : ∀ i, i < 3 → dinode smallSb staleEntry.disk i =
    if i = 1 then { Dinode.zero with type := 2, nlink := 1 } else dinode smallSb emptyDisk i := by
  intro i hi
  rw [staleEntry]
  dsimp only
  by_cases h1 : i = 1
  · rw [h1, dinode_iupdate_self, if_pos rfl]
  · rw [dinode_iupdate_of_ne h1, if_neg h1]

theorem staleEntry_sound : Sound smallSb Every staleEntry where
  acc := by
    refine acc_of_slots (by decide) fun i hi => ?_
    rw [dinode_staleEntry i hi]
    split
    · exact slots_eq_zero fun j _ => Dinode.addr_zero j
    · exact slots_of_free (type_emptyDisk i hi)
  full i hi _ htype bn hbn := by
    rw [dinode_staleEntry i hi] at htype hbn
    split at htype
    · rw [if_pos ‹_›] at hbn
      exact absurd hbn (Nat.not_lt_zero _)
    · exact absurd (type_emptyDisk i hi) htype
  inum_lt _ _ := show 1 < 3 by decide
  cached _ _ _ := by
    have hdin := dinode_staleEntry 1 (by decide)
    rw [if_pos rfl] at hdin
    have htype := congrArg Dinode.type hdin
    exact ⟨hdin.symm, fun h => absurd (htype.symm.trans h) (by decide)⟩
  unique := by decide

/-- A map that is right but for a block named twice lets `iput` free a free block; and
a copy that is not in use falls behind its inode. -/
theorem accounting_literal_fails :
    (Marked smallSb twiceNamed.disk ∧
      (∀ i, i < smallSb.ninodes → (dinode smallSb twiceNamed.disk i).type ≠ 0 →
        Full twiceNamed.disk (dinode smallSb twiceNamed.disk i)) ∧
      Cached smallSb twiceNamed ∧ (Op.iput 0).Referenced twiceNamed ∧
      (Op.iput 0).step smallSb noDev twiceNamed = .error .freeingFree) ∧
    (Sound smallSb Every staleEntry ∧ Cached smallSb staleEntry ∧
      (Op.iupdate 0 0 0 2).Referenced staleEntry ∧
      ∃ t, (Op.iupdate 0 0 0 2).step smallSb noDev staleEntry = .ok t ∧ ¬ Cached smallSb t) := by
  refine ⟨⟨marked_twiceNamed, fun i hi htype bn hbn => ?_, fun i _ => ?_, Nat.one_pos, rfl⟩,
    staleEntry_sound, fun i _ => ?_, Nat.one_pos, _, rfl, fun hcached => ?_⟩
  · rw [dinode_twiceNamed i hi] at htype hbn
    split at htype
    · exact absurd (type_emptyDisk 0 (by decide)) htype
    · rw [if_neg ‹_›] at hbn
      exact absurd hbn (Nat.not_lt_zero _)
  · exact (dinode_twiceNamed 1 (by decide)).symm
  · exact (dinode_staleEntry 1 (by decide)).symm
  · have hnlink := congrArg Dinode.nlink (hcached 1 rfl)
    have hdisk : dinode smallSb (iupdate smallSb staleEntry.disk 1
        { Dinode.zero with type := 2, nlink := 2 }) 1 =
        { Dinode.zero with type := 2, nlink := 2 } := dinode_iupdate_self 1 _
    exact absurd (hnlink.trans (congrArg Dinode.nlink hdisk)) (by decide)

end OsCourse.Fs
