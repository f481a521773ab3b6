import OsCourse.Fs.Files
import OsCourse.Fs.Trunc

/-!
# OsCourse.Fs.System

The file system as a whole. In a `Sound` state the free map accounts for the blocks
of all inodes (`named`), and the inode cache agrees with the disk. Each operation
changes one inode: what is proved of the rest (`Rewrite`) is proved once, and every
operation keeps the state sound.
-/

namespace OsCourse.Fs

open Lib

variable {k : Nat} {sb : Superblock} {F : Nat → Prop} {disk disk' : Disk} {d d' : Dinode}
  {inum : Nat}

/-! ### The blocks of all inodes -/

/-- The blocks that the slots of all inodes name. -/
def named (sb : Superblock) (disk : Disk) : Multiset Nat :=
  (Multiset.range sb.ninodes).bind fun i => slots disk (dinode sb disk i)

/-- The blocks of the inodes other than `inum`. -/
def others (sb : Superblock) (disk : Disk) (inum : Nat) : Multiset Nat :=
  ((Multiset.range sb.ninodes).erase inum).bind fun i => slots disk (dinode sb disk i)

theorem named_eq (h : inum < sb.ninodes) :
    named sb disk = slots disk (dinode sb disk inum) + others sb disk inum := by
  rw [named, ← Multiset.cons_erase (Multiset.mem_range.mpr h), Multiset.cons_bind, others]

theorem mem_others {i b : Nat} (hi : i < sb.ninodes) (hne : i ≠ inum)
    (hb : b ∈ slots disk (dinode sb disk i)) : b ∈ others sb disk inum :=
  Multiset.mem_bind.mpr
    ⟨i, (Multiset.mem_erase_of_ne hne).mpr (Multiset.mem_range.mpr hi), hb⟩

theorem slots_eq_zero (h : ∀ i, i < 13 → d.addr i = 0) : slots disk d = 0 := by
  rw [slots]
  split
  · rfl
  · refine held_eq_zero fun i _ => ?_
    rw [slot]
    split
    · next hi => rw [h i hi, ptr_zero]
    · rw [if_pos (h NDIRECT (by decide)), ptr_zero]

theorem slots_of_free (h : d.type = 0) : slots disk d = 0 := if_pos h

namespace Rewrite

/-- The slots of the other inodes. -/
theorem slot {i j : Nat} (h : Rewrite sb (others sb disk inum) disk inum disk' d')
    (hi : i < sb.ninodes) (hne : i ≠ inum) (htype : (dinode sb disk i).type ≠ 0) :
    Fs.slot disk' (dinode sb disk' i) j = Fs.slot disk (dinode sb disk i) j := by
  rw [h.other i hi hne]
  exact slot_congr (fun _ => rfl) rfl fun hind =>
    h.rest _ (mem_others hi hne (indirect_mem htype hind))

theorem look {i bn : Nat} (h : Rewrite sb (others sb disk inum) disk inum disk' d')
    (hi : i < sb.ninodes) (hne : i ≠ inum) (htype : (dinode sb disk i).type ≠ 0) :
    Fs.look disk' (dinode sb disk' i) bn = Fs.look disk (dinode sb disk i) bn := by
  rw [Fs.look, Fs.look, h.slot hi hne htype]

/-- No byte of another inode changes. -/
theorem contents {i : Nat} (h : Rewrite sb (others sb disk inum) disk inum disk' d')
    (hi : i < sb.ninodes) (hne : i ≠ inum) (htype : (dinode sb disk i).type ≠ 0) :
    Fs.contents disk' (dinode sb disk' i) = Fs.contents disk (dinode sb disk i) := by
  have hbyte : byteOf disk' (dinode sb disk' i) = byteOf disk (dinode sb disk i) := by
    funext p
    refine Step.byteOf_congr (h.look hi hne htype) fun hlook => ?_
    have hlt := lt_of_look hlook
    rw [look_eq hlt] at hlook ⊢
    exact h.rest _ (mem_others hi hne (mem_slots htype (slotOf_lt hlt) hlook))
  rw [Fs.contents, Fs.contents, hbyte, h.other i hi hne]

theorem others_eq (h : Rewrite sb (others sb disk inum) disk inum disk' d') :
    others sb disk' inum = others sb disk inum := by
  refine Multiset.bind_congr fun i hi => ?_
  have hmem := (Multiset.nodup_range _).mem_erase_iff.mp hi
  have hlt := Multiset.mem_range.mp hmem.2
  by_cases htype : (dinode sb disk i).type = 0
  · rw [h.other i hlt hmem.1, slots_of_free htype, slots_of_free htype]
  · exact slots_congr (congrArg Dinode.type (h.other i hlt hmem.1)) fun j _ =>
      h.slot hlt hmem.1 htype

theorem acc_named (h : Rewrite sb (others sb disk inum) disk inum disk' d')
    (hinum : inum < sb.ninodes) : Acc sb disk' (named sb disk') := by
  rw [named_eq hinum, h.self, h.others_eq]
  exact h.acc

theorem trans {R : Multiset Nat} {disk₁ : Disk} {d₁ : Dinode}
    (h₁ : Rewrite sb R disk inum disk₁ d₁) (h₂ : Rewrite sb R disk₁ inum disk' d') :
    Rewrite sb R disk inum disk' d' where
  self := h₂.self
  other i hi hne := (h₂.other i hi hne).trans (h₁.other i hi hne)
  rest b hb := (h₂.rest b hb).trans (h₁.rest b hb)
  acc := h₂.acc

end Rewrite

/-! ### Sound states -/

/-- The free map accounts for the blocks of all inodes, the files in `F` have all
their blocks, and the entries of the inode cache that are in use agree with the
disk, one entry for each inode. -/
structure Sound (sb : Superblock) (F : Nat → Prop) (s : State k) : Prop where
  acc : Acc sb s.disk (named sb s.disk)
  full : ∀ i, i < sb.ninodes → F i → (dinode sb s.disk i).type ≠ 0 →
    Full s.disk (dinode sb s.disk i)
  inum_lt : ∀ i, 0 < (s.icache i).ref → (s.icache i).inum < sb.ninodes
  cached : ∀ i, 0 < (s.icache i).ref → (s.icache i).valid = true →
    (s.icache i).din = dinode sb s.disk (s.icache i).inum ∧
      (dinode sb s.disk (s.icache i).inum).type ≠ 0
  unique : ∀ i j, 0 < (s.icache i).ref → 0 < (s.icache j).ref →
    (s.icache i).inum = (s.icache j).inum → i = j

namespace Sound

variable {s : State k} {i : Fin k}

/-- The account, with the blocks of one inode apart. -/
theorem acc_inode (h : Sound sb F s) (hinum : inum < sb.ninodes) :
    Acc sb s.disk (slots s.disk (dinode sb s.disk inum) + others sb s.disk inum) := by
  rw [← named_eq hinum]
  exact h.acc

/-- Nothing happens to the inode. -/
theorem same (h : Sound sb F s) (hinum : inum < sb.ninodes) :
    Rewrite sb (others sb s.disk inum) s.disk inum s.disk (dinode sb s.disk inum) :=
  (Step.refl (W := fun _ => False) (h.acc_inode hinum)).rewrite hinum rfl

/-- The files in `F` keep all their blocks. -/
theorem full_rewrite (h : Sound sb F s)
    (hrw : Rewrite sb (others sb s.disk inum) s.disk inum disk' d')
    (hfull : F inum → d'.type ≠ 0 → Full disk' d') {j : Nat} (hj : j < sb.ninodes) (hF : F j)
    (htype : (dinode sb disk' j).type ≠ 0) : Full disk' (dinode sb disk' j) := by
  by_cases hne : j = inum
  · subst hne
    rw [hrw.self] at htype ⊢
    exact hfull hF htype
  · rw [hrw.other j hj hne] at htype
    intro bn hbn
    rw [hrw.look hj hne htype]
    rw [hrw.other j hj hne] at hbn
    exact h.full j hj hF htype bn hbn

/-- The inode of an entry in use changes, and the entry with it. -/
theorem rewrite (h : Sound sb F s) (href : 0 < (s.icache i).ref) {e : Inode}
    (hrw : Rewrite sb (others sb s.disk (s.icache i).inum) s.disk (s.icache i).inum disk' d')
    (hfull : F (s.icache i).inum → d'.type ≠ 0 → Full disk' d')
    (hinum : e.inum = (s.icache i).inum)
    (hcached : 0 < e.ref → e.valid = true → e.din = d' ∧ d'.type ≠ 0) :
    Sound sb F ⟨disk', Function.update s.icache i e⟩ := by
  have hentry : ∀ j, (Function.update s.icache i e j).inum = (s.icache j).inum ∧
      (0 < (Function.update s.icache i e j).ref → 0 < (s.icache j).ref) := by
    intro j
    by_cases hji : j = i
    · subst hji
      rw [Function.update_self]
      exact ⟨hinum, fun _ => href⟩
    · rw [Function.update_of_ne hji]
      exact ⟨rfl, id⟩
  refine ⟨hrw.acc_named (h.inum_lt i href), fun j hj hF => h.full_rewrite hrw hfull hj hF,
    fun j hj => ?_, fun j hj hvalid => ?_, fun j l hj hl heq => ?_⟩
  · rw [(hentry j).1]
    exact h.inum_lt j ((hentry j).2 hj)
  · dsimp only at hj hvalid ⊢
    rw [(hentry j).1]
    by_cases hji : j = i
    · subst hji
      rw [Function.update_self] at hj hvalid ⊢
      rw [hrw.self]
      exact hcached hj hvalid
    · have hne : (s.icache j).inum ≠ (s.icache i).inum := fun heq =>
        hji (h.unique j i ((hentry j).2 hj) href heq)
      rw [Function.update_of_ne hji] at hj hvalid ⊢
      rw [hrw.other _ (h.inum_lt j hj) hne]
      exact h.cached j hj hvalid
  · rw [(hentry j).1, (hentry l).1] at heq
    exact h.unique j l ((hentry j).2 hj) ((hentry l).2 hl) heq

/-- A free inode changes; no entry holds a copy of it. -/
theorem rewrite_free (h : Sound sb F s) (hinum : inum < sb.ninodes)
    (hfree : (dinode sb s.disk inum).type = 0)
    (hrw : Rewrite sb (others sb s.disk inum) s.disk inum disk' d')
    (hfull : F inum → d'.type ≠ 0 → Full disk' d') : Sound sb F { s with disk := disk' } where
  acc := hrw.acc_named hinum
  full j hj hF := h.full_rewrite hrw hfull hj hF
  inum_lt := h.inum_lt
  cached j hj hvalid := by
    have hcached := h.cached j hj hvalid
    have hne : (s.icache j).inum ≠ inum := by
      rintro rfl
      exact hcached.2 hfree
    rw [hrw.other _ (h.inum_lt j hj) hne]
    exact hcached
  unique := h.unique

/-- An entry is given to an inode that has none. -/
theorem fresh (h : Sound sb F s) (hinum : inum < sb.ninodes)
    (hnone : ∀ j, ¬ (0 < (s.icache j).ref ∧ (s.icache j).inum = inum)) {e : Inode}
    (he : e.inum = inum) (hvalid : e.valid = false) :
    Sound sb F { s with icache := Function.update s.icache i e } := by
  have hold : ∀ j, j ≠ i → Function.update s.icache i e j = s.icache j := fun j hji =>
    Function.update_of_ne hji _ _
  have hnew : Function.update s.icache i e i = e := Function.update_self ..
  refine ⟨h.acc, h.full, fun j hj => ?_, fun j hj hv => ?_, fun j l hj hl heq => ?_⟩
  · dsimp only at hj ⊢
    by_cases hji : j = i
    · rw [hji, hnew, he]
      exact hinum
    · rw [hold j hji] at hj ⊢
      exact h.inum_lt j hj
  · dsimp only at hj hv ⊢
    by_cases hji : j = i
    · rw [hji, hnew, hvalid] at hv
      cases hv
    · rw [hold j hji] at hj hv ⊢
      exact h.cached j hj hv
  · dsimp only at hj hl heq
    by_cases hji : j = i
    · by_cases hli : l = i
      · rw [hji, hli]
      · rw [hji, hnew, he, hold l hli] at heq
        rw [hold l hli] at hl
        exact absurd ⟨hl, heq.symm⟩ (hnone l)
    · rw [hold j hji] at hj heq
      by_cases hli : l = i
      · rw [hli, hnew, he] at heq
        exact absurd ⟨hj, heq⟩ (hnone j)
      · rw [hold l hli] at hl heq
        exact h.unique j l hj hl heq

end Sound

/-! ### The operations -/

variable {s : State k} {i : Fin k}

/-- `iget` finds the entry of the inode, or makes one. -/
theorem iget_spec (h : Sound sb F s) (hinum : inum < sb.ninodes) :
    Outcome (iget s inum) (fun r => Sound sb F r.2) fun e => e = .noEntries := by
  rw [iget]
  cases hfind : (List.finRange k).find? fun i =>
      0 < (s.icache i).ref ∧ (s.icache i).inum = inum with
  | some i =>
      have hi := List.find?_some hfind
      rw [decide_eq_true_iff] at hi
      have hlt := h.inum_lt i hi.1
      exact h.rewrite hi.1 (h.same hlt) (fun hF htype => h.full _ hlt hF htype) rfl
        fun _ hvalid => h.cached i hi.1 hvalid
  | none =>
      have hnone := List.find?_eq_none.mp hfind
      simp only [decide_eq_true_iff] at hnone
      dsimp only
      cases hempty : (List.finRange k).find? fun i => (s.icache i).ref = 0 with
      | none => rfl
      | some i =>
          exact h.fresh hinum (fun j => hnone j (List.mem_finRange j)) rfl rfl

theorem ialloc_spec (h : Sound sb F s) (type : UInt16) :
    Outcome (ialloc sb s type) (fun r => Sound sb F r.2) fun e => e ≠ .freeingFree := by
  rw [ialloc]
  cases hfind : (List.range' 1 (sb.ninodes - 1)).find? fun inum =>
      (dinode sb s.disk inum).type = 0 with
  | none => exact fun he => Panic.noConfusion he
  | some inum =>
      have hfree := List.find?_some hfind
      rw [decide_eq_true_iff] at hfree
      have hmem := List.mem_range'_1.mp (List.mem_of_find?_eq_some hfind)
      have hinum : inum < sb.ninodes := by omega
      have hslots : slots (iupdate sb s.disk inum { Dinode.zero with type })
          { Dinode.zero with type } = slots s.disk (dinode sb s.disk inum) := by
        rw [slots_of_free hfree]
        exact slots_eq_zero fun j _ => Dinode.addr_zero j
      have hrw := rewrite_iupdate hinum (fun _ _ => rfl) (fun _ _ => rfl) hslots
        (h.acc_inode hinum)
      have hsound := h.rewrite_free hinum hfree hrw fun _ _ bn hbn => absurd hbn (Nat.not_lt_zero _)
      have hget := iget_spec hsound hinum
      dsimp only
      revert hget
      cases iget { s with disk := iupdate sb s.disk inum { Dinode.zero with type } } inum with
      | error e =>
          rintro rfl he
          cases he
      | ok r => exact id

theorem idup_spec (h : Sound sb F s) (href : 0 < (s.icache i).ref) : Sound sb F (idup s i) := by
  have hlt := h.inum_lt i href
  exact h.rewrite href (h.same hlt) (fun hF htype => h.full _ hlt hF htype) rfl
    fun _ hvalid => h.cached i href hvalid

/-- `ilock` reads the inode, if it is not in memory yet. -/
theorem ilock_spec (h : Sound sb F s) (href : 0 < (s.icache i).ref) :
    Outcome (ilock sb s i)
      (fun t => t.disk = s.disk ∧ t.icache = Function.update s.icache i
        { s.icache i with din := dinode sb s.disk (s.icache i).inum, valid := true } ∧
        (dinode sb s.disk (s.icache i).inum).type ≠ 0)
      fun e => e = .noType ∧ (dinode sb s.disk (s.icache i).inum).type = 0 := by
  rw [ilock, if_neg (Nat.not_lt_of_le href)]
  by_cases hvalid : (s.icache i).valid = true
  · have hcached := h.cached i href hvalid
    rw [if_pos hvalid]
    refine ⟨rfl, ?_, hcached.2⟩
    rw [← hcached.1, ← hvalid]
    exact (Function.update_eq_self i s.icache).symm
  · rw [if_neg hvalid]
    by_cases htype : (dinode sb s.disk (s.icache i).inum).type = 0
    · rw [if_pos htype]
      exact ⟨rfl, htype⟩
    · rw [if_neg htype]
      exact ⟨rfl, rfl, htype⟩

/-- A call on a locked inode that changes no other inode. -/
theorem locked_spec {α : Type} {f : Disk → Nat → Dinode → Except Panic (α × Dinode × Disk)}
    {P : α → Dinode → Disk → Prop} {Q : Panic → Prop} (h : Sound sb F s)
    (href : 0 < (s.icache i).ref)
    (hf : (dinode sb s.disk (s.icache i).inum).type ≠ 0 →
      Outcome (f s.disk (s.icache i).inum (dinode sb s.disk (s.icache i).inum))
        (fun r => Rewrite sb (others sb s.disk (s.icache i).inum) s.disk (s.icache i).inum
            r.2.2 r.2.1 ∧ r.2.1.type ≠ 0 ∧ (F (s.icache i).inum → Full r.2.2 r.2.1) ∧
            P r.1 r.2.1 r.2.2)
        Q) :
    Outcome (locked sb s i f)
      (fun r => Sound sb F r.2 ∧
        Rewrite sb (others sb s.disk (s.icache i).inum) s.disk (s.icache i).inum r.2.disk
          (dinode sb r.2.disk (s.icache i).inum) ∧
        (∀ j, (r.2.icache j).inum = (s.icache j).inum ∧ (r.2.icache j).ref = (s.icache j).ref) ∧
        P r.1 (dinode sb r.2.disk (s.icache i).inum) r.2.disk)
      fun e => (e = .noType ∧ (dinode sb s.disk (s.icache i).inum).type = 0) ∨ Q e := by
  have hlock := ilock_spec h href
  rw [locked]
  cases hl : ilock sb s i with
  | error e =>
      rw [hl] at hlock
      exact .inl hlock
  | ok t =>
      rw [hl] at hlock
      obtain ⟨hdisk, hicache, htype⟩ := hlock
      have hcall := hf htype
      dsimp only
      rw [hdisk, hicache, Function.update_self]
      dsimp only
      revert hcall
      cases f s.disk (s.icache i).inum (dinode sb s.disk (s.icache i).inum) with
      | error e => exact .inr
      | ok r =>
          obtain ⟨a, d', disk'⟩ := r
          rintro ⟨hrw, htype', hfull, hP⟩
          dsimp only at hrw htype' hfull hP ⊢
          rw [Function.update_idem]
          refine ⟨h.rewrite href hrw (fun hF _ => hfull hF) rfl fun _ _ => ⟨rfl, htype'⟩, ?_,
            fun j => ?_, ?_⟩
          · rw [hrw.self]
            exact hrw
          · by_cases hji : j = i
            · subst hji
              dsimp only
              rw [Function.update_self]
              exact ⟨rfl, rfl⟩
            · dsimp only
              rw [Function.update_of_ne hji]
              exact ⟨rfl, rfl⟩
          · rw [hrw.self]
            exact hP

/-- `iput` of the last reference to an inode without links frees it; it never frees a
free block. -/
theorem iput_spec (h : Sound sb F s) (href : 0 < (s.icache i).ref) :
    ∃ t, iput sb s i = .ok t ∧ Sound sb F t := by
  have hlt := h.inum_lt i href
  by_cases hlast : (s.icache i).valid = true ∧ (s.icache i).din.nlink = 0 ∧ (s.icache i).ref = 1
  · obtain ⟨hdin, htype⟩ := h.cached i href hlast.1
    obtain ⟨disk', d', hok, hacc, hdata, hzero⟩ := itrunc_spec (s.icache i).inum htype
      (h.acc_inode hlt)
    have hnone : slots disk' d' = 0 := slots_eq_zero hzero
    have hrw₁ : Rewrite sb (others sb s.disk (s.icache i).inum) s.disk (s.icache i).inum
        (iupdate sb disk' (s.icache i).inum d') d' := by
      refine rewrite_iupdate (d := d') hlt (fun b hb => hdata b (.inl hb)) (fun b hb => ?_) ?_ ?_
      · exact hdata b (.inr (hacc.range b hb).1)
      · rw [slots_eq_zero hzero, hnone]
      · rw [hnone, zero_add]
        exact hacc
    have hrw₂ : Rewrite sb (others sb s.disk (s.icache i).inum)
        (iupdate sb disk' (s.icache i).inum d') (s.icache i).inum
        (iupdate sb (iupdate sb disk' (s.icache i).inum d') (s.icache i).inum
          { d' with type := 0 }) { d' with type := 0 } :=
      rewrite_iupdate hlt (fun _ _ => rfl) (fun _ _ => rfl)
        (by rw [slots_of_free rfl, slots_eq_zero hzero]) hrw₁.acc
    have hsound := h.rewrite (e := { s.icache i with
        din := { d' with type := 0 }, valid := false, ref := (s.icache i).ref - 1 })
      href (hrw₁.trans hrw₂) (fun _ hne => absurd rfl hne) rfl fun _ hvalid => by cases hvalid
    refine ⟨_, ?_, hsound⟩
    rw [iput, if_pos hlast, hdin, hok]
  · refine ⟨_, if_neg hlast, ?_⟩
    exact h.rewrite href (h.same hlt) (fun hF htype => h.full _ hlt hF htype) rfl
      fun _ hvalid => h.cached i href hvalid

end OsCourse.Fs
