import OsCourse.Fs.Disk
import OsCourse.Lib.Held

/-!
# OsCourse.Fs.Bmap

The blocks of an inode. An inode has 141 slots for block addresses: the 13 of
`addrs`, and the entries of the indirect block (`slot`). Everything that `bmap` and
a write do to an inode and the disk is a `Step`: slots are filled, never changed,
the account of the blocks is kept, and nothing else is touched, neither the blocks
of other inodes nor the bytes of this one that are not written.
-/

namespace OsCourse.Fs

open Lib

/-! ### Slots -/

/-- Slots of an inode. -/
abbrev NSLOT : Nat := 141

/-- The block at an address; 0 is none. -/
def ptr (a : UInt32) : Option Nat := if a = 0 then none else some a.toNat

@[simp] theorem ptr_zero : ptr 0 = none := rfl

theorem ptr_of_ne {a : UInt32} (h : a ≠ 0) : ptr a = some a.toNat := if_neg h

/-- The address in slot `i`: `addrs`, then the entries of the indirect block. -/
def slot (disk : Disk) (d : Dinode) (i : Nat) : UInt32 :=
  if i < 13 then d.addr i
  else if d.addr NDIRECT = 0 then 0
  else word (disk (d.addr NDIRECT).toNat) (i - 13)

/-- The blocks that the slots of an inode name. A free inode has no slots. -/
def slots (disk : Disk) (d : Dinode) : Multiset Nat :=
  if d.type = 0 then 0 else held (fun i => ptr (slot disk d i)) NSLOT

/-- The slot of block `bn` of a file: the slot of the indirect block is skipped. -/
def slotOf (bn : Nat) : Nat := if bn < NDIRECT then bn else bn + 1

/-- The address of block `bn` of a file, or 0. -/
def look (disk : Disk) (d : Dinode) (bn : Nat) : UInt32 :=
  if bn < MAXFILE then slot disk d (slotOf bn) else 0

/-- The byte of a file at position `p`; where no block is allocated it is 0. -/
def byteOf (disk : Disk) (d : Dinode) (p : Nat) : UInt8 :=
  let addr := look disk d (p / BSIZE)
  if addr = 0 then 0 else disk addr.toNat (p % BSIZE)

variable {sb : Superblock} {R : Multiset Nat} {disk disk' : Disk} {d d' : Dinode}

theorem slot_addr {i : Nat} (h : i < 13) : slot disk d i = d.addr i := if_pos h

theorem slot_indirect (disk : Disk) (d : Dinode) : slot disk d NDIRECT = d.addr NDIRECT :=
  slot_addr (by decide)

theorem slot_entry (h : d.addr NDIRECT ≠ 0) (j : Nat) :
    slot disk d (j + 13) = word (disk (d.addr NDIRECT).toNat) j := by
  rw [slot, if_neg (by omega), if_neg h, Nat.add_sub_cancel]

theorem slot_entry_eq_zero (h : d.addr NDIRECT = 0) (j : Nat) : slot disk d (j + 13) = 0 := by
  rw [slot, if_neg (by omega), if_pos h]

theorem slot_congr {i : Nat} (haddr : i < 13 → d'.addr i = d.addr i)
    (hindirect : d'.addr NDIRECT = d.addr NDIRECT)
    (hblock : d.addr NDIRECT ≠ 0 →
      disk' (d.addr NDIRECT).toNat = disk (d.addr NDIRECT).toNat) :
    slot disk' d' i = slot disk d i := by
  rw [slot, slot, hindirect]
  split
  · next h => exact haddr h
  · split
    · rfl
    · next h => rw [hblock h]

theorem slots_of_ne (h : d.type ≠ 0) :
    slots disk d = held (fun i => ptr (slot disk d i)) NSLOT := if_neg h

theorem slots_congr (htype : d'.type = d.type)
    (h : ∀ i, i < NSLOT → slot disk' d' i = slot disk d i) : slots disk' d' = slots disk d := by
  rw [slots, slots, htype, held_congr fun i hi => by rw [h i hi]]

theorem mem_slots {i : Nat} (htype : d.type ≠ 0) (hi : i < NSLOT) (h : slot disk d i ≠ 0) :
    (slot disk d i).toNat ∈ slots disk d := by
  rw [slots_of_ne htype]
  exact mem_held.mpr ⟨i, hi, ptr_of_ne h⟩

/-- No block is named twice. -/
theorem slot_inj {i j : Nat} (hnodup : (slots disk d + R).Nodup) (htype : d.type ≠ 0)
    (hi : i < NSLOT) (hj : j < NSLOT) (h : slot disk d i ≠ 0) (heq : slot disk d j = slot disk d i) :
    i = j := by
  have hown := Multiset.nodup_of_le (Multiset.le_add_right _ _) hnodup
  rw [slots_of_ne htype] at hown
  refine held_inj hown hi hj (ptr_of_ne h) ?_
  rw [heq]
  exact ptr_of_ne h

theorem notMem_rest {b : Nat} (hnodup : (slots disk d + R).Nodup) (hb : b ∈ slots disk d) :
    b ∉ R :=
  Multiset.disjoint_left.mp (Multiset.nodup_add.mp hnodup).2.2 hb

/-- Blocks of an inode are data blocks. -/
theorem le_of_mem_slots {b : Nat} (hacc : Acc sb disk (slots disk d + R))
    (hb : b ∈ slots disk d) : sb.nmeta ≤ b :=
  (hacc.range b (Multiset.mem_add.mpr (.inl hb))).1

theorem slotOf_lt {bn : Nat} (h : bn < MAXFILE) : slotOf bn < NSLOT := by
  rw [slotOf]
  split
  · exact Nat.lt_succ_of_lt h
  · exact Nat.succ_lt_succ h

theorem slotOf_ne (bn : Nat) : slotOf bn ≠ NDIRECT := by
  rw [slotOf]
  split
  · next h => exact Nat.ne_of_lt h
  · next h => exact Nat.ne_of_gt (Nat.lt_succ_of_le (Nat.le_of_not_lt h))

theorem slotOf_inj {bn bn' : Nat} (h : slotOf bn = slotOf bn') : bn = bn' := by
  rw [slotOf, slotOf] at h
  split at h <;> split at h <;> omega

theorem look_eq {bn : Nat} (h : bn < MAXFILE) : look disk d bn = slot disk d (slotOf bn) :=
  if_pos h

theorem look_direct {bn : Nat} (h : bn < NDIRECT) : look disk d bn = d.addr bn := by
  rw [look_eq (Nat.lt_trans h (by decide)), slotOf, if_pos h,
    slot_addr (Nat.lt_trans h (by decide))]

theorem look_indirect {j : Nat} (h : j < NINDIRECT) :
    look disk d (j + NDIRECT) = slot disk d (j + 13) := by
  rw [look_eq (Nat.add_lt_add_right h NDIRECT), slotOf,
    if_neg (Nat.not_lt_of_le (Nat.le_add_left ..))]

theorem lt_of_look {bn : Nat} (h : look disk d bn ≠ 0) : bn < MAXFILE := by
  by_contra hbn
  exact h (if_neg hbn)

/-! ### Steps -/

/-- A change of an inode and the disk that fills slots, and writes bytes of the file
at positions in `W`. The blocks of `R` belong to others. -/
structure Step (sb : Superblock) (R : Multiset Nat) (W : Nat → Prop) (disk : Disk) (d : Dinode)
    (disk' : Disk) (d' : Dinode) : Prop where
  fields : { d' with addrs := d.addrs } = d
  acc : Acc sb disk' (slots disk' d' + R)
  low : ∀ b, b < sb.bmapstart → disk' b = disk b
  rest : ∀ b ∈ R, disk' b = disk b
  slot : ∀ i, i < NSLOT → slot disk d i ≠ 0 → slot disk' d' i = slot disk d i
  bytes : ∀ p, ¬ W p → look disk d (p / BSIZE) ≠ 0 → byteOf disk' d' p = byteOf disk d p

namespace Step

variable {W W₁ W₂ : Nat → Prop} {disk₁ : Disk} {d₁ : Dinode}

theorem refl (hacc : Acc sb disk (slots disk d + R)) : Step sb R W disk d disk d where
  fields := rfl
  acc := hacc
  low _ _ := rfl
  rest _ _ := rfl
  slot _ _ _ := rfl
  bytes _ _ _ := rfl

theorem type_eq (h : Step sb R W disk d disk' d') : d'.type = d.type := by
  have htype := congrArg Dinode.type h.fields
  exact htype

theorem size_eq (h : Step sb R W disk d disk' d') : d'.size = d.size := by
  have hsize := congrArg Dinode.size h.fields
  exact hsize

/-- The blocks of the file stay where they are. -/
theorem look (h : Step sb R W disk d disk' d') {bn : Nat} (hbn : look disk d bn ≠ 0) :
    Fs.look disk' d' bn = Fs.look disk d bn := by
  have hlt := lt_of_look hbn
  rw [look_eq hlt] at hbn
  rw [look_eq hlt, look_eq hlt, h.slot _ (slotOf_lt hlt) hbn]

theorem mono (h : Step sb R W₁ disk d disk' d') (hW : ∀ p, W₁ p → W₂ p) :
    Step sb R W₂ disk d disk' d' where
  fields := h.fields
  acc := h.acc
  low := h.low
  rest := h.rest
  slot := h.slot
  bytes p hp := h.bytes p fun hmem => hp (hW p hmem)

theorem trans (h₁ : Step sb R W disk d disk₁ d₁) (h₂ : Step sb R W disk₁ d₁ disk' d') :
    Step sb R W disk d disk' d' where
  fields := by
    have hfields := h₁.fields
    rw [← h₂.fields] at hfields
    exact hfields
  acc := h₂.acc
  low b hb := (h₂.low b hb).trans (h₁.low b hb)
  rest b hb := (h₂.rest b hb).trans (h₁.rest b hb)
  slot i hi hne := by
    have hslot := h₁.slot i hi hne
    rw [h₂.slot i hi (by rw [hslot]; exact hne), hslot]
  bytes p hp hne := by
    have hlook : Fs.look disk₁ d₁ (p / BSIZE) ≠ 0 := by
      rw [h₁.look hne]
      exact hne
    rw [h₂.bytes p hp hlook, h₁.bytes p hp hne]

/-- Bytes are where they were, if the blocks of the file are. -/
theorem byteOf_congr {p : Nat} (hlook : Fs.look disk' d' (p / BSIZE) = Fs.look disk d (p / BSIZE))
    (hdisk : Fs.look disk d (p / BSIZE) ≠ 0 →
      disk' (Fs.look disk d (p / BSIZE)).toNat = disk (Fs.look disk d (p / BSIZE)).toNat) :
    byteOf disk' d' p = byteOf disk d p := by
  simp only [byteOf, hlook]
  split
  · rfl
  · next h => rw [hdisk h]

/-- A slot is filled with a block that was free; the other slots, and the blocks of
the file, are as they were. -/
theorem fill {i : Nat} {a : UInt32} (htype : d.type ≠ 0) (hi : i < NSLOT)
    (hzero : Fs.slot disk d i = 0) (hslot : Fs.slot disk' d' i = a) (ha : a ≠ 0)
    (hoff : ∀ j, j < NSLOT → j ≠ i → Fs.slot disk' d' j = Fs.slot disk d j)
    (hdata : ∀ j, j < NSLOT → j ≠ NDIRECT → Fs.slot disk d j ≠ 0 →
      disk' (Fs.slot disk d j).toNat = disk (Fs.slot disk d j).toNat)
    (hacc : Acc sb disk' (a.toNat ::ₘ (slots disk d + R)))
    (hfields : { d' with addrs := d.addrs } = d)
    (hlow : ∀ b, b < sb.bmapstart → disk' b = disk b) (hrest : ∀ b ∈ R, disk' b = disk b) :
    Step sb R W disk d disk' d' where
  fields := hfields
  acc := by
    have heq := congrArg Dinode.type hfields
    have htype' : d'.type ≠ 0 := fun h => htype (heq.symm.trans h)
    have hslots : slots disk' d' = slots disk d + {a.toNat} := by
      rw [slots_of_ne htype', slots_of_ne htype,
        held_fill hi (fun j hj hne => by rw [hoff j hj hne]) (by rw [hzero, ptr_zero]), hslot,
        ptr_of_ne ha, one_some]
    refine hacc.congr ?_ fun _ _ => rfl
    rw [hslots, ← Multiset.singleton_add]
    ac_rfl
  low := hlow
  rest := hrest
  slot j hj hne := hoff j hj fun h => hne (h ▸ hzero)
  bytes p _ hlook := by
    have hlt := lt_of_look hlook
    rw [look_eq hlt] at hlook
    refine byteOf_congr ?_ fun _ => ?_
    · rw [look_eq hlt, look_eq hlt, hoff _ (slotOf_lt hlt) fun h => hlook (h ▸ hzero)]
    · rw [look_eq hlt]
      exact hdata _ (slotOf_lt hlt) (slotOf_ne _) hlook

end Step

/-- Blocks with an owner are not touched by `balloc`. -/
theorem Balloc.rest {N : Multiset Nat} {a : UInt32} {b : Nat} (h : Balloc sb disk a disk')
    (hacc : Acc sb disk N) (hb : b ∈ N) : disk' b = disk b :=
  h.kept b (.inr (hacc.range b hb).1) fun heq => h.notMem hacc (heq ▸ hb)

@[simp] theorem word_zero (i : Nat) : word (fun _ => 0) i = 0 := rfl

variable {W : Nat → Prop}

/-- A fresh block goes to `addrs`. -/
theorem step_setAddr {i : Nat} {a : UInt32} (hacc : Acc sb disk (slots disk d + R))
    (htype : d.type ≠ 0) (hi : i < 13) (hzero : d.addr i = 0) (h : Balloc sb disk a disk') :
    Step sb R W disk d disk' (d.setAddr i a) := by
  have hlt : i < NSLOT := Nat.lt_trans hi (by decide)
  have hown : ∀ j, j < NSLOT → slot disk d j ≠ 0 →
      disk' (slot disk d j).toNat = disk (slot disk d j).toNat := fun j hj hne =>
    h.rest hacc (Multiset.mem_add.mpr (.inl (mem_slots htype hj hne)))
  refine Step.fill htype hlt ?_ ?_ h.ne_zero (fun j _ hne => ?_) (fun j hj _ => hown j hj)
    (h.acc hacc) rfl (fun b hb => ?_) fun b hb => ?_
  · rw [slot_addr hi, hzero]
  · rw [slot_addr hi, Dinode.addr_setAddr d hi]
  · by_cases hblock : i = NDIRECT
    · subst hblock
      have haddr : (d.setAddr NDIRECT a).addr NDIRECT = a := Dinode.addr_setAddr d hi a
      by_cases hj : j < 13
      · rw [slot_addr hj, slot_addr hj, Dinode.addr_setAddr_of_ne d hne]
      · -- the entries of the new indirect block are zero
        obtain ⟨k, rfl⟩ := Nat.exists_eq_add_of_le' (Nat.le_of_not_lt hj)
        rw [slot_entry_eq_zero hzero, slot_entry (by rw [haddr]; exact h.ne_zero), haddr, h.zero,
          word_zero]
    · refine slot_congr (fun _ => Dinode.addr_setAddr_of_ne d hne a)
        (Dinode.addr_setAddr_of_ne d (Ne.symm hblock) a) fun hnz => ?_
      rw [← slot_indirect disk d] at hnz ⊢
      exact hown NDIRECT (by decide) hnz
  · have hmeta := bmapstart_lt sb
    have hle := h.le
    exact h.kept b (.inl hb) (by omega)
  · exact h.rest hacc (Multiset.mem_add.mpr (.inr hb))

/-- The indirect block is one of the blocks of an inode. -/
theorem indirect_mem (htype : d.type ≠ 0) (h : d.addr NDIRECT ≠ 0) :
    (d.addr NDIRECT).toNat ∈ slots disk d := by
  rw [← slot_indirect disk d] at h ⊢
  exact mem_slots htype (by decide) h

/-- The indirect block is not a block of the file. -/
theorem slot_ne_indirect {i : Nat} (hacc : Acc sb disk (slots disk d + R)) (htype : d.type ≠ 0)
    (hi : i < NSLOT) (hne : i ≠ NDIRECT) (h : slot disk d i ≠ 0) :
    (slot disk d i).toNat ≠ (d.addr NDIRECT).toNat := by
  intro heq
  rw [← slot_indirect disk d] at heq
  exact hne (slot_inj hacc.nodup htype hi (by decide) h (UInt32.toNat_inj.mp heq.symm))

/-- Blocks of data are off the free map. -/
theorem acc_update {N : Multiset Nat} {a : Nat} (hacc : Acc sb disk N) (h : sb.nmeta ≤ a)
    (bp : Block) : Acc sb (Function.update disk a bp) N :=
  hacc.congr rfl fun _ hc => used_congr
    (fun _ _ hlt => Function.update_of_ne (Nat.ne_of_lt (Nat.lt_of_lt_of_le hlt h)) _ _) hc

/-- A fresh block goes to the indirect block. -/
theorem step_setWord {j : Nat} {a : UInt32} (hacc : Acc sb disk (slots disk d + R))
    (htype : d.type ≠ 0) (hj : j < NINDIRECT) (haddr : d.addr NDIRECT ≠ 0)
    (hzero : word (disk (d.addr NDIRECT).toNat) j = 0) (h : Balloc sb disk a disk') :
    Step sb R W disk d (Function.update disk' (d.addr NDIRECT).toNat
      (setWord (disk' (d.addr NDIRECT).toNat) j a)) d := by
  have hmem : (d.addr NDIRECT).toNat ∈ slots disk d + R :=
    Multiset.mem_add.mpr (.inl (indirect_mem htype haddr))
  have hle := le_of_mem_slots hacc (indirect_mem htype haddr)
  have hmeta := bmapstart_lt sb
  have hblock := h.rest hacc hmem
  have hlt : j + 13 < NSLOT := Nat.add_lt_add_right hj 13
  refine Step.fill htype hlt ?_ ?_ h.ne_zero (fun k _ hne => ?_) (fun k hk hne hnz => ?_)
    (acc_update (h.acc hacc) hle _) rfl (fun b hb => ?_) fun b hb => ?_
  · rw [slot_entry haddr, hzero]
  · rw [slot_entry haddr, Function.update_self, word_setWord]
  · by_cases hk : k < 13
    · rw [slot_addr hk, slot_addr hk]
    · obtain ⟨l, rfl⟩ := Nat.exists_eq_add_of_le' (Nat.le_of_not_lt hk)
      have hlj : l ≠ j := fun heq => hne (heq ▸ rfl)
      rw [slot_entry haddr, slot_entry haddr, Function.update_self, word_setWord_of_ne _ hlj,
        hblock]
  · rw [Function.update_of_ne (slot_ne_indirect hacc htype hk hne hnz)]
    exact h.rest hacc (Multiset.mem_add.mpr (.inl (mem_slots htype hk hnz)))
  · have hfresh := h.le
    rw [Function.update_of_ne (by omega)]
    exact h.kept b (.inl hb) (by omega)
  · have hother : b ≠ (d.addr NDIRECT).toNat := fun heq =>
      notMem_rest hacc.nodup (indirect_mem htype haddr) (heq ▸ hb)
    rw [Function.update_of_ne hother]
    exact h.rest hacc (Multiset.mem_add.mpr (.inr hb))

/-- Bytes are written to a block of the file. -/
theorem step_store {bn : Nat} (bp : Block) (hacc : Acc sb disk (slots disk d + R))
    (htype : d.type ≠ 0) (hlook : look disk d bn ≠ 0)
    (hkeep : ∀ p, p / BSIZE = bn → ¬ W p →
      bp (p % BSIZE) = disk (look disk d bn).toNat (p % BSIZE)) :
    Step sb R W disk d (Function.update disk (look disk d bn).toNat bp) d ∧
      ∀ p, p / BSIZE = bn →
        byteOf (Function.update disk (look disk d bn).toNat bp) d p = bp (p % BSIZE) := by
  have hlt := lt_of_look hlook
  have hslotlt := slotOf_lt hlt
  rw [look_eq hlt] at hlook hkeep ⊢
  have hown := mem_slots htype hslotlt hlook
  have hle := le_of_mem_slots hacc hown
  have hmeta := bmapstart_lt sb
  generalize hdisk' : Function.update disk (slot disk d (slotOf bn)).toNat bp = disk'
  have hoff : ∀ b, b ≠ (slot disk d (slotOf bn)).toNat → disk' b = disk b := fun b hb => by
    rw [← hdisk', Function.update_of_ne hb]
  have hself : disk' (slot disk d (slotOf bn)).toNat = bp := by
    rw [← hdisk', Function.update_self]
  have hslot : ∀ j, slot disk' d j = slot disk d j := fun j =>
    slot_congr (fun _ => rfl) rfl fun _ =>
      hoff _ (slot_ne_indirect hacc htype hslotlt (slotOf_ne bn) hlook).symm
  have hbyte : ∀ p, p / BSIZE = bn → byteOf disk' d p = bp (p % BSIZE) := fun p hp => by
    simp only [byteOf, hp, look_eq hlt, hslot, if_neg hlook, hself]
  refine ⟨⟨rfl, ?_, fun b hb => hoff b (by omega), fun b hb => ?_, fun j _ _ => hslot j,
    fun p hp hnz => ?_⟩, hbyte⟩
  · rw [slots_congr rfl fun j _ => hslot j, ← hdisk']
    exact acc_update hacc hle bp
  · exact hoff b fun h => notMem_rest hacc.nodup hown (h ▸ hb)
  · by_cases hbn : p / BSIZE = bn
    · have hold : byteOf disk d p = disk (slot disk d (slotOf bn)).toNat (p % BSIZE) := by
        simp only [byteOf, hbn, look_eq hlt, if_neg hlook]
      rw [hbyte p hbn, hkeep p hbn hp, hold]
    · -- another block of the file
      have hplt := lt_of_look hnz
      rw [look_eq hplt] at hnz
      refine Step.byteOf_congr ?_ fun _ => ?_
      · rw [look_eq hplt, look_eq hplt, hslot]
      · rw [look_eq hplt]
        refine hoff _ fun h => hbn ?_
        exact slotOf_inj (slot_inj hacc.nodup htype (slotOf_lt hplt) hslotlt hnz
          (UInt32.toNat_inj.mp h.symm))

/-! ### `bmap` -/

/-- A block of the file is found without any change. -/
theorem bmap_of_look {bn : Nat} (h : look disk d bn ≠ 0) :
    bmap sb disk d bn = .ok (look disk d bn, d, disk) := by
  have hlt := lt_of_look h
  by_cases hbn : bn < NDIRECT
  · rw [look_direct hbn] at h ⊢
    rw [bmap, if_pos hbn, ballocIfZero, if_neg h]
    dsimp only
    rw [Dinode.setAddr_addr]
  · obtain ⟨j, rfl⟩ := Nat.exists_eq_add_of_le' (Nat.le_of_not_lt hbn)
    have hj : j < NINDIRECT := Nat.lt_of_add_lt_add_right hlt
    rw [look_indirect hj] at h ⊢
    have haddr : d.addr NDIRECT ≠ 0 := fun hz => h (slot_entry_eq_zero hz j)
    rw [slot_entry haddr] at h ⊢
    rw [bmap, if_neg hbn, ballocIfZero, if_neg haddr]
    simp only [Nat.add_sub_cancel, Dinode.setAddr_addr, if_pos hj, if_neg h]

/-- Blocks that `bmap` allocates. -/
def cost (disk : Disk) (d : Dinode) (bn : Nat) : Nat :=
  (if look disk d bn = 0 then 1 else 0) + if NDIRECT ≤ bn ∧ d.addr NDIRECT = 0 then 1 else 0

theorem cost_of_look {bn : Nat} (h : look disk d bn ≠ 0) : cost disk d bn = 0 := by
  have hindirect : ¬ (NDIRECT ≤ bn ∧ d.addr NDIRECT = 0) := by
    rintro ⟨hle, hz⟩
    obtain ⟨j, rfl⟩ := Nat.exists_eq_add_of_le' hle
    have hj : j < NINDIRECT := Nat.lt_of_add_lt_add_right (lt_of_look h)
    rw [look_indirect hj, slot_entry_eq_zero hz] at h
    exact h rfl
  rw [cost, if_neg h, if_neg hindirect]

/-- An entry of the indirect block is filled. -/
theorem entry_spec {j : Nat} {a : UInt32} (hacc : Acc sb disk (slots disk d + R))
    (htype : d.type ≠ 0) (hj : j < NINDIRECT) (ha : d.addr NDIRECT = a) (hne : a ≠ 0)
    (hzero : word (disk a.toNat) j = 0) :
    Outcome
      (match balloc sb disk with
        | .error e => .error e
        | .ok (w, disk') =>
            .ok (w, d, Function.update disk' a.toNat (setWord (disk' a.toNat) j w)))
      (fun r => Step sb R W disk d r.2.2 r.2.1 ∧ r.1 ≠ 0 ∧
        look r.2.2 r.2.1 (j + NDIRECT) = r.1 ∧
        (unused sb r.2.2).card + 1 = (unused sb disk).card)
      fun e => e = .outOfBlocks ∧ unused sb disk = ∅ := by
  subst ha
  have hspec := balloc_spec hacc
  cases hb : balloc sb disk with
  | error e =>
      rw [hb] at hspec
      exact hspec
  | ok r =>
      obtain ⟨w, disk'⟩ := r
      rw [hb] at hspec
      have hle := le_of_mem_slots hacc (indirect_mem htype hne)
      refine ⟨step_setWord hacc htype hj hne hzero hspec, hspec.ne_zero, ?_, ?_⟩
      · rw [look_indirect hj, slot_entry hne]
        dsimp only
        rw [Function.update_self, word_setWord]
      · rw [unused_congr fun b _ hlt =>
          Function.update_of_ne (Nat.ne_of_lt (Nat.lt_of_lt_of_le hlt hle)) _ _]
        exact hspec.card

theorem bmap_spec {bn : Nat} (hacc : Acc sb disk (slots disk d + R)) (htype : d.type ≠ 0)
    (hbn : bn < MAXFILE) :
    Outcome (bmap sb disk d bn)
      (fun r => Step sb R W disk d r.2.2 r.2.1 ∧ r.1 ≠ 0 ∧ look r.2.2 r.2.1 bn = r.1 ∧
        (unused sb r.2.2).card + cost disk d bn = (unused sb disk).card)
      fun e => e = .outOfBlocks ∧ (unused sb disk).card < cost disk d bn := by
  by_cases hlook : look disk d bn ≠ 0
  · rw [bmap_of_look hlook, cost_of_look hlook]
    exact ⟨Step.refl hacc, hlook, rfl, rfl⟩
  rw [not_not] at hlook
  by_cases hdirect : bn < NDIRECT
  · have hcost : cost disk d bn = 1 := by
      rw [cost, if_pos hlook, if_neg fun h => Nat.not_lt_of_le h.1 hdirect]
    rw [look_direct hdirect] at hlook
    have hlt : bn < 13 := Nat.lt_trans hdirect (by decide)
    have hspec := balloc_spec hacc
    rw [bmap, if_pos hdirect, ballocIfZero, if_pos hlook, hcost]
    cases hb : balloc sb disk with
    | error e =>
        rw [hb] at hspec
        refine ⟨hspec.1, ?_⟩
        rw [hspec.2]
        exact Nat.one_pos
    | ok r =>
        rw [hb] at hspec
        refine ⟨step_setAddr hacc htype hlt hlook hspec, hspec.ne_zero, ?_, hspec.card⟩
        rw [look_direct hdirect, Dinode.addr_setAddr d hlt]
  · obtain ⟨j, rfl⟩ := Nat.exists_eq_add_of_le' (Nat.le_of_not_lt hdirect)
    have hj : j < NINDIRECT := Nat.lt_of_add_lt_add_right hbn
    rw [look_indirect hj] at hlook
    rw [bmap, if_neg hdirect, ballocIfZero]
    dsimp only
    rw [Nat.add_sub_cancel, if_pos hj]
    by_cases haddr : d.addr NDIRECT = 0
    · have hcost : cost disk d (j + NDIRECT) = 2 := by
        rw [cost, look_indirect hj, if_pos hlook, if_pos ⟨Nat.le_add_left .., haddr⟩]
      have hspec := balloc_spec hacc
      rw [if_pos haddr, hcost]
      cases hb : balloc sb disk with
      | error e =>
          rw [hb] at hspec
          refine ⟨hspec.1, ?_⟩
          rw [hspec.2]
          exact Nat.two_pos
      | ok r =>
          obtain ⟨a, disk₁⟩ := r
          rw [hb] at hspec
          replace hspec : Balloc sb disk a disk₁ := hspec
          have hlt : NDIRECT < 13 := by decide
          have hstep : Step sb R W disk d disk₁ (d.setAddr NDIRECT a) :=
            step_setAddr hacc htype hlt haddr hspec
          have hzero : word (disk₁ a.toNat) j = 0 := by rw [hspec.zero, word_zero]
          have hcard := hspec.card
          have hentry := entry_spec (W := W) hstep.acc htype hj (Dinode.addr_setAddr d hlt a)
            hspec.ne_zero hzero
          dsimp only
          rw [if_pos hzero]
          revert hentry
          cases balloc sb disk₁ with
          | error e =>
              intro hentry
              refine ⟨hentry.1, ?_⟩
              rw [← hcard, hentry.2]
              exact Nat.one_lt_two
          | ok r =>
              intro hentry
              obtain ⟨hstep₂, hne, hlook₂, hcard₂⟩ := hentry
              refine ⟨hstep.trans hstep₂, hne, hlook₂, ?_⟩
              rw [← hcard, ← hcard₂]
    · have hcost : cost disk d (j + NDIRECT) = 1 := by
        rw [cost, look_indirect hj, if_pos hlook, if_neg fun h => haddr h.2]
      rw [slot_entry haddr] at hlook
      have hentry := entry_spec (W := W) hacc htype hj rfl haddr hlook
      rw [if_neg haddr, hcost]
      dsimp only
      rw [if_pos hlook, Dinode.setAddr_addr]
      revert hentry
      cases balloc sb disk with
      | error e =>
          intro hentry
          refine ⟨hentry.1, ?_⟩
          rw [hentry.2]
          exact Nat.one_pos
      | ok r => exact id

end OsCourse.Fs
