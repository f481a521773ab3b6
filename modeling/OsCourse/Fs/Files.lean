import OsCourse.Fs.Transfer
import OsCourse.Lib.Files

/-!
# OsCourse.Fs.Files

One inode as a file. Its bytes are `contents`; `readi` returns a part of them, and
`writei` lays bytes over them. What a call does to the disk besides is a `Rewrite`
of the inode: other inodes, and the blocks of others, are not touched.
-/

namespace OsCourse.Fs

open Lib

variable {sb : Superblock} {R : Multiset Nat} {disk disk' : Disk} {d d' : Dinode} {inum : Nat}

/-- The bytes of a file. -/
def contents (disk : Disk) (d : Dinode) : List UInt8 :=
  (List.range d.size.toNat).map (byteOf disk d)

/-- All blocks below the size are allocated. -/
def Full (disk : Disk) (d : Dinode) : Prop :=
  ∀ bn, bn * BSIZE < d.size.toNat → look disk d bn ≠ 0

@[simp] theorem length_contents : (contents disk d).length = d.size.toNat := by
  rw [contents, List.length_map, List.length_range]

theorem getElem?_contents (p : Nat) :
    (contents disk d)[p]? = if p < d.size.toNat then some (byteOf disk d p) else none := by
  rw [contents, List.getElem?_map]
  split
  · next h => rw [List.getElem?_range h, Option.map_some]
  · next h => rw [List.getElem?_eq_none (by rw [List.length_range]; omega), Option.map_none]

/-- Every byte of a full file has a block. -/
theorem Full.look {p : Nat} (h : Full disk d) (hp : p < d.size.toNat) :
    look disk d (p / BSIZE) ≠ 0 :=
  h _ (Nat.lt_of_le_of_lt (Nat.div_mul_le_self p BSIZE) hp)

/-! ### Changes of one inode -/

/-- The disk after the inode `inum` was changed to `d'`; the blocks of `R` belong to
the other inodes. -/
structure Rewrite (sb : Superblock) (R : Multiset Nat) (disk : Disk) (inum : Nat) (disk' : Disk)
    (d' : Dinode) : Prop where
  self : dinode sb disk' inum = d'
  other : ∀ i, i < sb.ninodes → i ≠ inum → dinode sb disk' i = dinode sb disk i
  rest : ∀ b ∈ R, disk' b = disk b
  acc : Acc sb disk' (slots disk' d' + R)

/-- The inode was not changed in memory, and needs no `iupdate`. -/
theorem Step.rewrite {W : Nat → Prop} (h : Step sb R W disk d disk' d) (hinum : inum < sb.ninodes)
    (hd : dinode sb disk inum = d) : Rewrite sb R disk inum disk' d where
  self := by rw [dinode_congr h.low hinum, hd]
  other i hi _ := dinode_congr h.low hi
  rest := h.rest
  acc := h.acc

/-- `iupdate` leaves the data blocks alone. -/
theorem slot_iupdate {i : Nat} (hinum : inum < sb.ninodes) (hacc : Acc sb disk (slots disk d + R))
    (htype : d.type ≠ 0) (haddrs : d'.addrs = d.addrs) :
    slot (iupdate sb disk inum d') d' i = slot disk d i := by
  have haddr : ∀ j, d'.addr j = d.addr j := fun j => by rw [Dinode.addr, haddrs, Dinode.addr]
  refine slot_congr (fun _ => haddr i) (haddr NDIRECT) fun hne => iupdate_of_ge hinum ?_ d'
  exact Nat.le_trans (Nat.le_of_lt (bmapstart_lt sb))
    (le_of_mem_slots hacc (indirect_mem htype hne))

theorem look_iupdate {bn : Nat} (hinum : inum < sb.ninodes)
    (hacc : Acc sb disk (slots disk d + R)) (htype : d.type ≠ 0) (haddrs : d'.addrs = d.addrs) :
    look (iupdate sb disk inum d') d' bn = look disk d bn := by
  rw [look, look, slot_iupdate hinum hacc htype haddrs]

theorem byteOf_iupdate {p : Nat} (hinum : inum < sb.ninodes)
    (hacc : Acc sb disk (slots disk d + R)) (htype : d.type ≠ 0) (haddrs : d'.addrs = d.addrs) :
    byteOf (iupdate sb disk inum d') d' p = byteOf disk d p := by
  refine Step.byteOf_congr (look_iupdate hinum hacc htype haddrs) fun hne => ?_
  exact iupdate_of_ge hinum
    (Nat.le_trans (Nat.le_of_lt (bmapstart_lt sb)) (le_look hacc htype hne)) d'

/-- `iupdate` of an inode that has its blocks already. -/
theorem rewrite_iupdate {disk₁ : Disk} (hinum : inum < sb.ninodes)
    (hlow : ∀ b, b < sb.bmapstart → disk₁ b = disk b) (hrest : ∀ b ∈ R, disk₁ b = disk b)
    (hslots : slots (iupdate sb disk₁ inum d') d' = slots disk₁ d)
    (hacc : Acc sb disk₁ (slots disk₁ d + R)) :
    Rewrite sb R disk inum (iupdate sb disk₁ inum d') d' where
  self := dinode_iupdate_self inum d'
  other i hi hne := by rw [dinode_iupdate_of_ne hne, dinode_congr hlow hi]
  rest b hb := by
    have hle := (hacc.range b (Multiset.mem_add.mpr (.inr hb))).1
    rw [iupdate_of_ge hinum (Nat.le_trans (Nat.le_of_lt (bmapstart_lt sb)) hle), hrest b hb]
  acc := hacc.congr (by rw [hslots]) fun _ hb =>
    used_congr (fun _ hge _ => iupdate_of_ge hinum hge d') hb

/-! ### `readi` and `writei` -/

/-- `off + n < off`, in 32 bits. -/
theorem add_lt_left_iff {off n : UInt32} : off + n < off ↔ 2 ^ 32 ≤ off.toNat + n.toNat := by
  have hoff := off.toNat_lt
  have hn := n.toNat_lt
  rw [UInt32.lt_iff_toNat_lt, UInt32.toNat_add]
  omega

/-- The offsets and counts at which `readi` reads a file of `size` bytes. -/
def Readable (size off n : Nat) : Prop := off ≤ size ∧ off + n < 2 ^ 32

/-- The offsets and counts at which `writei` writes a file of `size` bytes. -/
def Writable (size off n : Nat) : Prop := Readable size off n ∧ off + n ≤ MAXFILE * BSIZE

instance (size off n : Nat) : Decidable (Readable size off n) :=
  inferInstanceAs (Decidable (_ ∧ _))

instance (size off n : Nat) : Decidable (Writable size off n) :=
  inferInstanceAs (Decidable (_ ∧ _))

theorem readable_iff {off n : UInt32} :
    Readable d.size.toNat off.toNat n.toNat ↔ ¬ (off > d.size ∨ off + n < off) := by
  rw [Readable, not_or, add_lt_left_iff, gt_iff_lt, UInt32.lt_iff_toNat_lt, Nat.not_lt,
    Nat.not_le]

/-- `readi` of a full file returns its bytes from `off` to `off + n`, or to its end. -/
theorem readi_spec {dev : Devsw} {off n : UInt32} (hdev : d.type ≠ T_DEV) (hfull : Full disk d) :
    readi sb dev disk d off n = .ok
      (if Readable d.size.toNat off.toNat n.toNat then
        ((((contents disk d).drop off.toNat).take n.toNat).length,
          ((contents disk d).drop off.toNat).take n.toNat, d, disk)
      else (-1, [], d, disk)) := by
  rw [readi, if_neg hdev]
  by_cases hread : Readable d.size.toNat off.toNat n.toNat
  · rw [if_neg (readable_iff.mp hread), if_pos hread]
    generalize hn' : (if off + n > d.size then d.size - off else n) = n'
    have hcount : n'.toNat = min n.toNat (d.size.toNat - off.toNat) := by
      have hadd : (off + n).toNat = off.toNat + n.toNat := by
        rw [UInt32.toNat_add, Nat.mod_eq_of_lt hread.2]
      have hsub : (d.size - off).toNat = d.size.toNat - off.toNat :=
        UInt32.toNat_sub_of_le _ _ (UInt32.le_iff_toNat_le.mpr hread.1)
      rw [← hn']
      split
      · next h =>
        rw [gt_iff_lt, UInt32.lt_iff_toNat_lt, hadd] at h
        rw [hsub]
        omega
      · next h =>
        rw [gt_iff_lt, UInt32.lt_iff_toNat_lt, hadd] at h
        omega
    have hbytes : (List.range n'.toNat).map (fun i => byteOf disk d (off.toNat + i)) =
        ((contents disk d).drop off.toNat).take n.toNat := by
      refine List.ext_getElem? fun i => ?_
      rw [List.getElem?_take, List.getElem?_drop, getElem?_contents, List.getElem?_map]
      by_cases hi : i < n'.toNat
      · rw [List.getElem?_range hi, if_pos (by omega), if_pos (by omega), Option.map_some]
      · rw [List.getElem?_eq_none (by rw [List.length_range]; omega), Option.map_none]
        split
        · rw [if_neg (by omega)]
        · rfl
    have hloop := readLoop_spec sb (n := n'.toNat) 0 [] fun i hi =>
      hfull.look (p := off.toNat + i) (by omega)
    rw [Nat.sub_zero, List.nil_append, hbytes] at hloop
    dsimp only
    rw [hloop, ← hbytes, List.length_map, List.length_range]
  · rw [if_pos (not_not.mp (mt readable_iff.mpr hread)), if_neg hread]

/-- A file whose bytes are the old ones off the transfer, and those of `src` on it. -/
theorem contents_eq_overlay {off n : Nat} {src : Nat → UInt8}
    (hsize : d'.size.toNat = max d.size.toNat (off + n)) (hoff : off ≤ d.size.toNat)
    (hnew : ∀ i, i < n → byteOf disk' d' (off + i) = src i)
    (hold : ∀ p, ¬ (off ≤ p ∧ p < off + n) → p < d.size.toNat →
      byteOf disk' d' p = byteOf disk d p) :
    contents disk' d' = overlay (contents disk d) off ((List.range n).map src) := by
  refine List.ext_getElem? fun p => ?_
  rw [getElem?_overlay (by rw [length_contents]; exact hoff), getElem?_contents,
    getElem?_contents, List.length_map, List.length_range, hsize]
  by_cases hin : off ≤ p ∧ p < off + n
  · obtain ⟨i, rfl⟩ := Nat.exists_eq_add_of_le hin.1
    have hi := Nat.lt_of_add_lt_add_left hin.2
    rw [if_pos (Nat.lt_of_lt_of_le hin.2 (Nat.le_max_right ..)), if_pos hin,
      Nat.add_sub_cancel_left, List.getElem?_map, List.getElem?_range hi, hnew i hi, Option.map_some]
  · rw [if_neg hin]
    by_cases hp : p < d.size.toNat
    · rw [if_pos (Nat.lt_of_lt_of_le hp (Nat.le_max_left ..)), if_pos hp, hold p hin hp]
    · rw [if_neg (by omega), if_neg hp]

/-- `writei` of a full file lays bytes over it; it runs out of blocks only if it needs
more than there are. -/
theorem writei_spec {dev : Devsw} {src : Nat → UInt8} {off n : UInt32}
    (hinum : inum < sb.ninodes) (hd : dinode sb disk inum = d)
    (hacc : Acc sb disk (slots disk d + R)) (htype : d.type ≠ 0) (hdev : d.type ≠ T_DEV)
    (hfull : Full disk d) :
    Outcome (writei sb dev disk inum d src off n)
      (fun r => Rewrite sb R disk inum r.2.2 r.2.1 ∧ r.2.1.type = d.type ∧ Full r.2.2 r.2.1 ∧
        if Writable d.size.toNat off.toNat n.toNat then
          r.1 = n.toNat ∧ contents r.2.2 r.2.1 =
            overlay (contents disk d) off.toNat ((List.range n.toNat).map src)
        else r = (-1, d, disk))
      fun e => e = .outOfBlocks ∧ Writable d.size.toNat off.toNat n.toNat ∧
        (unused sb disk).card < need disk d off.toNat n.toNat := by
  have hsame : Rewrite sb R disk inum disk d :=
    (Step.refl (W := fun _ => False) hacc).rewrite hinum hd
  rw [writei, if_neg hdev]
  by_cases hread : Readable d.size.toNat off.toNat n.toNat
  · have hadd : (off + n).toNat = off.toNat + n.toNat := by
      rw [UInt32.toNat_add, Nat.mod_eq_of_lt hread.2]
    rw [if_neg (readable_iff.mp hread), hadd]
    by_cases hmax : off.toNat + n.toNat ≤ MAXFILE * BSIZE
    · have hwrite : Writable d.size.toNat off.toNat n.toNat := ⟨hread, hmax⟩
      have hloop := writeLoop_spec src n.toNat off.toNat 0 hacc
        htype (by rw [Nat.sub_zero]; exact hmax)
      rw [if_neg (Nat.not_lt_of_le hmax)]
      simp only [if_pos hwrite]
      rw [Nat.sub_zero] at hloop
      cases hw : writeLoop sb src n.toNat disk d off.toNat 0 with
      | error e =>
          rw [hw] at hloop
          exact ⟨hloop.1, hwrite, hloop.2⟩
      | ok r =>
          obtain ⟨d', disk'⟩ := r
          rw [hw] at hloop
          obtain ⟨hstep, hnew, hunchanged⟩ := hloop
          dsimp only at hstep hnew hunchanged ⊢
          simp only [Nat.zero_add] at hnew
          have htype' : d'.type ≠ 0 := by
            rw [hstep.type_eq]
            exact htype
          have hold : ∀ p, ¬ (off.toNat ≤ p ∧ p < off.toNat + n.toNat) → p < d.size.toNat →
              byteOf disk' d' p = byteOf disk d p := fun p hout hp =>
            hstep.bytes p hout (hfull.look hp)
          have hfull' : ∀ bn, bn * BSIZE < max d.size.toNat (off.toNat + n.toNat) →
              look disk' d' bn ≠ 0 := by
            intro bn hbn
            by_cases hlt : bn * BSIZE < d.size.toNat
            · rw [hstep.look (hfull bn hlt)]
              exact hfull bn hlt
            · -- the write starts in the file, so it reaches the start of the block
              have hoff := Nat.le_trans hread.1 (Nat.le_of_not_lt hlt)
              obtain ⟨i, hi⟩ := Nat.exists_eq_add_of_le hoff
              have hlook := (hnew i (by omega)).1
              rwa [← hi, Nat.mul_div_cancel bn (by decide)] at hlook
          split
          · next hgrow =>
            obtain ⟨e, he⟩ : ∃ e : Dinode, { d' with size := off + n } = e := ⟨_, rfl⟩
            have haddrs : e.addrs = d'.addrs := by rw [← he]
            have htype'' : e.type = d'.type := by rw [← he]
            have hsize : e.size.toNat = max d.size.toNat (off.toNat + n.toNat) := by
              rw [← he, ← hadd, ← hstep.size_eq]
              exact (Nat.max_eq_right (Nat.le_of_lt (UInt32.lt_iff_toNat_lt.mp hgrow.2))).symm
            have hslots : slots (iupdate sb disk' inum e) e = slots disk' d' :=
              slots_congr htype'' fun i _ => slot_iupdate hinum hstep.acc htype' haddrs
            rw [he]
            refine ⟨rewrite_iupdate hinum hstep.low hstep.rest hslots hstep.acc,
              htype''.trans hstep.type_eq, fun bn hbn => ?_, rfl, ?_⟩
            · rw [hsize] at hbn
              exact (look_iupdate hinum hstep.acc htype' haddrs).trans_ne (hfull' bn hbn)
            · refine contents_eq_overlay hsize hread.1 (fun i hi => ?_) fun p hout hp => ?_
              · exact (byteOf_iupdate hinum hstep.acc htype' haddrs).trans (hnew i hi).2
              · exact (byteOf_iupdate hinum hstep.acc htype' haddrs).trans (hold p hout hp)
          · next hgrow =>
            rw [hstep.size_eq, gt_iff_lt, gt_iff_lt, UInt32.lt_iff_toNat_lt,
              UInt32.lt_iff_toNat_lt, hadd, UInt32.toNat_zero] at hgrow
            have hreach := hread.1
            have hsize : d.size.toNat = max d.size.toNat (off.toNat + n.toNat) := by omega
            -- all blocks were there, and the inode is as it was
            obtain rfl := hunchanged fun i hi => hfull.look (by omega)
            refine ⟨hstep.rewrite hinum hd, rfl, fun bn hbn => hfull' bn (hsize ▸ hbn), rfl, ?_⟩
            exact contents_eq_overlay hsize hread.1 (fun i hi => (hnew i hi).2) hold
    · rw [if_pos (Nat.lt_of_not_le hmax)]
      have hwrite : ¬ Writable d.size.toNat off.toNat n.toNat := fun h => hmax h.2
      refine ⟨hsame, rfl, hfull, ?_⟩
      rw [if_neg hwrite]
  · rw [if_pos (not_not.mp (mt readable_iff.mpr hread))]
    have hwrite : ¬ Writable d.size.toNat off.toNat n.toNat := fun h => hread h.1
    refine ⟨hsame, rfl, hfull, ?_⟩
    rw [if_neg hwrite]

end OsCourse.Fs
