import Mathlib.Algebra.Order.Interval.Finset.SuccPred
import Mathlib.Order.Interval.Finset.Nat
import OsCourse.Fs.Bmap

/-!
# OsCourse.Fs.Transfer

The loops of `readi` and `writei`, which take a transfer apart at the block
boundaries. Reading returns the bytes of the file; writing is a `Step` on the
positions of the transfer, and runs out of blocks only if there are fewer free
blocks than it needs.
-/

namespace OsCourse.Fs

open Lib

variable {sb : Superblock} {R : Multiset Nat} {disk disk' : Disk} {d d' : Dinode}

/-- Positions of one block. -/
theorem div_mod_add {off i : Nat} (h : i < BSIZE - off % BSIZE) :
    (off + i) / BSIZE = off / BSIZE ∧ (off + i) % BSIZE = off % BSIZE + i := by
  simp only [BSIZE] at *
  omega

/-- The loop of `readi`, where all blocks of the transfer are allocated. -/
theorem readLoop_spec (sb : Superblock) {n off : Nat} (tot : Nat) (dst : List UInt8)
    (hlook : ∀ i, i < n - tot → look disk d ((off + i) / BSIZE) ≠ 0) :
    readLoop sb n disk d off tot dst =
      .ok (dst ++ (List.range (n - tot)).map fun i => byteOf disk d (off + i), d, disk) := by
  induction hk : n - tot using Nat.strongRecOn generalizing off tot dst with
  | _ k ih =>
      subst hk
      by_cases hlt : tot < n
      · have hbn := hlook 0 (Nat.sub_pos_of_lt hlt)
        rw [Nat.add_zero] at hbn
        have hmod : off % BSIZE < BSIZE := Nat.mod_lt off (by decide)
        rw [readLoop, if_pos hlt, bmap_of_look hbn]
        dsimp only
        generalize hm : min (n - tot) (BSIZE - off % BSIZE) = m
        have hmpos : 0 < m := by omega
        have hsum : n - tot = m + (n - (tot + m)) := by omega
        have hbytes : (List.range m).map (fun i => disk (look disk d (off / BSIZE)).toNat
            (off % BSIZE + i)) = (List.range m).map fun i => byteOf disk d (off + i) := by
          refine List.map_congr_left fun i hi => ?_
          have hpos : (off + i) / BSIZE = off / BSIZE ∧ (off + i) % BSIZE = off % BSIZE + i :=
            div_mod_add (Nat.lt_of_lt_of_le (List.mem_range.mp hi) (hm ▸ Nat.min_le_right ..))
          simp only [byteOf, hpos.1, hpos.2, if_neg hbn]
        rw [ih (n - (tot + m)) (by omega) (tot + m) _ (fun i hi => ?_) rfl, hbytes, List.append_assoc]
        · rw [hsum, List.range_add, List.map_append, List.map_map]
          simp only [Function.comp_def, Nat.add_assoc]
        · rw [Nat.add_assoc]
          exact hlook (m + i) (by omega)
      · rw [readLoop, if_neg hlt, Nat.sub_eq_zero_of_le (Nat.le_of_not_lt hlt), List.range_zero,
          List.map_nil, List.append_nil]

/-! ### Blocks that a transfer needs -/

/-- The blocks of the positions from `off` to `off + n` that are not allocated. -/
def gaps (disk : Disk) (d : Dinode) (off n : Nat) : Finset Nat :=
  ((Finset.Ico off (off + n)).image (· / BSIZE)).filter fun bn => look disk d bn = 0

/-- The blocks that a write allocates: those of the file, and the indirect block. -/
def need (disk : Disk) (d : Dinode) (off n : Nat) : Nat :=
  (gaps disk d off n).card +
    if d.addr NDIRECT = 0 ∧ ∃ bn ∈ gaps disk d off n, NDIRECT ≤ bn then 1 else 0

theorem mem_gaps {off n bn : Nat} :
    bn ∈ gaps disk d off n ↔
      (∃ i, i < n ∧ (off + i) / BSIZE = bn) ∧ look disk d bn = 0 := by
  rw [gaps, Finset.mem_filter, Finset.mem_image]
  refine and_congr_left fun _ => ⟨?_, ?_⟩
  · rintro ⟨p, hp, rfl⟩
    have hmem := Finset.mem_Ico.mp hp
    obtain ⟨i, rfl⟩ := Nat.exists_eq_add_of_le hmem.1
    exact ⟨i, Nat.lt_of_add_lt_add_left hmem.2, rfl⟩
  · rintro ⟨i, hi, rfl⟩
    exact ⟨off + i, Finset.mem_Ico.mpr ⟨Nat.le_add_right .., Nat.add_lt_add_left hi off⟩, rfl⟩

/-- The indirect block stays allocated. -/
theorem Step.indirect {W : Nat → Prop} (h : Step sb R W disk d disk' d')
    (hz : d'.addr NDIRECT = 0) : d.addr NDIRECT = 0 := by
  by_contra hne
  have hslot := h.slot NDIRECT (by decide)
  rw [slot_addr (by decide), slot_addr (by decide)] at hslot
  rw [hslot hne] at hz
  exact hne hz

theorem cost_le_need {off n : Nat} (h : 0 < n) : cost disk d (off / BSIZE) ≤ need disk d off n := by
  by_cases hlook : look disk d (off / BSIZE) = 0
  · have hmem : off / BSIZE ∈ gaps disk d off n := mem_gaps.mpr ⟨⟨0, h, rfl⟩, hlook⟩
    have hcard := Finset.card_pos.mpr ⟨_, hmem⟩
    rw [cost, need, if_pos hlook]
    refine Nat.add_le_add hcard ?_
    split
    · next hind => rw [if_pos ⟨hind.2, _, hmem, hind.1⟩]
    · exact Nat.zero_le _
  · rw [cost_of_look hlook]
    exact Nat.zero_le _

/-- What the first block costs, and what the rest needs. -/
theorem cost_add_need_le {W : Nat → Prop} {off n m : Nat} (hstep : Step sb R W disk d disk' d')
    (hlook : look disk' d' (off / BSIZE) ≠ 0) (hm : m ≤ n) (hn : 0 < n) :
    cost disk d (off / BSIZE) + need disk' d' (off + m) (n - m) ≤ need disk d off n := by
  have hsub : ∀ bn ∈ gaps disk' d' (off + m) (n - m),
      bn ∈ gaps disk d off n ∧ bn ≠ off / BSIZE := by
    intro bn hbn
    obtain ⟨⟨i, hi, hdiv⟩, hz⟩ := mem_gaps.mp hbn
    refine ⟨mem_gaps.mpr ⟨⟨m + i, by omega, by rw [← Nat.add_assoc]; exact hdiv⟩, ?_⟩, ?_⟩
    · by_contra hne
      rw [hstep.look hne] at hz
      exact hne hz
    · rintro rfl
      exact hlook hz
  have hlater : (if d'.addr NDIRECT = 0 ∧ ∃ bn ∈ gaps disk' d' (off + m) (n - m), NDIRECT ≤ bn
      then 1 else 0) ≤
      if d.addr NDIRECT = 0 ∧ ∃ bn ∈ gaps disk d off n, NDIRECT ≤ bn then 1 else 0 := by
    split
    · next h =>
      obtain ⟨hz, bn, hbn, hle⟩ := h
      rw [if_pos ⟨hstep.indirect hz, bn, (hsub bn hbn).1, hle⟩]
    · exact Nat.zero_le _
  by_cases hz : look disk d (off / BSIZE) = 0
  · have hmem : off / BSIZE ∈ gaps disk d off n := mem_gaps.mpr ⟨⟨0, hn, rfl⟩, hz⟩
    have hcard : (gaps disk' d' (off + m) (n - m)).card + 1 ≤ (gaps disk d off n).card := by
      rw [← Finset.card_erase_add_one hmem]
      refine Nat.add_le_add_right (Finset.card_le_card fun bn hbn => ?_) 1
      exact Finset.mem_erase.mpr ⟨(hsub bn hbn).2, (hsub bn hbn).1⟩
    rw [cost, need, need, if_pos hz]
    by_cases hfirst : NDIRECT ≤ off / BSIZE ∧ d.addr NDIRECT = 0
    · -- the indirect block was allocated with the first block
      have hdone : d'.addr NDIRECT ≠ 0 := by
        intro hz'
        obtain ⟨j, hj⟩ := Nat.exists_eq_add_of_le' hfirst.1
        have hlt : j < NINDIRECT := Nat.lt_of_add_lt_add_right (hj ▸ lt_of_look hlook)
        rw [hj, look_indirect hlt, slot_entry_eq_zero hz'] at hlook
        exact hlook rfl
      rw [if_pos hfirst, if_neg fun h => hdone h.1, if_pos ⟨hfirst.2, _, hmem, hfirst.1⟩]
      omega
    · rw [if_neg hfirst]
      omega
  · have hcard : (gaps disk' d' (off + m) (n - m)).card ≤ (gaps disk d off n).card :=
      Finset.card_le_card fun bn hbn => (hsub bn hbn).1
    rw [cost_of_look hz, Nat.zero_add, need, need]
    exact Nat.add_le_add hcard hlater

/-! ### Writing -/

/-- Blocks of a file are data blocks. -/
theorem le_look {bn : Nat} (hacc : Acc sb disk (slots disk d + R)) (htype : d.type ≠ 0)
    (h : look disk d bn ≠ 0) : sb.nmeta ≤ (look disk d bn).toNat := by
  have hlt := lt_of_look h
  rw [look_eq hlt] at h ⊢
  exact le_of_mem_slots hacc (mem_slots htype (slotOf_lt hlt) h)

/-- `m` bytes of a transfer of `k` go to one block. -/
theorem writeBlock_spec {off m k : Nat} {src : Nat → UInt8}
    (hacc : Acc sb disk (slots disk d + R)) (htype : d.type ≠ 0)
    (hlook : look disk d (off / BSIZE) ≠ 0) (hm : m ≤ BSIZE - off % BSIZE) (hmk : m ≤ k)
    (hdisk : Function.update disk (look disk d (off / BSIZE)).toNat
      (memmove (disk (look disk d (off / BSIZE)).toNat) (off % BSIZE) m src) = disk') :
    Step sb R (fun p => off ≤ p ∧ p < off + k) disk d disk' d ∧
      ∀ i, i < m → byteOf disk' d (off + i) = src i := by
  obtain ⟨hstep, hbyte⟩ := step_store (W := fun p => off ≤ p ∧ p < off + k)
    (memmove (disk (look disk d (off / BSIZE)).toNat) (off % BSIZE) m src) hacc htype hlook
    fun p hp hout => by
      have hoff : ¬ (off % BSIZE ≤ p % BSIZE ∧ p % BSIZE < off % BSIZE + m) := by
        rintro ⟨hlo, hhi⟩
        refine hout ?_
        simp only [BSIZE] at *
        omega
      rw [memmove, if_neg hoff]
  rw [hdisk] at hstep hbyte
  refine ⟨hstep, fun i hi => ?_⟩
  have hpos := div_mod_add (Nat.lt_of_lt_of_le hi hm)
  rw [hbyte _ hpos.1, hpos.2, memmove,
    if_pos ⟨Nat.le_add_right .., Nat.add_lt_add_left hi _⟩, Nat.add_sub_cancel_left]

/-- The loop of `writei`. Where all blocks are allocated, the inode is as it was. -/
theorem writeLoop_spec (src : Nat → UInt8) (n off tot : Nat)
    (hacc : Acc sb disk (slots disk d + R)) (htype : d.type ≠ 0)
    (hmax : off + (n - tot) ≤ MAXFILE * BSIZE) :
    Outcome (writeLoop sb src n disk d off tot)
      (fun r => Step sb R (fun p => off ≤ p ∧ p < off + (n - tot)) disk d r.2 r.1 ∧
        (∀ i, i < n - tot → look r.2 r.1 ((off + i) / BSIZE) ≠ 0 ∧
          byteOf r.2 r.1 (off + i) = src (tot + i)) ∧
        ((∀ i, i < n - tot → look disk d ((off + i) / BSIZE) ≠ 0) → r.1 = d))
      fun e => e = .outOfBlocks ∧ (unused sb disk).card < need disk d off (n - tot) := by
  induction hk : n - tot using Nat.strongRecOn generalizing disk d off tot with
  | _ k ih =>
      by_cases hlt : tot < n
      · have hbn : off / BSIZE < MAXFILE := Nat.div_lt_of_lt_mul (by
          rw [Nat.mul_comm]
          omega)
        have hpos : 0 < k := by omega
        have hmod : off % BSIZE < BSIZE := Nat.mod_lt off (by decide)
        have hmap := bmap_spec (W := fun p => off ≤ p ∧ p < off + k) hacc htype hbn
        rw [writeLoop, if_pos hlt]
        cases hb : bmap sb disk d (off / BSIZE) with
        | error e =>
            rw [hb] at hmap
            exact ⟨hmap.1, Nat.lt_of_lt_of_le hmap.2 (cost_le_need hpos)⟩
        | ok r =>
            obtain ⟨addr, d₁, disk₁⟩ := r
            rw [hb] at hmap
            obtain ⟨hstep₁, hne, hlook, hcard⟩ := hmap
            dsimp only at hstep₁ hne hlook hcard ⊢
            rw [← hlook] at hne ⊢
            generalize hm : min (n - tot) (BSIZE - off % BSIZE) = m
            have hmle : m ≤ BSIZE - off % BSIZE := hm ▸ Nat.min_le_right ..
            have hmk : m ≤ k := hk ▸ hm ▸ Nat.min_le_left ..
            have hrest : n - (tot + m) = k - m := by omega
            have htype₁ : d₁.type ≠ 0 := by
              rw [hstep₁.type_eq]
              exact htype
            generalize hdisk₂ : Function.update disk₁ (look disk₁ d₁ (off / BSIZE)).toNat
              (memmove (disk₁ (look disk₁ d₁ (off / BSIZE)).toNat) (off % BSIZE) m
                fun i => src (tot + i)) = disk₂
            obtain ⟨hstep₂, hbyte⟩ := writeBlock_spec hstep₁.acc htype₁ hne hmle hmk hdisk₂
            have hstep := hstep₁.trans hstep₂
            have hlook₂ : look disk₂ d₁ (off / BSIZE) ≠ 0 := by
              rw [hstep₂.look hne]
              exact hne
            have hcard₂ : (unused sb disk₂).card = (unused sb disk₁).card := by
              have hle := le_look hstep₁.acc htype₁ hne
              rw [← hdisk₂, unused_congr fun b _ hlt =>
                Function.update_of_ne (Nat.ne_of_lt (Nat.lt_of_lt_of_le hlt hle)) _ _]
            have hloop := ih (n - (tot + m)) (by omega) (off + m) (tot + m) hstep₂.acc htype₁
              (by omega) rfl
            rw [hrest] at hloop
            cases hw : writeLoop sb src n disk₂ d₁ (off + m) (tot + m) with
            | error e =>
                rw [hw] at hloop
                refine ⟨hloop.1, ?_⟩
                have hneed := cost_add_need_le hstep hlook₂ hmk hpos
                have hfew := hloop.2
                omega
            | ok r =>
                rw [hw] at hloop
                obtain ⟨hstep₃, hbytes, hsame⟩ := hloop
                refine ⟨hstep.trans (hstep₃.mono fun p hp => ?_), fun i hi => ?_, fun hall => ?_⟩
                · omega
                · by_cases him : i < m
                  · have hdiv := (div_mod_add (Nat.lt_of_lt_of_le him hmle)).1
                    have hlook₃ : look disk₂ d₁ ((off + i) / BSIZE) ≠ 0 := by
                      rw [hdiv]
                      exact hlook₂
                    have hout : ¬ (off + m ≤ off + i ∧ off + i < off + m + (k - m)) := by omega
                    rw [hstep₃.look hlook₃, hstep₃.bytes _ hout hlook₃, hbyte i him]
                    exact ⟨hlook₃, rfl⟩
                  · obtain ⟨j, rfl⟩ := Nat.exists_eq_add_of_le (Nat.le_of_not_lt him)
                    rw [← Nat.add_assoc, ← Nat.add_assoc]
                    exact hbytes j (by omega)
                · have hfirst := hall 0 hpos
                  rw [Nat.add_zero] at hfirst
                  rw [bmap_of_look hfirst] at hb
                  obtain ⟨-, rfl, -⟩ : _ ∧ d = d₁ ∧ disk = disk₁ := by
                    injection hb with hb
                    injection hb with haddr hb
                    injection hb with hd hdisk
                    exact ⟨haddr, hd, hdisk⟩
                  refine hsame fun j hj => ?_
                  have hold := hall (m + j) (by omega)
                  rw [← Nat.add_assoc] at hold
                  rw [hstep.look hold]
                  exact hold
      · have hzero : k = 0 := by omega
        subst hzero
        rw [writeLoop, if_neg hlt]
        exact ⟨Step.refl hacc, fun i hi => absurd hi (Nat.not_lt_zero i), fun _ => rfl⟩

end OsCourse.Fs
