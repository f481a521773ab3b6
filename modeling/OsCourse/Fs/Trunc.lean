import OsCourse.Fs.Bmap

/-!
# OsCourse.Fs.Trunc

`itrunc` frees the blocks of an inode one at a time. Where the account is right it
never frees a free block, and takes exactly the blocks of the inode off it.
-/

namespace OsCourse.Fs

open Lib

variable {sb : Superblock} {X : Multiset Nat} {disk disk' : Disk} {d d' : Dinode}

/-- The blocks of a list of addresses. -/
def blocks (addrs : List UInt32) : Multiset Nat := ↑(addrs.filterMap ptr)

theorem blocks_cons_zero (addrs : List UInt32) : blocks (0 :: addrs) = blocks addrs := rfl

theorem blocks_cons {a : UInt32} (h : a ≠ 0) (addrs : List UInt32) :
    blocks (a :: addrs) = a.toNat ::ₘ blocks addrs := by
  rw [blocks, List.filterMap_cons_some (ptr_of_ne h), ← Multiset.cons_coe, blocks]

theorem held_ptr (f : Nat → UInt32) (n : Nat) :
    held (fun i => ptr (f i)) n = blocks ((List.range n).map f) := by
  rw [held, blocks, Multiset.range, Multiset.filterMap_coe, List.filterMap_map]
  rfl

/-- The slots of an inode in the order in which they are freed: the direct ones, the
entries of the indirect block, and the indirect block. -/
theorem slots_eq (htype : d.type ≠ 0) :
    slots disk d = blocks ((List.range NDIRECT).map d.addr) +
      (blocks ((List.range NINDIRECT).map fun j => slot disk d (j + 13)) +
        blocks [d.addr NDIRECT]) := by
  have hsplit : NSLOT = NDIRECT + (1 + NINDIRECT) := rfl
  have hdirect : (List.range NDIRECT).map (fun i => slot disk d i) =
      (List.range NDIRECT).map d.addr :=
    List.map_congr_left fun i hi =>
      slot_addr (Nat.lt_trans (List.mem_range.mp hi) (by decide))
  have hindirect : (List.range 1).map (fun i => slot disk d (NDIRECT + i)) = [d.addr NDIRECT] :=
    congrArg (fun a => [a]) (slot_addr (show NDIRECT < 13 by decide))
  have hentries : (List.range NINDIRECT).map (fun j => slot disk d (NDIRECT + (1 + j))) =
      (List.range NINDIRECT).map fun j => slot disk d (j + 13) :=
    List.map_congr_left fun j _ => congrArg (slot disk d) (by simp only [NDIRECT]; omega)
  rw [slots_of_ne htype, hsplit, held_add, held_add, held_ptr, held_ptr, held_ptr, hdirect,
    hindirect, hentries]
  ac_rfl

/-- The entries of the indirect block. -/
theorem entries_eq (hind : d.addr NDIRECT ≠ 0) :
    (List.range NINDIRECT).map (fun j => slot disk d (j + 13)) =
      (List.range NINDIRECT).map (word (disk (d.addr NDIRECT).toNat)) :=
  List.map_congr_left fun j _ => slot_entry hind j

/-- Without an indirect block there are no entries. -/
theorem blocks_entries_of_zero (hind : d.addr NDIRECT = 0) :
    blocks ((List.range NINDIRECT).map fun j => slot disk d (j + 13)) = 0 := by
  rw [← held_ptr]
  exact held_eq_zero fun j _ => by rw [slot_entry_eq_zero hind, ptr_zero]

/-- What `bfree` leaves alone: all but the free map. -/
def SameData (sb : Superblock) (disk disk' : Disk) : Prop :=
  ∀ c, c < sb.bmapstart ∨ sb.nmeta ≤ c → disk' c = disk c

theorem truncDirect_spec {is : List Nat} (hnodup : is.Nodup) (hlt : ∀ i ∈ is, i < 13)
    (hacc : Acc sb disk (blocks (is.map d.addr) + X)) :
    ∃ disk' d', truncDirect sb is disk d = .ok (disk', d') ∧ Acc sb disk' X ∧
      SameData sb disk disk' ∧ { d' with addrs := d.addrs } = d ∧
      ∀ i, d'.addr i = if i ∈ is then 0 else d.addr i := by
  induction is generalizing disk d with
  | nil =>
      refine ⟨disk, d, rfl, ?_, fun _ _ => rfl, rfl, fun i => ?_⟩
      · exact hacc.congr (Multiset.zero_add X).symm fun _ _ => rfl
      · rw [if_neg List.not_mem_nil]
  | cons i is ih =>
      obtain ⟨hi, hnodup⟩ := List.nodup_cons.mp hnodup
      have hlt' : ∀ j ∈ is, j < 13 := fun j hj => hlt j (List.mem_cons_of_mem i hj)
      rw [List.map_cons] at hacc
      by_cases hz : d.addr i = 0
      · rw [hz, blocks_cons_zero] at hacc
        obtain ⟨disk', d', hok, hacc', hdata, hfields, haddr⟩ := ih hnodup hlt' hacc
        refine ⟨disk', d', ?_, hacc', hdata, hfields, fun j => ?_⟩
        · rw [truncDirect, if_pos hz, hok]
        · rw [haddr, ← hz]
          by_cases hji : j = i
          · subst hji
            rw [if_neg hi, if_pos List.mem_cons_self]
          · simp only [List.mem_cons, hji, false_or, hz]
      · rw [blocks_cons hz, Multiset.cons_add] at hacc
        obtain ⟨disk₁, hfree, hacc₁, hdata₁⟩ := bfree_spec hacc
        have hmap : is.map (d.setAddr i 0).addr = is.map d.addr :=
          List.map_congr_left fun j hj =>
            Dinode.addr_setAddr_of_ne d (fun h : j = i => hi (h ▸ hj)) 0
        rw [← hmap] at hacc₁
        obtain ⟨disk', d', hok, hacc', hdata, hfields, haddr⟩ := ih hnodup hlt' hacc₁
        refine ⟨disk', d', ?_, hacc', fun c hc => (hdata c hc).trans (hdata₁ c hc), ?_,
          fun j => ?_⟩
        · rw [truncDirect, if_neg hz, hfree]
          exact hok
        · have hall := congrArg (fun e : Dinode => { e with addrs := d.addrs }) hfields
          exact hall
        · rw [haddr]
          by_cases hji : j = i
          · subst hji
            rw [if_neg hi, if_pos List.mem_cons_self,
              Dinode.addr_setAddr d (hlt j List.mem_cons_self)]
          · simp only [List.mem_cons, hji, false_or, Dinode.addr_setAddr_of_ne d hji]

theorem truncIndirect_spec {a : Block} {js : List Nat}
    (hacc : Acc sb disk (blocks (js.map (word a)) + X)) :
    ∃ disk', truncIndirect sb a js disk = .ok disk' ∧ Acc sb disk' X ∧ SameData sb disk disk' := by
  induction js generalizing disk with
  | nil => exact ⟨disk, rfl, hacc.congr (Multiset.zero_add X).symm fun _ _ => rfl, fun _ _ => rfl⟩
  | cons j js ih =>
      rw [List.map_cons] at hacc
      by_cases hz : word a j = 0
      · rw [hz, blocks_cons_zero] at hacc
        rw [truncIndirect, if_pos hz]
        exact ih hacc
      · rw [blocks_cons hz, Multiset.cons_add] at hacc
        obtain ⟨disk₁, hfree, hacc₁, hdata₁⟩ := bfree_spec hacc
        obtain ⟨disk', hok, hacc', hdata⟩ := ih hacc₁
        refine ⟨disk', ?_, hacc', fun c hc => (hdata c hc).trans (hdata₁ c hc)⟩
        rw [truncIndirect, if_neg hz, hfree]
        exact hok

/-- `itrunc` returns; the inode is left without blocks, and is written. -/
theorem itrunc_spec (inum : Nat) (htype : d.type ≠ 0) (hacc : Acc sb disk (slots disk d + X)) :
    ∃ disk' d', itrunc sb disk inum d = .ok (iupdate sb disk' inum d', d') ∧ Acc sb disk' X ∧
      SameData sb disk disk' ∧ ∀ i, i < 13 → d'.addr i = 0 := by
  have hlt : ∀ i ∈ List.range NDIRECT, i < 13 := fun i hi =>
    Nat.lt_trans (List.mem_range.mp hi) (by decide)
  rw [slots_eq htype, add_assoc] at hacc
  obtain ⟨disk₁, d₁, hdirect, hacc₁, hdata₁, -, haddr₁⟩ :=
    truncDirect_spec List.nodup_range hlt hacc
  have hind₁ : d₁.addr NDIRECT = d.addr NDIRECT := by
    rw [haddr₁, if_neg fun h => Nat.lt_irrefl _ (List.mem_range.mp h)]
  have hzero : ∀ i, i < 13 → i ≠ NDIRECT → d₁.addr i = 0 := fun i hi hne => by
    rw [haddr₁, if_pos (List.mem_range.mpr (Nat.lt_of_le_of_ne (Nat.le_of_lt_succ hi) hne))]
  rw [itrunc, hdirect]
  dsimp only
  rw [hind₁]
  by_cases hind : d.addr NDIRECT = 0
  · rw [blocks_entries_of_zero hind, hind, zero_add] at hacc₁
    refine ⟨disk₁, { d₁ with size := 0 }, if_pos hind, hacc₁.congr (zero_add X).symm fun _ _ => rfl,
      hdata₁, fun i hi => ?_⟩
    by_cases hne : i = NDIRECT
    · rw [hne]
      exact hind₁.trans hind
    · exact hzero i hi hne
  · rw [entries_eq hind, add_assoc] at hacc₁
    have hblock : disk₁ (d.addr NDIRECT).toNat = disk (d.addr NDIRECT).toNat := by
      refine hdata₁ _ (.inr (hacc₁.range _ ?_).1)
      rw [blocks_cons hind]
      exact Multiset.mem_add.mpr (.inr (Multiset.mem_add.mpr (.inl (Multiset.mem_cons_self ..))))
    rw [← hblock] at hacc₁
    obtain ⟨disk₂, hindirect, hacc₂, hdata₂⟩ := truncIndirect_spec hacc₁
    rw [blocks_cons hind, Multiset.cons_add] at hacc₂
    obtain ⟨disk₃, hfree, hacc₃, hdata₃⟩ := bfree_spec hacc₂
    rw [if_neg hind, hindirect]
    dsimp only
    rw [hfree]
    refine ⟨disk₃, { d₁.setAddr NDIRECT 0 with size := 0 }, rfl,
      hacc₃.congr (zero_add X).symm fun _ _ => rfl,
      fun c hc => (hdata₃ c hc).trans ((hdata₂ c hc).trans (hdata₁ c hc)), fun i hi => ?_⟩
    by_cases hne : i = NDIRECT
    · rw [hne]
      exact Dinode.addr_setAddr d₁ (by decide) 0
    · exact (Dinode.addr_setAddr_of_ne d₁ hne 0).trans (hzero i hi hne)

end OsCourse.Fs
