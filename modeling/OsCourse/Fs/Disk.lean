import Mathlib.Data.Finset.Card
import OsCourse.Fs.Model

/-!
# OsCourse.Fs.Disk

What the accessors of a disk read and write: disk inodes (`dinode_iupdate`), and the
free map, through which `balloc` and `bfree` keep the account of the blocks that
are owned (`Acc`).
-/

namespace OsCourse.Fs

open Lib

/-! ### Disk inodes -/

namespace Dinode

/-- A disk inode is 64 bytes. -/
theorem read_congr {b c : Block} {k : Nat} (h : ∀ i, 64 * k ≤ i → i < 64 * k + 64 → b i = c i) :
    read b k = read c k := by
  have hfield : ∀ off n, 64 * k ≤ off → off + n ≤ 64 * k + 64 →
      getField b off n = getField c off n := fun off n hlo hhi =>
    getField_congr fun i hi hn => h i (Nat.le_trans hlo hi) (Nat.lt_of_lt_of_le hn hhi)
  have hword : ∀ i, 16 * k ≤ i → i < 16 * k + 16 → word b i = word c i := fun i hlo hhi => by
    rw [word, word, hfield (4 * i) 4 (by omega) (by omega)]
  have haddrs : (Vector.ofFn fun i : Fin 13 => word b (16 * k + 3 + i)) =
      Vector.ofFn fun i => word c (16 * k + 3 + i) :=
    congrArg Vector.ofFn (funext fun i => hword _ (by omega) (by omega))
  rw [read, read, haddrs, hword (16 * k + 2) (by omega) (by omega),
    hfield (64 * k) 2 (by omega) (by omega), hfield (64 * k + 2) 2 (by omega) (by omega),
    hfield (64 * k + 4) 2 (by omega) (by omega), hfield (64 * k + 6) 2 (by omega) (by omega)]

/-- A write leaves the bytes of the other inodes alone. -/
theorem write_of_lt (b : Block) (d : Dinode) {k i : Nat} (h : i < 64 * k ∨ 64 * k + 64 ≤ i) :
    write b k d i = b i := by
  have hlen : d.addrs.toList.length = 13 := d.addrs.length_toList
  rw [write, setWords_of_lt _ _ (by omega), setWord, setField_of_lt _ (by omega),
    setField_of_lt _ (by omega), setField_of_lt _ (by omega), setField_of_lt _ (by omega),
    setField_of_lt _ (by omega)]

theorem read_write_of_ne (b : Block) (d : Dinode) {k k' : Nat} (h : k' ≠ k) :
    read (write b k d) k' = read b k' :=
  read_congr fun _ _ _ => write_of_lt b d (by omega)

/-- The bytes before the addresses, after a write. -/
theorem getField_write (b : Block) (k : Nat) (d : Dinode) {off n : Nat} (h : off + n ≤ 64 * k + 8) :
    getField (write b k d) off n = getField (setField (setField (setField (setField b
      (64 * k) 2 d.type.toNat) (64 * k + 2) 2 d.major.toNat) (64 * k + 4) 2 d.minor.toNat)
      (64 * k + 6) 2 d.nlink.toNat) off n := by
  rw [write, getField_setWords _ _ (by omega), setWord,
    getField_setField_of_disjoint _ (by omega)]

/-- A number of two bytes, read back. -/
theorem ofNat_getField_setField (b : Block) (off : Nat) (v : UInt16) :
    UInt16.ofNat (getField (setField b off 2 v.toNat) off 2) = v := by
  have hlt : v.toNat < 256 ^ 2 := Nat.lt_of_lt_of_eq v.toNat_lt (by decide)
  rw [getField_setField, Nat.mod_eq_of_lt hlt, UInt16.ofNat_toNat]

theorem read_write (b : Block) (k : Nat) (d : Dinode) : read (write b k d) k = d := by
  have hlen : d.addrs.toList.length = 13 := d.addrs.length_toList
  have htype : UInt16.ofNat (getField (write b k d) (64 * k) 2) = d.type := by
    rw [getField_write b k d (by omega), getField_setField_of_disjoint _ (by omega),
      getField_setField_of_disjoint _ (by omega), getField_setField_of_disjoint _ (by omega),
      ofNat_getField_setField]
  have hmajor : UInt16.ofNat (getField (write b k d) (64 * k + 2) 2) = d.major := by
    rw [getField_write b k d (by omega), getField_setField_of_disjoint _ (by omega),
      getField_setField_of_disjoint _ (by omega), ofNat_getField_setField]
  have hminor : UInt16.ofNat (getField (write b k d) (64 * k + 4) 2) = d.minor := by
    rw [getField_write b k d (by omega), getField_setField_of_disjoint _ (by omega),
      ofNat_getField_setField]
  have hnlink : UInt16.ofNat (getField (write b k d) (64 * k + 6) 2) = d.nlink := by
    rw [getField_write b k d (by omega), ofNat_getField_setField]
  have hsize : word (write b k d) (16 * k + 2) = d.size := by
    rw [word, write, getField_setWords _ _ (by omega)]
    exact word_setWord _ _ _
  have haddrs : (Vector.ofFn fun i : Fin 13 => word (write b k d) (16 * k + 3 + i)) = d.addrs := by
    refine Vector.ext fun i hi => ?_
    rw [Vector.getElem_ofFn, write, word_setWords _ _ _ (Nat.lt_of_lt_of_eq hi hlen.symm), Vector.getElem_toList]
  rw [read, htype, hmajor, hminor, hnlink, hsize, haddrs]

@[simp] theorem addr_zero (i : Nat) : zero.addr i = 0 := by
  rw [addr, zero, Vector.getElem?_replicate]
  split <;> rfl

theorem addr_setAddr (d : Dinode) {i : Nat} (hi : i < 13) (a : UInt32) :
    (d.setAddr i a).addr i = a := by
  rw [addr, setAddr, Vector.getElem?_setIfInBounds_self_of_lt hi, Option.getD_some]

theorem addr_setAddr_of_ne (d : Dinode) {i j : Nat} (h : j ≠ i) (a : UInt32) :
    (d.setAddr i a).addr j = d.addr j := by
  rw [addr, setAddr, Vector.getElem?_setIfInBounds_ne (Ne.symm h), addr]

/-- Writing back the address that was read. -/
theorem setAddr_addr (d : Dinode) (i : Nat) : d.setAddr i (d.addr i) = d := by
  have haddrs : d.addrs.setIfInBounds i (d.addr i) = d.addrs := by
    refine Vector.ext fun j hj => ?_
    rw [Vector.getElem_setIfInBounds hj]
    split
    · next h => rw [addr, h, Vector.getElem?_eq_getElem hj, Option.getD_some]
    · rfl
  rw [setAddr, haddrs]

end Dinode

variable {sb : Superblock} {disk disk' : Disk}

/-- Inode blocks are before the free map. -/
theorem IBLOCK_lt {inum : Nat} (h : inum < sb.ninodes) : IBLOCK sb inum < sb.bmapstart := by
  have hblock : inum / IPB ≤ sb.ninodes / IPB := Nat.div_le_div_right (Nat.le_of_lt h)
  have hlt := sb.inodes_lt
  rw [IBLOCK]
  omega

theorem dinode_congr {inum : Nat} (hdisk : ∀ b, b < sb.bmapstart → disk' b = disk b)
    (h : inum < sb.ninodes) : dinode sb disk' inum = dinode sb disk inum := by
  rw [dinode, dinode, hdisk _ (IBLOCK_lt h)]

@[simp] theorem dinode_iupdate_self (inum : Nat) (d : Dinode) :
    dinode sb (iupdate sb disk inum d) inum = d := by
  rw [dinode, iupdate, Function.update_self, Dinode.read_write]

theorem dinode_iupdate_of_ne {inum i : Nat} (h : i ≠ inum) (d : Dinode) :
    dinode sb (iupdate sb disk inum d) i = dinode sb disk i := by
  rw [dinode, dinode, iupdate]
  by_cases hblock : IBLOCK sb i = IBLOCK sb inum
  · have hne : i % IPB ≠ inum % IPB := by
      have hdiv : i / IPB = inum / IPB := Nat.add_right_cancel hblock
      simp only [IPB] at *
      omega
    rw [hblock, Function.update_self, Dinode.read_write_of_ne _ _ hne]
  · rw [Function.update_of_ne hblock]

/-- `iupdate` writes one block of inodes. -/
theorem iupdate_of_ge {inum b : Nat} (hinum : inum < sb.ninodes) (h : sb.bmapstart ≤ b)
    (d : Dinode) : iupdate sb disk inum d b = disk b :=
  Function.update_of_ne (Nat.ne_of_gt (Nat.lt_of_lt_of_le (IBLOCK_lt hinum) h)) _ _

/-! ### The free map -/

/-- The bit of block `b`. -/
def used (sb : Superblock) (disk : Disk) (b : Nat) : Bool := bit (disk (BBLOCK sb b)) (b % BPB)

/-- The free map is metadata. -/
theorem BBLOCK_lt {b : Nat} (h : b < sb.size) : BBLOCK sb b < sb.nmeta := by
  have hblock : b / BPB ≤ sb.size / BPB := Nat.div_le_div_right (Nat.le_of_lt h)
  have hlt := sb.bmap_lt
  rw [BBLOCK]
  omega

theorem le_BBLOCK (sb : Superblock) (b : Nat) : sb.bmapstart ≤ BBLOCK sb b := Nat.le_add_left ..

theorem bmapstart_lt (sb : Superblock) : sb.bmapstart < sb.nmeta :=
  Nat.lt_of_le_of_lt (Nat.le_add_right ..) sb.bmap_lt

/-- The data blocks and the inodes are off the free map. -/
theorem used_congr {b : Nat}
    (hdisk : ∀ c, sb.bmapstart ≤ c → c < sb.nmeta → disk' c = disk c) (h : b < sb.size) :
    used sb disk' b = used sb disk b := by
  rw [used, used, hdisk _ (le_BBLOCK sb b) (BBLOCK_lt h)]

/-- Two bits of one block of the free map, or not. -/
theorem same_block {b c : Nat} (h : BBLOCK sb c = BBLOCK sb b) : c % BPB = b % BPB ↔ c = b := by
  have hdiv : c / BPB = b / BPB := Nat.add_right_cancel h
  simp only [BPB] at *
  omega

theorem used_setBit (b c : Nat) :
    used sb (Function.update disk (BBLOCK sb b) (setBit (disk (BBLOCK sb b)) (b % BPB))) c =
      (decide (c = b) || used sb disk c) := by
  rw [used, used]
  by_cases hblock : BBLOCK sb c = BBLOCK sb b
  · rw [hblock, Function.update_self, bit_setBit]
    simp only [same_block hblock]
  · have hne : c ≠ b := fun h => hblock (h ▸ rfl)
    rw [Function.update_of_ne hblock, decide_eq_false hne, Bool.false_or]

theorem used_clearBit (b c : Nat) :
    used sb (Function.update disk (BBLOCK sb b) (clearBit (disk (BBLOCK sb b)) (b % BPB))) c =
      (!decide (c = b) && used sb disk c) := by
  rw [used, used]
  by_cases hblock : BBLOCK sb c = BBLOCK sb b
  · rw [hblock, Function.update_self, bit_clearBit]
    simp only [same_block hblock]
  · have hne : c ≠ b := fun h => hblock (h ▸ rfl)
    rw [Function.update_of_ne hblock, decide_eq_false hne, Bool.not_false, Bool.true_and]

/-- The blocks that are free. -/
def unused (sb : Superblock) (disk : Disk) : Finset Nat :=
  (Finset.range sb.size).filter fun b => used sb disk b = false

theorem mem_unused {b : Nat} : b ∈ unused sb disk ↔ b < sb.size ∧ used sb disk b = false := by
  rw [unused, Finset.mem_filter, Finset.mem_range]

theorem unused_congr (hdisk : ∀ c, sb.bmapstart ≤ c → c < sb.nmeta → disk' c = disk c) :
    unused sb disk' = unused sb disk := by
  refine Finset.filter_congr fun b hb => ?_
  rw [used_congr hdisk (Finset.mem_range.mp hb)]

/-! ### `balloc` and `bfree` -/

/-- `P` holds of what a call returns, or `Q` of its panic. -/
def Outcome {α : Type} (x : Except Panic α) (P : α → Prop) (Q : Panic → Prop) : Prop :=
  match x with
  | .ok a => P a
  | .error e => Q e

@[simp] theorem outcome_ok {α : Type} {P : α → Prop} {Q : Panic → Prop} {a : α} :
    Outcome (.ok a) P Q ↔ P a := Iff.rfl

@[simp] theorem outcome_error {α : Type} {P : α → Prop} {Q : Panic → Prop} {e : Panic} :
    Outcome (.error e) P Q ↔ Q e := Iff.rfl

theorem Outcome.map {α β : Type} {x : Except Panic α} {P : β → Prop} {Q : Panic → Prop}
    {f : α → β} (h : Outcome x (fun a => P (f a)) Q) : Outcome (x.map f) P Q := by
  cases x with
  | error e => exact h
  | ok a => exact h

theorem Outcome.mono {α : Type} {x : Except Panic α} {P P' : α → Prop} {Q Q' : Panic → Prop}
    (h : Outcome x P Q) (hP : ∀ a, P a → P' a) (hQ : ∀ e, Q e → Q' e) : Outcome x P' Q' := by
  cases x with
  | error e => exact hQ e h
  | ok a => exact hP a h

/-- A bit of a block of the free map. -/
theorem used_add {b bi : Nat} (hb : b % BPB = 0) (hbi : bi < BPB) :
    used sb disk (b + bi) = bit (disk (BBLOCK sb b)) bi := by
  have hdiv : (b + bi) / BPB = b / BPB := by
    simp only [BPB] at *
    omega
  have hmod : (b + bi) % BPB = bi := by
    simp only [BPB] at *
    omega
  rw [used, BBLOCK, hdiv, hmod, BBLOCK]

/-- The block that the inner loop finds is free; it finds none if there is none. -/
theorem ballocInner_spec (sb : Superblock) (disk : Disk) {b : Nat} (hb : b % BPB = 0) (bi : Nat) :
    match ballocInner sb disk b bi with
    | some r => r ∈ unused sb disk
    | none => ∀ c ∈ unused sb disk, b + bi ≤ c → b + BPB ≤ c := by
  fun_induction ballocInner sb disk b bi with
  | case1 bi hlt hbit ih =>
      split at ih
      · exact ih
      · intro c hc hle
        refine ih c hc (Nat.lt_of_le_of_ne hle fun heq : b + bi = c => ?_)
        have hused := (mem_unused.mp hc).2
        rw [← heq, used_add hb hlt.1, hbit] at hused
        cases hused
  | case2 bi hlt hbit =>
      refine mem_unused.mpr ⟨hlt.2, ?_⟩
      rw [used_add hb hlt.1]
      exact Bool.eq_false_of_not_eq_true hbit
  | case3 bi hlt =>
      intro c hc hle
      have hsize := (mem_unused.mp hc).1
      have hend : BPB ≤ bi := Nat.le_of_not_lt fun hbi => hlt ⟨hbi, Nat.lt_of_le_of_lt hle hsize⟩
      exact Nat.le_trans (Nat.add_le_add_left hend b) hle

/-- The block that the outer loop finds is free; it finds none if there is none. -/
theorem ballocOuter_spec (sb : Superblock) (disk : Disk) {b : Nat} (hb : b % BPB = 0) :
    match ballocOuter sb disk b with
    | some r => r ∈ unused sb disk
    | none => ∀ c ∈ unused sb disk, c < b := by
  fun_induction ballocOuter sb disk b with
  | case1 b hlt r hr =>
      have hinner := ballocInner_spec sb disk hb 0
      rw [hr] at hinner
      exact hinner
  | case2 b hlt hr ih =>
      have hinner := ballocInner_spec sb disk hb 0
      rw [hr] at hinner
      have hih := ih (by rw [Nat.add_mod_right, hb])
      split at hih
      · exact hih
      · intro c hc
        by_contra hle
        have hend := hinner c hc (Nat.le_of_not_lt hle)
        exact Nat.not_lt_of_le hend (hih c hc)
  | case3 b hlt =>
      intro c hc
      exact Nat.lt_of_lt_of_le (mem_unused.mp hc).1 (Nat.le_of_not_lt hlt)

/-- The blocks in use are the metadata and those of `N`, each owned once. -/
abbrev Acc (sb : Superblock) (disk : Disk) (N : Multiset Nat) : Prop :=
  Accounts sb.nmeta sb.size (used sb disk) N

/-- What `balloc` does: `a` was free, and is in use and zero. -/
structure Balloc (sb : Superblock) (disk : Disk) (a : UInt32) (disk' : Disk) : Prop where
  free : a.toNat ∈ unused sb disk
  le : sb.nmeta ≤ a.toNat
  used_eq : ∀ c, c < sb.size → used sb disk' c = (decide (c = a.toNat) || used sb disk c)
  zero : disk' a.toNat = fun _ => 0
  kept : ∀ b, b < sb.bmapstart ∨ sb.nmeta ≤ b → b ≠ a.toNat → disk' b = disk b

namespace Balloc

variable {a : UInt32} {N : Multiset Nat}

theorem acc (h : Balloc sb disk a disk') (hacc : Acc sb disk N) : Acc sb disk' (a.toNat ::ₘ N) :=
  hacc.alloc (mem_unused.mp h.free).1 (mem_unused.mp h.free).2 h.used_eq

theorem notMem (h : Balloc sb disk a disk') (hacc : Acc sb disk N) : a.toNat ∉ N :=
  (hacc.fresh (mem_unused.mp h.free).1 (mem_unused.mp h.free).2).1

theorem ne_zero (h : Balloc sb disk a disk') : a ≠ 0 := by
  rintro rfl
  exact Nat.not_lt_zero _ (Nat.lt_of_lt_of_le (bmapstart_lt sb) h.le)

/-- One free block less. -/
theorem card (h : Balloc sb disk a disk') :
    (unused sb disk').card + 1 = (unused sb disk).card := by
  have hunused : unused sb disk' = (unused sb disk).erase a.toNat := by
    ext c
    rw [Finset.mem_erase, mem_unused, mem_unused]
    constructor
    · rintro ⟨hlt, hfalse⟩
      rw [h.used_eq c hlt, Bool.or_eq_false_iff, decide_eq_false_iff_not] at hfalse
      exact ⟨hfalse.1, hlt, hfalse.2⟩
    · rintro ⟨hne, hlt, hfalse⟩
      rw [h.used_eq c hlt, decide_eq_false hne, hfalse]
      exact ⟨hlt, rfl⟩
  rw [hunused, Finset.card_erase_add_one h.free]

end Balloc

theorem balloc_spec {N : Multiset Nat} (hacc : Acc sb disk N) :
    Outcome (balloc sb disk) (fun r => Balloc sb disk r.1 r.2) fun e =>
      e = .outOfBlocks ∧ unused sb disk = ∅ := by
  have houter := ballocOuter_spec sb disk (Nat.zero_mod BPB)
  rw [balloc]
  cases hb : ballocOuter sb disk 0 with
  | none =>
      rw [hb] at houter
      refine ⟨rfl, Finset.eq_empty_of_forall_notMem fun c hc => ?_⟩
      exact Nat.not_lt_zero c (houter c hc)
  | some b =>
      rw [hb] at houter
      have hmem := mem_unused.mp houter
      have hle := (hacc.fresh hmem.1 hmem.2).2
      have hsize := sb.size_lt
      have htoNat : (UInt32.ofNat b).toNat = b :=
        UInt32.toNat_ofNat_of_lt' (show b < 4294967296 by omega)
      refine ⟨?_, ?_, fun c hc => ?_, ?_, fun c hc hne => ?_⟩
      · rw [htoNat]
        exact houter
      · rw [htoNat]
        exact hle
      · have hmap : ∀ c, sb.bmapstart ≤ c → c < sb.nmeta →
            bzero (Function.update disk (BBLOCK sb b) (setBit (disk (BBLOCK sb b)) (b % BPB))) b c =
              Function.update disk (BBLOCK sb b) (setBit (disk (BBLOCK sb b)) (b % BPB)) c :=
          fun c _ hlt => Function.update_of_ne (Nat.ne_of_lt (Nat.lt_of_lt_of_le hlt hle)) _ _
        rw [htoNat, ← used_setBit b c]
        exact used_congr hmap hc
      · rw [htoNat]
        exact Function.update_self ..
      · rw [htoNat] at hne
        have hmap : c ≠ BBLOCK sb b := by
          have hlo := le_BBLOCK sb b
          have hhi := BBLOCK_lt hmem.1
          omega
        exact (Function.update_of_ne hne _ _).trans (Function.update_of_ne hmap _ _)

/-- `bfree` of a block that is owned returns, and takes the block off the account. -/
theorem bfree_spec {N : Multiset Nat} {b : UInt32} (hacc : Acc sb disk (b.toNat ::ₘ N)) :
    ∃ disk', bfree sb disk b = .ok disk' ∧ Acc sb disk' N ∧
      ∀ c, c < sb.bmapstart ∨ sb.nmeta ≤ c → disk' c = disk c := by
  have hmem := Multiset.mem_cons_self b.toNat N
  have hlt := (hacc.range _ hmem).2
  refine ⟨_, if_pos (hacc.used_of_mem hmem), ?_, fun c hc => Function.update_of_ne ?_ _ _⟩
  · exact hacc.free fun c _ => used_clearBit b.toNat c
  · have hlo := le_BBLOCK sb b.toNat
    have hhi := BBLOCK_lt hlt
    omega

end OsCourse.Fs
