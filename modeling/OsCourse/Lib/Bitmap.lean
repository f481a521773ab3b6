import Mathlib.Algebra.Order.Group.Multiset
import Mathlib.Data.Nat.Bitwise
import OsCourse.Lib.Block

/-!
# OsCourse.Lib.Bitmap

**Free maps.** The bits of a block (`bit`, `setBit`, `clearBit`), and what it means
that a set of used blocks accounts for the owners of blocks (`Accounts`): the
blocks below `lo` are in use, and of those from `lo` on exactly the ones that
somebody owns, each by one owner. Allocation and release keep the account.
-/

namespace OsCourse.Lib

/-! ### Bits -/

/-- `1 << k`, in a byte. -/
def mask (k : Nat) : UInt8 := UInt8.ofNat (2 ^ k)

/-- `(data[i/8] & (1 << (i % 8))) != 0`. -/
def bit (b : Block) (i : Nat) : Bool := b (i / 8) &&& mask (i % 8) ≠ 0

/-- `data[i/8] |= 1 << (i % 8)`. -/
def setBit (b : Block) (i : Nat) : Block :=
  Function.update b (i / 8) (b (i / 8) ||| mask (i % 8))

/-- `data[i/8] &= ~(1 << (i % 8))`. -/
def clearBit (b : Block) (i : Nat) : Block :=
  Function.update b (i / 8) (b (i / 8) &&& ~~~mask (i % 8))

theorem toNat_mask {k : Nat} (hk : k < 8) : (mask k).toNat = 2 ^ k := by
  rw [mask, UInt8.toNat_ofNat', Nat.mod_eq_of_lt]
  exact Nat.pow_lt_pow_right (by decide) hk

theorem and_mask_ne_zero {x : UInt8} {k : Nat} (hk : k < 8) :
    x &&& mask k ≠ 0 ↔ x.toNat.testBit k = true := by
  rw [ne_eq, ← UInt8.toNat_inj, UInt8.toNat_and, toNat_mask hk, Nat.and_two_pow]
  cases x.toNat.testBit k with
  | false => simp
  | true => simp

theorem bit_eq (b : Block) (i : Nat) : bit b i = (b (i / 8)).toNat.testBit (i % 8) := by
  rw [bit, Bool.eq_iff_iff, decide_eq_true_iff]
  exact and_mask_ne_zero (Nat.mod_lt _ (by decide))

/-- Two bits in one byte, or not. -/
theorem same_bit {i j : Nat} (h : j / 8 = i / 8) : i % 8 = j % 8 ↔ j = i := by omega

theorem bit_setBit (b : Block) (i j : Nat) : bit (setBit b i) j = (decide (j = i) || bit b j) := by
  rw [bit_eq, bit_eq, setBit]
  by_cases hbyte : j / 8 = i / 8
  · rw [hbyte, Function.update_self, UInt8.toNat_or, Nat.testBit_or,
      toNat_mask (Nat.mod_lt _ (by decide)), Nat.testBit_two_pow, Bool.or_comm]
    simp only [same_bit hbyte]
  · have hne : j ≠ i := fun h => hbyte (h ▸ rfl)
    rw [Function.update_of_ne hbyte, decide_eq_false hne, Bool.false_or]

theorem bit_clearBit (b : Block) (i j : Nat) :
    bit (clearBit b i) j = (!decide (j = i) && bit b j) := by
  rw [bit_eq, bit_eq, clearBit]
  by_cases hbyte : j / 8 = i / 8
  · have hlt : j % 8 < 8 := Nat.mod_lt _ (by decide)
    have hnot : (~~~mask (i % 8)).toNat = 2 ^ 8 - (2 ^ (i % 8) + 1) := by
      rw [UInt8.toNat_not, toNat_mask (Nat.mod_lt _ (by decide)), Nat.sub_sub, Nat.add_comm 1]
      rfl
    rw [hbyte, Function.update_self, UInt8.toNat_and, Nat.testBit_and, hnot,
      Nat.testBit_two_pow_sub_succ (Nat.pow_lt_pow_right (by decide) (Nat.mod_lt _ (by decide))),
      Nat.testBit_two_pow, Bool.and_comm]
    simp only [same_bit hbyte, decide_eq_true hlt, Bool.true_and]
  · have hne : j ≠ i := fun h => hbyte (h ▸ rfl)
    rw [Function.update_of_ne hbyte, decide_eq_false hne, Bool.not_false, Bool.true_and]

/-! ### Accounts -/

/-- Of the blocks below `hi`, those in use are the ones below `lo` and the ones that
are owned; no block is owned twice. -/
structure Accounts (lo hi : Nat) (used : Nat → Bool) (owned : Multiset Nat) : Prop where
  nodup : owned.Nodup
  range : ∀ b ∈ owned, lo ≤ b ∧ b < hi
  used_iff : ∀ b, b < hi → (used b = true ↔ b < lo ∨ b ∈ owned)

namespace Accounts

variable {lo hi : Nat} {used used' : Nat → Bool} {owned : Multiset Nat} {b : Nat}

theorem used_of_mem (h : Accounts lo hi used owned) (hb : b ∈ owned) : used b = true :=
  (h.used_iff b (h.range b hb).2).mpr (.inr hb)

/-- A free block is not owned, and not below `lo`. -/
theorem fresh (h : Accounts lo hi used owned) (hb : b < hi) (hfree : used b = false) :
    b ∉ owned ∧ lo ≤ b := by
  have hnot := mt (h.used_iff b hb).mpr (by rw [hfree]; exact Bool.false_ne_true)
  rw [not_or, Nat.not_lt] at hnot
  exact ⟨hnot.2, hnot.1⟩

/-- A free block gets an owner. -/
theorem alloc (h : Accounts lo hi used owned) (hb : b < hi) (hfree : used b = false)
    (hused : ∀ c, c < hi → used' c = (decide (c = b) || used c)) :
    Accounts lo hi used' (b ::ₘ owned) where
  nodup := Multiset.nodup_cons.mpr ⟨(h.fresh hb hfree).1, h.nodup⟩
  range c hc := by
    rcases Multiset.mem_cons.mp hc with rfl | hc
    · exact ⟨(h.fresh hb hfree).2, hb⟩
    · exact h.range c hc
  used_iff c hc := by
    rw [hused c hc, Bool.or_eq_true, decide_eq_true_iff, h.used_iff c hc, Multiset.mem_cons]
    exact or_left_comm

/-- A block is released by its owner. -/
theorem free (h : Accounts lo hi used (b ::ₘ owned))
    (hused : ∀ c, c < hi → used' c = (!decide (c = b) && used c)) : Accounts lo hi used' owned where
  nodup := (Multiset.nodup_cons.mp h.nodup).2
  range c hc := h.range c (Multiset.mem_cons_of_mem hc)
  used_iff c hc := by
    have hb := h.range b (Multiset.mem_cons_self ..)
    have hnot := (Multiset.nodup_cons.mp h.nodup).1
    rw [hused c hc, Bool.and_eq_true, Bool.not_eq_true', decide_eq_false_iff_not, h.used_iff c hc,
      Multiset.mem_cons]
    constructor
    · rintro ⟨hne, hlo | rfl | hmem⟩
      · exact .inl hlo
      · exact absurd rfl hne
      · exact .inr hmem
    · rintro (hlo | hmem)
      · exact ⟨by rintro rfl; omega, .inl hlo⟩
      · exact ⟨by rintro rfl; exact hnot hmem, .inr (.inr hmem)⟩

/-- Only what is in use, and what is owned, matters. -/
theorem congr (h : Accounts lo hi used owned) {owned' : Multiset Nat} (howned : owned' = owned)
    (hused : ∀ c, c < hi → used' c = used c) : Accounts lo hi used' owned' where
  nodup := howned ▸ h.nodup
  range := howned ▸ h.range
  used_iff c hc := by rw [hused c hc, howned, h.used_iff c hc]

end Accounts

end OsCourse.Lib
