import Mathlib.Algebra.Ring.Nat
import Mathlib.Logic.Function.Basic

/-!
# OsCourse.Lib.Block

**Disk blocks as bytes.** A block maps offsets to bytes. Programs lay structures
over a block: an unsigned number of `n` bytes at an offset, least significant
byte first (`getField`, `setField`), and arrays of 32-bit words (`word`,
`setWord`). Reading a field back gives what was written, and leaves every field
that does not overlap alone.
-/

namespace OsCourse.Lib

/-- The content of a block, by offset. -/
abbrev Block := Nat → UInt8

/-- The number in the `n` bytes from offset `off`. -/
def getField (b : Block) (off : Nat) : Nat → Nat
  | 0 => 0
  | n + 1 => (b off).toNat + 256 * getField b (off + 1) n

/-- The block with `v` in the `n` bytes from offset `off`. -/
def setField (b : Block) (off n v : Nat) : Block := fun i =>
  if off ≤ i ∧ i < off + n then UInt8.ofNat (v / 256 ^ (i - off)) else b i

theorem setField_of_lt (b : Block) {off n v i : Nat} (h : i < off ∨ off + n ≤ i) :
    setField b off n v i = b i := by
  rw [setField, if_neg (by omega)]

/-- A field only depends on its own bytes. -/
theorem getField_congr {b c : Block} {off n : Nat} (h : ∀ i, off ≤ i → i < off + n → b i = c i) :
    getField b off n = getField c off n := by
  induction n generalizing off with
  | zero => rfl
  | succ n ih =>
      rw [getField, getField, h off le_rfl (by omega),
        ih fun i hi hn => h i (by omega) (by omega)]

theorem getField_setField_of_disjoint (b : Block) {off n off' n' v : Nat}
    (h : off' + n' ≤ off ∨ off + n ≤ off') :
    getField (setField b off n v) off' n' = getField b off' n' :=
  getField_congr fun _ hi hn => setField_of_lt b (by omega)

/-- A field read back, up to the bytes it has room for. -/
theorem getField_setField (b : Block) (off n v : Nat) :
    getField (setField b off n v) off n = v % 256 ^ n := by
  induction n generalizing b off v with
  | zero => rw [getField, Nat.pow_zero, Nat.mod_one]
  | succ n ih =>
      have hrest : getField (setField b off (n + 1) v) (off + 1) n =
          getField (setField b (off + 1) n (v / 256)) (off + 1) n := by
        refine getField_congr fun i hi hn => ?_
        have hexp : i - off = i - (off + 1) + 1 := by omega
        rw [setField, setField, if_pos (by omega), if_pos (by omega), hexp, Nat.pow_succ',
          Nat.div_div_eq_div_mul]
      have hfirst : setField b off (n + 1) v off = UInt8.ofNat v := by
        rw [setField, if_pos (by omega), Nat.sub_self, Nat.pow_zero, Nat.div_one]
      have hmod : v % 256 ^ (n + 1) = v % 256 + 256 * (v / 256 % 256 ^ n) := by
        rw [Nat.pow_succ', Nat.mod_mul]
      rw [getField, hrest, ih, hfirst, UInt8.toNat_ofNat', hmod]

theorem getField_lt (b : Block) (off n : Nat) : getField b off n < 256 ^ n := by
  induction n generalizing off with
  | zero => exact Nat.one_pos
  | succ n ih =>
      have hbyte := (b off).toNat_lt
      have hrest := ih (off + 1)
      rw [getField, Nat.pow_succ']
      omega

/-! ### Arrays of words -/

/-- `((uint*)b->data)[i]`. -/
def word (b : Block) (i : Nat) : UInt32 := UInt32.ofNat (getField b (4 * i) 4)

/-- `((uint*)b->data)[i] = w`. -/
def setWord (b : Block) (i : Nat) (w : UInt32) : Block := setField b (4 * i) 4 w.toNat

@[simp] theorem word_setWord (b : Block) (i : Nat) (w : UInt32) : word (setWord b i w) i = w := by
  have hlt : w.toNat < 256 ^ 4 := Nat.lt_of_lt_of_eq w.toNat_lt (by decide)
  rw [word, setWord, getField_setField, Nat.mod_eq_of_lt hlt, UInt32.ofNat_toNat]

theorem word_setWord_of_ne (b : Block) {i j : Nat} (h : j ≠ i) (w : UInt32) :
    word (setWord b i w) j = word b j := by
  rw [word, setWord, getField_setField_of_disjoint b (by omega), word]

theorem word_congr {b c : Block} {i : Nat} (h : ∀ k, 4 * i ≤ k → k < 4 * i + 4 → b k = c k) :
    word b i = word c i := by
  rw [word, word, getField_congr h]

/-- `memmove` of words to the array, from index `i` on. -/
def setWords (b : Block) (i : Nat) : List UInt32 → Block
  | [] => b
  | w :: ws => setWords (setWord b i w) (i + 1) ws

/-- Bytes off the words are kept. -/
theorem setWords_of_lt (b : Block) {i k : Nat} (ws : List UInt32)
    (h : k < 4 * i ∨ 4 * (i + ws.length) ≤ k) : setWords b i ws k = b k := by
  induction ws generalizing b i with
  | nil => rfl
  | cons w ws ih =>
      rw [List.length_cons] at h
      rw [setWords, ih (setWord b i w) (by omega), setWord, setField_of_lt b (by omega)]

theorem getField_setWords (b : Block) {i off n : Nat} (ws : List UInt32)
    (h : off + n ≤ 4 * i ∨ 4 * (i + ws.length) ≤ off) :
    getField (setWords b i ws) off n = getField b off n :=
  getField_congr fun _ hi hn => setWords_of_lt b ws (by omega)

theorem word_setWords (b : Block) (i : Nat) (ws : List UInt32) {k : Nat} (hk : k < ws.length) :
    word (setWords b i ws) (i + k) = ws[k] := by
  induction ws generalizing b i k with
  | nil => cases hk
  | cons w ws ih =>
      cases k with
      | zero =>
          rw [setWords, Nat.add_zero, List.getElem_cons_zero]
          refine Eq.trans (word_congr fun j _ hlt => ?_) (word_setWord b i w)
          exact setWords_of_lt (setWord b i w) ws (by omega)
      | succ k =>
          rw [setWords, List.getElem_cons_succ, ← ih (setWord b i w) (i + 1) (Nat.lt_of_succ_lt_succ hk),
            Nat.add_right_comm, Nat.add_assoc]

end OsCourse.Lib
