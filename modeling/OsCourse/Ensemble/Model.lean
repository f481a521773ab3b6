import Mathlib.Data.Rat.Defs
import Mathlib.Logic.Function.Basic
import OsCourse.Lib.Files
import OsCourse.Lib.Numeral

/-!
# OsCourse.Ensemble.Model

The ensemble classifier (`OS-ensemble-classifier`): what one classifier process
computes (`classifier.cpp`), what it leaves in its output file
(`classifierMain.cpp`), the processes `ensemble.cpp` starts, and what the voter
reads back (`voterMain.cpp`).

Weights and data are the rows `read_from_csv` has parsed, with numbers taken as
exact rationals. The working directory maps the index `i` to the content of
`fifo<i>.csv`, if there is such a file. `O_CREAT` creates it or leaves it as it
is, `mkfifo` fails on a name that exists, and `write` at the start of the file
replaces only the bytes it writes.

`int index` has no value before the first score above `INT_LEAST32_MIN`, and
`int j` cannot count beyond the range of `int`: `calculate` has no result then.
-/

namespace OsCourse.Ensemble

open OsCourse.Lib

/-! ### `classifier.cpp` -/

/-- A row of the dataset. -/
abbrev Row := ℚ × ℚ
/-- A row of a weight file. -/
abbrev Weight := ℚ × ℚ × ℚ

/-- `score` of an input row under a weight row. -/
def score (x : Row) (w : Weight) : ℚ := x.1 * w.1 + x.2 * w.2.1 + w.2.2

/-- The loop over the weights: `max` and `index` after the rows from `j` on. -/
def scan (x : Row) : List Weight → Nat → ℚ → Option Nat → ℚ × Option Nat
  | [], _, max, index => (max, index)
  | w :: ws, j, max, index =>
      if score x w > max then scan x ws (j + 1) (score x w) (some j)
      else scan x ws (j + 1) max index

/-- The indices `calculate` prints, one for each row; `index` is what the row
before has left in the variable. -/
def indices (weights : List Weight) : Option Nat → List Row → Option (List Nat)
  | _, [] => some []
  | index, x :: rows =>
      match (scan x weights 0 (-2147483648) index).2 with
      | none => none
      | some j =>
          if weights.length < 2147483648 then (indices weights (some j) rows).map (j :: ·)
          else none

/-- The labels `calculate` computes. -/
def labels (weights : List Weight) (data : List Row) : Option (List Nat) :=
  indices weights none data

/-- The character of a decimal digit. -/
def digitChar (d : Nat) : UInt8 := UInt8.ofNat (48 + d)

/-- `to_string(n)`. -/
def to_string (n : Nat) : List UInt8 :=
  (if n = 0 then [0] else (Nat.digits 10 n).reverse).map digitChar

/-- `result` for a list of labels: one line each. -/
def render (ls : List Nat) : List UInt8 := ls.flatMap fun l => to_string l ++ [10]

/-- `Classifier::calculate`. -/
def calculate (weights : List Weight) (data : List Row) : Option (List UInt8) :=
  (labels weights data).map render

/-! ### `classifierMain.cpp` and `ensemble.cpp` -/

/-- The files `fifo<i>.csv` of the working directory. -/
abbrev Dir := Nat → Option (List UInt8)

/-- `open(fifo_path, O_WRONLY | O_CREAT, 0666)`. -/
def openFifo (d : Dir) (i : Nat) : Dir := Function.update d i (some ((d i).getD []))

/-- `write(fifo_fd, bytes, …)`, at the start of the file. -/
def writeFifo (d : Dir) (i : Nat) (bytes : List UInt8) : Dir :=
  Function.update d i (some (overlay ((d i).getD []) 0 bytes))

/-- `main` of classifier `i`. -/
def classifierMain (weights : List Weight) (data : List Row) (i : Nat) (d : Dir) : Option Dir :=
  let d := openFifo d i
  match calculate weights data with
  | none => none
  | some result => some (writeFifo (openFifo d i) i result)

/-- The processes of `Ensemble::create_classifiers`: one classifier for each
weight file. They write different files, so their order does not matter. -/
def create_classifiers (weights : List (List Weight)) (data : List Row) (d : Dir) : Option Dir :=
  weights.zipIdx.foldlM (fun d w => classifierMain w.1 data w.2 d) d

/-! ### `voterMain.cpp` -/

/-- The characters `>>` skips. -/
def isSpace (c : UInt8) : Bool := c = 32 || (9 ≤ c && c ≤ 13)
/-- A decimal digit. -/
def isDigit (c : UInt8) : Bool := 48 ≤ c && c ≤ 57

/-- The digits of a number, with its sign read: nothing if there are none or the
number is not an `int`. -/
def readDigits (negative : Bool) (l : List UInt8) : Option (Int × List UInt8) :=
  let n : Int := numeral 10 ((l.takeWhile isDigit).map fun c => c.toNat - 48)
  let v := if negative then -n else n
  if l.takeWhile isDigit = [] ∨ v < -2147483648 ∨ 2147483647 < v then none
  else some (v, l.dropWhile isDigit)

/-- The input behind a sign, if one stands there. -/
def skipSign (l : List UInt8) : List UInt8 :=
  if l.head? = some 45 ∨ l.head? = some 43 then l.tail else l

/-- `fd >> label`: the number and the rest of the input. -/
def readInt (l : List UInt8) : Option (Int × List UInt8) :=
  let l := l.dropWhile isSpace
  readDigits (l.head? = some 45) (skipSign l)

/-- `while (fd >> label)`, at most `k` times. -/
def readInts : Nat → List UInt8 → List Int
  | 0, _ => []
  | k + 1, l =>
      match readInt l with
      | none => []
      | some (v, rest) => v :: readInts k rest

/-- `read_from_csv` of the voter: every number takes at least one byte. -/
def read_from_csv (content : Option (List UInt8)) : List Int :=
  readInts (content.getD []).length (content.getD [])

end OsCourse.Ensemble
