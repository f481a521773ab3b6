import Mathlib.Data.List.Basic
import Mathlib.Logic.Function.Basic

/-!
# OsCourse.Lib.Files

**Regular files as byte strings.** What a name stands for (`Node`), what `open`
makes of it, and the effect of `write` at an offset (`overlay`): it replaces
bytes and extends the file, and never shortens it.
-/

namespace OsCourse.Lib

/-- What a name stands for. -/
inductive Node
  /-- Nothing; `O_CREAT` creates a file. -/
  | absent
  /-- Nothing, and nothing can be created (a missing parent directory, say). -/
  | refused
  | dir
  | file (content : List UInt8)
  deriving DecidableEq, Repr

/-- `open(name, O_WRONLY | O_CREAT)`: the content the file then has. -/
def Node.openWrite : Node → Option (List UInt8)
  | .absent => some []
  | .file content => some content
  | .refused | .dir => none

/-- The file `old` after `bytes` were written at offset `off`. -/
def overlay (old : List UInt8) (off : Nat) (bytes : List UInt8) : List UInt8 :=
  old.take off ++ List.replicate (off - old.length) 0 ++ bytes ++ old.drop (off + bytes.length)

/-- A write at the start leaves what it does not reach. -/
theorem overlay_zero (old bytes : List UInt8) :
    overlay old 0 bytes = bytes ++ old.drop bytes.length := by
  simp [overlay]

/-- A write that starts in the file, or at its end, never shortens it. -/
theorem length_overlay {old bytes : List UInt8} {off : Nat} (h : off ≤ old.length) :
    (overlay old off bytes).length = max old.length (off + bytes.length) := by
  simp only [overlay, List.length_append, List.length_take, List.length_replicate,
    List.length_drop]
  omega

/-- A write that goes on where the last one ended. -/
theorem overlay_append (old p q : List UInt8) :
    overlay (overlay old 0 p) p.length q = overlay old 0 (p ++ q) := by
  rw [overlay_zero, overlay_zero, overlay, List.take_left, List.drop_append,
    List.drop_of_length_le (Nat.le_add_right _ _), Nat.add_sub_cancel_left, List.drop_drop,
    List.length_append, List.length_append, Nat.sub_eq_zero_of_le (Nat.le_add_right _ _)]
  simp

/-- The bytes written are in the file. -/
theorem mem_overlay {old bytes : List UInt8} {off : Nat} {x : UInt8} (h : x ∈ bytes) :
    x ∈ overlay old off bytes := by
  simp [overlay, h]

/-- A write that starts in the file, or at its end, byte by byte. -/
theorem getElem?_overlay {old bytes : List UInt8} {off : Nat} (h : off ≤ old.length) (p : Nat) :
    (overlay old off bytes)[p]? =
      if off ≤ p ∧ p < off + bytes.length then bytes[p - off]? else old[p]? := by
  have hlen : (old.take off).length = off := List.length_take_of_le h
  rw [overlay, Nat.sub_eq_zero_of_le h, List.replicate_zero, List.append_nil]
  by_cases hlo : p < off
  · rw [List.append_assoc, List.getElem?_append_left (hlen.symm ▸ hlo),
      List.getElem?_take_of_lt hlo, if_neg fun hp => Nat.not_lt_of_le hp.1 hlo]
  · have hle := Nat.le_of_not_lt hlo
    rw [List.append_assoc, List.getElem?_append_right (hlen.symm ▸ hle), hlen]
    by_cases hhi : p < off + bytes.length
    · rw [if_pos ⟨hle, hhi⟩, List.getElem?_append_left (by omega)]
    · rw [if_neg fun hp => hhi hp.2, List.getElem?_append_right (by omega), List.getElem?_drop]
      congr 1
      omega

/-- Writing a prefix `p` of `c` over `old` makes the file `c` iff the rest of
`old` is the rest of `c`. -/
theorem overlay_prefix_eq_iff {old p c : List UInt8} (hp : p <+: c) :
    overlay old 0 p = c ↔ old.drop p.length = c.drop p.length := by
  obtain ⟨rest, rfl⟩ := hp
  rw [overlay_zero, List.drop_left, List.append_cancel_left_eq]

end OsCourse.Lib
