import Mathlib.Data.List.Basic
import OsCourse.Lib.Numeral

/-!
# OsCourse.Lib.Fields

**Texts cut at separators.** `records` has all the fields of a text that comes
piece by piece.

A decoder that walks to the next separator takes what it has passed as a field
(`field`). It fails only by running off the end of the text, and it inverts
joining exactly for fields without a separator.

`stoi` is the conversion of a field that holds a number.
-/

namespace OsCourse.Lib

/-! ### Records -/

/-- A text in fields: those with a separator behind them, and what is left. -/
structure Records (α : Type) where
  full : List (List α)
  last : List α

section Records

variable {α : Type} [DecidableEq α]

/-- The fields that a text consists of. -/
def records (c : α) : List α → Records α
  | [] => ⟨[], []⟩
  | x :: l =>
      if x = c then ⟨[] :: (records c l).full, (records c l).last⟩
      else
        match records c l with
        | ⟨[], last⟩ => ⟨[], x :: last⟩
        | ⟨w :: ws, last⟩ => ⟨(x :: w) :: ws, last⟩

variable {c : α} {l w : List α}

theorem records_of_notMem (hl : c ∉ l) : records c l = ⟨[], l⟩ := by
  induction l with
  | nil => rfl
  | cons x l ih =>
      rw [List.mem_cons, not_or] at hl
      rw [records, if_neg (Ne.symm hl.1), ih hl.2]

theorem records_append_cons (hw : c ∉ w) (rest : List α) :
    records c (w ++ c :: rest) = ⟨w :: (records c rest).full, (records c rest).last⟩ := by
  induction w with
  | nil => rw [List.nil_append, records, if_pos rfl]
  | cons x w ih =>
      rw [List.mem_cons, not_or] at hw
      rw [List.cons_append, records, if_neg (Ne.symm hw.1), ih hw.2]

/-- Record by record. -/
@[elab_as_elim]
theorem records_induction (c : α) {motive : List α → Prop} (l : List α)
    (last : ∀ l, c ∉ l → motive l)
    (record : ∀ w rest, c ∉ w → motive rest → motive (w ++ c :: rest)) : motive l := by
  induction hlen : l.length using Nat.strongRecOn generalizing l with
  | ind n ih =>
      by_cases hl : c ∈ l
      · obtain ⟨w, rest, rfl, hw⟩ := List.eq_append_cons_of_mem hl
        refine record w rest hw (ih rest.length ?_ rest rfl)
        rw [← hlen, List.length_append, List.length_cons]
        omega
      · exact last l hl

theorem notMem_records (l : List α) : c ∉ (records c l).last := by
  induction l using records_induction c with
  | last l hl => rwa [records_of_notMem hl]
  | record w rest hw ih => rwa [records_append_cons hw]

/-- Text that comes later is read behind what is left. -/
theorem records_append (l m : List α) :
    records c (l ++ m) = ⟨(records c l).full ++ (records c ((records c l).last ++ m)).full,
      (records c ((records c l).last ++ m)).last⟩ := by
  induction l using records_induction c with
  | last l hl => rw [records_of_notMem hl, List.nil_append]
  | record w rest hw ih =>
      rw [List.append_assoc, List.cons_append, records_append_cons hw, records_append_cons hw, ih,
        List.cons_append]

/-- What is left is the end of the text. -/
theorem records_suffix (c : α) (l : List α) : (records c l).last <:+ l := by
  induction l using records_induction c with
  | last l hl => rw [records_of_notMem hl]
  | record w rest hw ih =>
      rw [records_append_cons hw]
      exact ih.trans ((List.suffix_cons c rest).trans (List.suffix_append w _))

end Records

/-! ### One field -/

section Field

variable {α : Type} [DecidableEq α]

/-- What stands before the first `c`, and what stands behind it. -/
def field (c : α) : List α → Option (List α × List α)
  | [] => none
  | x :: l => if x = c then some ([], l) else (field c l).map fun r => (x :: r.1, r.2)

variable {c : α} {l w rest : List α}

theorem field_append (hw : c ∉ w) (rest : List α) : field c (w ++ c :: rest) = some (w, rest) := by
  induction w with
  | nil => rw [List.nil_append, field, if_pos rfl]
  | cons x w ih =>
      rw [List.mem_cons, not_or] at hw
      rw [List.cons_append, field, if_neg (Ne.symm hw.1), ih hw.2, Option.map_some]

/-- The walk stops at the first separator. -/
theorem field_eq_some_iff : field c l = some (w, rest) ↔ l = w ++ c :: rest ∧ c ∉ w := by
  constructor
  · intro h
    induction l generalizing w with
    | nil => cases h
    | cons x l ih =>
        rw [field] at h
        split_ifs at h with hx
        · obtain ⟨rfl, rfl⟩ := Prod.mk.inj (Option.some.inj h)
          exact ⟨by rw [hx]; rfl, List.not_mem_nil⟩
        · obtain ⟨r, hr, heq⟩ := Option.map_eq_some_iff.mp h
          obtain ⟨rfl, rfl⟩ := Prod.mk.inj heq
          obtain ⟨rfl, hw⟩ := ih hr
          exact ⟨rfl, fun hmem => (List.mem_cons.mp hmem).elim (Ne.symm hx) hw⟩
  · intro h
    obtain ⟨rfl, hw⟩ := h
    exact field_append hw rest

/-- It leaves the text only if there is no separator. -/
theorem isSome_field : (field c l).isSome ↔ c ∈ l := by
  induction l with
  | nil => simp [field]
  | cons x l ih =>
      rw [field, List.mem_cons]
      by_cases hx : x = c
      · simp [hx]
      · rw [if_neg hx, Option.isSome_map, ih]
        simp [Ne.symm hx]

/-- The rest has the last element, unless that was the separator. -/
theorem field_getLast {x : α} (h : field c l = some (w, rest)) (hx : l.getLast? = some x)
    (hne : x ≠ c) : rest.getLast? = some x := by
  obtain ⟨rfl, -⟩ := field_eq_some_iff.mp h
  rw [List.getLast?_append, List.getLast?_cons] at hx
  cases hlast : rest.getLast? with
  | none =>
      rw [hlast] at hx
      exact absurd (Option.some.inj hx).symm hne
  | some y =>
      rw [hlast] at hx
      exact hx

/-- A separator less is left. -/
theorem field_count (h : field c l = some (w, rest)) : l.count c = rest.count c + 1 := by
  obtain ⟨rfl, hw⟩ := field_eq_some_iff.mp h
  rw [List.count_append, List.count_eq_zero.mpr hw, List.count_cons_self, Nat.zero_add]

end Field

/-! ### Numbers -/

/-- `isspace`. -/
def isspace (c : UInt8) : Bool := c = 32 || (9 ≤ c && c ≤ 13)

/-- `isdigit`. -/
def isdigit (c : UInt8) : Bool := 48 ≤ c && c ≤ 57

/-- The value of decimal digits. -/
def decimal (l : List UInt8) : Int := numeral 10 (l.map fun c => c.toNat - 48)

/-- `stoi`: spaces, a sign, and the digits that follow. It throws an exception if
there are none, or if the number is not an `int`. -/
def stoi (l : List UInt8) : Option Int :=
  let l := l.dropWhile isspace
  let digits := (if l.head? = some 45 ∨ l.head? = some 43 then l.tail else l).takeWhile isdigit
  let v := if l.head? = some 45 then -decimal digits else decimal digits
  if digits = [] ∨ v < -2147483648 ∨ 2147483647 < v then none else some v

end OsCourse.Lib
