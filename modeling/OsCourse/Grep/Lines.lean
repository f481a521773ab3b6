import OsCourse.Grep.Match
import OsCourse.Lib.Fields

/-!
# OsCourse.Grep.Lines

**What `grep` prints** (`grep` of `grep.c`, and `strchr` of `ulib.c`). It reads into
what is free of a buffer of 1024 bytes, goes through the lines that are complete, and
moves the rest to the front.

The input comes in pieces: a file is one piece, a pipe has a piece for every time that
`read` finds something in it. `read` stays in one piece, and takes as much of it as
there is room for.

A buffer without a line break is thrown away (`if(p == buf) m = 0`), be it full or not.
So `grep` prints the lines that match (`grep_lines`) as long as no line fills the
buffer and every piece, but for the last, ends with a line.
-/

namespace OsCourse.Grep

open OsCourse.Lib

/-- `'\n'`. -/
abbrev newline : UInt8 := 10

/-- `sizeof(buf)`. -/
abbrev bufSize : Nat := 1024

/-! ### The code -/

/-- `strchr`: the place of `c`, before the NUL. -/
def strchr (c : UInt8) : List UInt8 → Option Nat
  | [] => none
  | x :: s => if x = 0 then none else if x = c then some 0 else (strchr c s).map (· + 1)

theorem strchr_lt {c : UInt8} {s : List UInt8} {n : Nat} (h : strchr c s = some n) :
    n < s.length := by
  induction s generalizing n with
  | nil => cases h
  | cons x s ih =>
      rw [strchr] at h
      split_ifs at h
      · obtain rfl := Option.some.inj h
        exact Nat.zero_lt_succ _
      · obtain ⟨m, hm, rfl⟩ := Option.map_eq_some_iff.mp h
        exact Nat.succ_lt_succ (ih hm)

/-- The loop over the lines, from `p` on: what is printed, and `p` behind it. -/
def lineLoop (pattern p : List UInt8) : List UInt8 × List UInt8 :=
  match _h : strchr newline p with
  | none => ([], p)
  | some n =>
      let line := p.take n
      let r := lineLoop pattern (p.drop (n + 1))
      ((if matchText pattern line then line ++ [newline] else []) ++ r.1, r.2)
termination_by p.length
decreasing_by
  have hlt := strchr_lt _h
  rw [List.length_drop]
  omega

/-- `read` of at most `n` bytes: the bytes, and the pieces that are left. -/
def read (n : Nat) : List (List UInt8) → List UInt8 × List (List UInt8)
  | [] => ([], [])
  | piece :: pieces =>
      (piece.take n, if piece.drop n = [] then pieces else piece.drop n :: pieces)

/-- No byte is lost or read twice. -/
theorem read_flatten (n : Nat) (input : List (List UInt8)) :
    (read n input).1 ++ (read n input).2.flatten = input.flatten := by
  cases input with
  | nil => rfl
  | cons piece pieces =>
      rw [read, List.flatten_cons]
      split
      · next h =>
        have htake := List.take_append_drop n piece
        rw [h, List.append_nil] at htake
        rw [htake]
      · rw [List.flatten_cons, ← List.append_assoc, List.take_append_drop]

/-- `grep`, with the `m` bytes `held` at the front of `buf`. -/
def grep (pattern held : List UInt8) (input : List (List UInt8)) : List UInt8 :=
  let r := read (bufSize - held.length - 1) input
  if _h : r.1 = [] then []
  else
    let data := held ++ r.1
    let l := lineLoop pattern data
    l.1 ++ grep pattern (if l.2 = data then [] else l.2) r.2
termination_by input.flatten.length
decreasing_by
  have hpos := List.length_pos_iff.mpr _h
  have hlen := congrArg List.length (read_flatten (bufSize - held.length - 1) input)
  rw [List.length_append] at hlen
  simp only [r] at hpos ⊢
  omega

/-! ### Lines -/

/-- The lines of a text that end with a line break. -/
def lines (text : List UInt8) : List (List UInt8) := (records newline text).full

theorem lines_append_cons {w : List UInt8} (hw : newline ∉ w) (rest : List UInt8) :
    lines (w ++ newline :: rest) = w :: lines rest := by
  rw [lines, records_append_cons hw]
  rfl

/-- What is printed for some lines. -/
def printed (pattern : List UInt8) (ls : List (List UInt8)) : List UInt8 :=
  (ls.filter (matchText pattern)).flatMap (· ++ [newline])

theorem printed_cons (pattern line : List UInt8) (ls : List (List UInt8)) :
    printed pattern (line :: ls) =
      (if matchText pattern line then line ++ [newline] else []) ++ printed pattern ls := by
  rw [printed, List.filter_cons]
  split
  · rw [List.flatMap_cons]
    rfl
  · rfl

theorem printed_append (pattern : List UInt8) (ls ms : List (List UInt8)) :
    printed pattern (ls ++ ms) = printed pattern ls ++ printed pattern ms := by
  rw [printed, List.filter_append, List.flatMap_append]
  rfl

theorem strchr_of_notMem {c : UInt8} {s : List UInt8} (hc : c ∉ s) : strchr c s = none := by
  induction s with
  | nil => rfl
  | cons x s ih =>
      rw [List.mem_cons, not_or] at hc
      rw [strchr, ih hc.2, if_neg (Ne.symm hc.1)]
      split <;> rfl

theorem strchr_append_cons {c : UInt8} {w : List UInt8} (hzero : 0 ∉ w) (hc : c ∉ w) (hne : c ≠ 0)
    (rest : List UInt8) : strchr c (w ++ c :: rest) = some w.length := by
  induction w with
  | nil => rw [List.nil_append, strchr, if_neg hne, if_pos rfl, List.length_nil]
  | cons x w ih =>
      rw [List.mem_cons, not_or] at hzero hc
      rw [List.cons_append, strchr, if_neg (Ne.symm hzero.1), if_neg (Ne.symm hc.1),
        ih hzero.2 hc.2, Option.map_some, List.length_cons]

/-- The loop goes through all lines that are complete. -/
theorem lineLoop_spec (pattern : List UInt8) {data : List UInt8} (hzero : 0 ∉ data) :
    lineLoop pattern data = (printed pattern (lines data), (records newline data).last) := by
  induction data using records_induction newline with
  | last l hl =>
      rw [lineLoop]
      split
      · rw [lines, records_of_notMem hl]
        rfl
      · next n h =>
        rw [strchr_of_notMem hl] at h
        cases h
  | record w rest hw ih =>
      have hw0 : 0 ∉ w := fun h => hzero (List.mem_append_left _ h)
      have hrest : 0 ∉ rest := fun h =>
        hzero (List.mem_append_right _ (List.mem_cons_of_mem _ h))
      have hfind := strchr_append_cons hw0 hw (by decide) rest
      rw [lineLoop]
      split
      · next h =>
        rw [hfind] at h
        cases h
      · next n h =>
        obtain rfl := Option.some.inj (hfind.symm.trans h)
        have hdrop : (w ++ newline :: rest).drop (w.length + 1) = rest := by
          rw [List.drop_append, List.drop_of_length_le (Nat.le_succ _), Nat.add_sub_cancel_left]
          rfl
        dsimp only
        rw [List.take_left, hdrop, ih hrest, lines_append_cons hw, printed_cons,
          records_append_cons hw]

/-! ### The whole input -/

/-- Every piece, but for the last, ends with a line. -/
def WholeLines : List (List UInt8) → Prop
  | [] | [_] => True
  | piece :: next :: pieces => piece.getLast? = some newline ∧ WholeLines (next :: pieces)

theorem WholeLines.tail {piece : List UInt8} {pieces : List (List UInt8)}
    (h : WholeLines (piece :: pieces)) : WholeLines pieces := by
  cases pieces with
  | nil => trivial
  | cons next pieces => exact h.2

theorem WholeLines.read {input : List (List UInt8)} (h : WholeLines input) (n : Nat) :
    WholeLines (read n input).2 := by
  cases input with
  | nil => trivial
  | cons piece pieces =>
      rw [Grep.read]
      split
      · exact h.tail
      · next hrest =>
        cases pieces with
        | nil => trivial
        | cons next pieces =>
            refine ⟨?_, h.2⟩
            have hlast := h.1
            rw [← List.take_append_drop n piece, List.getLast?_append,
              List.getLast?_eq_some_getLast hrest] at hlast
            rwa [List.getLast?_eq_some_getLast hrest]

/-- No line fills the buffer. -/
def ShortLines (text : List UInt8) : Prop :=
  ∀ w, w <:+: text → newline ∉ w → w.length ≤ bufSize - 2

/-- Without a line break in it, what was read ends the input. -/
theorem read_last {held : List UInt8} {input : List (List UInt8)} (hpieces : WholeLines input)
    (hshort : ShortLines (held ++ input.flatten)) (hheld : held.length ≤ bufSize - 2)
    (hread : (read (bufSize - held.length - 1) input).1 ≠ [])
    (hnone : newline ∉ held ++ (read (bufSize - held.length - 1) input).1) :
    (read (bufSize - held.length - 1) input).2 = [] := by
  cases input with
  | nil => rfl
  | cons piece pieces =>
      have hin : held ++ (read (bufSize - held.length - 1) (piece :: pieces)).1 <:+:
          held ++ (piece :: pieces).flatten := by
        rw [← read_flatten (bufSize - held.length - 1), ← List.append_assoc]
        exact (List.prefix_append _ _).isInfix
      have hlen := hshort _ hin hnone
      rw [Grep.read] at hlen hread hnone ⊢
      split
      · next hall =>
        cases pieces with
        | nil => rfl
        | cons next pieces =>
            refine absurd (List.mem_append_right _ ?_) hnone
            have htake := List.take_append_drop (bufSize - held.length - 1) piece
            rw [hall, List.append_nil] at htake
            rw [htake]
            exact List.mem_of_getLast? hpieces.1
      · next hmore =>
        -- the buffer is full
        have hpos := List.length_pos_iff.mpr hmore
        simp only [List.length_append, List.length_take, List.length_drop, bufSize]
          at hlen hpos hheld
        omega

theorem grep_spec (pattern : List UInt8) {held : List UInt8} {input : List (List UInt8)}
    (hpieces : WholeLines input) (hzero : 0 ∉ held ++ input.flatten)
    (hshort : ShortLines (held ++ input.flatten)) (hheld : newline ∉ held) :
    grep pattern held input = printed pattern (lines (held ++ input.flatten)) := by
  have hfew : held.length ≤ bufSize - 2 := hshort held (List.prefix_append _ _).isInfix hheld
  fun_induction grep pattern held input with
  | case1 held input r hr =>
      have hempty : input.flatten = [] := by
        cases input with
        | nil => rfl
        | cons piece pieces =>
            have hpiece : piece = [] := by
              simp only [r, read, List.take_eq_nil_iff] at hr
              refine hr.resolve_left ?_
              simp only [bufSize] at hfew ⊢
              omega
            cases pieces with
            | nil => simp [hpiece]
            | cons next pieces =>
                rw [WholeLines, hpiece] at hpieces
                cases hpieces.1
      rw [hempty, List.append_nil, lines, records_of_notMem hheld]
      rfl
  | case2 held input r hr data l ih =>
      have hall : held ++ input.flatten = data ++ r.2.flatten := by
        rw [← read_flatten (bufSize - held.length - 1) input, ← List.append_assoc]
      rw [hall] at hzero hshort ⊢
      have hdata : 0 ∉ data := fun h => hzero (List.mem_append_left _ h)
      have hl : l = (printed pattern (lines data), (records newline data).last) :=
        lineLoop_spec pattern hdata
      have hsplit : lines (data ++ r.2.flatten) =
          lines data ++ lines ((records newline data).last ++ r.2.flatten) := by
        rw [lines, records_append]
        rfl
      rw [hsplit, printed_append, hl]
      rw [hl] at ih
      simp only [dite_eq_ite] at ih ⊢
      congr 1
      by_cases hrest : (records newline data).last = data
      · -- the buffer is thrown away, but nothing follows
        have hnone : newline ∉ data := hrest ▸ notMem_records data
        have hlast : r.2 = [] := read_last hpieces (hall ▸ hshort) hfew hr hnone
        rw [if_pos hrest] at ih ⊢
        rw [ih (hpieces.read _) (by simp [hlast]) (by simp [hlast, ShortLines]) (by simp) (by simp),
          hrest, hlast]
        simp [lines, records_of_notMem hnone, records_of_notMem]
      · rw [if_neg hrest] at ih ⊢
        have hsuffix : (records newline data).last ++ r.2.flatten <:+ data ++ r.2.flatten := by
          obtain ⟨front, hfront⟩ := records_suffix newline data
          exact ⟨front, by rw [← List.append_assoc, hfront]⟩
        have hshort' : ShortLines ((records newline data).last ++ r.2.flatten) :=
          fun w hw hnone => hshort w (hw.trans hsuffix.isInfix) hnone
        exact ih (hpieces.read _) (fun h => hzero (hsuffix.subset h)) hshort' (notMem_records data)
          (hshort' _ (List.prefix_append _ _).isInfix (notMem_records data))

/-- **`grep` prints the lines that match**, in their order, for input without NULs that comes in
whole lines none of which fills the buffer. What stands in the buffer after a call of `read`
without a line break, held from before or read just now, is thrown away. -/
theorem grep_lines (pattern : List UInt8) :
    (∀ input : List (List UInt8), WholeLines input → 0 ∉ input.flatten → ShortLines input.flatten →
      grep pattern [] input =
        ((lines input.flatten).filter (· ∈ (parse pattern).lang)).flatMap (· ++ [newline])) ∧
    ∀ (held : List UInt8) (input : List (List UInt8)) (bytes : List UInt8)
      (rest : List (List UInt8)), read (bufSize - held.length - 1) input = (bytes, rest) →
      bytes ≠ [] → 0 ∉ held ++ bytes → newline ∉ held ++ bytes →
      grep pattern held input = grep pattern [] rest := by
  refine ⟨fun input hpieces hzero hshort => ?_,
    fun held input bytes rest hread hne hzero hnone => ?_⟩
  · have hfilter : (fun line => decide (line ∈ (parse pattern).lang)) = matchText pattern := by
      funext line
      rw [Bool.eq_iff_iff, decide_eq_true_eq, match_iff]
    rw [hfilter]
    exact grep_spec pattern hpieces hzero hshort List.not_mem_nil
  · rw [grep]
    simp only [hread]
    rw [dif_neg hne, lineLoop_spec pattern hzero, lines, records_of_notMem hnone, if_pos rfl]
    rfl

end OsCourse.Grep
