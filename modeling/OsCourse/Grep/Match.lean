import Mathlib.Computability.Language

/-!
# OsCourse.Grep.Match

**The matcher of `grep`** (`grep.c`, the same in all four kernels): the operators are
`^`, `.`, `*` and `$`. Texts and patterns are C strings, given by their characters; what
the code reads behind them is the NUL.

`parse` says how a pattern is read: `*` after a character repeats it, whatever it is;
`^` counts only in front and `$` only at the end, and elsewhere they stand for
themselves. The matcher decides the language of the pattern (`match_iff`): it finds a
match wherever there is one, for all its going back and forth.
-/

namespace OsCourse.Grep

open scoped Computability

/-- `'.'`. -/
abbrev dot : UInt8 := 46

/-- `'*'`. -/
abbrev asterisk : UInt8 := 42

/-- `'^'`. -/
abbrev caret : UInt8 := 94

/-- `'$'`. -/
abbrev dollar : UInt8 := 36

/-! ### The code -/

mutual

/-- `matchhere`: search for `re` at beginning of `text`. -/
def matchhere (re text : List UInt8) : Bool :=
  match re with
  | [] => true
  | c :: re =>
      if re.head? = some asterisk then matchstar c re.tail text
      else if c = dollar ∧ re = [] then text.isEmpty
      else
        match text with
        | [] => false
        | t :: text => (c = dot ∨ c = t) && matchhere re text
termination_by (2 * re.length, text.length)
decreasing_by all_goals simp_wf; grind

/-- `matchstar`: search for `c*re` at beginning of `text`. -/
def matchstar (c : UInt8) (re text : List UInt8) : Bool :=
  matchhere re text ||
    match text with
    | [] => false
    | t :: text => (t = c ∨ c = dot) && matchstar c re text
termination_by (2 * re.length + 1, text.length)
decreasing_by all_goals simp_wf; grind

end

/-- The loop of `match`. -/
def search (re : List UInt8) : List UInt8 → Bool
  | [] => matchhere re []
  | t :: text => matchhere re (t :: text) || search re text

/-- `match`. -/
def matchText (re text : List UInt8) : Bool :=
  if re.head? = some caret then matchhere re.tail text else search re text

/-! ### Patterns -/

/-- A character of a pattern, and whether it is repeated. -/
structure Item where
  c : UInt8
  starred : Bool
  deriving DecidableEq, Repr

/-- A pattern: whether it is bound to the start and to the end of a text, and what
is in between. -/
structure Pattern where
  bol : Bool
  items : List Item
  eol : Bool
  deriving DecidableEq, Repr

/-- What stands behind `^`: the characters, and whether there is a `$` at the end. -/
def parseHere : List UInt8 → List Item × Bool
  | [] => ([], false)
  | [c] => if c = dollar then ([], true) else ([⟨c, false⟩], false)
  | c :: d :: re =>
      if d = asterisk then (⟨c, true⟩ :: (parseHere re).1, (parseHere re).2)
      else (⟨c, false⟩ :: (parseHere (d :: re)).1, (parseHere (d :: re)).2)

/-- How a pattern is read. -/
def parse (re : List UInt8) : Pattern :=
  if re.head? = some caret then ⟨true, (parseHere re.tail).1, (parseHere re.tail).2⟩
  else ⟨false, (parseHere re).1, (parseHere re).2⟩

example : parse [94, 97, 42, 46, 36] = ⟨true, [⟨97, true⟩, ⟨46, false⟩], true⟩ := by decide

/-! ### Languages -/

/-- The texts of one character that `c` stands for. -/
def single (c : UInt8) : Language UInt8 := {w | ∃ x, w = [x] ∧ (c = dot ∨ c = x)}

/-- The texts that a character of a pattern stands for. -/
def Item.lang (i : Item) : Language UInt8 := if i.starred then (single i.c)∗ else single i.c

/-- Any text, or none where the pattern is bound. -/
def margin (bound : Bool) : Language UInt8 := if bound then 1 else ⊤

/-- The texts that contain a match. -/
def Pattern.lang (p : Pattern) : Language UInt8 :=
  margin p.bol * ((p.items.map Item.lang).prod * margin p.eol)

theorem mem_single_mul {c : UInt8} {L : Language UInt8} {text : List UInt8} :
    text ∈ single c * L ↔ ∃ t rest, text = t :: rest ∧ (c = dot ∨ c = t) ∧ rest ∈ L := by
  rw [Language.mem_mul]
  constructor
  · rintro ⟨w, ⟨t, rfl, ht⟩, rest, hrest, rfl⟩
    exact ⟨t, rest, rfl, ht, hrest⟩
  · rintro ⟨t, rest, rfl, ht, hrest⟩
    exact ⟨[t], ⟨t, rfl, ht⟩, rest, hrest, rfl⟩

/-- One turn of a repetition. -/
theorem mem_star_mul {c : UInt8} {L : Language UInt8} {text : List UInt8} :
    text ∈ (single c)∗ * L ↔ text ∈ L ∨
      ∃ t rest, text = t :: rest ∧ (c = dot ∨ c = t) ∧ rest ∈ (single c)∗ * L := by
  have hturn : (single c)∗ * L = L + single c * ((single c)∗ * L) := by
    calc (single c)∗ * L = (1 + single c * (single c)∗) * L := by
          rw [Language.one_add_self_mul_kstar_eq_kstar]
      _ = L + single c * ((single c)∗ * L) := by rw [add_mul, one_mul, mul_assoc]
  rw [← mem_single_mul, ← Language.mem_add, ← hturn]

/-- Texts that match behind any prefix. -/
theorem mem_top_mul {L : Language UInt8} {text : List UInt8} :
    text ∈ (⊤ : Language UInt8) * L ↔ ∃ k, text.drop k ∈ L := by
  rw [Language.mem_mul]
  constructor
  · rintro ⟨a, -, b, hb, rfl⟩
    exact ⟨a.length, by rwa [List.drop_left]⟩
  · rintro ⟨k, hk⟩
    exact ⟨text.take k, trivial, text.drop k, hk, List.take_append_drop k text⟩

/-! ### The matcher -/

/-- What the code accepts at the beginning of a text. -/
def hereLang (re : List UInt8) : Language UInt8 :=
  ((parseHere re).1.map Item.lang).prod * margin (parseHere re).2

theorem matchhere_cons (c : UInt8) (re text : List UInt8) :
    matchhere (c :: re) text =
      if re.head? = some asterisk then matchstar c re.tail text
      else if c = dollar ∧ re = [] then text.isEmpty
      else
        match text with
        | [] => false
        | t :: text => (c = dot ∨ c = t) && matchhere re text := by
  rw [matchhere.eq_def]

/-- A repetition, if the rest of the pattern is decided. -/
theorem matchstar_iff {re : List UInt8} {L : Language UInt8}
    (hre : ∀ text, matchhere re text = true ↔ text ∈ L) (c : UInt8) (text : List UInt8) :
    matchstar c re text = true ↔ text ∈ (single c)∗ * L := by
  induction text with
  | nil =>
      rw [matchstar, Bool.or_false, hre, mem_star_mul]
      simp
  | cons t text ih =>
      have hturn := @mem_star_mul c L (t :: text)
      rw [matchstar, Bool.or_eq_true, hre, Bool.and_eq_true, ih, hturn, decide_eq_true_eq]
      refine or_congr_right ⟨fun h => ⟨t, text, rfl, ?_, h.2⟩, fun h => ?_⟩
      · exact h.1.elim (fun heq => .inr heq.symm) .inl
      · obtain ⟨t', rest, heq, hc, hrest⟩ := h
        obtain ⟨rfl, rfl⟩ := List.cons.inj heq
        exact ⟨hc.elim .inr fun heq => .inl heq.symm, hrest⟩

theorem hereLang_nil : hereLang [] = ⊤ := by
  simp [hereLang, parseHere, margin]

theorem hereLang_star (c : UInt8) (re : List UInt8) :
    hereLang (c :: asterisk :: re) = (single c)∗ * hereLang re := by
  simp [hereLang, parseHere, Item.lang, mul_assoc]

theorem hereLang_dollar : hereLang [dollar] = 1 := by
  simp [hereLang, parseHere, margin]

theorem hereLang_cons {c : UInt8} {re : List UInt8} (hstar : re.head? ≠ some asterisk)
    (hend : ¬ (c = dollar ∧ re = [])) : hereLang (c :: re) = single c * hereLang re := by
  cases re with
  | nil =>
      have hc : c ≠ dollar := fun h => hend ⟨h, rfl⟩
      simp [hereLang, parseHere, hc, Item.lang]
  | cons d re =>
      have hd : d ≠ asterisk := fun h => hstar (congrArg some h)
      simp [hereLang, parseHere, hd, Item.lang, mul_assoc]

theorem matchhere_iff (re text : List UInt8) : matchhere re text = true ↔ text ∈ hereLang re := by
  induction hlen : re.length using Nat.strongRecOn generalizing re text with
  | ind n ih =>
      subst hlen
      cases re with
      | nil =>
          rw [matchhere, hereLang_nil]
          exact iff_of_true rfl trivial
      | cons c re =>
          by_cases hstar : re.head? = some asterisk
          · obtain ⟨re, rfl⟩ : ∃ l, re = asterisk :: l := by
              cases re with
              | nil => cases hstar
              | cons d l => exact ⟨l, by rw [Option.some.inj hstar]⟩
            rw [matchhere_cons, if_pos hstar, hereLang_star]
            exact matchstar_iff (fun text => ih _ (by simp only [List.length_cons]; omega) re text rfl) c text
          · rw [matchhere_cons, if_neg hstar]
            by_cases hend : c = dollar ∧ re = []
            · obtain ⟨rfl, rfl⟩ := hend
              rw [if_pos ⟨rfl, rfl⟩, hereLang_dollar, Language.mem_one, List.isEmpty_iff]
            · rw [if_neg hend, hereLang_cons hstar hend, mem_single_mul]
              cases text with
              | nil => simp
              | cons t text =>
                  rw [Bool.and_eq_true, ih re.length (Nat.lt_succ_self _) re text rfl,
                    decide_eq_true_eq]
                  constructor
                  · exact fun h => ⟨t, text, rfl, h⟩
                  · rintro ⟨t', rest, heq, h⟩
                    obtain ⟨rfl, rfl⟩ := List.cons.inj heq
                    exact h

theorem search_iff (re text : List UInt8) :
    search re text = true ↔ ∃ k, text.drop k ∈ hereLang re := by
  induction text with
  | nil => simp [search, matchhere_iff]
  | cons t text ih =>
      rw [search, Bool.or_eq_true, matchhere_iff, ih]
      constructor
      · rintro (h | ⟨k, h⟩)
        · exact ⟨0, h⟩
        · exact ⟨k + 1, h⟩
      · rintro ⟨k, h⟩
        cases k with
        | zero => exact .inl h
        | succ k => exact .inr ⟨k, h⟩

/-- **The matcher decides the language of the pattern.** -/
theorem match_iff (re text : List UInt8) : matchText re text = true ↔ text ∈ (parse re).lang := by
  rw [matchText, parse]
  by_cases hbol : re.head? = some caret
  · rw [if_pos hbol, if_pos hbol, matchhere_iff, Pattern.lang, margin, if_pos rfl, one_mul]
    rfl
  · rw [if_neg hbol, if_neg hbol, search_iff, Pattern.lang, margin, if_neg Bool.false_ne_true,
      mem_top_mul]
    rfl

instance (re : List UInt8) : DecidablePred (· ∈ (parse re).lang) := fun text =>
  decidable_of_iff _ (match_iff re text)

end OsCourse.Grep
