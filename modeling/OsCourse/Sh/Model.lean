import Mathlib.Data.List.DropRight

/-!
# OsCourse.Sh.Model

The parser of the shell (`sh.c`, the same in all four kernels): `gettoken`, `peek` and
the functions for the levels of a command line, which go down into each other.

The line is a C string. A pointer into it is what stands from there to the NUL, so that
`es` is `[]`; a word is given by `q` and `eq`, where it starts and ends. `malloc` is
taken to succeed.

The functions of a level have `fuel` for the depth of their calls. `parsecmd` gives
them enough (`parsecmd_ne_fuel`).
-/

namespace OsCourse.Sh

/-! ### Characters -/

/-- `whitespace`. -/
def whitespace : List UInt8 := [32, 9, 13, 10, 11]

/-- `'<'`. -/
abbrev less : UInt8 := 60

/-- `'|'`. -/
abbrev bar : UInt8 := 124

/-- `'>'`. -/
abbrev greater : UInt8 := 62

/-- `'&'`. -/
abbrev ampersand : UInt8 := 38

/-- `';'`. -/
abbrev semicolon : UInt8 := 59

/-- `'('`. -/
abbrev lparen : UInt8 := 40

/-- `')'`. -/
abbrev rparen : UInt8 := 41

/-- `symbols`. -/
def symbols : List UInt8 := [less, bar, greater, ampersand, semicolon, lparen, rparen]

/-- What `gettoken` returns for `>>`: `'+'`. -/
abbrev appends : UInt8 := 43

/-- What `gettoken` returns for a word: `'a'`. -/
abbrev aWord : UInt8 := 97

/-- A character of a word. -/
def wordChar (c : UInt8) : Bool := c ∉ whitespace && c ∉ symbols

/-! ### Commands -/

/-- `MAXARGS`. -/
abbrev MAXARGS : Nat := 10

/-- `O_RDONLY`. -/
abbrev O_RDONLY : Nat := 0

/-- `O_WRONLY|O_CREATE`. -/
abbrev O_WRONLY_CREATE : Nat := 513

/-- A word: `q` and `eq`. -/
structure Word where
  q : List UInt8
  eq : List UInt8
  deriving DecidableEq, Repr

/-- `struct cmd`. The words may be of any type. -/
inductive Cmd (W : Type)
  /-- `argv`, up to the null pointer. -/
  | exec (argv : List W)
  | redir (cmd : Cmd W) (file : W) (mode fd : Nat)
  | pipe (left right : Cmd W)
  | list (left right : Cmd W)
  | back (cmd : Cmd W)
  deriving DecidableEq, Repr

/-- `panic`, by its text. -/
inductive Panic
  /-- `missing file for redirection` -/
  | missingFile
  /-- `parseblock` -/
  | parseblock
  /-- `syntax - missing )` -/
  | missingParen
  /-- `syntax` -/
  | syntaxError
  /-- `too many args` -/
  | tooManyArgs
  /-- `syntax`, behind `leftovers` -/
  | leftovers
  /-- No panic: the fuel did not last. -/
  | fuel
  deriving DecidableEq, Repr

/-! ### Tokens -/

/-- `while(s < es && strchr(whitespace, *s)) s++`. -/
def skip (s : List UInt8) : List UInt8 := s.dropWhile (· ∈ whitespace)

/-- What `gettoken` returns, stores in `*q` and `*eq`, and leaves in `*ps`. -/
structure Got where
  tok : UInt8
  q : List UInt8
  eq : List UInt8
  ps : List UInt8

/-- The switch of `gettoken` at `*s`: what it returns, and `s` behind the token. -/
def scan : List UInt8 → UInt8 × List UInt8
  | [] => (0, [])
  | c :: s =>
      if c ∈ [bar, lparen, rparen, semicolon, ampersand, less] then (c, s)
      else if c = greater then
        if s.head? = some greater then (appends, s.tail) else (c, s)
      else (aWord, (c :: s).dropWhile wordChar)

/-- `gettoken`. -/
def gettoken (ps : List UInt8) : Got :=
  let s := skip ps
  ⟨(scan s).1, s, (scan s).2, skip (scan s).2⟩

/-- `peek`, and what it leaves in `*ps`. -/
def peek (ps toks : List UInt8) : Bool × List UInt8 :=
  let s := skip ps
  ((s.head?.map fun c => (c ∈ toks : Bool)).getD false, s)

theorem length_skip_le (s : List UInt8) : (skip s).length ≤ s.length :=
  (List.dropWhile_suffix _).length_le

theorem skip_skip (s : List UInt8) : skip (skip s) = skip s := List.dropWhile_idempotent _ s

/-- Behind the blanks stands no blank. -/
theorem notMem_whitespace {ps s : List UInt8} {c : UInt8} (h : skip ps = c :: s) :
    c ∉ whitespace := by
  have hdrop := List.head?_dropWhile_not (fun c => decide (c ∈ whitespace)) ps
  rw [← skip, h] at hdrop
  simpa using hdrop

/-- What is neither a blank nor one of the characters of the switch starts a word. -/
theorem wordChar_of_switch {c : UInt8} (hblank : c ∉ whitespace)
    (hc : c ∉ [bar, lparen, rparen, semicolon, ampersand, less]) (hgt : c ≠ greater) :
    wordChar c = true := by
  simp only [wordChar, symbols, hblank, Bool.and_eq_true, decide_eq_true_eq, not_false_eq_true,
    true_and, List.mem_cons, List.not_mem_nil, or_false, not_or] at hc ⊢
  exact ⟨hc.2.2.2.2.2, hc.1, hgt, hc.2.2.2.2.1, hc.2.2.2.1, hc.2.1, hc.2.2.1⟩

/-- A token takes at least a character. -/
theorem scan_suffix {ps s : List UInt8} {c : UInt8} (h : skip ps = c :: s) :
    (scan (c :: s)).2 <:+ s := by
  rw [scan]
  split_ifs with hc hgt happ
  · exact List.suffix_rfl
  · exact List.tail_suffix s
  · exact List.suffix_rfl
  · rw [List.dropWhile_cons_of_pos (wordChar_of_switch (notMem_whitespace h) hc hgt)]
    exact List.dropWhile_suffix _

theorem length_gettoken_le (ps : List UInt8) : (gettoken ps).ps.length ≤ ps.length - 1 := by
  have hskip := length_skip_le ps
  have hrest := length_skip_le (scan (skip ps)).2
  rw [gettoken]
  cases hs : skip ps with
  | nil => simp [scan, skip]
  | cons c s =>
      have hle := (scan_suffix hs).length_le
      simp only [hs] at hrest ⊢
      rw [hs, List.length_cons] at hskip
      omega

theorem peek_ne_nil {ps toks : List UInt8} (h : (peek ps toks).1 = true) : skip ps ≠ [] := by
  intro hnil
  rw [peek, hnil] at h
  cases h

theorem length_peek_le (ps toks : List UInt8) : (peek ps toks).2.length ≤ ps.length :=
  length_skip_le ps

theorem length_peek_pos {ps toks : List UInt8} (h : (peek ps toks).1 = true) :
    0 < (peek ps toks).2.length := List.length_pos_iff.mpr (peek_ne_nil h)

/-! ### The code -/

/-- `argv[argc] = q` in the innermost command of a chain of redirections. -/
def Cmd.addArg {W : Type} : Cmd W → W → Cmd W
  | .exec argv, w => .exec (argv ++ [w])
  | .redir cmd file mode fd, w => .redir (cmd.addArg w) file mode fd
  | cmd, _ => cmd

/-- The switch of `parseredirs`. -/
def redirect {W : Type} (tok : UInt8) (cmd : Cmd W) (file : W) : Cmd W :=
  if tok = less then .redir cmd file O_RDONLY 0
  else if tok = greater then .redir cmd file O_WRONLY_CREATE 1
  else if tok = appends then .redir cmd file O_WRONLY_CREATE 1
  else cmd

/-- `parseredirs`. -/
def parseredirs (cmd : Cmd Word) (ps : List UInt8) : Except Panic (Cmd Word × List UInt8) :=
  let p := peek ps [less, greater]
  if _h : p.1 = true then
    let t := gettoken p.2
    let f := gettoken t.ps
    if f.tok ≠ aWord then .error .missingFile
    else parseredirs (redirect t.tok cmd ⟨f.q, f.eq⟩) f.ps
  else .ok (cmd, p.2)
termination_by ps.length
decreasing_by
  have hpos := length_peek_pos _h
  have hle := length_peek_le ps [less, greater]
  have ht := length_gettoken_le (peek ps [less, greater]).2
  have hf := length_gettoken_le (gettoken (peek ps [less, greater]).2).ps
  omega

/-- The loop of `parseexec`. -/
def argsLoop (ret : Cmd Word) (argc : Nat) (ps : List UInt8) :
    Except Panic (Cmd Word × List UInt8) :=
  let p := peek ps [bar, rparen, ampersand, semicolon]
  if p.1 = true then .ok (ret, p.2)
  else
    let t := gettoken p.2
    if t.tok = 0 then .ok (ret, t.ps)
    else if t.tok ≠ aWord then .error .syntaxError
    else if MAXARGS ≤ argc + 1 then .error .tooManyArgs
    else
      match parseredirs (ret.addArg ⟨t.q, t.eq⟩) t.ps with
      | .error e => .error e
      | .ok (ret, ps) => argsLoop ret (argc + 1) ps
termination_by MAXARGS - argc

/-- The loop of `parseline`. -/
def backLoop (cmd : Cmd Word) (ps : List UInt8) : Cmd Word × List UInt8 :=
  let p := peek ps [ampersand]
  if _h : p.1 = true then backLoop (.back cmd) (gettoken p.2).ps else (cmd, p.2)
termination_by ps.length
decreasing_by
  have hpos := length_peek_pos _h
  have hle := length_peek_le ps [ampersand]
  have ht := length_gettoken_le (peek ps [ampersand]).2
  omega

mutual

/-- `parseline`. -/
def parseline : Nat → List UInt8 → Except Panic (Cmd Word × List UInt8)
  | 0, _ => .error .fuel
  | fuel + 1, ps =>
      match parsepipe fuel ps with
      | .error e => .error e
      | .ok (cmd, ps) =>
          let b := backLoop cmd ps
          let p := peek b.2 [semicolon]
          if p.1 = true then
            match parseline fuel (gettoken p.2).ps with
            | .error e => .error e
            | .ok (right, ps) => .ok (.list b.1 right, ps)
          else .ok (b.1, p.2)

/-- `parsepipe`. -/
def parsepipe : Nat → List UInt8 → Except Panic (Cmd Word × List UInt8)
  | 0, _ => .error .fuel
  | fuel + 1, ps =>
      match parseexec fuel ps with
      | .error e => .error e
      | .ok (cmd, ps) =>
          let p := peek ps [bar]
          if p.1 = true then
            match parsepipe fuel (gettoken p.2).ps with
            | .error e => .error e
            | .ok (right, ps) => .ok (.pipe cmd right, ps)
          else .ok (cmd, p.2)

/-- `parseexec`. -/
def parseexec : Nat → List UInt8 → Except Panic (Cmd Word × List UInt8)
  | 0, _ => .error .fuel
  | fuel + 1, ps =>
      let p := peek ps [lparen]
      if p.1 = true then parseblock fuel p.2
      else
        match parseredirs (.exec []) p.2 with
        | .error e => .error e
        | .ok (ret, ps) => argsLoop ret 0 ps

/-- `parseblock`. -/
def parseblock : Nat → List UInt8 → Except Panic (Cmd Word × List UInt8)
  | 0, _ => .error .fuel
  | fuel + 1, ps =>
      let p := peek ps [lparen]
      if p.1 = false then .error .parseblock
      else
        match parseline fuel (gettoken p.2).ps with
        | .error e => .error e
        | .ok (cmd, ps) =>
            let p := peek ps [rparen]
            if p.1 = false then .error .missingParen else parseredirs cmd (gettoken p.2).ps

end

/-- `parsecmd`, up to the call of `nulterminate`. -/
def parsecmd (s : List UInt8) : Except Panic (Cmd Word) :=
  match parseline (4 * s.length + 4) s with
  | .error e => .error e
  | .ok (cmd, ps) => if (peek ps []).2 ≠ [] then .error .leftovers else .ok cmd

/-! ### The words in the line -/

/-- The store of a NUL at `eq`, in the line `buf` and its NUL. -/
def terminateWord (buf : List UInt8) (w : Word) : List UInt8 :=
  buf.set (buf.length - 1 - w.eq.length) 0

/-- `nulterminate`. -/
def nulterminate : Cmd Word → List UInt8 → List UInt8
  | .exec argv, buf => argv.foldl terminateWord buf
  | .redir cmd file _ _, buf => terminateWord (nulterminate cmd buf) file
  | .pipe left right, buf => nulterminate right (nulterminate left buf)
  | .list left right, buf => nulterminate right (nulterminate left buf)
  | .back cmd, buf => nulterminate cmd buf

end OsCourse.Sh
