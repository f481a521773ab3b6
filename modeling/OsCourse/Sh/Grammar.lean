import Mathlib.Logic.Function.Iterate
import OsCourse.Sh.Model

/-!
# OsCourse.Sh.Grammar

**The grammar of command lines**, and that `parsecmd` decides it: it accepts a line with
a tree exactly when the tree is one of the line, so that no line has two of them, and it
returns on every line (`parsecmd_iff`).

The functions of the parser look at the line through `gettoken` and `peek` only.
`tokens` cuts the whole line first, and the grammar is about tokens.
-/

namespace OsCourse.Sh

/-! ### Tokens -/

/-- The tokens. The words may be of any type. -/
inductive Tok (W : Type)
  | bar
  | lparen
  | rparen
  | semicolon
  | ampersand
  | less
  | greater
  | appends
  | word (w : W)
  deriving DecidableEq, Repr

/-- What `gettoken` returns for the token. -/
def Tok.code {W : Type} : Tok W → UInt8
  | .bar => Sh.bar
  | .lparen => Sh.lparen
  | .rparen => Sh.rparen
  | .semicolon => Sh.semicolon
  | .ampersand => Sh.ampersand
  | .less => Sh.less
  | .greater => Sh.greater
  | .appends => Sh.appends
  | .word _ => aWord

/-- What `peek` sees of the token: the character it starts with, or `'a'` for a word. -/
def Tok.first {W : Type} : Tok W → UInt8
  | .appends => Sh.greater
  | t => t.code

/-- The token that `gettoken` got. -/
def Got.token (t : Got) : Tok Word :=
  if t.tok = bar then .bar
  else if t.tok = lparen then .lparen
  else if t.tok = rparen then .rparen
  else if t.tok = semicolon then .semicolon
  else if t.tok = ampersand then .ampersand
  else if t.tok = less then .less
  else if t.tok = greater then .greater
  else if t.tok = appends then .appends
  else .word ⟨t.q, t.eq⟩

theorem gettoken_nil {ps : List UInt8} (h : skip ps = []) : gettoken ps = ⟨0, [], [], []⟩ := by
  rw [gettoken, h]
  rfl

/-- All the tokens of a line. -/
def tokens (ps : List UInt8) : List (Tok Word) :=
  if _h : skip ps = [] then [] else (gettoken ps).token :: tokens (gettoken ps).ps
termination_by ps.length
decreasing_by
  have hpos := List.length_pos_iff.mpr _h
  have hle := length_skip_le ps
  have ht := length_gettoken_le ps
  omega

theorem gettoken_skip (ps : List UInt8) : gettoken (skip ps) = gettoken ps := by
  rw [gettoken, gettoken, skip_skip]

@[simp] theorem tokens_peek (ps toks : List UInt8) : tokens (peek ps toks).2 = tokens ps := by
  rw [peek, tokens, skip_skip, gettoken_skip, ← tokens]

theorem tokens_eq_nil {ps : List UInt8} : tokens ps = [] ↔ skip ps = [] := by
  rw [tokens]
  split_ifs with h <;> simp [h]

/-- There are no more tokens than characters. -/
theorem length_tokens_le (ps : List UInt8) : (tokens ps).length ≤ ps.length := by
  fun_induction tokens ps with
  | case1 ps h => simp
  | case2 ps h ih =>
      have hpos := List.length_pos_iff.mpr h
      have hle := length_skip_le ps
      have ht := length_gettoken_le ps
      rw [List.length_cons]
      omega

/-- What `gettoken` returns is the code of its token, and `peek` sees how it starts. -/
theorem scan_token {ps s : List UInt8} {c : UInt8} (h : skip ps = c :: s) :
    (gettoken ps).tok = (gettoken ps).token.code ∧
      ∀ toks ⊆ symbols, c ∈ toks ↔ (gettoken ps).token.first ∈ toks := by
  have hblank := notMem_whitespace h
  rw [gettoken, h]
  by_cases hc : c ∈ [bar, lparen, rparen, semicolon, ampersand, less]
  · have hscan : scan (c :: s) = (c, s) := by rw [scan, if_pos hc]
    rw [hscan]
    simp only [List.mem_cons, List.not_mem_nil, or_false] at hc
    rcases hc with rfl | rfl | rfl | rfl | rfl | rfl <;> exact ⟨rfl, fun _ _ => Iff.rfl⟩
  by_cases hgt : c = greater
  · subst hgt
    rw [scan, if_neg hc, if_pos rfl]
    split_ifs with happ <;> exact ⟨rfl, fun _ _ => Iff.rfl⟩
  rw [scan, if_neg hc, if_neg hgt]
  have hword := wordChar_of_switch hblank hc hgt
  refine ⟨rfl, fun toks htoks => ?_⟩
  have hmem : c ∉ toks := fun hmem => by
    have hsym : c ∉ symbols := by
      rw [wordChar, Bool.and_eq_true, decide_eq_true_eq, decide_eq_true_eq] at hword
      exact hword.2
    exact hsym (htoks hmem)
  have ha : aWord ∉ toks := fun hmem => absurd (htoks hmem) (by decide)
  exact iff_of_false hmem ha

/-- `peek` asks for the next token. -/
theorem peek_iff {ps toks : List UInt8} (htoks : toks ⊆ symbols) :
    (peek ps toks).1 = true ↔ ∃ t ts, tokens ps = t :: ts ∧ t.first ∈ toks := by
  rw [tokens, peek]
  cases hs : skip ps with
  | nil => simp
  | cons c s => simp [(scan_token hs).2 toks htoks]

/-- `gettoken` takes the next token. -/
theorem gettoken_cons {ps : List UInt8} {t : Tok Word} {ts : List (Tok Word)}
    (h : tokens ps = t :: ts) :
    (gettoken ps).tok = t.code ∧ (gettoken ps).token = t ∧ tokens (gettoken ps).ps = ts := by
  rw [tokens] at h
  split_ifs at h with hs
  obtain ⟨c, s, hcons⟩ := List.exists_cons_of_ne_nil hs
  rw [List.cons.injEq] at h
  exact ⟨(scan_token hcons).1.trans (congrArg _ h.1), h.1, h.2⟩

/-- The word, where `gettoken` returns `'a'`. -/
theorem gettoken_word {ps : List UInt8} {w : Word} (h : (gettoken ps).token = .word w) :
    w = ⟨(gettoken ps).q, (gettoken ps).eq⟩ := by
  rw [Got.token] at h
  split_ifs at h
  rw [Tok.word.injEq] at h
  exact h.symm

theorem gettoken_tok_eq_zero {ps : List UInt8} : (gettoken ps).tok = 0 ↔ tokens ps = [] := by
  constructor
  · intro h
    by_contra hne
    obtain ⟨t, ts, hcons⟩ := List.exists_cons_of_ne_nil hne
    rw [(gettoken_cons hcons).1] at h
    cases t <;> cases h
  · intro h
    rw [gettoken_nil (tokens_eq_nil.mp h)]

theorem tokens_gettoken_nil {ps : List UInt8} (h : tokens ps = []) :
    tokens (gettoken ps).ps = [] := by
  rw [gettoken_nil (tokens_eq_nil.mp h), tokens_eq_nil]
  rfl

/-- `'a'` is what `gettoken` returns for a word only. -/
theorem gettoken_tok_eq_aWord {ps : List UInt8} (h : (gettoken ps).tok = aWord) :
    tokens ps = .word ⟨(gettoken ps).q, (gettoken ps).eq⟩ :: tokens (gettoken ps).ps := by
  cases hts : tokens ps with
  | nil =>
      rw [gettoken_tok_eq_zero.mpr hts] at h
      cases h
  | cons t ts =>
      obtain ⟨hcode, htoken, hrest⟩ := gettoken_cons hts
      rw [hcode] at h
      cases t with
      | word w => rw [hrest, gettoken_word htoken]
      | _ => cases h

/-! ### The grammar -/

section Grammar

variable {W : Type}

/-- A redirection: what `redircmd` is given, apart from the command. -/
structure Redir (W : Type) where
  file : W
  mode : Nat
  fd : Nat

/-- The tokens of a redirection. -/
inductive Redirection : List (Tok W) → Redir W → Prop
  | input (w : W) : Redirection [.less, .word w] ⟨w, O_RDONLY, 0⟩
  | output (w : W) : Redirection [.greater, .word w] ⟨w, O_WRONLY_CREATE, 1⟩
  | append (w : W) : Redirection [.appends, .word w] ⟨w, O_WRONLY_CREATE, 1⟩

/-- The words and redirections of a simple command, in any order. -/
inductive Simple : List (Tok W) → List W → List (Redir W) → Prop
  | nil : Simple [] [] []
  | word {ts : List (Tok W)} {ws : List W} {rs : List (Redir W)} (w : W) :
      Simple ts ws rs → Simple (.word w :: ts) (w :: ws) rs
  | redir {us ts : List (Tok W)} {r : Redir W} {ws : List W} {rs : List (Redir W)} :
      Redirection us r → Simple ts ws rs → Simple (us ++ ts) ws (r :: rs)

/-- The command behind its redirections: the first one is the innermost. -/
def wrap (cmd : Cmd W) (rs : List (Redir W)) : Cmd W :=
  rs.foldl (fun cmd r => .redir cmd r.file r.mode r.fd) cmd

/-- The functions of the parser. -/
inductive Level
  | line
  | pipe
  | exec
  | block
  deriving DecidableEq

/-- The tokens and the tree of a line, of a pipeline, of one of its commands, and of a line
in parentheses. -/
inductive Derives : Level → List (Tok W) → Cmd W → Prop
  | last {ts : List (Tok W)} {c : Cmd W} (n : Nat) :
      Derives .pipe ts c → Derives .line (ts ++ List.replicate n .ampersand) (Cmd.back^[n] c)
  | seq {ts us : List (Tok W)} {c d : Cmd W} (n : Nat) :
      Derives .pipe ts c → Derives .line us d →
      Derives .line (ts ++ List.replicate n .ampersand ++ .semicolon :: us)
        (.list (Cmd.back^[n] c) d)
  | single {ts : List (Tok W)} {c : Cmd W} : Derives .exec ts c → Derives .pipe ts c
  | pipe {ts us : List (Tok W)} {c d : Cmd W} :
      Derives .exec ts c → Derives .pipe us d → Derives .pipe (ts ++ .bar :: us) (.pipe c d)
  | simple {ts : List (Tok W)} {ws : List W} {rs : List (Redir W)} :
      Simple ts ws rs → ws.length < MAXARGS → Derives .exec ts (wrap (.exec ws) rs)
  | block {ts : List (Tok W)} {c : Cmd W} : Derives .block ts c → Derives .exec ts c
  | paren {ts us : List (Tok W)} {c : Cmd W} {rs : List (Redir W)} :
      Derives .line ts c → Simple us [] rs →
      Derives .block (.lparen :: ts ++ .rparen :: us) (wrap c rs)

/-- What may stand behind a phrase of the level. -/
def Level.follow : Level → List (Tok W)
  | .line => [.rparen]
  | .pipe => [.rparen, .ampersand, .semicolon]
  | .exec | .block => [.rparen, .ampersand, .semicolon, .bar]

theorem Simple.append {ts us : List (Tok W)} {ws vs : List W} {rs qs : List (Redir W)}
    (h : Simple ts ws rs) (h' : Simple us vs qs) :
    Simple (ts ++ us) (ws ++ vs) (rs ++ qs) := by
  induction h with
  | nil => exact h'
  | word w _ ih => exact .word w ih
  | redir hr _ ih =>
      rw [List.append_assoc, List.cons_append]
      exact .redir hr ih

theorem addArg_wrap (cmd : Cmd W) (w : W) (rs : List (Redir W)) :
    (wrap cmd rs).addArg w = wrap (cmd.addArg w) rs := by
  induction rs generalizing cmd with
  | nil => rfl
  | cons r rs ih => exact ih _

/-- The words of a simple command come to its `argv`, behind all the redirections. -/
theorem foldl_addArg_wrap (cmd : Cmd W) (ws : List W) (rs : List (Redir W)) :
    ws.foldl Cmd.addArg (wrap cmd rs) = wrap (ws.foldl Cmd.addArg cmd) rs := by
  induction ws generalizing cmd with
  | nil => rfl
  | cons w ws ih => rw [List.foldl_cons, addArg_wrap, ih, List.foldl_cons]

theorem foldl_addArg_exec (argv ws : List W) :
    ws.foldl Cmd.addArg (.exec argv) = .exec (argv ++ ws) := by
  induction ws generalizing argv with
  | nil => simp
  | cons w ws ih => rw [List.foldl_cons, Cmd.addArg, ih, List.append_assoc]; rfl

end Grammar

/-! ### The steps of the parser -/

/-- The token that `peek` saw is still to come. -/
theorem peek_cons {ps toks : List UInt8} (htoks : toks ⊆ symbols)
    (h : (peek ps toks).1 = true) :
    ∃ t ts, tokens (peek ps toks).2 = t :: ts ∧ t.first ∈ toks := by
  rw [tokens_peek]
  exact (peek_iff htoks).mp h

theorem peek_eq_false {ps toks : List UInt8} (htoks : toks ⊆ symbols)
    (h : ∀ t ∈ (tokens ps).head?, t.first ∉ toks) : ¬(peek ps toks).1 = true := by
  rw [peek_iff htoks]
  rintro ⟨t, ts, hcons, hfirst⟩
  exact h t (by rw [hcons]; rfl) hfirst

/-- The tokens that no other starts like. -/
def Tok.single {W : Type} : List (Tok W) := [.bar, .lparen, .rparen, .semicolon, .ampersand]

theorem Tok.eq_of_first {W : Type} {t u : Tok W} (ht : t ∈ single) (h : u.first = t.first) :
    u = t := by
  simp only [single, List.mem_cons, List.not_mem_nil, or_false] at ht
  rcases ht with rfl | rfl | rfl | rfl | rfl <;> cases u <;> first | rfl | cases h

/-- `gettoken` takes the token that `peek` saw. -/
theorem gettoken_peek {ps : List UInt8} {c : UInt8} (t : Tok Word)
    (h : (peek ps [c]).1 = true) (ht : t ∈ Tok.single) (hc : t.first = c) :
    tokens ps = t :: tokens (gettoken (peek ps [c]).2).ps := by
  have hsub : [c] ⊆ symbols := by
    rw [← hc]
    simp only [Tok.single, List.mem_cons, List.not_mem_nil, or_false] at ht
    rcases ht with rfl | rfl | rfl | rfl | rfl <;> simp [Tok.first, Tok.code, symbols]
  obtain ⟨u, ts, hcons, hfirst⟩ := peek_cons hsub h
  rw [List.mem_singleton, ← hc] at hfirst
  rw [← tokens_peek ps [c], (gettoken_cons hcons).2.2, hcons, Tok.eq_of_first ht hfirst]

/-- The switch of `parseredirs`, at an operator that `peek` saw. -/
theorem redirection_redirect {o : Tok Word} (ho : o.first ∈ [less, greater]) (cmd : Cmd Word)
    (w : Word) : ∃ r : Redir Word, Redirection [o, .word w] r ∧
      redirect o.code cmd w = .redir cmd r.file r.mode r.fd := by
  cases o with
  | less => exact ⟨_, .input w, rfl⟩
  | greater => exact ⟨_, .output w, rfl⟩
  | appends => exact ⟨_, .append w, rfl⟩
  | _ =>
      simp only [List.mem_cons, List.not_mem_nil, or_false] at ho
      rcases ho with h | h <;> cases h

theorem Redirection.redirect {us : List (Tok Word)} {r : Redir Word} (h : Redirection us r)
    (cmd : Cmd Word) : ∃ o w, us = [o, .word w] ∧ o.first ∈ [less, greater] ∧
      redirect o.code cmd w = .redir cmd r.file r.mode r.fd := by
  cases h with
  | input w => exact ⟨.less, w, rfl, by simp [Tok.first, Tok.code], rfl⟩
  | output w => exact ⟨.greater, w, rfl, by simp [Tok.first, Tok.code], rfl⟩
  | append w => exact ⟨.appends, w, rfl, by simp [Tok.first], rfl⟩

/-! ### What the parser accepts is in the grammar -/

theorem parseredirs_sound {cmd c : Cmd Word} {ps ps' : List UInt8}
    (h : parseredirs cmd ps = .ok (c, ps')) :
    ∃ us rs, Simple us [] rs ∧ tokens ps = us ++ tokens ps' ∧ c = wrap cmd rs := by
  fun_induction parseredirs cmd ps with
  | case1 => cases h
  | case2 cmd ps p hp t f hf ih =>
      obtain ⟨us, rs, hsimple, htok, rfl⟩ := ih h
      obtain ⟨o, os, hcons, ho⟩ := peek_cons (by decide) hp
      obtain ⟨hcode, -, hrest⟩ := gettoken_cons hcons
      have hfile := gettoken_tok_eq_aWord (not_not.mp hf)
      obtain ⟨r, hr, hcmd⟩ := redirection_redirect ho cmd ⟨f.q, f.eq⟩
      refine ⟨[o, .word ⟨f.q, f.eq⟩] ++ us, r :: rs, .redir hr hsimple, ?_, ?_⟩
      · rw [← tokens_peek ps [less, greater], hcons, ← hrest, hfile, htok]
        rfl
      · rw [← hcode] at hcmd
        exact congrArg (wrap · rs) hcmd
  | case3 cmd ps p hp =>
      cases h
      exact ⟨[], [], .nil, by simp [p], rfl⟩

theorem argsLoop_sound {ret c : Cmd Word} {argc : Nat} {ps ps' : List UInt8}
    (hargc : argc < MAXARGS) (h : argsLoop ret argc ps = .ok (c, ps')) :
    ∃ ts ws rs, Simple ts ws rs ∧ argc + ws.length < MAXARGS ∧
      tokens ps = ts ++ tokens ps' ∧ c = wrap (ws.foldl Cmd.addArg ret) rs := by
  fun_induction argsLoop ret argc ps with
  | case1 ret argc ps p hp =>
      cases h
      exact ⟨[], [], [], .nil, hargc, by simp [p], rfl⟩
  | case2 ret argc ps p hp t ht =>
      cases h
      have hnil := gettoken_tok_eq_zero.mp ht
      refine ⟨[], [], [], .nil, hargc, ?_, rfl⟩
      rw [tokens_gettoken_nil hnil, ← tokens_peek ps, hnil]
      rfl
  | case3 => cases h
  | case4 => cases h
  | case5 => cases h
  | case6 ret argc ps p hp t h0 ht hmax ret' ps'' hredirs ih =>
      obtain ⟨us, qs, hus, htok, rfl⟩ := parseredirs_sound hredirs
      obtain ⟨ts, ws, rs, hts, hlen, htok', rfl⟩ := ih (by omega) h
      have hword := gettoken_tok_eq_aWord (not_not.mp ht)
      refine ⟨_, _, _, .word ⟨t.q, t.eq⟩ (hus.append hts), ?_, ?_, ?_⟩
      · simp only [List.nil_append, List.length_cons]
        omega
      · rw [← tokens_peek ps, hword, htok, htok', List.cons_append, List.append_assoc]
      · rw [List.nil_append, List.foldl_cons, foldl_addArg_wrap, wrap, wrap, wrap,
          List.foldl_append]

/-- The loop of `parseline` takes all the `&` there are. -/
theorem backLoop_spec (cmd : Cmd Word) (ps : List UInt8) :
    ∃ n, (backLoop cmd ps).1 = Cmd.back^[n] cmd ∧
      tokens ps = List.replicate n .ampersand ++ tokens (backLoop cmd ps).2 ∧
      (tokens (backLoop cmd ps).2).head? ≠ some .ampersand := by
  fun_induction backLoop cmd ps with
  | case1 cmd ps p hp ih =>
      obtain ⟨n, hcmd, htok, hhead⟩ := ih
      have hamp := gettoken_peek .ampersand hp (by decide) rfl
      exact ⟨n + 1, hcmd, hamp.trans (congrArg (_ :: ·) htok), hhead⟩
  | case2 cmd ps p hp =>
      refine ⟨0, rfl, by simp [p], fun hhead => hp ?_⟩
      obtain ⟨ts, hcons⟩ := List.head?_eq_some_iff.mp hhead
      rw [tokens_peek] at hcons
      exact (peek_iff (by decide)).mpr ⟨_, ts, hcons, by decide⟩

/-- The function of the level. -/
def parse : Level → Nat → List UInt8 → Except Panic (Cmd Word × List UInt8)
  | .line => parseline
  | .pipe => parsepipe
  | .exec => parseexec
  | .block => parseblock

/-- What the functions accept with so much fuel is in the grammar. -/
def Sound (fuel : Nat) : Prop :=
  ∀ (l : Level) (ps ps' : List UInt8) (c : Cmd Word), parse l fuel ps = .ok (c, ps') →
    ∃ ts, Derives l ts c ∧ tokens ps = ts ++ tokens ps'

variable {fuel : Nat} {ps ps' : List UInt8} {c : Cmd Word}

theorem parseline_sound (hs : Sound fuel) (h : parseline (fuel + 1) ps = .ok (c, ps')) :
    ∃ ts, Derives .line ts c ∧ tokens ps = ts ++ tokens ps' := by
  rw [parseline] at h
  split at h
  · cases h
  rename_i cmd qs hpipe
  obtain ⟨ts, hts, htok⟩ := hs .pipe _ _ _ hpipe
  obtain ⟨n, hback, hamp, -⟩ := backLoop_spec cmd qs
  simp only [hback] at h
  split at h
  · rename_i hsemi
    split at h
    · cases h
    rename_i d rs hline
    cases h
    obtain ⟨us, hus, htok'⟩ := hs .line _ _ _ hline
    refine ⟨_, .seq n hts hus, ?_⟩
    rw [htok, hamp, gettoken_peek .semicolon hsemi (by decide) rfl, htok']
    simp
  · cases h
    refine ⟨_, .last n hts, ?_⟩
    rw [htok, hamp, tokens_peek, List.append_assoc]

theorem parsepipe_sound (hs : Sound fuel) (h : parsepipe (fuel + 1) ps = .ok (c, ps')) :
    ∃ ts, Derives .pipe ts c ∧ tokens ps = ts ++ tokens ps' := by
  rw [parsepipe] at h
  split at h
  · cases h
  rename_i cmd qs hexec
  obtain ⟨ts, hts, htok⟩ := hs .exec _ _ _ hexec
  simp only at h
  split at h
  · rename_i hbar
    split at h
    · cases h
    rename_i d rs hpipe
    cases h
    obtain ⟨us, hus, htok'⟩ := hs .pipe _ _ _ hpipe
    refine ⟨_, .pipe hts hus, ?_⟩
    rw [htok, gettoken_peek .bar hbar (by decide) rfl, htok']
    simp
  · cases h
    refine ⟨_, .single hts, ?_⟩
    rw [htok, tokens_peek]

theorem parseexec_sound (hs : Sound fuel) (h : parseexec (fuel + 1) ps = .ok (c, ps')) :
    ∃ ts, Derives .exec ts c ∧ tokens ps = ts ++ tokens ps' := by
  rw [parseexec] at h
  split at h
  · obtain ⟨ts, hts, htok⟩ := hs .block _ _ _ h
    refine ⟨_, .block hts, ?_⟩
    rw [← htok, tokens_peek]
  split at h
  · cases h
  rename_i ret qs hredirs
  obtain ⟨us, rs, hus, htok, rfl⟩ := parseredirs_sound hredirs
  obtain ⟨ts, ws, rs', hts, hlen, htok', rfl⟩ := argsLoop_sound (by decide) h
  rw [tokens_peek] at htok
  refine ⟨_, ?_, by rw [htok, htok', List.append_assoc]⟩
  rw [foldl_addArg_wrap, foldl_addArg_exec, List.nil_append, wrap, wrap, ← List.foldl_append]
  exact .simple (hus.append hts) (by simpa using hlen)

theorem parseblock_sound (hs : Sound fuel) (h : parseblock (fuel + 1) ps = .ok (c, ps')) :
    ∃ ts, Derives .block ts c ∧ tokens ps = ts ++ tokens ps' := by
  rw [parseblock] at h
  simp only at h
  split at h
  · cases h
  rename_i hopen
  split at h
  · cases h
  rename_i cmd qs hline
  split at h
  · cases h
  rename_i hclose
  obtain ⟨ts, hts, htok⟩ := hs .line _ _ _ hline
  obtain ⟨us, rs, hus, htok', rfl⟩ := parseredirs_sound h
  refine ⟨_, .paren hts hus, ?_⟩
  rw [Bool.not_eq_false] at hopen hclose
  rw [gettoken_peek .lparen hopen (by decide) rfl, htok,
    gettoken_peek .rparen hclose (by decide) rfl, htok']
  simp

/-- On every depth of calls. -/
theorem sound (fuel : Nat) : Sound fuel := by
  induction fuel with
  | zero =>
      intro l ps ps' c h
      cases l <;> cases h
  | succ fuel ih =>
      intro l ps ps' c h
      cases l with
      | line => exact parseline_sound ih h
      | pipe => exact parsepipe_sound ih h
      | exec => exact parseexec_sound ih h
      | block => exact parseblock_sound ih h

/-! ### The parser accepts what is in the grammar -/

/-- The tokens are ones that may stand behind a phrase of the level. -/
def Follows (l : Level) (rest : List (Tok Word)) : Prop := ∀ t ∈ rest.head?, t ∈ l.follow

theorem Follows.mono {l l' : Level} {rest : List (Tok Word)} (h : Follows l rest)
    (hsub : (l.follow : List (Tok Word)) ⊆ l'.follow) : Follows l' rest :=
  fun t ht => hsub (h t ht)

theorem parseredirs_stop {cmd : Cmd Word} {ps : List UInt8}
    (h : ∀ t ∈ (tokens ps).head?, t.first ∉ [less, greater]) :
    parseredirs cmd ps = .ok (cmd, (peek ps [less, greater]).2) := by
  rw [parseredirs]
  exact dif_neg (peek_eq_false (by decide) h)

theorem parseredirs_step (cmd : Cmd Word) {ps : List UInt8} {us ts : List (Tok Word)}
    {r : Redir Word} (hr : Redirection us r) (htok : tokens ps = us ++ ts) :
    ∃ qs, tokens qs = ts ∧
      parseredirs cmd ps = parseredirs (.redir cmd r.file r.mode r.fd) qs := by
  obtain ⟨o, w, rfl, ho, hcmd⟩ := hr.redirect cmd
  have hpeek : (peek ps [less, greater]).1 = true :=
    (peek_iff (by decide)).mpr ⟨o, .word w :: ts, htok, ho⟩
  rw [← tokens_peek ps [less, greater]] at htok
  obtain ⟨hcode, -, hrest⟩ := gettoken_cons htok
  obtain ⟨hfile, htoken, hrest'⟩ := gettoken_cons hrest
  refine ⟨_, hrest', ?_⟩
  rw [parseredirs]
  simp only [hpeek, hfile, ← hcmd, hcode, gettoken_word htoken]
  rfl

/-- What may stand behind a command ends the loop of `parseexec`, and is no redirection. -/
theorem follow_first : ∀ t ∈ (Level.exec.follow : List (Tok Word)),
    t.first ∈ [bar, rparen, ampersand, semicolon] ∧ t.first ∉ [less, greater] := by
  decide

/-- Only redirections: behind parentheses. -/
theorem parseredirs_complete {us rest : List (Tok Word)} {ws : List Word}
    {rs : List (Redir Word)} (h : Simple us ws rs) (hws : ws = []) (cmd : Cmd Word)
    {ps : List UInt8} (htok : tokens ps = us ++ rest) (hrest : Follows .block rest) :
    ∃ qs, tokens qs = rest ∧ parseredirs cmd ps = .ok (wrap cmd rs, qs) := by
  induction h generalizing cmd ps with
  | nil =>
      refine ⟨_, ?_, parseredirs_stop ?_⟩
      · rw [tokens_peek, htok]
        rfl
      · rw [htok]
        exact fun t ht => (follow_first t (hrest t ht)).2
  | word w _ ih => cases hws
  | redir hr _ ih =>
      rw [List.append_assoc] at htok
      obtain ⟨qs, hqs, hstep⟩ := parseredirs_step cmd hr htok
      obtain ⟨qs', hqs', hrest⟩ := ih hws _ hqs
      exact ⟨qs', hqs', hstep.trans hrest⟩

/-- No redirection starts with a word. -/
theorem Tok.first_word {toks : List UInt8} (h : toks ⊆ symbols) (w : Word) :
    (Tok.word w).first ∉ toks := fun hmem => absurd (h hmem) (by decide : aWord ∉ symbols)

/-- `parseredirs`, and the loop of `parseexec` behind it. -/
def redirsArgs (ret : Cmd Word) (argc : Nat) (ps : List UInt8) :
    Except Panic (Cmd Word × List UInt8) :=
  match parseredirs ret ps with
  | .error e => .error e
  | .ok (ret, ps) => argsLoop ret argc ps

theorem argsLoop_stop (ret : Cmd Word) (argc : Nat) {ps : List UInt8}
    (h : Follows .exec (tokens ps)) :
    ∃ qs, tokens qs = tokens ps ∧ argsLoop ret argc ps = .ok (ret, qs) := by
  rw [argsLoop]
  cases hts : tokens ps with
  | nil =>
      have hpeek : ¬(peek ps [bar, rparen, ampersand, semicolon]).1 = true :=
        peek_eq_false (by decide) (by simp [hts])
      rw [← tokens_peek ps [bar, rparen, ampersand, semicolon]] at hts
      exact ⟨_, tokens_gettoken_nil hts,
        (if_neg hpeek).trans (if_pos (gettoken_tok_eq_zero.mpr hts))⟩
  | cons t ts =>
      rw [hts] at h
      have hpeek : (peek ps [bar, rparen, ampersand, semicolon]).1 = true :=
        (peek_iff (by decide)).mpr ⟨t, ts, hts, (follow_first t (h t rfl)).1⟩
      exact ⟨_, (tokens_peek ps _).trans hts, if_pos hpeek⟩

theorem argsLoop_word (ret : Cmd Word) {argc : Nat} {ps : List UInt8} {w : Word}
    {ts : List (Tok Word)} (hargc : argc + 1 < MAXARGS) (htok : tokens ps = .word w :: ts) :
    ∃ qs, tokens qs = ts ∧ argsLoop ret argc ps = redirsArgs (ret.addArg w) (argc + 1) qs := by
  have hpeek : ¬(peek ps [bar, rparen, ampersand, semicolon]).1 = true := by
    refine peek_eq_false (by decide) fun t ht => ?_
    rw [htok, List.head?_cons, Option.mem_some_iff] at ht
    exact ht ▸ Tok.first_word (by decide) w
  rw [← tokens_peek ps [bar, rparen, ampersand, semicolon]] at htok
  obtain ⟨hcode, htoken, hrest⟩ := gettoken_cons htok
  refine ⟨_, hrest, ?_⟩
  rw [argsLoop]
  simp only [hpeek, hcode, gettoken_word htoken, hargc.not_ge]
  rfl

/-- A simple command: `parseexec` takes its redirections, and then a word at a time and the
redirections behind it. -/
theorem simple_complete {ts rest : List (Tok Word)} {ws : List Word} {rs : List (Redir Word)}
    (h : Simple ts ws rs) (hrest : Follows .exec rest) (ret : Cmd Word) (argc : Nat)
    {ps : List UInt8} (hargc : argc + ws.length < MAXARGS) (htok : tokens ps = ts ++ rest) :
    ∃ qs, tokens qs = rest ∧
      redirsArgs ret argc ps = .ok (wrap (ws.foldl Cmd.addArg ret) rs, qs) := by
  induction h generalizing ret argc ps with
  | nil =>
      have hstop : ∀ t ∈ (tokens ps).head?, t.first ∉ [less, greater] := by
        rw [htok]
        exact fun t ht => (follow_first t (hrest t ht)).2
      rw [← tokens_peek ps [less, greater], List.nil_append] at htok
      obtain ⟨qs, hqs, hloop⟩ := argsLoop_stop ret argc (htok.symm ▸ hrest)
      exact ⟨qs, hqs.trans htok, by rw [redirsArgs, parseredirs_stop hstop]; exact hloop⟩
  | word w _ ih =>
      have hstop : ∀ t ∈ (tokens ps).head?, t.first ∉ [less, greater] := by
        intro t ht
        rw [htok, List.cons_append, List.head?_cons, Option.mem_some_iff] at ht
        exact ht ▸ Tok.first_word (by decide) w
      rw [List.length_cons] at hargc
      rw [← tokens_peek ps [less, greater]] at htok
      obtain ⟨qs, hqs, hloop⟩ := argsLoop_word ret (show argc + 1 < MAXARGS by omega) htok
      obtain ⟨qs', hqs', hrec⟩ := ih (ret.addArg w) (argc + 1) (by omega) hqs
      refine ⟨qs', hqs', ?_⟩
      rw [redirsArgs, parseredirs_stop hstop]
      exact hloop.trans hrec
  | @redir us ts r ws rs hr _ ih =>
      rw [List.append_assoc] at htok
      obtain ⟨qs, hqs, hstep⟩ := parseredirs_step ret hr htok
      obtain ⟨qs', hqs', hrec⟩ := ih (.redir ret r.file r.mode r.fd) argc hargc hqs
      refine ⟨qs', hqs', ?_⟩
      rw [redirsArgs, hstep, ← redirsArgs, hrec]
      exact congrArg (fun c => Except.ok (wrap c rs, qs')) (foldl_addArg_wrap ret ws [r])

theorem backLoop_complete {n : Nat} (cmd : Cmd Word) {ps : List UInt8} {rest : List (Tok Word)}
    (htok : tokens ps = List.replicate n .ampersand ++ rest)
    (hrest : ∀ t ∈ rest.head?, t ≠ .ampersand) :
    ∃ qs, tokens qs = rest ∧ backLoop cmd ps = (Cmd.back^[n] cmd, qs) := by
  induction n generalizing cmd ps with
  | zero =>
      have hpeek : ¬(peek ps [ampersand]).1 = true := by
        refine peek_eq_false (by decide) fun t ht hfirst => ?_
        rw [htok] at ht
        exact hrest t ht (Tok.eq_of_first (by decide) (List.mem_singleton.mp hfirst))
      refine ⟨_, (tokens_peek ps [ampersand]).trans htok, ?_⟩
      rw [backLoop]
      exact dif_neg hpeek
  | succ n ih =>
      have hpeek : (peek ps [ampersand]).1 = true :=
        (peek_iff (by decide)).mpr ⟨_, _, htok, List.mem_singleton.mpr rfl⟩
      rw [← tokens_peek ps [ampersand]] at htok
      obtain ⟨qs, hqs, hrec⟩ := ih (.back cmd) (gettoken_cons htok).2.2
      refine ⟨qs, hqs, ?_⟩
      rw [backLoop]
      exact (dif_pos hpeek).trans hrec

/-- The calls that a function of the level makes before it takes a token. -/
def Level.need : Level → Nat
  | .line => 4
  | .pipe => 3
  | .exec => 2
  | .block => 1

/-- The function of the level takes the phrase and builds the tree. -/
def Complete (l : Level) (ts : List (Tok Word)) (c : Cmd Word) : Prop :=
  ∀ (fuel : Nat) (ps : List UInt8) (rest : List (Tok Word)), tokens ps = ts ++ rest →
    Follows l rest → 4 * (tokens ps).length + l.need ≤ fuel →
    ∃ qs, tokens qs = rest ∧ parse l fuel ps = .ok (c, qs)

variable {ts us : List (Tok Word)} {d : Cmd Word}

/-- `parsepipe` and the loop of `parseline`, on their part of a line. -/
theorem back_complete {n : Nat} {rest : List (Tok Word)} (h : Complete .pipe ts c)
    (hfuel : 4 * (tokens ps).length + 3 ≤ fuel)
    (htok : tokens ps = ts ++ (List.replicate n .ampersand ++ rest))
    (hrest : ∀ t ∈ rest.head?, t ∈ [.rparen, .semicolon]) :
    ∃ qs qs', tokens qs' = rest ∧ parsepipe fuel ps = .ok (c, qs) ∧
      backLoop c qs = (Cmd.back^[n] c, qs') := by
  have hfollow : Follows .pipe (List.replicate n .ampersand ++ rest) := by
    intro t ht
    cases n with
    | zero =>
        have hmem := hrest t ht
        simp only [List.mem_cons, List.not_mem_nil, or_false] at hmem
        rcases hmem with rfl | rfl <;> simp [Level.follow]
    | succ n =>
        rw [List.replicate_succ, List.cons_append, List.head?_cons, Option.mem_some_iff] at ht
        simp [Level.follow, ← ht]
  obtain ⟨qs, hqs, hpipe⟩ := h _ _ _ htok hfollow hfuel
  obtain ⟨qs', hqs', hback⟩ := backLoop_complete c hqs (by
    rintro t ht rfl
    exact absurd (hrest _ ht) (by decide))
  exact ⟨qs, qs', hqs', hpipe, hback⟩

theorem complete_last (n : Nat) (h : Complete .pipe ts c) :
    Complete .line (ts ++ List.replicate n .ampersand) (Cmd.back^[n] c) := by
  intro fuel ps rest htok hrest hfuel
  rw [List.append_assoc] at htok
  rw [Level.need] at hfuel
  obtain ⟨fuel, rfl⟩ := Nat.exists_eq_add_of_le' (by omega : 1 ≤ fuel)
  have hfuel' : 4 * (tokens ps).length + 3 ≤ fuel := by omega
  obtain ⟨qs, qs', hqs', hpipe, hback⟩ := back_complete h hfuel' htok (fun t ht => by
    have hmem := hrest t ht
    simp only [Level.follow, List.mem_singleton] at hmem
    simp [hmem])
  have hpeek : ¬(peek qs' [semicolon]).1 = true := by
    refine peek_eq_false (by decide) fun t ht hfirst => ?_
    rw [hqs'] at ht
    obtain rfl := Tok.eq_of_first (t := .semicolon) (by decide) (List.mem_singleton.mp hfirst)
    exact absurd (hrest _ ht) (by decide)
  refine ⟨_, (tokens_peek qs' [semicolon]).trans hqs', ?_⟩
  rw [parse, parseline, hpipe]
  simp only [hback, hpeek]
  rfl

theorem complete_seq (n : Nat) (h : Complete .pipe ts c) (h' : Complete .line us d) :
    Complete .line (ts ++ List.replicate n .ampersand ++ .semicolon :: us)
      (.list (Cmd.back^[n] c) d) := by
  intro fuel ps rest htok hrest hfuel
  have hlen := congrArg List.length htok
  rw [List.append_assoc, List.append_assoc] at htok
  simp only [List.length_append, List.length_cons] at hlen
  rw [Level.need] at hfuel
  obtain ⟨fuel, rfl⟩ := Nat.exists_eq_add_of_le' (by omega : 1 ≤ fuel)
  have hfuel' : 4 * (tokens ps).length + 3 ≤ fuel := by omega
  obtain ⟨qs, qs', hqs', hpipe, hback⟩ := back_complete h hfuel' htok (fun t ht => by
    rw [List.cons_append, List.head?_cons, Option.mem_some_iff] at ht
    simp [← ht])
  have hpeek : (peek qs' [semicolon]).1 = true :=
    (peek_iff (by decide)).mpr ⟨_, _, hqs', List.mem_singleton.mpr rfl⟩
  rw [← tokens_peek qs' [semicolon]] at hqs'
  have hus : tokens _ = us ++ rest := (gettoken_cons hqs').2.2
  obtain ⟨rs, hrs, hline⟩ := h' fuel _ rest hus hrest (by
    rw [hus, List.length_append, Level.need]
    omega)
  refine ⟨rs, hrs, ?_⟩
  rw [parse] at hline
  rw [parse, parseline, hpipe]
  simp only [hback, hpeek, hline]
  rfl

theorem complete_single (h : Complete .exec ts c) : Complete .pipe ts c := by
  intro fuel ps rest htok hrest hfuel
  rw [Level.need] at hfuel
  obtain ⟨fuel, rfl⟩ := Nat.exists_eq_add_of_le' (by omega : 1 ≤ fuel)
  obtain ⟨qs, hqs, hexec⟩ := h fuel ps rest htok (hrest.mono (by decide)) (by
    rw [Level.need]
    omega)
  have hpeek : ¬(peek qs [bar]).1 = true := by
    refine peek_eq_false (by decide) fun t ht hfirst => ?_
    rw [hqs] at ht
    obtain rfl := Tok.eq_of_first (t := .bar) (by decide) (List.mem_singleton.mp hfirst)
    exact absurd (hrest _ ht) (by decide)
  refine ⟨_, (tokens_peek qs [bar]).trans hqs, ?_⟩
  rw [parse] at hexec
  rw [parse, parsepipe, hexec]
  simp only [hpeek]
  rfl

theorem complete_pipe (h : Complete .exec ts c) (h' : Complete .pipe us d) :
    Complete .pipe (ts ++ .bar :: us) (.pipe c d) := by
  intro fuel ps rest htok hrest hfuel
  have hlen := congrArg List.length htok
  rw [List.append_assoc] at htok
  simp only [List.length_append, List.length_cons] at hlen
  rw [Level.need] at hfuel
  obtain ⟨fuel, rfl⟩ := Nat.exists_eq_add_of_le' (by omega : 1 ≤ fuel)
  have hbar : Follows .exec (.bar :: us ++ rest) := fun t ht => by
    rw [List.cons_append, List.head?_cons, Option.mem_some_iff] at ht
    simp [← ht, Level.follow]
  obtain ⟨qs, hqs, hexec⟩ := h fuel ps _ htok hbar (by
    rw [Level.need]
    omega)
  have hpeek : (peek qs [bar]).1 = true :=
    (peek_iff (by decide)).mpr ⟨_, _, hqs, List.mem_singleton.mpr rfl⟩
  rw [← tokens_peek qs [bar]] at hqs
  have hus : tokens _ = us ++ rest := (gettoken_cons hqs).2.2
  obtain ⟨rs, hrs, hpipe⟩ := h' fuel _ rest hus hrest (by
    rw [hus, List.length_append, Level.need]
    omega)
  refine ⟨rs, hrs, ?_⟩
  rw [parse] at hexec
  rw [parse] at hpipe
  rw [parse, parsepipe, hexec]
  simp only [hpeek, hpipe]
  rfl

theorem complete_simple {ws : List Word} {rs : List (Redir Word)} (h : Simple ts ws rs)
    (hws : ws.length < MAXARGS) : Complete .exec ts (wrap (.exec ws) rs) := by
  intro fuel ps rest htok hrest hfuel
  rw [Level.need] at hfuel
  obtain ⟨fuel, rfl⟩ := Nat.exists_eq_add_of_le' (by omega : 1 ≤ fuel)
  have hpeek : ¬(peek ps [lparen]).1 = true := by
    refine peek_eq_false (by decide) fun t ht hfirst => ?_
    obtain rfl := Tok.eq_of_first (t := .lparen) (by decide) (List.mem_singleton.mp hfirst)
    rw [htok] at ht
    cases h with
    | nil => exact absurd (hrest _ ht) (by decide)
    | word w _ => simp at ht
    | redir hr _ => cases hr <;> simp at ht
  obtain ⟨qs, hqs, hargs⟩ := simple_complete h hrest (.exec []) 0 (by omega)
    ((tokens_peek ps [lparen]).trans htok)
  refine ⟨qs, hqs, ?_⟩
  rw [foldl_addArg_exec, List.nil_append, redirsArgs] at hargs
  rw [parse, parseexec]
  exact (if_neg hpeek).trans hargs

theorem complete_block (h : Complete .block ts c) (hts : ts.head? = some .lparen) :
    Complete .exec ts c := by
  intro fuel ps rest htok hrest hfuel
  rw [Level.need] at hfuel
  obtain ⟨fuel, rfl⟩ := Nat.exists_eq_add_of_le' (by omega : 1 ≤ fuel)
  obtain ⟨us, rfl⟩ := List.head?_eq_some_iff.mp hts
  have hpeek : (peek ps [lparen]).1 = true :=
    (peek_iff (by decide)).mpr ⟨_, _, htok, List.mem_singleton.mpr rfl⟩
  obtain ⟨qs, hqs, hblock⟩ := h fuel (peek ps [lparen]).2 rest ((tokens_peek _ _).trans htok)
    hrest (by
      rw [tokens_peek, Level.need]
      omega)
  refine ⟨qs, hqs, ?_⟩
  rw [parse, parseexec]
  exact (if_pos hpeek).trans hblock

theorem complete_paren {rs : List (Redir Word)} (h : Complete .line ts c)
    (hus : Simple us [] rs) : Complete .block (.lparen :: ts ++ .rparen :: us) (wrap c rs) := by
  intro fuel ps rest htok hrest hfuel
  have hlen := congrArg List.length htok
  simp only [List.length_append, List.length_cons] at hlen
  rw [Level.need] at hfuel
  obtain ⟨fuel, rfl⟩ := Nat.exists_eq_add_of_le' (by omega : 1 ≤ fuel)
  rw [List.append_assoc] at htok
  have hopen : (peek ps [lparen]).1 = true :=
    (peek_iff (by decide)).mpr ⟨_, _, htok, List.mem_singleton.mpr rfl⟩
  rw [← tokens_peek ps [lparen]] at htok
  have hts : tokens _ = ts ++ (.rparen :: us ++ rest) := (gettoken_cons htok).2.2
  obtain ⟨qs, hqs, hline⟩ := h fuel _ _ hts (fun t ht => by
    rw [List.cons_append, List.head?_cons, Option.mem_some_iff] at ht
    simp [← ht, Level.follow]) (by
      rw [hts, Level.need]
      simp only [List.length_append, List.length_cons]
      omega)
  have hclose : (peek qs [rparen]).1 = true :=
    (peek_iff (by decide)).mpr ⟨_, _, hqs, List.mem_singleton.mpr rfl⟩
  rw [← tokens_peek qs [rparen]] at hqs
  obtain ⟨qs', hqs', hredirs⟩ := parseredirs_complete hus rfl c
    (gettoken_cons hqs).2.2 hrest
  refine ⟨qs', hqs', ?_⟩
  rw [parse] at hline
  rw [parse, parseblock]
  simp only [hopen, hclose, hline, hredirs]
  rfl

theorem complete {l : Level} (h : Derives l ts c) : Complete l ts c := by
  induction h with
  | last n _ ih => exact complete_last n ih
  | seq n _ _ ih ih' => exact complete_seq n ih ih'
  | single _ ih => exact complete_single ih
  | pipe _ _ ih ih' => exact complete_pipe ih ih'
  | simple h hws => exact complete_simple h hws
  | block h ih =>
      cases h with
      | paren => exact complete_block ih rfl
  | paren _ hus ih => exact complete_paren ih hus

/-! ### The fuel lasts -/

theorem parseredirs_ne_fuel (cmd : Cmd Word) (ps : List UInt8) :
    parseredirs cmd ps ≠ .error .fuel := by
  fun_induction parseredirs cmd ps with
  | case1 => nofun
  | case2 cmd ps p hp t f hf ih => exact ih
  | case3 => nofun

theorem argsLoop_ne_fuel (ret : Cmd Word) (argc : Nat) (ps : List UInt8) :
    argsLoop ret argc ps ≠ .error .fuel := by
  fun_induction argsLoop ret argc ps with
  | case5 ret argc ps p hp t h0 ht hmax e he =>
      intro h
      rw [Except.error.injEq] at h
      exact parseredirs_ne_fuel _ _ (h ▸ he)
  | case6 ret argc ps p hp t h0 ht hmax ret' ps' hredirs ih => exact ih
  | _ => nofun

/-- The functions of the levels do not run out of so much fuel. -/
def Fueled (fuel : Nat) : Prop :=
  ∀ (l : Level) (ps : List UInt8), 4 * (tokens ps).length + l.need ≤ fuel →
    parse l fuel ps ≠ .error .fuel

theorem parseline_ne_fuel (hf : Fueled fuel) (h : 4 * (tokens ps).length + 4 ≤ fuel + 1) :
    parseline (fuel + 1) ps ≠ .error .fuel := by
  intro herr
  rw [parseline] at herr
  split at herr
  · rename_i e hpipe
    cases herr
    exact hf .pipe _ (by rw [Level.need]; omega) hpipe
  rename_i cmd qs hpipe
  obtain ⟨ts, -, htok⟩ := sound fuel .pipe _ _ _ hpipe
  obtain ⟨n, -, hamp, -⟩ := backLoop_spec cmd qs
  simp only at herr
  split at herr
  · rename_i hsemi
    have hrest := gettoken_peek .semicolon hsemi (by decide) rfl
    split at herr
    · rename_i e hline
      cases herr
      refine hf .line _ ?_ hline
      simp only [htok, hamp, hrest, List.length_append, List.length_cons] at h
      rw [Level.need]
      omega
    · cases herr
  · cases herr

theorem parsepipe_ne_fuel (hf : Fueled fuel) (h : 4 * (tokens ps).length + 3 ≤ fuel + 1) :
    parsepipe (fuel + 1) ps ≠ .error .fuel := by
  intro herr
  rw [parsepipe] at herr
  split at herr
  · rename_i e hexec
    cases herr
    exact hf .exec _ (by rw [Level.need]; omega) hexec
  rename_i cmd qs hexec
  obtain ⟨ts, -, htok⟩ := sound fuel .exec _ _ _ hexec
  simp only at herr
  split at herr
  · rename_i hbar
    have hrest := gettoken_peek .bar hbar (by decide) rfl
    split at herr
    · rename_i e hpipe
      cases herr
      refine hf .pipe _ ?_ hpipe
      simp only [htok, hrest, List.length_append, List.length_cons] at h
      rw [Level.need]
      omega
    · cases herr
  · cases herr

theorem parseexec_ne_fuel (hf : Fueled fuel) (h : 4 * (tokens ps).length + 2 ≤ fuel + 1) :
    parseexec (fuel + 1) ps ≠ .error .fuel := by
  intro herr
  rw [parseexec] at herr
  split at herr
  · exact hf .block _ (by rw [tokens_peek, Level.need]; omega) herr
  split at herr
  · rename_i e hredirs
    cases herr
    exact parseredirs_ne_fuel _ _ hredirs
  · exact argsLoop_ne_fuel _ _ _ herr

theorem parseblock_ne_fuel (hf : Fueled fuel) (h : 4 * (tokens ps).length + 1 ≤ fuel + 1) :
    parseblock (fuel + 1) ps ≠ .error .fuel := by
  intro herr
  rw [parseblock] at herr
  simp only at herr
  split at herr
  · cases herr
  rename_i hopen
  rw [Bool.not_eq_false] at hopen
  have hrest := gettoken_peek .lparen hopen (by decide) rfl
  split at herr
  · rename_i e hline
    cases herr
    refine hf .line _ ?_ hline
    rw [hrest, List.length_cons] at h
    rw [Level.need]
    omega
  split at herr
  · cases herr
  · exact parseredirs_ne_fuel _ _ herr

theorem fueled (fuel : Nat) : Fueled fuel := by
  induction fuel with
  | zero =>
      intro l ps h
      cases l <;> cases h
  | succ fuel ih =>
      intro l ps h
      cases l with
      | line => exact parseline_ne_fuel ih h
      | pipe => exact parsepipe_ne_fuel ih h
      | exec => exact parseexec_ne_fuel ih h
      | block => exact parseblock_ne_fuel ih h

theorem enough_fuel (s : List UInt8) :
    4 * (tokens s).length + Level.line.need ≤ 4 * s.length + 4 := by
  have hlen := length_tokens_le s
  rw [Level.need]
  omega

theorem parsecmd_ne_fuel (s : List UInt8) : parsecmd s ≠ .error .fuel := by
  rw [parsecmd]
  split
  · rename_i e he
    intro h
    rw [Except.error.injEq] at h
    exact fueled _ .line s (enough_fuel s) (h ▸ he)
  · split_ifs <;> exact fun h => by cases h

theorem parsecmd_ok_iff {s : List UInt8} : parsecmd s = .ok c ↔ Derives .line (tokens s) c := by
  have hleft : ∀ ps : List UInt8, (peek ps []).2 = [] ↔ tokens ps = [] :=
    fun ps => tokens_eq_nil.symm
  constructor
  · intro h
    rw [parsecmd] at h
    split at h
    · cases h
    rename_i cmd ps hline
    split_ifs at h with hps
    cases h
    obtain ⟨ts, hts, htok⟩ := sound (4 * s.length + 4) .line _ _ _ hline
    rw [(hleft ps).mp (not_not.mp hps), List.append_nil] at htok
    exact htok.symm ▸ hts
  · intro h
    obtain ⟨qs, hqs, hline⟩ := complete h _ s [] (List.append_nil _).symm
      (fun _ ht => by cases ht) (enough_fuel s)
    rw [parse] at hline
    rw [parsecmd, hline]
    exact if_neg (not_not.mpr ((hleft qs).mpr hqs))

/-- **The parser decides the grammar**: it returns on every line, and with the tree of the line
if there is one. -/
theorem parsecmd_decides (s : List UInt8) :
    parsecmd s ≠ .error .fuel ∧ ∀ c, parsecmd s = .ok c ↔ Derives .line (tokens s) c :=
  ⟨parsecmd_ne_fuel s, fun _ => parsecmd_ok_iff⟩

end OsCourse.Sh
