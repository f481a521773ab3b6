import OsCourse.Sh.Words

/-!
# OsCourse.Sh.Print

The commands that `parsecmd` can return, up to where their words stand: at most nine
words to a simple command, and the two sorts of redirection. Each of these has a line that
it is the tree of (`parsecmd_write`): `Cmd.phrase` writes one, with parentheses around the
parts, and the parser reads it back.
-/

namespace OsCourse.Sh

section Commands

variable {V W : Type}

/-- The command with its words translated. -/
def Cmd.map (f : V → W) : Cmd V → Cmd W
  | .exec argv => .exec (argv.map f)
  | .redir cmd file mode fd => .redir (cmd.map f) (f file) mode fd
  | .pipe left right => .pipe (left.map f) (right.map f)
  | .list left right => .list (left.map f) (right.map f)
  | .back cmd => .back (cmd.map f)

/-- The token with its word translated. -/
def Tok.map (f : V → W) : Tok V → Tok W
  | .bar => .bar
  | .lparen => .lparen
  | .rparen => .rparen
  | .semicolon => .semicolon
  | .ampersand => .ampersand
  | .less => .less
  | .greater => .greater
  | .appends => .appends
  | .word w => .word (f w)

/-- The redirection with its file translated. -/
def Redir.map (f : V → W) (r : Redir V) : Redir W := ⟨f r.file, r.mode, r.fd⟩

/-- What the parser builds. -/
def Cmd.Built : Cmd W → Prop
  | .exec argv => argv.length < MAXARGS
  | .redir cmd _ mode fd =>
      cmd.Built ∧ (mode = O_RDONLY ∧ fd = 0 ∨ mode = O_WRONLY_CREATE ∧ fd = 1)
  | .pipe left right => left.Built ∧ right.Built
  | .list left right => left.Built ∧ right.Built
  | .back cmd => cmd.Built

/-- The tokens of a line with this tree. -/
def Cmd.phrase : Cmd W → List (Tok W)
  | .exec argv => argv.map .word
  | .redir cmd file _ fd =>
      .lparen :: cmd.phrase ++ .rparen :: [if fd = 0 then .less else .greater, .word file]
  | .pipe left right =>
      .lparen :: left.phrase ++ .rparen :: [] ++ .bar :: (.lparen :: right.phrase ++ .rparen :: [])
  | .list left right =>
      .lparen :: left.phrase ++ .rparen :: [] ++ .semicolon ::
        (.lparen :: right.phrase ++ .rparen :: [])
  | .back cmd => .lparen :: cmd.phrase ++ .rparen :: [] ++ [.ampersand]

theorem simple_words (argv : List W) : Simple (argv.map Tok.word) argv [] := by
  induction argv with
  | nil => exact .nil
  | cons w argv ih => exact .word w ih

/-- A line in parentheses is a pipeline. -/
theorem Derives.parens {ts : List (Tok W)} {c : Cmd W} (h : Derives .line ts c) :
    Derives .exec (.lparen :: ts ++ .rparen :: []) c :=
  .block (.paren h .nil)

theorem derives_phrase {c : Cmd W} (h : c.Built) : Derives .line c.phrase c := by
  induction c with
  | exec argv =>
      have hsimple := Derives.simple (simple_words argv) h
      have hline := Derives.last 0 (.single hsimple)
      rwa [List.replicate_zero, List.append_nil] at hline
  | redir cmd file mode fd ih =>
      obtain ⟨hcmd, ⟨rfl, rfl⟩ | ⟨rfl, rfl⟩⟩ := h
      · have hblock := Derives.paren (ih hcmd) (.redir (.input file) .nil)
        have hline := Derives.last 0 (.single (.block hblock))
        rwa [List.replicate_zero, List.append_nil] at hline
      · have hblock := Derives.paren (ih hcmd) (.redir (.output file) .nil)
        have hline := Derives.last 0 (.single (.block hblock))
        rwa [List.replicate_zero, List.append_nil] at hline
  | pipe left right ihl ihr =>
      have hline := Derives.last 0 (.pipe (ihl h.1).parens (.single (ihr h.2).parens))
      rwa [List.replicate_zero, List.append_nil] at hline
  | list left right ihl ihr =>
      have hright := Derives.last 0 (.single (ihr h.2).parens)
      have hline := Derives.seq 0 (.single (ihl h.1).parens) hright
      rwa [List.replicate_zero, List.append_nil, List.append_nil] at hline
  | back cmd ih => exact .last 1 (.single (ih h).parens)

/-- What is in the grammar is what the parser builds. -/
theorem Redirection.built {us : List (Tok W)} {r : Redir W} (h : Redirection us r) :
    r.mode = O_RDONLY ∧ r.fd = 0 ∨ r.mode = O_WRONLY_CREATE ∧ r.fd = 1 := by
  cases h <;> simp

theorem Simple.built {ts : List (Tok W)} {ws : List W} {rs : List (Redir W)}
    (h : Simple ts ws rs) {cmd : Cmd W} (hcmd : cmd.Built) : (wrap cmd rs).Built := by
  induction h generalizing cmd with
  | nil => exact hcmd
  | word _ _ ih => exact ih hcmd
  | redir hr _ ih => exact ih ⟨hcmd, hr.built⟩

theorem built_back (n : Nat) (cmd : Cmd W) (h : cmd.Built) : (Cmd.back^[n] cmd).Built := by
  induction n generalizing cmd with
  | zero => exact h
  | succ n ih => exact ih (.back cmd) h

theorem Derives.built {l : Level} {ts : List (Tok W)} {c : Cmd W} (h : Derives l ts c) :
    c.Built := by
  induction h with
  | last n _ ih => exact built_back n _ ih
  | seq n _ _ ih ih' => exact ⟨built_back n _ ih, ih'⟩
  | single _ ih => exact ih
  | pipe _ _ ih ih' => exact ⟨ih, ih'⟩
  | simple h hws => exact h.built hws
  | block _ ih => exact ih
  | paren _ hus ih => exact hus.built ih

theorem built_map (f : V → W) (c : Cmd V) : (c.map f).Built ↔ c.Built := by
  induction c with
  | exec argv => rw [Cmd.map, Cmd.Built, Cmd.Built, List.length_map]
  | redir cmd file mode fd ih => rw [Cmd.map, Cmd.Built, Cmd.Built, ih]
  | pipe left right ihl ihr => rw [Cmd.map, Cmd.Built, Cmd.Built, ihl, ihr]
  | list left right ihl ihr => rw [Cmd.map, Cmd.Built, Cmd.Built, ihl, ihr]
  | back cmd ih => exact ih

theorem words_map (f : V → W) (c : Cmd V) : (c.map f).words = c.words.map f := by
  induction c with
  | exec argv => rfl
  | redir cmd file mode fd ih => rw [Cmd.map, Cmd.words, Cmd.words, ih, List.map_append]; rfl
  | pipe left right ihl ihr => rw [Cmd.map, Cmd.words, Cmd.words, ihl, ihr, List.map_append]
  | list left right ihl ihr => rw [Cmd.map, Cmd.words, Cmd.words, ihl, ihr, List.map_append]
  | back cmd ih => exact ih

theorem word_mem_phrase {c : Cmd W} {w : W} (h : .word w ∈ c.phrase) : w ∈ c.words := by
  induction c with
  | exec argv => simpa [Cmd.phrase, Cmd.words] using h
  | redir cmd file mode fd ih =>
      simp only [Cmd.phrase, List.mem_append, List.mem_cons, List.not_mem_nil, or_false] at h
      rw [Cmd.words, List.mem_append, List.mem_singleton]
      rcases h with (h | h) | h | h | h
      · cases h
      · exact .inl (ih h)
      · cases h
      · split_ifs at h
      · exact .inr (Tok.word.inj h)
  | pipe left right ihl ihr =>
      simp only [Cmd.phrase, List.mem_append, List.mem_cons, List.not_mem_nil, or_false,
        reduceCtorEq, false_or] at h
      exact List.mem_append.mpr (h.imp ihl ihr)
  | list left right ihl ihr =>
      simp only [Cmd.phrase, List.mem_append, List.mem_cons, List.not_mem_nil, or_false,
        reduceCtorEq, false_or] at h
      exact List.mem_append.mpr (h.imp ihl ihr)
  | back cmd ih =>
      simp only [Cmd.phrase, List.mem_append, List.mem_cons, List.not_mem_nil, or_false,
        reduceCtorEq, false_or] at h
      exact ih h

/-! ### Lines that differ in their words -/

variable {f : V → W}

theorem Redirection.lift {us : List (Tok V)} {r : Redir W}
    (h : Redirection (us.map (Tok.map f)) r) : ∃ r', Redirection us r' ∧ r'.map f = r := by
  generalize hts : us.map (Tok.map f) = ts at h
  cases h with
  | input w =>
      obtain ⟨o, us, rfl, ho, hus⟩ := List.map_eq_cons_iff.mp hts
      obtain ⟨v, us, rfl, hv, hus⟩ := List.map_eq_cons_iff.mp hus
      obtain rfl := List.map_eq_nil_iff.mp hus
      cases o <;> cases ho
      cases v <;> cases hv
      exact ⟨_, .input _, rfl⟩
  | output w =>
      obtain ⟨o, us, rfl, ho, hus⟩ := List.map_eq_cons_iff.mp hts
      obtain ⟨v, us, rfl, hv, hus⟩ := List.map_eq_cons_iff.mp hus
      obtain rfl := List.map_eq_nil_iff.mp hus
      cases o <;> cases ho
      cases v <;> cases hv
      exact ⟨_, .output _, rfl⟩
  | append w =>
      obtain ⟨o, us, rfl, ho, hus⟩ := List.map_eq_cons_iff.mp hts
      obtain ⟨v, us, rfl, hv, hus⟩ := List.map_eq_cons_iff.mp hus
      obtain rfl := List.map_eq_nil_iff.mp hus
      cases o <;> cases ho
      cases v <;> cases hv
      exact ⟨_, .append _, rfl⟩

theorem Simple.lift {ts : List (Tok W)} {ws : List W} {rs : List (Redir W)}
    (h : Simple ts ws rs) {us : List (Tok V)} (hus : us.map (Tok.map f) = ts) :
    ∃ ws' rs', Simple us ws' rs' ∧ ws'.map f = ws ∧ rs'.map (Redir.map f) = rs := by
  induction h generalizing us with
  | nil =>
      obtain rfl := List.map_eq_nil_iff.mp hus
      exact ⟨[], [], .nil, rfl, rfl⟩
  | word w _ ih =>
      obtain ⟨v, us, rfl, hv, hus⟩ := List.map_eq_cons_iff.mp hus
      obtain ⟨ws', rs', hsimple, rfl, rfl⟩ := ih hus
      cases v <;> cases hv
      exact ⟨_, rs', .word _ hsimple, rfl, rfl⟩
  | redir hr _ ih =>
      obtain ⟨us, vs, rfl, rfl, hvs⟩ := List.map_eq_append_iff.mp hus
      obtain ⟨r', hr', rfl⟩ := hr.lift
      obtain ⟨ws', rs', hsimple, rfl, rfl⟩ := ih hvs
      exact ⟨ws', _, .redir hr' hsimple, rfl, rfl⟩

theorem map_wrap (cmd : Cmd V) (rs : List (Redir V)) :
    (wrap cmd rs).map f = wrap (cmd.map f) (rs.map (Redir.map f)) := by
  induction rs generalizing cmd with
  | nil => rfl
  | cons r rs ih => exact ih _

theorem map_back (n : Nat) (cmd : Cmd V) :
    (Cmd.back^[n] cmd).map f = Cmd.back^[n] (cmd.map f) := by
  induction n generalizing cmd with
  | zero => rfl
  | succ n ih => exact ih _

theorem map_replicate {us : List (Tok V)} {n : Nat}
    (h : us.map (Tok.map f) = List.replicate n .ampersand) :
    us = List.replicate n .ampersand := by
  have hlen := congrArg List.length h
  rw [List.length_map, List.length_replicate] at hlen
  refine List.eq_replicate_iff.mpr ⟨hlen, fun u hu => ?_⟩
  have hmem := List.mem_map_of_mem (f := Tok.map f) hu
  rw [h] at hmem
  have hmap := List.eq_of_mem_replicate hmem
  cases u <;> cases hmap
  rfl

/-- A line has its tree whatever its words are. -/
theorem Derives.lift {l : Level} {ts : List (Tok W)} {c : Cmd W} (h : Derives l ts c)
    {us : List (Tok V)} (hus : us.map (Tok.map f) = ts) :
    ∃ d, Derives l us d ∧ d.map f = c := by
  induction h generalizing us with
  | last n _ ih =>
      obtain ⟨us, vs, rfl, hus, hvs⟩ := List.map_eq_append_iff.mp hus
      obtain ⟨d, hd, rfl⟩ := ih hus
      rw [map_replicate hvs]
      exact ⟨_, .last n hd, map_back n d⟩
  | seq n _ _ ih ih' =>
      obtain ⟨us₁, vs, rfl, hus₁, hvs⟩ := List.map_eq_append_iff.mp hus
      obtain ⟨us₂, us', rfl, hus₂, hus'⟩ := List.map_eq_append_iff.mp hus₁
      obtain ⟨v, vs₁, rfl, hv, hvs₁⟩ := List.map_eq_cons_iff.mp hvs
      obtain ⟨d, hd, rfl⟩ := ih hus₂
      obtain ⟨e, he, rfl⟩ := ih' hvs₁
      cases v <;> cases hv
      rw [map_replicate hus']
      exact ⟨_, .seq n hd he, congrArg (Cmd.list · _) (map_back n d)⟩
  | single _ ih =>
      obtain ⟨d, hd, hmap⟩ := ih hus
      exact ⟨d, .single hd, hmap⟩
  | pipe _ _ ih ih' =>
      obtain ⟨us₁, vs, rfl, hus₁, hvs⟩ := List.map_eq_append_iff.mp hus
      obtain ⟨v, vs₁, rfl, hv, hvs₁⟩ := List.map_eq_cons_iff.mp hvs
      obtain ⟨d, hd, rfl⟩ := ih hus₁
      obtain ⟨e, he, rfl⟩ := ih' hvs₁
      cases v <;> cases hv
      exact ⟨_, .pipe hd he, rfl⟩
  | simple h hws =>
      obtain ⟨ws', rs', hsimple, rfl, rfl⟩ := h.lift hus
      rw [List.length_map] at hws
      exact ⟨_, .simple hsimple hws, map_wrap _ _⟩
  | block _ ih =>
      obtain ⟨d, hd, hmap⟩ := ih hus
      exact ⟨d, .block hd, hmap⟩
  | paren _ hredirs ih =>
      obtain ⟨us₁, vs, rfl, hus₁, hvs⟩ := List.map_eq_append_iff.mp hus
      obtain ⟨u, us₂, rfl, hu, hus₂⟩ := List.map_eq_cons_iff.mp hus₁
      obtain ⟨v, vs₁, rfl, hv, hvs₁⟩ := List.map_eq_cons_iff.mp hvs
      obtain ⟨d, hd, rfl⟩ := ih hus₂
      obtain ⟨ws', rs', hsimple, hws', rfl⟩ := hredirs.lift hvs₁
      obtain rfl := List.map_eq_nil_iff.mp hws'
      cases u <;> cases hu
      cases v <;> cases hv
      exact ⟨_, .paren hd hsimple, map_wrap _ _⟩

end Commands

/-! ### Writing a line -/

/-- The characters of a token. -/
def Tok.chars : Tok (List UInt8) → List UInt8
  | .appends => [Sh.greater, Sh.greater]
  | .word w => w
  | t => [t.code]

/-- The line: a blank behind each token. -/
def write (ts : List (Tok (List UInt8))) : List UInt8 := ts.flatMap fun t => t.chars ++ [32]

/-- What a word can be. -/
def IsWord (w : List UInt8) : Prop := w ≠ [] ∧ ∀ c ∈ w, wordChar c = true ∧ c ≠ 0

theorem wordChar_iff {c : UInt8} : wordChar c = true ↔ c ∉ whitespace ∧ c ∉ symbols := by
  rw [wordChar, Bool.and_eq_true, decide_eq_true_eq, decide_eq_true_eq]

/-- Where a token has been written, `gettoken` gets it. -/
theorem skip_scan_chars {t : Tok (List UInt8)} (ht : ∀ w, t = .word w → IsWord w)
    (s : List UInt8) : skip (t.chars ++ 32 :: s) = t.chars ++ 32 :: s ∧
      scan (t.chars ++ 32 :: s) = (t.code, 32 :: s) := by
  cases t with
  | word w =>
      obtain ⟨hne, hchars⟩ := ht w rfl
      obtain ⟨c, w, rfl⟩ := List.exists_cons_of_ne_nil hne
      obtain ⟨hblank, hsym⟩ := wordChar_iff.mp (hchars c List.mem_cons_self).1
      have hc : c ∉ [bar, lparen, rparen, semicolon, ampersand, less] := fun hc =>
        hsym ((by decide : [bar, lparen, rparen, semicolon, ampersand, less] ⊆ symbols) hc)
      have hgt : c ≠ greater := by
        rintro rfl
        exact absurd hsym (by decide)
      have hrun : (c :: w ++ 32 :: s).dropWhile wordChar = 32 :: s := by
        rw [List.dropWhile_append_of_pos fun d hd => (hchars d hd).1]
        rfl
      refine ⟨List.dropWhile_cons_of_neg (by simpa using hblank), ?_⟩
      rw [Tok.chars, List.cons_append, scan, if_neg hc, if_neg hgt, ← List.cons_append, hrun]
      rfl
  | _ => exact ⟨rfl, rfl⟩

/-- The tokens of a line that has been written. -/
theorem tokens_write {ts : List (Tok (List UInt8))} (hts : ∀ w, .word w ∈ ts → IsWord w) :
    (tokens (write ts)).map (Tok.map Word.text) = ts := by
  induction ts with
  | nil =>
      rw [write, List.flatMap_nil, tokens_eq_nil.mpr rfl]
      rfl
  | cons t ts ih =>
      have hwrite : write (t :: ts) = t.chars ++ 32 :: write ts := by simp [write]
      obtain ⟨hskip, hscan⟩ := skip_scan_chars (t := t)
        (fun w hw => hts w (hw ▸ List.mem_cons_self)) (write ts)
      have hgot : gettoken (t.chars ++ 32 :: write ts) =
          ⟨t.code, t.chars ++ 32 :: write ts, 32 :: write ts, skip (32 :: write ts)⟩ := by
        rw [gettoken, hskip, hscan]
      have hblank : skip (32 :: write ts) = skip (write ts) := rfl
      have hne : skip (t.chars ++ 32 :: write ts) ≠ [] := by
        rw [hskip]
        simp
      have hrest : tokens (skip (write ts)) = tokens (write ts) := tokens_peek (write ts) []
      rw [hwrite, tokens, dif_neg hne, hgot, hblank, List.map_cons, hrest,
        ih fun w hw => hts w (List.mem_cons_of_mem _ hw)]
      congr 1
      cases t with
      | word w => exact congrArg Tok.word (Word.text_eq rfl)
      | _ => rfl

theorem write_ne_zero {ts : List (Tok (List UInt8))} (hts : ∀ w, .word w ∈ ts → IsWord w) :
    0 ∉ write ts := by
  intro h
  obtain ⟨t, ht, hmem⟩ := List.mem_flatMap.mp h
  rw [List.mem_append, List.mem_singleton] at hmem
  rcases hmem with hmem | hmem
  · cases t with
    | word w => exact ((hts w ht).2 0 hmem).2 rfl
    | _ => exact absurd hmem (by decide)
  · cases hmem

/-- What the parser builds, of words that it can cut. -/
def Cmd.Writable (c : Cmd (List UInt8)) : Prop := c.Built ∧ ∀ w ∈ c.words, IsWord w

/-- **What the parser builds can be written, and what can be written is read back**: the tree
of a line has such words and parts, and a tree that has is the one of the line that `phrase`
writes. -/
theorem parsecmd_write :
    (∀ s t, 0 ∉ s → parsecmd s = .ok t → (t.map Word.text).Writable) ∧
      ∀ c : Cmd (List UInt8), c.Writable → 0 ∉ write c.phrase ∧
        ∃ t, parsecmd (write c.phrase) = .ok t ∧ t.map Word.text = c := by
  constructor
  · intro s t h0 hparse
    refine ⟨(built_map _ t).mpr (parsecmd_ok_iff.mp hparse).built, fun w hw => ?_⟩
    rw [words_map] at hw
    obtain ⟨v, hv, rfl⟩ := List.mem_map.mp hw
    have hcut := words_cut hparse v hv
    refine ⟨hcut.ne_nil, fun d hd => ⟨hcut.wordChar_text d hd, ?_⟩⟩
    rintro rfl
    exact h0 (hcut.suffix.subset (hcut.split ▸ List.mem_append_left _ hd))
  · rintro c ⟨hbuilt, hwords⟩
    have hvalid : ∀ w, .word w ∈ c.phrase → IsWord w := fun w hw => hwords w (word_mem_phrase hw)
    obtain ⟨t, ht, hmap⟩ := (derives_phrase hbuilt).lift (tokens_write hvalid)
    exact ⟨write_ne_zero hvalid, t, parsecmd_ok_iff.mpr ht, hmap⟩

end OsCourse.Sh
