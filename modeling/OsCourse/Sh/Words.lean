import OsCourse.Sh.Grammar

/-!
# OsCourse.Sh.Words

The words of a command in the line it was read from. They are given by pointers into the
line, and `nulterminate` ends each of them in place, over the character behind it: over a
blank, over an operator that has been read, or over the NUL of the line.

No word loses a character to the end of another: after `parsecmd` each of them is a C
string, and it is the text it was in the line (`nulterminate_words`).
-/

namespace OsCourse.Sh

/-- The characters of a word: from `q` up to `eq`. -/
def Word.text (w : Word) : List UInt8 := w.q.take (w.q.length - w.eq.length)

/-- The words of a command. -/
def Cmd.words {W : Type} : Cmd W → List W
  | .exec argv => argv
  | .redir cmd file _ _ => cmd.words ++ [file]
  | .pipe left right => left.words ++ right.words
  | .list left right => left.words ++ right.words
  | .back cmd => cmd.words

/-! ### The words of the grammar -/

section Grammar

variable {W : Type}

theorem Redirection.word_mem {us : List (Tok W)} {r : Redir W} (h : Redirection us r) :
    .word r.file ∈ us := by
  cases h <;> simp

theorem Simple.word_mem {ts : List (Tok W)} {ws : List W} {rs : List (Redir W)}
    (h : Simple ts ws rs) :
    (∀ w ∈ ws, .word w ∈ ts) ∧ ∀ r ∈ rs, .word r.file ∈ ts := by
  induction h with
  | nil => simp
  | word w _ ih =>
      constructor
      · intro v hv
        rcases List.mem_cons.mp hv with rfl | hv
        · exact List.mem_cons_self
        · exact List.mem_cons_of_mem _ (ih.1 v hv)
      · exact fun r hr => List.mem_cons_of_mem _ (ih.2 r hr)
  | redir hr _ ih =>
      constructor
      · exact fun v hv => List.mem_append_right _ (ih.1 v hv)
      · intro r' hr'
        rcases List.mem_cons.mp hr' with rfl | hr'
        · exact List.mem_append_left _ hr.word_mem
        · exact List.mem_append_right _ (ih.2 r' hr')

theorem words_wrap (cmd : Cmd W) (rs : List (Redir W)) :
    (wrap cmd rs).words = cmd.words ++ rs.map Redir.file := by
  induction rs generalizing cmd with
  | nil => simp [wrap]
  | cons r rs ih =>
      have hwrap : wrap cmd (r :: rs) = wrap (.redir cmd r.file r.mode r.fd) rs := rfl
      rw [hwrap, ih, Cmd.words, List.append_assoc]
      rfl

theorem words_back (n : Nat) (cmd : Cmd W) : (Cmd.back^[n] cmd).words = cmd.words := by
  induction n generalizing cmd with
  | zero => rfl
  | succ n ih => exact ih _

/-- The words of the tree are words of the line. -/
theorem Derives.word_mem {l : Level} {ts : List (Tok W)} {c : Cmd W} (h : Derives l ts c) :
    ∀ w ∈ c.words, .word w ∈ ts := by
  induction h with
  | last n _ ih =>
      rw [words_back]
      exact fun w hw => List.mem_append_left _ (ih w hw)
  | seq n _ _ ih ih' =>
      intro w hw
      rw [Cmd.words, words_back] at hw
      rcases List.mem_append.mp hw with hw | hw
      · simp [ih w hw]
      · simp [ih' w hw]
  | single _ ih => exact ih
  | pipe _ _ ih ih' =>
      intro w hw
      rw [Cmd.words] at hw
      rcases List.mem_append.mp hw with hw | hw
      · simp [ih w hw]
      · simp [ih' w hw]
  | simple h _ =>
      intro w hw
      rw [words_wrap, Cmd.words] at hw
      rcases List.mem_append.mp hw with hw | hw
      · exact h.word_mem.1 w hw
      · obtain ⟨r, hr, rfl⟩ := List.mem_map.mp hw
        exact h.word_mem.2 r hr
  | block _ ih => exact ih
  | paren _ hus ih =>
      intro w hw
      rw [words_wrap] at hw
      rcases List.mem_append.mp hw with hw | hw
      · simp [ih w hw]
      · obtain ⟨r, hr, rfl⟩ := List.mem_map.mp hw
        simp [hus.word_mem.2 r hr]

end Grammar

/-! ### The words of the line -/

/-- The word stands in the line, has a character, and goes as far as it can. -/
structure Word.Cut (w : Word) (s : List UInt8) : Prop where
  suffix : w.q <:+ s
  split : w.q = w.text ++ w.eq
  ne_nil : w.text ≠ []
  wordChar_text : ∀ c ∈ w.text, wordChar c = true
  wordChar_eq : ∀ c ∈ w.eq.head?, ¬wordChar c = true

theorem Word.Cut.mono {w : Word} {s t : List UInt8} (h : w.Cut s) (hsuffix : s <:+ t) :
    w.Cut t := { h with suffix := h.suffix.trans hsuffix }

theorem skip_suffix (s : List UInt8) : skip s <:+ s := List.dropWhile_suffix _

theorem Word.text_eq {w : Word} {x : List UInt8} (h : w.q = x ++ w.eq) : w.text = x := by
  rw [Word.text, h, List.length_append, Nat.add_sub_cancel, List.take_left]

/-- A word is the longest run of word characters from where it starts. -/
theorem cut_dropWhile {c : UInt8} (s : List UInt8) (hc : wordChar c = true) :
    Word.Cut ⟨c :: s, (c :: s).dropWhile wordChar⟩ (c :: s) := by
  have htext := Word.text_eq (w := ⟨c :: s, (c :: s).dropWhile wordChar⟩)
    (List.takeWhile_append_dropWhile (p := wordChar)).symm
  refine ⟨List.suffix_rfl, ?_, ?_, ?_, ?_⟩
  · rw [htext]
    exact (List.takeWhile_append_dropWhile).symm
  · rw [htext, List.takeWhile_cons_of_pos hc]
    exact List.cons_ne_nil _ _
  · rw [htext]
    exact fun c hc => List.mem_takeWhile_imp hc
  · intro d hd
    have := List.head?_dropWhile_not wordChar (c :: s)
    rw [Option.mem_def.mp hd] at this
    simpa using this

/-- `gettoken` cuts its word where `skip` has come to. -/
theorem gettoken_cut {ps : List UInt8} {w : Word} (h : (gettoken ps).token = .word w)
    (hne : skip ps ≠ []) : w.Cut (skip ps) := by
  obtain ⟨c, s, hs⟩ := List.exists_cons_of_ne_nil hne
  have hcode := (scan_token hs).1
  rw [h, gettoken, hs] at hcode
  rw [gettoken_word h, gettoken, hs]
  simp only at hcode ⊢
  rw [scan] at hcode ⊢
  split_ifs at hcode ⊢ with hc hgt happ
  · have hword : c = aWord := hcode
    exact absurd (hword ▸ hc) (by decide)
  · cases hcode
  · have hword : c = aWord := hcode
    exact absurd (hgt.symm.trans hword) (by decide)
  · exact cut_dropWhile s (wordChar_of_switch (notMem_whitespace hs) hc hgt)

theorem gettoken_suffix (ps : List UInt8) : (gettoken ps).ps <:+ ps := by
  rw [gettoken]
  refine (skip_suffix _).trans ?_
  cases hs : skip ps with
  | nil => exact List.nil_suffix
  | cons c s => exact (scan_suffix hs).trans ((List.suffix_cons c s).trans (hs ▸ skip_suffix ps))

theorem tokens_cut {ps : List UInt8} {w : Word} (h : .word w ∈ tokens ps) : w.Cut ps := by
  fun_induction tokens ps with
  | case1 => cases h
  | case2 ps hne ih =>
      rcases List.mem_cons.mp h with heq | h
      · exact (gettoken_cut heq.symm hne).mono (skip_suffix ps)
      · exact (ih h).mono (gettoken_suffix ps)

/-- The words of a command that was parsed are words of its line. -/
theorem words_cut {s : List UInt8} {c : Cmd Word} (h : parsecmd s = .ok c) :
    ∀ w ∈ c.words, w.Cut s :=
  fun w hw => tokens_cut ((parsecmd_ok_iff.mp h).word_mem w hw)

/-! ### `nulterminate` -/

/-- The C string at a pointer into the line, in a buffer that has the line. -/
def cstring (buf q : List UInt8) : List UInt8 :=
  (buf.drop (buf.length - 1 - q.length)).takeWhile (· ≠ 0)

theorem nulterminate_eq (c : Cmd Word) (buf : List UInt8) :
    nulterminate c buf = c.words.foldl terminateWord buf := by
  induction c generalizing buf with
  | exec argv => rfl
  | redir cmd file mode fd ih => rw [nulterminate, ih, Cmd.words, List.foldl_append]; rfl
  | pipe left right ihl ihr => rw [nulterminate, ihl, ihr, Cmd.words, List.foldl_append]
  | list left right ihl ihr => rw [nulterminate, ihl, ihr, Cmd.words, List.foldl_append]
  | back cmd ih => exact ih buf

theorem length_terminate (ws : List Word) (buf : List UInt8) :
    (ws.foldl terminateWord buf).length = buf.length := by
  induction ws generalizing buf with
  | nil => rfl
  | cons w ws ih => rw [List.foldl_cons, ih, terminateWord, List.length_set]

/-- Only the characters behind the words become NUL. -/
theorem getElem?_terminate (ws : List Word) (buf : List UInt8) (i : Nat) (hi : i < buf.length) :
    (ws.foldl terminateWord buf)[i]? =
      if ∃ w ∈ ws, i = buf.length - 1 - w.eq.length then some 0 else buf[i]? := by
  induction ws generalizing buf with
  | nil => simp
  | cons w ws ih =>
      have hlen : (terminateWord buf w).length = buf.length := List.length_set
      rw [List.foldl_cons, ih _ (by rwa [hlen]), hlen]
      simp only [List.mem_cons, exists_eq_or_imp]
      rw [terminateWord, List.getElem?_set]
      split_ifs <;> grind

/-- A pointer into the line, and what it points to. -/
theorem getElem?_suffix {s q : List UInt8} (h : q <:+ s) (i : Nat) :
    s[s.length - q.length + i]? = q[i]? := by
  obtain ⟨x, rfl⟩ := h
  rw [List.length_append, Nat.add_sub_cancel, List.getElem?_append_right (Nat.le_add_right _ _),
    Nat.add_sub_cancel_left]

theorem Word.Cut.eq_suffix {w : Word} {s : List UInt8} (h : w.Cut s) : w.eq <:+ s :=
  (List.suffix_append _ _).trans (h.split ▸ h.suffix)

/-- With a NUL behind each of the words of a line, a word keeps its characters. -/
theorem prefix_terminate {s : List UInt8} {ws : List Word} (hcut : ∀ w ∈ ws, w.Cut s) {w : Word}
    (hw : w ∈ ws) :
    w.text ++ [0] <+: (ws.foldl terminateWord (s ++ [0])).drop (s.length - w.q.length) := by
  have hlen := congrArg List.length (hcut w hw).split
  have hle := (hcut w hw).suffix.length_le
  rw [List.length_append] at hlen
  rw [List.prefix_iff_getElem?]
  intro i hi
  rw [List.length_append, List.length_singleton] at hi
  have hbuf : s.length - w.q.length + i < (s ++ [0]).length := by
    rw [List.length_append, List.length_singleton]
    omega
  rw [List.getElem?_drop, getElem?_terminate _ _ _ hbuf]
  simp only [List.length_append, List.length_singleton, Nat.add_sub_cancel]
  rcases Nat.lt_succ_iff_lt_or_eq.mp hi with hlt | rfl
  · -- behind a word stands no character of a word, so that no word ends here
    have hchar : s[s.length - w.q.length + i]? = some w.text[i] := by
      rw [getElem?_suffix (hcut w hw).suffix]
      conv_lhs => rw [(hcut w hw).split]
      rw [List.getElem?_append_left hlt, List.getElem?_eq_getElem hlt]
    rw [if_neg, List.getElem?_append_left (by omega), hchar, List.getElem_append_left hlt]
    rintro ⟨v, hv, hpos⟩
    have hhead := getElem?_suffix (hcut v hv).eq_suffix 0
    rw [Nat.add_zero, ← hpos, hchar, ← List.head?_eq_getElem?] at hhead
    exact (hcut v hv).wordChar_eq _ hhead.symm
      ((hcut w hw).wordChar_text _ (List.getElem_mem hlt))
  · rw [if_pos ⟨w, hw, by omega⟩, List.getElem_append_right (Nat.le_refl _)]
    simp

/-- **The words end where they did in the line**: when `parsecmd` returns, each of them is a C
string, without the NULs of the others in it. -/
theorem nulterminate_words {s : List UInt8} {c : Cmd Word} (h0 : 0 ∉ s)
    (h : parsecmd s = .ok c) :
    ∀ w ∈ c.words, w.Cut s ∧ cstring (nulterminate c (s ++ [0])) w.q = w.text := by
  intro w hw
  have hcut := words_cut h w hw
  have htext : 0 ∉ w.text := fun hmem =>
    h0 (hcut.suffix.subset (hcut.split ▸ List.mem_append_left _ hmem))
  obtain ⟨rest, hrest⟩ := prefix_terminate (words_cut h) hw
  rw [cstring, nulterminate_eq, length_terminate, List.length_append, List.length_singleton,
    Nat.add_sub_cancel, ← hrest, List.append_assoc, List.takeWhile_append_of_pos]
  · exact ⟨hcut, by simp⟩
  · intro d hd
    rw [decide_eq_true_eq]
    rintro rfl
    exact htext hd

/-- `a<b` -/
theorem parsecmd_input :
    parsecmd [97, 60, 98] = .ok (.redir (.exec [⟨[97, 60, 98], [60, 98]⟩]) ⟨[98], []⟩ 0 0) := by
  have htokens : tokens [97, 60, 98] =
      [.word ⟨[97, 60, 98], [60, 98]⟩, .less, .word ⟨[98], []⟩] := by
    rw [tokens, dif_neg (by decide), tokens, dif_neg (by decide), tokens, dif_neg (by decide),
      tokens, dif_pos (by decide)]
    decide
  rw [parsecmd_ok_iff, htokens]
  exact .last 0 (.single (.simple (.word _ (.redir (.input _) .nil)) (by decide)))

theorem nulterminate_words_input :
    Word.Cut ⟨[98], []⟩ [97, 60, 98] ∧
      cstring (nulterminate (.redir (.exec [⟨[97, 60, 98], [60, 98]⟩]) ⟨[98], []⟩ 0 0)
        ([97, 60, 98] ++ [0])) [98] = Word.text ⟨[98], []⟩ :=
  nulterminate_words (by decide) parsecmd_input _ (by decide)

end OsCourse.Sh
