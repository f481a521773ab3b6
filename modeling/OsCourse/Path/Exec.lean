import OsCourse.Path.Lookup

/-!
# OsCourse.Path.Exec

The search of `exec` through the directories of `PATH`. For an entry `dir` it looks
up `joined dir c`: the entry, a `'/'` if the entry does *not start* with one, and
the command name. `Joins dir c` is what makes this name mean `c` in `dir`.
-/

namespace OsCourse.Path

open Lib

/-- The name that is looked up for the entry `dir`. -/
def joined (dir c : List UInt8) : List UInt8 :=
  if dir.head? = some slash then dir ++ c else dir ++ slash :: c

/-- An absolute entry ends with a `'/'`, or the command name starts with one. -/
def Joins (dir c : List UInt8) : Prop :=
  dir.head? = some slash → dir.getLast? = some slash ∨ c = [] ∨ c.head? = some slash

instance (dir c : List UInt8) : Decidable (Joins dir c) :=
  inferInstanceAs (Decidable (_ → _))

/-! ### The name in `pathBuff` -/

/-- The array holds the text `l`, and NULs after it. -/
def Padded {N : Nat} (b : CBuf N) (l : List UInt8) : Prop :=
  ∀ m, m < N → b[m]? = some ((l[m]?).getD 0)

theorem padded_zeros (N : Nat) : Padded (CBuf.zeros N) [] := by
  intro m hm
  rw [CBuf.getElem?_zeros, if_pos hm]
  rfl

/-- A character behind the text. -/
theorem Padded.set {N : Nat} {b : CBuf N} {l : List UInt8} (h : Padded b l) (hl : l.length < N)
    (c : UInt8) : Padded (b.set l.length c) (l ++ [c]) := by
  intro m hm
  rw [CBuf.getElem?_set b hl]
  by_cases hlast : m = l.length
  · rw [if_pos hlast, hlast, List.getElem?_concat_length, Option.getD_some]
  · rw [if_neg hlast, h m hm]
    by_cases hin : m < l.length
    · rw [List.getElem?_append_left hin]
    · rw [List.getElem?_eq_none (by omega), List.getElem?_eq_none (by simp; omega)]

/-- `copyText` appends to the text. -/
theorem Padded.copyText {N : Nat} {b : CBuf N} {l : List UInt8} (h : Padded b l) (l' : List UInt8)
    (hlen : l.length + l'.length ≤ N) :
    ∃ b', Path.copyText b l.length l' = some b' ∧ Padded b' (l ++ l') := by
  induction l' generalizing b l with
  | nil =>
      rw [List.append_nil]
      exact ⟨b, rfl, h⟩
  | cons c l' ih =>
      rw [List.length_cons] at hlen
      have hl : l.length < N := by omega
      obtain ⟨b', hcopy, hpadded⟩ := ih (h.set hl c) (by rw [List.length_append]; simp; omega)
      rw [List.append_assoc, List.singleton_append] at hpadded
      rw [List.length_append, List.length_singleton] at hcopy
      refine ⟨b', ?_, hpadded⟩
      rw [Path.copyText, CBuf.write_natCast b hl]
      exact hcopy

theorem Padded.cstring {N : Nat} {b : CBuf N} {l : List UInt8} (h : Padded b l)
    (hl : l.length < N) (hzero : 0 ∉ l) : b.cstring = some l := by
  refine CBuf.cstring_spec hzero fun k c hk => ?_
  rw [Nat.zero_add, h k ?_]
  · by_cases hin : k < l.length
    · rw [List.getElem?_append_left hin] at hk
      rw [hk, Option.getD_some]
    · have hlast : k = l.length := by
        have hlt := (List.getElem?_eq_some_iff.mp hk).1
        rw [List.length_append, List.length_singleton] at hlt
        omega
      rw [hlast, List.getElem?_concat_length] at hk
      rw [hlast, List.getElem?_eq_none (Nat.le_refl _), Option.getD_none, ← hk]
  · have hlt := (List.getElem?_eq_some_iff.mp hk).1
    rw [List.length_append, List.length_singleton] at hlt
    omega

theorem zero_not_mem_cstring {N : Nat} {b : CBuf N} {l : List UInt8} (h : b.cstring = some l) :
    0 ∉ l := by
  unfold CBuf.cstring at h
  split at h
  · obtain rfl := Option.some.inj h
    intro hmem
    simpa using List.mem_takeWhile_imp hmem
  · cases h

/-- `exec` puts `joined dir c` together. -/
theorem joinPath_spec {entry : CBuf 128} {dir c : List UInt8} (hentry : entry.cstring = some dir)
    (hne : dir ≠ []) (hc : 0 ∉ c) (hlen : dir.length + c.length + 1 < 256) :
    ∃ b, joinPath entry c = some b ∧ b.cstring = some (joined dir c) := by
  have hdir := zero_not_mem_cstring hentry
  obtain ⟨b₁, hcopy, hpadded⟩ := (padded_zeros 256).copyText dir (by rw [List.length_nil]; omega)
  rw [List.length_nil] at hcopy
  rw [List.nil_append] at hpadded
  have hfirst : CBuf.read b₁ 0 = some (dir.head hne) := by
    have hcell := hpadded 0 (by omega)
    rw [← List.head?_eq_getElem?, List.head?_eq_some_head hne, Option.getD_some] at hcell
    exact (CBuf.read_natCast b₁ 0).trans hcell
  simp only [joinPath, hentry, hcopy, hfirst, Option.bind_eq_bind, Option.bind_some]
  rw [joined, List.head?_eq_some_head hne]
  by_cases habs : dir.head hne = slash
  · obtain ⟨b₂, hcopy₂, hpadded₂⟩ := hpadded.copyText c (by omega)
    rw [if_neg (not_not.mpr habs), if_pos (by rw [habs])]
    refine ⟨b₂, hcopy₂, hpadded₂.cstring (by rw [List.length_append]; omega) ?_⟩
    exact fun h => (List.mem_append.mp h).elim hdir hc
  · obtain ⟨b₂, hcopy₂, hpadded₂⟩ :=
      hpadded.copyText (slash :: c) (by rw [List.length_cons]; omega)
    rw [if_pos habs, if_neg fun h => habs (Option.some.inj h)]
    refine ⟨b₂, hcopy₂, hpadded₂.cstring ?_ fun h => ?_⟩
    · rw [List.length_append, List.length_cons]
      omega
    · rcases List.mem_append.mp h with h | h
      · exact hdir h
      · exact (List.mem_cons.mp h).elim (by decide) hc

/-! ### The components of the name -/

theorem gap_isSlash {l : List UInt8} : Gap isSlash l ↔ l = [] ∨ l.head? = some slash := by
  cases l <;> simp [Gap, isSlash]

theorem gapEnd_isSlash {l : List UInt8} (hl : l ≠ []) :
    GapEnd isSlash l ↔ l.getLast? = some slash := by
  rw [GapEnd, List.getLast?_eq_some_getLast hl]
  simp [isSlash]

/-- The name means the components of the entry and then those of the command. -/
theorem components_joined {dir : List UInt8} (hdir : dir ≠ []) (c : List UInt8) :
    components (joined dir c) = components dir ++ components c ↔ Joins dir c := by
  unfold joined Joins components
  rw [← List.map_append]
  split_ifs with habs
  · rw [← gapEnd_isSlash hdir, ← gap_isSlash]
    refine ⟨fun h _ => ?_, fun h => by rw [words_append (h habs)]⟩
    by_contra hseam
    obtain ⟨hend, hgap⟩ := not_or.mp hseam
    -- two words have become one
    have hfused := length_words_fused hend hgap
    have hlen := congrArg List.length h
    rw [List.length_map, List.length_map, List.length_append] at hlen
    omega
  · rw [words_append_cons (by decide : isSlash slash = true)]
    exact ⟨fun _ h => absurd h habs, fun _ => rfl⟩

theorem head?_joined {dir : List UInt8} (hdir : dir ≠ []) (c : List UInt8) :
    (joined dir c).head? = dir.head? := by
  unfold joined
  split_ifs
  · rw [List.head?_append_of_ne_nil _ hdir]
  · rw [List.head?_append_of_ne_nil _ hdir]

/-! ### The search -/

variable {ι : Type}

/-- The names that `exec` looks up, in their order. -/
theorem searchLoop_eq (fs : FileSystem ι) {t : Table} {dirs : List (List UInt8)} {c : List UInt8}
    (ht : Stores t dirs) (hne : ∀ dir ∈ dirs, dir ≠ []) (hc : 0 ∉ c)
    (hlen : ∀ dir ∈ dirs, dir.length + c.length + 1 < 256) (n i : Nat) (hn : n + i = dirs.length) :
    searchLoop fs t c n i = some ((dirs.drop i).findSome? fun dir => namei fs (joined dir c)) := by
  induction n generalizing i with
  | zero =>
      rw [List.drop_of_length_le (by omega)]
      rfl
  | succ n ih =>
      have hi : i < dirs.length := by omega
      have hmem := List.getElem_mem hi
      obtain ⟨entry, hentry, hdir⟩ :=
        Option.bind_eq_some_iff.mp (ht.entry i _ (List.getElem?_eq_getElem hi))
      obtain ⟨b, hjoin, htext⟩ := joinPath_spec hdir (hne _ hmem) hc (hlen _ hmem)
      rw [searchLoop, hentry, Option.bind_eq_bind, Option.bind_some, hjoin, Option.bind_eq_bind,
        Option.bind_some, htext, Option.bind_eq_bind, Option.bind_some, ih (i + 1) (by omega),
        List.drop_eq_getElem_cons hi, List.findSome?_cons]
      cases namei fs (joined dirs[i] c) with
      | none => rfl
      | some ip => rfl

theorem search_eq (fs : FileSystem ι) {t : Table} {dirs : List (List UInt8)} {c : List UInt8}
    (ht : Stores t dirs) (hne : ∀ dir ∈ dirs, dir ≠ []) (hc : 0 ∉ c)
    (hlen : ∀ dir ∈ dirs, dir.length + c.length + 1 < 256) :
    search fs t c =
      some ((namei fs c).or (dirs.findSome? fun dir => namei fs (joined dir c))) := by
  unfold search
  cases namei fs c with
  | some ip => rfl
  | none =>
      simp only
      rw [searchLoop_eq fs ht hne hc hlen t.indexPath 0 (by rw [ht.indexPath]; rfl), List.drop_zero]
      rfl

/-- The first inode found, of those the name `c` itself and its components in
the directories `dirs` lead to. -/
def found (fs : FileSystem ι) (dirs : List (List UInt8)) (c : List UInt8) : Option ι :=
  (namei fs c).or
    (dirs.findSome? fun dir => follow fs (start fs dir) (components dir ++ components c))

/-- The name that `exec` puts together for the entry `i`. -/
def nameAt (t : Table) (c : List UInt8) (i : Nat) : Option (List UInt8) :=
  t.PATH[i]?.bind fun entry => (joinPath entry c).bind CBuf.cstring

/-- `exec` comes to the entry `i`: neither `c` itself nor a name put together before
leads to an inode. -/
def LooksUp (fs : FileSystem ι) (t : Table) (c : List UInt8) (i : Nat) : Prop :=
  namei fs c = none ∧ ∀ j < i, ∀ text, nameAt t c j = some text → namei fs text = none

/-- What the search of `exec` for `c` should do, with the directories `dirs` in
`PATH`. -/
structure SearchSound (fs : FileSystem ι) (t : Table) (dirs : List (List UInt8))
    (c : List UInt8) : Prop where
  /-- The inode, or none for -1. -/
  inode : search fs t c = some (found fs dirs c)
  /-- The names looked up have the components of the entry and of `c`. -/
  names : ∀ (i : Nat) dir, dirs[i]? = some dir → LooksUp fs t c i → ∃ text,
    nameAt t c i = some text ∧ components text = components dir ++ components c

/-- The entry `i` is to be looked up: neither `c` itself nor `c` in the directory of an
earlier entry leads to an inode. -/
def Asked (fs : FileSystem ι) (dirs : List (List UInt8)) (c : List UInt8) (i : Nat) : Prop :=
  namei fs c = none ∧
    ∀ dir ∈ dirs.take i, follow fs (start fs dir) (components dir ++ components c) = none

theorem nameAt_eq {t : Table} {dirs : List (List UInt8)} {c dir : List UInt8} (ht : Stores t dirs)
    (hne : ∀ dir ∈ dirs, dir ≠ []) (hc : 0 ∉ c)
    (hlen : ∀ dir ∈ dirs, dir.length + c.length + 1 < 256) {i : Nat} (hi : dirs[i]? = some dir) :
    nameAt t c i = some (joined dir c) := by
  have hmem := List.mem_of_getElem? hi
  obtain ⟨entry, hentry, hdir⟩ := Option.bind_eq_some_iff.mp (ht.entry i dir hi)
  obtain ⟨b, hjoin, htext⟩ := joinPath_spec hdir (hne dir hmem) hc (hlen dir hmem)
  rw [nameAt, hentry, Option.bind_some, hjoin, Option.bind_some, htext]

/-- A name that joins well leads where it should. -/
theorem namei_joined (fs : FileSystem ι) {dir c : List UInt8} (hdir : dir ≠ []) (h : Joins dir c) :
    namei fs (joined dir c) = follow fs (start fs dir) (components dir ++ components c) := by
  rw [namei_eq, (components_joined hdir c).mpr h, start, head?_joined hdir, start]

/-- As long as the names join well, `exec` comes to the entries that it should look up. -/
theorem looksUp_iff_asked (fs : FileSystem ι) {t : Table} {dirs : List (List UInt8)}
    {c : List UInt8} (ht : Stores t dirs) (hne : ∀ dir ∈ dirs, dir ≠ []) (hc : 0 ∉ c)
    (hlen : ∀ dir ∈ dirs, dir.length + c.length + 1 < 256) {i : Nat} (hi : i ≤ dirs.length)
    (hjoins : ∀ j < i, ∀ dir, dirs[j]? = some dir → Asked fs dirs c j → Joins dir c) :
    LooksUp fs t c i ↔ Asked fs dirs c i := by
  induction i with
  | zero => simp [LooksUp, Asked]
  | succ i ih =>
      have hlt : i < dirs.length := hi
      have hget : dirs[i]? = some dirs[i] := List.getElem?_eq_getElem hlt
      have hname := nameAt_eq ht hne hc hlen hget
      have hstep : LooksUp fs t c (i + 1) ↔
          LooksUp fs t c i ∧ namei fs (joined dirs[i] c) = none := by
        simp only [LooksUp, Nat.lt_succ_iff_lt_or_eq]
        constructor
        · rintro ⟨hself, h⟩
          exact ⟨⟨hself, fun j hj => h j (.inl hj)⟩, h i (.inr rfl) _ hname⟩
        · rintro ⟨⟨hself, h⟩, hlast⟩
          refine ⟨hself, fun j hj text htext => ?_⟩
          rcases hj with hj | rfl
          · exact h j hj text htext
          · obtain rfl := Option.some.inj (hname.symm.trans htext)
            exact hlast
      have hask : Asked fs dirs c (i + 1) ↔ Asked fs dirs c i ∧
          follow fs (start fs dirs[i]) (components dirs[i] ++ components c) = none := by
        rw [Asked, Asked, List.take_add_one, hget, Option.toList_some, List.forall_mem_append,
          List.forall_mem_singleton, and_assoc]
      rw [hstep, hask, ih (Nat.le_of_lt hlt) fun j hj => hjoins j (Nat.lt_succ_of_lt hj)]
      refine and_congr_right fun hasked => ?_
      rw [namei_joined fs (hne _ (List.getElem_mem hlt))
        (hjoins i (Nat.lt_succ_self i) _ hget hasked)]

/-- **`exec` searches the directories of `PATH`** exactly if every absolute entry that is
to be looked up ends with a `'/'`, or the command name starts with one. -/
theorem search_sound (fs : FileSystem ι) (t : Table) (dirs : List (List UInt8)) (c : List UInt8)
    (ht : Stores t dirs) (hne : ∀ dir ∈ dirs, dir ≠ []) (hc : 0 ∉ c)
    (hlen : ∀ dir ∈ dirs, dir.length + c.length + 1 < 256) :
    SearchSound fs t dirs c ↔
      ∀ (i : Nat) dir, dirs[i]? = some dir → Asked fs dirs c i → Joins dir c := by
  constructor
  · intro h i
    induction i using Nat.strongRecOn with
    | ind i ih =>
        intro dir hi hasked
        have hle : i ≤ dirs.length := Nat.le_of_lt (List.getElem?_eq_some_iff.mp hi).1
        obtain ⟨text, htext, hcomp⟩ := h.names i dir hi
          ((looksUp_iff_asked fs ht hne hc hlen hle ih).mpr hasked)
        obtain rfl := Option.some.inj ((nameAt_eq ht hne hc hlen hi).symm.trans htext)
        exact (components_joined (hne dir (List.mem_of_getElem? hi)) c).mp hcomp
  · intro h
    refine ⟨?_, fun i dir hi hlooks => ⟨_, nameAt_eq ht hne hc hlen hi, ?_⟩⟩
    · rw [search_eq fs ht hne hc hlen, found]
      cases hself : namei fs c with
      | some ip => rfl
      | none =>
          -- the entries that lead nowhere, up to the first one that leads to an inode
          have hjoined : ∀ l dir l', dirs = l ++ dir :: l' →
              (∀ d ∈ l, follow fs (start fs d) (components d ++ components c) = none) →
              namei fs (joined dir c) =
                follow fs (start fs dir) (components dir ++ components c) := by
            rintro l dir l' rfl hl
            refine namei_joined fs (hne dir (by simp)) (h l.length dir (by simp) ⟨hself, ?_⟩)
            simpa using hl
          rw [Option.none_or, Option.none_or]
          congr 1
          cases hfirst : dirs.findSome? fun dir =>
              follow fs (start fs dir) (components dir ++ components c) with
          | none =>
              rw [List.findSome?_eq_none_iff] at hfirst ⊢
              intro dir hmem
              obtain ⟨l, l', hsplit⟩ := List.append_of_mem hmem
              rw [hjoined l dir l' hsplit fun d hd => hfirst d (by simp [hsplit, hd])]
              exact hfirst dir hmem
          | some ip =>
              obtain ⟨l, dir, l', hsplit, hdir, hl⟩ := List.findSome?_eq_some_iff.mp hfirst
              refine List.findSome?_eq_some_iff.mpr ⟨l, dir, l', hsplit, ?_, fun d hd => ?_⟩
              · rw [hjoined l dir l' hsplit hl, hdir]
              · obtain ⟨m, m', rfl⟩ := List.append_of_mem hd
                rw [hjoined m d (m' ++ dir :: l') (by simp [hsplit]) fun e he =>
                  hl e (by simp [he])]
                exact hl d hd
    · have hle : i ≤ dirs.length := Nat.le_of_lt (List.getElem?_eq_some_iff.mp hi).1
      have hasked := (looksUp_iff_asked fs ht hne hc hlen hle fun j _ => h j).mp hlooks
      exact (components_joined (hne dir (List.mem_of_getElem? hi)) c).mpr (h i dir hi hasked)

/-- A file system with the file `/bin/ls`, inode 2. -/
def binLs : FileSystem Nat where
  root := 0
  cwd := 0
  isDir ip := ip ≤ 1
  dirlookup ip name :=
    if ip = 0 ∧ name = [98, 105, 110] then some 1
    else if ip = 1 ∧ name = [108, 115] then some 2
    else none

/-- The table with the entries `dirs`. -/
def tableOf (dirs : List (List UInt8)) : Table :=
  ⟨Vector.ofFn fun i => CBuf.load (CBuf.zeros 128) (dirs.getD i []), dirs.length⟩

theorem stores_tableOf {dirs : List (List UInt8)} (hnum : dirs.length ≤ 10)
    (hdirs : ∀ dir ∈ dirs, 0 ∉ dir ∧ dir.length < 128) : Stores (tableOf dirs) dirs := by
  refine ⟨rfl, fun i dir hi => ?_⟩
  obtain ⟨hzero, hlen⟩ := hdirs dir (List.mem_of_getElem? hi)
  have hlt : i < 10 := Nat.lt_of_lt_of_le (List.getElem?_eq_some_iff.mp hi).1 hnum
  have hload : (CBuf.load (CBuf.zeros 128) dir).cstring = some dir := by
    refine CBuf.cstring_spec hzero (CBuf.holds_append.mpr ⟨?_, CBuf.holds_singleton.mpr ?_⟩)
    · simpa using CBuf.holds_load (CBuf.zeros 128) dir [] (Nat.le_of_lt hlen)
    · rw [Nat.zero_add]
      exact CBuf.getElem?_load_zeros hlen
  simpa [tableOf, hlt, hi] using hload

/-- With `/bin/` in `PATH`, `ls` is found; `/usr` behind it is not looked at. -/
theorem search_sound_slash :
    SearchSound binLs (tableOf [[47, 98, 105, 110, 47], [47, 117, 115, 114]])
      [[47, 98, 105, 110, 47], [47, 117, 115, 114]] [108, 115] := by
  refine (search_sound binLs _ _ _ (stores_tableOf (by decide) (by decide)) (by decide) (by decide)
    (by decide)).mpr fun i dir hi hasked => ?_
  match i, hi with
  | 0, hi =>
      obtain rfl := Option.some.inj hi
      decide
  | 1, _ => exact absurd (hasked.2 [47, 98, 105, 110, 47] (by simp)) (by decide)
  | i + 2, hi => simp at hi

/-- With `/bin` in `PATH`, `exec` looks up `/binls` and does not find `/bin/ls`. -/
theorem search_unsound : Stores (tableOf [[47, 98, 105, 110]]) [[47, 98, 105, 110]] ∧
    search binLs (tableOf [[47, 98, 105, 110]]) [108, 115] = some none ∧
    found binLs [[47, 98, 105, 110]] [108, 115] = some 2 := by
  have hstores : Stores (tableOf [[47, 98, 105, 110]]) [[47, 98, 105, 110]] :=
    stores_tableOf (by decide) (by decide)
  have hcwd : namei binLs [108, 115] = none := by
    rw [namei_eq]
    decide
  have hbin : namei binLs (joined [47, 98, 105, 110] [108, 115]) = none := by
    rw [namei_eq]
    decide
  refine ⟨hstores, ?_, ?_⟩
  · rw [search_eq binLs hstores (by decide) (by decide) (by decide), hcwd, List.findSome?_cons,
      hbin]
    rfl
  · rw [found, hcwd]
    decide

end OsCourse.Path
