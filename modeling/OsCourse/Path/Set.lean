import OsCourse.Lib.Machine
import OsCourse.Path.Model

/-!
# OsCourse.Path.Set

`set`, called with lists of directories one after another.

Each iteration of its loop counts one character, but one that meets a `':'` reads
two. With `n` directories the loop therefore goes on behind the NUL of its
argument, for `n - 1` characters. The NUL of an entry is written one place too
far: what stands between it and the entry is left over from earlier calls.
`SetSafe` says when all this does no harm.
-/

namespace OsCourse.Path

open Lib

/-! ### The cells of the table -/

namespace Table

/-- `PATH[row][col]`. -/
def cell (t : Table) (row col : Nat) : Option UInt8 := t.PATH[row]?.bind fun b => b[col]?

/-- A write inside the table. -/
theorem write_spec (t : Table) {j k : Nat} (hj : j < 10) (hk : k < 128) (c : UInt8) :
    ∃ t', t.write j k c = some t' ∧ t'.indexPath = t.indexPath ∧
      ∀ row col, t'.cell row col = if row = j ∧ col = k then some c else t.cell row col := by
  refine ⟨{ t with PATH := t.PATH.set j (t.PATH[j].set k c hk) hj }, ?_, rfl, fun row col => ?_⟩
  · rw [write, dif_pos hj, CBuf.write_natCast _ hk, Option.map_some]
  · simp only [cell, Vector.getElem?_set]
    by_cases hrow : j = row
    · subst hrow
      rw [if_pos rfl, Option.bind_some, CBuf.getElem?_set _ hk, Vector.getElem?_eq_getElem hj,
        Option.bind_some]
      simp only [true_and]
    · rw [if_neg hrow, if_neg fun h => hrow h.1.symm]

theorem write_indexPath {t t' : Table} {j k : Nat} {c : UInt8} (h : t.write j k c = some t') :
    t'.indexPath = t.indexPath := by
  unfold write at h
  split at h
  · obtain ⟨b, -, rfl⟩ := Option.map_eq_some_iff.mp h
    rfl
  · cases h

theorem write_out (t : Table) {j : Nat} (hj : 10 ≤ j) (k : Nat) (c : UInt8) :
    t.write j k c = none := by
  rw [write, dif_neg (by omega)]

end Table

/-! ### Steps of the loop -/

section Loop

variable {newPath : List UInt8} {t : Table}

/-- The character at a place, and the text behind it. -/
theorem text_at {i : Nat} {c : UInt8} {r : List UInt8} (h : newPath.drop i = c :: r) :
    newPath[i]? = some c ∧ newPath.drop (i + 1) = r := by
  constructor
  · rw [← List.head?_drop, h]
    rfl
  · rw [← List.tail_drop, h]
    rfl

/-- Characters that are not a `':'`. -/
theorem setLoop_chars {s r : List UInt8} (hs : colon ∉ s) {i j k : Nat}
    (hmem : newPath.drop i = s ++ r) (hj : j < 10) (hk : k + s.length ≤ 128) (n : Nat) :
    ∃ t', setLoop newPath (n + s.length) t i j k =
        setLoop newPath n t' (i + s.length) j (k + s.length) ∧
      t'.indexPath = t.indexPath ∧
      ∀ row col, t'.cell row col =
        if row = j ∧ k ≤ col ∧ col < k + s.length then s[col - k]? else t.cell row col := by
  induction s generalizing t i k with
  | nil =>
      refine ⟨t, rfl, rfl, fun row col => ?_⟩
      rw [if_neg (by simp only [List.length_nil]; omega)]
  | cons c s ih =>
      obtain ⟨hc, hs⟩ := not_or.mp (mt List.mem_cons.mpr hs)
      rw [List.length_cons] at hk ⊢
      obtain ⟨hi, htail⟩ : newPath[i]? = some c ∧ newPath.drop (i + 1) = s ++ r := text_at hmem
      obtain ⟨t₁, hwrite, hindex₁, hcell₁⟩ := t.write_spec hj (show k < 128 by omega) c
      obtain ⟨t', hloop, hindex, hcell⟩ := ih (t := t₁) hs htail (k := k + 1) (by omega)
      refine ⟨t', ?_, hindex.trans hindex₁, fun row col => ?_⟩
      · rw [← Nat.add_assoc, setLoop, hi, Option.bind_eq_bind, Option.bind_some,
          if_neg (Ne.symm hc), hwrite, Option.bind_eq_bind, Option.bind_some, hloop]
        congr 1
        · omega
        · omega
      · rw [hcell row col, hcell₁ row col]
        by_cases hfirst : row = j ∧ col = k
        · rw [if_neg (by omega), if_pos hfirst, if_pos (by omega), hfirst.2, Nat.sub_self]
          rfl
        · rw [if_neg hfirst]
          by_cases hin : row = j ∧ k + 1 ≤ col ∧ col < k + 1 + s.length
          · rw [if_pos hin, if_pos (by omega), show col - k = col - (k + 1) + 1 by omega,
              List.getElem?_cons_succ]
          · rw [if_neg hin, if_neg (by omega)]

/-- The rest of an entry, its `':'` and the character after it. -/
theorem setLoop_entry {s r : List UInt8} {c : UInt8} (hs : colon ∉ s) {i j k : Nat}
    (hmem : newPath.drop i = s ++ colon :: c :: r) (hj : j + 1 < 10)
    (hk : k + s.length + 1 < 128) (n : Nat) :
    ∃ t', setLoop newPath (n + 1 + s.length) t i j k =
        setLoop newPath n t' (i + s.length + 2) (j + 1) 1 ∧
      t'.indexPath = j + 1 ∧
      ∀ row col, t'.cell row col =
        if row = j + 1 ∧ col = 0 then some c
        else if row = j ∧ col = k + s.length + 1 then some 0
        else if row = j ∧ k ≤ col ∧ col < k + s.length then s[col - k]?
        else t.cell row col := by
  obtain ⟨t₁, hchars, -, hcell₁⟩ :=
    setLoop_chars (t := t) hs hmem (show j < 10 by omega) (show k + s.length ≤ 128 by omega) (n + 1)
  have hdrop : newPath.drop (i + s.length) = colon :: c :: r := by
    rw [← List.drop_drop, hmem, List.drop_left]
  obtain ⟨hcolon, hdrop₁⟩ := text_at hdrop
  obtain ⟨hnext, -⟩ := text_at hdrop₁
  obtain ⟨t₂, hwrite₂, -, hcell₂⟩ := t₁.write_spec (show j < 10 by omega) hk 0
  obtain ⟨t₃, hwrite₃, hindex₃, hcell₃⟩ :=
    Table.write_spec { t₂ with indexPath := j + 1 } hj (show 0 < 128 by omega) c
  refine ⟨t₃, ?_, hindex₃, fun row col => ?_⟩
  · rw [hchars, setLoop, hcolon, Option.bind_eq_bind, Option.bind_some, if_pos rfl, hwrite₂,
      Option.bind_eq_bind, Option.bind_some, if_neg (by omega), hnext]
    simp only [Option.bind_some, hwrite₃]
  · rw [hcell₃ row col, ← hcell₁ row col, ← hcell₂ row col]
    rfl

/-- One iteration, if the loop comes to its end. -/
theorem setLoop_succ {n i j k : Nat} {r : Table × Nat × Nat}
    (h : setLoop newPath (n + 1) t i j k = some r) : ∃ c, newPath[i]? = some c ∧
      (c ≠ colon ∧ (∃ t₁, t.write j k c = some t₁ ∧
          setLoop newPath n t₁ (i + 1) j (k + 1) = some r) ∨
        c = colon ∧ (10 ≤ j + 1 ∧ r.2.1 = j + 1 ∨ i + 1 < newPath.length ∧
          ∃ t₁, t₁.indexPath = j + 1 ∧ setLoop newPath n t₁ (i + 2) (j + 1) 1 = some r)) := by
  unfold setLoop at h
  obtain ⟨c, hc, h⟩ := Option.bind_eq_some_iff.mp h
  refine ⟨c, hc, ?_⟩
  by_cases hcolon : c = colon
  · rw [if_pos hcolon] at h
    obtain ⟨t₁, -, h⟩ := Option.bind_eq_some_iff.mp h
    refine .inr ⟨hcolon, ?_⟩
    split at h
    · next hfull =>
      obtain rfl := Option.some.inj h
      exact .inl ⟨hfull, rfl⟩
    · obtain ⟨c', hc', h⟩ := Option.bind_eq_some_iff.mp h
      obtain ⟨t₂, hwrite, h⟩ := Option.bind_eq_some_iff.mp h
      exact .inr ⟨(List.getElem?_eq_some_iff.mp hc').1, t₂, Table.write_indexPath hwrite, h⟩
  · rw [if_neg hcolon] at h
    obtain ⟨t₁, hwrite, h⟩ := Option.bind_eq_some_iff.mp h
    exact .inl ⟨hcolon, t₁, hwrite, h⟩

/-- `j` only grows, and `indexPath` follows it unless the table is full. -/
theorem setLoop_index {n i j k : Nat} {t' : Table} {j' k' : Nat} (ht : t.indexPath = j)
    (h : setLoop newPath n t i j k = some (t', j', k')) :
    j ≤ j' ∧ (j' < 10 → t'.indexPath = j') := by
  induction n generalizing t i j k with
  | zero =>
      obtain ⟨rfl, rfl, rfl⟩ : t = t' ∧ j = j' ∧ k = k' := by simpa [setLoop] using h
      exact ⟨Nat.le_refl _, fun _ => ht⟩
  | succ n ih =>
      rcases setLoop_succ h with ⟨c, -, ⟨-, t₁, hwrite, h⟩ | ⟨-, ⟨hfull, hj⟩ | ⟨-, t₁, hindex, h⟩⟩⟩
      · exact ih ((Table.write_indexPath hwrite).trans ht) h
      · simp only at hj
        omega
      · obtain ⟨hle, hj⟩ := ih hindex h
        exact ⟨by omega, hj⟩

/-- If `j` stays, the characters could be read, and none was a `':'`. -/
theorem setLoop_stays {n i j k : Nat} {t' : Table} {k' : Nat} (ht : t.indexPath = j)
    (h : setLoop newPath n t i j k = some (t', j, k')) :
    n ≤ (newPath.drop i).length ∧ colon ∉ (newPath.drop i).take n := by
  induction n generalizing t i k with
  | zero => exact ⟨Nat.zero_le _, by simp⟩
  | succ n ih =>
      rcases setLoop_succ h with ⟨c, hc, ⟨hne, t₁, hwrite, h⟩ | ⟨-, ⟨-, hj⟩ | ⟨-, t₁, hindex, h⟩⟩⟩
      · obtain ⟨hlen, hnot⟩ := ih ((Table.write_indexPath hwrite).trans ht) h
        have hi := (List.getElem?_eq_some_iff.mp hc).1
        have hcons : newPath.drop i = c :: newPath.drop (i + 1) := by
          rw [List.drop_eq_getElem_cons hi, (List.getElem?_eq_some_iff.mp hc).2]
        rw [hcons, List.length_cons, List.take_succ_cons]
        exact ⟨Nat.succ_le_succ hlen, fun hmem => (List.mem_cons.mp hmem).elim (Ne.symm hne) hnot⟩
      · simp only at hj
        omega
      · have hle := (setLoop_index hindex h).1
        omega

/-! ### The whole argument -/

/-- A list of directories as `set` expects it: each followed by a `':'`. -/
def text (dirs : List (List UInt8)) : List UInt8 := dirs.flatMap (· ++ [colon])

theorem length_text (dirs : List (List UInt8)) :
    (text dirs).length = dirs.flatten.length + dirs.length := by
  induction dirs with
  | nil => rfl
  | cons d dirs ih =>
      have hcons : text (d :: dirs) = d ++ [colon] ++ text dirs := rfl
      rw [hcons, List.length_append, ih, List.flatten_cons]
      simp only [List.length_append, List.length_cons, List.length_nil]
      omega

/-- A directory of the list. -/
structure IsDir (d : List UInt8) : Prop where
  nonempty : d ≠ []
  short : d.length ≤ 120
  noColon : colon ∉ d
  noNul : 0 ∉ d

instance (d : List UInt8) : Decidable (IsDir d) :=
  decidable_of_iff (d ≠ [] ∧ d.length ≤ 120 ∧ colon ∉ d ∧ 0 ∉ d)
    ⟨fun h => ⟨h.1, h.2.1, h.2.2.1, h.2.2.2⟩,
      fun h => ⟨h.nonempty, h.short, h.noColon, h.noNul⟩⟩

/-- The rest `s` of an entry, more entries, and the NUL behind them. Entry `j`
keeps the first `k` cells it has. All entries get their characters, and the cell
behind each entry keeps what it holds. -/
theorem setLoop_dirs {dirs : List (List UInt8)} (hdirs : ∀ d ∈ dirs, IsDir d) {s rest : List UInt8}
    (hs : colon ∉ s) {i j k : Nat}
    (hmem : newPath.drop i = s ++ colon :: (text dirs ++ 0 :: rest)) (hj : j + dirs.length + 1 < 10)
    (hk : k + s.length + 1 < 128) (n : Nat) :
    ∃ t', setLoop newPath (n + dirs.flatten.length + 1 + s.length) t i j k =
        setLoop newPath n t' (i + s.length + 1 + (text dirs).length + 1) (j + dirs.length + 1) 1 ∧
      t'.indexPath = j + dirs.length + 1 ∧
      (∀ row col, row < j → t'.cell row col = t.cell row col) ∧
      (∀ col, col < k ∨ col = k + s.length → t'.cell j col = t.cell j col) ∧
      (∀ col, k ≤ col → col < k + s.length → t'.cell j col = s[col - k]?) ∧
      ∀ m d, dirs[m]? = some d → t'.cell (j + 1 + m) d.length = t.cell (j + 1 + m) d.length ∧
        ∀ col, col < d.length → t'.cell (j + 1 + m) col = d[col]? := by
  induction dirs generalizing t s i j k with
  | nil =>
      obtain ⟨t', hloop, hindex, hcell⟩ :=
        setLoop_entry (t := t) hs (c := 0) (r := rest) hmem hj hk n
      refine ⟨t', hloop, hindex, fun row col hrow => ?_, fun col hcol => ?_, fun col hlo hhi => ?_,
        fun m d hm => by cases hm⟩
      · rw [hcell, if_neg (by omega), if_neg (by omega), if_neg (by omega)]
      · rw [hcell, if_neg (by omega), if_neg (by omega), if_neg (by omega)]
      · rw [hcell, if_neg (by omega), if_neg (by omega), if_pos ⟨rfl, hlo, hhi⟩]
  | cons d dirs ih =>
      have hd := hdirs d List.mem_cons_self
      obtain ⟨c, d', rfl⟩ := List.exists_cons_of_ne_nil hd.nonempty
      have hd' : colon ∉ d' := fun h => hd.noColon (List.mem_cons_of_mem c h)
      have hshort := hd.short
      rw [List.length_cons] at hshort hj
      have htext : text ((c :: d') :: dirs) = c :: (d' ++ colon :: text dirs) := by
        simp [text]
      -- the ':' stores the first character of the next entry too
      obtain ⟨t₁, hloop₁, -, hcell₁⟩ := setLoop_entry (t := t) hs (c := c)
        (r := d' ++ colon :: (text dirs ++ 0 :: rest)) (by rw [hmem, htext]; simp)
        (show j + 1 < 10 by omega) hk (n + dirs.flatten.length + 1 + d'.length)
      have hdrop : newPath.drop (i + s.length + 2) = d' ++ colon :: (text dirs ++ 0 :: rest) := by
        rw [Nat.add_assoc, ← List.drop_drop, ← List.drop_drop, hmem, htext, List.drop_left]
        simp
      obtain ⟨t', hloop, hindex, hbefore, hkeep, hchars, hrest⟩ :=
        ih (t := t₁) (fun e he => hdirs e (List.mem_cons_of_mem _ he)) hd' hdrop
          (j := j + 1) (k := 1) (by omega) (by omega)
      have hrow : ∀ col, t'.cell j col = t₁.cell j col := fun col => hbefore j col (by omega)
      refine ⟨t', ?_, by rw [hindex, List.length_cons]; omega, fun row col hlt => ?_,
        fun col hcol => ?_, fun col hlo hhi => ?_, fun m e hm => ?_⟩
      · have hcount : n + ((c :: d') :: dirs).flatten.length + 1 + s.length =
            n + dirs.flatten.length + 1 + d'.length + 1 + s.length := by
          rw [List.flatten_cons, List.length_append, List.length_cons]
          omega
        rw [hcount, hloop₁, hloop, htext]
        simp only [List.length_append, List.length_cons]
        congr 1
        · omega
        · omega
      · rw [hbefore row col (by omega), hcell₁, if_neg (by omega), if_neg (by omega),
          if_neg (by omega)]
      · rw [hrow, hcell₁, if_neg (by omega), if_neg (by omega), if_neg (by omega)]
      · rw [hrow, hcell₁, if_neg (by omega), if_neg (by omega), if_pos ⟨rfl, hlo, hhi⟩]
      · cases m with
        | zero =>
            obtain rfl := Option.some.inj hm
            rw [List.length_cons, Nat.add_zero]
            refine ⟨?_, fun col hcol => ?_⟩
            · rw [hkeep _ (.inr (Nat.add_comm _ _)), hcell₁, if_neg (by omega), if_neg (by omega),
                if_neg (by omega)]
            · cases col with
              | zero => rw [hkeep 0 (by omega), hcell₁, if_pos ⟨rfl, rfl⟩]; rfl
              | succ col => rw [hchars (col + 1) (by omega) (by omega)]; rfl
        | succ m =>
            obtain ⟨hlast, hcells⟩ := hrest m e hm
            have hrow' : j + 1 + 1 + m = j + 1 + (m + 1) := by omega
            rw [hrow'] at hlast hcells
            refine ⟨?_, hcells⟩
            rw [hlast, hcell₁, if_neg (by omega), if_neg (by omega), if_neg (by omega)]

end Loop

/-! ### Calls -/

/-- An argument of `set`, and the memory behind it. -/
structure Arg where
  dirs : List (List UInt8)
  rest : List UInt8
  few : dirs.length ≤ 9
  isDir : ∀ d ∈ dirs, IsDir d

/-- The memory from the argument on. -/
def Arg.newPath (a : Arg) : List UInt8 := text a.dirs ++ 0 :: a.rest

theorem strlen_newPath (a : Arg) : strlen a.newPath = some (text a.dirs).length := by
  have hnul : ∀ c ∈ text a.dirs, decide (c ≠ 0) = true := by
    intro c hc
    obtain ⟨d, hd, hc⟩ := List.mem_flatMap.mp hc
    rw [decide_eq_true_iff]
    rintro rfl
    rcases List.mem_append.mp hc with hc | hc
    · exact (a.isDir d hd).noNul hc
    · exact absurd (List.mem_singleton.mp hc) (by decide)
  rw [strlen, if_pos (by simp [Arg.newPath]), Arg.newPath, List.takeWhile_append_of_pos hnul]
  simp

/-- The call does what it should in the state `t`. -/
structure SetSafe (t : Table) (a : Arg) : Prop where
  /-- One entry after the last is written to as well. -/
  room : a.dirs.length ≤ 8
  /-- Without directories `indexPath` is not set. -/
  none : a.dirs = [] → t.indexPath = 0
  /-- The characters behind the NUL can be read. -/
  readable : a.dirs.length ≤ a.rest.length + 1
  noColon : colon ∉ a.rest.take (a.dirs.length - 1)
  /-- The character behind each entry is a NUL already. -/
  ends : ∀ (i : Nat) d, a.dirs[i]? = some d → t.cell i d.length = some 0

/-- A call with directories: the loop up to the NUL, and what follows. -/
theorem set_cons {a : Arg} {d : List UInt8} {dirs : List (List UInt8)} (ha : a.dirs = d :: dirs)
    (t : Table) : ∃ t₁, t₁.indexPath = a.dirs.length ∧
      a.newPath.drop ((text a.dirs).length + 1) = a.rest ∧
      set a.newPath t = ((setLoop a.newPath dirs.length t₁ ((text a.dirs).length + 1)
        a.dirs.length 1).bind fun r => r.1.write (r.2.1 + 1) (r.2.2 + 1) 0) ∧
      ∀ (i : Nat) e, a.dirs[i]? = some e → t₁.cell i e.length = t.cell i e.length ∧
        ∀ col, col < e.length → t₁.cell i col = e[col]? := by
  have hdir := a.isDir
  have hfew := a.few
  rw [ha] at hdir hfew
  rw [List.length_cons] at hfew
  have hd := hdir d List.mem_cons_self
  have hshort := hd.short
  have htext : text a.dirs = d ++ colon :: text dirs := by
    rw [ha]
    simp [text]
  obtain ⟨t₁, hloop, hindex, -, hkeep, hchars, hrest⟩ := setLoop_dirs (t := t)
    (fun e he => hdir e (List.mem_cons_of_mem d he)) hd.noColon (j := 0) (k := 0)
    (show a.newPath.drop 0 = d ++ colon :: (text dirs ++ 0 :: a.rest) by simp [Arg.newPath, htext])
    (by omega) (by omega)
    dirs.length
  refine ⟨t₁, by rw [hindex, ha, List.length_cons]; omega, ?_, ?_, fun i e hi => ?_⟩
  · rw [Arg.newPath, ← List.drop_drop, List.drop_left]
    rfl
  · have hcount : (text a.dirs).length = dirs.length + dirs.flatten.length + 1 + d.length := by
      rw [htext, List.length_append, List.length_cons, length_text]
      omega
    rw [set, strlen_newPath, Option.bind_eq_bind, Option.bind_some, hcount, hloop, ← hcount]
    have hpos : 0 + d.length + 1 + (text dirs).length + 1 = (text a.dirs).length + 1 := by
      rw [htext, List.length_append, List.length_cons]
      omega
    rw [hpos, ha, List.length_cons, Nat.zero_add]
    rfl
  · rw [ha] at hi
    cases i with
    | zero =>
        obtain rfl := Option.some.inj hi
        exact ⟨hkeep _ (.inr (Nat.zero_add _).symm), fun col hcol => by
          rw [hchars col (Nat.zero_le _) (by omega), Nat.sub_zero]⟩
    | succ i =>
        have hrow := hrest i e hi
        rwa [show 0 + 1 + i = i + 1 by omega] at hrow

/-- An entry with the characters of `d` is the string `d` exactly if a NUL follows. -/
theorem entry_iff {t : Table} {i : Nat} {d : List UInt8} (hd : IsDir d)
    (hcells : ∀ col, col < d.length → t.cell i col = d[col]?) :
    t.PATH[i]?.bind CBuf.cstring = some d ↔ t.cell i d.length = some 0 := by
  obtain ⟨c, d', hcons⟩ := List.exists_cons_of_ne_nil hd.nonempty
  have hfirst := hcells 0 (by rw [hcons]; exact Nat.zero_lt_succ _)
  cases hrow : t.PATH[i]? with
  | none =>
      rw [Table.cell, hrow, hcons] at hfirst
      cases hfirst
  | some b =>
      have hcell : ∀ col, t.cell i col = b[col]? := fun col => by rw [Table.cell, hrow]; rfl
      rw [Option.bind_some, hcell]
      constructor
      · intro h
        unfold CBuf.cstring at h
        split at h
        · next hmem =>
          -- the string ends where the first NUL stands
          have hstr := Option.some.inj h
          have happ := List.takeWhile_append_dropWhile (p := fun c => decide (c ≠ 0)) (l := b.toList)
          rw [hstr] at happ
          have hne : b.toList.dropWhile (fun c => decide (c ≠ 0)) ≠ [] := by
            intro hnil
            rw [hnil, List.append_nil] at happ
            rw [← happ] at hmem
            exact hd.noNul hmem
          have hhead := List.head?_dropWhile_not (fun c => decide (c ≠ 0)) b.toList
          rw [List.head?_eq_some_head hne] at hhead
          have hget : b.toList[d.length]? = some 0 := by
            rw [← happ, List.getElem?_append_right (Nat.le_refl _), Nat.sub_self,
              ← List.head?_eq_getElem?, List.head?_eq_some_head hne]
            simpa using hhead
          simpa using hget
        · cases h
      · intro h
        refine CBuf.cstring_spec hd.noNul (CBuf.holds_append.mpr ⟨fun k c hk => ?_, ?_⟩)
        · rw [Nat.zero_add, ← hcell, hcells k (List.getElem?_eq_some_iff.mp hk).1]
          exact hk
        · rw [CBuf.holds_singleton, Nat.zero_add]
          exact h

/-- A call ends and stores its directories exactly if it is safe. -/
theorem set_iff (t : Table) (a : Arg) :
    (∃ t', set a.newPath t = some t' ∧ Stores t' a.dirs) ↔ SetSafe t a := by
  cases ha : a.dirs with
  | nil =>
      obtain ⟨t', hwrite, hindex, -⟩ := t.write_spec (show 0 + 1 < 10 by omega)
        (show 0 + 1 < 128 by omega) 0
      have hset : set a.newPath t = some t' := by
        rw [set, strlen_newPath, ha]
        exact hwrite
      constructor
      · intro h
        obtain ⟨u, hu, hstores⟩ := h
        obtain rfl := Option.some.inj (hset.symm.trans hu)
        have hzero := hstores.indexPath
        exact ⟨by simp [ha], fun _ => hindex.symm.trans hzero, by simp [ha], by simp [ha],
          fun i d hi => by simp [ha] at hi⟩
      · intro h
        exact ⟨t', hset, hindex.trans (h.none ha), fun i d hi => by cases hi⟩
  | cons d dirs =>
      rw [← ha]
      obtain ⟨t₁, hindex₁, hdrop, hset, hcells⟩ := set_cons ha t
      have hlen : a.dirs.length = dirs.length + 1 := by rw [ha, List.length_cons]
      have hmem : ∀ {i : Nat} {e}, a.dirs[i]? = some e → IsDir e ∧ i < a.dirs.length :=
        fun hi => ⟨a.isDir _ (List.mem_of_getElem? hi), (List.getElem?_eq_some_iff.mp hi).1⟩
      -- without a ':' behind the NUL only the last two entries written to change
      have htail : a.dirs.length ≤ 8 → dirs.length ≤ a.rest.length → colon ∉ a.rest.take dirs.length →
          ∃ t', set a.newPath t = some t' ∧ t'.indexPath = a.dirs.length ∧
            ∀ row col, row < a.dirs.length → t'.cell row col = t₁.cell row col := by
        intro hroom hread hcolon
        have hcount : (a.rest.take dirs.length).length = dirs.length := by
          rw [List.length_take]
          omega
        obtain ⟨t₂, hloop, hindex₂, hcell₂⟩ := setLoop_chars (t := t₁) hcolon
          (r := a.rest.drop dirs.length) (by rw [List.take_append_drop]; exact hdrop)
          (show a.dirs.length < 10 by omega) (k := 1) (by omega) 0
        rw [hcount, Nat.zero_add] at hloop
        obtain ⟨t', hwrite, hindex, hcell⟩ := t₂.write_spec (show a.dirs.length + 1 < 10 by omega)
          (show 1 + dirs.length + 1 < 128 by omega) 0
        refine ⟨t', ?_, hindex.trans (hindex₂.trans hindex₁), fun row col hrow => ?_⟩
        · rw [hset, hloop]
          exact hwrite
        · rw [hcell, if_neg (by omega), hcell₂, if_neg (by omega)]
      constructor
      · intro h
        obtain ⟨u, hu, hstores⟩ := h
        have hrun := hset.symm.trans hu
        obtain ⟨⟨t₂, j, k⟩, hloop, hwrite⟩ := Option.bind_eq_some_iff.mp hrun
        have hj : j + 1 < 10 := by
          by_contra hout
          rw [Table.write_out _ (Nat.not_lt.mp hout)] at hwrite
          cases hwrite
        have hstays : j = a.dirs.length := by
          rw [← (setLoop_index hindex₁ hloop).2 (by omega), ← hstores.indexPath,
            Table.write_indexPath hwrite]
        subst hstays
        obtain ⟨hread, hcolon⟩ := setLoop_stays hindex₁ hloop
        rw [hdrop] at hread hcolon
        obtain ⟨t', ht', -, hsame⟩ := htail (by omega) hread hcolon
        obtain rfl := Option.some.inj (ht'.symm.trans hu)
        refine ⟨by omega, fun hnil => ?_, by omega, ?_, fun i e hi => ?_⟩
        · rw [hnil] at hlen
          cases hlen
        · rw [hlen, Nat.add_sub_cancel]
          exact hcolon
        · obtain ⟨he, hlt⟩ := hmem hi
          obtain ⟨hend, hchars⟩ := hcells i e hi
          have hstr := (entry_iff he fun col hcol => by rw [hsame i col hlt, hchars col hcol]).mp
            (hstores.entry i e hi)
          rwa [hsame i _ hlt, hend] at hstr
      · intro h
        have hread := h.readable
        have hcolon := h.noColon
        rw [hlen] at hread
        rw [hlen, Nat.add_sub_cancel] at hcolon
        obtain ⟨t', ht', hindex, hsame⟩ := htail h.room (by omega) hcolon
        refine ⟨t', ht', hindex, fun i e hi => ?_⟩
        obtain ⟨he, hlt⟩ := hmem hi
        obtain ⟨hend, hchars⟩ := hcells i e hi
        refine (entry_iff he fun col hcol => by rw [hsame i col hlt, hchars col hcol]).mpr ?_
        rw [hsame i _ hlt, hend]
        exact h.ends i e hi

/-- The kernel, whose table starts empty and is written to by `set` only. -/
def sets : Machine Table Arg := ⟨Table.empty, fun t a => set a.newPath t⟩

/-- **`set` stores the search path.** The last call of a sequence leaves its
directories in `PATH` exactly if the calls before have not left the table, and
the last call is safe in the state they have left. -/
theorem set_stores (calls : List Arg) (a : Arg) :
    (∃ t', sets.exec Table.empty (calls ++ [a]) = some t' ∧ Stores t' a.dirs) ↔
      ∃ t, sets.exec Table.empty calls = some t ∧ SetSafe t a := by
  have hlast : ∀ t, sets.exec t [a] = set a.newPath t := by
    intro t
    rw [Machine.exec_cons]
    cases hset : sets.step t a with
    | none => exact hset.symm
    | some t' => exact hset.symm
  rw [Machine.exec_append]
  cases hcalls : sets.exec Table.empty calls with
  | none => simp
  | some t =>
      rw [Option.bind_some, hlast, set_iff]
      simp

/-- An argument with one directory. -/
def oneDir (d : List UInt8) (h : IsDir d) : Arg :=
  ⟨[d], [], Nat.le_of_ble_eq_true rfl, fun _ he => List.mem_singleton.mp he ▸ h⟩

/-- After `set("/bin/:")`, `set("/b:")` leaves the string `/bi` in `PATH[0]`. -/
theorem set_leftover : ∃ t', sets.exec Table.empty
      ([oneDir [47, 98, 105, 110, 47] (by decide)] ++ [oneDir [47, 98] (by decide)]) = some t' ∧
    t'.PATH[0]?.bind CBuf.cstring = some [47, 98, 105] ∧ ¬ Stores t' [[47, 98]] := by
  have hrun : (sets.exec Table.empty
      ([oneDir [47, 98, 105, 110, 47] (by decide)] ++ [oneDir [47, 98] (by decide)])).bind
        (fun t => t.PATH[0]?.bind CBuf.cstring) = some [47, 98, 105] := by
    decide +kernel
  obtain ⟨t', ht', hstr⟩ := Option.bind_eq_some_iff.mp hrun
  refine ⟨t', ht', hstr, fun h => ?_⟩
  have hentry := h.entry 0 _ rfl
  rw [hstr] at hentry
  exact absurd hentry (by decide)

end OsCourse.Path
