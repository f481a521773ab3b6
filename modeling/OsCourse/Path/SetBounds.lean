import OsCourse.Path.Set

/-!
# OsCourse.Path.SetBounds

**Which arguments keep `set` inside its buffers.**

The loop makes `strlen(s)` iterations, and the one that meets a `':'` also takes
the character after it. One `':'` makes it read the NUL, the second one what
stands behind it. So `set` may only be called with at most one entry after the
first, and an entry has to leave room for the NUL that is written one place
too far: `Fits` is that condition, and `set_inside_iff` says that it is exact.
-/

namespace OsCourse.Path

open Lib

/-! ### What the loop reads and writes -/

theorem Table.write_bounds {t t' : Table} {j k : Nat} {c : UInt8} (h : t.write j k c = some t') :
    j < 10 ∧ k < 128 := by
  unfold write at h
  split at h
  · next hj =>
    refine ⟨hj, ?_⟩
    by_contra hk
    rw [CBuf.write_of_le _ (by omega)] at h
    cases h
  · cases h

section Loop

variable {newPath : List UInt8} {t : Table}

/-- Characters that were stored fit into their row. -/
theorem setLoop_chars_bound {s r : List UInt8} (hs : colon ∉ s) (hne : s ≠ []) {i j k n : Nat}
    (hmem : newPath.drop i = s ++ r) {res : Table × Nat × Nat}
    (h : setLoop newPath (n + s.length) t i j k = some res) : j < 10 ∧ k + s.length ≤ 128 := by
  induction s generalizing t i k with
  | nil => exact absurd rfl hne
  | cons c s ih =>
      obtain ⟨hc, hs⟩ := not_or.mp (mt List.mem_cons.mpr hs)
      obtain ⟨hi, htail⟩ : newPath[i]? = some c ∧ newPath.drop (i + 1) = s ++ r := text_at hmem
      rw [List.length_cons, ← Nat.add_assoc] at h
      obtain ⟨c', hc', ⟨-, t₁, hwrite, hrest⟩ | ⟨hcolon, -⟩⟩ := setLoop_succ h
      · obtain ⟨hj, hk⟩ := Table.write_bounds hwrite
        refine ⟨hj, ?_⟩
        rw [List.length_cons]
        cases s with
        | nil => exact hk
        | cons d s =>
            have hbound := (ih hs (List.cons_ne_nil d s) htail hrest).2
            omega
      · rw [hi] at hc'
        exact absurd ((Option.some.inj hc').trans hcolon) (Ne.symm hc)

/-- The NUL written at a `':'` fits into its row. -/
theorem setLoop_colon_bound {i j k n : Nat} (hi : newPath[i]? = some colon)
    {res : Table × Nat × Nat} (h : setLoop newPath (n + 1) t i j k = some res) :
    j < 10 ∧ k + 1 < 128 := by
  rw [setLoop, hi, Option.bind_eq_bind, Option.bind_some, if_pos rfl] at h
  obtain ⟨t₁, hwrite, -⟩ := Option.bind_eq_some_iff.mp h
  exact Table.write_bounds hwrite

/-- Unless the table is full, the loop has read a character in every iteration,
and one more for each entry it has started. -/
theorem setLoop_reads {n i j k : Nat} (hi : i ≤ newPath.length) {res : Table × Nat × Nat}
    (h : setLoop newPath n t i j k = some res) (hj : res.2.1 < 10) :
    i + n + res.2.1 ≤ newPath.length + j := by
  induction n generalizing t i j k with
  | zero =>
      rw [setLoop] at h
      obtain rfl := Option.some.inj h
      dsimp only
      omega
  | succ n ih =>
      rcases setLoop_succ h with ⟨c, hc, ⟨-, t₁, -, h⟩ | ⟨-, ⟨hfull, hj'⟩ | ⟨hnext, t₁, -, h⟩⟩⟩
      · have hlt := (List.getElem?_eq_some_iff.mp hc).1
        have := ih hlt h
        omega
      · omega
      · have := ih hnext h
        omega

/-- More memory behind the argument makes no difference to a loop that did not
need it. -/
theorem setLoop_append {n i j k : Nat} {res : Table × Nat × Nat}
    (h : setLoop newPath n t i j k = some res) (rest : List UInt8) :
    setLoop (newPath ++ rest) n t i j k = some res := by
  have hread : ∀ {i : Nat} {c : UInt8}, newPath[i]? = some c → (newPath ++ rest)[i]? = some c := by
    intro i c hc
    rw [List.getElem?_append_left (List.getElem?_eq_some_iff.mp hc).1, hc]
  induction n generalizing t i j k with
  | zero => exact h
  | succ n ih =>
      unfold setLoop at h ⊢
      obtain ⟨c, hc, h⟩ := Option.bind_eq_some_iff.mp h
      rw [hread hc, Option.bind_eq_bind, Option.bind_some]
      by_cases hcolon : c = colon
      · rw [if_pos hcolon] at h ⊢
        obtain ⟨t₁, hwrite, h⟩ := Option.bind_eq_some_iff.mp h
        rw [hwrite, Option.bind_eq_bind, Option.bind_some]
        split at h
        · next hfull =>
          rw [if_pos hfull]
          exact h
        · next hroom =>
          rw [if_neg hroom]
          obtain ⟨c', hc', h⟩ := Option.bind_eq_some_iff.mp h
          obtain ⟨t₂, hwrite₂, h⟩ := Option.bind_eq_some_iff.mp h
          simp only [hread hc', Option.bind_some, hwrite₂]
          exact ih h
      · rw [if_neg hcolon] at h ⊢
        obtain ⟨t₁, hwrite, h⟩ := Option.bind_eq_some_iff.mp h
        rw [hwrite, Option.bind_eq_bind, Option.bind_some]
        exact ih h

end Loop

/-! ### Calls -/

theorem strlen_nul {s : List UInt8} (hs : 0 ∉ s) (rest : List UInt8) :
    strlen (s ++ 0 :: rest) = some s.length := by
  have hnul : ∀ c ∈ s, decide (c ≠ 0) = true := by
    intro c hc
    rw [decide_eq_true_iff]
    rintro rfl
    exact hs hc
  rw [strlen, if_pos (by simp), List.takeWhile_append_of_pos hnul]
  simp

/-- `set(s)` stays inside in the state `t`: it needs no more memory than `s` with
its NUL, does not depend on what stands behind, writes inside `PATH` only and
leaves `indexPath` below `MAX_PATH`. -/
def SetInside (t : Table) (s : List UInt8) : Prop :=
  ∃ t', set (s ++ [0]) t = some t' ∧ (∀ rest, set (s ++ 0 :: rest) t = some t') ∧
    t'.indexPath < 10

/-- One entry of at most 126 characters; or two, of at most 126 and 125
characters, where the first character of the second one may be a `':'`. -/
def Fits (s : List UInt8) : Prop :=
  colon ∉ s ∧ s.length ≤ 126 ∨
    ∃ x y, s = x ++ colon :: y ∧ colon ∉ x ∧ colon ∉ y.tail ∧ x.length ≤ 126 ∧ y.length ≤ 125

/-- A call is the loop and the last NUL. -/
theorem set_eq {s : List UInt8} (hs : 0 ∉ s) (rest : List UInt8) (t : Table) :
    set (s ++ 0 :: rest) t =
      (setLoop (s ++ 0 :: rest) s.length t 0 0 0).bind
        fun r => r.1.write (r.2.1 + 1) (r.2.2 + 1) 0 := by
  rw [set, strlen_nul hs]
  rfl

/-- The loop over an argument without a `':'`. -/
theorem setLoop_single {s : List UInt8} (hcolon : colon ∉ s) (hlen : s.length ≤ 128) (t : Table) :
    ∃ t', setLoop (s ++ [0]) s.length t 0 0 0 = some (t', 0, s.length) ∧
      t'.indexPath = t.indexPath := by
  have hmem : (s ++ [0]).drop 0 = s ++ [0] := rfl
  obtain ⟨t', hloop, hindex, -⟩ :=
    setLoop_chars (t := t) hcolon hmem (j := 0) (k := 0) (by decide) (by omega) 0
  rw [Nat.zero_add] at hloop
  exact ⟨t', hloop, hindex⟩

section Pair

variable {x y : List UInt8}

/-- The loop over the first of two entries, and the two characters after it. -/
theorem setLoop_first (hx : colon ∉ x) (hlen : x.length ≤ 126) (t : Table) :
    ∃ t', setLoop (x ++ colon :: y ++ [0]) (x ++ colon :: y).length t 0 0 0 =
        setLoop (x ++ colon :: y ++ [0]) y.length t' (x.length + 2) 1 1 ∧ t'.indexPath = 1 ∧
      (x ++ colon :: y ++ [0]).drop (x.length + 2) = (y ++ [0]).tail := by
  obtain ⟨c, z, hz⟩ := List.exists_cons_of_ne_nil (l := y ++ [0]) (by simp)
  have hmem : (x ++ colon :: y ++ [0]).drop 0 = x ++ colon :: c :: z := by
    rw [List.drop_zero, List.append_assoc, List.cons_append, hz]
  obtain ⟨t', hloop, hindex, -⟩ :=
    setLoop_entry (t := t) hx hmem (j := 0) (k := 0) (by decide) (by omega) y.length
  refine ⟨t', ?_, hindex, ?_⟩
  · have hcount : (x ++ colon :: y).length = y.length + 1 + x.length := by
      simp only [List.length_append, List.length_cons]
      omega
    rw [hcount, hloop, Nat.zero_add]
  · rw [List.drop_zero] at hmem
    rw [← List.drop_drop, hmem, hz, List.drop_left]
    rfl

theorem length_tail_nul (y : List UInt8) : (y ++ [0]).tail.length = y.length := by simp

theorem tail_nul (y : List UInt8) : colon ∈ (y ++ [0]).tail ↔ colon ∈ y.tail := by
  cases y with
  | nil => simp
  | cons c y =>
      have hne : colon ≠ 0 := by decide
      simp [hne]

end Pair

/-- An argument that fits stays inside. -/
theorem Fits.inside {s : List UInt8} (hs : 0 ∉ s) (h : Fits s) {t : Table}
    (ht : t.indexPath < 10) : SetInside t s := by
  -- whatever stands behind the NUL
  have hrest : ∀ (j k : Nat) (t₁ : Table), t₁.indexPath < 10 → j + 1 < 10 → k + 1 < 128 →
      setLoop (s ++ [0]) s.length t 0 0 0 = some (t₁, j, k) → SetInside t s := by
    intro j k t₁ hindex hj hk hloop
    obtain ⟨t', hwrite, hindex', -⟩ := t₁.write_spec hj hk 0
    refine ⟨t', ?_, fun rest => ?_, hindex' ▸ hindex⟩
    · rw [set_eq hs, hloop, Option.bind_some, hwrite]
    · have hmem : s ++ 0 :: rest = s ++ [0] ++ rest := by simp
      have hlong := setLoop_append hloop rest
      rw [set_eq hs, hmem, hlong, Option.bind_some, hwrite]
  rcases h with ⟨hcolon, hlen⟩ | ⟨x, y, rfl, hx, hy, hlx, hly⟩
  · obtain ⟨t₁, hloop, hindex⟩ := setLoop_single hcolon (by omega) t
    exact hrest 0 s.length t₁ (hindex ▸ ht) (by decide) (by omega) hloop
  · obtain ⟨t₁, hfirst, hindex, hdrop⟩ := setLoop_first (y := y) hx hlx t
    have hmem : (x ++ colon :: y ++ [0]).drop (x.length + 2) = (y ++ [0]).tail ++ [] := by
      rw [hdrop, List.append_nil]
    obtain ⟨t₂, hsecond, hindex₂, -⟩ := setLoop_chars (t := t₁) (mt (tail_nul y).mp hy) hmem
      (j := 1) (k := 1) (by decide) (by rw [length_tail_nul]; omega) 0
    rw [Nat.zero_add, length_tail_nul] at hsecond
    refine hrest 1 (1 + y.length) t₂ ?_ (by decide) (by omega) ?_
    · rw [hindex₂, hindex]
      decide
    · rw [hfirst, hsecond]
      rfl

/-- The first of two entries leaves room for the NUL behind it. -/
theorem setLoop_first_bound {x y : List UInt8} (hx : colon ∉ x) {t : Table}
    {r : Table × Nat × Nat}
    (h : setLoop (x ++ colon :: y ++ [0]) (x ++ colon :: y).length t 0 0 0 = some r) :
    x.length ≤ 126 := by
  by_contra hlong
  have hlen : (x ++ colon :: y).length = y.length + 1 + x.length := by
    simp only [List.length_append, List.length_cons]
    omega
  rw [hlen] at h
  have hmem : (x ++ colon :: y ++ [0]).drop 0 = x ++ (colon :: y ++ [0]) := by simp
  have hne : x ≠ [] := by
    rintro rfl
    exact hlong (by decide)
  have hchars := setLoop_chars_bound hx hne hmem h
  obtain ⟨t₁, hfirst, -, -⟩ :=
    setLoop_chars (t := t) hx hmem (j := 0) (k := 0) (by decide) hchars.2 (y.length + 1)
  rw [hfirst] at h
  have hnul := setLoop_colon_bound (by simp) h
  omega

/-- The second entry ends where the argument does, and leaves room for the NUL. -/
theorem setLoop_second_bound {x y : List UInt8} {t : Table} {r : Table × Nat × Nat}
    (hindex : t.indexPath = 1)
    (hdrop : (x ++ colon :: y ++ [0]).drop (x.length + 2) = (y ++ [0]).tail)
    (h : setLoop (x ++ colon :: y ++ [0]) y.length t (x.length + 2) 1 1 = some r)
    (hj : r.2.1 + 1 < 10) (hk : r.2.2 + 1 < 128) : colon ∉ y.tail ∧ y.length ≤ 125 := by
  obtain ⟨t', j', k'⟩ := r
  dsimp only at hj hk
  -- the characters of the entry and the NUL are all there is to read
  have hreads := setLoop_reads (by simp) h (by dsimp only; omega)
  obtain ⟨hstays, -⟩ := setLoop_index hindex h
  obtain rfl : j' = 1 := by
    simp only [List.length_append, List.length_cons, List.length_nil] at hreads
    omega
  have hy := (setLoop_stays hindex h).2
  rw [hdrop, List.take_of_length_le (Nat.le_of_eq (length_tail_nul y)), tail_nul] at hy
  refine ⟨hy, ?_⟩
  by_contra hlong
  have hne : (y ++ [0]).tail ≠ [] := by
    rw [← List.length_pos_iff, length_tail_nul]
    omega
  have hmem : (x ++ colon :: y ++ [0]).drop (x.length + 2) = (y ++ [0]).tail ++ [] := by
    rw [hdrop, List.append_nil]
  have hchars := mt (tail_nul y).mp hy
  have hbound := setLoop_chars_bound (n := 0) hchars hne hmem
    (by rw [Nat.zero_add, length_tail_nul]; exact h)
  obtain ⟨t₂, hsecond, -, -⟩ :=
    setLoop_chars (t := t) hchars hmem (j := 1) (k := 1) (by decide) hbound.2 0
  rw [Nat.zero_add, length_tail_nul, h, setLoop] at hsecond
  have hcol := congrArg (fun r => r.2.2) (Option.some.inj hsecond)
  dsimp only at hcol
  omega

/-- A call that needs no more than the argument was made with one that fits. -/
theorem fits_of_set {s : List UInt8} (hs : 0 ∉ s) {t t' : Table}
    (h : set (s ++ [0]) t = some t') : Fits s := by
  rw [set_eq hs] at h
  obtain ⟨r, hloop, hwrite⟩ := Option.bind_eq_some_iff.mp h
  obtain ⟨hj, hk⟩ := Table.write_bounds hwrite
  by_cases hcolon : colon ∈ s
  · obtain ⟨x, y, rfl, hx⟩ := List.eq_append_cons_of_mem hcolon
    have hlx := setLoop_first_bound hx hloop
    obtain ⟨t₁, hfirst, hindex, hdrop⟩ := setLoop_first (y := y) hx hlx t
    rw [hfirst] at hloop
    obtain ⟨hy, hly⟩ := setLoop_second_bound hindex hdrop hloop hj hk
    exact .inr ⟨x, y, rfl, hx, hy, hlx, hly⟩
  · left
    refine ⟨hcolon, ?_⟩
    by_contra hlong
    have hne : s ≠ [] := by
      rintro rfl
      exact hlong (by decide)
    have hmem : (s ++ [0]).drop 0 = s ++ [0] := rfl
    have hbound := setLoop_chars_bound (n := 0) hcolon hne hmem
      (by rw [Nat.zero_add]; exact hloop)
    obtain ⟨t₁, hsingle, -⟩ := setLoop_single hcolon (by omega) t
    rw [hsingle] at hloop
    obtain rfl := Option.some.inj hloop
    dsimp only at hk
    omega

/-- **`set` stays inside its buffers** exactly for the arguments that fit. -/
theorem set_inside_iff (t : Table) (s : List UInt8) (hs : 0 ∉ s) (ht : t.indexPath < 10) :
    SetInside t s ↔ Fits s := by
  constructor
  · rintro ⟨t', hset, -, -⟩
    exact fits_of_set hs hset
  · exact fun h => h.inside hs ht

/-- `"a:b"`, on a table with an entry. -/
theorem set_inside_two :
    SetInside ⟨(Vector.replicate 10 (CBuf.zeros 128)).set 0
      (CBuf.load (CBuf.zeros 128) [47, 98, 105, 110, 47]), 1⟩ [97, 58, 98] :=
  (set_inside_iff _ _ (by decide) (by decide)).mpr
    (.inr ⟨[97], [98], rfl, by decide, by decide, by decide, by decide⟩)

/-- `"a:b:c"` reads behind its NUL. -/
theorem set_inside_fails : ¬ SetInside Table.empty [97, 58, 98, 58, 99] := by
  rintro ⟨t', hset, -, -⟩
  have hnone : (set ([97, 58, 98, 58, 99] ++ [0]) Table.empty).isSome = false := by decide +kernel
  rw [hset] at hnone
  cases hnone

end OsCourse.Path
