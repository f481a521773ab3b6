import OsCourse.Lib.CBuf

/-!
# OsCourse.Lib.CString

**C strings in character arrays**: the loops `while (!stop(b[i])) i++` and
`while (!stop(src[i])) dst[j++] = src[i++]`, with every subscript checked, and
the string an array holds.

`Holds b i l` says that the text `l` stands in `b` at position `i`. A loop that
starts there runs to the first character of the text at which it stops; it
cannot leave the array before, because the text is inside it. The fuel of the
loops is one more than the size of the array they walk through, and a walk that
used it up would have left the array: `none` always means a subscript outside.
-/

namespace OsCourse.Lib

namespace CBuf

variable {N M : Nat}

/-! ### Functions -/

/-- `char b[N]` after `memset(b, 0, N)`. -/
def zeros (N : Nat) : CBuf N := Vector.replicate N 0

/-- `b` after `read(fd, b, N)` delivered the bytes `l`. -/
def load (b : CBuf N) (l : List UInt8) : CBuf N := Vector.ofFn fun i => (l[i.val]?).getD b[i]

/-- `safestrcpy(b, s, N)`, for the text `l` from `s` to its NUL (or its first `N - 1`
characters). A NUL is also put behind the one that was copied. -/
def safestrcpy (b : CBuf N) (l : List UInt8) : CBuf N :=
  b.load ((l ++ [0]).take (N - 1) ++ [0])

/-- `while (!stop(b[i])) i++`: the final `i`. -/
def scan (stop : UInt8 → Bool) (b : CBuf N) : Nat → Nat → Option Nat
  | 0, _ => none
  | k + 1, i => do
      let c ← read b i
      if stop c then some i else scan stop b k (i + 1)

/-- `while (b[i] != c) i++`, and the like. -/
def scanFrom (stop : UInt8 → Bool) (b : CBuf N) (i : Nat) : Option Nat := scan stop b (N + 1) i

/-- `while (!stop(src[i])) { dst[j] = src[i]; i++; j++; }`: the final `i`, `dst`
and `j`. -/
def copy (stop : UInt8 → Bool) (src : CBuf N) :
    Nat → Nat → CBuf M → Nat → Option (Nat × CBuf M × Nat)
  | 0, _, _, _ => none
  | k + 1, i, dst, j => do
      let c ← read src i
      if stop c then some (i, dst, j)
      else do
        let dst ← write dst j c
        copy stop src k (i + 1) dst (j + 1)

/-- The copying loop. -/
def copyFrom (stop : UInt8 → Bool) (src : CBuf N) (i : Nat) (dst : CBuf M) (j : Nat) :
    Option (Nat × CBuf M × Nat) := copy stop src (N + 1) i dst j

/-- The string in `b`, up to its first NUL; `none` if there is no NUL. -/
def cstring (b : CBuf N) : Option (List UInt8) :=
  if 0 ∈ b.toList then some (b.toList.takeWhile (· ≠ 0)) else none

/-- `strncmp(b, prefix, strlen(prefix)) == 0`, for a prefix without NUL. -/
def startsWith (b : CBuf N) (word : List UInt8) : Bool := b.toList.take word.length = word

/-- `strcmp(b, s) == 0`, for a string `s`: the comparison goes no further than the
NUL of `s`. -/
def strcmp (b : CBuf N) (s : List UInt8) : Bool := startsWith b (s ++ [0])

/-! ### Text at a position -/

/-- The text `l` stands in `b` at position `i`. -/
def Holds (b : CBuf N) (i : Nat) (l : List UInt8) : Prop :=
  ∀ k c, l[k]? = some c → b[i + k]? = some c

theorem getElem?_zeros (N k : Nat) : (zeros N)[k]? = if k < N then some 0 else none := by
  by_cases h : k < N <;> simp [zeros, h]

theorem getElem?_load (b : CBuf N) (l : List UInt8) {k : Nat} (h : k < N) :
    (load b l)[k]? = if k < l.length then l[k]? else b[k]? := by
  rw [load, Vector.getElem?_ofFn, dif_pos h]
  by_cases hk : k < l.length
  · simp [hk]
  · simp [hk, h]

theorem holds_append {b : CBuf N} {i : Nat} {l l' : List UInt8} :
    Holds b i (l ++ l') ↔ Holds b i l ∧ Holds b (i + l.length) l' := by
  constructor
  · intro h
    refine ⟨fun k c hk => h k c ?_, fun k c hk => ?_⟩
    · rw [List.getElem?_append_left (List.getElem?_eq_some_iff.mp hk).1]
      exact hk
    · rw [Nat.add_assoc]
      refine h (l.length + k) c ?_
      rw [List.getElem?_append_right (Nat.le_add_right _ _), Nat.add_sub_cancel_left]
      exact hk
  · intro h k c hk
    by_cases hlt : k < l.length
    · rw [List.getElem?_append_left hlt] at hk
      exact h.1 k c hk
    · rw [List.getElem?_append_right (by omega)] at hk
      have hb := h.2 (k - l.length) c hk
      rwa [show i + l.length + (k - l.length) = i + k by omega] at hb

theorem holds_cons {b : CBuf N} {i : Nat} {c : UInt8} {l : List UInt8} :
    Holds b i (c :: l) ↔ b[i]? = some c ∧ Holds b (i + 1) l := by
  rw [← List.singleton_append, holds_append]
  constructor
  · intro h
    exact ⟨h.1 0 c rfl, h.2⟩
  · intro h
    refine ⟨fun k d hk => ?_, h.2⟩
    cases k with
    | zero =>
        obtain rfl : c = d := by simpa using hk
        exact h.1
    | succ k => simp at hk

theorem holds_singleton {b : CBuf N} {i : Nat} {c : UInt8} : Holds b i [c] ↔ b[i]? = some c := by
  rw [holds_cons]
  exact ⟨fun h => h.1, fun h => ⟨h, fun k d hk => by simp at hk⟩⟩

/-- Text at a position is what the elements from there on start with. -/
theorem holds_iff_drop {b : CBuf N} {i : Nat} {l : List UInt8} :
    Holds b i l ↔ l <+: b.toList.drop i := by
  rw [List.prefix_iff_getElem?]
  constructor
  · intro h k hk
    have hb := h k _ (List.getElem?_eq_getElem hk)
    simpa using hb
  · intro h k c hk
    obtain ⟨hlt, rfl⟩ := List.getElem?_eq_some_iff.mp hk
    have hb := h k hlt
    simpa using hb

/-- Text inside the array is a slice of it. -/
theorem Holds.slice {b : CBuf N} {i : Nat} {l : List UInt8} (h : Holds b i l) :
    slice b i (i + l.length) = l := by
  refine List.ext_getElem? fun k => ?_
  rw [getElem?_slice]
  by_cases hk : k < l.length
  · rw [if_pos (by omega), h k _ (List.getElem?_eq_getElem hk), List.getElem?_eq_getElem hk]
  · rw [if_neg (by omega), List.getElem?_eq_none (by omega)]

/-- What has been read into an array stands at its start, as far as it fits. -/
theorem holds_load (b : CBuf N) (l l' : List UInt8) (h : l.length ≤ N) :
    Holds (load b (l ++ l')) 0 l := by
  intro k c hk
  have hlt := (List.getElem?_eq_some_iff.mp hk).1
  rw [Nat.zero_add, getElem?_load b _ (by omega), if_pos (by rw [List.length_append]; omega),
    List.getElem?_append_left hlt, hk]

/-- What a zeroed array holds after a `read`. -/
theorem toList_load_zeros (N : Nat) (l : List UInt8) :
    (load (zeros N) l).toList = l.take N ++ List.replicate (N - l.length) 0 := by
  refine List.ext_getElem? fun k => ?_
  rw [Vector.getElem?_toList]
  rcases Nat.lt_or_ge k N with hk | hk
  · rw [getElem?_load _ _ hk, getElem?_zeros, if_pos hk, List.getElem?_append, List.length_take,
      List.getElem?_take, List.getElem?_replicate]
    split_ifs <;> first | rfl | omega
  · rw [Vector.getElem?_eq_none hk, List.getElem?_eq_none]
    rw [List.length_append, List.length_take, List.length_replicate]
    omega

/-- After the bytes read, a zeroed array holds a NUL. -/
theorem getElem?_load_zeros {l : List UInt8} (h : l.length < N) :
    (load (zeros N) l)[l.length]? = some 0 := by
  rw [getElem?_load _ _ h, if_neg (Nat.lt_irrefl _), getElem?_zeros, if_pos h]

/-- A write elsewhere leaves the text alone. -/
theorem Holds.set {b : CBuf N} {i : Nat} {l : List UInt8} (h : Holds b i l) {j : Nat}
    (hj : j < N) (hout : j < i ∨ i + l.length ≤ j) (c : UInt8) : Holds (b.set j c) i l := by
  intro k d hk
  have hlt := (List.getElem?_eq_some_iff.mp hk).1
  rw [getElem?_set _ hj, if_neg (by omega)]
  exact h k d hk

/-- One more character behind the text. -/
theorem Holds.concat {b : CBuf N} {i : Nat} {l : List UInt8} (h : Holds b i l)
    (hroom : i + l.length < N) (c : UInt8) : Holds (b.set (i + l.length) c) i (l ++ [c]) := by
  rw [holds_append, holds_singleton]
  exact ⟨h.set hroom (.inr (Nat.le_refl _)) c, by rw [getElem?_set _ hroom, if_pos rfl]⟩

/-! ### The loops -/

section Loops

variable {stop : UInt8 → Bool} {l : List UInt8} {x : UInt8}

theorem scan_spec {b : CBuf N} (hl : ∀ c ∈ l, stop c = false) (hx : stop x = true) {i k : Nat}
    (h : Holds b i (l ++ [x])) (hk : l.length < k) : scan stop b k i = some (i + l.length) := by
  induction l generalizing i k with
  | nil =>
      obtain ⟨k, rfl⟩ := Nat.exists_eq_succ_of_ne_zero (Nat.ne_of_gt hk)
      rw [List.nil_append, holds_singleton] at h
      rw [scan, read_natCast, h, Option.bind_eq_bind, Option.bind_some, hx, if_pos rfl]
      rfl
  | cons c l ih =>
      obtain ⟨k, rfl⟩ := Nat.exists_eq_succ_of_ne_zero (Nat.ne_of_gt (Nat.zero_lt_of_lt hk))
      rw [List.cons_append, holds_cons] at h
      rw [scan, read_natCast, h.1, Option.bind_eq_bind, Option.bind_some,
        hl c List.mem_cons_self, if_neg (by simp),
        ih (fun d hd => hl d (List.mem_cons_of_mem c hd)) h.2 (Nat.lt_of_succ_lt_succ hk),
        List.length_cons, Nat.add_assoc, Nat.add_comm 1]

/-- The scan ends at the first character it stops at. -/
theorem scanFrom_spec {b : CBuf N} (hl : ∀ c ∈ l, stop c = false) (hx : stop x = true) {i : Nat}
    (h : Holds b i (l ++ [x])) : scanFrom stop b i = some (i + l.length) := by
  have hlast := (holds_append.mp h).2
  rw [holds_singleton] at hlast
  have hlt : i + l.length < N := by
    by_contra hge
    rw [Vector.getElem?_eq_none (by omega)] at hlast
    cases hlast
  exact scan_spec hl hx h (by omega)

theorem copy_spec {src : CBuf N} (hl : ∀ c ∈ l, stop c = false) (hx : stop x = true) {i k : Nat}
    (h : Holds src i (l ++ [x])) (hk : l.length < k) {dst : CBuf M} {j : Nat}
    (hj : j + l.length ≤ M) :
    ∃ dst', copy stop src k i dst j = some (i + l.length, dst', j + l.length) ∧
      Holds dst' j l ∧ ∀ m, m < j ∨ j + l.length ≤ m → dst'[m]? = dst[m]? := by
  induction l generalizing i k dst j with
  | nil =>
      obtain ⟨k, rfl⟩ := Nat.exists_eq_succ_of_ne_zero (Nat.ne_of_gt hk)
      rw [List.nil_append, holds_singleton] at h
      refine ⟨dst, ?_, fun m c hm => by simp at hm, fun m _ => rfl⟩
      rw [copy, read_natCast, h, Option.bind_eq_bind, Option.bind_some, hx, if_pos rfl]
      rfl
  | cons c l ih =>
      obtain ⟨k, rfl⟩ := Nat.exists_eq_succ_of_ne_zero (Nat.ne_of_gt (Nat.zero_lt_of_lt hk))
      rw [List.length_cons] at hj hk ⊢
      rw [List.cons_append, holds_cons] at h
      have hjM : j < M := by omega
      have htail : ∀ d ∈ l, stop d = false := fun d hd => hl d (List.mem_cons_of_mem c hd)
      obtain ⟨dst', hcopy, hholds, hrest⟩ :=
        @ih htail (i + 1) k h.2 (Nat.lt_of_succ_lt_succ hk) (dst.set j c) (j + 1) (by omega)
      refine ⟨dst', ?_, holds_cons.mpr ⟨?_, hholds⟩, fun m hm => ?_⟩
      · rw [copy, read_natCast, h.1, Option.bind_eq_bind, Option.bind_some,
          hl c List.mem_cons_self, if_neg (by simp), write_natCast _ hjM, Option.bind_eq_bind,
          Option.bind_some, hcopy]
        congr 2
        · omega
        · congr 1
          omega
      · rw [hrest j (by omega), getElem?_set _ hjM, if_pos rfl]
      · rw [hrest m (by omega), getElem?_set _ hjM, if_neg (by omega)]

/-- The copy moves the text up to the first character it stops at. -/
theorem copyFrom_spec {src : CBuf N} (hl : ∀ c ∈ l, stop c = false) (hx : stop x = true)
    {i : Nat} (h : Holds src i (l ++ [x])) (dst : CBuf M) {j : Nat} (hj : j + l.length ≤ M) :
    ∃ dst', copyFrom stop src i dst j = some (i + l.length, dst', j + l.length) ∧
      Holds dst' j l ∧ ∀ m, m < j ∨ j + l.length ≤ m → dst'[m]? = dst[m]? := by
  have hlast := (holds_append.mp h).2
  rw [holds_singleton] at hlast
  have hlt : i + l.length < N := by
    by_contra hge
    rw [Vector.getElem?_eq_none (by omega)] at hlast
    cases hlast
  exact copy_spec hl hx h (by omega) hj

/-- A scan that ends has found a character to stop at. -/
theorem scan_eq_some {b : CBuf N} {k i r : Nat} (h : scan stop b k i = some r) :
    ∃ l x, (∀ c ∈ l, stop c = false) ∧ stop x = true ∧ Holds b i (l ++ [x]) := by
  induction k generalizing i with
  | zero => cases h
  | succ k ih =>
      rw [scan, read_natCast, Option.bind_eq_bind, Option.bind_eq_some_iff] at h
      obtain ⟨c, hc, h⟩ := h
      by_cases hstop : stop c = true
      · exact ⟨[], c, by simp, hstop, holds_singleton.mpr hc⟩
      · rw [if_neg hstop] at h
        obtain ⟨l, x, hl, hx, hholds⟩ := ih h
        refine ⟨c :: l, x, fun d hd => ?_, hx, holds_cons.mpr ⟨hc, hholds⟩⟩
        rcases List.mem_cons.mp hd with rfl | hd
        · simpa using hstop
        · exact hl d hd

/-- A copy that ends has found a character to stop at, and room for those before. -/
theorem copy_eq_some {src : CBuf N} {k i j : Nat} {dst : CBuf M} {r : Nat × CBuf M × Nat}
    (hj : j ≤ M) (h : copy stop src k i dst j = some r) :
    ∃ l x, (∀ c ∈ l, stop c = false) ∧ stop x = true ∧ Holds src i (l ++ [x]) ∧
      j + l.length ≤ M := by
  induction k generalizing i dst j with
  | zero => cases h
  | succ k ih =>
      rw [copy, read_natCast, Option.bind_eq_bind, Option.bind_eq_some_iff] at h
      obtain ⟨c, hc, h⟩ := h
      by_cases hstop : stop c = true
      · exact ⟨[], c, by simp, hstop, holds_singleton.mpr hc, hj⟩
      · rw [if_neg hstop, Option.bind_eq_bind, Option.bind_eq_some_iff] at h
        obtain ⟨dst', hwrite, h⟩ := h
        have hlt : j < M := by
          by_contra hge
          rw [write_of_le dst (by omega) c] at hwrite
          cases hwrite
        obtain ⟨l, x, hl, hx, hholds, hroom⟩ := ih hlt h
        refine ⟨c :: l, x, fun d hd => ?_, hx, holds_cons.mpr ⟨hc, hholds⟩, ?_⟩
        · rcases List.mem_cons.mp hd with rfl | hd
          · simpa using hstop
          · exact hl d hd
        · rw [List.length_cons]
          omega

/-- What stands before the first character to stop at. -/
theorem takeWhile_of_prefix {m : List UInt8} (hl : ∀ c ∈ l, stop c = false) (hx : stop x = true)
    (h : l ++ [x] <+: m) : m.takeWhile (fun c => !stop c) = l := by
  obtain ⟨rest, rfl⟩ := h
  rw [List.append_assoc, List.takeWhile_append_of_pos (fun c hc => by simp [hl c hc])]
  simp [hx]

/-- There is a text up to a character to stop at iff there is such a character. -/
theorem exists_holds_iff {b : CBuf N} {i : Nat} :
    (∃ l x, (∀ c ∈ l, stop c = false) ∧ stop x = true ∧ Holds b i (l ++ [x])) ↔
      ∃ c ∈ b.toList.drop i, stop c = true := by
  simp only [holds_iff_drop]
  generalize b.toList.drop i = m
  constructor
  · intro h
    obtain ⟨l, x, -, hx, hprefix⟩ := h
    exact ⟨x, hprefix.subset (by simp), hx⟩
  · intro h
    obtain ⟨c, hc, hstop⟩ := h
    obtain ⟨x, hfind⟩ := Option.isSome_iff_exists.mp
      (List.find?_isSome.mpr ⟨c, hc, hstop⟩ : (m.find? stop).isSome)
    obtain ⟨hx, l, rest, rfl, hl⟩ := List.find?_eq_some_iff_append.mp hfind
    exact ⟨l, x, fun d hd => by simpa using hl d hd, hx, ⟨rest, by simp⟩⟩

/-- The scan stays inside iff there is a character to stop at. -/
theorem scanFrom_isSome_iff {b : CBuf N} {i : Nat} :
    (∃ r, scanFrom stop b i = some r) ↔
      ∃ l x, (∀ c ∈ l, stop c = false) ∧ stop x = true ∧ Holds b i (l ++ [x]) := by
  constructor
  · intro h
    obtain ⟨r, h⟩ := h
    exact scan_eq_some h
  · intro h
    obtain ⟨l, x, hl, hx, hholds⟩ := h
    exact ⟨_, scanFrom_spec hl hx hholds⟩

/-- The copy stays inside iff, in addition, what it moves fits. -/
theorem copyFrom_isSome_iff {src : CBuf N} {i : Nat} {dst : CBuf M} {j : Nat} (hj : j ≤ M) :
    (∃ r, copyFrom stop src i dst j = some r) ↔
      ∃ l x, (∀ c ∈ l, stop c = false) ∧ stop x = true ∧ Holds src i (l ++ [x]) ∧
        j + l.length ≤ M := by
  constructor
  · intro h
    obtain ⟨r, h⟩ := h
    exact copy_eq_some hj h
  · intro h
    obtain ⟨l, x, hl, hx, hholds, hroom⟩ := h
    obtain ⟨dst', hcopy, -⟩ := copyFrom_spec hl hx hholds dst hroom
    exact ⟨_, hcopy⟩

/-- The string of an array that starts with the text `l` and a NUL. -/
theorem cstring_spec {b : CBuf N} (hl : 0 ∉ l) (h : Holds b 0 (l ++ [0])) :
    cstring b = some l := by
  have hslice := h.slice
  rw [Nat.zero_add, CBuf.slice, List.drop_zero] at hslice
  have hb : b.toList = l ++ 0 :: b.toList.drop (l ++ [0]).length := by
    conv_lhs => rw [← List.take_append_drop (l ++ [0]).length b.toList, hslice]
    simp
  have hmem : 0 ∈ b.toList := by
    rw [hb]
    simp
  have htake : b.toList.takeWhile (· ≠ 0) = l := by
    rw [hb, List.takeWhile_append_of_pos]
    · simp
    · intro c hc
      have hne : c ≠ 0 := fun heq => hl (heq ▸ hc)
      simpa using hne
  rw [cstring, if_pos hmem, htake]

/-- The comparison of an array that holds the string `l` with another string. -/
theorem strcmp_spec {b : CBuf N} {s : List UInt8} (hl : 0 ∉ l) (hs : 0 ∉ s)
    (h : Holds b 0 (l ++ [0])) : strcmp b s = decide (l = s) := by
  have hiff : b.toList.take (s ++ [0]).length = s ++ [0] ↔ l = s := by
    rw [eq_comm, ← List.prefix_iff_eq_take]
    constructor
    · intro hprefix
      have hholds : Holds b 0 (s ++ [0]) := holds_iff_drop.mpr hprefix
      exact Option.some.inj ((cstring_spec hl h).symm.trans (cstring_spec hs hholds))
    · intro heq
      exact heq ▸ holds_iff_drop.mp h
  rw [strcmp, startsWith]
  exact decide_eq_decide.mpr hiff

/-- The comparison of an array that starts with the text `l` with a shorter word. -/
theorem startsWith_of_holds {b : CBuf N} {word rest : List UInt8} (h : Holds b 0 (l ++ rest))
    (hlen : word.length ≤ l.length) :
    startsWith b word = decide (l.take word.length = word) := by
  have hslice := (holds_append.mp h).1.slice
  rw [Nat.zero_add, CBuf.slice, List.drop_zero] at hslice
  have htake : b.toList.take word.length = l.take word.length := by
    rw [← hslice, List.take_take, Nat.min_eq_left hlen]
  rw [startsWith, htake]

end Loops

end CBuf

end OsCourse.Lib
