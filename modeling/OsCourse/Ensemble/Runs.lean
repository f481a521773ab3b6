import OsCourse.Ensemble.Model

/-!
# OsCourse.Ensemble.Runs

Two runs of the ensemble in one directory. The second writes over the files of
the first without shortening them, so the voter reads the labels of the second
run and then whatever the rest of a longer file says (`read_second`).

The rest of a rendered list of labels says nothing only if it is empty or the
last line feed (`readAll_drop_render`): cut anywhere else it ends in a number.
-/

namespace OsCourse.Ensemble

open OsCourse.Lib

/-! ### Reading numbers -/

/-- The numbers in a text. -/
abbrev readAll (l : List UInt8) : List Int := readInts l.length l

theorem readDigits_length {neg : Bool} {l rest : List UInt8} {v : Int}
    (h : readDigits neg l = some (v, rest)) : rest.length < l.length := by
  simp only [readDigits, Option.ite_none_left_eq_some, Option.some.injEq, Prod.mk.injEq,
    not_or] at h
  obtain ⟨⟨hdigits, -⟩, -, rfl⟩ := h
  have hsplit := congrArg List.length (List.takeWhile_append_dropWhile (p := isDigit) (l := l))
  rw [List.length_append] at hsplit
  have hpos := List.length_pos_iff.mpr hdigits
  omega

theorem readInt_length {l rest : List UInt8} {v : Int} (h : readInt l = some (v, rest)) :
    rest.length < l.length := by
  have hlt := readDigits_length h
  have hskip : (skipSign (l.dropWhile isSpace)).length ≤ (l.dropWhile isSpace).length := by
    rw [skipSign]
    split
    · rw [List.length_tail]
      omega
    · exact le_rfl
  have hdrop := (List.dropWhile_sublist (p := isSpace) (l := l)).length_le
  omega

/-- More turns than bytes make no difference. -/
theorem readInts_of_le {k : Nat} {l : List UInt8} (h : l.length ≤ k) :
    readInts k l = readAll l := by
  suffices hall : ∀ n, l.length ≤ n → n ≤ k → readInts k l = readInts n l from hall _ le_rfl h
  induction k generalizing l with
  | zero =>
      intro n hl hn
      obtain rfl : n = 0 := by omega
      rfl
  | succ k ih =>
      intro n hl hn
      cases n with
      | zero =>
          obtain rfl : l = [] := List.length_eq_zero_iff.mp (by omega)
          rfl
      | succ n =>
          rw [readInts, readInts]
          cases hr : readInt l with
          | none => rfl
          | some r =>
              have hlen := readInt_length hr
              simp only
              rw [ih (l := r.2) (by omega) n (by omega) (by omega)]

theorem readAll_of_none {l : List UInt8} (h : readInt l = none) : readAll l = [] := by
  rw [readAll]
  cases l with
  | nil => rfl
  | cons c l => rw [List.length_cons, readInts, h]

theorem readAll_of_some {l rest : List UInt8} {v : Int} (h : readInt l = some (v, rest)) :
    readAll l = v :: readAll rest := by
  have hlen := readInt_length h
  obtain ⟨c, l, rfl⟩ := List.exists_cons_of_ne_nil (l := l) (by rintro rfl; simp at hlen)
  rw [readAll, List.length_cons, readInts, h]
  simp only
  rw [readInts_of_le (by rw [List.length_cons] at hlen; omega)]

/-- Spaces in front are skipped. -/
theorem readInt_space {c : UInt8} (hc : isSpace c = true) (l : List UInt8) :
    readInt (c :: l) = readInt l := by
  unfold readInt
  rw [List.dropWhile_cons_of_pos hc]

theorem readAll_space {c : UInt8} (hc : isSpace c = true) (l : List UInt8) :
    readAll (c :: l) = readAll l := by
  have hskip := readInt_space hc l
  rcases hr : readInt l with _ | ⟨v, rest⟩
  · rw [hr] at hskip
    rw [readAll_of_none hr, readAll_of_none hskip]
  · rw [hr] at hskip
    rw [readAll_of_some hr, readAll_of_some hskip]

/-! ### Digits -/

/-- The characters of digits. -/
def chars (ds : List Nat) : List UInt8 := ds.map digitChar

theorem toNat_char {d : Nat} (h : d < 10) : (digitChar d).toNat = 48 + d := by
  rw [digitChar, UInt8.toNat_ofNat']
  omega

theorem isDigit_char {d : Nat} (h : d < 10) : isDigit (digitChar d) = true := by
  have hc := toNat_char h
  simp only [isDigit, Bool.and_eq_true, decide_eq_true_eq, UInt8.le_iff_toNat_le, hc]
  exact ⟨by simp, by simp; omega⟩

theorem not_isSpace_char {d : Nat} (h : d < 10) : isSpace (digitChar d) = false := by
  have hc := toNat_char h
  have hne : digitChar d ≠ 32 := fun he => by
    rw [he] at hc
    have hval : UInt8.toNat 32 = 32 := rfl
    omega
  have hgt : ¬ digitChar d ≤ 13 := fun hle => by
    rw [UInt8.le_iff_toNat_le, hc] at hle
    have hval : UInt8.toNat 13 = 13 := rfl
    omega
  simp [isSpace, hne, hgt]

theorem char_ne_sign {d : Nat} (h : d < 10) :
    digitChar d ≠ 45 ∧ digitChar d ≠ 43 := by
  have hc := toNat_char h
  constructor <;> intro he <;> rw [he] at hc
  · have hval : UInt8.toNat 45 = 45 := rfl
    omega
  · have hval : UInt8.toNat 43 = 43 := rfl
    omega

/-- The digits are read up to the first character that is none. -/
theorem takeWhile_chars {ds : List Nat} (hds : ∀ d ∈ ds, d < 10) {rest : List UInt8}
    (hrest : ∀ c ∈ rest.head?, isDigit c = false) :
    (chars ds ++ rest).takeWhile isDigit = chars ds ∧
      (chars ds ++ rest).dropWhile isDigit = rest := by
  have hall : ∀ c ∈ chars ds, isDigit c = true := by
    intro c hc
    obtain ⟨d, hd, rfl⟩ := List.mem_map.mp hc
    exact isDigit_char (hds d hd)
  have hnone : rest.takeWhile isDigit = [] ∧ rest.dropWhile isDigit = rest := by
    cases rest with
    | nil => exact ⟨rfl, rfl⟩
    | cons c rest =>
        have hc : ¬ isDigit c = true := by simpa using hrest c rfl
        exact ⟨List.takeWhile_cons_of_neg hc, List.dropWhile_cons_of_neg hc⟩
  rw [List.takeWhile_append_of_pos hall, List.dropWhile_append_of_pos hall, hnone.1, hnone.2,
    List.append_nil]
  exact ⟨rfl, rfl⟩

theorem map_chars {ds : List Nat} (hds : ∀ d ∈ ds, d < 10) :
    (chars ds).map (fun c => c.toNat - 48) = ds := by
  rw [chars, List.map_map]
  refine (List.map_congr_left fun d hd => ?_).trans (List.map_id ds)
  rw [Function.comp_apply, toNat_char (hds d hd)]
  exact Nat.add_sub_cancel_left ..

/-- A numeral that is an `int` is read. -/
theorem readInt_chars {ds : List Nat} (hne : ds ≠ []) (hds : ∀ d ∈ ds, d < 10)
    (hmax : numeral 10 ds ≤ 2147483647) (rest : List UInt8)
    (hrest : ∀ c ∈ rest.head?, isDigit c = false) :
    readInt (chars ds ++ rest) = some ((numeral 10 ds : Int), rest) := by
  obtain ⟨htake, hdrop⟩ := takeWhile_chars hds hrest
  obtain ⟨d, ds', rfl⟩ := List.exists_cons_of_ne_nil hne
  have hd : d < 10 := hds d List.mem_cons_self
  have hhead : (chars (d :: ds') ++ rest).head? = some (digitChar d) := rfl
  have hspace : (chars (d :: ds') ++ rest).dropWhile isSpace = chars (d :: ds') ++ rest :=
    List.dropWhile_cons_of_neg (by rw [not_isSpace_char hd]; exact Bool.false_ne_true)
  obtain ⟨hminus, hplus⟩ := char_ne_sign hd
  have hsign : skipSign (chars (d :: ds') ++ rest) = chars (d :: ds') ++ rest := by
    rw [skipSign, hhead, if_neg]
    simp [hminus, hplus]
  have hpos : decide ((chars (d :: ds') ++ rest).head? = some 45) = false := by
    rw [hhead]
    simp [hminus]
  unfold readInt
  simp only [hspace, hsign, hpos]
  rw [readDigits, htake, hdrop, map_chars hds, if_neg]
  · rfl
  · simp only [Bool.false_eq_true, if_false, not_or, chars, List.map_cons]
    refine ⟨List.cons_ne_nil _ _, ?_, ?_⟩ <;> omega

/-! ### Rendered labels -/

/-- The digits of a number. -/
def digitsOf (n : Nat) : List Nat := if n = 0 then [0] else (Nat.digits 10 n).reverse

theorem to_string_eq (n : Nat) : to_string n = chars (digitsOf n) := rfl

theorem digitsOf_spec (n : Nat) :
    digitsOf n ≠ [] ∧ (∀ d ∈ digitsOf n, d < 10) ∧ numeral 10 (digitsOf n) = n := by
  rw [digitsOf]
  split
  · next h =>
    subst h
    exact ⟨by simp, by simp, by simp⟩
  · next h =>
    refine ⟨?_, fun d hd => ?_, ?_⟩
    · simpa [Nat.digits_eq_nil_iff_eq_zero] using h
    · exact Nat.digits_lt_base (by decide) (List.mem_reverse.mp hd)
    · rw [numeral, List.reverse_reverse, Nat.ofDigits_digits]

theorem readAll_line {n : Nat} (hn : n < 2147483648) (rest : List UInt8) :
    readAll (to_string n ++ 10 :: rest) = (n : Int) :: readAll rest := by
  obtain ⟨hne, hds, hnum⟩ := digitsOf_spec n
  have hread := readInt_chars hne hds (by omega) (10 :: rest)
    (by intro c hc; obtain rfl : 10 = c := Option.some.inj hc; rfl)
  rw [to_string_eq, readAll_of_some hread, hnum, readAll_space rfl]

/-- The labels are read back, and then whatever follows. -/
theorem readAll_render {ls : List Nat} (hls : ∀ n ∈ ls, n < 2147483648) (rest : List UInt8) :
    readAll (render ls ++ rest) = ls.map (fun n : Nat => (n : Int)) ++ readAll rest := by
  induction ls with
  | nil => rfl
  | cons n ls ih =>
      have hcons : render (n :: ls) ++ rest = to_string n ++ 10 :: (render ls ++ rest) := by
        simp [render]
      rw [hcons, readAll_line (hls n List.mem_cons_self),
        ih fun m hm => hls m (List.mem_cons_of_mem _ hm)]
      rfl

/-- The rest of a numeral is no greater number. -/
theorem numeral_drop_le (ds : List Nat) (m : Nat) : numeral 10 (ds.drop m) ≤ numeral 10 ds := by
  have happ := numeral_append (b := 10) (ds.take m) (ds.drop m)
  rw [List.take_append_drop] at happ
  omega

/-- What is left of rendered labels reads as no number only if it is no more
than the last line feed. -/
theorem readAll_drop_render {ls : List Nat} (hls : ∀ n ∈ ls, n < 2147483648) (m : Nat) :
    readAll ((render ls).drop m) = [] ↔ ((render ls).drop m).length ≤ 1 := by
  induction ls generalizing m with
  | nil =>
      have hnil : render [] = [] := rfl
      rw [hnil, List.drop_nil]
      exact iff_of_true rfl (Nat.zero_le 1)
  | cons n ls ih =>
      have hcons : render (n :: ls) = to_string n ++ 10 :: render ls := by simp [render]
      have hrest : ∀ k ∈ ls, k < 2147483648 := fun k hk => hls k (List.mem_cons_of_mem _ hk)
      rcases Nat.lt_trichotomy m (to_string n).length with hlt | heq | hgt
      · -- cut inside the number: its last digits are left
        obtain ⟨hne, hds, hnum⟩ := digitsOf_spec n
        have hn := hls n List.mem_cons_self
        have hdrop : (render (n :: ls)).drop m = chars ((digitsOf n).drop m) ++ 10 :: render ls := by
          rw [hcons, List.drop_append_of_le_length hlt.le, to_string_eq, chars, chars,
            List.map_drop]
        have hleft : (digitsOf n).drop m ≠ [] := by
          rw [to_string_eq, chars, List.length_map] at hlt
          simpa using hlt
        have hle := numeral_drop_le (digitsOf n) m
        have hread := readInt_chars hleft (fun d hd => hds d (List.mem_of_mem_drop hd)) (by omega)
          (10 :: render ls) (by intro c hc; obtain rfl : 10 = c := Option.some.inj hc; rfl)
        refine iff_of_false ?_ ?_
        · rw [hdrop, readAll_of_some hread]
          exact List.cons_ne_nil _ _
        · have hpos := List.length_pos_iff.mpr hleft
          rw [hdrop, List.length_append, List.length_cons, chars, List.length_map]
          omega
      · -- cut in front of a line feed
        have hdrop : (render (n :: ls)).drop m = 10 :: render ls := by
          rw [hcons, heq, List.drop_left]
        have hall := readAll_render hrest []
        rw [List.append_nil] at hall
        have hnil : readAll ([] : List UInt8) = [] := rfl
        rw [hdrop, readAll_space rfl, hall, hnil, List.append_nil, List.map_eq_nil_iff]
        cases ls with
        | nil => simp [render]
        | cons k ls =>
            have hlong : 1 ≤ (render (k :: ls)).length := by simp [render]; omega
            refine iff_of_false (List.cons_ne_nil _ _) ?_
            rw [List.length_cons]
            omega
      · -- the line is gone
        obtain ⟨r, rfl⟩ := Nat.exists_eq_add_of_lt hgt
        have hdrop : (render (n :: ls)).drop ((to_string n).length + r + 1) =
            (render ls).drop r := by
          rw [hcons, Nat.add_assoc, List.drop_append]
          simp
        rw [hdrop]
        exact ih hrest _

/-! ### Runs -/

variable {weights : List (List Weight)} {data A B : List Row} {d d₁ d₂ : Dir}

/-- The index is one of the rows, or what it was. -/
theorem scan_index_lt {x : Row} {ws : List Weight} {j k : Nat} {max : ℚ} {index : Option Nat}
    (h : (scan x ws j max index).2 = some k) : index = some k ∨ k < j + ws.length := by
  induction ws generalizing j max index with
  | nil => exact .inl h
  | cons w ws ih =>
      rw [scan] at h
      rw [List.length_cons]
      split_ifs at h with hgt
      · rcases ih h with hj | hlt
        · obtain rfl := Option.some.inj hj
          exact .inr (by omega)
        · exact .inr (by omega)
      · rcases ih h with hindex | hlt
        · exact .inl hindex
        · exact .inr (by omega)

/-- The indices fit into an `int`. -/
theorem indices_lt {ws : List Weight} {index : Option Nat} {ls : List Nat}
    (hindex : ∀ k, index = some k → k < ws.length) (h : indices ws index data = some ls) :
    ∀ n ∈ ls, n < 2147483648 := by
  induction data generalizing index ls with
  | nil =>
      obtain rfl : [] = ls := Option.some.inj h
      simp
  | cons x rows ih =>
      simp only [indices] at h
      split at h
      · cases h
      · next j hscan =>
        rw [Option.ite_none_right_eq_some, Option.map_eq_some_iff] at h
        obtain ⟨hlen, ls, hls, rfl⟩ := h
        have hj : j < ws.length := by
          rcases scan_index_lt hscan with hold | hlt
          · exact hindex j hold
          · rwa [Nat.zero_add] at hlt
        intro n hn
        rcases List.mem_cons.mp hn with rfl | hn
        · exact Nat.lt_trans hj hlen
        · refine ih (fun k hk => ?_) hls n hn
          obtain rfl := Option.some.inj hk
          exact hj

theorem labels_lt {ws : List Weight} {ls : List Nat} (h : labels ws data = some ls) :
    ∀ n ∈ ls, n < 2147483648 := indices_lt (fun k hk => by cases hk) h

/-- What classifier `i` writes, over what is there. -/
theorem classifierMain_eq {ws : List Weight} {i : Nat} :
    classifierMain ws data i d = (calculate ws data).map fun result =>
      Function.update d i (some (overlay ((d i).getD []) 0 result)) := by
  unfold classifierMain
  cases calculate ws data with
  | none => rfl
  | some result => simp [writeFifo, openFifo]

/-- A run writes the file of every classifier, and no other. -/
theorem create_classifiers_spec (h : create_classifiers weights data d = some d₁) :
    ∀ i w, weights[i]? = some w → ∃ result, calculate w data = some result ∧
      d₁ i = some (overlay ((d i).getD []) 0 result) := by
  have hgen : ∀ (ws : List (List Weight)) (k : Nat) (d d₁ : Dir),
      (ws.zipIdx k).foldlM (fun d w => classifierMain w.1 data w.2 d) d = some d₁ →
        (∀ i, i < k → d₁ i = d i) ∧
        ∀ i w, ws[i]? = some w → ∃ result, calculate w data = some result ∧
          d₁ (k + i) = some (overlay ((d (k + i)).getD []) 0 result) := by
    intro ws
    induction ws with
    | nil =>
        intro k d d₁ h
        obtain rfl : d = d₁ := Option.some.inj h
        exact ⟨fun _ _ => rfl, by simp⟩
    | cons w ws ih =>
        intro k d d₁ h
        rw [List.zipIdx_cons, List.foldlM_cons, Option.bind_eq_bind, Option.bind_eq_some_iff] at h
        obtain ⟨d', hfirst, hrest⟩ := h
        rw [classifierMain_eq, Option.map_eq_some_iff] at hfirst
        obtain ⟨result, hresult, rfl⟩ := hfirst
        obtain ⟨hsame, hfiles⟩ := ih (k + 1) _ _ hrest
        refine ⟨fun i hi => ?_, fun i w' hw' => ?_⟩
        · rw [hsame i (by omega), Function.update_of_ne (by omega)]
        · cases i with
          | zero =>
              obtain rfl : w = w' := by simpa using hw'
              refine ⟨result, hresult, ?_⟩
              rw [Nat.add_zero, hsame k (by omega), Function.update_self]
          | succ i =>
              obtain ⟨result', hresult', hfile⟩ := hfiles i w' (by simpa using hw')
              have hne : k + 1 + i ≠ k := by omega
              refine ⟨result', hresult', ?_⟩
              rw [Function.update_of_ne hne] at hfile
              have hindex : k + 1 + i = k + (i + 1) := by omega
              rw [← hindex]
              exact hfile
  intro i w hw
  simpa using (hgen weights 0 d d₁ h).2 i w hw

/-- What the second run leaves beyond its own bytes. -/
def leftover (old : Option (List UInt8)) (a b : List UInt8) : List UInt8 :=
  (overlay (old.getD []) 0 a).drop b.length

/-- In the second run the voter reads the labels, and what is left over. -/
theorem read_second (hA : create_classifiers weights A d = some d₁)
    (hB : create_classifiers weights B d₁ = some d₂) {i : Nat} {w : List Weight}
    (hw : weights[i]? = some w) :
    ∃ a ls, calculate w A = some a ∧ labels w B = some ls ∧
      read_from_csv (d₂ i) = ls.map (fun n : Nat => (n : Int)) ++
        readAll (leftover (d i) a (render ls)) := by
  obtain ⟨a, ha, hfirst⟩ := create_classifiers_spec hA i w hw
  obtain ⟨b, hb, hsecond⟩ := create_classifiers_spec hB i w hw
  rw [calculate, Option.map_eq_some_iff] at hb
  obtain ⟨ls, hls, rfl⟩ := hb
  refine ⟨a, ls, ha, hls, ?_⟩
  rw [hsecond, hfirst, Option.getD_some, overlay_zero]
  exact readAll_render (labels_lt hls) _

/-- The vector of labels the voter reads from every file is the list the
classifier computed. -/
def VoterReads (weights : List (List Weight)) (B : List Row) (d₂ : Dir) : Prop :=
  ∀ i w ls, weights[i]? = some w → labels w B = some ls →
    read_from_csv (d₂ i) = ls.map fun n : Nat => (n : Int)

/-- **When a run does not see the run before it.** After a run on `A` and a run
on `B` the voter reads the labels of `B` iff no file says anything beyond what
was written for `B`: in a directory without such files, iff no output for `A` is
more than one byte longer than the output for `B`. -/
theorem second_run_iff (weights : List (List Weight)) (A B : List Row) (d d₁ d₂ : Dir)
    (hA : create_classifiers weights A d = some d₁)
    (hB : create_classifiers weights B d₁ = some d₂) :
    (VoterReads weights B d₂ ↔ ∀ i w a b, weights[i]? = some w → calculate w A = some a →
      calculate w B = some b → read_from_csv (some (leftover (d i) a b)) = []) ∧
    ((∀ i, d i = none) → (VoterReads weights B d₂ ↔ ∀ w ∈ weights, ∀ a b,
      calculate w A = some a → calculate w B = some b → a.length ≤ b.length + 1)) := by
  have hgeneral : VoterReads weights B d₂ ↔ ∀ i w a b, weights[i]? = some w →
      calculate w A = some a → calculate w B = some b →
        read_from_csv (some (leftover (d i) a b)) = [] := by
    constructor
    · intro h i w a b hw ha hb
      obtain ⟨a', ls, ha', hls, hread⟩ := read_second hA hB hw
      obtain rfl : a' = a := Option.some.inj (ha'.symm.trans ha)
      obtain rfl : render ls = b := by
        rw [calculate, hls] at hb
        exact Option.some.inj hb
      rw [h i w ls hw hls] at hread
      exact List.append_right_eq_self.mp hread.symm
    · intro h i w ls hw hls
      obtain ⟨a, ls', ha, hls', hread⟩ := read_second hA hB hw
      obtain rfl : ls' = ls := Option.some.inj (hls'.symm.trans hls)
      have hnone : readAll (leftover (d i) a (render ls')) = [] :=
        h i w a (render ls') hw ha (by rw [calculate, hls]; rfl)
      rw [hread, hnone, List.append_nil]
  refine ⟨hgeneral, fun hfresh => hgeneral.trans ?_⟩
  -- without old files the rest is the end of the output for `A`
  have hsilent : ∀ w a b, calculate w A = some a →
      (read_from_csv (some (leftover none a b)) = [] ↔ a.length ≤ b.length + 1) := by
    intro w a b ha
    rw [calculate, Option.map_eq_some_iff] at ha
    obtain ⟨ls, hls, rfl⟩ := ha
    have hleft : leftover none (render ls) b = (render ls).drop b.length := by
      simp [leftover, overlay_zero]
    rw [hleft, read_from_csv, Option.getD_some]
    refine (readAll_drop_render (labels_lt hls) b.length).trans ?_
    rw [List.length_drop]
    omega
  constructor
  · intro h w hw a b ha hb
    obtain ⟨i, hi⟩ := List.mem_iff_getElem?.mp hw
    have hread := h i w a b hi ha hb
    rw [hfresh i] at hread
    exact (hsilent w a b ha).mp hread
  · intro h i w a b hw ha hb
    rw [hfresh i]
    exact (hsilent w a b ha).mpr (h w (List.mem_of_getElem? hw) a b ha hb)

/-- A first dataset of one row, a second of two. -/
theorem second_run_iff_longer : ∃ d₁ d₂ : Dir,
    create_classifiers [[(1, 0, 0), (0, 1, 0)]] [(1, 2)] (fun _ => none) = some d₁ ∧
    create_classifiers [[(1, 0, 0), (0, 1, 0)]] [(3, 1), (1, 2)] d₁ = some d₂ ∧
      VoterReads [[(1, 0, 0), (0, 1, 0)]] [(3, 1), (1, 2)] d₂ := by
  have hrun : ((create_classifiers [[(1, 0, 0), (0, 1, 0)]] [(1, 2)] fun _ => none).bind
      fun d₁ => (create_classifiers [[(1, 0, 0), (0, 1, 0)]] [(3, 1), (1, 2)] d₁).map
        fun _ => ()) = some () := by decide +kernel
  obtain ⟨d₁, hA, hrun⟩ := Option.bind_eq_some_iff.mp hrun
  obtain ⟨d₂, hB, -⟩ := Option.map_eq_some_iff.mp hrun
  refine ⟨d₁, d₂, hA, hB, ((second_run_iff _ _ _ _ d₁ d₂ hA hB).2 fun _ => rfl).mpr ?_⟩
  intro w hw a b ha hb
  obtain rfl := List.mem_singleton.mp hw
  have hlen : (calculate [(1, 0, 0), (0, 1, 0)] [(1, 2)]).map List.length = some 2 := by
    decide +kernel
  have hlen' : (calculate [(1, 0, 0), (0, 1, 0)] [(3, 1), (1, 2)]).map List.length = some 4 := by
    decide +kernel
  rw [ha] at hlen
  rw [hb] at hlen'
  have ha2 : a.length = 2 := Option.some.inj hlen
  have hb4 : b.length = 4 := Option.some.inj hlen'
  omega

/-- A first dataset of two rows, a second of one: the voter reads the label of
the second row of the first. -/
theorem second_run_reads_first : ¬ ∀ (weights : List (List Weight)) (A B : List Row)
    (d d₁ d₂ : Dir), create_classifiers weights A d = some d₁ →
      create_classifiers weights B d₁ = some d₂ → VoterReads weights B d₂ := by
  intro h
  have hrun : ((create_classifiers [[(1, 0, 0), (0, 1, 0)]] [(3, 1), (1, 2)] fun _ => none).bind
      fun d₁ => (create_classifiers [[(1, 0, 0), (0, 1, 0)]] [(3, 1)] d₁).map
        fun d₂ => read_from_csv (d₂ 0)) = some [0, 1] := by decide +kernel
  obtain ⟨d₁, hA, hrun⟩ := Option.bind_eq_some_iff.mp hrun
  obtain ⟨d₂, hB, hread⟩ := Option.map_eq_some_iff.mp hrun
  have hlabels : labels [(1, 0, 0), (0, 1, 0)] [(3, 1)] = some [0] := by decide +kernel
  have hsame := h _ _ _ _ d₁ d₂ hA hB 0 _ _ rfl hlabels
  rw [hread] at hsame
  cases hsame

end OsCourse.Ensemble
