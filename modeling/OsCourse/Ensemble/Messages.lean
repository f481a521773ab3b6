import OsCourse.Ensemble.Runs
import OsCourse.Ensemble.Vote
import OsCourse.Lib.Fields

/-!
# OsCourse.Ensemble.Messages

What `Ensemble::create_classifiers` sends to the classifiers and to the voter,
and what they make of it (`split_by_space` of `classifierMain.cpp`,
`separate_by_dash` and `main` of `voterMain.cpp`).

Both messages join their fields by dashes. The voter's ends with the only field
that is free, and is always understood (`voter_job`). A classifier's starts with
two, and is understood only if neither contains a dash (`classifier_job_iff`).

A `string` of length `n` has a NUL at position `n`, and nothing behind it can be
read. A process gets its message through an array of 1500 bytes, as the string
up to the first NUL.
-/

namespace OsCourse.Ensemble

open OsCourse.Lib

/-- The characters of a literal. -/
def text (s : String) : List UInt8 := s.toList.map Char.toUInt8

/-! ### `ensemble.cpp` -/

/-- An object of `class Ensemble`. -/
structure EnsembleObj where
  classifier_number : Nat
  validation_path : List UInt8
  dataset_path : List UInt8
  weights_path : List UInt8
  deriving DecidableEq

namespace EnsembleObj

/-- The constructor. -/
def new (validation_path wait_vectors_path : List UInt8) (classifiers_number : Nat) :
    EnsembleObj where
  classifier_number := classifiers_number
  validation_path := validation_path
  dataset_path := validation_path ++ text "/dataset.csv"
  weights_path := wait_vectors_path ++ text "/classifier_"

/-- `create_classifiers_name`. -/
def create_classifiers_name (e : EnsembleObj) (i : Nat) : List UInt8 :=
  e.weights_path ++ to_string i ++ text ".csv"

/-- The name of the output file of classifier `i`. -/
def fifo_path (i : Nat) : List UInt8 := text "fifo" ++ to_string i ++ text ".csv"

/-- `data`, the message to classifier `i`. -/
def data (e : EnsembleObj) (i : Nat) : List UInt8 :=
  e.create_classifiers_name i ++ text "-" ++ e.dataset_path ++ text "-" ++ fifo_path i

/-- `fifo_dir`, the message to the voter. -/
def fifo_dir (e : EnsembleObj) : List UInt8 :=
  text "fifo-" ++ to_string e.classifier_number ++ text "-" ++ e.validation_path

end EnsembleObj

/-- The message is written with its NUL, read into `char msg[1500]`, and passed
on as an argument. -/
def deliver (message : List UInt8) : Option (List UInt8) :=
  (field 0 ((message ++ [0]).take 1500)).map Prod.fst

/-! ### `classifierMain.cpp` and `voterMain.cpp` -/

/-- `split_by_space`: the three strings afterwards. -/
def split_by_space (s classifier_path dataset_path fifo_path : List UInt8) :
    Option (List UInt8 × List UInt8 × List UInt8) := do
  let a ← field 45 (s ++ [0])
  let b ← field 45 a.2
  let c ← field 0 b.2
  some (classifier_path ++ a.1, dataset_path ++ b.1, fifo_path ++ c.1)

/-- `separate_by_dash`: the three results. -/
def separate_by_dash (word fifo_path validation_path : List UInt8) :
    Option (List UInt8 × Int × List UInt8) := do
  let a ← field 45 (word ++ [0])
  let b ← field 45 a.2
  let classifier_num ← stoi b.1
  let c ← field 0 b.2
  some (fifo_path ++ a.1, classifier_num, validation_path ++ c.1)

/-- The files `main` of the voter reads, in order. -/
def fifo_paths (fifo_dir : List UInt8) (classifiers_num : Int) : List (List UInt8) :=
  (List.range classifiers_num.toNat).map fun i => fifo_dir ++ to_string i ++ text ".csv"

/-- `read_lable`: the numbers behind the first line. -/
def read_lable (content : Option (List UInt8)) : List Int :=
  readAll ((content.getD []).dropWhile (· ≠ 10)).tail

/-- `main` of the voter: the accuracy it prints. -/
def voterMain (files : List UInt8 → Option (List UInt8)) (behind : Option (Int × Int))
    (argv1 : List UInt8) : Option ℚ := do
  let a ← separate_by_dash argv1 [] []
  let result ← calculate_max ((fifo_paths a.1 a.2.1).map fun f => read_from_csv (files f)) []
  calculate_accuracy (read_lable (files (a.2.2 ++ text "/labels.csv"))) result behind

/-- What `main` of a classifier makes of its message. -/
def classifierJob (message : List UInt8) : Option (List UInt8 × List UInt8 × List UInt8) :=
  (deliver message).bind fun s => split_by_space s [] [] []

/-- What `main` of the voter makes of its message. -/
def voterJob (message : List UInt8) : Option (List UInt8 × Int × List UInt8) :=
  (deliver message).bind fun s => separate_by_dash s [] []

/-! ### Numbers as text -/

/-- `stoi` reads what `>>` reads. -/
theorem stoi_eq_readInt (l : List UInt8) : stoi l = (readInt l).map Prod.fst := by
  unfold stoi readInt readDigits skipSign decimal
  by_cases hneg : (l.dropWhile isSpace).head? = some 45
  · have hneg' : (l.dropWhile isspace).head? = some 45 := hneg
    simp only [hneg, hneg', true_or, if_true, decide_true]
    split_ifs <;> first | rfl | contradiction
  · have hneg' : ¬ (l.dropWhile isspace).head? = some 45 := hneg
    simp only [hneg, hneg', false_or, if_false, decide_false, Bool.false_eq_true]
    split_ifs <;> first | rfl | contradiction

theorem stoi_to_string {n : Nat} (hn : n < 2147483648) : stoi (to_string n) = some (n : Int) := by
  obtain ⟨hne, hds, hnum⟩ := digitsOf_spec n
  have hread := readInt_chars hne hds (by omega) [] (by simp)
  rw [List.append_nil, ← to_string_eq, hnum] at hread
  rw [stoi_eq_readInt, hread, Option.map_some]

/-- A numeral has digits only. -/
theorem not_mem_to_string {c : UInt8} (hc : isDigit c = false) (n : Nat) : c ∉ to_string n := by
  obtain ⟨-, hds, -⟩ := digitsOf_spec n
  rw [to_string_eq, chars]
  intro hmem
  obtain ⟨d, hd, rfl⟩ := List.mem_map.mp hmem
  rw [isDigit_char (hds d hd)] at hc
  cases hc

/-! ### The two jobs -/

theorem deliver_eq {message : List UInt8} (h : 0 ∉ message) (hlen : message.length < 1500) :
    deliver message = some message := by
  rw [deliver, List.take_of_length_le (by rw [List.length_append]; exact hlen), field_append h,
    Option.map_some]

variable {validation_path wait_vectors_path : List UInt8} {n i : Nat}

/-- The message to a classifier is three fields joined by dashes. -/
theorem data_eq (e : EnsembleObj) (i : Nat) : e.data i =
    e.create_classifiers_name i ++ 45 :: (e.dataset_path ++ 45 :: EnsembleObj.fifo_path i) := by
  have hdash : text "-" = [45] := by decide
  simp [EnsembleObj.data, hdash]

/-- A classifier never reads past its message. -/
theorem split_by_space_isSome (a b c : List UInt8) :
    ∃ r, split_by_space (a ++ 45 :: (b ++ 45 :: c)) [] [] [] = some r := by
  have hlast : (a ++ 45 :: (b ++ 45 :: c) ++ [0]).getLast? = some 0 := List.getLast?_concat
  have hcount : 2 ≤ (a ++ 45 :: (b ++ 45 :: c) ++ [0]).count 45 := by
    simp only [List.count_append, List.count_cons_self]
    omega
  generalize hl : a ++ 45 :: (b ++ 45 :: c) = l at hlast hcount
  obtain ⟨x, hx⟩ := Option.isSome_iff_exists.mp
    (isSome_field.mpr (List.count_pos_iff.mp (Nat.lt_of_lt_of_le Nat.two_pos hcount)))
  have hcount' := field_count hx
  have hlast' := field_getLast hx hlast (by decide)
  obtain ⟨y, hy⟩ := Option.isSome_iff_exists.mp
    (isSome_field (c := 45).mpr (List.count_pos_iff.mp (show 0 < x.2.count 45 by omega)))
  have hlast'' := field_getLast hy hlast' (by decide)
  obtain ⟨z, hz⟩ := Option.isSome_iff_exists.mp
    (isSome_field.mpr (List.mem_of_getLast? hlast''))
  exact ⟨_, by simp only [split_by_space, hx, hy, hz, Option.bind_eq_bind, Option.bind_some]; rfl⟩

/-- It finds the fields iff the first two have no dash. -/
theorem split_by_space_eq_iff {a b c : List UInt8} (hc : 0 ∉ c) :
    split_by_space (a ++ 45 :: (b ++ 45 :: c)) [] [] [] = some (a, b, c) ↔ 45 ∉ a ∧ 45 ∉ b := by
  constructor
  · intro h
    simp only [split_by_space, Option.bind_eq_bind, Option.bind_eq_some_iff] at h
    obtain ⟨x, hx, y, hy, z, hz, heq⟩ := h
    simp only [List.nil_append, Option.some.injEq, Prod.mk.injEq] at heq
    exact ⟨heq.1 ▸ (field_eq_some_iff.mp hx).2, heq.2.1 ▸ (field_eq_some_iff.mp hy).2⟩
  · intro h
    have hcons : a ++ 45 :: (b ++ 45 :: c) ++ [0] = a ++ 45 :: (b ++ 45 :: (c ++ [0])) := by simp
    simp only [split_by_space, hcons, field_append h.1, field_append h.2, field_append hc,
      Option.bind_eq_bind, Option.bind_some, List.nil_append]

/-- The names are free of a character that is neither in the directory nor in
what is put around it. -/
theorem mem_create_classifiers_name {c : UInt8} (hc : isDigit c = false)
    (htext : c ∉ text "/classifier_" ∧ c ∉ text ".csv") :
    c ∈ (EnsembleObj.new validation_path wait_vectors_path n).create_classifiers_name i ↔
      c ∈ wait_vectors_path := by
  simp [EnsembleObj.new, EnsembleObj.create_classifiers_name, htext, not_mem_to_string hc]

theorem mem_dataset_path {c : UInt8} (htext : c ∉ text "/dataset.csv") :
    c ∈ (EnsembleObj.new validation_path wait_vectors_path n).dataset_path ↔
      c ∈ validation_path := by
  simp [EnsembleObj.new, htext]

theorem not_mem_fifo_path {c : UInt8} (hc : isDigit c = false)
    (htext : c ∉ text "fifo" ∧ c ∉ text ".csv") : c ∉ EnsembleObj.fifo_path i := by
  simp [EnsembleObj.fifo_path, htext, not_mem_to_string hc]

/-- **The job of a classifier.** A classifier always finds three fields in its
message; they are its weight file, the dataset and its output file iff neither
of the two directories has a dash in its name. -/
theorem classifier_job_iff (validation_path wait_vectors_path : List UInt8) (n i : Nat)
    (hvalidation : 0 ∉ validation_path) (hweights : 0 ∉ wait_vectors_path)
    (hlen : ((EnsembleObj.new validation_path wait_vectors_path n).data i).length < 1500) :
    (∃ job, classifierJob ((EnsembleObj.new validation_path wait_vectors_path n).data i) =
      some job) ∧
    (classifierJob ((EnsembleObj.new validation_path wait_vectors_path n).data i) =
        some ((EnsembleObj.new validation_path wait_vectors_path n).create_classifiers_name i,
          validation_path ++ text "/dataset.csv", text "fifo" ++ to_string i ++ text ".csv") ↔
      45 ∉ wait_vectors_path ∧ 45 ∉ validation_path) := by
  have hfifo : 0 ∉ EnsembleObj.fifo_path i := not_mem_fifo_path rfl (by decide)
  have hzero : 0 ∉ (EnsembleObj.new validation_path wait_vectors_path n).data i := by
    rw [data_eq, List.mem_append, List.mem_cons, List.mem_append, List.mem_cons,
      mem_create_classifiers_name rfl (by decide), mem_dataset_path (by decide)]
    simp [hvalidation, hweights, hfifo]
  rw [classifierJob, deliver_eq hzero hlen, Option.bind_some, data_eq]
  refine ⟨split_by_space_isSome _ _ _, (split_by_space_eq_iff hfifo).trans ?_⟩
  rw [mem_create_classifiers_name rfl (by decide), mem_dataset_path (by decide)]

/-- Directories as in the assets of the program. -/
theorem classifier_job_iff_assets :
    classifierJob ((EnsembleObj.new (text "Assets/validation") (text "Assets/weights") 3).data 2) =
      some (text "Assets/weights/classifier_2.csv", text "Assets/validation/dataset.csv",
        text "fifo2.csv") :=
  (classifier_job_iff (text "Assets/validation") (text "Assets/weights") 3 2 (by decide +kernel)
    (by decide +kernel) (by decide +kernel)).2.mpr (by decide +kernel)

/-- A weight directory with a dash. -/
theorem classifier_job_dash : ¬ ∀ (validation_path wait_vectors_path : List UInt8) (n i : Nat),
    0 ∉ validation_path → 0 ∉ wait_vectors_path →
    ((EnsembleObj.new validation_path wait_vectors_path n).data i).length < 1500 →
      classifierJob ((EnsembleObj.new validation_path wait_vectors_path n).data i) =
        some ((EnsembleObj.new validation_path wait_vectors_path n).create_classifiers_name i,
          validation_path ++ text "/dataset.csv", text "fifo" ++ to_string i ++ text ".csv") := by
  intro h
  have hjob := h (text "v") (text "w-1") 1 0 (by decide +kernel) (by decide +kernel)
    (by decide +kernel)
  revert hjob
  decide +kernel

/-- The voter's message is understood, whatever the path. -/
theorem separate_by_dash_fifo_dir (wait_vectors_path : List UInt8) (hn : n < 2147483648)
    (hvalidation : 0 ∉ validation_path) :
    separate_by_dash (EnsembleObj.new validation_path wait_vectors_path n).fifo_dir [] [] =
      some (text "fifo", (n : Int), validation_path) := by
  have hfifo : text "fifo-" = text "fifo" ++ [45] ∧ text "-" = [45] := by decide
  have hcons : (EnsembleObj.new validation_path wait_vectors_path n).fifo_dir ++ [0] =
      text "fifo" ++ 45 :: (to_string n ++ 45 :: (validation_path ++ [0])) := by
    simp [EnsembleObj.fifo_dir, EnsembleObj.new, hfifo]
  simp only [separate_by_dash, hcons, field_append (show 45 ∉ text "fifo" by decide),
    field_append (not_mem_to_string (c := 45) rfl n), stoi_to_string hn, field_append hvalidation,
    Option.bind_eq_bind, Option.bind_some, List.nil_append]

theorem zero_not_mem_fifo_dir (wait_vectors_path : List UInt8) (n : Nat)
    (hvalidation : 0 ∉ validation_path) :
    0 ∉ (EnsembleObj.new validation_path wait_vectors_path n).fifo_dir := by
  have htext : 0 ∉ text "fifo-" ∧ 0 ∉ text "-" := by decide
  have hnumber : 0 ∉ to_string n := not_mem_to_string rfl n
  simp [EnsembleObj.fifo_dir, EnsembleObj.new, htext, hnumber, hvalidation]

/-- The files the voter reads are those of the classifiers. -/
theorem fifo_paths_eq (n : Nat) :
    fifo_paths (text "fifo") n = (List.range n).map EnsembleObj.fifo_path := by
  rw [fifo_paths, Int.toNat_natCast]
  rfl

/-- **The job of the voter.** Whatever dashes the validation path has, the voter
finds the prefix, the number of classifiers and the path in its message, and the
files it then reads are, in order, the ones named in the messages to the
classifiers. -/
theorem voter_job (validation_path wait_vectors_path : List UInt8) (n : Nat)
    (hn : n < 2147483648) (hvalidation : 0 ∉ validation_path)
    (hlen : (EnsembleObj.new validation_path wait_vectors_path n).fifo_dir.length < 1500) :
    voterJob (EnsembleObj.new validation_path wait_vectors_path n).fifo_dir =
      some (text "fifo", (n : Int), validation_path) ∧
    (fifo_paths (text "fifo") n).length = n ∧
    ∀ i, i < n → ∃ path, (fifo_paths (text "fifo") n)[i]? = some path ∧
      (EnsembleObj.new validation_path wait_vectors_path n).data i =
        (EnsembleObj.new validation_path wait_vectors_path n).create_classifiers_name i ++
          text "-" ++ (EnsembleObj.new validation_path wait_vectors_path n).dataset_path ++
          text "-" ++ path := by
  refine ⟨?_, by simp [fifo_paths_eq], fun i hi => ⟨EnsembleObj.fifo_path i, ?_, rfl⟩⟩
  · rw [voterJob, deliver_eq (zero_not_mem_fifo_dir _ _ hvalidation) hlen, Option.bind_some,
      separate_by_dash_fifo_dir _ hn hvalidation]
  · rw [fifo_paths_eq, List.getElem?_map, List.getElem?_range hi, Option.map_some]

/-- Twelve classifiers, and a path with dashes. -/
theorem voter_job_dashes :
    voterJob (EnsembleObj.new (text "a-b-1") (text "w") 12).fifo_dir =
      some (text "fifo", 12, text "a-b-1") :=
  (voter_job (text "a-b-1") (text "w") 12 (by decide) (by decide +kernel) (by decide +kernel)).1

/-- The voter, started with its message, prints the accuracy of the vote on the
output files of the classifiers. -/
theorem voterMain_eq (wait_vectors_path : List UInt8) (hn : n < 2147483648)
    (hvalidation : 0 ∉ validation_path)
    (hlen : (EnsembleObj.new validation_path wait_vectors_path n).fifo_dir.length < 1500)
    (files : List UInt8 → Option (List UInt8)) (behind : Option (Int × Int)) :
    (deliver (EnsembleObj.new validation_path wait_vectors_path n).fifo_dir).bind
        (voterMain files behind) =
      (calculate_max
        ((List.range n).map fun i => read_from_csv (files (EnsembleObj.fifo_path i))) []).bind
        fun result => calculate_accuracy
          (read_lable (files (validation_path ++ text "/labels.csv"))) result behind := by
  rw [deliver_eq (zero_not_mem_fifo_dir _ _ hvalidation) hlen, Option.bind_some, voterMain,
    separate_by_dash_fifo_dir _ hn hvalidation]
  simp only [Option.bind_eq_bind, Option.bind_some, fifo_paths_eq, List.map_map,
    Function.comp_def]

end OsCourse.Ensemble
