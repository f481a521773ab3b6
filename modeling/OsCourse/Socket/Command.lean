import OsCourse.Socket.Model

/-!
# OsCourse.Socket.Command

What the loops of the two programs make of a command: a word, a blank, a file
name and, in the character array, a character that ends the name. Both programs
cut the name out with the same loops, the client from the line it was typed,
the server from the message; here is what these loops find, whatever the array
held before.
-/

namespace OsCourse.Socket

open OsCourse.Lib CBuf

/-- `word name`, and what follows the name. -/
def commandLine (word : String) (name tail : List UInt8) : List UInt8 :=
  str word ++ ' '.toUInt8 :: (name ++ tail)

/-- What follows the name of a typed line is a line end, if anything. -/
def LineEnd (tail : List UInt8) : Prop := ∀ c, tail.head? = some c → atEnd c = true

/-- The character behind the name of a typed line: if nothing is typed there, the
NUL that was in the array. -/
def separator (tail : List UInt8) : UInt8 := tail.headD 0

variable {word : String} {name tail : List UInt8} {x : UInt8}

theorem atEnd_separator (h : LineEnd tail) : atEnd (separator tail) = true := by
  cases tail with
  | nil => rfl
  | cons c rest => exact h c rfl

theorem commandLine_append (word : String) (name l l' : List UInt8) :
    commandLine word name (l ++ l') = commandLine word name l ++ l' := by
  simp [commandLine]

theorem length_commandLine (word : String) (name tail : List UInt8) :
    (commandLine word name tail).length = (str word).length + 1 + name.length + tail.length := by
  simp [commandLine]
  omega

theorem not_mem_of_atEnd (h : ∀ c ∈ name, atEnd c = false) : 0 ∉ name := by
  intro hmem
  exact absurd (h 0 hmem) (by decide)

/-- Content without NUL is copied to its end. -/
theorem atNul_of_not_mem {c : List UInt8} (hc : 0 ∉ c) : ∀ b ∈ c, atNul b = false := by
  intro b hb
  have hne : b ≠ 0 := fun heq => hc (heq ▸ hb)
  simpa [atNul] using hne

/-- The loops find the file name, behind whatever word, and put zeros behind it. -/
theorem fileName_spec {N : Nat} {command : CBuf N} {w : List UInt8}
    (hword : ∀ c ∈ w, atSpace c = false) (hname : ∀ c ∈ name, atEnd c = false)
    (hlen : name.length ≤ 1024) (hx : atEnd x = true)
    (h : Holds command 0 (w ++ ' '.toUInt8 :: (name ++ [x]))) :
    ∃ file_name, fileName command = some (w.length + 1 + name.length, file_name) ∧
      Holds file_name 0 name ∧ ∀ m, name.length ≤ m → file_name[m]? = (zeros 1024)[m]? := by
  obtain ⟨hw, hrest⟩ := holds_append.mp h
  obtain ⟨hblank, hnamed⟩ := holds_cons.mp hrest
  have hscan : scanFrom atSpace command 0 = some (0 + w.length) :=
    scanFrom_spec hword (by decide) (holds_append.mpr ⟨hw, holds_singleton.mpr hblank⟩)
  obtain ⟨file_name, hcopy, hholds, hout⟩ :=
    copyFrom_spec hname hx hnamed (zeros 1024) (j := 0) (by omega)
  refine ⟨file_name, ?_, hholds, fun m hm => hout m (Or.inr (by omega))⟩
  rw [fileName, hscan, Option.bind_eq_bind, Option.bind_some, hcopy]
  simp

/-- Behind a name that is shorter than `file_name` stands a NUL of the memset. -/
theorem holds_fileName {file_name : CBuf 1024} (hlen : name.length < 1024)
    (h : Holds file_name 0 name)
    (hout : ∀ m, name.length ≤ m → file_name[m]? = (zeros 1024)[m]?) :
    Holds file_name 0 (name ++ [0]) := by
  refine holds_append.mpr ⟨h, holds_singleton.mpr ?_⟩
  rw [Nat.zero_add, hout _ (Nat.le_refl _), getElem?_zeros, if_pos hlen]

/-- Such a name is a string there. -/
theorem cstring_fileName {file_name : CBuf 1024} (hname : ∀ c ∈ name, atEnd c = false)
    (hlen : name.length < 1024) (h : Holds file_name 0 name)
    (hout : ∀ m, name.length ≤ m → file_name[m]? = (zeros 1024)[m]?) :
    cstring file_name = some name :=
  cstring_spec (not_mem_of_atEnd hname) (holds_fileName hlen h hout)

/-- The loops find the file name. -/
theorem fileName_of_holds {N : Nat} {command : CBuf N} (hword : ∀ c ∈ str word, atSpace c = false)
    (hname : ∀ c ∈ name, atEnd c = false) (hlen : name.length < 1024) (hx : atEnd x = true)
    (h : Holds command 0 (commandLine word name [x])) :
    ∃ file_name, fileName command = some ((str word).length + 1 + name.length, file_name) ∧
      cstring file_name = some name := by
  obtain ⟨file_name, hfileName, hholds, hout⟩ := fileName_spec hword hname (by omega) hx h
  exact ⟨file_name, hfileName, cstring_fileName hname hlen hholds hout⟩

/-- Content read into zeroed memory is followed by a NUL. -/
theorem holds_content {N : Nat} {content : List UInt8} (h : content.length < N) :
    Holds (load (zeros N) content) 0 (content ++ [0]) := by
  refine holds_append.mpr ⟨?_, holds_singleton.mpr ?_⟩
  · have hload := holds_load (zeros N) content [] (Nat.le_of_lt h)
    rwa [List.append_nil] at hload
  · rw [Nat.zero_add]
    exact getElem?_load_zeros h

/-- A typed line stands in `command`, with a separator behind the name. -/
theorem holds_typed (h : (str word).length + 1 + name.length < 8192) :
    Holds (typed (commandLine word name tail)) 0 (commandLine word name [separator tail]) := by
  have hlen := length_commandLine word name []
  cases tail with
  | nil =>
      have hload : Holds (load (zeros 8192) (commandLine word name [])) 0
          (commandLine word name [] ++ [0]) := holds_content (by rw [hlen]; exact h)
      rwa [← commandLine_append, List.nil_append] at hload
  | cons c rest =>
      rw [typed, ← List.singleton_append, commandLine_append]
      exact holds_load _ _ _ (by rw [length_commandLine]; exact h)

/-- A message stands in `buffer`, with a NUL behind it. -/
theorem receive_spec (buffer : CBuf 1025) {message : List UInt8} (h : message.length ≤ 1024) :
    ∃ received, receive buffer message = some received ∧ Holds received 0 (message ++ [0]) := by
  have hlt : message.length < 1025 := Nat.lt_succ_of_le h
  refine ⟨(load buffer message).set message.length 0, write_natCast _ hlt 0, ?_⟩
  refine holds_append.mpr ⟨?_, holds_singleton.mpr ?_⟩
  · have hload := holds_load buffer message [] (Nat.le_of_lt hlt)
    rw [List.append_nil] at hload
    exact hload.set hlt (Or.inr (by omega)) 0
  · rw [Nat.zero_add, getElem?_set _ hlt, if_pos rfl]

/-- What holds of the outcome of a run, if it is `r`. -/
theorem exists_outcome_iff {α β : Type} {p : α × β} {r : β} {Q : α → Prop} :
    (∃ a, some p = some (a, r) ∧ Q a) ↔ p.2 = r ∧ Q p.1 := by
  constructor
  · rintro ⟨a, heq, ha⟩
    cases heq
    exact ⟨rfl, ha⟩
  · intro h
    exact ⟨p.1, congrArg some (Prod.ext rfl h.1), h.2⟩

end OsCourse.Socket
