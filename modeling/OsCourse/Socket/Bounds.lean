import OsCourse.Socket.Download

/-!
# OsCourse.Socket.Bounds

**When the two programs stay inside their arrays.** The loops look for a blank,
for the end of a name and for the end of the data, and do not ask where the array
ends. So a branch stays inside exactly if what it looks for is there: in the
received bytes together with what the buffer holds behind them, in the typed
line, and in what was read from a file or a socket (`subscripts_valid_iff`).
-/

namespace OsCourse.Socket

open OsCourse.Lib CBuf

/-! ### The two reads -/

/-- What is done with what stands in `buffer`. -/
def handleBuffer (s : Host) (buffer : CBuf 1025) : Option (Host × Serving) :=
  if CBuf.startsWith buffer (str "upload") then serveUpload s buffer
  else if CBuf.startsWith buffer (str "download") then serveDownload s buffer
  else some (s, .done)

/-- `valread = read(sd, buffer, 1024)` and what follows; no bytes at all stand for
the result -1. -/
def serveRead (s : Host) (buffer : CBuf 1025) : Option (List UInt8) → Option (Host × Serving)
  | none => (CBuf.write buffer (-1) 0).bind (handleBuffer s)
  -- Host disconnected
  | some [] => some (s, .done)
  | some message => serve s buffer message

/-- The download branch of the client for a typed line. With the server up it gets
a reply; otherwise `file_name` goes into the message to the other clients. -/
def clientDownload (h : Host) (line : List UInt8) (reply : Option (List UInt8)) : Option Unit := do
  let (h, file_name, _) ← handleCommandDownload h (typed line)
  match reply with
  | some reply => (finishDownload h file_name reply).map fun _ => ()
  | none => (CBuf.scanFrom atNul file_name 0).map fun _ => ()

theorem exists_map_eq_some_iff {α β : Type} {f : α → β} {o : Option α} :
    (∃ r, o.map f = some r) ↔ ∃ a, o = some a := by
  cases o <;> simp

theorem exists_bind_some_iff {α β : Type} {f : α → β} {o : Option α} :
    (∃ r, (o.bind fun a => some (f a)) = some r) ↔ ∃ a, o = some a := by
  cases o <;> simp

/-! ### Commands -/

/-- `l` is a word, a blank, a name with its end `x`, and a rest. -/
structure Command (l w name : List UInt8) (x : UInt8) (rest : List UInt8) : Prop where
  eq : l = w ++ ' '.toUInt8 :: (name ++ x :: rest)
  word : ∀ c ∈ w, atSpace c = false
  name : ∀ c ∈ name, atEnd c = false
  stop : atEnd x = true

variable {N : Nat} {command : CBuf N} {w name rest l : List UInt8} {x : UInt8}

namespace Command

/-- More may follow. -/
theorem append (h : Command l w name x rest) (m : List UInt8) :
    Command (l ++ m) w name x (rest ++ m) :=
  ⟨by rw [h.eq]; simp, h.word, h.name, h.stop⟩

/-- A typed line is followed by the zeros of the memset. -/
theorem typed (h : Command l w name x rest) (hlen : l.length ≤ 8192) :
    Command (Socket.typed l).toList w name x (rest ++ List.replicate (8192 - l.length) 0) := by
  have htake : l.take 8192 = l := List.take_of_length_le hlen
  rw [Socket.typed, toList_load_zeros, htake]
  exact h.append _

/-- The rest stands behind the name. -/
theorem drop_toList (h : Command command.toList w name x rest) :
    command.toList.drop (w.length + 1 + name.length + 1) = rest := by
  have hsplit : w ++ ' '.toUInt8 :: (name ++ x :: rest) =
      (w ++ ' '.toUInt8 :: (name ++ [x])) ++ rest := by simp
  rw [h.eq, hsplit, List.drop_left']
  simp
  omega

/-- The loops find the name if it fits into `file_name`. -/
theorem fileName (h : Command command.toList w name x rest) (hlen : name.length ≤ 1024) :
    ∃ file_name, Socket.fileName command = some (w.length + 1 + name.length, file_name) ∧
      Holds file_name 0 name ∧ ∀ m, name.length ≤ m → file_name[m]? = (zeros 1024)[m]? := by
  refine fileName_spec h.word h.name hlen h.stop ?_
  rw [holds_iff_drop, List.drop_zero, h.eq]
  exact ⟨rest, by simp⟩

/-- They find nothing else. -/
theorem of_fileName {p : Nat × CBuf 1024} (h : Socket.fileName command = some p) :
    ∃ w name x rest, Command command.toList w name x rest ∧ name.length ≤ 1024 := by
  rw [Socket.fileName, Option.bind_eq_bind, Option.bind_eq_some_iff] at h
  obtain ⟨i, hscan, h⟩ := h
  rw [Option.bind_eq_bind, Option.bind_eq_some_iff] at h
  obtain ⟨r, hcopy, -⟩ := h
  obtain ⟨w, y, hw, hy, hword⟩ := scanFrom_isSome_iff.mp ⟨i, hscan⟩
  obtain rfl : i = 0 + w.length := Option.some.inj (hscan.symm.trans (scanFrom_spec hw hy hword))
  obtain ⟨name, x, hname, hx, hholds, hlen⟩ :=
    (copyFrom_isSome_iff (Nat.zero_le _)).mp ⟨r, hcopy⟩
  obtain rfl : y = ' '.toUInt8 := by simpa [atSpace] using hy
  have hall : Holds command 0 ((w ++ [' '.toUInt8]) ++ (name ++ [x])) :=
    holds_append.mpr ⟨hword, by simpa using hholds⟩
  obtain ⟨rest, heq⟩ := holds_iff_drop.mp hall
  refine ⟨w, name, x, rest, ⟨?_, hw, hname, hx⟩, by omega⟩
  rw [← List.drop_zero (l := command.toList), ← heq]
  simp

/-- The word is at least as long as a constant without blanks that it starts with. -/
theorem length_le (h : Command command.toList w name x rest) {word : String}
    (hword : ∀ c ∈ str word, atSpace c = false) (hstarts : startsWith command (str word) = true) :
    (str word).length ≤ w.length := by
  by_contra hlt
  have hprefix : str word <+: command.toList :=
    List.prefix_iff_eq_take.mpr (of_decide_eq_true hstarts).symm
  have hblank : command.toList[w.length]? = some ' '.toUInt8 := by
    rw [h.eq]
    simp
  have hget := List.prefix_iff_getElem?.mp hprefix w.length (by omega)
  rw [hblank] at hget
  have hspace := hword _ (List.getElem_mem (by omega : w.length < (str word).length))
  rw [← Option.some.inj hget] at hspace
  exact absurd hspace (by decide)

/-- Behind a word that long the name of a received command fits. -/
theorem length_lt {b : CBuf 1025} (h : Command b.toList w name x rest) {word : String}
    (hword : ∀ c ∈ str word, atSpace c = false) (hstarts : startsWith b (str word) = true)
    (hpos : 0 < (str word).length) : name.length < 1024 := by
  have hw := h.length_le hword hstarts
  have hsize := congrArg List.length h.eq
  simp only [Vector.length_toList, List.length_append, List.length_cons] at hsize
  omega

/-- The name that is found, as a string. -/
theorem cstring_eq (h : Command command.toList w name x rest) {p : Nat × CBuf 1024}
    (hp : Socket.fileName command = some p) (hlen : name.length ≤ 1024) :
    p.1 = w.length + 1 + name.length ∧
      (0 ∈ p.2.toList ↔ name.length < 1024) ∧
      ∀ y, cstring p.2 = some y ↔ name.length < 1024 ∧ y = name := by
  obtain ⟨file_name, hfileName, hholds, hout⟩ := h.fileName hlen
  obtain rfl := Option.some.inj (hfileName.symm.trans hp)
  have hnul : 0 ∈ file_name.toList ↔ name.length < 1024 := by
    constructor
    · intro hmem
      by_contra hfull
      have hall := holds_iff_drop.mp hholds
      rw [List.drop_zero] at hall
      have heq : name = file_name.toList := hall.eq_of_length (by simp; omega)
      exact not_mem_of_atEnd h.name (heq ▸ hmem)
    · intro hlt
      have hget : file_name.toList[name.length]? = some 0 := by
        rw [Vector.getElem?_toList, hout _ (Nat.le_refl _), getElem?_zeros, if_pos hlt]
      exact List.mem_of_getElem? hget
  refine ⟨rfl, hnul, fun y => ?_⟩
  by_cases hlt : name.length < 1024
  · rw [cstring_fileName h.name hlt hholds hout]
    simp [hlt, eq_comm]
  · rw [cstring, if_neg (mt hnul.mp hlt)]
    simp [hlt]

/-- A branch that starts by looking for the name has a result iff there is a command, and
the rest of the branch has one. -/
theorem isSome_iff {β : Type} {run : Option β} {P : List UInt8 → List UInt8 → List UInt8 → Prop}
    (hnone : Socket.fileName command = none → run = none)
    (hsome : ∀ {w name x rest p}, Command command.toList w name x rest → name.length ≤ 1024 →
      Socket.fileName command = some p → ((∃ r, run = some r) ↔ P w name rest)) :
    (∃ r, run = some r) ↔
      ∃ w name x rest, Command command.toList w name x rest ∧ name.length ≤ 1024 ∧
        P w name rest := by
  constructor
  · intro h
    cases hp : Socket.fileName command with
    | none =>
        obtain ⟨r, hr⟩ := h
        rw [hnone hp] at hr
        cases hr
    | some p =>
        obtain ⟨w, name, x, rest, hcommand, hlen⟩ := of_fileName hp
        exact ⟨w, name, x, rest, hcommand, hlen, (hsome hcommand hlen hp).mp h⟩
  · intro h
    obtain ⟨w, name, x, rest, hcommand, hlen, hrest⟩ := h
    obtain ⟨file_name, hp, -⟩ := hcommand.fileName hlen
    exact (hsome hcommand hlen hp).mpr hrest

/-- The same for a command that was received, which starts with a known word. -/
theorem isSome_iff_of_startsWith {b : CBuf 1025} {word : String}
    (hstarts : startsWith b (str word) = true) (hword : ∀ c ∈ str word, atSpace c = false)
    (hpos : 0 < (str word).length) {β : Type} {run : Option β}
    {P : List UInt8 → List UInt8 → Prop} (hnone : Socket.fileName b = none → run = none)
    (hsome : ∀ {w name x rest p}, Command b.toList w name x rest → Socket.fileName b = some p →
      p.1 = w.length + 1 + name.length → cstring p.2 = some name →
        ((∃ r, run = some r) ↔ P name rest)) :
    (∃ r, run = some r) ↔ ∃ w name x rest, Command b.toList w name x rest ∧ P name rest := by
  refine (isSome_iff (P := fun _ name rest => P name rest) hnone ?_).trans ?_
  · intro w name x rest p hcommand hlen hp
    have hlt := hcommand.length_lt hword hstarts hpos
    obtain ⟨heq, -, hstring⟩ := hcommand.cstring_eq hp hlen
    exact hsome hcommand hp heq ((hstring name).mpr ⟨hlt, rfl⟩)
  · constructor
    · intro h
      obtain ⟨w, name, x, rest, hcommand, -, hrest⟩ := h
      exact ⟨w, name, x, rest, hcommand, hrest⟩
    · intro h
      obtain ⟨w, name, x, rest, hcommand, hrest⟩ := h
      exact ⟨w, name, x, rest, hcommand, (hcommand.length_lt hword hstarts hpos).le, hrest⟩

end Command

/-! ### The server -/

/-- Data read into `char data[8192]` have an end there. -/
def Ends (data : List UInt8) : Prop :=
  data.length < 8192 ∨ ∃ c ∈ data.take 8192, atEnd c = true

theorem ends_iff (data : List UInt8) :
    (∃ k, scanFrom atEnd (load (zeros 8192) data) 0 = some k) ↔ Ends data := by
  rw [scanFrom_isSome_iff, exists_holds_iff, List.drop_zero, toList_load_zeros, Ends]
  constructor
  · intro h
    obtain ⟨c, hc, hend⟩ := h
    rcases List.mem_append.mp hc with hc | hc
    · exact .inr ⟨c, hc, hend⟩
    · exact .inl (by have hne := (List.mem_replicate.mp hc).1; omega)
  · intro h
    obtain hlt | ⟨c, hc, hend⟩ := h
    · refine ⟨0, List.mem_append_right _ (List.mem_replicate.mpr ⟨by omega, rfl⟩), rfl⟩
    · exact ⟨c, List.mem_append_left _ hc, hend⟩

/-- Data behind the name have an end inside of the buffer iff there is a NUL. -/
theorem copy_data_iff {b : CBuf 1025} {i : Nat} :
    (∃ r, copyFrom atNul b i (zeros 8192) 0 = some r) ↔ 0 ∈ b.toList.drop i := by
  have hmem : (∃ c ∈ b.toList.drop i, atNul c = true) ↔ 0 ∈ b.toList.drop i := by simp [atNul]
  rw [copyFrom_isSome_iff (Nat.zero_le _), ← hmem, ← exists_holds_iff]
  refine exists_congr fun l => exists_congr fun x => ?_
  refine ⟨fun h => ⟨h.1, h.2.1, h.2.2.1⟩, fun h => ⟨h.1, h.2.1, h.2.2, ?_⟩⟩
  have hlen := (holds_iff_drop.mp h.2.2).length_le
  simp only [List.length_append, List.length_drop, Vector.length_toList] at hlen
  omega

/-- The upload branch of the server needs a NUL behind the name. -/
theorem serveUpload_isSome_iff (s : Host) {b : CBuf 1025}
    (hb : startsWith b (str "upload") = true) : (∃ r, serveUpload s b = some r) ↔
      ∃ w name x rest, Command b.toList w name x rest ∧ 0 ∈ rest := by
  refine Command.isSome_iff_of_startsWith (P := fun _ rest => 0 ∈ rest) hb (by decide +kernel)
    (by decide) (fun hnone => by simp [serveUpload, hnone]) ?_
  intro w name x rest p hcommand hp hpos hname
  rw [← hcommand.drop_toList, ← hpos, ← copy_data_iff]
  constructor
  · intro h
    obtain ⟨r, h⟩ := h
    simp only [serveUpload, hp, hname, Option.bind_eq_bind, Option.bind_some,
      Option.bind_eq_some_iff] at h
    obtain ⟨q, hq, -⟩ := h
    exact ⟨q, hq⟩
  · intro h
    obtain ⟨q, hq⟩ := h
    simp only [serveUpload, hp, hname, hq, Option.bind_eq_bind, Option.bind_some]
    split
    · exact ⟨_, rfl⟩
    · split_ifs <;> exact ⟨_, rfl⟩

/-- The download branch needs an end of what it read. -/
theorem serveDownload_isSome_iff (s : Host) {b : CBuf 1025}
    (hb : startsWith b (str "download") = true) : (∃ r, serveDownload s b = some r) ↔
      ∃ w name x rest, Command b.toList w name x rest ∧
        ∀ content, (serverOpens s).files name = .file content → Ends content := by
  refine Command.isSome_iff_of_startsWith
    (P := fun name _ => ∀ content, (serverOpens s).files name = .file content → Ends content)
    hb (by decide +kernel) (by decide) (fun hnone => by simp [serveDownload, hnone]) ?_
  intro w name x rest p hcommand hp hpos hname
  simp only [serveDownload, hp, hname, Option.bind_eq_bind, Option.bind_some, serverOpens]
  cases (s.writeLog "download start in server").files name with
  | absent | refused | dir => simp
  | file content =>
      simp only [Node.file.injEq, forall_eq', ← ends_iff]
      exact exists_bind_some_iff

/-- What stands in the buffer after a `read`: the bytes received, a NUL, and what
was there before. -/
def received (buffer : CBuf 1025) (message : List UInt8) : List UInt8 :=
  message ++ 0 :: buffer.toList.drop (message.length + 1)

theorem toList_receive {buffer b : CBuf 1025} {message : List UInt8}
    (hlen : message.length ≤ 1024) (h : receive buffer message = some b) :
    b.toList = received buffer message := by
  have hlt : message.length < 1025 := by omega
  rw [receive, write_natCast _ hlt] at h
  obtain rfl := Option.some.inj h
  refine List.ext_getElem? fun k => ?_
  rw [Vector.getElem?_toList, getElem?_set _ hlt, received]
  rcases Nat.lt_trichotomy k message.length with hk | rfl | hk
  · rw [if_neg (by omega), getElem?_load _ _ (by omega), if_pos hk, List.getElem?_append_left hk]
  · simp
  · obtain ⟨m, rfl⟩ := Nat.exists_eq_add_of_lt hk
    rw [if_neg (by omega), List.getElem?_append_right (by omega), Nat.add_assoc,
      Nat.add_sub_cancel_left, List.getElem?_cons_succ, List.getElem?_drop, Vector.getElem?_toList]
    rcases Nat.lt_or_ge (message.length + (m + 1)) 1025 with hm | hm
    · rw [getElem?_load _ _ hm, if_neg (by omega)]
      congr 1
      omega
    · rw [Vector.getElem?_eq_none (by omega), Vector.getElem?_eq_none (by omega)]

/-- A constant is compared with the bytes received only. -/
theorem startsWith_receive {buffer b : CBuf 1025} {message word : List UInt8} (hword : 0 ∉ word)
    (h : b.toList = received buffer message) : startsWith b word = decide (word <+: message) := by
  have hiff : word <+: received buffer message ↔ word <+: message := by
    refine ⟨fun hprefix => ?_, fun hprefix => hprefix.trans (List.prefix_append _ _)⟩
    rcases Nat.lt_or_ge message.length word.length with hlt | hge
    · have hget := List.prefix_iff_getElem?.mp hprefix message.length hlt
      simp only [received, List.getElem?_append_right (Nat.le_refl _), Nat.sub_self,
        List.getElem?_cons_zero, Option.some.injEq] at hget
      exact absurd (hget ▸ List.getElem_mem hlt) hword
    · exact List.prefix_of_prefix_length_le hprefix (List.prefix_append _ _) hge
  rw [startsWith, h]
  refine decide_eq_decide.mpr (Iff.trans ?_ hiff)
  rw [eq_comm, ← List.prefix_iff_eq_take]

/-- The bytes received are a command that the server can handle, together with
what is in the buffer behind them. -/
def ServerFits (s : Host) (buffer : CBuf 1025) : Option (List UInt8) → Prop
  | none => False
  | some message => message ≠ [] →
      (str "upload" <+: message → ∃ w name x rest,
        Command (received buffer message) w name x rest ∧ 0 ∈ rest) ∧
      (str "download" <+: message → ∃ w name x rest,
        Command (received buffer message) w name x rest ∧
          ∀ content, (serverOpens s).files name = .file content → Ends content)

theorem serveRead_isSome_iff (s : Host) (buffer : CBuf 1025) (valread : Option (List UInt8))
    (hlen : ∀ message, valread = some message → message.length ≤ 1024) :
    (∃ r, serveRead s buffer valread = some r) ↔ ServerFits s buffer valread := by
  cases valread with
  | none =>
      have hwrite : CBuf.write buffer (-1) 0 = none := by
        rw [CBuf.write, dif_neg]
        omega
      simp [serveRead, hwrite, ServerFits]
  | some message =>
      by_cases hempty : message = []
      · simp [hempty, serveRead, ServerFits]
      obtain ⟨c, l, rfl⟩ := List.exists_cons_of_ne_nil hempty
      have hsize := hlen (c :: l) rfl
      obtain ⟨b, hreceive, -⟩ := receive_spec buffer hsize
      have hlist := toList_receive hsize hreceive
      have hupload : startsWith b (str "upload") = decide (str "upload" <+: c :: l) :=
        startsWith_receive (by decide) hlist
      have hdownload : startsWith b (str "download") = decide (str "download" <+: c :: l) :=
        startsWith_receive (by decide) hlist
      have hserve : serveRead s buffer (some (c :: l)) = handleBuffer s b := by
        simp only [serveRead, serve, hreceive, Option.bind_eq_bind, Option.bind_some]
        rfl
      rw [hserve, handleBuffer, ServerFits]
      by_cases hu : str "upload" <+: c :: l
      · have hstart : startsWith b (str "upload") = true := by rw [hupload]; exact decide_eq_true hu
        have hd : ¬ str "download" <+: c :: l := fun hd => by
          have hsame := List.prefix_of_prefix_length_le hu hd (by decide)
          exact absurd hsame (by decide)
        rw [if_pos hstart, serveUpload_isSome_iff s hstart, hlist]
        simp [hu, hd]
      · have hstart : ¬ startsWith b (str "upload") = true := by simp [hupload, hu]
        rw [if_neg hstart]
        by_cases hd : str "download" <+: c :: l
        · have hstart' : startsWith b (str "download") = true := by
            rw [hdownload]
            exact decide_eq_true hd
          rw [if_pos hstart', serveDownload_isSome_iff s hstart', hlist]
          simp [hu, hd]
        · have hstart' : ¬ startsWith b (str "download") = true := by simp [hdownload, hd]
          rw [if_neg hstart']
          simp [hu, hd]

/-! ### The client -/

/-- The part of a file's content that the client puts into the message. -/
def beforeNul (content : List UInt8) : List UInt8 := (content.take 8192).takeWhile fun c => !atNul c

/-- The typed line is a command with a name that fits, and the content of the file
fits behind it. -/
def UploadFits (h : Host) (line : List UInt8) : Prop :=
  ∃ w name x rest, Command (typed line).toList w name x rest ∧ name.length < 1024 ∧
    ∀ content, (h.writeLog "upload start in client").files name = .file content →
      w.length + 1 + name.length + 1 + (beforeNul content).length ≤ 8192

/-- The content is copied up to its first NUL. -/
theorem copy_content_iff (content : List UInt8) {j : Nat} (hpos : 0 < j) (hj : j ≤ 8192)
    (command : CBuf 8192) :
    (∃ r, copyFrom atNul (load (zeros 8192) content) 0 command j = some r) ↔
      j + (beforeNul content).length ≤ 8192 := by
  have hlist := toList_load_zeros 8192 content
  have htake : (load (zeros 8192) content).toList.takeWhile (fun c => !atNul c) =
      beforeNul content := by
    have hzeros : ∀ k, (List.replicate k (0 : UInt8)).takeWhile (fun c => !atNul c) = [] := by
      intro k
      cases k with
      | zero => rfl
      | succ k => exact List.takeWhile_cons_of_neg (by decide)
    rw [hlist, List.takeWhile_append, hzeros, beforeNul]
    split_ifs with hfull
    · rw [List.append_nil]
      exact ((List.takeWhile_prefix _).eq_of_length hfull).symm
    · rfl
  rw [copyFrom_isSome_iff hj]
  constructor
  · intro h
    obtain ⟨l, x, hl, hx, hholds, hroom⟩ := h
    rw [holds_iff_drop, List.drop_zero] at hholds
    rwa [← htake, takeWhile_of_prefix hl hx hholds]
  · intro h
    have hnul : ∃ c ∈ (load (zeros 8192) content).toList.drop 0, atNul c = true := by
      by_contra hnone
      have hall : (load (zeros 8192) content).toList.takeWhile (fun c => !atNul c) =
          (load (zeros 8192) content).toList := by
        refine List.takeWhile_eq_self_iff.mpr fun c hc => ?_
        have hne : ¬ atNul c = true := fun hn => hnone ⟨c, by rwa [List.drop_zero], hn⟩
        simpa using hne
      have hlen := congrArg List.length (htake.symm.trans hall)
      rw [Vector.length_toList] at hlen
      omega
    obtain ⟨l, x, hl, hx, hholds⟩ := exists_holds_iff.mpr hnul
    refine ⟨l, x, hl, hx, hholds, ?_⟩
    rw [holds_iff_drop, List.drop_zero] at hholds
    rwa [← takeWhile_of_prefix hl hx hholds, htake]

theorem handleCommandUpload_isSome_iff (h : Host) (line : List UInt8) :
    (∃ r, handleCommandUpload h (typed line) = some r) ↔ UploadFits h line := by
  have hnone : fileName (typed line) = none → handleCommandUpload h (typed line) = none :=
    fun hnone => by simp [handleCommandUpload, hnone]
  refine (Command.isSome_iff (P := fun w name _ => name.length < 1024 ∧
    ∀ content, (h.writeLog "upload start in client").files name = .file content →
      w.length + 1 + name.length + 1 + (beforeNul content).length ≤ 8192) hnone ?_).trans ?_
  · intro w name x rest p hcommand hlen hp
    obtain ⟨hpos, -, hstring⟩ := hcommand.cstring_eq hp hlen
    by_cases hlt : name.length < 1024
    · have hname := (hstring name).mpr ⟨hlt, rfl⟩
      have hsize := congrArg List.length hcommand.eq
      simp only [Vector.length_toList, List.length_append, List.length_cons] at hsize
      simp only [handleCommandUpload, hp, hname, Option.bind_eq_bind, Option.bind_some, hlt,
        true_and]
      cases (h.writeLog "upload start in client").files name with
      | absent | refused | dir => simp
      | file content =>
          rw [hpos]
          simp only [Node.file.injEq, forall_eq',
            ← copy_content_iff content (Nat.succ_pos (w.length + 1 + name.length))
              (by omega) (typed line)]
          exact exists_bind_some_iff
    · -- a name that fills file_name is no string there
      have hnone : cstring p.2 = none := by
        rw [Option.eq_none_iff_forall_ne_some]
        exact fun y hy => hlt ((hstring y).mp hy).1
      simp [handleCommandUpload, hp, hnone, hlt]
  · constructor
    · intro hfits
      obtain ⟨w, name, x, rest, hcommand, -, hlt, hroom⟩ := hfits
      exact ⟨w, name, x, rest, hcommand, hlt, hroom⟩
    · intro hfits
      obtain ⟨w, name, x, rest, hcommand, hlt, hroom⟩ := hfits
      exact ⟨w, name, x, rest, hcommand, hlt.le, hlt, hroom⟩

/-- What is done with the name fits: it is a string, and the reply, where it is
stored, has an end. -/
def ReplyFits (h : Host) (name : List UInt8) : Option (List UInt8) → Prop
  | none => name.length < 1024
  | some reply => reply = [] ∨ strcmp (load (zeros 8192) reply) notFound = true ∨
      name.length < 1024 ∧ ((h.files name).openWrite ≠ none → Ends reply)

/-- The typed line is a command with a name that fits, and so does what is done
with it. -/
def DownloadFits (h : Host) (line : List UInt8) (reply : Option (List UInt8)) : Prop :=
  ∃ w name x rest, Command (typed line).toList w name x rest ∧ name.length ≤ 1024 ∧
    ReplyFits (clientOpens h) name reply

/-- The client, once it has the name and a reply. -/
theorem finishDownload_isSome_iff (h : Host) {file_name : CBuf 1024} (reply : List UInt8)
    (hstring : ∀ y, cstring file_name = some y ↔ name.length < 1024 ∧ y = name) :
    (∃ r, finishDownload h file_name reply = some r) ↔
      reply = [] ∨ strcmp (load (zeros 8192) reply) notFound = true ∨
        name.length < 1024 ∧ ((h.files name).openWrite ≠ none → Ends reply) := by
  rw [finishDownload]
  by_cases hempty : reply = []
  · simp [hempty]
  by_cases hnot : strcmp (load (zeros 8192) reply) notFound = true
  · have hnot' : strcmp (load (zeros 8192) reply) (str "File not found") = true := hnot
    simp [hempty, hnot, hnot']
  have hnot' : ¬ strcmp (load (zeros 8192) reply) (str "File not found") = true := hnot
  rw [if_neg hempty, if_neg hnot']
  simp only [hempty, hnot, false_or, Bool.false_eq_true, Option.bind_eq_bind,
    Option.bind_eq_some_iff, hstring, ← ends_iff]
  cases hopen : (h.files name).openWrite with
  | none =>
      constructor
      · intro hr
        obtain ⟨r, y, ⟨hlt, -⟩, -⟩ := hr
        exact ⟨hlt, fun hne => absurd rfl hne⟩
      · intro hr
        exact ⟨_, name, ⟨hr.1, rfl⟩, by rw [hopen]⟩
  | some old =>
      constructor
      · intro hr
        obtain ⟨r, y, ⟨hlt, rfl⟩, hr⟩ := hr
        rw [hopen] at hr
        obtain ⟨k, hk, -⟩ := Option.bind_eq_some_iff.mp hr
        exact ⟨hlt, fun _ => ⟨k, hk⟩⟩
      · intro hr
        obtain ⟨k, hk⟩ := hr.2 (Option.some_ne_none old)
        exact ⟨_, name, ⟨hr.1, rfl⟩, by rw [hopen]; simp only [hk, Option.bind_some]; rfl⟩

/-- Without a reply the name is read up to its NUL. -/
theorem scan_fileName_iff {file_name : CBuf 1024} :
    (∃ k, scanFrom atNul file_name 0 = some k) ↔ 0 ∈ file_name.toList := by
  rw [scanFrom_isSome_iff, exists_holds_iff, List.drop_zero]
  simp [atNul]

theorem clientDownload_isSome_iff (h : Host) (line : List UInt8) (reply : Option (List UInt8)) :
    (∃ r, clientDownload h line reply = some r) ↔ DownloadFits h line reply := by
  refine Command.isSome_iff (P := fun _ name _ => ReplyFits (clientOpens h) name reply)
    (fun hnone => by simp [clientDownload, handleCommandDownload, hnone]) ?_
  intro w name x rest p hcommand hlen hp
  obtain ⟨-, hnul, hstring⟩ := hcommand.cstring_eq hp hlen
  cases reply with
  | none =>
      have hsome : clientDownload h line none = (scanFrom atNul p.2 0).map fun _ => () := by
        simp [clientDownload, handleCommandDownload, hp]
      rw [hsome, ReplyFits, ← hnul, ← scan_fileName_iff, exists_map_eq_some_iff]
  | some reply =>
      have hsome : clientDownload h line (some reply) =
          (finishDownload (clientOpens h) p.2 reply).map fun _ => () := by
        simp [clientDownload, handleCommandDownload, hp, clientOpens]
      rw [hsome, ReplyFits, ← finishDownload_isSome_iff _ _ hstring, exists_map_eq_some_iff]

/-- **Bounds.** Each branch uses only valid subscripts of its arrays iff what it
looks for is there and fits. -/
theorem subscripts_valid_iff (s h : Host) (buffer : CBuf 1025) (valread : Option (List UInt8))
    (hlen : ∀ message, valread = some message → message.length ≤ 1024) (line : List UInt8)
    (reply : Option (List UInt8)) :
    ((∃ r, serveRead s buffer valread = some r) ↔ ServerFits s buffer valread) ∧
      ((∃ r, handleCommandUpload h (typed line) = some r) ↔ UploadFits h line) ∧
      ((∃ r, clientDownload h line reply = some r) ↔ DownloadFits h line reply) :=
  ⟨serveRead_isSome_iff s buffer valread hlen, handleCommandUpload_isSome_iff h line,
    clientDownload_isSome_iff h line reply⟩

/-- An upload received whole, and a line for the upload and one for the download of
the same file. -/
theorem subscripts_valid_iff_small :
    (∃ r, serveRead Host.bare (zeros 1025) (some (str "upload f\nab")) = some r) ∧
      (∃ r, handleCommandUpload Host.bare (typed (str "upload f\n")) = some r) ∧
      ∃ r, clientDownload Host.bare (str "download f\n") (some (str "ab")) = some r := by
  have hlen : ∀ message, some (str "upload f\nab") = some message → message.length ≤ 1024 := by
    intro message heq
    obtain rfl := Option.some.inj heq
    decide
  have hmessage : Command (str "upload f\nab") (str "upload") (str "f") 10 (str "ab") :=
    ⟨by decide, by decide +kernel, by decide +kernel, by decide⟩
  have hupload : Command (str "upload f\n") (str "upload") (str "f") 10 [] :=
    ⟨by decide, by decide +kernel, by decide +kernel, by decide⟩
  have hdownload : Command (str "download f\n") (str "download") (str "f") 10 [] :=
    ⟨by decide, by decide +kernel, by decide +kernel, by decide⟩
  refine ⟨(subscripts_valid_iff Host.bare Host.bare (zeros 1025) (some (str "upload f\nab")) hlen
      [] none).1.mpr fun _ => ⟨fun _ => ⟨_, _, _, _, hmessage.append _, ?_⟩, fun hd => ?_⟩,
    (subscripts_valid_iff Host.bare Host.bare (zeros 1025) (some (str "upload f\nab")) hlen
      (str "upload f\n") none).2.1.mpr
      ⟨_, _, _, _, hupload.typed (by decide), by decide, fun content hfile => ?_⟩,
    (subscripts_valid_iff Host.bare Host.bare (zeros 1025) (some (str "upload f\nab")) hlen
      (str "download f\n") (some (str "ab"))).2.2.mpr
      ⟨_, _, _, _, hdownload.typed (by decide), by decide,
        .inr (.inr ⟨by decide, fun _ => .inl (by decide)⟩)⟩⟩
  · simp
  · exact absurd hd (by decide)
  · cases hfile

/-- The received word has no blank behind it. -/
theorem serveRead_leaves : ¬ ∀ (s : Host) (buffer : CBuf 1025) (valread : Option (List UInt8)),
    (∀ message, valread = some message → message.length ≤ 1024) →
      ∃ r, serveRead s buffer valread = some r := by
  intro h
  have hlen : ∀ message, some (str "upload") = some message → message.length ≤ 1024 := by
    intro message heq
    obtain rfl := Option.some.inj heq
    decide
  have hfits := (serveRead_isSome_iff Host.bare (zeros 1025) (some (str "upload")) hlen).mp
    (h _ _ _ hlen)
  obtain ⟨w, name, x, rest, hcommand, -⟩ := (hfits (by decide)).1 (List.prefix_refl _)
  have hblank : ' '.toUInt8 ∈ received (zeros 1025) (str "upload") := by
    rw [hcommand.eq]
    simp
  rcases List.mem_append.mp hblank with hword | hzero
  · exact absurd hword (by decide)
  · have hzeros : ∀ c ∈ (zeros 1025).toList, c = 0 := by
      intro c hc
      rw [zeros, Vector.toList_replicate] at hc
      exact List.eq_of_mem_replicate hc
    rcases List.mem_cons.mp hzero with heq | hrest
    · exact absurd heq (by decide)
    · exact absurd (hzeros _ (List.mem_of_mem_drop hrest)) (by decide)

end OsCourse.Socket
