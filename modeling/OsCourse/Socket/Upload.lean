import OsCourse.Socket.Command

/-!
# OsCourse.Socket.Upload

**What an upload does to the file on the server.** The two loops agree about the
message: the server finds in it the name and the whole content the client has put
there (`handleCommandUpload_eq`, `serve_upload`). What is stored is something
else. The server writes all but the last byte of the content, over what the file
was before, which it does not truncate (`storeUploaded`); so the file is right
afterwards only if it was almost right before.
-/

namespace OsCourse.Socket

open OsCourse.Lib CBuf

/-- What the server does with the content `c` received for the file `base`. -/
def storeUploaded (s : Host) (base c : List UInt8) : Host × Serving :=
  match (s.files base).openWrite with
  | none => (s.writeLog "open failed", .exited)
  | some old =>
      if c = [] then ((s.put base old).writeLog "write failed", .exited)
      else ((s.put base (overlay old 0 c.dropLast)).writeLog "upload compelete", .done)

variable {name tail c : List UInt8} {x : UInt8}

/-! ### The message -/

/-- The client sends the name, the separator and the content. -/
theorem handleCommandUpload_eq {client : Host} (hname : ∀ b ∈ name, atEnd b = false)
    (htail : LineEnd tail) (hc : 0 ∉ c)
    (hlen : (commandLine "upload" name (separator tail :: c)).length ≤ 1024)
    (hfile : (client.writeLog "upload start in client").files name = .file c) :
    handleCommandUpload client (typed (commandLine "upload" name tail)) =
      some (client.writeLog "upload start in client",
        .sent (commandLine "upload" name (separator tail :: c))) := by
  rw [length_commandLine, List.length_cons] at hlen
  have htyped : Holds (typed (commandLine "upload" name tail)) 0
      (commandLine "upload" name [separator tail]) := holds_typed (by omega)
  obtain ⟨file_name, hfileName, hstring⟩ :=
    fileName_of_holds (by decide +kernel) hname (by omega) (atEnd_separator htail) htyped
  have hread : Holds (load (zeros 8192) c) 0 (c ++ [0]) := holds_content (by omega)
  obtain ⟨command, hcopy, hdata, hrest⟩ := copyFrom_spec (atNul_of_not_mem hc) (x := 0) rfl hread
    (typed (commandLine "upload" name tail)) (j := (str "upload").length + 1 + name.length + 1)
    (by omega)
  -- the content was copied behind the separator, so the command is still there
  have hcommand : Holds command 0 (commandLine "upload" name (separator tail :: c)) := by
    rw [← List.singleton_append, commandLine_append]
    refine holds_append.mpr ⟨?_, ?_⟩
    · intro k b hk
      have hlt := (List.getElem?_eq_some_iff.mp hk).1
      rw [length_commandLine, List.length_singleton] at hlt
      rw [hrest _ (Or.inl (by omega))]
      exact htyped k b hk
    · rw [length_commandLine, List.length_singleton, Nat.zero_add]
      exact hdata
  have hslice := hcommand.slice
  rw [length_commandLine, List.length_cons] at hslice
  rw [handleCommandUpload, hfileName, Option.bind_eq_bind, Option.bind_some]
  simp only [hstring, Option.bind_eq_bind, Option.bind_some, hfile, hcopy]
  rw [show (str "upload").length + 1 + name.length + 1 + c.length =
    0 + ((str "upload").length + 1 + name.length + (c.length + 1)) by omega, hslice]

/-- The server finds the name and the content in the message. -/
theorem serve_upload (s : Host) (buffer : CBuf 1025) (hname : ∀ b ∈ name, atEnd b = false)
    (hx : atEnd x = true) (hc : 0 ∉ c)
    (hlen : (commandLine "upload" name (x :: c)).length ≤ 1024) :
    serve s buffer (commandLine "upload" name (x :: c)) =
      some (storeUploaded (s.writeLog "upload start in server") (basename name) c) := by
  obtain ⟨received, hreceive, hholds⟩ := receive_spec buffer hlen
  rw [length_commandLine, List.length_cons] at hlen
  rw [← List.singleton_append, commandLine_append, List.append_assoc] at hholds
  obtain ⟨hcommand, hcontent⟩ := holds_append.mp hholds
  rw [length_commandLine, List.length_singleton, Nat.zero_add] at hcontent
  obtain ⟨file_name, hfileName, hstring⟩ :=
    fileName_of_holds (by decide +kernel) hname (by omega) hx hcommand
  obtain ⟨data, hcopy, hdata, -⟩ := copyFrom_spec (atNul_of_not_mem hc) (x := 0) rfl hcontent
    (zeros 8192) (j := 0) (by omega)
  have hupload : startsWith received (str "upload") = true := by
    rw [startsWith_of_holds (l := str "upload") hcommand (Nat.le_refl _)]
    decide
  -- what is written: all but the last byte
  have hwritten : slice data 0 (c.length - 1) = c.dropLast := by
    have hsplit : Holds data 0 (c.dropLast ++ c.drop (c.length - 1)) := by
      rwa [List.dropLast_eq_take, List.take_append_drop]
    have hslice := (holds_append.mp hsplit).1.slice
    rwa [Nat.zero_add, List.length_dropLast] at hslice
  rw [serve, hreceive, Option.bind_eq_bind, Option.bind_some, if_pos hupload, serveUpload,
    hfileName, Option.bind_eq_bind, Option.bind_some]
  simp only [hstring, Option.bind_eq_bind, Option.bind_some, hcopy, Nat.zero_add, hwritten]
  rw [storeUploaded]
  cases ((s.writeLog "upload start in server").files (basename name)).openWrite with
  | none => rfl
  | some old =>
      by_cases hempty : c = []
      · simp [hempty]
      · simp [hempty]

/-- A whole upload: the server stores the content of the client's file. -/
theorem upload_eq {client : Host} (server : Host) (buffer : CBuf 1025)
    (hname : ∀ b ∈ name, atEnd b = false) (htail : LineEnd tail) (hc : 0 ∉ c)
    (hlen : (commandLine "upload" name (separator tail :: c)).length ≤ 1024)
    (hfile : (client.writeLog "upload start in client").files name = .file c) :
    upload client server buffer (commandLine "upload" name tail) =
      some (storeUploaded (server.writeLog "upload start in server") (basename name) c) := by
  rw [upload, handleCommandUpload_eq hname htail hc hlen hfile]
  exact serve_upload server buffer hname (atEnd_separator htail) hc hlen

/-! ### The file -/

namespace Host

theorem writeLog_of_none {h : Host} (hlog : h.log = none) (s : String) : h.writeLog s = h := by
  rw [writeLog, hlog]

/-- Logging touches the log only. -/
theorem files_writeLog {h : Host} {base : List UInt8} (hbase : h.log = none ∨ base ≠ LOG)
    (s : String) : (h.writeLog s).files base = h.files base := by
  rcases hbase with hlog | hne
  · rw [writeLog_of_none hlog]
  · unfold writeLog
    split
    · exact Function.update_of_ne hne _ _
    · rfl

theorem log_writeLog_eq_none {h : Host} (s : String) : (h.writeLog s).log = none ↔ h.log = none := by
  unfold writeLog
  split
  · rename_i hlog _
    simp [hlog]
  · rfl

theorem files_put (h : Host) (base content : List UInt8) :
    (h.put base content).files base = .file content := Function.update_self _ _ _

/-- A message to the log leaves a NUL in it. -/
theorem mem_of_files_writeLog {h : Host} {content logged : List UInt8} {s : String}
    (hlog : h.log ≠ none) (hfile : h.files LOG = .file content)
    (hlogged : (h.writeLog s).files LOG = .file logged) : 0 ∈ logged := by
  obtain ⟨off, hoff⟩ := Option.ne_none_iff_exists'.mp hlog
  rw [writeLog, hoff, hfile] at hlogged
  have heq := (h.files_put LOG _).symm.trans hlogged
  cases heq
  exact mem_overlay (by simp)

end Host

/-- `c` without its last byte, written over `old`, is `c` iff `old` is as long as
`c` and ends like it. -/
theorem overlay_dropLast_eq_iff {old c : List UInt8} (hc : c ≠ []) :
    overlay old 0 c.dropLast = c ↔ old.length = c.length ∧ old.getLast? = c.getLast? := by
  rw [overlay_prefix_eq_iff (List.dropLast_prefix c), List.length_dropLast]
  have hpos := List.length_pos_iff.mpr hc
  constructor
  · intro hdrop
    have hlen := congrArg List.length hdrop
    rw [List.length_drop, List.length_drop] at hlen
    have hold : old.length = c.length := by omega
    refine ⟨hold, ?_⟩
    have hlast := congrArg List.head? hdrop
    rwa [List.head?_drop, List.head?_drop, ← hold, ← List.getLast?_eq_getElem?, hold,
      ← List.getLast?_eq_getElem?] at hlast
  · rintro ⟨hlen, hlast⟩
    refine List.ext_getElem? fun k => ?_
    rw [List.getElem?_drop, List.getElem?_drop]
    cases k with
    | zero => rwa [List.getLast?_eq_getElem?, List.getLast?_eq_getElem?, hlen] at hlast
    | succ k => rw [List.getElem?_eq_none (by omega), List.getElem?_eq_none (by omega)]

/-- When the content arrives in the file and the server goes on. -/
theorem storeUploaded_iff (s : Host) (base : List UInt8) (hc : 0 ∉ c) :
    ((storeUploaded s base c).2 = .done ∧ (storeUploaded s base c).1.files base = .file c) ↔
      c ≠ [] ∧ (s.log = none ∨ base ≠ LOG) ∧
        ∃ old, (s.files base).openWrite = some old ∧
          old.length = c.length ∧ old.getLast? = c.getLast? := by
  rw [storeUploaded]
  cases hold : (s.files base).openWrite with
  | none => simp
  | some old =>
      by_cases hempty : c = []
      · simp [hempty]
      by_cases hbase : s.log = none ∨ base ≠ LOG
      · have hfiles : ((s.put base (overlay old 0 c.dropLast)).writeLog "upload compelete").files
            base = .file (overlay old 0 c.dropLast) := by
          rw [Host.files_writeLog (h := s.put base _) hbase, Host.files_put]
        simp [hempty, hbase, hfiles, overlay_dropLast_eq_iff hempty]
      · -- the file is the log, in which the last message leaves a NUL
        have hlog : s.log ≠ none ∧ base = LOG := by simpa using hbase
        refine iff_of_false ?_ (fun h => hbase h.2.1)
        rintro ⟨-, hfile⟩
        simp only [hempty, if_false, hlog.2] at hfile
        exact hc (Host.mem_of_files_writeLog (h := s.put LOG (overlay old 0 c.dropLast)) hlog.1
          (Host.files_put _ _ _) hfile)

/-! ### The upload -/

/-- An upload preserves the file, and the server goes on, iff the content is not
empty, the file is not the server's log, and the server had a file of this name
already, as long as the content and with the same last byte. -/
theorem upload_preserves_iff {client : Host} (server : Host) (buffer : CBuf 1025)
    (hname : ∀ b ∈ name, atEnd b = false) (htail : LineEnd tail) (hc : 0 ∉ c)
    (hlen : (commandLine "upload" name (separator tail :: c)).length ≤ 1024)
    (hfile : (client.writeLog "upload start in client").files name = .file c) :
    (∃ server', upload client server buffer (commandLine "upload" name tail) =
        some (server', .done) ∧ server'.files (basename name) = .file c) ↔
      c ≠ [] ∧ (server.log = none ∨ basename name ≠ LOG) ∧
        ∃ old, server.files (basename name) = .file old ∧
          old.length = c.length ∧ old.getLast? = c.getLast? := by
  rw [upload_eq server buffer hname htail hc hlen hfile]
  have hstored := storeUploaded_iff (server.writeLog "upload start in server")
    (basename name) hc
  rw [Host.log_writeLog_eq_none] at hstored
  rw [exists_outcome_iff, hstored]
  refine and_congr_right fun hne => and_congr_right fun hlog => exists_congr fun old => ?_
  rw [Host.files_writeLog hlog, and_congr_left_iff]
  rintro ⟨hlen, -⟩
  -- a file that is created is empty, and c is not
  cases hnode : server.files (basename name) with
  | absent =>
      have hold : old ≠ [] := by
        rintro rfl
        exact hne (List.length_eq_zero_iff.mp hlen.symm)
      simp [Node.openWrite, Ne.symm hold]
  | file content => simp [Node.openWrite]
  | refused | dir => simp [Node.openWrite]

/-- The content `ab` goes over `xb`. -/
theorem upload_preserves_iff_sameEnd :
    ∃ server', upload (Host.ofFile (str "f") (str "ab")) (Host.ofFile (str "f") (str "xb"))
        (zeros 1025) (commandLine "upload" (str "f") (str "\n")) = some (server', .done) ∧
      server'.files (basename (str "f")) = .file (str "ab") :=
  (upload_preserves_iff (Host.ofFile (str "f") (str "xb")) (zeros 1025) (by decide +kernel)
    (by intro c hc; cases hc; decide) (by decide) (by decide) (by decide)).mpr
    ⟨by decide, by decide, str "xb", by decide, by decide, by decide⟩

/-- On a server without the file, the content `ab` becomes the file `a`. -/
theorem upload_loses_last :
    ∃ server', upload (Host.ofFile (str "f") (str "ab")) Host.bare (zeros 1025)
        (commandLine "upload" (str "f") (str "\n")) = some (server', .done) ∧
      server'.files (basename (str "f")) = .file (str "a") ∧
      server'.files (basename (str "f")) ≠ .file (str "ab") := by
  refine ⟨_, upload_eq _ _ (by decide +kernel) ?_ (c := str "ab") (by decide) (by decide)
    (by decide), by decide, by decide⟩
  intro c hc
  cases hc
  decide

end OsCourse.Socket
