import Mathlib.Data.List.TakeWhile
import OsCourse.Socket.Command

/-!
# OsCourse.Socket.Download

**What a download does to the file on the client.** The server sends the content
up to its first line end, and for a file it cannot open the text `File not found`
(`serve_download`). A reply has no length and no status, so the client takes this
text for the error whatever it was, waits for ever if the reply is empty, and
writes any other over what its file was before, which it does not truncate
(`storeReply`).
-/

namespace OsCourse.Socket

open OsCourse.Lib CBuf

/-- The reply the server sends for a file that it cannot open. -/
def notFound : List UInt8 := str "File not found"

/-- What the server sends of the content `c`: its first line. -/
def firstLine (c : List UInt8) : List UInt8 := c.takeWhile fun b => !atEnd b

/-- How the server answers the request for a file. -/
def answer (s : Host) : Node → Host × Serving
  | .absent | .refused => (s.writeLog "open failed", .replied notFound)
  | .dir => (s.writeLog "read failed", .exited)
  | .file content => (s, .replied (firstLine content))

/-- What the client does with the reply, a line. -/
def storeReply (h : Host) (name reply : List UInt8) : Host × Receiving :=
  if reply = [] then (h, .waiting)
  else if reply = notFound then (h, .noSuchFile)
  else
    match (h.files name).openWrite with
    | none => (h.writeLog "open failed", .exited)
    | some old => (h.put name (overlay old 0 reply), .stored)

/-- What the client does with the server's answer. -/
def conclude (h : Host) (name : List UInt8) : Serving → Host × Receiving
  | .replied reply => storeReply h name reply
  | .done => (h, .waiting)
  | .exited => (h.writeLog "read failed", .exited)

/-- The server when it opens the file, after its first message to the log. -/
def serverOpens (server : Host) : Host := server.writeLog "download start in server"

/-- The client when it opens the file, after its two messages to the log. -/
def clientOpens (client : Host) : Host :=
  (client.writeLog "download start in client").writeLog "download start in client"

variable {name tail c reply : List UInt8}

/-! ### The first line -/

theorem atEnd_of_mem_firstLine {b : UInt8} (h : b ∈ firstLine c) : atEnd b = false := by
  have hnot := List.mem_takeWhile_imp h
  simpa using hnot

theorem prefix_firstLine (c : List UInt8) : firstLine c <+: c := List.takeWhile_prefix _

/-- Behind the first line stands a line end, or the NUL behind the content. -/
theorem firstLine_append (c : List UInt8) :
    ∃ y rest, atEnd y = true ∧ c ++ [0] = firstLine c ++ [y] ++ rest := by
  induction c with
  | nil => exact ⟨0, [], rfl, rfl⟩
  | cons b c ih =>
      cases hb : atEnd b with
      | true =>
          have hfirst : firstLine (b :: c) = [] := by simp [firstLine, hb]
          exact ⟨b, c ++ [0], hb, by rw [hfirst]; rfl⟩
      | false =>
          obtain ⟨y, rest, hy, heq⟩ := ih
          have hfirst : firstLine (b :: c) = b :: firstLine c := by simp [firstLine, hb]
          refine ⟨y, rest, hy, ?_⟩
          rw [hfirst, List.cons_append, heq]
          rfl

/-- The scan of content in zeroed memory ends behind the first line. -/
theorem scanFrom_content {N : Nat} (h : c.length < N) :
    scanFrom atEnd (load (zeros N) c) 0 = some (firstLine c).length ∧
      slice (load (zeros N) c) 0 (firstLine c).length = firstLine c := by
  obtain ⟨y, rest, hy, heq⟩ := firstLine_append c
  have hcontent := holds_content h
  rw [heq] at hcontent
  have hline := (holds_append.mp hcontent).1
  have hscan := scanFrom_spec (fun b => atEnd_of_mem_firstLine) hy hline
  have hslice := (holds_append.mp hline).1.slice
  rw [Nat.zero_add] at hscan hslice
  exact ⟨hscan, hslice⟩

theorem firstLine_of_line (h : ∀ b ∈ reply, atEnd b = false) : firstLine reply = reply := by
  refine List.takeWhile_eq_self_iff.mpr fun b hb => ?_
  rw [h b hb]
  rfl

/-! ### The messages -/

/-- The client sends the name, and nothing behind it. -/
theorem handleCommandDownload_eq (client : Host) (hname : ∀ b ∈ name, atEnd b = false)
    (htail : LineEnd tail) (hlen : (commandLine "download" name []).length ≤ 1024) :
    ∃ file_name, cstring file_name = some name ∧
      handleCommandDownload client (typed (commandLine "download" name tail)) =
        some (clientOpens client, file_name, commandLine "download" name []) := by
  rw [length_commandLine, List.length_nil] at hlen
  have htyped : Holds (typed (commandLine "download" name tail)) 0
      (commandLine "download" name [separator tail]) := holds_typed (by omega)
  obtain ⟨file_name, hfileName, hstring⟩ :=
    fileName_of_holds (by decide +kernel) hname (by omega) (atEnd_separator htail) htyped
  rw [← List.nil_append [separator tail], commandLine_append] at htyped
  have hslice := (holds_append.mp htyped).1.slice
  rw [length_commandLine, List.length_nil, Nat.add_zero, Nat.zero_add] at hslice
  refine ⟨file_name, hstring, ?_⟩
  rw [handleCommandDownload, hfileName, Option.bind_eq_bind, Option.bind_some]
  simp only [hslice, clientOpens]

/-- The server finds the name in the message. -/
theorem serve_download (s : Host) (buffer : CBuf 1025) (hname : ∀ b ∈ name, atEnd b = false)
    (hlen : (commandLine "download" name []).length ≤ 1024)
    (hfile : ∀ c, (serverOpens s).files name = .file c → c.length < 8192) :
    serve s buffer (commandLine "download" name []) =
      some (answer (serverOpens s) ((serverOpens s).files name)) := by
  obtain ⟨received, hreceive, hholds⟩ := receive_spec buffer hlen
  rw [length_commandLine, List.length_nil] at hlen
  rw [← commandLine_append, List.nil_append] at hholds
  obtain ⟨file_name, hfileName, hstring⟩ :=
    fileName_of_holds (by decide +kernel) hname (by omega) rfl hholds
  have hupload : startsWith received (str "upload") = false := by
    rw [startsWith_of_holds (l := str "download") hholds (by decide)]
    decide
  have hdownload : startsWith received (str "download") = true := by
    rw [startsWith_of_holds (l := str "download") hholds (by decide)]
    decide
  rw [serve, hreceive, Option.bind_eq_bind, Option.bind_some, hupload, hdownload,
    serveDownload, hfileName, ← serverOpens]
  simp only [hstring, Option.bind_eq_bind, Option.bind_some, if_true, Bool.false_eq_true, if_false]
  cases hnode : (serverOpens s).files name with
  | absent | refused | dir => rfl
  | file content =>
      obtain ⟨hscan, hslice⟩ := scanFrom_content (hfile content hnode)
      simp only [hscan, Option.bind_some, hslice]
      rfl

/-- What the client does with a reply that is a line. -/
theorem finishDownload_eq (h : Host) {file_name : CBuf 1024} (hstring : cstring file_name = some name)
    (hline : ∀ b ∈ reply, atEnd b = false) (hlen : reply.length < 8192) :
    finishDownload h file_name reply = some (storeReply h name reply) := by
  obtain ⟨hscan, hslice⟩ := scanFrom_content hlen
  rw [firstLine_of_line hline] at hscan hslice
  have htext : strcmp (load (zeros 8192) reply) (str "File not found") =
      decide (reply = notFound) :=
    strcmp_spec (not_mem_of_atEnd hline) (by decide) (holds_content hlen)
  rw [finishDownload, storeReply]
  by_cases hempty : reply = []
  · rw [if_pos hempty, if_pos hempty]
  rw [if_neg hempty, if_neg hempty]
  simp only [htext, decide_eq_true_eq]
  by_cases hnot : reply = notFound
  · rw [if_pos hnot, if_pos hnot]
  rw [if_neg hnot, if_neg hnot]
  simp only [hstring, Option.bind_eq_bind, Option.bind_some, hscan, hslice]
  cases (h.files name).openWrite with
  | none => rfl
  | some old => rfl

/-- A whole download: the client concludes from the server's answer. -/
theorem download_eq (client server : Host) (buffer : CBuf 1025)
    (hname : ∀ b ∈ name, atEnd b = false) (htail : LineEnd tail)
    (hlen : (commandLine "download" name []).length ≤ 1024)
    (hfile : ∀ c, (serverOpens server).files name = .file c → c.length < 8192) :
    download client server buffer (commandLine "download" name tail) =
      some (conclude (clientOpens client) name
        (answer (serverOpens server) ((serverOpens server).files name)).2) := by
  obtain ⟨file_name, hstring, hsent⟩ := handleCommandDownload_eq client hname htail hlen
  rw [download, hsent, Option.bind_eq_bind, Option.bind_some]
  simp only [serve_download server buffer hname hlen hfile, Option.bind_eq_bind, Option.bind_some]
  cases hnode : (serverOpens server).files name with
  | absent | refused =>
      simp only [answer, conclude]
      have hline : ∀ b ∈ notFound, atEnd b = false := by decide +kernel
      exact finishDownload_eq (clientOpens client) hstring hline (by decide)
  | dir => rfl
  | file content =>
      refine finishDownload_eq _ hstring (fun b => atEnd_of_mem_firstLine) ?_
      exact Nat.lt_of_le_of_lt (prefix_firstLine content).length_le (hfile content hnode)

/-! ### The download -/

/-- When a reply that is a prefix of the content becomes the content. -/
theorem storeReply_iff (h : Host) (name : List UInt8) (hp : reply <+: c) :
    ((storeReply h name reply).2 = .stored ∧ (storeReply h name reply).1.files name = .file c) ↔
      reply ≠ [] ∧ reply ≠ notFound ∧ ∃ old, (h.files name).openWrite = some old ∧
        old.drop reply.length = c.drop reply.length := by
  rw [storeReply]
  by_cases hempty : reply = []
  · simp [hempty]
  by_cases hnot : reply = notFound
  · rw [if_neg hempty, if_pos hnot]
    simp [hnot]
  cases hold : (h.files name).openWrite with
  | none => simp [hempty, hnot]
  | some old =>
      rw [if_neg hempty, if_neg hnot]
      simp [hempty, hnot, Host.put, overlay_prefix_eq_iff hp]

/-- A download preserves the file, and reports that there is none exactly if
there is none, iff the name is not a directory on the server and, where it is a
file, the first line of the content is neither empty nor `File not found` and the
rest of the content is what the client's old file has behind that many bytes
(nothing, where the content is one line and the old file is not longer). -/
theorem download_preserves_iff (client server : Host) (buffer : CBuf 1025)
    (hname : ∀ b ∈ name, atEnd b = false) (htail : LineEnd tail)
    (hlen : (commandLine "download" name []).length ≤ 1024)
    (hfile : ∀ c, (serverOpens server).files name = .file c → c.length < 8192) :
    ((∀ c, (serverOpens server).files name = .file c →
        ∃ client', download client server buffer (commandLine "download" name tail) =
          some (client', .stored) ∧ client'.files name = .file c) ∧
      ((∃ client', download client server buffer (commandLine "download" name tail) =
          some (client', .noSuchFile)) ↔ ¬∃ c, (serverOpens server).files name = .file c)) ↔
      (serverOpens server).files name ≠ .dir ∧
        ∀ c, (serverOpens server).files name = .file c →
          firstLine c ≠ [] ∧ firstLine c ≠ notFound ∧
            ∃ old, ((clientOpens client).files name).openWrite = some old ∧
              old.drop (firstLine c).length = c.drop (firstLine c).length := by
  rw [download_eq client server buffer hname htail hlen hfile]
  cases (serverOpens server).files name with
  | absent | refused => simp [answer, conclude, storeReply, show notFound ≠ [] by decide]
  | dir => simp [answer, conclude]
  | file content =>
      have hstored := storeReply_iff (clientOpens client) name (prefix_firstLine content)
      simp only [answer, conclude, Node.file.injEq, forall_eq', exists_outcome_iff, hstored]
      constructor
      · intro h
        exact ⟨by simp, h.1⟩
      · intro h
        refine ⟨h.2, iff_of_false ?_ (by simp)⟩
        -- the client has stored the file, so it does not report
        rintro ⟨client', heq⟩
        have hend := (hstored.mpr h.2).1
        rw [Option.some.inj heq] at hend
        cases hend

/-- The content `ab` goes over the same first line and nothing behind it. -/
theorem download_preserves_iff_oneLine :
    (∀ c, (serverOpens (Host.ofFile (str "f") (str "ab"))).files (str "f") = .file c →
        ∃ client', download Host.bare (Host.ofFile (str "f") (str "ab")) (zeros 1025)
            (commandLine "download" (str "f") (str "\n")) = some (client', .stored) ∧
          client'.files (str "f") = .file c) ∧
      ((∃ client', download Host.bare (Host.ofFile (str "f") (str "ab")) (zeros 1025)
          (commandLine "download" (str "f") (str "\n")) = some (client', .noSuchFile)) ↔
        ¬∃ c, (serverOpens (Host.ofFile (str "f") (str "ab"))).files (str "f") = .file c) := by
  have hab : (serverOpens (Host.ofFile (str "f") (str "ab"))).files (str "f") =
      .file (str "ab") := by decide
  refine (download_preserves_iff Host.bare (Host.ofFile (str "f") (str "ab")) (zeros 1025)
    (by decide +kernel) ?_ (by decide) ?_).mpr ⟨by decide, ?_⟩
  · intro c hc
    cases hc
    decide
  · intro c hc
    obtain rfl := Node.file.inj (hab.symm.trans hc)
    decide
  · intro c hc
    obtain rfl := Node.file.inj (hab.symm.trans hc)
    exact ⟨by decide, by decide, [], by decide, by decide⟩

/-- Of a file of two lines the client gets the first. -/
theorem download_cuts :
    (serverOpens (Host.ofFile (str "f") (str "a\nb"))).files (str "f") = .file (str "a\nb") ∧
      ∃ client', download Host.bare (Host.ofFile (str "f") (str "a\nb")) (zeros 1025)
          (commandLine "download" (str "f") (str "\n")) = some (client', .stored) ∧
        client'.files (str "f") = .file (str "a") ∧
        client'.files (str "f") ≠ .file (str "a\nb") := by
  have hfile : (serverOpens (Host.ofFile (str "f") (str "a\nb"))).files (str "f") =
      .file (str "a\nb") := by decide
  refine ⟨hfile, _, download_eq Host.bare (Host.ofFile (str "f") (str "a\nb")) (zeros 1025)
    (by decide +kernel) ?_ (by decide) ?_, by decide, by decide⟩
  · intro c hc
    cases hc
    decide
  · intro c hc
    obtain rfl := Node.file.inj (hfile.symm.trans hc)
    decide

end OsCourse.Socket
