import OsCourse.Lib.CString
import OsCourse.Lib.Files

/-!
# OsCourse.Socket.Model

The upload and download branches of the file server
(`OS-socket-programming/server.c`) and of its client (`client.c`), with the
server up.

A host has files, by name, and a log: both programs keep a descriptor of
`log.txt` open, in the directory the names are relative to, and append their
messages to it, the NUL included. A message over the socket is the list of
bytes one `read` delivers. A subscript outside an array is `none`. Messages to
the terminal are left out, except the one that a file was not found.
-/

namespace OsCourse.Socket

open OsCourse.Lib

/-- A string constant. -/
def str (s : String) : List UInt8 := s.toList.map Char.toUInt8

/-- The name of the log file. -/
def LOG : List UInt8 := str "log.txt"

/-- The files of a program, and the offset of its descriptor of the log file
(none, if it could not be opened). -/
structure Host where
  files : List UInt8 → Node
  log : Option Nat

namespace Host

/-- A host without files. -/
def bare : Host where
  files := fun _ => .absent
  log := none

/-- The file `name` gets the content `content`. -/
def put (h : Host) (name content : List UInt8) : Host :=
  { h with files := Function.update h.files name (.file content) }

/-- A host with one file. -/
def ofFile (name content : List UInt8) : Host := bare.put name content

/-- `write(log_file, s, strlen(s) + 1)`. -/
def writeLog (h : Host) (s : String) : Host :=
  match h.log, h.files LOG with
  | some off, .file content =>
      { h.put LOG (overlay content off (str s ++ [0])) with
        log := some (off + (str s ++ [0]).length) }
  | _, _ => h

end Host

/-- `c == '\0' || c == '\n' || c == '\r'`. -/
def atEnd (c : UInt8) : Bool := c = 0 ∨ c = '\n'.toUInt8 ∨ c = '\r'.toUInt8

/-- `c == ' '`. -/
def atSpace (c : UInt8) : Bool := c = ' '.toUInt8

/-- `c == '\0'`. -/
def atNul (c : UInt8) : Bool := c = 0

/-- `basename` of the C library: the last component of a path. -/
def basename (path : List UInt8) : List UInt8 :=
  if path = [] then str "."
  else
    let stripped := path.reverse.dropWhile (· = '/'.toUInt8)
    if stripped = [] then str "/" else (stripped.takeWhile (· ≠ '/'.toUInt8)).reverse

/-- The loops that cut the file name out of a command: the position after it,
and `file_name`. -/
def fileName {N : Nat} (command : CBuf N) : Option (Nat × CBuf 1024) := do
  let i ← CBuf.scanFrom atSpace command 0
  let (i, file_name, _) ← CBuf.copyFrom atEnd command (i + 1) (CBuf.zeros 1024) 0
  some (i, file_name)

/-- `memset(command, '\0', sizeof(command)); read(0, command, sizeof(command))`. -/
def typed (line : List UInt8) : CBuf 8192 := CBuf.load (CBuf.zeros 8192) line

/-! ### Upload -/

/-- How the upload branch of the client ends. -/
inductive Sending
  | sent (message : List UInt8)
  | openFailed
  /-- The program exits. -/
  | exited
  deriving DecidableEq, Repr

/-- `handle_command`: the upload branch of the client. -/
def handleCommandUpload (h : Host) (command : CBuf 8192) : Option (Host × Sending) := do
  let h := h.writeLog "upload start in client"
  let (i, file_name) ← fileName command
  let name ← CBuf.cstring file_name
  match h.files name with
  | .absent | .refused => some (h.writeLog "open failed", .openFailed)
  | .dir => some (h.writeLog "read failed", .exited)
  | .file content =>
      let data := CBuf.load (CBuf.zeros 8192) content
      let (_, command, i) ← CBuf.copyFrom atNul data 0 command (i + 1)
      some (h, .sent (CBuf.slice command 0 i))

/-- `valread = read(sd, buffer, 1024); buffer[valread] = '\0'`, for a message of
at most 1024 bytes. -/
def receive (buffer : CBuf 1025) (message : List UInt8) : Option (CBuf 1025) :=
  CBuf.write (CBuf.load buffer message) message.length 0

/-- How the server deals with a message: it goes on, or exits. -/
inductive Serving
  | done
  /-- It goes on, and has sent `reply`. -/
  | replied (reply : List UInt8)
  | exited
  deriving DecidableEq, Repr

/-- `create_clients_and_handle_commands`: the upload branch of the server. -/
def serveUpload (s : Host) (buffer : CBuf 1025) : Option (Host × Serving) := do
  let s := s.writeLog "upload start in server"
  let (i, file_name) ← fileName buffer
  let name ← CBuf.cstring file_name
  let file_base_name := basename name
  let (_, data, m) ← CBuf.copyFrom atNul buffer (i + 1) (CBuf.zeros 8192) 0
  match (s.files file_base_name).openWrite with
  | none => some (s.writeLog "open failed", .exited)
  | some old =>
      -- write(file, data, m-1) fails if m-1 is -1
      if m = 0 then some ((s.put file_base_name old).writeLog "write failed", .exited)
      else
        let s := s.put file_base_name (overlay old 0 (CBuf.slice data 0 (m - 1)))
        some (s.writeLog "upload compelete", .done)

/-! ### Download -/

/-- `handle_command`: the download branch of the client, up to its `read`: the
file name and the message sent. -/
def handleCommandDownload (h : Host) (command : CBuf 8192) :
    Option (Host × CBuf 1024 × List UInt8) := do
  let h := h.writeLog "download start in client"
  let (i, file_name) ← fileName command
  let h := h.writeLog "download start in client"
  some (h, file_name, CBuf.slice command 0 i)

/-- `create_clients_and_handle_commands`: the download branch of the server. -/
def serveDownload (s : Host) (buffer : CBuf 1025) : Option (Host × Serving) := do
  let s := s.writeLog "download start in server"
  let (_, file_name) ← fileName buffer
  let name ← CBuf.cstring file_name
  match s.files name with
  | .absent | .refused => some (s.writeLog "open failed", .replied (str "File not found"))
  | .dir => some (s.writeLog "read failed", .exited)
  | .file content =>
      let data := CBuf.load (CBuf.zeros 8192) content
      let k ← CBuf.scanFrom atEnd data 0
      some (s, .replied (CBuf.slice data 0 k))

/-- How the download branch of the client ends. -/
inductive Receiving
  | stored
  /-- It reports that there is no such file. -/
  | noSuchFile
  /-- It exits. -/
  | exited
  /-- It waits in `read`: nothing was sent. -/
  | waiting
  deriving DecidableEq, Repr

/-- The download branch of the client from its `read` on, which delivers `reply`. -/
def finishDownload (h : Host) (file_name : CBuf 1024) (reply : List UInt8) :
    Option (Host × Receiving) := do
  if reply = [] then some (h, .waiting)
  else
    let data := CBuf.load (CBuf.zeros 8192) reply
    if CBuf.strcmp data (str "File not found") then some (h, .noSuchFile)
    else
      let name ← CBuf.cstring file_name
      match (h.files name).openWrite with
      | none => some (h.writeLog "open failed", .exited)
      | some old =>
          let k ← CBuf.scanFrom atEnd data 0
          some (h.put name (overlay old 0 (CBuf.slice data 0 k)), .stored)

/-! ### The two programs together -/

/-- `create_clients_and_handle_commands`: what is done with a message. -/
def serve (s : Host) (buffer : CBuf 1025) (message : List UInt8) : Option (Host × Serving) := do
  let buffer ← receive buffer message
  if CBuf.startsWith buffer (str "upload") then serveUpload s buffer
  else if CBuf.startsWith buffer (str "download") then serveDownload s buffer
  else some (s, .done)

/-- The client uploads what the typed line says, and the server, whose buffer
still holds earlier messages, handles the message: the server afterwards. -/
def upload (client server : Host) (buffer : CBuf 1025) (line : List UInt8) :
    Option (Host × Serving) := do
  match ← handleCommandUpload client (typed line) with
  | (_, .sent message) => serve server buffer message
  | (_, .openFailed) | (_, .exited) => none

/-- The client downloads what the typed line says: the client afterwards. -/
def download (client server : Host) (buffer : CBuf 1025) (line : List UInt8) :
    Option (Host × Receiving) := do
  let (client, file_name, message) ← handleCommandDownload client (typed line)
  match ← serve server buffer message with
  | (_, .replied reply) => finishDownload client file_name reply
  | (_, .done) => some (client, .waiting)
  -- the connection is closed: read returns 0
  | (_, .exited) => some (client.writeLog "read failed", .exited)

end OsCourse.Socket
