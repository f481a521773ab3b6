import OsCourse.Lib.Machine
import OsCourse.Socket.Download

/-!
# OsCourse.Socket.Broadcast

**The request to the other clients.** With the server down, a download command is
turned into a datagram: the port the client was started with, a blank and the name
of the file, put one after another into `broadcast_msg`, which is sent at once and
again at an alarm, four times in all.

The loop that copies the port leaves the position behind it, and the code adds one
before it puts the blank there. So the element behind the port is never written. It
stays the NUL it was when the program started, and `strlen` ends there: whatever is
requested, the datagram is the port alone (`requests_name_no_file`).
-/

namespace OsCourse.Socket

open OsCourse.Lib CBuf

/-- A client without a server. -/
structure Peer where
  broadcast_msg : CBuf 1025
  counter : Nat
  /-- An alarm is due. -/
  alarm : Bool
  /-- The payloads given to `sendto`, in order. -/
  sent : List (List UInt8)

/-- `while (port[n] != '\n' && …) { broadcast_msg[n] = port[n]; n++; }`, from
`port[n]` on: the final `n` and the message. -/
def copyPort : List UInt8 → CBuf 1025 → Nat → Option (Nat × CBuf 1025)
  | [], broadcast_msg, n => some (n, broadcast_msg)
  | c :: port, broadcast_msg, n =>
      if atEnd c then some (n, broadcast_msg)
      else do
        let broadcast_msg ← CBuf.write broadcast_msg n c
        copyPort port broadcast_msg (n + 1)

/-- `handle_command`: the message of a download, with the server down. -/
def assemble (port : List UInt8) (file_name : CBuf 1024) (broadcast_msg : CBuf 1025) :
    Option (CBuf 1025) := do
  let (n, broadcast_msg) ← copyPort port broadcast_msg 0
  let n := n + 1
  let broadcast_msg ← CBuf.write broadcast_msg n ' '.toUInt8
  let n := n + 1
  let (_, broadcast_msg, _) ← CBuf.copyFrom atNul file_name 0 broadcast_msg n
  some broadcast_msg

/-- `send_broadcast_msg`, without its messages. -/
def sendBroadcastMsg (p : Peer) : Option Peer :=
  if p.counter < 4 then do
    let payload ← CBuf.cstring p.broadcast_msg
    some { p with sent := p.sent ++ [payload], alarm := true, counter := p.counter + 1 }
  else some p

/-- `handle_command`: a download command, with the server down. -/
def request (port : List UInt8) (p : Peer) (line : List UInt8) : Option Peer := do
  let (_, file_name) ← fileName (typed line)
  let broadcast_msg ← assemble port file_name p.broadcast_msg
  sendBroadcastMsg { p with broadcast_msg := broadcast_msg }

/-- What happens to the client, between two `select`s. -/
inductive Event
  /-- The line of a download command is typed. -/
  | download (line : List UInt8)
  /-- `SIGALRM`. -/
  | alarm

/-- The client that was started with `port`. Before `handle_command`, `main` calls
`send_broadcast_msg` with the empty message. -/
def peer (port : List UInt8) : Machine Peer Event where
  init := { broadcast_msg := zeros 1025, counter := 1, alarm := true, sent := [[]] }
  step
    | p, .download line => request port p line
    | p, .alarm => if p.alarm then sendBroadcastMsg { p with alarm := false } else none

/-- A message of fewer than 1025 bytes, for a name without line end. -/
structure Fits (port name : List UInt8) : Prop where
  oneLine : ∀ c ∈ name, atEnd c = false
  room : port.length + 1 + name.length < 1025

/-- A download of the file `name`, on a line of its own. -/
def Event.Fits (port : List UInt8) : Event → Prop
  | .download line => ∃ name tail, line = commandLine "download" name tail ∧ LineEnd tail ∧
      Socket.Fits port name
  | .alarm => True

variable {port name tail : List UInt8} {p q : Peer}

/-! ### The message -/

/-- The loop copies the first line of the port and touches nothing else. -/
theorem copyPort_spec (port : List UInt8) (broadcast_msg : CBuf 1025) {n : Nat}
    (h : n + (firstLine port).length ≤ 1025) :
    ∃ msg, copyPort port broadcast_msg n = some (n + (firstLine port).length, msg) ∧
      Holds msg n (firstLine port) ∧
      ∀ m, m < n ∨ n + (firstLine port).length ≤ m → msg[m]? = broadcast_msg[m]? := by
  induction port generalizing broadcast_msg n with
  | nil => exact ⟨broadcast_msg, rfl, fun k c hk => by simp [firstLine] at hk, fun m _ => rfl⟩
  | cons c port ih =>
      by_cases hc : atEnd c = true
      · have hfirst : firstLine (c :: port) = [] := by simp [firstLine, hc]
        rw [hfirst]
        refine ⟨broadcast_msg, ?_, fun k d hk => by simp at hk, fun m _ => rfl⟩
        rw [copyPort, if_pos hc]
        rfl
      · have hfirst : firstLine (c :: port) = c :: firstLine port := by simp [firstLine, hc]
        rw [hfirst, List.length_cons] at h ⊢
        have hn : n < 1025 := by omega
        obtain ⟨msg, hcopy, hholds, hrest⟩ :=
          ih (broadcast_msg.set n c) (n := n + 1) (by omega)
        refine ⟨msg, ?_, holds_cons.mpr ⟨?_, hholds⟩, fun m hm => ?_⟩
        · rw [copyPort, if_neg hc, write_natCast _ hn, Option.bind_eq_bind, Option.bind_some,
            hcopy, Nat.add_assoc, Nat.add_comm 1]
        · rw [hrest n (by omega), getElem?_set _ hn, if_pos rfl]
        · rw [hrest m (by omega), getElem?_set _ hn, if_neg (by omega)]

theorem length_firstLine_le (port : List UInt8) : (firstLine port).length ≤ port.length :=
  (prefix_firstLine port).length_le

/-- The message starts with the port; the element behind it is what it was. -/
theorem assemble_spec (broadcast_msg : CBuf 1025) {file_name : CBuf 1024}
    (hfits : Fits port name) (hname : Holds file_name 0 (name ++ [0])) :
    ∃ msg, assemble port file_name broadcast_msg = some msg ∧ Holds msg 0 (firstLine port) ∧
      msg[(firstLine port).length]? = broadcast_msg[(firstLine port).length]? := by
  have hfirst := length_firstLine_le port
  have hlen := hfits.room
  obtain ⟨ported, hport, hholds, hrest⟩ :=
    copyPort_spec port broadcast_msg (n := 0) (by omega)
  rw [Nat.zero_add] at hport hrest
  have hblank : (firstLine port).length + 1 < 1025 := by omega
  obtain ⟨msg, hcopy, -, hout⟩ :=
    copyFrom_spec (atNul_of_not_mem (not_mem_of_atEnd hfits.oneLine)) (by decide) hname
      (ported.set ((firstLine port).length + 1) ' '.toUInt8) (j := (firstLine port).length + 2)
      (by omega)
  refine ⟨msg, ?_, fun k c hk => ?_, ?_⟩
  · rw [assemble, hport, Option.bind_eq_bind, Option.bind_some]
    simp only [write_natCast _ hblank, Option.bind_eq_bind, Option.bind_some, hcopy]
  · have hlt := (List.getElem?_eq_some_iff.mp hk).1
    rw [hout _ (by omega), getElem?_set _ hblank, if_neg (by omega)]
    exact hholds k c hk
  · rw [hout _ (by omega), getElem?_set _ hblank, if_neg (by omega), hrest _ (by omega)]

/-! ### Sending -/

theorem sendBroadcastMsg_broadcast_msg (h : sendBroadcastMsg p = some q) :
    q.broadcast_msg = p.broadcast_msg := by
  unfold sendBroadcastMsg at h
  split_ifs at h with hcounter
  · obtain ⟨payload, -, heq⟩ := Option.bind_eq_some_iff.mp h
    rw [← Option.some.inj heq]
  · rw [← Option.some.inj h]

theorem sendBroadcastMsg_of_cstring {payload : List UInt8}
    (h : cstring p.broadcast_msg = some payload) :
    ∃ q, sendBroadcastMsg p = some q ∧ q.broadcast_msg = p.broadcast_msg ∧
      q.sent = if p.counter < 4 then p.sent ++ [payload] else p.sent := by
  rw [sendBroadcastMsg, h, Option.bind_eq_bind, Option.bind_some]
  split_ifs
  · exact ⟨_, rfl, rfl, rfl⟩
  · exact ⟨p, rfl, rfl, rfl⟩

/-- The client starts with what the call in `main` leaves. -/
theorem peer_init (port : List UInt8) :
    sendBroadcastMsg { broadcast_msg := zeros 1025, counter := 0, alarm := false, sent := [] } =
      some (peer port).init := by
  have hempty : cstring (zeros 1025) = some [] :=
    cstring_spec (by simp) (holds_singleton.mpr (getElem?_zeros 1025 0))
  simp [sendBroadcastMsg, hempty, peer]

/-! ### Runs -/

/-- Behind the port stands a NUL. -/
def Ended (port : List UInt8) (p : Peer) : Prop :=
  p.broadcast_msg[(firstLine port).length]? = some 0

/-- A request sends the port. -/
theorem request_spec (hended : Ended port p) (hfits : Fits port name) (htail : LineEnd tail) :
    ∃ q, request port p (commandLine "download" name tail) = some q ∧ Ended port q ∧
      cstring q.broadcast_msg = some (firstLine port) ∧
      q.sent = if p.counter < 4 then p.sent ++ [firstLine port] else p.sent := by
  have hlen := hfits.room
  have hword : (str "download").length = 8 := by decide
  have htyped : Holds (typed (commandLine "download" name tail)) 0
      (commandLine "download" name [separator tail]) := holds_typed (by omega)
  obtain ⟨file_name, hfileName, hholds, hzero⟩ :=
    fileName_spec (by decide +kernel) hfits.oneLine (by omega) (atEnd_separator htail) htyped
  obtain ⟨msg, hassemble, hport, hbehind⟩ :=
    assemble_spec p.broadcast_msg hfits (holds_fileName (by omega) hholds hzero)
  have hend : msg[(firstLine port).length]? = some 0 := hbehind.trans hended
  have hstring : cstring msg = some (firstLine port) := by
    refine cstring_spec (not_mem_of_atEnd fun c hc => atEnd_of_mem_firstLine hc) ?_
    exact holds_append.mpr ⟨hport, holds_singleton.mpr (by rw [Nat.zero_add]; exact hend)⟩
  obtain ⟨q, hsend, hmsg, hsent⟩ :=
    sendBroadcastMsg_of_cstring (p := { p with broadcast_msg := msg }) hstring
  refine ⟨q, ?_, by rw [Ended, hmsg]; exact hend, by rw [hmsg]; exact hstring, hsent⟩
  rw [request, hfileName, Option.bind_eq_bind, Option.bind_some]
  simp only [hassemble, Option.bind_eq_bind, Option.bind_some, hsend]

/-- No event that fits writes behind the port. -/
theorem ended_step {a : Event} (hended : Ended port p) (hfits : a.Fits port)
    (h : (peer port).step p a = some q) : Ended port q := by
  cases a with
  | download line =>
      obtain ⟨name, tail, rfl, htail, hname⟩ := hfits
      obtain ⟨q', hrequest, hended', -⟩ := request_spec hended hname htail
      obtain rfl : q' = q := Option.some.inj (hrequest.symm.trans h)
      exact hended'
  | alarm =>
      have hsend : (if p.alarm then sendBroadcastMsg { p with alarm := false } else none) =
          some q := h
      split_ifs at hsend with halarm
      rw [Ended, sendBroadcastMsg_broadcast_msg hsend]
      exact hended

theorem ended_of_reach (hport : port.length < 1025)
    (h : (peer port).ReachWhile (fun _ a => a.Fits port) p) : Ended port p := by
  have hfirst := length_firstLine_le port
  refine h.induction ?_ fun s a t hs hfits hstep => ended_step hs hfits hstep
  rw [Ended, peer, getElem?_zeros, if_pos (by omega)]

/-- **Requests.** Whatever was requested before, a request leaves the port alone in the
message and sends no more: it never names the file. -/
theorem requests_name_no_file (h : (peer port).ReachWhile (fun _ a => a.Fits port) p)
    (hfits : Fits port name) (htail : LineEnd tail) :
    ∃ q, (peer port).step p (.download (commandLine "download" name tail)) = some q ∧
      cstring q.broadcast_msg = some (firstLine port) ∧
      cstring q.broadcast_msg ≠ some (port ++ ' '.toUInt8 :: name) ∧
      q.sent = if p.counter < 4 then p.sent ++ [firstLine port] else p.sent := by
  have hlen := hfits.room
  have hended := ended_of_reach (by omega) h
  obtain ⟨q, hstep, -, hstring, hsent⟩ := request_spec hended hfits htail
  refine ⟨q, hstep, hstring, ?_, hsent⟩
  rw [hstring]
  intro heq
  have hlength := congrArg List.length (Option.some.inj heq)
  have hfirst := length_firstLine_le port
  rw [List.length_append, List.length_cons] at hlength
  omega

theorem lineEnd_newline : LineEnd ['\n'.toUInt8] := by
  intro c hc
  obtain rfl : '\n'.toUInt8 = c := by simpa using hc
  decide

/-- Port 8000 and the file `f`, after a request for one with a longer name. -/
theorem requests_name_no_file_after :
    ∃ p, (peer (str "8000")).step (peer (str "8000")).init
        (.download (commandLine "download" (str "notes.txt") ['\n'.toUInt8])) = some p ∧
      ∃ q, (peer (str "8000")).step p
          (.download (commandLine "download" (str "f") ['\n'.toUInt8])) = some q ∧
        cstring q.broadcast_msg = some (str "8000") ∧
        cstring q.broadcast_msg ≠ some (str "8000 f") ∧
        q.sent = if p.counter < 4 then p.sent ++ [str "8000"] else p.sent := by
  have hlong : Fits (str "8000") (str "notes.txt") := ⟨by decide +kernel, by decide⟩
  have hfits : Fits (str "8000") (str "f") := ⟨by decide +kernel, by decide⟩
  obtain ⟨p, hstep, -⟩ :=
    request_spec (ended_of_reach (by decide) ⟨[], trivial, rfl⟩) hlong lineEnd_newline
  have hrun : (peer (str "8000")).ReachWhile (fun _ a => a.Fits (str "8000")) p :=
    ⟨[.download _], ⟨⟨_, _, rfl, lineEnd_newline, hlong⟩, fun _ _ => trivial⟩,
      (Machine.exec_cons_eq_some _).mpr ⟨p, hstep, rfl⟩⟩
  exact ⟨p, hstep, requests_name_no_file hrun hfits lineEnd_newline⟩

/-- What is sent at the first request is not the port, a blank and the name. -/
theorem first_request_is_port : ¬ ∀ (port name : List UInt8), Fits port name →
    ∃ q, (peer port).step (peer port).init
        (.download (commandLine "download" name ['\n'.toUInt8])) = some q ∧
      cstring q.broadcast_msg = some (port ++ ' '.toUInt8 :: name) := by
  intro h
  have hfits : Fits (str "8000") (str "f") := ⟨by decide +kernel, by decide⟩
  obtain ⟨q, hstep, hstring⟩ := h _ _ hfits
  obtain ⟨q', hrequest, -, hport, -⟩ :=
    request_spec (ended_of_reach (by decide) ⟨[], trivial, rfl⟩) hfits lineEnd_newline
  obtain rfl : q' = q := Option.some.inj (hrequest.symm.trans hstep)
  exact absurd (hport.symm.trans hstring) (by decide)

end OsCourse.Socket
