import OsCourse.Fs.Files

/-!
# OsCourse.Fs.Cpt

**Copying a file with `cpt`** (`OS-lab-xv6-warm-up/cpt.c`), the form with two
arguments, over `sys_open` and the calls on open files.

`cpt` opens the destination with `O_CREATE|O_RDWR`. An existing file is opened as it
is: there is no mode that empties it, and `create` returns it with its bytes. The loop
then lays the bytes of the source over them, chunk by chunk, so what stood behind stays
(`cpt_copies_iff`).

Files are byte arrays here, named by their inodes, since two paths may be links to one;
what becomes of them on a disk is in `Fs.CptDisk`. Directories, devices and a full table
of files are left out.
-/

namespace OsCourse.Fs

open Lib

/-! ### The file system -/

/-- What a path names. -/
inductive Named
  /-- Nothing, and `nameiparent` finds no directory. -/
  | nowhere
  /-- Nothing, in a directory. -/
  | absent
  | file (inum : Nat)
  deriving DecidableEq, Repr

/-- The regular files. -/
structure FileSys where
  ninodes : Nat
  namei : List UInt8 → Named
  /-- The bytes of an inode, if it is in use. -/
  bytes : Nat → Option (List UInt8)
  named : ∀ path inum, namei path = .file inum → (bytes inum).isSome
  bounded : ∀ inum a, bytes inum = some a → a.length ≤ MAXFILE * BSIZE

/-- `struct file`, of an inode. -/
structure OpenFile where
  ip : Nat
  off : Nat
  readable : Bool
  writable : Bool

namespace FileSys

/-- The bytes of an inode in use. -/
def content (fs : FileSys) (inum : Nat) : List UInt8 := (fs.bytes inum).getD []

theorem length_content_le (fs : FileSys) (inum : Nat) :
    (fs.content inum).length ≤ MAXFILE * BSIZE := by
  rw [content]
  cases ha : fs.bytes inum with
  | none => exact Nat.zero_le _
  | some a => exact fs.bounded inum a ha

/-- The inode `inum` gets the bytes `a`. -/
def put (fs : FileSys) (inum : Nat) (a : List UInt8) (h : a.length ≤ MAXFILE * BSIZE) :
    FileSys where
  ninodes := fs.ninodes
  namei := fs.namei
  bytes := Function.update fs.bytes inum (some a)
  named path i hi := by
    by_cases heq : i = inum
    · rw [heq, Function.update_self]
      rfl
    · rw [Function.update_of_ne heq]
      exact fs.named path i hi
  bounded i b hb := by
    by_cases heq : i = inum
    · rw [heq, Function.update_self] at hb
      exact Option.some.inj hb ▸ h
    · rw [Function.update_of_ne heq] at hb
      exact fs.bounded i b hb

/-- `dirlink`: `path` names the inode `inum`, which is in use. -/
def link (fs : FileSys) (path : List UInt8) (inum : Nat) (h : (fs.bytes inum).isSome) :
    FileSys where
  ninodes := fs.ninodes
  namei := Function.update fs.namei path (.file inum)
  bytes := fs.bytes
  named p i hi := by
    by_cases heq : p = path
    · rw [heq, Function.update_self] at hi
      exact Named.file.inj hi ▸ h
    · rw [Function.update_of_ne heq] at hi
      exact fs.named p i hi
  bounded := fs.bounded

/-- `ialloc`: the first free inode. -/
def ialloc (fs : FileSys) : Option Nat :=
  (List.range' 1 (fs.ninodes - 1)).find? fun inum => (fs.bytes inum).isNone

end FileSys

/-! ### System calls -/

def O_RDONLY : Nat := 0x000
def O_WRONLY : Nat := 0x001
def O_RDWR : Nat := 0x002
def O_CREATE : Nat := 0x200

/-- What `sys_open` does. -/
inductive Opening
  | opened (fs : FileSys) (f : OpenFile)
  /-- It returns -1. -/
  | failed
  /-- `ialloc` finds no inode. -/
  | panics

/-- `sys_open`, of the inode `ip`: the end. -/
def openInode (fs : FileSys) (ip omode : Nat) : Opening :=
  .opened fs
    { ip, off := 0
      readable := omode &&& O_WRONLY = 0
      writable := omode &&& O_WRONLY ≠ 0 ∨ omode &&& O_RDWR ≠ 0 }

/-- `sys_open`. -/
def sysOpen (fs : FileSys) (path : List UInt8) (omode : Nat) : Opening :=
  if omode &&& O_CREATE ≠ 0 then
    -- create(path, T_FILE, 0, 0)
    match fs.namei path with
    | .nowhere => .failed
    | .file inum => openInode fs inum omode
    | .absent =>
        if h : fs.ialloc.isSome then
          let inum := fs.ialloc.get h
          let fs := fs.put inum [] (Nat.zero_le _)
          openInode (fs.link path inum (by simp [fs, FileSys.put])) inum omode
        else .panics
  else
    match fs.namei path with
    | .nowhere | .absent => .failed
    | .file inum => openInode fs inum omode

/-- `fileread(f, addr, n)`: the result, the bytes at `addr`, and `f`. It delivers up to
`k` bytes; `readi` delivers up to `n`. -/
def fileread (fs : FileSys) (f : OpenFile) (n k : Nat) : Int × List UInt8 × OpenFile :=
  if f.readable = false then (-1, [], f)
  else
    let a := fs.content f.ip
    if Readable a.length f.off n then
      let bytes := (a.drop f.off).take k
      (bytes.length, bytes, { f with off := f.off + bytes.length })
    else (-1, [], f)

/-- `writei`, of `src` at `off`: `none` if it returns -1. -/
def FileSys.writei (fs : FileSys) (inum off : Nat) (src : List UInt8) : Option FileSys :=
  if h : Writable (fs.content inum).length off src.length then
    some (fs.put inum (overlay (fs.content inum) off src) (by
      rw [length_overlay h.1.1]
      exact Nat.max_le.mpr ⟨fs.length_content_le inum, h.2⟩))
  else none

/-- `max`: the bytes that one transaction can write. -/
def MAXWRITE : Nat := (10 - 1 - 1 - 2) / 2 * 512

/-- The loop of `filewrite`; whether `i == n` at its end. -/
def filewriteLoop (fs : FileSys) (f : OpenFile) (src : List UInt8) : FileSys × OpenFile × Bool :=
  if src = [] then (fs, f, true)
  else
    let piece := src.take MAXWRITE
    match fs.writei f.ip f.off piece with
    | none => (fs, f, false)
    | some fs => filewriteLoop fs { f with off := f.off + piece.length } (src.drop MAXWRITE)
termination_by src.length
decreasing_by
  have hpos : 0 < src.length := List.length_pos_of_ne_nil ‹_›
  have hmax : 0 < MAXWRITE := by decide
  rw [List.length_drop]
  omega

/-- `filewrite`. -/
def filewrite (fs : FileSys) (f : OpenFile) (src : List UInt8) : FileSys × OpenFile × Int :=
  if f.writable = false then (fs, f, -1)
  else
    let r := filewriteLoop fs f src
    (r.1, r.2.1, if r.2.2 then src.length else -1)

/-! ### The program -/

/-- How many bytes the reads deliver, if so many are left. -/
structure Reads where
  size : Nat → Nat
  pos : ∀ k, 0 < size k
  le : ∀ k, size k ≤ 512

/-- How the program ends. -/
inductive Ending
  | copied
  | writeError
  | cannotOpen (path : List UInt8)
  | panicked
  deriving DecidableEq, Repr

/-- `cptFileToFile`, from its `k`-th read on, with `fuel` reads to go. -/
def cptFileToFile (reads : Reads) : Nat → Nat → FileSys → OpenFile → OpenFile →
    Option (FileSys × Ending)
  | 0, _, _, _, _ => none
  | fuel + 1, k, fs, fd_src, fd_dest =>
      let r := fileread fs fd_src 512 (reads.size k)
      if r.1 > 0 then
        let w := filewrite fs fd_dest r.2.1
        if w.2.2 ≠ r.1 then some (w.1, .writeError)
        else cptFileToFile reads fuel (k + 1) w.1 r.2.2 w.2.1
      else some (fs, .copied)

/-- `main`, with two arguments. -/
def cpt (reads : Reads) (fuel : Nat) (fs : FileSys) (argv1 argv2 : List UInt8) :
    Option (FileSys × Ending) :=
  match sysOpen fs argv1 O_RDONLY with
  | .failed => some (fs, .cannotOpen argv1)
  | .panics => some (fs, .panicked)
  | .opened fs fd1 =>
      match sysOpen fs argv2 (O_CREATE ||| O_RDWR) with
      | .failed => some (fs, .cannotOpen argv2)
      | .panics => some (fs, .panicked)
      | .opened fs fd0 => cptFileToFile reads fuel 0 fs fd1 fd0

/-! ### Opening -/

variable {fs : FileSys} {path : List UInt8} {inum i j off k fuel : Nat} {a c old src : List UInt8}
variable {f : OpenFile}

/-- `cpt` writes to the inode `inum`, which has the bytes `old` when it is opened. -/
inductive Destination (fs : FileSys) (path : List UInt8) : Nat → List UInt8 → Prop
  | existing {inum : Nat} {old : List UInt8} (hpath : fs.namei path = .file inum)
      (hold : fs.bytes inum = some old) : Destination fs path inum old
  | created {inum : Nat} (hpath : fs.namei path = .absent) (hfree : fs.ialloc = some inum) :
      Destination fs path inum []

theorem bytes_of_ialloc (h : fs.ialloc = some inum) : fs.bytes inum = none := by
  have hfound := List.find?_some h
  simpa using hfound

theorem sysOpen_rdonly (h : fs.namei path = .file inum) :
    sysOpen fs path O_RDONLY = .opened fs ⟨inum, 0, true, false⟩ := by
  rw [sysOpen, if_neg (by decide), h]
  rfl

/-- The destination is opened with the bytes it had; other inodes in use are as they were. -/
theorem sysOpen_create (h : Destination fs path inum old) :
    ∃ fs', sysOpen fs path (O_CREATE ||| O_RDWR) = .opened fs' ⟨inum, 0, true, true⟩ ∧
      fs'.namei path = .file inum ∧ fs'.bytes inum = some old ∧
      ∀ i, (fs.bytes i).isSome → fs'.bytes i = fs.bytes i := by
  rw [sysOpen, if_pos (by decide)]
  cases h with
  | existing hpath hold =>
      rw [hpath]
      exact ⟨fs, rfl, hpath, hold, fun i _ => rfl⟩
  | created hpath hfree =>
      have hsome : fs.ialloc.isSome := by rw [hfree]; rfl
      have hget : fs.ialloc.get hsome = inum := by simp [hfree]
      rw [hpath]
      simp only [hsome, dif_pos, hget]
      refine ⟨_, rfl, Function.update_self .., Function.update_self .., fun i hi => ?_⟩
      have hne : i ≠ inum := by
        intro heq
        rw [heq, bytes_of_ialloc hfree] at hi
        cases hi
      exact Function.update_of_ne hne _ _

/-! ### The calls -/

theorem content_of_bytes (ha : fs.bytes inum = some a) : fs.content inum = a := by
  rw [FileSys.content, ha]
  rfl

theorem fileread_spec (ha : fs.bytes f.ip = some a) (hf : f.readable = true)
    (hoff : f.off ≤ a.length) (k : Nat) : fileread fs f 512 k =
      ((((a.drop f.off).take k).length : Int), (a.drop f.off).take k,
        { f with off := f.off + ((a.drop f.off).take k).length }) := by
  have hread : Readable a.length f.off 512 := by
    have hbound := fs.bounded f.ip a ha
    have hsize : MAXFILE * BSIZE + 512 < 2 ^ 32 := by decide
    exact ⟨hoff, by omega⟩
  rw [fileread, if_neg (by simp [hf]), content_of_bytes ha, if_pos hread]

/-- A write of one piece is one `writei`. -/
theorem filewrite_of_piece (hf : f.writable = true) (hpos : src ≠ [])
    (hpiece : src.length ≤ MAXWRITE) : filewrite fs f src =
      (fs.writei f.ip f.off src).elim (fs, f, -1) fun fs =>
        (fs, { f with off := f.off + src.length }, (src.length : Int)) := by
  have htake : src.take MAXWRITE = src := List.take_of_length_le hpiece
  have hdrop : src.drop MAXWRITE = [] := List.drop_of_length_le hpiece
  have hend : ∀ (fs : FileSys) (f : OpenFile), filewriteLoop fs f [] = (fs, f, true) := by
    intro fs f
    rw [filewriteLoop, if_pos rfl]
  rw [filewrite, if_neg (by simp [hf]), filewriteLoop, if_neg hpos]
  simp only [htake, hdrop, hend]
  cases fs.writei f.ip f.off src <;> rfl

/-- `writei` lays bytes over those of the inode. -/
theorem writei_of_writable (h : Writable (fs.content inum).length off src.length) :
    ∃ fs', fs.writei inum off src = some fs' ∧ fs'.namei = fs.namei ∧
      fs'.bytes = Function.update fs.bytes inum (some (overlay (fs.content inum) off src)) := by
  rw [FileSys.writei, dif_pos h]
  exact ⟨_, rfl, rfl, rfl⟩

/-- A write of one piece that fits lays its bytes over those of the inode. -/
theorem filewrite_spec (ha : fs.bytes f.ip = some a) (hf : f.writable = true)
    (hoff : f.off ≤ a.length) (hpos : src ≠ []) (hpiece : src.length ≤ MAXWRITE)
    (hlimit : f.off + src.length ≤ MAXFILE * BSIZE) :
    ∃ fs' : FileSys,
      filewrite fs f src = (fs', { f with off := f.off + src.length }, (src.length : Int)) ∧
      fs'.namei = fs.namei ∧
      fs'.bytes = Function.update fs.bytes f.ip (some (overlay a f.off src)) := by
  have hsize : MAXFILE * BSIZE < 2 ^ 32 := by decide
  have hwrite : Writable (fs.content f.ip).length f.off src.length := by
    rw [content_of_bytes ha]
    exact ⟨⟨hoff, Nat.lt_of_le_of_lt hlimit hsize⟩, hlimit⟩
  obtain ⟨fs', hfs', hnamei, hbytes⟩ := writei_of_writable hwrite
  rw [content_of_bytes ha] at hbytes
  exact ⟨fs', by rw [filewrite_of_piece hf hpos hpiece, hfs']; rfl, hnamei, hbytes⟩

/-! ### The loop -/

/-- With `off` bytes copied, the loop copies the rest: the bytes of the source lie over
those the destination had. The two may be one inode. -/
theorem cptFileToFile_spec (reads : Reads) (k : Nat) (hi : fs.bytes i = some c)
    (hj : fs.bytes j = some (overlay old 0 (c.take off))) (hsame : i = j → old = c)
    (hoff : off ≤ c.length) (hfuel : c.length - off < fuel) :
    ∃ fs', cptFileToFile reads fuel k fs ⟨i, off, true, false⟩ ⟨j, off, true, true⟩ =
        some (fs', .copied) ∧
      fs'.namei = fs.namei ∧ fs'.bytes j = some (overlay old 0 c) := by
  induction fuel generalizing fs off k with
  | zero => omega
  | succ fuel ih =>
      have hread := fileread_spec (f := ⟨i, off, true, false⟩) hi rfl hoff (reads.size k)
      generalize hchunk : (c.drop off).take (reads.size k) = chunk at hread
      have hlen : chunk.length = min (reads.size k) (c.length - off) := by
        rw [← hchunk, List.length_take, List.length_drop]
      have hpos := reads.pos k
      have hle := reads.le k
      by_cases hrest : off = c.length
      · -- nothing is left to read
        have hempty : chunk.length = 0 := by omega
        refine ⟨fs, ?_, rfl, ?_⟩
        · rw [cptFileToFile, hread, if_neg (by simp [hempty])]
        · rw [hj, hrest, List.take_length]
      · have hbound := fs.bounded i c hi
        have hcopied : (c.take off).length = off := List.length_take_of_le hoff
        have hprefix : chunk <+: c.drop off := hchunk ▸ List.take_prefix _ _
        have htake : c.take off ++ chunk = c.take (off + chunk.length) := by
          rw [List.take_add, ← List.prefix_iff_eq_take.mp hprefix]
        have hnext : overlay (overlay old 0 (c.take off)) off chunk =
            overlay old 0 (c.take (off + chunk.length)) := by
          rw [← htake, ← overlay_append, hcopied]
        have hreach : off ≤ (overlay old 0 (c.take off)).length := by
          rw [length_overlay (Nat.zero_le _), hcopied]
          omega
        have hne : chunk ≠ [] := List.ne_nil_of_length_pos (by omega)
        obtain ⟨fs', hwrite, hnamei, hbytes⟩ :=
          filewrite_spec (f := ⟨j, off, true, true⟩) hj rfl hreach hne
            (by unfold MAXWRITE; omega) (by dsimp only; omega)
        dsimp only at hwrite hbytes
        rw [hnext] at hbytes
        -- the source is as it was, also where it is the destination
        have hi' : fs'.bytes i = some c := by
          rw [hbytes]
          by_cases heq : i = j
          · have hself : overlay c 0 (c.take (off + chunk.length)) = c :=
              (overlay_prefix_eq_iff (List.take_prefix _ _)).mpr rfl
            rw [heq, Function.update_self, hsame heq, hself]
          · rw [Function.update_of_ne heq, hi]
        have hj' : fs'.bytes j = some (overlay old 0 (c.take (off + chunk.length))) := by
          rw [hbytes, Function.update_self]
        obtain ⟨fs'', hrun, hnamei', hbytes'⟩ := ih (k + 1) hi' hj' (by omega) (by omega)
        refine ⟨fs'', ?_, hnamei'.trans hnamei, hbytes'⟩
        rw [cptFileToFile, hread, if_pos (by omega), hwrite, if_neg (by simp)]
        exact hrun

/-- The bytes of the source over those of the destination are the source iff the
destination had no more. -/
theorem overlay_eq_iff_length : overlay old 0 c = c ↔ old.length ≤ c.length := by
  rw [overlay_prefix_eq_iff (List.prefix_refl c), List.drop_length, List.drop_eq_nil_iff]

/-- What `cpt` leaves in the destination. -/
theorem cpt_spec (reads : Reads) {argv1 argv2 : List UInt8} (hsrc : fs.namei argv1 = .file i)
    (hc : fs.bytes i = some c) (hdest : Destination fs argv2 j old) (hfuel : c.length < fuel) :
    ∃ fs', cpt reads fuel fs argv1 argv2 = some (fs', .copied) ∧ fs'.namei argv2 = .file j ∧
      fs'.bytes j = some (overlay old 0 c) := by
  obtain ⟨fs₁, hopen, hnamei, hold, hother⟩ := sysOpen_create hdest
  have hi : fs₁.bytes i = some c := by
    rw [hother i (by rw [hc]; rfl), hc]
  have hsame : i = j → old = c := by
    intro heq
    rw [← heq, hi] at hold
    exact (Option.some.inj hold).symm
  have hj : fs₁.bytes j = some (overlay old 0 (c.take 0)) := by
    rw [hold, overlay_zero]
    simp
  obtain ⟨fs', hrun, hnamei', hbytes⟩ :=
    cptFileToFile_spec reads 0 hi hj hsame (Nat.zero_le _) hfuel
  refine ⟨fs', ?_, by rw [hnamei', hnamei], hbytes⟩
  simp only [cpt, sysOpen_rdonly hsrc, hopen, hrun]

/-- **Copying.** Whatever the reads deliver, `cpt` ends without a write error, and the
destination has the bytes of the source iff it had no more than these before. -/
theorem cpt_copies_iff (reads : Reads) (fs : FileSys) {argv1 argv2 : List UInt8}
    (hsrc : fs.namei argv1 = .file i) (hc : fs.bytes i = some c)
    (hdest : Destination fs argv2 j old) (hfuel : c.length < fuel) :
    ∃ fs', cpt reads fuel fs argv1 argv2 = some (fs', .copied) ∧ fs'.namei argv2 = .file j ∧
      (fs'.bytes j = some c ↔ old.length ≤ c.length) := by
  obtain ⟨fs', hrun, hnamei, hbytes⟩ := cpt_spec reads hsrc hc hdest hfuel
  refine ⟨fs', hrun, hnamei, ?_⟩
  rw [hbytes, Option.some.injEq]
  exact overlay_eq_iff_length

/-- Every read delivers what it is asked for. -/
def Reads.full : Reads := ⟨fun _ => 512, fun _ => by decide, fun _ => by decide⟩

/-- Two files, named `a` and `b`. -/
def FileSys.pair (a b : List UInt8) (ha : a.length ≤ 512) (hb : b.length ≤ 512) : FileSys where
  ninodes := 3
  namei path := if path = [97] then .file 1 else if path = [98] then .file 2 else .absent
  bytes inum := if inum = 1 then some a else if inum = 2 then some b else none
  named path inum h := by
    split_ifs at h
    · obtain rfl := Named.file.inj h
      rfl
    · obtain rfl := Named.file.inj h
      rfl
  bounded inum c h := by
    have hlimit : 512 ≤ MAXFILE * BSIZE := by decide
    split_ifs at h
    · obtain rfl := Option.some.inj h
      omega
    · obtain rfl := Option.some.inj h
      omega

theorem cpt_copies_iff_short : ∃ fs',
    cpt .full 3 (.pair [1, 2] [3] (by decide) (by decide)) [97] [98] = some (fs', .copied) ∧
      fs'.namei [98] = .file 2 ∧ (fs'.bytes 2 = some [1, 2] ↔ 1 ≤ 2) := by
  have hdest : Destination (.pair [1, 2] [3] (by decide) (by decide)) [98] 2 [3] :=
    .existing rfl rfl
  have hfuel : ([1, 2] : List UInt8).length < 3 := by decide
  exact cpt_copies_iff .full _ rfl rfl hdest hfuel

/-- Copying one byte to a file of two bytes leaves the second. -/
theorem cpt_keeps_rest : ¬ ∀ (reads : Reads) (fs : FileSys) (argv1 argv2 : List UInt8)
    (i j : Nat) (c old : List UInt8) (fuel : Nat), fs.namei argv1 = .file i →
      fs.bytes i = some c → Destination fs argv2 j old →
      ∀ fs', cpt reads fuel fs argv1 argv2 = some (fs', .copied) → fs'.bytes j = some c := by
  intro h
  have hdest : Destination (.pair [1] [2, 3] (by decide) (by decide)) [98] 2 [2, 3] :=
    .existing rfl rfl
  have hsrc : (FileSys.pair [1] [2, 3] (by decide) (by decide)).namei [97] = .file 1 := rfl
  have hfuel : ([1] : List UInt8).length < 2 := by decide
  obtain ⟨fs', hrun, -, hbytes⟩ := cpt_spec .full hsrc rfl hdest hfuel
  have hcopy := h _ _ [97] [98] 1 2 [1] [2, 3] 2 rfl rfl hdest fs' hrun
  rw [hbytes] at hcopy
  exact absurd hcopy (by decide)

end OsCourse.Fs
