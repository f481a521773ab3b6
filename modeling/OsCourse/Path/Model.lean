import OsCourse.Lib.CString

/-!
# OsCourse.Path.Model

The search path of the system-call kernel (`Os-lab-xv6-system-call`): the table
of `path.h`, `set` of `proc.c` that fills it, the search of `exec` (`exec.c`) that
reads it, and the path lookup of `fs.c`.

A `char *` that is only read forwards is the text from it to its NUL. An access
outside of an array, or of the memory of the calling process, has no result.
-/

namespace OsCourse.Path

open Lib

/-- The character `'/'`. -/
abbrev slash : UInt8 := 47

/-- The character `':'`. -/
abbrev colon : UInt8 := 58

/-- `DIRSIZ`: length of a name in a directory. -/
abbrev DIRSIZ : Nat := 14

/-! ### `fs.c` -/

/-- `skipelem`: the next name of a path, cut to `DIRSIZ`, and the path after it. -/
def skipelem (path : List UInt8) : Option (List UInt8 × List UInt8) :=
  match path.dropWhile (· = slash) with
  | [] => none
  | c :: s =>
      let name := ((c :: s).takeWhile (· ≠ slash)).take DIRSIZ
      some (name, ((c :: s).dropWhile (· ≠ slash)).dropWhile (· = slash))

theorem skipelem_lt {path name rest : List UInt8} (h : skipelem path = some (name, rest)) :
    rest.length < path.length := by
  unfold skipelem at h
  split at h
  · cases h
  · next c s hpath =>
    obtain ⟨-, rfl⟩ := Prod.mk.inj (Option.some.inj h)
    have hc : c ≠ slash := by
      intro hc
      have hhead := List.head?_dropWhile_not (fun c => decide (c = slash)) path
      rw [hpath] at hhead
      simp [hc] at hhead
    have hle := (List.dropWhile_sublist (fun c => decide (c = slash)) (l := path)).length_le
    have hle₁ := (List.dropWhile_sublist (fun c => decide (c ≠ slash)) (l := s)).length_le
    have hle₂ := (List.dropWhile_sublist (fun c => decide (c = slash))
      (l := s.dropWhile fun c => decide (c ≠ slash))).length_le
    rw [hpath, List.length_cons] at hle
    rw [List.dropWhile_cons_of_pos (by simpa using hc)]
    omega

/-- A file system as path lookup sees it, with the current directory of the
process that looks a path up. -/
structure FileSystem (ι : Type) where
  root : ι
  cwd : ι
  /-- `ip->type == T_DIR`. -/
  isDir : ι → Bool
  dirlookup : ι → List UInt8 → Option ι

variable {ι : Type}

/-- The loop of `namex`: the inode, and the last name put into `name`. -/
def namexLoop (fs : FileSystem ι) (nameiparent : Bool) (ip : ι) (name path : List UInt8) :
    Option (ι × List UInt8) :=
  match _h : skipelem path with
  | none => if nameiparent then none else some (ip, name)
  | some (elem, rest) =>
      if !fs.isDir ip then none
      else if nameiparent && rest.isEmpty then some (ip, elem)
      else
        match fs.dirlookup ip elem with
        | none => none
        | some next => namexLoop fs nameiparent next elem rest
termination_by path.length
decreasing_by exact skipelem_lt _h

/-- Where `namex` starts. -/
def start (fs : FileSystem ι) (path : List UInt8) : ι :=
  if path.head? = some slash then fs.root else fs.cwd

/-- `namex`. -/
def namex (fs : FileSystem ι) (path : List UInt8) (nameiparent : Bool) :
    Option (ι × List UInt8) :=
  namexLoop fs nameiparent (start fs path) [] path

/-- `namei`. -/
def namei (fs : FileSystem ι) (path : List UInt8) : Option ι := (namex fs path false).map Prod.fst

/-! ### `path.h` -/

/-- `PATH` and `indexPath`. -/
structure Table where
  PATH : Vector (CBuf 128) 10
  indexPath : Nat
  deriving DecidableEq

namespace Table

/-- The table as the kernel starts with it. -/
def empty : Table := ⟨Vector.replicate 10 (CBuf.zeros 128), 0⟩

/-- `PATH[j][k] = c`. -/
def write (t : Table) (j k : Nat) (c : UInt8) : Option Table :=
  if hj : j < 10 then
    (CBuf.write t.PATH[j] k c).map fun b => { t with PATH := t.PATH.set j b hj }
  else none

end Table

/-- The first `indexPath` entries of `PATH` are the strings `dirs`. -/
structure Stores (t : Table) (dirs : List (List UInt8)) : Prop where
  indexPath : t.indexPath = dirs.length
  entry : ∀ (i : Nat) dir, dirs[i]? = some dir → t.PATH[i]?.bind CBuf.cstring = some dir

/-! ### `set` -/

/-- The loop of `set`, for an argument in the memory `newPath`: the table, `j`
and `k` at its end. -/
def setLoop (newPath : List UInt8) : Nat → Table → Nat → Nat → Nat → Option (Table × Nat × Nat)
  | 0, t, _, j, k => some (t, j, k)
  | pathLen + 1, t, i, j, k => do
      let c ← newPath[i]?
      if c = colon then
        let t ← t.write j (k + 1) 0
        if j + 1 ≥ 10 then some (t, j + 1, k)
        else
          let t := { t with indexPath := j + 1 }
          -- the character after the ':' is stored in the same iteration
          let c ← newPath[i + 1]?
          let t ← t.write (j + 1) 0 c
          setLoop newPath pathLen t (i + 2) (j + 1) 1
      else
        let t ← t.write j k c
        setLoop newPath pathLen t (i + 1) j (k + 1)

/-- `strlen`, of a string in memory; `none` if the memory ends before a NUL. -/
def strlen (mem : List UInt8) : Option Nat :=
  if 0 ∈ mem then some (mem.takeWhile (· ≠ 0)).length else none

/-- `set`. -/
def set (newPath : List UInt8) (t : Table) : Option Table := do
  let pathLen ← strlen newPath
  let (t, j, k) ← setLoop newPath pathLen t 0 0 0
  t.write (j + 1) (k + 1) 0

/-! ### `exec` -/

/-- `for(k = 0; k < strlen(s); k++) buf[k+j] = s[k];` -/
def copyText {N : Nat} (buf : CBuf N) (j : Nat) : List UInt8 → Option (CBuf N)
  | [] => some buf
  | c :: s => do
      let buf ← CBuf.write buf j c
      copyText buf (j + 1) s

/-- The name that `exec` puts together in `pathBuff` for an entry of `PATH`. -/
def joinPath (entry : CBuf 128) (path : List UInt8) : Option (CBuf 256) := do
  let dir ← entry.cstring
  let pathBuff ← copyText (CBuf.zeros 256) 0 dir
  let first ← CBuf.read pathBuff 0
  if first ≠ slash then
    let pathBuff ← CBuf.write pathBuff dir.length slash
    copyText pathBuff (dir.length + 1) path
  else copyText pathBuff dir.length path

/-- The loop of `exec` over the entries of `PATH`, `n` of them to go from entry
`i` on: the inode, or `none` within `some` if no entry leads to one. -/
def searchLoop (fs : FileSystem ι) (t : Table) (path : List UInt8) : Nat → Nat → Option (Option ι)
  | 0, _ => some none
  | n + 1, i => do
      let entry ← t.PATH[i]?
      let pathBuff ← joinPath entry path
      let text ← pathBuff.cstring
      match namei fs text with
      | some ip => some (some ip)
      | none => searchLoop fs t path n (i + 1)

/-- The inode that `exec` goes on with; `none` within `some` if it returns -1 for
lack of a file. -/
def search (fs : FileSystem ι) (t : Table) (path : List UInt8) : Option (Option ι) :=
  match namei fs path with
  | some ip => some (some ip)
  | none => searchLoop fs t path t.indexPath 0

end OsCourse.Path
