import OsCourse.Path.Lookup
import OsCourse.Path.Refs

/-!
# OsCourse.Path.Namei

`namei` and `nameiparent` on directories (`Os-lab-xv6-system-call/fs.c`), with
the entries `dirlookup` goes through, the references and locks, and the panics
of `ilock` and `dirlookup`.

Nobody else changes the directories during a call. The inodes that entries name
are allocated, and have a link, so that `iput` frees none; whenever `iget` needs
a slot of the cache it finds one.

`names_eq` says what `skipelem` makes of a path, `path_lookup` what the two
functions return and what they leave behind.
-/

namespace OsCourse.Path

open Lib

/-! ### Directories -/

/-- The inodes of the device, by number. -/
abbrev Inum := UInt32

/-- `ROOTINO`. -/
abbrev ROOTINO : Inum := 1

/-- `T_DIR`. -/
abbrev T_DIR : Int16 := 1

/-- `struct dirent`. -/
structure Dirent where
  inum : UInt16
  name : CBuf DIRSIZ

/-- The inodes, and the current directory of the process; type 0 is that of a
free inode. -/
structure Graph where
  type : Inum → Int16
  entries : Inum → List Dirent
  cwd : Inum
  root_allocated : type ROOTINO ≠ 0
  cwd_allocated : type cwd ≠ 0
  named_allocated : ∀ dp, ∀ de ∈ entries dp, de.inum ≠ 0 → type de.inum.toUInt32 ≠ 0

/-- `strncmp(p, q, n) == 0`; behind each text stands a NUL. -/
def strncmp : Nat → List UInt8 → List UInt8 → Bool
  | 0, _, _ => true
  | n + 1, p, q =>
      if p.headD 0 ≠ 0 ∧ p.headD 0 = q.headD 0 then strncmp n p.tail q.tail
      else p.headD 0 = q.headD 0

/-- `namecmp(s, t) == 0`. -/
def namecmp (s t : List UInt8) : Bool := strncmp DIRSIZ s t

/-- The loop of `dirlookup`: the number of the first entry with that name. -/
def findEntry (name : List UInt8) : List Dirent → Option Inum
  | [] => none
  | de :: des =>
      if de.inum = 0 then findEntry name des
      else if namecmp name de.name.toList then some de.inum.toUInt32
      else findEntry name des

namespace Graph

variable (g : Graph)

/-- `ilock`, where `none` is also its panic at a free inode. -/
def ilock (s : Inodes Inum) (ip : Inum) : Option (Inodes Inum) :=
  if g.type ip = 0 then none else s.ilock ip

/-- `dirlookup`; `none` if it panics. -/
def dirlookup (s : Inodes Inum) (dp : Inum) (name : List UInt8) :
    Option (Option Inum × Inodes Inum) :=
  if g.type dp ≠ T_DIR then none
  else
    match findEntry name (g.entries dp) with
    | some inum => some (some inum, s.iget inum)
    | none => some (none, s)

/-- The loop of `namex`. -/
def namexLoop (nameiparent : Bool) (s : Inodes Inum) (ip : Inum) (name path : List UInt8) :
    Option (Option (Inum × List UInt8) × Inodes Inum) :=
  match _h : skipelem path with
  | none => if nameiparent then some (none, s.iput ip) else some (some (ip, name), s)
  | some (elem, rest) => do
      let s ← g.ilock s ip
      if g.type ip ≠ T_DIR then
        let s ← s.iunlockput ip
        some (none, s)
      else if nameiparent && rest.isEmpty then
        let s ← s.iunlock ip
        some (some (ip, elem), s)
      else
        let r ← g.dirlookup s ip elem
        match r.1 with
        | none =>
            let s ← r.2.iunlockput ip
            some (none, s)
        | some next =>
            let s ← r.2.iunlockput ip
            namexLoop nameiparent s next elem rest
termination_by path.length
decreasing_by exact skipelem_lt _h

/-- `namex`; `name` is what its buffer holds before. -/
def namex (s : Inodes Inum) (path : List UInt8) (nameiparent : Bool) (name : List UInt8) :
    Option (Option (Inum × List UInt8) × Inodes Inum) :=
  let ip := if path.head? = some slash then ROOTINO else g.cwd
  g.namexLoop nameiparent (s.iget ip) ip name path

/-- `namei`. -/
def namei (s : Inodes Inum) (path name : List UInt8) : Option (Option Inum × Inodes Inum) :=
  (g.namex s path false name).map fun r => (r.1.map Prod.fst, r.2)

/-- `nameiparent`: the parent, and the last name. -/
def nameiparent (s : Inodes Inum) (path name : List UInt8) :
    Option (Option (Inum × List UInt8) × Inodes Inum) :=
  g.namex s path true name

end Graph

/-! ### Names -/

/-- The text up to its NUL. -/
def upToNul (l : List UInt8) : List UInt8 := l.takeWhile (· ≠ 0)

theorem upToNul_cons {c : UInt8} (hc : c ≠ 0) (l : List UInt8) :
    upToNul (c :: l) = c :: upToNul l := by
  simp [upToNul, hc]

theorem upToNul_of_noNul {l : List UInt8} (h : 0 ∉ l) : upToNul l = l := by
  rw [upToNul, List.takeWhile_eq_self_iff]
  intro c hc
  rw [decide_eq_true_iff]
  rintro rfl
  exact h hc

theorem upToNul_eq_nil_iff {l : List UInt8} : upToNul l = [] ↔ l.headD 0 = 0 := by
  cases l with
  | nil => simp [upToNul]
  | cons c l =>
      by_cases hc : c = 0
      · simp [upToNul, hc]
      · simp [upToNul_cons hc, hc]

theorem take_upToNul_eq_nil_iff (n : Nat) (l : List UInt8) :
    (upToNul l).take (n + 1) = [] ↔ l.headD 0 = 0 := by
  rw [List.take_eq_nil_iff, upToNul_eq_nil_iff]
  exact or_iff_right (Nat.succ_ne_zero n)

/-- `strncmp` compares the first `n` characters of the texts. -/
theorem strncmp_iff (n : Nat) (p q : List UInt8) :
    strncmp n p q = true ↔ (upToNul p).take n = (upToNul q).take n := by
  induction n generalizing p q with
  | zero => simp [strncmp]
  | succ n ih =>
      rw [strncmp]
      by_cases hp : p.headD 0 = 0
      · rw [if_neg fun h => h.1 hp, decide_eq_true_iff, hp, upToNul_eq_nil_iff.mpr hp,
          List.take_nil, eq_comm, ← take_upToNul_eq_nil_iff n q, eq_comm]
      · by_cases hq : q.headD 0 = 0
        · have hne : p.headD 0 ≠ q.headD 0 := fun h => hp (h.trans hq)
          rw [if_neg fun h => hne h.2, decide_eq_true_iff, upToNul_eq_nil_iff.mpr hq,
            List.take_nil, take_upToNul_eq_nil_iff]
          exact ⟨fun h => absurd h hne, fun h => absurd h hp⟩
        · -- neither text is at its end
          obtain ⟨c, p, rfl⟩ := List.exists_cons_of_ne_nil (l := p) (by rintro rfl; exact hp rfl)
          obtain ⟨d, q, rfl⟩ := List.exists_cons_of_ne_nil (l := q) (by rintro rfl; exact hq rfl)
          rw [List.headD_cons] at hp hq
          rw [List.headD_cons, List.headD_cons, List.tail_cons, List.tail_cons, upToNul_cons hp,
            upToNul_cons hq, List.take_succ_cons, List.take_succ_cons, List.cons.injEq]
          by_cases hcd : c = d
          · rw [if_pos ⟨hp, hcd⟩, ih]
            simp [hcd]
          · rw [if_neg fun h => hcd h.2, decide_eq_true_iff]
            simp [hcd]

/-- The name in an entry: it ends at its NUL, or fills the field. -/
def Dirent.text (de : Dirent) : List UInt8 := upToNul de.name.toList

/-- A name that a path component can be. -/
structure IsName (name : List UInt8) : Prop where
  short : name.length ≤ DIRSIZ
  noNul : 0 ∉ name

theorem namecmp_iff {name : List UInt8} (hname : IsName name) (de : Dirent) :
    namecmp name de.name.toList = true ↔ de.text = name := by
  have hlen : de.text.length ≤ DIRSIZ := by
    have hle : de.text.length ≤ de.name.toList.length := (List.takeWhile_sublist _).length_le
    rwa [Vector.length_toList] at hle
  have hfull : (upToNul de.name.toList).take DIRSIZ = de.text := List.take_of_length_le hlen
  rw [namecmp, strncmp_iff, upToNul_of_noNul hname.noNul, List.take_of_length_le hname.short,
    hfull, eq_comm]

/-- `dirlookup` finds the first entry in use that has the name. -/
theorem findEntry_eq {name : List UInt8} (hname : IsName name) (des : List Dirent) :
    findEntry name des =
      (des.find? fun de => de.inum ≠ 0 ∧ de.text = name).map fun de => de.inum.toUInt32 := by
  induction des with
  | nil => rfl
  | cons de des ih =>
      rw [findEntry]
      by_cases hfree : de.inum = 0
      · rw [if_pos hfree, ih, List.find?_cons_of_neg (by simp [hfree])]
      · rw [if_neg hfree]
        by_cases hsame : de.text = name
        · rw [if_pos ((namecmp_iff hname de).mpr hsame),
            List.find?_cons_of_pos (by simp [hfree, hsame])]
          rfl
        · rw [if_neg fun h => hsame ((namecmp_iff hname de).mp h), ih,
            List.find?_cons_of_neg (by simp [hsame])]

/-! ### The names of a path -/

/-- The names that `skipelem` gives, called again and again until it returns 0. -/
def names (path : List UInt8) : List (List UInt8) :=
  match _h : skipelem path with
  | none => []
  | some (name, rest) => name :: names rest
termination_by path.length
decreasing_by exact skipelem_lt _h

/-- **`skipelem`** goes through the components of a path. -/
theorem names_eq (path : List UInt8) : names path = components path := by
  fun_induction names path with
  | case1 path hend => rw [components_eq, hend]
  | case2 path name rest hstep ih => rw [components_eq, hstep, ih]

/-- Characters of a path. -/
theorem skipelem_mem {path name rest : List UInt8} (h : skipelem path = some (name, rest)) :
    (∀ c ∈ name, c ∈ path) ∧ ∀ c ∈ rest, c ∈ path := by
  unfold skipelem at h
  split at h
  · cases h
  · next c s hpath =>
    obtain ⟨rfl, rfl⟩ := Prod.mk.inj (Option.some.inj h)
    have hmem : ∀ d ∈ c :: s, d ∈ path := by
      rw [← hpath]
      exact fun d hd => (List.dropWhile_sublist _).subset hd
    refine ⟨fun d hd => hmem d ?_, fun d hd => hmem d ?_⟩
    · exact (List.takeWhile_sublist _).subset (List.mem_of_mem_take hd)
    · exact (List.dropWhile_sublist _).subset ((List.dropWhile_sublist _).subset hd)

theorem skipelem_isName {path name rest : List UInt8} (hpath : 0 ∉ path)
    (h : skipelem path = some (name, rest)) : IsName name := by
  refine ⟨?_, fun hmem => hpath ((skipelem_mem h).1 0 hmem)⟩
  unfold skipelem at h
  split at h
  · cases h
  · obtain ⟨rfl, -⟩ := Prod.mk.inj (Option.some.inj h)
    exact List.length_take_le _ _

/-- `skipelem` has removed the slashes behind the name: the rest is empty iff
there is no other name. -/
theorem skipelem_last {path name rest : List UInt8} (h : skipelem path = some (name, rest)) :
    rest.isEmpty = true ↔ components rest = [] := by
  rw [List.isEmpty_iff]
  constructor
  · rintro rfl
    rfl
  · intro hnone
    by_contra hne
    obtain ⟨c, s, rfl⟩ := List.exists_cons_of_ne_nil hne
    have hc : c ≠ slash := by
      unfold skipelem at h
      split at h
      · cases h
      · next d t hpath =>
        obtain ⟨-, hrest⟩ := Prod.mk.inj (Option.some.inj h)
        intro hc
        have hhead := List.head?_dropWhile_not (fun c => decide (c = slash))
          ((d :: t).dropWhile (· ≠ slash))
        rw [hrest] at hhead
        simp [hc] at hhead
    rw [components, words_takeWhile hc, List.map_cons] at hnone
    cases hnone

/-! ### What the calls find -/

/-- The directories as a file system for path lookup: an entry in use is looked
up by its name. -/
def Graph.fileSystem (g : Graph) : FileSystem Inum where
  root := ROOTINO
  cwd := g.cwd
  isDir ip := g.type ip = T_DIR
  dirlookup dp name :=
    ((g.entries dp).find? fun de => de.inum ≠ 0 ∧ de.text = name).map fun de => de.inum.toUInt32

/-- Look up all names but the last: a directory, and that name. -/
def followParent {ι : Type} (fs : FileSystem ι) (ip : ι) (l : List (List UInt8)) :
    Option (ι × List UInt8) :=
  l.getLast?.bind fun last =>
    (follow fs ip l.dropLast).bind fun dp => if fs.isDir dp then some (dp, last) else none

theorem followParent_cons {ι : Type} (fs : FileSystem ι) (ip : ι) (name : List UInt8)
    {l : List (List UInt8)} (hl : l ≠ []) :
    followParent fs ip (name :: l) =
      if fs.isDir ip then (fs.dirlookup ip name).bind fun next => followParent fs next l
      else none := by
  obtain ⟨name', l', rfl⟩ := List.exists_cons_of_ne_nil hl
  rw [followParent, List.getLast?_cons_cons, List.dropLast_cons_cons, follow]
  split_ifs
  · cases fs.dirlookup ip name with
    | none => cases (name' :: l').getLast? <;> rfl
    | some next => rfl
  · cases (name' :: l').getLast? <;> rfl

/-- With `nameiparent`, the loop stops one name early. -/
theorem namexLoop_parent {ι : Type} (fs : FileSystem ι) (ip : ι) (name path : List UInt8) :
    namexLoop fs true ip name path = followParent fs ip (components path) := by
  fun_induction namexLoop fs true ip name path with
  | case1 ip name path hskip => rw [components_eq, hskip]; rfl
  | case2 => contradiction
  | case3 ip name path elem rest hskip hdir =>
      have hfile : ¬ fs.isDir ip = true := by simpa using hdir
      rw [components_eq, hskip]
      by_cases hrest : components rest = []
      · simp only [hrest]
        exact (if_neg hfile).symm
      · simp only [followParent_cons fs ip elem hrest, if_neg hfile]
  | case4 ip name path elem rest hskip hdir hlast =>
      have hdir' : fs.isDir ip = true := by simpa using hdir
      have hrest : components rest = [] := (skipelem_last hskip).mp (by simpa using hlast)
      rw [components_eq, hskip]
      simp only [hrest]
      exact (if_pos hdir').symm
  | case5 ip name path elem rest hskip hdir hlast hlookup =>
      have hdir' : fs.isDir ip = true := by simpa using hdir
      have hrest : components rest ≠ [] := fun h => hlast (by simp [(skipelem_last hskip).mpr h])
      rw [components_eq, hskip]
      simp only [followParent_cons fs ip elem hrest, if_pos hdir', hlookup, Option.bind_none]
  | case6 ip name path elem rest hskip hdir hlast next hlookup ih =>
      have hdir' : fs.isDir ip = true := by simpa using hdir
      have hrest : components rest ≠ [] := fun h => hlast (by simp [(skipelem_last hskip).mpr h])
      rw [components_eq, hskip, ih]
      simp only [followParent_cons fs ip elem hrest, if_pos hdir', hlookup, Option.bind_some]

/-! ### References and locks -/

section Calls

variable {g : Graph} {nameiparent : Bool} {s : Inodes Inum} {ip : Inum}
  {name path elem rest : List UInt8}

theorem Graph.namexLoop_end (h : skipelem path = none) :
    g.namexLoop nameiparent s ip name path =
      if nameiparent then some (none, s.iput ip) else some (some (ip, name), s) := by
  rw [Graph.namexLoop, h]

theorem Graph.namexLoop_elem (h : skipelem path = some (elem, rest)) :
    g.namexLoop nameiparent s ip name path = (g.ilock s ip).bind fun s =>
      if g.type ip ≠ T_DIR then (s.iunlockput ip).bind fun s => some (none, s)
      else if nameiparent && rest.isEmpty then
        (s.iunlock ip).bind fun s => some (some (ip, elem), s)
      else (g.dirlookup s ip elem).bind fun r =>
        match r.1 with
        | none => (r.2.iunlockput ip).bind fun s => some (none, s)
        | some next => (r.2.iunlockput ip).bind fun s =>
            g.namexLoop nameiparent s next elem rest := by
  rw [Graph.namexLoop, h]
  rfl

/-- An inode that was looked up is allocated. -/
theorem Graph.dirlookup_allocated {next : Inum}
    (h : g.fileSystem.dirlookup ip name = some next) : g.type next ≠ 0 := by
  obtain ⟨de, hfind, rfl⟩ := Option.map_eq_some_iff.mp h
  have hused := List.find?_some hfind
  rw [decide_eq_true_iff] at hused
  exact g.named_allocated ip de (List.mem_of_find?_eq_some hfind) hused.1

/-- None of the panics is reached: the loop is the one over the file system. -/
theorem Graph.namexLoop_eq (hpath : 0 ∉ path) (hip : g.type ip ≠ 0) :
    g.namexLoop nameiparent s ip name path = namexRefs g.fileSystem nameiparent s ip name path := by
  induction hn : path.length using Nat.strongRecOn generalizing s ip name path with
  | ind n ih =>
      subst hn
      cases hstep : skipelem path with
      | none => rw [Graph.namexLoop_end hstep, namexRefs_end hstep]
      | some p =>
          obtain ⟨elem, rest⟩ := p
          have hrest : 0 ∉ rest := fun h => hpath ((skipelem_mem hstep).2 0 h)
          have hentry : findEntry elem (g.entries ip) = g.fileSystem.dirlookup ip elem :=
            findEntry_eq (skipelem_isName hpath hstep) (g.entries ip)
          rw [Graph.namexLoop_elem hstep, namexRefs_elem hstep, Graph.ilock, if_neg hip]
          congr 1
          funext s₁
          by_cases hdir : g.type ip = T_DIR
          · have hisDir : ¬ (!g.fileSystem.isDir ip) = true := by simp [Graph.fileSystem, hdir]
            rw [if_neg (not_not.mpr hdir), if_neg hisDir]
            split_ifs with hlast
            · rfl
            · rw [Graph.dirlookup, if_neg (not_not.mpr hdir), hentry]
              cases hnext : g.fileSystem.dirlookup ip elem with
              | none => rfl
              | some next =>
                  dsimp only [Option.bind_some]
                  congr 1
                  funext s₂
                  exact ih _ (skipelem_lt hstep) hrest (Graph.dirlookup_allocated hnext) rfl
          · have hisDir : (!g.fileSystem.isDir ip) = true := by simp [Graph.fileSystem, hdir]
            rw [if_pos hdir, if_pos hisDir]

/-- The loop returns, with one reference to what it returns. -/
theorem namexRefs_eq {ι : Type} [DecidableEq ι] (fs : FileSystem ι) (nameiparent : Bool)
    {s : Inodes ι} (hs : Unlocked s) (ip : ι) (name path : List UInt8) :
    namexRefs fs nameiparent (withRef s (some ip)) ip name path =
      some (namexLoop fs nameiparent ip name path,
        withRef s ((namexLoop fs nameiparent ip name path).map Prod.fst)) := by
  obtain ⟨⟨r, s'⟩, hr⟩ :=
    Option.isSome_iff_exists.mp (namexRefs_isSome fs nameiparent hs ip name path)
  obtain ⟨hfound, hrefs⟩ := namexRefs_spec hr
  rw [hr, hrefs, hfound]

theorem graph_namex_eq (g : Graph) (hs : Unlocked s) (hpath : 0 ∉ path) (nameiparent : Bool)
    (name : List UInt8) :
    g.namex s path nameiparent name =
      some (namexLoop g.fileSystem nameiparent (start g.fileSystem path) name path,
        withRef s ((namexLoop g.fileSystem nameiparent (start g.fileSystem path) name path).map
          Prod.fst)) := by
  have hstart : (if path.head? = some slash then ROOTINO else g.cwd) = start g.fileSystem path := rfl
  have halloc : g.type (start g.fileSystem path) ≠ 0 := by
    rw [← hstart]
    split_ifs
    · exact g.root_allocated
    · exact g.cwd_allocated
  rw [Graph.namex, hstart, Graph.namexLoop_eq hpath halloc, iget_eq,
    namexRefs_eq g.fileSystem nameiparent hs]

end Calls

/-- **Path lookup.** `skipelem` goes through the names of the path; `namei`
returns what they lead to, and `nameiparent` the directory the others lead to
and the last one. Both take one reference to the inode they return, and leave
no lock behind. -/
theorem path_lookup (g : Graph) (s : Inodes Inum) (path name : List UInt8) (hs : Unlocked s)
    (hpath : 0 ∉ path) :
    names path = components path ∧
    (∃ r, r = follow g.fileSystem (start g.fileSystem path) (components path) ∧
      g.namei s path name = some (r, withRef s r)) ∧
    ∃ r, r = followParent g.fileSystem (start g.fileSystem path) (components path) ∧
      g.nameiparent s path name = some (r, withRef s (r.map Prod.fst)) := by
  refine ⟨names_eq path, ⟨_, rfl, ?_⟩, ⟨_, rfl, ?_⟩⟩
  · rw [Graph.namei, graph_namex_eq g hs hpath, Option.map_some, namexLoop_eq]
  · rw [Graph.nameiparent, graph_namex_eq g hs hpath, namexLoop_parent]

/-- A root directory with the file `a`. -/
def rootWithFile : Graph where
  type i := if i = 1 then 1 else 2
  entries i := if i = 1 then [⟨2, #v[97, 0, 0, 0, 0, 0, 0, 0, 0, 0, 0, 0, 0, 0]⟩] else []
  cwd := 1
  root_allocated := by decide
  cwd_allocated := by decide
  named_allocated dp de hde hused := by split <;> decide

theorem path_lookup_file :
    ∃ s', rootWithFile.namei ⟨fun _ => 0, fun _ => false⟩ [47, 97, 47] [] = some (some 2, s') := by
  obtain ⟨-, ⟨r, hr, hcall⟩, -⟩ := path_lookup rootWithFile ⟨fun _ => 0, fun _ => false⟩
    [47, 97, 47] [] ⟨fun _ => rfl, fun _ => Int.le_refl 0⟩ (by decide)
  have htwo : r = some 2 := hr.trans (by decide +kernel)
  exact ⟨_, by rw [hcall, htwo]⟩

end OsCourse.Path
