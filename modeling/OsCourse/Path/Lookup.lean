import Mathlib.Data.List.TakeWhile
import OsCourse.Lib.Words
import OsCourse.Path.Model

/-!
# OsCourse.Path.Lookup

What the path lookup of `fs.c` computes: `skipelem`, called again and again,
gives the words of a path between its `'/'`s, each cut to `DIRSIZ`
(`components`), and `namei` follows them from the root or the current directory.
-/

namespace OsCourse.Path

open Lib

/-- The separator of paths. -/
def isSlash (c : UInt8) : Bool := c = slash

/-- The names of a path, each cut to `DIRSIZ`. -/
def components (path : List UInt8) : List (List UInt8) :=
  (words isSlash path).map (List.take DIRSIZ)

/-- The first word of a path and the rest of it. -/
theorem words_takeWhile {c : UInt8} (hc : c ≠ slash) (s : List UInt8) :
    words isSlash (c :: s) = (c :: s).takeWhile (· ≠ slash) ::
      words isSlash ((c :: s).dropWhile (· ≠ slash)) := by
  have hword : ∀ d ∈ (c :: s).takeWhile (· ≠ slash), isSlash d = false := by
    intro d hd
    simpa [isSlash] using List.mem_takeWhile_imp hd
  have hgap : Gap isSlash ((c :: s).dropWhile (· ≠ slash)) := by
    intro d hd
    have hhead := List.head?_dropWhile_not (fun c => decide (c ≠ slash)) (c :: s)
    rw [hd] at hhead
    simpa [isSlash] using hhead
  calc words isSlash (c :: s)
      = words isSlash ((c :: s).takeWhile (· ≠ slash) ++ (c :: s).dropWhile (· ≠ slash)) := by
        rw [List.takeWhile_append_dropWhile]
    _ = _ := by
        rw [words_append (.inr hgap), words_singleton _ hword, List.singleton_append]
        rw [List.takeWhile_cons_of_pos (by simpa using hc)]
        exact List.cons_ne_nil _ _

/-- `skipelem` takes the components of a path one by one. -/
theorem components_eq (path : List UInt8) :
    components path = match skipelem path with
      | none => []
      | some (name, rest) => name :: components rest := by
  unfold components
  rw [← words_dropWhile path, skipelem]
  have hslash : (path.dropWhile fun c => decide (c = slash)) = path.dropWhile isSlash := rfl
  cases hpath : path.dropWhile isSlash with
  | nil => rw [hslash, hpath]; rfl
  | cons c s =>
      have hc : c ≠ slash := by
        intro hc
        have hhead := List.head?_dropWhile_not isSlash path
        rw [hpath] at hhead
        simp [hc, isSlash] at hhead
      rw [hslash, hpath, words_takeWhile hc, List.map_cons]
      simp only
      rw [← words_dropWhile ((c :: s).dropWhile (· ≠ slash))]
      rfl

variable {ι : Type}

/-- Look the names up one after another, each in the directory found before. -/
def follow (fs : FileSystem ι) (ip : ι) : List (List UInt8) → Option ι
  | [] => some ip
  | name :: names =>
      if fs.isDir ip then (fs.dirlookup ip name).bind fun next => follow fs next names else none

theorem namexLoop_eq (fs : FileSystem ι) (ip : ι) (name path : List UInt8) :
    (namexLoop fs false ip name path).map Prod.fst = follow fs ip (components path) := by
  fun_induction namexLoop fs false ip name path with
  | case1 => contradiction
  | case2 ip name path hskip _ => rw [components_eq, hskip]; rfl
  | case3 ip name path elem rest hskip hdir =>
      rw [components_eq, hskip]
      simp only [follow]
      rw [if_neg (by simpa using hdir)]
      rfl
  | case4 ip name path elem rest hskip hdir hparent => simp at hparent
  | case5 ip name path elem rest hskip hdir hparent hlookup =>
      rw [components_eq, hskip]
      simp only [follow]
      rw [if_pos (by simpa using hdir), hlookup]
      rfl
  | case6 ip name path elem rest hskip hdir hparent next hlookup ih =>
      rw [components_eq, hskip, ih]
      simp only [follow]
      rw [if_pos (by simpa using hdir), hlookup, Option.bind_some]

/-- **`namei`** follows the components of a path. -/
theorem namei_eq (fs : FileSystem ι) (path : List UInt8) :
    namei fs path = follow fs (start fs path) (components path) := by
  rw [namei, namex, namexLoop_eq]

end OsCourse.Path
