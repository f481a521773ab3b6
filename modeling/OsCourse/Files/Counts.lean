import Mathlib.Algebra.Order.BigOperators.Group.Finset
import OsCourse.Files.Model

/-!
# OsCourse.Files.Counts

The reference count of a file is the number of its references: descriptors of all the
processes, and files that processes in calls have in hand. At two places a descriptor is
not one: `sys_dup` has filled it before it calls `filedup`, and `exit` empties it only when
`fileclose` has returned.

`Inv` says this for every state in between calls and in them, and that the processes that run
are those with a working directory. From it, `filedup` and `fileclose` never panic, no file
that is in use is given out, and what is behind a file or is a working directory is given
back exactly once (`reach_inv`).
-/

namespace OsCourse.Files

open OsCourse.Lib

variable {π : Type}

/-! ### References -/

/-- The descriptor that is not a reference. -/
def Pc.flux : Pc π → Option Nat
  | .duping fd _ => some fd
  | .exitClose fd _ => some fd
  | _ => none

/-- The descriptors that are references. -/
def counted (ofile : Fds Ptr) (pc : Pc π) : Fds Ptr :=
  match pc.flux with
  | none => ofile
  | some fd => ofile.set fd none

/-- The files that a process in a call has in hand. -/
def Pc.hand : Pc π → List Ptr
  | .allocated _ f => [f]
  | .pipe1 f0 => [f0]
  | .pipe2 f0 f1 => [f0, f1]
  | .pipe3 f0 f1 => [f0, f1]
  | .pipe4 _ _ f1 => [f1]
  | .closing l => l.filterMap fun b => match b with
      | .file f => some f
      | .obj _ => none
  | _ => []

/-- The objects that it has in hand. -/
def Pc.objs : Pc π → List Obj
  | .opening ip => [.inode ip]
  | .allocated ip _ => [.inode ip]
  | .typing ip _ => [.inode ip]
  | .moving ip => [.inode ip]
  | .closing l => l.filterMap fun b => match b with
      | .file _ => none
      | .obj o => some o
  | .exitClose _ l => l
  | _ => []

/-- The objects that it has: these, and its working directory. -/
def held (cwd : Option Nat) (pc : Pc π) : List Obj := cwd.toList.map .inode ++ pc.objs

/-- A process that runs, and so has a working directory. -/
@[simp] def Pc.Live : Pc π → Prop
  | .unused | .embryo | .zombie => False
  | _ => True

/-- The references of a process to a file. -/
def owns (ofile : Fds Ptr) (pc : Pc π) (f : Ptr) : Nat :=
  (counted ofile pc).count (some f) + pc.hand.count f

/-- The files that have no object yet. -/
def Pc.fresh : Pc π → List Ptr
  | .allocated _ f => [f]
  | .typing _ f => [f]
  | .pipe1 f0 => [f0]
  | .pipe2 f0 f1 => [f0, f1]
  | _ => []

/-- The files in hand that have one. -/
def Pc.ready : Pc π → List Ptr
  | .pipe3 f0 f1 => [f0, f1]
  | .pipe4 _ _ f1 => [f1]
  | _ => []

/-- What stands in the descriptors of a process. -/
def Pc.Stands (ofile : Fds Ptr) : Pc π → Prop
  | .unused | .zombie => ofile = List.replicate NOFILE none
  | .typing _ f => some f ∈ ofile
  | .duping fd f => ofile[fd]? = some (some f) ∧ some f ∈ ofile.set fd none
  | .pipe4 fd0 f0 _ => ofile[fd0]? = some (some f0)
  | .exits fd => fd ≤ NOFILE ∧ ∀ i < fd, ofile[i]? = some none
  | .exitClose fd _ => fd < NOFILE ∧ ∀ i < fd, ofile[i]? = some none
  | .forking _ i => i ≤ NOFILE
  | _ => True

/-- What a process knows of its descriptors and of its files. -/
structure Own (file : Ptr → File) (ofile : Fds Ptr) (pc : Pc π) : Prop where
  length : ofile.length = NOFILE
  stands : pc.Stands ofile
  fresh : ∀ f ∈ pc.fresh, file f = ⟨1, none⟩
  ready : ∀ f ∈ pc.ready, (file f).obj ≠ none
  /-- Behind a descriptor is an object, also in other processes. -/
  typed : ∀ f, some f ∈ counted ofile pc → (file f).obj ≠ none ∨ ∃ ip, pc = .typing ip f

/-- The files with an object. -/
def entries (file : Ptr → File) (o : Obj) : Nat :=
  (Finset.univ.filter fun f => (file f).obj = some o).card

/-! ### Counting -/

/-- A sum in which one term changes. -/
theorem sum_frame {α : Type} [Fintype α] [DecidableEq α] {g h : α → Nat} (p : α)
    (heq : ∀ q, q ≠ p → g q = h q) : ∑ q, g q + h p = ∑ q, h q + g p := by
  have hrest : ∑ q ∈ Finset.univ.erase p, g q = ∑ q ∈ Finset.univ.erase p, h q :=
    Finset.sum_congr rfl fun q hq => heq q (Finset.ne_of_mem_erase hq)
  rw [← Finset.add_sum_erase _ g (Finset.mem_univ p),
    ← Finset.add_sum_erase _ h (Finset.mem_univ p), hrest]
  omega

theorem le_sum {α : Type} [Fintype α] (g : α → Nat) (p : α) : g p ≤ ∑ q, g q :=
  Finset.single_le_sum (fun _ _ => Nat.zero_le _) (Finset.mem_univ p)

theorem add_le_sum {α : Type} [Fintype α] [DecidableEq α] (g : α → Nat) {p q : α} (h : p ≠ q) :
    g p + g q ≤ ∑ r, g r := by
  rw [← Finset.sum_pair h]
  exact Finset.sum_le_sum_of_subset (Finset.subset_univ _)

/-- Storing a descriptor over a free one. -/
theorem count_set_some {ofile : Fds Ptr} {fd : Nat} (h : ofile[fd]? = some none) (f g : Ptr) :
    (ofile.set fd (some f)).count (some g) = ofile.count (some g) + [f].count g := by
  obtain ⟨hlt, hget⟩ := List.getElem?_eq_some_iff.mp h
  rw [List.count_set hlt, hget]
  simp [List.count_singleton]

theorem mem_set_self {ofile : Fds Ptr} {fd : Nat} (h : ofile[fd]? = some none) (f : Ptr) :
    some f ∈ ofile.set fd (some f) := by
  rw [← List.count_pos_iff, count_set_some h, List.count_singleton_self]
  exact Nat.succ_pos _

/-- Emptying a descriptor. -/
theorem count_set_none {ofile : Fds Ptr} {fd : Nat} {f : Ptr} (h : ofile[fd]? = some (some f))
    (g : Ptr) : ofile.count (some g) = (ofile.set fd none).count (some g) + [f].count g := by
  obtain ⟨hlt, hget⟩ := List.getElem?_eq_some_iff.mp h
  have hpos : ∀ h : f = g, 0 < ofile.count (some g) := fun h =>
    List.count_pos_iff.mpr (h ▸ hget ▸ List.getElem_mem hlt)
  rw [List.count_set hlt, hget]
  by_cases hfg : f = g
  · have := hpos hfg
    simp [hfg]
    omega
  · simp [hfg]

/-- Changing one file of the table. -/
theorem entries_update (file : Ptr → File) (f : Ptr) (x : File) (o : Obj) :
    entries (Function.update file f x) o + (file f).obj.toList.count o =
      entries file o + x.obj.toList.count o := by
  have htoList : ∀ y : Option Obj, y.toList.count o = if y = some o then 1 else 0 := by
    intro y
    cases y <;> simp [List.count_singleton]
  have hsum := sum_frame (g := fun g => if (Function.update file f x g).obj = some o then 1 else 0)
    (h := fun g => if (file g).obj = some o then 1 else 0) f fun g hg => by
      rw [Function.update_of_ne hg]
  simp only [Function.update_self] at hsum
  rw [entries, entries, Finset.card_filter, Finset.card_filter, htoList, htoList]
  exact hsum

theorem opened_gain [DecidableEq π] (s : State π) (o o' : Obj) :
    (s.gain o).opened o' = s.opened o' + [o].count o' := by
  by_cases ho : o' = o
  · rw [ho, List.count_singleton_self]
    exact Function.update_self _ _ _
  · rw [List.count_singleton, if_neg (by simpa using Ne.symm ho)]
    exact Function.update_of_ne ho _ _

theorem closed_drop [DecidableEq π] (s : State π) (o o' : Obj) :
    (s.drop o).closed o' = s.closed o' + [o].count o' := by
  by_cases ho : o' = o
  · rw [ho, List.count_singleton_self]
    exact Function.update_self _ _ _
  · rw [List.count_singleton, if_neg (by simpa using Ne.symm ho)]
    exact Function.update_of_ne ho _ _

theorem fdalloc_some {ofile : Fds Ptr} {f : Ptr} {r : Nat × Fds Ptr}
    (h : fdalloc ofile f = some r) :
    ofile[r.1]? = some none ∧ r.2 = ofile.set r.1 (some f) := by
  rw [fdalloc] at h
  split_ifs at h with hlt
  cases h
  have hnone := List.findIdx_getElem (w := hlt)
  rw [Option.isNone_iff_eq_none] at hnone
  exact ⟨by rw [List.getElem?_eq_getElem hlt, hnone], rfl⟩

theorem argfd_some {ofile : Fds Ptr} {fd : Nat} {f : Ptr} (h : argfd ofile fd = some f) :
    ofile[fd]? = some (some f) := by
  rwa [argfd, Option.join_eq_some_iff] at h

theorem argfd_none {ofile : Fds Ptr} {fd : Nat} (hlt : fd < ofile.length)
    (h : argfd ofile fd = none) : ofile[fd]? = some none := by
  rw [argfd, List.getElem?_eq_getElem hlt] at h
  rw [List.getElem?_eq_getElem hlt]
  exact congrArg some h

theorem filealloc_some {s : State π} {f : Ptr} (h : s.filealloc = some f) :
    (s.file f).ref = 0 := by
  simpa using List.find?_some h

/-! ### The invariant -/

theorem owns_pos_of_counted {ofile : Fds Ptr} {pc : Pc π} {f : Ptr}
    (h : some f ∈ counted ofile pc) : 0 < owns ofile pc f :=
  Nat.add_pos_left (List.count_pos_iff.mpr h) _

theorem owns_pos_of_hand {ofile : Fds Ptr} {pc : Pc π} {f : Ptr} (h : f ∈ pc.hand) :
    0 < owns ofile pc f :=
  Nat.add_pos_right _ (List.count_pos_iff.mpr h)

theorem ready_subset (pc : Pc π) : pc.ready ⊆ pc.hand := by
  cases pc <;> simp [Pc.ready, Pc.hand]

namespace Own

variable {file file' : Ptr → File} {ofile : Fds Ptr} {pc : Pc π}

theorem owns_pos_of_fresh (h : Own file ofile pc) {f : Ptr} (hf : f ∈ pc.fresh) :
    0 < owns ofile pc f := by
  cases pc with
  | typing ip g =>
      have hstands := h.stands
      rw [Pc.fresh, List.mem_singleton] at hf
      exact owns_pos_of_counted (hf ▸ hstands)
  | allocated ip g => exact owns_pos_of_hand hf
  | pipe1 f0 => exact owns_pos_of_hand hf
  | pipe2 f0 f1 => exact owns_pos_of_hand hf
  | _ => cases hf

/-- A process knows the same of a table in which its files are the same. -/
theorem frame (h : Own file ofile pc)
    (hobj : ∀ f, 0 < owns ofile pc f → (file' f).obj = (file f).obj)
    (hfresh : ∀ f ∈ pc.fresh, (file' f).ref = (file f).ref) : Own file' ofile pc where
  length := h.length
  stands := h.stands
  fresh f hf := by
    rw [← h.fresh f hf]
    exact File.ext (hfresh f hf) (hobj f (h.owns_pos_of_fresh hf))
  ready f hf := by
    rw [hobj f (owns_pos_of_hand (ready_subset pc hf))]
    exact h.ready f hf
  typed f hf := by
    rw [hobj f (owns_pos_of_counted hf)]
    exact h.typed f hf

end Own

variable [Fintype π]

/-- The invariant. -/
structure Inv (s : State π) : Prop where
  safe : s.panicked = false
  refs : ∀ f, (s.file f).ref = ∑ p, owns (s.ofile p) (s.pc p) f
  free : ∀ f, (s.file f).ref = 0 → (s.file f).obj = none
  objs : ∀ o, s.opened o = s.closed o + entries s.file o + ∑ p, (held (s.cwd p) (s.pc p)).count o
  own : ∀ p, Own s.file (s.ofile p) (s.pc p)
  dir : ∀ p, s.cwd p ≠ none ↔ (s.pc p).Live
  child : ∀ p q i, s.pc p = .forking q i → s.pc q = .embryo ∧
    s.ofile q = (s.ofile p).take i ++ List.replicate (NOFILE - i) none
  parent : ∀ p p' q i i', s.pc p = .forking q i → s.pc p' = .forking q i' → p = p'

namespace Inv

variable {s s' : State π}

theorem owns_le (h : Inv s) (p : π) (f : Ptr) : owns (s.ofile p) (s.pc p) f ≤ (s.file f).ref := by
  rw [h.refs]
  exact le_sum (fun p => owns (s.ofile p) (s.pc p) f) p

/-- A process changes its own references, and the table where it has one or where there is
none. -/
theorem change [DecidableEq π] (h : Inv s) (p : π)
    (hofile : ∀ q, q ≠ p → s'.ofile q = s.ofile q) (hpc : ∀ q, q ≠ p → s'.pc q = s.pc q)
    (hcwd : ∀ q, q ≠ p → s'.cwd q = s.cwd q) (hsafe : s'.panicked = false)
    (hrefs : ∀ f, (s'.file f).ref + owns (s.ofile p) (s.pc p) f =
      (s.file f).ref + owns (s'.ofile p) (s'.pc p) f)
    (hfree : ∀ f, (s'.file f).ref = 0 → (s'.file f).obj = none)
    (hobjs : ∀ o,
      s'.opened o + (s.closed o + entries s.file o + (held (s.cwd p) (s.pc p)).count o) =
        s.opened o + (s'.closed o + entries s'.file o + (held (s'.cwd p) (s'.pc p)).count o))
    (hkeep : ∀ f, owns (s.ofile p) (s.pc p) f = 0 → (s.file f).ref ≠ 0 → s'.file f = s.file f)
    (hshared : ∀ f, 2 ≤ (s.file f).ref → (s'.file f).obj = (s.file f).obj)
    (hown : Own s'.file (s'.ofile p) (s'.pc p)) (hdir : s'.cwd p ≠ none ↔ (s'.pc p).Live)
    (hchild : ∀ q i, s.pc q ≠ .forking p i) (hforking : ∀ q i, s'.pc p ≠ .forking q i) :
    Inv s' where
  safe := hsafe
  refs f := by
    -- only the term of `p` changes in the sum
    have hsum := sum_frame (g := fun q => owns (s'.ofile q) (s'.pc q) f)
      (h := fun q => owns (s.ofile q) (s.pc q) f) p fun q hq => by
        simp only [hofile q hq, hpc q hq]
    have hold := h.refs f
    have hnew := hrefs f
    omega
  free := hfree
  objs o := by
    have hsum := sum_frame (g := fun q => (held (s'.cwd q) (s'.pc q)).count o)
      (h := fun q => (held (s.cwd q) (s.pc q)).count o) p fun q hq => by
        simp only [hcwd q hq, hpc q hq]
    have hold := h.objs o
    have hnew := hobjs o
    omega
  own q := by
    by_cases hq : q = p
    · exact hq ▸ hown
    rw [hofile q hq, hpc q hq]
    -- what another process has, this one has not alone
    have htwo := fun f => add_le_sum (fun r => owns (s.ofile r) (s.pc r) f) hq
    refine (h.own q).frame (fun f hf => ?_) fun f hf => ?_
    · have href := h.refs f
      by_cases hp : owns (s.ofile p) (s.pc p) f = 0
      · have hle := h.owns_le q f
        rw [hkeep f hp (by omega)]
      · have hle := htwo f
        exact hshared f (by omega)
    · have hpos := (h.own q).owns_pos_of_fresh hf
      have hone := congrArg File.ref ((h.own q).fresh f hf)
      have href := h.refs f
      have hle := htwo f
      simp only at hone
      rw [hkeep f (by omega) (by omega)]
  dir q := by
    by_cases hq : q = p
    · exact hq ▸ hdir
    · rw [hcwd q hq, hpc q hq]
      exact h.dir q
  child r q i hr := by
    have hrp : r ≠ p := fun heq => hforking q i (heq ▸ hr)
    rw [hpc r hrp] at hr
    obtain ⟨hq, hcopy⟩ := h.child r q i hr
    have hqp : q ≠ p := fun heq => hchild r i (heq ▸ hr)
    rw [hpc q hqp, hofile q hqp, hofile r hrp]
    exact ⟨hq, hcopy⟩
  parent r r' q i i' hr hr' := by
    have hrp : r ≠ p := fun heq => hforking q i (heq ▸ hr)
    have hrp' : r' ≠ p := fun heq => hforking q i' (heq ▸ hr')
    rw [hpc r hrp] at hr
    rw [hpc r' hrp'] at hr'
    exact h.parent r r' q i i' hr hr'

/-- The same of a process that runs on and stays where it is. -/
theorem move [DecidableEq π] (h : Inv s) (p : π)
    (hofile : ∀ q, q ≠ p → s'.ofile q = s.ofile q) (hpc : ∀ q, q ≠ p → s'.pc q = s.pc q)
    (hsafe : s'.panicked = false)
    (hrefs : ∀ f, (s'.file f).ref + owns (s.ofile p) (s.pc p) f =
      (s.file f).ref + owns (s'.ofile p) (s'.pc p) f)
    (hfree : ∀ f, (s'.file f).ref = 0 → (s'.file f).obj = none)
    (hobjs : ∀ o, s'.opened o + (s.closed o + entries s.file o + (s.pc p).objs.count o) =
      s.opened o + (s'.closed o + entries s'.file o + (s'.pc p).objs.count o))
    (hkeep : ∀ f, owns (s.ofile p) (s.pc p) f = 0 → (s.file f).ref ≠ 0 → s'.file f = s.file f)
    (hshared : ∀ f, 2 ≤ (s.file f).ref → (s'.file f).obj = (s.file f).obj)
    (hown : Own s'.file (s'.ofile p) (s'.pc p)) (hcwd : s'.cwd = s.cwd)
    (hlive : (s.pc p).Live) (hlive' : (s'.pc p).Live) (hforking : ∀ q i, s'.pc p ≠ .forking q i) :
    Inv s' := by
  refine h.change p hofile hpc (fun q _ => congrFun hcwd q) hsafe hrefs hfree (fun o => ?_) hkeep
    hshared hown ?_ (fun q i hq => ?_) hforking
  · have hcount := hobjs o
    rw [held, held, List.count_append, List.count_append, hcwd]
    omega
  · rw [hcwd, h.dir p]
    exact iff_of_true hlive hlive'
  · rw [(h.child q p i hq).1] at hlive
    exact hlive

variable [DecidableEq π]

/-- A process goes on, with the references that it has. -/
theorem setOfile (h : Inv s) (p : π) {ofile : Fds Ptr} {c : Pc π} (hown : Own s.file ofile c)
    (hrefs : ∀ f, owns ofile c f = owns (s.ofile p) (s.pc p) f)
    (hobjs : ∀ o, c.objs.count o = (s.pc p).objs.count o)
    (hlive : (s.pc p).Live) (hlive' : c.Live) (hforking : ∀ q i, c ≠ .forking q i) :
    Inv ((s.setOfile p ofile).goto p c) := by
  have hofile : ((s.setOfile p ofile).goto p c).ofile p = ofile := Function.update_self _ _ _
  have hpc : ((s.setOfile p ofile).goto p c).pc p = c := Function.update_self _ _ _
  exact h.move p (fun q hq => Function.update_of_ne hq _ _)
    (fun q hq => Function.update_of_ne hq _ _) h.safe (fun f => by rw [hofile, hpc, hrefs]; rfl)
    h.free (fun o => by rw [hpc, hobjs]; rfl) (fun _ _ _ => rfl) (fun _ _ => rfl)
    (by rwa [hofile, hpc]) rfl hlive (by rwa [hpc]) (by rwa [hpc])

theorem goto (h : Inv s) (p : π) {c : Pc π} (hown : Own s.file (s.ofile p) c)
    (hrefs : ∀ f, owns (s.ofile p) c f = owns (s.ofile p) (s.pc p) f)
    (hobjs : ∀ o, c.objs.count o = (s.pc p).objs.count o)
    (hlive : (s.pc p).Live) (hlive' : c.Live) (hforking : ∀ q i, c ≠ .forking q i) :
    Inv (s.goto p c) := by
  have hofile := h.setOfile p hown hrefs hobjs hlive hlive' hforking
  rwa [State.setOfile, Function.update_eq_self] at hofile

/-- A step that changes one file: a free one, or one that the process has. -/
theorem one (h : Inv s) (p : π) (f : Ptr) (x : File) (c : Pc π)
    (hown : Own (Function.update s.file f x) (s.ofile p) c)
    (hhas : owns (s.ofile p) (s.pc p) f = 0 → (s.file f).ref = 0)
    (href : x.ref + owns (s.ofile p) (s.pc p) f = (s.file f).ref + owns (s.ofile p) c f)
    (hrefs : ∀ g, g ≠ f → owns (s.ofile p) c g = owns (s.ofile p) (s.pc p) g)
    (hfree : x.ref = 0 → x.obj = none) (hshared : 2 ≤ (s.file f).ref → x.obj = (s.file f).obj)
    (hobjs : ∀ o, (s.file f).obj.toList.count o + (s.pc p).objs.count o =
      x.obj.toList.count o + c.objs.count o)
    (hlive : (s.pc p).Live) (hlive' : c.Live) (hforking : ∀ q i, c ≠ .forking q i) :
    Inv ((s.setFile f x).goto p c) := by
  have hpc : ((s.setFile f x).goto p c).pc p = c := Function.update_self _ _ _
  have hself : ((s.setFile f x).goto p c).file f = x := Function.update_self _ _ _
  have hne : ∀ g, g ≠ f → ((s.setFile f x).goto p c).file g = s.file g :=
    fun g hg => Function.update_of_ne hg _ _
  refine h.move p (fun q _ => rfl) (fun q hq => Function.update_of_ne hq _ _) h.safe ?_ ?_ ?_ ?_
    ?_ (by rwa [hpc]) rfl hlive (by rwa [hpc]) (by rwa [hpc])
  · intro g
    rw [hpc]
    by_cases hg : g = f
    · rw [hg, hself]
      exact href
    · rw [hne g hg]
      exact congrArg _ (hrefs g hg).symm
  · intro g hzero
    by_cases hg : g = f
    · rw [hg, hself] at hzero ⊢
      exact hfree hzero
    · rw [hne g hg] at hzero ⊢
      exact h.free g hzero
  · intro o
    have hentries := entries_update s.file f x o
    have hcount := hobjs o
    rw [hpc]
    change s.opened o + _ = s.opened o + (s.closed o + entries (Function.update s.file f x) o + _)
    omega
  · intro g hg hzero
    exact hne g fun heq => hzero (heq ▸ hhas (heq ▸ hg))
  · intro g htwo
    by_cases hg : g = f
    · rw [hg, hself]
      exact hshared (hg ▸ htwo)
    · rw [hne g hg]

/-- `filealloc` gives out a file that nobody has. -/
theorem took (h : Inv s) {p : π} {f : Ptr} (hf : s.filealloc = some f) {c : Pc π}
    (hstands : c.Stands (s.ofile p)) (hfresh : ∀ g ∈ c.fresh, g = f ∨ g ∈ (s.pc p).fresh)
    (hready : c.ready = []) (hcounted : counted (s.ofile p) c = counted (s.ofile p) (s.pc p))
    (hhand : ∀ g, c.hand.count g = (s.pc p).hand.count g + [f].count g)
    (hobjs : ∀ o, c.objs.count o = (s.pc p).objs.count o)
    (htyping : ∀ ip g, s.pc p ≠ .typing ip g) (hlive : (s.pc p).Live) (hlive' : c.Live)
    (hforking : ∀ q i, c ≠ .forking q i) : Inv ((s.take f).goto p c) := by
  have hzero := filealloc_some hf
  have hnone := h.free f hzero
  have hrefs : ∀ g, owns (s.ofile p) c g = owns (s.ofile p) (s.pc p) g + [f].count g := by
    intro g
    rw [owns, owns, hcounted, hhand, Nat.add_assoc]
  refine h.one p f _ c ⟨(h.own p).length, hstands, ?_, by simp [hready], ?_⟩ (fun _ => hzero) ?_ ?_
    nofun (fun _ => rfl) (fun o => by rw [hobjs]) hlive hlive' hforking
  · intro g hg
    by_cases hgf : g = f
    · rw [hgf, Function.update_self]
      exact File.ext rfl hnone
    · rw [Function.update_of_ne hgf]
      exact (h.own p).fresh g ((hfresh g hg).resolve_left hgf)
  · intro g hg
    rw [hcounted] at hg
    have hobj := ((h.own p).typed g hg).resolve_right fun ⟨ip, heq⟩ => htyping ip g heq
    have hgf : g ≠ f := by
      rintro rfl
      exact hobj hnone
    rw [Function.update_of_ne hgf]
    exact .inl hobj
  · rw [hrefs, List.count_singleton_self, hzero]
    change 1 + _ = _
    omega
  · intro g hg
    rw [hrefs, List.count_singleton, if_neg (by simpa using hg.symm), Nat.add_zero]

/-- `filedup` of a file that the process has. -/
theorem duped (h : Inv s) {p : π} {f : Ptr} {c : Pc π} (hown : Own s.file (s.ofile p) c)
    (hfresh : c.fresh = []) (hhas : 0 < owns (s.ofile p) (s.pc p) f)
    (hrefs : ∀ g, owns (s.ofile p) c g = owns (s.ofile p) (s.pc p) g + [f].count g)
    (hobjs : ∀ o, c.objs.count o = (s.pc p).objs.count o)
    (hlive : (s.pc p).Live) (hlive' : c.Live) (hforking : ∀ q i, c ≠ .forking q i) :
    Inv ((s.filedup f).goto p c) := by
  have hpos := h.owns_le p f
  rw [State.filedup, if_neg (by omega)]
  refine h.one p f _ c ?_ (by omega) ?_ ?_ nofun (fun _ => rfl) ?_ hlive hlive' hforking
  · refine hown.frame (fun g _ => ?_) (by simp [hfresh])
    by_cases hg : g = f
    · rw [hg, Function.update_self]
    · rw [Function.update_of_ne hg]
  · rw [hrefs, List.count_singleton_self]
    change (s.file f).ref + 1 + _ = _
    omega
  · intro g hg
    rw [hrefs, List.count_singleton, if_neg (by simpa using hg.symm), Nat.add_zero]
  · intro o
    rw [hobjs]

/-- `fileclose` of a file that the process has. -/
theorem fileclosed (h : Inv s) {p : π} {f : Ptr} {c : Pc π} (hown : Own s.file (s.ofile p) c)
    (hfresh : c.fresh = [])
    (hrefs : ∀ g, owns (s.ofile p) (s.pc p) g = owns (s.ofile p) c g + [f].count g)
    (hobjs : ∀ o, c.objs.count o = (s.fileclose f).2.count o + (s.pc p).objs.count o)
    (hlive : (s.pc p).Live) (hlive' : c.Live) (hforking : ∀ q i, c ≠ .forking q i) :
    Inv ((s.fileclose f).1.goto p c) := by
  have hpos := h.owns_le p f
  have href := hrefs f
  rw [List.count_singleton_self] at href
  have hothers : ∀ g, g ≠ f → owns (s.ofile p) c g = owns (s.ofile p) (s.pc p) g := by
    intro g hg
    rw [hrefs, List.count_singleton, if_neg (by simpa using hg.symm), Nat.add_zero]
  rw [State.fileclose, if_neg (by omega)] at hobjs ⊢
  split_ifs at hobjs ⊢ with hlast
  · refine h.one p f _ c ?_ (by omega) (by simp only; omega) hothers
      (fun h0 => by simp only at h0; omega) (fun _ => rfl) (fun o => by rw [hobjs o]; simp)
      hlive hlive' hforking
    refine hown.frame (fun g _ => ?_) (by simp [hfresh])
    by_cases hg : g = f
    · rw [hg, Function.update_self]
    · rw [Function.update_of_ne hg]
  · refine h.one p f _ c ?_ (by omega) (by simp only; omega) hothers (fun _ => rfl) (by omega)
      (fun o => by rw [hobjs o]; simp) hlive hlive' hforking
    -- it was the last reference, so that the process has none left
    refine hown.frame (fun g hg => ?_) (by simp [hfresh])
    rw [Function.update_of_ne]
    rintro rfl
    omega

/-- An object in hand is given back. -/
theorem dropped (h : Inv s) {p : π} {o : Obj} {c : Pc π} (hown : Own s.file (s.ofile p) c)
    (hrefs : ∀ g, owns (s.ofile p) c g = owns (s.ofile p) (s.pc p) g)
    (hobjs : ∀ o', (s.pc p).objs.count o' = c.objs.count o' + [o].count o')
    (hlive : (s.pc p).Live) (hlive' : c.Live) (hforking : ∀ q i, c ≠ .forking q i) :
    Inv ((s.drop o).goto p c) := by
  have hpc : ((s.drop o).goto p c).pc p = c := Function.update_self _ _ _
  refine h.move p (fun q _ => rfl) (fun q hq => Function.update_of_ne hq _ _) h.safe ?_ h.free ?_
    (fun _ _ _ => rfl) (fun _ _ => rfl) (by rwa [hpc]) rfl hlive (by rwa [hpc]) (by rwa [hpc])
  · intro g
    rw [hpc]
    exact congrArg _ (hrefs g).symm
  · intro o'
    have hclosed := closed_drop s o o'
    rw [hpc, hobjs]
    change s.opened o' + _ = s.opened o' + ((s.drop o).closed o' + entries s.file o' + _)
    omega

/-- A process gives back its working directory, and has another one or none. -/
theorem iputCwd (h : Inv s) {p : π} {cwd : Option Nat} {c : Pc π} (hown : Own s.file (s.ofile p) c)
    (hrefs : ∀ f, owns (s.ofile p) c f = owns (s.ofile p) (s.pc p) f)
    (hobjs : held cwd c = (s.pc p).objs) (hlive : (s.pc p).Live) (hdir : cwd ≠ none ↔ c.Live)
    (hforking : ∀ q i, c ≠ .forking q i) : Inv ((s.iputCwd p cwd).goto p c) := by
  -- it runs, so that `iput` does not get a null pointer
  obtain ⟨ip, hip⟩ := Option.ne_none_iff_exists'.mp ((h.dir p).mpr hlive)
  rw [State.iputCwd, hip]
  simp only
  generalize hs' : ((s.drop (.inode ip)).setCwd p cwd).goto p c = s'
  have hpc : s'.pc p = c := by
    rw [← hs']
    exact Function.update_self _ _ _
  have hcwd : s'.cwd p = cwd := by
    rw [← hs']
    exact Function.update_self _ _ _
  have hofile : s'.ofile = s.ofile := by rw [← hs']; rfl
  have hfile : s'.file = s.file := by rw [← hs']; rfl
  refine h.change p (fun q _ => by rw [hofile]) (fun q hq => ?_) (fun q hq => ?_) ?_
    (fun f => ?_) ?_ (fun o => ?_) (fun _ _ _ => by rw [hfile]) (fun _ _ => by rw [hfile])
    (by rwa [hpc, hofile, hfile]) (by rwa [hcwd, hpc]) (fun q i hq => ?_) (by rwa [hpc])
  · rw [← hs']
    exact Function.update_of_ne hq _ _
  · rw [← hs']
    exact Function.update_of_ne hq _ _
  · rw [← hs']
    exact h.safe
  · rw [hpc, hofile, hfile, hrefs]
  · rw [hfile]
    exact h.free
  · have hclosed : s'.closed o = s.closed o + [Obj.inode ip].count o := by
      rw [← hs']
      exact closed_drop s (.inode ip) o
    have hopened : s'.opened = s.opened := by rw [← hs']; rfl
    rw [hopened, hclosed, hfile, hcwd, hpc, hobjs, hip, held, List.count_append]
    change _ + (_ + _ + ([Obj.inode ip].count o + _)) = _
    omega
  · rw [(h.child q p i hq).1] at hlive
    exact hlive

end Inv

end OsCourse.Files
