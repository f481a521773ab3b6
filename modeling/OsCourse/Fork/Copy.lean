import OsCourse.Fork.Model
import OsCourse.Sched.Kill
import OsCourse.Vm.Copy

/-!
# OsCourse.Fork.Copy

What `fork` leaves behind: a child with a copy of the address space on pages of
its own (`Forked`), or, when a page cannot be allocated, nothing (`Unchanged`).
-/

namespace OsCourse.Fork

open Lib Vm
open Sched (Table FloatOps)

variable {n : Nat} {F φ ι κ : Type}

/-- Slot `i` is a process with its address space set up. -/
def Live (s : State n F φ ι κ) (i : Fin n) : Prop :=
  (s.proc i).state ≠ .unused ∧ (s.proc i).state ≠ .embryo

/-- No page that slot `i` maps below `KERNBASE` is free. -/
def Holds (s : State n F φ ι κ) (i : Fin n) : Prop :=
  ∀ d, (s.res i).pgdir = some d → Apart d s.kmem.free

/-- `curproc` calls `fork`: its address space is `pgdir`, and the memory of the
processes is not free. -/
structure Caller (s : State n F φ ι κ) (curproc : Fin n) (pgdir : Pgdir φ) : Prop where
  running : (s.proc curproc).state = .running
  dir : (s.res curproc).pgdir = some pgdir
  pages : Consistent ⟨pgdir, (s.res curproc).sz⟩
  nodup : s.kmem.free.Nodup
  holds : ∀ i, Live s i → Holds s i

/-- The open files of `curproc` are referenced, and it has a current directory. -/
structure Opened (s : State n F φ ι κ) (curproc : Fin n) : Prop where
  files : ∀ i f, (s.res curproc).ofile i = some f → 1 ≤ s.fileRef f
  cwd : (s.res curproc).cwd.isSome

/-- A failed `fork`. -/
structure Unchanged (s s' : State n F φ ι κ) : Prop where
  free : s'.kmem.free = s.kmem.free
  data : Kept s.kmem.free s.kmem s'.kmem
  fileRef : s'.fileRef = s.fileRef
  inodeRef : s'.inodeRef = s.inodeRef
  slots : ∀ i, (s.proc i).state ≠ .unused → s'.proc i = s.proc i ∧ s'.res i = s.res i

variable [DecidableEq ι] [DecidableEq κ]

/-- The descriptors that refer to `f`. -/
def uses (ofile : Fin NOFILE → Option κ) (f : κ) : Nat :=
  (List.finRange NOFILE).countP fun i => ofile i = some f

/-- A successful `fork`: the slot `np` is a child of `curproc` with a copy `d` of
its address space. -/
structure ForkedInto (s : State n F φ ι κ) (curproc : Fin n) (pgdir : Pgdir φ) (pid : Int32)
    (s' : State n F φ ι κ) (np : Fin n) (d : Pgdir φ) : Prop where
  unused : (s.proc np).state = .unused
  child : (s'.proc np).pid = pid ∧ (s'.proc np).state = .runnable ∧
    (s'.proc np).parent = some curproc
  dir : (s'.res np).pgdir = some d
  sz : (s'.res np).sz = (s.res curproc).sz
  /-- The child has the pages below `PGROUNDUP(sz)` and no others. -/
  pages : Fits d (PGROUNDUP (s.res curproc).sz)
  /-- Same contents and flags. -/
  copied : Copied s.kmem pgdir s'.kmem d (s.res curproc).sz
  /-- The pages of the processes, those of the parent among them, are as they were. -/
  data : Kept s.kmem.free s.kmem s'.kmem
  /-- The child maps no page twice, and no page that another process maps. -/
  nodup : d.mapped.Nodup
  owned : ∀ j, j ≠ np → Live s j ∨ Holds s j → ∀ dj, (s'.res j).pgdir = some dj → Apart dj d.mapped
  fileRef : ∀ f, s'.fileRef f = s.fileRef f + uses (s.res curproc).ofile f
  inodeRef : ∀ ip, s'.inodeRef ip = s.inodeRef ip + if (s.res curproc).cwd = some ip then 1 else 0
  ofile : ∀ i f, (s.res curproc).ofile i = some f → (s'.res np).ofile i = some f
  cwd : (s'.res np).cwd = (s.res curproc).cwd
  others : ∀ j, j ≠ np → s'.proc j = s.proc j ∧ s'.res j = s.res j

/-- A successful `fork` of some slot. -/
def Forked (s : State n F φ ι κ) (curproc : Fin n) (pgdir : Pgdir φ) (pid : Int32)
    (s' : State n F φ ι κ) : Prop := ∃ np d, ForkedInto s curproc pgdir pid s' np d

/-! ### Descriptors -/

omit [DecidableEq ι] in
/-- The loop over the descriptors: one reference per use. -/
theorem dupLoop_spec {parent : Fin NOFILE → Option κ} {is : List (Fin NOFILE)}
    {ofile ofile' : Fin NOFILE → Option κ} {ref ref' : κ → Int}
    (h : dupLoop parent is ofile ref = .ok (ofile', ref')) :
    (∀ f, ref' f = ref f + (is.countP fun i => parent i = some f : Nat)) ∧
      (∀ i f, parent i = some f → i ∈ is ∨ ofile i = some f → ofile' i = some f) := by
  induction is generalizing ofile ref with
  | nil =>
      obtain ⟨rfl, rfl⟩ := Prod.mk.inj (Except.ok.inj h)
      exact ⟨fun f => by simp, fun i f hi hmem => hmem.resolve_left (List.not_mem_nil)⟩
  | cons i is ih =>
      rw [dupLoop] at h
      cases hi : parent i with
      | none =>
          rw [hi] at h
          obtain ⟨hcount, hofile⟩ := ih h
          refine ⟨fun f => ?_, fun j f hj hmem => hofile j f hj ?_⟩
          · rw [hcount f, List.countP_cons_of_neg (by simp [hi])]
          · refine hmem.imp_left fun hmem => ?_
            rcases List.mem_cons.mp hmem with rfl | hmem
            · rw [hi] at hj
              cases hj
            · exact hmem
      | some g =>
          simp only [hi, filedup] at h
          split at h
          · cases h
          · next ref₁ hdup =>
            split at hdup
            · cases hdup
            · obtain rfl := Except.ok.inj hdup
              obtain ⟨hcount, hofile⟩ := ih h
              refine ⟨fun f => ?_, fun j f hj hmem => hofile j f hj ?_⟩
              · rw [hcount f]
                by_cases hf : f = g
                · subst hf
                  rw [Function.update_self, List.countP_cons_of_pos (by simp [hi])]
                  omega
                · have hne : ¬ g = f := fun h => hf h.symm
                  rw [Function.update_of_ne hf, List.countP_cons_of_neg (by simp [hi, hne])]
              · by_cases hji : j = i
                · subst hji
                  obtain rfl := Option.some.inj (hi.symm.trans hj)
                  exact .inr (Function.update_self ..)
                · rw [Function.update_of_ne hji]
                  exact hmem.imp_left fun hmem => (List.mem_cons.mp hmem).resolve_left hji

omit [DecidableEq ι] in
/-- Referenced files can be duplicated. -/
theorem dupLoop_ok (parent : Fin NOFILE → Option κ) (is : List (Fin NOFILE))
    (ofile : Fin NOFILE → Option κ) (ref : κ → Int)
    (href : ∀ i f, parent i = some f → 1 ≤ ref f) : ∃ r, dupLoop parent is ofile ref = .ok r := by
  induction is generalizing ofile ref with
  | nil => exact ⟨_, rfl⟩
  | cons i is ih =>
      rw [dupLoop]
      cases hi : parent i with
      | none => exact ih ofile ref href
      | some g =>
          simp only [filedup, if_neg (Int.not_lt.mpr (href i g hi))]
          refine ih _ _ fun j f hj => ?_
          have hf := href j f hj
          rw [Function.update_apply]
          split_ifs with h
          · rw [← h]
            omega
          · exact hf

/-! ### Slots -/

variable [DecidableEq φ] [FloatOps F]

omit [DecidableEq φ] [DecidableEq ι] [DecidableEq κ] in
/-- `allocproc`: nothing, or an embryo with a page for its kernel stack. -/
theorem allocproc_spec {s s' : State n F φ ι κ} {r : Option (Fin n)}
    (h : allocproc s = (r, s')) :
    (r = none ∧ Unchanged s s') ∨
      ∃ np k x, r = some np ∧ s.kmem.kalloc = some (k, s'.kmem) ∧ (s.proc np).state = .unused ∧
        s' = { s with
          proc := Function.update s.proc np x
          nextpid := s.nextpid + 1
          kmem := s'.kmem
          res := Function.update s.res np { s.res np with kstack := some k } } := by
  unfold allocproc at h
  split at h
  · obtain ⟨rfl, rfl⟩ := Prod.mk.inj h
    exact .inl ⟨rfl, ⟨rfl, Kept.refl _ _, rfl, rfl, fun _ _ => ⟨rfl, rfl⟩⟩⟩
  · next p proc halloc =>
    obtain ⟨hunused, x, rfl, -⟩ := Sched.allocproc_ids halloc
    have hoff : ∀ i, (s.proc i).state ≠ .unused → i ≠ p := by
      rintro i hi rfl
      exact hi hunused
    dsimp only at h
    split at h
    · obtain ⟨rfl, rfl⟩ := Prod.mk.inj h
      refine .inl ⟨rfl, ⟨rfl, Kept.refl _ _, rfl, rfl, fun i hi => ⟨?_, ?_⟩⟩⟩
      · exact (Table.setState_of_ne _ (hoff i hi) _).trans (Function.update_of_ne (hoff i hi) _ _)
      · exact Function.update_of_ne (hoff i hi) _ _
    · next k kmem hmem =>
      obtain ⟨rfl, rfl⟩ := Prod.mk.inj h
      exact .inr ⟨p, k, x, rfl, hmem, hunused, rfl⟩

/-- What is known of the copy `d` that `copyuvm` made in the new slot. -/
structure Copying (s : State n F φ ι κ) (curproc : Fin n) (pgdir : Pgdir φ) (kmem : Kmem φ)
    (d : Pgdir φ) : Prop where
  pages : Fits d (PGROUNDUP (s.res curproc).sz)
  copied : Copied s.kmem pgdir kmem d (s.res curproc).sz
  data : Kept s.kmem.free s.kmem kmem
  mapped : d.mapped ≤ s.kmem.free

omit [DecidableEq ι] [DecidableEq κ] [FloatOps F] in
/-- `copyuvm`, after `kalloc` of the kernel stack `k`: the memory is taken back by
`kfree` of `k`, or there is a copy. -/
theorem copy_spec {s : State n F φ ι κ} {curproc : Fin n} {pgdir : Pgdir φ}
    (hs : Caller s curproc pgdir) {k : φ} {m m' : Kmem φ} (hmem : s.kmem.kalloc = some (k, m))
    {r : Option (Pgdir φ)} (h : copyuvm m pgdir (s.res curproc).sz = .ok (r, m')) :
    (r = none → (m'.kfree k).free = s.kmem.free ∧ Kept s.kmem.free s.kmem (m'.kfree k)) ∧
      ∀ d, r = some d → Copying s curproc pgdir m' d := by
  obtain ⟨hfree, hdata⟩ := Kmem.kalloc_spec hmem
  obtain ⟨⟨hpages, hkept⟩, hcopied⟩ := copyuvm_copies hs.pages h
  have hle : m.free ≤ s.kmem.free := by
    rw [hfree]
    exact Multiset.le_add_left _ _
  have hall : Kept s.kmem.free s.kmem m' := by
    intro x hx
    rw [hkept x fun hmem => hx (Multiset.mem_of_le hle hmem), hdata]
  refine ⟨?_, fun d hd => ?_⟩
  · rintro rfl
    refine ⟨?_, hall.trans (m'.kept_kfree ?_)⟩
    · rw [Kmem.free_kfree, hfree, ← hpages]
      exact congrArg _ (add_zero _).symm
    · rw [hfree]
      exact Multiset.mem_add.mpr (.inl (Multiset.mem_singleton_self _))
  · subst hd
    obtain ⟨r₁, m₁, heq, hcons⟩ := copyuvm_spec m hs.pages
    obtain ⟨rfl, rfl⟩ : r₁ = some d ∧ m₁ = m' := by simpa using heq.symm.trans h
    have hlive : Live s curproc := by
      simp [Live, hs.running]
    have hapart := (hs.holds curproc hlive pgdir hs.dir).mono (Multiset.subset_of_le hle)
    refine ⟨(hcons d rfl).pages, fun va hva e he => ?_, hall, ?_⟩
    · rw [← hdata]
      exact hcopied (Multiset.nodup_of_le hle hs.nodup) hapart d rfl va hva e he
    · refine (mapped_le_pages d).trans (le_trans ?_ hle)
      rw [← hpages]
      exact Multiset.le_add_left _ _

omit [FloatOps F] [DecidableEq φ] in
/-- The end of `fork`, for the embryo `np` in the state `s₁`. -/
theorem forkChild_spec {s : State n F φ ι κ} (s₁ : State n F φ ι κ) {s' : State n F φ ι κ}
    {curproc np : Fin n} {pgdir d : Pgdir φ} {r : Option Int32} (hs : Caller s curproc pgdir)
    (hunused : (s.proc np).state = .unused)
    (hnp : curproc ≠ np) (hd : Copying s curproc pgdir s₁.kmem d)
    (hfileRef : s₁.fileRef = s.fileRef) (hinodeRef : s₁.inodeRef = s.inodeRef)
    (hoff : ∀ j, j ≠ np → s₁.proc j = s.proc j ∧ s₁.res j = s.res j)
    (h : forkChild s₁ curproc np d = .ok (r, s')) :
    ∃ pid, r = some pid ∧ ForkedInto s curproc pgdir pid s' np d := by
  unfold forkChild at h
  rw [(hoff curproc hnp).2] at h
  dsimp only at h
  split at h
  · cases h
  · next ofile fileRef hdup =>
    obtain ⟨hcount, hofile⟩ := dupLoop_spec hdup
    split at h
    · cases h
    · next cwd hcwd =>
      obtain ⟨rfl, rfl⟩ := Prod.mk.inj (Except.ok.inj h)
      have hothers : ∀ j, j ≠ np → Function.update s₁.res np
          { s₁.res np with
            pgdir := some d
            sz := (s.res curproc).sz
            tf := { (s.res curproc).tf with eax := 0 }
            ofile
            cwd := some cwd
            name := copyName (s₁.res np).name (s.res curproc).name } j = s.res j := fun j hj =>
        (Function.update_of_ne hj _ _).trans (hoff j hj).2
      refine ⟨_, rfl, hunused, ?_, ?_, ?_, hd.pages, hd.copied, hd.data, ?_, ?_, ?_, ?_, ?_, ?_, ?_⟩
      · simp
      · simp
      · simp
      · exact Multiset.nodup_of_le hd.mapped hs.nodup
      · intro j hj hown dj hdj
        have hholds : Holds s j := hown.elim (hs.holds j) id
        refine (hholds dj ?_).mono (Multiset.subset_of_le hd.mapped)
        rw [← hothers j hj]
        exact hdj
      · intro f
        change fileRef f = _
        rw [hcount f, hfileRef]
        rfl
      · intro ip
        change idup s₁.inodeRef cwd ip = _
        rw [idup, Function.update_apply, hinodeRef, hcwd]
        by_cases hip : ip = cwd
        · rw [if_pos hip, if_pos (by rw [hip]), hip]
        · rw [if_neg hip, if_neg fun h => hip (Option.some.inj h).symm, add_zero]
      · intro i f hi
        simpa using hofile i f hi (.inl (List.mem_finRange i))
      · simp [hcwd]
      · exact fun j hj => ⟨(Function.update_of_ne hj _ _).trans (hoff j hj).1, hothers j hj⟩

/-- **`fork`.** It returns if the files of the caller are open. If it returns a
pid, there is a child with a copy of the address space on pages of its own and
one reference more per use; if it returns -1, nothing has changed. -/
theorem fork_all_or_nothing (s : State n F φ ι κ) (curproc : Fin n) (pgdir : Pgdir φ)
    (hs : Caller s curproc pgdir) :
    (Opened s curproc → ∃ r s', fork s curproc = .ok (r, s')) ∧
      (∀ pid s', fork s curproc = .ok (some pid, s') → Forked s curproc pgdir pid s') ∧
      ∀ s', fork s curproc = .ok (none, s') → Unchanged s s' := by
  unfold fork
  rcases halloc : allocproc s with ⟨r₁, s₁⟩
  rcases allocproc_spec halloc with ⟨rfl, hsame⟩ | ⟨np, k, x, rfl, hmem, hunused, heq⟩
  · refine ⟨fun _ => ⟨_, _, rfl⟩, fun pid s' h => ?_, fun s' h => ?_⟩
    · cases h
    · obtain ⟨-, rfl⟩ := Prod.mk.inj (Except.ok.inj h)
      exact hsame
  · have hnp : curproc ≠ np := by
      rintro rfl
      rw [hs.running] at hunused
      cases hunused
    have hoff : ∀ j, j ≠ np → s₁.proc j = s.proc j ∧ s₁.res j = s.res j := by
      intro j hj
      rw [heq]
      exact ⟨Function.update_of_ne hj _ _, Function.update_of_ne hj _ _⟩
    have hstack : (s₁.res np).kstack = some k := by
      rw [heq]
      simp
    obtain ⟨r, m, hcopy, -⟩ := copyuvm_spec s₁.kmem hs.pages
    obtain ⟨hnone, hsome⟩ := copy_spec hs hmem hcopy
    have hcopy' : copyuvm s₁.kmem pgdir (s₁.res curproc).sz = .ok (r, m) := by
      rw [(hoff curproc hnp).2]
      exact hcopy
    have hdir : (s₁.res curproc).pgdir = some pgdir := by
      rw [(hoff curproc hnp).2, hs.dir]
    simp only [hdir, hcopy']
    cases r with
    | none =>
        refine ⟨fun _ => ⟨_, _, rfl⟩, fun pid s' h => ?_, fun s' h => ?_⟩
        · cases h
        · obtain ⟨-, rfl⟩ := Prod.mk.inj (Except.ok.inj h)
          obtain ⟨hfree, hdata⟩ := hnone rfl
          have hused : ∀ i, (s.proc i).state ≠ .unused → i ≠ np := by
            rintro i hi rfl
            exact hi hunused
          refine ⟨?_, ?_, by rw [heq], by rw [heq], fun i hi => ⟨?_, ?_⟩⟩
          · simp only [hstack, Option.map_some, Option.getD_some]
            exact hfree
          · simp only [hstack, Option.map_some, Option.getD_some]
            exact hdata
          · exact (Table.setState_of_ne _ (hused i hi) _).trans (hoff i (hused i hi)).1
          · exact (Function.update_of_ne (hused i hi) _ _).trans (hoff i (hused i hi)).2
    | some d =>
        have hchild : ∀ r s', forkChild { s₁ with kmem := m } curproc np d = .ok (r, s') →
            ∃ pid, r = some pid ∧ ForkedInto s curproc pgdir pid s' np d := fun r s' h =>
          forkChild_spec { s₁ with kmem := m } hs hunused hnp (hsome d rfl) (by rw [heq])
            (by rw [heq]) hoff h
        refine ⟨fun hopen => ?_, fun pid s' h => ?_, fun s' h => ?_⟩
        · obtain ⟨cwd, hcwd⟩ := Option.isSome_iff_exists.mp hopen.cwd
          obtain ⟨⟨ofile, fileRef⟩, hdup⟩ := dupLoop_ok (s.res curproc).ofile
            (List.finRange NOFILE) (s₁.res np).ofile s.fileRef hopen.files
          have hfileRef : s₁.fileRef = s.fileRef := by rw [heq]
          simp only [forkChild, (hoff curproc hnp).2, hfileRef, hdup, hcwd]
          exact ⟨_, _, rfl⟩
        · obtain ⟨pid', hpid, hforked⟩ := hchild _ _ h
          obtain rfl := Option.some.inj hpid
          exact ⟨np, d, hforked⟩
        · obtain ⟨pid', hpid, -⟩ := hchild _ _ h
          cases hpid

/-- A process with one page and an open file, and two unused slots. -/
def oneProcess : State 3 ℚ Nat Nat Nat where
  proc := fun i => { Sched.Proc.zero with state := if i.val = 0 then .running else .unused }
  res := fun i =>
    { sz := if i.val = 0 then 4096 else 0
      pgdir := if i.val = 0 then some onePage.pgdir else none
      kstack := if i.val = 0 then some 3 else none
      tf := ⟨0, []⟩
      ofile := fun fd => if i.val = 0 ∧ fd.val = 1 then some 0 else none
      cwd := if i.val = 0 then some 0 else none
      name := CBuf.zeros 16 }
  nextpid := 2
  ticks := 0
  kmem := ⟨List.range' 4 70, fun _ _ => 0⟩
  fileRef := fun _ => 1
  inodeRef := fun _ => 1

theorem caller_oneProcess : Caller oneProcess 0 onePage.pgdir where
  running := rfl
  dir := rfl
  pages := consistent_onePage
  nodup := List.nodup_range'
  holds := by
    intro i hlive d hd va _ e he hfree
    have hdir : d = onePage.pgdir := by
      simp only [oneProcess] at hd
      split at hd
      · exact (Option.some.inj hd).symm
      · cases hd
    subst hdir
    -- its only page is page 2, and the free pages start at 4
    have hpage : e.page = 2 := by
      simp only [Pgdir.entry, Pgdir.walk, onePage] at he
      split at he
      · simp only [Option.map_some, Option.join_some] at he
        split at he
        · rw [← Option.some.inj he]
        · cases he
      · cases he
    rw [hpage] at hfree
    have hle := (List.mem_range'_1.mp (Multiset.mem_coe.mp hfree)).1
    omega

/-- The process with one page forks. -/
theorem fork_all_or_nothing_once : ∃ r s', fork oneProcess 0 = .ok (r, s') ∧
    (∀ pid, r = some pid → Forked oneProcess 0 onePage.pgdir pid s') ∧
    (r = none → Unchanged oneProcess s') := by
  obtain ⟨hreturns, hforked, hfailed⟩ := fork_all_or_nothing oneProcess 0 _ caller_oneProcess
  obtain ⟨r, s', h⟩ := hreturns ⟨fun _ _ _ => Int.le_refl 1, rfl⟩
  refine ⟨r, s', h, ?_, ?_⟩
  · rintro pid rfl
    exact hforked pid s' h
  · rintro rfl
    exact hfailed s' h

end OsCourse.Fork
