import OsCourse.Files.Counts

/-!
# OsCourse.Files.Runs

Every step of the machine of `OsCourse.Files.Model` keeps the invariant: first the calls
that a process makes alone, then `fork`, which fills the descriptors of another one.
-/

namespace OsCourse.Files

open OsCourse.Lib

variable {π : Type}

/-- In none of the calls but `fork`. -/
def Pc.Quiet (c : Pc π) : Prop :=
  c = .idle ∨ c = .embryo ∨ c = .unused ∨ c = .zombie ∨ ∃ q i, c = .forking q i

theorem Pc.quiet_forking (q : π) (i : Nat) : (Pc.forking q i).Quiet :=
  .inr (.inr (.inr (.inr ⟨q, i, rfl⟩)))

theorem Pc.Quiet.owns {c : Pc π} (h : c.Quiet) (ofile : Fds Ptr) (f : Ptr) :
    owns ofile c f = ofile.count (some f) := by
  rcases h with rfl | rfl | rfl | rfl | ⟨q, i, rfl⟩ <;> rfl

theorem Pc.Quiet.objs {c : Pc π} (h : c.Quiet) : c.objs = [] := by
  rcases h with rfl | rfl | rfl | rfl | ⟨q, i, rfl⟩ <;> rfl

theorem Pc.Quiet.counted {c : Pc π} (h : c.Quiet) (ofile : Fds Ptr) : counted ofile c = ofile := by
  rcases h with rfl | rfl | rfl | rfl | ⟨q, i, rfl⟩ <;> rfl

theorem Pc.Quiet.plain {c : Pc π} (h : c.Quiet) :
    c.fresh = [] ∧ c.ready = [] ∧ ∀ ip f, c ≠ .typing ip f := by
  rcases h with rfl | rfl | rfl | rfl | ⟨q, i, rfl⟩ <;> exact ⟨rfl, rfl, nofun⟩

/-! ### What a process knows in a call -/

namespace Own

variable {file : Ptr → File} {ofile ofile' : Fds Ptr} {pc c : Pc π}

/-- A process goes on, and has no new files without an object. -/
theorem goes (h : Own file ofile pc) (hpc : ∀ ip f, pc ≠ .typing ip f)
    (hlength : ofile'.length = ofile.length) (hstands : c.Stands ofile') (hfresh : c.fresh = [])
    (hready : ∀ f ∈ c.ready, (file f).obj ≠ none)
    (hcounted : ∀ f, some f ∈ counted ofile' c →
      some f ∈ counted ofile pc ∨ (file f).obj ≠ none) : Own file ofile' c where
  length := hlength.trans h.length
  stands := hstands
  fresh := by simp [hfresh]
  ready := hready
  typed f hf := by
    rcases hcounted f hf with hf | hf
    · rcases h.typed f hf with hobj | ⟨ip, heq⟩
      · exact .inl hobj
      · exact absurd heq (hpc ip f)
    · exact .inl hf

/-- A process in none of the calls has no files without an object. -/
theorem typed_of_ne (h : Own file ofile pc) (hpc : ∀ ip f, pc ≠ .typing ip f) {f : Ptr}
    (hf : some f ∈ counted ofile pc) : (file f).obj ≠ none := by
  rcases h.typed f hf with hobj | ⟨ip, heq⟩
  · exact hobj
  · exact absurd heq (hpc ip f)

theorem quiet (h : Own file ofile pc) (hpc : pc.Quiet) (hc : c.Quiet) (hstands : c.Stands ofile) :
    Own file ofile c :=
  h.goes hpc.plain.2.2 rfl hstands hc.plain.1 (by simp [hc.plain.2.1]) fun f hf => by
    rw [hc.counted] at hf
    rw [hpc.counted]
    exact .inl hf

end Own

theorem mem_set_none {ofile : Fds Ptr} {fd : Nat} {f : Ptr} (h : some f ∈ ofile.set fd none) :
    some f ∈ ofile := by
  rcases List.mem_or_eq_of_mem_set h with h | h
  · exact h
  · cases h

theorem mem_set_some {ofile : Fds Ptr} {fd : Nat} {f g : Ptr}
    (h : some g ∈ ofile.set fd (some f)) : some g ∈ ofile ∨ g = f := by
  rcases List.mem_or_eq_of_mem_set h with h | h
  · exact .inl h
  · exact .inr (Option.some.inj h)

theorem hand_closing_append (os : List Obj) (l : List Back) :
    (Pc.closing (os.map .obj ++ l) : Pc π).hand = (Pc.closing l : Pc π).hand := by
  induction os with
  | nil => rfl
  | cons o os ih => exact ih

theorem objs_closing_append (os : List Obj) (l : List Back) :
    (Pc.closing (os.map .obj ++ l) : Pc π).objs = os ++ (Pc.closing l : Pc π).objs := by
  induction os with
  | nil => rfl
  | cons o os ih => exact congrArg (o :: ·) ih

theorem count_cons_eq {α : Type} [DecidableEq α] (a b : α) (l : List α) :
    (a :: l).count b = l.count b + [a].count b := by
  rw [List.count_cons, List.count_singleton]

namespace Inv

variable [Fintype π] [DecidableEq π] {s s' : State π} {p : π} {page : Option Nat}

/-! ### `open` -/

theorem next_opening (h : Inv s) {ip : Nat} (hp : s.pc p = .opening ip)
    (hs : s.next p page = some s') : Inv s' := by
  have hown := h.own p
  rw [hp] at hown
  rw [State.next, hp] at hs
  cases hf : s.filealloc with
  | none =>
      simp only [hf] at hs
      cases hs
      exact h.goto p (hown.goes nofun rfl trivial rfl nofun fun _ => .inl)
        (fun _ => by rw [hp]; rfl) (fun _ => by rw [hp]; rfl) (by simp [hp]) trivial nofun
  | some f =>
      simp only [hf] at hs
      cases hs
      exact h.took hf trivial (fun g hg => .inl (List.mem_singleton.mp hg)) rfl (by rw [hp]; rfl)
        (fun _ => by rw [hp]; exact (Nat.zero_add _).symm) (fun _ => by rw [hp]; rfl) (by simp [hp])
        (by simp [hp]) trivial nofun

theorem next_allocated (h : Inv s) {ip : Nat} {f : Ptr} (hp : s.pc p = .allocated ip f)
    (hs : s.next p page = some s') : Inv s' := by
  have hown := h.own p
  rw [hp] at hown
  rw [State.next, hp] at hs
  cases hfd : fdalloc (s.ofile p) f with
  | none =>
      simp only [hfd] at hs
      cases hs
      exact h.goto p (hown.goes nofun rfl trivial rfl nofun fun _ => .inl)
        (fun _ => by rw [hp]; rfl) (fun _ => by rw [hp]; rfl) (by simp [hp]) trivial nofun
  | some r =>
      simp only [hfd] at hs
      cases hs
      obtain ⟨hfree, hset⟩ := fdalloc_some hfd
      rw [hset]
      -- the file moves from the hand to the descriptor, still without an object
      refine h.setOfile p ⟨by rw [List.length_set]; exact hown.length, ?_, hown.fresh, nofun, ?_⟩
        (fun g => ?_) (fun _ => by rw [hp]; rfl) (by simp [hp]) trivial nofun
      · exact mem_set_self hfree f
      · intro g hg
        rcases mem_set_some hg with hg | rfl
        · exact .inl (hown.typed_of_ne nofun hg)
        · exact .inr ⟨ip, rfl⟩
      · rw [hp]
        exact count_set_some hfree f g

theorem next_typing (h : Inv s) {ip : Nat} {f : Ptr} (hp : s.pc p = .typing ip f)
    (hs : s.next p page = some s') : Inv s' := by
  have hown := h.own p
  rw [hp] at hown
  rw [State.next, hp] at hs
  cases hs
  have hfile := hown.fresh f (List.mem_singleton.mpr rfl)
  have hpos : 0 < owns (s.ofile p) (.typing ip f : Pc π) f := owns_pos_of_counted hown.stands
  refine h.one p f _ .idle ⟨hown.length, trivial, nofun, nofun, fun g hg => .inl ?_⟩ ?_ ?_ ?_ ?_ ?_
    ?_ (by simp [hp]) trivial nofun
  · by_cases hgf : g = f
    · rw [hgf, Function.update_self]
      nofun
    · rw [Function.update_of_ne hgf]
      rcases hown.typed g hg with hobj | ⟨ip', heq⟩
      · exact hobj
      · cases heq
        exact absurd rfl hgf
  · intro hzero
    rw [hp] at hzero
    omega
  · rw [hp]
    rfl
  · intro g _
    rw [hp]
    rfl
  · intro hzero
    rw [hfile] at hzero
    cases hzero
  · intro htwo
    rw [hfile] at htwo
    exact absurd htwo (by decide)
  · intro o
    rw [hp, hfile]
    exact Nat.add_comm _ _

/-! ### `dup`, `close`, `chdir` and `exit` -/

theorem next_duping (h : Inv s) {fd : Nat} {f : Ptr} (hp : s.pc p = .duping fd f)
    (hs : s.next p page = some s') : Inv s' := by
  have hown := h.own p
  rw [hp] at hown
  rw [State.next, hp] at hs
  cases hs
  obtain ⟨hget, hmem⟩ := hown.stands
  -- the new descriptor becomes a reference; that another one has the file was known before
  refine h.duped (hown.goes nofun rfl trivial rfl nofun fun g hg => ?_) rfl ?_ (fun g => ?_)
    (fun _ => by rw [hp]; rfl) (by simp [hp]) trivial nofun
  · by_cases hgf : g = f
    · exact .inl (hgf ▸ hmem)
    · refine .inl (List.count_pos_iff.mp ?_)
      have hcount := count_set_none hget g
      have hpos := List.count_pos_iff.mpr hg
      rw [List.count_singleton, if_neg (by simpa using Ne.symm hgf)] at hcount
      change 0 < ((s.ofile p).set fd none).count (some g)
      change 0 < (s.ofile p).count (some g) at hpos
      omega
  · rw [hp]
    exact owns_pos_of_counted hmem
  · rw [hp]
    exact count_set_none hget g

theorem next_moving (h : Inv s) {ip : Nat} (hp : s.pc p = .moving ip)
    (hs : s.next p page = some s') : Inv s' := by
  have hown := h.own p
  rw [hp] at hown
  rw [State.next, hp] at hs
  cases hs
  exact h.iputCwd (hown.goes nofun rfl trivial rfl nofun fun _ => .inl) (fun _ => by rw [hp]; rfl)
    (by rw [hp]; rfl) (by simp [hp]) (by simp) nofun

theorem next_closing (h : Inv s) {l : List Back} (hp : s.pc p = .closing l)
    (hs : s.next p page = some s') : Inv s' := by
  have hown := h.own p
  rw [hp] at hown
  have hgoes : ∀ l', Own s.file (s.ofile p) (.closing l') :=
    fun l' => hown.goes (fun _ _ hc => by cases hc) rfl trivial rfl (fun _ hf => by cases hf)
      fun _ => .inl
  rw [State.next, hp] at hs
  match l, hp with
  | [], hp =>
      cases hs
      exact h.goto p (hown.goes (fun _ _ hc => by cases hc) rfl trivial rfl
        (fun _ hf => by cases hf) fun _ => .inl) (fun _ => by rw [hp]; rfl)
        (fun _ => by rw [hp]; rfl) (by simp [hp]) trivial (fun _ _ hc => by cases hc)
  | .file f :: l, hp =>
      cases hs
      refine h.fileclosed (hgoes _) rfl (fun g => ?_) (fun o => ?_) (by simp [hp]) trivial
        (fun _ _ hc => by cases hc)
      · rw [hp, owns, owns, hand_closing_append, Nat.add_assoc]
        exact congrArg _ (count_cons_eq f g _)
      · rw [hp, objs_closing_append, List.count_append]
        rfl
  | .obj o :: l, hp =>
      cases hs
      refine h.dropped (hgoes _) (fun g => by rw [hp]; rfl) (fun o' => ?_) (by simp [hp]) trivial
        (fun _ _ hc => by cases hc)
      rw [hp]
      exact count_cons_eq o o' _

theorem next_exits (h : Inv s) {fd : Nat} (hp : s.pc p = .exits fd)
    (hs : s.next p page = some s') : Inv s' := by
  have hown := h.own p
  rw [hp] at hown
  obtain ⟨hle, hnone⟩ := hown.stands
  rw [State.next, hp] at hs
  simp only at hs
  split_ifs at hs with hlt
  · cases hfd : argfd (s.ofile p) fd with
    | none =>
        simp only [hfd] at hs
        cases hs
        refine h.goto p (hown.goes nofun rfl ⟨hlt, fun i hi => ?_⟩ rfl nofun fun _ => .inl)
          (fun _ => by rw [hp]; rfl) (fun _ => by rw [hp]; rfl) (by simp [hp]) trivial nofun
        rcases Nat.lt_succ_iff_lt_or_eq.mp hi with hi | rfl
        · exact hnone i hi
        · exact argfd_none (by rwa [hown.length]) hfd
    | some f =>
        simp only [hfd] at hs
        cases hs
        have hget := argfd_some hfd
        refine h.fileclosed (hown.goes nofun rfl ⟨hlt, hnone⟩ rfl nofun fun g hg =>
          .inl (mem_set_none hg)) rfl (fun g => ?_) (fun o => ?_) (by simp [hp]) trivial nofun
        · rw [hp]
          exact count_set_none hget g
        · rw [hp]
          exact (Nat.add_zero _).symm
  · cases hs
    -- the loop has emptied every descriptor, as a zombie has them
    refine h.iputCwd (hown.goes nofun rfl ?_ rfl nofun fun _ => .inl) (fun _ => by rw [hp]; rfl)
      (by rw [hp]; rfl) (by simp [hp]) (by simp) nofun
    refine List.eq_replicate_iff.mpr ⟨hown.length, fun x hx => ?_⟩
    obtain ⟨i, hi, rfl⟩ := List.getElem_of_mem hx
    have hget := hnone i (by rw [hown.length] at hi; omega)
    rw [List.getElem?_eq_getElem hi] at hget
    exact Option.some.inj hget

theorem next_exitClose (h : Inv s) {fd : Nat} {l : List Obj} (hp : s.pc p = .exitClose fd l)
    (hs : s.next p page = some s') : Inv s' := by
  have hown := h.own p
  rw [hp] at hown
  obtain ⟨hlt, hnone⟩ := hown.stands
  rw [State.next, hp] at hs
  match l, hp with
  | [], hp =>
      cases hs
      refine h.setOfile p (hown.goes nofun List.length_set ⟨hlt, fun i hi => ?_⟩ rfl nofun
        fun _ => .inl) (fun _ => by rw [hp]; rfl) (fun _ => by rw [hp]; rfl) (by simp [hp]) trivial
        nofun
      rcases Nat.lt_succ_iff_lt_or_eq.mp hi with hi | rfl
      · rw [List.getElem?_set_ne (Nat.ne_of_gt hi)]
        exact hnone i hi
      · exact List.getElem?_set_self (by rwa [hown.length])
  | o :: l, hp =>
      cases hs
      refine h.dropped (hown.goes nofun rfl ⟨hlt, hnone⟩ rfl nofun fun _ => .inl)
        (fun g => by rw [hp]; rfl) (fun o' => ?_) (by simp [hp]) trivial nofun
      rw [hp]
      exact count_cons_eq o o' _

/-! ### `pipe` -/

theorem next_pipe1 (h : Inv s) {f0 : Ptr} (hp : s.pc p = .pipe1 f0)
    (hs : s.next p page = some s') : Inv s' := by
  have hown := h.own p
  rw [hp] at hown
  rw [State.next, hp] at hs
  cases hf : s.filealloc with
  | none =>
      simp only [hf] at hs
      cases hs
      exact h.goto p (hown.goes nofun rfl trivial rfl nofun fun _ => .inl)
        (fun _ => by rw [hp]; rfl) (fun _ => by rw [hp]; rfl) (by simp [hp]) trivial nofun
  | some f1 =>
      simp only [hf] at hs
      cases hs
      refine h.took hf trivial (fun g hg => ?_) rfl (by rw [hp]; rfl) (fun g => ?_)
        (fun _ => by rw [hp]; rfl) (by simp [hp]) (by simp [hp]) trivial nofun
      · rw [hp]
        simpa [Pc.fresh, or_comm] using hg
      · rw [hp]
        exact (count_cons_eq f0 g [f1]).trans (Nat.add_comm _ _)

omit [DecidableEq π] in
/-- `pipealloc` has two files, since the second one was free when it had the first. -/
theorem pipe2_ne (h : Inv s) {f0 f1 : Ptr} (hp : s.pc p = .pipe2 f0 f1) : f0 ≠ f1 := by
  rintro rfl
  have hle := h.owns_le p f0
  have hfile := (h.own p).fresh f0 (by rw [hp]; exact List.mem_cons_self)
  rw [hfile, hp, owns] at hle
  change _ + [f0, f0].count f0 ≤ 1 at hle
  rw [List.count_cons_self, List.count_singleton_self] at hle
  omega

/-- `pipealloc` sets up its files. -/
theorem piped (h : Inv s) {f0 f1 : Ptr} (hp : s.pc p = .pipe2 f0 f1) (a : Nat) :
    Inv (((((s.setObj f0 (.pipe a false)).setObj f1 (.pipe a true)).gain (.pipe a false)).gain
      (.pipe a true)).goto p (.pipe3 f0 f1)) := by
  have hne := h.pipe2_ne hp
  have hown := h.own p
  rw [hp] at hown
  have hfile0 : s.file f0 = ⟨1, none⟩ := hown.fresh f0 List.mem_cons_self
  have hfile1 : s.file f1 = ⟨1, none⟩ := hown.fresh f1 (List.mem_cons_of_mem _ List.mem_cons_self)
  generalize hs' : ((((s.setObj f0 (.pipe a false)).setObj f1 (.pipe a true)).gain
    (.pipe a false)).gain (.pipe a true)).goto p (.pipe3 f0 f1) = s'
  have htable : s'.file = Function.update (Function.update s.file f0 ⟨1, some (.pipe a false)⟩) f1
      ⟨1, some (.pipe a true)⟩ := by
    rw [← hs']
    simp only [State.goto, State.gain, State.setObj, State.setFile, hfile0,
      Function.update_of_ne hne.symm, hfile1]
  have hself1 : s'.file f1 = ⟨1, some (.pipe a true)⟩ := by rw [htable, Function.update_self]
  have hself0 : s'.file f0 = ⟨1, some (.pipe a false)⟩ := by
    rw [htable, Function.update_of_ne hne, Function.update_self]
  have helse : ∀ g, g ≠ f0 → g ≠ f1 → s'.file g = s.file g := fun g h0 h1 => by
    rw [htable, Function.update_of_ne h1, Function.update_of_ne h0]
  have hopened : ∀ o, s'.opened o = s.opened o + [Obj.pipe a false].count o +
      [Obj.pipe a true].count o := by
    intro o
    rw [← hs']
    exact (opened_gain _ _ o).trans (congrArg (· + _) (opened_gain _ _ o))
  have hpc : s'.pc p = .pipe3 f0 f1 := by
    rw [← hs']
    exact Function.update_self _ _ _
  have hofile : s'.ofile = s.ofile := by rw [← hs']; rfl
  have hclosed : s'.closed = s.closed := by rw [← hs']; rfl
  have hcases : ∀ g, g = f0 ∨ g = f1 ∨ g ≠ f0 ∧ g ≠ f1 := fun g => by
    by_cases h0 : g = f0
    · exact .inl h0
    by_cases h1 : g = f1
    · exact .inr (.inl h1)
    · exact .inr (.inr ⟨h0, h1⟩)
  refine h.move p (fun q _ => by rw [hofile]) (fun q hq => ?_) ?_ ?_ ?_ ?_ ?_ ?_ ?_
    (by rw [← hs']; rfl) (by simp [hp]) (by simp [hpc]) (by simp [hpc])
  · rw [← hs']
    exact Function.update_of_ne hq _ _
  · rw [← hs']
    exact h.safe
  · intro g
    rw [hpc, hp, hofile]
    rcases hcases g with rfl | rfl | ⟨h0, h1⟩
    · rw [hself0, hfile0]
      rfl
    · rw [hself1, hfile1]
      rfl
    · rw [helse g h0 h1]
      rfl
  · intro g hzero
    rcases hcases g with rfl | rfl | ⟨h0, h1⟩
    · rw [hself0] at hzero
      cases hzero
    · rw [hself1] at hzero
      cases hzero
    · rw [helse g h0 h1] at hzero ⊢
      exact h.free g hzero
  · intro o
    have hfirst := entries_update s.file f0 ⟨1, some (.pipe a false)⟩ o
    have hsecond := entries_update (Function.update s.file f0 ⟨1, some (.pipe a false)⟩) f1
      ⟨1, some (.pipe a true)⟩ o
    rw [hfile0] at hfirst
    rw [Function.update_of_ne hne.symm, hfile1] at hsecond
    rw [hopened, hclosed, htable, hpc, hp]
    simp only [Option.toList_none, Option.toList_some, List.count_nil] at hfirst hsecond
    change _ + (_ + _ + 0) = _ + (_ + _ + 0)
    omega
  · intro g hg hpos
    rw [hp] at hg
    have hhand : ∀ f ∈ [f0, f1], g ≠ f := by
      rintro f hf rfl
      have hpos : 0 < owns (s.ofile p) (.pipe2 f0 f1 : Pc π) g := owns_pos_of_hand hf
      omega
    exact helse g (hhand f0 List.mem_cons_self)
      (hhand f1 (List.mem_cons_of_mem _ List.mem_cons_self))
  · intro g htwo
    rcases hcases g with rfl | rfl | ⟨h0, h1⟩
    · rw [hfile0] at htwo
      exact absurd htwo (by decide)
    · rw [hfile1] at htwo
      exact absurd htwo (by decide)
    · rw [helse g h0 h1]
  · rw [hpc, hofile]
    refine ⟨hown.length, trivial, (fun _ hf => by cases hf), ?_, fun g hg => .inl ?_⟩
    · intro g hg
      simp only [Pc.ready, List.mem_cons, List.not_mem_nil, or_false] at hg
      rcases hg with rfl | rfl
      · rw [hself0]
        exact Option.some_ne_none _
      · rw [hself1]
        exact Option.some_ne_none _
    · have hobj := hown.typed_of_ne (fun _ _ hc => by cases hc) hg
      rcases hcases g with rfl | rfl | ⟨h0, h1⟩
      · rw [hself0]
        exact Option.some_ne_none _
      · rw [hself1]
        exact Option.some_ne_none _
      · rwa [helse g h0 h1]

theorem next_pipe2 (h : Inv s) {f0 f1 : Ptr} (hp : s.pc p = .pipe2 f0 f1)
    (hs : s.next p page = some s') : Inv s' := by
  have hown := h.own p
  rw [hp] at hown
  rw [State.next, hp] at hs
  cases page with
  | none =>
      cases hs
      exact h.goto p (hown.goes nofun rfl trivial rfl nofun fun _ => .inl)
        (fun _ => by rw [hp]; rfl) (fun _ => by rw [hp]; rfl) (by simp [hp]) trivial nofun
  | some a =>
      cases hs
      exact h.piped hp a

theorem next_pipe3 (h : Inv s) {f0 f1 : Ptr} (hp : s.pc p = .pipe3 f0 f1)
    (hs : s.next p page = some s') : Inv s' := by
  have hown := h.own p
  rw [hp] at hown
  rw [State.next, hp] at hs
  cases hfd : fdalloc (s.ofile p) f0 with
  | none =>
      simp only [hfd] at hs
      cases hs
      exact h.goto p (hown.goes nofun rfl trivial rfl nofun fun _ => .inl)
        (fun _ => by rw [hp]; rfl) (fun _ => by rw [hp]; rfl) (by simp [hp]) trivial nofun
  | some r =>
      simp only [hfd] at hs
      cases hs
      obtain ⟨hfree, hset⟩ := fdalloc_some hfd
      obtain ⟨hlt, -⟩ := List.getElem?_eq_some_iff.mp hfree
      rw [hset]
      refine h.setOfile p (hown.goes nofun List.length_set (List.getElem?_set_self hlt) rfl
        (fun g hg => hown.ready g (List.mem_cons_of_mem _ hg)) fun g hg => ?_)
        (fun g => ?_) (fun _ => by rw [hp]; rfl) (by simp [hp]) trivial nofun
      · rcases mem_set_some hg with hg | rfl
        · exact .inl hg
        · exact .inr (hown.ready g List.mem_cons_self)
      · rw [hp]
        have hcount := count_set_some hfree f0 g
        have hhand := count_cons_eq f0 g [f1]
        change (List.set (s.ofile p) r.1 (some f0)).count (some g) + [f1].count g =
          (s.ofile p).count (some g) + [f0, f1].count g
        omega

theorem next_pipe4 (h : Inv s) {fd0 : Nat} {f0 f1 : Ptr} (hp : s.pc p = .pipe4 fd0 f0 f1)
    (hs : s.next p page = some s') : Inv s' := by
  have hown := h.own p
  rw [hp] at hown
  have hget : (s.ofile p)[fd0]? = some (some f0) := hown.stands
  rw [State.next, hp] at hs
  cases hfd : fdalloc (s.ofile p) f1 with
  | none =>
      simp only [hfd] at hs
      cases hs
      -- the first descriptor is emptied, and `fileclose` gets its file
      refine h.setOfile p (hown.goes nofun List.length_set trivial rfl nofun fun g hg =>
        .inl (mem_set_none hg)) (fun g => ?_) (fun _ => by rw [hp]; rfl) (by simp [hp]) trivial
        nofun
      rw [hp]
      have hcount := count_set_none hget g
      have hhand := count_cons_eq f0 g [f1]
      change (List.set (s.ofile p) fd0 none).count (some g) + [f0, f1].count g =
        (s.ofile p).count (some g) + [f1].count g
      omega
  | some r =>
      simp only [hfd] at hs
      cases hs
      obtain ⟨hfree, hset⟩ := fdalloc_some hfd
      rw [hset]
      refine h.setOfile p (hown.goes nofun List.length_set trivial rfl nofun fun g hg => ?_)
        (fun g => ?_) (fun _ => by rw [hp]; rfl) (by simp [hp]) trivial nofun
      · rcases mem_set_some hg with hg | rfl
        · exact .inl hg
        · exact .inr (hown.ready g List.mem_cons_self)
      · rw [hp]
        exact count_set_some hfree f1 g

/-! ### `fork` -/

omit [DecidableEq π] in
/-- Processes around `fork` go on. -/
theorem gotos (h : Inv s) (pc : π → Pc π)
    (hpc : ∀ r, pc r = s.pc r ∨ (s.pc r).Quiet ∧ (pc r).Quiet ∧ (pc r).Stands (s.ofile r) ∧
      ((s.pc r).Live ↔ (pc r).Live))
    (hchild : ∀ r q i, pc r = .forking q i → pc q = .embryo ∧
      s.ofile q = (s.ofile r).take i ++ List.replicate (NOFILE - i) none)
    (hparent : ∀ r r' q i i', pc r = .forking q i → pc r' = .forking q i' → r = r') :
    Inv { s with pc := pc } where
  safe := h.safe
  refs f := by
    refine (h.refs f).trans (Finset.sum_congr rfl fun r _ => ?_)
    change owns (s.ofile r) (s.pc r) f = owns (s.ofile r) (pc r) f
    rcases hpc r with heq | ⟨hold, hnew, -⟩
    · rw [heq]
    · rw [hold.owns, hnew.owns]
  free := h.free
  objs o := by
    refine (h.objs o).trans (congrArg _ (Finset.sum_congr rfl fun r _ => ?_))
    change (held (s.cwd r) (s.pc r)).count o = (held (s.cwd r) (pc r)).count o
    rcases hpc r with heq | ⟨hold, hnew, -⟩
    · rw [heq]
    · rw [held, held, hold.objs, hnew.objs]
  own r := by
    change Own s.file (s.ofile r) (pc r)
    rcases hpc r with heq | ⟨hold, hnew, hstands, -⟩
    · rw [heq]
      exact h.own r
    · exact (h.own r).quiet hold hnew hstands
  dir r := by
    change s.cwd r ≠ none ↔ (pc r).Live
    rcases hpc r with heq | ⟨-, -, -, hlive⟩
    · rw [heq]
      exact h.dir r
    · exact (h.dir r).trans hlive
  child := hchild
  parent := hparent

omit [DecidableEq π] in
/-- Only one process is building a child. -/
theorem forking_ne (h : Inv s) {q r : π} {i : Nat} (hp : s.pc p = .forking q i) (hr : r ≠ p)
    (i' : Nat) : s.pc r ≠ .forking q i' :=
  fun heq => hr (h.parent r p q i' i heq hp)

theorem fork_start (h : Inv s) {q : π} (hp : s.pc p = .idle) (hq : s.pc q = .unused) :
    Inv ((s.goto q .embryo).goto p (.forking q 0)) := by
  have hqp : q ≠ p := by
    rintro rfl
    rw [hp] at hq
    cases hq
  have hnot : ∀ r q' i, s.pc r = .forking q' i → q' ≠ q ∧ q' ≠ p := by
    intro r q' i hr
    have hembryo := (h.child r q' i hr).1
    constructor <;> rintro rfl
    · rw [hembryo] at hq
      cases hq
    · rw [hembryo] at hp
      cases hp
  have hforking : ∀ r q' i, Function.update (Function.update s.pc q .embryo) p (.forking q 0) r =
      .forking q' i → r = p ∧ q' = q ∧ i = 0 ∨ r ≠ p ∧ r ≠ q ∧ s.pc r = .forking q' i := by
    intro r q' i hr
    by_cases hrp : r = p
    · rw [hrp, Function.update_self] at hr
      cases hr
      exact .inl ⟨hrp, rfl, rfl⟩
    rw [Function.update_of_ne hrp] at hr
    by_cases hrq : r = q
    · rw [hrq, Function.update_self] at hr
      cases hr
    rw [Function.update_of_ne hrq] at hr
    exact .inr ⟨hrp, hrq, hr⟩
  refine h.gotos (Function.update (Function.update s.pc q .embryo) p (.forking q 0))
    (fun r => ?_) (fun r q' i hr => ?_) fun r r' q' i i' hr hr' => ?_
  · by_cases hrp : r = p
    · rw [hrp, Function.update_self, hp]
      exact .inr ⟨.inl rfl, Pc.quiet_forking q 0, Nat.zero_le _, .rfl⟩
    rw [Function.update_of_ne hrp]
    by_cases hrq : r = q
    · rw [hrq, Function.update_self, hq]
      exact .inr ⟨.inr (.inr (.inl rfl)), .inr (.inl rfl), trivial, .rfl⟩
    · exact .inl (Function.update_of_ne hrq _ _)
  · rcases hforking r q' i hr with ⟨rfl, rfl, rfl⟩ | ⟨-, -, hr⟩
    · refine ⟨by rw [Function.update_of_ne hqp, Function.update_self], ?_⟩
      have hstands := (h.own q').stands
      rw [hq] at hstands
      rw [hstands]
      rfl
    · obtain ⟨hembryo, hcopy⟩ := h.child r q' i hr
      obtain ⟨h1, h2⟩ := hnot r q' i hr
      exact ⟨by rw [Function.update_of_ne h2, Function.update_of_ne h1, hembryo], hcopy⟩
  · rcases hforking r q' i hr with ⟨hrp, hrq, -⟩ | ⟨-, -, hold⟩ <;>
      rcases hforking r' q' i' hr' with ⟨hrp', hrq', -⟩ | ⟨-, -, hold'⟩
    · exact hrp.trans hrp'.symm
    · exact absurd hrq (hnot r' q' i' hold').1
    · exact absurd hrq' (hnot r q' i hold).1
    · exact h.parent r r' q' i i' hold hold'

omit [Fintype π] in
theorem forking_of_update {r q q' : π} {i j : Nat}
    (hr : Function.update s.pc p (.forking q i) r = .forking q' j) :
    r = p ∧ q' = q ∧ j = i ∨ r ≠ p ∧ s.pc r = .forking q' j := by
  by_cases hrp : r = p
  · rw [hrp, Function.update_self] at hr
    cases hr
    exact .inl ⟨hrp, rfl, rfl⟩
  · rw [Function.update_of_ne hrp] at hr
    exact .inr ⟨hrp, hr⟩

/-- Nobody else gets to build the child. -/
theorem parent_next (h : Inv s) {q : π} {i : Nat} (hp : s.pc p = .forking q i) (k : Nat)
    (r r' q' : π) (j j' : Nat) (hr : Function.update s.pc p (.forking q k) r = .forking q' j)
    (hr' : Function.update s.pc p (.forking q k) r' = .forking q' j') : r = r' := by
  rcases forking_of_update hr with ⟨hrp, hrq, -⟩ | ⟨hrp, hold⟩ <;>
    rcases forking_of_update hr' with ⟨hrp', hrq', -⟩ | ⟨hrp', hold'⟩
  · exact hrp.trans hrp'.symm
  · exact absurd (hrq ▸ hold') (h.forking_ne hp hrp' j')
  · exact absurd (hrq' ▸ hold) (h.forking_ne hp hrp j)
  · exact h.parent r r' q' j j' hold hold'

omit [DecidableEq π] in
theorem child_ne (h : Inv s) {r q : π} {i : Nat} (hr : s.pc r = .forking q i)
    (hp : s.pc p ≠ .embryo) : q ≠ p := by
  rintro rfl
  exact hp (h.child r q i hr).1

theorem set_self {α : Type} {l : List α} {i : Nat} {x : α} (h : l[i]? = some x) :
    l.set i x = l := by
  obtain ⟨hlt, rfl⟩ := List.getElem?_eq_some_iff.mp h
  exact List.set_getElem_self hlt

omit [Fintype π] [DecidableEq π] in
/-- The descriptors that have been copied, and one more. -/
theorem take_copied {ofile : Fds Ptr} {i : Nat} {x : Option Ptr} (hget : ofile[i]? = some x)
    (hi : i < NOFILE) :
    (ofile.take i ++ List.replicate (NOFILE - i) none).set i x =
        ofile.take (i + 1) ++ List.replicate (NOFILE - (i + 1)) none ∧
      (ofile.take i ++ List.replicate (NOFILE - i) none)[i]? = some none := by
  obtain ⟨hlt, -⟩ := List.getElem?_eq_some_iff.mp hget
  have hlen : (ofile.take i).length = i := by rw [List.length_take]; omega
  obtain ⟨n, hn⟩ : ∃ n, NOFILE - i = n + 1 := ⟨NOFILE - (i + 1), by omega⟩
  have hn' : NOFILE - (i + 1) = n := by omega
  rw [hn, hn', List.replicate_succ, List.take_add_one, hget]
  constructor
  · rw [List.set_append_right _ _ (by omega), hlen, Nat.sub_self, List.set_cons_zero,
      List.append_assoc]
    rfl
  · rw [List.getElem?_append_right (by omega), hlen, Nat.sub_self]
    rfl

/-- The loop of `fork` goes on to the next descriptor, with no file at this one. -/
theorem fork_skip (h : Inv s) {q : π} {i : Nat} (hp : s.pc p = .forking q i) (hi : i < NOFILE)
    (hfd : argfd (s.ofile p) i = none) : Inv (s.goto p (.forking q (i + 1))) := by
  obtain ⟨hembryo, hcopy⟩ := h.child p q i hp
  have hne : s.pc p ≠ .embryo := by simp [hp]
  have hget := argfd_none (by rwa [(h.own p).length]) hfd
  refine h.gotos (Function.update s.pc p (.forking q (i + 1))) (fun r => ?_)
    (fun r q' j hr => ?_) (h.parent_next hp _)
  · by_cases hrp : r = p
    · rw [hrp, Function.update_self, hp]
      exact .inr ⟨Pc.quiet_forking q i, Pc.quiet_forking q (i + 1), hi, .rfl⟩
    · exact .inl (Function.update_of_ne hrp _ _)
  · rcases forking_of_update hr with ⟨rfl, rfl, rfl⟩ | ⟨hrp, hr⟩
    · refine ⟨by rwa [Function.update_of_ne (h.child_ne hp hne)], ?_⟩
      obtain ⟨hset, hnone⟩ := take_copied hget hi
      rw [hcopy, ← hset, set_self hnone]
    · obtain ⟨hembryo', hcopy'⟩ := h.child r q' j hr
      exact ⟨by rwa [Function.update_of_ne (h.child_ne hr hne)], hcopy'⟩

/-- The loop of `fork` copies a file, which the parent has. -/
theorem fork_copy (h : Inv s) {q : π} {i : Nat} {f : Ptr} (hp : s.pc p = .forking q i)
    (hi : i < NOFILE) (hfd : argfd (s.ofile p) i = some f) :
    Inv (((s.filedup f).setOfile q ((s.ofile q).set i (some f))).goto p (.forking q (i + 1))) := by
  obtain ⟨hembryo, hcopy⟩ := h.child p q i hp
  have hne : s.pc p ≠ .embryo := by simp [hp]
  have hqp := h.child_ne hp hne
  have hget := argfd_some hfd
  obtain ⟨hset, hnone⟩ := take_copied hget hi
  rw [← hcopy] at hset hnone
  have hquiet : (s.pc p).Quiet := hp ▸ Pc.quiet_forking q i
  have hmem : some f ∈ counted (s.ofile p) (s.pc p) := by
    rw [hquiet.counted]
    exact List.mem_of_getElem? hget
  have hobj := (h.own p).typed_of_ne hquiet.plain.2.2 hmem
  have hpos := owns_pos_of_counted hmem
  have hle := h.owns_le p f
  have hpcq : Function.update s.pc p (.forking q (i + 1)) q = .embryo := by
    rw [Function.update_of_ne hqp, hembryo]
  have hpcp : Function.update s.pc p (.forking q (i + 1)) p = .forking q (i + 1) :=
    Function.update_self _ _ _
  have hforking : (Pc.forking q (i + 1) : Pc π).Quiet := Pc.quiet_forking q (i + 1)
  rw [State.filedup, if_neg (by omega)]
  generalize hfile : Function.update s.file f { s.file f with ref := (s.file f).ref + 1 } = file
  have hobjs : ∀ g, (file g).obj = (s.file g).obj := fun g => by
    rw [← hfile]
    by_cases hg : g = f
    · rw [hg, Function.update_self]
    · rw [Function.update_of_ne hg]
  have hrefs : ∀ g, (file g).ref = (s.file g).ref + [f].count g := fun g => by
    rw [← hfile]
    by_cases hg : g = f
    · rw [hg, Function.update_self, List.count_singleton_self]
    · rw [Function.update_of_ne hg, List.count_singleton, if_neg (by simpa using Ne.symm hg)]
      rfl
  simp only [State.setFile, hfile]
  constructor
  case safe => exact h.safe
  case refs =>
    intro g
    have hsum := sum_frame
      (g := fun r => owns (Function.update s.ofile q ((s.ofile q).set i (some f)) r)
        (Function.update s.pc p (.forking q (i + 1)) r) g)
      (h := fun r => owns (s.ofile r) (s.pc r) g) q fun r hr => by
        rw [Function.update_of_ne hr]
        by_cases hrp : r = p
        · rw [hrp, hpcp, hforking.owns, hquiet.owns]
        · rw [Function.update_of_ne hrp]
    have hchild : owns ((s.ofile q).set i (some f)) (.embryo : Pc π) g =
        owns (s.ofile q) (.embryo : Pc π) g + [f].count g := count_set_some hnone f g
    simp only [Function.update_self, hpcq, hembryo] at hsum
    have hold := h.refs g
    refine (hrefs g).trans ?_
    change _ = ∑ r, owns (Function.update s.ofile q ((s.ofile q).set i (some f)) r)
      (Function.update s.pc p (.forking q (i + 1)) r) g
    omega
  case free =>
    intro g hzero
    refine (hobjs g).trans (h.free g ?_)
    have href := hrefs g
    change (file g).ref = 0 at hzero
    omega
  case objs =>
    intro o
    have hentries : entries file o = entries s.file o := by simp only [entries, hobjs]
    have hsum : ∑ r, (held (s.cwd r) (Function.update s.pc p (.forking q (i + 1)) r)).count o =
        ∑ r, (held (s.cwd r) (s.pc r)).count o := Finset.sum_congr rfl fun r _ => by
      by_cases hrp : r = p
      · rw [hrp, hpcp, held, held, hforking.objs, hquiet.objs]
      · rw [Function.update_of_ne hrp]
    refine (h.objs o).trans ?_
    change _ = s.closed o + entries file o +
      ∑ r, (held (s.cwd r) (Function.update s.pc p (.forking q (i + 1)) r)).count o
    rw [hentries, hsum]
  case own =>
    intro r
    change Own file (Function.update s.ofile q ((s.ofile q).set i (some f)) r)
      (Function.update s.pc p (.forking q (i + 1)) r)
    by_cases hrq : r = q
    · rw [hrq, hpcq, Function.update_self]
      have hown := h.own q
      rw [hembryo] at hown
      refine ⟨List.length_set.trans hown.length, trivial, (fun _ hf => by cases hf),
        (fun _ hf => by cases hf), fun g hg => .inl ?_⟩
      rw [hobjs]
      rcases mem_set_some hg with hg | rfl
      · exact hown.typed_of_ne (fun _ _ hc => by cases hc) hg
      · exact hobj
    rw [Function.update_of_ne hrq]
    by_cases hrp : r = p
    · rw [hrp, hpcp]
      exact ((h.own p).quiet hquiet hforking hi).frame (fun g _ => hobjs g)
        (fun _ hf => by cases hf)
    rw [Function.update_of_ne hrp]
    refine (h.own r).frame (fun g _ => hobjs g) fun g hg => ?_
    -- a file that has no object yet is not one of the parent
    have hgf : g ≠ f := by
      rintro rfl
      exact hobj (congrArg File.obj ((h.own r).fresh g hg))
    rw [hrefs, List.count_singleton, if_neg (by simpa using Ne.symm hgf)]
    rfl
  case dir =>
    intro r
    refine (h.dir r).trans ?_
    change _ ↔ (Function.update s.pc p (.forking q (i + 1)) r).Live
    by_cases hrp : r = p
    · rw [hrp, hpcp, hp]
      rfl
    · rw [Function.update_of_ne hrp]
  case child =>
    intro r q' j hr
    change Function.update s.pc p (.forking q (i + 1)) q' = .embryo ∧
      Function.update s.ofile q ((s.ofile q).set i (some f)) q' =
        (Function.update s.ofile q ((s.ofile q).set i (some f)) r).take j ++ _
    rcases forking_of_update (s := s) hr with ⟨rfl, rfl, rfl⟩ | ⟨hrp, hold⟩
    · refine ⟨hpcq, ?_⟩
      rw [Function.update_self, Function.update_of_ne hqp.symm, hset]
    · obtain ⟨hembryo', hcopy'⟩ := h.child r q' j hold
      have hq' : q' ≠ q := by
        rintro rfl
        exact h.forking_ne hp hrp j hold
      have hrq : r ≠ q := by
        rintro rfl
        rw [hembryo] at hold
        cases hold
      rw [Function.update_of_ne (h.child_ne hold hne), Function.update_of_ne hq',
        Function.update_of_ne hrq]
      exact ⟨hembryo', hcopy'⟩
  case parent => exact h.parent_next hp _

/-- One process around `fork` goes on by itself. -/
theorem goto_quiet (h : Inv s) (p : π) {c : Pc π} (hp : (s.pc p).Quiet) (hc : c.Quiet)
    (hstands : c.Stands (s.ofile p)) (hlive : (s.pc p).Live ↔ c.Live) (hne : s.pc p ≠ .embryo)
    (hnot : ∀ q i, c ≠ .forking q i) : Inv (s.goto p c) := by
  have hforking : ∀ r q i, Function.update s.pc p c r = .forking q i → s.pc r = .forking q i := by
    intro r q i hr
    by_cases hrp : r = p
    · rw [hrp, Function.update_self] at hr
      exact absurd hr (hnot q i)
    · rwa [Function.update_of_ne hrp] at hr
  refine h.gotos (Function.update s.pc p c) (fun r => ?_) (fun r q i hr => ?_)
    fun r r' q i i' hr hr' => h.parent r r' q i i' (hforking r q i hr) (hforking r' q i' hr')
  · by_cases hrp : r = p
    · rw [hrp, Function.update_self]
      exact .inr ⟨hp, hc, hstands, hlive⟩
    · exact .inl (Function.update_of_ne hrp _ _)
  · have hold := hforking r q i hr
    rw [Function.update_of_ne (h.child_ne hold hne)]
    exact h.child r q i hold

/-- `fork` counts the working directory once more, for the child. -/
theorem fork_end (h : Inv s) {q : π} {i : Nat} (hp : s.pc p = .forking q i) :
    Inv (((s.idupCwd p q).goto q .idle).goto p .idle) := by
  obtain ⟨hembryo, -⟩ := h.child p q i hp
  have hne : s.pc p ≠ .embryo := by simp [hp]
  have hqp := h.child_ne hp hne
  -- the parent has a working directory, since it runs, and the child has none yet
  obtain ⟨ip, hip⟩ := Option.ne_none_iff_exists'.mp ((h.dir p).mpr (by simp [hp]))
  have hnone : s.cwd q = none := by
    by_contra hcwd
    have hlive := (h.dir q).mp hcwd
    rw [hembryo] at hlive
    exact hlive
  have hownq := h.own q
  rw [hembryo] at hownq
  rw [State.idupCwd, hip]
  simp only
  generalize hs' : (((s.gain (.inode ip)).setCwd q (some ip)).goto q .idle).goto p .idle = s'
  have hpcq : s'.pc q = .idle := by
    rw [← hs']
    exact (Function.update_of_ne hqp _ _).trans (Function.update_self _ _ _)
  have hcwdq : s'.cwd q = some ip := by
    rw [← hs']
    exact Function.update_self _ _ _
  have hofile : s'.ofile = s.ofile := by rw [← hs']; rfl
  have hfile : s'.file = s.file := by rw [← hs']; rfl
  -- the parent goes on first, so that nobody is building the child
  have hparent : Inv (s.goto p .idle) :=
    h.goto_quiet p (hp ▸ Pc.quiet_forking q i) (.inl rfl) trivial (by simp [hp]) hne
      (fun _ _ hc => by cases hc)
  have hpcq' : (s.goto p .idle).pc q = .embryo := (Function.update_of_ne hqp _ _).trans hembryo
  refine hparent.change q (fun r _ => by rw [hofile]; rfl) (fun r hr => ?_) (fun r hr => ?_) ?_ ?_
    ?_ ?_ (fun _ _ _ => by rw [hfile]; rfl) (fun _ _ => by rw [hfile]; rfl) ?_ ?_ (fun r j hr => ?_)
    (by simp [hpcq])
  · rw [← hs']
    by_cases hrp : r = p
    · have hidle : (s.goto p .idle).pc p = .idle := Function.update_self _ _ _
      rw [hrp, hidle]
      exact Function.update_self _ _ _
    · exact (Function.update_of_ne hrp _ _).trans
        ((Function.update_of_ne hr _ _).trans (Function.update_of_ne hrp _ _).symm)
  · rw [← hs']
    exact Function.update_of_ne hr _ _
  · rw [← hs']
    exact h.safe
  · intro f
    rw [hpcq, hpcq', hofile, hfile]
    rfl
  · rw [hfile]
    exact h.free
  · intro o
    have hopened : s'.opened o = s.opened o + [Obj.inode ip].count o := by
      rw [← hs']
      exact opened_gain s (.inode ip) o
    have hclosed : s'.closed = s.closed := by rw [← hs']; rfl
    rw [hopened, hclosed, hfile, hcwdq, hpcq, hpcq']
    change s.opened o + _ + (_ + _ + (held (s.cwd q) .embryo).count o) =
      s.opened o + (s.closed o + entries s.file o + [Obj.inode ip].count o)
    rw [hnone]
    change s.opened o + _ + (s.closed o + entries s.file o + 0) = _
    omega
  · rw [hpcq, hofile, hfile]
    exact hownq.quiet (.inr (.inl rfl)) (.inl rfl) trivial
  · rw [hcwdq, hpcq]
    exact iff_of_true (Option.some_ne_none ip) trivial
  · by_cases hrp : r = p
    · rw [hrp] at hr
      exact absurd ((Function.update_self _ _ _).symm.trans hr) (by simp)
    · exact h.forking_ne hp hrp j ((Function.update_of_ne hrp _ _).symm.trans hr)

theorem next_forking (h : Inv s) {q : π} {i : Nat} (hp : s.pc p = .forking q i)
    (hs : s.next p page = some s') : Inv s' := by
  rw [State.next, hp] at hs
  simp only at hs
  split_ifs at hs with hi
  · cases hfd : argfd (s.ofile p) i with
    | none =>
        simp only [hfd] at hs
        cases hs
        exact h.fork_skip hp hi hfd
    | some f =>
        simp only [hfd] at hs
        cases hs
        have hpos : 0 < owns (s.ofile p) (.forking q i) f :=
          owns_pos_of_counted (List.mem_of_getElem? (argfd_some hfd))
        have hle := h.owns_le p f
        rw [hp] at hle
        have hcopy := h.fork_copy hp hi hfd
        rw [State.filedup, if_neg (by omega)] at hcopy ⊢
        exact hcopy
  · cases hs
    exact h.fork_end hp

/-! ### Every step -/

/-- A call goes on. -/
theorem next (h : Inv s) (hs : s.next p page = some s') : Inv s' := by
  cases hp : s.pc p with
  | opening ip => exact h.next_opening hp hs
  | allocated ip f => exact h.next_allocated hp hs
  | typing ip f => exact h.next_typing hp hs
  | duping fd f => exact h.next_duping hp hs
  | moving ip => exact h.next_moving hp hs
  | pipe1 f0 => exact h.next_pipe1 hp hs
  | pipe2 f0 f1 => exact h.next_pipe2 hp hs
  | pipe3 f0 f1 => exact h.next_pipe3 hp hs
  | pipe4 fd0 f0 f1 => exact h.next_pipe4 hp hs
  | closing l => exact h.next_closing hp hs
  | forking q i => exact h.next_forking hp hs
  | exits fd => exact h.next_exits hp hs
  | exitClose fd l => exact h.next_exitClose hp hs
  | _ =>
      rw [State.next, hp] at hs
      cases hs

/-- A call has gotten an inode. -/
theorem gained (h : Inv s) (hp : s.pc p = .idle) {ip : Nat} {c : Pc π}
    (hstands : c.Stands (s.ofile p)) (hfresh : c.fresh = []) (hready : c.ready = [])
    (hcounted : counted (s.ofile p) c = s.ofile p) (hhand : c.hand = [])
    (hobjs : c.objs = [.inode ip]) (hlive : c.Live) (hforking : ∀ q i, c ≠ .forking q i) :
    Inv ((s.gain (.inode ip)).goto p c) := by
  have hown := h.own p
  rw [hp] at hown
  have hpc : ((s.gain (.inode ip)).goto p c).pc p = c := Function.update_self _ _ _
  refine h.move p (fun q _ => rfl) (fun q hq => Function.update_of_ne hq _ _) h.safe ?_ h.free ?_
    (fun _ _ _ => rfl) (fun _ _ => rfl) ?_ rfl (by simp [hp]) (by rwa [hpc]) (by rwa [hpc])
  · intro f
    rw [hpc, hp]
    change (s.file f).ref + _ = (s.file f).ref + owns (s.ofile p) c f
    rw [owns, owns, hcounted, hhand]
    rfl
  · intro o
    have hopened := opened_gain s (.inode ip) o
    rw [hpc, hp, hobjs]
    change (s.gain (.inode ip)).opened o + (_ + _ + 0) =
      s.opened o + (s.closed o + entries s.file o + [Obj.inode ip].count o)
    omega
  · rw [hpc]
    exact hown.goes (fun _ _ hc => by cases hc) rfl hstands hfresh (by simp [hready])
      fun f hf => .inl (hcounted ▸ hf)

theorem dup (h : Inv s) (hp : s.pc p = .idle) {fd : Nat} {f : Ptr}
    (hf : argfd (s.ofile p) fd = some f) {r : Nat × Fds Ptr} (hr : fdalloc (s.ofile p) f = some r) :
    Inv ((s.setOfile p r.2).goto p (.duping r.1 f)) := by
  have hown := h.own p
  rw [hp] at hown
  obtain ⟨hfree, hset⟩ := fdalloc_some hr
  obtain ⟨hlt, -⟩ := List.getElem?_eq_some_iff.mp hfree
  have hback : ((s.ofile p).set r.1 (some f)).set r.1 none = s.ofile p := by
    rw [List.set_set, set_self hfree]
  have hmem := List.mem_of_getElem? (argfd_some hf)
  rw [hset]
  refine h.setOfile p (hown.goes nofun List.length_set
    ⟨List.getElem?_set_self hlt, by rwa [hback]⟩ rfl nofun fun g hg => .inl ?_) (fun g => ?_)
    (fun _ => by rw [hp]; rfl) (by simp [hp]) trivial nofun
  · rw [counted] at hg
    change some g ∈ ((s.ofile p).set r.1 (some f)).set r.1 none at hg
    rwa [hback] at hg
  · rw [hp]
    change (((s.ofile p).set r.1 (some f)).set r.1 none).count (some g) + 0 = _
    rw [hback]
    rfl

theorem close (h : Inv s) (hp : s.pc p = .idle) {fd : Nat} {f : Ptr}
    (hf : argfd (s.ofile p) fd = some f) :
    Inv ((s.setOfile p ((s.ofile p).set fd none)).goto p (.closing [.file f])) := by
  have hown := h.own p
  rw [hp] at hown
  refine h.setOfile p (hown.goes nofun List.length_set trivial rfl nofun fun g hg =>
    .inl (mem_set_none hg)) (fun g => ?_) (fun _ => by rw [hp]; rfl) (by simp [hp]) trivial nofun
  rw [hp]
  exact (count_set_none (argfd_some hf) g).symm

theorem reap (h : Inv s) {q : π} (hq : s.pc q = .zombie) : Inv (s.goto q .unused) := by
  have hstands := (h.own q).stands
  rw [hq] at hstands
  exact h.goto_quiet q (.inr (.inr (.inr (.inl hq)))) (.inr (.inr (.inl rfl))) hstands
    (by simp [hq]) (by simp [hq]) (fun _ _ hc => by cases hc)

theorem exit (h : Inv s) (hp : s.pc p = .idle) : Inv (s.goto p (.exits 0)) := by
  have hown := h.own p
  rw [hp] at hown
  exact h.goto p (hown.goes nofun rfl ⟨Nat.zero_le _, nofun⟩ rfl nofun fun _ => .inl)
    (fun _ => by rw [hp]; rfl) (fun _ => by rw [hp]; rfl) (by simp [hp]) trivial nofun

theorem step (h : Inv s) {a : Act π} (hs : Files.step s a = some s') : Inv s' := by
  cases a with
  | openFile p omode ip dir =>
      rw [Files.step] at hs
      split_ifs at hs with hp
      · cases hs
        exact h.gained hp trivial rfl rfl rfl rfl rfl trivial nofun
      · cases hs
        exact h.gained hp trivial rfl rfl rfl rfl rfl trivial nofun
  | chdir p ip dir =>
      rw [Files.step] at hs
      split_ifs at hs with hp
      · cases hs
        exact h.gained hp trivial rfl rfl rfl rfl rfl trivial nofun
      · cases hs
        exact h.gained hp trivial rfl rfl rfl rfl rfl trivial nofun
  | dup p fd =>
      rw [Files.step] at hs
      split_ifs at hs with hp
      split at hs
      · cases hs
        exact h
      rename_i f hf
      split at hs
      · cases hs
        exact h
      rename_i r hr
      cases hs
      exact h.dup hp hf hr
  | close p fd =>
      rw [Files.step] at hs
      split_ifs at hs with hp
      split at hs
      · cases hs
        exact h
      rename_i f hf
      cases hs
      exact h.close hp hf
  | pipe p =>
      rw [Files.step] at hs
      split_ifs at hs with hp
      split at hs
      · cases hs
        exact h
      rename_i f hf
      cases hs
      exact h.took hf trivial (fun g hg => .inl (List.mem_singleton.mp hg)) rfl (by rw [hp]; rfl)
        (fun _ => by rw [hp]; exact (Nat.zero_add _).symm) (fun _ => by rw [hp]; rfl) (by simp [hp])
        (by simp [hp]) trivial nofun
  | fork p q =>
      rw [Files.step] at hs
      split_ifs at hs with hp
      cases hs
      exact h.fork_start hp.1 hp.2
  | exit p =>
      rw [Files.step] at hs
      split_ifs at hs with hp
      cases hs
      exact h.exit hp
  | reap q =>
      rw [Files.step] at hs
      split_ifs at hs with hq
      cases hs
      exact h.reap hq
  | next p page => exact h.next hs

end Inv

/-! ### Runs -/

variable [Fintype π] [DecidableEq π]

omit [Fintype π] in
theorem init_pc (p₀ : π) (root : Nat) (r : π) :
    r = p₀ ∧ (init p₀ root).pc r = .idle ∧ (init p₀ root).cwd r = some root ∨
      r ≠ p₀ ∧ (init p₀ root).pc r = .unused ∧ (init p₀ root).cwd r = none := by
  by_cases hr : r = p₀
  · left
    simp only [init, hr, Function.update_self, and_self]
  · right
    refine ⟨hr, ?_, ?_⟩ <;> simp only [init, Function.update_of_ne hr]

theorem inv_init (p₀ : π) (root : Nat) : Inv (init p₀ root) where
  safe := rfl
  refs f := by
    refine (Finset.sum_eq_zero fun r _ => ?_).symm
    have hcount : (List.replicate NOFILE (none : Option Ptr)).count (some f) = 0 :=
      List.count_eq_zero.mpr (by simp)
    rcases init_pc p₀ root r with ⟨-, hr, -⟩ | ⟨-, hr, -⟩ <;> rw [hr] <;> exact hcount
  free f _ := rfl
  objs o := by
    have hentries : entries (init p₀ root).file o = 0 := by simp [entries, init]
    have hsum := Finset.sum_eq_single_of_mem
      (f := fun r => (held ((init p₀ root).cwd r) ((init p₀ root).pc r)).count o) p₀
      (Finset.mem_univ p₀) fun r _ hr => by
        rcases init_pc p₀ root r with ⟨heq, -⟩ | ⟨-, hpc, hcwd⟩
        · exact absurd heq hr
        · rw [hpc, hcwd]
          rfl
    have hopened := opened_gain { init p₀ root with opened := fun _ => 0 } (.inode root) o
    rcases init_pc p₀ root p₀ with ⟨-, hpc, hcwd⟩ | ⟨hne, -⟩
    · rw [hsum, hentries, hpc, hcwd]
      exact hopened
    · exact absurd rfl hne
  own r := by
    have htyped : ∀ f, some f ∈ List.replicate NOFILE (none : Option Ptr) → False :=
      fun f hf => by simp at hf
    rcases init_pc p₀ root r with ⟨-, hr, -⟩ | ⟨-, hr, -⟩ <;> rw [hr]
    · exact ⟨rfl, trivial, (fun _ hf => by cases hf), (fun _ hf => by cases hf),
        fun f hf => (htyped f hf).elim⟩
    · exact ⟨rfl, rfl, (fun _ hf => by cases hf), (fun _ hf => by cases hf),
        fun f hf => (htyped f hf).elim⟩
  dir r := by
    rcases init_pc p₀ root r with ⟨-, hr, hcwd⟩ | ⟨-, hr, hcwd⟩ <;> rw [hr, hcwd]
    · exact iff_of_true (Option.some_ne_none root) trivial
    · exact iff_of_false (fun h => h rfl) id
  child r q i hr := by
    rcases init_pc p₀ root r with ⟨-, h, -⟩ | ⟨-, h, -⟩ <;> rw [h] at hr <;> cases hr
  parent r r' q i i' hr _ := by
    rcases init_pc p₀ root r with ⟨-, h, -⟩ | ⟨-, h, -⟩ <;> rw [h] at hr <;> cases hr

theorem reach_inv {p₀ : π} {root : Nat} {s : State π} (hs : (machine p₀ root).Reach s) : Inv s :=
  hs.induction (inv_init p₀ root) fun _ _ _ h ht => h.step ht

/-- **The table of open files counts its references**, in every state that the processes can
come to: `filedup` and `fileclose` do not panic; the count of a file is the number of its
references; an object was gotten as often as it was given back, and once more for each file
that has it, each working directory and each call; and a process in none of the calls has an
object behind each of its descriptors, so that `fileread` and `filewrite` do not panic. -/
theorem file_table {p₀ : π} {root : Nat} {s : State π} (hs : (machine p₀ root).Reach s) :
    s.panicked = false ∧
      (∀ f, (s.file f).ref = ∑ p, owns (s.ofile p) (s.pc p) f) ∧
      (∀ o, s.opened o =
        s.closed o + entries s.file o + ∑ p, (held (s.cwd p) (s.pc p)).count o) ∧
      ∀ p f, s.pc p = .idle → some f ∈ s.ofile p → (s.file f).obj ≠ none := by
  have h := reach_inv hs
  refine ⟨h.safe, h.refs, h.objs, fun p f hp hf => ?_⟩
  have hown := h.own p
  rw [hp] at hown
  exact hown.typed_of_ne nofun hf

/-- A process goes to a directory, opens a file and forks. -/
theorem file_table_fork :
    ∃ s, (machine (0 : Fin 2) 1).exec (init 0 1)
        ([.chdir 0 5 true, .next 0 none, .openFile 0 0 7 false, .next 0 none, .next 0 none,
          .next 0 none, .fork 0 1] ++ List.replicate 17 (.next 0 none)) = some s ∧
      s.panicked = false ∧
      (∀ f, (s.file f).ref = ∑ p, owns (s.ofile p) (s.pc p) f) ∧
      (∀ o, s.opened o =
        s.closed o + entries s.file o + ∑ p, (held (s.cwd p) (s.pc p)).count o) ∧
      ∀ p f, s.pc p = .idle → some f ∈ s.ofile p → (s.file f).obj ≠ none := by
  have hrun : (machine (0 : Fin 2) 1).Reach _ :=
    ⟨[.chdir 0 5 true, .next 0 none, .openFile 0 0 7 false, .next 0 none, .next 0 none,
      .next 0 none, .fork 0 1] ++ List.replicate 17 (.next 0 none), rfl⟩
  exact ⟨_, rfl, file_table hrun⟩

end OsCourse.Files
