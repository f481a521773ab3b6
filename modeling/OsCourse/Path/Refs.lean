import OsCourse.Path.Model

/-!
# OsCourse.Path.Refs

Path lookup with the references and locks it takes
(`Os-lab-xv6-system-call/fs.c`). `namex` holds one inode at a time: it leaves no
lock behind, and no reference but one to the inode it returns.
-/

namespace OsCourse.Path

/-- The inodes as a process uses them: the references to an inode, and whether
this process holds its lock. -/
structure Inodes (ι : Type) where
  ref : ι → Int
  held : ι → Bool

variable {ι : Type} [DecidableEq ι]

namespace Inodes

/-- `iget` and `idup`: one reference more. -/
def iget (s : Inodes ι) (ip : ι) : Inodes ι :=
  { s with ref := Function.update s.ref ip (s.ref ip + 1) }

/-- `ilock`: `none` for a panic, or for a lock that the process holds already. -/
def ilock (s : Inodes ι) (ip : ι) : Option (Inodes ι) :=
  if s.ref ip < 1 ∨ s.held ip then none
  else some { s with held := Function.update s.held ip true }

/-- `iunlock`. -/
def iunlock (s : Inodes ι) (ip : ι) : Option (Inodes ι) :=
  if !s.held ip ∨ s.ref ip < 1 then none
  else some { s with held := Function.update s.held ip false }

/-- `iput`: one reference less. -/
def iput (s : Inodes ι) (ip : ι) : Inodes ι :=
  { s with ref := Function.update s.ref ip (s.ref ip - 1) }

/-- `iunlockput`. -/
def iunlockput (s : Inodes ι) (ip : ι) : Option (Inodes ι) := (s.iunlock ip).map (·.iput ip)

end Inodes

/-- The loop of `namex`, with a reference to `ip`. -/
def namexRefs (fs : FileSystem ι) (nameiparent : Bool) (s : Inodes ι) (ip : ι)
    (name path : List UInt8) : Option (Option (ι × List UInt8) × Inodes ι) :=
  match _h : skipelem path with
  | none => if nameiparent then some (none, s.iput ip) else some (some (ip, name), s)
  | some (elem, rest) => do
      let s ← s.ilock ip
      if !fs.isDir ip then
        let s ← s.iunlockput ip
        some (none, s)
      else if nameiparent && rest.isEmpty then
        let s ← s.iunlock ip
        some (some (ip, elem), s)
      else
        match fs.dirlookup ip elem with
        | none =>
            let s ← s.iunlockput ip
            some (none, s)
        | some next =>
            -- dirlookup ends in iget
            let s ← (s.iget next).iunlockput ip
            namexRefs fs nameiparent s next elem rest
termination_by path.length
decreasing_by exact skipelem_lt _h

/-- `namei`, with references and locks. -/
def nameiRefs (fs : FileSystem ι) (s : Inodes ι) (path : List UInt8) :
    Option (Option ι × Inodes ι) :=
  (namexRefs fs false (s.iget (start fs path)) (start fs path) [] path).map fun (r, s) =>
    (r.map Prod.fst, s)

/-! ### One inode at a time -/

/-- The references of `s`, and one more to the inode `r`. -/
def withRef (s : Inodes ι) (r : Option ι) : Inodes ι :=
  { s with ref := fun j => s.ref j + if r = some j then 1 else 0 }

@[simp] theorem withRef_none (s : Inodes ι) : withRef s none = s := by simp [withRef]

theorem iget_eq (s : Inodes ι) (ip : ι) : s.iget ip = withRef s (some ip) := by
  simp only [Inodes.iget, withRef, Option.some.injEq, Inodes.mk.injEq, and_true]
  funext j
  rw [Function.update_apply]
  by_cases hj : j = ip
  · rw [if_pos hj, if_pos hj.symm, hj]
  · rw [if_neg hj, if_neg fun h => hj h.symm, Int.add_zero]

theorem iput_withRef (s : Inodes ι) (ip : ι) : (withRef s (some ip)).iput ip = s := by
  simp only [Inodes.iput, withRef, Option.some.injEq]
  obtain ⟨ref, held⟩ := s
  simp only [Inodes.mk.injEq, and_true]
  funext j
  rw [Function.update_apply]
  by_cases hj : j = ip
  · rw [if_pos hj, if_pos trivial, hj, Int.add_sub_cancel]
  · rw [if_neg hj, if_neg fun h => hj h.symm, Int.add_zero]

theorem ilock_eq_some {s s' : Inodes ι} {ip : ι} : s.ilock ip = some s' ↔
    1 ≤ s.ref ip ∧ s.held ip = false ∧ s' = { s with held := Function.update s.held ip true } := by
  unfold Inodes.ilock
  split
  · next h =>
    simp only [reduceCtorEq, false_iff]
    rintro ⟨hle, hheld, -⟩
    rcases h with h | h
    · omega
    · rw [hheld] at h
      cases h
  · next h =>
    rw [not_or, Bool.not_eq_true] at h
    constructor
    · intro heq
      exact ⟨by omega, h.2, (Option.some.inj heq).symm⟩
    · rintro ⟨-, -, rfl⟩
      rfl

theorem iunlock_eq_some {s s' : Inodes ι} {ip : ι} : s.iunlock ip = some s' ↔
    1 ≤ s.ref ip ∧ s.held ip = true ∧ s' = { s with held := Function.update s.held ip false } := by
  unfold Inodes.iunlock
  split
  · next h =>
    simp only [reduceCtorEq, false_iff]
    rintro ⟨hle, hheld, -⟩
    rcases h with h | h
    · rw [hheld] at h
      cases h
    · omega
  · next h =>
    rw [not_or, Bool.not_eq_true'] at h
    constructor
    · intro heq
      exact ⟨by omega, by simpa using h.1, (Option.some.inj heq).symm⟩
    · rintro ⟨-, -, rfl⟩
      rfl

theorem iget_comm (s : Inodes ι) (a b : ι) : (s.iget a).iget b = (s.iget b).iget a := by
  simp only [iget_eq, withRef, Inodes.mk.injEq, and_true]
  funext j
  exact Int.add_right_comm ..

/-- `ilock` and `iunlockput` of an inode, with the locks unchanged in between. -/
theorem iunlockput_locked {s s₁ s₂ t : Inodes ι} {ip : ι} (hlock : s.ilock ip = some s₁)
    (hheld : t.held = s₁.held) (hput : t.iunlockput ip = some s₂) :
    s₂ = ({ t with held := s.held } : Inodes ι).iput ip := by
  obtain ⟨-, hfree, rfl⟩ := ilock_eq_some.mp hlock
  obtain ⟨t₁, hunlock, rfl⟩ := Option.map_eq_some_iff.mp hput
  obtain ⟨-, -, rfl⟩ := iunlock_eq_some.mp hunlock
  have hback : Function.update t.held ip false = s.held := by
    rw [hheld, Function.update_idem, ← hfree, Function.update_eq_self]
  rw [hback]

theorem iunlockput_of_ilock {s s₁ s₂ : Inodes ι} {ip : ι} (hlock : s.ilock ip = some s₁)
    (hput : s₁.iunlockput ip = some s₂) : s₂ = s.iput ip := by
  rw [iunlockput_locked hlock rfl hput, (ilock_eq_some.mp hlock).2.2]

theorem iunlockput_of_iget {s s₁ s₂ : Inodes ι} {ip next : ι} (hlock : s.ilock ip = some s₁)
    (hput : (s₁.iget next).iunlockput ip = some s₂) : s₂ = (s.iget next).iput ip := by
  have hheld : (s₁.iget next).held = s₁.held := rfl
  rw [iunlockput_locked hlock hheld hput, (ilock_eq_some.mp hlock).2.2]
  rfl

theorem iunlock_of_ilock {s s₁ s₂ : Inodes ι} {ip : ι} (hlock : s.ilock ip = some s₁)
    (hunlock : s₁.iunlock ip = some s₂) : s₂ = s := by
  obtain ⟨-, hfree, rfl⟩ := ilock_eq_some.mp hlock
  obtain ⟨-, -, rfl⟩ := iunlock_eq_some.mp hunlock
  rw [Function.update_idem, ← hfree, Function.update_eq_self]

theorem namexRefs_end {fs : FileSystem ι} {nameiparent : Bool} {s : Inodes ι} {ip : ι}
    {name path : List UInt8} (h : skipelem path = none) :
    namexRefs fs nameiparent s ip name path =
      if nameiparent then some (none, s.iput ip) else some (some (ip, name), s) := by
  rw [namexRefs, h]

theorem namexRefs_elem {fs : FileSystem ι} {nameiparent : Bool} {s : Inodes ι} {ip : ι}
    {name path elem rest : List UInt8} (h : skipelem path = some (elem, rest)) :
    namexRefs fs nameiparent s ip name path = (s.ilock ip).bind fun s =>
      if !fs.isDir ip then (s.iunlockput ip).bind fun s => some (none, s)
      else if nameiparent && rest.isEmpty then
        (s.iunlock ip).bind fun s => some (some (ip, elem), s)
      else
        match fs.dirlookup ip elem with
        | none => (s.iunlockput ip).bind fun s => some (none, s)
        | some next => ((s.iget next).iunlockput ip).bind fun s =>
            namexRefs fs nameiparent s next elem rest := by
  rw [namexRefs, h]
  rfl

/-- The loop of `namex` finds what it finds without references and locks, and has
exchanged its reference for one to what it returns. -/
theorem namexRefs_spec {fs : FileSystem ι} {nameiparent : Bool} {s s' : Inodes ι} {ip : ι}
    {name path : List UInt8} {r : Option (ι × List UInt8)}
    (h : namexRefs fs nameiparent (withRef s (some ip)) ip name path = some (r, s')) :
    r = namexLoop fs nameiparent ip name path ∧ s' = withRef s (r.map Prod.fst) := by
  have hput : ∀ {s s₁ s₂ : Inodes ι} {ip : ι}, (withRef s (some ip)).ilock ip = some s₁ →
      s₁.iunlockput ip = some s₂ → s₂ = s := fun hlock hput =>
    (iunlockput_of_ilock hlock hput).trans (iput_withRef ..)
  induction hn : path.length using Nat.strongRecOn generalizing s ip name path with
  | ind n ih =>
      subst hn
      rw [namexLoop]
      split
      · next hend =>
        rw [namexRefs_end hend] at h
        split at h
        · next hparent =>
          obtain ⟨rfl, rfl⟩ := Prod.mk.inj (Option.some.inj h)
          rw [if_pos hparent]
          exact ⟨rfl, (iput_withRef s ip).trans (withRef_none s).symm⟩
        · next hparent =>
          obtain ⟨rfl, rfl⟩ := Prod.mk.inj (Option.some.inj h)
          rw [if_neg hparent]
          exact ⟨rfl, rfl⟩
      · next elem rest hstep =>
        rw [namexRefs_elem hstep] at h
        obtain ⟨s₁, hlock, h⟩ := Option.bind_eq_some_iff.mp h
        by_cases hdir : (!fs.isDir ip) = true
        · rw [if_pos hdir] at h ⊢
          obtain ⟨s₂, hunlock, h⟩ := Option.bind_eq_some_iff.mp h
          obtain ⟨rfl, rfl⟩ := Prod.mk.inj (Option.some.inj h)
          exact ⟨rfl, (hput hlock hunlock).trans (withRef_none s).symm⟩
        · rw [if_neg hdir] at h ⊢
          by_cases hlast : (nameiparent && rest.isEmpty) = true
          · rw [if_pos hlast] at h ⊢
            obtain ⟨s₂, hunlock, h⟩ := Option.bind_eq_some_iff.mp h
            obtain ⟨rfl, rfl⟩ := Prod.mk.inj (Option.some.inj h)
            exact ⟨rfl, iunlock_of_ilock hlock hunlock⟩
          · rw [if_neg hlast] at h ⊢
            cases hnext : fs.dirlookup ip elem with
            | none =>
                rw [hnext] at h
                obtain ⟨s₂, hunlock, h⟩ := Option.bind_eq_some_iff.mp h
                obtain ⟨rfl, rfl⟩ := Prod.mk.inj (Option.some.inj h)
                exact ⟨rfl, (hput hlock hunlock).trans (withRef_none s).symm⟩
            | some next =>
                rw [hnext] at h
                obtain ⟨s₂, hunlock, h⟩ := Option.bind_eq_some_iff.mp h
                have hs₂ : s₂ = withRef s (some next) := by
                  rw [iunlockput_of_iget hlock hunlock, ← iget_eq, iget_comm, iget_eq (s.iget next),
                    iput_withRef, iget_eq]
                subst hs₂
                exact ih _ (skipelem_lt hstep) h rfl

/-- **`namei`** takes a reference to the inode it returns, and nothing else. -/
theorem nameiRefs_spec {fs : FileSystem ι} {s s' : Inodes ι} {path : List UInt8} {r : Option ι}
    (h : nameiRefs fs s path = some (r, s')) : r = namei fs path ∧ s' = withRef s r := by
  obtain ⟨⟨r₁, s₁⟩, hloop, heq⟩ := Option.map_eq_some_iff.mp h
  rw [iget_eq] at hloop
  obtain ⟨hr, hs⟩ := namexRefs_spec hloop
  obtain ⟨rfl, rfl⟩ := Prod.mk.inj heq
  exact ⟨congrArg _ hr, hs⟩

/-! ### Lookups return -/

/-- The process holds no lock, and no count is negative. -/
structure Unlocked (s : Inodes ι) : Prop where
  held : ∀ ip, s.held ip = false
  ref : ∀ ip, 0 ≤ s.ref ip

omit [DecidableEq ι] in
theorem Unlocked.withRef [DecidableEq ι] {s : Inodes ι} (h : Unlocked s) (r : Option ι) :
    Unlocked (withRef s r) := by
  refine ⟨h.held, fun ip => ?_⟩
  have href := h.ref ip
  simp only [Path.withRef]
  split <;> omega

/-- An inode with a reference can be locked. -/
theorem Unlocked.ilock {s : Inodes ι} (h : Unlocked s) {ip : ι} (href : 1 ≤ s.ref ip) :
    ∃ s₁, s.ilock ip = some s₁ ∧ ∀ t : Inodes ι, t.held = s₁.held → 1 ≤ t.ref ip →
      ∃ s₂, t.iunlock ip = some s₂ := by
  refine ⟨_, ilock_eq_some.mpr ⟨href, h.held ip, rfl⟩, fun t ht hle => ?_⟩
  refine ⟨_, iunlock_eq_some.mpr ⟨hle, ?_, rfl⟩⟩
  rw [ht]
  exact Function.update_self ..

/-- The loop of `namex` returns. -/
theorem namexRefs_isSome (fs : FileSystem ι) (nameiparent : Bool) {s : Inodes ι} (hs : Unlocked s)
    (ip : ι) (name path : List UInt8) :
    (namexRefs fs nameiparent (withRef s (some ip)) ip name path).isSome := by
  induction hn : path.length using Nat.strongRecOn generalizing s ip name path with
  | ind n ih =>
      subst hn
      cases hstep : skipelem path with
      | none =>
          rw [namexRefs_end hstep]
          split <;> rfl
      | some p =>
          obtain ⟨elem, rest⟩ := p
          have href : 1 ≤ (withRef s (some ip)).ref ip := by
            have hle := hs.ref ip
            simp only [withRef, if_true]
            omega
          obtain ⟨s₁, hlock, hunlock⟩ := (hs.withRef (some ip)).ilock href
          have href₁ : s₁.ref = (withRef s (some ip)).ref := by rw [(ilock_eq_some.mp hlock).2.2]
          obtain ⟨s₂, hs₂⟩ := hunlock s₁ rfl (by rw [href₁]; exact href)
          rw [namexRefs_elem hstep, hlock, Option.bind_some]
          split
          · simp [Inodes.iunlockput, hs₂]
          · split
            · simp [hs₂]
            · split
              · simp [Inodes.iunlockput, hs₂]
              · next next hnext =>
                have hnextref : 1 ≤ (s₁.iget next).ref ip := by
                  simp only [Inodes.iget, Function.update_apply, href₁]
                  split
                  · next h =>
                    subst h
                    omega
                  · exact href
                obtain ⟨s₃, hs₃⟩ := hunlock (s₁.iget next) rfl hnextref
                have hput : (s₁.iget next).iunlockput ip = some (s₃.iput ip) := by
                  rw [Inodes.iunlockput, hs₃]
                  rfl
                have hs₃' : s₃.iput ip = withRef s (some next) := by
                  rw [iunlockput_of_iget hlock hput, ← iget_eq, iget_comm, iget_eq (s.iget next),
                    iput_withRef, iget_eq]
                rw [hput, Option.bind_some, hs₃']
                exact ih _ (skipelem_lt hstep) hs next elem rest rfl

theorem nameiRefs_isSome (fs : FileSystem ι) {s : Inodes ι} (hs : Unlocked s) (path : List UInt8) :
    nameiRefs fs s path = some (namei fs path, withRef s (namei fs path)) := by
  have hsome := namexRefs_isSome fs false hs (start fs path) [] path
  rw [← iget_eq] at hsome
  obtain ⟨r, hr⟩ := Option.isSome_iff_exists.mp hsome
  have hcall : nameiRefs fs s path = some (r.1.map Prod.fst, r.2) := by
    rw [nameiRefs, hr]
    rfl
  obtain ⟨hfound, hrefs⟩ := nameiRefs_spec hcall
  rw [hcall, hrefs, hfound]

end OsCourse.Path
