import OsCourse.Sched.Slots

/-!
# OsCourse.Sched.Kill

`kill` and the reuse of slots. `kill` looks for a pid in all slots, whatever
their state, and a free slot keeps the pid of the process it was last meant for:
0 in a slot never used or reaped by `wait`, but the pid of the failed `fork` in
one that `fork` gave back. A `kill` that stops at such a slot reports success
and leaves the slot's `killed` flag set for the next process in it; so does a
`fork` that fails after its embryo was killed, since `allocproc` does not clear
the flag.

`kill_sound` says that nothing else goes wrong, as long as pids have not
wrapped: the pids of all slots but the free ones with pid 0 are distinct, and
the `killed` flag of a free slot is clear (`Ids`).
-/

namespace OsCourse.Sched

variable {m n : Nat} {F : Type}

/-- The slot at which the loop of `kill` stops. -/
def slotOf (t : Table n F) (pid : Int32) : Option (Fin n) :=
  (List.finRange n).find? fun i => (t i).pid = pid

/-- The value that `kill(pid)` returns. -/
def killResult (t : Table n F) (pid : Int32) : Int32 :=
  match slotOf t pid with
  | some _ => 0
  | none => -1

theorem slotOf_spec {t : Table n F} {pid : Int32} {i : Fin n} (h : slotOf t pid = some i) :
    (t i).pid = pid := by
  simpa using List.find?_some h

theorem kill_of_slotOf {t : Table n F} {pid : Int32} {i : Fin n} (h : slotOf t pid = some i) :
    kill t pid = Function.update t i { t i with
      killed := true
      state := if (t i).state = .sleeping then .runnable else (t i).state } := by
  have hfind : ((List.finRange n).find? fun i => (t i).pid = pid) = some i := h
  rw [kill, updatePid, hfind]

theorem kill_of_slotOf_none {t : Table n F} {pid : Int32} (h : slotOf t pid = none) :
    kill t pid = t := by
  have hfind : ((List.finRange n).find? fun i => (t i).pid = pid) = none := h
  rw [kill, updatePid, hfind]

/-- Pids have not wrapped. -/
def Unwrapped (s : Sys m n F) : Prop := 0 < s.nextpid

/-- The step does not mark a free slot killed: a `kill` stops at a slot that is
taken, if at any, and a `fork` that fails has not been killed meanwhile. -/
def Careful (s : Sys m n F) : Act m n F → Prop
  | .kill pid => ∀ i, slotOf s.proc pid = some i → (s.proc i).state ≠ .unused
  | .forkFail c =>
      ∀ p i, s.current c = some p → s.forking p = some i → (s.proc i).killed = false
  | _ => True

/-- What is asked of a step from `s` to `t`: `kill` returns 0 only if a process
has that pid and leaves the free slots alone, pids stay distinct, and a process
that `fork` creates is not marked killed. -/
structure KillSound (s : Sys m n F) (a : Act m n F) (t : Sys m n F) : Prop where
  returns : ∀ pid, a = .kill pid → killResult s.proc pid = 0 →
    ∃ i, (s.proc i).state ≠ .unused ∧ (s.proc i).pid = pid
  leaves : ∀ pid, a = .kill pid → ∀ i, (s.proc i).state = .unused → t.proc i = s.proc i
  distinct : ∀ i j, (t.proc i).state ≠ .unused → (t.proc j).state ≠ .unused →
    (t.proc i).pid = (t.proc j).pid → i = j
  starts : ∀ c ticks i, a = .forkAlloc c ticks → (s.proc i).state = .unused →
    (t.proc i).state ≠ .unused → (t.proc i).killed = false

/-! ### The invariant -/

/-- The pids handed out so far, and the flags of free slots; `k` is `nextpid`. -/
structure Ids (t : Table n F) (k : Int32) : Prop where
  bound : 0 < k → ∀ i, (t i).pid < k
  pos : ∀ i, (t i).state ≠ .unused → (t i).pid ≠ 0
  inj : ∀ i j, (t i).pid = (t j).pid → (t i).pid ≠ 0 → i = j
  free : ∀ i, (t i).state = .unused → (t i).killed = false

theorem int32_lt_succ {k : Int32} (h : 0 < k) (h' : 0 < k + 1) : k < k + 1 := by
  rw [Int32.lt_iff_toInt_lt] at *
  rw [Int32.toInt_add] at *
  simp only [Int32.toInt_zero, Int32.toInt_one] at *
  have := Int32.toInt_lt k
  rw [Int.bmod_def] at *
  split <;> omega

namespace Ids

variable {t t' : Table n F} {k : Int32}

/-- Taken slots have distinct pids. -/
theorem distinct (h : Ids t k) (i j : Fin n) (hi : (t i).state ≠ .unused)
    (hpid : (t i).pid = (t j).pid) : i = j := h.inj i j hpid (h.pos i hi)

theorem same (h : Ids t k) (ht : SameIds t t') : Ids t' k where
  bound hk i := by
    rw [(ht i).1]
    exact h.bound hk i
  pos i hi := by
    rw [(ht i).1]
    exact h.pos i (mt (ht i).2.2.mpr hi)
  inj i j hij hne := by
    rw [(ht i).1, (ht j).1] at hij
    rw [(ht i).1] at hne
    exact h.inj i j hij hne
  free i hi := by
    rw [(ht i).2.1]
    exact h.free i ((ht i).2.2.mp hi)

/-- Slot `i` gets new contents, with a pid that no other slot has. -/
theorem update (h : Ids t k) {i : Fin n} {x : Proc n F} {k' : Int32} (hk : 0 < k' → 0 < k ∧ k ≤ k')
    (hbound : 0 < k' → x.pid < k') (hnew : ∀ j, j ≠ i → x.pid = (t j).pid → x.pid = 0)
    (hpos : x.state ≠ .unused → x.pid ≠ 0) (hfree : x.state = .unused → x.killed = false) :
    Ids (Function.update t i x) k' := by
  have hself : Function.update t i x i = x := Function.update_self ..
  have hother : ∀ j, j ≠ i → Function.update t i x j = t j := fun j hj => Function.update_of_ne hj ..
  refine ⟨fun hk' j => ?_, fun j hj => ?_, fun j l hjl hne => ?_, fun j hj => ?_⟩
  · by_cases hji : j = i
    · rw [hji, hself]
      exact hbound hk'
    · rw [hother j hji]
      exact Int32.lt_of_lt_of_le (h.bound (hk hk').1 j) (hk hk').2
  · by_cases hji : j = i
    · rw [hji, hself] at hj ⊢
      exact hpos hj
    · rw [hother j hji] at hj ⊢
      exact h.pos j hj
  · by_cases hji : j = i
    · by_cases hli : l = i
      · rw [hji, hli]
      · rw [hji, hself, hother l hli] at hjl
        rw [hji, hself] at hne
        exact absurd (hnew l hli hjl) hne
    · by_cases hli : l = i
      · rw [hother j hji, hli, hself] at hjl
        rw [hother j hji, hjl] at hne
        exact absurd (hnew j hji hjl.symm) hne
      · rw [hother j hji, hother l hli] at hjl
        rw [hother j hji] at hne
        exact h.inj j l hjl hne
  · by_cases hji : j = i
    · rw [hji, hself] at hj ⊢
      exact hfree hj
    · rw [hother j hji] at hj ⊢
      exact h.free j hj

/-- Slot `i` changes and keeps its pid, or gives it up. -/
theorem keep (h : Ids t k) {i : Fin n} {x : Proc n F}
    (hpid : x.pid = (t i).pid ∧ (x.state ≠ .unused → (t i).state ≠ .unused) ∨
      x.pid = 0 ∧ x.state = .unused ∧ 0 < k)
    (hfree : x.state = .unused → x.killed = false) : Ids (Function.update t i x) k := by
  refine h.update (fun hk => ⟨hk, Int32.le_refl k⟩) (fun hk => ?_) (fun j hj hpj => ?_)
    (fun hx => ?_) hfree
  · rcases hpid with ⟨hpid, -⟩ | ⟨hpid, -, -⟩
    · rw [hpid]
      exact h.bound hk i
    · rw [hpid]
      exact hk
  · rcases hpid with ⟨hpid, -⟩ | ⟨hpid, -, -⟩
    · by_contra hne
      rw [hpid] at hpj hne
      exact hj (h.inj i j hpj hne).symm
    · exact hpid
  · rcases hpid with ⟨hpid, htaken⟩ | ⟨-, hunused, -⟩
    · rw [hpid]
      exact h.pos i (htaken hx)
    · exact absurd hunused hx

end Ids

theorem allocproc_ids [FloatOps F] {t t' : Table n F} {k : Int32} {ticks : UInt32} {i : Fin n}
    (h : allocproc t k ticks = some (i, t')) :
    (t i).state = .unused ∧ ∃ x : Proc n F, t' = Function.update t i x ∧
      x.state = .embryo ∧ x.pid = k ∧ x.killed = (t i).killed := by
  unfold allocproc at h
  obtain ⟨j, hfind, hj⟩ := Option.map_eq_some_iff.mp h
  obtain ⟨rfl, rfl⟩ := Prod.mk.inj hj
  have hunused : (t j).state = .unused := by simpa using List.find?_some hfind
  exact ⟨hunused, _, rfl, rfl, rfl, rfl⟩

/-- A careful `kill` changes a taken slot, or nothing. -/
theorem kill_careful {t : Table n F} {pid : Int32}
    (hc : ∀ i, slotOf t pid = some i → (t i).state ≠ .unused) :
    kill t pid = t ∨ ∃ i, (t i).state ≠ .unused ∧ (t i).pid = pid ∧ ∃ x : Proc n F,
      kill t pid = Function.update t i x ∧ x.state ≠ .unused ∧ x.pid = (t i).pid := by
  cases hslot : slotOf t pid with
  | none => exact .inl (kill_of_slotOf_none hslot)
  | some i =>
      have hi := hc i hslot
      refine .inr ⟨i, hi, slotOf_spec hslot, _, kill_of_slotOf hslot, ?_, rfl⟩
      dsimp only
      split_ifs
      · simp
      · exact hi

variable [FloatOps F] {s s' : Sys m n F} {a : Act m n F}

theorem ids_boot : Ids (boot m n F).proc (boot m n F).nextpid where
  bound _ i := by simp [boot, Proc.zero]
  pos i hi := absurd rfl hi
  inj i j _ hne := absurd rfl hne
  free i _ := rfl

/-- A careful step keeps pids distinct and the flags of free slots clear. -/
theorem Ids.next (h : Ids s.proc s.nextpid) (hk : Unwrapped s) (hc : Careful s a)
    (hs : IdStep s a s') : Ids s'.proc s'.nextpid := by
  cases hs with
  | same ht hk' => exact hk' ▸ h.same ht
  | alloc ha ht hk' =>
      obtain ⟨hunused, x, hproc, hembryo, hpid, -⟩ := allocproc_ids ht
      rw [hproc, hk']
      refine h.update (fun hpos => ⟨hk, Int32.le_of_lt (int32_lt_succ hk hpos)⟩) (fun hpos => ?_)
        (fun j _ hj => ?_) (fun _ => ?_) (fun hx => ?_)
      · rw [hpid]
        exact int32_lt_succ hk hpos
      · -- no slot has the next pid yet
        have hlt := h.bound hk j
        rw [← hj, hpid] at hlt
        exact (Int32.lt_irrefl hlt).elim
      · rw [hpid]
        intro h0
        rw [Unwrapped, h0] at hk
        exact (Int32.lt_irrefl hk).elim
      · rw [hembryo] at hx
        cases hx
  | reap ht hi hproc hk' =>
      rw [hproc, hk']
      exact (h.same ht).keep (.inr ⟨rfl, rfl, hk⟩) fun _ => rfl
  | forkFail hp hf hi hproc hk' =>
      rw [hproc, hk']
      exact h.keep (.inl ⟨rfl, fun hx => absurd rfl hx⟩) fun _ => hc _ _ hp hf
  | kill hproc hk' =>
      rw [hproc, hk']
      rcases kill_careful hc with hnone | ⟨i, hi, -, x, hkill, hx, hpid⟩
      · rwa [hnone]
      · rw [hkill]
        exact h.keep (.inl ⟨hpid, fun _ => hi⟩) fun hx' => absurd hx' hx

omit [FloatOps F] in
/-- `kill` keeps to the processes exactly if it does not stop at a free slot. -/
theorem Ids.kill_iff {t : Table n F} {k pid : Int32} (h : Ids t k) :
    ((killResult t pid = 0 → ∃ i, (t i).state ≠ .unused ∧ (t i).pid = pid) ∧
      ∀ i, (t i).state = .unused → kill t pid i = t i) ↔
    ∀ i, slotOf t pid = some i → (t i).state ≠ .unused := by
  constructor
  · intro hsound i hslot hi
    -- the flag of the free slot was clear, so that setting it is seen
    have hkilled := congrArg Proc.killed (hsound.2 i hi)
    rw [kill_of_slotOf hslot, Function.update_self, h.free i hi] at hkilled
    cases hkilled
  · intro hc
    refine ⟨fun hret => ?_, fun i hi => ?_⟩
    · cases hslot : slotOf t pid with
      | none => simp [killResult, hslot] at hret
      | some i => exact ⟨i, hc i hslot, slotOf_spec hslot⟩
    · rcases kill_careful hc with hnone | ⟨j, hj, -, x, hkill, -⟩
      · rw [hnone]
      · rw [hkill, Function.update_of_ne]
        rintro rfl
        exact hj hi

/-- A process that `fork` takes a slot for is not marked killed. -/
theorem Ids.forkAlloc (h : Ids s.proc s.nextpid) {c : Fin m} {ticks : UInt32}
    (hs : step s (.forkAlloc c ticks) = some s') {i : Fin n} (hi : (s.proc i).state = .unused)
    (hi' : (s'.proc i).state ≠ .unused) : (s'.proc i).killed = false := by
  obtain ⟨p, -, hs⟩ := Option.bind_eq_some_iff.mp hs
  split_ifs at hs
  split at hs
  · next j t halloc =>
    obtain rfl := Option.some.inj hs
    obtain ⟨-, x, rfl, -, -, hkilled⟩ := allocproc_ids halloc
    by_cases hij : i = j
    · subst hij
      dsimp only
      rw [Function.update_self, hkilled]
      exact h.free i hi
    · dsimp only at hi'
      rw [Function.update_of_ne hij] at hi'
      exact absurd hi hi'
  · obtain rfl := Option.some.inj hs
    exact absurd hi hi'

/-- What is asked of a step holds of a careful one. -/
theorem Ids.killSound (h : Ids s.proc s.nextpid) (hI : Inv s) (hk : Unwrapped s) (hc : Careful s a)
    (hs : step s a = some s') : KillSound s a s' := by
  have h' := h.next hk hc (step_ids hI hs)
  have hkill : ∀ pid, a = .kill pid → s'.proc = kill s.proc pid := by
    rintro pid rfl
    cases effect_of_step hs
    rfl
  refine ⟨?_, ?_, fun i j hi _ hpid => h'.distinct i j hi hpid, ?_⟩
  · rintro pid rfl
    exact (h.kill_iff.mpr hc).1
  · rintro pid rfl
    rw [hkill pid rfl]
    exact (h.kill_iff.mpr hc).2
  · rintro c ticks i rfl hi hi'
    exact h.forkAlloc hs hi hi'

/-- Every state reached by careful steps, before pids wrap, has the invariant. -/
theorem ids_of_careful (h : (machine m n F).ReachWhile (fun s a => Unwrapped s ∧ Careful s a) s) :
    Inv s ∧ Ids s.proc s.nextpid := by
  refine h.induction (I := fun s => Inv s ∧ Ids s.proc s.nextpid) ⟨inv_boot, ids_boot⟩ ?_
  intro s a t hI hc hs
  exact ⟨hI.1.step hs, hI.2.next hc.1 hc.2 (step_ids hI.1 hs)⟩

/-- **`kill` and the reuse of slots.** In a run whose steps are all careful, and
before pids wrap, every step does what is asked of it; and a `kill` does exactly
if it is careful. -/
theorem kill_sound (s : Sys m n F)
    (h : (machine m n F).ReachWhile (fun s a => Unwrapped s ∧ Careful s a) s) (hk : Unwrapped s) :
    (∀ a t, Careful s a → step s a = some t → KillSound s a t) ∧
      ∀ pid t, step s (.kill pid) = some t →
        (KillSound s (.kill pid) t ↔ Careful s (.kill pid)) := by
  obtain ⟨hI, hids⟩ := ids_of_careful h
  refine ⟨fun a t hc hs => hids.killSound hI hk hc hs, fun pid t hs => ⟨fun hsound => ?_, fun hc =>
    hids.killSound hI hk hc hs⟩⟩
  refine hids.kill_iff.mp ⟨hsound.returns pid rfl, fun i hi => ?_⟩
  have hleaves := hsound.leaves pid rfl i hi
  cases effect_of_step hs
  exact hleaves

instance (s : Sys m n F) (a : Act m n F) : Decidable (Careful s a) := by
  unfold Careful
  split <;> infer_instance

instance (s : Sys m n F) : Decidable (Unwrapped s) := by
  unfold Unwrapped
  infer_instance

/-- One CPU boots, and its first process runs. -/
def firstProcess : List (Act 1 2 ℚ) :=
  [.userinitAlloc 0 0, .userinitReady 0, .start 0, .draw 0 0, .pass 0 0, .resumed 0]

/-- The first process forks, and its child, which has pid 2, is killed. -/
theorem kill_sound_child : ∃ s t : Sys 1 2 ℚ, step s (.kill 2) = some t ∧
    (t.proc 1).killed = true ∧ KillSound s (.kill 2) t := by
  have hrun : ((machine 1 2 ℚ).execWhile (fun s a => Unwrapped s ∧ Careful s a) (boot 1 2 ℚ)
      (firstProcess ++ [.forkAlloc 0 0, .forkParent 0, .forkReady 0])).map
      (fun s => decide (Unwrapped s ∧ Careful s (.kill 2) ∧
        ((step s (.kill 2)).map fun t => (t.proc 1).killed) = some true)) = some true := by
    decide +kernel
  obtain ⟨s, hs, hat⟩ := Option.map_eq_some_iff.mp hrun
  obtain ⟨hk, hc, hkilled⟩ := of_decide_eq_true hat
  obtain ⟨t, ht, hkilled⟩ := Option.map_eq_some_iff.mp hkilled
  exact ⟨s, t, ht, hkilled,
    (kill_sound s ⟨_, (machine 1 2 ℚ).meets_of_execWhile hs⟩ hk).1 _ t hc ht⟩

/-- `kill(0)` finds the free slot 1, and the child that `fork` puts there is
marked killed. -/
theorem kill_zero_hits_child : ¬ ∀ (s : Sys 1 2 ℚ) (a : Act 1 2 ℚ) (t : Sys 1 2 ℚ),
    (machine 1 2 ℚ).ReachWhile (fun s _ => Unwrapped s) s → Unwrapped s → step s a = some t →
      KillSound s a t := by
  have hrun : ((machine 1 2 ℚ).execWhile (fun s _ => Unwrapped s) (boot 1 2 ℚ)
      (firstProcess ++ [.kill 0])).map
      (fun s => decide (Unwrapped s ∧ (s.proc 1).state = .unused ∧
        ((step s (.forkAlloc 0 0)).map fun t => ((t.proc 1).state, (t.proc 1).killed)) =
          some (.embryo, true))) = some true := by decide +kernel
  obtain ⟨s, hs, hat⟩ := Option.map_eq_some_iff.mp hrun
  obtain ⟨hk, hunused, hfork⟩ := of_decide_eq_true hat
  obtain ⟨t, ht, hchild⟩ := Option.map_eq_some_iff.mp hfork
  obtain ⟨hstate, hkilled⟩ := Prod.mk.inj hchild
  intro hall
  have hsound := hall s _ t ⟨_, (machine 1 2 ℚ).meets_of_execWhile hs⟩ hk ht
  have hclear := hsound.starts 0 0 1 rfl hunused (by rw [hstate]; simp)
  rw [hkilled] at hclear
  cases hclear

end OsCourse.Sched
