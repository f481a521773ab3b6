import OsCourse.Fs.Account

/-!
# OsCourse.Fs.Arrays

Files are byte arrays: any sequence of `readi` and `writei` calls on regular files
does what the same calls do on arrays of bytes, one for each inode.
-/

namespace OsCourse.Fs

open Lib

variable {k : Nat} {sb : Superblock} {dev : Devsw} {F : Nat → Prop}

/-- A call on an open file. -/
inductive Call (k : Nat)
  | read (i : Fin k) (off n : UInt32)
  | write (i : Fin k) (src : Nat → UInt8) (off n : UInt32)

/-- What a call returns, and the bytes at `dst`. -/
abbrev Result : Type := Int × List UInt8

namespace Call

/-- The entry of the file. -/
def entry : Call k → Fin k
  | read i _ _ | write i _ _ _ => i

/-- A call, with the inode locked. The results are collected. -/
def step (sb : Superblock) (dev : Devsw) (t : State k × List Result) :
    Call k → Option (State k × List Result)
  | read i off n =>
      (readLocked sb dev t.1 i off n).toOption.map fun (r, s) => (s, t.2 ++ [r])
  | write i src off n =>
      (writeLocked sb dev t.1 i src off n).toOption.map fun (r, s) => (s, t.2 ++ [(r, [])])

/-- The call on byte arrays, where entry `i` is open on the array `inum i`. -/
def array (inum : Fin k → Nat) (x : (Nat → List UInt8) × List Result) :
    Call k → (Nat → List UInt8) × List Result
  | read i off n =>
      let a := x.1 (inum i)
      let bytes := (a.drop off.toNat).take n.toNat
      if Readable a.length off.toNat n.toNat then (x.1, x.2 ++ [((bytes.length : Int), bytes)])
      else (x.1, x.2 ++ [(-1, [])])
  | write i src off n =>
      let a := x.1 (inum i)
      let bytes := (List.range n.toNat).map src
      if Writable a.length off.toNat n.toNat then
        (Function.update x.1 (inum i) (overlay a off.toNat bytes), x.2 ++ [((n.toNat : Int), [])])
      else (x.1, x.2 ++ [(-1, [])])

/-- There are enough free blocks for the call. -/
def Room (sb : Superblock) (s : State k) : Call k → Prop
  | read _ _ _ => True
  | write i _ off n =>
      let d := dinode sb s.disk (s.icache i).inum
      Writable d.size.toNat off.toNat n.toNat →
        need s.disk d off.toNat n.toNat ≤ (unused sb s.disk).card

end Call

/-- The calls, as a machine. -/
def calls (sb : Superblock) (dev : Devsw) (s₀ : State k) :
    Machine (State k × List Result) (Call k) where
  init := (s₀, [])
  step := Call.step sb dev

/-- The entry is open on a regular file in `F`. -/
def Regular (sb : Superblock) (F : Nat → Prop) (s : State k) (i : Fin k) : Prop :=
  0 < (s.icache i).ref ∧ F (s.icache i).inum ∧
    (dinode sb s.disk (s.icache i).inum).type = T_FILE

/-- The bytes of the inodes. -/
def arrays (sb : Superblock) (disk : Disk) (inum : Nat) : List UInt8 :=
  contents disk (dinode sb disk inum)

/-- The file system in `t`, started in `s₀`, and the arrays in `x`. -/
structure Refines (sb : Superblock) (F : Nat → Prop) (s₀ : State k)
    (t : State k × List Result) (x : (Nat → List UInt8) × List Result) : Prop where
  sound : Sound sb F t.1
  entry : ∀ i, (t.1.icache i).inum = (s₀.icache i).inum ∧ (t.1.icache i).ref = (s₀.icache i).ref
  type : ∀ i, i < sb.ninodes → (dinode sb t.1.disk i).type = (dinode sb s₀.disk i).type
  bytes : ∀ i, i < sb.ninodes → (dinode sb s₀.disk i).type ≠ 0 → arrays sb t.1.disk i = x.1 i
  results : t.2 = x.2

/-- A call that changes the bytes of one file. -/
theorem Refines.rewrite {s₀ s : State k} {t : State k × List Result}
    {x : (Nat → List UInt8) × List Result} {i : Fin k} {r : Result} {a : List UInt8}
    (h : Refines sb F s₀ t x) (hsound : Sound sb F s)
    (hrw : Rewrite sb (others sb t.1.disk (t.1.icache i).inum) t.1.disk (t.1.icache i).inum s.disk
      (dinode sb s.disk (t.1.icache i).inum))
    (hentry : ∀ j, (s.icache j).inum = (t.1.icache j).inum ∧
      (s.icache j).ref = (t.1.icache j).ref)
    (htype : (dinode sb s.disk (t.1.icache i).inum).type =
      (dinode sb t.1.disk (t.1.icache i).inum).type)
    (hbytes : arrays sb s.disk (t.1.icache i).inum = a) :
    Refines sb F s₀ (s, t.2 ++ [r])
      (Function.update x.1 (s₀.icache i).inum a, x.2 ++ [r]) where
  sound := hsound
  entry j := ⟨(hentry j).1.trans (h.entry j).1, (hentry j).2.trans (h.entry j).2⟩
  type j hj := by
    by_cases hji : j = (t.1.icache i).inum
    · rw [← h.type j hj, hji]
      exact htype
    · rw [← h.type j hj]
      exact congrArg Dinode.type (hrw.other j hj hji)
  bytes j hj hne := by
    rw [← (h.entry i).1]
    dsimp only
    by_cases hji : j = (t.1.icache i).inum
    · rw [hji, Function.update_self]
      exact hbytes
    · rw [Function.update_of_ne hji, ← h.bytes j hj hne]
      refine hrw.contents hj hji ?_
      rw [h.type j hj]
      exact hne
  results := by rw [h.results]

/-- What is known of the file of a call. -/
theorem Refines.file {s₀ : State k} {t : State k × List Result}
    {x : (Nat → List UInt8) × List Result} {i : Fin k} (h : Refines sb F s₀ t x)
    (hreg : Regular sb F s₀ i) :
    0 < (t.1.icache i).ref ∧
    (dinode sb t.1.disk (t.1.icache i).inum).type = T_FILE ∧
    Full t.1.disk (dinode sb t.1.disk (t.1.icache i).inum) ∧
    contents t.1.disk (dinode sb t.1.disk (t.1.icache i).inum) = x.1 (s₀.icache i).inum := by
  obtain ⟨href, hF, htype⟩ := hreg
  obtain ⟨hinum, href'⟩ := h.entry i
  rw [← href'] at href
  have hlt := h.sound.inum_lt i href
  rw [← hinum] at hF htype ⊢
  have hne : (dinode sb s₀.disk (t.1.icache i).inum).type ≠ 0 := by
    rw [htype]
    decide
  rw [← h.type _ hlt] at htype
  refine ⟨href, htype, h.sound.full _ hlt hF ?_, h.bytes _ hlt hne⟩
  rw [htype]
  decide

theorem readLocked_refines {s₀ : State k} {t : State k × List Result}
    {x : (Nat → List UInt8) × List Result} {i : Fin k} {off n : UInt32}
    (h : Refines sb F s₀ t x) (hreg : Regular sb F s₀ i) :
    ∃ u, (Call.read i off n).step sb dev t = some u ∧
      Refines sb F s₀ u ((Call.read i off n).array (fun i => (s₀.icache i).inum) x) := by
  obtain ⟨href, htype, hfull, hbytes⟩ := h.file hreg
  have hlt := h.sound.inum_lt i href
  have hlen := congrArg List.length hbytes
  rw [length_contents] at hlen
  have hspec := locked_spec (i := i)
    (f := fun disk _ ip => (readi sb dev disk ip off n).map fun r => ((r.1, r.2.1), r.2.2))
    (P := fun r d' disk' => d' = dinode sb t.1.disk (t.1.icache i).inum ∧ disk' = t.1.disk ∧
      ((Call.read i off n).array (fun i => (s₀.icache i).inum) x) = (x.1, x.2 ++ [r]))
    (Q := fun _ => False) h.sound href fun hne => by
      have hdev : (dinode sb t.1.disk (t.1.icache i).inum).type ≠ T_DEV := by
        rw [htype]
        decide
      simp only [readi_spec hdev hfull, Call.array, hbytes, hlen]
      split
      · exact ⟨h.sound.same hlt, hne, fun _ => hfull, rfl, rfl, rfl⟩
      · exact ⟨h.sound.same hlt, hne, fun _ => hfull, rfl, rfl, rfl⟩
  rw [Call.step, readLocked]
  revert hspec
  cases locked sb t.1 i fun disk _ ip =>
      (readi sb dev disk ip off n).map fun r => ((r.1, r.2.1), r.2.2) with
  | error e =>
      rintro (⟨-, hfree⟩ | hfalse)
      · rw [htype] at hfree
        exact absurd hfree (by decide)
      · exact hfalse.elim
  | ok r =>
      obtain ⟨r, s⟩ := r
      rintro ⟨hsound, hrw, hentry, hdin, hdisk, harray⟩
      refine ⟨_, rfl, ?_⟩
      have hsame : arrays sb s.disk (t.1.icache i).inum = x.1 (s₀.icache i).inum := by
        rw [arrays, hdin, hdisk]
        exact hbytes
      have hrefines := h.rewrite (r := r) hsound hrw hentry (congrArg Dinode.type hdin) hsame
      rw [Function.update_eq_self] at hrefines
      rw [harray]
      exact hrefines

theorem writeLocked_refines {s₀ : State k} {t : State k × List Result}
    {x : (Nat → List UInt8) × List Result} {i : Fin k} {src : Nat → UInt8} {off n : UInt32}
    (h : Refines sb F s₀ t x) (hreg : Regular sb F s₀ i)
    (hroom : (Call.write i src off n).Room sb t.1) :
    ∃ u, (Call.write i src off n).step sb dev t = some u ∧
      Refines sb F s₀ u ((Call.write i src off n).array (fun i => (s₀.icache i).inum) x) := by
  obtain ⟨href, htype, hfull, hbytes⟩ := h.file hreg
  have hlt := h.sound.inum_lt i href
  have hlen := congrArg List.length hbytes
  rw [length_contents] at hlen
  have hspec := locked_spec (i := i)
    (f := fun disk inum ip => writei sb dev disk inum ip src off n)
    (P := fun r d' disk' =>
      d'.type = (dinode sb t.1.disk (t.1.icache i).inum).type ∧
      (Call.write i src off n).array (fun i => (s₀.icache i).inum) x =
        (Function.update x.1 (s₀.icache i).inum (contents disk' d'), x.2 ++ [(r, [])]))
    (Q := fun _ => False) h.sound href fun hne => by
      have hdev : (dinode sb t.1.disk (t.1.icache i).inum).type ≠ T_DEV := by
        rw [htype]
        decide
      refine (writei_spec hlt rfl (h.sound.acc_inode hlt) hne hdev hfull).mono (fun r hr => ?_)
        fun e he => ?_
      · obtain ⟨hrw, htype', hfull', hbytes'⟩ := hr
        refine ⟨hrw, htype' ▸ hne, fun _ => hfull', htype', ?_⟩
        simp only [Call.array, ← hlen]
        split
        · next hwrite =>
          rw [if_pos hwrite, hbytes] at hbytes'
          rw [hbytes'.1, hbytes'.2]
        · next hwrite =>
          rw [if_neg hwrite] at hbytes'
          rw [hbytes']
          dsimp only
          rw [hbytes, Function.update_eq_self]
      · exact absurd (hroom he.2.1) (Nat.not_le_of_lt he.2.2)
  rw [Call.step, writeLocked]
  revert hspec
  cases locked sb t.1 i fun disk inum ip => writei sb dev disk inum ip src off n with
  | error e =>
      rintro (⟨-, hfree⟩ | hfalse)
      · rw [htype] at hfree
        exact absurd hfree (by decide)
      · exact hfalse.elim
  | ok r =>
      obtain ⟨r, s⟩ := r
      rintro ⟨hsound, hrw, hentry, htype', harray⟩
      refine ⟨_, rfl, ?_⟩
      rw [harray]
      exact h.rewrite hsound hrw hentry htype' rfl

/-- One call. -/
theorem call_refines {s₀ : State k} {t : State k × List Result}
    {x : (Nat → List UInt8) × List Result} {c : Call k} (h : Refines sb F s₀ t x)
    (hreg : Regular sb F s₀ c.entry) (hroom : c.Room sb t.1) :
    ∃ u, (calls sb dev s₀).step t c = some u ∧
      Refines sb F s₀ u (c.array (fun i => (s₀.icache i).inum) x) := by
  cases c with
  | read i off n => exact readLocked_refines h hreg
  | write i src off n => exact writeLocked_refines h hreg hroom

/-- In every run of calls on regular files, with room for every write, each call
returns what it returns on byte arrays; at the end the inodes hold these arrays. -/
theorem files_are_arrays (dev : Devsw) {s₀ : State k} (cs : List (Call k)) (h : Sound sb F s₀)
    (hcalls : (calls sb dev s₀).Meets
      (fun t c => Regular sb F s₀ c.entry ∧ c.Room sb t.1) (s₀, []) cs) :
    ∃ t, (calls sb dev s₀).exec (s₀, []) cs = some t ∧
      t.2 = (cs.foldl (fun x c => c.array (fun i => (s₀.icache i).inum) x)
        (arrays sb s₀.disk, [])).2 ∧
      ∀ i, i < sb.ninodes → (dinode sb s₀.disk i).type ≠ 0 →
        arrays sb t.1.disk i = (cs.foldl (fun x c => c.array (fun i => (s₀.icache i).inum) x)
          (arrays sb s₀.disk, [])).1 i := by
  have hinit : Refines sb F s₀ (s₀, []) (arrays sb s₀.disk, []) :=
    ⟨h, fun _ => ⟨rfl, rfl⟩, fun _ _ => rfl, fun _ _ _ => rfl, rfl⟩
  obtain ⟨t, hexec, hrefines⟩ := (calls sb dev s₀).exec_simulation
    (fun t x c ht hc => call_refines ht hc.1 hc.2) hinit hcalls
  exact ⟨t, hexec, hrefines.results, hrefines.bytes⟩

theorem files_are_arrays_small : ∃ t,
    (calls smallSb noDev staleEntry).exec (staleEntry, [])
      [.write 0 (fun _ => 1) 0 3, .read 0 1 9, .read 0 4 1] = some t ∧
    t.2 = [(3, []), (2, [1, 1]), (-1, [])] ∧ arrays smallSb t.1.disk 1 = [1, 1, 1] := by
  have hfile : (dinode smallSb staleEntry.disk 1).type = T_FILE :=
    congrArg Dinode.type (dinode_staleEntry 1 (by decide))
  have hreg : Regular smallSb Every staleEntry 0 := ⟨Nat.one_pos, trivial, hfile⟩
  have hroom : (Call.write 0 (fun _ => 1) 0 3).Room smallSb staleEntry := fun _ => by decide
  obtain ⟨t, hexec, hresults, hbytes⟩ := files_are_arrays noDev
    [.write 0 (fun _ => 1) 0 3, .read 0 1 9, .read 0 4 1] staleEntry_sound
    ⟨⟨hreg, hroom⟩, fun _ _ => ⟨⟨hreg, trivial⟩, fun _ _ => ⟨⟨hreg, trivial⟩, fun _ _ => trivial⟩⟩⟩
  refine ⟨t, hexec, hresults.trans rfl, (hbytes 1 (by decide) ?_).trans rfl⟩
  rw [hfile]
  decide

end OsCourse.Fs
