import OsCourse.Umalloc.Alloc

/-!
# OsCourse.Umalloc.Runs

Programs that call `malloc`, `free` and `sbrk`, and store to their blocks. The results are
about runs whose requests stay below two gigabytes: `nu * sizeof(Header)` is an `int` to
`sbrk`, and a larger one would make the process smaller.
-/

namespace OsCourse.Umalloc

open OsCourse.Lib

/-- No request is so large that the argument of `sbrk` is negative. -/
def Small (_ : State) : Act → Prop
  | .malloc _ nbytes _ => nbytes.toNat + 15 < 2 ^ 31
  | _ => True

instance (s : State) : DecidablePred (Small s)
  | .malloc _ nbytes _ => inferInstanceAs (Decidable (nbytes.toNat + 15 < 2 ^ 31))
  | .free .. => isTrue trivial
  | .store .. => isTrue trivial

/-- What holds between two calls. -/
structure Inv (base : Nat) (s : State) (fl : List Block) : Prop where
  sound : Sound base (start base s.heap) (s.live.map Live.block) fl
  header : ∀ l ∈ s.live, (s.heap.mem l.block.addr).size = l.block.size
  room : ∀ l ∈ s.live, l.nbytes.toNat + 8 ≤ 8 * l.block.size
  started : s.heap.freep = 0 → s.live = []

variable {base top fuel : Nat} {mem : Nat → Header} {h : Heap} {s s' : State} {lv fl : List Block}
  {l l' : Live}

theorem start_of_ne (hfreep : h.freep ≠ 0) : start base h = h := if_neg hfreep

theorem nunits_mul_lt {nbytes : UInt32} (hnb : nbytes.toNat + 15 < 2 ^ 31) :
    (nunits nbytes).toNat * 8 < 2 ^ 31 := by
  rw [nunits_toNat hnb]
  omega

theorem Sound.freep_ne (hs : Sound base h lv fl) (hbase : 0 < base) : h.freep ≠ 0 := by
  have hmem : h.freep ∈ (⟨base, 0⟩ :: fl : List Block).map Block.addr := hs.list.freep
  obtain ⟨c, hc, heq⟩ := List.mem_map.mp hmem
  have hle := hs.list.base_le hc
  omega

/-- The heap of a program that has called nothing yet. -/
theorem Sound.start_init (h : Heap) (hfreep : h.freep = 0) (hregions : h.regions = [])
    (htop : base < h.top) : Sound base (start base h) [] [] := by
  rw [start, if_pos hfreep]
  refine ⟨⟨.cons ?_, nofun, ?_, List.pairwise_singleton _ _, nofun, List.mem_singleton_self _⟩,
    fun x => ?_, fun x => ?_, fun x hx => ?_, htop⟩
  · simp [link]
  · simp
  · rw [hregions]
    rfl
  · rw [hregions]
    exact Nat.zero_le 1
  · rw [hregions] at hx
    exact absurd hx (Nat.lt_irrefl 0)

namespace Inv

theorem heap_eq (h : Inv base s fl) (hl : l ∈ s.live) : start base s.heap = s.heap :=
  start_of_ne fun hfreep => by
    rw [h.started hfreep] at hl
    cases hl

theorem size_pos (h : Inv base s fl) (hl : l ∈ s.live) : 0 < l.block.size := by
  have hroom := h.room l hl
  omega

theorem start_mem (h : Inv base s fl) {x : Nat} (hx : 0 < cover (s.live.map Live.block) x) :
    (start base s.heap).mem x = s.heap.mem x := by
  obtain ⟨b, hb, -⟩ := cover_pos.mp hx
  obtain ⟨l, hl, -⟩ := List.mem_map.mp hb
  rw [h.heap_eq hl]

theorem cover_live (hl : l ∈ s.live) {x : Nat} (hx : l.block.addr ≤ x)
    (hlt : x < l.block.addr + l.block.size) : 0 < cover (s.live.map Live.block) x :=
  cover_of_mem (List.mem_map_of_mem hl) hx hlt

theorem perm_erase (hl : l ∈ s.live) :
    (s.live.map Live.block).Perm (l.block :: (s.live.erase l).map Live.block) :=
  (List.perm_cons_erase hl).map _

/-- The blocks of a program have no unit in common. -/
theorem disjoint (h : Inv base s fl) (hl : l ∈ s.live) (hl' : l' ∈ s.live.erase l) :
    l'.block.addr + l'.block.size ≤ l.block.addr ∨ l.block.addr + l.block.size ≤ l'.block.addr :=
  (h.sound.perm (perm_erase hl)).disjoint (h.size_pos hl)
    (List.mem_append_right _ (List.mem_map_of_mem hl')) (h.size_pos (List.mem_of_mem_erase hl'))

/-! ### One step -/

theorem malloc (h : Inv base s fl) (hbase : 0 < base) {nbytes : UInt32}
    {brks : List (Option Nat)} (hnb : nbytes.toNat + 15 < 2 ^ 31)
    (hs : step base s (.malloc fuel nbytes brks) = some s') :
    ∃ fl', Inv base s' fl' ∧ (∀ l ∈ s.live, l ∈ s'.live) ∧
      ∀ x, 0 < cover (s.live.map Live.block) x → s'.heap.mem x = s.heap.mem x := by
  obtain ⟨⟨h', r⟩, hrun, rfl⟩ := Option.map_eq_some_iff.mp hs
  obtain ⟨fl', hres, hframe⟩ := h.sound.mallocLoop (nunits_pos nbytes) (nunits_mul_lt hnb)
    h.sound.list.freep rfl hrun
  have hkeep : ∀ x, 0 < cover (s.live.map Live.block) x → h'.mem x = s.heap.mem x := fun x hx =>
    (hframe x hx).trans (h.start_mem hx)
  have hheader : ∀ l ∈ s.live, (h'.mem l.block.addr).size = l.block.size := fun l hl => by
    have hpos := h.size_pos hl
    rw [hkeep _ (cover_live hl (Nat.le_refl _) (by omega)), h.header l hl]
  refine ⟨fl', ?_, fun l hl => ?_, hkeep⟩
  · rcases hres with ⟨rfl, hsound⟩ | ⟨a, rfl, hsound, ha⟩
    · have hne := hsound.freep_ne hbase
      exact ⟨(start_of_ne hne).symm ▸ hsound, hheader, h.room, fun hzero => absurd hzero hne⟩
    · have hne := hsound.freep_ne hbase
      refine ⟨(start_of_ne hne).symm ▸ hsound, fun l hl => ?_, fun l hl => ?_,
        fun hzero => absurd hzero hne⟩
      · rcases List.mem_cons.mp hl with rfl | hl
        · exact ha
        · exact hheader l hl
      · rcases List.mem_cons.mp hl with rfl | hl
        · simp only [nunits_toNat hnb]
          omega
        · exact h.room l hl
  · simp only
    split_ifs
    · exact hl
    · exact List.mem_cons_of_mem _ hl

theorem free (h : Inv base s fl) (hbase : 0 < base)
    (hs : step base s (.free fuel l) = some s') :
    ∃ fl', Inv base s' fl' ∧ (∀ l' ∈ s.live, l' ≠ l → l' ∈ s'.live) ∧
      ∀ x, 0 < cover (s'.live.map Live.block) x → s'.heap.mem x = s.heap.mem x := by
  rw [step] at hs
  split_ifs at hs with hl
  obtain ⟨h', hrun, rfl⟩ := Option.map_eq_some_iff.mp hs
  have hsound := h.sound.perm (perm_erase hl)
  rw [h.heap_eq hl] at hsound
  obtain ⟨fl', hsound', -, -, hframe⟩ := hsound.free (h.size_pos hl) (h.header l hl) hrun
  have hne := hsound'.freep_ne hbase
  refine ⟨fl', ⟨(start_of_ne hne).symm ▸ hsound', fun l' hl' => ?_,
    fun l' hl' => h.room l' (List.mem_of_mem_erase hl'), fun hzero => absurd hzero hne⟩,
    fun l' hl' hne => (List.mem_erase_of_ne hne).mpr hl', hframe⟩
  have hold := List.mem_of_mem_erase hl'
  have hpos := h.size_pos hold
  have hcover : 0 < cover ((s.live.erase l).map Live.block) l'.block.addr :=
    cover_of_mem (List.mem_map_of_mem hl') (Nat.le_refl _) (by omega)
  rw [hframe _ hcover, h.header l' hold]

theorem store (h : Inv base s fl) {i : Nat} {x : Header}
    (hs : step base s (.store l i x) = some s') :
    Inv base s' fl ∧ s'.live = s.live ∧ l ∈ s.live ∧ i < l.block.size ∧
      ∀ y, y ≠ l.block.addr + i → s'.heap.mem y = s.heap.mem y := by
  rw [step] at hs
  split_ifs at hs with hl
  obtain ⟨hl, hpos, hlt⟩ := hl
  obtain rfl := Option.some.inj hs
  have hsound := h.sound
  have heq := h.heap_eq hl
  have hne : s.heap.freep ≠ 0 := fun hzero => by
    rw [h.started hzero] at hl
    cases hl
  rw [heq] at hsound
  have hcover := cover_live hl (x := l.block.addr + i) (by omega) (by omega)
  have htotal := hsound.total (l.block.addr + i)
  have honce := hsound.once (l.block.addr + i)
  refine ⟨⟨?_, fun l' hl' => ?_, h.room, fun hzero => absurd hzero hne⟩, rfl, hl, hlt,
    fun y hy => Function.update_of_ne hy _ _⟩
  · rw [start_of_ne (by exact hne)]
    refine hsound.congr fun y hy => Function.update_of_ne ?_ _ _
    rintro rfl
    rcases hy with heq | hy
    · have hbound := (hsound.bound _ (by omega : 0 < cover s.heap.regions (l.block.addr + i))).1
      omega
    · omega
  · have haddr : l'.block.addr ≠ l.block.addr + i := by
      by_cases hll : l' = l
      · subst hll
        omega
      · have hdisj := h.disjoint hl ((List.mem_erase_of_ne hll).mpr hl')
        have hpos' := h.size_pos hl'
        omega
    simp only
    rw [Function.update_of_ne haddr, h.header l' hl']

/-! ### Runs -/

/-- A program that has called nothing. -/
theorem init (htop : base < top) : Inv base (machine base top mem).init [] where
  sound := Sound.start_init _ rfl rfl htop
  header := nofun
  room := nofun
  started _ := rfl

theorem step (h : Inv base s fl) (hbase : 0 < base) {a : Act} (hsmall : Small s a)
    (hs : Umalloc.step base s a = some s') : ∃ fl', Inv base s' fl' := by
  cases a with
  | malloc fuel nbytes brks =>
      obtain ⟨fl', h', -⟩ := h.malloc hbase hsmall hs
      exact ⟨fl', h'⟩
  | free fuel l =>
      obtain ⟨fl', h', -⟩ := h.free hbase hs
      exact ⟨fl', h'⟩
  | store l i x => exact ⟨fl, (h.store hs).1⟩

theorem reach (hbase : 0 < base) (htop : base < top)
    (hs : (machine base top mem).ReachWhile Small s) : ∃ fl, Inv base s fl :=
  hs.induction (I := fun s => ∃ fl, Inv base s fl) ⟨[], init htop⟩
    fun _ _ _ ⟨_, h⟩ hsmall hstep => h.step hbase hsmall hstep

end Inv

/-- The action is `free` of the block, or a store to it. -/
def Touches (l : Live) : Act → Prop
  | .malloc .. => False
  | .free _ l' => l' = l
  | .store l' _ _ => l' = l

instance (l : Live) : DecidablePred (Touches l)
  | .malloc .. => isFalse id
  | .free _ l' => inferInstanceAs (Decidable (l' = l))
  | .store l' _ _ => inferInstanceAs (Decidable (l' = l))

/-- A step that does not touch a block. -/
theorem Inv.kept (h : Inv base s fl) (hbase : 0 < base) {a : Act} (hsmall : Small s a)
    (hs : Umalloc.step base s a = some s') (hl : l ∈ s.live) (htouch : ¬ Touches l a) :
    l ∈ s'.live ∧ ∀ i < l.block.size, s'.heap.mem (l.block.addr + i) =
      s.heap.mem (l.block.addr + i) := by
  cases a with
  | malloc fuel nbytes brks =>
      obtain ⟨-, -, hlive, hkeep⟩ := h.malloc hbase hsmall hs
      exact ⟨hlive l hl, fun i hi => hkeep _ (cover_live hl (by omega) (by omega))⟩
  | free fuel l' =>
      obtain ⟨-, -, hlive, hkeep⟩ := h.free hbase hs
      have hmem := hlive l hl (Ne.symm htouch)
      exact ⟨hmem, fun i hi => hkeep _ (cover_live hmem (by omega) (by omega))⟩
  | store l' j x =>
      obtain ⟨-, hlive, hl', hj, hkeep⟩ := h.store hs
      refine ⟨hlive ▸ hl, fun i hi => hkeep _ ?_⟩
      have hdisj := h.disjoint hl' ((List.mem_erase_of_ne (Ne.symm htouch)).mpr hl)
      omega

/-- In every run with requests below two gigabytes: every unit that `sbrk` has given is in
exactly one block, free or the program's; the program's blocks are as large as was asked
for, and no two of them have a unit in common; the free list is a ring in the order of the
addresses, with no two free blocks side by side. -/
theorem heap_sound (hbase : 0 < base) (htop : base < top)
    (hs : (machine base top mem).ReachWhile Small s) :
    ∃ fl, FreeList base (start base s.heap).mem (start base s.heap).freep fl ∧
      (∀ x, cover (fl ++ s.live.map Live.block) x = cover s.heap.regions x ∧
        cover s.heap.regions x ≤ 1) ∧
      (∀ l ∈ s.live, (s.heap.mem l.block.addr).size = l.block.size ∧
        l.nbytes.toNat ≤ 8 * (l.block.size - 1) ∧ base < l.block.addr ∧
        l.block.addr + l.block.size ≤ s.heap.top) ∧
      ∀ l ∈ s.live, ∀ l' ∈ s.live.erase l,
        l'.block.addr + l'.block.size ≤ l.block.addr ∨
          l.block.addr + l.block.size ≤ l'.block.addr := by
  obtain ⟨fl, h⟩ := Inv.reach hbase htop hs
  have hregions : (start base s.heap).regions = s.heap.regions := by
    rw [start]
    split_ifs <;> rfl
  refine ⟨fl, h.sound.list, fun x => ?_, fun l hl => ?_, fun l hl l' hl' => h.disjoint hl hl'⟩
  · rw [cover_append, h.sound.total x, ← hregions]
    exact ⟨rfl, h.sound.once x⟩
  · have hpos := h.size_pos hl
    have hroom := h.room l hl
    have hbound : ∀ x, l.block.addr ≤ x → x < l.block.addr + l.block.size →
        base < x ∧ x < s.heap.top := fun x hx hlt => by
      have hcover := Inv.cover_live hl hx hlt
      have htotal := h.sound.total x
      rw [← h.heap_eq hl]
      exact h.sound.bound x (by omega)
    have hfirst := hbound l.block.addr (Nat.le_refl _) (by omega)
    have hlast := hbound (l.block.addr + l.block.size - 1) (by omega) (by omega)
    exact ⟨h.header l hl, by omega, hfirst.1, by omega⟩

/-- Two blocks, the first given back. -/
theorem heap_sound_two :
    ∃ s, (machine 8 16 fun _ => ⟨0, 0⟩).execWhile Small (machine 8 16 fun _ => ⟨0, 0⟩).init
        [.malloc 5 100 [some 16], .malloc 5 8 [], .free 5 ⟨⟨4098, 14⟩, 100⟩] = some s ∧
      s.live = [⟨⟨4096, 2⟩, 8⟩] ∧
      ∃ fl, FreeList 8 (start 8 s.heap).mem (start 8 s.heap).freep fl ∧
        ∀ x, cover (fl ++ s.live.map Live.block) x = cover s.heap.regions x := by
  have hrun : ((machine 8 16 fun _ => ⟨0, 0⟩).execWhile Small (machine 8 16 fun _ => ⟨0, 0⟩).init
      [.malloc 5 100 [some 16], .malloc 5 8 [], .free 5 ⟨⟨4098, 14⟩, 100⟩]).map State.live =
      some [⟨⟨4096, 2⟩, 8⟩] := by decide +kernel
  obtain ⟨s, hs, hlive⟩ := Option.map_eq_some_iff.mp hrun
  obtain ⟨fl, hlist, hcover, -⟩ :=
    heap_sound (by decide) (by decide) ⟨_, Machine.meets_of_execWhile _ hs⟩
  exact ⟨s, hs, hlive, fl, hlist, fun x => (hcover x).1⟩

/-- What a program has stored in a block stays there, header and all, through any calls of
`malloc` with requests below two gigabytes, of `free` with other blocks, and stores to them. -/
theorem block_kept (hbase : 0 < base) (htop : base < top)
    (hs : (machine base top mem).ReachWhile Small s) (hl : l ∈ s.live) {as : List Act}
    (hsmall : (machine base top mem).Meets Small s as)
    (hrun : (machine base top mem).exec s as = some s') (htouch : ∀ a ∈ as, ¬ Touches l a) :
    l ∈ s'.live ∧ ∀ i < l.block.size, s'.heap.mem (l.block.addr + i) =
      s.heap.mem (l.block.addr + i) := by
  obtain ⟨fl, h⟩ := Inv.reach hbase htop hs
  clear hs
  induction as generalizing s fl with
  | nil =>
      obtain rfl := Option.some.inj hrun
      exact ⟨hl, fun i _ => rfl⟩
  | cons a as ih =>
      obtain ⟨t, ht, hrun⟩ := (Machine.exec_cons_eq_some _).mp hrun
      obtain ⟨hlt, hkept⟩ := h.kept hbase hsmall.1 ht hl (htouch a List.mem_cons_self)
      obtain ⟨fl', h'⟩ := h.step hbase hsmall.1 ht
      obtain ⟨hls, hkept'⟩ := ih hlt (hsmall.2 t ht) hrun
        (fun a ha => htouch a (List.mem_cons_of_mem _ ha)) fl' h'
      exact ⟨hls, fun i hi => (hkept' i hi).trans (hkept i hi)⟩

/-- A block, while another one is taken, written to and given back. -/
theorem block_kept_other :
    ∃ s s', (machine 8 16 fun _ => ⟨0, 0⟩).execWhile Small (machine 8 16 fun _ => ⟨0, 0⟩).init
        [.malloc 5 100 [some 16]] = some s ∧
      (machine 8 16 fun _ => ⟨0, 0⟩).execWhile Small s
        [.malloc 5 8 [], .store ⟨⟨4096, 2⟩, 8⟩ 1 ⟨3, 7⟩, .free 5 ⟨⟨4096, 2⟩, 8⟩] = some s' ∧
      ⟨⟨4098, 14⟩, 100⟩ ∈ s'.live ∧
      ∀ i < 14, s'.heap.mem (4098 + i) = s.heap.mem (4098 + i) := by
  have hrun : ((machine 8 16 fun _ => ⟨0, 0⟩).execWhile Small (machine 8 16 fun _ => ⟨0, 0⟩).init
      [.malloc 5 100 [some 16]]).map (fun s => (s.live,
        ((machine 8 16 fun _ => ⟨0, 0⟩).execWhile Small s
          [.malloc 5 8 [], .store ⟨⟨4096, 2⟩, 8⟩ 1 ⟨3, 7⟩, .free 5 ⟨⟨4096, 2⟩, 8⟩]).isSome)) =
      some ([⟨⟨4098, 14⟩, 100⟩], true) := by decide +kernel
  obtain ⟨s, hs, heq⟩ := Option.map_eq_some_iff.mp hrun
  obtain ⟨hlive, hsome⟩ := Prod.mk.inj heq
  obtain ⟨s', hs'⟩ := Option.isSome_iff_exists.mp hsome
  obtain ⟨hsmall, hexec⟩ := Machine.meets_of_execWhile _ hs'
  exact ⟨s, s', hs, hs', block_kept (l := ⟨⟨4098, 14⟩, 100⟩) (by decide) (by decide)
    ⟨_, Machine.meets_of_execWhile _ hs⟩ (by rw [hlive]; exact List.mem_singleton_self _) hsmall
    hexec (by decide)⟩

/-- In every state reached with requests below two gigabytes `malloc` of such a request
returns, and needs `sbrk` once at most; it returns 0 exactly if no free block is large enough
and `sbrk` fails. `free` of a block returns. -/
theorem calls_return (hbase : 0 < base) (htop : base < top)
    (hs : (machine base top mem).ReachWhile Small s) :
    ∃ fl N, FreeList base (start base s.heap).mem (start base s.heap).freep fl ∧
      (∀ fuel ≥ N, ∀ nbytes : UInt32, nbytes.toNat + 15 < 2 ^ 31 → ∀ brk : Option Nat,
        (∀ a, brk = some a → s.heap.top ≤ a) →
        ∃ h' r, malloc base fuel s.heap nbytes [brk] = some (h', r) ∧
          (r = 0 ↔ brk = none ∧ ∀ b ∈ fl, b.size < (nunits nbytes).toNat)) ∧
      ∀ fuel ≥ N, ∀ l ∈ s.live, (free fuel s.heap (l.block.addr + 1)).isSome := by
  obtain ⟨fl, h⟩ := Inv.reach hbase htop hs
  have htop' : (start base s.heap).top = s.heap.top := by
    rw [start]
    split_ifs <;> rfl
  refine ⟨fl, 2 * fl.length + 3, h.sound.list, fun fuel hfuel nbytes hnb brk hbrk => ?_,
    fun fuel hfuel l hl => ?_⟩
  · exact h.sound.loop_returns (nunits_pos nbytes) (nunits_mul_lt hnb)
      (fun a ha => htop' ▸ hbrk a ha) hfuel
  · have hsound := h.sound.perm (Inv.perm_erase hl)
    rw [h.heap_eq hl] at hsound
    exact Option.isSome_iff_exists.mpr (hsound.free_some (h.size_pos hl) (by omega))

/-- One block in use, and a request that does not fit. -/
theorem calls_return_full :
    ∃ s, (machine 8 16 fun _ => ⟨0, 0⟩).execWhile Small (machine 8 16 fun _ => ⟨0, 0⟩).init
        [.malloc 5 100 [some 16]] = some s ∧ s.live = [⟨⟨4098, 14⟩, 100⟩] ∧
      ∃ fl N, FreeList 8 (start 8 s.heap).mem (start 8 s.heap).freep fl ∧
        ∃ h' r, malloc 8 N s.heap 40000 [none] = some (h', r) ∧
          (r = 0 ↔ ∀ b ∈ fl, b.size < 5001) := by
  have hrun : ((machine 8 16 fun _ => ⟨0, 0⟩).execWhile Small (machine 8 16 fun _ => ⟨0, 0⟩).init
      [.malloc 5 100 [some 16]]).map State.live = some [⟨⟨4098, 14⟩, 100⟩] := by decide +kernel
  obtain ⟨s, hs, hlive⟩ := Option.map_eq_some_iff.mp hrun
  obtain ⟨fl, N, hlist, hmalloc, -⟩ :=
    calls_return (by decide) (by decide) ⟨_, Machine.meets_of_execWhile _ hs⟩
  obtain ⟨h', r, hr, hiff⟩ := hmalloc N (Nat.le_refl _) 40000 (by decide) none nofun
  refine ⟨s, hs, hlive, fl, N, hlist, h', r, hr, ?_⟩
  rw [hiff]
  exact and_iff_right rfl

end OsCourse.Umalloc
