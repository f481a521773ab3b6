import Mathlib.Algebra.Group.Nat.Defs
import OsCourse.Umalloc.FreeList

/-!
# OsCourse.Umalloc.Alloc

`Sound h lv fl`: every unit that `sbrk` has given is in one of the free blocks `fl` or in
one of the blocks `lv`, and in one only. What `free`, `morecore` and the loop of `malloc` do
to it, what they leave as it was, and when they return.
-/

namespace OsCourse.Umalloc

open OsCourse.Lib

/-- The heap, with the blocks that are in use. -/
structure Sound (base : Nat) (h : Heap) (lv fl : List Block) : Prop where
  list : FreeList base h.mem h.freep fl
  total : ∀ x, cover fl x + cover lv x = cover h.regions x
  once : ∀ x, cover h.regions x ≤ 1
  bound : ∀ x, 0 < cover h.regions x → base < x ∧ x < h.top
  base_lt : base < h.top

variable {base fuel p r : Nat} {h h' : Heap} {lv fl : List Block} {b c : Block} {n nu : UInt32}

theorem cover_self (hpos : 0 < b.size) : cover [b] b.addr = 1 := by
  rw [cover_singleton, if_pos ⟨Nat.le_refl _, by omega⟩]

theorem cover_of_mem {bs : List Block} {x : Nat} (hb : b ∈ bs) (hx : b.addr ≤ x)
    (hlt : x < b.addr + b.size) : 0 < cover bs x :=
  cover_pos.mpr ⟨b, hb, hx, hlt⟩

/-! ### What is asked of `sbrk` -/

theorem units_toNat (hnu : nu.toNat * 8 < 2 ^ 31) :
    nu.toNat ≤ (units nu).toNat ∧ (units nu).toNat * 8 < 2 ^ 31 ∧ 0 < (units nu).toNat := by
  rw [units]
  split_ifs with hlt
  · exact ⟨Nat.le_of_lt (UInt32.lt_iff_toNat_lt.mp hlt), by decide, by decide⟩
  · have hle : (4096 : UInt32).toNat ≤ nu.toNat := UInt32.le_iff_toNat_le.mp (UInt32.not_lt.mp hlt)
    exact ⟨Nat.le_refl _, hnu, Nat.lt_of_lt_of_le (by decide) hle⟩

/-- The argument of `sbrk` is what `morecore` means, if it is no negative `int`. -/
theorem units_bytes (hnu : nu.toNat * 8 < 2 ^ 31) :
    (units nu * 8).toInt32.toInt.toNat / 8 = (units nu).toNat := by
  obtain ⟨-, hlt, -⟩ := units_toNat hnu
  have hmul : (units nu * 8).toNat = (units nu).toNat * 8 := by
    rw [UInt32.toNat_mul, show (8 : UInt32).toNat = 8 from rfl]
    exact Nat.mod_eq_of_lt (by omega)
  have hint : (units nu * 8).toInt32.toInt = ((units nu * 8).toNat : Int) :=
    BitVec.toInt_eq_toNat_of_lt (by
      change 2 * (units nu * 8).toNat < _
      omega)
  rw [hint, hmul, Int.toNat_natCast, Nat.mul_div_cancel _ (by decide)]

theorem nunits_toNat {nbytes : UInt32} (hnb : nbytes.toNat + 15 < 2 ^ 31) :
    (nunits nbytes).toNat = (nbytes.toNat + 7) / 8 + 1 := by
  have hadd : (nbytes + 8).toNat = nbytes.toNat + 8 := by
    rw [UInt32.toNat_add, show (8 : UInt32).toNat = 8 from rfl]
    exact Nat.mod_eq_of_lt (by omega)
  have hsub : (nbytes + 8 - 1).toNat = nbytes.toNat + 7 := by
    rw [UInt32.toNat_sub_of_le _ _ (UInt32.le_iff_toNat_le.mpr (by
      rw [hadd, show (1 : UInt32).toNat = 1 from rfl]
      omega)), hadd]
    rfl
  rw [nunits, UInt32.toNat_add, UInt32.toNat_div, hsub, show (8 : UInt32).toNat = 8 from rfl,
    show (1 : UInt32).toNat = 1 from rfl]
  exact Nat.mod_eq_of_lt (by omega)

theorem nunits_pos (nbytes : UInt32) : 0 < (nunits nbytes).toNat := by
  rw [nunits, UInt32.toNat_add, UInt32.toNat_div, show (8 : UInt32).toNat = 8 from rfl,
    show (1 : UInt32).toNat = 1 from rfl]
  have hlt := (nbytes + 8 - 1).toNat_lt
  omega

/-! ### `free` -/

namespace Sound

/-- No block stands in another. -/
theorem disjoint (hs : Sound base h (b :: lv) fl) (hpos : 0 < b.size) (hc : c ∈ fl ++ lv)
    (hcpos : 0 < c.size) : c.addr + c.size ≤ b.addr ∨ b.addr + b.size ≤ c.addr := by
  by_contra hcon
  -- they would have the first unit of one of them in common
  obtain ⟨x, hxb, hxb', hxc, hxc'⟩ : ∃ x, b.addr ≤ x ∧ x < b.addr + b.size ∧ c.addr ≤ x ∧
      x < c.addr + c.size := by
    rcases Nat.le_total b.addr c.addr with hle | hle
    · exact ⟨c.addr, by omega⟩
    · exact ⟨b.addr, by omega⟩
  have hcover := hs.total x
  have honce := hs.once x
  rw [cover_cons] at hcover
  have hcb : 0 < cover [b] x := cover_of_mem (List.mem_singleton_self b) hxb hxb'
  have hcc : 0 < cover (fl ++ lv) x := cover_of_mem hc hxc hxc'
  rw [cover_append] at hcc
  omega

theorem base_lt_addr (hs : Sound base h (b :: lv) fl) (hpos : 0 < b.size) : base < b.addr := by
  have hcover := hs.total b.addr
  rw [cover_cons, cover_self hpos] at hcover
  exact (hs.bound b.addr (by omega)).1

theorem perm {lv' : List Block} (hs : Sound base h lv fl) (hperm : lv.Perm lv') :
    Sound base h lv' fl where
  list := hs.list
  total x := by
    rw [← hs.total x, cover, cover, cover, hperm.countP_eq]
  once := hs.once
  bound := hs.bound
  base_lt := hs.base_lt

/-- A store to units that are in use. -/
theorem congr {mem' : Nat → Header} (hs : Sound base h lv fl)
    (hmem : ∀ x, x = base ∨ 0 < cover fl x → mem' x = h.mem x) :
    Sound base { h with mem := mem' } lv fl where
  list := hs.list.congr fun x hx => hmem x (by
    rcases List.mem_cons.mp hx with rfl | hx
    · exact .inl rfl
    · obtain ⟨c, hc, rfl⟩ := List.mem_map.mp hx
      have hpos := hs.list.pos c hc
      exact .inr (cover_of_mem hc (Nat.le_refl _) (by omega)))
  total := hs.total
  once := hs.once
  bound := hs.bound
  base_lt := hs.base_lt

/-- `free` of a block that is in use; what the others hold stays. -/
theorem free (hs : Sound base h (b :: lv) fl) (hpos : 0 < b.size)
    (hb : (h.mem b.addr).size = b.size) (hfree : free fuel h (b.addr + 1) = some h') :
    ∃ fl', Sound base h' lv fl' ∧ fl'.length ≤ fl.length + 1 ∧
      (∀ x, cover fl' x = cover [b] x + cover fl x) ∧
      ∀ x, 0 < cover lv x → h'.mem x = h.mem x := by
  have hdisj : ∀ c ∈ fl, c.addr + c.size ≤ b.addr ∨ b.addr + b.size ≤ c.addr := fun c hc =>
    hs.disjoint hpos (List.mem_append_left _ hc) (hs.list.pos c hc)
  obtain ⟨fl', hlist, hlen, hcover, hregions, htop, hframe⟩ :=
    hs.list.free_spec hb hpos (hs.base_lt_addr hpos) hdisj hfree
  refine ⟨fl', ⟨hlist, fun x => ?_, ?_, ?_, ?_⟩, hlen, hcover, fun x hx => hframe x ?_ ?_⟩
  · rw [hregions, ← hs.total x, hcover x, cover_cons b lv]
    omega
  · rw [hregions]
    exact hs.once
  · rw [hregions, htop]
    exact hs.bound
  · rw [htop]
    exact hs.base_lt
  · rintro rfl
    have honce := hs.once b.addr
    have hcov := hs.total b.addr
    rw [cover_cons, cover_self hpos] at hcov
    omega
  · have honce := hs.once x
    have hcov := hs.total x
    rw [cover_cons] at hcov
    refine hs.list.not_mem_of_cover (by omega) ?_
    rintro rfl
    have hlt := (hs.bound x (by omega)).1
    omega

/-- Its loop ends. -/
theorem free_some (hs : Sound base h (b :: lv) fl) (hpos : 0 < b.size)
    (hfuel : fl.length < fuel) : ∃ h', Umalloc.free fuel h (b.addr + 1) = some h' :=
  Option.isSome_iff_exists.mp (hs.list.free_some (hs.base_lt_addr hpos)
    (fun c hc => hs.disjoint hpos (List.mem_append_left _ hc) (hs.list.pos c hc)) hpos hfuel)

end Sound

/-! ### `morecore` -/

/-- What `morecore` gives to `free`: new units, with the header of one block. -/
def grow (h : Heap) (k p : Nat) : Heap :=
  { h with
    mem := Function.update h.mem p { h.mem p with size := k }
    regions := ⟨p, k⟩ :: h.regions
    top := p + k }

theorem morecore_eq (hnu : nu.toNat * 8 < 2 ^ 31) :
    morecore fuel h nu p =
      if h.top ≤ p then free fuel (grow h (units nu).toNat p) (p + 1) else none := by
  rw [morecore, sbrk, units_bytes hnu]
  split_ifs <;> rfl

namespace Sound

theorem grow {k : Nat} (hs : Sound base h lv fl) (hp : h.top ≤ p) (hk : 0 < k) :
    Sound base (grow h k p) (⟨p, k⟩ :: lv) fl := by
  have hold : ∀ x, 0 < cover h.regions x → cover [⟨p, k⟩] x = 0 := fun x hx => by
    have hlt := (hs.bound x hx).2
    rw [cover_singleton, if_neg]
    simp only
    omega
  have hone : ∀ x, cover [⟨p, k⟩] x ≤ 1 := fun x => by
    rw [cover_singleton]
    split_ifs <;> omega
  have hbase := hs.base_lt
  refine ⟨hs.list.congr fun x hx => Function.update_of_ne ?_ _ _, fun x => ?_, fun x => ?_,
    fun x hx => ?_, ?_⟩
  · rcases List.mem_cons.mp hx with rfl | hx
    · omega
    · obtain ⟨c, hc, rfl⟩ := List.mem_map.mp hx
      have hpos := hs.list.pos c hc
      have hcover := hs.total c.addr
      have hc' := cover_of_mem hc (Nat.le_refl _) (by omega)
      have hlt := (hs.bound c.addr (by omega)).2
      omega
  · change _ = cover (⟨p, k⟩ :: h.regions) x
    rw [cover_cons, cover_cons _ h.regions, ← hs.total x]
    omega
  · change cover (⟨p, k⟩ :: h.regions) x ≤ 1
    rw [cover_cons]
    rcases Nat.eq_zero_or_pos (cover h.regions x) with hx | hx
    · have hx' := hone x
      omega
    · have hx' := hs.once x
      have hx0 := hold x hx
      omega
  · change 0 < cover (⟨p, k⟩ :: h.regions) x at hx
    change base < x ∧ x < p + k
    obtain ⟨c, hc, hle, hlt⟩ := cover_pos.mp hx
    rcases List.mem_cons.mp hc with rfl | hc
    · simp only at hle hlt
      omega
    · have hbound := hs.bound x (cover_of_mem hc hle hlt)
      omega
  · change base < p + k
    omega

/-- `morecore` gives a free block that is large enough. -/
theorem morecore (hs : Sound base h lv fl) (hnu : nu.toNat * 8 < 2 ^ 31)
    (hrun : morecore fuel h nu p = some h') :
    ∃ fl', Sound base h' lv fl' ∧ fl'.length ≤ fl.length + 1 ∧ (∃ c ∈ fl', nu.toNat ≤ c.size) ∧
      ∀ x, 0 < cover lv x → h'.mem x = h.mem x := by
  obtain ⟨hle, -, hpos⟩ := units_toNat hnu
  rw [morecore_eq hnu] at hrun
  split_ifs at hrun with hp
  obtain ⟨fl', hs', hlen, hcover, hframe⟩ :=
    (hs.grow hp hpos).free hpos (by simp [Umalloc.grow]) hrun
  obtain ⟨c, hc, hsize⟩ := hs'.list.exists_block hpos fun x hx hlt => by
    rw [hcover, cover_singleton, if_pos ⟨hx, hlt⟩]
    omega
  refine ⟨fl', hs', hlen, ⟨c, hc, Nat.le_trans hle hsize⟩, fun x hx => ?_⟩
  rw [hframe x hx]
  have hbound := (hs.bound x (by rw [← hs.total x]; omega)).2
  exact Function.update_of_ne (by omega) _ _

theorem morecore_some (hs : Sound base h lv fl) (hnu : nu.toNat * 8 < 2 ^ 31) (hp : h.top ≤ p)
    (hfuel : fl.length < fuel) : ∃ h', Umalloc.morecore fuel h nu p = some h' := by
  obtain ⟨-, -, hpos⟩ := units_toNat hnu
  rw [morecore_eq hnu, if_pos hp]
  exact (hs.grow hp hpos).free_some hpos hfuel

end Sound

/-! ### The loop of `malloc` -/

theorem mallocLoop_succ {prevp : Nat} {brks : List (Option Nat)} :
    mallocLoop n (fuel + 1) h prevp p brks =
      if n.toNat ≤ (h.mem p).size then some (carve h n prevp p)
      else if p = h.freep then
        match brks with
        | [] => none
        | none :: _ => some (h, 0)
        | some a :: brks =>
            match morecore fuel h n a with
            | none => none
            | some h => mallocLoop n fuel h h.freep (link h.mem h.freep) brks
      else mallocLoop n fuel h p (link h.mem p) brks := by
  match brks with
  | [] => rfl
  | none :: _ => rfl
  | some _ :: _ => rfl

namespace Sound

/-- The loop gives a block of its own, or none. -/
theorem mallocLoop {prevp : Nat} {brks : List (Option Nat)} (hs : Sound base h lv fl)
    (hn : 0 < n.toNat) (hsmall : n.toNat * 8 < 2 ^ 31)
    (hprev : prevp ∈ base :: fl.map Block.addr) (hp : p = link h.mem prevp)
    (hrun : mallocLoop n fuel h prevp p brks = some (h', r)) :
    ∃ fl', (r = 0 ∧ Sound base h' lv fl' ∨
        ∃ a, r = a + 1 ∧ Sound base h' (⟨a, n.toNat⟩ :: lv) fl' ∧ (h'.mem a).size = n.toNat) ∧
      ∀ x, 0 < cover lv x → h'.mem x = h.mem x := by
  induction fuel generalizing h fl prevp p brks with
  | zero => cases hrun
  | succ fuel ih =>
      rw [mallocLoop_succ] at hrun
      split_ifs at hrun with hfit hlast
      · -- the block is there
        have hne : link h.mem prevp ≠ base := by
          rintro heq
          rw [hp, heq, hs.list.base_size] at hfit
          omega
        obtain ⟨pre, q, c, rest, hcut, rfl, hc⟩ := hs.list.cut_next hprev hne
        rw [← hc] at hp
        subst hp
        have hsize := hs.list.sizes c (by rw [hcut]; simp)
        obtain ⟨a, fl', hr, hlist, ha, -, hcover, hregions, htop, hframe⟩ :=
          hs.list.carve_spec hn hcut (hsize ▸ hfit)
        obtain rfl : (carve h n q.addr c.addr).1 = h' := by rw [Option.some.inj hrun]
        obtain rfl : (carve h n q.addr c.addr).2 = r := by rw [Option.some.inj hrun]
        refine ⟨fl', .inr ⟨a, hr, ⟨hlist, fun x => ?_, ?_, ?_, ?_⟩, ha⟩, fun x hx => hframe x ?_ ?_⟩
        · rw [hregions, ← hs.total x, cover_cons, ← hcover x, Nat.add_assoc]
        · rw [hregions]
          exact hs.once
        · rw [hregions, htop]
          exact hs.bound
        · rw [htop]
          exact hs.base_lt
        · have honce := hs.once x
          have htot := hs.total x
          omega
        · rintro rfl
          have htot := hs.total x
          have hlt := (hs.bound x (by omega)).1
          omega
      · -- the whole ring has been looked at
        match brks, hrun with
        | none :: _, hrun =>
            obtain ⟨rfl, rfl⟩ := Prod.mk.inj (Option.some.inj hrun)
            exact ⟨fl, .inl ⟨rfl, hs⟩, fun x _ => rfl⟩
        | some a :: brks, hrun =>
            simp only at hrun
            split at hrun
            · cases hrun
            · rename_i h₁ hmore
              obtain ⟨fl₁, hs₁, -, -, hframe₁⟩ := hs.morecore hsmall hmore
              obtain ⟨fl', hres, hframe⟩ := ih hs₁ hs₁.list.freep rfl hrun
              exact ⟨fl', hres, fun x hx => (hframe x hx).trans (hframe₁ x hx)⟩
      · exact ih hs (hp ▸ hs.list.link_mem hprev) rfl hrun

end Sound

/-! ### It returns -/

theorem carve_snd (h : Heap) (n : UInt32) (prevp p : Nat) : ∃ a, (carve h n prevp p).2 = a + 1 := by
  rw [carve]
  split_ifs
  · exact ⟨p, rfl⟩
  · exact ⟨_, rfl⟩

/-- The loop passes what is too small. -/
theorem mallocLoop_scan (fuel prevp : Nat) (brks : List (Option Nat)) {m z : List Nat}
    {y e : Nat} (hpath : Slist (link h.mem) p (m ++ y :: z) e)
    (hm : ∀ x ∈ m, (h.mem x).size < n.toNat ∧ x ≠ h.freep) :
    ∃ prevp', mallocLoop n (m.length + fuel) h prevp p brks =
      mallocLoop n fuel h prevp' y brks := by
  induction m generalizing p prevp with
  | nil =>
      obtain rfl := hpath.eq_head
      exact ⟨prevp, by rw [List.length_nil, Nat.zero_add]⟩
  | cons x m ih =>
      obtain ⟨rfl, hpath⟩ := slist_cons.mp hpath
      obtain ⟨hsize, hfreep⟩ := hm p List.mem_cons_self
      obtain ⟨prevp', hrun⟩ := ih p hpath fun x hx => hm x (List.mem_cons_of_mem _ hx)
      refine ⟨prevp', ?_⟩
      rw [← hrun, List.length_cons, Nat.add_right_comm, mallocLoop_succ,
        if_neg (Nat.not_le_of_lt hsize), if_neg hfreep]

namespace Sound

/-- The ring, from behind `freep`. -/
theorem ring (hs : Sound base h lv fl) :
    ∃ m, Slist (link h.mem) (link h.mem h.freep) (m ++ [h.freep]) (link h.mem h.freep) ∧
      (m ++ [h.freep]).Perm (base :: fl.map Block.addr) ∧ m.length = fl.length ∧ h.freep ∉ m := by
  obtain ⟨l, m, hlm⟩ := List.append_of_mem hs.list.freep
  have hpath := hs.list.path
  rw [hlm] at hpath
  have hrot := hpath.rotate
  have hperm : (m ++ l ++ [h.freep]).Perm (base :: fl.map Block.addr) := by
    rw [hlm]
    exact (List.perm_append_singleton _ _).trans
      ((List.perm_append_comm.cons _).trans List.perm_middle.symm)
  have hlen := hperm.length_eq
  have hnodup := hperm.nodup_iff.mpr hs.list.nodup
  refine ⟨m ++ l, slist_append.mpr ⟨h.freep, (slist_cons.mp hrot).2, .cons (.nil _)⟩, hperm, ?_,
    fun hmem => ?_⟩
  · simp only [List.length_append, List.length_cons, List.length_map, List.length_nil] at hlen ⊢
    omega
  · exact List.disjoint_of_nodup_append hnodup hmem (List.mem_singleton_self _)

/-- If a free block is large enough, the loop finds one, and `sbrk` is not called. -/
theorem loop_fits (hs : Sound base h lv fl) (fuel : Nat) (brks : List (Option Nat)) (hc : c ∈ fl)
    (hfit : n.toNat ≤ c.size) (hfuel : fl.length < fuel) :
    ∃ h' a, Umalloc.mallocLoop n fuel h h.freep (link h.mem h.freep) brks = some (h', a + 1) := by
  obtain ⟨m, hpath, hperm, hlen, hfreep⟩ := hs.ring
  have hcmem : c.addr ∈ m ++ [h.freep] :=
    hperm.mem_iff.mpr (List.mem_cons_of_mem _ (List.mem_map_of_mem hc))
  obtain ⟨y, hfind⟩ : ∃ y, (m ++ [h.freep]).find? (fun x => n.toNat ≤ (h.mem x).size) = some y := by
    rw [← Option.isSome_iff_exists, List.find?_isSome]
    exact ⟨c.addr, hcmem, decide_eq_true (by rw [hs.list.size c hc]; exact hfit)⟩
  obtain ⟨hy, as, bs, hsplit, has⟩ := List.find?_eq_some_iff_append.mp hfind
  have hlen_as := congrArg List.length hsplit
  simp only [List.length_append, List.length_cons, List.length_nil] at hlen_as
  have hnot : h.freep ∉ as := by
    intro hmem
    rcases List.eq_nil_or_concat bs with rfl | ⟨bs, w, rfl⟩
    · obtain ⟨rfl, -⟩ := List.append_inj' hsplit rfl
      exact hfreep hmem
    · rw [List.concat_eq_append, ← List.cons_append, ← List.append_assoc] at hsplit
      obtain ⟨rfl, -⟩ := List.append_inj' hsplit rfl
      exact hfreep (List.mem_append_left _ hmem)
  rw [hsplit] at hpath
  obtain ⟨k, rfl⟩ : ∃ k, fuel = as.length + (k + 1) :=
    ⟨fuel - as.length - 1, by omega⟩
  obtain ⟨prevp', hrun⟩ := mallocLoop_scan (k + 1) h.freep brks hpath fun x hx =>
    ⟨by simpa using has x hx, fun heq => hnot (heq ▸ hx)⟩
  obtain ⟨a, ha⟩ := carve_snd h n prevp' y
  rw [hrun, mallocLoop_succ, if_pos (of_decide_eq_true hy)]
  exact ⟨(carve h n prevp' y).1, a, by rw [← ha]⟩

/-- Without one, the loop comes to `freep`, and asks `sbrk`. -/
theorem loop_full (hs : Sound base h lv fl) (fuel : Nat) (brks : List (Option Nat))
    (hall : ∀ c ∈ fl, c.size < n.toNat) (hn : 0 < n.toNat) :
    Umalloc.mallocLoop n (fl.length + (fuel + 1)) h h.freep (link h.mem h.freep) brks =
      match brks with
      | [] => none
      | none :: _ => some (h, 0)
      | some a :: brks =>
          match Umalloc.morecore fuel h n a with
          | none => none
          | some h => Umalloc.mallocLoop n fuel h h.freep (link h.mem h.freep) brks := by
  obtain ⟨m, hpath, hperm, hlen, hfreep⟩ := hs.ring
  have hsmall : ∀ x ∈ m ++ [h.freep], (h.mem x).size < n.toNat := by
    intro x hx
    rcases List.mem_cons.mp (hperm.mem_iff.mp hx) with rfl | hx
    · rw [hs.list.base_size]
      exact hn
    · obtain ⟨c, hc, rfl⟩ := List.mem_map.mp hx
      rw [hs.list.size c hc]
      exact hall c hc
  obtain ⟨prevp, hrun⟩ := mallocLoop_scan (fuel + 1) h.freep brks hpath fun x hx =>
    ⟨hsmall x (List.mem_append_left _ hx), fun heq => hfreep (heq ▸ hx)⟩
  rw [← hlen, hrun, mallocLoop_succ, if_neg (Nat.not_le_of_lt (hsmall _ (by simp))), if_pos rfl]

/-- The loop returns; with 0 only if no free block is large enough and `sbrk` fails. -/
theorem loop_returns {brk : Option Nat} (hs : Sound base h lv fl) (hn : 0 < n.toNat)
    (hsmall : n.toNat * 8 < 2 ^ 31) (hbrk : ∀ a, brk = some a → h.top ≤ a)
    (hfuel : 2 * fl.length + 3 ≤ fuel) :
    ∃ h' r, Umalloc.mallocLoop n fuel h h.freep (link h.mem h.freep) [brk] = some (h', r) ∧
      (r = 0 ↔ brk = none ∧ ∀ c ∈ fl, c.size < n.toNat) := by
  by_cases hall : ∀ c ∈ fl, c.size < n.toNat
  · obtain ⟨k, rfl⟩ : ∃ k, fuel = fl.length + (k + 1) := ⟨fuel - fl.length - 1, by omega⟩
    rw [hs.loop_full k [brk] hall hn]
    cases brk with
    | none => exact ⟨h, 0, rfl, iff_of_true rfl ⟨rfl, hall⟩⟩
    | some a =>
        obtain ⟨h₁, hmore⟩ : ∃ h₁, Umalloc.morecore k h n a = some h₁ :=
          hs.morecore_some hsmall (hbrk a rfl) (by omega)
        obtain ⟨fl₁, hs₁, hlen₁, ⟨c, hc, hfit⟩, -⟩ := hs.morecore hsmall hmore
        obtain ⟨h₂, a₂, hloop⟩ := hs₁.loop_fits k [] hc hfit (by omega)
        simp only [hmore, hloop]
        exact ⟨h₂, a₂ + 1, rfl, by simp⟩
  · obtain ⟨c, hc, hfit⟩ : ∃ c ∈ fl, n.toNat ≤ c.size := by
      simpa only [not_forall, Nat.not_lt, exists_prop] using hall
    obtain ⟨h', a, hloop⟩ := hs.loop_fits fuel [brk] hc hfit (by omega)
    refine ⟨h', a + 1, hloop, iff_of_false (Nat.succ_ne_zero a) fun hzero => ?_⟩
    exact Nat.not_lt_of_le hfit (hzero.2 c hc)

end Sound

end OsCourse.Umalloc
