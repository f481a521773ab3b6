import OsCourse.Umalloc.Model

/-!
# OsCourse.Umalloc.FreeList

The free list: a ring through `base` and the free blocks, in the order of their addresses,
with no two of them side by side. `freep` is any of its nodes, and the loops start there.

`free_spec` and `carve_spec` say what `free` and `malloc` make of the list; `cover` counts
the blocks that have a unit, which no step changes but for the block that it is about.
-/

namespace OsCourse.Umalloc

open OsCourse.Lib

/-- How many of the blocks have the unit. -/
def cover (bs : List Block) (x : Nat) : Nat :=
  bs.countP fun b => b.addr ≤ x ∧ x < b.addr + b.size

/-- The free blocks, in the order of their addresses. -/
structure FreeList (base : Nat) (mem : Nat → Header) (freep : Nat) (fl : List Block) : Prop where
  path : Slist (link mem) base (base :: fl.map Block.addr) base
  size : ∀ b ∈ fl, (mem b.addr).size = b.size
  base_size : (mem base).size = 0
  /-- There is a gap between any two. -/
  sorted : List.Pairwise (fun b c : Block => b.addr + b.size < c.addr) (⟨base, 0⟩ :: fl)
  pos : ∀ b ∈ fl, 0 < b.size
  freep : freep ∈ base :: fl.map Block.addr

variable {base freep : Nat} {mem : Nat → Header} {fl : List Block} {b c : Block}

theorem cover_append (bs cs : List Block) (x : Nat) :
    cover (bs ++ cs) x = cover bs x + cover cs x := List.countP_append

theorem cover_cons (b : Block) (bs : List Block) (x : Nat) :
    cover (b :: bs) x = cover [b] x + cover bs x := cover_append [b] bs x

theorem cover_pos {bs : List Block} {x : Nat} :
    0 < cover bs x ↔ ∃ b ∈ bs, b.addr ≤ x ∧ x < b.addr + b.size := by
  rw [cover, List.countP_pos_iff]
  simp only [decide_eq_true_eq]

theorem cover_singleton (b : Block) (x : Nat) :
    cover [b] x = if b.addr ≤ x ∧ x < b.addr + b.size then 1 else 0 := by
  rw [cover, List.countP_singleton]
  simp only [decide_eq_true_eq]

theorem cover_base (base : Nat) (bs : List Block) (x : Nat) :
    cover (⟨base, 0⟩ :: bs) x = cover bs x := by
  rw [cover_cons, cover_singleton, if_neg (by simp only; omega), Nat.zero_add]

/-- Two blocks side by side are one. -/
theorem cover_join (h : b.addr + b.size = c.addr) (x : Nat) :
    cover [⟨b.addr, b.size + c.size⟩] x = cover [b] x + cover [c] x := by
  rw [cover_singleton, cover_singleton, cover_singleton]
  simp only
  split_ifs <;> omega

/-- What stands behind a node of the ring. -/
def after (base : Nat) (rest : List Block) : Nat := (rest.head?.map Block.addr).getD base

namespace FreeList

/-- The ring, cut at one of its nodes. -/
theorem cut (h : FreeList base mem freep fl) {pre rest : List Block} {q : Block}
    (hcut : ⟨base, 0⟩ :: fl = pre ++ q :: rest) :
    Slist (link mem) base (pre.map Block.addr) q.addr ∧
      Slist (link mem) (after base rest) (rest.map Block.addr) base ∧
      link mem q.addr = after base rest := by
  have hpath := h.path
  have hmap : base :: fl.map Block.addr =
      pre.map Block.addr ++ q.addr :: rest.map Block.addr := by
    have hcongr := congrArg (List.map Block.addr) hcut
    simpa using hcongr
  rw [hmap] at hpath
  obtain ⟨hpre, hrest⟩ := slist_cons_append.mp hpath
  have hafter : link mem q.addr = after base rest := by
    cases rest with
    | nil => exact slist_nil.mp hrest
    | cons c rest => exact hrest.eq_head
  exact ⟨hpre, hafter ▸ hrest, hafter⟩

/-- The blocks in front of an address, with `base`, and the ones behind it. -/
theorem split (h : FreeList base mem freep fl) {a : Nat} (ha : base < a)
    (hne : ∀ c ∈ fl, c.addr + c.size ≤ a ∨ a < c.addr) :
    ∃ pre q rest, ⟨base, 0⟩ :: fl = pre ++ q :: rest ∧ q.addr + q.size ≤ a ∧
      ∀ c ∈ rest, a < c.addr := by
  have hsorted := h.sorted
  have hhead : ∀ c ∈ (⟨base, 0⟩ :: fl : List Block), c.addr + c.size ≤ a ∨ a < c.addr := by
    intro c hc
    rcases List.mem_cons.mp hc with rfl | hc
    · exact .inl (Nat.le_of_lt ha)
    · exact hne c hc
  have hle : (⟨base, 0⟩ : Block).addr + (⟨base, 0⟩ : Block).size ≤ a := Nat.le_of_lt ha
  generalize (⟨base, 0⟩ : Block) = q at hsorted hhead hle
  clear h hne
  induction fl generalizing q with
  | nil => exact ⟨[], q, [], rfl, hle, nofun⟩
  | cons c fl ih =>
      rcases hhead c (by simp) with hc | hc
      · obtain ⟨pre, q', rest, heq, hq', hrest⟩ := ih c (List.pairwise_cons.mp hsorted).2
          (fun d hd => hhead d (List.mem_cons_of_mem _ hd)) hc
        exact ⟨q :: pre, q', rest, by rw [heq, List.cons_append], hq', hrest⟩
      · refine ⟨[], q, c :: fl, rfl, hle, fun d hd => ?_⟩
        rcases List.mem_cons.mp hd with rfl | hd
        · exact hc
        · have hlt := (List.pairwise_cons.mp (List.pairwise_cons.mp hsorted).2).1 d hd
          omega

theorem base_le (h : FreeList base mem freep fl) {q : Block} (hq : q ∈ ⟨base, 0⟩ :: fl) :
    base ≤ q.addr := by
  rcases List.mem_cons.mp hq with rfl | hq
  · exact Nat.le_refl _
  · have hlt := (List.pairwise_cons.mp h.sorted).1 q hq
    simp only at hlt
    omega

theorem lt_of_end_le (h : FreeList base mem freep fl) {a : Nat} (ha : base < a) {q : Block}
    (hq : q ∈ ⟨base, 0⟩ :: fl) (hle : q.addr + q.size ≤ a) : q.addr < a := by
  rcases List.mem_cons.mp hq with rfl | hq
  · exact ha
  · have hpos := h.pos q hq
    omega

/-- The loop of `free` stops in front of the block, and nowhere else. -/
theorem stops_iff (h : FreeList base mem freep fl) {a : Nat} (ha : base < a)
    {pre rest : List Block} {q : Block} (hcut : ⟨base, 0⟩ :: fl = pre ++ q :: rest)
    (hq : q.addr + q.size ≤ a) (hrest : ∀ c ∈ rest, a < c.addr) {x : Nat}
    (hx : x ∈ base :: fl.map Block.addr) : stops mem a x = true ↔ x = q.addr := by
  have hmem : q ∈ (⟨base, 0⟩ :: fl : List Block) := by rw [hcut]; simp
  have hlt := h.lt_of_end_le ha hmem hq
  have hsorted := h.sorted
  rw [hcut] at hsorted
  obtain ⟨hspre, hsrest, hscross⟩ := List.pairwise_append.mp hsorted
  obtain ⟨d, hd, rfl⟩ : ∃ d ∈ (⟨base, 0⟩ :: fl : List Block), d.addr = x := by
    rcases List.mem_cons.mp hx with rfl | hx
    · exact ⟨_, List.mem_cons_self, rfl⟩
    · obtain ⟨d, hd, rfl⟩ := List.mem_map.mp hx
      exact ⟨d, List.mem_cons_of_mem _ hd, rfl⟩
  simp only [stops, Bool.or_eq_true, Bool.and_eq_true, decide_eq_true_eq]
  rw [hcut, List.mem_append, List.mem_cons] at hd
  rcases hd with hd | rfl | hd
  · -- in front of `q`, the next node is not behind `q`
    obtain ⟨m, n, rfl⟩ := List.append_of_mem hd
    have hcut' : (⟨base, 0⟩ :: fl : List Block) = m ++ d :: (n ++ q :: rest) := by
      rw [hcut, List.append_assoc, List.cons_append]
    have hlink := (h.cut hcut').2.2
    have hdq := hscross d hd q List.mem_cons_self
    have hnext : d.addr < link mem d.addr ∧ link mem d.addr ≤ q.addr := by
      rw [hlink]
      cases n with
      | nil => exact ⟨by simp only [after, List.nil_append, List.head?_cons, Option.map_some,
          Option.getD_some]; omega, Nat.le_refl _⟩
      | cons e n =>
          have hde := (List.pairwise_cons.mp (List.pairwise_append.mp hspre).2.1).1 e
            List.mem_cons_self
          have heq := hscross e (by simp) q List.mem_cons_self
          simp only [after, List.cons_append, List.head?_cons, Option.map_some, Option.getD_some]
          omega
    omega
  · have hlink := (h.cut hcut).2.2
    have hbase := h.base_le hmem
    refine iff_of_true ?_ rfl
    rw [hlink]
    cases rest with
    | nil =>
        simp only [after, List.head?_nil, Option.map_none, Option.getD_none]
        omega
    | cons c rest =>
        have hc := hrest c List.mem_cons_self
        simp only [after, List.head?_cons, Option.map_some, Option.getD_some]
        omega
  · -- behind `q`, the next node is one further on, or `base`
    have had := hrest d hd
    obtain ⟨m, n, rfl⟩ := List.append_of_mem hd
    have hcut' : (⟨base, 0⟩ :: fl : List Block) = pre ++ q :: m ++ d :: n := by
      rw [hcut, List.append_assoc, List.cons_append]
    rw [(h.cut hcut').2.2]
    cases n with
    | nil =>
        simp only [after, List.head?_nil, Option.map_none, Option.getD_none]
        omega
    | cons e n =>
        have hmn := (List.pairwise_cons.mp hsrest).2
        have hde := (List.pairwise_cons.mp (List.pairwise_append.mp hmn).2.1).1 e List.mem_cons_self
        simp only [after, List.head?_cons, Option.map_some, Option.getD_some]
        omega

/-- There are not more free blocks than fuel, if the memory ends there. -/
theorem follow_stops (h : FreeList base mem freep fl) {a : Nat} (ha : base < a)
    {pre rest : List Block} {q : Block} (hcut : ⟨base, 0⟩ :: fl = pre ++ q :: rest)
    (hq : q.addr + q.size ≤ a) (hrest : ∀ c ∈ rest, a < c.addr) {fuel : Nat}
    (hfuel : fl.length < fuel) : follow (link mem) (stops mem a) fuel freep = some q.addr := by
  obtain ⟨l, m, hlm⟩ := List.append_of_mem h.freep
  have hpath := h.path
  rw [hlm] at hpath
  have hring := hpath.rotate
  have hmem : ∀ x, x ∈ freep :: m ++ l ↔ x ∈ base :: fl.map Block.addr := by
    intro x
    rw [hlm, List.mem_append, List.mem_append, or_comm]
  have hlen : (freep :: m ++ l).length ≤ fuel := by
    have hlen := congrArg List.length hlm
    simp only [List.length_cons, List.length_map, List.length_append] at hlen ⊢
    omega
  have hqmem : q.addr ∈ base :: fl.map Block.addr := by
    have hmap := congrArg (List.map Block.addr) hcut
    rw [List.map_cons] at hmap
    simp only at hmap
    rw [hmap]
    simp
  have hstop := (h.stops_iff ha hcut hq hrest hqmem).mpr rfl
  rw [follow_slist hring hlen ((hmem _).mpr hqmem) hstop]
  cases hfind : (freep :: m ++ l).find? (stops mem a) with
  | none =>
      have hnone := List.find?_eq_none.mp hfind _ ((hmem _).mpr hqmem)
      exact absurd hstop hnone
  | some x =>
      have hx := (hmem x).mp (List.mem_of_find?_eq_some hfind)
      rw [(h.stops_iff ha hcut hq hrest hx).mp (List.find?_some hfind)]

theorem of_cut {pre rest : List Block} {q : Block}
    (hcut : ⟨base, 0⟩ :: fl = pre ++ q :: rest)
    (hpre : Slist (link mem) base (pre.map Block.addr) q.addr)
    (hrest : Slist (link mem) (link mem q.addr) (rest.map Block.addr) base)
    (hsize : ∀ c ∈ pre ++ q :: rest, (mem c.addr).size = c.size)
    (hsorted : List.Pairwise (fun b c : Block => b.addr + b.size < c.addr) (pre ++ q :: rest))
    (hpos : ∀ c ∈ pre ++ q :: rest, base < c.addr → 0 < c.size) :
    FreeList base mem q.addr fl := by
  have hmap : base :: fl.map Block.addr =
      pre.map Block.addr ++ q.addr :: rest.map Block.addr := by
    have hcongr := congrArg (List.map Block.addr) hcut
    simpa using hcongr
  rw [← hcut] at hsize hsorted hpos
  refine ⟨?_, fun b hb => hsize b (List.mem_cons_of_mem _ hb), hsize _ List.mem_cons_self, hsorted,
    fun b hb => hpos b (List.mem_cons_of_mem _ hb) ((List.pairwise_cons.mp hsorted).1 b hb), ?_⟩
  · rw [hmap]
    exact slist_cons_append.mpr ⟨hpre, hrest⟩
  · rw [hmap]
    simp

theorem sizes (h : FreeList base mem freep fl) :
    ∀ c ∈ (⟨base, 0⟩ :: fl : List Block), (mem c.addr).size = c.size := by
  intro c hc
  rcases List.mem_cons.mp hc with rfl | hc
  · exact h.base_size
  · exact h.size c hc

theorem pos_of_lt (h : FreeList base mem freep fl) :
    ∀ c ∈ (⟨base, 0⟩ :: fl : List Block), base < c.addr → 0 < c.size := by
  intro c hc hlt
  rcases List.mem_cons.mp hc with rfl | hc
  · exact absurd hlt (Nat.lt_irrefl _)
  · exact h.pos c hc

/-- The first half of `free`: the block takes in the one behind it, if it stands there. -/
theorem join_right (h : FreeList base mem freep fl) {pre rest : List Block} {q : Block}
    (hcut : ⟨base, 0⟩ :: fl = pre ++ q :: rest) (hb : (mem b.addr).size = b.size)
    (hpos : 0 < b.size) (hbase : base < b.addr) (hrest : ∀ c ∈ rest, b.addr + b.size ≤ c.addr) :
    ∃ b' rest', b'.addr = b.addr ∧ 0 < b'.size ∧ rest' <:+ rest ∧
      (if b.addr + (mem b.addr).size = after base rest then
          Function.update mem b.addr ⟨link mem (after base rest),
            (mem b.addr).size + (mem (after base rest)).size⟩
        else Function.update mem b.addr ⟨after base rest, (mem b.addr).size⟩) =
        Function.update mem b.addr ⟨after base rest', b'.size⟩ ∧
      Slist (link mem) (after base rest') (rest'.map Block.addr) base ∧
      (∀ c ∈ rest', b'.addr + b'.size < c.addr) ∧
      ∀ x, cover [b'] x + cover rest' x = cover [b] x + cover rest x := by
  obtain ⟨-, hpath, -⟩ := h.cut hcut
  have hsorted := h.sorted
  rw [hcut] at hsorted
  have hsrest := (List.pairwise_cons.mp (List.pairwise_append.mp hsorted).2.1).2
  rw [hb]
  split_ifs with hjoin
  · cases rest with
    | nil =>
        simp only [after, List.head?_nil, Option.map_none, Option.getD_none] at hjoin
        omega
    | cons c rest =>
        have hc : c.size = (mem c.addr).size := (h.sizes c (by rw [hcut]; simp)).symm
        have hcut' : (⟨base, 0⟩ :: fl : List Block) = pre ++ [q] ++ c :: rest := by
          rw [hcut, List.append_assoc, List.singleton_append]
        obtain ⟨-, hpath', hlink⟩ := h.cut hcut'
        have hafter : after base (c :: rest) = c.addr := rfl
        rw [hafter] at hjoin
        refine ⟨⟨b.addr, b.size + c.size⟩, rest, rfl, Nat.add_pos_left hpos _,
          List.suffix_cons c rest, ?_, hpath', fun d hd => ?_, fun x => ?_⟩
        · rw [hafter, hlink, hc]
        · have hcd := (List.pairwise_cons.mp hsrest).1 d hd
          simp only
          omega
        · rw [cover_join hjoin, cover_cons c rest, Nat.add_assoc]
  · refine ⟨b, rest, rfl, hpos, List.suffix_rfl, rfl, hpath, fun d hd => ?_, fun x => rfl⟩
    cases rest with
    | nil => cases hd
    | cons c rest =>
        have hle := hrest c List.mem_cons_self
        have hne : b.addr + b.size ≠ c.addr := hjoin
        rcases List.mem_cons.mp hd with rfl | hd
        · omega
        · have hcd := (List.pairwise_cons.mp hsrest).1 d hd
          omega

/-- What `insert` writes, once the block has taken in the one behind it. -/
theorem insert_eq {q d : Block} {next next' : Nat} (hnext : link mem q.addr = next)
    (hq : (mem q.addr).size = q.size) (hne : q.addr ≠ b.addr)
    (hmem : (if b.addr + (mem b.addr).size = next then
          Function.update mem b.addr ⟨link mem next, (mem b.addr).size + (mem next).size⟩
        else Function.update mem b.addr ⟨next, (mem b.addr).size⟩) =
        Function.update mem b.addr ⟨next', d.size⟩) :
    insert mem b.addr q.addr =
      Function.update (Function.update mem b.addr ⟨next', d.size⟩) q.addr
        (if q.addr + q.size = b.addr then ⟨next', q.size + d.size⟩ else ⟨b.addr, q.size⟩) := by
  simp only [insert, hnext]
  rw [hmem]
  simp only [Function.update_of_ne hne, hq, link, Function.update_self]
  split_ifs <;> rfl

/-- `free` of a block, behind the node that the loop has found. -/
theorem insert_spec (h : FreeList base mem freep fl) {pre rest : List Block} {q : Block}
    (hcut : ⟨base, 0⟩ :: fl = pre ++ q :: rest) (hb : (mem b.addr).size = b.size)
    (hpos : 0 < b.size) (hbase : base < b.addr) (hq : q.addr + q.size ≤ b.addr)
    (hrest : ∀ c ∈ rest, b.addr + b.size ≤ c.addr) :
    ∃ fl', FreeList base (insert mem b.addr q.addr) q.addr fl' ∧ fl'.length ≤ fl.length + 1 ∧
      (∀ x, cover fl' x = cover [b] x + cover fl x) ∧
      ∀ x, x ≠ b.addr → x ≠ q.addr → insert mem b.addr q.addr x = mem x := by
  obtain ⟨b', rest', haddr, hpos', hsuffix, hmem, hpath', hgap, hcover⟩ :=
    h.join_right hcut hb hpos hbase hrest
  obtain ⟨hpre, -, hlink⟩ := h.cut hcut
  have hqmem : q ∈ (⟨base, 0⟩ :: fl : List Block) := by rw [hcut]; simp
  have hqlt := h.lt_of_end_le hbase hqmem hq
  have hsorted := h.sorted
  rw [hcut] at hsorted
  obtain ⟨hspre, hsrest, hscross⟩ := List.pairwise_append.mp hsorted
  have hsizes := h.sizes
  have hposs := h.pos_of_lt
  rw [hcut] at hsizes hposs
  have hins := insert_eq (d := b') hlink (hsizes q (by simp)) (Nat.ne_of_lt hqlt) hmem
  have hframe : ∀ x, x ≠ b.addr → x ≠ q.addr → insert mem b.addr q.addr x = mem x := by
    intro x hxb hxq
    rw [hins, Function.update_of_ne hxq, Function.update_of_ne hxb]
  have hpre_ne : ∀ c ∈ pre, c.addr < q.addr := fun c hc => by
    have hlt := hscross c hc q List.mem_cons_self
    omega
  have hframe_pre : ∀ c ∈ pre, insert mem b.addr q.addr c.addr = mem c.addr := fun c hc => by
    have hlt := hpre_ne c hc
    exact hframe _ (by omega) (by omega)
  have hframe_rest : ∀ c ∈ rest', insert mem b.addr q.addr c.addr = mem c.addr := fun c hc => by
    have hlt := hgap c hc
    exact hframe _ (by omega) (by omega)
  have hpre' : Slist (link (insert mem b.addr q.addr)) base (pre.map Block.addr) q.addr :=
    hpre.congr fun x hx => by
      obtain ⟨c, hc, rfl⟩ := List.mem_map.mp hx
      rw [link, hframe_pre c hc, link]
  have hrest' : Slist (link (insert mem b.addr q.addr)) (after base rest')
      (rest'.map Block.addr) base :=
    hpath'.congr fun x hx => by
      obtain ⟨c, hc, rfl⟩ := List.mem_map.mp hx
      rw [link, hframe_rest c hc, link]
  have hsrest' := (List.pairwise_cons.mp hsrest).2.sublist hsuffix.sublist
  have hcross : ∀ c ∈ pre, ∀ d : Block, q.addr ≤ d.addr → c.addr + c.size < d.addr :=
    fun c hc d hd => Nat.lt_of_lt_of_le (hscross c hc q List.mem_cons_self) hd
  have hlen := congrArg List.length hcut
  have hlen' := hsuffix.length_le
  have hcut_cover : ∀ x, cover fl x = cover (pre ++ q :: rest) x := fun x => by
    rw [← hcut, cover_base]
  simp only [List.length_cons, List.length_append] at hlen
  by_cases hjoin : q.addr + q.size = b.addr
  · -- the block in front takes it in, and stays where it is
    have hval : insert mem b.addr q.addr q.addr = ⟨after base rest', q.size + b'.size⟩ := by
      rw [hins, Function.update_self, if_pos hjoin]
    obtain ⟨fl', hfl'⟩ : ∃ fl', (⟨base, 0⟩ :: fl' : List Block) =
        pre ++ ⟨q.addr, q.size + b'.size⟩ :: rest' := by
      cases pre with
      | nil =>
          obtain ⟨rfl, -⟩ := List.cons.inj hcut
          simp only at hjoin
          omega
      | cons d pre =>
          obtain ⟨rfl, -⟩ := List.cons.inj hcut
          exact ⟨_, rfl⟩
    refine ⟨fl', of_cut (q := ⟨q.addr, q.size + b'.size⟩) hfl' hpre' ?_ (fun c hc => ?_) ?_
        (fun c hc hlt => ?_), ?_, fun x => ?_, hframe⟩
    · rw [link, hval]
      exact hrest'
    · rcases List.mem_append.mp hc with hc | hc
      · rw [hframe_pre c hc]
        exact hsizes c (List.mem_append_left _ hc)
      · rcases List.mem_cons.mp hc with rfl | hc
        · rw [hval]
        · rw [hframe_rest c hc]
          exact hsizes c (by simp [hsuffix.subset hc])
    · refine List.pairwise_append.mpr ⟨hspre, List.pairwise_cons.mpr ⟨fun c hc => ?_, hsrest'⟩,
        fun c hc d hd => hcross c hc d ?_⟩
      · have hlt := hgap c hc
        simp only
        omega
      · rcases List.mem_cons.mp hd with rfl | hd
        · exact Nat.le_refl _
        · have hlt := hgap d hd
          omega
    · rcases List.mem_append.mp hc with hc | hc
      · exact hposs c (List.mem_append_left _ hc) hlt
      · rcases List.mem_cons.mp hc with rfl | hc
        · exact Nat.add_pos_right _ hpos'
        · exact hposs c (by simp [hsuffix.subset hc]) hlt
    · have hlen_fl := congrArg List.length hfl'
      simp only [List.length_cons, List.length_append] at hlen_fl
      omega
    · have hjoin' : q.addr + q.size = b'.addr := hjoin.trans haddr.symm
      rw [← cover_base base fl', hfl', cover_append, cover_cons _ rest', cover_join hjoin',
        hcut_cover, cover_append pre, cover_cons q rest]
      have hx := hcover x
      omega
  · -- the block stands between the two
    have hval : insert mem b.addr q.addr q.addr = ⟨b.addr, q.size⟩ := by
      rw [hins, Function.update_self, if_neg hjoin]
    have hvalb : insert mem b.addr q.addr b.addr = ⟨after base rest', b'.size⟩ := by
      rw [hins, Function.update_of_ne (Nat.ne_of_gt hqlt), Function.update_self]
    obtain ⟨fl', hfl'⟩ : ∃ fl', (⟨base, 0⟩ :: fl' : List Block) = pre ++ q :: b' :: rest' := by
      cases pre with
      | nil => exact ⟨_, by rw [(List.cons.inj hcut).1]; rfl⟩
      | cons d pre => exact ⟨_, by rw [(List.cons.inj hcut).1]; rfl⟩
    refine ⟨fl', of_cut hfl' hpre' ?_ (fun c hc => ?_) ?_ (fun c hc hlt => ?_), ?_,
      fun x => ?_, hframe⟩
    · rw [link, hval, List.map_cons]
      refine slist_cons.mpr ⟨haddr.symm, ?_⟩
      rw [haddr, link, hvalb]
      exact hrest'
    · rcases List.mem_append.mp hc with hc | hc
      · rw [hframe_pre c hc]
        exact hsizes c (List.mem_append_left _ hc)
      · rcases List.mem_cons.mp hc with rfl | hc
        · rw [hval]
        · rcases List.mem_cons.mp hc with rfl | hc
          · rw [haddr, hvalb]
          · rw [hframe_rest c hc]
            exact hsizes c (by simp [hsuffix.subset hc])
    · refine List.pairwise_append.mpr ⟨hspre, List.pairwise_cons.mpr ⟨fun c hc => ?_,
        List.pairwise_cons.mpr ⟨hgap, hsrest'⟩⟩, fun c hc d hd => hcross c hc d ?_⟩
      · rcases List.mem_cons.mp hc with rfl | hc
        · omega
        · have hlt := hgap c hc
          omega
      · rcases List.mem_cons.mp hd with rfl | hd
        · exact Nat.le_refl _
        · rcases List.mem_cons.mp hd with rfl | hd
          · omega
          · have hlt := hgap d hd
            omega
    · rcases List.mem_append.mp hc with hc | hc
      · exact hposs c (List.mem_append_left _ hc) hlt
      · rcases List.mem_cons.mp hc with rfl | hc
        · exact hposs c (by simp) hlt
        · rcases List.mem_cons.mp hc with rfl | hc
          · exact hpos'
          · exact hposs c (by simp [hsuffix.subset hc]) hlt
    · have hlen_fl := congrArg List.length hfl'
      simp only [List.length_cons, List.length_append] at hlen_fl
      omega
    · rw [← cover_base base fl', hfl', cover_append, cover_cons q, cover_cons b', hcut_cover,
        cover_append pre, cover_cons q rest]
      have hx := hcover x
      omega

/-- The nodes of the ring are never left. -/
theorem link_mem (h : FreeList base mem freep fl) {x : Nat} (hx : x ∈ base :: fl.map Block.addr) :
    link mem x ∈ base :: fl.map Block.addr :=
  h.path.next_mem hx

/-- `free` of a block that is none of the list's. -/
theorem free_spec {heap heap' : Heap} (h : FreeList base heap.mem heap.freep fl)
    (hb : (heap.mem b.addr).size = b.size) (hpos : 0 < b.size) (hbase : base < b.addr)
    (hdisj : ∀ c ∈ fl, c.addr + c.size ≤ b.addr ∨ b.addr + b.size ≤ c.addr) {fuel : Nat}
    (hfree : free fuel heap (b.addr + 1) = some heap') :
    ∃ fl', FreeList base heap'.mem heap'.freep fl' ∧ fl'.length ≤ fl.length + 1 ∧
      (∀ x, cover fl' x = cover [b] x + cover fl x) ∧ heap'.regions = heap.regions ∧
      heap'.top = heap.top ∧
      ∀ x, x ≠ b.addr → x ∉ base :: fl.map Block.addr → heap'.mem x = heap.mem x := by
  obtain ⟨pre, q, rest, hcut, hq, hrest⟩ := h.split hbase fun c hc => by
    have hc' := hdisj c hc
    omega
  obtain ⟨p, hfollow, rfl⟩ := Option.map_eq_some_iff.mp hfree
  rw [Nat.add_sub_cancel] at hfollow
  obtain ⟨hp, hstop⟩ := follow_mem (fun x hx => h.link_mem hx) h.freep hfollow
  obtain rfl := (h.stops_iff hbase hcut hq hrest hp).mp hstop
  have hrest' : ∀ c ∈ rest, b.addr + b.size ≤ c.addr := by
    intro c hc
    have hlt := hrest c hc
    have hmem : c ∈ (⟨base, 0⟩ :: fl : List Block) := by rw [hcut]; simp [hc]
    rcases List.mem_cons.mp hmem with rfl | hmem
    · simp only at hlt
      omega
    · have hc' := hdisj c hmem
      omega
  obtain ⟨fl', hfl', hlen, hcover, hframe⟩ := h.insert_spec hcut hb hpos hbase hq hrest'
  exact ⟨fl', hfl', hlen, hcover, rfl, rfl, fun x hxb hx => hframe x hxb fun hxq => hx (hxq ▸ hp)⟩

/-- Its loop ends. -/
theorem free_some {heap : Heap} (h : FreeList base heap.mem heap.freep fl) (hbase : base < b.addr)
    (hdisj : ∀ c ∈ fl, c.addr + c.size ≤ b.addr ∨ b.addr + b.size ≤ c.addr) (hpos : 0 < b.size)
    {fuel : Nat} (hfuel : fl.length < fuel) :
    (free fuel heap (b.addr + 1)).isSome = true := by
  obtain ⟨pre, q, rest, hcut, hq, hrest⟩ := h.split hbase fun c hc => by
    have hc' := hdisj c hc
    omega
  rw [free, Option.isSome_map, Nat.add_sub_cancel, h.follow_stops hbase hcut hq hrest hfuel]
  rfl

/-! ### `malloc`, with the block that it has found -/

/-- The node behind a node of the ring, when it is not `base`. -/
theorem cut_next (h : FreeList base mem freep fl) {x : Nat} (hx : x ∈ base :: fl.map Block.addr)
    (hne : link mem x ≠ base) :
    ∃ pre q c rest, ⟨base, 0⟩ :: fl = pre ++ q :: c :: rest ∧ q.addr = x ∧ c.addr = link mem x := by
  have hmap : base :: fl.map Block.addr = (⟨base, 0⟩ :: fl : List Block).map Block.addr := rfl
  rw [hmap] at hx
  obtain ⟨q, hq, rfl⟩ := List.mem_map.mp hx
  obtain ⟨pre, rest, hcut⟩ := List.append_of_mem hq
  have hlink := (h.cut hcut).2.2
  cases rest with
  | nil => exact absurd hlink hne
  | cons c rest => exact ⟨pre, q, c, rest, hcut, rfl, hlink.symm⟩

/-- A block is taken out of the list. -/
theorem unlink (h : FreeList base mem freep fl) {pre rest : List Block} {q : Block}
    (hcut : ⟨base, 0⟩ :: fl = pre ++ q :: c :: rest) :
    ∃ fl', FreeList base
        (Function.update mem q.addr { mem q.addr with ptr := link mem c.addr }) q.addr fl' ∧
      fl'.length ≤ fl.length ∧ ∀ x, cover fl' x + cover [c] x = cover fl x := by
  obtain ⟨hpre, -, -⟩ := h.cut hcut
  have hcut' : (⟨base, 0⟩ :: fl : List Block) = pre ++ [q] ++ c :: rest := by
    rw [hcut, List.append_assoc, List.singleton_append]
  obtain ⟨-, hpath, hlink⟩ := h.cut hcut'
  have hcover : ∀ x, cover fl x = cover (pre ++ q :: c :: rest) x := fun x => by
    rw [← hcut, cover_base]
  have hlen := congrArg List.length hcut
  obtain ⟨fl', hfl'⟩ : ∃ fl', (⟨base, 0⟩ :: fl' : List Block) = pre ++ q :: rest := by
    cases pre with
    | nil => exact ⟨_, by rw [(List.cons.inj hcut).1]; rfl⟩
    | cons d pre => exact ⟨_, by rw [(List.cons.inj hcut).1]; rfl⟩
  have hlen' := congrArg List.length hfl'
  have hsub : List.Sublist (pre ++ q :: rest) (pre ++ q :: c :: rest) :=
    List.Sublist.append_left (List.Sublist.cons_cons q (List.sublist_cons_self c rest)) pre
  have hsorted := h.sorted
  rw [hcut] at hsorted
  obtain ⟨hspre, hsrest, hscross⟩ := List.pairwise_append.mp hsorted
  have hframe : ∀ d ∈ pre ++ rest, d.addr ≠ q.addr := by
    intro d hd
    rcases List.mem_append.mp hd with hd | hd
    · have hlt := hscross d hd q List.mem_cons_self
      omega
    · have hlt := (List.pairwise_cons.mp hsrest).1 d (List.mem_cons_of_mem _ hd)
      omega
  have hpath_of : ∀ {a z : Nat} {l : List Block}, (∀ d ∈ l, d ∈ pre ++ rest) →
      Slist (link mem) a (l.map Block.addr) z →
      Slist (link (Function.update mem q.addr { mem q.addr with ptr := link mem c.addr })) a
        (l.map Block.addr) z :=
    fun hl hp => hp.congr fun x hx => by
      obtain ⟨d, hd, rfl⟩ := List.mem_map.mp hx
      rw [link, Function.update_of_ne (hframe d (hl d hd)), link]
  refine ⟨fl', of_cut hfl' (hpath_of (fun d hd => List.mem_append_left _ hd) hpre) ?_ (fun d hd => ?_)
    (hsorted.sublist hsub) (fun d hd => ?_), ?_, fun x => ?_⟩
  · have hlinkq : link (Function.update mem q.addr { mem q.addr with ptr := link mem c.addr })
        q.addr = after base rest := by
      rw [link, Function.update_self]
      exact hlink
    rw [hlinkq]
    exact hpath_of (fun d hd => List.mem_append_right _ hd) hpath
  · have hsize := h.sizes d (by rw [hcut]; exact hsub.subset hd)
    by_cases hdq : d.addr = q.addr
    · rw [hdq, Function.update_self]
      rw [hdq] at hsize
      exact hsize
    · rw [Function.update_of_ne hdq, hsize]
  · exact h.pos_of_lt d (by rw [hcut]; exact hsub.subset hd)
  · simp only [List.length_cons, List.length_append] at hlen hlen'
    omega
  · rw [← cover_base base fl', hfl', hcover, cover_append, cover_append pre, cover_cons q rest,
      cover_cons q (c :: rest), cover_cons c rest]
    omega

/-- A block gives up what is behind its first units. -/
theorem shrink (h : FreeList base mem freep fl) (mem' : Nat → Header) {pre rest : List Block}
    {q : Block} (hcut : ⟨base, 0⟩ :: fl = pre ++ q :: c :: rest) {m : Nat} (hpos : 0 < m)
    (hm : m < c.size) (hc : mem' c.addr = { mem c.addr with size := m })
    (hmem : ∀ x, x ≠ c.addr → x ≠ c.addr + m → mem' x = mem x) :
    ∃ fl', FreeList base mem' q.addr fl' ∧ fl'.length ≤ fl.length ∧
      ∀ x, cover fl' x + cover [⟨c.addr + m, c.size - m⟩] x = cover fl x := by
  obtain ⟨hpre, -, hlinkq⟩ := h.cut hcut
  have hcut' : (⟨base, 0⟩ :: fl : List Block) = pre ++ [q] ++ c :: rest := by
    rw [hcut, List.append_assoc, List.singleton_append]
  obtain ⟨-, hpath, hlink⟩ := h.cut hcut'
  have hcover : ∀ x, cover fl x = cover (pre ++ q :: c :: rest) x := fun x => by
    rw [← hcut, cover_base]
  have hlen := congrArg List.length hcut
  obtain ⟨fl', hfl'⟩ : ∃ fl', (⟨base, 0⟩ :: fl' : List Block) = pre ++ q :: ⟨c.addr, m⟩ :: rest := by
    cases pre with
    | nil => exact ⟨_, by rw [(List.cons.inj hcut).1]; rfl⟩
    | cons d pre => exact ⟨_, by rw [(List.cons.inj hcut).1]; rfl⟩
  have hlen' := congrArg List.length hfl'
  have hsorted := h.sorted
  rw [hcut] at hsorted
  obtain ⟨hspre, hsrest, hscross⟩ := List.pairwise_append.mp hsorted
  obtain ⟨hsq, hsc⟩ := List.pairwise_cons.mp hsrest
  obtain ⟨hsc, hsrest⟩ := List.pairwise_cons.mp hsc
  have hqc := hsq c List.mem_cons_self
  have hframe : ∀ d ∈ pre ++ q :: rest, mem' d.addr = mem d.addr := by
    intro d hd
    refine hmem _ ?_ ?_ <;>
    · rcases List.mem_append.mp hd with hd | hd
      · have hlt := hscross d hd c (by simp)
        omega
      · rcases List.mem_cons.mp hd with rfl | hd
        · omega
        · have hlt := hsc d hd
          omega
  have hpath_of : ∀ {a z : Nat} {l : List Block}, (∀ d ∈ l, d ∈ pre ++ q :: rest) →
      Slist (link mem) a (l.map Block.addr) z → Slist (link mem') a (l.map Block.addr) z :=
    fun hl hp => hp.congr fun x hx => by
      obtain ⟨d, hd, rfl⟩ := List.mem_map.mp hx
      rw [link, hframe d (hl d hd), link]
  refine ⟨fl', of_cut hfl' (hpath_of (fun d hd => List.mem_append_left _ hd) hpre) ?_ (fun d hd => ?_)
    ?_ (fun d hd hlt => ?_), ?_, fun x => ?_⟩
  · have hlinkc : link mem' c.addr = after base rest := by
      rw [link, hc]
      exact hlink
    rw [link, hframe q (by simp), List.map_cons]
    refine slist_cons.mpr ⟨hlinkq, ?_⟩
    simp only [hlinkc]
    exact hpath_of (fun d hd => by simp [hd]) hpath
  · rcases List.mem_append.mp hd with hd | hd
    · rw [hframe d (by simp [hd])]
      exact h.sizes d (by rw [hcut]; simp [hd])
    · rcases List.mem_cons.mp hd with rfl | hd
      · rw [hframe d (by simp)]
        exact h.sizes d (by rw [hcut]; simp)
      · rcases List.mem_cons.mp hd with rfl | hd
        · rw [hc]
        · rw [hframe d (by simp [hd])]
          exact h.sizes d (by rw [hcut]; simp [hd])
  · refine List.pairwise_append.mpr ⟨hspre, List.pairwise_cons.mpr ⟨fun d hd => ?_,
      List.pairwise_cons.mpr ⟨fun d hd => ?_, hsrest⟩⟩, fun d hd e he => ?_⟩
    · rcases List.mem_cons.mp hd with rfl | hd
      · exact hqc
      · exact hsq d (List.mem_cons_of_mem _ hd)
    · have hlt := hsc d hd
      simp only
      omega
    · rcases List.mem_cons.mp he with rfl | he
      · exact hscross d hd _ List.mem_cons_self
      · rcases List.mem_cons.mp he with rfl | he
        · exact hscross d hd c (by simp)
        · exact hscross d hd e (by simp [he])
  · rcases List.mem_append.mp hd with hd | hd
    · exact h.pos_of_lt d (by rw [hcut]; simp [hd]) hlt
    · rcases List.mem_cons.mp hd with rfl | hd
      · exact h.pos_of_lt d (by rw [hcut]; simp) hlt
      · rcases List.mem_cons.mp hd with rfl | hd
        · exact hpos
        · exact h.pos_of_lt d (by rw [hcut]; simp [hd]) hlt
  · simp only [List.length_cons, List.length_append] at hlen hlen'
    omega
  · have hjoin : cover [c] x = cover [⟨c.addr, m⟩] x + cover [⟨c.addr + m, c.size - m⟩] x := by
      rw [← cover_join (b := ⟨c.addr, m⟩) (c := ⟨c.addr + m, c.size - m⟩) rfl]
      simp only [Nat.add_sub_cancel' (Nat.le_of_lt hm)]
    rw [← cover_base base fl', hfl', hcover, cover_append, cover_append pre, cover_cons q,
      cover_cons q (c :: rest), cover_cons c rest, cover_cons _ rest]
    omega

/-- A unit that no block of the list has is no node of it, but for `base`. -/
theorem not_mem_of_cover (h : FreeList base mem freep fl) {x : Nat} (hx : cover fl x = 0)
    (hbase : x ≠ base) : x ∉ base :: fl.map Block.addr := by
  intro hmem
  obtain ⟨d, hd, rfl⟩ := List.mem_map.mp ((List.mem_cons.mp hmem).resolve_left hbase)
  have hpos := h.pos d hd
  have hcover : 0 < cover fl d.addr := cover_pos.mpr ⟨d, hd, by omega, by omega⟩
  omega

/-- The units go to the end of a block, or the whole block does. -/
theorem carve_spec {heap : Heap} (h : FreeList base heap.mem heap.freep fl) {n : UInt32}
    (hn : 0 < n.toNat) {pre rest : List Block} {q : Block}
    (hcut : ⟨base, 0⟩ :: fl = pre ++ q :: c :: rest) (hc : n.toNat ≤ c.size) :
    ∃ a fl', (carve heap n q.addr c.addr).2 = a + 1 ∧
      FreeList base (carve heap n q.addr c.addr).1.mem (carve heap n q.addr c.addr).1.freep fl' ∧
      ((carve heap n q.addr c.addr).1.mem a).size = n.toNat ∧ fl'.length ≤ fl.length ∧
      (∀ x, cover fl' x + cover [⟨a, n.toNat⟩] x = cover fl x) ∧
      (carve heap n q.addr c.addr).1.regions = heap.regions ∧
      (carve heap n q.addr c.addr).1.top = heap.top ∧
      ∀ x, cover fl x = 0 → x ≠ base → (carve heap n q.addr c.addr).1.mem x = heap.mem x := by
  have hcsize := h.sizes c (by rw [hcut]; simp)
  have hsorted := h.sorted
  rw [hcut] at hsorted
  have hqc := (List.pairwise_cons.mp (List.pairwise_append.mp hsorted).2.1).1 c List.mem_cons_self
  have hcfl : c ∈ fl := by
    have hmem : c ∈ (⟨base, 0⟩ :: fl : List Block) := by rw [hcut]; simp
    refine (List.mem_cons.mp hmem).resolve_left ?_
    rintro rfl
    simp only at hc
    omega
  have hout : ∀ x, cover fl x = 0 → ¬(c.addr ≤ x ∧ x < c.addr + c.size) := fun x hx hxc => by
    have hcover : 0 < cover fl x := cover_pos.mpr ⟨c, hcfl, hxc⟩
    omega
  by_cases hexact : (heap.mem c.addr).size = n.toNat
  · have hcarve : carve heap n q.addr c.addr = ({ heap with
        mem := Function.update heap.mem q.addr { heap.mem q.addr with ptr := link heap.mem c.addr }
        freep := q.addr }, c.addr + 1) := by rw [carve, if_pos hexact]
    obtain ⟨fl', hfl', hlen, hcover⟩ := h.unlink hcut
    rw [hcarve]
    refine ⟨c.addr, fl', rfl, hfl', ?_, hlen, fun x => ?_, rfl, rfl, fun x hx hxbase => ?_⟩
    · simp only
      rw [Function.update_of_ne (by omega), hexact]
    · have hblock : (⟨c.addr, n.toNat⟩ : Block) = c := by rw [← hexact, hcsize]
      rw [hblock, hcover]
    · have hxq : x ≠ q.addr := by
        rintro rfl
        refine h.not_mem_of_cover hx hxbase ?_
        have hmap := congrArg (List.map Block.addr) hcut
        rw [List.map_cons] at hmap
        simp only at hmap
        rw [hmap]
        simp
      exact Function.update_of_ne hxq _ _
  · rw [hcsize] at hexact
    have hne : c.addr + (c.size - n.toNat) ≠ c.addr := by omega
    have hcarve : carve heap n q.addr c.addr = ({ heap with
        mem := Function.update
          (Function.update heap.mem c.addr { heap.mem c.addr with size := c.size - n.toNat })
          (c.addr + (c.size - n.toNat))
          { heap.mem (c.addr + (c.size - n.toNat)) with size := n.toNat }
        freep := q.addr }, c.addr + (c.size - n.toNat) + 1) := by
      simp only [carve, hcsize, if_neg hexact, Function.update_of_ne hne]
    rw [hcarve]
    obtain ⟨fl', hfl', hlen, hcover⟩ := h.shrink (Function.update
          (Function.update heap.mem c.addr { heap.mem c.addr with size := c.size - n.toNat })
          (c.addr + (c.size - n.toNat))
          { heap.mem (c.addr + (c.size - n.toNat)) with size := n.toNat })
      hcut (m := c.size - n.toNat) (by omega) (by omega)
      (by rw [Function.update_of_ne hne.symm, Function.update_self])
      (fun x hxc hxn => by rw [Function.update_of_ne hxn, Function.update_of_ne hxc])
    refine ⟨c.addr + (c.size - n.toNat), fl', rfl, hfl', ?_, hlen, fun x => ?_, rfl, rfl,
      fun x hx hxbase => ?_⟩
    · simp only [Function.update_self]
    · rw [← hcover x, Nat.sub_sub_self hc]
    · have hxc := hout x hx
      simp only
      rw [Function.update_of_ne (by omega), Function.update_of_ne (by omega)]

/-! ### What else holds of the list -/

theorem congr {mem' : Nat → Header} (h : FreeList base mem freep fl)
    (hmem : ∀ x ∈ base :: fl.map Block.addr, mem' x = mem x) : FreeList base mem' freep fl where
  path := h.path.congr fun x hx => by rw [link, hmem x hx, link]
  size b hb := by rw [hmem _ (List.mem_cons_of_mem _ (List.mem_map_of_mem hb)), h.size b hb]
  base_size := by rw [hmem base List.mem_cons_self, h.base_size]
  sorted := h.sorted
  pos := h.pos
  freep := h.freep

theorem nodup (h : FreeList base mem freep fl) : (base :: fl.map Block.addr).Nodup := by
  have hmap : base :: fl.map Block.addr = (⟨base, 0⟩ :: fl : List Block).map Block.addr := rfl
  rw [hmap, List.Nodup, List.pairwise_map]
  exact h.sorted.imp fun hlt => by omega

/-- Units side by side that are free are in one block. -/
theorem exists_block (h : FreeList base mem freep fl) (hpos : 0 < b.size)
    (hb : ∀ x, b.addr ≤ x → x < b.addr + b.size → 0 < cover fl x) :
    ∃ c ∈ fl, b.size ≤ c.size := by
  obtain ⟨c, hc, hle, hlt⟩ := cover_pos.mp (hb b.addr (Nat.le_refl _) (by omega))
  refine ⟨c, hc, ?_⟩
  by_contra hsize
  -- the unit behind `c` would be another block's
  obtain ⟨d, hd, hdle, hdlt⟩ := cover_pos.mp (hb (c.addr + c.size) (by omega) (by omega))
  have hsorted := (List.pairwise_cons.mp h.sorted).2
  obtain ⟨pre, rest, rfl⟩ := List.append_of_mem hc
  obtain ⟨-, hsrest, hscross⟩ := List.pairwise_append.mp hsorted
  rcases List.mem_append.mp hd with hd | hd
  · have hdc := hscross d hd c List.mem_cons_self
    omega
  · rcases List.mem_cons.mp hd with rfl | hd
    · omega
    · have hcd := (List.pairwise_cons.mp hsrest).1 d hd
      omega

end FreeList

end OsCourse.Umalloc
