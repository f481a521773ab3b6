import Mathlib.Data.List.Nodup
import Mathlib.Logic.Function.Basic

/-!
# OsCourse.Lib.Dlist

**Circular doubly linked lists with a head.** The nodes are of any type `α`; a
pointer is an `Option α`, where `none` is the head, and the two fields of all
nodes are functions `next` and `prev` on pointers.

`Ring next prev l` says that the pointers lead from the head through the nodes
`l` and back, in both directions. It is a `Seg`ment from the head to the head; a
segment from `x` to `y` can be cut at any node (`seg_append`), reversed
(`seg_reverse`), and does not depend on fields of other nodes (`Seg.congr`).
From these: what taking a node out (`Ring.unlink`) and putting one in behind the
head (`Ring.pushFront`) make of a ring, and what loops along the pointers do.
-/

namespace OsCourse.Lib

variable {α : Type*}

/-- One field of all nodes and of the head. -/
abbrev Link (α : Type*) := Option α → Option α

/-- The pointers lead from `x` through the nodes `l` to `y`, and back. -/
def Seg (next prev : Link α) : Option α → List α → Option α → Prop
  | x, [], y => next x = y ∧ prev y = x
  | x, a :: l, y => (next x = some a ∧ prev (some a) = x) ∧ Seg next prev (some a) l y

/-- The nodes of the list, in order, are `l`. -/
def Ring (next prev : Link α) (l : List α) : Prop := Seg next prev none l none

variable {next prev next' prev' : Link α} {x y : Option α} {a : α} {l m : List α}

/-! ### Segments -/

theorem seg_append :
    Seg next prev x (l ++ a :: m) y ↔ Seg next prev x l (some a) ∧ Seg next prev (some a) m y := by
  induction l generalizing x with
  | nil => rfl
  | cons b l ih =>
      rw [List.cons_append, Seg, Seg, ih]
      exact and_assoc.symm

/-- The same segment, read backwards. -/
theorem seg_reverse : Seg next prev x l y ↔ Seg prev next y l.reverse x := by
  induction l generalizing x with
  | nil => exact and_comm
  | cons a l ih =>
      rw [List.reverse_cons, seg_append, ← ih, Seg, Seg, and_comm (a := prev (some a) = x), and_comm]

theorem Seg.congr (h : Seg next prev x l y) (hnext : ∀ p ∈ x :: l.map some, next' p = next p)
    (hprev : ∀ p ∈ y :: l.map some, prev' p = prev p) : Seg next' prev' x l y := by
  induction l generalizing x with
  | nil =>
      obtain ⟨hn, hp⟩ := h
      exact ⟨(hnext x (by simp)).trans hn, (hprev y (by simp)).trans hp⟩
  | cons a l ih =>
      obtain ⟨⟨hn, hp⟩, hrest⟩ := h
      refine ⟨⟨(hnext x (by simp)).trans hn, (hprev (some a) (by simp)).trans hp⟩, ?_⟩
      refine ih hrest (fun p hmem => hnext p (List.mem_cons_of_mem x hmem)) fun p hmem => ?_
      rcases List.mem_cons.mp hmem with rfl | hmem
      · exact hprev p List.mem_cons_self
      · exact hprev p (List.mem_cons_of_mem _ (List.mem_cons_of_mem _ hmem))

/-- Where the last step of a segment starts. -/
theorem Seg.prev_mem (h : Seg next prev x l y) : prev y ∈ x :: l.map some := by
  induction l generalizing x with
  | nil => exact List.mem_singleton.mpr h.2
  | cons a l ih => exact List.mem_cons_of_mem x (ih h.2)

/-- Where the first step of a segment ends. -/
theorem Seg.next_mem (h : Seg next prev x l y) : next x ∈ y :: l.map some := by
  cases l with
  | nil => exact List.mem_singleton.mpr h.1
  | cons a l =>
      rw [h.1.1]
      simp

/-! ### Loops -/

/-- The nodes met along `ptr` from the pointer given to the head, with fuel. -/
def walk (ptr : Link α) : ℕ → Option α → Option (List α)
  | _, none => some []
  | 0, some _ => none
  | k + 1, some a => (walk ptr k (ptr (some a))).map (a :: ·)

/-- `for (b = …; b != head; b = b->ptr) if (p(b)) …`: the first node with `p`,
or `none` if the loop comes to the head. -/
def scan (ptr : Link α) (p : α → Bool) : ℕ → Option α → Option (Option α)
  | _, none => some none
  | 0, some _ => none
  | k + 1, some a => if p a then some (some a) else scan ptr p k (ptr (some a))

theorem Seg.walk (h : Seg next prev x l none) {k : ℕ} (hk : l.length ≤ k) :
    walk next k (next x) = some l := by
  induction l generalizing x k with
  | nil =>
      rw [h.1]
      cases k <;> rfl
  | cons a l ih =>
      obtain ⟨k, rfl⟩ := Nat.exists_eq_add_of_le' (Nat.lt_of_lt_of_le (Nat.succ_pos _) hk)
      rw [h.1.1, Lib.walk, ih h.2 (Nat.le_of_succ_le_succ hk)]
      rfl

theorem Seg.scan (h : Seg next prev x l none) (p : α → Bool) {k : ℕ} (hk : l.length ≤ k) :
    scan next p k (next x) = some (l.find? p) := by
  induction l generalizing x k with
  | nil =>
      rw [h.1]
      cases k <;> rfl
  | cons a l ih =>
      obtain ⟨k, rfl⟩ := Nat.exists_eq_add_of_le' (Nat.lt_of_lt_of_le (Nat.succ_pos _) hk)
      rw [h.1.1, Lib.scan, ih h.2 (Nat.le_of_succ_le_succ hk), List.find?_cons]
      cases p a <;> rfl

/-- What a loop finds. -/
theorem scan_eq_some {ptr : Link α} {p : α → Bool} {k : ℕ} (h : scan ptr p k x = some (some a)) :
    p a = true := by
  induction k generalizing x with
  | zero => cases x <;> cases h
  | succ k ih =>
      cases x with
      | none => cases h
      | some b =>
          rw [Lib.scan] at h
          split at h
          · next hb =>
            obtain rfl : b = a := by simpa using h
            exact hb
          · exact ih h

/-! ### Changes -/

theorem ring_nil : Ring (fun _ : Option α => none) (fun _ => none) [] := ⟨rfl, rfl⟩

theorem Ring.nodup_cons (hl : l.Nodup) : ((none : Option α) :: l.map some).Nodup :=
  List.nodup_cons.mpr ⟨by simp, hl.map fun _ _ h => Option.some.inj h⟩

variable [DecidableEq α]

/-- `a->next->prev = a->prev; a->prev->next = a->next;` -/
def unlink (f : Link α × Link α) (a : α) : Link α × Link α :=
  let prev := Function.update f.2 (f.1 (some a)) (f.2 (some a))
  let next := Function.update f.1 (prev (some a)) (f.1 (some a))
  (next, prev)

/-- `a->next = head.next; a->prev = &head; head.next->prev = a; head.next = a;` -/
def pushFront (f : Link α × Link α) (a : α) : Link α × Link α :=
  let next := Function.update f.1 (some a) (f.1 none)
  let prev := Function.update f.2 (some a) none
  let prev := Function.update prev (next none) (some a)
  let next := Function.update next none (some a)
  (next, prev)

/-- The two neighbours of `a` become neighbours of each other. -/
theorem Seg.unlink (h : Seg next prev x (l ++ a :: m) y)
    (hx : (x :: (l ++ a :: m).map some).Nodup) (hy : y ∉ (l ++ a :: m).map some) :
    Seg (Function.update next (prev (some a)) (next (some a)))
      (Function.update prev (next (some a)) (prev (some a))) x (l ++ m) y := by
  induction l generalizing x with
  | nil =>
      obtain ⟨⟨hn, hp⟩, hrest⟩ := h
      rw [hp]
      cases m with
      | nil =>
          obtain ⟨hn', -⟩ := hrest
          rw [hn']
          exact ⟨Function.update_self .., Function.update_self ..⟩
      | cons c m =>
          obtain ⟨⟨hn', -⟩, hrest⟩ := hrest
          rw [hn']
          refine ⟨⟨Function.update_self .., Function.update_self ..⟩, hrest.congr ?_ ?_⟩
          · -- `x` is none of the nodes behind
            intro p hmem
            refine Function.update_of_ne (fun heq => ?_) _ _
            exact (List.nodup_cons.mp hx).1 (List.mem_cons_of_mem _ (heq ▸ hmem))
          · intro p hmem
            refine Function.update_of_ne (fun heq => ?_) _ _
            subst heq
            have hnodup := (List.nodup_cons.mp (List.nodup_cons.mp hx).2).2
            rcases List.mem_cons.mp hmem with heq | hmem
            · exact hy (by simp [← heq])
            · exact (List.nodup_cons.mp hnodup).1 hmem
  | cons b l ih =>
      obtain ⟨⟨hn, hp⟩, hrest⟩ := h
      obtain ⟨hxb, hnodup⟩ := List.nodup_cons.mp hx
      obtain ⟨hleft, hright⟩ := seg_append.mp hrest
      have hmem : ∀ p ∈ some b :: l.map some, p ∈ ((b :: l) ++ a :: m).map some := by
        intro p hp
        rw [List.map_append]
        exact List.mem_append_left _ hp
      refine ⟨⟨?_, ?_⟩, ih hrest hnodup fun hin => hy (List.mem_cons_of_mem _ hin)⟩
      · rw [Function.update_of_ne, hn]
        exact fun heq => hxb (heq ▸ hmem _ hleft.prev_mem)
      · rw [Function.update_of_ne, hp]
        intro heq
        have hnext := hright.next_mem
        rw [← heq] at hnext
        rcases List.mem_cons.mp hnext with rfl | hnext
        · exact hy (hmem _ List.mem_cons_self)
        · refine (List.nodup_cons.mp hnodup).1 ?_
          show some b ∈ (l ++ a :: m).map some
          rw [List.map_append]
          exact List.mem_append_right _ (List.mem_cons_of_mem _ hnext)

theorem Ring.unlink (h : Ring next prev (l ++ a :: m)) (hl : (l ++ a :: m).Nodup) :
    Ring (Lib.unlink (next, prev) a).1 (Lib.unlink (next, prev) a).2 (l ++ m) := by
  have hself : Function.update prev (next (some a)) (prev (some a)) (some a) = prev (some a) := by
    rw [Function.update_apply]
    split_ifs <;> rfl
  unfold Lib.unlink
  dsimp only
  rw [hself]
  exact Seg.unlink h (Ring.nodup_cons hl) (by simp)

/-- A node that is not in the list becomes its first. -/
theorem Ring.pushFront (h : Ring next prev l) (hl : l.Nodup) (ha : a ∉ l) :
    Ring (Lib.pushFront (next, prev) a).1 (Lib.pushFront (next, prev) a).2 (a :: l) := by
  have hfirst : Function.update next (some a) (next none) none = next none :=
    Function.update_of_ne (Option.some_ne_none a).symm _ _
  have hne : next none ≠ some a := by
    intro heq
    have hmem := Seg.next_mem h
    rw [heq] at hmem
    exact ha (by simpa using hmem)
  unfold Lib.pushFront
  dsimp only
  rw [hfirst]
  refine ⟨⟨Function.update_self .., ?_⟩, ?_⟩
  · rw [Function.update_of_ne hne.symm, Function.update_self]
  · cases l with
    | nil =>
        obtain ⟨hn, -⟩ := h
        rw [hn]
        refine ⟨?_, Function.update_self ..⟩
        rw [Function.update_of_ne (Option.some_ne_none a), Function.update_self]
    | cons c l =>
        obtain ⟨⟨hn, hp⟩, hrest⟩ := h
        rw [hn]
        refine ⟨⟨?_, Function.update_self ..⟩, hrest.congr (fun p hmem => ?_) fun p hmem => ?_⟩
        · rw [Function.update_of_ne (Option.some_ne_none a), Function.update_self]
        · have hpa : p ≠ some a := fun heq => ha (by simpa [heq] using hmem)
          have hpn : p ≠ none := fun heq => by simp [heq] at hmem
          rw [Function.update_of_ne hpn, Function.update_of_ne hpa]
        · have hpa : p ≠ some a := fun heq =>
            ha (List.mem_cons_of_mem c (by simpa [heq] using hmem))
          have hpc : p ≠ some c := fun heq =>
            (List.nodup_cons.mp hl).1 (by simpa [heq] using hmem)
          rw [Function.update_of_ne hpc, Function.update_of_ne hpa]

/-- Nodes put in one after another. -/
theorem Ring.foldl_pushFront {f : Link α × Link α} (h : Ring f.1 f.2 l) (hl : l.Nodup)
    {m : List α} (hm : m.Nodup) (hdisj : ∀ b ∈ m, b ∉ l) :
    Ring (m.foldl Lib.pushFront f).1 (m.foldl Lib.pushFront f).2 (m.reverse ++ l) := by
  induction m generalizing f l with
  | nil => exact h
  | cons b m ih =>
      obtain ⟨hb, hm⟩ := List.nodup_cons.mp hm
      have hbl := hdisj b List.mem_cons_self
      rw [List.foldl_cons, List.reverse_cons, List.append_assoc, List.singleton_append]
      refine ih (h.pushFront hl hbl) (List.nodup_cons.mpr ⟨hbl, hl⟩) hm fun c hc => ?_
      rw [List.mem_cons, not_or]
      exact ⟨fun hcb => hb (hcb ▸ hc), hdisj c (List.mem_cons_of_mem b hc)⟩

end OsCourse.Lib
