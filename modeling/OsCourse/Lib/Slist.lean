import Mathlib.Data.List.Nodup

/-!
# OsCourse.Lib.Slist

**Linked lists.** `Slist next a l b` says that the pointers `next` lead from the node `a`
through the nodes `l`, of which it is the first, to `b`. A ring is a path from a node back
to it; it can be taken from any of its nodes (`Slist.rotate`), and a loop along its
pointers comes to the first node of it that it looks for (`follow_slist`).
-/

namespace OsCourse.Lib

variable {α : Type*}

/-- From `a` through `l` to `b`. -/
inductive Slist (next : α → α) : α → List α → α → Prop
  | nil (a : α) : Slist next a [] a
  | cons {a b : α} {l : List α} : Slist next (next a) l b → Slist next a (a :: l) b

variable {next next' : α → α} {a b c x : α} {l m : List α}

@[simp] theorem slist_nil : Slist next a [] b ↔ a = b :=
  ⟨fun h => by cases h; rfl, fun h => h ▸ .nil a⟩

@[simp] theorem slist_cons : Slist next a (x :: l) b ↔ a = x ∧ Slist next (next x) l b := by
  constructor
  · intro h
    cases h with
    | cons h => exact ⟨rfl, h⟩
  · rintro ⟨rfl, h⟩
    exact .cons h

theorem slist_append : Slist next a (l ++ m) b ↔ ∃ c, Slist next a l c ∧ Slist next c m b := by
  induction l generalizing a with
  | nil => simp
  | cons x l ih =>
      rw [List.cons_append, slist_cons, ih]
      constructor
      · rintro ⟨rfl, c, hl, hm⟩
        exact ⟨c, .cons hl, hm⟩
      · rintro ⟨c, hl, hm⟩
        obtain ⟨rfl, hl⟩ := slist_cons.mp hl
        exact ⟨rfl, c, hl, hm⟩

theorem Slist.congr (h : Slist next a l b) (hnext : ∀ x ∈ l, next' x = next x) :
    Slist next' a l b := by
  induction h with
  | nil a => exact .nil a
  | cons h ih =>
      refine .cons ?_
      rw [hnext _ List.mem_cons_self]
      exact ih fun y hy => hnext y (List.mem_cons_of_mem _ hy)

/-- A path cut at a node. -/
theorem slist_cons_append :
    Slist next a (l ++ x :: m) b ↔ Slist next a l x ∧ Slist next (next x) m b := by
  rw [slist_append]
  constructor
  · rintro ⟨c, hl, hm⟩
    obtain ⟨rfl, hm⟩ := slist_cons.mp hm
    exact ⟨hl, hm⟩
  · rintro ⟨hl, hm⟩
    exact ⟨x, hl, .cons hm⟩

/-- The node that a path starts at. -/
theorem Slist.eq_head (h : Slist next a (x :: l) b) : a = x := (slist_cons.mp h).1

/-- A ring, from another of its nodes. -/
theorem Slist.rotate (h : Slist next a (l ++ x :: m) a) : Slist next x (x :: m ++ l) x := by
  obtain ⟨hl, hm⟩ := slist_cons_append.mp h
  exact slist_append.mpr ⟨a, .cons hm, hl⟩

/-- A ring is left nowhere. -/
theorem Slist.next_mem (h : Slist next a l a) (hx : x ∈ l) : next x ∈ l := by
  obtain ⟨m, n, rfl⟩ := List.append_of_mem hx
  obtain ⟨hm, hn⟩ := slist_cons_append.mp h
  cases n with
  | nil =>
      cases m with
      | nil => simp [(slist_nil.mp hn).trans (slist_nil.mp hm)]
      | cons y m => simp [(slist_nil.mp hn).trans hm.eq_head]
  | cons y n => simp [hn.eq_head]

/-- The loop along the pointers, up to a node that it looks for. -/
def follow (next : α → α) (stop : α → Bool) : Nat → α → Option α
  | 0, _ => none
  | fuel + 1, a => if stop a then some a else follow next stop fuel (next a)

/-- What the loop comes to. -/
theorem follow_mem {stop : α → Bool} (hnext : ∀ x ∈ l, next x ∈ l) {fuel : Nat} (ha : a ∈ l)
    (h : follow next stop fuel a = some x) : x ∈ l ∧ stop x = true := by
  induction fuel generalizing a with
  | zero => cases h
  | succ fuel ih =>
      rw [follow] at h
      split_ifs at h with hstop
      · obtain rfl := Option.some.inj h
        exact ⟨ha, hstop⟩
      · exact ih (hnext a ha) h

/-- On a path the loop finds what there is to find. -/
theorem follow_slist {stop : α → Bool} (h : Slist next a l b) {fuel : Nat}
    (hfuel : l.length ≤ fuel) (hx : x ∈ l) (hstop : stop x = true) :
    follow next stop fuel a = l.find? stop := by
  induction h generalizing fuel with
  | nil a => cases hx
  | cons h ih =>
      rename_i a b l
      obtain ⟨fuel, rfl⟩ : ∃ n, fuel = n + 1 := Nat.exists_eq_add_of_le' (Nat.one_le_of_lt hfuel)
      rw [follow, List.find?_cons]
      cases hy : stop a with
      | true => rfl
      | false =>
          have hne : x ≠ a := by
            rintro rfl
            rw [hstop] at hy
            cases hy
          exact ih (Nat.le_of_succ_le_succ hfuel) ((List.mem_cons.mp hx).resolve_left hne)

end OsCourse.Lib
