import Mathlib.Algebra.Order.Ring.Int
import OsCourse.Sched.Lottery
import OsCourse.Sched.System

/-!
# OsCourse.Sched.Draw

**The range of the draws.** `generate_random` reduces `12345678 * ticks +
87654321`, computed in a signed word, with C's `%`, whose result has the sign of
the dividend. The draw is in `0, …, ceil - 1` as long as the word is not
negative (`Early`), or if it happens to be a multiple of `ceil`. At tick 167, two
seconds after boot, it is neither for the first time.

The number is always odd, so `allocproc` leaves its loop at the first draw, with
`1` to `59` tickets if the word is not negative and with a negative number of
them otherwise. The total of a table depends on the times at which its
processes were set up (`draws_in_range`).
-/

namespace OsCourse.Sched

variable {n : Nat} {F : Type}

/-! ### The linear congruence -/

/-- `12345678 * ticks + 87654321`, as a signed 32-bit number. -/
def congruence (ticks : UInt32) : Int := (12345678 * ticks.toNat + 87654321 : Int).bmod (2 ^ 32)

/-- At this time the number is not negative. -/
def Early (ticks : UInt32) : Prop :=
  (12345678 * ticks.toNat + 87654321 : Int) % 2 ^ 32 < 2 ^ 31

theorem early_iff (ticks : UInt32) : Early ticks ↔ 0 ≤ congruence ticks := by
  unfold Early congruence
  rw [Int.bmod_def]
  split_ifs with h
  · omega
  · omega

/-- The factor of the clock is even and the summand is odd. -/
theorem congruence_odd (ticks : UInt32) : congruence ticks % 2 = 1 := by
  unfold congruence
  rw [Int.bmod_def]
  split_ifs with h
  · omega
  · omega

theorem generateRandom_toInt (ticks : UInt32) {ceil : Int32} (hceil : 0 < ceil) :
    (generateRandom ticks ceil).toInt = (congruence ticks).tmod ceil.toInt := by
  have hne : ceil ≠ 0 := fun h => absurd hceil (by rw [h]; decide)
  have hticks : ticks.toInt32.toInt = (ticks.toNat : Int).bmod (2 ^ 32) :=
    BitVec.toInt_eq_toNat_bmod ticks.toBitVec
  have ha : (12345678 : Int32).toInt = 12345678 := by decide
  have hb : (87654321 : Int32).toInt = 87654321 := by decide
  unfold generateRandom congruence
  rw [if_neg hne, Int32.toInt_mod, Int32.toInt_add, Int32.toInt_mul, hticks, ha, hb,
    Int.bmod_mul_bmod, Int.bmod_add_bmod, Int.mul_comm]

/-- C's `%` stays in the range of the residues for a dividend that is not
negative, and for a multiple. -/
theorem tmod_range {a m : Int} (hm : 0 < m) : (0 ≤ a.tmod m ∧ a.tmod m < m) ↔ 0 ≤ a ∨ m ∣ a := by
  have hlt : a.tmod m < m := Int.tmod_lt_of_pos a hm
  constructor
  · intro hrange
    have hnonneg := hrange.1
    by_contra hneither
    obtain ⟨hneg, hdvd⟩ := not_or.mp hneither
    have hneg' : 0 ≤ (-a).tmod m := Int.tmod_nonneg m (by omega)
    rw [Int.neg_tmod] at hneg'
    exact hdvd (Int.dvd_of_tmod_eq_zero (by omega))
  · intro h
    rcases h with hnonneg | hdvd
    · exact ⟨Int.tmod_nonneg m hnonneg, hlt⟩
    · rw [Int.tmod_eq_zero_of_dvd hdvd]
      exact ⟨Int.le_refl 0, hm⟩

/-- C's `%` by an even number leaves the parity, whatever the sign. -/
theorem tmod_two_of_even (a : Int) {m : Int} (hm : 2 ∣ m) : a.tmod m % 2 = a % 2 := by
  obtain ⟨c, rfl⟩ := hm
  have hdiv := Int.tmod_add_mul_tdiv a (2 * c)
  rw [Int.mul_assoc] at hdiv
  omega

/-- A draw below an even number is odd. -/
theorem generateRandom_odd (ticks : UInt32) {ceil : Int32} (hceil : 0 < ceil)
    (heven : 2 ∣ ceil.toInt) : (generateRandom ticks ceil).toInt % 2 = 1 := by
  rw [generateRandom_toInt ticks hceil, tmod_two_of_even _ heven, congruence_odd]

/-! ### One draw -/

/-- `0 <= generate_random(ceil) < ceil`. -/
def InRange (ticks : UInt32) (ceil : Int32) : Prop :=
  0 ≤ generateRandom ticks ceil ∧ generateRandom ticks ceil < ceil

theorem inRange_iff (ticks : UInt32) {ceil : Int32} (hceil : 0 < ceil) :
    InRange ticks ceil ↔ Early ticks ∨ ceil.toInt ∣ congruence ticks := by
  rw [InRange, Int32.le_iff_toInt_le, Int32.lt_iff_toInt_lt, generateRandom_toInt ticks hceil,
    Int32.toInt_zero, tmod_range (toInt_pos hceil), early_iff]

/-- The draws of one time are in range for every `ceil` only if they are for 2. -/
theorem inRange_forall_iff (ticks : UInt32) :
    (∀ ceil, 0 < ceil → InRange ticks ceil) ↔ Early ticks := by
  constructor
  · intro h
    rcases (inRange_iff ticks (by decide)).mp (h 2 (by decide)) with hearly | hdvd
    · exact hearly
    · have hodd := congruence_odd ticks
      have htwo : (2 : Int32).toInt = 2 := by decide
      rw [htwo] at hdvd
      omega
  · exact fun hearly ceil hceil => (inRange_iff ticks hceil).mpr (.inl hearly)

/-! ### The tickets of a new process -/

/-- The draws of `allocproc` are never zero: the first is taken. -/
theorem generateRandom_sixty_ne_zero (ticks : UInt32) : generateRandom ticks 60 ≠ 0 := by
  intro h
  have hodd := generateRandom_odd ticks (show (0 : Int32) < 60 by decide) (by decide)
  rw [h, Int32.toInt_zero] at hodd
  omega

/-- The tickets of a process set up at time `ticks` are from 1 to 59 iff the
number is not negative then. -/
theorem generateRandom_sixty (ticks : UInt32) :
    (1 ≤ generateRandom ticks 60 ∧ generateRandom ticks 60 ≤ 59) ↔ Early ticks := by
  have hsixty : (60 : Int32).toInt = 60 := by decide
  have hne : (generateRandom ticks 60).toInt ≠ 0 := fun h =>
    generateRandom_sixty_ne_zero ticks (Int32.toInt_inj.mp (h.trans Int32.toInt_zero.symm))
  have hone : (1 : Int32).toInt = 1 := by decide
  have hlast : (59 : Int32).toInt = 59 := by decide
  have hpos : (0 : Int32) < 60 := by decide
  have hrange := inRange_iff ticks hpos
  have hodd := congruence_odd ticks
  rw [InRange, Int32.le_iff_toInt_le, Int32.lt_iff_toInt_lt, Int32.toInt_zero, hsixty] at hrange
  rw [Int32.le_iff_toInt_le, Int32.le_iff_toInt_le, hone, hlast]
  constructor
  · intro h
    obtain ⟨hlow, hhigh⟩ := h
    refine (hrange.mp ⟨by omega, by omega⟩).resolve_right fun hdvd => ?_
    omega
  · intro hearly
    obtain ⟨hlow, hhigh⟩ := hrange.mpr (.inl hearly)
    omega

theorem allocproc_slot [FloatOps F] {t t' : Table n F} {nextpid : Int32} {ticks : UInt32}
    {i : Fin n} (h : allocproc t nextpid ticks = some (i, t')) :
    (t' i).level = .lottery ∧ (t' i).tickets = generateRandom ticks 60 := by
  obtain ⟨j, -, hj⟩ := Option.map_eq_some_iff.mp h
  obtain ⟨rfl, rfl⟩ := Prod.mk.inj hj
  simp

/-! ### The total of a table -/

/-- The process in slot `i` has the queue and the tickets `allocproc` gave it at
one of the times `S`. -/
def SetUp [FloatOps F] (S : Set UInt32) (t : Table n F) (i : Fin n) : Prop :=
  ∃ (t₀ t' : Table n F) (nextpid : Int32), ∃ ticks ∈ S,
    allocproc t₀ nextpid ticks = some (i, t') ∧
      (t i).level = (t' i).level ∧ (t i).tickets = (t' i).tickets

/-- The slot is still as in the zero-initialised table. -/
def Blank (t : Table n F) (i : Fin n) : Prop := (t i).level = .lottery ∧ (t i).tickets = 0

/-- There are processes in `t`, all of them set up at times in `S`. -/
def OnlySetUp [FloatOps F] (S : Set UInt32) (t : Table n F) : Prop :=
  (∀ i, SetUp S t i ∨ Blank t i) ∧ ∃ i, SetUp S t i

/-- Small shares add up without wrapping around: the total is at least what it
was, and at least one of the shares more. -/
theorem foldl_share_le {t : Table n F} {l : List (Fin n)}
    (hshare : ∀ i, 0 ≤ (ticketShare t i).toInt ∧ (ticketShare t i).toInt ≤ 59) {total : Int32}
    (hnonneg : 0 ≤ total.toInt) (hroom : total.toInt + 59 * l.length < 2 ^ 31) :
    total.toInt ≤ (l.foldl (fun total i => total + ticketShare t i) total).toInt ∧
      ∀ i ∈ l, total.toInt + (ticketShare t i).toInt ≤
        (l.foldl (fun total i => total + ticketShare t i) total).toInt := by
  induction l generalizing total with
  | nil => simp
  | cons q ps ih =>
      obtain ⟨hlow, hhigh⟩ := hshare q
      rw [List.length_cons] at hroom
      have hadd : (total + ticketShare t q).toInt = total.toInt + (ticketShare t q).toInt := by
        rw [Int32.toInt_add, Int.bmod_eq_of_le] <;> omega
      have hnonneg' : 0 ≤ (total + ticketShare t q).toInt := by omega
      obtain ⟨hle, hmem⟩ := ih hnonneg' (by omega)
      rw [List.foldl_cons]
      rw [hadd] at hle hmem
      refine ⟨by omega, fun i hi => ?_⟩
      rcases List.mem_cons.mp hi with rfl | hi
      · exact hle
      · have := hmem i hi
        omega

theorem OnlySetUp.getTotal_pos [FloatOps F] {S : Set UInt32} (hS : ∀ ticks ∈ S, Early ticks)
    {t : Table NPROC F} (ht : OnlySetUp S t) : 0 < getTotal t := by
  have hone : (1 : Int32).toInt = 1 := by decide
  have hlast : (59 : Int32).toInt = 59 := by decide
  have hset : ∀ i, SetUp S t i → 1 ≤ (ticketShare t i).toInt ∧ (ticketShare t i).toInt ≤ 59 := by
    intro i hi
    obtain ⟨t₀, t', nextpid, ticks, hticks, halloc, hlevel, htickets⟩ := hi
    obtain ⟨hl, ht'⟩ := allocproc_slot halloc
    have hrange := (generateRandom_sixty ticks).mpr (hS ticks hticks)
    rw [Int32.le_iff_toInt_le, Int32.le_iff_toInt_le, hone, hlast] at hrange
    rwa [ticketShare, if_pos (hlevel.trans hl), htickets, ht']
  have hshare : ∀ i, 0 ≤ (ticketShare t i).toInt ∧ (ticketShare t i).toInt ≤ 59 := by
    intro i
    rcases ht.1 i with hi | ⟨hl, hz⟩
    · obtain ⟨hlow, hhigh⟩ := hset i hi
      exact ⟨by omega, hhigh⟩
    · rw [ticketShare, if_pos hl, hz, Int32.toInt_zero]
      exact ⟨by decide, by decide⟩
  obtain ⟨i, hi⟩ := ht.2
  have hzero : 0 ≤ (0 : Int32).toInt := by decide
  have hroom : (0 : Int32).toInt + 59 * (List.finRange NPROC).length < 2 ^ 31 := by
    rw [List.length_finRange]
    decide
  have hsum := (foldl_share_le hshare hzero hroom).2 i (List.mem_finRange i)
  rw [← getTotal_eq, Int32.toInt_zero] at hsum
  have hpos := (hset i hi).1
  rw [Int32.lt_iff_toInt_lt, Int32.toInt_zero]
  omega

/-- The first process set up, in the zero-initialised table. -/
theorem allocproc_zero [FloatOps F] (nextpid : Int32) (ticks : UInt32) :
    ∃ t' : Table NPROC F, allocproc (fun _ => Proc.zero) nextpid ticks = some (0, t') ∧
      ∀ j, j ≠ 0 → t' j = Proc.zero := by
  refine ⟨_, rfl, fun j hj => ?_⟩
  exact Function.update_of_ne hj _ _

/-- **The draws are in range** exactly at the times at which the number is not
negative; these are the times at which the tickets of a new process are, and a
table whose processes were set up at such times only has a positive total. -/
theorem draws_in_range [FloatOps F] :
    (∀ ticks ceil, 0 < ceil →
      (InRange ticks ceil ↔ Early ticks ∨ ceil.toInt ∣ congruence ticks)) ∧
    (∀ ticks, (∀ ceil, 0 < ceil → InRange ticks ceil) ↔ Early ticks) ∧
    (∀ (t t' : Table NPROC F) nextpid ticks i, allocproc t nextpid ticks = some (i, t') →
      ((1 ≤ (t' i).tickets ∧ (t' i).tickets ≤ 59) ↔ Early ticks)) ∧
    ∀ S : Set UInt32, (∀ t : Table NPROC F, OnlySetUp S t → 0 < getTotal t) ↔
      ∀ ticks ∈ S, Early ticks := by
  refine ⟨fun ticks ceil hceil => inRange_iff ticks hceil, inRange_forall_iff,
    fun t t' nextpid ticks i halloc => ?_, fun S => ⟨fun h ticks hticks => ?_, fun hS t ht =>
      ht.getTotal_pos hS⟩⟩
  · rw [(allocproc_slot halloc).2]
    exact generateRandom_sixty ticks
  · -- a table with a single process, set up at that time
    obtain ⟨t', halloc, hrest⟩ := allocproc_zero (F := F) 1 ticks
    obtain ⟨hlevel, htickets⟩ := allocproc_slot halloc
    have hset : SetUp S t' 0 := ⟨_, t', 1, ticks, hticks, halloc, rfl, rfl⟩
    have htotal := h t' ⟨fun i => ?_, 0, hset⟩
    · have hshare : getTotal t' = generateRandom ticks 60 := by
        rw [getTotal_eq, foldl_share_of_single (List.nodup_finRange NPROC) (List.mem_finRange 0)
          (fun j hj => by rw [ticketShare, hrest j hj]; rfl) 0, ticketShare, if_pos hlevel,
          htickets, Int32.zero_add]
      rw [hshare] at htotal
      have hsixty : InRange ticks 60 := by
        refine ⟨Int32.le_of_lt htotal, ?_⟩
        have hlt := Int.tmod_lt_of_pos (congruence ticks) (b := 60) (by decide)
        rw [Int32.lt_iff_toInt_lt, generateRandom_toInt ticks (by decide)]
        exact hlt
      refine ((inRange_iff ticks (by decide)).mp hsixty).resolve_right fun hdvd => ?_
      have hodd := congruence_odd ticks
      have hval : (60 : Int32).toInt = 60 := by decide
      rw [hval] at hdvd
      omega
    · by_cases hi : i = 0
      · subst hi
        exact .inl hset
      · right
        rw [Blank, hrest i hi]
        exact ⟨rfl, rfl⟩

/-- Two seconds after boot a draw is negative. -/
theorem draws_in_range_fails :
    generateRandom 167 60 = -49 ∧ ¬ InRange 167 60 := by
  refine ⟨by decide +kernel, fun h => ?_⟩
  exact absurd h.1 (by decide +kernel)

end OsCourse.Sched
