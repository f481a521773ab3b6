import Mathlib.Algebra.Ring.Nat
import Mathlib.Tactic.ByContra
import Mathlib.Tactic.SplitIfs

/-!
# OsCourse.Clock.SetSleep

`sys_set_sleep` of the system-call kernel (`sysproc.c`) and the clock it reads
(`cmostime`, `lapic.c`), without the date.

The call splits `n` into hours, minutes and seconds and waits until each field
of the clock has grown by its part. A field never shows 60, so the call does not
end at all if the seconds or the minutes have to be carried over; without
carries it ends after `n` seconds (`set_sleep_iff`).
-/

namespace OsCourse.Clock

/-! ### The code -/

/-- `struct rtcdate`. -/
structure SystemTime where
  second : UInt32
  minute : UInt32
  hour : UInt32
  deriving DecidableEq, Repr

/-- `CONV(x)`. -/
def conv (x : UInt32) : UInt32 := (x >>> 4) * 10 + (x &&& 0xf)

/-- `cmostime`, from where it has read the same registers `t1` twice; `sb` is
status register B. -/
def cmostime (sb : UInt32) (t1 : SystemTime) : SystemTime :=
  if sb &&& 4 = 0 then ⟨conv t1.second, conv t1.minute, conv t1.hour⟩ else t1

/-- `h`, `m` and `s` of `sys_set_sleep`. -/
structure Delay where
  h : Int32
  m : Int32
  s : Int32
  deriving DecidableEq, Repr

/-- The head of `sys_set_sleep`: `n` is split. -/
def split (n : Int32) : Delay :=
  let h := n / 3600
  let n := n - h * 3600
  let m := n / 60
  let n := n - m * 60
  ⟨h, m, n⟩

/-- The exit test of the loop. The `int`s are converted to `uint`. -/
def Exits (time1 time2 : SystemTime) (d : Delay) : Prop :=
  time2.hour = time1.hour + d.h.toUInt32 ∧ time2.minute = time1.minute + d.m.toUInt32 ∧
    time2.second = time1.second + d.s.toUInt32

instance (time1 time2 : SystemTime) (d : Delay) : Decidable (Exits time1 time2 d) :=
  inferInstanceAs (Decidable (_ ∧ _ ∧ _))

/-- The loop, which reads the clock for the `k`-th time next: the number of the
reading it ends with, or `none` when the fuel is used up. -/
def waitLoop (clock : Nat → SystemTime) (time1 : SystemTime) (d : Delay) : Nat → Nat → Option Nat
  | 0, _ => none
  | fuel + 1, k =>
      if Exits time1 (clock k) d then some k else waitLoop clock time1 d fuel (k + 1)

/-- `sys_set_sleep`, with fuel; `clock` are the readings it takes, the first one
being taken before the loop too. -/
def sysSetSleep (clock : Nat → SystemTime) (n : Int32) (fuel : Nat) : Option Nat :=
  waitLoop clock (clock 0) (split n) fuel 0

/-! ### The clock -/

/-- What the registers hold for a number below 100: it, or its two digits in BCD. -/
def register (sb : UInt32) (v : Nat) : UInt32 :=
  if sb &&& 4 = 0 then UInt32.ofNat (v / 10 * 16 + v % 10) else UInt32.ofNat v

/-- The reading `T` seconds after a midnight. -/
def reading (sb : UInt32) (T : Nat) : SystemTime :=
  cmostime sb ⟨register sb (T % 60), register sb (T / 60 % 60), register sb (T / 3600 % 24)⟩

/-- `CONV` reads BCD. -/
theorem conv_bcd {v : Nat} (hv : v < 60) :
    conv (UInt32.ofNat (v / 10 * 16 + v % 10)) = UInt32.ofNat v := by
  have hall : ∀ v < 60, conv (UInt32.ofNat (v / 10 * 16 + v % 10)) = UInt32.ofNat v := by decide
  exact hall v hv

/-- `cmostime` gives the time of day in both modes of the clock. -/
theorem reading_eq (sb : UInt32) (T : Nat) :
    reading sb T =
      ⟨UInt32.ofNat (T % 60), UInt32.ofNat (T / 60 % 60), UInt32.ofNat (T / 3600 % 24)⟩ := by
  unfold reading cmostime register
  split_ifs with hbcd
  · rw [conv_bcd (Nat.mod_lt _ (by decide)), conv_bcd (Nat.mod_lt _ (by decide)),
      conv_bcd (Nat.lt_trans (Nat.mod_lt _ (by decide)) (by decide))]
  · rfl

/-! ### The loop -/

theorem split_ofNat {n : Nat} (hn : n < 86400) :
    split (Int32.ofNat n) =
      ⟨Int32.ofNat (n / 3600), Int32.ofNat (n / 60 % 60), Int32.ofNat (n % 60)⟩ := by
  have hh : Int32.ofNat n / 3600 = Int32.ofNat (n / 3600) :=
    (Int32.ofNat_div (by omega) (by decide)).symm
  have hrest : Int32.ofNat n - Int32.ofNat (n / 3600) * 3600 = Int32.ofNat (n % 3600) := by
    have hmul : Int32.ofNat (n / 3600) * 3600 = Int32.ofNat (n / 3600 * 3600) :=
      (Int32.ofNat_mul ..).symm
    rw [hmul, ← Int32.ofNat_sub _ _ (by omega)]
    congr 1
    omega
  have hm : Int32.ofNat (n % 3600) / 60 = Int32.ofNat (n / 60 % 60) := by
    have hdiv : Int32.ofNat (n % 3600) / 60 = Int32.ofNat (n % 3600 / 60) :=
      (Int32.ofNat_div (by omega) (by decide)).symm
    rw [hdiv]
    congr 1
    omega
  have hs : Int32.ofNat (n % 3600) - Int32.ofNat (n / 60 % 60) * 60 = Int32.ofNat (n % 60) := by
    have hmul : Int32.ofNat (n / 60 % 60) * 60 = Int32.ofNat (n / 60 % 60 * 60) :=
      (Int32.ofNat_mul ..).symm
    rw [hmul, ← Int32.ofNat_sub _ _ (by omega)]
    congr 1
    omega
  unfold split
  simp only [hh, hrest, hm, hs]

theorem ofNat_eq_add_iff {a b c : Nat} (ha : a < 2 ^ 31) (hb : b < 2 ^ 30) (hc : c < 2 ^ 30) :
    UInt32.ofNat a = UInt32.ofNat b + (Int32.ofNat c).toUInt32 ↔ a = b + c := by
  rw [Int32.toUInt32_ofNat', ← UInt32.ofNat_add, ← UInt32.toNat_inj,
    UInt32.toNat_ofNat_of_lt' (Nat.lt_trans ha (by decide)),
    UInt32.toNat_ofNat_of_lt' (Nat.lt_trans (Nat.add_lt_add hb hc) (by decide))]

/-- The exit test, as a statement about the fields. -/
theorem exits_iff (sb : UInt32) {n : Nat} (hn : n < 86400) (T T' : Nat) :
    Exits (reading sb T) (reading sb T') (split (Int32.ofNat n)) ↔
      T' / 3600 % 24 = T / 3600 % 24 + n / 3600 ∧ T' / 60 % 60 = T / 60 % 60 + n / 60 % 60 ∧
        T' % 60 = T % 60 + n % 60 := by
  rw [Exits, reading_eq, reading_eq, split_ofNat hn]
  dsimp only
  rw [ofNat_eq_add_iff (by omega) (by omega) (by omega),
    ofNat_eq_add_iff (by omega) (by omega) (by omega),
    ofNat_eq_add_iff (by omega) (by omega) (by omega)]

section Loop

variable {clock : Nat → SystemTime} {time1 : SystemTime} {d : Delay}

/-- The loop ends with the first reading that passes the test. -/
theorem waitLoop_eq_some_iff {fuel k m : Nat} :
    waitLoop clock time1 d fuel k = some m ↔
      k ≤ m ∧ m < k + fuel ∧ Exits time1 (clock m) d ∧
        ∀ j, k ≤ j → j < m → ¬ Exits time1 (clock j) d := by
  induction fuel generalizing k with
  | zero =>
      rw [waitLoop]
      constructor
      · intro h
        cases h
      · intro h
        obtain ⟨hle, hlt, -⟩ := h
        omega
  | succ fuel ih =>
      rw [waitLoop]
      split_ifs with hexit
      · constructor
        · intro h
          obtain rfl := Option.some.inj h
          exact ⟨Nat.le_refl k, by omega, hexit, fun j hle hlt => by omega⟩
        · intro h
          obtain ⟨hle, -, -, hfirst⟩ := h
          rcases Nat.eq_or_lt_of_le hle with rfl | hlt
          · rfl
          · exact absurd hexit (hfirst k (Nat.le_refl k) hlt)
      · rw [ih]
        constructor
        · intro h
          obtain ⟨hle, hlt, hm, hfirst⟩ := h
          refine ⟨by omega, by omega, hm, fun j hj hjm => ?_⟩
          rcases Nat.eq_or_lt_of_le hj with rfl | hj
          · exact hexit
          · exact hfirst j hj hjm
        · intro h
          obtain ⟨hle, hlt, hm, hfirst⟩ := h
          rcases Nat.eq_or_lt_of_le hle with rfl | hle
          · exact absurd hm hexit
          · exact ⟨hle, by omega, hm, fun j hj hjm => hfirst j (by omega) hjm⟩

end Loop

/-! ### When it ends -/

/-- The seconds and the minutes need not be carried over. -/
def NoCarry (m₀ s₀ n : Nat) : Prop := s₀ + n % 60 < 60 ∧ m₀ + n / 60 % 60 < 60

/-- The reading `n` seconds after `T` passes the exit test and no earlier one
from `T` on does. -/
def WakesAfter (sb : UInt32) (T : Nat) (n : Int32) (k : Nat) : Prop :=
  Exits (reading sb T) (reading sb (T + k)) (split n) ∧
    ∀ j < k, ¬ Exits (reading sb T) (reading sb (T + j)) (split n)

theorem wakesAfter_iff (sb : UInt32) {h₀ m₀ s₀ n : Nat} (hh : h₀ < 24) (hm : m₀ < 60)
    (hs : s₀ < 60) (hday : h₀ * 3600 + m₀ * 60 + s₀ + n < 86400) :
    WakesAfter sb (h₀ * 3600 + m₀ * 60 + s₀) (Int32.ofNat n) n ↔ NoCarry m₀ s₀ n := by
  have hn : n < 86400 := by omega
  unfold WakesAfter
  simp only [exits_iff sb hn]
  constructor
  · intro h
    obtain ⟨⟨-, hmin, hsec⟩, -⟩ := h
    exact ⟨by omega, by omega⟩
  · intro h
    obtain ⟨hsec, hmin⟩ := h
    refine ⟨⟨by omega, by omega, by omega⟩, fun j hj => ?_⟩
    intro h
    obtain ⟨hhour', hmin', hsec'⟩ := h
    omega

/-- **`set_sleep` wakes up after `n` seconds** exactly if no field has to be
carried over; otherwise its loop does not end, on no day. -/
theorem set_sleep_iff (sb : UInt32) (h₀ m₀ s₀ : Nat) (n : Int32) (hh : h₀ < 24) (hm : m₀ < 60)
    (hs : s₀ < 60) (hn : 0 ≤ n) (hday : h₀ * 3600 + m₀ * 60 + s₀ + n.toInt < 86400) :
    (WakesAfter sb (h₀ * 3600 + m₀ * 60 + s₀) n n.toNatClampNeg ↔
      NoCarry m₀ s₀ n.toNatClampNeg) ∧
    ((∃ fuel, sysSetSleep (fun k => reading sb (h₀ * 3600 + m₀ * 60 + s₀ + k)) n fuel =
      some n.toNatClampNeg) ↔ NoCarry m₀ s₀ n.toNatClampNeg) ∧
    (¬ NoCarry m₀ s₀ n.toNatClampNeg →
      ∀ fuel, sysSetSleep (fun k => reading sb (h₀ * 3600 + m₀ * 60 + s₀ + k)) n fuel = none) := by
  obtain ⟨v, hv⟩ : ∃ v : Nat, n.toInt = v := Int.eq_ofNat_of_zero_le (by
    rw [Int32.le_iff_toInt_le] at hn
    simpa using hn)
  obtain rfl : n = Int32.ofNat v := by
    rw [← Int32.toInt_inj, hv, Int32.toInt_ofNat_of_lt (by omega)]
  have hclamp : (Int32.ofNat v).toNatClampNeg = v := by
    rw [← Int32.toNat_toInt, hv, Int.toNat_natCast]
  have hday' : h₀ * 3600 + m₀ * 60 + s₀ + v < 86400 := by omega
  rw [hclamp]
  have hwake := wakesAfter_iff sb hh hm hs hday'
  refine ⟨hwake, ?_, fun hcarry fuel => ?_⟩
  · rw [← hwake]
    unfold sysSetSleep WakesAfter
    simp only [waitLoop_eq_some_iff, Nat.add_zero, Nat.zero_le, true_and, forall_const]
    constructor
    · intro h
      obtain ⟨fuel, -, hexit, hfirst⟩ := h
      exact ⟨hexit, fun j hj => hfirst j hj⟩
    · intro h
      obtain ⟨hexit, hfirst⟩ := h
      exact ⟨v + 1, by omega, hexit, fun j hj => hfirst j hj⟩
  · by_contra hsome
    obtain ⟨k, hk⟩ := Option.ne_none_iff_exists'.mp hsome
    obtain ⟨-, -, hexit, -⟩ := waitLoop_eq_some_iff.mp hk
    obtain ⟨-, hmin, hsec⟩ := (exits_iff sb (by omega) _ _).mp hexit
    exact hcarry ⟨by omega, by omega⟩

/-- Five seconds from 10:20:30. -/
theorem set_sleep_five : WakesAfter 0 (10 * 3600 + 20 * 60 + 30) 5 5 :=
  (set_sleep_iff 0 10 20 30 5 (by decide) (by decide) (by decide) (by decide) (by decide)).1.mpr
    ⟨by decide, by decide⟩

/-- One second from 0:00:59: the reading after it fails the test. -/
theorem set_sleep_fails : ¬ WakesAfter 0 59 1 1 := by
  intro h
  obtain ⟨hexit, -⟩ := h
  exact absurd hexit (by decide +kernel)

end OsCourse.Clock
