import OsCourse.Pipes.Model

/-!
# OsCourse.Pipes.Fifo

A pipe is a queue of at most `PIPESIZE` bytes: `Rep p stored returned` says that
the buffer of `p` is the ring of `OsCourse.Lib.Ring` whose positions, not
wrapped, are the numbers of bytes stored and returned so far, and that what it
holds is what was stored and not returned.

`store` and `fetch`, the two loops, are followed byte by byte; `Inv` adds the
references of the two files, from which it follows that nobody is in a call on
a pipe that is gone.
-/

namespace OsCourse.Pipes

open OsCourse.Lib

/-! ### One pipe and the bytes that went through it -/

/-- `p` has seen the bytes `stored` come and the bytes `returned` go. -/
structure Rep (p : Pipe) (stored returned : List UInt8) : Prop where
  nwrite : p.nwrite = UInt32.ofNat stored.length
  nread : p.nread = UInt32.ofNat returned.length
  room : stored.length ≤ returned.length + PIPESIZE
  queue : stored = returned ++ window p.data returned.length stored.length

namespace Rep

variable {p : Pipe} {stored returned : List UInt8}

theorem le (h : Rep p stored returned) : returned.length ≤ stored.length := by
  have hlen := congrArg List.length h.queue
  rw [List.length_append] at hlen
  omega

/-- The number of bytes in the buffer, from the wrapped counters. -/
theorem toNat_sub (h : Rep p stored returned) :
    (p.nwrite - p.nread).toNat = stored.length - returned.length := by
  have hle := h.le
  have hroom : stored.length ≤ returned.length + 512 := h.room
  rw [h.nwrite, h.nread, UInt32.toNat_sub, UInt32.toNat_ofNat', UInt32.toNat_ofNat']
  omega

/-- The buffer is empty iff every byte stored has been returned. -/
theorem empty_iff (h : Rep p stored returned) : p.empty = true ↔ stored.length = returned.length := by
  have hle := h.le
  have hroom : stored.length ≤ returned.length + 512 := h.room
  rw [Pipe.empty, beq_iff_eq, h.nread, h.nwrite, ← UInt32.toNat_inj, UInt32.toNat_ofNat',
    UInt32.toNat_ofNat', eq_comm]
  exact wrap_eq_iff hle (by omega)

/-- The buffer is full iff it holds `PIPESIZE` bytes. -/
theorem full_iff (h : Rep p stored returned) :
    p.full = true ↔ stored.length = returned.length + PIPESIZE := by
  have hle := h.le
  have hroom : stored.length ≤ returned.length + 512 := h.room
  rw [Pipe.full, beq_iff_eq, h.nread, h.nwrite, ← UInt32.toNat_inj, UInt32.toNat_add,
    UInt32.toNat_ofNat', UInt32.toNat_ofNat']
  constructor
  · intro heq
    have hsum : (returned.length + 512) % 2 ^ 32 = stored.length % 2 ^ 32 := by
      rw [heq, Nat.mod_add_mod]
      rfl
    exact ((wrap_eq_iff (j := stored.length) hroom (by omega)).mp hsum).symm
  · intro heq
    rw [heq, Nat.mod_add_mod]
    rfl

theorem eq_of_empty (h : Rep p stored returned) (he : p.empty = true) : returned = stored := by
  have hq := h.queue
  rw [h.empty_iff.mp he, window_self, List.append_nil] at hq
  exact hq.symm

/-- `buffered`, which the C counters define, is what was stored and not returned. -/
theorem queue_buffered (h : Rep p stored returned) : stored = returned ++ p.buffered := by
  have hbuf : p.buffered = window p.data returned.length stored.length := by
    rw [Pipe.buffered, h.toNat_sub, window, List.range'_eq_map_range, List.map_map]
    refine List.map_congr_left fun j _ => ?_
    rw [h.nread, ← UInt32.ofNat_add, UInt32.toNat_ofNat', Function.comp_apply]
    exact cell_wrap p.data (by decide) _
  rw [hbuf]
  exact h.queue

/-- Storing a byte in a buffer that is not full. -/
theorem push (h : Rep p stored returned) (hfull : p.full = false) (x : UInt8) :
    Rep (p.push x) (stored ++ [x]) returned where
  nwrite := by
    rw [List.length_append, List.length_singleton, UInt32.ofNat_add, ← h.nwrite]
    rfl
  nread := h.nread
  room := by
    have hne : stored.length ≠ returned.length + 512 := by
      rw [Ne, ← h.full_iff, hfull]
      exact Bool.false_ne_true
    have hroom : stored.length ≤ returned.length + 512 := h.room
    show (stored ++ [x]).length ≤ returned.length + 512
    rw [List.length_append, List.length_singleton]
    omega
  queue := by
    have hne : stored.length ≠ returned.length + 512 := by
      rw [Ne, ← h.full_iff, hfull]
      exact Bool.false_ne_true
    have hroom : stored.length ≤ returned.length + 512 := h.room
    have hcell : (p.push x).data = setCell p.data stored.length x := by
      rw [Pipe.push, h.nwrite, UInt32.toNat_ofNat']
      exact setCell_wrap p.data (by decide) _ _
    rw [hcell, List.length_append, List.length_singleton,
      window_push p.data h.le (show stored.length < returned.length + 512 by omega),
        ← List.append_assoc, ← h.queue]

/-- Returning the byte in front of a buffer that is not empty. -/
theorem pop (h : Rep p stored returned) (hempty : p.empty = false) :
    Rep p.pop stored (returned ++ [p.front]) := by
  have hne : stored.length ≠ returned.length := by
    rw [Ne, ← h.empty_iff, hempty]
    exact Bool.false_ne_true
  have hle := h.le
  have hroom : stored.length ≤ returned.length + 512 := h.room
  refine ⟨h.nwrite, ?_, ?_, ?_⟩
  · rw [List.length_append, List.length_singleton, UInt32.ofNat_add, ← h.nread]
    rfl
  · show stored.length ≤ (returned ++ [p.front]).length + 512
    rw [List.length_append, List.length_singleton]
    omega
  · have hfront : p.front = cell p.data returned.length := by
      rw [Pipe.front, h.nread, UInt32.toNat_ofNat']
      exact cell_wrap p.data (by decide) _
    have hq := h.queue
    rw [window_pop p.data (by omega), ← hfront] at hq
    rw [List.length_append, List.length_singleton, List.append_assoc]
    exact hq

/-- The queue does not depend on who has the ends open. -/
theorem shut (h : Rep p stored returned) (w : Bool) : Rep (p.shut w) stored returned := by
  cases w <;> exact ⟨h.nwrite, h.nread, h.room, h.queue⟩

end Rep

theorem rep_init (junk : Vector UInt8 PIPESIZE) : Rep (.init junk) [] [] where
  nwrite := rfl
  nread := rfl
  room := Nat.zero_le _
  queue := by simp

/-! ### The two loops -/

/-- The loop of `pipewrite` stores the bytes from `i` to where it stops. -/
theorem store_spec (addr : Nat → UInt8) {k i : Nat} {p : Pipe} {stored returned : List UInt8}
    (h : Rep p stored returned) :
    Rep (p.store addr k i).1 (stored ++ (List.range' i ((p.store addr k i).2 - i)).map addr)
        returned ∧
      i ≤ (p.store addr k i).2 ∧ (p.store addr k i).1.readopen = p.readopen ∧
      (p.store addr k i).1.writeopen = p.writeopen := by
  induction k generalizing i p stored with
  | zero => simpa [Pipe.store] using h
  | succ k ih =>
      rw [Pipe.store]
      by_cases hfull : p.full = true
      · simpa [hfull] using h
      · rw [if_neg hfull]
        obtain ⟨hrep, hle, hr, hw⟩ := ih (i := i + 1) (h.push (by simpa using hfull) (addr i))
        refine ⟨?_, by omega, hr, hw⟩
        have hsucc : (Pipe.store addr k (i + 1) (p.push (addr i))).2 - i =
            (Pipe.store addr k (i + 1) (p.push (addr i))).2 - (i + 1) + 1 := by omega
        rw [hsucc, List.range'_succ, List.map_cons, ← List.singleton_append, ← List.append_assoc]
        exact hrep

/-- The loop of `piperead` returns the bytes it takes out, and at least one if
it may and there is one. -/
theorem fetch_spec {k : Nat} {p : Pipe} {stored returned : List UInt8}
    (h : Rep p stored returned) :
    Rep (p.fetch k).1 stored (returned ++ (p.fetch k).2) ∧
      ((p.fetch k).2 = [] → k = 0 ∨ p.empty = true) ∧
      (p.fetch k).1.readopen = p.readopen ∧ (p.fetch k).1.writeopen = p.writeopen := by
  induction k generalizing p returned with
  | zero => simpa [Pipe.fetch] using h
  | succ k ih =>
      rw [Pipe.fetch]
      by_cases hempty : p.empty = true
      · simpa [hempty] using h
      · rw [if_neg hempty]
        obtain ⟨hrep, -, hr, hw⟩ := ih (h.pop (by simpa using hempty))
        refine ⟨?_, by simp, hr, hw⟩
        rw [List.append_assoc] at hrep
        exact hrep

/-! ### All runs -/

variable {π : Type}

/-- Which file a call goes through, if the process is in one. -/
def Call.file : Call → Option Bool
  | .none => Option.none
  | .write .. => some true
  | .read .. => some false

/-- Is this end of the pipe open? -/
def Pipe.isOpen (p : Pipe) (writable : Bool) : Bool :=
  if writable then p.writeopen else p.readopen

/-- The invariant of all runs. -/
structure Inv (s : State π) : Prop where
  rep : ∀ p, s.pipe = some p → Rep p s.stored s.returned
  /-- Nothing is made up, also when the pipe is gone. -/
  lossless : s.returned <+: s.stored
  /-- A file counts its descriptors. -/
  ref : ∀ w, s.ref w = s.ofile.countP fun d => d.2 = w
  /-- A call goes through a file its process has open. -/
  caller : ∀ q w, (s.call q).file = some w → (q, w) ∈ s.ofile
  /-- The pipe is there as long as one of its files is, and knows which. -/
  alive : ∀ w, 0 < s.ref w → s.pipe.isSome
  ends : ∀ p, s.pipe = some p → ∀ w, p.isOpen w = true ↔ 0 < s.ref w

theorem inv_init (q₀ : π) (junk : Vector UInt8 PIPESIZE) : Inv (pipealloc q₀ junk) where
  rep := by
    intro p hp
    obtain rfl : Pipe.init junk = p := Option.some.inj hp
    exact rep_init junk
  lossless := List.nil_prefix
  ref := by
    intro w
    cases w <;> simp [pipealloc]
  caller := by simp [pipealloc, Call.file]
  alive := fun _ _ => rfl
  ends := by
    intro p hp w
    obtain rfl : Pipe.init junk = p := Option.some.inj hp
    cases w <;> simp [pipealloc, Pipe.isOpen, Pipe.init]

@[simp] theorem returned_ret [DecidableEq π] (s : State π) (q : π) (r : Return) :
    (s.ret q r).returned = s.returned ++ r.bytes := by
  simp [State.returned, State.ret, State.setCall]

namespace Inv

variable {s : State π} {q : π} {p p' : Pipe} {c : Call}

theorem ref_pos (h : Inv s) {w : Bool} (hq : (q, w) ∈ s.ofile) : 0 < s.ref w := by
  rw [h.ref, List.countP_pos_iff]
  exact ⟨(q, w), hq, by simp⟩

/-- Nobody is in a call on a pipe that is gone. -/
theorem pipe_of_call (h : Inv s) {w : Bool} (hq : (s.call q).file = some w) : s.pipe.isSome :=
  h.alive w (h.ref_pos (h.caller q w hq))

/-- A process moves, within the files it has open. -/
theorem calls (h : Inv s) {call : π → Call}
    (hcall : ∀ r w, (call r).file = some w → (r, w) ∈ s.ofile) : Inv { s with call } :=
  ⟨h.rep, h.lossless, h.ref, hcall, h.alive, h.ends⟩

/-- Bytes go into the pipe. -/
theorem storing (h : Inv s) (hp : s.pipe = some p) {bytes : List UInt8}
    (hrep : Rep p' (s.stored ++ bytes) s.returned) (hopen : ∀ w, p'.isOpen w = p.isOpen w) :
    Inv { s with pipe := some p', stored := s.stored ++ bytes } where
  rep := by
    intro p'' hp''
    obtain rfl : p' = p'' := Option.some.inj hp''
    exact hrep
  lossless := h.lossless.trans (List.prefix_append ..)
  ref := h.ref
  caller := h.caller
  alive := fun _ _ => rfl
  ends := by
    intro p'' hp'' w
    obtain rfl : p' = p'' := Option.some.inj hp''
    rw [hopen]
    exact h.ends p hp w

variable [DecidableEq π]

theorem setCall (h : Inv s) (hc : ∀ w, c.file = some w → (q, w) ∈ s.ofile) :
    Inv (s.setCall q c) := by
  refine h.calls fun r w hr => ?_
  by_cases hrq : r = q
  · subst hrq
    rw [Function.update_self] at hr
    exact hc w hr
  · rw [Function.update_of_ne hrq] at hr
    exact h.caller r w hr

omit [DecidableEq π] in
theorem wakeReaders (h : Inv s) : Inv s.wakeReaders := by
  refine h.calls fun r w hr => h.caller r w ?_
  cases hc : s.call r <;> simp only [hc] at hr <;> exact hr

omit [DecidableEq π] in
theorem wakeWriters (h : Inv s) : Inv s.wakeWriters := by
  refine h.calls fun r w hr => h.caller r w ?_
  cases hc : s.call r <;> simp only [hc] at hr <;> exact hr

/-- A call that hands out no bytes returns. -/
theorem ret (h : Inv s) {r : Return} (hr : r.bytes = []) : Inv (s.ret q r) := by
  have hsame : (s.ret q r).returned = s.returned := by rw [returned_ret, hr, List.append_nil]
  have hmove : Inv (s.setCall q .none) := h.setCall (fun w hw => by cases hw)
  refine ⟨fun p hp => ?_, ?_, h.ref, hmove.caller, h.alive, h.ends⟩
  · rw [hsame]
    exact h.rep p hp
  · rw [hsame]
    exact h.lossless

/-- Bytes come out of the pipe, and are returned. -/
theorem fetching (h : Inv s) (hp : s.pipe = some p) {r : Return}
    (hrep : Rep p' s.stored (s.returned ++ r.bytes)) (hopen : ∀ w, p'.isOpen w = p.isOpen w) :
    Inv ({ s with pipe := some p' }.ret q r) := by
  have hmove : Inv (s.setCall q .none) := h.setCall (fun w hw => by cases hw)
  refine ⟨?_, ?_, h.ref, hmove.caller, fun _ _ => rfl, ?_⟩
  · intro p'' hp''
    obtain rfl : p' = p'' := Option.some.inj hp''
    rw [returned_ret]
    exact hrep
  · rw [returned_ret]
    exact ⟨_, hrep.queue.symm⟩
  · intro p'' hp'' w
    obtain rfl : p' = p'' := Option.some.inj hp''
    rw [hopen]
    exact h.ends p hp w

theorem pipewrite (h : Inv s) (hp : s.pipe = some p) (hq : (q, true) ∈ s.ofile)
    (addr : Nat → UInt8) (n : Int) (i : Nat) : Inv (s.pipewrite q p addr n i) := by
  obtain ⟨hstore, -, hr, hw⟩ := store_spec addr (k := n.toNat - i) (i := i) (h.rep p hp)
  have hmid := h.storing hp hstore (fun w => by cases w <;> assumption)
  rw [State.pipewrite]
  split
  · split
    · exact hmid.ret rfl
    · refine hmid.wakeReaders.setCall fun w hw => ?_
      obtain rfl : true = w := Option.some.inj hw
      exact hq
  · exact hmid.wakeReaders.ret rfl

theorem piperead (h : Inv s) (hp : s.pipe = some p) (hq : (q, false) ∈ s.ofile) (n : Int) :
    Inv (s.piperead q p n) := by
  rw [State.piperead]
  split
  · split
    · exact h.ret rfl
    · refine h.setCall fun w hw => ?_
      obtain rfl : false = w := Option.some.inj hw
      exact hq
  · obtain ⟨hfetch, -, hr, hw⟩ := fetch_spec (k := n.toNat) (h.rep p hp)
    exact h.wakeWriters.fetching hp hfetch (fun w => by cases w <;> assumption)

omit [DecidableEq π] in
theorem filedup (h : Inv s) {w : Bool} (hq : (q, w) ∈ s.ofile) (q' : π) :
    Inv (s.filedup q' w) where
  rep := h.rep
  lossless := h.lossless
  ref := by
    intro v
    by_cases hv : v = w
    · subst hv
      simp [State.filedup, h.ref]
    · simp [State.filedup, h.ref, hv, Ne.symm hv]
  caller := fun r v hr => List.mem_cons_of_mem _ (h.caller r v hr)
  alive := by
    intro v hv
    by_cases hvw : v = w
    · subst hvw
      exact h.alive v (h.ref_pos hq)
    · have hold : 0 < s.ref v := by simpa [State.filedup, hvw] using hv
      exact h.alive v hold
  ends := by
    intro p hp v
    by_cases hvw : v = w
    · subst hvw
      have := h.ref_pos hq
      simp [State.filedup, h.ends p hp, this]
    · simp [State.filedup, h.ends p hp, hvw]

/-- Closing one end leaves the other as it was. -/
theorem isOpen_shut (p : Pipe) (w v : Bool) :
    (p.shut w).isOpen v = true ↔ v ≠ w ∧ p.isOpen v = true := by
  cases w <;> cases v <;> simp [Pipe.shut, Pipe.isOpen]

theorem fileclose (h : Inv s) {w : Bool} (hq : (q, w) ∈ s.ofile) (hcall : s.call q = .none)
    {t : State π} (ht : s.fileclose q w = some t) : Inv t := by
  have hpos := h.ref_pos hq
  have href : ∀ v, Function.update s.ref w (s.ref w - 1) v =
      (s.ofile.erase (q, w)).countP fun d => d.2 = v := by
    intro v
    have hcount := h.ref v
    rw [(List.perm_cons_erase hq).countP_eq, List.countP_cons] at hcount
    by_cases hv : v = w
    · subst hv
      simp [hcount]
    · simp [hv, Ne.symm hv, hcount]
  have hcaller : ∀ r v, (s.call r).file = some v → (r, v) ∈ s.ofile.erase (q, w) := by
    intro r v hr
    refine (List.mem_erase_of_ne ?_).mpr (h.caller r v hr)
    rintro heq
    obtain rfl : r = q := congrArg Prod.fst heq
    rw [hcall] at hr
    cases hr
  unfold State.fileclose at ht
  simp only [Function.update_self] at ht
  split at ht
  · next hmore =>
    -- other descriptors of the file are left
    obtain rfl := Option.some.inj ht
    refine ⟨h.rep, h.lossless, href, hcaller, fun _ _ => h.alive w hpos, fun p hp v => ?_⟩
    by_cases hv : v = w
    · subst hv
      simp [h.ends p hp, hpos, hmore]
    · simp [h.ends p hp, hv]
  · next hlast =>
    obtain ⟨p, hp, rfl⟩ := Option.map_eq_some_iff.mp ht
    have hends : ∀ v, (p.shut w).isOpen v = true ↔
        0 < Function.update s.ref w (s.ref w - 1) v := by
      intro v
      rw [isOpen_shut, h.ends p hp]
      by_cases hv : v = w
      · subst hv
        simp [hlast]
      · simp [hv]
    have hmid : Inv { s with
        pipe := if (p.shut w).readopen || (p.shut w).writeopen then some (p.shut w) else none
        ref := Function.update s.ref w (s.ref w - 1), ofile := s.ofile.erase (q, w) } := by
      refine ⟨?_, h.lossless, href, hcaller, ?_, ?_⟩
      · intro p' hp'
        simp only [Option.ite_none_right_eq_some, Option.some.injEq] at hp'
        obtain ⟨-, rfl⟩ := hp'
        exact (h.rep p hp).shut w
      · intro v hv
        have hopen := (hends v).mpr hv
        cases v <;> simp_all [Pipe.isOpen]
      · intro p' hp'
        simp only [Option.ite_none_right_eq_some, Option.some.injEq] at hp'
        obtain ⟨-, rfl⟩ := hp'
        exact hends
    cases w
    · exact hmid.wakeWriters
    · exact hmid.wakeReaders

/-- One step. -/
theorem next (h : Inv s) {a : Act π} {t : State π} (ht : step s a = some t) : Inv t := by
  cases a with
  | write q addr n =>
      simp only [step] at ht
      split at ht
      · simp only [Option.ite_none_right_eq_some, Option.map_eq_some_iff] at ht
        obtain ⟨hq, p, hp, rfl⟩ := ht
        exact h.pipewrite hp hq addr n 0
      · cases ht
  | read q n =>
      simp only [step] at ht
      split at ht
      · simp only [Option.ite_none_right_eq_some, Option.map_eq_some_iff] at ht
        obtain ⟨hq, p, hp, rfl⟩ := ht
        exact h.piperead hp hq n
      · cases ht
  | resume q =>
      simp only [step] at ht
      split at ht
      · next addr n i hc =>
        obtain ⟨p, hp, rfl⟩ := Option.map_eq_some_iff.mp ht
        exact h.pipewrite hp (h.caller q true (by rw [hc]; rfl)) addr n i
      · next n hc =>
        obtain ⟨p, hp, rfl⟩ := Option.map_eq_some_iff.mp ht
        exact h.piperead hp (h.caller q false (by rw [hc]; rfl)) n
      · cases ht
  | dup q q' w =>
      simp only [step] at ht
      split at ht
      · simp only [Option.ite_none_right_eq_some, Option.some.injEq] at ht
        obtain ⟨hq, rfl⟩ := ht
        exact h.filedup hq q'
      · cases ht
  | close q w =>
      simp only [step] at ht
      split at ht
      · next hc =>
        rw [Option.ite_none_right_eq_some] at ht
        exact h.fileclose ht.1 hc ht.2
      · cases ht
  | kill q =>
      obtain rfl := Option.some.inj ht
      refine ⟨h.rep, h.lossless, h.ref, fun r w hr => h.caller r w ?_, h.alive, h.ends⟩
      dsimp only at hr
      by_cases hrq : r = q
      · subst hrq
        rw [Function.update_self] at hr
        cases hc : s.call r <;> simp only [hc] at hr <;> exact hr
      · rwa [Function.update_of_ne hrq] at hr

end Inv

variable [DecidableEq π]

theorem reach_inv {q₀ : π} {junk : Vector UInt8 PIPESIZE} {s : State π}
    (hs : (machine q₀ junk).Reach s) : Inv s :=
  hs.induction (inv_init q₀ junk) fun _ _ _ h ht => h.next ht

/-- `kfree` is called when nobody is in a call: a sleeper that is woken up, or
sees a kill, finds the pipe. -/
theorem call_alive {q₀ : π} {junk : Vector UInt8 PIPESIZE} {s : State π}
    (hs : (machine q₀ junk).Reach s) {q : π} (hq : (s.call q).file ≠ none) : s.pipe.isSome := by
  obtain ⟨w, hw⟩ := Option.ne_none_iff_exists'.mp hq
  exact (reach_inv hs).pipe_of_call hw

/-- Only `piperead` returns from a read, and with 0 only on an empty pipe
without writers. -/
theorem piperead_zero {s : State π} {p : Pipe} {q r : π} {n m : Int} {bytes : List UInt8}
    (hrep : Rep p s.stored s.returned) (hm : 0 < m)
    (h : (s.piperead q p n).returns = s.returns ++ [(r, .read m 0 bytes)]) :
    p.writeopen = false ∧ p.empty = true := by
  rw [State.piperead] at h
  split at h
  · split at h
    · have hlast := List.append_cancel_left h
      simp at hlast
    · simp [State.setCall] at h
  · next hcond =>
    have hlast := List.append_cancel_left h
    simp only [List.cons.injEq, Prod.mk.injEq, Return.read.injEq, and_true] at hlast
    obtain ⟨-, rfl, hzero, -⟩ := hlast
    have hnil : (p.fetch n.toNat).2 = [] := List.length_eq_zero_iff.mp (by exact_mod_cast hzero)
    have hempty : p.empty = true := by
      rcases (fetch_spec (k := n.toNat) hrep).2.1 hnil with hn | he
      · omega
      · exact he
    exact ⟨by simpa [hempty] using hcond, hempty⟩

theorem pipewrite_returns (s : State π) (q : π) (p : Pipe) (addr : Nat → UInt8) (n : Int)
    (i : Nat) : (s.pipewrite q p addr n i).returns = s.returns ∨
      ∃ r, (s.pipewrite q p addr n i).returns = s.returns ++ [(q, .write n r)] := by
  simp only [State.pipewrite]
  split
  · split
    · exact .inr ⟨-1, rfl⟩
    · exact .inl rfl
  · exact .inr ⟨n, rfl⟩

/-- A write returns no read. -/
theorem pipewrite_no_read {s : State π} {p : Pipe} {q r : π} {addr : Nat → UInt8} {n m k : Int}
    {i : Nat} {bytes : List UInt8} :
    (s.pipewrite q p addr n i).returns ≠ s.returns ++ [(r, .read m k bytes)] := by
  intro h
  rcases pipewrite_returns s q p addr n i with hsame | ⟨v, hlast⟩
  · rw [hsame] at h
    simp at h
  · rw [hlast] at h
    simp at h

theorem fileclose_returns {s t : State π} {q : π} {w : Bool} (h : s.fileclose q w = some t) :
    t.returns = s.returns := by
  unfold State.fileclose at h
  simp only [Function.update_self] at h
  split at h
  · obtain rfl := Option.some.inj h
    rfl
  · obtain ⟨p, -, rfl⟩ := Option.map_eq_some_iff.mp h
    cases w <;> rfl

/-- **A pipe is a lossless queue.** In every reachable state the buffer holds at
most `PIPESIZE` bytes, what was stored is what was returned followed by what the
buffer holds, and a read of a positive number of bytes that returns 0 does so on
a pipe whose write end is closed and with every byte stored returned. -/
theorem pipe_fifo_lossless (q₀ : π) (junk : Vector UInt8 PIPESIZE) (s : State π)
    (hs : (machine q₀ junk).Reach s) :
    (∀ p, s.pipe = some p →
      (p.nwrite - p.nread).toNat ≤ PIPESIZE ∧ s.stored = s.returned ++ p.buffered) ∧
    s.returned <+: s.stored ∧
    ∀ a t q n bytes, 0 < n → step s a = some t → t.returns = s.returns ++ [(q, .read n 0 bytes)] →
      (∃ p, s.pipe = some p ∧ p.writeopen = false) ∧ s.returned = s.stored := by
  have hinv := reach_inv hs
  refine ⟨fun p hp => ?_, hinv.lossless, fun a t q n bytes hn ht hret => ?_⟩
  · have hrep := hinv.rep p hp
    refine ⟨?_, hrep.queue_buffered⟩
    have hroom := hrep.room
    rw [hrep.toNat_sub]
    omega
  · have hread : ∃ q' p n', s.pipe = some p ∧ t = s.piperead q' p n' := by
      -- no other step returns from a read
      cases a with
      | write q' addr n' =>
          simp only [step] at ht
          split at ht
          · simp only [Option.ite_none_right_eq_some, Option.map_eq_some_iff] at ht
            obtain ⟨-, p, hp, rfl⟩ := ht
            exact absurd hret pipewrite_no_read
          · cases ht
      | read q' n' =>
          simp only [step] at ht
          split at ht
          · simp only [Option.ite_none_right_eq_some, Option.map_eq_some_iff] at ht
            obtain ⟨-, p, hp, rfl⟩ := ht
            exact ⟨q', p, n', hp, rfl⟩
          · cases ht
      | resume q' =>
          simp only [step] at ht
          split at ht
          · obtain ⟨p, hp, rfl⟩ := Option.map_eq_some_iff.mp ht
            exact absurd hret pipewrite_no_read
          · next n' _ =>
            obtain ⟨p, hp, rfl⟩ := Option.map_eq_some_iff.mp ht
            exact ⟨q', p, n', hp, rfl⟩
          · cases ht
      | dup q' q'' w =>
          simp only [step] at ht
          split at ht
          · simp only [Option.ite_none_right_eq_some, Option.some.injEq] at ht
            obtain ⟨-, rfl⟩ := ht
            simp [State.filedup] at hret
          · cases ht
      | close q' w =>
          simp only [step] at ht
          split at ht
          · rw [Option.ite_none_right_eq_some] at ht
            have hsame := fileclose_returns ht.2
            rw [hsame] at hret
            simp at hret
          · cases ht
      | kill q' =>
          obtain rfl := Option.some.inj ht
          simp at hret
    obtain ⟨q', p, n', hp, rfl⟩ := hread
    obtain ⟨hw, hempty⟩ := piperead_zero (hinv.rep p hp) hn hret
    exact ⟨⟨p, hp, hw⟩, (hinv.rep p hp).eq_of_empty hempty⟩

/-- A process stores three bytes, closes the write end and reads: first the
bytes, then the end. -/
theorem pipe_fifo_lossless_end : ∃ s t : State Bool,
    s.returned = [7, 8, 9] ∧ step s (.read false 3) = some t ∧
      ((∃ p, s.pipe = some p ∧ p.writeopen = false) ∧ s.returned = s.stored) := by
  have hrun : ∃ s, (machine false (.replicate 512 0)).exec (pipealloc false (.replicate 512 0))
      [.write false (fun i => UInt8.ofNat (7 + i)) 3, .close false true, .read false 3] = some s ∧
        s.returned = [7, 8, 9] ∧ ∃ t, step s (.read false 3) = some t ∧
          t.returns = s.returns ++ [(false, .read 3 0 [])] :=
    ⟨_, rfl, by decide, _, rfl, by decide⟩
  obtain ⟨s, hs, hbytes, t, ht, hret⟩ := hrun
  exact ⟨s, t, hbytes, ht,
    (pipe_fifo_lossless false (.replicate 512 0) s ⟨_, hs⟩).2.2 (.read false 3) t false 3 []
      (by decide) ht hret⟩

end OsCourse.Pipes
