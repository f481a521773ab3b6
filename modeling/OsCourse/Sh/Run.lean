import OsCourse.Files.Fds
import OsCourse.Sh.Print

/-!
# OsCourse.Sh.Run

`runcmd` (`sh.c`): the processes of a command and their descriptors.

A process of a command is at a place of its tree, which it comes to by the parts it has gone
down. `runcmd` gives what the processes come to, in no order of time: the calls of `exec`
and of `wait`, with the descriptors the process has there. What may fail in the kernel
fails by `Kernel`; `exit` and `panic` of a process are its end.

The shell moves files to 0 and 1 with `close` and `dup`, and depends on it that the kernel
gives the first free descriptor. `plumb` says what is meant: every part of a command has an
input, an output and an error file. They agree (`runcmd_plumb`), and so no process keeps an
end of a pipe that is not its own (`runcmd_pipes`): a reader sees the end of its input when
the processes on the left are gone.
-/

namespace OsCourse.Sh

open OsCourse.Files

/-! ### The kernel -/

/-- The parts of a command. -/
inductive Part
  | sub
  | left
  | right
  deriving DecidableEq, Repr

/-- A place in the tree of the command. -/
abbrev Place : Type := List Part

/-- An open file, by how it came to be. -/
inductive File (W : Type)
  /-- It was open in the shell. -/
  | given (n : Nat)
  /-- `open` of the redirection at the place. -/
  | opened (file : W) (mode : Nat) (place : Place)
  /-- `p[0]` of the pipe at the place. -/
  | readEnd (place : Place)
  /-- `p[1]` of the pipe at the place. -/
  | writeEnd (place : Place)
  deriving DecidableEq, Repr

/-- Which calls find what they need in the kernel. -/
structure Kernel (W : Type) where
  /-- `open`, apart from the descriptor. -/
  opens : W → Nat → Place → Bool
  /-- `pipealloc`. -/
  pipes : Place → Bool
  /-- `fork`, for the part. -/
  forks : Place → Part → Bool

variable {W : Type}

/-- `close`. -/
def close (ofile : Fds (File W)) (fd : Nat) : Fds (File W) := ofile.set fd none

/-- `open`: the descriptors after it, if it does not return -1. -/
def sysOpen (k : Kernel W) (file : W) (mode : Nat) (pl : Place) (ofile : Fds (File W)) :
    Option (Fds (File W)) :=
  if k.opens file mode pl then (fdalloc ofile (.opened file mode pl)).map Prod.snd else none

/-- `dup`, with what it returns left aside. -/
def dup (ofile : Fds (File W)) (fd : Nat) : Fds (File W) :=
  match argfd ofile fd with
  | none => ofile
  | some f =>
      match fdalloc ofile f with
      | none => ofile
      | some r => r.2

/-- `pipe`: `p[0]`, `p[1]` and the descriptors after it, if it does not return -1. -/
def sysPipe (k : Kernel W) (pl : Place) (ofile : Fds (File W)) :
    Option (Nat × Nat × Fds (File W)) :=
  if k.pipes pl then
    match fdalloc ofile (.readEnd pl) with
    | none => none
    | some r =>
        match fdalloc r.2 (.writeEnd pl) with
        | none => none
        | some w => some (r.1, w.1, w.2)
  else none

/-! ### The code -/

/-- What a process comes to. -/
inductive Call (W : Type)
  | exec (argv : List W)
  | wait
  deriving DecidableEq, Repr

/-- A call of a process at a place, with what it has as its files. -/
structure Event (W D : Type) where
  place : Place
  call : Call W
  files : D
  deriving DecidableEq, Repr

/-- `runcmd`. -/
def runcmd (k : Kernel W) : Cmd W → Place → Fds (File W) → List (Event W (Fds (File W)))
  | .exec argv, pl, ofile => if argv = [] then [] else [⟨pl, .exec argv, ofile⟩]
  | .redir cmd file mode fd, pl, ofile =>
      match sysOpen k file mode pl (close ofile fd) with
      | none => []
      | some ofile => runcmd k cmd (pl ++ [.sub]) ofile
  | .list left right, pl, ofile =>
      if k.forks pl .left then
        runcmd k left (pl ++ [.left]) ofile ++
          ⟨pl, .wait, ofile⟩ :: runcmd k right (pl ++ [.right]) ofile
      else []
  | .pipe left right, pl, ofile =>
      match sysPipe k pl ofile with
      | none => []
      | some (p0, p1, ofile) =>
          if k.forks pl .left then
            runcmd k left (pl ++ [.left]) (close (close (dup (close ofile 1) p1) p0) p1) ++
              if k.forks pl .right then
                runcmd k right (pl ++ [.right]) (close (close (dup (close ofile 0) p0) p0) p1) ++
                  [⟨pl, .wait, close (close ofile p0) p1⟩, ⟨pl, .wait, close (close ofile p0) p1⟩]
              else []
          else []
  | .back cmd, pl, ofile =>
      if k.forks pl .sub then runcmd k cmd (pl ++ [.sub]) ofile else []

/-! ### What is meant -/

/-- The files of a part of a command. -/
structure Std (W : Type) where
  input : File W
  output : File W
  error : File W
  deriving DecidableEq, Repr

/-- The descriptors 0, 1 and 2, and no more. -/
def Std.ofile (s : Std W) : Fds (File W) :=
  [some s.input, some s.output, some s.error] ++ List.replicate 13 none

/-- The files of the parts. -/
def plumb (k : Kernel W) : Cmd W → Place → Std W → List (Event W (Std W))
  | .exec argv, pl, s => if argv = [] then [] else [⟨pl, .exec argv, s⟩]
  | .redir cmd file mode fd, pl, s =>
      if k.opens file mode pl then
        plumb k cmd (pl ++ [.sub])
          (if fd = 0 then { s with input := .opened file mode pl }
            else { s with output := .opened file mode pl })
      else []
  | .list left right, pl, s =>
      if k.forks pl .left then
        plumb k left (pl ++ [.left]) s ++ ⟨pl, .wait, s⟩ :: plumb k right (pl ++ [.right]) s
      else []
  | .pipe left right, pl, s =>
      if k.pipes pl ∧ k.forks pl .left then
        plumb k left (pl ++ [.left]) { s with output := .writeEnd pl } ++
          if k.forks pl .right then
            plumb k right (pl ++ [.right]) { s with input := .readEnd pl } ++
              [⟨pl, .wait, s⟩, ⟨pl, .wait, s⟩]
          else []
      else []
  | .back cmd, pl, s => if k.forks pl .sub then plumb k cmd (pl ++ [.sub]) s else []

/-- The event with descriptors. -/
def Event.ofile (e : Event W (Std W)) : Event W (Fds (File W)) :=
  ⟨e.place, e.call, e.files.ofile⟩

/-! ### They agree -/

/-- `open` behind `close`: the file is where the other one was. -/
theorem sysOpen_close (k : Kernel W) (file : W) (mode : Nat) (pl : Place) (s : Std W) {fd : Nat}
    (hfd : fd = 0 ∨ fd = 1) :
    sysOpen k file mode pl (close s.ofile fd) =
      if k.opens file mode pl then
        some (if fd = 0 then { s with input := .opened file mode pl }
          else { s with output := .opened file mode pl } : Std W).ofile
      else none := by
  rcases hfd with rfl | rfl <;> rw [sysOpen] <;> by_cases hopen : k.opens file mode pl <;>
    simp only [hopen] <;> rfl

/-- The descriptors with the ends of a pipe at 3 and 4. -/
def Std.piped (s : Std W) (pl : Place) : Fds (File W) :=
  (s.ofile.set 3 (some (.readEnd pl))).set 4 (some (.writeEnd pl))

/-- The ends of a pipe come to 3 and 4. -/
theorem sysPipe_std (k : Kernel W) (pl : Place) (s : Std W) :
    sysPipe k pl s.ofile =
      if k.pipes pl then some (3, 4, s.piped pl) else none := by
  rw [sysPipe]
  split_ifs <;> rfl

theorem piped_left (s : Std W) (pl : Place) :
    close (close (dup (close (s.piped pl) 1) 4) 3) 4 =
      { s with output := .writeEnd pl : Std W }.ofile := rfl

theorem piped_right (s : Std W) (pl : Place) :
    close (close (dup (close (s.piped pl) 0) 3) 3) 4 =
      { s with input := .readEnd pl : Std W }.ofile := rfl

theorem piped_parent (s : Std W) (pl : Place) : close (close (s.piped pl) 3) 4 = s.ofile := rfl

theorem runcmd_eq (k : Kernel W) {c : Cmd W} (h : c.Built) (pl : Place) (s : Std W) :
    runcmd k c pl s.ofile = (plumb k c pl s).map Event.ofile := by
  induction c generalizing pl s with
  | exec argv =>
      rw [runcmd, plumb]
      split_ifs <;> rfl
  | redir cmd file mode fd ih =>
      obtain ⟨hcmd, hfd⟩ := h
      rw [runcmd, plumb, sysOpen_close k file mode pl s (hfd.imp And.right And.right)]
      split_ifs
      · exact ih hcmd _ _
      · exact ih hcmd _ _
      · rfl
  | list left right ihl ihr =>
      rw [runcmd, plumb, ihl h.1, ihr h.2]
      split_ifs
      · rw [List.map_append, List.map_cons]
        rfl
      · rfl
  | pipe left right ihl ihr =>
      rw [runcmd, plumb, sysPipe_std]
      by_cases hpipe : k.pipes pl <;> by_cases hleft : k.forks pl .left <;>
        simp only [hpipe, hleft, and_self, and_true, and_false, if_true, if_false, List.map_nil,
          Bool.false_eq_true]
      rw [piped_left, piped_right, piped_parent, ihl h.1, List.map_append]
      congr 1
      split_ifs
      · rw [ihr h.2, List.map_append]
        rfl
      · rfl
  | back cmd ih =>
      rw [runcmd, plumb, ih h]
      split_ifs <;> rfl

/-- **The descriptors carry the plumbing**: whatever fails, a process of a command that was
parsed has the three files that are meant for it, and no others. -/
theorem runcmd_plumb (k : Kernel Word) {line : List UInt8} {c : Cmd Word}
    (h : parsecmd line = .ok c) (pl : Place) (s : Std Word) :
    runcmd k c pl s.ofile = (plumb k c pl s).map Event.ofile :=
  runcmd_eq k (parsecmd_ok_iff.mp h).built pl s

/-! ### The ends of the pipes -/

/-- The files of a process at a place are ends of pipes only as they should be. -/
structure Std.Ends (s : Std W) (pl : Place) : Prop where
  input : ∀ q, s.input = .readEnd q → q ++ [.right] <+: pl
  output : ∀ q, s.output = .writeEnd q → q ++ [.left] <+: pl
  input_ne : ∀ q, s.input ≠ .writeEnd q
  output_ne : ∀ q, s.output ≠ .readEnd q
  error_ne : ∀ q, s.error ≠ .readEnd q ∧ s.error ≠ .writeEnd q

theorem Std.Ends.down {s : Std W} {pl : Place} (h : s.Ends pl) (part : Part) :
    s.Ends (pl ++ [part]) :=
  { h with
    input := fun q hq => (h.input q hq).trans (List.prefix_append _ _)
    output := fun q hq => (h.output q hq).trans (List.prefix_append _ _) }

theorem ends_plumb (k : Kernel W) (c : Cmd W) {pl : Place} {s : Std W} (h : s.Ends pl) :
    ∀ e ∈ plumb k c pl s, e.files.Ends e.place := by
  induction c generalizing pl s with
  | exec argv =>
      rw [plumb]
      split_ifs
      · simp
      · simpa using h
  | redir cmd file mode fd ih =>
      rw [plumb]
      split_ifs with hopen hfd
      · exact ih { h.down .sub with input := nofun, input_ne := nofun }
      · exact ih { h.down .sub with output := nofun, output_ne := nofun }
      · simp
  | list left right ihl ihr =>
      rw [plumb]
      split_ifs
      · intro e he
        rcases List.mem_append.mp he with he | he
        · exact ihl (h.down .left) e he
        rcases List.mem_cons.mp he with rfl | he
        · exact h
        · exact ihr (h.down .right) e he
      · simp
  | pipe left right ihl ihr =>
      have hleft : Std.Ends { s with output := .writeEnd pl } (pl ++ [.left]) :=
        { h.down .left with
          output := fun q hq => by cases hq; exact List.prefix_rfl
          output_ne := nofun }
      have hright : Std.Ends { s with input := .readEnd pl } (pl ++ [.right]) :=
        { h.down .right with
          input := fun q hq => by cases hq; exact List.prefix_rfl
          input_ne := nofun }
      rw [plumb]
      split_ifs
      · intro e he
        rcases List.mem_append.mp he with he | he
        · exact ihl hleft e he
        rcases List.mem_append.mp he with he | he
        · exact ihr hright e he
        · simp only [List.mem_cons, List.not_mem_nil, or_false, or_self] at he
          exact he ▸ h
      · intro e he
        exact ihl hleft e (by simpa using he)
      · simp
  | back cmd ih =>
      rw [plumb]
      split_ifs
      · exact ih (h.down .sub)
      · simp

theorem argfd_ofile {s : Std W} {fd : Nat} {f : File W} (h : argfd s.ofile fd = some f) :
    fd = 0 ∧ s.input = f ∨ fd = 1 ∧ s.output = f ∨ fd = 2 ∧ s.error = f := by
  match fd with
  | 0 => exact .inl ⟨rfl, Option.some.inj h⟩
  | 1 => exact .inr (.inl ⟨rfl, Option.some.inj h⟩)
  | 2 => exact .inr (.inr ⟨rfl, Option.some.inj h⟩)
  | fd + 3 =>
      have hnone : argfd s.ofile (fd + 3) = (List.replicate 13 none)[fd]?.join := rfl
      rw [hnone, List.getElem?_replicate] at h
      split_ifs at h <;> cases h

/-- **No process keeps the end of a pipe that is not its own**: where a process of a command
calls `exec` or `wait`, a read end is open as the input of a process on the right of its
pipe, a write end as the output of one on the left, and neither anywhere else. -/
theorem runcmd_pipes (k : Kernel Word) {line : List UInt8} {c : Cmd Word}
    (h : parsecmd line = .ok c) (i o e : Nat) :
    ∀ ev ∈ runcmd k c [] (Std.ofile ⟨.given i, .given o, .given e⟩), ∀ fd q,
      (argfd ev.files fd = some (.readEnd q) → fd = 0 ∧ q ++ [.right] <+: ev.place) ∧
        (argfd ev.files fd = some (.writeEnd q) → fd = 1 ∧ q ++ [.left] <+: ev.place) := by
  intro ev hev fd q
  rw [runcmd_eq k (parsecmd_ok_iff.mp h).built] at hev
  obtain ⟨p, hp, rfl⟩ := List.mem_map.mp hev
  have hgiven : Std.Ends (W := Word) ⟨.given i, .given o, .given e⟩ [] :=
    ⟨nofun, nofun, nofun, nofun, fun _ => ⟨nofun, nofun⟩⟩
  have hends := ends_plumb k c hgiven p hp
  constructor
  · intro hfd
    rcases argfd_ofile hfd with ⟨rfl, hf⟩ | ⟨rfl, hf⟩ | ⟨rfl, hf⟩
    · exact ⟨rfl, hends.input q hf⟩
    · exact absurd hf (hends.output_ne q)
    · exact absurd hf (hends.error_ne q).1
  · intro hfd
    rcases argfd_ofile hfd with ⟨rfl, hf⟩ | ⟨rfl, hf⟩ | ⟨rfl, hf⟩
    · exact absurd hf (hends.input_ne q)
    · exact ⟨rfl, hends.output q hf⟩
    · exact absurd hf (hends.error_ne q).2

/-- `a|b` -/
theorem parsecmd_pipe : parsecmd [97, 124, 98] =
    .ok (.pipe (.exec [⟨[97, 124, 98], [124, 98]⟩]) (.exec [⟨[98], []⟩])) := by
  have htokens : tokens [97, 124, 98] =
      [.word ⟨[97, 124, 98], [124, 98]⟩, .bar, .word ⟨[98], []⟩] := by
    rw [tokens, dif_neg (by decide), tokens, dif_neg (by decide), tokens, dif_neg (by decide),
      tokens, dif_pos (by decide)]
    decide
  rw [parsecmd_ok_iff, htokens]
  exact .last 0 (.pipe (.simple (.word _ .nil) (by decide))
    (.single (.simple (.word _ .nil) (by decide))))

/-- A kernel where nothing fails. -/
def Kernel.plenty (W : Type) : Kernel W := ⟨fun _ _ _ => true, fun _ => true, fun _ _ => true⟩

theorem runcmd_plumb_pipe :
    runcmd (.plenty Word) (.pipe (.exec [⟨[97, 124, 98], [124, 98]⟩]) (.exec [⟨[98], []⟩])) []
        (Std.ofile ⟨.given 0, .given 1, .given 2⟩) =
      (plumb (.plenty Word) (.pipe (.exec [⟨[97, 124, 98], [124, 98]⟩]) (.exec [⟨[98], []⟩])) []
        ⟨.given 0, .given 1, .given 2⟩).map Event.ofile :=
  runcmd_plumb _ parsecmd_pipe _ _

/-- The process on the right reads the pipe. -/
theorem runcmd_pipes_pipe : 0 = 0 ∧ [] ++ [Part.right] <+: [Part.right] :=
  (runcmd_pipes (.plenty Word) parsecmd_pipe 0 1 2
    ⟨[.right], .exec [⟨[98], []⟩], Std.ofile ⟨.readEnd [], .given 1, .given 2⟩⟩
    (by decide) 0 []).1 rfl

end OsCourse.Sh
