import Mathlib.Data.List.Basic

/-!
# OsCourse.Files.Fds

The descriptors of one process: `argfd` and `fdalloc` (`sysfile.c`), on `ofile` of
`struct proc`. What a descriptor stands for may be of any type.
-/

namespace OsCourse.Files

/-- `NOFILE`. -/
abbrev NOFILE : Nat := 16

/-- `ofile` of `struct proc`. -/
abbrev Fds (F : Type) : Type := List (Option F)

variable {F : Type}

/-- `argfd`: the file of a descriptor. -/
def argfd (ofile : Fds F) (fd : Nat) : Option F := (ofile[fd]?).join

/-- `fdalloc`: the file takes the first free descriptor. -/
def fdalloc (ofile : Fds F) (f : F) : Option (Nat × Fds F) :=
  let fd := ofile.findIdx Option.isNone
  if fd < ofile.length then some (fd, ofile.set fd (some f)) else none

end OsCourse.Files
