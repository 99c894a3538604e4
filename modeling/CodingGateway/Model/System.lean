import CodingGateway.Library.Ownership
set_option autoImplicit false

/-!
# What the process holds

Descriptors, streams and blocks of memory.  Whether a call succeeds is an input; what it
hands out is some resource that is not in use.
-/

namespace CodingGateway.Model

open CodingGateway.Library.Ownership

inductive HandleKind
  | descriptor
  | stream
  | memory
deriving DecidableEq

/-- A resource of the process: its kind and its number. -/
abbrev Handle := HandleKind × ℕ

/-- The kernel and the allocator, as the source of what is not in use. -/
abbrev System := Supply HandleKind

/-- A part of the program that opens and closes; without a value it has closed or freed
something that is not in use. -/
abbrev Sys (α : Type) := Tracked Handle α

/-- A resource if the call succeeds. -/
def obtainIf (os : System) (kind : HandleKind) (succeeds : Bool) : Sys (Option ℕ) :=
  if succeeds then do
    let n ← obtainNew os kind
    pure (some n)
  else pure none

/-- `open`, `socket` and `accept`; `none` is the return value `-1`. -/
def openFd (os : System) (succeeds : Bool) : Sys (Option ℕ) := obtainIf os .descriptor succeeds

def closeFd (fd : ℕ) : Sys Unit := release (.descriptor, fd)

/-- `fopen`; `none` is `NULL`. -/
def fopen (os : System) (succeeds : Bool) : Sys (Option ℕ) := obtainIf os .stream succeeds

def fclose (f : ℕ) : Sys Unit := release (.stream, f)

/-- `calloc`; `none` is `NULL`. -/
def calloc (os : System) (succeeds : Bool) : Sys (Option ℕ) := obtainIf os .memory succeeds

def free (p : ℕ) : Sys Unit := release (.memory, p)

end CodingGateway.Model
