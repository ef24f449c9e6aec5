import Mathlib.Data.List.FinRange
import Egos.Lib.Table
import Egos.Disk.Store

/-!
# The file descriptors of `lib/unistd.c`

A descriptor is a slot of `u_fds` with a pointer to a counted `struct u_fptr`, which owns a
stream. The streams themselves are the library's below: `fopen` is given by what it returns,
and the calls of `fflush` and `fclose` are recorded. Addresses of freed memory are not used
again, so that a dangling pointer shows: to follow one is undefined.
-/
namespace Egos.Unistd

open Egos.Lib Egos.Disk

set_option autoImplicit false

/-- `U_NFDS`. -/
abbrev nFds : Nat := 100

instance neZero_nFds : NeZero nFds := ⟨by decide⟩

def ENOENT : Nat := 2
def EIO : Nat := 5
def EINVAL : Nat := 22
def ENFILE : Nat := 23

/-- `struct u_fptr` around a stream of type `φ`. -/
structure FPtr (φ : Type) where
  refcnt : Int
  mode : Nat
  file : φ

/-- `struct u_fd`; a null pointer is `none`. -/
structure Fd where
  opened : Bool
  ufp : Option Nat
  deriving DecidableEq

/-- What is asked of the streams. A closed one is named by its `struct u_fptr`, too. -/
inductive Event (φ : Type) where
  | fflush (file : φ)
  | fclose (ufp : Nat) (file : φ)

/-- `u_fds`, the allocated memory below address `next`, and what the streams were asked. -/
structure State (φ : Type) where
  initialized : Bool
  fds : Fin nFds → Fd
  heap : Nat → Option (FPtr φ)
  next : Nat
  errno : Nat
  events : List (Event φ)

/-- `stdin`, `stdout` and `stderr`, each of which can be missing. -/
structure Std (φ : Type) where
  stdin : Option φ
  stdout : Option φ
  stderr : Option φ

/-- What `fopen` returns, and `errno` after it. -/
structure Fopen (φ : Type) where
  file : Option φ
  errno : Nat

variable {φ : Type}

def initial : State φ := ⟨false, fun _ => ⟨false, none⟩, fun _ => none, 0, 0, []⟩

abbrev M (φ α : Type) := EStateM Stop (State φ) α

def setErrno (e : Nat) : M φ Unit := modify fun s => { s with errno := e }

/-- `u_fptr`. -/
def uFptr (file : φ) (mode : Nat) : M φ Nat := do
  let s ← get
  modify fun s =>
    { s with heap := Function.update s.heap s.next (some ⟨1, mode, file⟩), next := s.next + 1 }
  pure s.next

def setFd (fd : Fin nFds) (entry : Fd) : M φ Unit :=
  modify fun s => { s with fds := Function.update s.fds fd entry }

/-- One of the three cases of `u_init`. -/
def uInitFd (fd : Fin nFds) (stream : Option φ) (mode : Nat) : M φ Unit := do
  match stream with
  | none => pure ()
  | some file => do
    let ufp ← uFptr file mode
    setFd fd ⟨true, some ufp⟩

/-- `u_init`. -/
def uInit (std : Std φ) : M φ Unit := do
  if (← get).initialized then pure ()
  else do
    modify fun s => { s with initialized := true }
    uInitFd 0 std.stdin 0
    uInitFd 1 std.stdout 1
    uInitFd 2 std.stderr 1

/-- `u_findfd`; its -1 is `none`. -/
def uFindfd : M φ (Option (Fin nFds)) := do
  let s ← get
  match (List.finRange nFds).find? fun fd => !(s.fds fd).opened with
  | some fd => pure (some fd)
  | none => do
    setErrno ENFILE
    pure none

/-- `u_err`. -/
def uErr (dflt : Nat) : M φ Int := do
  if (← get).errno = 0 then setErrno dflt
  pure (-1)

/-- Follow a pointer to a `struct u_fptr`. -/
def deref (ufp : Option Nat) : M φ (Nat × FPtr φ) := do
  let s ← get
  match ufp with
  | none => throw .undefined
  | some p => match s.heap p with
    | none => throw .undefined
    | some o => pure (p, o)

def store (p : Nat) (o : Option (FPtr φ)) : M φ Unit :=
  modify fun s => { s with heap := Function.update s.heap p o }

def record (e : Event φ) : M φ Unit := modify fun s => { s with events := s.events ++ [e] }

variable (std : Std φ)

/-- `open`, by its flags and by what `fopen` returns for each mode. -/
def «open» (oflags : Nat) (fopen : String → Fopen φ) : M φ Int := do
  let mode := match oflags % 4 with
    | 0 => some "r"
    | 1 => some "w"
    | 2 => some "w+"
    | _ => none
  match mode with
  | none => do
    setErrno EINVAL
    pure (-1)
  | some mode => do
    uInit std
    match ← uFindfd with
    | none => pure (-1)
    | some fd => do
      setErrno (fopen mode).errno
      match (fopen mode).file with
      | none => uErr ENOENT
      | some file => do
        let ufp ← uFptr file oflags
        setFd fd ⟨true, some ufp⟩
        pure fd.val

/-- The end of `dup` and `dup2`: copy the descriptor and count it. -/
def share (fd fd2 : Fin nFds) : M φ Int := do
  let entry := (← get).fds fd
  setFd fd2 entry
  let (p, o) ← deref entry.ufp
  store p (some { o with refcnt := o.refcnt + 1 })
  pure fd2.val

/-- `dup` compares `fd` with 0 where it has just looked for `fd2`: without a free descriptor
it goes on with `u_fds[-1]`. -/
def dup (fd : Fin nFds) : M φ Int := do
  uInit std
  if !((← get).fds fd).opened then do
    setErrno EINVAL
    pure (-1)
  else
    match ← uFindfd with
    | none => throw .undefined
    | some fd2 => share fd fd2

def close (fd : Fin nFds) : M φ Int := do
  uInit std
  let entry := (← get).fds fd
  if !entry.opened then do
    setErrno EINVAL
    pure (-1)
  else do
    let (p, o) ← deref entry.ufp
    record (.fflush o.file)
    if o.refcnt - 1 = 0 then do
      record (.fclose p o.file)
      store p none
    else store p (some { o with refcnt := o.refcnt - 1 })
    setFd fd { entry with opened := false }
    pure 0

/-- `dup2` does not ask whether `fd` is open. -/
def dup2 (fd fd2 : Fin nFds) : M φ Int := do
  uInit std
  if fd = fd2 then pure fd2.val
  else do
    let r ← if ((← get).fds fd2).opened then close std fd2 else pure 0
    if r < 0 then uErr EIO else share fd fd2

/-- A call of the library. -/
inductive Call (φ : Type) where
  | «open» (oflags : Nat) (fopen : String → Fopen φ)
  | dup (fd : Fin nFds)
  | dup2 (fd fd2 : Fin nFds)
  | close (fd : Fin nFds)

def Call.perform : Call φ → M φ Int
  | .open oflags fopen => Unistd.open std oflags fopen
  | .dup fd => Unistd.dup std fd
  | .dup2 fd fd2 => Unistd.dup2 std fd fd2
  | .close fd => Unistd.close std fd

end Egos.Unistd
