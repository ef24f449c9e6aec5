import Mathlib.Logic.Function.Basic
import Mathlib.Order.Lattice
import Mathlib.Algebra.Order.Group.Nat

/-!
# Sparse files

What a file of blocks is for its user: a size and the contents of every offset,
blank where nothing was written. A write beyond the end makes the file longer and
leaves a hole in between.
-/
namespace Egos.Disk

set_option autoImplicit false

variable {β : Type}

structure SparseFile (β : Type) where
  size : Nat
  data : Nat → β

namespace SparseFile

def empty (blank : β) : SparseFile β := ⟨0, fun _ => blank⟩

def write (file : SparseFile β) (offset : Nat) (block : β) : SparseFile β :=
  ⟨max file.size (offset + 1), Function.update file.data offset block⟩

/-- Reads fail from the size on. -/
def read (file : SparseFile β) (offset : Nat) : Option β :=
  if offset < file.size then some (file.data offset) else none

/-- Beyond the size nothing has been written. -/
def Blank (file : SparseFile β) (blank : β) : Prop :=
  ∀ offset, file.size ≤ offset → file.data offset = blank

theorem blank_empty (blank : β) : (empty blank).Blank blank := fun _ _ => rfl

theorem Blank.write {file : SparseFile β} {blank : β} (h : file.Blank blank) (offset : Nat)
    (block : β) : (file.write offset block).Blank blank := by
  intro off hoff
  have hmax : file.size ≤ off ∧ offset + 1 ≤ off := max_le_iff.mp hoff
  change Function.update file.data offset block off = blank
  rw [Function.update_of_ne (by omega)]
  exact h off hmax.1

end SparseFile

/-- A family of independent files, by inode number. -/
abbrev Files (β : Type) := Nat → SparseFile β

end Egos.Disk
