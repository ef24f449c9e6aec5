import Egos.Disk.Store
import Egos.Lib.Layout

/-!
# Block stores that are arrays

What the reads and writes of a store mean when each of its inodes is an array of blocks of a fixed
size, and the rule by which a store is shown to be such arrays.
-/
namespace Egos.Disk

open Egos.Lib

set_option autoImplicit false

variable {β σ : Type}

/-- A call that moves a block. -/
inductive Transfer (β : Type) where
  | read (ino offset : Nat)
  | write (ino offset : Nat) (block : β)
  deriving DecidableEq

/-- The blocks of the arrays, each with its inode and offset. -/
def blocksOf (sizes : Nat → Nat) : Set (Nat × Nat) := { p | p.2 < sizes p.1 }

namespace Transfer

def request : Transfer β → Request β
  | read ino offset => .read ino offset
  | write ino offset block => .write ino offset block

/-- The block that is read or written. -/
def target : Transfer β → Nat × Nat
  | read ino offset => (ino, offset)
  | write ino offset _ => (ino, offset)

/-- The answer of a call that fails. -/
def failure : Transfer β → Answer β
  | read _ _ => .block none
  | write _ _ _ => .code (-1)

/-- The answer of arrays. -/
def answer (sizes : Nat → Nat) (arrays : Nat × Nat → β) (call : Transfer β) : Answer β :=
  if call.target.2 < sizes call.target.1 then
    match call with
    | read ino offset => .block (some (arrays (ino, offset)))
    | write _ _ _ => .code 0
  else call.failure

/-- The arrays after the call. -/
def effect (sizes : Nat → Nat) (arrays : Nat × Nat → β) : Transfer β → Nat × Nat → β
  | read _ _ => arrays
  | write ino offset block =>
    if offset < sizes ino then Function.update arrays (ino, offset) block else arrays

variable {sizes : Nat → Nat} {arrays : Nat × Nat → β}

theorem answer_outside (call : Transfer β) (h : call.target ∉ blocksOf sizes) :
    call.answer sizes arrays = call.failure := if_neg h

theorem effect_outside (call : Transfer β) (h : call.target ∉ blocksOf sizes) :
    call.effect sizes arrays = arrays := by
  cases call with
  | read ino offset => rfl
  | write ino offset block => exact if_neg h

theorem answer_read {ino offset : Nat} (h : offset < sizes ino) :
    (read ino offset).answer sizes arrays = .block (some (arrays (ino, offset))) := if_pos h

theorem answer_write {ino offset : Nat} {block : β} (h : offset < sizes ino) :
    (write ino offset block).answer sizes arrays = .code 0 := if_pos h

theorem effect_write {ino offset : Nat} {block : β} (h : offset < sizes ino) :
    (write ino offset block).effect sizes arrays = Function.update arrays (ino, offset) block :=
  if_pos h

end Transfer

/-- The answers of arrays to a sequence of calls. -/
def answers (sizes : Nat → Nat) : (Nat × Nat → β) → List (Transfer β) → List (Answer β)
  | _, [] => []
  | arrays, call :: calls =>
    call.answer sizes arrays :: answers sizes (call.effect sizes arrays) calls

/-- To every sequence of calls the store gives the answers of the arrays. -/
def IsArrays (bs : BlockStore β σ) (sizes : Nat → Nat) (arrays : Nat × Nat → β) (s : σ) : Prop :=
  ∀ calls : List (Transfer β), ∃ s',
    performAll bs (calls.map Transfer.request) s = .ok (answers sizes arrays calls) s'

/-- A relation between the states of a store and arrays that each call keeps. -/
structure Keeps (bs : BlockStore β σ) (sizes : Nat → Nat) (R : σ → (Nat × Nat → β) → Prop) :
    Prop where
  read_inside : ∀ {s arrays ino offset}, R s arrays → offset < sizes ino →
    ∃ s', bs.read ino offset s = .ok (some (arrays (ino, offset))) s' ∧ R s' arrays
  read_outside : ∀ {s arrays ino offset}, R s arrays → ¬ offset < sizes ino →
    ∃ s', bs.read ino offset s = .ok none s' ∧ R s' arrays
  write_inside : ∀ {s arrays ino offset}, R s arrays → offset < sizes ino → ∀ block,
    ∃ s', bs.write ino offset block s = .ok 0 s' ∧
      R s' (Function.update arrays (ino, offset) block)
  write_outside : ∀ {s arrays ino offset}, R s arrays → ¬ offset < sizes ino → ∀ block,
    ∃ s', bs.write ino offset block s = .ok (-1) s' ∧ R s' arrays

namespace Keeps

variable {bs : BlockStore β σ} {sizes : Nat → Nat} {R : σ → (Nat × Nat → β) → Prop} {s : σ}
  {arrays : Nat × Nat → β}

theorem perform (hkeeps : Keeps bs sizes R) (h : R s arrays) (call : Transfer β) :
    ∃ s', call.request.perform bs s = .ok (call.answer sizes arrays) s' ∧
      R s' (call.effect sizes arrays) := by
  cases call with
  | read ino offset =>
    by_cases hin : offset < sizes ino
    · obtain ⟨s', hread, h'⟩ := hkeeps.read_inside h hin
      rw [Transfer.answer_read hin]
      exact ⟨s', bind_ok hread _, h'⟩
    · obtain ⟨s', hread, h'⟩ := hkeeps.read_outside h hin
      rw [Transfer.answer_outside (.read ino offset) hin]
      exact ⟨s', bind_ok hread _, h'⟩
  | write ino offset block =>
    by_cases hin : offset < sizes ino
    · obtain ⟨s', hwrite, h'⟩ := hkeeps.write_inside h hin block
      rw [Transfer.answer_write hin, Transfer.effect_write hin]
      exact ⟨s', bind_ok hwrite _, h'⟩
    · obtain ⟨s', hwrite, h'⟩ := hkeeps.write_outside h hin block
      rw [Transfer.answer_outside (.write ino offset block) hin,
        Transfer.effect_outside (.write ino offset block) hin]
      exact ⟨s', bind_ok hwrite _, h'⟩

theorem isArrays (hkeeps : Keeps bs sizes R) (h : R s arrays) : IsArrays bs sizes arrays s := by
  intro calls
  induction calls generalizing s arrays with
  | nil => exact ⟨s, rfl⟩
  | cons call calls ih =>
    obtain ⟨s', hcall, h'⟩ := hkeeps.perform h call
    obtain ⟨s'', hcalls⟩ := ih h'
    refine ⟨s'', ?_⟩
    rw [List.map_cons, performAll]
    rw [bind_ok hcall, bind_ok hcalls]
    rfl

end Keeps

theorem IsArrays.perform {bs : BlockStore β σ} {sizes : Nat → Nat} {arrays : Nat × Nat → β} {s : σ}
    (h : IsArrays bs sizes arrays s) (call : Transfer β) :
    ∃ s', call.request.perform bs s = .ok (call.answer sizes arrays) s' := by
  obtain ⟨s', hrun⟩ := h [call]
  have hone : performAll bs [call.request] s = _ := hrun
  rw [performAll] at hone
  cases hcall : call.request.perform bs s with
  | error stop t =>
    rw [bind_error hcall] at hone
    cases hone
  | ok answer t =>
    rw [bind_ok hcall] at hone
    have heads := (List.cons.inj (EStateM.Result.ok.inj hone).1).1
    exact ⟨t, by rw [heads]⟩

theorem IsArrays.next {bs : BlockStore β σ} {sizes : Nat → Nat} {arrays : Nat × Nat → β} {s s' : σ}
    (h : IsArrays bs sizes arrays s) (call : Transfer β) {answer : Answer β}
    (hcall : call.request.perform bs s = .ok answer s') :
    IsArrays bs sizes (call.effect sizes arrays) s' := by
  intro calls
  obtain ⟨t, hrun⟩ := h (call :: calls)
  rw [List.map_cons, performAll, bind_ok hcall] at hrun
  cases hrest : performAll bs (calls.map Transfer.request) s' with
  | error stop u =>
    rw [bind_error hrest] at hrun
    cases hrun
  | ok rest u =>
    rw [bind_ok hrest] at hrun
    have htail := (List.cons.inj (EStateM.Result.ok.inj hrun).1).2
    exact ⟨u, by rw [htail]⟩

/-- A store whose inode 0 is an array of `size` blocks, and which rejects all offsets outside of
it. `view` is what the blocks hold; `Good` are the states the store can be in. -/
structure FlatStore (β σ : Type) extends BlockStore β σ where
  size : Nat
  Good : σ → Prop
  view : σ → Nat → β
  getsize_ok : ∀ {s}, Good s → ∃ s', getsize 0 s = .ok (size : Int) s' ∧ Good s' ∧ view s' = view s
  read_ok : ∀ {s offset}, Good s → offset < size →
    ∃ s', read 0 offset s = .ok (some (view s offset)) s' ∧ Good s' ∧ view s' = view s
  read_fail : ∀ {s offset}, Good s → size ≤ offset →
    ∃ s', read 0 offset s = .ok none s' ∧ Good s' ∧ view s' = view s
  write_ok : ∀ {s offset}, Good s → offset < size → ∀ block,
    ∃ s', write 0 offset block s = .ok 0 s' ∧ Good s' ∧
      view s' = Function.update (view s) offset block
  write_fail : ∀ {s offset}, Good s → size ≤ offset → ∀ block,
    ∃ s', write 0 offset block s = .ok (-1) s' ∧ Good s' ∧ view s' = view s

/-- One inode of a size. -/
def flatSizes (size ino : Nat) : Nat := if ino = 0 then size else 0

theorem lt_flatSizes {size ino offset : Nat} :
    offset < flatSizes size ino ↔ ino = 0 ∧ offset < size := by
  unfold flatSizes
  split
  · rename_i h
    exact ⟨fun hlt => ⟨h, hlt⟩, fun hlt => hlt.2⟩
  · rename_i h
    exact ⟨fun hlt => absurd hlt (Nat.not_lt_zero _), fun hlt => absurd hlt.1 h⟩

end Egos.Disk
