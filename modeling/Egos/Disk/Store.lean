import Egos.Lib.Program

/-!
# Block stores

The interface of `block_store.h`: a store holds inodes, each an array of blocks.
Return codes are the C ints; a failed `read` is `none`, the -1 that the header
documents for errors, so the caller's buffer has no contents in that case. An
operation can also end the whole program, and the store below keeps what was
written up to that point.
-/
namespace Egos.Disk

open Egos.Lib

set_option autoImplicit false

/-- The ways a call ends without returning to its caller. -/
inductive Stop where
  /-- `panic`: print the message and exit. -/
  | panic (message : String)
  /-- A failed `assert`. -/
  | assert
  /-- A loop whose exit condition can no longer become true. -/
  | diverge
  /-- A read of uninitialised memory, or an access outside of an array. -/
  | undefined
  deriving DecidableEq

/-- A C int that holds the bits of an `unsigned int`. -/
def toInt (n : Nat) : Int :=
  if n % 2 ^ 32 < 2 ^ 31 then (n % 2 ^ 32 : Nat) else (n % 2 ^ 32 : Nat) - 2 ^ 32

/-- The conversion of a C int to `unsigned int`. -/
def toUnsigned (r : Int) : Nat := (r % 2 ^ 32).toNat

theorem toUnsigned_toInt {n : Nat} (h : n < 2 ^ 32) : toUnsigned (toInt n) = n := by
  unfold toUnsigned toInt
  rw [Nat.mod_eq_of_lt h]
  split <;> omega

theorem toInt_injective {m n : Nat} (hm : m < 2 ^ 32) (hn : n < 2 ^ 32)
    (h : toInt m = toInt n) : m = n := by
  rw [← toUnsigned_toInt hm, ← toUnsigned_toInt hn, h]

theorem toInt_eq {n : Nat} (h : n < 2 ^ 31) : toInt n = n := by
  unfold toInt
  rw [Nat.mod_eq_of_lt (by omega), if_pos h]

/-- `(unsigned int) -1`, which asks `sync` for every inode. -/
def allInodes : Nat := 2 ^ 32 - 1

/-- `struct block_store`, with the `state` pointer as the explicit state `σ`. -/
structure BlockStore (β σ : Type) where
  getninodes : EStateM Stop σ Int
  getsize : Nat → EStateM Stop σ Int
  setsize : Nat → Nat → EStateM Stop σ Int
  read : Nat → Nat → EStateM Stop σ (Option β)
  write : Nat → Nat → β → EStateM Stop σ Int
  sync : Nat → EStateM Stop σ Int

variable {β σ : Type}

/-- A call of the interface. -/
inductive Request (β : Type) where
  | getninodes
  | getsize (ino : Nat)
  | setsize (ino nblocks : Nat)
  | read (ino offset : Nat)
  | write (ino offset : Nat) (block : β)
  | sync (ino : Nat)

/-- What a call returns: a block or none for a read, a C int otherwise. -/
inductive Answer (β : Type) where
  | block (block : Option β)
  | code (code : Int)
  deriving DecidableEq

def Request.perform (bs : BlockStore β σ) : Request β → EStateM Stop σ (Answer β)
  | .getninodes => do
    let r ← bs.getninodes
    pure (.code r)
  | .getsize ino => do
    let r ← bs.getsize ino
    pure (.code r)
  | .setsize ino nblocks => do
    let r ← bs.setsize ino nblocks
    pure (.code r)
  | .read ino offset => do
    let r ← bs.read ino offset
    pure (.block r)
  | .write ino offset block => do
    let r ← bs.write ino offset block
    pure (.code r)
  | .sync ino => do
    let r ← bs.sync ino
    pure (.code r)

/-- The answers to a sequence of calls. -/
def performAll (bs : BlockStore β σ) : List (Request β) → EStateM Stop σ (List (Answer β))
  | [] => pure []
  | call :: calls => do
    let answer ← call.perform bs
    let answers ← performAll bs calls
    pure (answer :: answers)

/-- Replace one block of one inode. -/
def setBlock (view : Nat → Nat → β) (ino offset : Nat) (block : β) : Nat → Nat → β :=
  fun i o => if i = ino ∧ o = offset then block else view i o

@[simp] theorem setBlock_same (view : Nat → Nat → β) (ino offset : Nat) (block : β) :
    setBlock view ino offset block ino offset = block := by simp [setBlock]

theorem setBlock_other {view : Nat → Nat → β} {ino offset i o : Nat} {block : β}
    (h : ¬(i = ino ∧ o = offset)) : setBlock view ino offset block i o = view i o := by
  simp [setBlock, h]

theorem setBlock_self {view : Nat → Nat → β} {ino offset : Nat} {block : β}
    (h : view ino offset = block) : setBlock view ino offset block = view := by
  funext i o
  unfold setBlock
  split
  · rename_i he; rw [he.1, he.2, h]
  · rfl

theorem setBlock_inode (view : Nat → Nat → β) (ino offset : Nat) (block : β) :
    setBlock view ino offset block ino = Function.update (view ino) offset block := by
  funext o
  simp [setBlock, Function.update_apply]

/-- A multi-inode store of fixed sizes on which every in-range read and write
succeeds. `view` is what the blocks hold; `Good` are the states the store can be
in. Nothing is said about out-of-range calls or about `setsize`. -/
structure FixedStore (β σ : Type) extends BlockStore β σ where
  sizes : Nat → Nat
  Good : σ → Prop
  view : σ → Nat → Nat → β
  sizes_lt : ∀ ino, sizes ino < 2 ^ 32
  getsize_ok : ∀ {s}, Good s → ∀ {ino}, 0 < sizes ino →
    ∃ s', getsize ino s = .ok (toInt (sizes ino)) s' ∧ Good s' ∧ view s' = view s
  read_ok : ∀ {s}, Good s → ∀ {ino offset}, offset < sizes ino →
    ∃ s', read ino offset s = .ok (some (view s ino offset)) s' ∧ Good s' ∧ view s' = view s
  write_ok : ∀ {s}, Good s → ∀ {ino offset}, offset < sizes ino → ∀ block,
    ∃ s', write ino offset block s = .ok 0 s' ∧ Good s' ∧
      view s' = setBlock (view s) ino offset block
  sync_ok : ∀ {s}, Good s → ∀ ino, ∃ r s', sync ino s = .ok r s' ∧ Good s' ∧ view s' = view s

namespace FixedStore

variable {fs : FixedStore β σ} {E : Stop → σ → Prop} {s : σ}

theorem outcome_read {Q : Option β → σ → Prop} (h : fs.Good s) {ino offset : Nat}
    (hr : offset < fs.sizes ino)
    (hq : ∀ s', fs.Good s' → fs.view s' = fs.view s → Q (some (fs.view s ino offset)) s') :
    Outcome (fs.read ino offset) Q E s := by
  obtain ⟨s', he, hg, hv⟩ := fs.read_ok h hr
  exact .of_ok he (hq s' hg hv)

theorem outcome_write {Q : Int → σ → Prop} (h : fs.Good s) {ino offset : Nat}
    (hr : offset < fs.sizes ino) (block : β)
    (hq : ∀ s', fs.Good s' → fs.view s' = setBlock (fs.view s) ino offset block → Q 0 s') :
    Outcome (fs.write ino offset block) Q E s := by
  obtain ⟨s', he, hg, hv⟩ := fs.write_ok h hr block
  exact .of_ok he (hq s' hg hv)

theorem outcome_getsize {Q : Int → σ → Prop} (h : fs.Good s) {ino : Nat}
    (hs : 0 < fs.sizes ino)
    (hq : ∀ s', fs.Good s' → fs.view s' = fs.view s → Q (toInt (fs.sizes ino)) s') :
    Outcome (fs.getsize ino) Q E s := by
  obtain ⟨s', he, hg, hv⟩ := fs.getsize_ok h hs
  exact .of_ok he (hq s' hg hv)

theorem outcome_sync {Q : Int → σ → Prop} (h : fs.Good s) (ino : Nat)
    (hq : ∀ r s', fs.Good s' → fs.view s' = fs.view s → Q r s') :
    Outcome (fs.sync ino) Q E s := by
  obtain ⟨r, s', he, hg, hv⟩ := fs.sync_ok h ino
  exact .of_ok he (hq r s' hg hv)

end FixedStore

end Egos.Disk
