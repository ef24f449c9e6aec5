import Egos.File.Bfs
import Mathlib.Order.Lattice
import Mathlib.Algebra.Order.Group.Nat

/-!
# The block file server over sparse files

What the calls to the block server amount to when it keeps sparse files: a run of blocks is
read up to the end of the file, and a run of blocks is written as one piece of memory.
-/
namespace Egos.File

open Egos.Lib Egos.Disk

set_option autoImplicit false

theorem toNat_blockSize32 : (BitVec.ofNat 32 blockSize).toNat = blockSize := rfl

theorem toNat_blockSize64 : (BitVec.ofNat 64 blockSize).toNat = blockSize := rfl

theorem byteAt_mul_add (blocks : Nat → Block) (b : Nat) (j : Fin blockSize) :
    byteAt blocks (b * blockSize + j) = blocks b j := by
  have hj : (j : Nat) < blockSize := j.isLt
  have hdiv : (b * blockSize + j) / blockSize = b := by
    rw [Nat.mul_comm, Nat.mul_add_div (by decide), Nat.div_eq_of_lt hj, Nat.add_zero]
  have hmod : (b * blockSize + j) % blockSize = j := by
    rw [Nat.mul_comm, Nat.mul_add_mod, Nat.mod_eq_of_lt hj]
  unfold byteAt
  simp only [hdiv, hmod]

/-- The files after `n` blocks from memory were written from block `offset` on. -/
def writeBlocks (files : Files Block) (ino offset : Nat) (addr : Buffer) (n : Nat) : Files Block :=
  Function.update files ino
    ⟨if n = 0 then (files ino).size else max (files ino).size (offset + n), fun b =>
      if offset ≤ b ∧ b < offset + n then blockAt addr (b - offset) else (files ino).data b⟩

theorem writeBlocks_other (files : Files Block) {ino i : Nat} (offset : Nat) (addr : Buffer)
    (n : Nat) (hi : i ≠ ino) : writeBlocks files ino offset addr n i = files i :=
  Function.update_of_ne hi _ _

theorem writeBlocks_size (files : Files Block) (ino offset : Nat) (addr : Buffer) {n : Nat}
    (hn : n ≠ 0) :
    (writeBlocks files ino offset addr n ino).size = max (files ino).size (offset + n) := by
  unfold writeBlocks
  rw [Function.update_self, if_neg hn]

theorem writeBlocks_inside (files : Files Block) {ino offset n k : Nat} (addr : Buffer)
    (h : offset ≤ k / blockSize) (h' : k / blockSize < offset + n) :
    byteAt (writeBlocks files ino offset addr n ino).data k = addr (k - offset * blockSize) := by
  unfold writeBlocks byteAt
  rw [Function.update_self]
  dsimp only
  rw [if_pos ⟨h, h'⟩]
  unfold blockAt
  dsimp only
  congr 1
  have hk := Nat.div_add_mod k blockSize
  rw [Nat.sub_mul, Nat.mul_comm (k / blockSize)]
  have hle : offset * blockSize ≤ blockSize * (k / blockSize) := by
    rw [Nat.mul_comm]
    exact Nat.mul_le_mul_left _ h
  omega

theorem writeBlocks_outside (files : Files Block) {ino offset n k : Nat} (addr : Buffer)
    (h : k / blockSize < offset ∨ offset + n ≤ k / blockSize) :
    byteAt (writeBlocks files ino offset addr n ino).data k = byteAt (files ino).data k := by
  unfold writeBlocks byteAt
  rw [Function.update_self]
  dsimp only
  rw [if_neg (by omega)]

theorem update_writeBlocks (files : Files Block) (ino offset : Nat) (addr : Buffer) (n : Nat) :
    Function.update files ino (writeBlocks files ino offset addr n ino) =
      writeBlocks files ino offset addr n := by
  unfold writeBlocks
  rw [Function.update_self]

theorem writeBlocks_zero (files : Files Block) (ino offset : Nat) (addr : Buffer) :
    writeBlocks files ino offset addr 0 = files := by
  unfold writeBlocks
  rw [if_pos rfl]
  have hdata : (fun b => if offset ≤ b ∧ b < offset + 0 then blockAt addr (b - offset)
      else (files ino).data b) = (files ino).data := by
    funext b
    rw [if_neg (by omega)]
  rw [hdata]
  exact Function.update_eq_self ino files

theorem writeBlocks_succ (files : Files Block) (ino offset i : Nat) (addr : Buffer) :
    Function.update (writeBlocks files ino offset addr i) ino
      ((writeBlocks files ino offset addr i ino).write (offset + i) (blockAt addr i)) =
      writeBlocks files ino offset addr (i + 1) := by
  unfold writeBlocks
  rw [Function.update_idem]
  congr 1
  rw [Function.update_self]
  unfold SparseFile.write
  dsimp only
  congr 1
  · by_cases hi : i = 0
    · rw [if_pos hi, if_neg (by omega), hi]
    · rw [if_neg hi, if_neg (by omega)]
      omega
  · funext b
    by_cases hb : b = offset + i
    · rw [hb, Function.update_self, if_pos (by omega), Nat.add_sub_cancel_left]
    · rw [Function.update_of_ne hb]
      have hiff : (offset ≤ b ∧ b < offset + i) ↔ (offset ≤ b ∧ b < offset + (i + 1)) := by omega
      simp only [hiff]

namespace Bfs

section Loops

variable {σ : Type} {svr : BlockServer σ} {ino offset i left : Nat} {addr : Buffer} {s s' : σ}

theorem writeLoop_taken
    (h : svr.write ino ((offset + i) % 2 ^ 32) (blockAt addr i) s = (true, s')) :
    multiblockWriteLoop svr ino offset addr i (left + 1) s =
      multiblockWriteLoop svr ino offset addr (i + 1) left s' := by
  rw [multiblockWriteLoop]
  simp only [bind, StateT.bind, h]
  rfl

theorem writeLoop_failed
    (h : svr.write ino ((offset + i) % 2 ^ 32) (blockAt addr i) s = (false, s')) :
    multiblockWriteLoop svr ino offset addr i (left + 1) s = (false, s') := by
  rw [multiblockWriteLoop]
  simp only [bind, StateT.bind, h]
  rfl

theorem readLoop_found {block : Block}
    (h : svr.read ino ((offset + i) % 2 ^ 32) s = (some block, s')) :
    multiblockReadLoop svr ino offset i addr (left + 1) s =
      multiblockReadLoop svr ino offset (i + 1) (putBlock addr i block) left s' := by
  rw [multiblockReadLoop]
  simp only [bind, StateT.bind, h]

theorem readLoop_failed (h : svr.read ino ((offset + i) % 2 ^ 32) s = (none, s')) :
    multiblockReadLoop svr ino offset i addr (left + 1) s =
      (if i = 0 then none else some (i, addr), s') := by
  rw [multiblockReadLoop]
  simp only [bind, StateT.bind, h]
  rfl

end Loops

/-- Only the named inode changes, wherever the block numbers wrap. -/
theorem multiblockWriteLoop_frame (ino offset : Nat) (addr : Buffer) (left : Nat) :
    ∀ (i : Nat) (files : Files Block),
      (multiblockWriteLoop sparse ino offset addr i left files).1 = true ∧
        ∀ j, j ≠ ino → (multiblockWriteLoop sparse ino offset addr i left files).2 j = files j := by
  induction left with
  | zero => exact fun i files => ⟨rfl, fun _ _ => rfl⟩
  | succ left ih =>
    intro i files
    obtain ⟨hr, hf⟩ := ih (i + 1) (Function.update files ino
      ((files ino).write ((offset + i) % 2 ^ 32) (blockAt addr i)))
    constructor
    · exact hr
    · intro j hj
      have hstep := hf j hj
      rw [Function.update_of_ne hj] at hstep
      exact hstep

theorem multiblockWrite_frame (ino offset : Nat) (addr : Buffer) (n : Nat) (files : Files Block) :
    (multiblockWrite sparse ino offset addr n files).1 = true ∧
      ∀ j, j ≠ ino → (multiblockWrite sparse ino offset addr n files).2 j = files j :=
  multiblockWriteLoop_frame ino offset addr n 0 files

theorem multiblockWriteLoop_eq (files : Files Block) (ino : Nat) {offset : Nat} (addr : Buffer)
    {left : Nat} : ∀ {i : Nat}, offset + i + left ≤ 2 ^ 32 →
      multiblockWriteLoop sparse ino offset addr i left (writeBlocks files ino offset addr i) =
        (true, writeBlocks files ino offset addr (i + left)) := by
  induction left with
  | zero => exact fun _ => rfl
  | succ left ih =>
    intro i h
    have hstep := ih (i := i + 1) (by omega)
    rw [← writeBlocks_succ] at hstep
    rw [show i + (left + 1) = i + 1 + left by omega, ← hstep]
    change multiblockWriteLoop sparse ino offset addr (i + 1) left (Function.update _ ino
      (SparseFile.write _ ((offset + i) % 2 ^ 32) (blockAt addr i))) = _
    rw [Nat.mod_eq_of_lt (show offset + i < 2 ^ 32 by omega)]

theorem multiblockWrite_eq {ino offset : Nat} {addr : Buffer} {n : Nat} (files : Files Block)
    (h : offset + n ≤ 2 ^ 32) :
    multiblockWrite sparse ino offset addr n files =
      (true, writeBlocks files ino offset addr n) := by
  have hloop := multiblockWriteLoop_eq files ino addr (i := 0) h
  rw [writeBlocks_zero, Nat.zero_add] at hloop
  exact hloop

theorem sparse_read_lt {files : Files Block} {ino b : Nat} (h : b < (files ino).size) :
    sparse.read ino b files = (some ((files ino).data b), files) := by
  change ((files ino).read b, files) = _
  unfold SparseFile.read
  rw [if_pos h]

theorem sparse_read_ge {files : Files Block} {ino b : Nat} (h : (files ino).size ≤ b) :
    sparse.read ino b files = (none, files) := by
  change ((files ino).read b, files) = _
  unfold SparseFile.read
  rw [if_neg (by omega)]

theorem multiblockReadLoop_spec (ino offset left : Nat) (files : Files Block) :
    ∀ (i : Nat) (addr : Buffer), (∀ j, j < i → (offset + j) % 2 ^ 32 < (files ino).size) →
      (multiblockReadLoop sparse ino offset i addr left files).2 = files ∧
        ∀ count contents,
          (multiblockReadLoop sparse ino offset i addr left files).1 = some (count, contents) →
            count ≤ i + left ∧ ∀ j, j < count → (offset + j) % 2 ^ 32 < (files ino).size := by
  induction left with
  | zero =>
    intro i addr hi
    refine ⟨rfl, fun count contents hc => ?_⟩
    obtain ⟨rfl, -⟩ := Prod.mk.injEq .. ▸ Option.some.inj hc
    exact ⟨Nat.le_refl _, hi⟩
  | succ left ih =>
    intro i addr hi
    unfold multiblockReadLoop
    by_cases hlt : (offset + i) % 2 ^ 32 < (files ino).size
    · obtain ⟨hs, hc⟩ := ih (i + 1) (putBlock addr i ((files ino).data ((offset + i) % 2 ^ 32)))
        (fun j hj => by
          rcases Nat.lt_succ_iff_lt_or_eq.mp hj with hj | rfl
          · exact hi j hj
          · exact hlt)
      simp only [bind, StateT.bind, sparse_read_lt hlt]
      refine ⟨hs, fun count contents heq => ?_⟩
      obtain ⟨hle, hall⟩ := hc count contents heq
      exact ⟨by omega, hall⟩
    · simp only [bind, StateT.bind, sparse_read_ge (Nat.le_of_not_lt hlt)]
      refine ⟨rfl, fun count contents hc => ?_⟩
      change (if i = 0 then none else some (i, addr)) = _ at hc
      split at hc
      · cases hc
      · obtain ⟨rfl, -⟩ := Prod.mk.injEq .. ▸ Option.some.inj hc
        exact ⟨by omega, hi⟩

theorem multiblockReadLoop_ne_none (ino offset left : Nat) (files : Files Block) :
    ∀ (i : Nat) (addr : Buffer), 0 < i →
      (multiblockReadLoop sparse ino offset i addr left files).1 ≠ none := by
  induction left with
  | zero => exact fun i addr _ h => Option.some_ne_none _ h
  | succ left ih =>
    intro i addr hi
    unfold multiblockReadLoop
    by_cases hb : (offset + i) % 2 ^ 32 < (files ino).size
    · simp only [bind, StateT.bind, sparse_read_lt hb]
      exact ih (i + 1) _ (by omega)
    · simp only [bind, StateT.bind, sparse_read_ge (Nat.le_of_not_lt hb)]
      change (if i = 0 then none else some (i, addr)) ≠ none
      rw [if_neg (by omega)]
      exact Option.some_ne_none _

/-- The first block decides whether a read fails. -/
theorem multiblockRead_eq_none (ino offset : Nat) (addr : Buffer) (n : Nat) (files : Files Block) :
    (multiblockRead sparse ino offset addr n files).1 = none ↔
      n ≠ 0 ∧ (files ino).size ≤ offset % 2 ^ 32 := by
  cases n with
  | zero => exact ⟨fun h => absurd h (Option.some_ne_none _), fun h => absurd rfl h.1⟩
  | succ left =>
    unfold multiblockRead multiblockReadLoop
    rw [Nat.add_zero]
    by_cases hb : offset % 2 ^ 32 < (files ino).size
    · simp only [bind, StateT.bind, sparse_read_lt hb]
      constructor
      · intro h
        exact absurd h (multiblockReadLoop_ne_none _ _ _ _ 1 _ (by omega))
      · exact fun h => absurd hb (by omega)
    · simp only [bind, StateT.bind, sparse_read_ge (Nat.le_of_not_lt hb)]
      exact ⟨fun _ => ⟨by omega, Nat.le_of_not_lt hb⟩, fun _ => rfl⟩

/-- The memory after up to `n` blocks of a file were read into it, from `done` on. -/
def readBlocks (file : SparseFile Block) (offset done n : Nat) (addr : Buffer) : Buffer := fun k =>
  if done ≤ k / blockSize ∧ k / blockSize < min n (file.size - offset) then
    byteAt file.data (offset * blockSize + k)
  else addr k

theorem readBlocks_succ (file : SparseFile Block) {offset i n : Nat} (addr : Buffer)
    (hn : i < n) (hi : offset + i < file.size) :
    readBlocks file offset (i + 1) n (putBlock addr i (file.data (offset + i))) =
      readBlocks file offset i n addr := by
  funext k
  unfold readBlocks putBlock
  by_cases hk : k / blockSize = i
  · have hdiv : (offset * blockSize + k) / blockSize = offset + i := by
      rw [Nat.mul_comm, Nat.mul_add_div (by decide), hk]
    have hmod : (offset * blockSize + k) % blockSize = k % blockSize := by
      rw [Nat.mul_comm, Nat.mul_add_mod]
    rw [if_neg (by omega), if_pos hk, if_pos (by omega)]
    unfold byteAt
    simp only [hdiv, hmod]
  · have hiff : (i + 1 ≤ k / blockSize ∧ k / blockSize < min n (file.size - offset)) ↔
        (i ≤ k / blockSize ∧ k / blockSize < min n (file.size - offset)) := by omega
    simp only [hiff, if_neg hk]

theorem readBlocks_none (file : SparseFile Block) {offset i n : Nat} (addr : Buffer)
    (h : min n (file.size - offset) ≤ i) : readBlocks file offset i n addr = addr := by
  funext k
  unfold readBlocks
  rw [if_neg (by omega)]

theorem multiblockReadLoop_eq (files : Files Block) {ino offset left : Nat} :
    ∀ {i : Nat} (addr : Buffer), offset + i + left ≤ 2 ^ 32 →
      i = 0 ∨ offset + i ≤ (files ino).size →
      multiblockReadLoop sparse ino offset i addr left files =
        (if i = 0 ∧ 0 < left ∧ (files ino).size ≤ offset then none
          else some (min (i + left) ((files ino).size - offset),
            readBlocks (files ino) offset i (i + left) addr), files) := by
  induction left with
  | zero =>
    intro i addr h hi
    rw [if_neg (by omega), readBlocks_none _ _ (by omega), Nat.add_zero]
    have hmin : min i ((files ino).size - offset) = i := by omega
    rw [hmin]
    rfl
  | succ left ih =>
    intro i addr h hi
    unfold multiblockReadLoop
    rw [Nat.mod_eq_of_lt (show offset + i < 2 ^ 32 by omega)]
    by_cases hlt : offset + i < (files ino).size
    · have hrec := ih (i := i + 1) (putBlock addr i ((files ino).data (offset + i)))
        (by omega) (.inr (by omega))
      rw [if_neg (by omega), show i + 1 + left = i + (left + 1) by omega,
        readBlocks_succ _ _ (by omega) hlt] at hrec
      have hfound : ¬(i = 0 ∧ 0 < left + 1 ∧ (files ino).size ≤ offset) := by omega
      simp only [bind, StateT.bind, sparse_read_lt hlt]
      rw [if_neg hfound]
      exact hrec
    · simp only [bind, StateT.bind, sparse_read_ge (Nat.le_of_not_lt hlt)]
      change (if i = 0 then none else some (i, addr), files) = _
      by_cases hz : i = 0
      · rw [if_pos hz, if_pos ⟨hz, by omega, by omega⟩]
      · rw [if_neg hz, if_neg (by omega), readBlocks_none _ _ (by omega)]
        have hmin : min (i + (left + 1)) ((files ino).size - offset) = i := by omega
        rw [hmin]

theorem multiblockRead_eq (files : Files Block) {ino offset n : Nat} (addr : Buffer)
    (h : offset + n ≤ 2 ^ 32) :
    multiblockRead sparse ino offset addr n files =
      (if 0 < n ∧ (files ino).size ≤ offset then none
        else some (min n ((files ino).size - offset), readBlocks (files ino) offset 0 n addr),
        files) := by
  unfold multiblockRead
  rw [multiblockReadLoop_eq files addr (by omega) (.inl rfl), Nat.zero_add]
  simp only [true_and]

end Bfs

end Egos.File
