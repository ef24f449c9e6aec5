import Egos.File.Access

/-!
# A block server whose calls fail

Sparse files behind calls that fail where a pattern says so. Each kind of call is counted
on its own, so every way in which the calls of a run can fail is a pattern. A call that fails
changes no file.
-/
namespace Egos.File

open Egos.Lib Egos.Disk Bfs

set_option autoImplicit false

inductive Call where
  | getsize
  | setsize
  | read
  | write
  | sync
  deriving DecidableEq

/-- The files, and how many calls of each kind there have been. -/
structure FaultyDisk where
  files : Files Block
  calls : Call → Nat

/-- The calls that fail, by their kind and number. -/
abbrev Faults := Call → Nat → Bool

/-- Make a call, unless it is one of those that fail. -/
def attempt {α : Type} (fails : Faults) (call : Call) (failure : α) (m : StateM (Files Block) α) :
    StateM FaultyDisk α := fun d =>
  let calls := Function.update d.calls call (d.calls call + 1)
  if fails call (d.calls call) then (failure, ⟨d.files, calls⟩)
  else ((m d.files).1, ⟨(m d.files).2, calls⟩)

def faulty (fails : Faults) : BlockServer FaultyDisk where
  getsize ino := attempt fails .getsize none (sparse.getsize ino)
  setsize ino nblocks := attempt fails .setsize false (sparse.setsize ino nblocks)
  read ino offset := attempt fails .read none (sparse.read ino offset)
  write ino offset block := attempt fails .write false (sparse.write ino offset block)
  sync ino := attempt fails .sync false (sparse.sync ino)

/-- How many of the next `left` calls succeed before one fails. -/
def passing (fails : Nat → Bool) (n : Nat) : Nat → Nat
  | 0 => 0
  | left + 1 => if fails n then 0 else passing fails (n + 1) left + 1

theorem passing_le (fails : Nat → Bool) (n left : Nat) : passing fails n left ≤ left := by
  induction left generalizing n with
  | zero => exact Nat.le_refl _
  | succ left ih =>
    have hrec := ih (n + 1)
    unfold passing
    split
    · omega
    · omega

theorem faulty_independent (fails : Faults) : Independent (faulty fails) FaultyDisk.files where
  read ino offset d := by
    change (attempt fails .read none (sparse.read ino offset) d).2.files = _
    unfold attempt
    split
    · rfl
    · rfl
  returned ino offset d block h := by
    change (attempt fails .read none (sparse.read ino offset) d).1 = _ at h
    unfold attempt at h
    split at h
    · cases h
    · exact sparse_independent.returned ino offset d.files block h
  sync ino d := by
    change (attempt fails .sync false (sparse.sync ino) d).2.files = _
    unfold attempt
    split
    · rfl
    · rfl
  setsize ino nblocks d i hi := by
    change (attempt fails .setsize false (sparse.setsize ino nblocks) d).2.files i = _
    unfold attempt
    split
    · rfl
    · exact sparse_independent.setsize ino nblocks d.files i hi
  write ino offset block d i hi := by
    change (attempt fails .write false (sparse.write ino offset block) d).2.files i = _
    unfold attempt
    split
    · rfl
    · exact sparse_independent.write ino offset block d.files i hi

section Attempts

variable {fails : Faults} {call : Call} {α : Type} (failure : α) (m : StateM (Files Block) α)
  {d : FaultyDisk}

theorem attempt_failed (h : fails call (d.calls call) = true) :
    attempt fails call failure m d =
      (failure, ⟨d.files, Function.update d.calls call (d.calls call + 1)⟩) := if_pos h

theorem attempt_passed (h : fails call (d.calls call) = false) :
    attempt fails call failure m d =
      ((m d.files).1, ⟨(m d.files).2, Function.update d.calls call (d.calls call + 1)⟩) :=
  if_neg (by rw [h]; decide)

end Attempts

section Loops

variable (fails : Faults) (ino offset : Nat)

/-- The blocks are written one by one until a call fails. -/
theorem faulty_write (addr : Buffer) (left i : Nat) (d : FaultyDisk) :
    ((multiblockWriteLoop (faulty fails) ino offset addr i left d).1 = true ↔
      passing (fails .write) (d.calls .write) left = left) ∧
    (multiblockWriteLoop (faulty fails) ino offset addr i left d).2.files =
      (multiblockWriteLoop sparse ino offset addr i
        (passing (fails .write) (d.calls .write) left) d.files).2 ∧
    (multiblockWriteLoop (faulty fails) ino offset addr i left d).2.calls =
      Function.update d.calls .write (d.calls .write +
        min (passing (fails .write) (d.calls .write) left + 1) left) := by
  induction left generalizing i d with
  | zero =>
    refine ⟨⟨fun _ => rfl, fun _ => rfl⟩, rfl, ?_⟩
    rw [Nat.min_zero, Nat.add_zero, Function.update_eq_self]
    rfl
  | succ left ih =>
    unfold passing
    cases hf : fails .write (d.calls .write) with
    | true =>
      have hstep := attempt_failed false (sparse.write ino ((offset + i) % 2 ^ 32)
        (blockAt addr i)) hf
      rw [writeLoop_failed hstep, if_pos rfl]
      refine ⟨⟨fun h => (Bool.false_ne_true h).elim, fun h => (Nat.succ_ne_zero _ h.symm).elim⟩,
        rfl, ?_⟩
      rw [Nat.zero_add, min_eq_left (by omega)]
    | false =>
      have hstep := attempt_passed false (sparse.write ino ((offset + i) % 2 ^ 32)
        (blockAt addr i)) hf
      obtain ⟨hok, hfiles, hcalls⟩ := ih (i + 1) ⟨(sparse.write ino ((offset + i) % 2 ^ 32)
        (blockAt addr i) d.files).2, Function.update d.calls .write (d.calls .write + 1)⟩
      simp only [Function.update_self, Function.update_idem] at hok hfiles hcalls
      rw [writeLoop_taken hstep, if_neg Bool.false_ne_true]
      refine ⟨hok.trans (by omega), ?_, ?_⟩
      · rw [hfiles]
        rfl
      · rw [hcalls]
        congr 1
        omega

end Loops

/-- Block `j` of a run that is about to be read cannot be read: its call fails, or the block
is not there. -/
def readFault (fails : Faults) (d : FaultyDisk) (ino offset j : Nat) : Bool :=
  fails .read (d.calls .read + j) || decide ((d.files ino).size ≤ (offset + j) % 2 ^ 32)

/-- The blocks are read one by one up to a fault. -/
theorem faulty_readLoop (fails : Faults) (ino offset : Nat) (d : FaultyDisk) (left i : Nat)
    (addr : Buffer) {d' : FaultyDisk} (hfiles : d'.files = d.files)
    (hcalls : d'.calls .read = d.calls .read + i) :
    (multiblockReadLoop (faulty fails) ino offset i addr left d').1.map Prod.fst =
        (if i = 0 ∧ left ≠ 0 ∧ passing (readFault fails d ino offset) i left = 0 then none
          else some (i + passing (readFault fails d ino offset) i left)) ∧
      ∀ call, call ≠ .read →
        (multiblockReadLoop (faulty fails) ino offset i addr left d').2.calls call =
          d'.calls call := by
  induction left generalizing i addr d' with
  | zero =>
    rw [if_neg (by omega)]
    exact ⟨rfl, fun _ _ => rfl⟩
  | succ left ih =>
    unfold passing
    have hother : ∀ call, call ≠ .read →
        Function.update d'.calls .read (d'.calls .read + 1) call = d'.calls call :=
      fun _ hcall => Function.update_of_ne hcall _ _
    cases hf : fails .read (d'.calls .read) with
    | true =>
      have hstep := attempt_failed none (sparse.read ino ((offset + i) % 2 ^ 32)) hf
      have hfault : readFault fails d ino offset i = true := by
        unfold readFault
        rw [← hcalls, hf]
        rfl
      rw [readLoop_failed hstep, if_pos hfault]
      refine ⟨?_, hother⟩
      by_cases hi : i = 0
      · rw [if_pos hi, if_pos ⟨hi, by omega, rfl⟩]
        rfl
      · rw [if_neg hi, if_neg (fun h => hi h.1)]
        rfl
    | false =>
      have hstep := attempt_passed none (sparse.read ino ((offset + i) % 2 ^ 32)) hf
      by_cases hsize : (d'.files ino).size ≤ (offset + i) % 2 ^ 32
      · have hfault : readFault fails d ino offset i = true := by
          unfold readFault
          rw [← hfiles, decide_eq_true hsize, Bool.or_true]
        rw [sparse_read_ge hsize] at hstep
        rw [readLoop_failed hstep, if_pos hfault]
        refine ⟨?_, hother⟩
        by_cases hi : i = 0
        · rw [if_pos hi, if_pos ⟨hi, by omega, rfl⟩]
          rfl
        · rw [if_neg hi, if_neg (fun h => hi h.1)]
          rfl
      · have hfault : ¬readFault fails d ino offset i = true := by
          unfold readFault
          rw [← hfiles, ← hcalls, hf, decide_eq_false hsize]
          decide
        rw [sparse_read_lt (Nat.lt_of_not_le hsize)] at hstep
        rw [readLoop_found hstep, if_neg hfault]
        have hnext : Function.update d'.calls .read (d'.calls .read + 1) .read =
            d.calls .read + (i + 1) := by
          rw [Function.update_self, hcalls, Nat.add_assoc]
        obtain ⟨hcount, hkept⟩ := @ih (i + 1) (putBlock addr i _)
          ⟨d'.files, Function.update d'.calls .read (d'.calls .read + 1)⟩ hfiles hnext
        refine ⟨?_, fun call hcall => (hkept call hcall).trans (hother call hcall)⟩
        rw [hcount, if_neg (by omega), if_neg (by omega)]
        congr 1
        omega

/-- A read fails with its first block; otherwise it counts the blocks up to the first fault. -/
theorem faulty_read (fails : Faults) (ino offset : Nat) (addr : Buffer) (n : Nat)
    (d : FaultyDisk) :
    (multiblockRead (faulty fails) ino offset addr n d).1.map Prod.fst =
        (if n ≠ 0 ∧ readFault fails d ino offset 0 then none
          else some (passing (readFault fails d ino offset) 0 n)) ∧
      ∀ call, call ≠ .read →
        (multiblockRead (faulty fails) ino offset addr n d).2.calls call = d.calls call := by
  obtain ⟨hcount, hcalls⟩ := faulty_readLoop fails ino offset d n 0 addr rfl rfl
  refine ⟨hcount.trans ?_, hcalls⟩
  rw [Nat.zero_add]
  have hiff : (0 = 0 ∧ n ≠ 0 ∧ passing (readFault fails d ino offset) 0 n = 0) ↔
      (n ≠ 0 ∧ readFault fails d ino offset 0 = true) := by
    cases n with
    | zero => simp
    | succ n =>
      unfold passing
      split
      · rename_i hf
        simp [hf]
      · rename_i hf
        simp [hf]
  exact if_congr hiff rfl rfl

/-- The server on an empty disk. -/
def newFaultyDisk (globalTime : BitVec 64) (startTime numFcbs : BitVec 32) : World FaultyDisk :=
  ⟨fresh globalTime startTime numFcbs, ⟨fun _ => .empty fun _ => 0, fun _ => 0⟩, []⟩

end Egos.File
