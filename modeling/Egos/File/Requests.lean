import Egos.File.Multiblock

/-!
# What a request does to the file table

One lemma for each handler of the block file server, over sparse files: the control block
that it flushes, if any, and that inode 0 is otherwise left alone. `outcome_serve` puts them
together.
-/
namespace Egos.File

open Egos.Lib Egos.Disk Bfs

set_option autoImplicit false

section Commands

variable {σ : Type} {Q : Unit → World σ → Prop} {E : Stop → World σ → Prop} {w : World σ}

@[simp] theorem outcome_onDisk {α : Type} {Q : α → World σ → Prop} (m : StateM σ α) :
    Outcome (onDisk m) Q E w ↔ Q (m w.disk).1 { w with disk := (m w.disk).2 } := Iff.rfl

@[simp] theorem outcome_send (dst : BitVec 32) (rep : FileReply) :
    Outcome (send dst rep) Q E w ↔ Q () { w with outbox := w.outbox ++ [(dst, rep)] } := Iff.rfl

@[simp] theorem outcome_respond (status : FileStatus) (data : List Byte) (src : BitVec 32) :
    Outcome (respond status data src) Q E w ↔
      Q () { w with outbox := w.outbox ++ [(src, .plain status data)] } := Iff.rfl

/-- The server with one control block replaced. -/
def FileServerState.setFcb (fss : FileServerState) (fileNo : Nat) (fcb : FileControlBlock) :
    FileServerState :=
  { fss with fcbCache := Function.update fss.fcbCache fileNo fcb }

@[simp] theorem outcome_setFcb (fileNo : Nat) (fcb : FileControlBlock) :
    Outcome (setFcb fileNo fcb) Q E w ↔ Q () { w with fss := w.fss.setFcb fileNo fcb } := Iff.rfl

def firstBlock (fileNo : Nat) : Nat := fileNo * FileControlBlock.sizeof / blockSize

def lastBlock (fileNo : Nat) : Nat := ((fileNo + 1) * FileControlBlock.sizeof - 1) / blockSize

/-- The files after a control block was flushed. -/
def flushed (fss : FileServerState) (heap : Buffer) (fileNo : Nat) (files : Files Block) :
    Files Block :=
  writeBlocks files 0 (firstBlock fileNo)
    (fun k => tableImage fss heap (firstBlock fileNo * blockSize % 2 ^ 32 + k))
    (lastBlock fileNo + 1)

theorem outcome_flushFcbCache {Q : Unit → World (Files Block) → Prop}
    {E : Stop → World (Files Block) → Prop} {w : World (Files Block)} {env : Env} {fileNo : Nat}
    (hf : fileNo < 2 ^ 32) :
    Outcome (flushFcbCache sparse env fileNo) Q E w ↔
      Q () { w with disk := flushed w.fss env.heap fileNo w.disk } := by
  have hbound : firstBlock fileNo + (lastBlock fileNo + 1) ≤ 2 ^ 32 := by
    unfold firstBlock lastBlock FileControlBlock.sizeof blockSize
    omega
  unfold flushFcbCache
  simp only [Outcome.bind_iff, Outcome.get_iff, outcome_onDisk, Outcome.pure_iff]
  rw [show fileNo * FileControlBlock.sizeof / blockSize = firstBlock fileNo from rfl,
    show ((fileNo + 1) * FileControlBlock.sizeof - 1) / blockSize = lastBlock fileNo from rfl,
    multiblockWrite_eq _ hbound]
  rfl

theorem flushed_other (fss : FileServerState) (heap : Buffer) (fileNo : Nat)
    (files : Files Block) {ino : Nat} (hi : ino ≠ 0) :
    flushed fss heap fileNo files ino = files ino :=
  writeBlocks_other files _ _ _ hi

theorem flushed_congr (fss : FileServerState) (heap : Buffer) (fileNo : Nat)
    {files files' : Files Block} (h : files 0 = files' 0) :
    flushed fss heap fileNo files 0 = flushed fss heap fileNo files' 0 := by
  unfold flushed writeBlocks
  rw [Function.update_self, Function.update_self, h]

end Commands

/-- The server on an empty block server. -/
def newDisk (globalTime : BitVec 64) (startTime numFcbs : BitVec 32) : World (Files Block) :=
  ⟨fresh globalTime startTime numFcbs, fun _ => .empty fun _ => 0, []⟩

/-- The server after it has found no table and made an empty one. -/
def installed (globalTime : BitVec 64) (startTime numFcbs : BitVec 32) : World (Files Block) :=
  { newDisk globalTime startTime numFcbs with
    fss := (fresh globalTime startTime numFcbs).setFcb 0 { FileControlBlock.zero with
      stAlloc := true
      stSize := BitVec.ofNat 64 (numFcbs.toNat * FileControlBlock.sizeof / statsPerBlock) } }

theorem boot_newDisk (globalTime : BitVec 64) (startTime : BitVec 32) (env : Env)
    {numFcbs : BitVec 32} (h0 : 0 < numFcbs.toNat) :
    boot sparse env (newDisk globalTime startTime numFcbs) =
      flushStatCacheAll sparse env (installed globalTime startTime numFcbs) := by
  have hne : ¬numFcbs = 0 := by
    intro h
    rw [h] at h0
    exact absurd h0 (by decide)
  have hload : loadFcbCache sparse env (newDisk globalTime startTime numFcbs) =
      .ok false (newDisk globalTime startTime numFcbs) := rfl
  unfold boot
  simp only [bind, EStateM.bind, hload, Bool.false_eq_true, if_false]
  change (if numFcbs = 0 then _ else _ : EStateM Stop (World (Files Block)) Unit) _ = _
  rw [if_neg hne]
  rfl

/-- A server without room for a control block does not start. -/
theorem boot_pos {globalTime : BitVec 64} {startTime numFcbs : BitVec 32} {env : Env}
    {w : World (Files Block)}
    (hboot : boot sparse env (newDisk globalTime startTime numFcbs) = .ok () w) :
    0 < numFcbs.toNat := by
  by_contra hz
  obtain rfl : numFcbs = 0 := BitVec.eq_of_toNat_eq (Nat.eq_zero_of_not_pos hz)
  have hstop : boot sparse env (newDisk globalTime startTime 0) =
      .error .undefined (newDisk globalTime startTime 0) := rfl
  rw [hstop] at hboot
  cases hboot

/-- Neither the table in memory nor the one on disk changes. -/
structure Kept (w w' : World (Files Block)) : Prop where
  fss : w'.fss = w.fss
  table : w'.disk 0 = w.disk 0

/-- One control block changes and is flushed. -/
structure Flushed (heap : Buffer) (fileNo : Nat) (w w' : World (Files Block)) : Prop where
  lt : fileNo < w.fss.numFcbs.toNat
  fss : ∃ fcb, w'.fss = w.fss.setFcb fileNo fcb
  table : w'.disk 0 = flushed w'.fss heap fileNo w.disk 0

/-- What a request does to the table, by the control block that it flushes. -/
def Effect (heap : Buffer) (w w' : World (Files Block)) : Option Nat → Prop
  | none => Kept w w'
  | some fileNo => Flushed heap fileNo w w'

theorem firstFree_lt {fss : FileServerState} {fileNo left f : Nat}
    (h : firstFree fss fileNo left = some f) : fileNo ≤ f ∧ f < fileNo + left := by
  induction left generalizing fileNo with
  | zero => cases h
  | succ left ih =>
    unfold firstFree at h
    split at h
    · have hrec := ih h
      omega
    · have heq := Option.some.inj h
      omega

theorem firstFree_free {fss : FileServerState} {fileNo left f : Nat}
    (h : firstFree fss fileNo left = some f) : (fss.fcbCache f).stAlloc = false := by
  induction left generalizing fileNo with
  | zero => cases h
  | succ left ih =>
    unfold firstFree at h
    split at h
    · exact ih h
    · rename_i hfree
      rw [← Option.some.inj h]
      exact Bool.not_eq_true _ ▸ hfree

theorem freeFile_lt {fss : FileServerState} {f : Nat} (h : freeFile fss = some f) :
    f ≠ 0 ∧ f < fss.numFcbs.toNat := by
  have hlt := firstFree_lt h
  omega

variable {env : Env} {req : FileRequest} {src uid : BitVec 32} {w : World (Files Block)}

theorem outcome_doCreate :
    Outcome (doCreate sparse env req src uid)
      (fun _ w' => Effect env.heap w w' (freeFile w.fss)) (fun _ _ => False) w := by
  unfold doCreate
  simp only [Outcome.bind_iff, Outcome.get_iff]
  cases hf : freeFile w.fss with
  | none => exact ⟨rfl, rfl⟩
  | some f =>
    have hlt := freeFile_lt hf
    have hn := w.fss.numFcbs.isLt
    simp only [Outcome.bind_iff, outcome_setFcb, outcome_flushFcbCache (show f < 2 ^ 32 by omega),
      outcome_send]
    exact ⟨hlt.2, ⟨_, rfl⟩, rfl⟩

theorem outcome_doDelete (h0 : req.fileNo.toNat ≠ 0) :
    Outcome (doDelete sparse env req src uid)
      (fun _ w' => Effect env.heap w w'
        (if req.fileNo.toNat < w.fss.numFcbs.toNat ∧
            writeAllowed (w.fss.fcbCache req.fileNo.toNat) uid ∧
            (w.fss.fcbCache req.fileNo.toNat).stAlloc then some req.fileNo.toNat else none))
      (fun _ _ => False) w := by
  unfold doDelete
  simp only [Outcome.bind_iff, Outcome.get_iff]
  split
  · rename_i hlt
    rw [if_neg (fun h => absurd h.1 (by omega))]
    exact ⟨rfl, rfl⟩
  · split
    · rename_i hallow
      rw [if_neg (fun h => by simp [h.2.1] at hallow)]
      exact ⟨rfl, rfl⟩
    · split
      · rename_i halloc
        rw [if_neg (fun h => by simp [h.2.2] at halloc)]
        exact ⟨rfl, rfl⟩
      · rename_i hlt hallow halloc
        have hn := w.fss.numFcbs.isLt
        rw [if_pos ⟨by omega, by simpa using hallow, by simpa using halloc⟩]
        simp only [Outcome.bind_iff, outcome_setFcb,
          outcome_flushFcbCache (show req.fileNo.toNat < 2 ^ 32 by omega), outcome_onDisk]
        refine ⟨by omega, ⟨_, rfl⟩, ?_⟩
        exact Function.update_of_ne (Ne.symm h0) _ _

theorem badInode_false {fss : FileServerState} {fileNo : Nat} :
    ¬(badInode fss fileNo = true) ↔
      fileNo < fss.numFcbs.toNat ∧ (fss.fcbCache fileNo).stAlloc = true := by
  unfold badInode
  simp

theorem outcome_doChown :
    Outcome (doChown sparse env req src uid)
      (fun _ w' => Effect env.heap w w'
        (if ¬badInode w.fss req.fileNo.toNat ∧ uid = 0 then some req.fileNo.toNat else none))
      (fun _ _ => False) w := by
  unfold doChown
  simp only [Outcome.bind_iff, Outcome.get_iff]
  split
  · rename_i hbad
    rw [if_neg (fun h => h.1 hbad)]
    exact ⟨rfl, rfl⟩
  · split
    · rename_i huid
      rw [if_neg (fun h => huid h.2)]
      exact ⟨rfl, rfl⟩
    · rename_i hbad huid
      have hlt := (badInode_false.mp hbad).1
      have hn := w.fss.numFcbs.isLt
      rw [if_pos ⟨hbad, by simpa using huid⟩]
      simp only [Outcome.bind_iff, outcome_setFcb,
        outcome_flushFcbCache (show req.fileNo.toNat < 2 ^ 32 by omega), outcome_send]
      exact ⟨hlt, ⟨_, rfl⟩, rfl⟩

theorem outcome_doChmod :
    Outcome (doChmod sparse env req src uid)
      (fun _ w' => Effect env.heap w w'
        (if ¬badInode w.fss req.fileNo.toNat ∧
            (uid = 0 ∨ uid = (w.fss.fcbCache req.fileNo.toNat).stUid)
          then some req.fileNo.toNat else none))
      (fun _ _ => False) w := by
  unfold doChmod
  simp only [Outcome.bind_iff, Outcome.get_iff]
  split
  · rename_i hbad
    rw [if_neg (fun h => h.1 hbad)]
    exact ⟨rfl, rfl⟩
  · split
    · rename_i huid
      rw [if_neg (fun h => h.2.elim huid.1 huid.2)]
      exact ⟨rfl, rfl⟩
    · rename_i hbad huid
      have hlt := (badInode_false.mp hbad).1
      have hn := w.fss.numFcbs.isLt
      rw [if_pos ⟨hbad, Decidable.not_and_iff_not_or_not.mp huid |>.imp
        Decidable.not_not.mp Decidable.not_not.mp⟩]
      simp only [Outcome.bind_iff, outcome_setFcb,
        outcome_flushFcbCache (show req.fileNo.toNat < 2 ^ 32 by omega), outcome_send]
      exact ⟨hlt, ⟨_, rfl⟩, rfl⟩

theorem outcome_doSetsize (h0 : req.fileNo.toNat ≠ 0) :
    Outcome (doSetsize sparse env req src uid)
      (fun _ w' => Effect env.heap w w'
        (if ¬badInode w.fss req.fileNo.toNat ∧
            ¬(w.fss.fcbCache req.fileNo.toNat).stSize < req.offset ∧
            writeAllowed (w.fss.fcbCache req.fileNo.toNat) uid
          then some req.fileNo.toNat else none))
      (fun _ _ => False) w := by
  unfold doSetsize
  simp only [Outcome.bind_iff, Outcome.get_iff]
  split
  · rename_i hbad
    rw [if_neg (fun h => h.1 hbad)]
    exact ⟨rfl, rfl⟩
  · split
    · rename_i hsize
      rw [if_neg (fun h => h.2.1 hsize)]
      exact ⟨rfl, rfl⟩
    · split
      · rename_i hallow
        rw [if_neg (fun h => by simp [h.2.2] at hallow)]
        exact ⟨rfl, rfl⟩
      · rename_i hbad hsize hallow
        have hlt := (badInode_false.mp hbad).1
        have hn := w.fss.numFcbs.isLt
        rw [if_pos ⟨hbad, hsize, by simpa using hallow⟩]
        simp only [Outcome.bind_iff, outcome_onDisk]
        have hok : (sparse.setsize req.fileNo.toNat (finalNblock req.offset).toNat w.disk).1 = true :=
          rfl
        rw [if_pos hok]
        simp only [Outcome.bind_iff, outcome_setFcb, outcome_respond,
          outcome_flushFcbCache (show req.fileNo.toNat < 2 ^ 32 by omega)]
        refine ⟨hlt, ⟨_, rfl⟩, ?_⟩
        exact flushed_congr _ _ _ (Function.update_of_ne (Ne.symm h0) _ _)

theorem readRoom {nblock : BitVec 32} (h : nblock.toNat ≤ 2 ^ 22 + 1) :
    (nblock * BitVec.ofNat 32 blockSize).toNat =
      if nblock.toNat < 2 ^ 22 then nblock.toNat * blockSize
      else (nblock.toNat - 2 ^ 22) * blockSize := by
  rw [BitVec.toNat_mul, toNat_blockSize32]
  unfold blockSize
  split <;> omega

theorem readNblock_toNat (offset : BitVec 64) (n : BitVec 32) :
    (readNblock offset n).toNat =
      ((offset.toNat + n.toNat + (2 ^ 64 - 1)) % 2 ^ 64 / blockSize % 2 ^ 32 +
        (2 ^ 32 - offset.toNat / blockSize % 2 ^ 32) + 1) % 2 ^ 32 := by
  have hn := n.isLt
  unfold readNblock
  simp only [BitVec.toNat_add, BitVec.toNat_sub, BitVec.toNat_setWidth, BitVec.toNat_udiv,
    toNat_blockSize64, show (1 : BitVec 64).toNat = 1 from rfl,
    show (1 : BitVec 32).toNat = 1 from rfl]
  unfold blockSize
  omega

theorem readNblock_le (offset : BitVec 64) (n : BitVec 32) :
    (readNblock offset n).toNat ≤ 2 ^ 22 + 1 := by
  have ho := offset.isLt
  have hn := n.isLt
  rw [readNblock_toNat]
  unfold blockSize
  omega

/-- The blocks of a read that is carried out are more than its buffer holds, and they are
there to be read. -/
structure ReadOverflows (w : World (Files Block)) (req : FileRequest) (uid : BitVec 32) :
    Prop where
  inode : ¬badInode w.fss req.fileNo.toNat
  allowed : readAllowed (w.fss.fcbCache req.fileNo.toNat) uid
  size : req.size ≠ 0
  offset : req.offset < (w.fss.fcbCache req.fileNo.toNat).stSize
  nblock : 2 ^ 22 ≤ (readNblock req.offset
    (readLength (w.fss.fcbCache req.fileNo.toNat).stSize req.offset req.size)).toNat
  blocks : ∀ i, i ≤ (readNblock req.offset
      (readLength (w.fss.fcbCache req.fileNo.toNat).stSize req.offset req.size)).toNat - 2 ^ 22 →
    (((req.offset / BitVec.ofNat 64 blockSize).setWidth 32).toNat + i) % 2 ^ 32 <
      (w.disk req.fileNo.toNat).size

theorem outcome_doRead (hfit : ¬ReadOverflows w req uid) :
    Outcome (doRead sparse env req src uid) (fun _ w' => Kept w w') (fun _ _ => False) w := by
  unfold doRead
  simp only [Outcome.bind_iff, Outcome.get_iff]
  split
  · exact ⟨rfl, rfl⟩
  · split
    · exact ⟨rfl, rfl⟩
    · split
      · exact ⟨rfl, rfl⟩
      · split
        · rename_i hbad hallow hsize hoff
          simp only [Outcome.bind_iff, outcome_onDisk]
          obtain ⟨hfiles, hcount⟩ := multiblockReadLoop_spec req.fileNo.toNat
            ((req.offset / BitVec.ofNat 64 blockSize).setWidth 32).toNat
            (readNblock req.offset (readLength (w.fss.fcbCache req.fileNo.toNat).stSize
              req.offset req.size)).toNat w.disk 0 env.heap (fun j hj => absurd hj (by omega))
          rw [show multiblockReadLoop sparse req.fileNo.toNat _ 0 env.heap _ =
            multiblockRead sparse req.fileNo.toNat _ env.heap _ from rfl] at hfiles hcount
          split
          · exact ⟨rfl, congrFun hfiles 0⟩
          · rename_i count contents hread
            obtain ⟨hle, hall⟩ := hcount count contents hread
            split
            · rename_i hover
              refine hfit ⟨hbad, by simpa using hallow, hsize, hoff, ?_, fun i hi => hall i ?_⟩
              all_goals
                have hb := readNblock_le req.offset (readLength
                  (w.fss.fcbCache req.fileNo.toNat).stSize req.offset req.size)
                rw [readRoom hb] at hover
                unfold blockSize at hover
                split at hover <;> omega
            · split
              · exact ⟨rfl, congrFun hfiles 0⟩
              · exact ⟨rfl, congrFun hfiles 0⟩
        · exact ⟨rfl, rfl⟩

theorem outcome_doStat :
    Outcome (doStat req src uid) (fun _ w' => Kept w w') (fun _ _ => False) w := by
  unfold doStat
  simp only [Outcome.bind_iff, Outcome.get_iff]
  split
  · exact ⟨rfl, rfl⟩
  · split
    · exact ⟨rfl, rfl⟩
    · exact ⟨rfl, rfl⟩

theorem outcome_doSync :
    Outcome (doSync sparse req src) (fun _ w' => Kept w w') (fun _ _ => False) w := by
  unfold doSync
  simp only [Outcome.bind_iff, Outcome.get_iff]
  split
  · exact ⟨rfl, rfl⟩
  · exact ⟨rfl, rfl⟩

/-- The first block that a write has to read is not there. -/
structure PutFails (w : World (Files Block)) (fileNo : Nat) (offset : BitVec 64)
    (size : BitVec 32) : Prop where
  start : ¬(w.fss.fcbCache fileNo).stSize / BitVec.ofNat 64 blockSize <
    offset / BitVec.ofNat 64 blockSize
  nonempty : (w.fss.fcbCache fileNo).stSize ≠ 0
  nblock : (putPlan (w.fss.fcbCache fileNo).stSize offset size).psizeNblock ≠ 0
  missing : (w.disk fileNo).size ≤ ((offset / BitVec.ofNat 64 blockSize).setWidth 32).toNat

instance (w : World (Files Block)) (fileNo : Nat) (offset : BitVec 64) (size : BitVec 32) :
    Decidable (PutFails w fileNo offset size) :=
  decidable_of_iff (¬(w.fss.fcbCache fileNo).stSize / BitVec.ofNat 64 blockSize <
      offset / BitVec.ofNat 64 blockSize ∧ (w.fss.fcbCache fileNo).stSize ≠ 0 ∧
      (putPlan (w.fss.fcbCache fileNo).stSize offset size).psizeNblock ≠ 0 ∧
      (w.disk fileNo).size ≤ ((offset / BitVec.ofNat 64 blockSize).setWidth 32).toNat)
    ⟨fun h => ⟨h.1, h.2.1, h.2.2.1, h.2.2.2⟩, fun h => ⟨h.1, h.2, h.3, h.4⟩⟩

theorem outcome_putContents {fileNo : Nat} {offset : BitVec 64} {size : BitVec 32} :
    Outcome (putContents sparse fileNo (w.fss.fcbCache fileNo).stSize
        (offset / BitVec.ofNat 64 blockSize)
        (putPlan (w.fss.fcbCache fileNo).stSize offset size).psizeNblock)
      (fun r w' => w' = w ∧ (r = none ↔ PutFails w fileNo offset size)) (fun _ _ => False) w := by
  unfold putContents
  split
  · rename_i hstart
    exact ⟨rfl, fun h => absurd h (Option.some_ne_none _), fun h => absurd hstart h.start⟩
  · split
    · rename_i hzero
      exact ⟨rfl, fun h => absurd h (Option.some_ne_none _), fun h => absurd hzero h.nonempty⟩
    · rename_i hstart hzero
      simp only [Outcome.bind_iff, outcome_onDisk, Outcome.pure_iff, Option.map_eq_none_iff]
      have hfiles := (multiblockReadLoop_spec fileNo
        ((offset / BitVec.ofNat 64 blockSize).setWidth 32).toNat
        (putPlan (w.fss.fcbCache fileNo).stSize offset size).psizeNblock.toNat w.disk 0
        (fun _ => 0) (fun j hj => absurd hj (by omega))).1
      constructor
      · exact congrArg (fun files => { w with disk := files }) hfiles
      · rw [multiblockRead_eq_none, Nat.mod_eq_of_lt (BitVec.isLt _)]
        constructor
        · exact fun h => ⟨hstart, hzero, fun hz => h.1 (by rw [hz]; rfl), h.2⟩
        · exact fun h => ⟨fun hz => h.nblock (BitVec.eq_of_toNat_eq hz), h.missing⟩

theorem outcome_put {fileNo : Nat} {offset : BitVec 64} {data : List Byte} {size : BitVec 32}
    (h0 : fileNo ≠ 0) (hlt : fileNo < w.fss.numFcbs.toNat) :
    Outcome (put sparse env fileNo offset data size)
      (fun r w' => (r = -1 ∧ PutFails w fileNo offset size ∧ Kept w w') ∨
        (r = 0 ∧ ¬PutFails w fileNo offset size ∧ Flushed env.heap fileNo w w'))
      (fun _ _ => False) w := by
  have hn := w.fss.numFcbs.isLt
  unfold put
  simp only [Outcome.bind_iff, Outcome.get_iff]
  refine outcome_putContents.post (fun r w' hpost => ?_)
  obtain ⟨hw, hr⟩ := hpost
  subst hw
  cases r with
  | none => exact .inl ⟨rfl, hr.mp rfl, rfl, rfl⟩
  | some contents =>
    simp only [Outcome.bind_iff, outcome_onDisk]
    obtain ⟨hok, hframe⟩ := multiblockWrite_frame fileNo
      ((offset / BitVec.ofNat 64 blockSize).setWidth 32).toNat
      (overlay contents (offset.toNat % blockSize) data)
      (((putPlan (w'.fss.fcbCache fileNo).stSize offset size).endBlockNo -
        offset / BitVec.ofNat 64 blockSize + 1).setWidth 32).toNat w'.disk
    rw [if_pos hok]
    simp only [Outcome.bind_iff, outcome_setFcb, outcome_flushFcbCache (show fileNo < 2 ^ 32 by omega),
      Outcome.pure_iff]
    refine .inr ⟨trivial, fun hf => absurd (hr.mpr hf) (Option.some_ne_none _), hlt, ⟨_, rfl⟩, ?_⟩
    exact flushed_congr _ _ _ (hframe 0 (Ne.symm h0))

theorem outcome_doWrite {data : List Byte} (h0 : req.fileNo.toNat ≠ 0) :
    Outcome (doWrite sparse env req data src uid)
      (fun _ w' => Effect env.heap w w'
        (if ¬badInode w.fss req.fileNo.toNat ∧ req.size = BitVec.ofNat 32 data.length ∧
            writeAllowed (w.fss.fcbCache req.fileNo.toNat) uid ∧
            ¬PutFails w req.fileNo.toNat req.offset (BitVec.ofNat 32 data.length)
          then some req.fileNo.toNat else none))
      (fun _ _ => False) w := by
  unfold doWrite
  simp only [Outcome.bind_iff, Outcome.get_iff]
  split
  · rename_i hbad
    rw [if_neg (fun h => h.1 hbad)]
    exact ⟨rfl, rfl⟩
  · split
    · rename_i hsize
      rw [if_neg (fun h => hsize h.2.1)]
      exact ⟨rfl, rfl⟩
    · split
      · rename_i hallow
        rw [if_neg (fun h => by simp [h.2.2.1] at hallow)]
        exact ⟨rfl, rfl⟩
      · rename_i hbad hsize hallow
        simp only [Outcome.bind_iff]
        refine (outcome_put h0 (badInode_false.mp hbad).1).post (fun r w' hput => ?_)
        rcases hput with ⟨hr, hfail, hkept⟩ | ⟨hr, hok, hflushed⟩
        · rw [if_neg (by rw [hr]; decide), if_neg (fun h => h.2.2.2 hfail)]
          exact ⟨hkept.fss, hkept.table⟩
        · rw [if_pos hr, if_pos ⟨hbad, by simpa using hsize, by simpa using hallow, hok⟩]
          exact ⟨hflushed.lt, hflushed.fss, hflushed.table⟩

/-- The control block that a request flushes. -/
def flushTarget (w : World (Files Block)) (msg : Message) : Option Nat :=
  msg.request.bind fun req =>
    let fileNo := req.fileNo.toNat
    let fcb := w.fss.fcbCache fileNo
    let data := msg.payload.take fileMaxMsgSize
    match req.type with
    | .create => freeFile w.fss
    | .delete =>
      if fileNo < w.fss.numFcbs.toNat ∧ writeAllowed fcb msg.uid ∧ fcb.stAlloc
      then some fileNo else none
    | .chown => if ¬badInode w.fss fileNo ∧ msg.uid = 0 then some fileNo else none
    | .chmod =>
      if ¬badInode w.fss fileNo ∧ (msg.uid = 0 ∨ msg.uid = fcb.stUid) then some fileNo else none
    | .write =>
      if ¬badInode w.fss fileNo ∧ req.size = BitVec.ofNat 32 data.length ∧
        writeAllowed fcb msg.uid ∧ ¬PutFails w fileNo req.offset (BitVec.ofNat 32 data.length)
      then some fileNo else none
    | .setsize =>
      if ¬badInode w.fss fileNo ∧ ¬fcb.stSize < req.offset ∧ writeAllowed fcb msg.uid
      then some fileNo else none
    | .read | .stat | .sync | .unused | .setFlags => none

/-- A request that names a file names one other than the table. -/
def OtherFile (msg : Message) : Prop :=
  ∀ req, msg.request = some req → req.type = .create ∨ req.fileNo ≠ 0

/-- The blocks that a control block is flushed to are blocks of the table. -/
def FlushFits (numFcbs : BitVec 32) (fileNo : Nat) : Prop :=
  firstBlock fileNo + lastBlock fileNo <
    (numFcbs.toNat * FileControlBlock.sizeof + (blockSize - 1)) / blockSize

/-- A request stays inside the table on disk and inside its own memory. -/
structure Fits (w : World (Files Block)) (msg : Message) : Prop where
  flush : ∀ fileNo, flushTarget w msg = some fileNo → FlushFits w.fss.numFcbs fileNo
  read : ∀ req, msg.request = some req → req.type = .read → ¬ReadOverflows w req msg.uid

/-- The server has an assertion against the message. -/
def Malformed (msg : Message) : Prop :=
  ∀ req, msg.request = some req → req.type = .unused ∨ req.type = .setFlags

theorem outcome_serve {msg : Message} (hother : OtherFile msg) (hfit : Fits w msg) :
    Outcome (serve sparse env msg)
      (fun _ w' => Effect env.heap w w' (flushTarget w msg))
      (fun e w' => e = .assert ∧ Malformed msg ∧ w' = w) w := by
  unfold serve flushTarget Malformed
  cases hreq : msg.request with
  | none => exact ⟨rfl, fun req h => absurd h.symm (Option.some_ne_none _), rfl⟩
  | some req =>
    have hfile : req.type = .create ∨ req.fileNo.toNat ≠ 0 := by
      refine (hother req hreq).imp_right (fun h hz => h ?_)
      exact BitVec.eq_of_toNat_eq hz
    have hread := hfit.read req hreq
    simp only [Option.bind_some]
    cases htype : req.type <;> simp only [htype, reduceCtorEq, false_or] at hfile <;> dsimp only
    case create => exact outcome_doCreate.mono (fun _ _ h => h) (fun _ _ h => h.elim)
    case delete => exact (outcome_doDelete hfile).mono (fun _ _ h => h) (fun _ _ h => h.elim)
    case chown => exact outcome_doChown.mono (fun _ _ h => h) (fun _ _ h => h.elim)
    case chmod => exact outcome_doChmod.mono (fun _ _ h => h) (fun _ _ h => h.elim)
    case read => exact (outcome_doRead (hread htype)).mono (fun _ _ h => h) (fun _ _ h => h.elim)
    case write => exact (outcome_doWrite hfile).mono (fun _ _ h => h) (fun _ _ h => h.elim)
    case stat => exact outcome_doStat.mono (fun _ _ h => h) (fun _ _ h => h.elim)
    case sync => exact outcome_doSync.mono (fun _ _ h => h) (fun _ _ h => h.elim)
    case setsize => exact (outcome_doSetsize hfile).mono (fun _ _ h => h) (fun _ _ h => h.elim)
    case unused => exact ⟨rfl, fun r hr => .inl (by rw [← Option.some.inj hr, htype]), rfl⟩
    case setFlags => exact ⟨rfl, fun r hr => .inr (by rw [← Option.some.inj hr, htype]), rfl⟩

/-- The message asks for this of this file. -/
structure Asks (op : FileOp) (f : Nat) (msg : Message) (req : FileRequest) : Prop where
  request : msg.request = some req
  op : req.type = op
  file : req.fileNo.toNat = f

/-- Every request of a run leads to a state that `P` allows, also the one that stops it. -/
def Along {σ : Type} (svr : BlockServer σ) (P : World σ → Env × Message → World σ → Prop) :
    List (Env × Message) → World σ → Prop
  | [], _ => True
  | m :: rest, w =>
    Outcome (serve svr m.1 m.2) (fun _ w' => P w m w' ∧ Along svr P rest w')
      (fun _ w' => P w m w') w

theorem Along.of_step {σ : Type} {svr : BlockServer σ}
    {P : World σ → Env × Message → World σ → Prop}
    (h : ∀ w m, Outcome (serve svr m.1 m.2) (fun _ w' => P w m w') (fun _ w' => P w m w') w)
    (msgs : List (Env × Message)) (w : World σ) : Along svr P msgs w := by
  induction msgs generalizing w with
  | nil => trivial
  | cons m rest ih => exact (h w m).post fun _ w' hw' => ⟨hw', ih w'⟩

/-- What each request keeps, in the states that the requests before it lead to, a whole run
keeps. -/
theorem serveAll_along {σ : Type} {svr : BlockServer σ} {P : World σ → Prop}
    {msgs : List (Env × Message)} {w₀ : World σ}
    (hstep : ∀ done m rest w w', msgs = done ++ m :: rest → serveAll svr done w₀ = .ok () w →
      P w → serve svr m.1 m.2 w = .ok () w' → P w')
    {w : World σ} (h : P w₀) (hrun : serveAll svr msgs w₀ = .ok () w) : P w := by
  induction msgs generalizing w₀ with
  | nil =>
    cases hrun
    exact h
  | cons m rest ih =>
    unfold serveAll at hrun
    simp only [bind, EStateM.bind] at hrun
    cases hserve : serve svr m.1 m.2 w₀ with
    | error e w₁ =>
      rw [hserve] at hrun
      cases hrun
    | ok _ w₁ =>
      rw [hserve] at hrun
      refine ih (fun done m' rest' w₂ w' hmsgs hdone => ?_) ?_ hrun
      · apply hstep (m :: done) m' rest' w₂ w' (by rw [hmsgs]; rfl)
        unfold serveAll
        simp only [bind, EStateM.bind, hserve]
        exact hdone
      · exact hstep [] m rest w₀ w₁ rfl rfl h hserve

theorem serveAll_keeps {σ : Type} {svr : BlockServer σ} {P : World σ → Prop}
    {msgs : List (Env × Message)}
    (hstep : ∀ m ∈ msgs, ∀ w w', P w → serve svr m.1 m.2 w = .ok () w' → P w')
    {w w' : World σ} (h : P w) (hrun : serveAll svr msgs w = .ok () w') : P w' := by
  apply serveAll_along (fun done m rest w₁ w₂ hmsgs _ h₁ hs => ?_) h hrun
  apply hstep m _ w₁ w₂ h₁ hs
  rw [hmsgs]
  exact List.mem_append_right _ List.mem_cons_self

/-- A server with pid 5, two seconds after its start. -/
def testEnv : Env := ⟨5, 2000, fun _ => 0xff⟩

/-- A request by root. -/
def testRequest (type : FileOp) (fileNo : BitVec 32) (offset : BitVec 64) (data : List Byte) :
    Env × Message :=
  (testEnv, ⟨9, 0, some ⟨type, fileNo, offset, BitVec.ofNat 32 data.length, 0, 0⟩, data⟩)

end Egos.File
