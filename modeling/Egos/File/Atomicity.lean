import Egos.File.Faults

/-!
# Requests that fail

Over a block server whose calls can fail. A request whose first reply reports a failure has
changed nothing, except where it is `HalfDone`: a deletion or a truncation goes on after the
block server has refused it, and a write of several blocks stops after some of them.
-/
namespace Egos.File

open Egos.Lib Egos.Disk Bfs

set_option autoImplicit false

/-- The byte at a position of a file, if there is one and its block can be read. -/
def readable (w : World FaultyDisk) (f k : Nat) : Option Byte :=
  if k < (w.fss.fcbCache f).stSize.toNat then
    ((w.disk.files f).read (k / blockSize % 2 ^ 32)).map fun block =>
      block ⟨k % blockSize, mod_blockSize_lt k⟩
  else none

/-- If the first reply to a request reports a failure, then the table in memory and what can
be read of the files are as they were. -/
def Atomic (w w' : World FaultyDisk) : Prop :=
  ∀ dst rep rest, w'.outbox = w.outbox ++ (dst, rep) :: rest → rep.status = .error →
    w'.fss.fcbCache = w.fss.fcbCache ∧ ∀ f k, readable w' f k = readable w f k

/-- A write to this block shows in what can be read of the file: the block is one of the
file's, or one of them is missing before it. -/
def Exposed (w : World FaultyDisk) (f b : Nat) : Prop :=
  ∃ k, k < (w.fss.fcbCache f).stSize.toNat ∧ (k / blockSize % 2 ^ 32 = b ∨
    (w.disk.files f).size ≤ k / blockSize % 2 ^ 32 ∧ k / blockSize % 2 ^ 32 < b)

/-- The number of the first block of a write, as the block server gets it. -/
def writeStart (offset : BitVec 64) : Nat :=
  ((offset / BitVec.ofNat 64 blockSize).setWidth 32).toNat

/-- The number of blocks that a write writes. -/
def writeCount (fileSize offset : BitVec 64) (size : BitVec 32) : Nat :=
  (((putPlan fileSize offset size).endBlockNo - offset / BitVec.ofNat 64 blockSize + 1).setWidth
    32).toNat

/-- A write has to read the first block of its range and cannot. -/
structure FirstUnread (fails : Faults) (w : World FaultyDisk) (f : Nat) (offset : BitVec 64)
    (size : BitVec 32) : Prop where
  start : ¬(w.fss.fcbCache f).stSize / BitVec.ofNat 64 blockSize <
    offset / BitVec.ofNat 64 blockSize
  nonempty : (w.fss.fcbCache f).stSize ≠ 0
  nblock : (putPlan (w.fss.fcbCache f).stSize offset size).psizeNblock.toNat ≠ 0
  fault : readFault fails w.disk f (writeStart offset) 0

/-- The blocks that a write reads back before one cannot be read. -/
def readBack (fails : Faults) (w : World FaultyDisk) (f : Nat) (offset : BitVec 64)
    (size : BitVec 32) : Nat :=
  if (w.fss.fcbCache f).stSize / BitVec.ofNat 64 blockSize < offset / BitVec.ofNat 64 blockSize ∨
      (w.fss.fcbCache f).stSize = 0 then 0
  else passing (readFault fails w.disk f (writeStart offset)) 0
    (putPlan (w.fss.fcbCache f).stSize offset size).psizeNblock.toNat

/-- The blocks that are written before one is refused, if one is. -/
def writeTaken (fails : Faults) (w : World FaultyDisk) (f : Nat) (offset : BitVec 64)
    (size : BitVec 32) : Nat :=
  passing (fails .write) (w.disk.calls .write) (writeCount (w.fss.fcbCache f).stSize offset size)

/-- A block of the write is refused after others were taken, and one of those shows. -/
structure HalfWritten (fails : Faults) (w : World FaultyDisk) (f : Nat) (offset : BitVec 64)
    (size : BitVec 32) : Prop where
  read : ¬FirstUnread fails w f offset size
  refused : writeTaken fails w f offset size < writeCount (w.fss.fcbCache f).stSize offset size
  exposed : ∃ j, j < writeTaken fails w f offset size ∧
    Exposed w f ((writeStart offset + j) % 2 ^ 32)

/-- The requests that fail after they have changed something. -/
inductive HalfDone (fails : Faults) (w : World FaultyDisk) (msg : Message) : Prop
  | delete (f : Nat) (req : FileRequest) (asks : Asks .delete f msg req)
      (file : ¬badInode w.fss f) (allowed : writeAllowed (w.fss.fcbCache f) msg.uid)
      (fault : fails .setsize (w.disk.calls .setsize))
  | setsize (f : Nat) (req : FileRequest) (asks : Asks .setsize f msg req)
      (file : ¬badInode w.fss f) (size : ¬(w.fss.fcbCache f).stSize < req.offset)
      (allowed : writeAllowed (w.fss.fcbCache f) msg.uid)
      (fault : fails .setsize (w.disk.calls .setsize))
  | write (f : Nat) (req : FileRequest) (asks : Asks .write f msg req)
      (file : ¬badInode w.fss f)
      (size : req.size = BitVec.ofNat 32 (msg.payload.take fileMaxMsgSize).length)
      (allowed : writeAllowed (w.fss.fcbCache f) msg.uid)
      (half : HalfWritten fails w f req.offset req.size)

/-- Blocks that are written change no read of another block, unless it was missing and lies
before one of them. -/
theorem writeLoop_read (ino offset : Nat) (addr : Buffer) {b left i : Nat} {files : Files Block}
    (h : ∀ j, j < left → b ≠ (offset + (i + j)) % 2 ^ 32 ∧
      ((files ino).size ≤ b → (offset + (i + j)) % 2 ^ 32 < b)) :
    ((multiblockWriteLoop sparse ino offset addr i left files).2 ino).read b =
      (files ino).read b := by
  induction left generalizing i files with
  | zero => rfl
  | succ left ih =>
    obtain ⟨hne, hpast⟩ := h 0 (by omega)
    rw [Nat.add_zero] at hne hpast
    have hstep : ((files ino).write ((offset + i) % 2 ^ 32) (blockAt addr i)).read b =
        (files ino).read b := by
      unfold SparseFile.write SparseFile.read
      dsimp only
      rw [Function.update_of_ne hne]
      by_cases hb : b < (files ino).size
      · rw [if_pos hb, if_pos (lt_of_lt_of_le hb (le_max_left _ _))]
      · have hlt := hpast (Nat.le_of_not_lt hb)
        rw [if_neg hb, if_neg (by omega)]
    have hwrite : sparse.write ino ((offset + i) % 2 ^ 32) (blockAt addr i) files =
        (true, Function.update files ino
          ((files ino).write ((offset + i) % 2 ^ 32) (blockAt addr i))) := rfl
    rw [writeLoop_taken hwrite, ih (fun j hj => ?_), Function.update_self, hstep]
    have hlater := h (j + 1) (by omega)
    rw [show i + (j + 1) = i + 1 + j by omega] at hlater
    refine ⟨hlater.1, fun hsize => hlater.2 ?_⟩
    rw [Function.update_self] at hsize
    exact le_trans (le_max_left _ _) hsize

section Handlers

variable {fails : Faults} {env : Env} {req : FileRequest} {src uid : BitVec 32}
  {w w' : World FaultyDisk} {E : Stop → World FaultyDisk → Prop}

theorem Atomic.kept (hfss : w'.fss = w.fss) (hfiles : w'.disk.files = w.disk.files) :
    Atomic w w' := by
  intro _ _ _ _ _
  refine ⟨by rw [hfss], fun f k => ?_⟩
  unfold readable
  rw [hfss, hfiles]

theorem Atomic.answered {rep : FileReply} {rest : List (BitVec 32 × FileReply)}
    (hout : w'.outbox = w.outbox ++ (src, rep) :: rest) (hok : rep.status = .ok) :
    Atomic w w' := by
  intro dst rep' rest' hout' herr
  have hsame := List.append_cancel_left (hout.symm.trans hout')
  injection hsame with hhead
  injection hhead with _ hrep
  rw [← hrep, hok] at herr
  cases herr

theorem refused_atomic : Outcome (respond .error [] src) (fun _ w' => Atomic w w') E w :=
  Atomic.kept rfl rfl

theorem create_atomic :
    Outcome (doCreate (faulty fails) env req src uid) (fun _ w' => Atomic w w') E w := by
  unfold doCreate
  simp only [Outcome.bind_iff, Outcome.get_iff]
  cases freeFile w.fss with
  | none => exact refused_atomic
  | some g =>
    simp only [Outcome.bind_iff, outcome_setFcb, outcome_send]
    refine (outcome_flush (faulty_independent fails) g).post (fun _ w' hw => ?_)
    exact Atomic.answered (congrArg (· ++ _) hw.outbox) rfl

/-- The calls that a flush makes are writes. -/
theorem outcome_flush_calls (fileNo : Nat) :
    Outcome (flushFcbCache (faulty fails) env fileNo)
      (fun _ w' => w'.disk.calls .setsize = w.disk.calls .setsize) E w := by
  unfold flushFcbCache
  simp only [Outcome.bind_iff, Outcome.get_iff, outcome_onDisk, Outcome.pure_iff]
  change (multiblockWriteLoop (faulty fails) 0 _ _ 0 _ w.disk).2.calls .setsize = _
  rw [(faulty_write fails 0 _ _ _ _ w.disk).2.2]
  exact Function.update_of_ne (by decide) _ _

theorem delete_atomic
    (h : ¬badInode w.fss req.fileNo.toNat →
      writeAllowed (w.fss.fcbCache req.fileNo.toNat) uid →
      fails .setsize (w.disk.calls .setsize) = false) :
    Outcome (doDelete (faulty fails) env req src uid) (fun _ w' => Atomic w w') E w := by
  unfold doDelete
  simp only [Outcome.bind_iff, Outcome.get_iff]
  split
  · exact refused_atomic
  · split
    · exact refused_atomic
    · split
      · exact Atomic.answered rfl rfl
      · rename_i hlt hallow hinuse
        have hpass := h (badInode_false.mpr ⟨by omega, by simpa using hinuse⟩)
          (by simpa using hallow)
        simp only [Outcome.bind_iff, outcome_setFcb]
        refine ((outcome_flush (faulty_independent fails) req.fileNo.toNat).both
          (outcome_flush_calls (E := E) req.fileNo.toNat)).mono (fun _ w₁ hw => ?_)
            (fun _ _ he => he.1)
        obtain ⟨hbeside, hcalls⟩ := hw
        have hset := attempt_passed false (sparse.setsize req.fileNo.toNat 0)
          (show fails .setsize (w₁.disk.calls .setsize) = false by rw [hcalls]; exact hpass)
        have hok : ((faulty fails).setsize req.fileNo.toNat 0 w₁.disk).1 = true :=
          congrArg Prod.fst hset
        rw [outcome_onDisk, if_pos hok]
        exact Atomic.answered (congrArg (· ++ _) hbeside.outbox) rfl

theorem chown_atomic :
    Outcome (doChown (faulty fails) env req src uid) (fun _ w' => Atomic w w') E w := by
  unfold doChown
  simp only [Outcome.bind_iff, Outcome.get_iff]
  split
  · exact refused_atomic
  · split
    · exact refused_atomic
    · simp only [Outcome.bind_iff, outcome_setFcb, outcome_send]
      refine (outcome_flush (faulty_independent fails) req.fileNo.toNat).post (fun _ w' hw => ?_)
      exact Atomic.answered (congrArg (· ++ _) hw.outbox) rfl

theorem chmod_atomic :
    Outcome (doChmod (faulty fails) env req src uid) (fun _ w' => Atomic w w') E w := by
  unfold doChmod
  simp only [Outcome.bind_iff, Outcome.get_iff]
  split
  · exact refused_atomic
  · split
    · exact refused_atomic
    · simp only [Outcome.bind_iff, outcome_setFcb, outcome_send]
      refine (outcome_flush (faulty_independent fails) req.fileNo.toNat).post (fun _ w' hw => ?_)
      exact Atomic.answered (congrArg (· ++ _) hw.outbox) rfl

theorem setsize_atomic
    (h : ¬badInode w.fss req.fileNo.toNat →
      ¬(w.fss.fcbCache req.fileNo.toNat).stSize < req.offset →
      writeAllowed (w.fss.fcbCache req.fileNo.toNat) uid →
      fails .setsize (w.disk.calls .setsize) = false) :
    Outcome (doSetsize (faulty fails) env req src uid) (fun _ w' => Atomic w w') E w := by
  unfold doSetsize
  simp only [Outcome.bind_iff, Outcome.get_iff]
  split
  · exact refused_atomic
  · split
    · exact refused_atomic
    · split
      · exact refused_atomic
      · rename_i hbad hsize hallow
        have hset := attempt_passed false
          (sparse.setsize req.fileNo.toNat (finalNblock req.offset).toNat)
          (h hbad hsize (by simpa using hallow))
        have hok : ((faulty fails).setsize req.fileNo.toNat (finalNblock req.offset).toNat
            w.disk).1 = true := congrArg Prod.fst hset
        rw [Outcome.bind_iff, outcome_onDisk, if_pos hok]
        simp only [Outcome.bind_iff, outcome_setFcb, outcome_respond]
        refine (outcome_flush (faulty_independent fails) req.fileNo.toNat).post (fun _ w' hw => ?_)
        exact Atomic.answered (congrArg (· ++ _) hw.outbox) rfl

theorem sync_atomic :
    Outcome (doSync (faulty fails) req src) (fun _ w' => Atomic w w') E w := by
  have hfiles := (faulty_independent fails).sync req.fileNo.toNat w.disk
  unfold doSync
  simp only [Outcome.bind_iff, Outcome.get_iff]
  split
  · exact refused_atomic
  · rw [Outcome.bind_iff, outcome_onDisk]
    split
    · exact Atomic.answered rfl rfl
    · exact Atomic.kept rfl hfiles

theorem stat_atomic : Outcome (doStat req src uid) (fun _ w' => Atomic w w') E w := by
  unfold doStat
  simp only [Outcome.bind_iff, Outcome.get_iff]
  split
  · exact refused_atomic
  · split
    · exact refused_atomic
    · exact Atomic.answered rfl rfl

theorem read_atomic :
    Outcome (doRead (faulty fails) env req src uid) (fun _ w' => Atomic w w')
      (fun _ w' => Atomic w w') w := by
  unfold doRead
  simp only [Outcome.bind_iff, Outcome.get_iff]
  split
  · exact refused_atomic
  · split
    · exact refused_atomic
    · split
      · exact Atomic.answered rfl rfl
      · split
        · rw [Outcome.bind_iff, outcome_onDisk]
          have hfiles := (multiblockReadLoop_stored (faulty_independent fails) req.fileNo.toNat
            ((req.offset / BitVec.ofNat 64 blockSize).setWidth 32).toNat
            (readNblock req.offset (readLength (w.fss.fcbCache req.fileNo.toNat).stSize
              req.offset req.size)).toNat 0 env.heap w.disk).1
          split
          · exact Atomic.kept rfl hfiles
          · split
            · exact Atomic.kept rfl hfiles
            · split
              · exact Atomic.kept rfl hfiles
              · exact Atomic.answered rfl rfl
        · exact Atomic.answered rfl rfl

/-- What `blkfile_put` reads back before it writes. Without the first block it gives up, and
blocks from a later fault on are taken for zeros. -/
theorem faulty_putContents (f : Nat) (offset : BitVec 64) (size : BitVec 32) :
    Outcome (putContents (faulty fails) f (w.fss.fcbCache f).stSize
        (offset / BitVec.ofNat 64 blockSize)
        (putPlan (w.fss.fcbCache f).stSize offset size).psizeNblock)
      (fun r w' => w'.fss = w.fss ∧ w'.outbox = w.outbox ∧ w'.disk.files = w.disk.files ∧
        w'.disk.calls .write = w.disk.calls .write ∧
        (r = none ↔ FirstUnread fails w f offset size) ∧
        ∀ contents, r = some contents → ∀ k, contents k =
          if k / blockSize < readBack fails w f offset size then
            (w.disk.files f).data ((writeStart offset + k / blockSize) % 2 ^ 32)
              ⟨k % blockSize, mod_blockSize_lt k⟩
          else 0) E w := by
  have hzeros : ∀ contents : Buffer, readBack fails w f offset size = 0 →
      some (fun _ => 0) = some contents → ∀ k, contents k =
        if k / blockSize < readBack fails w f offset size then
          (w.disk.files f).data ((writeStart offset + k / blockSize) % 2 ^ 32)
            ⟨k % blockSize, mod_blockSize_lt k⟩
        else 0 := by
    intro contents hnone hsome k
    rw [← Option.some.inj hsome, hnone, if_neg (Nat.not_lt_zero _)]
  unfold putContents
  split
  · rename_i hstart
    exact ⟨rfl, rfl, rfl, rfl, ⟨fun h => absurd h (Option.some_ne_none _),
      fun h => absurd hstart h.start⟩, fun contents => hzeros contents (if_pos (.inl hstart))⟩
  · rename_i hstart
    split
    · rename_i hzero
      exact ⟨rfl, rfl, rfl, rfl, ⟨fun h => absurd h (Option.some_ne_none _),
        fun h => absurd hzero h.nonempty⟩, fun contents => hzeros contents (if_pos (.inr hzero))⟩
    · rename_i hzero
      obtain ⟨hcount, hcalls⟩ := faulty_read fails f (writeStart offset) (fun _ => 0)
        (putPlan (w.fss.fcbCache f).stSize offset size).psizeNblock.toNat w.disk
      obtain ⟨hfiles, hstored⟩ := multiblockReadLoop_stored (faulty_independent fails) f
        (writeStart offset) (putPlan (w.fss.fcbCache f).stSize offset size).psizeNblock.toNat 0
        (fun _ => 0) w.disk
      rw [show multiblockReadLoop (faulty fails) f (writeStart offset) 0 (fun _ => 0) _ =
        multiblockRead (faulty fails) f (writeStart offset) (fun _ => 0) _ from rfl]
        at hfiles hstored
      simp only [Outcome.bind_iff, outcome_onDisk, Outcome.pure_iff, Option.map_eq_none_iff]
      refine ⟨trivial, trivial, hfiles, hcalls .write (by decide), ?_, ?_⟩
      · rw [← Option.map_eq_none_iff (f := Prod.fst)]
        change Option.map Prod.fst (multiblockRead (faulty fails) f (writeStart offset) _ _ _).1 =
          none ↔ _
        rw [hcount]
        constructor
        · intro hnone
          split at hnone
          · rename_i hfault
            exact ⟨hstart, hzero, hfault.1, hfault.2⟩
          · cases hnone
        · exact fun hun => if_pos ⟨hun.nblock, hun.fault⟩
      · intro contents hsome k
        obtain ⟨⟨count, buffer⟩, hread, rfl⟩ := Option.map_eq_some_iff.mp hsome
        have hback : count = readBack fails w f offset size := by
          change (multiblockRead (faulty fails) f (writeStart offset) _ _ _).1 = _ at hread
          rw [hread] at hcount
          unfold readBack
          rw [if_neg (not_or.mpr ⟨hstart, hzero⟩)]
          split at hcount
          · cases hcount
          · exact Option.some.inj hcount
        have hbytes := (hstored count buffer hread).2 k
        simp only [Nat.zero_le, true_and] at hbytes
        rw [← hback]
        exact hbytes

/-- Blocks of a file that do not show have been written. -/
theorem readable_written {f n : Nat} {start : Nat} {addr : Buffer} (hfss : w'.fss = w.fss)
    (hfiles : w'.disk.files =
      (multiblockWriteLoop sparse f start addr 0 n w.disk.files).2)
    (hhidden : ∀ j, j < n → ¬Exposed w f ((start + j) % 2 ^ 32)) (g k : Nat) :
    readable w' g k = readable w g k := by
  unfold readable
  rw [hfss, hfiles]
  by_cases hg : g = f
  · subst hg
    split
    · rename_i hk
      rw [writeLoop_read g start addr fun j hj => ?_]
      have hj' := hhidden j hj
      rw [Nat.zero_add]
      have hne : k / blockSize % 2 ^ 32 ≠ (start + j) % 2 ^ 32 := fun he => hj' ⟨k, hk, .inl he⟩
      refine ⟨hne, fun hsize => ?_⟩
      by_contra hle
      exact hj' ⟨k, hk, .inr ⟨hsize, by omega⟩⟩
    · rfl
  · rw [multiblockWriteLoop_other sparse_independent f start addr hg]

theorem put_atomic {f : Nat} {offset : BitVec 64} {data : List Byte} {size : BitVec 32}
    (h : ¬HalfWritten fails w f offset size) :
    Outcome (put (faulty fails) env f offset data size)
      (fun r w' => w'.outbox = w.outbox ∧ (r = 0 ∨ r = -1 ∧ w'.fss = w.fss ∧
        ∀ g k, readable w' g k = readable w g k)) E w := by
  unfold put
  simp only [Outcome.bind_iff, Outcome.get_iff]
  refine (faulty_putContents f offset size).post (fun r w₁ hw => ?_)
  obtain ⟨hfss, hout, hfiles, hcalls, hread, -⟩ := hw
  cases r with
  | none =>
    refine ⟨hout, .inr ⟨rfl, hfss, fun g k => ?_⟩⟩
    unfold readable
    rw [hfss, hfiles]
  | some contents =>
    obtain ⟨hok, hwritten, -⟩ := faulty_write fails f (writeStart offset)
      (overlay contents (offset.toNat % blockSize) data)
      (writeCount (w.fss.fcbCache f).stSize offset size) 0 w₁.disk
    rw [hcalls, hfiles] at hwritten
    rw [hcalls] at hok
    rw [Outcome.bind_iff, outcome_onDisk]
    split
    · simp only [Outcome.bind_iff, outcome_setFcb, Outcome.pure_iff]
      refine (outcome_flush (faulty_independent fails) f).post (fun _ w' hw => ?_)
      exact ⟨hw.outbox.trans hout, .inl trivial⟩
    · rename_i hrefused
      refine ⟨hout, .inr ⟨rfl, hfss, readable_written hfss hwritten fun j hj hexposed => ?_⟩⟩
      have hlt := lt_of_le_of_ne (passing_le (fails .write) (w.disk.calls .write)
        (writeCount (w.fss.fcbCache f).stSize offset size)) fun he => hrefused (hok.mpr he)
      exact h ⟨fun hun => Option.some_ne_none _ (hread.mpr hun), hlt, j, hj, hexposed⟩

theorem write_atomic {data : List Byte}
    (h : ¬badInode w.fss req.fileNo.toNat → req.size = BitVec.ofNat 32 data.length →
      writeAllowed (w.fss.fcbCache req.fileNo.toNat) uid →
      ¬HalfWritten fails w req.fileNo.toNat req.offset req.size) :
    Outcome (doWrite (faulty fails) env req data src uid) (fun _ w' => Atomic w w') E w := by
  unfold doWrite
  simp only [Outcome.bind_iff, Outcome.get_iff]
  split
  · exact refused_atomic
  · split
    · exact refused_atomic
    · split
      · exact refused_atomic
      · rename_i hbad hsize hallow
        have hwhole := h hbad (not_not.mp hsize) (by simpa using hallow)
        rw [not_not.mp hsize] at hwhole
        rw [Outcome.bind_iff]
        refine (put_atomic hwhole).post (fun r w' hw => ?_)
        obtain ⟨hout, rfl | ⟨rfl, hfss, hsame⟩⟩ := hw
        · rw [if_pos rfl]
          exact Atomic.answered (congrArg (· ++ _) hout) rfl
        · rw [if_neg (by decide)]
          exact fun _ _ _ _ _ => ⟨congrArg FileServerState.fcbCache hfss, hsame⟩

end Handlers

theorem serve_atomic (fails : Faults) (env : Env) (msg : Message) (w : World FaultyDisk) :
    Outcome (serve (faulty fails) env msg)
      (fun _ w' => ¬HalfDone fails w msg → Atomic w w')
      (fun _ w' => ¬HalfDone fails w msg → Atomic w w') w := by
  by_cases hhalf : HalfDone fails w msg
  · exact (Outcome.always _).mono (fun _ _ _ h => absurd hhalf h) (fun _ _ _ h => absurd hhalf h)
  · suffices hout : Outcome (serve (faulty fails) env msg) (fun _ w' => Atomic w w')
        (fun _ w' => Atomic w w') w from
      hout.mono (fun _ _ ha _ => ha) (fun _ _ ha _ => ha)
    unfold serve
    cases hreq : msg.request with
    | none => exact Atomic.kept rfl rfl
    | some req =>
      dsimp only
      cases hop : req.type with
      | create => exact create_atomic
      | delete =>
        refine delete_atomic fun hfile hallow => ?_
        by_contra hfault
        exact hhalf (.delete _ req ⟨hreq, hop, rfl⟩ hfile hallow (by simpa using hfault))
      | chown => exact chown_atomic
      | chmod => exact chmod_atomic
      | read => exact read_atomic
      | write =>
        refine write_atomic fun hfile hsize hallow hwritten => ?_
        exact hhalf (.write _ req ⟨hreq, hop, rfl⟩ hfile hsize hallow hwritten)
      | sync => exact sync_atomic
      | stat => exact stat_atomic
      | setsize =>
        refine setsize_atomic fun hfile hsize hallow => ?_
        by_contra hfault
        exact hhalf (.setsize _ req ⟨hreq, hop, rfl⟩ hfile hsize hallow (by simpa using hfault))
      | unused => exact Atomic.kept rfl rfl
      | setFlags => exact Atomic.kept rfl rfl

/-- **When errors are atomic.** In every run, whichever calls of the block server fail, each
request that is not left half done changes nothing if its first reply reports a failure. -/
theorem errors_atomic (fails : Faults) (msgs : List (Env × Message)) (w : World FaultyDisk) :
    Along (faulty fails) (fun w m w' => ¬HalfDone fails w m.2 → Atomic w w') msgs w :=
  Along.of_step (fun w m => serve_atomic fails m.1 m.2 w) msgs w

/-- The block server refuses to truncate: a deletion reports a failure, then a success, and
the file is gone. -/
theorem refused_delete_not_atomic :
    let svr := faulty fun call _ => call == .setsize
    let w := final ((do boot svr testEnv; serveAll svr [testRequest .create 0 0 []])
      (newFaultyDisk 0 0 4))
    let w' := final (serve svr testEnv (testRequest .delete 1 0 []).2 w)
    w'.outbox = w.outbox ++ [(9, .plain .error []), (9, .plain .ok [])] ∧ ¬Atomic w w' := by
  intro svr w w'
  have hout : w'.outbox = w.outbox ++ [(9, .plain .error []), (9, .plain .ok [])] := by
    decide +kernel
  have hgone : (w'.fss.fcbCache 1).stAlloc = false ∧ (w.fss.fcbCache 1).stAlloc = true := by
    decide +kernel
  refine ⟨hout, fun hatomic => ?_⟩
  have hsame := congrFun (hatomic 9 (.plain .error []) _ hout rfl).1 1
  rw [hsame, hgone.2] at hgone
  cases hgone.1

end Egos.File
