import Egos.File.Access
import Egos.File.ByteFiles

/-!
# Files that are cut and grow again

A journal lists what has been written to a file and where the file has been cut. The block
file server answers as the journals say, with one exception: `blkfile_do_setsize` keeps the
bytes that it cuts off in the last block that stays, and a write behind the end of the file
brings them back. `Unaccounted` lists this and the places where numbers wrap around.
-/
namespace Egos.File

open Egos.Lib Egos.Disk Bfs

set_option autoImplicit false

namespace Journal

inductive Entry where
  | write (offset : Nat) (data : List Byte)
  | cut (size : Nat)

/-- The last byte written at a position since it was cut off, and zero if there is none. The
last entry comes first. -/
def value : List Entry → Buffer
  | [] => fun _ => 0
  | .write offset data :: earlier => overlay (value earlier) offset data
  | .cut size :: earlier => fun k => if size ≤ k then 0 else value earlier k

def length : List Entry → Nat
  | [] => 0
  | .write offset data :: earlier => max (length earlier) (offset + data.length)
  | .cut size :: _ => size

structure JournalFile where
  uid : BitVec 32
  mode : BitVec 16
  entries : List Entry

/-- Owner and mode decide as they do for other files. -/
def JournalFile.allows (file : JournalFile) : BitVec 32 → BitVec 16 → BitVec 16 → Bool :=
  Reference.RefFile.allows ⟨file.uid, file.mode, []⟩

abbrev JournalFiles := Nat → Option JournalFile

/-- The reply to a request for this file, and the file after it. -/
def JournalFile.answer (file : JournalFile) (uid : BitVec 32) (req : FileRequest)
    (data : List Byte) : FileReply × JournalFile :=
  match req.type with
  | .write =>
    if req.size = BitVec.ofNat 32 data.length ∧
        file.allows uid Permission.ownerWrite Permission.otherWrite then
      (.plain .ok [], { file with entries := .write req.offset.toNat data :: file.entries })
    else (.plain .error [], file)
  | .setsize =>
    if req.offset.toNat ≤ length file.entries ∧
        file.allows uid Permission.ownerWrite Permission.otherWrite then
      (.plain .ok [], { file with entries := .cut req.offset.toNat :: file.entries })
    else (.plain .error [], file)
  | .read =>
    if file.allows uid Permission.ownerRead Permission.otherRead then
      (readReply (slice (value file.entries) (length file.entries) req.offset.toNat
        req.size.toNat), file)
    else (.plain .error [], file)
  | _ => (.plain .error [], file)

/-- The reply to a request and the files after it. What a request that names the table is
answered is left open. -/
def answer (numFcbs : Nat) (files : JournalFiles) (uid : BitVec 32) (req : FileRequest)
    (data : List Byte) : Option FileReply × JournalFiles :=
  if req.type = .create then
    match (List.range' 1 (numFcbs - 1)).find? fun f => (files f).isNone with
    | none => (some (.plain .error []), files)
    | some f => (some { FileReply.plain .ok [] with fileNo := BitVec.ofNat 32 f },
        Function.update files f (some ⟨uid, req.mode, []⟩))
  else if req.fileNo.toNat = 0 then (none, files)
  else
    match files req.fileNo.toNat with
    | none => (some (.plain .error []), files)
    | some file =>
      (some (file.answer uid req data).1,
        Function.update files req.fileNo.toNat (some (file.answer uid req data).2))

/-- Behind its end a journal holds nothing. -/
theorem value_length {entries : List Entry} {k : Nat} (h : length entries ≤ k) :
    value entries k = 0 := by
  induction entries with
  | nil => rfl
  | cons entry earlier ih =>
    cases entry with
    | write offset data =>
      unfold length at h
      unfold value
      rw [overlay_outside (by omega)]
      exact ih (by omega)
    | cut size => exact if_pos h

end Journal

open Journal

/-- A control block and its inode are those of a file with this journal. -/
structure Carries (fcb : FileControlBlock) (file : SparseFile Block) (ref : JournalFile) :
    Prop where
  alloc : fcb.stAlloc = true
  uid : fcb.stUid = ref.uid
  mode : fcb.stMode = ref.mode
  size : fcb.stSize.toNat = length ref.entries
  bound : fcb.stSize.toNat < 2 ^ 42
  present : fcb.stSize.toNat = 0 ∨ fcb.stSize.toNat / blockSize < file.size
  tidy : Tidy fcb.stSize.toNat file
  bytes : ∀ k, k < fcb.stSize.toNat → byteAt file.data k = value ref.entries k

def FileCarries (fcb : FileControlBlock) (file : SparseFile Block) : Option JournalFile → Prop
  | none => fcb.stAlloc = false ∧ fcb.stSize = 0 ∧ file = .empty fun _ => 0
  | some ref => Carries fcb file ref

/-- The files other than the table are those of the journals. -/
structure Journaled (w : World (Files Block)) (files : JournalFiles) : Prop where
  inside : ∀ f, f ≠ 0 → f < w.fss.numFcbs.toNat →
    FileCarries (w.fss.fcbCache f) (w.disk f) (files f)
  outside : ∀ f, w.fss.numFcbs.toNat ≤ f → files f = none

section Requests

variable (w : World (Files Block)) (f : Nat) (msg : Message) (req : FileRequest)

/-- A write to a file other than the table that passes its checks. -/
structure WriteCarried : Prop where
  asks : Asks .write f msg req
  other : f ≠ 0
  file : ¬badInode w.fss f
  size : req.size = BitVec.ofNat 32 (msg.payload.take fileMaxMsgSize).length
  allowed : writeAllowed (w.fss.fcbCache f) msg.uid

structure CutCarried : Prop where
  asks : Asks .setsize f msg req
  other : f ≠ 0
  file : ¬badInode w.fss f
  size : ¬(w.fss.fcbCache f).stSize < req.offset
  allowed : writeAllowed (w.fss.fcbCache f) msg.uid

structure ReadCarried : Prop where
  asks : Asks .read f msg req
  other : f ≠ 0
  file : ¬badInode w.fss f
  allowed : readAllowed (w.fss.fcbCache f) msg.uid

end Requests

/-- The requests that the journals do not account for. -/
inductive Unaccounted (w : World (Files Block)) (msg : Message) : Prop
  /-- A write leaves a gap behind the end of its file, and not all of it is zero on disk. -/
  | gap (f : Nat) (req : FileRequest) (carried : WriteCarried w f msg req) (k : Nat)
      (behind : (w.fss.fcbCache f).stSize.toNat ≤ k) (before : k < req.offset.toNat)
      (left : byteAt (w.disk f).data k ≠ 0)
  /-- The number of the last block that is written has more than 32 bits. -/
  | far (f : Nat) (req : FileRequest) (carried : WriteCarried w f msg req)
      (range : 2 ^ 42 ≤ req.offset.toNat + req.size.toNat)
  /-- The number of blocks that are kept has more than 32 bits. -/
  | wide (f : Nat) (req : FileRequest) (carried : CutCarried w f msg req)
      (nblock : 2 ^ 32 ≤ req.offset.toNat / blockSize + 1)
  /-- The distance to the end of the file has more than 32 bits, and the rest of it is less
  than what is asked for. -/
  | long (f : Nat) (req : FileRequest) (carried : ReadCarried w f msg req)
      (length : ((w.fss.fcbCache f).stSize.toNat - req.offset.toNat) % 2 ^ 32 <
        min req.size.toNat ((w.fss.fcbCache f).stSize.toNat - req.offset.toNat))
  /-- The blocks of a read do not fit into its buffer. -/
  | overflow (f : Nat) (req : FileRequest) (asks : Asks .read f msg req)
      (blocks : ReadOverflows w req msg.uid)

section Files

variable {env : Env} {w : World (Files Block)} {files : JournalFiles}
  {fcb fcb' : FileControlBlock} {file : SparseFile Block} {ref : JournalFile}

theorem Carries.allowed (h : Carries fcb file ref) (uid : BitVec 32) :
    writeAllowed fcb uid = ref.allows uid Permission.ownerWrite Permission.otherWrite ∧
      readAllowed fcb uid = ref.allows uid Permission.ownerRead Permission.otherRead :=
  @allowed_eq fcb ⟨ref.uid, ref.mode, []⟩ h.uid h.mode uid

theorem Carries.empty (halloc : fcb.stAlloc = true) (hsize : fcb.stSize = 0) :
    Carries fcb (.empty fun _ => 0) ⟨fcb.stUid, fcb.stMode, []⟩ := by
  have hzero : fcb.stSize.toNat = 0 := by
    rw [hsize]
    rfl
  refine ⟨halloc, rfl, rfl, hzero, by omega, .inl hzero, ⟨fun _ _ => rfl, fun _ _ => rfl⟩, ?_⟩
  intro k hk
  omega

theorem Carries.write (h : Carries fcb file ref) {file' : SparseFile Block} {offset : Nat}
    {data : List Byte} (halloc : fcb'.stAlloc = fcb.stAlloc) (huid : fcb'.stUid = fcb.stUid)
    (hmode : fcb'.stMode = fcb.stMode)
    (hstSize : fcb'.stSize = BitVec.ofNat 64 (max fcb.stSize.toNat (offset + data.length)))
    (hrange : offset + data.length < 2 ^ 42)
    (hgap : ∀ k, fcb.stSize.toNat ≤ k → k < offset → byteAt file.data k = 0)
    (hsize : file'.size = max file.size ((offset + data.length) / blockSize + 1))
    (hbytes : ∀ k, byteAt file'.data k = overlay (byteAt file.data) offset data k) :
    Carries fcb' file' { ref with entries := .write offset data :: ref.entries } := by
  have hbound := h.bound
  have hnew : fcb'.stSize.toNat = max fcb.stSize.toNat (offset + data.length) := by
    rw [hstSize, BitVec.toNat_ofNat]
    omega
  -- a block behind both ends has not been written
  have hzero : ∀ b, (offset + data.length) / blockSize < b ∨ offset + data.length = 0 →
      file.data b = (fun _ => 0) → file'.data b = fun _ => 0 := by
    intro b hb hold
    funext j
    have hj := j.isLt
    rw [← byteAt_mul_add file'.data b j, hbytes, overlay_outside (by unfold blockSize at *; omega),
      byteAt_mul_add, hold]
  refine ⟨halloc.trans h.alloc, huid.trans h.uid, hmode.trans h.mode, ?_, by omega, .inr ?_,
    ⟨fun b hb => ?_, fun b hb => ?_⟩, fun k hk => ?_⟩
  · rw [hnew, h.size]
    rfl
  · have hpresent := h.present
    rw [hnew, hsize]
    unfold blockSize at *
    omega
  · rw [hsize] at hb
    exact hzero b (by omega) (h.tidy.blank b (by omega))
  · rw [hnew] at hb
    refine hzero b ?_ (h.tidy.tail b ?_)
    · unfold blockSize at *
      omega
    · unfold blockSize at *
      omega
  · rw [hbytes]
    unfold value overlay
    rw [hnew] at hk
    by_cases hold : k < fcb.stSize.toNat
    · rw [h.bytes k hold]
    · by_cases hin : offset ≤ k
      · rw [if_pos hin, if_pos hin, List.getD_eq_getElem _ _ (by omega),
          List.getD_eq_getElem _ _ (by omega)]
      · rw [if_neg hin, if_neg hin, hgap k (by omega) (by omega),
          value_length (by rw [← h.size]; omega)]

/-- A file is cut, and the block that its new end lies in is kept. -/
theorem Carries.cut (h : Carries fcb file ref) {size nblock : Nat}
    (halloc : fcb'.stAlloc = fcb.stAlloc) (huid : fcb'.stUid = fcb.stUid)
    (hmode : fcb'.stMode = fcb.stMode) (hstSize : fcb'.stSize.toNat = size)
    (hle : size ≤ fcb.stSize.toNat) (hnblock : nblock = if size = 0 then 0 else size / blockSize + 1) :
    Carries fcb' ⟨nblock, fun b => if b < nblock then file.data b else fun _ => 0⟩
      { ref with entries := .cut size :: ref.entries } := by
  have hbound := h.bound
  refine ⟨halloc.trans h.alloc, huid.trans h.uid, hmode.trans h.mode, hstSize, by omega, ?_,
    ⟨fun b hb => if_neg (by dsimp only at hb; omega), fun b hb => if_neg ?_⟩, fun k hk => ?_⟩
  · dsimp only
    rw [hstSize, hnblock]
    split
    · omega
    · omega
  · rw [hstSize] at hb
    rw [hnblock]
    split
    · omega
    · omega
  · have hk' : k / blockSize < nblock := by
      rw [hnblock, if_neg (by omega), Nat.lt_succ_iff]
      exact Nat.div_le_div_right (by omega)
    unfold value
    rw [if_neg (by omega), ← h.bytes k (by omega)]
    unfold byteAt
    dsimp only
    rw [if_pos hk']

theorem finalNblock_toNat {size : BitVec 64} (h : size.toNat / blockSize + 1 < 2 ^ 32) :
    (finalNblock size).toNat = if size.toNat = 0 then 0 else size.toNat / blockSize + 1 := by
  unfold finalNblock
  by_cases hz : size = 0
  · rw [if_pos hz, if_pos (by rw [hz]; rfl)]
    rfl
  · have hpos : size.toNat ≠ 0 := fun h0 => hz (BitVec.eq_of_toNat_eq h0)
    rw [if_neg hz, if_neg hpos, BitVec.toNat_setWidth, BitVec.toNat_add, BitVec.toNat_udiv,
      toNat_blockSize64, show (1 : BitVec 64).toNat = 1 from rfl,
      Nat.mod_eq_of_lt (show 1 + size.toNat / blockSize < 2 ^ 64 by omega),
      Nat.mod_eq_of_lt (by omega), Nat.add_comm]

end Files

namespace Journaled

variable {w : World (Files Block)} {files : JournalFiles} (h : Journaled w files)

include h

theorem numbered : Numbered w files := by
  refine ⟨fun f h0 hf => ?_, h.outside⟩
  have hfile := h.inside f h0 hf
  cases hr : files f with
  | none =>
    rw [hr] at hfile
    exact hfile.1
  | some ref =>
    rw [hr] at hfile
    exact hfile.alloc

theorem set {w' : World (Files Block)} {f : Nat} {fcb : FileControlBlock} {ref : JournalFile}
    (hlt : f < w.fss.numFcbs.toNat)
    (hfss : w'.fss = w.fss.setFcb f fcb) (hother : ∀ i, i ≠ 0 → i ≠ f → w'.disk i = w.disk i)
    (hfile : Carries fcb (w'.disk f) ref) :
    Journaled w' (Function.update files f (some ref)) := by
  refine ⟨setFcb_files h.inside hfss hother hfile, fun i hi => ?_⟩
  have hin : w.fss.numFcbs.toNat ≤ i := by
    rw [hfss] at hi
    exact hi
  rw [Function.update_of_ne (by omega)]
  exact h.outside i hin

theorem beside {w' : World (Files Block)} (hnum : w'.fss.numFcbs = w.fss.numFcbs)
    (hother : ∀ f, f ≠ 0 → w'.fss.fcbCache f = w.fss.fcbCache f ∧ w'.disk f = w.disk f) :
    Journaled w' files := by
  refine ⟨fun f h0 hf => ?_, fun f hf => h.outside f (by rwa [hnum] at hf)⟩
  rw [(hother f h0).1, (hother f h0).2]
  exact h.inside f h0 (by rwa [hnum] at hf)

theorem carries {f : Nat} (h0 : f ≠ 0) {ref : JournalFile} (hr : files f = some ref) :
    Carries (w.fss.fcbCache f) (w.disk f) ref := by
  have hfile := h.inside f h0 (badInode_false.mp (h.numbered.inUse h0 hr)).1
  rw [hr] at hfile
  exact hfile

end Journaled

/-- The server has sent the reply of the reference, where there is one, and the files are as
in its journals. -/
structure Follows (w : World (Files Block)) (src : BitVec 32)
    (answer : Option FileReply × JournalFiles) (w' : World (Files Block)) : Prop where
  reply : ∀ rep, answer.1 = some rep → w'.outbox = w.outbox ++ [(src, rep)]
  num : w'.fss.numFcbs = w.fss.numFcbs
  files : Journaled w' answer.2

section Step

variable {w : World (Files Block)} {files : JournalFiles} {env : Env} {req : FileRequest}
  {src uid : BitVec 32} {ref : JournalFile}

theorem Journaled.answered (h : Journaled w files) (src : BitVec 32) (rep : FileReply) :
    Follows w src (some rep, files) { w with outbox := w.outbox ++ [(src, rep)] } :=
  ⟨fun _ hrep => by rw [Option.some.inj hrep], rfl, h.inside, h.outside⟩

/-- The same where the reference has put the file back. -/
theorem Journaled.unchanged (h : Journaled w files) {f : Nat} (hr : files f = some ref)
    (src : BitVec 32) (rep : FileReply) :
    Follows w src (some rep, Function.update files f (some ref))
      { w with outbox := w.outbox ++ [(src, rep)] } := by
  rw [← hr, Function.update_eq_self]
  exact h.answered src rep

theorem create_follows (h : Journaled w files) (ht : req.type = .create) (data : List Byte) :
    Outcome (doCreate sparse env req src uid)
      (fun _ w' => Follows w src (answer w.fss.numFcbs.toNat files uid req data) w')
      (fun _ _ => False) w := by
  unfold doCreate answer
  simp only [Outcome.bind_iff, Outcome.get_iff]
  rw [if_pos ht, ← h.numbered.freeFile_eq]
  cases hfree : freeFile w.fss with
  | none => exact h.answered src _
  | some f =>
    have hlt := freeFile_lt hfree
    have hn := w.fss.numFcbs.isLt
    have hfile := h.inside f hlt.1 hlt.2
    rw [h.numbered.free hfree] at hfile
    obtain ⟨-, hsize, hempty⟩ := hfile
    simp only [Outcome.bind_iff, outcome_setFcb, outcome_send,
      outcome_flushFcbCache (show f < 2 ^ 32 by omega)]
    refine ⟨fun _ hrep => by rw [← Option.some.inj hrep], rfl,
      h.set hlt.2 rfl (fun i hi _ => flushed_other _ _ _ _ hi) ?_⟩
    dsimp only
    rw [flushed_other _ _ _ _ hlt.1, hempty]
    exact Carries.empty rfl hsize

/-- A request that names the table leaves the other files alone. -/
theorem Journaled.table_follows (h : Journaled w files) (h0 : req.fileNo.toNat = 0) {op : FileOp}
    {m : EStateM Stop (World (Files Block)) Unit} {E : Stop → World (Files Block) → Prop}
    (hnum : Outcome m (fun _ w' => w'.fss.numFcbs = w.fss.numFcbs) (fun _ _ => False) w)
    (hacts : Outcome m (fun _ w' =>
      Acts (fun files => files) op uid (some req.fileNo.toNat) w w' ∧
        Discreet (fun files => files) src uid req w w') E w) :
    Outcome m (fun _ w' => Follows w src (none, files) w') (fun _ _ => False) w := by
  refine (hnum.both hacts).mono (fun _ w' hw => ?_) (fun _ _ he => he.1)
  obtain ⟨hsame, ⟨hothers, -⟩, -⟩ := hw
  refine ⟨fun _ hrep => absurd hrep.symm (Option.some_ne_none _), hsame,
    h.beside hsame fun f hf => ?_⟩
  have hkept := hothers f (by
    rw [h0]
    exact fun he => hf (Option.some.inj he).symm)
  unfold Changed at hkept
  exact ⟨not_not.mp fun hne => hkept (.inl hne), not_not.mp fun hne => hkept (.inr ⟨hf, hne⟩)⟩

theorem put_num {f : Nat} {offset : BitVec 64} {data : List Byte} {size : BitVec 32} :
    Outcome (put sparse env f offset data size)
      (fun _ w' => w'.fss.numFcbs = w.fss.numFcbs) (fun _ _ => False) w := by
  unfold put
  simp only [Outcome.bind_iff, Outcome.get_iff]
  refine outcome_putContents.post (fun r w' hw => ?_)
  obtain rfl := hw.1
  cases r with
  | none => exact rfl
  | some contents =>
    rw [Outcome.bind_iff, outcome_onDisk]
    split
    · simp only [Outcome.bind_iff, outcome_setFcb, Outcome.pure_iff]
      refine (outcome_flush sparse_independent f).post (fun _ w₁ hw => ?_)
      rw [hw.fss]
      rfl
    · exact rfl

theorem table_write_follows (h : Journaled w files) (h0 : req.fileNo.toNat = 0)
    (data : List Byte) :
    Outcome (doWrite sparse env req data src uid)
      (fun _ w' => Follows w src (none, files) w') (fun _ _ => False) w := by
  refine h.table_follows h0 ?_ (write_acts (E := fun _ _ => True) sparse_independent data)
  unfold doWrite
  simp only [Outcome.bind_iff, Outcome.get_iff]
  split
  · exact rfl
  · split
    · exact rfl
    · split
      · exact rfl
      · rw [Outcome.bind_iff]
        refine put_num.post (fun r w' hw => ?_)
        split
        · exact hw
        · exact hw

theorem table_setsize_follows (h : Journaled w files) (h0 : req.fileNo.toNat = 0) :
    Outcome (doSetsize sparse env req src uid)
      (fun _ w' => Follows w src (none, files) w') (fun _ _ => False) w := by
  refine h.table_follows h0 ?_ (setsize_acts (E := fun _ _ => True) sparse_independent)
  unfold doSetsize
  simp only [Outcome.bind_iff, Outcome.get_iff]
  split
  · exact rfl
  · split
    · exact rfl
    · split
      · exact rfl
      · have hok : (sparse.setsize req.fileNo.toNat (finalNblock req.offset).toNat w.disk).1 =
          true := rfl
        rw [Outcome.bind_iff, outcome_onDisk, if_pos hok]
        simp only [Outcome.bind_iff, outcome_setFcb, outcome_respond]
        refine (outcome_flush sparse_independent req.fileNo.toNat).post (fun _ w₁ hw => ?_)
        rw [hw.fss]
        rfl

theorem table_read_follows (h : Journaled w files) (h0 : req.fileNo.toNat = 0)
    (hfit : ¬ReadOverflows w req uid) :
    Outcome (doRead sparse env req src uid)
      (fun _ w' => Follows w src (none, files) w') (fun _ _ => False) w :=
  h.table_follows h0 ((outcome_doRead hfit).post fun _ _ hw => congrArg FileServerState.numFcbs hw.fss)
    (read_acts sparse_independent)

theorem answer_file (ht : req.type ≠ .create) (h0 : req.fileNo.toNat ≠ 0) {numFcbs : Nat}
    {data : List Byte} : answer numFcbs files uid req data =
      match files req.fileNo.toNat with
      | none => (some (.plain .error []), files)
      | some file => (some (file.answer uid req data).1,
          Function.update files req.fileNo.toNat (some (file.answer uid req data).2)) := by
  unfold answer
  rw [if_neg ht, if_neg h0]

theorem write_follows (h : Journaled w files) (ht : req.type = .write)
    (h0 : req.fileNo.toNat ≠ 0) {data : List Byte}
    (hlen : (BitVec.ofNat 32 data.length).toNat = data.length)
    (hcarried : ¬badInode w.fss req.fileNo.toNat → req.size = BitVec.ofNat 32 data.length →
      writeAllowed (w.fss.fcbCache req.fileNo.toNat) uid →
      req.offset.toNat + req.size.toNat < 2 ^ 42 ∧
        ∀ k, (w.fss.fcbCache req.fileNo.toNat).stSize.toNat ≤ k → k < req.offset.toNat →
          byteAt (w.disk req.fileNo.toNat).data k = 0) :
    Outcome (doWrite sparse env req data src uid)
      (fun _ w' => Follows w src (answer w.fss.numFcbs.toNat files uid req data) w')
      (fun _ _ => False) w := by
  rw [answer_file (by rw [ht]; decide) h0]
  unfold doWrite
  simp only [Outcome.bind_iff, Outcome.get_iff]
  cases hr : files req.fileNo.toNat with
  | none =>
    rw [if_pos ((h.numbered.badInode_iff h0).mpr hr)]
    exact h.answered src _
  | some ref =>
    have hbad := h.numbered.inUse h0 hr
    have hfile := h.carries h0 hr
    rw [if_neg hbad, (hfile.allowed uid).1]
    unfold JournalFile.answer
    simp only [ht]
    by_cases hsize : req.size = BitVec.ofNat 32 data.length
    · rw [if_neg (fun hne => hne hsize)]
      cases hallow : ref.allows uid Permission.ownerWrite Permission.otherWrite with
      | false =>
        rw [if_pos (show (!false) = true from rfl),
          if_neg (fun hand => Bool.false_ne_true hand.2)]
        exact h.unchanged hr src _
      | true =>
        obtain ⟨hrange, hgap⟩ := hcarried hbad hsize ((hfile.allowed uid).1.trans hallow)
        rw [hsize, hlen] at hrange
        rw [if_neg (by decide), if_pos ⟨hsize, rfl⟩, Outcome.bind_iff]
        have hlt := (badInode_false.mp hbad).1
        refine (outcome_put_bytes hfile.bound hlen hrange hfile.tidy h0 hlt).post
          (fun r w' hput => ?_)
        rcases hput with ⟨-, -, hne, hle, hmiss⟩ | ⟨hr0, hst, -⟩
        · -- the block that a write inside the file begins in is on disk
          have hpresent := hfile.present
          omega
        · rw [if_pos hr0]
          refine ⟨fun _ hrep => ?_, ?_, h.set hlt hst.fss hst.other ?_⟩
          · rw [← Option.some.inj hrep, ← hst.outbox]
          · simp only [hst.fss]
            rfl
          · exact hfile.write rfl rfl rfl rfl hrange hgap hst.size hst.bytes
    · rw [if_pos hsize, if_neg (fun hand => hsize hand.1)]
      exact h.unchanged hr src _

theorem setsize_follows (h : Journaled w files) (ht : req.type = .setsize)
    (h0 : req.fileNo.toNat ≠ 0) {data : List Byte}
    (hcarried : ¬badInode w.fss req.fileNo.toNat →
      ¬(w.fss.fcbCache req.fileNo.toNat).stSize < req.offset →
      writeAllowed (w.fss.fcbCache req.fileNo.toNat) uid →
      req.offset.toNat / blockSize + 1 < 2 ^ 32) :
    Outcome (doSetsize sparse env req src uid)
      (fun _ w' => Follows w src (answer w.fss.numFcbs.toNat files uid req data) w')
      (fun _ _ => False) w := by
  rw [answer_file (by rw [ht]; decide) h0]
  unfold doSetsize
  simp only [Outcome.bind_iff, Outcome.get_iff]
  cases hr : files req.fileNo.toNat with
  | none =>
    rw [if_pos ((h.numbered.badInode_iff h0).mpr hr)]
    exact h.answered src _
  | some ref =>
    have hbad := h.numbered.inUse h0 hr
    have hfile := h.carries h0 hr
    have hlt := (badInode_false.mp hbad).1
    have hn := w.fss.numFcbs.isLt
    rw [if_neg hbad, (hfile.allowed uid).1]
    unfold JournalFile.answer
    simp only [ht]
    by_cases hle : req.offset.toNat ≤ length ref.entries
    · have hin : ¬(w.fss.fcbCache req.fileNo.toNat).stSize < req.offset := by
        rw [BitVec.lt_def, hfile.size]
        omega
      rw [if_neg hin]
      cases hallow : ref.allows uid Permission.ownerWrite Permission.otherWrite with
      | false =>
        rw [if_pos (show (!false) = true from rfl),
          if_neg (fun hand => Bool.false_ne_true hand.2)]
        exact h.unchanged hr src _
      | true =>
        have hnblock := hcarried hbad hin ((hfile.allowed uid).1.trans hallow)
        have hok : (sparse.setsize req.fileNo.toNat (finalNblock req.offset).toNat w.disk).1 =
          true := rfl
        rw [if_neg (by decide), if_pos ⟨hle, rfl⟩, Outcome.bind_iff, outcome_onDisk, if_pos hok]
        simp only [Outcome.bind_iff, outcome_setFcb, outcome_respond,
          outcome_flushFcbCache (show req.fileNo.toNat < 2 ^ 32 by omega)]
        refine ⟨fun _ hrep => by rw [← Option.some.inj hrep], rfl,
          h.set hlt rfl (fun i hi hne => ?_) ?_⟩
        · exact (flushed_other _ _ _ _ hi).trans (Function.update_of_ne hne _ _)
        · dsimp only
          rw [flushed_other _ _ _ _ h0, show (sparse.setsize req.fileNo.toNat
            (finalNblock req.offset).toNat w.disk).2 req.fileNo.toNat = _ from
              Function.update_self _ _ _]
          exact hfile.cut rfl rfl rfl rfl (by rw [hfile.size]; exact hle)
            (finalNblock_toNat hnblock)
    · rw [if_pos (by rw [BitVec.lt_def, hfile.size]; omega), if_neg (fun hand => hle hand.1)]
      exact h.unchanged hr src _

theorem slice_congr {bytes bytes' : Buffer} {fileSize offset size : Nat}
    (h : ∀ k, k < fileSize → bytes k = bytes' k) :
    slice bytes fileSize offset size = slice bytes' fileSize offset size := by
  unfold slice
  refine List.map_congr_left fun i hi => h _ ?_
  have hlt := List.mem_range.mp hi
  omega

theorem read_follows (h : Journaled w files) (ht : req.type = .read)
    (h0 : req.fileNo.toNat ≠ 0) {data : List Byte} (hfit : ¬ReadOverflows w req uid)
    (hcarried : ¬badInode w.fss req.fileNo.toNat →
      readAllowed (w.fss.fcbCache req.fileNo.toNat) uid →
      min req.size.toNat
          ((w.fss.fcbCache req.fileNo.toNat).stSize.toNat - req.offset.toNat) ≤
        ((w.fss.fcbCache req.fileNo.toNat).stSize.toNat - req.offset.toNat) % 2 ^ 32) :
    Outcome (doRead sparse env req src uid)
      (fun _ w' => Follows w src (answer w.fss.numFcbs.toNat files uid req data) w')
      (fun _ _ => False) w := by
  rw [answer_file (by rw [ht]; decide) h0]
  cases hr : files req.fileNo.toNat with
  | none =>
    unfold doRead
    simp only [Outcome.bind_iff, Outcome.get_iff]
    rw [if_pos ((h.numbered.badInode_iff h0).mpr hr)]
    exact h.answered src _
  | some ref =>
    have hbad := h.numbered.inUse h0 hr
    have hfile := h.carries h0 hr
    unfold JournalFile.answer
    simp only [ht]
    cases hallow : ref.allows uid Permission.ownerRead Permission.otherRead with
    | false =>
      unfold doRead
      simp only [Outcome.bind_iff, Outcome.get_iff]
      rw [if_neg hbad, if_pos (by rw [(hfile.allowed uid).2, hallow]; rfl),
        if_neg Bool.false_ne_true]
      exact h.unchanged hr src _
    | true =>
      have hallowed := (hfile.allowed uid).2.trans hallow
      have hblocks : ∀ k, k < (w.fss.fcbCache req.fileNo.toNat).stSize.toNat →
          k / blockSize < (w.disk req.fileNo.toNat).size := by
        intro k hk
        have hpresent := hfile.present
        have hle := Nat.div_le_div_right (c := blockSize) hk.le
        omega
      refine (outcome_doRead_slice hbad hallowed hfile.bound hblocks (hcarried hbad hallowed)
        (fun hsize hoff => ?_)).post (fun _ w' hw' => ?_)
      · by_contra hmany
        have hlt : req.offset.toNat < (w.fss.fcbCache req.fileNo.toNat).stSize.toNat := hoff
        have hpos : req.size.toNat ≠ 0 := fun hz => hsize (BitVec.eq_of_toNat_eq hz)
        have hbound := hfile.bound
        have hlength := hcarried hbad hallowed
        have hn : (readLength (w.fss.fcbCache req.fileNo.toNat).stSize req.offset
            req.size).toNat = _ := readLength_toNat hlt
        have hnblock := readNblock_eq req.offset (readLength
          (w.fss.fcbCache req.fileNo.toNat).stSize req.offset req.size) (by omega) (by omega)
        refine hfit ⟨hbad, hallowed, hsize, hoff, Nat.le_of_not_lt hmany, fun i hi => ?_⟩
        have hlast := hblocks (req.offset.toNat + (readLength
          (w.fss.fcbCache req.fileNo.toNat).stSize req.offset req.size).toNat - 1) (by omega)
        rw [startBlock_toNat (by omega), Nat.mod_eq_of_lt (by unfold blockSize at *; omega)]
        omega
      · subst hw'
        rw [if_pos rfl, ← hfile.size, ← slice_congr hfile.bytes]
        exact h.unchanged hr src _

/-- The kinds of request that the journals are about. -/
def Journals (op : FileOp) : Prop := op = .create ∨ op = .write ∨ op = .setsize ∨ op = .read

theorem serve_follows (h : Journaled w files) {msg : Message} (hreq : msg.request = some req)
    (hkind : Journals req.type) (hno : ¬Unaccounted w msg) :
    Outcome (serve sparse env msg)
      (fun _ w' => Follows w msg.src (answer w.fss.numFcbs.toNat files msg.uid req
        (msg.payload.take fileMaxMsgSize)) w')
      (fun _ _ => False) w := by
  have htable : req.type ≠ .create → req.fileNo.toNat = 0 →
      answer w.fss.numFcbs.toNat files msg.uid req (msg.payload.take fileMaxMsgSize) =
        (none, files) := by
    intro hne h0
    unfold answer
    rw [if_neg hne, if_pos h0]
  unfold serve
  rw [hreq]
  dsimp only
  rcases hkind with ht | ht | ht | ht <;> simp only [ht] at htable ⊢
  · exact create_follows h ht _
  · by_cases h0 : req.fileNo.toNat = 0
    · rw [htable (by decide) h0]
      exact table_write_follows h h0 _
    · refine write_follows h ht h0 ?_ (fun hfile hsize hallow => ?_)
      · have hle := List.length_take_le fileMaxMsgSize msg.payload
        rw [BitVec.toNat_ofNat]
        exact Nat.mod_eq_of_lt (lt_of_le_of_lt hle (by decide))
      · have hcarried : WriteCarried w req.fileNo.toNat msg req :=
          ⟨⟨hreq, ht, rfl⟩, h0, hfile, hsize, hallow⟩
        constructor
        · by_contra hfar
          exact hno (.far _ req hcarried (Nat.le_of_not_lt hfar))
        · intro k hbehind hbefore
          by_contra hleft
          exact hno (.gap _ req hcarried k hbehind hbefore hleft)
  · by_cases h0 : req.fileNo.toNat = 0
    · rw [htable (by decide) h0]
      exact table_setsize_follows h h0
    · refine setsize_follows h ht h0 (fun hfile hsize hallow => ?_)
      by_contra hwide
      exact hno (.wide _ req ⟨⟨hreq, ht, rfl⟩, h0, hfile, hsize, hallow⟩ (Nat.le_of_not_lt hwide))
  · have hfit : ¬ReadOverflows w req msg.uid := fun hover =>
      hno (.overflow _ req ⟨hreq, ht, rfl⟩ hover)
    by_cases h0 : req.fileNo.toNat = 0
    · rw [htable (by decide) h0]
      exact table_read_follows h h0 hfit
    · refine read_follows h ht h0 hfit (fun hfile hallow => ?_)
      by_contra hlong
      exact hno (.long _ req ⟨⟨hreq, ht, rfl⟩, h0, hfile, hallow⟩ (Nat.lt_of_not_le hlong))

end Step

/-- Each request of a run is answered as the journals say, as long as they account for all
requests up to this one. -/
def AsRecorded (numFcbs : Nat) : List (Env × Message) → JournalFiles → World (Files Block) → Prop
  | [], _, _ => True
  | m :: rest, files, w => ∀ req, m.2.request = some req → ¬Unaccounted w m.2 →
      Outcome (serve sparse m.1 m.2)
        (fun _ w' =>
          Follows w m.2.src (answer numFcbs files m.2.uid req
            (m.2.payload.take fileMaxMsgSize)) w' ∧
          AsRecorded numFcbs rest (answer numFcbs files m.2.uid req
            (m.2.payload.take fileMaxMsgSize)).2 w')
        (fun _ _ => False) w

theorem runs_asRecorded {msgs : List (Env × Message)}
    (hkinds : ∀ m ∈ msgs, ∀ req, m.2.request = some req → Journals req.type) {numFcbs : Nat}
    {w : World (Files Block)} (hnum : w.fss.numFcbs.toNat = numFcbs) {files : JournalFiles}
    (h : Journaled w files) : AsRecorded numFcbs msgs files w := by
  subst hnum
  induction msgs generalizing w files with
  | nil => trivial
  | cons m rest ih =>
    intro req hreq hno
    have hkind := hkinds m List.mem_cons_self req hreq
    refine (serve_follows h hreq hkind hno).post (fun _ w' hw' => ⟨hw', ?_⟩)
    have hrest := ih (fun m hm => hkinds m (List.mem_cons_of_mem _ hm)) hw'.files
    rwa [hw'.num] at hrest

theorem boot_journaled {globalTime : BitVec 64} {startTime numFcbs : BitVec 32} {env : Env}
    (h0 : 0 < numFcbs.toNat) :
    Outcome (boot sparse env) (fun _ w => w.fss.numFcbs = numFcbs ∧ Journaled w fun _ => none)
      (fun _ _ => False) (newDisk globalTime startTime numFcbs) := by
  refine (outcome_boot_mirrors h0).post (fun _ w hw => ⟨hw.2.1, ?_⟩)
  exact ⟨fun f hf hlt => hw.2.2.inside f hf hlt, fun _ _ => rfl⟩

/-- **Discarded bytes do not come back, but for gaps.** A server on an empty disk answers
every sequence of creations, writes, truncations and reads as the journals say: a read
returns for each byte the last value written since it was cut off. -/
theorem reads_last_written {globalTime : BitVec 64} {startTime numFcbs : BitVec 32} {env : Env}
    {msgs : List (Env × Message)} (h0 : 0 < numFcbs.toNat)
    (hkinds : ∀ m ∈ msgs, ∀ req, m.2.request = some req → Journals req.type) :
    ∃ w, boot sparse env (newDisk globalTime startTime numFcbs) = .ok () w ∧
      AsRecorded numFcbs.toNat msgs (fun _ => none) w := by
  obtain ⟨_, w, hboot, hnum, hfiles⟩ := (boot_journaled h0).exists_ok
  exact ⟨w, hboot, runs_asRecorded hkinds (congrArg BitVec.toNat hnum) hfiles⟩

/-- A file is cut and grows again without a gap. -/
theorem reads_last_written_cut :
    ∃ w, boot sparse testEnv (newDisk 0 0 4) = .ok () w ∧
      AsRecorded 4 [testRequest .create 0 0 [], testRequest .write 1 0 [1, 2, 3],
        testRequest .setsize 1 1 [], testRequest .write 1 1 [4],
        testRequest .read 1 0 [0, 0, 0]] (fun _ => none) w := by
  refine reads_last_written (by decide) ?_
  simp only [List.mem_cons, List.not_mem_nil, or_false]
  rintro m (rfl | rfl | rfl | rfl | rfl) req hreq
  · exact .inl (by rw [← Option.some.inj hreq])
  · exact .inr (.inl (by rw [← Option.some.inj hreq]))
  · exact .inr (.inr (.inl (by rw [← Option.some.inj hreq])))
  · exact .inr (.inl (by rw [← Option.some.inj hreq]))
  · exact .inr (.inr (.inr (by rw [← Option.some.inj hreq])))

/-- Three bytes are written, the file is cut after the first one, and a byte is written behind
a gap of one byte: the gap reads as the byte that was cut off. -/
theorem discarded_byte_reappears :
    let run : EStateM Stop (World (Files Block)) Unit := do
      boot sparse testEnv
      serveAll sparse [testRequest .create 0 0 [], testRequest .write 1 0 [1, 2, 3],
        testRequest .setsize 1 1 [], testRequest .write 1 2 [4],
        testRequest .read 1 0 [0, 0, 0]]
    (final (run (newDisk 0 0 4))).outbox = [
        (9, { FileReply.plain .ok [] with fileNo := 1 }), (9, .plain .ok []),
        (9, .plain .ok []), (9, .plain .ok []), (9, readReply [1, 2, 4])] ∧
      (List.range 3).map (value [.write 2 [4], .cut 1, .write 0 [1, 2, 3]]) = [1, 0, 4] := by
  decide +kernel

end Egos.File
