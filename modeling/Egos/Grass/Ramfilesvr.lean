import Egos.Disk.Store
import Egos.File.Protocol

/-!
# The ram file server

`ramfilesvr.c`. A file is a control block and a buffer, which `m_realloc` has given the length
that `contents` has. An access to `files[]` or to a buffer outside of it is `Stop.undefined`.
Growing a buffer can fail, and then it is a null pointer; the other allocations do not fail.
-/
namespace Egos.Ramfile

open Egos.Lib Egos.Disk Egos.File

set_option autoImplicit false

/-- `MAX_FILES`. -/
def maxFiles : Nat := 100

/-- `struct file`. -/
structure RamFile where
  fcb : FileControlBlock
  contents : List Byte

/-- A call of `sys_send`: the first `size` bytes of a reply are the message. -/
structure Sent where
  dst : BitVec 32
  rep : FileReply
  size : BitVec 32

/-- The whole reply is to be sent, but `sizeof(*rep) + n` becomes an `unsigned int`. -/
def Sent.of (dst : BitVec 32) (rep : FileReply) : Sent :=
  ⟨dst, rep, BitVec.ofNat 32 (FileReply.sizeof + rep.data.length)⟩

/-- The data that the message carries behind the header. -/
def Sent.data (m : Sent) : List Byte := m.rep.data.take (m.size.toNat - FileReply.sizeof)

/-- `struct ramfile_state`, and the replies that were sent. -/
structure RamfileState where
  startTime : BitVec 64
  files : Fin maxFiles → RamFile
  outbox : List Sent

/-- What a request finds in its surroundings: the server's pid, the time, the bytes in fresh
memory, and which sizes `m_realloc` can give. -/
structure Env where
  pid : BitVec 32
  now : BitVec 64
  heap : Buffer
  grants : Nat → Bool

abbrev RamM := EStateM Stop RamfileState

/-- `rs->files[fileNo]`. -/
def fileAt (fileNo : Nat) : RamM RamFile := do
  let rs ← get
  if h : fileNo < maxFiles then return rs.files ⟨fileNo, h⟩ else throw .undefined

def RamfileState.setFile (rs : RamfileState) (fileNo : Nat) (file : RamFile) : RamfileState :=
  { rs with files := fun i => if i.val = fileNo then file else rs.files i }

def setFile (fileNo : Nat) (file : RamFile) : RamM Unit :=
  modify fun rs => rs.setFile fileNo file

/-- `sys_send` of a reply. -/
def send (dst : BitVec 32) (rep : FileReply) : RamM Unit :=
  modify fun rs => { rs with outbox := rs.outbox ++ [.of dst rep] }

/-- `ramfile_respond` without data. -/
def ramfileRespond (src : BitVec 32) (status : FileStatus) : RamM Unit :=
  send src (.plain status [])

def ramfileReadAllowed (file : RamFile) (uid : BitVec 32) : Bool :=
  if uid = 0 then true
  else if uid = file.fcb.stUid then file.fcb.stMode &&& Permission.ownerRead != 0
  else file.fcb.stMode &&& Permission.otherRead != 0

def ramfileWriteAllowed (file : RamFile) (uid : BitVec 32) : Bool :=
  if uid = 0 then true
  else if uid = file.fcb.stUid then file.fcb.stMode &&& Permission.ownerWrite != 0
  else file.fcb.stMode &&& Permission.otherWrite != 0

/-- `rs->files[0].fcb.st_modtime + (sys_gettime() - rs->start_time) / 1000`. -/
def modtime (rs : RamfileState) (env : Env) : BitVec 64 :=
  (rs.files ⟨0, by decide⟩).fcb.stModtime + (env.now - rs.startTime) / 1000#64

/-- The loop of `ramfile_do_create`. -/
def freeFile (rs : RamfileState) : Option (Fin maxFiles) :=
  (List.finRange maxFiles).tail.find? fun i => !(rs.files i).fcb.stAlloc

def ramfileDoCreate (env : Env) (req : FileRequest) (src uid : BitVec 32) : RamM Unit := do
  let rs ← get
  match freeFile rs with
  | none => ramfileRespond src .error
  | some fileNo =>
    let file := rs.files fileNo
    setFile fileNo { file with fcb := { file.fcb with
      stAlloc := true
      stDev := env.pid
      stIno := BitVec.ofNat 32 fileNo
      stMode := req.mode
      stUid := uid
      stModtime := modtime rs env } }
    send src { FileReply.plain .ok [] with fileNo := BitVec.ofNat 32 fileNo }

/-- The number of bytes that a read at `offset` returns. -/
def readLength (stSize offset : BitVec 64) (size : BitVec 32) : BitVec 32 :=
  let n := (stSize - offset).setWidth 32
  if size < n then size else n

def ramfileDoRead (req : FileRequest) (src uid : BitVec 32) : RamM Unit := do
  -- the file is looked up before its number is compared with `MAX_FILES`
  let file ← fileAt req.fileNo.toNat
  if !file.fcb.stAlloc || decide (maxFiles ≤ req.fileNo.toNat) then
    ramfileRespond src .error
  else if !ramfileReadAllowed file uid then
    ramfileRespond src .error
  else
    let n := if req.offset < file.fcb.stSize then
      (readLength file.fcb.stSize req.offset req.size).toNat else 0
    if n ≠ 0 ∧ file.contents.length < req.offset.toNat + n then
      throw .undefined
    send src { FileReply.plain .ok ((file.contents.drop req.offset.toNat).take n) with
      op := .read
      fcb := { FileControlBlock.zero with stSize := BitVec.ofNat 64 n } }

/-- `m_realloc`. -/
def realloc (env : Env) (contents : List Byte) (size : Nat) : List Byte :=
  if env.grants size then
    contents.take size ++ (List.range (size - contents.length)).map env.heap
  else []

/-- The first part of `ramfile_put`, where the file is made to reach up to `stop`. -/
def grow (env : Env) (file : RamFile) (stop : BitVec 64) : RamFile :=
  if file.fcb.stSize < stop then
    ⟨{ file.fcb with stSize := stop }, realloc env file.contents stop.toNat⟩
  else file

def ramfilePut (env : Env) (fileNo : Nat) (offset : BitVec 64) (data : List Byte) : RamM Unit := do
  let rs ← get
  let file ← fileAt fileNo
  let grown := grow env file (offset + BitVec.ofNat 64 data.length)
  if data ≠ [] ∧ grown.contents.length < offset.toNat + data.length then
    throw .undefined
  setFile fileNo ⟨{ grown.fcb with stModtime := modtime rs env },
    grown.contents.take offset.toNat ++ data ++ grown.contents.drop (offset.toNat + data.length)⟩

/-- The first check of the other handlers. -/
def badInode (rs : RamfileState) (fileNo : Nat) : Bool :=
  if h : fileNo < maxFiles then !(rs.files ⟨fileNo, h⟩).fcb.stAlloc else true

def ramfileDoWrite (env : Env) (req : FileRequest) (src uid : BitVec 32) (data : List Byte) :
    RamM Unit := do
  let rs ← get
  if badInode rs req.fileNo.toNat then
    ramfileRespond src .error
  else if req.size.toNat ≠ data.length then
    ramfileRespond src .error
  else
    let file ← fileAt req.fileNo.toNat
    if !ramfileWriteAllowed file uid then
      ramfileRespond src .error
    else
      ramfilePut env req.fileNo.toNat req.offset data
      ramfileRespond src .ok

def ramfileDoStat (req : FileRequest) (src uid : BitVec 32) : RamM Unit := do
  let file ← fileAt req.fileNo.toNat
  if !file.fcb.stAlloc || decide (maxFiles ≤ req.fileNo.toNat) then
    ramfileRespond src .error
  else if !ramfileReadAllowed file uid then
    ramfileRespond src .error
  else
    send src { FileReply.plain .ok [] with
      op := .stat
      fcb := file.fcb }

def ramfileDoSetsize (env : Env) (req : FileRequest) (src uid : BitVec 32) : RamM Unit := do
  let rs ← get
  if badInode rs req.fileNo.toNat then
    ramfileRespond src .error
  else
    let file ← fileAt req.fileNo.toNat
    if file.fcb.stSize < req.offset then
      ramfileRespond src .error
    else if !ramfileWriteAllowed file uid then
      ramfileRespond src .error
    else
      setFile req.fileNo.toNat ⟨{ file.fcb with stSize := req.offset, stModtime := env.now },
        realloc env file.contents req.offset.toNat⟩
      ramfileRespond src .ok

def ramfileDoDelete (req : FileRequest) (src uid : BitVec 32) : RamM Unit := do
  let rs ← get
  if badInode rs req.fileNo.toNat then
    ramfileRespond src .error
  else
    let file ← fileAt req.fileNo.toNat
    if !ramfileWriteAllowed file uid then
      ramfileRespond src .error
    else
      setFile req.fileNo.toNat ⟨{ file.fcb with stAlloc := false, stSize := 0 }, []⟩
      ramfileRespond src .ok

def ramfileDoChown (req : FileRequest) (src uid : BitVec 32) : RamM Unit := do
  let rs ← get
  if badInode rs req.fileNo.toNat then
    ramfileRespond src .error
  else if uid ≠ 0 then
    ramfileRespond src .error
  else
    let file ← fileAt req.fileNo.toNat
    setFile req.fileNo.toNat { file with fcb := { file.fcb with stUid := req.uid } }
    ramfileRespond src .ok

def ramfileDoChmod (req : FileRequest) (src uid : BitVec 32) : RamM Unit := do
  let rs ← get
  if badInode rs req.fileNo.toNat then
    ramfileRespond src .error
  else
    let file ← fileAt req.fileNo.toNat
    if uid ≠ 0 ∧ uid ≠ file.fcb.stUid then
      ramfileRespond src .error
    else
      setFile req.fileNo.toNat { file with fcb := { file.fcb with stMode := req.mode } }
      ramfileRespond src .ok

/-- One turn of the loop of `ramfile_proc`. The receive buffer cuts the payload. -/
def serve (env : Env) (msg : Message) : RamM Unit :=
  match msg.request with
  | none => throw .assert
  | some req =>
    match req.type with
    | .create => ramfileDoCreate env req msg.src msg.uid
    | .chown => ramfileDoChown req msg.src msg.uid
    | .chmod => ramfileDoChmod req msg.src msg.uid
    | .read => ramfileDoRead req msg.src msg.uid
    | .write => ramfileDoWrite env req msg.src msg.uid (msg.payload.take fileMaxMsgSize)
    | .stat => ramfileDoStat req msg.src msg.uid
    | .setsize => ramfileDoSetsize env req msg.src msg.uid
    | .delete => ramfileDoDelete req msg.src msg.uid
    | .unused | .sync | .setFlags => ramfileRespond msg.src .error

/-- The state in which `ramfile_proc` begins its loop. -/
def start (seconds startTime : BitVec 64) : RamfileState where
  startTime := startTime
  files i := ⟨{ FileControlBlock.zero with
    stAlloc := i.val = 0
    stModtime := if i.val = 0 then seconds else 0 }, []⟩
  outbox := []

/-- Every buffer is as long as the size says. -/
def Sized (rs : RamfileState) : Prop :=
  ∀ i, (rs.files i).contents.length = (rs.files i).fcb.stSize.toNat

/-- `st_size` of a file, where there is one. -/
def fileSize (rs : RamfileState) (fileNo : Nat) : Nat :=
  if h : fileNo < maxFiles then (rs.files ⟨fileNo, h⟩).fcb.stSize.toNat else 0

/-- A read that is answered `FILE_OK` returns what there is, up to the size asked for. -/
def ReadExact (msg : Message) (rs rs' : RamfileState) : Prop :=
  ∀ req, msg.request = some req → req.type = .read → ∀ m, rs'.outbox = rs.outbox ++ [m] →
    m.rep.status = .ok →
      m.data.length = min req.size.toNat (fileSize rs req.fileNo.toNat - req.offset.toNat)

/-- A request is served without an access outside of an array. -/
def Safe (env : Env) (msg : Message) (rs : RamfileState) : Prop :=
  Outcome (serve env msg) (fun _ rs' => Sized rs') (fun e rs' => e ≠ .undefined ∧ Sized rs') rs

/-- So is this one, and if it reads, it gets what it asked for. -/
def Correct (env : Env) (msg : Message) (rs : RamfileState) : Prop :=
  Outcome (serve env msg) (fun _ rs' => Sized rs' ∧ ReadExact msg rs rs')
    (fun e rs' => e ≠ .undefined ∧ Sized rs') rs

/-- The file of a request exists, and its user passes the check. -/
def Passes (allowed : RamFile → BitVec 32 → Bool) (rs : RamfileState) (req : FileRequest)
    (uid : BitVec 32) : Prop :=
  ∃ h : req.fileNo.toNat < maxFiles, (rs.files ⟨_, h⟩).fcb.stAlloc = true ∧
    allowed (rs.files ⟨_, h⟩) uid = true

/-- What the server needs of a request. A read or a `stat` names a slot of `files[]`. What is
left of the file at the offset of a read, as an `unsigned int`, does not fall below the size asked
for. The end of a write is a 64-bit number, and there is memory for a file that is changed. -/
def BenignRequest (env : Env) (msg : Message) (rs : RamfileState) (req : FileRequest) : Prop :=
  match req.type with
  | .read => req.fileNo.toNat < maxFiles ∧ (Passes ramfileReadAllowed rs req msg.uid →
      let left := fileSize rs req.fileNo.toNat - req.offset.toNat
      left < 2 ^ 32 ∨ req.size.toNat ≤ left % 2 ^ 32)
  | .stat => req.fileNo.toNat < maxFiles
  | .write => Passes ramfileWriteAllowed rs req msg.uid →
      let stop := req.offset.toNat + req.size.toNat
      req.size.toNat = (msg.payload.take fileMaxMsgSize).length →
        stop < 2 ^ 64 ∧ (fileSize rs req.fileNo.toNat < stop → env.grants stop = true)
  | .setsize => Passes ramfileWriteAllowed rs req msg.uid →
      req.offset.toNat ≤ fileSize rs req.fileNo.toNat →
        req.offset = 0 ∨ env.grants req.offset.toNat = true
  | _ => True

def Benign (env : Env) (msg : Message) (rs : RamfileState) : Prop :=
  ∀ req, msg.request = some req → BenignRequest env msg rs req

/-- The reply to a read with all that is there has a 32-bit size. -/
def UncutRequest (msg : Message) (rs : RamfileState) (req : FileRequest) : Prop :=
  req.type = .read → Passes ramfileReadAllowed rs req msg.uid →
    FileReply.sizeof + min req.size.toNat (fileSize rs req.fileNo.toNat - req.offset.toNat) < 2 ^ 32

def Uncut (msg : Message) (rs : RamfileState) : Prop :=
  ∀ req, msg.request = some req → UncutRequest msg rs req

section

variable {Q : Unit → RamfileState → Prop} {E : Stop → RamfileState → Prop} {rs : RamfileState}
  {env : Env} {req : FileRequest} {src uid : BitVec 32}

@[simp] theorem outcome_send (dst : BitVec 32) (rep : FileReply) : Outcome (send dst rep) Q E rs ↔
    Q () { rs with outbox := rs.outbox ++ [.of dst rep] } := Iff.rfl

@[simp] theorem outcome_respond (status : FileStatus) :
    Outcome (ramfileRespond src status) Q E rs ↔
      Q () { rs with outbox := rs.outbox ++ [.of src (.plain status [])] } := Iff.rfl

@[simp] theorem outcome_setFile (fileNo : Nat) (file : RamFile) :
    Outcome (setFile fileNo file) Q E rs ↔ Q () (rs.setFile fileNo file) := Iff.rfl

theorem outcome_fileAt {Q : RamFile → RamfileState → Prop} {fileNo : Nat} (h : fileNo < maxFiles) :
    Outcome (fileAt fileNo) Q E rs ↔ Q (rs.files ⟨fileNo, h⟩) rs := by
  unfold fileAt
  rw [Outcome.bind_iff, Outcome.get_iff, dif_pos h, Outcome.pure_iff]

theorem outcome_fileAt_outside {Q : RamFile → RamfileState → Prop} {fileNo : Nat}
    (h : ¬fileNo < maxFiles) : Outcome (fileAt fileNo) Q E rs ↔ E .undefined rs := by
  unfold fileAt
  rw [Outcome.bind_iff, Outcome.get_iff, dif_neg h, Outcome.throw_iff]

theorem fileSize_eq {fileNo : Nat} (h : fileNo < maxFiles) :
    fileSize rs fileNo = (rs.files ⟨fileNo, h⟩).fcb.stSize.toNat := dif_pos h

theorem Sized.send (h : Sized rs) (outbox : List Sent) :
    Sized { rs with outbox := outbox } := h

theorem Sized.setFile (h : Sized rs) {fileNo : Nat} {file : RamFile}
    (hfile : file.contents.length = file.fcb.stSize.toNat) : Sized (rs.setFile fileNo file) := by
  intro i
  simp only [RamfileState.setFile]
  split
  · exact hfile
  · exact h i

theorem badInode_false {fileNo : Nat} (h : badInode rs fileNo = false) :
    ∃ hlt : fileNo < maxFiles, (rs.files ⟨fileNo, hlt⟩).fcb.stAlloc = true := by
  unfold badInode at h
  split at h
  · rename_i hlt
    exact ⟨hlt, by simpa using h⟩
  · cases h

theorem badInode_of_passes {allowed : RamFile → BitVec 32 → Bool}
    (h : Passes allowed rs req uid) : badInode rs req.fileNo.toNat = false := by
  obtain ⟨hlt, halloc, -⟩ := h
  simp [badInode, hlt, halloc]

/-! ## The handlers that touch no buffer -/

theorem create_sized (h : Sized rs) : Outcome (ramfileDoCreate env req src uid)
    (fun _ rs' => Sized rs') (fun _ _ => False) rs := by
  unfold ramfileDoCreate
  rw [Outcome.bind_iff, Outcome.get_iff]
  split
  · exact h
  · rename_i fileNo _
    simp only [Outcome.bind_iff, outcome_setFile, outcome_send]
    refine Sized.send (h.setFile ?_) _
    exact h fileNo

theorem delete_sized (h : Sized rs) : Outcome (ramfileDoDelete req src uid)
    (fun _ rs' => Sized rs') (fun _ _ => False) rs := by
  unfold ramfileDoDelete
  rw [Outcome.bind_iff, Outcome.get_iff]
  split
  · exact h
  rename_i hbad
  obtain ⟨hlt, -⟩ := badInode_false (eq_false_of_ne_true hbad)
  rw [Outcome.bind_iff, outcome_fileAt hlt]
  split
  · exact h
  · simp only [Outcome.bind_iff, outcome_setFile, outcome_respond]
    exact (h.setFile rfl).send _

theorem chown_sized (h : Sized rs) : Outcome (ramfileDoChown req src uid)
    (fun _ rs' => Sized rs') (fun _ _ => False) rs := by
  unfold ramfileDoChown
  rw [Outcome.bind_iff, Outcome.get_iff]
  split
  · exact h
  rename_i hbad
  obtain ⟨hlt, -⟩ := badInode_false (eq_false_of_ne_true hbad)
  split
  · exact h
  · rw [Outcome.bind_iff, outcome_fileAt hlt]
    simp only [Outcome.bind_iff, outcome_setFile, outcome_respond]
    refine Sized.send (h.setFile ?_) _
    exact h ⟨_, hlt⟩

theorem chmod_sized (h : Sized rs) : Outcome (ramfileDoChmod req src uid)
    (fun _ rs' => Sized rs') (fun _ _ => False) rs := by
  unfold ramfileDoChmod
  rw [Outcome.bind_iff, Outcome.get_iff]
  split
  · exact h
  rename_i hbad
  obtain ⟨hlt, -⟩ := badInode_false (eq_false_of_ne_true hbad)
  rw [Outcome.bind_iff, outcome_fileAt hlt]
  split
  · exact h
  · simp only [Outcome.bind_iff, outcome_setFile, outcome_respond]
    refine Sized.send (h.setFile ?_) _
    exact h ⟨_, hlt⟩

/-! ## The handlers that do -/

theorem stat_sized_iff (h : Sized rs) : Outcome (ramfileDoStat req src uid)
    (fun _ rs' => Sized rs') (fun e rs' => e ≠ .undefined ∧ Sized rs') rs ↔
      req.fileNo.toNat < maxFiles := by
  unfold ramfileDoStat
  rw [Outcome.bind_iff]
  by_cases hlt : req.fileNo.toNat < maxFiles
  · rw [outcome_fileAt hlt]
    refine ⟨fun _ => hlt, fun _ => ?_⟩
    split
    · exact h
    split
    · exact h
    · exact h
  · rw [outcome_fileAt_outside hlt]
    exact ⟨fun hne => absurd rfl hne.1, fun hlt' => absurd hlt' hlt⟩

theorem toNat_readLength (stSize offset : BitVec 64) (size : BitVec 32) :
    (if offset < stSize then (readLength stSize offset size).toNat else 0) =
      min size.toNat ((stSize.toNat - offset.toNat) % 2 ^ 32) := by
  have hlt := stSize.isLt
  split
  · rename_i hbelow
    rw [BitVec.lt_def] at hbelow
    have hleft : ((stSize - offset).setWidth 32).toNat = (stSize.toNat - offset.toNat) % 2 ^ 32 := by
      rw [BitVec.toNat_setWidth, BitVec.toNat_sub_of_le (BitVec.le_def.mpr (Nat.le_of_lt hbelow))]
    unfold readLength
    rw [← hleft]
    dsimp only
    split
    · rename_i hsize
      rw [BitVec.lt_def] at hsize
      omega
    · rename_i hsize
      rw [BitVec.lt_def] at hsize
      omega
  · rename_i hbelow
    rw [BitVec.lt_def] at hbelow
    omega

/-- A message carries its data if its size has not wrapped around, and none if it has. -/
theorem Sent.length_data (dst : BitVec 32) {rep : FileReply} {n : Nat} (hn : rep.data.length = n)
    (hlt : n < 2 ^ 32) :
    (Sent.of dst rep).data.length = if FileReply.sizeof + n < 2 ^ 32 then n else 0 := by
  subst hn
  have hsize : (Sent.of dst rep).size.toNat = (FileReply.sizeof + rep.data.length) % 2 ^ 32 :=
    BitVec.toNat_ofNat ..
  unfold Sent.data
  rw [List.length_take, hsize]
  change min _ rep.data.length = _
  unfold FileReply.sizeof
  split <;> omega

theorem read_correct_iff (h : Sized rs) : Outcome (ramfileDoRead req src uid)
    (fun _ rs' => Sized rs' ∧ ∀ m, rs'.outbox = rs.outbox ++ [m] → m.rep.status = .ok →
      m.data.length = min req.size.toNat (fileSize rs req.fileNo.toNat - req.offset.toNat))
    (fun e rs' => e ≠ .undefined ∧ Sized rs') rs ↔
      req.fileNo.toNat < maxFiles ∧ (Passes ramfileReadAllowed rs req uid →
        let left := fileSize rs req.fileNo.toNat - req.offset.toNat
        (left < 2 ^ 32 ∨ req.size.toNat ≤ left % 2 ^ 32) ∧
          FileReply.sizeof + min req.size.toNat left < 2 ^ 32) := by
  unfold ramfileDoRead
  rw [Outcome.bind_iff]
  by_cases hlt : req.fileNo.toNat < maxFiles
  swap
  · rw [outcome_fileAt_outside hlt]
    exact ⟨fun hne => absurd rfl hne.1, fun hlt' => absurd hlt'.1 hlt⟩
  rw [outcome_fileAt hlt]
  have hsized := h ⟨_, hlt⟩
  have hsize := req.size.isLt
  -- an error is no answer that counts
  have herror : ∀ m, rs.outbox ++ [Sent.of src (.plain .error [])] = rs.outbox ++ [m] →
      m.rep.status = .ok → m.data.length =
        min req.size.toNat (fileSize rs req.fileNo.toNat - req.offset.toNat) := by
    intro m hm hok
    rw [List.append_cancel_left_eq, List.singleton_inj] at hm
    rw [← hm] at hok
    cases hok
  rw [toNat_readLength, decide_eq_false (Nat.not_le.mpr hlt), Bool.or_false]
  split
  · rename_i hbad
    refine iff_of_true ⟨h, herror⟩ ⟨hlt, ?_⟩
    rintro ⟨_, halloc, -⟩
    simp [halloc] at hbad
  split
  · rename_i hdenied
    refine iff_of_true ⟨h, herror⟩ ⟨hlt, ?_⟩
    rintro ⟨_, -, hallowed⟩
    simp [hallowed] at hdenied
  rename_i hbad hdenied
  have hpasses : Passes ramfileReadAllowed rs req uid :=
    ⟨hlt, by simpa using hbad, by simpa using hdenied⟩
  rw [fileSize_eq hlt]
  generalize (rs.files ⟨req.fileNo.toNat, hlt⟩).fcb.stSize.toNat = stSize at *
  generalize hn : min req.size.toNat ((stSize - req.offset.toNat) % 2 ^ 32) = n
  -- what is read lies in the buffer
  rw [if_neg (by omega), outcome_send]
  have hlen : ((List.drop req.offset.toNat (rs.files ⟨req.fileNo.toNat, hlt⟩).contents).take n).length
      = n := by
    rw [List.length_take, List.length_drop, hsized]
    omega
  have hsent := @Sent.length_data src { FileReply.plain .ok
    ((List.drop req.offset.toNat (rs.files ⟨req.fileNo.toNat, hlt⟩).contents).take n) with
      op := .read
      fcb := { FileControlBlock.zero with stSize := BitVec.ofNat 64 n } } n hlen (by omega)
  unfold FileReply.sizeof at *
  constructor
  · rintro ⟨-, hexact⟩
    refine ⟨hlt, fun _ => ?_⟩
    have hrep := hexact _ rfl rfl
    rw [hsent] at hrep
    dsimp only
    split at hrep <;> omega
  · rintro ⟨-, hleft⟩
    refine ⟨h, fun m hm _ => ?_⟩
    rw [List.append_cancel_left_eq, List.singleton_inj] at hm
    have hleft := hleft hpasses
    dsimp only at hleft
    rw [← hm, hsent]
    split <;> omega

/-- Whatever a read returns, it lies in the buffer. -/
theorem read_sized (h : Sized rs) (hlt : req.fileNo.toNat < maxFiles) :
    Outcome (ramfileDoRead req src uid) (fun _ rs' => Sized rs')
      (fun e rs' => e ≠ .undefined ∧ Sized rs') rs := by
  unfold ramfileDoRead
  rw [Outcome.bind_iff, outcome_fileAt hlt]
  have hsized := h ⟨_, hlt⟩
  rw [toNat_readLength]
  split
  · exact h
  split
  · exact h
  · rw [if_neg (by omega), outcome_send]
    exact h

theorem realloc_length (contents : List Byte) (size : Nat) :
    (realloc env contents size).length = if env.grants size then size else 0 := by
  unfold realloc
  split
  · rw [List.length_append, List.length_take, List.length_map, List.length_range]
    omega
  · rfl

theorem grow_stSize (file : RamFile) (stop : BitVec 64) :
    (grow env file stop).fcb.stSize.toNat = max file.fcb.stSize.toNat stop.toNat := by
  unfold grow
  split
  · rename_i hlt
    rw [BitVec.lt_def] at hlt
    exact (Nat.max_eq_right (Nat.le_of_lt hlt)).symm
  · rename_i hge
    rw [BitVec.lt_def] at hge
    exact (Nat.max_eq_left (Nat.le_of_not_lt hge)).symm

/-- A file that has been made to reach up to `stop` does so, unless it had to grow and there was
no memory. -/
theorem grow_length {file : RamFile} (hfile : file.contents.length = file.fcb.stSize.toNat)
    (stop : BitVec 64) : (grow env file stop).contents.length =
      if file.fcb.stSize.toNat < stop.toNat ∧ env.grants stop.toNat = false then 0
      else (grow env file stop).fcb.stSize.toNat := by
  rw [grow_stSize]
  unfold grow
  by_cases hlt : file.fcb.stSize < stop
  · rw [if_pos hlt]
    rw [BitVec.lt_def] at hlt
    dsimp only
    rw [realloc_length]
    cases env.grants stop.toNat with
    | true => simp [Nat.le_of_lt hlt]
    | false => simp [hlt]
  · rw [if_neg hlt, hfile]
    rw [BitVec.lt_def] at hlt
    rw [if_neg (fun hc => hlt hc.1)]
    exact (Nat.max_eq_left (Nat.le_of_not_lt hlt)).symm

theorem put_sized_iff (h : Sized rs) {fileNo : Nat} (hlt : fileNo < maxFiles) (offset : BitVec 64)
    (data : List Byte) (hdata : data.length < 2 ^ 32) :
    Outcome (ramfilePut env fileNo offset data) (fun _ rs' => Sized rs')
      (fun e rs' => e ≠ .undefined ∧ Sized rs') rs ↔
    offset.toNat + data.length < 2 ^ 64 ∧ (fileSize rs fileNo < offset.toNat + data.length →
      env.grants (offset.toNat + data.length) = true) := by
  unfold ramfilePut
  rw [Outcome.bind_iff, Outcome.get_iff, Outcome.bind_iff, outcome_fileAt hlt, fileSize_eq hlt]
  have hsize := (rs.files ⟨fileNo, hlt⟩).fcb.stSize.isLt
  have hoffset := offset.isLt
  have hstop : (offset + BitVec.ofNat 64 data.length).toNat =
      (offset.toNat + data.length) % 2 ^ 64 := by
    rw [BitVec.toNat_add, BitVec.toNat_ofNat]
    omega
  have hlen := @grow_length env _ (h ⟨fileNo, hlt⟩) (offset + BitVec.ofNat 64 data.length)
  have hnew := @grow_stSize env (rs.files ⟨fileNo, hlt⟩)
    (offset + BitVec.ofNat 64 data.length)
  rw [hstop] at hlen hnew
  generalize grow env (rs.files ⟨fileNo, hlt⟩) (offset + BitVec.ofNat 64 data.length) = grown at *
  have hnil : data ≠ [] ↔ data.length ≠ 0 := List.length_eq_zero_iff.not.symm
  have hgrown := grown.fcb.stSize.isLt
  have hsetFile : Sized (rs.setFile fileNo ⟨{ grown.fcb with stModtime := modtime rs env },
      grown.contents.take offset.toNat ++ data ++
        grown.contents.drop (offset.toNat + data.length)⟩) ↔
      (grown.contents.take offset.toNat ++ data ++
        grown.contents.drop (offset.toNat + data.length)).length = grown.fcb.stSize.toNat := by
    refine ⟨fun hs => ?_, fun hs => h.setFile hs⟩
    have hi := hs ⟨fileNo, hlt⟩
    simpa only [RamfileState.setFile, if_true] using hi
  simp only [List.length_append, List.length_take, List.length_drop] at hsetFile
  by_cases hroom : data ≠ [] ∧ grown.contents.length < offset.toNat + data.length
  · rw [if_pos hroom, Outcome.bind_iff, Outcome.throw_iff]
    refine iff_of_false (fun hne => hne.1 rfl) ?_
    rintro ⟨hwrap, hgrants⟩
    rw [Nat.mod_eq_of_lt hwrap] at hlen hnew
    split at hlen
    · rename_i hno
      rw [hgrants hno.1] at hno
      cases hno.2
    · omega
  · rw [if_neg hroom, outcome_setFile, hsetFile]
    rw [hnil] at hroom
    by_cases hno : (rs.files ⟨fileNo, hlt⟩).fcb.stSize.toNat < (offset.toNat + data.length) % 2 ^ 64 ∧
        env.grants ((offset.toNat + data.length) % 2 ^ 64) = false
    -- the buffer is gone, and the size is not zero
    · rw [if_pos hno] at hlen
      refine iff_of_false (by omega) ?_
      rintro ⟨hwrap, hgrants⟩
      rw [Nat.mod_eq_of_lt hwrap] at hno
      rw [hgrants hno.1] at hno
      cases hno.2
    · rw [if_neg hno] at hlen
      have hwrap : offset.toNat + data.length < 2 ^ 64 := by omega
      rw [Nat.mod_eq_of_lt hwrap] at hno hnew
      refine iff_of_true (by omega) ⟨hwrap, fun hgrows => ?_⟩
      exact eq_true_of_ne_false fun hfalse => hno ⟨hgrows, hfalse⟩

/-- A file that is not there, or that the user may not write. -/
theorem not_passes {hlt : req.fileNo.toNat < maxFiles}
    (h : ¬(ramfileWriteAllowed (rs.files ⟨_, hlt⟩) uid = true)) :
    ¬Passes ramfileWriteAllowed rs req uid :=
  fun hp => h hp.2.2

theorem write_sized_iff (h : Sized rs) (data : List Byte) :
    Outcome (ramfileDoWrite env req src uid data) (fun _ rs' => Sized rs')
      (fun e rs' => e ≠ .undefined ∧ Sized rs') rs ↔
    (Passes ramfileWriteAllowed rs req uid →
      let stop := req.offset.toNat + req.size.toNat
      req.size.toNat = data.length →
        stop < 2 ^ 64 ∧ (fileSize rs req.fileNo.toNat < stop → env.grants stop = true)) := by
  unfold ramfileDoWrite
  rw [Outcome.bind_iff, Outcome.get_iff]
  split
  · rename_i hbad
    refine iff_of_true h fun hp => ?_
    rw [badInode_of_passes hp] at hbad
    cases hbad
  rename_i hbad
  obtain ⟨hlt, halloc⟩ := badInode_false (eq_false_of_ne_true hbad)
  split
  · rename_i hsize
    exact iff_of_true h fun _ hs => absurd hs hsize
  rename_i hsize
  have hsize := not_not.mp hsize
  rw [Outcome.bind_iff, outcome_fileAt hlt]
  split
  · rename_i hdenied
    exact iff_of_true h fun hp => absurd hp (not_passes (by simpa using hdenied))
  · rename_i hallowed
    have hput := @put_sized_iff rs env h _ hlt req.offset data (hsize ▸ req.size.isLt)
    rw [Outcome.bind_iff]
    refine Iff.trans hput ?_
    rw [← hsize]
    exact ⟨fun hall _ _ => hall, fun hall => hall ⟨hlt, halloc, by simpa using hallowed⟩ rfl⟩

theorem setsize_sized_iff (h : Sized rs) :
    Outcome (ramfileDoSetsize env req src uid) (fun _ rs' => Sized rs')
      (fun e rs' => e ≠ .undefined ∧ Sized rs') rs ↔
    (Passes ramfileWriteAllowed rs req uid → req.offset.toNat ≤ fileSize rs req.fileNo.toNat →
      req.offset = 0 ∨ env.grants req.offset.toNat = true) := by
  unfold ramfileDoSetsize
  rw [Outcome.bind_iff, Outcome.get_iff]
  split
  · rename_i hbad
    refine iff_of_true h fun hp => ?_
    rw [badInode_of_passes hp] at hbad
    cases hbad
  rename_i hbad
  obtain ⟨hlt, halloc⟩ := badInode_false (eq_false_of_ne_true hbad)
  rw [Outcome.bind_iff, outcome_fileAt hlt, fileSize_eq hlt]
  split
  · rename_i hsize
    rw [BitVec.lt_def] at hsize
    exact iff_of_true h fun _ hle => absurd hsize (Nat.not_lt.mpr hle)
  rename_i hsize
  rw [BitVec.lt_def, Nat.not_lt] at hsize
  split
  · rename_i hdenied
    exact iff_of_true h fun hp => absurd hp (not_passes (by simpa using hdenied))
  rename_i hallowed
  have hpasses : Passes ramfileWriteAllowed rs req uid := ⟨hlt, halloc, by simpa using hallowed⟩
  simp only [Outcome.bind_iff, outcome_setFile, outcome_respond]
  constructor
  · intro hs _ _
    have hi := hs ⟨_, hlt⟩
    simp only [RamfileState.setFile, if_true] at hi
    rw [realloc_length] at hi
    split at hi
    · rename_i hgrants
      exact .inr hgrants
    · exact .inl (BitVec.eq_of_toNat_eq hi.symm)
  · intro hall
    refine Sized.send (h.setFile ?_) _
    dsimp only
    rw [realloc_length]
    obtain hzero | hgrants := hall hpasses hsize
    · rw [hzero]
      exact ite_self _
    · rw [if_pos hgrants]

end

section

variable {env : Env} {msg : Message} {rs : RamfileState} {req : FileRequest}

theorem serve_of_request (hreq : msg.request = some req) :
    serve env msg = match req.type with
      | .create => ramfileDoCreate env req msg.src msg.uid
      | .chown => ramfileDoChown req msg.src msg.uid
      | .chmod => ramfileDoChmod req msg.src msg.uid
      | .read => ramfileDoRead req msg.src msg.uid
      | .write => ramfileDoWrite env req msg.src msg.uid (msg.payload.take fileMaxMsgSize)
      | .stat => ramfileDoStat req msg.src msg.uid
      | .setsize => ramfileDoSetsize env req msg.src msg.uid
      | .delete => ramfileDoDelete req msg.src msg.uid
      | .unused | .sync | .setFlags => ramfileRespond msg.src .error := by
  unfold serve
  rw [hreq]

/-- A request that does not read is safe if and only if it is benign. -/
theorem safe_iff_benignRequest (h : Sized rs) (hreq : msg.request = some req)
    (hread : req.type ≠ .read) : Safe env msg rs ↔ BenignRequest env msg rs req := by
  have hnever : ∀ m : RamM Unit, Outcome m (fun _ rs' => Sized rs') (fun _ _ => False) rs →
      Outcome m (fun _ rs' => Sized rs') (fun e rs' => e ≠ .undefined ∧ Sized rs') rs :=
    fun _ hm => hm.mono (fun _ _ hs => hs) (fun _ _ he => he.elim)
  unfold Safe BenignRequest
  rw [serve_of_request hreq]
  cases htype : req.type with
  | read => exact absurd htype hread
  | stat => exact stat_sized_iff h
  | write => exact write_sized_iff h _
  | setsize => exact setsize_sized_iff h
  | create => exact iff_of_true (hnever _ (create_sized h)) trivial
  | chown => exact iff_of_true (hnever _ (chown_sized h)) trivial
  | chmod => exact iff_of_true (hnever _ (chmod_sized h)) trivial
  | delete => exact iff_of_true (hnever _ (delete_sized h)) trivial
  | unused | sync | setFlags => exact iff_of_true h trivial

theorem forall_request_iff (hreq : msg.request = some req) (p : FileRequest → Prop) :
    (∀ r, msg.request = some r → p r) ↔ p req :=
  ⟨fun hall => hall req hreq, fun hone _ hr => Option.some.inj (hreq.symm.trans hr) ▸ hone⟩

theorem serve_headless (h : Sized rs) (hreq : msg.request = none) : Correct env msg rs := by
  unfold Correct serve
  rw [hreq]
  exact ⟨by simp, h⟩

theorem Benign.safe (hbenign : Benign env msg rs) (h : Sized rs) : Safe env msg rs := by
  cases hreq : msg.request with
  | none => exact (serve_headless h hreq).post fun _ _ hs => hs.1
  | some req =>
    have hone := hbenign req hreq
    by_cases hread : req.type = .read
    · unfold BenignRequest at hone
      rw [hread] at hone
      unfold Safe
      rw [serve_of_request hreq, hread]
      exact read_sized h hone.1
    · exact (safe_iff_benignRequest h hreq hread).mpr hone

/-- A request is served without an access outside of an array, and exactly if it reads, if and
only if it is benign and its reply is not cut. -/
theorem correct_iff_benign (h : Sized rs) :
    Correct env msg rs ↔ Benign env msg rs ∧ Uncut msg rs := by
  cases hreq : msg.request with
  | none =>
    refine iff_of_true (serve_headless h hreq) ⟨fun req hr => ?_, fun req hr => ?_⟩
    · rw [hreq] at hr
      cases hr
    · rw [hreq] at hr
      cases hr
  | some req =>
    unfold Benign Uncut
    rw [forall_request_iff hreq, forall_request_iff hreq]
    unfold Correct ReadExact
    by_cases hread : req.type = .read
    · unfold BenignRequest UncutRequest
      simp only [hread, true_implies]
      refine Iff.trans ?_ ((@read_correct_iff rs req msg.src msg.uid h).trans ?_)
      · rw [serve_of_request hreq, hread]
        constructor
        · exact fun hc => hc.post fun _ _ hs => ⟨hs.1, hs.2 req hreq hread⟩
        · exact fun hc => hc.post fun _ _ hs =>
            ⟨hs.1, fun r hr _ => Option.some.inj (hreq.symm.trans hr) ▸ hs.2⟩
      · exact ⟨fun hc => ⟨⟨hc.1, fun hp => (hc.2 hp).1⟩, fun hp => (hc.2 hp).2⟩,
          fun hc => ⟨hc.1.1, fun hp => ⟨hc.1.2 hp, hc.2 hp⟩⟩⟩
    · have huncut : UncutRequest msg rs req := fun ht => absurd ht hread
      rw [and_iff_left huncut, ← safe_iff_benignRequest h hreq hread]
      constructor
      · exact fun hc => hc.post fun _ _ hs => hs.1
      · exact fun hc => hc.post fun _ _ hs => ⟨hs, fun r hr ht =>
          absurd (Option.some.inj (hreq.symm.trans hr) ▸ ht) hread⟩

end

/-- The requests are served one after the other, each of them correctly. -/
def AllCorrect : List (Env × Message) → RamfileState → Prop
  | [], rs => Sized rs
  | (env, msg) :: rest, rs => Sized rs ∧ Correct env msg rs ∧
      Outcome (serve env msg) (fun _ rs' => AllCorrect rest rs') (fun _ _ => True) rs

/-- Each of the requests is benign when it is served, and its reply is not cut. -/
def AllBenign : List (Env × Message) → RamfileState → Prop
  | [], _ => True
  | (env, msg) :: rest, rs => (Benign env msg rs ∧ Uncut msg rs) ∧
      Outcome (serve env msg) (fun _ rs' => AllBenign rest rs') (fun _ _ => True) rs

theorem allCorrect_iff {script : List (Env × Message)} {rs : RamfileState} (h : Sized rs) :
    AllCorrect script rs ↔ AllBenign script rs := by
  induction script generalizing rs with
  | nil => exact iff_of_true h trivial
  | cons turn rest ih =>
    obtain ⟨env, msg⟩ := turn
    unfold AllCorrect AllBenign
    rw [correct_iff_benign h]
    constructor
    · rintro ⟨-, hbenign, hrest⟩
      refine ⟨hbenign, ?_⟩
      have hstep : Correct env msg rs := (correct_iff_benign h).mpr hbenign
      exact (hrest.both hstep).mono (fun _ rs' hs => (ih hs.2.1).mp hs.1) (fun _ _ _ => trivial)
    · rintro ⟨hbenign, hrest⟩
      refine ⟨h, hbenign, ?_⟩
      have hstep : Correct env msg rs := (correct_iff_benign h).mpr hbenign
      exact (hrest.both hstep).mono (fun _ rs' hs => (ih hs.2.1).mpr hs.1) (fun _ _ _ => trivial)

theorem sized_start (seconds startTime : BitVec 64) : Sized (start seconds startTime) :=
  fun _ => rfl

/-- From its start on, the server serves a sequence of requests correctly if and only if they are
all benign. -/
theorem run_correct_iff (seconds startTime : BitVec 64) (script : List (Env × Message)) :
    AllCorrect script (start seconds startTime) ↔ AllBenign script (start seconds startTime) :=
  allCorrect_iff (sized_start seconds startTime)

/-- Memory for everything. -/
def testEnv : Env := ⟨5, 0, fun _ => 0, fun _ => true⟩

def testRequest (type : FileOp) (fileNo : BitVec 32) (offset : BitVec 64) (size : BitVec 32)
    (payload : List Byte) : Message :=
  ⟨7, 0, some ⟨type, fileNo, offset, size, 0, 0⟩, payload⟩

/-- The last entry of the array is 99, and a write at the last offset wraps around, so that it
leaves the buffer. -/
theorem stat_behind_files : ¬AllCorrect [(testEnv, testRequest .stat 100 0 0 [])] (start 0 0) ∧
    ¬AllCorrect [(testEnv, testRequest .create 0 0 0 []),
      (testEnv, testRequest .write 1 (BitVec.ofNat 64 (2 ^ 64 - 1)) 1 [65])] (start 0 0) := by
  constructor
  · rintro ⟨-, hcorrect, -⟩
    exact hcorrect.1 rfl
  · rintro ⟨-, -, -, hcorrect, -⟩
    exact hcorrect.1 rfl

end Egos.Ramfile
