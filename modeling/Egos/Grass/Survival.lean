import Egos.Grass.Disksvr
import Egos.Grass.Gatesvr
import Egos.Grass.Ramfilesvr
import Egos.Grass.Spawnsvr
import Egos.Grass.Ttysvr

/-!
# The servers of the kernel as one system

The spawn, disk, tty, gate and ram file servers, and the user processes that have been started, under
any sequence of requests, keys and replies of file servers. An assertion that fails in one of them
ends them all.
-/
namespace Egos.Survival

open Egos.Lib Egos.Disk Egos.Earth
open Egos.File (FileRequest FileReply)
open Egos.Grass (Message GateRequest GateWorld GateDeed DevGate fileReplySize)
open Egos.Spawnsvr (KernelCalls SpawnWorld SpawnReply UserProcess fileRead)
open Egos.Disksvr (DevDisk DiskWorld)
open Egos.Ramfile (RamfileState)
open Egos.Tty (TtyState TtyKernel Terminal)

set_option autoImplicit false

variable {κ δ η : Type}

/-! ## The terminal server -/

/-- The kernel, and the replies of the terminal server with their addressees. -/
structure TtyOutside (κ : Type) where
  kernel : κ
  sent : List (Nat × List Byte)

/-- `STAT_INTR`. -/
def statIntr : Int := -3

/-- The functions of the kernel, called by the terminal server. -/
def ttyKernel (k : KernelCalls κ) (pid : Nat) : TtyKernel Stop (TtyOutside κ) where
  procSend dst rep := fun w =>
    .ok () ⟨(k.procSend pid dst rep w.kernel).2, w.sent ++ [(dst, rep)]⟩
  procKill := fun w =>
    .ok (!(k.procKill pid 0 statIntr w.kernel).1)
      { w with kernel := (k.procKill pid 0 statIntr w.kernel).2 }
  shutDown := fun w => .ok () { w with kernel := (k.procShutdown w.kernel).2 }
  failed := .assert

/-- The size that `tty_proc` passes to `sys_recv`: that of a pointer and a page. -/
def ttyRequestBuffer : Nat := 8 + pageSize

def received (msg : Message) (size : Nat) : Message := { msg with contents := msg.contents.take size }

/-- What a file server finds in its buffer. -/
def fileHeader (contents : List Byte) : FileRequest := .ofMemory fun i => contents.getD i 0

def errorBytes : List Byte := (FileReply.plain .error []).bytes

/-- No header, an unknown type, a file that is not there, or another size than that of the payload. -/
def TtyMalformed (contents : List Byte) : Prop :=
  contents.length < FileRequest.sizeof ∨
    match (fileHeader contents).type with
    | .read => (fileHeader contents).fileNo ≠ 0
    | .write => (fileHeader contents).fileNo ≠ 1 ∧ (fileHeader contents).fileNo ≠ 2 ∨
        (fileHeader contents).size.toNat ≠ contents.length - FileRequest.sizeof
    | .sync | .stat | .setFlags => False
    | .unused | .create | .chown | .chmod | .setsize | .delete => True

section

variable (k : KernelCalls κ) (pid : Nat) {w : Terminal (TtyOutside κ)}

theorem outcome_ttyHandle (tr : Tty.TtyRequest) (buf : List Byte) :
    Outcome (Tty.ttyHandle (ttyKernel k pid) tr buf) (fun _ _ => True) (fun _ _ => False) w := by
  unfold Tty.ttyHandle
  rw [Outcome.bind_iff]
  apply outcome_onPart
  refine Outcome.of_ok rfl ?_
  split <;> exact trivial

theorem outcome_ttyServe : Outcome (Tty.ttyServe (ttyKernel k pid)) (fun _ _ => True)
    (fun _ _ => False) w := by
  unfold Tty.ttyServe
  rw [Outcome.bind_iff, Outcome.get_iff]
  split
  · rw [Outcome.bind_iff]
    exact outcome_ttyHandle k pid _ _
  · exact trivial

theorem outcome_ttyDeliver (keys : List Byte) :
    Outcome (Tty.ttyDeliver (ttyKernel k pid) keys) (fun _ _ => True) (fun _ _ => False) w := by
  have hkeys : Outcome (Tty.ttyKeys (ttyKernel k pid) keys) (fun _ _ => True) (fun _ _ => False)
      w := by
    induction keys generalizing w with
    | nil => exact trivial
    | cons b rest ih =>
      unfold Tty.ttyKeys
      cases Tty.Key.ofByte b with
      | intr =>
        dsimp only
        rw [Outcome.bind_iff]
        apply outcome_onPart
        refine Outcome.of_ok rfl ?_
        split
        · exact trivial
        · exact ih
      | quit =>
        dsimp only
        rw [Outcome.bind_iff]
        apply outcome_onPart
        exact Outcome.of_ok rfl ih
      | eof | erase | dump | char =>
        dsimp only
        rw [Outcome.bind_iff]
        exact ih
  unfold Tty.ttyDeliver
  rw [Outcome.bind_iff]
  refine hkeys.post fun left w' _ => ?_
  cases left with
  | none => exact outcome_ttyServe k pid
  | some _ => exact trivial

theorem outcome_ttyProc {msg : Message} (hlen : FileRequest.sizeof ≤ msg.contents.length) :
    Outcome (Tty.ttyProc (ttyKernel k pid) msg)
      (fun _ w' => TtyMalformed msg.contents →
        w'.kernel.sent = w.kernel.sent ++ [(msg.src, errorBytes)]) (fun _ _ => False) w := by
  have hshort : ¬msg.contents.length < FileRequest.sizeof := Nat.not_lt.mpr hlen
  unfold Tty.ttyProc TtyMalformed
  rw [if_neg hshort]
  change Outcome (match (fileHeader msg.contents).type with
    | .read => Tty.ttyRead (ttyKernel k pid) (fileHeader msg.contents) msg.src
    | .write => Tty.ttyWrite (ttyKernel k pid) (fileHeader msg.contents) msg.src
      (msg.contents.length - FileRequest.sizeof)
    | .sync => Tty.ttySync (ttyKernel k pid) msg.src
    | .stat => Tty.ttyDoStat (ttyKernel k pid) msg.src
    | .setFlags => Tty.ttySetFlags (ttyKernel k pid) (fileHeader msg.contents) msg.src
    | .unused | .create | .chown | .chmod | .setsize | .delete =>
      Tty.ttyRespond (ttyKernel k pid) msg.src .error) _ _ _
  cases (fileHeader msg.contents).type with
  | read =>
    dsimp only
    unfold Tty.ttyRead
    split
    · exact fun _ => rfl
    · rename_i hfile
      rw [Outcome.bind_iff]
      refine (outcome_ttyServe k pid).post fun _ w' _ hm => ?_
      exact absurd (hm.resolve_left hshort) hfile
  | write =>
    dsimp only
    unfold Tty.ttyWrite
    split
    · exact fun _ => rfl
    · rename_i hfile
      split
      · exact fun _ => rfl
      · rename_i hsize
        exact fun hm => absurd (hm.resolve_left hshort) (not_or.mpr ⟨hfile, hsize⟩)
  | sync => exact fun hm => (hm.resolve_left hshort).elim
  | stat => exact fun hm => (hm.resolve_left hshort).elim
  | setFlags => exact fun hm => (hm.resolve_left hshort).elim
  | unused | create | chown | chmod | setsize | delete => exact fun _ => rfl

end

/-! ## The ram file server -/

/-- No header, an unknown type, a number without a file, or another size than that of the payload. -/
def RamMalformed (msg : File.Message) : Prop :=
  match msg.request with
  | none => True
  | some req =>
    match req.type with
    | .create => False
    | .write => Ramfile.maxFiles ≤ req.fileNo.toNat ∨
        req.size.toNat ≠ (msg.payload.take File.fileMaxMsgSize).length
    | .read | .stat | .setsize | .delete | .chown | .chmod => Ramfile.maxFiles ≤ req.fileNo.toNat
    | .unused | .sync | .setFlags => True

/-- All that can go wrong is an access outside of an array. -/
def OnlyUndefined {α : Type} (m : Ramfile.RamM α) : Prop :=
  ∀ rs, Outcome m (fun _ _ => True) (fun e _ => e = .undefined) rs

section

variable {α β : Type} {env : Ramfile.Env} {req : FileRequest} {src uid : BitVec 32}
  {rs : RamfileState}

theorem OnlyUndefined.bind {m : Ramfile.RamM α} {f : α → Ramfile.RamM β} (hm : OnlyUndefined m)
    (hf : ∀ a, OnlyUndefined (f a)) : OnlyUndefined (m >>= f) :=
  fun rs => (Outcome.bind_iff m f).mpr ((hm rs).post fun a rs' _ => hf a rs')

theorem OnlyUndefined.ite {c : Prop} [Decidable c] {m m' : Ramfile.RamM α} (hm : OnlyUndefined m)
    (hm' : OnlyUndefined m') : OnlyUndefined (if c then m else m') := by
  split
  · exact hm
  · exact hm'

theorem onlyUndefined_respond (status : File.FileStatus) :
    OnlyUndefined (Ramfile.ramfileRespond src status) := fun _ => trivial

theorem onlyUndefined_throw {α : Type} : OnlyUndefined (throw .undefined : Ramfile.RamM α) :=
  fun _ => rfl

theorem onlyUndefined_modify (f : RamfileState → RamfileState) :
    OnlyUndefined (modify f : Ramfile.RamM Unit) := fun _ => trivial

theorem onlyUndefined_fileAt (fileNo : Nat) : OnlyUndefined (Ramfile.fileAt fileNo) := by
  intro rs
  by_cases h : fileNo < Ramfile.maxFiles
  · exact (Ramfile.outcome_fileAt h).mpr trivial
  · exact (Ramfile.outcome_fileAt_outside h).mpr rfl

theorem onlyUndefined_put (fileNo : Nat) (offset : BitVec 64) (data : List Byte) :
    OnlyUndefined (Ramfile.ramfilePut env fileNo offset data) := by
  unfold Ramfile.ramfilePut
  refine OnlyUndefined.bind (m := get) (fun _ => trivial) fun rs => ?_
  refine (onlyUndefined_fileAt _).bind fun file => ?_
  exact .ite (onlyUndefined_throw.bind fun _ => onlyUndefined_modify _) (onlyUndefined_modify _)

theorem outcome_checked {m : Ramfile.RamM Unit} (fileNo : Nat) (hm : OnlyUndefined m) :
    Outcome (do
        let rs ← get
        if Ramfile.badInode rs fileNo then Ramfile.ramfileRespond src .error else m)
      (fun _ rs' => Ramfile.maxFiles ≤ fileNo →
        rs'.outbox = rs.outbox ++ [.of src (.plain .error [])]) (fun e _ => e = .undefined) rs := by
  rw [Outcome.bind_iff, Outcome.get_iff]
  split
  · exact fun _ => rfl
  · rename_i hbad
    refine (hm rs).post fun _ rs' _ hmax => ?_
    unfold Ramfile.badInode at hbad
    rw [dif_neg (Nat.not_lt.mpr hmax)] at hbad
    exact absurd rfl hbad

theorem outcome_write (data : List Byte) : Outcome (Ramfile.ramfileDoWrite env req src uid data)
    (fun _ rs' => Ramfile.maxFiles ≤ req.fileNo.toNat ∨ req.size.toNat ≠ data.length →
      rs'.outbox = rs.outbox ++ [.of src (.plain .error [])]) (fun e _ => e = .undefined) rs := by
  have hwrite : OnlyUndefined (do
      let file ← Ramfile.fileAt req.fileNo.toNat
      if !Ramfile.ramfileWriteAllowed file uid then Ramfile.ramfileRespond src .error
      else
        Ramfile.ramfilePut env req.fileNo.toNat req.offset data
        Ramfile.ramfileRespond src .ok) :=
    (onlyUndefined_fileAt _).bind fun file => .ite (onlyUndefined_respond _)
      ((onlyUndefined_put _ _ _).bind fun _ => onlyUndefined_respond _)
  by_cases hsize : req.size.toNat ≠ data.length
  · unfold Ramfile.ramfileDoWrite
    rw [Outcome.bind_iff, Outcome.get_iff]
    split
    · exact fun _ => rfl
    · exact fun _ => rfl
  · unfold Ramfile.ramfileDoWrite
    simp only [if_neg hsize]
    exact (outcome_checked _ hwrite).post fun _ _ h hm => h (hm.resolve_right hsize)

theorem outcome_serve {msg : File.Message} (hmsg : msg.request = some req) :
    Outcome (Ramfile.serve env msg) (fun _ rs' => RamMalformed msg →
      (req.type = .read ∨ req.type = .stat → Ramfile.maxFiles ≤ req.fileNo.toNat → False) →
        rs'.outbox = rs.outbox ++ [.of msg.src (.plain .error [])]) (fun e _ => e = .undefined) rs := by
  have hfile := onlyUndefined_fileAt req.fileNo.toNat
  unfold Ramfile.serve RamMalformed
  rw [hmsg]
  dsimp only
  cases htype : req.type with
  | create =>
    refine Outcome.mono (Q := fun _ _ => True) ?_ (fun _ _ _ hm => hm.elim) fun _ _ h => h
    refine OnlyUndefined.bind (m := get) (fun _ => trivial) (fun rs => ?_) rs
    cases Ramfile.freeFile rs with
    | none => exact onlyUndefined_respond _
    | some fileNo =>
      exact (onlyUndefined_modify _).bind fun _ => onlyUndefined_modify _
  | read =>
    refine Outcome.mono (Q := fun _ _ => True) ?_ (fun _ _ _ hm h => (h (.inl rfl) hm).elim)
      fun _ _ h => h
    refine hfile.bind (fun file => ?_) rs
    refine .ite (onlyUndefined_respond _) (.ite (onlyUndefined_respond _) ?_)
    exact .ite (onlyUndefined_throw.bind fun _ => onlyUndefined_modify _) (onlyUndefined_modify _)
  | stat =>
    refine Outcome.mono (Q := fun _ _ => True) ?_ (fun _ _ _ hm h => (h (.inr rfl) hm).elim)
      fun _ _ h => h
    refine hfile.bind (fun file => ?_) rs
    exact .ite (onlyUndefined_respond _) (.ite (onlyUndefined_respond _) fun _ => trivial)
  | write => exact (outcome_write _).post fun _ _ h hm _ => h hm
  | setsize =>
    refine (outcome_checked _ ?_).post fun _ _ h hm _ => h hm
    refine hfile.bind fun file => .ite (onlyUndefined_respond _) (.ite (onlyUndefined_respond _) ?_)
    exact (onlyUndefined_modify _).bind fun _ => onlyUndefined_respond _
  | delete =>
    refine (outcome_checked _ ?_).post fun _ _ h hm _ => h hm
    refine hfile.bind fun file => .ite (onlyUndefined_respond _) ?_
    exact (onlyUndefined_modify _).bind fun _ => onlyUndefined_respond _
  | chown =>
    refine (outcome_checked _ ?_).post fun _ _ h hm _ => h hm
    refine .ite (onlyUndefined_respond _) (hfile.bind fun file => ?_)
    exact (onlyUndefined_modify _).bind fun _ => onlyUndefined_respond _
  | chmod =>
    refine (outcome_checked _ ?_).post fun _ _ h hm _ => h hm
    refine hfile.bind fun file => .ite (onlyUndefined_respond _) ?_
    exact (onlyUndefined_modify _).bind fun _ => onlyUndefined_respond _
  | unused | sync | setFlags => exact fun _ _ => rfl

/-- The server goes on, and a malformed request gets an error. -/
theorem outcome_ramTurn {msg : File.Message} (hmsg : msg.request = some req)
    (hsized : Ramfile.Sized rs) (hbenign : Ramfile.Benign env msg rs) :
    Outcome (Ramfile.serve env msg) (fun _ rs' => Ramfile.Sized rs' ∧ (RamMalformed msg →
      rs'.outbox = rs.outbox ++ [.of msg.src (.plain .error [])])) (fun _ _ => False) rs := by
  have hsafe : Ramfile.Safe env msg rs := hbenign.safe hsized
  have hinside : req.type = .read ∨ req.type = .stat →
      Ramfile.maxFiles ≤ req.fileNo.toNat → False := by
    intro htype hmax
    have hreq := hbenign req hmsg
    unfold Ramfile.BenignRequest at hreq
    rcases htype with hread | hstat
    · rw [hread] at hreq
      exact absurd hreq.1 (Nat.not_lt.mpr hmax)
    · rw [hstat] at hreq
      exact absurd hreq (Nat.not_lt.mpr hmax)
  exact (hsafe.both (outcome_serve hmsg)).mono
    (fun _ rs' h => ⟨h.1, fun hm => h.2 hm hinside⟩) (fun e rs' h => h.1.1 h.2)

end

/-! ## The gate server -/

/-- No header, an unknown type, or lengths that are not those of the payload. -/
def GateMalformed (contents : List Byte) : Prop :=
  contents.length < GateRequest.sizeof ∨ (Grass.Gate.header contents).type = .unused ∨
    ¬Grass.Gate.LengthsMatch contents

/-- The replies in a list of deeds. -/
def repliesOf (deeds : List GateDeed) : List GateDeed := deeds.filter GateDeed.isReply

theorem length_gateReceived (contents : List Byte) :
    (contents.take Grass.Gate.requestBuffer).length < GateRequest.sizeof ↔
      contents.length < GateRequest.sizeof := by
  rw [List.length_take, Grass.Gate.requestBuffer, GateRequest.sizeof, pageSize]
  omega

theorem outcome_gateTurn (dev : DevGate η) (heap : Buffer) {msg : Message}
    (hlen : GateRequest.sizeof ≤ msg.contents.length)
    (hmatch : Grass.Gate.LengthsMatch msg.contents) {w : GateWorld η} :
    Outcome (Grass.Gate.gateProc dev heap msg.src msg.contents)
      (fun _ w' => GateMalformed msg.contents →
        repliesOf w'.deeds = repliesOf w.deeds ++ [.reply msg.src .error]) (fun _ _ => False) w := by
  have hshort : ¬msg.contents.length < GateRequest.sizeof := Nat.not_lt.mpr hlen
  have hunused (hm : GateMalformed msg.contents) :
      (Grass.Gate.header msg.contents).type = .unused :=
    (hm.resolve_left hshort).resolve_right fun h => h hmatch
  unfold Grass.Gate.gateProc
  rw [if_neg (mt (length_gateReceived _).mp hshort)]
  dsimp only
  rw [show (GateRequest.ofMemory fun k => (msg.contents.take Grass.Gate.requestBuffer).getD k 0) =
    Grass.Gate.header msg.contents from rfl]
  cases htype : (Grass.Gate.header msg.contents).type with
  | pull =>
    refine ((Grass.Gate.pull_disciplined_iff dev htype).mpr hmatch).post fun _ w' _ hm => ?_
    exact absurd (htype.symm.trans (hunused hm)) (by simp)
  | push =>
    refine ((Grass.Gate.push_disciplined_iff dev htype).mpr hmatch).post fun _ w' _ hm => ?_
    exact absurd (htype.symm.trans (hunused hm)) (by simp)
  | gettime => exact fun hm => absurd (htype.symm.trans (hunused hm)) (by simp)
  | unused =>
    intro _
    change repliesOf (w.deeds ++ [.reply msg.src .error]) = _
    unfold repliesOf
    rw [List.filter_append]
    rfl

/-! ## The system -/

/-- What lies around the servers: the kernel, the devices, and the pid of the terminal server. -/
structure Surroundings (κ δ η : Type) where
  kernel : KernelCalls κ
  disk : DevDisk δ
  gate : DevGate η
  ttyPid : Nat

structure System (κ δ η : Type) where
  spawn : SpawnWorld κ
  disk : DiskWorld δ
  tty : TtyState
  ttySent : List (Nat × List Byte)
  gate : GateWorld η
  ram : RamfileState
  /-- the processes that have gone to user space -/
  users : List UserProcess

/-- What can happen: requests to the servers, keys, the end of a disk operation, whatever else
changes the kernel, the start of a process that the spawn server has created, and a page that a
process touches for the first time. The last two come with the reply to their `file_read`, if there
is one. -/
inductive Event (κ : Type) where
  | spawn (msg : Message)
  | disk (msg : Message)
  | tty (msg : Message)
  | gate (heap : Buffer) (msg : Message)
  | ram (env : Ramfile.Env) (msg : Message)
  | keys (keys : List Byte)
  | diskEvent
  | kernel (kernel : κ)
  | start (i : Nat) (reply : Option (List Byte))
  | page (i absPage : Nat) (reply : Option (List Byte))

abbrev SystemM (κ δ η : Type) := EStateM Stop (System κ δ η)

/-- The terminal server's part, with the kernel. -/
def onTty (m : Tty.TtyM Stop (TtyOutside κ) Unit) : SystemM κ δ η Unit :=
  onPart (fun s => ⟨⟨s.spawn.kernel, s.ttySent⟩, s.tty⟩)
    (fun s w => { s with
      spawn := { s.spawn with kernel := w.kernel.kernel }
      ttySent := w.kernel.sent
      tty := w.tty }) m

/-- An exception ends the system. -/
def ofExcept {α : Type} : Except Stop α → SystemM κ δ η α
  | .ok a => pure a
  | .error e => throw e

section

variable (d : Surroundings κ δ η)

def Event.perform : Event κ → SystemM κ δ η Unit
  | .spawn msg => onPart System.spawn (fun s w => { s with spawn := w })
      (Spawnsvr.spawnProc d.kernel msg)
  | .disk msg => onPart System.disk (fun s w => { s with disk := w }) (Disksvr.diskProc d.disk msg)
  | .tty msg => onTty (Tty.ttyProc (ttyKernel d.kernel d.ttyPid) (received msg ttyRequestBuffer))
  | .gate heap msg => onPart System.gate (fun s w => { s with gate := w })
      (Grass.Gate.gateProc d.gate heap msg.src msg.contents)
  | .ram env msg => onPart System.ram (fun s w => { s with ram := w })
      (Ramfile.serve env (File.ofKernel msg))
  | .keys typed => onTty (Tty.ttyDeliver (ttyKernel d.kernel d.ttyPid) typed)
  | .diskEvent => onPart System.disk (fun s w => { s with disk := w }) Disksvr.diskComplete
  | .kernel changed => modify fun s => { s with spawn := { s.spawn with kernel := changed } }
  | .start i reply => do
    match (← get).spawn.created[i]? with
    | none => pure ()
    | some (pid, req, args) =>
      match ← ofExcept (Spawnsvr.userProc pid req args reply) with
      | none => pure ()
      | some p => modify fun s => { s with users := s.users ++ [p] }
  | .page i absPage reply => do
    match (← get).users[i]? with
    | none => pure ()
    | some p =>
      let _ ← ofExcept (Spawnsvr.frameInit p absPage reply)

/-- A request that is not what its server expects. -/
def Event.Malformed (s : System κ δ η) : Event κ → Prop
  | .spawn msg => Spawnsvr.Malformed d.kernel msg.contents s.spawn
  | .disk msg => Disksvr.Malformed msg.contents
  | .tty msg => TtyMalformed (received msg ttyRequestBuffer).contents
  | .gate _ msg => GateMalformed msg.contents
  | .ram _ msg => RamMalformed (File.ofKernel msg)
  | _ => False

/-- One more reply of the server, to the client, which is an error. -/
def Event.Refused (s s' : System κ δ η) : Event κ → Prop
  | .spawn msg => s'.spawn.outbox = s.spawn.outbox ++ [(msg.src, Spawnsvr.errorReply)]
  | .disk msg => s'.disk.outbox = s.disk.outbox ++ [(msg.src, Disksvr.errorReply)]
  | .tty msg => s'.ttySent = s.ttySent ++ [(msg.src, errorBytes)]
  | .gate _ msg => repliesOf s'.gate.deeds = repliesOf s.gate.deeds ++ [.reply msg.src .error]
  | .ram _ msg => s'.ram.outbox =
      s.ram.outbox ++ [.of (File.ofKernel msg).src (.plain .error [])]
  | _ => True

/-- What the servers need. Requests have whole headers. A process is given an environment, and one
that is described is there. A block is written as a whole. The lengths in a request to the gate
server are those of its payload, and requests to the ram file server are benign. The header of an
executable can be read, and if there is all of it, the number of segments is one that fits. What a
process still needs of its executable can be read. -/
def Event.Sane (s : System κ δ η) : Event κ → Prop
  | .spawn msg => Spawnsvr.Whole d.kernel msg.contents s.spawn
  | .disk msg => Disksvr.Whole msg.contents
  | .tty msg => FileRequest.sizeof ≤ msg.contents.length
  | .gate _ msg => GateRequest.sizeof ≤ msg.contents.length ∧ Grass.Gate.LengthsMatch msg.contents
  | .ram env msg => FileRequest.sizeof ≤ msg.contents.length ∧
      Ramfile.Benign env (File.ofKernel msg) s.ram
  | .start i reply => i < s.spawn.created.length → ∃ data,
      fileRead reply Spawnsvr.headerSize = some data ∧ (data.length = Spawnsvr.headerSize →
        Spawnsvr.Acceptable (.ofMemory fun k => data.getD k 0))
  | .page i absPage reply => ∀ p, s.users[i]? = some p →
      Grass.fileOffset absPage p.hdr.used.segments p.hdr.used.offset ≠ none →
        fileRead reply pageSize ≠ none
  | .keys _ | .diskEvent | .kernel _ => True

/-- The system goes on, and a malformed request gets an error. -/
def Event.Survived (s : System κ δ η) (e : Event κ) : Prop :=
  Outcome (e.perform d) (fun _ s' => e.Malformed d s → e.Refused s s') (fun _ _ => False) s

/-- All events of a run are survived. -/
def AllSurvived : List (Event κ) → System κ δ η → Prop
  | [], _ => True
  | e :: rest, s => e.Survived d s ∧
      Outcome (e.perform d) (fun _ s' => AllSurvived rest s') (fun _ _ => True) s

/-- Each of the events is sane when it happens. -/
def AllSane : List (Event κ) → System κ δ η → Prop
  | [], _ => True
  | e :: rest, s => e.Sane d s ∧
      Outcome (e.perform d) (fun _ s' => AllSane rest s') (fun _ _ => True) s

end

/-- What one event leaves to the next one. -/
structure Holds (s : System κ δ η) : Prop where
  sized : Ramfile.Sized s.ram
  equipped : Spawnsvr.Equipped s.spawn
  headers : ∀ p ∈ s.users, p.hdr.nsegments ≤ Spawnsvr.maxSegments

section

variable {d : Surroundings κ δ η} {s : System κ δ η}

theorem outcome_diskComplete {w : DiskWorld δ} :
    Outcome Disksvr.diskComplete (fun _ _ => True) (fun _ _ => False) w := by
  unfold Disksvr.diskComplete
  rw [Outcome.bind_iff, Outcome.get_iff]
  split <;> exact trivial

theorem Event.Sane.survived {e : Event κ} (he : e.Sane d s) (h : Holds s) :
    Outcome (e.perform d) (fun _ s' => Holds s' ∧ (e.Malformed d s → e.Refused s s'))
      (fun _ _ => False) s := by
  obtain ⟨hsized, hequipped, hheaders⟩ := h
  cases e with
  | spawn msg =>
    apply outcome_onPart
    exact (Spawnsvr.survives_of_whole d.kernel hequipped he).post
      fun _ w' hw' => ⟨⟨hsized, hw'.1, hheaders⟩, hw'.2⟩
  | disk msg =>
    apply outcome_onPart
    exact ((Disksvr.survives_iff d.disk msg).mpr he).post
      fun _ w' hm => ⟨⟨hsized, hequipped, hheaders⟩, hm⟩
  | tty msg =>
    have hlen : FileRequest.sizeof ≤ (received msg ttyRequestBuffer).contents.length := by
      unfold received
      rw [List.length_take]
      exact le_min (by decide) he
    apply outcome_onPart
    exact (outcome_ttyProc d.kernel d.ttyPid hlen).post
      fun _ w' hm => ⟨⟨hsized, hequipped, hheaders⟩, hm⟩
  | gate heap msg =>
    apply outcome_onPart
    exact (outcome_gateTurn d.gate heap he.1 he.2).post
      fun _ w' hm => ⟨⟨hsized, hequipped, hheaders⟩, hm⟩
  | ram env msg =>
    have hmsg : (File.ofKernel msg).request = some (fileHeader msg.contents) :=
      if_neg (Nat.not_lt.mpr he.1)
    apply outcome_onPart
    exact (outcome_ramTurn hmsg hsized he.2).post
      fun _ w' hw' => ⟨⟨hw'.1, hequipped, hheaders⟩, hw'.2⟩
  | keys typed =>
    apply outcome_onPart
    exact (outcome_ttyDeliver d.kernel d.ttyPid typed).post
      fun _ w' _ => ⟨⟨hsized, hequipped, hheaders⟩, fun _ => trivial⟩
  | diskEvent =>
    apply outcome_onPart
    exact outcome_diskComplete.post fun _ w' _ => ⟨⟨hsized, hequipped, hheaders⟩, fun _ => trivial⟩
  | kernel changed => exact ⟨⟨hsized, hequipped, hheaders⟩, fun _ => trivial⟩
  | start i reply =>
    unfold Event.perform
    rw [Outcome.bind_iff, Outcome.get_iff]
    cases hi : s.spawn.created[i]? with
    | none => exact ⟨⟨hsized, hequipped, hheaders⟩, fun _ => trivial⟩
    | some entry =>
      obtain ⟨pid, req, args⟩ := entry
      have hargs : Spawnsvr.grassEnvSize ≤ args.length :=
        hequipped pid req args (List.mem_of_getElem? hi)
      obtain ⟨data, hread, hhdr⟩ := he (List.getElem?_eq_some_iff.mp hi).1
      obtain ⟨r, hr, hmax⟩ := Spawnsvr.userProc_ok pid req hargs hread hhdr
      dsimp only
      rw [hr]
      cases r with
      | none => exact ⟨⟨hsized, hequipped, hheaders⟩, fun _ => trivial⟩
      | some p =>
        refine ⟨⟨hsized, hequipped, fun p' hp' => ?_⟩, fun _ => trivial⟩
        rcases List.mem_append.mp hp' with hold | hnew
        · exact hheaders p' hold
        · exact List.mem_singleton.mp hnew ▸ hmax p rfl
  | page i absPage reply =>
    unfold Event.perform
    rw [Outcome.bind_iff, Outcome.get_iff]
    cases hi : s.users[i]? with
    | none => exact ⟨⟨hsized, hequipped, hheaders⟩, fun _ => trivial⟩
    | some p =>
      have hp : p.hdr.nsegments ≤ Spawnsvr.maxSegments := hheaders p (List.mem_of_getElem? hi)
      obtain ⟨bytes, hbytes⟩ := Spawnsvr.frameInit_ok hp (he p hi)
      dsimp only
      rw [hbytes]
      exact ⟨⟨hsized, hequipped, hheaders⟩, fun _ => trivial⟩

theorem AllSane.allSurvived {events : List (Event κ)} (h : Holds s) (hsane : AllSane d events s) :
    AllSurvived d events s := by
  induction events generalizing s with
  | nil => trivial
  | cons e rest ih =>
    obtain ⟨he, hrest⟩ := hsane
    have hstep := he.survived h
    refine ⟨hstep.post fun _ s' hs => hs.2, ?_⟩
    exact (hrest.both hstep).mono (fun _ s' hs => ih hs.2.1 hs.1) (fun _ _ _ => trivial)

theorem AllSurvived.goesOn {events : List (Event κ)} (h : AllSurvived d events s) :
    Outcome (events.forM (Event.perform d)) (fun _ _ => True) (fun _ _ => False) s := by
  induction events generalizing s with
  | nil => trivial
  | cons e rest ih =>
    obtain ⟨he, hrest⟩ := h
    refine (Outcome.bind_iff (e.perform d) fun _ => rest.forM (Event.perform d)).mpr ?_
    exact (hrest.both he).mono (fun _ s' hs => ih hs.1) (fun _ _ hs => hs.2)

/-! ## From the start on -/

/-- The request of `gate_gettime`. -/
def gettimeRequest : List Byte := Grass.wordBytes 3 ++ List.replicate 20 0

/-- The beginning of `ramfile_proc`, with its RPC to the gate server. -/
def ramfileProc (dev : DevGate η) (heap : Buffer) (pid : Nat) (now : BitVec 64) :
    EStateM Stop (GateWorld η) RamfileState := do
  Grass.Gate.gateProc dev heap pid gettimeRequest
  match (← get).deeds.getLast? with
  | some (.reply _ (.time time)) => pure (Ramfile.start time.seconds now)
  | _ => throw .assert

/-- All servers in front of their loops. -/
def boot (d : Surroundings κ δ η) (kernel : κ) (device : δ) (heap : Buffer) (pid : Nat)
    (now : BitVec 64) : EStateM Stop (GateWorld η) (System κ δ η) := do
  let ram ← ramfileProc d.gate heap pid now
  let gate ← get
  return ⟨⟨kernel, [], []⟩, ⟨device, [], []⟩, ⟨[], [], [], 0⟩, [], gate, ram, []⟩

/-- The gate server tells the time, so the ram file server starts. From there on the servers survive
every run whose events are sane. -/
theorem boot_survives (d : Surroundings κ δ η) (kernel : κ) (device : δ) (heap : Buffer) (pid : Nat)
    (now : BitVec 64) (host : η) :
    Outcome (boot d kernel device heap pid now)
      (fun s _ => ∀ events, AllSane d events s → AllSurvived d events s) (fun _ _ => False)
      ⟨host, []⟩ := by
  have hsize : ¬(gettimeRequest.take Grass.Gate.requestBuffer).length < GateRequest.sizeof := by
    decide +kernel
  have htype : (GateRequest.ofMemory fun k =>
      (gettimeRequest.take Grass.Gate.requestBuffer).getD k 0).type = .gettime := by
    decide +kernel
  unfold boot ramfileProc Grass.Gate.gateProc
  rw [Outcome.bind_iff, Outcome.bind_iff, if_neg hsize]
  dsimp only
  rw [htype]
  exact fun events hsane =>
    hsane.allSurvived ⟨Ramfile.sized_start _ _, by simp [Spawnsvr.Equipped], by simp⟩

/-- A kernel with the processes 1 and 2 of root. The next one is 3. -/
def testSurroundings : Surroundings Unit Unit Unit where
  kernel := {
    procFind _ pid := if pid = 1 ∨ pid = 2 then some 0 else none
    procCreateUid _ _ := pure 3
    procKill _ _ _ := pure true
    procShutdown := pure ()
    procSend _ _ _ := pure () }
  disk := {
    read _ := pure none
    write _ _ := pure false
    getsize _ := 0 }
  gate := Grass.Gate.emptyGate
  ttyPid := 1

/-- The system that they boot. -/
def booted : System Unit Unit Unit :=
  ⟨⟨(), [], []⟩, ⟨(), [], []⟩, ⟨[], [], [], 0⟩, [], ⟨(), [.reply 5 (.time ⟨0, 0, 0, 0⟩)]⟩,
    Ramfile.start 0 0, []⟩

/-- A request to the spawn server. -/
def spawnRequest (words : List Nat) (args : List Byte) : Message :=
  ⟨2, 0, words.flatMap Grass.wordBytes ++ args⟩

/-- A reply to `file_read`. -/
def fileReply (data : List Byte) : List Byte := List.replicate fileReplySize 0 ++ data

/-- The header of an executable with one page in one segment, the first of the address space. -/
def onePage : List Byte :=
  [1, 1, 0, 0x90, 0x2400000, 1, 1, 5].flatMap Grass.wordBytes ++ List.replicate 48 0

/-- Process 2 starts an executable that can be read. -/
def executed : List (Event Unit) :=
  [.spawn (spawnRequest [1, 5, 7, 136, 0, 0] (List.replicate 136 0)),
    .start 0 (some (fileReply onePage))]

theorem fileRead_fileReply (data : List Byte) (size : Nat) :
    fileRead (some (fileReply data)) size = some (data.take size) := by
  have htake : (fileReply data).take (fileReplySize + size) = fileReply (data.take size) := by
    unfold fileReply
    rw [List.take_append, List.length_replicate, Nat.add_sub_cancel_left,
      List.take_of_length_le (by simp)]
  have hstatus : (fileReply (data.take size)).take 4 = Grass.wordBytes 0 := by
    unfold fileReply
    rw [List.take_append_of_le_length (by decide)]
    decide
  rw [fileRead, Option.bind_some, htake, Grass.fileReadData, if_pos ⟨by simp [fileReply], hstatus⟩]
  exact congrArg some (List.drop_left' (List.length_replicate))

theorem AllSane.cons {d : Surroundings κ δ η} {s : System κ δ η} {e : Event κ} {rest : List (Event κ)}
    (he : e.Sane d s) (hrest : ∀ s', AllSane d rest s') : AllSane d (e :: rest) s :=
  ⟨he, (Outcome.always _).post fun _ s' _ => hrest s'⟩

/-- The process that is started reads its first page. Then there is a question about a process that
is not there, and a line from the keyboard. -/
theorem boot_survives_questions : Outcome (boot testSurroundings () () (fun _ => 0) 5 0)
    (fun s _ => AllSurvived testSurroundings (executed ++
      [.page 0 0x2400000 (some (fileReply (List.replicate pageSize 7))),
        .spawn (spawnRequest [3, 99, 0, 0, 0, 0] []), .keys [65, 10]]) s)
    (fun _ _ => False) ⟨(), []⟩ := by
  refine (boot_survives testSurroundings () () (fun _ => 0) 5 0 ()).post fun s _ h => h _ ?_
  have hwhole : Spawnsvr.Whole testSurroundings.kernel
      (spawnRequest [1, 5, 7, 136, 0, 0] (List.replicate 136 0)).contents s.spawn :=
    ⟨by decide +kernel, fun _ => by decide +kernel⟩
  refine AllSane.cons hwhole fun _ => .cons (fun _ => ?_) fun _ => .cons (fun _ _ _ => ?_) fun _ => ?_
  · exact ⟨_, fileRead_fileReply _ _, fun _ => ⟨by decide +kernel, by decide +kernel⟩⟩
  · rw [fileRead_fileReply]
    exact Option.some_ne_none _
  · exact .cons ⟨by decide +kernel, trivial⟩ fun _ => .cons trivial fun _ => trivial

/-- The servers boot, and then survive the events. -/
def BootedSurvive (events : List (Event Unit)) : Prop :=
  Outcome (boot testSurroundings () () (fun _ => 0) 5 0)
    (fun s _ => AllSurvived testSurroundings events s) (fun _ _ => True) ⟨(), []⟩

theorem BootedSurvive.goesOn {events : List (Event Unit)} (h : BootedSurvive events) :
    stopped (events.forM (Event.perform testSurroundings) booted) = none := by
  have hboot := eq_ok_of_returned (a := booted)
    (r := boot testSurroundings () () (fun _ => 0) 5 0 ⟨(), []⟩) rfl
  obtain ⟨_, s', hrun, -⟩ := (h.ok hboot).goesOn.exists_ok
  rw [hrun]
  rfl

/-- A description for a process that is not there, a request to the disk server without a header, and
an executable that is deleted before its first page is read. -/
theorem servers_crash : ¬BootedSurvive [.spawn (spawnRequest [4, 99, 0, 0, 0, 0] [])] ∧
    ¬BootedSurvive [.disk ⟨2, 0, [1]⟩] ∧ ¬BootedSurvive (executed ++ [.page 0 0x2400000 none]) :=
  ⟨fun h => absurd h.goesOn (by decide +kernel), fun h => absurd h.goesOn (by decide +kernel),
    fun h => absurd h.goesOn (by decide +kernel)⟩

end

end Egos.Survival
