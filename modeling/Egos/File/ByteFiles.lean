import Egos.File.Put

/-!
# Files are byte arrays

The reference is a server whose files are lists of bytes with an owner and a mode. For
requests that create, write and read files it answers what the block file server answers;
`Mirrors` is what ties the two states together.
-/
namespace Egos.File

open Egos.Lib Egos.Disk Bfs

set_option autoImplicit false

namespace Reference

/-- `data` over the bytes from `offset` on; a gap before them is filled with zeros. -/
def writeAt (bytes : List Byte) (offset : Nat) (data : List Byte) : List Byte :=
  let padded := bytes ++ List.replicate (offset - bytes.length) 0
  padded.take offset ++ data ++ padded.drop (offset + data.length)

def readAt (bytes : List Byte) (offset size : Nat) : List Byte := (bytes.drop offset).take size

structure RefFile where
  uid : BitVec 32
  mode : BitVec 16
  bytes : List Byte

/-- Root may do everything; others need the permission bit that applies to them. -/
def RefFile.allows (file : RefFile) (uid : BitVec 32) (owner other : BitVec 16) : Bool :=
  uid = 0 || file.mode &&& (if uid = file.uid then owner else other) != 0

abbrev RefFiles := Nat → Option RefFile

/-- The lowest free number of a file among `numFcbs`; 0 is taken. -/
def lowestFree (files : RefFiles) (numFcbs : Nat) : Option Nat :=
  (List.range' 1 (numFcbs - 1)).find? fun f => (files f).isNone

/-- The reply to a request and the files after it. -/
def answer (numFcbs : Nat) (files : RefFiles) (uid : BitVec 32) (req : FileRequest)
    (data : List Byte) : FileReply × RefFiles :=
  let fileNo := req.fileNo.toNat
  match req.type with
  | .create =>
    match lowestFree files numFcbs with
    | none => (.plain .error [], files)
    | some f => ({ FileReply.plain .ok [] with fileNo := BitVec.ofNat 32 f },
        Function.update files f (some ⟨uid, req.mode, []⟩))
  | .write =>
    match files fileNo with
    | none => (.plain .error [], files)
    | some file =>
      if file.allows uid Permission.ownerWrite Permission.otherWrite then
        (.plain .ok [], Function.update files fileNo
          (some { file with bytes := writeAt file.bytes req.offset.toNat data }))
      else (.plain .error [], files)
  | .read =>
    match files fileNo with
    | none => (.plain .error [], files)
    | some file =>
      if file.allows uid Permission.ownerRead Permission.otherRead then
        (readReply (readAt file.bytes req.offset.toNat req.size.toNat), files)
      else (.plain .error [], files)
  | _ => (.plain .error [], files)

/-- The replies to a sequence of messages, with their addressees, and the files after it. -/
def run (numFcbs : Nat) (files : RefFiles) :
    List (Env × Message) → List (BitVec 32 × FileReply) × RefFiles
  | [] => ([], files)
  | (_, msg) :: rest =>
    match msg.request with
    | none => run numFcbs files rest
    | some req =>
      let (rep, files) := answer numFcbs files msg.uid req msg.payload
      let (replies, files) := run numFcbs files rest
      ((msg.src, rep) :: replies, files)

theorem length_writeAt (bytes : List Byte) (offset : Nat) (data : List Byte) :
    (writeAt bytes offset data).length = max bytes.length (offset + data.length) := by
  unfold writeAt
  simp only [List.length_append, List.length_take, List.length_drop, List.length_replicate]
  omega

theorem getD_pad (bytes : List Byte) (n k : Nat) :
    (bytes ++ List.replicate n 0).getD k 0 = bytes.getD k 0 := by
  by_cases hk : k < bytes.length
  · rw [List.getD_append _ _ _ _ hk]
  · rw [List.getD_append_right _ _ _ _ (by omega), List.getD_eq_default bytes _ (by omega)]
    by_cases hn : k - bytes.length < n
    · rw [List.getD_replicate _ hn]
    · exact List.getD_eq_default _ _ (by simpa using hn)

/-- A write changes the bytes of its range and no others. -/
theorem getD_writeAt (bytes : List Byte) (offset : Nat) (data : List Byte) (k : Nat) :
    (writeAt bytes offset data).getD k 0 = overlay (fun k => bytes.getD k 0) offset data k := by
  unfold writeAt
  dsimp only
  have hpad := getD_pad bytes (offset - bytes.length)
  have hlen : (bytes ++ List.replicate (offset - bytes.length) (0 : Byte)).length =
      max bytes.length offset := by
    rw [List.length_append, List.length_replicate]
    omega
  generalize bytes ++ List.replicate (offset - bytes.length) (0 : Byte) = padded at hpad hlen ⊢
  have htake : (padded.take offset).length = offset := by
    rw [List.length_take, hlen]
    omega
  by_cases hlow : k < offset
  · rw [overlay_outside (.inl hlow), ← hpad, List.append_assoc,
      List.getD_append _ _ _ _ (by omega)]
    simp only [List.getD_eq_getElem?_getD, List.getElem?_take, if_pos hlow]
  · obtain ⟨j, rfl⟩ := Nat.exists_eq_add_of_le (Nat.le_of_not_lt hlow)
    by_cases hj : j < data.length
    · rw [overlay_inside hj, List.getD_append _ _ _ _ (by rw [List.length_append, htake]; omega),
        List.getD_append_right _ _ _ _ (by omega), htake, Nat.add_sub_cancel_left]
    · rw [overlay_outside (.inr (by omega)), ← hpad,
        List.getD_append_right _ _ _ _ (by rw [List.length_append, htake]; omega)]
      simp only [List.getD_eq_getElem?_getD, List.getElem?_drop]
      rw [List.length_append, htake]
      congr 2
      omega

theorem readAt_eq (bytes : List Byte) (offset size : Nat) :
    readAt bytes offset size = slice (fun k => bytes.getD k 0) bytes.length offset size := by
  unfold readAt slice
  apply List.ext_getElem
  · simp
  · intro i h1 h2
    simp only [List.length_take, List.length_drop] at h1
    simp [List.getElem?_eq_getElem (show offset + i < bytes.length by omega)]

end Reference

open Reference

/-- A control block and its inode hold the file of the reference. Behind the end of a file
there are only zeros, and the block that its end lies in is on disk. -/
def FileMirrors (fcb : FileControlBlock) (file : SparseFile Block) : Option RefFile → Prop
  | none => fcb.stAlloc = false ∧ fcb.stSize = 0 ∧ file = .empty fun _ => 0
  | some ref => fcb.stAlloc = true ∧ fcb.stUid = ref.uid ∧ fcb.stMode = ref.mode ∧
      fcb.stSize.toNat = ref.bytes.length ∧ ref.bytes.length < 2 ^ 32 ∧
      (ref.bytes.length = 0 ∨ ref.bytes.length / blockSize < file.size) ∧
      ∀ k, byteAt file.data k = ref.bytes.getD k 0

structure Mirrors (w : World (Files Block)) (files : RefFiles) : Prop where
  inside : ∀ f, f ≠ 0 → f < w.fss.numFcbs.toNat →
    FileMirrors (w.fss.fcbCache f) (w.disk f) (files f)
  outside : ∀ f, w.fss.numFcbs.toNat ≤ f → files f = none

/-- A write needs nothing more than this of its file. -/
theorem FileMirrors.tidy {fcb : FileControlBlock} {file : SparseFile Block} {ref : RefFile}
    (h : FileMirrors fcb file (some ref)) : Tidy fcb.stSize.toNat file := by
  obtain ⟨-, -, -, hsize, -, hblocks, hbytes⟩ := h
  have hzero : ∀ b, ref.bytes.length ≤ b * blockSize → file.data b = fun _ => 0 := by
    intro b hb
    funext j
    rw [← byteAt_mul_add file.data b j, hbytes, List.getD_eq_default _ _ (by omega)]
  constructor
  · intro b hb
    apply hzero
    unfold blockSize at *
    omega
  · intro b hb
    apply hzero
    rw [hsize] at hb
    unfold blockSize at *
    omega

theorem allowed_eq {fcb : FileControlBlock} {ref : RefFile} (huid : fcb.stUid = ref.uid)
    (hmode : fcb.stMode = ref.mode) (uid : BitVec 32) :
    writeAllowed fcb uid = ref.allows uid Permission.ownerWrite Permission.otherWrite ∧
      readAllowed fcb uid = ref.allows uid Permission.ownerRead Permission.otherRead := by
  unfold writeAllowed readAllowed RefFile.allows
  rw [huid, hmode]
  by_cases h0 : uid = 0
  · simp [h0]
  · by_cases hu : uid = ref.uid
    · simp [hu]
    · simp [hu]

theorem firstFree_eq_find {fss : FileServerState} {p : Nat → Bool} {fileNo left : Nat}
    (h : ∀ f, fileNo ≤ f → f < fileNo + left → p f = !(fss.fcbCache f).stAlloc) :
    firstFree fss fileNo left = (List.range' fileNo left).find? p := by
  induction left generalizing fileNo with
  | zero => rfl
  | succ left ih =>
    rw [firstFree, List.range'_succ, List.find?_cons, h fileNo (by omega) (by omega),
      ih (fun f hf hlt => h f (by omega) (by omega))]
    cases (fss.fcbCache fileNo).stAlloc <;> rfl

section Tables

variable {α : Type} {w : World (Files Block)} {files : Nat → Option α}

/-- The control blocks in use are those of the files of a reference, but for the table. -/
structure Numbered (w : World (Files Block)) (files : Nat → Option α) : Prop where
  alloc : ∀ f, f ≠ 0 → f < w.fss.numFcbs.toNat → (w.fss.fcbCache f).stAlloc = (files f).isSome
  outside : ∀ f, w.fss.numFcbs.toNat ≤ f → files f = none

theorem Numbered.freeFile_eq (h : Numbered w files) : freeFile w.fss =
    (List.range' 1 (w.fss.numFcbs.toNat - 1)).find? fun f => (files f).isNone := by
  apply firstFree_eq_find
  intro f hf hlt
  rw [h.alloc f (by omega) (by omega)]
  cases files f <;> rfl

theorem Numbered.free (h : Numbered w files) {f : Nat} (hfree : freeFile w.fss = some f) :
    files f = none := by
  rw [h.freeFile_eq] at hfree
  simpa using List.find?_some hfree

theorem Numbered.badInode_iff (h : Numbered w files) {f : Nat} (h0 : f ≠ 0) :
    badInode w.fss f = true ↔ files f = none := by
  unfold badInode
  by_cases hf : f < w.fss.numFcbs.toNat
  · rw [h.alloc f h0 hf]
    cases files f <;> simp [hf]
  · simp [h.outside f (by omega), Nat.le_of_not_lt hf]

theorem Numbered.inUse (h : Numbered w files) {f : Nat} (h0 : f ≠ 0) {ref : α}
    (hr : files f = some ref) : ¬badInode w.fss f = true := fun hb => by
  rw [(h.badInode_iff h0).mp hb] at hr
  cases hr

theorem setFcb_files {P : FileControlBlock → SparseFile Block → Option α → Prop}
    (h : ∀ f, f ≠ 0 → f < w.fss.numFcbs.toNat → P (w.fss.fcbCache f) (w.disk f) (files f))
    {w' : World (Files Block)} {f : Nat} {fcb : FileControlBlock} {ref : α}
    (hfss : w'.fss = w.fss.setFcb f fcb) (hother : ∀ i, i ≠ 0 → i ≠ f → w'.disk i = w.disk i)
    (hfile : P fcb (w'.disk f) (some ref)) (i : Nat) (hi : i ≠ 0)
    (hin : i < w'.fss.numFcbs.toNat) :
    P (w'.fss.fcbCache i) (w'.disk i) (Function.update files f (some ref) i) := by
  rw [hfss] at hin ⊢
  unfold FileServerState.setFcb
  dsimp only
  by_cases hif : i = f
  · rw [hif, Function.update_self, Function.update_self]
    exact hfile
  · rw [Function.update_of_ne hif, Function.update_of_ne hif, hother i hi hif]
    exact h i hi hin

end Tables

namespace Mirrors

variable {w : World (Files Block)} {files : RefFiles} (h : Mirrors w files)

include h

theorem numbered : Numbered w files := by
  refine ⟨fun f h0 hf => ?_, h.outside⟩
  have hfile := h.inside f h0 hf
  cases hr : files f with
  | none =>
    rw [hr] at hfile
    exact hfile.1
  | some ref =>
    rw [hr] at hfile
    exact hfile.1

theorem set {w' : World (Files Block)} {f : Nat} {fcb : FileControlBlock} {ref : RefFile}
    (hlt : f < w.fss.numFcbs.toNat)
    (hfss : w'.fss = w.fss.setFcb f fcb) (hother : ∀ i, i ≠ 0 → i ≠ f → w'.disk i = w.disk i)
    (hfile : FileMirrors fcb (w'.disk f) (some ref)) :
    Mirrors w' (Function.update files f (some ref)) := by
  refine ⟨setFcb_files h.inside hfss hother hfile, fun i hi => ?_⟩
  have hin : w.fss.numFcbs.toNat ≤ i := by
    rw [hfss] at hi
    exact hi
  rw [Function.update_of_ne (by omega)]
  exact h.outside i hin

end Mirrors

/-- The requests whose answers are compared: creations, writes and reads of files other than
the table, the writes below 4 GiB. A write fits into a message. The bytes that a read finds do not
reach from the first block into the last one below 4 GiB, since the size of its buffer would wrap
around. -/
inductive InScope (files : RefFiles) (uid : BitVec 32) (payload : List Byte) (req : FileRequest) :
    Prop
  | create (h : req.type = .create)
  | write (h : req.type = .write) (fileNo : req.fileNo.toNat ≠ 0)
      (range : req.offset.toNat + req.size.toNat < 2 ^ 32)
      (size : req.size.toNat = payload.length) (fits : payload.length ≤ fileMaxMsgSize)
  | read (h : req.type = .read) (fileNo : req.fileNo.toNat ≠ 0)
      (room : ∀ file, files req.fileNo.toNat = some file →
        file.allows uid Permission.ownerRead Permission.otherRead →
          blockSize ≤ req.offset.toNat ∨
            min file.bytes.length (req.offset.toNat + req.size.toNat) ≤ 2 ^ 32 - blockSize)

/-- Every request is compared when its turn comes. -/
def AllInScope (numFcbs : Nat) (files : RefFiles) : List (Env × Message) → Prop
  | [] => True
  | (_, msg) :: rest =>
    ∃ req, msg.request = some req ∧ InScope files msg.uid msg.payload req ∧
      AllInScope numFcbs (answer numFcbs files msg.uid req msg.payload).2 rest

section Step

variable {w : World (Files Block)} {files : RefFiles} {env : Env} {req : FileRequest}
  {src uid : BitVec 32}

/-- The server has sent this reply, and the files are as in the reference. -/
structure Answered (w : World (Files Block)) (src : BitVec 32) (answer : FileReply × RefFiles)
    (w' : World (Files Block)) : Prop where
  outbox : w'.outbox = w.outbox ++ [(src, answer.1)]
  num : w'.fss.numFcbs = w.fss.numFcbs
  mirrors : Mirrors w' answer.2

theorem Mirrors.refused (h : Mirrors w files) (src : BitVec 32) :
    Answered w src (.plain .error [], files)
      { w with outbox := w.outbox ++ [(src, .plain .error [])] } :=
  ⟨rfl, rfl, h.inside, h.outside⟩

theorem create_answered (h : Mirrors w files) (ht : req.type = .create) (data : List Byte) :
    Outcome (doCreate sparse env req src uid)
      (fun _ w' => Answered w src (answer w.fss.numFcbs.toNat files uid req data) w')
      (fun _ _ => False) w := by
  unfold doCreate answer
  simp only [Outcome.bind_iff, Outcome.get_iff, ht]
  rw [show lowestFree files w.fss.numFcbs.toNat = _ from h.numbered.freeFile_eq.symm]
  cases hfree : freeFile w.fss with
  | none => exact h.refused src
  | some f =>
    have hlt := freeFile_lt hfree
    have hn := w.fss.numFcbs.isLt
    have hnew := h.numbered.free hfree
    have hfile := h.inside f hlt.1 hlt.2
    rw [hnew] at hfile
    obtain ⟨-, hsize, hempty⟩ := hfile
    simp only [Outcome.bind_iff, outcome_setFcb, outcome_send,
      outcome_flushFcbCache (show f < 2 ^ 32 by omega)]
    refine ⟨rfl, rfl, h.set hlt.2 rfl (fun i hi _ => flushed_other _ _ _ _ hi) ?_⟩
    dsimp only
    rw [flushed_other _ _ _ _ hlt.1, hempty]
    refine ⟨rfl, rfl, rfl, ?_, Nat.two_pow_pos 32, .inl rfl, fun k => ?_⟩
    · dsimp only
      rw [hsize]
      rfl
    · rfl

theorem write_answered (h : Mirrors w files) (ht : req.type = .write) {data : List Byte}
    (h0 : req.fileNo.toNat ≠ 0) (hrange : req.offset.toNat + req.size.toNat < 2 ^ 32)
    (hlen : req.size.toNat = data.length) :
    Outcome (doWrite sparse env req data src uid)
      (fun _ w' => Answered w src (answer w.fss.numFcbs.toNat files uid req data) w')
      (fun _ _ => False) w := by
  have hsize : req.size = BitVec.ofNat 32 data.length := by
    rw [← hlen, BitVec.ofNat_toNat, BitVec.setWidth_eq]
  unfold doWrite answer
  simp only [Outcome.bind_iff, Outcome.get_iff, ht]
  cases hr : files req.fileNo.toNat with
  | none =>
    rw [if_pos ((h.numbered.badInode_iff h0).mpr hr)]
    exact h.refused src
  | some ref =>
    have hbad := h.numbered.inUse h0 hr
    have hlt := (badInode_false.mp hbad).1
    have hfile := h.inside _ h0 hlt
    rw [hr] at hfile
    rw [if_neg hbad, if_neg (fun hne => hne hsize), (allowed_eq hfile.2.1 hfile.2.2.1 uid).1]
    dsimp only
    cases hallow : ref.allows uid Permission.ownerWrite Permission.otherWrite with
    | false => exact h.refused src
    | true =>
      have htidy := hfile.tidy
      obtain ⟨halloc, huid, hmode, hL, hL32, hblocks, hbytes⟩ := hfile
      simp only [Bool.not_true, Bool.false_eq_true, if_false, if_true, Outcome.bind_iff]
      refine (outcome_put_bytes (by omega) (by rw [← hsize]; exact hlen) (by omega) htidy h0
        hlt).post (fun r w' hput => ?_)
      rcases hput with ⟨-, -, hne, hle, hmiss⟩ | ⟨hr0, hst, -⟩
      · -- the block that a write inside the file begins in is on disk
        rw [hL] at hne hle
        omega
      · rw [if_pos hr0]
        refine ⟨by simp only [hst.outbox], by simp only [hst.fss]; rfl,
          h.set hlt hst.fss hst.other ?_⟩
        have hnew : (BitVec.ofNat 64 (max (w.fss.fcbCache req.fileNo.toNat).stSize.toNat
            (req.offset.toNat + data.length))).toNat =
            max ref.bytes.length (req.offset.toNat + data.length) := by
          rw [BitVec.toNat_ofNat, hL]
          omega
        refine ⟨halloc, huid, hmode, ?_, ?_, ?_, fun k => ?_⟩
        · rw [length_writeAt]
          exact hnew
        · rw [length_writeAt]
          omega
        · rw [length_writeAt]
          dsimp only
          rw [hst.size]
          unfold blockSize at *
          omega
        · dsimp only
          rw [hst.bytes, getD_writeAt, show byteAt (w.disk req.fileNo.toNat).data =
            fun k => ref.bytes.getD k 0 from funext hbytes]

theorem read_answered (h : Mirrors w files) (ht : req.type = .read) (data : List Byte)
    (h0 : req.fileNo.toNat ≠ 0)
    (hroom : ∀ file, files req.fileNo.toNat = some file →
      file.allows uid Permission.ownerRead Permission.otherRead →
        blockSize ≤ req.offset.toNat ∨
          min file.bytes.length (req.offset.toNat + req.size.toNat) ≤ 2 ^ 32 - blockSize) :
    Outcome (doRead sparse env req src uid)
      (fun _ w' => Answered w src (answer w.fss.numFcbs.toNat files uid req data) w')
      (fun _ _ => False) w := by
  unfold answer
  simp only [ht]
  cases hr : files req.fileNo.toNat with
  | none =>
    unfold doRead
    simp only [Outcome.bind_iff, Outcome.get_iff]
    rw [if_pos ((h.numbered.badInode_iff h0).mpr hr)]
    exact h.refused src
  | some ref =>
    have hbad := h.numbered.inUse h0 hr
    have hfile := h.inside _ h0 (badInode_false.mp hbad).1
    rw [hr] at hfile
    have hallowed := (allowed_eq hfile.2.1 hfile.2.2.1 uid).2
    dsimp only
    cases hallow : ref.allows uid Permission.ownerRead Permission.otherRead with
    | false =>
      unfold doRead
      simp only [Outcome.bind_iff, Outcome.get_iff]
      rw [if_neg hbad, if_pos (by rw [hallowed, hallow]; rfl)]
      exact h.refused src
    | true =>
      obtain ⟨-, -, -, hL, hL32, hblocks, hbytes⟩ := hfile
      refine (outcome_doRead_bytes hbad (hallowed.trans hallow) (by omega) (fun k hk => ?_)
        (by rw [hL]; exact hroom ref hr hallow)).post (fun _ w' hw' => ?_)
      · rw [hL] at hk
        unfold blockSize at *
        omega
      · subst hw'
        refine ⟨?_, rfl, h.inside, h.outside⟩
        rw [if_pos rfl, readAt_eq, ← hL, show byteAt (w.disk req.fileNo.toNat).data =
          fun k => ref.bytes.getD k 0 from funext hbytes]

theorem serve_answered {msg : Message} (h : Mirrors w files) (hreq : msg.request = some req)
    (hscope : InScope files msg.uid msg.payload req) :
    Outcome (serve sparse env msg)
      (fun _ w' => Answered w msg.src
        (answer w.fss.numFcbs.toNat files msg.uid req msg.payload) w')
      (fun _ _ => False) w := by
  unfold serve
  rw [hreq]
  cases hscope with
  | create ht =>
    simp only [ht]
    exact create_answered h ht msg.payload
  | write ht h0 hrange hsize hfits =>
    simp only [ht]
    rw [List.take_of_length_le hfits]
    exact write_answered h ht h0 hrange hsize
  | read ht h0 hroom =>
    simp only [ht]
    exact read_answered h ht msg.payload h0 hroom

end Step

theorem serveAll_answered {msgs : List (Env × Message)} {w : World (Files Block)}
    {files : RefFiles} (h : Mirrors w files)
    (hscope : AllInScope w.fss.numFcbs.toNat files msgs) :
    Outcome (serveAll sparse msgs)
      (fun _ w' => w'.outbox = w.outbox ++ (run w.fss.numFcbs.toNat files msgs).1 ∧
        w'.fss.numFcbs = w.fss.numFcbs ∧ Mirrors w' (run w.fss.numFcbs.toNat files msgs).2)
      (fun _ _ => False) w := by
  induction msgs generalizing w files with
  | nil => exact ⟨by simp [run], rfl, h⟩
  | cons m rest ih =>
    obtain ⟨env, msg⟩ := m
    obtain ⟨req, hreq, hin, hrest⟩ := hscope
    unfold serveAll
    refine Outcome.seq (serve_answered h hreq hin) (fun _ w' hw' => ?_)
    refine (ih hw'.mirrors (by rw [hw'.num]; exact hrest)).post (fun _ w'' hw'' => ?_)
    obtain ⟨hout, hnum, hmir⟩ := hw''
    rw [hw'.num] at hout hnum hmir
    unfold run
    dsimp only at hreq ⊢
    rw [hreq]
    refine ⟨?_, hnum, hmir⟩
    rw [hout, hw'.outbox, List.append_assoc]
    rfl

theorem outcome_boot_mirrors {globalTime : BitVec 64} {startTime numFcbs : BitVec 32} {env : Env}
    (h0 : 0 < numFcbs.toNat) :
    Outcome (boot sparse env)
      (fun _ w => w.outbox = [] ∧ w.fss.numFcbs = numFcbs ∧ Mirrors w fun _ => none)
      (fun _ _ => False) (newDisk globalTime startTime numFcbs) := by
  refine Outcome.of_eq (boot_newDisk globalTime startTime env h0) ?_
  unfold flushStatCacheAll
  simp only [Outcome.bind_iff, Outcome.get_iff, outcome_onDisk, Outcome.pure_iff]
  refine ⟨rfl, rfl, fun f hf _ => ?_, fun _ _ => rfl⟩
  have hframe := (multiblockWrite_frame 0 0
    (tableImage (installed globalTime startTime numFcbs).fss env.heap)
    ((tableSize (installed globalTime startTime numFcbs).fss - 1) / BitVec.ofNat 32 blockSize +
      1).toNat (installed globalTime startTime numFcbs).disk).2 f hf
  have hfcb : (installed globalTime startTime numFcbs).fss.fcbCache f = .zero :=
    Function.update_of_ne hf _ _
  refine ⟨?_, ?_, hframe⟩
  · rw [hfcb]
    rfl
  · rw [hfcb]
    rfl

/-- The block file server on an empty disk behaves as a server of byte arrays: it sends the
replies of the reference, and its files hold the bytes of the reference's files. -/
theorem files_are_byte_arrays {globalTime : BitVec 64} {startTime numFcbs : BitVec 32} {env : Env}
    {msgs : List (Env × Message)} (h0 : 0 < numFcbs.toNat)
    (hscope : AllInScope numFcbs.toNat (fun _ => none) msgs) :
    ∃ w, (do boot sparse env; serveAll sparse msgs) (newDisk globalTime startTime numFcbs) =
        .ok () w ∧
      w.outbox = (Reference.run numFcbs.toNat (fun _ => none) msgs).1 ∧
      Mirrors w (Reference.run numFcbs.toNat (fun _ => none) msgs).2 := by
  suffices hout : Outcome (do boot sparse env; serveAll sparse msgs)
      (fun _ w => w.outbox = (Reference.run numFcbs.toNat (fun _ => none) msgs).1 ∧
        Mirrors w (Reference.run numFcbs.toNat (fun _ => none) msgs).2)
      (fun _ _ => False) (newDisk globalTime startTime numFcbs) by
    obtain ⟨u, w, hrun, hw⟩ := hout.exists_ok
    exact ⟨w, hrun, hw⟩
  refine Outcome.seq (outcome_boot_mirrors h0) (fun _ w hw => ?_)
  obtain ⟨hout, hnum, hmir⟩ := hw
  refine (serveAll_answered hmir (by rw [hnum]; exact hscope)).post (fun _ w' hw' => ?_)
  rw [hnum, hout, List.nil_append] at hw'
  exact ⟨hw'.1, hw'.2.2⟩

/-- Root creates a file, writes across a block boundary, leaves a gap and reads. The second read
asks for all bytes up to the last block below 4 GiB and gets the six that are there. -/
theorem files_are_byte_arrays_four :
    ∃ w, (do
        boot sparse testEnv
        serveAll sparse [testRequest .create 0 0 [], testRequest .write 1 1022 [1, 2, 3],
          testRequest .write 1 1027 [4], testRequest .read 1 1022 [0, 0, 0, 0, 0, 0, 0, 0],
          (testEnv, ⟨9, 0, some ⟨.read, 1, 1022, 0xFFFFFC01, 0, 0⟩, []⟩)])
        (newDisk 0 0 4) = .ok () w ∧
      w.outbox = [(9, { FileReply.plain .ok [] with fileNo := 1 }), (9, .plain .ok []),
        (9, .plain .ok []), (9, readReply [1, 2, 3, 0, 0, 4]),
        (9, readReply [1, 2, 3, 0, 0, 4])] := by
  obtain ⟨w, hrun, hout, -⟩ := @files_are_byte_arrays 0 0 4 testEnv [testRequest .create 0 0 [],
      testRequest .write 1 1022 [1, 2, 3], testRequest .write 1 1027 [4],
      testRequest .read 1 1022 [0, 0, 0, 0, 0, 0, 0, 0],
      (testEnv, ⟨9, 0, some ⟨.read, 1, 1022, 0xFFFFFC01, 0, 0⟩, []⟩)] (by decide) (by
        refine ⟨_, rfl, .create rfl, _, rfl, .write rfl (by decide) (by decide) rfl (by decide),
          _, rfl, .write rfl (by decide) (by decide) rfl (by decide),
          _, rfl, .read rfl (by decide) ?_, _, rfl, .read rfl (by decide) ?_, trivial⟩
        · intro file hfile _
          cases hfile
          exact .inr (by decide +kernel)
        · intro file hfile _
          cases hfile
          exact .inr (by decide +kernel))
  exact ⟨w, hrun, hout.trans (by decide +kernel)⟩

/-- The receive buffer cuts a longer message, and then its size does not match. -/
theorem outcome_serve_long {w : World (Files Block)} {env : Env} (msg : Message)
    {req : FileRequest} (hreq : msg.request = some req) (ht : req.type = .write)
    (hlen : req.size.toNat = msg.payload.length) (hlong : fileMaxMsgSize < msg.payload.length) :
    Outcome (serve sparse env msg)
      (fun _ w' => w' = { w with outbox := w.outbox ++ [(msg.src, .plain .error [])] })
      (fun _ _ => False) w := by
  have hcut : (msg.payload.take fileMaxMsgSize).length = fileMaxMsgSize := by
    rw [List.length_take]
    omega
  have hmismatch : req.size ≠ BitVec.ofNat 32 (msg.payload.take fileMaxMsgSize).length := by
    intro he
    have hval : req.size.toNat = fileMaxMsgSize := by
      rw [he, hcut]
      rfl
    omega
  unfold serve
  rw [hreq]
  simp only [ht]
  unfold doWrite
  simp only [Outcome.bind_iff, Outcome.get_iff]
  rw [if_pos hmismatch]
  split
  · rfl
  · rfl

/-- Root may write to file 1, and 16385 bytes are refused. -/
theorem long_write_refused :
    let w := final ((do boot sparse testEnv; serveAll sparse [testRequest .create 0 0 []])
      (newDisk 0 0 4))
    badInode w.fss 1 = false ∧ writeAllowed (w.fss.fcbCache 1) 0 = true ∧
      serve sparse testEnv (testRequest .write 1 0 (List.replicate 16385 1)).2 w =
        .ok () { w with outbox := w.outbox ++ [(9, .plain .error [])] } := by
  refine ⟨by decide +kernel, by decide +kernel, ?_⟩
  have hlen : (BitVec.ofNat 32 (List.replicate 16385 (1 : Byte)).length).toNat =
      (List.replicate 16385 (1 : Byte)).length := by
    rw [List.length_replicate]
    rfl
  have hlong : fileMaxMsgSize < (List.replicate 16385 (1 : Byte)).length := by
    rw [List.length_replicate]
    decide
  obtain ⟨u, w', hrun, rfl⟩ := (outcome_serve_long
    (testRequest .write 1 0 (List.replicate 16385 1)).2 rfl rfl hlen hlong).exists_ok
  exact hrun

end Egos.File
