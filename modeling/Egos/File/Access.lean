import Egos.File.Requests

/-!
# Who may change and who may read a file

Over any block server whose inodes are independent of each other. A request acts on one
file number: the free one that a creation takes, or the one that it names. `Licence` lists
what entitles it to, and the rules for a file follow from that list.
-/
namespace Egos.File

open Egos.Lib Egos.Disk Bfs

set_option autoImplicit false

variable {σ : Type} {svr : BlockServer σ} {files : σ → Files Block}

/-- A call changes no inode but its own, a read returns what is stored, and reads and syncs
change nothing. Every call may fail. -/
structure Independent (svr : BlockServer σ) (files : σ → Files Block) : Prop where
  read : ∀ ino offset s, files (svr.read ino offset s).2 = files s
  returned : ∀ ino offset s block, (svr.read ino offset s).1 = some block →
    block = (files s ino).data offset
  sync : ∀ ino s, files (svr.sync ino s).2 = files s
  setsize : ∀ ino nblocks s i, i ≠ ino → files (svr.setsize ino nblocks s).2 i = files s i
  write : ∀ ino offset block s i, i ≠ ino → files (svr.write ino offset block s).2 i = files s i

/-- The permission bit that applies to this user is set. -/
def Grants (fcb : FileControlBlock) (uid : BitVec 32) (owner other : BitVec 16) : Prop :=
  fcb.stMode &&& (if uid = fcb.stUid then owner else other) ≠ 0

theorem writeAllowed_iff {fcb : FileControlBlock} {uid : BitVec 32} (h : uid ≠ 0) :
    writeAllowed fcb uid = true ↔
      Grants fcb uid Permission.ownerWrite Permission.otherWrite := by
  unfold writeAllowed Grants
  rw [if_neg h]
  split
  · exact bne_iff_ne
  · exact bne_iff_ne

theorem readAllowed_iff {fcb : FileControlBlock} {uid : BitVec 32} (h : uid ≠ 0) :
    readAllowed fcb uid = true ↔
      Grants fcb uid Permission.ownerRead Permission.otherRead := by
  unfold readAllowed Grants
  rw [if_neg h]
  split
  · exact bne_iff_ne
  · exact bne_iff_ne

/-- The control block of a file or what is stored of it differs. Inode 0 holds the table,
which changes with every control block. -/
def Changed (files : σ → Files Block) (w w' : World σ) (f : Nat) : Prop :=
  w'.fss.fcbCache f ≠ w.fss.fcbCache f ∨ f ≠ 0 ∧ files w'.disk f ≠ files w.disk f

theorem not_changed {w w' : World σ} {f : Nat} (hfcb : w'.fss.fcbCache f = w.fss.fcbCache f)
    (hdisk : f ≠ 0 → files w'.disk f = files w.disk f) : ¬Changed files w w' f := by
  rintro (h | ⟨h0, h⟩)
  · exact h hfcb
  · exact h (hdisk h0)

/-- A reply that says nothing about a file but that a request succeeded or failed. -/
def Bare (rep : FileReply) : Prop := rep.data = [] ∧ rep.fcb = .zero

/-- The control block in the reply to a read, which has the number of the bytes as its size. -/
def FileControlBlock.ofSize (n : Nat) : FileControlBlock :=
  { FileControlBlock.zero with stSize := BitVec.ofNat 64 n }

/-- A reply tells of the file that the request names: its data are the bytes from the offset of
the request on, in blocks whose numbers have 32 bits, and its control block is the one of the file
or says how many bytes there are. -/
structure TellsOf (files : σ → Files Block) (w : World σ) (req : FileRequest) (rep : FileReply) :
    Prop where
  data : ∀ i (hi : i < rep.data.length), rep.data[i] =
    (files w.disk req.fileNo.toNat).data ((req.offset.toNat + i) / blockSize % 2 ^ 32)
      ⟨(req.offset.toNat + i) % blockSize, mod_blockSize_lt _⟩
  fcb : rep.fcb = w.fss.fcbCache req.fileNo.toNat ∨ rep.fcb = .ofSize rep.data.length

/-- The rules for one request: its user changes an allocated file only with the right to, a
creation takes a free number, no other file changes, and what is told may be read. -/
structure Permitted (files : σ → Files Block) (w : World σ) (msg : Message) (w' : World σ) :
    Prop where
  written : ∀ f, (w.fss.fcbCache f).stAlloc → msg.uid ≠ 0 →
    (f ≠ 0 ∧ files w'.disk f ≠ files w.disk f) ∨
      (w'.fss.fcbCache f).stSize ≠ (w.fss.fcbCache f).stSize ∨
      (w'.fss.fcbCache f).stAlloc ≠ (w.fss.fcbCache f).stAlloc →
    Grants (w.fss.fcbCache f) msg.uid Permission.ownerWrite Permission.otherWrite
  mode : ∀ f, (w.fss.fcbCache f).stAlloc → msg.uid ≠ 0 →
    (w'.fss.fcbCache f).stMode ≠ (w.fss.fcbCache f).stMode →
    msg.uid = (w.fss.fcbCache f).stUid
  owner : ∀ f, (w.fss.fcbCache f).stAlloc → msg.uid ≠ 0 →
    (w'.fss.fcbCache f).stUid = (w.fss.fcbCache f).stUid
  created : ∀ req, msg.request = some req → req.type = .create →
    ∀ f, Changed files w w' f →
      (w.fss.fcbCache f).stAlloc = false ∧ ∀ g, Changed files w w' g → g = f
  unnamed : ∀ f, Changed files w w' f →
    ∃ req, msg.request = some req ∧ (req.type = .create ∨ f = req.fileNo.toNat)
  replies : ∃ sent, w'.outbox = w.outbox ++ sent ∧ ∀ r ∈ sent, Bare r.2 ∨
    ∃ req, msg.request = some req ∧ r.1 = msg.src ∧
      (w.fss.fcbCache req.fileNo.toNat).stAlloc ∧
      (msg.uid ≠ 0 → Grants (w.fss.fcbCache req.fileNo.toNat) msg.uid
        Permission.ownerRead Permission.otherRead) ∧
      TellsOf files w req r.2

/-- What a request of each kind does to the control block that it acts on, and what entitles
its user to it. Only deletions, writes and truncations change what is stored. -/
inductive Licence (uid : BitVec 32) (fcb fcb' : FileControlBlock) (kept : Prop) : FileOp → Prop
  | same {op : FileOp} (rest : fcb' = fcb) (hk : kept) : Licence uid fcb fcb' kept op
  | create (free : fcb.stAlloc = false) (taken : fcb'.stAlloc = true)
      (size : fcb'.stSize = fcb.stSize) (hk : kept) : Licence uid fcb fcb' kept .create
  | delete (inUse : fcb.stAlloc = true) (allowed : writeAllowed fcb uid = true)
      (rest : fcb' = { fcb with stAlloc := false }) : Licence uid fcb fcb' kept .delete
  | store {op : FileOp} (hop : op = .write ∨ op = .setsize) (inUse : fcb.stAlloc = true)
      (allowed : writeAllowed fcb uid = true)
      (rest : fcb' = { fcb with stSize := fcb'.stSize, stModtime := fcb'.stModtime }) :
      Licence uid fcb fcb' kept op
  | chown (inUse : fcb.stAlloc = true) (allowed : uid = 0) (hk : kept)
      (rest : fcb' = { fcb with stUid := fcb'.stUid }) : Licence uid fcb fcb' kept .chown
  | chmod (inUse : fcb.stAlloc = true) (allowed : uid = 0 ∨ uid = fcb.stUid) (hk : kept)
      (rest : fcb' = { fcb with stMode := fcb'.stMode }) : Licence uid fcb fcb' kept .chmod

/-- A request of this kind and user has acted on at most one file number. -/
structure Acts (files : σ → Files Block) (op : FileOp) (uid : BitVec 32) (target : Option Nat)
    (w w' : World σ) : Prop where
  others : ∀ f, target ≠ some f → ¬Changed files w w' f
  licence : ∀ f, target = some f → Licence uid (w.fss.fcbCache f) (w'.fss.fcbCache f)
    (f ≠ 0 → files w'.disk f = files w.disk f) op

/-- The replies tell nothing, or what this user may read of the file that is named. -/
def Discreet (files : σ → Files Block) (src uid : BitVec 32) (req : FileRequest) (w w' : World σ) :
    Prop :=
  ∃ sent, w'.outbox = w.outbox ++ sent ∧ ∀ r ∈ sent, Bare r.2 ∨
    r.1 = src ∧ (w.fss.fcbCache req.fileNo.toNat).stAlloc ∧
      readAllowed (w.fss.fcbCache req.fileNo.toNat) uid ∧ TellsOf files w req r.2

section Calls

variable (h : Independent svr files)

include h

theorem multiblockWriteLoop_other (ino offset : Nat) (addr : Buffer) {left i : Nat} {s : σ}
    {j : Nat} (hj : j ≠ ino) :
    files (multiblockWriteLoop svr ino offset addr i left s).2 j = files s j := by
  induction left generalizing i s with
  | zero => rfl
  | succ left ih =>
    have hwrite := h.write ino ((offset + i) % 2 ^ 32) (blockAt addr i) s j hj
    cases hr : svr.write ino ((offset + i) % 2 ^ 32) (blockAt addr i) s with
    | mk ok s' =>
      rw [hr] at hwrite
      cases ok with
      | true =>
        rw [writeLoop_taken hr]
        exact ih.trans hwrite
      | false =>
        rw [writeLoop_failed hr]
        exact hwrite

/-- A read changes nothing and fills its buffer from the blocks of the inode, as far as it
comes. -/
theorem multiblockReadLoop_stored (ino offset left i : Nat) (addr : Buffer) (s : σ) :
    files (multiblockReadLoop svr ino offset i addr left s).2 = files s ∧
      ∀ count contents,
        (multiblockReadLoop svr ino offset i addr left s).1 = some (count, contents) →
          i ≤ count ∧ ∀ k, contents k = if i ≤ k / blockSize ∧ k / blockSize < count then
              (files s ino).data ((offset + k / blockSize) % 2 ^ 32)
                ⟨k % blockSize, mod_blockSize_lt k⟩
            else addr k := by
  induction left generalizing i addr s with
  | zero =>
    refine ⟨rfl, fun count contents hc => ?_⟩
    obtain ⟨rfl, rfl⟩ := Prod.mk.injEq .. ▸ Option.some.inj hc
    exact ⟨Nat.le_refl _, fun k => by rw [if_neg (by omega)]⟩
  | succ left ih =>
    have hread := h.read ino ((offset + i) % 2 ^ 32) s
    have hdata := h.returned ino ((offset + i) % 2 ^ 32) s
    cases hr : svr.read ino ((offset + i) % 2 ^ 32) s with
    | mk found s' =>
      rw [hr] at hread hdata
      cases found with
      | none =>
        rw [readLoop_failed hr]
        refine ⟨hread, fun count contents hc => ?_⟩
        dsimp only at hc
        split at hc
        · cases hc
        · obtain ⟨rfl, rfl⟩ := Prod.mk.injEq .. ▸ Option.some.inj hc
          exact ⟨Nat.le_refl _, fun k => by rw [if_neg (by omega)]⟩
      | some block =>
        rw [readLoop_found hr]
        obtain ⟨hs, hc⟩ := ih (i + 1) (putBlock addr i block) s'
        refine ⟨hs.trans hread, fun count contents heq => ?_⟩
        obtain ⟨hle, hbytes⟩ := hc count contents heq
        refine ⟨by omega, fun k => ?_⟩
        rw [hbytes k, hread]
        unfold putBlock
        by_cases hk : k / blockSize = i
        · rw [if_neg (by omega), if_pos hk, if_pos (by omega), hdata block rfl]
          simp only [hk]
        · have hiff : i + 1 ≤ k / blockSize ∧ k / blockSize < count ↔
              i ≤ k / blockSize ∧ k / blockSize < count := by omega
          simp only [hiff, if_neg hk]

end Calls

/-- Nothing but this inode has changed. -/
structure Beside (files : σ → Files Block) (ino : Nat) (w w' : World σ) : Prop where
  fss : w'.fss = w.fss
  outbox : w'.outbox = w.outbox
  disk : ∀ i, i ≠ ino → files w'.disk i = files w.disk i

section Effects

variable {env : Env} {req : FileRequest} {op : FileOp} {src uid : BitVec 32} {w w' : World σ}
  {E : Stop → World σ → Prop}

theorem outcome_flush (h : Independent svr files) (fileNo : Nat) :
    Outcome (flushFcbCache svr env fileNo) (fun _ w' => Beside files 0 w w') E w := by
  unfold flushFcbCache
  simp only [Outcome.bind_iff, Outcome.get_iff, outcome_onDisk, Outcome.pure_iff]
  exact ⟨rfl, rfl, fun i hi => multiblockWriteLoop_other h 0 _ _ hi⟩

/-- A control block is replaced, its inode may have changed, and the table is flushed. -/
theorem Acts.set {f : Nat} (fcb : FileControlBlock)
    (hfcb : w'.fss.fcbCache = Function.update w.fss.fcbCache f fcb)
    (hdisk : ∀ i, i ≠ 0 → i ≠ f → files w'.disk i = files w.disk i)
    (hl : Licence uid (w.fss.fcbCache f) fcb (f ≠ 0 → files w'.disk f = files w.disk f) op) :
    Acts files op uid (some f) w w' := by
  constructor
  · intro i hi
    have hne : i ≠ f := fun he => hi (congrArg some he.symm)
    exact not_changed (by rw [hfcb, Function.update_of_ne hne]) (fun h0 => hdisk i h0 hne)
  · intro i hi
    obtain rfl := Option.some.inj hi
    rw [hfcb, Function.update_self]
    exact hl

theorem Acts.unchanged (target : Option Nat) (hfss : w'.fss = w.fss)
    (hdisk : ∀ i, i ≠ 0 → files w'.disk i = files w.disk i) : Acts files op uid target w w' :=
  ⟨fun f _ => not_changed (by rw [hfss]) (hdisk f),
    fun f _ => .same (by rw [hfss]) (hdisk f)⟩

theorem Discreet.none (h : w'.outbox = w.outbox) : Discreet files src uid req w w' :=
  ⟨[], by rw [h, List.append_nil], fun r hr => absurd hr List.not_mem_nil⟩

theorem Discreet.bare {rep : FileReply} (h : w'.outbox = w.outbox ++ [(src, rep)])
    (hb : Bare rep) : Discreet files src uid req w w' :=
  ⟨_, h, fun r hr => .inl (by rw [List.mem_singleton.mp hr]; exact hb)⟩

theorem bare_plain (status : FileStatus) : Bare (.plain status []) := ⟨rfl, rfl⟩

/-- The replies of a request that goes on after it has reported a failure. -/
theorem Discreet.twice
    (h : w'.outbox = w.outbox ++ [(src, .plain .error []), (src, .plain .ok [])]) :
    Discreet files src uid req w w' := by
  refine ⟨_, h, fun r hr => .inl ?_⟩
  simp only [List.mem_cons, List.not_mem_nil, or_false] at hr
  rcases hr with rfl | rfl
  · exact bare_plain .error
  · exact bare_plain .ok

theorem refused (target : Option Nat) :
    Outcome (respond .error [] src)
      (fun _ w' => Acts files op uid target w w' ∧ Discreet files src uid req w w') E w :=
  ⟨.unchanged target rfl fun _ _ => rfl, .bare rfl (bare_plain .error)⟩

theorem create_acts (h : Independent svr files) :
    Outcome (doCreate svr env req src uid)
      (fun _ w' => Acts files .create uid (freeFile w.fss) w w' ∧ Discreet files src uid req w w')
      E w := by
  unfold doCreate
  simp only [Outcome.bind_iff, Outcome.get_iff]
  cases hf : freeFile w.fss with
  | none => exact refused none
  | some g =>
    simp only [Outcome.bind_iff, outcome_setFcb, outcome_send]
    refine (outcome_flush h g).post (fun _ w' hw => ⟨?_, ?_⟩)
    · exact .set _ (congrArg FileServerState.fcbCache hw.fss) (fun i hi _ => hw.disk i hi)
        (.create (firstFree_free hf) rfl rfl fun h0 => hw.disk g h0)
    · exact .bare (by rw [hw.outbox]) ⟨rfl, rfl⟩

theorem delete_acts (h : Independent svr files) :
    Outcome (doDelete svr env req src uid)
      (fun _ w' => Acts files .delete uid (some req.fileNo.toNat) w w' ∧
        Discreet files src uid req w w') E w := by
  unfold doDelete
  simp only [Outcome.bind_iff, Outcome.get_iff]
  split
  · exact refused _
  · split
    · exact refused _
    · rename_i hallow
      split
      · exact ⟨.unchanged _ rfl fun _ _ => rfl, .bare rfl (bare_plain .ok)⟩
      · rename_i hinuse
        simp only [Outcome.bind_iff, outcome_setFcb]
        refine (outcome_flush h req.fileNo.toNat).post (fun _ w₁ hw => ?_)
        have hdisk := h.setsize req.fileNo.toNat 0 w₁.disk
        rw [outcome_onDisk]
        have hacts : ∀ w' : World σ, w'.fss = w₁.fss →
            w'.disk = (svr.setsize req.fileNo.toNat 0 w₁.disk).2 →
            Acts files .delete uid (some req.fileNo.toNat) w w' := by
          intro w' hfss hd
          refine .set { w.fss.fcbCache req.fileNo.toNat with stAlloc := false }
            (by rw [hfss, hw.fss]; rfl) (fun i h0 hi => ?_)
            (.delete (by simpa using hinuse) (by simpa using hallow) rfl)
          rw [hd, hdisk i hi, hw.disk i h0]
        cases (svr.setsize req.fileNo.toNat 0 w₁.disk).1 with
        | true =>
          refine ⟨hacts _ rfl rfl, .bare ?_ (bare_plain .ok)⟩
          dsimp only
          rw [hw.outbox]
        | false =>
          refine ⟨hacts _ rfl rfl, .twice ?_⟩
          dsimp only
          rw [hw.outbox, List.append_assoc]
          rfl

theorem chown_acts (h : Independent svr files) :
    Outcome (doChown svr env req src uid)
      (fun _ w' => Acts files .chown uid (some req.fileNo.toNat) w w' ∧
        Discreet files src uid req w w') E w := by
  unfold doChown
  simp only [Outcome.bind_iff, Outcome.get_iff]
  split
  · exact refused _
  · rename_i hbad
    split
    · exact refused _
    · rename_i huid
      simp only [Outcome.bind_iff, outcome_setFcb, outcome_send]
      refine (outcome_flush h req.fileNo.toNat).post (fun _ w' hw => ⟨?_, ?_⟩)
      · exact .set _ (congrArg FileServerState.fcbCache hw.fss) (fun i hi _ => hw.disk i hi)
          (.chown (badInode_false.mp hbad).2 (not_not.mp huid) (fun h0 => hw.disk _ h0) rfl)
      · exact .bare (by rw [hw.outbox]) (bare_plain .ok)

theorem chmod_acts (h : Independent svr files) :
    Outcome (doChmod svr env req src uid)
      (fun _ w' => Acts files .chmod uid (some req.fileNo.toNat) w w' ∧
        Discreet files src uid req w w') E w := by
  unfold doChmod
  simp only [Outcome.bind_iff, Outcome.get_iff]
  split
  · exact refused _
  · rename_i hbad
    split
    · exact refused _
    · rename_i huid
      have hallow : uid = 0 ∨ uid = (w.fss.fcbCache req.fileNo.toNat).stUid := by
        rw [not_and_or, not_not, not_not] at huid
        exact huid
      simp only [Outcome.bind_iff, outcome_setFcb, outcome_send]
      refine (outcome_flush h req.fileNo.toNat).post (fun _ w' hw => ⟨?_, ?_⟩)
      · exact .set _ (congrArg FileServerState.fcbCache hw.fss) (fun i hi _ => hw.disk i hi)
          (.chmod (badInode_false.mp hbad).2 hallow (fun h0 => hw.disk _ h0) rfl)
      · exact .bare (by rw [hw.outbox]) (bare_plain .ok)

/-- Size and time are set in a control block, after the blocks of its file may have changed. -/
theorem stored_acts {f : Nat} {w₁ : World σ} (h : Independent svr files)
    (hop : op = .write ∨ op = .setsize) (hinuse : (w.fss.fcbCache f).stAlloc = true)
    (hallow : writeAllowed (w.fss.fcbCache f) uid = true)
    (hfss : ∃ fcb, w₁.fss = w.fss.setFcb f fcb ∧ fcb = { w.fss.fcbCache f with
      stSize := fcb.stSize
      stModtime := fcb.stModtime })
    (hdisk : ∀ i, i ≠ f → files w₁.disk i = files w.disk i) :
    Outcome (flushFcbCache svr env f)
      (fun _ w' => Acts files op uid (some f) w w' ∧ w'.outbox = w₁.outbox) E w₁ := by
  obtain ⟨fcb, hfcb, hrest⟩ := hfss
  refine (outcome_flush h f).post (fun _ w' hw => ⟨?_, hw.outbox⟩)
  refine .set fcb ?_ (fun i h0 hi => (hw.disk i h0).trans (hdisk i hi))
    (.store hop hinuse hallow hrest)
  rw [hw.fss, hfcb]
  rfl

theorem Beside.acts {f : Nat} (h : Beside files f w w')
    (hinuse : (w.fss.fcbCache f).stAlloc = true)
    (hallow : writeAllowed (w.fss.fcbCache f) uid = true) : Acts files .write uid (some f) w w' :=
  .set (w.fss.fcbCache f) (by rw [h.fss, Function.update_eq_self]) (fun i _ hi => h.disk i hi)
    (.store (.inl rfl) hinuse hallow rfl)

theorem put_acts {f : Nat} {offset : BitVec 64} {data : List Byte} {size : BitVec 32}
    (h : Independent svr files) (hinuse : (w.fss.fcbCache f).stAlloc = true)
    (hallow : writeAllowed (w.fss.fcbCache f) uid = true) :
    Outcome (put svr env f offset data size)
      (fun _ w' => Acts files .write uid (some f) w w' ∧ w'.outbox = w.outbox) E w := by
  have hcontents : ∀ (startBlockNo : BitVec 64) (psizeNblock : BitVec 32),
      Outcome (putContents svr f (w.fss.fcbCache f).stSize startBlockNo psizeNblock)
        (fun _ w' => Beside files f w w') E w := by
    intro startBlockNo psizeNblock
    unfold putContents
    split
    · exact ⟨rfl, rfl, fun _ _ => rfl⟩
    · split
      · exact ⟨rfl, rfl, fun _ _ => rfl⟩
      · simp only [Outcome.bind_iff, outcome_onDisk, Outcome.pure_iff]
        exact ⟨rfl, rfl, fun i _ => congrFun (multiblockReadLoop_stored h f _ _ _ _ _).1 i⟩
  unfold put
  simp only [Outcome.bind_iff, Outcome.get_iff]
  refine (hcontents _ _).post (fun r w₁ hw => ?_)
  cases r with
  | none => exact ⟨hw.acts hinuse hallow, hw.outbox⟩
  | some contents =>
    obtain ⟨fss, s, outbox⟩ := w₁
    obtain rfl : fss = w.fss := hw.fss
    have hdisk : ∀ nblocks i, i ≠ f → files (multiblockWrite svr f
        ((offset / BitVec.ofNat 64 blockSize).setWidth 32).toNat
        (overlay contents (offset.toNat % blockSize) data) nblocks s).2 i = files w.disk i :=
      fun nblocks i hi => (multiblockWriteLoop_other h f _ _ hi).trans (hw.disk i hi)
    dsimp only
    rw [Outcome.bind_iff, outcome_onDisk]
    split
    · simp only [Outcome.bind_iff, outcome_setFcb, Outcome.pure_iff]
      refine Outcome.post (stored_acts h (.inl rfl) hinuse hallow ?_ ?_) (fun _ w' hw' => ?_)
      · exact ⟨_, rfl, rfl⟩
      · exact hdisk _
      · exact ⟨hw'.1, hw'.2.trans hw.outbox⟩
    · exact ⟨Beside.acts ⟨rfl, hw.outbox, hdisk _⟩ hinuse hallow, hw.outbox⟩

theorem write_acts (h : Independent svr files) (data : List Byte) :
    Outcome (doWrite svr env req data src uid)
      (fun _ w' => Acts files .write uid (some req.fileNo.toNat) w w' ∧
        Discreet files src uid req w w') E w := by
  unfold doWrite
  simp only [Outcome.bind_iff, Outcome.get_iff]
  split
  · exact refused _
  · rename_i hbad
    have hinuse := (badInode_false.mp hbad).2
    split
    · exact refused _
    · split
      · exact refused _
      · rename_i hallow
        rw [Outcome.bind_iff]
        refine (put_acts h hinuse (by simpa using hallow)).post (fun r w' hw => ?_)
        split
        · exact ⟨⟨hw.1.others, hw.1.licence⟩, .bare (congrArg (· ++ _) hw.2) (bare_plain .ok)⟩
        · exact ⟨⟨hw.1.others, hw.1.licence⟩, .bare (congrArg (· ++ _) hw.2) (bare_plain .error)⟩

theorem setsize_acts (h : Independent svr files) :
    Outcome (doSetsize svr env req src uid)
      (fun _ w' => Acts files .setsize uid (some req.fileNo.toNat) w w' ∧
        Discreet files src uid req w w') E w := by
  unfold doSetsize
  simp only [Outcome.bind_iff, Outcome.get_iff]
  split
  · exact refused _
  · rename_i hbad
    have hinuse := (badInode_false.mp hbad).2
    split
    · exact refused _
    · split
      · exact refused _
      · rename_i hallow
        have hdisk := h.setsize req.fileNo.toNat (finalNblock req.offset).toNat w.disk
        rw [Outcome.bind_iff, outcome_onDisk]
        split
        · simp only [Outcome.bind_iff, outcome_setFcb, outcome_respond]
          refine Outcome.post (stored_acts h (.inr rfl) hinuse (by simpa using hallow) ?_ ?_)
            (fun _ w' hw => ?_)
          · exact ⟨_, rfl, rfl⟩
          · exact hdisk
          · exact ⟨⟨hw.1.others, hw.1.licence⟩, .bare (congrArg (· ++ _) hw.2) (bare_plain .ok)⟩
        · simp only [Outcome.bind_iff, outcome_setFcb, outcome_respond]
          refine Outcome.post (stored_acts h (.inr rfl) hinuse (by simpa using hallow) ?_ ?_)
            (fun _ w' hw => ?_)
          · exact ⟨_, rfl, rfl⟩
          · exact hdisk
          · refine ⟨⟨hw.1.others, hw.1.licence⟩, .twice ?_⟩
            dsimp only
            rw [hw.2, List.append_assoc]
            rfl

theorem sync_acts (h : Independent svr files) :
    Outcome (doSync svr req src)
      (fun _ w' => Acts files .sync uid (some req.fileNo.toNat) w w' ∧
        Discreet files src uid req w w') E w := by
  have hsync := h.sync req.fileNo.toNat w.disk
  unfold doSync
  simp only [Outcome.bind_iff, Outcome.get_iff]
  split
  · exact refused _
  · rw [Outcome.bind_iff, outcome_onDisk]
    split
    · exact ⟨.unchanged _ rfl fun i _ => congrFun hsync i, .bare rfl (bare_plain .ok)⟩
    · exact ⟨.unchanged _ rfl fun i _ => congrFun hsync i, .bare rfl (bare_plain .error)⟩

theorem stat_acts :
    Outcome (doStat req src uid)
      (fun _ w' => Acts files .stat uid (some req.fileNo.toNat) w w' ∧
        Discreet files src uid req w w') E w := by
  unfold doStat
  simp only [Outcome.bind_iff, Outcome.get_iff]
  split
  · exact refused _
  · rename_i hbad
    split
    · exact refused _
    · rename_i hallow
      refine ⟨.unchanged _ rfl fun _ _ => rfl, _, rfl, fun r hr => .inr ?_⟩
      rw [List.mem_singleton.mp hr]
      exact ⟨rfl, (badInode_false.mp hbad).2, by simpa using hallow,
        fun i hi => absurd hi (Nat.not_lt_zero i), .inl rfl⟩

/-- The bytes of a read lie in the blocks that it reads. -/
theorem read_inside {stSize offset : BitVec 64} (size : BitVec 32) {i : Nat}
    (hoff : offset < stSize) (hi : i < (readLength stSize offset size).toNat) :
    (offset.toNat % blockSize + i) / blockSize <
      (readNblock offset (readLength stSize offset size)).toNat := by
  have hlt : offset.toNat < stSize.toNat := hoff
  have hs := stSize.isLt
  have hle : (readLength stSize offset size).toNat ≤ stSize.toNat - offset.toNat := by
    have hn : ((stSize - offset).setWidth 32).toNat ≤ stSize.toNat - offset.toNat := by
      rw [BitVec.toNat_setWidth, BitVec.toNat_sub_of_le (BitVec.le_def.mpr hlt.le)]
      exact Nat.mod_le _ _
    unfold readLength
    dsimp only
    split
    · rename_i hsize
      exact le_trans hsize.le hn
    · exact hn
  have hlt32 := (readLength stSize offset size).isLt
  generalize (readLength stSize offset size) = n at hi hle hlt32 ⊢
  rw [readNblock_toNat]
  unfold blockSize
  omega

/-- The bytes of a read are those from its offset on, up to the 32 bits of a block number. -/
theorem byte_from (data : Nat → Block) (offset : BitVec 64) (i : Nat) :
    data ((((offset / BitVec.ofNat 64 blockSize).setWidth 32).toNat +
        (offset.toNat % blockSize + i) / blockSize) % 2 ^ 32)
        ⟨(offset.toNat % blockSize + i) % blockSize, mod_blockSize_lt _⟩ =
      data ((offset.toNat + i) / blockSize % 2 ^ 32)
        ⟨(offset.toNat + i) % blockSize, mod_blockSize_lt _⟩ := by
  have hblock : (((offset / BitVec.ofNat 64 blockSize).setWidth 32).toNat +
      (offset.toNat % blockSize + i) / blockSize) % 2 ^ 32 =
      (offset.toNat + i) / blockSize % 2 ^ 32 := by
    rw [BitVec.toNat_setWidth, BitVec.toNat_udiv,
      show (BitVec.ofNat 64 blockSize).toNat = blockSize from rfl]
    unfold blockSize
    omega
  have hbyte : (offset.toNat % blockSize + i) % blockSize = (offset.toNat + i) % blockSize := by
    unfold blockSize
    omega
  simp only [hblock, hbyte]

theorem read_acts (h : Independent svr files) :
    Outcome (doRead svr env req src uid)
      (fun _ w' => Acts files .read uid (some req.fileNo.toNat) w w' ∧
        Discreet files src uid req w w')
      (fun _ w' => Acts files .read uid (some req.fileNo.toNat) w w' ∧
        Discreet files src uid req w w') w := by
  unfold doRead
  simp only [Outcome.bind_iff, Outcome.get_iff]
  split
  · exact refused _
  · rename_i hbad
    split
    · exact refused _
    · rename_i hallow
      have hempty : Outcome (send src (readReply []))
          (fun _ w' => Acts files .read uid (some req.fileNo.toNat) w w' ∧
            Discreet files src uid req w w') (fun _ w' =>
              Acts files .read uid (some req.fileNo.toNat) w w' ∧
                Discreet files src uid req w w') w :=
        ⟨.unchanged _ rfl fun _ _ => rfl, .bare rfl ⟨rfl, rfl⟩⟩
      split
      · exact hempty
      · split
        · rename_i hoff
          rw [Outcome.bind_iff, outcome_onDisk]
          have hinside := fun i => read_inside (i := i) req.size hoff
          obtain ⟨hfiles, hstored⟩ := multiblockReadLoop_stored h req.fileNo.toNat
            ((req.offset / BitVec.ofNat 64 blockSize).setWidth 32).toNat
            (readNblock req.offset (readLength (w.fss.fcbCache req.fileNo.toNat).stSize
              req.offset req.size)).toNat 0 env.heap w.disk
          rw [show multiblockReadLoop svr req.fileNo.toNat _ 0 env.heap _ =
            multiblockRead svr req.fileNo.toNat _ env.heap _ from rfl] at hfiles hstored
          have hacts : ∀ outbox, Acts files .read uid (some req.fileNo.toNat) w ⟨w.fss,
              (multiblockRead svr req.fileNo.toNat
                ((req.offset / BitVec.ofNat 64 blockSize).setWidth 32).toNat env.heap
                (readNblock req.offset (readLength (w.fss.fcbCache req.fileNo.toNat).stSize
                  req.offset req.size)).toNat w.disk).2, outbox⟩ :=
            fun _ => .unchanged _ rfl fun i _ => congrFun hfiles i
          split
          · exact ⟨hacts _, .bare rfl (bare_plain .error)⟩
          · rename_i count contents hread
            split
            · exact ⟨hacts _, .none rfl⟩
            · split
              · exact ⟨hacts _, .bare rfl (bare_plain .error)⟩
              · rename_i hcount
                refine ⟨hacts _, _, rfl, fun r hr => .inr ?_⟩
                rw [List.mem_singleton.mp hr]
                refine ⟨rfl, (badInode_false.mp hbad).2, by simpa using hallow, fun i hi => ?_, .inr rfl⟩
                have hin := hinside i (by simpa [readReply, FileReply.plain] using hi)
                have hbyte := (hstored count contents hread).2 (req.offset.toNat % blockSize + i)
                rw [if_pos ⟨Nat.zero_le _, by omega⟩] at hbyte
                simp only [readReply, FileReply.plain, List.getElem_map, List.getElem_range, hbyte]
                exact byte_from _ _ _
        · exact hempty

/-- The file number that a request acts on. -/
def target (w : World σ) (req : FileRequest) : Option Nat :=
  if req.type = .create then freeFile w.fss else some req.fileNo.toNat

/-- One request acts on one file number, for a reason, and is discreet. -/
theorem serve_acts (h : Independent svr files) (env : Env) (msg : Message) (w : World σ)
    {req : FileRequest} (hreq : msg.request = some req) :
    Outcome (serve svr env msg)
      (fun _ w' => Acts files req.type msg.uid (target w req) w w' ∧
        Discreet files msg.src msg.uid req w w')
      (fun _ w' => Acts files req.type msg.uid (target w req) w w' ∧
        Discreet files msg.src msg.uid req w w') w := by
  unfold serve target
  rw [hreq]
  dsimp only
  cases htype : req.type with
  | create => exact create_acts h
  | delete => exact delete_acts h
  | chown => exact chown_acts h
  | chmod => exact chmod_acts h
  | read => exact read_acts h
  | write => exact write_acts h _
  | sync => exact sync_acts h
  | stat => exact stat_acts
  | setsize => exact setsize_acts h
  | unused => exact ⟨.unchanged _ rfl fun _ _ => rfl, .none rfl⟩
  | setFlags => exact ⟨.unchanged _ rfl fun _ _ => rfl, .none rfl⟩

end Effects

section Rules

variable {uid : BitVec 32} {fcb fcb' : FileControlBlock} {kept : Prop} {op : FileOp}

theorem Licence.written (h : Licence uid fcb fcb' kept op) (ha : fcb.stAlloc = true)
    (hc : ¬kept ∨ fcb'.stSize ≠ fcb.stSize ∨ fcb'.stAlloc ≠ fcb.stAlloc) :
    writeAllowed fcb uid = true := by
  cases h with
  | same hrest hk =>
    rw [hrest] at hc
    exact absurd hc (by simp [hk])
  | create hfree =>
    rw [hfree] at ha
    cases ha
  | delete _ hallow => exact hallow
  | store _ _ hallow => exact hallow
  | chown _ _ hk hrest =>
    rw [hrest] at hc
    exact absurd hc (by simp [hk])
  | chmod _ _ hk hrest =>
    rw [hrest] at hc
    exact absurd hc (by simp [hk])

theorem Licence.mode (h : Licence uid fcb fcb' kept op) (ha : fcb.stAlloc = true) (hu : uid ≠ 0)
    (hc : fcb'.stMode ≠ fcb.stMode) : uid = fcb.stUid := by
  cases h with
  | same hrest => exact absurd (by rw [hrest]) hc
  | create hfree =>
    rw [hfree] at ha
    cases ha
  | delete _ _ hrest => exact absurd (by rw [hrest]) hc
  | store _ _ _ hrest => exact absurd (by rw [hrest]) hc
  | chown _ hroot => exact absurd hroot hu
  | chmod _ hallow => exact hallow.resolve_left hu

theorem Licence.owner (h : Licence uid fcb fcb' kept op) (ha : fcb.stAlloc = true) (hu : uid ≠ 0) :
    fcb'.stUid = fcb.stUid := by
  cases h with
  | same hrest => rw [hrest]
  | create hfree =>
    rw [hfree] at ha
    cases ha
  | delete _ _ hrest => rw [hrest]
  | store _ _ _ hrest => rw [hrest]
  | chown _ hroot => exact absurd hroot hu
  | chmod _ _ _ hrest => rw [hrest]

/-- A free file number stays as it is until it is taken. -/
theorem Licence.free (h : Licence uid fcb fcb' kept op) (ha : fcb.stAlloc = false)
    (ha' : fcb'.stAlloc = false) : fcb' = fcb ∧ kept := by
  have hnot : ¬fcb.stAlloc = true := by
    rw [ha]
    exact Bool.false_ne_true
  cases h with
  | same hrest hk => exact ⟨hrest, hk⟩
  | create _ htaken =>
    rw [htaken] at ha'
    cases ha'
  | delete hinuse => exact absurd hinuse hnot
  | store _ hinuse => exact absurd hinuse hnot
  | chown hinuse => exact absurd hinuse hnot
  | chmod hinuse => exact absurd hinuse hnot

end Rules

theorem Acts.permitted {msg : Message} {req : FileRequest} {w w' : World σ}
    (hreq : msg.request = some req) (ha : Acts files req.type msg.uid (target w req) w w')
    (hd : Discreet files msg.src msg.uid req w w') : Permitted files w msg w' := by
  have hlicence : ∀ f, Changed files w w' f → Licence msg.uid (w.fss.fcbCache f)
      (w'.fss.fcbCache f) (f ≠ 0 → files w'.disk f = files w.disk f) req.type := by
    intro f hf
    by_cases ht : target w req = some f
    · exact ha.licence f ht
    · exact absurd hf (ha.others f ht)
  have hfcb : ∀ f, w'.fss.fcbCache f ≠ w.fss.fcbCache f → Changed files w w' f := fun f => .inl
  refine ⟨fun f halloc hu hc => ?_, fun f halloc hu hc => ?_, fun f halloc hu => ?_,
    fun req' hreq' htype f hf => ?_, fun f hf => ?_, ?_⟩
  · rw [← writeAllowed_iff hu]
    rcases hc with hc | hc
    · exact (hlicence f (.inr hc)).written halloc (.inl fun hk => hc.2 (hk hc.1))
    · refine (hlicence f (hfcb f fun he => ?_)).written halloc (.inr hc)
      rw [he] at hc
      exact hc.elim (fun hn => hn rfl) (fun hn => hn rfl)
  · exact (hlicence f (hfcb f fun he => hc (by rw [he]))).mode halloc hu hc
  · by_cases he : w'.fss.fcbCache f = w.fss.fcbCache f
    · rw [he]
    · exact (hlicence f (hfcb f he)).owner halloc hu
  · obtain rfl := Option.some.inj (hreq.symm.trans hreq')
    have hfree : ∀ g, Changed files w w' g → freeFile w.fss = some g := by
      intro g hg
      by_contra hne
      refine ha.others g ?_ hg
      rwa [target, if_pos htype]
    refine ⟨firstFree_free (hfree f hf), fun g hg => ?_⟩
    exact Option.some.inj ((hfree g hg).symm.trans (hfree f hf))
  · refine ⟨req, hreq, ?_⟩
    by_contra hne
    rw [not_or] at hne
    refine ha.others f ?_ hf
    rw [target, if_neg hne.1]
    exact fun he => hne.2 (Option.some.inj he).symm
  · obtain ⟨sent, hsent, hall⟩ := hd
    refine ⟨sent, hsent, fun r hr => (hall r hr).imp_right ?_⟩
    rintro ⟨hdst, halloc, hread, htells⟩
    exact ⟨req, hreq, hdst, halloc, fun hu => (readAllowed_iff hu).mp hread, htells⟩

theorem serve_permitted (h : Independent svr files) (env : Env) (msg : Message) (w : World σ) :
    Outcome (serve svr env msg) (fun _ w' => Permitted files w msg w')
      (fun _ w' => Permitted files w msg w') w := by
  cases hreq : msg.request with
  | none =>
    have hnone : ∀ f, ¬Changed files w w f := fun f => not_changed rfl fun _ => rfl
    unfold serve
    rw [hreq]
    refine ⟨fun f _ _ hc => ?_, fun f _ _ hc => absurd rfl hc, fun f _ _ => rfl,
      fun _ _ _ f hf => absurd hf (hnone f), fun f hf => absurd hf (hnone f), [], ?_, ?_⟩
    · rcases hc with hc | hc | hc
      · exact absurd rfl hc.2
      · exact absurd rfl hc
      · exact absurd rfl hc
    · exact (List.append_nil _).symm
    · exact fun r hr => absurd hr List.not_mem_nil
  | some req =>
    refine (serve_acts h env msg w hreq).mono (fun _ w' hw => ?_) (fun _ w' hw => ?_)
    · exact hw.1.permitted hreq hw.2
    · exact hw.1.permitted hreq hw.2

/-- Along every sequence of requests each one keeps the rules. -/
theorem requests_permitted (h : Independent svr files) (msgs : List (Env × Message))
    (w : World σ) : Along svr (fun w m w' => Permitted files w m.2 w') msgs w :=
  Along.of_step (fun w m => serve_permitted h m.1 m.2 w) msgs w

theorem sparse_independent : Independent sparse (fun files => files) where
  read _ _ _ := rfl
  returned ino offset s block h := by
    change (s ino).read offset = some block at h
    unfold SparseFile.read at h
    split at h
    · exact (Option.some.inj h).symm
    · cases h
  sync _ _ := rfl
  setsize _ _ _ _ hi := Function.update_of_ne hi _ _
  write _ _ _ _ _ hi := Function.update_of_ne hi _ _

/-- A user creates a file for others to read, and another user reads it and tries to write. -/
theorem requests_permitted_two :
    Along sparse (fun w m w' => Permitted (fun files => files) w m.2 w')
      [(testEnv, ⟨9, 7, some ⟨.create, 0, 0, 0, 0, 0xd⟩, []⟩),
        (testEnv, ⟨9, 7, some ⟨.write, 1, 0, 1, 0, 0⟩, [65]⟩),
        (testEnv, ⟨9, 8, some ⟨.read, 1, 0, 4, 0, 0⟩, []⟩),
        (testEnv, ⟨9, 8, some ⟨.write, 1, 0, 1, 0, 0⟩, [66]⟩)]
      (newDisk 0 0 4) :=
  requests_permitted sparse_independent _ _

end Egos.File
