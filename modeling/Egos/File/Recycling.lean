import Egos.File.Access

/-!
# File numbers that are used again

A creation takes a free file number and leaves the size in its control block as it is, and a
deletion leaves it there as well. The inode of a free number is empty, so a new file is as
an empty one if and only if its number was left with size 0.
-/
namespace Egos.File

open Egos.Lib Egos.Disk Bfs

set_option autoImplicit false

/-- A file without bytes and without blocks. -/
structure IsEmpty (w : World (Files Block)) (f : Nat) : Prop where
  size : (w.fss.fcbCache f).stSize = 0
  blocks : w.disk f = .empty fun _ => 0

/-- The world in which this file is empty. -/
def emptied (w : World (Files Block)) (f : Nat) : World (Files Block) :=
  { w with
    fss := w.fss.setFcb f { w.fss.fcbCache f with stSize := 0 }
    disk := Function.update w.disk f (.empty fun _ => 0) }

theorem IsEmpty.emptied_eq {w : World (Files Block)} {f : Nat} (h : IsEmpty w f) :
    emptied w f = w := by
  have hfcb : ({ w.fss.fcbCache f with stSize := 0 } : FileControlBlock) = w.fss.fcbCache f := by
    rw [← h.size]
  unfold emptied FileServerState.setFcb
  rw [hfcb, ← h.blocks, Function.update_eq_self, Function.update_eq_self]

/-- Free file numbers have empty inodes. -/
def Vacant (w : World (Files Block)) : Prop :=
  ∀ f, f ≠ 0 → (w.fss.fcbCache f).stAlloc = false → w.disk f = .empty fun _ => 0

/-- What a client sees of an empty file: no size, no bytes, and writes that are taken and
leave what they leave of an empty file. -/
structure AsEmpty (w : World (Files Block)) (f : Nat) : Prop where
  stat : ∀ env msg req, Asks .stat f msg req → ¬badInode w.fss f →
    readAllowed (w.fss.fcbCache f) msg.uid →
    ∃ w' rep, serve sparse env msg w = .ok () w' ∧ w'.outbox = w.outbox ++ [(msg.src, rep)] ∧
      rep.status = .ok ∧ rep.fcb.stSize = 0
  read : ∀ env msg req, Asks .read f msg req →
    ∃ w' rep, serve sparse env msg w = .ok () w' ∧ w'.outbox = w.outbox ++ [(msg.src, rep)] ∧
      rep.data = [] ∧
      (¬badInode w.fss f → readAllowed (w.fss.fcbCache f) msg.uid → rep.status = .ok)
  write : ∀ env msg req, Asks .write f msg req → ¬badInode w.fss f →
    writeAllowed (w.fss.fcbCache f) msg.uid →
    req.size = BitVec.ofNat 32 (msg.payload.take fileMaxMsgSize).length →
    ∃ w₁ w₂, serve sparse env msg w = .ok () w₁ ∧ serve sparse env msg (emptied w f) = .ok () w₂ ∧
      w₁.outbox = w.outbox ++ [(msg.src, .plain .ok [])] ∧
      w₁.fss.fcbCache f = w₂.fss.fcbCache f ∧ w₁.disk f = w₂.disk f

section Requests

variable {env : Env} {req : FileRequest} {src uid : BitVec 32} {w : World (Files Block)}

theorem setsize_zero (ino : Nat) (files : Files Block) :
    (sparse.setsize ino 0 files).2 ino = .empty fun _ => 0 := by
  change Function.update files ino _ ino = _
  rw [Function.update_self]
  rfl

theorem delete_empties :
    Outcome (doDelete sparse env req src uid)
      (fun _ w' => (w.fss.fcbCache req.fileNo.toNat).stAlloc = true →
        (w'.fss.fcbCache req.fileNo.toNat).stAlloc = false →
        w'.disk req.fileNo.toNat = .empty fun _ => 0) (fun _ _ => False) w := by
  have hkept : (w.fss.fcbCache req.fileNo.toNat).stAlloc = true →
      (w.fss.fcbCache req.fileNo.toNat).stAlloc = false →
      w.disk req.fileNo.toNat = .empty fun _ => 0 := by
    intro hinuse hfree
    rw [hinuse] at hfree
    cases hfree
  unfold doDelete
  simp only [Outcome.bind_iff, Outcome.get_iff]
  split
  · exact hkept
  · split
    · exact hkept
    · split
      · exact hkept
      · rename_i hlt _ _
        have hn := w.fss.numFcbs.isLt
        simp only [Outcome.bind_iff, outcome_setFcb, outcome_onDisk,
          outcome_flushFcbCache (show req.fileNo.toNat < 2 ^ 32 by omega)]
        exact fun _ _ => setsize_zero _ _

/-- An empty file can only be truncated to nothing. -/
theorem setsize_keeps_empty (h0 : req.fileNo.toNat ≠ 0) (h : IsEmpty w req.fileNo.toNat) :
    Outcome (doSetsize sparse env req src uid) (fun _ w' => IsEmpty w' req.fileNo.toNat)
      (fun _ _ => False) w := by
  unfold doSetsize
  simp only [Outcome.bind_iff, Outcome.get_iff]
  split
  · exact ⟨h.size, h.blocks⟩
  · split
    · exact ⟨h.size, h.blocks⟩
    · split
      · exact ⟨h.size, h.blocks⟩
      · rename_i hbad hle _
        have hlt := (badInode_false.mp hbad).1
        have hn := w.fss.numFcbs.isLt
        have hzero : req.offset = 0 := by
          rw [h.size] at hle
          exact BitVec.eq_of_toNat_eq (Nat.eq_zero_of_le_zero (Nat.le_of_not_lt hle))
        have hok : (sparse.setsize req.fileNo.toNat (finalNblock req.offset).toNat w.disk).1 = true :=
          rfl
        rw [Outcome.bind_iff, outcome_onDisk, if_pos hok]
        simp only [Outcome.bind_iff, outcome_setFcb, outcome_respond,
          outcome_flushFcbCache (show req.fileNo.toNat < 2 ^ 32 by omega)]
        constructor
        · change (Function.update w.fss.fcbCache req.fileNo.toNat _ req.fileNo.toNat).stSize = 0
          rw [Function.update_self]
          exact hzero
        · change flushed _ _ _ _ _ = _
          rw [flushed_other _ _ _ _ h0, hzero]
          exact setsize_zero _ _

end Requests

section Steps

variable {env : Env} {msg : Message} {w w' : World (Files Block)} {f : Nat}

theorem serve_delete_empties {req : FileRequest} (h : Asks .delete f msg req)
    (hrun : serve sparse env msg w = .ok () w') (hinuse : (w.fss.fcbCache f).stAlloc = true)
    (hfree : (w'.fss.fcbCache f).stAlloc = false) : w'.disk f = .empty fun _ => 0 := by
  obtain ⟨hreq, hop, rfl⟩ := h
  unfold serve at hrun
  simp only [hreq, hop] at hrun
  exact delete_empties.ok hrun hinuse hfree

theorem serve_setsize_keeps_empty {req : FileRequest} (h0 : f ≠ 0) (h : Asks .setsize f msg req)
    (hrun : serve sparse env msg w = .ok () w') (hempty : IsEmpty w f) : IsEmpty w' f := by
  obtain ⟨hreq, hop, rfl⟩ := h
  unfold serve at hrun
  simp only [hreq, hop] at hrun
  exact (setsize_keeps_empty h0 hempty).ok hrun

/-- A request leaves a file alone, or acts on it with a licence. -/
theorem serve_licence (hrun : serve sparse env msg w = .ok () w') (f : Nat) :
    (w'.fss.fcbCache f = w.fss.fcbCache f ∧ (f ≠ 0 → w'.disk f = w.disk f)) ∨
      ∃ req, msg.request = some req ∧ target w req = some f ∧
        Licence msg.uid (w.fss.fcbCache f) (w'.fss.fcbCache f)
          (f ≠ 0 → w'.disk f = w.disk f) req.type := by
  cases hreq : msg.request with
  | none =>
    unfold serve at hrun
    rw [hreq] at hrun
    cases hrun
  | some req =>
    obtain ⟨hacts, -⟩ := (serve_acts sparse_independent env msg w hreq).ok hrun
    by_cases ht : target w req = some f
    · exact .inr ⟨req, rfl, ht, hacts.licence f ht⟩
    · have hsame := hacts.others f ht
      unfold Changed at hsame
      rw [not_or, not_and, not_not, not_not] at hsame
      exact .inl hsame

theorem target_named {req : FileRequest} (hreq : msg.request = some req)
    (ht : target w req = some f) (hop : req.type ≠ .create) : Asks req.type f msg req := by
  refine ⟨hreq, rfl, ?_⟩
  rw [target, if_neg hop] at ht
  exact Option.some.inj ht

theorem Vacant.step (h : Vacant w) (hrun : serve sparse env msg w = .ok () w') : Vacant w' := by
  intro f h0 hfree
  obtain hsame | ⟨req, hreq, ht, hl⟩ := serve_licence hrun f
  · rw [hsame.2 h0]
    exact h f h0 (by rw [← hsame.1]; exact hfree)
  · cases hinuse : (w.fss.fcbCache f).stAlloc with
    | false => rw [(hl.free hinuse hfree).2 h0, h f h0 hinuse]
    | true =>
      -- only a deletion frees a number
      have hop : req.type = .delete := by
        generalize req.type = op at hl
        cases hl with
        | same hrest => rw [hrest, hinuse] at hfree; cases hfree
        | create hfree' => rw [hinuse] at hfree'; cases hfree'
        | delete => rfl
        | store _ _ _ hrest => rw [hrest, hinuse] at hfree; cases hfree
        | chown _ _ _ hrest => rw [hrest, hinuse] at hfree; cases hfree
        | chmod _ _ _ hrest => rw [hrest, hinuse] at hfree; cases hfree
      have hasks := target_named hreq ht (by rw [hop]; decide)
      rw [hop] at hasks
      exact serve_delete_empties hasks hrun hinuse hfree

theorem IsEmpty.step (h : IsEmpty w f) (h0 : f ≠ 0) (hno : ¬∃ req, Asks .write f msg req)
    (hrun : serve sparse env msg w = .ok () w') : IsEmpty w' f := by
  obtain hsame | ⟨req, hreq, ht, hl⟩ := serve_licence hrun f
  · exact ⟨by rw [hsame.1, h.size], by rw [hsame.2 h0, h.blocks]⟩
  · have hasks := target_named hreq ht
    generalize hop : req.type = op at hl hasks
    cases hl with
    | same hrest hk => exact ⟨by rw [hrest, h.size], by rw [hk h0, h.blocks]⟩
    | create _ _ hsize hk => exact ⟨by rw [hsize, h.size], by rw [hk h0, h.blocks]⟩
    | delete hinuse _ hrest =>
      have hblocks := serve_delete_empties (hasks (by decide)) hrun hinuse (by rw [hrest])
      exact ⟨by rw [hrest]; exact h.size, hblocks⟩
    | store hop' =>
      rcases hop' with rfl | rfl
      · exact absurd ⟨req, hasks (by decide)⟩ hno
      · exact serve_setsize_keeps_empty h0 (hasks (by decide)) hrun h
    | chown _ _ hk hrest => exact ⟨by rw [hrest]; exact h.size, by rw [hk h0, h.blocks]⟩
    | chmod _ _ hk hrest => exact ⟨by rw [hrest]; exact h.size, by rw [hk h0, h.blocks]⟩

end Steps

section Clients

variable {w : World (Files Block)} {f : Nat}

/-- To its clients an empty file is one. -/
theorem IsEmpty.asEmpty (h : IsEmpty w f) (h0 : f ≠ 0) : AsEmpty w f where
  stat env msg req hasks hfile hallow := by
    obtain ⟨hreq, hop, rfl⟩ := hasks
    suffices hout : Outcome (serve sparse env msg)
        (fun _ w' => ∃ rep, w'.outbox = w.outbox ++ [(msg.src, rep)] ∧ rep.status = .ok ∧
          rep.fcb.stSize = 0) (fun _ _ => False) w by
      obtain ⟨_, w', hrun, rep, hrep⟩ := hout.exists_ok
      exact ⟨w', rep, hrun, hrep⟩
    unfold serve
    simp only [hreq, hop]
    unfold doStat
    simp only [Outcome.bind_iff, Outcome.get_iff]
    rw [if_neg hfile, if_neg (by simp [hallow])]
    exact ⟨_, rfl, rfl, h.size⟩
  read env msg req hasks := by
    obtain ⟨hreq, hop, rfl⟩ := hasks
    suffices hout : Outcome (serve sparse env msg)
        (fun _ w' => ∃ rep, w'.outbox = w.outbox ++ [(msg.src, rep)] ∧ rep.data = [] ∧
          (¬badInode w.fss req.fileNo.toNat →
            readAllowed (w.fss.fcbCache req.fileNo.toNat) msg.uid → rep.status = .ok))
        (fun _ _ => False) w by
      obtain ⟨_, w', hrun, rep, hrep⟩ := hout.exists_ok
      exact ⟨w', rep, hrun, hrep⟩
    unfold serve
    simp only [hreq, hop]
    unfold doRead
    simp only [Outcome.bind_iff, Outcome.get_iff]
    split
    · rename_i hbad
      exact ⟨_, rfl, rfl, fun hfile => absurd hbad hfile⟩
    · split
      · rename_i hdenied
        exact ⟨_, rfl, rfl, fun _ hallow => absurd hdenied (by simp [hallow])⟩
      · split
        · exact ⟨_, rfl, rfl, fun _ _ => rfl⟩
        · have hend : ¬req.offset < (w.fss.fcbCache req.fileNo.toNat).stSize := by
            rw [h.size]
            exact Nat.not_lt_zero _
          rw [if_neg hend]
          exact ⟨_, rfl, rfl, fun _ _ => rfl⟩
  write env msg req hasks hfile hallow hsize := by
    obtain ⟨hreq, hop, rfl⟩ := hasks
    obtain ⟨hlt, hinuse⟩ := badInode_false.mp hfile
    suffices hout : Outcome (serve sparse env msg)
        (fun _ w' => w'.outbox = w.outbox ++ [(msg.src, .plain .ok [])]) (fun _ _ => False) w by
      obtain ⟨_, w', hrun, hrep⟩ := hout.exists_ok
      exact ⟨w', w', hrun, by rw [h.emptied_eq, hrun], hrep, rfl, rfl⟩
    unfold serve
    simp only [hreq, hop]
    unfold doWrite
    simp only [Outcome.bind_iff, Outcome.get_iff]
    rw [if_neg hfile, if_neg (not_not_intro hsize), if_neg (by simp [hallow]), Outcome.bind_iff]
    refine ((outcome_put h0 hlt).both (put_acts (E := fun _ _ => True) sparse_independent hinuse
      hallow)).mono (fun r w' hw => ?_) (fun _ _ hw => hw.1)
    obtain ⟨hput, -, hout⟩ := hw
    rcases hput with ⟨-, hfails, -⟩ | ⟨hr, -⟩
    · exact absurd h.size hfails.nonempty
    · rw [if_pos hr]
      exact congrArg (· ++ _) hout

end Clients

/-- The answer to a creation names the number that it took, with its size left as it was. -/
theorem create_takes {env : Env} {req : FileRequest} {src uid : BitVec 32}
    {w : World (Files Block)} (f : BitVec 32) :
    Outcome (doCreate sparse env req src uid)
      (fun _ w' => w'.outbox = w.outbox ++
          [(src, { FileReply.plain .ok [] with fileNo := f })] →
        freeFile w.fss = some f.toNat ∧ ¬badInode w'.fss f.toNat ∧
          (w'.fss.fcbCache f.toNat).stSize = (w.fss.fcbCache f.toNat).stSize ∧
          w'.disk f.toNat = w.disk f.toNat) (fun _ _ => False) w := by
  unfold doCreate
  simp only [Outcome.bind_iff, Outcome.get_iff]
  cases hfree : freeFile w.fss with
  | none =>
    intro hout
    have hreply := List.append_cancel_left hout
    injection hreply with hhead
    injection hhead with _ hrep
    cases congrArg FileReply.status hrep
  | some g =>
    have hlt := freeFile_lt hfree
    have hn := w.fss.numFcbs.isLt
    simp only [Outcome.bind_iff, outcome_setFcb, outcome_send,
      outcome_flushFcbCache (show g < 2 ^ 32 by omega)]
    intro hout
    have hreply := List.append_cancel_left hout
    injection hreply with hhead
    injection hhead with _ hrep
    have hg : BitVec.ofNat 32 g = f := congrArg FileReply.fileNo hrep
    have hf : f.toNat = g := by
      rw [← hg, BitVec.toNat_ofNat]
      exact Nat.mod_eq_of_lt (by omega)
    rw [hf]
    have hfcb : ∀ fcb, Function.update w.fss.fcbCache g fcb g = fcb :=
      fun _ => Function.update_self ..
    refine ⟨rfl, badInode_false.mpr ⟨hlt.2, ?_⟩, ?_, flushed_other _ _ _ _ hlt.1⟩
    · change (Function.update w.fss.fcbCache g _ g).stAlloc = true
      rw [hfcb]
    · change (Function.update w.fss.fcbCache g _ g).stSize = _
      rw [hfcb]

/-- A new server has no files, and its inodes but the table are empty. -/
theorem boot_vacant {globalTime : BitVec 64} {startTime numFcbs : BitVec 32} {env : Env}
    {w : World (Files Block)}
    (hboot : boot sparse env (newDisk globalTime startTime numFcbs) = .ok () w) : Vacant w := by
  rw [boot_newDisk globalTime startTime env (boot_pos hboot)] at hboot
  suffices hout : Outcome (flushStatCacheAll sparse env) (fun _ w => Vacant w)
      (fun _ _ => False) (installed globalTime startTime numFcbs) from hout.ok hboot
  unfold flushStatCacheAll
  simp only [Outcome.bind_iff, Outcome.get_iff, outcome_onDisk, Outcome.pure_iff]
  exact fun f hf _ => (multiblockWrite_frame 0 0 _ _ _).2 f hf

/-- **When a new file is empty.** A server that began with an empty block store has served
any requests, and then creates a file with number `f`. Whatever it serves before the file is
written, the file looks empty, if and only if the number was left with size 0. -/
theorem created_file_empty_iff {globalTime : BitVec 64} {startTime numFcbs : BitVec 32}
    {env₀ env : Env} {msgs : List (Env × Message)} {msg : Message} {req : FileRequest}
    {w₀ w w' : World (Files Block)} {f : BitVec 32}
    (hboot : boot sparse env₀ (newDisk globalTime startTime numFcbs) = .ok () w₀)
    (hmsgs : serveAll sparse msgs w₀ = .ok () w)
    (hreq : msg.request = some req) (hop : req.type = .create)
    (hcreate : serve sparse env msg w = .ok () w')
    (hok : w'.outbox = w.outbox ++ [(msg.src, { FileReply.plain .ok [] with fileNo := f })]) :
    (∀ mid w'', (∀ m ∈ mid, ¬∃ req, Asks .write f.toNat m.2 req) →
      serveAll sparse mid w' = .ok () w'' → AsEmpty w'' f.toNat) ↔
      (w.fss.fcbCache f.toNat).stSize = 0 := by
  have hvacant : Vacant w := serveAll_keeps (fun _ _ _ _ hv hs => hv.step hs)
    (boot_vacant hboot) hmsgs
  have hserve : serve sparse env msg w = doCreate sparse env req msg.src msg.uid w := by
    unfold serve
    simp only [hreq, hop]
  obtain ⟨hfree, hfile, hsize, hblocks⟩ := (create_takes f).ok (hserve ▸ hcreate) hok
  have h0 := (freeFile_lt hfree).1
  constructor
  · intro hempty
    have hstat := (hempty [] w' (fun m hm => absurd hm List.not_mem_nil) rfl).stat env
      ⟨0, 0, some ⟨.stat, f, 0, 0, 0, 0⟩, []⟩ _ ⟨rfl, rfl, rfl⟩ hfile rfl
    obtain ⟨w'', rep, hrun, hout, -, hzero⟩ := hstat
    have hreply : Outcome (serve sparse env ⟨0, 0, some ⟨.stat, f, 0, 0, 0, 0⟩, []⟩)
        (fun _ w'' => w''.outbox = w'.outbox ++ [(0, { FileReply.plain .ok [] with
          op := .stat, fcb := w'.fss.fcbCache f.toNat })]) (fun _ _ => False) w' := by
      unfold serve doStat
      simp only [Outcome.bind_iff, Outcome.get_iff]
      rw [if_neg hfile]
      rfl
    have hsame := List.append_cancel_left ((hreply.ok hrun).symm.trans hout)
    injection hsame with hhead
    injection hhead with _ hrep
    rw [← hsize, ← hzero, ← hrep]
  · intro hzero mid w'' hno hrun
    have hempty : IsEmpty w' f.toNat :=
      ⟨hsize.trans hzero, hblocks.trans (hvacant _ h0 (firstFree_free hfree))⟩
    have hlater : IsEmpty w'' f.toNat :=
      serveAll_keeps (P := fun w => IsEmpty w f.toNat)
        (fun m hm _ _ h₁ hs => h₁.step h0 (hno m hm) hs) hempty hrun
    exact hlater.asEmpty h0

/-- A file is written, cut to nothing and deleted. -/
def earlierLife : List (Env × Message) :=
  [testRequest .create 0 0 [], testRequest .write 1 0 [1, 2, 3], testRequest .setsize 1 0 [],
    testRequest .delete 1 0 []]

theorem created_file_empty_iff_first :
    ∃ w₀ w w', boot sparse testEnv (newDisk 0 0 4) = .ok () w₀ ∧
      serveAll sparse earlierLife w₀ = .ok () w ∧
      serve sparse testEnv (testRequest .create 0 0 []).2 w = .ok () w' ∧
      ∀ mid w'', (∀ m ∈ mid, ¬∃ req, Asks .write 1 m.2 req) →
        serveAll sparse mid w' = .ok () w'' → AsEmpty w'' 1 := by
  have hboot : boot sparse testEnv (newDisk 0 0 4) = _ := eq_ok_of_returned (a := ()) (by
    decide +kernel)
  have hmsgs : serveAll sparse earlierLife (final (boot sparse testEnv (newDisk 0 0 4))) = _ :=
    eq_ok_of_returned (a := ()) (by decide +kernel)
  have hcreate : serve sparse testEnv (testRequest .create 0 0 []).2
      (final (serveAll sparse earlierLife (final (boot sparse testEnv (newDisk 0 0 4))))) = _ :=
    eq_ok_of_returned (a := ()) (by decide +kernel)
  have hok : (final (serve sparse testEnv (testRequest .create 0 0 []).2
      (final (serveAll sparse earlierLife (final (boot sparse testEnv (newDisk 0 0 4))))))).outbox =
        (final (serveAll sparse earlierLife (final (boot sparse testEnv (newDisk 0 0 4))))).outbox ++
          [(9, { FileReply.plain .ok [] with fileNo := 1 })] := by
    decide +kernel
  have hsize : ((final (serveAll sparse earlierLife
      (final (boot sparse testEnv (newDisk 0 0 4))))).fss.fcbCache 1).stSize = 0 := by
    decide +kernel
  generalize final (boot sparse testEnv (newDisk 0 0 4)) = w₀ at hboot hmsgs hcreate hok hsize
  generalize final (serveAll sparse earlierLife w₀) = w at hmsgs hcreate hok hsize
  generalize final (serve sparse testEnv (testRequest .create 0 0 []).2 w) = w' at hcreate hok
  exact ⟨w₀, w, w', hboot, hmsgs, hcreate,
    (created_file_empty_iff hboot hmsgs rfl rfl hcreate hok).mpr hsize⟩

/-- A file of three bytes is deleted and its number is taken again: the new file has three
bytes, none of them can be read, and it cannot be written. -/
theorem recycled_file_not_empty :
    let run : EStateM Stop (World (Files Block)) Unit := do
      boot sparse testEnv
      serveAll sparse [testRequest .create 0 0 [], testRequest .write 1 0 [1, 2, 3],
        testRequest .delete 1 0 [], testRequest .create 0 0 [], testRequest .stat 1 0 [],
        testRequest .read 1 0 [0, 0, 0], testRequest .write 1 0 [4]]
    (final (run (newDisk 0 0 4))).outbox.map
        (fun r => (r.2.status, r.2.fileNo, r.2.fcb.stSize)) =
      [(.ok, 1, 0), (.ok, 0, 0), (.ok, 0, 0), (.ok, 1, 0), (.ok, 0, 3), (.error, 0, 0),
        (.error, 0, 0)] := by
  decide +kernel

end Egos.File
