import Egos.File.Ranges

/-!
# One reply for each request

Over a block server whose calls can fail, every request is answered with exactly one reply to
its sender, except where it is `Unanswered`: a deletion or a truncation goes on after it has
reported that the block server refused it, and reports success as well.
-/
namespace Egos.File

open Egos.Lib Egos.Disk Bfs

set_option autoImplicit false

/-- So many replies have been sent, all of them to `src`. -/
def Replies (src : BitVec 32) (n : Nat) (w w' : World FaultyDisk) : Prop :=
  ∃ sent, w'.outbox = w.outbox ++ sent ∧ sent.length = n ∧ ∀ r ∈ sent, r.1 = src

/-- A read finds more blocks than its buffer has room for. -/
structure Overruns (fails : Faults) (w : World FaultyDisk) (req : FileRequest)
    (uid : BitVec 32) : Prop where
  inode : ¬badInode w.fss req.fileNo.toNat
  allowed : readAllowed (w.fss.fcbCache req.fileNo.toNat) uid
  size : req.size ≠ 0
  offset : req.offset < (w.fss.fcbCache req.fileNo.toNat).stSize
  nblock : 2 ^ 22 ≤ (readNblock req.offset
    (readLength (w.fss.fcbCache req.fileNo.toNat).stSize req.offset req.size)).toNat
  blocks : ∀ j, j ≤ (readNblock req.offset
      (readLength (w.fss.fcbCache req.fileNo.toNat).stSize req.offset req.size)).toNat - 2 ^ 22 →
    readFault fails w.disk req.fileNo.toNat (writeStart req.offset) j = false

/-- The requests that are answered with two replies, or with none. -/
inductive Unanswered (fails : Faults) (w : World FaultyDisk) (msg : Message) : Prop
  /-- The server has an assertion against the message. -/
  | malformed (bad : Malformed msg)
  | delete (f : Nat) (req : FileRequest) (asks : Asks .delete f msg req)
      (file : ¬badInode w.fss f) (allowed : writeAllowed (w.fss.fcbCache f) msg.uid)
      (fault : fails .setsize (w.disk.calls .setsize))
  | setsize (f : Nat) (req : FileRequest) (asks : Asks .setsize f msg req)
      (file : ¬badInode w.fss f) (size : ¬(w.fss.fcbCache f).stSize < req.offset)
      (allowed : writeAllowed (w.fss.fcbCache f) msg.uid)
      (fault : fails .setsize (w.disk.calls .setsize))
  | overrun (f : Nat) (req : FileRequest) (asks : Asks .read f msg req)
      (overruns : Overruns fails w req msg.uid)

/-- The first faults decide how many calls succeed. -/
theorem lt_passing_iff {fails : Nat → Bool} {n left k : Nat} :
    k < passing fails n left ↔ k < left ∧ ∀ j, j ≤ k → fails (n + j) = false := by
  induction left generalizing n k with
  | zero => simp [passing]
  | succ left ih =>
    unfold passing
    split
    · rename_i hf
      constructor
      · exact fun h => absurd h (Nat.not_lt_zero _)
      · intro h
        have hzero := h.2 0 (Nat.zero_le _)
        rw [Nat.add_zero, hf] at hzero
        cases hzero
    · rename_i hf
      have hfirst : fails n = false := Bool.not_eq_true _ ▸ hf
      cases k with
      | zero =>
        refine ⟨fun _ => ⟨Nat.succ_pos _, fun j hj => ?_⟩, fun _ => Nat.succ_pos _⟩
        rw [Nat.le_zero.mp hj]
        exact hfirst
      | succ k =>
        rw [Nat.succ_lt_succ_iff, Nat.succ_lt_succ_iff, ih]
        refine and_congr_right fun _ => ⟨fun h j hj => ?_, fun h j hj => ?_⟩
        · cases j with
          | zero => exact hfirst
          | succ j =>
            rw [show n + (j + 1) = n + 1 + j by omega]
            exact h j (Nat.le_of_succ_le_succ hj)
        · rw [show n + 1 + j = n + (j + 1) by omega]
          exact h (j + 1) (Nat.succ_le_succ hj)

section Handlers

variable {fails : Faults} {env : Env} {req : FileRequest} {src uid : BitVec 32}
  {w : World FaultyDisk} {E : Stop → World FaultyDisk → Prop}

theorem Replies.sent {w' w'' : World FaultyDisk} {rep : FileReply}
    (hout : w'.outbox = w.outbox) (hsent : w''.outbox = w'.outbox ++ [(src, rep)]) :
    Replies src 1 w w'' :=
  ⟨[(src, rep)], by rw [hsent, hout], rfl, fun _ hr => by rw [List.mem_singleton.mp hr]⟩

theorem Replies.twice {w' w'' : World FaultyDisk} {rep rep' : FileReply}
    (hout : w'.outbox = w.outbox)
    (hsent : w''.outbox = w'.outbox ++ [(src, rep)] ++ [(src, rep')]) : Replies src 2 w w'' := by
  refine ⟨[(src, rep), (src, rep')], by rw [hsent, hout, List.append_assoc]; rfl, rfl, ?_⟩
  intro r hr
  obtain rfl | hr := List.mem_cons.mp hr
  · rfl
  · rw [List.mem_singleton.mp hr]

theorem respond_replies (status : FileStatus) (data : List Byte) :
    Outcome (respond status data src) (fun _ w' => Replies src 1 w w') E w :=
  .sent rfl rfl

theorem create_replies :
    Outcome (doCreate (faulty fails) env req src uid) (fun _ w' => Replies src 1 w w') E w := by
  unfold doCreate
  simp only [Outcome.bind_iff, Outcome.get_iff]
  cases freeFile w.fss with
  | none => exact respond_replies _ _
  | some g =>
    simp only [Outcome.bind_iff, outcome_setFcb, outcome_send]
    exact (outcome_flush (faulty_independent fails) g).post fun _ _ hw => .sent hw.outbox rfl

/-- A deletion whose truncation fails is answered twice. -/
theorem delete_replies :
    Outcome (doDelete (faulty fails) env req src uid)
      (fun _ w' => Replies src (if ¬badInode w.fss req.fileNo.toNat ∧
        writeAllowed (w.fss.fcbCache req.fileNo.toNat) uid ∧
          fails .setsize (w.disk.calls .setsize) then 2 else 1) w w') E w := by
  unfold doDelete
  simp only [Outcome.bind_iff, Outcome.get_iff]
  split
  · rename_i hlt
    rw [if_neg (fun h => absurd (badInode_false.mp h.1).1 (Nat.not_lt_of_le hlt))]
    exact respond_replies _ _
  · rename_i hlt
    split
    · rename_i hallow
      rw [if_neg (fun h => by simp [h.2.1] at hallow)]
      exact respond_replies _ _
    · rename_i hallow
      split
      · rename_i hfree
        rw [if_neg (fun h => by simp [(badInode_false.mp h.1).2] at hfree)]
        exact .sent rfl rfl
      · rename_i hinuse
        have hfile : ¬badInode w.fss req.fileNo.toNat :=
          badInode_false.mpr ⟨Nat.lt_of_not_le hlt, by simpa using hinuse⟩
        simp only [Outcome.bind_iff, outcome_setFcb]
        refine ((outcome_flush (faulty_independent fails) req.fileNo.toNat).both
          (outcome_flush_calls (E := E) req.fileNo.toNat)).mono (fun _ w₁ hw => ?_)
            (fun _ _ he => he.1)
        obtain ⟨hbeside, hcalls⟩ := hw
        dsimp only at hcalls
        rw [outcome_onDisk, ← hcalls]
        cases hf : fails .setsize (w₁.disk.calls .setsize) with
        | true =>
          have hfailed : ((faulty fails).setsize req.fileNo.toNat 0 w₁.disk).1 = false :=
            congrArg Prod.fst (attempt_failed false (sparse.setsize req.fileNo.toNat 0) hf)
          rw [if_neg (by rw [hfailed]; decide), if_pos ⟨hfile, by simpa using hallow, rfl⟩]
          exact .twice hbeside.outbox rfl
        | false =>
          have hok : ((faulty fails).setsize req.fileNo.toNat 0 w₁.disk).1 = true :=
            congrArg Prod.fst (attempt_passed false (sparse.setsize req.fileNo.toNat 0) hf)
          rw [if_pos hok, if_neg (fun h => Bool.false_ne_true h.2.2)]
          exact .sent hbeside.outbox rfl

theorem chown_replies :
    Outcome (doChown (faulty fails) env req src uid) (fun _ w' => Replies src 1 w w') E w := by
  unfold doChown
  simp only [Outcome.bind_iff, Outcome.get_iff]
  split
  · exact respond_replies _ _
  · split
    · exact respond_replies _ _
    · simp only [Outcome.bind_iff, outcome_setFcb, outcome_send]
      exact (outcome_flush (faulty_independent fails) req.fileNo.toNat).post
        fun _ _ hw => .sent hw.outbox rfl

theorem chmod_replies :
    Outcome (doChmod (faulty fails) env req src uid) (fun _ w' => Replies src 1 w w') E w := by
  unfold doChmod
  simp only [Outcome.bind_iff, Outcome.get_iff]
  split
  · exact respond_replies _ _
  · split
    · exact respond_replies _ _
    · simp only [Outcome.bind_iff, outcome_setFcb, outcome_send]
      exact (outcome_flush (faulty_independent fails) req.fileNo.toNat).post
        fun _ _ hw => .sent hw.outbox rfl

/-- The blocks that a read of a faulty block server finds. -/
theorem readRoom_lt_iff {n count : Nat} {nblock : BitVec 32} (hn : nblock.toNat = n)
    (hle : n ≤ 2 ^ 22 + 1) (hcount : count ≤ n) :
    (nblock * BitVec.ofNat 32 blockSize).toNat < count * blockSize ↔
      2 ^ 22 ≤ n ∧ n - 2 ^ 22 < count := by
  rw [readRoom (by omega), hn]
  unfold blockSize
  split <;> omega

theorem read_replies :
    Outcome (doRead (faulty fails) env req src uid)
      (fun _ w' => ¬Overruns fails w req uid ∧ Replies src 1 w w')
      (fun _ _ => Overruns fails w req uid) w := by
  unfold doRead
  simp only [Outcome.bind_iff, Outcome.get_iff]
  split
  · rename_i hbad
    exact ⟨fun h => h.inode hbad, .sent rfl rfl⟩
  · rename_i hbad
    split
    · rename_i hallow
      exact ⟨fun h => by simp [h.allowed] at hallow, .sent rfl rfl⟩
    · rename_i hallow
      split
      · rename_i hsize
        exact ⟨fun h => h.size hsize, .sent rfl rfl⟩
      · rename_i hsize
        split
        · rename_i hoff
          obtain ⟨hcount, -⟩ := faulty_read fails req.fileNo.toNat (writeStart req.offset) env.heap
            (readNblock req.offset (readLength (w.fss.fcbCache req.fileNo.toNat).stSize req.offset
              req.size)).toNat w.disk
          have hle := readNblock_le req.offset
            (readLength (w.fss.fcbCache req.fileNo.toNat).stSize req.offset req.size)
          rw [Outcome.bind_iff, outcome_onDisk,
            show ((req.offset / BitVec.ofNat 64 blockSize).setWidth 32).toNat =
              writeStart req.offset from rfl]
          split
          · rename_i hnone
            refine ⟨fun h => ?_, .sent rfl rfl⟩
            have hfirst := h.blocks 0 (Nat.zero_le _)
            rw [hnone, if_neg (fun hf => by simp [hfirst] at hf)] at hcount
            cases hcount
          · rename_i count contents hsome
            have hpassed : count = passing (readFault fails w.disk req.fileNo.toNat
                (writeStart req.offset)) 0 (readNblock req.offset
                  (readLength (w.fss.fcbCache req.fileNo.toNat).stSize req.offset
                    req.size)).toNat := by
              rw [hsome] at hcount
              split at hcount
              · cases hcount
              · exact Option.some.inj hcount
            have hover := readRoom_lt_iff rfl hle (hpassed.le.trans (passing_le _ _ _))
            rw [hpassed, lt_passing_iff] at hover
            split
            · rename_i hroom
              rw [hpassed] at hroom
              obtain ⟨hmany, -, hblocks⟩ := hover.mp hroom
              exact ⟨hbad, by simpa using hallow, hsize, hoff, hmany, fun j hj => by
                simpa using hblocks j hj⟩
            · rename_i hroom
              rw [hpassed] at hroom
              have hnot : ¬Overruns fails w req uid := fun h => by
                have hmany := h.nblock
                exact hroom (hover.mpr ⟨hmany, by omega, fun j hj => by
                  simpa using h.blocks j hj⟩)
              split
              · exact ⟨hnot, .sent rfl rfl⟩
              · exact ⟨hnot, .sent rfl rfl⟩
        · rename_i hoff
          exact ⟨fun h => hoff h.offset, .sent rfl rfl⟩

theorem put_outbox {f : Nat} {offset : BitVec 64} {data : List Byte} {size : BitVec 32} :
    Outcome (put (faulty fails) env f offset data size)
      (fun _ w' => w'.outbox = w.outbox) E w := by
  unfold put
  simp only [Outcome.bind_iff, Outcome.get_iff]
  refine (faulty_putContents f offset size).post (fun r w₁ hw => ?_)
  cases r with
  | none => exact hw.2.1
  | some contents =>
    rw [Outcome.bind_iff, outcome_onDisk]
    split
    · simp only [Outcome.bind_iff, outcome_setFcb, Outcome.pure_iff]
      exact (outcome_flush (faulty_independent fails) f).post fun _ _ hf => hf.outbox.trans hw.2.1
    · exact hw.2.1

theorem write_replies (data : List Byte) :
    Outcome (doWrite (faulty fails) env req data src uid) (fun _ w' => Replies src 1 w w') E w := by
  unfold doWrite
  simp only [Outcome.bind_iff, Outcome.get_iff]
  split
  · exact respond_replies _ _
  · split
    · exact respond_replies _ _
    · split
      · exact respond_replies _ _
      · rw [Outcome.bind_iff]
        refine put_outbox.post (fun r w' hw => ?_)
        split
        · exact .sent hw rfl
        · exact .sent hw rfl

theorem sync_replies :
    Outcome (doSync (faulty fails) req src) (fun _ w' => Replies src 1 w w') E w := by
  unfold doSync
  simp only [Outcome.bind_iff, Outcome.get_iff]
  split
  · exact respond_replies _ _
  · rw [Outcome.bind_iff, outcome_onDisk]
    split
    · exact .sent rfl rfl
    · exact .sent rfl rfl

theorem stat_replies :
    Outcome (doStat req src uid) (fun _ w' => Replies src 1 w w') E w := by
  unfold doStat
  simp only [Outcome.bind_iff, Outcome.get_iff]
  split
  · exact respond_replies _ _
  · split
    · exact respond_replies _ _
    · exact .sent rfl rfl

/-- A truncation that fails is answered twice. -/
theorem setsize_replies :
    Outcome (doSetsize (faulty fails) env req src uid)
      (fun _ w' => Replies src (if ¬badInode w.fss req.fileNo.toNat ∧
        ¬(w.fss.fcbCache req.fileNo.toNat).stSize < req.offset ∧
        writeAllowed (w.fss.fcbCache req.fileNo.toNat) uid ∧
          fails .setsize (w.disk.calls .setsize) then 2 else 1) w w') E w := by
  unfold doSetsize
  simp only [Outcome.bind_iff, Outcome.get_iff]
  split
  · rename_i hbad
    rw [if_neg (fun h => h.1 hbad)]
    exact respond_replies _ _
  · rename_i hbad
    split
    · rename_i hsize
      rw [if_neg (fun h => h.2.1 hsize)]
      exact respond_replies _ _
    · rename_i hsize
      split
      · rename_i hallow
        rw [if_neg (fun h => by simp [h.2.2.1] at hallow)]
        exact respond_replies _ _
      · rename_i hallow
        rw [Outcome.bind_iff, outcome_onDisk]
        cases hf : fails .setsize (w.disk.calls .setsize) with
        | true =>
          have hfailed : ((faulty fails).setsize req.fileNo.toNat (finalNblock req.offset).toNat
              w.disk).1 = false :=
            congrArg Prod.fst (attempt_failed false
              (sparse.setsize req.fileNo.toNat (finalNblock req.offset).toNat) hf)
          rw [if_neg (by rw [hfailed]; decide), if_pos ⟨hbad, hsize, by simpa using hallow, rfl⟩]
          simp only [Outcome.bind_iff, outcome_setFcb, outcome_respond]
          refine (outcome_flush (faulty_independent fails) req.fileNo.toNat).post fun _ w' hw => ?_
          refine ⟨[(src, .plain .error []), (src, .plain .ok [])], ?_, rfl, by simp⟩
          change w'.outbox ++ [(src, .plain .ok [])] = _
          rw [hw.outbox]
          exact List.append_assoc _ _ _
        | false =>
          have hok : ((faulty fails).setsize req.fileNo.toNat (finalNblock req.offset).toNat
              w.disk).1 = true :=
            congrArg Prod.fst (attempt_passed false
              (sparse.setsize req.fileNo.toNat (finalNblock req.offset).toNat) hf)
          rw [if_pos hok, if_neg (fun h => Bool.false_ne_true h.2.2.2)]
          simp only [Outcome.bind_iff, outcome_setFcb, outcome_respond]
          exact (outcome_flush (faulty_independent fails) req.fileNo.toNat).post
            fun _ _ hw => .sent hw.outbox rfl

end Handlers

theorem unanswered_iff {fails : Faults} {w : World FaultyDisk} {msg : Message} {req : FileRequest}
    (hreq : msg.request = some req) : Unanswered fails w msg ↔
      match req.type with
      | .unused | .setFlags => True
      | .delete => ¬badInode w.fss req.fileNo.toNat ∧
          writeAllowed (w.fss.fcbCache req.fileNo.toNat) msg.uid ∧
            fails .setsize (w.disk.calls .setsize)
      | .setsize => ¬badInode w.fss req.fileNo.toNat ∧
          ¬(w.fss.fcbCache req.fileNo.toNat).stSize < req.offset ∧
            writeAllowed (w.fss.fcbCache req.fileNo.toNat) msg.uid ∧
              fails .setsize (w.disk.calls .setsize)
      | .read => Overruns fails w req msg.uid
      | _ => False := by
  constructor
  · intro h
    cases h with
    | malformed bad =>
      obtain ht | ht := bad req hreq <;> rw [ht] <;> trivial
    | delete f req' asks file allowed fault =>
      obtain ⟨hreq', hop, rfl⟩ := asks
      cases hreq.symm.trans hreq'
      rw [hop]
      exact ⟨file, allowed, fault⟩
    | setsize f req' asks file size allowed fault =>
      obtain ⟨hreq', hop, rfl⟩ := asks
      cases hreq.symm.trans hreq'
      rw [hop]
      exact ⟨file, size, allowed, fault⟩
    | overrun f req' asks overruns =>
      obtain ⟨hreq', hop, rfl⟩ := asks
      cases hreq.symm.trans hreq'
      rw [hop]
      exact overruns
  · intro h
    cases ht : req.type with
    | unused | setFlags =>
      refine .malformed fun req' hreq' => ?_
      cases hreq.symm.trans hreq'
      simp [ht]
    | delete =>
      rw [ht] at h
      exact .delete _ req ⟨hreq, ht, rfl⟩ h.1 h.2.1 h.2.2
    | setsize =>
      rw [ht] at h
      exact .setsize _ req ⟨hreq, ht, rfl⟩ h.1 h.2.1 h.2.2.1 h.2.2.2
    | read =>
      rw [ht] at h
      exact .overrun _ req ⟨hreq, ht, rfl⟩ h
    | create | chown | chmod | write | stat | sync =>
      rw [ht] at h
      exact h.elim

/-- The server sends one reply to the sender of the request, and otherwise two or stops. -/
theorem serve_replies {fails : Faults} {env : Env} {msg : Message} {w : World FaultyDisk} :
    Outcome (serve (faulty fails) env msg)
      (fun _ w' => ¬Unanswered fails w msg ∧ Replies msg.src 1 w w' ∨
        Unanswered fails w msg ∧ Replies msg.src 2 w w')
      (fun _ _ => Unanswered fails w msg) w := by
  unfold serve
  cases hreq : msg.request with
  | none => exact .malformed fun req h => absurd (hreq.symm.trans h) (by simp)
  | some req =>
    have hiff : Unanswered fails w msg ↔ _ := unanswered_iff hreq
    dsimp only
    cases ht : req.type with
    | unused | setFlags =>
      rw [ht] at hiff
      exact hiff.mpr trivial
    | create =>
      rw [ht] at hiff
      exact create_replies.post fun _ _ hw => .inl ⟨hiff.mp, hw⟩
    | chown =>
      rw [ht] at hiff
      exact chown_replies.post fun _ _ hw => .inl ⟨hiff.mp, hw⟩
    | chmod =>
      rw [ht] at hiff
      exact chmod_replies.post fun _ _ hw => .inl ⟨hiff.mp, hw⟩
    | write =>
      rw [ht] at hiff
      exact (write_replies _).post fun _ _ hw => .inl ⟨hiff.mp, hw⟩
    | stat =>
      rw [ht] at hiff
      exact stat_replies.post fun _ _ hw => .inl ⟨hiff.mp, hw⟩
    | sync =>
      rw [ht] at hiff
      exact sync_replies.post fun _ _ hw => .inl ⟨hiff.mp, hw⟩
    | read =>
      rw [ht] at hiff
      refine read_replies.mono (fun _ _ hw => .inl ?_) fun _ _ hover => hiff.mpr hover
      exact ⟨fun hu => hw.1 (hiff.mp hu), hw.2⟩
    | delete =>
      rw [ht] at hiff
      refine delete_replies.post fun _ _ hw => ?_
      split at hw
      · rename_i hcond
        exact .inr ⟨hiff.mpr hcond, hw⟩
      · rename_i hcond
        exact .inl ⟨fun hu => hcond (hiff.mp hu), hw⟩
    | setsize =>
      rw [ht] at hiff
      refine setsize_replies.post fun _ _ hw => ?_
      split at hw
      · rename_i hcond
        exact .inr ⟨hiff.mpr hcond, hw⟩
      · rename_i hcond
        exact .inl ⟨fun hu => hcond (hiff.mp hu), hw⟩

end Egos.File
