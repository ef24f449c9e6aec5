import Egos.File.Recycling
import Egos.File.Truncation
import Mathlib.Data.BitVec

/-!
# The limits of the file server's numbers

Sizes and offsets have 64 bits, lengths and block numbers 32. A write that reaches position
`2 ^ 42` writes to blocks at the start of its file, and a read loses what its distance to the
end of the file has above 32 bits. `Unrepresented` lists the requests whose numbers are cut
off; all others do what they say.
-/
namespace Egos.File

open Egos.Lib Egos.Disk Bfs

set_option autoImplicit false

/-- The data is at its positions of the file, and nothing else has changed. -/
structure Writes (f offset : Nat) (data : List Byte) (w w' : World (Files Block)) : Prop where
  bytes : ∀ k, byteAt (w'.disk f).data k = overlay (byteAt (w.disk f).data) offset data k
  size : (w'.fss.fcbCache f).stSize.toNat =
    max (w.fss.fcbCache f).stSize.toNat (offset + data.length)
  present : ∀ k, offset ≤ k → k < offset + data.length → k / blockSize < (w'.disk f).size
  others : ∀ i, i ≠ f → w'.fss.fcbCache i = w.fss.fcbCache i ∧ (i ≠ 0 → w'.disk i = w.disk i)

/-- What a request was answered is what it has done. -/
structure Precise (w : World (Files Block)) (msg : Message) (w' : World (Files Block)) : Prop where
  read : ∀ f req rep, Asks .read f msg req → req.size ≠ 0 →
    w'.outbox = w.outbox ++ [(msg.src, rep)] → rep.status = .ok →
    rep = readReply (slice (byteAt (w.disk f).data) (w.fss.fcbCache f).stSize.toNat
      req.offset.toNat req.size.toNat)
  write : ∀ f req rep, Asks .write f msg req →
    w'.outbox = w.outbox ++ [(msg.src, rep)] → rep.status = .ok →
    (msg.payload.take fileMaxMsgSize).length = req.size.toNat ∧
      Writes f req.offset.toNat (msg.payload.take fileMaxMsgSize) w w'
  refused : ∀ f req, Asks .write f msg req → 2 ^ 42 ≤ req.offset.toNat + req.size.toNat →
    w'.outbox = w.outbox ++ [(msg.src, .plain .error [])]

/-- The requests whose numbers are cut off, and writes to the table, which the server writes
itself. -/
inductive Unrepresented (w : World (Files Block)) (msg : Message) : Prop
  /-- The number of the last block that is written has more than 32 bits. -/
  | far (f : Nat) (req : FileRequest) (carried : WriteCarried w f msg req)
      (range : 2 ^ 42 ≤ req.offset.toNat + req.size.toNat)
  /-- The server writes its control block after the data. -/
  | table (req : FileRequest) (asks : Asks .write 0 msg req) (file : ¬badInode w.fss 0)
      (size : req.size = BitVec.ofNat 32 (msg.payload.take fileMaxMsgSize).length)
      (allowed : writeAllowed (w.fss.fcbCache 0) msg.uid)
  /-- The distance to the end of the file has more than 32 bits, and the rest of it is less
  than what is asked for. -/
  | long (f : Nat) (req : FileRequest) (asks : Asks .read f msg req) (file : ¬badInode w.fss f)
      (allowed : readAllowed (w.fss.fcbCache f) msg.uid)
      (length : ((w.fss.fcbCache f).stSize.toNat - req.offset.toNat) % 2 ^ 32 <
        min req.size.toNat ((w.fss.fcbCache f).stSize.toNat - req.offset.toNat))
  /-- The blocks of a read do not fit into its buffer. -/
  | overflow (f : Nat) (req : FileRequest) (asks : Asks .read f msg req)
      (blocks : ReadOverflows w req msg.uid)

/-- A file that ends below the limit. -/
structure Within (w : World (Files Block)) (f : Nat) : Prop where
  size : (w.fss.fcbCache f).stSize.toNat < 2 ^ 42
  tidy : f ≠ 0 → Tidy (w.fss.fcbCache f).stSize.toNat (w.disk f)

def Bounded (w : World (Files Block)) : Prop := ∀ f, Within w f

section Files

variable {w w' : World (Files Block)} {f : Nat}

theorem Within.congr (h : Within w f)
    (hsize : (w'.fss.fcbCache f).stSize = (w.fss.fcbCache f).stSize)
    (hdisk : f ≠ 0 → w'.disk f = w.disk f) : Within w' f := by
  constructor
  · rw [hsize]
    exact h.size
  · intro h0
    rw [hsize, hdisk h0]
    exact h.tidy h0

theorem Tidy.empty (size : Nat) : Tidy size (.empty fun _ => 0) :=
  ⟨fun _ _ => rfl, fun _ _ => rfl⟩

section Stored

variable {env : Env} {offset : Nat} {data : List Byte} (h : Stored env f offset data w w')
  (hw : Within w f) (hrange : offset + data.length < 2 ^ 42)

include h hw hrange

theorem Stored.stSize : (w'.fss.fcbCache f).stSize.toNat =
    max (w.fss.fcbCache f).stSize.toNat (offset + data.length) := by
  have hbound := hw.size
  rw [h.fss]
  change (Function.update w.fss.fcbCache f _ f).stSize.toNat = _
  rw [Function.update_self, BitVec.toNat_ofNat]
  omega

theorem Stored.within (h0 : f ≠ 0) : Within w' f := by
  have htidy := hw.tidy h0
  have hbound := hw.size
  have hsize := h.stSize hw hrange
  have hblank : ∀ b, (∀ k, k / blockSize = b → offset + data.length ≤ k) →
      ((w.disk f).data b = fun _ => 0) → (w'.disk f).data b = fun _ => 0 := by
    intro b hbehind hb
    funext j
    have hdiv : (b * blockSize + j) / blockSize = b := by
      have hj : (j : Nat) < blockSize := j.isLt
      rw [Nat.mul_comm, Nat.mul_add_div (by decide), Nat.div_eq_of_lt hj, Nat.add_zero]
    rw [← byteAt_mul_add (w'.disk f).data b j, h.bytes,
      overlay_outside (.inr (hbehind _ hdiv)), byteAt_mul_add, hb]
  refine ⟨by omega, fun _ => ⟨fun b hb => ?_, fun b hb => ?_⟩⟩
  · rw [h.size] at hb
    apply hblank b
    · intro k hk
      unfold blockSize at *
      omega
    · exact htidy.blank b (by omega)
  · rw [hsize] at hb
    apply hblank b
    · intro k hk
      unfold blockSize at *
      omega
    · apply htidy.tail b
      unfold blockSize at *
      omega

theorem Stored.writes : Writes f offset data w w' where
  bytes := h.bytes
  size := h.stSize hw hrange
  present k _ hk := by
    rw [h.size]
    unfold blockSize at *
    omega
  others i hi := by
    constructor
    · rw [h.fss]
      exact Function.update_of_ne hi _ _
    · exact fun h0 => h.other i h0 hi

end Stored

end Files

section Requests

variable {env : Env} {req : FileRequest} {src uid : BitVec 32} {w : World (Files Block)}

theorem write_stores {data : List Byte} (hlen : (BitVec.ofNat 32 data.length).toNat = data.length)
    (hw : Within w req.fileNo.toNat)
    (hfar : ¬badInode w.fss req.fileNo.toNat → req.size = BitVec.ofNat 32 data.length →
      writeAllowed (w.fss.fcbCache req.fileNo.toNat) uid →
      req.fileNo.toNat ≠ 0 ∧ req.offset.toNat + req.size.toNat < 2 ^ 42) :
    Outcome (doWrite sparse env req data src uid)
      (fun _ w' =>
        w' = { w with outbox := w.outbox ++ [(src, .plain .error [])] } ∨
        ∃ w₁, w' = { w₁ with outbox := w₁.outbox ++ [(src, .plain .ok [])] } ∧
          data.length = req.size.toNat ∧ req.fileNo.toNat ≠ 0 ∧
          req.offset.toNat + data.length < 2 ^ 42 ∧
          Stored env req.fileNo.toNat req.offset.toNat data w w₁)
      (fun _ _ => False) w := by
  unfold doWrite
  simp only [Outcome.bind_iff, Outcome.get_iff]
  split
  · exact .inl rfl
  · split
    · exact .inl rfl
    · split
      · exact .inl rfl
      · rename_i hbad hsize hallow
        have hsize' : req.size = BitVec.ofNat 32 data.length := not_not.mp hsize
        obtain ⟨h0, hrange⟩ := hfar hbad hsize' (by simpa using hallow)
        rw [hsize', hlen] at hrange
        rw [Outcome.bind_iff]
        apply (outcome_put_bytes hw.size hlen hrange (hw.tidy h0) h0
          (badInode_false.mp hbad).1).post
        intro r w₁ hput
        rcases hput with ⟨hr, rfl, -⟩ | ⟨hr, hstored, -⟩
        · rw [if_neg (by rw [hr]; decide)]
          exact .inl rfl
        · rw [if_pos hr]
          exact .inr ⟨w₁, rfl, by rw [hsize', hlen], h0, hrange, hstored⟩

/-- A read that is answered with success returns the bytes of its range. -/
theorem read_returns (hw : Within w req.fileNo.toNat)
    (hlong : ¬badInode w.fss req.fileNo.toNat →
      readAllowed (w.fss.fcbCache req.fileNo.toNat) uid →
      min req.size.toNat
          ((w.fss.fcbCache req.fileNo.toNat).stSize.toNat - req.offset.toNat) ≤
        ((w.fss.fcbCache req.fileNo.toNat).stSize.toNat - req.offset.toNat) % 2 ^ 32) :
    Outcome (doRead sparse env req src uid)
      (fun _ w' => ∃ rep, w' = { w with outbox := w.outbox ++ [(src, rep)] } ∧
        (rep.status = .ok → rep = readReply (slice (byteAt (w.disk req.fileNo.toNat).data)
          (w.fss.fcbCache req.fileNo.toNat).stSize.toNat req.offset.toNat req.size.toNat)))
      (fun _ _ => True) w := by
  have hrefused : ∀ Q : FileReply → Prop, ∃ rep, ({ w with outbox := w.outbox ++
      [(src, FileReply.plain .error [])] } : World (Files Block)) =
        { w with outbox := w.outbox ++ [(src, rep)] } ∧ (rep.status = .ok → Q rep) :=
    fun Q => ⟨_, rfl, (by intro h; cases h)⟩
  have hsize := hw.size
  unfold doRead
  simp only [Outcome.bind_iff, Outcome.get_iff]
  split
  · exact hrefused _
  · split
    · exact hrefused _
    · rename_i hbad hallow
      have hlength := hlong hbad (by simpa using hallow)
      split
      · rename_i hzero
        rw [slice_nil (.inl (by rw [hzero]; rfl))]
        exact ⟨_, rfl, fun _ => rfl⟩
      · rename_i hzero
        have hpos : req.size.toNat ≠ 0 := fun h => hzero (BitVec.eq_of_toNat_eq h)
        split
        · rename_i hoff
          have hlt : req.offset.toNat < (w.fss.fcbCache req.fileNo.toNat).stSize.toNat := hoff
          have hn : (readLength (w.fss.fcbCache req.fileNo.toNat).stSize req.offset
              req.size).toNat = min req.size.toNat
                ((w.fss.fcbCache req.fileNo.toNat).stSize.toNat - req.offset.toNat) := by
            rw [readLength_toNat hlt]
            omega
          generalize readLength (w.fss.fcbCache req.fileNo.toNat).stSize req.offset req.size = n
            at hn ⊢
          have hnblock := readNblock_eq req.offset n (by omega) (by omega)
          have hstart := startBlock_toNat (show req.offset.toNat < 2 ^ 42 by omega)
          simp only [Outcome.bind_iff, outcome_onDisk]
          rw [hstart, multiblockRead_eq _ _ (by
            rw [hnblock]
            unfold blockSize
            omega)]
          split
          · exact hrefused _
          · rename_i hread
            split at hread
            · cases hread
            · obtain ⟨rfl, rfl⟩ := Prod.mk.inj (Option.some.inj hread)
              split
              · trivial
              · split
                · exact hrefused _
                · rename_i hcount
                  rw [readBlocks_slice (w.disk req.fileNo.toNat) env.heap hn hnblock
                    (not_not.mp hcount)]
                  exact ⟨_, rfl, fun _ => rfl⟩
        · rename_i hoff
          have hge : ¬req.offset.toNat < (w.fss.fcbCache req.fileNo.toNat).stSize.toNat := hoff
          rw [slice_nil (.inr (by omega))]
          exact ⟨_, rfl, fun _ => rfl⟩

theorem finalNblock_le (size : BitVec 64) :
    (finalNblock size).toNat ≤ if size.toNat = 0 then 0 else size.toNat / blockSize + 1 := by
  unfold finalNblock
  split
  · exact Nat.zero_le _
  · rename_i hz
    have hpos : size.toNat ≠ 0 := fun h0 => hz (BitVec.eq_of_toNat_eq h0)
    rw [if_neg hpos, BitVec.toNat_setWidth, BitVec.toNat_add, BitVec.toNat_udiv, toNat_blockSize64]
    have hone : (1 : BitVec 64).toNat = 1 := rfl
    have hmod := Nat.mod_le ((1 : BitVec 64).toNat + size.toNat / blockSize) (2 ^ 64)
    have hcut := Nat.mod_le (((1 : BitVec 64).toNat + size.toNat / blockSize) % 2 ^ 64) (2 ^ 32)
    omega

/-- Behind the blocks that a file is cut to there is nothing, also where their number wraps. -/
theorem Tidy.cut {size : BitVec 64} (file : SparseFile Block) :
    Tidy size.toNat ⟨(finalNblock size).toNat, fun b =>
      if b < (finalNblock size).toNat then file.data b else fun _ => 0⟩ := by
  have hle := finalNblock_le size
  constructor
  · intro b hb
    exact if_neg (Nat.not_lt.mpr hb)
  · intro b hb
    apply if_neg
    split at hle
    · omega
    · omega

theorem setsize_within (hw : Within w req.fileNo.toNat) :
    Outcome (doSetsize sparse env req src uid) (fun _ w' => Within w' req.fileNo.toNat)
      (fun _ _ => False) w := by
  have hsame : Within { w with outbox := w.outbox ++ [(src, .plain .error [])] }
      req.fileNo.toNat := hw.congr rfl fun _ => rfl
  unfold doSetsize
  simp only [Outcome.bind_iff, Outcome.get_iff]
  split
  · exact hsame
  · split
    · exact hsame
    · split
      · exact hsame
      · rename_i hbad hle _
        have hlt := (badInode_false.mp hbad).1
        have hn := w.fss.numFcbs.isLt
        have hbound := hw.size
        have hdown : req.offset.toNat ≤ (w.fss.fcbCache req.fileNo.toNat).stSize.toNat :=
          Nat.le_of_not_lt hle
        have hok : (sparse.setsize req.fileNo.toNat (finalNblock req.offset).toNat w.disk).1 =
          true := rfl
        rw [Outcome.bind_iff, outcome_onDisk, if_pos hok]
        simp only [Outcome.bind_iff, outcome_setFcb, outcome_respond,
          outcome_flushFcbCache (show req.fileNo.toNat < 2 ^ 32 by omega)]
        have hsize : ∀ fcb, Function.update w.fss.fcbCache req.fileNo.toNat fcb
            req.fileNo.toNat = fcb := fun _ => Function.update_self ..
        constructor
        · change (Function.update w.fss.fcbCache req.fileNo.toNat _
            req.fileNo.toNat).stSize.toNat < _
          rw [hsize]
          exact Nat.lt_of_le_of_lt hdown hbound
        · intro h0
          change Tidy (Function.update w.fss.fcbCache req.fileNo.toNat _
            req.fileNo.toNat).stSize.toNat (flushed _ _ _ _ _)
          rw [hsize, flushed_other _ _ _ _ h0]
          change Tidy req.offset.toNat (Function.update w.disk req.fileNo.toNat _ _)
          rw [Function.update_self]
          exact Tidy.cut _

theorem delete_within (hw : Within w req.fileNo.toNat) :
    Outcome (doDelete sparse env req src uid) (fun _ w' => Within w' req.fileNo.toNat)
      (fun _ _ => False) w := by
  apply ((delete_acts (E := fun _ _ => False) sparse_independent).both delete_empties).mono
  · intro _ w' hboth
    obtain ⟨⟨hacts, -⟩, hempties⟩ := hboth
    have hl := hacts.licence _ rfl
    generalize hop : FileOp.delete = op at hl
    cases hl with
    | same hrest hk => exact hw.congr (congrArg FileControlBlock.stSize hrest) hk
    | create _ _ hsize hk => exact hw.congr hsize hk
    | delete hinuse _ hrest =>
      refine ⟨by rw [hrest]; exact hw.size, fun _ => ?_⟩
      rw [hempties hinuse (by rw [hrest])]
      exact Tidy.empty _
    | store hop' => rcases hop' with rfl | rfl <;> cases hop
    | chown => cases hop
    | chmod => cases hop
  · exact fun _ _ h => h.1

end Requests

theorem Bounded.acts {w w' : World (Files Block)} {op : FileOp} {uid : BitVec 32}
    {target : Option Nat} (h : Bounded w)
    (ha : Acts (fun files => files) op uid target w w')
    (hstore : ∀ f, target = some f → op = .delete ∨ op = .write ∨ op = .setsize → Within w' f) :
    Bounded w' := by
  intro f
  by_cases ht : target = some f
  · have hl := ha.licence f ht
    have hstored := hstore f ht
    cases hl with
    | same hrest hk => exact (h f).congr (congrArg FileControlBlock.stSize hrest) hk
    | create _ _ hsize hk => exact (h f).congr hsize hk
    | delete => exact hstored (.inl rfl)
    | store hop => exact hstored (.inr hop)
    | chown _ _ hk hrest => exact (h f).congr (by rw [hrest]) hk
    | chmod _ _ hk hrest => exact (h f).congr (by rw [hrest]) hk
  · have hsame := ha.others f ht
    unfold Changed at hsame
    rw [not_or, not_and, not_not, not_not] at hsame
    exact (h f).congr (congrArg FileControlBlock.stSize hsame.1) hsame.2

section Steps

variable {env : Env} {w : World (Files Block)} {msg : Message} {req : FileRequest}

theorem Asks.eq {op : FileOp} {f : Nat} {req' : FileRequest} (h : Asks op f msg req')
    (hreq : msg.request = some req) : req' = req ∧ op = req.type ∧ f = req.fileNo.toNat := by
  obtain rfl : req' = req := Option.some.inj (h.request.symm.trans hreq)
  exact ⟨rfl, h.op.symm, h.file.symm⟩

theorem reply_unique {outbox : List (BitVec 32 × FileReply)} {src : BitVec 32}
    {rep rep' : FileReply} (h : outbox ++ [(src, rep)] = outbox ++ [(src, rep')]) :
    rep' = rep := by
  have hlast := List.append_cancel_left h
  injection hlast with hhead
  injection hhead with _ hrep
  exact hrep.symm

theorem Precise.other {w' : World (Files Block)} (hreq : msg.request = some req)
    (hread : req.type ≠ .read) (hwrite : req.type ≠ .write) : Precise w msg w' where
  read _ _ _ hasks := absurd (hasks.eq hreq).2.1.symm hread
  write _ _ _ hasks := absurd (hasks.eq hreq).2.1.symm hwrite
  refused _ _ hasks := absurd (hasks.eq hreq).2.1.symm hwrite

theorem write_precise (h : Bounded w) (hreq : msg.request = some req) (ht : req.type = .write)
    (hno : ¬Unrepresented w msg) :
    Outcome (doWrite sparse env req (msg.payload.take fileMaxMsgSize) msg.src msg.uid)
      (fun _ w' => Precise w msg w' ∧ Within w' req.fileNo.toNat) (fun _ _ => False) w := by
  have hw := h req.fileNo.toNat
  have hlen : (BitVec.ofNat 32 (msg.payload.take fileMaxMsgSize).length).toNat =
      (msg.payload.take fileMaxMsgSize).length := by
    have hle := List.length_take_le fileMaxMsgSize msg.payload
    rw [BitVec.toNat_ofNat]
    exact Nat.mod_eq_of_lt (lt_of_le_of_lt hle (by decide))
  have hread : ∀ {f req'}, Asks .read f msg req' → False := by
    intro f req' hasks
    have hop := (hasks.eq hreq).2.1
    rw [ht] at hop
    cases hop
  apply (write_stores hlen hw (fun hfile hsize hallow => ?_)).post
  · intro _ w' hstores
    rcases hstores with rfl | ⟨w₁, rfl, hsize, h0, hrange, hstored⟩
    · constructor
      · constructor
        · exact fun _ _ _ hasks => (hread hasks).elim
        · intro _ _ rep _ hout hok
          rw [reply_unique hout] at hok
          cases hok
        · exact fun _ _ _ _ => rfl
      · exact hw.congr rfl fun _ => rfl
    · constructor
      · constructor
        · exact fun _ _ _ hasks => (hread hasks).elim
        · intro f req' rep hasks _ _
          obtain ⟨rfl, -, rfl⟩ := hasks.eq hreq
          have hwrites := hstored.writes hw hrange
          exact ⟨hsize, hwrites.bytes, hwrites.size, hwrites.present, hwrites.others⟩
        · intro f req' hasks hfar
          obtain ⟨rfl, -, -⟩ := hasks.eq hreq
          omega
      · exact (hstored.within hw hrange h0).congr rfl fun _ => rfl
  · have h0 : req.fileNo.toNat ≠ 0 := by
      intro hz
      rw [hz] at hfile hallow
      exact hno (.table req ⟨hreq, ht, hz⟩ hfile hsize hallow)
    refine ⟨h0, Nat.lt_of_not_le fun hfar => ?_⟩
    exact hno (.far _ req ⟨⟨hreq, ht, rfl⟩, h0, hfile, hsize, hallow⟩ hfar)

theorem read_precise (h : Bounded w) (hreq : msg.request = some req) (ht : req.type = .read)
    (hno : ¬Unrepresented w msg) :
    Outcome (doRead sparse env req msg.src msg.uid)
      (fun _ w' => Precise w msg w' ∧ Bounded w') (fun _ _ => False) w := by
  have hfit : ¬ReadOverflows w req msg.uid := fun hover =>
    hno (.overflow _ req ⟨hreq, ht, rfl⟩ hover)
  have hwrite : ∀ {f req'}, Asks .write f msg req' → False := by
    intro f req' hasks
    have hop := (hasks.eq hreq).2.1
    rw [ht] at hop
    cases hop
  have hreturns := @read_returns env req msg.src msg.uid w (h req.fileNo.toNat)
    (fun hfile hallow => Nat.le_of_not_lt fun hlong =>
      hno (.long _ req ⟨hreq, ht, rfl⟩ hfile hallow hlong))
  apply (hreturns.both (outcome_doRead hfit)).mono
  · intro _ w' hboth
    obtain ⟨⟨rep, rfl, hrep⟩, -⟩ := hboth
    constructor
    · constructor
      · intro f req' rep' hasks _ hout hok
        obtain ⟨rfl, -, rfl⟩ := hasks.eq hreq
        obtain rfl := reply_unique hout
        exact hrep hok
      · exact fun _ _ _ hasks => (hwrite hasks).elim
      · exact fun _ _ hasks => (hwrite hasks).elim
    · exact fun f => (h f).congr rfl fun _ => rfl
  · exact fun _ _ herr => herr.2

section Others

variable {m : EStateM Stop (World (Files Block)) Unit}

theorem other_precise {target : Option Nat} (h : Bounded w) (hreq : msg.request = some req)
    (hread : req.type ≠ .read) (hwrite : req.type ≠ .write)
    (hacts : Outcome m (fun _ w' =>
      Acts (fun files => files) req.type msg.uid target w w' ∧
        Discreet (fun files => files) msg.src msg.uid req w w') (fun _ _ => False) w)
    (hstore : Outcome m (fun _ w' => ∀ f, target = some f →
      req.type = .delete ∨ req.type = .write ∨ req.type = .setsize → Within w' f)
        (fun _ _ => True) w) :
    Outcome m (fun _ w' => Precise w msg w' ∧ Bounded w') (fun _ _ => False) w := by
  apply (hacts.both hstore).mono
  · exact fun _ w' hw => ⟨.other hreq hread hwrite, h.acts hw.1.1 hw.2⟩
  · exact fun _ _ herr => herr.1

theorem quiet_precise {target : Option Nat} (h : Bounded w) (hreq : msg.request = some req)
    (hop : req.type ∈ [.create, .chown, .chmod, .sync, .stat])
    (hacts : Outcome m (fun _ w' =>
      Acts (fun files => files) req.type msg.uid target w w' ∧
        Discreet (fun files => files) msg.src msg.uid req w w') (fun _ _ => False) w) :
    Outcome m (fun _ w' => Precise w msg w' ∧ Bounded w') (fun _ _ => False) w := by
  have hkinds : ∀ op : FileOp, op ∈ [.create, .chown, .chmod, .sync, .stat] →
      op ≠ .read ∧ op ≠ .write ∧ ¬(op = .delete ∨ op = .write ∨ op = .setsize) := by
    intro op
    cases op <;> decide
  obtain ⟨hread, hwrite, hstores⟩ := hkinds _ hop
  apply other_precise h hreq hread hwrite hacts
  exact (Outcome.always m).post fun _ _ _ _ _ hstore => absurd hstore hstores

theorem cut_precise (h : Bounded w) (hreq : msg.request = some req)
    (hop : req.type = .delete ∨ req.type = .setsize)
    (hacts : Outcome m (fun _ w' =>
      Acts (fun files => files) req.type msg.uid (some req.fileNo.toNat) w w' ∧
        Discreet (fun files => files) msg.src msg.uid req w w') (fun _ _ => False) w)
    (hwithin : Outcome m (fun _ w' => Within w' req.fileNo.toNat) (fun _ _ => False) w) :
    Outcome m (fun _ w' => Precise w msg w' ∧ Bounded w') (fun _ _ => False) w := by
  have hne : req.type ≠ .read ∧ req.type ≠ .write := by
    rcases hop with ht | ht <;> rw [ht] <;> decide
  apply other_precise h hreq hne.1 hne.2 hacts
  apply hwithin.mono
  · intro _ w' hw f hf _
    rwa [← Option.some.inj hf]
  · exact fun _ _ _ => trivial

end Others

theorem serve_precise (h : Bounded w) (hno : ¬Unrepresented w msg) :
    Outcome (serve sparse env msg) (fun _ w' => Precise w msg w' ∧ Bounded w')
      (fun e w' => e = .assert ∧ Malformed msg ∧ w' = w) w := by
  unfold serve
  cases hreq : msg.request with
  | none => exact ⟨rfl, fun req hsome => absurd (hreq ▸ hsome) (by simp), rfl⟩
  | some req =>
    have hassert : ∀ e w', False → e = Stop.assert ∧ Malformed msg ∧ w' = w :=
      fun _ _ hfalse => hfalse.elim
    have hstop : req.type = .unused ∨ req.type = .setFlags → Malformed msg := by
      intro hstop req' hreq'
      rwa [← Option.some.inj (hreq.symm.trans hreq')]
    have hquiet := fun m target => @quiet_precise w msg req m target h hreq
    have hcut := fun m => @cut_precise w msg req m h hreq
    dsimp only
    cases htype : req.type <;> rw [htype] at hquiet hcut <;> dsimp only
    case create =>
      exact (hquiet _ _ (by decide) (create_acts sparse_independent)).mono
        (fun _ _ hw => hw) hassert
    case delete =>
      exact (hcut _ (.inl rfl) (delete_acts sparse_independent) (delete_within (h _))).mono
        (fun _ _ hw => hw) hassert
    case chown =>
      exact (hquiet _ _ (by decide) (chown_acts sparse_independent)).mono
        (fun _ _ hw => hw) hassert
    case chmod =>
      exact (hquiet _ _ (by decide) (chmod_acts sparse_independent)).mono
        (fun _ _ hw => hw) hassert
    case read =>
      exact (read_precise h hreq htype hno).mono (fun _ _ hw => hw) hassert
    case write =>
      refine ((write_acts (E := fun _ _ => True) sparse_independent _).both
        (write_precise h hreq htype hno)).mono (fun _ w' hboth => ?_)
        (fun e w' herr => hassert e w' herr.2)
      obtain ⟨hacts, hprecise, hwithin⟩ := hboth
      refine ⟨hprecise, h.acts hacts.1 fun f hf _ => ?_⟩
      rwa [← Option.some.inj hf]
    case sync =>
      exact (hquiet _ _ (by decide) (sync_acts sparse_independent)).mono
        (fun _ _ hw => hw) hassert
    case stat =>
      exact (hquiet _ _ (by decide) stat_acts).mono (fun _ _ hw => hw) hassert
    case setsize =>
      exact (hcut _ (.inr rfl) (setsize_acts sparse_independent) (setsize_within (h _))).mono
        (fun _ _ hw => hw) hassert
    case unused => exact ⟨rfl, hstop (.inl htype), rfl⟩
    case setFlags => exact ⟨rfl, hstop (.inr htype), rfl⟩

end Steps

/-- The size of the table is below the limit, and there are no other files. -/
theorem boot_bounded {globalTime : BitVec 64} {startTime numFcbs : BitVec 32} {env : Env}
    {w : World (Files Block)}
    (hboot : boot sparse env (newDisk globalTime startTime numFcbs) = .ok () w) : Bounded w := by
  rw [boot_newDisk globalTime startTime env (boot_pos hboot)] at hboot
  suffices hout : Outcome (flushStatCacheAll sparse env) (fun _ w => Bounded w)
      (fun _ _ => False) (installed globalTime startTime numFcbs) from hout.ok hboot
  unfold flushStatCacheAll
  simp only [Outcome.bind_iff, Outcome.get_iff, outcome_onDisk, Outcome.pure_iff]
  intro f
  have hn := numFcbs.isLt
  by_cases hf : f = 0
  · subst hf
    refine ⟨?_, fun hne => absurd rfl hne⟩
    have hfcb : (installed globalTime startTime numFcbs).fss.fcbCache 0 =
        { FileControlBlock.zero with
          stAlloc := true
          stSize := BitVec.ofNat 64
            (numFcbs.toNat * FileControlBlock.sizeof / statsPerBlock) } := by
      unfold installed FileServerState.setFcb
      dsimp only
      rw [Function.update_self]
    change ((installed globalTime startTime numFcbs).fss.fcbCache 0).stSize.toNat < _
    have hle := Nat.div_le_self (numFcbs.toNat * FileControlBlock.sizeof) statsPerBlock
    rw [hfcb, BitVec.toNat_ofNat]
    apply Nat.lt_of_le_of_lt (Nat.mod_le _ _)
    unfold FileControlBlock.sizeof at *
    omega
  · have hfcb : (installed globalTime startTime numFcbs).fss.fcbCache f = .zero :=
      Function.update_of_ne hf _ _
    constructor
    · change ((installed globalTime startTime numFcbs).fss.fcbCache f).stSize.toNat < _
      rw [hfcb]
      decide
    · intro _
      dsimp only
      rw [(multiblockWrite_frame 0 0 _ _ _).2 f hf]
      exact Tidy.empty _

/-- **Where the numbers suffice.** A server that began with an empty block store serves any
requests. As long as no request is `Unrepresented` in the state before it, each read that is
answered with success returns the bytes of its range and no fewer, each write that is answered
with success has written its range of its file and nothing else, and no write that reaches
`2 ^ 42` succeeds. -/
theorem requests_precise {globalTime : BitVec 64} {startTime numFcbs : BitVec 32} {env₀ : Env}
    {msgs : List (Env × Message)} {w₀ : World (Files Block)}
    (hboot : boot sparse env₀ (newDisk globalTime startTime numFcbs) = .ok () w₀)
    (hreach : ∀ done m rest w, msgs = done ++ m :: rest → serveAll sparse done w₀ = .ok () w →
      ¬Unrepresented w m.2) :
    ∀ done m rest w, msgs = done ++ m :: rest → serveAll sparse done w₀ = .ok () w →
      Outcome (serve sparse m.1 m.2) (fun _ w' => Precise w m.2 w')
        (fun e w' => e = .assert ∧ Malformed m.2 ∧ w' = w) w := by
  intro done m rest w hmsgs hdone
  have hbounded : Bounded w := by
    apply serveAll_along (P := Bounded) (fun done' m' rest' w₁ w₂ hsplit hrun h₁ hserve => ?_)
      (boot_bounded hboot) hdone
    have hno := hreach done' m' (rest' ++ m :: rest) w₁
      (by rw [hmsgs, hsplit, List.append_assoc]; rfl) hrun
    exact ((serve_precise h₁ hno).ok hserve).2
  exact (serve_precise hbounded (hreach done m rest w hmsgs hdone)).post fun _ _ hw => hw.1

theorem asks_kind {type op : FileOp} {fileNo : BitVec 32} {offset : BitVec 64} {data : List Byte}
    {f : Nat} {req : FileRequest} (h : Asks op f (testRequest type fileNo offset data).2 req) :
    type = op := by
  obtain rfl := Option.some.inj h.request
  exact h.op

/-- A file is created and written 1 TiB behind its beginning. -/
theorem requests_precise_gap : ∃ w₀ w,
    boot sparse testEnv (newDisk 0 0 4) = .ok () w₀ ∧
      serveAll sparse [testRequest .create 0 0 []] w₀ = .ok () w ∧
      Outcome (serve sparse testEnv (testRequest .write 1 (2 ^ 40) [7]).2)
        (fun _ w' => Precise w (testRequest .write 1 (2 ^ 40) [7]).2 w')
        (fun e w' => e = .assert ∧ Malformed (testRequest .write 1 (2 ^ 40) [7]).2 ∧ w' = w) w := by
  have hboot : boot sparse testEnv (newDisk 0 0 4) = _ := eq_ok_of_returned (a := ()) (by
    decide +kernel)
  have hcreate : serveAll sparse [testRequest .create 0 0 []]
      (final (boot sparse testEnv (newDisk 0 0 4))) = _ := eq_ok_of_returned (a := ()) (by
    decide +kernel)
  generalize final (boot sparse testEnv (newDisk 0 0 4)) = w₀ at hboot hcreate
  generalize final (serveAll sparse [testRequest .create 0 0 []] w₀) = w at hcreate
  refine ⟨w₀, w, hboot, hcreate, @requests_precise 0 0 4 testEnv [testRequest .create 0 0 [],
    testRequest .write 1 (2 ^ 40) [7]] w₀ hboot (fun done m rest w' hmsgs _ => ?_)
    [testRequest .create 0 0 []] _ [] w rfl hcreate⟩
  have hm : m = testRequest .create 0 0 [] ∨ m = testRequest .write 1 (2 ^ 40) [7] := by
    have hmem : m ∈ [testRequest .create 0 0 [], testRequest .write 1 (2 ^ 40) [7]] := by
      rw [hmsgs]
      exact List.mem_append_right _ List.mem_cons_self
    simpa using hmem
  intro hun
  rcases hm with rfl | rfl
  · cases hun with
    | far f req carried => cases asks_kind carried.asks
    | table req asks => cases asks_kind asks
    | long f req asks => cases asks_kind asks
    | overflow f req asks => cases asks_kind asks
  · cases hun with
    | far f req carried range =>
      obtain rfl := Option.some.inj carried.asks.request
      exact absurd range (by decide)
    | table req asks =>
      obtain rfl := Option.some.inj asks.request
      exact absurd asks.file (by decide)
    | long f req asks => cases asks_kind asks
    | overflow f req asks => cases asks_kind asks

/-- One byte 4 GiB behind the beginning of a file makes a read of two bytes return one, and a
byte at the last position below `2 ^ 42` clears the first block. Every request is answered with
success. -/
theorem limits_missed :
    let run (msgs : List (Env × Message)) : World (Files Block) := final ((do
      boot sparse testEnv
      serveAll sparse msgs) (newDisk 0 0 4))
    let short := run [testRequest .create 0 0 [], testRequest .write 1 (2 ^ 32) [7],
      testRequest .read 1 0 [0, 0]]
    let cleared := run [testRequest .create 0 0 [], testRequest .write 1 0 [65],
      testRequest .write 1 (2 ^ 42 - 1) [66]]
    short.outbox.map (fun r => (r.2.status, r.2.data)) = [(.ok, []), (.ok, []), (.ok, [0])] ∧
      cleared.outbox.map (fun r => r.2.status) = [.ok, .ok, .ok] ∧
      byteAt (cleared.disk 1).data 0 = 0 := by
  decide +kernel

end Egos.File
