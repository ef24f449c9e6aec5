import Egos.File.Atomicity
import Egos.File.Put

/-!
# The bytes around a write

`blkfile_put` reads the blocks of its range back before it writes them. A read that fails
after the first one goes unnoticed, and the blocks from there on are taken for zeros. Of an
acknowledged write this can be seen in the last block of its range, and there only if
something of the file lies behind the range in that block.
-/
namespace Egos.File

open Egos.Lib Egos.Disk Bfs

set_option autoImplicit false

theorem passing_lt_iff {fails : Nat → Bool} {n left : Nat} :
    passing fails n left < left ↔ ∃ j, j < left ∧ fails (n + j) = true := by
  induction left generalizing n with
  | zero => simp [passing]
  | succ left ih =>
    unfold passing
    split
    · rename_i hf
      exact ⟨fun _ => ⟨0, by omega, hf⟩, fun _ => by omega⟩
    · rename_i hf
      rw [Nat.succ_lt_succ_iff, ih]
      constructor
      · rintro ⟨j, hj, hfj⟩
        exact ⟨j + 1, by omega, by rwa [show n + (j + 1) = n + 1 + j by omega]⟩
      · rintro ⟨j, hj, hfj⟩
        cases j with
        | zero => exact absurd hfj hf
        | succ j => exact ⟨j, by omega, by rwa [show n + 1 + j = n + (j + 1) by omega]⟩

section Conditions

variable (fails : Faults) (w : World FaultyDisk) (f : Nat) (offset : BitVec 64) (size : BitVec 32)

/-- A write within the file cannot read all blocks of its range. -/
structure TailUnread : Prop where
  within : offset.toNat + size.toNat ≤ (w.fss.fcbCache f).stSize.toNat
  fault : ∃ j, j ≤ (offset.toNat + size.toNat) / blockSize - offset.toNat / blockSize ∧
    readFault fails w.disk f (offset.toNat / blockSize) j

/-- The write is one to inode 0, and the flush after it takes this position from the table. -/
structure TableFlushed (k : Nat) : Prop where
  table : f = 0
  block : k < blockSize
  passed : fails .write (w.disk.calls .write +
    ((offset.toNat + size.toNat) / blockSize - offset.toNat / blockSize + 1)) = false

/-- The table in memory after the write. -/
def tableAfter (env : Env) : Buffer :=
  tableImage (w.fss.setFcb f { w.fss.fcbCache f with
    stSize := (putPlan (w.fss.fcbCache f).stSize offset size).finalSize
    stModtime := modtime w.fss env }) env.heap

/-- What the write puts next to its range is what was there. -/
structure Harmless (env : Env) : Prop where
  tail : TailUnread fails w f offset size → ∀ k, offset.toNat + size.toNat ≤ k →
    k < (w.fss.fcbCache f).stSize.toNat →
    k / blockSize = (offset.toNat + size.toNat) / blockSize →
    ¬TableFlushed fails w f offset size k → byteAt (w.disk.files f).data k = 0
  table : ∀ k, TableFlushed fails w f offset size k → k < (w.fss.fcbCache f).stSize.toNat →
    k < offset.toNat ∨ offset.toNat + size.toNat ≤ k →
    byteAt (w.disk.files f).data k = tableAfter w f offset size env k

/-- The byte at a position of the file that is outside of the range of an acknowledged
write. -/
structure Around (env : Env) (k : Nat) (x : Byte) : Prop where
  flushed : TableFlushed fails w f offset size k → x = tableAfter w f offset size env k
  lost : ¬TableFlushed fails w f offset size k → TailUnread fails w f offset size →
    offset.toNat + size.toNat ≤ k →
    k / blockSize = (offset.toNat + size.toNat) / blockSize → x = 0
  kept : ¬TableFlushed fails w f offset size k →
    ¬(TailUnread fails w f offset size ∧ offset.toNat + size.toNat ≤ k ∧
      k / blockSize = (offset.toNat + size.toNat) / blockSize) →
    x = byteAt (w.disk.files f).data k

end Conditions

section Put

variable {fails : Faults} {env : Env} {w : World FaultyDisk} {f : Nat} {offset : BitVec 64}
  {size : BitVec 32} {E : Stop → World FaultyDisk → Prop}

/-- What a flush does to the file itself: nothing, but for the table, which gets its first
block from memory. -/
theorem outcome_flush_bytes (f : Nat) :
    Outcome (flushFcbCache (faulty fails) env f)
      (fun _ w' => w'.outbox = w.outbox ∧ ∀ k, byteAt (w'.disk.files f).data k =
        if f = 0 ∧ k < blockSize ∧ fails .write (w.disk.calls .write) = false then
          tableImage w.fss env.heap k
        else byteAt (w.disk.files f).data k) E w := by
  by_cases h0 : f = 0
  · subst h0
    unfold flushFcbCache
    simp only [Outcome.bind_iff, Outcome.get_iff, outcome_onDisk, Outcome.pure_iff]
    refine ⟨trivial, fun k => ?_⟩
    obtain ⟨-, hfiles, -⟩ := faulty_write fails 0 0 (tableImage w.fss env.heap) 1 0 w.disk
    have haddr : (fun k => tableImage w.fss env.heap (0 * FileControlBlock.sizeof / blockSize *
        blockSize % 2 ^ 32 + k)) = tableImage w.fss env.heap := by
      funext k
      exact congrArg _ (Nat.zero_add k)
    have hflushed : (multiblockWrite (faulty fails) 0 0 (tableImage w.fss env.heap) 1
        w.disk).2.files = if fails .write (w.disk.calls .write) then w.disk.files
          else writeBlocks w.disk.files 0 0 (tableImage w.fss env.heap) 1 := by
      refine hfiles.trans ?_
      unfold passing passing
      split
      · rfl
      · exact congrArg Prod.snd (multiblockWrite_eq w.disk.files (by decide))
    rw [haddr]
    change byteAt ((multiblockWrite (faulty fails) 0 0 _ 1 w.disk).2.files 0).data k = _
    rw [hflushed]
    cases hf : fails .write (w.disk.calls .write) with
    | true =>
      rw [if_pos rfl, if_neg fun h => Bool.false_ne_true h.2.2.symm]
    | false =>
      rw [if_neg Bool.false_ne_true]
      by_cases hk : k < blockSize
      · rw [if_pos ⟨trivial, hk, rfl⟩, writeBlocks_inside _ _ (Nat.zero_le _)
          (by rw [Nat.div_eq_of_lt hk]; decide), Nat.zero_mul, Nat.sub_zero]
      · rw [if_neg (fun h => hk h.2.1), writeBlocks_outside _ _
          (.inr (Nat.div_pos (Nat.le_of_not_lt hk) (by decide)))]
  · refine (outcome_flush (faulty_independent fails) f).post (fun _ w' hw' => ?_)
    refine ⟨hw'.outbox, fun k => ?_⟩
    rw [if_neg fun h => h0 h.1, hw'.disk f h0]

theorem contents_eq {contents : Buffer} (hrange : offset.toNat + size.toNat < 2 ^ 32)
    (hcontents : ∀ k, contents k =
      if k / blockSize < readBack fails w f offset size then
        (w.disk.files f).data ((writeStart offset + k / blockSize) % 2 ^ 32)
          ⟨k % blockSize, mod_blockSize_lt k⟩
      else 0) {k : Nat} (hk : offset.toNat / blockSize ≤ k / blockSize)
    (hk' : k / blockSize ≤ (offset.toNat + size.toNat) / blockSize) :
    contents (k - offset.toNat / blockSize * blockSize) =
      if k / blockSize - offset.toNat / blockSize < readBack fails w f offset size then
        byteAt (w.disk.files f).data k else 0 := by
  have hstart : writeStart offset = offset.toNat / blockSize :=
    startBlock_toNat (show offset.toNat < 2 ^ 42 by omega)
  have hdiv : (k - offset.toNat / blockSize * blockSize) / blockSize =
      k / blockSize - offset.toNat / blockSize := by
    unfold blockSize at *
    omega
  have hmod : (k - offset.toNat / blockSize * blockSize) % blockSize = k % blockSize := by
    unfold blockSize at *
    omega
  have hblock : (offset.toNat / blockSize + (k / blockSize - offset.toNat / blockSize)) % 2 ^ 32 =
      k / blockSize := by
    unfold blockSize at *
    omega
  rw [hcontents, hdiv, hstart]
  simp only [hmod, hblock]
  rfl

/-- Where the file reaches into the range, the blocks of both are read back up to a fault. -/
theorem readBack_eq (hrange : offset.toNat + size.toNat < 2 ^ 32) {k : Nat}
    (hk : k < (w.fss.fcbCache f).stSize.toNat)
    (hstart : offset.toNat / blockSize ≤ k / blockSize) :
    readBack fails w f offset size =
        passing (readFault fails w.disk f (offset.toNat / blockSize)) 0
          (min ((w.fss.fcbCache f).stSize.toNat / blockSize)
            ((offset.toNat + size.toNat) / blockSize) - offset.toNat / blockSize + 1) ∧
      (readFault fails w.disk f (offset.toNat / blockSize) 0 →
        FirstUnread fails w f offset size) := by
  have hbegin : writeStart offset = offset.toNat / blockSize :=
    startBlock_toNat (show offset.toNat < 2 ^ 42 by omega)
  have hle : offset.toNat / blockSize ≤ (w.fss.fcbCache f).stSize.toNat / blockSize :=
    le_trans hstart (Nat.div_le_div_right hk.le)
  have hpsize := putPlan_psizeNblock (w.fss.fcbCache f).stSize
    (show offset.toNat + size.toNat < 2 ^ 42 by omega) hle
  have hnot : ¬(w.fss.fcbCache f).stSize / BitVec.ofNat 64 blockSize <
      offset / BitVec.ofNat 64 blockSize := by
    rw [BitVec.lt_def, BitVec.toNat_udiv, BitVec.toNat_udiv, toNat_blockSize64]
    omega
  have hne : (w.fss.fcbCache f).stSize ≠ 0 := by
    intro hz
    rw [hz] at hk
    exact Nat.not_lt_zero _ hk
  constructor
  · unfold readBack
    rw [if_neg (not_or.mpr ⟨hnot, hne⟩), hpsize, hbegin]
  · intro hf
    exact ⟨hnot, hne, by omega, by rwa [hbegin]⟩

theorem readBack_pos (hread : ¬FirstUnread fails w f offset size)
    (hrange : offset.toNat + size.toNat < 2 ^ 32) {k : Nat}
    (hk : k < (w.fss.fcbCache f).stSize.toNat)
    (hstart : offset.toNat / blockSize ≤ k / blockSize) : 0 < readBack fails w f offset size := by
  obtain ⟨heq, hfault⟩ := readBack_eq hrange hk hstart
  rw [heq, passing, if_neg fun hf => hread (hfault hf)]
  exact Nat.succ_pos _

/-- In a write within the file all blocks of the range are read back, unless there is a
fault. -/
theorem readBack_all (hrange : offset.toNat + size.toNat < 2 ^ 32)
    (hwithin : offset.toNat + size.toNat < (w.fss.fcbCache f).stSize.toNat) :
    (offset.toNat + size.toNat) / blockSize - offset.toNat / blockSize <
        readBack fails w f offset size ↔ ¬TailUnread fails w f offset size := by
  obtain ⟨heq, -⟩ : readBack fails w f offset size = _ ∧ _ :=
    readBack_eq hrange hwithin (Nat.div_le_div_right (Nat.le_add_right _ _))
  rw [min_eq_right (Nat.div_le_div_right hwithin.le)] at heq
  have hiff : TailUnread fails w f offset size ↔ readBack fails w f offset size <
      (offset.toNat + size.toNat) / blockSize - offset.toNat / blockSize + 1 := by
    rw [heq, passing_lt_iff]
    constructor
    · rintro ⟨-, j, hj, hf⟩
      exact ⟨j, by omega, by rwa [Nat.zero_add]⟩
    · rintro ⟨j, hj, hf⟩
      exact ⟨hwithin.le, j, by omega, by rwa [Nat.zero_add] at hf⟩
  rw [hiff]
  omega

/-- What stands outside of the range in the buffer of a write. -/
theorem contents_around {contents : Buffer} {data : List Byte}
    (hlen : size.toNat = data.length) (hrange : offset.toNat + size.toNat < 2 ^ 32)
    (hread : ¬FirstUnread fails w f offset size)
    (hcontents : ∀ k, contents k =
      if k / blockSize < readBack fails w f offset size then
        (w.disk.files f).data ((writeStart offset + k / blockSize) % 2 ^ 32)
          ⟨k % blockSize, mod_blockSize_lt k⟩
      else 0) {k : Nat} (hk : k < (w.fss.fcbCache f).stSize.toNat)
    (hout : k < offset.toNat ∨ offset.toNat + size.toNat ≤ k)
    (hfirst : offset.toNat / blockSize ≤ k / blockSize)
    (hlast : k / blockSize ≤ (offset.toNat + size.toNat) / blockSize) :
    overlay contents (offset.toNat % blockSize) data (k - offset.toNat / blockSize * blockSize) =
      if offset.toNat + size.toNat ≤ k ∧
          ¬(offset.toNat + size.toNat) / blockSize - offset.toNat / blockSize <
            readBack fails w f offset size then 0
      else byteAt (w.disk.files f).data k := by
  have hpos := readBack_pos hread hrange hk hfirst
  have hoverlay : k - offset.toNat / blockSize * blockSize < offset.toNat % blockSize ∨
      offset.toNat % blockSize + data.length ≤ k - offset.toNat / blockSize * blockSize := by
    rw [← hlen]
    unfold blockSize at *
    omega
  rw [overlay_outside hoverlay, contents_eq hrange hcontents hfirst hlast]
  rcases hout with hbefore | hbehind
  · have hsame : k / blockSize - offset.toNat / blockSize = 0 := by
      unfold blockSize at *
      omega
    rw [hsame, if_pos hpos, if_neg (by omega)]
  · have hsame : k / blockSize = (offset.toNat + size.toNat) / blockSize := by
      unfold blockSize at *
      omega
    rw [hsame]
    by_cases hin : (offset.toNat + size.toNat) / blockSize - offset.toNat / blockSize <
        readBack fails w f offset size
    · rw [if_pos hin, if_neg (fun h => h.2 hin)]
    · rw [if_neg hin, if_pos ⟨hbehind, hin⟩]

/-- The blocks of the range after they were written, next to the range. -/
theorem written_around {contents : Buffer} {data : List Byte} {files : Files Block}
    (hlen : size.toNat = data.length) (hrange : offset.toNat + size.toNat < 2 ^ 32)
    (hread : ¬FirstUnread fails w f offset size)
    (hcontents : ∀ k, contents k =
      if k / blockSize < readBack fails w f offset size then
        (w.disk.files f).data ((writeStart offset + k / blockSize) % 2 ^ 32)
          ⟨k % blockSize, mod_blockSize_lt k⟩
      else 0)
    (hfiles : files = writeBlocks w.disk.files f (offset.toNat / blockSize)
      (overlay contents (offset.toNat % blockSize) data)
      ((offset.toNat + size.toNat) / blockSize - offset.toNat / blockSize + 1)) {k : Nat}
    (hk : k < (w.fss.fcbCache f).stSize.toNat)
    (hout : k < offset.toNat ∨ offset.toNat + size.toNat ≤ k) :
    (TailUnread fails w f offset size → offset.toNat + size.toNat ≤ k →
      k / blockSize = (offset.toNat + size.toNat) / blockSize →
      byteAt (files f).data k = 0) ∧
    (¬(TailUnread fails w f offset size ∧ offset.toNat + size.toNat ≤ k ∧
        k / blockSize = (offset.toNat + size.toNat) / blockSize) →
      byteAt (files f).data k = byteAt (w.disk.files f).data k) := by
  by_cases hin : offset.toNat / blockSize ≤ k / blockSize ∧
      k / blockSize ≤ (offset.toNat + size.toNat) / blockSize
  · have hbyte : byteAt (files f).data k = overlay contents (offset.toNat % blockSize) data
        (k - offset.toNat / blockSize * blockSize) := by
      rw [hfiles, writeBlocks_inside _ _ hin.1 (by omega)]
    rw [contents_around hlen hrange hread hcontents hk hout hin.1 hin.2] at hbyte
    have hall : offset.toNat + size.toNat ≤ k →
        ((offset.toNat + size.toNat) / blockSize - offset.toNat / blockSize <
          readBack fails w f offset size ↔ ¬TailUnread fails w f offset size) :=
      fun hle => readBack_all hrange (by omega)
    rw [hbyte]
    constructor
    · intro hun hle _
      exact if_pos ⟨hle, fun h => (hall hle).mp h hun⟩
    · intro hnot
      refine if_neg fun h => hnot ⟨?_, h.1, ?_⟩
      · exact not_not.mp fun hun => h.2 ((hall h.1).mpr hun)
      · have hle := h.1
        unfold blockSize at *
        omega
  · have hle : offset.toNat / blockSize ≤ (offset.toNat + size.toNat) / blockSize :=
      Nat.div_le_div_right (Nat.le_add_right _ _)
    have hbyte : byteAt (files f).data k = byteAt (w.disk.files f).data k := by
      rw [hfiles, writeBlocks_outside _ _ (by omega)]
    exact ⟨fun _ _ hlast => absurd ⟨by omega, hlast.le⟩ hin, fun _ => hbyte⟩

/-- An acknowledged write: what is next to its range afterwards. -/
theorem put_around {data : List Byte} (hlen : size.toNat = data.length)
    (hrange : offset.toNat + size.toNat < 2 ^ 32) :
    Outcome (put (faulty fails) env f offset data size)
      (fun r w' => w'.outbox = w.outbox ∧ (r = 0 →
        ∀ k, k < (w.fss.fcbCache f).stSize.toNat →
          k < offset.toNat ∨ offset.toNat + size.toNat ≤ k →
          Around fails w f offset size env k (byteAt (w'.disk.files f).data k))) E w := by
  have hbegin : ((offset / BitVec.ofNat 64 blockSize).setWidth 32).toNat =
      offset.toNat / blockSize := startBlock_toNat (show offset.toNat < 2 ^ 42 by omega)
  have hcount := putPlan_nblocks (w.fss.fcbCache f).stSize
    (show offset.toNat + size.toNat < 2 ^ 42 by omega)
  have hbound : offset.toNat / blockSize +
      ((offset.toNat + size.toNat) / blockSize - offset.toNat / blockSize + 1) ≤ 2 ^ 32 := by
    unfold blockSize
    omega
  unfold put
  simp only [Outcome.bind_iff, Outcome.get_iff]
  refine (faulty_putContents f offset size).post (fun r w₁ hw => ?_)
  obtain ⟨hfss, hout, hfiles, hcalls, hread, hcontents⟩ := hw
  cases r with
  | none => exact ⟨hout, fun h => absurd h (by decide)⟩
  | some contents =>
    have hread' : ¬FirstUnread fails w f offset size :=
      fun hun => Option.some_ne_none _ (hread.mpr hun)
    obtain ⟨fss, d, outbox⟩ := w₁
    obtain rfl : fss = w.fss := hfss
    obtain rfl : outbox = w.outbox := hout
    dsimp only at hfiles hcalls
    dsimp only
    rw [Outcome.bind_iff, outcome_onDisk, hbegin, hcount]
    obtain ⟨hok, hwritten, hcalls'⟩ := faulty_write fails f (offset.toNat / blockSize)
      (overlay contents (offset.toNat % blockSize) data)
      ((offset.toNat + size.toNat) / blockSize - offset.toNat / blockSize + 1) 0 d
    split
    · rename_i htaken
      have hall := hok.mp htaken
      rw [hall, hfiles, show multiblockWriteLoop sparse f (offset.toNat / blockSize) _ 0 _ _ = _
        from multiblockWrite_eq _ hbound] at hwritten
      rw [hall, min_eq_right (Nat.le_succ _), hcalls] at hcalls'
      have haround := fun k => written_around (k := k) hlen hrange hread'
        (hcontents contents rfl) hwritten
      simp only [Outcome.bind_iff, outcome_setFcb, Outcome.pure_iff]
      refine (outcome_flush_bytes f).post (fun _ w' hw' => ⟨hw'.1, fun _ k hk hout => ?_⟩)
      obtain ⟨hlost, hkept⟩ := haround k hk hout
      have hbyte := hw'.2 k
      dsimp only at hbyte
      rw [show (multiblockWrite (faulty fails) f _ _ _ d).2.calls .write = _ from
        congrFun hcalls' .write, Function.update_self] at hbyte
      by_cases hflushed : TableFlushed fails w f offset size k
      · rw [if_pos ⟨hflushed.table, hflushed.block, hflushed.passed⟩] at hbyte
        exact ⟨fun _ => hbyte, fun h => absurd hflushed h, fun h => absurd hflushed h⟩
      · rw [if_neg fun h => hflushed ⟨h.1, h.2.1, h.2.2⟩] at hbyte
        rw [hbyte]
        exact ⟨fun h => absurd h hflushed, fun _ => hlost, fun _ => hkept⟩
    · exact ⟨rfl, fun h => absurd h (by decide)⟩

theorem Around.of_error {P : Prop} {src : BitVec 32} {w' : World FaultyDisk}
    (hout : w'.outbox = w.outbox ++ [(src, .plain .error [])])
    (hok : w'.outbox = w.outbox ++ [(src, .plain .ok [])]) : P := by
  have hsame := List.append_cancel_left (hout.symm.trans hok)
  injection hsame with hhead
  injection hhead with _ hrep
  cases hrep

/-- A write request that is acknowledged has been carried out. -/
theorem write_around {msg : Message} {req : FileRequest} (hasks : Asks .write f msg req)
    (hrange : req.offset.toNat + req.size.toNat < 2 ^ 32) :
    Outcome (serve (faulty fails) env msg)
      (fun _ w' => w'.outbox = w.outbox ++ [(msg.src, .plain .ok [])] →
        ∀ k, k < (w.fss.fcbCache f).stSize.toNat →
          k < req.offset.toNat ∨ req.offset.toNat + req.size.toNat ≤ k →
          Around fails w f req.offset req.size env k (byteAt (w'.disk.files f).data k))
      (fun _ _ => True) w := by
  obtain ⟨hreq, hop, rfl⟩ := hasks
  unfold serve
  rw [hreq]
  dsimp only
  rw [hop]
  dsimp only
  unfold doWrite
  simp only [Outcome.bind_iff, Outcome.get_iff]
  split
  · exact fun hok => Around.of_error rfl hok
  · split
    · exact fun hok => Around.of_error rfl hok
    · split
      · exact fun hok => Around.of_error rfl hok
      · rename_i hsize _
        have hlen : (BitVec.ofNat 32 (msg.payload.take fileMaxMsgSize).length).toNat =
            (msg.payload.take fileMaxMsgSize).length := by
          have hle := List.length_take_le fileMaxMsgSize msg.payload
          rw [BitVec.toNat_ofNat]
          exact Nat.mod_eq_of_lt (lt_of_le_of_lt hle (by decide))
        rw [← not_not.mp hsize] at hlen ⊢
        rw [Outcome.bind_iff]
        refine (put_around hlen hrange).post (fun r w' hw => ?_)
        split
        · rename_i hzero
          exact fun _ => hw.2 hzero
        · exact fun hok => Around.of_error (congrArg (· ++ _) hw.1) hok

end Put

/-- **When a write leaves the rest of its file alone.** An acknowledged write changes no byte
next to its range exactly if what it puts there is what was there. -/
theorem acknowledged_write_iff {fails : Faults} {env : Env} {w w' : World FaultyDisk} {f : Nat}
    {msg : Message} {req : FileRequest} (hasks : Asks .write f msg req)
    (hrange : req.offset.toNat + req.size.toNat < 2 ^ 32)
    (hrun : serve (faulty fails) env msg w = .ok () w')
    (hok : w'.outbox = w.outbox ++ [(msg.src, .plain .ok [])]) :
    (∀ k, k < (w.fss.fcbCache f).stSize.toNat →
      k < req.offset.toNat ∨ req.offset.toNat + req.size.toNat ≤ k →
      byteAt (w'.disk.files f).data k = byteAt (w.disk.files f).data k) ↔
    Harmless fails w f req.offset req.size env := by
  have haround := (write_around hasks hrange).ok hrun hok
  constructor
  · intro hsame
    constructor
    · intro hun k hle hk hlast hflushed
      rw [← hsame k hk (.inr hle)]
      exact (haround k hk (.inr hle)).lost hflushed hun hle hlast
    · intro k hflushed hk hout
      rw [← hsame k hk hout]
      exact (haround k hk hout).flushed hflushed
  · intro hharmless k hk hout
    have hbyte := haround k hk hout
    by_cases hflushed : TableFlushed fails w f req.offset req.size k
    · rw [hbyte.flushed hflushed, hharmless.table k hflushed hk hout]
    · by_cases hlost : TailUnread fails w f req.offset req.size ∧
          req.offset.toNat + req.size.toNat ≤ k ∧
          k / blockSize = (req.offset.toNat + req.size.toNat) / blockSize
      · rw [hbyte.lost hflushed hlost.1 hlost.2.1 hlost.2.2,
          hharmless.tail hlost.1 k hlost.2.1 hk hlost.2.2 hflushed]
      · exact hbyte.kept hflushed hlost

/-- The second block cannot be read. -/
def secondRead : Faults := fun call n => call == .read && n == 1

/-- What a read that fails loses may be zeros anyway. -/
theorem acknowledged_write_iff_inside :
    ∃ w w', serve (faulty secondRead) testEnv (testRequest .write 1 1022 [5, 6, 7]).2 w =
        .ok () w' ∧ TailUnread secondRead w 1 1022 3 ∧
      ∀ k, k < (w.fss.fcbCache 1).stSize.toNat → k < 1022 ∨ 1025 ≤ k →
        byteAt (w'.disk.files 1).data k = byteAt (w.disk.files 1).data k := by
  obtain ⟨w, hw⟩ : ∃ w, final ((do
      boot (faulty secondRead) testEnv
      serveAll (faulty secondRead)
        [testRequest .create 0 0 [], testRequest .write 1 1022 [1, 2, 3, 0]])
      (newFaultyDisk 0 0 4)) = w := ⟨_, rfl⟩
  have hasks : Asks .write 1 (testRequest .write 1 1022 [5, 6, 7]).2 ⟨.write, 1, 1022, 3, 0, 0⟩ :=
    ⟨rfl, rfl, rfl⟩
  have hrun : serve (faulty secondRead) testEnv (testRequest .write 1 1022 [5, 6, 7]).2 w = _ :=
    eq_ok_of_returned (a := ()) (by
      rw [← hw]
      decide +kernel)
  have hok : (final (serve (faulty secondRead) testEnv (testRequest .write 1 1022 [5, 6, 7]).2
      w)).outbox = w.outbox ++ [(9, .plain .ok [])] := by
    rw [← hw]
    decide +kernel
  have hsize : (w.fss.fcbCache 1).stSize = 1026 := by
    rw [← hw]
    decide +kernel
  have hbyte : byteAt (w.disk.files 1).data 1025 = 0 := by
    rw [← hw]
    decide +kernel
  have hunread : TailUnread secondRead w 1 1022 3 := by
    constructor
    · rw [hsize]
      decide
    · refine ⟨1, by decide, ?_⟩
      rw [← hw]
      decide +kernel
  have hharmless : Harmless secondRead w 1 1022 3 testEnv := by
    constructor
    · intro _ k hle hk _ _
      rw [hsize] at hk
      obtain rfl : k = 1025 := by
        change 1022 + 3 ≤ k at hle
        change k < 1026 at hk
        omega
      exact hbyte
    · intro k h
      cases h.table
  exact ⟨w, _, hrun, hunread, (acknowledged_write_iff hasks (by decide) hrun hok).mpr hharmless⟩

/-- The second block of a file cannot be read while bytes are written across its beginning:
the write is acknowledged, and the bytes behind it are gone. -/
theorem short_read_loses_bytes :
    let svr := faulty fun call n => call == .read && n == 1
    let w := final ((do
      boot svr testEnv
      serveAll svr [testRequest .create 0 0 [], testRequest .write 1 1022 [1, 2, 3, 4]])
      (newFaultyDisk 0 0 4))
    let w' := final (serve svr testEnv (testRequest .write 1 1022 [5, 6, 7]).2 w)
    w'.outbox = w.outbox ++ [(9, .plain .ok [])] ∧ (w.fss.fcbCache 1).stSize = 1026 ∧
      byteAt (w.disk.files 1).data 1025 = 4 ∧ byteAt (w'.disk.files 1).data 1025 = 0 := by
  decide +kernel

end Egos.File
