import Egos.File.Requests

/-!
# Reading and writing the bytes of a file

The byte view of an inode, and what `blkfile_put` and `blkfile_do_read` do to it as long as
block numbers fit into 32 bits. A write reads the blocks that it changes in part, so it
depends on what lies behind the end of the file: `Tidy` says that blocks the write does not
read are zero. It fails exactly when the first block of its range should be there and is not.
-/
namespace Egos.File

open Egos.Lib Egos.Disk Bfs

set_option autoImplicit false

/-- Where a write into a file of this size reads nothing, the inode has nothing. -/
structure Tidy (size : Nat) (file : SparseFile Block) : Prop where
  blank : file.Blank fun _ => 0
  tail : ∀ b, size = 0 ∨ size / blockSize < b → file.data b = fun _ => 0

theorem byteAt_zero {file : SparseFile Block} {k : Nat}
    (h : file.data (k / blockSize) = fun _ => 0) : byteAt file.data k = 0 := by
  unfold byteAt
  rw [h]

section Plan

variable (fileSize : BitVec 64) {offset : BitVec 64} {size : BitVec 32}
  (ho : offset.toNat + size.toNat < 2 ^ 42)

include ho

theorem putPlan_stop : (offset + size.setWidth 64).toNat = offset.toNat + size.toNat := by
  have hs := size.isLt
  rw [BitVec.toNat_add, BitVec.toNat_setWidth]
  omega

theorem putPlan_finalSize :
    (putPlan fileSize offset size).finalSize.toNat =
      max fileSize.toNat (offset.toNat + size.toNat) := by
  have hstop := putPlan_stop ho
  unfold putPlan
  dsimp only
  split
  · rename_i h
    have hlt : fileSize.toNat < (offset + size.setWidth 64).toNat := h
    dsimp only
    omega
  · rename_i h
    have hge : ¬fileSize.toNat < (offset + size.setWidth 64).toNat := h
    dsimp only
    omega

theorem putPlan_endBlockNo :
    (putPlan fileSize offset size).endBlockNo.toNat =
      (offset.toNat + size.toNat) / blockSize := by
  have hstop := putPlan_stop ho
  unfold putPlan
  dsimp only
  split <;> rw [BitVec.toNat_udiv, toNat_blockSize64, hstop]

theorem putPlan_nblocks :
    (((putPlan fileSize offset size).endBlockNo - offset / BitVec.ofNat 64 blockSize + 1).setWidth
      32).toNat = (offset.toNat + size.toNat) / blockSize - offset.toNat / blockSize + 1 := by
  have hend := putPlan_endBlockNo fileSize ho
  rw [BitVec.toNat_setWidth, BitVec.toNat_add, BitVec.toNat_sub, BitVec.toNat_udiv,
    toNat_blockSize64, hend]
  simp only [show (1 : BitVec 64).toNat = 1 from rfl]
  unfold blockSize
  omega

theorem putPlan_psizeNblock (hs : offset.toNat / blockSize ≤ fileSize.toNat / blockSize) :
    (putPlan fileSize offset size).psizeNblock.toNat =
      min (fileSize.toNat / blockSize) ((offset.toNat + size.toNat) / blockSize) -
        offset.toNat / blockSize + 1 := by
  have hstop := putPlan_stop ho
  unfold putPlan
  dsimp only
  split
  · rename_i h
    have hlt : fileSize.toNat < (offset + size.setWidth 64).toNat := h
    simp only [BitVec.toNat_setWidth, BitVec.toNat_add, BitVec.toNat_sub, BitVec.toNat_udiv,
      toNat_blockSize64, show (1 : BitVec 64).toNat = 1 from rfl]
    unfold blockSize at *
    omega
  · rename_i h
    have hge : ¬fileSize.toNat < (offset + size.setWidth 64).toNat := h
    rw [BitVec.toNat_setWidth, BitVec.toNat_add, BitVec.toNat_sub, BitVec.toNat_udiv,
      BitVec.toNat_udiv, toNat_blockSize64, hstop]
    simp only [show (1 : BitVec 64).toNat = 1 from rfl]
    unfold blockSize at *
    omega

end Plan

/-- The block that a write at `offset` begins in is inside the file and not on disk. -/
def Missing (file : SparseFile Block) (fileSize offset : Nat) : Prop :=
  fileSize ≠ 0 ∧ offset / blockSize ≤ fileSize / blockSize ∧ file.size ≤ offset / blockSize

/-- What a successful write of `data` at `offset` does to the world. -/
structure Stored (env : Env) (fileNo offset : Nat) (data : List Byte)
    (w w' : World (Files Block)) : Prop where
  fss : w'.fss = w.fss.setFcb fileNo { w.fss.fcbCache fileNo with
    stSize := BitVec.ofNat 64 (max (w.fss.fcbCache fileNo).stSize.toNat (offset + data.length))
    stModtime := modtime w.fss env }
  size : (w'.disk fileNo).size =
    max (w.disk fileNo).size ((offset + data.length) / blockSize + 1)
  bytes : ∀ k, byteAt (w'.disk fileNo).data k =
    overlay (byteAt (w.disk fileNo).data) offset data k
  other : ∀ ino, ino ≠ 0 → ino ≠ fileNo → w'.disk ino = w.disk ino
  outbox : w'.outbox = w.outbox

section Write

variable {env : Env} {w : World (Files Block)} {fileNo : Nat} {offset : BitVec 64}
  {data : List Byte} {size : BitVec 32}

theorem startBlock_toNat (ho : offset.toNat < 2 ^ 42) :
    ((offset / BitVec.ofNat 64 blockSize).setWidth 32).toNat = offset.toNat / blockSize := by
  rw [BitVec.toNat_setWidth, BitVec.toNat_udiv, toNat_blockSize64]
  unfold blockSize
  omega

theorem putContents_bytes (hL : (w.fss.fcbCache fileNo).stSize.toNat < 2 ^ 42)
    (ho : offset.toNat + size.toNat < 2 ^ 42)
    (htidy : Tidy (w.fss.fcbCache fileNo).stSize.toNat (w.disk fileNo)) :
    Outcome (putContents sparse fileNo (w.fss.fcbCache fileNo).stSize
        (offset / BitVec.ofNat 64 blockSize)
        (putPlan (w.fss.fcbCache fileNo).stSize offset size).psizeNblock)
      (fun r w' => w' = w ∧
        match r with
        | none => Missing (w.disk fileNo) (w.fss.fcbCache fileNo).stSize.toNat offset.toNat
        | some contents =>
          ¬Missing (w.disk fileNo) (w.fss.fcbCache fileNo).stSize.toNat offset.toNat ∧
            ∀ k, k / blockSize ≤ (offset.toNat + size.toNat) / blockSize - offset.toNat / blockSize →
              contents k =
                byteAt (w.disk fileNo).data (offset.toNat / blockSize * blockSize + k))
      (fun _ _ => False) w := by
  have hstart := startBlock_toNat (show offset.toNat < 2 ^ 42 by omega)
  have hdiv : ∀ k, (offset.toNat / blockSize * blockSize + k) / blockSize =
      offset.toNat / blockSize + k / blockSize := by
    intro k
    unfold blockSize
    omega
  have hlt : (w.fss.fcbCache fileNo).stSize / BitVec.ofNat 64 blockSize <
      offset / BitVec.ofNat 64 blockSize ↔
      (w.fss.fcbCache fileNo).stSize.toNat / blockSize < offset.toNat / blockSize := by
    rw [BitVec.lt_def, BitVec.toNat_udiv, BitVec.toNat_udiv, toNat_blockSize64]
  unfold putContents
  split
  · rename_i hbeyond
    rw [hlt] at hbeyond
    refine ⟨rfl, fun hm => absurd hm.2.1 (by omega), fun k _ => ?_⟩
    refine (byteAt_zero (htidy.tail _ (.inr ?_))).symm
    rw [hdiv]
    exact Nat.lt_of_lt_of_le hbeyond (Nat.le_add_right _ _)
  · split
    · rename_i hzero
      have hz : (w.fss.fcbCache fileNo).stSize.toNat = 0 := by rw [hzero]; rfl
      exact ⟨rfl, fun hm => hm.1 hz, fun k _ => (byteAt_zero (htidy.tail _ (.inl hz))).symm⟩
    · rename_i hbeyond hzero
      rw [hlt] at hbeyond
      have hz : (w.fss.fcbCache fileNo).stSize.toNat ≠ 0 := fun h =>
        hzero (BitVec.eq_of_toNat_eq h)
      have hn := putPlan_psizeNblock _ ho (Nat.le_of_not_lt hbeyond)
      simp only [Outcome.bind_iff, outcome_onDisk, Outcome.pure_iff]
      rw [hstart, hn, multiblockRead_eq _ _ (by unfold blockSize at *; omega)]
      refine ⟨rfl, ?_⟩
      by_cases hmissing : (w.disk fileNo).size ≤ offset.toNat / blockSize
      · rw [if_pos ⟨by omega, hmissing⟩]
        exact ⟨hz, Nat.le_of_not_lt hbeyond, hmissing⟩
      · rw [if_neg (fun h => hmissing h.2)]
        refine ⟨fun hm => hmissing hm.2.2, fun k hk => ?_⟩
        dsimp only
        unfold readBlocks
        split
        · rfl
        · rename_i hout
          -- what was not read is behind the end of the file or of the inode
          refine (byteAt_zero ?_).symm
          rw [hdiv]
          by_cases hsize : (w.disk fileNo).size ≤ offset.toNat / blockSize + k / blockSize
          · exact htidy.blank _ hsize
          · exact htidy.tail _ (.inr (by unfold blockSize at *; omega))

theorem outcome_put_bytes (hL : (w.fss.fcbCache fileNo).stSize.toNat < 2 ^ 42)
    (hlen : size.toNat = data.length) (ho : offset.toNat + data.length < 2 ^ 42)
    (htidy : Tidy (w.fss.fcbCache fileNo).stSize.toNat (w.disk fileNo)) (h0 : fileNo ≠ 0)
    (hf : fileNo < w.fss.numFcbs.toNat) :
    Outcome (put sparse env fileNo offset data size)
      (fun r w' =>
        (r = -1 ∧ w' = w ∧
          Missing (w.disk fileNo) (w.fss.fcbCache fileNo).stSize.toNat offset.toNat) ∨
        (r = 0 ∧ Stored env fileNo offset.toNat data w w' ∧
          ¬Missing (w.disk fileNo) (w.fss.fcbCache fileNo).stSize.toNat offset.toNat))
      (fun _ _ => False) w := by
  have hn := w.fss.numFcbs.isLt
  have hstart := startBlock_toNat (show offset.toNat < 2 ^ 42 by omega)
  have hnblocks := putPlan_nblocks (w.fss.fcbCache fileNo).stSize
    (show offset.toNat + size.toNat < 2 ^ 42 by rw [hlen]; exact ho)
  have hfinal := putPlan_finalSize (w.fss.fcbCache fileNo).stSize
    (show offset.toNat + size.toNat < 2 ^ 42 by rw [hlen]; exact ho)
  rw [hlen] at hnblocks hfinal
  unfold put
  simp only [Outcome.bind_iff, Outcome.get_iff]
  refine (putContents_bytes hL (by rw [hlen]; exact ho) htidy).post (fun r w' hpost => ?_)
  obtain ⟨hw, hr⟩ := hpost
  subst hw
  cases r with
  | none => exact .inl ⟨rfl, rfl, hr⟩
  | some contents =>
    obtain ⟨hpresent, hcontents⟩ := hr
    simp only [Outcome.bind_iff, outcome_onDisk]
    rw [hstart, hnblocks, multiblockWrite_eq _ (by unfold blockSize; omega), if_pos rfl]
    simp only [Outcome.bind_iff, outcome_setFcb,
      outcome_flushFcbCache (show fileNo < 2 ^ 32 by omega), Outcome.pure_iff]
    refine .inr ⟨trivial, ⟨?_, ?_, fun k => ?_, fun ino hi hne => ?_, rfl⟩, hpresent⟩
    · rw [← hfinal, BitVec.ofNat_toNat, BitVec.setWidth_eq]
    · dsimp only
      rw [flushed_other _ _ _ _ h0, writeBlocks_size _ _ _ _ (by omega)]
      unfold blockSize
      omega
    · dsimp only
      rw [flushed_other _ _ _ _ h0]
      by_cases hin : offset.toNat / blockSize ≤ k / blockSize ∧
          k / blockSize ≤ (offset.toNat + data.length) / blockSize
      · rw [writeBlocks_inside _ _ hin.1 (by omega)]
        have hk : k - offset.toNat / blockSize * blockSize +
            offset.toNat / blockSize * blockSize = k := by
          unfold blockSize at *
          omega
        have hbase : contents (k - offset.toNat / blockSize * blockSize) =
            byteAt (w'.disk fileNo).data (k - offset.toNat / blockSize * blockSize +
              offset.toNat / blockSize * blockSize) := by
          rw [Nat.add_comm]
          apply hcontents
          rw [hlen]
          unfold blockSize at *
          omega
        rw [overlay_shift data hbase, hk, show offset.toNat % blockSize +
          offset.toNat / blockSize * blockSize = offset.toNat by unfold blockSize; omega]
      · have hout : k < offset.toNat ∨ offset.toNat + data.length ≤ k := by
          unfold blockSize at hin
          omega
        have hblocks : k / blockSize < offset.toNat / blockSize ∨ offset.toNat / blockSize +
            ((offset.toNat + data.length) / blockSize - offset.toNat / blockSize + 1) ≤
              k / blockSize := by
          unfold blockSize at *
          omega
        rw [writeBlocks_outside _ _ hblocks, overlay_outside hout]
    · dsimp only
      rw [flushed_other _ _ _ _ hi, writeBlocks_other _ _ _ _ hne]

end Write

section Read

variable {env : Env} {w : World (Files Block)} {req : FileRequest} {src uid : BitVec 32}

/-- The bytes that a read returns of a file of this size. -/
def slice (bytes : Buffer) (fileSize offset size : Nat) : List Byte :=
  (List.range (min size (fileSize - offset))).map fun i => bytes (offset + i)

theorem slice_nil {bytes : Buffer} {fileSize offset size : Nat}
    (h : size = 0 ∨ fileSize ≤ offset) : slice bytes fileSize offset size = [] := by
  unfold slice
  rw [show min size (fileSize - offset) = 0 by omega]
  rfl

theorem readLength_toNat {stSize offset : BitVec 64} {size : BitVec 32}
    (ho : offset.toNat < stSize.toNat) :
    (readLength stSize offset size).toNat =
      min size.toNat ((stSize.toNat - offset.toNat) % 2 ^ 32) := by
  have hn : ((stSize - offset).setWidth 32).toNat = (stSize.toNat - offset.toNat) % 2 ^ 32 := by
    rw [BitVec.toNat_setWidth, BitVec.toNat_sub_of_le (BitVec.le_def.mpr (by omega))]
  unfold readLength
  dsimp only
  split
  · rename_i h
    have hlt : size.toNat < ((stSize - offset).setWidth 32).toNat := h
    omega
  · rename_i h
    have hge : ¬size.toNat < ((stSize - offset).setWidth 32).toNat := h
    omega

theorem readNblock_eq (offset : BitVec 64) (n : BitVec 32) (hn : n.toNat ≠ 0)
    (ho : offset.toNat + n.toNat < 2 ^ 42) :
    (readNblock offset n).toNat =
      (offset.toNat + n.toNat - 1) / blockSize - offset.toNat / blockSize + 1 := by
  have hlast : (offset.toNat + n.toNat + (2 ^ 64 - 1)) % 2 ^ 64 = offset.toNat + n.toNat - 1 := by
    omega
  have hlt := n.isLt
  rw [readNblock_toNat, hlast]
  unfold blockSize
  omega

theorem readBlocks_slice (file : SparseFile Block) (heap : Buffer)
    {fileSize offset size n nblock : Nat} (hn : n = min size (fileSize - offset))
    (hnblock : nblock = (offset + n - 1) / blockSize - offset / blockSize + 1)
    (hcount : min nblock (file.size - offset / blockSize) = nblock) :
    (List.range n).map (fun i => readBlocks file (offset / blockSize) 0 nblock heap
      (offset % blockSize + i)) = slice (byteAt file.data) fileSize offset size := by
  unfold slice
  rw [← hn]
  apply List.map_congr_left
  intro i hi
  have hi' := List.mem_range.mp hi
  have hin : (offset % blockSize + i) / blockSize < nblock := by
    rw [hnblock]
    unfold blockSize
    omega
  unfold readBlocks
  rw [hcount, if_pos ⟨Nat.zero_le _, hin⟩, ← Nat.add_assoc, Nat.mul_comm, Nat.div_add_mod]

/-- A read of an allocated file whose blocks are all there, if its length survives the cut
and its blocks fit into the buffer. -/
theorem outcome_doRead_slice (hinode : ¬badInode w.fss req.fileNo.toNat)
    (hallowed : readAllowed (w.fss.fcbCache req.fileNo.toNat) uid)
    (hL : (w.fss.fcbCache req.fileNo.toNat).stSize.toNat < 2 ^ 42)
    (hblocks : ∀ k, k < (w.fss.fcbCache req.fileNo.toNat).stSize.toNat →
      k / blockSize < (w.disk req.fileNo.toNat).size)
    (hlength : min req.size.toNat
        ((w.fss.fcbCache req.fileNo.toNat).stSize.toNat - req.offset.toNat) ≤
      ((w.fss.fcbCache req.fileNo.toNat).stSize.toNat - req.offset.toNat) % 2 ^ 32)
    (hfew : req.size ≠ 0 → req.offset < (w.fss.fcbCache req.fileNo.toNat).stSize →
      (readNblock req.offset (readLength (w.fss.fcbCache req.fileNo.toNat).stSize req.offset
        req.size)).toNat < 2 ^ 22) :
    Outcome (doRead sparse env req src uid)
      (fun _ w' => w' = { w with outbox := w.outbox ++ [(src, readReply
        (slice (byteAt (w.disk req.fileNo.toNat).data)
          (w.fss.fcbCache req.fileNo.toNat).stSize.toNat req.offset.toNat req.size.toNat))] })
      (fun _ _ => False) w := by
  unfold doRead
  simp only [Outcome.bind_iff, Outcome.get_iff]
  rw [if_neg hinode, if_neg (by simp [hallowed])]
  split
  · rename_i hsize
    rw [slice_nil (.inl (by rw [hsize]; rfl))]
    rfl
  · rename_i hsize
    have hpos : req.size.toNat ≠ 0 := fun h => hsize (BitVec.eq_of_toNat_eq h)
    split
    · rename_i hoff
      have hlt : req.offset.toNat < (w.fss.fcbCache req.fileNo.toNat).stSize.toNat := hoff
      have hn : (readLength (w.fss.fcbCache req.fileNo.toNat).stSize req.offset req.size).toNat =
          min req.size.toNat ((w.fss.fcbCache req.fileNo.toNat).stSize.toNat - req.offset.toNat) := by
        rw [readLength_toNat hlt]
        omega
      have hstart := startBlock_toNat (show req.offset.toNat < 2 ^ 42 by omega)
      have hroom := hfew hsize hoff
      generalize readLength (w.fss.fcbCache req.fileNo.toNat).stSize req.offset req.size = n
        at hn hroom ⊢
      have hnblock := readNblock_eq req.offset n (by omega) (by omega)
      have hlast := hblocks (req.offset.toNat + n.toNat - 1) (by omega)
      have hcount : min (readNblock req.offset n).toNat
          ((w.disk req.fileNo.toNat).size - req.offset.toNat / blockSize) =
          (readNblock req.offset n).toNat := by
        rw [hnblock]
        unfold blockSize at *
        omega
      simp only [Outcome.bind_iff, outcome_onDisk]
      rw [hstart, multiblockRead_eq _ _ (by
          rw [hnblock]
          unfold blockSize
          omega), if_neg (by
        have := hblocks req.offset.toNat hlt
        omega), readRoom (by omega), if_pos hroom, hcount]
      dsimp only
      rw [if_neg (Nat.lt_irrefl _), if_neg (fun h => h rfl), outcome_send]
      rw [readBlocks_slice (w.disk req.fileNo.toNat) env.heap hn hnblock hcount]
    · rename_i hoff
      have hge : ¬req.offset.toNat < (w.fss.fcbCache req.fileNo.toNat).stSize.toNat := hoff
      rw [slice_nil (.inr (by omega))]
      rfl

/-- The same below 4 GiB, where only reads of the first and the last block need a longer
buffer. -/
theorem outcome_doRead_bytes (hinode : ¬badInode w.fss req.fileNo.toNat)
    (hallowed : readAllowed (w.fss.fcbCache req.fileNo.toNat) uid)
    (hL : (w.fss.fcbCache req.fileNo.toNat).stSize.toNat < 2 ^ 32)
    (hblocks : ∀ k, k < (w.fss.fcbCache req.fileNo.toNat).stSize.toNat →
      k / blockSize < (w.disk req.fileNo.toNat).size)
    (hroom : blockSize ≤ req.offset.toNat ∨
      min (w.fss.fcbCache req.fileNo.toNat).stSize.toNat (req.offset.toNat + req.size.toNat) ≤
        2 ^ 32 - blockSize) :
    Outcome (doRead sparse env req src uid)
      (fun _ w' => w' = { w with outbox := w.outbox ++ [(src, readReply
        (slice (byteAt (w.disk req.fileNo.toNat).data)
          (w.fss.fcbCache req.fileNo.toNat).stSize.toNat req.offset.toNat req.size.toNat))] })
      (fun _ _ => False) w := by
  refine outcome_doRead_slice hinode hallowed (by omega) hblocks (by omega) (fun hsize hoff => ?_)
  have hpos : req.size.toNat ≠ 0 := fun h => hsize (BitVec.eq_of_toNat_eq h)
  have hlt : req.offset.toNat < (w.fss.fcbCache req.fileNo.toNat).stSize.toNat := hoff
  have hn : (readLength (w.fss.fcbCache req.fileNo.toNat).stSize req.offset req.size).toNat = _ :=
    readLength_toNat hlt
  rw [readNblock_eq _ _ (by omega) (by omega), hn]
  unfold blockSize at *
  omega

end Read

end Egos.File
