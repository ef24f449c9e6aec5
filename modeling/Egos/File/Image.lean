import Egos.File.Copying
import Egos.File.Flush
import Egos.File.ByteFiles

/-!
# The block file server on an image of mkfs

The server finds the table that mkfs wrote and reads every file as it was stored. Writes at
or behind the end are another matter: the server takes it that the block its write begins in
is on disk, even when the file ends on a block boundary, and that there are zeros behind the
end. `Appendable` says when a write behaves as it should.
-/
namespace Egos.File

open Egos.Lib Egos.Disk Bfs Reference

set_option autoImplicit false

/-- Every read of the file returns what these bytes have there. -/
def ReadsAs (w : World (Files Block)) (fileNo : Nat) (bytes : List Byte) : Prop :=
  ∀ (env : Env) (msg : Message) (req : FileRequest), msg.request = some req → req.type = .read →
    req.fileNo.toNat = fileNo →
      serve sparse env msg w = .ok () { w with outbox := w.outbox ++
        [(msg.src, readReply (readAt bytes req.offset.toNat req.size.toNat))] }

/-- The file as it should be after a write at or behind its end. -/
def appended (bytes : List Byte) (offset : Nat) (data : List Byte) : List Byte :=
  bytes ++ List.replicate (offset - bytes.length) 0 ++ data

/-- A write by root is acknowledged, and the file then reads as it should. -/
def WritesAs (w : World (Files Block)) (fileNo : Nat) (bytes : List Byte) (offset : BitVec 64)
    (data : List Byte) : Prop :=
  ∀ (env : Env) (msg : Message) (req : FileRequest), msg.request = some req → req.type = .write →
    req.fileNo.toNat = fileNo → msg.uid = 0 → req.offset = offset →
    req.size.toNat = data.length → msg.payload = data →
      ∃ w', serve sparse env msg w = .ok () w' ∧
        w'.outbox = w.outbox ++ [(msg.src, .plain .ok [])] ∧
        ReadsAs w' fileNo (appended bytes offset.toNat data)

/-- The message can carry the data, no size wraps around, the write does not begin in the
block behind a full last block, and there are zeros in the gap. -/
structure Appendable (file : SparseFile Block) (bytes : List Byte) (offset : Nat)
    (data : List Byte) : Prop where
  message : data.length ≤ fileMaxMsgSize
  room : offset + data.length ≤ 2 ^ 32 - blockSize
  block : bytes.length = 0 ∨ bytes.length % blockSize ≠ 0 ∨
    offset / blockSize ≠ bytes.length / blockSize
  gap : ∀ k, bytes.length ≤ k → k < offset → byteAt file.data k = 0

theorem length_appended {bytes data : List Byte} {offset : Nat} (h : bytes.length ≤ offset) :
    (appended bytes offset data).length = offset + data.length := by
  unfold appended
  rw [List.length_append, List.length_append, List.length_replicate]
  omega

theorem getD_appended {bytes data : List Byte} {offset : Nat} (h : bytes.length ≤ offset)
    (k : Nat) :
    (appended bytes offset data).getD k 0 = overlay (fun k => bytes.getD k 0) offset data k := by
  have hlen : (bytes ++ List.replicate (offset - bytes.length) (0 : Byte)).length = offset := by
    rw [List.length_append, List.length_replicate]
    omega
  unfold appended
  by_cases hk : k < offset
  · rw [overlay_outside (.inl hk), List.getD_append _ _ _ _ (by omega), getD_pad]
  · obtain ⟨j, rfl⟩ := Nat.exists_eq_add_of_le (Nat.le_of_not_lt hk)
    rw [List.getD_append_right _ _ _ _ (by omega), hlen, Nat.add_sub_cancel_left]
    by_cases hj : j < data.length
    · rw [overlay_inside hj]
    · rw [overlay_outside (.inr (by omega)), List.getD_eq_default _ _ (by omega),
        List.getD_eq_default _ _ (by omega)]

theorem readAt_one {bytes : List Byte} {k : Nat} (h : k < bytes.length) :
    readAt bytes k 1 = [bytes.getD k 0] := by
  rw [readAt_eq]
  unfold slice
  rw [show min 1 (bytes.length - k) = 1 by omega]
  rfl

/-- A file that everyone may read, with all of its bytes. -/
structure Present (w : World (Files Block)) (fileNo : Nat) (bytes : List Byte) : Prop where
  lt : fileNo < w.fss.numFcbs.toNat
  alloc : (w.fss.fcbCache fileNo).stAlloc = true
  mode : (w.fss.fcbCache fileNo).stMode =
    Permission.otherRead ||| Permission.ownerRead ||| Permission.ownerWrite
  length : (w.fss.fcbCache fileNo).stSize.toNat = bytes.length
  blocks : ∀ k, k < bytes.length → k / blockSize < (w.disk fileNo).size
  data : ∀ k, k < bytes.length → byteAt (w.disk fileNo).data k = bytes.getD k 0

theorem readAllowed_of_mode {fcb : FileControlBlock} (uid : BitVec 32) (h : fcb.stMode =
      Permission.otherRead ||| Permission.ownerRead ||| Permission.ownerWrite) :
    readAllowed fcb uid = true := by
  unfold readAllowed
  rw [h]
  split
  · rfl
  · split
    · rfl
    · rfl

/-- Where all the bytes are there, slices of the view and of the list are the same. -/
theorem slice_eq_readAt {view : Buffer} {bytes : List Byte}
    (h : ∀ k, k < bytes.length → view k = bytes.getD k 0) (offset size : Nat) :
    slice view bytes.length offset size = readAt bytes offset size := by
  rw [readAt_eq]
  unfold slice
  apply List.map_congr_left
  intro i hi
  have hlt := List.mem_range.mp hi
  exact h _ (by omega)

theorem Present.readsAs {w : World (Files Block)} {fileNo : Nat} {bytes : List Byte}
    (h : Present w fileNo bytes) (hsize : bytes.length ≤ 2 ^ 32 - blockSize) :
    ReadsAs w fileNo bytes := by
  intro env msg req hreq ht hf
  subst hf
  have hbs : blockSize = 1024 := rfl
  have hL := h.length
  have hout : Outcome (doRead sparse env req msg.src msg.uid) _ _ w := outcome_doRead_bytes
    (badInode_false.mpr ⟨h.lt, h.alloc⟩) (readAllowed_of_mode msg.uid h.mode) (by omega)
    (fun k hk => h.blocks k (by omega)) (.inr (by omega))
  rw [hL, slice_eq_readAt h.data] at hout
  obtain ⟨u, w', hrun, rfl⟩ := hout.exists_ok
  unfold serve
  rw [hreq]
  simp only [ht]
  exact hrun

/-- A read from the start whose buffer would not fit into 32 bits is not answered. -/
theorem outcome_doRead_short {env : Env} {w : World (Files Block)} {req : FileRequest}
    {src uid : BitVec 32} (ho : req.offset.toNat = 0) :
    Outcome (doRead sparse env req src uid)
      (fun _ w' => ∀ data, w'.outbox = w.outbox ++ [(src, readReply data)] →
        data.length ≤ 2 ^ 32 - blockSize)
      (fun _ _ => True) w := by
  have hsent : ∀ {rep : FileReply} {data : List Byte},
      w.outbox ++ [(src, rep)] = w.outbox ++ [(src, readReply data)] → rep = readReply data := by
    intro rep data h
    have hlast := List.append_cancel_left h
    simpa using hlast
  have hnil : ∀ data : List Byte,
      w.outbox ++ [(src, readReply [])] = w.outbox ++ [(src, readReply data)] →
        data.length ≤ 2 ^ 32 - blockSize := by
    intro data h
    have hdata : ([] : List Byte) = data := congrArg FileReply.data (hsent h)
    rw [← hdata]
    exact Nat.zero_le _
  have herror : ∀ data : List Byte,
      w.outbox ++ [(src, FileReply.plain .error [])] = w.outbox ++ [(src, readReply data)] →
        data.length ≤ 2 ^ 32 - blockSize := by
    intro data h
    exact absurd (congrArg FileReply.status (hsent h)) (by simp [FileReply.plain, readReply])
  unfold doRead
  simp only [Outcome.bind_iff, Outcome.get_iff]
  split
  · exact herror
  · split
    · exact herror
    · split
      · exact hnil
      · split
        · simp only [Outcome.bind_iff, outcome_onDisk]
          split
          · exact herror
          · split
            · trivial
            · split
              · exact herror
              · rename_i hroom hcount
                intro data h
                have hlen : ((List.range (readLength (w.fss.fcbCache req.fileNo.toNat).stSize
                    req.offset req.size).toNat).map _).length = data.length :=
                  congrArg (fun rep => rep.data.length) (hsent h)
                rw [List.length_map, List.length_range] at hlen
                rw [Decidable.not_not.mp hcount] at hroom
                generalize readLength (w.fss.fcbCache req.fileNo.toNat).stSize req.offset
                  req.size = n at hlen hroom
                have hn := n.isLt
                rw [readRoom (readNblock_le _ _), readNblock_toNat, ho] at hroom
                rw [← hlen]
                unfold blockSize at *
                split at hroom <;> omega
        · exact hnil

theorem Present.congr {w w' : World (Files Block)} {fileNo : Nat} {bytes : List Byte}
    (h : Present w fileNo bytes) (hfss : w'.fss = w.fss) (hdisk : w'.disk = w.disk) :
    Present w' fileNo bytes := by
  constructor
  · rw [hfss]; exact h.lt
  · rw [hfss]; exact h.alloc
  · rw [hfss]; exact h.mode
  · rw [hfss]; exact h.length
  · rw [hdisk]; exact h.blocks
  · rw [hdisk]; exact h.data

section Append

variable {w : World (Files Block)} {fileNo : Nat} {bytes : List Byte}

theorem outcome_serve_write (h : Present w fileNo bytes)
    (htidy : Tidy bytes.length (w.disk fileNo)) (h0 : fileNo ≠ 0) {env : Env} {msg : Message}
    {req : FileRequest} (hreq : msg.request = some req) (ht : req.type = .write)
    (hf : req.fileNo.toNat = fileNo) (huid : msg.uid = 0)
    (hlen : req.size.toNat = msg.payload.length) (hfits : msg.payload.length ≤ fileMaxMsgSize)
    (hL : bytes.length < 2 ^ 42) (ho : req.offset.toNat + msg.payload.length < 2 ^ 42) :
    Outcome (serve sparse env msg)
      (fun _ w' =>
        (Missing (w.disk fileNo) bytes.length req.offset.toNat ∧
          w'.outbox = w.outbox ++ [(msg.src, .plain .error [])]) ∨
        (¬Missing (w.disk fileNo) bytes.length req.offset.toNat ∧
          w'.outbox = w.outbox ++ [(msg.src, .plain .ok [])] ∧
          ∃ w₁, Stored env fileNo req.offset.toNat msg.payload w w₁ ∧ w'.fss = w₁.fss ∧
            w'.disk = w₁.disk))
      (fun _ _ => False) w := by
  subst hf
  have hbad := badInode_false.mpr ⟨h.lt, h.alloc⟩
  have hsize : req.size = BitVec.ofNat 32 msg.payload.length := by
    rw [← hlen, BitVec.ofNat_toNat, BitVec.setWidth_eq]
  have hput : Outcome (put sparse env req.fileNo.toNat req.offset msg.payload
      (BitVec.ofNat 32 msg.payload.length)) _ _ w :=
    outcome_put_bytes (by rw [h.length]; exact hL) (by rw [← hsize]; exact hlen) ho
      (by rw [h.length]; exact htidy) h0 h.lt
  rw [h.length] at hput
  unfold serve
  rw [hreq]
  simp only [ht]
  rw [List.take_of_length_le hfits]
  unfold doWrite
  simp only [Outcome.bind_iff, Outcome.get_iff]
  rw [if_neg hbad, if_neg (fun hne => hne hsize), huid, if_neg (by simp [writeAllowed])]
  simp only [Outcome.bind_iff]
  refine hput.post (fun r w' hw' => ?_)
  rcases hw' with ⟨hr, rfl, hmissing⟩ | ⟨hr, hstored, hmissing⟩
  · rw [if_neg (by rw [hr]; decide)]
    exact .inl ⟨hmissing, rfl⟩
  · rw [if_pos hr]
    exact .inr ⟨hmissing, by rw [← hstored.outbox], w', hstored, rfl, rfl⟩

theorem Present.stored (h : Present w fileNo bytes) {env : Env} {offset : Nat} {data : List Byte}
    {w' : World (Files Block)} (hs : Stored env fileNo offset data w w')
    (hle : bytes.length ≤ offset) (ho : offset + data.length < 2 ^ 64) :
    Present w' fileNo
      ((List.range (offset + data.length)).map (byteAt (w'.disk fileNo).data)) := by
  have hfcb : w'.fss.fcbCache fileNo = { w.fss.fcbCache fileNo with
      stSize := BitVec.ofNat 64 (max (w.fss.fcbCache fileNo).stSize.toNat (offset + data.length))
      stModtime := modtime w.fss env } := by
    rw [hs.fss]
    exact Function.update_self _ _ _
  constructor
  · rw [hs.fss]
    exact h.lt
  · rw [hfcb]
    exact h.alloc
  · rw [hfcb]
    exact h.mode
  · rw [hfcb, List.length_map, List.length_range]
    change (BitVec.ofNat 64 _).toNat = _
    rw [BitVec.toNat_ofNat, h.length]
    omega
  · intro k hk
    rw [List.length_map, List.length_range] at hk
    rw [hs.size]
    unfold blockSize
    omega
  · intro k hk
    rw [List.getD_eq_getElem _ _ hk, List.getElem_map, List.getElem_range]

theorem Present.stored_eq (h : Present w fileNo bytes) {env : Env} {offset : Nat}
    {data : List Byte} {w' : World (Files Block)} (hs : Stored env fileNo offset data w w')
    (hle : bytes.length ≤ offset)
    (hgap : ∀ k, bytes.length ≤ k → k < offset → byteAt (w.disk fileNo).data k = 0) :
    (List.range (offset + data.length)).map (byteAt (w'.disk fileNo).data) =
      appended bytes offset data := by
  apply List.ext_getElem
  · rw [length_appended hle, List.length_map, List.length_range]
  · intro k hk hk'
    rw [List.getElem_map, List.getElem_range, hs.bytes, ← List.getD_eq_getElem _ 0 hk',
      getD_appended hle]
    rw [List.length_map, List.length_range] at hk
    by_cases hin : k < offset
    · rw [overlay_outside (.inl hin), overlay_outside (.inl hin)]
      by_cases hb : k < bytes.length
      · exact h.data k hb
      · rw [hgap k (by omega) hin]
        exact (List.getD_eq_default _ _ (by omega)).symm
    · obtain ⟨j, rfl⟩ := Nat.exists_eq_add_of_le (Nat.le_of_not_lt hin)
      rw [overlay_inside (by omega), overlay_inside (by omega)]

/-- What holds of a file in an image of mkfs. -/
structure Fresh (w : World (Files Block)) (fileNo : Nat) (bytes : List Byte) : Prop
    extends Present w fileNo bytes where
  size : (w.disk fileNo).size = (bytes.length + (blockSize - 1)) / blockSize
  blank : (w.disk fileNo).Blank fun _ => 0

theorem Fresh.tidy (h : Fresh w fileNo bytes) : Tidy bytes.length (w.disk fileNo) := by
  refine ⟨h.blank, fun b hb => h.blank b ?_⟩
  rw [h.size]
  unfold blockSize at *
  omega

theorem Fresh.missing_iff (h : Fresh w fileNo bytes) {offset : Nat} :
    Missing (w.disk fileNo) bytes.length offset ↔
      bytes.length ≠ 0 ∧ bytes.length % blockSize = 0 ∧
        offset / blockSize = bytes.length / blockSize := by
  unfold Missing
  rw [h.size]
  unfold blockSize
  omega

theorem Fresh.writesAs (h : Fresh w fileNo bytes) (h0 : fileNo ≠ 0) {offset : BitVec 64}
    {data : List Byte} (hle : bytes.length ≤ offset.toNat)
    (ha : Appendable (w.disk fileNo) bytes offset.toNat data) :
    WritesAs w fileNo bytes offset data := by
  intro env msg req hreq ht hf huid hoffset hsize hdata
  subst hoffset hdata
  have hbs : blockSize = 1024 := rfl
  have hroom := ha.room
  obtain ⟨u, w', hrun, hw'⟩ := (outcome_serve_write h.toPresent h.tidy h0 hreq ht hf huid hsize
    ha.message (by omega) (by omega)).exists_ok
  rcases hw' with ⟨hmissing, -⟩ | ⟨-, hout, w₁, hstored, hfss, hdisk⟩
  · rw [h.missing_iff] at hmissing
    rcases ha.block with hb | hb | hb
    · exact absurd hb hmissing.1
    · exact absurd hmissing.2.1 hb
    · exact absurd hmissing.2.2 hb
  · have hp := (h.toPresent.stored hstored hle (by omega)).congr hfss hdisk
    rw [h.toPresent.stored_eq hstored hle ha.gap] at hp
    exact ⟨w', hrun, hout, hp.readsAs (by rw [length_appended hle]; exact hroom)⟩

/-- A request by root with nothing in its other fields. -/
def rootMessage (type : FileOp) (fileNo : Nat) (offset : BitVec 64) (size : BitVec 32)
    (payload : List Byte) : Message :=
  ⟨0, 0, some ⟨type, BitVec.ofNat 32 fileNo, offset, size, 0, 0⟩, payload⟩

theorem ReadsAs.length_le (h : ReadsAs w fileNo bytes) (hf : fileNo < 2 ^ 32) :
    bytes.length ≤ 2 ^ 32 - blockSize := by
  have hbs : blockSize = 1024 := rfl
  have hno : (BitVec.ofNat 32 fileNo).toNat = fileNo := by
    rw [BitVec.toNat_ofNat, Nat.mod_eq_of_lt hf]
  have hrun := h ⟨0, 0, fun _ => 0⟩ (rootMessage .read fileNo 0 (BitVec.ofNat 32 (2 ^ 32 - 1)) []) _
    rfl rfl hno
  have hshort := (outcome_doRead_short rfl).ok hrun _ rfl
  unfold readAt at hshort
  rw [List.length_take, List.length_drop] at hshort
  change min (2 ^ 32 - 1) (bytes.length - 0) ≤ _ at hshort
  omega

theorem ReadsAs.byte_eq {bytes' : List Byte} (h : ReadsAs w fileNo bytes)
    (h' : ReadsAs w fileNo bytes') (hf : fileNo < 2 ^ 32) {k : Nat} (hk : k < bytes.length)
    (hk' : k < bytes'.length) (hlt : k < 2 ^ 64) : bytes.getD k 0 = bytes'.getD k 0 := by
  have hno : (BitVec.ofNat 32 fileNo).toNat = fileNo := by
    rw [BitVec.toNat_ofNat, Nat.mod_eq_of_lt hf]
  have hk64 : (BitVec.ofNat 64 k).toNat = k := by
    rw [BitVec.toNat_ofNat, Nat.mod_eq_of_lt hlt]
  have hread := h ⟨0, 0, fun _ => 0⟩ (rootMessage .read fileNo (BitVec.ofNat 64 k) 1 []) _
    rfl rfl hno
  have hread' := h' ⟨0, 0, fun _ => 0⟩ (rootMessage .read fileNo (BitVec.ofNat 64 k) 1 []) _
    rfl rfl hno
  rw [hread] at hread'
  have hsame := congrArg (fun w : World (Files Block) => w.outbox)
    (EStateM.Result.ok.inj hread').2
  have hdata := congrArg (List.map fun r => r.2.data) (List.append_cancel_left hsame)
  simp only [List.map_cons, List.map_nil, readReply, List.cons.injEq, and_true] at hdata
  change readAt _ (BitVec.ofNat 64 k).toNat 1 = readAt _ (BitVec.ofNat 64 k).toNat 1 at hdata
  rw [hk64, readAt_one hk, readAt_one hk'] at hdata
  exact (List.cons.inj hdata).1

/-- The condition is needed. -/
theorem WritesAs.appendable (h : bytes.length < 2 ^ 32 → Fresh w fileNo bytes) (h0 : fileNo ≠ 0)
    (hf : fileNo < 2 ^ 32) {offset : BitVec 64} {data : List Byte}
    (hle : bytes.length ≤ offset.toNat) (hdata : data.length < 2 ^ 32)
    (hw : WritesAs w fileNo bytes offset data) :
    Appendable (w.disk fileNo) bytes offset.toNat data := by
  have hbs : blockSize = 1024 := rfl
  have hno : (BitVec.ofNat 32 fileNo).toNat = fileNo := by
    rw [BitVec.toNat_ofNat, Nat.mod_eq_of_lt hf]
  have hsize : (BitVec.ofNat 32 data.length).toNat = data.length := by
    rw [BitVec.toNat_ofNat, Nat.mod_eq_of_lt hdata]
  obtain ⟨w', hrun, hout, hreads⟩ := hw ⟨0, 0, fun _ => 0⟩
    (rootMessage .write fileNo offset (BitVec.ofNat 32 data.length) data) _ rfl rfl hno rfl rfl
    hsize rfl
  have hroom := hreads.length_le hf
  rw [length_appended hle] at hroom
  have herror : w'.outbox ≠ w.outbox ++ [(0, .plain .error [])] := by
    intro he
    rw [hout] at he
    have hlast := List.append_cancel_left he
    simp [FileReply.plain, rootMessage] at hlast
  have hmessage : data.length ≤ fileMaxMsgSize := by
    apply Decidable.byContradiction
    intro hlong
    refine herror ?_
    rw [(outcome_serve_long _ rfl rfl hsize (Nat.lt_of_not_le hlong)).ok hrun]
    rfl
  have hfresh := h (by omega)
  have hwritten := (outcome_serve_write hfresh.toPresent hfresh.tidy h0 rfl rfl hno rfl hsize
    hmessage (by omega) (by change offset.toNat + data.length < _; omega)).ok hrun
  rcases hwritten with ⟨-, he⟩ | ⟨hpresent, -, w₁, hstored, hfss, hdisk⟩
  · exact absurd he herror
  · refine ⟨hmessage, hroom, ?_, fun k hk hlt => ?_⟩
    · change ¬Missing _ _ offset.toNat at hpresent
      rw [hfresh.missing_iff] at hpresent
      omega
    · -- the byte that the server returns for it is the one that should be there
      change Stored _ _ offset.toNat data w w₁ at hstored
      have hp := (hfresh.toPresent.stored hstored hle (by omega)).congr hfss hdisk
      have hbyte := (hp.readsAs (by rw [List.length_map, List.length_range]; exact hroom)).byte_eq
        hreads hf (by rw [List.length_map, List.length_range]; omega)
        (show k < _ by rw [length_appended hle]; omega) (by omega)
      rw [List.getD_eq_getElem _ _ (by rw [List.length_map, List.length_range]; omega),
        List.getElem_map, List.getElem_range, hstored.bytes, overlay_outside (.inl hlt),
        getD_appended hle, overlay_outside (.inl hlt)] at hbyte
      rw [hbyte]
      exact List.getD_eq_default _ _ hk

end Append

/-- The block store before mkfs writes to it. -/
def blankImage : Mkfs.Image := ⟨1, fun _ => .zero, fun _ => .empty fun _ => 0, []⟩

theorem inv_blankImage : Mkfs.Inv blankImage :=
  ⟨by decide, rfl, fun _ _ => rfl, fun _ h => absurd h List.not_mem_nil⟩

/-- The table of the image is on its disk, and so are the files. -/
theorem outcome_mkfs (stack : Nat → Buffer) (args : Listing) (uid : BitVec 32) (de : Buffer)
    (now globalTime : BitVec 64) (startTime : BitVec 32) :
    Outcome (Mkfs.main Mkfs.sparseStore stack args uid de now)
      (fun _ s => Durable ⟨⟨globalTime, startTime, s.stats, BitVec.ofNat 32 Mkfs.ninodes⟩,
          s.disk, []⟩ ∧ ∀ entry ∈ s.stored, Mkfs.Copied s entry)
      (fun _ _ => True) blankImage := by
  unfold Mkfs.main
  dsimp only
  generalize hn : (Mkfs.ninodes * FileControlBlock.sizeof + (blockSize - 1)) / blockSize = n
  refine Outcome.seq (Mkfs.keeps_argLoop stack uid args de blankImage inv_blankImage)
    (fun _ s hs => ?_)
  simp only [Outcome.bind_iff, Outcome.modify_iff, Outcome.get_iff]
  refine Outcome.post (Mkfs.outcome_writeLoop 0 (fun _ _ => trivial) _
    (writeBlocks_zero s.disk _ _ _).symm) (fun _ s' hpost => ?_)
  obtain ⟨_, hs'⟩ := hpost
  rw [Nat.zero_add] at hs'
  subst hs'
  apply outcome_onPart
  refine ⟨⟨?_, fun k hk => ?_⟩, fun entry he => ?_⟩
  · change (writeBlocks s.disk 0 0 _ n 0).size =
      (Mkfs.ninodes * FileControlBlock.sizeof + (blockSize - 1)) / blockSize
    rw [hn, writeBlocks_size _ _ _ _ (by rw [← hn]; decide), hs.1.table, Nat.zero_add]
    exact Nat.max_eq_right (Nat.zero_le _)
  · have hblocks : k / blockSize < 0 + n := by
      change k < Mkfs.ninodes * FileControlBlock.sizeof at hk
      unfold Mkfs.ninodes FileControlBlock.sizeof blockSize at *
      omega
    change byteAt (writeBlocks s.disk 0 0 _ _ 0).data k = _
    rw [writeBlocks_inside _ _ (Nat.zero_le _) hblocks, Nat.zero_mul, Nat.sub_zero]
    rfl
  · obtain ⟨-, hc⟩ := hs.1.copied entry he
    refine ⟨hc.pos, hc.lt, fun hlen => ?_⟩
    change Mkfs.Holds (Function.update s.stats 0 _ entry.1) (writeBlocks s.disk 0 0 _ _ entry.1) _
    rw [Function.update_of_ne hc.pos, writeBlocks_other _ _ _ _ hc.pos]
    exact hc.holds hlen

/-- A server that is started on the image has its files. -/
theorem boot_image {s : Mkfs.Image} {globalTime : BitVec 64} {startTime : BitVec 32}
    (hd : Durable ⟨⟨globalTime, startTime, s.stats, BitVec.ofNat 32 Mkfs.ninodes⟩, s.disk, []⟩)
    (hc : ∀ entry ∈ s.stored, Mkfs.Copied s entry) (env : Env) :
    ∃ w, boot sparse env
        ⟨fresh globalTime startTime (BitVec.ofNat 32 Mkfs.ninodes), s.disk, []⟩ = .ok () w ∧
      w.disk = s.disk ∧
      ∀ entry ∈ s.stored, entry.2.length < 2 ^ 32 → Fresh w entry.1 entry.2 := by
  obtain ⟨w, hload, ⟨hdisk, hnum⟩, htable⟩ := hd.load
    (show 0 < (BitVec.ofNat 32 Mkfs.ninodes).toNat by decide)
    (show (BitVec.ofNat 32 Mkfs.ninodes).toNat * FileControlBlock.sizeof < 2 ^ 32 by decide)
    (show WholeBlocks (BitVec.ofNat 32 Mkfs.ninodes) by decide) env
    (show (fresh globalTime startTime (BitVec.ofNat 32 Mkfs.ninodes)).numFcbs = _ from rfl) []
  refine ⟨w, ?_, hdisk, fun entry he hlen => ?_⟩
  · unfold boot
    simp only [bind, EStateM.bind]
    rw [hload]
    rfl
  · have hentry := hc entry he
    have hheld := hentry.holds hlen
    have hlt : entry.1 < (fresh globalTime startTime (BitVec.ofNat 32 Mkfs.ninodes)).numFcbs.toNat :=
      hentry.lt
    have hfcb := htable entry.1 hlt
    dsimp only at hdisk hfcb
    refine ⟨⟨by rw [hnum]; exact hlt, ?_, ?_, ?_, fun k hk => ?_, ?_⟩, ?_, ?_⟩
    · rw [hfcb]
      exact hheld.alloc
    · rw [hfcb]
      exact hheld.mode
    · rw [hfcb]
      exact hheld.length
    · rw [hdisk, hheld.size]
      unfold blockSize
      omega
    · rw [hdisk]
      exact hheld.data
    · rw [hdisk]
      exact hheld.size
    · rw [hdisk]
      exact hheld.blank

/-- Whatever mkfs has copied into an image, the server that is started on it reads it as it was
and writes to it as it should exactly when the write is appendable. -/
theorem image_writes_iff {stack : Nat → Buffer} {args : Listing} {uid : BitVec 32} {de : Buffer}
    {now globalTime : BitVec 64} {startTime : BitVec 32} {env : Env} {s : Mkfs.Image}
    (hmkfs : Mkfs.main Mkfs.sparseStore stack args uid de now blankImage = .ok () s) :
    ∃ w, boot sparse env
        ⟨fresh globalTime startTime (BitVec.ofNat 32 Mkfs.ninodes), s.disk, []⟩ = .ok () w ∧
      ∀ entry ∈ s.stored, ∀ (offset : BitVec 64) (data : List Byte),
        entry.2.length ≤ offset.toNat → data.length < 2 ^ 32 →
          (ReadsAs w entry.1 entry.2 ∧ WritesAs w entry.1 entry.2 offset data ↔
            Appendable (s.disk entry.1) entry.2 offset.toNat data) := by
  obtain ⟨hd, hc⟩ := (outcome_mkfs stack args uid de now globalTime startTime).ok hmkfs
  obtain ⟨w, hboot, hdisk, hfresh⟩ := boot_image hd hc env
  refine ⟨w, hboot, fun entry he offset data hle hdata => ?_⟩
  have hbs : blockSize = 1024 := rfl
  have hlt : entry.1 < 2 ^ 32 := Nat.lt_trans (hc entry he).lt (by decide)
  rw [← hdisk]
  constructor
  · intro h
    exact h.2.appendable (hfresh entry he) (hc entry he).pos hlt hle hdata
  · intro h
    have hroom := h.room
    have hf := hfresh entry he (by omega)
    exact ⟨hf.toPresent.readsAs (by omega), hf.writesAs (hc entry he).pos hle h⟩

/-- `mkfs` with one file as its argument. -/
def oneFile (bytes : List Byte) : EStateM.Result Stop Mkfs.Image Unit :=
  Mkfs.main Mkfs.sparseStore (fun _ _ => 0) (.entry [0x61] (.file bytes) 0 .done .done) 0
    (fun _ => 0) 0 blankImage

/-- A file of three bytes; two more are written behind a gap of one. -/
theorem image_writes_three :
    (final (oneFile [1, 2, 3])).stored = [(1, [1, 2, 3])] ∧
    ∃ w, boot sparse testEnv
        ⟨fresh 0 0 (BitVec.ofNat 32 Mkfs.ninodes), (final (oneFile [1, 2, 3])).disk, []⟩ = .ok () w ∧
      (ReadsAs w 1 [1, 2, 3] ∧ WritesAs w 1 [1, 2, 3] 4 [5, 6] ↔
        Appendable ((final (oneFile [1, 2, 3])).disk 1) [1, 2, 3] 4 [5, 6]) := by
  have hstored : (final (oneFile [1, 2, 3])).stored = [(1, [1, 2, 3])] := by decide +kernel
  refine ⟨hstored, ?_⟩
  have hmkfs : oneFile [1, 2, 3] = .ok () (final (oneFile [1, 2, 3])) :=
    eq_ok_of_returned (by decide +kernel)
  generalize final (oneFile [1, 2, 3]) = s at hstored hmkfs ⊢
  obtain ⟨w, hboot, hiff⟩ := @image_writes_iff _ _ _ _ _ 0 0 testEnv s hmkfs
  exact ⟨w, hboot, hiff (1, [1, 2, 3]) (by rw [hstored]; exact List.mem_cons_self) 4 [5, 6]
    (by decide) (by decide)⟩

/-- The first byte behind a full block is refused. -/
theorem append_refused :
    let s := final (oneFile (List.replicate 1024 7))
    let booted := boot sparse testEnv ⟨fresh 0 0 (BitVec.ofNat 32 Mkfs.ninodes), s.disk, []⟩
    returned (oneFile (List.replicate 1024 7)) = some () ∧
      s.stored = [(1, List.replicate 1024 7)] ∧ returned booted = some () ∧
      (final (serve sparse testEnv (testRequest .write 1 1024 [1]).2 (final booted))).outbox =
        [(9, .plain .error [])] := by
  decide +kernel

end Egos.File
