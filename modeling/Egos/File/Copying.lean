import Egos.File.Mkfs
import Egos.File.Multiblock

/-!
# What mkfs leaves on the disk

`Copied` is what a stored file or directory looks like in the image: its bytes, in as many
blocks as they need, with whatever lay in the buffer behind them. Inodes are taken in order
and written once, so `Inv` is kept by every step of the traversal.
-/
namespace Egos.File.Mkfs

open Egos.Lib Egos.Disk

set_option autoImplicit false

/-- A block store of sparse files. -/
def sparseStore : BlockStore Block (Files Block) where
  getninodes := pure ninodes
  getsize ino := fun files => .ok (if ino < ninodes then toInt (files ino).size else -1) files
  setsize ino nblocks := fun files =>
    if ino < ninodes then
      .ok (toInt (files ino).size) (Function.update files ino
        ⟨nblocks, fun b => if b < nblocks then (files ino).data b else fun _ => 0⟩)
    else .ok (-1) files
  read ino offset := fun files =>
    .ok (if ino < ninodes then (files ino).read offset else none) files
  write ino offset block := fun files =>
    if ino < ninodes then
      .ok 0 (Function.update files ino ((files ino).write offset block))
    else .ok (-1) files
  sync _ := pure 0

abbrev Image := State (Files Block)

theorem outcome_nextIno {Q : Nat → Image → Prop} {E : Stop → Image → Prop} {s : Image} :
    Outcome nextIno Q E s ↔ Q s.ino { s with ino := s.ino + 1 } := Iff.rfl

theorem outcome_writeBlock {s : Image} {E : Stop → Image → Prop} (ino offset : Nat) (block : Block)
    (hE : ninodes ≤ ino → ∀ t, E .assert t) :
    Outcome (writeBlock sparseStore ino offset block)
      (fun _ s' => ino < ninodes ∧ s' = { s with
        disk := Function.update s.disk ino ((s.disk ino).write offset block) }) E s := by
  unfold writeBlock
  rw [Outcome.bind_iff]
  apply outcome_onPart
  change Outcome (fun files => if ino < ninodes then _ else _) _ _ _
  by_cases hi : ino < ninodes
  · refine Outcome.of_ok (if_pos hi) ?_
    rw [if_neg (by decide)]
    exact ⟨hi, rfl⟩
  · refine Outcome.of_ok (if_neg hi) ?_
    rw [if_pos (by decide)]
    exact hE (Nat.le_of_not_lt hi) _

theorem outcome_writeLoop {s : Image} {E : Stop → Image → Prop} (ino : Nat)
    (hE : ninodes ≤ ino → ∀ t, E .assert t) (addr : Buffer) {left i : Nat} {files : Files Block}
    (hs : s.disk = writeBlocks files ino 0 addr i) :
    Outcome (writeLoop sparseStore ino addr i left)
      (fun _ s' => (0 < left → ino < ninodes) ∧
        s' = { s with disk := writeBlocks files ino 0 addr (i + left) }) E s := by
  induction left generalizing i s with
  | zero =>
    refine ⟨by simp, ?_⟩
    rw [Nat.add_zero, ← hs]
  | succ left ih =>
    unfold writeLoop
    refine Outcome.seq (outcome_writeBlock ino i (blockAt addr i) hE) (fun _ s' hpost => ?_)
    obtain ⟨hlt, hs'⟩ := hpost
    have hnext : s'.disk = writeBlocks files ino 0 addr (i + 1) := by
      rw [← writeBlocks_succ, hs', ← hs, Nat.zero_add]
    refine (ih hnext).post (fun _ s'' hrest => ⟨fun _ => hlt, ?_⟩)
    rw [hrest.2, hs', show i + 1 + left = i + (left + 1) by omega]

/-- The bytes of a file and, in its last block, what lay on the stack. -/
def fileBuffer (stack : Buffer) (bytes : List Byte) : Buffer := fun k =>
  bytes.getD k (stack (k % blockSize))

theorem blockAt_fileBuffer (stack : Buffer) (bytes : List Byte) (i : Nat) :
    blockAt (overlay stack 0 ((bytes.drop (i * blockSize)).take blockSize)) 0 =
      blockAt (fileBuffer stack bytes) i := by
  funext j
  have hmod : (i * blockSize + j) % blockSize = j := by
    rw [Nat.mul_comm, Nat.mul_add_mod, Nat.mod_eq_of_lt j.isLt]
  unfold blockAt overlay fileBuffer
  rw [if_pos (Nat.zero_le _), hmod, Nat.zero_mul, Nat.zero_add, Nat.sub_zero]
  simp only [List.getD_eq_getElem?_getD, List.getElem?_take, List.getElem?_drop, if_pos j.isLt]

theorem outcome_fileLoop_frame {s : Image} {E : Stop → Image → Prop} {stack : Buffer}
    {ino fuel offset total : Nat} {rest : List Byte}
    (hE : rest ≠ [] → ninodes ≤ ino → ∀ t, E .assert t) :
    Outcome (fileLoop sparseStore stack ino fuel offset total rest)
      (fun _ s' => (0 < fuel → rest ≠ [] → ino < ninodes) ∧
        ∃ file, s' = { s with disk := Function.update s.disk ino file }) E s := by
  induction fuel generalizing s offset total rest with
  | zero => exact ⟨by simp, s.disk ino, by rw [Function.update_eq_self]⟩
  | succ fuel ih =>
    unfold fileLoop
    split
    · rename_i hnil
      exact ⟨fun _ hne => absurd hnil hne, s.disk ino, by rw [Function.update_eq_self]⟩
    · rename_i hne
      refine Outcome.seq (outcome_writeBlock ino offset _ (hE hne)) (fun _ s' hpost => ?_)
      obtain ⟨hlt, hs'⟩ := hpost
      refine (ih fun _ => hE hne).post (fun _ s'' hrest => ⟨fun _ _ => hlt, ?_⟩)
      obtain ⟨-, file, hfile⟩ := hrest
      refine ⟨file, ?_⟩
      rw [hfile, hs', Function.update_idem]

theorem total_step {len done : Nat} (n : Nat) (hdone : done < len) (hlen : len < 2 ^ 32) :
    (min len done + min n (len - done)) % 2 ^ 32 = min len (done + n) := by
  omega

/-- Below 4 GiB nothing wraps, and the blocks of the file are written one after the other. -/
theorem outcome_fileLoop (s : Image) (stack : Buffer) (ino : Nat) (files : Files Block)
    {bytes : List Byte} (hlen : bytes.length < 2 ^ 32) {fuel offset : Nat}
    (hfuel : bytes.length ≤ offset * blockSize + fuel)
    (hoff : offset ≤ (bytes.length + (blockSize - 1)) / blockSize)
    (hs : s.disk = writeBlocks files ino 0 (fileBuffer stack bytes) offset) :
    Outcome (fileLoop sparseStore stack ino fuel offset (min bytes.length (offset * blockSize))
        (bytes.drop (offset * blockSize)))
      (fun total s' => total = bytes.length ∧ s' = { s with
        disk := writeBlocks files ino 0 (fileBuffer stack bytes)
          ((bytes.length + (blockSize - 1)) / blockSize) })
      (fun _ _ => True) s := by
  induction fuel generalizing s offset with
  | zero =>
    have hend : offset = (bytes.length + (blockSize - 1)) / blockSize := by
      unfold blockSize at *
      omega
    rw [← hend, ← hs]
    exact ⟨by omega, rfl⟩
  | succ fuel ih =>
    unfold fileLoop
    split
    · rename_i hnil
      have hle := List.drop_eq_nil_iff.mp hnil
      have hend : offset = (bytes.length + (blockSize - 1)) / blockSize := by
        unfold blockSize at *
        omega
      rw [← hend, ← hs]
      exact ⟨by omega, rfl⟩
    · rename_i hne
      have hlt : offset * blockSize < bytes.length := by
        rw [List.drop_eq_nil_iff] at hne
        omega
      have hfuel' : bytes.length ≤ (offset + 1) * blockSize + fuel := by
        have hpos : 1 ≤ blockSize := by decide
        rw [Nat.add_mul, Nat.one_mul]
        omega
      have hoff' : offset + 1 ≤ (bytes.length + (blockSize - 1)) / blockSize := by
        unfold blockSize at *
        omega
      refine Outcome.seq (outcome_writeBlock ino offset _ fun _ _ => trivial)
        (fun _ s' hpost => ?_)
      obtain ⟨_, hs'⟩ := hpost
      have hnext : s'.disk = writeBlocks files ino 0 (fileBuffer stack bytes) (offset + 1) := by
        rw [← writeBlocks_succ, hs', ← hs, Nat.zero_add, blockAt_fileBuffer]
      have hoffset : (offset + 1) % 2 ^ 32 = offset + 1 := by
        unfold blockSize at *
        omega
      have htotal : (min bytes.length (offset * blockSize) +
          ((bytes.drop (offset * blockSize)).take blockSize).length) % 2 ^ 32 =
            min bytes.length ((offset + 1) * blockSize) := by
        rw [List.length_take, List.length_drop, Nat.add_mul, Nat.one_mul]
        exact total_step blockSize hlt hlen
      have hrest : (bytes.drop (offset * blockSize)).drop blockSize =
          bytes.drop ((offset + 1) * blockSize) := by
        rw [List.drop_drop, Nat.add_mul, Nat.one_mul]
      rw [hoffset, htotal, hrest]
      refine (ih s' hfuel' hoff' hnext).post (fun total s'' hs'' => ?_)
      refine ⟨hs''.1, ?_⟩
      rw [hs''.2, hs']

/-- A file of the image: its bytes in as many blocks as they need. -/
structure Holds (fcb : FileControlBlock) (file : SparseFile Block) (bytes : List Byte) : Prop where
  alloc : fcb.stAlloc = true
  mode : fcb.stMode = Permission.otherRead ||| Permission.ownerRead ||| Permission.ownerWrite
  length : fcb.stSize.toNat = bytes.length
  size : file.size = (bytes.length + (blockSize - 1)) / blockSize
  blank : file.Blank fun _ => 0
  data : ∀ k, k < bytes.length → byteAt file.data k = bytes.getD k 0

/-- What was stored under a number is there, if its size can be told. -/
structure Copied (s : Image) (entry : Nat × List Byte) : Prop where
  pos : entry.1 ≠ 0
  lt : entry.1 < ninodes
  holds : entry.2.length < 2 ^ 32 → Holds (s.stats entry.1) (s.disk entry.1) entry.2

structure Inv (s : Image) : Prop where
  pos : 0 < s.ino
  table : s.disk 0 = .empty fun _ => 0
  unused : ∀ i, s.ino ≤ i → s.disk i = .empty fun _ => 0
  copied : ∀ entry ∈ s.stored, entry.1 < s.ino ∧ Copied s entry

/-- Only new inodes are written. -/
structure Grows (s s' : Image) : Prop where
  ino : s.ino ≤ s'.ino
  disk : ∀ i, i < s.ino → s'.disk i = s.disk i
  stats : ∀ i, i < s.ino → s'.stats i = s.stats i
  stored : ∀ entry ∈ s'.stored, entry ∈ s.stored ∨ s.ino ≤ entry.1

theorem Grows.refl (s : Image) : Grows s s :=
  ⟨Nat.le_refl _, fun _ _ => rfl, fun _ _ => rfl, fun _ h => .inl h⟩

theorem Grows.trans {s s' s'' : Image} (h : Grows s s') (h' : Grows s' s'') : Grows s s'' := by
  constructor
  · exact Nat.le_trans h.ino h'.ino
  · intro i hi
    rw [h'.disk i (Nat.lt_of_lt_of_le hi h.ino), h.disk i hi]
  · intro i hi
    rw [h'.stats i (Nat.lt_of_lt_of_le hi h.ino), h.stats i hi]
  · intro entry he
    rcases h'.stored entry he with he | he
    · exact h.stored entry he
    · exact .inr (Nat.le_trans h.ino he)

/-- The invariant with what it rests on: every step keeps the one and only does the other. -/
def Keeps {α : Type} (m : EStateM Stop Image α) : Prop :=
  ∀ s, Inv s → Outcome m (fun _ s' => Inv s' ∧ Grows s s') (fun _ _ => True) s

theorem Keeps.seq {α β : Type} {m : EStateM Stop Image α} {f : α → EStateM Stop Image β}
    (hm : Keeps m) (hf : ∀ a, Keeps (f a)) : Keeps (m >>= f) := by
  intro s hs
  refine Outcome.seq (hm s hs) (fun a s' hs' => ?_)
  exact (hf a s' hs'.1).post (fun _ s'' hs'' => ⟨hs''.1, hs'.2.trans hs''.2⟩)

theorem Keeps.pure {α : Type} (a : α) : Keeps (Pure.pure a : EStateM Stop Image α) :=
  fun s hs => ⟨hs, Grows.refl s⟩

theorem Keeps.throw {α : Type} (e : Stop) : Keeps (MonadExcept.throw e : EStateM Stop Image α) :=
  fun _ _ => trivial

theorem keeps_strcpy (buffer : Buffer) (room pos : Nat) (str : List Byte) :
    Keeps (strcpy buffer room pos str) := by
  unfold strcpy
  split
  · exact Keeps.pure _
  · exact Keeps.throw _

theorem Inv.store {s t : Image} (hs : Inv s) {file : SparseFile Block}
    (ht : Inv t) (hgrow : Grows { s with ino := s.ino + 1 } t) {fcb : FileControlBlock}
    {bytes : List Byte} (hlt : s.ino < ninodes) (hb : bytes.length < 2 ^ 32 → Holds fcb file bytes) :
    let t' : Image := { t with
      disk := Function.update t.disk s.ino file
      stats := Function.update t.stats s.ino fcb
      stored := t.stored ++ [(s.ino, bytes)] }
    Inv t' ∧ Grows s t' := by
  have hino : s.ino + 1 ≤ t.ino := hgrow.ino
  have hpos := hs.pos
  -- what was stored before or since is elsewhere
  have hne : ∀ entry ∈ t.stored, entry.1 ≠ s.ino := by
    intro entry he heq
    rcases hgrow.stored entry he with h | h
    · have := (hs.copied entry h).1
      omega
    · have h' : s.ino + 1 ≤ entry.1 := h
      omega
  refine ⟨⟨ht.pos, ?_, ?_, ?_⟩, ⟨by dsimp only; omega, ?_, ?_, ?_⟩⟩
  · dsimp only
    rw [Function.update_of_ne (by omega)]
    exact ht.table
  · intro i hi
    dsimp only at hi ⊢
    rw [Function.update_of_ne (by omega)]
    exact ht.unused i hi
  · intro entry he
    rcases List.mem_append.mp he with he | he
    · obtain ⟨hl, hc⟩ := ht.copied entry he
      refine ⟨hl, hc.pos, hc.lt, fun hlen => ?_⟩
      dsimp only
      rw [Function.update_of_ne (hne entry he), Function.update_of_ne (hne entry he)]
      exact hc.holds hlen
    · obtain rfl := List.mem_singleton.mp he
      refine ⟨by dsimp only; omega, by dsimp only; omega, hlt, fun hlen => ?_⟩
      dsimp only
      rw [Function.update_self, Function.update_self]
      exact hb hlen
  · intro i hi
    dsimp only
    rw [Function.update_of_ne (by omega)]
    exact hgrow.disk i (by dsimp only; omega)
  · intro i hi
    dsimp only
    rw [Function.update_of_ne (by omega)]
    exact hgrow.stats i (by dsimp only; omega)
  · intro entry he
    rcases List.mem_append.mp he with he | he
    · rcases hgrow.stored entry he with h | h
      · exact .inl h
      · exact .inr (by dsimp only at h; omega)
    · obtain rfl := List.mem_singleton.mp he
      exact .inr (Nat.le_refl _)

theorem Inv.next {s : Image} (hs : Inv s) : Inv { s with ino := s.ino + 1 } := by
  have hpos := hs.pos
  constructor
  · dsimp only
    omega
  · exact hs.table
  · intro i hi
    dsimp only at hi
    exact hs.unused i (by omega)
  · intro entry he
    obtain ⟨hl, hc⟩ := hs.copied entry he
    exact ⟨by dsimp only; omega, hc.pos, hc.lt, hc.holds⟩

/-- Blocks written to an empty inode hold the beginning of the buffer. -/
theorem holds_writeBlocks {files : Files Block} {ino : Nat} {addr : Buffer} {bytes : List Byte}
    (uid : BitVec 32) (mtime : BitVec 64) (hempty : files ino = .empty fun _ => 0)
    (hlen : bytes.length < 2 ^ 32) (hbytes : ∀ k, k < bytes.length → addr k = bytes.getD k 0) :
    Holds (control ino uid (BitVec.ofNat 64 bytes.length) mtime)
      (writeBlocks files ino 0 addr ((bytes.length + (blockSize - 1)) / blockSize) ino) bytes := by
  have hsize : (writeBlocks files ino 0 addr ((bytes.length + (blockSize - 1)) / blockSize)
      ino).size = (bytes.length + (blockSize - 1)) / blockSize := by
    unfold writeBlocks
    rw [Function.update_self, hempty]
    dsimp only [SparseFile.empty]
    split
    · omega
    · rw [Nat.zero_add, Nat.max_eq_right (Nat.zero_le _)]
  refine ⟨rfl, rfl, ?_, hsize, fun b hb => ?_, fun k hk => ?_⟩
  · change (BitVec.ofNat 64 bytes.length).toNat = _
    rw [BitVec.toNat_ofNat, Nat.mod_eq_of_lt (by omega)]
  · rw [hsize] at hb
    unfold writeBlocks
    rw [Function.update_self]
    dsimp only
    rw [if_neg (by omega), hempty]
    rfl
  · have hin : k / blockSize < (bytes.length + (blockSize - 1)) / blockSize := by
      unfold blockSize
      omega
    rw [writeBlocks_inside _ _ (Nat.zero_le _) (by omega), Nat.zero_mul, Nat.sub_zero]
    exact hbytes k hk

theorem outcome_setStat {s t : Image} (hs : Inv s) (ht : Inv t)
    (hgrow : Grows { s with ino := s.ino + 1 } t) {file : SparseFile Block} {bytes : List Byte}
    {uid : BitVec 32} {size mtime : BitVec 64}
    (hb : bytes.length < 2 ^ 32 → Holds (control s.ino uid size mtime) file bytes) :
    Outcome (setStat s.ino uid size mtime bytes) (fun _ s' => Inv s' ∧ Grows s s')
      (fun _ _ => True) { t with disk := Function.update t.disk s.ino file } := by
  unfold setStat
  split
  · trivial
  · rename_i hlt
    exact hs.store ht hgrow (Nat.lt_of_not_le hlt) hb

theorem keeps_fileTrav (stack : Nat → Buffer) (bytes : List Byte) (mtime : BitVec 64)
    (uid : BitVec 32) : Keeps (fileTrav sparseStore stack bytes mtime uid) := by
  intro s hs
  have hwritten : Outcome (fileLoop sparseStore (stack s.ino) s.ino bytes.length 0 0 bytes)
      (fun total s' => ∃ file, s' = { s with
          ino := s.ino + 1
          disk := Function.update s.disk s.ino file } ∧
        (bytes.length < 2 ^ 32 → Holds (control s.ino uid (BitVec.ofNat 64 total) mtime) file bytes))
      (fun _ _ => True) { s with ino := s.ino + 1 } := by
    cases hrun : fileLoop sparseStore (stack s.ino) s.ino bytes.length 0 0 bytes
        { s with ino := s.ino + 1 } with
    | error e s' =>
      unfold Outcome
      rw [hrun]
      trivial
    | ok total s' =>
      refine Outcome.of_ok hrun ?_
      obtain ⟨-, file, hfile⟩ := (outcome_fileLoop_frame (E := fun _ _ => True)
        fun _ _ _ => trivial).ok hrun
      refine ⟨file, hfile, fun hlen => ?_⟩
      have hloop := outcome_fileLoop { s with ino := s.ino + 1 } (stack s.ino) s.ino s.disk hlen
        (show bytes.length ≤ 0 * blockSize + bytes.length by omega) (Nat.zero_le _)
        (writeBlocks_zero _ _ _ _).symm
      rw [Nat.zero_mul, Nat.min_zero, List.drop_zero] at hloop
      obtain ⟨htotal, hexact⟩ := hloop.ok hrun
      have hsame : file = writeBlocks s.disk s.ino 0 (fileBuffer (stack s.ino) bytes)
          ((bytes.length + (blockSize - 1)) / blockSize) s.ino := by
        have hdisk := congrArg (fun t : Image => t.disk s.ino) (hfile.symm.trans hexact)
        dsimp only at hdisk
        rw [Function.update_self] at hdisk
        exact hdisk
      rw [htotal, hsame]
      refine holds_writeBlocks uid mtime (hs.unused _ (Nat.le_refl _)) hlen (fun k hk => ?_)
      unfold fileBuffer
      rw [List.getD_eq_getElem _ _ hk, List.getD_eq_getElem _ _ hk]
  unfold fileTrav
  simp only [Outcome.bind_iff, outcome_nextIno]
  refine hwritten.post (fun total s' hpost => ?_)
  obtain ⟨file, hs', hb⟩ := hpost
  subst hs'
  exact (outcome_setStat hs hs.next (Grows.refl _) hb).post (fun _ _ h => h)

theorem keeps_dirTrav {loop : Fid → BitVec 32 → Entries → EStateM Stop Image Entries}
    (hloop : ∀ self uid entries, Keeps (loop self uid entries)) (parent : Fid) (skip : Bool)
    (uidFile : Option (BitVec 32)) (mtime : BitVec 64) (uid : BitVec 32) :
    Keeps (dirTrav sparseStore loop parent skip uidFile mtime uid) := by
  intro s hs
  have hnext := hs.next
  have hgrow : Grows s { s with ino := s.ino + 1 } :=
    ⟨Nat.le_succ _, fun _ _ => rfl, fun _ _ => rfl, fun _ h => .inl h⟩
  unfold dirTrav
  simp only [Outcome.bind_iff, outcome_nextIno]
  cases skip with
  | true => exact ⟨hnext, hgrow⟩
  | false =>
    simp only [Bool.false_eq_true, if_false, Outcome.bind_iff]
    refine (hloop _ _ _ _ hnext).post (fun entries t hpost => ?_)
    obtain ⟨ht, hst⟩ := hpost
    have hempty : t.disk s.ino = .empty fun _ => 0 := by
      rw [hst.disk s.ino (Nat.lt_succ_self _)]
      exact hs.unused _ (Nat.le_refl _)
    refine (outcome_writeLoop s.ino (fun _ _ => trivial) entries.buffer
      (writeBlocks_zero t.disk _ _ _).symm).post (fun _ t' hboth => ?_)
    obtain ⟨_, ht'⟩ := hboth
    rw [Nat.zero_add] at ht'
    subst ht'
    have hlen : ((List.range (entries.index * dirEntrySize)).map entries.buffer).length =
        entries.index * dirEntrySize := by
      rw [List.length_map, List.length_range]
    rw [← update_writeBlocks]
    refine (outcome_setStat hs ht hst (fun hsize => ?_)).post (fun _ _ h => h)
    rw [hlen] at hsize
    have hheld := holds_writeBlocks (uidFile.getD uid) mtime hempty (by rw [hlen]; exact hsize)
      (fun k hk => show entries.buffer k =
          ((List.range (entries.index * dirEntrySize)).map entries.buffer).getD k 0 by
        rw [List.getD_eq_getElem _ _ hk, List.getElem_map, List.getElem_range])
    rw [hlen] at hheld
    exact hheld

theorem keeps_trav (stack : Nat → Buffer)
    {loop : Fid → BitVec 32 → Entries → EStateM Stop Image Entries}
    (hloop : ∀ self uid entries, Keeps (loop self uid entries)) (node : Node) (mtime : BitVec 64)
    (parent : Fid) (name : List Byte) (uid : BitVec 32) (buffer : Buffer) (room pos : Nat) :
    Keeps (trav sparseStore stack loop node mtime parent name uid buffer room pos) := by
  unfold trav
  cases node with
  | file bytes =>
    refine (keeps_strcpy _ _ _ _).seq (fun _ => ?_)
    exact (keeps_fileTrav _ _ _ _).seq (fun _ => Keeps.pure _)
  | dir skip uidFile =>
    refine (keeps_strcpy _ _ _ _).seq (fun _ => ?_)
    exact (keeps_dirTrav hloop _ _ _ _ _).seq (fun _ => Keeps.pure _)
  | weird => exact Keeps.pure _
  | unreadable => exact Keeps.throw _

theorem keeps_readdirLoop (stack : Nat → Buffer) (listing : Listing) (self : Fid)
    (uid : BitVec 32) (entries : Entries) :
    Keeps (readdirLoop sparseStore stack listing self uid entries) := by
  induction listing generalizing self uid entries with
  | done => exact Keeps.pure _
  | entry name node mtime child next ihChild ihNext =>
    unfold readdirLoop
    split
    · exact ihNext self uid entries
    · split
      · exact (Keeps.throw (α := PUnit) _).seq (fun _ =>
          (keeps_trav stack ihChild _ _ _ _ _ _ _ _).seq (fun _ => ihNext _ _ _))
      · exact (keeps_trav stack ihChild _ _ _ _ _ _ _ _).seq (fun _ => ihNext _ _ _)

theorem keeps_argLoop (stack : Nat → Buffer) (uid : BitVec 32) (args : Listing) (de : Buffer) :
    Keeps (argLoop sparseStore stack uid args de) := by
  induction args generalizing de with
  | done => exact Keeps.pure _
  | entry name node mtime child next _ ihNext =>
    unfold argLoop
    exact (keeps_trav stack (keeps_readdirLoop stack child) _ _ _ _ _ _ _ _).seq
      (fun _ => ihNext _)

end Egos.File.Mkfs
