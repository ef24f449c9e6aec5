import Egos.File.Requests

/-!
# The file table on disk

Every request that changes a control block flushes it. `flush_fcb_cache` writes, from the
first block of the control block on, one block more than the number of its last block, so
for the files at the end of the table it writes behind the table and makes inode 0 longer.
`FlushFits` is the condition under which it does not; with it the table on disk is the table
in memory after every request. A restarted server finds it there, but it reads whole blocks
into its table, which has to end with a block for that.
-/
namespace Egos.File

open Egos.Lib Egos.Disk Bfs

set_option autoImplicit false

/-- The table on disk is the table in memory. -/
structure Durable (w : World (Files Block)) : Prop where
  size : (w.disk 0).size =
    (w.fss.numFcbs.toNat * FileControlBlock.sizeof + (blockSize - 1)) / blockSize
  bytes : ∀ k, k < w.fss.numFcbs.toNat * FileControlBlock.sizeof →
    byteAt (w.disk 0).data k =
      (w.fss.fcbCache (k / FileControlBlock.sizeof)).byte (k % FileControlBlock.sizeof)

theorem Durable.kept {w w' : World (Files Block)} (h : Durable w) (hk : Kept w w') :
    Durable w' := by
  constructor
  · rw [hk.table, hk.fss]
    exact h.size
  · rw [hk.table, hk.fss]
    exact h.bytes

theorem Durable.flushed {w w' : World (Files Block)} {heap : Buffer} {fileNo : Nat}
    (h : Durable w) (hn : w.fss.numFcbs.toNat * FileControlBlock.sizeof < 2 ^ 32)
    (hf : Flushed heap fileNo w w') (hfit : FlushFits w.fss.numFcbs fileNo) : Durable w' := by
  obtain ⟨fcb, hfss⟩ := hf.fss
  have hnum : w'.fss.numFcbs = w.fss.numFcbs := by rw [hfss]; rfl
  have hlt := hf.lt
  constructor
  · rw [hf.table, hnum]
    unfold File.flushed
    rw [writeBlocks_size _ _ _ _ (by omega), h.size]
    unfold FlushFits at hfit
    omega
  · intro k hk
    rw [hnum] at hk
    rw [hf.table]
    unfold File.flushed
    have hstart : firstBlock fileNo * blockSize % 2 ^ 32 = firstBlock fileNo * blockSize := by
      apply Nat.mod_eq_of_lt
      unfold firstBlock FileControlBlock.sizeof blockSize at *
      omega
    by_cases hin : firstBlock fileNo ≤ k / blockSize ∧
        k / blockSize < firstBlock fileNo + (lastBlock fileNo + 1)
    · rw [writeBlocks_inside _ _ hin.1 hin.2, hstart]
      have hk' : firstBlock fileNo * blockSize + (k - firstBlock fileNo * blockSize) = k := by
        have := hin.1
        unfold blockSize at *
        omega
      rw [hk']
      unfold tableImage
      rw [if_pos (by rw [hnum]; exact hk)]
    · -- the control block lies inside the blocks that are written
      have hne : k / FileControlBlock.sizeof ≠ fileNo := by
        intro he
        apply hin
        unfold firstBlock lastBlock FileControlBlock.sizeof blockSize at *
        omega
      rw [writeBlocks_outside _ _ (by omega), h.bytes k hk, hfss]
      unfold FileServerState.setFcb
      dsimp only
      rw [Function.update_of_ne hne]

theorem tableSize_toNat {fss : FileServerState}
    (hn : fss.numFcbs.toNat * FileControlBlock.sizeof < 2 ^ 32) :
    (tableSize fss).toNat = fss.numFcbs.toNat * FileControlBlock.sizeof := by
  unfold tableSize
  rw [BitVec.toNat_mul, show (BitVec.ofNat 32 FileControlBlock.sizeof).toNat =
    FileControlBlock.sizeof from rfl, Nat.mod_eq_of_lt hn]

/-- The number of blocks that the loader expects and the installer writes. -/
theorem tableNblock (fss : FileServerState) (h0 : 0 < fss.numFcbs.toNat)
    (hn : fss.numFcbs.toNat * FileControlBlock.sizeof < 2 ^ 32) :
    ((tableSize fss - 1) / BitVec.ofNat 32 blockSize + 1).toNat =
      (fss.numFcbs.toNat * FileControlBlock.sizeof + (blockSize - 1)) / blockSize := by
  have hsize := tableSize_toNat hn
  simp only [BitVec.toNat_add, BitVec.toNat_udiv, BitVec.toNat_sub, toNat_blockSize32, hsize,
    show (1 : BitVec 32).toNat = 1 from rfl]
  have hlast : (2 ^ 32 - 1 + fss.numFcbs.toNat * FileControlBlock.sizeof) % 2 ^ 32 =
      fss.numFcbs.toNat * FileControlBlock.sizeof - 1 := by
    unfold FileControlBlock.sizeof at *
    omega
  have hceil : (fss.numFcbs.toNat * FileControlBlock.sizeof - 1) / blockSize + 1 =
      (fss.numFcbs.toNat * FileControlBlock.sizeof + (blockSize - 1)) / blockSize := by
    unfold FileControlBlock.sizeof blockSize
    omega
  rw [hlast, Nat.mod_eq_of_lt (by unfold blockSize; omega), hceil]

/-- The table ends with a block. -/
def WholeBlocks (numFcbs : BitVec 32) : Prop :=
  blockSize ∣ numFcbs.toNat * FileControlBlock.sizeof

instance (numFcbs : BitVec 32) : Decidable (WholeBlocks numFcbs) :=
  inferInstanceAs (Decidable (_ ∣ _))

/-- A restarted server finds the table that was in memory if there is room for its last block. -/
theorem Durable.outcome_load {w : World (Files Block)} (h : Durable w) (h0 : 0 < w.fss.numFcbs.toNat)
    (hn : w.fss.numFcbs.toNat * FileControlBlock.sizeof < 2 ^ 32) (env : Env)
    {fss : FileServerState} (hfss : fss.numFcbs = w.fss.numFcbs)
    (outbox : List (BitVec 32 × FileReply)) :
    Outcome (loadFcbCache sparse env)
      (fun r w' => WholeBlocks fss.numFcbs ∧ r = true ∧
        (w'.disk = w.disk ∧ w'.fss.numFcbs = fss.numFcbs) ∧
        ∀ f, f < fss.numFcbs.toNat → w'.fss.fcbCache f = w.fss.fcbCache f)
      (fun e _ => e = .undefined ∧ ¬WholeBlocks fss.numFcbs) ⟨fss, w.disk, outbox⟩ := by
  have hnblock := tableNblock fss (by rw [hfss]; exact h0) (by rw [hfss]; exact hn)
  have hpos : 0 < (w.disk 0).size := by
    rw [h.size]
    unfold FileControlBlock.sizeof blockSize
    omega
  have hlt : (w.disk 0).size < 2 ^ 32 := by
    rw [h.size]
    unfold FileControlBlock.sizeof blockSize at *
    omega
  have hwhole : fss.numFcbs.toNat * FileControlBlock.sizeof < (w.disk 0).size * blockSize ↔
      ¬WholeBlocks fss.numFcbs := by
    rw [h.size, hfss]
    unfold WholeBlocks FileControlBlock.sizeof blockSize
    omega
  unfold loadFcbCache
  simp only [Outcome.bind_iff, Outcome.get_iff, outcome_onDisk]
  change Outcome (if (w.disk 0).size % 2 ^ 32 = 0 then _ else _) _ _ _
  rw [Nat.mod_eq_of_lt hlt, if_neg (by omega), if_neg (by rw [hnblock, h.size, hfss]; simp)]
  simp only [Outcome.bind_iff, outcome_onDisk]
  rw [show (sparse.getsize 0 w.disk).2 = w.disk from rfl,
    multiblockRead_eq _ _ (by omega), if_neg (by omega), Nat.sub_zero, Nat.min_self]
  dsimp only
  by_cases hroom : WholeBlocks fss.numFcbs
  case neg =>
    rw [if_pos (hwhole.mpr hroom)]
    exact ⟨rfl, hroom⟩
  rw [if_neg fun hlt => hwhole.mp hlt hroom]
  refine ⟨hroom, rfl, ⟨rfl, rfl⟩, fun f hf => ?_⟩
  change (if f < fss.numFcbs.toNat then _ else _) = _
  rw [if_pos hf]
  apply FileControlBlock.ofMemory_eq
  intro k hk
  have hin : (f * FileControlBlock.sizeof + k) / blockSize < (w.disk 0).size := by
    rw [h.size, ← hfss]
    unfold FileControlBlock.sizeof blockSize at *
    omega
  have hdiv : (f * FileControlBlock.sizeof + k) / FileControlBlock.sizeof = f := by
    unfold FileControlBlock.sizeof at *
    omega
  have hmod : (f * FileControlBlock.sizeof + k) % FileControlBlock.sizeof = k := by
    unfold FileControlBlock.sizeof at *
    omega
  unfold readBlocks
  rw [if_pos ⟨Nat.zero_le _, by omega⟩, Nat.zero_mul, Nat.zero_add, h.bytes _ (by
    rw [← hfss]
    unfold FileControlBlock.sizeof at *
    omega), hdiv, hmod]

theorem Durable.load {w : World (Files Block)} (h : Durable w) (h0 : 0 < w.fss.numFcbs.toNat)
    (hn : w.fss.numFcbs.toNat * FileControlBlock.sizeof < 2 ^ 32)
    (hwhole : WholeBlocks w.fss.numFcbs) (env : Env)
    {fss : FileServerState} (hfss : fss.numFcbs = w.fss.numFcbs)
    (outbox : List (BitVec 32 × FileReply)) :
    ∃ w', loadFcbCache sparse env ⟨fss, w.disk, outbox⟩ = .ok true w' ∧
      (w'.disk = w.disk ∧ w'.fss.numFcbs = fss.numFcbs) ∧
      ∀ f, f < fss.numFcbs.toNat → w'.fss.fcbCache f = w.fss.fcbCache f := by
  have hload := (h.outcome_load h0 hn env hfss outbox).mono (fun _ _ hq => hq.2)
    (fun _ _ he => he.2 (by rw [hfss]; exact hwhole))
  obtain ⟨r, w', hrun, rfl, hrest⟩ := hload.exists_ok
  exact ⟨w', hrun, hrest⟩

/-- Every restart finds the table of `w`. -/
def Restored (numFcbs : BitVec 32) (w : World (Files Block)) : Prop :=
  ∀ env globalTime startTime, ∃ w',
    loadFcbCache sparse env ⟨fresh globalTime startTime numFcbs, w.disk, []⟩ = .ok true w' ∧
      ∀ f, f < numFcbs.toNat → w'.fss.fcbCache f = w.fss.fcbCache f

/-- The table of a server with `numFcbs` files is on its disk, and it survives a restart exactly
when it ends with a block. -/
structure Restorable (numFcbs : BitVec 32) (w : World (Files Block)) : Prop where
  num : w.fss.numFcbs = numFcbs
  durable : Durable w
  restart : Restored numFcbs w ↔ WholeBlocks numFcbs

theorem Durable.restorable {w : World (Files Block)} (h : Durable w)
    (h0 : 0 < w.fss.numFcbs.toNat)
    (hn : w.fss.numFcbs.toNat * FileControlBlock.sizeof < 2 ^ 32) :
    Restorable w.fss.numFcbs w := by
  refine ⟨rfl, h, fun hrestored => ?_, fun hwhole env globalTime startTime => ?_⟩
  · obtain ⟨w', hrun, -⟩ := hrestored testEnv 0 0
    exact ((@Durable.outcome_load w h h0 hn testEnv (fresh 0 0 w.fss.numFcbs) rfl []).ok hrun).1
  · obtain ⟨w', hload, -, htable⟩ := h.load h0 hn hwhole env
      (show (fresh globalTime startTime w.fss.numFcbs).numFcbs = w.fss.numFcbs from rfl) []
    exact ⟨w', hload, htable⟩

theorem outcome_flushStatCacheAll {env : Env} {w : World (Files Block)}
    (h0 : 0 < w.fss.numFcbs.toNat) (hn : w.fss.numFcbs.toNat * FileControlBlock.sizeof < 2 ^ 32)
    (hempty : (w.disk 0).size = 0) :
    Outcome (flushStatCacheAll sparse env) (fun _ w' => w'.fss = w.fss ∧ Durable w')
      (fun _ _ => False) w := by
  have hnblock := tableNblock w.fss h0 hn
  have hbound : (w.fss.numFcbs.toNat * FileControlBlock.sizeof + (blockSize - 1)) / blockSize ≤
      2 ^ 32 := by
    unfold FileControlBlock.sizeof blockSize at *
    omega
  have hpos : (w.fss.numFcbs.toNat * FileControlBlock.sizeof + (blockSize - 1)) / blockSize ≠ 0 := by
    unfold FileControlBlock.sizeof blockSize at *
    omega
  unfold flushStatCacheAll
  simp only [Outcome.bind_iff, Outcome.get_iff, outcome_onDisk, Outcome.pure_iff]
  rw [hnblock, multiblockWrite_eq _ (by omega)]
  refine ⟨trivial, ?_, ?_⟩
  · dsimp only
    rw [writeBlocks_size _ _ _ _ hpos, hempty]
    omega
  · intro k hk
    dsimp only
    have hin : k / blockSize <
        (w.fss.numFcbs.toNat * FileControlBlock.sizeof + (blockSize - 1)) / blockSize := by
      dsimp only at hk
      unfold FileControlBlock.sizeof blockSize at *
      omega
    rw [writeBlocks_inside _ _ (Nat.zero_le _) (by omega), Nat.zero_mul, Nat.sub_zero]
    unfold tableImage
    rw [if_pos hk]

theorem outcome_boot (globalTime : BitVec 64) (startTime : BitVec 32) {numFcbs : BitVec 32}
    (env : Env)
    (h0 : 0 < numFcbs.toNat) (hn : numFcbs.toNat * FileControlBlock.sizeof < 2 ^ 32) :
    Outcome (boot sparse env) (fun _ w => w.fss.numFcbs = numFcbs ∧ Durable w)
      (fun _ _ => False) (newDisk globalTime startTime numFcbs) := by
  refine Outcome.of_eq (boot_newDisk globalTime startTime env h0) ?_
  refine Outcome.post (outcome_flushStatCacheAll ?_ ?_ ?_) (fun _ w hw => ?_)
  · exact h0
  · exact hn
  · rfl
  · exact ⟨by rw [hw.1]; rfl, hw.2⟩

/-- Every request of the sequence fits when its turn comes. -/
def AllFit : List (Env × Message) → World (Files Block) → Prop
  | [], _ => True
  | (env, msg) :: rest, w =>
    Fits w msg ∧ ∀ w', serve sparse env msg w = .ok () w' → AllFit rest w'

theorem serve_durable (env : Env) {msg : Message} {w : World (Files Block)} (h : Durable w)
    (hn : w.fss.numFcbs.toNat * FileControlBlock.sizeof < 2 ^ 32) (hother : OtherFile msg)
    (hfit : Fits w msg) :
    Outcome (serve sparse env msg)
      (fun _ w' => w'.fss.numFcbs = w.fss.numFcbs ∧ Durable w')
      (fun e w' => e = .assert ∧ Malformed msg ∧ w' = w) w := by
  refine (outcome_serve hother hfit).post (fun _ w' heff => ?_)
  cases ht : flushTarget w msg with
  | none =>
    rw [ht] at heff
    exact ⟨by rw [heff.fss], h.kept heff⟩
  | some fileNo =>
    rw [ht] at heff
    obtain ⟨fcb, hfss⟩ := heff.fss
    exact ⟨by rw [hfss]; rfl, h.flushed hn heff (hfit.flush fileNo ht)⟩

theorem serveAll_durable {msgs : List (Env × Message)} {numFcbs : BitVec 32}
    (hn : numFcbs.toNat * FileControlBlock.sizeof < 2 ^ 32)
    (hother : ∀ m ∈ msgs, OtherFile m.2) {w : World (Files Block)} (hw : w.fss.numFcbs = numFcbs)
    (h : Durable w) (hfit : AllFit msgs w) :
    Outcome (serveAll sparse msgs) (fun _ w' => w'.fss.numFcbs = numFcbs ∧ Durable w')
      (fun e w' => e = .assert ∧ (∃ m ∈ msgs, Malformed m.2) ∧
        w'.fss.numFcbs = numFcbs ∧ Durable w') w := by
  induction msgs generalizing w with
  | nil => exact ⟨hw, h⟩
  | cons m rest ih =>
    obtain ⟨env, msg⟩ := m
    unfold serveAll
    have hstep := serve_durable env h (by rw [hw]; exact hn)
      (hother (env, msg) List.mem_cons_self) hfit.1
    rw [Outcome.bind_iff]
    cases hrun : serve sparse env msg w with
    | ok u w' =>
      obtain ⟨hnum, hdur⟩ := hstep.ok hrun
      refine Outcome.of_ok hrun ((ih (fun m hm => hother m (List.mem_cons_of_mem _ hm))
        (hnum.trans hw) hdur (hfit.2 w' hrun)).mono (fun _ _ hq => hq) (fun e w'' he => ?_))
      obtain ⟨hassert, ⟨m, hm, hmal⟩, hrest⟩ := he
      exact ⟨hassert, ⟨m, List.mem_cons_of_mem _ hm, hmal⟩, hrest⟩
    | error e w' =>
      obtain ⟨hassert, hmal, rfl⟩ := hstep.error hrun
      unfold Outcome
      rw [hrun]
      exact ⟨hassert, ⟨_, List.mem_cons_self, hmal⟩, hw, h⟩

/-- A server that begins with an empty disk and serves requests for files other than the
table: as long as the requests fit, the table on disk is the table in memory and a restarted
server restores it. -/
theorem table_restorable {globalTime : BitVec 64} {startTime numFcbs : BitVec 32} {env : Env}
    {msgs : List (Env × Message)} (h2 : 2 ≤ numFcbs.toNat)
    (hn : numFcbs.toNat * FileControlBlock.sizeof < 2 ^ 32)
    (hother : ∀ m ∈ msgs, OtherFile m.2)
    (hfit : ∀ w, boot sparse env (newDisk globalTime startTime numFcbs) = .ok () w →
      AllFit msgs w) :
    Outcome (do boot sparse env; serveAll sparse msgs) (fun _ w => Restorable numFcbs w)
      (fun e w => e = .assert ∧ (∃ m ∈ msgs, Malformed m.2) ∧ Restorable numFcbs w)
      (newDisk globalTime startTime numFcbs) := by
  have hrestorable : ∀ w : World (Files Block), w.fss.numFcbs = numFcbs → Durable w →
      Restorable numFcbs w := by
    intro w hw hdur
    subst hw
    exact hdur.restorable (by omega) hn
  obtain ⟨u, w, hboot, hnum, hdur⟩ :=
    (outcome_boot globalTime startTime env (by omega) hn).exists_ok
  rw [Outcome.bind_iff]
  refine Outcome.of_ok hboot ((serveAll_durable hn hother hnum hdur (hfit w hboot)).mono
    (fun _ w' hw' => hrestorable w' hw'.1 hw'.2)
    (fun e w' he => ⟨he.1, he.2.1, hrestorable w' he.2.2.1 he.2.2.2⟩))

/-- A table of 128 files fills five blocks. One file is created and written, and the next start
finds it. -/
theorem table_restorable_128 :
    ∃ w, (do
        boot sparse testEnv
        serveAll sparse [testRequest .create 0 0 [], testRequest .write 1 1020 [1, 2, 3, 4, 5]])
        (newDisk 0 0 128) = .ok () w ∧
      (w.fss.fcbCache 1).stSize = 1025 ∧ Durable w ∧ Restored 128 w := by
  have hfit : ∀ w, boot sparse testEnv (newDisk 0 0 128) = .ok () w →
      AllFit [testRequest .create 0 0 [], testRequest .write 1 1020 [1, 2, 3, 4, 5]] w := by
    intro w hw
    have hbooted : w = final (boot sparse testEnv (newDisk 0 0 128)) :=
      (congrArg final hw).symm
    have htarget : flushTarget w (testRequest .create 0 0 []).2 = some 1 := by
      rw [hbooted]
      decide +kernel
    refine ⟨⟨fun f hf => ?_, fun req hreq ht => ?_⟩, fun w' hw' => ⟨⟨fun f hf => ?_,
      fun req hreq ht => ?_⟩, fun _ _ => trivial⟩⟩
    · rw [← Option.some.inj (htarget.symm.trans hf), hbooted]
      unfold FlushFits
      decide +kernel
    · rw [← Option.some.inj hreq] at ht
      cases ht
    · have hstate : w' = final (serve sparse testEnv (testRequest .create 0 0 []).2 w) :=
        (congrArg final hw').symm
      have htarget' : flushTarget w' (testRequest .write 1 1020 [1, 2, 3, 4, 5]).2 = some 1 := by
        rw [hstate, hbooted]
        decide +kernel
      rw [← Option.some.inj (htarget'.symm.trans hf), hstate, hbooted]
      unfold FlushFits
      decide +kernel
    · rw [← Option.some.inj hreq] at ht
      cases ht
  have hother : ∀ m ∈ [testRequest .create 0 0 [], testRequest .write 1 1020 [1, 2, 3, 4, 5]],
      OtherFile m.2 := by
    intro m hm req hreq
    simp only [List.mem_cons, List.not_mem_nil, or_false] at hm
    rcases hm with rfl | rfl
    · exact .inl (by rw [← Option.some.inj hreq])
    · exact .inr (by rw [← Option.some.inj hreq]; decide)
  have hrun : (do
      boot sparse testEnv
      serveAll sparse [testRequest .create 0 0 [], testRequest .write 1 1020 [1, 2, 3, 4, 5]])
      (newDisk 0 0 128) = _ := eq_ok_of_returned (a := ()) (by decide +kernel)
  have hrestorable := (table_restorable (by decide) (by decide) hother hfit).ok hrun
  exact ⟨_, hrun, by decide +kernel, hrestorable.durable, hrestorable.restart.mpr (by decide)⟩

/-- The last of 27 control blocks lies in the second block of the table, and its flush writes
a third one. The next start installs an empty table. -/
theorem table_outgrown :
    let run : EStateM Stop (World (Files Block)) Unit := do
      boot sparse testEnv
      serveAll sparse (List.replicate 26 (testRequest .create 0 0 []))
    let w := final (run (newDisk 0 0 27))
    OtherFile (testRequest .create 0 0 []).2 ∧ returned (run (newDisk 0 0 27)) = some () ∧
      (w.disk 0).size = 3 ∧
      (27 * FileControlBlock.sizeof + (blockSize - 1)) / blockSize = 2 ∧
      returned (loadFcbCache sparse testEnv ⟨fresh 0 0 27, w.disk, []⟩) = some false := by
  refine ⟨fun req hreq => .inl (by rw [← Option.some.inj hreq]), ?_⟩
  decide +kernel

end Egos.File
