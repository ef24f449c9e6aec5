import Egos.File.Entries

/-!
# The handlers of the directory server

What the server does with a request on a directory that it can read and write. `Serves` says so of the
directory's file, with an invariant that ties the state of the service to the file as it is. Whatever
else the invariant says is then kept by the handlers too.
-/
namespace Egos.Dirsvr

open Egos.Lib Egos.Disk Egos.File
open Reference (RefFile readAt writeAt)

set_option autoImplicit false

/-- As long as the invariant holds of the file, its owner and mode are told and its entries can be
read and written. -/
structure Serves {φ : Type} (fc : FileClient φ) (dir : Fid) (I : RefFile → φ → Prop) : Prop where
  stat : ∀ file s, I file s → ∃ fcb, (fc.fileStat dir s).1 = some fcb ∧ fcb.stUid = file.uid ∧
    fcb.stMode = file.mode ∧ I file (fc.fileStat dir s).2
  read : ∀ file s offset size, I file s →
    (fc.fileRead dir offset size s).1 = some (readAt file.bytes offset size) ∧
      I file (fc.fileRead dir offset size s).2
  write : ∀ file s offset data, I file s → offset ≤ file.bytes.length → offset % dirEntrySize = 0 →
    data.length = dirEntrySize → (fc.fileWrite dir offset data s).1 = true ∧
      I { file with bytes := writeAt file.bytes offset data } (fc.fileWrite dir offset data s).2

/-- The bits that a request needs, of the owner and of others. -/
def DirOp.owner : DirOp → BitVec 16
  | .lookup => Permission.ownerRead
  | .insert | .remove | .unused => Permission.ownerWrite

def DirOp.other : DirOp → BitVec 16
  | .lookup => Permission.otherRead
  | .insert | .remove | .unused => Permission.otherWrite

def DirMessage.granted (m : DirMessage) (file : RefFile) : Bool :=
  file.allows (BitVec.ofNat 32 m.uid) m.req.type.owner m.req.type.other

/-- The reply to a request, and the map behind it: those of the map if the user may do it. -/
def DirMessage.handled (m : DirMessage) (file : RefFile) : DirReply × DirMap :=
  if m.granted file then (namesOf file.bytes).answer m
  else (⟨.error, fidZero⟩, namesOf file.bytes)

/-- The reply to a lookup. -/
def lookupReply (dir : Fid) : Option Fid → DirReply
  | none => ⟨.error, fidZero⟩
  | some fid => ⟨.ok, resolve dir fid⟩

section

variable {φ α β : Type} {Q : α → DirWorld φ → Prop} {E : Stop → DirWorld φ → Prop} {w : DirWorld φ}

@[simp] theorem outcome_onFiles (m : StateM φ α) : Outcome (onFiles m) Q E w ↔
    Q (m w.files).1 { w with files := (m w.files).2 } := Iff.rfl

end

/-! ## Loops and checks -/

section

variable {φ : Type} {fc : FileClient φ} {dir : Fid} {I : RefFile → φ → Prop} {file : RefFile}
  {w w' : DirWorld φ} {rounds : Nat} {m : DirMessage}

/-- The same file, and no reply since. -/
def Kept (I : RefFile → φ → Prop) (file : RefFile) (w w' : DirWorld φ) : Prop :=
  I file w'.files ∧ w'.outbox = w.outbox

/-- One reply, and the file has become that of the map behind it. -/
structure Handled (I : RefFile → φ → Prop) (file : RefFile) (m : DirMessage) (w w' : DirWorld φ)
    (bytes : List Byte) : Prop where
  outbox : w'.outbox = w.outbox ++ [(m.src, (m.handled file).1)]
  names : namesOf bytes = (m.handled file).2
  wellFormed : WellFormed bytes
  length : bytes.length ≤ file.bytes.length + dirEntrySize
  files : I { file with bytes := bytes } w'.files

variable (hs : Serves fc dir I)

include hs

/-- If there are rounds enough, the loop over the pages goes through all entries. -/
theorem outcome_scan {α β : Type} (visit : Nat → DirEntry → α → Except β α) {offset : Nat}
    (hI : I file w.files) (hwhole : file.bytes.length % dirEntrySize = 0)
    (hoffset : offset ≤ file.bytes.length) (haligned : offset % dirEntrySize = 0)
    (hrounds : file.bytes.length - offset < rounds) (acc : α) :
    Outcome (scan fc dir visit rounds offset acc)
      (fun r w' => r = scanned visit file.bytes offset acc ∧ Kept I file w w')
      (fun _ _ => False) w := by
  induction rounds generalizing offset acc w with
  | zero => omega
  | succ rounds ih =>
    obtain ⟨hread, hkept⟩ := hs.read file w.files offset fileMaxMsgSize hI
    have hpage : (readAt file.bytes offset fileMaxMsgSize).length =
        min fileMaxMsgSize (file.bytes.length - offset) := by
      rw [readAt, List.length_take, List.length_drop]
    have hrest : file.bytes.drop offset = readAt file.bytes offset fileMaxMsgSize ++
        file.bytes.drop (offset + (readAt file.bytes offset fileMaxMsgSize).length) := by
      rw [readAt, ← List.drop_drop]
      exact (List.prefix_iff_eq_append.mp (List.take_prefix _ _)).symm
    unfold scan
    rw [Outcome.bind_iff, outcome_onFiles, hread]
    dsimp only
    generalize readAt file.bytes offset fileMaxMsgSize = page at hpage hrest ⊢
    generalize (fc.fileRead dir offset fileMaxMsgSize w.files).2 = s at hkept ⊢
    have hmax : fileMaxMsgSize = 0x4000 := rfl
    split
    · have hend : offset = file.bytes.length := by omega
      subst hend
      refine ⟨?_, hkept, rfl⟩
      unfold scanned
      rw [List.drop_length]
      rfl
    · have hdiv : page.length % dirEntrySize = 0 := by
        unfold dirEntrySize at *
        omega
      have hnext (acc : α) : Outcome (scan fc dir visit rounds (offset + page.length) acc)
          (fun r w' => r = scanned visit file.bytes (offset + page.length) acc ∧
            Kept I file { w with files := s } w') (fun _ _ => False) { w with files := s } := by
        apply ih
        · exact hkept
        · omega
        · unfold dirEntrySize at *
          omega
        · omega
      rw [if_neg (not_not.mpr hdiv)]
      have hmul : dirEntrySize * (page.length / dirEntrySize) = page.length := by
        unfold dirEntrySize at *
        omega
      have happend := scanEntries_append visit (entriesOf page)
        (entriesOf (file.bytes.drop (offset + page.length))) offset acc
      rw [← entriesOf_append hdiv, ← hrest, length_entriesOf, hmul] at happend
      cases hpage : scanEntries visit (entriesOf page) offset acc with
      | error r =>
        rw [hpage] at happend
        refine ⟨?_, hkept, rfl⟩
        unfold scanned
        rw [happend]
      | ok acc' =>
        rw [hpage] at happend
        have hscanned : scanned visit file.bytes offset acc =
            scanned visit file.bytes (offset + page.length) acc' := by
          unfold scanned
          rw [happend]
        rw [hscanned]
        exact hnext acc'

theorem outcome_allowed (hI : I file w.files) (uid : BitVec 32) (owner other : BitVec 16) :
    Outcome (allowed fc dir uid owner other)
      (fun b w' => b = file.allows uid owner other ∧ Kept I file w w') (fun _ _ => False) w := by
  unfold allowed RefFile.allows
  split
  · rename_i hroot
    exact ⟨by rw [decide_eq_true hroot, Bool.true_or], hI, rfl⟩
  · rename_i huid
    obtain ⟨stat, hstat, hst, hmode, hkept⟩ := hs.stat file w.files hI
    rw [Outcome.bind_iff, outcome_onFiles, hstat]
    refine ⟨?_, hkept, rfl⟩
    rw [hst, hmode, decide_eq_false huid, Bool.false_or]
    simp only [eq_comm]

/-! ## Lookups -/

/-- A lookup of any name that fits an entry and is not the name of the holes. -/
theorem outcome_lookup (hI : I file w.files) {req : DirRequest} {src : Nat} {name : List Byte}
    (hdir : req.dir = dir) (hshort : name.length ≤ dirNameSize)
    (hwhole : file.bytes.length % dirEntrySize = 0)
    (hholes : ∀ de ∈ entriesOf file.bytes, de.isFree = true → de.cname ≠ name)
    (hrounds : file.bytes.length < rounds) (uid : BitVec 32) :
    Outcome (dirDoLookup fc rounds req src uid name)
      (fun _ w' => I file w'.files ∧ w'.outbox = w.outbox ++ [(src,
        if file.allows uid Permission.ownerRead Permission.otherRead then
          lookupReply dir (namesOf file.bytes name) else ⟨.error, fidZero⟩)])
      (fun _ _ => False) w := by
  unfold dirDoLookup
  rw [if_neg (Nat.not_lt.mpr hshort), Outcome.bind_iff, hdir]
  refine (outcome_allowed hs hI uid _ _).post fun b w₁ hpost => ?_
  obtain ⟨hb, hI₁, hout₁⟩ := hpost
  subst hb
  cases file.allows uid Permission.ownerRead Permission.otherRead with
  | false => exact ⟨hI₁, congrArg (· ++ _) hout₁⟩
  | true =>
    rw [if_neg (by simp), Outcome.bind_iff]
    refine (outcome_scan hs (visitLookup name) hI₁ hwhole (Nat.zero_le _) rfl hrounds ()).post
      fun r w₂ hboth => ?_
    obtain ⟨hr, hI₂, hout₂⟩ := hboth
    subst hr
    rw [scanned_lookup hholes, if_pos rfl]
    cases namesOf file.bytes name with
    | none => exact ⟨hI₂, congrArg (· ++ _) (hout₂.trans hout₁)⟩
    | some fid => exact ⟨hI₂, congrArg (· ++ _) (hout₂.trans hout₁)⟩

omit hs

theorem Kept.handled (h : Kept I file w w') (hwf : WellFormed file.bytes) {rep : DirReply}
    (hrep : m.handled file = (rep, namesOf file.bytes)) :
    Handled I file m w { w' with outbox := w'.outbox ++ [(m.src, rep)] } file.bytes where
  outbox := by
    rw [hrep]
    exact congrArg (· ++ _) h.2
  names := by rw [hrep]
  wellFormed := hwf
  length := Nat.le_add_right _ _
  files := h.1

theorem handled_refused (hgranted : m.granted file = false) :
    m.handled file = (⟨.error, fidZero⟩, namesOf file.bytes) :=
  if_neg (by rw [hgranted]; exact Bool.false_ne_true)

theorem handled_granted (hgranted : m.granted file = true) :
    m.handled file = (namesOf file.bytes).answer m := if_pos hgranted

theorem granted_write (h : m.req.type = .insert ∨ m.req.type = .remove) : m.granted file =
    file.allows (BitVec.ofNat 32 m.uid) Permission.ownerWrite Permission.otherWrite := by
  unfold DirMessage.granted
  obtain h | h := h
  · rw [h]
    rfl
  · rw [h]
    rfl

include hs

theorem lookup_handled (htype : m.req.type = .lookup) (hdir : m.req.dir = dir)
    (hname : ProperName m.name) (hwf : WellFormed file.bytes) (hI : I file w.files)
    (hrounds : file.bytes.length < rounds) :
    Outcome (dirDoLookup fc rounds m.req m.src (BitVec.ofNat 32 m.uid) m.name)
      (fun _ w' => ∃ bytes, Handled I file m w w' bytes) (fun _ _ => False) w := by
  refine (outcome_lookup hs hI hdir hname.short hwf.whole (fun de _ hfree => de.free_ne hname hfree)
    hrounds (BitVec.ofNat 32 m.uid)).post fun _ w' hpost => ?_
  obtain ⟨hI', hout⟩ := hpost
  have hanswer : m.handled file =
      (if file.allows (BitVec.ofNat 32 m.uid) Permission.ownerRead Permission.otherRead then
        lookupReply dir (namesOf file.bytes m.name) else ⟨.error, fidZero⟩, namesOf file.bytes) := by
    unfold DirMessage.handled DirMessage.granted DirMap.answer lookupReply
    rw [htype, hdir]
    change (if file.allows _ Permission.ownerRead Permission.otherRead = true then _ else _) = _
    split
    · cases namesOf file.bytes m.name <;> rfl
    · rfl
  refine ⟨file.bytes, ?_, ?_, hwf, Nat.le_add_right _ _, hI'⟩
  · rw [hanswer]
    exact hout
  · rw [hanswer]

/-- An entry is written, and the map changes accordingly. -/
theorem write_handled (hI : I file w.files) (hwhole : file.bytes.length % dirEntrySize = 0) {i : Nat}
    (hi : i ≤ file.bytes.length / dirEntrySize) {de : DirEntry} (hde : de.name.length = dirNameSize)
    {rep : DirReply} (hdistinct : Holes.Distinct (Holes.fill (slotsOf file.bytes) i de.slot))
    (hrep : m.handled file = (rep, Holes.find (Holes.fill (slotsOf file.bytes) i de.slot))) :
    (fc.fileWrite dir (dirEntrySize * i) de.bytes w.files).1 = true ∧
      Handled I file m w
        ⟨(fc.fileWrite dir (dirEntrySize * i) de.bytes w.files).2, w.outbox ++ [(m.src, rep)]⟩
        (writeAt file.bytes (dirEntrySize * i) de.bytes) := by
  have hslots := slotsOf_writeAt hwhole hi hde
  have hlen := Reference.length_writeAt file.bytes (dirEntrySize * i) de.bytes
  rw [de.length_bytes hde] at hlen
  have hplace : dirEntrySize * i ≤ file.bytes.length := by
    unfold dirEntrySize at *
    omega
  obtain ⟨hok, hI'⟩ := hs.write file w.files (dirEntrySize * i) de.bytes hI hplace
    (Nat.mul_mod_right _ _) (de.length_bytes hde)
  refine ⟨hok, ?_, ?_, ⟨?_, ?_⟩, ?_, hI'⟩
  · rw [hrep]
  · rw [hrep, namesOf, hslots]
  · rw [hlen]
    unfold dirEntrySize at *
    omega
  · rw [hslots]
    exact hdistinct
  · rw [hlen]
    omega

/-- Whoever must not write to the directory is refused, and for the others the handler goes on. -/
theorem outcome_writing (htype : m.req.type = .insert ∨ m.req.type = .remove)
    (hwf : WellFormed file.bytes) (hI : I file w.files) {next : DirM φ Unit}
    (hnext : m.granted file = true → ∀ w₁, Kept I file w w₁ →
      Outcome next (fun _ w' => ∃ bytes, Handled I file m w w' bytes) (fun _ _ => False) w₁) :
    Outcome (do
      if !(← allowed fc dir (BitVec.ofNat 32 m.uid) Permission.ownerWrite Permission.otherWrite) then
        dirRespond m.src .error fidZero
      else next)
      (fun _ w' => ∃ bytes, Handled I file m w w' bytes) (fun _ _ => False) w := by
  rw [Outcome.bind_iff]
  apply (outcome_allowed hs hI _ _ _).post
  intro b w₁ hpost
  obtain ⟨hb, hkept⟩ := hpost
  rw [← granted_write htype] at hb
  subst hb
  cases hg : m.granted file with
  | false => exact ⟨_, hkept.handled hwf (handled_refused hg)⟩
  | true =>
    rw [if_neg (by simp)]
    exact hnext hg w₁ hkept

theorem insert_handled (htype : m.req.type = .insert) (hdir : m.req.dir = dir)
    (hname : ProperName m.name) (hwf : WellFormed file.bytes) (hI : I file w.files)
    (hrounds : file.bytes.length < rounds) :
    Outcome (dirDoInsert fc rounds m.req m.src (BitVec.ofNat 32 m.uid) m.name)
      (fun _ w' => ∃ bytes, Handled I file m w w' bytes) (fun _ _ => False) w := by
  unfold dirDoInsert
  rw [if_neg (Nat.not_lt.mpr hname.short), hdir]
  apply outcome_writing hs (.inl htype) hwf hI
  intro hg w₁ hkept₁
  have hanswer := handled_granted hg
  unfold DirMap.answer at hanswer
  rw [htype] at hanswer
  dsimp only at hanswer
  rw [Outcome.bind_iff]
  refine (outcome_scan hs (visitInsert m.name) hkept₁.1 hwf.whole (Nat.zero_le _) rfl hrounds
    none).post fun r w₂ hpost => ?_
  obtain ⟨hr, hI₂, hout₂⟩ := hpost
  subst hr
  have hout : w₂.outbox = w.outbox := hout₂.trans hkept₁.2
  rw [scanned_insert]
  cases hfind : namesOf file.bytes m.name with
  | some fid =>
    rw [hfind] at hanswer
    exact ⟨_, Kept.handled ⟨hI₂, hout⟩ hwf hanswer⟩
  | none =>
    rw [hfind] at hanswer
    obtain ⟨i, hi, hvacant, hplace⟩ := vacant_insert file.bytes hwf.whole
    have hkey := Holes.find_eq_none_iff.mp hfind
    have hslot : (newEntry m.req.fid m.name).slot = some (m.name, m.req.fid) := newEntry_slot hname _
    have hwritten := write_handled hs (w := w₂) (m := m) hI₂ hwf.whole hi
      (newEntry_length m.req.fid)
      (by rw [hslot]; exact Holes.distinct_fill hvacant hkey hwf.distinct)
      (by rw [hslot, Holes.find_fill hvacant hkey]; exact hanswer)
    dsimp only
    rw [Outcome.bind_iff, outcome_onFiles, hplace, hwritten.1, if_pos rfl]
    refine ⟨_, ?_, hwritten.2.names, hwritten.2.wellFormed, hwritten.2.length, hwritten.2.files⟩
    rw [hanswer]
    exact congrArg (· ++ _) hout

theorem remove_handled (htype : m.req.type = .remove) (hdir : m.req.dir = dir)
    (hname : ProperName m.name) (hwf : WellFormed file.bytes) (hI : I file w.files)
    (hrounds : file.bytes.length < rounds) :
    Outcome (dirDoRemove fc rounds m.req m.src (BitVec.ofNat 32 m.uid) m.name)
      (fun _ w' => ∃ bytes, Handled I file m w w' bytes) (fun _ _ => False) w := by
  unfold dirDoRemove
  rw [if_neg (Nat.not_lt.mpr hname.short), hdir]
  apply outcome_writing hs (.inr htype) hwf hI
  intro hg w₁ hkept₁
  have hanswer := handled_granted hg
  unfold DirMap.answer at hanswer
  rw [htype] at hanswer
  dsimp only at hanswer
  rw [Outcome.bind_iff]
  refine (outcome_scan hs (visitRemove m.req.fid.fileNo m.name) hkept₁.1 hwf.whole (Nat.zero_le _)
    rfl hrounds ()).post fun r w₂ hpost => ?_
  obtain ⟨hr, hI₂, hout₂⟩ := hpost
  subst hr
  have hout : w₂.outbox = w.outbox := hout₂.trans hkept₁.2
  rcases scanned_remove m.name m.req.fid.fileNo file.bytes with
    ⟨i, fid, hi, hno, hscan⟩ | ⟨hall, hscan⟩
  · have hlt : i < (slotsOf file.bytes).length := (List.getElem?_eq_some_iff.mp hi).1
    rw [length_slotsOf] at hlt
    have hfound : namesOf file.bytes m.name = some fid := Holes.find_eq_some hwf.distinct hi
    rw [hfound] at hanswer
    dsimp only at hanswer
    rw [if_pos hno] at hanswer
    have hempty : emptyEntry.name.length = dirNameSize := rfl
    have hwritten := write_handled hs (w := w₂) (m := m) hI₂ hwf.whole hlt.le hempty
      (by rw [emptyEntry_slot]; exact Holes.distinct_clear hwf.distinct hi)
      (by rw [emptyEntry_slot, Holes.find_clear hwf.distinct hi]; exact hanswer)
    rw [hscan]
    dsimp only
    rw [Outcome.bind_iff, outcome_onFiles, hwritten.1, if_pos rfl]
    refine ⟨_, ?_, hwritten.2.names, hwritten.2.wellFormed, hwritten.2.length, hwritten.2.files⟩
    rw [hanswer]
    exact congrArg (· ++ _) hout
  · rw [hscan]
    refine ⟨_, Kept.handled ⟨hI₂, hout⟩ hwf ?_⟩
    cases hfind : namesOf file.bytes m.name with
    | none =>
      rw [hfind] at hanswer
      exact hanswer
    | some fid =>
      obtain ⟨i, hi⟩ := Holes.exists_of_find hfind
      rw [hfind] at hanswer
      dsimp only at hanswer
      rw [if_neg (hall i fid hi)] at hanswer
      exact hanswer

end

/-! ## Messages -/

section

variable {φ : Type} {fc : FileClient φ} {rounds : Nat}

/-- The handler of a request, with the name as far as the server has room for it. -/
theorem dirProc_message (m : DirMessage) : dirProc fc rounds m.message =
    let name := m.name.take (requestBuffer - DirRequest.sizeof)
    match m.req.type with
    | .lookup => dirDoLookup fc rounds m.req m.src (BitVec.ofNat 32 m.uid) name
    | .insert => dirDoInsert fc rounds m.req m.src (BitVec.ofNat 32 m.uid) name
    | .remove => dirDoRemove fc rounds m.req m.src (BitVec.ofNat 32 m.uid) name
    | .unused => throw .assert := by
  have hlen : m.req.bytes.length = DirRequest.sizeof := m.req.length_bytes
  have htake : m.message.contents.take requestBuffer =
      m.req.bytes ++ m.name.take (requestBuffer - DirRequest.sizeof) := by
    change (m.req.bytes ++ m.name).take requestBuffer = _
    rw [List.take_append, List.take_of_length_le (by rw [hlen]; decide), hlen]
  have hdrop : (m.req.bytes ++ m.name.take (requestBuffer - DirRequest.sizeof)).drop
      DirRequest.sizeof = m.name.take (requestBuffer - DirRequest.sizeof) := by
    rw [← hlen, List.drop_left]
  unfold dirProc
  dsimp only
  rw [htake, if_neg (by rw [List.length_append, hlen]; omega), m.req.ofMemory_bytes, hdrop]
  rfl

theorem take_name {name : List Byte} (h : name.length ≤ dirNameSize) :
    name.take (requestBuffer - DirRequest.sizeof) = name := by
  apply List.take_of_length_le
  unfold dirNameSize at h
  unfold requestBuffer DirRequest.sizeof
  omega

theorem dirProc_long {m : DirMessage} (htype : m.req.type ≠ .unused)
    (hlong : dirNameSize < m.name.length) :
    dirProc fc rounds m.message = dirRespond m.src .error fidZero := by
  have htake : dirNameSize < (m.name.take (requestBuffer - DirRequest.sizeof)).length := by
    rw [List.length_take]
    unfold dirNameSize requestBuffer DirRequest.sizeof at *
    omega
  rw [dirProc_message]
  dsimp only
  cases htyped : m.req.type with
  | lookup => exact if_pos htake
  | insert => exact if_pos htake
  | remove => exact if_pos htake
  | unused => exact absurd htyped htype

variable {dir : Fid} {I : RefFile → φ → Prop} {file : RefFile} {w : DirWorld φ}

theorem dirProc_handled (hs : Serves fc dir I) {m : DirMessage} (htype : m.req.type ≠ .unused)
    (hdir : m.req.dir = dir) (hname : ProperName m.name) (hwf : WellFormed file.bytes)
    (hI : I file w.files) (hrounds : file.bytes.length < rounds) :
    Outcome (dirProc fc rounds m.message) (fun _ w' => ∃ bytes, Handled I file m w w' bytes)
      (fun _ _ => False) w := by
  rw [dirProc_message, take_name hname.short]
  cases htyped : m.req.type with
  | lookup => exact lookup_handled hs htyped hdir hname hwf hI hrounds
  | insert => exact insert_handled hs htyped hdir hname hwf hI hrounds
  | remove => exact remove_handled hs htyped hdir hname hwf hI hrounds
  | unused => exact absurd htyped htype

end

end Egos.Dirsvr
