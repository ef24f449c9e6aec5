import Egos.File.Handlers

/-!
# Directories are finite maps

Over a service whose files are arrays of bytes, the directory server answers what a map from names to
files answers, as long as the names in the directory are distinct.
-/
namespace Egos.Dirsvr

open Egos.Lib Egos.File
open Reference (RefFile)

set_option autoImplicit false

section

variable {φ : Type} (ba : ByteArrays φ)

/-- The map of a directory's file. -/
def namesIn (s : φ) (dir : Fid) : DirMap := namesOf (ba.contents s dir)

/-- The user may do with the directory what these bits of its mode are for. -/
def Permitted (s : φ) (dir : Fid) (uid : BitVec 32) (owner other : BitVec 16) : Prop :=
  uid = 0 ∨ ba.mode s dir &&& (if ba.uid s dir = uid then owner else other) ≠ 0

/-- The user may read the directory for a lookup, and write to it otherwise. -/
def DirMessage.Permitted (s : φ) (m : DirMessage) : Prop :=
  match m.req.type with
  | .lookup =>
    Dirsvr.Permitted ba s m.req.dir (BitVec.ofNat 32 m.uid) Permission.ownerRead Permission.otherRead
  | _ =>
    Dirsvr.Permitted ba s m.req.dir (BitVec.ofNat 32 m.uid) Permission.ownerWrite Permission.otherWrite

/-- A request on a directory, with a proper name, from a user who may make it. -/
structure DirMessage.Proper (s : φ) (dir : Fid) (m : DirMessage) : Prop where
  type : m.req.type ≠ .unused
  dir : m.req.dir = dir
  name : ProperName m.name
  permitted : m.Permitted ba s

/-- The file of a directory, as its owner and its bytes are told. -/
def fileOf (s : φ) (dir : Fid) : RefFile := ⟨ba.uid s dir, ba.mode s dir, ba.contents s dir⟩

/-- The directory's file is this one, and all others are as they were in `s₀`. -/
structure Only (s₀ : φ) (dir : Fid) (file : RefFile) (s : φ) : Prop where
  contents : ba.contents s = Function.update (ba.contents s₀) dir file.bytes
  uid : ba.uid s = ba.uid s₀
  mode : ba.mode s = ba.mode s₀
  owner : file.uid = ba.uid s₀ dir
  access : file.mode = ba.mode s₀ dir

variable {ba} {s₀ : φ} {dir : Fid} {m : DirMessage}

theorem only_fileOf (s : φ) (dir : Fid) : Only ba s dir (fileOf ba s dir) s :=
  ⟨(Function.update_eq_self _ _).symm, rfl, rfl, rfl, rfl⟩

theorem serves_only : Serves ba.toFileClient dir (Only ba s₀ dir) where
  stat file s h := by
    obtain ⟨fcb, hstat, huid, hmode⟩ := ba.stat_eq dir s
    refine ⟨fcb, hstat, ?_, ?_, ?_, ?_, ?_, h.owner, h.access⟩
    · rw [huid, h.uid, h.owner]
    · rw [hmode, h.mode, h.access]
    · rw [ba.stat_contents, h.contents]
    · rw [(ba.stat_access dir s).1, h.uid]
    · rw [(ba.stat_access dir s).2, h.mode]
  read file s offset size h := by
    refine ⟨?_, ?_, ?_, ?_, h.owner, h.access⟩
    · rw [ba.read_eq, h.contents, Function.update_self]
    · rw [ba.read_contents, h.contents]
    · rw [(ba.read_access dir offset size s).1, h.uid]
    · rw [(ba.read_access dir offset size s).2, h.mode]
  write file s offset data h _ _ _ := by
    refine ⟨ba.write_eq _ _ _ _, ?_, ?_, ?_, h.owner, h.access⟩
    · rw [ba.write_contents, h.contents, Function.update_self, Function.update_idem]
    · rw [(ba.write_access dir offset data s).1, h.uid]
    · rw [(ba.write_access dir offset data s).2, h.mode]

theorem DirMessage.Permitted.granted {s : φ} (h : m.Permitted ba s) (hdir : m.req.dir = dir) :
    m.granted (fileOf ba s dir) = true := by
  subst hdir
  have hallows {owner other : BitVec 16}
      (hp : Dirsvr.Permitted ba s m.req.dir (BitVec.ofNat 32 m.uid) owner other) :
      (fileOf ba s m.req.dir).allows (BitVec.ofNat 32 m.uid) owner other = true := by
    unfold RefFile.allows
    rcases hp with hroot | hbits
    · rw [decide_eq_true hroot, Bool.true_or]
    · rw [Bool.or_eq_true]
      refine .inr (bne_iff_ne.mpr ?_)
      simp only [eq_comm (a := BitVec.ofNat 32 m.uid)]
      exact hbits
  unfold DirMessage.Permitted at h
  unfold DirMessage.granted
  cases htype : m.req.type with
  | lookup =>
    rw [htype] at h
    exact hallows h
  | insert =>
    rw [htype] at h
    exact hallows h
  | remove =>
    rw [htype] at h
    exact hallows h
  | unused =>
    rw [htype] at h
    exact hallows h

theorem DirMessage.Proper.congr {s s' : φ} (h : m.Proper ba s dir) (huid : ba.uid s' = ba.uid s)
    (hmode : ba.mode s' = ba.mode s) : m.Proper ba s' dir where
  type := h.type
  dir := h.dir
  name := h.name
  permitted := by
    have hp := h.permitted
    unfold Permitted Dirsvr.Permitted at hp ⊢
    rw [huid, hmode]
    exact hp

variable (ba) in
/-- One reply, which is that of the map, and the file has become that of the map behind it. -/
structure Answered (dir : Fid) (m : DirMessage) (w w' : DirWorld φ) : Prop where
  outbox : w'.outbox = w.outbox ++ [(m.src, ((namesIn ba w.files dir).answer m).1)]
  names : namesIn ba w'.files dir = ((namesIn ba w.files dir).answer m).2
  wellFormed : WellFormed (ba.contents w'.files dir)
  length : (ba.contents w'.files dir).length ≤ (ba.contents w.files dir).length + dirEntrySize
  others : ∀ f, f ≠ dir → ba.contents w'.files f = ba.contents w.files f
  uid : ba.uid w'.files = ba.uid w.files
  mode : ba.mode w'.files = ba.mode w.files

theorem dirProc_answered {w : DirWorld φ} {rounds : Nat} (hm : m.Proper ba w.files dir)
    (hwf : WellFormed (ba.contents w.files dir))
    (hrounds : (ba.contents w.files dir).length < rounds) :
    Outcome (dirProc ba.toFileClient rounds m.message) (fun _ w' => Answered ba dir m w w')
      (fun _ _ => False) w := by
  refine (dirProc_handled serves_only hm.type hm.dir hm.name hwf (only_fileOf w.files dir)
    hrounds).post fun _ w' hpost => ?_
  obtain ⟨bytes, h⟩ := hpost
  have hanswer : m.handled (fileOf ba w.files dir) = (namesIn ba w.files dir).answer m :=
    handled_granted (hm.permitted.granted hm.dir)
  have hcontents := h.files.contents
  have hbytes : ba.contents w'.files dir = bytes := by rw [hcontents, Function.update_self]
  constructor
  · rw [h.outbox, hanswer]
  · rw [namesIn, hbytes, h.names, hanswer]
  · rw [hbytes]
    exact h.wellFormed
  · rw [hbytes]
    exact h.length
  · intro f hf
    rw [hcontents, Function.update_of_ne hf]
  · exact h.files.uid
  · exact h.files.mode

variable (ba) in
/-- The directory after a sequence of requests, and the replies to it. -/
structure AnsweredAll (dir : Fid) (script : List DirMessage) (w w' : DirWorld φ) : Prop where
  outbox : w'.outbox = w.outbox ++ ((namesIn ba w.files dir).run script).1
  names : namesIn ba w'.files dir = ((namesIn ba w.files dir).run script).2
  wellFormed : WellFormed (ba.contents w'.files dir)
  others : ∀ f, f ≠ dir → ba.contents w'.files f = ba.contents w.files f

theorem serveAll_answered {w : DirWorld φ} {script : List DirMessage} {rounds : Nat}
    (hscript : ∀ m ∈ script, m.Proper ba w.files dir) (hwf : WellFormed (ba.contents w.files dir))
    (hrounds : (ba.contents w.files dir).length + dirEntrySize * script.length < rounds) :
    Outcome (serveAll ba.toFileClient rounds (script.map DirMessage.message))
      (fun _ w' => AnsweredAll ba dir script w w') (fun _ _ => False) w := by
  induction script generalizing w with
  | nil => exact ⟨(List.append_nil _).symm, rfl, hwf, fun _ _ => rfl⟩
  | cons m rest ih =>
    rw [List.length_cons, Nat.mul_succ] at hrounds
    rw [List.map_cons, serveAll, Outcome.bind_iff]
    refine (dirProc_answered (hscript m List.mem_cons_self) hwf (by omega)).post fun _ w₁ h₁ => ?_
    have hlength := h₁.length
    have hrest := ih (w := w₁)
      (fun m' hm' => (hscript m' (List.mem_cons_of_mem _ hm')).congr h₁.uid h₁.mode) h₁.wellFormed
      (by omega)
    refine hrest.post fun _ w₂ h₂ => ⟨?_, ?_, h₂.wellFormed, fun f hf => ?_⟩
    · rw [h₂.outbox, h₁.outbox, h₁.names, List.append_assoc]
      rfl
    · rw [h₂.names, h₁.names]
      rfl
    · exact (h₂.others f hf).trans (h₁.others f hf)

/-- Over a service of byte arrays, a directory of distinct names is a map from names to files: in
every sequence of proper requests by users who may make them, each gets the reply of the map, and
the file ends up as a directory of distinct names with the contents of the map. -/
theorem directory_is_map {w : DirWorld φ} {script : List DirMessage}
    (hscript : ∀ m ∈ script, m.Proper ba w.files dir) (hwf : WellFormed (ba.contents w.files dir)) :
    ∃ enough, ∀ rounds, enough ≤ rounds →
      Outcome (serveAll ba.toFileClient rounds (script.map DirMessage.message))
        (fun _ w' => AnsweredAll ba dir script w w') (fun _ _ => False) w :=
  ⟨(ba.contents w.files dir).length + dirEntrySize * script.length + 1,
    fun _ hrounds => serveAll_answered hscript hwf hrounds⟩

end

/-- A request of the superuser on file 7 of server 3. -/
def rootRequest (type : DirOp) (name : List Byte) (fileNo : BitVec 32) : DirMessage :=
  ⟨5, 0, ⟨type, ⟨3, 7⟩, ⟨0, fileNo⟩, BitVec.ofNat 32 name.length⟩, name⟩

/-- A name is inserted, looked up, not inserted again, and removed. -/
def rootScript : List DirMessage :=
  [rootRequest .insert [0x61] 9, rootRequest .lookup [0x61] 0, rootRequest .insert [0x61] 8,
    rootRequest .remove [0x61] 9, rootRequest .lookup [0x61] 0]

def emptyDirectories : DirWorld (Fid → Reference.RefFile) := ⟨fun _ => ⟨0, 0, []⟩, []⟩

theorem directory_is_map_root : ∃ enough, ∀ rounds, enough ≤ rounds →
    Outcome (serveAll plainFiles.toFileClient rounds (rootScript.map DirMessage.message))
      (fun _ w' => AnsweredAll plainFiles ⟨3, 7⟩ rootScript emptyDirectories w') (fun _ _ => False)
      emptyDirectories := by
  apply directory_is_map
  · intro m hm
    have hname : ProperName [0x61] := ⟨by decide, by decide, by decide⟩
    simp only [rootScript, List.mem_cons, List.not_mem_nil, or_false] at hm
    rcases hm with rfl | rfl | rfl | rfl | rfl
    all_goals exact ⟨by decide, rfl, hname, .inl rfl⟩
  · exact ⟨rfl, List.nodup_nil⟩

end Egos.Dirsvr
