import Egos.File.Handlers
import Egos.File.Stdio

/-!
# Directories of dependable servers

Over file servers that do what root asks for, a call to the directory server does to the directory what
a map from names to files does, and nothing else.
-/
namespace Egos.File

open Egos.Lib Egos.Disk Egos.Dirsvr
open Reference (RefFile)

set_option autoImplicit false

section

variable {φ : Type} {fs : FileService φ} {rounds : Nat} {uid : BitVec 32} {s : Servers φ}

/-- All files are as they were, except for this one. -/
def Replaced (fs : FileService φ) (files : FileTable) (dir : Fid) (file : RefFile) (s : φ) : Prop :=
  fs.files s = Function.update files dir (some file)

theorem FileService.Dependable.serves (hfs : fs.Dependable) (files : FileTable) (dir : Fid) :
    Serves (fs.client 0) dir (Replaced fs files dir) where
  stat file s h := by
    have hfile : fs.files s dir = some file := by rw [h, Function.update_self]
    obtain ⟨fcb, hstat, huid, hmode⟩ := hfs.stat dir file s hfile
    exact ⟨fcb, hstat, huid, hmode, (fs.stat_files 0 dir s).trans h⟩
  read file s offset size h := by
    have hfile : fs.files s dir = some file := by rw [h, Function.update_self]
    exact ⟨hfs.read dir file s offset size hfile, (fs.read_files 0 dir offset size s).trans h⟩
  write file s offset data h hplace _ _ := by
    have hfile : fs.files s dir = some file := by rw [h, Function.update_self]
    have hok := hfs.write dir file s offset data hfile hplace
    obtain ⟨file₁, bytes, hfile₁, hfiles, hbytes⟩ := fs.write_files 0 dir offset data s hok
    rw [hfile] at hfile₁
    cases hfile₁
    refine ⟨hok, ?_⟩
    unfold Replaced at h ⊢
    rw [hfiles, hbytes hplace, h, Function.update_idem]

/-- The message behind a call. -/
def callMessage (uid : BitVec 32) (type : DirOp) (dir : Fid) (name : List Byte) (fid : Fid) :
    DirMessage := ⟨0, uid.toNat, ⟨type, dir, fid, BitVec.ofNat 32 name.length⟩, name⟩

theorem dirRequest_eq (type : DirOp) (dir : Fid) (name : List Byte) (fid : Fid) :
    dirRequest uid type dir name fid = (callMessage uid type dir name fid).message := rfl

theorem callMessage_granted {type : DirOp} (h : type = .insert ∨ type = .remove)
    (uid : BitVec 32) (dir fid : Fid) (name : List Byte) (file : RefFile) :
    (callMessage uid type dir name fid).granted file =
      file.allows uid Permission.ownerWrite Permission.otherWrite := by
  rw [granted_write h]
  unfold callMessage
  rw [BitVec.ofNat_toNat, BitVec.setWidth_eq]

/-- A directory that the server can read to its end. -/
structure Readable (rounds : Nat) (bytes : List Byte) : Prop where
  wellFormed : WellFormed bytes
  rounds : bytes.length < rounds

/-- What a call does to a directory, and what it returns. -/
structure Mapped (fs : FileService φ) (m : DirMessage) (file : RefFile) (s : Servers φ)
    (bytes : List Byte) (r : Option Fid) (s' : Servers φ) : Prop where
  reply : r = if (m.handled file).1.status = .ok then some (m.handled file).1.fid else none
  names : namesOf bytes = (m.handled file).2
  wellFormed : WellFormed bytes
  length : bytes.length ≤ file.bytes.length + dirEntrySize
  files : fs.files s'.files =
    Function.update (fs.files s.files) m.req.dir (some { file with bytes := bytes })
  up : s'.dirUp = true

theorem outcome_dirCall_mapped (hfs : fs.Dependable) (uid : BitVec 32) {type : DirOp}
    (htype : type ≠ .unused) {dir : Fid} {file : RefFile} (hfile : fs.files s.files dir = some file)
    (hread : Readable rounds file.bytes) {name : List Byte} (hname : ProperName name)
    (hup : s.dirUp = true) (fid : Fid) :
    Outcome (dirCall fs rounds uid type dir name fid)
      (fun r s' => ∃ bytes, Mapped fs (callMessage uid type dir name fid) file s bytes r s')
      (fun _ _ => False) s := by
  have hI : Replaced fs (fs.files s.files) dir file s.files :=
    (Function.update_eq_self_iff.mpr hfile.symm).symm
  have hproc := dirProc_handled (w := ⟨s.files, []⟩) (hfs.serves _ dir)
    (m := callMessage uid type dir name fid) htype rfl hname hread.wellFormed hI hread.rounds
  unfold Outcome dirCall
  rw [if_pos hup]
  rw [dirRequest_eq]
  cases hrun : dirProc (fs.client 0) rounds (callMessage uid type dir name fid).message
    ⟨s.files, []⟩ with
  | error e w => exact (hproc.error hrun).elim
  | ok _ w =>
    obtain ⟨bytes, h⟩ := hproc.ok hrun
    refine ⟨bytes, ?_, h.names, h.wellFormed, h.length, h.files, hup⟩
    rw [h.outbox]
    rfl

theorem dirCall_long {type : DirOp} (htype : type ≠ .unused) {name : List Byte}
    (hlong : dirNameSize < name.length) (dir fid : Fid) :
    dirCall fs rounds uid type dir name fid s = .ok none s := by
  have hproc : dirProc (fs.client 0) rounds (callMessage uid type dir name fid).message =
      dirRespond 0 .error fidZero :=
    dirProc_long htype hlong
  unfold dirCall
  split
  · rw [dirRequest_eq, hproc]
    rfl
  · rfl

end

end Egos.File
