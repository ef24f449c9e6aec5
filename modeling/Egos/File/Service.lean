import Egos.File.Client
import Mathlib.Data.List.Find

/-!
# File services with many users

What a client may do depends on its user. A call can fail for reasons of the servers' own, but then
nothing has changed, and a call that succeeds has done what it is for. `volume` is a service whose
calls fail for no other reasons than those that the block file server checks.
-/
namespace Egos.File

open Egos.Lib Reference

set_option autoImplicit false

/-- The allocated files of all servers, with what their users can see of them. -/
abbrev FileTable := Fid → Option RefFile

/-- A service with a client for every user. What a new file holds, and what comes of a write behind
the end of a file, is left open. -/
structure FileService (φ : Type) where
  client : BitVec 32 → FileClient φ
  files : φ → FileTable
  stat_files : ∀ uid fid s, files ((client uid).fileStat fid s).2 = files s
  read_files : ∀ uid fid offset size s, files ((client uid).fileRead fid offset size s).2 = files s
  create_files : ∀ uid server mode s, match (client uid).fileCreate server mode s with
    | (none, s') => files s' = files s
    | (some n, s') => files s ⟨server, n⟩ = none ∧ ∃ bytes,
        files s' = Function.update (files s) ⟨server, n⟩ (some ⟨uid, mode, bytes⟩)
  /-- Writes that span blocks can fail halfway. -/
  write_failed : ∀ uid fid offset data s,
    offset / blockSize = (offset + data.length - 1) / blockSize →
      ((client uid).fileWrite fid offset data s).1 = false →
        files ((client uid).fileWrite fid offset data s).2 = files s
  write_files : ∀ uid fid offset data s, ((client uid).fileWrite fid offset data s).1 = true →
    ∃ file bytes, files s fid = some file ∧
      files ((client uid).fileWrite fid offset data s).2 =
        Function.update (files s) fid (some { file with bytes := bytes }) ∧
      (offset ≤ file.bytes.length → bytes = writeAt file.bytes offset data)
  setsize_files : ∀ uid fid size s, files ((client uid).fileSetsize fid size s).2 = files s ∨
    ∃ file bytes, files s fid = some file ∧ files ((client uid).fileSetsize fid size s).2 =
      Function.update (files s) fid (some { file with bytes := bytes })
  delete_files : ∀ uid fid s, match (client uid).fileDelete fid s with
    | (false, s') => files s' = files s
    | (true, s') => files s' = Function.update (files s) fid none

/-- Root can do everything with an allocated file, and whoever may write a file can delete it. -/
structure FileService.Dependable {φ : Type} (fs : FileService φ) : Prop where
  stat : ∀ fid file s, fs.files s fid = some file → ∃ fcb,
    ((fs.client 0).fileStat fid s).1 = some fcb ∧ fcb.stUid = file.uid ∧ fcb.stMode = file.mode
  read : ∀ fid file s offset size, fs.files s fid = some file →
    ((fs.client 0).fileRead fid offset size s).1 = some (readAt file.bytes offset size)
  write : ∀ fid file s offset data, fs.files s fid = some file → offset ≤ file.bytes.length →
    ((fs.client 0).fileWrite fid offset data s).1 = true
  delete : ∀ uid fid file s, fs.files s fid = some file → ((fs.client uid).fileDelete fid s).1 =
    file.allows uid Permission.ownerWrite Permission.otherWrite

/-! ## A plain service -/

/-- The first free number of a server with `numFcbs` files. -/
def freeNumber (files : FileTable) (server : BitVec 32) (numFcbs : Nat) : Option (BitVec 32) :=
  ((List.range' 1 (numFcbs - 1)).find? fun n => (files ⟨server, BitVec.ofNat 32 n⟩).isNone).map
    (BitVec.ofNat 32)

/-- The user's calls to servers with `numFcbs` files each. -/
def volumeClient (numFcbs : Nat) (uid : BitVec 32) : FileClient FileTable where
  fileCreate server mode := fun files =>
    match freeNumber files server numFcbs with
    | none => (none, files)
    | some n => (some n, Function.update files ⟨server, n⟩ (some ⟨uid, mode, []⟩))
  fileRead fid offset size := fun files =>
    match files fid with
    | none => (none, files)
    | some file =>
      if file.allows uid Permission.ownerRead Permission.otherRead then
        (some (readAt file.bytes offset size), files)
      else (none, files)
  fileWrite fid offset data := fun files =>
    match files fid with
    | none => (false, files)
    | some file =>
      if file.allows uid Permission.ownerWrite Permission.otherWrite then
        (true, Function.update files fid
          (some { file with bytes := writeAt file.bytes offset data }))
      else (false, files)
  fileStat fid := fun files =>
    match files fid with
    | none => (none, files)
    | some file =>
      if file.allows uid Permission.ownerRead Permission.otherRead then
        (some { FileControlBlock.zero with
          stAlloc := true
          stIno := fid.fileNo
          stUid := file.uid
          stMode := file.mode
          stSize := BitVec.ofNat 64 file.bytes.length }, files)
      else (none, files)
  fileSetsize fid size := fun files =>
    match files fid with
    | none => (false, files)
    | some file =>
      if file.bytes.length < size then (false, files)
      else if file.allows uid Permission.ownerWrite Permission.otherWrite then
        (true, Function.update files fid (some { file with bytes := file.bytes.take size }))
      else (false, files)
  fileDelete fid := fun files =>
    match files fid with
    | none => (true, files)
    | some file =>
      if file.allows uid Permission.ownerWrite Permission.otherWrite then
        (true, Function.update files fid none)
      else (false, files)

theorem freeNumber_free {files : FileTable} {server n : BitVec 32} {numFcbs : Nat}
    (h : freeNumber files server numFcbs = some n) : files ⟨server, n⟩ = none := by
  obtain ⟨k, hk, rfl⟩ := Option.map_eq_some_iff.mp h
  simpa using List.find?_some hk

/-- Servers with `numFcbs` files each and nothing that goes wrong. -/
def volume (numFcbs : Nat) : FileService FileTable where
  client := volumeClient numFcbs
  files s := s
  stat_files uid fid s := by
    simp only [volumeClient]
    repeat' split
    all_goals rfl
  read_files uid fid offset size s := by
    simp only [volumeClient]
    repeat' split
    all_goals rfl
  create_files uid server mode s := by
    simp only [volumeClient]
    cases hfree : freeNumber s server numFcbs with
    | none => rfl
    | some n => exact ⟨freeNumber_free hfree, [], rfl⟩
  write_failed uid fid offset data s _ := by
    simp only [volumeClient]
    cases s fid with
    | none => exact fun _ => rfl
    | some file =>
      dsimp only
      split
      · simp
      · exact fun _ => rfl
  write_files uid fid offset data s := by
    simp only [volumeClient]
    cases hfile : s fid with
    | none => simp
    | some file =>
      dsimp only
      split
      · exact fun _ => ⟨file, _, rfl, rfl, fun _ => rfl⟩
      · simp
  setsize_files uid fid size s := by
    simp only [volumeClient]
    cases hfile : s fid with
    | none => exact .inl rfl
    | some file =>
      dsimp only
      split
      · exact .inl rfl
      · split
        · exact .inr ⟨file, _, rfl, rfl⟩
        · exact .inl rfl
  delete_files uid fid s := by
    simp only [volumeClient]
    cases hfile : s fid with
    | none => exact (Function.update_eq_self_iff.mpr hfile.symm).symm
    | some file =>
      by_cases hallowed : file.allows uid Permission.ownerWrite Permission.otherWrite = true
      · simp [hallowed]
      · simp [hallowed]

theorem RefFile.allows_root (file : RefFile) (owner other : BitVec 16) :
    file.allows 0 owner other = true := rfl

theorem volume_dependable (numFcbs : Nat) : (volume numFcbs).Dependable where
  stat fid file s h := by
    change s fid = some file at h
    simp only [volume, volumeClient, h, RefFile.allows_root, if_pos]
    exact ⟨_, rfl, rfl, rfl⟩
  read fid file s offset size h := by
    change s fid = some file at h
    simp only [volume, volumeClient, h, RefFile.allows_root, if_pos]
  write fid file s offset data h _ := by
    change s fid = some file at h
    simp only [volume, volumeClient, h, RefFile.allows_root, if_pos]
  delete uid fid file s h := by
    change s fid = some file at h
    simp only [volume, volumeClient, h]
    cases file.allows uid Permission.ownerWrite Permission.otherWrite <;> rfl

/-! ## One server of it

The answers of the reference, which the block file server follows, are those of the volume.
-/

/-- The files of one server. -/
def filesOf (files : FileTable) (server : BitVec 32) : RefFiles := fun n =>
  if n < 2 ^ 32 then files ⟨server, BitVec.ofNat 32 n⟩ else none

section

variable {numFcbs : Nat} {files : FileTable} {server uid : BitVec 32} {req : FileRequest}
  {data : List Byte}

theorem filesOf_toNat (n : BitVec 32) : filesOf files server n.toNat = files ⟨server, n⟩ := by
  rw [filesOf, if_pos n.isLt, BitVec.ofNat_toNat, BitVec.setWidth_eq]

theorem filesOf_update (n : BitVec 32) (file : Option RefFile) :
    filesOf (Function.update files ⟨server, n⟩ file) server =
      Function.update (filesOf files server) n.toNat file := by
  funext k
  by_cases hk : k = n.toNat
  · rw [hk, filesOf_toNat, Function.update_self, Function.update_self]
  · rw [Function.update_of_ne hk]
    unfold filesOf
    by_cases hlt : k < 2 ^ 32
    · have hne : (⟨server, BitVec.ofNat 32 k⟩ : Fid) ≠ ⟨server, n⟩ := by
        intro heq
        have hn := congrArg (fun fid => fid.fileNo.toNat) heq
        rw [BitVec.toNat_ofNat, Nat.mod_eq_of_lt hlt] at hn
        exact hk hn
      rw [if_pos hlt, if_pos hlt, Function.update_of_ne hne]
    · rw [if_neg hlt, if_neg hlt]

theorem volume_create (htype : req.type = .create) (hnum : numFcbs ≤ 2 ^ 32) :
    answer numFcbs (filesOf files server) uid req data =
      (((volumeClient numFcbs uid).fileCreate server req.mode files).1.elim (.plain .error [])
          fun n => { FileReply.plain .ok [] with fileNo := n },
        filesOf ((volumeClient numFcbs uid).fileCreate server req.mode files).2 server) := by
  have hfree : freeNumber files server numFcbs =
      (lowestFree (filesOf files server) numFcbs).map (BitVec.ofNat 32) := by
    unfold freeNumber lowestFree
    congr 1
    apply List.find?_congr
    intro k hk
    have := List.mem_range'_1.mp hk
    rw [filesOf, if_pos (by omega)]
  simp only [answer, htype, volumeClient, hfree]
  cases hlow : lowestFree (filesOf files server) numFcbs with
  | none => rfl
  | some f =>
    have hmem := List.mem_range'_1.mp (List.mem_of_find?_eq_some hlow)
    have hf : (BitVec.ofNat 32 f).toNat = f := by
      rw [BitVec.toNat_ofNat, Nat.mod_eq_of_lt (by omega)]
    simp only [Option.map_some, Option.elim_some, filesOf_update, hf]

theorem volume_read (htype : req.type = .read) :
    answer numFcbs (filesOf files server) uid req data =
      (((volumeClient numFcbs uid).fileRead ⟨server, req.fileNo⟩ req.offset.toNat req.size.toNat
          files).1.elim (.plain .error []) Bfs.readReply, filesOf files server) := by
  simp only [answer, htype, volumeClient, filesOf_toNat]
  cases files ⟨server, req.fileNo⟩ with
  | none => rfl
  | some file =>
    dsimp only
    split <;> rfl

theorem volume_write (htype : req.type = .write) :
    answer numFcbs (filesOf files server) uid req data =
      let r := (volumeClient numFcbs uid).fileWrite ⟨server, req.fileNo⟩ req.offset.toNat data files
      (.plain (if r.1 then .ok else .error) [], filesOf r.2 server) := by
  simp only [answer, htype, volumeClient, filesOf_toNat]
  cases files ⟨server, req.fileNo⟩ with
  | none => rfl
  | some file =>
    dsimp only
    split
    · rw [filesOf_update]
      rfl
    · rfl

end

end Egos.File
