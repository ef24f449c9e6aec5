import Egos.File.Creation

/-!
# Names in directories

What a call to a server does to the names in the directories and to the files they stand for. The file
servers are dependable, and the directory server is asked about directories only.
-/
namespace Egos.File

open Egos.Lib Egos.Disk Egos.Dirsvr
open Reference (RefFile)

set_option autoImplicit false

/-- The file that a name in a directory stands for. -/
def entryOf (files : FileTable) (dir : Fid) (name : List Byte) : Option Fid :=
  (files dir).bind fun file => (namesOf file.bytes name).map (resolve dir)

/-- The file exists, and the user may write to it. -/
def writable (files : FileTable) (uid : BitVec 32) (fid : Fid) : Bool :=
  match files fid with
  | none => false
  | some file => file.allows uid Permission.ownerWrite Permission.otherWrite

/-- A part of a C string. -/
def Nonzero (name : List Byte) : Prop := ∀ c ∈ name, c ≠ 0

theorem entryOf_some {files : FileTable} {dir : Fid} {file : RefFile} (h : files dir = some file)
    (name : List Byte) : entryOf files dir name = (namesOf file.bytes name).map (resolve dir) := by
  rw [entryOf, h]
  rfl

theorem writable_some {files : FileTable} {fid : Fid} {file : RefFile} (h : files fid = some file)
    (uid : BitVec 32) :
    writable files uid fid = file.allows uid Permission.ownerWrite Permission.otherWrite := by
  rw [writable, h]

theorem resolve_fileNo (dir fid : Fid) : (resolve dir fid).fileNo = fid.fileNo := by
  unfold resolve
  split <;> rfl

theorem resolve_of_ne {dir fid : Fid} (h : fid.server ≠ 0) : resolve dir fid = fid := if_neg h

theorem entryOf_fileNo {files : FileTable} {dir : Fid} {file : RefFile} (h : files dir = some file)
    (name : List Byte) :
    (entryOf files dir name).map Fid.fileNo = (namesOf file.bytes name).map Fid.fileNo := by
  rw [entryOf_some h, Option.map_map]
  apply congrArg (fun f => (namesOf file.bytes name).map f)
  funext fid
  exact resolve_fileNo dir fid

theorem exists_entry {bytes name : List Byte} {fid : Fid} (h : namesOf bytes name = some fid) :
    ∃ de ∈ entriesOf bytes, ¬ de.isFree = true ∧ de.cname = name := by
  obtain ⟨i, hi⟩ := Holes.exists_of_find h
  rw [slotsOf, List.getElem?_map] at hi
  obtain ⟨de, hget, hde⟩ := Option.map_eq_some_iff.mp hi
  refine ⟨de, List.mem_of_getElem? hget, ?_⟩
  unfold DirEntry.slot at hde
  split at hde
  · cases hde
  · rename_i hfree
    exact ⟨hfree, (Prod.mk.inj (Option.some.inj hde)).1⟩

theorem namesOf_nil (bytes : List Byte) : namesOf bytes [] = none := by
  by_contra hne
  obtain ⟨fid, hfid⟩ := Option.ne_none_iff_exists'.mp hne
  obtain ⟨de, -, hfree, hname⟩ := exists_entry hfid
  exact hfree (cname_eq_nil_iff.mp hname)

theorem namesOf_long (bytes : List Byte) {name : List Byte} (h : dirNameSize < name.length) :
    namesOf bytes name = none := by
  by_contra hne
  obtain ⟨fid, hfid⟩ := Option.ne_none_iff_exists'.mp hne
  obtain ⟨de, hde, -, rfl⟩ := exists_entry hfid
  have hlen : de.cname.length ≤ de.name.length := (List.takeWhile_prefix _).length_le
  rw [name_length_of_mem hde] at hlen
  exact absurd h (Nat.not_lt.mpr hlen)

/-- A file has new entries. -/
structure Rewrites (files : FileTable) (dir : Fid) (file : RefFile) (names : DirMap)
    (files' : FileTable) (bytes : List Byte) : Prop where
  files : files' = Function.update files dir (some { file with bytes := bytes })
  names : namesOf bytes = names
  wellFormed : WellFormed bytes
  length : bytes.length ≤ file.bytes.length + dirEntrySize

/-! ## Changes to a file -/

section

variable {files files' : FileTable} {dir : Fid} {file : RefFile} {names : DirMap} {bytes : List Byte}

theorem entryOf_update_of_ne {fid : Fid} (h : dir ≠ fid) (x : Option RefFile) (name : List Byte) :
    entryOf (Function.update files fid x) dir name = entryOf files dir name := by
  unfold entryOf
  rw [Function.update_of_ne h]

theorem writable_congr {fid : Fid} (h : files' fid = files fid) (uid : BitVec 32) :
    writable files' uid fid = writable files uid fid := by
  unfold writable
  rw [h]

theorem exists_of_writable {uid : BitVec 32} {fid : Fid} (h : writable files uid fid = true) :
    ∃ file, files fid = some file := by
  cases hfile : files fid with
  | none =>
    unfold writable at h
    rw [hfile] at h
    cases h
  | some file => exact ⟨file, rfl⟩

namespace Rewrites

theorem get_self (h : Rewrites files dir file names files' bytes) :
    files' dir = some { file with bytes := bytes } := by
  rw [h.files, Function.update_self]

theorem get_of_ne (h : Rewrites files dir file names files' bytes) {fid : Fid} (hne : fid ≠ dir) :
    files' fid = files fid := by
  rw [h.files, Function.update_of_ne hne]

theorem isSome_iff (h : Rewrites files dir file names files' bytes) (hfile : files dir = some file)
    (fid : Fid) : files' fid ≠ none ↔ files fid ≠ none := by
  by_cases hfid : fid = dir
  · rw [hfid, h.get_self, hfile]
    exact ⟨fun _ => Option.some_ne_none file, fun _ => Option.some_ne_none _⟩
  · rw [h.get_of_ne hfid]

theorem writable_eq (h : Rewrites files dir file names files' bytes) (hfile : files dir = some file)
    (uid : BitVec 32) (fid : Fid) : writable files' uid fid = writable files uid fid := by
  by_cases hfid : fid = dir
  · rw [hfid, writable_some h.get_self, writable_some hfile]
    rfl
  · exact writable_congr (h.get_of_ne hfid) uid

theorem entryOf_eq (h : Rewrites files dir file names files' bytes) (fid : Fid) (name : List Byte) :
    entryOf files' fid name =
      if fid = dir then (names name).map (resolve dir) else entryOf files fid name := by
  by_cases hfid : fid = dir
  · rw [if_pos hfid, hfid, entryOf_some h.get_self, h.names]
  · rw [if_neg hfid, h.files, entryOf_update_of_ne hfid]

theorem entryOf_same (h : Rewrites files dir file (namesOf file.bytes) files' bytes)
    (hfile : files dir = some file) (fid : Fid) (name : List Byte) :
    entryOf files' fid name = entryOf files fid name := by
  rw [h.entryOf_eq]
  by_cases hfid : fid = dir
  · rw [if_pos hfid, hfid, entryOf_some hfile]
  · rw [if_neg hfid]

theorem entryOf_set {name : List Byte} {o : Option Fid}
    (h : Rewrites files dir file (Function.update (namesOf file.bytes) name o) files' bytes)
    (hfile : files dir = some file) (fid : Fid) (name' : List Byte) :
    entryOf files' fid name' =
      if fid = dir ∧ name' = name then o.map (resolve dir) else entryOf files fid name' := by
  rw [h.entryOf_eq]
  by_cases hfid : fid = dir
  · rw [if_pos hfid]
    by_cases hname : name' = name
    · rw [if_pos ⟨hfid, hname⟩, hname, Function.update_self]
    · rw [if_neg fun hc => hname hc.2, Function.update_of_ne hname, hfid, entryOf_some hfile]
  · rw [if_neg hfid, if_neg fun hc => hfid hc.1]

end Rewrites

end

section

variable {φ : Type} {fs : FileService φ} {rounds : Nat} {uid : BitVec 32} {s : Servers φ}
  {dir : Fid} {file : RefFile} {name : List Byte}

/-! ## Calls to the directory server -/

theorem serve_lookup_iff {Q : Option Fid → Servers φ → Prop} {E : Stop → Servers φ → Prop} :
    Outcome (serveCall fs rounds uid (.dirLookup dir name)) Q E s ↔
      Outcome (dirCall fs rounds uid .lookup dir name fidZero) Q E s := Iff.rfl

theorem serve_insert_iff {Q : Bool → Servers φ → Prop} {E : Stop → Servers φ → Prop} {fid : Fid} :
    Outcome (serveCall fs rounds uid (.dirInsert dir name fid)) Q E s ↔
      Outcome (dirCall fs rounds uid .insert dir name fid) (fun r s' => Q r.isSome s') E s :=
  Outcome.bind_iff _ _

theorem serve_remove_iff {Q : Bool → Servers φ → Prop} {E : Stop → Servers φ → Prop} {fid : Fid} :
    Outcome (serveCall fs rounds uid (.dirRemove dir name fid)) Q E s ↔
      Outcome (dirCall fs rounds uid .remove dir name fid) (fun r s' => Q r.isSome s') E s :=
  Outcome.bind_iff _ _

theorem serve_lookup (hfs : fs.Dependable) (hfile : fs.files s.files dir = some file)
    (hread : Readable rounds file.bytes) (hup : s.dirUp = true) (hpos : name ≠ [])
    (hname : Nonzero name) :
    Outcome (serveCall fs rounds uid (.dirLookup dir name))
      (fun _ s' => s'.dirUp = true ∧ fs.files s'.files = fs.files s.files) (fun _ _ => False) s := by
  have hlookup : DirOp.lookup ≠ .unused := by simp
  apply serve_lookup_iff.mpr
  by_cases hlong : dirNameSize < name.length
  · exact .of_ok (dirCall_long hlookup hlong dir fidZero) ⟨hup, rfl⟩
  · have hproper : ProperName name := ⟨List.length_pos_iff.mpr hpos, Nat.not_lt.mp hlong, hname⟩
    have hmapped := outcome_dirCall_mapped hfs uid hlookup hfile hread hproper hup fidZero
    apply (hmapped.both (dirCall_lookup dir name)).mono
    · intro r s' hpost
      obtain ⟨⟨bytes, h⟩, hfiles⟩ := hpost
      exact ⟨h.up, hfiles⟩
    · exact fun _ _ h => h.1

theorem serve_insert (hfs : fs.Dependable) (hfile : fs.files s.files dir = some file)
    (hread : Readable rounds file.bytes) (hup : s.dirUp = true) (hpos : name ≠ [])
    (hname : Nonzero name) (fid : Fid) :
    Outcome (serveCall fs rounds uid (.dirInsert dir name fid))
      (fun (b : Bool) s' => s'.dirUp = true ∧ (b = false ∧ fs.files s'.files = fs.files s.files ∨
        b = true ∧ namesOf file.bytes name = none ∧ ∃ bytes, Rewrites (fs.files s.files) dir file
          (Function.update (namesOf file.bytes) name (some fid)) (fs.files s'.files) bytes))
      (fun _ _ => False) s := by
  have hinsert : DirOp.insert ≠ .unused := by simp
  apply serve_insert_iff.mpr
  by_cases hlong : dirNameSize < name.length
  · exact .of_ok (dirCall_long hinsert hlong dir fid) ⟨hup, .inl ⟨rfl, rfl⟩⟩
  · have hproper : ProperName name := ⟨List.length_pos_iff.mpr hpos, Nat.not_lt.mp hlong, hname⟩
    have hmapped := outcome_dirCall_mapped hfs uid hinsert hfile hread hproper hup fid
    apply (hmapped.both (outcome_dirCall .insert dir name fid)).mono
    · intro r s' hpost
      obtain ⟨⟨bytes, h⟩, hfiles⟩ := hpost
      refine ⟨h.up, ?_⟩
      have hreply := insert_reply uid dir fid name file
      have hr := h.reply
      split at hr
      · rename_i hok
        obtain ⟨hallows, hnone⟩ := hreply.mp hok
        have hgranted : (callMessage uid .insert dir name fid).granted file = true := by
          by_contra hno
          rw [handled_refused (Bool.eq_false_iff.mpr hno)] at hok
          cases hok
        have hanswer : ((callMessage uid .insert dir name fid).handled file).2 =
            Function.update (namesOf file.bytes) name (some fid) := by
          rw [handled_granted hgranted]
          unfold DirMap.answer callMessage
          rw [hnone]
        exact .inr ⟨by rw [hr]; rfl, hnone, bytes, h.files, h.names.trans hanswer, h.wellFormed,
          h.length⟩
      · refine .inl ⟨by rw [hr]; rfl, ?_⟩
        exact hfiles.resolve_right fun hc => hc.2.1 hr
    · exact fun _ _ h => h.1

/-- What a removal leaves. -/
def namesWithout (file : RefFile) (uid : BitVec 32) (name : List Byte) (fid : Fid) : DirMap :=
  if file.allows uid Permission.ownerWrite Permission.otherWrite = true ∧
      (namesOf file.bytes name).map Fid.fileNo = some fid.fileNo then
    Function.update (namesOf file.bytes) name none
  else namesOf file.bytes

theorem remove_names (uid : BitVec 32) (dir fid : Fid) (name : List Byte) (file : RefFile) :
    ((callMessage uid .remove dir name fid).handled file).2 = namesWithout file uid name fid := by
  unfold namesWithout
  rw [← callMessage_granted (.inr rfl)]
  cases hg : (callMessage uid .remove dir name fid).granted file with
  | false =>
    rw [handled_refused hg, if_neg]
    simp
  | true =>
    rw [handled_granted hg]
    unfold DirMap.answer callMessage
    dsimp only
    cases hname : namesOf file.bytes name with
    | none =>
      rw [if_neg]
      simp
    | some f =>
      dsimp only
      by_cases hno : f.fileNo = fid.fileNo
      · rw [if_pos hno, if_pos ⟨rfl, by rw [Option.map_some, hno]⟩]
      · rw [if_neg hno, if_neg]
        exact fun h => hno (Option.some.inj h.2)

/-- The directory server does not find an empty name. -/
theorem outcome_remove_nil (hfs : fs.Dependable) (hfile : fs.files s.files dir = some file)
    (hread : Readable rounds file.bytes) (hup : s.dirUp = true) (fid : Fid) :
    Outcome (dirCall fs rounds uid .remove dir [] fid)
      (fun _ s' => s'.dirUp = true ∧ fs.files s'.files = fs.files s.files) (fun _ _ => False) s := by
  have hI : Replaced fs (fs.files s.files) dir file s.files :=
    (Function.update_eq_self_iff.mpr hfile.symm).symm
  have hserves := hfs.serves (fs.files s.files) dir
  have hproc : Outcome (dirProc (fs.client 0) rounds (dirRequest uid .remove dir [] fid))
      (fun _ w' => Replaced fs (fs.files s.files) dir file w'.files) (fun _ _ => False)
      ⟨s.files, []⟩ := by
    unfold dirRequest
    rw [dirProc_message]
    dsimp only
    unfold dirDoRemove
    rw [if_neg (by decide), Outcome.bind_iff]
    apply (outcome_allowed hserves (w := ⟨s.files, []⟩) hI _ _ _).post
    intro b w₁ hpost
    obtain ⟨_, hI₁, _⟩ := hpost
    cases b with
    | false => exact hI₁
    | true =>
      rw [if_neg (by simp), Outcome.bind_iff]
      apply (outcome_scan hserves (visitRemove fid.fileNo []) hI₁ hread.wellFormed.whole
        (Nat.zero_le _) rfl hread.rounds ()).post
      intro r w₂ hboth
      obtain ⟨hr, hI₂, _⟩ := hboth
      obtain ⟨i, f, hi, -⟩ | ⟨-, hscan⟩ := scanned_remove [] fid.fileNo file.bytes
      · have hfound : namesOf file.bytes [] = some f := Holes.find_eq_some hread.wellFormed.distinct hi
        rw [namesOf_nil] at hfound
        cases hfound
      · rw [hr, hscan]
        exact hI₂
  unfold Outcome dirCall
  rw [if_pos hup]
  cases hrun : dirProc (fs.client 0) rounds (dirRequest uid .remove dir [] fid) ⟨s.files, []⟩ with
  | error e w => exact (hproc.error hrun).elim
  | ok _ w =>
    have hfiles : fs.files w.files = Function.update (fs.files s.files) dir (some file) :=
      hproc.ok hrun
    exact ⟨hup, by rw [hfiles]; exact Function.update_eq_self_iff.mpr hfile.symm⟩

theorem serve_remove (hfs : fs.Dependable) (hfile : fs.files s.files dir = some file)
    (hread : Readable rounds file.bytes) (hup : s.dirUp = true) (hname : Nonzero name) (fid : Fid) :
    Outcome (serveCall fs rounds uid (.dirRemove dir name fid))
      (fun _ s' => s'.dirUp = true ∧ ∃ bytes, Rewrites (fs.files s.files) dir file
        (namesWithout file uid name fid) (fs.files s'.files) bytes) (fun _ _ => False) s := by
  have hremove : DirOp.remove ≠ .unused := by simp
  have hsame (h : namesOf file.bytes name = none) : Rewrites (fs.files s.files) dir file
      (namesWithout file uid name fid) (fs.files s.files) file.bytes := by
    refine ⟨(Function.update_eq_self_iff.mpr hfile.symm).symm, ?_, hread.wellFormed,
      Nat.le_add_right _ _⟩
    unfold namesWithout
    rw [h, if_neg]
    simp
  apply serve_remove_iff.mpr
  by_cases hnil : name = []
  · subst hnil
    apply (outcome_remove_nil hfs hfile hread hup fid).post
    intro _ s' hpost
    obtain ⟨hup', hfiles⟩ := hpost
    rw [hfiles]
    exact ⟨hup', file.bytes, hsame (namesOf_nil _)⟩
  by_cases hlong : dirNameSize < name.length
  · exact .of_ok (dirCall_long hremove hlong dir fid) ⟨hup, file.bytes, hsame (namesOf_long _ hlong)⟩
  · have hproper : ProperName name := ⟨List.length_pos_iff.mpr hnil, Nat.not_lt.mp hlong, hname⟩
    apply (outcome_dirCall_mapped hfs uid hremove hfile hread hproper hup fid).post
    intro r s' hboth
    obtain ⟨bytes, h⟩ := hboth
    exact ⟨h.up, bytes, h.files, h.names.trans (remove_names uid dir fid name file), h.wellFormed,
      h.length⟩

/-! ## Calls to a file server -/

theorem serve_create (server : BitVec 32) (mode : BitVec 16) :
    Outcome (serveCall fs rounds uid (.fileCreate server mode))
      (fun (r : Option (BitVec 32)) s' => s'.dirUp = s.dirUp ∧
        (r = none ∧ fs.files s'.files = fs.files s.files ∨
          ∃ n bytes, r = some n ∧ fs.files s.files ⟨server, n⟩ = none ∧ fs.files s'.files =
            Function.update (fs.files s.files) ⟨server, n⟩ (some ⟨uid, mode, bytes⟩)))
      (fun _ _ => False) s := by
  have hcreate := fs.create_files uid server mode s.files
  refine ⟨rfl, ?_⟩
  change ((fs.client uid).fileCreate server mode s.files).1 = none ∧ fs.files
      ((fs.client uid).fileCreate server mode s.files).2 = _ ∨ _
  cases hc : (fs.client uid).fileCreate server mode s.files with
  | mk r s₁ =>
    rw [hc] at hcreate
    cases r with
    | none => exact .inl ⟨rfl, hcreate⟩
    | some n =>
      obtain ⟨hfree, bytes, hfiles⟩ := hcreate
      exact .inr ⟨n, bytes, rfl, hfree, hfiles⟩

theorem serve_setsize (fid : Fid) (size : Nat) :
    Outcome (serveCall fs rounds uid (.fileSetsize fid size))
      (fun _ s' => s'.dirUp = s.dirUp ∧ (fs.files s'.files = fs.files s.files ∨
        ∃ file file', fs.files s.files fid = some file ∧
          fs.files s'.files = Function.update (fs.files s.files) fid (some file')))
      (fun _ _ => False) s := by
  obtain h | ⟨file, bytes, hfile, h⟩ := fs.setsize_files uid fid size s.files
  · exact ⟨rfl, .inl h⟩
  · exact ⟨rfl, .inr ⟨file, _, hfile, h⟩⟩

theorem serve_delete (hfs : fs.Dependable) (fid : Fid) :
    Outcome (serveCall fs rounds uid (.fileDelete fid))
      (fun _ s' => s'.dirUp = s.dirUp ∧ fs.files s'.files =
        if writable (fs.files s.files) uid fid then Function.update (fs.files s.files) fid none
        else fs.files s.files)
      (fun _ _ => False) s := by
  have hdelete := fs.delete_files uid fid s.files
  refine ⟨rfl, ?_⟩
  change fs.files ((fs.client uid).fileDelete fid s.files).2 = _
  cases hfile : fs.files s.files fid with
  | none =>
    have hsame : Function.update (fs.files s.files) fid none = fs.files s.files :=
      Function.update_eq_self_iff.mpr hfile.symm
    rw [hsame, ite_self]
    cases hc : (fs.client uid).fileDelete fid s.files with
    | mk r s₁ =>
      rw [hc] at hdelete
      cases r with
      | false => exact hdelete
      | true => exact hdelete.trans hsame
  | some file =>
    have hr := hfs.delete uid fid file s.files hfile
    rw [writable_some hfile, ← hr]
    cases hc : (fs.client uid).fileDelete fid s.files with
    | mk r s₁ =>
      rw [hc] at hdelete
      cases r with
      | false => exact hdelete
      | true => exact hdelete

end

end Egos.File
