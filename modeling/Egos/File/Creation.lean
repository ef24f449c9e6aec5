import Egos.File.Dependable

/-!
# Creation that fails

`fopen` and `dir_create2` create the file first and its name second. Nothing deletes the file when the
name is refused: `Refused` is the only way in which a call that fails leaves something behind.
-/
namespace Egos.File

open Egos.Lib Egos.Disk Egos.Dirsvr
open Reference (RefFile)

set_option autoImplicit false

/-- If the program fails, no file has been created, deleted or changed. -/
def Clean {φ α : Type} (fs : FileService φ) (rounds : Nat) (uid : BitVec 32) (failed : α → Prop)
    (program : ClientM α) (s : Servers φ) : Prop :=
  Outcome (program.run (serveCall fs rounds uid))
    (fun r s' => failed r → fs.files s'.files = fs.files s.files) (fun _ _ => True) s

/-- The directory server refuses to insert the file, or has died. -/
def Refused {φ : Type} (fs : FileService φ) (rounds : Nat) (uid : BitVec 32) (dir : Fid)
    (name : List Byte) (fid : Fid) (s : Servers φ) : Prop :=
  ∃ s', dirCall fs rounds uid .insert dir name fid s = .ok none s'

/-- The path leads to a directory without this name, the file is created, and then refused. -/
def FopenSpoils {φ : Type} (fs : FileService φ) (rounds : Nat) (uid : BitVec 32) (env : GrassEnv)
    (path mode : List Byte) (s : Servers φ) : Prop :=
  (∃ truncate, openMode mode = some (true, truncate)) ∧ ∃ dir s₁ n s₂,
    (flookup env path false).run (serveCall fs rounds uid) s = .ok (.missing dir) s₁ ∧
      dir.server ≠ 0 ∧ ¬(slash ∈ path ∧ lastComponent path = []) ∧
      (fs.client uid).fileCreate dir.server fileDefault s₁.files = (some n, s₂) ∧
      Refused fs rounds uid dir (lastComponent path) ⟨dir.server, n⟩ { s₁ with files := s₂ }

/-- The file is created, and then the first entries cannot be written or the directory is refused. -/
def DirCreateSpoils {φ : Type} (fs : FileService φ) (rounds : Nat) (uid : BitVec 32)
    (stack : Buffer) (filesvr : BitVec 32) (mode : BitVec 16) (dir : Fid) (name : List Byte)
    (s : Servers φ) : Prop :=
  ∃ n s₁, (fs.client uid).fileCreate filesvr mode s.files = (some n, s₁) ∧
    let write := (fs.client uid).fileWrite ⟨filesvr, n⟩ 0
      ((List.range (2 * dirEntrySize)).map (newEntries stack ⟨filesvr, n⟩ dir)) s₁
    (write.1 = false ∨
      write.1 = true ∧ Refused fs rounds uid dir name ⟨filesvr, n⟩ { s with files := write.2 })

/-! ## What the directory server does to the files -/

section

variable {φ : Type} {fs : FileService φ} {w : DirWorld φ} {rounds : Nat}

/-- The same files, and no reply since. -/
def Untouched (fs : FileService φ) (w w' : DirWorld φ) : Prop :=
  fs.files w'.files = fs.files w.files ∧ w'.outbox = w.outbox

/-- The loops over the entries of a directory only read, and what they find lies where an entry can
begin. -/
theorem outcome_scan_untouched {α β : Type} {dir : Fid} {visit : Nat → DirEntry → α → Except β α}
    (P : α → Prop) (R : β → Prop)
    (hvisit : ∀ offset de acc, offset % dirEntrySize = 0 → P acc →
      (∀ acc', visit offset de acc = .ok acc' → P acc') ∧ ∀ r, visit offset de acc = .error r → R r)
    {offset : Nat} {acc : α} (haligned : offset % dirEntrySize = 0) (hacc : P acc) :
    Outcome (scan (fs.client 0) dir visit rounds offset acc)
      (fun r w' => Untouched fs w w' ∧ (∀ b, r = .found b → R b) ∧
        ∀ acc' offset', r = .finished acc' offset' → offset' % dirEntrySize = 0 ∧ P acc')
      (fun _ w' => fs.files w'.files = fs.files w.files) w := by
  have hentries (l : List DirEntry) {offset : Nat} {acc : α} (haligned : offset % dirEntrySize = 0)
      (hacc : P acc) : (∀ acc', scanEntries visit l offset acc = .ok acc' → P acc') ∧
        ∀ r, scanEntries visit l offset acc = .error r → R r := by
    induction l generalizing offset acc with
    | nil => exact ⟨fun acc' h => Except.ok.inj h ▸ hacc, (by intro _ h; cases h)⟩
    | cons de rest ih =>
      obtain ⟨hok, herror⟩ := hvisit offset de acc haligned hacc
      rw [scanEntries]
      cases hv : visit offset de acc with
      | error r => exact ⟨by simp, fun r' h => Except.error.inj h ▸ herror r hv⟩
      | ok acc' => exact ih (by unfold dirEntrySize at *; omega) (hok acc' hv)
  induction rounds generalizing offset acc w with
  | zero => exact rfl
  | succ rounds ih =>
    have hread := fs.read_files 0 dir offset fileMaxMsgSize w.files
    unfold scan
    rw [Outcome.bind_iff, outcome_onFiles]
    generalize (fs.client 0).fileRead dir offset fileMaxMsgSize w.files = result at hread ⊢
    obtain ⟨page, s⟩ := result
    cases page with
    | none => exact ⟨⟨hread, rfl⟩, by simp, by simp⟩
    | some page =>
      dsimp only
      split
      · refine ⟨⟨hread, rfl⟩, by simp, fun acc' offset' h => ?_⟩
        cases h
        exact ⟨haligned, hacc⟩
      · split
        · exact hread
        · rename_i hwhole
          obtain ⟨hok, herror⟩ := hentries (entriesOf page) haligned hacc
          cases hscan : scanEntries visit (entriesOf page) offset acc with
          | error r =>
            refine ⟨⟨hread, rfl⟩, fun b h => ?_, by simp⟩
            cases h
            exact herror r hscan
          | ok acc' =>
            have hnext : (offset + page.length) % dirEntrySize = 0 := by
              unfold dirEntrySize at *
              omega
            refine (ih (w := { w with files := s }) hnext (hok acc' hscan)).mono
              (fun r w' hrest => ⟨⟨hrest.1.1.trans hread, hrest.1.2⟩, hrest.2⟩)
              (fun _ w' hfiles => hfiles.trans hread)

theorem outcome_allowed_untouched (dir : Fid) (uid : BitVec 32) (owner other : BitVec 16) :
    Outcome (allowed (fs.client 0) dir uid owner other) (fun _ w' => Untouched fs w w')
      (fun _ w' => fs.files w'.files = fs.files w.files) w := by
  unfold allowed
  split
  · exact ⟨rfl, rfl⟩
  · have hstat := fs.stat_files 0 dir w.files
    rw [Outcome.bind_iff, outcome_onFiles]
    generalize (fs.client 0).fileStat dir w.files = result at hstat ⊢
    obtain ⟨stat, s⟩ := result
    cases stat with
    | none => exact ⟨hstat, rfl⟩
    | some stat => exact ⟨hstat, rfl⟩

/-- Some other bytes in an allocated file. -/
def Rewritten (fid : Fid) (files files' : FileTable) : Prop :=
  ∃ file bytes, files fid = some file ∧
    files' = Function.update files fid (some { file with bytes := bytes })

/-- One reply; if it is not an error, an entry of the directory may have been written. -/
structure Responded (fs : FileService φ) (dir : Fid) (src : Nat) (w w' : DirWorld φ)
    (rep : DirReply) : Prop where
  outbox : w'.outbox = w.outbox ++ [(src, rep)]
  files : fs.files w'.files = fs.files w.files ∨
    rep.status = .ok ∧ Rewritten dir (fs.files w.files) (fs.files w'.files)

theorem Untouched.responded {w' : DirWorld φ} (h : Untouched fs w w') (dir : Fid) (src : Nat)
    (rep : DirReply) :
    Responded fs dir src w { w' with outbox := w'.outbox ++ [(src, rep)] } rep :=
  ⟨congrArg (· ++ _) h.2, .inl h.1⟩

theorem Untouched.trans {w' w'' : DirWorld φ} (h : Untouched fs w w') (h' : Untouched fs w' w'') :
    Untouched fs w w'' := ⟨h'.1.trans h.1, h'.2.trans h.2⟩

theorem outcome_write_entry {w' : DirWorld φ} (h : Untouched fs w w') (dir fid : Fid) (src : Nat)
    {offset : Nat} {de : DirEntry} (haligned : offset % dirEntrySize = 0)
    (hde : de.name.length = dirNameSize) :
    Outcome (do
        let wstatus ← onFiles ((fs.client 0).fileWrite dir offset de.bytes)
        dirRespond src (if wstatus then .ok else .error) fid)
      (fun _ w'' => ∃ rep, Responded fs dir src w w'' rep)
      (fun _ w'' => fs.files w''.files = fs.files w.files) w' := by
  have hfailed := fs.write_failed 0 dir offset de.bytes w'.files (by
    rw [de.length_bytes hde]
    unfold dirEntrySize blockSize at *
    omega)
  have hwritten := fs.write_files 0 dir offset de.bytes w'.files
  rw [Outcome.bind_iff, outcome_onFiles]
  generalize (fs.client 0).fileWrite dir offset de.bytes w'.files = result at hfailed hwritten ⊢
  obtain ⟨ok, s⟩ := result
  cases ok with
  | false => exact ⟨_, congrArg (· ++ _) h.2, .inl ((hfailed rfl).trans h.1)⟩
  | true =>
    obtain ⟨file, bytes, hfile, hfiles, -⟩ := hwritten rfl
    rw [h.1] at hfile hfiles
    exact ⟨_, congrArg (· ++ _) h.2, .inr ⟨rfl, file, bytes, hfile, hfiles⟩⟩

theorem lookup_untouched (req : DirRequest) (src : Nat) (uid : BitVec 32) (name : List Byte) :
    Outcome (dirDoLookup (fs.client 0) rounds req src uid name)
      (fun _ w' => fs.files w'.files = fs.files w.files ∧ ∃ rep, w'.outbox = w.outbox ++ [(src, rep)])
      (fun _ w' => fs.files w'.files = fs.files w.files) w := by
  unfold dirDoLookup
  split
  · exact ⟨rfl, _, rfl⟩
  · rw [Outcome.bind_iff]
    refine (outcome_allowed_untouched _ _ _ _).post fun b w₁ h₁ => ?_
    split
    · exact ⟨h₁.1, _, congrArg (· ++ _) h₁.2⟩
    · rw [Outcome.bind_iff]
      refine (outcome_scan_untouched (fun _ => True) (fun _ => True)
        (fun _ _ _ _ _ => ⟨fun _ _ => trivial, fun _ _ => trivial⟩) rfl trivial).mono
        (fun r w₂ h₂ => ?_) (fun _ w₂ hfiles => hfiles.trans h₁.1)
      have h := h₁.trans h₂.1
      cases r with
      | found fid => exact ⟨h.1, _, congrArg (· ++ _) h.2⟩
      | finished acc offset => exact ⟨h.1, _, congrArg (· ++ _) h.2⟩
      | failed => exact ⟨h.1, _, congrArg (· ++ _) h.2⟩

theorem insert_responded (req : DirRequest) (src : Nat) (uid : BitVec 32) (name : List Byte) :
    Outcome (dirDoInsert (fs.client 0) rounds req src uid name)
      (fun _ w' => ∃ rep, Responded fs req.dir src w w' rep)
      (fun _ w' => fs.files w'.files = fs.files w.files) w := by
  unfold dirDoInsert
  split
  · exact ⟨_, Untouched.responded ⟨rfl, rfl⟩ _ _ _⟩
  · rw [Outcome.bind_iff]
    refine (outcome_allowed_untouched _ _ _ _).post fun b w₁ h₁ => ?_
    split
    · exact ⟨_, h₁.responded _ _ _⟩
    · rw [Outcome.bind_iff]
      -- the accumulator is the offset of an entry
      refine (outcome_scan_untouched (fun free => ∀ offset, free = some offset →
        offset % dirEntrySize = 0) (fun _ => True) ?_ rfl ?_).mono
        (fun r w₂ h₂ => ?_) (fun _ w₂ hfiles => hfiles.trans h₁.1)
      · intro offset de free haligned hfree
        refine ⟨fun free' h => ?_, fun _ _ => trivial⟩
        unfold visitInsert at h
        split at h
        · obtain rfl := Except.ok.inj h
          cases free with
          | none =>
            intro offset' heq
            obtain rfl := Option.some.inj heq
            exact haligned
          | some offset' => exact hfree
        · split at h
          · cases h
          · obtain rfl := Except.ok.inj h
            exact hfree
      · exact fun _ => by simp
      · obtain ⟨h₂, -, hfinished⟩ := h₂
        have h := h₁.trans h₂
        cases r with
        | found _ => exact ⟨_, h.responded _ _ _⟩
        | failed => exact ⟨_, h.responded _ _ _⟩
        | finished free offset =>
          obtain ⟨hoffset, hfree⟩ := hfinished free offset rfl
          apply outcome_write_entry h
          · cases free with
            | none => exact hoffset
            | some offset' => exact hfree offset' rfl
          · exact newEntry_length _

theorem remove_responded (req : DirRequest) (src : Nat) (uid : BitVec 32) (name : List Byte) :
    Outcome (dirDoRemove (fs.client 0) rounds req src uid name)
      (fun _ w' => ∃ rep, Responded fs req.dir src w w' rep)
      (fun _ w' => fs.files w'.files = fs.files w.files) w := by
  unfold dirDoRemove
  split
  · exact ⟨_, Untouched.responded ⟨rfl, rfl⟩ _ _ _⟩
  · rw [Outcome.bind_iff]
    refine (outcome_allowed_untouched _ _ _ _).post fun b w₁ h₁ => ?_
    split
    · exact ⟨_, h₁.responded _ _ _⟩
    · rw [Outcome.bind_iff]
      refine (outcome_scan_untouched (fun _ => True) (fun offset => offset % dirEntrySize = 0) ?_ rfl
        trivial).mono (fun r w₂ h₂ => ?_) (fun _ w₂ hfiles => hfiles.trans h₁.1)
      · intro offset de _ haligned _
        refine ⟨fun _ _ => trivial, fun r h => ?_⟩
        unfold visitRemove at h
        split at h
        · exact Except.error.inj h ▸ haligned
        · cases h
      · obtain ⟨h₂, hfound, -⟩ := h₂
        have h := h₁.trans h₂
        cases r with
        | found offset => exact outcome_write_entry h _ _ _ (hfound offset rfl) rfl
        | finished acc offset => exact ⟨_, h.responded _ _ _⟩
        | failed => exact ⟨_, h.responded _ _ _⟩

end

/-! ## Calls -/

section

variable {φ : Type} {fs : FileService φ} {rounds : Nat} {uid : BitVec 32} {s : Servers φ}

/-- Whatever a call to the directory server ends with, an error means that no file has changed, and
a lookup changes none. -/
theorem outcome_dirCall (type : DirOp) (dir : Fid) (name : List Byte) (fid : Fid) :
    Outcome (dirCall fs rounds uid type dir name fid)
      (fun r s' => fs.files s'.files = fs.files s.files ∨
        type ≠ .lookup ∧ r ≠ none ∧ Rewritten dir (fs.files s.files) (fs.files s'.files))
      (fun _ s' => fs.files s'.files = fs.files s.files) s := by
  have hproc : Outcome (dirProc (fs.client 0) rounds (dirRequest uid type dir name fid))
      (fun _ w' => fs.files w'.files = fs.files s.files ∨
        type ≠ .lookup ∧ replied w'.outbox ≠ none ∧
          Rewritten dir (fs.files s.files) (fs.files w'.files))
      (fun _ w' => fs.files w'.files = fs.files s.files) ⟨s.files, []⟩ := by
    unfold dirRequest
    rw [dirProc_message]
    dsimp only
    have hresponded {w' : DirWorld φ} {rep : DirReply}
        (h : Responded fs dir 0 (⟨s.files, []⟩ : DirWorld φ) w' rep) :
        fs.files w'.files = fs.files s.files ∨ replied w'.outbox ≠ none ∧
          Rewritten dir (fs.files s.files) (fs.files w'.files) := by
      rcases h.files with hfiles | ⟨hok, hrewritten⟩
      · exact .inl hfiles
      · refine .inr ⟨?_, hrewritten⟩
        rw [h.outbox]
        unfold replied
        rw [List.nil_append]
        dsimp only
        rw [if_pos hok]
        simp
    cases type with
    | lookup => exact (lookup_untouched _ _ _ _).post fun _ w' h => .inl h.1
    | insert =>
      refine (insert_responded _ _ _ _).post fun _ w' hpost => ?_
      obtain ⟨rep, h⟩ := hpost
      exact (hresponded h).imp_right fun h => ⟨by simp, h⟩
    | remove =>
      refine (remove_responded _ _ _ _).post fun _ w' hboth => ?_
      obtain ⟨rep, h⟩ := hboth
      exact (hresponded h).imp_right fun h => ⟨by simp, h⟩
    | unused => exact rfl
  unfold Outcome dirCall
  cases s.dirUp with
  | false => exact .inl rfl
  | true =>
    rw [if_pos rfl]
    cases hrun : dirProc (fs.client 0) rounds (dirRequest uid type dir name fid) ⟨s.files, []⟩ with
    | ok _ w => exact hproc.ok hrun
    | error e w =>
      have hfiles := hproc.error hrun
      cases e with
      | assert => exact .inl hfiles
      | undefined => exact hfiles
      | diverge => exact hfiles
      | panic msg => exact hfiles

theorem dirCall_lookup (dir : Fid) (name : List Byte) :
    Outcome (dirCall fs rounds uid .lookup dir name fidZero)
      (fun _ s' => fs.files s'.files = fs.files s.files) (fun _ _ => True) s := by
  refine (outcome_dirCall .lookup dir name fidZero).mono (fun r s' h => ?_) (fun _ _ _ => trivial)
  exact h.resolve_right fun h => h.1 rfl

theorem Refused.files {dir fid : Fid} {name : List Byte} {s' : Servers φ}
    (h : dirCall fs rounds uid .insert dir name fid s = .ok none s') :
    fs.files s'.files = fs.files s.files :=
  ((outcome_dirCall .insert dir name fid).ok h).resolve_right fun h => h.2.1 rfl

theorem outcome_walk (isDir : Bool) (path component : List Byte) (dir : Fid) :
    Outcome ((walk isDir path component dir).run (serveCall fs rounds uid))
      (fun _ s' => fs.files s'.files = fs.files s.files) (fun _ _ => True) s := by
  induction path generalizing component dir s with
  | nil =>
    unfold walk
    split
    · exact rfl
    · rw [Calls.outcome_run_bind, outcome_dirLookup]
      refine (dirCall_lookup dir _).post fun r s' h => ?_
      cases r with
      | none => exact h
      | some fid => exact h
  | cons c path ih =>
    unfold walk
    split
    · rw [Calls.outcome_run_bind, outcome_dirLookup]
      refine (dirCall_lookup dir _).post fun r s' h => ?_
      cases r with
      | none => exact h
      | some fid => exact (ih [] fid).post fun _ s'' h' => h'.trans h
    · exact ih _ _

theorem outcome_flookup (env : GrassEnv) (path : List Byte) (isDir : Bool) :
    Outcome ((flookup env path isDir).run (serveCall fs rounds uid))
      (fun _ s' => fs.files s'.files = fs.files s.files) (fun _ _ => True) s := by
  unfold flookup
  split
  · exact outcome_walk _ _ _ _
  · exact outcome_walk _ _ _ _

/-! ## `fopen` -/

theorem opened_some (fid : Fid) (truncate : Bool) :
    Outcome ((opened fid truncate).run (serveCall fs rounds uid)) (fun r _ => ¬r = none)
      (fun _ _ => True) s := by
  unfold opened
  cases truncate with
  | false => simp
  | true =>
    rw [if_pos rfl, Calls.outcome_run_bind, outcome_fileSetsize]
    simp

/-- An insert as the last step that can fail, when something has changed already. -/
theorem insert_last_iff {α : Type} (failed : α → Prop) {files : FileTable} {m : ClientM α} {bad : α}
    (hbad : failed bad) (hm : ∀ s', Outcome (m.run (serveCall fs rounds uid)) (fun r _ => ¬failed r)
      (fun _ _ => True) s') (hne : fs.files s.files ≠ files) (dir : Fid) (name : List Byte)
    (fid : Fid) :
    Outcome (Calls.run (serveCall fs rounds uid) (do
        if ← dirInsert dir name fid then m
        else pure bad))
      (fun r s' => failed r → fs.files s'.files = files) (fun _ _ => True) s ↔
        ¬Refused fs rounds uid dir name fid s := by
  unfold Refused
  rw [Calls.outcome_run_bind, outcome_dirInsert]
  cases hinsert : dirCall fs rounds uid .insert dir name fid s with
  | error e s₁ =>
    refine iff_of_true ?_ (by simp)
    unfold Outcome
    rw [hinsert]
    trivial
  | ok r s₁ =>
    cases r with
    | none =>
      refine iff_of_false (fun h => ?_) (not_not.mpr ⟨s₁, rfl⟩)
      exact hne ((Refused.files hinsert).symm.trans (h.ok hinsert hbad))
    | some fid =>
      refine iff_of_true (Outcome.of_ok hinsert ?_) ?_
      · exact (hm s₁).post fun r _ hr hfailed => absurd hfailed hr
      · rintro ⟨s', heq⟩
        cases heq

theorem created_some {server n : BitVec 32} {mode : BitVec 16} {s₁ : φ}
    (h : (fs.client uid).fileCreate server mode s.files = (some n, s₁)) :
    fs.files s.files ⟨server, n⟩ = none ∧ ∃ file, fs.files s₁ ⟨server, n⟩ = some file := by
  have hcreate := fs.create_files uid server mode s.files
  rw [h] at hcreate
  obtain ⟨hfree, bytes, hfiles⟩ := hcreate
  exact ⟨hfree, _, by rw [hfiles, Function.update_self]⟩

theorem created_ne {files files' : FileTable} {fid : Fid} (h : files fid = none)
    (h' : ∃ file, files' fid = some file) : files' ≠ files := by
  obtain ⟨file, hfile⟩ := h'
  intro heq
  rw [heq, h] at hfile
  cases hfile

theorem created_none {server : BitVec 32} {mode : BitVec 16} {s₁ : φ}
    (h : (fs.client uid).fileCreate server mode s.files = (none, s₁)) :
    fs.files s₁ = fs.files s.files := by
  have hcreate := fs.create_files uid server mode s.files
  rw [h] at hcreate
  exact hcreate

theorem createIn_clean_iff (dir : Fid) (path : List Byte) (truncate : Bool) :
    Clean fs rounds uid (· = none) (createIn dir path truncate) s ↔
      ¬∃ n s₂, (fs.client uid).fileCreate dir.server fileDefault s.files = (some n, s₂) ∧
        Refused fs rounds uid dir (lastComponent path) ⟨dir.server, n⟩ { s with files := s₂ } := by
  unfold Clean createIn
  rw [Calls.outcome_run_bind, outcome_fileCreate]
  cases hcreate : (fs.client uid).fileCreate dir.server fileDefault s.files with
  | mk created s₁ =>
    cases created with
    | none =>
      refine iff_of_true (fun _ => created_none hcreate) ?_
      rintro ⟨n, s₂, heq, -⟩
      cases heq
    | some n =>
      obtain ⟨hfree, hnew⟩ := created_some hcreate
      refine (insert_last_iff (s := { s with files := s₁ }) (· = none) rfl
        (fun s' => opened_some _ truncate) (created_ne hfree hnew) dir (lastComponent path)
        ⟨dir.server, n⟩).trans (not_congr ?_)
      constructor
      · intro hrefused
        exact ⟨n, s₁, rfl, hrefused⟩
      · rintro ⟨n', s₂, heq, hrefused⟩
        cases heq
        exact hrefused

theorem clean_bind_iff {α β : Type} {failed : β → Prop} {m : ClientM α} (f : α → ClientM β)
    (hm : Outcome (m.run (serveCall fs rounds uid)) (fun _ s' => fs.files s'.files = fs.files s.files)
      (fun _ _ => True) s) :
    Clean fs rounds uid failed (m >>= f) s ↔
      ∀ a s₁, m.run (serveCall fs rounds uid) s = .ok a s₁ → Clean fs rounds uid failed (f a) s₁ := by
  unfold Clean
  rw [Calls.outcome_run_bind]
  cases hrun : m.run (serveCall fs rounds uid) s with
  | error e s₁ =>
    refine iff_of_true ?_ (by simp)
    unfold Outcome
    rw [hrun]
    trivial
  | ok a s₁ =>
    have hfiles := hm.ok hrun
    constructor
    · intro h a' s₁' heq
      cases heq
      rw [hfiles]
      exact h.ok hrun
    · intro h
      refine Outcome.of_ok hrun ?_
      rw [← hfiles]
      exact h a s₁ rfl

theorem openFound_clean_iff (path : List Byte) (create truncate : Bool) (found : Found) :
    Clean fs rounds uid (· = none) (openFound path create truncate found) s ↔
      ¬(create = true ∧ ∃ dir n s₂, found = .missing dir ∧ dir.server ≠ 0 ∧
        ¬(slash ∈ path ∧ lastComponent path = []) ∧
        (fs.client uid).fileCreate dir.server fileDefault s.files = (some n, s₂) ∧
        Refused fs rounds uid dir (lastComponent path) ⟨dir.server, n⟩ { s with files := s₂ }) := by
  have hnone : Clean fs rounds uid (· = none) (pure none : ClientM (Option Fid)) s := fun _ => rfl
  cases found with
  | file dir fid =>
    refine iff_of_true ((opened_some _ _).post fun r _ hr hnone => absurd hnone hr) ?_
    rintro ⟨-, dir', n, s₂, heq, -⟩
    cases heq
  | lost =>
    refine iff_of_true hnone ?_
    rintro ⟨-, dir', n, s₂, heq, -⟩
    cases heq
  | missing dir =>
    rw [openFound]
    split
    · rename_i hearly
      refine iff_of_true hnone ?_
      rintro ⟨hcreate, dir', n, s₂, heq, hserver, -⟩
      cases heq
      simp [hcreate] at hearly
      exact hserver hearly
    · split
      · rename_i hslash
        refine iff_of_true hnone ?_
        rintro ⟨-, dir', n, s₂, -, -, hlast, -⟩
        exact hlast hslash
      · rename_i hearly hlast
        have hgo : create = true ∧ dir.server ≠ 0 := by simpa using hearly
        rw [createIn_clean_iff, not_iff_not]
        constructor
        · rintro ⟨n, s₂, hcreated, hrefused⟩
          exact ⟨hgo.1, dir, n, s₂, rfl, hgo.2, hlast, hcreated, hrefused⟩
        · rintro ⟨-, dir', n, s₂, heq, -, -, hcreated, hrefused⟩
          cases heq
          exact ⟨n, s₂, hcreated, hrefused⟩

theorem fopen_clean_iff (env : GrassEnv) (path mode : List Byte) :
    Clean fs rounds uid (· = none) (fopen env path mode) s ↔
      ¬FopenSpoils fs rounds uid env path mode s := by
  unfold fopen FopenSpoils
  cases openMode mode with
  | none =>
    refine iff_of_true (fun _ => rfl) ?_
    rintro ⟨⟨truncate, h⟩, -⟩
    cases h
  | some flags =>
    obtain ⟨create, truncate⟩ := flags
    dsimp only
    rw [clean_bind_iff _ (outcome_flookup env path false)]
    simp only [openFound_clean_iff]
    constructor
    · rintro h ⟨⟨truncate', hmode⟩, dir, s₁, n, s₂, hrun, hserver, hlast, hrest⟩
      cases hmode
      exact h _ s₁ hrun ⟨rfl, dir, n, s₂, rfl, hserver, hlast, hrest⟩
    · rintro h found s₁ hrun ⟨hcreate, dir, n, s₂, hfound, hserver, hlast, hrest⟩
      subst hcreate hfound
      exact h ⟨⟨truncate, rfl⟩, dir, s₁, n, s₂, hrun, hserver, hlast, hrest⟩

/-! ## `dir_create2` -/

theorem dirCreate2_clean_iff (stack : Buffer) (filesvr : BitVec 32) (mode : BitVec 16) (dir : Fid)
    (name : List Byte) :
    Clean fs rounds uid (fun r => ∀ fid, r ≠ .ok fid) (dirCreate2 stack filesvr mode dir name) s ↔
      ¬DirCreateSpoils fs rounds uid stack filesvr mode dir name s := by
  unfold Clean dirCreate2 DirCreateSpoils
  rw [Calls.outcome_run_bind, outcome_fileCreate]
  cases hcreate : (fs.client uid).fileCreate filesvr mode s.files with
  | mk created s₁ =>
    cases created with
    | none =>
      refine iff_of_true (fun _ => created_none hcreate) ?_
      rintro ⟨n, s₂, heq, -⟩
      cases heq
    | some n =>
      obtain ⟨hfree, hnew⟩ := created_some hcreate
      dsimp only
      rw [Calls.outcome_run_bind, outcome_fileWrite]
      have hlen : ((List.range (2 * dirEntrySize)).map
          (newEntries stack ⟨filesvr, n⟩ dir)).length = 64 := by
        rw [List.length_map, List.length_range]
        rfl
      generalize hde : (List.range (2 * dirEntrySize)).map (newEntries stack ⟨filesvr, n⟩ dir) = de
        at hlen
      have hfailed := fs.write_failed uid ⟨filesvr, n⟩ 0 de s₁ (by rw [hlen]; rfl)
      have hwritten := fs.write_files uid ⟨filesvr, n⟩ 0 de s₁
      cases hwrite : (fs.client uid).fileWrite ⟨filesvr, n⟩ 0 de s₁ with
      | mk ok s₂ =>
        rw [hwrite] at hfailed hwritten
        cases ok with
        | false =>
          refine iff_of_false (fun h => ?_) (not_not.mpr ⟨n, s₁, rfl, .inl ?_⟩)
          · have hsame := h (by simp)
            exact created_ne hfree hnew ((hfailed rfl).symm.trans hsame)
          · rw [hde, hwrite]
        | true =>
          have hstill : ∃ file, fs.files s₂ ⟨filesvr, n⟩ = some file := by
            obtain ⟨file, bytes, -, hfiles, -⟩ := hwritten rfl
            exact ⟨_, by rw [hfiles, Function.update_self]⟩
          have hfailed : ∀ fid, Created.failed ≠ .ok fid := fun _ => by simp
          have hok : ∀ s', Outcome
              ((pure (Created.ok ⟨filesvr, n⟩) : ClientM Created).run (serveCall fs rounds uid))
              (fun r _ => ¬∀ fid, r ≠ .ok fid) (fun _ _ => True) s' :=
            fun s' hne => hne _ rfl
          rw [if_pos rfl]
          apply (insert_last_iff (s := { s with files := s₂ })
            (fun r : Created => ∀ fid, r ≠ .ok fid) hfailed hok (created_ne hfree hstill) dir name
            ⟨filesvr, n⟩).trans
          apply not_congr
          constructor
          · intro hrefused
            refine ⟨n, s₁, rfl, .inr ?_⟩
            rw [hde, hwrite]
            exact ⟨rfl, hrefused⟩
          · rintro ⟨n', s', heq, hspoilt⟩
            cases heq
            rw [hde, hwrite] at hspoilt
            rcases hspoilt with h | h
            · cases h
            · exact h.2

/-! ## Which names are refused -/

theorem insert_reply (uid : BitVec 32) (dir fid : Fid) (name : List Byte) (file : RefFile) :
    ((callMessage uid .insert dir name fid).handled file).1.status = .ok ↔
      file.allows uid Permission.ownerWrite Permission.otherWrite = true ∧
        namesOf file.bytes name = none := by
  rw [← callMessage_granted (.inl rfl)]
  cases hg : (callMessage uid .insert dir name fid).granted file with
  | false =>
    rw [handled_refused hg]
    exact iff_of_false (by simp) (by simp)
  | true =>
    rw [handled_granted hg]
    unfold DirMap.answer callMessage
    cases namesOf file.bytes name with
    | none => exact iff_of_true rfl ⟨rfl, rfl⟩
    | some _ => exact iff_of_false (by simp) (by simp)

/-- Over dependable file servers, the directory server refuses names that are too long or taken, and
users who may not write to the directory. -/
theorem refused_iff (hfs : fs.Dependable) {dir : Fid} {file : RefFile}
    (hfile : fs.files s.files dir = some file) (hread : Readable rounds file.bytes)
    {name : List Byte} (hpos : 0 < name.length) (hnonzero : ∀ b ∈ name, b ≠ 0) (fid : Fid) :
    Refused fs rounds uid dir name fid s ↔
      s.dirUp = false ∨ dirNameSize < name.length ∨
        file.allows uid Permission.ownerWrite Permission.otherWrite = false ∨
        namesOf file.bytes name ≠ none := by
  have hinsert : DirOp.insert ≠ .unused := by simp
  unfold Refused
  cases hup : s.dirUp with
  | false =>
    refine iff_of_true ⟨s, ?_⟩ (.inl rfl)
    unfold dirCall
    rw [hup, if_neg Bool.false_ne_true]
  | true =>
    by_cases hlong : dirNameSize < name.length
    · exact iff_of_true ⟨s, dirCall_long hinsert hlong dir fid⟩ (.inr (.inl hlong))
    · have hname : ProperName name := ⟨hpos, Nat.not_lt.mp hlong, hnonzero⟩
      have hcall := outcome_dirCall_mapped hfs uid hinsert hfile hread hname hup fid
      have hreply := insert_reply uid dir fid name file
      cases hrun : dirCall fs rounds uid .insert dir name fid s with
      | error e s' => exact (hcall.error hrun).elim
      | ok r s' =>
        obtain ⟨bytes, h⟩ := hcall.ok hrun
        have hr : r = none ↔ file.allows uid Permission.ownerWrite Permission.otherWrite = false ∨
            namesOf file.bytes name ≠ none := by
          rw [h.reply, ite_eq_right_iff, hreply, ← Bool.not_eq_true, ← not_and_or]
          exact ⟨fun hno hok => absurd (hno hok) (by simp), fun hno hok => absurd hok hno⟩
        constructor
        · rintro ⟨s₂, heq⟩
          cases heq
          exact .inr (.inr (hr.mp rfl))
        · intro hrefused
          rcases hrefused with hdown | hlen | hrefused
          · cases hdown
          · exact absurd hlen hlong
          · exact ⟨s', by rw [hr.mpr hrefused]⟩

/-- Of every state of the servers, a call of `fopen` or `dir_create2` that fails leaves no trace exactly
if it does not come to a file that is created and then refused. Over dependable file servers, what is
refused can be seen from the name and the directory. -/
theorem failed_creation_clean_iff (env : GrassEnv) (path mode : List Byte) (stack : Buffer)
    (filesvr : BitVec 32) (dirMode : BitVec 16) (dir : Fid) (name : List Byte) :
    (Clean fs rounds uid (· = none) (fopen env path mode) s ↔
      ¬FopenSpoils fs rounds uid env path mode s) ∧
    (Clean fs rounds uid (fun r => ∀ fid, r ≠ .ok fid) (dirCreate2 stack filesvr dirMode dir name) s ↔
      ¬DirCreateSpoils fs rounds uid stack filesvr dirMode dir name s) ∧
    ∀ (dir : Fid) (file : RefFile) (name : List Byte) (fid : Fid) (s : Servers φ), fs.Dependable →
      fs.files s.files dir = some file → Readable rounds file.bytes → 0 < name.length →
      (∀ b ∈ name, b ≠ 0) → (Refused fs rounds uid dir name fid s ↔
        s.dirUp = false ∨ dirNameSize < name.length ∨
          file.allows uid Permission.ownerWrite Permission.otherWrite = false ∨
          namesOf file.bytes name ≠ none) :=
  ⟨fopen_clean_iff env path mode, dirCreate2_clean_iff stack filesvr dirMode dir name,
    fun _ _ _ fid _ hfs hfile hread hpos hnonzero => refused_iff hfs hfile hread hpos hnonzero fid⟩

end

/-- A directory of root, without entries, as the only file. -/
def rootOnly : Servers FileTable :=
  ⟨fun fid => if fid = ⟨1, 1⟩ then some ⟨0, fileDefault, []⟩ else none, true⟩

/-- User 7 must not write to it. -/
theorem failed_creation_clean_iff_root : Refused (volume 4) 1 7 ⟨1, 1⟩ [0x61] ⟨1, 2⟩ rootOnly := by
  refine ((@failed_creation_clean_iff _ (volume 4) 1 7 rootOnly
    ⟨⟨1, 1⟩, ⟨1, 1⟩⟩ [] [] (fun _ => 0) 1 0 ⟨1, 1⟩ []).2.2 ⟨1, 1⟩ ⟨0, fileDefault, []⟩ [0x61] ⟨1, 2⟩
    rootOnly (volume_dependable 4) rfl ⟨⟨rfl, List.nodup_nil⟩, by decide⟩ (by decide)
    (by decide)).mpr ?_
  exact .inr (.inr (.inl (by decide +kernel)))

/-- `fopen("a", "w")` creates file 2 and cannot enter it. -/
theorem refused_file_stays :
    ¬Clean (volume 4) 1 7 (· = none) (fopen ⟨⟨1, 1⟩, ⟨1, 1⟩⟩ [0x61] [0x77]) rootOnly := by
  intro h
  have hrun := eq_ok_of_returned (a := none)
    (r := (fopen ⟨⟨1, 1⟩, ⟨1, 1⟩⟩ [0x61] [0x77]).run (serveCall (volume 4) 1 7) rootOnly)
    (by decide +kernel)
  have hfiles := congrArg Option.isSome (congrFun (h.ok hrun rfl) ⟨1, 2⟩)
  exact absurd hfiles (by decide +kernel)

end Egos.File
