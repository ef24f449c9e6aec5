import Egos.File.Clients

/-!
# Clients that keep the directories tidy

The clients are the processes of a ledger: the entries of the directories are its names, and the files
are its objects. Every call of a careful client is one of the changes that a ledger allows.
-/
namespace Egos.File.Clients

open Egos.Lib Egos.Disk Egos.Dirsvr
open Reference (RefFile)

set_option autoImplicit false

variable {φ : Type} {n : Nat} {fs : FileService φ} {rounds slack : Nat} {users : Fin n → User}
  {directories : List Fid} {files files' : FileTable} {clients clients' : Fin n → Client} {i : Fin n}
  {client : Client} {s s' : Site φ n}

/-! ## The ledger -/

/-- The directories themselves are no objects. -/
def ledger (directories : List Fid) (files : FileTable) (clients : Fin n → Client) :
    Ledger (Fin n) (Fid × List Byte) Fid where
  names entry := if entry.1 ∈ directories then
      (entryOf files entry.1 entry.2).filter fun fid => decide (fid ∉ directories) else none
  alive fid := files fid ≠ none
  doomed i := (clients i).doomed
  fresh i := (clients i).fresh

theorem ledger_names_of_mem {entry : Fid × List Byte} (h : entry.1 ∈ directories) :
    (ledger directories files clients).names entry =
      (entryOf files entry.1 entry.2).filter fun fid => decide (fid ∉ directories) := if_pos h

theorem ledger_names_of_notMem {entry : Fid × List Byte} (h : entry.1 ∉ directories) :
    (ledger directories files clients).names entry = none := if_neg h

theorem ledger_names_iff {entry : Fid × List Byte} {fid : Fid} :
    (ledger directories files clients).names entry = some fid ↔
      entry.1 ∈ directories ∧ entryOf files entry.1 entry.2 = some fid ∧ fid ∉ directories := by
  by_cases hdir : entry.1 ∈ directories
  · rw [ledger_names_of_mem hdir, Option.filter_eq_some_iff, decide_eq_true_eq]
    exact (and_iff_right hdir).symm
  · rw [ledger_names_of_notMem hdir]
    constructor
    · intro h
      cases h
    · exact fun h => absurd h.1 hdir

theorem ledger_names_congr
    (h : ∀ dir ∈ directories, ∀ name, entryOf files' dir name = entryOf files dir name) :
    (ledger directories files' clients').names = (ledger directories files clients).names := by
  funext entry
  by_cases hdir : entry.1 ∈ directories
  · rw [ledger_names_of_mem hdir, ledger_names_of_mem hdir, h _ hdir]
  · rw [ledger_names_of_notMem hdir, ledger_names_of_notMem hdir]

theorem ledger_names_update {dir : Fid} {name : List Byte} {o : Option Fid} (hdir : dir ∈ directories)
    (h : ∀ d x, entryOf files' d x = if d = dir ∧ x = name then o else entryOf files d x)
    (ho : ∀ fid, o = some fid → fid ∉ directories) :
    (ledger directories files' clients').names =
      Function.update (ledger directories files clients).names (dir, name) o := by
  funext entry
  by_cases he : entry = (dir, name)
  · rw [he, Function.update_self, ledger_names_of_mem hdir, h, if_pos ⟨rfl, rfl⟩]
    cases o with
    | none => rfl
    | some fid => exact Option.filter_some_pos (decide_eq_true (ho fid rfl))
  · rw [Function.update_of_ne he]
    have hentry : entryOf files' entry.1 entry.2 = entryOf files entry.1 entry.2 := by
      rw [h, if_neg]
      intro hc
      exact he (Prod.ext hc.1 hc.2)
    by_cases hmem : entry.1 ∈ directories
    · rw [ledger_names_of_mem hmem, ledger_names_of_mem hmem, hentry]
    · rw [ledger_names_of_notMem hmem, ledger_names_of_notMem hmem]

theorem ledger_doomed_update (files : FileTable) :
    (ledger directories files' (Function.update clients i client)).doomed =
      Function.update (ledger directories files clients).doomed i client.doomed :=
  Function.comp_update Client.doomed clients i client

theorem ledger_fresh_update (files : FileTable) :
    (ledger directories files' (Function.update clients i client)).fresh =
      Function.update (ledger directories files clients).fresh i client.fresh :=
  Function.comp_update Client.fresh clients i client

theorem ledger_doomed_congr (files : FileTable) (h : client.doomed = (clients i).doomed) :
    (ledger directories files' (Function.update clients i client)).doomed =
      (ledger directories files clients).doomed := by
  rw [ledger_doomed_update files, h]
  exact Function.update_eq_self i (ledger directories files clients).doomed

theorem ledger_fresh_congr (files : FileTable) (h : client.fresh = (clients i).fresh) :
    (ledger directories files' (Function.update clients i client)).fresh =
      (ledger directories files clients).fresh := by
  rw [ledger_fresh_update files, h]
  exact Function.update_eq_self i (ledger directories files clients).fresh

/-- The client has done nothing that matters, or it has dropped the file that it had created. -/
theorem ledger_congr (h : (ledger directories files clients).Sound)
    (hentries : ∀ dir ∈ directories, ∀ name, entryOf files' dir name = entryOf files dir name)
    (halive : ∀ fid, files fid ≠ none → files' fid ≠ none)
    (hdoomed : client.doomed = (clients i).doomed)
    (hfresh : client.fresh = none ∨ client.fresh = (clients i).fresh) :
    (ledger directories files' (Function.update clients i client)).Sound := by
  apply h.congr (ledger_names_congr hentries) halive (ledger_doomed_congr _ hdoomed)
  intro j fid hj
  obtain hnone | hsame := hfresh
  · rw [ledger_fresh_update files, hnone] at hj
    exact (of_update_none hj).2
  · rw [ledger_fresh_congr files hsame] at hj
    exact hj

theorem doomed_undeleted (m : ClientM Bool) (unlinked : Bool) :
    (Client.removing m false unlinked).doomed = none := by
  cases m with
  | done _ => rfl
  | call c _ => cases c <;> rfl

theorem fresh_of_opening {m : ClientM (Option Fid)} (h : Opening m) :
    (Client.opening m).fresh = none := by
  cases h <;> rfl

/-! ## The directories -/

/-- All directories are still there, and each has at most one entry more. -/
structure Keeps (directories : List Fid) (files files' : FileTable) : Prop where
  grown : ∀ dir ∈ directories, ∀ file, files dir = some file → WellFormed file.bytes →
    ∃ file', files' dir = some file' ∧ WellFormed file'.bytes ∧
      file'.bytes.length ≤ file.bytes.length + dirEntrySize
  writable : ∀ dir ∈ directories, ∀ uid, writable files' uid dir = writable files uid dir

theorem keeps_same (h : files' = files) : Keeps directories files files' := by
  rw [h]
  exact ⟨fun _ _ file hfile hwf => ⟨file, hfile, hwf, Nat.le_add_right _ _⟩, fun _ _ _ => rfl⟩

theorem keeps_update {fid : Fid} {x : Option RefFile} (hfid : fid ∉ directories)
    (h : files' = Function.update files fid x) : Keeps directories files files' := by
  have hget {dir : Fid} (hdir : dir ∈ directories) : files' dir = files dir := by
    rw [h, Function.update_of_ne]
    rintro rfl
    exact hfid hdir
  constructor
  · intro dir hdir file hfile hwf
    exact ⟨file, (hget hdir).trans hfile, hwf, Nat.le_add_right _ _⟩
  · exact fun dir hdir uid => writable_congr (hget hdir) uid

theorem entryOf_of_update {fid : Fid} {x : Option RefFile} (hfid : fid ∉ directories)
    (h : files' = Function.update files fid x) {dir : Fid} (hdir : dir ∈ directories)
    (name : List Byte) : entryOf files' dir name = entryOf files dir name := by
  rw [h]
  apply entryOf_update_of_ne
  rintro rfl
  exact hfid hdir

theorem keeps_rewrites {dir : Fid} {file : RefFile} {names : DirMap} {bytes : List Byte}
    (hfile : files dir = some file) (h : Rewrites files dir file names files' bytes) :
    Keeps directories files files' := by
  constructor
  · intro d _ f hf hwf
    by_cases hd : d = dir
    · rw [hd, hfile] at hf
      cases hf
      exact ⟨_, hd ▸ h.get_self, h.wellFormed, h.length⟩
    · exact ⟨f, (h.get_of_ne hd).trans hf, hwf, Nat.le_add_right _ _⟩
  · exact fun d _ uid => h.writable_eq hfile uid d

theorem Removing.keeps {uid : BitVec 32} {m : ClientM Bool} {deleted unlinked : Bool}
    (h : Removing directories files uid m deleted unlinked) (hk : Keeps directories files files') :
    Removing directories files' uid m deleted unlinked :=
  h.mono fun dir hdir hw => (hk.writable dir hdir uid).trans hw

theorem Phase.keeps {uid : BitVec 32} (h : Phase directories files uid client)
    (hk : Keeps directories files files') : Phase directories files' uid client := by
  cases h with
  | idle => exact .idle
  | removing h => exact .removing (h.keeps hk)
  | opening h => exact .opening h
  | inserting hserver hplain hpos hname => exact .inserting hserver hplain hpos hname

/-! ## The invariant -/

/-- There is room for `slack` entries more in every directory. -/
structure Orderly (fs : FileService φ) (rounds : Nat) (users : Fin n → User) (directories : List Fid)
    (slack : Nat) (s : Site φ n) : Prop where
  up : s.servers.dirUp = true
  readable : ∀ dir ∈ directories, ∃ file, s.files fs dir = some file ∧ WellFormed file.bytes ∧
    file.bytes.length + dirEntrySize * slack < rounds
  phase : ∀ i, Phase directories (s.files fs) (users i).uid (s.clients i)
  sound : (ledger directories (s.files fs) s.clients).Sound
  removes : ∀ r ∈ s.removes, r.1 = r.2

namespace Orderly

theorem weaken (h : Orderly fs rounds users directories (slack + 1) s) :
    Orderly fs rounds users directories slack s := by
  constructor
  · exact h.up
  · intro dir hdir
    obtain ⟨file, hfile, hwf, hlen⟩ := h.readable dir hdir
    rw [Nat.mul_succ] at hlen
    exact ⟨file, hfile, hwf, by omega⟩
  · exact h.phase
  · exact h.sound
  · exact h.removes

theorem next (h : Orderly fs rounds users directories (slack + 1) s) {servers : Servers φ}
    {removes : List (Bool × Bool)} (hup : servers.dirUp = true)
    (hkeeps : Keeps directories (s.files fs) (fs.files servers.files))
    (hphase : Phase directories (fs.files servers.files) (users i).uid client)
    (hsound : (ledger directories (fs.files servers.files)
      (Function.update s.clients i client)).Sound)
    (hremoves : ∀ r ∈ removes, r.1 = r.2) : Orderly fs rounds users directories slack
      ⟨servers, Function.update s.clients i client, removes⟩ := by
  constructor
  · exact hup
  · intro dir hdir
    obtain ⟨file, hfile, hwf, hlen⟩ := h.readable dir hdir
    obtain ⟨file', hfile', hwf', hlen'⟩ := hkeeps.grown dir hdir file hfile hwf
    rw [Nat.mul_succ] at hlen
    exact ⟨file', hfile', hwf', by omega⟩
  · intro j
    change Phase _ _ _ (Function.update s.clients i client j)
    by_cases hji : j = i
    · rw [hji, Function.update_self]
      exact hphase
    · rw [Function.update_of_ne hji]
      exact (h.phase j).keeps hkeeps
  · exact hsound
  · exact hremoves

/-- The next phase of a client when the files are the same. -/
theorem next_congr (h : Orderly fs rounds users directories (slack + 1) s) {servers : Servers φ}
    {removes : List (Bool × Bool)} (hup : servers.dirUp = true)
    (hfiles : fs.files servers.files = s.files fs)
    (hphase : Phase directories (s.files fs) (users i).uid client)
    (hdoomed : client.doomed = (s.clients i).doomed)
    (hfresh : client.fresh = none ∨ client.fresh = (s.clients i).fresh)
    (hremoves : ∀ r ∈ removes, r.1 = r.2) : Orderly fs rounds users directories slack
      ⟨servers, Function.update s.clients i client, removes⟩ := by
  apply h.next hup (keeps_same hfiles) (hfiles ▸ hphase) _ hremoves
  rw [hfiles]
  exact ledger_congr h.sound (fun _ _ _ => rfl) (fun _ => id) hdoomed hfresh

end Orderly

/-! ## The steps -/

theorem goOn_removing {c : ServerCall} {next : c.Reply → ClientM Bool} {deleted unlinked : Bool}
    (hc : s.clients i = .removing (.call c next) deleted unlinked) {Q : Unit → Site φ n → Prop}
    {E : Stop → Site φ n → Prop} :
    Outcome (goOn fs rounds users i) Q E s ↔ Outcome (serveCall fs rounds (users i).uid c)
      (fun r servers => Q () { s with
        servers := servers
        clients := Function.update s.clients i (.removing (next r)
          (deleted || deletes (s.files fs) (fs.files servers.files) c)
          (unlinked || unlinks (s.files fs) (fs.files servers.files) c)) })
      (fun e servers => E e { s with servers := servers }) s.servers := by
  unfold goOn
  rw [Outcome.bind_iff, Outcome.get_iff]
  dsimp only
  rw [hc]
  dsimp only
  rw [Outcome.bind_iff, call, outcome_onPart_iff]
  rfl

theorem goOn_opening {c : ServerCall} {next : c.Reply → ClientM (Option Fid)}
    (hc : s.clients i = .opening (.call c next)) {Q : Unit → Site φ n → Prop}
    {E : Stop → Site φ n → Prop} :
    Outcome (goOn fs rounds users i) Q E s ↔ Outcome (serveCall fs rounds (users i).uid c)
      (fun r servers => Q () { s with
        servers := servers
        clients := Function.update s.clients i (.opening (next r)) })
      (fun e servers => E e { s with servers := servers }) s.servers := by
  unfold goOn
  rw [Outcome.bind_iff, Outcome.get_iff]
  dsimp only
  rw [hc]
  dsimp only
  rw [Outcome.bind_iff, call, outcome_onPart_iff]
  rfl

theorem goOn_idle (hc : s.clients i = .idle) {Q : Unit → Site φ n → Prop}
    {E : Stop → Site φ n → Prop} (h : Q () s) : Outcome (goOn fs rounds users i) Q E s := by
  unfold goOn
  rw [Outcome.bind_iff, Outcome.get_iff]
  dsimp only
  rw [hc]
  exact h

theorem goOn_removed {r deleted unlinked : Bool}
    (hc : s.clients i = .removing (.done r) deleted unlinked) {Q : Unit → Site φ n → Prop}
    {E : Stop → Site φ n → Prop} (h : Q () ⟨s.servers, Function.update s.clients i .idle,
      s.removes ++ [(deleted, unlinked)]⟩) : Outcome (goOn fs rounds users i) Q E s := by
  unfold goOn
  rw [Outcome.bind_iff, Outcome.get_iff]
  dsimp only
  rw [hc]
  exact h

theorem goOn_opened {r : Option Fid} (hc : s.clients i = .opening (.done r))
    {Q : Unit → Site φ n → Prop} {E : Stop → Site φ n → Prop}
    (h : Q () ⟨s.servers, Function.update s.clients i .idle, s.removes⟩) :
    Outcome (goOn fs rounds users i) Q E s := by
  unfold goOn
  rw [Outcome.bind_iff, Outcome.get_iff]
  dsimp only
  rw [hc]
  exact h

namespace Orderly

theorem readable_of (h : Orderly fs rounds users directories (slack + 1) s) {dir : Fid}
    (hdir : dir ∈ directories) :
    ∃ file, s.files fs dir = some file ∧ Readable rounds file.bytes := by
  obtain ⟨file, hfile, hwf, hlen⟩ := h.readable dir hdir
  exact ⟨file, hfile, hwf, by omega⟩

theorem exists_file (h : Orderly fs rounds users directories slack s) {dir : Fid}
    (hdir : dir ∈ directories) : s.files fs dir ≠ none := by
  obtain ⟨file, hfile, -⟩ := h.readable dir hdir
  rw [hfile]
  exact Option.some_ne_none file

/-! ### `remove` -/

theorem remove_lookup (hfs : fs.Dependable)
    (h : Orderly fs rounds users directories (slack + 1) s) {dir : Fid} {name : List Byte}
    {next : Option Fid → ClientM Bool}
    (hc : s.clients i = .removing (.call (.dirLookup dir name) next) false false)
    (hdir : dir ∈ directories) (hpos : name ≠ []) (hname : Nonzero name)
    (hnext : ∀ r, Removing directories (s.files fs) (users i).uid (next r) false false) :
    Outcome (goOn fs rounds users i) (fun _ => Orderly fs rounds users directories slack)
      (fun _ _ => False) s := by
  obtain ⟨file, hfile, hread⟩ := h.readable_of hdir
  rw [goOn_removing hc]
  apply (serve_lookup hfs hfile hread h.up hpos hname).post
  intro r servers hpost
  obtain ⟨hup, hfiles⟩ := hpost
  apply h.next_congr hup hfiles (.removing (hnext r)) _ (.inl rfl) h.removes
  rw [hc]
  exact (doomed_undeleted _ _).trans (doomed_undeleted _ _).symm

theorem remove_delete (hfs : fs.Dependable)
    (h : Orderly fs rounds users directories (slack + 1) s) {dir fid : Fid} {name : List Byte}
    (hc : s.clients i = .removing
      (.call (.fileDelete fid) fun _ => .call (.dirRemove dir name fid) .done) false false)
    (hcareful : writable (s.files fs) (users i).uid fid = true →
      Removable fs directories (users i).uid fid s (dir, name)) (hname : Nonzero name) :
    Outcome (goOn fs rounds users i) (fun _ => Orderly fs rounds users directories slack)
      (fun _ _ => False) s := by
  rw [goOn_removing hc]
  apply (serve_delete hfs fid).post
  intro r servers hpost
  obtain ⟨hup, hfiles⟩ := hpost
  change fs.files servers.files = if writable (s.files fs) (users i).uid fid then
    Function.update (s.files fs) fid none else s.files fs at hfiles
  by_cases hw : writable (s.files fs) (users i).uid fid = true
  · rw [if_pos hw] at hfiles
    have hrem := hcareful hw
    obtain ⟨file, hfile⟩ := exists_of_writable hw
    have hdeleted : deletes (s.files fs) (fs.files servers.files) (.fileDelete fid) = true := by
      rw [deletes_fileDelete, hfiles, hfile, Function.update_self]
      rfl
    rw [hdeleted]
    apply h.next (hup.trans h.up) (keeps_update hrem.plain hfiles) _ _ h.removes
    · apply Phase.removing
      apply Removing.unlink hname
      intro _
      refine ⟨hrem.directory, hrem.plain, ?_⟩
      rw [← hrem.writable]
      exact (keeps_update hrem.plain hfiles).writable dir hrem.directory _
    · apply h.sound.destroy (i := i) (k := (dir, name)) (o := fid)
      · exact ledger_names_iff.mpr ⟨hrem.directory, hrem.found, hrem.plain⟩
      · intro j o hj
        exact hrem.firm j (congrArg (Option.map Prod.fst) hj)
      · exact ledger_names_congr fun dir hdir => entryOf_of_update hrem.plain hfiles hdir
      · intro o
        change fs.files servers.files o ≠ none ↔ s.files fs o ≠ none ∧ o ≠ fid
        rw [hfiles]
        by_cases ho : o = fid
        · rw [ho, Function.update_self]
          exact ⟨fun hn => absurd rfl hn, fun hn => absurd rfl hn.2⟩
        · rw [Function.update_of_ne ho]
          exact (and_iff_left ho).symm
      · exact ledger_doomed_update _
      · change (s.clients i).doomed = none
        rw [hc]
        exact doomed_undeleted _ _
      · exact ledger_fresh_congr _ (by rw [hc]; rfl)
  · rw [if_neg hw] at hfiles
    have hkept : deletes (s.files fs) (fs.files servers.files) (.fileDelete fid) = false := by
      rw [hfiles]
      exact deletes_self _ _
    rw [hkept]
    apply h.next_congr (hup.trans h.up) hfiles _ _ (.inl rfl) h.removes
    · apply Phase.removing
      exact .unlink hname (by simp)
    · rw [hc]
      exact (doomed_undeleted _ _).trans (doomed_undeleted _ _).symm

/-- A client that has deleted the file is the only one that removes its entry. -/
theorem remove_unlink (hfs : fs.Dependable)
    (h : Orderly fs rounds users directories (slack + 1) s) {dir fid : Fid} {name : List Byte}
    {deleted : Bool}
    (hc : s.clients i = .removing (.call (.dirRemove dir name fid) .done) deleted false)
    (hdir : dir ∈ directories) (hcareful : deleted = false →
      writable (s.files fs) (users i).uid dir = true →
        (entryOf (s.files fs) dir name).map Fid.fileNo ≠ some fid.fileNo) (hname : Nonzero name)
    (hdeleted : deleted = true → fid ∉ directories ∧
      writable (s.files fs) (users i).uid dir = true) :
    Outcome (goOn fs rounds users i) (fun _ => Orderly fs rounds users directories slack)
      (fun _ _ => False) s := by
  obtain ⟨file, hfile, hread⟩ := h.readable_of hdir
  have hnumber := entryOf_fileNo hfile name
  rw [goOn_removing hc]
  apply (serve_remove hfs hfile hread h.up hname fid).post
  intro r servers hpost
  obtain ⟨hup, bytes, hrew⟩ := hpost
  have hkeeps : Keeps directories (s.files fs) (fs.files servers.files) := keeps_rewrites hfile hrew
  cases deleted with
  | true =>
    obtain ⟨hplain, hw⟩ := hdeleted rfl
    have hdoomed : (s.clients i).doomed = some ((dir, name), fid) := by rw [hc]; rfl
    obtain ⟨-, hheld, -⟩ := ledger_names_iff.mp (h.sound.held i (dir, name) fid hdoomed)
    have hnames : namesWithout file (users i).uid name fid =
        Function.update (namesOf file.bytes) name none := by
      apply if_pos
      rw [← writable_some hfile, ← hnumber]
      exact ⟨hw, congrArg (Option.map Fid.fileNo) hheld⟩
    rw [hnames] at hrew
    have hentries := hrew.entryOf_set hfile
    have hunlinked :
        unlinks (s.files fs) (fs.files servers.files) (.dirRemove dir name fid) = true := by
      rw [unlinks_dirRemove, decide_eq_true_eq, hentries, if_pos ⟨rfl, rfl⟩]
      change none ≠ entryOf (s.files fs) dir name
      rw [hheld]
      simp
    rw [hunlinked]
    apply h.next hup hkeeps (.removing .done) _ h.removes
    apply h.sound.unname (i := i) (k := (dir, name)) (o := fid) hdoomed
    · exact ledger_names_update hdir hentries (by simp)
    · funext o
      exact propext (hrew.isSome_iff hfile o)
    · exact ledger_doomed_update _
    · exact ledger_fresh_congr _ (by rw [hc]; rfl)
  | false =>
    have hnames : namesWithout file (users i).uid name fid = namesOf file.bytes := by
      apply if_neg
      rw [← writable_some hfile, ← hnumber]
      exact fun hc => hcareful rfl hc.1 hc.2
    rw [hnames] at hrew
    have hentries := hrew.entryOf_same hfile
    have hkept :
        unlinks (s.files fs) (fs.files servers.files) (.dirRemove dir name fid) = false := by
      rw [unlinks_dirRemove, decide_eq_false_iff_not, not_not, hentries]
      rfl
    rw [hkept]
    apply h.next hup hkeeps (.removing .done) _ h.removes
    apply ledger_congr h.sound fun d _ => hentries d
    · exact fun o ho => (hrew.isSome_iff hfile o).mpr ho
    · rw [hc]
      rfl
    · exact .inl rfl

/-! ### `fopen` -/

theorem open_lookup (hfs : fs.Dependable)
    (h : Orderly fs rounds users directories (slack + 1) s) {dir : Fid} {name : List Byte}
    {next : Option Fid → ClientM (Option Fid)}
    (hc : s.clients i = .opening (.call (.dirLookup dir name) next)) (hdir : dir ∈ directories)
    (hpos : name ≠ []) (hname : Nonzero name) (hnext : ∀ r, Opening (next r)) :
    Outcome (goOn fs rounds users i) (fun _ => Orderly fs rounds users directories slack)
      (fun _ _ => False) s := by
  obtain ⟨file, hfile, hread⟩ := h.readable_of hdir
  rw [goOn_opening hc]
  apply (serve_lookup hfs hfile hread h.up hpos hname).post
  intro r servers hpost
  obtain ⟨hup, hfiles⟩ := hpost
  apply h.next_congr hup hfiles (.opening (hnext r)) _ (.inl (fresh_of_opening (hnext r))) h.removes
  rw [hc]
  rfl

theorem open_create (h : Orderly fs rounds users directories (slack + 1) s) {dir : Fid}
    {path : List Byte} (hc : s.clients i = .opening (createIn dir path true))
    (hserver : dir.server ≠ 0) (hpos : lastComponent path ≠ []) (hname : Nonzero (lastComponent path)) :
    Outcome (goOn fs rounds users i) (fun _ => Orderly fs rounds users directories slack)
      (fun _ _ => False) s := by
  rw [goOn_opening hc]
  apply (serve_create dir.server fileDefault).post
  intro r servers hpost
  obtain ⟨hup, hr⟩ := hpost
  obtain ⟨rfl, hfiles⟩ | ⟨fileNo, bytes, rfl, hdead, hfiles⟩ := hr
  · apply h.next_congr (hup.trans h.up) hfiles (.opening .done) _ (.inl rfl) h.removes
    rw [hc]
    rfl
  · change s.files fs ⟨dir.server, fileNo⟩ = none at hdead
    change fs.files servers.files = Function.update (s.files fs) _ _ at hfiles
    have hplain : (⟨dir.server, fileNo⟩ : Fid) ∉ directories :=
      fun hmem => h.exists_file hmem hdead
    apply h.next (hup.trans h.up) (keeps_update hplain hfiles) _ _ h.removes
    · exact .inserting hserver hplain hpos hname
    · apply h.sound.make (i := i) (o := ⟨dir.server, fileNo⟩) (fun hn => hn hdead)
      · exact ledger_names_congr fun d hd => entryOf_of_update hplain hfiles hd
      · intro o
        change fs.files servers.files o ≠ none ↔ s.files fs o ≠ none ∨ o = ⟨dir.server, fileNo⟩
        rw [hfiles]
        by_cases ho : o = ⟨dir.server, fileNo⟩
        · rw [ho, Function.update_self]
          exact iff_of_true (Option.some_ne_none _) (.inr rfl)
        · rw [Function.update_of_ne ho]
          exact (or_iff_left ho).symm
      · exact ledger_doomed_congr _ (by rw [hc]; rfl)
      · exact ledger_fresh_update _

theorem open_truncate (h : Orderly fs rounds users directories (slack + 1) s) {fid : Fid}
    (hc : s.clients i = .opening (opened fid true)) (hplain : fid ∉ directories) :
    Outcome (goOn fs rounds users i) (fun _ => Orderly fs rounds users directories slack)
      (fun _ _ => False) s := by
  rw [goOn_opening hc]
  apply (serve_setsize fid 0).post
  intro r servers hpost
  obtain ⟨hup, hr⟩ := hpost
  have hdoomed : (Client.opening (.done (some fid))).doomed = (s.clients i).doomed := by
    rw [hc]
    rfl
  obtain hfiles | ⟨file, file', hfile, hfiles⟩ := hr
  · exact h.next_congr (hup.trans h.up) hfiles (.opening .done) hdoomed (.inl rfl) h.removes
  · change fs.files servers.files = Function.update (s.files fs) _ _ at hfiles
    apply h.next (hup.trans h.up) (keeps_update hplain hfiles) (.opening .done) _ h.removes
    apply ledger_congr h.sound (fun d hd => entryOf_of_update hplain hfiles hd) _ hdoomed (.inl rfl)
    intro o ho
    rw [hfiles]
    by_cases hof : o = fid
    · rw [hof, Function.update_self]
      exact Option.some_ne_none _
    · rw [Function.update_of_ne hof]
      exact ho

theorem open_insert (hfs : fs.Dependable)
    (h : Orderly fs rounds users directories (slack + 1) s) {dir fid : Fid} {name : List Byte}
    (hc : s.clients i = .opening (inserting dir name fid)) (hdir : dir ∈ directories)
    (hserver : fid.server ≠ 0) (hplain : fid ∉ directories) (hpos : name ≠ [])
    (hname : Nonzero name) :
    Outcome (goOn fs rounds users i) (fun _ => Orderly fs rounds users directories slack)
      (fun _ _ => False) s := by
  obtain ⟨file, hfile, hread⟩ := h.readable_of hdir
  rw [goOn_opening hc]
  apply (serve_insert hfs hfile hread h.up hpos hname fid).post
  intro b servers hpost
  obtain ⟨hup, hb⟩ := hpost
  obtain ⟨rfl, hfiles⟩ | ⟨rfl, hfree, bytes, hrew⟩ := hb
  · apply h.next_congr hup hfiles (.opening .done) _ (.inl rfl) h.removes
    rw [hc]
    rfl
  · change Rewrites (s.files fs) _ _ _ _ _ at hrew
    apply h.next hup (keeps_rewrites hfile hrew) (.opening .truncate) _ h.removes
    have hentries := hrew.entryOf_set hfile
    apply h.sound.name (i := i) (k := (dir, name)) (o := fid)
    · change (s.clients i).fresh = some fid
      rw [hc]
      rfl
    · rw [ledger_names_of_mem hdir, entryOf_some hfile, hfree]
      rfl
    · apply ledger_names_update hdir
      · intro d x
        rw [hentries d x, Option.map_some, resolve_of_ne hserver]
      · intro o ho
        cases ho
        exact hplain
    · funext o
      exact propext (hrew.isSome_iff hfile o)
    · exact ledger_doomed_congr _ (by rw [hc]; rfl)
    · exact ledger_fresh_update _

/-! ### All steps -/

theorem go_on (hfs : fs.Dependable) (h : Orderly fs rounds users directories (slack + 1) s)
    (hcareful : (s.clients i).Careful fs directories (users i).uid s) :
    Outcome (goOn fs rounds users i) (fun _ => Orderly fs rounds users directories slack)
      (fun _ _ => False) s := by
  have hphase := h.phase i
  generalize hc : s.clients i = client at hphase hcareful
  cases hphase with
  | idle => exact goOn_idle hc h.weaken
  | removing hm =>
    cases hm with
    | lookup hpos hname hnext => exact h.remove_lookup hfs hc hcareful hpos hname hnext
    | delete hname =>
      apply h.remove_delete hfs hc _ hname
      intro hw
      obtain ⟨entry, hentry, hremovable⟩ := hcareful hw
      cases hentry
      exact hremovable
    | unlink hname hdeleted =>
      exact h.remove_unlink hfs hc hcareful.1 hcareful.2 hname fun hd => (hdeleted hd).2
    | done =>
      apply goOn_removed hc
      apply h.next_congr h.up rfl .idle _ (.inl rfl)
      · intro r hr
        obtain hr | hr := List.mem_append.mp hr
        · exact h.removes r hr
        · rw [List.mem_singleton.mp hr]
      · rw [hc]
        rfl
  | opening hm =>
    cases hm with
    | lookup hpos hname hnext => exact h.open_lookup hfs hc hcareful hpos hname hnext
    | create hserver hpos hname => exact h.open_create hc hserver hpos hname
    | truncate => exact h.open_truncate hc hcareful
    | done =>
      apply goOn_opened hc
      apply h.next_congr h.up rfl .idle _ (.inl rfl) h.removes
      rw [hc]
      rfl
  | inserting hserver hplain hpos hname =>
    exact h.open_insert hfs hc hcareful hserver hplain hpos hname

theorem start (h : Orderly fs rounds users directories (slack + 1) s) (hidle : s.clients i = .idle)
    (hphase : Phase directories (s.files fs) (users i).uid client) (hdoomed : client.doomed = none)
    (hfresh : client.fresh = none) : Orderly fs rounds users directories slack
      ⟨s.servers, Function.update s.clients i client, s.removes⟩ := by
  apply h.next_congr h.up rfl hphase _ (.inl hfresh) h.removes
  rw [hdoomed, hidle]
  rfl

theorem perform (hfs : fs.Dependable) (h : Orderly fs rounds users directories (slack + 1) s)
    {x : Step n} (hcareful : x.Careful fs users directories s) :
    Outcome (x.perform fs rounds users) (fun _ => Orderly fs rounds users directories slack)
      (fun _ _ => False) s := by
  cases x with
  | go i => exact h.go_on hfs hcareful
  | remove i path =>
    unfold Step.perform
    rw [Outcome.bind_iff, Outcome.get_iff]
    cases hc : s.clients i with
    | idle => exact h.start hc (.removing (removing_start _ path)) (doomed_undeleted _ _) rfl
    | removing | opening => exact h.weaken
  | fopen i path =>
    unfold Step.perform
    rw [Outcome.bind_iff, Outcome.get_iff]
    cases hc : s.clients i with
    | idle =>
      have hopening := opening_start (users i).env path
      exact h.start hc (.opening hopening) rfl (fresh_of_opening hopening)
    | removing | opening => exact h.weaken

theorem inOrder (h : Orderly fs rounds users directories slack s) : InOrder fs directories s := by
  constructor
  · intro hidle
    have hfirm (entry : Fid × List Byte) :
        (ledger directories (s.files fs) s.clients).Firm entry := by
      intro i fid hi
      change (s.clients i).doomed = _ at hi
      rw [hidle i] at hi
      cases hi
    constructor
    · intro dir hdir name fid hentry
      by_cases hfid : fid ∈ directories
      · exact h.exists_file hfid
      · exact h.sound.backed (dir, name) fid (ledger_names_iff.mpr ⟨hdir, hentry, hfid⟩) (hfirm _)
    · intro dir hdir dir' hdir' name name' fid hfid hentry hentry'
      have heq := h.sound.single (dir, name) (dir', name') fid
        (ledger_names_iff.mpr ⟨hdir, hentry, hfid⟩) (ledger_names_iff.mpr ⟨hdir', hentry', hfid⟩)
        (hfirm _) (hfirm _)
      exact Prod.mk.inj heq
  · exact h.removes

theorem run (hfs : fs.Dependable) {steps : List (Step n)}
    (h : Orderly fs rounds users directories steps.length s)
    (hcareful : AllCareful fs rounds users directories steps s) :
    AlwaysInOrder fs rounds users directories steps s := by
  induction steps generalizing s with
  | nil => exact h.inOrder
  | cons x steps ih =>
    obtain ⟨hx, hrest⟩ := hcareful
    refine ⟨h.inOrder, ?_⟩
    exact ((h.perform hfs hx).both hrest).mono (fun _ _ hs => ih hs.1 hs.2) fun _ _ he => he.1

end Orderly

theorem AlwaysInOrder.last {steps : List (Step n)}
    (h : AlwaysInOrder fs rounds users directories steps s) :
    Outcome (steps.forM (Step.perform fs rounds users)) (fun _ => InOrder fs directories)
      (fun _ _ => False) s := by
  induction steps generalizing s with
  | nil => exact h
  | cons x steps ih => exact (Outcome.bind_iff _ _).mpr (h.2.post fun _ _ => ih)

end Egos.File.Clients
