import Egos.File.Traversal

/-!
# Looking names up in an image of mkfs

mkfs and the directory server agree on the format of a directory. Nothing in mkfs checks that a name
fits the field of an entry, so they agree on the names only as long as these are short enough.
-/
namespace Egos.File.Mkfs

open Egos.Lib Egos.Disk Egos.Dirsvr Bfs

set_option autoImplicit false

/-- The mode that `control` sets. -/
def fileMode : BitVec 16 := Permission.otherRead ||| Permission.ownerRead ||| Permission.ownerWrite

/-- The file server at `server` has the files of the image, as far as their sizes can be told. -/
structure HasFiles {φ : Type} (ba : ByteArrays φ) (served : φ) (server : BitVec 32) (s : Image) :
    Prop where
  contents : ∀ entry ∈ s.stored, entry.2.length < 2 ^ 32 →
    ba.contents served ⟨server, BitVec.ofNat 32 entry.1⟩ = entry.2
  mode : ∀ entry ∈ s.stored, ba.mode served ⟨server, BitVec.ofNat 32 entry.1⟩ = fileMode

/-- `DIR_LOOKUP`. -/
def lookupMessage (server : BitVec 32) (d : HostDir) (src uid : Nat) (name : List Byte) :
    Grass.Message :=
  (⟨src, uid, ⟨.lookup, ⟨server, BitVec.ofNat 32 d.self⟩, fidZero, BitVec.ofNat 32 name.length⟩,
    name⟩ : DirMessage).message

/-- What every user is told about a name. -/
def Replies {φ : Type} (ba : ByteArrays φ) (w : DirWorld φ) (server : BitVec 32) (d : HostDir)
    (name : List Byte) (reply : DirReply) : Prop :=
  ∀ src uid, ∃ enough, ∀ rounds, enough ≤ rounds →
    Outcome (dirProc ba.toFileClient rounds (lookupMessage server d src uid name))
      (fun _ w' => w'.outbox = w.outbox ++ [(src, reply)]) (fun _ _ => False) w

/-- The image of a host tree: the file server reads back what was copied, and the directory server
finds the entries of every directory and nothing else. -/
structure Agrees (args : Listing) (s : Image) : Prop where
  copied : ∀ entry ∈ files args true 1, entry ∈ s.stored
  only : ∀ entry ∈ s.stored, entry ∈ files args true 1 ∨
    ∃ d ∈ dirs args true 0 1, d.self = entry.1
  read : ∀ (globalTime : BitVec 64) (startTime : BitVec 32) (env : Env), ∃ w,
    boot sparse env ⟨fresh globalTime startTime (BitVec.ofNat 32 ninodes), s.disk, []⟩ = .ok () w ∧
      ∀ entry ∈ s.stored, entry.2.length ≤ 2 ^ 32 - blockSize → ReadsAs w entry.1 entry.2
  found : ∀ {φ : Type} (ba : ByteArrays φ) (w : DirWorld φ) (server : BitVec 32),
    HasFiles ba w.files server s → ∀ d ∈ dirs args true 0 1, ∀ entry ∈ d.entries,
      Replies ba w server d entry.1 ⟨.ok, ⟨server, BitVec.ofNat 32 entry.2⟩⟩
  missing : ∀ {φ : Type} (ba : ByteArrays φ) (w : DirWorld φ) (server : BitVec 32),
    HasFiles ba w.files server s → ∀ d ∈ dirs args true 0 1, ∀ name ∉ d.entries.map Prod.fst,
      Replies ba w server d name ⟨.error, fidZero⟩

/-- mkfs refuses the tree or writes an image of it. -/
structure Correct (stack : Nat → Buffer) (args : Listing) (uid : BitVec 32) (de : Buffer)
    (now : BitVec 64) : Prop where
  outcome : Outcome (main sparseStore stack args uid de now) (fun _ s => Agrees args s)
    (fun e _ => e ≠ .undefined) blankImage

/-- Up to where mkfs gives up, all names fit and no empty file gets a number behind the last inode. If
it does not give up, no two entries of a directory have the same name. -/
structure Fits (args : Listing) : Prop where
  visits : UpToStop Visit.Fits args true 1 0
  distinct : stops args true 1 = false → ∀ d ∈ dirs args true 0 1, (d.entries.map Prod.fst).Nodup

/-! ## Lookups -/

section

variable {φ : Type} {ba : ByteArrays φ} {w : DirWorld φ} {server : BitVec 32} {d : HostDir}
  {name : List Byte}

theorem replies_long (hlong : dirNameSize < name.length) :
    Replies ba w server d name ⟨.error, fidZero⟩ := by
  intro src uid
  refine ⟨0, fun rounds _ => ?_⟩
  unfold lookupMessage
  rw [dirProc_long (show DirOp.lookup ≠ .unused by decide) hlong]
  exact rfl

theorem Replies.unique {reply reply' : DirReply} (h : Replies ba w server d name reply)
    (h' : Replies ba w server d name reply') : reply = reply' := by
  obtain ⟨enough, h⟩ := h 0 0
  obtain ⟨enough', h'⟩ := h' 0 0
  have hfirst := h (max enough enough') (Nat.le_max_left _ _)
  have hsecond := h' (max enough enough') (Nat.le_max_right _ _)
  obtain ⟨_, w', hrun, hw⟩ := hfirst.exists_ok
  have hlast := List.append_cancel_left (hw.symm.trans (hsecond.ok hrun))
  simpa using hlast

/-- A directory of the image answers lookups of short names from its entries. -/
theorem replies_short {bytes : List Byte} (hshort : name.length ≤ dirNameSize)
    (hcontents : ba.contents w.files ⟨server, BitVec.ofNat 32 d.self⟩ = bytes)
    (hmode : ba.mode w.files ⟨server, BitVec.ofNat 32 d.self⟩ = fileMode)
    (hwhole : bytes.length % Dirsvr.dirEntrySize = 0) (hslots : slotsOf bytes = d.entries.map slotFor) :
    Replies ba w server d name (lookupReply ⟨server, BitVec.ofNat 32 d.self⟩
      (Holes.find (d.entries.map slotFor) name)) := by
  intro src uid
  refine ⟨bytes.length + 1, fun rounds hrounds => ?_⟩
  have htaken : ∀ de ∈ entriesOf bytes, de.isFree = true → de.cname ≠ name := by
    intro de hde hfree
    have hslot : none ∈ slotsOf bytes := by
      rw [← slot_free hfree]
      exact List.mem_map_of_mem hde
    rw [hslots] at hslot
    obtain ⟨entry, -, hentry⟩ := List.mem_map.mp hslot
    cases hentry
  have hallowed : (fileOf ba w.files ⟨server, BitVec.ofNat 32 d.self⟩).allows (BitVec.ofNat 32 uid)
      Permission.ownerRead Permission.otherRead = true := by
    unfold Reference.RefFile.allows fileOf
    dsimp only
    rw [hmode, Bool.or_eq_true]
    refine .inr ?_
    split <;> decide
  subst hcontents
  let req : DirRequest :=
    ⟨.lookup, ⟨server, BitVec.ofNat 32 d.self⟩, fidZero, BitVec.ofNat 32 name.length⟩
  have hdir : req.dir = ⟨server, BitVec.ofNat 32 d.self⟩ := rfl
  unfold lookupMessage
  rw [dirProc_message, take_name hshort]
  refine (outcome_lookup serves_only (only_fileOf w.files _) hdir hshort hwhole htaken hrounds
    (BitVec.ofNat 32 uid)).post fun _ w' hpost => ?_
  obtain ⟨_, hout⟩ := hpost
  rw [if_pos hallowed] at hout
  rw [hout, ← hslots]
  rfl

end

/-! ## What the reference lists -/

theorem listed_named {node : Node} (h : listed node = true) : named node = true := by
  cases node with
  | file bytes => rfl
  | dir skip uidFile => rfl
  | weird => cases h
  | unreadable => cases h

section

variable {P : Visit → Prop} {listing : Listing} {top : Bool} {p n i : Nat}

/-- What an entry of a directory that mkfs gets through has come from. -/
structure Source (P : Visit → Prop) (entry : List Byte × Nat) (v : Visit) : Prop where
  visited : P v
  inside : v.top = false
  listed : listed v.node = true
  eq : entry = (v.label, v.number)
  inode : v.node ≠ .file [] → v.number < ninodes

theorem stops_entry {name : List Byte} {node : Node} {mtime : BitVec 64} {child next : Listing}
    (hkept : kept top name = true) (h : stops (.entry name node mtime child next) top n = false) :
    stopsAt node n (stops child false (n + 1)) = false ∧
      stops next top (n + inodesOf node (inodes child false)) = false := by
  rw [stops, if_pos hkept] at h
  exact Bool.or_eq_false_iff.mp h

theorem inode_of_stopsAt {node : Node} {below : Bool} (hlisted : Mkfs.listed node = true)
    (h : stopsAt node n below = false) (hne : node ≠ .file []) : n < ninodes := by
  cases node with
  | file bytes =>
    have hbytes : bytes ≠ [] := fun heq => hne (congrArg Node.file heq)
    simpa [stopsAt, hbytes] using h
  | dir skip uidFile =>
    cases skip with
    | true => cases hlisted
    | false =>
      have hboth : below = false ∧ n < ninodes := by simpa [stopsAt] using h
      exact hboth.2
  | weird => cases hlisted
  | unreadable => cases hlisted

theorem UpToStop.table (h : UpToStop P listing false n i) (hgo : stops listing false n = false) :
    ∀ entry ∈ table listing n, ∃ v, Source P entry v := by
  induction listing generalizing n i with
  | done => exact fun _ he => absurd he List.not_mem_nil
  | entry name node mtime child next _ ih =>
    rw [UpToStop] at h
    rw [Mkfs.table]
    by_cases hkept : kept false name = true
    · obtain ⟨hhere, hnext⟩ := stops_entry hkept hgo
      rw [if_pos hkept] at h ⊢
      intro entry he
      rcases List.mem_append.mp he with he | he
      · by_cases hlisted : listed node = true
        · rw [if_pos hlisted] at he
          exact ⟨_, h.1, rfl, hlisted, List.mem_singleton.mp he, inode_of_stopsAt hlisted hhere⟩
        · rw [if_neg hlisted] at he
          cases he
      · exact ih (h.2.2 hhere) hnext entry he
    · rw [stops, if_neg hkept] at hgo
      rw [if_neg hkept] at h ⊢
      exact ih h hgo

/-- A directory of a tree that mkfs gets through. -/
structure Passed (P : Visit → Prop) (d : HostDir) : Prop where
  inode : d.self < ninodes
  go : stops d.listing false (d.self + 1) = false
  visits : UpToStop P d.listing false (d.self + 1) 2

theorem UpToStop.dirs (h : UpToStop P listing top n i) (hgo : stops listing top n = false) :
    ∀ d ∈ dirs listing top p n, Passed P d := by
  induction listing generalizing top p n i with
  | done => exact fun _ hd => absurd hd List.not_mem_nil
  | entry name node mtime child next ihChild ihNext =>
    rw [UpToStop] at h
    rw [Mkfs.dirs]
    by_cases hkept : kept top name = true
    · obtain ⟨hhere, hnext⟩ := stops_entry hkept hgo
      rw [if_pos hkept] at h ⊢
      intro d hd
      rcases List.mem_append.mp hd with hd | hd
      · cases node with
        | dir skip uidFile =>
          cases skip with
          | true => cases hd
          | false =>
            have hboth : stops child false (n + 1) = false ∧ n < ninodes := by
              simpa [stopsAt] using hhere
            have hbelow := h.2.1 uidFile rfl
            rcases List.mem_cons.mp hd with rfl | hd
            · exact ⟨hboth.2, hboth.1, hbelow⟩
            · exact ihChild hbelow hboth.1 d hd
        | file bytes => cases hd
        | weird => cases hd
        | unreadable => cases hd
      · exact ihNext (h.2.2 hhere) hnext d hd
    · rw [stops, if_neg hkept] at hgo
      rw [if_neg hkept] at h ⊢
      exact ihNext h hgo

/-- All names are short if those that are listed are, and those of directories that are skipped. -/
theorem UpToStop.short (hskip : UpToStop Visit.SkipShort listing top n i)
    (hself : top = false → ∀ entry ∈ Mkfs.table listing n, entry.1.length ≤ dirNameSize)
    (hbelow : ∀ d ∈ Mkfs.dirs listing top p n, ∀ entry ∈ Mkfs.table d.listing (d.self + 1),
      entry.1.length ≤ dirNameSize) : UpToStop Visit.Short listing top n i := by
  induction listing generalizing top p n i with
  | done => trivial
  | entry name node mtime child next ihChild ihNext =>
    rw [Mkfs.table] at hself
    rw [Mkfs.dirs] at hbelow
    rw [UpToStop] at hskip ⊢
    by_cases hkept : kept top name = true
    · rw [if_pos hkept] at hskip hbelow ⊢
      obtain ⟨hhead, hskipBelow, hskipNext⟩ := hskip
      refine ⟨fun htop hnamed => ?_, fun uidFile hnode => ?_, fun hgo => ?_⟩
      · by_cases hlisted : listed node = true
        · have hlist := hself htop
          rw [← htop, if_pos hkept, if_pos hlisted] at hlist
          exact hlist _ (List.mem_append_left _ (List.mem_singleton_self _))
        · exact hhead (Bool.eq_false_iff.mpr hlisted) htop hnamed
      · subst hnode
        have hmem : ∀ d ∈ (⟨n, p, child⟩ :: Mkfs.dirs child false n (n + 1) : List HostDir),
            ∀ entry ∈ Mkfs.table d.listing (d.self + 1), entry.1.length ≤ dirNameSize :=
          fun d hd => hbelow d (List.mem_append_left _ hd)
        exact ihChild (hskipBelow uidFile rfl) (fun _ => hmem _ List.mem_cons_self)
          fun d hd => hmem d (List.mem_cons_of_mem _ hd)
      · refine ihNext (hskipNext hgo) (fun htop entry he => ?_) fun d hd =>
          hbelow d (List.mem_append_right _ hd)
        subst htop
        have hlist := hself rfl
        rw [if_pos hkept] at hlist
        exact hlist entry (List.mem_append_right _ he)
    · rw [if_neg hkept] at hskip hbelow ⊢
      refine ihNext hskip (fun htop => ?_) hbelow
      subst htop
      have hlist := hself rfl
      rwa [if_neg hkept] at hlist

end

theorem length_table_le (listing : Listing) (n : Nat) : (table listing n).length ≤ count listing := by
  induction listing generalizing n with
  | done => exact Nat.le_refl _
  | entry name node mtime child next _ ih =>
    rw [table, count]
    split
    · rw [List.length_append]
      refine Nat.add_le_add ?_ (ih _)
      split
      · exact Nat.le_refl _
      · exact Nat.zero_le _
    · rw [Nat.zero_add]
      exact ih n

theorem table_ordered (listing : Listing) (n : Nat) :
    (table listing n).Pairwise (fun a b => a.2 < b.2) ∧
      ∀ entry ∈ table listing n, n ≤ entry.2 ∧ entry.2 < n + inodes listing false := by
  induction listing generalizing n with
  | done => exact ⟨List.Pairwise.nil, (by intro _ h; cases h)⟩
  | entry name node mtime child next _ ih =>
    rw [table, inodes]
    split
    · obtain ⟨hordered, hbounds⟩ := ih (n + inodesOf node (inodes child false))
      split
      · rename_i hl
        have hpos : 0 < inodesOf node (inodes child false) := by
          cases node with
          | file bytes => exact Nat.one_pos
          | dir skip uidFile =>
            cases skip with
            | true => exact Nat.one_pos
            | false => exact Nat.lt_of_lt_of_le Nat.one_pos (Nat.le_add_right 1 _)
          | weird => cases hl
          | unreadable => cases hl
        refine ⟨List.Pairwise.cons (fun entry he => ?_) hordered, fun entry he => ?_⟩
        · have := hbounds entry he
          dsimp only
          omega
        · rcases List.mem_cons.mp he with rfl | he
          · dsimp only
            omega
          · have := hbounds entry he
            omega
      · refine ⟨hordered, fun entry he => ?_⟩
        have := hbounds entry he
        omega
    · rw [Nat.zero_add]
      exact ih n

theorem dirs_ordered (listing : Listing) (top : Bool) {p n : Nat} (hp : p < n) :
    ∀ d ∈ dirs listing top p n, d.parent < d.self ∧
      d.self + 1 + inodes d.listing false ≤ n + inodes listing top := by
  induction listing generalizing top p n with
  | done => simp [dirs]
  | entry name node mtime child next ihChild ihNext =>
    rw [dirs, inodes]
    split
    · intro d hd
      rcases List.mem_append.mp hd with hd | hd
      · cases node with
        | dir skip uidFile =>
          cases skip with
          | true => cases hd
          | false =>
            change d ∈ ⟨n, p, child⟩ :: dirs child false n (n + 1) at hd
            change _ ∧ _ ≤ n + (1 + inodes child false + inodes next top)
            rcases List.mem_cons.mp hd with rfl | hd
            · exact ⟨hp, by dsimp only; omega⟩
            · have := ihChild false (Nat.lt_succ_self n) d hd
              omega
        | file bytes => cases hd
        | weird => cases hd
        | unreadable => cases hd
      · have := ihNext top (Nat.lt_of_lt_of_le hp (Nat.le_add_right n _)) d hd
        omega
    · rw [Nat.zero_add]
      exact ihNext top hp

theorem Passed.short {d : HostDir} (h : Passed Visit.Short d) :
    ∀ entry ∈ d.entries, entry.1.length ≤ dirNameSize := by
  intro entry he
  rcases List.mem_cons.mp he with rfl | he
  · exact entryName_self.short
  · rcases List.mem_cons.mp he with rfl | he
    · exact entryName_parent.short
    · obtain ⟨v, hv⟩ := h.visits.table h.go entry he
      rw [hv.eq]
      exact hv.visited hv.inside (listed_named hv.listed)

theorem Passed.numbers {d : HostDir} (h : Passed Visit.Fits d) (hparent : d.parent < d.self) :
    ∀ entry ∈ d.entries, entry.2 < ninodes := by
  intro entry he
  rcases List.mem_cons.mp he with rfl | he
  · exact h.inode
  · rcases List.mem_cons.mp he with rfl | he
    · exact Nat.lt_trans hparent h.inode
    · obtain ⟨v, hv⟩ := h.visits.table h.go entry he
      rw [hv.eq]
      by_cases hempty : v.node = .file []
      · exact hv.visited.numbered hempty
      · exact hv.inode hempty

/-! ## Images -/

/-- Plain files with the bytes that the image has for them. -/
def servedFiles (s : Image) (fid : Fid) : Reference.RefFile where
  uid := 0
  mode := fileMode
  bytes := (List.range (s.stats fid.fileNo.toNat).stSize.toNat).map
    (byteAt (s.disk fid.fileNo.toNat).data)

theorem hasFiles_servedFiles {s : Image} (hc : ∀ entry ∈ s.stored, Copied s entry)
    (server : BitVec 32) : HasFiles plainFiles (servedFiles s) server s := by
  constructor
  · intro entry he hlen
    have hheld := (hc entry he).holds hlen
    have hno : (BitVec.ofNat 32 entry.1).toNat = entry.1 := by
      rw [BitVec.toNat_ofNat]
      exact Nat.mod_eq_of_lt (Nat.lt_trans (hc entry he).lt (by decide))
    change (List.range _).map _ = _
    dsimp only
    rw [hno, hheld.length]
    apply List.ext_getElem
    · rw [List.length_map, List.length_range]
    · intro k _ hk
      rw [List.getElem_map, List.getElem_range, hheld.data k hk]
      exact List.getD_eq_getElem _ _ hk
  · intro entry _
    rfl

section

variable {stack : Nat → Buffer} {args : Listing} {uid : BitVec 32} {de : Buffer} {now : BitVec 64}
  {s : Image}

theorem Agrees.short (h : Agrees args s) (hc : ∀ entry ∈ s.stored, Copied s entry) {d : HostDir}
    (hd : d ∈ dirs args true 0 1) {entry : List Byte × Nat} (he : entry ∈ d.entries) :
    entry.1.length ≤ dirNameSize := by
  apply Nat.le_of_not_lt
  intro hlong
  have hfound := h.found plainFiles ⟨servedFiles s, []⟩ 0 (hasFiles_servedFiles hc 0) d hd entry he
  cases hfound.unique (replies_long hlong)

theorem Agrees.distinct (h : Agrees args s) (hc : ∀ entry ∈ s.stored, Copied s entry) {d : HostDir}
    (hd : d ∈ dirs args true 0 1) (hnumbers : ∀ entry ∈ d.entries, entry.2 < ninodes) :
    (d.entries.map Prod.fst).Nodup := by
  obtain ⟨hparent, -⟩ := dirs_ordered args true Nat.one_pos d hd
  obtain ⟨hordered, hbounds⟩ := table_ordered d.listing (d.self + 1)
  have hlt (entry : List Byte × Nat) (he : entry ∈ d.entries) : entry.2 < 2 ^ 32 :=
    Nat.lt_trans (hnumbers entry he) (by decide)
  have hnodup : d.entries.Nodup := by
    have htable : (table d.listing (d.self + 1)).Nodup := by
      refine hordered.imp fun {a b} hab heq => ?_
      rw [heq] at hab
      exact Nat.lt_irrefl _ hab
    refine List.nodup_cons.mpr ⟨fun he => ?_, List.nodup_cons.mpr ⟨fun he => ?_, htable⟩⟩
    · rcases List.mem_cons.mp he with heq | he
      · exact absurd (congrArg Prod.fst heq) (show selfName ≠ parentName by decide)
      · have := (hbounds _ he).1
        dsimp only at this
        omega
    · have := (hbounds _ he).1
      dsimp only at this
      omega
  refine hnodup.map_on fun a ha b hb hab => Prod.ext hab ?_
  have hserved := hasFiles_servedFiles hc 0
  have hfound := h.found plainFiles ⟨servedFiles s, []⟩ 0 hserved d hd a ha
  rw [hab] at hfound
  have hreply := hfound.unique (h.found plainFiles ⟨servedFiles s, []⟩ 0 hserved d hd b hb)
  have hno := congrArg (fun reply : DirReply => reply.fid.fileNo.toNat) hreply
  dsimp only at hno
  rw [BitVec.toNat_ofNat, BitVec.toNat_ofNat, Nat.mod_eq_of_lt (hlt a ha),
    Nat.mod_eq_of_lt (hlt b hb)] at hno
  exact hno

theorem HostDir.Recorded.replies {φ : Type} {ba : ByteArrays φ} {w : DirWorld φ} {server : BitVec 32}
    {d : HostDir} (h : d.Recorded s) (hfiles : HasFiles ba w.files server s)
    (hcount : count d.listing ≤ 1022) {name : List Byte} (hshort : name.length ≤ dirNameSize) :
    Replies ba w server d name (lookupReply ⟨server, BitVec.ofNat 32 d.self⟩
      (Holes.find (d.entries.map slotFor) name)) := by
  obtain ⟨bytes, hmem, hwhole, hslots⟩ := h
  have hlen : bytes.length < 2 ^ 32 := by
    have htable := length_table_le d.listing (d.self + 1)
    have hentries := congrArg List.length hslots
    rw [length_slotsOf, List.length_map, HostDir.entries, List.length_cons,
      List.length_cons] at hentries
    unfold Dirsvr.dirEntrySize at *
    omega
  exact replies_short hshort (hfiles.contents _ hmem hlen) (hfiles.mode _ hmem) hwhole hslots

theorem admissible_of_host
    (hhost : ∀ d ∈ dirs args true 0 1, HostNames d.listing ∧ count d.listing ≤ 1022) :
    ∀ d ∈ dirs args true 0 blankImage.ino, Admissible d := by
  intro d hd
  obtain ⟨hnames, hcount⟩ := hhost d hd
  refine ⟨hnames, ?_⟩
  unfold maxDirEntries
  omega

/-- Where mkfs gets through the tree, the servers agree with its image only if all fits. -/
theorem Correct.fits (h : Correct stack args uid de now)
    (hhost : ∀ d ∈ dirs args true 0 1, HostNames d.listing ∧ count d.listing ≤ 1022)
    (hgo : stops args true 1 = false) (hskip : UpToStop Visit.SkipShort args true 1 0) :
    Fits args := by
  cases hrun : main sparseStore stack args uid de now blankImage with
  | error e s =>
    -- it neither goes wrong nor gives up
    have hstop : stops args true 1 = true :=
      (main_returns stack uid de now (s := blankImage)).error hrun (h.outcome.error hrun)
    rw [hgo] at hstop
    cases hstop
  | ok _ s =>
    have hagrees := h.outcome.ok hrun
    obtain ⟨-, hc⟩ := (outcome_mkfs stack args uid de now 0 0).ok hrun
    have hshort : UpToStop Visit.Short args true 1 0 := by
      refine UpToStop.short (p := 0) hskip (by intro h; cases h) fun d hd entry he => ?_
      exact hagrees.short hc hd (List.mem_cons_of_mem _ (List.mem_cons_of_mem _ he))
    obtain ⟨hvisits, -⟩ := (outcome_main stack uid de now (s := blankImage)
      (admissible_of_host hhost) hshort).ok hrun
    refine ⟨hvisits, fun _ d hd => hagrees.distinct hc hd ?_⟩
    exact (UpToStop.dirs hvisits hgo d hd).numbers (dirs_ordered args true Nat.one_pos d hd).1

end

end Egos.File.Mkfs
