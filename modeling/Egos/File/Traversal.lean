import Egos.File.Tree

/-!
# The traversal of a host tree

Every step of mkfs takes the numbers that the reference gives out and stores what belongs to them.
Each loop is followed by an induction on the listing it goes through, with the listings of the
entries below as further hypotheses.
-/
namespace Egos.File.Mkfs

open Egos.Lib Egos.Disk Egos.Dirsvr

set_option autoImplicit false

/-- The directory is stored under its number. -/
def HostDir.Recorded (d : HostDir) (s : Image) : Prop :=
  ∃ bytes, (d.self, bytes) ∈ s.stored ∧ bytes.length % Dirsvr.dirEntrySize = 0 ∧
    slotsOf bytes = d.entries.map slotFor

/-- These files and directories, and nothing else, were stored since. -/
structure Copies (s s' : Image) (taken : Nat) (copied : List (Nat × List Byte))
    (below : List HostDir) : Prop where
  ino : s'.ino = s.ino + taken
  kept : ∀ entry ∈ s.stored, entry ∈ s'.stored
  files : ∀ entry ∈ copied, entry ∈ s'.stored
  dirs : ∀ d ∈ below, d.Recorded s'
  only : ∀ entry ∈ s'.stored, entry ∈ s.stored ∨ entry ∈ copied ∨ ∃ d ∈ below, d.self = entry.1

theorem HostDir.Recorded.mono {d : HostDir} {s s' : Image} (h : d.Recorded s)
    (hs : ∀ entry ∈ s.stored, entry ∈ s'.stored) : d.Recorded s' := by
  obtain ⟨bytes, hmem, hbytes⟩ := h
  exact ⟨bytes, hs _ hmem, hbytes⟩

theorem Copies.refl (s : Image) : Copies s s 0 [] [] where
  ino := rfl
  kept _ h := h
  files _ h := absurd h List.not_mem_nil
  dirs _ h := absurd h List.not_mem_nil
  only _ h := .inl h

theorem Copies.trans {s s' s'' : Image} {t t' : Nat} {c c' : List (Nat × List Byte)}
    {b b' : List HostDir} (h : Copies s s' t c b) (h' : Copies s' s'' t' c' b') :
    Copies s s'' (t + t') (c ++ c') (b ++ b') := by
  constructor
  · rw [h'.ino, h.ino, Nat.add_assoc]
  · intro entry he
    exact h'.kept entry (h.kept entry he)
  · intro entry he
    rcases List.mem_append.mp he with he | he
    · exact h'.kept entry (h.files entry he)
    · exact h'.files entry he
  · intro d hd
    rcases List.mem_append.mp hd with hd | hd
    · exact (h.dirs d hd).mono h'.kept
    · exact h'.dirs d hd
  · intro entry he
    rcases h'.only entry he with he | he | ⟨d, hd, he⟩
    · rcases h.only entry he with he | he | ⟨d, hd, he⟩
      · exact .inl he
      · exact .inr (.inl (List.mem_append_left _ he))
      · exact .inr (.inr ⟨d, List.mem_append_left _ hd, he⟩)
    · exact .inr (.inl (List.mem_append_right _ he))
    · exact .inr (.inr ⟨d, List.mem_append_right _ hd, he⟩)

theorem Copies.next (s : Image) : Copies s { s with ino := s.ino + 1 } 1 [] [] where
  ino := rfl
  kept _ h := h
  files _ h := absurd h List.not_mem_nil
  dirs _ h := absurd h List.not_mem_nil
  only _ h := .inl h

theorem outcome_setStat_lt {s : Image} {Q : Unit → Image → Prop} {E : Stop → Image → Prop}
    {ino : Nat} {uid : BitVec 32} {size mtime : BitVec 64} {bytes : List Byte} (h : ino < ninodes) :
    Outcome (setStat ino uid size mtime bytes) Q E s ↔
      Q () { s with
        stats := Function.update s.stats ino (control ino uid size mtime)
        stored := s.stored ++ [(ino, bytes)] } := by
  unfold setStat
  rw [if_neg (Nat.not_le.mpr h)]
  exact Iff.rfl

theorem outcome_setStat_le {s : Image} {Q : Unit → Image → Prop} {E : Stop → Image → Prop}
    {ino : Nat} {uid : BitVec 32} {size mtime : BitVec 64} {bytes : List Byte} (h : ninodes ≤ ino) :
    Outcome (setStat ino uid size mtime bytes) Q E s ↔ E .undefined s := by
  unfold setStat
  rw [if_pos h]
  exact Iff.rfl

/-! ## Where mkfs gives up -/

/-- A step takes numbers. It ends as far as mkfs does not give up there, if all goes well, and stops by
itself only where mkfs gives up. -/
def Progresses {α : Type} (m : EStateM Stop Image α) (s : Image) (taken : Nat) (stop : Bool) : Prop :=
  Outcome m (fun _ s' => s'.ino = s.ino + taken ∧ stop = false)
    (fun e _ => e ≠ .undefined → stop = true) s

namespace Progresses

variable {α β : Type} {m : EStateM Stop Image α} {s : Image} {taken taken' : Nat} {stop stop' : Bool}

theorem pure {a : α} : Progresses (Pure.pure a) s 0 false := ⟨rfl, rfl⟩

theorem undefined : Progresses (throw .undefined : EStateM Stop Image α) s taken stop :=
  fun h => absurd rfl h

theorem bind {f : α → EStateM Stop Image β} (h : Progresses m s taken stop)
    (hf : ∀ a s', s'.ino = s.ino + taken → stop = false → Progresses (f a) s' taken' stop') :
    Progresses (m >>= f) s (taken + taken') (stop || stop') := by
  unfold Progresses
  rw [Outcome.bind_iff]
  refine Outcome.mono h (fun a s' hs' => ?_) fun e _ he hne => by rw [he hne, Bool.true_or]
  obtain ⟨hino, rfl⟩ := hs'
  refine (hf a s' hino rfl).mono (fun _ s'' hs'' => ?_) fun _ _ he => he
  exact ⟨by rw [hs''.1, hino, Nat.add_assoc], hs''.2⟩

end Progresses

section

variable {s : Image} {stack : Nat → Buffer} {mtime : BitVec 64} {uid : BitVec 32} {taken : Nat}
  {below : Bool}

theorem progresses_fileTrav (bytes : List Byte) :
    Progresses (fileTrav sparseStore stack bytes mtime uid) s 1 (stopsAt (.file bytes) s.ino below) := by
  have hstop : stopsAt (.file bytes) s.ino below = true ↔ bytes ≠ [] ∧ ninodes ≤ s.ino := by
    simp [stopsAt]
  unfold fileTrav Progresses
  simp only [Outcome.bind_iff, outcome_nextIno]
  refine (outcome_fileLoop_frame fun hne hle _ _ => hstop.mpr ⟨hne, hle⟩).post
    fun total s' hpost => ?_
  obtain ⟨-, file, rfl⟩ := hpost
  rcases Nat.lt_or_ge s.ino ninodes with hlt | hge
  · rw [outcome_setStat_lt hlt]
    exact ⟨rfl, Bool.eq_false_iff.mpr fun h => absurd (hstop.mp h).2 (Nat.not_le.mpr hlt)⟩
  · rw [outcome_setStat_le hge]
    exact fun h => absurd rfl h

theorem progresses_dirTrav {loop : Fid → BitVec 32 → Entries → EStateM Stop Image Entries}
    {parent : Fid} (skip : Bool) (uidFile : Option (BitVec 32))
    (hloop : ∀ self uid entries,
      Progresses (loop self uid entries) { s with ino := s.ino + 1 } taken below) :
    Progresses (dirTrav sparseStore loop parent skip uidFile mtime uid) s
      (inodesOf (.dir skip uidFile) taken) (stopsAt (.dir skip uidFile) s.ino below) := by
  unfold dirTrav Progresses
  simp only [Outcome.bind_iff, outcome_nextIno]
  cases skip with
  | true => exact ⟨rfl, rfl⟩
  | false =>
    have hstop : stopsAt (.dir false uidFile) s.ino below = true ↔
        below = true ∨ ninodes ≤ s.ino := by simp [stopsAt]
    simp only [Bool.false_eq_true, if_false, Outcome.bind_iff]
    refine Outcome.mono (hloop _ _ _) (fun entries t ht => ?_)
      fun e _ he hne => hstop.mpr (.inl (he hne))
    obtain ⟨hino, hbelow⟩ := ht
    refine (outcome_writeLoop s.ino (fun hle _ _ => hstop.mpr (.inr hle)) entries.buffer
      (writeBlocks_zero t.disk _ _ _).symm).post fun _ t' hboth => ?_
    obtain ⟨-, rfl⟩ := hboth
    rcases Nat.lt_or_ge s.ino ninodes with hlt | hge
    · rw [outcome_setStat_lt hlt]
      refine ⟨?_, Bool.eq_false_iff.mpr fun h => ?_⟩
      · change t.ino = s.ino + (1 + taken)
        rw [hino]
        exact Nat.add_assoc _ _ _
      · rcases hstop.mp h with h | h
        · rw [hbelow] at h
          cases h
        · exact absurd h (Nat.not_le.mpr hlt)
    · rw [outcome_setStat_le hge]
      exact fun h => absurd rfl h

theorem progresses_trav {loop : Fid → BitVec 32 → Entries → EStateM Stop Image Entries}
    (node : Node) {parent : Fid} {name : List Byte} {buffer : Buffer} {room pos : Nat}
    (hloop : ∀ self uid entries,
      Progresses (loop self uid entries) { s with ino := s.ino + 1 } taken below) :
    Progresses (trav sparseStore stack loop node mtime parent name uid buffer room pos) s
      (inodesOf node taken) (stopsAt node s.ino below) := by
  have hcopy {m : EStateM Stop Image Nat} {n : Nat} {stop : Bool} {f : Buffer → Nat → Buffer}
      {name : List Byte} (hm : Progresses m s n stop) : Progresses (do
        let buffer ← strcpy buffer room (pos + 8) name
        let fileNo ← m
        return f buffer fileNo) s n stop := by
    unfold strcpy
    split
    · have h := hm.bind fun fileNo _ _ _ =>
        .pure (a := f (overlay buffer (pos + 8) (name ++ [0])) fileNo)
      rwa [Nat.add_zero, Bool.or_false] at h
    · exact .undefined
  unfold trav
  cases node with
  | file bytes => exact hcopy (progresses_fileTrav bytes)
  | dir skip uidFile => exact hcopy (progresses_dirTrav skip uidFile hloop)
  | weird => exact .pure
  | unreadable => exact fun _ => rfl

end

theorem progresses_readdirLoop (stack : Nat → Buffer) (listing : Listing) (s : Image) (self : Fid)
    (uid : BitVec 32) (entries : Entries) :
    Progresses (readdirLoop sparseStore stack listing self uid entries) s (inodes listing false)
      (stops listing false s.ino) := by
  induction listing generalizing s self uid entries with
  | done => exact .pure
  | entry name node mtime child next ihChild ihNext =>
    unfold readdirLoop
    rw [inodes, stops]
    by_cases hkept : kept false name = true
    · have hdot : name.head? ≠ some 0x2e := by simpa [kept] using hkept
      rw [if_neg hdot, if_pos hkept, if_pos hkept]
      split
      · exact .undefined
      · refine Progresses.bind (progresses_trav node fun self uid entries => ?_)
          fun buffer s' hs' _ => ?_
        · exact ihChild { s with ino := s.ino + 1 } self uid entries
        · rw [← hs']
          exact ihNext s' self uid _
    · have hdot : name.head? = some 0x2e := by simpa [kept] using hkept
      rw [if_pos hdot, if_neg hkept, if_neg hkept, Nat.zero_add]
      exact ihNext s self uid entries

theorem progresses_argLoop (stack : Nat → Buffer) (uid : BitVec 32) (args : Listing) (s : Image)
    (de : Buffer) :
    Progresses (argLoop sparseStore stack uid args de) s (inodes args true)
      (stops args true s.ino) := by
  induction args generalizing s de with
  | done => exact .pure
  | entry name node mtime child next _ ihNext =>
    unfold argLoop
    rw [inodes, stops, if_pos (show kept true name = true from rfl),
      if_pos (show kept true name = true from rfl)]
    refine Progresses.bind (progresses_trav node fun self uid entries => ?_) fun buffer s' hs' _ => ?_
    · exact progresses_readdirLoop stack child { s with ino := s.ino + 1 } self uid entries
    · rw [← hs']
      exact ihNext s' buffer

/-! ## What is stored -/

section

variable {s : Image} {stack : Nat → Buffer} {mtime : BitVec 64} {uid : BitVec 32}

theorem outcome_fileTrav (bytes : List Byte) :
    Outcome (fileTrav sparseStore stack bytes mtime uid)
      (fun n s' => n = s.ino ∧ s.ino < ninodes ∧ Copies s s' 1 [(s.ino, bytes)] [])
      (fun e _ => (bytes = [] → s.ino < ninodes) → e ≠ .undefined) s := by
  unfold fileTrav
  simp only [Outcome.bind_iff, outcome_nextIno]
  refine (outcome_fileLoop_frame fun _ _ _ _ => by simp).post fun total s' hpost => ?_
  obtain ⟨hwritten, file, rfl⟩ := hpost
  rcases Nat.lt_or_ge s.ino ninodes with hlt | hge
  · rw [outcome_setStat_lt hlt]
    refine ⟨rfl, hlt, rfl, ?_, ?_, by simp, ?_⟩
    · intro entry he
      exact List.mem_append_left _ he
    · intro entry he
      exact List.mem_append_right _ he
    · intro entry he
      rcases List.mem_append.mp he with he | he
      · exact .inl he
      · exact .inr (.inl he)
  · -- nothing has been written
    have hempty : bytes = [] := by
      by_contra hne
      exact absurd (hwritten (List.length_pos_iff.mpr hne) hne) (Nat.not_lt.mpr hge)
    rw [outcome_setStat_le hge]
    exact fun hnum => absurd (hnum hempty) (Nat.not_lt.mpr hge)

/-- What the loop over the entries of a directory should have done. -/
structure Listed (p : Nat) (done : List (List Byte × Nat)) (listing : Listing) (s : Image)
    (entries : Entries) (s' : Image) : Prop where
  fits : UpToStop Visit.Fits listing false s.ino done.length
  filled : Filled entries (done ++ table listing s.ino)
  copies : Copies s s' (inodes listing false) (files listing false s.ino) (dirs listing false p s.ino)

/-- The loop over the entries of a directory has done what it should, or goes wrong at one that does
not fit. -/
def ListsAll (loop : Fid → BitVec 32 → Entries → EStateM Stop Image Entries) (child : Listing)
    (p : Nat) (s : Image) : Prop :=
  ∀ uid, Outcome
    (loop ⟨0, BitVec.ofNat 32 s.ino⟩ uid
      ⟨firstEntries ⟨0, BitVec.ofNat 32 s.ino⟩ ⟨0, BitVec.ofNat 32 p⟩, 2⟩)
    (Listed s.ino [(selfName, s.ino), (parentName, p)] child { s with ino := s.ino + 1 })
    (fun e _ => UpToStop Visit.Fits child false (s.ino + 1) 2 → e ≠ .undefined)
    { s with ino := s.ino + 1 }

variable {loop : Fid → BitVec 32 → Entries → EStateM Stop Image Entries} {child : Listing} {p : Nat}

theorem outcome_dirTrav (skip : Bool) (uidFile : Option (BitVec 32))
    (hloop : skip = false → ListsAll loop child p s) :
    Outcome (dirTrav sparseStore loop ⟨0, BitVec.ofNat 32 p⟩ skip uidFile mtime uid)
      (fun n s' => n = (if skip then 0 else s.ino) ∧ (skip = false → s.ino < ninodes) ∧
        (skip = false → UpToStop Visit.Fits child false (s.ino + 1) 2) ∧
        Copies s s' (inodesOf (.dir skip uidFile) (inodes child false))
          (filesOf (.dir skip uidFile) s.ino (files child false (s.ino + 1)))
          (dirsOf (.dir skip uidFile) ⟨s.ino, p, child⟩ (dirs child false s.ino (s.ino + 1))))
      (fun e _ => (skip = false → UpToStop Visit.Fits child false (s.ino + 1) 2) →
        e ≠ .undefined) s := by
  unfold dirTrav
  simp only [Outcome.bind_iff, outcome_nextIno]
  cases skip with
  | true => exact ⟨rfl, by simp, by simp, Copies.next s⟩
  | false =>
    simp only [Bool.false_eq_true, if_false, Outcome.bind_iff]
    refine Outcome.mono (hloop rfl _) (fun entries t hlisted => ?_) fun _ _ he hfits =>
      he (hfits trivial)
    have hfilled := hlisted.filled
    have hcopies := hlisted.copies
    refine (outcome_writeLoop s.ino (fun _ _ _ => by simp) entries.buffer
      (writeBlocks_zero t.disk _ _ _).symm).post fun _ t' hboth => ?_
    obtain ⟨hwritten, ht'⟩ := hboth
    have hlt : s.ino < ninodes := by
      apply hwritten
      have htwo : 2 ≤ entries.index := by
        rw [hfilled.index, List.length_append]
        exact Nat.le_add_right _ _
      unfold dirEntrySize blockSize
      omega
    subst ht'
    rw [outcome_setStat_lt hlt]
    refine ⟨rfl, fun _ => hlt, fun _ => hlisted.fits, ?_⟩
    have hslots := hfilled.slotsOf_eq
    have hwhole : ((List.range (entries.index * dirEntrySize)).map entries.buffer).length %
        Dirsvr.dirEntrySize = 0 := by
      rw [List.length_map, List.length_range]
      exact Nat.mul_mod_left _ _
    generalize (List.range (entries.index * dirEntrySize)).map entries.buffer = bytes at hslots hwhole
    constructor
    · change t.ino = _
      rw [hcopies.ino, Nat.add_assoc]
      rfl
    · intro entry he
      exact List.mem_append_left _ (hcopies.kept entry he)
    · intro entry he
      exact List.mem_append_left _ (hcopies.files entry he)
    · intro d hd
      rcases List.mem_cons.mp hd with rfl | hd
      · exact ⟨bytes, List.mem_append_right _ List.mem_cons_self, hwhole, hslots⟩
      · exact (hcopies.dirs d hd).mono fun entry he => List.mem_append_left _ he
    · intro entry he
      rcases List.mem_append.mp he with he | he
      · rcases hcopies.only entry he with he | he | ⟨d, hd, he⟩
        · exact .inl he
        · exact .inr (.inl he)
        · exact .inr (.inr ⟨d, List.mem_cons_of_mem _ hd, he⟩)
      · obtain rfl := List.mem_singleton.mp he
        exact .inr (.inr ⟨_, List.mem_cons_self, rfl⟩)

theorem outcome_strcpy {buffer : Buffer} {room pos : Nat} {name : List Byte}
    {Q : Buffer → Image → Prop} {E : Stop → Image → Prop}
    (hQ : pos + name.length + 1 ≤ room → Q (overlay buffer pos (name ++ [0])) s)
    (hE : room < pos + name.length + 1 → E .undefined s) :
    Outcome (strcpy buffer room pos name) Q E s := by
  unfold strcpy
  split
  · rename_i h
    exact hQ h
  · rename_i h
    exact hE (Nat.not_le.mp h)

theorem outcome_trav {v : Visit} (hnumber : v.number = s.ino) (hshort : v.Short)
    (hloop : ∀ uidFile, v.node = .dir false uidFile → ListsAll loop child p s) {buffer : Buffer} :
    Outcome (trav sparseStore stack loop v.node mtime ⟨0, BitVec.ofNat 32 p⟩ v.name uid buffer v.room
        (v.place * dirEntrySize))
      (fun buffer' s' => v.Fits ∧
        (∀ uidFile, v.node = .dir false uidFile →
          UpToStop Visit.Fits child false (s.ino + 1) 2) ∧
        buffer' = (if named v.node then
          entryAt buffer (v.place * dirEntrySize) v.label (if listed v.node then s.ino else 0)
          else buffer) ∧
        (listed v.node = true → s.ino < ninodes) ∧
        Copies s s' (inodesOf v.node (inodes child false))
          (filesOf v.node s.ino (files child false (s.ino + 1)))
          (dirsOf v.node ⟨s.ino, p, child⟩ (dirs child false s.ino (s.ino + 1))))
      (fun e _ => v.Fits ∧ (∀ uidFile, v.node = .dir false uidFile →
        UpToStop Visit.Fits child false (s.ino + 1) 2) → e ≠ .undefined) s := by
  obtain ⟨top, node, name, n, i⟩ := v
  dsimp only at hnumber hloop ⊢
  subst hnumber
  have hfits (hnum : node = .file [] → s.ino < ninodes)
      (hroom : named node = true → i * dirEntrySize + 8 + (nameFor node name).length + 1 ≤
        Visit.room ⟨top, node, name, s.ino, i⟩) : Visit.Fits ⟨top, node, name, s.ino, i⟩ := by
    refine ⟨fun hnamed => ?_, fun hnamed => ?_, hnum⟩
    · have hin := hroom hnamed
      cases top with
      | false => exact hshort rfl hnamed
      | true =>
        change _ ≤ dirEntrySize at hin
        change (nameFor node name).length ≤ dirNameSize
        unfold dirEntrySize at hin
        unfold dirNameSize
        omega
    · have hin := hroom hnamed
      change i * dirEntrySize + 9 + (nameFor node name).length ≤ _
      omega
  unfold trav
  cases node with
  | file bytes =>
    dsimp only
    rw [Outcome.bind_iff]
    refine outcome_strcpy (fun hin => ?_) fun hout hall => ?_
    · rw [Outcome.bind_iff]
      refine Outcome.mono (outcome_fileTrav bytes) (fun n s' hpost => ?_) fun e _ he hall => ?_
      · obtain ⟨rfl, hlt, hcopies⟩ := hpost
        exact ⟨hfits (fun _ => hlt) fun _ => hin, (by intro _ h; cases h), rfl, fun _ => hlt, hcopies⟩
      · exact he fun hempty => hall.1.numbered (congrArg Node.file hempty)
    · have hroom := hall.1.room rfl
      change i * dirEntrySize + 9 + name.length ≤ _ at hroom
      omega
  | dir skip uidFile =>
    dsimp only
    rw [Outcome.bind_iff]
    refine outcome_strcpy (fun hin => ?_) fun hout hall => ?_
    · rw [Outcome.bind_iff]
      have hlists (hskip : skip = false) : ListsAll loop child p s := by
        subst hskip
        exact hloop uidFile rfl
      refine Outcome.mono (outcome_dirTrav skip uidFile hlists) (fun n s' hpost => ?_)
        fun e _ he hall => ?_
      · obtain ⟨rfl, hlt, hbelow, hcopies⟩ := hpost
        refine ⟨hfits (by intro h; cases h) fun _ => hin, ?_, ?_, ?_, hcopies⟩
        · intro _ hnode
          cases hnode
          exact hbelow rfl
        · cases skip <;> rfl
        · intro hlisted
          cases skip with
          | true => cases hlisted
          | false => exact hlt rfl
      · exact he fun hskip => hall.2 uidFile (by rw [hskip])
    · have hroom := hall.1.room rfl
      change i * dirEntrySize + 9 + (name ++ dirSuffix).length ≤ _ at hroom
      omega
  | weird =>
    exact ⟨hfits (by intro h; cases h) (by intro h; cases h), (by intro _ h; cases h), rfl,
      (by intro h; cases h), Copies.refl s⟩
  | unreadable => simp

end

/-- A directory as the host has it. -/
structure Admissible (d : HostDir) : Prop where
  names : HostNames d.listing
  count : 2 + count d.listing ≤ maxDirEntries

/-- What is left of the directory `p` from entry `i` on, if `n` is the next inode. -/
structure Copyable (listing : Listing) (p n i : Nat) : Prop where
  names : HostNames listing
  count : i + count listing ≤ maxDirEntries
  below : ∀ d ∈ dirs listing false p n, Admissible d

section

variable {name : List Byte} {node : Node} {mtime : BitVec 64} {child next : Listing} {p n i : Nat}

theorem Copyable.of_not_kept (h : Copyable (.entry name node mtime child next) p n i)
    (hkept : kept false name = false) : Copyable next p n i := by
  have hcount := h.count
  have hbelow := h.below
  simp only [Mkfs.count, dirs, hkept, Bool.false_eq_true, if_false, Nat.zero_add] at hcount hbelow
  exact ⟨h.names.2, hcount, hbelow⟩

/-- A name of the host, with its suffix, can be that of an entry if it is short enough. -/
theorem entryName_nameFor (hname : name ≠ [] ∧ ∀ b ∈ name, b ≠ 0)
    (hshort : (nameFor node name).length ≤ dirNameSize) : EntryName (nameFor node name) := by
  obtain ⟨hne, hnonzero⟩ := hname
  cases node with
  | dir skip uidFile =>
    refine ⟨List.append_ne_nil_of_left_ne_nil hne _, fun b hb => ?_, hshort⟩
    rcases List.mem_append.mp hb with hb | hb
    · exact hnonzero b hb
    · have hsuffix : ∀ b ∈ dirSuffix, b ≠ 0 := by decide +kernel
      exact hsuffix b hb
  | file bytes => exact ⟨hne, hnonzero, hshort⟩
  | weird => exact ⟨hne, hnonzero, hshort⟩
  | unreadable => exact ⟨hne, hnonzero, hshort⟩

variable (h : Copyable (.entry name node mtime child next) p n i) (hkept : kept false name = true)

include h hkept

theorem Copyable.room : i < maxDirEntries := by
  have hcount := h.count
  simp only [Mkfs.count, hkept, if_true] at hcount
  omega

theorem Copyable.of_kept : Copyable next p (n + inodesOf node (inodes child false))
    (if listed node then i + 1 else i) := by
  have hcount := h.count
  have hbelow := h.below
  simp only [Mkfs.count, dirs, hkept, if_true] at hcount hbelow
  constructor
  · exact h.names.2
  · split <;> omega
  · intro d hd
    exact hbelow d (List.mem_append_right _ hd)

theorem Copyable.of_dir {uidFile : Option (BitVec 32)} (hnode : node = .dir false uidFile) :
    Copyable child n (n + 1) 2 := by
  subst hnode
  have hbelow := h.below
  simp only [dirs, dirsOf, hkept, if_true, Bool.false_eq_true, if_false] at hbelow
  have hself := hbelow ⟨n, p, child⟩ (List.mem_append_left _ List.mem_cons_self)
  exact ⟨hself.names, hself.count, fun d hd =>
    hbelow d (List.mem_append_left _ (List.mem_cons_of_mem _ hd))⟩

end

theorem toNat_number {n : Nat} (hpos : 0 < n) (hlt : n < ninodes) : (BitVec.ofNat 32 n).toNat ≠ 0 := by
  have hmax : ninodes = 4096 := rfl
  rw [BitVec.toNat_ofNat, Nat.mod_eq_of_lt (by omega)]
  omega

theorem Filled.entry {entries : Entries} {done : List (List Byte × Nat)} (h : Filled entries done)
    {node : Node} {name : List Byte} {n : Nat} {buffer : Buffer} (hpos : 0 < n)
    (hlt : listed node = true → n < ninodes) (hroom : done.length < maxDirEntries)
    (hname : named node = true → EntryName (nameFor node name))
    (hbuffer : buffer = if named node then entryAt entries.buffer (entries.index * dirEntrySize)
      (nameFor node name) (if listed node then n else 0) else entries.buffer) :
    Filled ⟨buffer, if get32 buffer (entries.index * dirEntrySize + 4) ≠ 0 then entries.index + 1
      else entries.index⟩ (done ++ if listed node then [(nameFor node name, n)] else []) := by
  have hpush (hl : listed node = true) (hn : named node = true) :
      Filled ⟨buffer, if get32 buffer (entries.index * dirEntrySize + 4) ≠ 0 then entries.index + 1
        else entries.index⟩ (done ++ [(nameFor node name, n)]) := by
    rw [if_pos hn, if_pos hl] at hbuffer
    subst hbuffer
    rw [entryAt_number, if_pos (toNat_number hpos (hlt hl))]
    exact h.push (hname hn) n
  have hsame (hn : named node = false) :
      Filled ⟨buffer, if get32 buffer (entries.index * dirEntrySize + 4) ≠ 0 then entries.index + 1
        else entries.index⟩ (done ++ []) := by
    rw [hn, if_neg Bool.false_ne_true] at hbuffer
    subst hbuffer
    rw [h.index, h.rest _ (Nat.le_refl _) hroom, if_neg (not_not.mpr rfl), List.append_nil, ← h.index]
    exact h
  cases node with
  | file bytes => exact hpush rfl rfl
  | dir skip uidFile =>
    cases skip with
    | true =>
      change buffer = entryAt entries.buffer _ _ 0 at hbuffer
      subst hbuffer
      change Filled _ (done ++ [])
      rw [entryAt_number, if_neg (show ¬(0#32).toNat ≠ 0 from not_not.mpr rfl), List.append_nil]
      exact h.drop (hname rfl).short
    | false => exact hpush rfl rfl
  | weird => exact hsame rfl
  | unreadable => exact hsame rfl

/-- The loop over the entries of a directory stores the directories below and lists them all, if their
names are short enough. -/
theorem outcome_readdirLoop (stack : Nat → Buffer) (listing : Listing) {s : Image} {p : Nat}
    {entries : Entries} {done : List (List Byte × Nat)} (hpos : 0 < s.ino)
    (hfilled : Filled entries done) (h : Copyable listing p s.ino done.length)
    (hshort : UpToStop Visit.Short listing false s.ino done.length) (uid : BitVec 32) :
    Outcome (readdirLoop sparseStore stack listing ⟨0, BitVec.ofNat 32 p⟩ uid entries)
      (Listed p done listing s)
      (fun e _ => UpToStop Visit.Fits listing false s.ino done.length → e ≠ .undefined) s := by
  induction listing generalizing s p entries done uid with
  | done =>
    refine ⟨trivial, ?_, Copies.refl s⟩
    rw [table, List.append_nil]
    exact hfilled
  | entry name node mtime child next ihChild ihNext =>
    unfold readdirLoop
    rw [UpToStop] at hshort ⊢
    by_cases hkept : kept false name = true
    · have hdot : name.head? ≠ some 0x2e := by simpa [kept] using hkept
      have hroom := h.room hkept
      have hindex := hfilled.index
      rw [if_pos hkept] at hshort ⊢
      rw [if_neg hdot, if_neg (by omega), Outcome.bind_iff]
      obtain ⟨hhead, hbelow, hrest⟩ := hshort
      have hlists (uidFile : Option (BitVec 32)) (hnode : node = .dir false uidFile) :
          ListsAll (readdirLoop sparseStore stack child) child p s := fun uid =>
        ihChild (s := { s with ino := s.ino + 1 }) (Nat.succ_pos _) (filled_firstEntries _ _)
          (h.of_dir hkept hnode) (hbelow uidFile hnode) uid
      have hprogress : Progresses (trav sparseStore stack (readdirLoop sparseStore stack child) node
          mtime ⟨0, BitVec.ofNat 32 p⟩ name uid entries.buffer (maxDirEntries * dirEntrySize)
          (entries.index * dirEntrySize)) s _ _ :=
        progresses_trav node fun self uid entries =>
          progresses_readdirLoop stack child { s with ino := s.ino + 1 } self uid entries
      rw [hindex] at hprogress ⊢
      have htrav := Outcome.both hprogress
        (outcome_trav (v := ⟨false, node, name, s.ino, done.length⟩) rfl hhead hlists)
      refine htrav.mono (fun buffer s₁ hpost => ?_) fun e _ he hall =>
        he.2 ⟨hall.1, hall.2.1⟩
      obtain ⟨⟨-, hgo⟩, hfits, hfitsBelow, hbuffer, hlt, hcopies⟩ := hpost
      have hnext : Filled
          ⟨buffer, if get32 buffer (entries.index * dirEntrySize + 4) ≠ 0 then entries.index + 1
            else entries.index⟩ (done ++ if listed node then [(nameFor node name, s.ino)] else []) := by
        refine hfilled.entry hpos hlt hroom (fun hnamed =>
          entryName_nameFor h.names.1 (hfits.field hnamed)) ?_
        rw [hindex]
        exact hbuffer
      have hleft := h.of_kept hkept
      have hlength : (done ++ if listed node then [(nameFor node name, s.ino)] else []).length =
          if !false && listed node then done.length + 1 else done.length := by
        cases listed node <;> simp
      rw [← hcopies.ino] at hleft hrest
      rw [hindex] at hnext
      refine Outcome.mono (ihNext (by rw [hcopies.ino]; omega) hnext (by rw [hlength]; exact hleft)
        (by rw [hlength]; exact hrest hgo) uid) (fun entries' s₂ h₂ => ?_) fun _ _ he hall => ?_
      · have hfitsNext := h₂.fits
        have hfilledNext := h₂.filled
        have hcopiesNext := h₂.copies
        rw [hlength] at hfitsNext
        rw [hcopies.ino] at hfitsNext hfilledNext hcopiesNext
        constructor
        · rw [UpToStop, if_pos hkept]
          exact ⟨hfits, hfitsBelow, fun _ => hfitsNext⟩
        · rw [table, if_pos hkept, ← List.append_assoc]
          exact hfilledNext
        · rw [inodes, files, dirs, if_pos hkept, if_pos hkept, if_pos hkept]
          exact hcopies.trans hcopiesNext
      · rw [hlength, hcopies.ino] at he
        exact he (hall.2.2 hgo)
    · have hdot : name.head? = some 0x2e := by simpa [kept] using hkept
      have hout := Bool.eq_false_iff.mpr hkept
      rw [if_neg hkept] at hshort ⊢
      rw [if_pos hdot]
      refine (ihNext hpos hfilled (h.of_not_kept hout) hshort uid).post fun entries' s' h' => ?_
      refine ⟨?_, ?_, ?_⟩
      · rw [UpToStop, if_neg hkept]
        exact h'.fits
      · rw [table, if_neg hkept]
        exact h'.filled
      · rw [inodes, files, dirs, if_neg hkept, if_neg hkept, if_neg hkept, Nat.zero_add]
        exact h'.copies

theorem outcome_argLoop (stack : Nat → Buffer) (uid : BitVec 32) (args : Listing) {s : Image}
    (hbelow : ∀ d ∈ dirs args true 0 s.ino, Admissible d)
    (hshort : UpToStop Visit.Short args true s.ino 0) (de : Buffer) :
    Outcome (argLoop sparseStore stack uid args de)
      (fun _ s' => UpToStop Visit.Fits args true s.ino 0 ∧
        Copies s s' (inodes args true) (files args true s.ino) (dirs args true 0 s.ino))
      (fun e _ => UpToStop Visit.Fits args true s.ino 0 → e ≠ .undefined) s := by
  induction args generalizing s de with
  | done => exact ⟨trivial, Copies.refl s⟩
  | entry name node mtime child next _ ihNext =>
    have hkept : kept true name = true := rfl
    unfold argLoop
    rw [UpToStop, if_pos hkept] at hshort ⊢
    rw [dirs, if_pos hkept] at hbelow
    obtain ⟨hhead, hshortBelow, hrest⟩ := hshort
    rw [Outcome.bind_iff]
    have hlists (uidFile : Option (BitVec 32)) (hnode : node = .dir false uidFile) :
        ListsAll (readdirLoop sparseStore stack child) child 0 s := fun uid => by
      subst hnode
      have hself := hbelow ⟨s.ino, 0, child⟩ (List.mem_append_left _ List.mem_cons_self)
      exact outcome_readdirLoop stack child (Nat.succ_pos _) (filled_firstEntries _ _)
        ⟨hself.names, hself.count, fun d hd =>
          hbelow d (List.mem_append_left _ (List.mem_cons_of_mem _ hd))⟩
        (hshortBelow uidFile rfl) uid
    have hprogress : Progresses (trav sparseStore stack (readdirLoop sparseStore stack child) node
        mtime ⟨0, 0⟩ name uid de dirEntrySize 0) s _ _ :=
      progresses_trav node fun self uid entries =>
        progresses_readdirLoop stack child { s with ino := s.ino + 1 } self uid entries
    have htrav := Outcome.both hprogress
      (outcome_trav (v := ⟨true, node, name, s.ino, 0⟩) rfl hhead hlists)
    refine htrav.mono (fun buffer s₁ hpost => ?_) fun e _ he hall =>
      he.2 ⟨hall.1, hall.2.1⟩
    obtain ⟨⟨-, hgo⟩, hfits, hfitsBelow, -, -, hcopies⟩ := hpost
    rw [← hcopies.ino] at hbelow hrest
    refine Outcome.mono (ihNext (fun d hd => hbelow d (List.mem_append_right _ hd)) (hrest hgo) buffer)
      (fun _ s₂ h₂ => ?_) fun _ _ he hall => ?_
    · rw [hcopies.ino] at h₂
      rw [inodes, files, dirs, if_pos hkept, if_pos hkept, if_pos hkept]
      exact ⟨⟨hfits, hfitsBelow, fun _ => h₂.1⟩, hcopies.trans h₂.2⟩
    · rw [hcopies.ino] at he
      exact he (hall.2.2 hgo)

/-- The end of mkfs, where the table of control blocks is written. -/
@[irreducible] def writeTable (uid : BitVec 32) (now : BitVec 64) : EStateM Stop Image Unit := do
  let size := ninodes * FileControlBlock.sizeof
  modify fun s => { s with
    stats := Function.update s.stats 0 (control 0 uid (BitVec.ofNat 64 size) now) }
  let s ← get
  writeLoop sparseStore 0 (statsImage s.stats) 0 ((size + (blockSize - 1)) / blockSize)
  let _ ← onPart State.disk (fun s disk => { s with disk := disk }) (sparseStore.sync allInodes)

theorem outcome_writeTable (uid : BitVec 32) (now : BitVec 64) (s : Image) :
    Outcome (writeTable uid now) (fun _ s' => s'.stored = s.stored) (fun _ _ => False) s := by
  unfold writeTable
  dsimp only
  generalize (ninodes * FileControlBlock.sizeof + (blockSize - 1)) / blockSize = n
  simp only [Outcome.bind_iff, Outcome.modify_iff, Outcome.get_iff]
  refine Outcome.post (outcome_writeLoop 0 (fun hle => absurd hle (by decide)) _
    (writeBlocks_zero s.disk 0 _ _).symm) fun _ s₂ hpost => ?_
  obtain ⟨_, rfl⟩ := hpost
  apply outcome_onPart
  exact rfl

section

variable (stack : Nat → Buffer) {args : Listing} (uid : BitVec 32) (de : Buffer) (now : BitVec 64)

theorem main_eq : main sparseStore stack args uid de now =
    argLoop sparseStore stack uid args de >>= fun _ => writeTable uid now := by
  unfold main writeTable
  rfl

theorem main_returns {s : Image} :
    Outcome (main sparseStore stack args uid de now) (fun _ _ => stops args true s.ino = false)
      (fun e _ => e ≠ .undefined → stops args true s.ino = true) s := by
  rw [main_eq]
  refine Outcome.seq
    (Outcome.mono (progresses_argLoop stack uid args s de) (fun _ _ h => h) fun _ _ he => he)
    fun _ s₁ hs₁ => Outcome.mono (outcome_writeTable uid now s₁) (fun _ _ _ => hs₁.2)
      fun _ _ he => he.elim

/-- mkfs as a whole: the table of control blocks comes last. -/
theorem outcome_main {s : Image} (hbelow : ∀ d ∈ dirs args true 0 s.ino, Admissible d)
    (hshort : UpToStop Visit.Short args true s.ino 0) :
    Outcome (main sparseStore stack args uid de now)
      (fun _ s' => UpToStop Visit.Fits args true s.ino 0 ∧ ∃ s₁, Copies s s₁ (inodes args true)
        (files args true s.ino) (dirs args true 0 s.ino) ∧ s'.stored = s₁.stored)
      (fun e _ => UpToStop Visit.Fits args true s.ino 0 → e ≠ .undefined) s := by
  rw [main_eq]
  refine Outcome.seq
    (outcome_argLoop stack uid args hbelow hshort de) fun _ s₁ hs₁ =>
      Outcome.mono (outcome_writeTable uid now s₁) (fun _ _ hstored => ?_) fun _ _ he => he.elim
  exact ⟨hs₁.1, s₁, hs₁.2, hstored⟩

end

end Egos.File.Mkfs
