import Egos.User.Passwords

/-!
# Which lines of the password file change

In a file of whole lines that fit the buffer these are the lines of the user for which `pwdcmp`
accepts the old password. They store it, unless it is the master password.
-/
namespace Egos.Pwdsvr

open Egos.Lib Egos.Disk

set_option autoImplicit false

/-! ## Lines and readings -/

/-- Each line fits the buffer, has a newline behind it and no NUL in it. -/
def WholeLines (file : List Byte) : Prop :=
  ∃ lines, file = joined lines ∧
    ∀ line ∈ lines, line.length < maxLineSize - 1 ∧ newline ∉ line ∧ 0 ∉ line

/-- What the server takes for the lines of the file. -/
def pieces (file : List Byte) : List (List Byte) :=
  (readings (file.length + 1) file).map textRead

theorem linesOf_joined {lines : List (List Byte)} (h : ∀ line ∈ lines, newline ∉ line) :
    linesOf (joined lines) = lines ++ [[]] := by
  induction lines with
  | nil => rfl
  | cons line lines ih =>
    have htail := ih fun line hline => h line (List.mem_cons_of_mem _ hline)
    unfold linesOf at htail ⊢
    rw [joined_cons, List.splitOn_append_cons_self_of_not_mem (h line List.mem_cons_self), htail]
    rfl

theorem length_linesOf_append {piece : List Byte} (h : newline ∉ piece) (rest : List Byte) :
    (linesOf (piece ++ rest)).length = (linesOf rest).length := by
  induction piece with
  | nil => rfl
  | cons c piece ih =>
    rw [List.mem_cons, not_or] at h
    obtain ⟨hc, htail⟩ := h
    have hne : (c == newline) = false := beq_eq_false_iff_ne.mpr fun heq => hc heq.symm
    have hlen := ih htail
    unfold linesOf at hlen ⊢
    rw [List.cons_append, List.splitOn_cons_eq_if_modifyHead, hne, if_neg Bool.false_ne_true,
      List.length_modifyHead, hlen]

theorem length_linesOf_readings {reads : List (List Byte)} (h : ∀ read ∈ reads, Reading read) :
    (linesOf reads.flatten).length = reads.countP (fun read => decide (newline ∈ read)) + 1 := by
  induction reads with
  | nil => rfl
  | cons read reads ih =>
    have htail := ih fun read hread => h read (List.mem_cons_of_mem _ hread)
    rw [List.flatten_cons]
    rcases (h read List.mem_cons_self).newline with ⟨line, rfl, hline⟩ | hnone
    · have hmem : newline ∈ line ++ [newline] := List.mem_append_right _ List.mem_cons_self
      unfold linesOf at htail ⊢
      rw [List.append_assoc, List.singleton_append, List.splitOn_append_cons_self_of_not_mem hline,
        List.length_cons, htail, List.countP_cons, if_pos (decide_eq_true hmem)]
    · rw [length_linesOf_append hnone, htail, List.countP_cons, if_neg (by simpa using hnone),
        Nat.add_zero]

theorem readings_spec {left : Nat} {rest : List Byte} (h : rest.length < left) :
    (readings left rest).flatten = rest ∧ ∀ read ∈ readings left rest, Reading read := by
  induction left generalizing rest with
  | zero => exact absurd h (Nat.not_lt_zero _)
  | succ left ih =>
    rw [readings]
    by_cases hend : (fgets (maxLineSize - 1) rest).isEmpty = true
    · rw [if_pos hend]
      refine ⟨?_, fun read hread => absurd hread List.not_mem_nil⟩
      cases rest with
      | nil => rfl
      | cons c rest =>
        rw [show maxLineSize - 1 = 254 + 1 from rfl, fgets] at hend
        split at hend <;> cases hend
    · rw [if_neg hend]
      have hread := reading_fgets (Bool.eq_false_of_not_eq_true hend)
      have hpos := List.length_pos_iff.mpr hread.ne_nil
      obtain ⟨more, hmore⟩ := fgets_isInitial (maxLineSize - 1) rest
      have hdrop : rest.drop (fgets (maxLineSize - 1) rest).length = more := by
        generalize fgets (maxLineSize - 1) rest = read at hmore
        rw [← hmore, List.drop_left]
      have hshort : more.length < left := by
        have hlen := congrArg List.length hmore
        rw [List.length_append] at hlen
        omega
      obtain ⟨hflat, hall⟩ := ih hshort
      rw [hdrop]
      constructor
      · rw [List.flatten_cons, hflat, hmore]
      · intro read hmem
        rcases List.mem_cons.mp hmem with rfl | htail
        · exact hread
        · exact hall read htail

theorem lines_of_readings {reads : List (List Byte)} (h : ∀ read ∈ reads, Reading read)
    (hall : ∀ read ∈ reads, newline ∈ read) :
    ∃ lines : List (List Byte), reads = lines.map (· ++ [newline]) ∧
      ∀ line ∈ lines, line.length < maxLineSize - 1 ∧ newline ∉ line := by
  induction reads with
  | nil => exact ⟨[], rfl, fun line hline => absurd hline List.not_mem_nil⟩
  | cons read reads ih =>
    obtain ⟨lines, heq, hlines⟩ := ih (fun read hread => h read (List.mem_cons_of_mem _ hread))
      (fun read hread => hall read (List.mem_cons_of_mem _ hread))
    have hread := h read List.mem_cons_self
    rcases hread.newline with ⟨line, rfl, hline⟩ | hnone
    · refine ⟨line :: lines, by rw [heq]; rfl, ?_⟩
      intro l hl
      rcases List.mem_cons.mp hl with rfl | htail
      · have hlen := hread.length_lt
        rw [List.length_append, List.length_singleton] at hlen
        exact ⟨by omega, hline⟩
      · exact hlines l htail
    · exact absurd (hall read List.mem_cons_self) hnone

theorem fgets_line {n : Nat} {line rest : List Byte} (hlen : line.length < n)
    (hline : newline ∉ line) : fgets n (line ++ newline :: rest) = line ++ [newline] := by
  induction line generalizing n with
  | nil =>
    cases n with
    | zero => exact absurd hlen (Nat.not_lt_zero _)
    | succ n => rw [List.nil_append, fgets, if_pos rfl, List.nil_append]
  | cons c line ih =>
    cases n with
    | zero => exact absurd hlen (Nat.not_lt_zero _)
    | succ n =>
      rw [List.mem_cons, not_or] at hline
      rw [List.cons_append, fgets, if_neg fun heq => hline.1 heq.symm,
        ih (Nat.lt_of_succ_lt_succ hlen) hline.2, List.cons_append]

theorem readings_joined {left : Nat} {lines : List (List Byte)}
    (hlines : ∀ line ∈ lines, line.length < maxLineSize - 1 ∧ newline ∉ line)
    (hleft : (joined lines).length < left) :
    readings left (joined lines) = lines.map (· ++ [newline]) := by
  induction lines generalizing left with
  | nil =>
    cases left with
    | zero => rfl
    | succ left => rfl
  | cons line lines ih =>
    cases left with
    | zero => exact absurd hleft (Nat.not_lt_zero _)
    | succ left =>
      obtain ⟨hlen, hline⟩ := hlines line List.mem_cons_self
      rw [joined_cons] at hleft ⊢
      have hfgets : fgets (maxLineSize - 1) (line ++ newline :: joined lines) = line ++ [newline] :=
        fgets_line hlen hline
      have hdrop : (line ++ newline :: joined lines).drop (line ++ [newline]).length =
          joined lines := by
        rw [List.append_cons line newline (joined lines), List.drop_left]
      have hsome : ¬ (line ++ [newline]).isEmpty = true := by simp
      rw [readings]
      rw [hfgets, if_neg hsome, hdrop, List.map_cons, ih]
      · intro l hl
        exact hlines l (List.mem_cons_of_mem _ hl)
      · rw [List.length_append, List.length_cons] at hleft
        omega

theorem textRead_line {line : List Byte} (h : newline ∉ line) :
    textRead (line ++ [newline]) = line.takeWhile (· != 0) := by
  rw [textRead, (takeWhile_newline_of_mem h).1]

theorem takeWhile_nul {line : List Byte} : line.takeWhile (· != 0) = line ↔ 0 ∉ line := by
  rw [List.takeWhile_eq_self_iff]
  constructor
  · intro h hmem
    exact absurd (h 0 hmem) (by decide)
  · intro h c hc
    rw [bne_iff_ne]
    exact fun heq => h (heq ▸ hc)

/-- The lines that the server reads are all lines but the empty one behind the last newline. -/
theorem WholeLines.linesOf_eq {file : List Byte} (h : WholeLines file) :
    linesOf file = pieces file ++ [[]] := by
  obtain ⟨lines, rfl, hlines⟩ := h
  rw [linesOf_joined fun line hline => (hlines line hline).2.1, pieces,
    readings_joined (fun line hline => ⟨(hlines line hline).1, (hlines line hline).2.1⟩)
      (Nat.lt_succ_self _), List.map_map]
  congr 1
  conv_lhs => rw [← List.map_id lines]
  apply List.map_congr_left
  intro line hline
  rw [Function.comp_apply, textRead_line (hlines line hline).2.1,
    takeWhile_nul.mpr (hlines line hline).2.2]
  rfl

/-! ## Salts -/

theorem allchars_eq : allchars = (List.range' 48 10 ++ List.range' 97 26 ++ List.range' 65 26 ++
    [33, 63]).map (BitVec.ofNat 8) := by
  decide +kernel

theorem length_allchars : allchars.length = 64 := by
  rw [allchars_eq]
  rfl

theorem newline_notMem_allchars : newline ∉ allchars := by
  rw [allchars_eq]
  decide +kernel

theorem colon_notMem_allchars : colon ∉ allchars := by
  rw [allchars_eq]
  decide +kernel

theorem charOf_mem (x : Nat) : charOf x ∈ allchars := by
  have hx : x % 64 < allchars.length := by
    rw [length_allchars]
    exact Nat.mod_lt _ (by decide)
  rw [charOf, List.getD_eq_getElem _ _ hx]
  exact List.getElem_mem hx

theorem length_saltFrom (n : Nat) (s : BitVec 32) : (saltFrom n s).length = n := by
  rw [saltFrom, List.length_map, List.length_iterate]

theorem saltFrom_subset (n : Nat) (s : BitVec 32) : saltFrom n s ⊆ allchars := by
  intro c hc
  obtain ⟨x, -, rfl⟩ := List.mem_map.mp hc
  exact charOf_mem _

/-- The multiplier of `rand` is odd, so that every state follows some other. -/
theorem nextRandstate_surjective : Function.Surjective nextRandstate := by
  have hinverse : (3115528533 : BitVec 32) * 214013 = 1#32 := by decide
  intro t
  refine ⟨(t - 2531011) * 3115528533, ?_⟩
  rw [nextRandstate, BitVec.mul_assoc, hinverse, BitVec.mul_one, BitVec.sub_add_cancel]

theorem advance_surjective (n : Nat) : Function.Surjective (advance n) :=
  nextRandstate_surjective.iterate n

theorem exists_salt (c : Byte) : ∃ s, (saltFrom 4 s).head? ≠ some c := by
  obtain ⟨s, hs⟩ := nextRandstate_surjective 0
  obtain ⟨t, ht⟩ := nextRandstate_surjective 0x10000
  have hhead : ∀ r, (saltFrom 4 r).head? = some (charOf (randOf (nextRandstate r))) := fun r => rfl
  by_cases hc : charOf (randOf 0) = c
  · refine ⟨t, ?_⟩
    rw [hhead, ht, ← hc]
    unfold charOf
    rw [allchars_eq]
    decide +kernel
  · refine ⟨s, ?_⟩
    rw [hhead, hs]
    exact fun heq => hc (Option.some.inj heq)

/-! ## What becomes of a line -/

section

variable (env : Env) (uname opwd : List Byte)

/-- The server takes the text for the line of the user, with the old password. -/
def Accepted (text : List Byte) : Prop :=
  ∃ pwdHash rest, IsEntry text uname pwdHash rest ∧ pwdcmp env pwdHash opwd = true

end

section

variable {env : Env} {uname opwd npwd : List Byte}

theorem Genuine.accepted {line : List Byte} (h : Genuine env uname opwd line) :
    Accepted env uname opwd line := by
  obtain ⟨pwdHash, rest, he, hlength, hdigest⟩ := h
  refine ⟨pwdHash, rest, he, ?_⟩
  rw [pwdcmp]
  split
  · rfl
  · rw [if_neg fun hne => hne hlength, hdigest]
    exact decide_eq_true rfl

theorem not_accepted_iff {text : List Byte} :
    hit env uname opwd text = none ↔ ¬ Accepted env uname opwd text := by
  rw [Option.eq_none_iff_forall_ne_some]
  constructor
  · rintro h ⟨pwdHash, rest, hentry, hcmp⟩
    exact h rest (hit_eq_some.mpr ⟨pwdHash, hentry, hcmp⟩)
  · intro h rest hsome
    obtain ⟨pwdHash, hentry, hcmp⟩ := hit_eq_some.mp hsome
    exact h ⟨pwdHash, rest, hentry, hcmp⟩

theorem notMem_salted {c : Byte} (hc : c ∉ allchars) {salt : List Byte} (hsalt : salt ⊆ allchars) :
    c ∉ salt ++ digestText env salt npwd := by
  intro hmem
  rcases List.mem_append.mp hmem with hs | hd
  · exact hc (hsalt hs)
  · obtain ⟨i, -, rfl⟩ := List.mem_map.mp hd
    exact hc (charOf_mem _)

theorem isEntry_renewed {salt rest : List Byte} (huname : colon ∉ uname) (hsalt : salt ⊆ allchars) :
    IsEntry (renewed env uname npwd salt rest) uname (salt ++ digestText env salt npwd) rest :=
  ⟨rfl, huname, notMem_salted colon_notMem_allchars hsalt⟩

theorem not_isEntry_nil {n h r : List Byte} : ¬ IsEntry [] n h r := by
  intro hentry
  have hnil := congrArg List.length hentry.eq
  rw [List.length_append, List.length_cons, List.length_nil] at hnil
  omega

theorem IsEntry.append {text n h r more : List Byte} (he : IsEntry text n h r) :
    IsEntry (text ++ more) n h (r ++ more) := by
  refine ⟨?_, he.userName, he.pwdHash⟩
  rw [he.eq]
  simp only [List.append_assoc, List.cons_append]

theorem takeWhile_nul_append (line : List Byte) :
    ∃ more, line = line.takeWhile (· != 0) ++ more := by
  obtain ⟨more, hmore⟩ := List.takeWhile_prefix (p := fun c : Byte => c != 0) (l := line)
  exact ⟨more, hmore.symm⟩

/-- A line is not changed into its text, unless it has no NUL. -/
theorem changed_of_none {line : List Byte}
    {matching : List Byte → Prop}
    (h : LineChanged env uname npwd matching line (line.takeWhile (· != 0))) : 0 ∉ line := by
  rw [← takeWhile_nul]
  rcases h with ⟨-, pwdHash, rest, salt, hentry, -, hsalt, heq⟩ | ⟨-, heq⟩
  · -- a changed line is no shorter
    obtain ⟨more, hmore⟩ := takeWhile_nul_append line
    have hcut : IsEntry (line.takeWhile (· != 0)) uname (salt ++ digestText env salt npwd) rest := by
      rw [heq]
      exact isEntry_renewed hentry.userName hsalt
    have hwhole : IsEntry line uname (salt ++ digestText env salt npwd) (rest ++ more) := by
      rw [hmore]
      exact hcut.append
    have hrest := (hwhole.unique hentry).2.2
    have hempty : more = [] := List.append_right_eq_self.mp hrest
    rw [hempty, List.append_nil] at hmore
    exact hmore.symm
  · exact heq

/-- What the server takes for a match is one, if the line changes as it should whatever the salt. -/
theorem changed_of_some {line rest : List Byte}
    (hsome : hit env uname opwd (line.takeWhile (· != 0)) = some rest)
    {matching : List Byte → Prop}
    (h : ∀ s, LineChanged env uname npwd matching line (renewed env uname npwd (saltFrom 4 s) rest)) :
    0 ∉ line ∧ matching line := by
  rw [← takeWhile_nul]
  obtain ⟨pwdHash, hcut, -⟩ := hit_eq_some.mp hsome
  obtain ⟨more, hmore⟩ := takeWhile_nul_append line
  have hwhole : IsEntry line uname pwdHash (rest ++ more) := by
    rw [hmore]
    exact hcut.append
  have hnew : ∀ s, IsEntry (renewed env uname npwd (saltFrom 4 s) rest) uname _ rest :=
    fun s => isEntry_renewed hcut.userName (saltFrom_subset 4 s)
  have hfinish : more = [] → line.takeWhile (· != 0) = line := by
    intro hempty
    rw [hempty, List.append_nil] at hmore
    exact hmore.symm
  by_cases hmatching : matching line
  · refine ⟨?_, hmatching⟩
    rcases h 0 with ⟨-, pwdHash', rest', salt, hentry, -, hsalt, heq⟩ | ⟨hnot, -⟩
    · have hold := (hwhole.unique hentry).2.2
      have hrenewed : IsEntry (renewed env uname npwd (saltFrom 4 0) rest) uname
          (salt ++ digestText env salt npwd) rest' := by
        rw [heq]
        exact isEntry_renewed hcut.userName hsalt
      have hkept := ((hnew 0).unique hrenewed).2.2
      apply hfinish
      apply List.append_right_eq_self.mp
      rw [hold, hkept]
    · exact absurd hmatching hnot
  · -- the line would have to be its own renewal, for every salt
    have hself : ∀ s, renewed env uname npwd (saltFrom 4 s) rest = line := by
      intro s
      rcases h s with ⟨hyes, -⟩ | ⟨-, heq⟩
      · exact absurd hyes hmatching
      · exact heq
    have hhash : ∀ s, (saltFrom 4 s).head? = pwdHash.head? := by
      intro s
      have heq := ((hself s ▸ hnew s : IsEntry line uname _ rest).unique hwhole).2.1
      rw [← heq, List.head?_append_of_ne_nil]
      apply List.ne_nil_of_length_pos
      rw [length_saltFrom]
      exact Nat.succ_pos 3
    obtain ⟨c, hc⟩ : ∃ c, pwdHash.head? = some c := ⟨_, (hhash 0).symm⟩
    obtain ⟨s, hs⟩ := exists_salt c
    exact absurd ((hhash s).trans hc) hs

/-- All lines change as they should, whatever the random numbers, only if the server cuts none and
takes none for a match that is not. -/
theorem lines_of_changed {lines : List (List Byte)} {matching : List Byte → Prop}
    (h : ∀ s, List.Forall₂ (LineChanged env uname npwd matching) lines
      (edits env uname opwd npwd (lines.map fun line => line.takeWhile (· != 0)) s)) :
    ∀ line ∈ lines, 0 ∉ line ∧ (Accepted env uname opwd line → matching line) := by
  induction lines with
  | nil => exact fun line hline => absurd hline List.not_mem_nil
  | cons line lines ih =>
    rw [List.map_cons] at h
    intro l hl
    cases hhit : hit env uname opwd (line.takeWhile (· != 0)) with
    | none =>
      have hcons := fun s => (edits_none hhit ▸ h s :)
      rcases List.mem_cons.mp hl with rfl | htail
      · have hnul := changed_of_none (List.forall₂_cons.mp (hcons 0)).1
        rw [takeWhile_nul.mpr hnul] at hhit
        exact ⟨hnul, fun haccepted => absurd haccepted (not_accepted_iff.mp hhit)⟩
      · exact ih (fun s => (List.forall₂_cons.mp (hcons s)).2) l htail
    | some rest =>
      have hcons := fun s => (edits_some hhit ▸ h s :)
      rcases List.mem_cons.mp hl with rfl | htail
      · obtain ⟨hnul, hmatching⟩ := changed_of_some hhit fun s => (List.forall₂_cons.mp (hcons s)).1
        exact ⟨hnul, fun _ => hmatching⟩
      · refine ih (fun s => ?_) l htail
        obtain ⟨t, rfl⟩ := advance_surjective 4 s
        exact (List.forall₂_cons.mp (hcons t)).2

theorem changed_of_lines {lines : List (List Byte)} {matching : List Byte → Prop}
    (h : ∀ line ∈ lines, matching line ↔ Accepted env uname opwd line) (s : BitVec 32) :
    List.Forall₂ (LineChanged env uname npwd matching) lines
      (edits env uname opwd npwd lines s) := by
  induction lines generalizing s with
  | nil => exact List.Forall₂.nil
  | cons line lines ih =>
    have htail := ih fun line hline => h line (List.mem_cons_of_mem _ hline)
    have hhead := h line List.mem_cons_self
    cases hhit : hit env uname opwd line with
    | none =>
      rw [edits_none hhit]
      have hnot := not_accepted_iff.mp hhit
      exact .cons (.inr ⟨fun hmatching => hnot (hhead.mp hmatching), rfl⟩) (htail s)
    | some rest =>
      rw [edits_some hhit]
      obtain ⟨pwdHash, hentry, hcmp⟩ := hit_eq_some.mp hhit
      refine .cons (.inl ⟨hhead.mpr ⟨pwdHash, rest, hentry, hcmp⟩, pwdHash, rest, ?_⟩) (htail _)
      exact ⟨saltFrom 4 s, hentry, length_saltFrom 4 s, saltFrom_subset 4 s, rfl⟩

/-! ## What becomes of the file -/

theorem length_edits (texts : List (List Byte)) (s : BitVec 32) :
    (edits env uname opwd npwd texts s).length = texts.length := by
  induction texts generalizing s with
  | nil => rfl
  | cons text texts ih =>
    cases hhit : hit env uname opwd text with
    | none => rw [edits_none hhit, List.length_cons, List.length_cons, ih]
    | some rest => rw [edits_some hhit, List.length_cons, List.length_cons, ih]

theorem newline_notMem_renewed {text rest : List Byte} (h : newline ∉ text)
    (hhit : hit env uname opwd text = some rest) (s : BitVec 32) :
    newline ∉ renewed env uname npwd (saltFrom 4 s) rest := by
  obtain ⟨pwdHash, hentry, -⟩ := hit_eq_some.mp hhit
  rw [hentry.eq] at h
  have hfield : newline ∉ saltFrom 4 s ++ digestText env (saltFrom 4 s) npwd :=
    notMem_salted newline_notMem_allchars (saltFrom_subset 4 s)
  have hcolon : newline ≠ colon := by decide
  simp only [renewed, List.mem_append, List.mem_cons, not_or] at h hfield ⊢
  exact ⟨h.1, hcolon, hfield, hcolon, h.2.2.2.2⟩

theorem newline_notMem_edits {texts : List (List Byte)} (h : ∀ text ∈ texts, newline ∉ text)
    (s : BitVec 32) : ∀ line ∈ edits env uname opwd npwd texts s, newline ∉ line := by
  induction texts generalizing s with
  | nil => exact fun line hline => absurd hline List.not_mem_nil
  | cons text texts ih =>
    have htail := ih fun text htext => h text (List.mem_cons_of_mem _ htext)
    have hhead := h text List.mem_cons_self
    intro line hline
    cases hhit : hit env uname opwd text with
    | none =>
      rw [edits_none hhit] at hline
      rcases List.mem_cons.mp hline with rfl | hmem
      · exact hhead
      · exact htail s line hmem
    | some rest =>
      rw [edits_some hhit] at hline
      rcases List.mem_cons.mp hline with rfl | hmem
      · exact newline_notMem_renewed hhead hhit s
      · exact htail _ line hmem

theorem newline_notMem_pieces (file : List Byte) : ∀ text ∈ pieces file, newline ∉ text := by
  intro text htext hmem
  obtain ⟨read, -, rfl⟩ := List.mem_map.mp htext
  have hne := List.mem_takeWhile_imp ((List.takeWhile_prefix _).subset hmem)
  exact absurd hne (by decide)

theorem linesOf_edits (file : List Byte) (s : BitVec 32) :
    linesOf (joined (edits env uname opwd npwd (pieces file) s)) =
      edits env uname opwd npwd (pieces file) s ++ [[]] :=
  linesOf_joined (newline_notMem_edits (newline_notMem_pieces file) s)

theorem not_accepted_nil : ¬ Accepted env uname opwd [] := by
  rintro ⟨pwdHash, rest, hentry, -⟩
  exact not_isEntry_nil hentry

theorem changed_of_wholeLines {file : List Byte} {matching : List Byte → Prop}
    (hwhole : WholeLines file)
    (h : ∀ line ∈ linesOf file, matching line ↔ Accepted env uname opwd line) (s : BitVec 32) :
    Changed env uname npwd matching file
      (joined (edits env uname opwd npwd (pieces file) s)) := by
  rw [Changed, linesOf_edits, hwhole.linesOf_eq]
  rw [hwhole.linesOf_eq] at h
  apply List.rel_append
  · exact changed_of_lines (fun line hline => h line (List.mem_append_left _ hline)) s
  · have hnil := h [] (List.mem_append_right _ List.mem_cons_self)
    exact .cons (.inr ⟨fun hmatching => not_accepted_nil (hnil.mp hmatching), rfl⟩) .nil

/-- The file is changed as it should, whatever the random numbers, exactly if it consists of whole
lines and the server takes none for a match that is not. -/
theorem changed_iff {file : List Byte} :
    (∀ s, Changed env uname npwd (Genuine env uname opwd) file
      (joined (edits env uname opwd npwd (pieces file) s))) ↔
    WholeLines file ∧
      ∀ line ∈ linesOf file, Accepted env uname opwd line → Genuine env uname opwd line := by
  constructor
  · intro h
    obtain ⟨hflat, hreadings⟩ := readings_spec (Nat.lt_succ_self file.length)
    -- each reading makes a line of the new file
    have hwhole : ∀ read ∈ readings (file.length + 1) file, newline ∈ read := by
      have hlength := (h 0).length_eq
      have hlines := length_linesOf_readings hreadings
      rw [hflat] at hlines
      rw [linesOf_edits, List.length_append, length_edits, pieces, List.length_map, hlines,
        List.length_singleton] at hlength
      intro read hread
      exact of_decide_eq_true (List.countP_eq_length.mp (Nat.succ.inj hlength) read hread)
    obtain ⟨lines, hlines, hshort⟩ := lines_of_readings hreadings hwhole
    have hfile : file = joined lines := by
      rw [← hflat, hlines]
      rfl
    have hpieces : pieces file = lines.map fun line => line.takeWhile (· != 0) := by
      rw [pieces, hlines, List.map_map]
      exact List.map_congr_left fun line hline => textRead_line (hshort line hline).2
    have hsplit : linesOf file = lines ++ [[]] := by
      rw [hfile]
      exact linesOf_joined fun line hline => (hshort line hline).2
    have hchanged : ∀ s, List.Forall₂ (LineChanged env uname npwd (Genuine env uname opwd)) lines
        (edits env uname opwd npwd (lines.map fun line => line.takeWhile (· != 0)) s) := by
      intro s
      have hall := h s
      rw [Changed, hsplit, linesOf_edits] at hall
      have hcut := List.forall₂_take_append _ _ _ hall
      rw [length_edits, hpieces, List.length_map, List.take_left] at hcut
      exact hcut
    have heach := lines_of_changed hchanged
    constructor
    · exact ⟨lines, hfile, fun line hline =>
        ⟨(hshort line hline).1, (hshort line hline).2, (heach line hline).1⟩⟩
    · intro line hline haccepted
      rw [hsplit] at hline
      rcases List.mem_append.mp hline with hmem | hlast
      · exact (heach line hmem).2 haccepted
      · rw [List.mem_singleton.mp hlast] at haccepted
        exact absurd haccepted not_accepted_nil
  · rintro ⟨hwhole, haccepted⟩ s
    exact changed_of_wholeLines hwhole
      (fun line hline => ⟨Genuine.accepted, haccepted line hline⟩) s

/-! ## A request -/

theorem outcome_putNul {bytes : Buffer} {size i : Nat} {Q : Buffer → World → Prop}
    {E : Stop → World → Prop} {w : World} : Outcome (putNul bytes size i) Q E w ↔
      if i < size then Q (Function.update bytes i 0) w else E .undefined w := by
  unfold putNul
  split <;> rfl

section

variable {req : PwdsvrRequest} {src : Nat} {total : BitVec 32} {w : World}

/-- The NUL behind a new password that fills the payload is written behind that. -/
theorem outcome_overrun (htotal : total = req.unameSize + req.opwdSize + req.npwdSize)
    (hsize : maxReqSize ≤ req.unameSize.toNat + req.opwdSize.toNat + req.npwdSize.toNat) :
    Outcome (pwdsvrRequest env req src total) (fun _ _ => False) (fun e _ => e = .undefined) w := by
  rw [pwdsvrRequest, if_neg (not_not.mpr htotal)]
  dsimp only
  rw [Outcome.bind_iff, outcome_putNul]
  split
  · rw [Outcome.bind_iff, outcome_putNul]
    split
    · rw [Outcome.bind_iff, outcome_putNul, if_neg (by omega)]
    · rfl
  · rfl

theorem stringAt_request (hname : req.unameSize ≠ 0) (hold : req.opwdSize ≠ 0)
    (hsize : req.unameSize.toNat + req.opwdSize.toNat + req.npwdSize.toNat < maxReqSize)
    {payload : Buffer} (hpayload : payload = Function.update (Function.update
      (Function.update req.payload (0 + (req.unameSize - 1).toNat) 0)
        (0 + req.unameSize.toNat + (req.opwdSize - 1).toNat) 0)
        (0 + req.unameSize.toNat + req.opwdSize.toNat + req.npwdSize.toNat) 0) :
    stringAt payload maxReqSize 0 = req.uname ∧
      stringAt payload maxReqSize (0 + req.unameSize.toNat) = req.opwd ∧
      stringAt payload maxReqSize (0 + req.unameSize.toNat + req.opwdSize.toNat) = req.npwd := by
  have hlast : ∀ size : BitVec 32, size ≠ 0 → (size - 1).toNat = size.toNat - 1 ∧ 1 ≤ size.toNat := by
    intro size hne
    bv_omega
  obtain ⟨hu, hupos⟩ := hlast _ hname
  obtain ⟨ho, hopos⟩ := hlast _ hold
  simp only [hu, ho, Nat.zero_add] at hpayload ⊢
  have hother : ∀ i, i ≠ req.unameSize.toNat - 1 →
      i ≠ req.unameSize.toNat + (req.opwdSize.toNat - 1) →
      i ≠ req.unameSize.toNat + req.opwdSize.toNat + req.npwdSize.toNat →
      payload i = req.payload i := by
    intro i hi₁ hi₂ hi₃
    rw [hpayload, Function.update_of_ne (by omega), Function.update_of_ne (by omega),
      Function.update_of_ne (by omega)]
  refine ⟨?_, ?_, ?_⟩
  · have hnul : payload (0 + (req.unameSize.toNat - 1)) = 0 := by
      rw [Nat.zero_add, hpayload, Function.update_of_ne (by omega),
        Function.update_of_ne (by omega), Function.update_self]
    rw [stringAt_of_nul (by omega) hnul]
    exact textOf_congr fun i hi => hother _ (by omega) (by omega) (by omega)
  · have hnul : payload (req.unameSize.toNat + (req.opwdSize.toNat - 1)) = 0 := by
      rw [hpayload, Function.update_of_ne (by omega), Function.update_self]
    rw [stringAt_of_nul (by omega) hnul]
    exact textOf_congr fun i hi => hother _ (by omega) (by omega) (by omega)
  · have hnul : payload (req.unameSize.toNat + req.opwdSize.toNat + req.npwdSize.toNat) = 0 := by
      rw [hpayload, Function.update_self]
    rw [stringAt_of_nul hsize hnul]
    exact textOf_congr fun i hi => hother _ (by omega) (by omega) (by omega)

/-- The server changes the file if it can, and if it takes a piece of it for a match. -/
def Applies (env : Env) (uname opwd file : List Byte) : Prop :=
  env.readable = true ∧ env.writable = true ∧ ∃ text ∈ pieces file, Accepted env uname opwd text

theorem any_hit {texts : List (List Byte)} :
    (texts.any fun text => (hit env uname opwd text).isSome) = true ↔
      ∃ text ∈ texts, Accepted env uname opwd text := by
  have hsome : ∀ text, (hit env uname opwd text).isSome = true ↔ Accepted env uname opwd text := by
    intro text
    rw [Option.isSome_iff_ne_none, Ne, not_accepted_iff, not_not]
  rw [List.any_eq_true]
  constructor
  · rintro ⟨text, htext, h⟩
    exact ⟨text, htext, (hsome text).mp h⟩
  · rintro ⟨text, htext, h⟩
    exact ⟨text, htext, (hsome text).mpr h⟩

theorem outcome_pwdsvrRequest (hname : req.unameSize ≠ 0) (hold : req.opwdSize ≠ 0)
    (htotal : total = req.unameSize + req.opwdSize + req.npwdSize)
    (hsize : req.unameSize.toNat + req.opwdSize.toNat + req.npwdSize.toNat < maxReqSize) :
    Outcome (pwdsvrRequest env req src total)
      (fun _ w' =>
        Applies env req.uname req.opwd w.passwd ∧ w'.replies = w.replies ++ [(src, .ok)] ∧
            w'.passwd = joined
              (edits env req.uname req.opwd req.npwd (pieces w.passwd) w.randstate) ∨
          ¬ Applies env req.uname req.opwd w.passwd ∧ w'.replies = w.replies ++ [(src, .error)] ∧
            w'.passwd = w.passwd)
      (fun _ _ => False) w := by
  rw [pwdsvrRequest, if_neg (not_not.mpr htotal)]
  dsimp only
  rw [Outcome.bind_iff, outcome_putNul, if_pos (by bv_omega), Outcome.bind_iff, outcome_putNul,
    if_pos (by bv_omega), Outcome.bind_iff, outcome_putNul, if_pos (by omega)]
  generalize hpayload : Function.update (Function.update (Function.update req.payload _ 0) _ 0) _ 0 =
    payload
  obtain ⟨huname, hopwd, hnpwd⟩ := stringAt_request hname hold hsize hpayload.symm
  rw [huname, hopwd, hnpwd]
  by_cases hreadable : env.readable = false
  · rw [if_pos hreadable, pwdsvrRespond, Outcome.modify_iff]
    refine .inr ⟨?_, rfl, rfl⟩
    rintro ⟨hread, -⟩
    rw [hreadable] at hread
    exact Bool.false_ne_true hread
  rw [if_neg hreadable, Outcome.bind_iff, Outcome.get_iff, Outcome.bind_iff]
  apply (outcome_requestLoop (Nat.lt_succ_self _)).post
  rintro _ w' ⟨rfl, hpasswd, hreplies⟩
  dsimp only
  rw [Bool.false_or, List.nil_append]
  have hany : (((readings (w.passwd.length + 1) w.passwd).map textRead).any fun text =>
      (hit env req.uname req.opwd text).isSome) = true ↔
        ∃ text ∈ pieces w.passwd, Accepted env req.uname req.opwd text := any_hit
  by_cases hhit : ∃ text ∈ pieces w.passwd, Accepted env req.uname req.opwd text
  · rw [if_neg (by rw [hany.mpr hhit]; exact Bool.noConfusion)]
    by_cases hwritable : env.writable = false
    · rw [if_pos hwritable, pwdsvrRespond, Outcome.modify_iff]
      refine .inr ⟨?_, by rw [← hreplies], hpasswd⟩
      rintro ⟨-, hwrite, -⟩
      rw [hwritable] at hwrite
      exact Bool.false_ne_true hwrite
    · rw [if_neg hwritable, Outcome.bind_iff, Outcome.modify_iff, pwdsvrRespond, Outcome.modify_iff]
      exact .inl ⟨⟨Bool.eq_true_of_not_eq_false hreadable, Bool.eq_true_of_not_eq_false hwritable,
        hhit⟩, by rw [← hreplies], rfl⟩
  · rw [if_pos (Bool.eq_false_of_not_eq_true fun h => hhit (hany.mp h)), pwdsvrRespond,
      Outcome.modify_iff]
    exact .inr ⟨fun h => hhit h.2.2, by rw [← hreplies], hpasswd⟩

theorem status_unique {status status' : PwdsvrStatus} {replies : List (Nat × PwdsvrStatus)}
    (h : replies ++ [(src, status)] = replies ++ [(src, status')]) : status = status' := by
  simpa using h

/-- A request that is answered with an error leaves the file as it is, whatever is in it. -/
theorem refused_unchanged (hname : req.unameSize ≠ 0) (hold : req.opwdSize ≠ 0)
    (hsize : req.unameSize.toNat + req.opwdSize.toNat + req.npwdSize.toNat < maxReqSize) :
    Outcome (pwdsvrRequest env req src total)
      (fun _ w' => w'.replies = w.replies ++ [(src, .error)] → w'.passwd = w.passwd)
      (fun _ _ => False) w := by
  by_cases htotal : total = req.unameSize + req.opwdSize + req.npwdSize
  · apply (outcome_pwdsvrRequest hname hold htotal hsize).post
    rintro _ w' (⟨-, hok, -⟩ | ⟨-, -, hpasswd⟩) herror
    · exact PwdsvrStatus.noConfusion (status_unique (hok.symm.trans herror))
    · exact hpasswd
  · rw [pwdsvrRequest, if_pos htotal, pwdsvrRespond, Outcome.modify_iff]
    exact fun _ => rfl

theorem answered_of_applies {matching : List Byte → Prop} {due : Prop}
    (hname : req.unameSize ≠ 0) (hold : req.opwdSize ≠ 0)
    (htotal : total = req.unameSize + req.opwdSize + req.npwdSize)
    (hsize : req.unameSize.toNat + req.opwdSize.toNat + req.npwdSize.toNat < maxReqSize)
    (happlies : Applies env req.uname req.opwd w.passwd) :
    Answered env req.uname req.npwd matching due (pwdsvrRequest env req src total) src w ↔
      due ∧ Changed env req.uname req.npwd matching w.passwd
        (joined (edits env req.uname req.opwd req.npwd (pieces w.passwd) w.randstate)) := by
  have hrequest : Outcome (pwdsvrRequest env req src total) _ _ w :=
    outcome_pwdsvrRequest hname hold htotal hsize
  constructor
  · intro hanswered
    obtain ⟨_, w', hrun, hcase⟩ := hrequest.exists_ok
    obtain ⟨status, hreplies, hdue, hchanged, -⟩ := hanswered.outcome.ok hrun
    rcases hcase with ⟨-, hok, hpasswd⟩ | ⟨hnot, -⟩
    · have hstatus : status = .ok := status_unique (hreplies.symm.trans hok)
      rw [← hpasswd]
      exact ⟨hdue.mp hstatus, hchanged hstatus⟩
    · exact absurd happlies hnot
  · rintro ⟨hdue, hchanged⟩
    refine ⟨hrequest.post ?_⟩
    rintro - w' (⟨-, hok, hpasswd⟩ | ⟨hnot, -⟩)
    · rw [← hpasswd] at hchanged
      exact ⟨.ok, hok, ⟨fun _ => hdue, fun _ => rfl⟩, fun _ => hchanged,
        fun h => PwdsvrStatus.noConfusion h⟩
    · exact absurd happlies hnot

theorem answered_of_not_applies {matching : List Byte → Prop} {due : Prop}
    (hname : req.unameSize ≠ 0) (hold : req.opwdSize ≠ 0)
    (htotal : total = req.unameSize + req.opwdSize + req.npwdSize)
    (hsize : req.unameSize.toNat + req.opwdSize.toNat + req.npwdSize.toNat < maxReqSize)
    (hnot : ¬ Applies env req.uname req.opwd w.passwd) :
    Answered env req.uname req.npwd matching due (pwdsvrRequest env req src total) src w ↔
      ¬ due := by
  have hrequest : Outcome (pwdsvrRequest env req src total) _ _ w :=
    outcome_pwdsvrRequest hname hold htotal hsize
  constructor
  · intro hanswered hdue
    obtain ⟨_, w', hrun, hcase⟩ := hrequest.exists_ok
    obtain ⟨status, hreplies, hiff, -⟩ := hanswered.outcome.ok hrun
    rcases hcase with ⟨happlies, -⟩ | ⟨-, herror, -⟩
    · exact absurd happlies hnot
    · rw [hiff.mpr hdue] at hreplies
      exact PwdsvrStatus.noConfusion (status_unique (hreplies.symm.trans herror))
  · intro hdue
    refine ⟨hrequest.post ?_⟩
    rintro - w' (⟨happlies, -⟩ | ⟨-, herror, hpasswd⟩)
    · exact absurd happlies hnot
    · exact ⟨.error, herror, ⟨fun h => PwdsvrStatus.noConfusion h, fun h => absurd h hdue⟩,
        fun h => PwdsvrStatus.noConfusion h, fun _ => hpasswd⟩

/-- In a file of whole lines the server reads all of them. -/
theorem WholeLines.exists_accepted {file : List Byte} (hwhole : WholeLines file) :
    (∃ line ∈ linesOf file, Accepted env uname opwd line) ↔
      ∃ text ∈ pieces file, Accepted env uname opwd text := by
  rw [hwhole.linesOf_eq]
  constructor
  · rintro ⟨line, hline, haccepted⟩
    rcases List.mem_append.mp hline with hmem | hlast
    · exact ⟨line, hmem, haccepted⟩
    · rw [List.mem_singleton.mp hlast] at haccepted
      exact absurd haccepted not_accepted_nil
  · rintro ⟨text, htext, haccepted⟩
    exact ⟨text, List.mem_append_left _ htext, haccepted⟩

/-- In a file of whole lines the password field changes in exactly the lines of the user for which
`pwdcmp` accepts the old password, and the reply says whether there is one and the file could be
read and written. -/
theorem changes_confined (hname : req.unameSize ≠ 0) (hold : req.opwdSize ≠ 0)
    (htotal : total = req.unameSize + req.opwdSize + req.npwdSize)
    (hsize : req.unameSize.toNat + req.opwdSize.toNat + req.npwdSize.toNat < maxReqSize)
    (hwhole : WholeLines w.passwd) :
    Answered env req.uname req.npwd (Accepted env req.uname req.opwd)
      (env.readable = true ∧ env.writable = true ∧
        ∃ line ∈ linesOf w.passwd, Accepted env req.uname req.opwd line)
      (pwdsvrRequest env req src total) src w := by
  rw [hwhole.exists_accepted]
  by_cases happlies : Applies env req.uname req.opwd w.passwd
  · apply (answered_of_applies hname hold htotal hsize happlies).mpr
    exact ⟨happlies, changed_of_wholeLines hwhole (fun _ _ => Iff.rfl) _⟩
  · exact (answered_of_not_applies hname hold htotal hsize happlies).mpr happlies

end

end

/-- A request with three strings. -/
def requestOf (uname opwd npwd : List Byte) : PwdsvrRequest where
  unameSize := BitVec.ofNat 32 (uname.length + 1)
  opwdSize := BitVec.ofNat 32 (opwd.length + 1)
  npwdSize := BitVec.ofNat 32 (npwd.length + 1)
  payload i := (uname ++ [0] ++ opwd ++ [0] ++ npwd ++ [0]).getD i 0

/-- A system where all digests are zero. -/
def zeroEnv : Env where
  sha256 _ _ := 0
  readable := true
  writable := true
  line _ := 0

/-- `alice` has a password and `bob` has none. -/
def usersWorld : World where
  passwd := joined [ascii "alice:wxyz0000000000000000000000000000:1:", ascii "bob:-:2:"]
  replies := []
  randstate := 1

def aliceRequest : PwdsvrRequest := requestOf (ascii "alice") (ascii "old") (ascii "new")

def bobRequest : PwdsvrRequest := requestOf (ascii "bob") (ascii "hastalavista") (ascii "new")

theorem changes_confined_alice :
    Answered zeroEnv aliceRequest.uname aliceRequest.npwd
      (Accepted zeroEnv aliceRequest.uname aliceRequest.opwd)
      (zeroEnv.readable = true ∧ zeroEnv.writable = true ∧
        ∃ line ∈ linesOf usersWorld.passwd,
          Accepted zeroEnv aliceRequest.uname aliceRequest.opwd line)
      (pwdsvrRequest zeroEnv aliceRequest 3 14) 3 usersWorld := by
  have hname : aliceRequest.unameSize ≠ 0 := by decide +kernel
  have hold : aliceRequest.opwdSize ≠ 0 := by decide +kernel
  have htotal : 14 = aliceRequest.unameSize + aliceRequest.opwdSize + aliceRequest.npwdSize := by
    decide +kernel
  have hsize : aliceRequest.unameSize.toNat + aliceRequest.opwdSize.toNat +
      aliceRequest.npwdSize.toNat < maxReqSize := by
    decide +kernel
  have hwhole : WholeLines usersWorld.passwd := ⟨_, rfl, by decide +kernel⟩
  exact changes_confined hname hold htotal hsize hwhole

/-- A password that is stored nowhere is accepted for `bob`. -/
theorem master_password :
    ¬ Meets zeroEnv bobRequest.uname bobRequest.opwd bobRequest.npwd
      (pwdsvrRequest zeroEnv bobRequest 3 21) 3 usersWorld := by
  have hline : IsEntry (ascii "bob:-:2:") (ascii "bob") (ascii "-") (ascii "2:") := by
    constructor <;> decide +kernel
  have huname : bobRequest.uname = ascii "bob" := by decide +kernel
  have hcmp : pwdcmp zeroEnv (ascii "-") bobRequest.opwd = true := by decide +kernel
  have hpieces : pieces usersWorld.passwd =
      [ascii "alice:wxyz0000000000000000000000000000:1:", ascii "bob:-:2:"] := by decide +kernel
  have hlines : linesOf usersWorld.passwd =
      [ascii "alice:wxyz0000000000000000000000000000:1:", ascii "bob:-:2:", []] := by decide +kernel
  have happlies : Applies zeroEnv bobRequest.uname bobRequest.opwd usersWorld.passwd := by
    refine ⟨rfl, rfl, ascii "bob:-:2:", ?_, ascii "-", ascii "2:", ?_, hcmp⟩
    · rw [hpieces]
      exact List.mem_cons_of_mem _ List.mem_cons_self
    · rw [huname]
      exact hline
  have hname : bobRequest.unameSize ≠ 0 := by decide +kernel
  have hold : bobRequest.opwdSize ≠ 0 := by decide +kernel
  have htotal : 21 = bobRequest.unameSize + bobRequest.opwdSize + bobRequest.npwdSize := by
    decide +kernel
  have hsize : bobRequest.unameSize.toNat + bobRequest.opwdSize.toNat +
      bobRequest.npwdSize.toNat < maxReqSize := by
    decide +kernel
  intro hmeets
  obtain ⟨⟨line, hmem, pwdHash, rest, hentry, hlength, -⟩, -⟩ :=
    (answered_of_applies hname hold htotal hsize happlies).mp hmeets
  rw [hlines] at hmem
  rw [huname] at hentry
  rcases List.mem_cons.mp hmem with rfl | hmem
  · have halice : IsEntry (ascii "alice:wxyz0000000000000000000000000000:1:") (ascii "alice")
        (ascii "wxyz0000000000000000000000000000") (ascii "1:") := by
      constructor <;> decide +kernel
    exact absurd (halice.unique hentry).1 (by decide +kernel)
  rcases List.mem_cons.mp hmem with rfl | hmem
  · rw [← (hline.unique hentry).2.1] at hlength
    exact absurd hlength (by decide +kernel)
  · rw [List.mem_singleton.mp hmem] at hentry
    exact not_isEntry_nil hentry

section

variable {env : Env} {req : PwdsvrRequest} {src : Nat} {total : BitVec 32} {w : World}

/-- Only lines that store the old password change, whatever the random numbers, exactly if the
payload leaves room for a NUL and either there is such a line, the file can be read and written,
consists of whole lines and has no other line that `pwdcmp` accepts; or there is none and the server
finds no line to change. -/
theorem meets_iff (hname : req.unameSize ≠ 0) (hold : req.opwdSize ≠ 0)
    (htotal : total = req.unameSize + req.opwdSize + req.npwdSize) :
    (∀ randstate, Meets env req.uname req.opwd req.npwd (pwdsvrRequest env req src total) src
      { w with randstate := randstate }) ↔
    req.unameSize.toNat + req.opwdSize.toNat + req.npwdSize.toNat < maxReqSize ∧
      (Matches env req.uname req.opwd w.passwd ∧ env.readable = true ∧ env.writable = true ∧
          WholeLines w.passwd ∧ (∀ line ∈ linesOf w.passwd,
            Accepted env req.uname req.opwd line → Genuine env req.uname req.opwd line) ∨
        ¬ Matches env req.uname req.opwd w.passwd ∧
          ¬ Applies env req.uname req.opwd w.passwd) := by
  constructor
  · intro h
    have hfits : req.unameSize.toNat + req.opwdSize.toNat + req.npwdSize.toNat < maxReqSize := by
      by_contra hsize
      have hoverrun : Outcome (pwdsvrRequest env req src total) _ _ { w with randstate := 0 } :=
        outcome_overrun htotal (Nat.not_lt.mp hsize)
      obtain ⟨e, w', hrun, -⟩ := hoverrun.exists_error
      exact (h 0).outcome.error hrun
    refine ⟨hfits, ?_⟩
    by_cases happlies : Applies env req.uname req.opwd w.passwd
    · have hall := fun s => (answered_of_applies (w := { w with randstate := s }) hname hold htotal
        hfits happlies).mp (h s)
      obtain ⟨hwhole, hgenuine⟩ := changed_iff.mp fun s => (hall s).2
      exact .inl ⟨(hall 0).1, happlies.1, happlies.2.1, hwhole, hgenuine⟩
    · have hnone := (answered_of_not_applies (w := { w with randstate := 0 }) hname hold htotal hfits
        happlies).mp (h 0)
      exact .inr ⟨hnone, happlies⟩
  · rintro ⟨hfits, ⟨hmatches, hreadable, hwritable, hwhole, hgenuine⟩ | ⟨hnone, hnot⟩⟩ s
    · obtain ⟨line, hline, hgenuineLine⟩ := id hmatches
      have happlies : Applies env req.uname req.opwd w.passwd :=
        ⟨hreadable, hwritable, hwhole.exists_accepted.mp ⟨line, hline, hgenuineLine.accepted⟩⟩
      apply (answered_of_applies (w := { w with randstate := s }) hname hold htotal hfits
        happlies).mpr
      exact ⟨hmatches, changed_iff.mpr ⟨hwhole, hgenuine⟩ s⟩
    · exact (answered_of_not_applies (w := { w with randstate := s }) hname hold htotal hfits
        hnot).mpr hnone

end

end Egos.Pwdsvr
