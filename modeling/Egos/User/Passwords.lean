import Egos.User.Pwdsvr
import Mathlib.Data.List.Forall2
import Mathlib.Data.List.Iterate
import Mathlib.Data.List.TakeWhile

/-!
# What a password change leaves of the file

The file is put together again from what `fgets` reads. That is the file with the password fields of
the matching lines changed, as long as every reading is a whole line without a NUL and `pwdcmp` takes
no other line for a match.
-/
namespace Egos.Pwdsvr

open Egos.Lib Egos.Disk

set_option autoImplicit false

/-! ## The purpose of a request -/

/-- A line with a user name, a password field and more. -/
structure IsEntry (line userName pwdHash rest : List Byte) : Prop where
  eq : line = userName ++ colon :: (pwdHash ++ colon :: rest)
  userName : colon ∉ userName
  pwdHash : colon ∉ pwdHash

section

variable (env : Env) (uname opwd npwd : List Byte)

/-- The stored field is the salted hash of the password. -/
def Stores (pwdHash pwd : List Byte) : Prop :=
  pwdHash.length = 32 ∧ digestText env (pwdHash.take 4) pwd = pwdHash.drop 4

/-- The line is that of the user, with the old password. -/
def Genuine (line : List Byte) : Prop :=
  ∃ pwdHash rest, IsEntry line uname pwdHash rest ∧ Stores env pwdHash opwd

/-- Between newlines, and before the first and behind the last one. -/
def linesOf (file : List Byte) : List (List Byte) := file.splitOn newline

section

variable (matching : List Byte → Prop)

/-- A line that matches has a new password field, any other line is the same. -/
def LineChanged (line line' : List Byte) : Prop :=
  (matching line ∧ ∃ pwdHash rest salt, IsEntry line uname pwdHash rest ∧ salt.length = 4 ∧
    salt ⊆ allchars ∧
    line' = uname ++ colon :: (salt ++ digestText env salt npwd ++ colon :: rest)) ∨
  ¬ matching line ∧ line' = line

def Changed (file file' : List Byte) : Prop :=
  List.Forall₂ (LineChanged env uname npwd matching) (linesOf file) (linesOf file')

/-- There is one reply, it is `PWDSVR_OK` if and only if that is due, and the file changes in the
lines that match, or not at all. -/
structure Answered (due : Prop) (m : PwdM Unit) (src : Nat) (w : World) : Prop where
  outcome : Outcome m (fun _ w' => ∃ status, w'.replies = w.replies ++ [(src, status)] ∧
    (status = .ok ↔ due) ∧
    (status = .ok → Changed env uname npwd matching w.passwd w'.passwd) ∧
    (status = .error → w'.passwd = w.passwd)) (fun _ _ => False) w

end

/-- There is a line to change. -/
def Matches (file : List Byte) : Prop := ∃ line ∈ linesOf file, Genuine env uname opwd line

/-- The lines of the user with the old password change, and the answer says whether there is one. -/
def Meets (m : PwdM Unit) (src : Nat) (w : World) : Prop :=
  Answered env uname npwd (Genuine env uname opwd) (Matches env uname opwd w.passwd) m src w

end

/-- The string in the first `n` bytes at `pos`. -/
def textOf (bytes : Buffer) (pos n : Nat) : List Byte :=
  ((List.range n).map fun i => bytes (pos + i)).takeWhile (· != 0)

namespace PwdsvrRequest

variable (req : PwdsvrRequest)

/-- The user name of the request, without its last byte. -/
def uname : List Byte := textOf req.payload 0 (req.unameSize.toNat - 1)

def opwd : List Byte := textOf req.payload req.unameSize.toNat (req.opwdSize.toNat - 1)

/-- The new password may take up all of its bytes. -/
def npwd : List Byte :=
  textOf req.payload (req.unameSize.toNat + req.opwdSize.toNat) req.npwdSize.toNat

end PwdsvrRequest

/-! ## Strings in memory -/

section

variable {bytes : Buffer} {size pos n : Nat}

theorem takeWhile_append_nul (l rest : List Byte) :
    (l ++ 0 :: rest).takeWhile (· != 0) = l.takeWhile (· != 0) := by
  rw [List.takeWhile_append]
  split
  · rename_i hall
    rw [List.takeWhile_cons_of_neg (by decide), List.append_nil]
    exact ((List.takeWhile_prefix _).eq_of_length hall).symm
  · rfl

theorem stringAt_of_nul (hn : pos + n < size) (hnul : bytes (pos + n) = 0) :
    stringAt bytes size pos = textOf bytes pos n := by
  have hsplit : size - pos = n + (1 + (size - pos - n - 1)) := by omega
  unfold stringAt textOf
  rw [hsplit, List.range_add, List.range_add, List.map_append, List.map_append, List.map_append]
  simp only [List.range_one, List.map_cons, List.map_nil, Nat.add_zero, hnul, List.cons_append,
    List.nil_append]
  exact takeWhile_append_nul _ _

theorem textOf_congr {bytes' : Buffer} (h : ∀ i, i < n → bytes (pos + i) = bytes' (pos + i)) :
    textOf bytes pos n = textOf bytes' pos n := by
  unfold textOf
  rw [List.map_congr_left fun i hi => h i (List.mem_range.mp hi)]

end

/-! ## Readings -/

/-- What one call of `fgets` returns: up to 255 bytes, with no newline but at the end. -/
structure Reading (read : List Byte) : Prop where
  ne_nil : read ≠ []
  length_lt : read.length < maxLineSize
  newline : (∃ line, read = line ++ [newline] ∧ Pwdsvr.newline ∉ line) ∨ Pwdsvr.newline ∉ read

/-- The text of a reading is cut at its newline and at its first NUL. -/
def textRead (read : List Byte) : List Byte := (read.takeWhile (· != newline)).takeWhile (· != 0)

theorem fgets_isInitial (n : Nat) (rest : List Byte) : fgets n rest <+: rest := by
  induction n generalizing rest with
  | zero => exact List.nil_prefix
  | succ n ih =>
    cases rest with
    | nil => exact List.nil_prefix
    | cons c rest =>
      rw [fgets]
      split
      · exact List.cons_prefix_cons.mpr ⟨rfl, List.nil_prefix⟩
      · exact List.cons_prefix_cons.mpr ⟨rfl, ih rest⟩

theorem length_fgets_le (n : Nat) (rest : List Byte) : (fgets n rest).length ≤ n := by
  induction n generalizing rest with
  | zero => exact Nat.le_refl _
  | succ n ih =>
    cases rest with
    | nil => exact Nat.zero_le _
    | cons c rest =>
      rw [fgets]
      split
      · exact Nat.succ_le_succ (Nat.zero_le _)
      · exact Nat.succ_le_succ (ih rest)

theorem newline_fgets (n : Nat) (rest : List Byte) :
    (∃ line, fgets n rest = line ++ [newline] ∧ newline ∉ line) ∨ newline ∉ fgets n rest := by
  induction n generalizing rest with
  | zero => exact .inr List.not_mem_nil
  | succ n ih =>
    cases rest with
    | nil => exact .inr List.not_mem_nil
    | cons c rest =>
      rw [fgets]
      split
      · rename_i hc
        exact .inl ⟨[], by rw [hc]; rfl, List.not_mem_nil⟩
      · rename_i hc
        rcases ih rest with ⟨line, heq, hline⟩ | hnone
        · refine .inl ⟨c :: line, by rw [heq]; rfl, ?_⟩
          rw [List.mem_cons, not_or]
          exact ⟨fun h => hc h.symm, hline⟩
        · right
          rw [List.mem_cons, not_or]
          exact ⟨fun h => hc h.symm, hnone⟩

theorem reading_fgets {rest : List Byte} (h : (fgets (maxLineSize - 1) rest).isEmpty = false) :
    Reading (fgets (maxLineSize - 1) rest) := by
  constructor
  · intro hnil
    rw [hnil] at h
    exact absurd h (by decide)
  · exact Nat.lt_of_le_of_lt (length_fgets_le _ _) (by decide)
  · exact newline_fgets _ _

theorem takeWhile_newline_of_mem {line : List Byte} (h : newline ∉ line) :
    (line ++ [newline]).takeWhile (· != newline) = line ∧ line.takeWhile (· != newline) = line := by
  have hall : ∀ c ∈ line, (c != newline) = true := by
    intro c hc
    rw [bne_iff_ne]
    exact fun heq => h (heq ▸ hc)
  constructor
  · rw [List.takeWhile_append_of_pos hall, List.takeWhile_cons_of_neg (by decide), List.append_nil]
  · exact List.takeWhile_eq_self_iff.mpr hall

/-- Where `terminate` puts the NUL: at the first newline, or behind the string. -/
theorem terminate_spec {p : Buffer} {m : Nat} (hm : m < maxLineSize)
    (hbefore : ∀ i, i < m → p i ≠ newline) (hat : p m = newline ∨ m = maxLineSize - 1 ∨ p m = 0) :
    (∀ i, i < m → terminate p i = p i) ∧ terminate p m = 0 := by
  have hmax : maxLineSize = 256 := rfl
  generalize hq : Function.update p (maxLineSize - 1) newline = q
  have hlast : q (maxLineSize - 1) = newline := by rw [← hq, Function.update_self]
  have hother : ∀ i, i ≠ maxLineSize - 1 → q i = p i := by
    intro i hi
    rw [← hq, Function.update_of_ne hi]
  obtain ⟨e, he⟩ : ∃ e, (List.range maxLineSize).find? (fun i => q i == newline) = some e := by
    apply Option.isSome_iff_exists.mp
    rw [List.find?_isSome]
    exact ⟨maxLineSize - 1, List.mem_range.mpr (by omega), by rw [hlast, beq_self_eq_true]⟩
  have hdef : terminate p = Function.update q e 0 := by
    unfold terminate
    dsimp only
    rw [hq, he]
    rfl
  rw [List.find?_range_eq_some] at he
  obtain ⟨hnewline, hrange, hfirst⟩ := he
  rw [List.mem_range] at hrange
  have hle : m ≤ e := by
    by_contra hlt
    have hne := hbefore e (by omega)
    rw [← hother e (by omega)] at hne
    exact hne (beq_iff_eq.mp hnewline)
  rw [hdef]
  constructor
  · intro i hi
    rw [Function.update_of_ne (by omega), hother i (by omega)]
  · by_cases heq : m = e
    · rw [heq, Function.update_self]
    · have hnot : q m ≠ newline := by simpa using hfirst m (by omega)
      have hinside : m ≠ maxLineSize - 1 := fun h => hnot (h ▸ hlast)
      rw [Function.update_of_ne heq]
      rw [hother m hinside] at hnot ⊢
      rcases hat with hn | hend | hnul
      · exact absurd hn hnot
      · exact absurd hend hinside
      · exact hnul

/-- What is parsed is the text of what was read, whatever was in the array before. -/
theorem stringAt_terminate {read : List Byte} (h : Reading read) (line : Buffer) :
    stringAt (terminate (overlay line 0 (read ++ [0]))) maxLineSize 0 = textRead read := by
  have hlen := h.length_lt
  have hcopy : ∀ i, i < read.length + 1 →
      overlay line 0 (read ++ [0]) i = (read ++ [0]).getD i 0 := by
    intro i hi
    have hin : overlay line 0 (read ++ [0]) (0 + i) = (read ++ [0]).getD i 0 :=
      overlay_inside (by simpa using hi)
    rwa [Nat.zero_add] at hin
  -- the bytes before the newline, and what lies at their end
  obtain ⟨m, hm, htake, hat⟩ : ∃ m, m ≤ read.length ∧
      read.takeWhile (· != newline) = read.take m ∧ ((read ++ [0]).getD m 0 = newline ∨
        (read ++ [0]).getD m 0 = 0) := by
    rcases h.newline with ⟨l, hl, hnone⟩ | hnone
    · refine ⟨l.length, by rw [hl, List.length_append]; omega, ?_, .inl ?_⟩
      · rw [hl, (takeWhile_newline_of_mem hnone).1, List.take_left]
      · rw [hl, List.append_assoc, List.getD_append_right _ _ _ _ (Nat.le_refl _), Nat.sub_self]
        rfl
    · refine ⟨read.length, Nat.le_refl _, ?_, .inr ?_⟩
      · rw [(takeWhile_newline_of_mem hnone).2, List.take_length]
      · rw [List.getD_append_right _ _ _ _ (Nat.le_refl _), Nat.sub_self]
        rfl
  have hbytes : ∀ i, i < m → (read ++ [0]).getD i 0 = (read.take m).getD i 0 := by
    intro i hi
    rw [List.getD_append _ _ _ _ (by omega)]
    simp [hi]
  have hbefore : ∀ i, i < m → overlay line 0 (read ++ [0]) i ≠ newline := by
    intro i hi
    have hmem : (read.take m).getD i 0 ∈ read.takeWhile (· != newline) := by
      rw [htake, List.getD_eq_getElem _ _ (by rw [List.length_take]; omega)]
      exact List.getElem_mem _
    have hne := List.mem_takeWhile_imp hmem
    rw [hcopy i (by omega), hbytes i hi]
    exact bne_iff_ne.mp hne
  obtain ⟨hsame, hnul⟩ := terminate_spec (by omega) hbefore (by
    rw [hcopy m (by omega)]
    rcases hat with hn | hz
    · exact .inl hn
    · exact .inr (.inr hz))
  have hstop : terminate (overlay line 0 (read ++ [0])) (0 + m) = 0 := by rw [Nat.zero_add, hnul]
  rw [stringAt_of_nul (by omega) hstop]
  unfold textOf textRead
  rw [htake]
  congr 1
  apply List.ext_getElem
  · rw [List.length_map, List.length_range, List.length_take]
    omega
  · intro i hi hi'
    rw [List.length_map, List.length_range] at hi
    rw [List.getElem_map, List.getElem_range, Nat.zero_add, hsame i hi, hcopy i (by omega),
      hbytes i hi, List.getD_eq_getElem]

/-! ## Fields -/

theorem takeWhile_colon {field : List Byte} (h : colon ∉ field) (rest : List Byte) :
    (field ++ colon :: rest).takeWhile (· != colon) = field := by
  have hall : ∀ c ∈ field, (c != colon) = true := by
    intro c hc
    rw [bne_iff_ne]
    exact fun heq => h (heq ▸ hc)
  rw [List.takeWhile_append_of_pos hall, List.takeWhile_cons_of_neg (by decide), List.append_nil]

theorem field_unique {field field' rest rest' : List Byte} (h : colon ∉ field) (h' : colon ∉ field')
    (heq : field ++ colon :: rest = field' ++ colon :: rest') : field = field' ∧ rest = rest' := by
  have hfield : field = field' := by
    rw [← takeWhile_colon h rest, heq, takeWhile_colon h']
  subst hfield
  exact ⟨rfl, (List.cons.inj (List.append_cancel_left heq)).2⟩

theorem IsEntry.unique {line n n' h h' r r' : List Byte} (he : IsEntry line n h r)
    (he' : IsEntry line n' h' r') : n = n' ∧ h = h' ∧ r = r' := by
  obtain ⟨hn, hrest⟩ := field_unique he.userName he'.userName (he.eq.symm.trans he'.eq)
  exact ⟨hn, field_unique he.pwdHash he'.pwdHash hrest⟩

/-- A text is one field, or a field, a colon and more. -/
theorem field_cases (text : List Byte) :
    colon ∉ text ∨ ∃ field rest, text = field ++ colon :: rest ∧ colon ∉ field := by
  by_cases h : colon ∈ text
  · obtain ⟨field, rest, heq, hnone⟩ := List.eq_append_cons_of_mem h
    exact .inr ⟨field, rest, heq, hnone⟩
  · exact .inl h

theorem parse_last {left pos : Nat} {text : List Byte} {line : Buffer} (h : colon ∉ text) :
    parse (left + 1) pos text line = ([(pos, text)], line) := by
  have hall : text.takeWhile (· != colon) = text := by
    apply List.takeWhile_eq_self_iff.mpr
    intro c hc
    rw [bne_iff_ne]
    exact fun heq => h (heq ▸ hc)
  rw [parse]
  dsimp only
  rw [hall, List.drop_length]

theorem parse_field {left pos : Nat} {field rest : List Byte} {line : Buffer} (h : colon ∉ field) :
    (parse (left + 1) pos (field ++ colon :: rest) line).1 = (pos, field) ::
      (parse left (pos + field.length + 1) rest
        (Function.update line (pos + field.length) 0)).1 := by
  rw [parse]
  dsimp only
  rw [takeWhile_colon h, List.drop_left]

/-- Where the fields of an entry lie. -/
theorem parse_entry {text n h r : List Byte} (he : IsEntry text n h r) (line : Buffer) :
    ∃ field, (parse numberFields 0 text line).1 =
      [(0, n), (n.length + 1, h), (n.length + 1 + h.length + 1, field)] := by
  have hlast : ∀ pos line, ∃ field, (parse 1 pos r line).1 = [(pos, field)] := by
    intro pos line
    rcases field_cases r with hnone | ⟨field, rest, hr, hfield⟩
    · exact ⟨r, by rw [parse_last hnone]⟩
    · refine ⟨field, ?_⟩
      rw [hr, parse_field hfield]
      rfl
  rw [he.eq, show numberFields = 1 + 1 + 1 from rfl, parse_field he.userName, parse_field he.pwdHash]
  obtain ⟨field, hf⟩ := hlast (0 + n.length + 1 + h.length + 1)
    (Function.update (Function.update line (0 + n.length) 0) (0 + n.length + 1 + h.length) 0)
  refine ⟨field, ?_⟩
  rw [hf, Nat.zero_add]

theorem parse_three {text : List Byte} {line : Buffer} {p₁ p₂ uid : Nat} {n h f : List Byte}
    (hp : (parse numberFields 0 text line).1 = [(p₁, n), (p₂, h), (uid, f)]) :
    IsEntry text n h (text.drop uid) := by
  rw [show numberFields = 1 + 1 + 1 from rfl] at hp
  rcases field_cases text with hnone | ⟨n', rest, rfl, hn'⟩
  · rw [parse_last hnone] at hp
    simp at hp
  rw [parse_field hn'] at hp
  rcases field_cases rest with hnone | ⟨h', r, rfl, hh'⟩
  · rw [parse_last hnone] at hp
    simp at hp
  have he : IsEntry (n' ++ colon :: (h' ++ colon :: r)) n' h' r := ⟨rfl, hn', hh'⟩
  obtain ⟨field, hfield⟩ := parse_entry he line
  rw [show numberFields = 1 + 1 + 1 from rfl, parse_field hn', hp] at hfield
  simp only [List.cons.injEq, Prod.mk.injEq, and_true] at hfield
  obtain ⟨⟨-, hn⟩, ⟨-, hh⟩, huid, -⟩ := hfield
  have hdrop : (n' ++ colon :: (h' ++ colon :: r)).drop (n'.length + 1 + h'.length + 1) = r := by
    rw [Nat.add_assoc, Nat.add_assoc, ← List.drop_drop, List.drop_left, Nat.add_comm 1,
      List.drop_succ_cons, ← List.drop_drop, List.drop_left]
    rfl
  rw [huid, hdrop, hn, hh]
  exact he

/-! ## The loop -/

/-- Lines, each with a newline behind it. -/
def joined (lines : List (List Byte)) : List Byte := (lines.map (· ++ [newline])).flatten

/-- A salt from the state of `rand`. -/
def saltFrom (n : Nat) (s : BitVec 32) : List Byte :=
  (List.iterate nextRandstate (nextRandstate s) n).map fun s => charOf (randOf s)

/-- The state after `n` calls. -/
def advance (n : Nat) (s : BitVec 32) : BitVec 32 := Nat.iterate nextRandstate n s

section

variable (env : Env) (uname opwd npwd : List Byte)

/-- What lies behind the password field of a text that the server takes for a match. -/
def hit (text : List Byte) : Option (List Byte) :=
  match (parse numberFields 0 text (fun _ => 0)).1 with
  | [(_, userName), (_, pwdHash), (uid, _)] =>
    if userName = uname ∧ pwdcmp env pwdHash opwd then some (text.drop uid) else none
  | _ => none

/-- A line with a new password. -/
def renewed (salt rest : List Byte) : List Byte :=
  uname ++ colon :: (salt ++ digestText env salt npwd ++ colon :: rest)

/-- The lines of the new file. -/
def edits : List (List Byte) → BitVec 32 → List (List Byte)
  | [], _ => []
  | text :: texts, s =>
    match hit env uname opwd text with
    | none => text :: edits texts s
    | some rest => renewed env uname npwd (saltFrom 4 s) rest :: edits texts (advance 4 s)

/-- What the loop returns for these `texts`. -/
def Copied (mc : List Byte) (success : Bool) (texts : List (List Byte)) (w : World)
    (r : List Byte × Bool) (w' : World) : Prop :=
  r = (mc ++ joined (edits env uname opwd npwd texts w.randstate),
    success || texts.any fun text => (hit env uname opwd text).isSome) ∧
  w'.passwd = w.passwd ∧ w'.replies = w.replies

end

/-- What the calls of `fgets` return. -/
def readings : (left : Nat) → (rest : List Byte) → List (List Byte)
  | 0, _ => []
  | left + 1, rest =>
    let read := fgets (maxLineSize - 1) rest
    if read.isEmpty then [] else read :: readings left (rest.drop read.length)

section

variable {env : Env} {uname opwd npwd : List Byte}

theorem hit_eq_some {text rest : List Byte} : hit env uname opwd text = some rest ↔
    ∃ pwdHash, IsEntry text uname pwdHash rest ∧ pwdcmp env pwdHash opwd = true := by
  constructor
  · intro h
    unfold hit at h
    split at h
    · rename_i hp
      split at h
      · rename_i hcond
        obtain ⟨rfl, hcmp⟩ := hcond
        cases h
        exact ⟨_, parse_three hp, hcmp⟩
      · cases h
    · cases h
  · rintro ⟨pwdHash, he, hcmp⟩
    obtain ⟨field, hf⟩ := parse_entry he (fun _ => 0)
    have hdrop := (parse_three hf).unique he
    unfold hit
    rw [hf]
    dsimp only
    rw [if_pos ⟨rfl, hcmp⟩, hdrop.2.2]

theorem hit_of_parse {text : List Byte} {p₁ p₂ uid : Nat} {n h f : List Byte}
    (hp : (parse numberFields 0 text (fun _ => 0)).1 = [(p₁, n), (p₂, h), (uid, f)]) :
    hit env uname opwd text =
      if n = uname ∧ pwdcmp env h opwd then some (text.drop uid) else none := by
  unfold hit
  rw [hp]

theorem edits_none {text : List Byte} {texts : List (List Byte)} {s : BitVec 32}
    (h : hit env uname opwd text = none) : edits env uname opwd npwd (text :: texts) s =
      text :: edits env uname opwd npwd texts s := by
  rw [edits, h]

theorem edits_some {text rest : List Byte} {texts : List (List Byte)} {s : BitVec 32}
    (h : hit env uname opwd text = some rest) : edits env uname opwd npwd (text :: texts) s =
      renewed env uname npwd (saltFrom 4 s) rest ::
        edits env uname opwd npwd texts (advance 4 s) := by
  rw [edits, h]

theorem joined_cons (line : List Byte) (lines : List (List Byte)) :
    joined (line :: lines) = line ++ newline :: joined lines := by
  simp [joined]

/-- The match that the loop makes does not depend on the rest of the array. -/
theorem parse_line (text : List Byte) (line : Buffer) :
    (parse numberFields 0 text line).1 = (parse numberFields 0 text (fun _ => 0)).1 := by
  have hany : ∀ left pos text (line line' : Buffer),
      (parse left pos text line).1 = (parse left pos text line').1 := by
    intro left
    induction left with
    | zero =>
      intro pos text line line'
      rfl
    | succ left ih =>
      intro pos text line line'
      rcases field_cases text with hnone | ⟨field, rest, rfl, hfield⟩
      · rw [parse_last hnone, parse_last hnone]
      · rw [parse_field hfield, parse_field hfield, ih]
  exact hany _ _ _ _ _

theorem outcome_rand {Q : Nat → World → Prop} {E : Stop → World → Prop} {w : World} :
    Outcome rand Q E w ↔
      Q (randOf (nextRandstate w.randstate)) { w with randstate := nextRandstate w.randstate } :=
  Iff.rfl

theorem outcome_drawSalt {Q : List Byte → World → Prop} {E : Stop → World → Prop} {n : Nat} :
    ∀ {w : World}, Q (saltFrom n w.randstate) { w with randstate := advance n w.randstate } →
      Outcome (drawSalt n) Q E w := by
  induction n generalizing Q with
  | zero =>
    intro w h
    exact h
  | succ n ih =>
    intro w h
    rw [saltFrom, List.iterate, List.map_cons, advance, Function.iterate_succ_apply] at h
    rw [drawSalt, Outcome.bind_iff, outcome_rand, Outcome.bind_iff]
    apply ih
    exact h

theorem copied_none {mc text : List Byte} {texts : List (List Byte)} {success : Bool}
    {w w' : World} {r : List Byte × Bool} (hnone : hit env uname opwd text = none)
    (h : Copied env uname opwd npwd (mc ++ text ++ [newline]) success texts w r w') :
    Copied env uname opwd npwd mc success (text :: texts) w r w' := by
  obtain ⟨rfl, hkept⟩ := h
  refine ⟨?_, hkept⟩
  rw [edits_none hnone, List.any_cons, hnone, joined_cons]
  simp only [List.append_assoc, Option.isSome_none, Bool.false_or]
  rfl

theorem copied_some {mc text rest : List Byte} {texts : List (List Byte)} {success : Bool}
    {w w' : World} {r : List Byte × Bool} (hhit : hit env uname opwd text = some rest)
    (h : Copied env uname opwd npwd
      (mc ++ renewed env uname npwd (saltFrom 4 w.randstate) rest ++ [newline]) true texts
      { w with randstate := advance 4 w.randstate } r w') :
    Copied env uname opwd npwd mc success (text :: texts) w r w' := by
  obtain ⟨rfl, hkept⟩ := h
  refine ⟨?_, hkept⟩
  rw [edits_some hhit, List.any_cons, hhit, joined_cons]
  simp only [List.append_assoc, Option.isSome_some, Bool.true_or, Bool.or_true]
  rfl

/-- One reading: its text is copied, with a new password if it is taken for a match. -/
theorem outcome_requestLoop {left : Nat} : ∀ {rest mc : List Byte} {line : Buffer} {success : Bool}
    {w : World}, rest.length < left →
      Outcome (requestLoop env uname opwd npwd left rest line mc success)
        (Copied env uname opwd npwd mc success ((readings left rest).map textRead) w)
        (fun _ _ => False) w := by
  induction left with
  | zero =>
    intro rest mc line success w hleft
    exact absurd hleft (Nat.not_lt_zero _)
  | succ left ih =>
    intro rest mc line success w hleft
    rw [requestLoop, readings]
    dsimp only
    by_cases hend : (fgets (maxLineSize - 1) rest).isEmpty = true
    · rw [if_pos hend, if_pos hend, Outcome.pure_iff]
      simp [Copied, joined, edits]
    · rw [if_neg hend, if_neg hend]
      have hread := reading_fgets (Bool.eq_false_of_not_eq_true hend)
      rw [stringAt_terminate hread]
      have hpos := List.length_pos_iff.mpr hread.ne_nil
      have hrest : (rest.drop (fgets (maxLineSize - 1) rest).length).length < left := by
        have hle := (fgets_isInitial (maxLineSize - 1) rest).length_le
        rw [List.length_drop]
        omega
      generalize fgets (maxLineSize - 1) rest = read at hread hrest
      rw [List.map_cons, parse_line]
      generalize (parse numberFields 0 (textRead read) _).2 = line'
      have hcopied : hit env uname opwd (textRead read) = none →
          Outcome (requestLoop env uname opwd npwd left (rest.drop read.length) line'
            (mc ++ textRead read ++ [newline]) success)
            (Copied env uname opwd npwd mc success
              (textRead read :: (readings left (rest.drop read.length)).map textRead) w)
            (fun _ _ => False) w := by
        intro hnone
        exact (ih hrest).post fun _ _ h => copied_none hnone h
      split
      · rename_i hp
        have hhit : hit env uname opwd (textRead read) = _ := hit_of_parse hp
        split
        · rename_i hcond
          rw [if_pos hcond] at hhit
          obtain ⟨rfl, -⟩ := hcond
          rw [Outcome.bind_iff, genPwd, Outcome.bind_iff]
          apply outcome_drawSalt
          rw [Outcome.pure_iff]
          apply (ih hrest).post
          intro r w' h
          apply copied_some hhit
          simpa [renewed] using h
        · rename_i hcond
          rw [if_neg hcond] at hhit
          exact hcopied hhit
      · rename_i hp
        apply hcopied
        unfold hit
        split
        · rename_i hthree
          exact absurd hthree (hp _ _ _ _ _ _)
        · rfl

end

end Egos.Pwdsvr
