import Egos.File.Dirsvr
import Egos.Lib.Holes

/-!
# Directory files

The reference of a directory is a map from names to files. A file of entries with distinct names holds
such a map, and the loops over the entries find, insert and remove what the map says.
-/
namespace Egos.Dirsvr

open Egos.Lib Egos.Disk Egos.File
open Egos.Grass (wordBytes length_wordBytes ofBytes_wordBytes)

set_option autoImplicit false

/-- The names that clients use: not empty, without a zero byte, and short enough for an entry. -/
structure ProperName (name : List Byte) : Prop where
  pos : 0 < name.length
  short : name.length ≤ dirNameSize
  nonzero : ∀ b ∈ name, b ≠ 0

/-- What a directory is for. -/
abbrev DirMap := List Byte → Option Fid

/-- A request with its name. -/
structure DirMessage where
  src : Nat
  uid : Nat
  req : DirRequest
  name : List Byte

def DirMessage.message (m : DirMessage) : Grass.Message := ⟨m.src, m.uid, m.req.bytes ++ m.name⟩

/-- A file number without a server belongs to the server of the directory. -/
def resolve (dir fid : Fid) : Fid := if fid.server = 0 then { fid with server := dir.server } else fid

/-- The reply to a request, and the map behind it. -/
def DirMap.answer (names : DirMap) (m : DirMessage) : DirReply × DirMap :=
  match m.req.type with
  | .lookup =>
    match names m.name with
    | none => (⟨.error, fidZero⟩, names)
    | some fid => (⟨.ok, resolve m.req.dir fid⟩, names)
  | .insert =>
    match names m.name with
    | none => (⟨.ok, m.req.fid⟩, Function.update names m.name (some m.req.fid))
    | some _ => (⟨.error, fidZero⟩, names)
  | .remove =>
    match names m.name with
    | none => (⟨.ok, m.req.fid⟩, names)
    | some fid =>
      if fid.fileNo = m.req.fid.fileNo then
        (⟨.ok, m.req.fid⟩, Function.update names m.name none)
      else (⟨.ok, m.req.fid⟩, names)
  | .unused => (⟨.error, fidZero⟩, names)

/-- The replies to a sequence of requests, with their addressees, and the map behind them. -/
def DirMap.run (names : DirMap) : List DirMessage → List (Nat × DirReply) × DirMap
  | [] => ([], names)
  | m :: rest =>
    let (rep, names) := names.answer m
    let (replies, names) := DirMap.run names rest
    ((m.src, rep) :: replies, names)

/-- The name in an entry, up to its zero byte if there is one. -/
def DirEntry.cname (de : DirEntry) : List Byte := de.name.takeWhile (· ≠ 0)

def DirEntry.slot (de : DirEntry) : Option (List Byte × Fid) :=
  if de.isFree then none else some (de.cname, de.fid)

/-- The entries of a directory file as an array with holes. -/
def slotsOf (bytes : List Byte) : List (Option (List Byte × Fid)) := (entriesOf bytes).map DirEntry.slot

def namesOf (bytes : List Byte) : DirMap := Holes.find (slotsOf bytes)

/-- A directory file: whole entries with distinct names. -/
structure WellFormed (bytes : List Byte) : Prop where
  whole : bytes.length % dirEntrySize = 0
  distinct : Holes.Distinct (slotsOf bytes)

/-! ## Names -/

theorem strncmpEq_iff {a b : List Byte}
    (hlen : (a.takeWhile (· ≠ 0)).length = b.length) :
    strncmpEq a b b.length = true ↔ a.takeWhile (· ≠ 0) = b := by
  induction b generalizing a with
  | nil => simpa [strncmpEq] using List.length_eq_zero_iff.mp hlen
  | cons y ys ih =>
    cases a with
    | nil => simp at hlen
    | cons x xs =>
      by_cases hx : x = 0
      · simp [hx] at hlen
      · have hcons : (x :: xs).takeWhile (· ≠ 0) = x :: xs.takeWhile (· ≠ 0) :=
          List.takeWhile_cons_of_pos (decide_eq_true hx)
        rw [hcons] at hlen ⊢
        have hiff := ih (Nat.succ.inj hlen)
        rw [List.length_cons, strncmpEq, List.headD_cons, List.headD_cons, List.tail_cons,
          List.tail_cons, decide_eq_false hx, Bool.false_or, Bool.and_eq_true, hiff,
          decide_eq_true_iff, List.cons.injEq]

theorem nameCmp_iff {de : DirEntry} (name : List Byte) (hde : de.name.length = dirNameSize) :
    nameCmp de name name.length = true ↔ de.cname = name := by
  unfold nameCmp strnlen DirEntry.cname
  rw [List.take_of_length_le hde.le]
  by_cases hlen : (de.name.takeWhile (· ≠ 0)).length = name.length
  · rw [if_neg (not_not.mpr hlen)]
    exact strncmpEq_iff hlen
  · rw [if_pos hlen]
    exact iff_of_false (by simp) fun heq => hlen (congrArg List.length heq)

theorem cname_eq_nil_iff {de : DirEntry} : de.cname = [] ↔ de.isFree = true := by
  unfold DirEntry.cname DirEntry.isFree
  cases de.name with
  | nil => simp
  | cons b rest => simp [List.takeWhile_cons]

theorem ProperName.ne_nil {name : List Byte} (h : ProperName name) : name ≠ [] :=
  List.length_pos_iff.mp h.pos

theorem slot_free {de : DirEntry} (h : de.isFree = true) : de.slot = none := if_pos h

theorem slot_taken {de : DirEntry} (h : ¬de.isFree = true) : de.slot = some (de.cname, de.fid) :=
  if_neg h

theorem DirEntry.free_ne {de : DirEntry} {name : List Byte} (hname : ProperName name)
    (h : de.isFree = true) : de.cname ≠ name := by
  rw [cname_eq_nil_iff.mpr h]
  exact hname.ne_nil.symm

/-! ## The loops over entries -/

/-- A lookup finds the first entry with the name, unless it is the name of the holes. -/
theorem scanEntries_lookup {name : List Byte} {l : List DirEntry}
    (hl : ∀ de ∈ l, de.name.length = dirNameSize)
    (hholes : ∀ de ∈ l, de.isFree = true → de.cname ≠ name) (offset : Nat) :
    scanEntries (visitLookup name) l offset () =
    match Holes.find (l.map DirEntry.slot) name with
    | none => .ok ()
    | some fid => .error fid := by
  induction l generalizing offset with
  | nil => rfl
  | cons de rest ih =>
    have ih := ih (fun de h => hl de (List.mem_cons_of_mem _ h))
      (fun de h => hholes de (List.mem_cons_of_mem _ h))
    have hcmp := nameCmp_iff name (hl de List.mem_cons_self)
    rw [scanEntries, visitLookup, List.map_cons]
    by_cases hfree : de.isFree = true
    · rw [if_neg (mt hcmp.mp (hholes de List.mem_cons_self hfree)), slot_free hfree, Holes.find_hole]
      exact ih _
    · rw [slot_taken hfree, Holes.find_cons]
      by_cases heq : de.cname = name
      · rw [if_pos (hcmp.mpr heq), if_pos heq]
      · rw [if_neg (mt hcmp.mp heq), if_neg heq]
        exact ih _

section

variable {name : List Byte} {l : List DirEntry} (hl : ∀ de ∈ l, de.name.length = dirNameSize)

include hl

/-- The entry that an insert takes if there is a hole. -/
theorem scanEntries_insert (offset : Nat) (free : Option Nat) :
    scanEntries (visitInsert name) l offset free =
      if name ∈ Holes.keys (l.map DirEntry.slot) then .error ()
      else .ok (free.or ((l.findIdx? DirEntry.isFree).map fun i => offset + dirEntrySize * i)) := by
  induction l generalizing offset free with
  | nil => simp [scanEntries, Holes.keys]
  | cons de rest ih =>
    have ih := ih (fun de h => hl de (List.mem_cons_of_mem _ h))
    have hcmp := nameCmp_iff name (hl de List.mem_cons_self)
    rw [scanEntries, visitInsert, List.map_cons, List.findIdx?_cons]
    have hshift (i : Nat) : offset + dirEntrySize + dirEntrySize * i =
        offset + dirEntrySize * (i + 1) := by
      rw [Nat.mul_succ, Nat.add_assoc, Nat.add_comm dirEntrySize]
    by_cases hfree : de.isFree = true
    · rw [if_pos hfree, if_pos hfree, slot_free hfree, Holes.keys_none]
      dsimp only
      rw [ih]
      cases free <;> simp
    · rw [if_neg hfree, if_neg hfree, slot_taken hfree, Holes.keys_some]
      by_cases heq : de.cname = name
      · rw [if_pos (hcmp.mpr heq), if_pos (heq ▸ List.mem_cons_self)]
      · rw [if_neg (mt hcmp.mp heq)]
        dsimp only
        rw [ih, Option.map_map]
        simp only [List.mem_cons, Ne.symm heq, false_or, Function.comp_def, hshift]

/-- The entry that a remove clears, if there is one with this name and number. -/
theorem scanEntries_remove (fileNo : BitVec 32) (offset : Nat) :
    (∃ (i : Nat) (fid : Fid), (l.map DirEntry.slot)[i]? = some (some (name, fid)) ∧
      fid.fileNo = fileNo ∧
        scanEntries (visitRemove fileNo name) l offset () = .error (offset + dirEntrySize * i)) ∨
      (∀ (i : Nat) (fid : Fid), (l.map DirEntry.slot)[i]? = some (some (name, fid)) →
        fid.fileNo ≠ fileNo) ∧
        scanEntries (visitRemove fileNo name) l offset () = .ok () := by
  induction l generalizing offset with
  | nil => exact .inr ⟨by simp, rfl⟩
  | cons de rest ih =>
    have ih := ih (fun de h => hl de (List.mem_cons_of_mem _ h)) (offset + dirEntrySize)
    have hcmp := nameCmp_iff name (hl de List.mem_cons_self)
    rw [scanEntries, visitRemove, List.map_cons]
    by_cases hhit : de.isFree = false ∧ de.fid.fileNo = fileNo ∧ de.cname = name
    · obtain ⟨hfree, hno, heq⟩ := hhit
      refine .inl ⟨0, de.fid, ?_, hno, ?_⟩
      · rw [slot_taken (by rw [hfree]; exact Bool.false_ne_true), heq]
        rfl
      · rw [if_pos (by simp [hfree, hno, hcmp.mpr heq])]
        rfl
    · rw [if_neg (by simpa [hcmp] using hhit)]
      dsimp only
      have hhead (fid : Fid) (h : de.slot = some (name, fid)) : fid.fileNo ≠ fileNo := by
        intro hno
        unfold DirEntry.slot at h
        split at h
        · cases h
        · rename_i hfree
          cases h
          exact hhit ⟨by simpa using hfree, hno, rfl⟩
      rcases ih with ⟨i, fid, hi, hno, hscan⟩ | ⟨hall, hscan⟩
      · refine .inl ⟨i + 1, fid, hi, hno, ?_⟩
        rw [hscan, Nat.mul_succ, Nat.add_assoc, Nat.add_comm dirEntrySize]
      · refine .inr ⟨fun i fid hi => ?_, hscan⟩
        cases i with
        | zero => exact hhead fid (by simpa using hi)
        | succ i => exact hall i fid hi

end

/-! ## Directory files -/

theorem fidAt_congr {f g : Buffer} (h : ∀ k, k < 8 → f k = g k) : fidAt f = fidAt g := by
  unfold fidAt
  rw [ofBytes_congr fun k hk => h k (by omega),
    ofBytes_congr (f := fun i => f (4 + i)) fun k hk => h (4 + k) (by omega)]

theorem DirEntry.ofMemory_congr {f g : Buffer} (h : ∀ k, k < dirEntrySize → f k = g k) :
    ofMemory f = ofMemory g := by
  have hsize : dirEntrySize = 8 + dirNameSize := rfl
  unfold ofMemory
  rw [fidAt_congr fun k hk => h k (by omega)]
  congr 1
  apply List.map_congr_left
  intro k hk
  exact h _ (by have := List.mem_range.mp hk; omega)

theorem length_fidBytes (fid : Fid) : (fidBytes fid).length = 8 := by
  simp [fidBytes, length_wordBytes]

theorem fidAt_fidBytes (front rest : List Byte) (fid : Fid) :
    fidAt (fun i => (front ++ (fidBytes fid ++ rest)).getD (front.length + i) 0) = fid := by
  have hserver := ofBytes_wordBytes front (wordBytes fid.fileNo.toNat ++ rest) fid.server.isLt
  have hfile := ofBytes_wordBytes (front ++ wordBytes fid.server.toNat) rest fid.fileNo.isLt
  simp only [List.length_append, length_wordBytes, List.append_assoc] at hfile
  unfold fidAt fidBytes
  simp only [List.append_assoc, ← Nat.add_assoc]
  rw [hserver, hfile]
  simp

theorem DirEntry.length_bytes {de : DirEntry} (h : de.name.length = dirNameSize) :
    de.bytes.length = dirEntrySize := by
  unfold bytes
  rw [List.length_append, length_fidBytes, h]
  rfl

theorem DirEntry.ofMemory_bytes {de : DirEntry} (h : de.name.length = dirNameSize) :
    ofMemory (fun k => de.bytes.getD k 0) = de := by
  have hfid := fidAt_fidBytes [] de.name de.fid
  simp only [List.nil_append, List.length_nil, Nat.zero_add] at hfid
  unfold ofMemory bytes
  rw [hfid]
  congr 1
  apply List.ext_getElem
  · simp [h]
  · intro k hk hk'
    simp [List.getD_eq_getElem?_getD, List.getElem?_append_right, length_fidBytes, hk']

theorem length_entriesOf (page : List Byte) :
    (entriesOf page).length = page.length / dirEntrySize := by simp [entriesOf]

theorem getElem?_entriesOf {page : List Byte} {j : Nat} (h : j < page.length / dirEntrySize) :
    (entriesOf page)[j]? = some (.ofMemory fun k => page.getD (dirEntrySize * j + k) 0) := by
  simp [entriesOf, h]

theorem name_length_of_mem {page : List Byte} {de : DirEntry} (h : de ∈ entriesOf page) :
    de.name.length = dirNameSize := by
  obtain ⟨j, -, rfl⟩ := List.mem_map.mp h
  simp [DirEntry.ofMemory]

theorem entriesOf_append {a b : List Byte} (h : a.length % dirEntrySize = 0) :
    entriesOf (a ++ b) = entriesOf a ++ entriesOf b := by
  have hlen : (a ++ b).length / dirEntrySize = a.length / dirEntrySize + b.length / dirEntrySize := by
    rw [List.length_append]
    unfold dirEntrySize at *
    omega
  apply List.ext_getElem?
  intro j
  by_cases hj : j < a.length / dirEntrySize
  · rw [List.getElem?_append_left (by rw [length_entriesOf]; exact hj), getElem?_entriesOf hj,
      getElem?_entriesOf (by unfold dirEntrySize at *; omega)]
    congr 1
    apply DirEntry.ofMemory_congr
    intro k hk
    exact List.getD_append _ _ _ _ (by unfold dirEntrySize at *; omega)
  · rw [List.getElem?_append_right (by rw [length_entriesOf]; omega), length_entriesOf]
    by_cases hj' : j - a.length / dirEntrySize < b.length / dirEntrySize
    · rw [getElem?_entriesOf hj', getElem?_entriesOf (by omega)]
      congr 1
      apply DirEntry.ofMemory_congr
      intro k hk
      rw [List.getD_append_right _ _ _ _ (by unfold dirEntrySize at *; omega)]
      congr 1
      unfold dirEntrySize at *
      omega
    · rw [List.getElem?_eq_none (by rw [length_entriesOf]; omega),
        List.getElem?_eq_none (by rw [length_entriesOf]; omega)]

theorem entriesOf_writeAt {bytes : List Byte} {i : Nat} {de : DirEntry}
    (hwhole : bytes.length % dirEntrySize = 0) (hi : i ≤ bytes.length / dirEntrySize)
    (hde : de.name.length = dirNameSize) :
    entriesOf (Reference.writeAt bytes (dirEntrySize * i) de.bytes) =
      Holes.fill (entriesOf bytes) i de := by
  have hlen := Reference.length_writeAt bytes (dirEntrySize * i) de.bytes
  rw [de.length_bytes hde] at hlen
  apply List.ext_getElem?
  intro j
  rw [Holes.getElem?_fill (by rw [length_entriesOf]; exact hi)]
  by_cases hj : j = i
  · subst hj
    rw [if_pos rfl, getElem?_entriesOf (by rw [hlen]; unfold dirEntrySize at *; omega)]
    congr 1
    refine Eq.trans (DirEntry.ofMemory_congr fun k hk => ?_) (DirEntry.ofMemory_bytes hde)
    rw [Reference.getD_writeAt]
    exact overlay_inside (by rw [de.length_bytes hde]; exact hk)
  · rw [if_neg hj]
    by_cases hlt : j < bytes.length / dirEntrySize
    · rw [getElem?_entriesOf hlt, getElem?_entriesOf (by rw [hlen]; unfold dirEntrySize at *; omega)]
      congr 1
      apply DirEntry.ofMemory_congr
      intro k hk
      rw [Reference.getD_writeAt]
      apply overlay_outside
      rw [de.length_bytes hde]
      unfold dirEntrySize at *
      omega
    · rw [List.getElem?_eq_none (by rw [length_entriesOf, hlen]; unfold dirEntrySize at *; omega),
        List.getElem?_eq_none (by rw [length_entriesOf]; omega)]

theorem map_fill {α β : Type} (f : α → β) (l : List α) (i : Nat) (x : α) :
    (Holes.fill l i x).map f = Holes.fill (l.map f) i (f x) := by
  unfold Holes.fill
  rw [List.length_map]
  split
  · exact List.map_set
  · rw [List.map_append]
    rfl

theorem slotsOf_writeAt {bytes : List Byte} {i : Nat} {de : DirEntry}
    (hwhole : bytes.length % dirEntrySize = 0) (hi : i ≤ bytes.length / dirEntrySize)
    (hde : de.name.length = dirNameSize) :
    slotsOf (Reference.writeAt bytes (dirEntrySize * i) de.bytes) =
      Holes.fill (slotsOf bytes) i de.slot := by
  unfold slotsOf
  rw [entriesOf_writeAt hwhole hi hde, map_fill]

theorem length_slotsOf (bytes : List Byte) : (slotsOf bytes).length = bytes.length / dirEntrySize := by
  rw [slotsOf, List.length_map, length_entriesOf]

theorem ProperName.takeWhile_append {name : List Byte} (h : ProperName name) (rest : List Byte) :
    (name ++ rest).takeWhile (· ≠ 0) = name ++ rest.takeWhile (· ≠ 0) :=
  List.takeWhile_append_of_pos fun b hb => decide_eq_true (h.nonzero b hb)

theorem newEntry_name {name : List Byte} (h : ProperName name) (fid : Fid) :
    (newEntry fid name).name = name ++ List.replicate (dirNameSize - name.length) 0 := by
  have hself := h.takeWhile_append []
  rw [List.takeWhile_nil, List.append_nil] at hself
  unfold newEntry
  rw [hself]
  apply List.ext_getElem
  · have := h.short
    simp
    omega
  · intro k hk hk'
    rw [List.getElem_map, List.getElem_range, List.getElem_append]
    split
    · rename_i hlt
      exact List.getD_eq_getElem _ _ hlt
    · rename_i hge
      rw [List.getD_eq_default _ _ (by omega), List.getElem_replicate]

theorem newEntry_slot {name : List Byte} (h : ProperName name) (fid : Fid) :
    (newEntry fid name).slot = some (name, fid) := by
  have hcname : (newEntry fid name).cname = name := by
    unfold DirEntry.cname
    rw [newEntry_name h, h.takeWhile_append]
    cases dirNameSize - name.length <;> simp [List.replicate_succ]
  have hfree : ¬(newEntry fid name).isFree = true := by
    rw [← cname_eq_nil_iff, hcname]
    exact h.ne_nil
  rw [slot_taken hfree, hcname]
  rfl

theorem newEntry_length {name : List Byte} (fid : Fid) :
    (newEntry fid name).name.length = dirNameSize := by
  simp [newEntry]

theorem emptyEntry_slot : emptyEntry.slot = none := by decide

/-! ## Loops over all entries -/

section

variable {α β : Type}

theorem scanEntries_append (visit : Nat → DirEntry → α → Except β α) (a b : List DirEntry)
    (offset : Nat) (acc : α) : scanEntries visit (a ++ b) offset acc =
      match scanEntries visit a offset acc with
      | .error r => .error r
      | .ok acc => scanEntries visit b (offset + dirEntrySize * a.length) acc := by
  induction a generalizing offset acc with
  | nil => rfl
  | cons de rest ih =>
    rw [List.cons_append, scanEntries, scanEntries]
    cases visit offset de acc with
    | error r => rfl
    | ok acc =>
      dsimp only
      rw [ih, List.length_cons, Nat.mul_succ, Nat.add_assoc offset, Nat.add_comm dirEntrySize]

/-- What a loop over all entries of a file ends with. -/
def scanned (visit : Nat → DirEntry → α → Except β α) (bytes : List Byte) (offset : Nat) (acc : α) :
    ScanEnd α β :=
  match scanEntries visit (entriesOf (bytes.drop offset)) offset acc with
  | .error r => .found r
  | .ok acc => .finished acc bytes.length

end

theorem scanned_lookup {name : List Byte} {bytes : List Byte}
    (hholes : ∀ de ∈ entriesOf bytes, de.isFree = true → de.cname ≠ name) :
    scanned (visitLookup name) bytes 0 () =
      match namesOf bytes name with
      | none => .finished () bytes.length
      | some fid => .found fid := by
  unfold scanned
  rw [List.drop_zero, scanEntries_lookup (fun _ h => name_length_of_mem h) hholes,
    show Holes.find ((entriesOf bytes).map DirEntry.slot) name = namesOf bytes name from rfl]
  cases namesOf bytes name <;> rfl

theorem scanned_insert (name bytes : List Byte) :
    scanned (visitInsert name) bytes 0 none =
      match namesOf bytes name with
      | none => .finished (((entriesOf bytes).findIdx? DirEntry.isFree).map (dirEntrySize * ·))
          bytes.length
      | some _ => .found () := by
  unfold scanned
  rw [List.drop_zero, scanEntries_insert fun _ h => name_length_of_mem h,
    show (entriesOf bytes).map DirEntry.slot = slotsOf bytes from rfl]
  cases hfind : namesOf bytes name with
  | none =>
    rw [if_neg (Holes.find_eq_none_iff.mp hfind)]
    simp
  | some fid =>
    have hmem : name ∈ Holes.keys (slotsOf bytes) := by
      by_contra hnot
      rw [namesOf, Holes.find_eq_none_iff.mpr hnot] at hfind
      cases hfind
    rw [if_pos hmem]

theorem vacant_insert (bytes : List Byte) (hwhole : bytes.length % dirEntrySize = 0) :
    ∃ i, i ≤ bytes.length / dirEntrySize ∧ Holes.Vacant (slotsOf bytes) i ∧
      (((entriesOf bytes).findIdx? DirEntry.isFree).map (dirEntrySize * ·)).getD bytes.length =
        dirEntrySize * i := by
  cases hidx : (entriesOf bytes).findIdx? DirEntry.isFree with
  | none =>
    refine ⟨bytes.length / dirEntrySize, Nat.le_refl _, .inr (length_slotsOf bytes).symm, ?_⟩
    change bytes.length = _
    unfold dirEntrySize at *
    omega
  | some i =>
    obtain ⟨hlt, hfree, -⟩ := List.findIdx?_eq_some_iff_getElem.mp hidx
    rw [length_entriesOf] at hlt
    refine ⟨i, hlt.le, .inl ?_, rfl⟩
    rw [slotsOf, List.getElem?_map, List.getElem?_eq_getElem (by rw [length_entriesOf]; exact hlt)]
    exact congrArg some (slot_free hfree)

theorem scanned_remove (name : List Byte) (fileNo : BitVec 32) (bytes : List Byte) :
    (∃ (i : Nat) (fid : Fid), (slotsOf bytes)[i]? = some (some (name, fid)) ∧ fid.fileNo = fileNo ∧
        scanned (visitRemove fileNo name) bytes 0 () = .found (dirEntrySize * i)) ∨
      (∀ (i : Nat) (fid : Fid), (slotsOf bytes)[i]? = some (some (name, fid)) → fid.fileNo ≠ fileNo) ∧
        scanned (visitRemove fileNo name) bytes 0 () = .finished () bytes.length := by
  unfold scanned
  rw [List.drop_zero]
  have hscan := @scanEntries_remove name (entriesOf bytes) (fun _ h => name_length_of_mem h) fileNo 0
  rcases hscan with ⟨i, fid, hi, hno, hscan⟩ | ⟨hall, hscan⟩
  · rw [hscan, Nat.zero_add]
    exact .inl ⟨i, fid, hi, hno, rfl⟩
  · rw [hscan]
    exact .inr ⟨hall, rfl⟩

/-! ## Requests -/

theorem DirOp.ofCode_code (op : DirOp) : ofCode op.code = op := by cases op <;> rfl

theorem DirOp.code_lt (op : DirOp) : op.code < 2 ^ 32 := by cases op <;> decide

theorem DirRequest.length_bytes (req : DirRequest) : req.bytes.length = sizeof := by
  simp only [bytes, List.length_append, length_wordBytes, length_fidBytes]
  rfl

theorem DirRequest.ofMemory_bytes (req : DirRequest) (name : List Byte) :
    ofMemory (fun k => (req.bytes ++ name).getD k 0) = req := by
  obtain ⟨type, dir, fid, size⟩ := req
  have htype := ofBytes_wordBytes [] (fidBytes dir ++ (fidBytes fid ++ (wordBytes size.toNat ++ name)))
    type.code_lt
  have hdir := fidAt_fidBytes (wordBytes type.code) (fidBytes fid ++ (wordBytes size.toNat ++ name)) dir
  have hfid := fidAt_fidBytes (wordBytes type.code ++ fidBytes dir) (wordBytes size.toNat ++ name) fid
  have hsize := ofBytes_wordBytes (wordBytes type.code ++ (fidBytes dir ++ fidBytes fid)) name size.isLt
  simp only [List.length_append, length_wordBytes, length_fidBytes, List.append_assoc,
    List.nil_append, List.length_nil, Nat.zero_add] at htype hdir hfid hsize
  unfold ofMemory bytes
  simp only [List.append_assoc]
  rw [htype, hdir, hfid, hsize, DirOp.ofCode_code]
  simp

end Egos.Dirsvr
