import Egos.File.Directory
import Egos.File.Image

/-!
# Host trees in the image

mkfs numbers the files and directories of a host tree in the order in which it comes to them. The
reference computes these numbers, and from them what each directory of the image should list. As
long as the names fit, the entries that mkfs puts together byte by byte are these.
-/
namespace Egos.File.Mkfs

open Egos.Lib Egos.Disk Egos.Dirsvr

set_option autoImplicit false

/-! ## The reference -/

/-- `dir_trav` leaves out names that start with a dot, `main` takes every argument. -/
def kept (top : Bool) (name : List Byte) : Bool := top || name.head? != some 0x2e

/-- How many inodes an entry takes if its own entries take `below`. -/
def inodesOf (node : Node) (below : Nat) : Nat :=
  match node with
  | .file _ => 1
  | .dir skip _ => if skip then 1 else 1 + below
  | .weird | .unreadable => 0

/-- The name that an entry is given. -/
def nameFor (node : Node) (name : List Byte) : List Byte :=
  match node with
  | .dir .. => name ++ dirSuffix
  | .file _ | .weird | .unreadable => name

/-- Whether an entry is given a name, also if the name is not counted in the end. -/
def named : Node → Bool
  | .file _ | .dir .. => true
  | .weird | .unreadable => false

/-- Whether an entry stays in the directory. -/
def listed : Node → Bool
  | .file _ => true
  | .dir skip _ => !skip
  | .weird | .unreadable => false

/-- The inodes that the entries of a directory take. -/
def inodes : Listing → Bool → Nat
  | .done, _ => 0
  | .entry name node _ child next, top =>
    (if kept top name then inodesOf node (inodes child false) else 0) + inodes next top

/-- The names that a directory should list with their numbers, if `n` is the next one. -/
def table : Listing → Nat → List (List Byte × Nat)
  | .done, _ => []
  | .entry name node _ child next, n =>
    if kept false name then
      (if listed node then [(nameFor node name, n)] else []) ++
        table next (n + inodesOf node (inodes child false))
    else table next n

/-- A directory of the host that is copied: its number, that of its parent, and its entries. -/
structure HostDir where
  self : Nat
  parent : Nat
  listing : Listing

/-- The directories at an entry, if those below it are `below`. -/
def dirsOf (node : Node) (d : HostDir) (below : List HostDir) : List HostDir :=
  match node with
  | .dir skip _ => if skip then [] else d :: below
  | .file _ | .weird | .unreadable => []

/-- The files at an entry. -/
def filesOf (node : Node) (n : Nat) (below : List (Nat × List Byte)) : List (Nat × List Byte) :=
  match node with
  | .file bytes => [(n, bytes)]
  | .dir skip _ => if skip then [] else below
  | .weird | .unreadable => []

/-- The directories below the directory `parent`. -/
def dirs : Listing → Bool → Nat → Nat → List HostDir
  | .done, _, _, _ => []
  | .entry name node _ child next, top, parent, n =>
    if kept top name then
      dirsOf node ⟨n, parent, child⟩ (dirs child false n (n + 1)) ++
        dirs next top parent (n + inodesOf node (inodes child false))
    else dirs next top parent n

/-- The files below a directory, by their numbers. -/
def files : Listing → Bool → Nat → List (Nat × List Byte)
  | .done, _, _ => []
  | .entry name node _ child next, top, n =>
    if kept top name then
      filesOf node n (files child false (n + 1)) ++
        files next top (n + inodesOf node (inodes child false))
    else files next top n

/-- `..dir` and `...dir`. -/
def selfName : List Byte := [0x2e] ++ dirSuffix

def parentName : List Byte := [0x2e, 0x2e] ++ dirSuffix

/-- What a directory should list: itself, its parent, and its entries. -/
def HostDir.entries (d : HostDir) : List (List Byte × Nat) :=
  (selfName, d.self) :: (parentName, d.parent) :: table d.listing (d.self + 1)

/-- A slot of a directory of the image; the server is filled in by lookups. -/
def slotFor (entry : List Byte × Nat) : Option (List Byte × Fid) :=
  some (entry.1, ⟨0, BitVec.ofNat 32 entry.2⟩)

/-- The names of a host: not empty and without a zero byte. -/
def HostNames : Listing → Prop
  | .done => True
  | .entry name _ _ _ next => (name ≠ [] ∧ ∀ b ∈ name, b ≠ 0) ∧ HostNames next

/-- The entries that `dir_trav` does not leave out. -/
def count : Listing → Nat
  | .done => 0
  | .entry name _ _ _ next => (if kept false name then 1 else 0) + count next

/-- Whether mkfs gives up at an entry with the number `n`: it cannot be read, or there is something to
be written and no such inode. `below` is whether it gives up below a directory. -/
def stopsAt (node : Node) (n : Nat) (below : Bool) : Bool :=
  match node with
  | .file bytes => !bytes.isEmpty && decide (ninodes ≤ n)
  | .dir skip _ => !skip && (below || decide (ninodes ≤ n))
  | .weird => false
  | .unreadable => true

/-- Whether mkfs gives up before the end of the listing. -/
def stops : Listing → Bool → Nat → Bool
  | .done, _, _ => false
  | .entry name node _ child next, top, n =>
    if kept top name then
      stopsAt node n (stops child false (n + 1)) ||
        stops next top (n + inodesOf node (inodes child false))
    else stops next top n

/-- An entry that mkfs comes to, with the number and the place that it should get. -/
structure Visit where
  top : Bool
  node : Node
  name : List Byte
  number : Nat
  place : Nat

/-- The entries are visited in the order of mkfs, up to where it gives up. The arguments of `main` all
get the same place. -/
def UpToStop (P : Visit → Prop) : Listing → Bool → Nat → Nat → Prop
  | .done, _, _, _ => True
  | .entry name node _ child next, top, n, i =>
    if kept top name then
      P ⟨top, node, name, n, i⟩ ∧
        (∀ uid, node = .dir false uid → UpToStop P child false (n + 1) 2) ∧
        (stopsAt node n (stops child false (n + 1)) = false →
          UpToStop P next top (n + inodesOf node (inodes child false))
            (if !top && listed node then i + 1 else i))
    else UpToStop P next top n i

namespace Visit

def label (v : Visit) : List Byte := nameFor v.node v.name

/-- The bytes behind the beginning of the array, or of the only entry that `main` has. -/
def room (v : Visit) : Nat := if v.top then dirEntrySize else maxDirEntries * dirEntrySize

/-- The name is not longer than its field, nor with its zero byte than the rest of the array. A file
without a block gets the number of an inode, since no write would tell. -/
structure Fits (v : Visit) : Prop where
  field : named v.node = true → v.label.length ≤ dirNameSize
  room : named v.node = true → v.place * dirEntrySize + 9 + v.label.length ≤ v.room
  numbered : v.node = .file [] → v.number < ninodes

/-- A name in a directory is not longer than its field. -/
def Short (v : Visit) : Prop :=
  v.top = false → named v.node = true → v.label.length ≤ dirNameSize

/-- So is the name of a directory that is skipped. -/
def SkipShort (v : Visit) : Prop := listed v.node = false → v.Short

theorem Fits.short {v : Visit} (h : v.Fits) : v.Short := fun _ => h.field

end Visit

theorem UpToStop.mono {P Q : Visit → Prop} (hPQ : ∀ v, P v → Q v) {listing : Listing} {top : Bool}
    {n i : Nat} (h : UpToStop P listing top n i) : UpToStop Q listing top n i := by
  induction listing generalizing top n i with
  | done => trivial
  | entry name node mtime child next ihChild ihNext =>
    unfold UpToStop at h ⊢
    split
    · rename_i hkept
      rw [if_pos hkept] at h
      exact ⟨hPQ _ h.1, fun uid huid => ihChild (h.2.1 uid huid), fun hgo => ihNext (h.2.2 hgo)⟩
    · rename_i hkept
      rw [if_neg hkept] at h
      exact ihNext h

/-! ## An entry in the buffer -/

/-- An entry that is filled in at `pos`. -/
def entryAt (buffer : Buffer) (pos : Nat) (name : List Byte) (n : Nat) : Buffer :=
  put32 (put32 (overlay buffer (pos + 8) (name ++ [0])) pos 0) (pos + 4) (BitVec.ofNat 32 n)

theorem put32_outside {buffer : Buffer} {pos k : Nat} {v : BitVec 32} (hk : k < pos ∨ pos + 4 ≤ k) :
    put32 buffer pos v k = buffer k := by
  apply overlay_outside
  rw [List.length_map, List.length_range]
  exact hk

theorem put32_inside {buffer : Buffer} {pos i : Nat} {v : BitVec 32} (hi : i < 4) :
    put32 buffer pos v (pos + i) = byteOf v.toNat i := by
  unfold put32
  rw [overlay_inside (by simpa using hi)]
  simp [List.getD_eq_getElem?_getD, hi]

theorem get32_put32 (buffer : Buffer) (pos : Nat) (v : BitVec 32) :
    get32 (put32 buffer pos v) pos = v.toNat := by
  unfold get32
  rw [ofBytes_byteOf (v := v.toNat) fun i hi => put32_inside hi]
  exact Nat.mod_eq_of_lt v.isLt

theorem get32_congr {buffer buffer' : Buffer} {pos : Nat}
    (h : ∀ i, i < 4 → buffer (pos + i) = buffer' (pos + i)) : get32 buffer pos = get32 buffer' pos :=
  ofBytes_congr h

section

variable (buffer : Buffer) (pos : Nat) (name : List Byte) (n : Nat)

theorem entryAt_outside {k : Nat} (hk : k < pos ∨ pos + 9 + name.length ≤ k) :
    entryAt buffer pos name n k = buffer k := by
  unfold entryAt
  rw [put32_outside (by omega), put32_outside (by omega), overlay_outside]
  rw [List.length_append, List.length_singleton]
  omega

theorem entryAt_name {k : Nat} (hk : k < name.length + 1) :
    entryAt buffer pos name n (pos + 8 + k) = name.getD k 0 := by
  unfold entryAt
  rw [put32_outside (by omega), put32_outside (by omega), overlay_inside (by simpa using hk)]
  simp only [List.getD_eq_getElem?_getD, List.getElem?_append]
  split
  · rfl
  · rename_i hge
    rw [show k - name.length = 0 by omega, List.getElem?_eq_none (Nat.le_of_not_lt hge)]
    rfl

theorem entryAt_number : get32 (entryAt buffer pos name n) (pos + 4) = (BitVec.ofNat 32 n).toNat :=
  get32_put32 _ _ _

theorem entryAt_fid : fidAt (fun i => entryAt buffer pos name n (pos + i)) =
    ⟨0, BitVec.ofNat 32 n⟩ := by
  have hserver : ofBytes (fun i => entryAt buffer pos name n (pos + i)) 4 = 0 := by
    refine Eq.trans (ofBytes_congr fun i hi => ?_)
      (get32_put32 (overlay buffer (pos + 8) (name ++ [0])) pos 0)
    exact put32_outside (by omega)
  have hnumber := entryAt_number buffer pos name n
  unfold get32 at hnumber
  unfold fidAt
  rw [hserver]
  simp only [← Nat.add_assoc]
  rw [hnumber, BitVec.ofNat_toNat, BitVec.setWidth_eq]
  rfl

end

/-- A field that holds a name, with a zero byte behind it if there is room. -/
theorem takeWhile_field {name : List Byte} {field : Buffer} {size : Nat} (hshort : name.length ≤ size)
    (hnonzero : ∀ b ∈ name, b ≠ 0)
    (hfield : ∀ k, k < name.length + 1 → k < size → field k = name.getD k 0) :
    ((List.range size).map field).takeWhile (· ≠ 0) = name := by
  obtain ⟨rest, rfl⟩ := Nat.exists_eq_add_of_le hshort
  have hfront : (List.range name.length).map field = name := by
    apply List.ext_getElem
    · rw [List.length_map, List.length_range]
    · intro k _ hk
      rw [List.getElem_map, List.getElem_range, hfield k (by omega) (by omega)]
      exact List.getD_eq_getElem _ _ hk
  rw [List.range_add, List.map_append, hfront,
    List.takeWhile_append_of_pos fun b hb => decide_eq_true (hnonzero b hb)]
  cases rest with
  | zero => rw [List.range_zero, List.map_nil, List.map_nil, List.takeWhile_nil, List.append_nil]
  | succ rest =>
    have hzero : field (name.length + 0) = 0 := by
      rw [Nat.add_zero, hfield _ (Nat.lt_succ_self _) (by omega)]
      exact List.getD_eq_default _ _ (Nat.le_refl _)
    rw [List.range_succ_eq_map, List.map_cons, List.map_cons, hzero,
      List.takeWhile_cons_of_neg (by simp), List.append_nil]

/-- What lies in slot `i` of the buffer. -/
def slotAt (buffer : Buffer) (i : Nat) : Option (List Byte × Fid) :=
  (DirEntry.ofMemory fun k => buffer (i * dirEntrySize + k)).slot

/-- What an entry can be called. -/
structure EntryName (name : List Byte) : Prop where
  ne : name ≠ []
  nonzero : ∀ b ∈ name, b ≠ 0
  short : name.length ≤ dirNameSize

theorem slotAt_entryAt {buffer : Buffer} {name : List Byte} (h : EntryName name) (i n : Nat) :
    slotAt (entryAt buffer (i * dirEntrySize) name n) i = slotFor (name, n) := by
  have hname : (DirEntry.ofMemory fun k =>
      entryAt buffer (i * dirEntrySize) name n (i * dirEntrySize + k)).cname = name := by
    refine takeWhile_field h.short h.nonzero fun k hk _ => ?_
    dsimp only
    rw [← Nat.add_assoc]
    exact entryAt_name _ _ _ _ hk
  unfold slotAt
  rw [slot_taken (by rw [← cname_eq_nil_iff, hname]; exact h.ne), hname]
  exact congrArg (fun fid => some (name, fid)) (entryAt_fid _ _ _ _)

/-- A buffer in which the first slots are filled in and no other has a number yet. -/
structure Filled (entries : Entries) (done : List (List Byte × Nat)) : Prop where
  index : entries.index = done.length
  slots : ∀ i, i < done.length → some (slotAt entries.buffer i) = done[i]?.map slotFor
  rest : ∀ i, done.length ≤ i → i < maxDirEntries → get32 entries.buffer (i * dirEntrySize + 4) = 0

theorem slotAt_congr {buffer buffer' : Buffer} {i : Nat}
    (h : ∀ k, i * dirEntrySize ≤ k → k < (i + 1) * dirEntrySize → buffer k = buffer' k) :
    slotAt buffer i = slotAt buffer' i := by
  unfold slotAt
  congr 1
  apply DirEntry.ofMemory_congr
  intro k hk
  have hsize : dirEntrySize = Dirsvr.dirEntrySize := rfl
  exact h _ (Nat.le_add_right _ _) (by rw [Nat.add_mul, Nat.one_mul]; omega)

/-- An entry changes its own slot only, apart from a zero byte behind a name of full length. -/
theorem Filled.entryAt_other {entries : Entries} {done : List (List Byte × Nat)}
    (h : Filled entries done) {name : List Byte} (hname : name.length ≤ dirNameSize) (n : Nat) :
    let buffer := entryAt entries.buffer (entries.index * dirEntrySize) name n
    (∀ i, i < done.length → slotAt buffer i = slotAt entries.buffer i) ∧
      ∀ i, done.length < i → get32 buffer (i * dirEntrySize + 4) =
        get32 entries.buffer (i * dirEntrySize + 4) := by
  have hindex := h.index
  have hsize : dirEntrySize = 32 := rfl
  have hmax : dirNameSize = 24 := rfl
  constructor
  · intro i hi
    apply slotAt_congr
    intro k _ hk
    apply entryAt_outside
    unfold dirEntrySize at *
    omega
  · intro i hi
    apply get32_congr
    intro k _
    apply entryAt_outside
    unfold dirEntrySize at *
    omega

theorem Filled.push {entries : Entries} {done : List (List Byte × Nat)} (h : Filled entries done)
    {name : List Byte} (hname : EntryName name) (n : Nat) :
    Filled ⟨entryAt entries.buffer (entries.index * dirEntrySize) name n, entries.index + 1⟩
      (done ++ [(name, n)]) := by
  obtain ⟨hslots, hrest⟩ := h.entryAt_other hname.short n
  have hlen : (done ++ [(name, n)]).length = done.length + 1 := by simp
  constructor
  · rw [hlen, h.index]
  · intro i hi
    rw [hlen] at hi
    rcases Nat.lt_succ_iff_lt_or_eq.mp hi with hlt | rfl
    · rw [hslots i hlt, h.slots i hlt, List.getElem?_append_left hlt]
    · rw [h.index, slotAt_entryAt hname, List.getElem?_concat_length]
      rfl
  · intro i hle hlt
    rw [hlen] at hle
    rw [hrest i hle]
    exact h.rest i (by omega) hlt

theorem Filled.drop {entries : Entries} {done : List (List Byte × Nat)} (h : Filled entries done)
    {name : List Byte} (hname : name.length ≤ dirNameSize) :
    Filled ⟨entryAt entries.buffer (entries.index * dirEntrySize) name 0, entries.index⟩ done := by
  obtain ⟨hslots, hrest⟩ := h.entryAt_other hname 0
  constructor
  · exact h.index
  · intro i hi
    rw [hslots i hi]
    exact h.slots i hi
  · intro i hle hlt
    rcases Nat.eq_or_lt_of_le hle with rfl | hgt
    · rw [← h.index]
      exact entryAt_number _ _ _ _
    · rw [hrest i hgt]
      exact h.rest i hle hlt

theorem entryName_self : EntryName selfName :=
  ⟨by decide +kernel, by decide +kernel, by decide +kernel⟩

theorem entryName_parent : EntryName parentName :=
  ⟨by decide +kernel, by decide +kernel, by decide +kernel⟩

theorem filled_firstEntries (self parent : Nat) :
    Filled ⟨firstEntries ⟨0, BitVec.ofNat 32 self⟩ ⟨0, BitVec.ofNat 32 parent⟩, 2⟩
      [(selfName, self), (parentName, parent)] := by
  have hempty : Filled ⟨fun _ => 0, 0⟩ [] := by
    constructor
    · rfl
    · simp
    · intro i _ _
      rfl
  exact (hempty.push entryName_self self).push entryName_parent parent

/-- The entries of the file that the buffer is written to. -/
theorem Filled.slotsOf_eq {entries : Entries} {done : List (List Byte × Nat)}
    (h : Filled entries done) :
    slotsOf ((List.range (entries.index * dirEntrySize)).map entries.buffer) = done.map slotFor := by
  have hsize : dirEntrySize = Dirsvr.dirEntrySize := rfl
  have hlen : ((List.range (entries.index * dirEntrySize)).map entries.buffer).length /
      Dirsvr.dirEntrySize = done.length := by
    rw [List.length_map, List.length_range, h.index, hsize, Nat.mul_div_cancel _ (by decide)]
  apply List.ext_getElem?
  intro i
  rw [slotsOf, List.getElem?_map, List.getElem?_map]
  by_cases hi : i < done.length
  · rw [getElem?_entriesOf (by rw [hlen]; exact hi), ← h.slots i hi, Option.map_some]
    congr 2
    apply DirEntry.ofMemory_congr
    intro k hk
    have hin : Dirsvr.dirEntrySize * i + k < entries.index * dirEntrySize := by
      rw [h.index]
      unfold Dirsvr.dirEntrySize dirEntrySize at *
      omega
    rw [List.getD_eq_getElem _ _ (by rw [List.length_map, List.length_range]; exact hin),
      List.getElem_map, List.getElem_range, hsize, Nat.mul_comm]
  · rw [List.getElem?_eq_none (by rw [length_entriesOf, hlen]; omega),
      List.getElem?_eq_none (Nat.le_of_not_lt hi)]
    rfl

end Egos.File.Mkfs
