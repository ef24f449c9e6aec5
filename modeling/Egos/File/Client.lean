import Egos.File.ByteFiles
import Egos.File.Mkfs

/-!
# The file service as its clients see it

`lib/file.c`. A call fails or hands something over. `ByteArrays` is a service that never fails and
whose files are arrays of bytes.
-/
namespace Egos.File

open Egos.Lib

set_option autoImplicit false

deriving instance DecidableEq for Fid

/-- The file servers, as one client calls them. The number in a `fid_t` selects the server. -/
structure FileClient (φ : Type) where
  fileCreate : BitVec 32 → BitVec 16 → StateM φ (Option (BitVec 32))
  fileRead : Fid → Nat → Nat → StateM φ (Option (List Byte))
  fileWrite : Fid → Nat → List Byte → StateM φ Bool
  fileStat : Fid → StateM φ (Option FileControlBlock)
  fileSetsize : Fid → Nat → StateM φ Bool
  fileDelete : Fid → StateM φ Bool

/-- A service that never fails to read, to write or to tell about a file. -/
structure ByteArrays (φ : Type) extends FileClient φ where
  contents : φ → Fid → List Byte
  uid : φ → Fid → BitVec 32
  mode : φ → Fid → BitVec 16
  stat_eq : ∀ fid s, ∃ fcb, (fileStat fid s).1 = some fcb ∧ fcb.stUid = uid s fid ∧
    fcb.stMode = mode s fid
  stat_contents : ∀ fid s, contents (fileStat fid s).2 = contents s
  stat_access : ∀ fid s, uid (fileStat fid s).2 = uid s ∧ mode (fileStat fid s).2 = mode s
  read_eq : ∀ fid offset size s,
    (fileRead fid offset size s).1 = some (Reference.readAt (contents s fid) offset size)
  read_contents : ∀ fid offset size s, contents (fileRead fid offset size s).2 = contents s
  read_access : ∀ fid offset size s, uid (fileRead fid offset size s).2 = uid s ∧
    mode (fileRead fid offset size s).2 = mode s
  write_eq : ∀ fid offset data s, (fileWrite fid offset data s).1 = true
  write_contents : ∀ fid offset data s, contents (fileWrite fid offset data s).2 =
    Function.update (contents s) fid (Reference.writeAt (contents s fid) offset data)
  write_access : ∀ fid offset data s, uid (fileWrite fid offset data s).2 = uid s ∧
    mode (fileWrite fid offset data s).2 = mode s

/-- Files that are nothing else, with an owner and a mode. -/
def plainFiles : ByteArrays (Fid → Reference.RefFile) where
  fileCreate _ _ := pure none
  fileRead fid offset size := fun s => (some (Reference.readAt (s fid).bytes offset size), s)
  fileWrite fid offset data := fun s => (true, Function.update s fid
    { s fid with bytes := Reference.writeAt (s fid).bytes offset data })
  fileStat fid := fun s =>
    (some { FileControlBlock.zero with stUid := (s fid).uid, stMode := (s fid).mode }, s)
  fileSetsize _ _ := pure false
  fileDelete _ := pure false
  contents s fid := (s fid).bytes
  uid s fid := (s fid).uid
  mode s fid := (s fid).mode
  stat_eq _ _ := ⟨_, rfl, rfl, rfl⟩
  stat_contents _ _ := rfl
  stat_access _ _ := ⟨rfl, rfl⟩
  read_eq _ _ _ _ := rfl
  read_contents _ _ _ _ := rfl
  read_access _ _ _ _ := ⟨rfl, rfl⟩
  write_eq _ _ _ _ := rfl
  write_contents fid offset data s := by
    funext f
    by_cases h : f = fid
    · subst h
      simp
    · simp [h]
  write_access fid offset data s := by
    constructor
    · funext f
      by_cases h : f = fid
      · subst h
        simp
      · simp [h]
    · funext f
      by_cases h : f = fid
      · subst h
        simp
      · simp [h]

end Egos.File
