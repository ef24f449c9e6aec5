import Egos.Disk.Sparse
import Egos.Disk.Transparency

/-!
# The write-back cache over a store of growing files

Below the cache every inode is a sparse file. A buffered write makes the file longer
for the user and not yet below, so two families of files are compared: `low` is what
the store below has and `files` what the user has written. `Buffers` ties them
together through the slots; the sizes differ by the slots that are still dirty.
-/
namespace Egos.Disk.Stack

open Egos.Lib Egos.Disk.Clockdisk

set_option autoImplicit false

variable {β σ : Type} {n : Nat}

/-- The slot holds a block of this inode that is not yet below. -/
def Pending (slot : Slot β) (ino : Nat) : Prop :=
  slot.Live ∧ slot.dirty = true ∧ slot.ino = ino

structure Buffers (ninodes : Nat) (slots : Fin n → Slot β) (low files : Files β) : Prop where
  unique : ∀ i j, (slots i).Live → (slots j).Holds (slots i).ino (slots i).offset → i = j
  proper : ∀ i, (slots i).Live → (slots i).ino < ninodes ∧ (slots i).offset + 1 < 2 ^ 32
  clean : ∀ i, (slots i).Live → (slots i).dirty = false →
    (slots i).block = (low (slots i).ino).data (slots i).offset ∧
      (slots i).offset < (low (slots i).ino).size
  cached : ∀ i, (slots i).Live → (slots i).block = (files (slots i).ino).data (slots i).offset
  absent : ∀ ino offset, (∀ i, ¬(slots i).Holds ino offset) →
    (low ino).data offset = (files ino).data offset
  size : ∀ ino offset, offset < (files ino).size ↔
    offset < (low ino).size ∨ ∃ i, Pending (slots i) ino ∧ offset ≤ (slots i).offset

/-- The write of one block to one file. -/
def writeFile (files : Files β) (ino offset : Nat) (block : β) : Files β :=
  Function.update files ino ((files ino).write offset block)

theorem writeFile_data (files : Files β) (ino offset : Nat) (block : β) (i o : Nat) :
    (writeFile files ino offset block i).data o =
      if i = ino ∧ o = offset then block else (files i).data o := by
  unfold writeFile
  by_cases hi : i = ino
  · subst hi
    simp [SparseFile.write, Function.update_apply]
  · simp [hi]

theorem lt_writeFile_size (files : Files β) (ino offset : Nat) (block : β) (i o : Nat) :
    o < (writeFile files ino offset block i).size ↔
      o < (files i).size ∨ (i = ino ∧ o ≤ offset) := by
  unfold writeFile
  by_cases hi : i = ino
  · subst hi
    rw [Function.update_self]
    change o < max (files i).size (offset + 1) ↔ _
    omega
  · simp [hi]

/-- Writing a block that the file already has changes nothing. -/
theorem writeFile_same {files : Files β} {ino offset : Nat} {block : β}
    (hb : (files ino).data offset = block) (hlt : offset < (files ino).size) :
    writeFile files ino offset block = files := by
  have hw : (files ino).write offset block = files ino := by
    unfold SparseFile.write
    rw [← hb, Function.update_eq_self, Nat.max_eq_left hlt]
  unfold writeFile
  rw [hw, Function.update_eq_self]

theorem buffers_init (ninodes : Nat) (below : σ) (blocks : Fin (n + 1) → β) (files : Files β) :
    Buffers ninodes (init below blocks).slots files files where
  unique := fun _ _ hi _ => absurd rfl hi
  proper := fun _ hi => absurd rfl hi
  clean := fun _ hi _ => absurd rfl hi
  cached := fun _ hi => absurd rfl hi
  absent := fun _ _ _ => rfl
  size := by
    refine fun _ _ => ⟨.inl, ?_⟩
    rintro (h | ⟨_, hi, _⟩)
    · exact h
    · exact absurd rfl hi.1

namespace Buffers

variable {ninodes : Nat} {slots : Fin n → Slot β} {low files : Files β}
  (h : Buffers ninodes slots low files)

include h

theorem offset_lt {i : Fin n} (hi : (slots i).Live) :
    (slots i).offset < (files (slots i).ino).size := by
  rw [h.size]
  cases hd : (slots i).dirty with
  | false => exact .inl (h.clean i hi hd).2
  | true => exact .inr ⟨i, ⟨hi, hd, rfl⟩, Nat.le_refl _⟩

/-- A slot is taken over for a block that no other slot holds. What it held before is
safe below, or it is the same block. -/
theorem place {i : Fin n} (slot : Slot β) (hl : slot.Live)
    (hp : slot.ino < ninodes ∧ slot.offset + 1 < 2 ^ 32)
    (hsafe : (slots i).Live → (slots i).dirty = true → (slots i).Holds slot.ino slot.offset)
    (hnew : ∀ j, j ≠ i → ¬(slots j).Holds slot.ino slot.offset)
    (hclean : slot.dirty = false → slot.block = (low slot.ino).data slot.offset ∧
      slot.offset < (low slot.ino).size) :
    Buffers ninodes (Function.update slots i slot) low
      (writeFile files slot.ino slot.offset slot.block) := by
  have hself : Function.update slots i slot i = slot := Function.update_self _ _ _
  have hother : ∀ j, j ≠ i → Function.update slots i slot j = slots j :=
    fun j hj => Function.update_of_ne hj _ _
  constructor
  · intro a b ha hb
    exact distinct_update (R := fun (old new : Slot β) => old.Live ∧ new.Holds old.ino old.offset)
      (fun _ _ hr => ⟨hr.2.1, hr.1, hr.2.2.1.symm, hr.2.2.2.symm⟩)
      (fun j k hr => h.unique j k hr.1 hr.2) (fun j hj hr => hnew j hj hr.2) a b ⟨ha, hb⟩
  · intro a ha
    by_cases hai : a = i
    · rw [hai, hself]; exact hp
    · rw [hother a hai] at ha ⊢; exact h.proper a ha
  · intro a ha hd
    by_cases hai : a = i
    · rw [hai, hself] at hd ⊢; exact hclean hd
    · rw [hother a hai] at ha hd ⊢; exact h.clean a ha hd
  · intro a ha
    rw [writeFile_data]
    by_cases hai : a = i
    · rw [hai, hself, if_pos ⟨rfl, rfl⟩]
    · rw [hother a hai] at ha ⊢
      rw [if_neg (fun he => hnew a hai ⟨ha, he.1, he.2⟩)]
      exact h.cached a ha
  · intro ino offset hn
    have hne : ¬(ino = slot.ino ∧ offset = slot.offset) := by
      rintro ⟨rfl, rfl⟩
      refine hn i ?_
      rw [hself]
      exact ⟨hl, rfl, rfl⟩
    rw [writeFile_data, if_neg hne]
    by_cases hold : (slots i).Holds ino offset
    · -- the block that the slot gives up is clean
      obtain ⟨hli, rfl, rfl⟩ := hold
      have hd : (slots i).dirty = false := by
        cases hd : (slots i).dirty with
        | false => rfl
        | true => exact absurd (hsafe hli hd).2 hne
      rw [← (h.clean i hli hd).1]
      exact h.cached i hli
    · refine h.absent ino offset (fun j hj => ?_)
      by_cases hji : j = i
      · exact hold (hji ▸ hj)
      · exact hn j (by rw [hother j hji]; exact hj)
  · intro ino offset
    rw [lt_writeFile_size, h.size]
    constructor
    · rintro ((hlow | ⟨j, hj, hle⟩) | ⟨rfl, hle⟩)
      · exact .inl hlow
      · by_cases hji : j = i
        · -- it was dirty, so it is the block that is replaced
          rw [hji] at hj hle
          obtain ⟨hlj, hdj, hinoj⟩ := hj
          obtain ⟨-, hino, hoff⟩ := hsafe hlj hdj
          rw [hoff] at hle
          cases hd : slot.dirty with
          | false =>
            have hlt := (hclean hd).2
            rw [← hino, hinoj] at hlt
            exact .inl (by omega)
          | true =>
            exact .inr ⟨i, by rw [hself]; exact ⟨hl, hd, hino.symm.trans hinoj⟩,
              by rw [hself]; exact hle⟩
        · exact .inr ⟨j, by rw [hother j hji]; exact hj, by rw [hother j hji]; exact hle⟩
      · cases hd : slot.dirty with
        | false =>
          have hlt := (hclean hd).2
          exact .inl (by omega)
        | true =>
          exact .inr ⟨i, by rw [hself]; exact ⟨hl, hd, rfl⟩, by rw [hself]; exact hle⟩
    · rintro (hlow | ⟨j, hj, hle⟩)
      · exact .inl (.inl hlow)
      · by_cases hji : j = i
        · rw [hji, hself] at hj hle
          exact .inr ⟨hj.2.2.symm, hle⟩
        · rw [hother j hji] at hj hle
          exact .inl (.inr ⟨j, hj, hle⟩)

theorem age {i : Fin n} (hi : (slots i).Live) {status : Status} (hs : status ≠ .empty) :
    Buffers ninodes (Function.update slots i { slots i with status := status }) low files := by
  have hp := h.place (i := i) { slots i with status := status } hs (h.proper i hi)
    (fun _ _ => ⟨hi, rfl, rfl⟩)
    (fun j hj hh => hj (h.unique i j hi hh).symm) (fun hd => h.clean i hi hd)
  rwa [writeFile_same (h.cached i hi).symm (h.offset_lt hi)] at hp

theorem flush {i : Fin n} (hi : (slots i).Live) :
    Buffers ninodes (Function.update slots i { slots i with dirty := false })
      (writeFile low (slots i).ino (slots i).offset (slots i).block) files := by
  have hself : Function.update slots i { slots i with dirty := false } i =
      { slots i with dirty := false } := Function.update_self _ _ _
  have hother : ∀ j, j ≠ i →
      Function.update slots i { slots i with dirty := false } j = slots j :=
    fun j hj => Function.update_of_ne hj _ _
  have hholds : ∀ j ino offset,
      (Function.update slots i { slots i with dirty := false } j).Holds ino offset ↔
        (slots j).Holds ino offset := by
    intro j ino offset
    by_cases hji : j = i
    · rw [hji, hself]; rfl
    · rw [hother j hji]
  constructor
  · intro a b ha hb
    rw [hholds] at hb
    by_cases hai : a = i
    · rw [hai, hself] at hb
      rw [hai]
      exact h.unique i b hi hb
    · rw [hother a hai] at ha hb
      exact h.unique a b ha hb
  · intro a ha
    by_cases hai : a = i
    · rw [hai, hself]; exact h.proper i hi
    · rw [hother a hai] at ha ⊢; exact h.proper a ha
  · intro a ha hd
    rw [writeFile_data, lt_writeFile_size]
    by_cases hai : a = i
    · rw [hai, hself, if_pos ⟨rfl, rfl⟩]
      exact ⟨rfl, .inr ⟨rfl, Nat.le_refl _⟩⟩
    · rw [hother a hai] at ha hd ⊢
      rw [if_neg (fun he => hai (h.unique i a hi ⟨ha, he.1, he.2⟩).symm)]
      exact ⟨(h.clean a ha hd).1, .inl (h.clean a ha hd).2⟩
  · intro a ha
    by_cases hai : a = i
    · rw [hai, hself]; exact h.cached i hi
    · rw [hother a hai] at ha ⊢; exact h.cached a ha
  · intro ino offset hn
    simp only [hholds] at hn
    rw [writeFile_data, if_neg (fun he => hn i ⟨hi, he.1.symm, he.2.symm⟩)]
    exact h.absent ino offset hn
  · intro ino offset
    rw [h.size, lt_writeFile_size]
    constructor
    · rintro (hlow | ⟨j, hj, hle⟩)
      · exact .inl (.inl hlow)
      · by_cases hji : j = i
        · rw [hji] at hj hle
          exact .inl (.inr ⟨hj.2.2.symm, hle⟩)
        · exact .inr ⟨j, by rw [hother j hji]; exact hj, by rw [hother j hji]; exact hle⟩
    · rintro ((hlow | ⟨rfl, hle⟩) | ⟨j, hj, hle⟩)
      · exact .inl hlow
      · have hlt := h.offset_lt hi
        rw [← h.size]
        omega
      · by_cases hji : j = i
        · rw [hji, hself] at hj
          exact absurd hj.2.1 (by simp)
        · rw [hother j hji] at hj hle
          exact .inr ⟨j, hj, hle⟩

/-- With no dirty slot past the end below the two sizes agree. -/
theorem size_eq {ino : Nat} (ha : ∀ i, Pending (slots i) ino → (slots i).offset < (low ino).size) :
    (files ino).size = (low ino).size := by
  have hlt : ∀ offset, offset < (files ino).size ↔ offset < (low ino).size := by
    intro offset
    rw [h.size]
    constructor
    · rintro (hlow | ⟨i, hi, hle⟩)
      · exact hlow
      · have hb := ha i hi
        omega
    · exact .inl
  have h1 := hlt (files ino).size
  have h2 := hlt (low ino).size
  omega

theorem truncate (cs : State β σ n) (hcs : cs.slots = slots) (ino : Nat) (blank : β) :
    Buffers ninodes (dropSlots cs ino 0).slots (Function.update low ino (.empty blank))
      (Function.update files ino (.empty blank)) := by
  subst hcs
  have hlive : ∀ i, ((dropSlots cs ino 0).slots i).Live →
      (dropSlots cs ino 0).slots i = cs.slots i ∧ (cs.slots i).Live ∧ (cs.slots i).ino ≠ ino := by
    intro i hi
    obtain ⟨hs, hl, hout⟩ := dropSlots_live hi
    exact ⟨hs, hl, fun he => hout ⟨he, Nat.zero_le _⟩⟩
  have hkept : ∀ i, (cs.slots i).Live → (cs.slots i).ino ≠ ino →
      (dropSlots cs ino 0).slots i = cs.slots i :=
    fun i _ hne => dropSlots_kept fun hd => hne hd.1
  constructor
  · intro a b ha hb
    obtain ⟨hsa, hla, -⟩ := hlive a ha
    obtain ⟨hsb, -, -⟩ := hlive b hb.1
    rw [hsa, hsb] at hb
    exact h.unique a b hla hb
  · intro a ha
    obtain ⟨hsa, hla, -⟩ := hlive a ha
    rw [hsa]
    exact h.proper a hla
  · intro a ha hd
    obtain ⟨hsa, hla, hne⟩ := hlive a ha
    rw [hsa] at hd ⊢
    rw [Function.update_of_ne hne]
    exact h.clean a hla hd
  · intro a ha
    obtain ⟨hsa, hla, hne⟩ := hlive a ha
    rw [hsa, Function.update_of_ne hne]
    exact h.cached a hla
  · intro i offset hn
    by_cases hi : i = ino
    · rw [hi, Function.update_self, Function.update_self]
    · rw [Function.update_of_ne hi, Function.update_of_ne hi]
      refine h.absent i offset (fun j hj => hn j ?_)
      rw [hkept j hj.1 (by rw [hj.2.1]; exact hi)]
      exact hj
  · intro i offset
    by_cases hi : i = ino
    · rw [hi, Function.update_self, Function.update_self]
      constructor
      · exact .inl
      · rintro (hlow | ⟨j, hj, -⟩)
        · exact hlow
        · obtain ⟨hsj, -, hne⟩ := hlive j hj.1
          rw [hsj] at hj
          exact absurd hj.2.2 hne
    · rw [Function.update_of_ne hi, Function.update_of_ne hi, h.size]
      constructor
      · rintro (hlow | ⟨j, hj, hle⟩)
        · exact .inl hlow
        · have hk := hkept j hj.1 (by rw [hj.2.2]; exact hi)
          exact .inr ⟨j, by rw [hk]; exact hj, by rw [hk]; exact hle⟩
      · rintro (hlow | ⟨j, hj, hle⟩)
        · exact .inl hlow
        · obtain ⟨hsj, -, -⟩ := hlive j hj.1
          rw [hsj] at hj hle
          exact .inr ⟨j, hj, hle⟩

end Buffers

/-- A store of sparse files. A write may find it full, and for some sizes a truncation
does not return. -/
structure GrowingStore (β σ : Type) extends BlockStore β σ where
  ninodes : Nat
  blank : β
  outOfSpace : Stop
  Endless : Nat → Prop
  Good : σ → Files β → Prop
  size : σ → Nat → Nat
  size_eq : ∀ {s files}, Good s files → ∀ {ino}, ino < ninodes → size s ino = (files ino).size
  size_lt : ∀ {s files}, Good s files → ∀ {ino}, ino < ninodes → (files ino).size < 2 ^ 32
  outcome_getsize : ∀ {s files}, Good s files → ∀ {ino}, ino < ninodes →
    Outcome (getsize ino) (fun r s' => r = toInt (files ino).size ∧ Good s' files)
      (fun _ _ => False) s
  outcome_read : ∀ {s files}, Good s files → ∀ {ino}, ino < ninodes → ∀ offset,
    Outcome (read ino offset) (fun r s' => r = (files ino).read offset ∧ Good s' files)
      (fun _ _ => False) s
  outcome_write : ∀ {s files}, Good s files → ∀ {ino}, ino < ninodes →
    ∀ {offset}, offset + 1 < 2 ^ 32 → ∀ block,
    Outcome (write ino offset block)
      (fun r s' => r = 0 ∧ Good s' (writeFile files ino offset block))
      (fun e _ => e = outOfSpace) s
  outcome_truncate : ∀ {s files}, Good s files → ∀ {ino}, ino < ninodes →
    Outcome (setsize ino 0)
      (fun r s' => r = toInt (files ino).size ∧ ¬ Endless (files ino).size ∧
        Good s' (Function.update files ino (.empty blank)))
      (fun e _ => e = .diverge ∧ Endless (files ino).size) s
  outcome_sync : ∀ {s files}, Good s files → ∀ ino,
    Outcome (sync ino) (fun r s' => r = 0 ∧ Good s' files) (fun _ _ => False) s

end Egos.Disk.Stack
