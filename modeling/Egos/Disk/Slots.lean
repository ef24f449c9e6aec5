import Egos.Disk.Clockdisk
import Egos.Lib.Table

/-!
# What the slots of the cache show

`Shows view slots ref` ties the slots to the contents `ref` that a store holding
`view` would have without the cache. Each change of a slot keeps it. The calls of the
cache are followed once, over any store below that does what `Backing` asks for: a
write may stop the program and a read may fail, as the store at hand permits.
-/
namespace Egos.Disk.Clockdisk

open Egos.Lib

set_option autoImplicit false

variable {β σ : Type} {n : Nat}

/-- The slot is in use. -/
def Slot.Live (slot : Slot β) : Prop := slot.status ≠ .empty

instance (slot : Slot β) : Decidable slot.Live := inferInstanceAs (Decidable (_ ≠ _))

/-- The slot is in use for this block. -/
def Slot.Holds (slot : Slot β) (ino offset : Nat) : Prop :=
  slot.Live ∧ slot.ino = ino ∧ slot.offset = offset

theorem Slot.caches_iff {slot : Slot β} {ino offset : Nat} :
    slot.caches ino offset = true ↔ slot.Holds ino offset := by
  simp [Slot.caches, Slot.Holds, Slot.Live, and_assoc]

theorem lookup_some {cs : State β σ n} {ino offset : Nat} {i : Fin n}
    (h : lookup cs ino offset = some i) : (cs.slots i).Holds ino offset := by
  have hc := List.find?_some h
  exact Slot.caches_iff.mp hc

theorem lookup_none {cs : State β σ n} {ino offset : Nat}
    (h : lookup cs ino offset = none) (i : Fin n) : ¬(cs.slots i).Holds ino offset := by
  intro hh
  have hn := List.find?_eq_none.mp h i (List.mem_finRange i)
  exact hn (Slot.caches_iff.mpr hh)

/-- What slots over a store that holds `view` show to their user: a live slot holds the
block of `ref`, a clean one also that of the store, no block is cached twice, and a block
that is not cached is up to date below. -/
structure Shows (view : Nat → Nat → β) (slots : Fin n → Slot β) (ref : Nat → Nat → β) : Prop where
  unique : ∀ i j, (slots i).Live → (slots j).Holds (slots i).ino (slots i).offset → i = j
  clean : ∀ i, (slots i).Live → (slots i).dirty = false →
    (slots i).block = view (slots i).ino (slots i).offset
  cached : ∀ i, (slots i).Live → (slots i).block = ref (slots i).ino (slots i).offset
  absent : ∀ ino offset, (∀ i, ¬(slots i).Holds ino offset) → view ino offset = ref ino offset

namespace Shows

variable {view ref : Nat → Nat → β} {slots : Fin n → Slot β} (h : Shows view slots ref)

include h

theorem writeBack {i : Fin n} (hi : (slots i).Live) :
    Shows (setBlock view (slots i).ino (slots i).offset (slots i).block) slots ref := by
  refine ⟨h.unique, ?_, h.cached, ?_⟩
  · intro j hj hd
    by_cases he : (slots j).ino = (slots i).ino ∧ (slots j).offset = (slots i).offset
    · have hji : i = j := h.unique i j hi ⟨hj, he.1, he.2⟩
      subst hji
      simp
    · rw [setBlock_other he]
      exact h.clean j hj hd
  · intro ino offset hn
    have he : ¬(ino = (slots i).ino ∧ offset = (slots i).offset) :=
      fun he => hn i ⟨hi, he.1.symm, he.2.symm⟩
    rw [setBlock_other he]
    exact h.absent ino offset hn

/-- A slot can be given to a block that no other slot holds, if the block it gives
up for that is safe below. The reference then has the new block. -/
theorem setSlot {i : Fin n} (slot : Slot β) (hl : slot.Live)
    (hnew : ∀ j, j ≠ i → ¬(slots j).Holds slot.ino slot.offset)
    (hsafe : (slots i).Live → ¬(slots i).Holds slot.ino slot.offset →
      view (slots i).ino (slots i).offset = (slots i).block)
    (hd : slot.dirty = false → slot.block = view slot.ino slot.offset) :
    Shows view (Function.update slots i slot) (setBlock ref slot.ino slot.offset slot.block) := by
  have hself : (Function.update slots i slot) i = slot := by simp
  have hother : ∀ j, j ≠ i → (Function.update slots i slot) j = slots j := by
    intro j hj; simp [hj]
  have hkey : ∀ j, j ≠ i → (slots j).Live →
      ¬((slots j).ino = slot.ino ∧ (slots j).offset = slot.offset) :=
    fun j hj hlj he => hnew j hj ⟨hlj, he.1, he.2⟩
  constructor
  · intro a b ha hb
    exact distinct_update (R := fun (old new : Slot β) => old.Live ∧ new.Holds old.ino old.offset)
      (fun _ _ hr => ⟨hr.2.1, hr.1, hr.2.2.1.symm, hr.2.2.2.symm⟩)
      (fun j k hr => h.unique j k hr.1 hr.2) (fun j hj hr => hnew j hj hr.2) a b ⟨ha, hb⟩
  · intro a ha hda
    by_cases hai : a = i
    · rw [hai, hself] at hda ⊢
      exact hd hda
    · rw [hother a hai] at ha hda ⊢
      exact h.clean a ha hda
  · intro a ha
    by_cases hai : a = i
    · rw [hai, hself, setBlock_same]
    · rw [hother a hai] at ha ⊢
      rw [setBlock_other (hkey a hai ha)]
      exact h.cached a ha
  · intro ino offset hn
    have hne : ¬(ino = slot.ino ∧ offset = slot.offset) := by
      rintro ⟨rfl, rfl⟩
      exact hn i (by rw [hself]; exact ⟨hl, rfl, rfl⟩)
    rw [setBlock_other hne]
    by_cases hold : (slots i).Holds ino offset
    · obtain ⟨hli, rfl, rfl⟩ := hold
      exact (hsafe hli (fun hh => hne hh.2)).trans (h.cached i hli)
    · refine h.absent ino offset (fun j hj => ?_)
      by_cases hji : j = i
      · exact hold (hji ▸ hj)
      · exact hn j (by rw [hother j hji]; exact hj)

theorem touch {i : Fin n} (hi : (slots i).Live) (status : Status) (hs : status ≠ .empty)
    (dirty : Bool) (block : β)
    (hd : dirty = false → block = view (slots i).ino (slots i).offset) :
    Shows view (Function.update slots i ⟨status, dirty, (slots i).ino, (slots i).offset, block⟩)
      (setBlock ref (slots i).ino (slots i).offset block) := by
  refine h.setSlot ⟨status, dirty, (slots i).ino, (slots i).offset, block⟩ hs ?_ ?_ hd
  · intro j hj hh
    exact hj (h.unique i j hi hh).symm
  · intro _ hne
    exact absurd ⟨hi, rfl, rfl⟩ hne

theorem age {i : Fin n} (hi : (slots i).Live) {status : Status} (hs : status ≠ .empty) :
    Shows view (Function.update slots i { slots i with status := status }) ref := by
  have ht := h.touch hi status hs (slots i).dirty (slots i).block (h.clean i hi)
  rwa [setBlock_self (h.cached i hi).symm] at ht

end Shows

theorem dropSlots_live {cs : State β σ n} {ino nblocks : Nat} {i : Fin n}
    (hi : ((dropSlots cs ino nblocks).slots i).Live) :
    (dropSlots cs ino nblocks).slots i = cs.slots i ∧ (cs.slots i).Live ∧
      ¬((cs.slots i).ino = ino ∧ nblocks ≤ (cs.slots i).offset) := by
  unfold dropSlots at hi ⊢
  dsimp only at hi ⊢
  split at hi
  · exact absurd rfl hi
  · rename_i hkeep
    rw [if_neg hkeep]
    exact ⟨rfl, hi, fun he => hkeep ⟨hi, he⟩⟩

theorem dropSlots_kept {cs : State β σ n} {ino nblocks : Nat} {i : Fin n}
    (hi : ¬((cs.slots i).ino = ino ∧ nblocks ≤ (cs.slots i).offset)) :
    (dropSlots cs ino nblocks).slots i = cs.slots i :=
  if_neg fun hd => hi hd.2

/-- A truncation of the store below, for which the slots past the new size are dropped. -/
theorem Shows.drop {cs : State β σ n} {view view' ref ref' : Nat → Nat → β}
    (h : Shows view cs.slots ref) {ino nblocks : Nat}
    (hkeep : ∀ i offset, ¬(i = ino ∧ nblocks ≤ offset) →
      view' i offset = view i offset ∧ ref' i offset = ref i offset)
    (hcut : ∀ offset, nblocks ≤ offset → view' ino offset = ref' ino offset) :
    Shows view' (dropSlots cs ino nblocks).slots ref' := by
  constructor
  · intro a b ha hb
    obtain ⟨hsa, hla, -⟩ := dropSlots_live ha
    obtain ⟨hsb, -, -⟩ := dropSlots_live hb.1
    rw [hsa, hsb] at hb
    exact h.unique a b hla hb
  · intro a ha hd
    obtain ⟨hsa, hla, hout⟩ := dropSlots_live ha
    rw [hsa] at hd ⊢
    rw [(hkeep _ _ hout).1]
    exact h.clean a hla hd
  · intro a ha
    obtain ⟨hsa, hla, hout⟩ := dropSlots_live ha
    rw [hsa, (hkeep _ _ hout).2]
    exact h.cached a hla
  · intro i offset hn
    by_cases hc : i = ino ∧ nblocks ≤ offset
    · rw [hc.1]
      exact hcut offset hc.2
    · rw [(hkeep i offset hc).1, (hkeep i offset hc).2]
      refine h.absent i offset (fun j hj => hn j ?_)
      rw [dropSlots_kept (by rw [hj.2.1, hj.2.2]; exact hc)]
      exact hj

section Hand

variable {cs : State β σ n}

/-- The slots the hand still has to age before it finds a victim. -/
def newSlots (cs : State β σ n) : Finset (Fin n) :=
  Finset.univ.filter fun i => (cs.slots i).status = .new

theorem newSlots_age {i : Fin n} (hi : (cs.slots i).status = .new) (hand : Fin n) :
    (newSlots { cs.setSlot i { cs.slots i with status := .old } with clockHand := hand }).card <
      (newSlots cs).card := by
  have hslots := slots_update cs.slots i { cs.slots i with status := .old } fun slot =>
    slot.status = .new
  rw [if_pos hi] at hslots
  exact Nat.lt_of_succ_le (Nat.le_of_eq hslots)

theorem newSlots_lt (cs : State β σ n) : (newSlots cs).card < n + 1 := by
  have hle := Finset.card_le_univ (newSlots cs)
  rw [Fintype.card_fin] at hle
  omega

end Hand

/-- What the cache needs of the store below, for the blocks in `Range`. -/
structure Backing (β σ : Type) extends BlockStore β σ where
  view : σ → Nat → Nat → β
  Good : σ → Prop
  Range : Nat → Nat → Prop
  ReadFails : Prop
  WriteStops : Prop
  outcome_read : ∀ {s}, Good s → ∀ {ino offset}, Range ino offset → Outcome (read ino offset)
    (fun r s' => (r = some (view s ino offset) ∨ (r = none ∧ ReadFails)) ∧ Good s' ∧
      view s' = view s) (fun _ _ => False) s
  outcome_write : ∀ {s}, Good s → ∀ {ino offset}, Range ino offset → ∀ block,
    Outcome (write ino offset block)
      (fun _ s' => Good s' ∧ view s' = setBlock (view s) ino offset block)
      (fun _ _ => WriteStops) s
  outcome_sync : ∀ {s}, Good s → ∀ ino,
    Outcome (sync ino) (fun _ s' => Good s' ∧ view s' = view s) (fun _ _ => False) s

/-- The cache over this store shows the contents `ref`. -/
structure Serves (B : Backing β σ) (cs : State β σ n) (ref : Nat → Nat → β) : Prop where
  good : B.Good cs.below
  range : ∀ i, (cs.slots i).Live → B.Range (cs.slots i).ino (cs.slots i).offset
  shows : Shows (B.view cs.below) cs.slots ref

namespace Serves

variable {B : Backing β σ} {cs : State β σ n} {ref : Nat → Nat → β}

theorem below (h : Serves B cs ref) {s : σ} (hg : B.Good s) (hv : B.view s = B.view cs.below) :
    Serves B { cs with below := s } ref := by
  refine ⟨hg, h.range, ?_⟩
  change Shows (B.view s) cs.slots ref
  rw [hv]
  exact h.shows

theorem setSlot (h : Serves B cs ref) {i : Fin n} (slot : Slot β) (hand : Fin n)
    (hr : B.Range slot.ino slot.offset) {ref' : Nat → Nat → β}
    (hs : Shows (B.view cs.below) (Function.update cs.slots i slot) ref') :
    Serves B { cs.setSlot i slot with clockHand := hand } ref' := by
  refine ⟨h.good, fun j hj => ?_, hs⟩
  simp only [State.setSlot] at hj ⊢
  by_cases hji : j = i
  · rw [hji, Function.update_self]
    exact hr
  · rw [Function.update_of_ne hji] at hj ⊢
    exact h.range j hj

theorem age (h : Serves B cs ref) {i : Fin n} (hi : (cs.slots i).Live) {status : Status}
    (hs : status ≠ .empty) (hand : Fin n) :
    Serves B { cs.setSlot i { cs.slots i with status := status } with clockHand := hand } ref :=
  h.setSlot { cs.slots i with status := status } hand (h.range i hi) (h.shows.age hi hs)

/-- After the write-back of a victim its block is safe below. -/
theorem outcome_writeBack (h : Serves B cs ref) (i : Fin n) :
    Outcome (writeBack B.toBlockStore (cs.slots i))
      (fun _ cs' => Serves B cs' ref ∧ cs'.slots = cs.slots ∧
        (∀ ino offset, (∀ j, ¬(cs.slots j).Holds ino offset) →
          B.view cs'.below ino offset = B.view cs.below ino offset) ∧
        ((cs.slots i).Live →
          B.view cs'.below (cs.slots i).ino (cs.slots i).offset = (cs.slots i).block))
      (fun _ _ => B.WriteStops) cs := by
  unfold writeBack
  split
  · rename_i hdirty
    rw [Outcome.bind_iff]
    refine outcome_onPart ((B.outcome_write h.good (h.range i hdirty.1) _).post ?_)
    rintro _ s ⟨hg, hv⟩
    have hb := h.shows.writeBack hdirty.1
    rw [← hv] at hb
    refine ⟨⟨hg, h.range, hb⟩, rfl, ?_, ?_⟩
    · intro ino offset hn
      change B.view s ino offset = _
      rw [hv, setBlock_other]
      exact fun he => hn i ⟨hdirty.1, he.1.symm, he.2.symm⟩
    · intro _
      change B.view s _ _ = _
      rw [hv, setBlock_same]
  · rename_i hclean
    refine ⟨h, rfl, fun _ _ _ => rfl, fun hl => ?_⟩
    have hd : (cs.slots i).dirty = false := by
      cases hc : (cs.slots i).dirty with
      | false => rfl
      | true => exact absurd ⟨hl, hc⟩ hclean
    exact (h.shows.clean i hl hd).symm

/-- `cache_update` ends within its rounds and caches the block. -/
theorem outcome_cacheUpdate {ino offset : Nat} {block : β} {dirty : Bool}
    (hr : B.Range ino offset) (rounds : Nat) :
    ∀ {cs : State β σ n}, Serves B cs ref → (∀ j, ¬(cs.slots j).Holds ino offset) →
      (dirty = false → block = B.view cs.below ino offset) → (newSlots cs).card < rounds →
      Outcome (cacheUpdate B.toBlockStore ino offset block dirty rounds)
        (fun _ cs' => Serves B cs' (setBlock ref ino offset block))
        (fun _ _ => B.WriteStops) cs := by
  induction rounds with
  | zero => intro cs _ _ _ hlt; omega
  | succ rounds ih =>
    intro cs h hnew hd hlt
    simp only [cacheUpdate, Outcome.bind_iff, Outcome.get_iff]
    split
    · rw [Outcome.bind_iff]
      refine (h.outcome_writeBack cs.clockHand).post ?_
      rintro _ cs' ⟨h', hslots, hkeep, hsafe⟩
      rw [Outcome.modify_iff]
      refine h'.setSlot ⟨.new, dirty, ino, offset, block⟩ _ hr
        (h'.shows.setSlot ⟨.new, dirty, ino, offset, block⟩ (by simp [Slot.Live]) ?_ ?_ ?_)
      · intro j _
        rw [hslots]
        exact hnew j
      · intro hl _
        rw [hslots] at hl ⊢
        exact hsafe hl
      · intro hc
        exact (hd hc).trans (hkeep ino offset hnew).symm
    · rename_i hstatus
      have hnewst : (cs.slots cs.clockHand).status = .new := by simpa using hstatus
      have hl : (cs.slots cs.clockHand).Live := by simp [Slot.Live, hnewst]
      rw [Outcome.bind_iff, Outcome.modify_iff]
      refine ih (h.age hl (by decide) _) ?_ hd ?_
      · intro j hj
        refine hnew j ?_
        simp only [State.setSlot] at hj
        by_cases hji : j = cs.clockHand
        · rw [hji, Function.update_self] at hj
          exact hji ▸ ⟨hl, hj.2⟩
        · rwa [Function.update_of_ne hji] at hj
      · exact (newSlots_age hnewst (next cs.clockHand)).trans_le (Nat.le_of_lt_succ hlt)

/-- A read returns the block shown, unless the store below has to be asked and fails. -/
theorem outcome_read (h : Serves B cs ref) {ino offset : Nat} (hr : B.Range ino offset) :
    Outcome (read B.toBlockStore ino offset)
      (fun r cs' => (r = some (ref ino offset) ∨ (r = none ∧ B.ReadFails)) ∧ Serves B cs' ref)
      (fun _ _ => B.WriteStops) cs := by
  simp only [read, Outcome.bind_iff, Outcome.get_iff]
  cases hl : lookup cs ino offset with
  | some i =>
    obtain ⟨hlive, rfl, rfl⟩ := lookup_some hl
    simp only [Outcome.bind_iff, Outcome.modify_iff, Outcome.pure_iff]
    exact ⟨.inl (by rw [h.shows.cached i hlive]), h.age hlive (by decide) cs.clockHand⟩
  | none =>
    have hnew := lookup_none hl
    have hval := h.shows.absent ino offset hnew
    simp only [Outcome.bind_iff]
    refine outcome_onPart ((B.outcome_read h.good hr).mono ?_ (fun _ _ he => he.elim))
    rintro r s ⟨rfl | ⟨rfl, hfail⟩, hg, hv⟩
    · simp only [Outcome.bind_iff, Outcome.pure_iff]
      refine ((h.below hg hv).outcome_cacheUpdate hr (n + 1) hnew (fun _ => ?_)
        (newSlots_lt _)).post ?_
      · change _ = B.view s ino offset
        rw [hv]
      · intro _ cs' hc
        rw [hval, setBlock_self rfl] at hc
        rw [hval]
        exact ⟨.inl rfl, hc⟩
    · exact ⟨.inr ⟨rfl, hfail⟩, h.below hg hv⟩

/-- A write is acknowledged, and the block shown from then on. -/
theorem outcome_write (h : Serves B cs ref) {ino offset : Nat} (hr : B.Range ino offset)
    (block : β) :
    Outcome (write B.toBlockStore ino offset block)
      (fun r cs' => r = 0 ∧ Serves B cs' (setBlock ref ino offset block))
      (fun _ _ => B.WriteStops) cs := by
  simp only [write, Outcome.bind_iff, Outcome.get_iff]
  cases hl : lookup cs ino offset with
  | some i =>
    obtain ⟨hlive, rfl, rfl⟩ := lookup_some hl
    simp only [Outcome.bind_iff, Outcome.modify_iff, Outcome.pure_iff]
    exact ⟨trivial, h.setSlot ⟨.new, true, (cs.slots i).ino, (cs.slots i).offset, block⟩
      cs.clockHand hr (h.shows.touch hlive .new (by decide) true block (fun hc => by cases hc))⟩
  | none =>
    simp only [Outcome.bind_iff, Outcome.pure_iff]
    refine (h.outcome_cacheUpdate hr (n + 1) (lookup_none hl)
      (fun hc => by cases hc) (newSlots_lt cs)).post ?_
    intro _ cs' h'
    exact ⟨trivial, h'⟩

end Serves

/-- The slots that `sync` of this inode has to write back. -/
def Slot.Wanted (slot : Slot β) (ino : Nat) : Prop :=
  slot.Live ∧ (slot.ino = ino ∨ ino = allInodes)

theorem Serves.outcome_sync {B : Backing β σ} {cs : State β σ n} {ref : Nat → Nat → β}
    (h : Serves B cs ref) (ino : Nat) :
    Outcome (sync B.toBlockStore ino)
      (fun _ cs' => Serves B cs' ref ∧ ∀ i, i = ino ∨ ino = allInodes →
        ∀ offset, B.view cs'.below i offset = ref i offset) (fun _ _ => B.WriteStops) cs := by
  unfold sync
  refine Outcome.seq (R := fun _ cs' => Serves B cs' ref ∧
      ∀ i, (cs'.slots i).Wanted ino → (cs'.slots i).dirty = false) ?_ ?_
  · refine (Outcome.forM (fun done cs' => Serves B cs' ref ∧
      ∀ i ∈ done, (cs'.slots i).Wanted ino → (cs'.slots i).dirty = false) ⟨h, by simp⟩ ?_).post ?_
    · rintro done i _ - cs ⟨h, hdone⟩
      simp only [syncSlot, Outcome.bind_iff, Outcome.get_iff]
      split
      · rename_i hw
        rw [Outcome.bind_iff]
        refine outcome_onPart ((B.outcome_write h.good (h.range i hw.1) _).post ?_)
        rintro _ s ⟨hg, hv⟩
        have hb := h.shows.writeBack hw.1
        rw [← hv] at hb
        rw [Outcome.modify_iff]
        have ht := hb.touch (i := i) hw.1 (cs.slots i).status hw.1 false (cs.slots i).block
          (fun _ => by simp [hv])
        rw [setBlock_self (hb.cached i hw.1).symm] at ht
        have h' : Serves B { cs with below := s } ref := ⟨hg, h.range, hb⟩
        refine ⟨h'.setSlot { cs.slots i with dirty := false } cs.clockHand (h.range i hw.1) ht,
          fun j hj hwj => ?_⟩
        by_cases hji : j = i
        · subst hji; simp [State.setSlot]
        · simp only [State.setSlot, Function.update_of_ne hji] at hwj ⊢
          rw [List.mem_append, List.mem_singleton] at hj
          exact hdone j (hj.resolve_right hji) hwj
      · rename_i hw
        refine ⟨h, fun j hj hwj => ?_⟩
        rw [List.mem_append, List.mem_singleton] at hj
        rcases hj with hj | rfl
        · exact hdone j hj hwj
        · cases hd : (cs.slots j).dirty with
          | false => rfl
          | true => exact absurd ⟨hwj.1, hd, hwj.2⟩ hw
    · rintro _ cs' ⟨h', hall⟩
      exact ⟨h', fun i => hall i (List.mem_finRange i)⟩
  · rintro _ cs' ⟨h', hclean⟩
    refine outcome_onPart ((B.outcome_sync h'.good ino).mono ?_ (fun _ _ he => he.elim))
    rintro _ s ⟨hg, hv⟩
    have h'' := h'.below hg hv
    refine ⟨h'', fun i hi offset => ?_⟩
    by_cases hc : ∃ j, (cs'.slots j).Holds i offset
    · obtain ⟨j, hl, rfl, rfl⟩ := hc
      have hd := hclean j ⟨hl, hi⟩
      exact (h''.shows.clean j hl hd).symm.trans (h''.shows.cached j hl)
    · exact h''.shows.absent i offset (fun j hj => hc ⟨j, hj⟩)

end Egos.Disk.Clockdisk
