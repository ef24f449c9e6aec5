import Egos.Disk.Clockdisk
import Egos.Lib.Table

/-!
# The write-through cache `wtclockdisk.c`

As in `Clockdisk` one record per slot joins `block_infos[i]` with the cached
`blocks[i]`, the counters of the printed statistics are left out, and the loop of
`cache_update` is given the rounds it can need. No slot is ever dirty: each write goes
to the store below at once.
-/
namespace Egos.Disk.Wtclockdisk

open Egos.Lib
open Egos.Disk.Clockdisk (Status next)

set_option autoImplicit false

/-- `block_infos[i]` together with the memory of `blocks[i]`. -/
structure Slot (β : Type) where
  status : Status
  ino : Nat
  offset : Nat
  block : β

/-- `struct wtclockdisk_state` over a store below in state `below`. -/
structure State (β σ : Type) (n : Nat) where
  below : σ
  slots : Fin n → Slot β
  clockHand : Fin n

variable {β σ : Type} {n : Nat}

/-- The slot is in use and caches this block. -/
def Slot.caches (slot : Slot β) (ino offset : Nat) : Bool :=
  slot.status ≠ .empty && slot.ino == ino && slot.offset == offset

def State.setSlot (cs : State β σ n) (i : Fin n) (slot : Slot β) : State β σ n :=
  { cs with slots := Function.update cs.slots i slot }

/-- Call the store below. -/
def onBelow {α : Type} (m : EStateM Stop σ α) : EStateM Stop (State β σ n) α :=
  onPart State.below (fun cs s => { cs with below := s }) m

theorem onBelow_ok {α : Type} {m : EStateM Stop σ α} {cs : State β σ n} {a : α} {s : σ}
    (h : m cs.below = .ok a s) : onBelow m cs = .ok a { cs with below := s } := by
  unfold onBelow onPart
  rw [h]

/-- The search loop of `read` and `write`: the first slot that caches the block. -/
def lookup (cs : State β σ n) (ino offset : Nat) : Option (Fin n) :=
  (List.finRange n).find? fun i => (cs.slots i).caches ino offset

/-- `cache_update`, with the number of rounds left. -/
def cacheUpdate (ino offset : Nat) (block : β) : Nat → EStateM Stop (State β σ n) Unit
  | 0 => throw .diverge
  | rounds + 1 => do
    let cs ← get
    let i := cs.clockHand
    if (cs.slots i).status ≠ .new then
      modify fun cs => { cs.setSlot i ⟨.new, ino, offset, block⟩ with clockHand := next i }
    else do
      modify fun cs =>
        { cs.setSlot i { cs.slots i with status := .old } with clockHand := next i }
      cacheUpdate ino offset block rounds

def getninodes (bs : BlockStore β σ) : EStateM Stop (State β σ n) Int := onBelow bs.getninodes

def getsize (bs : BlockStore β σ) (ino : Nat) : EStateM Stop (State β σ n) Int :=
  onBelow (bs.getsize ino)

/-- The slots of the blocks that the truncation cuts off are emptied first. -/
def dropSlots (cs : State β σ n) (ino nblocks : Nat) : State β σ n :=
  { cs with slots := fun i =>
      if (cs.slots i).status ≠ .empty ∧ (cs.slots i).ino = ino ∧ nblocks ≤ (cs.slots i).offset
      then { cs.slots i with status := .empty } else cs.slots i }

def setsize (bs : BlockStore β σ) (ino nblocks : Nat) : EStateM Stop (State β σ n) Int := do
  modify fun cs => dropSlots cs ino nblocks
  onBelow (bs.setsize ino nblocks)

def read (bs : BlockStore β σ) (ino offset : Nat) : EStateM Stop (State β σ n) (Option β) := do
  let cs ← get
  match lookup cs ino offset with
  | some i =>
    modify fun cs => cs.setSlot i { cs.slots i with status := .new }
    pure (some (cs.slots i).block)
  | none =>
    match ← onBelow (bs.read ino offset) with
    | none => pure none
    | some block => do
      cacheUpdate ino offset block (n + 1)
      pure (some block)

/-- A hit changes the slot before the store below is asked, and returns what that
answers; a miss caches the block only if the store below took it. -/
def write (bs : BlockStore β σ) (ino offset : Nat) (block : β) :
    EStateM Stop (State β σ n) Int := do
  let cs ← get
  match lookup cs ino offset with
  | some i =>
    modify fun cs => cs.setSlot i { cs.slots i with block := block, status := .new }
    onBelow (bs.write ino offset block)
  | none =>
    let w ← onBelow (bs.write ino offset block)
    if w = -1 then pure w
    else do
      cacheUpdate ino offset block (n + 1)
      pure 0

def sync (bs : BlockStore β σ) (ino : Nat) : EStateM Stop (State β σ n) Int :=
  onBelow (bs.sync ino)

/-- `wtclockdisk_init`: every slot is EMPTY and the hand is at slot 0. -/
def init (below : σ) (blocks : Fin (n + 1) → β) : State β σ (n + 1) where
  below := below
  slots := fun i => ⟨.empty, 0, 0, blocks i⟩
  clockHand := ⟨0, Nat.succ_pos n⟩

/-- The interface `wtclockdisk_init` returns. -/
def wtclockdisk (bs : BlockStore β σ) : BlockStore β (State β σ n) where
  getninodes := getninodes bs
  getsize := getsize bs
  setsize := setsize bs
  read := read bs
  write := write bs
  sync := sync bs

/-- The slot is in use. -/
def Slot.Live (slot : Slot β) : Prop := slot.status ≠ .empty

instance (slot : Slot β) : Decidable slot.Live := inferInstanceAs (Decidable (_ ≠ _))

/-- The slot is in use for this block. -/
def Slot.Holds (slot : Slot β) (ino offset : Nat) : Prop :=
  slot.Live ∧ slot.ino = ino ∧ slot.offset = offset

theorem Slot.caches_iff {slot : Slot β} {ino offset : Nat} :
    slot.caches ino offset = true ↔ slot.Holds ino offset := by
  simp [Slot.caches, Slot.Holds, Slot.Live, and_assoc]

theorem lookup_some {cs : State β σ n} {ino offset : Nat} {i : Fin n}
    (h : lookup cs ino offset = some i) : (cs.slots i).Holds ino offset := by
  have hc := List.find?_some h
  exact Slot.caches_iff.mp hc

theorem lookup_none {cs : State β σ n} {ino offset : Nat}
    (h : lookup cs ino offset = none) (i : Fin n) : ¬(cs.slots i).Holds ino offset := by
  intro hh
  have hn := List.find?_eq_none.mp h i (List.mem_finRange i)
  exact hn (Slot.caches_iff.mpr hh)

/-- No block is cached twice, and a live slot holds the block that `stored` has there. -/
structure Coherent (stored : Nat → Nat → Option β) (slots : Fin n → Slot β) : Prop where
  unique : ∀ i j, (slots i).Live → (slots j).Holds (slots i).ino (slots i).offset → i = j
  stored : ∀ i, (slots i).Live → stored (slots i).ino (slots i).offset = some (slots i).block

theorem coherent_init (stored : Nat → Nat → Option β) (below : σ) (blocks : Fin (n + 1) → β) :
    Coherent stored (init below blocks).slots :=
  ⟨fun _ _ hi _ => absurd rfl hi, fun _ hi => absurd rfl hi⟩

namespace Coherent

variable {stored stored' : Nat → Nat → Option β} {slots : Fin n → Slot β}

/-- A slot is given to a block that no other slot holds; the other live slots still
hold what is stored. -/
theorem setSlot (h : Coherent stored slots) {i : Fin n} (slot : Slot β)
    (hnew : ∀ j, j ≠ i → ¬(slots j).Holds slot.ino slot.offset)
    (hslot : stored' slot.ino slot.offset = some slot.block)
    (hkeep : ∀ ino offset b, ¬(ino = slot.ino ∧ offset = slot.offset) →
      stored ino offset = some b → stored' ino offset = some b) :
    Coherent stored' (Function.update slots i slot) := by
  have hself : (Function.update slots i slot) i = slot := Function.update_self _ _ _
  have hother : ∀ j, j ≠ i → (Function.update slots i slot) j = slots j :=
    fun j hj => Function.update_of_ne hj _ _
  have hkey : ∀ j, j ≠ i → (slots j).Live →
      ¬((slots j).ino = slot.ino ∧ (slots j).offset = slot.offset) :=
    fun j hj hlj he => hnew j hj ⟨hlj, he.1, he.2⟩
  constructor
  · intro a b ha hb
    exact distinct_update (R := fun (old new : Slot β) => old.Live ∧ new.Holds old.ino old.offset)
      (fun _ _ hr => ⟨hr.2.1, hr.1, hr.2.2.1.symm, hr.2.2.2.symm⟩)
      (fun j k hr => h.unique j k hr.1 hr.2) (fun j hj hr => hnew j hj hr.2) a b ⟨ha, hb⟩
  · intro a ha
    by_cases hai : a = i
    · rw [hai, hself, hslot]
    · rw [hother a hai] at ha ⊢
      exact hkeep _ _ _ (hkey a hai ha) (h.stored a ha)

theorem refill (h : Coherent stored slots) {i : Fin n} (hi : (slots i).Live) {status : Status}
    (block : β) (hslot : stored' (slots i).ino (slots i).offset = some block)
    (hkeep : ∀ ino offset b, ¬(ino = (slots i).ino ∧ offset = (slots i).offset) →
      stored ino offset = some b → stored' ino offset = some b) :
    Coherent stored'
      (Function.update slots i ⟨status, (slots i).ino, (slots i).offset, block⟩) :=
  h.setSlot _ (fun j hj hh => hj (h.unique i j hi hh).symm) hslot hkeep

theorem age (h : Coherent stored slots) {i : Fin n} (hi : (slots i).Live) {status : Status} :
    Coherent stored (Function.update slots i { slots i with status := status }) :=
  h.refill hi (slots i).block (h.stored i hi) fun _ _ _ _ hb => hb

/-- What no slot holds may change, and more may be stored. -/
theorem outside (h : Coherent stored slots) {ino offset : Nat}
    (hnew : ∀ j, ¬(slots j).Holds ino offset)
    (hkeep : ∀ i o b, ¬(i = ino ∧ o = offset) → stored i o = some b → stored' i o = some b) :
    Coherent stored' slots :=
  ⟨h.unique, fun i hi =>
    hkeep _ _ _ (fun he => hnew i ⟨hi, he.1, he.2⟩) (h.stored i hi)⟩

theorem drop {cs : State β σ n} (h : Coherent stored cs.slots) {ino nblocks : Nat}
    (hkeep : ∀ i offset, ¬(i = ino ∧ nblocks ≤ offset) → stored' i offset = stored i offset) :
    Coherent stored' (dropSlots cs ino nblocks).slots := by
  have hlive : ∀ i, ((dropSlots cs ino nblocks).slots i).Live →
      (dropSlots cs ino nblocks).slots i = cs.slots i ∧ (cs.slots i).Live ∧
        ¬((cs.slots i).ino = ino ∧ nblocks ≤ (cs.slots i).offset) := by
    intro i hi
    unfold dropSlots at hi ⊢
    dsimp only at hi ⊢
    split at hi
    · exact absurd rfl hi
    · rename_i hn
      rw [if_neg hn]
      exact ⟨rfl, hi, fun he => hn ⟨hi, he⟩⟩
  constructor
  · intro a b ha hb
    obtain ⟨hsa, hla, -⟩ := hlive a ha
    obtain ⟨hsb, -, -⟩ := hlive b hb.1
    rw [hsa, hsb] at hb
    exact h.unique a b hla hb
  · intro a ha
    obtain ⟨hsa, hla, hout⟩ := hlive a ha
    rw [hsa, hkeep _ _ hout, h.stored a hla]

end Coherent

section Hand

variable {cs : State β σ n}

/-- The slots the hand still has to age before it finds a victim. -/
def newSlots (cs : State β σ n) : Finset (Fin n) :=
  Finset.univ.filter fun i => (cs.slots i).status = .new

theorem newSlots_age {i : Fin n} (hi : (cs.slots i).status = .new) (hand : Fin n) :
    (newSlots { cs.setSlot i { cs.slots i with status := .old } with clockHand := hand }).card <
      (newSlots cs).card := by
  have hslots := slots_update cs.slots i { cs.slots i with status := .old } fun slot =>
    slot.status = .new
  rw [if_pos hi] at hslots
  exact Nat.lt_of_succ_le (Nat.le_of_eq hslots)

theorem newSlots_lt (cs : State β σ n) : (newSlots cs).card < n + 1 := by
  have hle := Finset.card_le_univ (newSlots cs)
  rw [Fintype.card_fin] at hle
  omega

end Hand

variable {bs : BlockStore β σ} {stored : Nat → Nat → Option β} {cs : State β σ n}

/-- `cache_update` ends within its rounds; a stored block that no slot holds is cached
coherently, and the store below is not asked. -/
theorem outcome_cacheUpdate {ino offset : Nat} {block : β} (hs : stored ino offset = some block)
    (rounds : Nat) (h : Coherent stored cs.slots) (hnew : ∀ j, ¬(cs.slots j).Holds ino offset)
    (hlt : (newSlots cs).card < rounds) {E : Stop → State β σ n → Prop} :
    Outcome (cacheUpdate ino offset block rounds)
      (fun _ cs' => Coherent stored cs'.slots ∧ cs'.below = cs.below) E cs := by
  induction rounds generalizing cs with
  | zero => omega
  | succ rounds ih =>
    simp only [cacheUpdate, Outcome.bind_iff, Outcome.get_iff]
    split
    · rw [Outcome.modify_iff]
      exact ⟨h.setSlot ⟨.new, ino, offset, block⟩ (fun j _ => hnew j) hs fun _ _ _ _ hb => hb, rfl⟩
    · rename_i hstatus
      have hnewst : (cs.slots cs.clockHand).status = .new := by simpa using hstatus
      have hl : (cs.slots cs.clockHand).Live := by simp [Slot.Live, hnewst]
      rw [Outcome.bind_iff, Outcome.modify_iff]
      refine ih (h.age hl) ?_ ?_
      · intro j hj
        apply hnew j
        simp only [State.setSlot] at hj
        by_cases hji : j = cs.clockHand
        · rw [hji, Function.update_self] at hj
          exact hji ▸ ⟨hl, hj.2⟩
        · rwa [Function.update_of_ne hji] at hj
      · exact (newSlots_age hnewst (next cs.clockHand)).trans_le (Nat.le_of_lt_succ hlt)

/-- A read returns what is stored; where the store below can fail, so can the read. -/
theorem outcome_read (fails : Prop) (P : σ → Prop) (h : Coherent stored cs.slots)
    (hcs : P cs.below) {ino offset : Nat}
    (hread : Outcome (bs.read ino offset)
      (fun r s => (r = stored ino offset ∨ r = none ∧ fails) ∧ P s) (fun _ _ => False) cs.below) :
    Outcome (read bs ino offset)
      (fun r cs' => (r = stored ino offset ∨ r = none ∧ fails) ∧ P cs'.below ∧
        Coherent stored cs'.slots) (fun _ _ => False) cs := by
  rw [read, Outcome.bind_iff, Outcome.get_iff]
  cases hl : lookup cs ino offset with
  | some i =>
    obtain ⟨hlive, rfl, rfl⟩ := lookup_some hl
    dsimp only
    rw [Outcome.bind_iff, Outcome.modify_iff, Outcome.pure_iff]
    exact ⟨.inl (h.stored i hlive).symm, hcs, h.age hlive⟩
  | none =>
    rw [Outcome.bind_iff]
    refine outcome_onPart (hread.post ?_)
    rintro r s ⟨hr, hp⟩
    cases r with
    | none => exact ⟨hr, hp, h⟩
    | some block =>
      have hs : stored ino offset = some block := by
        rcases hr with hr | ⟨hr, -⟩
        · exact hr.symm
        · cases hr
      have h' : Coherent stored ({ cs with below := s } : State β σ n).slots := h
      dsimp only
      rw [Outcome.bind_iff]
      refine (outcome_cacheUpdate hs (n + 1) h' (lookup_none hl) (newSlots_lt _)).post ?_
      rintro _ cs' ⟨hc, hb⟩
      refine ⟨hr, ?_, hc⟩
      rw [hb]
      exact hp

/-- A write that the store below takes; it may make more readable than its own block. -/
theorem outcome_write_taken (stored' : Nat → Nat → Option β) (h : Coherent stored cs.slots)
    {ino offset : Nat} {block : β} {s : σ}
    (hwrite : bs.write ino offset block cs.below = .ok 0 s)
    (hs : stored' ino offset = some block)
    (hkeep : ∀ i o b, ¬(i = ino ∧ o = offset) → stored i o = some b → stored' i o = some b) :
    Outcome (write bs ino offset block)
      (fun r cs' => r = 0 ∧ cs'.below = s ∧ Coherent stored' cs'.slots) (fun _ _ => False) cs := by
  rw [write, Outcome.bind_iff, Outcome.get_iff]
  cases hl : lookup cs ino offset with
  | some i =>
    obtain ⟨hlive, rfl, rfl⟩ := lookup_some hl
    dsimp only
    rw [Outcome.bind_iff, Outcome.modify_iff]
    exact outcome_onPart (.of_ok hwrite ⟨rfl, rfl, h.refill hlive block hs hkeep⟩)
  | none =>
    have hnew := lookup_none hl
    rw [Outcome.bind_iff]
    refine outcome_onPart (.of_ok hwrite ?_)
    have h' : Coherent stored' ({ cs with below := s } : State β σ n).slots := h.outside hnew hkeep
    rw [if_neg (by decide), Outcome.bind_iff]
    refine (outcome_cacheUpdate hs (n + 1) h' hnew (newSlots_lt _)).post ?_
    rintro _ cs' ⟨hc, hb⟩
    exact ⟨rfl, hb, hc⟩

/-- A truncation after which the kept blocks are stored as before. -/
theorem outcome_setsize (stored' : Nat → Nat → Option β) (h : Coherent stored cs.slots)
    {ino nblocks : Nat} {r : Int} {s : σ}
    (hsize : bs.setsize ino nblocks cs.below = .ok r s)
    (hkeep : ∀ i offset, ¬(i = ino ∧ nblocks ≤ offset) → stored' i offset = stored i offset) :
    Outcome (setsize bs ino nblocks)
      (fun r' cs' => r' = r ∧ cs'.below = s ∧ Coherent stored' cs'.slots)
      (fun _ _ => False) cs := by
  rw [setsize, Outcome.bind_iff, Outcome.modify_iff]
  refine outcome_onPart ?_
  exact .of_ok hsize ⟨rfl, rfl, h.drop hkeep⟩

end Egos.Disk.Wtclockdisk
