import Egos.Lib.Clock
import Egos.Disk.Runs
import Egos.Disk.Slots
import Egos.Disk.Wtclockdisk

/-!
# Which slot the caches replace

`cache_update` of both caches is a CLOCK sweep: it passes the NEW slots, which become OLD,
and gives the first other slot to the block. No matter how calls interleave, and wherever
the store below stops the program, no block is ever cached in two slots.
-/
namespace Egos.Disk

open Egos.Lib
open Egos.Lib.Clock (Sweep Unique ahead swept)

set_option autoImplicit false

/-! ## Slots

Those of both caches have a status, an inode and an offset.
-/

open Clockdisk (Status)

/-- The block that a slot caches. -/
def cached (status : Status) (ino offset : Nat) : Option (Nat × Nat) :=
  if status = .empty then none else some (ino, offset)

theorem cached_eq_some {status : Status} {ino offset ino' offset' : Nat} :
    cached status ino offset = some (ino', offset') ↔
      status ≠ .empty ∧ ino = ino' ∧ offset = offset' := by
  unfold cached
  split
  · simp_all
  · simp_all

/-- It caches the same one as long as it is in use. -/
theorem cached_live {status : Status} (h : status ≠ .empty) (ino offset : Nat) :
    cached .new ino offset = cached status ino offset :=
  (if_neg h).symm

/-- Also when the hand passes it. -/
theorem cached_passed {status : Status} (h : status = .new) (ino offset : Nat) :
    cached .old ino offset = cached status ino offset := by
  rw [h]
  rfl

namespace Clockdisk

variable {β σ : Type} {n : Nat}

/-- The hand has passed `k` slots. -/
def State.passed (cs : State β σ n) (k : Nat) : State β σ n :=
  { cs with
    slots := swept cs.slots (fun slot => { slot with status := .old }) cs.clockHand k
    clockHand := ahead cs.clockHand k }

/-- The slot under the hand is written back and given away; the hand ends just past it. -/
def replaceSlot (bs : BlockStore β σ) (slot : Slot β) : EStateM Stop (State β σ n) Unit := do
  let cs ← get
  writeBack bs (cs.slots cs.clockHand)
  modify fun cs' =>
    { cs'.setSlot cs.clockHand slot with clockHand := next cs.clockHand }

/-- `cache_update` replaces the slot at which the sweep stops. -/
theorem cacheUpdate_eq {bs : BlockStore β σ} {ino offset : Nat} {block : β} {dirty : Bool}
    {k : Nat} {cs : State β σ n}
    (h : Sweep (fun i => (cs.slots i).status = .new) cs.clockHand k) {rounds : Nat}
    (hr : k < rounds) : cacheUpdate bs ino offset block dirty rounds cs =
      replaceSlot bs ⟨.new, dirty, ino, offset, block⟩ (cs.passed k) := by
  apply Sweep.loop (p := fun slot : Slot β => slot.status = .new)
    (f := fun rounds slots hand =>
      cacheUpdate bs ino offset block dirty rounds ⟨cs.below, slots, hand⟩)
    (g := fun slots hand =>
      replaceSlot bs ⟨.new, dirty, ino, offset, block⟩ ⟨cs.below, slots, hand⟩)
  · simp
  · intro rounds slots hand hnew
    change (if (slots hand).status ≠ .new then _ else _ : EStateM Stop _ Unit) _ = _
    rw [if_neg (not_not_intro hnew)]
    rfl
  · intro rounds slots hand hold
    change (if (slots hand).status ≠ .new then _ else _ : EStateM Stop _ Unit) _ = _
    rw [if_pos hold]
    rfl
  · exact h
  · exact hr

/-- The block that the slot caches. -/
def Slot.key (slot : Slot β) : Option (Nat × Nat) :=
  if slot.status = .empty then none else some (slot.ino, slot.offset)

theorem Slot.key_eq_some {slot : Slot β} {ino offset : Nat} :
    slot.key = some (ino, offset) ↔ slot.Holds ino offset := cached_eq_some

def State.keys (cs : State β σ n) : Fin n → Option (Nat × Nat) := fun i => (cs.slots i).key

theorem keys_setSlot (cs : State β σ n) (i : Fin n) (slot : Slot β) :
    (cs.setSlot i slot).keys = Function.update cs.keys i slot.key :=
  Function.comp_update Slot.key cs.slots i slot

theorem keys_passed {cs : State β σ n} {k : Nat}
    (h : Sweep (fun i => (cs.slots i).status = .new) cs.clockHand k) :
    (cs.passed k).keys = cs.keys :=
  Clock.map_swept (f := Slot.key) fun j hj => cached_passed (h.passed j hj) _ _

/-- No block is cached in two slots. -/
def State.Distinct (cs : State β σ n) : Prop := Unique cs.keys

/-- A slot that keeps its block changes nothing. -/
theorem State.Distinct.touch {cs : State β σ n} (h : cs.Distinct) {i : Fin n} {slot : Slot β}
    (hkey : slot.key = (cs.slots i).key) : (cs.setSlot i slot).Distinct := by
  rw [State.Distinct, keys_setSlot]
  exact h.same hkey

section Distinct

variable {bs : BlockStore β σ} {cs : State β σ n}

/-- Ends in a state in which no block is cached twice. -/
def KeepsDistinct {α : Type} (m : EStateM Stop (State β σ n) α) (cs : State β σ n) : Prop :=
  Outcome m (fun _ cs' => cs'.Distinct) (fun _ cs' => cs'.Distinct) cs

theorem keys_writeBack (bs : BlockStore β σ) (slot : Slot β) :
    Outcome (writeBack bs slot) (fun _ cs' => cs'.keys = cs.keys) (fun _ cs' => cs'.keys = cs.keys)
      cs := by
  unfold writeBack
  split
  · rw [Outcome.bind_iff]
    exact outcome_onPart ((Outcome.always _).mono (fun _ _ _ => rfl) (fun _ _ _ => rfl))
  · rfl

theorem keepsDistinct_cacheUpdate {ino offset : Nat} (block : β) (dirty : Bool) (h : cs.Distinct)
    (hnew : ∀ j, ¬ (cs.slots j).Holds ino offset) :
    KeepsDistinct (cacheUpdate bs ino offset block dirty (n + 1)) cs := by
  obtain ⟨k, hk⟩ := Clock.exists_sweep (fun i => (cs.slots i).status = .new) cs.clockHand
  unfold KeepsDistinct
  apply Outcome.of_eq (cacheUpdate_eq hk (Nat.lt_succ_of_le hk.turn))
  have hkeys := keys_passed hk
  rw [replaceSlot, Outcome.bind_iff, Outcome.get_iff, Outcome.bind_iff]
  apply (keys_writeBack bs _).mono
  · intro _ cs' hcs
    rw [Outcome.modify_iff]
    change Unique (cs'.setSlot _ _).keys
    rw [keys_setSlot, hcs, hkeys]
    apply h.place
    intro j hj
    exact hnew j (Slot.key_eq_some.mp hj)
  · intro _ cs' hcs
    change Unique cs'.keys
    rw [hcs, hkeys]
    exact h

theorem keepsDistinct_onBelow {α : Type} (m : EStateM Stop σ α) (h : cs.Distinct) :
    KeepsDistinct (onBelow m) cs :=
  outcome_onPart ((Outcome.always m).mono (fun _ _ _ => h) (fun _ _ _ => h))

theorem keepsDistinct_read (ino offset : Nat) (h : cs.Distinct) :
    KeepsDistinct (read bs ino offset) cs := by
  unfold KeepsDistinct
  rw [read, Outcome.bind_iff, Outcome.get_iff]
  cases hl : lookup cs ino offset with
  | some i =>
    dsimp only
    rw [Outcome.bind_iff, Outcome.modify_iff, Outcome.pure_iff]
    exact h.touch (cached_live (lookup_some hl).1 _ _)
  | none =>
    rw [Outcome.bind_iff]
    apply outcome_onPart
    apply (Outcome.always _).mono
    · intro r s _
      cases r with
      | none => exact h
      | some block =>
        have hd : ({ cs with below := s } : State β σ n).Distinct := h
        dsimp only
        rw [Outcome.bind_iff]
        exact keepsDistinct_cacheUpdate block false hd (lookup_none hl)
    · intro _ _ _
      exact h

theorem keepsDistinct_write (ino offset : Nat) (block : β) (h : cs.Distinct) :
    KeepsDistinct (write bs ino offset block) cs := by
  unfold KeepsDistinct
  rw [write, Outcome.bind_iff, Outcome.get_iff]
  cases hl : lookup cs ino offset with
  | some i =>
    dsimp only
    rw [Outcome.bind_iff, Outcome.modify_iff, Outcome.pure_iff]
    exact h.touch (cached_live (lookup_some hl).1 _ _)
  | none =>
    dsimp only
    rw [Outcome.bind_iff]
    exact keepsDistinct_cacheUpdate block true h (lookup_none hl)

theorem distinct_dropSlots (ino nblocks : Nat) (h : cs.Distinct) :
    (dropSlots cs ino nblocks).Distinct := by
  apply Unique.fewer h
  rintro i ⟨ino', offset⟩ hi
  rw [State.keys, Slot.key_eq_some] at hi ⊢
  obtain ⟨hslot, -, -⟩ := dropSlots_live hi.1
  rwa [hslot] at hi

theorem keepsDistinct_sync (ino : Nat) (h : cs.Distinct) : KeepsDistinct (sync bs ino) cs := by
  apply Outcome.seq (R := fun _ cs' => cs'.Distinct)
  · apply Outcome.forM (fun _ (cs' : State β σ n) => cs'.Distinct) h
    intro _ i _ _ cs hcs
    rw [syncSlot, Outcome.bind_iff, Outcome.get_iff]
    split
    · rename_i hw
      rw [Outcome.bind_iff]
      apply outcome_onPart
      apply (Outcome.always _).mono
      · intro _ s _
        rw [Outcome.modify_iff]
        have hd : ({ cs with below := s } : State β σ n).Distinct := hcs
        exact hd.touch rfl
      · intro _ _ _
        exact hcs
    · exact hcs
  · intro _ cs' hcs
    exact keepsDistinct_onBelow _ hcs

theorem keeps_distinct : (clockdisk bs : BlockStore β (State β σ n)).Keeps State.Distinct where
  getninodes _ h := keepsDistinct_onBelow _ h
  getsize _ _ h := keepsDistinct_onBelow _ h
  setsize ino nblocks _ h := keepsDistinct_onBelow _ (distinct_dropSlots ino nblocks h)
  read ino offset _ h := keepsDistinct_read ino offset h
  write ino offset block _ h := keepsDistinct_write ino offset block h
  sync ino _ h := keepsDistinct_sync ino h

end Distinct

theorem distinct_init (below : σ) (blocks : Fin (n + 1) → β) : (init below blocks).Distinct := by
  intro i j k hi
  cases hi

end Clockdisk

namespace Wtclockdisk

open Egos.Disk.Clockdisk (Status next)

variable {β σ : Type} {n : Nat}

/-- The hand has passed `k` slots. -/
def State.passed (cs : State β σ n) (k : Nat) : State β σ n :=
  { cs with
    slots := swept cs.slots (fun slot => { slot with status := .old }) cs.clockHand k
    clockHand := ahead cs.clockHand k }

/-- The slot under the hand is given away; the hand ends just past it. -/
def replaceSlot (slot : Slot β) : EStateM Stop (State β σ n) Unit :=
  modify fun cs => { cs.setSlot cs.clockHand slot with clockHand := next cs.clockHand }

/-- `cache_update` replaces the slot at which the sweep stops. -/
theorem cacheUpdate_eq {ino offset : Nat} {block : β} {k : Nat} {cs : State β σ n}
    (h : Sweep (fun i => (cs.slots i).status = .new) cs.clockHand k) {rounds : Nat}
    (hr : k < rounds) : cacheUpdate ino offset block rounds cs =
      replaceSlot ⟨.new, ino, offset, block⟩ (cs.passed k) := by
  apply Sweep.loop (p := fun slot : Slot β => slot.status = .new)
    (f := fun rounds slots hand => cacheUpdate ino offset block rounds ⟨cs.below, slots, hand⟩)
    (g := fun slots hand => replaceSlot ⟨.new, ino, offset, block⟩ ⟨cs.below, slots, hand⟩)
  · simp
  · intro rounds slots hand hnew
    change (if (slots hand).status ≠ .new then _ else _ : EStateM Stop _ Unit) _ = _
    rw [if_neg (not_not_intro hnew)]
    rfl
  · intro rounds slots hand hold
    change (if (slots hand).status ≠ .new then _ else _ : EStateM Stop _ Unit) _ = _
    rw [if_pos hold]
    rfl
  · exact h
  · exact hr

/-- The block that the slot caches. -/
def Slot.key (slot : Slot β) : Option (Nat × Nat) :=
  if slot.status = .empty then none else some (slot.ino, slot.offset)

theorem Slot.key_eq_some {slot : Slot β} {ino offset : Nat} :
    slot.key = some (ino, offset) ↔ slot.Holds ino offset := cached_eq_some

def State.keys (cs : State β σ n) : Fin n → Option (Nat × Nat) := fun i => (cs.slots i).key

theorem keys_setSlot (cs : State β σ n) (i : Fin n) (slot : Slot β) :
    (cs.setSlot i slot).keys = Function.update cs.keys i slot.key :=
  Function.comp_update Slot.key cs.slots i slot

theorem keys_passed {cs : State β σ n} {k : Nat}
    (h : Sweep (fun i => (cs.slots i).status = .new) cs.clockHand k) :
    (cs.passed k).keys = cs.keys :=
  Clock.map_swept (f := Slot.key) fun j hj => cached_passed (h.passed j hj) _ _

/-- No block is cached in two slots. -/
def State.Distinct (cs : State β σ n) : Prop := Unique cs.keys

theorem State.Distinct.touch {cs : State β σ n} (h : cs.Distinct) {i : Fin n} {slot : Slot β}
    (hkey : slot.key = (cs.slots i).key) : (cs.setSlot i slot).Distinct := by
  rw [State.Distinct, keys_setSlot]
  exact h.same hkey

section Distinct

variable {bs : BlockStore β σ} {cs : State β σ n}

/-- Ends in a state in which no block is cached twice. -/
def KeepsDistinct {α : Type} (m : EStateM Stop (State β σ n) α) (cs : State β σ n) : Prop :=
  Outcome m (fun _ cs' => cs'.Distinct) (fun _ cs' => cs'.Distinct) cs

theorem keepsDistinct_cacheUpdate {ino offset : Nat} (block : β) (h : cs.Distinct)
    (hnew : ∀ j, ¬ (cs.slots j).Holds ino offset) :
    KeepsDistinct (cacheUpdate ino offset block (n + 1)) cs := by
  obtain ⟨k, hk⟩ := Clock.exists_sweep (fun i => (cs.slots i).status = .new) cs.clockHand
  unfold KeepsDistinct
  apply Outcome.of_eq (cacheUpdate_eq hk (Nat.lt_succ_of_le hk.turn))
  rw [replaceSlot, Outcome.modify_iff]
  change Unique ((cs.passed k).setSlot _ _).keys
  rw [keys_setSlot, keys_passed hk]
  apply h.place
  intro j hj
  exact hnew j (Slot.key_eq_some.mp hj)

theorem keepsDistinct_onBelow {α : Type} (m : EStateM Stop σ α) (h : cs.Distinct) :
    KeepsDistinct (onBelow m) cs :=
  outcome_onPart ((Outcome.always m).mono (fun _ _ _ => h) (fun _ _ _ => h))

theorem keepsDistinct_read (ino offset : Nat) (h : cs.Distinct) :
    KeepsDistinct (read bs ino offset) cs := by
  unfold KeepsDistinct
  rw [read, Outcome.bind_iff, Outcome.get_iff]
  cases hl : lookup cs ino offset with
  | some i =>
    dsimp only
    rw [Outcome.bind_iff, Outcome.modify_iff, Outcome.pure_iff]
    exact h.touch (cached_live (lookup_some hl).1 _ _)
  | none =>
    rw [Outcome.bind_iff]
    apply outcome_onPart
    apply (Outcome.always _).mono
    · intro r s _
      cases r with
      | none => exact h
      | some block =>
        have hd : ({ cs with below := s } : State β σ n).Distinct := h
        dsimp only
        rw [Outcome.bind_iff]
        exact keepsDistinct_cacheUpdate block hd (lookup_none hl)
    · intro _ _ _
      exact h

theorem keepsDistinct_write (ino offset : Nat) (block : β) (h : cs.Distinct) :
    KeepsDistinct (write bs ino offset block) cs := by
  unfold KeepsDistinct
  rw [write, Outcome.bind_iff, Outcome.get_iff]
  cases hl : lookup cs ino offset with
  | some i =>
    dsimp only
    rw [Outcome.bind_iff, Outcome.modify_iff]
    exact keepsDistinct_onBelow _ (h.touch (cached_live (lookup_some hl).1 _ _))
  | none =>
    rw [Outcome.bind_iff]
    apply outcome_onPart
    apply (Outcome.always _).mono
    · intro w s _
      have hd : ({ cs with below := s } : State β σ n).Distinct := h
      split
      · exact hd
      · rw [Outcome.bind_iff]
        exact keepsDistinct_cacheUpdate block hd (lookup_none hl)
    · intro _ _ _
      exact h

theorem distinct_dropSlots (ino nblocks : Nat) (h : cs.Distinct) :
    (dropSlots cs ino nblocks).Distinct := by
  apply Unique.fewer h
  intro i k hi
  unfold State.keys dropSlots at hi
  dsimp only at hi
  split at hi
  · cases hi
  · exact hi

theorem keeps_distinct : (wtclockdisk bs : BlockStore β (State β σ n)).Keeps State.Distinct where
  getninodes _ h := keepsDistinct_onBelow _ h
  getsize _ _ h := keepsDistinct_onBelow _ h
  setsize ino nblocks _ h := keepsDistinct_onBelow _ (distinct_dropSlots ino nblocks h)
  read ino offset _ h := keepsDistinct_read ino offset h
  write ino offset block _ h := keepsDistinct_write ino offset block h
  sync _ _ h := keepsDistinct_onBelow _ h

end Distinct

theorem distinct_init (below : σ) (blocks : Fin (n + 1) → β) : (init below blocks).Distinct := by
  intro i j k hi
  cases hi

end Wtclockdisk

/-- From every state `cache_update` of either cache inspects `k + 1` slots, `nblocks + 1` at
most: it passes `k` NEW ones, and replaces the next, the first that is not NEW or after a turn
the hand's own. Over any calls no block is ever cached in two slots. -/
theorem clock_replacement {β σ : Type} {n : Nat} (bs : BlockStore β σ) :
    (∀ (cs : Clockdisk.State β σ n) (ino offset : Nat) (block : β) (dirty : Bool),
      ∃ k, Sweep (fun i => (cs.slots i).status = .new) cs.clockHand k ∧
        ∀ more, Clockdisk.cacheUpdate bs ino offset block dirty (k + 1 + more) cs =
          Clockdisk.replaceSlot bs ⟨.new, dirty, ino, offset, block⟩ (cs.passed k)) ∧
    (∀ (cs : Wtclockdisk.State β σ n) (ino offset : Nat) (block : β),
      ∃ k, Sweep (fun i => (cs.slots i).status = .new) cs.clockHand k ∧
        ∀ more, Wtclockdisk.cacheUpdate ino offset block (k + 1 + more) cs =
          Wtclockdisk.replaceSlot ⟨.new, ino, offset, block⟩ (cs.passed k)) ∧
    (∀ (below : σ) (blocks : Fin (n + 1) → β) (calls : List (Request β)),
      Clockdisk.KeepsDistinct (performAll (Clockdisk.clockdisk bs) calls)
        (Clockdisk.init below blocks)) ∧
    (∀ (below : σ) (blocks : Fin (n + 1) → β) (calls : List (Request β)),
      Wtclockdisk.KeepsDistinct (performAll (Wtclockdisk.wtclockdisk bs) calls)
        (Wtclockdisk.init below blocks)) := by
  refine ⟨?_, ?_, ?_, ?_⟩
  · intro cs ino offset block dirty
    obtain ⟨k, hk⟩ := Clock.exists_sweep (fun i => (cs.slots i).status = .new) cs.clockHand
    exact ⟨k, hk, fun more => Clockdisk.cacheUpdate_eq hk (by omega)⟩
  · intro cs ino offset block
    obtain ⟨k, hk⟩ := Clock.exists_sweep (fun i => (cs.slots i).status = .new) cs.clockHand
    exact ⟨k, hk, fun more => Wtclockdisk.cacheUpdate_eq hk (by omega)⟩
  · intro below blocks calls
    exact Clockdisk.keeps_distinct.performAll calls (Clockdisk.distinct_init below blocks)
  · intro below blocks calls
    exact Wtclockdisk.keeps_distinct.performAll calls (Wtclockdisk.distinct_init below blocks)

end Egos.Disk
