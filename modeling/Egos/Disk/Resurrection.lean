import Egos.Disk.Replacement

/-!
# No block comes back after a truncation

From a `clockdisk_setsize` on, what the cache holds of the inode past the new size stems
from later calls: a dirty slot from a later write, a clean one from a later write or from
a later read of the store below. The old fields that an emptied slot keeps do not count.
-/
namespace Egos.Disk.Clockdisk

open Egos.Lib
open Egos.Lib.Clock (Sweep ahead)

set_option autoImplicit false

variable {β σ : Type} {n : Nat}

/-- What is written below past the cut has been written by one of these calls. -/
def Rewritten (ino nblocks : Nat) (calls : List (Request β)) (log : List (Access β)) : Prop :=
  ∀ offset block, nblocks ≤ offset → .write ino offset block ∈ log →
    ∃ block', .write ino offset block' ∈ calls

/-- This block stems from one of these calls, or has been read below. -/
def Sourced (calls : List (Request β)) (log : List (Access β)) (ino offset : Nat)
    (block : β) : Prop :=
  .write ino offset block ∈ calls ∨ .read ino offset (some block) ∈ log

/-- The slot holds nothing past the cut that is older than these calls and this record. -/
def Slot.Recent (slot : Slot β) (ino nblocks : Nat) (calls : List (Request β))
    (log : List (Access β)) : Prop :=
  slot.Live → slot.ino = ino → nblocks ≤ slot.offset →
    (slot.dirty → ∃ block, .write ino slot.offset block ∈ calls) ∧
      Sourced calls log ino slot.offset slot.block

/-- The state after a truncation and these calls. -/
structure Recent (ino nblocks : Nat) (calls : List (Request β))
    (cs : State β (σ × List (Access β)) n) : Prop where
  slots : ∀ i, (cs.slots i).Recent ino nblocks calls cs.below.2
  writes : Rewritten ino nblocks calls cs.below.2

variable {bs : BlockStore β σ} {ino nblocks : Nat} {calls calls' : List (Request β)}
  {cs : State β (σ × List (Access β)) n}

theorem Sourced.mono {log log' : List (Access β)} {offset : Nat} {block : β}
    (h : Sourced calls log ino offset block) (hc : calls ⊆ calls') (hl : log ⊆ log') :
    Sourced calls' log' ino offset block :=
  h.imp (fun hw => hc hw) fun hr => hl hr

theorem Slot.Recent.mono {slot : Slot β} {log log' : List (Access β)}
    (h : slot.Recent ino nblocks calls log) (hc : calls ⊆ calls') (hl : log ⊆ log') :
    slot.Recent ino nblocks calls' log' := by
  intro hlive hino hcut
  obtain ⟨hdirty, hsource⟩ := h hlive hino hcut
  constructor
  · intro hd
    obtain ⟨block, hw⟩ := hdirty hd
    exact ⟨block, hc hw⟩
  · exact hsource.mono hc hl

namespace Recent

theorem later (h : Recent ino nblocks calls cs) (hc : calls ⊆ calls') :
    Recent ino nblocks calls' cs := by
  constructor
  · intro i
    exact (h.slots i).mono hc (List.Subset.refl _)
  · intro offset block hcut hw
    obtain ⟨block', hw'⟩ := h.writes offset block hcut hw
    exact ⟨block', hc hw'⟩

theorem below (h : Recent ino nblocks calls cs) (s : σ) {new : List (Access β)}
    (hnew : ∀ offset block, .write ino offset block ∈ new → nblocks ≤ offset →
      ∃ block', .write ino offset block' ∈ calls) :
    Recent ino nblocks calls { cs with below := (s, cs.below.2 ++ new) } := by
  constructor
  · intro i
    exact (h.slots i).mono (List.Subset.refl _) (List.subset_append_left _ _)
  · intro offset block hcut hw
    rcases List.mem_append.mp hw with hw | hw
    · exact h.writes offset block hcut hw
    · exact hnew offset block hw hcut

theorem same (h : Recent ino nblocks calls cs) (s : σ) :
    Recent ino nblocks calls { cs with below := (s, cs.below.2) } :=
  ⟨h.slots, h.writes⟩

theorem setSlot (h : Recent ino nblocks calls cs) {slot : Slot β}
    (hs : slot.Recent ino nblocks calls cs.below.2) (i hand : Fin n) :
    Recent ino nblocks calls { cs.setSlot i slot with clockHand := hand } := by
  constructor
  · intro j
    by_cases hj : j = i
    · subst hj
      simpa [State.setSlot] using hs
    · simpa [State.setSlot, hj] using h.slots j
  · exact h.writes

theorem passed (h : Recent ino nblocks calls cs) {k : Nat}
    (hk : Sweep (fun i => (cs.slots i).status = .new) cs.clockHand k) :
    Recent ino nblocks calls (cs.passed k) := by
  constructor
  · intro i
    unfold State.passed Clock.swept
    dsimp only
    split
    · rename_i hi
      obtain ⟨j, hj, rfl⟩ := hi
      intro _
      have hnew := hk.passed j hj
      exact h.slots _ (by simp [Slot.Live, hnew])
    · exact h.slots i
  · exact h.writes

end Recent

/-- Ends in a state with nothing old past the cut. -/
def KeepsRecent {α : Type} (m : EStateM Stop (State β (σ × List (Access β)) n) α)
    (ino nblocks : Nat) (calls : List (Request β)) (cs : State β (σ × List (Access β)) n) : Prop :=
  Outcome m (fun _ cs' => Recent ino nblocks calls cs')
    (fun _ cs' => Recent ino nblocks calls cs') cs

theorem keepsRecent_onBelow {α : Type} (m : EStateM Stop σ α) (h : Recent ino nblocks calls cs) :
    KeepsRecent (onBelow (onStore m)) ino nblocks calls cs := by
  apply outcome_onPart
  apply outcome_onPart
  exact (Outcome.always m).mono (fun _ s _ => h.same s) (fun _ s _ => h.same s)

theorem recent_writeBelow {i : Fin n} (h : Recent ino nblocks calls cs) (hlive : (cs.slots i).Live)
    (hdirty : (cs.slots i).dirty) :
    Outcome (onBelow ((recording bs).write (cs.slots i).ino (cs.slots i).offset (cs.slots i).block))
      (fun _ cs' => Recent ino nblocks calls cs' ∧ cs.below.2 ⊆ cs'.below.2)
      (fun _ cs' => Recent ino nblocks calls cs') cs := by
  have hnew : ∀ offset block, Access.write ino offset block ∈
      [Access.write (cs.slots i).ino (cs.slots i).offset (cs.slots i).block] → nblocks ≤ offset →
        ∃ block', .write ino offset block' ∈ calls := by
    intro offset block hw hcut
    obtain ⟨hino, hoff, -⟩ := Access.write.inj (List.mem_singleton.mp hw)
    rw [hoff] at hcut ⊢
    exact (h.slots i hlive hino.symm hcut).1 hdirty
  apply outcome_onPart
  unfold recording
  dsimp only
  rw [Outcome.bind_iff, record, Outcome.modify_iff]
  apply outcome_onPart
  apply (Outcome.always _).mono
  · intro _ s _
    exact ⟨h.below s hnew, List.subset_append_left _ _⟩
  · intro _ s _
    exact h.below s hnew

theorem recent_cacheUpdate {ino' offset : Nat} {block : β} {dirty : Bool}
    (h : Recent ino nblocks calls cs)
    (hnew : (⟨.new, dirty, ino', offset, block⟩ : Slot β).Recent ino nblocks calls cs.below.2) :
    Outcome (cacheUpdate (recording bs) ino' offset block dirty (n + 1))
      (fun _ cs' => Recent ino nblocks calls cs' ∧ cs.below.2 ⊆ cs'.below.2)
      (fun _ cs' => Recent ino nblocks calls cs') cs := by
  obtain ⟨k, hk⟩ := Clock.exists_sweep (fun i => (cs.slots i).status = .new) cs.clockHand
  have hp := h.passed hk
  apply Outcome.of_eq (cacheUpdate_eq hk (Nat.lt_succ_of_le hk.turn))
  rw [replaceSlot, Outcome.bind_iff, Outcome.get_iff, Outcome.bind_iff, writeBack]
  split
  · rename_i hd
    rw [Outcome.bind_iff]
    apply (recent_writeBelow hp hd.1 hd.2).post
    intro _ cs' hcs
    rw [Outcome.pure_iff, Outcome.modify_iff]
    exact ⟨hcs.1.setSlot (hnew.mono (List.Subset.refl _) hcs.2) _ _, hcs.2⟩
  · rw [Outcome.pure_iff, Outcome.modify_iff]
    exact ⟨hp.setSlot hnew _ _, List.Subset.refl _⟩

/-- A read past the cut returns a block that one of the calls wrote or that the store below
has returned. -/
theorem recent_read {ino' offset : Nat} (h : Recent ino nblocks calls cs) :
    Outcome (read (recording bs) ino' offset)
      (fun r cs' => Recent ino nblocks calls cs' ∧ (ino' = ino → nblocks ≤ offset →
        ∀ block, r = some block → Sourced calls cs'.below.2 ino offset block))
      (fun _ cs' => Recent ino nblocks calls cs') cs := by
  rw [read, Outcome.bind_iff, Outcome.get_iff]
  cases hl : lookup cs ino' offset with
  | some i =>
    obtain ⟨hlive, rfl, rfl⟩ := lookup_some hl
    dsimp only
    rw [Outcome.bind_iff, Outcome.modify_iff, Outcome.pure_iff]
    constructor
    · have hs : Slot.Recent { cs.slots i with status := .new } ino nblocks calls cs.below.2 :=
        fun _ => h.slots i hlive
      exact h.setSlot hs i cs.clockHand
    · intro hino hcut block hb
      cases hb
      exact (h.slots i hlive hino hcut).2
  | none =>
    rw [Outcome.bind_iff]
    apply outcome_onPart
    unfold recording
    dsimp only
    rw [Outcome.bind_iff]
    apply outcome_onPart
    apply (Outcome.always _).mono
    · intro r s _
      rw [Outcome.bind_iff, record, Outcome.modify_iff, Outcome.pure_iff]
      have hread : Recent ino nblocks calls
          { cs with below := (s, cs.below.2 ++ [.read ino' offset r]) } := by
        apply h.below
        intro offset' block hw
        cases List.mem_singleton.mp hw
      cases r with
      | none =>
        refine ⟨hread, fun _ _ block hb => ?_⟩
        cases hb
      | some block =>
        have hlast : Access.read ino' offset (some block) ∈
            cs.below.2 ++ [.read ino' offset (some block)] :=
          List.mem_append_right _ (List.mem_singleton_self _)
        dsimp only
        rw [Outcome.bind_iff]
        have hslot : (⟨.new, false, ino', offset, block⟩ : Slot β).Recent ino nblocks calls
            (cs.below.2 ++ [.read ino' offset (some block)]) := by
          intro _ hino _
          cases hino
          exact ⟨fun hd => absurd hd Bool.false_ne_true, .inr hlast⟩
        apply (recent_cacheUpdate hread hslot).post
        intro _ cs' hcs
        refine ⟨hcs.1, fun hino _ block' hb => ?_⟩
        cases hino
        cases hb
        exact .inr (hcs.2 hlast)
    · intro _ s _
      exact h.same s

theorem keepsRecent_write {ino' offset : Nat} {block : β} (h : Recent ino nblocks calls cs)
    (hcall : .write ino' offset block ∈ calls) :
    KeepsRecent (write (recording bs) ino' offset block) ino nblocks calls cs := by
  unfold KeepsRecent
  rw [write, Outcome.bind_iff, Outcome.get_iff]
  have hslot : (⟨.new, true, ino', offset, block⟩ : Slot β).Recent ino nblocks calls
      cs.below.2 := by
    intro _ hino _
    cases hino
    exact ⟨fun _ => ⟨block, hcall⟩, .inl hcall⟩
  cases hl : lookup cs ino' offset with
  | some i =>
    obtain ⟨hlive, rfl, rfl⟩ := lookup_some hl
    dsimp only
    rw [Outcome.bind_iff, Outcome.modify_iff, Outcome.pure_iff]
    exact h.setSlot hslot i cs.clockHand
  | none =>
    dsimp only
    rw [Outcome.bind_iff]
    exact (recent_cacheUpdate h hslot).post fun _ _ hcs => hcs.1

theorem keepsRecent_sync (ino' : Nat) (h : Recent ino nblocks calls cs) :
    KeepsRecent (sync (recording bs) ino') ino nblocks calls cs := by
  apply Outcome.seq (R := fun _ cs' => Recent ino nblocks calls cs')
  · apply Outcome.forM (fun _ (cs' : State β (σ × List (Access β)) n) =>
      Recent ino nblocks calls cs') h
    intro _ i _ _ cs hcs
    rw [syncSlot, Outcome.bind_iff, Outcome.get_iff]
    split
    · rename_i hw
      rw [Outcome.bind_iff]
      apply (recent_writeBelow hcs hw.1 hw.2.1).post
      intro _ cs' hcs'
      rw [Outcome.modify_iff]
      have hclean : Slot.Recent { cs'.slots i with dirty := false } ino nblocks calls
          cs'.below.2 := by
        intro hlive hino hcut
        exact ⟨fun hd => absurd hd Bool.false_ne_true, (hcs'.1.slots i hlive hino hcut).2⟩
      exact hcs'.1.setSlot hclean i cs'.clockHand
    · exact hcs
  · intro _ cs' hcs
    exact keepsRecent_onBelow _ hcs

theorem recent_dropSlots (ino' nblocks' : Nat) (h : Recent ino nblocks calls cs) :
    Recent ino nblocks calls (dropSlots cs ino' nblocks') := by
  constructor
  · intro i hlive
    obtain ⟨hslot, hl, -⟩ := dropSlots_live hlive
    rw [hslot]
    exact h.slots i hl
  · exact h.writes

theorem keepsRecent_perform (call : Request β) (h : Recent ino nblocks calls cs)
    (hcall : call ∈ calls) :
    KeepsRecent (call.perform (clockdisk (recording bs))) ino nblocks calls cs := by
  unfold KeepsRecent
  cases call with
  | getninodes => exact (keepsRecent_onBelow _ h).seq fun _ _ hr => hr
  | getsize ino' => exact (keepsRecent_onBelow _ h).seq fun _ _ hr => hr
  | setsize ino' nblocks' =>
    have hs : KeepsRecent (setsize (recording bs) ino' nblocks') ino nblocks calls cs :=
      keepsRecent_onBelow _ (recent_dropSlots ino' nblocks' h)
    exact hs.seq fun _ _ hr => hr
  | read ino' offset => exact recent_read h |>.seq fun _ _ hr => hr.1
  | write ino' offset block => exact (keepsRecent_write h hcall).seq fun _ _ hr => hr
  | sync ino' => exact (keepsRecent_sync ino' h).seq fun _ _ hr => hr

theorem recent_cut (hlog : cs.below.2 = []) (ino nblocks : Nat) :
    Recent ino nblocks [] (dropSlots cs ino nblocks) := by
  constructor
  · intro i hlive hino hcut
    obtain ⟨hslot, -, hout⟩ := dropSlots_live hlive
    rw [hslot] at hino hcut
    exact absurd ⟨hino, hcut⟩ hout
  · intro offset block _ hw
    change Access.write ino offset block ∈ cs.below.2 at hw
    rw [hlog] at hw
    cases hw

/-- The state with an empty record. -/
def State.recorded (cs : State β σ n) : State β (σ × List (Access β)) n :=
  { cs with below := (cs.below, []) }

/-- A truncation, and then these calls. -/
def truncateThen (bs : BlockStore β σ) (ino nblocks : Nat) (calls : List (Request β)) :
    EStateM Stop (State β (σ × List (Access β)) n) (List (Answer β)) := do
  let _ ← setsize (recording bs) ino nblocks
  performAll (clockdisk (recording bs)) calls

theorem recent_truncateThen (cs : State β σ n) (calls : List (Request β)) :
    Outcome (truncateThen bs ino nblocks calls)
      (fun _ cs' => Recent ino nblocks calls cs')
      (fun _ cs' => ∃ made, made <+: calls ∧ Recent ino nblocks made cs') cs.recorded := by
  have hcut : KeepsRecent (setsize (recording bs) ino nblocks) ino nblocks [] cs.recorded :=
    keepsRecent_onBelow _ (recent_cut rfl ino nblocks)
  unfold truncateThen
  rw [Outcome.bind_iff]
  apply hcut.mono
  · intro _ cs' hcs
    apply outcome_performAll (fun made _ (cs' : State β (σ × List (Access β)) n) =>
      Recent ino nblocks made cs') hcs
    intro past call rest _ s hc hs
    have hmade : KeepsRecent (call.perform (clockdisk (recording bs))) ino nblocks
        (past ++ [call]) s :=
      keepsRecent_perform call (hs.later (List.subset_append_left past [call])) (by simp)
    apply hmade.mono
    · intro _ _ hr
      exact hr
    · intro _ _ hr
      exact ⟨past ++ [call], ⟨rest, by rw [hc, List.append_assoc]; rfl⟩, hr⟩
  · intro _ cs' hcs
    exact ⟨[], List.nil_prefix, hcs⟩

/-- From any state of the cache, after a truncation: whatever is written below past the cut
has been written by a call since, also where the store below stops the program; and a read
past the cut returns a block that a call has written since or that the store below has
returned since. -/
theorem no_resurrection (bs : BlockStore β σ) (cs : State β σ n) (ino nblocks : Nat)
    (calls : List (Request β)) :
    Outcome (truncateThen bs ino nblocks calls)
      (fun _ cs' => Rewritten ino nblocks calls cs'.below.2)
      (fun _ cs' => ∃ made, made <+: calls ∧ Rewritten ino nblocks made cs'.below.2) cs.recorded ∧
    ∀ more, Outcome (do
        let _ ← truncateThen bs ino nblocks calls
        read (recording bs) ino (nblocks + more))
      (fun r cs' => ∀ block, r = some block → Sourced calls cs'.below.2 ino (nblocks + more) block)
      (fun _ _ => True) cs.recorded := by
  have hrun : Outcome (truncateThen bs ino nblocks calls)
      (fun _ cs' => Recent ino nblocks calls cs')
      (fun _ cs' => ∃ made, made <+: calls ∧ Recent ino nblocks made cs') cs.recorded :=
    recent_truncateThen cs calls
  constructor
  · apply hrun.mono
    · intro _ _ hr
      exact hr.writes
    · rintro _ _ ⟨made, hp, hr⟩
      exact ⟨made, hp, hr.writes⟩
  · intro more
    rw [Outcome.bind_iff]
    apply hrun.mono
    · intro _ cs' hr
      apply (recent_read hr).mono
      · intro r cs'' hs
        exact hs.2 rfl (Nat.le_add_right nblocks more)
      · intro _ _ _
        trivial
    · intro _ _ _
      trivial

end Egos.Disk.Clockdisk
