import Egos.Disk.Faults
import Egos.Disk.Wtclockdisk

/-!
# The write-through cache over a store that fails

A miss caches a block only after the store below has taken it. A hit changes the slot
first and does not look at the answer of the store below: when that rejects the write,
the slot is left with a block that was never stored.
-/
namespace Egos.Disk.Wtclockdisk

open Egos.Lib Egos.Disk.Faults

set_option autoImplicit false

variable {β σ : Type} {n : Nat}

/-- Every live slot holds the block stored below, and a read returns that block or
fails. -/
structure Truthful (fs : FaultyStore β σ) (cs : State β σ n) : Prop where
  slots : ∀ i, (cs.slots i).Live →
    (cs.slots i).block = fs.view cs.below (cs.slots i).ino (cs.slots i).offset
  reads : ∀ ino offset, ∃ r cs', read fs.toBlockStore ino offset cs = .ok r cs' ∧
    (r = none ∨ r = some (fs.view cs.below ino offset))

/-- A write that finds its block in a slot is taken by the store below, or writes what
the slot holds already. -/
def Accepted (bs : BlockStore β σ) (cs : State β σ n) : Request β → Prop
  | .write ino offset block => ∀ i, lookup cs ino offset = some i →
      returned (bs.write ino offset block cs.below) = some (-1) → (cs.slots i).block = block
  | _ => True

/-- Every call of the run is accepted in the state it is made in. -/
def AllAccepted (bs : BlockStore β σ) : List (Request β) → State β σ n → Prop
  | [], _ => True
  | call :: calls, cs => Accepted bs cs call ∧
      match call.perform (wtclockdisk bs) cs with
      | .ok _ cs' => AllAccepted bs calls cs'
      | .error _ _ => True

/-- Every call returns, and `P` holds before the first one and after each. -/
def Always (bs : BlockStore β σ) (P : State β σ n → Prop) : List (Request β) → State β σ n → Prop
  | [], cs => P cs
  | call :: calls, cs => P cs ∧
      match call.perform (wtclockdisk bs) cs with
      | .ok _ cs' => Always bs P calls cs'
      | .error _ _ => False

section Steps

variable {fs : FaultyStore β σ} {cs : State β σ n}

/-- The slots are coherent with the blocks of this state of the store below. -/
def CoherentAt (fs : FaultyStore β σ) (cs : State β σ n) : Prop :=
  Coherent (fun ino offset => some (fs.view cs.below ino offset)) cs.slots

theorem coherentAt_of_view {cs' : State β σ n}
    (hv : fs.view cs'.below = fs.view cs.below)
    (hs : Coherent (fun ino offset => some (fs.view cs.below ino offset)) cs'.slots) :
    CoherentAt fs cs' := by
  unfold CoherentAt
  rw [hv]
  exact hs

theorem outcome_faulty_read (h : CoherentAt fs cs) (ino offset : Nat) :
    Outcome (read fs.toBlockStore ino offset)
      (fun r cs' => (r = none ∨ r = some (fs.view cs.below ino offset)) ∧ CoherentAt fs cs')
      (fun _ _ => False) cs := by
  refine (outcome_read True (fun s => fs.view s = fs.view cs.below) h rfl
    ((fs.outcome_read cs.below ino offset).post ?_)).post ?_
  · rintro r s ⟨rfl | rfl, hv⟩
    · exact ⟨.inr ⟨rfl, trivial⟩, hv⟩
    · exact ⟨.inl rfl, hv⟩
  · rintro r cs' ⟨hr, hv, hc⟩
    exact ⟨hr.symm.imp And.left id, coherentAt_of_view hv hc⟩

/-- A write keeps the slots coherent exactly when it is accepted. -/
theorem outcome_faulty_write (h : CoherentAt fs cs) (ino offset : Nat) (block : β) :
    Outcome (write fs.toBlockStore ino offset block)
      (fun _ cs' =>
        (Accepted fs.toBlockStore cs (.write ino offset block) → CoherentAt fs cs') ∧
        ((∀ i, (cs'.slots i).Live →
          (cs'.slots i).block = fs.view cs'.below (cs'.slots i).ino (cs'.slots i).offset) →
          Accepted fs.toBlockStore cs (.write ino offset block)))
      (fun _ _ => False) cs := by
  obtain ⟨r, s, he, hr⟩ := (fs.outcome_write cs.below ino offset block).exists_ok
  rcases hr with ⟨rfl, hv⟩ | ⟨rfl, hv⟩
  · have hacc : Accepted fs.toBlockStore cs (.write ino offset block) := by
      intro i _ hm
      rw [he] at hm
      simp [returned] at hm
    refine (outcome_write_taken (fun i o => some (fs.view s i o)) h he ?_ ?_).post ?_
    · rw [hv, setBlock_same]
    · intro i o b hne hb
      rw [hv, setBlock_other hne]
      exact hb
    · rintro _ cs' ⟨-, rfl, hc⟩
      exact ⟨fun _ => hc, fun _ => hacc⟩
  · -- rejected: a miss changes nothing, a hit has changed its slot
    rw [write, Outcome.bind_iff, Outcome.get_iff]
    cases hl : lookup cs ino offset with
    | none =>
      have hacc : Accepted fs.toBlockStore cs (.write ino offset block) := by
        intro i hi
        rw [hl] at hi
        cases hi
      rw [Outcome.bind_iff]
      refine outcome_onPart (.of_ok he ?_)
      rw [if_pos rfl]
      exact ⟨fun _ => coherentAt_of_view hv h, fun _ => hacc⟩
    | some i =>
      obtain ⟨hlive, -, -⟩ := lookup_some hl
      dsimp only
      rw [Outcome.bind_iff, Outcome.modify_iff]
      refine outcome_onPart (.of_ok he ⟨?_, ?_⟩)
      · intro hacc
        obtain rfl : (cs.slots i).block = block := hacc i hl (by rw [he]; rfl)
        exact coherentAt_of_view hv (h.age hlive)
      · intro htrue j hj _
        obtain rfl : i = j := Option.some.inj (hl.symm.trans hj)
        have hslot := htrue i (by simp [State.setSlot, Slot.Live])
        dsimp only [State.setSlot] at hslot
        rw [Function.update_self, hv] at hslot
        have hold := Option.some.inj (h.stored i hlive)
        exact hold.symm.trans hslot.symm

theorem outcome_faulty_setsize (h : CoherentAt fs cs) (ino nblocks : Nat) :
    Outcome (setsize fs.toBlockStore ino nblocks) (fun _ cs' => CoherentAt fs cs')
      (fun _ _ => False) cs := by
  obtain ⟨r, s, he, hr⟩ := (fs.outcome_setsize cs.below ino nblocks).exists_ok
  refine (outcome_setsize (fun i o => some (fs.view s i o)) h he ?_).post ?_
  · intro i o hc
    rcases hr with ⟨-, hv⟩ | ⟨-, hv⟩
    · rw [hv]
    · exact congrArg some (hv i o hc)
  · rintro _ cs' ⟨-, rfl, hc⟩
    exact hc

/-- One call from a coherent state: it returns, and the slots stay coherent if and only
if it is accepted. -/
theorem perform_coherent (h : CoherentAt fs cs) (call : Request β) :
    ∃ answer cs', call.perform (wtclockdisk fs.toBlockStore) cs = .ok answer cs' ∧
      (Accepted fs.toBlockStore cs call → CoherentAt fs cs') ∧
      ((∀ i, (cs'.slots i).Live →
          (cs'.slots i).block = fs.view cs'.below (cs'.slots i).ino (cs'.slots i).offset) →
        Accepted fs.toBlockStore cs call) := by
  have hsame : ∀ {α : Type} {m : EStateM Stop σ α} {wrap : α → Answer β},
      Outcome m (fun _ s' => fs.view s' = fs.view cs.below) (fun _ _ => False) cs.below →
      Outcome (do let r ← onBelow m; pure (wrap r)) (fun _ cs' => CoherentAt fs cs')
        (fun _ _ => False) cs := by
    intro α m wrap hm
    rw [Outcome.bind_iff]
    exact outcome_onPart (hm.post fun _ s' hv => coherentAt_of_view hv h)
  apply Outcome.exists_ok
  cases call with
  | getninodes =>
    exact (hsame (fs.outcome_getninodes _)).post fun _ _ hc => ⟨fun _ => hc, fun _ => trivial⟩
  | getsize ino =>
    exact (hsame (fs.outcome_getsize _ ino)).post fun _ _ hc => ⟨fun _ => hc, fun _ => trivial⟩
  | sync ino =>
    exact (hsame (fs.outcome_sync _ ino)).post fun _ _ hc => ⟨fun _ => hc, fun _ => trivial⟩
  | setsize ino nblocks =>
    rw [Request.perform, Outcome.bind_iff]
    exact (outcome_faulty_setsize h ino nblocks).post fun _ _ hc => ⟨fun _ => hc, fun _ => trivial⟩
  | read ino offset =>
    rw [Request.perform, Outcome.bind_iff]
    exact (outcome_faulty_read h ino offset).post fun _ _ hc => ⟨fun _ => hc.2, fun _ => trivial⟩
  | write ino offset block =>
    rw [Request.perform, Outcome.bind_iff]
    exact (outcome_faulty_write h ino offset block).post fun _ _ hc => hc

theorem CoherentAt.truthful (h : CoherentAt fs cs) : Truthful fs cs where
  slots := fun i hi => (Option.some.inj (h.stored i hi)).symm
  reads := by
    intro ino offset
    obtain ⟨r, cs', he, hr, -⟩ := (outcome_faulty_read h ino offset).exists_ok
    exact ⟨r, cs', he, hr⟩

end Steps

theorem always_iff {fs : FaultyStore β σ} (calls : List (Request β)) {cs : State β σ n}
    (h : CoherentAt fs cs) :
    Always fs.toBlockStore (Truthful fs) calls cs ↔ AllAccepted fs.toBlockStore calls cs := by
  induction calls generalizing cs with
  | nil => exact ⟨fun _ => trivial, fun _ => h.truthful⟩
  | cons call calls ih =>
    obtain ⟨answer, cs', he, hkeep, hback⟩ := perform_coherent h call
    unfold Always AllAccepted
    rw [he]
    dsimp only
    constructor
    · rintro ⟨-, hrest⟩
      have hacc : Accepted fs.toBlockStore cs call := by
        apply hback
        cases calls with
        | nil => exact hrest.slots
        | cons _ _ => exact hrest.1.slots
      exact ⟨hacc, (ih (hkeep hacc)).mp hrest⟩
    · rintro ⟨hacc, hrest⟩
      exact ⟨h.truthful, (ih (hkeep hacc)).mpr hrest⟩

/-- **Coherence of the write-through cache.** Over any store whose calls may fail, every
live slot holds the block stored below in every state of a run, and reads show nothing
else, if and only if no write of the run that finds its block in a slot is rejected below
with another block than the slot held. -/
theorem slots_coherent_iff (fs : FaultyStore β σ) (below : σ) (blocks : Fin (n + 1) → β)
    (calls : List (Request β)) :
    Always fs.toBlockStore (Truthful fs) calls (init below blocks) ↔
      AllAccepted fs.toBlockStore calls (init below blocks) :=
  always_iff calls (coherent_init _ below blocks)

/-- Blocks in memory and, for the writes to come, whether each of them fails. -/
structure Flaky where
  blocks : Nat → Nat → Nat
  failures : List Bool

namespace Flaky

def write (ino offset block : Nat) : EStateM Stop Flaky Int := do
  let s ← get
  match s.failures with
  | true :: rest =>
    modify fun s => { s with failures := rest }
    pure (-1)
  | failures =>
    modify fun s => { blocks := setBlock s.blocks ino offset block, failures := failures.tail }
    pure 0

/-- A store of any size some of whose writes fail. -/
def store : FaultyStore Nat Flaky where
  getninodes := pure 1
  getsize := fun _ => pure 0
  setsize := fun _ _ => pure 0
  read := fun ino offset => do pure (some ((← get).blocks ino offset))
  write := write
  sync := fun _ => pure 0
  view := Flaky.blocks
  outcome_getninodes := fun _ => rfl
  outcome_getsize := fun _ _ => rfl
  outcome_setsize := fun _ _ _ => .inr ⟨by decide, fun _ _ _ => rfl⟩
  outcome_read := fun _ _ _ => ⟨.inr rfl, rfl⟩
  outcome_write := by
    intro s ino offset block
    rw [write, Outcome.bind_iff, Outcome.get_iff]
    split
    · exact .inr ⟨rfl, rfl⟩
    · exact .inl ⟨rfl, rfl⟩
  outcome_sync := fun _ _ => rfl

end Flaky

/-- A second write to a cached block is rejected below and answered with -1; the next
read returns its block all the same. -/
theorem rejected_write_visible :
    returned (performAll (wtclockdisk Flaky.store.toBlockStore)
        [.write 0 0 7, .write 0 0 8, .read 0 0]
        (init (n := 0) ⟨fun _ _ => 0, [false, true]⟩ fun _ => 0)) =
      some [.code 0, .code (-1), .block (some 8)] ∧
    (final (performAll (wtclockdisk Flaky.store.toBlockStore)
        [.write 0 0 7, .write 0 0 8]
        (init (n := 0) ⟨fun _ _ => 0, [false, true]⟩ fun _ => 0))).below.blocks 0 0 = 7 ∧
    ((final (performAll (wtclockdisk Flaky.store.toBlockStore)
        [.write 0 0 7, .write 0 0 8]
        (init (n := 0) ⟨fun _ _ => 0, [false, true]⟩ fun _ => 0))).slots 0).Holds 0 0 ∧
    ((final (performAll (wtclockdisk Flaky.store.toBlockStore)
        [.write 0 0 7, .write 0 0 8]
        (init (n := 0) ⟨fun _ _ => 0, [false, true]⟩ fun _ => 0))).slots 0).block = 8 := by
  unfold Slot.Holds
  decide +kernel

end Egos.Disk.Wtclockdisk
