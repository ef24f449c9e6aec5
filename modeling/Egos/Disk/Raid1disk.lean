import Mathlib.Data.List.FinRange
import Egos.Disk.Ramdisk

/-!
# The mirroring disk `raid1disk.c`

Every block is kept on all disks below. A disk is marked broken when a write, a resizing,
a sync or a question for sizes fails on it, and is not written to, read or asked again;
`setsize` alone still goes to the broken disks too. A failed read marks nothing.
-/
namespace Egos.Disk.Raid1disk

open Egos.Lib

set_option autoImplicit false

variable {β σ γ : Type} {n : Nat}

/-- `struct raid1disk_state`, with the states of the `nbelow` disks below. -/
structure State (n : Nat) (σ : Type) where
  below : Fin n → σ
  broken : Fin n → Bool

namespace State

/-- `rds->broken[i] = 1`. -/
def mark (rs : State n σ) (i : Fin n) : State n σ :=
  { rs with broken := Function.update rs.broken i true }

def setBelow (rs : State n σ) (i : Fin n) (s : σ) : State n σ :=
  { rs with below := Function.update rs.below i s }

variable (rs : State n σ) (i j : Fin n) (s : σ)

@[simp] theorem mark_below : (rs.mark i).below = rs.below := rfl

@[simp] theorem mark_broken_self : (rs.mark i).broken i = true := Function.update_self _ _ _

theorem mark_broken_of_ne {i j : Fin n} (h : j ≠ i) : (rs.mark i).broken j = rs.broken j :=
  Function.update_of_ne h _ _

@[simp] theorem setBelow_self : (rs.setBelow i s).below i = s := Function.update_self _ _ _

theorem setBelow_of_ne {i j : Fin n} (h : j ≠ i) (s : σ) :
    (rs.setBelow i s).below j = rs.below j := Function.update_of_ne h _ _

end State

/-- A call on disk `i`. -/
def onDisk {α : Type} (i : Fin n) (m : EStateM Stop σ α) : EStateM Stop (State n σ) α :=
  onPart (fun rs => rs.below i) (fun rs s => rs.setBelow i s) m

section

variable (below : Fin n → BlockStore β σ)

/-- The loop of `raid1disk_getninodes` and `raid1disk_getsize`: the first working disk that
answers; the others that were tried are broken. -/
def firstAnswer (call : BlockStore β σ → EStateM Stop σ Int) :
    List (Fin n) → EStateM Stop (State n σ) Int
  | [] => pure (-1)
  | i :: rest => do
    if (← get).broken i then firstAnswer call rest
    else
      let r ← onDisk i (call (below i))
      if r < 0 then
        modify (·.mark i)
        firstAnswer call rest
      else pure r

/-- The loop of `raid1disk_read`. -/
def readLoop (ino offset : Nat) : List (Fin n) → EStateM Stop (State n σ) (Option β)
  | [] => pure none
  | i :: rest => do
    if (← get).broken i then readLoop ino offset rest
    else
      match ← onDisk i ((below i).read ino offset) with
      | some block => pure (some block)
      | none => readLoop ino offset rest

/-- The loop of `raid1disk_setsize`, over all disks. -/
def setsizeLoop (ino nblocks : Nat) : List (Fin n) → Int → EStateM Stop (State n σ) Int
  | [], oldsize => pure oldsize
  | i :: rest, oldsize => do
    let r ← onDisk i ((below i).setsize ino nblocks)
    if r < 0 then
      modify (·.mark i)
      setsizeLoop ino nblocks rest oldsize
    else setsizeLoop ino nblocks rest r

/-- The loop of `raid1disk_write` and `raid1disk_sync`, over the working disks. -/
def everyWorking (call : BlockStore β σ → EStateM Stop σ Int) :
    List (Fin n) → Int → EStateM Stop (State n σ) Int
  | [], result => pure result
  | i :: rest, result => do
    if (← get).broken i then everyWorking call rest result
    else
      let r ← onDisk i (call (below i))
      if r < 0 then
        modify (·.mark i)
        everyWorking call rest result
      else everyWorking call rest 0

def getninodes : EStateM Stop (State n σ) Int :=
  firstAnswer below (fun bs => bs.getninodes) (List.finRange n)

def getsize (ino : Nat) : EStateM Stop (State n σ) Int :=
  firstAnswer below (fun bs => bs.getsize ino) (List.finRange n)

def setsize (ino nblocks : Nat) : EStateM Stop (State n σ) Int :=
  setsizeLoop below ino nblocks (List.finRange n) (-1)

def read (ino offset : Nat) : EStateM Stop (State n σ) (Option β) :=
  readLoop below ino offset (List.finRange n)

def write (ino offset : Nat) (block : β) : EStateM Stop (State n σ) Int :=
  everyWorking below (fun bs => bs.write ino offset block) (List.finRange n) (-1)

def sync (ino : Nat) : EStateM Stop (State n σ) Int :=
  everyWorking below (fun bs => bs.sync ino) (List.finRange n) (-1)

/-- The interface `raid1disk_init` returns. -/
def raid1disk : BlockStore β (State n σ) where
  getninodes := getninodes below
  getsize := getsize below
  setsize := setsize below
  read := read below
  write := write below
  sync := sync below

end

/-- `raid1disk_init`: no disk is broken. -/
def init (disks : Fin n → σ) : State n σ := ⟨disks, fun _ => false⟩

/-- What a disk does to its contents when a call succeeds; `none` if it never does. A
resizing may change the blocks that it cuts off and no others. -/
structure DiskKind (β γ : Type) where
  block : γ → Nat → Nat → β
  write : γ → Nat → Nat → β → Option γ
  resize : γ → Nat → Nat → Option γ
  block_write : ∀ {c c' ino offset b}, write c ino offset b = some c' →
    block c' = setBlock (block c) ino offset b
  block_resize : ∀ {c c' ino nblocks}, resize c ino nblocks = some c' →
    ∀ i offset, ¬(i = ino ∧ nblocks ≤ offset) → block c' i offset = block c i offset

/-- A disk of this kind each call of which may fail, as `state` decides. A failed call
leaves the contents as they are. -/
structure FailingDisk (kind : DiskKind β γ) (σ : Type) extends BlockStore β σ where
  contents : σ → γ
  outcome_getninodes : ∀ s,
    Outcome getninodes (fun _ s' => contents s' = contents s) (fun _ _ => False) s
  outcome_getsize : ∀ s ino,
    Outcome (getsize ino) (fun _ s' => contents s' = contents s) (fun _ _ => False) s
  outcome_setsize : ∀ s ino nblocks, Outcome (setsize ino nblocks)
    (fun r s' => if r < 0 then contents s' = contents s
      else kind.resize (contents s) ino nblocks = some (contents s')) (fun _ _ => False) s
  outcome_read : ∀ s ino offset, Outcome (read ino offset)
    (fun r s' => (r = none ∨ r = some (kind.block (contents s) ino offset)) ∧
      contents s' = contents s) (fun _ _ => False) s
  outcome_write : ∀ s ino offset block, Outcome (write ino offset block)
    (fun r s' => if r < 0 then contents s' = contents s
      else kind.write (contents s) ino offset block = some (contents s')) (fun _ _ => False) s
  outcome_sync : ∀ s ino,
    Outcome (sync ino) (fun _ s' => contents s' = contents s) (fun _ _ => False) s

/-- The contents of every working disk are such. -/
def Held {kind : DiskKind β γ} (below : Fin n → FailingDisk kind σ) (P : γ → Prop)
    (rs : State n σ) : Prop :=
  ∀ i, rs.broken i = false → P ((below i).contents (rs.below i))

/-- In the middle of a loop: the working disks still to come are as they were, those done
have succeeded. -/
def Half {kind : DiskKind β γ} (below : Fin n → FailingDisk kind σ) (P done : γ → Prop)
    (rest : List (Fin n)) (rs : State n σ) : Prop :=
  ∀ i, rs.broken i = false →
    (i ∈ rest → P ((below i).contents (rs.below i))) ∧
    (i ∉ rest → done ((below i).contents (rs.below i)))

/-- The end of a loop: it succeeded on all disks that still work, or none works any more. -/
def Agreed {kind : DiskKind β γ} (below : Fin n → FailingDisk kind σ) (done : γ → Prop)
    (r : Int) (rs : State n σ) : Prop :=
  (r = -1 → ∀ i, rs.broken i = true) ∧ (r ≠ -1 → Held below done rs)

section Loops

variable {kind : DiskKind β γ} {below : Fin n → FailingDisk kind σ} {P done : γ → Prop}
  {rs : State n σ} {i : Fin n} {rest : List (Fin n)} {s : σ}

theorem Held.setBelow (h : Held below P rs)
    (hs : (below i).contents s = (below i).contents (rs.below i)) :
    Held below P (rs.setBelow i s) := by
  intro j hj
  by_cases hij : j = i
  · subst hij
    rw [State.setBelow_self, hs]
    exact h j hj
  · rw [State.setBelow_of_ne _ hij]
    exact h j hj

theorem Held.mark (h : Held below P rs) : Held below P (rs.mark i) := by
  intro j hj
  by_cases hij : j = i
  · rw [hij, State.mark_broken_self] at hj
    exact absurd hj (by decide)
  · rw [State.mark_broken_of_ne _ hij] at hj
    exact h j hj

theorem Held.half (h : Held below P rs) : Half below P done (List.finRange n) rs :=
  fun i hi => ⟨fun _ => h i hi, fun hn => absurd (List.mem_finRange i) hn⟩

theorem Half.held (h : Half below P done [] rs) : Held below done rs :=
  fun i hi => (h i hi).2 List.not_mem_nil

theorem Half.skip (h : Half below P done (i :: rest) rs) (hb : rs.broken i = true) :
    Half below P done rest rs := by
  intro j hj
  have hij : j ≠ i := by
    rintro rfl
    rw [hb] at hj
    exact absurd hj (by decide)
  exact ⟨fun hm => (h j hj).1 (List.mem_cons_of_mem _ hm),
    fun hm => (h j hj).2 (List.not_mem_cons_of_ne_of_not_mem hij hm)⟩

theorem Half.fail (h : Half below P done (i :: rest) rs) :
    Half below P done rest ((rs.setBelow i s).mark i) := by
  intro j hj
  by_cases hij : j = i
  · rw [hij, State.mark_broken_self] at hj
    exact absurd hj (by decide)
  · rw [State.mark_broken_of_ne _ hij] at hj
    rw [State.mark_below, State.setBelow_of_ne _ hij]
    exact ⟨fun hm => (h j hj).1 (List.mem_cons_of_mem _ hm),
      fun hm => (h j hj).2 (List.not_mem_cons_of_ne_of_not_mem hij hm)⟩

theorem Half.succeed (h : Half below P done (i :: rest) rs) (hi : i ∉ rest)
    (hs : rs.broken i = false → done ((below i).contents s)) :
    Half below P done rest (rs.setBelow i s) := by
  intro j hj
  by_cases hij : j = i
  · subst hij
    rw [State.setBelow_self]
    exact ⟨fun hm => absurd hm hi, fun _ => hs hj⟩
  · rw [State.setBelow_of_ne _ hij]
    exact ⟨fun hm => (h j hj).1 (List.mem_cons_of_mem _ hm),
      fun hm => (h j hj).2 (List.not_mem_cons_of_ne_of_not_mem hij hm)⟩

/-- While no disk has succeeded, all disks done are broken. -/
def NoneYet (rest : List (Fin n)) (rs : State n σ) : Prop := ∀ i, i ∉ rest → rs.broken i = true

theorem NoneYet.skip (h : NoneYet (i :: rest) rs) (hb : rs.broken i = true) : NoneYet rest rs := by
  intro j hj
  by_cases hij : j = i
  · rw [hij, hb]
  · exact h j (List.not_mem_cons_of_ne_of_not_mem hij hj)

theorem NoneYet.fail (h : NoneYet (i :: rest) rs) :
    NoneYet rest ((rs.setBelow i s).mark i) := by
  intro j hj
  by_cases hij : j = i
  · rw [hij, State.mark_broken_self]
  · rw [State.mark_broken_of_ne _ hij]
    exact h j (List.not_mem_cons_of_ne_of_not_mem hij hj)

theorem outcome_firstAnswer {call : BlockStore β σ → EStateM Stop σ Int}
    (hcall : ∀ i s, Outcome (call (below i).toBlockStore)
      (fun _ s' => (below i).contents s' = (below i).contents s) (fun _ _ => False) s)
    (l : List (Fin n)) (h : Held below P rs) :
    Outcome (firstAnswer (fun i => (below i).toBlockStore) call l)
      (fun _ rs' => Held below P rs') (fun _ _ => False) rs := by
  induction l generalizing rs with
  | nil => exact h
  | cons i rest ih =>
    rw [firstAnswer, Outcome.bind_iff, Outcome.get_iff]
    split
    · exact ih h
    · rw [Outcome.bind_iff, onDisk, outcome_onPart_iff]
      apply (hcall i (rs.below i)).post
      intro r s hs
      have h' := h.setBelow hs
      split
      · rw [Outcome.bind_iff, Outcome.modify_iff]
        exact ih h'.mark
      · exact h'

theorem outcome_readLoop (ino offset : Nat) (l : List (Fin n)) (h : Held below P rs) :
    Outcome (readLoop (fun i => (below i).toBlockStore) ino offset l)
      (fun r rs' => (∀ b, r = some b → ∃ c, P c ∧ b = kind.block c ino offset) ∧
        Held below P rs') (fun _ _ => False) rs := by
  induction l generalizing rs with
  | nil => exact ⟨fun b hb => absurd hb (by simp), h⟩
  | cons i rest ih =>
    rw [readLoop, Outcome.bind_iff, Outcome.get_iff]
    split
    · exact ih h
    · rename_i hb
      rw [Outcome.bind_iff, onDisk, outcome_onPart_iff]
      apply ((below i).outcome_read (rs.below i) ino offset).post
      rintro r s ⟨hr, hs⟩
      have h' := h.setBelow hs
      rcases hr with rfl | rfl
      · exact ih h'
      · refine ⟨fun b hsome => ⟨_, h i (by simpa using hb), ?_⟩, h'⟩
        exact (Option.some.inj hsome).symm

theorem outcome_everyWorking (P done : γ → Prop) {call : BlockStore β σ → EStateM Stop σ Int}
    (hcall : ∀ i s, P ((below i).contents s) → Outcome (call (below i).toBlockStore)
      (fun r s' => 0 ≤ r → done ((below i).contents s')) (fun _ _ => False) s)
    (l : List (Fin n)) (hl : l.Nodup) {result : Int} (h : Half below P done l rs)
    (hres : (result = -1 ∧ NoneYet l rs) ∨ result = 0) :
    Outcome (everyWorking (fun i => (below i).toBlockStore) call l result)
      (fun r rs' => (r = -1 ∨ r = 0) ∧ Agreed below done r rs') (fun _ _ => False) rs := by
  induction l generalizing rs result with
  | nil =>
    rcases hres with ⟨rfl, hall⟩ | rfl
    · exact ⟨.inl rfl, fun _ i => hall i List.not_mem_nil, fun hne => absurd rfl hne⟩
    · exact ⟨.inr rfl, fun he => absurd he (by decide), fun _ => h.held⟩
  | cons i rest ih =>
    obtain ⟨hi, hrest⟩ := List.nodup_cons.mp hl
    rw [everyWorking, Outcome.bind_iff, Outcome.get_iff]
    split
    · rename_i hb
      exact ih hrest (h.skip hb) (hres.imp (fun hneg => ⟨hneg.1, hneg.2.skip hb⟩) id)
    · rename_i hb
      rw [Bool.not_eq_true] at hb
      rw [Outcome.bind_iff, onDisk, outcome_onPart_iff]
      apply (hcall i (rs.below i) ((h i hb).1 List.mem_cons_self)).post
      intro r s hs
      split
      · rw [Outcome.bind_iff, Outcome.modify_iff]
        exact ih hrest h.fail (hres.imp (fun hneg => ⟨hneg.1, hneg.2.fail⟩) id)
      · rename_i hr
        exact ih hrest (h.succeed hi fun _ => hs (by omega)) (.inr rfl)

/-- A success of `setsize` on a broken disk counts for the result, but what it leaves there
is never looked at. -/
theorem outcome_setsizeLoop {ino nblocks : Nat} (l : List (Fin n)) (hl : l.Nodup) {oldsize : Int}
    (h : Half below P (fun c' => ∃ c, P c ∧ kind.resize c ino nblocks = some c') l rs)
    (hres : (oldsize = -1 ∧ NoneYet l rs) ∨ 0 ≤ oldsize) :
    Outcome (setsizeLoop (fun i => (below i).toBlockStore) ino nblocks l oldsize)
      (Agreed below fun c' => ∃ c, P c ∧ kind.resize c ino nblocks = some c')
      (fun _ _ => False) rs := by
  induction l generalizing rs oldsize with
  | nil =>
    rcases hres with ⟨rfl, hall⟩ | hres
    · exact ⟨fun _ i => hall i List.not_mem_nil, fun hne => absurd rfl hne⟩
    · exact ⟨fun he => by omega, fun _ => h.held⟩
  | cons i rest ih =>
    obtain ⟨hi, hrest⟩ := List.nodup_cons.mp hl
    rw [setsizeLoop, Outcome.bind_iff, onDisk, outcome_onPart_iff]
    apply ((below i).outcome_setsize (rs.below i) ino nblocks).post
    intro r s hs
    split
    · rw [Outcome.bind_iff, Outcome.modify_iff]
      exact ih hrest h.fail (hres.imp (fun hneg => ⟨hneg.1, hneg.2.fail⟩) id)
    · rename_i hr
      rw [if_neg hr] at hs
      refine ih hrest (h.succeed hi fun hb => ?_) (.inr (by omega))
      exact ⟨_, (h i hb).1 List.mem_cons_self, hs⟩

end Loops

/-- What an observer of the calls and answers knows: what one disk that never fails would
hold, the acknowledged writes that were not overwritten or cut off since, and what the
other blocks held at the start or when they were last cut off. -/
structure Ledger (β γ : Type) where
  contents : γ
  acked : Nat → Nat → Option β
  initial : Nat → Nat → β

namespace Ledger

variable (kind : DiskKind β γ)

def start (c : γ) : Ledger β γ := ⟨c, fun _ _ => none, kind.block c⟩

/-- One more call and its answer. -/
def record (l : Ledger β γ) : Request β → Answer β → Ledger β γ
  | .write ino offset block, .code r =>
    if r = 0 then
      ⟨(kind.write l.contents ino offset block).getD l.contents,
        setBlock l.acked ino offset (some block), l.initial⟩
    else l
  | .setsize ino nblocks, .code r =>
    if r = -1 then l
    else
      let c := (kind.resize l.contents ino nblocks).getD l.contents
      ⟨c, fun i offset => if i = ino ∧ nblocks ≤ offset then none else l.acked i offset,
        fun i offset =>
          if i = ino ∧ nblocks ≤ offset then kind.block c i offset else l.initial i offset⟩
  | _, _ => l

def recordAll (l : Ledger β γ) : List (Request β) → List (Answer β) → Ledger β γ
  | call :: calls, answer :: answers => recordAll (l.record kind call answer) calls answers
  | _, _ => l

/-- The last acknowledged write, or the initial block if there is none. -/
def expected (l : Ledger β γ) (ino offset : Nat) : β :=
  (l.acked ino offset).getD (l.initial ino offset)

/-- The disk holds what the observer knows of. -/
def Matches (l : Ledger β γ) (c : γ) : Prop := c = l.contents ∧ kind.block c = l.expected

end Ledger

section Runs

variable {kind : DiskKind β γ} {below : Fin n → FailingDisk kind σ} {rs : State n σ}
  {l : Ledger β γ}

theorem matches_write {ino offset : Nat} {block : β} {c c' : γ} (h : l.Matches kind c)
    (hw : kind.write c ino offset block = some c') :
    (l.record kind (.write ino offset block) (.code 0)).Matches kind c' := by
  obtain ⟨rfl, hblock⟩ := h
  rw [Ledger.record, if_pos rfl, hw]
  refine ⟨rfl, ?_⟩
  rw [kind.block_write hw, hblock]
  funext i o
  unfold Ledger.expected setBlock
  dsimp only
  split <;> rfl

theorem matches_resize {ino nblocks : Nat} {r : Int} {c c' : γ} (h : l.Matches kind c)
    (hr : r ≠ -1) (hc : kind.resize c ino nblocks = some c') :
    (l.record kind (.setsize ino nblocks) (.code r)).Matches kind c' := by
  obtain ⟨rfl, hblock⟩ := h
  rw [Ledger.record, if_neg hr, hc]
  refine ⟨rfl, ?_⟩
  funext i o
  unfold Ledger.expected
  dsimp only [Option.getD_some]
  by_cases hcut : i = ino ∧ nblocks ≤ o
  · rw [if_pos hcut, if_pos hcut]
    rfl
  · rw [if_neg hcut, if_neg hcut, kind.block_resize hc i o hcut, hblock]
    rfl

theorem Held.mono {P Q : γ → Prop} (h : Held below P rs) (hpq : ∀ c, P c → Q c) :
    Held below Q rs := fun i hi => hpq _ (h i hi)

theorem held_of_broken {P : γ → Prop} (h : ∀ i, rs.broken i = true) : Held below P rs := by
  intro i hi
  rw [h i] at hi
  exact absurd hi (by decide)

theorem outcome_write (h : Held below (l.Matches kind) rs) (ino offset : Nat) (block : β) :
    Outcome (write (fun i => (below i).toBlockStore) ino offset block)
      (fun r rs' => Held below
        ((l.record kind (.write ino offset block) (.code r)).Matches kind) rs')
      (fun _ _ => False) rs := by
  apply (outcome_everyWorking (l.Matches kind)
    ((l.record kind (.write ino offset block) (.code 0)).Matches kind) ?_
    (List.finRange n) (List.nodup_finRange n) h.half
    (.inl ⟨rfl, fun i hi => absurd (List.mem_finRange i) hi⟩)).post
  · rintro r rs' ⟨rfl | rfl, hagreed⟩
    · exact held_of_broken (hagreed.1 rfl)
    · exact hagreed.2 (by decide)
  · intro i s hs
    apply ((below i).outcome_write s ino offset block).post
    intro r s' hr hpos
    rw [if_neg (by omega)] at hr
    exact matches_write hs hr

theorem outcome_setsize (h : Held below (l.Matches kind) rs) (ino nblocks : Nat) :
    Outcome (setsize (fun i => (below i).toBlockStore) ino nblocks)
      (fun r rs' => Held below
        ((l.record kind (.setsize ino nblocks) (.code r)).Matches kind) rs')
      (fun _ _ => False) rs := by
  apply (outcome_setsizeLoop (List.finRange n) (List.nodup_finRange n) h.half
    (.inl ⟨rfl, fun i hi => absurd (List.mem_finRange i) hi⟩)).post
  intro r rs' hagreed
  by_cases hr : r = -1
  · exact held_of_broken (hagreed.1 hr)
  · refine (hagreed.2 hr).mono ?_
    rintro c' ⟨c, hc, hresize⟩
    exact matches_resize hc hr hresize

theorem outcome_sync (h : Held below (l.Matches kind) rs) (ino : Nat) :
    Outcome (sync (fun i => (below i).toBlockStore) ino)
      (fun _ rs' => Held below (l.Matches kind) rs') (fun _ _ => False) rs := by
  apply (outcome_everyWorking (l.Matches kind) (l.Matches kind) ?_
    (List.finRange n) (List.nodup_finRange n) h.half
    (.inl ⟨rfl, fun i hi => absurd (List.mem_finRange i) hi⟩)).post
  · rintro r rs' ⟨rfl | rfl, hagreed⟩
    · exact held_of_broken (hagreed.1 rfl)
    · exact hagreed.2 (by decide)
  · intro i s hs
    apply ((below i).outcome_sync s ino).post
    intro r s' hr _
    rw [hr]
    exact hs

theorem perform_held (h : Held below (l.Matches kind) rs) (call : Request β) :
    Outcome (call.perform (raid1disk fun i => (below i).toBlockStore))
      (fun answer rs' => Held below ((l.record kind call answer).Matches kind) rs')
      (fun _ _ => False) rs := by
  cases call with
  | getninodes =>
    exact Outcome.seq (outcome_firstAnswer (fun i s => (below i).outcome_getninodes s) _ h)
      fun _ _ h' => h'
  | getsize ino =>
    exact Outcome.seq (outcome_firstAnswer (fun i s => (below i).outcome_getsize s ino) _ h)
      fun _ _ h' => h'
  | setsize ino nblocks => exact Outcome.seq (outcome_setsize h ino nblocks) fun _ _ h' => h'
  | read ino offset =>
    exact Outcome.seq (outcome_readLoop ino offset _ h) fun _ _ h' => h'.2
  | write ino offset block => exact Outcome.seq (outcome_write h ino offset block) fun _ _ h' => h'
  | sync ino => exact Outcome.seq (outcome_sync h ino) fun _ _ h' => h'

theorem performAll_held (calls : List (Request β)) (h : Held below (l.Matches kind) rs) :
    Outcome (performAll (raid1disk fun i => (below i).toBlockStore) calls)
      (fun answers rs' => Held below ((l.recordAll kind calls answers).Matches kind) rs')
      (fun _ _ => False) rs := by
  induction calls generalizing rs l with
  | nil => exact h
  | cons call calls ih =>
    unfold performAll
    apply Outcome.seq (perform_held h call)
    intro answer rs' h'
    exact Outcome.seq (ih h') fun _ _ h'' => h''

end Runs

/-- **Consistency of the mirrors.** From disks of one kind with the same contents, after any
calls and whatever calls on single disks failed, the disks not marked broken have the same
contents, and a read that succeeds returns the last acknowledged write to its block or, if
there is none since the block was last cut off, its initial contents. -/
theorem mirrors_consistent {kind : DiskKind β γ} (below : Fin n → FailingDisk kind σ)
    (disks : Fin n → σ) {c : γ} (hsame : ∀ i, (below i).contents (disks i) = c)
    (calls : List (Request β)) :
    ∃ answers rs, performAll (raid1disk fun i => (below i).toBlockStore) calls (init disks) =
        .ok answers rs ∧
      (∀ i j, rs.broken i = false → rs.broken j = false →
        (below i).contents (rs.below i) = (below j).contents (rs.below j)) ∧
      ∀ ino offset b rs',
        read (fun i => (below i).toBlockStore) ino offset rs = .ok (some b) rs' →
        b = ((Ledger.start kind c).recordAll kind calls answers).expected ino offset := by
  have hstart : Held below ((Ledger.start kind c).Matches kind) (init disks) := by
    intro i _
    exact ⟨hsame i, by rw [init, hsame i]; rfl⟩
  obtain ⟨answers, rs, he, h⟩ := (performAll_held calls hstart).exists_ok
  refine ⟨answers, rs, he, fun i j hi hj => ?_, fun ino offset b rs' hread => ?_⟩
  · rw [(h i hi).1, (h j hj).1]
  · obtain ⟨hb, -⟩ := (outcome_readLoop ino offset (List.finRange n) h).ok hread
    obtain ⟨c', hc', rfl⟩ := hb b rfl
    rw [hc'.2]

/-- A disk and which of its next calls fail; past the end of the script none does. -/
structure Scripted (γ : Type) where
  disk : γ
  script : List Bool

namespace Scripted

variable {α : Type}

/-- The call, or its failure if the script says so. -/
def call (failed : α) (m : EStateM Stop γ α) : EStateM Stop (Scripted γ) α := fun st =>
  if st.script.headD false then .ok failed ⟨st.disk, st.script.tail⟩
  else onPart (fun st => st.disk) (fun st d => ⟨d, st.script.tail⟩) m st

theorem outcome_call {failed : α} {m : EStateM Stop γ α} {Q : α → Scripted γ → Prop}
    {E : Stop → Scripted γ → Prop} {st : Scripted γ} (hf : ∀ rest, Q failed ⟨st.disk, rest⟩)
    (hm : Outcome m (fun a d => ∀ rest, Q a ⟨d, rest⟩) (fun e d => ∀ rest, E e ⟨d, rest⟩) st.disk) :
    Outcome (call failed m) Q E st := by
  by_cases hs : st.script.headD false = true
  · have he : call failed m st = .ok failed ⟨st.disk, st.script.tail⟩ := if_pos hs
    exact .of_ok he (hf _)
  · have he : call failed m st =
        onPart (fun st => st.disk) (fun st d => ⟨d, st.script.tail⟩) m st := if_neg hs
    refine .of_eq he (outcome_onPart_iff.mpr ?_)
    exact hm.mono (fun _ _ hq => hq _) (fun _ _ hq => hq _)

end Scripted

/-- What a ramdisk does when a call succeeds. -/
def ramKind (β : Type) [Inhabited β] : DiskKind β (Ramdisk.State β) where
  block := fun c ino offset => if ino = 0 then c.blocks offset else default
  write := fun c ino offset b =>
    if ino = 0 ∧ offset < c.nblocks then
      some { c with blocks := Function.update c.blocks offset b }
    else none
  resize := fun c _ nblocks => some { c with nblocks := nblocks }
  block_write := by
    intro c c' ino offset b h
    split at h
    · rename_i hin
      obtain rfl := Option.some.inj h
      funext i o
      by_cases hi : i = 0 <;> simp [setBlock, hi, hin.1, Function.update_apply]
    · exact absurd h (by simp)
  block_resize := by
    intro c c' ino nblocks h i offset _
    obtain rfl := Option.some.inj h
    rfl

/-- `ramdisk_setsize`, which returns the old size, on the sizes that are C ints. -/
def resizeRam {β : Type} (ino nblocks : Nat) : EStateM Stop (Ramdisk.State β) Int := do
  if 2 ^ 31 ≤ (← get).nblocks then pure (-1) else Ramdisk.setsize ino nblocks

theorem outside_of_not {ino offset n : Nat} (h : ¬ (ino = 0 ∧ offset < n)) (hino : ¬ ino ≠ 0) :
    n ≤ offset :=
  Nat.not_lt.mp fun hlt => h ⟨not_not.mp hino, hlt⟩

/-- A ramdisk that fails by a script. -/
def scriptedRamdisk (β : Type) [Inhabited β] :
    FailingDisk (ramKind β) (Scripted (Ramdisk.State β)) where
  getninodes := Scripted.call (-1) Ramdisk.getninodes
  getsize := fun ino => Scripted.call (-1) (Ramdisk.getsize ino)
  setsize := fun ino nblocks => Scripted.call (-1) (resizeRam ino nblocks)
  read := fun ino offset => Scripted.call none (Ramdisk.read ino offset)
  write := fun ino offset block => Scripted.call (-1) (Ramdisk.write ino offset block)
  sync := fun ino => Scripted.call (-1) (Ramdisk.sync ino)
  contents := fun st => st.disk
  outcome_getninodes := fun _ => Scripted.outcome_call (fun _ => rfl) fun _ => rfl
  outcome_getsize := by
    intro st ino
    refine Scripted.outcome_call (fun _ => rfl) ?_
    unfold Ramdisk.getsize
    split <;> exact fun _ => rfl
  outcome_setsize := by
    intro st ino nblocks
    refine Scripted.outcome_call (fun _ => rfl) ?_
    rw [resizeRam, Outcome.bind_iff, Outcome.get_iff]
    split
    · exact fun _ => rfl
    · rename_i hsmall
      refine .of_ok (a := toInt st.disk.nblocks) rfl fun _ => ?_
      rw [toInt_eq (Nat.not_le.mp hsmall), if_neg (Int.not_lt.mpr (Int.natCast_nonneg _))]
      rfl
  outcome_read := by
    intro st ino offset
    refine Scripted.outcome_call (fun _ => ⟨.inl rfl, rfl⟩) ?_
    by_cases hin : ino = 0 ∧ offset < st.disk.nblocks
    · obtain ⟨rfl, hlt⟩ := hin
      exact .of_ok (Ramdisk.read_of_lt hlt) fun _ => ⟨.inr rfl, rfl⟩
    · rw [Ramdisk.read]
      split
      · exact fun _ => ⟨.inl rfl, rfl⟩
      · rename_i hino
        rw [Outcome.bind_iff, Outcome.get_iff, if_pos (outside_of_not hin hino)]
        exact fun _ => ⟨.inl rfl, rfl⟩
  outcome_write := by
    intro st ino offset block
    refine Scripted.outcome_call (fun _ => rfl) ?_
    by_cases hin : ino = 0 ∧ offset < st.disk.nblocks
    · obtain ⟨rfl, hlt⟩ := hin
      refine .of_ok (Ramdisk.write_of_lt hlt block) fun _ => ?_
      exact if_pos ⟨rfl, hlt⟩
    · rw [Ramdisk.write]
      split
      · exact fun _ => rfl
      · rename_i hino
        rw [Outcome.bind_iff, Outcome.get_iff, if_pos (outside_of_not hin hino)]
        exact fun _ => rfl
  outcome_sync := fun _ _ => Scripted.outcome_call (fun _ => rfl) fun _ => rfl

/-- Two mirrors of four blocks; the first one fails its first write, the second one its
first read. -/
def twoMirrors : Fin 2 → Scripted (Ramdisk.State Nat) :=
  fun i => ⟨⟨fun o => 10 + o, 4⟩, if i = 0 then [true] else [false, true]⟩

theorem mirrors_consistent_two :
    ∃ answers rs, performAll (raid1disk fun _ : Fin 2 => (scriptedRamdisk Nat).toBlockStore)
        [.write 0 1 99, .read 0 1, .setsize 0 3, .read 0 1] (init twoMirrors) =
        .ok answers rs ∧
      (∀ i j, rs.broken i = false → rs.broken j = false →
        (scriptedRamdisk Nat).contents (rs.below i) = (scriptedRamdisk Nat).contents (rs.below j)) ∧
      ∀ ino offset b rs',
        read (fun _ : Fin 2 => (scriptedRamdisk Nat).toBlockStore) ino offset rs =
          .ok (some b) rs' →
        b = ((Ledger.start (ramKind Nat) ⟨fun o => 10 + o, 4⟩).recordAll (ramKind Nat)
          [.write 0 1 99, .read 0 1, .setsize 0 3, .read 0 1] answers).expected ino offset :=
  mirrors_consistent (fun _ => scriptedRamdisk Nat) twoMirrors
    (fun _ => rfl) _

/-- The second mirror alone answers: its first read fails, the next one shows the write. -/
example :
    returned (performAll (raid1disk fun _ : Fin 2 => (scriptedRamdisk Nat).toBlockStore)
      [.write 0 1 99, .read 0 1, .setsize 0 3, .read 0 1] (init twoMirrors)) =
      some [.code 0, .block none, .code 4, .block (some 99)] := by decide

end Egos.Disk.Raid1disk
