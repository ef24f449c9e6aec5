import Egos.Disk.Coherence
import Egos.Disk.Runs
import Egos.Lib.History

/-!
# The monitor `checkdisk.c`

The layer forwards every call and keeps the last known contents of each block that was read
or written. It ends the program when a read disagrees with them. `known` says what a history
of calls and answers of the store below makes known, and `Corrupt` which read contradicts it;
the layer ends the program at the first such read and is transparent up to there.
-/
namespace Egos.Disk.Checkdisk

open Egos.Lib
open Egos.Disk.Faults (FaultyStore)

set_option autoImplicit false

/-- `struct block_list`. -/
structure Entry (β : Type) where
  ino : Nat
  offset : Nat
  block : β

/-- `struct checkdisk_state` over a store below in state `below`. -/
structure State (β σ : Type) where
  below : σ
  descr : String
  bl : List (Entry β)

variable {β σ : Type}

def Entry.is (e : Entry β) (ino offset : Nat) : Bool := e.ino == ino && e.offset == offset

/-- The search loop of `read` and `write`. -/
def findEntry (bl : List (Entry β)) (ino offset : Nat) : Option (Entry β) :=
  bl.find? fun e => e.is ino offset

/-- Call the store below. -/
def onBelow {α : Type} (m : EStateM Stop σ α) : EStateM Stop (State β σ) α :=
  onPart State.below (fun cs s => { cs with below := s }) m

def corrupted (descr : String) : Stop :=
  .panic ("!!CHKDISK " ++ descr ++ ": checkdisk_read: corrupted\n\r")

def getninodes (bs : BlockStore β σ) : EStateM Stop (State β σ) Int := onBelow bs.getninodes

def getsize (bs : BlockStore β σ) (ino : Nat) : EStateM Stop (State β σ) Int :=
  onBelow (bs.getsize ino)

/-- The entries past the new size are unlinked first, whatever the store below answers. -/
def setsize (bs : BlockStore β σ) (ino nblocks : Nat) : EStateM Stop (State β σ) Int := do
  modify fun cs =>
    { cs with bl := cs.bl.filter fun e => !(e.ino == ino && decide (nblocks ≤ e.offset)) }
  onBelow (bs.setsize ino nblocks)

def read [DecidableEq β] (bs : BlockStore β σ) (ino offset : Nat) :
    EStateM Stop (State β σ) (Option β) := do
  match ← onBelow (bs.read ino offset) with
  | none => pure none
  | some block => do
    let cs ← get
    match findEntry cs.bl ino offset with
    | some e => if e.block ≠ block then throw (corrupted cs.descr) else pure (some block)
    | none => do
      modify fun cs => { cs with bl := ⟨ino, offset, block⟩ :: cs.bl }
      pure (some block)

/-- Update the first entry of the block. -/
def updateEntry (ino offset : Nat) (block : β) : List (Entry β) → List (Entry β)
  | [] => []
  | e :: bl => if e.is ino offset then { e with block := block } :: bl
      else e :: updateEntry ino offset block bl

def write (bs : BlockStore β σ) (ino offset : Nat) (block : β) : EStateM Stop (State β σ) Int := do
  let result ← onBelow (bs.write ino offset block)
  if result < 0 then pure (-1)
  else do
    let cs ← get
    match findEntry cs.bl ino offset with
    | some _ => modify fun cs => { cs with bl := updateEntry ino offset block cs.bl }
    | none => modify fun cs => { cs with bl := ⟨ino, offset, block⟩ :: cs.bl }
    pure result

def sync (bs : BlockStore β σ) (ino : Nat) : EStateM Stop (State β σ) Int := onBelow (bs.sync ino)

/-- `checkdisk_init`: the list is empty. -/
def init (below : σ) (descr : String) : State β σ := ⟨below, descr, []⟩

/-- The interface `checkdisk_init` returns. -/
def checkdisk [DecidableEq β] (bs : BlockStore β σ) : BlockStore β (State β σ) where
  getninodes := getninodes bs
  getsize := getsize bs
  setsize := setsize bs
  read := read bs
  write := write bs
  sync := sync bs

/-- A call of the store below with its answer. -/
abbrev Event (β : Type) := Request β × Answer β

/-- What is known of the blocks after one more call: a successful read or write tells the
contents of its block, and a `setsize` makes the blocks past the new size unknown. -/
def learn (known : Nat → Nat → Option β) : Event β → Nat → Nat → Option β
  | (.read ino offset, .block (some block)) => setBlock known ino offset (some block)
  | (.write ino offset block, .code result) =>
    if result < 0 then known else setBlock known ino offset (some block)
  | (.setsize ino nblocks, _) => fun i offset =>
    if i = ino ∧ nblocks ≤ offset then none else known i offset
  | _ => known

/-- The block of the most recent successful read or write that no later `setsize` has
invalidated. -/
def known (past : List (Event β)) : Nat → Nat → Option β := past.foldl learn fun _ _ => none

theorem known_concat (past : List (Event β)) (e : Event β) :
    known (past ++ [e]) = learn (known past) e := by
  unfold known
  rw [List.foldl_append]
  rfl

/-- The store below has returned another block than the one known. -/
def Corrupt (known : Nat → Nat → Option β) (e : Event β) : Prop :=
  ∃ ino offset block block', e = (.read ino offset, .block (some block)) ∧
    known ino offset = some block' ∧ block' ≠ block

/-- The contents that the list has for a block. -/
def lookup (bl : List (Entry β)) (ino offset : Nat) : Option β :=
  (findEntry bl ino offset).map Entry.block

theorem Entry.is_iff {e : Entry β} {ino offset : Nat} :
    e.is ino offset = true ↔ e.ino = ino ∧ e.offset = offset := by
  simp [Entry.is]

theorem findEntry_cons (e : Entry β) (bl : List (Entry β)) (ino offset : Nat) :
    findEntry (e :: bl) ino offset = if e.is ino offset then some e else findEntry bl ino offset := by
  unfold findEntry
  rw [List.find?_cons]
  cases e.is ino offset <;> rfl

theorem lookup_cons (e : Entry β) (bl : List (Entry β)) :
    lookup (e :: bl) = setBlock (lookup bl) e.ino e.offset (some e.block) := by
  funext ino offset
  unfold lookup setBlock
  rw [findEntry_cons]
  by_cases he : e.is ino offset
  · obtain ⟨rfl, rfl⟩ := Entry.is_iff.mp he
    rw [if_pos he, if_pos ⟨rfl, rfl⟩]
    rfl
  · rw [if_neg he, if_neg]
    rintro ⟨rfl, rfl⟩
    exact he (Entry.is_iff.mpr ⟨rfl, rfl⟩)

theorem lookup_filter (bl : List (Entry β)) (ino nblocks : Nat) :
    lookup (bl.filter fun e => !(e.ino == ino && decide (nblocks ≤ e.offset))) = fun i offset =>
      if i = ino ∧ nblocks ≤ offset then none else lookup bl i offset := by
  induction bl with
  | nil =>
    funext i offset
    simp [lookup, findEntry]
  | cons e bl ih =>
    by_cases hcut : e.ino = ino ∧ nblocks ≤ e.offset
    · rw [List.filter_cons_of_neg (by simpa using hcut), ih, lookup_cons]
      funext i offset
      by_cases hi : i = ino ∧ nblocks ≤ offset
      · rw [if_pos hi, if_pos hi]
      · rw [if_neg hi, if_neg hi, setBlock_other]
        rintro ⟨rfl, rfl⟩
        exact hi hcut
    · have hkeep : (!(e.ino == ino && decide (nblocks ≤ e.offset))) = true := by
        rw [not_and_or] at hcut
        simpa using hcut
      rw [List.filter_cons, if_pos hkeep, lookup_cons, ih, lookup_cons]
      funext i offset
      by_cases he : i = e.ino ∧ offset = e.offset
      · obtain ⟨rfl, rfl⟩ := he
        rw [setBlock_same, setBlock_same, if_neg hcut]
      · rw [setBlock_other he, setBlock_other he]

theorem lookup_updateEntry {bl : List (Entry β)} {ino offset : Nat} (block : β)
    (h : (findEntry bl ino offset).isSome) :
    lookup (updateEntry ino offset block bl) = setBlock (lookup bl) ino offset (some block) := by
  induction bl with
  | nil => cases h
  | cons e bl ih =>
    unfold updateEntry
    by_cases he : e.is ino offset
    · rw [if_pos he, lookup_cons, lookup_cons]
      obtain ⟨rfl, rfl⟩ := Entry.is_iff.mp he
      funext i o
      unfold setBlock
      split <;> rfl
    · rw [findEntry_cons, if_neg he] at h
      rw [if_neg he, lookup_cons, ih h, lookup_cons]
      funext i o
      by_cases hi : i = ino ∧ o = offset
      · obtain ⟨rfl, rfl⟩ := hi
        rw [setBlock_same, setBlock_other, setBlock_same]
        rintro ⟨rfl, rfl⟩
        exact he (Entry.is_iff.mpr ⟨rfl, rfl⟩)
      · by_cases hs : i = e.ino ∧ o = e.offset
        · obtain ⟨rfl, rfl⟩ := hs
          rw [setBlock_same, setBlock_other hi, setBlock_same]
        · rw [setBlock_other hs, setBlock_other hi, setBlock_other hi, setBlock_other hs]

/-- Reads and writes return 0 or -1; for a read that is its type. -/
def Returns (bs : BlockStore β σ) : Prop :=
  ∀ ino offset block s r s', bs.write ino offset block s = .ok r s' → r = 0 ∨ r = -1

section Step

variable [DecidableEq β] {bs : BlockStore β σ} {cs : State β σ}

/-- What one call does, next to the same call of the store below. -/
def Follows (m : EStateM Stop (State β σ) (Answer β)) (bs : BlockStore β σ) (call : Request β)
    (cs : State β σ) : Prop :=
  Outcome m
    (fun answer cs' => call.perform bs cs.below = .ok answer cs'.below ∧ cs'.descr = cs.descr ∧
      lookup cs'.bl = learn (lookup cs.bl) (call, answer) ∧
        ¬ Corrupt (lookup cs.bl) (call, answer))
    (fun stop cs' => call.perform bs cs.below = .error stop cs'.below ∨
      stop = corrupted cs.descr ∧ ∃ answer, call.perform bs cs.below = .ok answer cs'.below ∧
        Corrupt (lookup cs.bl) (call, answer)) cs

omit [DecidableEq β] in
theorem follows_forward {α : Type} {call : Request β} {m : EStateM Stop σ α} {f : α → Answer β}
    (hcall : call.perform bs = do let r ← m; pure (f r))
    (hlearn : ∀ known a, learn known (call, a) = known)
    (hread : ∀ ino offset, call ≠ .read ino offset) :
    Follows (do let r ← onBelow m; pure (f r)) bs call cs := by
  unfold Follows
  rw [Outcome.bind_iff]
  apply outcome_onPart
  apply (Outcome.self m cs.below).mono
  · intro r s hr
    refine ⟨?_, rfl, (hlearn _ _).symm, ?_⟩
    · rw [hcall]
      exact bind_ok hr _
    · rintro ⟨ino, offset, _, _, he, -⟩
      exact hread ino offset (congrArg Prod.fst he)
  · intro stop s hs
    left
    rw [hcall]
    exact bind_error hs _

omit [DecidableEq β] in
theorem not_corrupt_code {known : Nat → Nat → Option β} {call : Request β} {r : Int} :
    ¬ Corrupt known (call, .code r) := by
  rintro ⟨_, _, _, _, he, -⟩
  cases congrArg Prod.snd he

omit [DecidableEq β] in
theorem follows_setsize (ino nblocks : Nat) :
    Follows (do let r ← setsize bs ino nblocks; pure (.code r)) bs (.setsize ino nblocks) cs := by
  unfold Follows
  rw [Outcome.bind_iff, setsize, Outcome.bind_iff, Outcome.modify_iff]
  apply outcome_onPart
  apply (Outcome.self (bs.setsize ino nblocks) cs.below).mono
  · intro r s hr
    rw [Outcome.pure_iff]
    exact ⟨bind_ok hr _, rfl, lookup_filter cs.bl ino nblocks, not_corrupt_code⟩
  · intro stop s hs
    exact .inl (bind_error hs _)

theorem follows_read (ino offset : Nat) :
    Follows (do let r ← read bs ino offset; pure (.block r)) bs (.read ino offset) cs := by
  unfold Follows
  rw [Outcome.bind_iff, read, Outcome.bind_iff]
  apply outcome_onPart
  apply (Outcome.self (bs.read ino offset) cs.below).mono
  · intro r s hr
    have hcall : (Request.read ino offset).perform bs cs.below = .ok (.block r) s := bind_ok hr _
    cases r with
    | none =>
      refine ⟨hcall, rfl, rfl, ?_⟩
      rintro ⟨_, _, _, _, he, -⟩
      cases he
    | some block =>
      dsimp only
      rw [Outcome.bind_iff, Outcome.get_iff]
      have hl : lookup cs.bl ino offset = (findEntry cs.bl ino offset).map Entry.block := rfl
      cases hf : findEntry cs.bl ino offset with
      | some e =>
        rw [hf] at hl
        dsimp only
        split
        · rename_i hne
          exact .inr ⟨rfl, _, hcall, ino, offset, block, e.block, rfl, hl, hne⟩
        · rename_i heq
          rw [not_not] at heq
          subst heq
          refine ⟨hcall, rfl, (setBlock_self hl).symm, ?_⟩
          rintro ⟨_, _, _, _, he, hk, hne⟩
          cases he
          rw [hl] at hk
          exact hne (Option.some.inj hk).symm
      | none =>
        rw [hf] at hl
        dsimp only
        rw [Outcome.bind_iff, Outcome.modify_iff]
        refine ⟨hcall, rfl, lookup_cons _ _, ?_⟩
        rintro ⟨_, _, _, _, he, hk, -⟩
        cases he
        rw [hl] at hk
        cases hk
  · intro stop s hs
    exact .inl (bind_error hs _)

omit [DecidableEq β] in
theorem follows_write (hbs : Returns bs) (ino offset : Nat) (block : β) :
    Follows (do let r ← write bs ino offset block; pure (.code r)) bs (.write ino offset block)
      cs := by
  unfold Follows
  rw [Outcome.bind_iff, write, Outcome.bind_iff]
  apply outcome_onPart
  apply (Outcome.self (bs.write ino offset block) cs.below).mono
  · intro r s hr
    have hcall : (Request.write ino offset block).perform bs cs.below = .ok (.code r) s :=
      bind_ok hr _
    rcases hbs ino offset block _ r s hr with rfl | rfl
    · rw [if_neg (by decide), Outcome.bind_iff, Outcome.get_iff]
      dsimp only
      cases hf : findEntry cs.bl ino offset with
      | some e =>
        dsimp only
        rw [Outcome.bind_iff, Outcome.modify_iff]
        refine ⟨hcall, rfl, ?_, not_corrupt_code⟩
        exact lookup_updateEntry block (by rw [hf]; rfl)
      | none =>
        dsimp only
        rw [Outcome.bind_iff, Outcome.modify_iff]
        exact ⟨hcall, rfl, lookup_cons _ _, not_corrupt_code⟩
    · rw [if_pos (by decide)]
      exact ⟨hcall, rfl, rfl, not_corrupt_code⟩
  · intro stop s hs
    exact .inl (bind_error hs _)

theorem follows_perform (hbs : Returns bs) (call : Request β) :
    Follows (call.perform (checkdisk bs)) bs call cs := by
  cases call with
  | getninodes => exact follows_forward rfl (fun _ _ => rfl) (by simp)
  | getsize ino => exact follows_forward rfl (fun _ _ => rfl) (by simp)
  | setsize ino nblocks => exact follows_setsize ino nblocks
  | read ino offset => exact follows_read ino offset
  | write ino offset block => exact follows_write hbs ino offset block
  | sync ino => exact follows_forward rfl (fun _ _ => rfl) (by simp)

end Step

/-- Called directly, the store below gives these answers, and no read contradicts what was
known when it came back. -/
structure Agreed (bs : BlockStore β σ) (below : σ) (calls : List (Request β))
    (answers : List (Answer β)) (s : σ) : Prop where
  direct : performAll bs calls below = .ok answers s
  sound : Throughout (fun past e => ¬ Corrupt (known past) e) (calls.zip answers)

/-- The layer gives the answers of the store below as long as no read contradicts what is
known, and ends the program at the first read that does; else only the store below ends it. -/
def Exact [DecidableEq β] (bs : BlockStore β σ) (below : σ) (descr : String)
    (calls : List (Request β)) : Prop :=
  Outcome (performAll (checkdisk bs) calls)
    (fun answers cs => Agreed bs below calls answers cs.below)
    (fun stop cs => ∃ past call rest answers s, calls = past ++ call :: rest ∧
      Agreed bs below past answers s ∧ (call.perform bs s = .error stop cs.below ∨
        stop = corrupted descr ∧ ∃ answer, call.perform bs s = .ok answer cs.below ∧
          Corrupt (known (past.zip answers)) (call, answer)))
    (init below descr)

theorem zip_concat {past : List (Request β)} {answers : List (Answer β)}
    (h : past.length = answers.length) (call : Request β) (answer : Answer β) :
    (past ++ [call]).zip (answers ++ [answer]) = past.zip answers ++ [(call, answer)] :=
  List.zip_append h

/-- The state of the layer after some calls that have been answered. -/
structure Tracks (bs : BlockStore β σ) (below : σ) (descr : String) (past : List (Request β))
    (answers : List (Answer β)) (cs : State β σ) : Prop where
  agreed : Agreed bs below past answers cs.below
  descr_eq : cs.descr = descr
  known_eq : lookup cs.bl = known (past.zip answers)
  length_eq : past.length = answers.length

theorem exact_checkdisk [DecidableEq β] {bs : BlockStore β σ} (hbs : Returns bs) (below : σ)
    (descr : String) (calls : List (Request β)) : Exact bs below descr calls := by
  apply Outcome.post (Q := fun answers cs => Tracks bs below descr calls answers cs)
  · apply outcome_performAll (Tracks bs below descr)
    · exact ⟨⟨rfl, Throughout.nil⟩, rfl, rfl, rfl⟩
    · intro past call rest answers cs hc h
      apply (follows_perform hbs call).mono
      · rintro answer cs' ⟨hcall, hdescr, hbl, hsound⟩
        rw [h.known_eq] at hbl hsound
        have hz := zip_concat h.length_eq call answer
        constructor
        · constructor
          · rw [performAll_concat h.agreed.direct, hcall]
          · rw [hz]
            exact h.agreed.sound.concat hsound
        · exact hdescr.trans h.descr_eq
        · rw [hbl, hz, known_concat]
        · simp [h.length_eq]
      · intro stop cs' hstop
        rw [h.descr_eq, h.known_eq] at hstop
        exact ⟨past, call, rest, answers, cs.below, hc, h.agreed, hstop⟩
  · intro _ _ h
    exact h.agreed

section Arrays

variable {fs : FaultyStore β σ} {s : σ}

/-- What is known is what the arrays of blocks hold. -/
def Holds (known : Nat → Nat → Option β) (view : Nat → Nat → β) : Prop :=
  ∀ ino offset block, known ino offset = some block → view ino offset = block

theorem Holds.setBlock {known : Nat → Nat → Option β} {view : Nat → Nat → β} (h : Holds known view)
    (ino offset : Nat) (block : β) :
    Holds (setBlock known ino offset (some block)) (setBlock view ino offset block) := by
  intro i o b hb
  by_cases he : i = ino ∧ o = offset
  · obtain ⟨rfl, rfl⟩ := he
    rw [setBlock_same] at hb ⊢
    exact Option.some.inj hb
  · rw [setBlock_other he] at hb ⊢
    exact h i o b hb

/-- One call of independent arrays: they hold what it makes known, and a read is right. -/
theorem holds_perform {known : Nat → Nat → Option β} (h : Holds known (fs.view s))
    (call : Request β) :
    Outcome (call.perform fs.toBlockStore)
      (fun answer s' => Holds (learn known (call, answer)) (fs.view s') ∧
        ¬ Corrupt known (call, answer)) (fun _ _ => False) s := by
  cases call with
  | getninodes =>
    apply (fs.outcome_getninodes s).seq
    intro r s' hv
    refine ⟨?_, not_corrupt_code⟩
    rwa [hv]
  | getsize ino =>
    apply (fs.outcome_getsize s ino).seq
    intro r s' hv
    refine ⟨?_, not_corrupt_code⟩
    rwa [hv]
  | sync ino =>
    apply (fs.outcome_sync s ino).seq
    intro r s' hv
    refine ⟨?_, not_corrupt_code⟩
    rwa [hv]
  | setsize ino nblocks =>
    apply (fs.outcome_setsize s ino nblocks).seq
    intro r s' hv
    refine ⟨?_, not_corrupt_code⟩
    intro i offset block hb
    change (if i = ino ∧ nblocks ≤ offset then none else known i offset) = some block at hb
    split at hb
    · cases hb
    · rename_i hkept
      rw [← h i offset block hb]
      rcases hv with ⟨-, hv⟩ | ⟨-, hv⟩
      · rw [hv]
      · exact hv i offset hkept
  | read ino offset =>
    apply (fs.outcome_read s ino offset).seq
    rintro r s' ⟨hr, hv⟩
    rw [← hv] at h hr
    rcases hr with rfl | rfl
    · refine ⟨h, ?_⟩
      rintro ⟨_, _, _, _, he, -⟩
      cases he
    · constructor
      · intro i o b hb
        by_cases he : i = ino ∧ o = offset
        · obtain ⟨rfl, rfl⟩ := he
          change Egos.Disk.setBlock known i o _ i o = _ at hb
          rw [setBlock_same] at hb
          exact Option.some.inj hb
        · change Egos.Disk.setBlock known ino offset _ i o = _ at hb
          rw [setBlock_other he] at hb
          exact h i o b hb
      · rintro ⟨_, _, _, block, he, hk, hne⟩
        cases he
        exact hne (h _ _ _ hk).symm
  | write ino offset block =>
    apply (fs.outcome_write s ino offset block).seq
    rintro r s' (⟨rfl, hv⟩ | ⟨rfl, hv⟩)
    · refine ⟨?_, not_corrupt_code⟩
      rw [hv]
      exact h.setBlock ino offset block
    · refine ⟨?_, not_corrupt_code⟩
      rw [hv]
      exact h

theorem returns_faulty (fs : FaultyStore β σ) : Returns fs.toBlockStore := by
  intro ino offset block s r s' hw
  rcases (fs.outcome_write s ino offset block).ok hw with h | h
  · exact .inl h.1
  · exact .inr h.1

theorem Agreed.holds {below : σ} {calls : List (Request β)} {answers : List (Answer β)}
    (h : Agreed fs.toBlockStore below calls answers s) :
    Holds (known (calls.zip answers)) (fs.view s) := by
  have hrun : Outcome (performAll fs.toBlockStore calls)
      (fun answers s => calls.length = answers.length ∧
        Holds (known (calls.zip answers)) (fs.view s)) (fun _ _ => False) below := by
    apply outcome_performAll (fun past answers s => past.length = answers.length ∧
      Holds (known (past.zip answers)) (fs.view s))
    · refine ⟨rfl, fun ino offset block hb => ?_⟩
      cases hb
    · rintro past call rest answers s - ⟨hlen, hs⟩
      apply (holds_perform hs call).post
      rintro answer s' ⟨hs', -⟩
      rw [zip_concat hlen, known_concat]
      exact ⟨by simp [hlen], hs'⟩
  exact (hrun.ok h.direct).2

end Arrays

/-- Over every store below whose writes return 0 or -1 the layer is an exact monitor, and over
independent arrays of blocks, whose calls may fail, it never ends the program. -/
theorem exact_monitor [DecidableEq β] {τ : Type} {bs : BlockStore β σ} (hbs : Returns bs)
    (fs : FaultyStore β τ) (below : σ) (arrays : τ) (descr : String) (calls : List (Request β)) :
    Exact bs below descr calls ∧
      Outcome (performAll (checkdisk fs.toBlockStore) calls)
        (fun answers cs => Agreed fs.toBlockStore arrays calls answers cs.below)
        (fun _ _ => False) (init arrays descr) := by
  constructor
  · exact exact_checkdisk hbs below descr calls
  · apply (exact_checkdisk (returns_faulty fs) arrays descr calls).mono
    · intro _ _ h
      exact h
    · rintro stop cs ⟨past, call, rest, answers, s, -, hagreed, hstop⟩
      have hcall := holds_perform hagreed.holds call
      rcases hstop with hstop | ⟨-, answer, hok, hcorrupt⟩
      · exact hcall.error hstop
      · exact (hcall.ok hok).2 hcorrupt

/-- A store that returns the blocks of a script, whatever was written. -/
def scripted : BlockStore Nat (List Nat) where
  getninodes := pure 1
  getsize _ := pure 1
  setsize _ _ := pure 0
  read _ _ := do
    match ← get with
    | [] => pure none
    | block :: script => do
      set script
      pure (some block)
  write _ _ _ := pure 0
  sync _ := pure 0

/-- The layer lets two right reads through and stops at a wrong one. -/
theorem exact_monitor_script :
    stopped (performAll (checkdisk scripted) [.write 0 0 7, .read 0 0, .setsize 0 0, .read 0 0,
      .read 0 0] (init [7, 8, 7] "disk")) = some (corrupted "disk") ∧
    Exact scripted [7, 8, 7] "disk" [.write 0 0 7, .read 0 0, .setsize 0 0, .read 0 0,
      .read 0 0] := by
  constructor
  · decide +kernel
  · apply (exact_monitor _ Wtclockdisk.Flaky.store [7, 8, 7] ⟨fun _ _ => 0, [true]⟩ "disk" _).1
    rintro _ _ _ _ r _ hw
    cases hw
    exact .inl rfl

end Egos.Disk.Checkdisk
