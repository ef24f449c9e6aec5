import Egos.Disk.Buffering
import Egos.Disk.Treedisk.Runs

/-!
# The stack of `tiny_test`: a cache over a treedisk over a ramdisk

The same calls are made on the stack and on a bare treedisk. Sizes and the failure
of reads past the end come from the treedisk below the cache, which does not know
of writes that are still buffered: the two disagree exactly where a call asks for a
size, or reads past the end below, while such a write is pending.
-/
namespace Egos.Disk.Stack

open Egos.Lib Egos.Disk.Clockdisk

set_option autoImplicit false

variable {β σ : Type} {n : Nat}

inductive Call (β : Type) where
  | read (ino offset : Nat)
  | write (ino offset : Nat) (block : β)
  | getsize (ino : Nat)
  /-- `setsize(ino, 0)`. -/
  | truncate (ino : Nat)
  | sync (ino : Nat)

inductive Result (β : Type) where
  | block (block : Option β)
  | code (code : Int)
  deriving DecidableEq

namespace Call

def perform (bs : BlockStore β σ) : Call β → EStateM Stop σ (Result β)
  | .read ino offset => do
    let r ← bs.read ino offset
    pure (.block r)
  | .write ino offset block => do
    let r ← bs.write ino offset block
    pure (.code r)
  | .getsize ino => do
    let r ← bs.getsize ino
    pure (.code r)
  | .truncate ino => do
    let r ← bs.setsize ino 0
    pure (.code r)
  | .sync ino => do
    let r ← bs.sync ino
    pure (.code r)

/-- The files after the call. -/
def apply (blank : β) (files : Files β) : Call β → Files β
  | .write ino offset block => writeFile files ino offset block
  | .truncate ino => Function.update files ino (.empty blank)
  | _ => files

/-- What the call returns on these files. -/
def result (files : Files β) : Call β → Result β
  | .read ino offset => .block ((files ino).read offset)
  | .write _ _ _ => .code 0
  | .getsize ino => .code (toInt (files ino).size)
  | .truncate ino => .code (toInt (files ino).size)
  | .sync _ => .code 0

/-- The inode exists; block numbers are 32-bit words. -/
def Proper (ninodes : Nat) : Call β → Prop
  | .read ino offset => ino < ninodes ∧ offset < 2 ^ 32
  | .write ino offset _ => ino < ninodes ∧ offset < 2 ^ 32
  | .getsize ino => ino < ninodes
  | .truncate ino => ino < ninodes
  | .sync _ => True

/-- The cache hides nothing that the call asks for: no pending write lies past the end
below where the size matters, and the size of a written file is a 32-bit word. -/
def Served (slots : Fin n → Slot β) (size : Nat → Nat) : Call β → Prop
  | .read ino offset => offset < size ino ∨ (∃ i, (slots i).Holds ino offset) ∨
      ∀ i, Pending (slots i) ino → (slots i).offset < offset
  | .write _ offset _ => offset + 1 < 2 ^ 32
  | .getsize ino => ∀ i, Pending (slots i) ino → (slots i).offset < size ino
  | .truncate ino => ∀ i, Pending (slots i) ino → (slots i).offset < size ino
  | .sync _ => True

/-- The call does not return. -/
def Endless (gs : GrowingStore β σ) (files : Files β) : Call β → Prop
  | .truncate ino => gs.Endless (files ino).size
  | _ => False

end Call

/-- A cache over a growing store that holds `files` for its user. -/
structure Tracks (gs : GrowingStore β σ) (files : Files β) (cs : State β σ n) (low : Files β) :
    Prop where
  good : gs.Good cs.below low
  buffers : Buffers gs.ninodes cs.slots low files

section Cache

variable {gs : GrowingStore β σ} {files low : Files β} {cs : State β σ n}

theorem outcome_cacheUpdate {ino offset : Nat} (block : β) (dirty : Bool)
    (hino : ino < gs.ninodes) (hoff : offset + 1 < 2 ^ 32) (rounds : Nat)
    (h : Tracks gs files cs low) (hnew : ∀ j, ¬(cs.slots j).Holds ino offset)
    (hd : dirty = false → block = (low ino).data offset ∧ offset < (low ino).size)
    (hlt : (newSlots cs).card < rounds) :
    Outcome (cacheUpdate gs.toBlockStore ino offset block dirty rounds)
      (fun _ cs' => ∃ low', Tracks gs (writeFile files ino offset block) cs' low')
      (fun e _ => e = gs.outOfSpace) cs := by
  induction rounds generalizing cs with
  | zero => omega
  | succ rounds ih =>
    simp only [cacheUpdate, Outcome.bind_iff, Outcome.get_iff]
    split
    · rw [Outcome.bind_iff]
      unfold writeBack
      split
      · rename_i hdirty
        -- the victim is written back and then clean
        obtain ⟨hp, ho⟩ := h.buffers.proper cs.clockHand hdirty.1
        have hkey : ¬(ino = (cs.slots cs.clockHand).ino ∧
            offset = (cs.slots cs.clockHand).offset) :=
          fun he => hnew cs.clockHand ⟨hdirty.1, he.1.symm, he.2.symm⟩
        rw [Outcome.bind_iff]
        refine outcome_onPart ((gs.outcome_write h.good hp ho _).post ?_)
        rintro _ s ⟨-, hg⟩
        rw [Outcome.pure_iff, Outcome.modify_iff]
        have hflush := h.buffers.flush hdirty.1
        have hplace := hflush.place (i := cs.clockHand) ⟨.new, dirty, ino, offset, block⟩
          (by simp [Slot.Live]) ⟨hino, hoff⟩ (by simp) ?_ ?_
        · rw [Function.update_idem] at hplace
          exact ⟨_, hg, hplace⟩
        · intro j hj
          rw [Function.update_of_ne hj]
          exact hnew j
        · intro hc
          rw [writeFile_data, if_neg hkey, lt_writeFile_size]
          exact ⟨(hd hc).1, .inl (hd hc).2⟩
      · rename_i hclean
        rw [Outcome.pure_iff, Outcome.modify_iff]
        refine ⟨low, h.good, h.buffers.place ⟨.new, dirty, ino, offset, block⟩
          (by simp [Slot.Live]) ⟨hino, hoff⟩ ?_ (fun j _ => hnew j) hd⟩
        exact fun hl hdirty => absurd ⟨hl, hdirty⟩ hclean
    · rename_i hstatus
      have hnewst : (cs.slots cs.clockHand).status = .new := by simpa using hstatus
      have hl : (cs.slots cs.clockHand).Live := by simp [Slot.Live, hnewst]
      rw [Outcome.bind_iff, Outcome.modify_iff]
      refine ih ⟨h.good, h.buffers.age hl (by decide)⟩ ?_ ?_
      · intro j hj
        refine hnew j ?_
        simp only [State.setSlot] at hj
        by_cases hji : j = cs.clockHand
        · rw [hji, Function.update_self] at hj
          exact hji ▸ ⟨hl, hj.2⟩
        · rwa [Function.update_of_ne hji] at hj
      · exact (newSlots_age hnewst (next cs.clockHand)).trans_le (Nat.le_of_lt_succ hlt)

/-- A read returns the block of the user's file, unless it asks for a hole between the
end below and a pending write. -/
theorem outcome_read (h : Tracks gs files cs low) {ino : Nat} (hino : ino < gs.ninodes)
    (offset : Nat) :
    Outcome (Clockdisk.read gs.toBlockStore ino offset)
      (fun r cs' => ((offset < (low ino).size ∨ (∃ i, (cs.slots i).Holds ino offset) ∨
          ∀ i, Pending (cs.slots i) ino → (cs.slots i).offset < offset) →
        r = (files ino).read offset) ∧ ∃ low', Tracks gs files cs' low')
      (fun e _ => e = gs.outOfSpace) cs := by
  have hsize := gs.size_lt h.good hino
  simp only [Clockdisk.read, Outcome.bind_iff, Outcome.get_iff]
  cases hl : lookup cs ino offset with
  | some i =>
    obtain ⟨hlive, rfl, rfl⟩ := lookup_some hl
    simp only [Outcome.bind_iff, Outcome.modify_iff, Outcome.pure_iff]
    refine ⟨fun _ => ?_, low, h.good, h.buffers.age hlive (by decide)⟩
    unfold SparseFile.read
    rw [if_pos (h.buffers.offset_lt hlive), h.buffers.cached i hlive]
  | none =>
    have hnew := lookup_none hl
    simp only [Outcome.bind_iff]
    refine outcome_onPart ((gs.outcome_read h.good hino offset).mono ?_ (fun _ _ he => he.elim))
    rintro _ s ⟨rfl, hg⟩
    by_cases hlt : offset < (low ino).size
    · have hread : (low ino).read offset = some ((low ino).data offset) := if_pos hlt
      have habs := h.buffers.absent ino offset hnew
      have hfile : offset < (files ino).size := (h.buffers.size ino offset).mpr (.inl hlt)
      rw [hread]
      dsimp only
      rw [Outcome.bind_iff]
      have h₁ : Tracks gs files { cs with below := s } low := ⟨hg, h.buffers⟩
      have hupdate := outcome_cacheUpdate ((low ino).data offset) false hino
        (show offset + 1 < 2 ^ 32 by omega) (n + 1) h₁ hnew (fun _ => ⟨rfl, hlt⟩) (newSlots_lt _)
      refine hupdate.post ?_
      rintro _ cs' ⟨low', h'⟩
      rw [writeFile_same habs.symm hfile] at h'
      refine ⟨fun _ => ?_, low', h'⟩
      unfold SparseFile.read
      rw [if_pos hfile, habs]
    · have hread : (low ino).read offset = none := if_neg hlt
      rw [hread]
      refine ⟨fun hs => ?_, low, hg, h.buffers⟩
      unfold SparseFile.read
      rw [if_neg]
      rw [h.buffers.size]
      rintro (hlow | ⟨i, hi, hle⟩)
      · exact hlt hlow
      · rcases hs with hs | ⟨j, hj⟩ | hs
        · exact hlt hs
        · exact hnew j hj
        · have hb := hs i hi
          omega

theorem outcome_write (h : Tracks gs files cs low) {ino offset : Nat} (hino : ino < gs.ninodes)
    (hoff : offset + 1 < 2 ^ 32) (block : β) :
    Outcome (Clockdisk.write gs.toBlockStore ino offset block)
      (fun r cs' => r = 0 ∧ ∃ low', Tracks gs (writeFile files ino offset block) cs' low')
      (fun e _ => e = gs.outOfSpace) cs := by
  simp only [Clockdisk.write, Outcome.bind_iff, Outcome.get_iff]
  cases hl : lookup cs ino offset with
  | some i =>
    obtain ⟨hlive, rfl, rfl⟩ := lookup_some hl
    simp only [Outcome.bind_iff, Outcome.modify_iff, Outcome.pure_iff]
    refine ⟨trivial, low, h.good, h.buffers.place
      { cs.slots i with block := block, status := .new, dirty := true } (by simp [Slot.Live])
      ⟨hino, hoff⟩ (fun _ _ => ⟨hlive, rfl, rfl⟩) ?_ (by simp)⟩
    exact fun j hj hh => hj (h.buffers.unique i j hlive hh).symm
  | none =>
    simp only [Outcome.bind_iff]
    refine (outcome_cacheUpdate block true hino hoff (n + 1) h (lookup_none hl) (by simp)
      (newSlots_lt _)).post ?_
    exact fun _ cs' h' => ⟨rfl, h'⟩

theorem outcome_sync (h : Tracks gs files cs low) (ino : Nat) :
    Outcome (Clockdisk.sync gs.toBlockStore ino)
      (fun r cs' => r = 0 ∧ ∃ low', Tracks gs files cs' low')
      (fun e _ => e = gs.outOfSpace) cs := by
  unfold Clockdisk.sync
  rw [Outcome.bind_iff]
  have hloop := Outcome.forM (E := fun e _ => e = gs.outOfSpace) (f := syncSlot gs.toBlockStore ino)
    (l := List.finRange n) (s := cs) (fun _ cs' => ∃ low', Tracks gs files cs' low') ⟨low, h⟩ ?_
  · refine hloop.post ?_
    rintro _ cs' ⟨low', h'⟩
    refine outcome_onPart ((gs.outcome_sync h'.good ino).mono ?_ (fun _ _ he => he.elim))
    rintro r s ⟨rfl, hg⟩
    exact ⟨rfl, low', hg, h'.buffers⟩
  · rintro done i rest - cs' ⟨low', h'⟩
    simp only [syncSlot, Outcome.bind_iff, Outcome.get_iff]
    split
    · rename_i hw
      obtain ⟨hp, ho⟩ := h'.buffers.proper i hw.1
      rw [Outcome.bind_iff]
      refine outcome_onPart ((gs.outcome_write h'.good hp ho _).post ?_)
      rintro r s ⟨-, hg⟩
      rw [Outcome.modify_iff]
      exact ⟨_, hg, h'.buffers.flush hw.1⟩
    · exact ⟨low', h'⟩

/-- A truncation answers with the size below and empties the file. -/
theorem outcome_truncate (h : Tracks gs files cs low) {ino : Nat} (hino : ino < gs.ninodes) :
    Outcome (Clockdisk.setsize gs.toBlockStore ino 0)
      (fun r cs' => r = toInt (low ino).size ∧ ¬ gs.Endless (low ino).size ∧
        ∃ low', Tracks gs (Function.update files ino (.empty gs.blank)) cs' low')
      (fun e _ => e = .diverge ∧ gs.Endless (low ino).size) cs := by
  unfold Clockdisk.setsize
  rw [Outcome.bind_iff, Outcome.modify_iff]
  refine outcome_onPart ((gs.outcome_truncate (show gs.Good (dropSlots cs ino 0).below low from
    h.good) hino).mono ?_ (fun _ _ he => he))
  rintro r s ⟨rfl, hends, hg⟩
  exact ⟨rfl, hends, _, hg, h.buffers.truncate cs rfl ino gs.blank⟩

theorem outcome_getsize (h : Tracks gs files cs low) {ino : Nat} (hino : ino < gs.ninodes)
    (hs : ∀ i, Pending (cs.slots i) ino → (cs.slots i).offset < (low ino).size) :
    Outcome (Clockdisk.getsize gs.toBlockStore ino)
      (fun r cs' => r = toInt (files ino).size ∧ ∃ low', Tracks gs files cs' low')
      (fun _ _ => False) cs := by
  rw [h.buffers.size_eq hs]
  refine outcome_onPart ((gs.outcome_getsize h.good hino).post ?_)
  rintro r s ⟨rfl, hg⟩
  exact ⟨rfl, low, hg, h.buffers⟩

/-- One call on the stack returns what the call returns on the user's files. -/
theorem outcome_stack (h : Tracks gs files cs low) {call : Call β} (hp : call.Proper gs.ninodes)
    (hs : call.Served cs.slots (gs.size cs.below)) :
    Outcome (call.perform (clockdisk gs.toBlockStore))
      (fun r cs' => r = call.result files ∧ ¬ call.Endless gs files ∧
        ∃ low', Tracks gs (call.apply gs.blank files) cs' low')
      (fun e _ => e = gs.outOfSpace ∨ (e = .diverge ∧ call.Endless gs files)) cs := by
  cases call with
  | read ino offset =>
    obtain ⟨hino, -⟩ := hp
    simp only [Call.Served, gs.size_eq h.good hino] at hs
    rw [Call.perform, Outcome.bind_iff]
    refine (outcome_read h hino offset).mono ?_ (fun _ _ he => .inl he)
    rintro r cs' ⟨hr, h'⟩
    exact ⟨congrArg _ (hr hs), id, h'⟩
  | write ino offset block =>
    rw [Call.perform, Outcome.bind_iff]
    refine (outcome_write h hp.1 hs block).mono ?_ (fun _ _ he => .inl he)
    rintro r cs' ⟨rfl, h'⟩
    exact ⟨rfl, id, h'⟩
  | getsize ino =>
    simp only [Call.Served, gs.size_eq h.good hp] at hs
    rw [Call.perform, Outcome.bind_iff]
    refine (outcome_getsize h hp hs).mono ?_ (fun _ _ he => he.elim)
    rintro r cs' ⟨rfl, h'⟩
    exact ⟨rfl, id, h'⟩
  | truncate ino =>
    simp only [Call.Served, gs.size_eq h.good hp] at hs
    rw [Call.perform, Outcome.bind_iff]
    have htrunc := outcome_truncate h hp
    rw [← h.buffers.size_eq hs] at htrunc
    refine htrunc.mono ?_ (fun _ _ he => .inr he)
    rintro r cs' ⟨rfl, hends, h'⟩
    exact ⟨rfl, hends, h'⟩
  | sync ino =>
    rw [Call.perform, Outcome.bind_iff]
    refine (outcome_sync h ino).mono ?_ (fun _ _ he => .inl he)
    rintro r cs' ⟨rfl, h'⟩
    exact ⟨rfl, id, h'⟩

end Cache

theorem outcome_bare {gs : GrowingStore β σ} {files : Files β} {s : σ} (h : gs.Good s files)
    {call : Call β} (hp : call.Proper gs.ninodes)
    (hw : ∀ ino offset block, call = .write ino offset block → offset + 1 < 2 ^ 32) :
    Outcome (call.perform gs.toBlockStore)
      (fun r s' => r = call.result files ∧ ¬ call.Endless gs files ∧
        gs.Good s' (call.apply gs.blank files))
      (fun e _ => e = gs.outOfSpace ∨ (e = .diverge ∧ call.Endless gs files)) s := by
  cases call with
  | read ino offset =>
    rw [Call.perform, Outcome.bind_iff]
    refine (gs.outcome_read h hp.1 offset).mono ?_ (fun _ _ he => he.elim)
    rintro r s' ⟨rfl, h'⟩
    exact ⟨rfl, id, h'⟩
  | write ino offset block =>
    rw [Call.perform, Outcome.bind_iff]
    refine (gs.outcome_write h hp.1 (hw ino offset block rfl) block).mono ?_ (fun _ _ he => .inl he)
    rintro r s' ⟨rfl, h'⟩
    exact ⟨rfl, id, h'⟩
  | getsize ino =>
    rw [Call.perform, Outcome.bind_iff]
    refine (gs.outcome_getsize h hp).mono ?_ (fun _ _ he => he.elim)
    rintro r s' ⟨rfl, h'⟩
    exact ⟨rfl, id, h'⟩
  | truncate ino =>
    rw [Call.perform, Outcome.bind_iff]
    refine (gs.outcome_truncate h hp).mono ?_ (fun _ _ he => .inr he)
    rintro r s' ⟨rfl, hends, h'⟩
    exact ⟨rfl, hends, h'⟩
  | sync ino =>
    rw [Call.perform, Outcome.bind_iff]
    refine (gs.outcome_sync h ino).mono ?_ (fun _ _ he => he.elim)
    rintro r s' ⟨rfl, h'⟩
    exact ⟨rfl, id, h'⟩

def run (bs : BlockStore β σ) : List (Call β) → EStateM Stop σ (List (Result β))
  | [] => pure []
  | call :: calls => do
    let r ← call.perform bs
    let rs ← run bs calls
    pure (r :: rs)

theorem run_cons_error {bs : BlockStore β σ} {call : Call β} {calls : List (Call β)} {s s' : σ}
    {e : Stop} (h : call.perform bs s = .error e s') : run bs (call :: calls) s = .error e s' := by
  simp [run, bind, EStateM.bind, h]

theorem run_cons_ok {bs : BlockStore β σ} {call : Call β} {calls : List (Call β)} {s s' : σ}
    {r : Result β} (h : call.perform bs s = .ok r s') :
    run bs (call :: calls) s = match run bs calls s' with
      | .ok rs t => .ok (r :: rs) t
      | .error e t => .error e t := by
  simp only [run, bind, EStateM.bind, h]
  cases run bs calls s' <;> rfl

/-- Every call of the run on the stack is served in the state it is made in. -/
def AllServed (bs : BlockStore β σ) (size : σ → Nat → Nat) :
    List (Call β) → State β σ n → Prop
  | [], _ => True
  | call :: calls, cs => call.Served cs.slots (size cs.below) ∧
      match call.perform (clockdisk bs) cs with
      | .ok _ cs' => AllServed bs size calls cs'
      | .error _ _ => True

instance (slot : Slot β) (ino offset : Nat) : Decidable (slot.Holds ino offset) :=
  inferInstanceAs (Decidable (_ ∧ _))

instance (slot : Slot β) (ino : Nat) : Decidable (Pending slot ino) :=
  inferInstanceAs (Decidable (_ ∧ _))

instance (slots : Fin n → Slot β) (size : Nat → Nat) : (call : Call β) →
    Decidable (call.Served slots size)
  | .read ino offset => inferInstanceAs (Decidable (offset < size ino ∨
      (∃ i, (slots i).Holds ino offset) ∨ ∀ i, Pending (slots i) ino → (slots i).offset < offset))
  | .write _ offset _ => inferInstanceAs (Decidable (offset + 1 < 2 ^ 32))
  | .getsize ino => inferInstanceAs (Decidable (∀ i, Pending (slots i) ino →
      (slots i).offset < size ino))
  | .truncate ino => inferInstanceAs (Decidable (∀ i, Pending (slots i) ino →
      (slots i).offset < size ino))
  | .sync _ => .isTrue trivial

instance decidableAllServed (bs : BlockStore β σ) (size : σ → Nat → Nat) :
    (calls : List (Call β)) → (cs : State β σ n) → Decidable (AllServed bs size calls cs)
  | [], _ => .isTrue trivial
  | call :: calls, cs =>
    have : Decidable (match call.perform (clockdisk bs) cs with
        | .ok _ cs' => AllServed bs size calls cs'
        | .error _ _ => True) :=
      match call.perform (clockdisk bs) cs with
      | .ok _ cs' => decidableAllServed bs size calls cs'
      | .error _ _ => .isTrue trivial
    inferInstanceAs (Decidable (_ ∧ _))

/-- How the runs of the stack and of the bare store can end: with the same results,
with one of them out of space, or both in the same call that does not return. -/
inductive Agree {τ : Type} (outOfSpace : Stop) :
    EStateM.Result Stop τ (List (Result β)) → EStateM.Result Stop σ (List (Result β)) → Prop
  | same (rs : List (Result β)) (t : τ) (s : σ) : Agree outOfSpace (.ok rs t) (.ok rs s)
  | stackFull (t : τ) (r) : Agree outOfSpace (.error outOfSpace t) r
  | bareFull (r) (s : σ) : Agree outOfSpace r (.error outOfSpace s)
  | endless (t : τ) (s : σ) : Agree outOfSpace (.error .diverge t) (.error .diverge s)

theorem run_agree {gs : GrowingStore β σ} {calls : List (Call β)}
    (hp : ∀ call ∈ calls, call.Proper gs.ninodes) {files low : Files β} {cs : State β σ n} {s : σ}
    (h : Tracks gs files cs low) (hb : gs.Good s files)
    (hs : AllServed gs.toBlockStore gs.size calls cs) :
    Agree gs.outOfSpace (run (clockdisk gs.toBlockStore) calls cs) (run gs.toBlockStore calls s) := by
  induction calls generalizing files low cs s with
  | nil => exact .same [] cs s
  | cons call calls ih =>
    have hpc := hp call (by simp)
    have hw : ∀ ino offset block, call = .write ino offset block → offset + 1 < 2 ^ 32 := by
      rintro ino offset block rfl
      exact hs.1
    have hstack := outcome_stack h hpc hs.1
    have hbare := outcome_bare hb hpc hw
    cases hc : call.perform (clockdisk gs.toBlockStore) cs with
    | error e cs' =>
      rw [run_cons_error hc]
      rcases hstack.error hc with rfl | ⟨rfl, hends⟩
      · exact .stackFull _ _
      · cases hm : call.perform gs.toBlockStore s with
        | ok r s' => exact absurd hends (hbare.ok hm).2.1
        | error e s' =>
          rw [run_cons_error hm]
          rcases hbare.error hm with rfl | ⟨rfl, -⟩
          · exact .bareFull _ _
          · exact .endless _ _
    | ok r cs' =>
      obtain ⟨hr, hends, low', h'⟩ := hstack.ok hc
      cases hm : call.perform gs.toBlockStore s with
      | error e s' =>
        rw [run_cons_error hm]
        rcases hbare.error hm with rfl | ⟨-, hend⟩
        · exact .bareFull _ _
        · exact absurd hend hends
      | ok r' s' =>
        obtain ⟨hr', -, hb'⟩ := hbare.ok hm
        obtain rfl : r = r' := hr.trans hr'.symm
        have hserved := hs.2
        rw [hc] at hserved
        have hrest := ih (fun c hcm => hp c (List.mem_cons_of_mem _ hcm)) h' hb' hserved
        rw [run_cons_ok hc, run_cons_ok hm]
        generalize run (clockdisk gs.toBlockStore) calls cs' = left at hrest ⊢
        generalize run gs.toBlockStore calls s' = right at hrest ⊢
        cases hrest with
        | same rs t u => exact .same _ _ _
        | stackFull t _ => exact .stackFull _ _
        | bareFull _ u => exact .bareFull _ _
        | endless t u => exact .endless _ _

section Treedisk

open Treedisk

variable {g : Geometry}

/-- A treedisk over a fixed store whose `sync` returns 0 is a store of sparse files. -/
def treediskStore (fs : FixedStore (Block g) σ) (belowIno nib : Nat)
    (hsync : ∀ {s}, fs.Good s → ∀ ino, ∃ s', fs.sync ino s = .ok 0 s' ∧ fs.Good s' ∧
      fs.view s' = fs.view s) : GrowingStore (Block g) σ where
  toBlockStore := treedisk fs.toBlockStore belowIno
  ninodes := nib * g.inodesPerBlock
  blank := Block.zero
  outOfSpace := full
  Endless := Treedisk.Endless g
  Good := fun s files => fs.Good s ∧ Valid (fs.sizes belowIno) (fs.view s belowIno) ∧
    Image.nInodeblocks (fs.view s belowIno) = nib ∧ Represents (fs.view s belowIno) files
  size := fun s ino => Image.nblocks (fs.view s belowIno) ino
  size_eq := by
    rintro s files ⟨-, -, rfl, hr⟩ ino hino
    exact hr.size ino hino
  size_lt := by
    rintro s files ⟨-, hv, rfl, hr⟩ ino hino
    rw [← hr.size ino hino]
    exact hv.size_lt ino hino
  outcome_getsize := by
    rintro s files ⟨hg, hv, rfl, hr⟩ ino hino
    refine (Treedisk.outcome_getsize ⟨hg, rfl⟩ hv.sound hr hino).post ?_
    rintro r s' ⟨rfl, h'⟩
    rw [h'.view]
    exact ⟨rfl, h'.good, hv, rfl, hr⟩
  outcome_read := by
    rintro s files ⟨hg, hv, rfl, hr⟩ ino hino offset
    refine (Treedisk.outcome_read ⟨hg, rfl⟩ hv.sound hr hino offset).post ?_
    rintro r s' ⟨rfl, h'⟩
    rw [h'.view]
    exact ⟨rfl, h'.good, hv, rfl, hr⟩
  outcome_write := by
    rintro s files ⟨hg, hv, rfl, hr⟩ ino hino offset hoff block
    refine (Treedisk.outcome_write ⟨hg, rfl⟩ hv hr hino hoff block).post ?_
    rintro r s' ⟨rfl, D', h', hv', hn, hr'⟩
    rw [h'.view]
    exact ⟨rfl, h'.good, hv', hn, hr'⟩
  outcome_truncate := by
    rintro s files ⟨hg, hv, rfl, hr⟩ ino hino
    refine (Treedisk.outcome_truncate ⟨hg, rfl⟩ hv hr hino).post ?_
    rintro r s' ⟨rfl, hends, D', h', hv', hn, -, hr'⟩
    rw [h'.view]
    exact ⟨rfl, hends, h'.good, hv', hn, hr'⟩
  outcome_sync := by
    rintro s files ⟨hg, hv, rfl, hr⟩ ino
    obtain ⟨s', he, hg', hview⟩ := hsync hg belowIno
    refine .of_ok he ⟨rfl, hg', ?_⟩
    rw [hview]
    exact ⟨hv, rfl, hr⟩

/-- A treedisk on a ramdisk of this many blocks. -/
def ramTreedisk (g : Geometry) (size : Nat) (hsize : size < 2 ^ 32) (nib : Nat) :
    GrowingStore (Block g) (Ramdisk.State (Block g)) :=
  treediskStore (Ramdisk.fixed (Block g) size hsize) 0 nib (fun hg _ => ⟨_, rfl, hg, rfl⟩)

/-- **Where the stack agrees with a bare treedisk.** Over a created file system on a
ramdisk, a cache with at least one slot gives the results of the bare treedisk in
every run whose calls are all served. -/
theorem stack_agrees (rs : Ramdisk.State (Block g)) {s₁ : Ramdisk.State (Block g)}
    (hsize : rs.nblocks < 2 ^ 32) (hpos : 0 < rs.nblocks) (hz : rs.blocks 0 = Block.zero)
    {ninodes : Nat} (hni : ninodes < 2 ^ 32)
    (hcreate : create Ramdisk.ramdisk 0 ninodes rs = .ok 0 s₁) (blocks : Fin (n + 1) → Block g)
    (calls : List (Call (Block g)))
    (hp : ∀ call ∈ calls, call.Proper (inodeBlocks g ninodes * g.inodesPerBlock))
    (hserved : AllServed (treedisk Ramdisk.ramdisk 0) (fun s ino => Image.nblocks s.blocks ino)
      calls (init s₁ blocks)) :
    Agree full (run (clockdisk (treedisk Ramdisk.ramdisk 0)) calls (init s₁ blocks))
      (run (treedisk Ramdisk.ramdisk 0) calls s₁) := by
  have hmir := create_mirrors (Ramdisk.fixed (Block g) rs.nblocks hsize) 0 rfl
    (by simpa [Ramdisk.fixed] using hpos) hz hni hcreate
  have hgood : (ramTreedisk g rs.nblocks hsize (inodeBlocks g ninodes)).Good s₁ (filesAfter []) :=
    ⟨hmir.good, hmir.valid, hmir.inodeblocks, hmir.represents⟩
  have htracks : Tracks (ramTreedisk g rs.nblocks hsize (inodeBlocks g ninodes)) (filesAfter [])
      (init s₁ blocks) (filesAfter []) := ⟨hgood, buffers_init _ _ _ _⟩
  exact run_agree hp htracks hgood hserved

/-- The disk of `tiny_test`: 15 blocks, with a file system for 6 inodes. -/
def tinyTestDisk : EStateM.Result Stop (Ramdisk.State (Block .tiny)) Int :=
  create Ramdisk.ramdisk 0 6 ⟨fun _ => Block.zero, 15⟩

/-- Two slots, as in `tiny_test`: a write is followed by a read and, once it has been
synced, by a question for the size. -/
theorem stack_agrees_tiny :
    Agree full
      (run (clockdisk (treedisk Ramdisk.ramdisk 0))
        [.write 0 3 (Block.zero.setRef 0 7), .read 0 3, .sync 0, .getsize 0]
        (init (n := 1) (final tinyTestDisk) fun _ => Block.zero))
      (run (treedisk Ramdisk.ramdisk 0)
        [.write 0 3 (Block.zero.setRef 0 7), .read 0 3, .sync 0, .getsize 0]
        (final tinyTestDisk)) :=
  stack_agrees ⟨fun _ => Block.zero, 15⟩ (by decide) (by decide) rfl
    (show 6 < 2 ^ 32 by decide) (eq_ok_of_returned (by decide +kernel)) _ _
    (by simp [Call.Proper]; decide) (by decide +kernel)

/-- The size of a file whose first block is still in the cache. -/
theorem stack_disagrees :
    returned tinyTestDisk = some 0 ∧
    returned (run (clockdisk (treedisk Ramdisk.ramdisk 0))
        [.write 0 0 (Block.zero.setRef 0 7), .getsize 0]
        (init (n := 1) (final tinyTestDisk) fun _ => Block.zero)) = some [.code 0, .code 0] ∧
      returned (run (treedisk Ramdisk.ramdisk 0) [.write 0 0 (Block.zero.setRef 0 7), .getsize 0]
        (final tinyTestDisk)) = some [.code 0, .code 1] := by
  decide +kernel

end Treedisk

end Egos.Disk.Stack
