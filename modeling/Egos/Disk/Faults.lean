import Egos.Disk.Transparency

/-!
# The write-back cache over a failing disk

Reads and writes of the store below may fail at any time. `clockdisk_write`
acknowledges a block as soon as it is in a slot; the write-back follows in a later
call, and `cache_update` and `clockdisk_sync` do not look at its result. An
acknowledged block is safe exactly as long as no write-back fails, and as long as no
rejected `setsize` finds a dirty slot to drop.
-/
namespace Egos.Disk.Faults

open Egos.Lib Egos.Disk.Clockdisk

set_option autoImplicit false

variable {β σ : Type} {n : Nat}

/-- A store whose calls may fail. A failed call leaves the blocks as they are; a
`setsize` that succeeds may change the blocks it cuts off. -/
structure FaultyStore (β σ : Type) extends BlockStore β σ where
  view : σ → Nat → Nat → β
  outcome_getninodes : ∀ s, Outcome getninodes (fun _ s' => view s' = view s) (fun _ _ => False) s
  outcome_getsize : ∀ s ino,
    Outcome (getsize ino) (fun _ s' => view s' = view s) (fun _ _ => False) s
  outcome_setsize : ∀ s ino nblocks, Outcome (setsize ino nblocks)
    (fun r s' => (r = -1 ∧ view s' = view s) ∨ (r ≠ -1 ∧ ∀ i offset, ¬(i = ino ∧ nblocks ≤ offset) →
      view s' i offset = view s i offset)) (fun _ _ => False) s
  outcome_read : ∀ s ino offset, Outcome (read ino offset)
    (fun r s' => (r = none ∨ r = some (view s ino offset)) ∧ view s' = view s)
    (fun _ _ => False) s
  outcome_write : ∀ s ino offset block, Outcome (write ino offset block)
    (fun r s' => (r = 0 ∧ view s' = setBlock (view s) ino offset block) ∨
      (r = -1 ∧ view s' = view s)) (fun _ _ => False) s
  outcome_sync : ∀ s ino, Outcome (sync ino) (fun _ s' => view s' = view s) (fun _ _ => False) s

/-- The store that stops the program at the first write that fails. -/
def strict (bs : BlockStore β σ) : BlockStore β σ :=
  { bs with
    write := fun ino offset block => do
      let r ← bs.write ino offset block
      if r = 0 then pure r else throw (.panic "write failed") }

section Strict

variable (bs : BlockStore β σ)

theorem strict_write (ino offset : Nat) (block : β) :
    Refines ((strict bs).write ino offset block) (bs.write ino offset block) := by
  intro s r s' h
  simp only [strict, bind, EStateM.bind] at h
  cases hw : bs.write ino offset block s with
  | ok r₁ s₁ =>
    rw [hw] at h
    dsimp only at h
    split at h
    · exact h
    · cases h
  | error e s₁ =>
    rw [hw] at h
    cases h

theorem strict_writeBack (slot : Slot β) :
    Refines (writeBack (n := n) (strict bs) slot) (writeBack bs slot) := by
  unfold writeBack
  split
  · exact .bind (.onPart (strict_write bs _ _ _)) fun _ => .refl _
  · exact .refl _

theorem strict_cacheUpdate (ino offset : Nat) (block : β) (dirty : Bool) (rounds : Nat) :
    Refines (cacheUpdate (n := n) (strict bs) ino offset block dirty rounds)
      (cacheUpdate bs ino offset block dirty rounds) := by
  induction rounds with
  | zero => exact .refl _
  | succ rounds ih =>
    refine .bind (.refl _) fun cs => ?_
    dsimp only
    split
    · exact .bind (strict_writeBack bs _) fun _ => .refl _
    · exact .bind (.refl _) fun _ => ih

theorem strict_read (ino offset : Nat) :
    Refines (Clockdisk.read (n := n) (strict bs) ino offset) (Clockdisk.read bs ino offset) := by
  refine .bind (.refl _) fun cs => ?_
  split
  · exact .refl _
  · refine .bind (.refl _) fun r => ?_
    cases r with
    | none => exact .refl _
    | some block => exact .bind (strict_cacheUpdate bs _ _ _ _ _) fun _ => .refl _

theorem strict_clockdisk_write (ino offset : Nat) (block : β) :
    Refines (Clockdisk.write (n := n) (strict bs) ino offset block)
      (Clockdisk.write bs ino offset block) := by
  refine .bind (.refl _) fun cs => ?_
  split
  · exact .refl _
  · exact .bind (strict_cacheUpdate bs _ _ _ _ _) fun _ => .refl _

theorem strict_sync (ino : Nat) :
    Refines (Clockdisk.sync (n := n) (strict bs) ino) (Clockdisk.sync bs ino) := by
  refine .bind (.forM (fun i => ?_) _) fun _ => .refl _
  refine .bind (.refl _) fun cs => ?_
  split
  · exact .bind (.onPart (strict_write bs _ _ _)) fun _ => .refl _
  · exact .refl _

end Strict

/-- Run on a store below that stops at its first failed write, the call returns: none
of its write-backs fails. A `setsize` writes nothing back; it must not be rejected
while a dirty slot lies past the new size. -/
def Safe (bs : BlockStore β σ) (cs : State β σ n) : Request β → Prop
  | .setsize ino nblocks => returned (bs.setsize ino nblocks cs.below) = some (-1) →
      ∀ i, (cs.slots i).Live → (cs.slots i).dirty = true → (cs.slots i).ino = ino →
        (cs.slots i).offset < nblocks
  | call => (returned (call.perform (clockdisk (strict bs)) cs)).isSome

/-- Every call of the run is safe in the state it is made in. -/
def AllSafe (bs : BlockStore β σ) : List (Request β) → State β σ n → Prop
  | [], _ => True
  | call :: calls, cs => Safe bs cs call ∧
      match call.perform (clockdisk bs) cs with
      | .ok _ cs' => AllSafe bs calls cs'
      | .error _ _ => True

/-- The blocks whose write was acknowledged and that were neither overwritten nor
truncated since, after one more call with this answer. -/
def acknowledge (acked : Nat → Nat → Option β) : Request β → Answer β → Nat → Nat → Option β
  | .write ino offset block, .code r => if r = 0 then setBlock acked ino offset (some block) else acked
  | .setsize ino nblocks, .code r =>
    if r = -1 then acked else fun i offset => if i = ino ∧ nblocks ≤ offset then none else acked i offset
  | _, _ => acked

/-- The acknowledged blocks after a run. -/
def acknowledged (acked : Nat → Nat → Option β) : List (Request β) → List (Answer β) →
    Nat → Nat → Option β
  | call :: calls, answer :: answers => acknowledged (acknowledge acked call answer) calls answers
  | _, _ => acked

/-- With a store below that stops at failed writes, the cache is backed. -/
def strictBacking (fs : FaultyStore β σ) : Backing β σ where
  toBlockStore := strict fs.toBlockStore
  view := fs.view
  Good := fun _ => True
  Range := fun _ _ => True
  ReadFails := True
  WriteStops := True
  outcome_read := by
    intro s _ ino offset _
    refine (fs.outcome_read s ino offset).post ?_
    rintro r s' ⟨rfl | rfl, hv⟩
    · exact ⟨.inr ⟨rfl, trivial⟩, trivial, hv⟩
    · exact ⟨.inl rfl, trivial, hv⟩
  outcome_write := by
    intro s _ ino offset _ block
    refine Outcome.seq ((fs.outcome_write s ino offset block).mono (fun _ _ h => h)
      (fun _ _ h => h.elim)) ?_
    rintro r s' (⟨rfl, hv⟩ | ⟨rfl, -⟩)
    · exact ⟨trivial, hv⟩
    · exact trivial
  outcome_sync := fun {s} _ ino => (fs.outcome_sync s ino).post fun _ _ hv => ⟨trivial, hv⟩

section Returns

variable (fs : FaultyStore β σ)

theorem returns_writeBack (cs : State β σ n) (slot : Slot β) :
    Outcome (writeBack fs.toBlockStore slot) (fun _ cs' => cs'.slots = cs.slots)
      (fun _ _ => False) cs := by
  unfold writeBack
  split
  · rw [Outcome.bind_iff]
    exact outcome_onPart ((fs.outcome_write _ _ _ _).post fun _ _ _ => rfl)
  · exact rfl

theorem returns_cacheUpdate (ino offset : Nat) (block : β) (dirty : Bool) (rounds : Nat) :
    ∀ cs : State β σ n, (newSlots cs).card < rounds →
      Outcome (cacheUpdate fs.toBlockStore ino offset block dirty rounds) (fun _ _ => True)
        (fun _ _ => False) cs := by
  induction rounds with
  | zero => intro cs hlt; omega
  | succ rounds ih =>
    intro cs hlt
    simp only [cacheUpdate, Outcome.bind_iff, Outcome.get_iff]
    split
    · rw [Outcome.bind_iff]
      exact (returns_writeBack fs cs _).post fun _ _ _ => trivial
    · rename_i hstatus
      have hnewst : (cs.slots cs.clockHand).status = .new := by simpa using hstatus
      rw [Outcome.bind_iff, Outcome.modify_iff]
      exact ih _ ((newSlots_age hnewst (next cs.clockHand)).trans_le (Nat.le_of_lt_succ hlt))

theorem returns_perform (cs : State β σ n) (call : Request β) :
    ∃ answer cs', call.perform (clockdisk fs.toBlockStore) cs = .ok answer cs' := by
  suffices h : Outcome (call.perform (clockdisk fs.toBlockStore)) (fun _ _ => True)
      (fun _ _ => False) cs by
    obtain ⟨answer, cs', he, -⟩ := h.exists_ok
    exact ⟨answer, cs', he⟩
  cases call with
  | getninodes =>
    rw [Request.perform, Outcome.bind_iff]
    exact outcome_onPart ((fs.outcome_getninodes _).post fun _ _ _ => trivial)
  | getsize ino =>
    rw [Request.perform, Outcome.bind_iff]
    exact outcome_onPart ((fs.outcome_getsize _ _).post fun _ _ _ => trivial)
  | setsize ino nblocks =>
    rw [Request.perform, Outcome.bind_iff]
    change Outcome (Clockdisk.setsize fs.toBlockStore ino nblocks) _ _ cs
    rw [Clockdisk.setsize, Outcome.bind_iff, Outcome.modify_iff]
    exact outcome_onPart ((fs.outcome_setsize _ _ _).post fun _ _ _ => trivial)
  | read ino offset =>
    rw [Request.perform, Outcome.bind_iff]
    change Outcome (Clockdisk.read fs.toBlockStore ino offset) _ _ cs
    rw [Clockdisk.read, Outcome.bind_iff, Outcome.get_iff]
    cases lookup cs ino offset with
    | some i => exact trivial
    | none =>
      rw [Outcome.bind_iff]
      refine outcome_onPart ((fs.outcome_read _ _ _).post ?_)
      intro r s _
      cases r with
      | none => exact trivial
      | some block =>
        rw [Outcome.bind_iff]
        exact (returns_cacheUpdate fs ino offset block false (n + 1) _ (newSlots_lt _)).post
          fun _ _ _ => trivial
  | write ino offset block =>
    rw [Request.perform, Outcome.bind_iff]
    change Outcome (Clockdisk.write fs.toBlockStore ino offset block) _ _ cs
    rw [Clockdisk.write, Outcome.bind_iff, Outcome.get_iff]
    cases lookup cs ino offset with
    | some i => exact trivial
    | none =>
      rw [Outcome.bind_iff]
      exact (returns_cacheUpdate fs ino offset block true (n + 1) cs (newSlots_lt _)).post
        fun _ _ _ => trivial
  | sync ino =>
    rw [Request.perform, Outcome.bind_iff]
    refine Outcome.seq (Outcome.forM (fun _ _ => True) trivial ?_) ?_
    · intro done i rest _ cs' _
      simp only [syncSlot, Outcome.bind_iff, Outcome.get_iff]
      split
      · rw [Outcome.bind_iff]
        exact outcome_onPart ((fs.outcome_write _ _ _ _).post fun _ _ _ => trivial)
      · exact trivial
    · intro _ cs' _
      exact outcome_onPart ((fs.outcome_sync _ _).post fun _ _ _ => trivial)

end Returns

/-- Every acknowledged block is what the cache shows. -/
def Kept (fs : FaultyStore β σ) (cs : State β σ n) (acked : Nat → Nat → Option β) : Prop :=
  ∃ ref, Serves (strictBacking fs) cs ref ∧
    ∀ ino offset block, acked ino offset = some block → ref ino offset = block

section Steps

variable {fs : FaultyStore β σ} {cs cs' : State β σ n} {acked : Nat → Nat → Option β}

theorem kept_init (fs : FaultyStore β σ) (below : σ) (blocks : Fin (n + 1) → β) :
    Kept fs (init below blocks) fun _ _ => none := by
  refine ⟨fs.view below, ⟨trivial, fun _ _ => trivial, ?_⟩, by simp⟩
  exact ⟨fun _ _ hi _ => absurd rfl hi, fun _ hi _ => absurd rfl hi, fun _ hi => absurd rfl hi,
    fun _ _ _ => rfl⟩

theorem perform_strict {call : Request β} {answer : Answer β}
    (hne : ∀ ino nblocks, call ≠ .setsize ino nblocks)
    (h : call.perform (clockdisk fs.toBlockStore) cs = .ok answer cs')
    (hs : (returned (call.perform (clockdisk (strict fs.toBlockStore)) cs)).isSome) :
    call.perform (clockdisk (strict fs.toBlockStore)) cs = .ok answer cs' := by
  obtain ⟨answer', hr⟩ := Option.isSome_iff_exists.mp hs
  have he := eq_ok_of_returned hr
  have href : Refines (call.perform (clockdisk (n := n) (strict fs.toBlockStore)))
      (call.perform (clockdisk fs.toBlockStore)) := by
    unfold Request.perform
    cases call with
    | getninodes => exact .refl _
    | getsize ino => exact .refl _
    | setsize ino nblocks => exact absurd rfl (hne ino nblocks)
    | read ino offset => exact .bind (strict_read _ _ _) fun _ => .refl _
    | write ino offset block => exact .bind (strict_clockdisk_write _ _ _ _) fun _ => .refl _
    | sync ino => exact .bind (strict_sync _ _) fun _ => .refl _
  have hsame := href _ _ _ he
  rw [h] at hsame
  rw [he, hsame]

/-- A truncation that the store below accepts, or that drops clean slots only. -/
theorem setsize_kept (h : Kept fs cs acked) {ino nblocks : Nat}
    (hsafe : Safe fs.toBlockStore cs (.setsize ino nblocks)) :
    Outcome (Clockdisk.setsize fs.toBlockStore ino nblocks)
      (fun r cs' => Kept fs cs' (acknowledge acked (.setsize ino nblocks) (.code r)))
      (fun _ _ => False) cs := by
  obtain ⟨ref, hserves, hacked⟩ := h
  have hshows := hserves.shows
  have hout := fs.outcome_setsize cs.below ino nblocks
  rw [Clockdisk.setsize, Outcome.bind_iff, Outcome.modify_iff]
  refine outcome_onPart ?_
  change Outcome (fs.setsize ino nblocks) _ _ cs.below
  obtain ⟨r, s, he, hr⟩ := hout.exists_ok
  refine .of_ok he ?_
  simp only [acknowledge]
  rcases hr with ⟨rfl, hv⟩ | ⟨hne, hv⟩
  · -- rejected: what the dropped slots hold is below as well
    have hclean := hsafe (by rw [he]; rfl)
    refine ⟨ref, ⟨trivial, fun _ _ => trivial, ?_⟩, hacked⟩
    refine hshows.drop (fun i offset _ => ⟨congrFun (congrFun hv i) offset, rfl⟩) ?_
    intro offset hoff
    change fs.view s ino offset = _
    rw [hv]
    by_cases hc : ∃ i, (cs.slots i).Holds ino offset
    · obtain ⟨i, hl, rfl, rfl⟩ := hc
      have hd : (cs.slots i).dirty = false := by
        cases hd : (cs.slots i).dirty with
        | false => rfl
        | true =>
          have hlt := hclean i hl hd rfl
          omega
      exact (hshows.clean i hl hd).symm.trans (hshows.cached i hl)
    · exact hshows.absent ino offset (fun i hi => hc ⟨i, hi⟩)
  · rw [if_neg hne]
    refine ⟨fun i offset => if i = ino ∧ nblocks ≤ offset then fs.view s i offset
      else ref i offset, ⟨trivial, fun _ _ => trivial, ?_⟩, ?_⟩
    · refine hshows.drop (fun i offset hc => ⟨hv i offset hc, if_neg hc⟩) ?_
      intro offset hoff
      rw [if_pos ⟨rfl, hoff⟩]
      rfl
    · intro i offset block hb
      dsimp only at hb ⊢
      split at hb
      · cases hb
      · rename_i hc
        rw [if_neg hc]
        exact hacked i offset block hb

/-- The answer of a call made of one call below and a wrapper. -/
theorem perform_wrapped {α : Type} {m : EStateM Stop σ α} {wrap : α → Answer β}
    {answer : Answer β} {s s' : σ} (h : (m >>= fun r => pure (wrap r)) s = .ok answer s') :
    ∃ r, m s = .ok r s' ∧ answer = wrap r := by
  simp only [bind, EStateM.bind] at h
  cases hm : m s with
  | error e t =>
    rw [hm] at h
    cases h
  | ok r t =>
    rw [hm] at h
    cases h
    exact ⟨r, rfl, rfl⟩

/-- A safe call keeps the acknowledged blocks, and a sync of all inodes brings them
down to the store below. -/
theorem perform_kept (h : Kept fs cs acked) {call : Request β}
    (hsafe : Safe fs.toBlockStore cs call) {answer : Answer β}
    (hp : call.perform (clockdisk fs.toBlockStore) cs = .ok answer cs') :
    Kept fs cs' (acknowledge acked call answer) ∧ (call = .sync allInodes →
      ∀ ino offset block, acknowledge acked call answer ino offset = some block →
        fs.view cs'.below ino offset = block) := by
  obtain ⟨ref, hserves, hacked⟩ := id h
  cases call with
  | getninodes =>
    obtain ⟨r, hm, rfl⟩ := perform_wrapped hp
    have hout : Outcome (Clockdisk.getninodes fs.toBlockStore)
        (fun _ cs' => Serves (strictBacking fs) cs' ref) (fun _ _ => False) cs :=
      outcome_onPart ((fs.outcome_getninodes _).post fun _ _ hv => hserves.below trivial hv)
    exact ⟨⟨ref, hout.ok hm, hacked⟩, fun he => by cases he⟩
  | getsize ino =>
    obtain ⟨r, hm, rfl⟩ := perform_wrapped hp
    have hout : Outcome (Clockdisk.getsize fs.toBlockStore ino)
        (fun _ cs' => Serves (strictBacking fs) cs' ref) (fun _ _ => False) cs :=
      outcome_onPart ((fs.outcome_getsize _ _).post fun _ _ hv => hserves.below trivial hv)
    exact ⟨⟨ref, hout.ok hm, hacked⟩, fun he => by cases he⟩
  | setsize ino nblocks =>
    obtain ⟨r, hm, rfl⟩ := perform_wrapped hp
    exact ⟨(setsize_kept h hsafe).ok hm, fun he => by cases he⟩
  | read ino offset =>
    obtain ⟨r, hm, rfl⟩ := perform_wrapped (perform_strict (by simp) hp hsafe)
    have hout := (hserves.outcome_read (show (strictBacking fs).Range ino offset from trivial)).ok hm
    exact ⟨⟨ref, hout.2, hacked⟩, fun he => by cases he⟩
  | write ino offset block =>
    obtain ⟨r, hm, rfl⟩ := perform_wrapped (perform_strict (by simp) hp hsafe)
    obtain ⟨rfl, hout⟩ := (hserves.outcome_write
      (show (strictBacking fs).Range ino offset from trivial) block).ok hm
    refine ⟨⟨_, hout, ?_⟩, fun he => by cases he⟩
    intro i o b hb
    by_cases hc : i = ino ∧ o = offset
    · simp only [acknowledge, setBlock, hc, and_self, if_true, Option.some.injEq] at hb ⊢
      exact hb
    · rw [setBlock_other hc]
      simp only [acknowledge, if_true, setBlock, if_neg hc] at hb
      exact hacked i o b hb
  | sync ino =>
    obtain ⟨r, hm, rfl⟩ := perform_wrapped (perform_strict (by simp) hp hsafe)
    obtain ⟨hout, hsync⟩ := (hserves.outcome_sync ino).ok hm
    refine ⟨⟨ref, hout, hacked⟩, fun he i o b hb => ?_⟩
    cases he
    exact (hsync i (.inr rfl) o).trans (hacked i o b hb)

end Steps

/-- What a run of safe calls keeps, from any state that keeps `acked`. -/
theorem performAll_kept {fs : FaultyStore β σ} (calls : List (Request β)) :
    ∀ {cs : State β σ n} {acked : Nat → Nat → Option β}, Kept fs cs acked →
      AllSafe fs.toBlockStore calls cs →
      ∃ answers cs', performAll (clockdisk fs.toBlockStore) calls cs = .ok answers cs' ∧
        Kept fs cs' (acknowledged acked calls answers) ∧
        (calls.getLast? = some (.sync allInodes) → ∀ ino offset block,
          acknowledged acked calls answers ino offset = some block →
            fs.view cs'.below ino offset = block) := by
  induction calls with
  | nil =>
    intro cs acked h _
    exact ⟨[], cs, rfl, h, by simp⟩
  | cons call calls ih =>
    intro cs acked h hsafe
    obtain ⟨answer, cs₁, hp⟩ := returns_perform fs cs call
    obtain ⟨hcall, hrest⟩ := hsafe
    rw [hp] at hrest
    obtain ⟨h₁, hsync⟩ := perform_kept h hcall hp
    obtain ⟨answers, cs₂, hall, h₂, hlast⟩ := ih h₁ hrest
    refine ⟨answer :: answers, cs₂, ?_, h₂, fun hl => ?_⟩
    · simp [performAll, bind, EStateM.bind, hp, hall, pure, EStateM.pure]
    · cases calls with
      | nil =>
        simp only [performAll, pure, EStateM.pure, EStateM.Result.ok.injEq] at hall
        rw [List.getLast?_singleton] at hl
        obtain ⟨rfl, rfl⟩ := hall
        exact hsync (Option.some.inj hl)
      | cons call' calls' =>
        rw [List.getLast?_cons_cons] at hl
        exact hlast hl

theorem read_shown {fs : FaultyStore β σ} {cs : State β σ n} {ref : Nat → Nat → β}
    (h : Shows (fs.view cs.below) cs.slots ref) (ino offset : Nat) :
    Outcome (Clockdisk.read fs.toBlockStore ino offset)
      (fun r _ => r = some (ref ino offset) ∨ r = none) (fun _ _ => False) cs := by
  rw [Clockdisk.read, Outcome.bind_iff, Outcome.get_iff]
  cases hl : lookup cs ino offset with
  | some i =>
    obtain ⟨hlive, rfl, rfl⟩ := lookup_some hl
    exact .inl (congrArg some (h.cached i hlive))
  | none =>
    rw [Outcome.bind_iff]
    refine outcome_onPart ((fs.outcome_read _ _ _).post ?_)
    rintro r s ⟨rfl | rfl, -⟩
    · exact .inr rfl
    · rw [h.absent ino offset (lookup_none hl)]
      refine Outcome.seq (returns_cacheUpdate fs ino offset _ false (n + 1) _ (newSlots_lt _)) ?_
      exact fun _ _ _ => .inl rfl

/-- **No silent loss.** In every run whose calls are safe, over a disk whose reads and
writes may fail, a block that was acknowledged and since neither overwritten nor
truncated is what a read returns, unless that read fails, and after a final sync of
all inodes the store below holds it. -/
theorem acknowledged_kept (fs : FaultyStore β σ) (below : σ) (blocks : Fin (n + 1) → β)
    (calls : List (Request β)) (hsafe : AllSafe fs.toBlockStore calls (init below blocks)) :
    ∃ answers cs, performAll (clockdisk fs.toBlockStore) calls (init below blocks) =
        .ok answers cs ∧
      ∀ ino offset block, acknowledged (fun _ _ => none) calls answers ino offset = some block →
        (∃ r cs', Clockdisk.read fs.toBlockStore ino offset cs = .ok r cs' ∧
          (r = some block ∨ r = none)) ∧
        (calls.getLast? = some (.sync allInodes) → fs.view cs.below ino offset = block) := by
  obtain ⟨answers, cs, hall, ⟨ref, hserves, hacked⟩, hlast⟩ :=
    performAll_kept calls (kept_init fs below blocks) hsafe
  refine ⟨answers, cs, hall, fun ino offset block hb => ⟨?_, fun hl =>
    hlast hl ino offset block hb⟩⟩
  obtain ⟨r, cs', he, hr⟩ := (read_shown hserves.shows ino offset).exists_ok
  rw [hacked ino offset block hb] at hr
  exact ⟨r, cs', he, hr⟩

/-- A ramdisk rejects what is out of its range. -/
def faultyRamdisk (β : Type) [Inhabited β] : FaultyStore β (Ramdisk.State β) where
  toBlockStore := Ramdisk.ramdisk
  view := fun rs ino offset => if ino = 0 then rs.blocks offset else default
  outcome_getninodes := fun _ => rfl
  outcome_getsize := by
    intro s ino
    change Outcome (Ramdisk.getsize ino) _ _ s
    unfold Ramdisk.getsize
    split <;> exact rfl
  outcome_setsize := by
    intro s ino nblocks
    change toInt s.nblocks = -1 ∧ _ ∨ toInt s.nblocks ≠ -1 ∧ _
    by_cases hr : toInt s.nblocks = -1
    · exact .inl ⟨hr, rfl⟩
    · exact .inr ⟨hr, fun _ _ _ => rfl⟩
  outcome_read := by
    intro s ino offset
    change Outcome (Ramdisk.read ino offset) _ _ s
    unfold Ramdisk.read
    split
    · exact ⟨.inl rfl, rfl⟩
    · rename_i hino
      obtain rfl : ino = 0 := by omega
      rw [Outcome.bind_iff, Outcome.get_iff]
      split
      · exact ⟨.inl rfl, rfl⟩
      · exact ⟨.inr rfl, rfl⟩
  outcome_write := by
    intro s ino offset block
    change Outcome (Ramdisk.write ino offset block) _ _ s
    unfold Ramdisk.write
    split
    · exact .inr ⟨rfl, rfl⟩
    · rename_i hino
      obtain rfl : ino = 0 := by omega
      rw [Outcome.bind_iff, Outcome.get_iff]
      split
      · exact .inr ⟨rfl, rfl⟩
      · refine .inl ⟨rfl, ?_⟩
        funext i o
        by_cases hi : i = 0 <;> simp [setBlock, hi, Function.update_apply]
  outcome_sync := fun _ _ => rfl

instance (bs : BlockStore β σ) (cs : State β σ n) : (call : Request β) → Decidable (Safe bs cs call)
  | .setsize ino nblocks => inferInstanceAs (Decidable (
      returned (bs.setsize ino nblocks cs.below) = some (-1) → ∀ i, (cs.slots i).Live →
        (cs.slots i).dirty = true → (cs.slots i).ino = ino → (cs.slots i).offset < nblocks))
  | .getninodes => inferInstanceAs (Decidable (Option.isSome _ = true))
  | .getsize _ => inferInstanceAs (Decidable (Option.isSome _ = true))
  | .read _ _ => inferInstanceAs (Decidable (Option.isSome _ = true))
  | .write _ _ _ => inferInstanceAs (Decidable (Option.isSome _ = true))
  | .sync _ => inferInstanceAs (Decidable (Option.isSome _ = true))

instance decidableAllSafe (bs : BlockStore β σ) : (calls : List (Request β)) →
    (cs : State β σ n) → Decidable (AllSafe bs calls cs)
  | [], _ => .isTrue trivial
  | call :: calls, cs =>
    have : Decidable (match call.perform (clockdisk bs) cs with
        | .ok _ cs' => AllSafe bs calls cs'
        | .error _ _ => True) :=
      match call.perform (clockdisk bs) cs with
      | .ok _ cs' => decidableAllSafe bs calls cs'
      | .error _ _ => .isTrue trivial
    inferInstanceAs (Decidable (_ ∧ _))

/-- Two writes, one of them evicted, and a read that the disk rejects. -/
theorem acknowledged_kept_two :
    ∃ answers cs, performAll (clockdisk (faultyRamdisk Nat).toBlockStore)
        [.write 0 1 7, .write 0 0 8, .read 0 9, .sync allInodes]
        (init (n := 0) ⟨fun _ => 0, 2⟩ fun _ => 0) = .ok answers cs ∧
      ∀ ino offset block, acknowledged (fun _ _ => none)
          [.write 0 1 7, .write 0 0 8, .read 0 9, .sync allInodes] answers ino offset =
          some block →
        (∃ r cs', Clockdisk.read (faultyRamdisk Nat).toBlockStore ino offset cs = .ok r cs' ∧
          (r = some block ∨ r = none)) ∧
        (([.write 0 1 7, .write 0 0 8, .read 0 9, .sync allInodes] :
            List (Request Nat)).getLast? = some (.sync allInodes) →
          (faultyRamdisk Nat).view cs.below ino offset = block) :=
  acknowledged_kept (faultyRamdisk Nat) ⟨fun _ => 0, 2⟩ (fun _ => 0) _ (by decide +kernel)

/-- A block behind the end of a ramdisk: the write and the sync return 0, and once the
slot is needed for another block the read fails. -/
theorem write_forgotten :
    returned (performAll (clockdisk Ramdisk.ramdisk)
        [.write 0 5 7, .sync allInodes] (init (n := 0) ⟨fun _ => 0, 1⟩ fun _ => 0)) =
      some [.code 0, .code 0] ∧
    (faultyRamdisk Nat).view (final (performAll (clockdisk Ramdisk.ramdisk)
        [.write 0 5 7, .sync allInodes] (init (n := 0) ⟨fun _ => 0, 1⟩ fun _ => 0))).below 0 5 ≠ 7 ∧
    returned (performAll (clockdisk Ramdisk.ramdisk)
        [.write 0 5 7, .read 0 0, .sync allInodes, .read 0 5]
        (init (n := 0) ⟨fun _ => 0, 1⟩ fun _ => 0)) =
      some [.code 0, .block (some 0), .code 0, .block none] := by
  decide +kernel

end Egos.Disk.Faults
