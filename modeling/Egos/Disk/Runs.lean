import Egos.Disk.Store

/-!
# Runs of a block store

The rule for a run of calls, with an invariant of the calls made so far, and a store that
keeps a record of how it is used by the layer above it.
-/
namespace Egos.Disk

open Egos.Lib

set_option autoImplicit false

variable {β σ : Type} {bs : BlockStore β σ}

/-- An invariant of the calls made so far and of their answers carries a run. An early stop
is that of one call. -/
theorem outcome_performAll (I : List (Request β) → List (Answer β) → σ → Prop)
    {E : Stop → σ → Prop} {s : σ} {calls : List (Request β)} (h : I [] [] s)
    (hstep : ∀ past call rest answers s, calls = past ++ call :: rest → I past answers s →
      Outcome (call.perform bs) (fun answer => I (past ++ [call]) (answers ++ [answer])) E s) :
    Outcome (performAll bs calls) (fun answers => I calls answers) E s := by
  suffices hrun : ∀ (rest past : List (Request β)) (done : List (Answer β)) (s : σ),
      calls = past ++ rest → I past done s →
      Outcome (performAll bs rest) (fun answers => I calls (done ++ answers)) E s from
    hrun calls [] [] s rfl h
  intro rest
  induction rest with
  | nil =>
    intro past done s hc h
    rw [List.append_nil] at hc
    subst hc
    change I calls (done ++ []) s
    rwa [List.append_nil]
  | cons call rest ih =>
    intro past done s hc h
    unfold performAll
    apply (hstep past call rest done s hc h).seq
    intro answer s' h'
    have hrest := ih (past ++ [call]) _ s' (by rw [hc, List.append_assoc]; rfl) h'
    apply hrest.seq
    intro answers s'' hr
    rwa [List.append_assoc] at hr

/-- Every operation keeps `P`, also where it stops the program. -/
structure BlockStore.Keeps (bs : BlockStore β σ) (P : σ → Prop) : Prop where
  getninodes : ∀ s, P s → Outcome bs.getninodes (fun _ s' => P s') (fun _ s' => P s') s
  getsize : ∀ ino s, P s → Outcome (bs.getsize ino) (fun _ s' => P s') (fun _ s' => P s') s
  setsize : ∀ ino nblocks s, P s →
    Outcome (bs.setsize ino nblocks) (fun _ s' => P s') (fun _ s' => P s') s
  read : ∀ ino offset s, P s →
    Outcome (bs.read ino offset) (fun _ s' => P s') (fun _ s' => P s') s
  write : ∀ ino offset block s, P s →
    Outcome (bs.write ino offset block) (fun _ s' => P s') (fun _ s' => P s') s
  sync : ∀ ino s, P s → Outcome (bs.sync ino) (fun _ s' => P s') (fun _ s' => P s') s

theorem BlockStore.Keeps.performAll {P : σ → Prop} (h : bs.Keeps P) (calls : List (Request β)) {s : σ}
    (hs : P s) : Outcome (performAll bs calls) (fun _ s' => P s') (fun _ s' => P s') s := by
  apply outcome_performAll (fun _ _ s' => P s') hs
  intro _ call _ _ s _ hs
  cases call with
  | getninodes => exact (h.getninodes s hs).seq fun _ _ hs' => hs'
  | getsize ino => exact (h.getsize ino s hs).seq fun _ _ hs' => hs'
  | setsize ino nblocks => exact (h.setsize ino nblocks s hs).seq fun _ _ hs' => hs'
  | read ino offset => exact (h.read ino offset s hs).seq fun _ _ hs' => hs'
  | write ino offset block => exact (h.write ino offset block s hs).seq fun _ _ hs' => hs'
  | sync ino => exact (h.sync ino s hs).seq fun _ _ hs' => hs'

theorem performAll_concat {past : List (Request β)} {answers : List (Answer β)} {s s' : σ}
    (h : performAll bs past s = .ok answers s') (call : Request β) :
    performAll bs (past ++ [call]) s = match call.perform bs s' with
      | .ok answer s'' => .ok (answers ++ [answer]) s''
      | .error stop s'' => .error stop s'' := by
  induction past generalizing answers s with
  | nil =>
    cases h
    change (call.perform bs >>= fun answer =>
      performAll bs [] >>= fun rest => pure (answer :: rest)) _ = _
    cases hc : call.perform bs s' with
    | ok answer s'' => exact bind_ok hc _
    | error stop s'' => exact bind_error hc _
  | cons first past ih =>
    change (first.perform bs >>= fun answer =>
      performAll bs past >>= fun rest => pure (answer :: rest)) s = _ at h
    change (first.perform bs >>= fun answer =>
      performAll bs (past ++ [call]) >>= fun rest => pure (answer :: rest)) s = _
    cases hf : first.perform bs s with
    | error stop t =>
      rw [bind_error hf] at h
      cases h
    | ok answer t =>
      rw [bind_ok hf] at h ⊢
      cases hp : performAll bs past t with
      | error stop u =>
        rw [bind_error hp] at h
        cases h
      | ok done u =>
        rw [bind_ok hp] at h
        cases h
        have hrest := ih hp
        cases hc : call.perform bs s' with
        | ok last s'' =>
          rw [hc] at hrest
          exact bind_ok hrest _
        | error stop s'' =>
          rw [hc] at hrest
          exact bind_error hrest _

/-- A read that came back, with its result, or a write that was asked for. -/
inductive Access (β : Type) where
  | read (ino offset : Nat) (block : Option β)
  | write (ino offset : Nat) (block : β)

/-- One component of the state is what the store is, the other what has been asked of it. -/
def onStore {α : Type} (m : EStateM Stop σ α) : EStateM Stop (σ × List (Access β)) α :=
  onPart Prod.fst (fun s store => (store, s.2)) m

def record (access : Access β) : EStateM Stop (σ × List (Access β)) Unit :=
  modify fun s => (s.1, s.2 ++ [access])

/-- The same store, with a record of its reads and writes. -/
def recording (bs : BlockStore β σ) : BlockStore β (σ × List (Access β)) where
  getninodes := onStore bs.getninodes
  getsize ino := onStore (bs.getsize ino)
  setsize ino nblocks := onStore (bs.setsize ino nblocks)
  read ino offset := do
    let block ← onStore (bs.read ino offset)
    record (.read ino offset block)
    pure block
  write ino offset block := do
    record (.write ino offset block)
    onStore (bs.write ino offset block)
  sync ino := onStore (bs.sync ino)

end Egos.Disk
