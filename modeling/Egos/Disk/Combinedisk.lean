import Mathlib.Data.List.GetD
import Egos.Disk.Store

/-!
# The combining disk `combinedisk.c`

The inodes of the stores below, one store after the other. The search for a store compares inode
numbers as signed differences, and nothing but these ends it.
-/
namespace Egos.Disk.Combinedisk

open Egos.Lib

set_option autoImplicit false

variable {β σ : Type}

/-- `struct combinedisk_state`, with the states of the stores below. -/
structure State (σ : Type) where
  below : Nat → σ
  belowninodes : List Nat

/-- A call on store `i`. -/
def onStore {α : Type} (i : Nat) (m : EStateM Stop σ α) : EStateM Stop (State σ) α :=
  onPart (fun cs => cs.below i) (fun cs s => { cs with below := Function.update cs.below i s }) m

/-- `nino - n` as an `unsigned int`. -/
def minus (nino n : Nat) : Nat := (nino + 2 ^ 32 - n) % 2 ^ 32

/-- The loop that all calls start with, for the counts from store `i` on: the store, and the inode
there. -/
def search : (counts : List Nat) → (i nino : Nat) → EStateM Stop (State σ) (Nat × Nat)
  | [], _, _ => throw .undefined
  | n :: counts, i, nino =>
    if toInt (minus nino n) ≥ 0 then search counts (i + 1) (minus nino n) else pure (i, nino)

section

variable (below : Nat → BlockStore β σ)

def getninodes : EStateM Stop (State σ) Int := do
  let ninodes := (← get).belowninodes.foldl (fun ninodes n => (ninodes + n) % 2 ^ 32) 0
  return toInt ninodes

def getsize (ino : Nat) : EStateM Stop (State σ) Int := do
  let (i, nino) ← search (← get).belowninodes 0 ino
  onStore i ((below i).getsize nino)

def setsize (ino nblocks : Nat) : EStateM Stop (State σ) Int := do
  let (i, nino) ← search (← get).belowninodes 0 ino
  onStore i ((below i).setsize nino nblocks)

def read (ino offset : Nat) : EStateM Stop (State σ) (Option β) := do
  let (i, nino) ← search (← get).belowninodes 0 ino
  onStore i ((below i).read nino offset)

def write (ino offset : Nat) (block : β) : EStateM Stop (State σ) Int := do
  let (i, nino) ← search (← get).belowninodes 0 ino
  onStore i ((below i).write nino offset block)

def sync (ino : Nat) : EStateM Stop (State σ) Int := do
  let (i, nino) ← search (← get).belowninodes 0 ino
  onStore i ((below i).sync nino)

/-- The interface `combinedisk_init` returns. -/
def combinedisk : BlockStore β (State σ) where
  getninodes := getninodes
  getsize := getsize below
  setsize := setsize below
  read := read below
  write := write below
  sync := sync below

/-- `combinedisk_init`: the stores are asked for their counts one by one. -/
def init (states : Nat → σ) (nbelow : Nat) : EStateM Stop (State σ) Unit := do
  set ({ below := states, belowninodes := [] } : State σ)
  (List.range nbelow).forM fun i => do
    let n ← onStore i (below i).getninodes
    modify fun cs => { cs with belowninodes := cs.belowninodes ++ [toUnsigned n] }

end

/-! ## What a call is for -/

/-- A call on an inode. -/
inductive Operation (β : Type) where
  | getsize
  | setsize (nblocks : Nat)
  | read (offset : Nat)
  | write (offset : Nat) (block : β)
  | sync
  deriving DecidableEq

namespace Operation

def request : Operation β → (ino : Nat) → Request β
  | getsize, ino => .getsize ino
  | setsize nblocks, ino => .setsize ino nblocks
  | read offset, ino => .read ino offset
  | write offset block, ino => .write ino offset block
  | sync, ino => .sync ino

/-- The answer of a call that fails. -/
def failure : Operation β → Answer β
  | read _ => .block none
  | _ => .code (-1)

end Operation

/-- Inode `ino` of all is inode `nino` of store `i`. -/
def Target (counts : List Nat) (ino i nino : Nat) : Prop :=
  ino = (counts.take i).sum + nino ∧ nino < counts.getD i 0

/-- The call goes to the store of the inode, or fails if there is none. -/
def Routes (counts : List Nat) (op : Operation β) (ino : Nat) : Prop :=
  ∀ (σ : Type) (below : Nat → BlockStore β σ) (states : Nat → σ),
    (∀ i nino, Target counts ino i nino →
      (op.request ino).perform (combinedisk below) ⟨states, counts⟩ =
        onStore i ((op.request nino).perform (below i)) ⟨states, counts⟩) ∧
    (counts.sum ≤ ino → (op.request ino).perform (combinedisk below) ⟨states, counts⟩ =
      .ok op.failure ⟨states, counts⟩)

/-- Every store is asked to sync all its inodes. -/
def SyncsAll (β : Type) (counts : List Nat) : Prop :=
  ∀ (σ : Type) (below : Nat → BlockStore β σ) (states states' : Nat → σ),
    (∀ i, i < counts.length → ∃ r, (below i).sync allInodes (states i) = .ok r (states' i)) →
    (∀ i, counts.length ≤ i → states' i = states i) →
    ∃ r, (combinedisk below).sync allInodes ⟨states, counts⟩ = .ok r ⟨states', counts⟩

/-- What a call should do. -/
def Meets (counts : List Nat) (op : Operation β) (ino : Nat) : Prop :=
  (op = .sync ∧ ino = allInodes → SyncsAll β counts) ∧
  (¬ (op = .sync ∧ ino = allInodes) → Routes counts op ino)

/-! ## The search -/

/-- All differences on the way to the store of the inode keep their sign as C ints. -/
def Located (counts : List Nat) (ino : Nat) : Prop :=
  ∃ i nino, Target counts ino i nino ∧ counts.getD i 0 ≤ nino + 2 ^ 31 ∧
    ∀ j, j < i → ino < (counts.take (j + 1)).sum + 2 ^ 31

section

variable {counts : List Nat} {n ino i nino : Nat}

theorem minus_of_le (hn : n < 2 ^ 32) (hino : ino < 2 ^ 32) (h : n ≤ ino) :
    minus ino n = ino - n := by
  unfold minus
  omega

theorem toInt_nonneg (h : ino < 2 ^ 32) : toInt ino ≥ 0 ↔ ino < 2 ^ 31 := by
  unfold toInt
  rw [Nat.mod_eq_of_lt h]
  split <;> omega

theorem minus_lt (ino n : Nat) : minus ino n < 2 ^ 32 := Nat.mod_lt _ (by decide)

theorem continues_iff (hn : n < 2 ^ 32) (hino : ino < 2 ^ 32) :
    toInt (minus ino n) ≥ 0 ↔ if ino < n then ino + 2 ^ 31 < n else ino < n + 2 ^ 31 := by
  rw [toInt_nonneg (minus_lt ino n)]
  unfold minus
  split <;> omega

theorem target_head : Target (n :: counts) ino 0 nino ↔ ino = nino ∧ nino < n := by
  unfold Target
  simp

theorem target_tail :
    Target (n :: counts) ino (i + 1) nino ↔ n ≤ ino ∧ Target counts (ino - n) i nino := by
  unfold Target
  rw [List.take_succ_cons, List.sum_cons, List.getD_cons_succ]
  omega

theorem exists_target (h : ino < counts.sum) : ∃ i nino, Target counts ino i nino := by
  induction counts generalizing ino with
  | nil => exact absurd h (Nat.not_lt_zero _)
  | cons n counts ih =>
    rw [List.sum_cons] at h
    by_cases hlt : ino < n
    · exact ⟨0, ino, target_head.mpr ⟨rfl, hlt⟩⟩
    · obtain ⟨i, nino, htail⟩ := ih (show ino - n < counts.sum by omega)
      exact ⟨i + 1, nino, target_tail.mpr ⟨by omega, htail⟩⟩

theorem located_cons : Located (n :: counts) ino ↔
    if ino < n then n ≤ ino + 2 ^ 31 else ino < n + 2 ^ 31 ∧ Located counts (ino - n) := by
  constructor
  · rintro ⟨i, nino, htarget, hcount, hsums⟩
    cases i with
    | zero =>
      obtain ⟨rfl, hlt⟩ := target_head.mp htarget
      rw [if_pos hlt]
      exact hcount
    | succ i =>
      obtain ⟨hle, htail⟩ := target_tail.mp htarget
      rw [if_neg (Nat.not_lt.mpr hle)]
      have hfirst := hsums 0 (Nat.succ_pos i)
      rw [List.take_succ_cons, List.sum_cons, List.take_zero, List.sum_nil] at hfirst
      refine ⟨hfirst, i, nino, htail, hcount, fun j hj => ?_⟩
      have hsum := hsums (j + 1) (Nat.succ_lt_succ hj)
      rw [List.take_succ_cons, List.sum_cons] at hsum
      omega
  · intro h
    split at h
    · rename_i hlt
      refine ⟨0, ino, target_head.mpr ⟨rfl, hlt⟩, h, fun j hj => absurd hj (Nat.not_lt_zero j)⟩
    · rename_i hle
      obtain ⟨hfirst, i, nino, htail, hcount, hsums⟩ := h
      refine ⟨i + 1, nino, target_tail.mpr ⟨Nat.not_lt.mp hle, htail⟩, hcount, fun j hj => ?_⟩
      rw [List.take_succ_cons, List.sum_cons]
      cases j with
      | zero =>
        rw [List.take_zero, List.sum_nil]
        exact hfirst
      | succ j =>
        have hsum := hsums j (Nat.lt_of_succ_lt_succ hj)
        omega

theorem search_cases (counts : List Nat) (i ino : Nat) (cs : State σ) :
    (∃ k nino, i ≤ k ∧ k < i + counts.length ∧ search counts i ino cs = .ok (k, nino) cs) ∨
      search counts i ino cs = .error .undefined cs := by
  induction counts generalizing i ino with
  | nil => exact .inr rfl
  | cons n counts ih =>
    rw [search, List.length_cons]
    split
    · rcases ih (i + 1) (minus ino n) with ⟨k, nino, hle, hlt, hrun⟩ | hrun
      · exact .inl ⟨k, nino, by omega, by omega, hrun⟩
      · exact .inr hrun
    · exact .inl ⟨i, ino, Nat.le_refl i, by omega, rfl⟩

theorem search_iff (hcounts : ∀ n ∈ counts, n < 2 ^ 32) (hino : ino < 2 ^ 32) {first : Nat}
    {cs : State σ} (h : Target counts ino i nino) :
    search counts first ino cs = .ok (first + i, nino) cs ↔ Located counts ino := by
  induction counts generalizing ino i first with
  | nil => exact absurd h.2 (Nat.not_lt_zero _)
  | cons n counts ih =>
    have hn : n < 2 ^ 32 := hcounts n List.mem_cons_self
    have htails : ∀ n ∈ counts, n < 2 ^ 32 := fun n hn => hcounts n (List.mem_cons_of_mem _ hn)
    have hcontinues := continues_iff hn hino
    rw [located_cons, search]
    cases i with
    | zero =>
      obtain ⟨rfl, hlt⟩ := target_head.mp h
      rw [if_pos hlt] at hcontinues ⊢
      by_cases hgo : ino + 2 ^ 31 < n
      · -- the difference looks positive, and the search goes past the store
        rw [if_pos (hcontinues.mpr hgo)]
        constructor
        · intro hrun
          rcases search_cases counts (first + 1) (minus ino n) cs with ⟨k, r, hle, -, hother⟩ | hother
          · rw [hother] at hrun
            have hk := (Prod.mk.inj (EStateM.Result.ok.inj hrun).1).1
            omega
          · rw [hother] at hrun
            cases hrun
        · intro hle
          omega
      · rw [if_neg fun hpos => hgo (hcontinues.mp hpos)]
        constructor
        · intro _
          omega
        · intro _
          rfl
    | succ i =>
      obtain ⟨hle, htail⟩ := target_tail.mp h
      rw [if_neg (Nat.not_lt.mpr hle)] at hcontinues ⊢
      by_cases hgo : ino < n + 2 ^ 31
      · rw [if_pos (hcontinues.mpr hgo), minus_of_le hn hino hle]
        have htails' : search counts (first + 1) (ino - n) cs = .ok (first + 1 + i, nino) cs ↔
            Located counts (ino - n) := ih htails (by omega) htail
        rw [show first + 1 + i = first + (i + 1) by omega] at htails'
        rw [htails']
        exact ⟨fun hrest => ⟨hgo, hrest⟩, fun hrest => hrest.2⟩
      · -- the difference looks negative, and the search stays with this store
        rw [if_neg fun hpos => hgo (hcontinues.mp hpos)]
        constructor
        · intro hrun
          have hk := (Prod.mk.inj (EStateM.Result.ok.inj hrun).1).1
          omega
        · intro hrest
          exact absurd hrest.1 hgo

/-! ## Calls -/

section

variable {below : Nat → BlockStore β σ} {states : Nat → σ} {op : Operation β}

theorem perform_eq (op : Operation β) (ino : Nat) (cs : State σ) :
    (op.request ino).perform (combinedisk below) cs = (do
      let (i, nino) ← search cs.belowninodes 0 ino
      onStore i ((op.request nino).perform (below i)) : EStateM Stop (State σ) (Answer β)) cs := by
  have hcall : ∀ {α : Type} (call : Nat → Nat → EStateM Stop σ α) (f : α → Answer β),
      (do
        let r ← (do
          let (i, nino) ← search (← get).belowninodes 0 ino
          onStore i (call i nino))
        pure (f r) : EStateM Stop (State σ) (Answer β)) cs =
      (do
        let (i, nino) ← search cs.belowninodes 0 ino
        onStore i (do
          let r ← call i nino
          pure (f r))) cs := by
    intro α call f
    have hget : (get : EStateM Stop (State σ) (State σ)) cs = .ok cs cs := rfl
    simp only [bind, EStateM.bind, hget]
    cases search cs.belowninodes 0 ino cs with
    | error stop cs' => rfl
    | ok found cs' =>
      simp only [onStore, onPart, EStateM.bind]
      cases call found.1 found.2 (cs'.below found.1) with
      | error stop s' => rfl
      | ok r s' => rfl
  cases op with
  | getsize => exact hcall (fun i nino => (below i).getsize nino) .code
  | setsize nblocks => exact hcall (fun i nino => (below i).setsize nino nblocks) .code
  | read offset => exact hcall (fun i nino => (below i).read nino offset) .block
  | write offset block => exact hcall (fun i nino => (below i).write nino offset block) .code
  | sync => exact hcall (fun i nino => (below i).sync nino) .code

theorem perform_found {op : Operation β} {ino k nino : Nat} {cs : State σ}
    (h : search cs.belowninodes 0 ino cs = .ok (k, nino) cs) :
    (op.request ino).perform (combinedisk below) cs =
      onStore k ((op.request nino).perform (below k)) cs := by
  rw [perform_eq]
  exact bind_ok h _

theorem perform_lost {op : Operation β} {ino : Nat} {cs : State σ}
    (h : search cs.belowninodes 0 ino cs = .error .undefined cs) :
    (op.request ino).perform (combinedisk below) cs = .error .undefined cs := by
  rw [perform_eq]
  exact bind_error h _

/-- Stores that answer every call with 0, and keep a list of the calls. -/
def recorder (β : Type) : BlockStore β (List (Request β)) where
  getninodes := do
    modify (· ++ [.getninodes])
    return 0
  getsize ino := do
    modify (· ++ [.getsize ino])
    return 0
  setsize ino nblocks := do
    modify (· ++ [.setsize ino nblocks])
    return 0
  read ino offset := do
    modify (· ++ [.read ino offset])
    return none
  write ino offset block := do
    modify (· ++ [.write ino offset block])
    return 0
  sync ino := do
    modify (· ++ [.sync ino])
    return 0

theorem perform_recorder (op : Operation β) (ino : Nat) (calls : List (Request β)) :
    ∃ answer, (op.request ino).perform (recorder β) calls =
      .ok answer (calls ++ [op.request ino]) := by
  cases op with
  | getsize => exact ⟨_, rfl⟩
  | setsize nblocks => exact ⟨_, rfl⟩
  | read offset => exact ⟨_, rfl⟩
  | write offset block => exact ⟨_, rfl⟩
  | sync => exact ⟨_, rfl⟩

theorem request_injective {op : Operation β} {ino ino' : Nat}
    (h : op.request ino = op.request ino') : ino = ino' := by
  cases op with
  | getsize => exact Request.getsize.inj h
  | setsize nblocks => exact (Request.setsize.inj h).1
  | read offset => exact (Request.read.inj h).1
  | write offset block => exact (Request.write.inj h).1
  | sync => exact Request.sync.inj h

/-- A call of the recording stores tells which store it went to, and with which inode. -/
theorem onStore_recorder (op : Operation β) (i nino : Nat) (counts : List Nat) :
    ∃ answer, onStore i ((op.request nino).perform (recorder β)) ⟨fun _ => [], counts⟩ =
      .ok answer ⟨Function.update (fun _ => []) i [op.request nino], counts⟩ := by
  obtain ⟨answer, hrun⟩ := perform_recorder op nino []
  refine ⟨answer, ?_⟩
  unfold onStore onPart
  dsimp only
  rw [hrun, List.nil_append]

theorem recorded_injective {i i' nino nino' : Nat}
    (h : Function.update (fun _ => ([] : List (Request β))) i [op.request nino] =
      Function.update (fun _ => []) i' [op.request nino']) : i = i' ∧ nino = nino' := by
  have hat := congrFun h i
  rw [Function.update_self] at hat
  by_cases heq : i = i'
  · subst heq
    rw [Function.update_self] at hat
    exact ⟨rfl, request_injective (List.cons.inj hat).1⟩
  · rw [Function.update_of_ne heq] at hat
    exact absurd hat (List.cons_ne_nil _ _)

theorem Target.lt_sum {ino i nino : Nat} (h : Target counts ino i nino) : ino < counts.sum := by
  induction counts generalizing ino i with
  | nil => exact absurd h.2 (Nat.not_lt_zero _)
  | cons n counts ih =>
    rw [List.sum_cons]
    cases i with
    | zero =>
      obtain ⟨heq, hlt⟩ := target_head.mp h
      omega
    | succ i =>
      obtain ⟨hle, htail⟩ := target_tail.mp h
      have hlt := ih htail
      omega

/-- A call goes to the store of its inode exactly if all differences keep their sign. -/
theorem routes_iff {ino : Nat} (hcounts : ∀ n ∈ counts, n < 2 ^ 32) (hino : ino < 2 ^ 32) :
    Routes counts op ino ↔ Located counts ino := by
  constructor
  · intro h
    obtain ⟨hreached, hfailed⟩ := h (List (Request β)) (fun _ => recorder β) (fun _ => [])
    have hsearch := search_cases counts 0 ino (⟨fun _ => [], counts⟩ : State (List (Request β)))
    by_cases hlt : ino < counts.sum
    · obtain ⟨i, nino, htarget⟩ := exists_target hlt
      have hcall := hreached i nino htarget
      obtain ⟨answer, hrecorded⟩ := onStore_recorder op i nino counts
      rw [hrecorded] at hcall
      rcases hsearch with ⟨k, r, -, -, hrun⟩ | hrun
      · obtain ⟨answer', hrecorded'⟩ := onStore_recorder op k r counts
        rw [perform_found hrun, hrecorded'] at hcall
        obtain ⟨rfl, rfl⟩ :=
          recorded_injective (congrArg State.below (EStateM.Result.ok.inj hcall).2)
        rw [← Nat.zero_add k] at hrun
        exact (search_iff hcounts hino htarget).mp hrun
      · rw [perform_lost hrun] at hcall
        cases hcall
    · have hcall := hfailed (Nat.not_lt.mp hlt)
      rcases hsearch with ⟨k, r, -, -, hrun⟩ | hrun
      · obtain ⟨answer, hrecorded⟩ := onStore_recorder op k r counts
        rw [perform_found hrun, hrecorded] at hcall
        have hbelow := congrFun (congrArg State.below (EStateM.Result.ok.inj hcall).2) k
        dsimp only at hbelow
        rw [Function.update_self] at hbelow
        exact absurd hbelow (List.cons_ne_nil _ _)
      · rw [perform_lost hrun] at hcall
        cases hcall
  · intro h σ below states
    obtain ⟨i, nino, htarget, -⟩ := id h
    constructor
    · intro i' nino' htarget'
      have hrun : search counts 0 ino (⟨states, counts⟩ : State σ) = .ok (0 + i', nino') _ :=
        (search_iff hcounts hino htarget').mpr h
      rw [Nat.zero_add] at hrun
      exact perform_found hrun
    · intro hle
      have hlt := htarget.lt_sum
      omega

/-- With -1 for the inode the search passes a store only if that has many inodes. -/
theorem search_allInodes {n : Nat} (hn : n < 2 ^ 32) (counts : List Nat) (cs : State σ) :
    search (n :: counts) 0 allInodes cs = .ok (0, allInodes) cs ↔ n < 2 ^ 31 := by
  have hcontinues := continues_iff hn (show allInodes < 2 ^ 32 by decide)
  have hall : allInodes = 2 ^ 32 - 1 := rfl
  rw [if_neg (by omega)] at hcontinues
  rw [search]
  by_cases hgo : allInodes < n + 2 ^ 31
  · rw [if_pos (hcontinues.mpr hgo)]
    constructor
    · intro hrun
      rcases search_cases counts (0 + 1) (minus allInodes n) cs with ⟨k, r, hle, -, hother⟩ | hother
      · rw [hother] at hrun
        have hk := (Prod.mk.inj (EStateM.Result.ok.inj hrun).1).1
        omega
      · rw [hother] at hrun
        cases hrun
    · intro hlt
      omega
  · rw [if_neg fun hpos => hgo (hcontinues.mp hpos)]
    constructor
    · intro _
      omega
    · intro _
      rfl

/-- All stores are synced only if there is no more than one. -/
theorem syncsAll_iff (hcounts : ∀ n ∈ counts, n < 2 ^ 32) :
    SyncsAll β counts ↔ ∃ n, counts = [n] ∧ n < 2 ^ 31 := by
  constructor
  · intro h
    have hrun := h (List (Request β)) (fun _ => recorder β) (fun _ => [])
      (fun i => if i < counts.length then [.sync allInodes] else [])
      (fun i hi => ⟨0, by rw [if_pos hi]; rfl⟩) (fun i hi => if_neg (Nat.not_lt.mpr hi))
    obtain ⟨r, hsync⟩ := hrun
    have hcall : ((Operation.sync : Operation β).request allInodes).perform
        (combinedisk fun _ => recorder β) ⟨fun _ => [], counts⟩ = .ok (.code r) ⟨_, counts⟩ :=
      bind_ok hsync _
    have hsearch := search_cases counts 0 allInodes (⟨fun _ => [], counts⟩ : State (List (Request β)))
    rcases hsearch with ⟨k, nino, -, hk, hrun⟩ | hrun
    · obtain ⟨answer, hrecorded⟩ := onStore_recorder (.sync : Operation β) k nino counts
      rw [perform_found hrun, hrecorded] at hcall
      have hbelow := congrFun (congrArg State.below (EStateM.Result.ok.inj hcall).2)
      dsimp only at hbelow
      have honly : ∀ j, j < counts.length → j = k := by
        intro j hj
        by_contra hne
        have hat := hbelow j
        rw [Function.update_of_ne hne, if_pos hj] at hat
        exact absurd hat.symm (List.cons_ne_nil _ _)
      have hlength : counts.length = 1 := by
        by_contra hne
        have hzero := honly 0 (by omega)
        have hone := honly 1 (by omega)
        omega
      obtain ⟨n, rfl⟩ := List.length_eq_one_iff.mp hlength
      obtain rfl := honly 0 (by rw [hlength]; exact Nat.one_pos)
      have hnino := hbelow 0
      rw [Function.update_self, if_pos (by rw [hlength]; exact Nat.one_pos)] at hnino
      have hall : nino = allInodes :=
        @request_injective _ .sync _ _ (List.cons.inj hnino).1
      rw [hall] at hrun
      exact ⟨n, rfl, (search_allInodes (hcounts n List.mem_cons_self) [] _).mp hrun⟩
    · rw [perform_lost hrun] at hcall
      cases hcall
  · rintro ⟨n, rfl, hn⟩ σ below states states' hsyncs hothers
    have hrun : search [n] 0 allInodes (⟨states, [n]⟩ : State σ) = .ok (0, allInodes) _ :=
      (search_allInodes (hcounts n List.mem_cons_self) [] _).mpr hn
    obtain ⟨r, hsync⟩ := hsyncs 0 Nat.one_pos
    have hstates : Function.update states 0 (states' 0) = states' := by
      funext i
      by_cases hi : i = 0
      · subst hi
        exact Function.update_self _ _ _
      · rw [Function.update_of_ne hi]
        exact (hothers i (Nat.pos_of_ne_zero hi)).symm
    refine ⟨r, ?_⟩
    change (search [n] 0 allInodes >>= fun found => onStore found.1 ((below found.1).sync found.2))
      (⟨states, [n]⟩ : State σ) = _
    rw [bind_ok hrun]
    unfold onStore onPart
    dsimp only
    rw [hsync]
    dsimp only
    rw [hstates]

/-- A call does what it should exactly if all differences keep their sign on the way to the store of
the inode; for a sync of all inodes, if there is but one store, with fewer than `2 ^ 31` inodes. -/
theorem inodes_routed_iff {ino : Nat} (hcounts : ∀ n ∈ counts, n < 2 ^ 32) (hino : ino < 2 ^ 32) :
    Meets counts op ino ↔
      op = .sync ∧ ino = allInodes ∧ (∃ n, counts = [n] ∧ n < 2 ^ 31) ∨
      ¬ (op = .sync ∧ ino = allInodes) ∧ Located counts ino := by
  unfold Meets
  rw [syncsAll_iff hcounts, routes_iff hcounts hino]
  by_cases hall : op = .sync ∧ ino = allInodes
  · constructor
    · intro h
      exact .inl ⟨hall.1, hall.2, h.1 hall⟩
    · intro h
      rcases h with ⟨-, -, hone⟩ | ⟨hnot, -⟩
      · exact ⟨fun _ => hone, fun hnot => absurd hall hnot⟩
      · exact absurd hall hnot
  · constructor
    · intro h
      exact .inr ⟨hall, h.2 hall⟩
    · intro h
      rcases h with ⟨hop, hino', -⟩ | ⟨-, hlocated⟩
      · exact absurd ⟨hop, hino'⟩ hall
      · exact ⟨fun h => absurd h hall, fun _ => hlocated⟩

end

end

theorem inodes_routed_iff_second : Meets [3, 5] (.read 7 : Operation Nat) 4 := by
  apply (inodes_routed_iff (by decide) (by decide)).mpr
  apply Or.inr
  refine ⟨by decide, 1, 1, ⟨by decide, by decide⟩, by decide, ?_⟩
  intro j hj
  obtain rfl : j = 0 := by omega
  decide

/-- Behind the last inode the search leaves the array. -/
theorem inodes_beyond : ¬ Meets [3, 5] (.read 7 : Operation Nat) 8 := by
  intro h
  obtain ⟨i, nino, htarget, -⟩ := (routes_iff (by decide) (by decide)).mp (h.2 (by decide))
  exact absurd htarget.lt_sum (by decide)

end Egos.Disk.Combinedisk
