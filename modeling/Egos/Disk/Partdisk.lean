import Mathlib.Data.List.GetD
import Mathlib.Order.Interval.Set.Defs
import Egos.Disk.Arrays
import Egos.Disk.Ramdisk

/-!
# The partition disk `partdisk.c`

The inodes are consecutive parts of the blocks of inode 0 of the store below.
-/
namespace Egos.Disk.Partdisk

open Egos.Lib

set_option autoImplicit false

variable {β σ : Type}

/-- `struct partdisk_state`, with the state of the store below. -/
structure State (σ : Type) where
  below : σ
  ninodes : Nat
  partsizes : List Nat

/-- A call on the store below. -/
def onBelow {α : Type} (m : EStateM Stop σ α) : EStateM Stop (State σ) α :=
  onPart State.below (fun ps s => { ps with below := s }) m

/-- `ps->partsizes[ino]` -/
def partsize (ino : Nat) : EStateM Stop (State σ) Nat := do
  match (← get).partsizes[ino]? with
  | some size => pure size
  | none => throw .undefined

/-- The loop of reads and writes that adds up the sizes of the partitions before `ino`. -/
def noffset (partsizes : List Nat) (ino offset : Nat) : Nat :=
  (partsizes.take ino).foldl (fun noffset size => (noffset + size) % 2 ^ 32) offset

section

variable (below : BlockStore β σ)

def getninodes : EStateM Stop (State σ) Int := do
  return toInt (← get).ninodes

def getsize (ino : Nat) : EStateM Stop (State σ) Int := do
  let size ← partsize ino
  return toInt size

/-- Not supported. -/
def setsize (_ino _nblocks : Nat) : EStateM Stop (State σ) Int := pure (-1)

def read (ino offset : Nat) : EStateM Stop (State σ) (Option β) := do
  let ninodes ← getninodes
  if toUnsigned ninodes ≤ ino then
    return none
  if (← partsize ino) ≤ offset then
    return none
  onBelow (below.read 0 (noffset (← get).partsizes ino offset))

def write (ino offset : Nat) (block : β) : EStateM Stop (State σ) Int := do
  let ninodes ← getninodes
  if toUnsigned ninodes ≤ ino then
    return -1
  if (← partsize ino) ≤ offset then
    return -1
  onBelow (below.write 0 (noffset (← get).partsizes ino offset) block)

/-- Everything below is synced. -/
def sync (_ino : Nat) : EStateM Stop (State σ) Int := onBelow (below.sync 0)

/-- The interface `partdisk_init` returns. -/
def partdisk : BlockStore β (State σ) where
  getninodes := getninodes
  getsize := getsize
  setsize := setsize
  read := read below
  write := write below
  sync := sync below

end

/-- `partdisk_init`, with an array `partsizes` of `ninodes` numbers. -/
def init (below : σ) (partsizes : List Nat) : State σ := ⟨below, partsizes.length, partsizes⟩

/-- The sizes of the inodes. -/
def sizes (partsizes : List Nat) (ino : Nat) : Nat := partsizes.getD ino 0

/-- The block of inode 0 below where a block lies. -/
def position (partsizes : List Nat) (p : Nat × Nat) : Nat := noffset partsizes p.1 p.2

/-! ## The positions -/

section

variable {partsizes : List Nat} {ino offset : Nat}

theorem noffset_eq (h : offset + (partsizes.take ino).sum < 2 ^ 32) :
    noffset partsizes ino offset = offset + (partsizes.take ino).sum := by
  unfold noffset
  generalize partsizes.take ino = before at h
  induction before generalizing offset with
  | nil => rfl
  | cons size before ih =>
    rw [List.sum_cons] at h
    rw [List.foldl_cons, List.sum_cons, Nat.mod_eq_of_lt (by omega), ih (by omega)]
    omega

/-- A partition ends before the next one begins. -/
theorem sum_take_add_le (partsizes : List Nat) {ino ino' : Nat} (h : ino < ino') :
    (partsizes.take ino).sum + sizes partsizes ino ≤ (partsizes.take ino').sum := by
  unfold sizes
  induction partsizes generalizing ino ino' with
  | nil =>
    rw [List.take_nil, List.take_nil, List.getD_nil]
    exact Nat.le_refl 0
  | cons size partsizes ih =>
    obtain ⟨k, rfl⟩ := Nat.exists_eq_add_one_of_ne_zero (Nat.ne_zero_of_lt h)
    rw [List.take_succ_cons, List.sum_cons]
    cases ino with
    | zero =>
      rw [List.take_zero, List.sum_nil, List.getD_cons_zero]
      omega
    | succ ino =>
      have hrest := ih (Nat.lt_of_succ_lt_succ h)
      rw [List.take_succ_cons, List.sum_cons, List.getD_cons_succ]
      omega

theorem lt_length (h : offset < sizes partsizes ino) : ino < partsizes.length := by
  by_contra hle
  unfold sizes at h
  rw [List.getD_eq_default _ _ (Nat.not_lt.mp hle)] at h
  exact Nat.not_lt_zero _ h

theorem sum_take_lt (h : offset < sizes partsizes ino) :
    offset + (partsizes.take ino).sum < partsizes.sum := by
  have hlast := sum_take_add_le partsizes (lt_length h)
  rw [List.take_length] at hlast
  omega

variable (hsum : partsizes.sum < 2 ^ 32)

include hsum

theorem position_eq (h : offset < sizes partsizes ino) :
    position partsizes (ino, offset) = offset + (partsizes.take ino).sum := by
  have hlt := sum_take_lt h
  exact noffset_eq (Nat.lt_trans hlt hsum)

theorem position_lt (h : offset < sizes partsizes ino) :
    position partsizes (ino, offset) < partsizes.sum := by
  rw [position_eq hsum h]
  exact sum_take_lt h

theorem position_injOn : Set.InjOn (position partsizes) (blocksOf (sizes partsizes)) := by
  intro p hp q hq heq
  obtain ⟨ino, offset⟩ := p
  obtain ⟨ino', offset'⟩ := q
  change offset < sizes partsizes ino at hp
  change offset' < sizes partsizes ino' at hq
  rw [position_eq hsum hp, position_eq hsum hq] at heq
  rcases Nat.lt_trichotomy ino ino' with hlt | rfl | hlt
  · have hends := sum_take_add_le partsizes hlt
    omega
  · rw [Nat.add_right_cancel heq]
  · have hends := sum_take_add_le partsizes hlt
    omega

end

/-! ## Reads and writes -/

section

variable {below : BlockStore β σ} {partsizes : List Nat} {s : σ}

theorem guarded_eq {α : Type} (s : σ) (ino offset : Nat) (fail : α)
    (call : Nat → EStateM Stop σ α) (hlength : partsizes.length < 2 ^ 32) :
    (do
      let ninodes ← getninodes
      if toUnsigned ninodes ≤ ino then
        return fail
      if (← partsize ino) ≤ offset then
        return fail
      onBelow (call (noffset (← get).partsizes ino offset)) : EStateM Stop (State σ) α)
        (init s partsizes) =
      if offset < sizes partsizes ino then
        onBelow (call (position partsizes (ino, offset))) (init s partsizes)
      else .ok fail (init s partsizes) := by
  have hninodes : toUnsigned (toInt partsizes.length) = partsizes.length := toUnsigned_toInt hlength
  have hget : getninodes (init s partsizes) = .ok (toInt partsizes.length) (init s partsizes) := rfl
  rw [bind_ok hget, hninodes]
  by_cases hino : partsizes.length ≤ ino
  · have hnot : ¬ offset < sizes partsizes ino := fun h => absurd (lt_length h) (Nat.not_lt.mpr hino)
    rw [if_pos hino, if_neg hnot]
    rfl
  · have hsize : partsizes[ino]? = some (sizes partsizes ino) := by
      unfold sizes
      rw [List.getD_eq_getElem _ _ (Nat.not_le.mp hino)]
      exact List.getElem?_eq_getElem _
    have hpartsize : partsize ino (init s partsizes) =
        .ok (sizes partsizes ino) (init s partsizes) := by
      change (match partsizes[ino]? with
        | some size => pure size
        | none => throw .undefined : EStateM Stop (State σ) Nat) (init s partsizes) = _
      rw [hsize]
      rfl
    rw [if_neg hino]
    change ((partsize ino) >>= _) (init s partsizes) = _
    rw [bind_ok hpartsize]
    by_cases hoffset : offset < sizes partsizes ino
    · rw [if_neg (Nat.not_le.mpr hoffset), if_pos hoffset]
      rfl
    · rw [if_pos (Nat.not_lt.mp hoffset), if_neg hoffset]
      rfl

theorem perform_outside {call : Transfer β} (hlength : partsizes.length < 2 ^ 32)
    (h : call.target ∉ blocksOf (sizes partsizes)) :
    call.request.perform (partdisk below) (init s partsizes) =
      .ok call.failure (init s partsizes) := by
  cases call with
  | read ino offset =>
    have hout : ¬ offset < sizes partsizes ino := h
    have hread := guarded_eq s ino offset none (below.read 0) hlength
    rw [if_neg hout] at hread
    exact bind_ok hread _
  | write ino offset block =>
    have hout : ¬ offset < sizes partsizes ino := h
    have hwrite := guarded_eq s ino offset (-1)
      (below.write 0 · block) hlength
    rw [if_neg hout] at hwrite
    exact bind_ok hwrite _

end

/-- The partitions in the state, as `arrays`. -/
def Holds (fs : FixedStore β σ) (partsizes : List Nat) (ps : State σ)
    (arrays : Nat × Nat → β) : Prop :=
  ∃ s, ps = init s partsizes ∧ fs.Good s ∧
    Laid (blocksOf (sizes partsizes)) (position partsizes) (fs.view s 0) arrays

section

variable {fs : FixedStore β σ} {partsizes : List Nat}

theorem holds_keeps (hlength : partsizes.length < 2 ^ 32) (hsum : partsizes.sum ≤ fs.sizes 0) :
    Keeps (partdisk fs.toBlockStore) (sizes partsizes) (Holds fs partsizes) := by
  have hsum' : partsizes.sum < 2 ^ 32 := Nat.lt_of_le_of_lt hsum (fs.sizes_lt 0)
  have hbelow : ∀ {ino offset}, offset < sizes partsizes ino →
      position partsizes (ino, offset) < fs.sizes 0 :=
    fun hin => Nat.lt_of_lt_of_le (position_lt hsum' hin) hsum
  constructor
  · intro ps arrays ino offset h hin
    obtain ⟨s, rfl, hgood, hlaid⟩ := h
    have hblock : fs.view s 0 (position partsizes (ino, offset)) = arrays (ino, offset) :=
      hlaid.get hin
    obtain ⟨s', hread, hgood', hview⟩ := fs.read_ok hgood (hbelow hin)
    have hrun := guarded_eq s ino offset none (fs.read 0) hlength
    rw [if_pos hin, onBelow, onPart_ok hread, hblock] at hrun
    exact ⟨_, hrun, s', rfl, hgood', by rw [hview]; exact hlaid⟩
  · intro ps arrays ino offset h hout
    obtain ⟨s, rfl, hgood, hlaid⟩ := h
    have hrun := guarded_eq s ino offset none (fs.read 0) hlength
    rw [if_neg hout] at hrun
    exact ⟨_, hrun, s, rfl, hgood, hlaid⟩
  · intro ps arrays ino offset h hin block
    obtain ⟨s, rfl, hgood, hlaid⟩ := h
    obtain ⟨s', hwrite, hgood', hview⟩ := fs.write_ok hgood (hbelow hin) block
    have hrun := guarded_eq s ino offset (-1) (fs.write 0 · block) hlength
    rw [if_pos hin, onBelow, onPart_ok hwrite] at hrun
    refine ⟨_, hrun, s', rfl, hgood', ?_⟩
    rw [hview, setBlock_inode]
    exact hlaid.update (position_injOn hsum') hin block
  · intro ps arrays ino offset h hout block
    obtain ⟨s, rfl, hgood, hlaid⟩ := h
    have hrun := guarded_eq s ino offset (-1) (fs.write 0 · block) hlength
    rw [if_neg hout] at hrun
    exact ⟨_, hrun, s, rfl, hgood, hlaid⟩

end

/-- For partition sizes that add up to no more than the size of the store below, no two blocks of
the partitions lie in one block below, all lie inside it, any reads and writes find the partitions
to be independent arrays, and whatever is out of range fails without a call below. -/
theorem partitions_isolated (fs : FixedStore β σ) (partsizes : List Nat)
    (hlength : partsizes.length < 2 ^ 32) (hsum : partsizes.sum ≤ fs.sizes 0) :
    Set.InjOn (position partsizes) (blocksOf (sizes partsizes)) ∧
    Set.MapsTo (position partsizes) (blocksOf (sizes partsizes)) (Set.Iio (fs.sizes 0)) ∧
    (∀ s, fs.Good s → IsArrays (partdisk fs.toBlockStore) (sizes partsizes)
      (fs.view s 0 ∘ position partsizes) (init s partsizes)) ∧
    ∀ (call : Transfer β) (s : σ), call.target ∉ blocksOf (sizes partsizes) →
      call.request.perform (partdisk fs.toBlockStore) (init s partsizes) =
        .ok call.failure (init s partsizes) := by
  have hsum' : partsizes.sum < 2 ^ 32 := Nat.lt_of_le_of_lt hsum (fs.sizes_lt 0)
  refine ⟨position_injOn hsum', ?_, ?_, ?_⟩
  · intro p hp
    exact Nat.lt_of_lt_of_le (position_lt hsum' hp) hsum
  · intro s hgood
    apply (holds_keeps hlength hsum).isArrays
    exact ⟨s, rfl, hgood, Laid.of_place _ _ _⟩
  · intro call s hout
    exact perform_outside hlength hout

/-- Three partitions, as in the comment on `partdisk_init`. -/
theorem partitions_isolated_three :
    Set.InjOn (position [10, 4, 10]) (blocksOf (sizes [10, 4, 10])) ∧
    Set.MapsTo (position [10, 4, 10]) (blocksOf (sizes [10, 4, 10])) (Set.Iio 24) ∧
    (∀ s : Ramdisk.State Nat, s.nblocks = 24 →
      IsArrays (partdisk Ramdisk.ramdisk) (sizes [10, 4, 10])
        (s.blocks ∘ position [10, 4, 10]) (init s [10, 4, 10])) ∧
    ∀ (call : Transfer Nat) (s : Ramdisk.State Nat),
      call.target ∉ blocksOf (sizes [10, 4, 10]) →
      call.request.perform (partdisk Ramdisk.ramdisk) (init s [10, 4, 10]) =
        .ok call.failure (init s [10, 4, 10]) :=
  partitions_isolated (Ramdisk.fixed Nat 24 (by decide)) [10, 4, 10] (by decide) (by decide)

example : position [10, 4, 10] (2, 7) = 21 := by decide

end Egos.Disk.Partdisk
