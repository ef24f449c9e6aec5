import Mathlib.Data.Nat.ModEq
import Mathlib.Order.Interval.Set.Defs
import Egos.Disk.Arrays
import Egos.Disk.Ramdisk

/-!
# The striping disk `raid0disk.c`

Consecutive blocks lie on consecutive stores below, all of one size.
-/
namespace Egos.Disk.Raid0disk

open Egos.Lib

set_option autoImplicit false

variable {β σ : Type}

/-- `struct raid0disk_state`, with the states of the stores below. -/
structure State (σ : Type) where
  below : Nat → σ
  nbelow : Nat

/-- A call on `rds->below[i]`, which is there for an `i` below `nbelow`. -/
def onStore {α : Type} (i : Int) (m : Nat → EStateM Stop σ α) : EStateM Stop (State σ) α := do
  if 0 ≤ i ∧ i < (← get).nbelow then
    onPart (fun rds => rds.below i.toNat)
      (fun rds s => { rds with below := Function.update rds.below i.toNat s }) (m i.toNat)
  else throw .undefined

/-- `offset % rds->nbelow` as the C int `i`, and `offset / rds->nbelow`. -/
def stripe (offset : Nat) : EStateM Stop (State σ) (Int × Nat) := do
  let nbelow := (← get).nbelow
  if nbelow = 0 then
    throw .undefined
  return (toInt (offset % nbelow), offset / nbelow)

section

variable (below : Nat → BlockStore β σ)

def getninodes : EStateM Stop (State σ) Int := pure 1

/-- The loop of `raid0disk_getsize`, with `n` rounds to go; it asks the first store each time. -/
def totalSize (ino : Nat) : (n : Nat) → (total : Int) → EStateM Stop (State σ) Int
  | 0, total => pure total
  | n + 1, total => do
    let r ← onStore 0 fun i => (below i).getsize ino
    if r < 0 then
      return r
    if total + r < 2 ^ 31 then totalSize ino n (total + r) else throw .undefined

def getsize (ino : Nat) : EStateM Stop (State σ) Int := do
  if ino ≠ 0 then
    return -1
  totalSize below ino (← get).nbelow 0

/-- Not implemented. -/
def setsize (_ino _nblocks : Nat) : EStateM Stop (State σ) Int := pure (-1)

def read (ino offset : Nat) : EStateM Stop (State σ) (Option β) := do
  if ino ≠ 0 then
    return none
  let (i, offset) ← stripe offset
  onStore i fun i => (below i).read ino offset

def write (ino offset : Nat) (block : β) : EStateM Stop (State σ) Int := do
  if ino ≠ 0 then
    return -1
  let (i, offset) ← stripe offset
  onStore i fun i => (below i).write ino offset block

/-- The loop of `raid0disk_sync`, from store `i` on. -/
def syncLoop (ino : Nat) : (n i : Nat) → EStateM Stop (State σ) Int
  | 0, _ => pure 0
  | n + 1, i => do
    let r ← onStore i fun i => (below i).sync ino
    if r < 0 then
      return -1
    syncLoop ino n (i + 1)

def sync (ino : Nat) : EStateM Stop (State σ) Int := do
  syncLoop below ino (← get).nbelow 0

/-- The interface `raid0disk_init` returns. -/
def raid0disk : BlockStore β (State σ) where
  getninodes := getninodes
  getsize := getsize below
  setsize := setsize
  read := read below
  write := write below
  sync := sync below

end

/-- `raid0disk_init` -/
def init (below : Nat → σ) (nbelow : Nat) : State σ := ⟨below, nbelow⟩

/-! ## Stripes -/

/-- The store of a block, and its offset there. -/
def place (n : Nat) (offset : Nat) : Nat × Nat := (offset % n, offset / n)

/-- Over any `n` stores of `size` blocks the disk is one array of `n * size` blocks. -/
def Flat (n size : Nat) : Prop :=
  Set.BijOn (place n) (Set.Iio (n * size)) { p | p.1 < n ∧ p.2 < size } ∧
  ∀ (β σ : Type) (below : Nat → FlatStore β σ) (states : Nat → σ),
    (∀ i, i < n → (below i).size = size ∧ (below i).Good (states i)) →
    (∃ rds, getsize (fun i => (below i).toBlockStore) 0 (init states n) =
      .ok ((n * size : Nat) : Int) rds) ∧
    IsArrays (raid0disk fun i => (below i).toBlockStore) (flatSizes (n * size))
      (fun p => (below (place n p.2).1).view (states (place n p.2).1) (place n p.2).2)
      (init states n)

section

variable {n size offset : Nat}

theorem place_injective (n : Nat) : Function.Injective (place n) := by
  intro a b h
  have hmod : a % n = b % n := (Prod.mk.inj h).1
  have hdiv : a / n = b / n := (Prod.mk.inj h).2
  rw [← Nat.div_add_mod a n, ← Nat.div_add_mod b n, hmod, hdiv]

theorem div_lt_iff (hn : 1 ≤ n) : offset / n < size ↔ offset < n * size := by
  rw [Nat.div_lt_iff_lt_mul hn, Nat.mul_comm]

theorem le_div_of_outside (hn : 1 ≤ n) (h : ¬ offset < flatSizes (n * size) 0) :
    size ≤ offset / n :=
  Nat.not_lt.mp fun hlt => h (lt_flatSizes.mpr ⟨rfl, (div_lt_iff hn).mp hlt⟩)

theorem place_bijOn (hn : 1 ≤ n) (size : Nat) :
    Set.BijOn (place n) (Set.Iio (n * size)) { p | p.1 < n ∧ p.2 < size } := by
  refine ⟨?_, (place_injective n).injOn, ?_⟩
  · intro offset h
    exact ⟨Nat.mod_lt _ hn, (div_lt_iff hn).mpr h⟩
  · intro p h
    obtain ⟨i, offset⟩ := p
    obtain ⟨hi, hoffset⟩ := h
    have hplace : place n (i + n * offset) = (i, offset) := by
      unfold place
      rw [Nat.add_mul_mod_self_left, Nat.mod_eq_of_lt hi, Nat.add_mul_div_left _ _ hn,
        Nat.div_eq_of_lt hi, Nat.zero_add]
    refine ⟨i + n * offset, ?_, hplace⟩
    have hdiv : (i + n * offset) / n = offset := congrArg Prod.snd hplace
    exact (div_lt_iff hn).mp (by rw [hdiv]; exact hoffset)

end

/-! ## Reads and writes -/

section

variable {rds : State σ} {i : Nat}

theorem onStore_eq {α : Type} {m : Nat → EStateM Stop σ α} {a : α} {s : σ}
    (h : i < rds.nbelow) (hm : m i (rds.below i) = .ok a s) :
    onStore (i : Int) m rds = .ok a { rds with below := Function.update rds.below i s } := by
  have hint : (i : Int) < rds.nbelow := Int.ofNat_lt.mpr h
  change (if 0 ≤ (i : Int) ∧ (i : Int) < rds.nbelow then _ else _ : EStateM Stop (State σ) α) rds = _
  rw [if_pos ⟨Int.natCast_nonneg i, hint⟩, Int.toNat_natCast]
  exact onPart_ok hm

theorem stripe_eq {offset : Nat} (hn : 1 ≤ rds.nbelow) (hn' : rds.nbelow ≤ 2 ^ 31) :
    stripe offset rds = .ok (((offset % rds.nbelow : Nat) : Int), offset / rds.nbelow) rds := by
  have hmod : offset % rds.nbelow < rds.nbelow := Nat.mod_lt _ hn
  change (if rds.nbelow = 0 then _ else
    pure (toInt (offset % rds.nbelow), offset / rds.nbelow) : EStateM Stop (State σ) _) rds = _
  rw [if_neg (Nat.ne_of_gt hn), toInt_eq (Nat.lt_of_lt_of_le hmod hn')]
  rfl

theorem striped_eq {α : Type} (call : Nat → Nat → EStateM Stop σ α) {offset : Nat} {a : α} {s : σ}
    (hn : 1 ≤ rds.nbelow) (hn' : rds.nbelow ≤ 2 ^ 31)
    (hcall : call (offset % rds.nbelow) (offset / rds.nbelow)
      (rds.below (offset % rds.nbelow)) = .ok a s) :
    (do
      let (i, offset) ← stripe offset
      onStore i fun i => call i offset : EStateM Stop (State σ) α) rds =
      .ok a { rds with below := Function.update rds.below (offset % rds.nbelow) s } := by
  rw [bind_ok (stripe_eq hn hn')]
  exact onStore_eq (m := fun i => call i (offset / rds.nbelow)) (Nat.mod_lt _ hn) hcall

end

/-- What the stores hold: for each of them, and each offset, a block. -/
def cells (below : Nat → FlatStore β σ) (states : Nat → σ) (p : Nat × Nat) : β :=
  (below p.1).view (states p.1) p.2

/-- The stores hold the blocks of inode 0 of `arrays`. -/
def Holds (below : Nat → FlatStore β σ) (n size : Nat) (rds : State σ) (arrays : Nat × Nat → β) :
    Prop :=
  rds.nbelow = n ∧ (∀ i, i < n → (below i).Good (rds.below i)) ∧
    Laid (blocksOf (flatSizes (n * size))) (fun p => place n p.2) (cells below rds.below) arrays

section

variable {below : Nat → FlatStore β σ} {n size i : Nat} {rds : State σ} {arrays : Nat × Nat → β}
  {s : σ}

theorem cells_update {k : Nat} {block : β}
    (h : (below i).view s = Function.update ((below i).view (rds.below i)) k block) :
    cells below (Function.update rds.below i s) =
      Function.update (cells below rds.below) (i, k) block := by
  funext p
  obtain ⟨j, o⟩ := p
  unfold cells
  dsimp only
  by_cases hj : j = i
  · subst hj
    rw [Function.update_self, h]
    by_cases ho : o = k
    · subst ho
      rw [Function.update_self, Function.update_self]
    · rw [Function.update_of_ne ho, Function.update_of_ne fun heq => ho (Prod.mk.inj heq).2]
  · rw [Function.update_of_ne hj, Function.update_of_ne fun heq => hj (Prod.mk.inj heq).1]

theorem cells_same (h : (below i).view s = (below i).view (rds.below i)) :
    cells below (Function.update rds.below i s) = cells below rds.below := by
  have hself : (below i).view s = Function.update ((below i).view (rds.below i)) 0
      ((below i).view (rds.below i) 0) := by
    rw [Function.update_eq_self]
    exact h
  rw [cells_update hself]
  exact Function.update_eq_self (i, 0) (cells below rds.below)

theorem good_update (h : ∀ j, j < n → (below j).Good (rds.below j)) (hs : (below i).Good s) :
    ∀ j, j < n → (below j).Good (Function.update rds.below i s j) := by
  intro j hj
  by_cases heq : j = i
  · subst heq
    rw [Function.update_self]
    exact hs
  · rw [Function.update_of_ne heq]
    exact h j hj

theorem place_injOn (n size : Nat) :
    Set.InjOn (fun p : Nat × Nat => place n p.2) (blocksOf (flatSizes (n * size))) := by
  intro p hp q hq h
  obtain ⟨hp0, -⟩ := lt_flatSizes.mp hp
  obtain ⟨hq0, -⟩ := lt_flatSizes.mp hq
  exact Prod.ext (hp0.trans hq0.symm) (place_injective n h)

theorem Holds.same (h : Holds below n size rds arrays) (hs : (below i).Good s)
    (hview : (below i).view s = (below i).view (rds.below i)) :
    Holds below n size { rds with below := Function.update rds.below i s } arrays := by
  obtain ⟨hnbelow, hgood, hlaid⟩ := h
  refine ⟨hnbelow, good_update hgood hs, ?_⟩
  rw [cells_same hview]
  exact hlaid

variable (hn : 1 ≤ n) (hn' : n ≤ 2 ^ 31) (hsizes : ∀ i, i < n → (below i).size = size)
  {ino offset : Nat}

include hn hsizes

theorem Holds.inside (h : Holds below n size rds arrays) (hin : offset < flatSizes (n * size) ino) :
    ino = 0 ∧ (below (offset % rds.nbelow)).Good (rds.below (offset % rds.nbelow)) ∧
      offset / rds.nbelow < (below (offset % rds.nbelow)).size := by
  obtain ⟨rfl, hgood, -⟩ := h
  obtain ⟨hino, hoffset⟩ := lt_flatSizes.mp hin
  have hi : offset % rds.nbelow < rds.nbelow := Nat.mod_lt _ hn
  refine ⟨hino, hgood _ hi, ?_⟩
  rw [hsizes _ hi]
  exact (div_lt_iff hn).mpr hoffset

theorem Holds.outside (h : Holds below n size rds arrays)
    (hout : ¬ offset < flatSizes (n * size) 0) :
    (below (offset % rds.nbelow)).Good (rds.below (offset % rds.nbelow)) ∧
      (below (offset % rds.nbelow)).size ≤ offset / rds.nbelow := by
  obtain ⟨rfl, hgood, -⟩ := h
  have hi : offset % rds.nbelow < rds.nbelow := Nat.mod_lt _ hn
  refine ⟨hgood _ hi, ?_⟩
  rw [hsizes _ hi]
  exact le_div_of_outside hn hout

include hn'

theorem holds_keeps :
    Keeps (raid0disk fun i => (below i).toBlockStore) (flatSizes (n * size))
      (Holds below n size) := by
  constructor
  · intro rds arrays ino offset h hin
    obtain ⟨rfl, hgood, hlt⟩ := h.inside hn hsizes hin
    have hmem : (0, offset) ∈ blocksOf (flatSizes (n * size)) := hin
    obtain ⟨s, hread, hs, hview⟩ := (below _).read_ok hgood hlt
    have hblock : (below (offset % rds.nbelow)).view (rds.below (offset % rds.nbelow))
        (offset / rds.nbelow) = arrays (0, offset) := by
      obtain ⟨rfl, -, hlaid⟩ := h
      exact hlaid.get hmem
    rw [hblock] at hread
    have hrun := striped_eq (fun i => (below i).read 0) (h.1 ▸ hn) (h.1 ▸ hn') hread
    exact ⟨_, hrun, h.same hs hview⟩
  · intro rds arrays ino offset h hout
    by_cases hino : ino = 0
    · subst hino
      obtain ⟨hgood, hle⟩ := h.outside hn hsizes hout
      obtain ⟨s, hread, hs, hview⟩ := (below _).read_fail hgood hle
      have hrun := striped_eq (fun i => (below i).read 0) (h.1 ▸ hn) (h.1 ▸ hn') hread
      exact ⟨_, hrun, h.same hs hview⟩
    · refine ⟨rds, ?_, h⟩
      change (if ino ≠ 0 then pure none else _ : EStateM Stop (State σ) (Option β)) rds = _
      rw [if_pos hino]
      rfl
  · intro rds arrays ino offset h hin block
    obtain ⟨rfl, hgood, hlt⟩ := h.inside hn hsizes hin
    have hmem : (0, offset) ∈ blocksOf (flatSizes (n * size)) := hin
    obtain ⟨s, hwrite, hs, hview⟩ := (below _).write_ok hgood hlt block
    obtain ⟨rfl, hall, hlaid⟩ := h
    have hrun := striped_eq (fun i offset => (below i).write 0 offset block) hn hn' hwrite
    refine ⟨_, hrun, rfl, good_update hall hs, ?_⟩
    rw [cells_update hview]
    exact hlaid.update (place_injOn rds.nbelow size) hmem block
  · intro rds arrays ino offset h hout block
    by_cases hino : ino = 0
    · subst hino
      obtain ⟨hgood, hle⟩ := h.outside hn hsizes hout
      obtain ⟨s, hwrite, hs, hview⟩ := (below _).write_fail hgood hle block
      have hrun := striped_eq (fun i offset => (below i).write 0 offset block) (h.1 ▸ hn)
        (h.1 ▸ hn') hwrite
      exact ⟨_, hrun, h.same hs hview⟩
    · refine ⟨rds, ?_, h⟩
      change (if ino ≠ 0 then pure (-1) else _ : EStateM Stop (State σ) Int) rds = _
      rw [if_pos hino]
      rfl

end

/-! ## The size -/

/-- The loop counts the size of the first store once for each round. -/
theorem totalSize_eq (below : Nat → FlatStore β σ) {size : Nat} (m total : Nat) {rds : State σ}
    (hn : 1 ≤ rds.nbelow)
    (hsize : (below 0).size = size) (hgood : (below 0).Good (rds.below 0))
    (hsum : total + m * size < 2 ^ 31) :
    ∃ rds', totalSize (fun i => (below i).toBlockStore) 0 m (total : Int) rds =
      .ok ((total + m * size : Nat) : Int) rds' := by
  induction m generalizing total rds with
  | zero =>
    rw [Nat.zero_mul]
    exact ⟨rds, rfl⟩
  | succ m ih =>
    rw [Nat.succ_mul] at hsum
    obtain ⟨s, hget, hs, -⟩ := (below 0).getsize_ok hgood
    rw [hsize] at hget
    have hfirst : onStore 0 (fun i => (below i).getsize 0) rds =
        .ok (size : Int) { rds with below := Function.update rds.below 0 s } :=
      onStore_eq (m := fun i => (below i).getsize 0) hn hget
    have hs' : (below 0).Good (Function.update rds.below 0 s 0) := by
      rw [Function.update_self]
      exact hs
    have hrest := @ih (total + size) { rds with below := Function.update rds.below 0 s } hn hs'
      (by omega)
    obtain ⟨rds', hrun⟩ := hrest
    refine ⟨rds', ?_⟩
    change (onStore 0 (fun i => (below i).getsize 0) >>= _) rds = _
    rw [bind_ok hfirst, if_neg (by omega)]
    rw [if_pos (by omega), ← Int.natCast_add, hrun, Nat.succ_mul, Nat.add_assoc, Nat.add_comm size]

/-- Stores of no blocks, which reject all calls. -/
def rejecting : FlatStore Unit Unit where
  getninodes := pure 1
  getsize _ := pure 0
  setsize _ _ := pure (-1)
  read _ _ := pure none
  write _ _ _ := pure (-1)
  sync _ := pure 0
  size := 0
  Good _ := True
  view _ _ := ()
  getsize_ok _ := ⟨(), rfl, trivial, rfl⟩
  read_ok _ h := absurd h (Nat.not_lt_zero _)
  read_fail _ _ := ⟨(), rfl, trivial, rfl⟩
  write_ok _ h := absurd h (Nat.not_lt_zero _)
  write_fail _ _ _ := ⟨(), rfl, trivial, rfl⟩

/-- With more than `2 ^ 31` stores the C int `i` becomes negative. -/
theorem not_flat {n : Nat} (hn : 2 ^ 31 < n) (hword : n < 2 ^ 32) : ¬ Flat n 0 := by
  intro h
  obtain ⟨-, harrays⟩ := h.2 Unit Unit (fun _ => rejecting) (fun _ => ()) (fun _ _ => ⟨rfl, trivial⟩)
  obtain ⟨rds, hread⟩ := harrays.perform (.read 0 (2 ^ 31))
  have hmod : 2 ^ 31 % n = 2 ^ 31 := Nat.mod_eq_of_lt hn
  have hstripe : stripe (2 ^ 31) (init (fun _ => ()) n) =
      .ok (-(2 ^ 31), 2 ^ 31 / n) (init (fun _ => ()) n) := by
    change (if n = 0 then _ else pure (toInt (2 ^ 31 % n), 2 ^ 31 / n) :
      EStateM Stop (State Unit) _) _ = _
    rw [if_neg (by omega), hmod]
    rfl
  have hstop : read (fun _ => rejecting.toBlockStore) 0 (2 ^ 31) (init (fun _ => ()) n) =
      .error .undefined (init (fun _ => ()) n) := by
    change (stripe (2 ^ 31) >>= _) (init (fun _ => ()) n) = _
    rw [bind_ok hstripe]
    rfl
  cases (bind_error hstop fun r => pure (Answer.block r)).symm.trans hread

/-- `n` stores of `size` blocks are one flat array of `n * size`, unless the stores are empty and
so many that their numbers do not fit into a C int. -/
theorem flat_iff {n size : Nat} (hn : 1 ≤ n) (hword : n < 2 ^ 32) (hsize : n * size < 2 ^ 31) :
    Flat n size ↔ n ≤ 2 ^ 31 ∨ 0 < size := by
  constructor
  · intro h
    by_contra hnot
    obtain ⟨hlt, hzero⟩ := not_or.mp hnot
    obtain rfl : size = 0 := Nat.eq_zero_of_not_pos hzero
    exact not_flat (Nat.not_le.mp hlt) hword h
  · intro h
    have hn' : n ≤ 2 ^ 31 := by
      rcases h with hle | hpos
      · exact hle
      · exact Nat.le_of_lt (Nat.lt_of_le_of_lt (Nat.le_mul_of_pos_right n hpos) hsize)
    refine ⟨place_bijOn hn size, ?_⟩
    intro β σ below states hbelow
    constructor
    · have hrun := @totalSize_eq _ _ below size n 0 (init states n) hn (hbelow 0 hn).1
        (hbelow 0 hn).2 (by omega)
      rw [Nat.zero_add] at hrun
      exact hrun
    · apply (holds_keeps hn hn' fun i hi => (hbelow i hi).1).isArrays
      exact ⟨rfl, fun i hi => (hbelow i hi).2, Laid.of_place _ _ (cells below states)⟩

/-- A ramdisk of `size` blocks. -/
def ramdisks (β : Type) (size : Nat) (h : size < 2 ^ 31) : FlatStore β (Ramdisk.State β) where
  toBlockStore := Ramdisk.ramdisk
  size := size
  Good rs := rs.nblocks = size
  view := Ramdisk.State.blocks
  getsize_ok := by
    intro rs hgood
    subst hgood
    refine ⟨rs, ?_, rfl, rfl⟩
    change EStateM.Result.ok (toInt rs.nblocks) rs = _
    rw [toInt_eq h]
  read_ok := by
    intro rs offset hgood hlt
    exact ⟨rs, Ramdisk.read_of_lt (hgood ▸ hlt), hgood, rfl⟩
  read_fail := by
    intro rs offset hgood hle
    subst hgood
    refine ⟨rs, ?_, rfl, rfl⟩
    change (if rs.nblocks ≤ offset then _ else _ : EStateM Stop _ (Option β)) rs = _
    rw [if_pos hle]
    rfl
  write_ok := by
    intro rs offset hgood hlt block
    exact ⟨_, Ramdisk.write_of_lt (hgood ▸ hlt) block, hgood, rfl⟩
  write_fail := by
    intro rs offset hgood hle block
    subst hgood
    refine ⟨rs, ?_, rfl, rfl⟩
    change (if rs.nblocks ≤ offset then _ else _ : EStateM Stop _ Int) rs = _
    rw [if_pos hle]
    rfl

/-- Two ramdisks of twelve blocks, where every block holds its offset. -/
theorem flat_iff_pair :
    (∃ rds, getsize (fun _ => Ramdisk.ramdisk) 0 (init (fun _ => ⟨id, 12⟩) 2) = .ok 24 rds) ∧
    IsArrays (raid0disk fun _ => Ramdisk.ramdisk) (flatSizes 24) (fun p => p.2 / 2)
      (init (fun _ => ⟨id, 12⟩) 2) :=
  ((flat_iff (by decide) (by decide) (by decide)).mpr (.inr (by decide))).2 Nat _
    (fun _ => ramdisks Nat 12 (by decide)) (fun _ => ⟨id, 12⟩) fun _ _ => ⟨rfl, rfl⟩

/-- Too many empty stores. -/
theorem flat_not_empty : ¬ Flat (2 ^ 31 + 1) 0 :=
  not_flat (Nat.lt_succ_self _) (by decide)

end Egos.Disk.Raid0disk
