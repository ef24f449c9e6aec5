import Egos.Disk.Ramdisk
import Egos.Disk.Slots

/-!
# The write-back cache is transparent over a store of fixed sizes

`Reflects fs cs ref` ties a cache state to the contents `ref` that the store would
have without the cache: a live slot holds the block of `ref`, a clean one also
agrees with the store below, no block is cached twice, and a block that is not
cached is up to date below. Every in-range call keeps it. The calls of a bare
store update `ref` directly, so the two runs return the same blocks.
-/
namespace Egos.Disk.Clockdisk

open Egos.Lib

set_option autoImplicit false

variable {β σ : Type} {n : Nat}

structure Reflects (fs : FixedStore β σ) (cs : State β σ n) (ref : Nat → Nat → β) : Prop where
  good : fs.Good cs.below
  unique : ∀ i j, (cs.slots i).Live → (cs.slots j).Holds (cs.slots i).ino (cs.slots i).offset → i = j
  clean : ∀ i, (cs.slots i).Live → (cs.slots i).dirty = false →
    (cs.slots i).block = fs.view cs.below (cs.slots i).ino (cs.slots i).offset
  range : ∀ i, (cs.slots i).Live → (cs.slots i).offset < fs.sizes (cs.slots i).ino
  cached : ∀ i, (cs.slots i).Live → (cs.slots i).block = ref (cs.slots i).ino (cs.slots i).offset
  absent : ∀ ino offset, (∀ i, ¬(cs.slots i).Holds ino offset) →
    fs.view cs.below ino offset = ref ino offset

theorem reflects_init (fs : FixedStore β σ) {below : σ} (hb : fs.Good below)
    (blocks : Fin (n + 1) → β) : Reflects fs (init below blocks) (fs.view below) where
  good := hb
  unique := fun _ _ hi _ => absurd rfl hi
  clean := fun _ hi _ => absurd rfl hi
  range := fun _ hi => absurd rfl hi
  cached := fun _ hi => absurd rfl hi
  absent := fun _ _ _ => rfl

/-- In-range calls on a store of fixed sizes neither stop nor fail. -/
def fixedBacking (fs : FixedStore β σ) : Backing β σ where
  toBlockStore := fs.toBlockStore
  view := fs.view
  Good := fs.Good
  Range := fun ino offset => offset < fs.sizes ino
  ReadFails := False
  WriteStops := False
  outcome_read := fun h _ _ hr => FixedStore.outcome_read h hr fun _ hg hv => ⟨.inl rfl, hg, hv⟩
  outcome_write := fun h _ _ hr block => FixedStore.outcome_write h hr block fun _ hg hv => ⟨hg, hv⟩
  outcome_sync := fun h ino => FixedStore.outcome_sync h ino fun _ _ hg hv => ⟨hg, hv⟩

section Calls

variable {fs : FixedStore β σ} {cs : State β σ n} {ref : Nat → Nat → β}

theorem Reflects.serves (h : Reflects fs cs ref) : Serves (fixedBacking fs) cs ref :=
  ⟨h.good, h.range, h.unique, h.clean, h.cached, h.absent⟩

theorem Serves.reflects (h : Serves (fixedBacking fs) cs ref) : Reflects fs cs ref :=
  ⟨h.good, h.shows.unique, h.shows.clean, h.range, h.shows.cached, h.shows.absent⟩

theorem outcome_read (h : Reflects fs cs ref) {ino offset : Nat} (hr : offset < fs.sizes ino) :
    Outcome (read fs.toBlockStore ino offset)
      (fun r cs' => r = some (ref ino offset) ∧ Reflects fs cs' ref) (fun _ _ => False) cs := by
  refine (h.serves.outcome_read hr).post ?_
  rintro r cs' ⟨rfl | ⟨-, hfail⟩, h'⟩
  · exact ⟨rfl, h'.reflects⟩
  · exact hfail.elim

theorem outcome_write (h : Reflects fs cs ref) {ino offset : Nat} (hr : offset < fs.sizes ino)
    (block : β) :
    Outcome (write fs.toBlockStore ino offset block)
      (fun r cs' => r = 0 ∧ Reflects fs cs' (setBlock ref ino offset block))
      (fun _ _ => False) cs := by
  refine (h.serves.outcome_write hr block).post ?_
  rintro r cs' ⟨hr, h'⟩
  exact ⟨hr, h'.reflects⟩

theorem outcome_sync (h : Reflects fs cs ref) (ino : Nat) :
    Outcome (sync fs.toBlockStore ino)
      (fun _ cs' => Reflects fs cs' ref ∧ ∀ i, i = ino ∨ ino = allInodes →
        ∀ offset, fs.view cs'.below i offset = ref i offset) (fun _ _ => False) cs := by
  refine (h.serves.outcome_sync ino).post ?_
  rintro r cs' ⟨h', hsync⟩
  exact ⟨h'.reflects, hsync⟩

end Calls


/-- The calls the cache serves besides sizes. -/
inductive Call (β : Type) where
  | read (ino offset : Nat)
  | write (ino offset : Nat) (block : β)
  | sync (ino : Nat)

def Call.InRange (fs : FixedStore β σ) : Call β → Prop
  | .read ino offset => offset < fs.sizes ino
  | .write ino offset _ => offset < fs.sizes ino
  | .sync _ => True

/-- The block a call returns; writes and syncs return none. -/
def perform (bs : BlockStore β σ) : Call β → EStateM Stop σ (Option β)
  | .read ino offset => bs.read ino offset
  | .write ino offset block => do
    let _ ← bs.write ino offset block
    pure none
  | .sync ino => do
    let _ ← bs.sync ino
    pure none

def run (bs : BlockStore β σ) : List (Call β) → EStateM Stop σ (List (Option β))
  | [] => pure []
  | call :: calls => do
    let result ← perform bs call
    let results ← run bs calls
    pure (result :: results)

/-- The store below agrees with the bare store on the inodes a final sync names. -/
def Synced (fs : FixedStore β σ) (cs : State β σ n) (s : σ) : Call β → Prop
  | .sync ino => ∀ i, i = ino ∨ ino = allInodes →
      ∀ offset, fs.view cs.below i offset = fs.view s i offset
  | _ => True

theorem perform_step {fs : FixedStore β σ} {cs : State β σ n} {s : σ}
    (h : Reflects fs cs (fs.view s)) (hs : fs.Good s) {call : Call β} (hr : call.InRange fs) :
    ∃ result cs' s', perform (clockdisk fs.toBlockStore) call cs = .ok result cs' ∧
      perform fs.toBlockStore call s = .ok result s' ∧
      Reflects fs cs' (fs.view s') ∧ fs.Good s' ∧ Synced fs cs' s' call := by
  cases call with
  | read ino offset =>
    obtain ⟨s', he, hg, hv⟩ := fs.read_ok hs hr
    obtain ⟨result, cs', hc, rfl, h'⟩ := (outcome_read h hr).exists_ok
    exact ⟨_, cs', s', hc, he, hv ▸ h', hg, trivial⟩
  | write ino offset block =>
    obtain ⟨s', he, hg, hv⟩ := fs.write_ok hs hr block
    obtain ⟨code, cs', hc, -, h'⟩ := (outcome_write h hr block).exists_ok
    refine ⟨none, cs', s', ?_, ?_, hv ▸ h', hg, trivial⟩
    · change (write fs.toBlockStore ino offset block >>= fun _ => pure none) cs = _
      simp [bind, EStateM.bind, hc, pure, EStateM.pure]
    · simp [perform, bind, EStateM.bind, he, pure, EStateM.pure]
  | sync ino =>
    obtain ⟨code, s', he, hg, hv⟩ := fs.sync_ok hs ino
    obtain ⟨code', cs', hc, h', hsync⟩ := (outcome_sync h ino).exists_ok
    refine ⟨none, cs', s', ?_, ?_, hv ▸ h', hg, ?_⟩
    · change (sync fs.toBlockStore ino >>= fun _ => pure none) cs = _
      simp [bind, EStateM.bind, hc, pure, EStateM.pure]
    · simp [perform, bind, EStateM.bind, he, pure, EStateM.pure]
    · intro i hi offset
      rw [hv]
      exact hsync i hi offset

theorem run_step {fs : FixedStore β σ} {calls : List (Call β)} (hr : ∀ c ∈ calls, c.InRange fs)
    {cs : State β σ n} {s : σ} (h : Reflects fs cs (fs.view s)) (hs : fs.Good s) :
    ∃ results cs' s', run (clockdisk fs.toBlockStore) calls cs = .ok results cs' ∧
      run fs.toBlockStore calls s = .ok results s' ∧
      ∀ call, calls.getLast? = some call → Synced fs cs' s' call := by
  induction calls generalizing cs s with
  | nil => exact ⟨[], cs, s, rfl, rfl, by simp⟩
  | cons call calls ih =>
    obtain ⟨result, cs₁, s₁, hc, hb, h₁, hs₁, hsync⟩ := perform_step h hs (hr call (by simp))
    obtain ⟨results, cs₂, s₂, hc₂, hb₂, hlast⟩ :=
      ih (fun c hm => hr c (List.mem_cons_of_mem _ hm)) h₁ hs₁
    refine ⟨result :: results, cs₂, s₂, ?_, ?_, ?_⟩
    · simp [run, bind, EStateM.bind, hc, hc₂, pure, EStateM.pure]
    · simp [run, bind, EStateM.bind, hb, hb₂, pure, EStateM.pure]
    · intro last hl
      cases calls with
      | nil =>
        rw [List.getLast?_singleton] at hl
        obtain rfl := Option.some.inj hl
        simp only [run, pure, EStateM.pure, EStateM.Result.ok.injEq] at hc₂ hb₂
        rw [← hc₂.2, ← hb₂.2]
        exact hsync
      | cons call' calls' =>
        rw [List.getLast?_cons_cons] at hl
        exact hlast last hl

/-- **Transparency of the write-back cache.** Whatever in-range calls are made, the
cache returns the blocks that the bare store returns for the same calls, and after
a final sync the store below holds what the bare store holds. -/
theorem cache_transparent (fs : FixedStore β σ) {below : σ} (hb : fs.Good below)
    (blocks : Fin (n + 1) → β) (calls : List (Call β)) (hr : ∀ c ∈ calls, c.InRange fs) :
    ∃ results cs s,
      run (clockdisk fs.toBlockStore) calls (init below blocks) = .ok results cs ∧
      run fs.toBlockStore calls below = .ok results s ∧
      ∀ ino, calls.getLast? = some (.sync ino) → ∀ i, i = ino ∨ ino = allInodes →
        ∀ offset, fs.view cs.below i offset = fs.view s i offset := by
  obtain ⟨results, cs, s, hc, hs, hlast⟩ := run_step hr (reflects_init fs hb blocks) hb
  exact ⟨results, cs, s, hc, hs, fun ino hl => hlast (.sync ino) hl⟩

/-- A ramdisk of four blocks under a cache of two slots: a block is written,
evicted by two other writes, read back and synced. -/
theorem cache_transparent_ramdisk :
    ∃ results cs s,
      run (clockdisk (Ramdisk.fixed Nat 4 (by decide)).toBlockStore)
        [.write 0 1 7, .write 0 2 8, .write 0 3 9, .read 0 1, .sync allInodes]
        (init (n := 1) ⟨fun _ => 0, 4⟩ fun _ => 0) = .ok results cs ∧
      run (Ramdisk.fixed Nat 4 (by decide)).toBlockStore
        [.write 0 1 7, .write 0 2 8, .write 0 3 9, .read 0 1, .sync allInodes]
        ⟨fun _ => 0, 4⟩ = .ok results s ∧
      ∀ ino, ([.write 0 1 7, .write 0 2 8, .write 0 3 9, .read 0 1, .sync allInodes] :
          List (Call Nat)).getLast? = some (.sync ino) → ∀ i, i = ino ∨ ino = allInodes →
        ∀ offset, (Ramdisk.fixed Nat 4 (by decide)).view cs.below i offset =
          (Ramdisk.fixed Nat 4 (by decide)).view s i offset :=
  cache_transparent (Ramdisk.fixed Nat 4 (by decide))
    (show (⟨fun _ => 0, 4⟩ : Ramdisk.State Nat).nblocks = 4 from rfl) _ _
    (by simp [Call.InRange, Ramdisk.fixed])

end Egos.Disk.Clockdisk
