import Egos.Disk.Stack
import Egos.Disk.Treedisk.Determined
import Egos.Disk.Wtclockdisk

/-!
# The write-through cache over a treedisk

The same calls are made on `wtclockdisk` over a treedisk and on a bare treedisk. Every
write reaches the treedisk below the cache at once, so both disks hold the same image
after each call, and a block in the cache is what the treedisk would return.
-/
namespace Egos.Disk.WriteThrough

open Egos.Lib Egos.Disk.Treedisk Egos.Disk.Stack
open Egos.Disk.Wtclockdisk hiding read write setsize sync getsize getninodes

set_option autoImplicit false

variable {g : Geometry} {σ : Type} {n : Nat}

/-- The inode is one of the treedisk, and offsets stay below the limit. -/
def Bounded (ninodes limit : Nat) {β : Type} : Call β → Prop
  | .read ino offset => ino < ninodes ∧ offset < limit
  | .write ino offset _ => ino < ninodes ∧ offset < limit
  | .getsize ino => ino < ninodes
  | .truncate ino => ino < ninodes
  | .sync _ => True

/-- What a read of the files returns: nothing behind the inodes or the end of a file. -/
def shown (ninodes : Nat) {β : Type} (files : Files β) (ino offset : Nat) : Option β :=
  if ino < ninodes then (files ino).read offset else none

theorem shown_of_lt {ninodes : Nat} {β : Type} {files : Files β} {ino : Nat}
    (h : ino < ninodes) (offset : Nat) :
    shown ninodes files ino offset = (files ino).read offset := if_pos h

theorem shown_write {ninodes : Nat} {β : Type} {files : Files β} {ino : Nat} (h : ino < ninodes)
    {offset : Nat} {block : β} :
    shown ninodes (writeFile files ino offset block) ino offset = some block := by
  rw [shown_of_lt h, SparseFile.read, if_pos, writeFile_data, if_pos ⟨rfl, rfl⟩]
  exact (lt_writeFile_size _ _ _ _ _ _).mpr (.inr ⟨rfl, Nat.le_refl _⟩)

/-- A write leaves every other readable block as it is. -/
theorem shown_write_other {ninodes : Nat} {β : Type} {files : Files β} {ino offset : Nat}
    {block b : β} {i o : Nat} (hne : ¬(i = ino ∧ o = offset))
    (h : shown ninodes files i o = some b) :
    shown ninodes (writeFile files ino offset block) i o = some b := by
  unfold shown at h ⊢
  split
  · rename_i hi
    rw [if_pos hi] at h
    unfold SparseFile.read at h ⊢
    split at h
    · rename_i hlt
      rw [if_pos ((lt_writeFile_size _ _ _ _ _ _).mpr (.inl hlt)), writeFile_data, if_neg hne]
      exact h
    · cases h
  · rename_i hi
    rw [if_neg hi] at h
    cases h

theorem shown_truncate {ninodes : Nat} {β : Type} {blank : β} {files : Files β} {i ino offset : Nat}
    (h : ¬(i = ino ∧ 0 ≤ offset)) :
    shown ninodes (Function.update files ino (.empty blank)) i offset =
      shown ninodes files i offset := by
  have hne : i ≠ ino := fun he => h ⟨he, Nat.zero_le _⟩
  unfold shown
  rw [Function.update_of_ne hne]

section

variable {fs : FixedStore (Block g) σ} {belowIno nib : Nat} {files : Files (Block g)}
  {cs : State (Block g) σ n} {s : σ}

/-- Between two calls: below the cache lies a treedisk with these files, the bare
treedisk has the same image, and the slots agree with the files. -/
structure Lockstep (fs : FixedStore (Block g) σ) (belowIno nib : Nat) (files : Files (Block g))
    (cs : State (Block g) σ n) (s : σ) : Prop where
  below : Mirrors fs belowIno nib files cs.below
  good : fs.Good s
  image : fs.view s belowIno = fs.view cs.below belowIno
  slots : Coherent (shown (nib * g.inodesPerBlock) files) cs.slots

namespace Lockstep

variable (h : Lockstep fs belowIno nib files cs s)

include h

theorem at_bare : At fs belowIno (fs.view cs.below belowIno) s := ⟨h.good, h.image⟩

theorem keep {u u' : σ} (hu : At fs belowIno (fs.view cs.below belowIno) u)
    (hu' : At fs belowIno (fs.view cs.below belowIno) u') :
    Lockstep fs belowIno nib files { cs with below := u } u' where
  below := .of_at hu h.below.valid h.below.inodeblocks h.below.represents h.below.small
  good := hu'.good
  image := hu'.view.trans hu.view.symm
  slots := h.slots

theorem setSlots {cs' : State (Block g) σ n} (hb : cs'.below = cs.below)
    (hs : Coherent (shown (nib * g.inodesPerBlock) files) cs'.slots) :
    Lockstep fs belowIno nib files cs' s := by
  refine ⟨?_, h.good, ?_, hs⟩
  · rw [hb]
    exact h.below
  · rw [hb]
    exact h.image

/-- Both treedisks take a call that only depends on the image, which then represents
the new files. -/
theorem both {α : Type} {m : EStateM Stop (Image g) α} {m' : EStateM Stop σ α}
    (hsim : Simulates (At fs belowIno) .undefined m m') {Q : α → σ → Prop}
    {files' : Files (Block g)}
    (hflat : ∀ t', m (fs.view cs.below belowIno) ≠ .error .undefined t')
    (hout : Outcome m' (fun r u => Q r u ∧ Mirrors fs belowIno nib files' u)
      (fun e _ => e = full) cs.below) :
    (∃ r u u', m' cs.below = .ok r u ∧ m' s = .ok r u' ∧ Q r u ∧
        Mirrors fs belowIno nib files' u ∧ fs.Good u' ∧ fs.view u' belowIno = fs.view u belowIno) ∨
      ∃ u u', m' cs.below = .error full u ∧ m' s = .error full u' := by
  rcases hsim.agree h.below.at_view h.at_bare hflat with
    ⟨r, D', u, u', hu, hu', hr, hr'⟩ | ⟨e, u, u', hu, hu'⟩
  · obtain ⟨hq, hmir⟩ := hout.ok hu
    exact .inl ⟨r, u, u', hu, hu', hq, hmir, hr'.good, hr'.view.trans hr.view.symm⟩
  · obtain rfl := hout.error hu
    exact .inr ⟨u, u', hu, hu'⟩

end Lockstep

/-- How one call ends on the stack and on the bare treedisk: with the same result and
again in step, or both out of space. -/
def InStep (fs : FixedStore (Block g) σ) (belowIno nib : Nat) {α : Type} (files : Files (Block g))
    (stack : EStateM.Result Stop (State (Block g) σ n) α) (bare : EStateM.Result Stop σ α) : Prop :=
  (∃ r cs s, stack = .ok r cs ∧ bare = .ok r s ∧ Lockstep fs belowIno nib files cs s) ∨
    ∃ cs s, stack = .error full cs ∧ bare = .error full s

theorem InStep.wrap {α : Type} {m : EStateM Stop (State (Block g) σ n) α} {m' : EStateM Stop σ α}
    (h : InStep fs belowIno nib files (m cs) (m' s)) (wrap : α → Result (Block g)) :
    InStep fs belowIno nib files ((do let r ← m; pure (wrap r)) cs)
      ((do let r ← m'; pure (wrap r)) s) := by
  rcases h with ⟨r, cs', s', hm, hm', hl⟩ | ⟨cs', s', hm, hm'⟩
  · exact .inl ⟨wrap r, cs', s', by simp [bind, EStateM.bind, hm, pure, EStateM.pure],
      by simp [bind, EStateM.bind, hm', pure, EStateM.pure], hl⟩
  · exact .inr ⟨cs', s', by simp [bind, EStateM.bind, hm], by simp [bind, EStateM.bind, hm']⟩

namespace Lockstep

variable (h : Lockstep fs belowIno nib files cs s) {ino : Nat} (hino : ino < nib * g.inodesPerBlock)

include h hino

theorem read (offset : Nat) :
    InStep fs belowIno nib files
      (Wtclockdisk.read (treedisk fs.toBlockStore belowIno) ino offset cs)
      (Treedisk.read fs.toBlockStore belowIno ino offset s) := by
  have hD := h.below.ninodes ▸ hino
  have hread := fun {u : σ} (hu : At fs belowIno (fs.view cs.below belowIno) u) =>
    Treedisk.outcome_read (E := fun _ _ => False) hu h.below.valid.sound h.below.represents hD offset
  have hbelow : Outcome ((treedisk fs.toBlockStore belowIno).read ino offset)
      (fun r u => (r = shown (nib * g.inodesPerBlock) files ino offset ∨ r = none ∧ False) ∧
        At fs belowIno (fs.view cs.below belowIno) u) (fun _ _ => False) cs.below := by
    refine (hread h.below.at_view).post ?_
    rintro r u ⟨rfl, hu⟩
    exact ⟨.inl (shown_of_lt hino offset).symm, hu⟩
  obtain ⟨r, cs', he, hr, hb, hc⟩ := (outcome_read False
    (At fs belowIno (fs.view cs.below belowIno)) h.slots h.below.at_view hbelow).exists_ok
  obtain ⟨r', s', he', rfl, hs⟩ := (hread h.at_bare).exists_ok
  obtain rfl : r = (files ino).read offset := by
    rw [← shown_of_lt hino offset]
    exact hr.resolve_right And.right
  exact .inl ⟨_, cs', s', he, he', (h.keep hb hs).setSlots rfl hc⟩

theorem getsize :
    InStep fs belowIno nib files
      (Wtclockdisk.getsize (treedisk fs.toBlockStore belowIno) ino cs)
      (Treedisk.getsize fs.toBlockStore belowIno ino s) := by
  have hD := h.below.ninodes ▸ hino
  have hsize := fun {u : σ} (hu : At fs belowIno (fs.view cs.below belowIno) u) =>
    (Treedisk.outcome_getsize (E := fun _ _ => False) hu h.below.valid.sound h.below.represents
      hD).exists_ok
  obtain ⟨r, u, he, rfl, hu⟩ := hsize h.below.at_view
  obtain ⟨r, u', he', rfl, hu'⟩ := hsize h.at_bare
  exact .inl ⟨_, { cs with below := u }, u', onBelow_ok he, he', h.keep hu hu'⟩

theorem write {offset : Nat} (hoff : offset < 2 ^ 24) (block : Block g) :
    InStep fs belowIno nib (writeFile files ino offset block)
      (Wtclockdisk.write (treedisk fs.toBlockStore belowIno) ino offset block cs)
      (Treedisk.write fs.toBlockStore belowIno ino offset block s) := by
  have hD := h.below.ninodes ▸ hino
  have hlast : offset + 1 < 2 ^ 32 := by omega
  have hsmall : ∀ i, (writeFile files ino offset block i).size ≤ 2 ^ 24 :=
    Op.apply_small (show (Op.write ino offset block).Proper _ from ⟨hino, hoff⟩) h.below.small
  have hout : Outcome (Treedisk.write fs.toBlockStore belowIno ino offset block)
      (fun r u => r = 0 ∧ Mirrors fs belowIno nib (writeFile files ino offset block) u)
      (fun e _ => e = full) cs.below := by
    refine (Treedisk.outcome_write h.below.at_view h.below.valid h.below.represents hD hlast
      block).post ?_
    rintro r u ⟨hr, D', hu, hv, hn, hrep⟩
    exact ⟨hr, .of_at hu hv (hn.trans h.below.inodeblocks) hrep hsmall⟩
  have hflat : ∀ t', Treedisk.write (flat g belowIno (fs.sizes belowIno)
      (fs.sizes_lt belowIno)).toBlockStore belowIno ino offset block (fs.view cs.below belowIno) ≠
        .error .undefined t' := by
    intro t' he
    have hvalid : Valid ((flat g belowIno (fs.sizes belowIno) (fs.sizes_lt belowIno)).sizes
        belowIno) (fs.view cs.below belowIno) := by
      rw [sizes_flat]
      exact h.below.valid
    have hfull := (Treedisk.outcome_write (at_flat _ _ _ _) hvalid h.below.represents hD hlast
      block).error he
    exact absurd hfull (by decide)
  rcases h.both ((follows_flat fs belowIno).treedisk_write ino offset block) hflat hout with
    ⟨r, u, u', hu, hu', rfl, hmir, hg, hi⟩ | ⟨u, u', hu, hu'⟩
  · have htaken : (treedisk fs.toBlockStore belowIno).write ino offset block cs.below = .ok 0 u :=
      hu
    obtain ⟨r, cs', he, rfl, rfl, hc⟩ := (outcome_write_taken
      (shown (nib * g.inodesPerBlock) (writeFile files ino offset block)) h.slots htaken
      (shown_write hino) fun i o b hne hb => shown_write_other hne hb).exists_ok
    exact .inl ⟨0, cs', u', he, hu', hmir, hg, hi, hc⟩
  · have hstop : Outcome (Wtclockdisk.write (treedisk fs.toBlockStore belowIno) ino offset block)
        (fun _ _ => False) (fun e _ => e = full) cs := by
      have hbelow : Outcome ((treedisk fs.toBlockStore belowIno).write ino offset block)
          (fun _ _ => False) (fun e _ => e = full) cs.below := by
        unfold Outcome
        rw [show (treedisk fs.toBlockStore belowIno).write ino offset block cs.below = _ from hu]
      rw [Wtclockdisk.write, Outcome.bind_iff, Outcome.get_iff]
      split
      · rw [Outcome.bind_iff, Outcome.modify_iff]
        exact outcome_onPart hbelow
      · rw [Outcome.bind_iff]
        exact outcome_onPart (hbelow.post fun _ _ hf => hf.elim)
    obtain ⟨e, cs', he, rfl⟩ := hstop.exists_error
    exact .inr ⟨cs', u', he, hu'⟩

theorem truncate :
    InStep fs belowIno nib (Function.update files ino (.empty Block.zero))
      (Wtclockdisk.setsize (treedisk fs.toBlockStore belowIno) ino 0 cs)
      (Treedisk.setsize fs.toBlockStore belowIno ino 0 s) := by
  have hD := h.below.ninodes ▸ hino
  have hends : ¬ Endless g (files ino).size := by
    intro hbig
    have hlt := hbig.big
    have hle := h.below.small ino
    omega
  have hsmall : ∀ i, ((Function.update files ino (.empty Block.zero) : Files (Block g)) i).size ≤
      2 ^ 24 := Op.apply_small (show (Op.truncate ino : Op g).Proper _ from hino) h.below.small
  have hout : Outcome (Treedisk.setsize fs.toBlockStore belowIno ino 0)
      (fun _ u => True ∧ Mirrors fs belowIno nib (Function.update files ino (.empty Block.zero)) u)
      (fun e _ => e = full) cs.below := by
    refine (Treedisk.outcome_truncate h.below.at_view h.below.valid h.below.represents hD).mono
      ?_ fun _ _ he => absurd he.2 hends
    rintro r u ⟨-, -, D', hu, hv, hn, -, hrep⟩
    exact ⟨trivial, .of_at hu hv (hn.trans h.below.inodeblocks) hrep hsmall⟩
  have hflat : ∀ t', Treedisk.setsize (flat g belowIno (fs.sizes belowIno)
      (fs.sizes_lt belowIno)).toBlockStore belowIno ino 0 (fs.view cs.below belowIno) ≠
        .error .undefined t' := by
    intro t' he
    have hvalid : Valid ((flat g belowIno (fs.sizes belowIno) (fs.sizes_lt belowIno)).sizes
        belowIno) (fs.view cs.below belowIno) := by
      rw [sizes_flat]
      exact h.below.valid
    have hstop := (Treedisk.outcome_truncate (at_flat _ _ _ _) hvalid h.below.represents hD).error he
    exact hends hstop.2
  rcases h.both ((follows_flat fs belowIno).setsize ino 0) hflat hout with
    ⟨r, u, u', hu, hu', -, hmir, hg, hi⟩ | ⟨u, u', hu, -⟩
  · have hcut : (treedisk fs.toBlockStore belowIno).setsize ino 0 cs.below = .ok r u := hu
    obtain ⟨r', cs', he, rfl, rfl, hc⟩ := (outcome_setsize
      (shown (nib * g.inodesPerBlock) (Function.update files ino (.empty Block.zero))) h.slots hcut
      fun i o hne => shown_truncate hne).exists_ok
    exact .inl ⟨r', cs', u', he, hu', hmir, hg, hi, hc⟩
  · have hstop := (Treedisk.outcome_truncate h.below.at_view h.below.valid h.below.represents
      hD).error hu
    exact absurd hstop.2 hends

end Lockstep

theorem Lockstep.perform (h : Lockstep fs belowIno nib files cs s)
    (hsync : ∀ {s}, fs.Good s → ∀ ino, ∃ s', fs.sync ino s = .ok 0 s' ∧ fs.Good s' ∧
      fs.view s' = fs.view s) {call : Call (Block g)}
    (hb : Bounded (nib * g.inodesPerBlock) (2 ^ 24) call) :
    InStep fs belowIno nib (call.apply Block.zero files)
      (call.perform (wtclockdisk (treedisk fs.toBlockStore belowIno)) cs)
      (call.perform (treedisk fs.toBlockStore belowIno) s) := by
  cases call with
  | read ino offset => exact (h.read hb.1 offset).wrap _
  | write ino offset block => exact (h.write hb.1 hb.2 block).wrap _
  | getsize ino => exact (h.getsize hb).wrap _
  | truncate ino => exact (h.truncate hb).wrap _
  | sync ino =>
    obtain ⟨u, he, hg, hv⟩ := hsync h.below.good belowIno
    obtain ⟨u', he', hg', hv'⟩ := hsync h.good belowIno
    have hu : At fs belowIno (fs.view cs.below belowIno) u := ⟨hg, congrFun hv belowIno⟩
    have hu' : At fs belowIno (fs.view cs.below belowIno) u' :=
      ⟨hg', (congrFun hv' belowIno).trans h.image⟩
    have hstep : InStep fs belowIno nib files
        (Wtclockdisk.sync (treedisk fs.toBlockStore belowIno) ino cs)
        (Treedisk.sync fs.toBlockStore belowIno ino s) :=
      .inl ⟨0, { cs with below := u }, u', onBelow_ok he, he', h.keep hu hu'⟩
    exact hstep.wrap _

theorem Lockstep.run (hsync : ∀ {s}, fs.Good s → ∀ ino, ∃ s', fs.sync ino s = .ok 0 s' ∧
      fs.Good s' ∧ fs.view s' = fs.view s) {calls : List (Call (Block g))}
    (hb : ∀ call ∈ calls, Bounded (nib * g.inodesPerBlock) (2 ^ 24) call)
    (h : Lockstep fs belowIno nib files cs s) :
    ∃ files', InStep fs belowIno nib files'
      (Stack.run (wtclockdisk (treedisk fs.toBlockStore belowIno)) calls cs)
      (Stack.run (treedisk fs.toBlockStore belowIno) calls s) := by
  induction calls generalizing files cs s with
  | nil => exact ⟨files, .inl ⟨[], cs, s, rfl, rfl, h⟩⟩
  | cons call calls ih =>
    rcases h.perform hsync (hb call (by simp)) with ⟨r, cs', s', he, he', h'⟩ | ⟨cs', s', he, he'⟩
    · obtain ⟨files', hrest⟩ := ih (fun c hc => hb c (List.mem_cons_of_mem _ hc)) h'
      refine ⟨files', ?_⟩
      rw [run_cons_ok he, run_cons_ok he']
      rcases hrest with ⟨rs, cs'', s'', hr, hr', h''⟩ | ⟨cs'', s'', hr, hr'⟩
      · rw [hr, hr']
        exact .inl ⟨r :: rs, cs'', s'', rfl, rfl, h''⟩
      · rw [hr, hr']
        exact .inr ⟨cs'', s'', rfl, rfl⟩
    · exact ⟨files, .inr ⟨cs', s', run_cons_error he, run_cons_error he'⟩⟩

end

/-- **The write-through cache is transparent.** From a created file system, with a cache
of at least one slot, `wtclockdisk` over the treedisk and the bare treedisk return the
same results and leave the same image, or both find the disk full. -/
theorem write_through_transparent (fs : FixedStore (Block g) σ) {belowIno : Nat} {s₀ s₁ : σ}
    (hg : fs.Good s₀) (hpos : 0 < fs.sizes belowIno) (hz : fs.view s₀ belowIno 0 = Block.zero)
    (hsync : ∀ {s}, fs.Good s → ∀ ino, ∃ s', fs.sync ino s = .ok 0 s' ∧ fs.Good s' ∧
      fs.view s' = fs.view s) {ninodes : Nat} (hni : ninodes < 2 ^ 32)
    (hcreate : create fs.toBlockStore belowIno ninodes s₀ = .ok 0 s₁)
    (blocks : Fin (n + 1) → Block g) (calls : List (Call (Block g)))
    (hb : ∀ call ∈ calls, Bounded (inodeBlocks g ninodes * g.inodesPerBlock) (2 ^ 24) call) :
    (∃ rs cs s,
      Stack.run (wtclockdisk (treedisk fs.toBlockStore belowIno)) calls (init s₁ blocks) =
        .ok rs cs ∧
      Stack.run (treedisk fs.toBlockStore belowIno) calls s₁ = .ok rs s ∧
      fs.view cs.below belowIno = fs.view s belowIno) ∨
    ∃ cs s,
      Stack.run (wtclockdisk (treedisk fs.toBlockStore belowIno)) calls (init s₁ blocks) =
        .error full cs ∧
      Stack.run (treedisk fs.toBlockStore belowIno) calls s₁ = .error full s := by
  have hmir := create_mirrors fs belowIno hg hpos hz hni hcreate
  have hstart : Lockstep fs belowIno (inodeBlocks g ninodes) (filesAfter []) (init s₁ blocks) s₁ :=
    ⟨hmir, hmir.good, rfl, coherent_init _ _ _⟩
  obtain ⟨files, ⟨rs, cs, s, he, he', h⟩ | hfull⟩ := hstart.run hsync hb
  · exact .inl ⟨rs, cs, s, he, he', h.image.symm⟩
  · exact .inr hfull

/-- One slot: a write, a write that takes the slot, a read of a hole, a truncation. -/
def tinyCalls : List (Call (Block .tiny)) :=
  [.write 0 3 (Block.zero.setRef 0 7), .write 1 0 Block.zero, .read 0 1, .truncate 0, .getsize 0,
    .read 0 1, .sync 0]

theorem write_through_transparent_tiny :
    ∃ s₁, create tinyDisk.toBlockStore 0 6 tinyBlank = .ok 0 s₁ ∧
      ((∃ rs cs s,
        Stack.run (wtclockdisk (treedisk tinyDisk.toBlockStore 0)) tinyCalls
          (init (n := 0) s₁ fun _ => Block.zero) = .ok rs cs ∧
        Stack.run (treedisk tinyDisk.toBlockStore 0) tinyCalls s₁ = .ok rs s ∧
        tinyDisk.view cs.below 0 = tinyDisk.view s 0) ∨
      ∃ cs s,
        Stack.run (wtclockdisk (treedisk tinyDisk.toBlockStore 0)) tinyCalls
          (init (n := 0) s₁ fun _ => Block.zero) = .error full cs ∧
        Stack.run (treedisk tinyDisk.toBlockStore 0) tinyCalls s₁ = .error full s) := by
  obtain ⟨s₁, hs⟩ := create_returns tinyDisk 0 tinyBlank tinyBlank_good (by decide) rfl
    (show 6 < 2 ^ 32 by decide) (by decide)
  exact ⟨s₁, hs, write_through_transparent tinyDisk tinyBlank_good (by decide) rfl
    (fun hg _ => ⟨_, rfl, hg, rfl⟩) (show 6 < 2 ^ 32 by decide) hs _ tinyCalls
    (by simp [tinyCalls, Bounded]; decide)⟩

end Egos.Disk.WriteThrough
