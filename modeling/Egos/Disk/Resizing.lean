import Mathlib.Data.Finset.Lattice.Fold
import Mathlib.Order.Lattice.Nat
import Egos.Lib.Simulation
import Egos.Disk.Stack

/-!
# A rejected `setsize` through the cache

`clockdisk_setsize` empties the slots past the new size before it asks the store
below, and a treedisk accepts no size but 0 and the one it has. After a rejected call
the clean slots come back from below with the next read; a dirty slot whose block is
not below is lost. Where nothing is lost, the caches with and without the call hold
the same files, and every later read that the cache serves returns the same.
-/
namespace Egos.Disk.Stack

open Egos.Lib Egos.Disk.Clockdisk

set_option autoImplicit false

variable {β σ : Type} {n : Nat}

/-- A growing store that takes no other size than 0 and the one a file has. -/
structure ResizableStore (β σ : Type) extends GrowingStore β σ where
  outcome_getninodes : ∀ {s files}, Good s files →
    Outcome getninodes (fun r s' => r = toInt ninodes ∧ Good s' files) (fun _ _ => False) s
  outcome_resize : ∀ {s files}, Good s files → ∀ {ino}, ino < ninodes → ∀ {nblocks}, 0 < nblocks →
    Outcome (setsize ino nblocks)
      (fun r s' => r = (if nblocks = (files ino).size then toInt nblocks else -1) ∧ Good s' files)
      (fun _ _ => False) s

/-- What the slots make of the files below. -/
noncomputable def exposed (slots : Fin n → Slot β) (low : Files β) : Files β := fun ino =>
  open Classical in
  ⟨max (low ino).size (Finset.univ.sup fun i =>
      if Pending (slots i) ino then (slots i).offset + 1 else 0),
    fun offset => if h : ∃ i, (slots i).Holds ino offset then (slots h.choose).block
      else (low ino).data offset⟩

/-- Slots that are coherent with the files below buffer some files. -/
theorem buffers_exposed {ninodes : Nat} {slots : Fin n → Slot β} {low : Files β}
    (hunique : ∀ i j, (slots i).Live → (slots j).Holds (slots i).ino (slots i).offset → i = j)
    (hproper : ∀ i, (slots i).Live → (slots i).ino < ninodes ∧ (slots i).offset + 1 < 2 ^ 32)
    (hclean : ∀ i, (slots i).Live → (slots i).dirty = false →
      (slots i).block = (low (slots i).ino).data (slots i).offset ∧
        (slots i).offset < (low (slots i).ino).size) :
    Buffers ninodes slots low (exposed slots low) := by
  classical
  refine ⟨hunique, hproper, hclean, ?_, ?_, ?_⟩
  · intro i hi
    have hex : ∃ j, (slots j).Holds (slots i).ino (slots i).offset := ⟨i, hi, rfl, rfl⟩
    have hji := hunique i hex.choose hi hex.choose_spec
    unfold exposed
    dsimp only
    rw [dif_pos hex, ← hji]
  · intro ino offset hn
    unfold exposed
    dsimp only
    rw [dif_neg (not_exists.mpr hn)]
  · intro ino offset
    unfold exposed
    dsimp only
    rw [lt_max_iff, Finset.lt_sup_iff]
    constructor
    · rintro (hlow | ⟨i, -, hi⟩)
      · exact .inl hlow
      · split at hi
        · rename_i hp
          exact .inr ⟨i, hp, by omega⟩
        · omega
    · rintro (hlow | ⟨i, hp, hle⟩)
      · exact .inl hlow
      · refine .inr ⟨i, Finset.mem_univ i, ?_⟩
        rw [if_pos hp]
        omega

namespace Buffers

variable {ninodes : Nat} {low files : Files β} {cs : State β σ n}
  (h : Buffers ninodes cs.slots low files) (ino nblocks : Nat)

include h

theorem drop_coherent :
    Buffers ninodes (dropSlots cs ino nblocks).slots low
      (exposed (dropSlots cs ino nblocks).slots low) := by
  refine buffers_exposed ?_ ?_ ?_
  · intro a b ha hb
    obtain ⟨hsa, hla, -⟩ := dropSlots_live ha
    obtain ⟨hsb, -, -⟩ := dropSlots_live hb.1
    rw [hsa, hsb] at hb
    exact h.unique a b hla hb
  · intro a ha
    obtain ⟨hsa, hla, -⟩ := dropSlots_live ha
    rw [hsa]
    exact h.proper a hla
  · intro a ha hd
    obtain ⟨hsa, hla, -⟩ := dropSlots_live ha
    rw [hsa] at hd ⊢
    exact h.clean a hla hd

/-- If every dirty slot among them has its block below, the files stay the same. -/
theorem drop_lossless
    (hsafe : ∀ i, Pending (cs.slots i) ino → nblocks ≤ (cs.slots i).offset →
      (low ino).read (cs.slots i).offset = some (cs.slots i).block) :
    Buffers ninodes (dropSlots cs ino nblocks).slots low files := by
  have hbase := h.drop_coherent ino nblocks
  -- a slot that is cut off agrees with the file below
  have hbelow : ∀ i, (cs.slots i).Live → (cs.slots i).ino = ino → nblocks ≤ (cs.slots i).offset →
      (cs.slots i).block = (low ino).data (cs.slots i).offset ∧
        (cs.slots i).offset < (low ino).size := by
    intro i hi hino hoff
    cases hd : (cs.slots i).dirty with
    | false =>
      have hc := h.clean i hi hd
      rw [hino] at hc
      exact hc
    | true =>
      have hr := hsafe i ⟨hi, hd, hino⟩ hoff
      unfold SparseFile.read at hr
      split at hr
      · rename_i hlt
        exact ⟨(Option.some.inj hr).symm, hlt⟩
      · cases hr
  refine ⟨hbase.unique, hbase.proper, hbase.clean, ?_, ?_, ?_⟩
  · intro a ha
    obtain ⟨hsa, hla, -⟩ := dropSlots_live ha
    rw [hsa]
    exact h.cached a hla
  · intro i offset hn
    by_cases hc : ∃ j, (cs.slots j).Holds i offset
    · obtain ⟨j, hl, rfl, rfl⟩ := hc
      have hcut : (cs.slots j).ino = ino ∧ nblocks ≤ (cs.slots j).offset := by
        by_contra hout
        refine hn j ?_
        rw [dropSlots_kept hout]
        exact ⟨hl, rfl, rfl⟩
      have hb := (hbelow j hl hcut.1 hcut.2).1
      rw [← hcut.1] at hb
      exact hb.symm.trans (h.cached j hl)
    · exact h.absent i offset (fun j hj => hc ⟨j, hj⟩)
  · intro i offset
    rw [h.size]
    constructor
    · rintro (hlow | ⟨j, hj, hle⟩)
      · exact .inl hlow
      · by_cases hcut : (cs.slots j).ino = ino ∧ nblocks ≤ (cs.slots j).offset
        · have hlt := (hbelow j hj.1 hcut.1 hcut.2).2
          rw [← hcut.1, hj.2.2] at hlt
          exact .inl (by omega)
        · refine .inr ⟨j, ?_, ?_⟩
          · rw [dropSlots_kept hcut]; exact hj
          · rw [dropSlots_kept hcut]; exact hle
    · rintro (hlow | ⟨j, hj, hle⟩)
      · exact .inl hlow
      · obtain ⟨hsj, -, -⟩ := dropSlots_live hj.1
        rw [hsj] at hj hle
        exact .inr ⟨j, hj, hle⟩

end Buffers

/-- The inode exists, and numbers are 32-bit words; the size of a written file is one
as well. -/
def ProperRequest (ninodes : Nat) : Request β → Prop
  | .getninodes => True
  | .getsize ino => ino < ninodes
  | .setsize ino nblocks => ino < ninodes ∧ nblocks < 2 ^ 32
  | .read ino offset => ino < ninodes ∧ offset < 2 ^ 32
  | .write ino offset _ => ino < ninodes ∧ offset + 1 < 2 ^ 32
  | .sync _ => True

/-- Every dirty slot of the inode past the new size holds what the store below returns
for its block. -/
def Lossless (bs : BlockStore β σ) (cs : State β σ n) (ino nblocks : Nat) : Prop :=
  ∀ i, Pending (cs.slots i) ino → nblocks ≤ (cs.slots i).offset →
    returned (bs.read ino (cs.slots i).offset cs.below) = some (some (cs.slots i).block)

/-- The call depends on the user's files only: a read is served, and a `setsize` to
another size than 0 loses nothing. -/
def Faithful (bs : BlockStore β σ) (size : σ → Nat → Nat) (cs : State β σ n) : Request β → Prop
  | .read ino offset => Call.Served cs.slots (size cs.below) (.read ino offset)
  | .setsize ino nblocks => 0 < nblocks → Lossless bs cs ino nblocks
  | _ => True

/-- Every call of the run is faithful in the state it is made in. -/
def AllFaithful (bs : BlockStore β σ) (size : σ → Nat → Nat) :
    List (Request β) → State β σ n → Prop
  | [], _ => True
  | call :: calls, cs => Faithful bs size cs call ∧
      match call.perform (clockdisk bs) cs with
      | .ok _ cs' => AllFaithful bs size calls cs'
      | .error _ _ => True

/-- The answers of a run up to its end or its stop. -/
def answers (bs : BlockStore β σ) : List (Request β) → σ → List (Answer β)
  | [], _ => []
  | call :: calls, s =>
    match call.perform bs s with
    | .ok answer s' => answer :: answers bs calls s'
    | .error _ _ => []

/-- Every read that is answered in both runs is answered alike. -/
def SameReads (calls : List (Request β)) (left right : List (Answer β)) : Prop :=
  ∀ (k ino offset : Nat) (a b : Answer β), calls[k]? = some (.read ino offset) →
    left[k]? = some a → right[k]? = some b → a = b

section Steps

variable {rs : ResizableStore β σ} {files low : Files β} {cs cs' : State β σ n}

theorem outcome_setsize_drop (h : Tracks rs.toGrowingStore files cs low) {ino nblocks : Nat}
    (hino : ino < rs.ninodes) (hpos : 0 < nblocks) {files' : Files β}
    (hb : Buffers rs.ninodes (dropSlots cs ino nblocks).slots low files') :
    Outcome (Clockdisk.setsize rs.toBlockStore ino nblocks)
      (fun _ cs' => Tracks rs.toGrowingStore files' cs' low) (fun _ _ => False) cs := by
  rw [Clockdisk.setsize, Outcome.bind_iff, Outcome.modify_iff]
  refine outcome_onPart ((rs.outcome_resize (show rs.Good (dropSlots cs ino nblocks).below low
    from h.good) hino hpos).post ?_)
  exact fun _ _ hg => ⟨hg.2, hb⟩

theorem lossless_low (h : Tracks rs.toGrowingStore files cs low) {ino nblocks : Nat}
    (hino : ino < rs.ninodes) (hs : Lossless rs.toBlockStore cs ino nblocks) :
    ∀ i, Pending (cs.slots i) ino → nblocks ≤ (cs.slots i).offset →
      (low ino).read (cs.slots i).offset = some (cs.slots i).block := by
  intro i hi hoff
  have hr := eq_ok_of_returned (hs i hi hoff)
  exact ((rs.outcome_read h.good hino _).ok hr).1.symm

theorem perform_tracks (h : Tracks rs.toGrowingStore files cs low) {call : Request β}
    (hp : ProperRequest rs.ninodes call) :
    Outcome (call.perform (clockdisk rs.toBlockStore))
      (fun _ cs' => ∃ files' low', Tracks rs.toGrowingStore files' cs' low')
      (fun _ _ => True) cs := by
  cases call with
  | getninodes =>
    rw [Request.perform, Outcome.bind_iff]
    refine outcome_onPart ((rs.outcome_getninodes h.good).mono ?_ (fun _ _ _ => trivial))
    exact fun _ _ hg => ⟨files, low, hg.2, h.buffers⟩
  | getsize ino =>
    rw [Request.perform, Outcome.bind_iff]
    refine outcome_onPart ((rs.outcome_getsize h.good hp).mono ?_ (fun _ _ _ => trivial))
    exact fun _ _ hg => ⟨files, low, hg.2, h.buffers⟩
  | setsize ino nblocks =>
    rw [Request.perform, Outcome.bind_iff]
    change Outcome (Clockdisk.setsize rs.toBlockStore ino nblocks) _ _ cs
    rcases Nat.eq_zero_or_pos nblocks with rfl | hpos
    · refine (outcome_truncate h hp.1).mono ?_ (fun _ _ _ => trivial)
      rintro r cs' ⟨-, -, low', h'⟩
      exact ⟨_, low', h'⟩
    · refine (outcome_setsize_drop h hp.1 hpos (h.buffers.drop_coherent ino nblocks)).mono ?_
        (fun _ _ _ => trivial)
      exact fun _ _ h' => ⟨_, _, h'⟩
  | read ino offset =>
    rw [Request.perform, Outcome.bind_iff]
    refine (outcome_read h hp.1 offset).mono ?_ (fun _ _ _ => trivial)
    rintro r cs' ⟨-, low', h'⟩
    exact ⟨files, low', h'⟩
  | write ino offset block =>
    rw [Request.perform, Outcome.bind_iff]
    refine (outcome_write h hp.1 hp.2 block).mono ?_ (fun _ _ _ => trivial)
    rintro r cs' ⟨-, low', h'⟩
    exact ⟨_, low', h'⟩
  | sync ino =>
    rw [Request.perform, Outcome.bind_iff]
    refine (outcome_sync h ino).mono ?_ (fun _ _ _ => trivial)
    rintro r cs' ⟨-, low', h'⟩
    exact ⟨files, low', h'⟩

theorem performAll_tracks {calls : List (Request β)}
    (hp : ∀ call ∈ calls, ProperRequest rs.ninodes call) :
    ∀ {cs : State β σ n} {files low : Files β}, Tracks rs.toGrowingStore files cs low →
      Outcome (performAll (clockdisk rs.toBlockStore) calls)
        (fun _ cs' => ∃ files' low', Tracks rs.toGrowingStore files' cs' low')
        (fun _ _ => True) cs := by
  induction calls with
  | nil =>
    intro cs files low h
    exact ⟨files, low, h⟩
  | cons call calls ih =>
    intro cs files low h
    refine Outcome.seq (perform_tracks h (hp call (by simp))) ?_
    rintro answer cs₁ ⟨files₁, low₁, h₁⟩
    rw [Outcome.bind_iff]
    refine (ih (fun c hc => hp c (List.mem_cons_of_mem _ hc)) h₁).post ?_
    exact fun _ _ h' => h'

/-- The user's files after a faithful call. -/
def applyRequest (blank : β) (files : Files β) : Request β → Files β
  | .write ino offset block => writeFile files ino offset block
  | .setsize ino nblocks => if nblocks = 0 then Function.update files ino (.empty blank) else files
  | _ => files

/-- A faithful call does to the files what the call says, and a read returns the block
of the file. -/
theorem perform_faithful (h : Tracks rs.toGrowingStore files cs low) {call : Request β}
    (hp : ProperRequest rs.ninodes call)
    (hf : Faithful rs.toBlockStore rs.size cs call) :
    Outcome (call.perform (clockdisk rs.toBlockStore))
      (fun answer cs' => (∀ ino offset, call = .read ino offset →
          answer = .block ((files ino).read offset)) ∧
        ∃ low', Tracks rs.toGrowingStore (applyRequest rs.blank files call) cs' low')
      (fun _ _ => True) cs := by
  cases call with
  | getninodes =>
    rw [Request.perform, Outcome.bind_iff]
    refine outcome_onPart ((rs.outcome_getninodes h.good).mono ?_ (fun _ _ _ => trivial))
    exact fun _ _ hg => ⟨by simp, low, hg.2, h.buffers⟩
  | getsize ino =>
    rw [Request.perform, Outcome.bind_iff]
    refine outcome_onPart ((rs.outcome_getsize h.good hp).mono ?_ (fun _ _ _ => trivial))
    exact fun _ _ hg => ⟨by simp, low, hg.2, h.buffers⟩
  | setsize ino nblocks =>
    rw [Request.perform, Outcome.bind_iff]
    change Outcome (Clockdisk.setsize rs.toBlockStore ino nblocks) _ _ cs
    rcases Nat.eq_zero_or_pos nblocks with rfl | hpos
    · refine (outcome_truncate h hp.1).mono ?_ (fun _ _ _ => trivial)
      rintro r cs' ⟨-, -, low', h'⟩
      exact ⟨by simp, low', h'⟩
    · have hb := h.buffers.drop_lossless ino nblocks (lossless_low h hp.1 (hf hpos))
      refine (outcome_setsize_drop h hp.1 hpos hb).mono ?_ (fun _ _ _ => trivial)
      intro r cs' h'
      refine ⟨by simp, low, ?_⟩
      simp only [applyRequest, if_neg (show ¬ nblocks = 0 by omega)]
      exact h'
  | read ino offset =>
    simp only [Faithful, Call.Served, rs.size_eq h.good hp.1] at hf
    rw [Request.perform, Outcome.bind_iff]
    refine (outcome_read h hp.1 offset).mono ?_ (fun _ _ _ => trivial)
    rintro r cs' ⟨hr, low', h'⟩
    refine ⟨fun i o he => ?_, low', h'⟩
    cases he
    exact congrArg _ (hr hf)
  | write ino offset block =>
    rw [Request.perform, Outcome.bind_iff]
    refine (outcome_write h hp.1 hp.2 block).mono ?_ (fun _ _ _ => trivial)
    rintro r cs' ⟨-, low', h'⟩
    exact ⟨by simp, low', h'⟩
  | sync ino =>
    rw [Request.perform, Outcome.bind_iff]
    refine (outcome_sync h ino).mono ?_ (fun _ _ _ => trivial)
    rintro r cs' ⟨-, low', h'⟩
    exact ⟨by simp, low', h'⟩

/-- Two caches that hold the same files answer the reads of a faithful run alike. -/
theorem sameReads {calls : List (Request β)}
    (hp : ∀ call ∈ calls, ProperRequest rs.ninodes call) :
    ∀ {cs cs' : State β σ n} {files low low' : Files β}, Tracks rs.toGrowingStore files cs low →
      Tracks rs.toGrowingStore files cs' low' →
      AllFaithful rs.toBlockStore rs.size calls cs →
      AllFaithful rs.toBlockStore rs.size calls cs' →
      SameReads calls (answers (clockdisk rs.toBlockStore) calls cs)
        (answers (clockdisk rs.toBlockStore) calls cs') := by
  induction calls with
  | nil =>
    intro cs cs' files low low' _ _ _ _ k ino offset a b hk
    simp at hk
  | cons call calls ih =>
    intro cs cs' files low low' h h' hf hf'
    have hc := hp call (by simp)
    have hleft := perform_faithful h hc hf.1
    have hright := perform_faithful h' hc hf'.1
    have hrest := hf.2
    have hrest' := hf'.2
    unfold answers
    cases hl : call.perform (clockdisk rs.toBlockStore) cs with
    | error e t =>
      intro k ino offset a b _ ha
      simp at ha
    | ok answer t =>
      cases hr : call.perform (clockdisk rs.toBlockStore) cs' with
      | error e t' =>
        intro k ino offset a b _ _ hb
        simp at hb
      | ok answer' t' =>
        obtain ⟨hread, low₁, h₁⟩ := hleft.ok hl
        obtain ⟨hread', low₁', h₁'⟩ := hright.ok hr
        rw [hl] at hrest
        rw [hr] at hrest'
        have hind := ih (fun c hm => hp c (List.mem_cons_of_mem _ hm)) h₁ h₁' hrest hrest'
        intro k ino offset a b hk ha hb
        cases k with
        | zero =>
          simp only [List.getElem?_cons_zero, Option.some.injEq] at hk ha hb
          rw [← ha, ← hb, hread ino offset hk, hread' ino offset hk]
        | succ k =>
          simp only [List.getElem?_cons_succ] at hk ha hb
          exact hind k ino offset a b hk ha hb

end Steps

section Lockstep

variable {rs : ResizableStore β σ} {cs cs' : State β σ n}

/-- Two caches that differ only in the store below, and both stores hold the same files. -/
def Alike (rs : ResizableStore β σ) (cs cs' : State β σ n) : Prop :=
  ∃ below low, cs' = { cs with below := below } ∧ rs.Good cs.below low ∧ rs.Good below low ∧
    ∀ i, (cs.slots i).Live → (cs.slots i).ino < rs.ninodes ∧ (cs.slots i).offset + 1 < 2 ^ 32

namespace Alike

/-- The files below determine what a call of the store below does. -/
theorem onBelow (h : Alike rs cs cs') {α : Type} {m : EStateM Stop σ α} (value : Files β → α)
    (after : Files β → Files β) (hm : ∀ s files, rs.Good s files → Outcome m
      (fun r s' => r = value files ∧ rs.Good s' (after files)) (fun _ _ => True) s) :
    Together (Alike rs) (onBelow m) (onBelow m) cs cs' := by
  obtain ⟨t, low, rfl, hs, ht, hproper⟩ := h
  have hcalled {s : σ} (hs : rs.Good s low) : Outcome (Clockdisk.onBelow m)
      (fun r c => r = value low ∧ ∃ s', c = { cs with below := s' } ∧ rs.Good s' (after low))
      (fun _ _ => True) { cs with below := s } :=
    outcome_onPart ((hm _ _ hs).post fun _ s' hs' => ⟨hs'.1, s', rfl, hs'.2⟩)
  refine .of_outcome (hcalled hs) (hcalled ht) ?_
  rintro a _ b _ ⟨rfl, s', rfl, hs'⟩ ⟨rfl, t', rfl, ht'⟩
  exact ⟨rfl, t', _, rfl, hs', ht', hproper⟩

theorem place (h : Alike rs cs cs') (i hand : Fin n) {slot : Slot β}
    (hslot : slot.Live → slot.ino < rs.ninodes ∧ slot.offset + 1 < 2 ^ 32) :
    Alike rs { cs.setSlot i slot with clockHand := hand }
      { cs'.setSlot i slot with clockHand := hand } := by
  obtain ⟨t, low, rfl, hs, ht, hproper⟩ := h
  refine ⟨t, low, rfl, hs, ht, fun j hj => ?_⟩
  simp only [State.setSlot] at hj ⊢
  by_cases hji : j = i
  · rw [hji, Function.update_self] at hj ⊢
    exact hslot hj
  · rw [Function.update_of_ne hji] at hj ⊢
    exact hproper j hj

theorem cacheUpdate (h : Alike rs cs cs') {ino offset : Nat} (hino : ino < rs.ninodes)
    (hoff : offset + 1 < 2 ^ 32) (block : β) (dirty : Bool) (rounds : Nat) :
    Together (Alike rs) (cacheUpdate rs.toBlockStore ino offset block dirty rounds)
      (Clockdisk.cacheUpdate rs.toBlockStore ino offset block dirty rounds) cs cs' := by
  induction rounds generalizing cs cs' with
  | zero =>
    intro a s' b t' hm
    cases hm
  | succ rounds ih =>
    have hsame := h
    obtain ⟨t, low, rfl, -, -, hproper⟩ := h
    unfold Clockdisk.cacheUpdate
    refine Together.get ?_
    dsimp only
    split
    · refine Together.bind (R := Alike rs) ?_ fun _ c c' hc =>
        .modify (hc.place _ _ fun _ => ⟨hino, hoff⟩)
      unfold writeBack
      split
      · rename_i hdirty
        have hp := hproper cs.clockHand hdirty.1
        refine (hsame.onBelow (fun _ => 0) _ fun s files hg =>
          (rs.outcome_write hg hp.1 hp.2 _).mono (fun _ _ hw => hw) fun _ _ _ => trivial).bind ?_
        exact fun _ _ _ hc => .pure hc _
      · exact .pure hsame _
    · refine Together.bind (R := Alike rs) (.modify (hsame.place _ _ fun hl => ?_)) ?_
      · rename_i hstatus
        have hnew : (cs.slots cs.clockHand).status = .new := by simpa using hstatus
        exact hproper cs.clockHand (by simp [Slot.Live, hnew])
      · exact fun _ c c' hc => ih hc

theorem perform (h : Alike rs cs cs') {call : Request β} (hp : ProperRequest rs.ninodes call) :
    Together (Alike rs) (call.perform (clockdisk rs.toBlockStore))
      (call.perform (clockdisk rs.toBlockStore)) cs cs' := by
  have hanswer {α : Type} {m : EStateM Stop (State β σ n) α} {f : α → Answer β}
      (hm : Together (Alike rs) m m cs cs') :
      Together (Alike rs) (do return f (← m)) (do return f (← m)) cs cs' :=
    hm.bind fun _ _ _ hc => .pure hc _
  cases call with
  | getninodes =>
    exact hanswer (h.onBelow _ id fun s files hg =>
      (rs.outcome_getninodes hg).mono (fun _ _ hr => hr) fun _ _ _ => trivial)
  | getsize ino =>
    exact hanswer (h.onBelow _ id fun s files hg =>
      (rs.outcome_getsize hg hp).mono (fun _ _ hr => hr) fun _ _ _ => trivial)
  | setsize ino nblocks =>
    refine hanswer (Together.bind (R := Alike rs) (.modify ?_) fun _ c c' hc => ?_)
    · obtain ⟨t, low, rfl, hs, ht, hproper⟩ := h
      refine ⟨t, low, rfl, hs, ht, fun i hi => ?_⟩
      obtain ⟨hsame, hlive, -⟩ := dropSlots_live hi
      rw [hsame]
      exact hproper i hlive
    · rcases Nat.eq_zero_or_pos nblocks with rfl | hpos
      · exact hc.onBelow _ _ fun s files hg => (rs.outcome_truncate hg hp.1).mono
          (fun _ _ hr => ⟨hr.1, hr.2.2⟩) fun _ _ _ => trivial
      · exact hc.onBelow _ id fun s files hg => (rs.outcome_resize hg hp.1 hpos).mono
          (fun _ _ hr => hr) fun _ _ _ => trivial
  | read ino offset =>
    refine hanswer ?_
    have hsame := h
    obtain ⟨t, low, rfl, hs, -, hproper⟩ := h
    change Together _ (Clockdisk.read rs.toBlockStore ino offset) (Clockdisk.read _ ino offset) _ _
    unfold Clockdisk.read
    refine Together.get ?_
    rw [show lookup { cs with below := t } ino offset = lookup cs ino offset from rfl]
    cases hl : lookup cs ino offset with
    | some i =>
      exact Together.bind (R := Alike rs)
        (.modify (hsame.place i cs.clockHand fun _ => hproper i (lookup_some hl).1))
        fun _ _ _ hc => .pure hc _
    | none =>
      have hbelow : Together (Alike rs) (Clockdisk.onBelow (rs.read ino offset))
          (Clockdisk.onBelow (rs.read ino offset)) cs { cs with below := t } :=
        hsame.onBelow _ id fun s files hg =>
          (rs.outcome_read hg hp.1 offset).mono (fun _ _ hr => hr) fun _ _ _ => trivial
      have hknown : Outcome (Clockdisk.onBelow (n := n) (rs.read ino offset))
          (fun r _ => r = (low ino).read offset) (fun _ _ => True) cs :=
        outcome_onPart ((rs.outcome_read hs hp.1 offset).mono (fun _ _ hr => hr.1)
          fun _ _ _ => trivial)
      refine hbelow.bindKnowing hknown fun r c c' hr hc => ?_
      cases r with
      | none => exact .pure hc _
      | some block =>
        have hlt : offset < (low ino).size := by
          by_contra hge
          rw [SparseFile.read, if_neg hge] at hr
          cases hr
        have hsize := rs.size_lt hs hp.1
        exact (hc.cacheUpdate hp.1 (by omega) block false (n + 1)).bind fun _ _ _ hc => .pure hc _
  | write ino offset block =>
    refine hanswer ?_
    have hsame := h
    obtain ⟨t, low, rfl, -, -, hproper⟩ := h
    change Together _ (Clockdisk.write rs.toBlockStore ino offset block)
      (Clockdisk.write _ ino offset block) _ _
    unfold Clockdisk.write
    refine Together.get ?_
    rw [show lookup { cs with below := t } ino offset = lookup cs ino offset from rfl]
    cases hl : lookup cs ino offset with
    | some i =>
      exact Together.bind (R := Alike rs)
        (.modify (hsame.place i cs.clockHand fun _ => hproper i (lookup_some hl).1))
        fun _ _ _ hc => .pure hc _
    | none =>
      exact (hsame.cacheUpdate hp.1 hp.2 block true (n + 1)).bind fun _ _ _ hc => .pure hc _
  | sync ino =>
    refine hanswer (Together.bind (R := Alike rs) (.forM (fun i c c' hc => ?_) _ h)
      fun _ c c' hc => ?_)
    · have hsame := hc
      obtain ⟨t, low, rfl, -, -, hproper⟩ := hc
      unfold syncSlot
      refine Together.get ?_
      dsimp only
      split
      · rename_i hw
        have hp := hproper i hw.1
        refine (hsame.onBelow (fun _ => 0) _ fun s files hg =>
          (rs.outcome_write hg hp.1 hp.2 _).mono (fun _ _ hw => hw) fun _ _ _ => trivial).bind ?_
        intro _ c c' hc
        have hwritten := hc
        obtain ⟨t, low, rfl, -, -, hproper⟩ := hc
        exact .modify (hwritten.place i c.clockHand (hproper i))
      · exact .pure hsame _
    · exact hc.onBelow _ id fun s files hg =>
        (rs.outcome_sync hg ino).mono (fun _ _ hr => hr) fun _ _ _ => trivial

theorem sameReads {calls : List (Request β)}
    (hp : ∀ call ∈ calls, ProperRequest rs.ninodes call) (h : Alike rs cs cs') :
    SameReads calls (answers (clockdisk rs.toBlockStore) calls cs)
      (answers (clockdisk rs.toBlockStore) calls cs') := by
  induction calls generalizing cs cs' with
  | nil =>
    intro k ino offset a b hk
    simp at hk
  | cons call calls ih =>
    have hcall := h.perform (hp call (by simp))
    unfold answers
    cases hl : call.perform (clockdisk rs.toBlockStore) cs with
    | error e t =>
      intro k ino offset a b _ ha
      simp at ha
    | ok answer t =>
      cases hr : call.perform (clockdisk rs.toBlockStore) cs' with
      | error e t' =>
        intro k ino offset a b _ _ hb
        simp at hb
      | ok answer' t' =>
        obtain ⟨rfl, hafter⟩ := hcall answer t answer' t' hl hr
        intro k ino offset a b hk ha hb
        cases k with
        | zero =>
          simp only [List.getElem?_cons_zero, Option.some.injEq] at ha hb
          rw [← ha, ← hb]
        | succ k =>
          simp only [List.getElem?_cons_succ] at hk ha hb
          exact ih (fun c hm => hp c (List.mem_cons_of_mem _ hm)) hafter k ino offset a b hk ha hb

end Alike

/-- No slot holds a block past the new size. -/
def Bounded (cs : State β σ n) (ino nblocks : Nat) : Prop :=
  ∀ i, (cs.slots i).Live → (cs.slots i).ino = ino → (cs.slots i).offset < nblocks

theorem Bounded.dropSlots {ino nblocks : Nat} (h : Bounded cs ino nblocks) :
    dropSlots cs ino nblocks = cs := by
  have hslots : (Clockdisk.dropSlots cs ino nblocks).slots = cs.slots :=
    funext fun i => if_neg fun hd => absurd (h i hd.1 hd.2.1) (Nat.not_lt.mpr hd.2.2)
  change { cs with slots := (Clockdisk.dropSlots cs ino nblocks).slots } = cs
  rw [hslots]

/-- A `setsize` to another size than 0 empties slots and leaves the files below as they are. -/
theorem outcome_setsize_slots {files low : Files β} (h : Tracks rs.toGrowingStore files cs low)
    {ino nblocks : Nat} (hino : ino < rs.ninodes) (hpos : 0 < nblocks) :
    Outcome (Clockdisk.setsize rs.toBlockStore ino nblocks)
      (fun _ cs' => cs' = { dropSlots cs ino nblocks with below := cs'.below } ∧
        rs.Good cs'.below low) (fun _ _ => False) cs := by
  rw [Clockdisk.setsize, Outcome.bind_iff, Outcome.modify_iff]
  refine outcome_onPart ((rs.outcome_resize (show rs.Good (dropSlots cs ino nblocks).below low
    from h.good) hino hpos).post ?_)
  exact fun _ _ hg => ⟨rfl, hg.2⟩

/-- The block of a dirty slot can be read before the slot is dropped. After that the block below
is read, if the cache has room for it. -/
theorem dropped_differs {files low : Files β} (h : Tracks rs.toGrowingStore files cs low)
    {ino nblocks : Nat} (hino : ino < rs.ninodes)
    (hcut : cs' = { dropSlots cs ino nblocks with below := cs'.below })
    (hgood : rs.Good cs'.below low) {i : Fin n} (hi : Pending (cs.slots i) ino)
    (hoff : nblocks ≤ (cs.slots i).offset)
    (hlost : returned (rs.read ino (cs.slots i).offset cs.below) ≠ some (some (cs.slots i).block)) :
    returned (Clockdisk.read rs.toBlockStore ino (cs.slots i).offset cs) =
        some (some (cs.slots i).block) ∧
      returned (Clockdisk.read rs.toBlockStore ino (cs.slots i).offset cs') ≠
        some (some (cs.slots i).block) := by
  constructor
  · cases hl : lookup cs ino (cs.slots i).offset with
    | none => exact absurd ⟨hi.1, hi.2.2, rfl⟩ (lookup_none hl i)
    | some j =>
      have hj := lookup_some hl
      rw [← hi.2.2] at hj
      obtain rfl := h.buffers.unique i j hi.1 hj
      have hread : Outcome (Clockdisk.read rs.toBlockStore ino (cs.slots i).offset)
          (fun r _ => r = some (cs.slots i).block) (fun _ _ => False) cs := by
        rw [Clockdisk.read, Outcome.bind_iff, Outcome.get_iff, hl]
        rfl
      obtain ⟨_, _, hr, rfl⟩ := hread.exists_ok
      rw [hr]
      rfl
  · have hmiss : lookup cs' ino (cs.slots i).offset = none := by
      cases hl : lookup cs' ino (cs.slots i).offset with
      | none => rfl
      | some j =>
        have hj := lookup_some hl
        rw [hcut] at hj
        obtain ⟨hsame, -, hkept⟩ := dropSlots_live hj.1
        obtain ⟨-, hjino, hjoff⟩ := hj
        dsimp only at hjino hjoff
        rw [hsame] at hjino hjoff
        exact absurd ⟨hjino, hjoff ▸ hoff⟩ hkept
    obtain ⟨r, s, hs, rfl, -⟩ := (rs.outcome_read h.good hino (cs.slots i).offset).exists_ok
    rw [hs] at hlost
    have hread : Outcome (Clockdisk.read rs.toBlockStore ino (cs.slots i).offset)
        (fun r _ => r = (low ino).read (cs.slots i).offset) (fun _ _ => True) cs' := by
      rw [Clockdisk.read, Outcome.bind_iff, Outcome.get_iff, hmiss]
      dsimp only
      rw [Outcome.bind_iff]
      refine outcome_onPart ((rs.outcome_read hgood hino _).mono ?_ fun _ _ _ => trivial)
      rintro _ s' ⟨rfl, -⟩
      split
      · rename_i hnone
        exact hnone.symm
      · rename_i hsome
        rw [Outcome.bind_iff]
        exact (Outcome.always _).post fun _ _ _ => hsome.symm
    intro hblock
    exact hlost (congrArg some (hread.ok (eq_ok_of_returned hblock)).symm)

end Lockstep

section Treedisk

open Treedisk

variable {g : Geometry}

/-- A treedisk over a fixed store whose `sync` returns 0 takes no other sizes. -/
def resizableTreedisk (fs : FixedStore (Block g) σ) (belowIno nib : Nat)
    (hsync : ∀ {s}, fs.Good s → ∀ ino, ∃ s', fs.sync ino s = .ok 0 s' ∧ fs.Good s' ∧
      fs.view s' = fs.view s) : ResizableStore (Block g) σ where
  toGrowingStore := treediskStore fs belowIno nib hsync
  outcome_getninodes := by
    rintro s files ⟨hg, hv, rfl, hr⟩
    have hn := hv.inodes_lt
    change Outcome (Treedisk.getninodes fs.toBlockStore belowIno) _ _ s
    rw [Treedisk.getninodes, Outcome.bind_iff]
    refine At.outcome_read ⟨hg, rfl⟩ (show 0 < _ by omega) (fun s' h' => ⟨rfl, ?_⟩)
    change fs.Good s' ∧ _
    rw [h'.view]
    exact ⟨h'.good, hv, rfl, hr⟩
  outcome_resize := by
    rintro s files ⟨hg, hv, hn, hr⟩ ino hino nblocks hpos
    change Outcome (Treedisk.setsize fs.toBlockStore belowIno ino nblocks) _ _ s
    change ino < nib * g.inodesPerBlock at hino
    rw [← hn] at hino
    rw [Treedisk.setsize, Outcome.bind_iff]
    refine (outcome_getSnapshot ⟨hg, rfl⟩ hv.inodes_lt hino).post ?_
    rintro _ s' ⟨rfl, h'⟩
    have hgood : (treediskStore fs belowIno nib hsync).Good s' files := by
      refine ⟨h'.good, ?_⟩
      rw [h'.view]
      exact ⟨hv, hn, hr⟩
    have hsize := hr.size ino hino
    dsimp only
    rw [snapshotOf_nblocks, hsize, if_pos hpos]
    split
    · exact ⟨rfl, hgood⟩
    · exact ⟨rfl, hgood⟩

/-- The scan for the depth of a file of `2 ^ 32 - 1` blocks does not end: the capacity is
a power of two below `2 ^ 32` and then 0. -/
theorem endless_max (g : Geometry) : Treedisk.Endless g (2 ^ 32 - 1) := by
  have hloop : ∀ rounds start capacity, (capacity = 0 ∨ ∃ k, k < 32 ∧ capacity = 2 ^ k) →
      levelLoop g (2 ^ 32 - 1) rounds start capacity = none := by
    intro rounds
    induction rounds with
    | zero => intro start capacity _; rfl
    | succ rounds ih =>
      intro start capacity hcap
      have hlt : capacity < 2 ^ 32 - 1 := by
        rcases hcap with rfl | ⟨k, hk, rfl⟩
        · decide
        · have hle : 2 ^ k ≤ 2 ^ 31 := Nat.pow_le_pow_right (by decide) (by omega)
          omega
      rw [levelLoop, if_pos hlt]
      refine ih _ _ ?_
      rcases hcap with rfl | ⟨k, hk, rfl⟩
      · left
        simp
      · rw [g.refsPerBlock_eq, ← pow_add]
        rcases Nat.lt_or_ge (k + g.bits) 32 with hb | hb
        · exact .inr ⟨k + g.bits, hb, Nat.mod_eq_of_lt (Nat.pow_lt_pow_right (by decide) hb)⟩
        · exact .inl (Nat.mod_eq_zero_of_dvd (Nat.pow_dvd_pow 2 hb))
  refine ⟨by decide, hloop 32 1 _ (.inr ⟨g.bits, ?_, g.refsPerBlock_eq⟩)⟩
  have h8 := g.le_eight
  omega

/-- **Where a rejected `setsize` is invisible.** Take any run of a cache over a created treedisk
and a `setsize` that returns -1. If a dirty slot past the new size does not hold the block that the
treedisk returns for it, a read of this block tells the difference. If they all do, each read of
any later calls returns what it returns after the same calls without the `setsize`, provided that
no slot was dropped at all, or that the later calls are faithful. -/
theorem rejected_setsize_invisible (fs : FixedStore (Block g) σ) {belowIno : Nat} {s₀ s₁ : σ}
    (hsync : ∀ {s}, fs.Good s → ∀ ino, ∃ s', fs.sync ino s = .ok 0 s' ∧ fs.Good s' ∧
      fs.view s' = fs.view s)
    (hg : fs.Good s₀) (hpos : 0 < fs.sizes belowIno) (hz : fs.view s₀ belowIno 0 = Block.zero)
    {ninodes : Nat} (hni : ninodes < 2 ^ 32)
    (hcreate : create fs.toBlockStore belowIno ninodes s₀ = .ok 0 s₁)
    (blocks : Fin (n + 1) → Block g) {before : List (Request (Block g))}
    (hbefore : ∀ call ∈ before, ProperRequest (inodeBlocks g ninodes * g.inodesPerBlock) call)
    {results : List (Answer (Block g))} {cs cs' : State (Block g) σ (n + 1)}
    (hrun : performAll (clockdisk (treedisk fs.toBlockStore belowIno)) before (init s₁ blocks) =
      .ok results cs) {ino nblocks : Nat}
    (hino : ino < inodeBlocks g ninodes * g.inodesPerBlock)
    (hfail : Clockdisk.setsize (treedisk fs.toBlockStore belowIno) ino nblocks cs = .ok (-1) cs') :
    (¬ Lossless (treedisk fs.toBlockStore belowIno) cs ino nblocks → ∃ offset block,
      returned (Clockdisk.read (treedisk fs.toBlockStore belowIno) ino offset cs) =
          some (some block) ∧
        returned (Clockdisk.read (treedisk fs.toBlockStore belowIno) ino offset cs') ≠
          some (some block)) ∧
    ∀ later, (∀ call ∈ later,
        ProperRequest (inodeBlocks g ninodes * g.inodesPerBlock) call) →
      Lossless (treedisk fs.toBlockStore belowIno) cs ino nblocks →
      (Bounded cs ino nblocks ∨
        AllFaithful (treedisk fs.toBlockStore belowIno)
            (fun s ino => Image.nblocks (fs.view s belowIno) ino) later cs ∧
          AllFaithful (treedisk fs.toBlockStore belowIno)
            (fun s ino => Image.nblocks (fs.view s belowIno) ino) later cs') →
      SameReads later (answers (clockdisk (treedisk fs.toBlockStore belowIno)) later cs)
        (answers (clockdisk (treedisk fs.toBlockStore belowIno)) later cs') := by
  let rs := resizableTreedisk fs belowIno (inodeBlocks g ninodes) hsync
  have hmir := create_mirrors fs belowIno hg hpos hz hni hcreate
  have hgood : rs.Good s₁ (filesAfter []) :=
    ⟨hmir.good, hmir.valid, hmir.inodeblocks, hmir.represents⟩
  have hinit : Tracks rs.toGrowingStore (filesAfter []) (init s₁ blocks) (filesAfter []) :=
    ⟨hgood, buffers_init _ _ _ _⟩
  obtain ⟨files, low, h⟩ := (@performAll_tracks _ _ _ rs _ hbefore _ _ _ hinit).ok hrun
  have hnpos : 0 < nblocks := by
    -- a truncation that returns -1 would be one of a file of 2 ^ 32 - 1 blocks
    by_contra hzero
    obtain rfl : nblocks = 0 := by omega
    obtain ⟨hr, hends, -⟩ := (@outcome_truncate _ _ _ rs.toGrowingStore _ _ _ h _ hino).ok hfail
    have hsize := rs.size_lt h.good hino
    have hmax := toInt_injective (show 2 ^ 32 - 1 < 2 ^ 32 by decide) hsize hr
    rw [← hmax] at hends
    exact hends (endless_max g)
  obtain ⟨hcut, hlow⟩ := (outcome_setsize_slots h hino hnpos).ok hfail
  constructor
  · intro hlost
    unfold Lossless at hlost
    push Not at hlost
    obtain ⟨i, hi, hoff, hblock⟩ := hlost
    exact ⟨_, _, dropped_differs h hino hcut hlow hi hoff hblock⟩
  · rintro later hlater hkept (hbounded | ⟨hwithout, hwith⟩)
    · rw [hbounded.dropSlots] at hcut
      have halike : Alike rs cs cs' := ⟨_, low, hcut, h.good, hlow, h.buffers.proper⟩
      exact halike.sameReads hlater
    · have hb := h.buffers.drop_lossless ino nblocks (lossless_low h hino hkept)
      have h' : Tracks rs.toGrowingStore files cs' low :=
        (outcome_setsize_drop h hino hnpos hb).ok hfail
      exact @sameReads _ _ _ rs _ hlater _ _ _ _ _ h h' hwithout hwith

instance [DecidableEq β] (bs : BlockStore β σ) (cs : State β σ n) (ino nblocks : Nat) :
    Decidable (Lossless bs cs ino nblocks) :=
  inferInstanceAs (Decidable (∀ i, Pending (cs.slots i) ino → nblocks ≤ (cs.slots i).offset →
    returned (bs.read ino (cs.slots i).offset cs.below) = some (some (cs.slots i).block)))

instance [DecidableEq β] (bs : BlockStore β σ) (size : σ → Nat → Nat) (cs : State β σ n) :
    (call : Request β) → Decidable (Faithful bs size cs call)
  | .read ino offset =>
    inferInstanceAs (Decidable (Call.Served cs.slots (size cs.below) (.read ino offset)))
  | .setsize ino nblocks => inferInstanceAs (Decidable (0 < nblocks → Lossless bs cs ino nblocks))
  | .getninodes => .isTrue trivial
  | .getsize _ => .isTrue trivial
  | .write _ _ _ => .isTrue trivial
  | .sync _ => .isTrue trivial

instance decidableAllFaithful [DecidableEq β] (bs : BlockStore β σ) (size : σ → Nat → Nat) :
    (calls : List (Request β)) → (cs : State β σ n) → Decidable (AllFaithful bs size calls cs)
  | [], _ => .isTrue trivial
  | call :: calls, cs =>
    have : Decidable (match call.perform (clockdisk bs) cs with
        | .ok _ cs' => AllFaithful bs size calls cs'
        | .error _ _ => True) :=
      match call.perform (clockdisk bs) cs with
      | .ok _ cs' => decidableAllFaithful bs size calls cs'
      | .error _ _ => .isTrue trivial
    inferInstanceAs (Decidable (_ ∧ _))

/-- The file system of `tinyDisk` without files. -/
def tinyCreated : Ramdisk.State (Block .tiny) := final (create tinyDisk.toBlockStore 0 6 tinyBlank)

/-- A cache of two slots in which the two blocks of a file have been synced. -/
def tinySynced : State (Block .tiny) (Ramdisk.State (Block .tiny)) 2 :=
  final (performAll (clockdisk (treedisk tinyDisk.toBlockStore 0))
    [.write 0 0 (Block.zero.setRef 0 7), .write 0 1 (Block.zero.setRef 0 8), .sync 0]
    (init tinyCreated fun _ => Block.zero))

theorem rejected_setsize_invisible_tiny :
    SameReads [.read 0 1, .read 0 0]
      (answers (clockdisk (treedisk tinyDisk.toBlockStore 0)) [.read 0 1, .read 0 0] tinySynced)
      (answers (clockdisk (treedisk tinyDisk.toBlockStore 0)) [.read 0 1, .read 0 0]
        (final (Clockdisk.setsize (treedisk tinyDisk.toBlockStore 0) 0 1 tinySynced))) := by
  have h := rejected_setsize_invisible tinyDisk (fun hg _ => ⟨_, rfl, hg, rfl⟩) tinyBlank_good
    (by decide) rfl (show 6 < 2 ^ 32 by decide) (eq_ok_of_returned (by decide +kernel))
    (fun _ => Block.zero) (by simp [ProperRequest]; decide)
    (eq_ok_of_returned (show _ = some [.code 0, .code 0, .code 0] by decide +kernel))
    (show 0 < _ by decide)
    (show Clockdisk.setsize (treedisk tinyDisk.toBlockStore 0) 0 1 tinySynced = .ok (-1) _ from
      eq_ok_of_returned (by decide +kernel))
  exact h.2 _ (by simp [ProperRequest]; decide) (by decide +kernel)
    (.inr ⟨by decide +kernel, by decide +kernel⟩)

/-- A block is written, a `setsize` that returns -1 drops it, and it cannot be read any
more; without that call the read returns it. -/
theorem rejected_setsize_drops :
    returned (performAll (clockdisk (treedisk tinyDisk.toBlockStore 0))
        [.write 0 1 (Block.zero.setRef 0 7), .setsize 0 1, .read 0 1]
        (init (n := 1) tinyCreated fun _ => Block.zero)) =
      some [.code 0, .code (-1), .block none] ∧
    returned (performAll (clockdisk (treedisk tinyDisk.toBlockStore 0))
        [.write 0 1 (Block.zero.setRef 0 7), .read 0 1]
        (init (n := 1) tinyCreated fun _ => Block.zero)) =
      some [.code 0, .block (some (Block.zero.setRef 0 7))] := by
  decide +kernel

end Treedisk

end Egos.Disk.Stack
