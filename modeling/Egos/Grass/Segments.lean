import Egos.Grass.Paging

/-!
# The protection of the segments

A page of a segment that is not writable should keep what `frame_init` put there. A fault of
the process itself never makes such a page writable, as `proc_pagefault` then looks at the
segment. `copy_user` asks for a writable page, and there `proc_pagefault` does not look, so
the result holds as long as the kernel copies nothing to these pages.
-/
namespace Egos.Grass

open Egos.Lib Egos.Earth

set_option autoImplicit false

/-- Page `i` of the address space lies in a segment that is not writable. -/
def Header.ReadOnly (hdr : Header) (i : Nat) : Prop :=
  i < virtPages ∧ ∃ es ∈ hdr.segments, es.first ≤ absPage i ∧ absPage i < es.first + es.npages ∧
    es.prot.write = false

/-- The segment that `proc_pagefault` finds for the page is not writable. -/
def Header.FindsReadOnly (hdr : Header) (page : Nat) : Prop :=
  ∃ es, hdr.segment page = some es ∧ es.prot.write = false

/-- `proc_pagefault` takes no page of a read-only segment for a page of a writable one or of
none: the segments that overlap agree, and none is so long that its end wraps. -/
def Header.Settled (hdr : Header) : Prop := ∀ i, hdr.ReadOnly i → hdr.FindsReadOnly (absPage i)

/-- The promise that the executables have settled headers and that the kernel copies nothing to
a page of a read-only segment. As for all memory, a process that creates another one has no
pages. -/
def Promise.segments : Promise where
  bareCreator := True
  replyToRpc := False
  requestByRpc := False
  unwrapped := False
  mute := fun _ => False
  shielded := fun hdr page => (∃ i, page = absPage i ∧ hdr.ReadOnly i) ∧ hdr.FindsReadOnly page
  readOnly := fun _ _ h => h.2
  header := Header.Settled

theorem Header.Settled.shielded {hdr : Header} (h : hdr.Settled) {i : Nat} (hi : hdr.ReadOnly i) :
    Promise.segments.shielded hdr (absPage i) :=
  ⟨⟨i, rfl, hi⟩, h i hi⟩

theorem hdr_update {s s' : Kernel} {q : Slot} {proc : Process}
    (hprocs : s'.procs = Function.update s.procs q proc)
    (hhdr : proc.hdr = (s.procs q).hdr) (p : Slot) : (s'.procs p).hdr = (s.procs p).hdr := by
  rw [hprocs]
  by_cases hp : p = q
  · rw [hp, Function.update_self]
    exact hhdr
  · rw [Function.update_of_ne hp]

theorem Posted.hdr {s s' : Kernel} {q : Slot} {m : MsgType} {msg : Message}
    (h : Posted s q m msg s') (p : Slot) : (s'.procs p).hdr = (s.procs p).hdr := by
  have hspace := h.space p
  simp only [Process.space, Prod.mk.injEq] at hspace
  exact hspace.2.2

theorem parked_hdr (s : Kernel) (rest : List Slot) (p : Slot) :
    ((s.parked rest).procs p).hdr = (s.procs p).hdr := by
  obtain hp | ⟨-, rfl, hp⟩ := s.parked_procs rest p
  · exact congrArg Process.hdr hp
  · rw [hp]
    rfl

/-- No page that the promise shields is mapped writable. -/
def Guarded (w : Promise) (s : Kernel) : Prop :=
  ∀ k page frame, s.mmu.Maps k page frame → w.shielded s.me.hdr page →
    (s.mmu.entries k).prot.write = false

theorem mapProt_readOnly (proc : Process) (virt : Nat) :
    (mapProt proc virt .read).write = false := by
  unfold mapProt
  rw [if_pos rfl]
  split
  · split <;> rfl
  · rfl

theorem Move.guarded {w : Promise} {f f' : Phase} {s s' : Kernel} (hw : w.bareCreator)
    (hmem : Memory f s) (hm : Move w f s f' s') (h : Guarded w s) : Guarded w s' := by
  have hbare (hnone : ∀ i, i < virtPages → s.me.pages i = none) (k : Fin tlbSize)
      (page frame : Nat) : ¬ s.mmu.Maps k page frame := by
    intro hk
    obtain ⟨i, -, hheld, -⟩ := hmem.mapped.maps hk
    exact absurd ((hnone i hheld.lt).symm.trans hheld.page) (by simp)
  have hkeep (hmmu : s'.mmu = s.mmu) (hcurrent : s'.current = s.current)
      (hhdr : ∀ p, (s'.procs p).hdr = (s.procs p).hdr) : Guarded w s' := by
    intro k page frame hk hs
    rw [Kernel.me, hcurrent, hhdr] at hs
    rw [hmmu] at hk ⊢
    exact h k page frame hk hs
  have hsettles (hmmu : s.mmu.Settles s'.mmu) (hme : s'.me = s.me) : Guarded w s' := by
    intro k page frame hk hs
    obtain ⟨hk', hprot⟩ := hmmu.entries k page frame hk
    rw [hme] at hs
    rw [hprot]
    exact h k page frame hk' hs
  cases hm with
  | spawn hs => exact fun k page frame hk => absurd hk (hbare (hs.bare hw) k page frame)
  | exec _ _ hpages => exact fun k page frame hk => absurd hk (hbare hpages k page frame)
  | switch => exact fun k page frame hk => absurd hk (Mmu.flush_maps _ k page frame)
  | post hposted => exact hkeep hposted.contents hposted.current hposted.hdr
  | @call _ t q contents server size purpose hstack hstate hposted =>
    refine hkeep hposted.contents hposted.current fun p => ?_
    rw [hdr_update (t.called_procs server size purpose) rfl]
    exact hposted.hdr p
  | freePage =>
    refine hsettles ?_ ?_
    · dsimp only
      exact hmem.mapped.coherent.unmap _
    · rfl
  | sync => exact hsettles hmem.mapped.coherent.sync rfl
  | @map _ _ virt frame index access hstack hstate hlow htop hpage hindex hshield =>
    intro k page frame' hk hs
    change ((s.mmu.map index (virt / pageSize) frame (mapProt s.me virt access)).entries k).prot.write
      = false
    rw [Mmu.map_entries]
    obtain ⟨rfl, rfl, rfl⟩ | ⟨hne, hk'⟩ := Mmu.map_maps.mp hk
    · rw [if_pos rfl, hshield hs]
      exact mapProt_readOnly s.me virt
    · have hflush := Mmu.flushEntry_maps.mpr ⟨hne, hk'⟩
      rw [if_neg hne, ((hmem.mapped.coherent.flushEntry index).entries k page frame' hflush).2]
      exact h k page frame' hk' hs
  | poke => exact h
  | wake | die | release | reap | enter | nest | leave | resume | take | block | takeFrame =>
    exact hkeep rfl rfl (hdr_update rfl rfl)
  | swept | keepPage | termed | shutdown | fill | advance | peek => exact h

/-- The executables of all processes have settled headers. -/
def Headers (s : Kernel) : Prop := ∀ p, (s.procs p).Alive → (s.procs p).hdr.Settled

theorem settled_nil (offset : Nat) : Header.Settled ⟨offset, []⟩ := by
  intro i hpost
  obtain ⟨_, es, hes, _⟩ := hpost
  cases hes

theorem Move.headers {f f' : Phase} {s s' : Kernel} (hm : Move .segments f s f' s')
    (h : Headers s) : Headers s' := by
  intro p hp
  obtain ⟨q, parent, rest, uid, owner, rfl, rfl, hs, rfl⟩ | ⟨q, rfl, rfl, hq, rfl⟩ | hk := hm.kept
  · by_cases hpq : p = q
    · subst hpq
      rw [show (s.spawned p rest uid owner).procs p = _ from Function.update_self _ _ _]
      exact settled_nil 0
    · rw [spawned_other s hpq] at hp ⊢
      split at hp
      · rename_i hc
        rw [if_pos hc]
        exact h s.current hp
      · rename_i hc
        rw [if_neg hc]
        exact h p hp
  · rw [hdr_update (show (s.died q).procs = _ from rfl) rfl]
    refine h p ?_
    by_cases hpq : p = q
    · rw [hpq]
      exact hq
    · rwa [show (s.died q).procs p = s.procs p from Function.update_of_ne hpq _ _] at hp
  · have hp' := (hk.alive p).mp hp
    have hkeep (hhdr : ∀ p, (s'.procs p).hdr = (s.procs p).hdr) : (s'.procs p).hdr.Settled := by
      rw [hhdr]
      exact h p hp'
    cases hm with
    | spawn => exact absurd hk.pidGen (Nat.succ_ne_self _)
    | @exec _ interruptable executable hdr _ _ _ hheader =>
      by_cases hc : p = s.current
      · subst hc
        rw [show (s.setProc s.current _).procs s.current = _ from Function.update_self _ _ _]
        exact hheader
      · rw [show (s.setProc s.current _).procs p = s.procs p from Function.update_of_ne hc _ _]
        exact h p hp'
    | post hposted => exact hkeep hposted.hdr
    | switch => exact hkeep (parked_hdr s _)
    | @call _ t q contents server size purpose hstack hstate hposted =>
      refine hkeep fun p => ?_
      rw [hdr_update (t.called_procs server size purpose) rfl]
      exact hposted.hdr p
    | wake | die | release | reap | enter | nest | leave | resume | take | block | takeFrame =>
      exact hkeep (hdr_update rfl rfl)
    | swept | keepPage | freePage | termed | shutdown | map | fill | advance | poke | peek | sync =>
      exact hkeep fun _ => rfl

/-- A process stores only to pages that are not shielded. -/
def Promise.Stores (w : Promise) (past : List Event) : Event → Prop
  | .stored p virt _ => ∃ fill, (recorded p virt past).fill = some fill ∧
      ¬ w.shielded fill.hdr (virt / pageSize)
  | _ => True

theorem Move.stores {w : Promise} {f f' : Phase} {s s' : Kernel} (hmem : Memory f s)
    (hi : Image f s) (hg : Guarded w s) (hm : Move w f s f' s')
    (h : Throughout w.Stores s.events) : Throughout w.Stores s'.events := by
  obtain ⟨new, he, hnew⟩ | ⟨p, pid, uid, owner, he⟩ |
    ⟨page, frame, contents, rfl, -, -, rfl⟩ | ⟨virt, byte, rfl, hpermit, rfl⟩ |
    ⟨virt, rfl, -, rfl⟩ := hm.history
  · rw [he]
    refine h.append fun e hmem past => ?_
    have hsilent := hnew e hmem
    cases e <;> trivial
  · rw [he]
    exact h.concat trivial
  · exact h.concat trivial
  · refine h.concat ?_
    obtain ⟨k, frame, hk, hwrite, hpage, halive, hfilled⟩ := hmem.mapped.accessed rfl hpermit
    obtain ⟨fill, hfill, -, hhdr, -⟩ :=
      (hi s.current virt halive hpermit.1 hpermit.2.1).resident frame hpage hfilled
    refine ⟨fill, hfill, fun hs => ?_⟩
    rw [hhdr] at hs
    exact absurd (hwrite.symm.trans (hg k _ frame hk hs)) (by simp)
  · exact h.concat trivial

theorem recorded_shielded {w : Promise} {events : List Event} (hf : Throughout Faithful events)
    (hs : Throughout w.Stores events) {p : Slot} {virt : Nat} (hlow : virtBase ≤ virt)
    (htop : virt < virtTop) {fill : Fill} (hfill : (recorded p virt events).fill = some fill)
    (hshield : w.shielded fill.hdr (virt / pageSize)) : (recorded p virt events).stored = none := by
  induction events using List.reverseRecOn with
  | nil => rfl
  | append_singleton past e ih =>
    have ih' := ih hf.left hs.left
    have hfaithful := hf past e List.prefix_rfl
    have hstores := hs past e List.prefix_rfl
    rw [recorded_concat] at hfill ⊢
    cases e with
    | born q pid uid owner =>
      simp only [Event.record] at hfill ⊢
      split
      · rfl
      · rename_i hq
        rw [if_neg hq] at hfill
        exact ih' hfill
    | filled q executable hdr page contents =>
      simp only [Event.record] at hfill ⊢
      split
      · rename_i hq
        obtain ⟨rfl, rfl⟩ := hq
        rw [hfaithful.2 virt hlow htop rfl]
        rfl
      · rename_i hq
        rw [if_neg hq] at hfill
        exact ih' hfill
    | stored q v b =>
      simp only [Event.record] at hfill ⊢
      split
      · rename_i hq
        obtain ⟨rfl, rfl⟩ := hq
        rw [if_pos ⟨rfl, rfl⟩] at hfill
        obtain ⟨fill', hfill', hnot⟩ := hstores
        rw [Option.some.inj (hfill'.symm.trans hfill)] at hnot
        exact absurd hshield hnot
      · rename_i hq
        rw [if_neg hq] at hfill
        exact ih' hfill
    | died | accepted | received | requested | answered | loaded => exact ih' hfill

/-- The pages of read-only segments are protected, in a state with its history. -/
structure Protected (s : Kernel) : Prop where
  entry : ∀ k i frame, s.mmu.Maps k (absPage i) frame → s.me.hdr.ReadOnly i →
    (s.mmu.entries k).prot.write = false
  /-- a page is filled once -/
  filled : Throughout Faithful s.events
  /-- and keeps what it was filled with -/
  contents : ∀ p virt frame, (s.procs p).Alive → virtBase ≤ virt → virt < virtTop →
    (s.procs p).hdr.ReadOnly (relPage virt) → (s.procs p).pages (relPage virt) = some frame →
    ¬ (s.procs p).Fetching (relPage virt) →
    ∃ fill, (recorded p virt s.events).fill = some fill ∧
      s.mmu.contents frame (pageOffset virt) = fill.contents (pageOffset virt)

/-- The invariant behind `Protected`. -/
structure Sealed (f : Phase) (s : Kernel) : Prop where
  memory : Memory f s
  image : Image f s
  faithful : Throughout Faithful s.events
  guarded : Guarded .segments s
  headers : Headers s
  stores : Throughout Promise.segments.Stores s.events

theorem Move.seals {f f' : Phase} {s s' : Kernel} (hc : Consistent s)
    (hm : Move .segments f s f' s') (h : Sealed f s) : Sealed f' s' where
  memory := hm.memory trivial hc h.memory
  image := hm.image h.memory h.image
  faithful := hm.faithful h.memory h.image h.faithful
  guarded := hm.guarded trivial h.memory h.guarded
  headers := hm.headers h.headers
  stores := hm.stores h.memory h.image h.guarded h.stores

theorem Sealed.protected {s : Kernel} (h : Sealed .idle s) : Protected s where
  entry k i frame hk hro := by
    obtain ⟨j, hj, hheld, -⟩ := h.memory.mapped.maps hk
    obtain ⟨-, -, halive⟩ := (holds_neutral Phase.neutral_idle).mp hheld
    exact h.guarded k _ frame hk ((h.headers s.current halive).shielded hro)
  filled := h.faithful
  contents p virt frame hp hlow htop hro hpage hfetching := by
    obtain ⟨hbyte, fill, hfill, -, hhdr⟩ :=
      (h.image.transparent h.faithful).resident p virt frame hp hlow htop hpage hfetching
    have hshield : Promise.segments.shielded fill.hdr (virt / pageSize) := by
      rw [hhdr, ← absPage_relPage hlow]
      exact (h.headers p hp).shielded hro
    have hnone := recorded_shielded h.faithful h.stores hlow htop hfill hshield
    refine ⟨fill, hfill, ?_⟩
    simp only [Recorded.byte, hfill, hnone, Option.map_some, Option.getD_none] at hbyte
    exact (Option.some.inj hbyte).symm

theorem sealed_procInitialize (frames : Nat → Page) : Sealed .idle (procInitialize frames) where
  memory := memory_procInitialize frames
  image := image_procInitialize frames
  faithful := by
    rw [procInitialize_events, ← List.nil_append [_]]
    exact Throughout.nil.concat trivial
  guarded k page frame hk := by cases hk.2
  headers p _ := by
    obtain ⟨pid, owner, state, hp⟩ := procInitialize_fresh frames p
    rw [hp]
    exact settled_nil 0
  stores := by
    rw [procInitialize_events, ← List.nil_append [_]]
    exact Throughout.nil.concat trivial

/-- In every run that keeps the promise the read-only segments are protected. -/
theorem run_protected (frames : Nat → Page) (actions : List Action)
    (h : Honored .segments actions (procInitialize frames)) :
    Outcome (run actions) (fun _ s => Protected s) (fun _ _ => True) (procInitialize frames) := by
  have hrun := outcome_run (I := Sealed) Move.seals h (atRest_procInitialize frames .segments)
    (sealed_procInitialize frames)
  exact hrun.mono (fun _ s hs => hs.2.protected) fun _ _ _ => trivial

theorem honors_segments {s : Kernel} {a : Action}
    (hcreate : ∀ owner uid, a = .create owner uid → ∀ i, i < virtPages → s.me.pages i = none)
    (hcopy : ∀ virt byte, a = .copyTo virt byte →
      ¬ Promise.segments.shielded s.me.hdr (virt / pageSize))
    (hexec : ∀ interruptable executable hdr, a = .exec interruptable executable hdr → hdr.Settled) :
    Honors .segments s a where
  create owner uid ha _ := hcreate owner uid ha
  ids _ _ _ hw := hw.elim
  recv _ _ _ _ hw := hw
  send _ _ _ _ _ _ := ⟨fun _ hw => hw, fun _ hw => hw⟩
  handleSend _ _ _ _ _ _ := ⟨fun _ hw => hw, fun _ hw => hw⟩
  copy := hcopy
  exec := hexec

/-- An executable with one segment, which is read-only and has one page. -/
def readOnlyHeader : Header := ⟨0, [⟨virtBase / pageSize, 1, 0, Prot.r⟩]⟩

theorem readOnlyHeader_readOnly : readOnlyHeader.ReadOnly 0 := by
  refine ⟨by decide +kernel, _, List.mem_singleton.mpr rfl, ?_⟩
  decide

theorem readOnlyHeader_settled : readOnlyHeader.Settled := by
  intro i hpost
  obtain ⟨_, es, hes, hlow, hhigh, _⟩ := hpost
  rw [List.mem_singleton.mp hes] at hlow hhigh
  have hi : absPage i = virtBase / pageSize := by
    simp only at hlow hhigh
    omega
  rw [hi]
  exact ⟨_, rfl, rfl⟩

/-- A process reads a page of the segment. -/
def readOnlyExample : List Action :=
  [.create 1 0, .exec true ⟨0, 0⟩ readOnlyHeader, .fault virtBase, .load virtBase]

theorem run_protected_example :
    Protected (final (run readOnlyExample (procInitialize fun _ _ => 0))) ∧
      ∃ k, ((final (run readOnlyExample (procInitialize fun _ _ => 0))).mmu.entries k).virt =
        absPage 0 := by
  have hhonored : Honored .segments readOnlyExample (procInitialize fun _ _ => 0) := by
    refine ⟨honors_segments (fun _ _ _ i _ => ?_) (by simp) (by simp), fun _ _ =>
      ⟨honors_segments (by simp) (by simp) ?_, fun _ _ =>
      ⟨honors_segments (by simp) (by simp) (by simp), fun _ _ =>
      ⟨honors_segments (by simp) (by simp) (by simp), ?_⟩⟩⟩⟩
    · rw [procInitialize_me]
      rfl
    · intro _ _ hdr ha
      cases ha
      exact readOnlyHeader_settled
    · exact fun _ _ => trivial
  have hok : returned (run readOnlyExample (procInitialize fun _ _ => 0)) = some ⟨⟩ := by
    decide +kernel
  refine ⟨?_, ⟨0, by decide⟩, by decide +kernel⟩
  generalize readOnlyExample = actions at hhonored hok ⊢
  exact (run_protected _ actions hhonored).ok (eq_ok_of_returned hok)

/-- The kernel copies a byte to the page. -/
def overwriteExample : List Action :=
  [.create 1 0, .exec true ⟨0, 0⟩ readOnlyHeader, .copyTo virtBase 7]

/-- A system call with a buffer in a read-only segment makes the page writable. -/
theorem overwriteExample_unprotected :
    Honored .bare overwriteExample (procInitialize fun _ _ => 0) ∧
      returned (run overwriteExample (procInitialize fun _ _ => 0)) = some ⟨⟩ ∧
      ¬ Protected (final (run overwriteExample (procInitialize fun _ _ => 0))) := by
  refine ⟨honored_bare_main _ (by simp), by decide +kernel, fun h => ?_⟩
  have hhdr : (final (run overwriteExample (procInitialize fun _ _ => 0))).me.hdr =
      readOnlyHeader := by
    decide +kernel
  have hentry : (final (run overwriteExample (procInitialize fun _ _ => 0))).mmu.entries
      ⟨0, by decide⟩ = ⟨absPage 0, some 0, Prot.rw⟩ := by
    decide +kernel
  generalize final (run overwriteExample (procInitialize fun _ _ => 0)) = s at h hhdr hentry
  have hmaps : s.mmu.Maps ⟨0, by decide⟩ (absPage 0) 0 := by simp [Mmu.Maps, hentry]
  have hwrite := h.entry _ 0 0 hmaps (by rw [hhdr]; exact readOnlyHeader_readOnly)
  rw [hentry] at hwrite
  cases hwrite

end Egos.Grass
