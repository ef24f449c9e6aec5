import Egos.Grass.Frames
import Egos.Lib.History

/-!
# Paging is transparent

A process sees a memory of its own. Its history says what is in it: a page holds what its
executable assigns to it when it is first touched, and then what the process stored or the
kernel copied there. Events of other processes do not count, nor does what an earlier process
did in the same slot.
-/
namespace Egos.Grass

open Egos.Lib Egos.Earth

set_option autoImplicit false

/-- The position of an address in its page. -/
def pageOffset (virt : Nat) : Fin pageSize := ⟨virt % pageSize, mod_pageSize_lt virt⟩

/-- A page that was filled, and for which executable. -/
structure Fill where
  executable : FileId
  hdr : Header
  contents : Page

/-- What a history says of one address of a process. -/
structure Recorded where
  fill : Option Fill
  stored : Option Byte

namespace Recorded

def blank : Recorded := ⟨none, none⟩

/-- The byte at the address: the last one that was put there, or the one it was filled with. -/
def byte (r : Recorded) (virt : Nat) : Option Byte :=
  r.fill.map fun fill => r.stored.getD (fill.contents (pageOffset virt))

end Recorded

def Event.record (p : Slot) (virt : Nat) (r : Recorded) : Event → Recorded
  | .born q _ _ _ => if q = p then .blank else r
  | .filled q executable hdr page contents =>
    if q = p ∧ page = relPage virt then { r with fill := some ⟨executable, hdr, contents⟩ } else r
  | .stored q v b => if q = p ∧ v = virt then { r with stored := some b } else r
  | _ => r

/-- What happened to an address of the process in slot `p` since it was born. -/
def recorded (p : Slot) (virt : Nat) (events : List Event) : Recorded :=
  events.foldl (Event.record p virt) .blank

/-- Whether the event leaves all memories alone and shows nothing of them. -/
def Event.silent : Event → Bool
  | .born .. | .filled .. | .stored .. | .loaded .. => false
  | _ => true

theorem recorded_concat (p : Slot) (virt : Nat) (events : List Event) (e : Event) :
    recorded p virt (events ++ [e]) = e.record p virt (recorded p virt events) := by
  simp [recorded]

theorem recorded_silent (p : Slot) (virt : Nat) (events : List Event) {new : List Event}
    (h : ∀ e ∈ new, e.silent = true) :
    recorded p virt (events ++ new) = recorded p virt events := by
  induction new using List.reverseRecOn with
  | nil => rw [List.append_nil]
  | append_singleton new e ih =>
    rw [← List.append_assoc, recorded_concat, ih fun e' he' => h e' (by simp [he'])]
    have he := h e (by simp)
    cases e <;> first | rfl | cases he

/-- The frame of the page is not filled yet. -/
def Unfilled (f : Phase) (s : Kernel) (p : Slot) (i : Nat) : Prop :=
  f = .taken i ∧ p = s.current ∨ (s.procs p).Fetching i

/-- The kernel agrees with the history about one address of a process. -/
structure Shown (f : Phase) (s : Kernel) (p : Slot) (virt : Nat) : Prop where
  resident : ∀ frame, (s.procs p).pages (relPage virt) = some frame →
    ¬ Unfilled f s p (relPage virt) → ∃ fill, (recorded p virt s.events).fill = some fill ∧
      fill.executable = (s.procs p).executable ∧ fill.hdr = (s.procs p).hdr ∧
      (recorded p virt s.events).stored.getD (fill.contents (pageOffset virt)) =
        s.mmu.contents frame (pageOffset virt)
  untouched : (s.procs p).pages (relPage virt) = none ∨ Unfilled f s p (relPage virt) →
    recorded p virt s.events = .blank

/-- The kernel agrees with the history about the memories of all processes. -/
def Image (f : Phase) (s : Kernel) : Prop :=
  ∀ p virt, (s.procs p).Alive → virtBase ≤ virt → virt < virtTop → Shown f s p virt

theorem Shown.congr {f f' : Phase} {s s' : Kernel} {p : Slot} {virt : Nat} (h : Shown f s p virt)
    (hpages : (s'.procs p).pages (relPage virt) = (s.procs p).pages (relPage virt))
    (hexe : (s'.procs p).executable = (s.procs p).executable)
    (hhdr : (s'.procs p).hdr = (s.procs p).hdr)
    (hrecorded : recorded p virt s'.events = recorded p virt s.events)
    (hunfilled : Unfilled f' s' p (relPage virt) ↔ Unfilled f s p (relPage virt))
    (hcontents : ∀ frame, (s.procs p).pages (relPage virt) = some frame →
      ¬ Unfilled f s p (relPage virt) →
      s'.mmu.contents frame (pageOffset virt) = s.mmu.contents frame (pageOffset virt)) :
    Shown f' s' p virt := by
  constructor
  · intro frame hpage hfilled
    rw [hpages] at hpage
    rw [hunfilled] at hfilled
    rw [hexe, hhdr, hrecorded, hcontents frame hpage hfilled]
    exact h.resident frame hpage hfilled
  · rw [hpages, hunfilled, hrecorded]
    exact h.untouched

/-- The address space of a process: its page table and its executable. -/
def Process.space (proc : Process) : (Nat → Option Nat) × FileId × Header :=
  (proc.pages, proc.executable, proc.hdr)

theorem space_update {s s' : Kernel} {q : Slot} {proc : Process}
    (hprocs : s'.procs = Function.update s.procs q proc)
    (hspace : proc.space = (s.procs q).space) (p : Slot) :
    (s'.procs p).space = (s.procs p).space := by
  rw [hprocs]
  by_cases hp : p = q
  · rw [hp, Function.update_self]
    exact hspace
  · rw [Function.update_of_ne hp]

theorem Posted.space {s s' : Kernel} {q : Slot} {m : MsgType} {msg : Message}
    (h : Posted s q m msg s') (p : Slot) : (s'.procs p).space = (s.procs p).space := by
  have hdep := @space_update s (s.deposited q m msg) q _ rfl rfl
  cases h with
  | kept => exact hdep p
  | woke =>
    rw [← hdep p]
    have hwoken : ((s.deposited q m msg).awake q).procs = Function.update
        (s.deposited q m msg).procs q ((s.deposited q m msg).procs q).woken := rfl
    exact space_update hwoken rfl p

theorem Posted.contents {s s' : Kernel} {q : Slot} {m : MsgType} {msg : Message}
    (h : Posted s q m msg s') : s'.mmu = s.mmu := by
  cases h <;> rfl

theorem fetching_congr {proc proc' : Process} {i : Nat} (h : proc'.stack = proc.stack) :
    proc'.Fetching i ↔ proc.Fetching i :=
  ⟨fetching_of_stack h, fetching_of_stack h.symm⟩

theorem fetching_update_iff {s s' : Kernel} {q : Slot} {proc : Process}
    (hprocs : s'.procs = Function.update s.procs q proc)
    (hq : ∀ i, proc.Fetching i ↔ (s.procs q).Fetching i) (p : Slot) (i : Nat) :
    (s'.procs p).Fetching i ↔ (s.procs p).Fetching i := by
  rw [hprocs]
  by_cases hp : p = q
  · rw [hp, Function.update_self]
    exact hq i
  · rw [Function.update_of_ne hp]

theorem not_fetching {proc : Process} {i : Nat}
    (h : ∀ nest m size server fault, proc.stack ≠ some ⟨nest, .recv m size (.frame server fault)⟩) :
    ¬ proc.Fetching i := by
  intro hgiven
  obtain ⟨nest, m, size, server, fault, hs, _⟩ := hgiven
  exact h nest m size server fault hs

theorem unfilled_congr {f f' : Phase} {s s' : Kernel} (hphase : ∀ i, f' = .taken i ↔ f = .taken i)
    (hcurrent : s'.current = s.current)
    (hfetching : ∀ p i, (s'.procs p).Fetching i ↔ (s.procs p).Fetching i) (p : Slot) (i : Nat) :
    Unfilled f' s' p i ↔ Unfilled f s p i := by
  unfold Unfilled
  rw [hphase, hcurrent, hfetching]

theorem unfilled_idle {s s' : Kernel}
    (hfetching : ∀ p i, (s'.procs p).Fetching i ↔ (s.procs p).Fetching i) (p : Slot) (i : Nat) :
    Unfilled .idle s' p i ↔ Unfilled .idle s p i := by
  simp [Unfilled, hfetching]

namespace Image

variable {f f' : Phase} {s s' : Kernel}

theorem congr (h : Image f s) (halive : ∀ p, (s'.procs p).Alive → (s.procs p).Alive)
    (hspace : ∀ p, (s'.procs p).space = (s.procs p).space)
    (hevents : ∃ new, s'.events = s.events ++ new ∧ ∀ e ∈ new, e.silent = true)
    (hunfilled : ∀ p i, (s.procs p).Alive → (Unfilled f' s' p i ↔ Unfilled f s p i))
    (hcontents : ∀ frame, s'.mmu.contents frame = s.mmu.contents frame) : Image f' s' := by
  intro p virt hp hlow htop
  have hp' := halive p hp
  obtain ⟨new, he, hnew⟩ := hevents
  have hs := hspace p
  simp only [Process.space, Prod.mk.injEq] at hs
  obtain ⟨hpages, hexe, hhdr⟩ := hs
  refine (h p virt hp' hlow htop).congr (by rw [hpages]) hexe hhdr ?_ (hunfilled p _ hp') ?_
  · rw [he, recorded_silent p virt s.events hnew]
  · intro frame _ _
    rw [hcontents]

/-- A new process has an empty memory, whatever the slot was used for before. -/
theorem spawned (h : Image .idle s) {q : Slot} {rest : List Slot} {uid owner : Nat}
    (hstack : s.me.stack = none) : Image .idle (s.spawned q rest uid owner) := by
  intro p virt hp hlow htop
  have hevents : (s.spawned q rest uid owner).events =
      s.events ++ [.born q (s.pidGen % 2 ^ 32) uid owner] := rfl
  by_cases hpq : p = q
  · subst hpq
    have hproc : (s.spawned p rest uid owner).procs p = { Process.zero with
        pid := s.pidGen % 2 ^ 32
        uid := uid
        owner := owner
        state := .runnable } := Function.update_self _ _ _
    constructor
    · intro frame hpage
      rw [hproc] at hpage
      cases hpage
    · intro _
      rw [hevents, recorded_concat, Event.record, if_pos rfl]
  · have hrecorded : recorded p virt (s.spawned q rest uid owner).events =
        recorded p virt s.events := by
      rw [hevents, recorded_concat, Event.record, if_neg (Ne.symm hpq)]
    rw [spawned_other s hpq] at hp
    by_cases hc : p = s.current
    · rw [if_pos hc] at hp
      have hproc : (s.spawned q rest uid owner).procs p =
          { s.procs p with stack := some ⟨0, .create⟩ } := by
        rw [spawned_other s hpq, if_pos hc, hc]
        rfl
      have hnone : (s.procs p).stack = none := by rw [hc]; exact hstack
      refine (h p virt (by rw [hc]; exact hp) hlow htop).congr ?_ ?_ ?_ hrecorded ?_ fun _ _ _ => rfl
      · rw [hproc]
      · rw [hproc]
      · rw [hproc]
      · simp [Unfilled, hproc, Process.Fetching, hnone]
    · rw [if_neg hc] at hp
      have hproc : (s.spawned q rest uid owner).procs p = s.procs p := by
        rw [spawned_other s hpq, if_neg hc]
      refine (h p virt hp hlow htop).congr ?_ ?_ ?_ hrecorded ?_ fun _ _ _ => rfl
      · rw [hproc]
      · rw [hproc]
      · rw [hproc]
      · simp [Unfilled, hproc]

/-- The frame of a page is taken, but not yet filled. -/
theorem frameTaken (h : Image .idle s) {page frame : Nat} {rest : List Nat}
    (hpage : s.me.pages page = none) : Image (.taken page) (s.frameTaken page frame rest) := by
  intro p virt hp hlow htop
  by_cases hc : p = s.current
  · have hproc : (s.frameTaken page frame rest).procs p =
        { s.procs p with pages := Function.update s.me.pages page (some frame) } := by
      rw [hc]
      exact Function.update_self _ _ _
    rw [hproc] at hp
    have hs := h p virt hp hlow htop
    by_cases hi : relPage virt = page
    · have hunfilled : Unfilled (.taken page) (s.frameTaken page frame rest) p (relPage virt) :=
        .inl ⟨by rw [hi], hc⟩
      refine ⟨fun _ _ hfilled => absurd hunfilled hfilled, fun _ => ?_⟩
      refine hs.untouched (.inl ?_)
      rw [hi, hc]
      exact hpage
    · refine hs.congr ?_ ?_ ?_ rfl ?_ fun _ _ _ => rfl
      · rw [hproc, hc]
        exact Function.update_of_ne hi _ _
      · rw [hproc]
      · rw [hproc]
      · simp [Unfilled, hproc, Process.Fetching, Ne.symm hi]
  · have hproc : (s.frameTaken page frame rest).procs p = s.procs p := Function.update_of_ne hc _ _
    rw [hproc] at hp
    refine (h p virt hp hlow htop).congr ?_ ?_ ?_ rfl ?_ fun _ _ _ => rfl
    · rw [hproc]
    · rw [hproc]
    · rw [hproc]
    · have hc' : p ≠ (s.frameTaken page frame rest).current := hc
      simp [Unfilled, hproc, hc']

/-- The page of another process or another page has another frame. -/
theorem frame_ne (ho : Owned f s) (hf : f.Neutral) {p q : Slot} {i j frame frame' : Nat}
    (hp : (s.procs p).Alive) (hq : (s.procs q).Alive) (hi : i < virtPages) (hj : j < virtPages)
    (hpage : (s.procs p).pages i = some frame) (hpage' : (s.procs q).pages j = some frame')
    (hne : ¬ (p = q ∧ i = j)) : frame ≠ frame' := by
  intro he
  subst he
  exact hne (ho.unique ((holds_neutral hf).mpr ⟨hi, hpage, hp⟩)
    ((holds_neutral hf).mpr ⟨hj, hpage', hq⟩))

theorem filled {page frame : Nat} (h : Image (.taken page) s) (hm : Mapped (.taken page) s)
    (ho : Owned (.taken page) s) (hstack : s.me.stack = none) (hstate : s.me.state = .runnable)
    (hpage : s.me.pages page = some frame) (contents : Page) :
    Image (.filled page) (s.filled page frame contents) := by
  intro p virt hp hlow htop
  have hlt := (hm.pending page (.inl rfl)).1
  have halive : (s.procs s.current).Alive := .inl hstate
  have hheld : Holds (.taken page) s s.current page frame :=
    (holds_neutral (Phase.neutral_taken page)).mpr ⟨hlt, hpage, halive⟩
  have hcontents : (s.filled page frame contents).mmu.contents =
      Function.update s.mmu.contents frame contents :=
    (hm.coherent.fill (hm.frame_unmapped ho hheld (.inl rfl)) contents).2
  have hevents : (s.filled page frame contents).events =
      s.events ++ [.filled s.current s.me.executable s.me.hdr page contents] := rfl
  have hs := h p virt hp hlow htop
  by_cases hthis : p = s.current ∧ relPage virt = page
  · obtain ⟨rfl, rfl⟩ := hthis
    have hblank := hs.untouched (.inr (.inl ⟨rfl, rfl⟩))
    have hrecorded : recorded s.current virt (s.filled (relPage virt) frame contents).events =
        ⟨some ⟨s.me.executable, s.me.hdr, contents⟩, none⟩ := by
      rw [hevents, recorded_concat, hblank, Event.record, if_pos ⟨rfl, rfl⟩]
      rfl
    constructor
    · intro frame' hpage' _
      have hframe : frame' = frame := Option.some.inj (hpage'.symm.trans hpage)
      rw [hrecorded, hcontents, hframe, Function.update_self]
      exact ⟨_, rfl, rfl, rfl, rfl⟩
    · intro hnone
      obtain hnone | ⟨hphase, -⟩ | hfetching := hnone
      · exact absurd (hnone.symm.trans hpage) (by simp)
      · cases hphase
      · exact absurd hstack hfetching.stack
  · refine hs.congr rfl rfl rfl ?_ ?_ ?_
    · rw [hevents, recorded_concat, Event.record, if_neg fun he => hthis ⟨he.1.symm, he.2.symm⟩]
    · have hphase : ¬ (page = relPage virt ∧ p = s.current) := fun he => hthis ⟨he.2, he.1.symm⟩
      simp [Unfilled, hphase, Kernel.filled, Kernel.emit]
    · intro frame' hpage' _
      have hne := frame_ne ho (Phase.neutral_taken page) hp halive (relPage_lt hlow htop) hlt hpage'
        hpage hthis
      rw [hcontents, Function.update_of_ne hne]

end Image

theorem Mapped.accessed {s : Kernel} (h : Mapped .idle s) {virt : Nat} {allows : Prot → Bool}
    (hnone : allows Prot.none = false) (hp : Permitted s virt allows) :
    ∃ k frame, s.mmu.Maps k (virt / pageSize) frame ∧ allows (s.mmu.entries k).prot = true ∧
      s.me.pages (relPage virt) = some frame ∧ s.me.Alive ∧
      ¬ Unfilled .idle s s.current (relPage virt) := by
  obtain ⟨k, frame, hk, hallows⟩ := h.permitted hnone hp
  obtain ⟨i, hi, hheld, hmapped⟩ := h.maps hk
  rw [← absPage_relPage hp.1] at hi
  rw [← absPage_inj hi] at hheld hmapped
  obtain ⟨-, hpage, halive⟩ := (holds_neutral Phase.neutral_idle).mp hheld
  refine ⟨k, frame, hk, hallows, hpage, halive, fun hun => hmapped ?_⟩
  obtain ⟨hphase, -⟩ | hfetching := hun
  · cases hphase
  · exact .inr (.inr hfetching)

theorem pageOffset_ne {virt virt' : Nat} (hlow : virtBase ≤ virt) (hlow' : virtBase ≤ virt')
    (hpage : relPage virt' = relPage virt) (hne : virt' ≠ virt) :
    pageOffset virt' ≠ pageOffset virt := by
  intro he
  have hdiv := absPage_relPage hlow
  rw [← hpage, absPage_relPage hlow'] at hdiv
  have hmod := congrArg Fin.val he
  simp only [pageOffset] at hmod
  apply hne
  rw [← Nat.div_add_mod virt' pageSize, ← Nat.div_add_mod virt pageSize, hdiv, hmod]

namespace Image

variable {f f' : Phase} {s s' : Kernel}

theorem poked (h : Image .idle s) (hm : Mapped .idle s) (ho : Owned .idle s) {virt : Nat}
    {byte : Byte} (hpermit : Permitted s virt Prot.write) : Image .idle (s.poked virt byte) := by
  intro p virt' hp hlow htop
  obtain ⟨k, frame, hk, hwrite, hpage, halive, hfilled⟩ := hm.accessed rfl hpermit
  have hcontents : (s.poked virt byte).mmu.contents =
      Function.update s.mmu.contents frame
        (Function.update (s.mmu.contents frame) (pageOffset virt) byte) := by
    rw [hm.coherent.contents_mapped hk]
    exact (hm.coherent.write hk hwrite _).2
  have hevents : (s.poked virt byte).events = s.events ++ [.stored s.current virt byte] := rfl
  have hs := h p virt' hp hlow htop
  by_cases hthis : p = s.current ∧ relPage virt' = relPage virt
  · obtain ⟨rfl, hrel⟩ := hthis
    by_cases hvirt : virt' = virt
    · subst hvirt
      have hrecorded : recorded s.current virt' (s.poked virt' byte).events =
          { recorded s.current virt' s.events with stored := some byte } := by
        rw [hevents, recorded_concat, Event.record, if_pos ⟨rfl, rfl⟩]
      constructor
      · intro frame' hpage' _
        have hframe : frame' = frame := Option.some.inj (hpage'.symm.trans hpage)
        obtain ⟨fill, hfill, hexe, hhdr, -⟩ := hs.resident frame' hpage' hfilled
        rw [hrecorded, hcontents, hframe, Function.update_self, Function.update_self]
        exact ⟨fill, hfill, hexe, hhdr, rfl⟩
      · intro hnone
        obtain hnone | hun := hnone
        · exact absurd (hnone.symm.trans hpage) (by simp)
        · exact absurd hun hfilled
    · refine hs.congr rfl rfl rfl ?_ Iff.rfl ?_
      · rw [hevents, recorded_concat, Event.record, if_neg fun he => hvirt he.2.symm]
      · intro frame' hpage' _
        rw [hrel] at hpage'
        have hframe : frame' = frame := Option.some.inj (hpage'.symm.trans hpage)
        rw [hcontents, hframe, Function.update_self,
          Function.update_of_ne (pageOffset_ne hpermit.1 hlow hrel hvirt)]
  · refine hs.congr rfl rfl rfl ?_ Iff.rfl ?_
    · rw [hevents, recorded_concat, Event.record, if_neg fun he => hthis ⟨he.1.symm, by rw [he.2]⟩]
    · intro frame' hpage' _
      have hne := frame_ne ho Phase.neutral_idle hp halive (relPage_lt hlow htop)
        (relPage_lt hpermit.1 hpermit.2.1) hpage' hpage hthis
      rw [hcontents, Function.update_of_ne hne]

/-- `user_proc` gives a process without pages its executable. -/
theorem executed (h : Image .idle s) {interruptable : Bool} {executable : FileId} {hdr : Header}
    (hpages : ∀ i, i < virtPages → s.me.pages i = none) :
    Image .idle (s.setProc s.current { s.me with
      interruptable := interruptable
      executable := executable
      hdr := hdr }) := by
  intro p virt hp hlow htop
  by_cases hc : p = s.current
  · subst hc
    have hproc := Function.update_self s.current { s.me with
      interruptable := interruptable
      executable := executable
      hdr := hdr } s.procs
    have hnone := hpages (relPage virt) (relPage_lt hlow htop)
    simp only [Kernel.setProc, hproc] at hp
    have hs := h s.current virt hp hlow htop
    constructor
    · intro frame hpage
      simp only [Kernel.setProc, hproc] at hpage
      exact absurd (hnone.symm.trans hpage) (by simp)
    · exact fun _ => hs.untouched (.inl hnone)
  · have hproc : (s.setProc s.current { s.me with
        interruptable := interruptable
        executable := executable
        hdr := hdr }).procs p = s.procs p := Function.update_of_ne hc _ _
    rw [hproc] at hp
    refine (h p virt hp hlow htop).congr ?_ ?_ ?_ rfl ?_ fun _ _ _ => rfl
    · rw [hproc]
    · rw [hproc]
    · rw [hproc]
    · simp only [Unfilled, hproc]
      rfl

end Image

theorem receivedBy_silent {p : Slot} {m : MsgType} {size : Nat} {msg : Option Message}
    {e : Event} (h : e ∈ Message.receivedBy p m size msg) : e.silent = true := by
  cases msg with
  | none => cases h
  | some msg =>
    rw [List.mem_singleton.mp h]
    rfl

theorem answered_silent {p : Slot} {purpose : Purpose} {msg : Option Message} {e : Event}
    (h : e ∈ purpose.answered p msg) : e.silent = true := by
  cases purpose with
  | recv => cases h
  | rpc | frame =>
    rw [List.mem_singleton.mp h]
    rfl

/-- A process that waits for an RPC of `frame_init` waits for the page. -/
theorem fetching_iff {proc : Process} {nest size i : Nat} {m : MsgType} {purpose : Purpose}
    (h : proc.stack = some ⟨nest, .recv m size purpose⟩) :
    proc.Fetching i ↔ purpose.phase = .taken i := by
  constructor
  · intro hgiven
    obtain ⟨_, _, _, server, fault, hs, hpage⟩ := hgiven
    cases h.symm.trans hs
    rw [← hpage]
    rfl
  · intro hphase
    cases purpose with
    | recv => cases hphase
    | rpc => cases hphase
    | frame server fault =>
      cases hphase
      exact ⟨nest, m, size, server, fault, h, rfl⟩

theorem fetching_nest {proc proc' : Process} {n k i : Nat} {call : Call}
    (h : proc.stack = some ⟨n, call⟩) (h' : proc'.stack = some ⟨k, call⟩) :
    proc.Fetching i ↔ proc'.Fetching i := by
  simp [Process.Fetching, h, h']

/-- While a fault waits for the file server, the stack of its process says so, and before and
after that the phase does. -/
theorem unfilled_resumed {s s' : Kernel} {nest size : Nat} {m : MsgType} {purpose : Purpose}
    (hcurrent : s'.current = s.current)
    (hother : ∀ p, p ≠ s.current → (s'.procs p).stack = (s.procs p).stack)
    (hstack : s.me.stack = some ⟨nest, .recv m size purpose⟩) (hstack' : s'.me.stack = none)
    (p : Slot) (i : Nat) : Unfilled purpose.phase s' p i ↔ Unfilled .idle s p i := by
  unfold Unfilled
  by_cases hp : p = s.current
  · subst hp
    have hnone : ¬ (s'.procs s.current).Fetching i := by
      intro hi
      rw [← hcurrent] at hi
      exact hi.stack hstack'
    have hfetching : (s.procs s.current).Fetching i ↔ purpose.phase = .taken i :=
      fetching_iff hstack
    simp [hcurrent, hnone, hfetching]
  · rw [fetching_congr (hother p hp)]
    simp [hcurrent, hp]

theorem Image.died {s : Kernel} {p : Slot} (h : Image .idle s) (hp : (s.procs p).Alive) :
    Image (.notify p) (s.died p) := by
  have hfetching := @fetching_update_iff s (s.died p) p _ rfl fun _ => fetching_congr rfl
  refine h.congr (fun q hq => ?_) (space_update rfl rfl) ⟨_, rfl, by simp [Event.silent]⟩ ?_
    fun _ => rfl
  · by_cases hqp : q = p
    · rw [hqp]
      exact hp
    · rwa [show (s.died p).procs q = s.procs q from Function.update_of_ne hqp _ _] at hq
  · have hcurrent : (s.died p).current = s.current := rfl
    intro q i _
    refine unfilled_congr ?_ hcurrent hfetching q i
    simp

theorem Move.image {w : Promise} {f f' : Phase} {s s' : Kernel} (hmem : Memory f s)
    (hm : Move w f s f' s') (h : Image f s) : Image f' s' := by
  obtain ⟨p, parent, rest, uid, owner, rfl, rfl, hs, rfl⟩ | ⟨p, rfl, rfl, hp, rfl⟩ | hk := hm.kept
  · exact h.spawned hs.stack
  · exact h.died hp
  have hnil : ∃ new, s.events = s.events ++ new ∧ ∀ e ∈ new, e.silent = true :=
    ⟨[], (List.append_nil _).symm, by simp⟩
  have hkeep {g : Phase} (hspace : ∀ p, (s'.procs p).space = (s.procs p).space)
      (hevents : ∃ new, s'.events = s.events ++ new ∧ ∀ e ∈ new, e.silent = true)
      (hunfilled : ∀ p i, Unfilled g s' p i ↔ Unfilled f s p i)
      (hcontents : ∀ frame, s'.mmu.contents frame = s.mmu.contents frame) : Image g s' :=
    h.congr (fun p => (hk.alive p).mp) hspace hevents (fun p i _ => hunfilled p i) hcontents
  -- one process is changed, and not its part in a page fault
  have hupdate {q : Slot} {proc : Process} {g : Phase}
      (hprocs : s'.procs = Function.update s.procs q proc)
      (hspace : proc.space = (s.procs q).space)
      (hevents : ∃ new, s'.events = s.events ++ new ∧ ∀ e ∈ new, e.silent = true)
      (hphase : ∀ i, g = .taken i ↔ f = .taken i) (hcurrent : s'.current = s.current)
      (hfetching : ∀ i, proc.Fetching i ↔ (s.procs q).Fetching i) (hmmu : s'.mmu = s.mmu) :
      Image g s' :=
    hkeep (space_update hprocs hspace) hevents
      (unfilled_congr hphase hcurrent (fetching_update_iff hprocs hfetching))
      (fun _ => by rw [hmmu])
  have hstill {g : Phase} (hprocs : s'.procs = s.procs)
      (hevents : ∃ new, s'.events = s.events ++ new ∧ ∀ e ∈ new, e.silent = true)
      (hphase : ∀ i, g = .taken i ↔ f = .taken i) (hcurrent : s'.current = s.current)
      (hcontents : ∀ frame, s'.mmu.contents frame = s.mmu.contents frame) : Image g s' :=
    hkeep (fun p => by rw [hprocs]) hevents
      (unfilled_congr hphase hcurrent fun p i => by rw [hprocs]) hcontents
  have hsame (i : Nat) : f = .taken i ↔ f = .taken i := Iff.rfl
  have hidle {proc proc' : Process} (i : Nat)
      (hproc : ∀ nest m size server fault,
        proc.stack ≠ some ⟨nest, .recv m size (.frame server fault)⟩)
      (hproc' : ∀ nest m size server fault,
        proc'.stack ≠ some ⟨nest, .recv m size (.frame server fault)⟩) :
      proc.Fetching i ↔ proc'.Fetching i :=
    iff_of_false (not_fetching hproc) (not_fetching hproc')
  cases hm with
  | spawn => exact absurd hk.pidGen (Nat.succ_ne_self _)
  | @die _ p halive =>
    have hdead := (hk.alive p).mpr halive
    simp [Kernel.died, Kernel.emit, Kernel.setProc, Process.Alive] at hdead
  | takeFrame _ _ _ hpage => exact h.frameTaken hpage
  | post hposted =>
    refine hkeep hposted.space ⟨_, hposted.events, by simp [Event.silent]⟩ ?_ fun _ => by
      rw [hposted.contents]
    exact unfilled_congr hsame hposted.current fun p i => fetching_congr (hposted.stack p)
  | wake => exact hupdate rfl rfl hnil hsame rfl (fun _ => fetching_congr rfl) rfl
  | swept => exact hstill rfl hnil (by simp) rfl fun _ => rfl
  | keepPage => exact hstill rfl hnil (by simp) rfl fun _ => rfl
  | freePage =>
    refine hstill ?_ hnil ?_ ?_ fun frame => ?_
    · dsimp only
    · simp
    · dsimp only
    · dsimp only
      exact (hmem.mapped.coherent.unmap _).contents frame
  | termed => exact hstill rfl hnil (by simp) rfl fun _ => rfl
  | release => exact hupdate rfl rfl hnil (by simp) rfl (fun _ => fetching_congr rfl) rfl
  | reap => exact hupdate rfl rfl hnil hsame rfl (fun _ => fetching_congr rfl) rfl
  | @switch _ next rest =>
    have hproc (p : Slot) : ((s.switched next rest).procs p).space = (s.procs p).space ∧
        ((s.switched next rest).procs p).stack = (s.procs p).stack := by
      obtain hp | ⟨-, rfl, hp⟩ := s.parked_procs rest p
      · exact ⟨congrArg Process.space hp, congrArg Process.stack hp⟩
      · have hspace := congrArg Process.space hp
        have hstack := congrArg Process.stack hp
        exact ⟨hspace, hstack⟩
    refine hkeep (fun p => (hproc p).1) ⟨[], ?_, by simp⟩ ?_ hmem.mapped.coherent.flush.contents
    · rw [List.append_nil]
      exact s.parked_events rest
    · exact unfilled_idle fun p i => fetching_congr (hproc p).2
  | enter hstack _ hcall =>
    refine hupdate rfl rfl hnil hsame rfl (fun i => hidle i ?_ ?_) rfl
    · intro _ _ _ _ _ hs
      obtain rfl | rfl := hcall <;> cases hs
    · intro _ _ _ _ _ hs
      cases hstack.symm.trans hs
  | @nest _ stack n hstack =>
    exact hupdate rfl rfl hnil hsame rfl (fun i => fetching_nest rfl hstack) rfl
  | leave hstack hcall =>
    refine hupdate rfl rfl hnil hsame rfl (fun i => hidle i (by simp) ?_) rfl
    intro _ _ _ _ _ hs
    cases hstack.symm.trans hs
    obtain hc | hc := hcall <;> cases hc
  | @resume _ m size purpose hstack =>
    refine hkeep (space_update rfl rfl) ⟨_, List.append_assoc _ _ _, fun e he => ?_⟩ ?_ fun _ => rfl
    · obtain he | he := List.mem_append.mp he
      · exact receivedBy_silent he
      · exact answered_silent he
    · refine unfilled_resumed rfl (fun p hp => ?_) hstack ?_
      · exact congrArg Process.stack (Function.update_of_ne hp _ _)
      · exact congrArg Process.stack (Function.update_self s.current _ s.procs)
  | take =>
    exact hupdate rfl rfl ⟨_, rfl, fun e he => receivedBy_silent he⟩ hsame rfl
      (fun _ => fetching_congr rfl) rfl
  | @call _ t q contents server size purpose hstack hstate hposted hpid hself =>
    have hprocs := t.called_procs server size purpose
    refine hkeep (fun p => ?_) ⟨[.accepted q .request ⟨s.me.pid, s.me.uid, contents⟩,
      .requested t.current server], ?_, ?_⟩ (fun p i => ?_) fun frame => ?_
    · rw [← hposted.space p]
      exact space_update hprocs rfl p
    · change t.events ++ _ = _
      rw [hposted.events, List.append_assoc]
      rfl
    · simp [Event.silent]
    · have hcurrent : s.current = (t.called server size purpose).current := hposted.current.symm
      have hme := congrArg Process.stack (congrFun hprocs t.current)
      rw [Function.update_self] at hme
      refine (unfilled_resumed hcurrent (fun r hr => ?_) hme hstack p i).symm
      have hne : r ≠ t.current := hr
      rw [← hposted.stack r, hprocs, Function.update_of_ne hne]
    · change t.mmu.contents frame = _
      rw [hposted.contents]
  | block hstack =>
    refine hupdate rfl rfl hnil hsame rfl (fun i => hidle i (by intro _ _ _ _ _ h; cases h) ?_) rfl
    intro _ _ _ _ _ hs
    cases hstack.symm.trans hs
  | exec hstack hstate hpages => exact h.executed hpages
  | fill hstack hstate hpage => exact h.filled hmem.mapped hmem.owned hstack hstate hpage _
  | map hstack hstate hlow htop hpage hindex =>
    obtain ⟨hvirt, hphys⟩ := hmem.mapped.map_free hmem.owned hstate hlow htop hpage hindex
    refine hstill rfl hnil (fun i => ?_) rfl
      (hmem.mapped.coherent.map_contents (Mapped.mapProt_read _ _ _) hvirt hphys)
    obtain rfl | ⟨rfl, -⟩ := hindex <;> simp
  | poke hstack hstate hpermit => exact h.poked hmem.mapped hmem.owned hpermit
  | sync => exact hstill rfl hnil hsame rfl hmem.mapped.coherent.sync.contents
  | advance => exact hstill rfl hnil hsame rfl fun _ => rfl
  | shutdown => exact hstill rfl hnil hsame rfl fun _ => rfl
  | peek =>
    intro p virt hp hlow htop
    exact (h p virt hp hlow htop).congr rfl rfl rfl (recorded_concat _ _ _ _) Iff.rfl fun _ _ _ => rfl

/-- What a load may return and how a page may be filled, given the past. -/
def Faithful (past : List Event) : Event → Prop
  | .loaded p virt byte => (recorded p virt past).byte virt = some byte
  | .filled p executable hdr page contents =>
    Assigned past p executable hdr (absPage page) contents ∧
      ∀ virt, virtBase ≤ virt → virt < virtTop → relPage virt = page →
        recorded p virt past = .blank
  | _ => True

theorem Event.silent_faithful {e : Event} (h : e.silent = true) (past : List Event) :
    Faithful past e := by
  cases e <;> trivial

theorem Image.peeked {s : Kernel} (h : Image .idle s) (hm : Mapped .idle s) {virt : Nat}
    (hpermit : Permitted s virt Prot.read) :
    Faithful s.events (.loaded s.current virt
      (s.mmu.memory (virt / pageSize) (pageOffset virt))) := by
  obtain ⟨k, frame, hk, -, hpage, halive, hfilled⟩ := hm.accessed rfl hpermit
  obtain ⟨fill, hfill, -, -, hbyte⟩ :=
    (h s.current virt halive hpermit.1 hpermit.2.1).resident frame hpage hfilled
  rw [hm.coherent.contents_mapped hk] at hbyte
  simp only [Faithful, Recorded.byte, hfill, Option.map_some, hbyte]

theorem Move.history {w : Promise} {f f' : Phase} {s s' : Kernel} (hm : Move w f s f' s') :
    (∃ new, s'.events = s.events ++ new ∧ ∀ e ∈ new, e.silent = true) ∨
    (∃ p pid uid owner, s'.events = s.events ++ [.born p pid uid owner]) ∨
    (∃ page frame contents, f = .taken page ∧ s.me.state = .runnable ∧
      Assigned s.events s.current s.me.executable s.me.hdr (absPage page) contents ∧
      s' = s.filled page frame contents) ∨
    (∃ virt byte, f = .idle ∧ Permitted s virt Prot.write ∧ s' = s.poked virt byte) ∨
    ∃ virt, f = .idle ∧ Permitted s virt Prot.read ∧ s' = s.peeked virt := by
  have hnil : s.events = s.events ++ [] := (List.append_nil _).symm
  cases hm with
  | spawn => exact .inr (.inl ⟨_, _, _, _, rfl⟩)
  | @fill _ page frame contents _ hstate _ hassigned =>
    exact .inr (.inr (.inl ⟨page, frame, contents, rfl, hstate, hassigned, rfl⟩))
  | @poke _ virt byte _ _ hpermit =>
    exact .inr (.inr (.inr (.inl ⟨virt, byte, rfl, hpermit, rfl⟩)))
  | @peek _ virt _ _ hpermit => exact .inr (.inr (.inr (.inr ⟨virt, rfl, hpermit, rfl⟩)))
  | die => exact .inl ⟨_, rfl, by simp [Event.silent]⟩
  | post hposted => exact .inl ⟨_, hposted.events, by simp [Event.silent]⟩
  | @switch _ next rest => exact .inl ⟨[], (s.parked_events rest).trans hnil, by simp⟩
  | take => exact .inl ⟨_, rfl, fun e he => receivedBy_silent he⟩
  | resume =>
    refine .inl ⟨_, List.append_assoc _ _ _, fun e he => ?_⟩
    obtain he | he := List.mem_append.mp he
    · exact receivedBy_silent he
    · exact answered_silent he
  | @call _ t q contents server size purpose _ _ hposted =>
    refine .inl ⟨[.accepted q .request ⟨s.me.pid, s.me.uid, contents⟩,
      .requested t.current server], ?_, by simp [Event.silent]⟩
    change t.events ++ _ = _
    rw [hposted.events, List.append_assoc]
    rfl
  | _ => exact .inl ⟨[], hnil, by simp⟩

theorem Move.faithful {w : Promise} {f f' : Phase} {s s' : Kernel} (hmem : Memory f s)
    (hi : Image f s) (hm : Move w f s f' s') (h : Throughout Faithful s.events) :
    Throughout Faithful s'.events := by
  obtain ⟨new, he, hnew⟩ | ⟨p, pid, uid, owner, he⟩ |
    ⟨page, frame, contents, rfl, hstate, hassigned, rfl⟩ | ⟨virt, byte, rfl, hpermit, rfl⟩ |
    ⟨virt, rfl, hpermit, rfl⟩ := hm.history
  · rw [he]
    exact h.append fun e hmem past => Event.silent_faithful (hnew e hmem) past
  · rw [he]
    exact h.concat trivial
  · refine h.concat ⟨hassigned, fun virt hlow htop hvirt => ?_⟩
    exact (hi s.current virt (.inl hstate) hlow htop).untouched (.inr (.inl ⟨by rw [hvirt], rfl⟩))
  · exact h.concat trivial
  · exact h.concat (hi.peeked hmem.mapped hpermit)

/-- What the processes see of their memories, in a state with its history. -/
structure Transparent (s : Kernel) : Prop where
  /-- a load returns the last byte put there, or else the one the page was filled with, and a
  page is filled once, as the executable assigns it -/
  history : Throughout Faithful s.events
  /-- a page holds what was put there by its own process, which has filled it for its own
  executable -/
  resident : ∀ p virt frame, (s.procs p).Alive → virtBase ≤ virt → virt < virtTop →
    (s.procs p).pages (relPage virt) = some frame → ¬ (s.procs p).Fetching (relPage virt) →
    (recorded p virt s.events).byte virt = some (s.mmu.contents frame (pageOffset virt)) ∧
      ∃ fill, (recorded p virt s.events).fill = some fill ∧
        fill.executable = (s.procs p).executable ∧ fill.hdr = (s.procs p).hdr
  untouched : ∀ p virt, (s.procs p).Alive → virtBase ≤ virt → virt < virtTop →
    (s.procs p).pages (relPage virt) = none ∨ (s.procs p).Fetching (relPage virt) →
    recorded p virt s.events = .blank

theorem Image.transparent {s : Kernel} (h : Image .idle s) (hh : Throughout Faithful s.events) :
    Transparent s where
  history := hh
  resident p virt frame hp hlow htop hpage hfetching := by
    have hfilled : ¬ Unfilled .idle s p (relPage virt) := by
      intro hun
      obtain ⟨hphase, -⟩ | hun := hun
      · cases hphase
      · exact hfetching hun
    obtain ⟨fill, hfill, hexe, hhdr, hbyte⟩ := (h p virt hp hlow htop).resident frame hpage hfilled
    refine ⟨?_, fill, hfill, hexe, hhdr⟩
    simp only [Recorded.byte, hfill, Option.map_some, hbyte]
  untouched p virt hp hlow htop hnone := by
    refine (h p virt hp hlow htop).untouched ?_
    obtain hnone | hfetching := hnone
    · exact .inl hnone
    · exact .inr (.inr hfetching)

theorem image_procInitialize (frames : Nat → Page) : Image .idle (procInitialize frames) := by
  intro p virt hp hlow htop
  obtain ⟨pid, owner, state, hproc⟩ := procInitialize_fresh frames p
  constructor
  · intro frame hpage
    rw [hproc] at hpage
    cases hpage
  · intro _
    rw [procInitialize_events]
    simp only [recorded, List.foldl_cons, List.foldl_nil, Event.record]
    split <;> rfl

/-- Along every run the memories are transparent. -/
theorem run_transparent (frames : Nat → Page) (actions : List Action)
    (h : Honored .bare actions (procInitialize frames)) :
    Outcome (run actions) (fun _ s => Transparent s) (fun _ _ => True) (procInitialize frames) := by
  have hfaithful : Throughout Faithful (procInitialize frames).events := by
    rw [procInitialize_events, ← List.nil_append [_]]
    exact Throughout.nil.concat trivial
  have hrun := outcome_run
    (I := fun f s => Memory f s ∧ Image f s ∧ Throughout Faithful s.events)
    (fun hc hm hi => ⟨hm.memory trivial hc hi.1, hm.image hi.1 hi.2.1,
      hm.faithful hi.1 hi.2.1 hi.2.2⟩)
    h (atRest_procInitialize frames .bare)
    ⟨memory_procInitialize frames, image_procInitialize frames, hfaithful⟩
  refine hrun.mono ?_ fun _ _ _ => trivial
  intro _ s hpost
  obtain ⟨_, _, himage, hhistory⟩ := hpost
  exact himage.transparent hhistory

theorem run_transparent_example :
    Transparent (final (run pagingExample (procInitialize fun _ _ => 0))) ∧
      (final (run pagingExample (procInitialize fun _ _ => 0))).events.any (fun e =>
        match e with
        | .loaded _ virt byte => virt == virtBase && byte == 7
        | _ => false) = true := by
  have hhonored := honored_pagingExample fun _ _ => 0
  have hok : returned (run pagingExample (procInitialize fun _ _ => 0)) = some ⟨⟩ := by
    decide +kernel
  refine ⟨?_, by decide +kernel⟩
  generalize pagingExample = actions at hhonored hok ⊢
  exact (run_transparent _ actions hhonored).ok (eq_ok_of_returned hok)

end Egos.Grass
