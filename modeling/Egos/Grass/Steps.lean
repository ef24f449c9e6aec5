import Egos.Grass.Scheduler

/-!
# The steps of the kernel are moves

Every step that is possible leads, by moves alone, from a state between two steps to another
one, or stops. `s₀` is the state at the beginning of the step and `s` the one that the moves
have reached so far.
-/
namespace Egos.Grass

open Egos.Lib Egos.Earth

set_option autoImplicit false

/-- If the process waits for a page, the fault is legal and the page has been asked for. -/
def PendingIn (w : Promise) (events : List Event) (p : Slot) (proc : Process) : Prop :=
  ∀ nest m size server fault,
    proc.stack = some ⟨nest, .recv m size (.frame server fault)⟩ →
      fault.Legal w proc ∧ ∃ contents later, Asked p server contents events later ∧
        ReadsPage proc (fault.virt / pageSize) server contents

/-- The faults that wait for their page. -/
def Pending (w : Promise) (s : Kernel) : Prop := ∀ p, PendingIn w s.events p (s.procs p)

theorem absPage_relPage {virt : Nat} (hlow : virtBase ≤ virt) :
    absPage (relPage virt) = virt / pageSize := by
  unfold absPage relPage virtBase pageSize at *
  omega

theorem relPage_lt {virt : Nat} (hlow : virtBase ≤ virt) (htop : virt < virtTop) :
    relPage virt < virtPages := by
  unfold relPage virtTop at *
  rw [Nat.div_lt_iff_lt_mul (by decide)]
  omega

section

variable {w : Promise} {s₀ s : Kernel} {f : Phase}

theorem outcome_poke {virt : Nat} {byte : Byte} (hm : Moves w .idle s₀ .idle s) (hr : Running s) :
    Outcome (poke virt byte) (fun _ s' => Moves w .idle s₀ .idle s' ∧ Running s')
      (fun e _ => Fails w s₀ e) s := by
  unfold poke
  simp only [Outcome.bind_iff, Outcome.get_iff]
  split
  · rename_i hp
    exact ⟨hm.step (.poke hr.stack hr.state hp), hr.stack, hr.state⟩
  · exact fails_of_ne (fun a he => by cases he)

theorem outcome_peek {virt : Nat} (hm : Moves w .idle s₀ .idle s) (hr : Running s) :
    Outcome (peek virt) (fun _ s' => Moves w .idle s₀ .idle s' ∧ Running s')
      (fun e _ => Fails w s₀ e) s := by
  unfold peek
  simp only [Outcome.bind_iff, Outcome.get_iff]
  split
  · rename_i hp
    exact ⟨hm.step (.peek hr.stack hr.state hp), hr.stack, hr.state⟩
  · exact fails_of_ne (fun a he => by cases he)

theorem outcome_touch {virt : Nat} {touch : Touch} (hm : Moves w .idle s₀ .idle s)
    (hr : Running s) :
    Outcome (touch.perform virt) (fun _ s' => Moves w .idle s₀ .idle s' ∧ Running s')
      (fun e _ => Fails w s₀ e) s := by
  cases touch with
  | none => exact ⟨hm, hr⟩
  | put byte => exact outcome_poke hm hr
  | get => exact outcome_peek hm hr

theorem outcome_mapPage (fault : Fault) {frame : Nat} (hm : Moves w .idle s₀ f s) (hr : Running s)
    (hlow : virtBase ≤ fault.virt) (htop : fault.virt < virtTop)
    (hpage : s.me.pages (relPage fault.virt) = some frame)
    (hf : f = .filled (relPage fault.virt) ∨
      f = .idle ∧ fault.index = s.mmu.getEntry (fault.virt / pageSize))
    (hshield : w.shielded s.me.hdr (fault.virt / pageSize) → fault.access = .read) :
    Outcome (mapPage fault) (fun _ s' => Moves w .idle s₀ .idle s' ∧ Running s')
      (fun e _ => Fails w s₀ e) s := by
  have hindex : f = .filled (relPage fault.virt) ∨ f = .idle ∧
      ∀ i ∈ s.mmu.getEntry (fault.virt / pageSize), i = fault.index.getD s.tlbIndex := by
    obtain hf | ⟨hf, hi⟩ := hf
    · exact .inl hf
    · refine .inr ⟨hf, fun i hmem => ?_⟩
      rw [hi, Option.mem_def.mp hmem, Option.getD_some]
  unfold mapPage
  simp only [Outcome.bind_iff, Outcome.get_iff, hpage]
  split
  · simp only [Outcome.bind_iff, Outcome.modify_iff]
    have hadv := hm.step (.advance (i := nextIndex s.tlbIndex))
    exact outcome_touch (hadv.step (.map hr.stack hr.state hlow htop hpage hindex hshield))
      ⟨hr.stack, hr.state⟩
  · simp only [Outcome.bind_iff, Outcome.modify_iff]
    exact outcome_touch (hm.step (.map hr.stack hr.state hlow htop hpage hindex hshield))
      ⟨hr.stack, hr.state⟩

theorem outcome_fill_map (fault : Fault) (contents : Page) {frame : Nat}
    (hm : Moves w .idle s₀ (.taken (relPage fault.virt)) s) (hr : Running s)
    (hlow : virtBase ≤ fault.virt) (htop : fault.virt < virtTop)
    (hpage : s.me.pages (relPage fault.virt) = some frame)
    (hassigned : Assigned s.events s.current s.me.executable s.me.hdr (fault.virt / pageSize)
      contents)
    (hshield : w.shielded s.me.hdr (fault.virt / pageSize) → fault.access = .read) :
    Outcome (fillFrame fault.virt contents >>= fun _ => mapPage fault)
      (fun _ s' => Moves w .idle s₀ .idle s' ∧ Running s') (fun e _ => Fails w s₀ e) s := by
  unfold fillFrame
  simp only [Outcome.bind_iff, Outcome.get_iff, hpage, Outcome.modify_iff]
  have hfill : Move w (.taken (relPage fault.virt)) s (.filled (relPage fault.virt))
    (s.filled (relPage fault.virt) frame contents) :=
    .fill hr.stack hr.state hpage (by rw [absPage_relPage hlow]; exact hassigned)
  exact outcome_mapPage fault (hm.step hfill) ⟨hr.stack, hr.state⟩ hlow htop hpage (.inl rfl) hshield

theorem outcome_sysExit (h : Consistent s₀) (hm : Moves w .idle s₀ .idle s) (hr : Running s)
    (status : Int) :
    Outcome (sysExit status) (fun _ s' => Moves w .idle s₀ .idle s' ∧ s'.me.stack ≠ none)
      (fun e _ => Fails w s₀ e) s := by
  unfold sysExit
  simp only [Outcome.bind_iff, Outcome.get_iff]
  refine Outcome.post (outcome_procTerm w (hm.consistent h) (.inl hr.state) status) ?_
  intro _ t hpost
  obtain ⟨hmoves, hquiet⟩ := hpost
  have hdied : (s.died s.current).me = { s.me with state := .zombie } :=
    Function.update_self s.current _ s.procs
  have hme : t.me = { s.me with state := .zombie } := by
    rw [← hdied, Kernel.me, hquiet.current]
    apply hquiet.dead
    change ¬ (s.died s.current).me.Alive
    rw [hdied]
    simp [Process.Alive]
  have hstack : t.me.stack = none := by rw [hme]; exact hr.stack
  have hterm : Move w (.release s.current virtPages) t .idle t :=
    .termed (.inl hquiet.current.symm)
  refine ⟨hm.trans ((hmoves.step hterm).step (.enter hstack (.inl (by rw [hme])) (.inr rfl))), ?_⟩
  rw [Kernel.setStack_me]
  exact fun he => by cases he

theorem Posted.running {s' : Kernel} {p : Slot} {m : MsgType} {msg : Message}
    (h : Posted s p m msg s') (hr : Running s) : Running s' := by
  have hq := h.quiet
  refine ⟨?_, ?_⟩
  · rw [Kernel.me, hq.stack, hq.current]
    exact hr.stack
  · rw [Kernel.me, hq.current]
    exact hq.runnable _ hr.state

theorem Process.taken_nil {proc : Process} {m : MsgType} (h : (proc.mboxes m).messages = []) :
    proc.taken m = proc := by
  have hmq : ({ proc.mboxes m with messages := (proc.mboxes m).messages.tail } : MsgQueue) =
      proc.mboxes m := by
    rw [h, List.tail_nil, ← h]
  rw [Process.taken, hmq, Process.setMbox, Function.update_eq_self]

theorem Kernel.setProc_me (s : Kernel) : s.setProc s.current s.me = s := by
  rw [Kernel.setProc, Kernel.me, Function.update_eq_self]

theorem outcome_takeMessage {m : MsgType} {size : Nat} {Q : Option Message → Kernel → Prop}
    {E : Halt → Kernel → Prop} (hs : s.me.state = .runnable)
    (hq : Q (s.me.firstMessage m size) (s.taken m size)) :
    Outcome (takeMessage m size) Q E s := by
  unfold takeMessage
  simp only [Outcome.bind_iff, Outcome.get_iff]
  refine outcome_check (by simp [hs]) ?_
  cases hmsg : (s.me.mboxes m).messages with
  | nil =>
    have hfirst : s.me.firstMessage m size = none := by simp [Process.firstMessage, hmsg]
    have htaken : s.taken m size = s := by
      simp [Kernel.taken, Process.taken_nil hmsg, Kernel.setProc_me, hfirst, Message.receivedBy]
    rw [hfirst, htaken] at hq
    exact hq
  | cons msg rest =>
    have hfirst : s.me.firstMessage m size =
        some { msg with contents := msg.contents.take size } := by
      simp [Process.firstMessage, hmsg]
    have htaken : s.taken m size = (s.setProc s.current (s.me.setMbox m
        { s.me.mboxes m with messages := rest })).emit
          (.received s.current m size { msg with contents := msg.contents.take size }) := by
      simp only [Kernel.taken, hfirst, Message.receivedBy, Process.taken, hmsg, List.tail_cons]
      rfl
    rw [hfirst, htaken] at hq
    exact hq

/-- What `proc_recv` of a running process does before it waits. -/
theorem outcome_procRecv {m : MsgType} {maxTime now size : Nat} {purpose : Purpose}
    {Q : Option (Option Message) → Kernel → Prop} {E : Halt → Kernel → Prop} (h : Consistent s)
    (hr : Running s)
    (hblock : (s.me.mboxes m).messages = [] →
      Q none (s.blocked m maxTime now ⟨0, .recv m size purpose⟩))
    (hreply : (s.me.mboxes m).messages ≠ [] → m = .reply → E (.assertion .recvNoReply) s)
    (htake : (s.me.mboxes m).messages ≠ [] → m ≠ .reply →
      Q (some (s.me.firstMessage m size)) (s.taken m size)) :
    Outcome (procRecv m maxTime now size purpose) Q E s := by
  have hidle : (s.me.mboxes m).waiting = false := h.idle _ m hr.state
  unfold procRecv
  simp only [Outcome.bind_iff, Outcome.get_iff]
  refine outcome_check (by simp [hr.state]) (outcome_check (by simp [hidle]) ?_)
  split
  · rename_i hempty
    have hpost := hblock hempty
    simp only [Outcome.bind_iff, Outcome.modify_iff, enter, Outcome.pure_iff]
    convert hpost using 1
    simp [Kernel.blocked, Kernel.setStack, Kernel.setProc, Process.blocked]
  · rename_i hne
    by_cases hm : m = .reply
    · simp only [Outcome.bind_iff]
      exact outcome_check_false (decide_eq_false (not_not.mpr hm)) (hreply hne hm)
    · simp only [Outcome.bind_iff]
      exact outcome_check (by simpa using hm) (outcome_takeMessage hr.state (htake hne hm))

theorem blocked_stack (s : Kernel) (m : MsgType) (maxTime now : Nat) (stack : Stack) :
    (s.blocked m maxTime now stack).me.stack = some stack := by
  simp [Kernel.me, Kernel.blocked, Kernel.setProc, Process.blocked]

theorem outcome_sysRecv {m : MsgType} (maxTime now size : Nat) (h : Consistent s) (hr : Running s)
    (hreply : w.replyToRpc → m ≠ .reply) :
    Outcome (procRecv m maxTime now size .recv) (fun _ s' => Moves w .idle s .idle s' ∧ Ready s')
      (fun e _ => Fails w s e) s := by
  refine outcome_procRecv h hr (fun hempty => ?_) (fun hne hm => ?_) (fun hne hm => ?_)
  · refine ⟨.single (.block hr.stack hr.state hempty hreply), ready_of_stack ?_⟩
    rw [blocked_stack]
    simp
  · subst hm
    intro a ha
    cases ha
    exact ⟨_, s, .refl, hr.stack, hne⟩
  · refine ⟨.single (.take hr.stack hr.state hm), fun _ => ?_⟩
    simp [Kernel.me, Kernel.taken, Kernel.setProc, Process.taken, Process.setMbox]
    exact hr.state

/-- `sys_rpc` sends nothing, or it sends the request and waits for the reply. -/
theorem outcome_sysRpc {pid size : Nat} {request : List Byte} (purpose : Purpose)
    (h : Consistent s₀) (hm : Moves w .idle s₀ purpose.phase s) (hr : Running s)
    (hserver : purpose.server = some pid)
    (hfault : ∀ fault ∈ purpose.fault, fault.Legal w s.me ∧
      ReadsPage s.me (fault.virt / pageSize) pid request) :
    Outcome (sysRpc pid request size purpose)
      (fun r s' => r = true ∧ Moves w .idle s₀ .idle s' ∧ Ready s' ∨ r = false ∧ s' = s)
      (fun e _ => Fails w s₀ e) s := by
  have hc := hm.consistent h
  unfold sysRpc
  simp only [Outcome.bind_iff, Outcome.get_iff]
  split
  · exact .inr ⟨rfl, rfl⟩
  rename_i hself
  simp only [Outcome.bind_iff]
  refine Outcome.post (outcome_procSend hc _ _ _ _ _) ?_
  rintro r t (⟨rfl, rfl, -⟩ | ⟨rfl, q, hfind, hpost⟩)
  · exact .inr ⟨rfl, rfl⟩
  have hpid : (s.procs q).pid = pid := (procFind_some hfind).2
  have hq : q ≠ s.current := by
    rintro rfl
    exact hself hpid.symm
  have hme : (t.requested pid).me = { s.me with server := pid } := by
    rw [Kernel.requested_me, hpost.me hq]
  have hrun : Running (t.requested pid) := by
    constructor
    · rw [hme]; exact hr.stack
    · rw [hme]; exact hr.state
  simp only [Outcome.bind_iff, Outcome.modify_iff, if_true]
  change Outcome _ _ _ (t.requested pid)
  refine outcome_procRecv ((hc.posted hpost).requested pid) hrun (fun hempty => ?_)
    (fun hne _ => ?_) (fun _ hm => absurd rfl hm)
  · rw [hme] at hempty
    have hcall : Move w purpose.phase s .idle (t.called pid size purpose) :=
      .call hr.stack hr.state hpost hpid hq hempty hserver hfault
    refine .inl ⟨rfl, hm.step hcall, ready_of_stack ?_⟩
    rw [blocked_stack]
    simp
  · rw [hme] at hne
    intro a ha
    cases ha
    exact ⟨_, s, hm, hr.stack, hne⟩

theorem frameTaken_me (s : Kernel) (page frame : Nat) (rest : List Nat) :
    (s.frameTaken page frame rest).me =
      { s.me with pages := Function.update s.me.pages page (some frame) } :=
  Function.update_self s.current _ s.procs

theorem outcome_procPagefault {virt : Nat} {access : Access} {touch : Touch}
    (h : Consistent s₀) (hm : Moves w .idle s₀ .idle s) (hr : Running s)
    (hshield : w.shielded s.me.hdr (virt / pageSize) → ∀ mapped a,
      settleAccess (s.me.hdr.segment (virt / pageSize)) mapped access = some a → a = .read) :
    Outcome (procPagefault virt access touch) (fun _ s' => Moves w .idle s₀ .idle s' ∧ Ready s')
      (fun e _ => Fails w s₀ e) s := by
  have hexit : Outcome (sysExit statIllmem) (fun _ s' => Moves w .idle s₀ .idle s' ∧ Ready s')
      (fun e _ => Fails w s₀ e) s :=
    (outcome_sysExit h hm hr statIllmem).post fun _ s' hs => ⟨hs.1, ready_of_stack hs.2⟩
  unfold procPagefault
  simp only [Outcome.bind_iff, Outcome.get_iff]
  refine outcome_check (by simp [hr.state]) ?_
  split
  · exact hexit
  rename_i hrange
  have hlow : virtBase ≤ virt := by omega
  have htop : virt < virtTop := by omega
  split
  · exact hexit
  rename_i a ha
  have hread : w.shielded s.me.hdr (virt / pageSize) → a = .read := fun hs => hshield hs _ a ha
  cases hpage : s.me.pages (relPage virt) with
  | some frame =>
    refine (outcome_mapPage ⟨virt, a, _, touch⟩ hm hr hlow htop hpage (.inr ⟨rfl, rfl⟩) hread).post ?_
    exact fun _ s' hs => ⟨hs.1, hs.2.ready⟩
  | none =>
    simp only [Outcome.bind_iff]
    cases hentry : s.mmu.getEntry (virt / pageSize) with
    | some i =>
      intro b hb
      cases hb
      exact ⟨_, s, hm, virt, hlow, htop, hr.stack, hpage, by rw [hentry]; exact (by simp)⟩
    | none =>
      refine outcome_check rfl ?_
      unfold procFrameAlloc
      simp only [Outcome.bind_iff, Outcome.get_iff]
      cases hff : s.freeframes with
      | nil => exact fails_of_ne (fun a he => by cases he)
      | cons frame rest =>
        have htake : Move w .idle s (.taken (relPage virt))
            (s.frameTaken (relPage virt) frame rest) :=
          .takeFrame hr.stack hr.state hff hpage (relPage_lt hlow htop)
            (by rw [absPage_relPage hlow]; exact hentry)
        have hme := frameTaken_me s (relPage virt) frame rest
        have hrun : Running (s.frameTaken (relPage virt) frame rest) :=
          ⟨by rw [hme]; exact hr.stack, by rw [hme]; exact hr.state⟩
        have hpage' : (s.frameTaken (relPage virt) frame rest).me.pages (relPage virt) =
            some frame := by
          rw [hme]
          exact Function.update_self _ _ _
        have hread' : w.shielded (s.frameTaken (relPage virt) frame rest).me.hdr
            (virt / pageSize) → a = .read := by
          rw [hme]
          exact hread
        change Outcome _ _ _ (s.frameTaken (relPage virt) frame rest)
        split
        · rename_i hoffset
          refine (outcome_fill_map ⟨virt, a, none, touch⟩ (fun _ => 0) (hm.step htake) hrun hlow
            htop hpage' ?_ hread').post ?_
          · unfold Assigned
            rw [hme]
            simp only [hoffset]
          · exact fun _ s' hs => ⟨hs.1, hs.2.ready⟩
        · rename_i offset hoffset
          refine Outcome.seq (outcome_sysRpc (.frame _ ⟨virt, a, none, touch⟩) h
            (hm.step htake) hrun rfl ?_) ?_
          · intro fault hf
            cases hf
            rw [hme]
            exact ⟨⟨rfl, hlow, htop, hread⟩, rfl, offset, hoffset, rfl⟩
          · rintro r s' (⟨rfl, hmoves, hready⟩ | ⟨rfl, rfl⟩)
            · exact outcome_check rfl ⟨hmoves, hready⟩
            · intro b hb
              cases hb
              exact ⟨_, _, hm.step htake, trivial⟩

namespace PendingIn

variable {events new : List Event} {p : Slot} {proc proc' : Process}

theorem append (h : PendingIn w events p proc) (hnew : ∀ e ∈ new, e.begins p = false) :
    PendingIn w (events ++ new) p proc := by
  intro nest m size server fault hs
  obtain ⟨hlegal, contents, later, hasked, hreads⟩ := h nest m size server fault hs
  exact ⟨hlegal, contents, later ++ new, hasked.append hnew, hreads⟩

theorem congr (h : PendingIn w events p proc) (hstack : proc'.stack = proc.stack)
    (hhdr : proc'.hdr = proc.hdr) (hexe : proc'.executable = proc.executable) :
    PendingIn w events p proc' := by
  intro nest m size server fault hs
  obtain ⟨hlegal, contents, later, hasked, hreads⟩ := h nest m size server fault (hstack ▸ hs)
  refine ⟨⟨hlegal.index, hlegal.low, hlegal.top, ?_⟩, contents, later, hasked, ?_⟩
  · rw [hhdr]
    exact hlegal.shield
  · unfold ReadsPage
    rw [hhdr, hexe]
    exact hreads

theorem of_none (h : proc.stack = none) : PendingIn w events p proc := by
  intro nest m size server fault hs
  rw [h] at hs
  cases hs

theorem of_call {nest : Nat} {call : Call} (h : proc.stack = some ⟨nest, call⟩)
    (hcall : ∀ m size server fault, call ≠ .recv m size (.frame server fault)) :
    PendingIn w events p proc := by
  intro nest m size server fault hs
  rw [h] at hs
  cases hs
  exact absurd rfl (hcall m size server fault)

end PendingIn

namespace Pending

variable {s' : Kernel} {new : List Event}

/-- One process is changed, and the events are not the beginning of something in others. -/
theorem setProc (h : Pending w s) {p : Slot} {proc : Process}
    (hprocs : s'.procs = Function.update s.procs p proc) (hevents : s'.events = s.events ++ new)
    (hnew : ∀ q, q ≠ p → ∀ e ∈ new, e.begins q = false)
    (hp : PendingIn w (s.events ++ new) p proc) : Pending w s' := by
  intro q
  rw [hprocs, hevents]
  by_cases hq : q = p
  · subst hq
    rw [Function.update_self]
    exact hp
  · rw [Function.update_of_ne hq]
    exact (h q).append (hnew q hq)

theorem same (h : Pending w s) (hprocs : s'.procs = s.procs)
    (hevents : s'.events = s.events ++ new) (hnew : ∀ q, ∀ e ∈ new, e.begins q = false) :
    Pending w s' := by
  intro q
  rw [hprocs, hevents]
  exact (h q).append (hnew q)

theorem update (h : Pending w s) {p : Slot} {proc : Process}
    (hprocs : s'.procs = Function.update s.procs p proc) (hevents : s'.events = s.events ++ new)
    (hnew : ∀ q, ∀ e ∈ new, e.begins q = false) (hstack : proc.stack = (s.procs p).stack)
    (hhdr : proc.hdr = (s.procs p).hdr) (hexe : proc.executable = (s.procs p).executable) :
    Pending w s' :=
  h.setProc hprocs hevents (fun q _ => hnew q) (((h p).append (hnew p)).congr hstack hhdr hexe)

theorem posted (h : Pending w s) {p : Slot} {m : MsgType} {msg : Message}
    (hp : Posted s p m msg s') : Pending w s' := by
  have hdep : Pending w (s.deposited p m msg) :=
    h.update rfl rfl (by simp [Event.begins]) rfl rfl rfl
  cases hp with
  | kept => exact hdep
  | woke => exact hdep.update rfl (List.append_nil _).symm (by simp) rfl rfl rfl

theorem released (h : Pending w s) (p : Slot) (rest : List Slot) :
    Pending w ({ s with runnable := rest }.released p) :=
  h.update rfl (List.append_nil _).symm (by simp) rfl rfl rfl

end Pending

theorem Move.pending {f' : Phase} {s' : Kernel} (hm : Move w f s f' s') (h : Pending w s) :
    Pending w s' := by
  have hnil : s.events = s.events ++ [] := (List.append_nil _).symm
  have hcurrent {t : Kernel} {proc : Process} {new : List Event}
      (hprocs : t.procs = Function.update s.procs s.current proc)
      (hevents : t.events = s.events ++ new) (hnew : ∀ q, ∀ e ∈ new, e.begins q = false)
      (hp : PendingIn w (s.events ++ new) s.current proc) : Pending w t :=
    h.setProc hprocs hevents (fun q _ => hnew q) hp
  cases hm with
  | post hposted => exact h.posted hposted
  | wake => exact h.update rfl hnil (by simp) rfl rfl rfl
  | die => exact h.update rfl rfl (by simp [Event.begins]) rfl rfl rfl
  | release => exact h.released _ s.runnable
  | reap => exact h.released _ _
  | @switch _ next rest =>
    have hpark : Pending w (s.parked rest) := by
      unfold Kernel.parked
      split
      · exact h
      · exact h.released _ _
      · exact h
    exact hpark
  | @spawn _ p =>
    have hstack : Pending w (s.setStack s.current (some ⟨0, .create⟩)) :=
      hcurrent rfl hnil (by simp) (.of_call rfl (by simp))
    refine hstack.setProc rfl rfl (fun q hq => ?_) (.of_none rfl)
    simpa [Event.begins] using Ne.symm hq
  | enter hstack hstate hcall =>
    refine hcurrent rfl hnil (by simp) (.of_call rfl ?_)
    obtain rfl | rfl := hcall <;> simp
  | @nest _ stack n hstack =>
    obtain ⟨k, call⟩ := stack
    refine hcurrent rfl hnil (by simp) (fun nest m size server fault hs => ?_)
    cases hs
    rw [List.append_nil]
    obtain ⟨hlegal, hasked⟩ := h s.current k m size server fault hstack
    exact ⟨⟨hlegal.index, hlegal.low, hlegal.top, hlegal.shield⟩, hasked⟩
  | leave => exact hcurrent rfl hnil (by simp) (.of_none rfl)
  | @resume _ m size purpose =>
    refine hcurrent rfl (List.append_assoc _ _ _) (fun q e he => ?_) (.of_none rfl)
    obtain he | he := List.mem_append.mp he
    · exact receivedBy_begins he
    · exact answered_begins he
  | take hstack => exact hcurrent rfl rfl (fun q e he => receivedBy_begins he) (.of_none hstack)
  | @call _ t q contents server size purpose hstack hstate hposted hpid hself hempty hserver hfault =>
    refine (h.posted hposted).setProc (t.called_procs server size purpose) rfl (fun p hp => ?_) ?_
    · simpa [Event.begins] using Ne.symm hp
    · intro nest m size' server' fault hs
      cases hs
      cases hserver
      obtain ⟨hlegal, hreads⟩ := hfault fault rfl
      rw [← hposted.me hself] at hlegal hreads
      refine ⟨⟨hlegal.index, hlegal.low, hlegal.top, hlegal.shield⟩, contents, [], ⟨?_, by simp⟩,
        hreads⟩
      refine ⟨s.events, q, s.me.pid, s.me.uid, ?_⟩
      rw [hposted.events]
      simp
  | block => exact hcurrent rfl hnil (by simp) (.of_call rfl (by simp))
  | exec hstack => exact hcurrent rfl hnil (by simp) (.of_none hstack)
  | takeFrame hstack => exact hcurrent rfl hnil (by simp) (.of_none hstack)
  | fill => exact h.same rfl rfl (by simp [Event.begins])
  | poke => exact h.same rfl rfl (by simp [Event.begins])
  | peek => exact h.same rfl rfl (by simp [Event.begins])
  | swept | keepPage | freePage | termed | shutdown | map | advance | sync => exact h

theorem resumed_me (s : Kernel) (m : MsgType) (size : Nat) (purpose : Purpose) :
    (s.resumed m size purpose).me = { s.me.taken m with stack := none } :=
  Function.update_self s.current _ s.procs

theorem resumed_eq (s : Kernel) (m : MsgType) (size : Nat) :
    (s.setStack s.current none).taken m size = s.resumed m size .recv := by
  unfold Kernel.taken
  rw [Kernel.setStack_me]
  simp [Kernel.resumed, Kernel.setStack, Kernel.setProc, Process.firstMessage, Process.taken,
    Process.setMbox, Purpose.answered]

theorem firstMessage_src {proc : Process} {m : MsgType} {size : Nat} {out : Message}
    (h : proc.firstMessage m size = some out) :
    ∃ msg, (proc.mboxes m).messages.head? = some msg ∧ out.src = msg.src := by
  unfold Process.firstMessage at h
  obtain ⟨msg, hmsg, rfl⟩ := Option.map_eq_some_iff.mp h
  exact ⟨msg, hmsg, rfl⟩

theorem outcome_checkSource {E : Halt → Kernel → Prop} {Q : Unit → Kernel → Prop} {server : Nat}
    {message : Option Message} (hq : Q () s)
    (hbad : ∀ msg, message = some msg → msg.src ≠ server → E (.assertion .rpcSource) s) :
    Outcome (checkSource server message) Q E s := by
  cases message with
  | none => exact hq
  | some msg =>
    by_cases hs : msg.src = server
    · exact outcome_check (by simpa using hs) hq
    · exact outcome_check_false (by simpa using hs) (hbad msg rfl hs)

theorem assigned_of_reply {before later : List Event} {p : Slot} {executable : FileId}
    {hdr : Header} {page offset : Nat} {reply : Message} {data : List Byte}
    (hoffset : fileOffset page hdr.segments hdr.offset = some offset)
    (hasked : Asked p executable.server (fileReadRequest executable.fileNo offset pageSize)
      before later)
    (hread : fileReadData reply.contents = some data) :
    Assigned (before ++ [.answered p executable.server (some reply)]) p executable hdr page
      (pageOf data) := by
  unfold Assigned
  rw [hoffset]
  exact ⟨before, later, reply, data, rfl, hasked, hread, rfl⟩

theorem outcome_resume {m : MsgType} {size : Nat} {purpose : Purpose} (h : Consistent s₀)
    (hm : Moves w .idle s₀ .idle s) (hp : Pending w s)
    (hstack : s.me.stack = some ⟨0, .recv m size purpose⟩) (hstate : s.me.state = .runnable) :
    Outcome ((Call.recv m size purpose).finish)
      (fun _ s' => Moves w .idle s₀ .idle s' ∧ Running s') (fun e _ => Fails w s₀ e) s := by
  have hidle : (s.me.mboxes m).waiting = false := (hm.consistent h).idle _ m hstate
  have hresume : Move w .idle s purpose.phase (s.resumed m size purpose) := .resume hstack hstate
  have hrun : Running (s.resumed m size purpose) := by
    constructor
    · rw [resumed_me]
    · rw [resumed_me]
      exact hstate
  have hsource (server : Nat) (hserver : purpose.server = some server) (msg : Message)
      (hmsg : s.me.firstMessage m size = some msg) (hne : msg.src ≠ server) :
      Fails w s₀ (.assertion .rpcSource) := by
    intro a ha
    cases ha
    obtain ⟨msg', hhead, hsrc⟩ := firstMessage_src hmsg
    rw [hsrc] at hne
    exact ⟨_, s, hm, m, size, purpose, server, msg', hstack, hserver, hhead, hne⟩
  unfold Call.finish
  simp only [Outcome.bind_iff, Outcome.modify_iff, Outcome.get_iff]
  rw [Kernel.setStack_me]
  refine outcome_check (by simpa using hidle) (outcome_takeMessage ?_ ?_)
  · rw [Kernel.setStack_me]
    exact hstate
  rw [resumed_eq, Kernel.setStack_me]
  change Outcome (purpose.finish (s.me.firstMessage m size)) _ _ _
  have hanswer (server : Nat) (hserver : purpose.server = some server) :
      (s.resumed m size .recv).emit (.answered (s.resumed m size .recv).current server
        (s.me.firstMessage m size)) = s.resumed m size purpose := by
    cases purpose with
    | recv => cases hserver
    | rpc | frame =>
      cases hserver
      simp [Kernel.emit, Kernel.resumed, Purpose.answered, Kernel.setProc]
  cases purpose with
  | recv => exact ⟨hm.step hresume, hrun⟩
  | rpc server =>
    unfold Purpose.finish
    simp only [Outcome.bind_iff]
    refine outcome_checkSource ?_ (hsource server rfl)
    simp only [Outcome.modify_iff, hanswer server rfl]
    exact ⟨hm.step hresume, hrun⟩
  | frame server fault =>
    unfold Purpose.finish
    simp only [Outcome.bind_iff]
    refine outcome_checkSource ?_ (hsource server rfl)
    simp only [Outcome.modify_iff, hanswer server rfl]
    obtain ⟨⟨-, hlow, htop, hshield⟩, request, later, hasked, hserver, offset, hoffset, hrequest⟩ :=
      hp s.current 0 m size server fault hstack
    have hme := resumed_me s m size (.frame server fault)
    cases hdata : (s.me.firstMessage m size).bind fun msg => fileReadData msg.contents with
    | none =>
      intro a ha
      cases ha
      exact ⟨_, s, hm, trivial⟩
    | some data =>
      cases hpage : s.me.pages (relPage fault.virt) with
      | none =>
        have hnone : (s.resumed m size (.frame server fault)).me.pages (relPage fault.virt) =
            none := by rw [hme]; exact hpage
        unfold fillFrame
        simp only [Outcome.bind_iff, Outcome.get_iff, hnone]
        intro a ha
        cases ha
        exact ⟨_, s, hm, m, size, server, fault, hstack, hpage⟩
      | some frame =>
        have hsome : (s.resumed m size (.frame server fault)).me.pages (relPage fault.virt) =
            some frame := by rw [hme]; exact hpage
        refine outcome_fill_map fault (pageOf data) (hm.step hresume) hrun hlow htop hsome ?_ ?_
        · obtain ⟨reply, hreply, hread⟩ := Option.bind_eq_some_iff.mp hdata
          have hevents : (s.resumed m size (.frame server fault)).events = s.events ++
              Message.receivedBy s.current m size (s.me.firstMessage m size) ++
              [.answered s.current s.me.executable.server (some reply)] := by
            rw [← show server = s.me.executable.server from hserver, ← hreply]
            rfl
          rw [hme, hevents]
          have hasked' : Asked s.current s.me.executable.server
              (fileReadRequest s.me.executable.fileNo offset pageSize) s.events later :=
            hrequest ▸ hserver ▸ hasked
          exact assigned_of_reply hoffset (hasked'.append fun e he => receivedBy_begins he) hread
        · rw [hme]
          exact hshield

theorem outcome_procReturn (h : Consistent s₀) (hm : Moves w .idle s₀ .idle s) (hp : Pending w s)
    (hstack : s.me.stack ≠ none) (hstate : s.me.state = .runnable) :
    Outcome procReturn (fun _ s' => Moves w .idle s₀ .idle s' ∧ Ready s')
      (fun e _ => Fails w s₀ e) s := by
  unfold procReturn
  simp only [Outcome.bind_iff, Outcome.get_iff]
  cases hst : s.me.stack with
  | none => exact absurd hst hstack
  | some stack =>
    obtain ⟨nest, call⟩ := stack
    cases nest with
    | succ nest =>
      refine ⟨hm.step (.nest hst (.inl hstate)), ready_of_stack ?_⟩
      rw [Kernel.setStack_me]
      exact fun he => by cases he
    | zero =>
      have hleave (hcall : call = .create ∨ call = .yield) :
          Moves w .idle s₀ .idle (s.setStack s.current none) ∧
            Ready (s.setStack s.current none) := by
        refine ⟨hm.step (.leave hst hcall hstate), fun _ => ?_⟩
        rw [Kernel.setStack_me]
        exact hstate
      cases call with
      | create => exact hleave (.inl rfl)
      | yield => exact hleave (.inr rfl)
      | exit => exact absurd (.inl hstate) ((hm.consistent h).exited s.current 0 hst)
      | recv m size purpose =>
        refine (outcome_resume h hm hp hst hstate).post ?_
        exact fun _ s' hs => ⟨hs.1, hs.2.ready⟩

theorem outcome_switched {E : Halt → Kernel → Prop} {Q : Unit → Kernel → Prop} {next : Slot}
    {rest : List Slot} (hc : Consistent s) (hqueue : s.runnable = next :: rest)
    (hstate : (s.procs next).state = .runnable) (hpid : (s.procs next).pid ≠ s.me.pid)
    (hreturn : Outcome procReturn Q E (s.switched next rest)) :
    Outcome (procSwitch next) Q E { s with runnable := rest } := by
  have hne : next ≠ s.current := by
    rintro rfl
    exact hc.current_unqueued (by rw [hqueue]; exact List.mem_cons_self)
  unfold procSwitch
  simp only [Outcome.bind_iff, Outcome.get_iff]
  refine outcome_check (by simpa using hne) ?_
  refine outcome_check (decide_eq_true hpid) (outcome_check (by simpa using hstate) ?_)
  have hme : ({ s with runnable := rest } : Kernel).me = s.me := rfl
  rw [hme]
  cases hs : s.me.state with
  | free => exact absurd hs hc.current_used
  | waiting =>
    simp only [Outcome.bind_iff, Outcome.modify_iff, reduceCtorEq, if_false]
    convert hreturn using 1
    simp [Kernel.switched, Kernel.parked, hs]
  | runnable =>
    simp only [Outcome.bind_iff, reduceCtorEq, if_true, if_false]
    refine outcome_procToRunqueue hs ?_
    simp only [Outcome.modify_iff]
    convert hreturn using 1
    simp [Kernel.switched, Kernel.parked, hs]
  | zombie =>
    simp only [Outcome.bind_iff, reduceCtorEq, if_true, if_false]
    refine outcome_procRelease hs ?_
    simp only [Outcome.modify_iff]
    convert hreturn using 1
    simp [Kernel.switched, Kernel.parked, hs, Kernel.released, Kernel.setProc]

theorem outcome_procSwitch {next : Slot} {rest : List Slot} (h : Consistent s₀)
    (hm : Moves w .idle s₀ .idle s) (hp : Pending w s) (hstack : s.me.stack ≠ none)
    (hqueue : s.runnable = next :: rest) (hstate : (s.procs next).state = .runnable) :
    Outcome (procSwitch next) (fun _ s' => Moves w .idle s₀ .idle s' ∧ Ready s')
      (fun e _ => Fails w s₀ e) { s with runnable := rest } := by
  have hc := hm.consistent h
  have hne : next ≠ s.current := by
    rintro rfl
    exact hc.current_unqueued (by rw [hqueue]; exact List.mem_cons_self)
  by_cases hpid : (s.procs next).pid = s.me.pid
  · unfold procSwitch
    simp only [Outcome.bind_iff, Outcome.get_iff]
    refine outcome_check (by simpa using hne) (outcome_check_false (decide_eq_false
      (not_not.mpr hpid)) ?_)
    intro a ha
    cases ha
    exact ⟨_, s, hm, next, by rw [hqueue]; exact List.mem_cons_self, .inl hstate, hpid⟩
  have hswitch : Move w .idle s .idle (s.switched next rest) := .switch hqueue hstate hstack
  have hnext : (s.switched next rest).me = s.procs next := by
    change (s.parked rest).procs next = s.procs next
    unfold Kernel.parked
    split
    · rfl
    · exact Function.update_of_ne hne _ _
    · rfl
  refine outcome_switched hc hqueue hstate hpid ?_
  refine outcome_procReturn h (hm.step hswitch) (hswitch.pending hp) ?_ ?_
  · rw [hnext]
    exact hc.stacked next hne (.inl hstate)
  · rw [hnext]
    exact hstate

theorem outcome_procYield (h : Consistent s₀) (hp : Pending w s₀) (hstack : s₀.me.stack ≠ none)
    (now : Nat) :
    Outcome (procYield now) (fun _ s' => Moves w .idle s₀ .idle s' ∧ Ready s')
      (fun e _ => Fails w s₀ e) s₀ := by
  unfold procYield
  simp only [Outcome.bind_iff, Outcome.get_iff]
  refine outcome_check (by simpa using h.nprocs_pos) ?_
  split
  · exact fails_of_ne (fun a he => by cases he)
  simp only [Outcome.bind_iff]
  refine Outcome.post (outcome_timeouts w h now) ?_
  intro _ t hpost
  obtain ⟨hmoves, hsteady⟩ := hpost
  simp only [Outcome.get_iff]
  refine Outcome.post (outcome_nextRunnable w (hmoves.consistent h) le_rfl) ?_
  intro r u hfound
  cases r with
  | none =>
    obtain ⟨hmoves', hsteady', hnil⟩ := hfound
    have hm := hmoves.trans hmoves'
    have hst : u.me.stack ≠ none := by
      rw [(hsteady.trans hsteady').stack_me]
      exact hstack
    refine outcome_check (by simpa using (hm.consistent h).nprocs_pos) ?_
    dsimp only
    split
    · rename_i hs
      exact outcome_procReturn h hm (hm.keeps (I := fun _ s => Pending w s)
        (fun hmove hi => hmove.pending hi) hp) hst hs
    split
    · exact fails_of_ne (fun a he => by cases he)
    · exact ⟨hm, ready_of_stack hst⟩
  | some next =>
    obtain ⟨v, rest, hmoves', hsteady', hqueue, hstate, rfl⟩ := hfound
    have hm := hmoves.trans hmoves'
    have hst : v.me.stack ≠ none := by
      rw [(hsteady.trans hsteady').stack_me]
      exact hstack
    refine outcome_check (by simpa using (hm.consistent h).nprocs_pos) ?_
    exact outcome_procSwitch h hm (hm.keeps (I := fun _ s => Pending w s)
      (fun hmove hi => hmove.pending hi) hp) hst hqueue hstate

/-- `proc_create_uid` does nothing, or it switches to the new process. -/
theorem outcome_spawned {E : Halt → Kernel → Prop} {Q : Unit → Kernel → Prop} (h : Consistent s)
    (hr : Running s) {owner uid : Nat}
    (hstay : s.shuttingDown = true ∨ procFind s owner = none ∨ s.free = [] → Q () s)
    (hspawned : ∀ parent p rest, s.shuttingDown = false → procFind s owner = some parent →
      s.free = p :: rest → Q () (s.spawned p rest
        (if (s.procs parent).uid ≠ 0 then (s.procs parent).uid else uid) owner)) :
    Outcome (procCreateUid owner uid) Q E s := by
  unfold procCreateUid
  simp only [Outcome.bind_iff, Outcome.get_iff]
  split
  · rename_i hshut
    exact hstay (.inl hshut)
  rename_i hshut
  cases hparent : procFind s owner with
  | none => exact hstay (.inr (.inl hparent))
  | some parent =>
    dsimp only
    simp only [Outcome.bind_iff]
    unfold procAlloc
    simp only [Outcome.bind_iff, Outcome.get_iff]
    cases hfree : s.free with
    | nil => exact hstay (.inr (.inr hfree))
    | cons p rest =>
      have hpfree : (s.procs p).state = .free :=
        (h.free_iff p).mp (by rw [hfree]; exact List.mem_cons_self)
      have hne : p ≠ s.current := by
        rintro rfl
        exact h.current_used hpfree
      have hpost := hspawned parent p rest (by simpa using hshut) hparent hfree
      generalize (if (s.procs parent).uid ≠ 0 then (s.procs parent).uid else uid) = uid' at hpost ⊢
      simp only [Outcome.bind_iff, Outcome.modify_iff, Outcome.pure_iff, enter]
      refine outcome_procToRunqueue ?_ ?_
      · rw [Kernel.emit, Kernel.setProc_state, if_neg (Ne.symm hne)]
        exact hr.state
      convert hpost using 1
      simp [Kernel.spawned, Kernel.setStack, Kernel.setProc, Kernel.emit, Ne.symm hne]
      rw [Function.update_comm hne]

theorem outcome_procCreateUid (h : Consistent s) (hr : Running s)
    (hbare : w.bareCreator → ∀ i, i < virtPages → s.me.pages i = none)
    (hids : w.unwrapped → s.pidGen < 2 ^ 32) (owner uid : Nat) :
    Outcome (procCreateUid owner uid) (fun _ s' => Moves w .idle s .idle s' ∧ Ready s')
      (fun e _ => Fails w s e) s := by
  refine outcome_spawned h hr (fun _ => ⟨.refl, hr.ready⟩) fun parent p rest _ hparent hfree => ?_
  refine ⟨.single (.spawn ⟨hfree, hr.stack, hr.state, hparent, fun h0 => ?_, hbare, hids⟩),
    fun _ => ?_⟩
  · rw [if_pos h0]
  · simp [Kernel.me, Kernel.spawned, Kernel.setProc, Kernel.emit]

/-- What the promise asks of an action. -/
structure Honors (w : Promise) (s : Kernel) (a : Action) : Prop where
  create : ∀ owner uid, a = .create owner uid → w.bareCreator →
    ∀ i, i < virtPages → s.me.pages i = none
  ids : ∀ owner uid, a = .create owner uid → w.unwrapped → s.pidGen < 2 ^ 32
  recv : ∀ maxTime now size, a = .recv .reply maxTime now size → ¬ w.replyToRpc
  send : ∀ src uid dst m contents, a = .send src uid dst m contents → w.Allows m src
  handleSend : ∀ src uid dst m contents, a = .handleSend src uid dst m contents → w.Allows m src
  copy : ∀ virt byte, a = .copyTo virt byte → ¬ w.shielded s.me.hdr (virt / pageSize)
  exec : ∀ interruptable executable hdr, a = .exec interruptable executable hdr → w.header hdr

/-- A fault of unknown kind never becomes a write to a read-only segment. -/
theorem settleAccess_unknown {hdr : Header} {page : Nat} (h : w.shielded hdr page)
    {mapped : Option Prot} {a : Access}
    (ha : settleAccess (hdr.segment page) mapped .unknown = some a) : a = .read := by
  obtain ⟨es, hes, hro⟩ := w.readOnly hdr page h
  cases mapped with
  | none =>
    simp only [settleAccess, Option.some.injEq] at ha
    exact ha.symm
  | some prot =>
    rw [hes] at ha
    simp [settleAccess, hro] at ha

theorem outcome_perform {a : Action} (h : Consistent s) (hr : Ready s) (hp : Pending w s)
    (hh : Honors w s a) (henabled : a.inSuspend = s.me.stack.isSome) :
    Outcome a.perform (fun _ s' => Moves w .idle s .idle s' ∧ Ready s')
      (fun e _ => Fails w s e) s := by
  have hrunning (ha : a.inSuspend = false) : Running s := by
    rw [ha] at henabled
    exact hr.running (Option.isNone_iff_eq_none.mp (by simpa using henabled.symm))
  have hsuspended (ha : a.inSuspend = true) : s.me.stack ≠ none := by
    rw [ha] at henabled
    exact Option.isSome_iff_ne_none.mp henabled.symm
  have hrun {m : KernelM Unit} (ho : Outcome m (fun _ s' => Moves w .idle s .idle s' ∧ Running s')
      (fun e _ => Fails w s e) s) : Outcome m (fun _ s' => Moves w .idle s .idle s' ∧ Ready s')
      (fun e _ => Fails w s e) s := ho.post fun _ _ hs => ⟨hs.1, hs.2.ready⟩
  cases a with
  | create owner uid =>
    exact outcome_procCreateUid h (hrunning rfl) (hh.create owner uid rfl) (hh.ids owner uid rfl)
      owner uid
  | recv m maxTime now size =>
    unfold Action.perform
    simp only [Outcome.bind_iff]
    refine outcome_sysRecv maxTime now size h (hrunning rfl) (fun hrep hm => ?_)
    subst hm
    exact hh.recv maxTime now size rfl hrep
  | send srcPid srcUid dstPid m contents =>
    unfold Action.perform
    simp only [Outcome.bind_iff]
    refine Outcome.post (outcome_procSend h _ _ _ _ _) ?_
    rintro r s' (⟨-, rfl, -⟩ | ⟨-, q, -, hpost⟩)
    · exact ⟨.refl, hr⟩
    · have hallows := hh.send srcPid srcUid dstPid m contents rfl
      exact ⟨.single (.post hpost hallows), (hpost.running (hrunning rfl)).ready⟩
  | rpc pid request size =>
    unfold Action.perform
    simp only [Outcome.bind_iff]
    refine Outcome.post (outcome_sysRpc (.rpc pid) h .refl (hrunning rfl) rfl
      (by intro _ h; cases h)) ?_
    rintro r s' (⟨-, hmoves, hready⟩ | ⟨-, rfl⟩)
    · exact ⟨hmoves, hready⟩
    · exact ⟨.refl, hr⟩
  | kill killer pid status =>
    have hr' := hrunning rfl
    unfold Action.perform
    simp only [Outcome.bind_iff]
    refine Outcome.post (outcome_procKill w h killer pid status) ?_
    intro r s' hboth
    obtain ⟨hmoves, hsteady, hfalse⟩ := hboth
    have hstack : s'.me.stack = none := by rw [hsteady.stack_me]; exact hr'.stack
    cases r with
    | false => exact ⟨hmoves, fun _ => hfalse rfl hr'.state⟩
    | true =>
      have hstate : s'.me.state = .zombie ∨ s'.me.state = .runnable ∧ Call.yield = .yield := by
        by_cases hz : s'.me.state = .zombie
        · exact .inl hz
        · exact .inr ⟨hsteady.runnable (hmoves.consistent h) hr'.state hz, rfl⟩
      refine ⟨hmoves.step (.enter hstack hstate (.inl rfl)), ready_of_stack ?_⟩
      rw [Kernel.setStack_me]
      exact fun he => by cases he
  | exit status =>
    refine (outcome_sysExit h .refl (hrunning rfl) status).post ?_
    exact fun _ s' hs => ⟨hs.1, ready_of_stack hs.2⟩
  | yield =>
    have hr' := hrunning rfl
    refine ⟨.single (.enter hr'.stack (.inr ⟨hr'.state, rfl⟩) (.inl rfl)), ready_of_stack ?_⟩
    rw [Kernel.setStack_me]
    exact fun he => by cases he
  | shutdown now => exact ⟨.single .shutdown, hr⟩
  | exec interruptable executable hdr =>
    have hr' := hrunning rfl
    unfold Action.perform
    simp only [Outcome.bind_iff, Outcome.get_iff]
    split
    · rename_i hall
      have hheader := hh.exec interruptable executable hdr rfl
      refine ⟨.single (.exec hr'.stack hr'.state (fun i hi => ?_) hheader), fun _ => ?_⟩
      · simpa using List.all_eq_true.mp hall i (List.mem_range.mpr hi)
      · simp [Kernel.me, Kernel.setProc]
        exact hr'.state
    · exact fails_of_ne (fun a he => by cases he)
  | load virt => exact hrun (outcome_peek .refl (hrunning rfl))
  | store virt byte => exact hrun (outcome_poke .refl (hrunning rfl))
  | fault virt =>
    have hr' := hrunning rfl
    unfold Action.perform
    simp only [Outcome.bind_iff, Outcome.modify_iff]
    exact outcome_procPagefault h (.single .sync) ⟨hr'.stack, hr'.state⟩
      fun hs _ _ => settleAccess_unknown hs
  | copyFrom virt =>
    unfold Action.perform
    simp only [Outcome.bind_iff, Outcome.get_iff]
    split
    · exact outcome_procPagefault h .refl (hrunning rfl) fun _ _ a ha => by
        simp only [settleAccess, Option.some.injEq] at ha
        exact ha.symm
    · exact hrun (outcome_peek .refl (hrunning rfl))
  | copyTo virt byte =>
    have hfault : Outcome (procPagefault virt .write (.put byte))
        (fun _ s' => Moves w .idle s .idle s' ∧ Ready s') (fun e _ => Fails w s e) s :=
      outcome_procPagefault h .refl (hrunning rfl) fun hs => absurd hs (hh.copy virt byte rfl)
    unfold Action.perform
    simp only [Outcome.bind_iff, Outcome.get_iff]
    split
    · exact hfault
    split
    · exact hrun (outcome_poke .refl (hrunning rfl))
    · exact hfault
  | sync => exact ⟨.single .sync, hr⟩
  | handleSend srcPid srcUid dstPid m contents =>
    unfold Action.perform
    simp only [Outcome.bind_iff]
    refine Outcome.post (outcome_procSend h _ _ _ _ _) ?_
    rintro r s' (⟨-, rfl, -⟩ | ⟨-, q, -, hpost⟩)
    · exact ⟨.refl, hr⟩
    · have hallows := hh.handleSend srcPid srcUid dstPid m contents rfl
      refine ⟨.single (.post hpost hallows), ready_of_stack ?_⟩
      rw [(Steady.of_quiet hpost.quiet).stack_me]
      exact hsuspended rfl
  | handleKill killer pid status =>
    unfold Action.perform
    simp only [Outcome.bind_iff]
    refine Outcome.post (outcome_procKill w h killer pid status) ?_
    intro r s' hafter
    obtain ⟨hmoves, hsteady, _⟩ := hafter
    have hstack : s'.me.stack ≠ none := by rw [hsteady.stack_me]; exact hsuspended rfl
    cases r with
    | false => exact ⟨hmoves, ready_of_stack hstack⟩
    | true =>
      obtain ⟨stack, hst⟩ := Option.ne_none_iff_exists'.mp hstack
      simp only [if_true, Outcome.modify_iff, hst, Option.map_some]
      refine ⟨hmoves.step (.nest hst (.inr rfl)), ready_of_stack ?_⟩
      rw [Kernel.setStack_me]
      exact fun he => by cases he
  | wake now => exact outcome_procYield h hp (hsuspended rfl) now

/-- Every step makes moves between two states of rest, or stops. -/
theorem outcome_step {a : Action} (h : Consistent s) (hr : Ready s) (hp : Pending w s)
    (hh : Honors w s a) :
    Outcome (step a) (fun _ s' => Moves w .idle s .idle s' ∧ Ready s')
      (fun e _ => Fails w s e) s := by
  unfold step
  simp only [Outcome.bind_iff, Outcome.get_iff]
  split
  · rename_i henabled
    exact outcome_perform h hr hp hh henabled
  · exact fails_of_ne (fun a he => by cases he)

end

end Egos.Grass
