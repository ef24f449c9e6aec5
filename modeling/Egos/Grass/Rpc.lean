import Egos.Lib.History
import Egos.Grass.Identity

/-!
# Remote procedure calls

A client waits for the reply of one server, the one in its `server` field. `proc_send` lets
only this server's reply through, and `proc_term` wakes the clients of a server that dies. So
a client never waits for a dead server, never has more than one reply, and fails only if the
server died after the request.
-/
namespace Egos.Grass

open Egos.Lib Egos.Earth

set_option autoImplicit false

/-- The mailbox for replies of one process. -/
structure ReplyBox (proc : Process) : Prop where
  few : (proc.mboxes .reply).messages.length ≤ 1
  source : ∀ msg ∈ (proc.mboxes .reply).messages, msg.src = proc.server
  unread : (proc.mboxes .reply).messages ≠ [] → proc.state ≠ .waiting ∧
    ∃ nest size purpose, proc.stack = some ⟨nest, .recv .reply size purpose⟩
  server : ∀ nest m size purpose, proc.stack = some ⟨nest, .recv m size purpose⟩ →
    purpose.server = if m = .reply then some proc.server else none
  alarm : proc.state = .runnable → proc.alarmSet = false
  patient : ∀ nest size purpose, proc.stack = some ⟨nest, .recv .reply size purpose⟩ →
    proc.state = .waiting → proc.alarmSet = false

namespace ReplyBox

variable {proc proc' : Process}

theorem congr (h : ReplyBox proc)
    (hbox : (proc'.mboxes .reply).messages = (proc.mboxes .reply).messages)
    (hserver : proc'.server = proc.server) (hstate : proc'.state = proc.state)
    (hstack : proc'.stack = proc.stack) (halarm : proc'.alarmSet = proc.alarmSet) :
    ReplyBox proc' := by
  constructor
  · rw [hbox]; exact h.few
  · rw [hbox, hserver]; exact h.source
  · rw [hbox, hstate, hstack]; exact h.unread
  · rw [hstack, hserver]; exact h.server
  · rw [hstate, halarm]; exact h.alarm
  · rw [hstack, hstate, halarm]; exact h.patient

theorem of_empty (hbox : (proc.mboxes .reply).messages = [])
    (hstack : ∀ nest m size purpose, proc.stack ≠ some ⟨nest, .recv m size purpose⟩)
    (halarm : proc.state = .runnable → proc.alarmSet = false) : ReplyBox proc where
  few := by rw [hbox]; exact Nat.zero_le 1
  source msg hmsg := by rw [hbox] at hmsg; cases hmsg
  unread hne := absurd hbox hne
  server nest m size purpose hs := absurd hs (hstack nest m size purpose)
  alarm := halarm
  patient nest size purpose hs := absurd hs (hstack nest .reply size purpose)

theorem empty (h : ReplyBox proc)
    (hstack : ∀ nest size purpose, proc.stack ≠ some ⟨nest, .recv .reply size purpose⟩) :
    (proc.mboxes .reply).messages = [] := by
  by_contra hne
  obtain ⟨-, nest, size, purpose, hs⟩ := h.unread hne
  exact hstack nest size purpose hs

theorem waiting_empty (h : ReplyBox proc) (hw : proc.state = .waiting) :
    (proc.mboxes .reply).messages = [] := by
  by_contra hne
  exact (h.unread hne).1 hw

theorem deposit (h : ReplyBox proc) {m : MsgType} (hm : m ≠ .reply) (msg : Message) :
    ReplyBox (proc.deposit m msg) := by
  refine h.congr ?_ rfl rfl rfl rfl
  simp [Process.deposit, Process.setMbox, Ne.symm hm]

theorem woken (h : ReplyBox proc) (hw : proc.state = .waiting) : ReplyBox proc.woken where
  few := h.few
  source := h.source
  unread hne := absurd (h.waiting_empty hw) hne
  server := h.server
  alarm _ := rfl
  patient _ _ _ _ _ := rfl

theorem replied (h : ReplyBox proc) (hw : proc.state = .waiting) {msg : Message} {nest size : Nat}
    {purpose : Purpose} (hstack : proc.stack = some ⟨nest, .recv .reply size purpose⟩)
    (hsrc : proc.server = msg.src) : ReplyBox (proc.deposit .reply msg).woken := by
  have hbox : ((proc.deposit .reply msg).woken.mboxes .reply).messages = [msg] := by
    simp [Process.woken, Process.deposit, Process.setMbox, h.waiting_empty hw]
  constructor
  · rw [hbox]; exact le_rfl
  · intro msg' hmem
    rw [hbox, List.mem_singleton] at hmem
    rw [hmem]
    exact hsrc.symm
  · intro _
    exact ⟨(by intro h; cases h), nest, size, purpose, hstack⟩
  · exact h.server
  · exact fun _ => rfl
  · exact fun _ _ _ _ _ => rfl

theorem died (h : ReplyBox proc) : ReplyBox { proc with state := .zombie } where
  few := h.few
  source := h.source
  unread hne := ⟨by simp, (h.unread hne).2⟩
  server := h.server
  alarm hs := by cases hs
  patient _ _ _ _ hs := by cases hs

theorem released (h : ReplyBox proc) : ReplyBox proc.released where
  few := Nat.zero_le 1
  source _ hmsg := by cases hmsg
  unread hne := absurd rfl hne
  server := h.server
  alarm hs := by cases hs
  patient _ _ _ _ hs := by cases hs

theorem setStack (h : ReplyBox proc) {stack : Option Stack}
    (hold : ∀ nest size purpose, proc.stack ≠ some ⟨nest, .recv .reply size purpose⟩)
    (hnew : ∀ nest m size purpose, stack ≠ some ⟨nest, .recv m size purpose⟩) :
    ReplyBox { proc with stack := stack } :=
  of_empty (h.empty hold) hnew h.alarm

theorem nest (h : ReplyBox proc) {stack : Stack} (hs : proc.stack = some stack) (n : Nat) :
    ReplyBox { proc with stack := some ⟨n, stack.call⟩ } := by
  obtain ⟨k, call⟩ := stack
  constructor
  · exact h.few
  · exact h.source
  · intro hne
    obtain ⟨hw, nest, size, purpose, hst⟩ := h.unread hne
    rw [hs] at hst
    cases hst
    exact ⟨hw, n, size, purpose, rfl⟩
  · intro nest m size purpose hst
    cases hst
    exact h.server k m size purpose hs
  · exact h.alarm
  · intro nest size purpose hst
    cases hst
    exact h.patient k size purpose hs

/-- The running process begins to wait, with a timeout if it does not wait for a reply. -/
theorem blocked (h : ReplyBox proc) {m : MsgType} {maxTime now size : Nat} {purpose : Purpose}
    (hstack : proc.stack = none) (hstate : proc.state = .runnable)
    (hserver : purpose.server = if m = .reply then some proc.server else none)
    (htime : m = .reply → maxTime = 0) :
    ReplyBox (proc.blocked m maxTime now ⟨0, .recv m size purpose⟩) := by
  have hempty : (proc.mboxes .reply).messages = [] := h.empty (by simp [hstack])
  have hbox : ((proc.blocked m maxTime now ⟨0, .recv m size purpose⟩).mboxes .reply).messages = [] := by
    simp only [Process.blocked, Process.setMbox, Function.update_apply]
    split
    · rename_i hm
      rw [← hm]
      exact hempty
    · exact hempty
  constructor
  · rw [hbox]; exact Nat.zero_le 1
  · intro msg hmsg
    rw [hbox] at hmsg
    cases hmsg
  · exact fun hne => absurd hbox hne
  · intro nest m' size' purpose' hst
    cases hst
    exact hserver
  · intro hs
    cases hs
  · intro nest size' purpose' hst _
    cases hst
    simp only [Process.blocked, htime rfl, if_true]
    exact h.alarm hstate

theorem taken (h : ReplyBox proc) {m : MsgType} (hm : m ≠ .reply) : ReplyBox (proc.taken m) := by
  refine h.congr ?_ rfl rfl rfl rfl
  simp [Process.taken, Process.setMbox, Ne.symm hm]

theorem resumed (h : ReplyBox proc) {nest size : Nat} {m : MsgType} {purpose : Purpose}
    (hstack : proc.stack = some ⟨nest, .recv m size purpose⟩) :
    ReplyBox { proc.taken m with stack := none } := by
  refine of_empty ?_ (fun _ _ _ _ => (by simp)) h.alarm
  change ((proc.taken m).mboxes .reply).messages = []
  simp only [Process.taken, Process.setMbox, Function.update_apply]
  split
  · rename_i hm
    have hfew := h.few
    rw [← hm]
    cases hq : (proc.mboxes .reply).messages with
    | nil => rfl
    | cons msg rest =>
      rw [hq] at hfew
      exact List.eq_nil_of_length_eq_zero (by simpa using hfew)
  · rename_i hm
    refine h.empty fun nest' size' purpose' hs => ?_
    rw [hstack] at hs
    cases hs
    exact hm rfl

theorem requested (h : ReplyBox proc) (hstack : proc.stack = none) (server : Nat) :
    ReplyBox { proc with server := server } :=
  of_empty (h.empty (by simp [hstack])) (by simp [hstack]) h.alarm

end ReplyBox

/-- All mailboxes for replies. -/
def ReplyBoxes (s : Kernel) : Prop := ∀ p, ReplyBox (s.procs p)

namespace ReplyBoxes

variable {s s' : Kernel}

theorem setProc (h : ReplyBoxes s) {p : Slot} {proc : Process}
    (hprocs : s'.procs = Function.update s.procs p proc) (hp : ReplyBox proc) : ReplyBoxes s' := by
  intro q
  rw [hprocs, Function.update_apply]
  split
  · exact hp
  · exact h q

theorem waiting_stack (hc : Consistent s) {p : Slot} {m : MsgType}
    (hstate : (s.procs p).state = .waiting) (hwait : ((s.procs p).mboxes m).waiting = true) :
    ∃ nest size purpose, (s.procs p).stack = some ⟨nest, .recv m size purpose⟩ := by
  obtain ⟨nest, m', size, purpose, hstack, honly⟩ := hc.awaiting p hstate
  rw [(honly m).mp hwait]
  exact ⟨nest, size, purpose, hstack⟩

theorem posted (hc : Consistent s) (h : ReplyBoxes s) {p : Slot} {m : MsgType} {msg : Message}
    (hp : Posted s p m msg s') : ReplyBoxes s' := by
  cases hp with
  | kept halive hidle hm => exact h.setProc rfl ((h p).deposit hm msg)
  | woke hstate hwait hreply =>
    have hprocs : ((s.deposited p m msg).awake p).procs =
        Function.update s.procs p ((s.procs p).deposit m msg).woken := by
      simp [Kernel.awake, Kernel.deposited, Kernel.setProc, Kernel.emit]
    refine h.setProc hprocs ?_
    by_cases hm : m = .reply
    · subst hm
      obtain ⟨nest, size, purpose, hstack⟩ := waiting_stack hc hstate hwait
      exact (h p).replied hstate hstack (hreply rfl)
    · exact ((h p).deposit hm msg).woken hstate

theorem released (h : ReplyBoxes s) (p : Slot) (rest : List Slot) :
    ReplyBoxes ({ s with runnable := rest }.released p) :=
  h.setProc rfl (h p).released

end ReplyBoxes

theorem Move.replyBoxes {w : Promise} {f f' : Phase} {s s' : Kernel} (hw : w.replyToRpc)
    (hc : Consistent s) (hm : Move w f s f' s') (h : ReplyBoxes s) : ReplyBoxes s' := by
  cases hm with
  | post hposted => exact h.posted hc hposted
  | wake hstate => exact h.setProc rfl ((h _).woken hstate)
  | die => exact h.setProc rfl (h _).died
  | release => exact h.released _ s.runnable
  | reap => exact h.released _ _
  | @switch _ next rest =>
    have hpark : ReplyBoxes (s.parked rest) := by
      unfold Kernel.parked
      split
      · exact h
      · exact h.released _ _
      · exact h
    exact hpark
  | spawn hs =>
    have hnone (nest size : Nat) (purpose : Purpose) :
        s.me.stack ≠ some ⟨nest, .recv .reply size purpose⟩ := by simp [hs.stack]
    have hpark : ReplyBoxes (s.setStack s.current (some ⟨0, .create⟩)) :=
      h.setProc rfl ((h s.current).setStack hnone (by simp))
    exact hpark.setProc rfl (.of_empty rfl (by intro _ _ _ _ h; cases h) fun _ => rfl)
  | enter hstack hstate hcall =>
    refine h.setProc rfl ((h s.current).setStack ?_ ?_)
    · intro nest size purpose hs
      rw [show (s.procs s.current).stack = none from hstack] at hs
      cases hs
    · obtain rfl | rfl := hcall <;> simp
  | nest hstack => exact h.setProc rfl ((h s.current).nest hstack _)
  | leave hstack hcall =>
    refine h.setProc rfl ((h s.current).setStack ?_ (by simp))
    intro nest size purpose hs
    rw [show (s.procs s.current).stack = _ from hstack] at hs
    obtain rfl | rfl := hcall <;> cases hs
  | resume hstack => exact h.setProc rfl ((h s.current).resumed hstack)
  | take hstack hstate hm => exact h.setProc rfl ((h s.current).taken hm)
  | @call _ t q contents server size purpose hstack hstate hposted hpid hself hempty hserver =>
    have ht := h.posted hc hposted
    have hme := hposted.me hself
    rw [← hme] at hstack hstate
    refine ht.setProc (t.called_procs server size purpose) ?_
    exact ((ht t.current).requested hstack server).blocked hstack hstate hserver (fun _ => rfl)
  | block hstack hstate hempty hrecv =>
    refine h.setProc rfl ((h s.current).blocked hstack hstate ?_ ?_)
    · rw [if_neg (hrecv hw)]
      rfl
    · exact fun hm => absurd hm (hrecv hw)
  | exec => exact h.setProc rfl ((h s.current).congr rfl rfl rfl rfl rfl)
  | takeFrame => exact h.setProc rfl ((h s.current).congr rfl rfl rfl rfl rfl)
  | swept | keepPage | freePage | termed | shutdown | fill | map | advance | poke | peek | sync =>
    exact h

/-- A process with the id can receive messages. -/
def Live (s : Kernel) (pid : Nat) : Prop := ∃ q, (s.procs q).Alive ∧ (s.procs q).pid = pid

/-- A process with the id has died meanwhile. -/
def Lost (pid : Nat) (later : List Event) : Prop := ∃ q uid, .died q pid uid ∈ later

/-- How far the RPC of a client has come. -/
inductive Outstanding (f : Phase) (s : Kernel) (client : Process) (later : List Event) : Prop where
  | replied (hreply : (client.mboxes .reply).messages ≠ [])
  | waiting (hstate : client.state = .waiting) (hlive : Live s client.server)
  | lost (hlost : Lost client.server later)
      (hnotify : client.state = .waiting → ∃ d, f = .notify d ∧ (s.procs d).pid = client.server)

/-- The clients inside `sys_rpc`. -/
def Served (f : Phase) (s : Kernel) : Prop :=
  ∀ p nest size purpose, (s.procs p).Alive →
    (s.procs p).stack = some ⟨nest, .recv .reply size purpose⟩ →
      ∃ contents later, Asked p (s.procs p).server contents s.events later ∧
        Outstanding f s (s.procs p) later

theorem Lost.append {pid : Nat} {later : List Event} (h : Lost pid later) (new : List Event) :
    Lost pid (later ++ new) := by
  obtain ⟨q, uid, hmem⟩ := h
  exact ⟨q, uid, List.mem_append_left new hmem⟩

theorem Live.kept {s s' : Kernel} (hk : Kept s s') {pid : Nat} (h : Live s pid) : Live s' pid := by
  obtain ⟨q, halive, hpid⟩ := h
  exact ⟨q, (hk.alive q).mpr halive, (hk.pid q).trans hpid⟩

/-- What `Outstanding` looks at in a process. -/
def Process.SameCall (proc proc' : Process) : Prop :=
  proc'.state = proc.state ∧ proc'.server = proc.server ∧
    (proc'.mboxes .reply).messages = (proc.mboxes .reply).messages

theorem Outstanding.congr {f f' : Phase} {s s' : Kernel} {client client' : Process}
    {later : List Event} (h : Outstanding f s client later) (hsame : client.SameCall client')
    (hlive : Live s client.server → Live s' client.server)
    (hphase : ∀ d, f = .notify d → f' = .notify d ∧ (s'.procs d).pid = (s.procs d).pid)
    (new : List Event) : Outstanding f' s' client' (later ++ new) := by
  obtain ⟨hstate, hserver, hbox⟩ := hsame
  cases h with
  | replied hreply => exact .replied (by rw [hbox]; exact hreply)
  | waiting hw hl => exact .waiting (hstate.trans hw) (by rw [hserver]; exact hlive hl)
  | lost hlost hnotify =>
    refine .lost (by rw [hserver]; exact hlost.append new) fun hw => ?_
    obtain ⟨d, hf, hpid⟩ := hnotify (hstate.symm.trans hw)
    obtain ⟨hf', hpid'⟩ := hphase d hf
    exact ⟨d, hf', by rw [hpid', hserver, hpid]⟩

namespace Served

variable {f f' : Phase} {s s' : Kernel} {new : List Event}

theorem step (h : Served f s) (hevents : s'.events = s.events ++ new)
    (hp : ∀ p nest size purpose, (s'.procs p).Alive →
      (s'.procs p).stack = some ⟨nest, .recv .reply size purpose⟩ →
        (∃ contents later, Asked p (s'.procs p).server contents s'.events later ∧
          Outstanding f' s' (s'.procs p) later) ∨
        (s.procs p).Alive ∧ (∃ nest', (s.procs p).stack = some ⟨nest', .recv .reply size purpose⟩) ∧
          (∀ e ∈ new, e.begins p = false) ∧ (s'.procs p).server = (s.procs p).server ∧
          ∀ later, Outstanding f s (s.procs p) later →
            Outstanding f' s' (s'.procs p) (later ++ new)) : Served f' s' := by
  intro p nest size purpose halive hstack
  obtain hnow | ⟨halive, ⟨nest', hold⟩, hnew, hserver, hout⟩ := hp p nest size purpose halive hstack
  · exact hnow
  · obtain ⟨contents, later, hasked, hout'⟩ := h p nest' size purpose halive hold
    refine ⟨contents, later ++ new, ?_, hout later hout'⟩
    rw [hserver, hevents]
    exact hasked.append hnew

end Served

/-- The events that `Asked` may skip, for all slots. -/
def Event.Harmless (e : Event) : Prop := ∀ p, e.begins p = false

namespace Served

variable {f f' : Phase} {s s' : Kernel} {new : List Event}

theorem kept (h : Served f s) (hk : Kept s s') (hevents : s'.events = s.events ++ new)
    (hnew : ∀ e ∈ new, e.Harmless)
    (hphase : ∀ d, f = .notify d → f' = .notify d)
    (hp : ∀ p nest size purpose, (s'.procs p).Alive →
      (s'.procs p).stack = some ⟨nest, .recv .reply size purpose⟩ →
        (s.procs p).SameCall (s'.procs p) ∧
          ∃ nest', (s.procs p).stack = some ⟨nest', .recv .reply size purpose⟩) : Served f' s' := by
  refine h.step hevents fun p nest size purpose halive hstack => .inr ?_
  obtain ⟨hsame, hold⟩ := hp p nest size purpose halive hstack
  refine ⟨(hk.alive p).mp halive, hold, fun e he => hnew e he p, hsame.2.1, fun later hout => ?_⟩
  exact hout.congr hsame (Live.kept hk) (fun d hd => ⟨hphase d hd, hk.pid d⟩) new

/-- One process is changed, and it is not in a call afterwards, or the call goes on. -/
theorem setProc (h : Served f s) (hk : Kept s s') (hevents : s'.events = s.events ++ new)
    (hnew : ∀ e ∈ new, e.Harmless) (hphase : ∀ d, f = .notify d → f' = .notify d)
    {q : Slot} {proc : Process} (hprocs : s'.procs = Function.update s.procs q proc)
    (hq : ∀ nest size purpose, proc.Alive →
      proc.stack = some ⟨nest, .recv .reply size purpose⟩ →
        (s.procs q).SameCall proc ∧
          ∃ nest', (s.procs q).stack = some ⟨nest', .recv .reply size purpose⟩) : Served f' s' := by
  refine h.kept hk hevents hnew hphase fun p nest size purpose halive hstack => ?_
  rw [hprocs] at halive hstack ⊢
  by_cases hp : p = q
  · subst hp
    rw [Function.update_self] at halive hstack ⊢
    exact hq nest size purpose halive hstack
  · rw [Function.update_of_ne hp] at halive hstack ⊢
    exact ⟨⟨rfl, rfl, rfl⟩, nest, hstack⟩

end Served

/-- The invariant of the calls. -/
structure Calls (f : Phase) (s : Kernel) : Prop where
  ids : Ids s
  boxes : ReplyBoxes s
  dying : Dying f s
  served : Served f s

namespace Calls

variable {w : Promise} {f f' : Phase} {s s' : Kernel}

theorem posted (hc : Consistent s) (h : Calls f s) {p : Slot} {m : MsgType} {msg : Message}
    (hp : Posted s p m msg s') : Served f s' := by
  have hk : Kept s s' := .posted hp
  refine h.served.step hp.events fun q nest size purpose halive hstack => .inr ?_
  by_cases hq : q = p
  · subst hq
    have hbegins : ∀ e ∈ [Event.accepted q m msg], e.begins q = false := by simp [Event.begins]
    cases hp with
    | kept halive' hidle hm =>
      have hself : (s.deposited q m msg).procs q = (s.procs q).deposit m msg :=
        Function.update_self _ _ _
      rw [hself] at hstack ⊢
      have hsame : (s.procs q).SameCall ((s.procs q).deposit m msg) :=
        ⟨rfl, rfl, by simp [Process.deposit, Process.setMbox, Ne.symm hm]⟩
      refine ⟨halive', ⟨nest, hstack⟩, hbegins, rfl, fun later hout => ?_⟩
      exact hout.congr hsame (Live.kept hk) (fun d hd => ⟨hd, hk.pid d⟩) _
    | woke hstate hwait hreply =>
      have hself : ((s.deposited q m msg).awake q).procs q =
          ((s.procs q).deposit m msg).woken := by
        simp [Kernel.awake, Kernel.deposited, Kernel.setProc, Kernel.emit]
      rw [hself] at hstack ⊢
      have hm : m = .reply := by
        obtain ⟨nest', size', purpose', hst⟩ := ReplyBoxes.waiting_stack hc hstate hwait
        rw [show (s.procs q).stack = _ from hstack] at hst
        cases hst
        rfl
      subst hm
      refine ⟨.inr hstate, ⟨nest, hstack⟩, hbegins, rfl, fun later _ => .replied ?_⟩
      simp [Process.woken, Process.deposit, Process.setMbox]
  · rw [hp.other hq] at halive hstack ⊢
    refine ⟨halive, ⟨nest, hstack⟩, by simp [Event.begins], rfl, fun later hout => ?_⟩
    exact hout.congr ⟨rfl, rfl, rfl⟩ (Live.kept hk) (fun d hd => ⟨hd, hk.pid d⟩) _

/-- A client is woken without a reply only because its server died. -/
theorem awake (h : Calls f s) {p : Slot} (hstate : (s.procs p).state = .waiting)
    (hwhy : (s.procs p).alarmSet = true ∨
      ∃ q, f = .notify q ∧ awaits (s.procs p) (s.procs q).pid = true) (hk : Kept s (s.awake p)) :
    Served f (s.awake p) := by
  refine h.served.step (List.append_nil _).symm fun q nest size purpose halive hstack => .inr ?_
  by_cases hq : q = p
  · subst hq
    have hself : (s.awake q).procs q = (s.procs q).woken := Function.update_self _ _ _
    rw [hself] at hstack ⊢
    refine ⟨.inr hstate, ⟨nest, hstack⟩, by simp, rfl, fun later hout => ?_⟩
    have hpatient := (h.boxes q).patient nest size purpose hstack hstate
    obtain halarm | ⟨d, hf, haw⟩ := hwhy
    · rw [hpatient] at halarm
      cases halarm
    have hserver : (s.procs q).server = (s.procs d).pid := by
      simp only [awaits, Bool.and_eq_true, decide_eq_true_eq] at haw
      exact haw.2
    cases hout with
    | replied hreply => exact absurd ((h.boxes q).waiting_empty hstate) hreply
    | waiting _ hlive =>
      -- the server is dead and the only one with its id
      obtain ⟨r, hr, hpid⟩ := hlive
      have hd := h.dying d (.inl hf)
      have hrd : r = d := h.ids.distinct r d (Ids.alive_used hr) (by rw [hd]; decide)
        (hpid.trans hserver)
      rw [hrd, Process.Alive, hd] at hr
      obtain hr | hr := hr <;> cases hr
    | lost hlost => exact .lost (hlost.append []) (fun hw => by cases hw)
  · have hother : (s.awake p).procs q = s.procs q := Function.update_of_ne hq _ _
    rw [hother] at halive hstack ⊢
    refine ⟨halive, ⟨nest, hstack⟩, by simp, rfl, fun later hout => ?_⟩
    exact hout.congr ⟨rfl, rfl, rfl⟩ (Live.kept hk) (fun d hd => ⟨hd, hk.pid d⟩) _

/-- The clients of a process that dies are told. -/
theorem died (h : Calls .idle s) {d : Slot} (hd : (s.procs d).Alive) :
    Served (.notify d) (s.died d) := by
  have hself : (s.died d).procs d = { s.procs d with state := .zombie } :=
    Function.update_self _ _ _
  have hpid : ((s.died d).procs d).pid = (s.procs d).pid := by rw [hself]
  refine h.served.step rfl fun q nest size purpose halive hstack => .inr ?_
  have hq : q ≠ d := by
    rintro rfl
    rw [hself] at halive
    obtain hs | hs := halive <;> cases hs
  have hother (r : Slot) (hr : r ≠ d) : (s.died d).procs r = s.procs r :=
    Function.update_of_ne hr _ _
  rw [hother q hq] at halive hstack ⊢
  refine ⟨halive, ⟨nest, hstack⟩, by simp [Event.begins], rfl, fun later hout => ?_⟩
  cases hout with
  | replied hreply => exact .replied hreply
  | waiting hstate hlive =>
    obtain ⟨r, hr, hrpid⟩ := hlive
    by_cases hrd : r = d
    · subst hrd
      refine .lost ⟨r, (s.procs r).uid, ?_⟩ (fun _ => ⟨r, rfl, hpid.trans hrpid⟩)
      rw [← hrpid]
      exact List.mem_append_right _ List.mem_cons_self
    · exact .waiting hstate ⟨r, by rw [hother r hrd]; exact hr, by rw [hother r hrd]; exact hrpid⟩
  | lost hlost hnotify =>
    refine .lost (hlost.append _) fun hw => ?_
    obtain ⟨d', hf, -⟩ := hnotify hw
    cases hf

/-- When all clients have been told, none waits for the dead process. -/
theorem swept (hc : Consistent s) {d : Slot} (h : Calls (.notify d) s)
    (hnone : ∀ q, awaits (s.procs q) (s.procs d).pid = false) : Served (.release d 0) s := by
  refine h.served.step (List.append_nil _).symm fun q nest size purpose halive hstack => .inr ?_
  refine ⟨halive, ⟨nest, hstack⟩, by simp, rfl, fun later hout => ?_⟩
  cases hout with
  | replied hreply => exact .replied hreply
  | waiting hstate hlive => exact .waiting hstate hlive
  | lost hlost hnotify =>
    refine .lost (hlost.append []) fun hw => ?_
    obtain ⟨d', hf, hpid⟩ := hnotify hw
    cases hf
    obtain ⟨nest', m, size', purpose', hst, honly⟩ := hc.awaiting q hw
    rw [hstack] at hst
    cases hst
    have haw := hnone q
    simp [awaits, hw, (honly .reply).mpr rfl, hpid] at haw

/-- A new client has just sent its request to a process that is alive. -/
theorem called (hc : Consistent s) (h : Calls f s) {t : Kernel} {q : Slot} {contents : List Byte}
    {server size : Nat} {purpose : Purpose} (hstate : s.me.state = .runnable)
    (hposted : Posted s q .request ⟨s.me.pid, s.me.uid, contents⟩ t)
    (hpid : (s.procs q).pid = server) (hself : q ≠ s.current)
    (hk : Kept s (t.called server size purpose))
    (hphase : ∀ d, f ≠ .notify d) : Served .idle (t.called server size purpose) := by
  have ht := h.posted hc hposted
  have hprocs := t.called_procs server size purpose
  have hevents : (t.called server size purpose).events =
      t.events ++ [.requested t.current server] := rfl
  have hkt : Kept t (t.called server size purpose) := by
    refine .setProc hprocs rfl hevents (by simp [Event.vital]) rfl rfl (.inr (.inl ⟨?_, .inr rfl⟩))
    left
    rw [← hposted.me hself] at hstate
    exact hstate
  refine ht.step hevents fun p nest size' purpose' halive hstack => ?_
  by_cases hp : p = t.current
  · subst hp
    have hme : (t.called server size purpose).procs t.current =
        { t.me with server := server }.blocked .reply 0 0 ⟨0, .recv .reply size purpose⟩ := by
      rw [hprocs, Function.update_self]
    left
    rw [hme]
    refine ⟨contents, [], ⟨⟨s.events, q, s.me.pid, s.me.uid, ?_⟩, by simp⟩,
      .waiting rfl ⟨q, ?_, ?_⟩⟩
    · rw [hevents, hposted.events]
      simp [Process.blocked, Process.setMbox]
    · exact (hk.alive q).mpr hposted.alive
    · rw [hk.pid, hpid]
      rfl
  · have hother : (t.called server size purpose).procs p = t.procs p := by
      rw [hprocs, Function.update_of_ne hp]
    rw [hother] at halive hstack ⊢
    refine .inr ⟨halive, ⟨nest, hstack⟩, ?_, rfl, fun later hout => ?_⟩
    · simpa [Event.begins] using Ne.symm hp
    · exact hout.congr ⟨rfl, rfl, rfl⟩ (Live.kept hkt) (fun d hd => absurd hd (hphase d)) _

theorem spawned (h : Calls .idle s) {p : Slot} {rest : List Slot} {uid owner : Nat}
    (hfree : (s.procs p).state = .free) : Served .idle (s.spawned p rest uid owner) := by
  have hself : ((s.spawned p rest uid owner).procs p).stack = none := by
    simp [Kernel.spawned, Kernel.setProc, Kernel.emit, Process.zero]
  have hother (q : Slot) (hq : q ≠ p) : (s.spawned p rest uid owner).procs q =
      if q = s.current then { s.me with stack := some ⟨0, .create⟩ } else s.procs q :=
    spawned_other s hq
  have hlive {pid : Nat} (hl : Live s pid) : Live (s.spawned p rest uid owner) pid := by
    obtain ⟨r, hr, hpid⟩ := hl
    have hrp : r ≠ p := by
      rintro rfl
      exact Ids.alive_used hr hfree
    refine ⟨r, ?_, ?_⟩
    · rw [hother r hrp]
      split
      · rename_i hc
        rw [hc] at hr
        exact hr
      · exact hr
    · rw [hother r hrp]
      split
      · rename_i hc
        rw [hc] at hpid
        exact hpid
      · exact hpid
  refine h.served.step rfl fun q nest size purpose halive hstack => .inr ?_
  have hq : q ≠ p := by
    rintro rfl
    rw [hself] at hstack
    cases hstack
  have hqc : q ≠ s.current := by
    intro hc
    rw [hother q hq, if_pos hc] at hstack
    cases hstack
  have hsame := hother q hq
  rw [if_neg hqc] at hsame
  rw [hsame] at halive hstack ⊢
  refine ⟨halive, ⟨nest, hstack⟩, ?_, rfl, fun later hout => ?_⟩
  · simpa [Event.begins] using Ne.symm hq
  · exact hout.congr ⟨rfl, rfl, rfl⟩ hlive (fun d hd => by cases hd) _

theorem move_served (hw : w.replyToRpc) (hc : Consistent s) (h : Calls f s)
    (hm : Move w f s f' s') : Served f' s' := by
  have hnil : s.events = s.events ++ [] := (List.append_nil _).symm
  obtain ⟨p, parent, rest, uid, owner, rfl, rfl, hs, rfl⟩ | ⟨p, rfl, rfl, hp, rfl⟩ | hk := hm.kept
  · exact h.spawned (hs.slot_free hc)
  · exact h.died hp
  -- a process that leaves a call, or is not in one
  have hfree {q : Slot} {proc : Process} (hstack : ∀ nest size purpose,
      proc.stack ≠ some ⟨nest, .recv .reply size purpose⟩) (nest size : Nat) (purpose : Purpose)
      (_ : proc.Alive) (hs : proc.stack = some ⟨nest, .recv .reply size purpose⟩) :
      (s.procs q).SameCall proc ∧
        ∃ nest', (s.procs q).stack = some ⟨nest', .recv .reply size purpose⟩ :=
    absurd hs (hstack nest size purpose)
  have hsame {t : Kernel} {g : Phase} {new : List Event} (hk : Kept s t) (hprocs : t.procs = s.procs)
      (hevents : t.events = s.events ++ new) (hnew : ∀ e ∈ new, e.Harmless)
      (hphase : ∀ d, f = .notify d → g = .notify d) : Served g t := by
    refine h.served.kept hk hevents hnew hphase fun p nest size purpose _ hstack => ?_
    rw [hprocs] at hstack ⊢
    exact ⟨⟨rfl, rfl, rfl⟩, nest, hstack⟩
  cases hm with
  | spawn => exact absurd hk.pidGen (Nat.succ_ne_self _)
  | @die _ p halive =>
    have hdead := (hk.alive p).mpr halive
    simp [Kernel.died, Kernel.emit, Kernel.setProc, Process.Alive] at hdead
  | post hposted => exact h.posted hc hposted
  | wake hstate hwhy => exact h.awake hstate hwhy hk
  | swept hnone => exact h.swept hc hnone
  | release =>
    refine h.served.setProc hk hnil (by simp) (by simp) rfl fun _ _ _ halive => ?_
    exact absurd halive (Process.released_not_alive _)
  | reap =>
    refine h.served.setProc hk hnil (by simp) (by simp) rfl fun _ _ _ halive => ?_
    exact absurd halive (Process.released_not_alive _)
  | @switch _ next rest =>
    have hevents : (s.switched next rest).events = s.events ++ [] := by
      rw [List.append_nil]
      exact s.parked_events rest
    refine h.served.kept hk hevents (by simp) (by simp) fun p nest size purpose halive hstack => ?_
    obtain hp | ⟨-, -, hp⟩ := s.parked_procs rest p
    · rw [show (s.switched next rest).procs p = s.procs p from hp] at hstack ⊢
      exact ⟨⟨rfl, rfl, rfl⟩, nest, hstack⟩
    · rw [show (s.switched next rest).procs p = s.me.released from hp] at halive
      exact absurd halive (Process.released_not_alive _)
  | enter hstack hstate hcall =>
    refine h.served.setProc hk hnil (by simp) (by simp) rfl (hfree ?_)
    obtain rfl | rfl := hcall <;> simp
  | @nest _ stack n hstack =>
    refine h.served.setProc hk hnil (by simp) (by simp) rfl fun nest size purpose _ hs => ?_
    obtain ⟨k, call⟩ := stack
    cases hs
    exact ⟨⟨rfl, rfl, rfl⟩, k, hstack⟩
  | leave => exact h.served.setProc hk hnil (by simp) (by simp) rfl (hfree (by simp))
  | resume =>
    refine h.served.setProc hk (List.append_assoc _ _ _) (fun e he p => ?_) (by simp) rfl
      (hfree (by simp))
    obtain he | he := List.mem_append.mp he
    · exact receivedBy_begins he
    · exact answered_begins he
  | take hstack =>
    refine h.served.setProc hk rfl (fun e he p => receivedBy_begins he) (by simp) rfl (hfree ?_)
    intro nest size purpose hs
    rw [show (s.me.taken _).stack = none from hstack] at hs
    cases hs
  | @call _ t q contents server size purpose hstack hstate hposted hpid hself =>
    refine h.called hc hstate hposted hpid hself hk fun d hd => ?_
    cases purpose <;> cases hd
  | block hstack hstate hempty hrecv =>
    refine h.served.setProc hk hnil (by simp) (by simp) rfl (hfree fun nest size purpose hs => ?_)
    cases hs
    exact hrecv hw rfl
  | exec hstack =>
    refine h.served.setProc hk hnil (by simp) (by simp) rfl (hfree fun nest size purpose hs => ?_)
    have hme : s.me.stack = some _ := hs
    rw [hstack] at hme
    cases hme
  | takeFrame hstack =>
    refine h.served.setProc hk hnil (by simp) (by simp) rfl (hfree fun nest size purpose hs => ?_)
    have hme : s.me.stack = some _ := hs
    rw [hstack] at hme
    cases hme
  | fill => exact hsame hk rfl rfl (by simp [Event.Harmless, Event.begins]) (by simp)
  | poke => exact hsame hk rfl rfl (by simp [Event.Harmless, Event.begins]) (by simp)
  | peek => exact hsame hk rfl rfl (by simp [Event.Harmless, Event.begins]) (by simp)
  | advance => exact hsame hk rfl hnil (by simp) (fun _ hd => hd)
  | @map f _ virt frame index access _ _ _ _ _ hindex =>
    refine hsame hk rfl hnil (by simp) fun d hd => ?_
    obtain hf | ⟨hf, -⟩ := hindex <;> rw [hf] at hd <;> cases hd
  | keepPage | freePage | termed | shutdown | sync => exact hsame hk rfl hnil (by simp) (by simp)

end Calls

theorem Move.calls {w : Promise} {f f' : Phase} {s s' : Kernel} (hw : w.unwrapped)
    (hw' : w.replyToRpc) (hc : Consistent s) (hm : Move w f s f' s') (h : Calls f s) :
    Calls f' s' where
  ids := hm.ids hw h.ids
  boxes := hm.replyBoxes hw' hc h.boxes
  dying := hm.dying h.dying
  served := h.move_served hw' hc hm

/-- What is known of the end of an RPC: the reply is from the server that was asked, and if
there is none, the server died after it was asked. -/
def Answered (past : List Event) : Event → Prop
  | .answered p server none => ∃ contents later, Asked p server contents past later ∧
      Lost server later
  | .answered p server (some msg) => msg.src = server ∧
      ∃ contents later, Asked p server contents past later
  | _ => True

theorem Calls.answered {s : Kernel} (h : Calls .idle s) {m : MsgType} {nest size : Nat}
    {purpose : Purpose} (hstack : s.me.stack = some ⟨nest, .recv m size purpose⟩)
    (hstate : s.me.state = .runnable) {server : Nat} (hserver : purpose.server = some server) :
    Answered (s.events ++ Message.receivedBy s.current m size (s.me.firstMessage m size))
      (.answered s.current server (s.me.firstMessage m size)) := by
  have hbox := h.boxes s.current
  have hpurpose := hbox.server nest m size purpose hstack
  have hm : m = .reply := by
    by_contra hne
    rw [if_neg hne, hserver] at hpurpose
    cases hpurpose
  subst hm
  have hsrv : server = s.me.server := by
    rw [if_pos rfl, hserver] at hpurpose
    exact Option.some.inj hpurpose
  obtain ⟨contents, later, hasked, hout⟩ :=
    h.served s.current nest size purpose (.inl hstate) hstack
  have hnew (e : Event) (he : e ∈ Message.receivedBy s.current .reply size
      (s.me.firstMessage .reply size)) : e.begins s.current = false := receivedBy_begins he
  have hasked' := hasked.append hnew
  cases hfirst : s.me.firstMessage .reply size with
  | none =>
    rw [hfirst] at hasked'
    have hempty : (s.me.mboxes .reply).messages = [] := by
      simpa [Process.firstMessage] using hfirst
    rw [hsrv]
    refine ⟨contents, _, hasked', ?_⟩
    cases hout with
    | replied hreply => exact absurd hempty hreply
    | waiting hw =>
      rw [show (s.procs s.current).state = .runnable from hstate] at hw
      cases hw
    | lost hlost => exact hlost.append _
  | some msg =>
    rw [hfirst] at hasked'
    rw [hsrv]
    refine ⟨?_, contents, _, hasked'⟩
    obtain ⟨msg', hhead, hsrc⟩ := firstMessage_src hfirst
    rw [hsrc]
    exact hbox.source msg' (List.mem_of_mem_head? hhead)

theorem answered_received {past : List Event} (h : Throughout Answered past) (p : Slot)
    (m : MsgType) (size : Nat) (msg : Option Message) :
    Throughout Answered (past ++ Message.receivedBy p m size msg) := by
  cases msg with
  | none => rwa [Message.receivedBy, List.append_nil]
  | some msg => exact h.concat trivial

theorem Move.answers {w : Promise} {f f' : Phase} {s s' : Kernel} (hm : Move w f s f' s')
    (hc : Calls f s) (h : Throughout Answered s.events) : Throughout Answered s'.events := by
  cases hm with
  | post hposted =>
    rw [hposted.events]
    exact h.concat trivial
  | @switch _ next rest =>
    change Throughout Answered (s.parked rest).events
    rwa [s.parked_events]
  | die | spawn | fill | poke | peek => exact h.concat trivial
  | @call _ t q contents server size purpose _ _ hposted =>
    have ht : Throughout Answered t.events := by
      rw [hposted.events]
      exact h.concat trivial
    exact ht.concat trivial
  | @take _ m size => exact answered_received h _ m size _
  | @resume _ m size purpose hstack hstate =>
    have hreceived := answered_received h s.current m size (s.me.firstMessage m size)
    cases purpose with
    | recv =>
      change Throughout Answered (_ ++ [])
      rwa [List.append_nil]
    | rpc server => exact hreceived.concat (hc.answered hstack hstate rfl)
    | frame server fault => exact hreceived.concat (hc.answered hstack hstate rfl)
  | wake | swept | keepPage | freePage | termed | release | reap | enter | nest | leave | block
  | shutdown | exec | takeFrame | map | advance | sync => exact h

/-- Replies are received by `sys_rpc` only, since `sys_recv` refuses their type, and the ids have
not wrapped. -/
def Promise.rpc : Promise where
  bareCreator := False
  replyToRpc := True
  requestByRpc := False
  unwrapped := True
  mute := fun _ => False
  shielded := fun _ _ => False
  readOnly := noneReadOnly
  header := fun _ => True

/-- The safety of RPC in one state. -/
structure RpcSafe (s : Kernel) : Prop where
  /-- nobody waits for a dead server -/
  server : ∀ p, (s.procs p).state = .waiting → ((s.procs p).mboxes .reply).waiting = true →
    ∃ q, (s.procs q).pid = (s.procs p).server ∧
      (s.procs q).state ≠ .free ∧ (s.procs q).state ≠ .zombie
  /-- there is at most one reply, and it is from the server -/
  few : ∀ p, ((s.procs p).mboxes .reply).messages.length ≤ 1
  source : ∀ p, ∀ msg ∈ ((s.procs p).mboxes .reply).messages, msg.src = (s.procs p).server
  /-- `sys_rpc` refuses a request only if no other process that is alive has the id -/
  refused : ∀ pid request size purpose, Running s →
    Outcome (sysRpc pid request size purpose) (fun r _ => r = false →
      ∀ q, (s.procs q).Alive → (s.procs q).pid = pid → q = s.current) (fun _ _ => True) s
  /-- a call fails after its request was sent only if the server died meanwhile -/
  answered : Throughout Answered s.events

theorem Calls.failing {f : Phase} {s : Kernel} (h : Calls f s) (hc : Consistent s) {a : Assertion}
    (hf : Failing s a) : a ≠ .recvNoReply ∧ a ≠ .rpcSource ∧ a ≠ .yieldPid := by
  refine ⟨?_, ?_, ?_⟩
  · rintro rfl
    obtain ⟨hstack, hne⟩ := hf
    exact hne ((h.boxes s.current).empty (by simp [show (s.procs s.current).stack = _ from hstack]))
  · rintro rfl
    obtain ⟨m, size, purpose, server, msg, hstack, hserver, hhead, hsrc⟩ := hf
    have hbox := h.boxes s.current
    have hpurpose := hbox.server 0 m size purpose hstack
    rw [hserver] at hpurpose
    split at hpurpose
    · rename_i hm
      subst hm
      rw [Option.some.inj hpurpose] at hsrc
      exact hsrc (hbox.source msg (List.mem_of_mem_head? hhead))
    · cases hpurpose
  · rintro rfl
    obtain ⟨next, hmem, halive, hpid⟩ := hf
    have hne : next = s.current :=
      h.ids.distinct next s.current (Ids.alive_used halive) hc.current_used hpid
    exact hc.current_unqueued (hne ▸ hmem)

theorem procFind_none {s : Kernel} {pid : Nat} (h : procFind s pid = none) (p : Slot)
    (hp : (s.procs p).state ≠ .free) : (s.procs p).pid ≠ pid := by
  have hall := List.find?_eq_none.mp h p (List.mem_finRange p)
  simpa [hp] using hall

/-- A call is refused only if no other process that is alive has the id. -/
theorem outcome_sysRpc_refused {s : Kernel} (hc : Consistent s) (hids : Ids s) (hr : Running s)
    (pid size : Nat) (request : List Byte) (purpose : Purpose) :
    Outcome (sysRpc pid request size purpose) (fun r _ => r = false →
      ∀ q, (s.procs q).Alive → (s.procs q).pid = pid → q = s.current) (fun _ _ => True) s := by
  unfold sysRpc
  simp only [Outcome.bind_iff, Outcome.get_iff]
  split
  · rename_i hself
    intro _ q hq hpid
    exact hids.distinct q s.current (Ids.alive_used hq) hc.current_used (hpid.trans hself)
  simp only [Outcome.bind_iff]
  refine Outcome.post (outcome_procSend hc _ _ _ _ _) ?_
  intro r t hsent
  obtain ⟨rfl, rfl, hnone⟩ | ⟨rfl, p, -, -⟩ := hsent
  · intro _ q hq hpid
    cases hfind : procFind t pid with
    | none => exact absurd hpid (procFind_none hfind q (Ids.alive_used hq))
    | some p =>
      obtain ⟨hused, hpid'⟩ := procFind_some hfind
      have hqp := hids.distinct q p (Ids.alive_used hq) hused (hpid.trans hpid'.symm)
      cases (hnone p hfind (hqp ▸ hq)).1
  · simp only [Outcome.bind_iff, Outcome.modify_iff, if_true]
    exact Outcome.always _ |>.mono (fun _ _ _ h => by cases h) (fun _ _ _ => trivial)

theorem calls_procInitialize (frames : Nat → Page) : Calls .idle (procInitialize frames) where
  ids := ids_procInitialize frames
  boxes p := by
    obtain ⟨pid, owner, state, hp⟩ := procInitialize_fresh frames p
    rw [hp]
    exact .of_empty rfl (by intro _ _ _ _ h; cases h) fun _ => rfl
  dying := dying_idle _
  served p nest size purpose _ hs := by
    rw [procInitialize_stack] at hs
    cases hs

theorem Calls.safe {s : Kernel} (h : Calls .idle s) (hc : Consistent s)
    (ha : Throughout Answered s.events) : RpcSafe s where
  server p hstate hwait := by
    obtain ⟨nest, size, purpose, hstack⟩ := ReplyBoxes.waiting_stack hc hstate hwait
    obtain ⟨contents, later, -, hout⟩ := h.served p nest size purpose (.inr hstate) hstack
    cases hout with
    | replied hreply => exact absurd ((h.boxes p).waiting_empty hstate) hreply
    | waiting _ hlive =>
      obtain ⟨q, hq, hpid⟩ := hlive
      refine ⟨q, hpid, Ids.alive_used hq, ?_⟩
      obtain hq | hq := hq <;> rw [hq] <;> decide
    | lost _ hnotify =>
      obtain ⟨d, hd, -⟩ := hnotify hstate
      cases hd
  few p := (h.boxes p).few
  source p := (h.boxes p).source
  refused pid request size purpose hr := outcome_sysRpc_refused hc h.ids hr pid size request purpose
  answered := ha

/-- Along every run RPC is safe, and the assertions on replies and ids hold. -/
theorem run_rpcSafe (frames : Nat → Page) (actions : List Action)
    (h : Honored .rpc actions (procInitialize frames)) :
    Outcome (run actions) (fun _ s => RpcSafe s)
      (fun e _ => e ≠ .assertion .recvNoReply ∧ e ≠ .assertion .rpcSource ∧
        e ≠ .assertion .yieldPid) (procInitialize frames) := by
  have hnone : Throughout Answered (procInitialize frames).events := by
    rw [procInitialize_events, ← List.nil_append [_]]
    exact Throughout.nil.concat trivial
  have hrun := outcome_run (I := fun f s => Calls f s ∧ Throughout Answered s.events)
    (fun hc hm hi => ⟨hm.calls trivial trivial hc hi.1, hm.answers hi.1 hi.2⟩) h
    (atRest_procInitialize frames .rpc)
    ⟨calls_procInitialize frames, hnone⟩
  refine hrun.mono ?_ ?_
  · intro _ s hpost
    obtain ⟨hs, hcalls, hanswers⟩ := hpost
    exact hcalls.safe hs.consistent hanswers
  · intro e _ he
    have hne (a : Assertion) (ha : e = .assertion a) :
        a ≠ .recvNoReply ∧ a ≠ .rpcSource ∧ a ≠ .yieldPid := by
      obtain ⟨f, t, hc, ⟨hcalls, -⟩, ht⟩ := he a ha
      exact hcalls.failing hc ht
    exact ⟨fun ha => (hne _ ha).1 rfl, fun ha => (hne _ ha).2.1 rfl, fun ha => (hne _ ha).2.2 rfl⟩

/-- Actions that honor the promise in every state. -/
def Action.Plain : Action → Prop
  | .create _ _ | .recv .reply _ _ _ => False
  | _ => True

theorem honors_rpc {s : Kernel} {a : Action}
    (hids : ∀ owner uid, a = .create owner uid → s.pidGen < 2 ^ 32)
    (hrecv : ∀ maxTime now size, a ≠ .recv .reply maxTime now size) : Honors .rpc s a where
  create _ _ _ hw := hw.elim
  ids owner uid ha _ := hids owner uid ha
  recv maxTime now size ha := absurd ha (hrecv maxTime now size)
  send _ _ _ _ _ _ := ⟨fun _ hw => hw, fun _ hw => hw⟩
  handleSend _ _ _ _ _ _ := ⟨fun _ hw => hw, fun _ hw => hw⟩
  copy _ _ _ hw := hw
  exec _ _ _ _ := trivial

theorem honored_rpc_plain {actions : List Action} (h : ∀ a ∈ actions, a.Plain) (s : Kernel) :
    Honored .rpc actions s := by
  induction actions generalizing s with
  | nil => trivial
  | cons a rest ih =>
    have ha := h a List.mem_cons_self
    refine ⟨honors_rpc ?_ ?_, fun s' _ => ih (fun b hb => h b (List.mem_cons_of_mem a hb)) s'⟩
    · rintro owner uid rfl
      exact ha.elim
    · rintro maxTime now size rfl
      exact ha.elim

/-- A client calls `main`, which replies. -/
def rpcExample : List Action :=
  [.create 1 0, .rpc 1 [] 8, .wake 0, .recv .request 0 0 8, .send 1 0 2 .reply [7], .yield, .wake 0]

theorem run_rpcSafe_example :
    RpcSafe (final (run rpcExample (procInitialize fun _ _ => 0))) ∧
      (final (run rpcExample (procInitialize fun _ _ => 0))).events.any (fun e =>
        match e with
        | .answered _ 1 (some _) => true
        | _ => false) = true := by
  have hhonored : Honored .rpc rpcExample (procInitialize fun _ _ => 0) := by
    refine ⟨honors_rpc (fun _ _ _ => by decide +kernel) (by simp), fun s' _ => ?_⟩
    exact honored_rpc_plain (by simp [Action.Plain]) s'
  have hok : returned (run rpcExample (procInitialize fun _ _ => 0)) = some ⟨⟩ := by
    decide +kernel
  refine ⟨?_, by decide +kernel⟩
  -- the run is not to be evaluated again
  generalize rpcExample = actions at hhonored hok ⊢
  exact (run_rpcSafe _ actions hhonored).ok (eq_ok_of_returned hok)

end Egos.Grass
