import Egos.Grass.Delivery
import Egos.Grass.Rpc

/-!
# A server and its clients

A server that sends one reply for each request it takes from its mailbox, to the sender and
before it takes the next one, knows its clients: whoever sent a request that is not answered
yet still waits for this answer, or is gone. That the sender is named by its process id does
no harm, as long as the ids have not wrapped.
-/
namespace Egos.Grass

open Egos.Lib Egos.Earth

set_option autoImplicit false

/-- The last place of `a` in the list is `k`. -/
def LastAt {α : Type} (l : List α) (a : α) (k : Nat) : Prop :=
  l[k]? = some a ∧ ∀ j, k < j → l[j]? ≠ some a

namespace LastAt

variable {α : Type} {l : List α} {a b : α} {j k : Nat}

theorem unique (h : LastAt l a j) (h' : LastAt l a k) : j = k := by
  obtain hlt | heq | hlt := Nat.lt_trichotomy j k
  · exact absurd h'.1 (h.2 k hlt)
  · exact heq
  · exact absurd h.1 (h'.2 j hlt)

theorem lt_length (h : LastAt l a k) : k < l.length := by
  by_contra hge
  have hnone := List.getElem?_eq_none (Nat.le_of_not_lt hge)
  rw [h.1] at hnone
  cases hnone

theorem concat (h : LastAt l a k) (hne : b ≠ a) : LastAt (l ++ [b]) a k := by
  refine ⟨?_, fun j hj => ?_⟩
  · rw [List.getElem?_append_left h.lt_length]
    exact h.1
  · by_cases hlt : j < l.length
    · rw [List.getElem?_append_left hlt]
      exact h.2 j hj
    · rw [List.getElem?_append_right (Nat.le_of_not_lt hlt)]
      intro hb
      obtain hzero | hpos := Nat.eq_zero_or_pos (j - l.length)
      · rw [hzero] at hb
        exact hne (Option.some.inj hb)
      · rw [List.getElem?_eq_none (by rw [List.length_singleton]; exact hpos)] at hb
        cases hb

theorem last (l : List α) (a : α) : LastAt (l ++ [a]) a l.length := by
  refine ⟨by simp, fun j hj => ?_⟩
  rw [List.getElem?_eq_none (by rw [List.length_append, List.length_singleton]; exact hj)]
  simp

end LastAt

/-- The process that asks the server, if the event is a request to it. -/
def Event.client (server : Nat) : Event → Option Slot
  | .requested p server' => if server' = server then some p else none
  | _ => none

/-- The slots of the processes that asked the server, in this order. -/
def clients (server : Nat) (events : List Event) : List Slot :=
  events.filterMap (Event.client server)

/-- The requests that reached the process in the slot, in this order. -/
def requestsTo (events : List Event) (d : Slot) : List Message :=
  (mailOf events d .request).accepted

/-- Whether the event begins a process or a request. -/
def Event.opens : Event → Bool
  | .born .. | .accepted _ .request _ | .requested .. => true
  | _ => false

section

variable {events new : List Event}

theorem clients_append (server : Nat) (h : ∀ e ∈ new, e.opens = false) :
    clients server (events ++ new) = clients server events := by
  have hnone : new.filterMap (Event.client server) = [] := by
    rw [List.filterMap_eq_nil_iff]
    intro e he
    have ho := h e he
    cases e <;> first | rfl | cases ho
  rw [clients, List.filterMap_append, hnone, List.append_nil, clients]

theorem requestsTo_append (d : Slot) (h : ∀ e ∈ new, e.opens = false) :
    requestsTo (events ++ new) d = requestsTo events d := by
  induction new using List.reverseRecOn with
  | nil => rw [List.append_nil]
  | append_singleton new e ih =>
    have ho := h e (by simp)
    have hnote : (Mail.note d .request (mailOf (events ++ new) d .request) e).accepted =
        (mailOf (events ++ new) d .request).accepted := by
      cases e with
      | accepted q m msg =>
        simp only [Mail.note]
        split
        · rename_i hq
          obtain ⟨-, rfl⟩ := hq
          cases ho
        · rfl
      | received q m size msg =>
        simp only [Mail.note]
        split <;> rfl
      | born => cases ho
      | _ => rfl
    rw [← List.append_assoc, requestsTo, mailOf_append, List.foldl_cons, List.foldl_nil, hnote]
    exact ih fun e' he' => h e' (by simp [he'])

end

section

variable (s : Kernel) (server : Nat) {p q : Slot} (rest : List Slot) (uid owner : Nat)

theorem spawned_self (hgen : s.pidGen < 2 ^ 32) : (s.spawned q rest uid owner).procs q =
    { Process.zero with pid := s.pidGen, uid := uid, owner := owner, state := .runnable } := by
  rw [← Nat.mod_eq_of_lt hgen]
  exact Function.update_self _ _ _

theorem spawned_same (hp : p ≠ q) : ((s.spawned q rest uid owner).procs p).pid = (s.procs p).pid ∧
    ((s.spawned q rest uid owner).procs p).state = (s.procs p).state := by
  rw [spawned_other s hp]
  split
  · rename_i hc
    rw [hc]
    exact ⟨rfl, rfl⟩
  · exact ⟨rfl, rfl⟩

theorem clients_spawned :
    clients server (s.spawned q rest uid owner).events = clients server s.events := by
  change clients server (s.events ++ [_]) = _
  rw [clients, List.filterMap_append]
  exact List.append_nil _

theorem requestsTo_spawned (hp : p ≠ q) :
    requestsTo (s.spawned q rest uid owner).events p = requestsTo s.events p := by
  change requestsTo (s.events ++ [.born q _ uid owner]) p = _
  rw [requestsTo, mailOf_append]
  simp [Mail.note, Ne.symm hp, requestsTo]

end

section

variable {s t : Kernel} {q : Slot} {msg : Message} (h : Posted s q .request msg t)
  (server' size : Nat) (purpose : Purpose)

include h

theorem Posted.called_events : (t.called server' size purpose).events =
    s.events ++ [.accepted q .request msg] ++ [.requested s.current server'] := by
  change t.events ++ [.requested t.current server'] = _
  rw [h.events, h.current]

theorem Posted.called_clients (server : Nat) : clients server (t.called server' size purpose).events =
    clients server s.events ++ if server' = server then [s.current] else [] := by
  rw [h.called_events, clients, List.filterMap_append, List.filterMap_append]
  simp only [List.filterMap_cons, List.filterMap_nil, Event.client, clients, List.append_nil]
  split <;> simp_all

theorem Posted.called_requests (d : Slot) : requestsTo (t.called server' size purpose).events d =
    requestsTo s.events d ++ if q = d then [msg] else [] := by
  rw [h.called_events, requestsTo, mailOf_append, mailOf_append]
  simp only [List.foldl_cons, List.foldl_nil, Mail.note, requestsTo, and_true]
  split <;> simp

end

/-- The process waits inside `sys_rpc` for the server. A process that died there is released at
once, or when the processor changes hands if it is the running one. -/
structure Pendent (server : Nat) (f : Phase) (s : Kernel) (p : Slot) (uid : Nat) : Prop where
  uid : (s.procs p).uid = uid
  server : (s.procs p).server = server
  call : ∃ nest size purpose, (s.procs p).stack = some ⟨nest, .recv .reply size purpose⟩
  flag : ((s.procs p).mboxes .reply).waiting = true
  state : (s.procs p).state = .waiting ∨ (s.procs p).state = .zombie ∧
    (p = s.current ∨ f = .notify p ∨ ∃ k, f = .release p k)

/-- The requests to the server in slot `d`, of which it has answered `n`. -/
structure Attends (server n : Nat) (f : Phase) (s : Kernel) (d : Slot) : Prop where
  aligned : (clients server s.events).length = (requestsTo s.events d).length
  bounded : ∀ msg ∈ requestsTo s.events d, msg.src < s.pidGen
  pending : ∀ k msg p, n ≤ k → (requestsTo s.events d)[k]? = some msg →
    (s.procs p).state ≠ .free → (s.procs p).pid = msg.src →
      Pendent server f s p msg.uid ∧ LastAt (clients server s.events) p k

structure Attended (server n : Nat) (f : Phase) (s : Kernel) : Prop where
  unborn : s.pidGen ≤ server → clients server s.events = []
  serving : ∀ d, (s.procs d).Alive → (s.procs d).pid = server → Attends server n f s d

namespace Pendent

variable {server : Nat} {f f' : Phase} {s s' : Kernel} {p q : Slot} {uid : Nat}

theorem not_runnable (h : Pendent server f s p uid) : (s.procs p).state ≠ .runnable := by
  obtain hw | ⟨hz, -⟩ := h.state
  · rw [hw]; decide
  · rw [hz]; decide

theorem stack_ne (h : Pendent server f s p uid) : (s.procs p).stack ≠ none := by
  obtain ⟨nest, size, purpose, hs⟩ := h.call
  rw [hs]
  simp

theorem congr (h : Pendent server f s p uid) (hproc : s'.procs p = s.procs p)
    (hcurrent : s'.current = s.current)
    (hphase : f = .notify p ∨ (∃ k, f = .release p k) → f' = .notify p ∨ ∃ k, f' = .release p k) :
    Pendent server f' s' p uid := by
  refine ⟨?_, ?_, ?_, ?_, ?_⟩ <;> rw [hproc]
  · exact h.uid
  · exact h.server
  · exact h.call
  · exact h.flag
  · obtain hw | ⟨hz, hc | hf⟩ := h.state
    · exact .inl hw
    · exact .inr ⟨hz, .inl (hc.trans hcurrent.symm)⟩
    · exact .inr ⟨hz, .inr (hphase hf)⟩

theorem update (h : Pendent server f s p uid) {proc : Process}
    (hprocs : s'.procs = Function.update s.procs q proc) (hne : p ≠ q)
    (hcurrent : s'.current = s.current)
    (hphase : f = .notify p ∨ (∃ k, f = .release p k) → f' = .notify p ∨ ∃ k, f' = .release p k) :
    Pendent server f' s' p uid :=
  h.congr (by rw [hprocs, Function.update_of_ne hne]) hcurrent hphase

/-- No message but the reply of the server reaches the process, or wakes it. -/
theorem posted (h : Pendent server f s p uid) (hc : Consistent s) {m : MsgType} {msg : Message}
    (hp : Posted s q m msg s') (hmute : m = .reply → msg.src ≠ server) :
    Pendent server f s' p uid := by
  by_cases hpq : p = q
  · subst hpq
    cases hp with
    | kept halive hidle hm =>
      have hproc : (s.deposited p m msg).procs p = (s.procs p).deposit m msg :=
        Function.update_self _ _ _
      refine ⟨?_, ?_, ?_, ?_, ?_⟩ <;> rw [hproc]
      · exact h.uid
      · exact h.server
      · exact h.call
      · simpa [Process.deposit, Process.setMbox, Ne.symm hm] using h.flag
      · exact h.state
    | woke hstate hwait hreply =>
      obtain ⟨nest, size, purpose, hs⟩ := h.call
      obtain ⟨nest', size', purpose', hs'⟩ := ReplyBoxes.waiting_stack hc hstate hwait
      cases hs.symm.trans hs'
      exact absurd ((hreply rfl).symm.trans h.server) (hmute rfl)
  · exact h.congr (hp.other hpq) hp.current id

/-- Only a reply or the death of the server wakes the process. -/
theorem awake (h : Pendent server f s p uid) (hcalls : Calls f s) {d : Slot}
    (hd : (s.procs d).Alive) (hpid : (s.procs d).pid = server)
    (hstate : (s.procs q).state = .waiting) (hwhy : (s.procs q).alarmSet = true ∨
      ∃ e, f = .notify e ∧ awaits (s.procs q) (s.procs e).pid = true) :
    Pendent server f (s.awake q) p uid := by
  by_cases hpq : p = q
  · subst hpq
    obtain ⟨nest, size, purpose, hs⟩ := h.call
    obtain halarm | ⟨e, hf, haw⟩ := hwhy
    · rw [(hcalls.boxes p).patient nest size purpose hs hstate] at halarm
      cases halarm
    · simp only [awaits, Bool.and_eq_true, decide_eq_true_eq] at haw
      have hz := hcalls.dying e (.inl hf)
      have hde : d = e := hcalls.ids.distinct d e (Ids.alive_used hd) (by rw [hz]; decide)
        (hpid.trans (h.server.symm.trans haw.2))
      rw [hde, Process.Alive, hz] at hd
      obtain hd | hd := hd <;> cases hd
  · exact h.congr (Function.update_of_ne hpq _ _) rfl id

theorem died (h : Pendent server .idle s p uid) : Pendent server (.notify q) (s.died q) p uid := by
  by_cases hpq : p = q
  · subst hpq
    have hproc : (s.died p).procs p = { s.procs p with state := .zombie } :=
      Function.update_self _ _ _
    refine ⟨?_, ?_, ?_, ?_, ?_⟩ <;> rw [hproc]
    · exact h.uid
    · exact h.server
    · exact h.call
    · exact h.flag
    · exact .inr ⟨rfl, .inr (.inl rfl)⟩
  · refine h.congr (Function.update_of_ne hpq _ _) rfl fun hf => ?_
    obtain hf | ⟨k, hf⟩ := hf <;> cases hf

theorem spawned (h : Pendent server .idle s p uid) {rest : List Slot} {uid' owner : Nat}
    (hstack : s.me.stack = none) (hne : p ≠ q) :
    Pendent server .idle (s.spawned q rest uid' owner) p uid := by
  have hpc : p ≠ s.current := by
    rintro rfl
    exact h.stack_ne hstack
  have hproc : (s.spawned q rest uid' owner).procs p = s.procs p := by
    rw [spawned_other s hne, if_neg hpc]
  refine ⟨?_, ?_, ?_, ?_, ?_⟩ <;> rw [hproc]
  · exact h.uid
  · exact h.server
  · exact h.call
  · exact h.flag
  · obtain hw | ⟨-, hc | hf | ⟨k, hf⟩⟩ := h.state
    · exact .inl hw
    · exact absurd hc hpc
    · cases hf
    · cases hf

/-- When the processor changes hands, the running process is released if it is dead. -/
theorem switched (h : Pendent server .idle s p uid) {next : Slot} {rest : List Slot}
    (hused : ((s.switched next rest).procs p).state ≠ .free) :
    Pendent server .idle (s.switched next rest) p uid := by
  obtain hproc | ⟨-, -, hproc⟩ := s.parked_procs rest p
  · have hproc' : (s.switched next rest).procs p = s.procs p := hproc
    refine ⟨?_, ?_, ?_, ?_, ?_⟩ <;> rw [hproc']
    · exact h.uid
    · exact h.server
    · exact h.call
    · exact h.flag
    · obtain hw | ⟨hz, hc | hf | ⟨k, hf⟩⟩ := h.state
      · exact .inl hw
      · subst hc
        have hfree : (s.parked rest).procs s.current = s.me.released := by
          have hz' : s.me.state = .zombie := hz
          unfold Kernel.parked
          rw [hz']
          exact Function.update_self _ _ _
        rw [show (s.switched next rest).procs s.current = _ from hfree] at hused
        exact absurd rfl hused
      · cases hf
      · cases hf
  · rw [show (s.switched next rest).procs p = _ from hproc] at hused
    exact absurd rfl hused

end Pendent

namespace Attended

variable {w : Promise} {server n : Nat} {f f' : Phase} {s s' : Kernel}

theorem kept (h : Attended server n f s) (hk : Kept s s')
    (hevents : ∃ new, s'.events = s.events ++ new ∧ ∀ e ∈ new, e.opens = false)
    (hpendent : ∀ d, (s.procs d).Alive → (s.procs d).pid = server → ∀ p uid,
      (s'.procs p).state ≠ .free → Pendent server f s p uid → Pendent server f' s' p uid) :
    Attended server n f' s' := by
  obtain ⟨new, he, hnew⟩ := hevents
  have hclients : clients server s'.events = clients server s.events := by
    rw [he, clients_append server hnew]
  refine ⟨fun hgen => ?_, fun d hd hpid => ?_⟩
  · rw [hk.pidGen] at hgen
    rw [hclients]
    exact h.unborn hgen
  · rw [hk.alive] at hd
    rw [hk.pid] at hpid
    have hrequests : requestsTo s'.events d = requestsTo s.events d := by
      rw [he, requestsTo_append d hnew]
    obtain ⟨haligned, hbounded, hpending⟩ := h.serving d hd hpid
    refine ⟨?_, ?_, ?_⟩
    · rw [hclients, hrequests]
      exact haligned
    · rw [hrequests, hk.pidGen]
      exact hbounded
    · intro k msg p hn hmsg hused hsrc
      rw [hrequests] at hmsg
      rw [hk.pid] at hsrc
      rw [hclients]
      obtain ⟨hp, hlast⟩ := hpending k msg p hn hmsg (hk.used p hused) hsrc
      exact ⟨hpendent d hd hpid p msg.uid hused hp, hlast⟩

theorem spawned (h : Attended server n .idle s) {q : Slot} {rest : List Slot}
    {uid owner : Nat} (hstack : s.me.stack = none)
    (hgen : s.pidGen < 2 ^ 32) : Attended server n .idle (s.spawned q rest uid owner) := by
  have hself := spawned_self s (q := q) rest uid owner hgen
  have hother (p : Slot) (hp : p ≠ q) := spawned_same s rest uid owner hp
  have hclients := clients_spawned s server (q := q) rest uid owner
  refine ⟨fun hlt => ?_, fun d hd hpid => ?_⟩
  · rw [hclients]
    exact h.unborn (Nat.le_of_succ_le hlt)
  · by_cases hdq : d = q
    · subst hdq
      have hnone : requestsTo (s.spawned d rest uid owner).events d = [] := by
        change requestsTo (s.events ++ [.born d _ uid owner]) d = []
        rw [requestsTo, mailOf_append]
        simp [Mail.note]
      rw [hself] at hpid
      refine ⟨?_, ?_, ?_⟩
      · rw [hclients, hnone, h.unborn hpid.le]
        rfl
      · rw [hnone]
        simp
      · intro k msg p _ hmsg
        rw [hnone] at hmsg
        cases hmsg
    · have hrequests := requestsTo_spawned s rest uid owner hdq
      rw [Process.Alive, (hother d hdq).2] at hd
      rw [(hother d hdq).1] at hpid
      obtain ⟨haligned, hbounded, hpending⟩ := h.serving d hd hpid
      refine ⟨?_, ?_, ?_⟩
      · rw [hclients, hrequests]
        exact haligned
      · rw [hrequests]
        exact fun msg hmsg => Nat.lt_succ_of_lt (hbounded msg hmsg)
      · intro k msg p hn hmsg hused hsrc
        rw [hrequests] at hmsg
        have hpq : p ≠ q := by
          rintro rfl
          rw [hself] at hsrc
          have hlt := hbounded msg (List.mem_of_getElem? hmsg)
          exact absurd hsrc (Nat.ne_of_gt hlt)
        rw [(hother p hpq).2] at hused
        rw [(hother p hpq).1] at hsrc
        rw [hclients]
        obtain ⟨hp, hlast⟩ := hpending k msg p hn hmsg hused hsrc
        exact ⟨hp.spawned hstack hpq, hlast⟩

theorem died (h : Attended server n .idle s) {q : Slot} (hq : (s.procs q).Alive) :
    Attended server n (.notify q) (s.died q) := by
  have hself : (s.died q).procs q = { s.procs q with state := .zombie } :=
    Function.update_self _ _ _
  have hother (p : Slot) (hp : p ≠ q) : (s.died q).procs p = s.procs p :=
    Function.update_of_ne hp _ _
  have hnew : ∀ e ∈ [Event.died q (s.procs q).pid (s.procs q).uid], e.opens = false := by
    simp [Event.opens]
  have hclients : clients server (s.died q).events = clients server s.events :=
    clients_append server hnew
  refine ⟨fun hgen => ?_, fun d hd hpid => ?_⟩
  · rw [hclients]
    exact h.unborn hgen
  · have hdq : d ≠ q := by
      rintro rfl
      rw [hself] at hd
      obtain hd | hd := hd <;> cases hd
    have hrequests : requestsTo (s.died q).events d = requestsTo s.events d :=
      requestsTo_append d hnew
    rw [hother d hdq] at hd hpid
    obtain ⟨haligned, hbounded, hpending⟩ := h.serving d hd hpid
    refine ⟨?_, ?_, ?_⟩
    · rw [hclients, hrequests]
      exact haligned
    · rw [hrequests]
      exact hbounded
    · intro k msg p hn hmsg hused hsrc
      rw [hrequests] at hmsg
      rw [hclients]
      have hpq : (s.procs p).state ≠ .free ∧ (s.procs p).pid = msg.src := by
        by_cases hpq : p = q
        · subst hpq
          rw [hself] at hsrc
          exact ⟨Ids.alive_used hq, hsrc⟩
        · rw [hother p hpq] at hused hsrc
          exact ⟨hused, hsrc⟩
      obtain ⟨hp, hlast⟩ := hpending k msg p hn hmsg hpq.1 hpq.2
      exact ⟨hp.died, hlast⟩

theorem called (h : Attended server n f s) (hc : Consistent s) (hids : Ids s) {t : Kernel}
    {q : Slot} {contents : List Byte} {server' size : Nat} {purpose : Purpose}
    (hstate : s.me.state = .runnable)
    (hposted : Posted s q .request ⟨s.me.pid, s.me.uid, contents⟩ t)
    (hpid : (s.procs q).pid = server') (hself : q ≠ s.current)
    (hk : Kept s (t.called server' size purpose)) (hphase : f.Neutral) :
    Attended server n .idle (t.called server' size purpose) := by
  have hprocs := t.called_procs server' size purpose
  have hme := hposted.me hself
  have hcurrent := hposted.current
  have hqused := Ids.alive_used hposted.alive
  have hclients := hposted.called_clients server' size purpose server
  have hrequests := hposted.called_requests server' size purpose
  -- those who waited wait still
  have hpendent {p : Slot} {uid : Nat} (hp : Pendent server f s p uid) :
      Pendent server .idle (t.called server' size purpose) p uid := by
    have hpc : p ≠ t.current := by
      rintro rfl
      rw [hcurrent] at hp
      exact hp.not_runnable hstate
    have ht : Pendent server f t p uid := hp.posted hc hposted (by simp)
    refine ht.update hprocs hpc rfl fun hf => ?_
    obtain hf | ⟨k, hf⟩ := hf
    · exact absurd hf (hphase p 0).1
    · exact absurd hf (hphase p k).2
  refine ⟨fun hgen => ?_, fun d hd hdpid => ?_⟩
  · rw [hk.pidGen] at hgen
    have hne : server' ≠ server := by
      rintro rfl
      exact absurd (hids.bounded q hqused) (by rw [hpid]; exact Nat.not_lt.mpr hgen)
    rw [hclients, if_neg hne, List.append_nil]
    exact h.unborn hgen
  · rw [hk.alive] at hd
    rw [hk.pid] at hdpid
    obtain ⟨haligned, hbounded, hpending⟩ := h.serving d hd hdpid
    have hqd : q = d ↔ server' = server := by
      constructor
      · rintro rfl
        exact hpid.symm.trans hdpid
      · rintro rfl
        exact hids.distinct q d hqused (Ids.alive_used hd) (hpid.trans hdpid.symm)
    have hrequests' : requestsTo (t.called server' size purpose).events d =
        requestsTo s.events d ++
          if server' = server then [⟨s.me.pid, s.me.uid, contents⟩] else [] := by
      rw [hrequests d]
      simp only [hqd]
    -- a request that was there before
    have hold (k : Nat) (msg : Message) (p : Slot) (hn : n ≤ k)
        (hmsg : (requestsTo s.events d)[k]? = some msg)
        (hused : ((t.called server' size purpose).procs p).state ≠ .free)
        (hsrc : ((t.called server' size purpose).procs p).pid = msg.src) :
        Pendent server .idle (t.called server' size purpose) p msg.uid ∧
          LastAt (clients server (t.called server' size purpose).events) p k := by
      rw [hk.pid] at hsrc
      obtain ⟨hp, hlast⟩ := hpending k msg p hn hmsg (hk.used p hused) hsrc
      refine ⟨hpendent hp, ?_⟩
      rw [hclients]
      split
      · refine hlast.concat ?_
        rintro rfl
        exact hp.not_runnable hstate
      · rwa [List.append_nil]
    by_cases hs : server' = server
    · rw [if_pos hs] at hclients hrequests'
      refine ⟨?_, ?_, ?_⟩
      · rw [hclients, hrequests', List.length_append, List.length_append, haligned]
        rfl
      · intro msg hmsg
        rw [hrequests'] at hmsg
        rw [hk.pidGen]
        obtain hmsg | hmsg := List.mem_append.mp hmsg
        · exact hbounded msg hmsg
        · rw [List.mem_singleton.mp hmsg]
          exact hids.bounded s.current hc.current_used
      · intro k msg p hn hmsg hused hsrc
        rw [hrequests'] at hmsg
        obtain hlt | hge := Nat.lt_or_ge k (requestsTo s.events d).length
        · rw [List.getElem?_append_left hlt] at hmsg
          exact hold k msg p hn hmsg hused hsrc
        · rw [List.getElem?_append_right hge, List.getElem?_singleton] at hmsg
          split at hmsg
          · rename_i hzero
            cases hmsg
            rw [hk.pid] at hsrc
            have hp : p = s.current :=
              hids.distinct p s.current (hk.used p hused) hc.current_used hsrc
            have hk' : k = (clients server s.events).length := by
              rw [haligned]
              omega
            subst hp
            rw [hclients, hk']
            refine ⟨?_, LastAt.last _ _⟩
            have hproc := congrFun hprocs t.current
            rw [Function.update_self, hme, hcurrent] at hproc
            refine ⟨?_, ?_, ?_, ?_, ?_⟩ <;> rw [hproc]
            · rfl
            · exact hs
            · exact ⟨0, size, purpose, rfl⟩
            · simp [Process.blocked, Process.setMbox]
            · exact .inl rfl
          · cases hmsg
    · rw [if_neg hs, List.append_nil] at hrequests'
      have hclients' := hclients
      rw [if_neg hs, List.append_nil] at hclients'
      refine ⟨?_, ?_, ?_⟩
      · rw [hclients', hrequests']
        exact haligned
      · rw [hrequests', hk.pidGen]
        exact hbounded
      · intro k msg p hn hmsg
        rw [hrequests'] at hmsg
        exact hold k msg p hn hmsg

end Attended

theorem accepted_opens {p : Slot} {m : MsgType} {msg : Message} (hm : m ≠ .request) :
    (Event.accepted p m msg).opens = false := by
  cases m with
  | request => exact absurd rfl hm
  | reply | event => rfl

theorem receivedBy_opens {p : Slot} {m : MsgType} {size : Nat} {msg : Option Message}
    {e : Event} (h : e ∈ Message.receivedBy p m size msg) : e.opens = false := by
  cases msg with
  | none => cases h
  | some msg =>
    rw [List.mem_singleton.mp h]
    rfl

theorem answered_opens {p : Slot} {purpose : Purpose} {msg : Option Message} {e : Event}
    (h : e ∈ purpose.answered p msg) : e.opens = false := by
  cases purpose with
  | recv => cases h
  | rpc | frame =>
    rw [List.mem_singleton.mp h]
    rfl

/-- All moves keep the requests attended, as long as nobody replies in the name of the server. -/
theorem Move.attended {w : Promise} {server n : Nat} {f f' : Phase} {s s' : Kernel}
    (hunwrapped : w.unwrapped) (hrequest : w.requestByRpc) (hmute : w.mute server)
    (hc : Consistent s) (hcalls : Calls f s) (hm : Move w f s f' s')
    (h : Attended server n f s) : Attended server n f' s' := by
  obtain ⟨p, parent, rest, uid, owner, rfl, rfl, hs, rfl⟩ | ⟨p, rfl, rfl, hp, rfl⟩ | hk := hm.kept
  · exact h.spawned hs.stack (hs.ids hunwrapped)
  · exact h.died hp
  have hnil : ∃ new, s.events = s.events ++ new ∧ ∀ e ∈ new, e.opens = false :=
    ⟨[], (List.append_nil _).symm, by simp⟩
  have hstill (hevents : ∃ new, s'.events = s.events ++ new ∧ ∀ e ∈ new, e.opens = false)
      (hpendent : ∀ p uid, (s'.procs p).state ≠ .free → Pendent server f s p uid →
        Pendent server f' s' p uid) : Attended server n f' s' :=
    h.kept hk hevents fun _ _ _ => hpendent
  -- the running process is changed, which does not wait
  have hrunning {proc : Process} (hprocs : s'.procs = Function.update s.procs s.current proc)
      (hcurrent : s'.current = s.current)
      (hevents : ∃ new, s'.events = s.events ++ new ∧ ∀ e ∈ new, e.opens = false)
      (hphase : f.Neutral) (hbusy : s.me.state = .runnable ∨ s.me.stack = none) :
      Attended server n f' s' := by
    refine hstill hevents fun p uid _ hp => ?_
    have hpc : p ≠ s.current := by
      rintro rfl
      obtain hb | hb := hbusy
      · exact hp.not_runnable hb
      · exact hp.stack_ne hb
    refine hp.update hprocs hpc hcurrent fun hf => ?_
    obtain hf | ⟨k, hf⟩ := hf
    · exact absurd hf (hphase p 0).1
    · exact absurd hf (hphase p k).2
  have hsame (hprocs : s'.procs = s.procs) (hcurrent : s'.current = s.current)
      (hevents : ∃ new, s'.events = s.events ++ new ∧ ∀ e ∈ new, e.opens = false)
      (hphase : ∀ p, f = .notify p ∨ (∃ k, f = .release p k) →
        f' = .notify p ∨ ∃ k, f' = .release p k) : Attended server n f' s' :=
    hstill hevents fun p uid _ hp => hp.congr (by rw [hprocs]) hcurrent (hphase p)
  have hnone {g g' : Phase} (hg : g.Neutral) (p : Slot)
      (hp : g = .notify p ∨ ∃ k, g = .release p k) : g' = .notify p ∨ ∃ k, g' = .release p k := by
    obtain hp | ⟨k, hp⟩ := hp
    · exact absurd hp (hg p 0).1
    · exact absurd hp (hg p k).2
  cases hm with
  | spawn => exact absurd hk.pidGen (Nat.succ_ne_self _)
  | @die _ p halive =>
    exact absurd ((hk.alive p).mpr halive) (s.died_not_alive p)
  | @post _ _ _ q m msg hposted hallows =>
    have hm : m ≠ .request := fun hm => hallows.2 hm hrequest
    refine hstill ⟨_, hposted.events, fun e he => ?_⟩ fun p uid _ hp => ?_
    · rw [List.mem_singleton.mp he]
      exact accepted_opens hm
    · refine hp.posted hc hposted fun hreply hsrc => ?_
      exact hallows.1 hreply (hsrc ▸ hmute)
  | wake hstate hwhy =>
    refine h.kept hk hnil fun d hd hpid p uid _ hp => ?_
    exact hp.awake hcalls hd hpid hstate hwhy
  | @swept p =>
    refine hsame rfl rfl hnil fun q hq => ?_
    obtain hq | ⟨k, hq⟩ := hq <;> cases hq
    exact .inr ⟨0, rfl⟩
  | @keepPage _ p i =>
    refine hsame rfl rfl hnil fun q hq => ?_
    obtain hq | ⟨k, hq⟩ := hq <;> cases hq
    exact .inr ⟨i + 1, rfl⟩
  | @freePage _ p i =>
    refine hsame rfl rfl hnil fun q hq => ?_
    obtain hq | ⟨k, hq⟩ := hq <;> cases hq
    exact .inr ⟨i + 1, rfl⟩
  | @termed _ p hdone =>
    refine hstill hnil fun q uid _ hp => ⟨hp.uid, hp.server, hp.call, hp.flag, ?_⟩
    obtain hw | ⟨hz, hc' | hf | ⟨k, hf⟩⟩ := hp.state
    · exact .inl hw
    · exact .inr ⟨hz, .inl hc'⟩
    · cases hf
    · cases hf
      obtain hc' | hidle := hdone
      · exact .inr ⟨hz, .inl hc'⟩
      · have hflag := hp.flag
        rw [hidle .reply] at hflag
        cases hflag
  | @release _ p hzombie hcurrent =>
    refine hstill hnil fun q uid hused hp => ?_
    have hqp : q ≠ p := by
      rintro rfl
      rw [show (s.released q).procs q = _ from Function.update_self _ _ _] at hused
      exact hused rfl
    refine hp.update (q := p) rfl hqp rfl fun hf => ?_
    obtain hf | ⟨k, hf⟩ := hf <;> cases hf
    exact absurd rfl hqp
  | @reap _ p rest hqueue hzombie =>
    refine hstill hnil fun q uid hused hp => ?_
    have hqp : q ≠ p := by
      rintro rfl
      rw [show (({ s with runnable := rest } : Kernel).released q).procs q = _ from
        Function.update_self _ _ _] at hused
      exact hused rfl
    exact hp.update (q := p) rfl hqp rfl fun hf => hf
  | @switch _ next rest =>
    refine hstill ⟨[], ?_, by simp⟩ fun p uid hused hp => hp.switched hused
    rw [List.append_nil]
    exact s.parked_events rest
  | enter hstack => exact hrunning rfl rfl hnil Phase.neutral_idle (.inr hstack)
  | @nest _ stack k hstack =>
    refine hstill hnil fun p uid _ hp => ?_
    by_cases hpc : p = s.current
    · subst hpc
      have hproc : (s.setStack s.current (some ⟨k, stack.call⟩)).procs s.current =
          { s.me with stack := some ⟨k, stack.call⟩ } := Function.update_self _ _ _
      refine ⟨?_, ?_, ?_, ?_, ?_⟩ <;> rw [hproc]
      · exact hp.uid
      · exact hp.server
      · obtain ⟨nest, size, purpose, hs⟩ := hp.call
        cases hs.symm.trans hstack
        exact ⟨k, size, purpose, rfl⟩
      · exact hp.flag
      · exact hp.state
    · exact hp.update rfl hpc rfl fun hf => hf
  | leave _ _ hstate => exact hrunning rfl rfl hnil Phase.neutral_idle (.inl hstate)
  | resume _ hstate =>
    refine hrunning rfl rfl ⟨_, List.append_assoc _ _ _, fun e he => ?_⟩ Phase.neutral_idle
      (.inl hstate)
    obtain he | he := List.mem_append.mp he
    · exact receivedBy_opens he
    · exact answered_opens he
  | take _ hstate =>
    exact hrunning rfl rfl ⟨_, rfl, fun e he => receivedBy_opens he⟩ Phase.neutral_idle (.inl hstate)
  | @call _ t q contents server' size purpose hstack hstate hposted hpid hself =>
    exact h.called hc hcalls.ids hstate hposted hpid hself hk purpose.neutral_phase
  | block _ hstate => exact hrunning rfl rfl hnil Phase.neutral_idle (.inl hstate)
  | exec _ hstate => exact hrunning rfl rfl hnil Phase.neutral_idle (.inl hstate)
  | takeFrame _ hstate => exact hrunning rfl rfl hnil Phase.neutral_idle (.inl hstate)
  | fill | poke | peek =>
    refine hsame rfl rfl ⟨_, rfl, by simp [Event.opens]⟩ (hnone ?_)
    first | exact Phase.neutral_taken _ | exact Phase.neutral_idle
  | map hstack hstate hlow htop hpage hindex =>
    refine hsame rfl rfl hnil (hnone ?_)
    obtain rfl | ⟨rfl, -⟩ := hindex
    · exact Phase.neutral_filled _
    · exact Phase.neutral_idle
  | advance => exact hsame rfl rfl hnil fun p hp => hp
  | shutdown | sync => exact hsame rfl rfl hnil (hnone Phase.neutral_idle)

end Egos.Grass
