import Egos.Grass.Serving

/-!
# The answer to a call

The requests that reach a server are numbered by the calls that sent them, and the server
takes them in this order. If its replies go out in the same order, one for each request, then
the reply that a client finds in its mailbox is the one for its last call.
-/
namespace Egos.Grass

open Egos.Lib Egos.Earth

set_option autoImplicit false

/-- A reply of a server: the process it is for, and its contents. -/
abbrev Reply := Nat × List Byte

/-- The `k`-th call to the server is one of `p`, which sent `msg`. -/
def CallAt (server k : Nat) (p : Slot) (msg : Message) (events : List Event) : Prop :=
  ∃ past q later, events = past ++ [.accepted q .request msg, .requested p server] ++ later ∧
    (clients server past).length = k

/-- It is the last call of `p` altogether. -/
def LastCall (server k : Nat) (p : Slot) (msg : Message) (events : List Event) : Prop :=
  ∃ past q later, events = past ++ [.accepted q .request msg, .requested p server] ++ later ∧
    (clients server past).length = k ∧ ∀ e ∈ later, e.begins p = false

/-- The slot of the server, and the requests that the server has received. -/
structure Desk where
  slot : Option Slot
  taken : List Message

def Desk.note (server : Nat) (desk : Desk) : Event → Desk
  | .born p pid _ _ =>
    if pid = server then ⟨some p, []⟩
    else if desk.slot = some p then { desk with slot := none }
    else desk
  | .received p .request _ msg =>
    if desk.slot = some p then { desk with taken := desk.taken ++ [msg] } else desk
  | _ => desk

/-- The history of the process with the id `server`. -/
def deskOf (server : Nat) (events : List Event) : Desk :=
  events.foldl (Desk.note server) ⟨none, []⟩

theorem deskOf_append (server : Nat) (events new : List Event) :
    deskOf server (events ++ new) = new.foldl (Desk.note server) (deskOf server events) :=
  List.foldl_append

theorem LastAt.append {α : Type} {l l' : List α} {a : α} {k : Nat} (h : LastAt l a k)
    (hnew : a ∉ l') : LastAt (l ++ l') a k := by
  induction l' using List.reverseRecOn with
  | nil => rwa [List.append_nil]
  | append_singleton l' b ih =>
    rw [← List.append_assoc]
    refine (ih fun hl => hnew (by simp [hl])).concat ?_
    rintro rfl
    exact hnew (by simp)

section

variable {server k : Nat} {p : Slot} {msg : Message} {events new : List Event}

theorem clients_split (past : List Event) (q : Slot) (later : List Event) :
    clients server (past ++ [.accepted q .request msg, .requested p server] ++ later) =
      clients server past ++ [p] ++ clients server later := by
  have hone : [Event.accepted q .request msg, .requested p server].filterMap (Event.client server) =
      [p] := by
    rw [List.filterMap_cons_none rfl, List.filterMap_cons_some
      (show Event.client server (.requested p server) = some p from if_pos rfl), List.filterMap_nil]
  rw [clients, List.filterMap_append, List.filterMap_append, hone, clients, clients]

theorem LastCall.callAt (h : LastCall server k p msg events) : CallAt server k p msg events := by
  obtain ⟨past, q, later, he, hk, -⟩ := h
  exact ⟨past, q, later, he, hk⟩

theorem CallAt.append (h : CallAt server k p msg events) (new : List Event) :
    CallAt server k p msg (events ++ new) := by
  obtain ⟨past, q, later, rfl, hk⟩ := h
  exact ⟨past, q, later ++ new, List.append_assoc _ _ _, hk⟩

theorem CallAt.lt (h : CallAt server k p msg events) : k < (clients server events).length := by
  obtain ⟨past, q, later, rfl, rfl⟩ := h
  rw [clients_split]
  simp

theorem CallAt.of_concat {e : Event} (h : CallAt server k p msg (events ++ [e])) :
    CallAt server k p msg events ∨ e = .requested p server ∧
      ∃ past q, events = past ++ [.accepted q .request msg] ∧ (clients server past).length = k := by
  obtain ⟨past, q, later, he, hk⟩ := h
  cases later using List.reverseRecOn with
  | nil =>
    have he' : events ++ [e] = (past ++ [.accepted q .request msg]) ++ [.requested p server] := by
      simpa using he
    obtain ⟨hinit, hlast⟩ := List.append_inj' he' rfl
    exact .inr ⟨List.singleton_inj.mp hlast, past, q, hinit, hk⟩
  | append_singleton later e' =>
    rw [← List.append_assoc] at he
    obtain ⟨hinit, -⟩ := List.append_inj' he rfl
    exact .inl ⟨past, q, later, hinit, hk⟩

/-- An event that opens nothing is not a call. -/
theorem CallAt.of_append (h : CallAt server k p msg (events ++ new))
    (hnew : ∀ e ∈ new, e.opens = false) : CallAt server k p msg events := by
  induction new using List.reverseRecOn with
  | nil => rwa [List.append_nil] at h
  | append_singleton new e ih =>
    rw [← List.append_assoc] at h
    obtain h | ⟨rfl, -⟩ := h.of_concat
    · exact ih h fun e' he' => hnew e' (by simp [he'])
    · cases hnew (.requested p server) (by simp)

theorem CallAt.of_call {q p' : Slot} {server' : Nat} {msg' : Message}
    (h : CallAt server k p msg (events ++ [.accepted q .request msg'] ++ [.requested p' server'])) :
    CallAt server k p msg events ∨
      server' = server ∧ p' = p ∧ msg' = msg ∧ k = (clients server events).length := by
  obtain h | ⟨he, past, q', hinit, rfl⟩ := h.of_concat
  · obtain h | ⟨he, -⟩ := h.of_concat
    · exact .inl h
    · cases he
  · cases he
    obtain ⟨rfl, hlast⟩ := List.append_inj' hinit rfl
    cases hlast
    exact .inr ⟨rfl, rfl, rfl, rfl⟩

/-- The last call of a process is its last one to the server. -/
theorem LastCall.lastAt (h : LastCall server k p msg events) :
    LastAt (clients server events) p k := by
  obtain ⟨past, q, later, rfl, rfl, hlater⟩ := h
  have hnone : p ∉ clients server later := by
    rw [clients, List.mem_filterMap]
    rintro ⟨e, he, hclient⟩
    have hb := hlater e he
    cases e with
    | requested p' server' =>
      simp only [Event.client, Option.ite_none_right_eq_some, Option.some.injEq] at hclient
      simp [Event.begins, hclient.2] at hb
    | _ => cases hclient
  rw [clients_split]
  exact (LastAt.last _ _).append hnone

end

theorem receivedBy_slot {p q : Slot} {m m' : MsgType} {size size' : Nat} {msg : Message}
    {out : Option Message} (h : .received p m' size' msg ∈ Message.receivedBy q m size out) :
    p = q := by
  cases out with
  | none => cases h
  | some out =>
    cases List.mem_singleton.mp h
    rfl

theorem answered_not_received {p q : Slot} {m : MsgType} {size : Nat} {msg : Message}
    {purpose : Purpose} {out : Option Message} :
    .received p m size msg ∉ purpose.answered q out := by
  cases purpose with
  | recv => exact List.not_mem_nil
  | rpc | frame =>
    intro h
    cases List.mem_singleton.mp h

/-- Nobody is born, and nobody calls. -/
structure Calm (s s' : Kernel) (new : List Event) : Prop where
  events : s'.events = s.events ++ new
  opens : ∀ e ∈ new, e.opens = false
  pid : ∀ p, (s'.procs p).pid = (s.procs p).pid
  alive : ∀ p, (s'.procs p).Alive → (s.procs p).Alive
  pidGen : s'.pidGen = s.pidGen
  received : ∀ p m size msg, .received p m size msg ∈ new → (s'.procs p).Alive

/-- The running process has sent its request. -/
structure Calling (s : Kernel) (q : Slot) (contents : List Byte) (server : Nat) (t : Kernel) :
    Prop where
  posted : Posted s q .request ⟨s.me.pid, s.me.uid, contents⟩ t
  pid : (s.procs q).pid = server
  self : q ≠ s.current
  state : s.me.state = .runnable
  empty : (s.me.mboxes .reply).messages = []

theorem Move.opening {w : Promise} {f f' : Phase} {s s' : Kernel} (hrequest : w.requestByRpc)
    (hm : Move w f s f' s') :
    (∃ p parent rest uid owner, f = .idle ∧ f' = .idle ∧ Spawns w s p parent rest uid owner ∧
      s' = s.spawned p rest uid owner) ∨
    (∃ q contents server t size purpose, Calling s q contents server t ∧
      s' = t.called server size purpose ∧ Kept s s') ∨ ∃ new, Calm s s' new := by
  obtain hspawn | ⟨p, rfl, rfl, hp, rfl⟩ | hk := hm.kept
  · exact .inl hspawn
  · refine .inr (.inr ⟨_, rfl, by simp [Event.opens], fun q => ?_, fun q hq => ?_, rfl, by simp⟩)
    · rw [show (s.died p).procs q = if q = p then { s.procs p with state := .zombie } else s.procs q
        from s.setProc_procs p q _]
      split
      · rename_i hq
        rw [hq]
      · rfl
    · have hqp : q ≠ p := by
        rintro rfl
        exact s.died_not_alive q hq
      rwa [show (s.died p).procs q = s.procs q from Function.update_of_ne hqp _ _] at hq
  have hcalm {new : List Event} (hevents : s'.events = s.events ++ new)
      (hopens : ∀ e ∈ new, e.opens = false)
      (hreceived : ∀ p m size msg, .received p m size msg ∈ new → (s'.procs p).Alive) :
      ∃ new, Calm s s' new :=
    ⟨new, hevents, hopens, hk.pid, fun p => (hk.alive p).mp, hk.pidGen, hreceived⟩
  have hnil (hevents : s'.events = s.events) : ∃ new, Calm s s' new :=
    hcalm (hevents.trans (List.append_nil _).symm) (by simp) (by simp)
  cases hm with
  | spawn => exact absurd hk.pidGen (Nat.succ_ne_self _)
  | @die _ p halive => exact absurd ((hk.alive p).mpr halive) (s.died_not_alive p)
  | post hposted hallows =>
    refine .inr (.inr (hcalm hposted.events (fun e he => ?_) (by simp)))
    rw [List.mem_singleton.mp he]
    exact accepted_opens fun hm => hallows.2 hm hrequest
  | @call _ t q contents server size purpose hstack hstate hposted hpid hself hempty =>
    exact .inr (.inl ⟨q, contents, server, t, size, purpose,
      ⟨hposted, hpid, hself, hstate, hempty⟩, rfl, hk⟩)
  | @switch _ next rest => exact .inr (.inr (hnil (s.parked_events rest)))
  | @resume _ m size purpose hstack hstate =>
    refine .inr (.inr (hcalm (List.append_assoc _ _ _) (fun e he => ?_) fun p m' size' msg he => ?_))
    · obtain he | he := List.mem_append.mp he
      · exact receivedBy_opens he
      · exact answered_opens he
    · obtain he | he := List.mem_append.mp he
      · rw [receivedBy_slot he]
        exact (hk.alive s.current).mpr (.inl hstate)
      · exact absurd he answered_not_received
  | @take _ m size hstack hstate =>
    refine .inr (.inr (hcalm rfl (fun e he => receivedBy_opens he) fun p m' size' msg he => ?_))
    rw [receivedBy_slot he]
    exact (hk.alive s.current).mpr (.inl hstate)
  | fill | poke | peek => exact .inr (.inr (hcalm rfl (by simp [Event.opens]) (by simp)))
  | wake | swept | keepPage | freePage | termed | release | reap | enter | nest | leave | block
  | shutdown | exec | takeFrame | map | advance | sync => exact .inr (.inr (hnil rfl))

/-- The calls to a server and the requests that it has received, in the same order. -/
structure Ordered (server : Nat) (s : Kernel) : Prop where
  unborn : s.pidGen ≤ server → deskOf server s.events = ⟨none, []⟩
  slot : ∀ p, (deskOf server s.events).slot = some p → (s.procs p).pid = server
  staffed : ∀ d, (s.procs d).Alive → (s.procs d).pid = server →
    (deskOf server s.events).slot = some d ∧
      (mailOf s.events d .request).received.map Prod.snd = (deskOf server s.events).taken
  paired : ∀ d, (s.procs d).Alive → (s.procs d).pid = server → ∀ k p msg,
    CallAt server k p msg s.events → (requestsTo s.events d)[k]? = some msg
  few : (deskOf server s.events).taken.length ≤ (clients server s.events).length
  known : ∀ k p msg m, CallAt server k p msg s.events →
    (deskOf server s.events).taken[k]? = some m → ∃ size, m = msg.cut size
  bounded : ∀ msg ∈ (deskOf server s.events).taken, msg.src < s.pidGen

/-- The desk and the mailbox of the server hold the same requests. -/
theorem Desk.note_mail {server : Nat} {desk : Desk} {d : Slot} {mail : Mail} {e : Event}
    (ho : e.opens = false) (hslot : desk.slot = some d)
    (htaken : mail.received.map Prod.snd = desk.taken) :
    (desk.note server e).slot = some d ∧
      (mail.note d .request e).received.map Prod.snd = (desk.note server e).taken := by
  cases e with
  | born => cases ho
  | received q m size msg =>
    cases m with
    | request =>
      by_cases hq : q = d
      · subst hq
        simp [Desk.note, Mail.note, hslot, htaken]
      · simp [Desk.note, Mail.note, hslot, htaken, hq, Ne.symm hq]
    | reply | event => simp [Desk.note, Mail.note, hslot, htaken]
  | accepted q m msg =>
    refine ⟨hslot, ?_⟩
    rw [Mail.note]
    split <;> exact htaken
  | died | requested | answered | filled | stored | loaded => exact ⟨hslot, htaken⟩

theorem Desk.foldl_mail {server : Nat} {desk : Desk} {d : Slot} {mail : Mail} {new : List Event}
    (ho : ∀ e ∈ new, e.opens = false) (hslot : desk.slot = some d)
    (htaken : mail.received.map Prod.snd = desk.taken) :
    (new.foldl (Desk.note server) desk).slot = some d ∧
      (new.foldl (Mail.note d .request) mail).received.map Prod.snd =
        (new.foldl (Desk.note server) desk).taken := by
  induction new generalizing desk mail with
  | nil => exact ⟨hslot, htaken⟩
  | cons e new ih =>
    obtain ⟨hslot', htaken'⟩ := @Desk.note_mail server desk d mail e (ho e List.mem_cons_self) hslot
      htaken
    exact ih (fun e' he' => ho e' (List.mem_cons_of_mem e he')) hslot' htaken'

/-- The desk changes only if the process in its slot is born again or receives a request. -/
theorem Desk.foldl_idle {server : Nat} {desk : Desk} {new : List Event}
    (ho : ∀ e ∈ new, e.opens = false)
    (hidle : ∀ p size msg, desk.slot = some p → .received p .request size msg ∉ new) :
    new.foldl (Desk.note server) desk = desk := by
  induction new with
  | nil => rfl
  | cons e new ih =>
    have hnote : desk.note server e = desk := by
      have hopen := ho e List.mem_cons_self
      cases e with
      | born => cases hopen
      | received q m size msg =>
        cases m with
        | request =>
          rw [Desk.note, if_neg]
          intro hslot
          exact hidle q size msg hslot List.mem_cons_self
        | reply | event => rfl
      | accepted | died | requested | answered | filled | stored | loaded => rfl
    rw [List.foldl_cons, hnote]
    exact ih (fun e' he' => ho e' (List.mem_cons_of_mem e he'))
      fun p size msg hslot he => hidle p size msg hslot (List.mem_cons_of_mem e he)

theorem Desk.foldl_slot {server : Nat} {desk : Desk} {new : List Event}
    (ho : ∀ e ∈ new, e.opens = false) : (new.foldl (Desk.note server) desk).slot = desk.slot := by
  induction new generalizing desk with
  | nil => rfl
  | cons e new ih =>
    rw [List.foldl_cons, ih fun e' he' => ho e' (List.mem_cons_of_mem e he')]
    have hopen := ho e List.mem_cons_self
    cases e with
    | born => cases hopen
    | received q m size msg =>
      cases m with
      | request =>
        rw [Desk.note]
        split <;> rfl
      | reply | event => rfl
    | accepted | died | requested | answered | filled | stored | loaded => rfl

theorem Mail.Delivered.received {mail : Mail} {queue : List Message} (h : mail.Delivered queue)
    {k : Nat} {m : Message} (hm : (mail.received.map Prod.snd)[k]? = some m) :
    ∃ msg size, mail.accepted[k]? = some msg ∧ m = msg.cut size := by
  obtain ⟨taken, hacc, hrec, -⟩ := h
  rw [hrec, List.getElem?_zipWith_eq_some] at hm
  obtain ⟨msg, size, hmsg, -, rfl⟩ := hm
  obtain ⟨hk, -⟩ := List.getElem?_eq_some_iff.mp hmsg
  refine ⟨msg, size, ?_, rfl⟩
  rw [hacc, List.getElem?_append_left hk, hmsg]

theorem Posted.called_desk {s t : Kernel} {q : Slot} {msg : Message} (h : Posted s q .request msg t)
    (server server' size : Nat) (purpose : Purpose) :
    deskOf server (t.called server' size purpose).events = deskOf server s.events := by
  rw [h.called_events, deskOf_append, deskOf_append]
  rfl

theorem Desk.foldl_taken {server : Nat} {desk : Desk} {new : List Event}
    (ho : ∀ e ∈ new, e.opens = false) :
    desk.taken <+: (new.foldl (Desk.note server) desk).taken := by
  induction new generalizing desk with
  | nil => exact List.prefix_refl _
  | cons e new ih =>
    refine .trans ?_ (ih fun e' he' => ho e' (List.mem_cons_of_mem e he'))
    have hopen := ho e List.mem_cons_self
    cases e with
    | born => cases hopen
    | received q m size msg =>
      cases m with
      | request =>
        rw [Desk.note]
        split
        · exact List.prefix_append _ _
        · exact List.prefix_refl _
      | reply | event => exact List.prefix_refl _
    | accepted | died | requested | answered | filled | stored | loaded =>
      exact List.prefix_refl _

namespace Ordered

variable {server n : Nat} {s s' : Kernel}

theorem of_live (hmail : Mailboxes s) {f : Phase} {d : Slot} (hd : (s.procs d).Alive)
    (hattends : Attends server n f s d)
    (htaken : (mailOf s.events d .request).received.map Prod.snd = (deskOf server s.events).taken)
    (hpaired : ∀ k p msg, CallAt server k p msg s.events → (requestsTo s.events d)[k]? = some msg) :
    (deskOf server s.events).taken.length ≤ (clients server s.events).length ∧
      (∀ k p msg m, CallAt server k p msg s.events →
        (deskOf server s.events).taken[k]? = some m → ∃ size, m = msg.cut size) ∧
      ∀ msg ∈ (deskOf server s.events).taken, msg.src < s.pidGen := by
  have hdelivered := hmail.delivered d .request hd
  rw [← htaken]
  refine ⟨?_, fun k p msg m hcallAt hm => ?_, fun m hm => ?_⟩
  · obtain ⟨taken, hacc, -, hlen⟩ := hdelivered
    rw [List.length_map, hlen, hattends.aligned, requestsTo, hacc, List.length_append]
    exact Nat.le_add_right _ _
  · obtain ⟨msg', size, hmsg, rfl⟩ := hdelivered.received hm
    have hpair := hpaired k p msg hcallAt
    rw [requestsTo, hmsg] at hpair
    exact ⟨size, by rw [Option.some.inj hpair]⟩
  · obtain ⟨k, hk⟩ := List.mem_iff_getElem?.mp hm
    obtain ⟨msg, size, hmsg, rfl⟩ := hdelivered.received hk
    exact hattends.bounded msg (List.mem_of_getElem? hmsg)

theorem calm (h : Ordered server s) {new : List Event} (hcalm : Calm s s' new)
    (hmail : Mailboxes s') {f : Phase} (hattended : Attended server n f s') :
    Ordered server s' := by
  have hdesk : deskOf server s'.events = new.foldl (Desk.note server) (deskOf server s.events) := by
    rw [hcalm.events, deskOf_append]
  have hstaffed (d : Slot) (hd : (s'.procs d).Alive) (hpid : (s'.procs d).pid = server) :
      (deskOf server s'.events).slot = some d ∧
        (mailOf s'.events d .request).received.map Prod.snd = (deskOf server s'.events).taken := by
    rw [hcalm.pid] at hpid
    obtain ⟨hslot, htaken⟩ := h.staffed d (hcalm.alive d hd) hpid
    rw [hdesk, hcalm.events, mailOf_append]
    exact Desk.foldl_mail hcalm.opens hslot htaken
  have hcallAt {k : Nat} {p : Slot} {msg : Message} (hk : CallAt server k p msg s'.events) :
      CallAt server k p msg s.events := by
    rw [hcalm.events] at hk
    exact hk.of_append hcalm.opens
  have hpaired (d : Slot) (hd : (s'.procs d).Alive) (hpid : (s'.procs d).pid = server) (k : Nat)
      (p : Slot) (msg : Message) (hk : CallAt server k p msg s'.events) :
      (requestsTo s'.events d)[k]? = some msg := by
    rw [hcalm.pid] at hpid
    rw [hcalm.events, requestsTo_append d hcalm.opens]
    exact h.paired d (hcalm.alive d hd) hpid k p msg (hcallAt hk)
  have hlive : (deskOf server s'.events).taken.length ≤ (clients server s'.events).length ∧
      (∀ k p msg m, CallAt server k p msg s'.events →
        (deskOf server s'.events).taken[k]? = some m → ∃ size, m = msg.cut size) ∧
      ∀ msg ∈ (deskOf server s'.events).taken, msg.src < s'.pidGen := by
    by_cases hd : ∃ d, (s'.procs d).Alive ∧ (s'.procs d).pid = server
    · obtain ⟨d, hd, hpid⟩ := hd
      exact of_live hmail hd (hattended.serving d hd hpid) (hstaffed d hd hpid).2 (hpaired d hd hpid)
    -- nobody receives for a dead server
    · have hsame : deskOf server s'.events = deskOf server s.events := by
        rw [hdesk]
        refine Desk.foldl_idle hcalm.opens fun p size msg hslot he => hd ⟨p, ?_, ?_⟩
        · exact hcalm.received p _ size msg he
        · rw [hcalm.pid]
          exact h.slot p hslot
      rw [hsame, hcalm.events, clients_append server hcalm.opens, ← hcalm.events, hcalm.pidGen]
      exact ⟨h.few, fun k p msg m hk => h.known k p msg m (hcallAt hk), h.bounded⟩
  refine ⟨fun hgen => ?_, fun p hslot => ?_, hstaffed, hpaired, hlive.1, hlive.2.1, hlive.2.2⟩
  · rw [hcalm.pidGen] at hgen
    have hnone := h.unborn hgen
    rw [hdesk, Desk.foldl_idle hcalm.opens (by simp [hnone]), hnone]
  · rw [hdesk, Desk.foldl_slot hcalm.opens] at hslot
    rw [hcalm.pid]
    exact h.slot p hslot

theorem spawned (h : Ordered server s) (hids : Ids s) {q : Slot} {rest : List Slot}
    {uid owner : Nat} (hgen : s.pidGen < 2 ^ 32)
    (hunborn : s.pidGen ≤ server → clients server s.events = []) :
    Ordered server (s.spawned q rest uid owner) := by
  have hself := spawned_self s (q := q) rest uid owner hgen
  have hother (p : Slot) (hp : p ≠ q) := spawned_same s rest uid owner hp
  have hclients := clients_spawned s server (q := q) rest uid owner
  have hevents : (s.spawned q rest uid owner).events =
      s.events ++ [.born q s.pidGen uid owner] := by
    rw [← Nat.mod_eq_of_lt hgen]
    rfl
  have hdesk : deskOf server (s.spawned q rest uid owner).events =
      (deskOf server s.events).note server (.born q s.pidGen uid owner) := by
    rw [hevents, deskOf_append]
    rfl
  have hcallAt {k : Nat} {p : Slot} {msg : Message}
      (hk : CallAt server k p msg (s.spawned q rest uid owner).events) :
      CallAt server k p msg s.events := by
    rw [hevents] at hk
    obtain hk | ⟨he, -⟩ := hk.of_concat
    · exact hk
    · cases he
  by_cases hserver : s.pidGen = server
  -- the new process is the server
  · have hnone := hunborn hserver.le
    have hdesk' : deskOf server (s.spawned q rest uid owner).events = ⟨some q, []⟩ := by
      rw [hdesk, Desk.note, if_pos hserver]
    have hnone' {k : Nat} {p : Slot} {msg : Message}
        (hk : CallAt server k p msg (s.spawned q rest uid owner).events) : False := by
      have hlt := (hcallAt hk).lt
      rw [hnone] at hlt
      exact absurd hlt (Nat.not_lt_zero _)
    refine ⟨fun hle => ?_, fun p hslot => ?_, fun d hd hpid => ?_, fun d _ _ k p msg hk =>
      (hnone' hk).elim, ?_, fun k p msg m hk => (hnone' hk).elim, ?_⟩
    · exact absurd hle (Nat.not_le_of_lt (hserver ▸ Nat.lt_succ_self _))
    · rw [hdesk'] at hslot
      cases hslot
      rw [hself]
      exact hserver
    · have hdq : d = q := by
        by_contra hdq
        rw [Process.Alive, (hother d hdq).2] at hd
        rw [(hother d hdq).1] at hpid
        have hlt := hids.bounded d (Ids.alive_used hd)
        rw [hpid, hserver] at hlt
        exact absurd hlt (Nat.lt_irrefl _)
      subst hdq
      rw [hdesk', hevents, mailOf_append]
      simp [Mail.note]
    · rw [hdesk']
      exact Nat.zero_le _
    · rw [hdesk']
      simp
  · have hne (d : Slot) (hpid : ((s.spawned q rest uid owner).procs d).pid = server) : d ≠ q := by
      rintro rfl
      rw [hself] at hpid
      exact hserver hpid
    have htaken : (deskOf server (s.spawned q rest uid owner).events).taken =
        (deskOf server s.events).taken := by
      rw [hdesk, Desk.note, if_neg hserver]
      split <;> rfl
    have hslot' : (deskOf server (s.spawned q rest uid owner).events).slot =
        if (deskOf server s.events).slot = some q then none else (deskOf server s.events).slot := by
      rw [hdesk, Desk.note, if_neg hserver]
      split <;> rfl
    refine ⟨fun hle => ?_, fun p hslot => ?_, fun d hd hpid => ?_, fun d hd hpid k p msg hk => ?_,
      ?_, fun k p msg m hk => ?_, fun msg hmsg => ?_⟩
    · have hnone := h.unborn (Nat.le_of_succ_le hle)
      rw [hdesk, Desk.note, if_neg hserver, hnone, if_neg (by simp)]
    · rw [hslot'] at hslot
      split at hslot
      · cases hslot
      · rename_i hq
        have hpq : p ≠ q := by
          rintro rfl
          exact hq hslot
        rw [(hother p hpq).1]
        exact h.slot p hslot
    · have hdq := hne d hpid
      rw [Process.Alive, (hother d hdq).2] at hd
      rw [(hother d hdq).1] at hpid
      obtain ⟨hs, hm⟩ := h.staffed d hd hpid
      rw [hslot', htaken, hs, if_neg (by simpa using hdq), hevents, mailOf_append, ← hm]
      simp [Mail.note, Ne.symm hdq]
    · have hdq := hne d hpid
      rw [Process.Alive, (hother d hdq).2] at hd
      rw [(hother d hdq).1] at hpid
      rw [requestsTo_spawned s rest uid owner hdq]
      exact h.paired d hd hpid k p msg (hcallAt hk)
    · rw [htaken, hclients]
      exact h.few
    · rw [htaken]
      exact h.known k p msg m (hcallAt hk)
    · rw [htaken] at hmsg
      exact Nat.lt_succ_of_lt (h.bounded msg hmsg)

theorem called (h : Ordered server s) (hids : Ids s) {q : Slot} {contents : List Byte}
    {server' size : Nat} {t : Kernel} {purpose : Purpose} (hcall : Calling s q contents server' t)
    (hk : Kept s (t.called server' size purpose))
    (haligned : ∀ d, (s.procs d).Alive → (s.procs d).pid = server →
      (clients server s.events).length = (requestsTo s.events d).length) :
    Ordered server (t.called server' size purpose) := by
  have hevents := hcall.posted.called_events server' size purpose
  have hclients := hcall.posted.called_clients server' size purpose server
  have hdesk := hcall.posted.called_desk server server' size purpose
  refine ⟨fun hgen => ?_, fun p hslot => ?_, fun d hd hpid => ?_, fun d hd hpid k p msg hcallAt => ?_,
    ?_, fun k p msg m hcallAt hm => ?_, fun msg hmsg => ?_⟩
  · rw [hk.pidGen] at hgen
    rw [hdesk]
    exact h.unborn hgen
  · rw [hdesk] at hslot
    rw [hk.pid]
    exact h.slot p hslot
  · rw [hk.alive] at hd
    rw [hk.pid] at hpid
    rw [hdesk, hevents, mailOf_append, mailOf_append]
    obtain ⟨hs, hm⟩ := h.staffed d hd hpid
    refine ⟨hs, ?_⟩
    rw [← hm]
    simp only [List.foldl_cons, List.foldl_nil, Mail.note]
    split <;> rfl
  · rw [hk.alive] at hd
    rw [hk.pid] at hpid
    rw [hevents] at hcallAt
    rw [hcall.posted.called_requests]
    obtain hold | ⟨rfl, rfl, rfl, rfl⟩ := hcallAt.of_call
    · have hpair := h.paired d hd hpid k p msg hold
      obtain ⟨hlt, -⟩ := List.getElem?_eq_some_iff.mp hpair
      rwa [List.getElem?_append_left hlt]
    · have hqd : q = d := hids.distinct q d (Ids.alive_used hcall.posted.alive) (Ids.alive_used hd)
        (hcall.pid.trans hpid.symm)
      rw [if_pos hqd, haligned d hd hpid, List.getElem?_append_right (Nat.le_refl _), Nat.sub_self]
      rfl
  · rw [hdesk, hclients, List.length_append]
    exact Nat.le_add_right_of_le h.few
  · rw [hdesk] at hm
    rw [hevents] at hcallAt
    obtain hold | ⟨-, -, -, rfl⟩ := hcallAt.of_call
    · exact h.known k p msg m hold hm
    · obtain ⟨hlt, -⟩ := List.getElem?_eq_some_iff.mp hm
      exact absurd hlt (Nat.not_lt_of_le h.few)
  · rw [hdesk] at hmsg
    rw [hk.pidGen]
    exact h.bounded msg hmsg

end Ordered

/-- All moves keep the calls and the requests in step. -/
theorem Move.ordered {w : Promise} {server n n' : Nat} {f f' : Phase} {s s' : Kernel}
    (hunwrapped : w.unwrapped) (hrequest : w.requestByRpc) (hids : Ids s)
    (hm : Move w f s f' s') (hmail : Mailboxes s') (hs : Attended server n f s)
    (hs' : Attended server n' f' s') (h : Ordered server s) : Ordered server s' := by
  obtain ⟨p, parent, rest, uid, owner, rfl, rfl, hspawns, rfl⟩ |
    ⟨q, contents, server', t, size, purpose, hcall, rfl, hk⟩ | ⟨new, hcalm⟩ := hm.opening hrequest
  · exact h.spawned hids (hspawns.ids hunwrapped) hs.unborn
  · exact h.called hids hcall hk fun d hd hpid => (hs.serving d hd hpid).aligned
  · exact h.calm hcalm hmail hs'

theorem Move.taken_prefix {w : Promise} {server : Nat} {f f' : Phase} {s s' : Kernel}
    (hunwrapped : w.unwrapped) (hrequest : w.requestByRpc) (hm : Move w f s f' s')
    (h : Ordered server s) : (deskOf server s.events).taken <+: (deskOf server s'.events).taken := by
  obtain ⟨p, parent, rest, uid, owner, -, -, hspawns, rfl⟩ |
    ⟨q, contents, server', t, size, purpose, hcall, rfl, -⟩ | ⟨new, hcalm⟩ := hm.opening hrequest
  · have hmod : s.pidGen % 2 ^ 32 = s.pidGen := Nat.mod_eq_of_lt (hspawns.ids hunwrapped)
    change _ <+: (deskOf server (s.events ++ [.born p (s.pidGen % 2 ^ 32) uid owner])).taken
    rw [hmod, deskOf_append, List.foldl_cons, List.foldl_nil, Desk.note]
    split
    · rename_i hserver
      rw [h.unborn hserver.le]
    · split <;> exact List.prefix_refl _
  · rw [hcall.posted.called_desk]
  · rw [hcalm.events, deskOf_append]
    exact Desk.foldl_taken hcalm.opens

/-- The replies of the server in the mailboxes are those to the last calls. -/
def Told (server : Nat) (sent : List Reply) (s : Kernel) : Prop :=
  ∀ p, ∀ reply ∈ ((s.procs p).mboxes .reply).messages, reply.src = server →
    ∃ k, LastAt (clients server s.events) p k ∧
      sent[k]? = some ((s.procs p).pid, reply.contents)

theorem Posted.messages {s t : Kernel} {p : Slot} {m : MsgType} {msg : Message}
    (h : Posted s p m msg t) (m' : MsgType) : ((t.procs p).mboxes m').messages =
      (((s.procs p).deposit m msg).mboxes m').messages := by
  cases h with
  | kept => simp [Kernel.deposited, Kernel.setProc, Kernel.emit]
  | woke => simp [Kernel.deposited, Kernel.awake, Kernel.setProc, Kernel.emit, Process.woken]

/-- The reply that ends a call to the server is the one that the server sent for this call. -/
def Matched (server : Nat) (sent : List Reply) (past : List Event) : Event → Prop
  | .answered p server' (some reply) => server' = server → ∃ k msg dst bytes size,
      LastCall server k p msg past ∧ sent[k]? = some (dst, bytes) ∧
        reply.contents = bytes.take size
  | _ => True

theorem Move.replies {w : Promise} {f f' : Phase} {s s' : Kernel} (hm : Move w f s f' s') (p : Slot)
    {reply : Message} (hreply : reply ∈ ((s'.procs p).mboxes .reply).messages) :
    reply ∈ ((s.procs p).mboxes .reply).messages ∨ w.Allows .reply reply.src := by
  have hset {t : Kernel} {q : Slot} {proc : Process} (hprocs : t.procs = Function.update s.procs q proc)
      (hbox : ∀ r ∈ (proc.mboxes .reply).messages, r ∈ ((s.procs q).mboxes .reply).messages)
      (hmem : reply ∈ ((t.procs p).mboxes .reply).messages) :
      reply ∈ ((s.procs p).mboxes .reply).messages ∨ w.Allows .reply reply.src := by
    rw [hprocs] at hmem
    by_cases hpq : p = q
    · subst hpq
      rw [Function.update_self] at hmem
      exact .inl (hbox reply hmem)
    · rw [Function.update_of_ne hpq] at hmem
      exact .inl hmem
  have htaken (m : MsgType) (r : Message) (hr : r ∈ ((s.me.taken m).mboxes .reply).messages) :
      r ∈ (s.me.mboxes .reply).messages := by
    rw [Process.taken_mboxes] at hr
    split at hr
    · rename_i hm
      exact hm ▸ List.mem_of_mem_tail hr
    · exact hr
  cases hm with
  | @post _ _ t q m msg hposted hallows =>
    by_cases hpq : p = q
    · subst hpq
      rw [hposted.messages, Process.deposit_mboxes] at hreply
      split at hreply
      · rename_i hm
        subst hm
        obtain hold | hnew := List.mem_append.mp hreply
        · exact .inl hold
        · rw [List.mem_singleton.mp hnew]
          exact .inr hallows
      · exact .inl hreply
    · rw [hposted.other hpq] at hreply
      exact .inl hreply
  | @spawn _ q parent rest uid owner =>
    by_cases hpq : p = q
    · subst hpq
      rw [show (s.spawned p rest uid owner).procs p = _ from Function.update_self _ _ _] at hreply
      cases hreply
    · rw [spawned_other s hpq] at hreply
      split at hreply
      · rename_i hc
        exact .inl (hc ▸ hreply)
      · exact .inl hreply
  | @call _ t q contents server size purpose hstack hstate hposted hpid hself =>
    rw [t.called_procs, hposted.current, hposted.me hself] at hreply
    by_cases hpc : p = s.current
    · subst hpc
      rw [Function.update_self, Process.blocked_mboxes, if_pos rfl] at hreply
      exact .inl hreply
    · rw [Function.update_of_ne hpc] at hreply
      by_cases hpq : p = q
      · subst hpq
        rw [hposted.messages, Process.deposit_mboxes, if_neg (by simp)] at hreply
        exact .inl hreply
      · rw [hposted.other hpq] at hreply
        exact .inl hreply
  | @switch _ next rest =>
    obtain hproc | ⟨-, -, hproc⟩ := s.parked_procs rest p
    · rw [show (s.switched next rest).procs p = s.procs p from hproc] at hreply
      exact .inl hreply
    · rw [show (s.switched next rest).procs p = s.me.released from hproc] at hreply
      cases hreply
  | wake | die | enter | nest | leave | exec | takeFrame =>
    refine hset rfl (fun r hr => ?_) hreply
    exact hr
  | release | reap =>
    refine hset rfl (fun r hr => ?_) hreply
    cases hr
  | block =>
    refine hset rfl (fun r hr => ?_) hreply
    rw [Process.blocked_mboxes] at hr
    split at hr
    · rename_i hm
      rw [hm]
      exact hr
    · exact hr
  | resume | take =>
    refine hset rfl (fun r hr => ?_) hreply
    exact htaken _ r hr
  | swept | keepPage | freePage | termed | shutdown | fill | map | advance | poke | peek | sync =>
    exact .inl hreply

/-- As long as nobody replies in the name of the server, all moves keep what its clients were
told. -/
theorem Move.told {w : Promise} {server : Nat} {sent : List Reply} {f f' : Phase} {s s' : Kernel}
    (hrequest : w.requestByRpc) (hmute : w.mute server) (hm : Move w f s f' s')
    (h : Told server sent s) : Told server sent s' := by
  intro p reply hreply hsrc
  obtain hold | hallows := hm.replies p hreply
  swap
  · exact absurd (hsrc ▸ hmute) (hallows.1 rfl)
  obtain ⟨k, hlast, hsent⟩ := h p reply hold hsrc
  obtain ⟨q, parent, rest, uid, owner, rfl, rfl, -, rfl⟩ |
    ⟨q, contents, server', t, size, purpose, hcall, rfl, hk⟩ | ⟨new, hcalm⟩ := hm.opening hrequest
  · have hpq : p ≠ q := by
      rintro rfl
      rw [show (s.spawned p rest uid owner).procs p = _ from Function.update_self _ _ _] at hreply
      cases hreply
    rw [clients_spawned, (spawned_same s rest uid owner hpq).1]
    exact ⟨k, hlast, hsent⟩
  -- the caller has no reply yet
  · have hpc : p ≠ s.current := by
      rintro rfl
      rw [show ((s.procs s.current).mboxes .reply).messages = [] from hcall.empty] at hold
      cases hold
    rw [hcall.posted.called_clients, hk.pid]
    refine ⟨k, hlast.append ?_, hsent⟩
    split
    · simpa using hpc
    · exact List.not_mem_nil
  · rw [hcalm.events, clients_append server hcalm.opens, hcalm.pid]
    exact ⟨k, hlast, hsent⟩

theorem Asked.lastCall {p : Slot} {server : Nat} {contents : List Byte} {events later : List Event}
    (h : Asked p server contents events later) : ∃ k msg, LastCall server k p msg events := by
  obtain ⟨past, q, pid, uid, he⟩ := h.request
  exact ⟨_, ⟨pid, uid, contents⟩, past, q, later, he, rfl, h.last⟩

theorem Told.matched {server : Nat} {sent : List Reply} {s : Kernel} (h : Told server sent s)
    (hcalls : Calls .idle s) {m : MsgType} {nest size : Nat} {purpose : Purpose}
    (hstack : s.me.stack = some ⟨nest, .recv m size purpose⟩) (hstate : s.me.state = .runnable)
    {server' : Nat} (hserver : purpose.server = some server') :
    Matched server sent
      (s.events ++ Message.receivedBy s.current m size (s.me.firstMessage m size))
      (.answered s.current server' (s.me.firstMessage m size)) := by
  have hanswered := hcalls.answered hstack hstate hserver
  have hpurpose := (hcalls.boxes s.current).server nest m size purpose hstack
  have hm : m = .reply := by
    by_contra hne
    rw [if_neg hne, hserver] at hpurpose
    cases hpurpose
  subst hm
  cases hfirst : s.me.firstMessage .reply size with
  | none => trivial
  | some reply =>
    rw [hfirst] at hanswered
    rintro rfl
    obtain ⟨hsrc, contents, later, hasked⟩ := hanswered
    obtain ⟨k, msg, hlast⟩ := hasked.lastCall
    obtain ⟨msg', hhead, rfl⟩ := Option.map_eq_some_iff.mp hfirst
    obtain ⟨k', hlast', hsent⟩ := h s.current msg' (List.mem_of_mem_head? hhead) hsrc
    have hk : k = k' := by
      refine LastAt.unique ?_ hlast'
      rw [← clients_append server' fun e he => receivedBy_opens he]
      exact hlast.lastAt
    exact ⟨k, msg, _, _, size, hlast, hk ▸ hsent, rfl⟩

theorem Move.matched {w : Promise} {server : Nat} {sent : List Reply} {f f' : Phase}
    {s s' : Kernel} (hm : Move w f s f' s') (hcalls : Calls f s) (htold : Told server sent s)
    (h : Throughout (Matched server sent) s.events) :
    Throughout (Matched server sent) s'.events := by
  have hreceived (m : MsgType) (size : Nat) (out : Option Message) :
      Throughout (Matched server sent) (s.events ++ Message.receivedBy s.current m size out) := by
    refine h.append fun e he past => ?_
    cases out with
    | none => cases he
    | some msg =>
      rw [List.mem_singleton.mp he]
      trivial
  cases hm with
  | post hposted =>
    rw [hposted.events]
    exact h.concat trivial
  | @switch _ next rest =>
    change Throughout (Matched server sent) (s.parked rest).events
    rwa [s.parked_events]
  | die | spawn | fill | poke | peek => exact h.concat trivial
  | @call _ t q contents server' size purpose _ _ hposted =>
    have ht : Throughout (Matched server sent) t.events := by
      rw [hposted.events]
      exact h.concat trivial
    exact ht.concat trivial
  | @take _ m size => exact hreceived m size _
  | @resume _ m size purpose hstack hstate =>
    cases purpose with
    | recv =>
      change Throughout (Matched server sent) (_ ++ [])
      rw [List.append_nil]
      exact hreceived m size _
    | rpc server' => exact (hreceived m size _).concat (htold.matched hcalls hstack hstate rfl)
    | frame server' fault =>
      exact (hreceived m size _).concat (htold.matched hcalls hstack hstate rfl)
  | wake | swept | keepPage | freePage | termed | release | reap | enter | nest | leave | block
  | shutdown | exec | takeFrame | map | advance | sync => exact h

/-- The server has sent the replies `sent`, each to the sender of the request in its turn. -/
structure Answering (server : Nat) (sent : List Reply) (f : Phase) (s : Kernel) : Prop where
  calls : Calls f s
  mail : Mailboxes s
  attended : Attended server sent.length f s
  ordered : Ordered server s
  told : Told server sent s
  matched : Throughout (Matched server sent) s.events

theorem Move.answering {w : Promise} {server : Nat} {sent : List Reply} {f f' : Phase}
    {s s' : Kernel} (hunwrapped : w.unwrapped) (hreply : w.replyToRpc) (hrequest : w.requestByRpc)
    (hmute : w.mute server) (hc : Consistent s) (hm : Move w f s f' s')
    (h : Answering server sent f s) : Answering server sent f' s' := by
  have hmail := hm.mailboxes hc h.mail
  have hattended := hm.attended hunwrapped hrequest hmute hc h.calls h.attended
  exact ⟨hm.calls hunwrapped hreply hc h.calls, hmail, hattended,
    hm.ordered hunwrapped hrequest h.calls.ids hmail h.attended hattended h.ordered,
    hm.told hrequest hmute h.told, hm.matched h.calls h.told h.matched⟩

theorem Attended.mono {server n n' : Nat} {f : Phase} {s : Kernel} (h : Attended server n f s)
    (hn : n ≤ n') : Attended server n' f s := by
  refine ⟨h.unborn, fun d hd hpid => ?_⟩
  obtain ⟨haligned, hbounded, hpending⟩ := h.serving d hd hpid
  exact ⟨haligned, hbounded, fun k msg p hk => hpending k msg p (hn.trans hk)⟩

/-- The one that is answered is the one whose turn it is. -/
theorem Attended.replied {server n : Nat} {s t : Kernel} (h : Attended server n .idle s)
    (hids : Ids s) {d q : Slot} {uid : Nat} {contents : List Byte} (hd : (s.procs d).Alive)
    (hpid : (s.procs d).pid = server) {msg : Message}
    (hmsg : (requestsTo s.events d)[n]? = some msg) (hq : (s.procs q).pid = msg.src)
    (hposted : Posted s q .reply ⟨server, uid, contents⟩ t) :
    Attended server (n + 1) .idle t := by
  have hk : Kept s t := .posted hposted
  have hopens : ∀ e ∈ [Event.accepted q .reply ⟨server, uid, contents⟩], e.opens = false := by
    simp [Event.opens]
  have hclients : clients server t.events = clients server s.events := by
    rw [hposted.events, clients_append server hopens]
  have hrequests (d : Slot) : requestsTo t.events d = requestsTo s.events d := by
    rw [hposted.events, requestsTo_append d hopens]
  obtain ⟨-, hlast⟩ := (h.serving d hd hpid).pending n msg q (Nat.le_refl _) hmsg
    (Ids.alive_used hposted.alive) hq
  refine ⟨fun hgen => ?_, fun d' hd' hpid' => ?_⟩
  · rw [hk.pidGen] at hgen
    rw [hclients]
    exact h.unborn hgen
  · rw [hk.alive] at hd'
    rw [hk.pid] at hpid'
    obtain ⟨haligned, hbounded, hpending⟩ := h.serving d' hd' hpid'
    obtain rfl : d' = d := hids.distinct d' d (Ids.alive_used hd') (Ids.alive_used hd)
      (hpid'.trans hpid.symm)
    refine ⟨?_, ?_, fun k msg' p hle hmsg' hused hsrc => ?_⟩
    · rw [hclients, hrequests, haligned]
    · rw [hrequests, hk.pidGen]
      exact hbounded
    · rw [hrequests] at hmsg'
      rw [hk.pid] at hsrc
      obtain ⟨hp, hlast'⟩ := hpending k msg' p (Nat.le_of_succ_le hle) hmsg' (hk.used p hused) hsrc
      have hpq : p ≠ q := by
        rintro rfl
        exact absurd (hlast.unique hlast') (Nat.ne_of_lt hle)
      rw [hclients]
      exact ⟨hp.congr (hposted.other hpq) hposted.current id, hlast'⟩

theorem getElem?_append_some {α : Type} {l : List α} {k : Nat} {a : α} (h : l[k]? = some a)
    (l' : List α) : (l ++ l')[k]? = some a := by
  obtain ⟨hk, -⟩ := List.getElem?_eq_some_iff.mp h
  rwa [List.getElem?_append_left hk]

theorem Told.append {server : Nat} {sent : List Reply} {s : Kernel} (h : Told server sent s)
    (new : List Reply) : Told server (sent ++ new) s := by
  intro p reply hreply hsrc
  obtain ⟨k, hlast, hk⟩ := h p reply hreply hsrc
  exact ⟨k, hlast, getElem?_append_some hk new⟩

theorem Matched.append {server : Nat} {sent : List Reply} {past : List Event} {e : Event}
    (h : Matched server sent past e) (new : List Reply) :
    Matched server (sent ++ new) past e := by
  cases e with
  | answered p server' out =>
    cases out with
    | none => trivial
    | some reply =>
      intro hs
      obtain ⟨k, msg, dst, bytes, size, hlast, hk, hcut⟩ := h hs
      exact ⟨k, msg, dst, bytes, size, hlast, getElem?_append_some hk new, hcut⟩
  | _ => trivial

namespace Answering

variable {server : Nat} {sent : List Reply} {s t : Kernel}

theorem refused (h : Answering server sent .idle s) (reply : Reply) :
    Answering server (sent ++ [reply]) .idle s :=
  ⟨h.calls, h.mail, h.attended.mono (by simp), h.ordered, h.told.append [reply],
    fun past e he => (h.matched past e he).append [reply]⟩

theorem replied (h : Answering server sent .idle s) (hc : Consistent s) {d q : Slot}
    {dst uid : Nat} {contents : List Byte} (hd : (s.procs d).Alive)
    (hpid : (s.procs d).pid = server) {msg : Message}
    (hmsg : (requestsTo s.events d)[sent.length]? = some msg) (hdst : msg.src = dst)
    (hq : (s.procs q).pid = dst)
    (hposted : Posted s q .reply ⟨server, uid, contents⟩ t) :
    Answering server (sent ++ [(dst, contents)]) .idle t := by
  have hk : Kept s t := .posted hposted
  have hopens : ∀ e ∈ [Event.accepted q .reply ⟨server, uid, contents⟩], e.opens = false := by
    simp [Event.opens]
  have hclients : clients server t.events = clients server s.events := by
    rw [hposted.events, clients_append server hopens]
  have hsrc : (s.procs q).pid = msg.src := hq.trans hdst.symm
  obtain ⟨-, hlast⟩ := (h.attended.serving d hd hpid).pending sent.length msg q (Nat.le_refl _) hmsg
    (Ids.alive_used hposted.alive) hsrc
  have hattended : Attended server (sent ++ [(dst, contents)]).length .idle t := by
    rw [List.length_append, List.length_singleton]
    exact h.attended.replied h.calls.ids hd hpid hmsg hsrc hposted
  have hm : Move .rpc .idle s .idle t := .post hposted ⟨fun _ hw => hw, by simp⟩
  have hmail := hm.mailboxes hc h.mail
  have hcalm : Calm s t [.accepted q .reply ⟨server, uid, contents⟩] :=
    ⟨hposted.events, hopens, hk.pid, fun p => (hk.alive p).mp, hk.pidGen, by simp⟩
  refine ⟨hm.calls trivial trivial hc h.calls, hmail, hattended,
    h.ordered.calm hcalm hmail hattended, ?_, ?_⟩
  · intro p reply hreply hsrc
    have hold (hmem : reply ∈ ((s.procs p).mboxes .reply).messages) :
        ∃ k, LastAt (clients server t.events) p k ∧
          (sent ++ [(dst, contents)])[k]? = some ((t.procs p).pid, reply.contents) := by
      obtain ⟨k, hlast', hk'⟩ := h.told p reply hmem hsrc
      rw [hclients, hk.pid]
      exact ⟨k, hlast', getElem?_append_some hk' _⟩
    by_cases hpq : p = q
    · subst hpq
      rw [hposted.messages, Process.deposit_mboxes, if_pos rfl] at hreply
      obtain hmem | hnew := List.mem_append.mp hreply
      · exact hold hmem
      · rw [List.mem_singleton.mp hnew, hclients, hk.pid, hq]
        exact ⟨sent.length, hlast, List.getElem?_concat_length⟩
    · rw [hposted.other hpq] at hreply
      exact hold hreply
  · have hmatched := hm.matched h.calls h.told h.matched
    exact fun past e he => (hmatched past e he).append _

end Answering

theorem taken_procInitialize (server : Nat) (frames : Nat → Page) :
    (deskOf server (procInitialize frames).events).taken = [] := by
  change (if 1 = server then (⟨some _, []⟩ : Desk) else ⟨none, []⟩).taken = []
  split <;> rfl

theorem answering_procInitialize (server : Nat) (frames : Nat → Page) :
    Answering server [] .idle (procInitialize frames) := by
  have hids := ids_procInitialize frames
  have hclients : clients server (procInitialize frames).events = [] := rfl
  have hrequests (d : Slot) : requestsTo (procInitialize frames).events d = [] := by
    change (Mail.accepted (if _ then _ else _)) = []
    split <;> rfl
  have hnone' {k : Nat} {p : Slot} {msg : Message}
      (hk : CallAt server k p msg (procInitialize frames).events) : False := by
    have hlt := hk.lt
    rw [hclients] at hlt
    exact absurd hlt (Nat.not_lt_zero _)
  refine ⟨calls_procInitialize frames, mailboxes_procInitialize frames, ?_, ?_, ?_, ?_⟩
  · refine ⟨fun _ => rfl, fun d _ _ => ⟨?_, ?_, fun k msg p _ hmsg => ?_⟩⟩
    · rw [hclients, hrequests]
      rfl
    · rw [hrequests]
      simp
    · rw [hrequests] at hmsg
      cases hmsg
  · have hdesk : deskOf server (procInitialize frames).events =
        if 1 = server then ⟨some (procInitialize frames).current, []⟩ else ⟨none, []⟩ := rfl
    refine ⟨fun hgen => ?_, fun p hslot => ?_, fun d hd hpid => ?_, fun d _ _ k p msg hk =>
      (hnone' hk).elim, ?_, fun k p msg m hk => (hnone' hk).elim, ?_⟩
    · have hgen' : 2 ≤ server := hgen
      rw [hdesk, if_neg (by omega)]
    · rw [hdesk] at hslot
      split at hslot
      · rename_i hs
        cases hslot
        rw [← hs]
        rfl
      · cases hslot
    · have hdc : d = (procInitialize frames).current := by
        by_contra hne
        have hfree := procInitialize_state frames d
        rw [if_neg hne] at hfree
        exact Ids.alive_used hd hfree
      subst hdc
      have hs : 1 = server := hpid
      rw [hdesk, if_pos hs, procInitialize_events]
      simp [mailOf, Mail.note]
    · rw [taken_procInitialize]
      exact Nat.zero_le _
    · rw [taken_procInitialize]
      simp
  · intro p reply hreply
    obtain ⟨pid, owner, state, hp⟩ := procInitialize_fresh frames p
    rw [hp] at hreply
    cases hreply
  · rw [procInitialize_events, ← List.nil_append [_]]
    exact Throughout.nil.concat trivial

end Egos.Grass
