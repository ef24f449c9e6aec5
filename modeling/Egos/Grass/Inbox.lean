import Egos.Grass.Delivery
import Egos.Grass.Identity
import Egos.Grass.Strikes

/-!
# Replies on their way

A reply that was accepted lies in the mailbox of its reader until the reader runs again and returns
from its RPC with it. Nothing can come between but the death of the reader.
-/
namespace Egos.Grass

open Egos.Lib Egos.Earth

set_option autoImplicit false

/-- What has become of a reply. -/
inductive Fate where
  | read
  | lost
  deriving DecidableEq

/-- A reply that was accepted for the process in a slot, with the number of the events before. -/
structure Given where
  since : Nat
  reader : Slot
  contents : List Byte

/-- The process returns from its RPC with the reply, or with something else, or it dies. -/
def Event.fate (server : Nat) (p : Slot) (contents : List Byte) : Event → Option Fate
  | .answered q pid reply =>
    if q = p then
      if pid = server ∧ reply.map Message.contents = some contents then some .read
      else some .lost
    else none
  | .died q _ _ => if q = p then some .lost else none
  | _ => none

def Given.fate (server : Nat) (s : Kernel) (g : Given) : Option Fate :=
  (s.events.drop g.since).findSome? (Event.fate server g.reader g.contents)

/-- The room for a reply of the server, if the process is in an RPC with it. -/
def Process.room (proc : Process) (server : Nat) : Option Nat :=
  match proc.stack with
  | some ⟨_, .recv .reply size purpose⟩ => if purpose.server = some server then some size else none
  | _ => none

/-- The process waits for a reply of the server and has room for so many bytes. -/
def Process.Hears (proc : Process) (server size : Nat) : Prop :=
  replyRefused proc server = false ∧ ∃ room ∈ proc.room server, size ≤ room

/-- The reply is the next message for the process, which has been woken. -/
structure Process.Holds (proc : Process) (server : Nat) (contents : List Byte) : Prop where
  state : proc.state = .runnable
  room : ∃ room ∈ proc.room server, contents.length ≤ room
  first : (proc.mboxes .reply).messages.head?.map Message.contents = some contents

/-- The reply has been read, or it is on its way. -/
def Given.Safe (server : Nat) (s : Kernel) (g : Given) : Prop :=
  g.since ≤ s.events.length ∧ (g.fate server s = some .read ∨
    g.fate server s = none ∧ (s.procs g.reader).Holds server g.contents)

/-- The process has not died since. -/
def Lives (p : Slot) (s s' : Kernel) : Prop :=
  ∃ new, s'.events = s.events ++ new ∧ ∀ pid uid, .died p pid uid ∉ new

/-- The action may kill the process although it does not run. -/
def Action.Endangers (a : Action) (s : Kernel) (p : Slot) : Prop :=
  match a with
  | .kill killer pid _ | .handleKill killer pid _ => s.MayStrike killer pid p
  | .wake _ => s.shuttingDown = true
  | _ => False

/-- What became of a reply in between: it has been read, or the reader has died, or it is still
there. -/
def Passes (server : Nat) (p : Slot) (contents : List Byte) (s s' : Kernel) : Prop :=
  ∃ new, s'.events = s.events ++ new ∧
    (new.findSome? (Event.fate server p contents) = some .read ∨
      (∃ pid uid, .died p pid uid ∈ new) ∨
      new.findSome? (Event.fate server p contents) = none ∧
        (s'.procs p).Holds server contents)

section

variable {w : Promise} {f f' : Phase} {s s' s'' : Kernel} {server : Nat} {p : Slot}
  {contents : List Byte}

theorem Process.Holds.stack {proc : Process} (h : proc.Holds server contents) :
    ∃ nest room purpose, proc.stack = some ⟨nest, .recv .reply room purpose⟩ ∧
      purpose.server = some server ∧ contents.length ≤ room := by
  obtain ⟨room, hroom, hlen⟩ := h.room
  unfold Process.room at hroom
  split at hroom
  · rename_i nest size purpose hstack
    split at hroom
    · rename_i hserver
      cases hroom
      exact ⟨nest, _, purpose, hstack, hserver, hlen⟩
    · cases hroom
  · cases hroom

theorem Process.Holds.idle (h : (s.procs p).Holds server contents) (hme : s.me.stack = none) :
    p ≠ s.current := by
  obtain ⟨nest, room, purpose, hstack, -, -⟩ := h.stack
  rintro rfl
  rw [Kernel.me, hstack] at hme
  cases hme

theorem Process.Holds.congr {proc proc' : Process} (h : proc.Holds server contents)
    (hstate : proc'.state = proc.state) (hroom : proc'.room server = proc.room server)
    (hbox : (proc'.mboxes .reply).messages = (proc.mboxes .reply).messages) :
    proc'.Holds server contents :=
  ⟨hstate.trans h.state, by rw [hroom]; exact h.room, by rw [hbox]; exact h.first⟩

theorem Move.grows (hm : Move w f s f' s') : s.events <+: s'.events := by
  obtain ⟨_, _, _, _, _, -, -, -, rfl⟩ | ⟨_, -, -, -, rfl⟩ | hk := hm.kept
  · exact ⟨_, rfl⟩
  · exact ⟨_, rfl⟩
  · obtain ⟨new, hnew, -⟩ := hk.events
    exact ⟨new, hnew.symm⟩

namespace Passes

theorem stay {new : List Event} (h : (s.procs p).Holds server contents)
    (hprocs : s'.procs p = s.procs p) (hevents : s'.events = s.events ++ new)
    (hnew : ∀ e ∈ new, e.fate server p contents = none) : Passes server p contents s s' := by
  refine ⟨new, hevents, .inr (.inr ⟨List.findSome?_eq_none_iff.mpr hnew, ?_⟩)⟩
  rw [hprocs]
  exact h

theorem same (h : (s.procs p).Holds server contents) (hprocs : s'.procs p = s.procs p)
    (hevents : s'.events = s.events) : Passes server p contents s s' :=
  .stay h hprocs (hevents.trans (List.append_nil _).symm) fun _ he => absurd he List.not_mem_nil

theorem posted (h : (s.procs p).Holds server contents) {q : Slot} {m : MsgType} {msg : Message}
    (hp : Posted s q m msg s') : Passes server p contents s s' := by
  by_cases hq : p = q
  · subst hq
    cases hp with
    | kept halive hidle hm =>
      refine ⟨[.accepted p m msg], rfl, .inr (.inr ⟨rfl, ?_⟩)⟩
      have hself : (s.deposited p m msg).procs p = (s.procs p).deposit m msg :=
        Function.update_self _ _ _
      rw [hself]
      refine h.congr rfl rfl ?_
      rw [Process.deposit_mboxes, if_neg (Ne.symm hm)]
    | woke hstate =>
      rw [h.state] at hstate
      cases hstate
  · exact .stay h (hp.other hq) hp.events (List.forall_mem_singleton.mpr rfl)

end Passes

theorem receivedBy_fate {q : Slot} {m : MsgType} {size : Nat} {msg : Option Message} :
    ∀ e ∈ Message.receivedBy q m size msg, e.fate server p contents = none := by
  intro e he
  cases msg with
  | none => cases he
  | some msg =>
    rw [List.mem_singleton.mp he]
    rfl

theorem Process.Holds.resumed (h : s.me.Holds server contents) {m : MsgType} {size : Nat}
    {purpose : Purpose} (hstack : s.me.stack = some ⟨0, .recv m size purpose⟩) :
    Passes server s.current contents s (s.resumed m size purpose) := by
  obtain ⟨nest, room, purpose', hstack', hserver, hlen⟩ := h.stack
  rw [hstack'] at hstack
  cases hstack
  have hfirst : (s.me.firstMessage .reply size).map Message.contents = some contents := by
    obtain ⟨msg, hmsg, hcontents⟩ := Option.map_eq_some_iff.mp h.first
    unfold Process.firstMessage
    rw [hmsg, ← hcontents]
    rw [← hcontents] at hlen
    exact congrArg some (List.take_of_length_le hlen)
  refine ⟨_, List.append_assoc _ _ _, .inl ?_⟩
  rw [List.findSome?_append, List.findSome?_eq_none_iff.mpr receivedBy_fate, Option.none_or]
  have hread {pid : Nat} (hpid : pid = server) : Event.fate server s.current contents
      (.answered s.current pid (s.me.firstMessage .reply size)) = some .read :=
    (if_pos rfl).trans (if_pos ⟨hpid, hfirst⟩)
  cases purpose with
  | recv => cases hserver
  | rpc pid | frame pid =>
    unfold Purpose.answered
    rw [List.findSome?_cons, hread (Option.some.inj hserver)]

theorem Move.passes (hm : Move w f s f' s') (hc : Consistent s)
    (h : (s.procs p).Holds server contents) : Passes server p contents s s' := by
  obtain ⟨nest, room, purpose, hstack, -, -⟩ := h.stack
  have hstate {q : Slot} {state : ProcState} (hq : (s.procs q).state = state)
      (hne : state ≠ .runnable) : p ≠ q := by
    rintro rfl
    exact hne (hq.symm.trans h.state)
  cases hm with
  | post hposted => exact .posted h hposted
  | wake hwaiting => exact .same h (Function.update_of_ne (hstate hwaiting (by decide)) _ _) rfl
  | @die _ q =>
    by_cases hq : p = q
    · subst hq
      exact ⟨_, rfl, .inr (.inl ⟨_, _, List.mem_singleton_self _⟩)⟩
    · refine .stay h (Function.update_of_ne hq _ _) rfl (List.forall_mem_singleton.mpr ?_)
      exact if_neg (Ne.symm hq)
  | release hzombie | reap _ hzombie =>
    exact .same h (Function.update_of_ne (hstate hzombie (by decide)) _ _) rfl
  | @switch _ next rest =>
    refine .same h ?_ (s.parked_events rest)
    obtain hsame | ⟨hzombie, rfl, -⟩ := s.parked_procs rest p
    · exact hsame
    · exact absurd rfl (hstate hzombie (by decide))
  | @spawn _ q parent rest uid owner hs =>
    have hne := h.idle hs.stack
    refine .stay h ?_ rfl (List.forall_mem_singleton.mpr rfl)
    rw [spawned_other s (hstate (hs.slot_free hc) (by decide)), if_neg hne]
  | enter hme | block hme | exec hme | takeFrame hme =>
    exact .same h (Function.update_of_ne (h.idle hme) _ _) rfl
  | take hme => exact .stay h (Function.update_of_ne (h.idle hme) _ _) rfl receivedBy_fate
  | @nest _ stack n hme =>
    by_cases hp : p = s.current
    · subst hp
      refine ⟨[], (List.append_nil _).symm, .inr (.inr ⟨rfl, ?_⟩)⟩
      change ((s.setStack s.current (some ⟨n, stack.call⟩)).me).Holds server contents
      rw [Kernel.setStack_me]
      refine h.congr rfl ?_ rfl
      rw [Kernel.me, hstack] at hme
      cases hme
      unfold Process.room
      rw [hstack]
    · exact .same h (Function.update_of_ne hp _ _) rfl
  | leave hme hcall =>
    refine .same h (Function.update_of_ne ?_ _ _) rfl
    rintro rfl
    rw [Kernel.me, hstack] at hme
    cases hme
    obtain hcall | hcall := hcall <;> cases hcall
  | @resume _ m size purpose hme =>
    by_cases hp : p = s.current
    · subst hp
      exact Process.Holds.resumed h hme
    · refine .stay h (Function.update_of_ne hp _ _) (List.append_assoc _ _ _) fun e he => ?_
      obtain he | he := List.mem_append.mp he
      · exact receivedBy_fate e he
      · cases purpose with
        | recv => cases he
        | rpc | frame =>
          rw [List.mem_singleton.mp he]
          exact if_neg (Ne.symm hp)
  | @call _ t q contents' server' size purpose hme _ hposted =>
    obtain ⟨new, hnew, hfate⟩ := Passes.posted h hposted
    have hother : (t.called server' size purpose).procs p = t.procs p := by
      rw [Kernel.called_procs, Function.update_of_ne]
      rw [hposted.current]
      exact h.idle hme
    refine ⟨new ++ [.requested t.current server'], ?_, ?_⟩
    · rw [← List.append_assoc, ← hnew]
      rfl
    · rw [List.findSome?_append, hother]
      obtain hread | ⟨pid, uid, hdied⟩ | ⟨hnone, hholds⟩ := hfate
      · exact .inl (by rw [hread]; rfl)
      · exact .inr (.inl ⟨pid, uid, List.mem_append_left _ hdied⟩)
      · exact .inr (.inr ⟨by rw [hnone]; rfl, hholds⟩)
  | fill | poke | peek => exact .stay h rfl rfl (List.forall_mem_singleton.mpr rfl)
  | swept | keepPage | freePage | termed | shutdown | map | advance | sync => exact .same h rfl rfl

theorem Moves.passes (hm : Moves w f s f' s') (hc : Consistent s)
    (h : (s.procs p).Holds server contents) : Passes server p contents s s' := by
  refine (hm.keeps (I := fun _ t => Consistent t ∧ Passes server p contents s t) ?_
    ⟨hc, .same h rfl rfl⟩).2
  intro f f' t t' hmove ht
  obtain ⟨hct, new, hnew, hfate⟩ := ht
  refine ⟨hmove.consistent hct, ?_⟩
  have hlater : (new.findSome? (Event.fate server p contents) = some .read ∨
      (∃ pid uid, .died p pid uid ∈ new)) → Passes server p contents s t' := by
    intro hdone
    obtain ⟨later, hlater⟩ := hmove.grows
    refine ⟨new ++ later, by rw [← hlater, hnew, List.append_assoc], ?_⟩
    obtain hread | ⟨pid, uid, hdied⟩ := hdone
    · exact .inl (by rw [List.findSome?_append, hread]; rfl)
    · exact .inr (.inl ⟨pid, uid, List.mem_append_left _ hdied⟩)
  obtain hread | hdied | ⟨hnone, hholds⟩ := hfate
  · exact hlater (.inl hread)
  · exact hlater (.inr hdied)
  · obtain ⟨new', hnew', hfate'⟩ := hmove.passes hct hholds
    refine ⟨new ++ new', by rw [hnew', hnew, List.append_assoc], ?_⟩
    rw [List.findSome?_append, hnone, Option.none_or]
    obtain hread | ⟨pid, uid, hdied⟩ | hkept := hfate'
    · exact .inl hread
    · exact .inr (.inl ⟨pid, uid, List.mem_append_right _ hdied⟩)
    · exact .inr (.inr hkept)

theorem Moves.grows (hm : Moves w f s f' s') : s.events <+: s'.events :=
  hm.keeps (I := fun _ t => s.events <+: t.events) (fun hmove h => h.trans hmove.grows)
    (List.prefix_refl _)

theorem Given.fate_append {g : Given} (hsince : g.since ≤ s.events.length) {new : List Event}
    (hnew : s'.events = s.events ++ new) : g.fate server s' =
      (g.fate server s).or (new.findSome? (Event.fate server g.reader g.contents)) := by
  unfold Given.fate
  rw [hnew, List.drop_append_of_le_length hsince, List.findSome?_append]

/-- A reply is lost only with its reader. -/
theorem Moves.safe (hm : Moves w f s f' s') (hc : Consistent s) {g : Given}
    (h : g.Safe server s) (hlives : g.fate server s = none → Lives g.reader s s') :
    g.Safe server s' := by
  obtain ⟨hsince, hfate⟩ := h
  obtain ⟨new, hnew⟩ := hm.grows
  refine ⟨hsince.trans hm.grows.length_le, ?_⟩
  rw [Given.fate_append hsince hnew.symm]
  obtain hread | ⟨hnone, hholds⟩ := hfate
  · exact .inl (by rw [hread]; rfl)
  · obtain ⟨alive, halive, hlives⟩ := hlives hnone
    obtain ⟨new', hnew', hpass⟩ := hm.passes hc hholds
    cases List.append_cancel_left (hnew.trans hnew')
    cases List.append_cancel_left (hnew.trans halive)
    rw [hnone, Option.none_or]
    obtain hread | ⟨pid, uid, hdied⟩ | hkept := hpass
    · exact .inl hread
    · exact absurd hdied (hlives pid uid)
    · exact .inr hkept

/-! ## Deaths -/

theorem Happens.lives {ok : Slot → Nat → Prop} (h : Happens ok s s') (hp : ∀ uid, ¬ ok p uid) :
    Lives p s s' := by
  obtain ⟨new, hnew, hall⟩ := h
  exact ⟨new, hnew, fun pid uid hdied => hp uid (hall _ hdied)⟩

/-- Of the processes that do not run, a step kills none but those that it endangers. -/
theorem outcome_step_lives {a : Action} (hc : Consistent s) (hr : Ready s)
    (hp : s.me.stack = none → p ≠ s.current) (hsafe : ¬ a.Endangers s p) :
    Outcome (step a) (fun _ s' => Lives p s s') (fun _ _ => True) s := by
  unfold step
  rw [Outcome.bind_iff, Outcome.get_iff]
  split
  case isFalse => trivial
  rename_i henabled
  have hnobody : Lives p s s := ⟨[], (List.append_nil _).symm, fun _ _ => List.not_mem_nil⟩
  have hothers {m : KernelM Unit} (h : Outcome m (fun _ s' => Happens (fun q _ => q ≠ p) s s')
      (fun _ _ => True) s) : Outcome m (fun _ s' => Lives p s s') (fun _ _ => True) s :=
    h.post fun _ _ hs => hs.lives fun _ => not_not.mpr rfl
  by_cases hcreate : ∃ owner uid, a = .create owner uid
  · obtain ⟨owner, uid, rfl⟩ := hcreate
    have hstack : s.me.stack = none := by simpa [Action.inSuspend] using henabled.symm
    refine outcome_spawned hc (hr.running hstack) (fun _ => hnobody) fun _ _ _ _ _ _ => ?_
    refine ⟨_, rfl, fun pid uid hdied => ?_⟩
    cases List.mem_singleton.mp hdied
  by_cases hwake : ∃ now, a = .wake now
  · obtain ⟨now, rfl⟩ := hwake
    exact hothers (happens_procYield (fun hdown => absurd hdown hsafe) now)
  · refine hothers (Outcome.post (happens_perform (fun owner uid ha => hcreate ⟨owner, uid, ha⟩)
      (fun now ha => hwake ⟨now, ha⟩) (fun hme => ?_) fun killer pid status ha q hq => ?_)
      fun _ _ h => h.1)
    · rw [hme] at henabled
      exact (hp (by simpa using henabled.symm)).symm
    · rintro rfl
      obtain rfl | rfl := ha
      · exact hsafe hq
      · exact hsafe hq

end

/-! ## Kernels at rest -/

/-- The kernel between two steps, with its mailboxes. -/
structure Poised (s : Kernel) : Prop where
  rest : AtRest .nothing s
  boxes : Mailboxes s

section

variable {s s' : Kernel} {server : Nat}

theorem poised_procInitialize (frames : Nat → Page) : Poised (procInitialize frames) :=
  ⟨atRest_procInitialize frames .nothing, mailboxes_procInitialize frames⟩

theorem Poised.moves (h : Poised s) (hm : Moves .nothing .idle s .idle s') (hr : Ready s') :
    Poised s' := by
  obtain ⟨hc, hp, hb⟩ := hm.keeps
    (I := fun _ t => Consistent t ∧ Pending .nothing t ∧ Mailboxes t)
    (fun hmove ht => ⟨hmove.consistent ht.1, hmove.pending ht.2.1, hmove.mailboxes ht.1 ht.2.2⟩)
    ⟨h.rest.consistent, h.rest.pending, h.boxes⟩
  exact ⟨⟨hc, hr, hp⟩, hb⟩

theorem Posted.ready {p : Slot} {m : MsgType} {msg : Message} (h : Posted s p m msg s')
    (hr : Ready s) : Ready s' := by
  by_cases hstack : s.me.stack = none
  · exact (h.running (hr.running hstack)).ready
  · apply ready_of_stack
    rw [(Steady.of_quiet h.quiet).stack_me]
    exact hstack

/-- A process that hears gets the reply, which is then on its way. -/
theorem Poised.sends (h : Poised s) {dst : Nat} {p : Slot} (hfind : procFind s dst = some p)
    {reply : List Byte} (hears : (s.procs p).Hears server reply.length) :
    Outcome (procSend server 0 dst .reply reply) (fun r s' => r = true ∧
      (⟨s'.events.length, p, reply⟩ : Given).Safe server s') (fun _ _ => False) s := by
  obtain ⟨hrefused, hroom⟩ := hears
  refine (outcome_procSend h.rest.consistent server 0 dst .reply reply).post fun r s' hr => ?_
  have hwaiting : (s.procs p).state = .waiting ∧ ((s.procs p).mboxes .reply).waiting = true := by
    simp only [replyRefused, Bool.or_eq_false_iff, decide_eq_false_iff_not, not_not,
      Bool.not_eq_false'] at hrefused
    exact hrefused.1
  obtain ⟨-, -, hnone⟩ | ⟨rfl, q, hq, hposted⟩ := hr
  · have hrefuses := (hnone p hfind (.inr hwaiting.1)).2
    rw [hrefused] at hrefuses
    cases hrefuses
  · rw [hfind] at hq
    cases hq
    refine ⟨rfl, le_refl _, .inr ⟨?_, ?_⟩⟩
    · unfold Given.fate
      rw [List.drop_length]
      rfl
    · have hempty := h.boxes.awake p .reply (.inr hwaiting.1) hwaiting.2
      cases hposted with
      | kept _ _ hm => exact absurd rfl hm
      | woke =>
        have hself : (((s.deposited p .reply ⟨server, 0, reply⟩).awake p).procs p) =
            ((s.procs p).deposit .reply ⟨server, 0, reply⟩).woken := by
          simp [Kernel.awake, Kernel.deposited, Kernel.setProc, Kernel.emit]
        rw [hself]
        refine ⟨rfl, hroom, ?_⟩
        change ((((s.procs p).deposit .reply _).mboxes .reply).messages.head?.map _) = _
        rw [Process.deposit_mboxes, if_pos rfl, hempty]
        rfl

end

end Egos.Grass
