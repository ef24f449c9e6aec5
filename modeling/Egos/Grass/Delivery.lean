import Egos.Grass.Runs

/-!
# Message delivery

What was sent to a mailbox is what its process has received, in the same order, followed by
what the mailbox still holds. The history of a mailbox begins anew when its slot is given to
a new process.
-/
namespace Egos.Grass

open Egos.Lib Egos.Earth

set_option autoImplicit false

/-- The messages that `proc_send` accepted for a mailbox, and those that `proc_recv` returned
from it, with the size of the buffer. -/
structure Mail where
  accepted : List Message
  received : List (Nat × Message)

def Mail.note (p : Slot) (m : MsgType) (mail : Mail) : Event → Mail
  | .born q _ _ _ => if q = p then ⟨[], []⟩ else mail
  | .accepted q m' msg =>
    if q = p ∧ m' = m then { mail with accepted := mail.accepted ++ [msg] } else mail
  | .received q m' size msg =>
    if q = p ∧ m' = m then { mail with received := mail.received ++ [(size, msg)] } else mail
  | _ => mail

/-- The history of the mailbox of the process that has the slot. -/
def mailOf (events : List Event) (p : Slot) (m : MsgType) : Mail :=
  events.foldl (Mail.note p m) ⟨[], []⟩

/-- A message as `proc_recv` returns it in a buffer of some size. -/
def Message.cut (msg : Message) (size : Nat) : Message :=
  { msg with contents := msg.contents.take size }

/-- The received messages are the first of the accepted ones, and the queue is the rest. -/
def Mail.Delivered (mail : Mail) (queue : List Message) : Prop :=
  ∃ taken, mail.accepted = taken ++ queue ∧
    mail.received.map Prod.snd = List.zipWith Message.cut taken (mail.received.map Prod.fst) ∧
    mail.received.length = taken.length

namespace Mail.Delivered

variable {mail : Mail} {queue : List Message}

theorem fresh : Delivered ⟨[], []⟩ [] := ⟨[], rfl, rfl, rfl⟩

theorem deposit (h : mail.Delivered queue) (msg : Message) :
    Delivered { mail with accepted := mail.accepted ++ [msg] } (queue ++ [msg]) := by
  obtain ⟨taken, hacc, hrec⟩ := h
  exact ⟨taken, by simp [hacc], hrec⟩

theorem take {msg : Message} (h : mail.Delivered (msg :: queue)) (size : Nat) :
    Delivered { mail with received := mail.received ++ [(size, msg.cut size)] } queue := by
  obtain ⟨taken, hacc, hrec, hlen⟩ := h
  refine ⟨taken ++ [msg], by simp [hacc], ?_, by simp [hlen]⟩
  rw [List.map_append, List.map_append, List.zipWith_append (by simp [hlen]), hrec]
  rfl

end Mail.Delivered

section

variable (events : List Event) (p : Slot) (m : MsgType)

theorem mailOf_append (new : List Event) :
    mailOf (events ++ new) p m = new.foldl (Mail.note p m) (mailOf events p m) :=
  List.foldl_append

end

/-- The mailboxes of the processes that can still receive. -/
structure Mailboxes (s : Kernel) : Prop where
  delivered : ∀ p m, (s.procs p).Alive →
    (mailOf s.events p m).Delivered ((s.procs p).mboxes m).messages
  awake : ∀ p m, (s.procs p).Alive → ((s.procs p).mboxes m).waiting = true →
    ((s.procs p).mboxes m).messages = []

namespace Mailboxes

variable {s s' : Kernel}

theorem setBox (h : Mailboxes s) {p : Slot} {m : MsgType} {proc : Process}
    (hprocs : s'.procs = Function.update s.procs p proc) (halive : (s.procs p).Alive)
    (hbox : ∀ m', m' ≠ m → (proc.mboxes m').messages = ((s.procs p).mboxes m').messages ∧
      ((proc.mboxes m').waiting = true → ((s.procs p).mboxes m').waiting = true))
    (hmail : ∀ q m', ¬ (q = p ∧ m' = m) → mailOf s'.events q m' = mailOf s.events q m')
    (hdelivered : (mailOf s'.events p m).Delivered (proc.mboxes m).messages)
    (hawake : (proc.mboxes m).waiting = true → (proc.mboxes m).messages = []) :
    Mailboxes s' := by
  have hself : s'.procs p = proc := by rw [hprocs, Function.update_self]
  have hother (q : Slot) (hq : q ≠ p) : s'.procs q = s.procs q := by
    rw [hprocs, Function.update_of_ne hq]
  refine ⟨fun q m' hq => ?_, fun q m' hq hw => ?_⟩
  · by_cases hp : q = p
    · subst hp
      rw [hself]
      by_cases hm : m' = m
      · exact hm ▸ hdelivered
      · rw [hmail q m' (fun he => hm he.2), (hbox m' hm).1]
        exact h.delivered q m' halive
    · rw [hother q hp] at hq ⊢
      rw [hmail q m' (fun he => hp he.1)]
      exact h.delivered q m' hq
  · by_cases hp : q = p
    · subst hp
      rw [hself] at hw ⊢
      by_cases hm : m' = m
      · subst hm
        exact hawake hw
      · rw [(hbox m' hm).1]
        exact h.awake q m' halive ((hbox m' hm).2 hw)
    · rw [hother q hp] at hq hw ⊢
      exact h.awake q m' hq hw

theorem congr (h : Mailboxes s) (hprocs : ∀ p, (s'.procs p).Alive → (s.procs p).Alive ∧
      ∀ m, ((s'.procs p).mboxes m).messages = ((s.procs p).mboxes m).messages ∧
        (((s'.procs p).mboxes m).waiting = true → ((s.procs p).mboxes m).waiting = true))
    (hmail : ∀ p m, mailOf s'.events p m = mailOf s.events p m) : Mailboxes s' := by
  refine ⟨fun p m hp => ?_, fun p m hp hw => ?_⟩
  · obtain ⟨ha, hq⟩ := hprocs p hp
    rw [hmail, (hq m).1]
    exact h.delivered p m ha
  · obtain ⟨ha, hq⟩ := hprocs p hp
    rw [(hq m).1]
    exact h.awake p m ha ((hq m).2 hw)

theorem same (h : Mailboxes s) (hprocs : s'.procs = s.procs)
    (hmail : ∀ p m, mailOf s'.events p m = mailOf s.events p m) : Mailboxes s' := by
  refine h.congr (fun p hp => ?_) hmail
  rw [hprocs] at hp ⊢
  exact ⟨hp, fun _ => ⟨rfl, id⟩⟩

theorem setProc (h : Mailboxes s) {p : Slot} {proc : Process}
    (hprocs : s'.procs = Function.update s.procs p proc)
    (hproc : proc.Alive → (s.procs p).Alive ∧
      ∀ m, (proc.mboxes m).messages = ((s.procs p).mboxes m).messages ∧
        ((proc.mboxes m).waiting = true → ((s.procs p).mboxes m).waiting = true))
    (hmail : ∀ p m, mailOf s'.events p m = mailOf s.events p m) : Mailboxes s' := by
  refine h.congr (fun q hq => ?_) hmail
  rw [hprocs] at hq ⊢
  by_cases he : q = p
  · subst he
    rw [Function.update_self] at hq ⊢
    exact hproc hq
  · rw [Function.update_of_ne he] at hq ⊢
    exact ⟨hq, fun _ => ⟨rfl, id⟩⟩

end Mailboxes

theorem mailOf_emit (s : Kernel) (e : Event) (p : Slot) (m : MsgType) :
    mailOf (s.emit e).events p m = (mailOf s.events p m).note p m e := mailOf_append _ _ _ _

theorem Process.deposit_mboxes (proc : Process) (m m' : MsgType) (msg : Message) :
    (proc.deposit m msg).mboxes m' =
      if m' = m then { proc.mboxes m with messages := (proc.mboxes m).messages ++ [msg] }
      else proc.mboxes m' := Function.update_apply _ _ _ _

theorem Process.taken_mboxes (proc : Process) (m m' : MsgType) :
    (proc.taken m).mboxes m' =
      if m' = m then { proc.mboxes m with messages := (proc.mboxes m).messages.tail }
      else proc.mboxes m' := Function.update_apply _ _ _ _

theorem Process.blocked_mboxes (proc : Process) (m m' : MsgType) (maxTime now : Nat)
    (stack : Stack) : (proc.blocked m maxTime now stack).mboxes m' =
      if m' = m then { proc.mboxes m with waiting := true } else proc.mboxes m' :=
  Function.update_apply _ _ _ _

theorem mailOf_taken (events new : List Event) (p q : Slot) (m m' : MsgType) (size : Nat)
    (msg : Option Message) (hnew : ∀ mail : Mail, new.foldl (Mail.note q m') mail = mail) :
    mailOf (events ++ Message.receivedBy p m size msg ++ new) q m' =
      if q = p ∧ m' = m then
        { mailOf events q m' with
          received := (mailOf events q m').received ++ (msg.map (size, ·)).toList }
      else mailOf events q m' := by
  rw [mailOf_append, mailOf_append, hnew]
  cases msg with
  | none => simp [Message.receivedBy]
  | some msg => simp [Message.receivedBy, Mail.note, eq_comm]

theorem Mailboxes.taken {s s' : Kernel} (h : Mailboxes s) {m : MsgType} (size : Nat)
    {stack : Option Stack} (new : List Event) (halive : s.me.Alive)
    (hidle : (s.me.mboxes m).waiting = false)
    (hprocs : s'.procs = Function.update s.procs s.current { s.me.taken m with stack := stack })
    (hevents : s'.events = s.events ++
      Message.receivedBy s.current m size (s.me.firstMessage m size) ++ new)
    (hnew : ∀ q m' (mail : Mail), new.foldl (Mail.note q m') mail = mail) : Mailboxes s' := by
  have hmail (q : Slot) (m' : MsgType) := mailOf_taken s.events new s.current q m m' size
    (s.me.firstMessage m size) (hnew q m')
  have hdelivered := h.delivered s.current m halive
  refine h.setBox (m := m) hprocs halive (fun m' hm => ?_) (fun q m' hq => ?_) ?_ (fun hw => ?_)
  · change ((s.me.taken m).mboxes m').messages = _ ∧ (((s.me.taken m).mboxes m').waiting = true → _)
    rw [Process.taken_mboxes, if_neg hm]
    exact ⟨rfl, id⟩
  · rw [hevents, hmail, if_neg hq]
  · change (mailOf s'.events s.current m).Delivered ((s.me.taken m).mboxes m).messages
    rw [hevents, hmail, if_pos ⟨rfl, rfl⟩, Process.taken_mboxes, if_pos rfl]
    change Mail.Delivered _ (s.me.mboxes m).messages at hdelivered
    unfold Process.firstMessage
    cases hq : (s.me.mboxes m).messages with
    | nil =>
      rw [hq] at hdelivered
      simpa using hdelivered
    | cons msg rest =>
      rw [hq] at hdelivered
      exact hdelivered.take size
  · change ((s.me.taken m).mboxes m).waiting = true at hw
    rw [Process.taken_mboxes, if_pos rfl] at hw
    rw [hidle] at hw
    cases hw

theorem Mailboxes.deposited {s s' : Kernel} (h : Mailboxes s) {p : Slot} {m : MsgType}
    {msg : Message} {proc : Process} (halive : (s.procs p).Alive)
    (hprocs : s'.procs = Function.update s.procs p proc)
    (hbox : ∀ m', (proc.mboxes m').messages = (((s.procs p).deposit m msg).mboxes m').messages ∧
      ((proc.mboxes m').waiting = true → ((s.procs p).mboxes m').waiting = true))
    (hidle : (proc.mboxes m).waiting = false)
    (hevents : s'.events = (s.emit (.accepted p m msg)).events) : Mailboxes s' := by
  refine h.setBox (m := m) hprocs halive (fun m' hm => ?_) (fun q m' hq => ?_) ?_ (fun hw => ?_)
  · obtain ⟨hmsgs, hwait⟩ := hbox m'
    rw [Process.deposit_mboxes, if_neg hm] at hmsgs
    exact ⟨hmsgs, hwait⟩
  · rw [hevents, mailOf_emit, Mail.note, if_neg (fun he => hq ⟨he.1.symm, he.2.symm⟩)]
  · rw [hevents, mailOf_emit, Mail.note, if_pos ⟨rfl, rfl⟩, (hbox m).1, Process.deposit_mboxes,
      if_pos rfl]
    exact (h.delivered p m halive).deposit msg
  · rw [hidle] at hw
    cases hw

theorem Mailboxes.released {s : Kernel} (h : Mailboxes s) (p : Slot) (rest : List Slot) :
    Mailboxes ({ s with runnable := rest }.released p) := by
  refine h.setProc rfl (fun halive => ?_) (fun _ _ => rfl)
  obtain hs | hs := halive <;> cases hs

theorem Mailboxes.posted {s s' : Kernel} (h : Mailboxes s) {p : Slot} {m : MsgType} {msg : Message}
    (hp : Posted s p m msg s') : Mailboxes s' := by
  cases hp with
  | kept halive hidle =>
    refine h.deposited halive rfl (fun m' => ⟨rfl, fun hw => ?_⟩) ?_ rfl
    · rwa [(Process.SameShape.deposit m msg).2.1] at hw
    · rwa [(Process.SameShape.deposit m msg).2.1]
  | woke hstate hwait =>
    have hprocs : ((s.deposited p m msg).awake p).procs =
        Function.update s.procs p ((s.procs p).deposit m msg).woken := by
      simp [Kernel.awake, Kernel.deposited, Kernel.setProc, Kernel.emit]
    refine h.deposited (.inr hstate) hprocs (fun m' => ⟨rfl, fun hw => ?_⟩) rfl rfl
    cases hw

theorem Mailboxes.blocked {s s' : Kernel} (h : Mailboxes s) (proc : Process) {m : MsgType}
    {maxTime now : Nat} {stack : Stack} (hstate : s.me.state = .runnable)
    (hempty : (s.me.mboxes m).messages = []) (hproc : proc.mboxes = s.me.mboxes)
    (hprocs : s'.procs = Function.update s.procs s.current (proc.blocked m maxTime now stack))
    (hmail : ∀ p m, mailOf s'.events p m = mailOf s.events p m) : Mailboxes s' := by
  refine h.setBox (m := m) hprocs (.inl hstate) (fun m' hm => ?_) (fun q m' _ => hmail q m') ?_
    (fun _ => ?_)
  · rw [Process.blocked_mboxes, if_neg hm, hproc]
    exact ⟨rfl, id⟩
  · rw [Process.blocked_mboxes, if_pos rfl, hmail, hproc]
    exact h.delivered s.current m (.inl hstate)
  · rw [Process.blocked_mboxes, if_pos rfl, hproc]
    exact hempty

theorem Mailboxes.born {s s' : Kernel} (h : Mailboxes s) {p : Slot} {pid uid owner : Nat}
    {state : ProcState}
    (hprocs : s'.procs = Function.update s.procs p
      { Process.zero with pid := pid, uid := uid, owner := owner, state := state })
    (hevents : s'.events = (s.emit (.born p pid uid owner)).events) : Mailboxes s' := by
  refine ⟨fun q m hq => ?_, fun q m hq hw => ?_⟩
  · rw [hevents, mailOf_emit, Mail.note]
    rw [hprocs] at hq ⊢
    by_cases hp : q = p
    · subst hp
      rw [if_pos rfl, Function.update_self]
      exact .fresh
    · rw [Function.update_of_ne hp] at hq ⊢
      rw [if_neg (Ne.symm hp)]
      exact h.delivered q m hq
  · rw [hprocs] at hq hw ⊢
    by_cases hp : q = p
    · subst hp
      rw [Function.update_self]
      rfl
    · rw [Function.update_of_ne hp] at hq hw ⊢
      exact h.awake q m hq hw

theorem Move.mailboxes {w : Promise} {f f' : Phase} {s s' : Kernel} (hc : Consistent s)
    (hm : Move w f s f' s') (h : Mailboxes s) : Mailboxes s' := by
  -- a change of the running process outside its mailboxes
  have hme {t : Kernel} {proc : Process} (hprocs : t.procs = Function.update s.procs s.current proc)
      (hstate : proc.state = s.me.state) (hbox : proc.mboxes = s.me.mboxes)
      (hmail : ∀ p m, mailOf t.events p m = mailOf s.events p m) : Mailboxes t := by
    refine h.setProc hprocs (fun halive => ?_) hmail
    rw [Process.Alive, hstate] at halive
    rw [hbox]
    exact ⟨halive, fun _ => ⟨rfl, id⟩⟩
  cases hm with
  | post hposted => exact h.posted hposted
  | @wake _ _ p hstate =>
    refine h.setProc rfl (fun _ => ⟨.inr hstate, fun _ => ⟨rfl, fun hw => ?_⟩⟩) (fun _ _ => rfl)
    cases hw
  | @die _ p =>
    refine h.setProc rfl (fun halive => ?_) (fun q m => ?_)
    · obtain hs | hs := halive <;> cases hs
    · exact mailOf_emit s (.died p (s.procs p).pid (s.procs p).uid) q m
  | release => exact h.released _ s.runnable
  | reap => exact h.released _ _
  | @switch _ next rest =>
    have hpark : Mailboxes (s.parked rest) := by
      unfold Kernel.parked
      split
      · exact h.same rfl (fun _ _ => rfl)
      · exact h.released _ _
      · exact h.same rfl (fun _ _ => rfl)
    exact hpark.same rfl (fun _ _ => rfl)
  | spawn =>
    have hstack : Mailboxes (s.setStack s.current (some ⟨0, .create⟩)) :=
      hme rfl rfl rfl (fun _ _ => rfl)
    exact hstack.born rfl rfl
  | enter => exact hme rfl rfl rfl (fun _ _ => rfl)
  | nest => exact hme rfl rfl rfl (fun _ _ => rfl)
  | leave => exact hme rfl rfl rfl (fun _ _ => rfl)
  | @resume _ m size purpose hstack hstate =>
    refine h.taken size (purpose.answered s.current (s.me.firstMessage m size)) (.inl hstate)
      (hc.idle _ m hstate) rfl rfl (fun q m' mail => ?_)
    cases purpose <;> rfl
  | @take _ m size hstack hstate =>
    have hprocs : (s.taken m size).procs =
        Function.update s.procs s.current { s.me.taken m with stack := s.me.stack } := rfl
    refine h.taken size [] (.inl hstate) (hc.idle _ m hstate) hprocs ?_ (fun _ _ _ => rfl)
    rw [List.append_nil]
    rfl
  | @call _ t q contents server size purpose hstack hstate hposted hpid hself hempty =>
    rw [← hposted.me hself] at hstate hempty
    refine (h.posted hposted).blocked { t.me with server := server } hstate hempty rfl
      (t.called_procs server size purpose) ?_
    exact fun p m => mailOf_emit t (.requested t.current server) p m
  | block hstack hstate hempty => exact h.blocked s.me hstate hempty rfl rfl (fun _ _ => rfl)
  | exec => exact hme rfl rfl rfl (fun _ _ => rfl)
  | takeFrame => exact hme rfl rfl rfl (fun _ _ => rfl)
  | @fill _ page frame contents =>
    exact h.same rfl (fun p m => mailOf_emit s (.filled s.current _ _ page contents) p m)
  | @poke _ virt byte =>
    exact h.same rfl (fun p m => mailOf_emit s (.stored s.current virt byte) p m)
  | @peek _ virt => exact h.same rfl (fun p m => mailOf_emit s (.loaded s.current virt _) p m)
  | swept | keepPage | freePage | termed | shutdown | map | advance | sync =>
    exact h.same rfl (fun _ _ => rfl)

theorem mailboxes_procInitialize (frames : Nat → Page) : Mailboxes (procInitialize frames) := by
  have hprocs (p : Slot) (m : MsgType) :
      (((procInitialize frames).procs p).mboxes m).messages = [] := by
    obtain ⟨pid, owner, state, hp⟩ := procInitialize_fresh frames p
    rw [hp]
    rfl
  have hmail (p : Slot) (m : MsgType) : mailOf (procInitialize frames).events p m = ⟨[], []⟩ := by
    change (if _ then _ else _) = _
    split <;> rfl
  refine ⟨fun p m _ => ?_, fun p m _ _ => hprocs p m⟩
  rw [hprocs, hmail]
  exact .fresh

/-- What a call of `proc_send` does: nothing if it returns `false`, and otherwise the message is
added to the history of the mailbox of the process with the id. -/
def Sends (s : Kernel) : Prop :=
  ∀ srcPid srcUid dstPid m contents,
    Outcome (procSend srcPid srcUid dstPid m contents) (fun r s' =>
      r = false ∧ s' = s ∨ r = true ∧ ∃ p, procFind s dstPid = some p ∧
        s'.events = s.events ++ [.accepted p m ⟨srcPid, srcUid, contents⟩]) (fun _ _ => False) s

/-- What `proc_recv` returns is the event that it adds to the history. -/
def Receipts (s : Kernel) : Prop :=
  ∀ m size, s.me.state = .runnable →
    Outcome (takeMessage m size) (fun r s' =>
      s'.events = s.events ++ Message.receivedBy s.current m size r) (fun _ _ => False) s

theorem Consistent.sends {s : Kernel} (h : Consistent s) : Sends s := by
  intro srcPid srcUid dstPid m contents
  refine (outcome_procSend h srcPid srcUid dstPid m contents).post ?_
  intro r s' hr
  obtain ⟨rfl, rfl, -⟩ | ⟨rfl, p, hfind, hpost⟩ := hr
  · exact .inl ⟨rfl, rfl⟩
  · refine .inr ⟨rfl, p, hfind, ?_⟩
    cases hpost <;> rfl

theorem receipts (s : Kernel) : Receipts s := fun _ _ hs => outcome_takeMessage hs rfl

/-- Along every run, each process has received the first of the messages that were sent to it,
the rest is in its mailbox, and it does not wait while there is one. -/
theorem run_delivers (frames : Nat → Page) (actions : List Action) :
    Outcome (run actions) (fun _ s => Sends s ∧ Receipts s ∧ ∀ p m, (s.procs p).Alive →
        (mailOf s.events p m).Delivered ((s.procs p).mboxes m).messages ∧
        ((s.procs p).state = .waiting → ((s.procs p).mboxes m).waiting = true →
          ((s.procs p).mboxes m).messages = []))
      (fun _ _ => True) (procInitialize frames) := by
  have hrun := outcome_run (I := fun _ => Mailboxes) Move.mailboxes (honored_nothing actions _)
    (atRest_procInitialize frames .nothing) (mailboxes_procInitialize frames)
  refine hrun.mono ?_ (fun _ _ _ => trivial)
  intro _ s hpost
  obtain ⟨hs, hboxes⟩ := hpost
  refine ⟨hs.consistent.sends, receipts s, fun p m hp => ⟨hboxes.delivered p m hp, ?_⟩⟩
  exact fun _ hw => hboxes.awake p m hp hw

end Egos.Grass
