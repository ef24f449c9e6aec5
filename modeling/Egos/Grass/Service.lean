import Egos.Grass.Answers

/-!
# A server under the kernel

The kernel together with the code of one server, which takes a request, sends its replies one
after the other, and takes the next request. Between any two of these steps all other
processes run. If the server sends one reply for each request, the reply that ends a call is
the reply to this call.
-/
namespace Egos.Grass

open Egos.Lib Egos.Earth

set_option autoImplicit false

/-- What a server makes of a request: its next state, the replies that it sends, and whether
it has stopped. -/
structure Turn (σ : Type) where
  state : σ
  replies : List Reply
  stopped : Bool

/-- A request that the server has taken, with its state at that time and its replies. -/
structure Taken (σ : Type) where
  msg : Message
  state : σ
  replies : List Reply

/-- The kernel, the server, what it has taken, and the replies that it will send or has sent. -/
structure Service (σ : Type) where
  kernel : Kernel
  state : σ
  stopped : Bool
  log : List (Taken σ)
  todo : List Reply
  sent : List Reply

namespace Service

variable {σ ε : Type}

/-- What `sys_recv`, `sys_send` and the handlers let through. The server with the id `server`
receives only requests, in a buffer of `size` bytes and when it has sent its replies, and it
sends only these. The handlers reply for the servers of the tty and the disk. -/
def permits (server size : Nat) (v : Service σ) : Action → Bool
  | .recv mtype _ _ size' =>
    if v.kernel.me.pid = server then
      decide (mtype = .request) && decide (size' = size) && v.todo.isEmpty && !v.stopped
    else decide (mtype ≠ .reply)
  | .send srcPid srcUid dstPid mtype contents =>
    decide (srcPid = v.kernel.me.pid) && decide (srcUid = v.kernel.me.uid) &&
      if v.kernel.me.pid = server then
        decide (mtype = .reply) && decide (v.todo.head? = some (dstPid, contents))
      else decide (mtype ≠ .request)
  | .handleSend srcPid _ _ mtype _ => decide (mtype = .reply) && decide (srcPid ≠ server)
  | _ => true

/-- The reply that the server sends with this action. -/
def sends (server : Nat) (v : Service σ) : Action → List Reply
  | .send _ _ dstPid .reply contents => if v.kernel.me.pid = server then [(dstPid, contents)] else []
  | _ => []

def take (handle : Message → σ → Turn σ) (v : Service σ) (msg : Message) : Service σ :=
  let turn := handle msg v.state
  { v with
    state := turn.state
    stopped := v.stopped || turn.stopped
    log := v.log ++ [⟨msg, v.state, turn.replies⟩]
    todo := v.todo ++ turn.replies }

/-- One step of the kernel. If it hands a request to the server, the server handles it. -/
def advance (handle : Message → σ → Turn σ) (server size : Nat) (a : Action) (v : Service σ) :
    Option (Service σ) :=
  if v.permits server size a then
    match step a v.kernel with
    | .error _ _ => none
    | .ok _ s =>
      let sent := v.sends server a
      some (((deskOf server s.events).taken.drop v.log.length).foldl (take handle)
        { v with kernel := s, todo := v.todo.drop sent.length, sent := v.sent ++ sent })
  else none

/-- The steps of a run, each with what the server finds in its surroundings. -/
def run (handle : ε → Message → σ → Turn σ) (server size : Nat) (script : List (ε × Action))
    (v : Service σ) : Option (Service σ) :=
  script.foldlM (fun v x => v.advance (handle x.1) server size x.2) v

/-- The kernel at its start, with a server that will begin in this state. -/
def start (frames : Nat → Page) (state : σ) : Service σ where
  kernel := procInitialize frames
  state := state
  stopped := false
  log := []
  todo := []
  sent := []

/-- Every request that the server has taken is answered once, to its sender. -/
def Single (v : Service σ) : Prop := ∀ t ∈ v.log, ∃ bytes, t.replies = [(t.msg.src, bytes)]

/-- The reply that a call of the server returns is the one reply to its own request. -/
def Matching (server : Nat) (v : Service σ) : Prop :=
  ∀ past p reply, past ++ [.answered p server (some reply)] <+: v.kernel.events →
    ∃ k msg size t bytes size', LastCall server k p msg past ∧ v.log[k]? = some t ∧
      t.msg = msg.cut size ∧ t.replies = [(msg.src, bytes)] ∧ reply.contents = bytes.take size'

/-- The server sends one reply for each request, in the order of the requests, and its clients
get the replies that are theirs. -/
structure Disciplined (server : Nat) (v : Service σ) : Prop where
  single : v.Single
  inOrder : v.sent ++ v.todo = v.log.flatMap Taken.replies
  matching : v.Matching server

end Service

/-- Nobody but the server replies in its name, and only `sys_rpc` sends requests. -/
def Promise.serving (server : Nat) : Promise :=
  { Promise.rpc with requestByRpc := True, mute := fun pid => pid = server }

theorem AtRest.weaken {w w' : Promise} {s : Kernel} (h : AtRest w s)
    (hshield : ∀ hdr page, w'.shielded hdr page → w.shielded hdr page) : AtRest w' s := by
  refine ⟨h.consistent, h.ready, fun p nest m size server fault hs => ?_⟩
  obtain ⟨hlegal, hasked⟩ := h.pending p nest m size server fault hs
  exact ⟨⟨hlegal.index, hlegal.low, hlegal.top, fun hw => hlegal.shield (hshield _ _ hw)⟩, hasked⟩

theorem Move.pidGen_le {w : Promise} {f f' : Phase} {s s' : Kernel} (hm : Move w f s f' s') :
    s.pidGen ≤ s'.pidGen := by
  obtain ⟨p, parent, rest, uid, owner, -, -, -, rfl⟩ | ⟨p, -, -, -, rfl⟩ | hk := hm.kept
  · exact Nat.le_succ _
  · exact Nat.le_refl _
  · exact hk.pidGen.ge

namespace Service

variable {σ ε : Type} {handle : ε → Message → σ → Turn σ} {server size : Nat} {v : Service σ}

/-- The server knows its requests, and its replies are to them. -/
structure Sound (handle : ε → Message → σ → Turn σ) (server : Nat) (v : Service σ) : Prop where
  rest : AtRest (.serving server) v.kernel
  answering : Answering server v.sent .idle v.kernel
  log : v.log.map Taken.msg = (deskOf server v.kernel.events).taken
  inOrder : v.sent ++ v.todo = v.log.flatMap Taken.replies
  turns : ∀ t ∈ v.log, ∃ e, t.replies = (handle e t.msg t.state).replies

theorem sends_ne_nil {a : Action} (h : v.sends server a ≠ []) :
    ∃ srcPid srcUid dst contents, a = .send srcPid srcUid dst .reply contents ∧
      v.kernel.me.pid = server := by
  cases a with
  | send srcPid srcUid dst mtype contents =>
    cases mtype with
    | reply =>
      refine ⟨srcPid, srcUid, dst, contents, rfl, ?_⟩
      by_contra hme
      rw [sends, if_neg hme] at h
      exact h rfl
    | request | event => exact absurd rfl h
  | _ => exact absurd rfl h

/-- An action that does not reply in the name of the server keeps the promise. -/
theorem honors {a : Action} (hp : v.permits server size a)
    (hsends : v.sends server a = []) (hids : ∀ owner uid, a = .create owner uid →
      v.kernel.pidGen < 2 ^ 32) : Honors (.serving server) v.kernel a where
  create _ _ _ hw := hw.elim
  ids owner uid ha _ := hids owner uid ha
  recv maxTime now size' ha := by
    subst ha
    simp only [permits] at hp
    split at hp <;> simp at hp
  send src uid dst m contents ha := by
    subst ha
    simp only [permits, Bool.and_eq_true, decide_eq_true_eq] at hp
    obtain ⟨⟨rfl, -⟩, hp⟩ := hp
    split at hp
    · rename_i hme
      simp only [Bool.and_eq_true, decide_eq_true_eq] at hp
      obtain ⟨rfl, -⟩ := hp
      rw [sends, if_pos hme] at hsends
      cases hsends
    · rename_i hme
      rw [decide_eq_true_eq] at hp
      exact ⟨fun _ => hme, fun hm => absurd hm hp⟩
  handleSend src uid dst m contents ha := by
    subst ha
    simp only [permits, Bool.and_eq_true, decide_eq_true_eq] at hp
    obtain ⟨rfl, hne⟩ := hp
    exact ⟨fun _ => hne, by simp⟩
  copy _ _ _ hw := hw
  exec _ _ _ _ := trivial

theorem foldl_take (h : Message → σ → Turn σ) (msgs : List Message) (v : Service σ) :
    (msgs.foldl (take h) v).kernel = v.kernel ∧ (msgs.foldl (take h) v).sent = v.sent ∧
      ∃ new, (msgs.foldl (take h) v).log = v.log ++ new ∧ new.map Taken.msg = msgs ∧
        (msgs.foldl (take h) v).todo = v.todo ++ new.flatMap Taken.replies ∧
        ∀ t ∈ new, t.replies = (h t.msg t.state).replies := by
  induction msgs generalizing v with
  | nil => exact ⟨rfl, rfl, [], by simp, rfl, by simp, by simp⟩
  | cons msg rest ih =>
    obtain ⟨hkernel, hsent, new, hlog, hmsgs, htodo, hturns⟩ := ih (v.take h msg)
    refine ⟨hkernel, hsent, ⟨msg, v.state, (h msg v.state).replies⟩ :: new, ?_, ?_, ?_, ?_⟩
    · rw [List.foldl_cons, hlog]
      simp [take]
    · rw [List.map_cons, hmsgs]
    · rw [List.foldl_cons, htodo]
      simp [take]
    · rintro t ht
      obtain rfl | ht := List.mem_cons.mp ht
      · rfl
      · exact hturns t ht

/-- If every request has one reply, the replies are in the places of the requests. -/
theorem flatMap_single {log : List (Taken σ)}
    (h : ∀ t ∈ log, ∃ bytes, t.replies = [(t.msg.src, bytes)]) {k : Nat} {reply : Reply}
    (hk : (log.flatMap Taken.replies)[k]? = some reply) :
    ∃ t, log[k]? = some t ∧ t.replies = [reply] ∧ reply.1 = t.msg.src := by
  induction log generalizing k with
  | nil => cases hk
  | cons t log ih =>
    obtain ⟨bytes, ht⟩ := h t List.mem_cons_self
    rw [List.flatMap_cons, ht] at hk
    cases k with
    | zero =>
      cases hk
      exact ⟨t, rfl, ht, rfl⟩
    | succ k => exact ih (fun t' ht' => h t' (List.mem_cons_of_mem t ht')) hk

/-- The next reply is for the sender of the request in its turn. -/
theorem Sound.next (h : Sound handle server v) (hsingle : v.Single) {reply : Reply}
    {rest : List Reply} (htodo : v.todo = reply :: rest) {d : Slot}
    (hd : (v.kernel.procs d).Alive) (hpid : (v.kernel.procs d).pid = server) :
    ∃ msg, (requestsTo v.kernel.events d)[v.sent.length]? = some msg ∧ msg.src = reply.1 := by
  have hk : (v.log.flatMap Taken.replies)[v.sent.length]? = some reply := by
    rw [← h.inOrder, htodo, List.getElem?_append_right (Nat.le_refl _), Nat.sub_self]
    rfl
  obtain ⟨t, ht, -, hsrc⟩ := flatMap_single hsingle hk
  obtain ⟨-, htaken⟩ := h.answering.ordered.staffed d hd hpid
  rw [← h.log] at htaken
  have hm : ((mailOf v.kernel.events d .request).received.map Prod.snd)[v.sent.length]? =
      some t.msg := by
    rw [htaken, List.getElem?_map, ht]
    rfl
  obtain ⟨msg, size, hmsg, hcut⟩ := (h.answering.mail.delivered d .request hd).received hm
  exact ⟨msg, hmsg, by rw [hsrc, hcut]; rfl⟩

/-- What the kernel is after a step, with the replies that the server has sent by then. -/
structure After (server : Nat) (v : Service σ) (sent : List Reply) (s : Kernel) : Prop where
  rest : AtRest (.serving server) s
  answering : Answering server sent .idle s
  taken : (deskOf server v.kernel.events).taken <+: (deskOf server s.events).taken

theorem Sound.reply (h : Sound handle server v) (hsingle : v.Single) {srcPid srcUid dst : Nat}
    {contents : List Byte} (hp : v.permits server size (.send srcPid srcUid dst .reply contents))
    (hme : v.kernel.me.pid = server) :
    Outcome (step (.send srcPid srcUid dst .reply contents))
      (fun _ => After server v (v.sent ++ [(dst, contents)])) (fun _ _ => True) v.kernel := by
  simp only [permits, if_pos hme, Bool.and_eq_true, decide_eq_true_eq] at hp
  obtain ⟨⟨rfl, -⟩, -, hhead⟩ := hp
  unfold step
  simp only [Outcome.bind_iff, Outcome.get_iff]
  split
  swap
  · trivial
  rename_i henabled
  have hstack : v.kernel.me.stack = none := by
    simpa [Action.inSuspend] using henabled.symm
  have hr := h.rest.ready.running hstack
  have hc := h.rest.consistent
  unfold Action.perform
  rw [Outcome.bind_iff]
  refine (outcome_procSend hc _ _ _ _ _).post fun r t ht => ?_
  obtain ⟨-, rfl, -⟩ | ⟨-, q, hfind, hposted⟩ := ht
  · exact ⟨h.rest, h.answering.refused _, List.prefix_refl _⟩
  · obtain ⟨rest, htodo⟩ := List.head?_eq_some_iff.mp hhead
    obtain ⟨msg, hmsg, hsrc⟩ := h.next hsingle htodo (d := v.kernel.current) (.inl hr.state) hme
    rw [hme] at hposted
    refine ⟨⟨hc.posted hposted, (hposted.running hr).ready, h.rest.pending.posted hposted⟩,
      h.answering.replied hc (.inl hr.state) hme hmsg hsrc (procFind_some hfind).2 hposted, ?_⟩
    rw [hposted.events, deskOf_append]
    exact List.prefix_refl _

theorem Sound.kernel (h : Sound handle server v) {a : Action} {s : Kernel}
    (hp : v.permits server size a) (hsingle : v.Single) (hids : s.pidGen ≤ 2 ^ 32)
    (hs : step a v.kernel = .ok ⟨⟩ s) :
    After server v (v.sent ++ v.sends server a) s := by
  let taken (s : Kernel) := (deskOf server s.events).taken
  have hservice : ∀ {f f' : Phase} {s s' : Kernel}, Consistent s → Move (.serving server) f s f' s' →
      Answering server v.sent f s ∧ taken v.kernel <+: taken s →
        Answering server v.sent f' s' ∧ taken v.kernel <+: taken s' :=
    fun hc hm ha => ⟨hm.answering trivial trivial trivial rfl hc ha.1,
      ha.2.trans (hm.taken_prefix trivial trivial ha.1.ordered)⟩
  by_cases hsends : v.sends server a = []
  · rw [hsends, List.append_nil]
    by_cases hcreate : ∃ owner uid, a = .create owner uid ∧ 2 ^ 32 ≤ v.kernel.pidGen
    -- all ids are used up
    · obtain ⟨owner, uid, rfl, hfull⟩ := hcreate
      have hsame : Outcome (step (.create owner uid))
          (fun _ s' => s' = v.kernel ∨ s'.pidGen = v.kernel.pidGen + 1) (fun _ _ => True) v.kernel := by
        unfold step
        simp only [Outcome.bind_iff, Outcome.get_iff]
        split
        · rename_i henabled
          have hr := h.rest.ready.running (by simpa [Action.inSuspend] using henabled.symm)
          exact outcome_spawned h.rest.consistent hr (fun _ => .inl rfl) fun _ _ _ _ _ _ => .inr rfl
        · trivial
      obtain rfl | hgen := hsame.ok hs
      · exact ⟨h.rest, h.answering, List.prefix_refl _⟩
      · omega
    · have hhonors : Honors (.serving server) v.kernel a := honors hp hsends fun owner uid ha =>
        Nat.lt_of_not_le fun hle => hcreate ⟨owner, uid, ha, hle⟩
      obtain ⟨hrest, hanswering, htaken⟩ :=
        (outcome_step_keeps hservice hhonors h.rest ⟨h.answering, List.prefix_refl _⟩).ok hs
      exact ⟨hrest, hanswering, htaken⟩
  · obtain ⟨srcPid, srcUid, dst, contents, rfl, hme⟩ := sends_ne_nil hsends
    rw [sends, if_pos hme]
    exact (h.reply hsingle hp hme).ok hs

theorem advance_some {h : Message → σ → Turn σ} {a : Action} {v' : Service σ}
    (hadv : v.advance h server size a = some v') :
    v.permits server size a ∧ ∃ s, step a v.kernel = .ok ⟨⟩ s ∧
      v' = ((deskOf server s.events).taken.drop v.log.length).foldl (take h)
        { v with
          kernel := s
          todo := v.todo.drop (v.sends server a).length
          sent := v.sent ++ v.sends server a } := by
  unfold advance at hadv
  split at hadv
  swap
  · cases hadv
  rename_i hp
  split at hadv
  · cases hadv
  · rename_i s hs
    exact ⟨hp, s, hs, (Option.some.inj hadv).symm⟩

theorem sends_todo {a : Action} (hp : v.permits server size a) :
    v.sends server a ++ v.todo.drop (v.sends server a).length = v.todo := by
  by_cases hsends : v.sends server a = []
  · rw [hsends]
    rfl
  · obtain ⟨srcPid, srcUid, dst, contents, rfl, hme⟩ := sends_ne_nil hsends
    simp only [permits, if_pos hme, Bool.and_eq_true, decide_eq_true_eq] at hp
    obtain ⟨rest, htodo⟩ := List.head?_eq_some_iff.mp hp.2.2
    rw [sends, if_pos hme, htodo]
    rfl

theorem advance_log {h : Message → σ → Turn σ} {a : Action} {v' : Service σ}
    (hadv : v.advance h server size a = some v') : v.log <+: v'.log := by
  obtain ⟨-, s, -, rfl⟩ := advance_some hadv
  obtain ⟨-, -, new, hlog, -⟩ := foldl_take h ((deskOf server s.events).taken.drop v.log.length)
    { v with
      kernel := s
      todo := v.todo.drop (v.sends server a).length
      sent := v.sent ++ v.sends server a }
  rw [hlog]
  exact List.prefix_append _ _

theorem Sound.advance (h : Sound handle server v) {e : ε} {a : Action} {v' : Service σ}
    (hadv : v.advance (handle e) server size a = some v') (hids : v'.kernel.pidGen ≤ 2 ^ 32)
    (hsingle : v.Single) : Sound handle server v' := by
  obtain ⟨hp, s, hs, rfl⟩ := advance_some hadv
  obtain ⟨hkernel, hsent, new, hnew, hmsgs, htodo, hturns⟩ :=
    foldl_take (handle e) ((deskOf server s.events).taken.drop v.log.length)
      { v with
        kernel := s
        todo := v.todo.drop (v.sends server a).length
        sent := v.sent ++ v.sends server a }
  rw [hkernel] at hids
  obtain ⟨hrest, hanswering, htaken⟩ := h.kernel hp hsingle hids hs
  refine ⟨?_, ?_, ?_, ?_, fun t ht => ?_⟩
  · rw [hkernel]
    exact hrest
  · rw [hkernel, hsent]
    exact hanswering
  · obtain ⟨rest, hrest⟩ := htaken
    have hlen : v.log.length = (deskOf server v.kernel.events).taken.length := by
      rw [← h.log, List.length_map]
    rw [hnew, List.map_append, hmsgs, hkernel, h.log, ← hrest, hlen, List.drop_left]
  · rw [hsent, htodo, hnew, List.flatMap_append, ← h.inOrder, ← List.append_assoc,
      List.append_assoc v.sent, sends_todo hp]
  · rw [hnew] at ht
    obtain ht | ht := List.mem_append.mp ht
    · exact h.turns t ht
    · exact ⟨e, hturns t ht⟩

theorem Sound.disciplined (h : Sound handle server v) (hsingle : v.Single) :
    v.Disciplined server := by
  refine ⟨hsingle, h.inOrder, fun past p reply he => ?_⟩
  obtain ⟨k, msg, dst, bytes, size', hlast, hsent, hcut⟩ := h.answering.matched past _ he rfl
  have hk : (v.log.flatMap Taken.replies)[k]? = some (dst, bytes) := by
    rw [← h.inOrder]
    exact getElem?_append_some hsent v.todo
  obtain ⟨t, ht, hreplies, hdst⟩ := flatMap_single hsingle hk
  obtain ⟨rest, hevents⟩ := he
  have hcallAt : CallAt server k p msg v.kernel.events := by
    rw [← hevents, List.append_assoc]
    exact hlast.callAt.append _
  have htaken : (deskOf server v.kernel.events).taken[k]? = some t.msg := by
    rw [← h.log, List.getElem?_map, ht]
    rfl
  obtain ⟨size, hmsg⟩ := h.answering.ordered.known k p msg t.msg hcallAt htaken
  have hsrc : dst = msg.src := by
    rw [show dst = t.msg.src from hdst, hmsg]
    rfl
  exact ⟨k, msg, size, t, bytes, size', hlast, ht, hmsg, hsrc ▸ hreplies, hcut⟩

theorem advance_atRest {h : Message → σ → Turn σ} {a : Action} {v' : Service σ}
    (hv : AtRest .nothing v.kernel) (hadv : v.advance h server size a = some v') :
    AtRest .nothing v'.kernel ∧ v.kernel.pidGen ≤ v'.kernel.pidGen := by
  obtain ⟨-, s, hs, rfl⟩ := advance_some hadv
  rw [(foldl_take h _ _).1]
  exact (outcome_step_keeps (I := fun _ s => v.kernel.pidGen ≤ s.pidGen)
    (fun _ hm hle => hle.trans hm.pidGen_le) (honors_nothing _ a) hv (Nat.le_refl _)).ok hs

theorem run_concat {script : List (ε × Action)} {x : ε × Action} {v' : Service σ}
    (h : v.run handle server size (script ++ [x]) = some v') :
    ∃ u, v.run handle server size script = some u ∧
      u.advance (handle x.1) server size x.2 = some v' := by
  rw [run, List.foldlM_append] at h
  obtain ⟨u, hu, hx⟩ := Option.bind_eq_some_iff.mp h
  rw [List.foldlM_cons] at hx
  obtain ⟨u', hu', hx⟩ := Option.bind_eq_some_iff.mp hx
  cases hx
  exact ⟨u, hu, hu'⟩

theorem run_atRest {frames : Nat → Page} {state : σ} {script : List (ε × Action)}
    (h : (start frames state).run handle server size script = some v) :
    AtRest .nothing v.kernel := by
  induction script using List.reverseRecOn generalizing v with
  | nil =>
    cases h
    exact atRest_procInitialize frames _
  | append_singleton script x ih =>
    obtain ⟨u, hu, hx⟩ := run_concat h
    exact (advance_atRest (ih hu) hx).1

theorem Sound.bounded (h : Sound handle server v) {t : Taken σ} (ht : t ∈ v.log) :
    t.msg.src < v.kernel.pidGen := by
  refine h.answering.ordered.bounded t.msg ?_
  rw [← h.log]
  exact List.mem_map_of_mem ht

/-- A server that answers every request once is sound all along. -/
theorem run_sound {frames : Nat → Page} {state : σ} {script : List (ε × Action)}
    (h : (start frames state).run handle server size script = some v)
    (hids : v.kernel.pidGen ≤ 2 ^ 32)
    (honce : ∀ t ∈ v.log, t.msg.src < 2 ^ 32 → (∃ e, t.replies = (handle e t.msg t.state).replies) →
      ∃ bytes, t.replies = [(t.msg.src, bytes)]) : Sound handle server v ∧ v.Single := by
  induction script using List.reverseRecOn generalizing v with
  | nil =>
    cases h
    exact ⟨⟨atRest_procInitialize frames _, answering_procInitialize server frames,
      (taken_procInitialize server frames).symm, rfl, (by intro _ h; cases h)⟩,
      (by intro _ h; cases h)⟩
  | append_singleton script x ih =>
    obtain ⟨u, hu, hx⟩ := run_concat h
    obtain ⟨-, hle⟩ := advance_atRest (run_atRest hu) hx
    have hlog := advance_log hx
    obtain ⟨hsound, hsingle⟩ := ih hu (hle.trans hids) fun t ht => honce t (hlog.subset ht)
    have hv := hsound.advance hx hids hsingle
    exact ⟨hv, fun t ht => honce t ht ((hv.bounded ht).trans_le hids) (hv.turns t ht)⟩

end Service

end Egos.Grass
