import Egos.Grass.Inbox
import Egos.Grass.Ttysvr

/-!
# The input of the terminal

What becomes of the bytes that are typed when the server runs on the kernel. A reply reaches a reader
that waits for it, and is dropped otherwise; it is lost if the reader dies before it has read it.
Between the deliveries and the requests the kernel does anything else: readers come, wait, read and
die.
-/
namespace Egos.Tty

open Egos.Lib Egos.File
open Egos.Grass (Kernel Halt Given Move Moves Poised Ready)

set_option autoImplicit false

/-- The kernel with a history that it does not keep: the replies that it has accepted. -/
structure Console where
  kernel : Kernel
  given : List Given

def onMachine {α : Type} (m : EStateM Halt Kernel α) : EStateM Halt Console α :=
  onPart Console.kernel (fun c kernel => { c with kernel := kernel }) m

/-- `STAT_INTR`. -/
def statIntr : Int := -3

/-- The kernel that the server with this pid calls, at some time. A `proc_kill` that does not return
has gone into `proc_yield`. -/
def machine (pid now : Nat) : TtyKernel Halt Console where
  procSend dst reply := do
    let c ← get
    if ← onMachine (Grass.procSend pid 0 dst .reply reply) then
      modify fun c' => { c' with given := c'.given ++ ((Grass.procFind c.kernel dst).map fun p =>
        (⟨c'.kernel.events.length, p, reply⟩ : Given)).toList }
  procKill := onMachine do
    let killed ← Grass.procKill pid 0 statIntr
    if killed then
      modify fun s => s.setStack s.current
        (s.me.stack.map fun stack => { stack with nest := stack.nest + 1 })
    return killed
  shutDown := onMachine (modify fun s => { s with shuttingDown := true, curfew := now + 3000 })
  failed := .exit

/-- What happens to the server and the kernel. -/
inductive Step where
  | delivery (keys : List Byte)
  | request (msg : Grass.Message)
  | other (a : Grass.Action)

def Step.keys : Step → List Byte
  | .delivery keys => keys
  | .request _ | .other _ => []

/-- The bytes of the keys, after the corrections. -/
def edited (keys : List Byte) : List Byte := (completed [] keys).flatten ++ unfinished [] keys

/-- The bytes behind the header of a reply. -/
def dataOf (g : Given) : List Byte := g.contents.drop Grass.fileReplySize

/-- Each byte has been given to a reader, waits in a line, or is in the line that is being typed. The
reader has returned with it from its RPC, or will do so when it runs. -/
def Conserved (pid : Nat) (typed : List Byte) (w : Terminal Console) : Prop :=
  edited typed = (w.kernel.given.map dataOf).flatten ++ w.tty.inputs.flatten ++ w.tty.buf ∧
    ∀ g ∈ w.kernel.given, dataOf g = [] ∨ g.fate pid w.kernel.kernel ≠ some .lost

instance (pid : Nat) (typed : List Byte) (w : Terminal Console) :
    Decidable (Conserved pid typed w) := inferInstanceAs (Decidable (_ ∧ _))

section

variable (pid now : Nat)

/-- The handler is called only in a suspension. -/
def Step.perform : Step → TtyM Halt Console Unit
  | .delivery keys => do
    let w ← get
    if w.kernel.kernel.me.stack.isSome then
      ttyDeliver (machine pid now) keys
    else
      throw .disabled
  | .request msg => ttyProc (machine pid now) msg
  | .other a => onKernel (onMachine (Grass.step a))

/-- No byte is lost, before and after everything that happens. -/
def Lossless : List Step → List Byte → Terminal Console → Prop
  | [], typed, w => Conserved pid typed w
  | x :: rest, typed, w => Conserved pid typed w ∧
      Outcome (x.perform pid now) (fun _ w' => Lossless rest (typed ++ x.keys) w')
        (fun _ _ => True) w

instance Lossless.decidable : ∀ steps typed, DecidablePred (Lossless pid now steps typed)
  | [], typed, w => inferInstanceAs (Decidable (Conserved pid typed w))
  | x :: rest, typed, w =>
    have := Lossless.decidable rest (typed ++ x.keys)
    inferInstanceAs (Decidable (Conserved pid typed w ∧
      Outcome (x.perform pid now) (fun _ w' => Lossless pid now rest (typed ++ x.keys) w')
        (fun _ _ => True) w))

/-- A reply of the server reaches `src`, which has room for it. -/
def Hears (s : Kernel) (src size : Nat) : Prop :=
  match Grass.procFind s src with
  | none => False
  | some p => (s.procs p).Hears pid size

instance (s : Kernel) (src size : Nat) : Decidable (Hears pid s src size) :=
  show Decidable (match Grass.procFind s src with
      | none => False
      | some p => (s.procs p).Hears pid size) from
    match Grass.procFind s src with
    | none => inferInstanceAs (Decidable False)
    | some _ => inferInstanceAs (Decidable (_ ∧ _))

/-- The first reader hears, if there is a byte for it. -/
def Serves (s : Kernel) (tty : TtyState) : Prop :=
  match tty.inputs, tty.requests with
  | buf :: _, tr :: _ => buf = [] ∨ tr.size = 0 ∨
      Hears pid s tr.src (Grass.fileReplySize + min buf.length tr.size)
  | _, _ => True

instance (s : Kernel) : ∀ tty : TtyState, Decidable (Serves pid s tty)
  | ⟨_, _, [], _⟩ | ⟨_, [], _ :: _, _⟩ => inferInstanceAs (Decidable True)
  | ⟨_, _ :: _, _ :: _, _⟩ => inferInstanceAs (Decidable (_ ∨ _ ∨ _))

/-- The replies with data that have not been read yet. -/
def Console.unread (c : Console) : List Given :=
  c.given.filter fun g => decide (dataOf g ≠ [] ∧ g.fate pid c.kernel = none)

end

/-- The kernel after the keys that the handler gets to. -/
def TtyKernel.after {ε κ : Type} (k : TtyKernel ε κ) : List Byte → κ → κ
  | [], s => s
  | b :: rest, s =>
    match Key.ofByte b with
    | .intr =>
      match k.procKill s with
      | .ok true s' | .error _ s' => s'
      | .ok false s' => k.after rest s'
    | .quit => k.after rest (final (k.shutDown s))
    | _ => k.after rest s

/-- What must hold before a step so that it loses no byte. The handler is not left in front of keys
that edit the line, the reader whom it or a request serves still waits for the server, and nobody
with an unread reply is killed. `buf` has an unsigned size, and a reply too. -/
def Step.Careful (pid now : Nat) : Step → Terminal Console → Prop
  | .delivery keys, w =>
    (0x03 ∈ keys → ∀ g ∈ w.kernel.unread pid,
      (w.kernel.kernel.procs g.reader).interruptable = false) ∧
    Grass.fileReplySize + w.tty.buf.length + keys.length < 2 ^ 32 ∧
    let handled := (machine pid now).split keys w.kernel
    match handled.2 with
    | some rest =>
      let line := unfinished w.tty.buf handled.1
      completed line rest = [] ∧ unfinished line rest = line
    | none => Serves pid ((machine pid now).after keys w.kernel).kernel (w.tty.typed keys)
  | .request msg, w =>
    let req := FileRequest.ofMemory fun i => msg.contents.getD i 0
    req.type = .read → req.fileNo = 0 → Serves pid w.kernel.kernel
      { w.tty with requests := w.tty.requests ++ [⟨msg.src, req.size.toNat⟩] }
  | .other a, w => ∀ g ∈ w.kernel.unread pid, ¬ a.Endangers w.kernel.kernel g.reader

instance (s : Kernel) (killer pid : Nat) (p : Grass.Slot) : Decidable (s.MayStrike killer pid p) :=
  inferInstanceAs (Decidable ((if pid = 0 then _ else _) ∧ _))

instance (s : Kernel) (p : Grass.Slot) : ∀ a : Grass.Action, Decidable (a.Endangers s p)
  | .kill .. | .handleKill .. => inferInstanceAs (Decidable (s.MayStrike _ _ p))
  | .wake _ => inferInstanceAs (Decidable (_ = true))
  | .create .. | .recv .. | .send .. | .rpc .. | .exit _ | .yield | .shutdown _ | .exec .. | .load _
  | .store .. | .fault _ | .copyFrom _ | .copyTo .. | .sync | .handleSend .. => isFalse id

instance (pid now : Nat) : ∀ (x : Step) (w : Terminal Console), Decidable (x.Careful pid now w)
  | .delivery keys, w =>
    have : Decidable (match ((machine pid now).split keys w.kernel).2 with
        | some rest =>
          completed (unfinished w.tty.buf ((machine pid now).split keys w.kernel).1) rest = [] ∧
            unfinished (unfinished w.tty.buf ((machine pid now).split keys w.kernel).1) rest =
              unfinished w.tty.buf ((machine pid now).split keys w.kernel).1
        | none => Serves pid ((machine pid now).after keys w.kernel).kernel (w.tty.typed keys)) :=
      match ((machine pid now).split keys w.kernel).2 with
      | some _ => inferInstanceAs (Decidable (_ ∧ _))
      | none => inferInstanceAs (Decidable (Serves pid _ _))
    inferInstanceAs (Decidable ((_ → _) ∧ _ ∧ _))
  | .request _, _ => inferInstanceAs (Decidable (_ → _ → Serves pid _ _))
  | .other _, _ => inferInstanceAs (Decidable (∀ g ∈ _, ¬ _))

/-- Each step is careful, of those that the kernel survives. -/
def Attended (pid now : Nat) : List Step → Terminal Console → Prop
  | [], _ => True
  | x :: rest, w => x.Careful pid now w ∧
      Outcome (x.perform pid now) (fun _ w' => Attended pid now rest w') (fun _ _ => True) w

instance Attended.decidable (pid now : Nat) : ∀ steps, DecidablePred (Attended pid now steps)
  | [], _ => inferInstanceAs (Decidable True)
  | x :: rest, w =>
    have := Attended.decidable pid now rest
    inferInstanceAs (Decidable (x.Careful pid now w ∧
      Outcome (x.perform pid now) (fun _ w' => Attended pid now rest w') (fun _ _ => True) w))

/-! ## Typing -/

theorem TtyState.typed_append (tty : TtyState) (keys keys' : List Byte) :
    tty.typed (keys ++ keys') = (tty.typed keys).typed keys' := List.foldl_append

/-- What has been typed before is the line in `buf`, as far as it is not complete. -/
theorem typed_unfinished (keys keys' : List Byte) :
    unfinished [] (keys ++ keys') = unfinished (unfinished [] keys) keys' ∧
      completed [] (keys ++ keys') = completed [] keys ++ completed (unfinished [] keys) keys' := by
  have h := TtyState.typed_append ⟨[], [], [], 0⟩ keys keys'
  rw [TtyState.typed_eq _ (keys ++ keys'), TtyState.typed_eq _ keys', TtyState.typed_eq _ keys] at h
  dsimp only at h
  simp only [List.nil_append, TtyState.mk.injEq] at h
  exact ⟨h.1, h.2.2.1⟩

/-- The kernel is at rest, and each reply with data has been read or is on its way. -/
structure Console.Keeps (c : Console) (pid : Nat) : Prop where
  poised : Poised c.kernel
  safe : ∀ g ∈ c.given, dataOf g ≠ [] → g.Safe pid c.kernel

/-- The lines in the server are those that have been typed and not been given to readers. -/
structure Kept (pid : Nat) (typed : List Byte) (w : Terminal Console) : Prop where
  buf : w.tty.buf = unfinished [] typed
  lines : (w.kernel.given.map dataOf).flatten ++ w.tty.inputs.flatten = (completed [] typed).flatten
  keeps : w.kernel.Keeps pid

section

variable {pid now : Nat} {typed : List Byte} {w : Terminal Console} {c : Console}

theorem Kept.conserved (h : Kept pid typed w) : Conserved pid typed w := by
  refine ⟨?_, fun g hg => ?_⟩
  · unfold edited
    rw [h.buf, h.lines]
  · by_cases hdata : dataOf g = []
    · exact .inl hdata
    · right
      obtain ⟨-, hread | ⟨hnone, -⟩⟩ := h.keeps.safe g hg hdata
      · rw [hread]
        decide
      · rw [hnone]
        decide

theorem Kept.press {keys : List Byte} {w' : Terminal Console} (h : Kept pid typed w)
    (hgiven : w'.kernel.given = w.kernel.given) (hkeeps : w'.kernel.Keeps pid)
    (htty : w'.tty = w.tty.typed keys) : Kept pid (typed ++ keys) w' := by
  obtain ⟨hunfinished, hcompleted⟩ := typed_unfinished typed keys
  rw [TtyState.typed_eq] at htty
  refine ⟨?_, ?_, hkeeps⟩
  · rw [htty, hunfinished, ← h.buf]
  · rw [htty, hgiven, hcompleted, List.flatten_append, List.flatten_append, ← h.lines, ← h.buf,
      List.append_assoc]

/-! ## The kernel -/

theorem mem_unread {g : Given} : g ∈ c.unread pid ↔
    g ∈ c.given ∧ dataOf g ≠ [] ∧ g.fate pid c.kernel = none := by
  rw [Console.unread, List.mem_filter, decide_eq_true_iff]

/-- Moves of the kernel lose no reply if they kill nobody who has one to read. -/
theorem Console.Keeps.moves (h : c.Keeps pid) {s : Kernel}
    (hm : Moves .nothing .idle c.kernel .idle s) (hr : Ready s)
    (hlives : ∀ g ∈ c.unread pid, Grass.Lives g.reader c.kernel s) :
    Console.Keeps { c with kernel := s } pid ∧
      ∀ g ∈ Console.unread pid { c with kernel := s }, g ∈ c.unread pid := by
  refine ⟨⟨h.poised.moves hm hr, fun g hg hdata => ?_⟩, fun g hg => ?_⟩
  · exact hm.safe h.poised.rest.consistent (h.safe g hg hdata) fun hnone =>
      hlives g (mem_unread.mpr ⟨hg, hdata, hnone⟩)
  · obtain ⟨hmem, hdata, hnone⟩ := mem_unread.mp hg
    obtain ⟨new, hnew⟩ := hm.grows
    rw [Given.fate_append (h.safe g hmem hdata).1 hnew.symm, Option.or_eq_none_iff] at hnone
    exact mem_unread.mpr ⟨hmem, hdata, hnone.1⟩

/-! ## Replies -/

theorem FileReply.drop_bytes (rep : FileReply) : rep.bytes.drop Grass.fileReplySize = rep.data := by
  unfold FileReply.bytes
  apply List.drop_left'
  simp [Grass.length_wordBytes, Grass.fileReplySize, FileControlBlock.sizeof]

theorem FileReply.length_bytes (rep : FileReply) :
    rep.bytes.length = Grass.fileReplySize + rep.data.length := by
  unfold FileReply.bytes
  simp [Grass.length_wordBytes, Grass.fileReplySize, FileControlBlock.sizeof]
  omega

theorem Console.Keeps.send (h : c.Keeps pid) {dst : Nat} {rep : FileReply}
    (hears : rep.data = [] ∨ Hears pid c.kernel dst rep.bytes.length) :
    Outcome ((machine pid now).procSend dst rep.bytes) (fun _ c' => c'.Keeps pid ∧
      (c'.given.map dataOf).flatten = (c.given.map dataOf).flatten ++ rep.data)
      (fun _ _ => True) c := by
  have hsent : Outcome (onMachine (Grass.procSend pid 0 dst .reply rep.bytes)) (fun r c' =>
      c'.given = c.given ∧ c'.Keeps pid ∧ (r = false → rep.data = []) ∧
        (r = true → ∃ p, Grass.procFind c.kernel dst = some p ∧ (rep.data ≠ [] →
          (⟨c'.kernel.events.length, p, rep.bytes⟩ : Given).Safe pid c'.kernel)))
      (fun _ _ => True) c := by
    apply outcome_onPart
    have hspares := (@Grass.Spares.send (fun _ _ => False) pid 0 dst .reply rep.bytes) c.kernel
    have hposts : Outcome (Grass.procSend pid 0 dst .reply rep.bytes) _ (fun _ _ => True)
        c.kernel := Grass.outcome_procSend h.poised.rest.consistent pid 0 dst .reply rep.bytes
    have hreaches : Outcome (Grass.procSend pid 0 dst .reply rep.bytes) (fun r s' =>
        rep.data ≠ [] → r = true ∧ ∃ p, Grass.procFind c.kernel dst = some p ∧
          (⟨s'.events.length, p, rep.bytes⟩ : Given).Safe pid s') (fun _ _ => True) c.kernel := by
      by_cases hdata : rep.data = []
      · exact (Outcome.always _).mono (fun _ _ _ hne => absurd hdata hne) (fun _ _ _ => trivial)
      · have hhears := hears.resolve_left hdata
        unfold Hears at hhears
        split at hhears
        · exact hhears.elim
        rename_i p hfind
        exact (h.poised.sends hfind hhears).mono (fun _ _ hr _ => ⟨hr.1, p, hfind, hr.2⟩)
          (fun _ _ _ => trivial)
    refine (hposts.both (hspares.both hreaches)).mono ?_ (fun _ _ _ => trivial)
    intro r s hs
    obtain ⟨hposted, hstrikes, hsafe⟩ := hs
    have hlives (g : Given) : Grass.Lives g.reader c.kernel s := hstrikes.events.lives fun _ => id
    refine ⟨rfl, ?_, fun hr => ?_, fun hr => ?_⟩
    · obtain ⟨-, rfl, -⟩ | ⟨-, p, -, hp⟩ := hposted
      · exact h
      · exact (h.moves (.single (.post hp ⟨fun _ hw => hw, fun _ hw => hw⟩))
          (hp.ready h.poised.rest.ready) fun g _ => hlives g).1
    · by_contra hdata
      exact Bool.false_ne_true (hr.symm.trans (hsafe hdata).1)
    · obtain ⟨hfalse, -⟩ | ⟨-, p, hfind, -⟩ := hposted
      · exact absurd (hfalse.symm.trans hr) Bool.false_ne_true
      · refine ⟨p, hfind, fun hdata => ?_⟩
        obtain ⟨-, q, hq, hsafe⟩ := hsafe hdata
        rw [hfind] at hq
        cases hq
        exact hsafe
  change Outcome (onMachine _ >>= _) _ _ c
  refine hsent.seq fun r c' hr => ?_
  obtain ⟨hgiven, hkeeps, hfalse, htrue⟩ := hr
  cases r with
  | false =>
    refine ⟨hkeeps, ?_⟩
    rw [hfalse rfl, hgiven, List.append_nil]
  | true =>
    obtain ⟨p, hfind, hsafe⟩ := htrue rfl
    rw [if_pos rfl, Outcome.modify_iff, hfind]
    have hdata : dataOf ⟨c'.kernel.events.length, p, rep.bytes⟩ = rep.data := FileReply.drop_bytes rep
    refine ⟨⟨hkeeps.poised, fun g hg hne => ?_⟩, ?_⟩
    · obtain hg | hg := List.mem_append.mp hg
      · exact hkeeps.safe g hg hne
      · cases List.mem_singleton.mp hg
        exact hsafe (hdata ▸ hne)
    · change ((c'.given ++ [_]).map dataOf).flatten = _
      rw [List.map_append, List.flatten_append, hgiven, List.map_singleton, hdata,
        List.flatten_singleton]

theorem outcome_reply (h : w.kernel.Keeps pid) {dst : Nat} {rep : FileReply}
    (hears : rep.data = [] ∨ Hears pid w.kernel.kernel dst rep.bytes.length) :
    Outcome (onKernel ((machine pid now).procSend dst rep.bytes)) (fun _ w' => w'.tty = w.tty ∧
      w'.kernel.Keeps pid ∧ (w'.kernel.given.map dataOf).flatten =
        (w.kernel.given.map dataOf).flatten ++ rep.data) (fun _ _ => True) w := by
  apply outcome_onPart
  exact (h.send hears).post fun _ _ hc => ⟨rfl, hc⟩

theorem Kept.respond (h : Kept pid typed w) (src : Nat) {rep : FileReply} (hrep : rep.data = []) :
    Outcome (onKernel ((machine pid now).procSend src rep.bytes)) (fun _ w' => Kept pid typed w')
      (fun _ _ => True) w := by
  apply (outcome_reply h.keeps (.inl hrep)).post
  intro _ w' hw'
  obtain ⟨htty, hkeeps, hgiven⟩ := hw'
  rw [hrep, List.append_nil] at hgiven
  refine ⟨?_, ?_, hkeeps⟩
  · rw [htty]
    exact h.buf
  · rw [htty, hgiven]
    exact h.lines

theorem Kept.serve (h : Kept pid typed w) (hserves : Serves pid w.kernel.kernel w.tty) :
    Outcome (ttyServe (machine pid now)) (fun _ w' => Kept pid typed w') (fun _ _ => True) w := by
  unfold ttyServe
  rw [Outcome.bind_iff, Outcome.get_iff]
  split
  · rename_i buf inputs tr requests hinputs hrequests
    unfold Serves at hserves
    rw [hinputs, hrequests] at hserves
    have hdata : buf.take (min buf.length tr.size) = [] ∨ Hears pid w.kernel.kernel tr.src
        (FileReply.plain .ok (buf.take (min buf.length tr.size))).bytes.length := by
      rcases hserves with hnil | hzero | hears
      · rw [hnil]
        exact .inl List.take_nil
      · rw [hzero, Nat.min_zero]
        exact .inl List.take_zero
      · right
        rw [FileReply.length_bytes]
        change Hears pid w.kernel.kernel tr.src (_ + (buf.take _).length)
        rwa [List.length_take, Nat.min_eq_left (Nat.min_le_left _ _)]
    have hlines := h.lines
    rw [hinputs, List.flatten_cons, ← List.take_append_drop (min buf.length tr.size) buf] at hlines
    rw [Outcome.bind_iff, outcome_modifyTty]
    unfold ttyHandle
    dsimp only
    refine Outcome.seq (outcome_reply (by exact h.keeps) (by exact hdata)) fun _ w' hw' => ?_
    obtain ⟨htty, hkeeps, hgiven⟩ := hw'
    split
    · rw [outcome_modifyTty]
      refine ⟨?_, ?_, hkeeps⟩
      · rw [htty]
        exact h.buf
      · rw [htty, hgiven, ← hlines]
        change _ ++ List.take _ buf ++ (List.drop _ buf :: inputs).flatten = _
        simp only [List.flatten_cons, List.append_assoc]
    · rename_i hall
      have hdrop : buf.drop (min buf.length tr.size) = [] := List.drop_of_length_le (by omega)
      rw [Outcome.pure_iff]
      refine ⟨?_, ?_, hkeeps⟩
      · rw [htty]
        exact h.buf
      · rw [htty, hgiven, ← hlines, hdrop]
        simp [FileReply.plain]
  · exact h

/-! ## Steps -/

theorem outcome_ttyKeys_kernel {ε κ : Type} (k : TtyKernel ε κ) (keys : List Byte)
    (w : Terminal κ) : Outcome (ttyKeys k keys) (fun _ w' => w'.kernel = k.after keys w.kernel)
      (fun _ _ => True) w := by
  induction keys generalizing w with
  | nil => exact rfl
  | cons b rest ih =>
    unfold ttyKeys TtyKernel.after
    cases hkey : Key.ofByte b with
    | intr =>
      dsimp only
      rw [Outcome.bind_iff]
      apply outcome_onPart
      unfold Outcome
      cases hkill : k.procKill w.kernel with
      | ok killed s =>
        cases killed with
        | true => exact rfl
        | false => exact ih { w with kernel := s }
      | error => trivial
    | quit =>
      dsimp only
      rw [Outcome.bind_iff]
      apply outcome_onPart
      unfold Outcome
      cases hdown : k.shutDown w.kernel with
      | ok _ s => exact ih { w with kernel := s }
      | error => trivial
    | eof | erase | dump | char => exact ih _

/-- Each key is handled or left over. -/
theorem split_append {ε κ : Type} (k : TtyKernel ε κ) (keys : List Byte) (s : κ) :
    (k.split keys s).1 ++ (k.split keys s).2.getD [] = keys := by
  induction keys generalizing s with
  | nil => rfl
  | cons b rest ih =>
    unfold TtyKernel.split
    cases hkey : Key.ofByte b with
    | intr =>
      dsimp only
      cases k.procKill s with
      | ok killed s' =>
        cases killed with
        | true => rfl
        | false => exact congrArg (b :: ·) (ih s')
      | error _ s' => exact congrArg (b :: ·) (ih s')
    | quit => exact congrArg (b :: ·) (ih _)
    | eof | erase | dump | char => exact congrArg (b :: ·) (ih s)

/-- A control-C kills nobody who has a reply to read and may not be interrupted. -/
theorem Console.Keeps.kill (h : c.Keeps pid) (hstack : c.kernel.me.stack ≠ none)
    (hspared : ∀ g ∈ c.unread pid, (c.kernel.procs g.reader).interruptable = false) :
    Outcome ((machine pid now).procKill) (fun _ c' => c'.given = c.given ∧ c'.Keeps pid ∧
      c'.kernel.me.stack ≠ none ∧
        ∀ g ∈ c'.unread pid, (c'.kernel.procs g.reader).interruptable = false)
      (fun _ _ => False) c := by
  apply outcome_onPart
  have hstrikes := @Grass.strikes_procKill (fun q _ => (c.kernel.procs q).interruptable = true)
    c.kernel pid 0 statIntr fun q hq => by simpa [Grass.Kernel.Target] using hq.1
  have hmoves : Outcome (Grass.procKill pid 0 statIntr) _ (fun _ _ => False) c.kernel :=
    Grass.outcome_procKill .nothing h.poised.rest.consistent pid 0 statIntr
  refine ((hmoves.both hstrikes).mono (fun _ _ hs => hs) fun _ _ he => he.1).seq ?_
  intro killed s hs
  obtain ⟨⟨hm, hsteady, -⟩, hstrikes⟩ := hs
  have hstack' : s.me.stack ≠ none := by
    rw [hsteady.stack_me]
    exact hstack
  have hlives (g : Given) (hg : g ∈ c.unread pid) : Grass.Lives g.reader c.kernel s :=
    hstrikes.events.lives fun _ hint => Bool.false_ne_true ((hspared g hg).symm.trans hint)
  have hspared' {t : Kernel} (hsame : ∀ q, (t.procs q).interruptable = (s.procs q).interruptable)
      (hunread : ∀ g ∈ Console.unread pid { c with kernel := t }, g ∈ c.unread pid) :
      ∀ g ∈ Console.unread pid { c with kernel := t },
        (t.procs g.reader).interruptable = false := by
    intro g hg
    rw [hsame, (hstrikes.kept g.reader).2]
    exact hspared g (hunread g hg)
  cases killed with
  | false =>
    obtain ⟨hkeeps, hunread⟩ := h.moves hm (Grass.ready_of_stack hstack') hlives
    exact ⟨rfl, hkeeps, hstack', hspared' (fun _ => rfl) hunread⟩
  | true =>
    obtain ⟨stack, hsome⟩ := Option.ne_none_iff_exists'.mp hstack'
    rw [if_pos rfl, Outcome.bind_iff, Outcome.modify_iff, Outcome.pure_iff, hsome]
    have hnested : (s.setStack s.current (some ⟨stack.nest + 1, stack.call⟩)).me.stack ≠ none := by
      rw [Grass.Kernel.setStack_me]
      simp
    obtain ⟨hkeeps, hunread⟩ := h.moves (hm.step (.nest hsome (.inr rfl)))
      (Grass.ready_of_stack hnested) hlives
    refine ⟨rfl, hkeeps, hnested, hspared' (fun q => ?_) hunread⟩
    rw [Grass.Kernel.setStack, Grass.Kernel.setProc_procs]
    split
    · rename_i hq
      rw [hq]
    · rfl

theorem Console.Keeps.after (h : c.Keeps pid) (hstack : c.kernel.me.stack ≠ none)
    {keys : List Byte} (hspared : 0x03 ∈ keys →
      ∀ g ∈ c.unread pid, (c.kernel.procs g.reader).interruptable = false) :
    ((machine pid now).after keys c).Keeps pid ∧
      ((machine pid now).after keys c).given = c.given := by
  induction keys generalizing c with
  | nil => exact ⟨h, rfl⟩
  | cons b rest ih =>
    have hrest : 0x03 ∈ rest → 0x03 ∈ b :: rest := List.mem_cons_of_mem b
    unfold TtyKernel.after
    cases hkey : Key.ofByte b with
    | intr =>
      have hb : b = 0x03 := by
        unfold Key.ofByte at hkey
        split at hkey
        · assumption
        · split_ifs at hkey
      have hkill : Outcome (machine pid now).procKill _ _ c :=
        h.kill hstack (hspared (hb ▸ List.mem_cons_self))
      dsimp only
      cases hrun : (machine pid now).procKill c with
      | ok killed c' =>
        obtain ⟨hgiven, hkeeps, hstack', hspared'⟩ := hkill.ok hrun
        cases killed with
        | true => exact ⟨hkeeps, hgiven⟩
        | false =>
          obtain ⟨hkeeps', hgiven'⟩ := ih hkeeps hstack' fun _ => hspared'
          exact ⟨hkeeps', hgiven'.trans hgiven⟩
      | error _ c' => exact (hkill.error hrun).elim
    | quit =>
      obtain ⟨hkeeps, hunread⟩ := h.moves (.single (@Grass.Move.shutdown _ _ (now + 3000)))
        (Grass.ready_of_stack hstack) fun _ _ =>
          ⟨[], (List.append_nil _).symm, fun _ _ => List.not_mem_nil⟩
      exact ih hkeeps hstack fun hin g hg => hspared (hrest hin) g (hunread g hg)
    | eof | erase | dump | char => exact ih h hstack fun hin => hspared (hrest hin)

theorem Kept.deliver (h : Kept pid typed w) {keys : List Byte}
    (hstack : w.kernel.kernel.me.stack ≠ none) (hc : (Step.delivery keys).Careful pid now w) :
    Outcome (ttyDeliver (machine pid now) keys) (fun _ w' => Kept pid (typed ++ keys) w')
      (fun _ _ => True) w := by
  have hsplit := split_append (machine pid now) keys w.kernel
  unfold ttyDeliver
  apply ((outcome_ttyKeys _ keys w).both (outcome_ttyKeys_kernel _ keys w)).mono ?_
    (fun _ _ _ => trivial) |> (Outcome.bind_iff _ _).mpr
  intro left w₁ hw₁
  obtain ⟨⟨hleft, htty⟩, hkernel⟩ := hw₁
  obtain ⟨hspared, -, hc⟩ := hc
  have hafter : ((machine pid now).after keys w.kernel).Keeps pid ∧ _ :=
    h.keeps.after hstack hspared
  rw [← hkernel] at hafter
  obtain ⟨hkeeps, hgiven⟩ := hafter
  dsimp only at hc
  rw [← hleft] at hc hsplit
  cases left with
  | some rest =>
    -- the keys behind the last one that was handled do not count
    rw [Option.getD_some] at hsplit
    have hkeys : w₁.tty = w.tty.typed keys := by
      rw [← hsplit, TtyState.typed_append, TtyState.typed_eq _ rest]
      have hbuf : (w.tty.typed (machine pid now |>.split keys w.kernel).1).buf =
          unfinished w.tty.buf ((machine pid now).split keys w.kernel).1 := by
        rw [TtyState.typed_eq]
      rw [hbuf, hc.1, hc.2, List.append_nil, ← hbuf]
      exact htty
    exact h.press hgiven hkeeps hkeys
  | none =>
    rw [Option.getD_none, List.append_nil] at hsplit
    rw [hsplit] at htty
    apply (h.press hgiven hkeeps htty).serve
    rw [hkernel, htty]
    exact hc

theorem Kept.read (h : Kept pid typed w) {req : FileRequest} {src : Nat}
    (hc : req.fileNo = 0 → Serves pid w.kernel.kernel
      { w.tty with requests := w.tty.requests ++ [⟨src, req.size.toNat⟩] }) :
    Outcome (ttyRead (machine pid now) req src) (fun _ w' => Kept pid typed w')
      (fun _ _ => True) w := by
  unfold ttyRead
  split
  · exact h.respond src rfl
  · rename_i hfile
    rw [Outcome.bind_iff, outcome_modifyTty]
    exact Kept.serve ⟨h.buf, h.lines, h.keeps⟩ (hc (not_not.mp hfile))

theorem Kept.request (h : Kept pid typed w) {msg : Grass.Message}
    (hc : (Step.request msg).Careful pid now w) :
    Outcome (ttyProc (machine pid now) msg) (fun _ w' => Kept pid typed w') (fun _ _ => True) w := by
  have hplain {w : Terminal Console} (h : Kept pid typed w) (src : Nat) (status : FileStatus) :
      Outcome (ttyRespond (machine pid now) src status) (fun _ w' => Kept pid typed w')
        (fun _ _ => True) w := h.respond src rfl
  have hrespond := hplain h
  unfold ttyProc
  split
  · trivial
  dsimp only
  split
  · rename_i htype
    exact h.read (hc htype)
  · unfold ttyWrite
    split
    · exact hrespond _ _
    · split
      · exact hrespond _ _
      · exact hrespond _ _
  · exact hrespond _ _
  · exact h.respond _ rfl
  · unfold ttySetFlags
    rw [Outcome.bind_iff, outcome_modifyTty]
    apply hplain
    exact ⟨h.buf, h.lines, h.keeps⟩
  all_goals exact hrespond _ _

theorem Kept.step (h : Kept pid typed w) {x : Step} (hc : x.Careful pid now w) :
    Outcome (x.perform pid now) (fun _ w' => Kept pid (typed ++ x.keys) w') (fun _ _ => True) w := by
  cases x with
  | delivery keys =>
    unfold Step.perform
    rw [Outcome.bind_iff, Outcome.get_iff]
    split
    · rename_i hstack
      exact h.deliver (Option.isSome_iff_ne_none.mp hstack) hc
    · trivial
  | request msg =>
    rw [show Step.keys (.request msg) = [] from rfl, List.append_nil]
    exact h.request hc
  | other a =>
    rw [show Step.keys (.other a) = [] from rfl, List.append_nil]
    obtain ⟨hc', hready, hpending⟩ := h.keeps.poised.rest
    have hmoves : Outcome (Grass.step a) _ (fun _ _ => True) w.kernel.kernel :=
      (Grass.outcome_step hc' hready hpending (Grass.honors_nothing _ a)).mono
        (fun _ _ hs => hs) (fun _ _ _ => trivial)
    have hlives : Outcome (Grass.step a) (fun _ s => ∀ g, g ∈ w.kernel.unread pid →
        Grass.Lives g.reader w.kernel.kernel s) (fun _ _ => True) w.kernel.kernel := by
      refine Outcome.all fun g => ?_
      by_cases hg : g ∈ w.kernel.unread pid
      · obtain ⟨hmem, hdata, hnone⟩ := mem_unread.mp hg
        obtain ⟨-, hread | ⟨-, hholds⟩⟩ := h.keeps.safe g hmem hdata
        · rw [hnone] at hread
          cases hread
        · exact (Grass.outcome_step_lives hc' hready hholds.idle (hc g hg)).post
            fun _ _ hl _ => hl
      · exact (Outcome.always _).post fun _ _ _ hmem => absurd hmem hg
    apply outcome_onPart
    apply outcome_onPart
    refine (hmoves.both hlives).mono (fun _ s hs => ?_) (fun _ _ _ => trivial)
    exact ⟨h.buf, h.lines, (h.keeps.moves hs.1.1 hs.1.2 hs.2).1⟩

theorem Kept.lossless {steps : List Step} (h : Kept pid typed w) (ha : Attended pid now steps w) :
    Lossless pid now steps typed w := by
  induction steps generalizing typed w with
  | nil => exact h.conserved
  | cons x rest ih =>
    obtain ⟨hc, hrest⟩ := ha
    constructor
    · exact h.conserved
    · exact ((h.step hc).both hrest).mono (fun _ _ hw => ih hw.1 hw.2) (fun _ _ _ => trivial)

end

/-- The server at its start, on any kernel. -/
def boot (kernel : Kernel) : Terminal Console := start ⟨kernel, []⟩

/-- If all steps of a run are careful, the terminal loses no input. -/
theorem run_lossless (pid now : Nat) (frames : Nat → Earth.Page) (steps : List Step)
    (ha : Attended pid now steps (boot (Grass.procInitialize frames))) :
    Lossless pid now steps [] (boot (Grass.procInitialize frames)) :=
  Kept.lossless ⟨rfl, rfl, Grass.poised_procInitialize frames, fun _ hg => by cases hg⟩ ha

/-- The process `main` has started the server, which has the pid 2, and a reader, which has the pid 3,
may be interrupted and waits for a line. Then there are keys, and the scheduler runs. -/
def session (keys : List Byte) : List Step :=
  [.other (.create 1 0), .other (.recv .request 0 0 100), .other (.wake 0), .other (.create 1 0),
    .other (.exec true ⟨0, 0⟩ ⟨0, []⟩), .other (.rpc 2 (readRequest 3 80).contents 136),
    .other (.wake 0), .other (.recv .request 0 0 100), .other (.wake 0),
    .request (readRequest 3 80), .other (.recv .request 0 0 100), .delivery keys,
    .other (.wake 0)]

theorem run_lossless_line :
    Attended 2 0 (session [97, 0x0D]) (boot (Grass.procInitialize fun _ _ => 0)) ∧
      Lossless 2 0 (session [97, 0x0D]) [] (boot (Grass.procInitialize fun _ _ => 0)) := by
  have h : Attended 2 0 (session [97, 0x0D]) (boot (Grass.procInitialize fun _ _ => 0)) := by
    decide +kernel
  exact ⟨h, run_lossless 2 0 _ _ h⟩

/-- Control-C kills the reader, and the line goes to nobody. -/
theorem interrupted_loses :
    ¬ Lossless 2 0 (session [0x03, 97, 0x0D]) [] (boot (Grass.procInitialize fun _ _ => 0)) := by
  decide +kernel

end Egos.Tty
