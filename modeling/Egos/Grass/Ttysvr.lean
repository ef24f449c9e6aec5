import Egos.File.Server

/-!
# The terminal server

`ttysvr.c`. The kernel is a parameter: of it the server uses `proc_send`, and `proc_kill` and
`shut_down` when a key asks for them. Queues are lists with their first element in front. What
goes to the screen is left out.
-/
namespace Egos.Tty

open Egos.Lib Egos.File

set_option autoImplicit false

/-- `struct tty_request`. -/
structure TtyRequest where
  src : Nat
  size : Nat

/-- `struct tty_state`; a `struct input` is a list of bytes. -/
structure TtyState where
  buf : List Byte
  requests : List TtyRequest
  inputs : List (List Byte)
  flags : BitVec 64

/-- The functions of the kernel that the server calls, and how the kernel ends after a failed
`assert` of the server. -/
structure TtyKernel (ε κ : Type) where
  /-- `proc_send` of a reply from the server -/
  procSend : Nat → List Byte → EStateM ε κ Unit
  /-- `proc_kill` of the interruptable processes. After `true` it does not return: the handler ran
  on the stack of one of them. -/
  procKill : EStateM ε κ Bool
  shutDown : EStateM ε κ Unit
  failed : ε

structure Terminal (κ : Type) where
  kernel : κ
  tty : TtyState

/-- The cases of `tty_deliver`. -/
inductive Key where
  | intr
  | eof
  | erase
  | dump
  | quit
  | char (c : Byte)

def Key.ofByte (b : Byte) : Key :=
  if b = 0x03 then .intr
  else if b = 0x04 then .eof
  else if b = 0x08 ∨ b = 0x7F then .erase
  else if b = 0x0C then .dump
  else if b = 0x11 then .quit
  else .char (if b = 0x0D then 0x0A else b)

/-- What a key does to the line in `buf` and the complete ones. -/
def TtyState.press (tty : TtyState) : Key → TtyState
  | .eof => { tty with inputs := tty.inputs ++ [tty.buf], buf := [] }
  | .erase => { tty with buf := tty.buf.dropLast }
  | .char c =>
    if c = 0x0A then { tty with inputs := tty.inputs ++ [tty.buf ++ [c]], buf := [] }
    else { tty with buf := tty.buf ++ [c] }
  | .intr | .dump | .quit => tty

variable {ε κ : Type}

abbrev TtyM (ε κ : Type) := EStateM ε (Terminal κ)

def onKernel {α : Type} (m : EStateM ε κ α) : TtyM ε κ α :=
  onPart Terminal.kernel (fun w kernel => { w with kernel := kernel }) m

def modifyTty (f : TtyState → TtyState) : TtyM ε κ Unit :=
  modify fun w => { w with tty := f w.tty }

section

variable (k : TtyKernel ε κ)

/-- `tty_respond` without data. -/
def ttyRespond (src : Nat) (status : FileStatus) : TtyM ε κ Unit :=
  onKernel (k.procSend src (FileReply.plain status []).bytes)

def ttyHandle (tr : TtyRequest) (buf : List Byte) : TtyM ε κ Unit := do
  let n := min buf.length tr.size
  onKernel (k.procSend tr.src (FileReply.plain .ok (buf.take n)).bytes)
  if n < buf.length then
    modifyTty fun tty => { tty with inputs := buf.drop n :: tty.inputs }

/-- The first line for the first request, if there are both. -/
def ttyServe : TtyM ε κ Unit := do
  let w ← get
  match w.tty.inputs, w.tty.requests with
  | buf :: inputs, tr :: requests =>
    modifyTty fun tty => { tty with inputs := inputs, requests := requests }
    ttyHandle k tr buf
  | _, _ => pure ()

/-- The loop of `tty_deliver`. If the handler does not go on behind a key, it answers with the
keys that are left. -/
def ttyKeys : List Byte → TtyM ε κ (Option (List Byte))
  | [] => pure none
  | b :: rest =>
    match Key.ofByte b with
    | .intr => do
      if ← onKernel k.procKill then pure (some rest) else ttyKeys rest
    | .quit => do
      onKernel k.shutDown
      ttyKeys rest
    | key => do
      modifyTty fun tty => tty.press key
      ttyKeys rest

def ttyDeliver (keys : List Byte) : TtyM ε κ Unit := do
  match ← ttyKeys k keys with
  | some _ => pure ()
  | none => ttyServe k

def ttyRead (req : FileRequest) (src : Nat) : TtyM ε κ Unit := do
  if req.fileNo ≠ 0 then
    ttyRespond k src .error
  else
    modifyTty fun tty => { tty with requests := tty.requests ++ [⟨src, req.size.toNat⟩] }
    ttyServe k

def ttyWrite (req : FileRequest) (src size : Nat) : TtyM ε κ Unit :=
  if req.fileNo ≠ 1 ∧ req.fileNo ≠ 2 then ttyRespond k src .error
  else if req.size.toNat ≠ size then ttyRespond k src .error
  else ttyRespond k src .ok

def ttySync (src : Nat) : TtyM ε κ Unit := ttyRespond k src .ok

/-- `P_FILE_ALL`. -/
def permissionAll : BitVec 16 := 0xF

def ttyDoStat (src : Nat) : TtyM ε κ Unit :=
  onKernel (k.procSend src (FileReply.bytes { FileReply.plain .ok [] with
    op := .stat
    fcb := { FileControlBlock.zero with stMode := permissionAll } }))

def ttySetFlags (req : FileRequest) (src : Nat) : TtyM ε κ Unit := do
  modifyTty fun tty => { tty with flags := req.offset }
  ttyRespond k src .ok

/-- One turn of the loop of `tty_proc`. -/
def ttyProc (msg : Grass.Message) : TtyM ε κ Unit :=
  if msg.contents.length < FileRequest.sizeof then throw k.failed
  else
    let req := FileRequest.ofMemory fun i => msg.contents.getD i 0
    match req.type with
    | .read => ttyRead k req msg.src
    | .write => ttyWrite k req msg.src (msg.contents.length - FileRequest.sizeof)
    | .sync => ttySync k msg.src
    | .stat => ttyDoStat k msg.src
    | .setFlags => ttySetFlags k req msg.src
    | .unused | .create | .chown | .chmod | .setsize | .delete => ttyRespond k msg.src .error

end

/-- What happens to the server: its interrupt handler is called, or it receives a request. -/
inductive Happening where
  | delivery (keys : List Byte)
  | request (msg : Grass.Message)

def Happening.handle (k : TtyKernel ε κ) : Happening → TtyM ε κ Unit
  | .delivery keys => ttyDeliver k keys
  | .request msg => ttyProc k msg

/-- The server before the first key and the first request. -/
def start (kernel : κ) : Terminal κ := ⟨kernel, [], [], [], 0⟩

/-! ## The keys of a delivery -/

def TtyState.typed (tty : TtyState) (keys : List Byte) : TtyState :=
  keys.foldl (fun tty b => tty.press (.ofByte b)) tty

/-- The lines that the keys complete, if `buf` has been typed before. -/
def completed (buf keys : List Byte) : List (List Byte) := (TtyState.typed ⟨buf, [], [], 0⟩ keys).inputs

/-- The line that the keys leave behind. -/
def unfinished (buf keys : List Byte) : List Byte := (TtyState.typed ⟨buf, [], [], 0⟩ keys).buf

/-- The keys that the handler gets to, and those that it drops if it is left before. -/
def TtyKernel.split (k : TtyKernel ε κ) : List Byte → κ → List Byte × Option (List Byte)
  | [], _ => ([], none)
  | b :: rest, s =>
    let goOn (s : κ) := (b :: (k.split rest s).1, (k.split rest s).2)
    match Key.ofByte b with
    | .intr =>
      match k.procKill s with
      | .ok true _ => ([b], some rest)
      | .ok false s' | .error _ s' => goOn s'
    | .quit => goOn (final (k.shutDown s))
    | _ => goOn s

theorem TtyState.typed_cons (tty : TtyState) (b : Byte) (rest : List Byte) :
    tty.typed (b :: rest) = (tty.press (.ofByte b)).typed rest := rfl

/-- Keys neither look at the complete lines nor at the rest of the state. -/
theorem TtyState.typed_eq (tty : TtyState) (keys : List Byte) : tty.typed keys = { tty with
    inputs := tty.inputs ++ completed tty.buf keys
    buf := unfinished tty.buf keys } := by
  suffices h : ∀ (inputs : List (List Byte)) (buf : List Byte) (requests : List TtyRequest) flags,
      TtyState.typed ⟨buf, requests, inputs, flags⟩ keys =
        ⟨unfinished buf keys, requests, inputs ++ completed buf keys, flags⟩ from h _ _ _ _
  unfold unfinished completed
  induction keys with
  | nil => intro inputs buf requests flags; simp [TtyState.typed]
  | cons b rest ih =>
    intro inputs buf requests flags
    simp only [TtyState.typed_cons]
    cases Key.ofByte b with
    | eof =>
      simp only [TtyState.press]
      rw [ih, ih [] , ih ([] ++ [buf])]
      simp
    | erase =>
      simp only [TtyState.press]
      rw [ih]
    | char c =>
      simp only [TtyState.press]
      split
      · rw [ih, ih ([] ++ [buf ++ [c]])]
        simp
      · rw [ih]
    | intr | dump | quit =>
      simp only [TtyState.press]
      rw [ih]

theorem outcome_ttyKeys (k : TtyKernel ε κ) (keys : List Byte) (w : Terminal κ) :
    Outcome (ttyKeys k keys) (fun left w' => left = (k.split keys w.kernel).2 ∧
      w'.tty = w.tty.typed (k.split keys w.kernel).1) (fun _ _ => True) w := by
  induction keys generalizing w with
  | nil => exact ⟨rfl, rfl⟩
  | cons b rest ih =>
    -- the rest of the keys, after this one has changed the line
    have hnext {w₁ : Terminal κ} (htty : w₁.tty = w.tty.press (Key.ofByte b)) :
        Outcome (ttyKeys k rest) (fun left w' => left = (k.split rest w₁.kernel).2 ∧
          w'.tty = w.tty.typed (b :: (k.split rest w₁.kernel).1)) (fun _ _ => True) w₁ := by
      refine (ih w₁).post fun left w' h => ⟨h.1, ?_⟩
      rw [h.2, htty, TtyState.typed_cons]
    unfold ttyKeys TtyKernel.split
    cases hkey : Key.ofByte b with
    | intr =>
      dsimp only
      rw [Outcome.bind_iff]
      apply outcome_onPart
      unfold Outcome
      cases hkill : k.procKill w.kernel with
      | ok killed s =>
        cases killed with
        | true =>
          refine ⟨rfl, ?_⟩
          rw [TtyState.typed_cons, hkey]
          rfl
        | false => exact @hnext { w with kernel := s } (by rw [hkey]; rfl)
      | error => trivial
    | quit =>
      dsimp only
      rw [Outcome.bind_iff]
      apply outcome_onPart
      unfold Outcome
      cases hdown : k.shutDown w.kernel with
      | ok _ s => exact @hnext { w with kernel := s } (by rw [hkey]; rfl)
      | error => trivial
    | eof | erase | char => exact hnext (by rw [hkey])
    | dump => exact hnext (by rw [hkey]; rfl)

/-! ## Lines and readers -/

theorem outcome_onKernel {α : Type} (m : EStateM ε κ α) (w : Terminal κ) :
    Outcome (onKernel m) (fun _ w' => w'.tty = w.tty) (fun _ _ => True) w := by
  apply outcome_onPart
  exact (Outcome.always m).mono (fun _ _ _ => rfl) (fun _ _ _ => trivial)

@[simp] theorem outcome_modifyTty (f : TtyState → TtyState) {Q : Unit → Terminal κ → Prop}
    {E : ε → Terminal κ → Prop} {w : Terminal κ} :
    Outcome (modifyTty f) Q E w ↔ Q () { w with tty := f w.tty } := Iff.rfl

/-- What is left of a line that a request has been served with. -/
def TtyRequest.leaves (tr : TtyRequest) (buf : List Byte) : List (List Byte) :=
  if tr.size < buf.length then [buf.drop tr.size] else []

theorem outcome_ttyHandle (k : TtyKernel ε κ) (tr : TtyRequest) (buf : List Byte)
    (w : Terminal κ) : Outcome (ttyHandle k tr buf) (fun _ w' => w'.tty = { w.tty with
      inputs := tr.leaves buf ++ w.tty.inputs }) (fun _ _ => True) w := by
  unfold ttyHandle
  dsimp only
  rw [Outcome.bind_iff]
  refine (outcome_onKernel _ w).post fun _ w₁ h₁ => ?_
  unfold TtyRequest.leaves
  split
  · rename_i hlt
    rw [if_pos (by omega), outcome_modifyTty, h₁, Nat.min_eq_right (by omega)]
    rfl
  · rename_i hge
    rw [if_neg (by omega), Outcome.pure_iff, h₁]
    rfl

/-- Nobody waits for a line while there is one. -/
def Idle (w : Terminal κ) : Prop := w.tty.inputs = [] ∨ w.tty.requests = []

/-- `ttyServe` can make one pair of a line and a request. -/
theorem outcome_ttyServe (k : TtyKernel ε κ) (w : Terminal κ) :
    Outcome (ttyServe k) (fun _ w' => (Idle w ∧ w' = w) ∨ ∃ buf inputs tr requests,
      w.tty.inputs = buf :: inputs ∧ w.tty.requests = tr :: requests ∧ w'.tty = { w.tty with
        inputs := tr.leaves buf ++ inputs
        requests := requests }) (fun _ _ => True) w := by
  unfold ttyServe
  rw [Outcome.bind_iff, Outcome.get_iff]
  split
  · rename_i buf inputs tr requests hinputs hrequests
    rw [Outcome.bind_iff]
    refine (outcome_ttyHandle k tr buf _).post fun _ w' h => ?_
    exact .inr ⟨buf, inputs, tr, requests, hinputs, hrequests, h⟩
  · rename_i hnone
    refine .inl ⟨?_, rfl⟩
    cases hinputs : w.tty.inputs with
    | nil => exact .inl hinputs
    | cons buf inputs =>
      cases hrequests : w.tty.requests with
      | nil => exact .inr hrequests
      | cons tr requests => exact (hnone buf inputs tr requests hinputs hrequests).elim

/-- What a delivery must be like so that no reader is left with a line. Nobody waits, or no line
becomes complete, or the handler comes to its end, and one pair is all that can be made: there is
one reader, or one line that fits the first request. -/
def Conserves (k : TtyKernel ε κ) : Happening → Terminal κ → Prop
  | .request _, _ => True
  | .delivery keys, w =>
    let handled := k.split keys w.kernel
    let lines := completed w.tty.buf handled.1
    w.tty.requests = [] ∨ lines = [] ∨ handled.2 = none ∧ (w.tty.requests.length = 1 ∨
      ∃ line tr requests, lines = [line] ∧ w.tty.requests = tr :: requests ∧ line.length ≤ tr.size)

theorem leaves_eq_nil {tr : TtyRequest} {buf : List Byte} :
    tr.leaves buf = [] ↔ buf.length ≤ tr.size := by
  unfold TtyRequest.leaves
  split
  · rename_i hlt
    exact iff_of_false (by simp) (by omega)
  · rename_i hge
    exact iff_of_true rfl (by omega)

/-- A delivery that comes to its end leaves no reader with a line if and only if it conserves. -/
theorem deliver_idle_iff (k : TtyKernel ε κ) (keys : List Byte) {w : Terminal κ} (h : Idle w) :
    Outcome (ttyDeliver k keys) (fun _ w' => Idle w' ↔ Conserves k (.delivery keys) w)
      (fun _ _ => True) w := by
  unfold ttyDeliver
  rw [Outcome.bind_iff]
  refine (outcome_ttyKeys k keys w).post fun left w₁ h₁ => ?_
  obtain ⟨hleft, htty⟩ := h₁
  rw [TtyState.typed_eq] at htty
  unfold Conserves
  dsimp only
  rw [← hleft]
  generalize completed w.tty.buf (k.split keys w.kernel).1 = lines at *
  generalize unfinished w.tty.buf (k.split keys w.kernel).1 = buf at *
  -- who waited before had no line
  have hinputs : w.tty.requests ≠ [] → w.tty.inputs = [] := fun hne => h.resolve_right hne
  cases hleft' : left with
  | some rest =>
    dsimp only
    rw [Outcome.pure_iff]
    unfold Idle
    rw [htty]
    by_cases hrequests : w.tty.requests = []
    · exact iff_of_true (.inr hrequests) (.inl hrequests)
    · dsimp only
      rw [hinputs hrequests, List.nil_append]
      simp [hrequests]
  | none =>
    dsimp only
    refine (outcome_ttyServe k w₁).post fun _ w' hw' => ?_
    obtain ⟨hidle, rfl⟩ | ⟨line, inputs, tr, requests, hin, hreq, htty'⟩ := hw'
    · refine iff_of_true hidle ?_
      unfold Idle at hidle
      rw [htty] at hidle
      obtain hnil | hnil := hidle
      · exact .inr (.inl (List.append_eq_nil_iff.mp hnil).2)
      · exact .inl hnil
    · rw [htty] at hin hreq
      dsimp only at hin hreq
      have hne : w.tty.requests ≠ [] := by
        rw [hreq]
        simp
      rw [hinputs hne, List.nil_append] at hin
      unfold Idle
      rw [htty', hreq, hin]
      dsimp only
      rw [List.append_eq_nil_iff, leaves_eq_nil]
      constructor
      · rintro (⟨hfits, rfl⟩ | rfl)
        · exact .inr (.inr ⟨rfl, .inr ⟨line, tr, requests, rfl, rfl, hfits⟩⟩)
        · exact .inr (.inr ⟨rfl, .inl rfl⟩)
      · rintro (hnil | hnil | ⟨-, hone | ⟨_, _, _, hline, hrequest, hfits⟩⟩)
        · cases hnil
        · cases hnil
        · exact .inr (List.length_eq_zero_iff.mp (Nat.succ.inj hone))
        · cases hline
          cases hrequest
          exact .inl ⟨hfits, rfl⟩

theorem Idle.of_tty {w w' : Terminal κ} (h : Idle w) (htty : w'.tty = w.tty) : Idle w' := by
  unfold Idle
  rw [htty]
  exact h

/-- A request leaves no reader with a line: if there was a line, nobody else waits for it. -/
theorem read_idle (k : TtyKernel ε κ) (req : FileRequest) (src : Nat) {w : Terminal κ}
    (h : Idle w) : Outcome (ttyRead k req src) (fun _ w' => Idle w') (fun _ _ => True) w := by
  unfold ttyRead
  split
  · exact (outcome_onKernel _ w).post fun _ w' htty => h.of_tty htty
  · rw [Outcome.bind_iff, outcome_modifyTty]
    refine (outcome_ttyServe k _).post fun _ w' hw' => ?_
    obtain ⟨hidle, rfl⟩ | ⟨line, inputs, tr, requests, hin, hreq, htty⟩ := hw'
    · exact hidle
    · dsimp only at hin hreq
      right
      rw [htty]
      obtain hnil | hnil := h
      · rw [hnil] at hin
        cases hin
      · rw [hnil] at hreq
        exact (List.cons.inj hreq).2.symm

theorem request_idle (k : TtyKernel ε κ) (msg : Grass.Message) {w : Terminal κ} (h : Idle w) :
    Outcome (ttyProc k msg) (fun _ w' => Idle w') (fun _ _ => True) w := by
  have hrespond (src : Nat) (status : FileStatus) : Outcome (ttyRespond k src status)
      (fun _ w' => Idle w') (fun _ _ => True) w :=
    (outcome_onKernel _ w).post fun _ w' htty => h.of_tty htty
  unfold ttyProc
  split
  · trivial
  dsimp only
  split
  · exact read_idle k _ _ h
  · unfold ttyWrite
    split
    · exact hrespond _ _
    split
    · exact hrespond _ _
    · exact hrespond _ _
  · exact hrespond _ _
  · exact (outcome_onKernel _ w).post fun _ w' htty => h.of_tty htty
  · unfold ttySetFlags
    rw [Outcome.bind_iff, outcome_modifyTty]
    refine (outcome_onKernel _ _).post fun _ w' htty => ?_
    unfold Idle
    rw [htty]
    exact h
  all_goals exact hrespond _ _

/-- No reader waits while there is a line, before and after everything that happens. -/
def NeverBoth (k : TtyKernel ε κ) : List Happening → Terminal κ → Prop
  | [], w => Idle w
  | x :: rest, w => Idle w ∧
      Outcome (x.handle k) (fun _ w' => NeverBoth k rest w') (fun _ _ => True) w

instance (w : Terminal κ) : Decidable (Idle w) := inferInstanceAs (Decidable (_ ∨ _))

instance NeverBoth.decidable (k : TtyKernel ε κ) : ∀ script, DecidablePred (NeverBoth k script)
  | [], w => inferInstanceAs (Decidable (Idle w))
  | x :: rest, w =>
    have := NeverBoth.decidable k rest
    inferInstanceAs (Decidable (Idle w ∧ Outcome (x.handle k) (fun _ w' => NeverBoth k rest w')
      (fun _ _ => True) w))

/-- Each delivery conserves, of those that the kernel survives. -/
def Conserving (k : TtyKernel ε κ) : List Happening → Terminal κ → Prop
  | [], _ => True
  | x :: rest, w =>
      Outcome (x.handle k) (fun _ w' => Conserves k x w ∧ Conserving k rest w') (fun _ _ => True) w

theorem handle_idle_iff (k : TtyKernel ε κ) (x : Happening) {w : Terminal κ} (h : Idle w) :
    Outcome (x.handle k) (fun _ w' => Idle w' ↔ Conserves k x w) (fun _ _ => True) w := by
  cases x with
  | delivery keys => exact deliver_idle_iff k keys h
  | request msg => exact (request_idle k msg h).post fun _ w' h' => iff_of_true h' trivial

theorem neverBoth_iff (k : TtyKernel ε κ) {script : List Happening} {w : Terminal κ} (h : Idle w) :
    NeverBoth k script w ↔ Conserving k script w := by
  induction script generalizing w with
  | nil => exact iff_of_true h trivial
  | cons x rest ih =>
    have hstep := handle_idle_iff k x h
    unfold NeverBoth Conserving
    constructor
    · rintro ⟨-, hrest⟩
      refine (hstep.both hrest).mono (fun _ w' hw' => ?_) (fun _ _ _ => trivial)
      obtain ⟨hiff, hboth⟩ := hw'
      have hw' : Idle w' := by
        cases rest with
        | nil => exact hboth
        | cons => exact hboth.1
      exact ⟨hiff.mp hw', (ih hw').mp hboth⟩
    · intro hrest
      refine ⟨h, (hstep.both hrest).mono (fun _ w' hw' => ?_) (fun _ _ _ => trivial)⟩
      obtain ⟨hiff, hconserves, hall⟩ := hw'
      exact (ih (hiff.mpr hconserves)).mpr hall

/-- From its start on, the server never leaves a reader with a line if and only if all deliveries
conserve. -/
theorem run_conserving_iff (k : TtyKernel ε κ) (kernel : κ) (script : List Happening) :
    NeverBoth k script (start kernel) ↔ Conserving k script (start kernel) :=
  neverBoth_iff k (.inl rfl)

/-- A kernel in which all readers live forever. -/
def calmKernel : TtyKernel Unit Unit where
  procSend _ _ := pure ()
  procKill := pure false
  shutDown := pure ()
  failed := ()

/-- The request of a reader. -/
def readRequest (src size : Nat) : Grass.Message :=
  ⟨src, 0, FileRequest.bytes ⟨.read, 0, 0, BitVec.ofNat 32 size, 0, 0⟩⟩

/-- Two readers wait, and one delivery brings two lines. -/
theorem second_reader_waits : ¬NeverBoth calmKernel [.request (readRequest 5 80),
    .request (readRequest 6 80), .delivery [97, 13, 98, 13]] (start ()) := by
  decide +kernel

end Egos.Tty
