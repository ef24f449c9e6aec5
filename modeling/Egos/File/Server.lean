import Egos.Grass.Service
import Egos.File.Replies

/-!
# The block file server under the kernel

The requests and replies as the bytes of kernel messages, and `blkfile_proc` as a server of the
kernel. The calls of its block server can fail in any pattern, and between them its clients
run.
-/
namespace Egos.File

open Egos.Lib Egos.Disk Bfs

set_option autoImplicit false

/-- The constants of `enum file_op`. -/
def FileOp.code : FileOp → Nat
  | .unused => 0
  | .create => 1
  | .chown => 2
  | .chmod => 3
  | .read => 4
  | .write => 5
  | .stat => 6
  | .setsize => 7
  | .delete => 8
  | .sync => 9
  | .setFlags => 10

/-- Every other value is treated as `FILE_UNUSED`. -/
def FileOp.ofCode : Nat → FileOp
  | 1 => .create
  | 2 => .chown
  | 3 => .chmod
  | 4 => .read
  | 5 => .write
  | 6 => .stat
  | 7 => .setsize
  | 8 => .delete
  | 9 => .sync
  | 10 => .setFlags
  | _ => .unused

/-- `sizeof(struct file_request)`. -/
def FileRequest.sizeof : Nat := 32

/-- The request that lies in memory at `bytes`. -/
def FileRequest.ofMemory (bytes : Buffer) : FileRequest where
  type := .ofCode (ofBytes bytes 4)
  fileNo := BitVec.ofNat 32 (ofBytes (fun i => bytes (4 + i)) 4)
  offset := BitVec.ofNat 64 (ofBytes (fun i => bytes (8 + i)) 8)
  size := BitVec.ofNat 32 (ofBytes (fun i => bytes (16 + i)) 4)
  uid := BitVec.ofNat 32 (ofBytes (fun i => bytes (20 + i)) 4)
  mode := BitVec.ofNat 16 (ofBytes (fun i => bytes (24 + i)) 2)

/-- The memory image. -/
def FileRequest.bytes (req : FileRequest) : List Byte :=
  Grass.wordBytes req.type.code ++ Grass.wordBytes req.fileNo.toNat ++
    (List.range 8).map (byteOf req.offset.toNat) ++ Grass.wordBytes req.size.toNat ++
    Grass.wordBytes req.uid.toNat ++ (List.range 2).map (byteOf req.mode.toNat) ++
    List.replicate 6 0

def FileStatus.code : FileStatus → Nat
  | .ok => 0
  | .error => 1

/-- The reply as a message, with the padding in front of the control block. -/
def FileReply.bytes (rep : FileReply) : List Byte :=
  Grass.wordBytes rep.status.code ++ Grass.wordBytes rep.fileNo.toNat ++
    Grass.wordBytes rep.op.code ++ List.replicate 4 0 ++
    (List.range FileControlBlock.sizeof).map rep.fcb.byte ++ rep.data

/-- What `sys_recv` has put into `req`, `src` and `uid`. -/
def ofKernel (msg : Grass.Message) : Message where
  src := BitVec.ofNat 32 msg.src
  uid := BitVec.ofNat 32 msg.uid
  request :=
    if msg.contents.length < FileRequest.sizeof then none
    else some (.ofMemory fun k => msg.contents.getD k 0)
  payload := msg.contents.drop FileRequest.sizeof

/-- One turn of the loop of `blkfile_proc`, with the replies that it sends. -/
def turn (fails : Faults) (env : Env) (msg : Grass.Message) (w : World FaultyDisk) :
    Grass.Turn (World FaultyDisk) :=
  let replies (w' : World FaultyDisk) : List Grass.Reply :=
    (w'.outbox.drop w.outbox.length).map fun r => (r.1.toNat, r.2.bytes)
  match serve (faulty fails) env (ofKernel msg) w with
  | .ok _ w' => ⟨w', replies w', false⟩
  | .error _ w' => ⟨w', replies w', true⟩

/-- The receive buffer of `blkfile_proc`. -/
def requestBuffer : Nat := FileRequest.sizeof + fileMaxMsgSize

theorem turn_replies {fails : Faults} {env : Env} {msg : Grass.Message} {w : World FaultyDisk}
    (hsrc : msg.src < 2 ^ 32) (hanswered : ¬Unanswered fails w (ofKernel msg)) :
    ∃ bytes, (turn fails env msg w).replies = [(msg.src, bytes)] := by
  have hserve : Outcome (serve (faulty fails) env (ofKernel msg)) _ _ w := serve_replies
  unfold turn
  cases hm : serve (faulty fails) env (ofKernel msg) w with
  | error e w' => exact absurd (hserve.error hm) hanswered
  | ok _ w' =>
    obtain ⟨-, sent, hout, hlen, hdst⟩ | ⟨hu, -⟩ := hserve.ok hm
    · obtain ⟨r, rfl⟩ := List.length_eq_one_iff.mp hlen
      refine ⟨r.2.bytes, ?_⟩
      dsimp only
      rw [hout, List.drop_left, List.map_singleton, hdst r List.mem_cons_self]
      simpa [ofKernel] using hsrc
    · exact absurd hu hanswered

/-- As long as no request is `Unanswered` and the ids have not wrapped, the server sends one
reply for each request, and the reply that a call returns is the reply to this call. -/
theorem replies_answer_calls (fails : Faults) (server : Nat) (frames : Nat → Earth.Page)
    (world : World FaultyDisk) (script : List (Env × Grass.Action))
    {v : Grass.Service (World FaultyDisk)}
    (hrun : (Grass.Service.start frames world).run (turn fails) server requestBuffer script = some v)
    (hids : v.kernel.pidGen ≤ 2 ^ 32)
    (hanswered : ∀ t ∈ v.log, ¬Unanswered fails t.state (ofKernel t.msg)) :
    v.Disciplined server := by
  obtain ⟨hsound, hsingle⟩ := Grass.Service.run_sound hrun hids fun t ht hsrc hturn => by
    obtain ⟨env, hreplies⟩ := hturn
    rw [hreplies]
    exact turn_replies hsrc (hanswered t ht)
  exact hsound.disciplined hsingle

/-- A booted server with one file, under the kernel at its start. -/
def bootedService (fails : Faults) : Grass.Service (World FaultyDisk) :=
  .start (fun _ _ => 0) (final ((do
    boot (faulty fails) testEnv
    serveAll (faulty fails) [testRequest .create 0 0 []]) (newFaultyDisk 0 0 4)))

/-- The first process creates the server, which waits for a request. -/
def startup : List Grass.Action := [.create 1 0, .recv .request 0 0 requestBuffer, .wake 0]

/-- The first process calls the server, and gets this reply before the server does anything else. -/
def exchange (type : FileOp) (rep : FileReply) : List Grass.Action :=
  [.rpc 2 (FileRequest.bytes ⟨type, 1, 0, 0, 0, 0⟩) 4096, .wake 0, .send 2 0 1 .reply rep.bytes,
    .yield, .wake 0]

/-- A block server that refuses to change the size of a file. -/
def refusesSetsize : Faults := fun call _ => call == .setsize

theorem replies_answer_calls_sync : ∃ v,
    (bootedService refusesSetsize).run (turn refusesSetsize) 2 requestBuffer
      ((startup ++ exchange .sync (.plain .ok [])).map (testEnv, ·)) = some v ∧
        v.sent.length = 1 ∧ v.Disciplined 2 := by
  have hrun : ((bootedService refusesSetsize).run (turn refusesSetsize) 2 requestBuffer
      ((startup ++ exchange .sync (.plain .ok [])).map (testEnv, ·))).map (fun v =>
        (v.sent.length, v.kernel.pidGen,
          v.log.map fun t => (ofKernel t.msg).request.map FileRequest.type)) =
      some (1, 3, [some .sync]) := by
    decide +kernel
  obtain ⟨v, hv, hmap⟩ := Option.map_eq_some_iff.mp hrun
  obtain ⟨hsent, hrest⟩ := Prod.mk.inj hmap
  obtain ⟨hgen, hlog⟩ := Prod.mk.inj hrest
  refine ⟨v, hv, hsent, replies_answer_calls refusesSetsize 2 _ _ _ hv (by rw [hgen]; decide) ?_⟩
  intro t ht hu
  have htype : (ofKernel t.msg).request.map FileRequest.type ∈ [some .sync] :=
    hlog ▸ List.mem_map_of_mem ht
  obtain ⟨req, hreq, hsync⟩ := Option.map_eq_some_iff.mp (List.mem_singleton.mp htype)
  have hfalse := (unanswered_iff hreq).mp hu
  rw [hsync] at hfalse
  exact hfalse

/-- The process whose call of the server returned a reply, if the event is this. -/
def served (server : Nat) : Grass.Event → Option Grass.Slot
  | .answered p server' (some _) => if server' = server then some p else none
  | _ => none

/-- The server reports that it could not truncate a file that it deletes, and then success. The
client calls again, and gets this second reply before the server takes the new request. -/
theorem next_call_gets_stale_reply : ∃ v,
    (bootedService refusesSetsize).run (turn refusesSetsize) 2 requestBuffer
      ((startup ++ exchange .delete (.plain .error []) ++ exchange .stat (.plain .ok [])).map
        (testEnv, ·)) = some v ∧ v.kernel.pidGen ≤ 2 ^ 32 ∧ ¬v.Single ∧ ¬v.Matching 2 := by
  let main : Grass.Slot := ⟨0, by decide⟩
  have hrun : ((bootedService refusesSetsize).run (turn refusesSetsize) 2 requestBuffer
      ((startup ++ exchange .delete (.plain .error []) ++ exchange .stat (.plain .ok [])).map
        (testEnv, ·))).map (fun v => (v.kernel.pidGen, v.log.map fun t => t.replies.length,
          (v.kernel.events.drop 12).map (served 2), Grass.clients 2 (v.kernel.events.take 12))) =
      some (3, [2], [some main], [main, main]) := by
    decide +kernel
  obtain ⟨v, hv, hmap⟩ := Option.map_eq_some_iff.mp hrun
  obtain ⟨hgen, hrest⟩ := Prod.mk.inj hmap
  obtain ⟨hlog, hrest⟩ := Prod.mk.inj hrest
  obtain ⟨hevents, hclients⟩ := Prod.mk.inj hrest
  obtain ⟨t, ht, hreplies⟩ := List.map_eq_singleton_iff.mp hlog
  obtain ⟨e, he, hanswer⟩ := List.map_eq_singleton_iff.mp hevents
  refine ⟨v, hv, by rw [hgen]; decide, fun hsingle => ?_, fun hmatching => ?_⟩
  · obtain ⟨bytes, hone⟩ := hsingle t (by rw [ht]; exact List.mem_singleton.mpr rfl)
    rw [hone] at hreplies
    cases hreplies
  · obtain ⟨reply, rfl⟩ : ∃ reply, e = .answered main 2 (some reply) := by
      unfold served at hanswer
      split at hanswer
      · rename_i p server reply
        split at hanswer
        · rename_i hserver
          cases hanswer
          exact ⟨reply, by rw [hserver]⟩
        · cases hanswer
      · cases hanswer
    obtain ⟨k, _, _, t', _, _, hlast, ht', _⟩ := hmatching (v.kernel.events.take 12) main reply
      ⟨[], by rw [List.append_nil, ← he, List.take_append_drop]⟩
    -- it is the second call, but only one request has been taken
    have hsecond : Grass.LastAt (Grass.clients 2 (v.kernel.events.take 12)) main 1 := by
      rw [hclients]
      exact .last [main] main
    have hk : k = 1 := hlast.lastAt.unique hsecond
    rw [hk, ht] at ht'
    cases ht'

end Egos.File
