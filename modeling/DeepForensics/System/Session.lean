/-
# Sessions of the whole system

The client, the server and the kernel module put together.  In one round a line is typed and the
client sends the request for it; the bytes that it has sent arrive at the server, which asks the
kernel and writes the reply; and the client receives what the server has written.  Further events
of the connection may follow before that.  When nothing fails in the surroundings, the bytes that
come out of the seven conversions on the way are the bytes of physical memory that were asked for.
-/
import DeepForensics.System.Exchange
import DeepForensics.Client.Main

namespace DeepForensics
namespace System

open Runs Server Queue Conn

/-- What stops a session. -/
inductive Fault where
  | client (f : Client.Fault)
  | server (f : Server.Fault)
  /-- What the client sends in a round does not fit in one pbuf. -/
  | oversize
deriving DecidableEq, Repr

/-- The two ends of a connection. -/
structure Session where
  client : Client.State
  server : World

/-- One round of a session. -/
structure Round where
  /-- The line typed. -/
  line : List UInt8
  /-- Physical memory. -/
  mem : ℕ → UInt8
  /-- The buffer of the request's pbuf behind the request. -/
  room : List UInt8
  /-- What the server finds behind the buffer of the netlink exchange. -/
  behind : List UInt8
  /-- The answers of lwIP when the request arrives. -/
  tcp : TcpEnv
  /-- What lwIP has for the connection after that. -/
  later : List Event
  /-- What `recv` of the client returns. -/
  count : ℕ

/-- The bytes that the client has sent as they arrive at the server, in a single pbuf. -/
def arrival (sent room : List UInt8) (h : sent.length < 2 ^ 16) : Delivery where
  head := ⟨sent ++ room, sent.length, by simp⟩
  rest := []
  total_lt := by simpa using h

/-- The server in a round in which the client has sent these bytes. -/
def serve (w : World) (sent : List UInt8) (t : Round) : Except Fault World :=
  if sent = [] then .ok w
  else if h : sent.length < 2 ^ 16 then
    (exec Server.step w (.recv (arrival sent t.room h) (netlink t.mem t.behind) t.tcp
      :: t.later)).mapError .server
  else .error .oversize

/-- A round of a session: what the client sends goes to the server, and what the server has written
to it comes in before `recv`. -/
def round (s : Session) (t : Round) : Except Fault Session := do
  let p ← (Client.issue s.client t.line true).mapError .client
  let w ← serve s.server (p.1.outgoing.drop s.client.outgoing.length) t
  let incoming := p.1.incoming ++ w.io.written.drop s.server.io.written.length
  .ok ⟨{ p.1 with incoming := incoming }.complete p.2 (some t.count), w⟩

/-- The session after `connect` and `tcp_raw_accept`. -/
def start : Session := ⟨Client.connected [], Server.start⟩

/-! ## One request -/

/-- The round issues the request `r` for readable memory, and nothing fails: the buffer of the
pbuf has 256 bytes, the reply fits the send buffer and is accepted, `recv` returns all of it, and
no more than acknowledgements and timers follow. -/
structure Smooth (t : Round) (r : Client.Request) : Prop where
  accepted : Client.parseInput t.line = .ok (.memDump, r)
  readable : (r.startingAddress + r.length : ℤ) ≤ Kernel.lastReadableAddress
  room : 256 ≤ 8 + t.room.length
  sndbuf : r.length ≤ t.tcp.sndbuf 0
  write : t.tcp.write 0 = .ok
  count : t.count = r.length
  later : ∀ e ∈ t.later, ∃ tcp, e = .sent tcp ∨ e = .poll tcp

/-- The connection is ready for a request. -/
structure Ready (c : Conn) : Prop where
  wf : WF c
  phase : c.phase = .accepted ∨ c.phase = .received []
  nlOpen : c.nlOpen = 0

/-- The request of the client as it arrives. -/
def requestArrival (r : Client.Request) (room : List UInt8) : Delivery :=
  arrival (Client.parsedRequest r) room (by rw [Client.parsedRequest_length]; norm_num)

/-- `do_action` on the request. -/
lemma action_arrival {t : Round} {r : Client.Request} (h : Smooth t r) (n : ℕ) :
    ∃ b, action (netlink t.mem t.behind) 0 (headBuf n (requestArrival r t.room)) = .ok (0, b) ∧
      b.len = r.length ∧ b.bytes = memory t.mem r.startingAddress r.length := by
  obtain ⟨ha, -, hl⟩ := Client.parseInput_memDump h.accepted
  have hl32 : r.length < 2 ^ 32 := lt_of_le_of_lt hl (by unfold Client.maxDataSize; norm_num)
  have hlen : (headBuf n (requestArrival r t.room)).payload.length = 8 + t.room.length := by
    simp [headBuf, requestArrival, arrival]
  have hroom : r.length ≤ (headBuf n (requestArrival r t.room)).payload.length := by
    rw [hlen]
    exact le_trans hl h.room
  have h0 : Wire.word (headBuf n (requestArrival r t.room)).payload 0 = r.startingAddress :=
    word_request_zero ha t.room
  have h1 : Wire.word (headBuf n (requestArrival r t.room)).payload 1 = r.length :=
    word_request_one hl32 t.room
  have hk : (netlink t.mem t.behind).kernel (requestPayload r.startingAddress r.length)
      = memory t.mem r.startingAddress r.length := by
    simp only [netlink, reply_eq_memory t.mem ha hl h.readable, Option.getD_some]
  have hworks : Works (netlink t.mem t.behind) := ⟨rfl, rfl, rfl, rfl⟩
  exact ⟨_, action_request hworks (by rw [hlen]; omega) h0 h1 hk (memory_length _ _ _) hl hroom,
    rfl, List.take_left' (memory_length _ _ _)⟩

/-- A nudge leaves a connection alone that has nothing pending. -/
lemma exec_later {c : Conn} (hwf : WF c) (hph : c.phase = .received []) {es : List Event}
    (h : ∀ e ∈ es, ∃ tcp, e = .sent tcp ∨ e = .poll tcp) :
    exec Server.step c.toWorld es = .ok c.toWorld := by
  induction es with
  | nil => rfl
  | cons e es ih =>
    have hadvance : ∀ tcp, advance tcp c = c := fun tcp => by rw [advance, hph]
    have hstep : Server.step c.toWorld e = .ok c.toWorld := by
      rw [step_toWorld hwf]
      obtain ⟨tcp, rfl | rfl⟩ := h e (List.mem_cons_self ..)
      · rw [Queue.step, hadvance]
        rfl
      · rw [Queue.step, hadvance]
        rfl
    rw [exec_cons_ok hstep]
    exact ih fun e he => h e (List.mem_cons_of_mem _ he)

lemma serve_request (w : World) (r : Client.Request) (t : Round) :
    serve w (Client.parsedRequest r) t
      = (exec Server.step w (.recv (requestArrival r t.room) (netlink t.mem t.behind) t.tcp
          :: t.later)).mapError .server := by
  have hne : Client.parsedRequest r ≠ [] := nofun
  have hlt : (Client.parsedRequest r).length < 2 ^ 16 := by
    rw [Client.parsedRequest_length]
    norm_num
  rw [serve, if_neg hne, dif_pos hlt]
  rfl

/-- **One request.**  A connection that is ready serves the request that the client has sent: it
writes the memory asked for and is ready again. -/
theorem serve_smooth {t : Round} {r : Client.Request} (h : Smooth t r) {c : Conn} (hc : Ready c) :
    ∃ c', serve c.toWorld (Client.parsedRequest r) t = .ok c'.toWorld ∧ Ready c' ∧
      c'.phase = .received [] ∧
      c'.io.written = c.io.written ++ memory t.mem r.startingAddress r.length := by
  obtain ⟨b, hact, hlen, hbytes⟩ := action_arrival h c.nextPtr
  rw [← hc.nlOpen] at hact
  have hsend : send t.tcp 0 [b] = ([b], [], 1, .ok) := by
    rw [send, if_pos (by rw [hlen]; exact h.sndbuf), if_pos h.write]
    rfl
  obtain ⟨c', hstep, hph, hnl, hwritten⟩ : ∃ c',
      Queue.step c (.recv (requestArrival r t.room) (netlink t.mem t.behind) t.tcp) = .ok c' ∧
      c'.phase = .received [] ∧ c'.nlOpen = c.nlOpen ∧
      c'.io.written = c.io.written ++ memory t.mem r.startingAddress r.length := by
    have htake : Queue.step c (.recv (requestArrival r t.room) (netlink t.mem t.behind) t.tcp)
        = take t.tcp (netlink t.mem t.behind) c (requestArrival r t.room) := by
      rcases hc.phase with hph | hph
      · rw [Queue.step, receive, hph]
      · rw [Queue.step, receive, hph]
    refine ⟨sendIn t.tcp (enqueued (delivered c (requestArrival r t.room)) [b]) .received [b],
      ?_, ?_, rfl, ?_⟩
    · rw [htake, take, hact]
      rfl
    · show Phase.received (send t.tcp 0 [b]).2.1 = _
      rw [hsend]
    · show c.io.written ++ dataOf (send t.tcp 0 [b]).1 = _
      rw [hsend, dataOf_cons, dataOf_nil, List.append_nil, hbytes]
  have hwf : WF c' := wf_step c _ c' hc.wf hstep
  refine ⟨c', ?_, ⟨hwf, Or.inr hph, hnl.trans hc.nlOpen⟩, hph, hwritten⟩
  rw [serve_request, exec_cons_ok (by rw [step_toWorld hc.wf, hstep]; rfl),
    exec_later hwf hph h.later]
  rfl

/-! ## Whole sessions -/

/-- The session is between two rounds: the connection is ready, and the client has received all
that was written. -/
structure Between (s : Session) : Prop where
  conn : ∃ c : Conn, s.server = c.toWorld ∧ Ready c
  running : s.client.status = .running
  received : s.client.incoming = []

lemma between_start : Between start where
  conn := ⟨Queue.start, start_toWorld.symm, wf_start, Or.inl rfl, rfl⟩
  running := rfl
  received := rfl

/-- The server waits for the next request. -/
def Waiting (w : World) : Prop := w.es = some ⟨.received, 0, none⟩

/-- **One round**: the memory asked for is printed. -/
theorem round_smooth {t : Round} {r : Client.Request} (h : Smooth t r) {s : Session}
    (hs : Between s) :
    ∃ s' p, round s t = .ok s' ∧ Between s' ∧ Waiting s'.server ∧
      s'.client.screen = s.client.screen ++ [p] ∧ p.request = r ∧
      p.buffer.take r.length = memory t.mem r.startingAddress r.length := by
  obtain ⟨c, hserver, hready⟩ := hs.conn
  obtain ⟨c', hserve, hready', hph, hwritten⟩ := serve_smooth h hready
  -- the bytes that are sent in the round are the request
  have hsent : (s.client.sendRequest r).outgoing.drop s.client.outgoing.length
      = Client.parsedRequest r := List.drop_left
  -- what comes in during the round is the reply, and nothing was left from before
  have hnew : (s.client.sendRequest r).incoming
        ++ c'.toWorld.io.written.drop s.server.io.written.length
      = memory t.mem r.startingAddress r.length := by
    show s.client.incoming ++ _ = _
    rw [hs.received, hserver]
    show [] ++ c'.io.written.drop c.io.written.length = _
    rw [hwritten, List.nil_append, List.drop_left]
  set s₁ : Client.State := { s.client.sendRequest r with
    incoming := memory t.mem r.startingAddress r.length }
  refine ⟨⟨s₁.recvReply r t.count, c'.toWorld⟩,
    ⟨r, Client.recvBuffer t.count (memory t.mem r.startingAddress r.length)⟩,
    ?_, ⟨⟨c', rfl, hready'⟩, hs.running, ?_⟩, ?_, rfl, rfl, ?_⟩
  · rw [round, Client.issue_memDump hs.running h.accepted]
    show (serve s.server ((s.client.sendRequest r).outgoing.drop s.client.outgoing.length) t
      >>= _) = _
    rw [hsent, hserver, hserve, ok_bind]
    dsimp only
    rw [← hserver, hnew]
    rfl
  · show (memory t.mem r.startingAddress r.length).drop t.count = []
    rw [h.count]
    exact List.drop_eq_nil_of_le (memory_length _ _ _).le
  · show c'.phase.es = _
    rw [hph]
    rfl
  · show (Client.recvBuffer t.count _).take r.length = _
    rw [h.count, Client.take_recvBuffer (memory_length _ _ _).ge]
    exact List.take_of_length_le (memory_length _ _ _).le

/-- What a session adds to the screen; the induction is on the rounds, and `Between` carries it. -/
lemma exec_smooth {ts : List Round} {rs : List Client.Request} (h : List.Forall₂ Smooth ts rs) :
    ∀ {s : Session}, Between s → ∃ s', exec round s ts = .ok s' ∧
      s'.client.screen.map Client.Printed.request
        = s.client.screen.map Client.Printed.request ++ rs ∧
      s'.client.screen.map (fun p => p.buffer.take p.request.length)
        = s.client.screen.map (fun p => p.buffer.take p.request.length)
          ++ List.zipWith (fun t r => memory t.mem r.startingAddress r.length) ts rs ∧
      (Waiting s.server ∨ ts ≠ [] → Waiting s'.server) := by
  induction h with
  | nil =>
    intro s _
    exact ⟨s, rfl, by simp, by simp, fun hw => hw.resolve_right fun h => h rfl⟩
  | @cons t r ts rs ht _ ih =>
    intro s hs
    obtain ⟨s₁, p, hround, hbetween, hwait, hscreen, hreq, hbuf⟩ := round_smooth ht hs
    obtain ⟨s', hexec, hreqs, hbufs, hwaits⟩ := ih hbetween
    refine ⟨s', by rw [exec_cons_ok hround, hexec], ?_, ?_, fun _ => hwaits (Or.inl hwait)⟩
    · rw [hreqs, hscreen, List.map_append, List.append_assoc, List.map_singleton, hreq]
      rfl
    · rw [hbufs, hscreen, List.map_append, List.append_assoc, List.map_singleton, hreq, hbuf]
      rfl

/-- **End to end.**  In every session of accepted commands for readable memory in which nothing
fails in the surroundings, the client prints for every command, in order, the bytes of physical
memory that were asked for, and the server waits for the next request. -/
theorem session_dumps {ts : List Round} {rs : List Client.Request}
    (h : List.Forall₂ Smooth ts rs) :
    ∃ s, exec round start ts = .ok s ∧
      s.client.screen.map Client.Printed.request = rs ∧
      s.client.screen.map (fun p => p.buffer.take p.request.length)
        = List.zipWith (fun t r => memory t.mem r.startingAddress r.length) ts rs ∧
      (ts ≠ [] → Waiting s.server) := by
  obtain ⟨s, hexec, hreqs, hbufs, hwait⟩ := exec_smooth h between_start
  exact ⟨s, hexec, hreqs, hbufs, fun hne => hwait (Or.inr hne)⟩

/-- A round with the command `d -a 0x1000 -l 16`, an acknowledgement and a timer. -/
def byLength : Round where
  line := Wire.str ['d', ' ', '-', 'a', ' ', '0', 'x', '1', '0', '0', '0', ' ', '-', 'l', ' ', '1',
    '6']
  mem := fun a => UInt8.ofNat a
  room := List.replicate 248 0
  behind := []
  tcp := roomy 1000
  later := [.sent (roomy 1000), .poll (roomy 1000)]
  count := 16

/-- A round with the command `d -a 4096 -a 0x1010`. -/
def byRange : Round where
  line := Wire.str ['d', ' ', '-', 'a', ' ', '4', '0', '9', '6', ' ', '-', 'a', ' ', '0', 'x', '1',
    '0', '1', '0']
  mem := fun a => UInt8.ofNat (a + 1)
  room := List.replicate 248 0
  behind := []
  tcp := roomy 16
  later := []
  count := 16

/-- The same memory range asked for in both forms, with the memory changed in between. -/
theorem session_dumps_both :
    ∃ s, exec round start [byLength, byRange] = .ok s ∧
      s.client.screen.map Client.Printed.request = [⟨4096, 16⟩, ⟨4096, 16⟩] ∧
      s.client.screen.map (fun p => p.buffer.take p.request.length)
        = [memory (fun a => UInt8.ofNat a) 4096 16, memory (fun a => UInt8.ofNat (a + 1)) 4096 16] ∧
      ([byLength, byRange] ≠ [] → Waiting s.server) := by
  have hfirst : Smooth byLength ⟨4096, 16⟩ := by
    refine ⟨by decide +kernel, by decide, by rw [byLength, List.length_replicate], by decide, rfl,
      rfl, ?_⟩
    intro e he
    rcases List.mem_pair.mp he with rfl | rfl
    · exact ⟨_, Or.inl rfl⟩
    · exact ⟨_, Or.inr rfl⟩
  have hsecond : Smooth byRange ⟨4096, 16⟩ :=
    ⟨by decide +kernel, by decide, by rw [byRange, List.length_replicate], by decide, rfl, rfl,
      nofun⟩
  exact session_dumps (.cons hfirst (.cons hsecond .nil))

end System
end DeepForensics
