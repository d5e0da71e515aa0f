/-
# What `do_action` touches

`do_action` takes the length of the reply from the network and copies that many bytes, from a
netlink buffer of `MAX_PAYLOAD` bytes into the pbuf of the request.  Three limits meet there, and
none of them is checked.  The second half follows the netlink socket from one call to the next:
the two early returns of `send_netlink_request` leave it open.
-/
import DeepForensics.Server.Request

namespace DeepForensics
namespace Server

open PtrHeap Wire Runs Queue

/-! ## The accesses -/

/-- The number of bytes copied in a list of accesses. -/
def copied (trace : List ActionAccess) : ℕ :=
  (trace.filter fun x => match x with | .store _ => true | _ => false).length

lemma mem_requestReads {n : ℕ} {x : ActionAccess} :
    x ∈ requestReads n ↔ ∃ i < n, x = .request i := by
  simp only [requestReads, List.mem_map, List.mem_range]
  constructor
  · rintro ⟨i, hi, rfl⟩
    exact ⟨i, hi, rfl⟩
  · rintro ⟨i, hi, rfl⟩
    exact ⟨i, hi, rfl⟩

lemma mem_memcpyTrace {n : ℕ} {x : ActionAccess} :
    x ∈ memcpyTrace n ↔ ∃ i < n, x = .reply i ∨ x = .store i := by
  simp only [memcpyTrace, List.mem_flatMap, List.mem_range, List.mem_cons, List.not_mem_nil,
    or_false]

lemma copied_append (t t' : List ActionAccess) : copied (t ++ t') = copied t + copied t' := by
  simp [copied]

lemma copied_memcpyTrace (n : ℕ) : copied (memcpyTrace n) = n := by
  induction n with
  | zero => rfl
  | succ n ih =>
    have hsucc : memcpyTrace (n + 1) = memcpyTrace n ++ [.reply n, .store n] := by
      simp [memcpyTrace, List.range_succ]
    rw [hsucc, copied_append, ih]
    rfl

/-- The first pbuf of the chain at `es->p`. -/
structure Head (w : World) (ptr : ℕ) (b : Pbuf) : Prop where
  es : ∃ es, w.es = some es ∧ es.p = some ptr
  pbuf : w.heap ptr = some b

section Head

variable {nl : NetlinkEnv} {w : World} {ptr : ℕ} {b : Pbuf}

/-- `do_action` rewrites the length and the payload of the first pbuf. -/
lemma doAction_head (h : Head w ptr b) :
    doAction nl w = (action nl w.nlOpen ⟨ptr, b.payload, b.totLen, b.len⟩).map fun r =>
      { w with
        nlOpen := r.1
        heap := set w.heap ptr { b with len := r.2.len, payload := r.2.payload } } := by
  obtain ⟨⟨es, hes, hp⟩, hb⟩ := h
  simp only [doAction_of_head nl hes hp hb, action]
  split_ifs with hlen
  · rfl
  · cases sendNetlinkRequest nl w.nlOpen (word b.payload 0) (word b.payload 1) with
    | error f => rfl
    | ok r =>
      show (memcpy b.payload r.2 (word b.payload 1)).bind _
        = Except.map _ ((memcpy b.payload r.2 (word b.payload 1)).bind _)
      cases memcpy b.payload r.2 (word b.payload 1) with
      | error f => rfl
      | ok payload => rfl

/-- What is left of a call of `do_action` that returns. -/
lemma doAction_ok {w' : World} (h : Head w ptr b) (hw : doAction nl w = .ok w') :
    ∃ res, sendNetlinkRequest nl w.nlOpen (word b.payload 0) (word b.payload 1)
        = .ok (w'.nlOpen, res) ∧
      ∃ payload, memcpy b.payload res (word b.payload 1) = .ok payload ∧
        w'.heap ptr = some { b with len := u16 (word b.payload 1), payload := payload } := by
  rw [doAction_head h] at hw
  cases ha : action nl w.nlOpen ⟨ptr, b.payload, b.totLen, b.len⟩ with
  | error f =>
    rw [ha] at hw
    cases hw
  | ok r =>
    rw [ha] at hw
    cases hw
    obtain ⟨res, hs, hm, -, -, -, hlen⟩ := action_ok ha
    refine ⟨res, hs, r.2.payload, hm, ?_⟩
    rw [← hlen]
    exact set_same _ _ _

/-- A request that is cut off is read up to the first byte behind the buffer. -/
lemma doActionTrace_short (h : Head w ptr b) (h8 : b.payload.length < 8) :
    doActionTrace nl w = requestReads (b.payload.length + 1) := by
  obtain ⟨⟨es, hes, hp⟩, hb⟩ := h
  simp only [doActionTrace, doActionTraced, hes, hp, hb, if_pos h8]

/-- With a whole request and no socket left open, `do_action` reads the request and copies. -/
lemma doActionTrace_head (h : Head w ptr b) (hn : w.nlOpen = 0) (hw : Works nl)
    (h8 : 8 ≤ b.payload.length) :
    ∃ src, maxPayload ≤ src.length ∧ doActionTrace nl w
      = requestReads 8 ++ (memcpyTraced b.payload (some src) (word b.payload 1)).1 := by
  obtain ⟨⟨es, hes, hp⟩, hb⟩ := h
  refine ⟨recvPayload (requestPayload (word b.payload 0) (word b.payload 1))
    (nl.kernel (requestPayload (word b.payload 0) (word b.payload 1))) ++ nl.behind, ?_, ?_⟩
  · rw [List.length_append, recvPayload_length (requestPayload_length (word_lt _ _) (word_lt _ _))]
    exact Nat.le_add_right _ _
  · simp only [doActionTrace, doActionTraced, hes, hp, hb, hn, if_neg (not_lt.mpr h8),
      sendNetlinkRequest_works hw]

/-- The accesses of a copy that fits both buffers. -/
lemma doActionTrace_of_le (h : Head w ptr b) (hn : w.nlOpen = 0) (hw : Works nl)
    (h8 : 8 ≤ b.payload.length) (hmax : word b.payload 1 ≤ maxPayload)
    (hroom : word b.payload 1 ≤ b.payload.length) :
    doActionTrace nl w = requestReads 8 ++ memcpyTrace (word b.payload 1) := by
  obtain ⟨src, hsrc, htrace⟩ := doActionTrace_head h hn hw h8
  rw [htrace, memcpyTraced_ok (hmax.trans hsrc) hroom]

/-- They by kind: eight bytes of the request, and as many bytes of the reply and of the payload as
the request says. -/
lemma mem_doActionTrace (h : Head w ptr b) (hn : w.nlOpen = 0) (hw : Works nl)
    (h8 : 8 ≤ b.payload.length) (hmax : word b.payload 1 ≤ maxPayload)
    (hroom : word b.payload 1 ≤ b.payload.length) (i : ℕ) :
    (.request i ∈ doActionTrace nl w ↔ i < 8) ∧
      (.reply i ∈ doActionTrace nl w ↔ i < word b.payload 1) ∧
      (.store i ∈ doActionTrace nl w ↔ i < word b.payload 1) := by
  rw [doActionTrace_of_le h hn hw h8 hmax hroom]
  simp only [List.mem_append, mem_requestReads, mem_memcpyTrace]
  refine ⟨?_, ?_, ?_⟩
  · simp
  · simp
  · simp

end Head

/-! ## Bounds -/

/-- `do_action` stays in bounds: it reads the request from `payload[0..len)`, reads the reply
from a buffer of `MAX_PAYLOAD` bytes, writes inside the buffer of the pbuf, and returns with
the number of copied bytes in `len`. -/
structure ActionInBounds (nl : NetlinkEnv) (w : World) (ptr : ℕ) (b : Pbuf) : Prop where
  request : ∀ i, .request i ∈ doActionTrace nl w → i < b.len
  reply : ∀ i, .reply i ∈ doActionTrace nl w → i < maxPayload
  store : ∀ i, .store i ∈ doActionTrace nl w → i < b.payload.length
  len : ∃ w' b', doAction nl w = .ok w' ∧ w'.heap ptr = some b' ∧
    b'.len = copied (doActionTrace nl w)

section Bounds

variable {nl : NetlinkEnv} {w : World} {ptr : ℕ} {b : Pbuf}

/-- With a whole request in its buffer and room for the reply, `do_action` returns. -/
lemma doAction_returns (h : Head w ptr b) (hn : w.nlOpen = 0) (hw : Works nl)
    (h8 : 8 ≤ b.payload.length) (hmax : word b.payload 1 ≤ maxPayload)
    (hroom : word b.payload 1 ≤ b.payload.length) : ∃ w', doAction nl w = .ok w' := by
  have hsrc : word b.payload 1
      ≤ (recvPayload (requestPayload (word b.payload 0) (word b.payload 1))
          (nl.kernel (requestPayload (word b.payload 0) (word b.payload 1)))
        ++ nl.behind).length := by
    rw [List.length_append,
      recvPayload_length (requestPayload_length (word_lt _ _) (word_lt _ _))]
    omega
  rw [doAction_head h, hn, action, if_neg (not_lt.mpr h8), sendNetlinkRequest_works hw]
  show ∃ w', Except.map _ ((memcpy b.payload (some _) (word b.payload 1)).bind _) = .ok w'
  rw [memcpy_some, if_pos ⟨hsrc, hroom⟩]
  exact ⟨_, rfl⟩

/-- **When `do_action` is in bounds.**  It is exactly when the eight bytes of the request are
data of the pbuf, and the length in it exceeds neither the buffer of the netlink exchange nor
the buffer of the pbuf. -/
theorem doAction_inBounds_iff (h : Head w ptr b) (hn : w.nlOpen = 0) (hw : Works nl)
    (hcap : b.len ≤ b.payload.length) :
    ActionInBounds nl w ptr b ↔
      8 ≤ b.len ∧ word b.payload 1 ≤ maxPayload ∧ word b.payload 1 ≤ b.payload.length := by
  constructor
  · rintro ⟨hreq, hreply, hstore, -⟩
    -- a request that is cut off is read beyond its buffer
    have h8 : 8 ≤ b.payload.length := by
      by_contra hlt
      have hlast := hreq b.payload.length (by
        rw [doActionTrace_short h (not_le.mp hlt)]
        exact mem_requestReads.mpr ⟨_, Nat.lt_succ_self _, rfl⟩)
      omega
    obtain ⟨src, hsrc, htrace⟩ := doActionTrace_head h hn hw h8
    rw [htrace] at hreq hreply hstore
    have h7 := hreq 7 (List.mem_append_left _ (mem_requestReads.mpr ⟨7, by norm_num, rfl⟩))
    -- a copy that goes astray leaves the reply, which is longer than `MAX_PAYLOAD`, or the pbuf
    have hfits : word b.payload 1 ≤ src.length ∧ word b.payload 1 ≤ b.payload.length := by
      by_contra hout
      rcases (memcpyTraced_astray hout).2 with hmem | hmem
      · exact absurd (hreply _ (List.mem_append_right _ hmem)) (not_lt.mpr hsrc)
      · exact lt_irrefl _ (hstore _ (List.mem_append_right _ hmem))
    refine ⟨h7, ?_, hfits.2⟩
    by_contra hlt
    have hmem := reply_mem_memcpyTraced (not_le.mp hlt) hsrc ((not_le.mp hlt).le.trans hfits.2)
    exact lt_irrefl _ (hreply maxPayload (List.mem_append_right _ hmem))
  · rintro ⟨h8, hmax, hroom⟩
    have h8' : 8 ≤ b.payload.length := h8.trans hcap
    obtain ⟨w', hw'⟩ := doAction_returns h hn hw h8' hmax hroom
    obtain ⟨-, -, payload, -, hb'⟩ := doAction_ok h hw'
    have htrace := doActionTrace_of_le h hn hw h8' hmax hroom
    have hmem := mem_doActionTrace h hn hw h8' hmax hroom
    constructor
    · exact fun i hi => lt_of_lt_of_le ((hmem i).1.mp hi) h8
    · exact fun i hi => lt_of_lt_of_le ((hmem i).2.1.mp hi) hmax
    · exact fun i hi => lt_of_lt_of_le ((hmem i).2.2.mp hi) hroom
    · have hlt : word b.payload 1 < 2 ^ 16 := lt_of_le_of_lt hmax (by decide)
      refine ⟨w', _, hw', hb', ?_⟩
      rw [htrace, copied_append, copied_memcpyTrace, u16_of_lt hlt]
      exact (Nat.zero_add _).symm

end Bounds

/-- A pbuf is handed to `do_action`: it is the chain of a connection in `ES_RECEIVED`. -/
def handed (w : World) (b : Pbuf) : World :=
  { w with
    es := some ⟨.received, 0, some w.nextPtr⟩
    heap := set w.heap w.nextPtr b
    nextPtr := w.nextPtr + 1 }

lemma head_handed (w : World) (b : Pbuf) : Head (handed w b) w.nextPtr b :=
  ⟨⟨_, rfl, rfl⟩, set_same _ _ _⟩

/-- A request in a pbuf whose buffer goes on with `room`. -/
def requestPbuf (address length : ℕ) (room : List UInt8) : Pbuf :=
  ⟨none, request address length ++ room, 8, 8, 1⟩

/-- A request for 4 bytes is served in bounds. -/
theorem doAction_inBounds_four :
    ActionInBounds (working id) (handed start (requestPbuf 0x1000 4 [])) 0
      (requestPbuf 0x1000 4 []) :=
  (doAction_inBounds_iff (head_handed start _) rfl (works_working id) (by decide)).mpr (by decide)

/-- A request for 300 bytes, in a buffer with room for them, makes `memcpy` read the byte behind
the netlink buffer. -/
theorem doAction_overread :
    ∃ b : Pbuf, b.len = 8 ∧ b.payload.length = 308 ∧
      Head (handed start b) 0 b ∧ .reply 256 ∈ doActionTrace (working id) (handed start b) ∧
      ¬ ActionInBounds (working id) (handed start b) 0 b := by
  have hpay : (requestPbuf 0x1000 300 (List.replicate 300 0)).payload.length = 308 := by
    rw [requestPbuf, List.length_append, List.length_replicate, request_length]
  have hlen : word (requestPbuf 0x1000 300 (List.replicate 300 0)).payload 1 = 300 :=
    word_request_one (by norm_num) _
  have hmem : .reply 256 ∈ doActionTrace (working id)
      (handed start (requestPbuf 0x1000 300 (List.replicate 300 0))) := by
    obtain ⟨src, hsrc, htrace⟩ := doActionTrace_head (head_handed start _) rfl (works_working id)
      (show 8 ≤ (requestPbuf 0x1000 300 (List.replicate 300 0)).payload.length by omega)
    rw [htrace]
    exact List.mem_append_right _ (reply_mem_memcpyTraced (by omega) hsrc (by omega))
  refine ⟨requestPbuf 0x1000 300 (List.replicate 300 0), rfl, hpay, head_handed start _, hmem, ?_⟩
  rintro ⟨-, hreply, -, -⟩
  exact absurd (hreply 256 hmem) (by decide)

/-! ## The netlink socket from call to call -/

/-- A call of `do_action` for a pbuf of its own. -/
structure Call where
  nl : NetlinkEnv
  pbuf : Pbuf

/-- Serve one call. -/
def serveCall (w : World) (c : Call) : Except Fault World := doAction c.nl (handed w c.pbuf)

/-- A netlink exchange is contained: the call of `send_netlink_request` returns with as many
sockets open as before, and if it returns `NULL` then `do_action` leaves the pbuf as it was. -/
def Contained (w : World) (c : Call) : Prop :=
  ∃ res, sendNetlinkRequest c.nl w.nlOpen (word c.pbuf.payload 0) (word c.pbuf.payload 1)
      = .ok (w.nlOpen, res) ∧
    (res = none → ∃ w', serveCall w c = .ok w' ∧ w'.heap w.nextPtr = some c.pbuf)

/-- A contained call leaves no socket open. -/
lemma nlOpen_of_contained {w w' : World} {c : Call} (h : Contained w c)
    (hw : serveCall w c = .ok w') : w'.nlOpen = w.nlOpen := by
  obtain ⟨res, hs, -⟩ := h
  obtain ⟨res', hs', -⟩ := doAction_ok (head_handed w c.pbuf) hw
  change sendNetlinkRequest c.nl w.nlOpen _ _ = _ at hs'
  rw [hs] at hs'
  injection hs' with hs'
  exact (congrArg Prod.fst hs').symm

/-- With no socket left open by others, an exchange is contained exactly when it does not fail:
both early returns leave the socket open. -/
lemma contained_iff {w : World} {c : Call} (h0 : w.nlOpen = 0) (hs : c.nl.socket = true)
    (hb : c.nl.bind = true) : Contained w c ↔ c.nl.sendmsg = true ∧ c.nl.recvmsg = true := by
  constructor
  · rintro ⟨res, h, -⟩
    rw [sendNetlinkRequest, if_neg (by simp [hs]), if_neg (by simp [hb, h0])] at h
    split_ifs at h with hsend hrecv
    · injection h with h
      exact absurd (congrArg Prod.fst h) (Nat.succ_ne_self _)
    · injection h with h
      exact absurd (congrArg Prod.fst h) (Nat.succ_ne_self _)
    · exact ⟨by simpa using hsend, by simpa using hrecv⟩
  · rintro ⟨hsend, hrecv⟩
    obtain ⟨res, hres⟩ : ∃ res, sendNetlinkRequest c.nl 0 (word c.pbuf.payload 0)
        (word c.pbuf.payload 1) = .ok (0, some res) :=
      ⟨_, sendNetlinkRequest_works ⟨hs, hb, hsend, hrecv⟩ _ _⟩
    refine ⟨some res, ?_, fun hnone => absurd hnone (Option.some_ne_none res)⟩
    rw [h0]
    exact hres

/-- **When netlink failures are contained.**  In a sequence of calls whose sockets can be opened,
every exchange is contained exactly when no `sendmsg` and no `recvmsg` fails. -/
theorem exchanges_contained_iff {w : World} {cs : List Call} (h0 : w.nlOpen = 0)
    (hopen : ∀ c ∈ cs, c.nl.socket = true ∧ c.nl.bind = true) :
    Along serveCall Contained w cs ↔
      Along serveCall (fun _ c => c.nl.sendmsg = true ∧ c.nl.recvmsg = true) w cs := by
  refine along_congr (I := fun w => w.nlOpen = 0) (fun w c hw hc => contained_iff hw hc.1 hc.2)
    (fun w c w' hw hc hs => ?_) h0 hopen
  rw [nlOpen_of_contained hc hs, hw]

/-- A call for a request of `length` bytes. -/
def requestCall (nl : NetlinkEnv) (length : ℕ) : Call := ⟨nl, requestPbuf 0x1000 length []⟩

/-- Two calls that work are both served. -/
theorem exchanges_contained_two :
    Along serveCall Contained start [requestCall (working id) 4, requestCall (working id) 8] ∧
      view World.nlOpen serveCall start
        [requestCall (working id) 4, requestCall (working id) 8] = some 0 := by
  refine ⟨(exchanges_contained_iff rfl ?_).mpr ?_, by decide +kernel⟩
  · intro c hc
    simp only [List.mem_cons, List.not_mem_nil, or_false] at hc
    rcases hc with rfl | rfl
    · exact ⟨rfl, rfl⟩
    · exact ⟨rfl, rfl⟩
  · exact ⟨⟨rfl, rfl⟩, fun _ _ => ⟨⟨rfl, rfl⟩, fun _ _ => trivial⟩⟩

/-- The answers of an exchange whose `recvmsg` fails. -/
def lost : NetlinkEnv := { working id with recvmsg := false }

/-- One failed `recvmsg` is not contained: a request for no bytes leaves the socket open and the
next call exits, and a request for 4 bytes copies from `NULL`. -/
theorem exchange_not_contained :
    (∀ c ∈ [requestCall lost 0, requestCall (working id) 4],
      c.nl.socket = true ∧ c.nl.bind = true) ∧
    ¬ Along serveCall Contained start [requestCall lost 0, requestCall (working id) 4] ∧
    fault serveCall start [requestCall lost 0, requestCall (working id) 4] = some .exited ∧
    fault serveCall start [requestCall lost 4] = some .nullCopy := by
  refine ⟨?_, ?_, by decide +kernel, by decide +kernel⟩
  · intro c hc
    simp only [List.mem_cons, List.not_mem_nil, or_false] at hc
    rcases hc with rfl | rfl
    · exact ⟨rfl, rfl⟩
    · exact ⟨rfl, rfl⟩
  · rintro ⟨⟨res, h, -⟩, -⟩
    injection h with h
    exact absurd (congrArg Prod.fst h) (Nat.succ_ne_self _)

end Server
end DeepForensics
