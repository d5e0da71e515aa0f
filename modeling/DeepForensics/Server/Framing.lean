/-
# Requests and TCP deliveries

A client sends requests of 8 bytes, one after the other, and TCP cuts the stream where it
likes.  The server treats a delivery as one request, and only when nothing is pending; what
arrives while a reply waits is appended to the output as it is.  So the output consists of the
replies, in order, when every delivery is one whole request that finds nothing pending and the
kernel's reply to it has the length asked for, and not in general.
-/
import DeepForensics.Server.Window
import DeepForensics.Server.Fifo

namespace DeepForensics
namespace Server

open PtrHeap Wire Runs Queue

/-- A well-formed request with the dump that is obtained for it. -/
structure Exchange where
  address : ℕ
  length : ℕ
  reply : List UInt8
  address_lt : address < 2 ^ 32
  length_pos : 1 ≤ length
  length_le : length ≤ 256

/-- The dump has the length asked for: it is shorter for a range that is not readable to its
end. -/
def Exchange.Whole (x : Exchange) : Prop := x.reply.length = x.length

/-- What the client sends. -/
def stream (xs : List Exchange) : List UInt8 := xs.flatMap fun x => request x.address x.length

/-- What the client is to receive. -/
def replies (xs : List Exchange) : List UInt8 := xs.flatMap Exchange.reply

/-- The delivery goes on in the stream where the deliveries so far have left off, and the kernel
answers the request that is due with its dump. -/
def Carries (xs : List Exchange) (w : World) : Event → Prop
  | .recv d nl _ =>
      d.bytes <+: (stream xs).drop (delivered w.io.wnd) ∧ Works nl ∧
        ∀ x, xs[delivered w.io.wnd / 8]? = some x →
          nl.kernel (requestPayload x.address x.length) = x.reply
  | _ => True

/-- The delivery finds nothing pending, its first pbuf has 8 bytes, which are all, and the dump for
the request that is due has the length asked for. -/
def OneRequest (xs : List Exchange) (w : World) : Event → Prop
  | .recv d _ _ => Takes w ∧ d.head.len = 8 ∧ d.total = 8 ∧
      ∀ x, xs[delivered w.io.wnd / 8]? = some x → x.Whole
  | _ => True

/-- What is written is the beginning of the replies; with what is pending it is the replies to
all that was delivered, unless the connection has failed. -/
structure Framed (xs : List Exchange) (w : World) : Prop where
  beginning : w.io.written <+: replies xs
  complete : w.io.errors = 0 →
    w.io.written ++ World.dataOf w.chain = replies (xs.take (delivered w.io.wnd / 8))

section Stream

variable {xs : List Exchange}

lemma stream_drop (xs : List Exchange) (k : ℕ) : (stream xs).drop (8 * k) = stream (xs.drop k) := by
  induction k generalizing xs with
  | zero => simp
  | succ k ih =>
    cases xs with
    | nil => simp [stream]
    | cons x xs =>
      have hcons : stream (x :: xs) = request x.address x.length ++ stream xs := rfl
      rw [List.drop_succ_cons, ← ih, hcons, Nat.mul_succ, Nat.add_comm, ← List.drop_drop,
        List.drop_left' (request_length x.address x.length)]

/-- Eight bytes at a boundary of the stream are a request. -/
lemma request_at_boundary {bs : List UInt8} {k : ℕ} (h : bs <+: (stream xs).drop (8 * k))
    (hlen : bs.length = 8) :
    ∃ x, xs[k]? = some x ∧ bs = request x.address x.length := by
  rw [stream_drop] at h
  cases hd : xs.drop k with
  | nil =>
    rw [hd] at h
    have := List.prefix_nil.mp h
    rw [this] at hlen
    cases hlen
  | cons x rest =>
    rw [hd] at h
    refine ⟨x, ?_, ?_⟩
    · have := congrArg List.head? hd
      rwa [List.head?_drop] at this
    · exact (List.prefix_iff_eq_take.mp h).trans (by
        rw [hlen]
        exact List.take_left' (request_length x.address x.length))

lemma replies_take_succ {k : ℕ} {x : Exchange} (h : xs[k]? = some x) :
    replies (xs.take (k + 1)) = replies (xs.take k) ++ x.reply := by
  rw [List.take_add_one, h]
  simp [replies]

lemma replies_take_le (xs : List Exchange) (k : ℕ) : replies (xs.take k) <+: replies xs := by
  conv_rhs => rw [← List.take_append_drop k xs]
  exact ⟨replies (xs.drop k), (List.flatMap_append).symm⟩

end Stream

namespace Queue

open Conn

/-- A served request: the reply stands in the buffer, and no socket is left open. -/
lemma action_exchange {nl : NetlinkEnv} {b b' : Buf} {n : ℕ} {x : Exchange} (hw : Works nl)
    (hb : ∃ room, b.payload = request x.address x.length ++ room)
    (hk : nl.kernel (requestPayload x.address x.length) = x.reply) (hx : x.Whole)
    (h : action nl 0 b = .ok (n, b')) : n = 0 ∧ b'.bytes = x.reply := by
  obtain ⟨room, hb⟩ := hb
  have h0 : word b.payload 0 = x.address := by rw [hb]; exact word_request_zero x.address_lt room
  have h1 : word b.payload 1 = x.length := by
    rw [hb]
    exact word_request_one (lt_of_le_of_lt x.length_le (by norm_num)) room
  -- the copy has not left the buffer
  have hroom : x.length ≤ b.payload.length := by
    obtain ⟨res, hres, hcopy, _⟩ := action_ok h
    rw [h0, h1, sendNetlinkRequest_works hw] at hres
    cases hres
    rw [h1, memcpy_some] at hcopy
    split_ifs at hcopy with hle
    exact hle.2
  rw [action_request hw (by rw [hb]; simp) h0 h1 hk hx x.length_le hroom] at h
  cases h
  refine ⟨rfl, ?_⟩
  rw [Buf.bytes, List.take_left' hx]

/-- The abstract connection in step with the stream. -/
structure InStep (xs : List Exchange) (c : Conn) : Prop where
  nlOpen : c.nlOpen = 0
  boundary : ∃ k, delivered c.io.wnd = 8 * k
  beginning : c.io.written <+: replies xs
  complete : c.io.errors = 0 →
    c.io.written ++ dataOf c.phase.pending = replies (xs.take (delivered c.io.wnd / 8))

lemma inStep_start (xs : List Exchange) : InStep xs start :=
  ⟨rfl, ⟨0, rfl⟩, List.nil_prefix, fun _ => rfl⟩

variable {xs : List Exchange}

/-- A step that keeps the books and the data apart from moving it to the output. -/
lemma InStep.of_eq {c c' : Conn} (h : InStep xs c) (hnl : c'.nlOpen = c.nlOpen)
    (hd : delivered c'.io.wnd = delivered c.io.wnd)
    (hdata : c'.io.written ++ dataOf c'.phase.pending = c.io.written ++ dataOf c.phase.pending)
    (hlive : c.io.errors = 0) : InStep xs c' := by
  have hcomplete : c'.io.written ++ dataOf c'.phase.pending
      = replies (xs.take (delivered c'.io.wnd / 8)) := by
    rw [hdata, hd]
    exact h.complete hlive
  refine ⟨hnl.trans h.nlOpen, by rw [hd]; exact h.boundary, ?_, fun _ => hcomplete⟩
  exact (List.prefix_append _ _).trans (hcomplete ▸ replies_take_le xs _)

/-- The data of a chain that has only its first buffer filled. -/
lemma dataOf_restBufs {d : Delivery} (hhead : d.head.len = 8) (htotal : d.total = 8) (n : ℕ) :
    dataOf (restBufs n d) = [] ∧ d.bytes = d.head.buf.take 8 := by
  have hsum : (d.rest.map Seg.len).sum = 0 := by
    rw [Delivery.total, Delivery.segs, List.map_cons, List.sum_cons, hhead] at htotal
    omega
  have hzero : ∀ s ∈ d.rest, s.len = 0 := by
    intro s hs
    exact List.sum_eq_zero_iff_forall_eq_nat.mp hsum s.len (List.mem_map_of_mem hs)
  have hlay : ∀ (ss : List Seg) (m : ℕ), (∀ s ∈ ss, s.len = 0) → dataOf (layOut m ss) = [] := by
    intro ss
    induction ss with
    | nil => intro m _; rfl
    | cons s ss ih =>
      intro m hss
      rw [layOut, dataOf_cons, ih (m + 1) fun t ht => hss t (by simp [ht])]
      simp [Buf.bytes, hss s (by simp)]
  refine ⟨hlay d.rest (n + 1) hzero, ?_⟩
  have hrest : d.rest.flatMap (fun s => s.buf.take s.len) = [] := by
    rw [List.flatMap_eq_nil_iff]
    intro s hs
    rw [hzero s hs, List.take_zero]
  rw [Delivery.bytes, Delivery.segs, List.flatMap_cons, hrest, List.append_nil, hhead]

/-- Sending gives bytes back and takes none off the window. -/
lemma delivered_sendIn (tcp : TcpEnv) (c : Conn) (ph : List Buf → Phase) (bs : List Buf) :
    delivered (sendIn tcp c ph bs).io.wnd = delivered c.io.wnd := by
  show delivered (c.io.wnd ++ List.map _ _) = _
  rw [delivered_append, delivered_credits, Nat.add_zero]

/-- A whole request that finds nothing pending is the one that is due, and its reply is what
becomes pending. -/
lemma inStep_take {c : Conn} {d : Delivery} {nl : NetlinkEnv} {tcp : TcpEnv} {n : ℕ} {b : Buf}
    (h : InStep xs c) (herr : c.io.errors = 0)
    (hph : c.phase = .accepted ∨ c.phase = .received [])
    (ha : action nl c.nlOpen (headBuf c.nextPtr d) = .ok (n, b))
    (hC : Carries xs c.toWorld (.recv d nl tcp)) (hhead : d.head.len = 8) (htotal : d.total = 8)
    (hwhole : ∀ x, xs[Server.delivered c.io.wnd / 8]? = some x → x.Whole) :
    InStep xs { enqueued { Conn.delivered c d with nlOpen := n } (b :: restBufs c.nextPtr d) with
      phase := .received (b :: restBufs c.nextPtr d) } := by
  obtain ⟨hpre, hworks, hk⟩ := hC
  obtain ⟨hrest, hbytes⟩ := dataOf_restBufs hhead htotal c.nextPtr
  obtain ⟨k, hbound⟩ := h.boundary
  change d.bytes <+: (stream xs).drop (delivered c.io.wnd) at hpre
  change ∀ x, xs[delivered c.io.wnd / 8]? = some x → _ at hk
  -- the eight bytes are the request that is due
  have hlen : d.bytes.length = 8 := by
    have := d.head.len_le
    rw [hbytes, List.length_take]
    omega
  rw [hbound] at hpre hk hwhole
  obtain ⟨x, hx, hreq⟩ := request_at_boundary hpre hlen
  rw [Nat.mul_div_cancel_left k (by norm_num)] at hk hwhole
  have hroom : ∃ room, (headBuf c.nextPtr d).payload = request x.address x.length ++ room :=
    ⟨d.head.buf.drop 8, by rw [← hreq, hbytes]; exact (List.take_append_drop 8 _).symm⟩
  rw [h.nlOpen] at ha
  obtain ⟨rfl, hreply⟩ := action_exchange hworks hroom (hk x hx) (hwhole x hx) ha
  -- so far the output was complete, and now it goes on with the reply
  have hold := h.complete herr
  rw [Phase.pending_of_takes hph, dataOf_nil, List.append_nil, hbound,
    Nat.mul_div_cancel_left k (by norm_num)] at hold
  have hnew : delivered (c.io.wnd ++ [.deliver d.total]) = 8 * (k + 1) := by
    rw [delivered_append, delivered_deliver, hbound, htotal]
    ring
  refine ⟨rfl, ⟨k + 1, hnew⟩, h.beginning, fun _ => ?_⟩
  show c.io.written ++ dataOf (b :: restBufs c.nextPtr d)
    = replies (xs.take (delivered (c.io.wnd ++ [.deliver d.total]) / 8))
  rw [dataOf_cons, hrest, List.append_nil, hreply, hnew, Nat.mul_div_cancel_left _ (by norm_num),
    replies_take_succ hx, hold]

lemma inStep_step {c c' : Conn} {e : Event} (ht : Tally c) (h : InStep xs c)
    (hP : Carries xs c.toWorld e ∧ OneRequest xs c.toWorld e) (hs : step c e = .ok c') :
    InStep xs c' := by
  have hlive : c.phase ≠ .closed → c.io.errors = 0 := fun hn => by
    have := (ht.live hn).2
    omega
  -- a delivery in any other state is what the condition excludes
  have htakes : ∀ {d nl tcp}, OneRequest xs c.toWorld (.recv d nl tcp) →
      c.phase = .accepted ∨ c.phase = .received [] := fun h => (takes_toWorld c).mp h.1
  cases step_move hs with
  | idle _ => exact h
  | @take d nl tcp n b hph ha =>
    have herr := hlive (Phase.ne_closed_of_takes hph)
    obtain ⟨hcarries, -, hhead, htotal, hwhole⟩ := hP
    exact (inStep_take h herr hph ha hcarries hhead htotal hwhole).of_eq rfl
      (delivered_sendIn _ _ _ _) (written_sendIn _ _ (fun _ => rfl) _) herr
  | append hph _ =>
    have := htakes hP.2
    rw [hph] at this
    simp at this
  | trash hph =>
    have := htakes hP.2
    rw [hph] at this
    simp at this
  | received _ hph =>
    refine h.of_eq rfl (delivered_sendIn _ _ _ _) ?_ (hlive (by simp [hph]))
    rw [written_sendIn _ _ (fun _ => rfl), hph, Phase.pending_received]
  | closing _ hph =>
    refine h.of_eq rfl (delivered_sendIn _ _ _ _) ?_ (hlive (Phase.ne_closed_of_sends hph))
    rw [written_sendIn _ _ (fun _ => rfl), Phase.pending_of_sends hph]
  | close _ hph hp => exact h.of_eq rfl rfl (by rw [hp]; rfl) (hlive hph)
  | fail _ =>
    exact ⟨h.nlOpen, h.boundary, h.beginning, fun he => absurd he (Nat.succ_ne_zero _)⟩

end Queue

/-- **Framing.**  When every delivery is one whole request of the stream that finds nothing
pending, and the kernel's dump for it has the length asked for, then in every state what is written
is the beginning of the replies in order, and with what is pending it is the replies to all requests
delivered. -/
theorem framing (xs : List Exchange) (es : List Event) (hA : Along step (Carries xs) start es)
    (hP : Along step (OneRequest xs) start es) : Throughout step (Framed xs) start es := by
  refine throughout_start (I := fun c => Tally c ∧ InStep xs c) (fun c e c' _ hI hp hs => ?_)
    (fun c hwf hI => ?_) ⟨tally_start, inStep_start xs⟩ (hA.and hP)
  · exact ⟨tally_step c e c' hI.1 hs, inStep_step hI.1 hI.2 hp hs⟩
  · refine ⟨hI.2.beginning, fun he => ?_⟩
    rw [chain_toWorld hwf, dataOf_nodes]
    exact hI.2.complete he

/-- A request for 16 bytes, delivered whole to an idle connection, and a timer. -/
theorem framing_whole :
    Throughout step (Framed [⟨4096, 16, List.replicate 16 7, by decide, by decide, by decide⟩])
      start
      [.recv (requestDelivery 4096 16 (List.replicate 8 0)) (working fun _ => List.replicate 16 7)
        (roomy 1000),
       .poll (roomy 1000)] := by
  refine framing _ _ ?_ ?_
  · refine ⟨⟨by decide, works_working _, ?_⟩, fun _ _ => ⟨trivial, fun _ _ => trivial⟩⟩
    intro x hx
    cases hx
    rfl
  · refine ⟨⟨⟨rfl, _, rfl, Or.inl rfl⟩, rfl, rfl, ?_⟩, fun _ _ => ⟨trivial, fun _ _ => trivial⟩⟩
    intro x hx
    cases hx
    rfl

/-- A request for 8 bytes that arrives while the reply to another one waits for the send buffer:
when there is room, its own bytes go out in place of a reply. -/
theorem framing_echo :
    ¬ ∀ (xs : List Exchange) (es : List Event), (∀ x ∈ xs, x.Whole) →
      Along step (Carries xs) start es →
      Throughout step (fun w => w.io.written <+: replies xs) start es := by
  intro h
  have hwnd : view (fun w => w.io.wnd) step start
      [.recv (requestDelivery 4096 8 []) (working fun _ => List.replicate 8 7) full]
      = some [.deliver 8] := by
    decide +kernel
  have hout : view (fun w => w.io.written) step start
      [.recv (requestDelivery 4096 8 []) (working fun _ => List.replicate 8 7) full,
       .recv (requestDelivery 8192 8 []) (working fun _ => List.replicate 8 7) full,
       .sent (roomy 1000)] = some (List.replicate 8 7 ++ request 8192 8) := by
    decide +kernel
  have hrun := h
    [⟨4096, 8, List.replicate 8 7, by decide, by decide, by decide⟩,
     ⟨8192, 8, List.replicate 8 7, by decide, by decide, by decide⟩]
    [.recv (requestDelivery 4096 8 []) (working fun _ => List.replicate 8 7) full,
     .recv (requestDelivery 8192 8 []) (working fun _ => List.replicate 8 7) full,
     .sent (roomy 1000)] (by
      intro x hx
      rcases List.mem_pair.mp hx with rfl | rfl
      · rfl
      · rfl) (by
      refine ⟨⟨by decide, works_working _, ?_⟩, fun w hw => ?_⟩
      · intro x hx
        cases hx
        rfl
      · have hops := obs_of_view hwnd (by rw [exec_cons_ok hw]; rfl)
        refine ⟨?_, fun _ _ => ⟨trivial, fun _ _ => trivial⟩⟩
        rw [Carries, hops]
        refine ⟨by decide, works_working _, ?_⟩
        intro x hx
        cases hx
        rfl)
  obtain ⟨w, hw, hwritten⟩ := exec_of_view hout
  have hpre := hrun.last hw
  rw [hwritten] at hpre
  revert hpre
  decide

end Server
end DeepForensics
