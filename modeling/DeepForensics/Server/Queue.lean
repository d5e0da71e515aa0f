/-
# The connection as a queue

The abstract reading of a connection.  Instead of a heap with a pointer into it there is the
list of pending buffers, first in, first out; instead of a record that may be freed and a
table of callbacks there is the phase of the connection, which has pending buffers only
where the source can have some.  Nothing is left of reference counts, of pointers between
pbufs and of the loops that follow them.  What the source decides from data stays: the
assertion on total lengths, the faults of `do_action`, and the answers of lwIP.
-/
import DeepForensics.Server.TcpRaw
import DeepForensics.Lib.Run

namespace DeepForensics
namespace Server
namespace Queue

open PtrHeap Wire Runs

/-- The phase of a connection: the states of `es` with the buffers pending in them, and the
time after `es` has been freed. -/
inductive Phase where
  | accepted
  | received (pending : List Buf)
  | closing (pending : List Buf)
  | closed

namespace Phase

/-- The pending buffers. -/
def pending : Phase → List Buf
  | received bs => bs
  | closing bs => bs
  | _ => []

/-- The phase after the peer has closed its side. -/
def finish : Phase → Phase
  | accepted => closing []
  | received bs => closing bs
  | p => p

@[simp] lemma pending_accepted : accepted.pending = [] := rfl
@[simp] lemma pending_received (bs : List Buf) : (received bs).pending = bs := rfl
@[simp] lemma pending_closing (bs : List Buf) : (closing bs).pending = bs := rfl
@[simp] lemma pending_closed : closed.pending = [] := rfl

@[simp] lemma pending_finish (p : Phase) : p.finish.pending = p.pending := by
  cases p <;> rfl

section Cases

variable {p : Phase} {bs : List Buf}

/-- In a phase that takes a request nothing is pending. -/
lemma pending_of_takes (h : p = accepted ∨ p = received []) : p.pending = [] := by
  rcases h with rfl | rfl
  · rfl
  · rfl

lemma ne_closed_of_takes (h : p = accepted ∨ p = received []) : p ≠ closed := by
  rcases h with rfl | rfl
  · nofun
  · nofun

lemma pending_of_sends (h : p = received bs ∨ p = closing bs) : p.pending = bs := by
  rcases h with rfl | rfl
  · rfl
  · rfl

lemma ne_closed_of_sends (h : p = received bs ∨ p = closing bs) : p ≠ closed := by
  rcases h with rfl | rfl
  · nofun
  · nofun

end Cases

end Phase

/-- An abstract connection. -/
structure Conn where
  phase : Phase
  life : PcbLife
  nlOpen : ℕ
  nextPtr : ℕ
  io : Io

/-- The data of a list of buffers. -/
def dataOf (bs : List Buf) : List UInt8 := bs.flatMap Buf.bytes

@[simp] lemma dataOf_nil : dataOf [] = [] := rfl

@[simp] lemma dataOf_cons (b : Buf) (bs : List Buf) : dataOf (b :: bs) = b.bytes ++ dataOf bs := rfl

@[simp] lemma dataOf_append (bs cs : List Buf) : dataOf (bs ++ cs) = dataOf bs ++ dataOf cs :=
  List.flatMap_append

@[simp] lemma dataOf_map_grow (n : ℕ) (bs : List Buf) :
    dataOf (bs.map (Buf.grow n)) = dataOf bs := by
  induction bs with
  | nil => rfl
  | cons b bs ih => simp [ih]

/-! ## Sending -/

/-- How the send loop divides the pending buffers, with `k` writes made so far: the buffers it
sends, the buffers it leaves, the number of writes and the result of the last one. -/
def send (tcp : TcpEnv) : ℕ → List Buf → List Buf × List Buf × ℕ × ErrT
  | k, [] => ([], [], k, .ok)
  | k, b :: bs =>
    if b.len ≤ tcp.sndbuf k then
      if tcp.write k = .ok then (b :: (send tcp (k + 1) bs).1, (send tcp (k + 1) bs).2)
      else ([], b :: bs, k + 1, tcp.write k)
    else ([], b :: bs, k, .ok)

section Send

variable (tcp : TcpEnv)

/-- Sending loses nothing and keeps the order. -/
lemma send_append (k : ℕ) (bs : List Buf) : (send tcp k bs).1 ++ (send tcp k bs).2.1 = bs := by
  induction bs generalizing k with
  | nil => rfl
  | cons b bs ih =>
    rw [send]
    split_ifs
    · exact congrArg (b :: ·) (ih (k + 1))
    · rfl
    · rfl

end Send

/-- The record after the given buffers have been sent. -/
def sent (io : Io) (bs : List Buf) : Io :=
  { io with
    written := io.written ++ dataOf bs
    freed := io.freed ++ bs.map Buf.ptr
    wnd := io.wnd ++ bs.map fun b => .credit b.len }

/-! ## The operations -/

/-- The buffer after `do_action`. -/
def action (nl : NetlinkEnv) (nlOpen : ℕ) (b : Buf) : Except Fault (ℕ × Buf) :=
  if b.payload.length < 8 then .error .outOfBounds
  else do
    let r ← sendNetlinkRequest nl nlOpen (word b.payload 0) (word b.payload 1)
    let payload ← memcpy b.payload r.2 (word b.payload 1)
    .ok (r.1, { b with len := u16 (word b.payload 1), payload := payload })

/-- What `do_action` does to a buffer when it does not fault. -/
lemma action_ok {nl : NetlinkEnv} {n m : ℕ} {b b' : Buf} (h : action nl n b = .ok (m, b')) :
    ∃ res, sendNetlinkRequest nl n (word b.payload 0) (word b.payload 1) = .ok (m, res) ∧
      memcpy b.payload res (word b.payload 1) = .ok b'.payload ∧
      8 ≤ b.payload.length ∧ b'.ptr = b.ptr ∧ b'.totLen = b.totLen ∧
      b'.len = u16 (word b.payload 1) := by
  rw [action] at h
  split_ifs at h with hlen
  obtain ⟨r, hs, h⟩ := exists_of_bind_eq_ok h
  obtain ⟨payload, hm, h⟩ := exists_of_bind_eq_ok h
  cases h
  exact ⟨r.2, hs, hm, not_lt.mp hlen, rfl, rfl, rfl⟩

/-- The first buffer of a delivered chain. -/
def headBuf (n : ℕ) (d : Delivery) : Buf := ⟨n, d.head.buf, d.total, d.head.len⟩

/-- The other buffers of a delivered chain. -/
def restBufs (n : ℕ) (d : Delivery) : List Buf := layOut (n + 1) d.rest

namespace Conn

variable (tcp : TcpEnv) (nl : NetlinkEnv) (c : Conn)

/-- Send from a list of pending buffers, and keep the rest in the phase `ph`. -/
def sendIn (ph : List Buf → Phase) (bs : List Buf) : Conn :=
  { c with phase := ph (send tcp 0 bs).2.1, io := sent c.io (send tcp 0 bs).1 }

/-- The connection after `tcp_raw_close`. -/
def close : Conn :=
  { c with
    phase := .closed
    life := if tcp.close = .ok then .closed else c.life
    io := { c.io with closes := c.io.closes ++ [(.closing, none)], esFrees := c.io.esFrees + 1 } }

/-- The connection after an error. -/
def fail : Conn :=
  { c with
    phase := .closed
    life := .gone
    io := { c.io with
      freed := c.io.freed ++ c.phase.pending.map Buf.ptr
      esFrees := c.io.esFrees + 1
      errors := c.io.errors + 1 } }

/-- The connection with a chain delivered and not yet dealt with. -/
def delivered (d : Delivery) : Conn :=
  { c with
    nextPtr := c.nextPtr + d.segs.length
    io := { c.io with wnd := c.io.wnd ++ [.deliver d.total] } }

/-- The connection with more data enqueued. -/
def enqueued (bs : List Buf) : Conn :=
  { c with io := { c.io with enqueued := c.io.enqueued ++ dataOf bs } }

/-- Sending moves data from what is pending to what is written. -/
lemma written_sendIn {ph : List Buf → Phase} (hph : ∀ bs, (ph bs).pending = bs) (bs : List Buf) :
    (sendIn tcp c ph bs).io.written ++ dataOf (sendIn tcp c ph bs).phase.pending
      = c.io.written ++ dataOf bs := by
  have hsplit : dataOf bs = dataOf (send tcp 0 bs).1 ++ dataOf (send tcp 0 bs).2.1 := by
    rw [← dataOf_append, send_append]
  rw [hsplit, sendIn, hph, ← List.append_assoc]
  rfl

/-- With nothing pending, the first buffer of a chain becomes the reply. -/
def take (d : Delivery) : Except Fault Conn :=
  (action nl c.nlOpen (headBuf c.nextPtr d)).map fun r =>
    sendIn tcp (enqueued { delivered c d with nlOpen := r.1 } (r.2 :: restBufs c.nextPtr d))
      .received (r.2 :: restBufs c.nextPtr d)

/-- With `b` and `bs` pending, a chain is appended as it is. -/
def append (b : Buf) (bs : List Buf) (d : Delivery) : Except Fault Conn :=
  if (bs.getLastD b).totLen = (bs.getLastD b).len then
    .ok { enqueued (delivered c d) (layOut c.nextPtr d.segs) with
      phase := .received ((b :: bs).map (Buf.grow d.total) ++ layOut c.nextPtr d.segs) }
  else .error .assertCat

/-- A closing connection throws a chain away. -/
def trash (d : Delivery) : Conn :=
  { delivered c d with
    io := { (delivered c d).io with
      wnd := (delivered c d).io.wnd ++ [.credit d.total]
      freed := c.io.freed ++ (layOut c.nextPtr d.segs).map Buf.ptr } }

/-- What a chain does to a connection. -/
def receive (d : Delivery) : Except Fault Conn :=
  match c.phase with
  | .accepted => take tcp nl c d
  | .received [] => take tcp nl c d
  | .received (b :: bs) => append c b bs d
  | .closing _ => .ok (trash c d)
  | .closed => .ok c

/-- Go on sending, or close when that is all there is left to do. -/
def advance : Conn :=
  match c.phase with
  | .received (b :: bs) => sendIn tcp c .received (b :: bs)
  | .closing (b :: bs) => sendIn tcp c .closing (b :: bs)
  | .closing [] => close tcp c
  | _ => c

end Conn

open Conn

/-- One event of an abstract connection. -/
def step (c : Conn) : Event → Except Fault Conn
  | .recv d nl tcp => receive tcp nl c d
  | .fin tcp => .ok (advance tcp { c with phase := c.phase.finish })
  | .sent tcp => .ok (advance tcp c)
  | .poll tcp => .ok (advance tcp c)
  | .err _ =>
    match c.phase with
    | .closed => .ok c
    | _ => .ok (fail c)

/-- The abstract connection after `tcp_raw_accept`. -/
def start : Conn := ⟨.accepted, .opened, 0, 0, ⟨[], [], [], [], [], 0, 0, 0⟩⟩

/-! ## What a step can do -/

/-- The events that only make a connection go on. -/
inductive Nudge : Event → TcpEnv → Prop
  | fin (tcp : TcpEnv) : Nudge (.fin tcp) tcp
  | sent (tcp : TcpEnv) : Nudge (.sent tcp) tcp
  | poll (tcp : TcpEnv) : Nudge (.poll tcp) tcp

/-- The steps of an abstract connection, one constructor for each thing that can happen. -/
inductive Move (c : Conn) : Event → Conn → Prop
  /-- The connection is closed, or there is nothing to go on with. -/
  | idle {e : Event} (h : c.phase = .closed ∨ c.phase.pending = [] ∧ ∃ tcp, Nudge e tcp) :
      Move c e c
  | take {d : Delivery} {nl : NetlinkEnv} {tcp : TcpEnv} {n : ℕ} {b : Buf}
      (hph : c.phase = .accepted ∨ c.phase = .received [])
      (ha : action nl c.nlOpen (headBuf c.nextPtr d) = .ok (n, b)) :
      Move c (.recv d nl tcp)
        (sendIn tcp (enqueued { delivered c d with nlOpen := n } (b :: restBufs c.nextPtr d))
          .received (b :: restBufs c.nextPtr d))
  | append {d : Delivery} {nl : NetlinkEnv} {tcp : TcpEnv} {b : Buf} {bs : List Buf}
      (hph : c.phase = .received (b :: bs))
      (hlast : (bs.getLastD b).totLen = (bs.getLastD b).len) :
      Move c (.recv d nl tcp)
        { enqueued (delivered c d) (layOut c.nextPtr d.segs) with
          phase := .received ((b :: bs).map (Buf.grow d.total) ++ layOut c.nextPtr d.segs) }
  | trash {d : Delivery} {nl : NetlinkEnv} {tcp : TcpEnv} {bs : List Buf}
      (hph : c.phase = .closing bs) : Move c (.recv d nl tcp) (trash c d)
  | received {e : Event} {tcp : TcpEnv} {bs : List Buf} (he : Nudge e tcp)
      (hph : c.phase = .received bs) : Move c e (sendIn tcp c .received bs)
  | closing {e : Event} {tcp : TcpEnv} {bs : List Buf} (he : Nudge e tcp)
      (hph : c.phase = .received bs ∨ c.phase = .closing bs) :
      Move c e (sendIn tcp c .closing bs)
  | close {e : Event} {tcp : TcpEnv} (he : Nudge e tcp) (hph : c.phase ≠ .closed)
      (hp : c.phase.pending = []) : Move c e (close tcp c)
  | fail {x : ErrT} (hph : c.phase ≠ .closed) : Move c (.err x) (fail c)

lemma receive_move {tcp : TcpEnv} {nl : NetlinkEnv} {c c' : Conn} {d : Delivery}
    (h : receive tcp nl c d = .ok c') : Move c (.recv d nl tcp) c' := by
  have htake : ∀ (_ : c.phase = .accepted ∨ c.phase = .received []) (_ : take tcp nl c d = .ok c'),
      Move c (.recv d nl tcp) c' := by
    intro hph h
    rw [take] at h
    cases ha : action nl c.nlOpen (headBuf c.nextPtr d) with
    | error f => rw [ha] at h; cases h
    | ok r => rw [ha] at h; cases h; exact .take hph ha
  rw [receive] at h
  split at h
  next hph => exact htake (Or.inl hph) h
  next hph => exact htake (Or.inr hph) h
  next b bs hph =>
    rw [append] at h
    split_ifs at h with hlast
    cases h
    exact .append hph hlast
  next bs hph => cases h; exact .trash hph
  next hph => cases h; exact .idle (Or.inl hph)

lemma advance_move {tcp : TcpEnv} {e : Event} (he : Nudge e tcp) (c : Conn) :
    Move c e (advance tcp c) := by
  rw [advance]
  split
  next b bs hph => exact .received he hph
  next b bs hph => exact .closing he (Or.inr hph)
  next hph => exact .close he (by simp [hph]) (by simp [hph])
  next h1 h2 h3 =>
    refine .idle ?_
    cases hph : c.phase with
    | accepted => exact Or.inr ⟨rfl, tcp, he⟩
    | received bs =>
      cases bs with
      | nil => exact Or.inr ⟨rfl, tcp, he⟩
      | cons b bs => exact absurd hph (h1 b bs)
    | closing bs =>
      cases bs with
      | nil => exact absurd hph h3
      | cons b bs => exact absurd hph (h2 b bs)
    | closed => exact Or.inl rfl

lemma finish_move (tcp : TcpEnv) (c : Conn) :
    Move c (.fin tcp) (advance tcp { c with phase := c.phase.finish }) := by
  have he : Nudge (.fin tcp) tcp := .fin tcp
  obtain ⟨ph, life, nlOpen, nextPtr, io⟩ := c
  cases ph with
  | accepted => exact .close he (by simp) rfl
  | received bs =>
    cases bs with
    | nil => exact .close he (by simp) rfl
    | cons b bs => exact .closing he (Or.inl rfl)
  | closing bs => exact advance_move he _
  | closed => exact advance_move he _

/-- **What a step can do.** -/
theorem step_move {c c' : Conn} {e : Event} (h : step c e = .ok c') : Move c e c' := by
  cases e with
  | recv d nl tcp => exact receive_move h
  | fin tcp => cases h; exact finish_move tcp c
  | sent tcp => cases h; exact advance_move (.sent tcp) c
  | poll tcp => cases h; exact advance_move (.poll tcp) c
  | err x =>
    rw [step] at h
    split at h
    next hph => cases h; exact .idle (Or.inl hph)
    next hph => cases h; exact .fail hph

/-- The faults of `do_action`. -/
lemma action_error {nl : NetlinkEnv} {n : ℕ} {b : Buf} {f : Fault}
    (h : action nl n b = .error f) : f = .outOfBounds ∨ f = .exited ∨ f = .nullCopy := by
  have hreq : ∀ a l, sendNetlinkRequest nl n a l = .error f → f = .exited := by
    intro a l h
    rw [sendNetlinkRequest] at h
    split_ifs at h <;> cases h <;> rfl
  have hcopy : ∀ dst src k, memcpy dst src k = .error f → f = .nullCopy ∨ f = .outOfBounds := by
    intro dst src k h
    cases src with
    | none =>
      rw [memcpy_null] at h
      split_ifs at h
      cases h
      exact Or.inl rfl
    | some src =>
      rw [memcpy_some] at h
      split_ifs at h
      cases h
      exact Or.inr rfl
  rw [action] at h
  split_ifs at h with hlen
  · cases h
    exact Or.inl rfl
  · rcases error_of_bind_eq_error h with hs | ⟨r, _, h⟩
    · exact Or.inr (Or.inl (hreq _ _ hs))
    · rcases error_of_bind_eq_error h with hm | ⟨payload, _, h⟩
      · rcases hcopy _ _ _ hm with rfl | rfl
        · exact Or.inr (Or.inr rfl)
        · exact Or.inl rfl
      · cases h

/-- Only data that arrives makes a step fault. -/
lemma recv_of_error {c : Conn} {e : Event} {f : Fault} (h : step c e = .error f) :
    ∃ d nl tcp, e = .recv d nl tcp := by
  cases e with
  | recv d nl tcp => exact ⟨d, nl, tcp, rfl⟩
  | fin tcp => cases h
  | sent tcp => cases h
  | poll tcp => cases h
  | err x =>
    rw [step] at h
    split at h
    · cases h
    · cases h

/-- **How a step can fault**: by the assertion of `pbuf_cat` on a pending chain whose last total
length is wrong, or in `do_action`. -/
theorem step_fault {c : Conn} {e : Event} {f : Fault} (h : step c e = .error f) :
    (f = .assertCat ∧ ∃ b bs, c.phase = .received (b :: bs) ∧
      (bs.getLastD b).totLen ≠ (bs.getLastD b).len) ∨
    f = .outOfBounds ∨ f = .exited ∨ f = .nullCopy := by
  have htake : ∀ {d : Delivery} {nl : NetlinkEnv} {tcp : TcpEnv}, take tcp nl c d = .error f →
      f = .outOfBounds ∨ f = .exited ∨ f = .nullCopy := by
    intro d nl tcp h
    rw [take] at h
    cases ha : action nl c.nlOpen (headBuf c.nextPtr d) with
    | error g => rw [ha] at h; cases h; exact action_error ha
    | ok r => rw [ha] at h; cases h
  obtain ⟨d, nl, tcp, rfl⟩ := recv_of_error h
  rw [step, receive] at h
  split at h
  next => exact Or.inr (htake h)
  next => exact Or.inr (htake h)
  next b bs hph =>
    rw [append] at h
    split_ifs at h with hlast
    cases h
    exact Or.inl ⟨rfl, b, bs, hph, hlast⟩
  next => cases h
  next => cases h

end Queue
end Server
end DeepForensics
