/-
# The TCP callbacks of the server

The raw-API callbacks of `server_dir/minimal/tcp_raw.c` on one connection.  The state has the
heap of pbufs, the record `es` that the callbacks share, and what lwIP keeps in the protocol
control block: the installed callbacks, their argument and whether the block is still open.
The answers of lwIP during a callback are a parameter, `TcpEnv`; `step` is what happens when
lwIP has an event for the connection, which it can pass on only to an installed callback.
-/
import DeepForensics.Server.Netlink

namespace DeepForensics
namespace Server

open PtrHeap Wire

/-- `err_t`. -/
inductive ErrT where
  | ok | mem | buf | timeout | rte | inprogress | val | wouldblock | use | already | isconn
  | conn | interface | abrt | rst | clsd | arg
deriving DecidableEq, Repr

/-- `enum tcp_raw_states`. -/
inductive EsState where
  | none | accepted | received | closing
deriving DecidableEq, Repr

/-- `struct tcp_raw_state`. -/
structure Es where
  state : EsState
  retries : ℕ
  p : Option ℕ
deriving DecidableEq, Repr

/-- What has become of a protocol control block. -/
inductive PcbLife where
  /-- lwIP has the connection open. -/
  | opened
  /-- `tcp_close` has succeeded. -/
  | closed
  /-- lwIP has released the block, after an error or `tcp_abort`. -/
  | gone
deriving DecidableEq, Repr

/-- The part of `struct tcp_pcb` that the server sets: whether the callback argument points to
`es`, and which callbacks are installed. -/
structure Pcb where
  callbackArg : Bool
  recv : Bool
  sent : Bool
  errf : Bool
  poll : Bool
  life : PcbLife
deriving DecidableEq, Repr

/-- What changes the receive window: lwIP takes the bytes it delivers off it, `tcp_recved`
gives bytes back. -/
inductive WndOp where
  | deliver (n : ℕ)
  | credit (n : ℕ)
deriving DecidableEq, Repr

/-- The record of a run, kept where lwIP calls the server and where the server calls lwIP. -/
structure Io where
  /-- The bytes that `tcp_write` has accepted. -/
  written : List UInt8
  /-- The bytes that the chains delivered have to bring to `es->p`, in order of arrival. -/
  enqueued : List UInt8
  /-- The deliveries and the calls of `tcp_recved`. -/
  wnd : List WndOp
  /-- The pbufs that `pbuf_free` has deallocated. -/
  freed : List ℕ
  /-- For every call of `tcp_raw_close`, `es->state` and `es->p` at the call. -/
  closes : List (EsState × Option ℕ)
  /-- How often `mem_free` has been called for `es`. -/
  esFrees : ℕ
  /-- How often `tcp_raw_error` has been called. -/
  errors : ℕ
  /-- How often `tcp_abort` has been called. -/
  aborts : ℕ
deriving DecidableEq, Repr

/-- The state of a connection.  `es` is `none` when the record is not allocated; `nlOpen`
counts the netlink sockets left open; pbufs are numbered as they are delivered, and `nextPtr`
is the next number. -/
structure World where
  heap : Heap Pbuf
  es : Option Es
  pcb : Pcb
  nlOpen : ℕ
  nextPtr : ℕ
  io : Io

/-- The answers of lwIP during one callback: the `k`-th value of `tcp_sndbuf` and result of
`tcp_write`, and the result of `tcp_close`. -/
structure TcpEnv where
  sndbuf : ℕ → ℕ
  write : ℕ → ErrT
  close : ErrT

namespace World

/-- The pbufs met from a pointer on. -/
def chainFrom (w : World) (p : Option ℕ) : List (ℕ × Pbuf) := walk Pbuf.next w.heap w.nextPtr p

/-- The chain at `es->p`. -/
def chain (w : World) : List (ℕ × Pbuf) :=
  match w.es with
  | none => []
  | some es => w.chainFrom es.p

/-- The data of a chain, every pbuf contributing `payload[0..len)`. -/
def dataOf (ns : List (ℕ × Pbuf)) : List UInt8 := ns.flatMap fun n => n.2.payload.take n.2.len

/-- Record bytes as enqueued. -/
def enqueue (w : World) (bs : List UInt8) : World :=
  { w with io := { w.io with enqueued := w.io.enqueued ++ bs } }

@[simp] lemma enqueue_nil (w : World) : w.enqueue [] = w := by
  rw [enqueue, List.append_nil]

/-- Record a call of `tcp_raw_close`. -/
def calledClose (w : World) : World :=
  match w.es with
  | none => w
  | some es => { w with io := { w.io with closes := w.io.closes ++ [(es.state, es.p)] } }

/-- Record a call of `tcp_raw_error`. -/
def calledError (w : World) : World := { w with io := { w.io with errors := w.io.errors + 1 } }

/-- `tcp_recved`. -/
def tcpRecved (w : World) (n : ℕ) : World :=
  { w with io := { w.io with wnd := w.io.wnd ++ [.credit n] } }

/-- `pbuf_free` on the heap of the server. -/
def pbufFree (w : World) (p : Option ℕ) : Except Fault World :=
  (Server.pbufFree w.nextPtr w.heap p).map fun r =>
    { w with heap := r.1, io := { w.io with freed := w.io.freed ++ r.2 } }

/-- `mem_free(es)`. -/
def memFree (w : World) : World :=
  { w with es := none, io := { w.io with esFrees := w.io.esFrees + 1 } }

end World

/-! ## The functions of `tcp_raw.c` -/

/-- `if (es->p) pbuf_free(es->p)`. -/
def freeChain (w : World) : Option ℕ → Except Fault World
  | some p => w.pbufFree (some p)
  | none => .ok w

/-- `tcp_raw_free(es)` for a non-null `es`. -/
def tcpRawFree (w : World) : Except Fault World :=
  match w.es with
  | none => .error .danglingEs
  | some es => do
    let w ← freeChain w es.p
    .ok w.memFree

/-- An access of `do_action`. -/
inductive ActionAccess where
  /-- A read of byte `i` of the request, at the payload of the pbuf. -/
  | request (i : ℕ)
  /-- `memcpy` reads byte `i` of the reply. -/
  | reply (i : ℕ)
  /-- `memcpy` writes byte `i` of the payload. -/
  | store (i : ℕ)
deriving DecidableEq, Repr

/-- `memcpy` from index `i` on, with `n` bytes to copy; `src` is what is left of the source.  Beside
the bytes at `dst` it reports the accesses; one that leaves its object is the last. -/
def memcpyLoop : ℕ → ℕ → List UInt8 → List UInt8 → List ActionAccess × Except Fault (List UInt8)
  | _, 0, _, dst => ([], .ok dst)
  | i, _ + 1, [], _ => ([.reply i], .error .outOfBounds)
  | i, n + 1, b :: src, dst =>
    if i < dst.length then
      let r := memcpyLoop (i + 1) n src (dst.set i b)
      (.reply i :: .store i :: r.1, r.2)
    else ([.reply i, .store i], .error .outOfBounds)

/-- `memcpy(dst, src, n)`. -/
def memcpyTraced (dst : List UInt8) (src : Option (List UInt8)) (n : ℕ) :
    List ActionAccess × Except Fault (List UInt8) :=
  match src with
  | none => if n = 0 then ([], .ok dst) else ([.reply 0], .error .nullCopy)
  | some src => memcpyLoop 0 n src dst

/-- The bytes at `dst` after `memcpy`. -/
def memcpy (dst : List UInt8) (src : Option (List UInt8)) (n : ℕ) : Except Fault (List UInt8) :=
  (memcpyTraced dst src n).2

/-- The accesses of a copy of `n` bytes that returns. -/
def memcpyTrace (n : ℕ) : List ActionAccess :=
  (List.range n).flatMap fun i => [.reply i, .store i]

/-- A copy that stays inside both objects. -/
lemma memcpyLoop_ok : ∀ (n i : ℕ) (src dst : List UInt8), n ≤ src.length → i + n ≤ dst.length →
    memcpyLoop i n src dst = ((List.range' i n).flatMap fun j => [.reply j, .store j],
      .ok (dst.take i ++ (src.take n ++ dst.drop (i + n)))) := by
  intro n
  induction n with
  | zero =>
    intro i src dst _ _
    simp [memcpyLoop]
  | succ n ih =>
    intro i src dst hsrc hdst
    obtain ⟨b, src, rfl⟩ := List.exists_cons_of_length_pos (Nat.lt_of_lt_of_le n.succ_pos hsrc)
    have hi : i < dst.length := by omega
    have hrec := ih (i + 1) src (dst.set i b) (by simpa using hsrc)
      (by rw [List.length_set]; omega)
    have hdrop : (dst.set i b).drop (i + 1 + n) = dst.drop (i + (n + 1)) := by
      rw [List.drop_set_of_lt (by omega)]
      congr 1
      omega
    simp only [memcpyLoop, if_pos hi, hrec, List.range'_succ, take_succ_set hi, hdrop]
    simp

/-- A copy that leaves one of the objects does so at its last access. -/
lemma memcpyLoop_astray : ∀ (n i : ℕ) (src dst : List UInt8), i ≤ dst.length →
    ¬ (n ≤ src.length ∧ i + n ≤ dst.length) →
    (memcpyLoop i n src dst).2 = .error .outOfBounds ∧
      (.reply (i + src.length) ∈ (memcpyLoop i n src dst).1 ∨
        .store dst.length ∈ (memcpyLoop i n src dst).1) := by
  intro n
  induction n with
  | zero =>
    intro i src dst hi hout
    exact absurd ⟨Nat.zero_le _, hi⟩ hout
  | succ n ih =>
    intro i src dst hi hout
    cases src with
    | nil => exact ⟨rfl, Or.inl (by simp [memcpyLoop])⟩
    | cons b src =>
      by_cases hlt : i < dst.length
      · have hrec := ih (i + 1) src (dst.set i b) (by simpa using hlt) (by
          rw [List.length_set]
          rw [List.length_cons] at hout
          omega)
        simp only [memcpyLoop, if_pos hlt]
        refine ⟨hrec.1, hrec.2.imp (fun h => ?_) fun h => ?_⟩
        · rw [List.length_cons, show i + (src.length + 1) = i + 1 + src.length by omega]
          exact List.mem_cons_of_mem _ (List.mem_cons_of_mem _ h)
        · rw [List.length_set] at h
          exact List.mem_cons_of_mem _ (List.mem_cons_of_mem _ h)
      · have hie : i = dst.length := by omega
        simp only [memcpyLoop, if_neg hlt]
        exact ⟨trivial, Or.inr (by simp [hie])⟩

/-- A copy reads on up to the first byte behind the source. -/
lemma reply_mem_memcpyLoop : ∀ (j n i : ℕ) (src dst : List UInt8), j < n → j ≤ src.length →
    i + j ≤ dst.length → .reply (i + j) ∈ (memcpyLoop i n src dst).1 := by
  intro j
  induction j with
  | zero =>
    intro n i src dst hn _ _
    obtain ⟨n, rfl⟩ := Nat.exists_eq_succ_of_ne_zero hn.ne'
    cases src with
    | nil => simp [memcpyLoop]
    | cons b src =>
      rw [memcpyLoop]
      split_ifs
      · simp
      · simp
  | succ j ih =>
    intro n i src dst hn hsrc hdst
    obtain ⟨n, rfl⟩ := Nat.exists_eq_succ_of_ne_zero (Nat.ne_zero_of_lt hn)
    obtain ⟨b, src, rfl⟩ := List.exists_cons_of_length_pos (Nat.lt_of_lt_of_le j.succ_pos hsrc)
    have hrec := ih n (i + 1) src (dst.set i b) (Nat.lt_of_succ_lt_succ hn) (by simpa using hsrc)
      (by rw [List.length_set]; omega)
    rw [memcpyLoop, if_pos (by omega), show i + (j + 1) = i + 1 + j by omega]
    exact List.mem_cons_of_mem _ (List.mem_cons_of_mem _ hrec)

section Memcpy

variable {dst src : List UInt8} {n : ℕ}

lemma memcpyTraced_ok (hsrc : n ≤ src.length) (hdst : n ≤ dst.length) :
    memcpyTraced dst (some src) n = (memcpyTrace n, .ok (src.take n ++ dst.drop n)) := by
  rw [memcpyTraced, memcpyLoop_ok n 0 src dst hsrc (by omega), memcpyTrace, List.range_eq_range']
  simp

lemma memcpyTraced_astray (h : ¬ (n ≤ src.length ∧ n ≤ dst.length)) :
    (memcpyTraced dst (some src) n).2 = .error .outOfBounds ∧
      (.reply src.length ∈ (memcpyTraced dst (some src) n).1 ∨
        .store dst.length ∈ (memcpyTraced dst (some src) n).1) := by
  have hloop := memcpyLoop_astray n 0 src dst (Nat.zero_le _) (by rwa [Nat.zero_add])
  rwa [Nat.zero_add] at hloop

lemma reply_mem_memcpyTraced {j : ℕ} (hn : j < n) (hsrc : j ≤ src.length) (hdst : j ≤ dst.length) :
    .reply j ∈ (memcpyTraced dst (some src) n).1 := by
  have hloop := reply_mem_memcpyLoop j n 0 src dst hn hsrc (by rwa [Nat.zero_add])
  rwa [Nat.zero_add] at hloop

lemma memcpy_null : memcpy dst none n = if n = 0 then .ok dst else .error .nullCopy := by
  rw [memcpy, memcpyTraced]
  split_ifs
  · rfl
  · rfl

lemma memcpy_some :
    memcpy dst (some src) n
      = if n ≤ src.length ∧ n ≤ dst.length then .ok (src.take n ++ dst.drop n)
        else .error .outOfBounds := by
  split_ifs with h
  · rw [memcpy, memcpyTraced_ok h.1 h.2]
  · exact (memcpyTraced_astray h).1

end Memcpy

/-- The first `n` of the eight bytes at `data[0]` and `data[1]`. -/
def requestReads (n : ℕ) : List ActionAccess := (List.range n).map .request

/-- `do_action(es)`, with its accesses: the two words at the payload of the first pbuf are the
request, and the reply goes over them. -/
def doActionTraced (nl : NetlinkEnv) (w : World) : List ActionAccess × Except Fault World :=
  match w.es with
  | none => ([], .error .danglingEs)
  | some es =>
    match es.p with
    | none => ([], .error .dangling)
    | some a =>
      match w.heap a with
      | none => ([], .error .dangling)
      | some b =>
        if b.payload.length < 8 then (requestReads (b.payload.length + 1), .error .outOfBounds)
        else
          let address := word b.payload 0
          let length := word b.payload 1
          match sendNetlinkRequest nl w.nlOpen address length with
          | .error f => (requestReads 8, .error f)
          | .ok r =>
            let c := memcpyTraced b.payload r.2 length
            (requestReads 8 ++ c.1, c.2.map fun payload => { w with
              nlOpen := r.1
              heap := set w.heap a { b with len := u16 length, payload := payload } })

/-- What `do_action` does. -/
def doAction (nl : NetlinkEnv) (w : World) : Except Fault World := (doActionTraced nl w).2

/-- The accesses of `do_action`, up to one that leaves its object or a call that does not
return. -/
def doActionTrace (nl : NetlinkEnv) (w : World) : List ActionAccess := (doActionTraced nl w).1

/-- `do_action` when `es->p` points to a pbuf. -/
lemma doAction_of_head (nl : NetlinkEnv) {w : World} {es : Es} {a : ℕ} {b : Pbuf}
    (hes : w.es = some es) (hp : es.p = some a) (hb : w.heap a = some b) :
    doAction nl w =
      if b.payload.length < 8 then .error .outOfBounds
      else (do
        let r ← sendNetlinkRequest nl w.nlOpen (word b.payload 0) (word b.payload 1)
        let payload ← memcpy b.payload r.2 (word b.payload 1)
        .ok { w with
          nlOpen := r.1
          heap := set w.heap a { b with len := u16 (word b.payload 1), payload := payload } }) := by
  rw [doAction, doActionTraced]
  simp only [hes, hp, hb]
  split_ifs with hlen
  · rfl
  cases sendNetlinkRequest nl w.nlOpen (word b.payload 0) (word b.payload 1) with
  | error f => rfl
  | ok r =>
    show Except.map _ (memcpy b.payload r.2 (word b.payload 1))
      = (memcpy b.payload r.2 (word b.payload 1)).bind _
    cases memcpy b.payload r.2 (word b.payload 1) with
    | error f => rfl
    | ok payload => rfl

/-- `tcp_raw_close(tpcb, es)`. -/
def tcpRawClose (tcp : TcpEnv) (w : World) : Except Fault World := do
  -- the callbacks and their argument are cleared before `es` is freed
  let w ← tcpRawFree { w with
    pcb := { w.pcb with callbackArg := false, sent := false, recv := false, errf := false,
                        poll := false } }
  .ok { w with
    pcb := { w.pcb with life := if tcp.close = .ok then .closed else w.pcb.life } }

/-- `if (es->p != NULL) pbuf_ref(es->p)`. -/
def refNext (h : Heap Pbuf) : Option ℕ → Except Fault (Heap Pbuf)
  | some q => pbufRef h q
  | none => .ok h

/-- The loop of `tcp_raw_send`, with `k` writes made so far, all of them accepted.  The result
has the number of writes and the last value of `wr_err`. -/
def tcpRawSendLoop (tcp : TcpEnv) : ℕ → ℕ → World → Except Fault (World × ℕ × ErrT)
  | 0, _, _ => .error .diverged
  | fuel + 1, k, w =>
    match w.es with
    | none => .error .danglingEs
    | some es =>
      match es.p with
      | none => .ok (w, k, .ok)
      | some ptr =>
        match w.heap ptr with
        | none => .error .dangling
        | some b =>
          if b.len ≤ tcp.sndbuf k then
            if tcp.write k = .ok then do
              let heap ← refNext w.heap b.next
              let w ← World.pbufFree { w with
                heap := heap
                es := some { es with p := b.next }
                io := { w.io with written := w.io.written ++ b.payload.take b.len } } (some ptr)
              tcpRawSendLoop tcp fuel (k + 1) (w.tcpRecved b.len)
            -- on `ERR_MEM` the source stores `ptr` back to `es->p`, where it still is
            else .ok (w, k + 1, tcp.write k)
          else .ok (w, k, .ok)

/-- `tcp_raw_send(tpcb, es)`. -/
def tcpRawSend (tcp : TcpEnv) (w : World) : Except Fault (World × ℕ × ErrT) :=
  tcpRawSendLoop tcp (w.nextPtr + 1) 0 w

/-- `tcp_raw_error(arg, err)`. -/
def tcpRawError (w : World) : Except Fault World :=
  if w.pcb.callbackArg then tcpRawFree w else .ok w

/-- `tcp_raw_poll(arg, tpcb)`. -/
def tcpRawPoll (tcp : TcpEnv) (w : World) : Except Fault (World × ErrT) :=
  if w.pcb.callbackArg then
    match w.es with
    | none => .error .danglingEs
    | some es =>
      match es.p with
      | some _ => do
        let r ← tcpRawSend tcp w
        .ok (r.1, .ok)
      | none =>
        if es.state = .closing then do
          let w ← tcpRawClose tcp w.calledClose
          .ok (w, .ok)
        else .ok (w, .ok)
  else
    -- nothing to be done: `tcp_abort`
    .ok ({ w with
      pcb := ⟨false, false, false, false, false, .gone⟩
      io := { w.io with aborts := w.io.aborts + 1 } }, .abrt)

/-- `tcp_raw_sent(arg, tpcb, len)`, which does not look at `len`. -/
def tcpRawSent (tcp : TcpEnv) (w : World) : Except Fault (World × ErrT) :=
  if w.pcb.callbackArg then
    match w.es with
    | none => .error .danglingEs
    | some es =>
      let w := { w with es := some { es with retries := 0 } }
      match es.p with
      | some _ => do
        let r ← tcpRawSend tcp { w with pcb := { w.pcb with sent := true } }
        .ok (r.1, .ok)
      | none =>
        if es.state = .closing then do
          let w ← tcpRawClose tcp w.calledClose
          .ok (w, .ok)
        else .ok (w, .ok)
  else .error .nullEs

/-- The part that two branches of `tcp_raw_recv` share: the chain at `p` is stored in the
empty `es->p`, served by `do_action` and sent. -/
def takeChain (nl : NetlinkEnv) (tcp : TcpEnv) (w : World) (es : Es) (p : ℕ) :
    Except Fault World := do
  let w ← doAction nl { w with es := some { es with state := .received, p := some p } }
  let r ← tcpRawSend tcp w
  .ok r.1

/-- `tcp_raw_recv(arg, tpcb, p, err)`. -/
def tcpRawRecv (nl : NetlinkEnv) (tcp : TcpEnv) (w : World) (p : Option ℕ) (err : ErrT) :
    Except Fault (World × ErrT) :=
  if w.pcb.callbackArg then
    match w.es with
    | none => .error .danglingEs
    | some es =>
      match p with
      | none =>
        -- remote host closed connection
        let w := { w with es := some { es with state := .closing } }
        match es.p with
        | none => do
          let w ← tcpRawClose tcp w.calledClose
          .ok (w, .ok)
        | some _ => do
          let r ← tcpRawSend tcp w
          .ok (r.1, .ok)
      | some p =>
        if err ≠ .ok then do
          -- cleanup, for unknown reason
          let w ← w.pbufFree (some p)
          .ok (w, err)
        else
          match es.state with
          | .accepted => do
            let w ← takeChain nl tcp w es p
            .ok (w, .ok)
          | .received =>
            match es.p with
            | none => do
              let w ← takeChain nl tcp w es p
              .ok (w, .ok)
            | some ptr => do
              -- appended as it is: `do_action` is not called
              let heap ← pbufCat w.nextPtr w.heap ptr p
              .ok ({ w with heap := heap }, .ok)
          | _ =>
            -- unknown `es->state`, trash data
            match w.heap p with
            | none => .error .dangling
            | some b => do
              let w ← (w.tcpRecved b.totLen).pbufFree (some p)
              .ok (w, .ok)
  else .error .assertArg

/-- `tcp_raw_accept(arg, newpcb, err)`; `malloc` tells whether `mem_malloc` succeeds. -/
def tcpRawAccept (newpcb malloc : Bool) (err : ErrT) (w : World) : World × ErrT :=
  if err ≠ .ok ∨ newpcb = false then (w, .val)
  else if malloc then
    ({ w with
      es := some ⟨.accepted, 0, none⟩
      pcb := { w.pcb with callbackArg := true, recv := true, errf := true, poll := true,
                          sent := true } }, .ok)
  else (w, .mem)

/-! ## Events -/

/-- A pbuf of a delivered chain: its buffer from the payload pointer on, and how many bytes of
it are data. -/
structure Seg where
  buf : List UInt8
  len : ℕ
  len_le : len ≤ buf.length

/-- A chain that lwIP delivers: it has a first pbuf, and its total length fits the field
`tot_len`. -/
structure Delivery where
  head : Seg
  rest : List Seg
  total_lt : ((head :: rest).map Seg.len).sum < 2 ^ 16

namespace Delivery

variable (d : Delivery)

/-- All pbufs of a delivery. -/
def segs : List Seg := d.head :: d.rest

/-- The number of bytes of a delivery. -/
def total : ℕ := (d.segs.map Seg.len).sum

/-- The data of a delivery. -/
def bytes : List UInt8 := d.segs.flatMap fun s => s.buf.take s.len

end Delivery

/-- The buffers of a delivered chain, numbered from `ptr` on. -/
def layOut : ℕ → List Seg → List Buf
  | _, [] => []
  | ptr, s :: ss => ⟨ptr, s.buf, ((s :: ss).map Seg.len).sum, s.len⟩ :: layOut (ptr + 1) ss

/-- What lwIP has for the connection. -/
inductive Event where
  /-- Data has arrived. -/
  | recv (d : Delivery) (nl : NetlinkEnv) (tcp : TcpEnv)
  /-- The peer has closed its side. -/
  | fin (tcp : TcpEnv)
  /-- The peer has acknowledged data. -/
  | sent (tcp : TcpEnv)
  /-- The poll timer has expired. -/
  | poll (tcp : TcpEnv)
  /-- The connection has failed; lwIP releases the control block. -/
  | err (e : ErrT)

/-- lwIP allocates a fresh chain, with one reference to every pbuf, and takes its length off
the receive window. -/
def deliver (w : World) (d : Delivery) : World :=
  { w with
    heap := store w.heap (nodes (layOut w.nextPtr d.segs) none)
    nextPtr := w.nextPtr + d.segs.length
    io := { w.io with wnd := w.io.wnd ++ [.deliver d.total] } }

/-- The data of the chain at `p` after a call, if that returns. -/
def dataAfter (p : ℕ) : Except Fault World → List UInt8
  | .ok w => World.dataOf (w.chainFrom (some p))
  | .error _ => []

/-- The data of the chain at `p` when `do_action` has served it. -/
def servedData (nl : NetlinkEnv) (w : World) (p : ℕ) : List UInt8 :=
  dataAfter p (doAction nl { w with es := some ⟨.received, 0, some p⟩ })

/-- The bytes that the chain at `p` has to bring to `es->p`: if nothing is pending, what `do_action`
makes of the chain; behind what is pending, the chain as it is; nothing if it is thrown away. -/
def arriving (nl : NetlinkEnv) (w : World) (p : ℕ) : List UInt8 :=
  match w.es with
  | none => []
  | some es =>
    match es.state, es.p with
    | .accepted, _ => servedData nl w p
    | .received, none => servedData nl w p
    | .received, some _ => World.dataOf (w.chainFrom (some p))
    | _, _ => []

/-- The answers of an exchange that does not take place. -/
def NetlinkEnv.unused : NetlinkEnv := ⟨true, true, true, true, id, []⟩

/-- One event.  Without an installed callback lwIP deals with it alone, and the server is not
involved. -/
def step (w : World) : Event → Except Fault World
  | .recv d nl tcp =>
    if w.pcb.recv then
      let bs := arriving nl (deliver w d) w.nextPtr
      (tcpRawRecv nl tcp ((deliver w d).enqueue bs) (some w.nextPtr) .ok).map Prod.fst
    else .ok w
  | .fin tcp =>
    if w.pcb.recv then
      (tcpRawRecv .unused tcp w none .ok).map Prod.fst
    else .ok w
  | .sent tcp => if w.pcb.sent then (tcpRawSent tcp w).map Prod.fst else .ok w
  | .poll tcp => if w.pcb.poll then (tcpRawPoll tcp w).map Prod.fst else .ok w
  | .err _ =>
    if w.pcb.errf then
      (tcpRawError w.calledError).map fun w =>
        { w with pcb := ⟨false, false, false, false, false, .gone⟩ }
    else .ok w

/-- The connection before `tcp_raw_accept`. -/
def fresh : World where
  heap := empty
  es := none
  pcb := ⟨false, false, false, false, false, .opened⟩
  nlOpen := 0
  nextPtr := 0
  io := ⟨[], [], [], [], [], 0, 0, 0⟩

/-- The connection after `tcp_raw_accept`. -/
def start : World := (tcpRawAccept true true .ok fresh).1

end Server
end DeepForensics
