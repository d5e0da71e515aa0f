/-
# The callbacks refine the queue

Every abstract connection has its image among the states of the server: the pending buffers
are laid out in the heap as a chain, with nothing else allocated.  On these images a step of
the server is the image of a step of the queue, faults included (`step_toWorld`), and so is a
run from `tcp_raw_accept` (`exec_toWorld`).  All that is said about reachable states of the
server below rests on this one equation.
-/
import DeepForensics.Server.Queue

namespace DeepForensics
namespace Server
namespace Queue

open PtrHeap Wire Runs Conn

/-- The heap in which exactly the given buffers are allocated, linked in order. -/
def heapOf (bs : List Buf) : Heap Pbuf := store empty (nodes bs none)

/-- The record `es` in a phase. -/
def Phase.es : Phase → Option Es
  | .accepted => some ⟨.accepted, 0, none⟩
  | .received bs => some ⟨.received, 0, headPtr bs none⟩
  | .closing bs => some ⟨.closing, 0, headPtr bs none⟩
  | .closed => none

/-- The callbacks are installed, with `es` as their argument, as long as `es` exists. -/
def Phase.pcb (ph : Phase) (life : PcbLife) : Pcb :=
  ⟨ph.es.isSome, ph.es.isSome, ph.es.isSome, ph.es.isSome, ph.es.isSome, life⟩

/-- The image of an abstract connection. -/
def Conn.toWorld (c : Conn) : World where
  heap := heapOf c.phase.pending
  es := c.phase.es
  pcb := c.phase.pcb c.life
  nlOpen := c.nlOpen
  nextPtr := c.nextPtr
  io := c.io

/-- Buffers with increasing numbers below `n`. -/
structure Fits (n : ℕ) (bs : List Buf) : Prop where
  sorted : (bs.map Buf.ptr).Pairwise (· < ·)
  lt : ∀ b ∈ bs, b.ptr < n

namespace Fits

variable {n m : ℕ} {b : Buf} {bs cs : List Buf}

lemma nodup (h : Fits n bs) : (bs.map Buf.ptr).Nodup :=
  h.sorted.imp fun hlt => Nat.ne_of_lt hlt

lemma nil (n : ℕ) : Fits n [] := ⟨List.Pairwise.nil, by simp⟩

lemma tail (h : Fits n (b :: bs)) : Fits n bs :=
  ⟨(List.pairwise_cons.mp h.sorted).2, fun c hc => h.lt c (List.mem_cons_of_mem _ hc)⟩

lemma suffix (h : Fits n (bs ++ cs)) : Fits n cs :=
  ⟨(List.pairwise_append.mp (by simpa using h.sorted)).2.1,
    fun c hc => h.lt c (List.mem_append_right _ hc)⟩

lemma mono (h : Fits n bs) (hnm : n ≤ m) : Fits m bs :=
  ⟨h.sorted, fun b hb => (h.lt b hb).trans_le hnm⟩

lemma length_le (h : Fits n bs) : bs.length ≤ n := by
  have hsub : bs.map Buf.ptr ⊆ List.range n := by
    intro a ha
    obtain ⟨b, hb, rfl⟩ := List.mem_map.mp ha
    exact List.mem_range.mpr (h.lt b hb)
  simpa using (List.subperm_of_subset h.nodup hsub).length_le

lemma append (h : Fits n bs) (h' : Fits m cs) (hle : n ≤ m) (hge : ∀ c ∈ cs, n ≤ c.ptr) :
    Fits m (bs ++ cs) := by
  refine ⟨?_, ?_⟩
  · rw [List.map_append, List.pairwise_append]
    refine ⟨h.sorted, h'.sorted, ?_⟩
    simp only [List.mem_map]
    rintro _ ⟨b, hb, rfl⟩ _ ⟨c, hc, rfl⟩
    exact (h.lt b hb).trans_le (hge c hc)
  · intro b hb
    rcases List.mem_append.mp hb with hb | hb
    · exact (h.lt b hb).trans_le hle
    · exact h'.lt b hb

lemma of_map_ptr (h : Fits n bs) (hptr : cs.map Buf.ptr = bs.map Buf.ptr) : Fits n cs := by
  refine ⟨hptr ▸ h.sorted, fun c hc => ?_⟩
  have hmem : c.ptr ∈ bs.map Buf.ptr := hptr ▸ List.mem_map_of_mem hc
  obtain ⟨b, hb, hbc⟩ := List.mem_map.mp hmem
  exact hbc ▸ h.lt b hb

end Fits

lemma layOut_ge (n : ℕ) (ss : List Seg) : ∀ b ∈ layOut n ss, n ≤ b.ptr := by
  induction ss generalizing n with
  | nil => simp [layOut]
  | cons s ss ih =>
    intro b hb
    rcases List.mem_cons.mp hb with rfl | hb
    · exact le_rfl
    · exact (Nat.le_succ n).trans (ih (n + 1) b hb)

/-- A delivered chain has the next numbers. -/
lemma fits_layOut (n : ℕ) (ss : List Seg) : Fits (n + ss.length) (layOut n ss) := by
  induction ss generalizing n with
  | nil => exact Fits.nil _
  | cons s ss ih =>
    have h := ih (n + 1)
    refine ⟨?_, ?_⟩
    · refine List.pairwise_cons.mpr ⟨?_, h.sorted⟩
      intro a ha
      obtain ⟨b, hb, rfl⟩ := List.mem_map.mp ha
      exact layOut_ge (n + 1) ss b hb
    · intro b hb
      rcases List.mem_cons.mp hb with rfl | hb
      · simp
      · have := h.lt b hb
        simp only [List.length_cons]
        omega

/-- An abstract connection whose pending buffers have numbers of their own. -/
def WF (c : Conn) : Prop := Fits c.nextPtr c.phase.pending

/-! ## The send loop -/

/-- The first buffer is found at its address. -/
lemma heapOf_head (b : Buf) (bs : List Buf) :
    heapOf (b :: bs) b.ptr = some (b.node (headPtr bs none)) := by
  rw [heapOf, nodes_cons, store_cons, set_same]

/-- The chop of the send loop on the heap of a queue. -/
lemma chop_heapOf {n : ℕ} {b : Buf} {bs : List Buf} (h : Fits n (b :: bs)) :
    ∃ h', refNext (heapOf (b :: bs)) (headPtr bs none) = .ok h' ∧
      pbufFree n h' (some b.ptr) = .ok (heapOf bs, [b.ptr]) := by
  have hlen := h.length_le
  cases bs with
  | nil =>
    refine ⟨heapOf [b], rfl, ?_⟩
    exact pbufFree_chain h.nodup (by simp) n hlen
  | cons c cs =>
    obtain ⟨m, rfl⟩ : ∃ m, n = m + 2 := ⟨n - 2, by simp at hlen; omega⟩
    exact pbufFree_chop h.nodup rfl m

section SendLoop

variable {tcp : TcpEnv} {w : World} {es : Es} {ptr k : ℕ} {b : Pbuf}

lemma tcpRawSendLoop_blocked (hes : w.es = some es) (hp : es.p = some ptr)
    (hb : w.heap ptr = some b) (hlen : ¬ b.len ≤ tcp.sndbuf k) (fuel : ℕ) :
    tcpRawSendLoop tcp (fuel + 1) k w = .ok (w, k, .ok) := by
  simp only [tcpRawSendLoop, hes, hp, hb, if_neg hlen]

lemma tcpRawSendLoop_failed (hes : w.es = some es) (hp : es.p = some ptr)
    (hb : w.heap ptr = some b) (hlen : b.len ≤ tcp.sndbuf k) (hw : tcp.write k ≠ .ok)
    (fuel : ℕ) : tcpRawSendLoop tcp (fuel + 1) k w = .ok (w, k + 1, tcp.write k) := by
  simp only [tcpRawSendLoop, hes, hp, hb, if_pos hlen, if_neg hw]

lemma tcpRawSendLoop_written {h h' : Heap Pbuf} {dead : List ℕ} (hes : w.es = some es)
    (hp : es.p = some ptr) (hb : w.heap ptr = some b) (hlen : b.len ≤ tcp.sndbuf k)
    (hw : tcp.write k = .ok) (href : refNext w.heap b.next = .ok h)
    (hfree : pbufFree w.nextPtr h (some ptr) = .ok (h', dead)) (fuel : ℕ) :
    tcpRawSendLoop tcp (fuel + 1) k w
      = tcpRawSendLoop tcp fuel (k + 1) { w with
          heap := h'
          es := some { es with p := b.next }
          io := { w.io with
            written := w.io.written ++ b.payload.take b.len
            freed := w.io.freed ++ dead
            wnd := w.io.wnd ++ [.credit b.len] } } := by
  rw [tcpRawSendLoop]
  simp only [hes, hp, hb, if_pos hlen, if_pos hw, href, World.pbufFree, World.tcpRecved]
  show ((Except.map _ (pbufFree w.nextPtr h (some ptr))).bind _) = _
  rw [hfree]
  rfl

end SendLoop

@[simp] lemma sent_nil (io : Io) : sent io [] = io := by
  simp [sent]

lemma sent_sent (io : Io) (bs cs : List Buf) : sent (sent io bs) cs = sent io (bs ++ cs) := by
  simp [sent]

/-- The send loop refines `send`.  The world stands for everything the loop does not touch. -/
lemma tcpRawSendLoop_heapOf (tcp : TcpEnv) (es : Es) (bs : List Buf) :
    ∀ (fuel k : ℕ) (w : World), Fits w.nextPtr bs → bs.length < fuel →
      tcpRawSendLoop tcp fuel k
          { w with heap := heapOf bs, es := some { es with p := headPtr bs none } }
        = .ok ({ w with
              heap := heapOf (send tcp k bs).2.1
              es := some { es with p := headPtr (send tcp k bs).2.1 none }
              io := sent w.io (send tcp k bs).1 }, (send tcp k bs).2.2) := by
  induction bs with
  | nil =>
    intro fuel k w _ hf
    obtain ⟨fuel, rfl⟩ : ∃ j, fuel = j + 1 := ⟨fuel - 1, by simp at hf; omega⟩
    rw [send, sent_nil]
    rfl
  | cons b bs ih =>
    intro fuel k w hfit hf
    obtain ⟨fuel, rfl⟩ : ∃ j, fuel = j + 1 := ⟨fuel - 1, by simp at hf; omega⟩
    have hhead := heapOf_head b bs
    rw [send]
    by_cases hlen : b.len ≤ tcp.sndbuf k
    · by_cases hw : tcp.write k = .ok
      · -- the head is written and chopped off; what is left is the queue without it
        obtain ⟨h, href, hfree⟩ := chop_heapOf hfit
        have hrec := ih fuel (k + 1) { w with io := sent w.io [b] } hfit.tail (by simpa using hf)
        rw [sent_sent] at hrec
        rw [if_pos hlen, if_pos hw]
        refine (tcpRawSendLoop_written (w := { w with
          heap := heapOf (b :: bs), es := some { es with p := headPtr (b :: bs) none } })
          rfl rfl hhead hlen hw href hfree fuel).trans ?_
        simpa [sent, Buf.node, Buf.bytes, dataOf] using hrec
      · rw [if_pos hlen, if_neg hw, sent_nil]
        exact tcpRawSendLoop_failed rfl rfl hhead hlen hw fuel
    · rw [if_neg hlen, sent_nil]
      exact tcpRawSendLoop_blocked rfl rfl hhead hlen fuel

/-- `tcp_raw_send` on the image of a connection, in the phase `ph`. -/
lemma tcpRawSend_toWorld (tcp : TcpEnv) (c : Conn) {ph : List Buf → Phase}
    (hph : ph = .received ∨ ph = .closing) {bs : List Buf} (hfit : Fits c.nextPtr bs) :
    tcpRawSend tcp (Conn.toWorld { c with phase := ph bs })
      = .ok ((sendIn tcp c ph bs).toWorld, (send tcp 0 bs).2.2) := by
  have hfuel : bs.length < c.nextPtr + 1 := Nat.lt_succ_of_le hfit.length_le
  rcases hph with rfl | rfl
  · exact tcpRawSendLoop_heapOf tcp ⟨.received, 0, none⟩ bs _ 0
      (Conn.toWorld { c with phase := .received bs }) hfit hfuel
  · exact tcpRawSendLoop_heapOf tcp ⟨.closing, 0, none⟩ bs _ 0
      (Conn.toWorld { c with phase := .closing bs }) hfit hfuel

/-! ## Freeing and closing -/

lemma pbufFree_heapOf {n : ℕ} {bs : List Buf} (h : Fits n bs) :
    pbufFree n (heapOf bs) (headPtr bs none) = .ok (empty, bs.map Buf.ptr) :=
  pbufFree_chain h.nodup (fun _ _ => rfl) n h.length_le

/-- Freeing `es` frees what is pending. -/
lemma tcpRawFree_heapOf {w : World} {es : Es} {bs : List Buf} (hfit : Fits w.nextPtr bs)
    (hheap : w.heap = heapOf bs) (hes : w.es = some es) (hp : es.p = headPtr bs none) :
    tcpRawFree w = .ok { w with
      heap := empty
      es := none
      io := { w.io with
        freed := w.io.freed ++ bs.map Buf.ptr
        esFrees := w.io.esFrees + 1 } } := by
  have hfree : freeChain w es.p = .ok { w with
      heap := empty, io := { w.io with freed := w.io.freed ++ bs.map Buf.ptr } } := by
    cases bs with
    | nil => simp [hp, freeChain, ← show w.heap = empty from hheap]
    | cons b bs =>
      rw [hp, headPtr_cons, freeChain, World.pbufFree, hheap, ← headPtr_cons b bs none,
        pbufFree_heapOf hfit]
      rfl
  simp only [tcpRawFree, hes, hfree]
  rfl

/-- `tcp_raw_close` with nothing pending. -/
lemma tcpRawClose_toWorld (tcp : TcpEnv) (c : Conn) :
    tcpRawClose tcp (Conn.toWorld { c with phase := .closing [] }).calledClose
      = .ok (close tcp c).toWorld := by
  rw [tcpRawClose]
  simp only [World.calledClose, Conn.toWorld, Phase.es, headPtr_nil]
  rw [tcpRawFree_heapOf (Fits.nil _) rfl rfl rfl]
  simp [close, Phase.es, Phase.pcb, Bind.bind, Except.bind, heapOf]

/-! ## Receiving -/

lemma chainFrom_nodes {w : World} {h : Heap Pbuf} {bs : List Buf} (hnd : (bs.map Buf.ptr).Nodup)
    (hlen : bs.length ≤ w.nextPtr) (hheap : w.heap = store h (nodes bs none)) :
    w.chainFrom (headPtr bs none) = nodes bs none := by
  rw [World.chainFrom, hheap]
  exact walk_store_link Buf.node_next hnd h hlen

lemma dataOf_nodes (bs : List Buf) (tl : Option ℕ) : World.dataOf (nodes bs tl) = dataOf bs := by
  induction bs with
  | nil => rfl
  | cons b bs ih =>
    rw [nodes_cons, World.dataOf, List.flatMap_cons, dataOf_cons, ← ih]
    rfl

/-- `do_action` rewrites the head of the chain and nothing else. -/
lemma doAction_toWorld (nl : NetlinkEnv) (c : Conn) (b : Buf) (bs : List Buf) :
    doAction nl (Conn.toWorld { c with phase := .received (b :: bs) })
      = (action nl c.nlOpen b).map fun r =>
          Conn.toWorld { c with nlOpen := r.1, phase := .received (r.2 :: bs) } := by
  rw [doAction_of_head nl rfl rfl (heapOf_head b bs)]
  by_cases hlen : b.payload.length < 8
  · rw [action, if_pos hlen]
    exact if_pos hlen
  refine (if_neg hlen).trans ?_
  rw [action, if_neg hlen]
  simp only [Conn.toWorld, Phase.es, Phase.pending_received, Buf.node]
  dsimp only [Bind.bind, Except.bind]
  cases sendNetlinkRequest nl c.nlOpen (word b.payload 0) (word b.payload 1) with
  | error f => rfl
  | ok r =>
    dsimp only
    cases memcpy b.payload r.2 (word b.payload 1) with
    | error f => rfl
    | ok payload =>
      simp only [Except.map, heapOf, nodes_cons, store_cons, set_set]
      rfl

lemma fits_delivered (c : Conn) (d : Delivery) :
    Fits (delivered c d).nextPtr (layOut c.nextPtr d.segs) := fits_layOut c.nextPtr d.segs

/-- The chain after `do_action` stands where it stood before. -/
lemma fits_action {nl : NetlinkEnv} {c : Conn} {d : Delivery} {m : ℕ} {b : Buf}
    (h : action nl c.nlOpen (headBuf c.nextPtr d) = .ok (m, b)) :
    Fits (delivered c d).nextPtr (b :: restBufs c.nextPtr d) := by
  obtain ⟨_, _, _, _, hptr, _⟩ := action_ok h
  refine (fits_delivered c d).of_map_ptr ?_
  rw [List.map_cons, hptr]
  rfl

/-- A chain that is taken is served and sent; `c` has the delivered pbufs among its numbers. -/
lemma takeChain_toWorld (nl : NetlinkEnv) (tcp : TcpEnv) (c : Conn) {b : Buf} {bs : List Buf}
    (hfit : Fits c.nextPtr (b :: bs)) {w : World} {es : Es}
    (hw : { w with es := some { es with state := .received, p := some b.ptr } }
      = Conn.toWorld { c with phase := .received (b :: bs) }) :
    takeChain nl tcp w es b.ptr = (action nl c.nlOpen b).map fun r =>
      (sendIn tcp { c with nlOpen := r.1 } .received (r.2 :: bs)).toWorld := by
  rw [takeChain, hw, doAction_toWorld]
  cases ha : action nl c.nlOpen b with
  | error f => rfl
  | ok r =>
    obtain ⟨_, _, _, _, hptr, _⟩ := action_ok ha
    have hfit' : Fits c.nextPtr (r.2 :: bs) := hfit.of_map_ptr (by rw [List.map_cons, hptr]; rfl)
    have hsend := tcpRawSend_toWorld tcp { c with nlOpen := r.1 } (Or.inl rfl) hfit'
    show tcpRawSend tcp (Conn.toWorld { c with
      nlOpen := r.1, phase := .received (r.2 :: bs) }) >>= _ = _
    rw [hsend]
    rfl

/-- The heap with a chain pending and another one delivered. -/
lemma deliver_heap (c : Conn) (d : Delivery) :
    (deliver c.toWorld d).heap
      = store (heapOf c.phase.pending) (nodes (layOut c.nextPtr d.segs) none) := rfl

/-- Nothing is allocated yet where a chain is delivered. -/
lemma heapOf_layOut {c : Conn} (h : WF c) (d : Delivery) :
    ∀ b ∈ layOut c.nextPtr d.segs, heapOf c.phase.pending b.ptr = none := by
  intro b hb
  have hge := layOut_ge c.nextPtr d.segs b hb
  rw [heapOf, store_of_notMem, empty_apply]
  rw [nodes_map_fst, List.mem_map]
  rintro ⟨b', hb', heq⟩
  have := h.lt b' hb'
  omega

/-- `pbuf_cat` joins the pending chain and the delivered one. -/
lemma pbufCat_deliver {c : Conn} (h : WF c) {b : Buf} {bs : List Buf}
    (hph : c.phase.pending = b :: bs) (d : Delivery) :
    pbufCat (deliver c.toWorld d).nextPtr (deliver c.toWorld d).heap b.ptr c.nextPtr
      = if (bs.getLastD b).totLen = (bs.getLastD b).len then
          .ok (heapOf ((b :: bs).map (Buf.grow d.total) ++ layOut c.nextPtr d.segs))
        else .error .assertCat := by
  have hfit : Fits c.nextPtr (b :: bs) := hph ▸ h
  have hge : ∀ b' ∈ layOut c.nextPtr d.segs, c.nextPtr ≤ b'.ptr := layOut_ge _ _
  -- the pending chain is seen as written after the delivered one, which it does not overlap
  have hswap : (deliver c.toWorld d).heap
      = store (heapOf (layOut c.nextPtr d.segs)) (nodes (b :: bs) none) := by
    rw [deliver_heap, hph, heapOf, heapOf, store_comm]
    intro x hx hmem
    rw [nodes_map_fst, List.mem_map] at hmem
    obtain ⟨b', hb', heq⟩ := hmem
    have hx' : x.1 ∈ (b :: bs).map Buf.ptr := nodes_map_fst (b :: bs) none ▸ List.mem_map_of_mem hx
    obtain ⟨b'', hb'', heq'⟩ := List.mem_map.mp hx'
    have h1 := hge b' hb'
    have h2 := hfit.lt b'' hb''
    omega
  -- the delivered chain begins at `nextPtr`, which no pending buffer has
  have hnot : c.nextPtr ∉ (b :: bs).map Buf.ptr := by
    intro hmem
    obtain ⟨b', hb', heq⟩ := List.mem_map.mp hmem
    exact absurd heq (hfit.lt b' hb').ne
  have hlen : (b :: bs).length ≤ (deliver c.toWorld d).nextPtr :=
    (hfit.mono (Nat.le_add_right _ _)).length_le
  have hhead : heapOf (layOut c.nextPtr d.segs) c.nextPtr
      = some ((headBuf c.nextPtr d).node (headPtr (restBufs c.nextPtr d) none)) :=
    heapOf_head (headBuf c.nextPtr d) (restBufs c.nextPtr d)
  -- after the join it is one chain again
  have hjoin : heapOf ((b :: bs).map (Buf.grow d.total) ++ layOut c.nextPtr d.segs)
      = store (heapOf (layOut c.nextPtr d.segs))
          (nodes ((b :: bs).map (Buf.grow d.total)) (some c.nextPtr)) := by
    rw [heapOf, nodes_append, store_append]
    rfl
  rw [hswap, pbufCat_chain bs _ b _ hfit.nodup hnot hhead hlen, hjoin]
  rfl

/-! ## The steps -/

lemma map_fst_bind (x : Except Fault World) (e : ErrT) :
    (x >>= fun w => .ok (w, e)).map Prod.fst = x := by
  cases x <;> rfl

section Recv

variable (nl : NetlinkEnv) (tcp : TcpEnv) {c : Conn} (d : Delivery)

/-- Data that arrives is recorded and handed to `tcp_raw_recv`. -/
lemma step_recv (hph : c.phase ≠ .closed) :
    Server.step c.toWorld (.recv d nl tcp)
      = (tcpRawRecv nl tcp ((deliver c.toWorld d).enqueue
          (arriving nl (deliver c.toWorld d) c.nextPtr)) (some c.nextPtr) .ok).map Prod.fst := by
  obtain ⟨ph, life, nlOpen, nextPtr, io⟩ := c
  cases ph with
  | accepted => rfl
  | received bs => rfl
  | closing bs => rfl
  | closed => exact absurd rfl hph

/-- A chain that finds nothing pending brings what `do_action` makes of it. -/
lemma arriving_take (hph : c.phase = .accepted ∨ c.phase = .received []) :
    arriving nl (deliver c.toWorld d) c.nextPtr
      = dataAfter c.nextPtr ((action nl c.nlOpen (headBuf c.nextPtr d)).map fun r =>
          Conn.toWorld { delivered c d with
            nlOpen := r.1, phase := .received (r.2 :: restBufs c.nextPtr d) }) := by
  have hact := doAction_toWorld nl (delivered c d) (headBuf c.nextPtr d) (restBufs c.nextPtr d)
  have hserved : arriving nl (deliver c.toWorld d) c.nextPtr
      = dataAfter c.nextPtr (doAction nl (Conn.toWorld { delivered c d with
          phase := .received (headBuf c.nextPtr d :: restBufs c.nextPtr d) })) := by
    obtain ⟨ph, life, nlOpen, nextPtr, io⟩ := c
    rcases hph with rfl | rfl
    · rfl
    · rfl
  rw [hserved, hact]
  rfl

/-- The data of the chain that `do_action` leaves. -/
lemma dataAfter_action {r : ℕ × Buf} (ha : action nl c.nlOpen (headBuf c.nextPtr d) = .ok r) :
    dataAfter c.nextPtr (.ok (Conn.toWorld { delivered c d with
      nlOpen := r.1, phase := .received (r.2 :: restBufs c.nextPtr d) }))
      = dataOf (r.2 :: restBufs c.nextPtr d) := by
  obtain ⟨_, _, _, _, hptr, _⟩ := action_ok ha
  have hfit := fits_action ha
  have hchain := chainFrom_nodes (w := Conn.toWorld { delivered c d with
    nlOpen := r.1, phase := .received (r.2 :: restBufs c.nextPtr d) }) hfit.nodup
    hfit.length_le rfl
  rw [headPtr_cons, hptr] at hchain
  exact (congrArg World.dataOf hchain).trans (dataOf_nodes _ _)

/-- Whatever has been recorded, a chain that finds nothing pending is taken. -/
lemma tcpRawRecv_enqueue (hph : c.phase = .accepted ∨ c.phase = .received []) (bs : List UInt8) :
    (tcpRawRecv nl tcp ((deliver c.toWorld d).enqueue bs) (some c.nextPtr) .ok).map Prod.fst
      = (action nl c.nlOpen (headBuf c.nextPtr d)).map fun r =>
        (sendIn tcp { delivered c d with
          nlOpen := r.1
          io := { (delivered c d).io with enqueued := c.io.enqueued ++ bs } }
          .received (r.2 :: restBufs c.nextPtr d)).toWorld := by
  have hfit : Fits (delivered c d).nextPtr (headBuf c.nextPtr d :: restBufs c.nextPtr d) :=
    fits_delivered c d
  obtain ⟨ph, life, nlOpen, nextPtr, io⟩ := c
  rcases hph with rfl | rfl
  · exact (map_fst_bind _ .ok).trans (takeChain_toWorld nl tcp { delivered _ d with
      io := { (delivered _ d).io with enqueued := io.enqueued ++ bs } } hfit rfl)
  · exact (map_fst_bind _ .ok).trans (takeChain_toWorld nl tcp { delivered _ d with
      io := { (delivered _ d).io with enqueued := io.enqueued ++ bs } } hfit rfl)

lemma tcpRawRecv_take (hph : c.phase = .accepted ∨ c.phase = .received []) :
    Server.step c.toWorld (.recv d nl tcp) = (take tcp nl c d).map Conn.toWorld := by
  rw [step_recv nl tcp d (Phase.ne_closed_of_takes hph), tcpRawRecv_enqueue nl tcp d hph,
    arriving_take nl d hph, take]
  cases ha : action nl c.nlOpen (headBuf c.nextPtr d) with
  | error f => rfl
  | ok r =>
    simp only [Except.map, dataAfter_action nl d ha]
    rfl

lemma arriving_append {b : Buf} {bs : List Buf} (hph : c.phase = .received (b :: bs)) :
    arriving nl (deliver c.toWorld d) c.nextPtr = dataOf (layOut c.nextPtr d.segs) := by
  have hfit := fits_delivered c d
  have hchain := chainFrom_nodes (w := deliver c.toWorld d) hfit.nodup hfit.length_le
    (deliver_heap c d)
  change World.chainFrom _ (some c.nextPtr) = _ at hchain
  have hdata : arriving nl (deliver c.toWorld d) c.nextPtr
      = World.dataOf ((deliver c.toWorld d).chainFrom (some c.nextPtr)) := by
    obtain ⟨ph, life, nlOpen, nextPtr, io⟩ := c
    subst hph
    rfl
  rw [hdata, hchain, dataOf_nodes]

lemma tcpRawRecv_append (h : WF c) {b : Buf} {bs : List Buf}
    (hph : c.phase = .received (b :: bs)) :
    Server.step c.toWorld (.recv d nl tcp) = (append c b bs d).map Conn.toWorld := by
  have hrecv : ∀ data, tcpRawRecv nl tcp ((deliver c.toWorld d).enqueue data) (some c.nextPtr) .ok
      = (do
        let heap ← pbufCat (deliver c.toWorld d).nextPtr (deliver c.toWorld d).heap b.ptr c.nextPtr
        .ok ({ (deliver c.toWorld d).enqueue data with heap := heap }, .ok)) := by
    obtain ⟨ph, life, nlOpen, nextPtr, io⟩ := c
    subst hph
    exact fun _ => rfl
  rw [step_recv nl tcp d (by simp [hph]), hrecv, pbufCat_deliver h (by rw [hph]; rfl),
    arriving_append nl d hph, append]
  split_ifs
  · simp only [Conn.toWorld, deliver, hph]
    rfl
  · rfl

lemma arriving_trash {bs : List Buf} (hph : c.phase = .closing bs) :
    arriving nl (deliver c.toWorld d) c.nextPtr = [] := by
  obtain ⟨ph, life, nlOpen, nextPtr, io⟩ := c
  subst hph
  rfl

lemma tcpRawRecv_trash (h : WF c) {bs : List Buf} (hph : c.phase = .closing bs) :
    Server.step c.toWorld (.recv d nl tcp) = .ok (trash c d).toWorld := by
  have hfit := fits_delivered c d
  have hfree : pbufFree (deliver c.toWorld d).nextPtr (deliver c.toWorld d).heap (some c.nextPtr)
      = .ok (heapOf c.phase.pending, (layOut c.nextPtr d.segs).map Buf.ptr) :=
    pbufFree_chain hfit.nodup (heapOf_layOut h d) _ hfit.length_le
  have hhead : (deliver c.toWorld d).heap c.nextPtr
      = some ((headBuf c.nextPtr d).node (headPtr (restBufs c.nextPtr d) none)) := set_same _ _ _
  have hrecv : tcpRawRecv nl tcp (deliver c.toWorld d) (some c.nextPtr) .ok
      = (do
        let w ← ((deliver c.toWorld d).tcpRecved d.total).pbufFree (some c.nextPtr)
        .ok (w, .ok)) := by
    obtain ⟨ph, life, nlOpen, nextPtr, io⟩ := c
    subst hph
    simp only [tcpRawRecv, hhead]
    rfl
  rw [step_recv nl tcp d (by simp [hph]), arriving_trash nl d hph, World.enqueue_nil, hrecv,
    map_fst_bind, World.pbufFree]
  show Except.map _
    (pbufFree (deliver c.toWorld d).nextPtr (deliver c.toWorld d).heap (some c.nextPtr)) = _
  rw [hfree]
  rfl

end Recv

section Nudge

variable (tcp : TcpEnv) (c : Conn)

/-- A callback that sends what is pending. -/
lemma sendIn_toWorld {ph : List Buf → Phase} (hph : ph = .received ∨ ph = .closing)
    {bs : List Buf} (hfit : Fits c.nextPtr bs) :
    (tcpRawSend tcp (Conn.toWorld { c with phase := ph bs }) >>= fun r =>
        (.ok (r.1, .ok) : Except Fault (World × ErrT))).map Prod.fst
      = .ok (sendIn tcp c ph bs).toWorld := by
  rw [tcpRawSend_toWorld tcp c hph hfit]
  rfl

/-- A callback that closes. -/
lemma close_toWorld :
    (tcpRawClose tcp (Conn.toWorld { c with phase := .closing [] }).calledClose >>= fun w =>
        (.ok (w, .ok) : Except Fault (World × ErrT))).map Prod.fst
      = .ok (close tcp c).toWorld := by
  rw [map_fst_bind, tcpRawClose_toWorld]

lemma tcpRawPoll_toWorld {c : Conn} (h : WF c) :
    Server.step c.toWorld (.poll tcp) = .ok (advance tcp c).toWorld := by
  obtain ⟨ph, life, nlOpen, nextPtr, io⟩ := c
  cases ph with
  | accepted => rfl
  | received bs =>
    cases bs with
    | nil => rfl
    | cons b bs => exact sendIn_toWorld tcp _ (Or.inl rfl) h
  | closing bs =>
    cases bs with
    | nil => exact close_toWorld tcp ⟨.closing [], life, nlOpen, nextPtr, io⟩
    | cons b bs => exact sendIn_toWorld tcp _ (Or.inr rfl) h
  | closed => rfl

/-- An acknowledgement is like an expired timer: `retries` and the callback it sets are as they
are. -/
lemma tcpRawSent_eq_poll :
    Server.step c.toWorld (.sent tcp) = Server.step c.toWorld (.poll tcp) := by
  obtain ⟨ph, life, nlOpen, nextPtr, io⟩ := c
  rcases ph with _ | (_ | _) | (_ | _) | _ <;> rfl

/-- The end of input is like an expired timer after the change of state. -/
lemma tcpRawRecv_eq_poll :
    Server.step c.toWorld (.fin tcp)
      = Server.step (Conn.toWorld { c with phase := c.phase.finish }) (.poll tcp) := by
  obtain ⟨ph, life, nlOpen, nextPtr, io⟩ := c
  rcases ph with _ | (_ | _) | (_ | _) | _ <;> rfl

end Nudge

lemma tcpRawError_toWorld {c : Conn} (h : WF c) (x : ErrT) :
    Server.step c.toWorld (.err x) = (step c (.err x)).map Conn.toWorld := by
  have hfree : ∀ es, c.phase.es = some es → es.p = headPtr c.phase.pending none →
      Server.step c.toWorld (.err x) = .ok (fail c).toWorld := by
    intro es hes hp
    have hf := tcpRawFree_heapOf
      (w := Conn.toWorld { c with io := { c.io with errors := c.io.errors + 1 } }) h rfl hes hp
    have hinst : c.phase.es.isSome = true := by rw [hes]; rfl
    simp only [Server.step, tcpRawError, World.calledError, Conn.toWorld, Phase.pcb, hinst, if_true]
    simp only [Conn.toWorld, Phase.pcb, hinst] at hf
    rw [hf]
    rfl
  obtain ⟨ph, life, nlOpen, nextPtr, io⟩ := c
  cases ph with
  | accepted => exact hfree _ rfl rfl
  | received bs => exact hfree _ rfl rfl
  | closing bs => exact hfree _ rfl rfl
  | closed => rfl

/-- **One step.**  A callback of the server on the image of a connection leads to the image of
the abstract step, and faults where the abstract step does. -/
theorem step_toWorld {c : Conn} (h : WF c) (e : Event) :
    Server.step c.toWorld e = (step c e).map Conn.toWorld := by
  cases e with
  | recv d nl tcp =>
    obtain ⟨ph, life, nlOpen, nextPtr, io⟩ := c
    cases ph with
    | accepted => exact tcpRawRecv_take nl tcp d (Or.inl rfl)
    | received bs =>
      cases bs with
      | nil => exact tcpRawRecv_take nl tcp d (Or.inr rfl)
      | cons b bs => exact tcpRawRecv_append nl tcp d h rfl
    | closing bs => exact tcpRawRecv_trash nl tcp d h rfl
    | closed => rfl
  | fin tcp =>
    rw [tcpRawRecv_eq_poll]
    exact tcpRawPoll_toWorld tcp (by simpa [WF] using h)
  | sent tcp =>
    rw [tcpRawSent_eq_poll]
    exact tcpRawPoll_toWorld tcp h
  | poll tcp => exact tcpRawPoll_toWorld tcp h
  | err x => exact tcpRawError_toWorld h x

/-- The numbers stay apart. -/
theorem wf_step (c : Conn) (e : Event) (c' : Conn) (h : WF c) (hs : step c e = .ok c') : WF c' := by
  have hsend : ∀ (tcp : TcpEnv) {n : ℕ} {bs : List Buf},
      Fits n bs → Fits n (send tcp 0 bs).2.1 := by
    intro tcp n bs hfit
    rw [← send_append tcp 0 bs] at hfit
    exact hfit.suffix
  cases step_move hs with
  | idle _ => exact h
  | take _ ha => exact hsend _ (fits_action ha)
  | @append d nl tcp b bs hph _ =>
    have hfit : Fits c.nextPtr (b :: bs) := by rwa [WF, hph] at h
    exact (hfit.of_map_ptr (Buf.map_grow_ptr d.total (b :: bs))).append (fits_delivered c d)
      (Nat.le_add_right _ _) (layOut_ge _ _)
  | trash _ => exact h.mono (Nat.le_add_right _ _)
  | received _ hph =>
    rw [WF, hph] at h
    exact hsend _ h
  | closing _ hph =>
    rw [WF, Phase.pending_of_sends hph] at h
    exact hsend _ h
  | close _ _ _ => exact Fits.nil _
  | fail _ => exact Fits.nil _

theorem wf_start : WF start := Fits.nil _

theorem start_toWorld : start.toWorld = Server.start := rfl

/-- **Runs.**  A run of the server from `tcp_raw_accept` is the image of a run of the queue. -/
theorem exec_toWorld (es : List Event) :
    exec Server.step Server.start es = (exec step start es).map Conn.toWorld :=
  exec_map (fun _ e h => step_toWorld h e) wf_step wf_start es

lemma exec_toWorld_ok {es : List Event} {c : Conn} (h : exec step start es = .ok c) :
    exec Server.step Server.start es = .ok c.toWorld := by
  rw [exec_toWorld, h]
  rfl

lemma exec_ok {es : List Event} {w : World} (h : exec Server.step Server.start es = .ok w) :
    ∃ c, exec step start es = .ok c ∧ w = c.toWorld := by
  rw [exec_toWorld] at h
  cases hs : exec step start es with
  | error f => rw [hs] at h; cases h
  | ok c =>
    rw [hs] at h
    cases h
    exact ⟨c, rfl, rfl⟩

lemma throughout_start_iff {Q : World → Prop} (es : List Event) :
    Throughout Server.step Q Server.start es ↔ Throughout step (fun c => Q c.toWorld) start es :=
  throughout_map (fun _ e h => step_toWorld h e) wf_step wf_start es

lemma along_start_iff {P : World → Event → Prop} (es : List Event) :
    Along Server.step P Server.start es ↔ Along step (fun c => P c.toWorld) start es :=
  along_map (fun _ e h => step_toWorld h e) wf_step wf_start es

/-- The invariant rule for the server: what the queue keeps, its images have. -/
theorem throughout_start {P : World → Event → Prop} {Q : World → Prop} {I : Conn → Prop}
    (hinv : ∀ c e c', WF c → I c → P c.toWorld e → step c e = .ok c' → I c')
    (hQ : ∀ c, WF c → I c → Q c.toWorld) (h0 : I start) {es : List Event}
    (hP : Along Server.step P Server.start es) : Throughout Server.step Q Server.start es :=
  throughout_of_refinement (fun _ e h => step_toWorld h e) wf_step hinv hQ wf_start h0 hP

/-- The invariant rule for a property that every step keeps. -/
theorem throughout_start_always {Q : World → Prop} {I : Conn → Prop}
    (hinv : ∀ c e c', I c → step c e = .ok c' → I c')
    (hQ : ∀ c, WF c → I c → Q c.toWorld) (h0 : I start) (es : List Event) :
    Throughout Server.step Q Server.start es :=
  throughout_start (P := fun _ _ => True) (fun c e c' _ h _ hs => hinv c e c' h hs) hQ h0
    (along_of_forall fun _ _ => trivial)

/-- A fault of the server is a fault of the queue. -/
theorem exec_fault {es : List Event} {f : Fault}
    (h : exec Server.step Server.start es = .error f) :
    ∃ pre e c, pre ++ [e] <+: es ∧ exec step start pre = .ok c ∧ step c e = .error f := by
  rw [exec_toWorld] at h
  cases hs : exec step start es with
  | ok c => rw [hs] at h; cases h
  | error g =>
    rw [hs] at h
    cases h
    exact exec_error hs

/-- The chain at `es->p` in the image of a connection. -/
lemma chain_toWorld {c : Conn} (h : WF c) : c.toWorld.chain = nodes c.phase.pending none := by
  have hwalk : c.toWorld.chainFrom (headPtr c.phase.pending none) = nodes c.phase.pending none :=
    chainFrom_nodes h.nodup h.length_le rfl
  obtain ⟨ph, life, nlOpen, nextPtr, io⟩ := c
  cases ph with
  | accepted => exact hwalk
  | received bs => exact hwalk
  | closing bs => exact hwalk
  | closed => rfl

end Queue
end Server
end DeepForensics
