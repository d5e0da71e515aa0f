/-
# Progress

What is pending gets sent.  A callback in which lwIP has room for the first pending buffer and
accepts it takes at least that buffer off the queue, whatever else arrives, is refused or has no
room in between.  So a chain of `n` pbufs has been written after `n` such callbacks, even if data
keeps arriving behind it, unless such data stops the server; and after the peer has closed its
side one more of them closes the connection, with everything enqueued written and every pbuf
freed.
-/
import DeepForensics.Server.Closing
import DeepForensics.Server.Lifecycle
import DeepForensics.Server.Fifo
import DeepForensics.Server.Request

namespace DeepForensics
namespace Server

open PtrHeap Runs

/-- The event is a callback in which lwIP has room for `m` bytes and accepts the first write. -/
def Event.productive (m : ℕ) : Event → Bool
  | .fin tcp => m ≤ tcp.sndbuf 0 && tcp.write 0 == .ok
  | .sent tcp => m ≤ tcp.sndbuf 0 && tcp.write 0 == .ok
  | .poll tcp => m ≤ tcp.sndbuf 0 && tcp.write 0 == .ok
  | _ => false

/-- The event is an error of the connection. -/
def Event.isErr : Event → Bool
  | .err _ => true
  | _ => false

namespace Queue

open Conn

lemma productive_nudge {m : ℕ} {e : Event} {tcp : TcpEnv} (he : Nudge e tcp)
    (hp : e.productive m = true) : m ≤ tcp.sndbuf 0 ∧ tcp.write 0 = .ok := by
  cases he with
  | fin => simpa [Event.productive] using hp
  | sent => simpa [Event.productive] using hp
  | poll => simpa [Event.productive] using hp

/-- A productive callback sends the first buffer. -/
lemma send_productive {m : ℕ} {tcp : TcpEnv} {b : Buf} (hlen : b.len ≤ m) (hroom : m ≤ tcp.sndbuf 0)
    (hwrite : tcp.write 0 = .ok) (bs : List Buf) : ∃ cs, (send tcp 0 (b :: bs)).1 = b :: cs := by
  rw [send, if_pos (hlen.trans hroom), if_pos hwrite]
  exact ⟨_, rfl⟩

/-- The first `k` buffers of what is sent and what is left. -/
lemma dataOf_take_split (bs cs : List Buf) (k : ℕ) :
    dataOf ((bs ++ cs).take k) <+: dataOf bs ++ dataOf (cs.take (k - bs.length)) := by
  rw [List.take_append, dataOf_append]
  rcases Nat.le_total bs.length k with h | h
  · rw [List.take_of_length_le h]
  · rw [Nat.sub_eq_zero_of_le h, List.take_zero, dataOf_nil, List.append_nil, List.append_nil]
    exact ⟨dataOf (bs.drop k), by rw [← dataOf_append, List.take_append_drop]⟩

/-- The first `k` pending buffers of `c` are all of at most `m` bytes. -/
def Front (m k : ℕ) (c : Conn) : Prop :=
  k ≤ c.phase.pending.length ∧ ∀ b ∈ c.phase.pending.take k, b.len ≤ m

/-- Of the first `k` pending buffers of `c`, the last `k'` are first in `c'`, and the others have
been written. -/
def Advances (m k k' : ℕ) (c c' : Conn) : Prop :=
  Front m k' c' ∧ c.io.written ++ dataOf (c.phase.pending.take k)
    <+: c'.io.written ++ dataOf (c'.phase.pending.take k')

/-- Where nothing is pending, nothing is waited for. -/
lemma advances_of_pending_nil {c c' : Conn} (hp : c.phase.pending = [])
    (hw : c.io.written <+: c'.io.written) (m k : ℕ) : Advances m k 0 c c' := by
  refine ⟨⟨Nat.zero_le _, by simp⟩, ?_⟩
  simpa [hp] using hw

/-- A callback that sends takes what it sends off the front, and at least one buffer if it is
productive. -/
lemma advances_sendIn {m k : ℕ} {c : Conn} {e : Event} {tcp : TcpEnv} {bs : List Buf}
    {ph : List Buf → Phase} (he : Nudge e tcp) (hph : ∀ bs, (ph bs).pending = bs)
    (hp : c.phase.pending = bs) (hk : Front m k c) :
    ∃ k', k' ≤ k - (if e.productive m then 1 else 0) ∧ Advances m k k' c (sendIn tcp c ph bs) := by
  obtain ⟨hle, hlen⟩ := hk
  rw [hp] at hle hlen
  have hsplit : (send tcp 0 bs).1 ++ (send tcp 0 bs).2.1 = bs := send_append tcp 0 bs
  have htake : bs.take k
      = (send tcp 0 bs).1.take k ++ (send tcp 0 bs).2.1.take (k - (send tcp 0 bs).1.length) := by
    rw [← List.take_append, hsplit]
  refine ⟨k - (send tcp 0 bs).1.length, ?_, ⟨?_, ?_⟩, ?_⟩
  · split_ifs with hprod
    · cases bs with
      | nil => simp at hle; omega
      | cons b bs =>
        cases k with
        | zero => simp
        | succ k =>
          obtain ⟨hroom, hwrite⟩ := productive_nudge he hprod
          obtain ⟨cs, hcs⟩ := send_productive (hlen b (by simp)) hroom hwrite bs
          rw [hcs, List.length_cons]
          omega
    · omega
  · have := congrArg List.length hsplit
    rw [List.length_append] at this
    rw [sendIn, hph]
    omega
  · intro b hb
    rw [sendIn, hph] at hb
    exact hlen b (htake ▸ List.mem_append_right _ hb)
  · rw [hp, sendIn, hph]
    show _ <+: (c.io.written ++ dataOf (send tcp 0 bs).1) ++ _
    rw [List.append_assoc, List.prefix_append_right_inj]
    conv_lhs => rw [← hsplit]
    exact dataOf_take_split _ _ k

/-- **One step.**  The front does not fall back, and gets shorter if the step is productive. -/
lemma advances_step {m k : ℕ} {c c' : Conn} {e : Event} (hs : step c e = .ok c')
    (herr : e.isErr = false) (hk : Front m k c) :
    ∃ k', k' ≤ k - (if e.productive m then 1 else 0) ∧ Advances m k k' c c' := by
  have hnone : c.phase.pending = [] → c.io.written <+: c'.io.written →
      ∃ k', k' ≤ k - (if e.productive m then 1 else 0) ∧ Advances m k k' c c' :=
    fun hp hw => ⟨0, Nat.zero_le _, advances_of_pending_nil hp hw m k⟩
  cases step_move hs with
  | idle h =>
    refine hnone ?_ List.prefix_rfl
    rcases h with h | ⟨h, -⟩
    · rw [h]
      rfl
    · exact h
  | take hph _ => exact hnone (Phase.pending_of_takes hph) ⟨_, rfl⟩
  | @append d nl tcp b bs hph _ =>
    -- what arrives is appended behind the front
    obtain ⟨hle, hlen⟩ := hk
    rw [hph, Phase.pending_received] at hle hlen
    have htake : ((b :: bs).map (Buf.grow d.total) ++ layOut c.nextPtr d.segs).take k
        = ((b :: bs).take k).map (Buf.grow d.total) := by
      rw [List.take_append_of_le_length (by simpa using hle), List.map_take]
    refine ⟨k, le_rfl, ⟨?_, ?_⟩, ?_⟩
    · rw [Phase.pending_received, List.length_append, List.length_map]
      omega
    · rw [Phase.pending_received, htake]
      intro x hx
      obtain ⟨y, hy, rfl⟩ := List.mem_map.mp hx
      exact hlen y hy
    · rw [Phase.pending_received, htake, dataOf_map_grow, hph, Phase.pending_received]
      exact List.prefix_rfl
  | trash hph => exact ⟨k, le_rfl, hk, List.prefix_rfl⟩
  | received he hph => exact advances_sendIn he (fun _ => rfl) (by rw [hph]; rfl) hk
  | closing he hph => exact advances_sendIn he (fun _ => rfl) (Phase.pending_of_sends hph) hk
  | close he _ hp => exact hnone hp List.prefix_rfl
  | fail _ => cases herr

/-- **Runs.**  After as many productive callbacks as there are buffers in the front, the front has
been written. -/
theorem written_of_productive {m k : ℕ} {es : List Event} {c c' : Conn}
    (he : exec step c es = .ok c') (herr : ∀ e ∈ es, e.isErr = false) (hk : Front m k c)
    (hcount : k ≤ es.countP (Event.productive m)) :
    c.io.written ++ dataOf (c.phase.pending.take k) <+: c'.io.written := by
  induction es generalizing c k with
  | nil =>
    cases he
    have hzero : k = 0 := by simpa using hcount
    rw [hzero, List.take_zero, dataOf_nil, List.append_nil]
  | cons e es ih =>
    obtain ⟨c₁, hs, he⟩ := exec_cons_inv he
    obtain ⟨k', hk', hfront, hprefix⟩ := advances_step hs (herr e (by simp)) hk
    refine hprefix.trans (ih he (fun x hx => herr x (by simp [hx])) hfront ?_)
    rw [List.countP_cons] at hcount
    split_ifs at hk' hcount with hp <;> omega

/-! ## Closing -/

/-- A closing connection that needs at most `n` productive callbacks, with buffers of at most `m`
bytes pending. -/
def Draining (m n : ℕ) (c : Conn) : Prop :=
  ∃ bs, c.phase = .closing bs ∧ bs.length < n ∧ ∀ b ∈ bs, b.len ≤ m

/-- The parts of the record that a closing connection does not change any more. -/
def SameRecord (c c' : Conn) : Prop :=
  c'.io.enqueued = c.io.enqueued ∧ c'.io.errors = c.io.errors

/-- The connection is closed, by a callback in which `tcp_close` has answered as in `tcp`. -/
def ClosedBy (e : Event) (c c' : Conn) : Prop :=
  c'.phase = .closed ∧ ∃ tcp, Nudge e tcp ∧ c'.life = if tcp.close = .ok then .closed else c.life

/-- A closing connection goes on sending, or closes. -/
lemma step_closing {c : Conn} {bs : List Buf} {e : Event} {tcp : TcpEnv}
    (hph : c.phase = .closing bs) (he : Nudge e tcp) : step c e = .ok (advance tcp c) := by
  obtain ⟨ph, life, nlOpen, nextPtr, io⟩ := c
  subst hph
  cases he <;> rfl

lemma step_closed {c : Conn} (hph : c.phase = .closed) (e : Event) : step c e = .ok c := by
  obtain ⟨ph, life, nlOpen, nextPtr, io⟩ := c
  subst hph
  cases e <;> rfl

/-- Nothing happens to a closed connection. -/
lemma exec_closed {c : Conn} (hph : c.phase = .closed) (es : List Event) :
    exec step c es = .ok c := by
  induction es with
  | nil => rfl
  | cons e es ih => rw [exec_cons_ok (step_closed hph e), ih]

lemma draining_sendIn {m n : ℕ} {c : Conn} {b : Buf} {bs : List Buf} {e : Event} {tcp : TcpEnv}
    (he : Nudge e tcp) (hlen : (b :: bs).length < n) (hm : ∀ x ∈ b :: bs, x.len ≤ m) :
    Draining m (n - (if e.productive m then 1 else 0)) (sendIn tcp c .closing (b :: bs)) := by
  have hsplit := congrArg List.length (send_append tcp 0 (b :: bs))
  rw [List.length_append] at hsplit
  refine ⟨(send tcp 0 (b :: bs)).2.1, rfl, ?_, ?_⟩
  · split_ifs with hprod
    · obtain ⟨hroom, hwrite⟩ := productive_nudge he hprod
      obtain ⟨cs, hcs⟩ := send_productive (hm b (by simp)) hroom hwrite bs
      rw [hcs, List.length_cons] at hsplit
      omega
    · omega
  · intro x hx
    exact hm x (send_append tcp 0 (b :: bs) ▸ List.mem_append_right _ hx)

/-- **One step** of a closing connection does not fault: it gets closer to the end or closes. -/
lemma draining_step {m n : ℕ} {c : Conn} {e : Event} (herr : e.isErr = false)
    (h : Draining m n c) :
    ∃ c', step c e = .ok c' ∧ SameRecord c c' ∧
      (Draining m (n - (if e.productive m then 1 else 0)) c' ∧ c'.life = c.life ∨
        ClosedBy e c c') := by
  obtain ⟨bs, hph, hlen, hm⟩ := h
  have hnudge : ∀ {tcp}, Nudge e tcp → ∃ c', step c e = .ok c' ∧ SameRecord c c' ∧
      (Draining m (n - (if e.productive m then 1 else 0)) c' ∧ c'.life = c.life ∨
        ClosedBy e c c') := by
    intro tcp he
    refine ⟨_, step_closing hph he, ?_⟩
    cases bs with
    | nil =>
      rw [advance, hph]
      exact ⟨⟨rfl, rfl⟩, Or.inr ⟨rfl, tcp, he, rfl⟩⟩
    | cons b bs =>
      rw [advance, hph]
      exact ⟨⟨rfl, rfl⟩, Or.inl ⟨draining_sendIn he hlen hm, rfl⟩⟩
  cases e with
  | recv d nl tcp =>
    refine ⟨trash c d, ?_, ⟨rfl, rfl⟩, Or.inl ⟨⟨bs, hph, hlen, hm⟩, rfl⟩⟩
    rw [step, receive, hph]
  | fin tcp => exact hnudge (.fin tcp)
  | sent tcp => exact hnudge (.sent tcp)
  | poll tcp => exact hnudge (.poll tcp)
  | err x => cases herr

/-- **Runs.**  One more productive callback than there are buffers pending closes. -/
theorem closed_of_productive {m n : ℕ} {es : List Event} {c : Conn}
    (herr : ∀ e ∈ es, e.isErr = false) (h : Draining m n c)
    (hcount : n ≤ es.countP (Event.productive m)) :
    ∃ c', exec step c es = .ok c' ∧ SameRecord c c' ∧ ∃ e ∈ es, ClosedBy e c c' := by
  induction es generalizing c n with
  | nil =>
    obtain ⟨bs, -, hlen, -⟩ := h
    simp at hcount
    omega
  | cons e es ih =>
    obtain ⟨c₁, hs, hsame, hcase⟩ := draining_step (herr e (by simp)) h
    rw [exec_cons_ok hs]
    rcases hcase with ⟨hdrain, hlife⟩ | hclosed
    · have hcount' : n - (if e.productive m then 1 else 0) ≤ es.countP (Event.productive m) := by
        rw [List.countP_cons] at hcount
        split_ifs at hcount ⊢ with hp <;> omega
      obtain ⟨c', hrun, hsame', x, hx, hph, tcp, he, hlife'⟩ :=
        ih (fun x hx => herr x (by simp [hx])) hdrain hcount'
      rw [hlife] at hlife'
      exact ⟨c', hrun, ⟨hsame'.1.trans hsame.1, hsame'.2.trans hsame.2⟩, x,
        List.mem_cons_of_mem _ hx, hph, tcp, he, hlife'⟩
    · exact ⟨c₁, exec_closed hclosed.1 es, hsame, e, List.mem_cons_self, hclosed⟩

end Queue

open Queue

/-- A reachable state is the image of a connection, and its runs are images of runs. -/
lemma exec_continue {pre : List Event} {w : World} (hpre : exec step start pre = .ok w) :
    ∃ c, WF c ∧ w = c.toWorld ∧ exec Queue.step Queue.start pre = .ok c ∧
      ∀ es, exec step w es = (exec Queue.step c es).map Conn.toWorld := by
  obtain ⟨c, hc, rfl⟩ := exec_ok hpre
  have hwf : WF c := exec_inv wf_step wf_start hc
  exact ⟨c, hwf, rfl, hc, fun es => exec_map (fun _ e h => step_toWorld h e) wf_step hwf es⟩

lemma chain_length {c : Conn} (hwf : WF c) : c.toWorld.chain.length = c.phase.pending.length := by
  rw [chain_toWorld hwf, ← List.length_map (f := Prod.fst), nodes_map_fst, List.length_map]

lemma len_le_of_chain {c : Conn} (hwf : WF c) {m : ℕ} (h : ∀ n ∈ c.toWorld.chain, n.2.len ≤ m) :
    ∀ b ∈ c.phase.pending, b.len ≤ m := by
  rw [chain_toWorld hwf] at h
  generalize c.phase.pending = bs at h ⊢
  induction bs with
  | nil => simp
  | cons b bs ih =>
    intro x hx
    rcases List.mem_cons.mp hx with rfl | hx
    · exact h _ (by rw [nodes_cons]; exact List.mem_cons_self)
    · exact ih (fun n hn => h n (by rw [nodes_cons]; exact List.mem_cons_of_mem _ hn)) x hx

/-- **What is pending is written, whatever arrives.**  From every reachable state, in every run
without an error in which at least as many callbacks find room for a pending buffer as there are
pbufs pending, all that was pending is written, after what was written before and in its order.
Other callbacks may find no room or be refused.  Data may arrive in between, and is all that can
keep this from happening: the server stops when it arrives, by the assertion of `pbuf_cat` or in
`do_action`. -/
theorem pending_written {pre es : List Event} {w : World} {m : ℕ}
    (hpre : exec step start pre = .ok w) (herr : ∀ e ∈ es, e.isErr = false)
    (hlen : ∀ n ∈ w.chain, n.2.len ≤ m)
    (hcount : w.chain.length ≤ es.countP (Event.productive m)) :
    (∃ w', exec step w es = .ok w' ∧ w.io.written ++ World.dataOf w.chain <+: w'.io.written) ∨
      ∃ before d nl tcp x, before ++ [.recv d nl tcp] <+: es ∧
        exec step w (before ++ [.recv d nl tcp]) = .error x ∧
        (x = .assertCat ∨ x = .outOfBounds ∨ x = .exited ∨ x = .nullCopy) := by
  obtain ⟨c, hwf, rfl, -, hrun⟩ := exec_continue hpre
  cases hes : exec Queue.step c es with
  | error x =>
    right
    obtain ⟨before, e, c₁, hprefix, hbefore, hs⟩ := exec_error hes
    obtain ⟨d, nl, tcp, rfl⟩ := recv_of_error hs
    refine ⟨before, d, nl, tcp, x, hprefix, ?_, (step_fault hs).imp_left And.left⟩
    rw [hrun, exec_concat hbefore, hs]
    rfl
  | ok c' =>
    left
    have hm := len_le_of_chain hwf hlen
    rw [chain_length hwf] at hcount
    have hfront : Front m c.phase.pending.length c := ⟨le_rfl, by rwa [List.take_length]⟩
    have hw := written_of_productive hes herr hfront hcount
    rw [List.take_length] at hw
    refine ⟨c'.toWorld, by rw [hrun, hes]; rfl, ?_⟩
    rwa [chain_toWorld hwf, dataOf_nodes]

/-- A request whose reply finds no room. -/
def waiting : List Event := [.recv (requestDelivery 0x1000 8 []) (working id) full]

/-- More data, a callback without room, and one with room. -/
def busy : List Event :=
  [.recv (requestDelivery 0x2000 8 []) (working id) full, .sent full, .poll (roomy 8)]

theorem pending_written_busy :
    ∃ w w', exec step start waiting = .ok w ∧ exec step w busy = .ok w' ∧
      w.io.written ++ World.dataOf w.chain <+: w'.io.written := by
  have hview : view (fun w => (w.chain.all (fun n => n.2.len ≤ 8), w.chain.length,
      view World.nextPtr step w busy)) step start waiting = some (true, 1, some 2) := by
    decide +kernel
  obtain ⟨w, hw, hobs⟩ := exec_of_view hview
  simp only [Prod.mk.injEq] at hobs
  obtain ⟨hlen, hcount, hrun⟩ := hobs
  obtain ⟨w', hw', -⟩ := exec_of_view hrun
  refine ⟨w, w', hw, hw', ?_⟩
  have herr : ∀ e ∈ busy, e.isErr = false := by decide
  rcases pending_written (m := 8) hw herr (by simpa using hlen) (by rw [hcount]; decide) with
    ⟨v, hv, hwritten⟩ | ⟨before, d, nl, tcp, x, ⟨es, hes⟩, hx, -⟩
  · rw [hw'] at hv
    cases hv
    exact hwritten
  · rw [← hes, exec_append_error hx] at hw'
    cases hw'

/-- The peer closes its side while the reply is pending. -/
def closingUp : List Event := waiting ++ [.fin full]

/-- Data that comes too late, and two callbacks with room. -/
def draining : List Event :=
  [.recv (requestDelivery 0x2000 8 []) (working id) full, .poll (roomy 8), .sent (roomy 8)]

end Server
end DeepForensics
