/-
# The total lengths of the pending chain

lwIP keeps in every pbuf the length of the chain from there on, and `pbuf_cat` asserts that
the last pbuf has it right.  `do_action` changes the length of the first pbuf and not its
total length.  The total lengths are therefore right exactly when every served request either
asks for as many bytes as its own pbuf holds or has its reply accepted at once.
-/
import DeepForensics.Server.Window

namespace DeepForensics
namespace Server

open PtrHeap Wire Runs Queue

/-- Every total length is the sum of the lengths from there on. -/
def TotLens : List (ℕ × Pbuf) → Prop
  | [] => True
  | x :: xs => x.2.totLen = ((x :: xs).map fun y => y.2.len).sum ∧ TotLens xs

/-- The total lengths of the chain at `es->p` are right. -/
def TotLenOk (w : World) : Prop := TotLens w.chain

/-- What lwIP delivers fits the receive window, and a request asks for at most 256 bytes. -/
def InRange (w : World) : Event → Prop
  | .recv d _ _ => w.pcb.recv →
      d.total ≤ rcvWnd w.io.wnd ∧ (Takes w → word d.head.buf 1 ≤ 256)
  | _ => True

/-- A request that is served asks for as many bytes as the first pbuf holds, or its reply is
accepted by the first write. -/
def OwnLengthOrSent (w : World) : Event → Prop
  | .recv d _ tcp => Takes w →
      word d.head.buf 1 = d.head.len ∨
        word d.head.buf 1 ≤ tcp.sndbuf 0 ∧ tcp.write 0 = .ok
  | _ => True

lemma rcvWnd_le (ops : List WndOp) : rcvWnd ops ≤ tcpWnd := by
  induction ops using List.reverseRecOn with
  | nil => exact le_rfl
  | append_singleton ops op ih =>
    rw [rcvWnd_append_singleton]
    cases op with
    | deliver n => exact (Nat.sub_le _ _).trans ih
    | credit n => exact min_le_right _ _

namespace Queue

open Conn

/-! ## Lists of buffers -/

/-- The total lengths of a list of buffers are right. -/
def TotOk : List Buf → Prop
  | [] => True
  | b :: bs => b.totLen = lens (b :: bs) ∧ TotOk bs

lemma totLens_nodes (bs : List Buf) (tl : Option ℕ) : TotLens (nodes bs tl) ↔ TotOk bs := by
  have hlen : ∀ bs : List Buf, ((nodes bs tl).map fun y => y.2.len).sum = lens bs := by
    intro bs
    induction bs with
    | nil => rfl
    | cons b bs ih =>
      rw [nodes_cons, List.map_cons, List.sum_cons, ih, lens_cons]
      rfl
  induction bs with
  | nil => exact Iff.rfl
  | cons b bs ih =>
    have hb := hlen (b :: bs)
    rw [nodes_cons] at hb ⊢
    exact and_congr (by rw [hb]; rfl) ih

lemma TotOk.suffix {bs cs : List Buf} (h : TotOk (bs ++ cs)) : TotOk cs := by
  induction bs with
  | nil => exact h
  | cons b bs ih => exact ih h.2

lemma TotOk.send {bs : List Buf} (h : TotOk bs) (tcp : TcpEnv) (k : ℕ) :
    TotOk (send tcp k bs).2.1 := by
  rw [← send_append tcp k bs] at h
  exact h.suffix

/-- The assertion of `pbuf_cat` holds. -/
lemma TotOk.last {bs : List Buf} : ∀ {b : Buf}, TotOk (b :: bs) →
    (bs.getLastD b).totLen = (bs.getLastD b).len := by
  induction bs with
  | nil => intro b h; simpa using h.1
  | cons c bs ih =>
    intro b h
    rw [List.getLastD_cons]
    exact ih h.2

lemma totOk_layOut (n : ℕ) (ss : List Seg) : TotOk (layOut n ss) := by
  induction ss generalizing n with
  | nil => trivial
  | cons s ss ih =>
    refine ⟨?_, ih (n + 1)⟩
    rw [lens_cons, lens_layOut, List.map_cons, List.sum_cons]

/-- `pbuf_cat` keeps total lengths right as long as they fit their field. -/
lemma TotOk.append {bs cs : List Buf} (h : TotOk bs) (h' : TotOk cs)
    (hlt : lens bs + lens cs < 2 ^ 16) : TotOk (bs.map (Buf.grow (lens cs)) ++ cs) := by
  induction bs with
  | nil => exact h'
  | cons b bs ih =>
    rw [lens_cons] at hlt
    refine ⟨?_, ih h.2 (by omega)⟩
    have hb : b.totLen = b.len + lens bs := by rw [h.1, lens_cons]
    have hgrow : (b.grow (lens cs)).totLen = b.totLen + lens cs :=
      u16_of_lt (by rw [hb]; omega)
    show (b.grow (lens cs)).totLen = lens (b.grow (lens cs) :: (bs.map _ ++ cs))
    rw [hgrow, hb, lens_cons, lens_append, lens_map_grow, Buf.grow_len]
    omega

/-! ## The step -/

/-- The bytes pending and the window together stay below the range of `tot_len`. -/
def Bounded (c : Conn) : Prop := rcvWnd c.io.wnd + lens c.phase.pending ≤ tcpWnd + 256

lemma rcvWnd_credits (ops : List WndOp) (bs : List Buf) :
    rcvWnd (ops ++ bs.map fun b => .credit b.len) ≤ rcvWnd ops + lens bs := by
  induction bs generalizing ops with
  | nil => simp
  | cons b bs ih =>
    have h := ih (ops ++ [.credit b.len])
    rw [rcvWnd_append_singleton, WndOp.apply] at h
    rw [List.map_cons, ← List.singleton_append, ← List.append_assoc, lens_cons]
    omega

lemma bounded_sendIn {tcp : TcpEnv} {c : Conn} {ph : List Buf → Phase} {bs : List Buf}
    (hph : ∀ bs, (ph bs).pending = bs) (h : rcvWnd c.io.wnd + lens bs ≤ tcpWnd + 256) :
    Bounded (sendIn tcp c ph bs) := by
  have hsend := lens_send tcp bs
  have hcred := rcvWnd_credits c.io.wnd (send tcp 0 bs).1
  rw [Bounded, sendIn, hph]
  show rcvWnd (c.io.wnd ++ _) + _ ≤ _
  omega

lemma bounded_start : Bounded start := by
  unfold Bounded
  decide

/-- The first buffer of a served chain has its total length right exactly if the request asks for
the length of its own pbuf. -/
lemma totOk_take {c : Conn} {d : Delivery} {nl : NetlinkEnv} {n : ℕ} {b : Buf}
    (ha : action nl c.nlOpen (headBuf c.nextPtr d) = .ok (n, b)) (hle : word d.head.buf 1 ≤ 256) :
    b.len = word d.head.buf 1 ∧
      (TotOk (b :: restBufs c.nextPtr d) ↔ word d.head.buf 1 = d.head.len) := by
  obtain ⟨_, _, _, _, _, htot, hlen⟩ := action_ok ha
  have hlen' : b.len = word d.head.buf 1 := hlen.trans (u16_of_lt (by
    show word d.head.buf 1 < 2 ^ 16
    omega))
  have htot' : b.totLen = d.head.len + lens (restBufs c.nextPtr d) := by
    rw [htot, restBufs, lens_layOut]
    exact List.sum_cons
  refine ⟨hlen', ?_⟩
  constructor
  · intro h
    have h1 := h.1
    rw [htot', lens_cons, hlen'] at h1
    omega
  · intro h
    refine ⟨?_, totOk_layOut _ _⟩
    rw [htot', lens_cons, hlen', h]

/-- A served request: of what the send loop leaves the total lengths are right exactly if the
request asks for the length of its own pbuf or the head has been sent. -/
lemma totOk_send_take {c : Conn} {d : Delivery} {nl : NetlinkEnv} {tcp : TcpEnv} {n : ℕ} {b : Buf}
    (ha : action nl c.nlOpen (headBuf c.nextPtr d) = .ok (n, b)) (hle : word d.head.buf 1 ≤ 256) :
    TotOk (send tcp 0 (b :: restBufs c.nextPtr d)).2.1 ↔
      word d.head.buf 1 = d.head.len ∨ word d.head.buf 1 ≤ tcp.sndbuf 0 ∧ tcp.write 0 = .ok := by
  obtain ⟨hblen, hiff⟩ := totOk_take ha hle
  rw [send, hblen]
  by_cases hsnd : word d.head.buf 1 ≤ tcp.sndbuf 0
  · by_cases hw : tcp.write 0 = .ok
    · -- the head is gone, and what is left was right when it was delivered
      rw [if_pos hsnd, if_pos hw]
      exact iff_of_true ((totOk_layOut _ _).send tcp 1) (Or.inr ⟨hsnd, hw⟩)
    · rw [if_pos hsnd, if_neg hw]
      simp only [hiff, hw, and_false, or_false]
  · rw [if_neg hsnd]
    simp only [hiff, hsnd, false_and, or_false]

/-- A served request keeps the bound: its reply has at most 256 bytes, and the rest of its chain
was taken off the window. -/
lemma bounded_take {c : Conn} {d : Delivery} {nl : NetlinkEnv} {tcp : TcpEnv} {n : ℕ} {b : Buf}
    (ha : action nl c.nlOpen (headBuf c.nextPtr d) = .ok (n, b)) (hle : word d.head.buf 1 ≤ 256)
    (hwin : d.total ≤ rcvWnd c.io.wnd) :
    Bounded (sendIn tcp
      (enqueued { Conn.delivered c d with nlOpen := n } (b :: restBufs c.nextPtr d))
      .received (b :: restBufs c.nextPtr d)) := by
  refine bounded_sendIn (fun _ => rfl) ?_
  have hblen := (totOk_take ha hle).1
  have hrest : lens (restBufs c.nextPtr d) + d.head.len = d.total := by
    rw [restBufs, lens_layOut, Nat.add_comm]
    exact List.sum_cons.symm
  have hmax := rcvWnd_le c.io.wnd
  show rcvWnd (c.io.wnd ++ [.deliver d.total]) + _ ≤ _
  rw [rcvWnd_append_singleton, WndOp.apply, lens_cons, hblen]
  omega

/-- **One step.**  Of the total lengths that were right before, the step keeps them right exactly
under the condition, and the bound holds again. -/
theorem totOk_step {c c' : Conn} {e : Event} (hb : Bounded c) (hq : TotOk c.phase.pending)
    (hA : InRange c.toWorld e) (hs : step c e = .ok c') :
    (TotOk c'.phase.pending ↔ OwnLengthOrSent c.toWorld e) ∧ Bounded c' := by
  have hnudge : ∀ {e tcp}, Nudge e tcp → OwnLengthOrSent c.toWorld e := fun h => by
    cases h <;> trivial
  have hnotake : ∀ {d nl tcp}, ¬ Takes c.toWorld → OwnLengthOrSent c.toWorld (.recv d nl tcp) :=
    fun hn ht => absurd ht hn
  cases step_move hs with
  | idle h =>
    refine ⟨iff_of_true hq ?_, hb⟩
    rcases h with h | ⟨_, _, h⟩
    · cases e with
      | recv d nl tcp => exact hnotake (by rw [takes_toWorld, h]; simp)
      | _ => trivial
    · exact hnudge h
  | @take d nl tcp n b hph ha =>
    have htakes : Takes c.toWorld := (takes_toWorld c).mpr hph
    obtain ⟨hwin, hlen⟩ := hA htakes.1
    refine ⟨?_, bounded_take ha (hlen htakes) hwin⟩
    show TotOk (send tcp 0 (b :: restBufs c.nextPtr d)).2.1 ↔ (Takes c.toWorld → _)
    rw [totOk_send_take ha (hlen htakes), forall_prop_of_true htakes]
  | @append d nl tcp b bs hph hlast =>
    have hnt : ¬ Takes c.toWorld := by rw [takes_toWorld, hph]; simp
    obtain ⟨hwin, _⟩ := hA (by rw [Conn.toWorld, hph]; rfl)
    change d.total ≤ rcvWnd c.io.wnd at hwin
    rw [Bounded, hph, Phase.pending_received] at hb
    rw [hph, Phase.pending_received] at hq
    have hnew : lens (layOut c.nextPtr d.segs) = d.total := lens_layOut _ _
    refine ⟨iff_of_true ?_ (hnotake hnt), ?_⟩
    · have h := hq.append (totOk_layOut c.nextPtr d.segs)
        (by rw [hnew]; unfold tcpWnd at hb; omega)
      rw [hnew] at h
      exact h
    · show rcvWnd (c.io.wnd ++ [.deliver d.total])
        + lens ((b :: bs).map (Buf.grow d.total) ++ layOut c.nextPtr d.segs) ≤ _
      rw [rcvWnd_append_singleton, WndOp.apply, lens_append, lens_map_grow, hnew]
      omega
  | @trash d nl tcp bs hph =>
    have hnt : ¬ Takes c.toWorld := by rw [takes_toWorld, hph]; simp
    refine ⟨iff_of_true hq (hnotake hnt), ?_⟩
    obtain ⟨hwin, _⟩ := hA (by rw [Conn.toWorld, hph]; rfl)
    change d.total ≤ rcvWnd c.io.wnd at hwin
    unfold Bounded at hb
    show rcvWnd (c.io.wnd ++ [.deliver d.total] ++ [.credit d.total]) + lens c.phase.pending ≤ _
    rw [rcvWnd_append_singleton, rcvWnd_append_singleton, WndOp.apply, WndOp.apply]
    omega
  | received hn hph =>
    rw [hph] at hq
    rw [Bounded, hph] at hb
    exact ⟨iff_of_true (hq.send _ 0) (hnudge hn), bounded_sendIn (fun _ => rfl) hb⟩
  | closing hn hph =>
    rw [Phase.pending_of_sends hph] at hq
    rw [Bounded, Phase.pending_of_sends hph] at hb
    exact ⟨iff_of_true (hq.send _ 0) (hnudge hn), bounded_sendIn (fun _ => rfl) hb⟩
  | close hn _ hp =>
    rw [Bounded, hp] at hb
    exact ⟨iff_of_true trivial (hnudge hn), hb⟩
  | fail _ => exact ⟨iff_of_true trivial trivial, (rcvWnd_le _).trans (Nat.le_add_right _ _)⟩

lemma totLenOk_toWorld {c : Conn} (h : WF c) : TotLenOk c.toWorld ↔ TotOk c.phase.pending := by
  rw [TotLenOk, chain_toWorld h, totLens_nodes]

/-- The state that the total lengths need. -/
def Tidy (c : Conn) : Prop := WF c ∧ Bounded c

lemma tidy_start : Tidy start := ⟨wf_start, bounded_start⟩

lemma totLenOk_step (c : Conn) (e : Event) (c' : Conn) (hI : Tidy c) (hq : TotLenOk c.toWorld)
    (hA : InRange c.toWorld e) (hs : step c e = .ok c') :
    (TotLenOk c'.toWorld ↔ OwnLengthOrSent c.toWorld e) ∧ Tidy c' := by
  have hwf := wf_step c e c' hI.1 hs
  rw [totLenOk_toWorld hI.1] at hq
  rw [totLenOk_toWorld hwf]
  obtain ⟨hiff, hb⟩ := totOk_step hI.2 hq hA hs
  exact ⟨hiff, hwf, hb⟩

end Queue

/-- **The total lengths.**  In a run whose deliveries fit the window and whose requests ask for at
most 256 bytes, the total lengths of the chain at `es->p` are right in every state if every
served request asks for its own length or is sent at once, and then `pbuf_cat` does not
abort the server; of the runs that do not fault these are the only ones. -/
theorem totLen_invariant (es : List Event) (hA : Along step InRange start es) :
    (Along step OwnLengthOrSent start es →
      Throughout step TotLenOk start es ∧ exec step start es ≠ .error .assertCat) ∧
    ∀ w, exec step start es = .ok w →
      Throughout step TotLenOk start es → Along step OwnLengthOrSent start es := by
  rw [along_start_iff] at hA
  have h0 : TotLenOk Queue.start.toWorld := (totLenOk_toWorld wf_start).mpr trivial
  rw [throughout_start_iff, along_start_iff]
  refine ⟨fun hP => ?_, fun w he hT => ?_⟩
  · have hall : Throughout Queue.step (fun c => Tidy c ∧ TotLenOk c.toWorld) Queue.start es := by
      refine throughout_of_along (fun c e c' h hp hs => ?_) ⟨tidy_start, h0⟩ (hA.and hP)
      obtain ⟨hiff, hI⟩ := totLenOk_step c e c' h.1 h.2 hp.1 hs
      exact ⟨hI, hiff.mpr hp.2⟩
    refine ⟨hall.mono fun c h => h.2, fun hf => ?_⟩
    -- the assertion looks at the last pbuf of a chain that is right
    obtain ⟨pre, e, c, hpre, hc, hs⟩ := exec_fault hf
    obtain ⟨hI, hq⟩ := throughout_iff_initial.mp hall pre ((List.prefix_append pre [e]).trans hpre)
      c hc
    rw [totLenOk_toWorld hI.1] at hq
    rcases step_fault hs with ⟨_, b, bs, hph, hne⟩ | hf | hf | hf
    · rw [hph] at hq
      exact hne hq.last
    all_goals cases hf
  · obtain ⟨c, hc, _⟩ := exec_ok he
    refine (throughout_iff_along (I := Tidy) (fun c e c' hI hq hA hs => ?_) tidy_start h0 hA
      hc).mp hT
    obtain ⟨hiff, hI'⟩ := totLenOk_step c e c' hI hq hA hs
    exact ⟨hiff, fun _ => hI'⟩

/-- A request for 16 bytes whose reply is sent at once. -/
theorem totLen_invariant_sent :
    Along step InRange start [.recv (requestDelivery 4096 16 (List.replicate 8 0))
        (working fun _ => List.replicate 16 7) (roomy 1000)] ∧
      Throughout step TotLenOk start [.recv (requestDelivery 4096 16 (List.replicate 8 0))
        (working fun _ => List.replicate 16 7) (roomy 1000)] := by
  have hA : Along step InRange start [.recv (requestDelivery 4096 16 (List.replicate 8 0))
      (working fun _ => List.replicate 16 7) (roomy 1000)] :=
    ⟨fun _ => ⟨by decide, fun _ => by decide⟩, fun _ _ => trivial⟩
  exact ⟨hA, ((totLen_invariant _ hA).1
    ⟨fun _ => Or.inr ⟨by decide, rfl⟩, fun _ _ => trivial⟩).1⟩

/-- A request for 16 bytes whose reply has to wait, and another request behind it: the assertion
of `pbuf_cat` stops the server. -/
theorem totLen_assertion_fires :
    ¬ ∀ es : List Event,
      (∀ d nl tcp, .recv d nl tcp ∈ es → ∃ address length room,
        d = requestDelivery address length room ∧ 1 ≤ length ∧ length ≤ 256) →
      Throughout step TotLenOk start es ∧ exec step start es ≠ .error .assertCat := by
  intro h
  have hrun : fault step start
      [.recv (requestDelivery 4096 16 (List.replicate 8 0)) (working fun _ => List.replicate 16 7)
        full,
       .recv (requestDelivery 8192 16 (List.replicate 8 0)) (working fun _ => List.replicate 16 7)
        full] = some .assertCat := by
    decide +kernel
  refine (h _ ?_).2 (exec_of_fault hrun)
  intro d nl tcp hmem
  simp only [List.mem_cons, List.not_mem_nil, or_false] at hmem
  rcases hmem with hmem | hmem <;> cases hmem
  · exact ⟨4096, 16, _, rfl, by decide, by decide⟩
  · exact ⟨8192, 16, _, rfl, by decide, by decide⟩

end Server
end DeepForensics
