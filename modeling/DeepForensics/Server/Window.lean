/-
# The receive window

lwIP takes the bytes it delivers off the receive window, and the server gives them back with
`tcp_recved` as it disposes of the pbufs.  The send loop credits the length field of the pbuf
it has sent, and `do_action` has stored the requested length in that field.  The window is
therefore conserved exactly when every request asks for as many bytes as its own pbuf holds.
-/
import DeepForensics.Server.Lifecycle
import DeepForensics.Server.Request

namespace DeepForensics
namespace Server

open PtrHeap Wire Runs Queue

/-! ## The books -/

/-- The bytes an operation takes off the window. -/
def WndOp.delivered : WndOp → ℕ
  | .deliver n => n
  | .credit _ => 0

/-- The bytes an operation gives back. -/
def WndOp.recved : WndOp → ℕ
  | .deliver _ => 0
  | .credit n => n

/-- The bytes delivered to `tcp_raw_recv`. -/
def delivered (ops : List WndOp) : ℕ := (ops.map WndOp.delivered).sum

/-- The bytes passed to `tcp_recved`. -/
def recved (ops : List WndOp) : ℕ := (ops.map WndOp.recved).sum

/-- `TCP_WND`, four segments of the default size. -/
def tcpWnd : ℕ := 4 * 536

/-- What an operation does to `rcv_wnd`; `tcp_recved` does not let it exceed `TCP_WND`. -/
def WndOp.apply (wnd : ℕ) : WndOp → ℕ
  | .deliver n => wnd - n
  | .credit n => min (wnd + n) tcpWnd

/-- `rcv_wnd` after a list of operations. -/
def rcvWnd (ops : List WndOp) : ℕ := ops.foldl WndOp.apply tcpWnd

/-- Every delivery has fitted the window, as lwIP asserts before it delivers. -/
def InWindow (ops : List WndOp) : Prop :=
  ∀ pre n, pre ++ [.deliver n] <+: ops → n ≤ rcvWnd pre

/-- Nothing is pending: `es->p` is null, or the connection has been closed in order. -/
def Drained (w : World) : Prop :=
  (∃ es, w.es = some es ∧ es.p = none) ∨ w.io.closes ≠ []

/-- The receive window is conserved. -/
structure Conserved (w : World) : Prop where
  /-- No more is credited than was delivered. -/
  le : recved w.io.wnd ≤ delivered w.io.wnd
  /-- All of it is credited when nothing is pending. -/
  eq : Drained w → recved w.io.wnd = delivered w.io.wnd
  /-- `rcv_wnd` is short of its maximum by what is delivered and not credited. -/
  window : InWindow w.io.wnd → rcvWnd w.io.wnd + delivered w.io.wnd = tcpWnd + recved w.io.wnd

/-- A delivery would be stored at the empty `es->p` and passed to `do_action`. -/
def Takes (w : World) : Prop :=
  w.pcb.recv ∧ ∃ es, w.es = some es ∧ (es.state = .accepted ∨ es.state = .received ∧ es.p = none)

/-- A request that is served asks for as many bytes as the first pbuf holds. -/
def AsksItsOwnLength (w : World) : Event → Prop
  | .recv d _ _ => Takes w → u16 (word d.head.buf 1) = d.head.len
  | _ => True

section Books

variable (ops ops' : List WndOp)

@[simp] lemma delivered_append : delivered (ops ++ ops') = delivered ops + delivered ops' := by
  simp [delivered]

@[simp] lemma recved_append : recved (ops ++ ops') = recved ops + recved ops' := by
  simp [recved]

@[simp] lemma delivered_deliver (n : ℕ) : delivered [.deliver n] = n := by
  simp [delivered, WndOp.delivered]

@[simp] lemma recved_deliver (n : ℕ) : recved [.deliver n] = 0 := by
  simp [recved, WndOp.recved]

@[simp] lemma delivered_credit (n : ℕ) : delivered [.credit n] = 0 := by
  simp [delivered, WndOp.delivered]

@[simp] lemma recved_credit (n : ℕ) : recved [.credit n] = n := by
  simp [recved, WndOp.recved]

lemma rcvWnd_append_singleton (op : WndOp) : rcvWnd (ops ++ [op]) = op.apply (rcvWnd ops) := by
  simp [rcvWnd]

/-- The window balances as long as no more is credited than was delivered. -/
lemma rcvWnd_balance : ∀ ops : List WndOp, InWindow ops →
    (∀ pre, pre <+: ops → recved pre ≤ delivered pre) →
    rcvWnd ops + delivered ops = tcpWnd + recved ops := by
  intro ops
  induction ops using List.reverseRecOn with
  | nil => intro _ _; rfl
  | append_singleton ops op ih =>
    intro hin hle
    have hpre : ∀ pre, pre <+: ops → pre <+: ops ++ [op] := fun pre h =>
      h.trans (List.prefix_append ops [op])
    have hops := ih (fun pre n h => hin pre n (hpre _ h)) (fun pre h => hle pre (hpre pre h))
    have hall := hle (ops ++ [op]) List.prefix_rfl
    cases op with
    | deliver n =>
      have hn := hin ops n List.prefix_rfl
      rw [rcvWnd_append_singleton, WndOp.apply, delivered_append, recved_append,
        delivered_deliver, recved_deliver]
      omega
    | credit n =>
      rw [recved_append, delivered_append, recved_credit, delivered_credit] at hall
      rw [rcvWnd_append_singleton, WndOp.apply, delivered_append, recved_append,
        delivered_credit, recved_credit]
      omega

end Books

/-- No more is credited than was delivered, at any time. -/
def Covered (ops : List WndOp) : Prop := ∀ pre, pre <+: ops → recved pre ≤ delivered pre

lemma Covered.append_singleton {ops : List WndOp} {op : WndOp} (h : Covered ops)
    (hle : recved (ops ++ [op]) ≤ delivered (ops ++ [op])) : Covered (ops ++ [op]) := by
  intro pre hpre
  rcases List.prefix_concat_iff.mp hpre with rfl | hpre
  · exact hle
  · exact h pre hpre

lemma Covered.deliver {ops : List WndOp} (h : Covered ops) (n : ℕ) :
    Covered (ops ++ [.deliver n]) := by
  refine h.append_singleton ?_
  have := h ops List.prefix_rfl
  simp only [recved_append, delivered_append, recved_deliver, delivered_deliver]
  omega

namespace Queue

open Conn

/-- The length fields of a list of buffers, added up. -/
def lens (bs : List Buf) : ℕ := (bs.map Buf.len).sum

@[simp] lemma lens_nil : lens [] = 0 := rfl

@[simp] lemma lens_cons (b : Buf) (bs : List Buf) : lens (b :: bs) = b.len + lens bs := by
  simp [lens]

@[simp] lemma lens_append (bs cs : List Buf) : lens (bs ++ cs) = lens bs + lens cs := by
  simp [lens]

@[simp] lemma lens_map_grow (n : ℕ) (bs : List Buf) : lens (bs.map (Buf.grow n)) = lens bs := by
  simp [lens, Function.comp_def]

lemma lens_layOut (n : ℕ) (ss : List Seg) : lens (layOut n ss) = (ss.map Seg.len).sum := by
  induction ss generalizing n with
  | nil => rfl
  | cons s ss ih => rw [layOut, lens_cons, ih, List.map_cons, List.sum_cons]

lemma lens_send (tcp : TcpEnv) (bs : List Buf) :
    lens (send tcp 0 bs).1 + lens (send tcp 0 bs).2.1 = lens bs := by
  rw [← lens_append, send_append]

lemma recved_credits (bs : List Buf) : recved (bs.map fun b => .credit b.len) = lens bs := by
  simp [recved, lens, Function.comp_def, WndOp.recved]

lemma delivered_credits (bs : List Buf) : delivered (bs.map fun b => .credit b.len) = 0 := by
  simp [delivered, Function.comp_def, WndOp.delivered]

lemma covered_credits {bs : List Buf} : ∀ {ops : List WndOp}, Covered ops →
    recved ops + lens bs ≤ delivered ops → Covered (ops ++ bs.map fun b => .credit b.len) := by
  induction bs with
  | nil => intro ops h _; simpa using h
  | cons b bs ih =>
    intro ops h hle
    rw [lens_cons] at hle
    have hb : Covered (ops ++ [.credit b.len]) := by
      refine h.append_singleton ?_
      simp only [recved_append, delivered_append, recved_credit, delivered_credit]
      omega
    have hrest := ih hb (by
      simp only [recved_append, delivered_append, recved_credit, delivered_credit]
      omega)
    simpa using hrest

/-! ## What is owed -/

/-- The bytes that were delivered and will not be credited when the pending buffers are sent;
negative when too many will be. -/
def owed (c : Conn) : ℤ := delivered c.io.wnd - recved c.io.wnd - lens c.phase.pending

/-- How far a request misses the length of its own pbuf. -/
def gap (c : Conn) : Event → ℤ
  | .recv d _ _ =>
    match c.phase with
    | .accepted => d.head.len - u16 (word d.head.buf 1)
    | .received [] => d.head.len - u16 (word d.head.buf 1)
    | _ => 0
  | _ => 0

lemma owed_sendIn (tcp : TcpEnv) (c : Conn) {ph : List Buf → Phase}
    (hph : ∀ bs, (ph bs).pending = bs) (bs : List Buf) :
    owed (sendIn tcp c ph bs) = delivered c.io.wnd - recved c.io.wnd - lens bs := by
  have h := lens_send tcp bs
  simp only [owed, sendIn, sent, hph, delivered_append, recved_append, recved_credits,
    delivered_credits]
  omega

/-- **What a step adds to the debt**: nothing, but for a request that is served.  An error is
the exception, which forgets what is pending. -/
theorem owed_step {c c' : Conn} {e : Event} (hs : step c e = .ok c')
    (he : ∀ x, e = .err x → c.phase = .closed) : owed c' = owed c + gap c e := by
  have hnudge : ∀ {e tcp}, Nudge e tcp → gap c e = 0 := fun h => by cases h <;> rfl
  cases step_move hs with
  | idle h =>
    have hgap : gap c e = 0 := by
      rcases h with h | ⟨_, _, h⟩
      · cases e <;> simp [gap, h]
      · exact hnudge h
    rw [hgap, add_zero]
  | @take d nl tcp n b hph ha =>
    obtain ⟨_, _, _, _, _, _, hlen⟩ := action_ok ha
    have hrest : lens (restBufs c.nextPtr d) + d.head.len = d.total := by
      rw [restBufs, lens_layOut, Delivery.total, Delivery.segs, List.map_cons, List.sum_cons]
      omega
    have hgap : gap c (.recv d nl tcp) = d.head.len - u16 (word d.head.buf 1) := by
      rcases hph with hph | hph <;> simp [gap, hph]
    rw [owed_sendIn _ _ (fun _ => rfl), hgap, owed, lens_cons, hlen, Phase.pending_of_takes hph,
      lens_nil]
    simp only [enqueued, Conn.delivered, headBuf, delivered_append, recved_append,
      delivered_deliver, recved_deliver]
    omega
  | @append d nl tcp b bs hph _ =>
    have hgap : gap c (.recv d nl tcp) = 0 := by simp [gap, hph]
    have hnew : lens (layOut c.nextPtr d.segs) = d.total := lens_layOut _ _
    simp only [owed, enqueued, Conn.delivered, Phase.pending_received, hph, hgap, lens_append,
      lens_map_grow, hnew, delivered_append, recved_append, delivered_deliver, recved_deliver]
    omega
  | @trash d nl tcp bs hph =>
    have hgap : gap c (.recv d nl tcp) = 0 := by simp [gap, hph]
    simp only [owed, trash, Conn.delivered, hgap, delivered_append, recved_append,
      delivered_deliver, recved_deliver, delivered_credit, recved_credit]
    omega
  | received hn hph =>
    rw [owed_sendIn _ _ (fun _ => rfl), hnudge hn, owed, hph, Phase.pending_received, add_zero]
  | closing hn hph =>
    rw [owed_sendIn _ _ (fun _ => rfl), hnudge hn, owed, Phase.pending_of_sends hph, add_zero]
  | close hn _ hp =>
    rw [hnudge hn, owed, owed, hp, add_zero]
    rfl
  | fail hph => exact absurd (he _ rfl) hph

/-- Only an error counts as one. -/
lemma errors_step {c c' : Conn} {e : Event} (hs : step c e = .ok c') :
    c'.io.errors = c.io.errors ∨ c'.io.errors = c.io.errors + 1 ∧ c'.phase = .closed ∧
      ∃ x, e = .err x ∧ c.phase ≠ .closed := by
  cases step_move hs with
  | fail hph => exact Or.inr ⟨rfl, rfl, _, rfl, hph⟩
  | _ => exact Or.inl rfl

/-- The debt of a connection whose requests ask for their own length. -/
structure Solvent (c : Conn) : Prop where
  owed_nonneg : 0 ≤ owed c
  owed_zero : c.io.errors = 0 → owed c = 0
  covered : Covered c.io.wnd

lemma covered_sendIn {tcp : TcpEnv} {c : Conn} {ph : List Buf → Phase} {bs : List Buf}
    (hph : ∀ bs, (ph bs).pending = bs) (h : Covered c.io.wnd)
    (ho : 0 ≤ owed (sendIn tcp c ph bs)) : Covered (sendIn tcp c ph bs).io.wnd := by
  rw [owed_sendIn tcp c hph] at ho
  have hsend := lens_send tcp bs
  exact covered_credits h (by omega)

lemma covered_step {c c' : Conn} {e : Event} (hs : step c e = .ok c') (h : Covered c.io.wnd)
    (ho : 0 ≤ owed c') : Covered c'.io.wnd := by
  cases step_move hs with
  | idle _ => exact h
  | take _ _ => exact covered_sendIn (fun _ => rfl) (h.deliver _) ho
  | append _ _ => exact h.deliver _
  | @trash d _ _ _ _ =>
    refine (h.deliver d.total).append_singleton ?_
    have := h _ List.prefix_rfl
    simp only [recved_append, delivered_append, recved_deliver, delivered_deliver, recved_credit,
      delivered_credit]
    omega
  | received _ _ => exact covered_sendIn (fun _ => rfl) h ho
  | closing _ _ => exact covered_sendIn (fun _ => rfl) h ho
  | close _ _ _ => exact h
  | fail _ => exact h

lemma solvent_start : Solvent start := by
  refine ⟨le_rfl, fun _ => rfl, fun pre hpre => ?_⟩
  rw [List.prefix_nil.mp hpre]
  exact le_rfl

/-- An error on a live connection. -/
lemma step_err {c : Conn} (hph : c.phase ≠ .closed) (x : ErrT) :
    step c (.err x) = .ok (fail c) := by
  obtain ⟨ph, life, nlOpen, nextPtr, io⟩ := c
  cases ph with
  | closed => exact absurd rfl hph
  | _ => rfl

lemma solvent_step {c c' : Conn} {e : Event} (h : Solvent c) (hg : gap c e = 0)
    (hs : step c e = .ok c') : Solvent c' := by
  by_cases hfail : ∃ x, e = .err x ∧ c.phase ≠ .closed
  · obtain ⟨x, rfl, hph⟩ := hfail
    rw [step_err hph] at hs
    cases hs
    have ho := h.owed_nonneg
    refine ⟨?_, fun he => absurd he (Nat.succ_ne_zero _), h.covered⟩
    simp only [owed, fail, Phase.pending_closed, lens_nil] at ho ⊢
    omega
  · have howed : owed c' = owed c := by
      rw [owed_step hs, hg, add_zero]
      intro x hx
      by_contra hph
      exact hfail ⟨x, hx, hph⟩
    have herr : c'.io.errors = c.io.errors := by
      rcases errors_step hs with h1 | ⟨_, _, h1⟩
      · exact h1
      · exact absurd h1 hfail
    have ho : 0 ≤ owed c' := howed ▸ h.owed_nonneg
    exact ⟨ho, fun he => by rw [howed]; exact h.owed_zero (herr ▸ he), covered_step hs h.covered ho⟩

/-! ## The images -/

lemma drained_toWorld {c : Conn} (h : Tally c) (hd : Drained c.toWorld) :
    c.phase.pending = [] ∧ c.io.errors = 0 := by
  by_cases hph : c.phase = .closed
  · refine ⟨by rw [hph]; rfl, ?_⟩
    have hone := (h.dead hph).2
    rcases hd with ⟨es, hes, _⟩ | hd
    · rw [Conn.toWorld, hph] at hes
      cases hes
    · have := List.length_pos_iff.mpr hd
      change 0 < c.io.closes.length at this
      omega
  · have hzero := (h.live hph).2
    refine ⟨?_, by omega⟩
    rcases hd with ⟨es, hes, hp⟩ | hd
    · obtain ⟨ph, life, nlOpen, nextPtr, io⟩ := c
      rcases ph with _ | (_ | _) | (_ | _) | _ <;> cases hes <;> first | rfl | cases hp
    · exact absurd (List.length_eq_zero_iff.mp (by change c.io.closes.length = 0; omega)) hd

lemma takes_toWorld (c : Conn) :
    Takes c.toWorld ↔ c.phase = .accepted ∨ c.phase = .received [] := by
  obtain ⟨ph, life, nlOpen, nextPtr, io⟩ := c
  rcases ph with _ | (_ | _) | (_ | _) | _ <;>
    simp [Takes, Conn.toWorld, Phase.es, Phase.pcb]

lemma gap_eq_zero (c : Conn) (e : Event) : AsksItsOwnLength c.toWorld e ↔ gap c e = 0 := by
  cases e with
  | recv d nl tcp =>
    rw [AsksItsOwnLength, takes_toWorld]
    obtain ⟨ph, life, nlOpen, nextPtr, io⟩ := c
    rcases ph with _ | (_ | _) | (_ | _) | _ <;> simp [gap] <;> omega
  | _ => simp [AsksItsOwnLength, gap]

lemma Solvent.conserved {c : Conn} (h : Solvent c) (ht : Tally c) : Conserved c.toWorld := by
  have ho := h.owed_nonneg
  unfold owed at ho
  refine ⟨?_, fun hd => ?_, fun hin => rcvWnd_balance _ hin h.covered⟩
  · show recved c.io.wnd ≤ delivered c.io.wnd
    omega
  · obtain ⟨hp, he⟩ := drained_toWorld ht hd
    have hz := h.owed_zero he
    rw [owed, hp, lens_nil] at hz
    show recved c.io.wnd = delivered c.io.wnd
    omega

/-- With nothing pending and the window conserved, nothing is owed. -/
lemma owed_of_drained {c : Conn} (ht : Tally c) (hc : Conserved c.toWorld)
    (hd : Drained c.toWorld) : owed c = 0 := by
  have heq : recved c.io.wnd = delivered c.io.wnd := hc.eq hd
  rw [owed, (drained_toWorld ht hd).1, lens_nil]
  omega

/-- A connection that takes a request has nothing pending. -/
lemma drained_of_takes {c : Conn} (h : Takes c.toWorld) : Drained c.toWorld := by
  obtain ⟨ph, life, nlOpen, nextPtr, io⟩ := c
  rcases (takes_toWorld _).mp h with hph | hph
  · cases hph
    exact Or.inl ⟨_, rfl, rfl⟩
  · cases hph
    exact Or.inl ⟨_, rfl, rfl⟩

/-- No error has hit a connection that is drained later: its record would be there to the end. -/
lemma closed_of_err {c c₁ c' : Conn} {e : Event} {es : List Event} (h1 : step c e = .ok c₁)
    (h2 : exec step c₁ es = .ok c') (ht1 : Tally c₁) (hd : Drained c'.toWorld) :
    ∀ x, e = .err x → c.phase = .closed := by
  rintro x rfl
  by_contra hph
  rw [step_err hph] at h1
  cases h1
  have hkeep : c'.io.errors ≠ 0 := by
    refine exec_inv (Q := fun c => c.io.errors ≠ 0) (fun a b a' ha hs => ?_)
      (Nat.succ_ne_zero _) h2
    rcases errors_step hs with h | ⟨h, _⟩
    · omega
    · omega
  have ht' := exec_inv (fun a b a' => tally_step a b a') ht1 h2
  exact hkeep (drained_toWorld ht' hd).2

/-- Read backwards, from a state in which nothing is pending: at every moment nothing was owed,
so that no request has missed its length. -/
lemma gap_of_conserved {es : List Event} : ∀ {c c' : Conn}, Tally c →
    exec step c es = .ok c' → Drained c'.toWorld →
    Throughout step (fun c => Conserved c.toWorld) c es →
    owed c = 0 ∧ Along step (fun c e => gap c e = 0) c es := by
  induction es with
  | nil =>
    intro c c' ht he hd hc
    cases he
    exact ⟨owed_of_drained ht hc hd, trivial⟩
  | cons e es ih =>
    intro c c' ht he hd hc
    obtain ⟨c₁, h1, h2⟩ := exec_cons_inv he
    have ht1 := tally_step c e c₁ ht h1
    obtain ⟨howed, hrest⟩ := ih ht1 h2 hd (hc.2 c₁ h1)
    have hsum := owed_step h1 (closed_of_err h1 h2 ht1 hd)
    -- only a request can miss its length, and it finds nothing pending and nothing owed
    have hgap : gap c e = 0 ∧ owed c = 0 := by
      by_cases htake : Takes c.toWorld
      · have h0 := owed_of_drained ht hc.1 (drained_of_takes htake)
        omega
      · have hg : gap c e = 0 := by
          rw [← gap_eq_zero]
          cases e with
          | recv d nl tcp => exact fun h => absurd h htake
          | _ => trivial
        omega
    refine ⟨hgap.2, hgap.1, fun c₂ hc₂ => ?_⟩
    rw [h1] at hc₂
    cases hc₂
    exact hrest

end Queue

/-- **The receive window.**  It is conserved in every state of a run in which every request that
is served asks for as many bytes as its own pbuf holds; and of the runs that end with nothing
pending these are the only ones. -/
theorem window_conservation (es : List Event) :
    (Along step AsksItsOwnLength start es → Throughout step Conserved start es) ∧
    ∀ w, exec step start es = .ok w → Drained w →
      Throughout step Conserved start es → Along step AsksItsOwnLength start es := by
  refine ⟨fun h => ?_, fun w he hd hc => ?_⟩
  · refine throughout_start (I := fun c => Solvent c ∧ Tally c) (fun c e c' _ hI hP hs => ?_)
      (fun c _ hI => hI.1.conserved hI.2) ⟨solvent_start, tally_start⟩ h
    exact ⟨solvent_step hI.1 ((gap_eq_zero c e).mp hP) hs, tally_step c e c' hI.2 hs⟩
  · obtain ⟨c, hq, rfl⟩ := exec_ok he
    rw [throughout_start_iff] at hc
    rw [along_start_iff]
    exact (gap_of_conserved tally_start hq hd hc).2.mono fun c e h => (gap_eq_zero c e).mpr h

/-- A request for 8 bytes, which is what its own pbuf holds. -/
theorem window_conservation_eight :
    Along step AsksItsOwnLength start
        [.recv (requestDelivery 4096 8 []) (working fun _ => request 1 2) (roomy 8)] ∧
      Throughout step Conserved start
        [.recv (requestDelivery 4096 8 []) (working fun _ => request 1 2) (roomy 8)] := by
  have h : Along step AsksItsOwnLength start
      [.recv (requestDelivery 4096 8 []) (working fun _ => request 1 2) (roomy 8)] :=
    ⟨fun _ => by decide, fun _ _ => trivial⟩
  exact ⟨h, (window_conservation _).1 h⟩

/-- A request for 16 bytes in a pbuf of 8: the reply is sent, and 16 bytes are credited. -/
theorem window_overcredited :
    ¬ ∀ es : List Event,
      (∀ d nl tcp, .recv d nl tcp ∈ es → ∃ address length room,
        d = requestDelivery address length room ∧ 1 ≤ length ∧ length ≤ 256) →
      Throughout step Conserved start es := by
  intro h
  have hrun := h [.recv (requestDelivery 4096 16 (List.replicate 8 0))
    (working fun _ => List.replicate 16 7) (roomy 1000)] (by
      intro d nl tcp hmem
      rw [List.mem_singleton] at hmem
      cases hmem
      exact ⟨4096, 16, _, rfl, by decide, by decide⟩)
  have hwnd : view (fun w => w.io.wnd) step start [.recv (requestDelivery 4096 16
      (List.replicate 8 0)) (working fun _ => List.replicate 16 7) (roomy 1000)]
      = some [.deliver 8, .credit 16] := by
    decide +kernel
  obtain ⟨w, hw, hops⟩ := exec_of_view hwnd
  have hle := (hrun.last hw).le
  rw [hops] at hle
  revert hle
  decide

end Server
end DeepForensics
