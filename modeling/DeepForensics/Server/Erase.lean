/-
# Addresses and sockets do not matter

What a connection does depends neither on the addresses its pbufs get nor, as long as its
requests are served, on netlink sockets that others have left open.  `erase` forgets the
addresses; `Alike` compares a connection that lives together with others with the same
connection alone.
-/
import DeepForensics.Server.Refine

namespace DeepForensics
namespace Server

open PtrHeap Wire Runs

/-! ## Connections without addresses -/

/-- A buffer without its address. -/
def Buf.erase (b : Buf) : Buf := { b with ptr := 0 }

@[simp] lemma Buf.erase_erase (b : Buf) : b.erase.erase = b.erase := rfl

/-- A record without the addresses of the freed pbufs. -/
def Io.erase (io : Io) : Io := { io with freed := io.freed.map fun _ => 0 }

namespace Queue

/-- Change the pending buffers of a phase. -/
def Phase.map (g : Buf → Buf) : Phase → Phase
  | .accepted => .accepted
  | .received bs => .received (bs.map g)
  | .closing bs => .closing (bs.map g)
  | .closed => .closed

@[simp] lemma Phase.map_closed (g : Buf → Buf) : Phase.map g .closed = .closed := rfl

@[simp] lemma Phase.pending_map (g : Buf → Buf) (ph : Phase) :
    (ph.map g).pending = ph.pending.map g := by
  cases ph <;> rfl

/-- A connection without addresses. -/
def Conn.erase (c : Conn) : Conn :=
  { c with phase := c.phase.map Buf.erase, nextPtr := 0, io := c.io.erase }

open Conn

@[simp] lemma io_erase_erase (io : Io) : io.erase.erase = io.erase := by
  simp [Io.erase]

@[simp] lemma dataOf_map_erase (bs : List Buf) : dataOf (bs.map Buf.erase) = dataOf bs := by
  induction bs with
  | nil => rfl
  | cons b bs ih => rw [List.map_cons, dataOf_cons, dataOf_cons, ih]; rfl

@[simp] lemma erase_erase (c : Conn) : c.erase.erase = c.erase := by
  obtain ⟨ph, life, nlOpen, nextPtr, io⟩ := c
  cases ph <;> simp [erase, Phase.map]

lemma send_map_erase (tcp : TcpEnv) (k : ℕ) (bs : List Buf) :
    send tcp k (bs.map Buf.erase)
      = ((send tcp k bs).1.map Buf.erase, (send tcp k bs).2.1.map Buf.erase,
          (send tcp k bs).2.2) := by
  induction bs generalizing k with
  | nil => rfl
  | cons b bs ih =>
    rw [List.map_cons, send, send, ih (k + 1)]
    show (if b.len ≤ tcp.sndbuf k then _ else _) = _
    split_ifs <;> rfl

lemma sent_erase (io : Io) (bs : List Buf) :
    (sent io bs).erase = sent io.erase (bs.map Buf.erase) := by
  simp [sent, Io.erase, Function.comp_def, Buf.erase]

lemma sendIn_erase (tcp : TcpEnv) (c : Conn) {ph : List Buf → Phase}
    (hph : ph = .received ∨ ph = .closing) (bs : List Buf) :
    (sendIn tcp c ph bs).erase = sendIn tcp c.erase ph (bs.map Buf.erase) := by
  rcases hph with rfl | rfl
  · simp only [sendIn, erase, send_map_erase, sent_erase, Phase.map]
  · simp only [sendIn, erase, send_map_erase, sent_erase, Phase.map]

lemma sendIn_erase_erase (tcp : TcpEnv) (c : Conn) {ph : List Buf → Phase}
    (hph : ph = .received ∨ ph = .closing) (bs : List Buf) :
    (sendIn tcp c.erase ph (bs.map Buf.erase)).erase = (sendIn tcp c ph bs).erase := by
  rw [← sendIn_erase tcp c hph, erase_erase]

lemma enqueued_erase (c : Conn) (bs : List Buf) :
    (enqueued c bs).erase = enqueued c.erase (bs.map Buf.erase) := by
  simp [enqueued, erase, Io.erase]

/-- The address of a buffer does not matter to `do_action`. -/
lemma action_erase (nl : NetlinkEnv) (n : ℕ) (b : Buf) :
    action nl n b.erase = (action nl n b).map fun r => (r.1, r.2.erase) := by
  show (if b.payload.length < 8 then _ else _) = _
  rw [action]
  split_ifs
  · rfl
  show sendNetlinkRequest nl n (word b.payload 0) (word b.payload 1) >>= _ = _
  cases sendNetlinkRequest nl n (word b.payload 0) (word b.payload 1) with
  | error x => rfl
  | ok r =>
    show memcpy b.payload r.2 (word b.payload 1) >>= _ = Except.map _ (memcpy b.payload r.2 _ >>= _)
    cases memcpy b.payload r.2 (word b.payload 1) <;> rfl

lemma layOut_erase (n m : ℕ) (ss : List Seg) :
    (layOut n ss).map Buf.erase = (layOut m ss).map Buf.erase := by
  induction ss generalizing n m with
  | nil => rfl
  | cons s ss ih =>
    rw [layOut, layOut, List.map_cons, List.map_cons, ih (n + 1) (m + 1)]
    rfl

lemma delivered_erase (c : Conn) (d : Delivery) :
    (delivered c.erase d).erase = (delivered c d).erase := by
  obtain ⟨ph, life, nlOpen, nextPtr, io⟩ := c
  cases ph <;> simp [erase, delivered, Phase.map, Io.erase]

lemma take_erase (tcp : TcpEnv) (nl : NetlinkEnv) (c : Conn) (d : Delivery) :
    (take tcp nl c.erase d).map erase = (take tcp nl c d).map erase := by
  have hact := action_erase nl c.nlOpen (headBuf c.nextPtr d)
  have hrest := layOut_erase 1 (c.nextPtr + 1) d.rest
  rw [take, take]
  show Except.map _ (Except.map _ (action nl c.nlOpen (headBuf c.nextPtr d).erase)) = _
  rw [hact]
  cases action nl c.nlOpen (headBuf c.nextPtr d) with
  | error x => rfl
  | ok r =>
    have hconn : ({ delivered c.erase d with nlOpen := r.1 } : Conn).erase
        = ({ delivered c d with nlOpen := r.1 } : Conn).erase :=
      congrArg (fun x : Conn => { x with nlOpen := r.1 }) (delivered_erase c d)
    have hbufs : (r.2.erase :: restBufs 0 d).map Buf.erase
        = (r.2 :: restBufs c.nextPtr d).map Buf.erase := congrArg (r.2.erase :: ·) hrest
    refine congrArg Except.ok ?_
    show (sendIn tcp (enqueued { delivered c.erase d with nlOpen := r.1 }
      (r.2.erase :: restBufs 0 d)) .received (r.2.erase :: restBufs 0 d)).erase = _
    rw [sendIn_erase _ _ (Or.inl rfl), sendIn_erase _ _ (Or.inl rfl), enqueued_erase,
      enqueued_erase, hconn, hbufs]

lemma append_erase (c : Conn) (b : Buf) (bs : List Buf) (d : Delivery) :
    (append c.erase b.erase (bs.map Buf.erase) d).map erase = (append c b bs d).map erase := by
  have hlast : (bs.map Buf.erase).getLastD b.erase = (bs.getLastD b).erase := by
    cases bs using List.reverseRecOn with
    | nil => rfl
    | append_singleton bs x => simp
  rw [append, append, hlast]
  show (if (bs.getLastD b).totLen = (bs.getLastD b).len then _ else _ : Except Fault Conn).map _ = _
  split_ifs
  · have hlay := layOut_erase 0 c.nextPtr d.segs
    have hdata : dataOf (layOut 0 d.segs) = dataOf (layOut c.nextPtr d.segs) := by
      simpa using congrArg dataOf hlay
    have hgrow : ((b.erase :: bs.map Buf.erase).map (Buf.grow d.total)).map Buf.erase
        = ((b :: bs).map (Buf.grow d.total)).map Buf.erase := by
      simp [Function.comp_def, Buf.erase, Buf.grow]
    refine congrArg Except.ok ?_
    simp only [enqueued, delivered, Conn.erase, Phase.map, Io.erase, List.map_append, hgrow, hlay,
      hdata]
    simp
  · rfl

lemma advance_erase (tcp : TcpEnv) (c : Conn) :
    (advance tcp c.erase).erase = (advance tcp c).erase := by
  obtain ⟨ph, life, nlOpen, nextPtr, io⟩ := c
  cases ph with
  | accepted => exact erase_erase _
  | received bs =>
    cases bs with
    | nil => exact erase_erase _
    | cons b bs =>
      exact sendIn_erase_erase tcp _ (Or.inl rfl) (b :: bs)
  | closing bs =>
    cases bs with
    | nil => simp [advance, Conn.erase, Phase.map, close, Io.erase]
    | cons b bs => exact sendIn_erase_erase tcp _ (Or.inr rfl) (b :: bs)
  | closed => exact erase_erase _

lemma trash_erase (c : Conn) (d : Delivery) : (trash c.erase d).erase = (trash c d).erase := by
  have hlen : ((layOut 0 d.segs).map Buf.ptr).map (fun _ => 0)
      = ((layOut c.nextPtr d.segs).map Buf.ptr).map (fun _ => 0) := by
    have h := congrArg (List.map fun _ : Buf => 0) (layOut_erase 0 c.nextPtr d.segs)
    simpa [Function.comp_def] using h
  have hph : (c.phase.map Buf.erase).map Buf.erase = c.phase.map Buf.erase :=
    congrArg Conn.phase (erase_erase c)
  simp only [trash, delivered, Conn.erase, Io.erase, List.map_append, hlen, hph]
  simp

lemma fail_erase (c : Conn) : (fail c.erase).erase = (fail c).erase := by
  simp [fail, Conn.erase, Io.erase, Function.comp_def]

/-- **Addresses do not matter.**  What a connection does, apart from addresses, depends on
nothing but the connection apart from addresses. -/
theorem step_erase (c : Conn) (e : Event) :
    (step c.erase e).map erase = (step c e).map erase := by
  cases e with
  | recv d nl tcp =>
    obtain ⟨ph, life, nlOpen, nextPtr, io⟩ := c
    cases ph with
    | accepted => exact take_erase tcp nl _ d
    | received bs =>
      cases bs with
      | nil => exact take_erase tcp nl _ d
      | cons b bs => exact append_erase _ b bs d
    | closing bs => exact congrArg Except.ok (trash_erase _ d)
    | closed => exact congrArg Except.ok (erase_erase _)
  | fin tcp =>
    refine congrArg Except.ok ?_
    have hfin : ({ c.erase with phase := c.erase.phase.finish } : Conn)
        = ({ c with phase := c.phase.finish } : Conn).erase := by
      obtain ⟨ph, life, nlOpen, nextPtr, io⟩ := c
      cases ph <;> rfl
    rw [hfin, advance_erase]
  | sent tcp => exact congrArg Except.ok (advance_erase tcp c)
  | poll tcp => exact congrArg Except.ok (advance_erase tcp c)
  | err x =>
    obtain ⟨ph, life, nlOpen, nextPtr, io⟩ := c
    cases ph with
    | accepted => exact congrArg Except.ok (fail_erase _)
    | received bs => exact congrArg Except.ok (fail_erase _)
    | closing bs => exact congrArg Except.ok (fail_erase _)
    | closed => exact congrArg Except.ok (erase_erase _)

/-! ## The sockets left open -/

/-- The event is a request that `do_action` serves. -/
def Serves (c : Conn) (e : Event) : Prop :=
  (∃ d nl tcp, e = .recv d nl tcp) ∧ (c.phase = .accepted ∨ c.phase = .received [])

/-- Only a request looks at the number of sockets left open, or changes it. -/
lemma step_of_not_serves {c : Conn} {e : Event} (h : ¬ Serves c e) (n : ℕ) :
    step { c with nlOpen := n } e
      = (step c e).map fun c' => { c' with nlOpen := n } := by
  obtain ⟨ph, life, nlOpen, nextPtr, io⟩ := c
  cases e with
  | recv d nl tcp =>
    cases ph with
    | accepted => exact absurd ⟨⟨d, nl, tcp, rfl⟩, Or.inl rfl⟩ h
    | received bs =>
      cases bs with
      | nil => exact absurd ⟨⟨d, nl, tcp, rfl⟩, Or.inr rfl⟩ h
      | cons b bs =>
        show append _ b bs d = (append _ b bs d).map _
        rw [append, append]
        split_ifs <;> rfl
    | closing bs => rfl
    | closed => rfl
  | fin tcp => rcases ph with _ | (_ | _) | (_ | _) | _ <;> rfl
  | sent tcp => rcases ph with _ | (_ | _) | (_ | _) | _ <;> rfl
  | poll tcp => rcases ph with _ | (_ | _) | (_ | _) | _ <;> rfl
  | err x => cases ph <;> rfl

/-- With a socket left open, `do_action` does not come back. -/
lemma action_of_leak {nl : NetlinkEnv} {n : ℕ} (hn : n ≠ 0) (b : Buf) :
    action nl n b = .error (if b.payload.length < 8 then .outOfBounds else .exited) := by
  rw [action]
  split_ifs
  · rfl
  · have hexit : sendNetlinkRequest nl n (word b.payload 0) (word b.payload 1)
        = .error .exited := by
      rw [sendNetlinkRequest]
      split_ifs with h1 h2
      · rfl
      · rfl
      · exact absurd (Or.inr hn) h2
      · exact absurd (Or.inr hn) h2
      · exact absurd (Or.inr hn) h2
    rw [hexit]
    rfl

lemma step_serves {c : Conn} {e : Event} (h : Serves c e) :
    ∃ d nl tcp, ∀ n, step { c with nlOpen := n } e = take tcp nl { c with nlOpen := n } d := by
  obtain ⟨⟨d, nl, tcp, rfl⟩, hph⟩ := h
  obtain ⟨ph, life, nlOpen, nextPtr, io⟩ := c
  rcases hph with rfl | rfl
  · exact ⟨d, nl, tcp, fun n => rfl⟩
  · exact ⟨d, nl, tcp, fun n => rfl⟩

lemma take_error_iff {tcp : TcpEnv} {nl : NetlinkEnv} {c : Conn} {d : Delivery} {x : Fault} :
    take tcp nl c d = .error x ↔ action nl c.nlOpen (headBuf c.nextPtr d) = .error x := by
  rw [take]
  cases action nl c.nlOpen (headBuf c.nextPtr d) with
  | error y =>
    constructor
    · intro h
      cases h
      rfl
    · intro h
      cases h
      rfl
  | ok r =>
    constructor
    · intro h
      cases h
    · intro h
      cases h

/-- The connection `c` in the process looks like `c₀` alone: they differ in addresses, and the
process may have sockets left open by other connections. -/
structure Alike (c c₀ : Conn) : Prop where
  nlOpen_le : c₀.nlOpen ≤ c.nlOpen
  erase_eq : ({ c with nlOpen := c₀.nlOpen } : Conn).erase = c₀.erase

namespace Alike

variable {c c₀ c' : Conn} {e : Event} (h : Alike c c₀)
include h

lemma map_erase (e : Event) :
    (step c₀ e).map erase = (step { c with nlOpen := c₀.nlOpen } e).map erase := by
  rw [← step_erase c₀, ← h.erase_eq, step_erase]

lemma step_of_ok {n : ℕ} (hs : step { c with nlOpen := c₀.nlOpen } e = .ok { c' with nlOpen := n })
    (hn : n ≤ c'.nlOpen) : ∃ c₀', step c₀ e = .ok c₀' ∧ Alike c' c₀' ∧ c₀'.nlOpen = n := by
  have hmap := h.map_erase e
  rw [hs] at hmap
  cases hs0 : step c₀ e with
  | error x => rw [hs0] at hmap; cases hmap
  | ok c₀' =>
    rw [hs0] at hmap
    have heq : c₀'.erase = ({ c' with nlOpen := n } : Conn).erase := Except.ok.inj hmap
    have hnl : c₀'.nlOpen = n := congrArg Conn.nlOpen heq
    exact ⟨c₀', rfl, ⟨by omega, by rw [hnl, heq]⟩, hnl⟩

lemma step_of_error {x : Fault} (hs : step { c with nlOpen := c₀.nlOpen } e = .error x) :
    step c₀ e = .error x := by
  have hmap := h.map_erase e
  rw [hs] at hmap
  cases hs0 : step c₀ e with
  | error y =>
    rw [hs0] at hmap
    exact hmap
  | ok c₀' => rw [hs0] at hmap; cases hmap

/-- What the connection does in the process it does alone. -/
lemma step_ok (hs : step c e = .ok c') :
    ∃ c₀', step c₀ e = .ok c₀' ∧ Alike c' c₀' ∧ c₀.nlOpen ≤ c₀'.nlOpen ∧
      (c'.nlOpen ≠ 0 → c.nlOpen ≠ 0 ∨ c₀'.nlOpen ≠ 0) := by
  by_cases ht : Serves c e
  · -- a request that is served finds no socket left open, here or alone
    obtain ⟨d, nl, tcp, hstep⟩ := step_serves ht
    have hzero : c.nlOpen = 0 := by
      by_contra hne
      have herr := hstep c.nlOpen
      rw [take_error_iff.mpr (action_of_leak hne _)] at herr
      rw [show step c e = .error _ from herr] at hs
      cases hs
    have hzero0 : c₀.nlOpen = c.nlOpen := by have := h.nlOpen_le; omega
    have hown : step { c with nlOpen := c₀.nlOpen } e = .ok { c' with nlOpen := c'.nlOpen } := by
      rw [hzero0]
      exact hs
    obtain ⟨c₀', h1, h2, h3⟩ := h.step_of_ok hown le_rfl
    exact ⟨c₀', h1, h2, by omega, fun hne => Or.inr (by omega)⟩
  · have hnl : c'.nlOpen = c.nlOpen := by
      have hself := step_of_not_serves ht c.nlOpen
      rw [show step { c with nlOpen := c.nlOpen } e = step c e from rfl, hs] at hself
      have heq : c' = { c' with nlOpen := c.nlOpen } := Except.ok.inj hself
      have hfield := congrArg Conn.nlOpen heq
      exact hfield
    have hsame := step_of_not_serves ht c₀.nlOpen
    rw [hs] at hsame
    obtain ⟨c₀', h1, h2, h3⟩ := h.step_of_ok hsame (by rw [hnl]; exact h.nlOpen_le)
    exact ⟨c₀', h1, h2, h3.ge, fun hne => Or.inl (by omega)⟩

/-- A fault of the connection in the process is a fault of the connection alone, unless a
request finds a socket that another connection has left open. -/
lemma step_error {x : Fault} (hs : step c e = .error x) :
    step c₀ e = .error x ∨ x = .exited ∧ c.nlOpen ≠ 0 ∧ c₀.nlOpen = 0 := by
  by_cases ht : Serves c e
  · obtain ⟨d, nl, tcp, hstep⟩ := step_serves ht
    have hact : action nl c.nlOpen (headBuf c.nextPtr d) = .error x :=
      take_error_iff.mp ((hstep c.nlOpen).symm.trans hs)
    have hback : action nl c₀.nlOpen (headBuf c.nextPtr d) = .error x → step c₀ e = .error x := by
      intro ha
      refine h.step_of_error ?_
      rw [hstep, take_error_iff]
      exact ha
    by_cases hne : c.nlOpen = 0
    · have hzero : c₀.nlOpen = c.nlOpen := by have := h.nlOpen_le; omega
      exact Or.inl (hback (by rw [hzero]; exact hact))
    · rw [action_of_leak hne] at hact
      by_cases hne0 : c₀.nlOpen = 0
      · by_cases hlen : (headBuf c.nextPtr d).payload.length < 8
        · rw [if_pos hlen] at hact
          exact Or.inl (hback (by rw [action, if_pos hlen]; exact hact))
        · rw [if_neg hlen] at hact
          exact Or.inr ⟨(Except.error.inj hact).symm, hne, hne0⟩
      · exact Or.inl (hback (by rw [action_of_leak hne0]; exact hact))
  · have hsame := step_of_not_serves ht c₀.nlOpen
    rw [hs] at hsame
    exact Or.inl (h.step_of_error hsame)

end Alike

end Queue
end Server
end DeepForensics
