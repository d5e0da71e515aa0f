/-
# The output of the server

What `tcp_write` has accepted, followed by what is pending, is what the deliveries had to bring
(`arriving`): the server neither loses, repeats nor reorders a byte, whatever lwIP answers.  The
send loop gives up only for a reason.
-/
import DeepForensics.Server.Refine

namespace DeepForensics
namespace Server

open PtrHeap Wire Runs Queue

/-- The reasons for which `tcp_raw_send` may return, with `k` writes made and `err` the result
of the last one: nothing is pending, the head does not fit the send buffer, or the last write
has failed. -/
def SendDone (tcp : TcpEnv) (w : World) (k : ℕ) (err : ErrT) : Prop :=
  ∃ es, w.es = some es ∧
    (es.p = none ∨
      (∃ a b, es.p = some a ∧ w.heap a = some b ∧ tcp.sndbuf k < b.len) ∨
      (∃ j, k = j + 1 ∧ err = tcp.write j ∧ err ≠ .ok))

lemma tcpRawSendLoop_done {tcp : TcpEnv} {w' : World} {k' : ℕ} {err : ErrT} (fuel : ℕ) :
    ∀ (k : ℕ) (w : World), tcpRawSendLoop tcp fuel k w = .ok (w', k', err) →
      SendDone tcp w' k' err := by
  induction fuel with
  | zero => intro k w h; cases h
  | succ fuel ih =>
    intro k w h
    cases hes : w.es with
    | none => simp only [tcpRawSendLoop, hes] at h; cases h
    | some es =>
      cases hp : es.p with
      | none =>
        simp only [tcpRawSendLoop, hes, hp] at h
        cases h
        exact ⟨es, hes, Or.inl hp⟩
      | some ptr =>
        cases hb : w.heap ptr with
        | none => simp only [tcpRawSendLoop, hes, hp, hb] at h; cases h
        | some b =>
          by_cases hlen : b.len ≤ tcp.sndbuf k
          · by_cases hw : tcp.write k = .ok
            · -- the head is gone; the rest of the loop ends for its own reason
              simp only [tcpRawSendLoop, hes, hp, hb, if_pos hlen, if_pos hw] at h
              obtain ⟨heap, _, h⟩ := exists_of_bind_eq_ok h
              obtain ⟨w₁, _, h⟩ := exists_of_bind_eq_ok h
              exact ih _ _ h
            · rw [tcpRawSendLoop_failed hes hp hb hlen hw] at h
              cases h
              exact ⟨es, hes, Or.inr (Or.inr ⟨k, rfl, rfl, hw⟩)⟩
          · rw [tcpRawSendLoop_blocked hes hp hb hlen] at h
            cases h
            exact ⟨es, hes, Or.inr (Or.inl ⟨ptr, b, hp, hb, not_le.mp hlen⟩)⟩

namespace Queue

open Conn

/-- What has been written and what is pending is what has been enqueued, as long as no error
has thrown pending data away. -/
def Lossless (c : Conn) : Prop :=
  c.io.errors = 0 → c.io.written ++ dataOf c.phase.pending = c.io.enqueued

lemma lossless_step (c : Conn) (e : Event) (c' : Conn) (h : Lossless c)
    (hs : step c e = .ok c') : Lossless c' := by
  cases step_move hs with
  | idle _ => exact h
  | take hph _ =>
    intro he
    have hw := h he
    rw [Phase.pending_of_takes hph, dataOf_nil, List.append_nil] at hw
    rw [written_sendIn _ _ fun _ => rfl]
    exact congrArg (· ++ _) hw
  | append hph _ =>
    intro he
    have hw := h he
    rw [hph, Phase.pending_received] at hw
    rw [Phase.pending_received, dataOf_append, dataOf_map_grow, ← List.append_assoc]
    exact congrArg (· ++ _) hw
  | trash _ => exact h
  | received _ hph =>
    rw [Lossless, written_sendIn _ _ fun _ => rfl]
    rwa [Lossless, hph] at h
  | closing _ hph =>
    rw [Lossless, written_sendIn _ _ fun _ => rfl]
    rwa [Lossless, Phase.pending_of_sends hph] at h
  | close _ _ hp =>
    rw [Lossless, hp] at h
    exact h
  | fail _ => exact fun he => absurd he (Nat.succ_ne_zero _)

end Queue

/-- **The output is a lossless queue.**  In every state of every run in which the error callback
has not been called, the bytes written and the bytes of the chain at `es->p` are the bytes
enqueued, in order; a call of `tcp_raw_send` returns only for one of the three reasons, and
it does return. -/
theorem fifo (es : List Event) :
    Throughout step (fun w => w.io.errors = 0 →
      w.io.written ++ World.dataOf w.chain = w.io.enqueued) start es ∧
    (∀ tcp w w' k err, tcpRawSend tcp w = .ok (w', k, err) → SendDone tcp w' k err) ∧
    exec step start es ≠ .error .diverged := by
  refine ⟨?_, fun tcp w w' k err h => tcpRawSendLoop_done _ 0 w h, fun h => ?_⟩
  · refine throughout_start_always lossless_step (fun c hwf h => ?_) (fun _ => rfl) es
    rw [chain_toWorld hwf, dataOf_nodes]
    exact h
  · obtain ⟨pre, e, c, _, _, hs⟩ := exec_fault h
    rcases step_fault hs with ⟨hf, _⟩ | hf | hf | hf <;> cases hf

end Server
end DeepForensics
