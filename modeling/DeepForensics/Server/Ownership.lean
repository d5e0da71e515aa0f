/-
# Who owns the pbufs

The pbufs that lwIP has delivered and that are not deallocated are the pbufs of the chain at
`es->p`, each with one reference.  Every callback keeps this, so that no pbuf is touched after
it has been deallocated and none is forgotten: at the end of a connection each one has been
deallocated exactly once.
-/
import DeepForensics.Server.Lifecycle

namespace DeepForensics
namespace Server

open PtrHeap Wire Runs Queue

/-- The pbufs of a connection between any two callbacks.  Delivered pbufs are numbered
`0, 1, …, nextPtr - 1`. -/
structure Owned (w : World) : Prop where
  /-- The allocated pbufs are those of the chain at `es->p`. -/
  allocated : ∀ a, (w.heap a).isSome ↔ a ∈ w.chain.map Prod.fst
  /-- Every one of them has one reference. -/
  ref_one : ∀ a b, w.heap a = some b → b.ref = 1
  /-- Every pbuf ever delivered has either been deallocated once or is pending once. -/
  accounted : (w.io.freed ++ w.chain.map Prod.fst).Perm (List.range w.nextPtr)
  /-- After `tcp_raw_close` or `tcp_raw_error` all have been deallocated. -/
  released : w.io.closes ≠ [] ∨ w.io.errors ≠ 0 → w.io.freed.Perm (List.range w.nextPtr)

namespace Queue

open Conn

/-- Every buffer ever delivered has either been deallocated once or is pending once. -/
def Accounted (c : Conn) : Prop :=
  (c.io.freed ++ c.phase.pending.map Buf.ptr).Perm (List.range c.nextPtr)

lemma layOut_map_ptr (n : ℕ) (ss : List Seg) :
    (layOut n ss).map Buf.ptr = List.range' n ss.length := by
  induction ss generalizing n with
  | nil => rfl
  | cons s ss ih => rw [layOut, List.map_cons, ih, List.length_cons, List.range'_succ]

/-- The numbers of a delivery continue those given out before. -/
lemma range_delivered (c : Conn) (d : Delivery) :
    List.range (delivered c d).nextPtr
      = List.range c.nextPtr ++ (layOut c.nextPtr d.segs).map Buf.ptr := by
  rw [layOut_map_ptr]
  show List.range (c.nextPtr + d.segs.length) = _
  have happend := List.range'_append_1 (s := 0) (m := c.nextPtr) (n := d.segs.length)
  rw [Nat.zero_add] at happend
  rw [List.range_eq_range', List.range_eq_range', happend]

/-- What is sent is deallocated, and what is left stays pending. -/
lemma accounted_sendIn {tcp : TcpEnv} {c : Conn} {ph : List Buf → Phase} {bs : List Buf}
    (hph : ∀ bs, (ph bs).pending = bs)
    (h : (c.io.freed ++ bs.map Buf.ptr).Perm (List.range c.nextPtr)) :
    Accounted (sendIn tcp c ph bs) := by
  have hsplit : bs.map Buf.ptr
      = (send tcp 0 bs).1.map Buf.ptr ++ (send tcp 0 bs).2.1.map Buf.ptr := by
    rw [← List.map_append, send_append]
  rw [hsplit, ← List.append_assoc] at h
  rw [Accounted, sendIn, hph]
  exact h

lemma accounted_step (c : Conn) (e : Event) (c' : Conn) (h : Accounted c)
    (hs : step c e = .ok c') : Accounted c' := by
  have hnew : ∀ d, (c.io.freed ++ c.phase.pending.map Buf.ptr
      ++ (layOut c.nextPtr d.segs).map Buf.ptr).Perm (List.range (delivered c d).nextPtr) := by
    intro d
    rw [range_delivered]
    exact h.append_right _
  cases step_move hs with
  | idle _ => exact h
  | @take d nl tcp n b hph ha =>
    obtain ⟨_, _, _, _, hptr, _⟩ := action_ok ha
    refine accounted_sendIn (fun _ => rfl) ?_
    have hd := hnew d
    rw [Phase.pending_of_takes hph, List.map_nil, List.append_nil] at hd
    rw [List.map_cons, hptr]
    exact hd
  | @append d nl tcp b bs hph _ =>
    have hd := hnew d
    rw [hph, List.append_assoc, Phase.pending_received] at hd
    rw [Accounted, Phase.pending_received, List.map_append, Buf.map_grow_ptr]
    exact hd
  | @trash d nl tcp bs hph =>
    have hd := hnew d
    rw [List.append_assoc] at hd
    rw [Accounted]
    show ((c.io.freed ++ (layOut c.nextPtr d.segs).map Buf.ptr)
      ++ c.phase.pending.map Buf.ptr).Perm _
    rw [List.append_assoc]
    exact (List.perm_append_comm.append_left _).trans hd
  | received _ hph =>
    refine accounted_sendIn (fun _ => rfl) ?_
    rwa [Accounted, hph] at h
  | closing _ hph =>
    refine accounted_sendIn (fun _ => rfl) ?_
    rwa [Accounted, Phase.pending_of_sends hph] at h
  | close _ _ hp => rwa [Accounted, hp] at h
  | fail _ =>
    rw [Accounted]
    show (c.io.freed ++ c.phase.pending.map Buf.ptr ++ []).Perm _
    rw [List.append_nil]
    exact h

lemma heapOf_isSome (bs : List Buf) (a : ℕ) : (heapOf bs a).isSome ↔ a ∈ bs.map Buf.ptr := by
  rw [← nodes_map_fst bs none]
  constructor
  · intro h
    by_contra hn
    rw [heapOf, store_of_notMem hn] at h
    cases h
  · exact store_isSome_of_mem

lemma owned_toWorld {c : Conn} (hwf : WF c) (h : Accounted c ∧ Tally c) : Owned c.toWorld := by
  obtain ⟨hacc, htally⟩ := h
  have hchain : c.toWorld.chain.map Prod.fst = c.phase.pending.map Buf.ptr := by
    rw [chain_toWorld hwf, nodes_map_fst]
  refine ⟨fun a => ?_, fun a b hb => ?_, ?_, fun hcl => ?_⟩
  · rw [hchain]
    exact heapOf_isSome _ a
  · exact ref_of_mem_nodes (mem_of_store_empty hb)
  · rw [hchain]
    exact hacc
  · -- the counters say that the connection is closed, where nothing is pending
    have hclosed : c.phase = .closed := by
      by_contra hn
      have hlive := (htally.live hn).2
      rcases hcl with hcl | hcl
      · exact hcl (List.length_eq_zero_iff.mp (by change c.io.closes.length = 0; omega))
      · exact hcl (by change c.io.errors = 0; omega)
    rw [Accounted, hclosed, Phase.pending_closed, List.map_nil, List.append_nil] at hacc
    exact hacc

end Queue

/-- **Ownership is linear.**  In every run the pbufs are owned in every state; no pbuf is
touched or freed after it has been deallocated, no reference count is wrong, and no loop over
a chain goes astray. -/
theorem ownership (es : List Event) :
    Throughout step Owned start es ∧
    ∀ f, exec step start es = .error f → f ≠ .dangling ∧ f ≠ .assertRef ∧ f ≠ .diverged := by
  refine ⟨?_, ?_⟩
  · refine throughout_start_always (I := fun c => Accounted c ∧ Tally c) ?_
      (fun c hwf h => owned_toWorld hwf h) ⟨List.Perm.refl _, tally_start⟩ es
    intro c e c' h hs
    exact ⟨accounted_step c e c' h.1 hs, tally_step c e c' h.2 hs⟩
  · intro f hf
    obtain ⟨pre, e, c, _, _, hs⟩ := exec_fault hf
    rcases step_fault hs with ⟨rfl, _⟩ | rfl | rfl | rfl <;> simp

end Server
end DeepForensics
