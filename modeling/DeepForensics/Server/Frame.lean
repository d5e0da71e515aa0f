/-
# The callbacks are local

A connection of the server reaches pbufs only through pointers of its own.  So its callbacks do
the same thing whatever other pbufs are allocated: unless a callback follows a dangling pointer,
it does to a heap over a frame what it does to the heap, and leaves the frame alone
(`step_follows`).  On the images of abstract connections, where no pointer dangles, this gives
the steps of a connection in a heap that it shares with others (`step_atop`).
-/
import DeepForensics.Server.Refine

namespace DeepForensics
namespace Server

open PtrHeap Wire Runs

variable {f h : Heap Pbuf}

/-! ## Packet buffers -/

/-- Heap operations side by side, one of them over a frame. -/
abbrev HeapAtop (f : Heap Pbuf) (h k : Heap Pbuf) : Prop := k = atop h f ∧ Apart h f

/-- The fault that does not count: the pointer might lead into the frame. -/
def Lost (e : Fault) : Prop := e = .dangling

lemma lost_dangling : Lost .dangling := rfl

lemma pbufFree_follows (hd : Apart h f) (k : ℕ) (p : Option ℕ) :
    Follows Lost (fun r s => HeapAtop f r.1 s.1 ∧ s.2 = r.2) (pbufFree k h p)
      (pbufFree k (atop h f) p) := by
  induction k generalizing h p with
  | zero =>
    cases p with
    | none => exact .ok ⟨⟨rfl, hd⟩, rfl⟩
    | some a => exact .error _
  | succ k ih =>
    cases p with
    | none => exact .ok ⟨⟨rfl, hd⟩, rfl⟩
    | some a =>
      cases ha : h a with
      | none =>
        simp only [pbufFree, ha]
        exact .bad lost_dangling _
      | some b =>
        have hfa : f a = none := hd a b ha
        by_cases hr : b.ref = 1
        · -- the pbuf is deallocated, and the loop goes on behind it
          rw [pbufFree_of_ref_one ha hr, pbufFree_of_ref_one (atop_of_some ha) hr, free_atop hfa]
          refine (ih (hd.free a) b.next).map ?_
          rintro r s ⟨hatop, hdead⟩
          exact ⟨hatop, by rw [hdead]⟩
        · simp only [pbufFree, ha, atop_of_some ha, set_atop]
          have hr' : b.ref ≠ 0 → ¬ b.ref - 1 = 0 := by omega
          split_ifs with h0
          · exact .error _
          · exact absurd ‹_› (hr' h0)
          · exact .ok ⟨⟨rfl, hd.set hfa _⟩, rfl⟩

lemma pbufRef_follows (hd : Apart h f) (a : ℕ) :
    Follows Lost (HeapAtop f) (pbufRef h a) (pbufRef (atop h f) a) := by
  cases ha : h a with
  | none =>
    simp only [pbufRef, ha]
    exact .bad lost_dangling _
  | some b =>
    simp only [pbufRef, ha, atop_of_some ha, set_atop]
    exact .ok ⟨rfl, hd.set (hd a b ha) _⟩

lemma pbufCat_follows (hd : Apart h f) (k p t : ℕ) :
    Follows Lost (HeapAtop f) (pbufCat k h p t) (pbufCat k (atop h f) p t) := by
  induction k generalizing h p with
  | zero => exact .error _
  | succ k ih =>
    cases hp : h p with
    | none =>
      simp only [pbufCat, hp]
      exact .bad lost_dangling _
    | some b =>
      cases ht : h t with
      | none =>
        simp only [pbufCat, hp, ht]
        exact .bad lost_dangling _
      | some tb =>
        simp only [pbufCat, hp, ht, atop_of_some hp, atop_of_some ht, set_atop]
        have hset : ∀ n, Apart (set h p n) f := hd.set (hd p b hp)
        cases b.next with
        | some q => exact ih (hset _) q
        | none =>
          dsimp only
          split_ifs
          · exact .ok ⟨rfl, hset _⟩
          · exact .error _

/-! ## The functions of `tcp_raw.c` -/

namespace World

/-- The state of a connection when more pbufs are allocated. -/
def atop (w : World) (f : Heap Pbuf) : World := { w with heap := PtrHeap.atop w.heap f }

@[simp] lemma atop_heap (w : World) (f : Heap Pbuf) :
    (w.atop f).heap = PtrHeap.atop w.heap f := rfl

@[simp] lemma atop_es (w : World) (f : Heap Pbuf) : (w.atop f).es = w.es := rfl

@[simp] lemma atop_pcb (w : World) (f : Heap Pbuf) : (w.atop f).pcb = w.pcb := rfl

@[simp] lemma atop_nlOpen (w : World) (f : Heap Pbuf) : (w.atop f).nlOpen = w.nlOpen := rfl

@[simp] lemma atop_nextPtr (w : World) (f : Heap Pbuf) : (w.atop f).nextPtr = w.nextPtr := rfl

end World

/-- States side by side, one of them over a frame. -/
abbrev WorldAtop (f : Heap Pbuf) (w v : World) : Prop := v = w.atop f ∧ Apart w.heap f

section TcpRaw

variable {w : World} (hd : Apart w.heap f) (tcp : TcpEnv)
include hd

lemma World.pbufFree_follows (p : Option ℕ) :
    Follows Lost (WorldAtop f) (w.pbufFree p) ((w.atop f).pbufFree p) := by
  refine (Server.pbufFree_follows hd w.nextPtr p).map ?_
  rintro ⟨h, dead⟩ ⟨_, _⟩ ⟨⟨hh, ha⟩, hdead⟩
  cases hh
  cases hdead
  exact ⟨rfl, ha⟩

lemma freeChain_follows (p : Option ℕ) :
    Follows Lost (WorldAtop f) (freeChain w p) (freeChain (w.atop f) p) := by
  cases p with
  | none => exact .ok ⟨rfl, hd⟩
  | some p => exact World.pbufFree_follows hd (some p)

lemma tcpRawFree_follows :
    Follows Lost (WorldAtop f) (tcpRawFree w) (tcpRawFree (w.atop f)) := by
  cases hes : w.es with
  | none =>
    simp only [tcpRawFree, World.atop_es, hes]
    exact .error _
  | some es =>
    simp only [tcpRawFree, World.atop_es, hes]
    refine (freeChain_follows hd es.p).bind ?_
    rintro w' _ ⟨rfl, ha⟩
    exact .ok ⟨rfl, ha⟩

omit hd in
/-- `do_action` rewrites the first pbuf of the chain and keeps its pointer. -/
lemma doAction_heap {nl : NetlinkEnv} {w' : World} (h : doAction nl w = .ok w') :
    ∃ a b b', w.heap a = some b ∧ b'.next = b.next ∧ w'.heap = set w.heap a b' := by
  cases hes : w.es with
  | none =>
    simp only [doAction, doActionTraced, hes] at h
    cases h
  | some es =>
    cases hp : es.p with
    | none =>
      simp only [doAction, doActionTraced, hes, hp] at h
      cases h
    | some a =>
      cases ha : w.heap a with
      | none =>
        simp only [doAction, doActionTraced, hes, hp, ha] at h
        cases h
      | some b =>
        rw [doAction_of_head nl hes hp ha] at h
        split_ifs at h
        obtain ⟨r, -, h⟩ := exists_of_bind_eq_ok h
        obtain ⟨payload, -, h⟩ := exists_of_bind_eq_ok h
        cases h
        exact ⟨a, b, { b with len := u16 (word b.payload 1), payload := payload }, ha, rfl, rfl⟩

omit hd in
/-- Neither the exchange nor the copy looks at the heap. -/
lemma doAction_atop (nl : NetlinkEnv) {es : Es} {a : ℕ} {b : Pbuf} (hes : w.es = some es)
    (hp : es.p = some a) (ha : w.heap a = some b) :
    doAction nl (w.atop f) = (doAction nl w).map fun w' => w'.atop f := by
  rw [doAction_of_head nl (w := w.atop f) hes hp (atop_of_some ha),
    doAction_of_head nl hes hp ha]
  simp only [World.atop_heap, World.atop_nlOpen, set_atop]
  split_ifs
  · rfl
  cases sendNetlinkRequest nl w.nlOpen (word b.payload 0) (word b.payload 1) with
  | error e => rfl
  | ok r =>
    show (memcpy b.payload r.2 (word b.payload 1)).bind _
      = Except.map _ ((memcpy b.payload r.2 (word b.payload 1)).bind _)
    cases memcpy b.payload r.2 (word b.payload 1) with
    | error e => rfl
    | ok payload => rfl

lemma doAction_follows (nl : NetlinkEnv) :
    Follows Lost (WorldAtop f) (doAction nl w) (doAction nl (w.atop f)) := by
  cases hes : w.es with
  | none =>
    simp only [doAction, doActionTraced, World.atop_es, hes]
    exact .error _
  | some es =>
    cases hp : es.p with
    | none =>
      simp only [doAction, doActionTraced, World.atop_es, hes, hp]
      exact .error _
    | some a =>
      cases ha : w.heap a with
      | none =>
        have hlost : doAction nl w = .error .dangling := by
          simp only [doAction, doActionTraced, hes, hp, ha]
        rw [hlost]
        exact .bad lost_dangling _
      | some b =>
        rw [doAction_atop nl hes hp ha]
        cases hw : doAction nl w with
        | error e => exact .error _
        | ok w' =>
          obtain ⟨a, b, b', ha, -, hheap⟩ := doAction_heap hw
          exact .ok ⟨rfl, hheap ▸ hd.set (hd a b ha) b'⟩

lemma tcpRawClose_follows :
    Follows Lost (WorldAtop f) (tcpRawClose tcp w) (tcpRawClose tcp (w.atop f)) := by
  rw [tcpRawClose, tcpRawClose]
  refine Follows.bind (tcpRawFree_follows (w := ⟨w.heap, _, _, _, _, _⟩) hd) ?_
  rintro w' _ ⟨rfl, ha⟩
  exact .ok ⟨rfl, ha⟩

lemma refNext_follows (p : Option ℕ) :
    Follows Lost (HeapAtop f) (refNext w.heap p) (refNext (atop w.heap f) p) := by
  cases p with
  | none => exact .ok ⟨rfl, hd⟩
  | some q => exact pbufRef_follows hd q

omit hd in
lemma tcpRawSendLoop_follows (fuel k : ℕ) {w : World} (hd : Apart w.heap f) :
    Follows Lost (fun r s => WorldAtop f r.1 s.1 ∧ s.2 = r.2) (tcpRawSendLoop tcp fuel k w)
      (tcpRawSendLoop tcp fuel k (w.atop f)) := by
  induction fuel generalizing k w with
  | zero => exact .error _
  | succ fuel ih =>
    cases hes : w.es with
    | none =>
      simp only [tcpRawSendLoop, World.atop_es, hes]
      exact .error _
    | some es =>
      cases hp : es.p with
      | none =>
        simp only [tcpRawSendLoop, World.atop_es, hes, hp]
        exact .ok ⟨⟨rfl, hd⟩, rfl⟩
      | some ptr =>
        cases hb : w.heap ptr with
        | none =>
          simp only [tcpRawSendLoop, hes, hp, hb]
          exact .bad lost_dangling _
        | some b =>
          simp only [tcpRawSendLoop, World.atop_es, World.atop_heap, hes, hp, hb, atop_of_some hb]
          split_ifs
          · -- written: the successor is kept, the head is freed, and the loop goes on
            refine (refNext_follows hd b.next).bind ?_
            rintro h' _ ⟨rfl, hd'⟩
            refine Follows.bind (World.pbufFree_follows
              (w := ⟨h', _, _, _, _, _⟩) hd' (some ptr)) ?_
            rintro w' _ ⟨rfl, hd''⟩
            exact ih (k + 1) (w := w'.tcpRecved b.len) hd''
          · exact .ok ⟨⟨rfl, hd⟩, rfl⟩
          · exact .ok ⟨⟨rfl, hd⟩, rfl⟩

lemma tcpRawSend_follows :
    Follows Lost (fun r s => WorldAtop f r.1 s.1 ∧ s.2 = r.2) (tcpRawSend tcp w)
      (tcpRawSend tcp (w.atop f)) :=
  tcpRawSendLoop_follows tcp (w.nextPtr + 1) 0 hd

/-- The callbacks end with a call of `tcp_raw_send` or `tcp_raw_close` and a result. -/
lemma send_follows (e : ErrT) :
    Follows Lost (fun r s => WorldAtop f r.1 s.1 ∧ s.2 = r.2)
      (tcpRawSend tcp w >>= fun r => .ok (r.1, e))
      (tcpRawSend tcp (w.atop f) >>= fun r => .ok (r.1, e)) := by
  refine (tcpRawSend_follows hd tcp).bind ?_
  rintro r s ⟨h, -⟩
  exact .ok ⟨h, rfl⟩

omit hd in
lemma calledClose_heap (w : World) : w.calledClose.heap = w.heap := by
  rw [World.calledClose]
  split
  · rfl
  · rfl

omit hd in
lemma calledClose_atop (w : World) : (w.atop f).calledClose = w.calledClose.atop f := by
  rw [World.calledClose, World.calledClose, World.atop_es]
  cases w.es with
  | none => rfl
  | some es => rfl

lemma close_follows (e : ErrT) :
    Follows Lost (fun r s => WorldAtop f r.1 s.1 ∧ s.2 = r.2)
      (tcpRawClose tcp w.calledClose >>= fun w => .ok (w, e))
      (tcpRawClose tcp (w.atop f).calledClose >>= fun w => .ok (w, e)) := by
  rw [calledClose_atop]
  refine Follows.bind (tcpRawClose_follows (w := w.calledClose) ?_ tcp) ?_
  · rwa [calledClose_heap]
  · rintro w' _ h
    exact .ok ⟨h, rfl⟩

lemma tcpRawPoll_follows :
    Follows Lost (fun r s => WorldAtop f r.1 s.1 ∧ s.2 = r.2) (tcpRawPoll tcp w)
      (tcpRawPoll tcp (w.atop f)) := by
  rw [tcpRawPoll, tcpRawPoll, World.atop_pcb, World.atop_es]
  split
  · cases hes : w.es with
    | none => exact .error _
    | some es =>
      cases hp : es.p with
      | some p =>
        simp only [hp]
        exact send_follows hd tcp .ok
      | none =>
        simp only [hp]
        split_ifs
        · exact close_follows hd tcp .ok
        · exact .ok ⟨⟨rfl, hd⟩, rfl⟩
  · exact .ok ⟨⟨rfl, hd⟩, rfl⟩

lemma tcpRawSent_follows :
    Follows Lost (fun r s => WorldAtop f r.1 s.1 ∧ s.2 = r.2) (tcpRawSent tcp w)
      (tcpRawSent tcp (w.atop f)) := by
  rw [tcpRawSent, tcpRawSent, World.atop_pcb, World.atop_es]
  split
  · cases hes : w.es with
    | none => exact .error _
    | some es =>
      cases hp : es.p with
      | some p =>
        simp only [hp]
        refine send_follows (w := ⟨w.heap, _, _, _, _, _⟩) ?_ tcp .ok
        exact hd
      | none =>
        simp only [hp]
        split_ifs
        · refine close_follows (w := ⟨w.heap, _, _, _, _, _⟩) ?_ tcp .ok
          exact hd
        · exact .ok ⟨⟨rfl, hd⟩, rfl⟩
  · exact .error _

lemma tcpRawError_follows :
    Follows Lost (WorldAtop f) (tcpRawError w) (tcpRawError (w.atop f)) := by
  cases harg : w.pcb.callbackArg with
  | false =>
    simp only [tcpRawError, World.atop_pcb, harg]
    exact .ok ⟨rfl, hd⟩
  | true =>
    simp only [tcpRawError, World.atop_pcb, harg, if_true]
    refine tcpRawFree_follows (w := ⟨w.heap, _, _, _, _, _⟩) ?_
    exact hd

/-! ## Receiving -/

omit hd in
/-- A chain that does not lead out of the heap has the same data over a frame. -/
lemma chainFrom_atop (hc : Closed Pbuf.next w.heap) {p : ℕ} {b : Pbuf} (hp : w.heap p = some b) :
    (w.atop f).chainFrom (some p) = w.chainFrom (some p) := by
  refine walk_atop hc f w.nextPtr fun a ha => ?_
  cases ha
  exact ⟨b, hp⟩

omit hd in
lemma servedData_atop (nl : NetlinkEnv) (hc : Closed Pbuf.next w.heap) {p : ℕ} {b : Pbuf}
    (hp : w.heap p = some b) : servedData nl (w.atop f) p = servedData nl w p := by
  have hact : doAction nl { w.atop f with es := some ⟨.received, 0, some p⟩ }
      = (doAction nl { w with es := some ⟨.received, 0, some p⟩ }).map fun w' => w'.atop f :=
    doAction_atop (w := { w with es := some ⟨.received, 0, some p⟩ }) nl rfl rfl hp
  rw [servedData, servedData, hact]
  cases hw : doAction nl { w with es := some ⟨.received, 0, some p⟩ } with
  | error e => rfl
  | ok w' =>
    obtain ⟨a, c, c', ha, hn, hheap⟩ := doAction_heap hw
    have hhead : ∃ b', w'.heap p = some b' := by
      by_cases hpa : p = a
      · exact ⟨c', by rw [hheap, hpa, set_same]⟩
      · exact ⟨b, by rw [hheap, set_of_ne hpa]; exact hp⟩
    obtain ⟨b', hb'⟩ := hhead
    exact congrArg World.dataOf (chainFrom_atop (hheap ▸ Closed.set hc ha hn) hb')

omit hd in
/-- A chain brings the same bytes over a frame. -/
lemma arriving_atop (nl : NetlinkEnv) (hc : Closed Pbuf.next w.heap) {p : ℕ} {b : Pbuf}
    (hp : w.heap p = some b) : arriving nl (w.atop f) p = arriving nl w p := by
  rw [arriving, arriving, World.atop_es]
  simp only [servedData_atop nl hc hp, chainFrom_atop hc hp]

lemma takeChain_follows (nl : NetlinkEnv) (es : Es) (p : ℕ) :
    Follows Lost (WorldAtop f) (takeChain nl tcp w es p) (takeChain nl tcp (w.atop f) es p) := by
  rw [takeChain, takeChain]
  refine Follows.bind (doAction_follows
    (w := { w with es := some { es with state := .received, p := some p } }) hd nl) ?_
  rintro w' _ ⟨rfl, hd'⟩
  refine Follows.bind (tcpRawSend_follows hd' tcp) ?_
  rintro r s ⟨h, -⟩
  exact .ok h

/-- The part of `tcp_raw_recv` that deals with data. -/
lemma tcpRawRecv_follows (nl : NetlinkEnv) {p : ℕ} {b : Pbuf} (hp : w.heap p = some b) :
    Follows Lost (fun r s => WorldAtop f r.1 s.1 ∧ s.2 = r.2) (tcpRawRecv nl tcp w (some p) .ok)
      (tcpRawRecv nl tcp (w.atop f) (some p) .ok) := by
  have htake : ∀ es, Follows Lost (fun r s => WorldAtop f r.1 s.1 ∧ s.2 = r.2)
      (takeChain nl tcp w es p >>= fun w => .ok (w, ErrT.ok))
      (takeChain nl tcp (w.atop f) es p >>= fun w => .ok (w, ErrT.ok)) := by
    intro es
    refine (takeChain_follows hd tcp nl es p).bind ?_
    rintro w' _ h
    exact .ok ⟨h, rfl⟩
  have htrash : Follows Lost (fun r s => WorldAtop f r.1 s.1 ∧ s.2 = r.2)
      ((w.tcpRecved b.totLen).pbufFree (some p) >>= fun w => .ok (w, ErrT.ok))
      (((w.atop f).tcpRecved b.totLen).pbufFree (some p) >>= fun w => .ok (w, ErrT.ok)) := by
    refine Follows.bind (World.pbufFree_follows (w := w.tcpRecved b.totLen) hd (some p)) ?_
    rintro w' _ h
    exact .ok ⟨h, rfl⟩
  rw [tcpRawRecv, tcpRawRecv, World.atop_pcb, World.atop_es]
  split
  · cases hes : w.es with
    | none => exact .error _
    | some es =>
      simp only [ne_eq, not_true_eq_false, if_false, World.atop_heap, hp, atop_of_some hp]
      cases hst : es.state with
      | none => exact htrash
      | accepted => exact htake es
      | received =>
        cases hptr : es.p with
        | none => exact htake es
        | some ptr =>
          refine (pbufCat_follows hd w.nextPtr ptr p).bind ?_
          rintro h' _ ⟨rfl, hd'⟩
          exact .ok ⟨⟨rfl, hd'⟩, rfl⟩
      | closing => exact htrash
  · exact .error _

lemma tcpRawRecv_fin_follows (nl : NetlinkEnv) :
    Follows Lost (fun r s => WorldAtop f r.1 s.1 ∧ s.2 = r.2) (tcpRawRecv nl tcp w none .ok)
      (tcpRawRecv nl tcp (w.atop f) none .ok) := by
  rw [tcpRawRecv, tcpRawRecv, World.atop_pcb, World.atop_es]
  split
  · cases hes : w.es with
    | none => exact .error _
    | some es =>
      cases hp : es.p with
      | none =>
        simp only [hp]
        refine close_follows (w := ⟨w.heap, _, _, _, _, _⟩) ?_ tcp .ok
        exact hd
      | some ptr =>
        simp only [hp]
        refine send_follows (w := ⟨w.heap, _, _, _, _, _⟩) ?_ tcp .ok
        exact hd
  · exact .error _

/-- **Locality.**  Over a frame that has none of the addresses still to be given out, a step does
what it does without the frame. -/
theorem step_follows (hc : Closed Pbuf.next w.heap) (hf : ∀ a, w.nextPtr ≤ a → f a = none)
    (e : Event) : Follows Lost (WorldAtop f) (step w e) (step (w.atop f) e) := by
  have hfst : ∀ {x y : Except Fault (World × ErrT)},
      Follows Lost (fun r s => WorldAtop f r.1 s.1 ∧ s.2 = r.2) x y →
      Follows Lost (WorldAtop f) (x.map Prod.fst) (y.map Prod.fst) :=
    fun h => h.map fun r s hrs => hrs.1
  cases e with
  | recv d nl tcp =>
    by_cases hcb : w.pcb.recv = true
    · -- the delivered chain is laid out beyond the frame
      have hatop : deliver (w.atop f) d = (deliver w d).atop f := by
        simp only [deliver, World.atop, store_atop]
      have hd' : Apart (deliver w d).heap f := by
        refine hd.store fun x hx => hf x.1 ?_
        have hmem : x.1 ∈ (layOut w.nextPtr d.segs).map Buf.ptr :=
          nodes_map_fst (layOut w.nextPtr d.segs) none ▸ List.mem_map_of_mem hx
        obtain ⟨b, hb, hbx⟩ := List.mem_map.mp hmem
        exact hbx ▸ Queue.layOut_ge _ _ b hb
      have hhead : ∃ b, (deliver w d).heap w.nextPtr = some b := ⟨_, set_same _ _ _⟩
      obtain ⟨b, hb⟩ := hhead
      simp only [step, World.atop_pcb, hcb, if_true, hatop, World.atop_nextPtr,
        arriving_atop nl (hc.store_link Buf.node_next _) hb]
      exact hfst (tcpRawRecv_follows (w := (deliver w d).enqueue _) hd' tcp nl hb)
    · simp only [step, World.atop_pcb, hcb]
      exact .ok ⟨rfl, hd⟩
  | fin tcp =>
    by_cases hcb : w.pcb.recv = true
    · simp only [step, World.atop_pcb, hcb, if_true]
      exact hfst (tcpRawRecv_fin_follows hd tcp .unused)
    · simp only [step, World.atop_pcb, hcb]
      exact .ok ⟨rfl, hd⟩
  | sent tcp =>
    by_cases hcb : w.pcb.sent = true
    · simp only [step, World.atop_pcb, hcb, if_true]
      exact hfst (tcpRawSent_follows hd tcp)
    · simp only [step, World.atop_pcb, hcb]
      exact .ok ⟨rfl, hd⟩
  | poll tcp =>
    by_cases hcb : w.pcb.poll = true
    · simp only [step, World.atop_pcb, hcb, if_true]
      exact hfst (tcpRawPoll_follows hd tcp)
    · simp only [step, World.atop_pcb, hcb]
      exact .ok ⟨rfl, hd⟩
  | err x =>
    by_cases hcb : w.pcb.errf = true
    · simp only [step, World.atop_pcb, hcb, if_true]
      refine Follows.map (tcpRawError_follows (w := w.calledError) hd) ?_
      rintro w' _ ⟨rfl, hd'⟩
      exact ⟨rfl, hd'⟩
    · simp only [step, World.atop_pcb, hcb]
      exact .ok ⟨rfl, hd⟩

end TcpRaw

/-! ## Abstract connections in a shared heap -/

namespace Queue

open Conn

lemma closed_heapOf (bs : List Buf) : Closed Pbuf.next (heapOf bs) :=
  Closed.store_link Buf.node_next (fun _ _ _ h _ => by cases h) bs

/-- No step of an abstract connection follows a dangling pointer. -/
lemma not_lost_step {c : Conn} {e : Event} {x : Fault} (h : step c e = .error x) : ¬ Lost x := by
  rintro rfl
  rcases step_fault h with ⟨h, -⟩ | h | h | h
  · cases h
  · cases h
  · cases h
  · cases h

variable {c : Conn} (hwf : WF c) (hd : Apart (heapOf c.phase.pending) f)
  (hf : ∀ a, c.nextPtr ≤ a → f a = none) (e : Event)
include hwf hd hf

/-- A step over a frame is the abstract step. -/
theorem step_atop :
    Server.step (c.toWorld.atop f) e = (step c e).map fun c' => c'.toWorld.atop f := by
  have hfol := step_follows (w := c.toWorld) hd (closed_heapOf _) hf e
  have hnot : ∀ x, Server.step c.toWorld e = .error x → ¬ Lost x := by
    intro x hx
    rw [step_toWorld hwf] at hx
    cases hs : step c e with
    | ok c' => rw [hs] at hx; cases hx
    | error y =>
      rw [hs] at hx
      cases hx
      exact not_lost_step hs
  rw [hfol.eq_map hnot fun w v hv => hv.1, step_toWorld hwf]
  cases step c e <;> rfl

/-- A step does not take addresses of the frame. -/
lemma apart_step {c' : Conn} (hs : step c e = .ok c') : Apart (heapOf c'.phase.pending) f := by
  have hfol := step_follows (w := c.toWorld) hd (closed_heapOf _) hf e
  rw [step_toWorld hwf, hs] at hfol
  obtain ⟨v, -, -, hd'⟩ := hfol.exists_of_ok
  exact hd'

end Queue

end Server
end DeepForensics
