/-
# Packet buffers

The packet buffers of lwIP as the server uses them (`lwip/src/core/pbuf.c`): a pbuf lives in
a heap under its address, knows its successor by pointer and counts the references to it.
`pbuf_free`, `pbuf_ref` and `pbuf_cat` are the functions of the source.  The second half says
what they do to a chain that is laid out in the heap from a list of buffers, which is what
the chains of the server turn out to be.
-/
import DeepForensics.Lib.Heap
import DeepForensics.Lib.Wire

namespace DeepForensics
namespace Server

open PtrHeap Wire

/-- What stops the server process. -/
inductive Fault where
  /-- A pbuf that is not allocated is touched. -/
  | dangling
  /-- `pbuf_free: p->ref > 0`. -/
  | assertRef
  /-- `p->tot_len == p->len (of last pbuf in chain)`, in `pbuf_cat`. -/
  | assertCat
  /-- A loop over pbufs does not come to an end. -/
  | diverged
  /-- `arg != NULL`, in `tcp_raw_recv`. -/
  | assertArg
  /-- The record `es` is touched through a null pointer. -/
  | nullEs
  /-- The record `es` is touched after `mem_free`. -/
  | danglingEs
  /-- `memcpy` reads from a null pointer. -/
  | nullCopy
  /-- `do_action` reads or writes outside a buffer. -/
  | outOfBounds
  /-- `exit(1)`, in `init_netlink_socket`. -/
  | exited
deriving DecidableEq, Repr

/-- `struct pbuf`.  The payload is everything from the payload pointer to the end of the
buffer, of which the first `len` bytes are data. -/
structure Pbuf where
  next : Option ℕ
  payload : List UInt8
  totLen : ℕ
  len : ℕ
  ref : ℕ
deriving DecidableEq, Repr

/-! ## The functions of `pbuf.c` -/

/-- `pbuf_free`: the loop gives up one reference and goes on along the chain as long as the
pbufs are deallocated.  The result has the deallocated pbufs in order. -/
def pbufFree : ℕ → Heap Pbuf → Option ℕ → Except Fault (Heap Pbuf × List ℕ)
  | _, h, none => .ok (h, [])
  | 0, _, some _ => .error .diverged
  | k + 1, h, some a =>
    match h a with
    | none => .error .dangling
    | some b =>
      if b.ref = 0 then .error .assertRef
      else if b.ref - 1 = 0 then
        -- deallocated: the chain held a reference to the next pbuf, which is given up too
        match pbufFree k (free h a) b.next with
        | .ok (h', dead) => .ok (h', a :: dead)
        | .error f => .error f
      else .ok (set h a { b with ref := b.ref - 1 }, [])

/-- `pbuf_ref`. -/
def pbufRef (h : Heap Pbuf) (a : ℕ) : Except Fault (Heap Pbuf) :=
  match h a with
  | none => .error .dangling
  | some b => .ok (set h a { b with ref := u16 (b.ref + 1) })

/-- `pbuf_cat`, with the loop at `p`: up to the last pbuf of the first chain the total
lengths grow, then the chains are joined. -/
def pbufCat : ℕ → Heap Pbuf → ℕ → ℕ → Except Fault (Heap Pbuf)
  | 0, _, _, _ => .error .diverged
  | k + 1, h, p, t =>
    match h p, h t with
    | some b, some tb =>
      match b.next with
      | some q => pbufCat k (set h p { b with totLen := u16 (b.totLen + tb.totLen) }) q t
      | none =>
        if b.totLen = b.len then
          .ok (set h p { b with totLen := u16 (b.totLen + tb.totLen), next := some t })
        else .error .assertCat
    | _, _ => .error .dangling

/-! ## Chains of buffers -/

/-- A buffer of a chain, without the pointer to its successor and with one reference. -/
structure Buf where
  ptr : ℕ
  payload : List UInt8
  totLen : ℕ
  len : ℕ
deriving DecidableEq, Repr

namespace Buf

/-- The pbuf of a buffer whose successor is at `q`. -/
def node (b : Buf) (q : Option ℕ) : Pbuf := ⟨q, b.payload, b.totLen, b.len, 1⟩

/-- The data of a buffer. -/
def bytes (b : Buf) : List UInt8 := b.payload.take b.len

/-- The buffer after `pbuf_cat` has appended a chain of total length `n` behind it. -/
def grow (n : ℕ) (b : Buf) : Buf := { b with totLen := u16 (b.totLen + n) }

@[simp] lemma grow_ptr (n : ℕ) (b : Buf) : (b.grow n).ptr = b.ptr := rfl

@[simp] lemma grow_len (n : ℕ) (b : Buf) : (b.grow n).len = b.len := rfl

@[simp] lemma grow_bytes (n : ℕ) (b : Buf) : (b.grow n).bytes = b.bytes := rfl

@[simp] lemma node_next (b : Buf) (q : Option ℕ) : (b.node q).next = q := rfl

lemma map_grow_ptr (n : ℕ) (bs : List Buf) : (bs.map (grow n)).map ptr = bs.map ptr := by
  simp [Function.comp_def]

end Buf

/-- The nodes of a chain of buffers, the last of which points to `tl`. -/
def nodes (bs : List Buf) (tl : Option ℕ) : List (ℕ × Pbuf) := link Buf.ptr Buf.node bs tl

/-- The pointer to the first buffer of a chain, `tl` if it is empty. -/
def headPtr (bs : List Buf) (tl : Option ℕ) : Option ℕ := first Buf.ptr bs tl

@[simp] lemma nodes_nil (tl : Option ℕ) : nodes [] tl = [] := rfl

@[simp] lemma nodes_cons (b : Buf) (bs : List Buf) (tl : Option ℕ) :
    nodes (b :: bs) tl = (b.ptr, b.node (headPtr bs tl)) :: nodes bs tl := rfl

@[simp] lemma nodes_map_fst (bs : List Buf) (tl : Option ℕ) :
    (nodes bs tl).map Prod.fst = bs.map Buf.ptr := link_map_fst _ _ bs tl

lemma nodes_append (bs cs : List Buf) (tl : Option ℕ) :
    nodes (bs ++ cs) tl = nodes bs (headPtr cs tl) ++ nodes cs tl := link_append _ _ bs cs tl

/-- Every pbuf of a chain of buffers has one reference. -/
lemma ref_of_mem_nodes {bs : List Buf} {tl : Option ℕ} {x : ℕ × Pbuf} (h : x ∈ nodes bs tl) :
    x.2.ref = 1 := by
  induction bs with
  | nil => cases h
  | cons b bs ih =>
    rcases List.mem_cons.mp h with rfl | h
    · rfl
    · exact ih h

@[simp] lemma headPtr_nil (tl : Option ℕ) : headPtr [] tl = tl := rfl

@[simp] lemma headPtr_cons (b : Buf) (bs : List Buf) (tl : Option ℕ) :
    headPtr (b :: bs) tl = some b.ptr := rfl

section Chain

variable {h : Heap Pbuf} {b : Buf} {bs : List Buf}

lemma pbufFree_of_ref_one {p : Pbuf} {a : ℕ} (ha : h a = some p) (hr : p.ref = 1) (k : ℕ) :
    pbufFree (k + 1) h (some a)
      = (pbufFree k (free h a) p.next).map fun r => (r.1, a :: r.2) := by
  rw [pbufFree, ha]
  simp only [hr, one_ne_zero, if_false, Nat.sub_self, if_true]
  cases pbufFree k (free h a) p.next <;> rfl

lemma pbufFree_of_ref_two {p : Pbuf} {a : ℕ} (ha : h a = some p) (hr : p.ref = 2) (k : ℕ) :
    pbufFree (k + 1) h (some a) = .ok (set h a { p with ref := 1 }, []) := by
  rw [pbufFree, ha]
  simp [hr]

/-- Freeing a chain in which every pbuf has one reference deallocates all of it. -/
lemma pbufFree_chain (hnd : (bs.map Buf.ptr).Nodup) (hfree : ∀ b ∈ bs, h b.ptr = none) :
    ∀ k, bs.length ≤ k → pbufFree k (store h (nodes bs none)) (headPtr bs none)
      = .ok (h, bs.map Buf.ptr) := by
  induction bs with
  | nil =>
    intro k _
    cases k <;> rfl
  | cons b bs ih =>
    intro k hk
    obtain ⟨k, rfl⟩ : ∃ j, k = j + 1 := ⟨k - 1, by simp at hk; omega⟩
    rw [List.map_cons, List.nodup_cons] at hnd
    -- the heap without the head is the heap of the rest, so the induction applies there
    have hb : store h (nodes bs none) b.ptr = none := by
      rw [store_of_notMem (by simpa using hnd.1)]
      exact hfree b (by simp)
    rw [headPtr_cons, nodes_cons, store_cons, pbufFree_of_ref_one (set_same _ _ _) rfl,
      free_set hb, Buf.node_next,
      ih hnd.2 (fun c hc => hfree c (by simp [hc])) k (by simpa using hk)]
    rfl

/-- The step of the send loop that chops the head off a longer chain: the new reference keeps
the rest alive, and the successor is back at one reference. -/
lemma pbufFree_chop {c : Buf} (hnd : ((b :: c :: bs).map Buf.ptr).Nodup)
    (hfree : h b.ptr = none) (k : ℕ) :
    ∃ h', pbufRef (store h (nodes (b :: c :: bs) none)) c.ptr = .ok h' ∧
      pbufFree (k + 2) h' (some b.ptr) = .ok (store h (nodes (c :: bs) none), [b.ptr]) := by
  rw [List.map_cons, List.nodup_cons] at hnd
  have hbc : b.ptr ≠ c.ptr := fun hc => hnd.1 (by simp [hc])
  have hb : store h (nodes bs none) b.ptr = none := by
    rw [store_of_notMem (by simpa using fun hc => hnd.1 (List.mem_cons_of_mem _ hc)), hfree]
  have hc : store h (nodes (b :: c :: bs) none) c.ptr = some (c.node (headPtr bs none)) := by
    rw [nodes_cons, store_cons, set_of_ne hbc.symm, nodes_cons, store_cons, set_same]
  refine ⟨_, by rw [pbufRef, hc], ?_⟩
  -- `b` is deallocated, and the loop stops at `c`, which goes from two references to one
  rw [nodes_cons, store_cons, set_comm hbc, nodes_cons, store_cons, set_set,
    pbufFree_of_ref_one (set_same _ _ _) rfl, free_set (by rw [set_of_ne hbc, hb])]
  show Except.map _ (pbufFree (k + 1) _ (some c.ptr)) = _
  rw [pbufFree_of_ref_two (set_same _ _ _) rfl, set_set]
  rfl

/-- `pbuf_cat` on a chain: it passes the assertion exactly when the last pbuf has its own
length as total length, and then every total length has grown and the last pbuf points
to the appended chain. -/
lemma pbufCat_chain {t : ℕ} {tb : Pbuf} :
    ∀ (bs : List Buf) (h : Heap Pbuf) (b : Buf) (k : ℕ),
      ((b :: bs).map Buf.ptr).Nodup → t ∉ (b :: bs).map Buf.ptr → h t = some tb →
      (b :: bs).length ≤ k →
      pbufCat k (store h (nodes (b :: bs) none)) b.ptr t
        = if (bs.getLastD b).totLen = (bs.getLastD b).len then
            .ok (store h (nodes ((b :: bs).map (Buf.grow tb.totLen)) (some t)))
          else .error .assertCat := by
  intro bs
  induction bs with
  | nil =>
    intro h b k _ ht htb hk
    obtain ⟨k, rfl⟩ : ∃ j, k = j + 1 := ⟨k - 1, by simp at hk; omega⟩
    have htne : t ≠ b.ptr := by simpa using ht
    simp [pbufCat, set_of_ne htne, htb, Buf.node, Buf.grow]
  | cons c cs ih =>
    intro h b k hnd ht htb hk
    obtain ⟨k, rfl⟩ : ∃ j, k = j + 1 := ⟨k - 1, by simp at hk; omega⟩
    rw [List.map_cons, List.nodup_cons] at hnd
    have htne : t ≠ b.ptr := fun hc => ht (by simp [hc])
    have ht' : t ∉ (c :: cs).map Buf.ptr := fun hc => ht (List.mem_cons_of_mem _ hc)
    have htail : store h (nodes (c :: cs) none) t = some tb := by
      rw [store_of_notMem (by simpa using ht'), htb]
    -- the node at `b` is rewritten in place, and the rest of the chain does not see it
    have hstep : pbufCat (k + 1) (store h (nodes (b :: c :: cs) none)) b.ptr t
        = pbufCat k (store (set h b.ptr ((b.grow tb.totLen).node (some c.ptr)))
            (nodes (c :: cs) none)) c.ptr t := by
      rw [store_set (by simpa using hnd.1), nodes_cons, store_cons, pbufCat]
      simp only [set_same, set_of_ne htne, htail, Buf.node_next, headPtr_cons, set_set]
      rfl
    rw [hstep, ih _ c k hnd.2 ht' (by rw [set_of_ne htne, htb]) (by simpa using hk),
      store_set (by simpa [Buf.map_grow_ptr] using hnd.1), List.getLastD_cons]
    rfl

end Chain

end Server
end DeepForensics
