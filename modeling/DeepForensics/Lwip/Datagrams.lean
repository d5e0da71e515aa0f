/-
# Reassembly over whole runs

The entries of `ip4_frag.c` over any sequence of fragments and timer calls.  Between two calls the
state has an invariant (`ReassInv`), which every function keeps that changes it: the timer, the
removal of old datagrams when there is no room, and `ip4_reass` itself.  A datagram that is complete
is described by the fragments it was made of (`Assembled`).
-/
import DeepForensics.Lwip.Assembly
import Mathlib.Algebra.Order.Ring.Nat
import Mathlib.Data.List.TakeWhile

namespace DeepForensics
namespace Lwip

open Runs

/-- The addresses and the identification, by which fragments belong together. -/
abbrev IpKey : Type := UInt32 × UInt32 × UInt16

def IpHdr.key (h : IpHdr) : IpKey := (h.src, h.dest, h.id)

lemma match_iff (a b : IpHdr) : addressesAndIdMatch a b = true ↔ a.key = b.key := by
  simp [addressesAndIdMatch, IpHdr.key, and_assoc]

/-- The pbufs of some fragments. -/
def pbufsOf (fs : List Frag) : ℕ := (fs.map fun f => f.body.clen).sum

@[simp] lemma pbufsOf_nil : pbufsOf [] = 0 := rfl

@[simp] lemma pbufsOf_cons (f : Frag) (fs : List Frag) :
    pbufsOf (f :: fs) = f.body.clen + pbufsOf fs := by
  simp [pbufsOf]

@[simp] lemma pbufsOf_append (fs gs : List Frag) :
    pbufsOf (fs ++ gs) = pbufsOf fs + pbufsOf gs := by
  simp [pbufsOf]

/-- The pbufs of all fragments that wait. -/
def pbufsWaiting (l : List ReassData) : ℕ := (l.map fun r => pbufsOf r.p).sum

@[simp] lemma pbufsWaiting_nil : pbufsWaiting [] = 0 := rfl

@[simp] lemma pbufsWaiting_cons (r : ReassData) (l : List ReassData) :
    pbufsWaiting (r :: l) = pbufsOf r.p + pbufsWaiting l := by
  simp [pbufsWaiting]

@[simp] lemma pbufsWaiting_append (l l' : List ReassData) :
    pbufsWaiting (l ++ l') = pbufsWaiting l + pbufsWaiting l' := by
  simp [pbufsWaiting]

variable {P : IpKey → Frag → Prop}

/-- An entry between two calls.  `P` says what is known of the fragments that came in. -/
structure Entry (P : IpKey → Frag → Prop) (r : ReassData) : Prop where
  waiting : r.p ≠ []
  ordered : Ordered r.p
  timer : r.timer ≤ ipReassMaxage
  known : ∀ f ∈ r.p, P r.iphdr.key f

/-- The keys of the entries are different. -/
def Keyed (l : List ReassData) : Prop := (l.map fun r => r.iphdr.key).Nodup

/-- The state between two calls. -/
structure ReassInv (P : IpKey → Frag → Prop) (s : Reass) : Prop where
  count : s.pbufcount = pbufsWaiting s.reassdatagrams
  bound : s.pbufcount ≤ ipReassMaxPbufs
  pool : s.pool + s.reassdatagrams.length = numReassdata
  keyed : Keyed s.reassdatagrams
  entry : ∀ r ∈ s.reassdatagrams, Entry P r

lemma reassInv_noDatagrams : ReassInv P noDatagrams :=
  ⟨rfl, by decide, rfl, List.nodup_nil, by simp [noDatagrams]⟩

lemma forall_mem_middle {α : Type*} {Q : α → Prop} {pre post : List α} {a : α} :
    (∀ x ∈ pre ++ a :: post, Q x) ↔ Q a ∧ ∀ x ∈ pre ++ post, Q x := by
  simp only [List.forall_mem_append, List.forall_mem_cons]
  exact and_left_comm

lemma keyed_middle {pre post : List ReassData} {r : ReassData} :
    Keyed (pre ++ r :: post) ↔
      Keyed (pre ++ post) ∧ ∀ r' ∈ pre ++ post, r'.iphdr.key ≠ r.iphdr.key := by
  rw [Keyed, (List.perm_middle.map fun r : ReassData => r.iphdr.key).nodup_iff, List.map_cons,
    List.nodup_cons, and_comm]
  simp [Keyed, or_imp, forall_and]

/-! ## Giving up a datagram -/

lemma countFreed_eq (n : ℕ) (fs : List Frag) (h : n + pbufsOf fs ≤ 0xffff) :
    countFreed n fs = .ok (n + pbufsOf fs) := by
  induction fs generalizing n with
  | nil => rfl
  | cons f fs ih =>
    rw [pbufsOf_cons] at h
    have hle : n + f.body.clen ≤ 0xffff := by omega
    rw [countFreed, reassAssert, if_pos (decide_eq_true hle), ok_bind, ih _ (by omega),
      pbufsOf_cons, Nat.add_assoc]

/-- The message that tells a sender that its datagram was given up. -/
def exceededFor (r : ReassData) : List Packet :=
  match r.p with
  | [] => []
  | f :: _ => if f.start = 0 then [⟨r.iphdr, f.body⟩] else []

/-- The state without the datagram between `pre` and `post`. -/
def given (s : Reass) (pre : List ReassData) (r : ReassData) (post : List ReassData) : Reass :=
  { reassdatagrams := pre ++ post
    pbufcount := s.pbufcount - pbufsOf r.p
    pool := s.pool + 1
    freed := s.freed ++ r.p.map Frag.body
    exceeded := s.exceeded ++ exceededFor r }

lemma freeComplete_spec {s : Reass} {pre post : List ReassData} {r : ReassData}
    (h : ReassInv P { s with reassdatagrams := pre ++ r :: post }) :
    ipReassFreeCompleteDatagram s pre r post = .ok (given s pre r post, pbufsOf r.p) ∧
      ReassInv P (given s pre r post) := by
  obtain ⟨hcount, hbound, hpool, hkeyed, hentry⟩ := h
  simp only [pbufsWaiting_append, pbufsWaiting_cons, List.length_append, List.length_cons,
    ipReassMaxPbufs] at hcount hbound hpool
  obtain ⟨hr, hothers⟩ := forall_mem_middle.mp hentry
  constructor
  · obtain ⟨f, fs, hp⟩ := List.exists_cons_of_ne_nil hr.waiting
    have hfreed := countFreed_eq 0 r.p (by omega)
    rw [Nat.zero_add] at hfreed
    rw [ipReassFreeCompleteDatagram, hp]
    simp only
    rw [← hp, hfreed, ok_bind, reassAssert, if_pos (decide_eq_true (by omega)), ok_bind]
    rw [given, exceededFor, hp]
    by_cases h0 : f.start = 0
    · simp [h0]
    · simp [h0]
  · refine ⟨?_, ?_, ?_, (keyed_middle.mp hkeyed).1, hothers⟩
    · simp only [given, pbufsWaiting_append]
      omega
    · simp only [given, ipReassMaxPbufs]
      omega
    · simp only [given, List.length_append]
      omega

lemma ReassInv.replace {s : Reass} {pre post : List ReassData} {r r' : ReassData}
    (h : ReassInv P { s with reassdatagrams := pre ++ r :: post })
    (hp : pbufsOf r'.p = pbufsOf r.p) (hkey : r'.iphdr.key = r.iphdr.key) (hr' : Entry P r') :
    ReassInv P { s with reassdatagrams := pre ++ r' :: post } := by
  obtain ⟨hcount, hbound, hpool, hkeyed, hentry⟩ := h
  refine ⟨?_, hbound, ?_, ?_, forall_mem_middle.mpr ⟨hr', (forall_mem_middle.mp hentry).2⟩⟩
  · simpa [hp] using hcount
  · simpa using hpool
  · rw [keyed_middle, hkey, ← keyed_middle]
    exact hkeyed

/-! ## The timer -/

/-- An entry one call of the timer later. -/
def aged (r : ReassData) : ReassData := { r with timer := r.timer - 1 }

lemma tmrLoop_spec (rs : List ReassData) (s : Reass) (pre : List ReassData)
    (h : ReassInv P { s with reassdatagrams := pre ++ rs }) :
    ∃ s', tmrLoop s pre rs = .ok s' ∧ ReassInv P s' ∧
      s'.reassdatagrams = pre ++ (rs.filter fun r => 0 < r.timer).map aged := by
  induction rs generalizing s pre with
  | nil => exact ⟨_, rfl, by simpa using h, by simp⟩
  | cons r rs ih =>
    have hr := h.entry r (by simp)
    by_cases htimer : r.timer > 0
    · have haged : Entry P (aged r) := ⟨hr.waiting, hr.ordered, (Nat.sub_le _ _).trans hr.timer,
        hr.known⟩
      have hnext : ReassInv P { s with reassdatagrams := pre ++ aged r :: rs } :=
        h.replace rfl rfl haged
      obtain ⟨s', hs', hinv, hlist⟩ := ih s (pre ++ [aged r]) (by simpa using hnext)
      refine ⟨s', ?_, hinv, ?_⟩
      · rw [tmrLoop, if_pos htimer]
        exact hs'
      · rw [hlist]
        simp [List.filter_cons_of_pos, htimer]
    · obtain ⟨hfree, hgiven⟩ := freeComplete_spec h
      obtain ⟨s', hs', hinv, hlist⟩ := ih (given s pre r rs) pre hgiven
      refine ⟨s', ?_, hinv, ?_⟩
      · rw [tmrLoop, if_neg htimer, hfree]
        exact hs'
      · rw [hlist]
        simp [htimer]

/-! ## Making room -/

lemma older_cases (fraghdr : IpHdr)
    (oldest : Option (List ReassData × ReassData × List ReassData)) (pre : List ReassData)
    (r : ReassData) (rs : List ReassData) :
    (older fraghdr oldest pre r rs = oldest ∧ (oldest.isSome ∨ r.iphdr.key = fraghdr.key)) ∨
    (older fraghdr oldest pre r rs = some (pre, r, rs) ∧ r.iphdr.key ≠ fraghdr.key) := by
  by_cases hmatch : addressesAndIdMatch r.iphdr fraghdr = true
  · exact .inl ⟨if_pos hmatch, .inr ((match_iff _ _).mp hmatch)⟩
  have hkey : r.iphdr.key ≠ fraghdr.key := fun hkey => hmatch ((match_iff _ _).mpr hkey)
  rcases oldest with _ | ⟨a, o, b⟩
  · exact .inr ⟨if_neg hmatch, hkey⟩
  · by_cases htimer : r.timer ≤ o.timer
    · exact .inr ⟨(if_neg hmatch).trans (if_pos htimer), hkey⟩
    · exact .inl ⟨(if_neg hmatch).trans (if_neg htimer), .inl rfl⟩

/-- The oldest datagram is one of the entries, and not the one of the fragment. -/
lemma scanOldest_split {fraghdr : IpHdr} {l : List ReassData} (rs : List ReassData)
    (oldest : Option (List ReassData × ReassData × List ReassData)) (pre : List ReassData)
    (hl : l = pre ++ rs)
    (ho : ∀ x ∈ oldest, l = x.1 ++ x.2.1 :: x.2.2 ∧ x.2.1.iphdr.key ≠ fraghdr.key) :
    ∀ x ∈ scanOldest fraghdr oldest pre rs,
      l = x.1 ++ x.2.1 :: x.2.2 ∧ x.2.1.iphdr.key ≠ fraghdr.key := by
  induction rs generalizing oldest pre with
  | nil => exact ho
  | cons r rs ih =>
    apply ih _ (pre ++ [r]) (by simp [hl])
    intro x hx
    rcases older_cases fraghdr oldest pre r rs with ⟨h, -⟩ | ⟨h, hkey⟩
    · exact ho x (h ▸ hx)
    · rw [h] at hx
      cases hx
      exact ⟨hl, hkey⟩

/-- One is found if there are others. -/
lemma scanOldest_isSome {fraghdr : IpHdr} (rs : List ReassData)
    (oldest : Option (List ReassData × ReassData × List ReassData)) (pre : List ReassData)
    (h : oldest.isSome ∨ 0 < otherDatagrams fraghdr rs) :
    (scanOldest fraghdr oldest pre rs).isSome := by
  induction rs generalizing oldest pre with
  | nil => exact h.resolve_right (by simp [otherDatagrams])
  | cons r rs ih =>
    apply ih
    rcases older_cases fraghdr oldest pre r rs with ⟨hold, hsome | hkey⟩ | ⟨hold, -⟩
    · exact .inl (by rw [hold]; exact hsome)
    · rw [hold]
      simpa [otherDatagrams, (match_iff _ _).mpr hkey] using h
    · exact .inl (by rw [hold]; rfl)

/-- What `ip_reass_remove_oldest_datagram` leaves. -/
structure Removed (P : IpKey → Frag → Prop) (fraghdr : IpHdr) (s s' : Reass) : Prop where
  inv : ReassInv P s'
  sublist : s'.reassdatagrams.Sublist s.reassdatagrams
  kept : ∀ r ∈ s.reassdatagrams, r.iphdr.key = fraghdr.key → r ∈ s'.reassdatagrams

lemma Removed.refl {fraghdr : IpHdr} {s : Reass} (h : ReassInv P s) : Removed P fraghdr s s :=
  ⟨h, List.Sublist.refl _, fun _ hr _ => hr⟩

lemma Removed.trans {fraghdr : IpHdr} {s s' s'' : Reass} (h : Removed P fraghdr s s')
    (h' : Removed P fraghdr s' s'') : Removed P fraghdr s s'' :=
  ⟨h'.inv, h'.sublist.trans h.sublist, fun r hr hkey => h'.kept r (h.kept r hr hkey) hkey⟩

/-- One turn of the loop. -/
lemma removeOne {fraghdr : IpHdr} {s : Reass} (h : ReassInv P s)
    {x : List ReassData × ReassData × List ReassData}
    (hx : scanOldest fraghdr none [] s.reassdatagrams = some x) :
    ipReassFreeCompleteDatagram s x.1 x.2.1 x.2.2 =
        .ok (given s x.1 x.2.1 x.2.2, pbufsOf x.2.1.p) ∧
      Removed P fraghdr s (given s x.1 x.2.1 x.2.2) ∧
      (given s x.1 x.2.1 x.2.2).reassdatagrams.length < s.reassdatagrams.length := by
  obtain ⟨hsplit, hkey⟩ := scanOldest_split s.reassdatagrams none []
    (l := s.reassdatagrams) rfl (by simp) x hx
  have hs : ReassInv P { s with reassdatagrams := x.1 ++ x.2.1 :: x.2.2 } := by
    rw [← hsplit]
    exact h
  obtain ⟨hfree, hinv⟩ := freeComplete_spec hs
  refine ⟨hfree, ⟨hinv, ?_, fun r hr hrkey => ?_⟩, ?_⟩
  · rw [hsplit]
    exact (List.Sublist.refl _).append (List.sublist_cons_self _ _)
  · rw [hsplit] at hr
    have hne : r ≠ x.2.1 := fun he => hkey (he ▸ hrkey)
    have : r ∈ x.1 ++ x.2.2 := by simpa [hne] using hr
    exact this
  · rw [hsplit]
    simp [given]

lemma removeLoop_spec (fraghdr : IpHdr) (needed : ℕ) (fuel : ℕ) (s : Reass) (freed : ℕ)
    (h : ReassInv P s) (hfuel : s.reassdatagrams.length < fuel) :
    ∃ s' n, removeLoop fraghdr needed fuel s freed = .ok (s', n) ∧ Removed P fraghdr s s' := by
  induction fuel generalizing s freed with
  | zero => exact absurd hfuel (Nat.not_lt_zero _)
  | succ fuel ih =>
    rw [removeLoop]
    cases hx : scanOldest fraghdr none [] s.reassdatagrams with
    | none =>
      -- without other datagrams the loop ends
      have hothers : ¬ otherDatagrams fraghdr s.reassdatagrams > 1 := by
        intro hgt
        have := scanOldest_isSome s.reassdatagrams none [] (.inr (Nat.zero_lt_of_lt hgt))
        rw [hx] at this
        cases this
      refine ⟨s, freed, ?_, .refl h⟩
      rw [ok_bind]
      exact if_neg fun hc => hothers hc.2
    | some x =>
      obtain ⟨hfree, hremoved, hlen⟩ := removeOne h hx
      simp only
      rw [hfree, ok_bind, ok_bind]
      simp only
      split
      · obtain ⟨s', n, hs', hrest⟩ := ih _ _ hremoved.inv (by omega)
        exact ⟨s', n, hs', hremoved.trans hrest⟩
      · exact ⟨_, _, rfl, hremoved⟩

lemma removeOldest_spec {s : Reass} (h : ReassInv P s) (fraghdr : IpHdr) (needed : ℕ) :
    ∃ s' n, ipReassRemoveOldestDatagram s fraghdr needed = .ok (s', n) ∧ Removed P fraghdr s s' :=
  removeLoop_spec fraghdr needed _ s 0 h (Nat.lt_succ_self _)

lemma mayEnqueue_spec {s : Reass} (h : ReassInv P s) (p : Packet) :
    ∃ s' room, mayEnqueue s p = .ok (s', room) ∧ Removed P p.hdr s s' ∧
      (room = true → s'.pbufcount + p.body.clen ≤ ipReassMaxPbufs) := by
  rw [mayEnqueue]
  split
  · obtain ⟨s', n, hs', hremoved⟩ := removeOldest_spec h p.hdr p.body.clen
    refine ⟨s', _, by rw [hs']; rfl, hremoved, fun hroom => ?_⟩
    simpa using (Bool.and_eq_true_iff.mp hroom).2
  · next hle => exact ⟨s, true, rfl, .refl h, fun _ => by omega⟩

/-! ## A fragment and its datagram -/

@[simp] lemma updateEntry_p (ipr : ReassData) (h : IpHdr) : (updateEntry ipr h).p = ipr.p := by
  simp only [updateEntry]
  split <;> split <;> rfl

@[simp] lemma updateEntry_timer (ipr : ReassData) (h : IpHdr) :
    (updateEntry ipr h).timer = ipr.timer := by
  simp only [updateEntry]
  split <;> split <;> rfl

lemma updateEntry_lastFrag (ipr : ReassData) (h : IpHdr) :
    (updateEntry ipr h).lastFrag = (ipr.lastFrag || !h.mf) := by
  simp only [updateEntry]
  split <;> split <;> simp_all

lemma updateEntry_key {ipr : ReassData} {h : IpHdr} (hkey : ipr.iphdr.key = h.key) :
    (updateEntry ipr h).iphdr.key = h.key := by
  simp only [updateEntry]
  split <;> split <;> first | rfl | exact hkey

/-- The test of `ip4_input`: `IPH_OFFSET(iphdr) & PP_HTONS(IP_OFFMASK | IP_MF)`. -/
def isFragment (h : IpHdr) : Bool := h.offset &&& 0x3fff != 0

/-- A packet that is no last fragment at the same time as a first one. -/
lemma position_ne_zero {h : IpHdr} (hfrag : isFragment h = true) (hmf : h.mf = false) :
    h.position ≠ 0 := by
  intro hpos
  have hlow : h.offset &&& 0x1fff = 0 := by
    apply UInt16.toNat_inj.mp
    have : (h.offset &&& 0x1fff).toNat * 8 = 0 := hpos
    simpa using this
  have hbit : h.offset &&& 0x2000 = 0 := by simpa [IpHdr.mf] using hmf
  have hsplit : h.offset &&& 0x3fff = (h.offset &&& 0x1fff) ||| (h.offset &&& 0x2000) := by
    apply UInt16.toNat_inj.mp
    rw [UInt16.toNat_or, UInt16.toNat_and, UInt16.toNat_and, UInt16.toNat_and,
      ← Nat.and_or_distrib_left]
    rfl
  rw [hlow, hbit] at hsplit
  rw [isFragment, hsplit] at hfrag
  simp at hfrag

/-- The datagram that `p` has completed: it has the fragments `before`, then `p`, then `after`. -/
structure Assembled (P : IpKey → Frag → Prop) (p d : Packet)
    (before after : List Frag) : Prop where
  known : ∀ f ∈ before ++ after, P p.hdr.key f
  ordered : Ordered (before ++ fragOf p :: after)
  /-- Nothing in front of `p` reaches into it. -/
  low : ∀ f ∈ before, f.stop ≤ (fragOf p).start
  first : ((before ++ fragOf p :: after).headD (fragOf p)).start = 0
  joined : Joined (before ++ ending (fragOf p) after)
  joined_after : Joined (fragOf p :: after)
  bytes : d.body.bytes = (before ++ fragOf p :: after).flatMap fun f => f.body.bytes
  key : d.hdr.key = p.hdr.key
  len : d.hdr.len.toNat = ((after.getLastD (fragOf p)).stop + ipHlen) % 65536
  offset : d.hdr.offset = 0

lemma chainBodies_clen (f : Frag) (fs : List Frag) :
    (chainBodies f fs).clen = pbufsOf (f :: fs) := by
  have hmap : (fs.flatMap fun r => r.body.pbufs).length = pbufsOf fs := by
    rw [List.length_flatMap]
    rfl
  simp only [chainBodies, Body.clen, Body.pbufs, List.length_cons, List.length_append,
    pbufsOf_cons] at hmap ⊢
  omega

lemma chainBodies_bytes (f : Frag) (fs : List Frag) :
    (chainBodies f fs).bytes = (f :: fs).flatMap fun r => r.body.bytes := by
  simp only [chainBodies, Body.bytes, Body.pbufs, flat, List.flatMap_cons, List.flatMap_append,
    List.append_assoc, List.flatMap_assoc]

lemma wholeDatagram_cons {r : ReassData} {f : Frag} {fs : List Frag} (h : r.p = f :: fs) :
    wholeDatagram r =
      some ⟨IpHdr.withChksum { r.iphdr with
        len := UInt16.ofNat ((r.datagramLen + ipHlen) % 65536), offset := 0 } f.body.odd,
        chainBodies f fs⟩ := by
  simp only [wholeDatagram, h]

/-- The entry of the fragment, which may be new, and the others. -/
structure Opened (P : IpKey → Frag → Prop) (s : Reass) (pre : List ReassData)
    (ipr : ReassData) (post : List ReassData) (p : Packet) : Prop where
  count : s.pbufcount = pbufsWaiting (pre ++ ipr :: post)
  room : s.pbufcount + p.body.clen ≤ ipReassMaxPbufs
  pool : s.pool + (pre ++ ipr :: post).length = numReassdata
  keyed : Keyed (pre ++ ipr :: post)
  key : ipr.iphdr.key = p.hdr.key
  others : ∀ r ∈ pre ++ post, Entry P r
  ordered : Ordered ipr.p
  timer : ipr.timer ≤ ipReassMaxage
  known : ∀ f ∈ ipr.p, P p.hdr.key f
  fresh : ipr.p = [] → ipr.lastFrag = false

/-- The outcomes of `ip4_reass`. -/
inductive Reassembled (P : IpKey → Frag → Prop) (p : Packet) :
    Except ReassFault (Reass × Option Packet) → Prop
  | waits {s : Reass} (h : ReassInv P s) : Reassembled P p (.ok (s, none))
  | complete {s : Reass} {d : Packet} {before after : List Frag} (h : ReassInv P s)
      (hd : Assembled P p d before after) : Reassembled P p (.ok (s, some d))
  | wrongEnd : Reassembled P p (.error wrongEnd)

section Into

variable {s : Reass} {pre post : List ReassData} {ipr : ReassData} {p : Packet}

/-- The entry that is put back has one fragment more, or it has dropped the fragment. -/
lemma Opened.inv_put (h : Opened P s pre ipr post p) {r : ReassData} {n : ℕ}
    (hkey : r.iphdr.key = p.hdr.key) (hr : Entry P r)
    (hn : n + pbufsOf ipr.p = s.pbufcount + pbufsOf r.p) (hle : n ≤ ipReassMaxPbufs)
    (freed : List Body) :
    ReassInv P ⟨pre ++ r :: post, n, s.pool, freed, s.exceeded⟩ := by
  have hcount := h.count
  have hpool := h.pool
  simp only [pbufsWaiting_append, pbufsWaiting_cons, List.length_append, List.length_cons]
    at hcount hpool
  refine ⟨?_, hle, ?_, ?_, forall_mem_middle.mpr ⟨hr, h.others⟩⟩
  · simp only [pbufsWaiting_append, pbufsWaiting_cons]
    omega
  · simp only [List.length_append, List.length_cons]
    omega
  · have hkeyed := h.keyed
    rw [keyed_middle] at hkeyed ⊢
    rw [hkey, ← h.key]
    exact hkeyed

/-- The entry is gone. -/
lemma Opened.inv_remove (h : Opened P s pre ipr post p) {n : ℕ}
    (hn : n + pbufsOf ipr.p = s.pbufcount) :
    ReassInv P ⟨pre ++ post, n, s.pool + 1, s.freed, s.exceeded⟩ := by
  have hcount := h.count
  have hpool := h.pool
  have hroom := h.room
  simp only [pbufsWaiting_append, pbufsWaiting_cons, List.length_append, List.length_cons,
    ipReassMaxPbufs] at hcount hpool hroom
  refine ⟨?_, ?_, ?_, (keyed_middle.mp h.keyed).1, h.others⟩
  · simp only [pbufsWaiting_append]
    omega
  · simp only [ipReassMaxPbufs]
    omega
  · simp only [List.length_append]
    omega

/-- A datagram does not begin with its last fragment at position 0. -/
lemma Opened.first (h : Opened P s pre ipr post p) (hfrag : isFragment p.hdr = true) :
    (updateEntry ipr p.hdr).p = [] → (updateEntry ipr p.hdr).lastFrag = true →
      (fragOf p).start ≠ 0 := by
  intro hnil hlast
  rw [updateEntry_p] at hnil
  rw [updateEntry_lastFrag, h.fresh hnil, Bool.false_or] at hlast
  exact position_ne_zero hfrag (by simpa using hlast)

/-- What is in the queue when the fragment has been put into it. -/
lemma Opened.placed (h : Opened P s pre ipr post p) {before after : List Frag}
    (hat : PlacedAt (fragOf p) none (updateEntry ipr p.hdr).p before after) :
    Ordered (before ++ fragOf p :: after) ∧ (∀ f ∈ before ++ after, P p.hdr.key f) ∧
      pbufsOf (before ++ fragOf p :: after) = pbufsOf ipr.p + p.body.clen := by
  rw [updateEntry_p] at hat
  refine ⟨hat.ordered h.ordered, fun f hf => h.known f (hat.split ▸ hf), ?_⟩
  rw [hat.split, pbufsOf_append, pbufsOf_append, pbufsOf_cons]
  show _ + (p.body.clen + _) = _
  omega

/-- The entry with another queue. -/
lemma Opened.entry (h : Opened P s pre ipr post p) {q : List Frag} (hne : q ≠ [])
    (hord : Ordered q) (hknown : ∀ f ∈ q, P p.hdr.key f) :
    Entry P { updateEntry ipr p.hdr with p := q } := by
  refine ⟨hne, hord, ?_, ?_⟩
  · show (updateEntry ipr p.hdr).timer ≤ _
    rw [updateEntry_timer]
    exact h.timer
  · show ∀ f ∈ q, P (updateEntry ipr p.hdr).iphdr.key f
    rw [updateEntry_key h.key]
    exact hknown

lemma reassInto_spec (h : Opened P s pre ipr post p) (hp : P p.hdr.key (fragOf p))
    (hfrag : isFragment p.hdr = true) : Reassembled P p (reassInto s pre ipr post p) := by
  have hroom := h.room
  simp only [ipReassMaxPbufs] at hroom
  have hadd : (s.pbufcount + p.body.clen) % 65536 = s.pbufcount + p.body.clen :=
    Nat.mod_eq_of_lt (by omega)
  have hkey := updateEntry_key h.key
  rw [reassInto]
  simp only [hadd]
  generalize hc : chainFrag (updateEntry ipr p.hdr) (fragOf p) = c
  have hcases := hc ▸ chainFrag_cases (h.first hfrag)
  cases hcases with
  | dropped hover =>
    obtain ⟨f, hf, -⟩ := hover
    have hp : (updateEntry ipr p.hdr).p = ipr.p := updateEntry_p ipr p.hdr
    have hentry := h.entry (List.ne_nil_of_mem hf) (hp ▸ h.ordered) (hp ▸ h.known)
    refine .waits (h.inv_put hkey hentry ?_ ?_ _)
    · rw [hp]
      omega
    · simp only [ipReassMaxPbufs]
      omega
  | @waits before after hat hnc =>
    obtain ⟨hord, hknown, hpbufs⟩ := h.placed hat
    have hentry := h.entry (by simp) hord (forall_mem_middle.mpr ⟨hp, hknown⟩)
    refine .waits (h.inv_put (r := { updateEntry ipr p.hdr with p := before ++ fragOf p :: after })
      hkey hentry ?_ ?_ _)
    · show _ = _ + pbufsOf (before ++ fragOf p :: after)
      omega
    · simp only [ipReassMaxPbufs]
      omega
  | @complete before after hat hdone hend =>
    obtain ⟨hord, hknown, hpbufs⟩ := h.placed hat
    obtain ⟨f, fs, hp'⟩ := List.exists_cons_of_ne_nil
      (show before ++ fragOf p :: after ≠ [] by simp)
    have hclen := chainBodies_clen f fs
    rw [← hp', hpbufs] at hclen
    rw [ok_bind]
    simp only
    rw [wholeDatagram_cons hp']
    refine .complete (h.inv_remove ?_)
      ⟨hknown, hord, fun f hf => (hat.low f hf).2, hdone.first, hdone.joined, hdone.joined_after,
        ?_, hkey, ?_, rfl⟩
    · have hcount := h.count
      simp only [pbufsWaiting_append, pbufsWaiting_cons] at hcount
      simp only [hclen]
      omega
    · rw [chainBodies_bytes, ← hp']
    · show (UInt16.ofNat _).toNat = _
      rw [hend, UInt16.toNat_ofNat']
      exact Nat.mod_mod _ 65536
  | wrongEnd hat hdone hend => exact .wrongEnd

end Into

/-- `nullreturn` only frees the packet. -/
lemma ReassInv.nullReturn {s : Reass} (h : ReassInv P s) (p : Packet) :
    Reassembled P p (.ok (nullReturn s p)) :=
  .waits ⟨h.count, h.bound, h.pool, h.keyed, h.entry⟩

lemma pbufsWaiting_le {l l' : List ReassData} (h : l'.Sublist l) :
    pbufsWaiting l' ≤ pbufsWaiting l := by
  induction h with
  | slnil => exact le_rfl
  | cons r _ ih =>
    rw [pbufsWaiting_cons]
    omega
  | cons_cons r _ ih =>
    rw [pbufsWaiting_cons, pbufsWaiting_cons]
    omega

/-- A new entry is taken from the pool, if need be after others have been given up. -/
lemma enqueueNew_spec {s : Reass} (h : ReassInv P s) (fraghdr : IpHdr) (clen : ℕ) :
    ∃ s' room, ipReassEnqueueNewDatagram s fraghdr clen = .ok (s', room) ∧
      Removed P fraghdr s { s' with pool := s'.pool + if room then 1 else 0 } := by
  have htake : ∀ {t : Reass}, t.pool > 0 → Removed P fraghdr s t →
      Removed P fraghdr s { t with pool := t.pool - 1 + 1 } := by
    intro t hpool ht
    rwa [Nat.sub_add_cancel hpool]
  rw [ipReassEnqueueNewDatagram]
  by_cases hpool : s.pool > 0
  · rw [if_pos hpool]
    exact ⟨_, true, rfl, htake hpool (.refl h)⟩
  rw [if_neg hpool]
  obtain ⟨s', n, hs', hremoved⟩ := removeOldest_spec h fraghdr clen
  rw [hs', ok_bind]
  simp only
  by_cases hmore : n ≥ clen ∧ s'.pool > 0
  · rw [if_pos hmore]
    exact ⟨_, true, rfl, htake hmore.2 hremoved⟩
  · rw [if_neg hmore]
    exact ⟨s', false, rfl, hremoved⟩

/-- The entry that the search finds. -/
lemma opened_found {s : Reass} (h : ReassInv P s) {p : Packet} {pre post : List ReassData}
    {ipr : ReassData} (hroom : s.pbufcount + p.body.clen ≤ ipReassMaxPbufs)
    (hlist : s.reassdatagrams = pre ++ ipr :: post) (hkey : ipr.iphdr.key = p.hdr.key) :
    Opened P s pre ipr post p := by
  have hipr := h.entry ipr (by simp [hlist])
  refine ⟨hlist ▸ h.count, hroom, hlist ▸ h.pool, hlist ▸ h.keyed, hkey, fun r hr => ?_,
    hipr.ordered, hipr.timer, hkey ▸ hipr.known, fun hnil => absurd hnil hipr.waiting⟩
  apply h.entry r
  rw [hlist]
  exact ((List.Sublist.refl pre).append (List.sublist_cons_self ipr post)).subset hr

/-- The entry that is made for the first fragment of a datagram. -/
lemma opened_new {s s' : Reass} {p : Packet}
    (h : Removed P p.hdr s { s' with pool := s'.pool + 1 })
    (hcount : s.pbufcount = pbufsWaiting s.reassdatagrams)
    (hroom : s.pbufcount + p.body.clen ≤ ipReassMaxPbufs)
    (hnone : ∀ r ∈ s.reassdatagrams, r.iphdr.key ≠ p.hdr.key) :
    Opened P s' [] (newDatagram p.hdr) s'.reassdatagrams p := by
  have hcount' : s'.pbufcount = pbufsWaiting s'.reassdatagrams := h.inv.count
  have hpool : s'.pool + 1 + s'.reassdatagrams.length = numReassdata := h.inv.pool
  have hle := pbufsWaiting_le h.sublist
  refine ⟨?_, ?_, ?_, ?_, rfl, h.inv.entry, List.Pairwise.nil, le_rfl, by simp [newDatagram],
    fun _ => rfl⟩
  · simpa [newDatagram] using hcount'
  · simp only at hle
    omega
  · simp only [List.nil_append, List.length_cons]
    omega
  · exact keyed_middle.mpr ⟨h.inv.keyed, fun r hr => hnone r (h.sublist.subset hr)⟩

/-- The search for the entry of a fragment: the part of the list where it stops. -/
lemma search_cases (h : IpHdr) (l : List ReassData) :
    (∃ pre ipr post, l = pre ++ ipr :: post ∧ ipr.iphdr.key = h.key ∧
      (l.takeWhile fun r => !addressesAndIdMatch r.iphdr h) = pre ∧
      (l.dropWhile fun r => !addressesAndIdMatch r.iphdr h) = ipr :: post) ∨
    ((∀ r ∈ l, r.iphdr.key ≠ h.key) ∧
      (l.dropWhile fun r => !addressesAndIdMatch r.iphdr h) = []) := by
  cases hdrop : l.dropWhile fun r => !addressesAndIdMatch r.iphdr h with
  | cons ipr post =>
    have hsplit := List.takeWhile_append_dropWhile (l := l)
      (p := fun r => !addressesAndIdMatch r.iphdr h)
    have hhead := List.head?_dropWhile_not
      (fun r : ReassData => !addressesAndIdMatch r.iphdr h) l
    rw [hdrop] at hsplit hhead
    exact .inl ⟨_, ipr, post, hsplit.symm, (match_iff _ _).mp (by simpa using hhead), rfl, rfl⟩
  | nil =>
    refine .inr ⟨fun r hr hkey => ?_, rfl⟩
    have := List.dropWhile_eq_nil_iff.mp hdrop r hr
    rw [(match_iff _ _).mpr hkey] at this
    cases this

/-- `ip4_reass` in any state between two calls. -/
lemma ip4Reass_spec {s : Reass} (h : ReassInv P s) {p : Packet} (hp : P p.hdr.key (fragOf p))
    (hfrag : isFragment p.hdr = true) : Reassembled P p (ip4Reass s p) := by
  rw [ip4Reass]
  split
  · exact h.nullReturn p
  obtain ⟨s₁, room, hmay, hremoved, hroom⟩ := mayEnqueue_spec h p
  rw [hmay, ok_bind]
  simp only
  cases room with
  | false => exact hremoved.inv.nullReturn p
  | true =>
    rcases search_cases p.hdr s₁.reassdatagrams with
      ⟨pre, ipr, post, hlist, hkey, htake, hdrop⟩ | ⟨hnone, hdrop⟩
    · rw [htake, hdrop]
      exact reassInto_spec (opened_found hremoved.inv (hroom rfl) hlist hkey) hp hfrag
    · obtain ⟨s₂, room, hnew, hs₂⟩ := enqueueNew_spec hremoved.inv p.hdr p.body.clen
      rw [hdrop]
      show Reassembled P p (ipReassEnqueueNewDatagram s₁ p.hdr p.body.clen >>= _)
      rw [hnew, ok_bind]
      cases room with
      | false => exact ReassInv.nullReturn (s := s₂) hs₂.inv p
      | true =>
        exact reassInto_spec (opened_new hs₂ hremoved.inv.count (hroom rfl) hnone) hp hfrag

/-! ## Runs -/

/-- What happens: a fragment comes in, or the timer is called. -/
inductive ReassEvent where
  | input (p : Packet)
  | tmr
deriving DecidableEq, Repr

/-- The packet of an event. -/
def ReassEvent.packet? : ReassEvent → Option Packet
  | .input p => some p
  | .tmr => none

lemma isFragment_of_inputs {es : List ReassEvent}
    (h : ∀ p ∈ es.filterMap ReassEvent.packet?, isFragment p.hdr = true) :
    ∀ p, .input p ∈ es → isFragment p.hdr = true :=
  fun p hp => h p (List.mem_filterMap.mpr ⟨_, hp, rfl⟩)

/-- The state, and the datagrams that `ip4_reass` has returned so far. -/
structure Reassembly where
  reass : Reass
  delivered : List Packet
deriving DecidableEq, Repr

def reassStep (s : Reassembly) : ReassEvent → Except ReassFault Reassembly
  | .input p => (ip4Reass s.reass p).map fun r => ⟨r.1, s.delivered ++ r.2.toList⟩
  | .tmr => (ipReassTmr s.reass).map fun r => ⟨r, s.delivered⟩

def reassStart : Reassembly := ⟨noDatagrams, []⟩

/-- What is known of a fragment that waits: it came in, with the key of its entry. -/
def CameIn (es : List ReassEvent) (key : IpKey) (f : Frag) : Prop :=
  ∃ q, .input q ∈ es ∧ q.hdr.key = key ∧ f = fragOf q

/-- A datagram that was delivered has been put together from packets of the run. -/
def Delivered (es : List ReassEvent) (d : Packet) : Prop :=
  ∃ p before after, .input p ∈ es ∧ Assembled (CameIn es) p d before after

/-- One event of a run. -/
lemma reassStep_spec {es : List ReassEvent} {s : Reassembly} {e : ReassEvent}
    (h : ReassInv (CameIn es) s.reass) (he : e ∈ es)
    (hfrag : ∀ p, e = .input p → isFragment p.hdr = true) :
    (∃ s', reassStep s e = .ok s' ∧ ReassInv (CameIn es) s'.reass ∧
      ((∀ d ∈ s.delivered, Delivered es d) → ∀ d ∈ s'.delivered, Delivered es d)) ∨
    reassStep s e = .error wrongEnd := by
  cases e with
  | tmr =>
    obtain ⟨s', hs', hinv, -⟩ := tmrLoop_spec s.reass.reassdatagrams s.reass [] (by simpa using h)
    left
    refine ⟨⟨s', s.delivered⟩, ?_, hinv, fun hd => hd⟩
    rw [reassStep, ipReassTmr, hs']
    rfl
  | input p =>
    have hspec := ip4Reass_spec h (p := p) ⟨p, he, rfl, rfl⟩ (hfrag p rfl)
    rw [reassStep]
    generalize ip4Reass s.reass p = r at hspec ⊢
    cases hspec with
    | waits hinv => exact .inl ⟨_, rfl, hinv, by simp⟩
    | complete hinv hasm =>
      refine .inl ⟨_, rfl, hinv, fun hd d hmem => ?_⟩
      rcases List.mem_append.mp hmem with hmem | hmem
      · exact hd d hmem
      · cases List.mem_singleton.mp hmem
        exact ⟨p, _, _, he, hasm⟩
    | wrongEnd => exact .inr rfl

/-- A run keeps the invariant, or it ends with the one assertion that can fail. -/
lemma reass_run {es : List ReassEvent} (hfrag : ∀ p, .input p ∈ es → isFragment p.hdr = true)
    (l : List ReassEvent) (hl : ∀ e ∈ l, e ∈ es) (s : Reassembly)
    (h : ReassInv (CameIn es) s.reass) (hd : ∀ d ∈ s.delivered, Delivered es d) :
    (∃ s', exec reassStep s l = .ok s' ∧ ReassInv (CameIn es) s'.reass ∧
      ∀ d ∈ s'.delivered, Delivered es d) ∨ exec reassStep s l = .error wrongEnd := by
  induction l generalizing s with
  | nil => exact .inl ⟨s, rfl, h, hd⟩
  | cons e l ih =>
    have he := hl e List.mem_cons_self
    rcases reassStep_spec h he (fun p hp => hfrag p (hp ▸ he)) with ⟨s', hs', hinv, hd'⟩ | herr
    · rw [exec_cons_ok hs']
      exact ih (fun e he => hl e (List.mem_cons_of_mem _ he)) s' hinv (hd' hd)
    · exact .inr (exec_cons_error herr l)

lemma reass_from_start {es : List ReassEvent}
    (hfrag : ∀ p, .input p ∈ es → isFragment p.hdr = true) :
    (∃ s, exec reassStep reassStart es = .ok s ∧ ReassInv (CameIn es) s.reass ∧
      ∀ d ∈ s.delivered, Delivered es d) ∨ exec reassStep reassStart es = .error wrongEnd :=
  reass_run hfrag es (fun _ he => he) reassStart reassInv_noDatagrams (by simp [reassStart])

/-- A fragment with the given position and length, of the datagram 7 from 10.0.0.1 to 10.0.0.2. -/
def piece (field : UInt16) (len : ℕ) : Packet :=
  ⟨⟨0x45, 0, UInt16.ofNat (20 + len), 7, field, 64, 1, 0, 0x0100000a, 0x0200000a⟩,
    ⟨false, List.replicate len 1, []⟩⟩

/-- Three fragments, one of them behind the last one. -/
def behindLast : List ReassEvent :=
  [.input (piece 1 8), .input (piece 0x2002 8), .input (piece 0x2000 8)]

lemma exec_behindLast : exec reassStep reassStart behindLast = .error wrongEnd :=
  exec_of_fault (by decide +kernel)

/-- Whatever fragments come in, the pbufs that wait are counted exactly and are ten at most, no
entry of the pool is lost, no two entries have the same key, and every entry has at least one
fragment, in order of their positions.  No pointer is null, no loop goes on for ever, and of the
assertions only the one about the end of the datagram can fail; three fragments make it fail. -/
theorem reass_safe (es : List ReassEvent)
    (hfrag : ∀ p, .input p ∈ es → isFragment p.hdr = true) :
    ((∃ s, exec reassStep reassStart es = .ok s ∧ ReassInv (CameIn es) s.reass) ∨
      exec reassStep reassStart es = .error wrongEnd) ∧
    ∃ es', es'.length = 3 ∧ (∀ p, .input p ∈ es' → isFragment p.hdr = true) ∧
      exec reassStep reassStart es' = .error wrongEnd := by
  refine ⟨?_, behindLast, rfl, isFragment_of_inputs (by decide), exec_behindLast⟩
  rcases reass_from_start hfrag with ⟨s, hs, hinv, -⟩ | herr
  · exact .inl ⟨s, hs, hinv⟩
  · exact .inr herr

/-- The first fragment comes when the last one waits. -/
theorem reass_safe_twoPieces :
    (∃ s, exec reassStep reassStart [.input (piece 1 8), .tmr, .input (piece 0x2000 8)] = .ok s ∧
      ReassInv (CameIn [.input (piece 1 8), .tmr, .input (piece 0x2000 8)]) s.reass) ∨
    exec reassStep reassStart [.input (piece 1 8), .tmr, .input (piece 0x2000 8)] =
      .error wrongEnd :=
  (reass_safe _ (isFragment_of_inputs (by decide))).1

/-- The fragment at position 16 comes when those at 0 and at 24 wait, and the datagram of 52 bytes
is delivered without the bytes from 8 to 16. -/
def holed : List ReassEvent :=
  [.input (piece 0x2000 8), .input (piece 3 8), .input (piece 0x2002 8)]

end Lwip
end DeepForensics
