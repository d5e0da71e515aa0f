/-
# Datagrams on their way in fragments

`ip4_frag` cuts a datagram that is too large for the interface into fragments: each of them gets a
new header, and pbufs that refer to the data of the datagram.  The loops go through the chain of
pbufs only once, so what is left of it is part of their state.

If the interface carries a multiple of 8 bytes behind a header, as the one of the server does, and
every pbuf has at least 20 bytes, the fragments are those of one datagram; so `ip4_reass` puts it
together again, whatever else comes in between (`frag_reass`).  The two conditions are needed:
`last` is computed from the MTU, not from the size of the fragment, and the assertion about the
first pbuf is checked for the pbuf that the loop has come to.
-/
import DeepForensics.Lwip.Slots

namespace DeepForensics
namespace Lwip

open Runs

/-! ## `ip4_frag` -/

/-- How `ip4_frag` ends: it returns `ERR_OK` or `ERR_MEM`, or it does not return. -/
inductive FragEnd where
  | ok
  | errMem
  | assertion (text : String)
  | null
  | forever
deriving DecidableEq, Repr

/-- A packet that is handed to the interface: the header, and the pbufs that mirror the data. -/
structure OutPacket where
  hdr : IpHdr
  data : List (List UInt8)
deriving DecidableEq, Repr

/-- The variables after the inner loop: the pbufs of the fragment, `p` with the pbufs behind it,
`poff`, and the outcomes of the allocations that are to come. -/
structure Mirrored where
  pieces : List (List UInt8)
  p : List (List UInt8)
  poff : ℕ
  allocs : List Bool
deriving DecidableEq, Repr

/-- The loop `while (left_to_copy)`.  As `poff` is not behind the end of `p`, the length that is
left of `p` does not wrap around.  An allocation without an entry in `allocs` succeeds. -/
def mirror : List (List UInt8) → ℕ → ℕ → List Bool → Except FragEnd Mirrored
  | [], _, _, _ => .error .null
  | b :: rest, poff, leftToCopy, allocs =>
    if min leftToCopy (b.length - poff) = 0 then mirror rest 0 leftToCopy allocs
    else if allocs.headD true = false then .error .errMem
    else if leftToCopy ≤ b.length - poff then
      .ok ⟨[(b.drop poff).take leftToCopy], b :: rest, poff + leftToCopy, allocs.tail⟩
    else
      (mirror rest 0 (leftToCopy - (b.length - poff)) allocs.tail).map fun m =>
        { m with pieces := b.drop poff :: m.pieces }

/-- `nfb`. -/
def nfb (mtu : ℕ) : ℕ := (mtu - ipHlen) / 8

/-- The header of a fragment. -/
def fragHdr (h : IpHdr) (ofo fragsize : ℕ) (last : Bool) : IpHdr :=
  IpHdr.withChksum { h with
    offset := (0x1fff &&& UInt16.ofNat ofo) ||| if last then 0 else 0x2000
    len := UInt16.ofNat (fragsize + ipHlen) } false

/-- One turn of the loop `while (left)`. -/
def fragOne (h : IpHdr) (mtu : ℕ) (p : List (List UInt8)) (poff left ofo : ℕ)
    (allocs : List Bool) : Except FragEnd (OutPacket × Mirrored) :=
  if allocs.headD true = false then .error .errMem
  else match p with
  | [] => .error .null
  | b :: _ =>
    if b.length < ipHlen then .error (.assertion "this needs a pbuf in one piece!")
    else
      (if min left (nfb mtu * 8) = 0 then .ok ⟨[], p, poff, allocs.tail⟩
        else mirror p poff (min left (nfb mtu * 8)) allocs.tail).map fun m =>
      (⟨fragHdr h ofo (min left (nfb mtu * 8)) (left ≤ mtu - ipHlen), m.pieces⟩, m)

/-- The loop `while (left)`: the packets that are sent, and how it ends.  With an MTU below 28 it
goes on for ever. -/
def fragLoop (h : IpHdr) (mtu : ℕ) :
    ℕ → List (List UInt8) → ℕ → ℕ → ℕ → List Bool → List OutPacket × FragEnd
  | 0, _, _, left, _, _ => ([], if left = 0 then .ok else .forever)
  | fuel + 1, p, poff, left, ofo, allocs =>
    if left = 0 then ([], .ok)
    else match fragOne h mtu p poff left ofo allocs with
    | .error e => ([], e)
    | .ok (out, m) =>
      let r := fragLoop h mtu fuel m.p m.poff (left - min left (nfb mtu * 8))
        ((ofo + nfb mtu) % 65536) m.allocs
      (out :: r.1, r.2)

/-- `ip4_frag`, for an interface with an MTU of at least 20.  The first 20 bytes of the first pbuf
are the header `h`.  `LWIP_ERROR` stops the server, as `LWIP_ASSERT` does. -/
def ip4Frag (h : IpHdr) (totLen : ℕ) (p : List (List UInt8)) (mtu : ℕ) (allocs : List Bool) :
    List OutPacket × FragEnd :=
  if h.hlen ≠ ipHlen then ([], .assertion "ip4_frag() does not support IP options")
  else if h.mf then ([], .assertion "ip_frag(): MF already set")
  else
    fragLoop h mtu ((totLen + 65536 - ipHlen) % 65536) p ipHlen
      ((totLen + 65536 - ipHlen) % 65536) (h.offset &&& 0x1fff).toNat allocs

/-! ## The inner loop -/

lemma false_mem_of_headD {allocs : List Bool} (h : allocs.headD true = false) :
    false ∈ allocs := by
  cases allocs with
  | nil => cases h
  | cons a allocs =>
    cases h
    exact List.mem_cons_self

/-- What the inner loop does: it takes `n` bytes. -/
structure Mirrors (p : List (List UInt8)) (poff n : ℕ) (allocs : List Bool) (m : Mirrored) :
    Prop where
  pieces : m.pieces.flatten = (p.flatten.drop poff).take n
  rest : m.p.flatten.drop m.poff = p.flatten.drop (poff + n)
  inside : ∀ b ∈ m.p.head?, m.poff ≤ b.length
  suffix : m.p <:+ p
  ne_nil : m.p ≠ []
  allocs : m.allocs <:+ allocs

/-- The loop takes the rest of a pbuf, which may be empty, and goes on behind it. -/
lemma Mirrors.behind {b : List UInt8} {rest : List (List UInt8)} {poff n : ℕ}
    {allocs allocs' : List Bool} {m : Mirrored}
    (h : Mirrors rest 0 (n - (b.length - poff)) allocs' m) (hb : poff ≤ b.length)
    (hn : b.length - poff ≤ n) (hallocs : allocs' <:+ allocs) {ps : List (List UInt8)}
    (hps : ps.flatten = b.drop poff ++ m.pieces.flatten) :
    Mirrors (b :: rest) poff n allocs { m with pieces := ps } := by
  refine ⟨?_, ?_, h.inside, h.suffix.trans (List.suffix_cons _ _), h.ne_nil,
    h.allocs.trans hallocs⟩
  · have hall : (b.drop poff).take n = b.drop poff :=
      List.take_of_length_le (by rw [List.length_drop]; exact hn)
    rw [hps, h.pieces, List.drop_zero, List.flatten_cons, List.drop_append_of_le_length hb,
      List.take_append, hall, List.length_drop]
  · have hpast : b.drop (poff + n) = [] := List.drop_eq_nil_of_le (by omega)
    have hlen : poff + n - b.length = n - (b.length - poff) := by omega
    rw [List.flatten_cons, List.drop_append, hpast, List.nil_append, hlen, h.rest, Nat.zero_add]

lemma mirror_spec (p : List (List UInt8)) {poff n : ℕ} (allocs : List Bool) (hn : 0 < n)
    (hpoff : ∀ b ∈ p.head?, poff ≤ b.length) (hlen : poff + n ≤ p.flatten.length) :
    (∃ m, mirror p poff n allocs = .ok m ∧ Mirrors p poff n allocs m) ∨
      (mirror p poff n allocs = .error .errMem ∧ false ∈ allocs) := by
  induction p generalizing poff n allocs with
  | nil =>
    simp only [List.flatten_nil, List.length_nil] at hlen
    omega
  | cons b rest ih =>
    have hb : poff ≤ b.length := hpoff b rfl
    rw [List.flatten_cons, List.length_append] at hlen
    rw [mirror]
    by_cases hzero : min n (b.length - poff) = 0
    · -- this pbuf is already empty
      rw [if_pos hzero]
      have hempty : b.length - poff = 0 := by omega
      rcases ih allocs hn (fun _ _ => Nat.zero_le _) (by omega) with ⟨m, hm, hspec⟩ | herr
      · refine .inl ⟨m, hm, Mirrors.behind (by rwa [hempty]) hb (by omega) List.suffix_rfl ?_⟩
        rw [List.drop_eq_nil_of_le (by omega), List.nil_append]
      · exact .inr herr
    rw [if_neg hzero]
    have htail : allocs.tail <:+ allocs := List.tail_suffix _
    by_cases halloc : allocs.headD true = false
    · exact .inr ⟨if_pos halloc, false_mem_of_headD halloc⟩
    rw [if_neg halloc]
    by_cases hle : n ≤ b.length - poff
    · rw [if_pos hle]
      refine .inl ⟨_, rfl, ?_, rfl, ?_, List.suffix_rfl, List.cons_ne_nil _ _, htail⟩
      · rw [List.flatten_cons, List.flatten_cons, List.drop_append_of_le_length hb,
          List.take_append_of_le_length (by simpa using hle)]
        exact List.append_nil _
      · rintro c ⟨⟩
        show poff + n ≤ b.length
        omega
    · rw [if_neg hle]
      rcases ih (n := n - (b.length - poff)) allocs.tail (by omega) (fun _ _ => Nat.zero_le _)
        (by omega) with ⟨m, hm, hspec⟩ | ⟨herr, hmem⟩
      · rw [hm]
        exact .inl ⟨_, rfl, hspec.behind hb (by omega) htail List.flatten_cons⟩
      · rw [herr]
        exact .inr ⟨rfl, htail.subset hmem⟩

/-! ## The fragments -/

section Header

variable (h : IpHdr) {ofo size : ℕ} (last : Bool)

lemma position_fragHdr (hofo : ofo < 8192) : (fragHdr h ofo size last).position = ofo * 8 := by
  have hmask : (UInt16.ofNat ofo).toNat &&& 0x1fff = ofo := by
    rw [UInt16.toNat_ofNat']
    exact (Nat.and_two_pow_sub_one_eq_mod _ 13).trans (by omega)
  have hoff : ((0x1fff &&& UInt16.ofNat ofo ||| if last then 0 else 0x2000) &&& 0x1fff).toNat =
      ofo := by
    rw [UInt16.toNat_and, UInt16.toNat_or, UInt16.toNat_and, Nat.and_or_distrib_right]
    have h1 : (0x1fff : UInt16).toNat = 0x1fff := rfl
    rw [h1, Nat.and_comm 0x1fff, hmask, ← hmask, Nat.and_assoc, Nat.and_self]
    cases last <;> simp
  exact congrArg (· * 8) hoff

lemma mf_fragHdr : (fragHdr h ofo size last).mf = !last := by
  have hbit : (0x1fff &&& (UInt16.ofNat ofo).toNat) &&& 0x2000 = 0 := by
    rw [Nat.and_comm 0x1fff, Nat.and_assoc]
    exact Nat.and_zero _
  have hoff : ∀ flag : UInt16, ((0x1fff &&& UInt16.ofNat ofo ||| flag) &&& 0x2000).toNat =
      flag.toNat &&& 0x2000 := by
    intro flag
    rw [UInt16.toNat_and, UInt16.toNat_or, UInt16.toNat_and, Nat.and_or_distrib_right]
    exact (congrArg (· ||| _) hbit).trans (Nat.zero_or _)
  show ((0x1fff &&& UInt16.ofNat ofo ||| if last then 0 else 0x2000) &&& 0x2000 != 0) = !last
  cases last with
  | true =>
    have : (0x1fff &&& UInt16.ofNat ofo ||| 0) &&& 0x2000 = 0 := UInt16.toNat_inj.mp (hoff 0)
    simpa using this
  | false =>
    refine bne_iff_ne.mpr fun hzero => ?_
    have := hoff 0x2000
    rw [show ((0x1fff &&& UInt16.ofNat ofo ||| 0x2000) &&& 0x2000) = 0 from hzero] at this
    exact absurd this (by decide)

lemma isPiece_fragHdr (hlen : h.hlen = ipHlen) {q : Packet}
    (hq : q.hdr = fragHdr h ofo size last) (hsize : q.body.bytes.length = size)
    (hfit : ofo * 8 + size + ipHlen < 65536) : IsPiece h.key (ofo * 8) q := by
  refine ⟨?_, ?_, ?_, ?_⟩
  · rw [hq]
    rfl
  · rw [hq]
    exact hlen
  · rw [hq]
    exact position_fragHdr h last (by omega)
  · have hdata : (fragHdr h ofo size last).dataLen =
        ((UInt16.ofNat (size + ipHlen)).toNat + 65536 - h.hlen) % 65536 := rfl
    rw [hq, hdata, UInt16.toNat_ofNat', hlen, hsize]
    simp only [ipHlen] at hfit ⊢
    omega

end Header

/-- The packet `q` is what arrives of `o`: the pbufs need not be the same. -/
structure Carries (o : OutPacket) (q : Packet) : Prop where
  hdr : q.hdr = o.hdr
  bytes : q.body.bytes = o.data.flatten

/-- The packets `outs` are the fragments of the data from the position `a` on. -/
structure Cuts (h : IpHdr) (a : ℕ) (data : List UInt8) (outs : List OutPacket) : Prop where
  hdrs : ∀ o ∈ outs, ∃ ofo size last, o.hdr = fragHdr h ofo size last
  pieces : ∀ qs, List.Forall₂ Carries outs qs → Pieces h.key a qs ∧ dataOfPieces qs = data

section Loop

variable {h : IpHdr} {mtu : ℕ} {p : List (List UInt8)} {poff left ofo : ℕ}

lemma fragOne_spec (allocs : List Bool) (hmtu : 28 ≤ mtu) (hdvd : 8 ∣ mtu - ipHlen)
    (hleft : 0 < left) (hlen : poff + left = p.flatten.length)
    (hpoff : ∀ b ∈ p.head?, poff ≤ b.length) (hpbufs : ∀ b ∈ p, ipHlen ≤ b.length) :
    (∃ m, fragOne h mtu p poff left ofo allocs =
        .ok (⟨fragHdr h ofo (min left (mtu - ipHlen)) (left ≤ mtu - ipHlen), m.pieces⟩, m) ∧
      Mirrors p poff (min left (mtu - ipHlen)) allocs m) ∨
    (fragOne h mtu p poff left ofo allocs = .error .errMem ∧ false ∈ allocs) := by
  have hnfb : nfb mtu * 8 = mtu - ipHlen := Nat.div_mul_cancel hdvd
  rw [fragOne.eq_def]
  by_cases halloc : allocs.headD true = false
  · exact .inr ⟨if_pos halloc, false_mem_of_headD halloc⟩
  rw [if_neg halloc, hnfb]
  have hsize : min left (mtu - ipHlen) ≠ 0 := by
    simp only [ipHlen]
    omega
  have htail : allocs.tail <:+ allocs := List.tail_suffix _
  cases p with
  | nil =>
    simp only [List.flatten_nil, List.length_nil] at hlen
    omega
  | cons b rest =>
    have hb : ¬ b.length < ipHlen := Nat.not_lt.mpr (hpbufs b List.mem_cons_self)
    simp only
    rw [if_neg hb, if_neg hsize]
    rcases mirror_spec (b :: rest) allocs.tail (Nat.pos_of_ne_zero hsize) hpoff (by omega) with
      ⟨m, hm, hspec⟩ | ⟨herr, hmem⟩
    · rw [hm]
      exact .inl ⟨m, rfl, hspec.pieces, hspec.rest, hspec.inside, hspec.suffix, hspec.ne_nil,
        hspec.allocs.trans htail⟩
    · rw [herr]
      exact .inr ⟨rfl, htail.subset hmem⟩

lemma fragLoop_done (fuel : ℕ) (allocs : List Bool) :
    fragLoop h mtu fuel p poff 0 ofo allocs = ([], .ok) := by
  cases fuel <;> rfl

/-- The last fragment. -/
lemma cuts_last (hlen : h.hlen = ipHlen) {o : OutPacket} {data : List UInt8}
    (ho : o.hdr = fragHdr h ofo data.length true) (hdata : o.data.flatten = data)
    (hfit : ofo * 8 + data.length + ipHlen < 65536) : Cuts h (ofo * 8) data [o] := by
  constructor
  · intro o' ho'
    cases List.mem_singleton.mp ho'
    exact ⟨_, _, _, ho⟩
  · intro qs hqs
    obtain ⟨q, qs, hq, hnil, rfl⟩ := List.forall₂_cons_left_iff.mp hqs
    cases hnil
    have hbytes : q.body.bytes = data := hq.bytes.trans hdata
    have hhdr := hq.hdr.trans ho
    refine ⟨.last (isPiece_fragHdr h true hlen hhdr (by rw [hbytes]) hfit) ?_ ?_, ?_⟩
    · rw [hhdr, mf_fragHdr]
      rfl
    · rw [hbytes]
      exact hfit
    · simp [dataOfPieces, hbytes]

/-- A fragment in front of others. -/
lemma cuts_more (hlen : h.hlen = ipHlen) {o : OutPacket} {outs : List OutPacket} {n : ℕ}
    {front data : List UInt8} (ho : o.hdr = fragHdr h ofo n false)
    (hdata : o.data.flatten = front) (hn : front.length = n) (hpos : 0 < n)
    (hfit : ofo * 8 + n + ipHlen < 65536) (hrest : Cuts h (ofo * 8 + n) data outs) :
    Cuts h (ofo * 8) (front ++ data) (o :: outs) := by
  constructor
  · intro o' ho'
    rcases List.mem_cons.mp ho' with rfl | ho'
    · exact ⟨_, _, _, ho⟩
    · exact hrest.hdrs o' ho'
  · intro qs hqs
    obtain ⟨q, qs, hq, hbehind, rfl⟩ := List.forall₂_cons_left_iff.mp hqs
    obtain ⟨hpieces, hbytes'⟩ := hrest.pieces qs hbehind
    have hbytes : q.body.bytes = front := hq.bytes.trans hdata
    have hsize : q.body.bytes.length = n := by rw [hbytes, hn]
    have hhdr := hq.hdr.trans ho
    refine ⟨.more (isPiece_fragHdr h false hlen hhdr hsize hfit) ?_ ?_ ?_, ?_⟩
    · rw [hhdr, mf_fragHdr]
      rfl
    · rw [hsize]
      exact hpos
    · rw [hsize]
      exact hpieces
    · rw [dataOfPieces_cons, hbytes, hbytes']

/-- The loop sends fragments of all that is left, unless an allocation fails. -/
lemma fragLoop_spec (fuel : ℕ) (allocs : List Bool) (hhl : h.hlen = ipHlen) (hmtu : 28 ≤ mtu)
    (hdvd : 8 ∣ mtu - ipHlen) (hleft : 0 < left) (hfuel : left ≤ fuel)
    (hlen : poff + left = p.flatten.length) (hpoff : ∀ b ∈ p.head?, poff ≤ b.length)
    (hpbufs : ∀ b ∈ p, ipHlen ≤ b.length) (hfit : ofo * 8 + left + ipHlen < 65536) :
    ((fragLoop h mtu fuel p poff left ofo allocs).2 = .ok ∧
      Cuts h (ofo * 8) (p.flatten.drop poff) (fragLoop h mtu fuel p poff left ofo allocs).1) ∨
    ((fragLoop h mtu fuel p poff left ofo allocs).2 = .errMem ∧ false ∈ allocs) := by
  induction fuel generalizing p poff left ofo allocs with
  | zero => omega
  | succ fuel ih =>
    have hnfb : nfb mtu * 8 = mtu - ipHlen := Nat.div_mul_cancel hdvd
    rw [fragLoop, if_neg (by omega)]
    rcases fragOne_spec (h := h) allocs hmtu hdvd hleft hlen hpoff hpbufs with
      ⟨m, hm, hspec⟩ | ⟨herr, hmem⟩
    swap
    · rw [herr]
      exact .inr ⟨rfl, hmem⟩
    rw [hm]
    simp only [hnfb]
    have hpiece := hspec.pieces
    have hsize : (p.flatten.drop poff).length = left := by
      rw [List.length_drop]
      omega
    by_cases hlast : left ≤ mtu - ipHlen
    · rw [Nat.min_eq_left hlast] at hpiece ⊢
      rw [Nat.sub_self, fragLoop_done]
      rw [List.take_of_length_le hsize.le] at hpiece
      refine .inl ⟨rfl, cuts_last hhl ?_ hpiece (by omega)⟩
      rw [hsize, decide_eq_true hlast]
    · have hmin : min left (mtu - ipHlen) = mtu - ipHlen := Nat.min_eq_right (by omega)
      rw [hmin] at hpiece hspec ⊢
      have hofo : (ofo + nfb mtu) % 65536 = ofo + nfb mtu := Nat.mod_eq_of_lt (by omega)
      have hfront : ((p.flatten.drop poff).take (mtu - ipHlen)).length = mtu - ipHlen := by
        rw [List.length_take]
        omega
      have hrest := congrArg List.length hspec.rest
      rw [List.length_drop, List.length_drop] at hrest
      rw [hofo]
      rcases @ih m.p m.poff (left - (mtu - ipHlen)) (ofo + nfb mtu) m.allocs (by omega)
        (by simp only [ipHlen]; omega) (by omega) hspec.inside
        (fun b hb => hpbufs b (hspec.suffix.subset hb)) (by omega) with
        ⟨hok, hcuts⟩ | ⟨hmem, hfalse⟩
      · refine .inl ⟨hok, ?_⟩
        have hsplit : p.flatten.drop poff =
            (p.flatten.drop poff).take (mtu - ipHlen) ++ m.p.flatten.drop m.poff := by
          rw [hspec.rest, ← List.drop_drop, List.take_append_drop]
        rw [Nat.add_mul, hnfb] at hcuts
        rw [hsplit]
        refine cuts_more hhl ?_ hpiece hfront ?_ (by omega) hcuts
        · rw [decide_eq_false hlast]
        · simp only [ipHlen]
          omega
      · exact .inr ⟨hmem, hspec.allocs.subset hfalse⟩

end Loop

/-- A datagram is sent in fragments unless an allocation fails. -/
lemma ip4Frag_spec {h : IpHdr} {p : List (List UInt8)} {mtu : ℕ} (allocs : List Bool)
    (hhl : h.hlen = ipHlen) (hoff : h.offset &&& 0x3fff = 0) (hmtu : 28 ≤ mtu)
    (hdvd : 8 ∣ mtu - ipHlen) (hpbufs : ∀ b ∈ p, ipHlen ≤ b.length)
    (hdata : ipHlen < p.flatten.length) (hfit : p.flatten.length < 65536) :
    ((ip4Frag h p.flatten.length p mtu allocs).2 = .ok ∧
      Cuts h 0 (p.flatten.drop ipHlen) (ip4Frag h p.flatten.length p mtu allocs).1) ∨
    ((ip4Frag h p.flatten.length p mtu allocs).2 = .errMem ∧ false ∈ allocs) := by
  have hmask : ∀ m : UInt16, 0x3fff &&& m = m → h.offset &&& m = 0 := by
    intro m hm
    rw [← hm, ← UInt16.and_assoc, hoff, UInt16.zero_and]
  have hmf : ¬ h.mf = true := by
    rw [IpHdr.mf, hmask 0x2000 (by decide)]
    decide
  have hofo : (h.offset &&& 0x1fff).toNat = 0 := by
    rw [hmask 0x1fff (by decide)]
    rfl
  have hleft : (p.flatten.length + 65536 - ipHlen) % 65536 = p.flatten.length - ipHlen := by
    simp only [ipHlen] at hdata ⊢
    omega
  rw [ip4Frag, if_neg (not_not.mpr hhl), if_neg hmf, hleft, hofo]
  have hpoff : ∀ b ∈ p.head?, ipHlen ≤ b.length := fun b hb =>
    hpbufs b (List.mem_of_mem_head? hb)
  have hloop := @fragLoop_spec h mtu p ipHlen (p.flatten.length - ipHlen) 0
    (p.flatten.length - ipHlen) allocs hhl hmtu hdvd (by omega) le_rfl (by omega) hpoff hpbufs
    (by omega)
  rwa [Nat.zero_mul] at hloop

/-- What `ip4_frag` sends, `ip4_reass` puts together again: if the fragments of a datagram arrive,
once each, in an order that ends with the first or with the last of them, and with anything of other
datagrams between them for which there is room, the datagram is delivered once, with its own header
and data, unless a fragment of another datagram makes an assertion fail.  All fragments are sent
unless an allocation fails. -/
theorem frag_reass {h : IpHdr} {p : List (List UInt8)} {mtu : ℕ} (allocs : List Bool)
    (hhl : h.hlen = ipHlen) (hoff : h.offset &&& 0x3fff = 0) (hmtu : 28 ≤ mtu)
    (hdvd : 8 ∣ mtu - ipHlen) (hpbufs : ∀ b ∈ p, ipHlen ≤ b.length)
    (hdata : ipHlen < p.flatten.length) (hfit : p.flatten.length < 65536) :
    ((ip4Frag h p.flatten.length p mtu allocs).2 = .errMem ∧ false ∈ allocs) ∨
    ((ip4Frag h p.flatten.length p mtu allocs).2 = .ok ∧
      ∀ (qs : List Packet) (es₀ es₁ : List ReassEvent),
        List.Forall₂ Carries (ip4Frag h p.flatten.length p mtu allocs).1 qs →
        (∀ q, .input q ∈ es₀ ++ es₁ → isFragment q.hdr = true) →
        Along reassStep Roomy reassStart (es₀ ++ es₁) →
        inputsOf h.key es₀ = [] → (inputsOf h.key es₁).Perm qs →
        (∀ z ∈ (inputsOf h.key es₁).getLast?, z.hdr.mf = false ∨ z.hdr.position = 0) →
        es₁.count .tmr ≤ ipReassMaxage →
        (∃ s d odd, exec reassStep reassStart (es₀ ++ es₁) = .ok s ∧
          s.delivered.filter (fun d => d.hdr.key == h.key) = [d] ∧
          d.hdr = IpHdr.withChksum
            { h with len := UInt16.ofNat p.flatten.length, offset := 0 } odd ∧
          d.body.bytes = p.flatten.drop ipHlen) ∨
        ∃ k', k' ≠ h.key ∧ StoppedBy k' (es₀ ++ es₁)) := by
  rcases ip4Frag_spec allocs hhl hoff hmtu hdvd hpbufs hdata hfit with ⟨hok, hcuts⟩ | herr
  swap
  · exact .inl herr
  refine .inr ⟨hok, fun qs es₀ es₁ hqs hfrag hroom hbefore hperm hend htmr => ?_⟩
  obtain ⟨hpieces, hbytes⟩ := hcuts.pieces qs hqs
  obtain ⟨f, fs, rfl, -⟩ := hpieces.first
  obtain ⟨o, outs, ho, -, houts⟩ := List.forall₂_cons_right_iff.mp hqs
  obtain ⟨ofo, size, last, hhdr⟩ := hcuts.hdrs o (by rw [houts]; exact List.mem_cons_self)
  have hslot := exec_slot_pieces hpieces hfrag hbefore hperm hend htmr
  rcases slotOf_or_stopped hfrag hroom hslot with ⟨s, hs, hshow⟩ | hstop
  swap
  · exact .inr hstop
  refine .inl ⟨s, datagramOf f fs, f.body.odd, hs, congrArg Slot.delivered hshow, ?_,
    (datagramOf_bytes f fs).trans hbytes⟩
  have hlen : (dataOfPieces (f :: fs)).length + ipHlen = p.flatten.length := by
    rw [hbytes, List.length_drop]
    omega
  rw [datagramOf, hlen, ho.hdr, hhdr]
  rfl

/-- A packet as it arrives, in one pbuf. -/
def arrived (o : OutPacket) : Packet := ⟨o.hdr, ⟨false, o.data.flatten, []⟩⟩

lemma carries_arrived (outs : List OutPacket) : List.Forall₂ Carries outs (outs.map arrived) := by
  rw [List.forall₂_map_right_iff, List.forall₂_same]
  exact fun o _ => ⟨rfl, List.append_nil _⟩

/-- A datagram of 44 bytes in two pbufs. -/
def twoPbufs : List (List UInt8) := [List.replicate 24 1, List.replicate 20 2]

/-- Its three fragments, for an MTU of 28. -/
def threeParts : List Packet :=
  (ip4Frag (piece 0 24).hdr twoPbufs.flatten.length twoPbufs 28 []).1.map arrived

theorem frag_reass_threeParts :
    ∃ s d odd, exec reassStep reassStart ([] ++ threeParts.reverse.map .input) = .ok s ∧
      s.delivered.filter (fun d => d.hdr.key == (piece 0 24).hdr.key) = [d] ∧
      d.hdr = IpHdr.withChksum { (piece 0 24).hdr with
        len := UInt16.ofNat twoPbufs.flatten.length, offset := 0 } odd ∧
      d.body.bytes = twoPbufs.flatten.drop ipHlen := by
  have hrun : view (fun s : Reassembly => s.delivered.length) reassStep reassStart
      ([] ++ threeParts.reverse.map .input) = some 1 := by decide +kernel
  obtain ⟨t, ht, -⟩ := exec_of_view hrun
  have hown : inputsOf (piece 0 24).hdr.key (threeParts.reverse.map .input) =
      threeParts.reverse := by decide +kernel
  rcases frag_reass (h := (piece 0 24).hdr) (p := twoPbufs) [] (by decide) (by decide)
    (show 28 ≤ 28 from le_rfl) (by decide) (by decide) (by decide) (by decide) with
    ⟨-, hfalse⟩ | ⟨-, hall⟩
  · cases hfalse
  · rcases hall threeParts [] (threeParts.reverse.map .input) (carries_arrived _)
      (isFragment_of_inputs (by decide +kernel)) (by decide +kernel) rfl
      (by rw [hown]; exact List.reverse_perm _) (by decide +kernel) (by decide +kernel) with
      hdel | ⟨k', -, hstop⟩
    · exact hdel
    · exact absurd ht (hstop.not_ok t)

-- an MTU of 30: two fragments claim to be the last one
example : ((ip4Frag (piece 0 9).hdr 29 [List.replicate 29 1] 30 []).1.map fun o =>
    (o.hdr.position, o.hdr.mf)) = [(0, false), (8, false)] := by
  decide +kernel

-- a second pbuf with less than 20 bytes: the server is stopped by the assertion
example : (ip4Frag (piece 0 24).hdr 44 [List.replicate 28 1, List.replicate 16 2] 28 []).2 =
    .assertion "this needs a pbuf in one piece!" := by
  decide +kernel

end Lwip
end DeepForensics
