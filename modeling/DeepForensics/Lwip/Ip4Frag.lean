/-
# Fragments of IP datagrams

`ip4_frag.c` with the configuration of the server: at most ten pbufs are kept for reassembly, at
most five datagrams at a time, and a datagram that is not complete is given up by the fourth call
of the timer.

A packet is a chain of pbufs with an IP header of 20 bytes at the start of the first one.  While a
fragment waits, its header is overwritten by a `struct ip_reass_helper`, which links the fragments
of a datagram and has the first and the last position of each; here the waiting fragments are a list
and the header is gone.  Positions and lengths are 16-bit numbers and wrap around.

The freed pbufs and the calls of `icmp_time_exceeded` are logged, which the source does not do.
-/
import DeepForensics.Lwip.Chksum

namespace DeepForensics
namespace Lwip

/-! ## Packets -/

/-- `struct ip_hdr`.  The length, the identification and the offset field are the values in host
byte order; the checksum and the addresses are as they are loaded from memory. -/
structure IpHdr where
  vHl : UInt8
  tos : UInt8
  len : UInt16
  id : UInt16
  offset : UInt16
  ttl : UInt8
  proto : UInt8
  chksum : UInt16
  src : UInt32
  dest : UInt32
deriving DecidableEq, Repr

namespace IpHdr

/-- `IPH_V`. -/
def v (h : IpHdr) : ℕ := (h.vHl >>> 4).toNat

/-- `IPH_HL`, in bytes. -/
def hlen (h : IpHdr) : ℕ := (h.vHl &&& 0x0f).toNat * 4

/-- `(lwip_ntohs(IPH_OFFSET(hdr)) & IP_OFFMASK) * 8`. -/
def position (h : IpHdr) : ℕ := (h.offset &&& 0x1fff).toNat * 8

/-- `IP_MF` is set. -/
def mf (h : IpHdr) : Bool := h.offset &&& 0x2000 != 0

/-- `lwip_ntohs(IPH_LEN(hdr)) - IPH_HL(hdr) * 4`, in a `u16_t`. -/
def dataLen (h : IpHdr) : ℕ := (h.len.toNat + 65536 - h.hlen) % 65536

/-- The header in memory. -/
def bytes (h : IpHdr) : List UInt8 :=
  [h.vHl, h.tos] ++ fieldBytes (lwipHtons h.len) ++ fieldBytes (lwipHtons h.id) ++
    fieldBytes (lwipHtons h.offset) ++ [h.ttl, h.proto] ++ fieldBytes h.chksum ++
    addrBytes h.src ++ addrBytes h.dest

/-- `IPH_CHKSUM_SET` with the checksum of a header in memory, odd address or not. -/
def withChksum (h : IpHdr) (odd : Bool) : IpHdr :=
  let h := { h with chksum := 0 }
  { h with chksum := inetChksum ⟨odd, h.bytes⟩ }

end IpHdr

/-- `IP_HLEN`. -/
def ipHlen : ℕ := 20

/-- `IP_ADDRESSES_AND_ID_MATCH`. -/
def addressesAndIdMatch (a b : IpHdr) : Bool :=
  a.src == b.src && a.dest == b.dest && a.id == b.id

/-- What follows the IP header: the rest of the first pbuf, and the other pbufs. -/
structure Body where
  odd : Bool
  data : List UInt8
  next : List Payload
deriving DecidableEq, Repr

namespace Body

/-- The pbufs with the header hidden. -/
def pbufs (b : Body) : List Payload := ⟨b.odd, b.data⟩ :: b.next

/-- `pbuf_clen`. -/
def clen (b : Body) : ℕ := b.pbufs.length

def bytes (b : Body) : List UInt8 := flat b.pbufs

end Body

structure Packet where
  hdr : IpHdr
  body : Body
deriving DecidableEq, Repr

/-! ## Reassembly -/

/-- A fragment that waits: `struct ip_reass_helper` in the place of the header. -/
structure Frag where
  start : ℕ
  stop : ℕ
  body : Body
deriving DecidableEq, Repr

/-- The helper for a packet. -/
def fragOf (p : Packet) : Frag :=
  ⟨p.hdr.position, (p.hdr.position + p.hdr.dataLen) % 65536, p.body⟩

/-- `struct ip_reassdata`; `p` has the pbufs linked by `next_pbuf`. -/
structure ReassData where
  p : List Frag
  iphdr : IpHdr
  datagramLen : ℕ
  lastFrag : Bool
  timer : ℕ
deriving DecidableEq, Repr

inductive ReassFault where
  /-- `LWIP_ASSERT`. -/
  | assertion (text : String)
  /-- `ipr->p->payload`, where `ipr->p` is null. -/
  | nullPointer
  /-- The loop of `ip_reass_remove_oldest_datagram` has not ended. -/
  | endless
deriving DecidableEq, Repr

def reassAssert (text : String) (c : Bool) : Except ReassFault Unit :=
  if c then .ok () else .error (.assertion text)

structure Reass where
  reassdatagrams : List ReassData
  /-- `ip_reass_pbufcount`. -/
  pbufcount : ℕ
  /-- The elements left in the pool `MEMP_REASSDATA`. -/
  pool : ℕ
  freed : List Body
  exceeded : List Packet
deriving DecidableEq, Repr

/-- `IP_REASS_MAX_PBUFS`. -/
def ipReassMaxPbufs : ℕ := 10

/-- `IP_REASS_MAXAGE`. -/
def ipReassMaxage : ℕ := 3

/-- `MEMP_NUM_REASSDATA`. -/
def numReassdata : ℕ := 5

/-- The state at the start. -/
def noDatagrams : Reass := ⟨[], 0, numReassdata, [], []⟩

/-- The pbufs of the fragments are counted and freed one fragment after the other. -/
def countFreed : ℕ → List Frag → Except ReassFault ℕ
  | pbufsFreed, [] => .ok pbufsFreed
  | pbufsFreed, f :: fs => do
    reassAssert "pbufs_freed + clen <= 0xffff" (pbufsFreed + f.body.clen ≤ 0xffff)
    countFreed (pbufsFreed + f.body.clen) fs

/-- `ip_reass_free_complete_datagram`, for the datagram between `pre` and `post`.  The result has
the number of pbufs freed. -/
def ipReassFreeCompleteDatagram (s : Reass) (pre : List ReassData) (ipr : ReassData)
    (post : List ReassData) : Except ReassFault (Reass × ℕ) :=
  match ipr.p with
  | [] => .error .nullPointer
  | f :: fs => do
    -- the first fragment was received: the sender is told
    let exceeded := if f.start == 0 then s.exceeded ++ [⟨ipr.iphdr, f.body⟩] else s.exceeded
    let pbufsFreed ← countFreed 0 (f :: fs)
    reassAssert "ip_reass_pbufcount >= clen" (pbufsFreed ≤ s.pbufcount)
    .ok ({ s with
      reassdatagrams := pre ++ post
      pool := s.pool + 1
      pbufcount := s.pbufcount - pbufsFreed
      freed := s.freed ++ (f :: fs).map Frag.body
      exceeded := exceeded }, pbufsFreed)

/-- The loop of `ip_reass_tmr`: `pre` are the datagrams that it has passed. -/
def tmrLoop (s : Reass) (pre : List ReassData) : List ReassData → Except ReassFault Reass
  | [] => .ok { s with reassdatagrams := pre }
  | r :: rs =>
    if r.timer > 0 then tmrLoop s (pre ++ [{ r with timer := r.timer - 1 }]) rs
    else do
      let (s, _) ← ipReassFreeCompleteDatagram s pre r rs
      tmrLoop s pre rs

def ipReassTmr (s : Reass) : Except ReassFault Reass := tmrLoop s [] s.reassdatagrams

/-- The oldest datagram so far that `fraghdr` does not belong to, when the scan is at `r` between
`pre` and `rs`.  It is kept with the datagrams before and after it; among those with the lowest
timer it is the last one. -/
def older (fraghdr : IpHdr) (oldest : Option (List ReassData × ReassData × List ReassData))
    (pre : List ReassData) (r : ReassData) (rs : List ReassData) :
    Option (List ReassData × ReassData × List ReassData) :=
  if addressesAndIdMatch r.iphdr fraghdr then oldest
  else match oldest with
    | none => some (pre, r, rs)
    | some (_, o, _) => if r.timer ≤ o.timer then some (pre, r, rs) else oldest

/-- The scan for the oldest datagram. -/
def scanOldest (fraghdr : IpHdr) (oldest : Option (List ReassData × ReassData × List ReassData))
    (pre : List ReassData) : List ReassData → Option (List ReassData × ReassData × List ReassData)
  | [] => oldest
  | r :: rs => scanOldest fraghdr (older fraghdr oldest pre r rs) (pre ++ [r]) rs

/-- `other_datagrams`. -/
def otherDatagrams (fraghdr : IpHdr) (l : List ReassData) : ℕ :=
  l.countP fun r => !addressesAndIdMatch r.iphdr fraghdr

/-- The loop of `ip_reass_remove_oldest_datagram`. -/
def removeLoop (fraghdr : IpHdr) (pbufsNeeded : ℕ) :
    ℕ → Reass → ℕ → Except ReassFault (Reass × ℕ)
  | 0, _, _ => .error .endless
  | fuel + 1, s, pbufsFreed => do
    let others := otherDatagrams fraghdr s.reassdatagrams
    let (s, pbufsFreed) ← match scanOldest fraghdr none [] s.reassdatagrams with
      | none => .ok (s, pbufsFreed)
      | some (pre, oldest, post) => do
        let (s, current) ← ipReassFreeCompleteDatagram s pre oldest post
        .ok (s, pbufsFreed + current)
    if pbufsFreed < pbufsNeeded ∧ others > 1 then
      removeLoop fraghdr pbufsNeeded fuel s pbufsFreed
    else .ok (s, pbufsFreed)

def ipReassRemoveOldestDatagram (s : Reass) (fraghdr : IpHdr) (pbufsNeeded : ℕ) :
    Except ReassFault (Reass × ℕ) :=
  removeLoop fraghdr pbufsNeeded (s.reassdatagrams.length + 1) s 0

/-- The entry that `ip_reass_enqueue_new_datagram` fills in. -/
def newDatagram (fraghdr : IpHdr) : ReassData := ⟨[], fraghdr, 0, false, ipReassMaxage⟩

/-- `ip_reass_enqueue_new_datagram`: whether there is an element for the new datagram, which then is
taken from the pool. -/
def ipReassEnqueueNewDatagram (s : Reass) (fraghdr : IpHdr) (clen : ℕ) :
    Except ReassFault (Reass × Bool) :=
  if s.pool > 0 then .ok ({ s with pool := s.pool - 1 }, true)
  else do
    let (s, pbufsFreed) ← ipReassRemoveOldestDatagram s fraghdr clen
    if pbufsFreed ≥ clen ∧ s.pool > 0 then .ok ({ s with pool := s.pool - 1 }, true)
    else .ok (s, false)

/-- Where the new fragment goes: it is dropped, or it stands between `before` and `after`.  `valid`
says that no hole has been found so far. -/
inductive Place where
  | freepbuf
  | chained (valid : Bool) (before after : List Frag)
deriving DecidableEq, Repr

/-- The loop has passed the fragment `tmp`. -/
def Place.behind (tmp : Frag) : Place → Place
  | .freepbuf => .freepbuf
  | .chained valid before after => .chained valid (tmp :: before) after

/-- The loop over the queue in `ip_reass_chain_frag_into_datagram_and_validate`, and what follows at
the end of the queue. -/
def findPlace (new : Frag) (prev : Option Frag) (valid : Bool) :
    List Frag → Except ReassFault Place
  | [] =>
    match prev with
    | none => .ok (.chained valid [] [])
    | some prev => do
      reassAssert "check fragments don't overlap" (prev.stop ≤ new.start)
      .ok (.chained (valid && prev.stop == new.start) [] [])
  | tmp :: rest =>
    if new.start < tmp.start then
      match prev with
      | none => .ok (.chained valid [] (tmp :: rest))
      | some prev =>
        -- overlaps with the previous or the following one
        if new.start < prev.stop ∨ new.stop > tmp.start then .ok .freepbuf
        else .ok (.chained valid [] (tmp :: rest))
    else if new.start = tmp.start then .ok .freepbuf
    else if new.start < tmp.stop then .ok .freepbuf
    else
      let valid := valid && prev.all fun prev => prev.stop == tmp.start
      (findPlace new (some tmp) valid rest).map (.behind tmp)

/-- The loop that looks for holes after the new fragment. -/
def noHoles (prev : Frag) : List Frag → Bool
  | [] => true
  | f :: fs => prev.stop == f.start && noHoles f fs

/-- `ip_reass_chain_frag_into_datagram_and_validate`: `none` if the fragment is dropped, and whether
the datagram is complete. -/
def chainFrag (ipr : ReassData) (new : Frag) : Except ReassFault (Option (ReassData × Bool)) := do
  match ← findPlace new none true ipr.p with
  | .freepbuf => .ok none
  | .chained valid before after =>
    let ipr := { ipr with p := before ++ new :: after }
    if !ipr.lastFrag || !valid then .ok (some (ipr, false))
    else if (ipr.p.headD new).start ≠ 0 then .ok (some (ipr, false))
    else if !noHoles new after then .ok (some (ipr, false))
    else
      let last := after.getLastD new
      reassAssert "sanity check" (!(before.isEmpty && after.isEmpty))
      reassAssert "validate_datagram:datagram end!=datagram len" (last.stop == ipr.datagramLen)
      .ok (some (ipr, true))

/-- The pbufs of the fragments chained together: the header stays in front of the first one and is
hidden in the others. -/
def chainBodies (f : Frag) (fs : List Frag) : Body :=
  { f.body with next := f.body.next ++ fs.flatMap fun r => r.body.pbufs }

/-- The datagram that `ip4_reass` returns when it is complete. -/
def wholeDatagram (ipr : ReassData) : Option Packet :=
  match ipr.p with
  | [] => none
  | f :: fs =>
    let len := (ipr.datagramLen + ipHlen) % 65536
    let hdr := { ipr.iphdr with len := UInt16.ofNat len, offset := 0 }
    some ⟨hdr.withChksum f.body.odd, chainBodies f fs⟩

/-- The entry before the fragment is put in: the header of the first fragment is kept, and the last
fragment gives the length. -/
def updateEntry (ipr : ReassData) (fraghdr : IpHdr) : ReassData :=
  let ipr := if fraghdr.position == 0 && ipr.iphdr.position != 0 then
    { ipr with iphdr := fraghdr } else ipr
  if fraghdr.mf then ipr
  else { ipr with
    lastFrag := true
    datagramLen := (fraghdr.position + fraghdr.dataLen) % 65536 }

/-- `ip4_reass` from the point where the entry is known: it stands between `pre` and `post`. -/
def reassInto (s : Reass) (pre : List ReassData) (ipr : ReassData) (post : List ReassData)
    (p : Packet) : Except ReassFault (Reass × Option Packet) := do
  let s := { s with pbufcount := (s.pbufcount + p.body.clen) % 65536 }
  let ipr := updateEntry ipr p.hdr
  match ← chainFrag ipr (fragOf p) with
  | none =>
    .ok ({ s with
      reassdatagrams := pre ++ ipr :: post
      pbufcount := (s.pbufcount + 65536 - p.body.clen) % 65536
      freed := s.freed ++ [p.body] }, none)
  | some (ipr, false) => .ok ({ s with reassdatagrams := pre ++ ipr :: post }, none)
  | some (ipr, true) =>
    match wholeDatagram ipr with
    | none => .error .nullPointer
    | some d =>
      .ok ({ s with
        reassdatagrams := pre ++ post
        pool := s.pool + 1
        pbufcount := (s.pbufcount + 65536 - d.body.clen) % 65536 }, some d)

/-- The test whether more pbufs may be enqueued.  The oldest datagram is given up if not. -/
def mayEnqueue (s : Reass) (p : Packet) : Except ReassFault (Reass × Bool) :=
  if s.pbufcount + p.body.clen > ipReassMaxPbufs then do
    let (s, pbufsFreed) ← ipReassRemoveOldestDatagram s p.hdr p.body.clen
    .ok (s, pbufsFreed != 0 && s.pbufcount + p.body.clen ≤ ipReassMaxPbufs)
  else .ok (s, true)

/-- The label `nullreturn`. -/
def nullReturn (s : Reass) (p : Packet) : Reass × Option Packet :=
  ({ s with freed := s.freed ++ [p.body] }, none)

def ip4Reass (s : Reass) (p : Packet) : Except ReassFault (Reass × Option Packet) :=
  if p.hdr.hlen ≠ ipHlen then .ok (nullReturn s p)
  else do
    let (s, room) ← mayEnqueue s p
    if !room then .ok (nullReturn s p)
    else
      let pre := s.reassdatagrams.takeWhile fun r => !addressesAndIdMatch r.iphdr p.hdr
      match s.reassdatagrams.dropWhile fun r => !addressesAndIdMatch r.iphdr p.hdr with
      | ipr :: post => reassInto s pre ipr post p
      | [] =>
        let (s, room) ← ipReassEnqueueNewDatagram s p.hdr p.body.clen
        if !room then .ok (nullReturn s p)
        else reassInto s [] (newDatagram p.hdr) s.reassdatagrams p

end Lwip
end DeepForensics
