/-
# The exchange between server and kernel

The server prints a request as text, the kernel module reads it back, and the bytes of the reply
are received into the buffer that holds the text.  The numbers survive the text for all 32-bit
values.  The reply survives only if it is as long as the request says: the server takes its length
from the request, and what a shorter reply leaves of the buffer is sent along.
-/
import DeepForensics.Kernel.Bounds
import DeepForensics.Server.Action

namespace DeepForensics
namespace System

open Runs Server Queue

/-! ## The request -/

/-- The two copies of the text stay inside their buffers, and the message carries the payload. -/
lemma buildPayload_eq {address length : ℕ} (ha : address < 2 ^ 32) (hl : length < 2 ^ 32) :
    buildPayload address length = some (requestPayload address length) := by
  have h0 : 0 ∉ requestText address length := Kernel.zero_notMem_requestText address length
  have hfits : (requestText address length).length
      < (List.replicate maxPayload (0 : UInt8)).length := by
    rw [requestText_length ha hl, List.length_replicate]
    decide
  rw [buildPayload, sprintf_of_lt hfits, Option.bind_eq_bind, Option.bind_some,
    Wire.strlen_string h0, strncpy_string h0 hfits, Kernel.requestPayload_eq ha hl,
    requestText_length ha hl, List.drop_replicate]
  rfl

/-- **The numbers survive the text.**  For all 32-bit values the text of the request fits the
buffers of both sides, and the kernel module reads back the same bit patterns, as values of
type `int`. -/
theorem codec_roundtrip (address length : UInt32) (start len : ℤ) :
    ∃ payload trace msg, buildPayload address.toNat length.toNat = some payload ∧
      payload.length = maxPayload ∧
      Kernel.strcpy 0 payload (List.replicate Kernel.size 0) = (trace, some msg) ∧
      (∀ i, .src i ∈ trace → i < payload.length) ∧ (∀ i, .write i ∈ trace → i < Kernel.size) ∧
      msg.length = Kernel.size ∧
      Kernel.parseInput msg start len = (address.toInt32.toInt, length.toInt32.toInt) := by
  have ha : address.toNat < 2 ^ 32 := address.toNat_lt
  have hl : length.toNat < 2 ^ 32 := length.toNat_lt
  have hlen := requestText_length ha hl
  have h0 := Kernel.zero_notMem_requestText address.toNat length.toNat
  have hsize : (requestText address.toNat length.toNat).length < Kernel.size := by
    rw [hlen]
    decide
  have hcopy := Kernel.strcpy_msgOf h0 hsize (List.replicate 238 0)
  rw [← Kernel.requestPayload_eq ha hl] at hcopy
  refine ⟨_, _, _, buildPayload_eq ha hl, requestPayload_length ha hl, hcopy, ?_, ?_,
    Kernel.msgOf_length hsize, ?_⟩
  · intro i hi
    -- the copy ends with the terminator of the text
    obtain ⟨j, hj, hx | hx⟩ := Kernel.mem_strcpy_trace hi
    · cases hx
      rw [requestPayload_length ha hl]
      exact lt_of_le_of_lt hj hsize
    · cases hx
  · intro i hi
    obtain ⟨j, hj, hx | hx⟩ := Kernel.mem_strcpy_trace hi
    · cases hx
    · cases hx
      exact lt_of_le_of_lt hj hsize
  · rw [Kernel.parseInput_msgOf h0, Kernel.parseInput_requestText ha hl, Wire.int32_toNat,
      Wire.int32_toNat]

/-! ## The reply -/

/-- The netlink exchange with the kernel module. -/
def netlink (mem : ℕ → UInt8) (behind : List UInt8) : NetlinkEnv :=
  ⟨true, true, true, true, fun payload => (Kernel.nlRecvMsg mem true payload).reply.getD [],
    behind⟩

/-- The bytes `mem[a], …, mem[a + l - 1]`. -/
def memory (mem : ℕ → UInt8) (a l : ℕ) : List UInt8 := (List.range l).map fun i => mem (a + i)

@[simp] lemma memory_length (mem : ℕ → UInt8) (a l : ℕ) : (memory mem a l).length = l := by
  simp [memory]

/-- The handler answers a request with the bytes that its loop copies. -/
lemma reply_eq_dump (mem : ℕ → UInt8) {a l : ℕ} (ha : a < 2 ^ 32) (hl : l < 2 ^ 32) :
    (Kernel.nlRecvMsg mem true (requestPayload a l)).reply
      = some (Kernel.dump mem (Wire.int32 a) 0
          (Kernel.copyCount (Wire.int32 a) (Wire.int32 l) Kernel.size)) := by
  obtain ⟨h, n, hrun, hn, _, hreply, -⟩ := Kernel.nlRecvMsg_terminated
    (Kernel.zero_notMem_requestText a l)
    (by rw [requestText_length ha hl]; decide) (List.replicate 238 0) mem true
    (Kernel.parseInput_requestText ha hl 0 1)
  rw [Kernel.requestPayload_eq ha hl, hrun, hreply, if_pos rfl, hn]

/-- The handler answers a request for readable memory with that memory. -/
lemma reply_eq_memory (mem : ℕ → UInt8) {a l : ℕ} (ha : a < 2 ^ 32) (hl : l ≤ Kernel.size)
    (hlast : (a + l : ℤ) ≤ Kernel.lastReadableAddress) :
    (Kernel.nlRecvMsg mem true (requestPayload a l)).reply = some (memory mem a l) := by
  have hl32 : l < 2 ^ 32 := by
    unfold Kernel.size at hl
    omega
  rw [reply_eq_dump mem ha hl32]
  -- below the last readable address no sign bit is set, and nothing cuts the copy short
  have hint := Kernel.lastReadableAddress_lt
  rw [Wire.int32_of_lt (by omega : a < 2 ^ 31), Wire.int32_of_lt (by omega : l < 2 ^ 31),
    Kernel.copyCount_of_le hl hlast, Kernel.dump_of_nonneg mem (by omega)]
  rfl

/-! ## What the server forwards -/

/-- `do_action` leaves the bytes `r` for sending in the pbuf at `ptr`. -/
def Forwards (nl : NetlinkEnv) (w : World) (ptr : ℕ) (r : List UInt8) : Prop :=
  ∃ w' b, doAction nl w = .ok w' ∧ w'.heap ptr = some b ∧ b.payload.take b.len = r

/-- `do_action` leaves as many bytes as the request asks for. -/
lemma Forwards.length {nl : NetlinkEnv} {w : World} {ptr : ℕ} {b : Pbuf} {r : List UInt8}
    (h : Forwards nl w ptr r) (hb : Head w ptr b) (hn : w.nlOpen = 0) (hw : Works nl)
    (hle : Wire.word b.payload 1 ≤ maxPayload) :
    r.length = Wire.word b.payload 1 ∧ Wire.word b.payload 1 ≤ b.payload.length := by
  obtain ⟨w', b', hw', hb', hr⟩ := h
  obtain ⟨res, hs, payload, hm, hpbuf⟩ := doAction_ok hb hw'
  rw [hn, sendNetlinkRequest_works hw] at hs
  injection hs with hs
  have hres := (congrArg Prod.snd hs).symm
  dsimp only at hres
  rw [hres, memcpy_some] at hm
  split_ifs at hm with hfit
  cases hm
  rw [hpbuf] at hb'
  cases hb'
  have hlt : Wire.word b.payload 1 < 2 ^ 16 := lt_of_le_of_lt hle (by decide)
  refine ⟨?_, hfit.2⟩
  rw [← hr]
  show (List.take (Wire.u16 (Wire.word b.payload 1)) (_ ++ _)).length = _
  rw [Wire.u16_of_lt hlt, List.take_left' (List.length_take_of_le hfit.1),
    List.length_take_of_le hfit.1]

/-- **When the server forwards the reply.**  The bytes `do_action` leaves for sending are the reply
of the kernel exactly when the range asked for ends before `LAST_READABLE_ADDRESS`, the address
taken as an `int`, so that the reply has the length of the request, and the buffer of the pbuf has
room for it. -/
theorem forwards_reply_iff (mem : ℕ → UInt8) (behind : List UInt8) {w : World} {ptr : ℕ} {b : Pbuf}
    {address length : ℕ} {room r : List UInt8} (hb : Head w ptr b) (hn : w.nlOpen = 0)
    (hreq : b.payload = request address length ++ room) (ha : address < 2 ^ 32)
    (hpos : 1 ≤ length) (hle : length ≤ 256)
    (hr : (Kernel.nlRecvMsg mem true (requestPayload address length)).reply = some r) :
    Forwards (netlink mem behind) w ptr r ↔
      Wire.int32 address + length ≤ Kernel.lastReadableAddress ∧ length ≤ 8 + room.length := by
  have hl32 : length < 2 ^ 32 := by omega
  have h0 : Wire.word b.payload 0 = address := by rw [hreq, word_request_zero ha]
  have h1 : Wire.word b.payload 1 = length := by rw [hreq, word_request_one hl32]
  have hlen : b.payload.length = 8 + room.length := by
    rw [hreq, List.length_append, request_length]
  have hworks : Works (netlink mem behind) := ⟨rfl, rfl, rfl, rfl⟩
  -- the reply has the length of the request if the loop does not meet the last readable address
  have hcount : r.length = length ↔
      Wire.int32 address + length ≤ Kernel.lastReadableAddress := by
    rw [reply_eq_dump mem ha hl32] at hr
    rw [← Option.some.inj hr, Kernel.dump_length, Wire.int32_of_lt (by omega : length < 2 ^ 31)]
    exact Kernel.copyCount_eq_length_iff hpos hle
  constructor
  · intro h
    obtain ⟨hlength, hroom⟩ := h.length hb hn hworks (by rw [h1]; exact hle)
    rw [h1] at hlength hroom
    exact ⟨hcount.mp hlength, by rw [← hlen]; exact hroom⟩
  · rintro ⟨hlast, hroom⟩
    have hk : (netlink mem behind).kernel (requestPayload address length) = r := by
      simp only [netlink, hr, Option.getD_some]
    have hact := action_request hworks (b := ⟨ptr, b.payload, b.totLen, b.len⟩)
      (by dsimp only; omega) h0 h1 hk (hcount.mpr hlast) hle (by dsimp only; omega)
    refine ⟨_, _, by rw [doAction_head hb, hn, hact]; rfl, PtrHeap.set_same _ _ _, ?_⟩
    exact List.take_left' (hcount.mpr hlast)

/-- Four bytes at 4096 are forwarded. -/
theorem forwards_reply_four :
    Forwards (netlink (fun a => UInt8.ofNat a) []) (handed Server.start (requestPbuf 4096 4 [])) 0
      (memory (fun a => UInt8.ofNat a) 4096 4) :=
  (forwards_reply_iff _ [] (head_handed Server.start _) rfl rfl (by decide) (by decide) (by decide)
    (reply_eq_memory _ (by decide) (by decide) (by decide))).mpr (by decide)

/-- For one byte at `LAST_READABLE_ADDRESS` the reply of the kernel is empty, and the server sends
the first character of its own request text. -/
theorem stale_text_forwarded :
    (Kernel.nlRecvMsg (fun _ => 0) true (requestPayload 0x37bfdfff 1)).reply = some [] ∧
    Forwards (netlink (fun _ => 0) []) (handed Server.start (requestPbuf 0x37bfdfff 1 [])) 0
      (Wire.str ['3']) ∧
    ¬ Forwards (netlink (fun _ => 0) []) (handed Server.start (requestPbuf 0x37bfdfff 1 [])) 0
      [] := by
  have hsent : ((doAction (netlink (fun _ => 0) [])
      (handed Server.start (requestPbuf 0x37bfdfff 1 []))).toOption.bind fun w =>
        (w.heap 0).map fun b => b.payload.take b.len) = some (Wire.str ['3']) := by
    decide +kernel
  cases hw : doAction (netlink (fun _ => 0) [])
      (handed Server.start (requestPbuf 0x37bfdfff 1 [])) with
  | error f =>
    rw [hw] at hsent
    cases hsent
  | ok w =>
    rw [hw] at hsent
    obtain ⟨b, hb, hbytes⟩ := Option.map_eq_some_iff.mp hsent
    refine ⟨by decide +kernel, ⟨w, b, hw, hb, hbytes⟩, ?_⟩
    rintro ⟨w', b', hw', hb', hnone⟩
    rw [hw] at hw'
    cases hw'
    rw [hb] at hb'
    cases hb'
    rw [hbytes] at hnone
    exact absurd hnone (by decide)

end System
end DeepForensics
