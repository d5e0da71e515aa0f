/-
# A request and its reply

A request is two 32-bit words, the address and the length.  This file has the delivery of a
request in a single pbuf, and what `do_action` makes of a buffer that holds one when the
kernel answers: the reply stands where the request stood.
-/
import DeepForensics.Server.Refine

namespace DeepForensics
namespace Server

open PtrHeap Wire Runs Queue

/-- The bytes of a request. -/
def request (address length : ℕ) : List UInt8 := le32 address ++ le32 length

@[simp] lemma request_length (address length : ℕ) : (request address length).length = 8 := rfl

/-- A request in a single pbuf whose buffer goes on with `room`. -/
def requestDelivery (address length : ℕ) (room : List UInt8) : Delivery where
  head := ⟨request address length ++ room, 8, by simp⟩
  rest := []
  total_lt := by simp

/-- The answers of an exchange in which every system call succeeds. -/
def working (kernel : List UInt8 → List UInt8) : NetlinkEnv := ⟨true, true, true, true, kernel, []⟩

/-- The answers of lwIP when there is room for `n` bytes and every write is accepted. -/
def roomy (n : ℕ) : TcpEnv := ⟨fun _ => n, fun _ => .ok, .ok⟩

/-- The answers of lwIP when there is no room. -/
def full : TcpEnv := ⟨fun _ => 0, fun _ => .ok, .ok⟩

section Words

variable {address length : ℕ}

lemma word_request_zero (ha : address < 2 ^ 32) (room : List UInt8) :
    word (request address length ++ room) 0 = address := by
  rw [request, List.append_assoc]
  exact word_zero_le32 ha _

lemma word_request_one (hl : length < 2 ^ 32) (room : List UInt8) :
    word (request address length ++ room) 1 = length := by
  rw [request, List.append_assoc]
  exact word_one_le32 address hl room

end Words

/-- Every system call of the exchange succeeds. -/
structure Works (nl : NetlinkEnv) : Prop where
  socket : nl.socket = true
  bind : nl.bind = true
  sendmsg : nl.sendmsg = true
  recvmsg : nl.recvmsg = true

lemma works_working (kernel : List UInt8 → List UInt8) : Works (working kernel) :=
  ⟨rfl, rfl, rfl, rfl⟩

/-- With no socket left open, an exchange that works returns the buffer of the reply. -/
lemma sendNetlinkRequest_works {nl : NetlinkEnv} (h : Works nl) (address length : ℕ) :
    sendNetlinkRequest nl 0 address length
      = .ok (0, some (recvPayload (requestPayload address length)
          (nl.kernel (requestPayload address length)) ++ nl.behind)) := by
  simp [sendNetlinkRequest, h.socket, h.bind, h.sendmsg, h.recvmsg]

/-- The copy of a reply into a buffer. -/
lemma memcpy_reply {dst old reply behind : List UInt8} (hle : reply.length ≤ maxPayload)
    (hdst : reply.length ≤ dst.length) :
    memcpy dst (some (recvPayload old reply ++ behind)) reply.length
      = .ok (reply ++ dst.drop reply.length) := by
  have htake : (recvPayload old reply).take reply.length = reply := take_recvPayload hle
  have hlen : reply.length ≤ (recvPayload old reply).length := by
    have h := congrArg List.length htake
    rw [List.length_take] at h
    omega
  rw [memcpy_some, if_pos ⟨by rw [List.length_append]; omega, hdst⟩,
    List.take_append_of_le_length hlen, htake]

/-- **The reply replaces the request.**  A buffer whose first two words are `address` and
`length` holds the reply of the kernel afterwards, if that has the length asked for. -/
theorem action_request {nl : NetlinkEnv} (hw : Works nl) {b : Buf} {address length : ℕ}
    (hb : 8 ≤ b.payload.length) (h0 : word b.payload 0 = address)
    (h1 : word b.payload 1 = length) {reply : List UInt8}
    (hk : nl.kernel (requestPayload address length) = reply) (hr : reply.length = length)
    (hle : length ≤ maxPayload) (hroom : length ≤ b.payload.length) :
    action nl 0 b
      = .ok (0, { b with len := length, payload := reply ++ b.payload.drop length }) := by
  subst hr
  have hlt : reply.length < 2 ^ 16 := lt_of_le_of_lt hle (by unfold maxPayload; norm_num)
  rw [action, if_neg (not_lt.mpr hb), h0, h1, sendNetlinkRequest_works hw, hk]
  show (memcpy b.payload (some _) reply.length).bind _ = _
  rw [memcpy_reply hle hroom, u16_of_lt hlt]
  rfl

end Server
end DeepForensics
