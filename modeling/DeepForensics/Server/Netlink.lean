/-
# The netlink exchange of the server

`init_netlink_socket` and `send_netlink_request` of `server_dir/minimal/tcp_raw.c`.  The
request is a text of two hexadecimal fields in a zeroed buffer of `MAX_PAYLOAD` bytes, and
the reply is received into the same buffer, over the text.  What the rest of the system
answers is a parameter, `NetlinkEnv`.
-/
import DeepForensics.Server.Pbuf

namespace DeepForensics
namespace Server

open Wire

/-- `MAX_PAYLOAD`. -/
def maxPayload : ℕ := 256

/-- The text `sprintf(buffer, "%08x,%08x", address, length)`. -/
def requestText (address length : ℕ) : List UInt8 :=
  hexPad 8 address ++ ch ',' :: hexPad 8 length

/-- The payload of the netlink message: the text, copied with its terminator into the zeroed
buffer. -/
def requestPayload (address length : ℕ) : List UInt8 :=
  requestText address length
    ++ List.replicate (maxPayload - (requestText address length).length) 0

/-- `sprintf` of a text into a buffer; `none` when the text and its terminator do not fit. -/
def sprintf (buffer text : List UInt8) : Option (List UInt8) :=
  if text.length < buffer.length then some (text ++ 0 :: buffer.drop (text.length + 1)) else none

/-- `strncpy(dst, src, n)`: the string at `src`, cut or filled up with zeros to `n` characters;
`none` when one of the two buffers is left. -/
def strncpy (dst src : List UInt8) (n : ℕ) : Option (List UInt8) :=
  if n ≤ dst.length ∧ (0 ∈ src ∨ n ≤ src.length) then
    let t := (src.takeWhile (· ≠ 0)).take n
    some (t ++ (List.replicate (n - t.length) 0 ++ dst.drop n))
  else none

/-- The payload as `send_netlink_request` builds it: the text is printed into the zeroed `buffer`
and copied into the zeroed payload of the message. -/
def buildPayload (address length : ℕ) : Option (List UInt8) := do
  let buffer ← sprintf (List.replicate maxPayload 0) (requestText address length)
  strncpy (List.replicate maxPayload 0) buffer (strlen buffer + 1)

/-- The answers of the system calls of one exchange. -/
structure NetlinkEnv where
  /-- `socket` succeeds. -/
  socket : Bool
  /-- `bind` finds no reason of its own to fail. -/
  bind : Bool
  /-- `sendmsg` succeeds. -/
  sendmsg : Bool
  /-- `recvmsg` succeeds. -/
  recvmsg : Bool
  /-- The payload of the reply to a request payload. -/
  kernel : List UInt8 → List UInt8
  /-- What the process finds behind the buffer of the exchange. -/
  behind : List UInt8

/-- The reply as `recvmsg` leaves it in the buffer: padded with zeros to a multiple of four
bytes, cut at the end of the buffer, over what was there. -/
def recvPayload (old reply : List UInt8) : List UInt8 :=
  (reply ++ List.replicate ((reply.length + 3) / 4 * 4 - reply.length) 0).take maxPayload
    ++ old.drop ((reply.length + 3) / 4 * 4)

/-- `send_netlink_request(address, length)`, from the number of netlink sockets that earlier
calls have left open to the new number and the bytes at the returned pointer.  The kernel
refuses a second socket with the process's `nl_pid`, and the two early returns do not close
the one they have opened. -/
def sendNetlinkRequest (nl : NetlinkEnv) (nlOpen address length : ℕ) :
    Except Fault (ℕ × Option (List UInt8)) :=
  if nl.socket = false then .error .exited
  else if nl.bind = false ∨ nlOpen ≠ 0 then .error .exited
  else if nl.sendmsg = false then .ok (nlOpen + 1, none)
  else if nl.recvmsg = false then .ok (nlOpen + 1, none)
  else
    let payload := requestPayload address length
    .ok (nlOpen, some (recvPayload payload (nl.kernel payload) ++ nl.behind))

lemma sprintf_of_lt {buffer text : List UInt8} (h : text.length < buffer.length) :
    sprintf buffer text = some (text ++ 0 :: buffer.drop (text.length + 1)) := by
  rw [sprintf, if_pos h]

/-- A string that fits is copied with its terminator. -/
lemma strncpy_string {t : List UInt8} (ht : 0 ∉ t) {dst : List UInt8} (h : t.length < dst.length)
    (rest : List UInt8) :
    strncpy dst (t ++ 0 :: rest) (t.length + 1) = some (t ++ 0 :: dst.drop (t.length + 1)) := by
  have htake : t.take (t.length + 1) = t := List.take_of_length_le (Nat.le_succ _)
  have hone : t.length + 1 - t.length = 1 := by omega
  rw [strncpy, if_pos ⟨h, Or.inl (List.mem_append_right _ List.mem_cons_self)⟩,
    takeWhile_string ht]
  simp only [htake, hone]
  rfl

lemma requestText_length {address length : ℕ} (ha : address < 2 ^ 32) (hl : length < 2 ^ 32) :
    (requestText address length).length = 17 := by
  have h1 : (hexPad 8 address).length = 8 := hexPad_length (by omega)
  have h2 : (hexPad 8 length).length = 8 := hexPad_length (by omega)
  simp [requestText, h1, h2]

/-- The request fills the buffer of the exchange. -/
lemma requestPayload_length {address length : ℕ} (ha : address < 2 ^ 32) (hl : length < 2 ^ 32) :
    (requestPayload address length).length = maxPayload := by
  rw [requestPayload, List.length_append, List.length_replicate, requestText_length ha hl]
  rfl

/-- A reply does not change the size of the buffer. -/
lemma recvPayload_length {old : List UInt8} (h : old.length = maxPayload) (reply : List UInt8) :
    (recvPayload old reply).length = maxPayload := by
  simp only [recvPayload, List.length_append, List.length_take, List.length_replicate,
    List.length_drop, h]
  omega

/-- A reply that fits the buffer stands at its beginning. -/
lemma take_recvPayload {old reply : List UInt8} (h : reply.length ≤ maxPayload) :
    (recvPayload old reply).take reply.length = reply := by
  have hle : reply.length ≤ ((reply ++ List.replicate ((reply.length + 3) / 4 * 4 - reply.length)
      (0 : UInt8)).take maxPayload).length := by
    simp only [List.length_take, List.length_append, List.length_replicate]
    omega
  rw [recvPayload, List.take_append_of_le_length hle, List.take_take, Nat.min_eq_left h,
    List.take_append_of_le_length le_rfl, List.take_length]

end Server
end DeepForensics
