/-
# What the kernel module touches

Three bounds on the netlink handler.  On the request texts that the server sends, the physical
addresses it reads stay inside the readable window unless the address is one that a signed
`int` takes for a negative number.  Of this window it returns all but the last address.  On
arbitrary messages it stays inside its buffer and the message exactly when the message is
terminated within the size of the buffer.
-/
import DeepForensics.Kernel.Copy
import DeepForensics.Server.Netlink

namespace DeepForensics
namespace Kernel

open Wire Server

/-! ## The handler on a terminated message -/

section Terminated

variable {t rest : List UInt8}

/-- The buffer `msg` after the copy of the string `t`. -/
def msgOf (t : List UInt8) : List UInt8 := t ++ 0 :: List.replicate (size - (t.length + 1)) 0

lemma msgOf_length (hlen : t.length < size) : (msgOf t).length = size := by
  simp only [msgOf, List.length_append, List.length_cons, List.length_replicate]
  omega

lemma strcpy_msgOf (ht : 0 ∉ t) (hlen : t.length < size) (rest : List UInt8) :
    strcpy 0 (t ++ 0 :: rest) (List.replicate size 0)
      = ((List.range' 0 (t.length + 1)).flatMap fun j => [.src j, .write j], some (msgOf t)) := by
  rw [strcpy_of_terminated ht 0 _ (by simpa using hlen)]
  simp [msgOf]

/-- The scan stops at the terminator. -/
lemma parseInput_msgOf (ht : 0 ∉ t) (start length : ℤ) :
    parseInput (msgOf t) start length = parseInput t start length := by
  have hmsg : (msgOf t).takeWhile (· ≠ 0) = t := takeWhile_string ht _
  rw [parseInput, parseInput, hmsg, takeWhile_text ht]

/-- The values read are values of type `int`. -/
lemma parseInput_range (t : List UInt8) :
    -2 ^ 31 ≤ (parseInput t 0 1).1 ∧ (parseInput t 0 1).1 < 2 ^ 31 := by
  have hint : ∀ n, -2 ^ 31 ≤ int32 n ∧ int32 n < 2 ^ 31 := by
    intro n
    unfold int32
    split <;> omega
  rw [parseInput]
  split
  · norm_num
  · split
    · exact hint _
    · split_ifs
      · split
        · exact hint _
        · exact hint _
      · exact hint _

/-- The accesses of the copy of a string of length `n`. -/
lemma mem_strcpy_trace {n : ℕ} {x : Access}
    (h : x ∈ (List.range' 0 (n + 1)).flatMap fun j => [Access.src j, .write j]) :
    ∃ j, j ≤ n ∧ (x = .src j ∨ x = .write j) := by
  obtain ⟨j, hj, hx⟩ := List.mem_flatMap.mp h
  rw [List.mem_range'_1] at hj
  exact ⟨j, by omega, by simpa using hx⟩

/-- The accesses of the handler for the text `t` when it copies `n` bytes: the copy of the text, the
iterations of the loop and the reads of the reply. -/
def OfHandler (t : List UInt8) (start : ℤ) (n : ℕ) (x : Access) : Prop :=
  (∃ j, j ≤ t.length ∧ (x = .src j ∨ x = .write j)) ∨ OfCopy start n x ∨ ∃ i, i < n ∧ x = .read i

section OfHandler

variable {start : ℤ} {n i : ℕ}

lemma ofHandler_src : OfHandler t start n (.src i) ↔ i ≤ t.length := by
  simp [OfHandler, OfCopy]

lemma ofHandler_write : OfHandler t start n (.write i) ↔ i ≤ t.length ∨ i < n := by
  simp [OfHandler, ofCopy_write]

lemma ofHandler_read : OfHandler t start n (.read i) ↔ i < n := by
  simp [OfHandler, OfCopy]

lemma ofHandler_deref : OfHandler t start n (.deref i) ↔ ∃ j < n, i = physAddr (start + j) := by
  simp [OfHandler, ofCopy_deref]

end OfHandler

/-- **The handler on a terminated message.**  With `start` and `length` the values read from the
text, it copies `copyCount` bytes; these are the reply. -/
theorem nlRecvMsg_terminated (ht : 0 ∉ t) (hlen : t.length < size) (rest : List UInt8)
    (mem : ℕ → UInt8) (nlmsgNew : Bool) {start length : ℤ}
    (hparse : parseInput t 0 1 = (start, length)) :
    ∃ h n, nlRecvMsg mem nlmsgNew (t ++ 0 :: rest) = h ∧ n = copyCount start length size ∧
      h.msgSize = some n ∧
      h.reply = (if nlmsgNew then some (dump mem start 0 n) else none) ∧
      (∀ x ∈ h.trace, OfHandler t start n x) ∧
      ∀ i, i < n → .deref (physAddr (start + i)) ∈ h.trace := by
  have hrange := parseInput_range t
  rw [hparse] at hrange
  obtain ⟨c, hc, hcount, hdata, htrace, hderef⟩ :=
    copyDataFromMemory_spec mem hrange.1 hrange.2 length (msgOf t)
  rw [msgOf_length hlen] at hc hcount
  have hreply : (List.range c.count).map (fun i => c.data.getD i 0) = dump mem start 0 c.count := by
    rw [map_getD_range _ (by rw [hdata]; simp), hdata, List.take_left' (dump_length _ _ _ _)]
  cases nlmsgNew with
  | true =>
    have hrun : nlRecvMsg mem true (t ++ 0 :: rest)
        = ⟨(List.range' 0 (t.length + 1)).flatMap (fun j => [.src j, .write j]) ++ c.trace
            ++ (List.range c.count).map .read, some c.count, some (dump mem start 0 c.count)⟩ := by
      simp only [nlRecvMsg, strcpy_msgOf ht hlen, parseInput_msgOf ht, hparse, hc, hreply, if_true]
    refine ⟨_, c.count, hrun, hcount, rfl, rfl, ?_, ?_⟩
    · intro x hx
      simp only [List.mem_append, List.mem_map, List.mem_range] at hx
      rcases hx with (hx | hx) | ⟨i, hi, rfl⟩
      · exact Or.inl (mem_strcpy_trace hx)
      · exact Or.inr (Or.inl (htrace x hx))
      · exact Or.inr (Or.inr ⟨i, hi, rfl⟩)
    · intro i hi
      exact List.mem_append_left _ (List.mem_append_right _ (hderef i hi))
  | false =>
    have hrun : nlRecvMsg mem false (t ++ 0 :: rest)
        = ⟨(List.range' 0 (t.length + 1)).flatMap (fun j => [.src j, .write j]) ++ c.trace,
            some c.count, none⟩ := by
      simp only [nlRecvMsg, strcpy_msgOf ht hlen, parseInput_msgOf ht, hparse, hc]
      rfl
    refine ⟨_, c.count, hrun, hcount, rfl, rfl, ?_, ?_⟩
    · intro x hx
      rcases List.mem_append.mp hx with hx | hx
      · exact Or.inl (mem_strcpy_trace hx)
      · exact Or.inr (Or.inl (htrace x hx))
    · intro i hi
      exact List.mem_append_right _ (hderef i hi)

end Terminated

/-! ## The text of a request -/

lemma digitChar_ne_zero : ∀ d < 16, digitChar d ≠ 0 := by decide

lemma zero_notMem_requestText (address length : ℕ) : 0 ∉ requestText address length := by
  have hhex : ∀ n, (0 : UInt8) ∉ hexPad 8 n := notMem_hexPad digitChar_ne_zero 8
  rw [requestText, List.mem_append, List.mem_cons]
  rintro (h | h | h)
  · exact hhex address h
  · revert h
    decide
  · exact hhex length h

/-- **The numbers survive the text.**  The handler reads the two numbers that the server has
printed, as values of type `int`. -/
theorem parseInput_requestText {address length : ℕ} (ha : address < 2 ^ 32)
    (hl : length < 2 ^ 32) (s l : ℤ) :
    parseInput (requestText address length) s l = (int32 address, int32 length) := by
  have hself : (requestText address length).takeWhile (· ≠ 0) = requestText address length :=
    takeWhile_text (zero_notMem_requestText address length)
  have hsecond := scanHex_hexPad hl []
  rw [List.append_nil] at hsecond
  rw [parseInput, hself, requestText, scanHex_hexPad ha]
  simp [hsecond]

/-- The payload of a request is its text, terminated and filled up with zeros. -/
lemma requestPayload_eq {address length : ℕ} (ha : address < 2 ^ 32) (hl : length < 2 ^ 32) :
    requestPayload address length
      = requestText address length ++ 0 :: List.replicate 238 0 := by
  rw [requestPayload, requestText_length ha hl]
  rfl

/-! ## The read window -/

/-- Every physical address that is read lies in `[0, LAST_READABLE_ADDRESS]`. -/
def ReadsInWindow (h : Handled) : Prop :=
  ∀ a : ℕ, .deref a ∈ h.trace → (a : ℤ) ≤ lastReadableAddress

/-- **The read window.**  A request that arrives as text stays inside the window exactly if its
address is not negative as an `int`, or if its length is not positive as an `int`, so that
nothing is read. -/
theorem reads_in_window_iff {start length : ℕ} (hs : start < 2 ^ 32) (hl : length < 2 ^ 32)
    (rest : List UInt8) (mem : ℕ → UInt8) (nlmsgNew : Bool) :
    ReadsInWindow (nlRecvMsg mem nlmsgNew (requestText start length ++ 0 :: rest)) ↔
      start < 2 ^ 31 ∨ length = 0 ∨ 2 ^ 31 ≤ length := by
  obtain ⟨h, n, hrun, hn, _, _, htrace, hderef⟩ :=
    nlRecvMsg_terminated (zero_notMem_requestText start length)
      (by rw [requestText_length hs hl]; decide) rest mem nlmsgNew
      (parseInput_requestText hs hl 0 1)
  rw [hrun]
  constructor
  · -- a negative address and a positive length: the first byte is read outside
    intro hw
    by_contra hcon
    push Not at hcon
    obtain ⟨h1, h2, h3⟩ := hcon
    have hzero : 0 < n := by
      rw [hn, int32_of_ge h1 hs, int32_of_lt h3, lt_copyCount_iff]
      unfold lastReadableAddress size
      omega
    have hfirst := hw _ (hderef 0 hzero)
    rw [int32_of_ge h1 hs] at hfirst
    unfold physAddr lastReadableAddress at hfirst
    omega
  · intro hcond a ha
    obtain ⟨i, hi, rfl⟩ := ofHandler_deref.mp (htrace _ ha)
    rw [hn, lt_copyCount_iff] at hi
    obtain ⟨hlength, -, hlast⟩ := hi
    rcases hcond with hlt | hlen
    · rw [int32_of_lt hlt] at hlast ⊢
      have hint := hlast.trans lastReadableAddress_lt
      rw [physAddr_of_nonneg (by omega) (by omega)]
      omega
    · -- nothing is read
      have hneg : int32 length ≤ 0 := by
        rcases hlen with rfl | hge
        · decide
        · rw [int32_of_ge hge hl]
          omega
      omega

/-- Sixteen bytes at 4096. -/
theorem reads_in_window_low :
    ReadsInWindow (nlRecvMsg (fun _ => 0) true (requestText 4096 16 ++ 0 :: [])) :=
  (reads_in_window_iff (by norm_num) (by norm_num) [] _ _).mpr (Or.inl (by norm_num))

/-- One byte at the address `0x80000000`: the address that is read is the sign-extended one. -/
theorem reads_out_of_window :
    ¬ ∀ start length : ℕ, start < 2 ^ 32 → length < 2 ^ 32 →
      ∀ (rest : List UInt8) (mem : ℕ → UInt8) (nlmsgNew : Bool),
        ReadsInWindow (nlRecvMsg mem nlmsgNew (requestText start length ++ 0 :: rest)) := by
  intro h
  have hread : Access.deref (2 ^ 64 - 2 ^ 31) ∈
      (nlRecvMsg (fun _ => 0) true (requestText (2 ^ 31) 1 ++ 0 :: [])).trace := by
    decide +kernel
  have hle := h (2 ^ 31) 1 (by norm_num) (by norm_num) [] (fun _ => 0) true _ hread
  revert hle
  decide

/-! ## The whole window -/

/-- **The last readable address.**  A request whose range lies in `[0, LAST_READABLE_ADDRESS]` and
fits the buffer is answered with the memory of that range exactly if the range ends before
`LAST_READABLE_ADDRESS`: the loop takes its limit for the first address that cannot be read. -/
theorem replies_range_iff {t : List UInt8} (ht : 0 ∉ t) (hlen : t.length < size)
    (rest : List UInt8) (mem : ℕ → UInt8) {start length : ℕ}
    (hparse : parseInput t 0 1 = (↑start, ↑length)) (hpos : 1 ≤ length) (hle : length ≤ size)
    (hrange : (start + length - 1 : ℤ) ≤ lastReadableAddress) :
    (nlRecvMsg mem true (t ++ 0 :: rest)).reply
        = some ((List.range length).map fun i => mem (start + i)) ↔
      (start + length : ℤ) ≤ lastReadableAddress := by
  obtain ⟨h, n, hrun, hn, -, hreply, -⟩ := nlRecvMsg_terminated ht hlen rest mem true hparse
  have hn64 : start + n ≤ 2 ^ 64 := by
    have hcount : n ≤ size := hn ▸ copyCount_le
    have hlast := lastReadableAddress_lt
    unfold size at hcount
    omega
  rw [hrun, hreply, if_pos rfl, dump_of_nonneg mem hn64, ← copyCount_eq_length_iff hpos hle, ← hn]
  constructor
  · -- the lengths of the two lists
    intro heq
    simpa using congrArg List.length (Option.some.inj heq)
  · rintro rfl
    rfl

/-- The sixteen bytes before the last readable address. -/
theorem replies_range_sixteen :
    (nlRecvMsg (fun a => UInt8.ofNat a) true (requestText 0x37bfdfef 16 ++ 0 :: [])).reply
      = some ((List.range 16).map fun i => UInt8.ofNat (0x37bfdfef + i)) :=
  (replies_range_iff (zero_notMem_requestText _ _)
    (by rw [requestText_length (by norm_num) (by norm_num)]; decide) [] _
    (parseInput_requestText (by norm_num) (by norm_num) 0 1) (by norm_num) (by decide)
    (by decide)).mpr (by decide)

/-- The byte at the last readable address cannot be read: the reply to a request for it is empty,
and of two bytes that end with it only the first comes back. -/
theorem last_address_not_read :
    parseInput (requestText 0x37bfdfff 1) 0 1 = (lastReadableAddress, 1) ∧
    (nlRecvMsg (fun _ => 7) true (requestText 0x37bfdfff 1 ++ 0 :: [])).reply = some [] ∧
    (nlRecvMsg (fun _ => 7) true (requestText 0x37bfdffe 2 ++ 0 :: [])).reply = some [7] := by
  decide +kernel

/-! ## The buffers -/

/-- The handler stays inside `msg` and the message, and reaches the reply with a size that fits
the buffer. -/
structure InBounds (payload : List UInt8) (h : Handled) : Prop where
  src : ∀ i, .src i ∈ h.trace → i < payload.length
  write : ∀ i, .write i ∈ h.trace → i < size
  read : ∀ i, .read i ∈ h.trace → i < size
  msgSize : ∀ n, h.msgSize = some n → n ≤ size

/-- A list that has a zero among its first `n` elements, split at the first one. -/
lemma exists_terminated {n : ℕ} {payload : List UInt8} (h : 0 ∈ payload.take n) :
    ∃ t rest, payload = t ++ 0 :: rest ∧ 0 ∉ t ∧ t.length < n := by
  obtain ⟨t, rest, hsplit, ht⟩ := List.eq_append_cons_of_mem h
  refine ⟨t, rest ++ payload.drop n, ?_, ht, ?_⟩
  · rw [← List.cons_append, ← List.append_assoc, ← hsplit, List.take_append_drop]
  · have hlen := congrArg List.length hsplit
    rw [List.length_take, List.length_append, List.length_cons] at hlen
    omega

/-- A message without a terminator takes `strcpy` out of the message or out of the buffer. -/
lemma nlRecvMsg_unterminated {payload : List UInt8} (h : 0 ∉ payload.take size)
    (mem : ℕ → UInt8) (nlmsgNew : Bool) :
    .src payload.length ∈ (nlRecvMsg mem nlmsgNew payload).trace ∨
      .write size ∈ (nlRecvMsg mem nlmsgNew payload).trace := by
  obtain ⟨hnone, hacc⟩ := strcpy_of_unterminated payload 0 (List.replicate size 0)
    (Nat.zero_le _) (by simpa using h)
  have hrun : nlRecvMsg mem nlmsgNew payload
      = ⟨(strcpy 0 payload (List.replicate size 0)).1, none, none⟩ := by
    simp only [nlRecvMsg, hnone]
  rw [hrun]
  simpa using hacc

/-- **The buffers.**  The handler stays inside its buffers exactly on the messages that have a
terminator among the first `SIZE` bytes. -/
theorem in_bounds_iff (payload : List UInt8) (mem : ℕ → UInt8) (nlmsgNew : Bool) :
    InBounds payload (nlRecvMsg mem nlmsgNew payload) ↔ 0 ∈ payload.take size := by
  constructor
  · intro hb
    by_contra h0
    rcases nlRecvMsg_unterminated h0 mem nlmsgNew with h | h
    · exact lt_irrefl _ (hb.src _ h)
    · exact lt_irrefl _ (hb.write _ h)
  · intro h0
    obtain ⟨t, rest, rfl, ht, hlen⟩ := exists_terminated h0
    obtain ⟨h, n, hrun, hn, hsize, _, htrace, _⟩ :=
      nlRecvMsg_terminated ht hlen rest mem nlmsgNew rfl
    have hle : n ≤ size := hn ▸ copyCount_le
    rw [hrun]
    refine ⟨fun i hi => ?_, fun i hi => ?_, fun i hi => ?_, fun m hm => ?_⟩
    · have hsrc := ofHandler_src.mp (htrace _ hi)
      rw [List.length_append, List.length_cons]
      omega
    · rcases ofHandler_write.mp (htrace _ hi) with hj | hj
      · exact lt_of_le_of_lt hj hlen
      · exact lt_of_lt_of_le hj hle
    · exact lt_of_lt_of_le (ofHandler_read.mp (htrace _ hi)) hle
    · rw [hsize] at hm
      cases hm
      exact hle

/-- A message of 256 bytes without a terminator. -/
theorem out_of_bounds_unterminated :
    ¬ ∀ (payload : List UInt8) (mem : ℕ → UInt8) (nlmsgNew : Bool),
      InBounds payload (nlRecvMsg mem nlmsgNew payload) := by
  intro h
  have hb := h (List.replicate size 65) (fun _ => 0) true
  have h0 : 0 ∉ (List.replicate size (65 : UInt8)).take size := by decide
  rcases nlRecvMsg_unterminated h0 (fun _ => 0) true with hx | hx
  · exact lt_irrefl _ (hb.src _ hx)
  · exact lt_irrefl _ (hb.write _ hx)

end Kernel
end DeepForensics
