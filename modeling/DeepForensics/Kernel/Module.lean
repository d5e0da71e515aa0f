/-
# The kernel module

The netlink handler of `kernel_dir/kernel_module.c`: the copy of the request text into the
stack buffer `msg`, the scan of the two hexadecimal fields, the loop that copies physical
memory over the same buffer, and the loop that builds the reply.  Beside its result every
function reports the accesses it makes, in order, as a list of `Access`; an access that
leaves its object is the last one, since nothing is known of the execution from there on.
-/
import DeepForensics.Lib.Wire

namespace DeepForensics
namespace Kernel

open Wire

/-- `SIZE`, the size of the buffer `msg`. -/
def size : ℕ := 256

/-- `LAST_READABLE_ADDRESS`. -/
def lastReadableAddress : ℤ := 0x37bfdfff

/-- What the handler touches. -/
inductive Access where
  /-- `strcpy` reads byte `i` of the message payload. -/
  | src (i : ℕ)
  /-- A write of `msg[i]`. -/
  | write (i : ℕ)
  /-- A read of `msg[i]`. -/
  | read (i : ℕ)
  /-- The `int` sum `start_address + count`, over the integers. -/
  | add (v : ℤ)
  /-- A physical address that is passed to `phys_to_virt` and dereferenced. -/
  | deref (a : ℕ)
deriving DecidableEq, Repr

/-! ## The request text -/

/-- `strcpy(msg, nlmsg_data(nlh))` from index `i` on; `payload` is what is left of the
message.  The result is `none` when the copy has left the payload or the buffer. -/
def strcpy : ℕ → List UInt8 → List UInt8 → List Access × Option (List UInt8)
  | i, [], _ => ([.src i], none)
  | i, b :: payload, msg =>
    if i < msg.length then
      if b = 0 then ([.src i, .write i], some (msg.set i 0))
      else
        let r := strcpy (i + 1) payload (msg.set i b)
        (.src i :: .write i :: r.1, r.2)
    else ([.src i, .write i], none)

/-- `isspace` of the kernel, where the no-break space counts. -/
def isspace (c : UInt8) : Bool := (9 ≤ c && c ≤ 13) || c == 32 || c == 160

/-- One conversion `%08x` of the kernel's `sscanf`: white space is skipped, a hexadecimal
digit has to follow, a prefix `0x` counts for the width of 8 characters. -/
def scanHex (s : List UInt8) : Option (ℕ × List UInt8) :=
  match s.dropWhile isspace with
  | [] => none
  | c :: cs =>
    if isDigit 16 c then
      if c = ch '0' ∧ (cs.head? = some (ch 'x') ∨ cs.head? = some (ch 'X')) then
        -- the prefix has taken two of the eight characters
        let ds := (cs.tail.take 6).takeWhile (isDigit 16)
        some (numeral 16 ds, cs.tail.drop ds.length)
      else
        let ds := ((c :: cs).take 8).takeWhile (isDigit 16)
        some (numeral 16 ds, (c :: cs).drop ds.length)
    else none

/-- `sscanf(input, "%08x,%08x", start, length)` on the C string at `input`.  A field that is
not reached keeps the value its variable had. -/
def parseInput (input : List UInt8) (start length : ℤ) : ℤ × ℤ :=
  match scanHex (input.takeWhile (· ≠ 0)) with
  | none => (start, length)
  | some (v, rest) =>
    match rest with
    | [] => (int32 v, length)
    | c :: rest =>
      if c = ch ',' then
        match scanHex rest with
        | none => (int32 v, length)
        | some (w, _) => (int32 v, int32 w)
      else (int32 v, length)

/-! ## The copy of physical memory -/

/-- The sum of two values of type `int`. -/
def intAdd (a b : ℤ) : ℤ := int32 (u32 (a + b))

/-- The physical address of an `int`: the conversion to the unsigned 64-bit `phys_addr_t`. -/
def physAddr (v : ℤ) : ℕ := (v % 2 ^ 64).toNat

/-- What `copy_data_from_memory` leaves behind. -/
structure Copy where
  /-- The accesses of the loop. -/
  trace : List Access
  /-- The buffer `data`. -/
  data : List UInt8
  /-- The value returned. -/
  count : ℕ

/-- The loop of `copy_data_from_memory` with `count` at `c`.  The fuel is the number of
bytes of the buffer that are left, so that running out of it is the exit
`count < buffer_length` of the loop. -/
def copyLoop (mem : ℕ → UInt8) (start length bufferLength : ℤ) : ℕ → ℕ → List UInt8 → Copy
  | 0, c, data => ⟨[], data, c⟩
  | k + 1, c, data =>
    if (c : ℤ) < length ∧ (c : ℤ) < bufferLength then
      if lastReadableAddress ≤ intAdd start c then ⟨[.add (start + c)], data, c⟩
      else
        let a := physAddr (intAdd start c)
        let r := copyLoop mem start length bufferLength k (c + 1) (data.set c (mem a))
        ⟨.add (start + c) :: .deref a :: .write c :: r.trace, r.data, r.count⟩
    else ⟨[], data, c⟩

/-- `copy_data_from_memory(start_address, length, data, buffer_length)`. -/
def copyDataFromMemory (mem : ℕ → UInt8) (start length : ℤ) (data : List UInt8)
    (bufferLength : ℤ) : Copy :=
  copyLoop mem start length bufferLength bufferLength.toNat 0 data

/-! ## The handler -/

/-- What `nl_recv_msg` does with one message. -/
structure Handled where
  /-- All its accesses. -/
  trace : List Access
  /-- The value of `msg_size` that sizes the reply; `none` if the handler has gone astray
  before. -/
  msgSize : Option ℕ
  /-- The payload of the reply; `none` if there is none. -/
  reply : Option (List UInt8)

/-- `nl_recv_msg` on a message with this payload; `nlmsgNew` tells whether the allocation of
the reply succeeds. -/
def nlRecvMsg (mem : ℕ → UInt8) (nlmsgNew : Bool) (payload : List UInt8) : Handled :=
  let cp := strcpy 0 payload (List.replicate size 0)
  match cp.2 with
  | none => ⟨cp.1, none, none⟩
  | some msg =>
    let parsed := parseInput msg 0 1
    let c := copyDataFromMemory mem parsed.1 parsed.2 msg size
    if nlmsgNew then
      ⟨cp.1 ++ c.trace ++ (List.range c.count).map .read, some c.count,
        some ((List.range c.count).map fun i => c.data.getD i 0)⟩
    else ⟨cp.1 ++ c.trace, some c.count, none⟩

/-! ## What the functions compute -/

lemma intAdd_of_range {a b : ℤ} (h1 : -2 ^ 31 ≤ a + b) (h2 : a + b < 2 ^ 31) :
    intAdd a b = a + b := by
  unfold intAdd int32 u32
  split <;> omega

lemma physAddr_of_nonneg {v : ℤ} (h : 0 ≤ v) (h' : v < 2 ^ 64) : physAddr v = v.toNat := by
  unfold physAddr
  rw [Int.emod_eq_of_lt h h']

/-- A string that ends inside the payload and fits the buffer is copied with its terminator,
and every access is at an index up to the terminator. -/
lemma strcpy_of_terminated {t rest : List UInt8} (ht : 0 ∉ t) :
    ∀ (i : ℕ) (msg : List UInt8), i + t.length < msg.length →
      strcpy i (t ++ 0 :: rest) msg
        = ((List.range' i (t.length + 1)).flatMap fun j => [.src j, .write j],
          some (msg.take i ++ (t ++ 0 :: msg.drop (i + t.length + 1)))) := by
  induction t with
  | nil =>
    intro i msg hlen
    have hi : i < msg.length := by simpa using hlen
    simp only [List.nil_append, strcpy, if_pos hi, if_true, List.length_nil, Nat.zero_add,
      List.range'_one, List.flatMap_cons, List.flatMap_nil, List.append_nil, Nat.add_zero]
    rw [List.set_eq_take_cons_drop 0 hi]
  | cons b t ih =>
    intro i msg hlen
    have hb : b ≠ 0 := fun hc => ht (by simp [hc])
    have hi : i < msg.length := by simp at hlen; omega
    have hrec := ih (fun hc => ht (by simp [hc])) (i + 1) (msg.set i b)
      (by simp at hlen ⊢; omega)
    simp only [List.cons_append, strcpy, if_pos hi, if_neg hb, hrec]
    have hdrop : (msg.set i b).drop (i + 1 + t.length + 1) = msg.drop (i + (t.length + 1) + 1) := by
      rw [List.drop_set_of_lt (by omega)]
      congr 1
      omega
    have htrace : List.range' i ((b :: t).length + 1) = i :: List.range' (i + 1) (t.length + 1) :=
      List.range'_succ
    rw [htrace, take_succ_set hi, hdrop]
    simp

/-- Without a terminator in the part of the payload that fits the buffer, the copy goes
astray, and its last access is the first one out of bounds. -/
lemma strcpy_of_unterminated :
    ∀ (payload : List UInt8) (i : ℕ) (msg : List UInt8), i ≤ msg.length →
      0 ∉ payload.take (msg.length - i) →
      (strcpy i payload msg).2 = none ∧
        (.src (i + payload.length) ∈ (strcpy i payload msg).1 ∨
          .write msg.length ∈ (strcpy i payload msg).1) := by
  intro payload
  induction payload with
  | nil =>
    intro i msg _ _
    exact ⟨rfl, Or.inl (by simp [strcpy])⟩
  | cons b payload ih =>
    intro i msg hi h0
    by_cases hlt : i < msg.length
    · obtain ⟨m, hm⟩ : ∃ m, msg.length - i = m + 1 := ⟨msg.length - i - 1, by omega⟩
      rw [hm, List.take_succ_cons, List.mem_cons, not_or] at h0
      have hb : b ≠ 0 := fun hc => h0.1 hc.symm
      have hrec := ih (i + 1) (msg.set i b) (by simpa using hlt) (by
        rw [List.length_set, show msg.length - (i + 1) = m by omega]
        exact h0.2)
      simp only [strcpy, if_pos hlt, if_neg hb]
      refine ⟨hrec.1, ?_⟩
      rcases hrec.2 with h | h
      · left
        rw [List.length_cons, show i + (payload.length + 1) = i + 1 + payload.length by omega]
        exact List.mem_cons_of_mem _ (List.mem_cons_of_mem _ h)
      · right
        rw [List.length_set] at h
        exact List.mem_cons_of_mem _ (List.mem_cons_of_mem _ h)
    · have hie : i = msg.length := by omega
      simp only [strcpy, if_neg hlt]
      exact ⟨trivial, Or.inr (by simp [hie])⟩

lemma isspace_digitChar : ∀ d < 16, isspace (digitChar d) = false := by decide

lemma digitChar_ne_x : ∀ d < 16, digitChar d ≠ ch 'x' ∧ digitChar d ≠ ch 'X' := by decide

/-- A number of at most 32 bits, printed with `%08x`, is scanned with `%08x`: the field takes
the 8 digits and leaves what follows. -/
lemma scanHex_hexPad {n : ℕ} (h : n < 2 ^ 32) (rest : List UInt8) :
    scanHex (hexPad 8 n ++ rest) = some (n, rest) := by
  have hlen : (hexPad 8 n).length = 8 := hexPad_length (by omega)
  have hdig : ∀ c ∈ hexPad 8 n, isDigit 16 c = true := by
    intro c hc
    obtain ⟨d, hd, rfl⟩ := hexPad_mem hc
    exact isDigit_digitChar d hd
  -- the field is a list `c₀ c₁ cs` of eight digits: none is a space, and `c₁` is no `x`
  obtain ⟨c₀, c₁, cs, hcs⟩ : ∃ c₀ c₁ cs, hexPad 8 n = c₀ :: c₁ :: cs := by
    match hexPad 8 n, hlen with
    | c₀ :: c₁ :: cs, _ => exact ⟨c₀, c₁, cs, rfl⟩
  have h₀ : isDigit 16 c₀ = true := hdig c₀ (by simp [hcs])
  have hspace : isspace c₀ = false := by
    obtain ⟨d, hd, rfl⟩ := hexPad_mem (show c₀ ∈ hexPad 8 n by simp [hcs])
    exact isspace_digitChar d hd
  have hx : c₁ ≠ ch 'x' ∧ c₁ ≠ ch 'X' := by
    obtain ⟨d, hd, rfl⟩ := hexPad_mem (show c₁ ∈ hexPad 8 n by simp [hcs])
    exact digitChar_ne_x d hd
  have htake : (hexPad 8 n ++ rest).take 8 = hexPad 8 n := List.take_left' hlen
  have hwhile : (hexPad 8 n).takeWhile (isDigit 16) = hexPad 8 n :=
    List.takeWhile_eq_self_iff.mpr hdig
  have hdrop : (hexPad 8 n ++ rest).drop (hexPad 8 n).length = rest := List.drop_left
  rw [hcs] at htake hwhile hdrop
  have hnum : numeral 16 (c₀ :: c₁ :: cs) = n := hcs ▸ numeral_hexPad 8 n
  rw [scanHex, hcs, List.cons_append, List.cons_append,
    List.dropWhile_cons_of_neg (by simp [hspace])]
  simp only [List.cons_append] at htake hdrop
  simp only [h₀, if_true, List.head?_cons, Option.some.injEq, hx.1, hx.2, or_self, and_false,
    if_false, htake, hwhile, hdrop, hnum]

end Kernel
end DeepForensics
