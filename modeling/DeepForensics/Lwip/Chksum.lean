/-
# Checksums

`inet_chksum.c` for a little-endian host.  The sum is taken over 16-bit words, as they are loaded
from memory, and where a buffer starts at an odd address the words are those at the even addresses:
the bytes of the result are swapped instead.  In the same way a pbuf of odd length shifts the words
of the pbufs after it.  With `MEM_ALIGNMENT` 1 both happen.

Modulo 65535 a swap of the two bytes is a multiplication by 256, and a 16-bit word further on in the
data has the weight 1.  So the sum is the number that the bytes are the base-256 digits of, taken
modulo 65535, and does not depend on how the bytes are stored.
-/
import DeepForensics.Lib.OnesComp
import Mathlib.Data.Nat.Digits.Defs
import Mathlib.Tactic.Ring

namespace DeepForensics
namespace Lwip

open OnesComp

/-- The bytes at a payload pointer, and whether the pointer is odd. -/
structure Payload where
  odd : Bool
  data : List UInt8
deriving DecidableEq, Repr

/-- The bytes of a chain of pbufs. -/
def flat (p : List Payload) : List UInt8 := p.flatMap Payload.data

/-- `SWAP_BYTES_IN_WORD`. -/
def swapBytesInWord (w : UInt32) : UInt32 := ((w &&& 0xff) <<< 8) ||| ((w &&& 0xff00) >>> 8)

/-- `FOLD_U32T`. -/
def foldU32t (u : UInt32) : UInt32 := (u >>> 16) + (u &&& 0x0000ffff)

def lwipHtons (n : UInt16) : UInt16 := ((n &&& 0x00ff) <<< 8) ||| ((n &&& 0xff00) >>> 8)

/-- The word with these two bytes, the first at the lower address. -/
def word (b₀ b₁ : UInt8) : UInt32 := b₀.toUInt32 + 256 * b₁.toUInt32

/-- The bulk of the data: the sum, and the bytes that are left over. -/
def sumWords (sum : UInt32) : List UInt8 → UInt32 × List UInt8
  | b₀ :: b₁ :: ps => sumWords (sum + word b₀ b₁) ps
  | ps => (sum, ps)

/-- `lwip_standard_chksum`, version 2. -/
def lwipStandardChksum (p : Payload) : UInt16 :=
  -- `t` has the end bytes: the byte in front of the first word is its upper one
  let (t₁, pb) := match p.odd, p.data with
    | true, b :: pb => (b, pb)
    | _, pb => (0, pb)
  let (sum, left) := sumWords 0 pb
  let t₀ := left.headD 0
  let sum := foldU32t (foldU32t (sum + word t₀ t₁))
  let sum := if p.odd then swapBytesInWord sum else sum
  sum.toUInt16

/-- One pbuf of the chain: `acc` and `swapped`. -/
def chksumStep (s : UInt32 × Bool) (q : Payload) : UInt32 × Bool :=
  let acc := foldU32t (s.1 + (lwipStandardChksum q).toUInt32)
  if q.data.length % 2 ≠ 0 then (swapBytesInWord acc, !s.2) else (acc, s.2)

/-- The loop over the chain that `inet_cksum_pseudo_base` and `inet_chksum_pbuf` share. -/
def chksumChain (acc : UInt32) (p : List Payload) : UInt32 :=
  let (acc, swapped) := p.foldl chksumStep (acc, false)
  if swapped then swapBytesInWord acc else acc

def inetCksumPseudoBase (p : List Payload) (proto : UInt8) (protoLen : UInt16) (acc : UInt32) :
    UInt16 :=
  let acc := chksumChain acc p
  let acc := acc + (lwipHtons proto.toUInt16).toUInt32
  let acc := acc + (lwipHtons protoLen).toUInt32
  let acc := foldU32t (foldU32t acc)
  ~~~(acc &&& 0xffff).toUInt16

/-- `inet_chksum_pseudo`.  The addresses are words as they are loaded from memory. -/
def inetChksumPseudo (p : List Payload) (proto : UInt8) (protoLen : UInt16) (src dest : UInt32) :
    UInt16 :=
  let acc : UInt32 := src &&& 0xffff
  let acc := acc + ((src >>> 16) &&& 0xffff)
  let acc := acc + (dest &&& 0xffff)
  let acc := acc + ((dest >>> 16) &&& 0xffff)
  let acc := foldU32t (foldU32t acc)
  inetCksumPseudoBase p proto protoLen acc

def inetChksum (p : Payload) : UInt16 := ~~~(lwipStandardChksum p)

def inetChksumPbuf (p : List Payload) : UInt16 := ~~~(chksumChain 0 p &&& 0xffff).toUInt16

/-- `IP_PROTO_TCP`. -/
def ipProtoTcp : UInt8 := 6

/-- A 16-bit field in memory. -/
def fieldBytes (c : UInt16) : List UInt8 := [c.toUInt8, (c >>> 8).toUInt8]

/-- `tcphdr->chksum = c`, for the TCP header at the start of a payload. -/
def setChksum (p : Payload) (c : UInt16) : Payload :=
  { p with data := p.data.take 16 ++ fieldBytes c ++ p.data.drop 18 }

/-- The checksum of a TCP segment, as `tcp_output_segment` and `tcp_input` ask for it. -/
def tcpChksum (p : List Payload) (src dest : UInt32) : UInt16 :=
  inetChksumPseudo p ipProtoTcp (UInt16.ofNat (flat p).length) src dest

/-- What `tcp_output_segment` does with the field: it is cleared, then the checksum is taken and
stored in it. -/
def outputChksum (hdr : Payload) (rest : List Payload) (src dest : UInt32) : List Payload :=
  let hdr := setChksum hdr 0
  setChksum hdr (tcpChksum (hdr :: rest) src dest) :: rest

/-! ## The sum of a byte string -/

/-- The number with the given base-256 digits. -/
def digitSum (bs : List UInt8) : ℕ := Nat.ofDigits 256 (bs.map UInt8.toNat)

@[simp] lemma digitSum_nil : digitSum [] = 0 := rfl

@[simp] lemma digitSum_cons (b : UInt8) (bs : List UInt8) :
    digitSum (b :: bs) = b.toNat + 256 * digitSum bs := by
  simp [digitSum, Nat.ofDigits_cons]

lemma digitSum_append (bs cs : List UInt8) :
    digitSum (bs ++ cs) = digitSum bs + 256 ^ bs.length * digitSum cs := by
  simp [digitSum, Nat.ofDigits_append]

/-- Two bytes further on, a digit has the same weight. -/
lemma rep16_even {k : ℕ} (hk : k % 2 = 0) (n : ℕ) : rep 65535 (256 ^ k * n) = rep 65535 n := by
  obtain ⟨j, rfl⟩ := Nat.dvd_of_mod_eq_zero hk
  apply rep_mul_of_modEq_one (by decide) (Nat.pow_pos (by decide))
  rw [pow_mul]
  simpa using (show 256 ^ 2 ≡ 1 [MOD 65535] by decide).pow j

lemma rep16_odd {k : ℕ} (hk : k % 2 = 1) (n : ℕ) :
    rep 65535 (256 ^ k * n) = rep 65535 (256 * n) := by
  obtain ⟨j, rfl⟩ : ∃ j, k = j + 1 := ⟨k - 1, by omega⟩
  rw [pow_succ, Nat.mul_assoc, rep16_even (by omega)]

/-- The carry of a sum of two words goes in at the bottom. -/
lemma rep16_word (n k : ℕ) : rep 65535 (n + 65536 * k) = rep 65535 (n + k) := by
  have hk : rep 65535 (65536 * k) = rep 65535 k :=
    rep_mul_of_modEq_one (by decide) (by decide) (by decide) k
  rw [← rep_add_rep (by decide), hk, rep_add_rep (by decide)]

/-! ## The operations on words -/

lemma toNat_and_ffff (u : UInt32) : (u &&& 0xffff).toNat = u.toNat % 65536 := by
  rw [UInt32.toNat_and]
  exact Nat.and_two_pow_sub_one_eq_mod u.toNat 16

lemma toNat_shiftRight_16 (u : UInt32) : (u >>> 16).toNat = u.toNat / 65536 := by
  rw [UInt32.toNat_shiftRight]
  exact Nat.shiftRight_eq_div_pow u.toNat 16

lemma toNat_foldU32t (u : UInt32) :
    (foldU32t u).toNat = u.toNat / 65536 + u.toNat % 65536 := by
  have hu := u.toNat_lt
  rw [foldU32t, UInt32.toNat_add, toNat_shiftRight_16, toNat_and_ffff]
  omega

lemma foldU32t_once {u : UInt32} (h : u.toNat ≤ 131070) :
    (foldU32t u).toNat = rep 65535 u.toNat := by
  have hfold := rep_fold (m := 65535) (by decide) u.toNat
  rw [← hfold, rep_of_le (by omega), toNat_foldU32t]

lemma foldU32t_twice (u : UInt32) : (foldU32t (foldU32t u)).toNat = rep 65535 u.toNat := by
  have hu := u.toNat_lt
  have hone := toNat_foldU32t u
  rw [foldU32t_once (by omega), hone]
  exact rep_fold (by decide) u.toNat

/-- Both `SWAP_BYTES_IN_WORD` and `lwip_htons`, on a 16-bit value. -/
lemma swap_bits {n : ℕ} (h : n < 65536) :
    (((n &&& 255) <<< 8) ||| ((n &&& 65280) >>> 8)) = n / 256 + 256 * (n % 256) := by
  have hlow : n &&& 255 = n % 256 := Nat.and_two_pow_sub_one_eq_mod n 8
  have hhigh : (n &&& 65280) >>> 8 = n / 256 := by
    rw [Nat.shiftRight_and_distrib, Nat.shiftRight_eq_div_pow]
    show n / 256 &&& 2 ^ 8 - 1 = _
    rw [Nat.and_two_pow_sub_one_eq_mod, Nat.mod_eq_of_lt (by omega)]
  rw [hlow, hhigh, ← Nat.shiftLeft_add_eq_or_of_lt (by omega), Nat.shiftLeft_eq]
  omega

lemma toNat_swapBytesInWord {w : UInt32} (h : w.toNat ≤ 65535) :
    (swapBytesInWord w).toNat = rep 65535 (256 * w.toNat) := by
  have hlow : w.toNat &&& 255 ≤ 255 := Nat.and_le_right
  have hval : (swapBytesInWord w).toNat = w.toNat / 256 + 256 * (w.toNat % 256) := by
    rw [← swap_bits (by omega)]
    simp only [swapBytesInWord, UInt32.toNat_or, UInt32.toNat_shiftLeft, UInt32.toNat_shiftRight,
      UInt32.toNat_and, UInt32.reduceToNat, Nat.reduceMod]
    rw [Nat.mod_eq_of_lt (by rw [Nat.shiftLeft_eq]; omega)]
  have hfold := rep_fold (m := 65535) (by decide) (256 * w.toNat)
  rw [← hfold, rep_of_le (by omega), hval]
  omega

lemma toNat_word (b₀ b₁ : UInt8) : (word b₀ b₁).toNat = b₀.toNat + 256 * b₁.toNat := by
  have h₀ := b₀.toNat_lt
  have h₁ := b₁.toNat_lt
  simp only [word, UInt32.toNat_add, UInt32.toNat_mul, UInt8.toNat_toUInt32, UInt32.reduceToNat]
  omega

lemma toNat_lwipHtons (n : UInt16) :
    (lwipHtons n).toNat = n.toNat / 256 + 256 * (n.toNat % 256) := by
  have hlow : n.toNat &&& 255 ≤ 255 := Nat.and_le_right
  rw [← swap_bits n.toNat_lt]
  simp only [lwipHtons, UInt16.toNat_or, UInt16.toNat_shiftLeft, UInt16.toNat_shiftRight,
    UInt16.toNat_and, UInt16.reduceToNat, Nat.reduceMod]
  rw [Nat.mod_eq_of_lt (by rw [Nat.shiftLeft_eq]; omega)]

lemma toNat_complement {w : UInt32} (h : w.toNat ≤ 65535) :
    (~~~(w &&& 0xffff).toUInt16).toNat = 65535 - w.toNat := by
  rw [UInt16.toNat_not, UInt32.toNat_toUInt16, toNat_and_ffff]
  show 2 ^ 16 - 1 - w.toNat % 65536 % 2 ^ 16 = _
  omega

/-! ## The loops -/

lemma sumWords_spec (sum : UInt32) (ps : List UInt8)
    (h : sum.toNat + 65535 * (ps.length / 2) < 2 ^ 32) :
    (sumWords sum ps).1.toNat ≤ sum.toNat + 65535 * (ps.length / 2) ∧
    (sumWords sum ps).2.length ≤ 1 ∧
    rep 65535 ((sumWords sum ps).1.toNat + digitSum (sumWords sum ps).2) =
      rep 65535 (sum.toNat + digitSum ps) := by
  induction sum, ps using sumWords.induct with
  | case1 sum b₀ b₁ ps ih =>
    have h₀ := b₀.toNat_lt
    have h₁ := b₁.toNat_lt
    have hlen : (b₀ :: b₁ :: ps).length / 2 = ps.length / 2 + 1 := by
      simp only [List.length_cons]
      omega
    have hsum : (sum + word b₀ b₁).toNat = sum.toNat + (b₀.toNat + 256 * b₁.toNat) := by
      rw [UInt32.toNat_add, toNat_word]
      omega
    obtain ⟨hle, hleft, hrep⟩ := ih (by omega)
    rw [sumWords]
    refine ⟨by omega, hleft, ?_⟩
    rw [hrep, hsum, digitSum_cons, digitSum_cons, ← rep16_word]
    congr 1
    ring
  | case2 sum ps hps =>
    rw [sumWords.eq_def]
    match ps, hps with
    | [], _ => exact ⟨by simp, by simp, rfl⟩
    | [b], _ => exact ⟨by simp, by simp, rfl⟩
    | b₀ :: b₁ :: ps, hps => exact absurd rfl (hps b₀ b₁ ps)

/-- The words, and the end bytes as one more word. -/
lemma sum_ends (pb : List UInt8) (t₁ : UInt8) (h : pb.length ≤ 0x20000)
    (ht : pb.length = 0x20000 → t₁ = 0) :
    (foldU32t (foldU32t ((sumWords 0 pb).1 + word ((sumWords 0 pb).2.headD 0) t₁))).toNat =
      rep 65535 (digitSum pb + 256 * t₁.toNat) := by
  have h₁ := t₁.toNat_lt
  obtain ⟨hle, hleft, hrep⟩ := sumWords_spec 0 pb (by simp; omega)
  have hend : (word ((sumWords 0 pb).2.headD 0) t₁).toNat =
      digitSum (sumWords 0 pb).2 + 256 * t₁.toNat := by
    rw [toNat_word]
    match (sumWords 0 pb).2, hleft with
    | [], _ => rfl
    | [b], _ => simp
  have hsmall : digitSum (sumWords 0 pb).2 ≤ 255 := by
    match (sumWords 0 pb).2, hleft with
    | [], _ => simp
    | [b], _ =>
      have := b.toNat_lt
      simp
      omega
  have hbound : (sumWords 0 pb).1.toNat + 256 * t₁.toNat + 255 < 2 ^ 32 := by
    rcases h.eq_or_lt with heq | hlt
    · rw [ht heq]
      simp at hle ⊢
      omega
    · simp at hle
      omega
  rw [foldU32t_twice, UInt32.toNat_add, hend, Nat.mod_eq_of_lt (by omega), ← Nat.add_assoc,
    ← rep_rep_add (by decide), hrep, rep_rep_add (by decide)]
  simp

/-- The checksum of a buffer does not depend on where the buffer is. -/
lemma toNat_lwipStandardChksum (p : Payload) (h : p.data.length ≤ 0x20000) :
    (lwipStandardChksum p).toNat = rep 65535 (digitSum p.data) := by
  have hlow : ∀ {w : UInt32} {n : ℕ}, w.toNat = rep 65535 n → w.toUInt16.toNat = rep 65535 n := by
    intro w n hw
    rw [UInt32.toNat_toUInt16, hw]
    exact Nat.mod_eq_of_lt (Nat.lt_succ_of_le (rep_le (by decide) n))
  obtain ⟨odd, data⟩ := p
  match odd, data with
  | false, data =>
    have hsum := sum_ends data 0 h (fun _ => rfl)
    exact hlow hsum
  | true, [] => rfl
  | true, b :: pb =>
    have hlen : pb.length + 1 ≤ 0x20000 := h
    have hsum := sum_ends pb b (by omega) (by omega)
    have hswap := toNat_swapBytesInWord (hsum.trans_le (rep_le (by decide) _))
    rw [hsum, rep_mul_rep (by decide)] at hswap
    have hvalue : rep 65535 (256 * (digitSum pb + 256 * b.toNat)) =
        rep 65535 (digitSum (b :: pb)) := by
      rw [digitSum_cons, Nat.add_comm b.toNat, ← rep16_word]
      congr 1
      ring
    exact hlow (hswap.trans hvalue)

/-- `s` is the state of the loop after the bytes `bs`, from the value `a` on.  After an odd number
of bytes the sum is kept with its bytes swapped. -/
structure Summed (a : ℕ) (bs : List UInt8) (s : UInt32 × Bool) : Prop where
  acc : s.1.toNat = rep 65535 (256 ^ bs.length * (a + digitSum bs))
  swapped : s.2 = decide (bs.length % 2 = 1)

/-- Bytes that come after others are shifted by their number. -/
lemma rep16_shift (k l x y : ℕ) :
    rep 65535 (256 ^ (k + l) * (x + 256 ^ k * y)) = rep 65535 (256 ^ l * (256 ^ k * x + y)) := by
  have hsplit : 256 ^ (k + l) * (x + 256 ^ k * y) =
      256 ^ l * (256 ^ k * x + 256 ^ (2 * k) * y) := by ring
  have hinner : rep 65535 (256 ^ k * x + 256 ^ (2 * k) * y) = rep 65535 (256 ^ k * x + y) := by
    rw [← rep_add_rep (by decide), rep16_even (by omega), rep_add_rep (by decide)]
  rw [hsplit, ← rep_mul_rep (by decide), hinner, rep_mul_rep (by decide)]

lemma Summed.step {a : ℕ} {bs : List UInt8} {s : UInt32 × Bool} (h : Summed a bs s) {q : Payload}
    (hq : q.data.length ≤ 0x20000) : Summed a (bs ++ q.data) (chksumStep s q) := by
  have hacc := rep_le (m := 65535) (by decide) (256 ^ bs.length * (a + digitSum bs))
  have hsum := rep_le (m := 65535) (by decide) (digitSum q.data)
  have hadd : (s.1 + (lwipStandardChksum q).toUInt32).toNat =
      rep 65535 (256 ^ bs.length * (a + digitSum bs)) + rep 65535 (digitSum q.data) := by
    rw [UInt32.toNat_add, UInt16.toNat_toUInt32, toNat_lwipStandardChksum q hq, h.acc]
    omega
  have hfold : (foldU32t (s.1 + (lwipStandardChksum q).toUInt32)).toNat =
      rep 65535 (256 ^ bs.length * (a + digitSum bs) + digitSum q.data) := by
    rw [foldU32t_once (by omega), hadd, rep_rep_add (by decide), rep_add_rep (by decide)]
  have htarget : rep 65535 (256 ^ (bs ++ q.data).length * (a + digitSum (bs ++ q.data))) =
      rep 65535
        (256 ^ q.data.length * (256 ^ bs.length * (a + digitSum bs) + digitSum q.data)) := by
    rw [digitSum_append, List.length_append, ← Nat.add_assoc, rep16_shift]
  rw [chksumStep]
  rcases Nat.mod_two_eq_zero_or_one q.data.length with heven | hodd
  · rw [if_neg (by omega)]
    constructor
    · rw [htarget, rep16_even heven]
      exact hfold
    · rw [h.swapped, List.length_append]
      exact decide_eq_decide.mpr (by omega)
  · rw [if_pos (by omega)]
    constructor
    · rw [htarget, rep16_odd hodd]
      have hswap := toNat_swapBytesInWord (hfold.trans_le (rep_le (by decide) _))
      rw [hfold, rep_mul_rep (by decide)] at hswap
      exact hswap
    · rw [h.swapped, List.length_append, ← decide_not]
      exact decide_eq_decide.mpr (by omega)

lemma Summed.foldl {a : ℕ} {bs : List UInt8} {s : UInt32 × Bool} (h : Summed a bs s)
    {p : List Payload} (hp : ∀ q ∈ p, q.data.length ≤ 0x20000) :
    Summed a (bs ++ flat p) (p.foldl chksumStep s) := by
  induction p generalizing bs s with
  | nil => simpa [flat] using h
  | cons q p ih =>
    have hstep := ih (h.step (hp q (List.mem_cons_self ..))) fun r hr =>
      hp r (List.mem_cons_of_mem _ hr)
    simpa [flat] using hstep

/-- The sum over a chain is the sum over its bytes. -/
lemma toNat_chksumChain (acc : UInt32) (hacc : acc.toNat ≤ 65535) {p : List Payload}
    (hp : ∀ q ∈ p, q.data.length ≤ 0x20000) :
    (chksumChain acc p).toNat = rep 65535 (acc.toNat + digitSum (flat p)) := by
  have hstart : Summed acc.toNat [] (acc, false) := by
    refine ⟨?_, rfl⟩
    simp [rep_of_le hacc]
  have hend := hstart.foldl hp
  rw [List.nil_append] at hend
  show (if (p.foldl chksumStep (acc, false)).2 then swapBytesInWord (p.foldl chksumStep _).1 else
    (p.foldl chksumStep _).1).toNat = _
  rw [hend.swapped]
  rcases Nat.mod_two_eq_zero_or_one (flat p).length with heven | hodd
  · rw [if_neg (by simp [heven]), hend.acc, rep16_even heven]
  · rw [if_pos (by simp [hodd]),
      toNat_swapBytesInWord (hend.acc.trans_le (rep_le (by decide) _)), hend.acc,
      rep_mul_rep (by decide), ← Nat.mul_assoc, ← pow_succ', rep16_even (by omega)]

/-! ## The pseudo header -/

/-- The bytes of an address in memory. -/
def addrBytes (a : UInt32) : List UInt8 :=
  [a.toUInt8, (a >>> 8).toUInt8, (a >>> 16).toUInt8, (a >>> 24).toUInt8]

/-- The header that the checksum of a TCP segment covers beyond the segment. -/
def pseudoHeader (proto : UInt8) (protoLen : UInt16) (src dest : UInt32) : List UInt8 :=
  addrBytes src ++ addrBytes dest ++ [0, proto, (protoLen >>> 8).toUInt8, protoLen.toUInt8]

lemma digitSum_addrBytes (a : UInt32) : digitSum (addrBytes a) = a.toNat := by
  have ha := a.toNat_lt
  simp only [addrBytes, digitSum_cons, digitSum_nil, UInt32.toNat_toUInt8, UInt32.toNat_shiftRight,
    UInt32.reduceToNat, Nat.reduceMod, Nat.shiftRight_eq_div_pow]
  omega

lemma length_pseudoHeader (proto : UInt8) (protoLen : UInt16) (src dest : UInt32) :
    (pseudoHeader proto protoLen src dest).length = 12 := rfl

lemma digitSum_pseudoHeader (proto : UInt8) (protoLen : UInt16) (src dest : UInt32) :
    digitSum (pseudoHeader proto protoLen src dest) =
      src.toNat + 256 ^ 4 * (dest.toNat + 256 ^ 4 * ((lwipHtons proto.toUInt16).toNat +
        256 ^ 2 * (lwipHtons protoLen).toNat)) := by
  have hp := proto.toNat_lt
  have hl := protoLen.toNat_lt
  rw [pseudoHeader, List.append_assoc, digitSum_append, digitSum_append, digitSum_addrBytes,
    digitSum_addrBytes, toNat_lwipHtons, toNat_lwipHtons]
  simp only [addrBytes, List.length_cons, List.length_nil, digitSum_cons, digitSum_nil,
    UInt16.toNat_toUInt8, UInt16.toNat_shiftRight, UInt8.toNat_toUInt16, UInt16.reduceToNat,
    Nat.reduceMod, Nat.shiftRight_eq_div_pow, UInt8.reduceToNat]
  omega

/-- The fields of the pseudo header may be added as words. -/
lemma rep16_pseudoHeader (proto : UInt8) (protoLen : UInt16) (src dest : UInt32) (n : ℕ) :
    rep 65535 (digitSum (pseudoHeader proto protoLen src dest) + 256 ^ 12 * n) =
      rep 65535 (src.toNat + dest.toNat + (lwipHtons proto.toUInt16).toNat +
        (lwipHtons protoLen).toNat + n) := by
  rw [digitSum_pseudoHeader]
  apply rep_congr (by decide)
  · omega
  · rw [Nat.ModEq]
    omega

lemma toNat_inetCksumPseudoBase {p : List Payload} (hp : ∀ q ∈ p, q.data.length ≤ 0x20000)
    {acc : UInt32} (hacc : acc.toNat ≤ 65535) (proto : UInt8) (protoLen : UInt16) :
    (inetCksumPseudoBase p proto protoLen acc).toNat =
      65535 - rep 65535 (acc.toNat + (lwipHtons proto.toUInt16).toNat +
        (lwipHtons protoLen).toNat + digitSum (flat p)) := by
  have hchain := toNat_chksumChain acc hacc hp
  have hle := rep_le (m := 65535) (by decide) (acc.toNat + digitSum (flat p))
  have h₁ := (lwipHtons proto.toUInt16).toNat_lt
  have h₂ := (lwipHtons protoLen).toNat_lt
  rw [inetCksumPseudoBase, toNat_complement, foldU32t_twice]
  · rw [UInt32.toNat_add, UInt32.toNat_add, UInt16.toNat_toUInt32, UInt16.toNat_toUInt32, hchain,
      Nat.mod_eq_of_lt (by omega), Nat.mod_eq_of_lt (by omega), Nat.add_assoc,
      rep_rep_add (by decide)]
    congr 2
    omega
  · rw [foldU32t_twice]
    exact rep_le (by decide) _

/-- The checksum of a segment is that of the bytes of the pseudo header and of the segment. -/
lemma toNat_inetChksumPseudo {p : List Payload} (hp : ∀ q ∈ p, q.data.length ≤ 0x20000)
    (proto : UInt8) (protoLen : UInt16) (src dest : UInt32) :
    (inetChksumPseudo p proto protoLen src dest).toNat =
      65535 - rep 65535 (digitSum (pseudoHeader proto protoLen src dest ++ flat p)) := by
  rw [inetChksumPseudo, toNat_inetCksumPseudoBase hp (by
    rw [foldU32t_twice]; exact rep_le (by decide) _), foldU32t_twice, digitSum_append,
    length_pseudoHeader, rep16_pseudoHeader, Nat.add_assoc, Nat.add_assoc,
    rep_rep_add (by decide)]
  have hhalf : ∀ a : UInt32, a.toNat / 65536 % 65536 = a.toNat / 65536 := fun a =>
    Nat.mod_eq_of_lt (by have := a.toNat_lt; omega)
  have hnowrap : ∀ a b c d : ℕ, a < 65536 → b < 65536 → c < 65536 → d < 65536 →
      (((a + b) % 2 ^ 32 + c) % 2 ^ 32 + d) % 2 ^ 32 = a + b + c + d := by
    intro a b c d ha hb hc hd
    omega
  simp only [UInt32.toNat_add, toNat_and_ffff, toNat_shiftRight_16, hhalf]
  rw [hnowrap _ _ _ _ (Nat.mod_lt _ (by decide)) (by have := src.toNat_lt; omega)
    (Nat.mod_lt _ (by decide)) (by have := dest.toNat_lt; omega)]
  congr 1
  apply rep_congr (by decide)
  · omega
  · rw [Nat.ModEq]
    omega

lemma toNat_inetChksum {p : Payload} (h : p.data.length ≤ 0x20000) :
    (inetChksum p).toNat = 65535 - rep 65535 (digitSum p.data) := by
  rw [inetChksum, UInt16.toNat_not, toNat_lwipStandardChksum p h]
  rfl

lemma toNat_inetChksumPbuf {p : List Payload} (hp : ∀ q ∈ p, q.data.length ≤ 0x20000) :
    (inetChksumPbuf p).toNat = 65535 - rep 65535 (digitSum (flat p)) := by
  have hchain := toNat_chksumChain 0 (by decide) hp
  rw [show (0 : UInt32).toNat = 0 from rfl, Nat.zero_add] at hchain
  rw [inetChksumPbuf, toNat_complement (hchain.trans_le (rep_le (by decide) _)), hchain]

lemma length_le_flat {p : List Payload} {q : Payload} (hq : q ∈ p) :
    q.data.length ≤ (flat p).length := by
  induction p with
  | nil => cases hq
  | cons r p ih =>
    rw [flat, List.flatMap_cons, List.length_append]
    rcases List.mem_cons.mp hq with rfl | hq
    · omega
    · have := ih hq
      rw [flat] at this
      omega

lemma lengths_le {p : List Payload} (h : (flat p).length ≤ 65515) :
    ∀ q ∈ p, q.data.length ≤ 0x20000 := fun q hq => by
  have := length_le_flat hq
  omega

/-- The checksum of a chain of pbufs, with or without a pseudo header, is the checksum of the bytes
in one buffer: neither the addresses of the pbufs nor the way the bytes are divided among them make
a difference. -/
theorem chksum_of_bytes (p : List Payload) (proto : UInt8) (protoLen : UInt16) (src dest : UInt32)
    (odd : Bool) (h : (flat p).length ≤ 65515) :
    inetChksumPseudo p proto protoLen src dest =
      inetChksum ⟨odd, pseudoHeader proto protoLen src dest ++ flat p⟩ ∧
    inetChksumPbuf p = inetChksum ⟨odd, flat p⟩ := by
  have hp := lengths_le h
  constructor
  · apply UInt16.toNat_inj.mp
    rw [toNat_inetChksumPseudo hp, toNat_inetChksum]
    rw [List.length_append, length_pseudoHeader]
    omega
  · apply UInt16.toNat_inj.mp
    rw [toNat_inetChksumPbuf hp, toNat_inetChksum (show (flat p).length ≤ _ by omega)]

/-- Three pbufs of odd length, two of them at odd addresses. -/
theorem chksum_of_bytes_oddPieces :
    inetChksumPbuf [⟨true, [1, 2, 3]⟩, ⟨false, [4]⟩, ⟨true, [5, 6, 7, 8, 9]⟩] =
      inetChksum ⟨false, [1, 2, 3, 4, 5, 6, 7, 8, 9]⟩ :=
  (chksum_of_bytes _ 6 9 0 0 false (by decide)).2

/-! ## A segment on its way -/

lemma digitSum_fieldBytes (c : UInt16) : digitSum (fieldBytes c) = c.toNat := by
  have hc := c.toNat_lt
  simp only [fieldBytes, digitSum_cons, digitSum_nil, UInt16.toNat_toUInt8, UInt16.toNat_shiftRight,
    UInt16.reduceToNat, Nat.reduceMod, Nat.shiftRight_eq_div_pow]
  omega

lemma length_setChksum {p : Payload} (h : 20 ≤ p.data.length) (c : UInt16) :
    (setChksum p c).data.length = p.data.length := by
  simp only [setChksum, fieldBytes, List.length_append, List.length_take, List.length_drop,
    List.length_cons, List.length_nil]
  omega

/-- The field has the weight of an even place. -/
lemma digitSum_setChksum {p : Payload} (h : 20 ≤ p.data.length) (c : UInt16) :
    digitSum (setChksum p c).data = digitSum (setChksum p 0).data + 256 ^ 16 * c.toNat := by
  have htake : (p.data.take 16).length = 16 := by
    rw [List.length_take]
    omega
  simp only [setChksum, List.append_assoc, digitSum_append, digitSum_fieldBytes, htake]
  simp only [fieldBytes, List.length_cons, List.length_nil, show (0 : UInt16).toNat = 0 from rfl]
  ring

lemma setChksum_setChksum {p : Payload} (h : 20 ≤ p.data.length) (c d : UInt16) :
    setChksum (setChksum p c) d = setChksum p d := by
  have htake : (p.data.take 16).length = 16 := by
    rw [List.length_take]
    omega
  have hfield : (p.data.take 16 ++ fieldBytes c).length = 18 := by
    rw [List.length_append, htake]
    rfl
  have hdrop : (setChksum p c).data.drop 18 = p.data.drop 18 := by
    exact List.drop_left' hfield
  have hfront : (setChksum p c).data.take 16 = p.data.take 16 := by
    rw [setChksum, List.append_assoc]
    exact List.take_left' htake
  rw [setChksum, hdrop, hfront]
  rfl

lemma digitSum_set {bs : List UInt8} {i : ℕ} (hi : i < bs.length) (b : UInt8) :
    digitSum (bs.set i b) + 256 ^ i * bs[i].toNat = digitSum bs + 256 ^ i * b.toNat := by
  induction bs generalizing i with
  | nil => cases hi
  | cons a bs ih =>
    cases i with
    | zero =>
      simp
      omega
    | succ i =>
      have := ih (Nat.lt_of_succ_lt_succ hi)
      simp only [List.set_cons_succ, digitSum_cons, List.getElem_cons_succ, pow_succ',
        Nat.mul_assoc]
      omega

/-- The sum determines each byte, given the others. -/
lemma eq_of_rep16_set {ph bs : List UInt8} {i : ℕ} (hi : i < bs.length) {b : UInt8}
    (h : rep 65535 (digitSum (ph ++ bs.set i b)) = rep 65535 (digitSum (ph ++ bs))) :
    bs[i] = b := by
  have hcop : ∀ k, Nat.Coprime 65535 (256 ^ k) := fun k => Nat.Coprime.pow_right k (by decide)
  rw [digitSum_append, digitSum_append] at h
  have hsum : digitSum (bs.set i b) ≡ digitSum bs [MOD 65535] :=
    Nat.ModEq.cancel_left_of_coprime (hcop ph.length)
      (Nat.ModEq.add_left_cancel' _ (modEq_of_rep_eq h))
  have hweight : 256 ^ i * bs[i].toNat ≡ 256 ^ i * b.toNat [MOD 65535] := by
    apply hsum.add_left_cancel
    rw [digitSum_set hi b]
  have hbyte := Nat.ModEq.cancel_left_of_coprime (hcop i) hweight
  rw [Nat.ModEq, Nat.mod_eq_of_lt (by have := bs[i].toNat_lt; omega),
    Nat.mod_eq_of_lt (by have := b.toNat_lt; omega)] at hbyte
  exact UInt8.toNat_inj.mp hbyte

lemma flat_cons (q : Payload) (p : List Payload) : flat (q :: p) = q.data ++ flat p := by
  simp [flat]

/-- The sum of a segment with its checksum in place is zero, which is all ones. -/
lemma rep16_outputChksum {hdr : Payload} {rest : List Payload} (src dest : UInt32)
    (hhdr : 20 ≤ hdr.data.length) (hlen : (flat (hdr :: rest)).length ≤ 65515) :
    (flat (outputChksum hdr rest src dest)).length = (flat (hdr :: rest)).length ∧
    rep 65535 (digitSum (pseudoHeader ipProtoTcp (UInt16.ofNat (flat (hdr :: rest)).length) src dest
      ++ flat (outputChksum hdr rest src dest))) = 65535 := by
  set c := tcpChksum (setChksum hdr 0 :: rest) src dest with hc
  have hzero : (flat (setChksum hdr 0 :: rest)).length = (flat (hdr :: rest)).length := by
    rw [flat_cons, flat_cons, List.length_append, List.length_append, length_setChksum hhdr]
  have hsealed : outputChksum hdr rest src dest = setChksum hdr c :: rest := by
    rw [outputChksum, setChksum_setChksum hhdr]
  have hvalue := toNat_inetChksumPseudo (lengths_le (hzero.trans_le hlen)) ipProtoTcp
    (UInt16.ofNat (flat (setChksum hdr 0 :: rest)).length) src dest
  rw [← tcpChksum, ← hc, hzero] at hvalue
  set ph := pseudoHeader ipProtoTcp (UInt16.ofNat (flat (hdr :: rest)).length) src dest
  have hrep := rep_le (m := 65535) (by decide) (digitSum (ph ++ flat (setChksum hdr 0 :: rest)))
  have hplace : digitSum (ph ++ flat (setChksum hdr c :: rest)) =
      digitSum (ph ++ flat (setChksum hdr 0 :: rest)) + 256 ^ 28 * c.toNat := by
    simp only [flat_cons, digitSum_append, digitSum_setChksum hhdr c, length_setChksum hhdr]
    rw [show ph.length = 12 from rfl]
    ring
  rw [hsealed]
  refine ⟨?_, ?_⟩
  · rw [flat_cons, flat_cons, List.length_append, List.length_append, length_setChksum hhdr]
  · rw [hplace, ← rep_add_rep (by decide), rep16_even (by decide), rep_add_rep (by decide),
      ← rep_rep_add (by decide), hvalue, Nat.add_sub_cancel' hrep, rep_of_le le_rfl]

/-- A TCP segment with the checksum that `tcp_output_segment` has put in passes the test of
`tcp_input`, in whatever pbufs it arrives.  With any one byte changed it does not. -/
theorem segment_checked {hdr : Payload} {rest : List Payload} {src dest : UInt32}
    (hhdr : 20 ≤ hdr.data.length) (hlen : (flat (hdr :: rest)).length ≤ 65515)
    (r : List Payload) :
    (flat r = flat (outputChksum hdr rest src dest) → tcpChksum r src dest = 0) ∧
    ∀ (i : ℕ) (b : UInt8) (hi : i < (flat (outputChksum hdr rest src dest)).length),
      (flat (outputChksum hdr rest src dest))[i] ≠ b →
      flat r = (flat (outputChksum hdr rest src dest)).set i b → tcpChksum r src dest ≠ 0 := by
  obtain ⟨hlength, hones⟩ := rep16_outputChksum src dest hhdr hlen
  have hzero : ∀ {bs : List UInt8}, flat r = bs → bs.length = (flat (hdr :: rest)).length →
      (tcpChksum r src dest).toNat = 65535 - rep 65535 (digitSum (pseudoHeader ipProtoTcp
        (UInt16.ofNat (flat (hdr :: rest)).length) src dest ++ bs)) := by
    intro bs hr hbs
    rw [tcpChksum, toNat_inetChksumPseudo (lengths_le (by rw [hr]; omega)), hr, hbs]
  constructor
  · intro hr
    apply UInt16.toNat_inj.mp
    rw [hzero hr hlength, hones]
    rfl
  · intro i b hi hne hr hacc
    have hval := hzero hr (by rw [List.length_set, hlength])
    rw [hacc, show (0 : UInt16).toNat = 0 from rfl] at hval
    apply hne
    apply eq_of_rep16_set hi
    exact ((rep_le (by decide) _).antisymm (Nat.le_of_sub_eq_zero hval.symm)).trans hones.symm

/-- A segment of 24 bytes whose last byte is in a pbuf of its own. -/
theorem segment_checked_twoPbufs :
    (flat [⟨true, List.replicate 23 7⟩, ⟨false, [1]⟩]).length ≤ 65515 ∧
    tcpChksum (outputChksum ⟨true, List.replicate 23 7⟩ [⟨false, [1]⟩] 0x0200a8c0 0x0100a8c0)
      0x0200a8c0 0x0100a8c0 = 0 :=
  ⟨by decide, (segment_checked (by decide) (by decide) _).1 rfl⟩

end Lwip
end DeepForensics
