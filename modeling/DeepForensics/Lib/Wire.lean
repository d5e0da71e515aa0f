/-
# Bytes, machine words and numerals

What programs put on a wire: the bytes of a 32-bit word in little-endian order, the values
of the fixed-width integer types of C, and numerals as lists of ASCII characters.  A printed
numeral is padded to a width; a scanner reads back the value of the digits it meets.
-/
import Mathlib.Data.List.TakeWhile
import Mathlib.Data.Nat.Digits.Lemmas
import Mathlib.Tactic.Common
import Mathlib.Tactic.NormNum
import Mathlib.Tactic.IntervalCases
import Mathlib.Tactic.Ring

namespace Wire

/-! ## Fixed-width integers -/

/-- The value kept by a 16-bit unsigned variable. -/
def u16 (n : ℕ) : ℕ := n % 2 ^ 16

/-- The value kept by a 32-bit unsigned variable. -/
def u32 (n : ℤ) : ℕ := (n % 2 ^ 32).toNat

/-- The signed value of a 32-bit pattern, in two's complement. -/
def int32 (n : ℕ) : ℤ :=
  if n % 2 ^ 32 < 2 ^ 31 then (n % 2 ^ 32 : ℕ) else (n % 2 ^ 32 : ℕ) - 2 ^ 32

lemma u16_of_lt {n : ℕ} (h : n < 2 ^ 16) : u16 n = n := Nat.mod_eq_of_lt h

lemma u32_lt (n : ℤ) : u32 n < 2 ^ 32 := by
  unfold u32
  omega

lemma u32_natCast {n : ℕ} (h : n < 2 ^ 32) : u32 n = n := by
  unfold u32
  omega

/-- The conversion to the signed type and back. -/
lemma u32_int32 {n : ℕ} (h : n < 2 ^ 32) : u32 (int32 n) = n := by
  unfold u32 int32
  split <;> omega

lemma int32_of_lt {n : ℕ} (h : n < 2 ^ 31) : int32 n = n := by
  unfold int32
  rw [Nat.mod_eq_of_lt (by omega), if_pos h]

lemma int32_of_ge {n : ℕ} (h : 2 ^ 31 ≤ n) (h' : n < 2 ^ 32) : int32 n = n - 2 ^ 32 := by
  unfold int32
  rw [Nat.mod_eq_of_lt h', if_neg (by omega)]

/-- The signed reading of a 32-bit pattern is the conversion to the signed type. -/
lemma int32_toNat (a : UInt32) : int32 a.toNat = a.toInt32.toInt := by
  have hlt : a.toNat < 2 ^ 32 := a.toNat_lt
  have htoInt : a.toInt32.toInt = if 2 * a.toNat < 2 ^ 32 then (a.toNat : ℤ)
      else (a.toNat : ℤ) - (2 ^ 32 : ℕ) := rfl
  rw [htoInt]
  by_cases h : a.toNat < 2 ^ 31
  · rw [int32_of_lt h, if_pos (by omega)]
  · rw [int32_of_ge (not_lt.mp h) hlt, if_neg (by omega)]
    norm_num

/-! ## Words in little-endian order -/

/-- The four bytes of a 32-bit word. -/
def le32 (n : ℕ) : List UInt8 :=
  [UInt8.ofNat n, UInt8.ofNat (n / 256), UInt8.ofNat (n / 65536), UInt8.ofNat (n / 16777216)]

/-- The word at byte offset `4 * i`; bytes that are not there count as zero. -/
def word (bs : List UInt8) (i : ℕ) : ℕ :=
  (bs.getD (4 * i) 0).toNat + 256 * (bs.getD (4 * i + 1) 0).toNat
    + 65536 * (bs.getD (4 * i + 2) 0).toNat + 16777216 * (bs.getD (4 * i + 3) 0).toNat

lemma word_lt (bs : List UInt8) (i : ℕ) : word bs i < 2 ^ 32 := by
  have h0 := (bs.getD (4 * i) 0).toNat_lt
  have h1 := (bs.getD (4 * i + 1) 0).toNat_lt
  have h2 := (bs.getD (4 * i + 2) 0).toNat_lt
  have h3 := (bs.getD (4 * i + 3) 0).toNat_lt
  unfold word
  omega

@[simp] lemma le32_length (n : ℕ) : (le32 n).length = 4 := rfl

lemma le32_value {n : ℕ} (h : n < 2 ^ 32) :
    n % 256 + 256 * (n / 256 % 256) + 65536 * (n / 65536 % 256)
      + 16777216 * (n / 16777216 % 256) = n := by
  omega

/-- Reading back the first word that was written. -/
lemma word_zero_le32 {n : ℕ} (h : n < 2 ^ 32) (bs : List UInt8) : word (le32 n ++ bs) 0 = n := by
  simpa [word, le32] using le32_value h

/-- Reading back the second word that was written. -/
lemma word_one_le32 {n : ℕ} (m : ℕ) (h : n < 2 ^ 32) (bs : List UInt8) :
    word (le32 m ++ (le32 n ++ bs)) 1 = n := by
  simpa [word, le32] using le32_value h

/-! ## Buffers and terminated strings -/

/-- The first `n` bytes of a list, read one by one. -/
lemma map_getD_range (data : List UInt8) {n : ℕ} (h : n ≤ data.length) :
    (List.range n).map (fun i => data.getD i 0) = data.take n := by
  refine List.ext_getElem (by simp [h]) fun i h1 h2 => ?_
  have hi : i < data.length := by
    rw [List.length_take] at h2
    omega
  simp [hi]

/-- A buffer that is filled from the left, after a write at `i`. -/
lemma take_succ_set {l : List UInt8} {i : ℕ} (hi : i < l.length) (b : UInt8) :
    (l.set i b).take (i + 1) = l.take i ++ [b] := by
  rw [List.set_eq_take_cons_drop b hi, List.take_append]
  simp [Nat.min_eq_left hi.le]

/-- A text without a zero is a string of its own. -/
lemma takeWhile_text {t : List UInt8} (ht : 0 ∉ t) : t.takeWhile (· ≠ 0) = t := by
  refine List.takeWhile_eq_self_iff.mpr fun c hc => ?_
  have hne : c ≠ 0 := by
    rintro rfl
    exact ht hc
  simpa using hne

/-- The string at the beginning of a buffer ends at the first zero. -/
lemma takeWhile_string {t : List UInt8} (ht : 0 ∉ t) (rest : List UInt8) :
    (t ++ 0 :: rest).takeWhile (· ≠ 0) = t := by
  have hpos : ∀ c ∈ t, (fun c : UInt8 => decide (c ≠ 0)) c = true :=
    List.takeWhile_eq_self_iff.mp (takeWhile_text ht)
  rw [List.takeWhile_append_of_pos hpos, List.takeWhile_cons_of_neg (by simp), List.append_nil]

/-- `strlen` of the C string at the beginning of a buffer. -/
def strlen (s : List UInt8) : ℕ := (s.takeWhile (· ≠ 0)).length

lemma strlen_string {t : List UInt8} (ht : 0 ∉ t) (rest : List UInt8) :
    strlen (t ++ 0 :: rest) = t.length := by
  rw [strlen, takeWhile_string ht]

/-! ## Numerals -/

/-- The code of an ASCII character. -/
def ch (c : Char) : UInt8 := UInt8.ofNat c.toNat

/-- The codes of a text. -/
def str (cs : List Char) : List UInt8 := cs.map ch

/-- The digit with a given value, in lower case. -/
def digitChar (d : ℕ) : UInt8 := if d < 10 then UInt8.ofNat (48 + d) else UInt8.ofNat (87 + d)

/-- The value of a digit or letter, up to base 36; both cases count. -/
def digitVal (c : UInt8) : Option ℕ :=
  if 48 ≤ c.toNat ∧ c.toNat ≤ 57 then some (c.toNat - 48)
  else if 97 ≤ c.toNat ∧ c.toNat ≤ 122 then some (c.toNat - 87)
  else if 65 ≤ c.toNat ∧ c.toNat ≤ 90 then some (c.toNat - 55)
  else none

/-- Is the character a digit of the base? -/
def isDigit (base : ℕ) (c : UInt8) : Bool :=
  match digitVal c with
  | some d => d < base
  | none => false

/-- The value of a string of digits, the most significant first. -/
def numeral (base : ℕ) (cs : List UInt8) : ℕ :=
  cs.foldl (fun acc c => acc * base + (digitVal c).getD 0) 0

/-- The hexadecimal numeral of a number, padded with zeros to at least `w` characters. -/
def hexPad (w n : ℕ) : List UInt8 :=
  List.replicate (w - (Nat.digits 16 n).length) (digitChar 0)
    ++ ((Nat.digits 16 n).map digitChar).reverse

lemma digitVal_digitChar : ∀ d < 16, digitVal (digitChar d) = some d := by decide

lemma isDigit_digitChar : ∀ d < 16, isDigit 16 (digitChar d) = true := by decide

/-- The decimal digits are the characters `0` to `9`. -/
lemma toNat_of_isDigit {c : UInt8} (h : isDigit 10 c = true) : 48 ≤ c.toNat ∧ c.toNat ≤ 57 := by
  simp only [isDigit, digitVal] at h
  split_ifs at h with h1 h2 h3
  · exact h1
  · simp only [decide_eq_true_eq] at h
    omega
  · simp only [decide_eq_true_eq] at h
    omega

lemma isDigit_mono {b b' : ℕ} (hb : b ≤ b') {c : UInt8} (h : isDigit b c = true) :
    isDigit b' c = true := by
  simp only [isDigit] at h ⊢
  split at h
  · simp only [decide_eq_true_eq] at h ⊢
    omega
  · cases h

/-- The numeral of a padded number: the digits of `Nat.digits` followed by zeros, reversed. -/
lemma hexPad_eq (w n : ℕ) :
    hexPad w n = ((Nat.digits 16 n
      ++ List.replicate (w - (Nat.digits 16 n).length) 0).map digitChar).reverse := by
  simp [hexPad]

lemma hexPad_mem {w n : ℕ} {c : UInt8} (h : c ∈ hexPad w n) : ∃ d < 16, c = digitChar d := by
  rw [hexPad_eq, List.mem_reverse, List.mem_map] at h
  obtain ⟨d, hd, rfl⟩ := h
  refine ⟨d, ?_, rfl⟩
  rcases List.mem_append.mp hd with hd | hd
  · exact Nat.digits_lt_base (by norm_num) hd
  · rw [List.eq_of_mem_replicate hd]
    norm_num

lemma notMem_hexPad {c : UInt8} (hc : ∀ d < 16, digitChar d ≠ c) (w n : ℕ) : c ∉ hexPad w n := by
  intro h
  obtain ⟨d, hd, heq⟩ := hexPad_mem h
  exact hc d hd heq.symm

/-- A number below `16 ^ w` fills exactly the width `w`: the padding adds what is missing and
there is no digit too many. -/
lemma hexPad_length {w n : ℕ} (h : n < 16 ^ w) : (hexPad w n).length = w := by
  have hle : (Nat.digits 16 n).length ≤ w :=
    (Nat.digits_length_le_iff (by norm_num) n).mpr h
  simp only [hexPad, List.length_append, List.length_replicate, List.length_reverse,
    List.length_map]
  omega

/-- Scanning digits is Horner's rule, which `Nat.ofDigits` states from the other end. -/
lemma numeral_map_digitChar {ds : List ℕ} (h : ∀ d ∈ ds, d < 16) :
    numeral 16 (ds.map digitChar).reverse = Nat.ofDigits 16 ds := by
  induction ds with
  | nil => rfl
  | cons d ds ih =>
    have hd : digitVal (digitChar d) = some d := digitVal_digitChar d (h d (by simp))
    have ih' := ih fun x hx => h x (by simp [hx])
    unfold numeral at ih' ⊢
    rw [List.map_cons, List.reverse_cons, List.foldl_append, ih', Nat.ofDigits_cons]
    simp only [List.foldl_cons, List.foldl_nil, hd, Option.getD_some]
    ring

/-- **A printed number is read back.** -/
theorem numeral_hexPad (w n : ℕ) : numeral 16 (hexPad w n) = n := by
  rw [hexPad_eq, numeral_map_digitChar, Nat.ofDigits_append_replicate_zero, Nat.ofDigits_digits]
  intro d hd
  rcases List.mem_append.mp hd with hd | hd
  · exact Nat.digits_lt_base (by norm_num) hd
  · rw [List.eq_of_mem_replicate hd]
    norm_num

example : hexPad 8 0x1000 = str ['0', '0', '0', '0', '1', '0', '0', '0'] := by decide

end Wire
