/-
# The copy of physical memory in closed form

The loop of `copy_data_from_memory` has three exits: the length asked for, the end of the buffer
and the last readable address.  Whichever comes first, the loop copies the bytes before it and
leaves the rest of the buffer, which still holds the text of the request, as it was.
-/
import DeepForensics.Kernel.Module

namespace DeepForensics
namespace Kernel

open Wire

section CopyLoop

variable (mem : ℕ → UInt8) {start : ℤ} (length bufferLength : ℤ)

/-- The number of bytes the loop copies when it starts at `count = 0`. -/
def copyCount (start length bufferLength : ℤ) : ℕ :=
  (min (min length bufferLength) (lastReadableAddress - start)).toNat

/-- A byte is copied if it comes before all three exits. -/
lemma lt_copyCount_iff {start length bufferLength : ℤ} {i : ℕ} :
    i < copyCount start length bufferLength ↔
      (i : ℤ) < length ∧ (i : ℤ) < bufferLength ∧ start + i < lastReadableAddress := by
  unfold copyCount
  omega

lemma copyCount_le {start length : ℤ} {n : ℕ} : copyCount start length n ≤ n := by
  unfold copyCount
  omega

/-- All the bytes asked for are copied if the last readable address does not cut them off. -/
lemma copyCount_of_le {start : ℤ} {length : ℕ} (hle : length ≤ size)
    (h : start + length ≤ lastReadableAddress) : copyCount start length size = length := by
  unfold copyCount
  omega

lemma copyCount_eq_length_iff {start : ℤ} {length : ℕ} (hpos : 1 ≤ length) (hle : length ≤ size) :
    copyCount start length size = length ↔ start + length ≤ lastReadableAddress := by
  constructor
  · -- the last byte asked for is copied
    intro hcount
    obtain ⟨-, -, hlast⟩ := lt_copyCount_iff.mp (hcount ▸ Nat.sub_one_lt_of_lt hpos)
    omega
  · exact copyCount_of_le hle

/-- The last readable address is an `int`. -/
lemma lastReadableAddress_lt : lastReadableAddress < 2 ^ 31 := by decide

/-- The bytes of physical memory that stand at `start .. start + n - 1`. -/
def dump (mem : ℕ → UInt8) (start : ℤ) (c n : ℕ) : List UInt8 :=
  (List.range' c n).map fun i : ℕ => mem (physAddr (start + i))

@[simp] lemma dump_length (mem : ℕ → UInt8) (start : ℤ) (c n : ℕ) :
    (dump mem start c n).length = n := by
  simp [dump]

lemma dump_succ (mem : ℕ → UInt8) (start : ℤ) (c n : ℕ) :
    dump mem start c (n + 1) = mem (physAddr (start + c)) :: dump mem start (c + 1) n := by
  simp [dump, List.range'_succ]

/-- From an address that is not negative on, these are the bytes at the addresses that follow. -/
lemma dump_of_nonneg (mem : ℕ → UInt8) {a n : ℕ} (h : a + n ≤ 2 ^ 64) :
    dump mem a 0 n = (List.range n).map fun i => mem (a + i) := by
  rw [dump, List.range_eq_range']
  refine List.map_congr_left fun i hi => ?_
  rw [List.mem_range'_1] at hi
  rw [physAddr_of_nonneg (by omega) (by omega)]
  congr 1

/-- An iteration that copies: all three exits are passed. -/
lemma copyLoop_of_lt (hs : -2 ^ 31 ≤ start) {c : ℕ}
    (hc : c < copyCount start length bufferLength) (k : ℕ) (data : List UInt8) :
    copyLoop mem start length bufferLength (k + 1) c data
      = ⟨.add (start + c) :: .deref (physAddr (start + c)) :: .write c ::
          (copyLoop mem start length bufferLength k (c + 1)
            (data.set c (mem (physAddr (start + c))))).trace,
        (copyLoop mem start length bufferLength k (c + 1)
            (data.set c (mem (physAddr (start + c))))).data,
        (copyLoop mem start length bufferLength k (c + 1)
            (data.set c (mem (physAddr (start + c))))).count⟩ := by
  obtain ⟨hlength, hbuffer, hr⟩ := lt_copyCount_iff.mp hc
  have hsum : intAdd start c = start + c :=
    intAdd_of_range (by omega) (hr.trans lastReadableAddress_lt)
  rw [copyLoop, if_pos ⟨hlength, hbuffer⟩, hsum, if_neg (not_le.mpr hr)]

/-- An iteration that leaves the loop.  The sum it may still form is in the range of `int`. -/
lemma copyLoop_of_ge (hs : -2 ^ 31 ≤ start) {c : ℕ} (hsum : start + c < 2 ^ 31)
    (hc : copyCount start length bufferLength ≤ c) (k : ℕ) (data : List UInt8) :
    (copyLoop mem start length bufferLength k c data).data = data ∧
      (copyLoop mem start length bufferLength k c data).count = c ∧
      ∀ x ∈ (copyLoop mem start length bufferLength k c data).trace, x = .add (start + c) := by
  cases k with
  | zero => simp [copyLoop]
  | succ k =>
    rw [copyLoop, intAdd_of_range (by omega) hsum]
    by_cases hl : (c : ℤ) < length ∧ (c : ℤ) < bufferLength
    · have hr : lastReadableAddress ≤ start + c := by
        by_contra hlt
        exact not_lt.mpr hc (lt_copyCount_iff.mpr ⟨hl.1, hl.2, not_le.mp hlt⟩)
      rw [if_pos hl, if_pos hr]
      simp
    · rw [if_neg hl]
      simp

/-- **The loop in closed form.**  With the fuel the buffer gives it, the loop copies
`copyCount` bytes, leaves the rest of the buffer as it was, and touches nothing but the
bytes it copies; the induction is on the fuel, and `c` bytes have been copied so far. -/
lemma copyLoop_spec (hs : -2 ^ 31 ≤ start) :
    ∀ (k c : ℕ) (data : List UInt8), start + c < 2 ^ 31 → bufferLength ≤ c + k →
      bufferLength ≤ data.length → c ≤ data.length →
      ∃ m, m = copyCount start length bufferLength - c ∧
        (copyLoop mem start length bufferLength k c data).count = c + m ∧
        (copyLoop mem start length bufferLength k c data).data
          = data.take c ++ (dump mem start c m ++ data.drop (c + m)) ∧
        (∀ x ∈ (copyLoop mem start length bufferLength k c data).trace,
          (∃ i, c ≤ i ∧ i < c + m ∧
            (x = .add (start + i) ∨ x = .deref (physAddr (start + i)) ∨ x = .write i)) ∨
          x = .add (start + (c + m : ℕ)) ∧ start + (c + m : ℕ) < 2 ^ 31) ∧
        ∀ i, c ≤ i → i < c + m →
          .deref (physAddr (start + i)) ∈
            (copyLoop mem start length bufferLength k c data).trace := by
  intro k
  induction k with
  | zero =>
    intro c data hsum hk hbuf hcd
    have hstop : copyCount start length bufferLength ≤ c := by
      by_contra hlt
      obtain ⟨-, hbuffer, -⟩ := lt_copyCount_iff.mp (not_le.mp hlt)
      omega
    obtain ⟨h1, h2, h3⟩ := copyLoop_of_ge mem length bufferLength hs hsum hstop 0 data
    exact ⟨0, by omega, by simp [h2], by simp [h1, dump], fun x hx => by simp [copyLoop] at hx,
      fun i hi hi' => by omega⟩
  | succ k ih =>
    intro c data hsum hk hbuf hcd
    by_cases hlt : c < copyCount start length bufferLength
    · -- one byte is copied, and the induction gives the other `m`
      obtain ⟨-, hcb, hr⟩ := lt_copyCount_iff.mp hlt
      have hclen : c < data.length := by omega
      have hnext : start + (c + 1 : ℕ) < 2 ^ 31 := by
        have hlast := lastReadableAddress_lt
        push_cast
        omega
      obtain ⟨m, hm, hcnt, hdata, htr, hmem⟩ := ih (c + 1)
        (data.set c (mem (physAddr (start + c)))) hnext (by push_cast; omega)
        (by simpa using hbuf) (by simpa using hclen)
      rw [copyLoop_of_lt mem length bufferLength hs hlt]
      refine ⟨m + 1, by omega, by simp only [hcnt]; omega, ?_, ?_, ?_⟩
      · have hdrop : (data.set c (mem (physAddr (start + c)))).drop (c + 1 + m)
            = data.drop (c + (m + 1)) := by
          rw [List.drop_set_of_lt (by omega)]
          congr 1
          omega
        simp only [hdata, take_succ_set hclen, hdrop, dump_succ]
        simp
      · intro x hx
        have hcm : c + 1 + m = c + (m + 1) := by omega
        simp only [List.mem_cons] at hx
        rcases hx with rfl | rfl | rfl | hx
        · exact Or.inl ⟨c, le_rfl, by omega, Or.inl rfl⟩
        · exact Or.inl ⟨c, le_rfl, by omega, Or.inr (Or.inl rfl)⟩
        · exact Or.inl ⟨c, le_rfl, by omega, Or.inr (Or.inr rfl)⟩
        · rcases htr x hx with ⟨i, hi1, hi2, hxi⟩ | hlast
          · exact Or.inl ⟨i, by omega, by omega, hxi⟩
          · rw [hcm] at hlast
            exact Or.inr hlast
      · intro i hi1 hi2
        simp only [List.mem_cons]
        rcases Nat.eq_or_lt_of_le hi1 with rfl | hlt'
        · exact Or.inr (Or.inl rfl)
        · exact Or.inr (Or.inr (Or.inr (hmem i hlt' (by omega))))
    · -- the loop is left at once
      obtain ⟨h1, h2, h3⟩ := copyLoop_of_ge mem length bufferLength hs hsum (not_lt.mp hlt) (k + 1)
        data
      refine ⟨0, by omega, by simp [h2], by simp [h1, dump], fun x hx => Or.inr ?_,
        fun i hi hi' => by omega⟩
      exact ⟨by simpa using h3 x hx, by simpa using hsum⟩

end CopyLoop

/-- The accesses of the copy of `n` bytes. -/
def OfCopy (start : ℤ) (n : ℕ) (x : Access) : Prop :=
  (∃ i, i < n ∧ (x = .add (start + i) ∨ x = .deref (physAddr (start + i)) ∨ x = .write i)) ∨
    x = .add (start + n) ∧ start + n < 2 ^ 31

section OfCopy

variable {start : ℤ} {n : ℕ}

lemma ofCopy_add {v : ℤ} : OfCopy start n (.add v) ↔
    (∃ i < n, v = start + i) ∨ v = start + n ∧ start + n < 2 ^ 31 := by
  simp [OfCopy]

lemma ofCopy_deref {a : ℕ} : OfCopy start n (.deref a) ↔ ∃ i < n, a = physAddr (start + i) := by
  simp [OfCopy]

lemma ofCopy_write {i : ℕ} : OfCopy start n (.write i) ↔ i < n := by
  simp [OfCopy]

end OfCopy

/-- **The copy as a whole**, with the accesses of the bytes copied and of nothing else. -/
theorem copyDataFromMemory_spec (mem : ℕ → UInt8) {start : ℤ} (h1 : -2 ^ 31 ≤ start)
    (h2 : start < 2 ^ 31) (length : ℤ) (data : List UInt8) :
    ∃ c, copyDataFromMemory mem start length data data.length = c ∧
      c.count = copyCount start length data.length ∧
      c.data = dump mem start 0 c.count ++ data.drop c.count ∧
      (∀ x ∈ c.trace, OfCopy start c.count x) ∧
      ∀ i, i < c.count → .deref (physAddr (start + i)) ∈ c.trace := by
  obtain ⟨n, hn, hcount, hdata, htrace, hderef⟩ := copyLoop_spec mem length data.length h1
    data.length 0 data (by simpa using h2) (by simp) le_rfl (Nat.zero_le _)
  rw [Nat.zero_add] at hcount
  rw [Nat.sub_zero] at hn
  simp only [Nat.zero_add, Nat.zero_le, true_and, List.take_zero, List.nil_append, true_implies]
    at hdata htrace hderef
  refine ⟨_, rfl, ?_⟩
  rw [copyDataFromMemory, Int.toNat_natCast, hcount]
  exact ⟨hn, hdata, htrace, hderef⟩

/-! ## The closed form -/

section ClosedForm

variable (mem : ℕ → UInt8) (start length bufferLength : ℤ)

/-- One more unit of fuel changes nothing once the fuel covers what is left of the buffer: the loop
is left through one of its own exits. -/
lemma copyLoop_fuel_succ :
    ∀ (k c : ℕ) (data : List UInt8), bufferLength ≤ c + k →
      copyLoop mem start length bufferLength (k + 1) c data
        = copyLoop mem start length bufferLength k c data := by
  intro k
  induction k with
  | zero =>
    intro c data hk
    have hstop : ¬ ((c : ℤ) < length ∧ (c : ℤ) < bufferLength) := by omega
    rw [copyLoop, copyLoop, if_neg hstop]
  | succ k ih =>
    intro c data hk
    rw [copyLoop, copyLoop]
    dsimp only
    rw [ih (c + 1) _ (by push_cast at hk ⊢; omega)]

/-- The result of the loop does not depend on the fuel. -/
lemma copyLoop_fuel {k : ℕ} (hk : bufferLength.toNat ≤ k) (data : List UInt8) :
    copyLoop mem start length bufferLength k 0 data
      = copyDataFromMemory mem start length data bufferLength := by
  induction k, hk using Nat.le_induction with
  | base => rfl
  | succ k hk ih => rw [copyLoop_fuel_succ mem start length bufferLength k 0 data (by omega), ih]

end ClosedForm

/-- The copy `c` of `n` bytes from `start` on into the buffer `data`. -/
structure Copies (mem : ℕ → UInt8) (start : ℤ) (data : List UInt8) (n : ℕ) (c : Copy) : Prop where
  count : c.count = n
  copied : ∀ i < n, c.data[i]? = some (mem (physAddr (start + i)))
  kept : ∀ i, n ≤ i → c.data[i]? = data[i]?
  /-- The signed sums do not overflow. -/
  add : ∀ v, .add v ∈ c.trace → -2 ^ 31 ≤ v ∧ v < 2 ^ 31
  deref : ∀ a, .deref a ∈ c.trace ↔ ∃ i < n, a = physAddr (start + i)
  write : ∀ i, .write i ∈ c.trace → i < n

/-- What the loop leaves and touches, read byte by byte. -/
lemma copies_copyDataFromMemory (mem : ℕ → UInt8) {start : ℤ} (h1 : -2 ^ 31 ≤ start)
    (h2 : start < 2 ^ 31) (length : ℤ) (data : List UInt8) :
    Copies mem start data (copyCount start length data.length)
      (copyDataFromMemory mem start length data data.length) := by
  obtain ⟨c, hc, hn, hdata, htrace, hderef⟩ := copyDataFromMemory_spec mem h1 h2 length data
  rw [hc, ← hn]
  constructor
  · rfl
  · intro i hi
    rw [hdata, List.getElem?_append_left (by rw [dump_length]; exact hi), dump, List.getElem?_map,
      List.getElem?_range' hi]
    simp
  · intro i hi
    rw [hdata, List.getElem?_append_right (by rw [dump_length]; exact hi), dump_length,
      List.getElem?_drop, Nat.add_sub_cancel' hi]
  · -- the sums are those of the bytes copied, and at most the one that leaves the loop
    intro v hv
    rcases ofCopy_add.mp (htrace _ hv) with ⟨i, hi, rfl⟩ | ⟨rfl, hlast⟩
    · rw [hn] at hi
      obtain ⟨-, -, hr⟩ := lt_copyCount_iff.mp hi
      exact ⟨by omega, hr.trans lastReadableAddress_lt⟩
    · exact ⟨by omega, hlast⟩
  · intro a
    constructor
    · exact fun ha => ofCopy_deref.mp (htrace _ ha)
    · rintro ⟨i, hi, rfl⟩
      exact hderef i hi
  · exact fun i hi => ofCopy_write.mp (htrace _ hi)

/-- **`copy_data_from_memory` in closed form.**  For every `int` as the start, every length and
every buffer the loop ends, with any amount of fuel that covers the buffer, and has copied as many
bytes as the length, the buffer and the last readable address allow. -/
theorem copy_closed_form (mem : ℕ → UInt8) {start : ℤ} (h1 : -2 ^ 31 ≤ start)
    (h2 : start < 2 ^ 31) (length : ℤ) (data : List UInt8) :
    ∃ n : ℕ, (n : ℤ) = min (max length 0) (min data.length (max 0 (lastReadableAddress - start))) ∧
      Copies mem start data n (copyDataFromMemory mem start length data data.length) ∧
      ∀ k, data.length ≤ k →
        copyLoop mem start length data.length k 0 data
          = copyDataFromMemory mem start length data data.length := by
  refine ⟨copyCount start length data.length, ?_, copies_copyDataFromMemory mem h1 h2 length data,
    fun k hk => copyLoop_fuel mem start length data.length hk data⟩
  unfold copyCount
  omega

/-- Two bytes before the last readable address only two of three bytes are copied. -/
theorem copy_closed_form_last :
    ∃ n : ℕ, n = 2 ∧ Copies (fun a => UInt8.ofNat a) 0x37bfdffd [7, 8, 9] n
      (copyDataFromMemory (fun a => UInt8.ofNat a) 0x37bfdffd 3 [7, 8, 9] 3) := by
  obtain ⟨n, hn, hcopies, -⟩ := copy_closed_form (fun a => UInt8.ofNat a)
    (show (-2 ^ 31 : ℤ) ≤ 0x37bfdffd by decide) (by decide) 3 [7, 8, 9]
  refine ⟨n, ?_, hcopies⟩
  have hmin : (n : ℤ) = 2 := hn.trans (by decide)
  exact_mod_cast hmin

end Kernel
end DeepForensics
