/-
# Byte memory

A memory of bytes, and the 16-bit numbers that are stored in it in two bytes, the lower one
first.  What is written is read back, and nothing else changes.
-/
import DeepForensics.Lib.Wire

namespace DeepForensics
namespace Ram

/-- A memory of bytes. -/
abbrev Memory : Type := ℕ → UInt8

/-- The byte `v` at `a`. -/
def put8 (m : Memory) (a : ℕ) (v : UInt8) : Memory := Function.update m a v

/-- The 16-bit number at `a`. -/
def get16 (m : Memory) (a : ℕ) : ℕ := (m a).toNat + 256 * (m (a + 1)).toNat

/-- The 16-bit number `v` at `a`. -/
def put16 (m : Memory) (a v : ℕ) : Memory :=
  put8 (put8 m a (UInt8.ofNat v)) (a + 1) (UInt8.ofNat (v / 256))

section

variable {m m' : Memory} {a b i v : ℕ}

@[simp] lemma put8_self (m : Memory) (a : ℕ) (v : UInt8) : put8 m a v a = v :=
  Function.update_self ..

lemma put8_of_ne {v : UInt8} (h : i ≠ a) : put8 m a v i = m i := Function.update_of_ne h ..

lemma put8_eq_self {v : UInt8} (h : m a = v) : put8 m a v = m :=
  Function.update_eq_self_iff.mpr h.symm

lemma put16_of_ne (h : i ≠ a) (h' : i ≠ a + 1) : put16 m a v i = m i := by
  rw [put16, put8_of_ne h', put8_of_ne h]

lemma get16_congr (h : m' a = m a) (h' : m' (a + 1) = m (a + 1)) : get16 m' a = get16 m a := by
  rw [get16, h, h', get16]

lemma get16_put16 (m : Memory) (a v : ℕ) : get16 (put16 m a v) a = v % 2 ^ 16 := by
  rw [get16, put16, put8_self, put8_of_ne (by omega), put8_self, UInt8.toNat_ofNat',
    UInt8.toNat_ofNat']
  omega

lemma get16_put16_of_apart (h : a + 2 ≤ b ∨ b + 2 ≤ a) :
    get16 (put16 m b v) a = get16 m a :=
  get16_congr (put16_of_ne (by omega) (by omega)) (put16_of_ne (by omega) (by omega))

lemma get16_put8_of_apart {v : UInt8} (h : b < a ∨ a + 2 ≤ b) :
    get16 (put8 m b v) a = get16 m a :=
  get16_congr (put8_of_ne (by omega)) (put8_of_ne (by omega))

end

end Ram
end DeepForensics
