/-
# One's complement sums

In one's complement arithmetic the carry out of the top is added back at the bottom, so that sums
are sums modulo `m`, the largest value, except that `m` itself is kept: zero is reached from zero
only.  `rep m n` is the value that stands for `n`.
-/
import Mathlib.Algebra.Order.Ring.Nat
import Mathlib.Data.Nat.ModEq
import Mathlib.Tactic.Common

namespace DeepForensics
namespace OnesComp

variable {m a b k n : ℕ}

/-- The value among `0, …, m` that stands for `n`. -/
def rep (m n : ℕ) : ℕ := if n = 0 then 0 else (n - 1) % m + 1

@[simp] lemma rep_zero (m : ℕ) : rep m 0 = 0 := rfl

lemma rep_eq_zero : rep m n = 0 ↔ n = 0 := by
  rw [rep]
  split <;> simp_all

lemma rep_le (hm : 0 < m) (n : ℕ) : rep m n ≤ m := by
  rw [rep]
  split
  · exact Nat.zero_le m
  · exact Nat.mod_lt _ hm

lemma rep_modEq (m n : ℕ) : rep m n ≡ n [MOD m] := by
  rw [rep]
  split
  · next h => rw [h]
  · next h =>
    have hstep := (Nat.mod_modEq (n - 1) m).add_right 1
    rwa [Nat.sub_add_cancel (Nat.pos_of_ne_zero h)] at hstep

/-- Between 1 and `m` a residue has one member only. -/
lemma eq_rep (ha : a ≤ m) (h0 : a = 0 ↔ n = 0) (h : a ≡ n [MOD m]) : a = rep m n := by
  rcases Nat.eq_zero_or_pos a with rfl | hpos
  · rw [h0.mp rfl, rep_zero]
  have hn : n ≠ 0 := fun h => absurd (h0.mpr h) hpos.ne'
  have hm : 0 < m := hpos.trans_le ha
  have hpred : a - 1 ≡ n - 1 [MOD m] := by
    apply Nat.ModEq.add_right_cancel' 1
    rwa [Nat.sub_add_cancel hpos, Nat.sub_add_cancel (Nat.pos_of_ne_zero hn)]
  rw [rep, if_neg hn, ← hpred, Nat.mod_eq_of_lt (by omega), Nat.sub_add_cancel hpos]

lemma rep_congr (hm : 0 < m) (h0 : a = 0 ↔ b = 0) (h : a ≡ b [MOD m]) : rep m a = rep m b :=
  eq_rep (rep_le hm a) (rep_eq_zero.trans h0) ((rep_modEq m a).trans h)

lemma rep_of_le (h : n ≤ m) : rep m n = n := (eq_rep h Iff.rfl rfl).symm

lemma modEq_of_rep_eq (h : rep m a = rep m b) : a ≡ b [MOD m] :=
  (rep_modEq m a).symm.trans ((congrArg (· % m) h).trans (rep_modEq m b))

lemma rep_rep_add (hm : 0 < m) (a b : ℕ) : rep m (rep m a + b) = rep m (a + b) := by
  apply rep_congr hm
  · rw [Nat.add_eq_zero_iff, rep_eq_zero, Nat.add_eq_zero_iff]
  · exact (rep_modEq m a).add_right b

lemma rep_add_rep (hm : 0 < m) (a b : ℕ) : rep m (a + rep m b) = rep m (a + b) := by
  rw [Nat.add_comm, rep_rep_add hm, Nat.add_comm]

lemma rep_mul_rep (hm : 0 < m) (k a : ℕ) : rep m (k * rep m a) = rep m (k * a) := by
  apply rep_congr hm
  · rw [Nat.mul_eq_zero, rep_eq_zero, Nat.mul_eq_zero]
  · exact (rep_modEq m a).mul_left k

/-- A factor that is 1 modulo `m` can be dropped. -/
lemma rep_mul_of_modEq_one (hm : 0 < m) (hk : 0 < k) (h : k ≡ 1 [MOD m]) (a : ℕ) :
    rep m (k * a) = rep m a := by
  apply rep_congr hm
  · rw [Nat.mul_eq_zero]
    exact or_iff_right hk.ne'
  · simpa using h.mul_right a

/-- The end-around carry: what is above the word is added to the word. -/
lemma rep_fold (hm : 0 < m) (n : ℕ) : rep m (n / (m + 1) + n % (m + 1)) = rep m n := by
  have hn := Nat.div_add_mod n (m + 1)
  apply rep_congr hm
  · constructor
    · intro h
      rw [← hn, (Nat.add_eq_zero_iff.mp h).1, (Nat.add_eq_zero_iff.mp h).2]
      rfl
    · rintro rfl
      simp
  · have hone : m + 1 ≡ 1 [MOD m] := by simp [Nat.ModEq]
    have hstep := (hone.mul_right (n / (m + 1))).add_right (n % (m + 1))
    rw [hn, Nat.one_mul] at hstep
    exact hstep.symm

end OnesComp
end DeepForensics
