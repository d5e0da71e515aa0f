/-
# Times as differences

A list of events in which each event has the time that passes after the one before it.  `dues`
gives the absolute times.  Nothing has to be said about their order: they are sorted because the
differences are natural numbers.
-/
import Mathlib.Algebra.Order.Ring.Nat
import Mathlib.Data.List.Basic
import Mathlib.Tactic.Common

namespace DeepForensics
namespace Deltas

variable {α : Type*}

/-- The absolute times, counted from `b` on. -/
def dues : ℕ → List (ℕ × α) → List (ℕ × α)
  | _, [] => []
  | b, (n, x) :: l => (b + n, x) :: dues (b + n) l

/-- The time of the last event, or `b` without one. -/
def finish (b : ℕ) (l : List (ℕ × α)) : ℕ := b + (l.map Prod.fst).sum

/-- All events `k` later. -/
def postpone (k : ℕ) (q : List (ℕ × α)) : List (ℕ × α) := q.map fun e => (e.1 + k, e.2)

@[simp] lemma dues_nil (b : ℕ) : dues b ([] : List (ℕ × α)) = [] := rfl

@[simp] lemma dues_cons (b n : ℕ) (x : α) (l : List (ℕ × α)) :
    dues b ((n, x) :: l) = (b + n, x) :: dues (b + n) l := rfl

@[simp] lemma finish_nil (b : ℕ) : finish b ([] : List (ℕ × α)) = b := by simp [finish]

@[simp] lemma finish_cons (b n : ℕ) (x : α) (l : List (ℕ × α)) :
    finish b ((n, x) :: l) = finish (b + n) l := by
  simp [finish, Nat.add_assoc]

@[simp] lemma postpone_nil (k : ℕ) : postpone k ([] : List (ℕ × α)) = [] := rfl

@[simp] lemma postpone_zero (q : List (ℕ × α)) : postpone 0 q = q := by simp [postpone]

lemma mem_postpone {k d : ℕ} {x : α} {q : List (ℕ × α)} :
    (d, x) ∈ postpone k q ↔ ∃ c, (c, x) ∈ q ∧ d = c + k := by
  simp only [postpone, List.mem_map, Prod.mk.injEq]
  constructor
  · rintro ⟨⟨c, y⟩, hc, rfl, rfl⟩
    exact ⟨c, hc, rfl⟩
  · rintro ⟨c, hc, rfl⟩
    exact ⟨(c, x), hc, rfl, rfl⟩

lemma dues_map_snd (b : ℕ) (l : List (ℕ × α)) : (dues b l).map Prod.snd = l.map Prod.snd := by
  induction l generalizing b with
  | nil => rfl
  | cons e l ih =>
    obtain ⟨n, x⟩ := e
    simp [ih]

lemma dues_add (b k : ℕ) (l : List (ℕ × α)) : dues (b + k) l = postpone k (dues b l) := by
  induction l generalizing b with
  | nil => rfl
  | cons e l ih =>
    obtain ⟨n, x⟩ := e
    rw [dues_cons, dues_cons, Nat.add_right_comm, ih]
    rfl

lemma finish_of_mem {b d : ℕ} {x : α} {l : List (ℕ × α)} (h : (d, x) ∈ dues b l) :
    b ≤ d ∧ d ≤ finish b l := by
  induction l generalizing b with
  | nil => cases h
  | cons e l ih =>
    obtain ⟨n, y⟩ := e
    rw [dues_cons, List.mem_cons] at h
    rw [finish_cons]
    rcases h with h | h
    · obtain ⟨rfl, rfl⟩ := Prod.mk.inj h
      exact ⟨Nat.le_add_right .., Nat.le_add_right ..⟩
    · obtain ⟨hle, hfin⟩ := ih h
      exact ⟨le_trans (Nat.le_add_right ..) hle, hfin⟩

lemma dues_append (b : ℕ) (l r : List (ℕ × α)) :
    dues b (l ++ r) = dues b l ++ dues (finish b l) r := by
  induction l generalizing b with
  | nil => rfl
  | cons e l ih =>
    obtain ⟨n, x⟩ := e
    simp [ih]

/-- An event put before another one takes its time from that one. -/
lemma dues_insert (b : ℕ) (l r : List (ℕ × α)) {k m : ℕ} (x y : α) (hk : k ≤ m) :
    dues b (l ++ (k, x) :: (m - k, y) :: r)
      = dues b l ++ (finish b l + k, x) :: dues (finish b l) ((m, y) :: r) := by
  rw [dues_append, dues_cons, dues_cons, dues_cons, Nat.add_assoc, Nat.add_sub_cancel' hk]

/-- If it takes `j` more than that, everything behind it is `j` later. -/
lemma dues_front (b j : ℕ) (q : List (ℕ × α)) {k m : ℕ} (x y : α) (hk : k ≤ m) :
    dues b ((k + j, x) :: (m - k, y) :: q)
      = (b + (k + j), x) :: postpone j (dues b ((m, y) :: q)) := by
  have hsum : b + (k + j) + (m - k) = b + m + j := by omega
  rw [dues_cons, dues_cons, hsum, dues_add, dues_cons]
  rfl

end Deltas
end DeepForensics
