/-
# The list of timeouts as an agenda

The entries of the list have differences of times.  Counted from the time that
`timeouts_last_time` stands for, they are the times at which the timers are due; this is the agenda.

`sys_timeout` inserts a new entry in one of four ways (`Insertion`), and not always where a list
sorted by time would have it.  If the first timer is due later than `msecs` after
`timeouts_last_time`, whatever time it is, the new entry goes to the front, and all others are
postponed by the time that has passed since then.  If every timer is overdue the new entry is
counted from the last of them, not from now.
-/
import DeepForensics.Lwip.Timeouts
import DeepForensics.Lib.Deltas
import Mathlib.Algebra.Order.BigOperators.Group.List
import Mathlib.Data.List.Perm.Basic

namespace DeepForensics
namespace Lwip

open Deltas

/-- The entries with their times as natural numbers. -/
def entries (l : List SysTimeo) : List (ℕ × Handler) := l.map fun t => (t.time.toNat, t.h)

@[simp] lemma entries_nil : entries [] = [] := rfl

@[simp] lemma entries_cons (t : SysTimeo) (l : List SysTimeo) :
    entries (t :: l) = (t.time.toNat, t.h) :: entries l := rfl

/-- The timers with the times at which they are due, if `timeouts_last_time` is the time `L`. -/
def agenda (L : ℕ) (s : Timeouts) : List (ℕ × Handler) := dues L (entries s.nextTimeout)

/-- What `sys_timeout` does to the entries, `diff` after `timeouts_last_time`. -/
inductive Insertion (diff msecs : ℕ) (h : Handler) :
    List (ℕ × Handler) → List (ℕ × Handler) → Prop
  | front {n : ℕ} {x : Handler} {q : List (ℕ × Handler)} (hn : msecs < n) :
      Insertion diff msecs h ((n, x) :: q) ((msecs + diff, h) :: (n - msecs, x) :: q)
  | between {n k m : ℕ} {x y : Handler} {l r : List (ℕ × Handler)} (hn : n ≤ msecs)
      (hk : finish n l + k = msecs + diff) (hm : k < m) :
      Insertion diff msecs h ((n, x) :: (l ++ (m, y) :: r))
        ((n, x) :: (l ++ (k, h) :: (m - k, y) :: r))
  | last {n k : ℕ} {x : Handler} {l : List (ℕ × Handler)} (hn : n ≤ msecs)
      (hk : finish n l + k = msecs + diff) (hle : k ≤ msecs) :
      Insertion diff msecs h ((n, x) :: l) ((n, x) :: (l ++ [(k, h)]))
  | late {n : ℕ} {x : Handler} {l : List (ℕ × Handler)} (hn : n ≤ msecs)
      (hlt : finish n l < diff) :
      Insertion diff msecs h ((n, x) :: l) ((n, x) :: (l ++ [(msecs + n, h)]))

namespace Insertion

variable {diff msecs : ℕ} {h : Handler} {q q' : List (ℕ × Handler)}

lemma perm (hi : Insertion diff msecs h q q') :
    (q'.map Prod.snd).Perm (h :: q.map Prod.snd) := by
  cases hi with
  | front hn => exact List.Perm.refl _
  | between hn hk hm =>
    simp only [List.map_cons, List.map_append]
    exact (List.perm_middle.cons _).trans (List.Perm.swap ..)
  | last hn hk hle =>
    simp only [List.map_cons, List.map_append, List.map_nil]
    exact (List.perm_append_singleton ..).cons _ |>.trans (List.Perm.swap ..)
  | late hn hlt =>
    simp only [List.map_cons, List.map_append, List.map_nil]
    exact (List.perm_append_singleton ..).cons _ |>.trans (List.Perm.swap ..)

lemma of_single {n : ℕ} {x : Handler} (hi : Insertion diff msecs h [(n, x)] q') :
    (msecs < n ∧ q' = [(msecs + diff, h), (n - msecs, x)]) ∨
      ∃ k, n ≤ msecs ∧ (n + k = msecs + diff ∧ k ≤ msecs ∨ n < diff ∧ k = msecs + n) ∧
        q' = [(n, x), (k, h)] := by
  generalize hq : [(n, x)] = q at hi
  cases hi with
  | front hn =>
    obtain ⟨heq, rfl⟩ := List.cons.inj hq
    obtain ⟨rfl, rfl⟩ := Prod.mk.inj heq
    exact Or.inl ⟨hn, rfl⟩
  | between hn hk hm => exact absurd (List.cons.inj hq).2.symm (by simp)
  | @last n k x l hn hk hle =>
    obtain ⟨heq, rfl⟩ := List.cons.inj hq
    rw [finish_nil] at hk
    obtain ⟨rfl, rfl⟩ := Prod.mk.inj heq
    exact Or.inr ⟨k, hn, Or.inl ⟨hk, hle⟩, rfl⟩
  | late hn hlt =>
    obtain ⟨heq, rfl⟩ := List.cons.inj hq
    rw [finish_nil] at hlt
    obtain ⟨rfl, rfl⟩ := Prod.mk.inj heq
    exact Or.inr ⟨_, hn, Or.inr ⟨hlt, rfl⟩, rfl⟩

lemma of_pair {n₁ n₂ : ℕ} {x₁ x₂ : Handler}
    (hi : Insertion diff msecs h [(n₁, x₁), (n₂, x₂)] q') :
    (msecs < n₁ ∧ q' = [(msecs + diff, h), (n₁ - msecs, x₁), (n₂, x₂)]) ∨
      (∃ k, n₁ ≤ msecs ∧ n₁ + k = msecs + diff ∧ k < n₂ ∧
        q' = [(n₁, x₁), (k, h), (n₂ - k, x₂)]) ∨
      ∃ k, n₁ ≤ msecs ∧ (n₁ + n₂ + k = msecs + diff ∧ k ≤ msecs ∨
        n₁ + n₂ < diff ∧ k = msecs + n₁) ∧ q' = [(n₁, x₁), (n₂, x₂), (k, h)] := by
  generalize hq : [(n₁, x₁), (n₂, x₂)] = q at hi
  cases hi with
  | front hn =>
    obtain ⟨heq, rfl⟩ := List.cons.inj hq
    obtain ⟨rfl, rfl⟩ := Prod.mk.inj heq
    exact Or.inl ⟨hn, rfl⟩
  | @between n k m x y l r hn hk hm =>
    obtain ⟨heq, htail⟩ := List.cons.inj hq
    obtain ⟨rfl, rfl⟩ := Prod.mk.inj heq
    cases l with
    | cons e l => exact absurd (List.cons.inj htail).2.symm (by simp)
    | nil =>
      obtain ⟨heq, rfl⟩ := List.cons.inj htail
      obtain ⟨rfl, rfl⟩ := Prod.mk.inj heq
      exact Or.inr (Or.inl ⟨k, hn, hk, hm, rfl⟩)
  | @last n k x l hn hk hle =>
    obtain ⟨heq, rfl⟩ := List.cons.inj hq
    obtain ⟨rfl, rfl⟩ := Prod.mk.inj heq
    rw [finish_cons, finish_nil] at hk
    exact Or.inr (Or.inr ⟨k, hn, Or.inl ⟨hk, hle⟩, rfl⟩)
  | late hn hlt =>
    obtain ⟨heq, rfl⟩ := List.cons.inj hq
    obtain ⟨rfl, rfl⟩ := Prod.mk.inj heq
    rw [finish_cons, finish_nil] at hlt
    exact Or.inr (Or.inr ⟨_, hn, Or.inr ⟨hlt, rfl⟩, rfl⟩)

/-- **The agenda after `sys_timeout`**: one more timer, `msecs` after `L` at the earliest, and the
others as they were or later. -/
lemma dues_eq (hi : Insertion diff msecs h q q') (L : ℕ) :
    ∃ q₁ q₂ k d, dues L q = q₁ ++ q₂ ∧ dues L q' = q₁ ++ (d, h) :: postpone k q₂ ∧
      L + msecs ≤ d ∧ (L + diff + msecs ≤ d ∨ ∃ e ∈ dues L q, e.1 ≤ d) := by
  cases hi with
  | @front n x q hn =>
    refine ⟨[], dues L ((n, x) :: q), diff, L + (msecs + diff), rfl, ?_, ?_, Or.inl ?_⟩
    · rw [dues_front L diff q h x hn.le]
      rfl
    · omega
    · omega
  | @between n k m x y l r hn hk hm =>
    refine ⟨dues L ((n, x) :: l), dues (finish L ((n, x) :: l)) ((m, y) :: r), 0,
      finish L ((n, x) :: l) + k, ?_, ?_, ?_, Or.inl ?_⟩
    · rw [← dues_append]
      rfl
    · rw [postpone_zero, ← dues_insert L ((n, x) :: l) r h y hm.le]
      rfl
    · simp only [finish, List.map_cons, List.sum_cons] at hk ⊢
      omega
    · simp only [finish, List.map_cons, List.sum_cons] at hk ⊢
      omega
  | @last n k x l hn hk hle =>
    refine ⟨dues L ((n, x) :: l), [], 0, finish L ((n, x) :: l) + k, by simp, ?_, ?_, Or.inl ?_⟩
    · rw [postpone_nil, ← List.cons_append, dues_append]
      rfl
    · simp only [finish, List.map_cons, List.sum_cons] at hk ⊢
      omega
    · simp only [finish, List.map_cons, List.sum_cons] at hk ⊢
      omega
  | @late n x l hn hlt =>
    refine ⟨dues L ((n, x) :: l), [], 0, finish L ((n, x) :: l) + (msecs + n), by simp, ?_, ?_,
      Or.inr ⟨(L + n, x), by simp, ?_⟩⟩
    · rw [postpone_nil, ← List.cons_append, dues_append]
      rfl
    · simp only [finish]
      omega
    · simp only [finish, List.map_cons, List.sum_cons]
      omega

/-- What holds of every timer in the agenda, and also if it is due later, holds after
`sys_timeout` if it holds of the new one. -/
lemma forall_dues (hi : Insertion diff msecs h q q') {L : ℕ} {P : ℕ → Handler → Prop}
    (hmono : ∀ c d x, c ≤ d → P c x → P d x) (hq : ∀ e ∈ dues L q, P e.1 e.2)
    (hnew : ∀ d, L + msecs ≤ d → (L + diff + msecs ≤ d ∨ ∃ e ∈ dues L q, e.1 ≤ d) → P d h) :
    ∀ e ∈ dues L q', P e.1 e.2 := by
  obtain ⟨q₁, q₂, k, d, hold, hdues, hd, hcase⟩ := hi.dues_eq L
  rintro ⟨c, x⟩ he
  rw [hdues, List.mem_append, List.mem_cons] at he
  rw [hold] at hq
  rcases he with he | he | he
  · exact hq _ (List.mem_append_left _ he)
  · obtain ⟨rfl, rfl⟩ := Prod.mk.inj he
    exact hnew _ hd hcase
  · obtain ⟨c₀, hc₀, rfl⟩ := mem_postpone.mp he
    exact hmono c₀ _ _ (Nat.le_add_right ..) (hq _ (List.mem_append_right _ hc₀))

/-- A sum over the agenda that does not grow with the times. -/
lemma sum_dues_le (hi : Insertion diff msecs h q q') {L : ℕ} {f : ℕ → ℕ} (hf : Antitone f) :
    ((dues L q').map fun e => f e.1).sum ≤ ((dues L q).map fun e => f e.1).sum + f (L + msecs) := by
  obtain ⟨q₁, q₂, k, d, hold, hdues, hd, -⟩ := hi.dues_eq L
  have hlater : ((postpone k q₂).map fun e => f e.1).sum ≤ (q₂.map fun e => f e.1).sum := by
    rw [postpone, List.map_map]
    exact List.sum_le_sum fun e _ => hf (Nat.le_add_right ..)
  have hnew := hf hd
  simp only [hold, hdues, List.map_append, List.map_cons, List.sum_append, List.sum_cons]
  omega

end Insertion

section Insert

variable {msecs first : UInt32} {h : Handler}

lemma toNat_add_of_lt {a b : UInt32} (hlt : a.toNat + b.toNat < 2 ^ 32) :
    (a + b).toNat = a.toNat + b.toNat := by
  rw [UInt32.toNat_add, Nat.mod_eq_of_lt hlt]

/-- The loop of `sys_timeout`. -/
lemma insertAfter_spec (hsum : msecs.toNat + first.toNat < 2 ^ 32) {time : UInt32} {t : SysTimeo}
    {rest : List SysTimeo} (hle : t.time ≤ time) :
    (∃ l k m y r, entries rest = l ++ (m, y) :: r ∧ finish t.time.toNat l + k = time.toNat ∧ k < m ∧
      entries (insertAfter msecs first h time t rest)
        = (t.time.toNat, t.h) :: (l ++ (k, h) :: (m - k, y) :: r)) ∨
    (∃ k, finish t.time.toNat (entries rest) + k = time.toNat ∧
      entries (insertAfter msecs first h time t rest) = (t.time.toNat, t.h) ::
        (entries rest ++ [(if msecs.toNat < k then msecs.toNat + first.toNat else k, h)])) := by
  induction rest generalizing t time with
  | nil =>
    right
    have hsub := UInt32.toNat_sub_of_le time t.time hle
    rw [UInt32.le_iff_toNat_le] at hle
    refine ⟨(time - t.time).toNat, by rw [entries_nil, finish_nil]; omega, ?_⟩
    rw [insertAfter]
    by_cases hlate : time - t.time > msecs
    · simp [hlate, toNat_add_of_lt hsum, UInt32.lt_iff_toNat_lt.mp hlate]
    · simp [hlate, mt UInt32.lt_iff_toNat_lt.mpr hlate]
  | cons n rest ih =>
    have hsub := UInt32.toNat_sub_of_le time t.time hle
    rw [insertAfter]
    by_cases hbefore : n.time > time - t.time
    · left
      have hn := UInt32.toNat_sub_of_le n.time _ (UInt32.le_of_lt hbefore)
      rw [UInt32.le_iff_toNat_le] at hle
      refine ⟨[], (time - t.time).toNat, n.time.toNat, n.h, entries rest, rfl, ?_,
        UInt32.lt_iff_toNat_lt.mp hbefore, ?_⟩
      · rw [finish_nil]
        omega
      · simp [hbefore, hn]
    · have hle' : n.time ≤ time - t.time := UInt32.not_lt.mp hbefore
      rw [UInt32.le_iff_toNat_le] at hle
      -- the sum of the times up to `t` is carried along in `finish`
      have hfinish : ∀ l : List (ℕ × Handler),
          finish t.time.toNat ((n.time.toNat, n.h) :: l) = t.time.toNat + finish n.time.toNat l :=
        fun l => by simp [finish]
      simp only [if_neg hbefore]
      rcases ih hle' with ⟨l, k, m, y, r, hrest, hk, hm, hlist'⟩ | ⟨k, hk, hlist'⟩
      · left
        refine ⟨(n.time.toNat, n.h) :: l, k, m, y, r, by rw [entries_cons, hrest]; rfl, ?_, hm, ?_⟩
        · rw [hfinish]
          omega
        · rw [entries_cons, hlist']
          rfl
      · right
        refine ⟨k, ?_, ?_⟩
        · rw [entries_cons, hfinish]
          omega
        · rw [entries_cons, hlist']
          rfl

end Insert

/-- `timeouts_last_time` stands for the time `L`, not so long ago that it has wrapped around. -/
structure Clocked (s : Timeouts) (L : ℕ) : Prop where
  last : s.timeoutsLastTime = UInt32.ofNat L
  le : L ≤ s.clock
  lt : s.clock - L < 2 ^ 32

lemma Clocked.diff {s : Timeouts} {L : ℕ} (h : Clocked s L) :
    (sysNow s - s.timeoutsLastTime).toNat = s.clock - L := by
  rw [h.last, sysNow, ← UInt32.ofNat_sub h.le, UInt32.toNat_ofNat', Nat.mod_eq_of_lt h.lt]

/-- **`sys_timeout`**, when there is a timer and an element of the pool. -/
lemma sysTimeout_spec {s : Timeouts} {L : ℕ} (hc : Clocked s L) (hpool : s.pool ≠ 0)
    (hne : s.nextTimeout ≠ []) {msecs : UInt32} (hms : 2 * msecs.toNat < 2 ^ 32)
    (hlt : msecs.toNat + (s.clock - L) < 2 ^ 32) (h : Handler) :
    ∃ l, sysTimeout s msecs h = .ok { s with pool := s.pool - 1, nextTimeout := l } ∧
      Insertion (s.clock - L) msecs.toNat h (entries s.nextTimeout) (entries l) := by
  obtain ⟨n, rest, hlist⟩ := List.exists_cons_of_ne_nil hne
  have htime : (msecs + (sysNow s - s.timeoutsLastTime)).toNat = msecs.toNat + (s.clock - L) := by
    rw [toNat_add_of_lt (by rw [hc.diff]; exact hlt), hc.diff]
  simp only [sysTimeout, if_neg hpool, hlist]
  have hnow : ∀ l, sysNow { s with pool := s.pool - 1, nextTimeout := l } = sysNow s :=
    fun _ => rfl
  by_cases hfront : n.time > msecs
  · have hn := UInt32.toNat_sub_of_le n.time _ (UInt32.le_of_lt hfront)
    refine ⟨_, if_pos hfront, ?_⟩
    simp only [entries_cons, hn, hnow, htime]
    exact .front (UInt32.lt_iff_toNat_lt.mp hfront)
  · have hn : n.time.toNat ≤ msecs.toNat :=
      UInt32.le_iff_toNat_le.mp (UInt32.not_lt.mp hfront)
    refine ⟨_, if_neg hfront, ?_⟩
    rw [hnow, entries_cons]
    have hle : n.time ≤ msecs + (sysNow s - s.timeoutsLastTime) := by
      rw [UInt32.le_iff_toNat_le, htime]
      omega
    have hsum : msecs.toNat + n.time.toNat < 2 ^ 32 := by omega
    rcases insertAfter_spec (h := h) hsum hle with
      ⟨l, k, m, y, r, hrest, hk, hm, hlist'⟩ | ⟨k, hk, hlist'⟩
    · rw [hlist', hrest]
      exact .between hn (hk.trans htime) hm
    · rw [hlist']
      rw [htime] at hk
      by_cases hlate : msecs.toNat < k
      · rw [if_pos hlate]
        exact .late hn (by omega)
      · rw [if_neg hlate]
        exact .last hn hk (by omega)

end Lwip
end DeepForensics
