/-
# Runs and lines

A list is cut at every occurrence of a separator.  When the empty pieces are dropped, what is left
are the maximal runs of other elements, in order.  When the separator ends a line, the pieces are
the lines, and only the last one, which no separator ends, may be missing.  The lemmas peel a list
from the left, as a scanner does.
-/
import Mathlib.Data.List.TakeWhile
import Mathlib.Tactic.Common

namespace Tokens

variable {α : Type*} [DecidableEq α] (sep : α)

/-- The maximal non-empty runs of elements other than the separator. -/
def runs (l : List α) : List (List α) := (l.splitOn sep).filter fun t => !t.isEmpty

section Peel

variable {t l : List α}

/-- A separator in front does not matter. -/
@[simp] lemma runs_sep_cons : runs sep (sep :: l) = runs sep l := by
  have hsplit : (sep :: l).splitOn sep = [] :: l.splitOn sep :=
    List.splitOn_append_cons_self [] l
  rw [runs, hsplit]
  rfl

/-- The first piece ends at the first separator. -/
lemma splitOn_piece (hsep : sep ∉ t) : (t ++ sep :: l).splitOn sep = t :: l.splitOn sep := by
  rw [List.splitOn_append_cons_self, List.splitOn_eq_singleton hsep]
  rfl

/-- A run up to a separator. -/
lemma runs_append (ht : t ≠ []) (hsep : sep ∉ t) : runs sep (t ++ sep :: l) = t :: runs sep l := by
  rw [runs, splitOn_piece sep hsep, List.filter_cons_of_pos (by simpa using ht)]
  rfl

/-- A run up to the end. -/
lemma runs_single (ht : t ≠ []) (hsep : sep ∉ t) : runs sep t = [t] := by
  rw [runs, List.splitOn_eq_singleton hsep, List.filter_cons_of_pos (by simpa using ht)]
  rfl

end Peel

/-- Separators in front can be skipped. -/
lemma runs_dropWhile (l : List α) : runs sep (l.dropWhile (· = sep)) = runs sep l := by
  induction l with
  | nil => rfl
  | cons x l ih =>
    by_cases hx : x = sep
    · rw [List.dropWhile_cons_of_pos (by simpa using hx), ih, hx, runs_sep_cons]
    · rw [List.dropWhile_cons_of_neg (by simpa using hx)]

/-- A list up to its first separator: it has none, or the separator and the rest follow. -/
lemma dropWhile_ne_cases (l : List α) :
    l.dropWhile (· ≠ sep) = [] ∧ l.takeWhile (· ≠ sep) = l ∧ sep ∉ l ∨
      ∃ rest, l.dropWhile (· ≠ sep) = sep :: rest ∧ l.takeWhile (· ≠ sep) ++ sep :: rest = l ∧
        sep ∉ l.takeWhile (· ≠ sep) := by
  have hsep : sep ∉ l.takeWhile (· ≠ sep) := by
    intro h
    simpa using List.mem_takeWhile_imp h
  have hsplit : l.takeWhile (· ≠ sep) ++ l.dropWhile (· ≠ sep) = l :=
    List.takeWhile_append_dropWhile
  cases hrest : l.dropWhile (· ≠ sep) with
  | nil =>
    rw [hrest, List.append_nil] at hsplit
    rw [hsplit] at hsep
    exact Or.inl ⟨rfl, hsplit, hsep⟩
  | cons y rest =>
    have hy : y = sep := by
      have hhead := List.head?_dropWhile_not (· ≠ sep) l
      rw [hrest] at hhead
      simpa using hhead
    rw [hrest, hy] at hsplit
    exact Or.inr ⟨rest, by rw [hy], hsplit, hsep⟩

/-- The first run of a list that does not begin with a separator, and what comes behind it. -/
lemma runs_cons {x : α} (hx : x ≠ sep) (l : List α) :
    runs sep (x :: l) = (x :: l).takeWhile (· ≠ sep)
      :: runs sep ((x :: l).dropWhile (· ≠ sep)).tail := by
  have hne : (x :: l).takeWhile (· ≠ sep) ≠ [] := by
    rw [List.takeWhile_cons_of_pos (by simpa using hx)]
    nofun
  rcases dropWhile_ne_cases sep (x :: l) with ⟨hdrop, htake, hsep⟩ | ⟨rest, hdrop, hsplit, hsep⟩
  · rw [htake, hdrop, runs_single sep (by nofun) hsep]
    rfl
  · rw [hdrop, List.tail_cons, ← runs_append sep hne hsep, hsplit]

/-! ## Counting runs -/

/-- A cut makes one piece more. -/
lemma splitOn_length (l : List α) : (l.splitOn sep).length = l.count sep + 1 := by
  induction l with
  | nil => rfl
  | cons x l ih =>
    rw [List.splitOn] at ih
    rw [List.splitOn, List.splitOnP_cons_eq_if_modifyHead, List.count_cons]
    split_ifs with hx
    · simp [ih]
    · simp [ih]

/-- There is at most one run more than there are separators. -/
lemma runs_length_le (l : List α) : (runs sep l).length ≤ l.count sep + 1 := by
  rw [← splitOn_length]
  exact List.length_filter_le _ _

/-- The first piece is empty if there is nothing before the first separator. -/
lemma splitOn_head_nil (l : List α) :
    (l.splitOn sep).head? = some [] ↔ l = [] ∨ l.head? = some sep := by
  cases l with
  | nil => simp
  | cons x l =>
    rw [List.splitOn, List.splitOnP_cons_eq_if_modifyHead]
    split_ifs with hx
    · simpa using hx
    · obtain ⟨p, ps, hps⟩ := List.exists_cons_of_ne_nil (List.splitOnP_ne_nil (· == sep) l)
      simpa [hps] using hx

/-- A piece behind the first one is empty if there is nothing behind the last separator, or
between two of them. -/
lemma nil_mem_tail_splitOn (l : List α) :
    [] ∈ (l.splitOn sep).tail ↔ l.getLast? = some sep ∨ [sep, sep] <:+: l := by
  induction l with
  | nil => simp
  | cons x l ih =>
    have hhead := splitOn_head_nil sep l
    obtain ⟨p, ps, hps⟩ := List.exists_cons_of_ne_nil (List.splitOn_ne_nil sep l)
    rw [hps, List.tail_cons] at ih
    rw [hps, List.head?_cons, Option.some_inj] at hhead
    rw [List.infix_cons_iff, List.cons_prefix_cons]
    by_cases hx : x = sep
    · -- the first piece of the tail counts now
      subst hx
      have hsplit : (x :: l).splitOn x = [] :: l.splitOn x := List.splitOn_append_cons_self [] l
      rw [hsplit, List.tail_cons, hps, List.mem_cons, ih, eq_comm, hhead]
      cases l with
      | nil => simp
      | cons y l =>
        simp only [List.getLast?_cons_cons, List.head?_cons, Option.some_inj, eq_comm (a := y),
          List.cons_prefix_cons, List.nil_prefix, and_true, true_and, reduceCtorEq, false_or]
        exact or_left_comm
    · have hsplit : (x :: l).splitOn sep = (x :: p) :: ps := by
        rw [List.splitOn, List.splitOnP_cons_eq_if_modifyHead, if_neg (by simpa using hx)]
        exact congrArg (List.modifyHead (List.cons x)) hps
      have hlast : (x :: l).getLast? = some sep ↔ l.getLast? = some sep := by
        cases l with
        | nil => simpa using hx
        | cons y l => rw [List.getLast?_cons_cons]
      rw [hsplit, List.tail_cons, ih, hlast]
      simp [Ne.symm hx]

/-- There is one run more than there are separators exactly if no separator stands at an end or
next to another one. -/
lemma runs_length_eq_iff (l : List α) :
    (runs sep l).length = l.count sep + 1 ↔
      l ≠ [] ∧ l.head? ≠ some sep ∧ l.getLast? ≠ some sep ∧ ¬ [sep, sep] <:+: l := by
  have hhead := splitOn_head_nil sep l
  have htail := nil_mem_tail_splitOn sep l
  obtain ⟨p, ps, hps⟩ := List.exists_cons_of_ne_nil (List.splitOn_ne_nil sep l)
  rw [hps, List.tail_cons] at htail
  rw [hps, List.head?_cons, Option.some_inj] at hhead
  have hall : (∀ t ∈ l.splitOn sep, (!t.isEmpty) = true) ↔ [] ∉ l.splitOn sep := by
    constructor
    · intro h hnil
      exact absurd (h [] hnil) (by simp)
    · intro h t ht
      cases t with
      | nil => exact absurd ht h
      | cons x t => rfl
  rw [← splitOn_length, runs, List.length_filter_eq_length_iff, hall, hps, List.mem_cons, eq_comm,
    hhead, htail]
  push Not
  exact and_assoc

/-! ## Lines -/

/-- The lines that end with the separator. -/
def closed (l : List α) : List (List α) := (l.splitOn sep).dropLast

/-- What stands behind the last separator. -/
def tailLine (l : List α) : List α := (l.splitOn sep).getLastD []

/-- The lines of a list: those that end with the separator and, unless it is empty, what stands
behind the last of them. -/
def lines (l : List α) : List (List α) :=
  if (tailLine sep l).isEmpty then closed sep l else closed sep l ++ [tailLine sep l]

section Lines

variable {t l : List α}

/-- A line up to its separator. -/
lemma closed_append (hsep : sep ∉ t) : closed sep (t ++ sep :: l) = t :: closed sep l := by
  rw [closed, splitOn_piece sep hsep, List.dropLast_cons_of_ne_nil (List.splitOn_ne_nil sep l)]
  rfl

lemma lines_append (hsep : sep ∉ t) : lines sep (t ++ sep :: l) = t :: lines sep l := by
  have htail : tailLine sep (t ++ sep :: l) = tailLine sep l := by
    obtain ⟨p, ps, hps⟩ := List.exists_cons_of_ne_nil (List.splitOn_ne_nil sep l)
    rw [tailLine, tailLine, splitOn_piece sep hsep, hps]
    rfl
  rw [lines, lines, htail, closed_append sep hsep]
  split_ifs
  · rfl
  · rfl

/-- Without a separator no line ends. -/
lemma closed_of_notMem (hsep : sep ∉ t) : closed sep t = [] := by
  rw [closed, List.splitOn_eq_singleton hsep]
  rfl

lemma lines_single (ht : t ≠ []) (hsep : sep ∉ t) : lines sep t = [t] := by
  have htail : tailLine sep t = t := by
    rw [tailLine, List.splitOn_eq_singleton hsep]
    rfl
  rw [lines, htail, closed_of_notMem sep hsep, if_neg (by simpa using ht)]
  rfl

/-- The line that a text without a separator begins: it goes on to the end, or up to a separator
that comes later. -/
lemma lines_extend (ht : t ≠ []) (hsep : sep ∉ t) (l : List α) :
    closed sep (t ++ l) = [] ∧ lines sep (t ++ l) = [t ++ l] ∨
      ∃ v rest, l = v ++ sep :: rest ∧ closed sep (t ++ l) = (t ++ v) :: closed sep rest ∧
        lines sep (t ++ l) = (t ++ v) :: lines sep rest := by
  rcases dropWhile_ne_cases sep l with ⟨-, -, hl⟩ | ⟨rest, -, hl, hv⟩
  · have hnone : sep ∉ t ++ l := fun h => (List.mem_append.mp h).elim hsep hl
    exact Or.inl ⟨closed_of_notMem sep hnone, lines_single sep (by simp [ht]) hnone⟩
  · have hnone : sep ∉ t ++ l.takeWhile (· ≠ sep) := fun h => (List.mem_append.mp h).elim hsep hv
    refine Or.inr ⟨_, rest, hl.symm, ?_, ?_⟩
    · rw [← closed_append sep hnone, List.append_assoc, hl]
    · rw [← lines_append sep hnone, List.append_assoc, hl]

end Lines

end Tokens
