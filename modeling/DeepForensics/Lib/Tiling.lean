/-
# An interval cut into blocks

An interval of addresses, from 0 on, that is cut into consecutive blocks, each of them in use or
free.  This is what an allocator keeps whose blocks follow each other in memory.

If no two free blocks are next to each other, an interval that meets no block in use lies in one
free block (`sits_of_room`); so the first free block that is large enough is the lowest place with
room (`firstFit_isLeast`), and without one there is no room at all (`firstFit_eq_none_iff_room`).
-/
import Mathlib.Algebra.Order.Ring.Nat
import Mathlib.Data.List.Chain
import Mathlib.Data.List.Nodup
import Mathlib.Order.Bounds.Basic
import Mathlib.Tactic.Common

namespace DeepForensics
namespace Tiling

structure Block where
  size : ℕ
  used : Bool
deriving DecidableEq, Repr

/-- The length of the interval. -/
def total (bs : List Block) : ℕ := (bs.map Block.size).sum

@[simp] lemma total_nil : total [] = 0 := rfl

@[simp] lemma total_cons (b : Block) (bs : List Block) : total (b :: bs) = b.size + total bs := by
  simp [total]

@[simp] lemma total_append (l r : List Block) : total (l ++ r) = total l + total r := by
  simp [total]

/-! ## Where the blocks are -/

/-- The block `b` begins at `p`. -/
def Sits (bs : List Block) (p : ℕ) (b : Block) : Prop := ∃ l r, bs = l ++ b :: r ∧ p = total l

section Sits

variable {bs l r : List Block} {b c : Block} {p q : ℕ}

lemma sits_mid (l : List Block) (b : Block) (r : List Block) : Sits (l ++ b :: r) (total l) b :=
  ⟨l, r, rfl, rfl⟩

lemma not_sits_nil : ¬ Sits [] p b := by
  rintro ⟨l, r, h, -⟩
  exact absurd h (by simp)

lemma sits_cons : Sits (c :: bs) p b ↔ p = 0 ∧ b = c ∨ ∃ q, p = c.size + q ∧ Sits bs q b := by
  constructor
  · rintro ⟨_ | ⟨x, l⟩, r, h, rfl⟩
    · obtain ⟨rfl, -⟩ := List.cons.inj h
      exact Or.inl ⟨rfl, rfl⟩
    · obtain ⟨rfl, rfl⟩ := List.cons.inj h
      exact Or.inr ⟨total l, total_cons _ _, sits_mid l b r⟩
  · rintro (⟨rfl, rfl⟩ | ⟨q, rfl, l, r, rfl, rfl⟩)
    · exact ⟨[], bs, rfl, rfl⟩
    · exact ⟨c :: l, r, rfl, (total_cons _ _).symm⟩

lemma sits_append :
    Sits (l ++ r) p b ↔ Sits l p b ∨ ∃ q, p = total l + q ∧ Sits r q b := by
  induction l generalizing p with
  | nil => simp [not_sits_nil]
  | cons c l ih =>
    rw [List.cons_append, sits_cons, sits_cons]
    constructor
    · rintro (h | ⟨q, rfl, h⟩)
      · exact Or.inl (Or.inl h)
      · rcases ih.mp h with hl | ⟨q', rfl, hr⟩
        · exact Or.inl (Or.inr ⟨q, rfl, hl⟩)
        · exact Or.inr ⟨q', by rw [total_cons, Nat.add_assoc], hr⟩
    · rintro ((h | ⟨q, rfl, h⟩) | ⟨q, rfl, h⟩)
      · exact Or.inl h
      · exact Or.inr ⟨q, rfl, ih.mpr (Or.inl h)⟩
      · exact Or.inr ⟨total l + q, by rw [total_cons, Nat.add_assoc],
          ih.mpr (Or.inr ⟨q, rfl, h⟩)⟩

/-- A block is in the middle of the list, or it stays when the middle is replaced. -/
lemma Sits.mid_or {mid : List Block} (h : Sits (l ++ (mid ++ r)) p b) :
    (∃ q, p = total l + q ∧ Sits mid q b) ∨
      (p + b.size ≤ total l ∨ total l + total mid ≤ p) ∧
        ∀ mid', total mid' = total mid → Sits (l ++ (mid' ++ r)) p b := by
  rcases sits_append.mp h with hl | ⟨q, rfl, hq⟩
  · refine Or.inr ⟨Or.inl ?_, fun mid' _ => sits_append.mpr (Or.inl hl)⟩
    obtain ⟨u, v, rfl, rfl⟩ := hl
    simp only [total_append, total_cons]
    omega
  · rcases sits_append.mp hq with hm | ⟨q, rfl, hr⟩
    · exact Or.inl ⟨q, rfl, hm⟩
    · refine Or.inr ⟨Or.inr (by omega), fun mid' htotal => sits_append.mpr (Or.inr ?_)⟩
      exact ⟨total mid + q, rfl, sits_append.mpr (Or.inr ⟨q, by rw [htotal], hr⟩)⟩

/-- A free block is not in use. -/
lemma not_sits_of_free {n : ℕ} (h : ∀ b ∈ bs, b.used = false) : ¬ Sits bs p ⟨n, true⟩ := by
  rintro ⟨l, r, rfl, -⟩
  have := h ⟨n, true⟩ (by simp)
  simp at this

lemma Sits.mem (h : Sits bs p b) : b ∈ bs := by
  obtain ⟨l, r, rfl, -⟩ := h
  simp

lemma Sits.le_total (h : Sits bs p b) : p + b.size ≤ total bs := by
  obtain ⟨l, r, rfl, rfl⟩ := h
  simp only [total_append, total_cons]
  omega

/-- Two blocks are the same, or one ends before the other begins. -/
lemma Sits.apart (hb : Sits bs p b) (hc : Sits bs q c) :
    p = q ∧ b = c ∨ p + b.size ≤ q ∨ q + c.size ≤ p := by
  induction bs generalizing p q with
  | nil => exact absurd hb not_sits_nil
  | cons x bs ih =>
    rcases sits_cons.mp hb with ⟨rfl, rfl⟩ | ⟨p', rfl, hb'⟩ <;>
      rcases sits_cons.mp hc with ⟨rfl, rfl⟩ | ⟨q', rfl, hc'⟩
    · exact Or.inl ⟨rfl, rfl⟩
    · omega
    · omega
    · rcases ih hb' hc' with ⟨rfl, rfl⟩ | h
      · exact Or.inl ⟨rfl, rfl⟩
      · omega

end Sits

/-! ## Room -/

/-- The interval of length `k` from `a` on meets no block in use. -/
def Room (bs : List Block) (a k : ℕ) : Prop :=
  a + k ≤ total bs ∧ ∀ p b, Sits bs p b → b.used = true → a + k ≤ p ∨ p + b.size ≤ a

/-- No two free blocks are next to each other. -/
def Coalesced (bs : List Block) : Prop := bs.IsChain fun b c => b.used = true ∨ c.used = true

/-- The block is free and has the length `k`. -/
def fits (k : ℕ) (b : Block) : Bool := !b.used && decide (k ≤ b.size)

/-- The first free block of length `k`. -/
def firstFit (k : ℕ) : List Block → Option ℕ
  | [] => none
  | b :: bs => if fits k b then some 0 else (firstFit k bs).map (b.size + ·)

lemma fits_iff {k : ℕ} {b : Block} : fits k b = true ↔ b.used = false ∧ k ≤ b.size := by
  simp [fits]

section Room

variable {bs : List Block} {a k p : ℕ} {b : Block}

/-- A place in a free block has room. -/
lemma room_of_sits (h : Sits bs p b) (hb : b.used = false) (hp : p ≤ a)
    (ha : a + k ≤ p + b.size) : Room bs a k := by
  refine ⟨ha.trans h.le_total, fun q c hc hu => ?_⟩
  rcases h.apart hc with ⟨-, rfl⟩ | hbefore | hafter
  · exact absurd hu (by simp [hb])
  · exact Or.inl (ha.trans hbefore)
  · exact Or.inr (hafter.trans hp)

lemma Room.tail {c : Block} (h : Room (c :: bs) a k) (ha : c.size ≤ a) :
    Room bs (a - c.size) k := by
  obtain ⟨hle, hused⟩ := h
  rw [total_cons] at hle
  refine ⟨by omega, fun p b hb hu => ?_⟩
  have := hused (c.size + p) b (sits_cons.mpr (Or.inr ⟨p, rfl, hb⟩)) hu
  omega

/-- Without neighbouring free blocks, a place with room lies in one free block. -/
lemma sits_of_room (hpos : ∀ b ∈ bs, 0 < b.size) (hco : Coalesced bs) (hk : 0 < k)
    (h : Room bs a k) : ∃ p b, Sits bs p b ∧ b.used = false ∧ p ≤ a ∧ a + k ≤ p + b.size := by
  induction bs generalizing a with
  | nil =>
    have := h.1
    rw [total_nil] at this
    omega
  | cons c bs ih =>
    by_cases ha : c.size ≤ a
    · obtain ⟨p, b, hb, hu, hp, hend⟩ :=
        ih (fun x hx => hpos x (List.mem_cons_of_mem _ hx)) hco.tail (h.tail ha)
      exact ⟨c.size + p, b, sits_cons.mpr (Or.inr ⟨p, rfl, hb⟩), hu, by omega, by omega⟩
    · have hself : Sits (c :: bs) 0 c := sits_cons.mpr (Or.inl ⟨rfl, rfl⟩)
      have hfree : c.used = false := by
        by_contra hu
        have := h.2 0 c hself (by simpa using hu)
        omega
      by_cases hend : a + k ≤ c.size
      · exact ⟨0, c, hself, hfree, Nat.zero_le _, by omega⟩
      · -- the interval would reach into the next block, which is in use
        exfalso
        rcases bs with _ | ⟨d, bs⟩
        · have := h.1
          simp only [total_cons, total_nil] at this
          omega
        · have hd : d.used = true := by
            have := (List.isChain_cons_cons.mp hco).1
            simpa [hfree] using this
          have hnext : Sits (c :: d :: bs) c.size d :=
            sits_cons.mpr (Or.inr ⟨0, rfl, sits_cons.mpr (Or.inl ⟨rfl, rfl⟩)⟩)
          have := h.2 _ d hnext hd
          have := hpos d (by simp)
          omega

/-! ## First fit -/

lemma firstFit_eq_none_iff : firstFit k bs = none ↔ ∀ b ∈ bs, fits k b = false := by
  induction bs with
  | nil => simp [firstFit]
  | cons c bs ih =>
    rw [firstFit, List.forall_mem_cons]
    by_cases hc : fits k c = true
    · simp [hc]
    · rw [if_neg hc, Option.map_eq_none_iff, ih]
      simp [hc]

/-- The blocks before the first fit do not fit. -/
lemma firstFit_eq_some_iff : firstFit k bs = some p ↔
    ∃ l b r, bs = l ++ b :: r ∧ p = total l ∧ fits k b = true ∧ ∀ x ∈ l, fits k x = false := by
  induction bs generalizing p with
  | nil => simp [firstFit]
  | cons c bs ih =>
    rw [firstFit]
    constructor
    · intro h
      by_cases hc : fits k c = true
      · rw [if_pos hc] at h
        obtain rfl := Option.some.inj h
        exact ⟨[], c, bs, rfl, rfl, hc, by simp⟩
      · rw [if_neg hc] at h
        obtain ⟨q, hq, rfl⟩ := Option.map_eq_some_iff.mp h
        obtain ⟨l, b, r, rfl, rfl, hb, hl⟩ := ih.mp hq
        exact ⟨c :: l, b, r, rfl, (total_cons _ _).symm, hb,
          List.forall_mem_cons.mpr ⟨by simpa using hc, hl⟩⟩
    · rintro ⟨_ | ⟨x, l⟩, b, r, h, rfl, hb, hl⟩
      · obtain ⟨rfl, -⟩ := List.cons.inj h
        rw [if_pos hb, total_nil]
      · obtain ⟨rfl, rfl⟩ := List.cons.inj h
        obtain ⟨hx, hl⟩ := List.forall_mem_cons.mp hl
        rw [if_neg (by simp [hx]), ih.mpr ⟨l, b, r, rfl, rfl, hb, hl⟩]
        simp

lemma firstFit_eq_none_iff_room (hpos : ∀ b ∈ bs, 0 < b.size) (hco : Coalesced bs) (hk : 0 < k) :
    firstFit k bs = none ↔ ∀ a, ¬ Room bs a k := by
  rw [firstFit_eq_none_iff]
  constructor
  · intro h a ha
    obtain ⟨p, b, hb, hu, hp, hend⟩ := sits_of_room hpos hco hk ha
    have hfit : fits k b = true := fits_iff.mpr ⟨hu, by omega⟩
    simp [h b hb.mem] at hfit
  · intro h b hb
    obtain ⟨l, r, rfl⟩ := List.append_of_mem hb
    by_contra hfit
    obtain ⟨hu, hle⟩ := fits_iff.mp (by simpa using hfit)
    exact h (total l) (room_of_sits (sits_mid l b r) hu le_rfl (by omega))

/-- The first fit is the lowest place with room. -/
lemma firstFit_isLeast (hpos : ∀ b ∈ bs, 0 < b.size) (hco : Coalesced bs) (hk : 0 < k)
    (h : firstFit k bs = some p) : IsLeast {a | Room bs a k} p := by
  obtain ⟨l, b, r, rfl, rfl, hb, hl⟩ := firstFit_eq_some_iff.mp h
  obtain ⟨hu, hle⟩ := fits_iff.mp hb
  refine ⟨room_of_sits (sits_mid l b r) hu le_rfl (by omega), fun a ha => ?_⟩
  obtain ⟨q, c, hc, hcu, hq, hend⟩ := sits_of_room hpos hco hk ha
  rcases sits_append.mp hc with hc | ⟨q', rfl, -⟩
  · have hfit : fits k c = true := fits_iff.mpr ⟨hcu, by omega⟩
    simp [hl c hc.mem] at hfit
  · omega

end Room

/-! ## The first free block -/

/-- Where the first free block begins; the end of the interval if there is none. -/
def firstFree : List Block → ℕ
  | [] => 0
  | b :: bs => if b.used then b.size + firstFree bs else 0

section FirstFree

variable {l r : List Block}

lemma firstFree_append_of_used (h : ∀ b ∈ l, b.used = true) :
    firstFree (l ++ r) = total l + firstFree r := by
  induction l with
  | nil => simp
  | cons b l ih =>
    obtain ⟨hb, hl⟩ := List.forall_mem_cons.mp h
    rw [List.cons_append, firstFree, if_pos hb, ih hl, total_cons, Nat.add_assoc]

/-- What comes after a free block does not matter. -/
lemma firstFree_append_of_free (h : ¬ ∀ b ∈ l, b.used = true) (r r' : List Block) :
    firstFree (l ++ r) = firstFree (l ++ r') := by
  induction l with
  | nil => exact absurd (by simp) h
  | cons b l ih =>
    rw [List.cons_append, List.cons_append, firstFree, firstFree]
    by_cases hb : b.used = true
    · rw [if_pos hb, if_pos hb, ih fun hl => h (List.forall_mem_cons.mpr ⟨hb, hl⟩)]
    · rw [if_neg hb, if_neg hb]

lemma firstFree_lt_of_free (hpos : ∀ b ∈ l, 0 < b.size) (h : ¬ ∀ b ∈ l, b.used = true)
    (r : List Block) : firstFree (l ++ r) < total l := by
  induction l with
  | nil => exact absurd (by simp) h
  | cons b l ih =>
    obtain ⟨hb0, hl0⟩ := List.forall_mem_cons.mp hpos
    rw [List.cons_append, firstFree, total_cons]
    by_cases hb : b.used = true
    · have := ih hl0 fun hl => h (List.forall_mem_cons.mpr ⟨hb, hl⟩)
      rw [if_pos hb]
      omega
    · rw [if_neg hb]
      omega

/-- Of a free block only the place matters. -/
lemma firstFree_mid {b b' : Block} (hb : b.used = false) (hb' : b'.used = false)
    (l r r' : List Block) :
    firstFree (l ++ b :: r) = firstFree (l ++ b' :: r') := by
  by_cases hl : ∀ x ∈ l, x.used = true
  · rw [firstFree_append_of_used hl, firstFree_append_of_used hl, firstFree, firstFree]
    simp [hb, hb']
  · exact firstFree_append_of_free hl _ _

/-- Free blocks that are joined begin where the first of them began. -/
lemma firstFree_join {n k : ℕ} {fl : List Block} (hfl : ∀ b ∈ fl, b.used = false)
    (l r : List Block) :
    firstFree ((l ++ fl) ++ ⟨n, false⟩ :: r) = firstFree (l ++ ⟨k, false⟩ :: r) := by
  rcases fl with _ | ⟨c, fl⟩
  · rw [List.append_nil]
    exact firstFree_mid rfl rfl l _ _
  · rw [List.append_assoc]
    exact firstFree_mid (hfl c (by simp)) rfl l _ _

lemma firstFree_le {b : Block} (hb : b.used = false) (l r : List Block) :
    firstFree (l ++ b :: r) ≤ total l := by
  induction l with
  | nil => simp [firstFree, hb]
  | cons c l ih =>
    rw [List.cons_append, firstFree, total_cons]
    split <;> omega

/-- A block in use is freed. -/
lemma firstFree_release {n : ℕ} (hn : 0 < n) (hpos : ∀ b ∈ l, 0 < b.size) (r : List Block) :
    firstFree (l ++ ⟨n, false⟩ :: r)
      = if total l < firstFree (l ++ ⟨n, true⟩ :: r) then total l
        else firstFree (l ++ ⟨n, true⟩ :: r) := by
  by_cases hl : ∀ x ∈ l, x.used = true
  · rw [firstFree_append_of_used hl, firstFree_append_of_used hl, if_pos]
    · simp [firstFree]
    · simp only [firstFree, if_true]
      omega
  · rw [if_neg (firstFree_lt_of_free hpos hl _).not_gt]
    exact firstFree_append_of_free hl _ _

/-- The first free block is the end, or it is a free block. -/
lemma firstFree_cases (bs : List Block) : firstFree bs = total bs ∨
    ∃ b, b.used = false ∧ Sits bs (firstFree bs) b := by
  induction bs with
  | nil => exact Or.inl rfl
  | cons b bs ih =>
    rw [firstFree, total_cons]
    by_cases hb : b.used = true
    · rw [if_pos hb]
      rcases ih with ih | ⟨c, hc, hs⟩
      · exact Or.inl (by rw [ih])
      · exact Or.inr ⟨c, hc, sits_cons.mpr (Or.inr ⟨_, rfl, hs⟩)⟩
    · rw [if_neg hb]
      exact Or.inr ⟨b, by simpa using hb, sits_cons.mpr (Or.inl ⟨rfl, rfl⟩)⟩

/-- A free block appears behind the block at the end of `l`. -/
lemma firstFree_behind {k n : ℕ} (hpos : ∀ b ∈ l, 0 < b.size) (c : Block) (hc : c.used = true)
    (hk : k ≤ c.size) (s : List Block) :
    firstFree (l ++ ⟨k, true⟩ :: ⟨n, false⟩ :: s)
      = if total l + k < firstFree (l ++ c :: r) then total l + k else firstFree (l ++ c :: r) := by
  by_cases hl : ∀ x ∈ l, x.used = true
  · rw [firstFree_append_of_used hl, firstFree_append_of_used hl]
    simp only [firstFree, hc, if_true, Bool.false_eq_true, if_false, Nat.add_zero]
    split <;> omega
  · have hlt := firstFree_lt_of_free hpos hl (c :: r)
    rw [if_neg (by omega)]
    exact firstFree_append_of_free hl _ _

/-- Every block before the first free one is in use. -/
lemma firstFree_split (bs : List Block) :
    ∃ u v, bs = u ++ v ∧ (∀ b ∈ u, b.used = true) ∧ firstFree bs = total u := by
  induction bs with
  | nil => exact ⟨[], [], rfl, by simp, rfl⟩
  | cons b bs ih =>
    by_cases hb : b.used = true
    · obtain ⟨u, v, rfl, hu, hfirst⟩ := ih
      exact ⟨b :: u, v, rfl, List.forall_mem_cons.mpr ⟨hb, hu⟩, by simp [firstFree, hb, hfirst]⟩
    · exact ⟨[], b :: bs, rfl, by simp, by simp [firstFree, hb]⟩

lemma firstFree_le_total (bs : List Block) : firstFree bs ≤ total bs := by
  rcases firstFree_cases bs with h | ⟨b, -, h⟩
  · exact h.le
  · have := h.le_total
    omega

end FirstFree

/-! ## Blocks in use -/

/-- The length of the blocks in use. -/
def usedTotal (bs : List Block) : ℕ := total (bs.filter Block.used)

@[simp] lemma usedTotal_nil : usedTotal [] = 0 := rfl

@[simp] lemma usedTotal_cons (b : Block) (bs : List Block) :
    usedTotal (b :: bs) = (if b.used then b.size else 0) + usedTotal bs := by
  rw [usedTotal, usedTotal, List.filter_cons]
  by_cases hb : b.used = true <;> simp [hb]

@[simp] lemma usedTotal_append (l r : List Block) :
    usedTotal (l ++ r) = usedTotal l + usedTotal r := by
  simp [usedTotal]

lemma usedTotal_le (bs : List Block) : usedTotal bs ≤ total bs := by
  induction bs with
  | nil => simp
  | cons b bs ih =>
    rw [usedTotal_cons, total_cons]
    split <;> omega

lemma usedTotal_of_free {bs : List Block} (h : ∀ b ∈ bs, b.used = false) : usedTotal bs = 0 := by
  have hfilter : bs.filter Block.used = [] := List.filter_eq_nil_iff.mpr (by simpa using h)
  rw [usedTotal, hfilter, total_nil]

/-- Where the blocks in use begin. -/
def usedStarts : List Block → List ℕ
  | [] => []
  | b :: bs => (if b.used then [0] else []) ++ (usedStarts bs).map (b.size + ·)

lemma mem_usedStarts {bs : List Block} {p : ℕ} :
    p ∈ usedStarts bs ↔ ∃ n, Sits bs p ⟨n, true⟩ := by
  induction bs generalizing p with
  | nil => simp [usedStarts, not_sits_nil]
  | cons b bs ih =>
    rw [usedStarts, List.mem_append, List.mem_map]
    constructor
    · rintro (h | ⟨q, hq, rfl⟩)
      · obtain ⟨hb, rfl⟩ : b.used = true ∧ p = 0 := by
          by_cases hb : b.used = true <;> simp_all
        exact ⟨b.size, sits_cons.mpr (Or.inl ⟨rfl, by rw [← hb]⟩)⟩
      · obtain ⟨n, hn⟩ := ih.mp hq
        exact ⟨n, sits_cons.mpr (Or.inr ⟨q, rfl, hn⟩)⟩
    · rintro ⟨n, hn⟩
      rcases sits_cons.mp hn with ⟨rfl, rfl⟩ | ⟨q, rfl, hq⟩
      · exact Or.inl (by simp)
      · exact Or.inr ⟨q, ih.mpr ⟨n, hq⟩, rfl⟩

lemma nodup_usedStarts {bs : List Block} (hpos : ∀ b ∈ bs, 0 < b.size) :
    (usedStarts bs).Nodup := by
  induction bs with
  | nil => exact List.nodup_nil
  | cons b bs ih =>
    obtain ⟨hb, hbs⟩ := List.forall_mem_cons.mp hpos
    have htail := (ih hbs).map fun x y h => Nat.add_left_cancel (n := b.size) h
    rw [usedStarts]
    split
    · refine List.nodup_cons.mpr ⟨fun h => ?_, htail⟩
      obtain ⟨q, -, hq⟩ := List.mem_map.mp h
      omega
    · exact htail

/-- The length of the blocks in use, added up over where they begin. -/
lemma sum_usedStarts {bs : List Block} {f : ℕ → ℕ} (hf : ∀ p n, Sits bs p ⟨n, true⟩ → f p = n) :
    ((usedStarts bs).map f).sum = usedTotal bs := by
  induction bs generalizing f with
  | nil => rfl
  | cons b bs ih =>
    have htail := ih (f := fun p => f (b.size + p)) fun p n h =>
      hf _ n (sits_cons.mpr (Or.inr ⟨p, rfl, h⟩))
    rw [usedStarts, List.map_append, List.sum_append, List.map_map, usedTotal_cons, ← htail]
    congr 1
    by_cases hb : b.used = true
    · simpa [hb] using hf 0 b.size (sits_cons.mpr (Or.inl ⟨rfl, by rw [← hb]⟩))
    · simp [hb]

section Coalesced

variable {l r : List Block} {b c : Block}

lemma coalesced_append : Coalesced (l ++ r) ↔ Coalesced l ∧ Coalesced r ∧
    ∀ x ∈ l.getLast?, ∀ y ∈ r.head?, x.used = true ∨ y.used = true := List.isChain_append

/-- A block in use may stand anywhere. -/
lemma coalesced_used (hl : Coalesced l) (hr : Coalesced r) (hb : b.used = true) :
    Coalesced (l ++ b :: r) := by
  refine coalesced_append.mpr ⟨hl, List.isChain_cons.mpr ⟨?_, hr⟩, ?_⟩
  · intro y _
    exact Or.inl hb
  · intro x _ y hy
    obtain rfl : b = y := by simpa using hy
    exact Or.inr hb

lemma Coalesced.left (h : Coalesced (l ++ r)) : Coalesced l := (coalesced_append.mp h).1

lemma Coalesced.right (h : Coalesced (l ++ r)) : Coalesced r := (coalesced_append.mp h).2.1

lemma Coalesced.tail (h : Coalesced (b :: r)) : Coalesced r := List.IsChain.tail h

/-- The lengths of the blocks do not matter. -/
lemma Coalesced.resize (h : Coalesced (b :: r)) (hc : c.used = b.used) : Coalesced (c :: r) := by
  rw [Coalesced, List.isChain_cons] at h ⊢
  rw [hc]
  exact h

/-- Two free blocks become one. -/
lemma coalesced_join {n : ℕ} (hl : Coalesced (l ++ [b])) (hr : Coalesced (c :: r))
    (hb : b.used = false) (hc : c.used = false) : Coalesced (l ++ ⟨n, false⟩ :: r) := by
  obtain ⟨hl, -, hlast⟩ := coalesced_append.mp hl
  refine coalesced_append.mpr ⟨hl, hr.resize hc.symm, fun x hx y hy => ?_⟩
  obtain rfl : ⟨n, false⟩ = y := by simpa using hy
  have := hlast x hx b (by simp)
  rwa [hb] at this

/-- Without a block in use there is one free block. -/
lemma eq_singleton_of_free {bs : List Block} (h : Coalesced bs) (hfree : ∀ b ∈ bs, b.used = false)
    (hne : bs ≠ []) : bs = [⟨total bs, false⟩] := by
  rcases bs with _ | ⟨b, _ | ⟨c, bs⟩⟩
  · exact absurd rfl hne
  · have hb := hfree b (by simp)
    simp [← hb]
  · have hb := hfree b (by simp)
    have hc := hfree c (by simp)
    have := (List.isChain_cons_cons.mp h).1
    simp [hb, hc] at this

end Coalesced

end Tiling
end DeepForensics
