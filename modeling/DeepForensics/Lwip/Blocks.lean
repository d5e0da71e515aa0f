/-
# The functions of `mem.c` on a laid out heap

What `mem_free`, `mem_trim` and `mem_malloc` do to a heap that is cut into blocks, no two free ones
of which are next to each other: none of them faults, and each of them leaves such a heap behind.
-/
import DeepForensics.Lwip.Layout
import DeepForensics.Lib.Run

namespace DeepForensics
namespace Lwip

open Ram Tiling Runs Arena

/-- The heap is cut into the blocks, and `lfree` and the statistics are as they should be. -/
structure Holds (A : Arena) (bs : List Block) : Prop extends Tiled A.ram bs where
  coalesced : Coalesced bs
  lfree : A.lfree = firstFree bs
  used : A.stats.used = usedTotal bs

@[simp] lemma lwipAssert_true (text : String) : lwipAssert text true = .ok () := rfl

lemma Holds.used_le {A : Arena} {bs : List Block} (h : Holds A bs) : A.stats.used ≤ memSize := by
  rw [h.used, ← h.covers]
  exact usedTotal_le bs

section

variable {s : MemStats} {n : ℕ}

lemma decUsed_used (hn : n ≤ s.used) (h : s.used ≤ memSize) :
    (s.decUsed n).used = s.used - n := by
  simp only [MemStats.decUsed, memSizeT, sizes] at *
  omega

lemma incUsed_used (h : s.used + n ≤ memSize) : (s.incUsed n).used = s.used + n := by
  simp only [MemStats.incUsed, memSizeT, sizes] at *
  omega

end

/-! ## `mem_init` -/

lemma memInit_spec (ram : Memory) : ∃ A, memInit ram = .ok A ∧ Holds A [⟨memSize, false⟩] ∧
    A.stats = ⟨0, memSize, 0, 0⟩ := by
  have hM : memSize < 2 ^ 16 := by decide
  have hE : 18 ≤ memSize := by decide
  obtain ⟨m, hm⟩ : ∃ m, m = put16 (put16 (put8 (put8 (put16 (put16 ram 0 memSize) (0 + 2) 0)
    (0 + 4) 0) (memSize + 4) 1) memSize memSize) (memSize + 2) memSize := ⟨_, rfl⟩
  have hfirst : header m 0 = ⟨0 + memSize, 0, 0⟩ := by
    rw [hm, header_put16_of_apart (by omega), header_put16_of_apart (by omega),
      header_put8_of_apart (by omega), header_putUsed, header_putPrev (by omega),
      header_putNext (by omega), Nat.zero_add]
  have hatEnd : m (memSize + 4) = 1 := by
    rw [hm, put16_of_ne (by omega) (by omega), put16_of_ne (by omega) (by omega), put8_self]
  refine ⟨⟨m, 0, ⟨0, memSize, 0, 0⟩⟩, ?_, ⟨⟨⟨hfirst, trivial⟩, by simp, hatEnd, ?_⟩,
    List.isChain_singleton _, rfl, rfl⟩, rfl⟩
  · simp only [memInit, setNext_of_le (Nat.zero_le memSize), setPrev_of_le (Nat.zero_le memSize),
      setUsed_of_le (Nat.zero_le memSize), setNext_of_le (le_refl memSize),
      setPrev_of_le (le_refl memSize), setUsed_of_le (le_refl memSize), ok_bind, hm]
  · simp only [List.mem_singleton, forall_eq, sizes]
    omega

/-! ## Joining blocks -/

section Join

variable {A : Arena} {l r : List Block} {a b : Block}

/-- Two neighbouring blocks become one. -/
lemma join_spec (h : Tiled A.ram (l ++ a :: b :: r)) :
    ∃ m', join A (total l) (total l + a.size) = .ok { A with ram := m' } ∧
      Tiled m' (l ++ ⟨a.size + b.size, a.used⟩ :: r) ∧
      SameOutside A.ram m' (total l) (total l + (a.size + b.size)) := by
  have hend := h.covers
  have ha := h.size a (by simp)
  have hb := h.size b (by simp)
  simp only [total_append, total_cons, sizes] at hend ha hb
  have hP : total l + a.size + b.size ≤ memSize := by simp only [sizes]; omega
  have hout : SameOutside A.ram (put16 (put16 A.ram (total l) (total l + a.size + b.size))
      (total l + a.size + b.size + 2) (total l)) (total l) (total l + (a.size + b.size)) := by
    intro i hi h2 h3
    rw [put16_of_ne (by omega) (by omega), put16_of_ne (by omega) (by omega)]
  refine ⟨_, ?_, ?_, hout⟩
  · rw [join, load_of_le (by omega), ok_bind, h.header_second, setNext_of_le (by omega), ok_bind,
      load_of_le (by omega), ok_bind, header_put16_of_apart (by omega), h.header_second,
      setPrev_of_le (by omega)]
  · refine Tiled.edit [a, b] [⟨a.size + b.size, a.used⟩] h (by simp) ?_ ⟨?_, trivial⟩ ?_
      (by simpa using hout)
    · simp only [List.mem_singleton, forall_eq, sizes]
      omega
    · rw [header_put16_of_apart (by omega), header_putNext (by omega), h.header_mid, Nat.add_assoc]
    · intro _
      simp only [total_cons, total_nil, lastStart, Nat.add_zero, ← Nat.add_assoc]
      rw [get16_put16, Nat.mod_eq_of_lt (by omega)]

end Join

/-! ## `mem_free` -/

section Free

variable {A : Arena} {l r : List Block} {n : ℕ}

/-- The forward part of `plug_holes` takes in the next block if it is free. -/
lemma plugForward_spec (h : Tiled A.ram (l ++ ⟨n, false⟩ :: r)) (hlfree : A.lfree ≤ total l)
    (hr : Coalesced r) :
    ∃ m' fr r', r = fr ++ r' ∧ (∀ b ∈ fr, b.used = false) ∧
      plugForward A (total l) = .ok { A with ram := m' } ∧
      Tiled m' (l ++ ⟨n + total fr, false⟩ :: r') ∧ Coalesced (⟨n + total fr, false⟩ :: r') ∧
      SameOutside A.ram m' (total l) (total l + (n + total fr)) := by
  have hend := h.covers
  have hn := h.size ⟨n, false⟩ (by simp)
  simp only [total_append, total_cons, sizes] at hend hn
  have hP : total l + n ≤ memSize := by simp only [sizes]; omega
  have hload : plugForward A (total l) = (do
      let c ← A.load (total l + n)
      if total l ≠ total l + n ∧ c.used = 0 ∧ total l + n ≠ memSize then
        join (if A.lfree = total l + n then { A with lfree := total l } else A) (total l)
          (total l + n)
      else .ok A) := by
    rw [plugForward, load_of_le (by omega), ok_bind, h.header_mid]
    simp only [hP, decide_true, lwipAssert_true, ok_bind]
  rw [hload, load_of_le hP, ok_bind, if_neg (show ¬ A.lfree = total l + n by omega)]
  rcases r with _ | ⟨c, r⟩
  · -- the next header is the end of the heap
    have : total l + n = memSize := by simp only [total_nil, sizes] at *; omega
    refine ⟨A.ram, [], [], rfl, by simp, if_neg (by simp [this]), by simpa using h,
      List.isChain_singleton _, fun i _ _ _ => rfl⟩
  · have hc := h.size c (by simp)
    simp only [total_cons, sizes] at hend hc
    rw [h.header_second]
    by_cases hused : c.used = true
    · refine ⟨A.ram, [], c :: r, rfl, by simp, if_neg (by simp [hused]), by simpa using h,
        List.isChain_cons_cons.mpr ⟨Or.inr hused, hr⟩, fun i _ _ _ => rfl⟩
    · obtain ⟨m', hjoin, htiled, hout⟩ := join_spec h
      have hfree : c.used = false := by simpa using hused
      refine ⟨m', [c], r, rfl, by simpa using hfree, ?_, by simpa using htiled,
        hr.resize hfree.symm, by simpa using hout⟩
      rw [if_pos ⟨by omega, by simp [hfree], by simp only [sizes]; omega⟩, hjoin]

/-- The backward part of `plug_holes` joins the block to the previous one if that is free. -/
lemma plugBackward_spec (h : Tiled A.ram (l ++ ⟨n, false⟩ :: r))
    (hlfree : A.lfree = firstFree (l ++ ⟨n, false⟩ :: r)) (hl : Coalesced l)
    (hr : Coalesced (⟨n, false⟩ :: r)) :
    ∃ m' l' fl, l = l' ++ fl ∧ (∀ b ∈ fl, b.used = false) ∧
      plugBackward A (total l) = .ok { A with ram := m' } ∧
      Tiled m' (l' ++ ⟨total fl + n, false⟩ :: r) ∧ Coalesced (l' ++ ⟨total fl + n, false⟩ :: r) ∧
      SameOutside A.ram m' (total l') (total l' + (total fl + n)) := by
  have hend := h.covers
  have hn := h.size ⟨n, false⟩ (by simp)
  simp only [total_append, total_cons, sizes] at hend hn
  rcases List.eq_nil_or_concat l with rfl | ⟨l', c, rfl⟩
  · -- the first block is its own predecessor
    refine ⟨A.ram, [], [], rfl, by simp, ?_, by simpa using h, by simpa using hr,
      fun i _ _ _ => rfl⟩
    have hfirst : header A.ram 0 = ⟨n, 0, 0⟩ := by simpa [lastStart] using h.header_mid
    rw [plugBackward, total_nil, load_of_le (Nat.zero_le _), ok_bind, hfirst,
      load_of_le (Nat.zero_le _), ok_bind, if_neg (by simp)]
  · rw [List.concat_eq_append] at h hl hlfree ⊢
    rw [List.append_assoc, List.singleton_append] at h hlfree
    have hc := h.size c (by simp)
    simp only [List.concat_eq_append, total_append, total_cons, total_nil, sizes] at hend hc
    have hP : total l' + c.size ≤ memSize := by simp only [sizes]; omega
    have hload : plugBackward A (total l' + c.size) = (
        if total l' ≠ total l' + c.size ∧ (if c.used then 1 else 0 : UInt8) = 0 then
          join (if A.lfree = total l' + c.size then { A with lfree := total l' } else A) (total l')
            (total l' + c.size)
        else .ok A) := by
      rw [plugBackward, load_of_le hP, ok_bind, h.header_second,
        load_of_le (show total l' ≤ memSize by omega), ok_bind, h.header_mid]
    rw [total_append, total_cons, total_nil, Nat.add_zero, hload]
    by_cases hused : c.used = true
    · refine ⟨A.ram, l' ++ [c], [], by simp, by simp, if_neg (by simp [hused]), by simpa using h,
        ?_, fun i _ _ _ => rfl⟩
      simpa using coalesced_used hl.left hr hused
    · have hfree : c.used = false := by simpa using hused
      have hlow : A.lfree ≤ total l' := by
        rw [hlfree]
        exact firstFree_le hfree l' _
      obtain ⟨m', hjoin, htiled, hout⟩ := join_spec h
      refine ⟨m', l', [c], rfl, by simpa using hfree, ?_, by simpa [hfree] using htiled, ?_,
        by simpa using hout⟩
      · rw [if_neg (show ¬ A.lfree = total l' + c.size by omega),
          if_pos ⟨by omega, by simp [hfree]⟩, hjoin]
      · simpa using coalesced_join hl hr hfree rfl

lemma headerOf_natCast (p : ℕ) : headerOf ((p + sizeofMem : ℕ) : ℤ) = .ok p := by
  rw [headerOf, if_pos (by omega)]
  simp

/-- **`mem_free`.**  The block becomes free and is joined with the free blocks next to it. -/
lemma memFree_spec (h : Holds A (l ++ ⟨n, true⟩ :: r)) :
    ∃ A' l' fl fr r', l = l' ++ fl ∧ r = fr ++ r' ∧ (∀ b ∈ fl ++ fr, b.used = false) ∧
      memFree A (some (total l + sizeofMem : ℕ)) = .ok A' ∧
      Holds A' (l' ++ ⟨total fl + (n + total fr), false⟩ :: r') ∧
      SameOutside A.ram A'.ram (total l') (total l' + (total fl + (n + total fr))) ∧
      A'.stats = A.stats.decUsed n := by
  have hend := h.covers
  have hn := h.size ⟨n, true⟩ (by simp)
  simp only [total_append, total_cons, sizes] at hend hn
  have hP : total l ≤ memSize := by simp only [sizes]; omega
  obtain ⟨m₁, hm₁⟩ : ∃ m₁, m₁ = put8 A.ram (total l + 4) 0 := ⟨_, rfl⟩
  have hout : ∀ E, total l + n ≤ E → SameOutside A.ram m₁ (total l) E := by
    intro E hE i hi h2 h3
    rw [hm₁, put8_of_ne (by omega)]
  have hheader : header m₁ (total l) = ⟨total l + n, lastStart 0 0 l, 0⟩ := by
    rw [hm₁, header_putUsed, h.header_mid]
  have htiled : Tiled m₁ (l ++ ⟨n, false⟩ :: r) := by
    rw [hm₁]
    exact h.toTiled.flag false
  obtain ⟨lf, hlf⟩ : ∃ lf, lf = if total l < A.lfree then total l else A.lfree := ⟨_, rfl⟩
  have hle : lf ≤ total l := by
    rw [hlf]
    split <;> omega
  have hfirst : lf = firstFree (l ++ ⟨n, false⟩ :: r) := by
    rw [hlf, h.lfree, firstFree_release (by omega) fun b hb => h.size_pos b (by simp [hb])]
  have hused : A.stats.used = usedTotal l + n + usedTotal r := by
    rw [h.used]
    simp [Nat.add_assoc]
  have hrun : memFree A (some (total l + sizeofMem : ℕ))
      = plugHoles ⟨m₁, lf, A.stats.decUsed n⟩ (total l) := by
    have hlegal : ((0 : ℤ) ≤ (total l + sizeofMem : ℕ) && ((total l + sizeofMem : ℕ) : ℤ) < memSize)
        = true := by
      simp only [sizes, Bool.and_eq_true, decide_eq_true_eq]
      omega
    have hdec : ((total l + n : ℕ) : ℤ) - (memSizeT (total l) : ℕ) = n := by
      rw [memSizeT_natCast (by omega)]
      omega
    rw [memFree, hlegal, lwipAssert_true, ok_bind, headerOf_natCast, ok_bind, load_of_le hP,
      ok_bind, h.header_mid]
    show (A.setUsed (total l) 0 >>= _) = _
    have hmin : (if total l < A.lfree then (⟨m₁, total l, A.stats⟩ : Arena)
        else ⟨m₁, A.lfree, A.stats⟩) = ⟨m₁, lf, A.stats⟩ := by
      rw [hlf]
      split <;> rfl
    rw [setUsed_of_le hP, ok_bind, ← hm₁]
    dsimp only
    rw [hmin, load_of_le hP, ok_bind, hheader, hdec]
  obtain ⟨m₂, fr, r', rfl, hfr, hforward, htiled₂, hr', hout₂⟩ :=
    plugForward_spec (A := ⟨m₁, lf, A.stats.decUsed n⟩) htiled hle h.coalesced.right.tail
  have hfirst₂ : lf = firstFree (l ++ ⟨n + total fr, false⟩ :: r') :=
    hfirst.trans (firstFree_mid rfl rfl l _ _)
  obtain ⟨m₃, l', fl, rfl, hfl, hbackward, htiled₃, hco, hout₃⟩ :=
    plugBackward_spec (A := ⟨m₂, lf, A.stats.decUsed n⟩) htiled₂ hfirst₂ h.coalesced.left hr'
  refine ⟨⟨m₃, lf, A.stats.decUsed n⟩, l', fl, fr, r', rfl, rfl, ?_, ?_, ⟨htiled₃, hco, ?_, ?_⟩,
    ?_, rfl⟩
  · exact List.forall_mem_append.mpr ⟨hfl, hfr⟩
  · have hlt : total (l' ++ fl) < memSize := by simp only [sizes]; omega
    rw [hrun, plugHoles, load_of_le hP, ok_bind, hheader]
    simp only [hlt, decide_true, lwipAssert_true, ok_bind]
    rw [hforward, ok_bind, hbackward]
  · exact hfirst₂.trans (firstFree_join hfl l' r')
  · rw [decUsed_used (by omega) h.used_le, hused]
    simp only [usedTotal_append, usedTotal_cons, usedTotal_of_free hfl, usedTotal_of_free hfr,
      Bool.false_eq_true, if_false]
    omega
  · rw [total_append] at hout₂ hout
    have hE : total l' + (total fl + (n + total fr)) = total l' + total fl + (n + total fr) := by
      omega
    rw [hE] at hout₃ ⊢
    exact ((hout _ (by omega)).trans hout₂ le_rfl).trans hout₃ (by omega)

end Free

end Lwip
end DeepForensics
