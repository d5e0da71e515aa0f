/-
# `mem_malloc` and `mem_trim` on a laid out heap

Both cut a block in two: a block in use, and behind it a free one.  `mem_malloc` begins its search
at `lfree`; since every block before it is in use, what it finds is the first free block of the
whole heap that is large enough.
-/
import DeepForensics.Lwip.Blocks

namespace DeepForensics
namespace Lwip

open Ram Tiling Runs Arena

/-! ## Cutting a block -/

/-- What is written where a place from `P` to `E` is cut into a block in use of length `k` and a
free one. -/
structure Cut (m m' : Memory) (P k E : ℕ) : Prop where
  first : header m' P = ⟨P + k, (header m P).prev, 1⟩
  second : header m' (P + k) = ⟨E, P, 0⟩
  prev : E ≠ memSize → get16 m' (E + 2) = P + k
  data : ∀ i, P + sizeofMem ≤ i → i < P + k → m' i = m i
  out : SameOutside m m' P E

/-- The heap after a cut. -/
lemma Cut.tiled {m m' : Memory} {l r : List Block} {k : ℕ} (mid : List Block)
    (h : Tiled m (l ++ (mid ++ r)))
    (hk : sizeofMem + minSize ≤ k) (hk' : k + (sizeofMem + minSize) ≤ total mid)
    (hc : Cut m m' (total l) k (total l + total mid)) :
    Tiled m' (l ++ ⟨k, true⟩ :: ⟨total mid - k, false⟩ :: r) := by
  have hprev : (header m (total l)).prev = lastStart 0 0 l := by
    rcases mid with _ | ⟨b, mid⟩
    · simp only [total_nil, sizes] at hk'
      omega
    · rw [h.header_mid]
  simp only [sizes] at hk hk'
  refine Tiled.edit mid [⟨k, true⟩, ⟨total mid - k, false⟩] h ?_ ?_ ⟨?_, ?_, trivial⟩ ?_ hc.out
  · simp only [total_cons, total_nil]
    omega
  · simp only [List.forall_mem_cons, List.not_mem_nil, false_imp_iff, implies_true, and_true, sizes]
    omega
  · rw [hc.first, hprev]
    rfl
  · rw [hc.second]
    simp only [Mem.mk.injEq]
    exact ⟨by omega, trivial, rfl⟩
  · intro hr
    obtain ⟨c, r', rfl⟩ := List.exists_cons_of_ne_nil hr
    have hend := h.covers
    have hsize := h.size_pos c (by simp)
    simp only [total_append, total_cons] at hend
    exact hc.prev (by omega)

/-- The writes to the two headers: `mem2->used`, `mem2->next`, `mem2->prev`, `mem->next`,
`mem->used`. -/
def cutRam (m : Memory) (P p2 E : ℕ) : Memory :=
  put8 (put16 (put16 (put16 (put8 m (p2 + 4) 0) p2 E) (p2 + 2) P) P p2) (P + 4) 1

/-- The write to `mem2->next->prev`. -/
def relinkRam (m : Memory) (p2 E : ℕ) : Memory := if E ≠ memSize then put16 m (E + 2) p2 else m

lemma relink_eq {A : Arena} {p2 E : ℕ} (hE : E ≤ memSize) :
    relink A E p2 = .ok { A with ram := relinkRam A.ram p2 E } := by
  by_cases h : E = memSize
  · simp [relink, relinkRam, h]
  · rw [relink, if_pos h, setPrev_of_le hE, relinkRam, if_pos h]

lemma relinkRam_of_ne {m : Memory} {p2 E i : ℕ} (h : i ≠ E + 2) (h' : i ≠ E + 3) :
    relinkRam m p2 E i = m i := by
  rw [relinkRam]
  split
  · exact put16_of_ne h h'
  · rfl

lemma header_relinkRam {m : Memory} {p p2 E : ℕ} (h : p + 6 ≤ E) :
    header (relinkRam m p2 E) p = header m p :=
  header_congr fun i _ _ => relinkRam_of_ne (by omega) (by omega)

lemma header_cutRam (m : Memory) {P p2 E : ℕ} (hP : P + 6 ≤ p2) (hE : p2 + 6 ≤ E)
    (hM : E ≤ memSize) : header (cutRam m P p2 E) p2 = ⟨E, P, 0⟩ := by
  simp only [sizes] at hM
  rw [cutRam, header_put8_of_apart (by omega), header_put16_of_apart (by omega),
    header_putPrev (by omega), header_putNext (by omega), header_putUsed]

lemma cut_cutRam (m : Memory) {P k E : ℕ} (hk : sizeofMem + minSize ≤ k)
    (hE : P + k + (sizeofMem + minSize) ≤ E) (hM : E ≤ memSize) :
    Cut m (relinkRam (cutRam m P (P + k) E) (P + k) E) P k E := by
  simp only [sizes] at hk hE hM
  constructor
  · rw [header_relinkRam (by omega), cutRam, header_putUsed, header_putNext (by omega),
      header_put16_of_apart (by omega), header_put16_of_apart (by omega),
      header_put8_of_apart (by omega)]
  · rw [header_relinkRam (by omega), header_cutRam m (by omega) (by omega)
      (by simp only [sizes]; omega)]
  · intro hne
    rw [relinkRam, if_pos hne, get16_put16, Nat.mod_eq_of_lt (by omega)]
  · intro i hi hi'
    simp only [sizes] at hi
    rw [relinkRam_of_ne (by omega) (by omega), cutRam, put8_of_ne (by omega),
      put16_of_ne (by omega) (by omega), put16_of_ne (by omega) (by omega),
      put16_of_ne (by omega) (by omega), put8_of_ne (by omega)]
  · intro i hi h2 h3
    rw [relinkRam_of_ne h2 h3, cutRam, put8_of_ne (by omega),
      put16_of_ne (by omega) (by omega), put16_of_ne (by omega) (by omega),
      put16_of_ne (by omega) (by omega), put8_of_ne (by omega)]

/-! ## `mem_malloc` -/

section Malloc

variable {A : Arena} {l r : List Block} {b : Block} {size : ℕ}

lemma dataSize_of_le {m : Mem} {P n : ℕ} (hn : m.next = P + n) (h6 : sizeofMem ≤ n)
    (hM : P + n ≤ memSize) : dataSize m P = n - sizeofMem := by
  simp only [dataSize, sizeT, hn, sizes] at *
  omega

/-- The block is cut. -/
lemma mallocSplit_spec (h : Tiled A.ram (l ++ b :: r)) (hs : minSize ≤ size)
    (hb : size + sizeofMem + (sizeofMem + minSize) ≤ b.size) :
    ∃ m', mallocSplit A (total l) size
        = .ok { A with ram := m', stats := A.stats.incUsed (size + sizeofMem : ℕ) } ∧
      Cut A.ram m' (total l) (size + sizeofMem) (total l + b.size) := by
  have hend := h.covers
  simp only [total_append, total_cons] at hend
  have hcut := cut_cutRam A.ram (P := total l) (k := size + sizeofMem) (E := total l + b.size)
    (by omega) (by omega) (by omega)
  refine ⟨_, ?_, hcut⟩
  simp only [sizes] at hs hb hend
  have hp2 : memSizeT ((total l : ℤ) + sizeofMem + size) = total l + (size + sizeofMem) := by
    simp only [memSizeT, sizes]
    omega
  have hP2 : total l + (size + sizeofMem) ≤ memSize := by
    simp only [sizes]
    omega
  have hP : total l ≤ memSize := by omega
  have hnext : header (put8 A.ram (total l + (size + sizeofMem) + 4) 0) (total l)
      = header A.ram (total l) := header_put8_of_apart (by simp only [sizes]; omega)
  simp only [mallocSplit, hp2, setUsed_of_le hP2, setNext_of_le hP2, setPrev_of_le hP2,
    setUsed_of_le hP, setNext_of_le hP, load_of_le hP, load_of_le hP2, ok_bind, hnext,
    h.header_mid]
  rw [show put8 _ (total l + 4) 1 = cutRam A.ram (total l) (total l + (size + sizeofMem))
    (total l + b.size) from rfl, header_cutRam A.ram (by simp only [sizes]; omega)
    (by simp only [sizes]; omega) (by simp only [sizes]; omega),
    relink_eq (by simp only [sizes]; omega), ok_bind, Nat.cast_add]

/-- The whole block is taken. -/
lemma mallocWhole_spec (h : Tiled A.ram (l ++ b :: r)) :
    ∃ m', mallocWhole A (total l) = .ok { A with ram := m', stats := A.stats.incUsed b.size } ∧
      Tiled m' (l ++ ⟨b.size, true⟩ :: r) ∧
      SameOutside A.ram m' (total l) (total l + b.size) := by
  have hend := h.covers
  have hb := h.size_le b (by simp)
  simp only [total_append, total_cons, sizes] at hend
  have hP : total l ≤ memSize := by
    simp only [sizes]
    omega
  have hn : ((total l + b.size : ℕ) : ℤ) - (memSizeT (total l) : ℕ) = b.size := by
    rw [memSizeT_natCast (by omega)]
    omega
  refine ⟨put8 A.ram (total l + 4) 1, ?_, h.flag true, ?_⟩
  · rw [mallocWhole, setUsed_of_le hP, ok_bind, load_of_le hP, ok_bind, header_putUsed,
      h.header_mid, hn]
  · intro i hi h2 h3
    exact put8_of_ne (by omega)

/-- The loop finds the next free block. -/
lemma nextFree_spec (h : Tiled A.ram (l ++ r)) {fuel : ℕ} (hfuel : r.length < fuel) :
    nextFree A fuel (total l) = .ok (total l + firstFree r) := by
  induction r generalizing l fuel with
  | nil =>
    obtain ⟨fuel, rfl⟩ := Nat.exists_eq_add_one.mpr hfuel
    have hend := h.covers
    rw [List.append_nil] at hend
    rw [nextFree, hend, load_of_le le_rfl, ok_bind, if_neg (by simp)]
    rfl
  | cons b r ih =>
    obtain ⟨fuel, rfl⟩ := Nat.exists_eq_add_one.mpr (Nat.zero_lt_of_lt hfuel)
    have hend := h.covers
    have hpos := h.size_pos b (by simp)
    simp only [total_append, total_cons] at hend
    rw [nextFree, load_of_le (by omega), ok_bind, h.header_mid, firstFree]
    by_cases hb : b.used = true
    · have hsplit : Tiled A.ram ((l ++ [b]) ++ r) := by simpa using h
      have hnext := ih hsplit (by simpa using hfuel)
      rw [if_pos ⟨by simp [hb], by omega⟩]
      simpa [hb, Nat.add_assoc] using hnext
    · rw [if_neg (by simp [hb])]
      simp [hb]

/-- `lfree` is the first free block again. -/
lemma mallocAdjust_spec {c : Block} {r' : List Block} (h : Tiled A.ram (l ++ c :: r'))
    (hlfree : A.lfree = firstFree (l ++ b :: r)) (hb : b.used = false) :
    mallocAdjust A (total l) = .ok { A with lfree := firstFree (l ++ c :: r') } := by
  by_cases hl : ∀ x ∈ l, x.used = true
  · -- everything before the block is in use, so `lfree` was the block
    have hlf : A.lfree = total l := by
      rw [hlfree, firstFree_append_of_used hl]
      simp [firstFree, hb]
    have hlen : (c :: r').length < memSize + 1 := by
      have := h.length_le
      rw [List.length_append] at this
      omega
    have hnew := firstFree_append_of_used hl (r := c :: r')
    rw [mallocAdjust, if_pos hlf.symm, hlf, nextFree_spec h hlen, ok_bind, ← hnew]
    rw [load_of_le (h.covers ▸ firstFree_le_total _), ok_bind]
    rcases firstFree_cases (l ++ c :: r') with hend | ⟨d, hd, l', r'', heq, hat⟩
    · simp [hend, h.covers]
    · have hfree : (header A.ram (firstFree (l ++ c :: r'))).used = 0 := by
        rw [hat, (heq ▸ h : Tiled A.ram (l' ++ d :: r'')).header_mid]
        simp [hd]
      simp [hfree]
  · have hlt := firstFree_lt_of_free (fun x hx => h.size_pos x (by simp [hx])) hl (b :: r)
    rw [mallocAdjust, if_neg (by omega), firstFree_append_of_free hl _ (b :: r), ← hlfree]

/-- The block becomes a block in use, with a free block behind it if there is room for one. -/
lemma mallocUse_spec (h : Tiled A.ram (l ++ b :: r)) (hco : Coalesced (l ++ b :: r))
    (hb : b.used = false) (hs : minSize ≤ size) (hfit : size + sizeofMem ≤ b.size) :
    ∃ (m' : Memory) (k : ℕ) (fr : List Block), mallocUse A (total l) size (header A.ram (total l))
        = .ok { A with ram := m', stats := A.stats.incUsed k } ∧
      Tiled m' (l ++ ⟨k, true⟩ :: (fr ++ r)) ∧ Coalesced (l ++ ⟨k, true⟩ :: (fr ++ r)) ∧
      size + sizeofMem ≤ k ∧ (∀ x ∈ fr, x.used = false) ∧ k + total fr = b.size ∧
      SameOutside A.ram m' (total l) (total l + b.size) := by
  have hend := h.covers
  simp only [total_append, total_cons] at hend
  have hdata : dataSize (header A.ram (total l)) (total l) = b.size - sizeofMem :=
    dataSize_of_le (by rw [h.header_mid]) (by omega) (by omega)
  by_cases hroom : size + sizeofMem + (sizeofMem + minSize) ≤ b.size
  · obtain ⟨m', hrun, hcut⟩ := mallocSplit_spec h hs hroom
    refine ⟨m', size + sizeofMem, [⟨b.size - (size + sizeofMem), false⟩], ?_, ?_, ?_, le_rfl,
      by simp, ?_, hcut.out⟩
    · rw [mallocUse, hdata, if_pos (by simp only [sizes] at *; omega), hrun]
    · have htiled := Cut.tiled [b] h (k := size + sizeofMem) (by omega) (by simpa using hroom)
        (by simpa using hcut)
      simpa using htiled
    · exact coalesced_used hco.left (hco.right.resize hb.symm) rfl
    · simp only [total_cons, total_nil]
      omega
  · obtain ⟨m', hrun, htiled, hout⟩ := mallocWhole_spec h
    refine ⟨m', b.size, [], ?_, htiled, coalesced_used hco.left hco.right.tail rfl, hfit, by simp,
      by simp, hout⟩
    rw [mallocUse, hdata, if_neg (by simp only [sizes] at *; omega), hrun]

/-- **A block is taken.** -/
lemma mallocTake_spec (h : Holds A (l ++ b :: r)) (hb : b.used = false) (hs : minSize ≤ size)
    (hfit : size + sizeofMem ≤ b.size) :
    ∃ (A' : Arena) (k : ℕ) (fr : List Block), mallocTake A (total l) size (header A.ram (total l))
        = .ok (A', some (total l + sizeofMem : ℕ)) ∧
      Holds A' (l ++ ⟨k, true⟩ :: (fr ++ r)) ∧ size + sizeofMem ≤ k ∧
      (∀ x ∈ fr, x.used = false) ∧ k + total fr = b.size ∧
      SameOutside A.ram A'.ram (total l) (total l + b.size) ∧ A'.stats = A.stats.incUsed k := by
  obtain ⟨m', k, fr, hrun, htiled, hco, hk, hfr, htotal, hout⟩ :=
    mallocUse_spec h.toTiled h.coalesced hb hs hfit
  have hadjust := mallocAdjust_spec (A := ⟨m', A.lfree, A.stats.incUsed k⟩) htiled h.lfree hb
  have hend := htiled.covers
  simp only [total_append, total_cons] at hend
  have hused : A.stats.used = usedTotal l + usedTotal r := by
    rw [h.used]
    simp [hb]
  have hnew : usedTotal (l ++ ⟨k, true⟩ :: (fr ++ r)) = A.stats.used + k := by
    simp only [usedTotal_append, usedTotal_cons, usedTotal_of_free hfr, hused, if_true]
    omega
  have hle := usedTotal_le (l ++ ⟨k, true⟩ :: (fr ++ r))
  rw [htiled.covers, hnew] at hle
  refine ⟨⟨m', _, A.stats.incUsed k⟩, k, fr, ?_, ⟨htiled, hco, rfl, ?_⟩, hk, hfr, htotal, hout,
    rfl⟩
  · have hlegal : total l + sizeofMem + size ≤ memSize := by omega
    rw [mallocTake, hrun, ok_bind, hadjust, ok_bind]
    simp only [hlegal, decide_true, lwipAssert_true, ok_bind, Nat.cast_add]
  · rw [hnew]
    exact incUsed_used hle

/-- The test of the search. -/
lemma scan_iff (h : Tiled A.ram (l ++ b :: r)) :
    (header A.ram (total l)).used = 0 ∧ size ≤ dataSize (header A.ram (total l)) (total l) ↔
      fits (size + sizeofMem) b = true := by
  have hend := h.covers
  have hb := h.size b (by simp)
  simp only [total_append, total_cons] at hend
  rw [dataSize_of_le (n := b.size) (by rw [h.header_mid]) (by omega) (by omega), fits_iff,
    h.header_mid]
  by_cases hu : b.used = true
  · simp [hu]
  · simp only [hu, Bool.false_eq_true, if_false, true_and]
    omega

/-- A block that does not fit is passed over. -/
lemma mallocScan_skip (h : Tiled A.ram (l ++ b :: r)) (hb : fits (size + sizeofMem) b = false)
    (hlt : total l < memSize - size) (fuel : ℕ) :
    mallocScan A size (fuel + 1) (total l) = mallocScan A size fuel (total (l ++ [b])) := by
  rw [mallocScan, if_pos hlt, load_of_le (by omega), ok_bind,
    if_neg (by rw [scan_iff h, hb]; exact Bool.false_ne_true), h.header_mid]
  simp

/-- The search fails where no block fits. -/
lemma mallocScan_none (h : Tiled A.ram (l ++ r))
    (hr : ∀ x ∈ r, fits (size + sizeofMem) x = false) {fuel : ℕ} (hfuel : r.length < fuel) :
    mallocScan A size fuel (total l) = .ok ({ A with stats := A.stats.incErr }, none) := by
  obtain ⟨fuel, rfl⟩ := Nat.exists_eq_add_one.mpr (Nat.zero_lt_of_lt hfuel)
  induction r generalizing l fuel with
  | nil =>
    have hend := h.covers
    rw [List.append_nil] at hend
    rw [mallocScan, if_neg (by omega)]
  | cons c r ih =>
    obtain ⟨hc, hr⟩ := List.forall_mem_cons.mp hr
    rw [List.length_cons] at hfuel
    obtain ⟨fuel, rfl⟩ := Nat.exists_eq_add_one.mpr (show 0 < fuel by omega)
    by_cases hlt : total l < memSize - size
    · rw [mallocScan_skip h hc hlt]
      exact ih (l := l ++ [c]) (by simpa using h) hr fuel (by omega)
    · rw [mallocScan, if_neg hlt]

/-- The search ends at the first block that fits. -/
lemma mallocScan_take {r' : List Block} (h : Tiled A.ram (l ++ (r ++ b :: r')))
    (hr : ∀ x ∈ r, fits (size + sizeofMem) x = false) (hb : fits (size + sizeofMem) b = true)
    {fuel : ℕ} (hfuel : r.length < fuel) :
    mallocScan A size fuel (total l)
      = mallocTake A (total (l ++ r)) size (header A.ram (total (l ++ r))) := by
  obtain ⟨fuel, rfl⟩ := Nat.exists_eq_add_one.mpr (Nat.zero_lt_of_lt hfuel)
  obtain ⟨-, hle⟩ := fits_iff.mp hb
  have hlt : ∀ u v, Tiled A.ram (u ++ (v ++ b :: r')) → total u < memSize - size := by
    intro u v huv
    have hend := huv.covers
    simp only [total_append, total_cons, sizes] at hend hle ⊢
    omega
  induction r generalizing l fuel with
  | nil =>
    have := hlt l [] h
    rw [List.append_nil, mallocScan, if_pos this, load_of_le (by omega), ok_bind,
      if_pos ((scan_iff h).mpr hb)]
  | cons c r ih =>
    obtain ⟨hc, hr⟩ := List.forall_mem_cons.mp hr
    rw [List.length_cons] at hfuel
    obtain ⟨fuel, rfl⟩ := Nat.exists_eq_add_one.mpr (show 0 < fuel by omega)
    rw [mallocScan_skip h hc (hlt l _ h),
      ih (l := l ++ [c]) (by simpa using h) hr fuel (by omega), List.append_assoc]
    rfl

lemma minSize_le_padded (size : ℕ) : minSize ≤ padded size := by
  unfold padded
  split <;> omega

lemma le_padded (size : ℕ) : size ≤ padded size := by
  unfold padded
  split <;> omega

/-- **`mem_malloc` is first fit.**  Without a free block that is large enough it returns `NULL`;
otherwise it takes the first one. -/
lemma memMalloc_spec {bs : List Block} (h : Holds A bs) (hs : size ≠ 0) :
    (firstFit (padded size + sizeofMem) bs = none ∧
      ∃ A', memMalloc A size = .ok (A', none) ∧ A'.ram = A.ram ∧ A'.lfree = A.lfree ∧
        A'.stats.used = A.stats.used ∧ A'.stats.max = A.stats.max) ∨
    ∃ l b r A' k fr, bs = l ++ b :: r ∧ b.used = false ∧
      firstFit (padded size + sizeofMem) bs = some (total l) ∧
      memMalloc A size = .ok (A', some (total l + sizeofMem : ℕ)) ∧
      Holds A' (l ++ ⟨k, true⟩ :: (fr ++ r)) ∧ padded size + sizeofMem ≤ k ∧
      (∀ x ∈ fr, x.used = false) ∧ k + total fr = b.size ∧
      SameOutside A.ram A'.ram (total l) (total l + b.size) ∧ A'.stats = A.stats.incUsed k := by
  have hsize := minSize_le_padded size
  obtain ⟨n, hn⟩ : ∃ n, n = padded size := ⟨_, rfl⟩
  rw [← hn] at hsize ⊢
  have hstart : memMalloc A size = if memSize < n then .ok (A, none)
      else mallocScan A n (memSize + 1) A.lfree := by
    have hlfree : memSizeT A.lfree = A.lfree := by
      have := firstFree_le_total bs
      rw [h.covers, ← h.lfree] at this
      exact memSizeT_natCast (lt_of_le_of_lt this (by decide))
    rw [memMalloc, if_neg hs, hlfree, hn]
  rw [hstart]
  cases hfit : firstFit (n + sizeofMem) bs with
  | none =>
    refine Or.inl ⟨rfl, ?_⟩
    by_cases hlarge : memSize < n
    · exact ⟨A, if_pos hlarge, rfl, rfl, rfl, rfl⟩
    · obtain ⟨u, v, rfl, hu, hfirst⟩ := firstFree_split bs
      have hlen := h.length_le
      rw [List.length_append] at hlen
      have hscan : mallocScan A n (memSize + 1) (total u)
          = .ok ({ A with stats := A.stats.incErr }, none) :=
        mallocScan_none h.toTiled (fun x hx => firstFit_eq_none_iff.mp hfit x (by simp [hx]))
          (show v.length < memSize + 1 by omega)
      rw [← hfirst, ← h.lfree] at hscan
      exact ⟨_, (if_neg hlarge).trans hscan, rfl, rfl, rfl, rfl⟩
  | some p =>
    obtain ⟨l, b, r, rfl, rfl, hb, hl⟩ := firstFit_eq_some_iff.mp hfit
    obtain ⟨hbfree, hble⟩ := fits_iff.mp hb
    have hend := h.covers
    simp only [total_append, total_cons] at hend
    obtain ⟨A', k, fr, hrun, hholds, hk, hfr, htotal, hout, hstats⟩ :=
      mallocTake_spec h hbfree hsize hble
    refine Or.inr ⟨l, b, r, A', k, fr, rfl, hbfree, rfl, ?_, hholds, hk, hfr, htotal, hout, hstats⟩
    -- the blocks before `lfree` are in use, so the block found is not before it
    obtain ⟨u, v, huv, hu, hfirst⟩ := firstFree_split (l ++ b :: r)
    obtain ⟨w, rfl, rfl⟩ : ∃ w, l = u ++ w ∧ v = w ++ b :: r := by
      rcases List.append_eq_append_iff.mp huv with ⟨w, hw, hv⟩ | ⟨w, hw, hv⟩
      · rcases w with _ | ⟨x, w⟩
        · exact ⟨[], by simpa using hw.symm, by simpa using hv.symm⟩
        · obtain ⟨rfl, -⟩ := List.cons.inj hv
          have := hu b (by simp [hw])
          simp [hbfree] at this
      · exact ⟨w, hw, hv⟩
    have hlen := h.length_le
    simp only [List.length_append, List.length_cons] at hlen
    have htiled : Tiled A.ram (u ++ (w ++ b :: r)) := by simpa using h.toTiled
    rw [if_neg (by omega), h.lfree, hfirst, mallocScan_take htiled
      (fun x hx => hl x (by simp [hx])) hb (by omega), hrun]

end Malloc

/-! ## `mem_trim` -/

section Trim

variable {A : Arena} {l r : List Block} {a b : Block} {newsize : ℕ}

/-- The flag of a block that is in use already need not be written. -/
lemma cutRam_of_used {m : Memory} {P p2 E : ℕ} (hP : P + 6 ≤ p2) (hu : m (P + 4) = 1) :
    put16 (put16 (put16 (put8 m (p2 + 4) 0) p2 E) (p2 + 2) P) P p2 = cutRam m P p2 E := by
  refine (put8_eq_self ?_).symm
  rw [put16_of_ne (by omega) (by omega), put16_of_ne (by omega) (by omega),
    put16_of_ne (by omega) (by omega), put8_of_ne (by omega), hu]

lemma lfree_ite (c : Prop) [Decidable c] (A : Arena) (p : ℕ) :
    (if c then { A with lfree := p } else A) = { A with lfree := if c then p else A.lfree } := by
  split <;> rfl

lemma used_of_tiled {m : Memory} (h : Tiled m (l ++ a :: r)) (ha : a.used = true) :
    m (total l + 4) = 1 := by
  have hused : (header m (total l)).used = 1 := by
    rw [h.header_mid, ha]
    rfl
  exact hused

/-- The free block behind is moved. -/
lemma trimMove_spec (h : Tiled A.ram (l ++ a :: b :: r)) (ha : a.used = true)
    (hn : minSize ≤ newsize) (hlt : newsize + sizeofMem < a.size) (size : ℕ) :
    ∃ m', trimMove A (total l) (total l) size newsize
        = .ok ⟨m', if A.lfree = total l + a.size then total l + (newsize + sizeofMem) else A.lfree,
            A.stats.decUsed (size - newsize)⟩ ∧
      Cut A.ram m' (total l) (newsize + sizeofMem) (total l + a.size + b.size) := by
  have hend := h.covers
  have hb := h.size b (by simp)
  simp only [total_append, total_cons] at hend
  have hcut := cut_cutRam A.ram (P := total l) (k := newsize + sizeofMem)
    (E := total l + a.size + b.size) (by omega) (by omega) (by omega)
  refine ⟨_, ?_, hcut⟩
  simp only [sizes] at hn hlt hend hb
  have hp2 : memSizeT ((total l : ℤ) + sizeofMem + newsize) = total l + (newsize + sizeofMem) := by
    simp only [memSizeT, sizes]
    omega
  have hP2 : total l + (newsize + sizeofMem) ≤ memSize := by
    simp only [sizes]
    omega
  have hP : total l ≤ memSize := by omega
  have hPa : total l + a.size ≤ memSize := by
    simp only [sizes]
    omega
  simp only [trimMove, hp2, lfree_ite, setUsed_of_le hP2, setNext_of_le hP2, setPrev_of_le hP2,
    setNext_of_le hP, load_of_le hP, load_of_le hP2, load_of_le hPa, ok_bind, h.header_mid,
    h.header_second]
  rw [cutRam_of_used (by simp only [sizes]; omega) (used_of_tiled h ha),
    header_cutRam A.ram (by simp only [sizes]; omega) (by simp only [sizes]; omega)
      (by simp only [sizes]; omega), relink_eq (by simp only [sizes]; omega), ok_bind]

/-- The rest becomes a free block. -/
lemma trimSplit_spec (h : Tiled A.ram (l ++ a :: r)) (ha : a.used = true)
    (hn : minSize ≤ newsize) (hlt : newsize + sizeofMem + (sizeofMem + minSize) ≤ a.size)
    (size : ℕ) :
    ∃ m', trimSplit A (total l) (total l) size newsize
        = .ok ⟨m', if total l + (newsize + sizeofMem) < A.lfree
            then total l + (newsize + sizeofMem) else A.lfree,
            A.stats.decUsed (size - newsize)⟩ ∧
      Cut A.ram m' (total l) (newsize + sizeofMem) (total l + a.size) := by
  have hend := h.covers
  simp only [total_append, total_cons] at hend
  have hcut := cut_cutRam A.ram (P := total l) (k := newsize + sizeofMem) (E := total l + a.size)
    (by omega) (by omega) (by omega)
  refine ⟨_, ?_, hcut⟩
  simp only [sizes] at hn hlt hend
  have hp2 : memSizeT ((total l : ℤ) + sizeofMem + newsize) = total l + (newsize + sizeofMem) := by
    simp only [memSizeT, sizes]
    omega
  have hP2 : total l + (newsize + sizeofMem) ≤ memSize := by
    simp only [sizes]
    omega
  have hP : total l ≤ memSize := by omega
  have hnext : header (put8 A.ram (total l + (newsize + sizeofMem) + 4) 0) (total l)
      = header A.ram (total l) := header_put8_of_apart (by simp only [sizes]; omega)
  simp only [trimSplit, hp2, lfree_ite, setUsed_of_le hP2, setNext_of_le hP2, setPrev_of_le hP2,
    setNext_of_le hP, load_of_le hP, load_of_le hP2, ok_bind, hnext, h.header_mid]
  rw [cutRam_of_used (by simp only [sizes]; omega) (used_of_tiled h ha),
    header_cutRam A.ram (by simp only [sizes]; omega) (by simp only [sizes]; omega)
      (by simp only [sizes]; omega), relink_eq (by simp only [sizes]; omega), ok_bind]

/-- `mem_trim` on a block in use, as far as the choice of what is done with the rest. -/
lemma memTrim_eq {s : ℕ} (h : Tiled A.ram (l ++ ⟨s, true⟩ :: r))
    (hn : padded newsize + sizeofMem ≤ s) :
    memTrim A (total l + sizeofMem : ℕ) newsize =
      (if padded newsize = s - sizeofMem then .ok (A, some (total l + sizeofMem : ℕ)) else do
        let m2 ← A.load (total l + s)
        if m2.used = 0 then do
          let h ← trimMove A (total l) (total l) (s - sizeofMem) (padded newsize)
          .ok (h, some (total l + sizeofMem : ℕ))
        else if padded newsize + sizeofMem + minSize ≤ s - sizeofMem then do
          let h ← trimSplit A (total l) (total l) (s - sizeofMem) (padded newsize)
          .ok (h, some (total l + sizeofMem : ℕ))
        else .ok (A, some (total l + sizeofMem : ℕ))) := by
  have hend := h.covers
  simp only [total_append, total_cons] at hend
  have hs := h.size ⟨s, true⟩ (by simp)
  simp only [sizes] at hend hs hn
  have hP : total l ≤ memSize := by
    simp only [sizes]
    omega
  have hlegal : ((0 : ℤ) ≤ (total l + sizeofMem : ℕ) && ((total l + sizeofMem : ℕ) : ℤ) < memSize)
      = true := by
    simp only [sizes, Bool.and_eq_true, decide_eq_true_eq]
    omega
  have hptr : memSizeT (total l) = total l := memSizeT_natCast (by omega)
  have hsize : memSizeT ((total l + s : ℕ) - (total l : ℤ) - sizeofMem) = s - sizeofMem := by
    simp only [memSizeT, sizes]
    omega
  have hle : padded newsize ≤ s - sizeofMem := by
    simp only [sizes]
    omega
  rw [memTrim, if_neg (by simp only [sizes]; omega), hlegal, lwipAssert_true, ok_bind,
    headerOf_natCast, ok_bind]
  simp only [hptr, load_of_le hP, ok_bind, h.header_mid, hsize, decide_eq_true hle,
    lwipAssert_true]

/-- The block of length `s` is trimmed to `n` bytes of data or a little more, and keeps them; what
is left over is free. -/
def Trims (A A' : Arena) (l : List Block) (s : ℕ) (r : List Block) (n : ℕ) : Prop :=
  ∃ (k : ℕ) (fr fr' r' : List Block), r = fr ++ r' ∧ (∀ b ∈ fr ++ fr', b.used = false) ∧
    Holds A' (l ++ ⟨k, true⟩ :: (fr' ++ r')) ∧ n + sizeofMem ≤ k ∧ k ≤ s ∧
    k + total fr' = s + total fr ∧
    SameOutside A.ram A'.ram (total l) (total l + (s + total fr)) ∧
    (∀ i, total l + sizeofMem ≤ i → i < total l + k → A'.ram i = A.ram i) ∧
    A'.stats.max = A.stats.max

lemma trims_refl {s n : ℕ} (h : Holds A (l ++ ⟨s, true⟩ :: r)) (hn : n + sizeofMem ≤ s) :
    Trims A A l s r n :=
  ⟨s, [], [], r, rfl, by simp, h, hn, le_rfl, rfl, fun _ _ _ _ => rfl, fun _ _ _ => rfl, rfl⟩

/-- The block and the free blocks `fr` behind it are cut anew. -/
lemma trims_cut {s n : ℕ} {r' : List Block} {lf : ℕ} (m' : Memory) (fr : List Block)
    (h : Holds A (l ++ ⟨s, true⟩ :: (fr ++ r'))) (hfr : ∀ b ∈ fr, b.used = false)
    (hco : Coalesced (⟨s + total fr - (n + sizeofMem), false⟩ :: r')) (hmin : minSize ≤ n)
    (hn : n + sizeofMem ≤ s) (hroom : n + sizeofMem + (sizeofMem + minSize) ≤ s + total fr)
    (hcut : Cut A.ram m' (total l) (n + sizeofMem) (total l + (s + total fr)))
    (hlf : lf = firstFree (l ++ ⟨n + sizeofMem, true⟩
      :: ⟨s + total fr - (n + sizeofMem), false⟩ :: r')) :
    Trims A ⟨m', lf, A.stats.decUsed ((s - sizeofMem : ℕ) - n)⟩ l s (fr ++ r') n := by
  have hdec : ((s - sizeofMem : ℕ) : ℤ) - n = (s - (n + sizeofMem) : ℕ) := by omega
  have hused : A.stats.used = usedTotal l + s + usedTotal r' := by
    rw [h.used]
    simp [usedTotal_of_free hfr, Nat.add_assoc]
  have htiled : Tiled m' (l ++ ⟨n + sizeofMem, true⟩
      :: ⟨total (⟨s, true⟩ :: fr) - (n + sizeofMem), false⟩ :: r') :=
    Cut.tiled (⟨s, true⟩ :: fr) h.toTiled (by omega) (by simpa using hroom) (by simpa using hcut)
  refine ⟨n + sizeofMem, fr, [⟨s + total fr - (n + sizeofMem), false⟩], r', rfl, ?_,
    ⟨by simpa using htiled, ?_, hlf, ?_⟩, le_rfl, hn, ?_, hcut.out, hcut.data, rfl⟩
  · exact List.forall_mem_append.mpr ⟨hfr, by simp⟩
  · exact coalesced_used h.coalesced.left hco rfl
  · rw [hdec, decUsed_used (by omega) h.used_le, hused]
    simp only [usedTotal_append, usedTotal_cons, usedTotal_nil, if_true, Bool.false_eq_true,
      if_false]
    omega
  · simp only [total_cons, total_nil]
    omega

/-- **`mem_trim`.**  The block keeps its data up to the new size; what is left over is joined to
the free block behind it, or becomes one if it is large enough. -/
lemma memTrim_spec {s : ℕ} (h : Holds A (l ++ ⟨s, true⟩ :: r))
    (hn : padded newsize + sizeofMem ≤ s) :
    ∃ A', memTrim A (total l + sizeofMem : ℕ) newsize
        = .ok (A', some (total l + sizeofMem : ℕ)) ∧ Trims A A' l s r (padded newsize) := by
  have hend := h.covers
  simp only [total_append, total_cons] at hend
  have hmin := minSize_le_padded newsize
  have hpos : ∀ b ∈ l, 0 < b.size := fun b hb => h.size_pos b (by simp [hb])
  obtain ⟨n, hn'⟩ : ∃ n, n = padded newsize := ⟨_, rfl⟩
  rw [memTrim_eq h.toTiled hn, load_of_le (by omega), ok_bind, ← hn']
  rw [← hn'] at hn hmin
  by_cases heq : n = s - sizeofMem
  · exact ⟨A, if_pos heq, trims_refl h hn⟩
  rw [if_neg heq]
  by_cases hfree : ∃ c r', r = c :: r' ∧ c.used = false
  · -- the next block is free: it is moved
    obtain ⟨c, r', rfl, hc⟩ := hfree
    have hcsize := h.size c (by simp)
    obtain ⟨m', hrun, hcut⟩ := trimMove_spec h.toTiled rfl hmin (show n + sizeofMem < s by omega)
      (s - sizeofMem)
    have hlf : (if A.lfree = total l + s then total l + (n + sizeofMem) else A.lfree)
        = firstFree (l ++ ⟨n + sizeofMem, true⟩
          :: ⟨s + total [c] - (n + sizeofMem), false⟩ :: r') := by
      have hcase : A.lfree = total l + s ∨ A.lfree < total l := by
        rw [h.lfree]
        by_cases hl : ∀ x ∈ l, x.used = true
        · rw [firstFree_append_of_used hl]
          simp [firstFree, hc]
        · exact Or.inr (firstFree_lt_of_free hpos hl _)
      rw [firstFree_behind (r := c :: r') hpos ⟨s, true⟩ rfl hn, ← h.lfree]
      split <;> split <;> omega
    have htrims := trims_cut m' [c] h (by simpa using hc)
      (h.coalesced.right.tail.resize hc.symm) hmin hn
      (by simp only [total_cons, total_nil]; omega) (by simpa [Nat.add_assoc] using hcut) hlf
    refine ⟨_, ?_, htrims⟩
    rw [h.header_second, if_pos (by simp [hc]), hrun]
    rfl
  · -- the next block is in use, or the block is the last one
    have hhead : ∀ c ∈ r.head?, c.used = true := by
      intro c hc
      obtain ⟨r', rfl⟩ := List.head?_eq_some_iff.mp hc
      by_contra hu
      exact hfree ⟨c, r', rfl, by simpa using hu⟩
    have hused : (header A.ram (total l + s)).used ≠ 0 := by
      rcases r with _ | ⟨c, r'⟩
      · rw [total_nil] at hend
        rw [show total l + s = memSize by omega]
        exact fun h0 => absurd (h.atEnd.symm.trans h0) (by decide)
      · rw [h.header_second, hhead c rfl]
        simp
    rw [if_neg hused]
    by_cases hroom : n + sizeofMem + minSize ≤ s - sizeofMem
    · obtain ⟨m', hrun, hcut⟩ := trimSplit_spec h.toTiled rfl hmin
        (show n + sizeofMem + (sizeofMem + minSize) ≤ s by omega) (s - sizeofMem)
      have hlf := firstFree_behind (r := r) (n := s + total [] - (n + sizeofMem)) hpos ⟨s, true⟩ rfl
        hn r
      rw [← h.lfree] at hlf
      have hco : Coalesced (⟨s + total [] - (n + sizeofMem), false⟩ :: r) :=
        List.isChain_cons.mpr ⟨fun c hc => Or.inr (hhead c hc), h.coalesced.right.tail⟩
      have htrims := trims_cut m' [] h (by simp) hco hmin hn
        (by simp only [total_nil]; omega) (by simpa using hcut) hlf.symm
      refine ⟨_, ?_, htrims⟩
      rw [if_pos hroom, hrun]
      rfl
    · exact ⟨A, if_neg hroom, trims_refl h hn⟩

end Trim

end Lwip
end DeepForensics
