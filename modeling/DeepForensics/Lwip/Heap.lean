/-
# Programs that use the heap

A program allocates, trims and frees blocks of the heap of lwIP and writes to them.  As long as
it uses only what it has got, the heap keeps its side: the blocks lie in the heap and apart from
each other, none is handed out twice, they hold what was written to them, and no call faults,
whatever bytes the heap held at the start (`heap_safe`).  `mem_malloc` finds room wherever there
is some (`malloc_lowest`), and when everything is freed the heap is one free block again
(`heap_restored`).
-/
import DeepForensics.Lwip.Alloc

namespace DeepForensics
namespace Lwip

open Ram Tiling Runs

/-! ## Programs -/

/-- What a program does with the heap. -/
inductive HeapOp where
  | malloc (size : UInt16)
  | calloc (count size : UInt16)
  | free (p : ℕ)
  | trim (p : ℕ) (newsize : UInt16)
  /-- The byte `i` of the block at `p` is written. -/
  | write (p i : ℕ) (v : UInt8)

/-- The heap, and what the program has in it: where its blocks are and what it wrote there. -/
structure Usage where
  arena : Arena
  blocks : ℕ → Option (List UInt8)

/-- Why a program stops. -/
inductive Stop where
  | fault (f : MemFault)
  /-- The program uses a block that it has not got, or asks `mem_calloc` for more bytes than a
  `mem_size_t` can say. -/
  | misuse
  /-- The program is given a block that it has already. -/
  | twice
deriving DecidableEq

/-- The `n` bytes at `p`. -/
def bytesAt (m : Memory) (p n : ℕ) : List UInt8 := (List.range n).map fun i => m (p + i)

namespace Usage

/-- The program is given the block at `p`, with these bytes in it. -/
def give (u : Usage) (A : Arena) (p : ℕ) (data : List UInt8) : Except Stop Usage :=
  match u.blocks p with
  | none => .ok ⟨A, Function.update u.blocks p (some data)⟩
  | some _ => .error .twice

/-- One call, or one write. -/
def step (u : Usage) : HeapOp → Except Stop Usage
  | .malloc size => do
    let r ← (memMalloc u.arena size.toNat).mapError Stop.fault
    match r.2 with
    | none => .ok ⟨r.1, u.blocks⟩
    | some p => u.give r.1 p.toNat (bytesAt r.1.ram p.toNat size.toNat)
  | .calloc count size =>
    if count.toNat * size.toNat < 2 ^ 16 then do
      let r ← (memCalloc u.arena count.toNat size.toNat).mapError Stop.fault
      match r.2 with
      | none => .ok ⟨r.1, u.blocks⟩
      | some p => u.give r.1 p.toNat (List.replicate (count.toNat * size.toNat) 0)
    else .error .misuse
  | .free p =>
    match u.blocks p with
    | none => .error .misuse
    | some _ => do
      let A ← (memFree u.arena (some p)).mapError Stop.fault
      .ok ⟨A, Function.update u.blocks p none⟩
  | .trim p newsize =>
    match u.blocks p with
    | none => .error .misuse
    | some data =>
      if newsize.toNat ≤ data.length then do
        let r ← (memTrim u.arena p newsize.toNat).mapError Stop.fault
        .ok ⟨r.1, Function.update u.blocks p (some (data.take newsize.toNat))⟩
      else .error .misuse
  | .write p i v =>
    match u.blocks p with
    | none => .error .misuse
    | some data =>
      if i < data.length then
        .ok ⟨{ u.arena with ram := put8 u.arena.ram (p + i) v },
          Function.update u.blocks p (some (data.set i v))⟩
      else .error .misuse

lemma give_of_none {u : Usage} {A : Arena} {p : ℕ} {data : List UInt8} (h : u.blocks p = none) :
    u.give A p data = .ok ⟨A, Function.update u.blocks p (some data)⟩ := by
  rw [give, h]

end Usage

/-! ## What the heap owes the program -/

section Bytes

variable {m m' : Memory} {p n : ℕ}

@[simp] lemma bytesAt_length (m : Memory) (p n : ℕ) : (bytesAt m p n).length = n := by
  simp [bytesAt]

lemma bytesAt_congr (h : ∀ i, p ≤ i → i < p + n → m' i = m i) : bytesAt m' p n = bytesAt m p n :=
  List.map_congr_left fun i hi => h (p + i) (by omega) (by have := List.mem_range.mp hi; omega)

lemma bytesAt_take {k : ℕ} (h : k ≤ n) : (bytesAt m p n).take k = bytesAt m p k := by
  rw [bytesAt, ← List.map_take, List.take_range, min_eq_left h, bytesAt]

lemma bytesAt_put8 {i : ℕ} (v : UInt8) :
    bytesAt (put8 m (p + i) v) p n = (bytesAt m p n).set i v := by
  refine List.ext_getElem (by simp) fun j hj _ => ?_
  simp only [bytesAt, List.getElem_map, List.getElem_range, List.getElem_set]
  by_cases hij : i = j
  · rw [if_pos hij, hij, put8_self]
  · rw [if_neg hij, put8_of_ne (by omega)]

end Bytes

/-- The blocks of the program are the blocks in use, and they hold what was written. -/
structure Backs (u : Usage) (bs : List Block) : Prop where
  holds : Holds u.arena bs
  owned : ∀ o n, Sits bs o ⟨n, true⟩ → (u.blocks (o + sizeofMem)).isSome
  held : ∀ p d, u.blocks p = some d → ∃ o n, p = o + sizeofMem ∧ Sits bs o ⟨n, true⟩ ∧
    d.length + sizeofMem ≤ n ∧ bytesAt u.arena.ram p d.length = d

/-- What the program has is in the heap, apart from each other, and as it was written. -/
structure Intact (u : Usage) : Prop where
  inside : ∀ p d, u.blocks p = some d → sizeofMem ≤ p ∧ p + d.length ≤ memSize
  apart : ∀ p q d e, p ≠ q → u.blocks p = some d → u.blocks q = some e →
    p + d.length ≤ q ∨ q + e.length ≤ p
  bytes : ∀ p d, u.blocks p = some d → bytesAt u.arena.ram p d.length = d

lemma Backs.intact {u : Usage} {bs : List Block} (h : Backs u bs) : Intact u := by
  refine ⟨fun p d hp => ?_, fun p q d e hne hp hq => ?_, fun p d hp => ?_⟩
  · obtain ⟨o, n, rfl, hs, hlen, -⟩ := h.held p d hp
    have hle := hs.le_total
    rw [h.holds.covers] at hle
    simp only at hle
    omega
  · obtain ⟨o, n, rfl, hs, hlen, -⟩ := h.held p d hp
    obtain ⟨o', n', rfl, hs', hlen', -⟩ := h.held q e hq
    rcases hs.apart hs' with ⟨rfl, -⟩ | hbefore | hafter
    · exact absurd rfl hne
    · simp only at hbefore
      omega
    · simp only at hafter
      omega
  · obtain ⟨o, n, -, -, -, hbytes⟩ := h.held p d hp
    exact hbytes

/-- The maximum in the statistics is raised to the bytes in use. -/
def Counts (A A' : Arena) : Prop :=
  A.stats.used ≤ A.stats.max → A'.stats.max = max A.stats.max A'.stats.used

/-- What is freed does not raise the maximum. -/
lemma counts_of_le {A A' : Arena} (hmax : A'.stats.max = A.stats.max)
    (hused : A'.stats.used ≤ A.stats.used) : Counts A A' := by
  intro hle
  rw [hmax, max_eq_left (hused.trans hle)]

lemma counts_incUsed {A A' : Arena} {n : ℤ} (h : A'.stats = A.stats.incUsed n) :
    Counts A A' := by
  intro _
  rw [h, MemStats.incUsed]
  dsimp only
  split <;> omega

namespace Backs

variable {u : Usage} {l r : List Block} {A : Arena} {o : ℕ} {D : Option (List UInt8)}

/-- One block of the program changes, and the heap around it stays. -/
lemma edit (mid mid' : List Block) (h : Backs u (l ++ (mid ++ r)))
    (hholds : Holds A (l ++ (mid' ++ r))) (htotal : total mid' = total mid)
    (hout : SameOutside u.arena.ram A.ram (total l) (total l + total mid))
    (ho : total l ≤ o ∧ o < total l + total mid)
    (hmid : ∀ q n, Sits mid q ⟨n, true⟩ → total l + q = o)
    (hmid' : ∀ q n, Sits mid' q ⟨n, true⟩ → total l + q = o ∧ D.isSome)
    (hD : ∀ d, D = some d → ∃ n, Sits (l ++ (mid' ++ r)) o ⟨n, true⟩ ∧ d.length + sizeofMem ≤ n ∧
      bytesAt A.ram (o + sizeofMem) d.length = d) :
    Backs ⟨A, Function.update u.blocks (o + sizeofMem) D⟩ (l ++ (mid' ++ r)) := by
  refine ⟨hholds, fun o' n hs => ?_, fun p d hp => ?_⟩
  · have hpos := hholds.size_pos _ hs.mem
    rcases hs.mid_or with ⟨q, rfl, hq⟩ | ⟨hzone, hsame⟩
    · obtain ⟨rfl, hsome⟩ := hmid' q n hq
      show (Function.update u.blocks _ D _).isSome = true
      rwa [Function.update_self]
    · simp only [htotal] at hpos hzone
      show (Function.update u.blocks _ D _).isSome = true
      rw [Function.update_of_ne (by omega)]
      exact h.owned o' n (hsame mid htotal.symm)
  · replace hp : Function.update u.blocks (o + sizeofMem) D p = some d := hp
    by_cases hp' : p = o + sizeofMem
    · subst hp'
      rw [Function.update_self] at hp
      obtain ⟨n, hn⟩ := hD d hp
      exact ⟨o, n, rfl, hn⟩
    · rw [Function.update_of_ne hp'] at hp
      obtain ⟨o', n, rfl, hs, hlen, hbytes⟩ := h.held p d hp
      rcases hs.mid_or with ⟨q, rfl, hq⟩ | ⟨hzone, hsame⟩
      · exact absurd (by rw [hmid q n hq]) hp'
      · refine ⟨o', n, rfl, hsame mid' htotal, hlen, ?_⟩
        rw [bytesAt_congr fun i hi hi' => hout i ?_ ?_ ?_, hbytes]
        all_goals
          simp only [sizes] at hlen hi hi'
          simp only at hzone
          omega

/-- Other bytes stand in a block of the program. -/
lemma rewrite {bs : List Block} (h : Backs u bs) {p : ℕ} {d : List UInt8} (d' : List UInt8)
    (m' : Memory) (hp : u.blocks p = some d) (hlen' : d'.length = d.length)
    (hbytes' : bytesAt m' p d'.length = d')
    (hout : ∀ i, i < p ∨ p + d.length ≤ i → m' i = u.arena.ram i) :
    Backs ⟨{ u.arena with ram := m' }, Function.update u.blocks p (some d')⟩ bs := by
  obtain ⟨o, n, rfl, ⟨l, r, rfl, rfl⟩, hlen, hbytes⟩ := h.held p d hp
  refine edit [⟨n, true⟩] [⟨n, true⟩] h ⟨h.holds.toTiled.write fun i hi => hout i ?_,
    h.holds.coalesced, h.holds.lfree, h.holds.used⟩ rfl ?_ ?_ ?_ ?_ ?_
  · simp only at hi
    omega
  · intro i hi _ _
    simp only [total_cons, total_nil] at hi
    exact hout i (by omega)
  · simp only [total_cons, total_nil]
    simp only [sizes] at hlen
    omega
  · intro q n' hq
    rcases sits_cons.mp hq with ⟨rfl, -⟩ | ⟨q', -, hq'⟩
    · rfl
    · exact absurd hq' not_sits_nil
  · intro q n' hq
    rcases sits_cons.mp hq with ⟨rfl, -⟩ | ⟨q', -, hq'⟩
    · exact ⟨rfl, rfl⟩
    · exact absurd hq' not_sits_nil
  · rintro d'' hd''
    obtain rfl := Option.some.inj hd''
    exact ⟨n, sits_mid l _ _, by omega, hbytes'⟩

/-- The program has no block where the heap has a free one. -/
lemma blocks_of_free {b : Block} (h : Backs u (l ++ b :: r)) (hb : b.used = false) :
    u.blocks (total l + sizeofMem) = none := by
  by_contra hne
  obtain ⟨d, hd⟩ := Option.ne_none_iff_exists'.mp hne
  obtain ⟨o, n, heq, hs, -⟩ := h.held _ d hd
  obtain rfl : total l = o := Nat.add_right_cancel heq
  have hpos := h.holds.size_pos _ hs.mem
  have hpos' := h.holds.size_pos b (by simp)
  rcases hs.apart (sits_mid l b r) with ⟨-, rfl⟩ | hbefore | hafter
  · cases hb
  · omega
  · omega

/-- What `mem_malloc` returns. -/
lemma memMalloc_cases {bs : List Block} (h : Backs u bs) (size : ℕ) :
    (∃ A, memMalloc u.arena size = .ok (A, none) ∧ Backs ⟨A, u.blocks⟩ bs ∧ Counts u.arena A) ∨
    ∃ A bs' p, memMalloc u.arena size = .ok (A, some ((p : ℕ) : ℤ)) ∧ Counts u.arena A ∧
      u.blocks p = none ∧
      Backs ⟨A, Function.update u.blocks p (some (bytesAt A.ram p size))⟩ bs' := by
  by_cases hs : size = 0
  · exact Or.inl ⟨u.arena, if_pos hs, h, counts_of_le rfl le_rfl⟩
  rcases memMalloc_spec h.holds hs with ⟨-, A, hrun, hram, hlfree, hused, hmax⟩ |
    ⟨l, b, r, A, k, fr, rfl, hb, -, hrun, hholds, hk, hfr, htotal, hout, hstats⟩
  · refine Or.inl ⟨A, hrun, ⟨⟨?_, h.holds.coalesced, ?_, ?_⟩, h.owned, ?_⟩,
      counts_of_le hmax hused.le⟩
    · rw [hram]
      exact h.holds.toTiled
    · rw [hlfree, h.holds.lfree]
    · rw [hused, h.holds.used]
    · rw [hram]
      exact h.held
  · refine Or.inr ⟨A, l ++ ((⟨k, true⟩ :: fr) ++ r), total l + sizeofMem, hrun,
      counts_incUsed hstats, h.blocks_of_free hb, ?_⟩
    have hle := le_padded size
    refine edit [b] (⟨k, true⟩ :: fr) h hholds (by simpa using htotal) (by simpa using hout) ?_ ?_
      ?_ ?_
    · have := h.holds.size_pos b (by simp)
      simp only [total_cons, total_nil]
      omega
    · intro q n hq
      exact absurd hq (not_sits_of_free (by simpa using hb))
    · intro q n hq
      rcases sits_cons.mp hq with ⟨rfl, -⟩ | ⟨q', -, hq'⟩
      · exact ⟨rfl, rfl⟩
      · exact absurd hq' (not_sits_of_free hfr)
    · rintro d hd
      obtain rfl := Option.some.inj hd
      refine ⟨k, sits_mid l _ _, ?_, ?_⟩
      · rw [bytesAt_length]
        omega
      · rw [bytesAt_length]

/-- `mem_malloc` keeps up the heap. -/
lemma malloc {bs : List Block} (h : Backs u bs) (size : UInt16) :
    ∃ u', u.step (.malloc size) = .ok u' ∧ (∃ bs', Backs u' bs') ∧ Counts u.arena u'.arena := by
  rcases h.memMalloc_cases size.toNat with ⟨A, hrun, hbacks, hcounts⟩ |
    ⟨A, bs', p, hrun, hcounts, hnew, hbacks⟩
  · exact ⟨⟨A, u.blocks⟩, by simp only [Usage.step, hrun]; rfl, ⟨bs, hbacks⟩, hcounts⟩
  · refine ⟨⟨A, _⟩, ?_, ⟨bs', hbacks⟩, hcounts⟩
    simp only [Usage.step, hrun]
    exact Usage.give_of_none hnew

/-- `mem_free` keeps up the heap. -/
lemma free {bs : List Block} (h : Backs u bs) {p : ℕ} (hp : (u.blocks p).isSome) :
    ∃ u', u.step (.free p) = .ok u' ∧ (∃ bs', Backs u' bs') ∧ Counts u.arena u'.arena := by
  obtain ⟨d, hd⟩ := Option.isSome_iff_exists.mp hp
  obtain ⟨o, n, rfl, ⟨l, r, rfl, rfl⟩, -⟩ := h.held p d hd
  have hn := h.holds.size_pos ⟨n, true⟩ (by simp)
  obtain ⟨A, l', fl, fr, r', rfl, rfl, hfree, hrun, hholds, hout, hstats⟩ := memFree_spec h.holds
  obtain ⟨hfl, hfr⟩ := List.forall_mem_append.mp hfree
  have hused : A.stats.used ≤ u.arena.stats.used := by
    rw [hholds.used, h.holds.used]
    simp only [usedTotal_append, usedTotal_cons, usedTotal_of_free hfl, usedTotal_of_free hfr,
      Bool.false_eq_true, if_false]
    omega
  refine ⟨⟨A, Function.update u.blocks (total (l' ++ fl) + sizeofMem) none⟩,
    by simp only [Usage.step, hd, hrun]; rfl, ⟨l' ++ ([⟨total fl + (n + total fr), false⟩] ++ r'),
      ?_⟩, counts_of_le (by rw [hstats]; rfl) hused⟩
  have h' : Backs u (l' ++ ((fl ++ ⟨n, true⟩ :: fr) ++ r')) := by simpa using h
  refine edit _ _ h' hholds (by simp) (by simpa using hout) ?_ ?_ ?_ ?_
  · simp only [total_append, total_cons] at hn ⊢
    omega
  · intro q n' hq
    rcases sits_append.mp hq with hq | ⟨q', rfl, hq'⟩
    · exact absurd hq (not_sits_of_free hfl)
    · rcases sits_cons.mp hq' with ⟨rfl, -⟩ | ⟨q'', -, hq''⟩
      · simp
      · exact absurd hq'' (not_sits_of_free hfr)
  · intro q n' hq
    exact absurd hq (not_sits_of_free (by simp))
  · rintro d ⟨⟩

/-- `mem_trim` keeps up the heap. -/
lemma trim {bs : List Block} (h : Backs u bs) {p : ℕ} {d : List UInt8} {newsize : UInt16}
    (hp : u.blocks p = some d) (hle : newsize.toNat ≤ d.length) :
    ∃ u', u.step (.trim p newsize) = .ok u' ∧ (∃ bs', Backs u' bs') ∧ Counts u.arena u'.arena := by
  obtain ⟨o, s, rfl, ⟨l, r, rfl, rfl⟩, hlen, hbytes⟩ := h.held p d hp
  have hs := h.holds.size ⟨s, true⟩ (by simp)
  have hpad : padded newsize.toNat + sizeofMem ≤ s := by
    unfold padded
    simp only at hs
    split <;> omega
  obtain ⟨A, hrun, k, fr, fr', r', rfl, hfree, hholds, hk, hks, htotal, hout, hdata, hmax⟩ :=
    memTrim_spec h.holds hpad
  obtain ⟨hfr, hfr'⟩ := List.forall_mem_append.mp hfree
  have hnew := le_padded newsize.toNat
  have hused : A.stats.used ≤ u.arena.stats.used := by
    rw [hholds.used, h.holds.used]
    simp only [usedTotal_append, usedTotal_cons, usedTotal_of_free hfr, usedTotal_of_free hfr',
      if_true]
    omega
  refine ⟨⟨A, Function.update u.blocks (total l + sizeofMem) (some (d.take newsize.toNat))⟩,
    by simp only [Usage.step, hp, if_pos hle, hrun]; rfl, ⟨l ++ ((⟨k, true⟩ :: fr') ++ r'), ?_⟩,
    counts_of_le hmax hused⟩
  refine edit (⟨s, true⟩ :: fr) _ h hholds (by simpa using htotal) (by simpa using hout) ?_ ?_ ?_ ?_
  · simp only [total_cons]
    simp only [sizes] at hs
    omega
  · intro q n hq
    rcases sits_cons.mp hq with ⟨rfl, -⟩ | ⟨q', -, hq'⟩
    · rfl
    · exact absurd hq' (not_sits_of_free hfr)
  · intro q n hq
    rcases sits_cons.mp hq with ⟨rfl, -⟩ | ⟨q', -, hq'⟩
    · exact ⟨rfl, rfl⟩
    · exact absurd hq' (not_sits_of_free hfr')
  · rintro d' hd'
    obtain rfl := Option.some.inj hd'
    rw [List.length_take, min_eq_left hle]
    refine ⟨k, sits_mid l _ _, by omega, ?_⟩
    have hkeep := congrArg (List.take newsize.toNat) hbytes
    rw [bytesAt_take hle] at hkeep
    rw [bytesAt_congr fun i hi hi' => hdata i hi (by omega), hkeep]

/-- A write to a block keeps up the heap. -/
lemma write {bs : List Block} (h : Backs u bs) {p i : ℕ} {d : List UInt8} (hp : u.blocks p = some d)
    (hi : i < d.length) (v : UInt8) :
    ∃ u', u.step (.write p i v) = .ok u' ∧ (∃ bs', Backs u' bs') ∧ Counts u.arena u'.arena := by
  have hbytes := h.intact.bytes p d hp
  have hbacks := h.rewrite (d.set i v) (put8 u.arena.ram (p + i) v) hp (List.length_set ..)
    (by rw [List.length_set, bytesAt_put8, hbytes]) fun j hj => put8_of_ne (by omega)
  exact ⟨_, by simp only [Usage.step, hp, if_pos hi], ⟨bs, hbacks⟩, counts_of_le rfl le_rfl⟩

lemma bytesAt_memset (m : Memory) (p n : ℕ) (v : UInt8) :
    bytesAt (memset m p n v) p n = List.replicate n v := by
  refine List.eq_replicate_iff.mpr ⟨bytesAt_length _ _ _, fun x hx => ?_⟩
  obtain ⟨i, hi, rfl⟩ := List.mem_map.mp hx
  rw [List.mem_range] at hi
  simp [memset, hi]

/-- `mem_calloc` keeps up the heap. -/
lemma calloc {bs : List Block} (h : Backs u bs) {count size : UInt16}
    (hlt : count.toNat * size.toNat < 2 ^ 16) :
    ∃ u', u.step (.calloc count size) = .ok u' ∧ (∃ bs', Backs u' bs') ∧
      Counts u.arena u'.arena := by
  obtain ⟨n, hn⟩ : ∃ n, n = count.toNat * size.toNat := ⟨_, rfl⟩
  have hsize : memSizeT ((count.toNat : ℤ) * size.toNat) = n := by
    rw [hn, ← Nat.cast_mul]
    exact memSizeT_natCast hlt
  rcases h.memMalloc_cases n with ⟨A, hrun, hbacks, hcounts⟩ |
    ⟨A, bs', p, hrun, hcounts, hnew, hbacks⟩
  · refine ⟨⟨A, u.blocks⟩, ?_, ⟨bs, hbacks⟩, hcounts⟩
    simp only [Usage.step, if_pos hlt, memCalloc, hsize, hrun]
    rfl
  · have hself : Function.update u.blocks p (some (bytesAt A.ram p n)) p
        = some (bytesAt A.ram p n) := Function.update_self ..
    have hinside := (hbacks.intact.inside p _ hself).2
    rw [bytesAt_length] at hinside
    have hzero := hbacks.rewrite (List.replicate n 0) (memset A.ram p n 0) hself (by simp)
      (by rw [List.length_replicate, bytesAt_memset]) fun i hi => ?_
    · rw [Function.update_idem] at hzero
      refine ⟨_, ?_, ⟨bs', hzero⟩, hcounts⟩
      have hbound : p + n ≤ ramSize := hinside.trans (by decide)
      rw [← hn] at hlt
      simp only [Usage.step, ← hn, if_pos hlt, memCalloc, hsize, hrun, ok_bind, Int.toNat_natCast,
        if_pos hbound]
      exact Usage.give_of_none hnew
    · rw [bytesAt_length] at hi
      simp only [memset]
      rw [if_neg]
      simp only [Bool.and_eq_true, decide_eq_true_eq]
      omega

/-- **One step**: it succeeds, or the program has used what it has not got. -/
lemma step {bs : List Block} (h : Backs u bs) (op : HeapOp) :
    (∃ u', u.step op = .ok u' ∧ (∃ bs', Backs u' bs') ∧ Counts u.arena u'.arena) ∨
      u.step op = .error .misuse := by
  cases op with
  | malloc size => exact Or.inl (h.malloc size)
  | calloc count size =>
    by_cases hlt : count.toNat * size.toNat < 2 ^ 16
    · exact Or.inl (h.calloc hlt)
    · exact Or.inr (by simp only [Usage.step, if_neg hlt])
  | free p =>
    cases hp : u.blocks p with
    | none => exact Or.inr (by simp only [Usage.step, hp])
    | some d => exact Or.inl (h.free (by simp [hp]))
  | trim p newsize =>
    cases hp : u.blocks p with
    | none => exact Or.inr (by simp only [Usage.step, hp])
    | some d =>
      by_cases hle : newsize.toNat ≤ d.length
      · exact Or.inl (h.trim hp hle)
      · exact Or.inr (by simp only [Usage.step, hp, if_neg hle])
  | write p i v =>
    cases hp : u.blocks p with
    | none => exact Or.inr (by simp only [Usage.step, hp])
    | some d =>
      by_cases hi : i < d.length
      · exact Or.inl (h.write hp hi v)
      · exact Or.inr (by simp only [Usage.step, hp, if_neg hi])

end Backs

/-! ## Whole programs -/

/-- The state `u` is reached by the program, from `mem_init` on any bytes. -/
def Reached (ram : Memory) (ops : List HeapOp) (u : Usage) : Prop :=
  ∃ A, memInit ram = .ok A ∧ exec Usage.step ⟨A, fun _ => none⟩ ops = .ok u

/-- `mem_init`, and then the program. -/
def runHeap (ram : Memory) (ops : List HeapOp) : Except Stop Usage := do
  let A ← (memInit ram).mapError Stop.fault
  exec Usage.step ⟨A, fun _ => none⟩ ops

lemma reached_of_run {ram : Memory} {ops : List HeapOp} {α : Type} {obs : Usage → α} {a : α}
    (h : (runHeap ram ops).toOption.map obs = some a) : ∃ u, Reached ram ops u ∧ obs u = a := by
  obtain ⟨A, hinit, -⟩ := memInit_spec ram
  have hrun : runHeap ram ops = exec Usage.step ⟨A, fun _ => none⟩ ops := by
    rw [runHeap, hinit]
    rfl
  rw [hrun] at h
  obtain ⟨u, hu, hobs⟩ := exec_of_view h
  exact ⟨u, ⟨A, hinit, hu⟩, hobs⟩

lemma backs_boot {A : Arena} (h : Holds A [⟨memSize, false⟩]) :
    Backs ⟨A, fun _ => none⟩ [⟨memSize, false⟩] := by
  refine ⟨h, fun o n hs => absurd hs (not_sits_of_free (by simp)), ?_⟩
  rintro p d ⟨⟩

section Reached

variable {ram : Memory} {ops : List HeapOp} {u : Usage}

lemma backs_step {u u' : Usage} {op : HeapOp} (h : ∃ bs, Backs u bs) (hs : u.step op = .ok u') :
    (∃ bs, Backs u' bs) ∧ Counts u.arena u'.arena := by
  obtain ⟨bs, h⟩ := h
  rcases h.step op with ⟨v, hv, hbacks⟩ | hmisuse
  · rw [hs] at hv
    obtain rfl := Except.ok.inj hv
    exact hbacks
  · rw [hs] at hmisuse
    cases hmisuse

lemma backs_of_reached (h : Reached ram ops u) : ∃ bs, Backs u bs := by
  obtain ⟨A, hinit, hrun⟩ := h
  obtain ⟨A', hinit', hholds, -⟩ := memInit_spec ram
  rw [hinit] at hinit'
  obtain rfl := Except.ok.inj hinit'
  exact exec_inv (Q := fun u => ∃ bs, Backs u bs) (fun u op u' h hs => (backs_step h hs).1)
    ⟨_, backs_boot hholds⟩ hrun

/-- **The heap keeps what it is given.**  Whatever bytes `ram_heap` holds and whatever a program
does: `mem_init` and every call and every write succeed as long as the program uses only blocks
that it has got, within the sizes it has asked for, and asks `mem_calloc` for less than 2 ^ 16
bytes; and no block is handed out that the program has.  Its blocks are then in the heap and apart
from each other, and every one of them holds what was written to it. -/
theorem heap_safe (ram : Memory) (ops : List HeapOp) :
    ∃ A, memInit ram = .ok A ∧
      (∀ e, exec Usage.step ⟨A, fun _ => none⟩ ops = .error e → e = .misuse) ∧
      ∀ u, exec Usage.step ⟨A, fun _ => none⟩ ops = .ok u → Intact u := by
  obtain ⟨A, hinit, hholds, -⟩ := memInit_spec ram
  refine ⟨A, hinit, fun e he => ?_, fun u hu => ?_⟩
  · obtain ⟨pre, op, v, -, hv, hstop⟩ := exec_error he
    obtain ⟨bs, hbacks⟩ := backs_of_reached ⟨A, hinit, hv⟩
    rcases hbacks.step op with ⟨v', hv', -⟩ | hmisuse
    · rw [hstop] at hv'
      cases hv'
    · rw [hstop] at hmisuse
      exact Except.error.inj hmisuse
  · obtain ⟨bs, hbacks⟩ := backs_of_reached ⟨A, hinit, hu⟩
    exact hbacks.intact

/-- The interval of length `k` from `a` on meets no block of the program and no header of one. -/
def Vacant (u : Usage) (a k : ℕ) : Prop :=
  a + k ≤ memSize ∧ ∀ p, (u.blocks p).isSome →
    a + k ≤ p - sizeofMem ∨ (header u.arena.ram (p - sizeofMem)).next ≤ a

lemma Backs.next {bs : List Block} (h : Backs u bs) {o n : ℕ} (hs : Sits bs o ⟨n, true⟩) :
    (header u.arena.ram o).next = o + n := by
  obtain ⟨l, r, rfl, rfl⟩ := hs
  rw [h.holds.header_mid]

lemma Backs.vacant_iff {bs : List Block} (h : Backs u bs) {a k : ℕ} :
    Vacant u a k ↔ Room bs a k := by
  rw [Vacant, Room, h.holds.covers]
  refine and_congr_right fun _ => ⟨fun hv o b hs hb => ?_, fun hr p hp => ?_⟩
  · obtain ⟨n, used⟩ := b
    obtain rfl : used = true := hb
    have := hv (o + sizeofMem) (h.owned o n hs)
    rwa [Nat.add_sub_cancel, h.next hs] at this
  · obtain ⟨d, hd⟩ := Option.isSome_iff_exists.mp hp
    obtain ⟨o, n, rfl, hs, -⟩ := h.held p d hd
    rw [Nat.add_sub_cancel, h.next hs]
    exact hr o _ hs rfl

/-- **`mem_malloc` takes the lowest place with room.**  In every state that a program reaches, and
for every size but 0: the block returned begins at the lowest address from which on as many bytes
as are needed, with the header, meet no block in use; and `NULL` is returned only if there is no
such address in the whole heap, however much was allocated and freed before. -/
theorem malloc_lowest (h : Reached ram ops u) {size : UInt16} (hs : size ≠ 0) :
    ∃ A out, memMalloc u.arena size.toNat = .ok (A, out) ∧
      ((out = none ∧ ∀ a, ¬ Vacant u a (padded size.toNat + sizeofMem)) ∨
        ∃ a : ℕ, out = some ((a + sizeofMem : ℕ) : ℤ) ∧
          IsLeast {a | Vacant u a (padded size.toNat + sizeofMem)} a) := by
  obtain ⟨bs, hbacks⟩ := backs_of_reached h
  have hs0 : size.toNat ≠ 0 := fun h0 => hs (UInt16.toNat_inj.mp h0)
  have hpos := hbacks.holds.size_pos
  have hk : 0 < padded size.toNat + sizeofMem := Nat.add_pos_right _ (by decide)
  simp only [hbacks.vacant_iff]
  rcases memMalloc_spec hbacks.holds hs0 with ⟨hfit, A, hrun, -⟩ |
    ⟨l, b, r, A, k, fr, rfl, -, hfit, hrun, -⟩
  · exact ⟨A, none, hrun, Or.inl ⟨rfl,
      (firstFit_eq_none_iff_room hpos hbacks.holds.coalesced hk).mp hfit⟩⟩
  · exact ⟨A, _, hrun, Or.inr ⟨total l, rfl,
      firstFit_isLeast hpos hbacks.holds.coalesced hk hfit⟩⟩

/-- A program that leaves a gap of 30 bytes, trims a block and writes to it. -/
def gapProgram : List HeapOp :=
  [.malloc 24, .malloc 100, .malloc 10, .write 36 0 9, .free 6, .trim 36 50]

theorem malloc_lowest_gap :
    ∃ u, Reached (fun _ => 7) gapProgram u ∧
      ∃ A out, memMalloc u.arena (30 : UInt16).toNat = .ok (A, out) ∧
        ((out = none ∧ ∀ a, ¬ Vacant u a (padded (30 : UInt16).toNat + sizeofMem)) ∨
          ∃ a : ℕ, out = some ((a + sizeofMem : ℕ) : ℤ) ∧
            IsLeast {a | Vacant u a (padded (30 : UInt16).toNat + sizeofMem)} a) := by
  have hrun : (runHeap (fun _ => 7) gapProgram).toOption.map (fun u => u.blocks 6) = some none := by
    decide +kernel
  obtain ⟨u, hu, -⟩ := reached_of_run hrun
  exact ⟨u, hu, malloc_lowest hu (by decide)⟩

/-- **Freeing everything restores the heap.**  In every state that a program reaches, whatever it
has allocated, trimmed and freed in whatever order: the heap is the one free block it was after
`mem_init` exactly if the program has nothing. -/
theorem heap_restored (h : Reached ram ops u) :
    (∀ p, u.blocks p = none) ↔
      header u.arena.ram 0 = ⟨memSize, 0, 0⟩ ∧ u.arena.lfree = 0 ∧ u.arena.stats.used = 0 := by
  obtain ⟨bs, hbacks⟩ := backs_of_reached h
  have hholds := hbacks.holds
  constructor
  · intro hnone
    have hfree : ∀ b ∈ bs, b.used = false := by
      intro b hb
      obtain ⟨l, r, rfl⟩ := List.append_of_mem hb
      obtain ⟨n, used⟩ := b
      by_contra hu
      obtain rfl : used = true := by simpa using hu
      have := hbacks.owned (total l) n (sits_mid l _ r)
      simp [hnone] at this
    have hne : bs ≠ [] := by
      rintro rfl
      exact absurd hholds.covers (by decide)
    have hsingle := eq_singleton_of_free hholds.coalesced hfree hne
    rw [hholds.covers] at hsingle
    subst hsingle
    have hheader := hholds.toTiled.header_mid (l := [])
    exact ⟨by simpa [lastStart] using hheader, hholds.lfree, hholds.used⟩
  · -- blocks in use would be counted in the statistics
    rintro ⟨-, -, hused⟩ p
    by_contra hp
    obtain ⟨d, hd⟩ := Option.ne_none_iff_exists'.mp hp
    obtain ⟨o, n, rfl, ⟨l, r, rfl, rfl⟩, -⟩ := hbacks.held p d hd
    have hn := hholds.size_pos ⟨n, true⟩ (by simp)
    rw [hholds.used, usedTotal_append, usedTotal_cons, if_pos rfl] at hused
    simp only at hn hused
    omega

/-- Two blocks are allocated and freed, the first one first. -/
theorem heap_restored_twoBlocks :
    ∃ u, Reached (fun _ => 7) [.malloc 24, .malloc 100, .free 6, .free 36] u ∧
      ∀ p, u.blocks p = none := by
  have hrun : (runHeap (fun _ => 7) [.malloc 24, .malloc 100, .free 6, .free 36]).toOption.map
      (fun u => (header u.arena.ram 0, u.arena.lfree, u.arena.stats.used))
        = some (⟨memSize, 0, 0⟩, 0, 0) := by decide +kernel
  obtain ⟨u, hu, hobs⟩ := reached_of_run hrun
  simp only [Prod.mk.injEq] at hobs
  exact ⟨u, hu, (heap_restored hu).mpr hobs⟩

/-- **The statistics are right.**  In every state that a program reaches, `lwip_stats.mem.used` is
the number of bytes in the blocks in use, headers included, and `max` is the greatest such number
since `mem_init`. -/
theorem heap_stats (h : Reached ram ops u) :
    (∃ ps : List ℕ, ps.Nodup ∧ (∀ p, p ∈ ps ↔ (u.blocks p).isSome) ∧
      u.arena.stats.used
        = (ps.map fun p => (header u.arena.ram (p - sizeofMem)).next - (p - sizeofMem)).sum) ∧
      IsGreatest {n | ∃ pre v, pre <+: ops ∧ Reached ram pre v ∧ n = v.arena.stats.used}
        u.arena.stats.max := by
  constructor
  · obtain ⟨bs, hbacks⟩ := backs_of_reached h
    have hnodup := nodup_usedStarts hbacks.holds.size_pos
    refine ⟨(usedStarts bs).map (· + sizeofMem), hnodup.map (add_left_injective _), fun p => ?_, ?_⟩
    · rw [List.mem_map]
      constructor
      · rintro ⟨o, ho, rfl⟩
        obtain ⟨n, hn⟩ := mem_usedStarts.mp ho
        exact hbacks.owned o n hn
      · intro hp
        obtain ⟨d, hd⟩ := Option.isSome_iff_exists.mp hp
        obtain ⟨o, n, rfl, hs, -⟩ := hbacks.held p d hd
        exact ⟨o, mem_usedStarts.mpr ⟨n, hs⟩, rfl⟩
    · rw [List.map_map, hbacks.holds.used]
      refine (sum_usedStarts fun o n hs => ?_).symm
      rw [Function.comp_apply, Nat.add_sub_cancel, hbacks.next hs, Nat.add_sub_cancel_left]
  · obtain ⟨A, hinit, hrun⟩ := h
    obtain ⟨A', hinit', hholds, hstats⟩ := memInit_spec ram
    obtain rfl : A' = A := Except.ok.inj (hinit'.symm.trans hinit)
    obtain ⟨-, hall, hlast⟩ := exec_highWater (Q := fun u => ∃ bs, Backs u bs)
      (f := fun u => u.arena.stats.used) (g := fun u => u.arena.stats.max)
      (fun v op v' hv hle hs => ⟨(backs_step hv hs).1, (backs_step hv hs).2 hle⟩)
      ⟨_, backs_boot hholds⟩ (by rw [hstats]) hrun
    refine ⟨?_, ?_⟩
    · rcases hlast with hzero | ⟨pre, v, hpre, hv, hmax⟩
      · refine ⟨[], _, List.nil_prefix, ⟨A', hinit, rfl⟩, hzero.trans ?_⟩
        rw [hstats]
      · exact ⟨pre, v, hpre, ⟨A', hinit, hv⟩, hmax⟩
    · rintro n ⟨pre, v, hpre, ⟨A'', hinit'', hv⟩, rfl⟩
      obtain rfl : A' = A'' := Except.ok.inj (hinit.symm.trans hinit'')
      exact hall pre v hpre hv

theorem heap_stats_gap :
    ∃ u, Reached (fun _ => 7) gapProgram u ∧
      (∃ ps : List ℕ, ps.Nodup ∧ (∀ p, p ∈ ps ↔ (u.blocks p).isSome) ∧
        u.arena.stats.used
          = (ps.map fun p => (header u.arena.ram (p - sizeofMem)).next - (p - sizeofMem)).sum) ∧
        IsGreatest {n | ∃ pre v, pre <+: gapProgram ∧ Reached (fun _ => 7) pre v ∧
          n = v.arena.stats.used} u.arena.stats.max := by
  have hrun : (runHeap (fun _ => 7) gapProgram).toOption.map (fun u => u.arena.stats.max)
      = some 154 := by decide +kernel
  obtain ⟨u, hu, -⟩ := reached_of_run hrun
  exact ⟨u, hu, heap_stats hu⟩

/-- **`mem_calloc` and the product.**  In every state that a program reaches, `mem_calloc` comes
back exactly if the product fits a `mem_size_t`, or if `mem_malloc` has no room even for what the
product is cut down to: otherwise it clears more bytes than it has allocated, beyond the end of
`ram_heap`. -/
theorem calloc_returns_iff (h : Reached ram ops u) (count size : UInt16) :
    ((∃ r, memCalloc u.arena count.toNat size.toNat = .ok r) ↔
      count.toNat * size.toNat < 2 ^ 16 ∨
        ∃ A, memMalloc u.arena (memSizeT (count.toNat * size.toNat)) = .ok (A, none)) ∧
    ((¬ ∃ r, memCalloc u.arena count.toNat size.toNat = .ok r) →
      memCalloc u.arena count.toNat size.toNat = .error .outOfBounds) := by
  obtain ⟨bs, hbacks⟩ := backs_of_reached h
  obtain ⟨n, hn⟩ : ∃ n, n = memSizeT ((count.toNat : ℤ) * size.toNat) := ⟨_, rfl⟩
  rw [memCalloc, ← hn]
  rcases hbacks.memMalloc_cases n with ⟨A, hrun, -⟩ | ⟨A, bs', p, hrun, -, -, hbacks'⟩
  · rw [hrun]
    exact ⟨⟨fun _ => Or.inr ⟨A, rfl⟩, fun _ => ⟨(A, none), rfl⟩⟩,
      fun hnone => absurd ⟨(A, none), rfl⟩ hnone⟩
  · have hself : Function.update u.blocks p (some (bytesAt A.ram p n)) p
        = some (bytesAt A.ram p n) := Function.update_self ..
    have hinside := (hbacks'.intact.inside p _ hself).2
    rw [bytesAt_length] at hinside
    rw [hrun, ok_bind]
    simp only [Int.toNat_natCast, Except.ok.injEq, Prod.mk.injEq, reduceCtorEq, and_false,
      exists_false, or_false]
    by_cases hlt : count.toNat * size.toNat < 2 ^ 16
    · have hsame : n = count.toNat * size.toNat := by
        rw [hn, ← Nat.cast_mul]
        exact memSizeT_natCast hlt
      rw [if_pos (by rw [← hsame]; exact hinside.trans (by decide))]
      exact ⟨iff_of_true ⟨_, rfl⟩ hlt, fun hnone => absurd ⟨_, rfl⟩ hnone⟩
    · rw [if_neg (by simp only [sizes]; omega)]
      exact ⟨iff_of_false nofun hlt, fun _ => rfl⟩

/-- The product 65792 is cut down to 256. -/
theorem calloc_returns_iff_gap :
    ∃ u, Reached (fun _ => 7) gapProgram u ∧
      memCalloc u.arena (256 : UInt16).toNat (257 : UInt16).toNat = .error .outOfBounds := by
  have hrun : (runHeap (fun _ => 7) gapProgram).toOption.map
      (fun u => (memMalloc u.arena
        (memSizeT ((256 : UInt16).toNat * (257 : UInt16).toNat))).toOption.map fun r => r.2)
          = some (some (some 160)) := by decide +kernel
  obtain ⟨u, hu, hobs⟩ := reached_of_run hrun
  obtain ⟨hreturns, hbeyond⟩ := calloc_returns_iff hu 256 257
  refine ⟨u, hu, hbeyond fun hr => ?_⟩
  rcases hreturns.mp hr with hlt | ⟨A, hA⟩
  · exact absurd hlt (by decide)
  · simp only [hA] at hobs
    exact absurd hobs (by simp [Except.toOption])

end Reached

end Lwip
end DeepForensics
