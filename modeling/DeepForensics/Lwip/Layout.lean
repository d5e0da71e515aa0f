/-
# The layout of the heap

The headers in `ram` cut the heap into blocks (`Tiled`): each header has the index of the next and
of the previous one, and the last block ends at `ram_end`.  The functions of `mem.c` change a
place between two blocks; whatever they put there, the rest of the heap stays laid out as it was
(`Tiled.edit`), and so does the data of all other blocks (`SameOutside`).
-/
import DeepForensics.Lwip.Mem
import DeepForensics.Lib.Tiling

namespace DeepForensics
namespace Lwip

open Ram Tiling

lemma sizes : memSize = 16000 ∧ sizeofMem = 6 ∧ minSize = 12 ∧ ramSize = 16012 :=
  ⟨rfl, rfl, rfl, rfl⟩

lemma memSizeT_natCast {n : ℕ} (h : n < 2 ^ 16) : memSizeT n = n := by
  unfold memSizeT
  omega

/-! ## Headers -/

section Header

variable {m m' : Memory} {p q v : ℕ}

lemma header_congr (h : ∀ i, p ≤ i → i < p + 6 → m' i = m i) : header m' p = header m p := by
  have h16 : ∀ a, p ≤ a → a + 2 ≤ p + 6 → get16 m' a = get16 m a := fun a ha ha' =>
    get16_congr (h a ha (by omega)) (h (a + 1) (by omega) (by omega))
  rw [header, header, h16 p le_rfl (by omega), h16 (p + 2) (by omega) (by omega),
    h (p + 4) (by omega) (by omega)]

lemma header_put16_of_apart (h : p + 6 ≤ q ∨ q + 2 ≤ p) :
    header (put16 m q v) p = header m p :=
  header_congr fun i _ _ => put16_of_ne (by omega) (by omega)

lemma header_put8_of_apart {v : UInt8} (h : p + 6 ≤ q ∨ q < p) :
    header (put8 m q v) p = header m p :=
  header_congr fun i _ _ => put8_of_ne (by omega)

lemma header_putNext (h : v < 2 ^ 16) :
    header (put16 m p v) p = { header m p with next := v } := by
  rw [header, get16_put16, get16_put16_of_apart (by omega), put16_of_ne (by omega) (by omega),
    Nat.mod_eq_of_lt h]
  rfl

lemma header_putPrev (h : v < 2 ^ 16) :
    header (put16 m (p + 2) v) p = { header m p with prev := v } := by
  rw [header, get16_put16, get16_put16_of_apart (by omega), put16_of_ne (by omega) (by omega),
    Nat.mod_eq_of_lt h]
  rfl

lemma header_putUsed {v : UInt8} :
    header (put8 m (p + 4) v) p = { header m p with used := v } := by
  rw [header, get16_put8_of_apart (by omega), get16_put8_of_apart (by omega), put8_self]
  rfl

end Header

namespace Arena

variable {A : Arena} {p : ℕ} (hp : p ≤ memSize)
include hp

lemma inBounds : p + sizeofMem ≤ ramSize := by
  simp only [sizes] at hp ⊢
  omega

lemma load_of_le : A.load p = .ok (header A.ram p) := if_pos (inBounds hp)

lemma setNext_of_le (v : ℕ) : A.setNext p v = .ok { A with ram := put16 A.ram p v } :=
  if_pos (inBounds hp)

lemma setPrev_of_le (v : ℕ) : A.setPrev p v = .ok { A with ram := put16 A.ram (p + 2) v } :=
  if_pos (inBounds hp)

lemma setUsed_of_le (v : UInt8) : A.setUsed p v = .ok { A with ram := put8 A.ram (p + 4) v } :=
  if_pos (inBounds hp)

end Arena

/-! ## Blocks in memory -/

/-- The headers of the blocks stand in the memory from `p` on; the block before them begins at
`q`. -/
def Seg (m : Memory) : ℕ → ℕ → List Block → Prop
  | _, _, [] => True
  | p, q, b :: bs =>
    header m p = ⟨p + b.size, q, if b.used then 1 else 0⟩ ∧ Seg m (p + b.size) p bs

/-- Where the last of the blocks begins. -/
def lastStart : ℕ → ℕ → List Block → ℕ
  | _, q, [] => q
  | p, _, b :: bs => lastStart (p + b.size) p bs

section Seg

variable {m m' : Memory} {p q q' : ℕ} {l r bs : List Block} {b : Block}

lemma seg_cons : Seg m p q (b :: bs) ↔
    header m p = ⟨p + b.size, q, if b.used then 1 else 0⟩ ∧ Seg m (p + b.size) p bs := Iff.rfl

lemma seg_append :
    Seg m p q (l ++ r) ↔ Seg m p q l ∧ Seg m (p + total l) (lastStart p q l) r := by
  induction l generalizing p q with
  | nil => simp [Seg, lastStart]
  | cons b l ih =>
    rw [List.cons_append, seg_cons, seg_cons, ih, and_assoc, total_cons, lastStart, Nat.add_assoc]

lemma lastStart_concat (p q : ℕ) (l : List Block) (b : Block) :
    lastStart p q (l ++ [b]) = p + total l := by
  induction l generalizing p q with
  | nil => rfl
  | cons c l ih =>
    rw [List.cons_append, lastStart, ih, total_cons, Nat.add_assoc]

/-- A segment does not depend on the memory outside. -/
lemma Seg.congr (h : Seg m p q bs) (hsize : ∀ b ∈ bs, 6 ≤ b.size)
    (hm : ∀ i, p ≤ i → i < p + total bs → m' i = m i) : Seg m' p q bs := by
  induction bs generalizing p q with
  | nil => trivial
  | cons b bs ih =>
    obtain ⟨hb, hbs⟩ := List.forall_mem_cons.mp hsize
    rw [total_cons] at hm
    refine ⟨?_, ih h.2 hbs fun i hi hi' => hm i (by omega) (by omega)⟩
    rw [header_congr fun i hi hi' => hm i hi (by omega), h.1]

/-- A segment whose first header gets another `prev`. -/
lemma Seg.relink (h : Seg m p q bs) (hsize : ∀ b ∈ bs, 6 ≤ b.size)
    (hprev : bs ≠ [] → get16 m' (p + 2) = q')
    (hm : ∀ i, p ≤ i → i < p + total bs → i ≠ p + 2 → i ≠ p + 3 → m' i = m i) :
    Seg m' p q' bs := by
  rcases bs with _ | ⟨b, bs⟩
  · trivial
  · obtain ⟨hb, hbs⟩ := List.forall_mem_cons.mp hsize
    rw [total_cons] at hm
    have hold := h.1
    rw [header, Mem.mk.injEq] at hold
    refine ⟨?_, h.2.congr hbs fun i hi hi' => hm i (by omega) (by omega) (by omega) (by omega)⟩
    rw [header, hprev (by simp), hm (p + 4) (by omega) (by omega) (by omega) (by omega),
      get16_congr (hm p le_rfl (by omega) (by omega) (by omega))
        (hm (p + 1) (by omega) (by omega) (by omega) (by omega)), hold.1, hold.2.2]

end Seg

/-- The heap is cut into the blocks. -/
structure Tiled (m : Memory) (bs : List Block) : Prop where
  seg : Seg m 0 0 bs
  covers : total bs = memSize
  atEnd : m (memSize + 4) = 1
  size : ∀ b ∈ bs, sizeofMem + minSize ≤ b.size

/-- The memory is the same outside the place from `P` to `E`, but for the `prev` of the header
at `E`. -/
def SameOutside (m m' : Memory) (P E : ℕ) : Prop :=
  ∀ i, i < P ∨ E ≤ i → i ≠ E + 2 → i ≠ E + 3 → m' i = m i

lemma SameOutside.trans {m m' m'' : Memory} {P P' E : ℕ} (h : SameOutside m m' P E)
    (h' : SameOutside m' m'' P' E) (hP : P' ≤ P) : SameOutside m m'' P' E := fun i hi h2 h3 =>
  (h' i hi h2 h3).trans (h i (by omega) h2 h3)

namespace Tiled

variable {m m' : Memory} {l r bs : List Block} {b : Block}

lemma size_le (h : Tiled m bs) : ∀ b ∈ bs, 6 ≤ b.size := fun b hb => by
  have := h.size b hb
  simp only [sizes] at this
  omega

lemma size_pos (h : Tiled m bs) : ∀ b ∈ bs, 0 < b.size := fun b hb => by
  have := h.size_le b hb
  omega

lemma length_le (h : Tiled m bs) : bs.length ≤ memSize := by
  have hle : ∀ cs : List Block, (∀ b ∈ cs, 0 < b.size) → cs.length ≤ total cs := by
    intro cs hcs
    induction cs with
    | nil => simp
    | cons c cs ih =>
      obtain ⟨hc, hcs⟩ := List.forall_mem_cons.mp hcs
      have := ih hcs
      rw [List.length_cons, total_cons]
      omega
  rw [← h.covers]
  exact hle bs h.size_pos

/-- The header of a block. -/
lemma header_mid (h : Tiled m (l ++ b :: r)) :
    header m (total l)
      = ⟨total l + b.size, lastStart 0 0 l, if b.used then 1 else 0⟩ := by
  have := ((seg_append.mp h.seg).2).1
  simpa using this

/-- The header of the second of two blocks. -/
lemma header_second {a : Block} (h : Tiled m (l ++ a :: b :: r)) :
    header m (total l + a.size)
      = ⟨total l + a.size + b.size, total l, if b.used then 1 else 0⟩ := by
  have hsplit : Tiled m ((l ++ [a]) ++ b :: r) := by simpa using h
  simpa [lastStart_concat] using hsplit.header_mid

/-- **An edit of the heap.**  The blocks `mid` are replaced by others of the same length, and the
header behind them is linked to the last of the others: the heap is still cut into blocks. -/
lemma edit (mid mid' : List Block) (h : Tiled m (l ++ (mid ++ r)))
    (htotal : total mid' = total mid)
    (hsize : ∀ b ∈ mid', sizeofMem + minSize ≤ b.size)
    (hseg : Seg m' (total l) (lastStart 0 0 l) mid')
    (hprev : r ≠ [] → get16 m' (total l + total mid + 2)
      = lastStart (total l) (lastStart 0 0 l) mid')
    (hout : SameOutside m m' (total l) (total l + total mid)) :
    Tiled m' (l ++ (mid' ++ r)) := by
  have hseg0 := h.seg
  rw [seg_append, seg_append, Nat.zero_add] at hseg0
  obtain ⟨hl, -, hr⟩ := hseg0
  have hend := h.covers
  simp only [total_append] at hend
  have hsizes := h.size_le
  simp only [List.forall_mem_append] at hsizes
  refine ⟨?_, by simp only [total_append]; omega, ?_, ?_⟩
  · rw [seg_append, seg_append, Nat.zero_add, htotal]
    refine ⟨hl.congr hsizes.1 fun i _ hi => ?_, hseg, hr.relink hsizes.2.2 hprev fun i hi _ => ?_⟩
    · exact hout i (by omega) (by omega) (by omega)
    · exact hout i (by omega)
  · -- the header at the end is outside, or only its `prev` is written
    rw [hout (memSize + 4) (by omega) ?_ ?_]
    · exact h.atEnd
    · rcases r with _ | ⟨c, r⟩
      · simp only [total_nil] at hend
        omega
      · have := hsizes.2.2 c (by simp)
        rw [total_cons] at hend
        omega
    · rcases r with _ | ⟨c, r⟩
      · simp only [total_nil] at hend
        omega
      · have := hsizes.2.2 c (by simp)
        rw [total_cons] at hend
        omega
  · have hall := h.size
    simp only [List.forall_mem_append] at hall ⊢
    exact ⟨hall.1, hsize, hall.2.2⟩

/-- Only one block is written to, and its header still has its length. -/
lemma inside (h : Tiled m (l ++ b :: r)) {u : Bool}
    (hheader : header m' (total l)
      = ⟨total l + b.size, lastStart 0 0 l, if u then 1 else 0⟩)
    (hout : ∀ i, i < total l ∨ total l + b.size ≤ i → m' i = m i) :
    Tiled m' (l ++ ⟨b.size, u⟩ :: r) := by
  refine edit [b] [⟨b.size, u⟩] h (by simp) ?_ ⟨hheader, trivial⟩ ?_ ?_
  · simpa using h.size b (by simp)
  · intro hr
    obtain ⟨c, r', rfl⟩ := List.exists_cons_of_ne_nil hr
    simp only [total_cons, total_nil, lastStart, Nat.add_zero]
    rw [get16_congr (hout _ (by omega)) (hout _ (by omega))]
    exact congrArg Mem.prev h.header_second
  · intro i hi _ _
    simp only [total_cons, total_nil] at hi
    exact hout i (by omega)

/-- The flag of a block is written. -/
lemma flag (h : Tiled m (l ++ b :: r)) (u : Bool) :
    Tiled (put8 m (total l + 4) (if u then 1 else 0)) (l ++ ⟨b.size, u⟩ :: r) := by
  have hb := h.size_le b (by simp)
  refine h.inside (by rw [header_putUsed, h.header_mid]) fun i hi => put8_of_ne (by omega)

/-- The data of a block is written. -/
lemma write (h : Tiled m (l ++ b :: r))
    (hout : ∀ i, i < total l + sizeofMem ∨ total l + b.size ≤ i → m' i = m i) :
    Tiled m' (l ++ b :: r) := by
  have hb := h.size_le b (by simp)
  simp only [sizes] at hout
  refine h.inside ?_ fun i hi => hout i (by omega)
  rw [header_congr fun i hi hi' => hout i (by omega), h.header_mid]

end Tiled

end Lwip
end DeepForensics
