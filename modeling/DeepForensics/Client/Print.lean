/-
# The printed dump

`print_mem` of `client_dir/utilities.h`: rows of eight bytes, in hexadecimal and as characters, with
dots in the place of the bytes that the last row does not have.  The counters are unsigned and wrap
around at `2 ^ 32`.  Beside the text the model has the index of every access to `data`.
-/
import DeepForensics.Client.Main

namespace DeepForensics
namespace Client

open Wire Runs

/-- What is printed, and the indices at which `data` is read. -/
structure Printing where
  text : List UInt8
  reads : List ℕ
deriving DecidableEq, Repr

/-- `isprint`, in the C locale. -/
def isprint (c : UInt8) : Bool := 32 ≤ c && c ≤ 126

section PrintMem

variable (request : Request) (data : List UInt8)

/-- A round of the first inner loop, with `k = i + j`. -/
def hexCell (k : ℕ) : Printing :=
  if k < request.length then ⟨hexPad 2 (data.getD k 0).toNat ++ str [' '], [k]⟩
  else ⟨str ['.', '.', ' '], []⟩

/-- A round of the second inner loop, with `k = i + j`. -/
def charCell (k : ℕ) : Printing :=
  if k < request.length then
    if isprint (data.getD k 0) then ⟨[data.getD k 0], [k, k]⟩ else ⟨str ['.'], [k]⟩
  else ⟨str ['.'], []⟩

/-- An inner loop: `j` goes from 0 to 7. -/
def cells (cell : ℕ → Printing) (i : ℕ) : Printing where
  text := (List.range 8).flatMap fun j => (cell (u32 (i + j))).text
  reads := (List.range 8).flatMap fun j => (cell (u32 (i + j))).reads

/-- A round of the outer loop. -/
def row (i : ℕ) : Printing where
  text := str ['0', 'x'] ++ hexPad 8 (u32 (request.startingAddress + i)) ++ str ['\t']
    ++ (cells (hexCell request data) i).text ++ str ['\t']
    ++ (cells (charCell request data) i).text ++ str ['\n']
  reads := (cells (hexCell request data) i).reads ++ (cells (charCell request data) i).reads

/-- The outer loop from `i` on; `none` when it has not ended within the fuel. -/
def rowLoop : ℕ → ℕ → Option Printing
  | 0, _ => none
  | fuel + 1, i =>
    if i < request.length then
      (rowLoop fuel (u32 (i + 8))).map fun p =>
        ⟨(row request data i).text ++ p.text, (row request data i).reads ++ p.reads⟩
    else some ⟨[], []⟩

/-- `print_mem(request, data)`. -/
def printMem : Option Printing := rowLoop request data (request.length / 8 + 2) 0

end PrintMem

/-! ## The accesses -/

section Reads

variable {request : Request} {data : List UInt8}

/-- A cell reads `data[k]` only if `k` is below the length. -/
lemma hexCell_reads {k x : ℕ} (h : x ∈ (hexCell request data k).reads) : x < request.length := by
  rw [hexCell] at h
  split_ifs at h with hk
  · rw [List.mem_singleton.mp h]
    exact hk
  · cases h

lemma charCell_reads {k x : ℕ} (h : x ∈ (charCell request data k).reads) : x < request.length := by
  rw [charCell] at h
  split_ifs at h with hk hp
  · rcases List.mem_pair.mp h with rfl | rfl
    · exact hk
    · exact hk
  · rw [List.mem_singleton.mp h]
    exact hk
  · cases h

lemma cells_reads {cell : ℕ → Printing} {n : ℕ} (hcell : ∀ k, ∀ x ∈ (cell k).reads, x < n) {i x : ℕ}
    (h : x ∈ (cells cell i).reads) : x < n := by
  obtain ⟨j, -, hx⟩ := List.mem_flatMap.mp h
  exact hcell _ x hx

lemma row_reads {i x : ℕ} (h : x ∈ (row request data i).reads) : x < request.length := by
  rcases List.mem_append.mp h with h | h
  · exact cells_reads (fun _ _ => hexCell_reads) h
  · exact cells_reads (fun _ _ => charCell_reads) h

/-- All rows together; the induction is on the fuel. -/
lemma rowLoop_reads :
    ∀ {fuel i : ℕ} {p : Printing}, rowLoop request data fuel i = some p →
      ∀ x ∈ p.reads, x < request.length := by
  intro fuel
  induction fuel with
  | zero => nofun
  | succ fuel ih =>
    intro i p hp x hx
    rw [rowLoop] at hp
    split_ifs at hp with hi
    · obtain ⟨q, hq, rfl⟩ := Option.map_eq_some_iff.mp hp
      rcases List.mem_append.mp hx with hx | hx
      · exact row_reads hx
      · exact ih hq x hx
    · cases hp
      cases hx

/-- The outer loop ends when `i` cannot wrap around: `k` rows cover what is left of the length. -/
lemma rowLoop_ends (hlen : request.length ≤ 2 ^ 32 - 8) :
    ∀ {k i : ℕ}, request.length ≤ i + 8 * k → ∃ p, rowLoop request data (k + 1) i = some p := by
  intro k
  induction k with
  | zero =>
    intro i h
    rw [rowLoop, if_neg (by omega)]
    exact ⟨_, rfl⟩
  | succ k ih =>
    intro i h
    rw [rowLoop]
    split_ifs with hi
    · have hnext : u32 (i + 8) = i + 8 := u32_natCast (n := i + 8) (by omega)
      obtain ⟨p, hp⟩ := ih (i := i + 8) (by omega)
      rw [hnext, hp]
      exact ⟨_, rfl⟩
    · exact ⟨_, rfl⟩

/-- **`print_mem` ends**, for every length that leaves room for one more row. -/
theorem printMem_ends (data : List UInt8) (hlen : request.length ≤ 2 ^ 32 - 8) :
    ∃ p, printMem request data = some p :=
  rowLoop_ends hlen (by omega)

end Reads

/-! ## From the parser to the printer -/

/-- The indices of the buffer that `recv` writes when it returns `count`. -/
def recvWrites (count : ℕ) (incoming : List UInt8) : List ℕ :=
  List.range (incoming.take count).length

lemma recvBuffer_length {count : ℕ} (h : count ≤ maxDataSize) (incoming : List UInt8) :
    (recvBuffer count incoming).length = maxDataSize := by
  rw [recvBuffer, List.length_append, List.length_replicate, List.length_take]
  omega

/-- **The buffer of the client.**  For every line that is accepted the length is at least 1 and at
most the size of the buffer; so `recv` writes inside the buffer, whatever it returns, and
`print_mem` ends and reads only below the length. -/
theorem client_in_bounds {line : List UInt8} {r : Request}
    (h : parseInput line = .ok (.memDump, r)) :
    1 ≤ r.length ∧ r.length ≤ maxDataSize ∧
      ∀ (incoming : List UInt8) (count : ℕ), count ≤ r.length →
        (∀ i ∈ recvWrites count incoming, i < maxDataSize) ∧
        (recvBuffer count incoming).length = maxDataSize ∧
        ∃ p, printMem r (recvBuffer count incoming) = some p ∧
          ∀ k ∈ p.reads, k < r.length ∧ k < maxDataSize := by
  obtain ⟨-, hpos, hle⟩ := parseInput_memDump h
  have hmax : maxDataSize ≤ 2 ^ 32 - 8 := by decide
  refine ⟨hpos, hle, fun incoming count hcount => ⟨?_, ?_, ?_⟩⟩
  · intro i hi
    rw [recvWrites, List.mem_range, List.length_take] at hi
    omega
  · exact recvBuffer_length (hcount.trans hle) incoming
  · obtain ⟨p, hp⟩ := printMem_ends (recvBuffer count incoming) (hle.trans hmax)
    refine ⟨p, hp, fun k hk => ?_⟩
    have hlt : k < r.length := rowLoop_reads hp k hk
    exact ⟨hlt, lt_of_lt_of_le hlt hle⟩

/-- The line `d -a 0x1000 -l 10`, with three bytes received. -/
theorem client_in_bounds_ten :
    ∃ p, printMem ⟨4096, 10⟩ (recvBuffer 3 [1, 2, 3]) = some p ∧
      ∀ k ∈ p.reads, k < 10 ∧ k < maxDataSize := by
  have hline : parseInput (str ['d', ' ', '-', 'a', ' ', '0', 'x', '1', '0', '0', '0', ' ', '-',
      'l', ' ', '1', '0']) = .ok (.memDump, ⟨4096, 10⟩) := by
    decide +kernel
  exact ((client_in_bounds hline).2.2 [1, 2, 3] 3 (by decide)).2.2

end Client
end DeepForensics
