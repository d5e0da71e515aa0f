/-
# The tokens of a line

`split` counts the spaces of a line with `strstr`, allocates one slot more, and fills the slots
with `strtok`.  The two scans have different notions of a token: the count takes every space for
a boundary, `strtok` skips spaces that follow each other.  So the slots hold the runs of the line
between spaces, there are always enough of them, and those that are left over are null.
-/
import DeepForensics.Client.Parse
import DeepForensics.Lib.Tokens

namespace DeepForensics
namespace Client

open Wire Runs Tokens

/-- The runs of a line between spaces. -/
def tokens (line : List UInt8) : List (List UInt8) := runs (ch ' ') line

/-- The number of spaces of a line. -/
def spaces (line : List UInt8) : ℕ := line.count (ch ' ')

/-! ## The two loops -/

/-- The first space of a string, if there is one. -/
lemma strstr_cases (ptr : List UInt8) :
    strstr ptr = none ∧ spaces ptr = 0 ∨
      ∃ rest, strstr ptr = some (ch ' ' :: rest) ∧ rest.length < ptr.length ∧
        spaces ptr = spaces rest + 1 := by
  rcases dropWhile_ne_cases (ch ' ') ptr with ⟨hdrop, -, hnone⟩ | ⟨rest, hdrop, hsplit, hfree⟩
  · left
    rw [strstr, hdrop]
    exact ⟨rfl, List.count_eq_zero_of_not_mem hnone⟩
  · right
    refine ⟨rest, by rw [strstr, hdrop], ?_, ?_⟩
    · have hlen := congrArg List.length hsplit
      rw [List.length_append, List.length_cons] at hlen
      omega
    · rw [spaces, ← hsplit, List.count_append, List.count_eq_zero_of_not_mem hfree,
        List.count_cons_self, Nat.zero_add]
      rfl

/-- The first loop counts the spaces; the induction is on the fuel. -/
lemma countLoop_eq : ∀ (fuel : ℕ) (ptr : List UInt8) (counter : ℕ), ptr.length < fuel →
    countLoop fuel ptr counter = counter + spaces ptr := by
  intro fuel
  induction fuel with
  | zero => exact fun ptr counter h => absurd h (Nat.not_lt_zero _)
  | succ fuel ih =>
    intro ptr counter h
    rcases strstr_cases ptr with ⟨hnone, hzero⟩ | ⟨rest, hsome, hlen, hsucc⟩
    · simp only [countLoop, hnone, hzero, Nat.add_zero]
    · simp only [countLoop, hsome, List.tail_cons]
      rw [ih rest (counter + 1) (by omega), hsucc]
      omega

/-- `strtok` returns the first run and leaves the others. -/
lemma strtok_cases (s : List UInt8) :
    strtok s = none ∧ tokens s = [] ∨
      ∃ t rest, strtok s = some (t, rest) ∧ rest.length < s.length ∧
        tokens s = t :: tokens rest := by
  have hruns : tokens s = tokens (s.dropWhile (· = ch ' ')) := (runs_dropWhile (ch ' ') s).symm
  have hle : (s.dropWhile (· = ch ' ')).length ≤ s.length := (List.dropWhile_sublist _).length_le
  cases hdrop : s.dropWhile (· = ch ' ') with
  | nil =>
    left
    rw [hruns, strtok, hdrop]
    exact ⟨rfl, rfl⟩
  | cons c cs =>
    have hc : c ≠ ch ' ' := by
      have hhead := List.head?_dropWhile_not (· = ch ' ') s
      rw [hdrop] at hhead
      simpa using hhead
    right
    refine ⟨(c :: cs).takeWhile (· ≠ ch ' '), ((c :: cs).dropWhile (· ≠ ch ' ')).tail, ?_, ?_, ?_⟩
    · rw [strtok, hdrop]
    · rw [hdrop, List.length_cons] at hle
      have hsub : ((c :: cs).dropWhile (· ≠ ch ' ')).length ≤ (c :: cs).length :=
        (List.dropWhile_sublist _).length_le
      rw [List.length_tail]
      rw [List.length_cons] at hsub
      omega
    · rw [hruns, hdrop]
      exact runs_cons (ch ' ') hc cs

/-- The second loop stores the runs from slot `i` on, if there are slots for them. -/
lemma tokenLoop_eq : ∀ (fuel : ℕ) (s : List UInt8) (i : ℕ) (parts : List (Option (List UInt8))),
    s.length < fuel → i + (tokens s).length ≤ parts.length →
    tokenLoop fuel s i parts
      = .ok (parts.take i ++ ((tokens s).map some ++ parts.drop (i + (tokens s).length))) := by
  intro fuel
  induction fuel with
  | zero => exact fun s i parts h => absurd h (Nat.not_lt_zero _)
  | succ fuel ih =>
    intro s i parts h hroom
    rcases strtok_cases s with ⟨hnone, hnil⟩ | ⟨t, rest, hsome, hlen, hcons⟩
    · simp [tokenLoop, hnone, hnil]
    · rw [hcons, List.length_cons] at hroom
      have hi : i < parts.length := by omega
      have hrec := ih rest (i + 1) (parts.set i (some t)) (by omega)
        (by rw [List.length_set]; omega)
      simp only [tokenLoop, hsome, if_pos hi, hrec, hcons]
      have hdrop : (parts.set i (some t)).drop (i + 1 + (tokens rest).length)
          = parts.drop (i + (t :: tokens rest).length) := by
        rw [List.drop_set_of_lt (by omega), List.length_cons]
        congr 1
        omega
      have htake : (parts.set i (some t)).take (i + 1) = parts.take i ++ [some t] := by
        rw [List.set_eq_take_cons_drop (some t) hi, List.take_append]
        simp [Nat.min_eq_left hi.le]
      rw [hdrop, htake]
      simp

/-! ## The array -/

/-- The array `parts`: the runs of the line, and null in the slots that are left. -/
def slots (line : List UInt8) : List (Option (List UInt8)) :=
  (tokens line).map some ++ List.replicate (spaces line + 1 - (tokens line).length) none

/-- The two loops with any fuel that covers the line, on the array that `split` allocates. -/
lemma loops_eq (line : List UInt8) {fuel : ℕ} (h : line.length < fuel) :
    countLoop fuel line 0 = spaces line ∧
      tokenLoop fuel line 0 (List.replicate (spaces line + 1) none) = .ok (slots line) := by
  have hroom : (tokens line).length ≤ spaces line + 1 := runs_length_le (ch ' ') line
  have hfill := tokenLoop_eq fuel line 0 (List.replicate (spaces line + 1) none) h
    (by rw [List.length_replicate, Nat.zero_add]; exact hroom)
  constructor
  · rw [countLoop_eq fuel line 0 h, Nat.zero_add]
  · rw [hfill, List.take_zero, List.nil_append, Nat.zero_add, List.drop_replicate]
    rfl

/-- **What `split` returns.**  The array holds the runs of the line in order and nothing else, it
is never overrun, and the size returned is one more than the number of spaces. -/
theorem split_eq (line : List UInt8) : split line = .ok (slots line, spaces line + 1) := by
  obtain ⟨hcount, hfill⟩ := loops_eq line (Nat.lt_succ_self line.length)
  rw [split, hcount, hfill]
  rfl

/-- The array `parts` of `split`, for the string `line` with `counter` spaces: `n` of its slots are
filled. -/
structure Exact (line : List UInt8) (parts : List (Option (List UInt8))) (counter n : ℕ) :
    Prop where
  /-- The slots that are allocated. -/
  alloc : parts.length = counter + 1
  room : n ≤ counter + 1
  filled : parts.take n = (tokens line).map some
  null : ∀ p ∈ parts.drop n, p = none
  size : counter + 1 = n ↔ line ≠ [] ∧ line.head? ≠ some (ch ' ') ∧
    line.getLast? ≠ some (ch ' ') ∧ ¬ [ch ' ', ch ' '] <:+: line

/-- **The array of `split` is exact.**  For every string both loops end, the counter is the number
of spaces, the tokens fit the slots and are the runs of the string, the other slots are null, and
the size returned is the number of tokens exactly if no space stands at an end of the string or
next to another one.  The counter is a natural number here; an `int` holds it, and the size, for
all strings with fewer than `2 ^ 31 - 1` spaces. -/
theorem split_exact (line : List UInt8) :
    ∃ parts counter n, split line = .ok (parts, counter + 1) ∧ Exact line parts counter n ∧
      counter = line.count (ch ' ') ∧
      ∀ fuel, line.length < fuel → countLoop fuel line 0 = counter ∧
        tokenLoop fuel line 0 (List.replicate (counter + 1) none) = .ok parts := by
  have hroom : (tokens line).length ≤ spaces line + 1 := runs_length_le (ch ' ') line
  have hlen : ((tokens line).map some).length = (tokens line).length := List.length_map some
  refine ⟨slots line, spaces line, (tokens line).length, split_eq line, ?_, rfl,
    fun fuel h => loops_eq line h⟩
  constructor
  · rw [slots, List.length_append, hlen, List.length_replicate]
    omega
  · exact hroom
  · exact List.take_left' hlen
  · intro p hp
    rw [slots, List.drop_left' hlen] at hp
    exact List.eq_of_mem_replicate hp
  · rw [eq_comm]
    exact runs_length_eq_iff (ch ' ') line

example : split (str ['d', ' ', ' ', 'x'])
    = .ok ([some (str ['d']), some (str ['x']), none], 3) := by decide

lemma slots_getD (line : List UInt8) (i : ℕ) : (slots line).getD i none = (tokens line)[i]? := by
  rw [List.getD_eq_getElem?_getD, slots]
  by_cases hi : i < (tokens line).length
  · rw [List.getElem?_append_left (by simpa using hi), List.getElem?_map,
      List.getElem?_eq_getElem hi]
    rfl
  · rw [List.getElem?_append_right (by simpa using hi), List.getElem?_replicate,
      List.getElem?_eq_none (not_lt.mp hi)]
    split_ifs
    · rfl
    · rfl

section Token

variable {line : List UInt8} {i : ℕ}

/-- A slot up to the last run is not null. -/
lemma token_some {t : List UInt8} (h : (tokens line)[i]? = some t) :
    token (slots line) i = .ok t := by
  rw [token, slots_getD, h]

/-- A slot behind the last run is null. -/
lemma token_none (h : (tokens line).length ≤ i) : token (slots line) i = .error .nullToken := by
  rw [token, slots_getD, List.getElem?_eq_none h]

end Token

/-! ## Null tokens -/

/-- The tokens of a dump command with four spaces are all there, or it is turned down before the
missing ones are looked at. -/
def DumpSuffices (ts : List (List UInt8)) : Prop :=
  ts.length = 5 ∨ 2 ≤ ts.length ∧ ts[1]? ≠ some (str ['-', 'a']) ∨
    ts.length = 4 ∧ ts[3]? ≠ some (str ['-', 'a']) ∧ ts[3]? ≠ some (str ['-', 'l'])

/-- The slots that `parse_input` looks at are not null, in terms of the runs of the line. -/
structure TokensSuffice (line : List UInt8) : Prop where
  first : tokens line ≠ []
  dump : (tokens line)[0]? = some (str ['d']) → spaces line = 4 → DumpSuffices (tokens line)

section Total

variable {line : List UInt8}

/-- `parse_input` on the five slots of a dump command. -/
lemma parseDump_ok_iff (hle : (tokens line).length ≤ 5) :
    (∃ r, parseDump (slots line) = .ok r) ↔ DumpSuffices (tokens line) := by
  have htoken : ∀ i, i < (tokens line).length → ∃ t, (tokens line)[i]? = some t :=
    fun i hi => ⟨_, List.getElem?_eq_getElem hi⟩
  rw [parseDump]
  by_cases h1 : (tokens line).length ≤ 1
  · rw [token_none h1, error_bind]
    refine iff_of_false nofun ?_
    unfold DumpSuffices
    omega
  obtain ⟨t₁, ht₁⟩ := htoken 1 (by omega)
  rw [token_some ht₁, ok_bind]
  by_cases ha : t₁ = str ['-', 'a']
  swap
  · -- turned down at the second slot
    rw [if_neg ha]
    refine iff_of_true ⟨_, rfl⟩ (Or.inr (Or.inl ⟨by omega, ?_⟩))
    rw [ht₁]
    simpa using ha
  rw [if_pos ha]
  subst ha
  have hfew : (tokens line).length ≤ 3 → ¬ DumpSuffices (tokens line) := by
    rintro h3 (h | h | h)
    · omega
    · exact h.2 ht₁
    · omega
  by_cases h2 : (tokens line).length ≤ 2
  · rw [token_none h2, error_bind]
    exact iff_of_false nofun (hfew (by omega))
  obtain ⟨t₂, ht₂⟩ := htoken 2 (by omega)
  rw [token_some ht₂, ok_bind]
  by_cases h3 : (tokens line).length ≤ 3
  · rw [token_none h3, error_bind]
    exact iff_of_false nofun (hfew h3)
  obtain ⟨t₃, ht₃⟩ := htoken 3 (by omega)
  rw [token_some ht₃, ok_bind]
  by_cases h4 : (tokens line).length ≤ 4
  · -- the last slot is null, and it is looked at for the two options only
    rw [token_none h4, error_bind]
    have hfour : DumpSuffices (tokens line) ↔ t₃ ≠ str ['-', 'a'] ∧ t₃ ≠ str ['-', 'l'] := by
      rw [DumpSuffices, ht₁, ht₃]
      have heq : (tokens line).length = 4 := by omega
      simp [heq]
    rw [hfour]
    split_ifs with haa hal
    · exact iff_of_false nofun fun h => h.1 haa
    · exact iff_of_false nofun fun h => h.2 hal
    · exact iff_of_true ⟨_, rfl⟩ ⟨haa, hal⟩
  · obtain ⟨t₄, ht₄⟩ := htoken 4 (by omega)
    rw [token_some ht₄, ok_bind]
    refine iff_of_true ?_ (Or.inl (by omega))
    split_ifs
    · exact ⟨_, rfl⟩
    · exact ⟨_, rfl⟩
    · exact ⟨_, rfl⟩

/-- **When the parser is total.**  `parse_input` returns one of its three strings, and passes no
null token on, exactly on the lines whose runs suffice. -/
theorem parseInput_total_iff (line : List UInt8) :
    (∃ r, parseInput line = .ok r) ↔ TokensSuffice line := by
  have hle : (tokens line).length ≤ spaces line + 1 := runs_length_le (ch ' ') line
  rw [parseInput, split_eq, ok_bind]
  dsimp only
  cases hts : tokens line with
  | nil =>
    -- the first slot is null
    rw [token_none (by rw [hts]; exact Nat.le_refl 0), error_bind]
    exact iff_of_false nofun fun h => h.first hts
  | cons t₀ ts =>
    have ht₀ : (tokens line)[0]? = some t₀ := by rw [hts]; rfl
    have hne : tokens line ≠ [] := by rw [hts]; nofun
    rw [token_some ht₀, ok_bind]
    by_cases hd : t₀ = str ['d']
    · rw [if_pos hd]
      by_cases h5 : spaces line + 1 = 5
      · rw [if_pos h5, parseDump_ok_iff (by omega)]
        constructor
        · exact fun h => ⟨hne, fun _ _ => h⟩
        · exact fun h => h.dump (by rw [ht₀, hd]) (by omega)
      · rw [if_neg h5]
        exact iff_of_true ⟨_, rfl⟩ ⟨hne, fun _ h4 => absurd h4 (by omega)⟩
    · rw [if_neg hd]
      refine iff_of_true ?_ ⟨hne, fun h => absurd (Option.some.inj (ht₀.symm.trans h)) hd⟩
      split_ifs
      · exact ⟨_, rfl⟩
      · exact ⟨_, rfl⟩

/-- The empty line makes `parse_input` compare a null token, and so does a dump command that ends
with a space in the place of its last number. -/
theorem parseInput_null_token :
    parseInput [] = .error .nullToken ∧
    parseInput (str ['d', ' ', '-', 'a', ' ', '1', ' ', '-', 'l', ' ']) = .error .nullToken := by
  constructor
  · rfl
  · decide +kernel

end Total

end Client
end DeepForensics
