/-
# The grammar of the dump command

What a dump command should be: two options with a number each, where a number is written as a
decimal, hexadecimal or octal literal.  The parser reads numbers with `strtol` and `atoi`, which
stop at the first character that does not fit, and keeps 32 bits of what they return.  On whole
literals below `2 ^ 32` it follows the grammar; beyond them it lets through what the grammar does
not have.
-/
import DeepForensics.Client.Split

namespace DeepForensics
namespace Client

open Wire Runs Tokens

/-! ## Literals -/

/-- A non-empty string of digits of the base, as its value. -/
def digitString (base : ℕ) (s : List UInt8) : Option ℕ :=
  if !s.isEmpty && s.all (isDigit base) then some (numeral base s) else none

/-- A decimal literal. -/
def decimal (s : List UInt8) : Option ℕ := digitString 10 s

/-- An integer literal: hexadecimal with `0x`, octal with `0`, or decimal. -/
def literal (s : List UInt8) : Option ℕ :=
  if s.head? = some (ch '0') then
    if s.tail.head? = some (ch 'x') ∨ s.tail.head? = some (ch 'X') then digitString 16 (s.drop 2)
    else digitString 8 s
  else digitString 10 s

section Literals

variable {s : List UInt8} {base v : ℕ}

lemma digitString_eq_some_iff :
    digitString base s = some v ↔
      s ≠ [] ∧ (∀ c ∈ s, isDigit base c = true) ∧ numeral base s = v := by
  have hcond : (!s.isEmpty && s.all (isDigit base)) = true ↔
      s ≠ [] ∧ ∀ c ∈ s, isDigit base c = true := by
    simp
  rw [digitString]
  split_ifs with h
  · obtain ⟨hne, hall⟩ := hcond.mp h
    constructor
    · exact fun hv => ⟨hne, hall, Option.some.inj hv⟩
    · rintro ⟨-, -, rfl⟩
      rfl
  · constructor
    · nofun
    · rintro ⟨hne, hall, -⟩
      exact absurd (hcond.mpr ⟨hne, hall⟩) h

/-- A character that can begin a literal is neither a space nor a sign. -/
lemma start_of_isDigit {c : UInt8} (h : isDigit 10 c = true) :
    isspace c = false ∧ c ≠ ch '-' ∧ c ≠ ch '+' := by
  have hc := toNat_of_isDigit h
  refine ⟨?_, ?_, ?_⟩
  · have h1 : ¬ c ≤ 13 := by
      rw [UInt8.le_iff_toNat_le]
      show ¬ c.toNat ≤ 13
      omega
    have h2 : c ≠ 32 := by
      rintro rfl
      revert hc
      decide
    simp [isspace, h1, h2]
  · rintro rfl
    revert h
    decide
  · rintro rfl
    revert h
    decide

/-- `strtol` on a string that begins with a digit and has only digits behind the prefix of its
base. -/
lemma strtol_digits {c : UInt8} (hhead : s.head? = some c) (hc : isDigit 10 c = true)
    (hdigits : digitString (literalBase base s).1 (literalBase base s).2 = some v) :
    strtol base s = min (v : ℤ) (2 ^ 63 - 1) := by
  obtain ⟨hspace, hminus, hplus⟩ := start_of_isDigit hc
  obtain ⟨-, hall, hv⟩ := digitString_eq_some_iff.mp hdigits
  have hdrop : s.dropWhile isspace = s := by
    cases s with
    | nil => rfl
    | cons x s =>
      cases hhead
      exact List.dropWhile_cons_of_neg (by simp [hspace])
  have hsign : literalSign s = (false, s) := by
    simp [literalSign, hhead, hminus, hplus]
  have htake : (literalBase base s).2.takeWhile (isDigit (literalBase base s).1)
      = (literalBase base s).2 := List.takeWhile_eq_self_iff.mpr hall
  simp only [strtol, hdrop, hsign, htake, hv]
  rfl

lemma head_of_digits (hne : s ≠ []) (hall : ∀ c ∈ s, isDigit base c = true) (hb : base ≤ 10) :
    ∃ c, s.head? = some c ∧ isDigit 10 c = true := by
  cases s with
  | nil => exact absurd rfl hne
  | cons c s => exact ⟨c, rfl, isDigit_mono hb (hall c List.mem_cons_self)⟩

/-- **`strtol` reads a literal**, up to the largest `long`. -/
theorem strtol_literal (h : literal s = some v) : strtol 0 s = min (v : ℤ) (2 ^ 63 - 1) := by
  have hlit : digitString (literalBase 0 s).1 (literalBase 0 s).2 = some v := by
    rw [← h, literal, literalBase, if_pos rfl]
    split_ifs
    · rfl
    · rfl
    · rfl
  -- the first character is a decimal digit: the `0` of a prefix, or a digit of the number
  obtain ⟨c, hhead, hc⟩ : ∃ c, s.head? = some c ∧ isDigit 10 c = true := by
    rw [literal] at h
    split_ifs at h with h0 hx
    · exact ⟨_, h0, by decide⟩
    · exact ⟨_, h0, by decide⟩
    · obtain ⟨hne, hall, -⟩ := digitString_eq_some_iff.mp h
      exact head_of_digits hne hall le_rfl
  exact strtol_digits hhead hc hlit

/-- `strtol` reads a decimal literal, up to the largest `long`. -/
lemma strtol_decimal (h : decimal s = some v) : strtol 10 s = min (v : ℤ) (2 ^ 63 - 1) := by
  obtain ⟨hne, hall, -⟩ := digitString_eq_some_iff.mp h
  obtain ⟨c, hhead, hc⟩ := head_of_digits hne hall le_rfl
  exact strtol_digits hhead hc h

lemma u32_strtol_literal (h : literal s = some v) (hv : v < 2 ^ 32) : u32 (strtol 0 s) = v := by
  rw [strtol_literal h, min_eq_left (by omega), u32_natCast hv]

lemma u32_atoi_decimal (h : decimal s = some v) (hv : v < 2 ^ 32) : u32 (atoi s) = v := by
  rw [atoi, strtol_decimal h, min_eq_left (by omega), u32_natCast hv, u32_int32 hv]

end Literals

/-! ## Command lines -/

/-- A token of a line: it is not empty and has no space. -/
structure Token (t : List UInt8) : Prop where
  ne_nil : t ≠ []
  space_notMem : ch ' ' ∉ t

lemma token_a : Token (str ['-', 'a']) := ⟨by decide, by decide⟩

lemma token_l : Token (str ['-', 'l']) := ⟨by decide, by decide⟩

/-- The line `d -a X F Z`. -/
def dumpLine (X F Z : List UInt8) : List UInt8 :=
  str ['d'] ++ ch ' ' :: (str ['-', 'a'] ++ ch ' ' :: (X ++ ch ' ' :: (F ++ ch ' ' :: Z)))

section Line

variable {X F Z : List UInt8}

lemma tokens_dumpLine (hX : Token X) (hF : Token F) (hZ : Token Z) :
    tokens (dumpLine X F Z) = [str ['d'], str ['-', 'a'], X, F, Z] := by
  rw [tokens, dumpLine, runs_append _ (by decide) (by decide),
    runs_append _ token_a.ne_nil token_a.space_notMem,
    runs_append _ hX.ne_nil hX.space_notMem, runs_append _ hF.ne_nil hF.space_notMem,
    runs_single _ hZ.ne_nil hZ.space_notMem]

lemma spaces_dumpLine (hX : Token X) (hF : Token F) (hZ : Token Z) :
    spaces (dumpLine X F Z) = 4 := by
  have h1 : (str ['d']).count (ch ' ') = 0 := by decide
  have h2 : (str ['-', 'a']).count (ch ' ') = 0 := by decide
  simp only [spaces, dumpLine, List.count_append, List.count_cons_self, h1, h2,
    List.count_eq_zero_of_not_mem hX.space_notMem, List.count_eq_zero_of_not_mem hF.space_notMem,
    List.count_eq_zero_of_not_mem hZ.space_notMem]

/-- What the parser makes of the line `d -a X F Z`. -/
lemma parseInput_dumpLine (hX : Token X) (hF : Token F) (hZ : Token Z) :
    parseInput (dumpLine X F Z) = .ok
      (if F = str ['-', 'a'] then
        checkLength (u32 (strtol 0 X)) (u32 ((u32 (strtol 0 Z) : ℤ) - u32 (strtol 0 X)))
      else if F = str ['-', 'l'] then checkLength (u32 (strtol 0 X)) (u32 (atoi Z))
      else (.invalidInput, ⟨u32 (strtol 0 X), u32 (-1)⟩)) := by
  have htokens := tokens_dumpLine hX hF hZ
  have ht : ∀ i t, [str ['d'], str ['-', 'a'], X, F, Z][i]? = some t →
      token (slots (dumpLine X F Z)) i = .ok t :=
    fun i t h => token_some (by rw [htokens, h])
  rw [parseInput, split_eq, ok_bind, spaces_dumpLine hX hF hZ]
  dsimp only
  rw [ht 0 _ rfl, ok_bind, if_pos rfl, if_pos rfl, parseDump, ht 1 _ rfl, ok_bind, if_pos rfl,
    ht 2 _ rfl, ok_bind, ht 3 _ rfl, ok_bind, ht 4 _ rfl, ok_bind]
  split_ifs
  · rfl
  · rfl
  · rfl

end Line

/-! ## The grammar -/

/-- A length that a dump may have. -/
def LengthOk (n : ℕ) : Prop := 1 ≤ n ∧ n ≤ maxDataSize

instance (n : ℕ) : Decidable (LengthOk n) := inferInstanceAs (Decidable (_ ∧ _))

/-- A literal of a 32-bit number. -/
def literal32 (s : List UInt8) : Option ℕ :=
  match literal s with
  | some v => if v < 2 ^ 32 then some v else none
  | none => none

/-- The request of the command `d -a X F Z`, if it has one: `F` is `-l` and `Z` the length, or `F`
is `-a` and `Z` the first address behind the range. -/
def grammar (X F Z : List UInt8) : Option Request :=
  if F = str ['-', 'l'] then
    match literal32 X, decimal Z with
    | some x, some n => if LengthOk n then some ⟨x, n⟩ else none
    | _, _ => none
  else if F = str ['-', 'a'] then
    match literal32 X, literal32 Z with
    | some x, some z => if x ≤ z ∧ LengthOk (z - x) then some ⟨x, z - x⟩ else none
    | _, _ => none
  else none

/-- The parser follows the grammar on the command `d -a X F Z`: a command of the grammar is accepted
with its request, and everything else is turned down. -/
def FollowsGrammar (X F Z : List UInt8) : Prop :=
  match grammar X F Z with
  | some r => parseInput (dumpLine X F Z) = .ok (.memDump, r)
  | none => ∃ r, parseInput (dumpLine X F Z) = .ok (.invalidInput, r)

/-- Whenever the numbers that the C library reads from the tokens give a length that a dump may
have, the tokens are whole literals of 32-bit numbers, and a range does not run backwards. -/
structure WholeNumbers (X F Z : List UInt8) : Prop where
  byLength : F = str ['-', 'l'] → LengthOk (u32 (atoi Z)) →
    (∃ x < 2 ^ 32, literal X = some x) ∧ ∃ n < 2 ^ 32, decimal Z = some n
  byRange : F = str ['-', 'a'] → LengthOk (u32 ((u32 (strtol 0 Z) : ℤ) - u32 (strtol 0 X))) →
    ∃ x z, literal X = some x ∧ literal Z = some z ∧ x ≤ z ∧ z < 2 ^ 32

section Follows

variable {X F Z : List UInt8}

lemma literal32_eq_some_iff {s : List UInt8} {v : ℕ} :
    literal32 s = some v ↔ literal s = some v ∧ v < 2 ^ 32 := by
  rw [literal32]
  cases literal s with
  | none => simp
  | some u =>
    dsimp only
    split_ifs with hu
    · constructor
      · rintro ⟨⟩
        exact ⟨rfl, hu⟩
      · exact fun h => h.1
    · constructor
      · nofun
      · rintro ⟨⟨⟩, hv⟩
        exact absurd hv hu

/-- A command with the option `-l`. -/
lemma grammar_byLength {r : Request} :
    grammar X (str ['-', 'l']) Z = some r ↔
      ∃ x n, literal X = some x ∧ x < 2 ^ 32 ∧ decimal Z = some n ∧ LengthOk n ∧ r = ⟨x, n⟩ := by
  rw [grammar, if_pos rfl]
  constructor
  · intro h
    split at h
    · next x n hx hn =>
      split_ifs at h with hok
      cases h
      exact ⟨x, n, (literal32_eq_some_iff.mp hx).1, (literal32_eq_some_iff.mp hx).2, hn, hok, rfl⟩
    · cases h
  · rintro ⟨x, n, hx, hx32, hn, hok, rfl⟩
    rw [literal32_eq_some_iff.mpr ⟨hx, hx32⟩, hn]
    dsimp only
    rw [if_pos hok]

/-- A command with the option `-a`. -/
lemma grammar_byRange {r : Request} :
    grammar X (str ['-', 'a']) Z = some r ↔
      ∃ x z, literal X = some x ∧ literal Z = some z ∧ z < 2 ^ 32 ∧ x ≤ z ∧ LengthOk (z - x) ∧
        r = ⟨x, z - x⟩ := by
  rw [grammar, if_neg (by decide), if_pos rfl]
  constructor
  · intro h
    split at h
    · next x z hx hz =>
      split_ifs at h with hok
      cases h
      rw [literal32_eq_some_iff] at hx hz
      exact ⟨x, z, hx.1, hz.1, hz.2, hok.1, hok.2, rfl⟩
    · cases h
  · rintro ⟨x, z, hx, hz, hz32, hle, hok, rfl⟩
    rw [literal32_eq_some_iff.mpr ⟨hx, by omega⟩, literal32_eq_some_iff.mpr ⟨hz, hz32⟩]
    dsimp only
    rw [if_pos ⟨hle, hok⟩]

lemma checkLength_of_ok {a n : ℕ} (h : LengthOk n) : checkLength a n = (.memDump, ⟨a, n⟩) := by
  obtain ⟨h1, h2⟩ := h
  rw [checkLength, if_neg (by omega), if_neg (by omega)]

lemma checkLength_of_not {a n : ℕ} (h : ¬ LengthOk n) :
    ∃ r, checkLength a n = (.invalidInput, r) := by
  rw [LengthOk] at h
  rw [checkLength]
  split_ifs with h1 h2
  · exact ⟨_, rfl⟩
  · exact ⟨_, rfl⟩
  · omega

/-- When the parser checks a length `n` and the grammar has no other request than the one with that
length, the parser follows the grammar unless it accepts what the grammar does not have. -/
lemma follows_of_checkLength {a n : ℕ}
    (hparse : parseInput (dumpLine X F Z) = .ok (checkLength a n))
    (hg : ∀ r, grammar X F Z = some r → LengthOk n ∧ r = ⟨a, n⟩) :
    FollowsGrammar X F Z ↔ (LengthOk n → ∃ r, grammar X F Z = some r) := by
  rw [FollowsGrammar, hparse]
  cases hgram : grammar X F Z with
  | some r =>
    obtain ⟨hok, rfl⟩ := hg r hgram
    exact iff_of_true (by rw [checkLength_of_ok hok]) fun _ => ⟨_, rfl⟩
  | none =>
    dsimp only
    by_cases hok : LengthOk n
    · rw [checkLength_of_ok hok]
      exact iff_of_false nofun fun h => by simpa using h hok
    · obtain ⟨r, hr⟩ := checkLength_of_not (a := a) hok
      rw [hr]
      exact iff_of_true ⟨r, rfl⟩ fun h => absurd h hok

/-- The option `-l`. -/
lemma follows_byLength (hX : Token X) (hZ : Token Z) :
    FollowsGrammar X (str ['-', 'l']) Z ↔ (LengthOk (u32 (atoi Z)) →
      (∃ x < 2 ^ 32, literal X = some x) ∧ ∃ n < 2 ^ 32, decimal Z = some n) := by
  have hmax : maxDataSize < 2 ^ 32 := by decide
  have hparse : parseInput (dumpLine X (str ['-', 'l']) Z)
      = .ok (checkLength (u32 (strtol 0 X)) (u32 (atoi Z))) := by
    rw [parseInput_dumpLine hX token_l hZ, if_neg (by decide), if_pos rfl]
  rw [follows_of_checkLength hparse]
  · -- the lengths agree on decimal literals, so the grammar has the request
    refine imp_congr_right fun hok => ⟨?_, ?_⟩
    · rintro ⟨r, hr⟩
      obtain ⟨x, n, hx, hx32, hn, hn256, -⟩ := grammar_byLength.mp hr
      exact ⟨⟨x, hx32, hx⟩, n, lt_of_le_of_lt hn256.2 hmax, hn⟩
    · rintro ⟨⟨x, hx32, hx⟩, n, hn32, hn⟩
      rw [u32_atoi_decimal hn hn32] at hok
      exact ⟨_, grammar_byLength.mpr ⟨x, n, hx, hx32, hn, hok, rfl⟩⟩
  · intro r hr
    obtain ⟨x, n, hx, hx32, hn, hok, rfl⟩ := grammar_byLength.mp hr
    rw [u32_strtol_literal hx hx32, u32_atoi_decimal hn (lt_of_le_of_lt hok.2 hmax)]
    exact ⟨hok, rfl⟩

/-- The difference that the parser computes for two literals in order. -/
lemma u32_sub_literal {x z : ℕ} (hx : literal X = some x) (hz : literal Z = some z) (hle : x ≤ z)
    (hz32 : z < 2 ^ 32) : u32 ((u32 (strtol 0 Z) : ℤ) - u32 (strtol 0 X)) = z - x := by
  rw [u32_strtol_literal hx (by omega), u32_strtol_literal hz hz32, ← Int.ofNat_sub hle,
    u32_natCast (by omega)]

/-- The option `-a`. -/
lemma follows_byRange (hX : Token X) (hZ : Token Z) :
    FollowsGrammar X (str ['-', 'a']) Z ↔
      (LengthOk (u32 ((u32 (strtol 0 Z) : ℤ) - u32 (strtol 0 X))) →
        ∃ x z, literal X = some x ∧ literal Z = some z ∧ x ≤ z ∧ z < 2 ^ 32) := by
  have hparse : parseInput (dumpLine X (str ['-', 'a']) Z)
      = .ok (checkLength (u32 (strtol 0 X))
          (u32 ((u32 (strtol 0 Z) : ℤ) - u32 (strtol 0 X)))) := by
    rw [parseInput_dumpLine hX token_a hZ, if_pos rfl]
  rw [follows_of_checkLength hparse]
  · refine imp_congr_right fun hok => ⟨?_, ?_⟩
    · rintro ⟨r, hr⟩
      obtain ⟨x, z, hx, hz, hz32, hle, -, -⟩ := grammar_byRange.mp hr
      exact ⟨x, z, hx, hz, hle, hz32⟩
    · rintro ⟨x, z, hx, hz, hle, hz32⟩
      rw [u32_sub_literal hx hz hle hz32] at hok
      exact ⟨_, grammar_byRange.mpr ⟨x, z, hx, hz, hz32, hle, hok, rfl⟩⟩
  · intro r hr
    obtain ⟨x, z, hx, hz, hz32, hle, hok, rfl⟩ := grammar_byRange.mp hr
    rw [u32_sub_literal hx hz hle hz32, u32_strtol_literal hx (by omega)]
    exact ⟨hok, rfl⟩

/-- **When the parser follows the grammar.**  On a line `d -a X F Z` of five tokens it does exactly
if the tokens are whole numbers wherever their first characters would do. -/
theorem follows_grammar_iff (hX : Token X) (hF : Token F) (hZ : Token Z) :
    FollowsGrammar X F Z ↔ WholeNumbers X F Z := by
  by_cases hl : F = str ['-', 'l']
  · subst hl
    rw [follows_byLength hX hZ]
    constructor
    · exact fun h => ⟨fun _ => h, fun ha => absurd ha (by decide)⟩
    · exact fun h => h.byLength rfl
  · by_cases ha : F = str ['-', 'a']
    · subst ha
      rw [follows_byRange hX hZ]
      constructor
      · exact fun h => ⟨fun hl => absurd hl (by decide), fun _ => h⟩
      · exact fun h => h.byRange rfl
    · -- neither option: the line is turned down, and the grammar does not have it
      refine iff_of_true ?_ ⟨fun h => absurd h hl, fun h => absurd h ha⟩
      have hnone : grammar X F Z = none := by rw [grammar, if_neg hl, if_neg ha]
      rw [FollowsGrammar, hnone, parseInput_dumpLine hX hF hZ, if_neg ha, if_neg hl]
      exact ⟨_, rfl⟩

end Follows

/-- The command `d -a 0x1000 -l 16`. -/
theorem follows_grammar_sixteen :
    FollowsGrammar (str ['0', 'x', '1', '0', '0', '0']) (str ['-', 'l']) (str ['1', '6']) ∧
      grammar (str ['0', 'x', '1', '0', '0', '0']) (str ['-', 'l']) (str ['1', '6'])
        = some ⟨4096, 16⟩ := by
  have hX : Token (str ['0', 'x', '1', '0', '0', '0']) := ⟨by decide, by decide⟩
  have hZ : Token (str ['1', '6']) := ⟨by decide, by decide⟩
  rw [follows_grammar_iff hX token_l hZ]
  refine ⟨⟨?_, ?_⟩, by decide +kernel⟩
  · intro _ _
    exact ⟨⟨4096, by norm_num, by decide +kernel⟩, 16, by norm_num, by decide +kernel⟩
  · exact fun h => absurd h (by decide)

/-- Three commands that the grammar does not have and the parser accepts: `d -a 5x -l 1` with
something behind a number, `d -a 4294967296 -l 1` with a number of 33 bits, and
`d -a 0xffffffff -a 0` with a range that runs backwards. -/
theorem grammar_not_followed :
    (Token (str ['5', 'x']) ∧ Token (str ['-', 'l']) ∧ Token (str ['1']) ∧
      grammar (str ['5', 'x']) (str ['-', 'l']) (str ['1']) = none ∧
      parseInput (dumpLine (str ['5', 'x']) (str ['-', 'l']) (str ['1']))
        = .ok (.memDump, ⟨5, 1⟩) ∧
      ¬ FollowsGrammar (str ['5', 'x']) (str ['-', 'l']) (str ['1'])) ∧
    parseInput (dumpLine (str ['4', '2', '9', '4', '9', '6', '7', '2', '9', '6']) (str ['-', 'l'])
      (str ['1'])) = .ok (.memDump, ⟨0, 1⟩) ∧
    parseInput (dumpLine (str ['0', 'x', 'f', 'f', 'f', 'f', 'f', 'f', 'f', 'f']) (str ['-', 'a'])
      (str ['0'])) = .ok (.memDump, ⟨0xffffffff, 1⟩) := by
  have hparse : parseInput (dumpLine (str ['5', 'x']) (str ['-', 'l']) (str ['1']))
      = .ok (.memDump, ⟨5, 1⟩) := by
    decide +kernel
  have hnone : grammar (str ['5', 'x']) (str ['-', 'l']) (str ['1']) = none := by decide +kernel
  refine ⟨⟨⟨by decide, by decide⟩, token_l, ⟨by decide, by decide⟩, hnone, hparse, ?_⟩,
    by decide +kernel, by decide +kernel⟩
  rw [FollowsGrammar, hnone, hparse]
  nofun

/-! ## The two forms of a command -/

section Forms

variable {s : List UInt8} {v : ℕ}

lemma token_of_digitString {base : ℕ} (h : digitString base s = some v) : Token s := by
  obtain ⟨hne, hall, -⟩ := digitString_eq_some_iff.mp h
  refine ⟨hne, fun hspace => ?_⟩
  have hdigit := hall _ hspace
  have hnone : digitVal (ch ' ') = none := by decide
  simp [isDigit, hnone] at hdigit

/-- A literal is a token. -/
lemma token_of_literal (h : literal s = some v) : Token s := by
  rw [literal] at h
  split_ifs at h with h0 hx
  · -- behind the prefix `0x` there are only digits
    have hdigits := token_of_digitString h
    match s with
    | [] => cases h0
    | [c] => exact absurd rfl hdigits.ne_nil
    | c :: d :: ds =>
      simp only [List.head?_cons, List.tail_cons, Option.some.injEq] at h0 hx
      refine ⟨nofun, fun hspace => ?_⟩
      rcases List.mem_cons.mp hspace with hc | hspace
      · rw [h0] at hc
        exact absurd hc (by decide)
      · rcases List.mem_cons.mp hspace with hd | hspace
        · rw [← hd] at hx
          exact absurd hx (by decide)
        · exact hdigits.space_notMem hspace
  · exact token_of_digitString h
  · exact token_of_digitString h

/-- **The two forms agree.**  For literals of two addresses in order and a decimal literal of their
difference, the range and the length give the same result. -/
theorem forms_agree {x y N : List UInt8} {X Y : ℕ} (hx : literal x = some X)
    (hy : literal y = some Y) (hlt : X < Y) (hY : Y < 2 ^ 32) (hN : decimal N = some (Y - X)) :
    ∃ r, parseInput (dumpLine x (str ['-', 'a']) y) = .ok r ∧
      parseInput (dumpLine x (str ['-', 'l']) N) = .ok r := by
  -- both forms check the length `Y - X` for the address `X`
  refine ⟨checkLength X (Y - X), ?_, ?_⟩
  · rw [parseInput_dumpLine (token_of_literal hx) token_a (token_of_literal hy), if_pos rfl,
      u32_sub_literal hx hy hlt.le hY, u32_strtol_literal hx (by omega)]
  · rw [parseInput_dumpLine (token_of_literal hx) token_l (token_of_digitString hN),
      if_neg (by decide), if_pos rfl, u32_atoi_decimal hN (by omega),
      u32_strtol_literal hx (by omega)]

end Forms

/-- The commands `d -a 4096 -a 0x1010` and `d -a 4096 -l 16`. -/
theorem forms_agree_sixteen :
    ∃ r, parseInput (dumpLine (str ['4', '0', '9', '6']) (str ['-', 'a'])
        (str ['0', 'x', '1', '0', '1', '0'])) = .ok r ∧
      parseInput (dumpLine (str ['4', '0', '9', '6']) (str ['-', 'l']) (str ['1', '6'])) = .ok r :=
  forms_agree (X := 4096) (Y := 4112) (by decide +kernel) (by decide +kernel) (by decide)
    (by decide) (by decide +kernel)

end Client
end DeepForensics
