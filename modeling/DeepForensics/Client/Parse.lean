/-
# The command line of the client

`split` of `client_dir/utilities.h` and `parse_input` of `client_dir/client.c`, with the
functions of the C library they call.  A C string is the list of its bytes before the
terminator; a pointer of the array `parts` is `none` when it is null, and what cannot be done
with a null pointer or behind the end of the array is a `Fault`.
-/
import DeepForensics.Lib.Run
import DeepForensics.Lib.Wire

namespace DeepForensics
namespace Client

open Wire Runs

/-- What stops the client. -/
inductive Fault where
  /-- A null token is passed to `strcmp`, `strtol` or `atoi`. -/
  | nullToken
  /-- `split` stores a token behind the end of the array. -/
  | overrun
deriving DecidableEq, Repr

/-! ## The C library -/

/-- `isspace`. -/
def isspace (c : UInt8) : Bool := (9 ≤ c && c ≤ 13) || c == 32

/-- The base of a literal without its sign, for `base = 0` from its first characters, and the
characters behind the prefix. -/
def literalBase (base : ℕ) (s : List UInt8) : ℕ × List UInt8 :=
  if base = 0 then
    if s.head? = some (ch '0') then
      if s.tail.head? = some (ch 'x') ∨ s.tail.head? = some (ch 'X') then (16, s.drop 2)
      else (8, s)
    else (10, s)
  else (base, s)

/-- The sign of a literal and what follows it. -/
def literalSign (s : List UInt8) : Bool × List UInt8 :=
  if s.head? = some (ch '-') then (true, s.tail)
  else if s.head? = some (ch '+') then (false, s.tail)
  else (false, s)

/-- `strtol(s, NULL, base)` for the bases 0 and 10; `long` has 64 bits. -/
def strtol (base : ℕ) (s : List UInt8) : ℤ :=
  let sign := literalSign (s.dropWhile isspace)
  let lit := literalBase base sign.2
  let v : ℕ := numeral lit.1 (lit.2.takeWhile (isDigit lit.1))
  if sign.1 then max (-(v : ℤ)) (-2 ^ 63) else min (v : ℤ) (2 ^ 63 - 1)

/-- `atoi`. -/
def atoi (s : List UInt8) : ℤ := int32 (u32 (strtol 10 s))

/-- `strstr(ptr, " ")`: the rest of the string from the first space on. -/
def strstr (ptr : List UInt8) : Option (List UInt8) :=
  match ptr.dropWhile (· ≠ ch ' ') with
  | [] => none
  | p => some p

/-- `strtok` with the delimiter `" "`, from what is left of the string: a token and what is left
behind it. -/
def strtok (s : List UInt8) : Option (List UInt8 × List UInt8) :=
  match s.dropWhile (· = ch ' ') with
  | [] => none
  | s => some (s.takeWhile (· ≠ ch ' '), (s.dropWhile (· ≠ ch ' ')).tail)

/-! ## `split` -/

/-- The loop of `split` that counts the spaces; every round but the last takes one character. -/
def countLoop : ℕ → List UInt8 → ℕ → ℕ
  | 0, _, counter => counter
  | fuel + 1, ptr, counter =>
    match strstr ptr with
    | none => counter
    | some p => countLoop fuel p.tail (counter + 1)

/-- The loop of `split` that stores the tokens; every round but the last takes one character. -/
def tokenLoop : ℕ → List UInt8 → ℕ → List (Option (List UInt8)) →
    Except Fault (List (Option (List UInt8)))
  | 0, _, _, parts => .ok parts
  | fuel + 1, s, i, parts =>
    match strtok s with
    | none => .ok parts
    | some (token, rest) =>
      if i < parts.length then tokenLoop fuel rest (i + 1) (parts.set i (some token))
      else .error .overrun

/-- `split(&parts, str, " ")`: the array and the value returned. -/
def split (str : List UInt8) : Except Fault (List (Option (List UInt8)) × ℕ) :=
  let counter := countLoop (str.length + 1) str 0
  (tokenLoop (str.length + 1) str 0 (List.replicate (counter + 1) none)).map
    fun parts => (parts, counter + 1)

/-! ## `parse_input` -/

/-- The strings that `parse_input` returns: `MEM_DUMP`, `EXIT` and `INVALID_INPUT`. -/
inductive Command where
  | memDump | exit | invalidInput
deriving DecidableEq, Repr

/-- `mem_dump_request`. -/
structure Request where
  startingAddress : ℕ
  length : ℕ
deriving DecidableEq, Repr

/-- `MAXDATASIZE`. -/
def maxDataSize : ℕ := 256

/-- The request as `parse_input` sets it first, both fields to `-1`. -/
def unset : Request := ⟨u32 (-1), u32 (-1)⟩

/-- A token that is passed on to a function of the C library. -/
def token (parts : List (Option (List UInt8))) (i : ℕ) : Except Fault (List UInt8) :=
  match parts.getD i none with
  | none => .error .nullToken
  | some s => .ok s

/-- The checks of a length `temp`, an unsigned variable. -/
def checkLength (startingAddress temp : ℕ) : Command × Request :=
  if temp ≤ 0 then (.invalidInput, ⟨startingAddress, u32 (-1)⟩)
  else if maxDataSize < temp then (.invalidInput, ⟨startingAddress, temp⟩)
  else (.memDump, ⟨startingAddress, temp⟩)

/-- `parse_input` on the five tokens of a dump command. -/
def parseDump (parts : List (Option (List UInt8))) : Except Fault (Command × Request) := do
  let p₁ ← token parts 1
  if p₁ = str ['-', 'a'] then do
    let p₂ ← token parts 2
    -- the test `temp < 0` of an unsigned variable never holds
    let startingAddress := u32 (strtol 0 p₂)
    let p₃ ← token parts 3
    if p₃ = str ['-', 'a'] then do
      let p₄ ← token parts 4
      .ok (checkLength startingAddress (u32 ((u32 (strtol 0 p₄) : ℤ) - startingAddress)))
    else if p₃ = str ['-', 'l'] then do
      let p₄ ← token parts 4
      .ok (checkLength startingAddress (u32 (atoi p₄)))
    else .ok (.invalidInput, ⟨startingAddress, u32 (-1)⟩)
  else .ok (.invalidInput, unset)

/-- `parse_input(request, input)`. -/
def parseInput (input : List UInt8) : Except Fault (Command × Request) := do
  let r ← split input
  let p₀ ← token r.1 0
  if p₀ = str ['d'] then
    if r.2 = 5 then parseDump r.1 else .ok (.invalidInput, unset)
  else if p₀ = str ['e', 'x', 'i', 't'] then .ok (.exit, unset)
  else .ok (.invalidInput, unset)

/-! ## Accepted requests -/

lemma checkLength_memDump {startingAddress temp : ℕ} {r : Request}
    (h : checkLength startingAddress temp = (.memDump, r)) :
    r = ⟨startingAddress, temp⟩ ∧ 1 ≤ temp ∧ temp ≤ maxDataSize := by
  unfold checkLength at h
  split_ifs at h with h1 h2
  · cases h
  · cases h
  · cases h
    exact ⟨rfl, by omega, by omega⟩

/-- **What is accepted.**  A request that `parse_input` accepts has an address of 32 bits and asks
for at least one byte and for no more than the buffer holds. -/
theorem parseInput_memDump {input : List UInt8} {r : Request}
    (h : parseInput input = .ok (.memDump, r)) :
    r.startingAddress < 2 ^ 32 ∧ 1 ≤ r.length ∧ r.length ≤ maxDataSize := by
  have hcheck : ∀ {a : ℤ} {temp : ℕ}, checkLength (u32 a) temp = (.memDump, r) →
      r.startingAddress < 2 ^ 32 ∧ 1 ≤ r.length ∧ r.length ≤ maxDataSize := by
    intro a temp h
    obtain ⟨rfl, h1, h2⟩ := checkLength_memDump h
    exact ⟨u32_lt a, h1, h2⟩
  obtain ⟨s, _, h⟩ := exists_of_bind_eq_ok h
  obtain ⟨p₀, _, h⟩ := exists_of_bind_eq_ok h
  split_ifs at h with hd h5 hexit
  · obtain ⟨p₁, _, h⟩ := exists_of_bind_eq_ok h
    split_ifs at h with ha
    · obtain ⟨p₂, _, h⟩ := exists_of_bind_eq_ok h
      obtain ⟨p₃, _, h⟩ := exists_of_bind_eq_ok h
      split_ifs at h with haa hl
      · obtain ⟨p₄, _, h⟩ := exists_of_bind_eq_ok h
        exact hcheck (Except.ok.inj h)
      · obtain ⟨p₄, _, h⟩ := exists_of_bind_eq_ok h
        exact hcheck (Except.ok.inj h)
      · cases h
    · cases h
  · cases h
  · cases h
  · cases h

example : parseInput (str ['d', ' ', '-', 'a', ' ', '0', 'x', '1', '0', '0', '0', ' ', '-', 'l',
    ' ', '1', '6']) = .ok (.memDump, ⟨4096, 16⟩) := by decide +kernel

example : parseInput (str ['d', ' ', '-', 'a', ' ', '4', '0', '9', '6', ' ', '-', 'a',
    ' ', '0', 'x', '1', '0', '1', '0']) = .ok (.memDump, ⟨4096, 16⟩) := by decide +kernel

end Client
end DeepForensics
