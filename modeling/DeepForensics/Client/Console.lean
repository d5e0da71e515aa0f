/-
# The lines that are typed

The loop of `main` in `client_dir/client.c` from the standard input on.  A round clears the
buffer, reads into it with `fgets`, and writes a zero over the last character of the string that is
then there, without looking at what `fgets` returned.  For a line that fits the buffer this
character is the newline.  A longer line is cut, and the last character of every piece is lost; a
last line without a newline is shortened; and at the end of the input the string is empty and the
zero is written before the buffer.
-/
import DeepForensics.Client.Main
import DeepForensics.Lib.Tokens

namespace DeepForensics
namespace Client

open Wire Runs Tokens

/-! ## A round of the loop -/

/-- The loop of `fgets`: at most `n` characters, up to a newline or the end of the input.  The
characters stored, and what is left of the input. -/
def fgetsLoop : ℕ → List UInt8 → List UInt8 × List UInt8
  | 0, s => ([], s)
  | _ + 1, [] => ([], [])
  | n + 1, c :: s =>
    if c = ch '\n' then ([c], s) else (c :: (fgetsLoop n s).1, (fgetsLoop n s).2)

/-- `fgets(buffer, n, stdin)`: the buffer, which is left as it was if the input has ended, and what
is left of the input. -/
def fgets (buffer : List UInt8) (n : ℕ) (stdin : List UInt8) : List UInt8 × List UInt8 :=
  match fgetsLoop (n - 1) stdin with
  | ([], rest) => (buffer, rest)
  | (cs, rest) => (cs ++ 0 :: buffer.drop (cs.length + 1), rest)

/-- What a round does with the standard input. -/
structure Reading where
  /-- The index at which the terminator is written. -/
  index : ℕ
  /-- The string passed to `parse_input`. -/
  line : List UInt8
  /-- What is left of the input. -/
  rest : List UInt8
deriving DecidableEq, Repr

/-- `fgets(buffer, MAXDATASIZE, stdin)` into the cleared buffer, and
`buffer[strlen(buffer) - 1] = '\0'`. -/
def readLine (stdin : List UInt8) : Reading :=
  let r := fgets (List.replicate maxDataSize 0) maxDataSize stdin
  -- the difference of type `size_t` wraps around for an empty string
  let index := (strlen r.1 + (2 ^ 64 - 1)) % 2 ^ 64
  ⟨index, (r.1.set index 0).takeWhile (· ≠ 0), r.2⟩

/-- The client together with its standard input. -/
structure Console where
  stdin : List UInt8
  client : State
deriving DecidableEq, Repr

/-- What `send` and `recv` of a round return. -/
structure Answer where
  send : Bool
  recv : Option ℕ

/-- The round of `iteration` for the string that was read. -/
def Reading.turn (r : Reading) (a : Answer) : Turn := ⟨r.line, a.send, a.recv⟩

/-- A round of the loop, from the reading of the line on. -/
def Console.round (c : Console) (a : Answer) : Except Fault Console :=
  if c.client.status = .running then
    (iteration c.client ((readLine c.stdin).turn a)).map fun s => ⟨(readLine c.stdin).rest, s⟩
  else .ok c

/-- The readings of a run, up to its end or to the round that faults. -/
def readings : Console → List Answer → List Reading
  | _, [] => []
  | c, a :: as =>
    if c.client.status = .running then
      readLine c.stdin :: match c.round a with
        | .ok c' => readings c' as
        | .error _ => []
    else []

/-! ## The loop on its lines -/

/-- A round that reads a line: it fails with `iteration`, or leaves the rest of the input for the
next round. -/
lemma round_cases {c : Console} (hrun : c.client.status = .running) (a : Answer) :
    (∃ f, iteration c.client ((readLine c.stdin).turn a) = .error f ∧ c.round a = .error f) ∨
      ∃ s, iteration c.client ((readLine c.stdin).turn a) = .ok s ∧
        c.round a = .ok ⟨(readLine c.stdin).rest, s⟩ := by
  rw [Console.round, if_pos hrun]
  cases iteration c.client ((readLine c.stdin).turn a) with
  | error f => exact Or.inl ⟨f, rfl, rfl⟩
  | ok s => exact Or.inr ⟨s, rfl, rfl⟩

lemma exec_round_stopped {c : Console} (h : c.client.status ≠ .running) (as : List Answer) :
    exec Console.round c as = .ok c := by
  induction as with
  | nil => rfl
  | cons a as ih =>
    have hstep : c.round a = .ok c := by rw [Console.round, if_neg h]
    rw [exec_cons_ok hstep, ih]

/-- **The loop reads and then runs.**  A run from the standard input on is, for the client, the run
on the strings that are read. -/
theorem exec_round (c : Console) (as : List Answer) :
    (exec Console.round c as).map Console.client
      = exec iteration c.client (List.zipWith Reading.turn (readings c as) as) := by
  induction as generalizing c with
  | nil => rfl
  | cons a as ih =>
    rw [readings]
    split_ifs with hrun
    · rw [List.zipWith_cons_cons]
      rcases round_cases hrun a with ⟨f, hs, hround⟩ | ⟨s, hs, hround⟩
      · rw [exec_cons_error hs, exec_cons_error hround]
        rfl
      · rw [exec_cons_ok hs, exec_cons_ok hround, hround]
        exact ih _
    · rw [exec_round_stopped hrun]
      rfl

lemma readings_stopped {c : Console} (h : c.client.status ≠ .running) (as : List Answer) :
    readings c as = [] := by
  cases as with
  | nil => rfl
  | cons a as => rw [readings, if_neg h]

/-- The loop ends with this round: `exit` was typed, `send` or `recv` has failed, or `parse_input`
has gone astray. -/
def Reading.Ends (r : Reading) (a : Answer) : Prop :=
  match parseInput r.line with
  | .ok (.invalidInput, _) => False
  | .ok (.exit, _) => True
  | .ok (.memDump, _) => a.send = false ∨ a.recv = none
  | .error _ => True

/-- Otherwise it goes on. -/
lemma iteration_goes_on {s : State} (hs : s.status = .running) {r : Reading} {a : Answer}
    (h : ¬ r.Ends a) : ∃ s', iteration s (r.turn a) = .ok s' ∧ s'.status = .running := by
  rw [Reading.Ends] at h
  split at h
  next q hp =>
    refine ⟨s, ?_, hs⟩
    rw [iteration, issue, if_pos hs]
    show Except.map _ (parseInput r.line >>= _) = _
    rw [hp]
    rfl
  next => exact absurd trivial h
  next q hp =>
    obtain ⟨hsend, hrecv⟩ := not_or.mp h
    obtain ⟨count, hcount⟩ := Option.ne_none_iff_exists'.mp hrecv
    exact ⟨_, iteration_issues hs hp (Bool.not_eq_false _ ▸ hsend) hcount, hs⟩
  next => exact absurd trivial h

/-- A run of the loop in which there are fewer readings than rounds has ended: the induction is on
the rounds. -/
lemma ends_of_readings_lt {c : Console} (hrun : c.client.status = .running) {as : List Answer}
    (h : (readings c as).length < as.length) :
    ∃ r a, ((readings c as).zip as).getLast? = some (r, a) ∧ r.Ends a := by
  induction as generalizing c with
  | nil => exact absurd h (Nat.not_lt_zero _)
  | cons a as ih =>
    rw [readings, if_pos hrun] at h ⊢
    have hends : (∀ s, iteration c.client ((readLine c.stdin).turn a) = .ok s →
        s.status ≠ .running) → (readLine c.stdin).Ends a := by
      intro hstop
      by_contra hends
      obtain ⟨s, hs, hs'⟩ := iteration_goes_on hrun hends
      exact hstop s hs hs'
    rcases round_cases hrun a with ⟨f, hs, hround⟩ | ⟨s, hs, hround⟩
    · rw [hround]
      refine ⟨_, a, rfl, hends fun s hs' => ?_⟩
      rw [hs] at hs'
      cases hs'
    · rw [hround] at h ⊢
      dsimp only at h ⊢
      by_cases hs' : s.status = .running
      · obtain ⟨r, b, hlast, hb⟩ := ih (c := ⟨(readLine c.stdin).rest, s⟩) hs'
          (Nat.lt_of_succ_lt_succ h)
        refine ⟨r, b, ?_, hb⟩
        rw [List.zip_cons_cons, List.getLast?_cons, hlast]
        rfl
      · rw [readings_stopped (c := ⟨(readLine c.stdin).rest, s⟩) hs']
        refine ⟨_, a, rfl, hends fun s' hs'' => ?_⟩
        rw [hs] at hs''
        exact Except.ok.inj hs'' ▸ hs'

/-! ## What a reading can be -/

/-- What `fgets` stores of an input that has not ended: the characters before the first newline
and one more, which is the newline, or the last one there is room for, or the last of the input. -/
lemma fgetsLoop_cases : ∀ {n : ℕ} {s : List UInt8}, s ≠ [] → ∃ t x rest,
    s = t ++ x :: rest ∧ fgetsLoop (n + 1) s = (t ++ [x], rest) ∧ ch '\n' ∉ t ∧ t.length ≤ n ∧
      (x = ch '\n' ∨ t.length = n ∨ rest = []) := by
  intro n
  induction n with
  | zero =>
    intro s hs
    obtain ⟨c, s, rfl⟩ := List.exists_cons_of_ne_nil hs
    refine ⟨[], c, s, rfl, ?_, List.not_mem_nil, le_rfl, Or.inr (Or.inl rfl)⟩
    rw [fgetsLoop]
    split_ifs
    · rfl
    · rfl
  | succ n ih =>
    intro s hs
    obtain ⟨c, s, rfl⟩ := List.exists_cons_of_ne_nil hs
    rw [fgetsLoop]
    split_ifs with hc
    · exact ⟨[], c, s, rfl, rfl, List.not_mem_nil, Nat.zero_le _, Or.inl hc⟩
    · by_cases hnil : s = []
      · subst hnil
        exact ⟨[], c, [], rfl, rfl, List.not_mem_nil, Nat.zero_le _, Or.inr (Or.inr rfl)⟩
      · obtain ⟨t, x, rest, rfl, hloop, hnl, hlen, hlast⟩ := ih hnil
        refine ⟨c :: t, x, rest, rfl, by rw [hloop]; rfl, ?_, Nat.succ_le_succ hlen, ?_⟩
        · rw [List.mem_cons]
          rintro (h | h)
          · exact hc h.symm
          · exact hnl h
        · rcases hlast with h | h | h
          · exact Or.inl h
          · exact Or.inr (Or.inl (congrArg Nat.succ h))
          · exact Or.inr (Or.inr h)

lemma fgets_of_ne_nil {buffer stdin cs rest : List UInt8} {n : ℕ}
    (h : fgetsLoop (n - 1) stdin = (cs, rest)) (hcs : cs ≠ []) :
    fgets buffer n stdin = (cs ++ 0 :: buffer.drop (cs.length + 1), rest) := by
  rw [fgets, h]
  cases cs with
  | nil => exact absurd rfl hcs
  | cons c cs => rfl

/-- **What a round reads.**  At the end of the input the terminator is written before the buffer;
otherwise it takes the place of the last character stored. -/
lemma readLine_cases {stdin : List UInt8} (h0 : 0 ∉ stdin) :
    stdin = [] ∧ readLine stdin = ⟨2 ^ 64 - 1, [], []⟩ ∨ ∃ t x rest,
      stdin = t ++ x :: rest ∧ readLine stdin = ⟨t.length, t, rest⟩ ∧ ch '\n' ∉ t ∧
        t.length ≤ 254 ∧ (x = ch '\n' ∨ t.length = 254 ∨ rest = []) := by
  by_cases hnil : stdin = []
  · subst hnil
    left
    exact ⟨rfl, by decide +kernel⟩
  · right
    obtain ⟨t, x, rest, rfl, hloop, hnl, hlen, hlast⟩ := fgetsLoop_cases (n := 254) hnil
    refine ⟨t, x, rest, rfl, ?_, hnl, hlen, hlast⟩
    have ht : 0 ∉ t := fun h => h0 (List.mem_append_left _ h)
    have htx : 0 ∉ t ++ [x] := by
      rw [List.append_cons] at h0
      exact fun h => h0 (List.mem_append_left _ h)
    have hfgets : fgets (List.replicate maxDataSize 0) maxDataSize (t ++ x :: rest)
        = (t ++ [x] ++ 0 :: List.drop ((t ++ [x]).length + 1) (List.replicate maxDataSize 0),
          rest) := fgets_of_ne_nil hloop (by simp)
    have hindex : (strlen (t ++ [x] ++ 0 :: List.drop ((t ++ [x]).length + 1)
        (List.replicate maxDataSize 0)) + (2 ^ 64 - 1)) % 2 ^ 64 = t.length := by
      rw [strlen_string htx, List.length_append, List.length_singleton]
      omega
    rw [readLine, hfgets]
    dsimp only
    rw [hindex, List.append_assoc, List.singleton_append, List.set_append_right _ _ le_rfl,
      Nat.sub_self, List.set_cons_zero, takeWhile_string ht]

/-! ## Intact lines -/

/-- The readings of a run keep the lines of the input intact: every terminator is written inside
the buffer, and the strings passed to `parse_input` are the lines of the input, as many of them as
there were rounds. -/
structure Intact (stdin : List UInt8) (rs : List Reading) : Prop where
  index : ∀ r ∈ rs, r.index < maxDataSize
  lines : rs.map Reading.line <+: lines (ch '\n') stdin

/-- The first `n` lines of the input end with a newline and fit the buffer. -/
def LinesFit (n : ℕ) (stdin : List UInt8) : Prop :=
  n ≤ (closed (ch '\n') stdin).length ∧
    ∀ l ∈ (closed (ch '\n') stdin).take n, l.length + 2 ≤ maxDataSize

section Intact

variable {t rest stdin : List UInt8} {rs : List Reading} {n : ℕ}

/-- A line that is read as it is. -/
lemma intact_line (hnl : ch '\n' ∉ t) (hlen : t.length ≤ 254) :
    Intact (t ++ ch '\n' :: rest) (⟨t.length, t, rest⟩ :: rs) ↔ Intact rest rs := by
  have hindex : t.length < maxDataSize := lt_of_le_of_lt hlen (by decide)
  constructor
  · rintro ⟨hi, hl⟩
    rw [lines_append _ hnl, List.map_cons, List.cons_prefix_cons] at hl
    exact ⟨fun r hr => hi r (List.mem_cons_of_mem _ hr), hl.2⟩
  · rintro ⟨hi, hl⟩
    refine ⟨fun r hr => ?_, ?_⟩
    · rcases List.mem_cons.mp hr with rfl | hr
      · exact hindex
      · exact hi r hr
    · rw [lines_append _ hnl, List.map_cons, List.cons_prefix_cons]
      exact ⟨rfl, hl⟩

lemma linesFit_line (hnl : ch '\n' ∉ t) (hlen : t.length ≤ 254) :
    LinesFit (n + 1) (t ++ ch '\n' :: rest) ↔ LinesFit n rest := by
  have hfit : t.length + 2 ≤ maxDataSize := Nat.add_le_add_right hlen 2
  rw [LinesFit, LinesFit, closed_append _ hnl, List.length_cons, List.take_succ_cons,
    List.forall_mem_cons, Nat.add_le_add_iff_right]
  exact and_congr_right fun _ => and_iff_right hfit

/-- Of a line that is cut or shortened the last character read is missing. -/
lemma not_intact_cut {x : UInt8} (hnl : ch '\n' ∉ t ++ [x]) {i : ℕ} :
    ¬ Intact (t ++ x :: rest) (⟨i, t, rest⟩ :: rs) := by
  have hlong : ∃ v ls, lines (ch '\n') (t ++ x :: rest) = (t ++ [x] ++ v) :: ls := by
    rw [List.append_cons]
    rcases lines_extend (ch '\n') (by simp) hnl rest with ⟨-, hl⟩ | ⟨v, rest', -, -, hl⟩
    · exact ⟨rest, [], hl⟩
    · exact ⟨v, _, hl⟩
  obtain ⟨v, ls, hl⟩ := hlong
  rintro ⟨-, h⟩
  rw [hl, List.map_cons, List.cons_prefix_cons] at h
  have hlen := congrArg List.length h.1
  simp at hlen

/-- Such a line does not fit, or it does not end. -/
lemma not_linesFit_cut {x : UInt8} (hnl : ch '\n' ∉ t ++ [x])
    (hcut : t.length = 254 ∨ rest = []) : ¬ LinesFit (n + 1) (t ++ x :: rest) := by
  rw [List.append_cons]
  rcases lines_extend (ch '\n') (by simp) hnl rest with ⟨hc, -⟩ | ⟨v, rest', hrest, hc, -⟩
  · rintro ⟨h, -⟩
    rw [hc] at h
    exact Nat.not_succ_le_zero _ h
  · rintro ⟨-, h⟩
    rw [hc, List.take_succ_cons, List.forall_mem_cons] at h
    have ht : t.length = 254 := hcut.resolve_right (by rw [hrest]; simp)
    have hfit := h.1
    rw [List.length_append, List.length_append, ht, List.length_singleton] at hfit
    unfold maxDataSize at hfit
    omega

/-- One reading: it keeps the lines intact exactly when the first line ends and fits. -/
lemma intact_readLine_iff (h0 : 0 ∉ stdin)
    (ih : Intact (readLine stdin).rest rs ↔ LinesFit rs.length (readLine stdin).rest) :
    Intact stdin (readLine stdin :: rs) ↔ LinesFit (rs.length + 1) stdin := by
  rcases readLine_cases h0 with ⟨rfl, hread⟩ | ⟨t, x, rest, rfl, hread, hnl, hlen, hlast⟩
  · refine iff_of_false (fun h => ?_) fun h => ?_
    · have hindex := h.index _ List.mem_cons_self
      rw [hread] at hindex
      exact absurd hindex (by decide)
    · exact absurd h.1 (Nat.not_succ_le_zero _)
  · rw [hread] at ih ⊢
    by_cases hx : x = ch '\n'
    · subst hx
      rw [intact_line hnl hlen, linesFit_line hnl hlen]
      exact ih
    · have hmem : ch '\n' ∉ t ++ [x] := by simp [hnl, Ne.symm hx]
      have hcut : t.length = 254 ∨ rest = [] := hlast.resolve_left hx
      exact iff_of_false (not_intact_cut hmem) (not_linesFit_cut hmem hcut)

lemma zero_notMem_rest (h0 : 0 ∉ stdin) : 0 ∉ (readLine stdin).rest := by
  rcases readLine_cases h0 with ⟨rfl, hread⟩ | ⟨t, x, rest, rfl, hread, -⟩
  · rw [hread]
    exact h0
  · rw [hread]
    exact fun h => h0 (List.mem_append_right _ (List.mem_cons_of_mem _ h))

end Intact

/-- The induction rule for the readings of a run: a property of the input and the readings made
of it holds if a reading hands it on from what it leaves of the input. -/
theorem readings_induction {P : List UInt8 → List Reading → Prop} (hnil : ∀ s, P s [])
    (hcons : ∀ s rs, 0 ∉ s → P (readLine s).rest rs → P s (readLine s :: rs)) {c : Console}
    (h0 : 0 ∉ c.stdin) (as : List Answer) : P c.stdin (readings c as) := by
  induction as generalizing c with
  | nil => exact hnil c.stdin
  | cons a as ih =>
    rw [readings]
    split_ifs with hrun
    · refine hcons c.stdin _ h0 ?_
      rcases round_cases hrun a with ⟨f, -, hround⟩ | ⟨s, -, hround⟩
      · rw [hround]
        exact hnil _
      · rw [hround]
        exact ih (c := ⟨(readLine c.stdin).rest, s⟩) (zero_notMem_rest h0)
    · exact hnil c.stdin

/-- What is passed to `parse_input` has at most 254 characters, so that the `int` counters of
`split` never come near their limit. -/
theorem readings_length_le {c : Console} (h0 : 0 ∉ c.stdin) (as : List Answer) :
    ∀ r ∈ readings c as, r.line.length ≤ 254 := by
  refine readings_induction (P := fun _ rs => ∀ r ∈ rs, r.line.length ≤ 254) (fun _ => nofun) ?_
    h0 as
  intro s rs hs ih
  refine List.forall_mem_cons.mpr ⟨?_, ih⟩
  rcases readLine_cases hs with ⟨-, hread⟩ | ⟨t, x, rest, -, hread, -, hlen, -⟩
  · rw [hread]
    exact Nat.zero_le _
  · rw [hread]
    exact hlen

/-- **When lines are kept intact.**  In every run of the loop, whatever the input and the answers
of the network are, the terminators are written inside the buffer and the strings passed to
`parse_input` are the lines of the input, exactly if all the lines that the rounds of the run read
end with a newline and have at most 254 characters.  A loop that runs goes on to the next line after
every round, unless `exit` was typed, a call has failed or the round has faulted. -/
theorem lines_intact_iff {c : Console} (h0 : 0 ∉ c.stdin) (as : List Answer) :
    (Intact c.stdin (readings c as) ↔ LinesFit (readings c as).length c.stdin) ∧
      (c.client.status = .running → (readings c as).length < as.length →
        ∃ r a, ((readings c as).zip as).getLast? = some (r, a) ∧ r.Ends a) := by
  refine ⟨readings_induction (P := fun s rs => Intact s rs ↔ LinesFit rs.length s) ?_ ?_ h0 as,
    fun hrun => ends_of_readings_lt hrun⟩
  · exact fun s => iff_of_true ⟨nofun, List.nil_prefix⟩ ⟨Nat.zero_le _, nofun⟩
  · exact fun s rs hs ih => intact_readLine_iff hs ih

/-- A client at whose console the lines `x` and `exit` and the beginning of a third are typed. -/
def typed : Console := ⟨str ['x', '\n', 'e', 'x', 'i', 't', '\n', 'y'], connected []⟩

/-- The second line ends the loop, and the third is not read. -/
theorem lines_intact_two :
    Intact typed.stdin (readings typed (List.replicate 3 ⟨true, none⟩)) ∧
    (readings typed (List.replicate 3 ⟨true, none⟩)).map Reading.line
      = [str ['x'], str ['e', 'x', 'i', 't']] := by
  have hlength : (readings typed (List.replicate 3 ⟨true, none⟩)).length = 2 := by
    decide +kernel
  have hfit : LinesFit 2 typed.stdin := ⟨by decide, by decide⟩
  refine ⟨(lines_intact_iff (by decide) _).1.mpr ?_, by decide +kernel⟩
  rw [hlength]
  exact hfit

/-- An unfinished `exit` is passed on as `exi`, and the next round writes its terminator before the
buffer; of a line of 300 characters the first 254 are passed on, then the next 45. -/
theorem line_not_intact :
    readings ⟨str ['e', 'x', 'i', 't'], connected []⟩ (List.replicate 3 ⟨true, none⟩)
      = [⟨3, str ['e', 'x', 'i'], []⟩, ⟨2 ^ 64 - 1, [], []⟩] ∧
    (readings ⟨List.replicate 300 (ch 'x') ++ [ch '\n'], connected []⟩
        (List.replicate 2 ⟨true, none⟩)).map Reading.line
      = [List.replicate 254 (ch 'x'), List.replicate 45 (ch 'x')] ∧
    ¬ ∀ (c : Console) (as : List Answer), 0 ∉ c.stdin → Intact c.stdin (readings c as) := by
  refine ⟨by decide +kernel, by decide +kernel, fun h => ?_⟩
  have hindex := (h ⟨[], connected []⟩ [⟨true, none⟩] List.not_mem_nil).index
    ⟨2 ^ 64 - 1, [], []⟩ (by decide +kernel)
  exact absurd hindex (by decide)

end Client
end DeepForensics
