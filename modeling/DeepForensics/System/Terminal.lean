/-
# The terminal

The whole system as the user of the client sees it: a text goes in at the standard input, and a
text comes out at the standard output.  A round of `main` prints the prompt, reads a line, and
prints a message or the dump that the server and the kernel module have supplied.  From the text
printed one can read back the physical memory asked for, line by line; and a script of range
commands reads any readable range, however long, in pieces of at most 256 bytes.
-/
import DeepForensics.System.Session
import DeepForensics.Client.Console
import DeepForensics.Client.Readback
import DeepForensics.Client.Grammar

namespace DeepForensics
namespace System

open Wire Runs Tokens

/-! ## A round at the terminal -/

/-- What stops the client at the terminal. -/
inductive TerminalFault where
  | session (f : Fault)
  /-- The terminator of the line is written outside the buffer. -/
  | terminator
  /-- `print_mem` does not end. -/
  | endless
deriving DecidableEq, Repr

/-- The system with the standard input and output of the client. -/
structure Terminal where
  stdin : List UInt8
  stdout : List UInt8
  session : Session

/-- `printf(">>")`. -/
def prompt : List UInt8 := str ['>', '>']

/-- `printf("%s\n", command)` for an invalid command. -/
def invalidText : List UInt8 :=
  str ['i', 'n', 'v', 'a', 'l', 'i', 'd', ' ', 'i', 'n', 'p', 'u', 't', '\n']

/-- The output of calls of `print_mem`. -/
def dumpText : List Client.Printed → Except TerminalFault (List UInt8)
  | [] => .ok []
  | p :: ps =>
    match Client.printMem p.request p.buffer with
    | none => .error .endless
    | some q => (dumpText ps).map (q.text ++ ·)

/-- What a round prints behind the prompt. -/
def output (command : Client.Command) (printed : List Client.Printed) :
    Except TerminalFault (List UInt8) :=
  match command with
  | .invalidInput => .ok invalidText
  | .exit => .ok []
  | .memDump => dumpText printed

/-- A round of the loop of `main`.  The line of `t` is the one that is read. -/
def Terminal.round (m : Terminal) (t : Round) : Except TerminalFault Terminal :=
  if m.session.client.status = .running then
    let reading := Client.readLine m.stdin
    if reading.index < Client.maxDataSize then do
      let r ← (Client.parseInput reading.line).mapError fun f => .session (.client f)
      let s ← (System.round m.session { t with line := reading.line }).mapError .session
      let text ← output r.1 (s.client.screen.drop m.session.client.screen.length)
      .ok ⟨reading.rest, m.stdout ++ (prompt ++ text), s⟩
    else .error .terminator
  else .ok m

/-- The terminal after `connect`, with the text that will be typed. -/
def Terminal.opened (stdin : List UInt8) : Terminal := ⟨stdin, [], start⟩

/-! ## One line -/

/-- A line that can be typed: it fits the buffer, with its newline and the terminator. -/
structure Typeable (line : List UInt8) : Prop where
  zero : 0 ∉ line
  newline : ch '\n' ∉ line
  length : line.length ≤ 254

/-- A line that can be typed is read as it is. -/
lemma readLine_typeable {line rest : List UInt8} (h : Typeable line) (h0 : 0 ∉ rest) :
    Client.readLine (line ++ ch '\n' :: rest) = ⟨line.length, line, rest⟩ := by
  have hzero : 0 ∉ line ++ ch '\n' :: rest := by
    simpa using ⟨h.zero, by decide, h0⟩
  rcases Client.readLine_cases hzero with ⟨hnil, -⟩ | ⟨t, x, rest', heq, hread, hnl, -, hlast⟩
  · exact absurd hnil (by simp)
  · -- what is read ends neither before the newline nor behind it
    rcases List.append_eq_append_iff.mp heq with ⟨u, rfl, hu⟩ | ⟨u, rfl, hu⟩
    · cases u with
      | nil =>
        cases hu
        rw [hread, List.append_nil]
      | cons y u =>
        rw [List.cons_append, List.cons.injEq] at hu
        exact absurd (hu.1 ▸ List.mem_append_right line List.mem_cons_self) hnl
    · cases u with
      | nil =>
        cases hu
        rw [hread, List.append_nil]
      | cons y u =>
        rw [List.cons_append, List.cons.injEq] at hu
        obtain ⟨rfl, rfl⟩ := hu
        have hlen := h.length
        rw [List.length_append, List.length_cons] at hlen
        rcases hlast with hx | hlong | hend
        · exact absurd (hx ▸ List.mem_append_right t List.mem_cons_self) h.newline
        · omega
        · exact absurd hend (by simp)

/-- The text shows the memory of the request. -/
structure ShowsMemory (mem : ℕ → UInt8) (r : Client.Request) (text : List UInt8) : Prop where
  cells : ∀ row ∈ Client.readRows text, ∀ c ∈ row.hex, Client.IsCell c
  bytes : Client.readBytes (Client.readRows text) = memory mem r.startingAddress r.length
  address : ∀ i row, (Client.readRows text)[i]? = some row →
    row.address = hexPad 8 ((r.startingAddress + 8 * i) % 2 ^ 32)

/-- What a round is expected to lead to: the dump for a request, or the message. -/
def Enters (t : Round) : Option Client.Request → Prop
  | some r => Smooth t r
  | none => ∃ r, Client.parseInput t.line = .ok (.invalidInput, r)

/-- What a round is expected to print. -/
def Answers (t : Round) (text : List UInt8) : Option Client.Request → Prop
  | some r => ShowsMemory t.mem r text
  | none => text = invalidText

/-- `print_mem` shows what is in its buffer. -/
lemma dumpText_shows {mem : ℕ → UInt8} {p : Client.Printed} {r : Client.Request}
    (hl : r.length ≤ Client.maxDataSize) (hr : p.request = r)
    (hbuf : p.buffer.take r.length = memory mem r.startingAddress r.length) :
    ∃ text, dumpText [p] = .ok text ∧ ShowsMemory mem r text := by
  have hdata : r.length ≤ p.buffer.length := by
    have hlen := congrArg List.length hbuf
    rw [List.length_take, memory_length] at hlen
    omega
  have hle : r.length ≤ 2 ^ 32 - 8 := hl.trans (by decide)
  obtain ⟨q, hq, htext⟩ := Client.rowLoop_text p.buffer hle ((r.length + 7) / 8) 0
    (r.length / 8 + 2) (by omega) (by omega) (by omega)
  have hrows : Client.readRows q.text
      = (Client.printedRows r p.buffer 0 ((r.length + 7) / 8)).map Client.Row.toLine := by
    rw [htext, Client.readRows_flatMap]
  have hfaithful := Client.faithful_printedRows hdata rfl
  rw [← hrows] at hfaithful
  have hprint : Client.printMem p.request p.buffer = some q := by
    rw [hr]
    exact hq
  refine ⟨q.text, ?_, fun row h => (hfaithful.cells row h).2.1, by rw [hfaithful.bytes, hbuf],
    fun i row h => (hfaithful.address i row h).2⟩
  simp [dumpText, hprint, Except.map]

/-- A round in which nothing is sent does not reach the server. -/
lemma round_of_issue {t : Round} {s : Session} {c : Client.State}
    (h : Client.issue s.client t.line true = .ok (c, none))
    (hsent : c.outgoing = s.client.outgoing) : round s t = .ok ⟨c, s.server⟩ := by
  have hserve : serve s.server (c.outgoing.drop s.client.outgoing.length) t = .ok s.server := by
    rw [hsent, List.drop_length, serve, if_pos rfl]
  rw [round, h]
  show (serve s.server (c.outgoing.drop s.client.outgoing.length) t >>= _) = _
  rw [hserve, ok_bind]
  dsimp only
  rw [List.drop_length, List.append_nil]
  rfl

/-- An invalid line leaves the session as it is. -/
lemma round_invalid {t : Round} {r : Client.Request}
    (h : Client.parseInput t.line = .ok (.invalidInput, r)) {s : Session} (hs : Between s) :
    round s t = .ok s := by
  refine round_of_issue ?_ rfl
  rw [Client.issue, if_pos hs.running, h]
  rfl

/-- `exit` ends the loop. -/
lemma round_exit {t : Round} {r : Client.Request}
    (h : Client.parseInput t.line = .ok (.exit, r)) {s : Session} (hs : Between s) :
    round s t = .ok { s with client := { s.client with status := .left } } := by
  refine round_of_issue ?_ rfl
  rw [Client.issue, if_pos hs.running, h]
  rfl

/-- A round at the terminal on a line that can be typed. -/
lemma terminal_round {m : Terminal} {t : Round} {rest text : List UInt8} {s : Session}
    {r : Client.Command × Client.Request} (hrun : m.session.client.status = .running)
    (hstdin : m.stdin = t.line ++ ch '\n' :: rest) (hline : Typeable t.line) (h0 : 0 ∉ rest)
    (hparse : Client.parseInput t.line = .ok r) (hround : round m.session t = .ok s)
    (hout : output r.1 (s.client.screen.drop m.session.client.screen.length) = .ok text) :
    m.round t = .ok ⟨rest, m.stdout ++ (prompt ++ text), s⟩ := by
  have hindex : t.line.length < Client.maxDataSize := lt_of_le_of_lt hline.length (by decide)
  rw [Terminal.round, if_pos hrun, hstdin, readLine_typeable hline h0]
  simp only [if_pos hindex, hparse, hround]
  show output r.1 _ >>= _ = _
  rw [hout]
  rfl

/-- **One line**: what is printed answers what is typed. -/
theorem terminal_round_enters {m : Terminal} {t : Round} {q : Option Client.Request}
    (h : Enters t q) (hline : Typeable t.line) {rest : List UInt8} (h0 : 0 ∉ rest)
    (hstdin : m.stdin = t.line ++ ch '\n' :: rest) (hs : Between m.session) :
    ∃ s text, m.round t = .ok ⟨rest, m.stdout ++ (prompt ++ text), s⟩ ∧ Between s ∧
      Answers t text q := by
  cases q with
  | none =>
    obtain ⟨r, hr⟩ := h
    exact ⟨m.session, invalidText, terminal_round hs.running hstdin hline h0 hr
      (round_invalid hr hs) rfl, hs, rfl⟩
  | some r =>
    obtain ⟨s, p, hround, hbetween, -, hscreen, hreq, hbuf⟩ := round_smooth h hs
    obtain ⟨-, -, hl⟩ := Client.parseInput_memDump h.accepted
    obtain ⟨text, htext, hshows⟩ := dumpText_shows hl hreq hbuf
    refine ⟨s, text, terminal_round hs.running hstdin hline h0 h.accepted hround ?_, hbetween,
      hshows⟩
    show dumpText _ = _
    rw [hscreen, List.drop_left, htext]

/-! ## Whole sessions -/

/-- The text typed for the lines of a session. -/
def typedText (ts : List Round) : List UInt8 := ts.flatMap fun t => t.line ++ [ch '\n']

/-- `exit`. -/
def exitLine : List UInt8 := str ['e', 'x', 'i', 't']

lemma zero_notMem_typedText {ts : List Round} (h : ∀ t ∈ ts, Typeable t.line) :
    0 ∉ typedText ts := by
  rw [typedText, List.mem_flatMap]
  rintro ⟨t, ht, hmem⟩
  rcases List.mem_append.mp hmem with hmem | hmem
  · exact (h t ht).zero hmem
  · exact absurd (List.mem_singleton.mp hmem) (by decide)

lemma exec_terminal {ts : List Round} {qs : List (Option Client.Request)}
    (h : List.Forall₂ Enters ts qs) (hlines : ∀ t ∈ ts, Typeable t.line) {rest : List UInt8}
    (h0 : 0 ∉ rest) :
    ∀ {m : Terminal}, m.stdin = typedText ts ++ rest → Between m.session →
      ∃ s texts, exec Terminal.round m ts
          = .ok ⟨rest, m.stdout ++ texts.flatMap (prompt ++ ·), s⟩ ∧ Between s ∧
        List.Forall₂ (fun tq text => Answers tq.1 text tq.2) (ts.zip qs) texts := by
  induction h with
  | nil =>
    intro m hstdin hs
    refine ⟨m.session, [], ?_, hs, .nil⟩
    rw [List.flatMap_nil, List.append_nil]
    exact congrArg Except.ok (by rw [← show m.stdin = rest from hstdin])
  | @cons t q ts qs ht _ ih =>
    intro m hstdin hs
    have hsplit : m.stdin = t.line ++ ch '\n' :: (typedText ts ++ rest) := by
      rw [hstdin, typedText, List.flatMap_cons]
      simp [typedText]
    have hrest : 0 ∉ typedText ts ++ rest := by
      rw [List.mem_append, not_or]
      exact ⟨zero_notMem_typedText fun x hx => hlines x (by simp [hx]), h0⟩
    obtain ⟨s₁, text, hround, hs₁, htext⟩ :=
      terminal_round_enters ht (hlines t (by simp)) hrest hsplit hs
    obtain ⟨s, texts, hexec, hbetween, hall⟩ := ih (fun x hx => hlines x (by simp [hx]))
      (m := ⟨_, _, s₁⟩) rfl hs₁
    refine ⟨s, text :: texts, ?_, hbetween, .cons htext hall⟩
    rw [exec_cons_ok hround, hexec, List.flatMap_cons, List.append_assoc]

lemma typeable_exitLine : Typeable exitLine := ⟨by decide, by decide, by decide⟩

/-- `exit` at the terminal: nothing but the prompt is printed. -/
lemma terminal_round_exit {out rest : List UInt8} {s : Session} (hs : Between s) (h0 : 0 ∉ rest)
    (last : Round) :
    Terminal.round ⟨exitLine ++ ch '\n' :: rest, out, s⟩ last
      = .ok ⟨rest, out ++ prompt, { s with client := { s.client with status := .left } }⟩ := by
  have hr : Client.parseInput exitLine = .ok (.exit, Client.unset) := by decide +kernel
  have hround := terminal_round (m := ⟨exitLine ++ ch '\n' :: rest, out, s⟩)
    (t := { last with line := exitLine }) hs.running rfl typeable_exitLine h0 hr
    (round_exit hr hs) rfl
  rw [List.append_nil] at hround
  exact hround

/-- The command `d -a 0x… -a 0x…` for the request. -/
def rangeLine (r : Client.Request) : List UInt8 :=
  Client.dumpLine (str ['0', 'x'] ++ hexPad 8 r.startingAddress) (str ['-', 'a'])
    (str ['0', 'x'] ++ hexPad 8 (r.startingAddress + r.length))

/-- The range from `a` on, of `n` bytes, in pieces of at most 256 bytes. -/
def pieces (a n : ℕ) : List Client.Request :=
  (List.range ((n + 255) / 256)).map fun i => ⟨a + 256 * i, min 256 (n - 256 * i)⟩

lemma literal_hex {n : ℕ} (hn : n < 2 ^ 32) :
    Client.literal (str ['0', 'x'] ++ hexPad 8 n) = some n := by
  have hlen : (hexPad 8 n).length = 8 := hexPad_length (by norm_num; omega)
  have hdigits : Client.digitString 16 (hexPad 8 n) = some n := by
    refine Client.digitString_eq_some_iff.mpr ⟨?_, fun c hc => ?_, numeral_hexPad 8 n⟩
    · intro hnil
      rw [hnil] at hlen
      cases hlen
    · obtain ⟨d, hd, rfl⟩ := hexPad_mem hc
      exact isDigit_digitChar d hd
  exact hdigits

section RangeLine

variable {r : Client.Request} (hend : r.startingAddress + r.length < 2 ^ 32)
include hend

/-- The client reads the request back from its command. -/
lemma parseInput_rangeLine (hlen : Client.LengthOk r.length) :
    Client.parseInput (rangeLine r) = .ok (.memDump, r) := by
  have hx := literal_hex (show r.startingAddress < 2 ^ 32 by omega)
  have hy := literal_hex hend
  have hsub : r.startingAddress + r.length - r.startingAddress = r.length :=
    Nat.add_sub_cancel_left _ _
  rw [rangeLine, Client.parseInput_dumpLine (Client.token_of_literal hx) Client.token_a
    (Client.token_of_literal hy), if_pos rfl, Client.u32_sub_literal hx hy (Nat.le_add_right _ _)
    hend, Client.u32_strtol_literal hx (by omega), hsub, Client.checkLength_of_ok hlen]

lemma typeable_rangeLine : Typeable (rangeLine r) := by
  have hx : (hexPad 8 r.startingAddress).length = 8 := hexPad_length (by norm_num; omega)
  have hy : (hexPad 8 (r.startingAddress + r.length)).length = 8 :=
    hexPad_length (by norm_num; omega)
  have hhex : ∀ n, ∀ c ∈ hexPad 8 n, c ≠ 0 ∧ c ≠ ch '\n' := by
    intro n c hc
    obtain ⟨d, hd, rfl⟩ := hexPad_mem hc
    exact (show ∀ d < 16, digitChar d ≠ 0 ∧ digitChar d ≠ ch '\n' by decide) d hd
  have hstr : ∀ s : List UInt8, (s.all fun c => c != 0 && c != ch '\n') = true →
      ∀ c ∈ s, c ≠ 0 ∧ c ≠ ch '\n' := by
    intro s hs c hc
    simpa using List.all_eq_true.mp hs c hc
  have hall : ∀ c ∈ rangeLine r, c ≠ 0 ∧ c ≠ ch '\n' := by
    simp only [rangeLine, Client.dumpLine, List.forall_mem_append, List.forall_mem_cons]
    exact ⟨hstr _ rfl, by decide, hstr _ rfl, by decide, ⟨hstr _ rfl, hhex _⟩, by decide,
      hstr _ rfl, by decide, hstr _ rfl, hhex _⟩
  refine ⟨fun h => (hall _ h).1 rfl, fun h => (hall _ h).2 rfl, ?_⟩
  simp only [rangeLine, Client.dumpLine, List.length_append, List.length_cons, hx, hy]
  decide

end RangeLine

lemma memory_add (mem : ℕ → UInt8) (a m n : ℕ) :
    memory mem a (m + n) = memory mem a m ++ memory mem (a + m) n := by
  rw [memory, List.range_add, List.map_append, List.map_map]
  simp [memory, Function.comp_def, Nat.add_assoc]

/-- The pieces make up the range; the induction is on the number of pieces taken. -/
lemma memory_pieces (mem : ℕ → UInt8) (a n : ℕ) :
    (pieces a n).flatMap (fun r => memory mem r.startingAddress r.length) = memory mem a n := by
  have hfront : ∀ k, ((List.range k).map fun i =>
        (⟨a + 256 * i, min 256 (n - 256 * i)⟩ : Client.Request)).flatMap
      (fun r => memory mem r.startingAddress r.length) = memory mem a (min n (256 * k)) := by
    intro k
    induction k with
    | zero => simp [memory]
    | succ k ih =>
      rw [List.range_succ, List.map_append, List.flatMap_append, ih]
      simp only [List.map_cons, List.map_nil, List.flatMap_cons, List.flatMap_nil,
        List.append_nil]
      rcases Nat.le_total n (256 * k) with hle | hle
      · have hnone : n - 256 * k = 0 := by omega
        have hsame : min n (256 * (k + 1)) = min n (256 * k) := by omega
        simp [hnone, hsame, memory]
      · have hall : min n (256 * (k + 1)) = 256 * k + min 256 (n - 256 * k) := by omega
        rw [hall, memory_add, min_eq_right hle]
  rw [pieces, hfront]
  congr 1
  omega

lemma pieces_mem {a n : ℕ} {r : Client.Request} (h : r ∈ pieces a n) :
    Client.LengthOk r.length ∧ r.startingAddress + r.length ≤ a + n := by
  obtain ⟨i, hi, rfl⟩ := List.mem_map.mp h
  rw [List.mem_range] at hi
  simp only [Client.LengthOk, Client.maxDataSize]
  omega

/-- A round with the command for the piece `r` of the memory `mem`, in surroundings in which
nothing fails. -/
structure Reads (mem : ℕ → UInt8) (t : Round) (r : Client.Request) : Prop where
  line : t.line = rangeLine r
  mem : t.mem = mem
  room : 256 ≤ 8 + t.room.length
  sndbuf : r.length ≤ t.tcp.sndbuf 0
  write : t.tcp.write 0 = .ok
  count : t.count = r.length
  later : ∀ e ∈ t.later, ∃ tcp, e = .sent tcp ∨ e = .poll tcp

/-- The script that reads the range from `a` on, of `n` bytes. -/
def script (a n : ℕ) : List UInt8 :=
  ((pieces a n).flatMap fun r => rangeLine r ++ [ch '\n']) ++ (exitLine ++ [ch '\n'])

section Script

variable {mem : ℕ → UInt8} {ts : List Round} {rs : List Client.Request}

lemma typedText_reads (h : List.Forall₂ (Reads mem) ts rs) :
    typedText ts = rs.flatMap fun r => rangeLine r ++ [ch '\n'] := by
  induction h with
  | nil => rfl
  | cons ht _ ih =>
    rw [typedText, List.flatMap_cons, List.flatMap_cons, ht.line]
    exact congrArg _ ih

lemma answers_reads (h : List.Forall₂ (Reads mem) ts rs) :
    ∀ {texts}, List.Forall₂ (fun tq text => Answers tq.1 text tq.2) (ts.zip (rs.map some)) texts →
      texts.flatMap (fun text => Client.readBytes (Client.readRows text))
          = rs.flatMap (fun r => memory mem r.startingAddress r.length) ∧
        ∀ text ∈ texts, ∀ row ∈ Client.readRows text, ∀ c ∈ row.hex, Client.IsCell c := by
  induction h with
  | nil =>
    intro texts htexts
    cases htexts
    exact ⟨rfl, nofun⟩
  | cons ht _ ih =>
    intro texts htexts
    obtain ⟨text, texts, hhead, htail, rfl⟩ := List.forall₂_cons_left_iff.mp htexts
    have hbytes := ShowsMemory.bytes hhead
    obtain ⟨ihbytes, ihcells⟩ := ih htail
    rw [ht.mem] at hbytes
    rw [List.flatMap_cons, List.flatMap_cons, hbytes, ihbytes]
    exact ⟨rfl, List.forall_mem_cons.mpr ⟨ShowsMemory.cells hhead, ihcells⟩⟩

/-- **A script reads any range.**  The text of range commands of at most 256 bytes each, typed at
the terminal in surroundings in which nothing fails, makes the system print a text from which the
whole range can be read back, byte for byte, as long as the range ends before the last readable
address. -/
theorem script_reads {a n : ℕ} (hend : (a + n : ℤ) ≤ Kernel.lastReadableAddress)
    (h : List.Forall₂ (Reads mem) ts (pieces a n)) (last : Round) :
    ∃ (m : Terminal) (texts : List (List UInt8)),
      exec Terminal.round (Terminal.opened (script a n)) (ts ++ [last]) = .ok m ∧
      m.stdout = texts.flatMap (prompt ++ ·) ++ prompt ∧ m.session.client.status = .left ∧
      texts.flatMap (fun text => Client.readBytes (Client.readRows text)) = memory mem a n ∧
      ∀ text ∈ texts, ∀ row ∈ Client.readRows text, ∀ c ∈ row.hex, Client.IsCell c := by
  have hpiece : ∀ r ∈ pieces a n, Client.LengthOk r.length ∧
      (r.startingAddress + r.length : ℤ) ≤ Kernel.lastReadableAddress ∧
      r.startingAddress + r.length < 2 ^ 32 := by
    intro r hr
    obtain ⟨hlen, hle⟩ := pieces_mem hr
    unfold Kernel.lastReadableAddress at hend ⊢
    exact ⟨hlen, by omega, by omega⟩
  have hboth := ((List.forall₂_and_left _ _).mpr ⟨hpiece, h.flip⟩).flip
  have henters : List.Forall₂ Enters ts ((pieces a n).map some) := by
    rw [List.forall₂_map_right_iff]
    refine hboth.imp ?_
    rintro t r ⟨⟨hlen, hread, h32⟩, ht⟩
    exact ⟨by rw [ht.line, parseInput_rangeLine h32 hlen], hread, ht.room, ht.sndbuf, ht.write,
      ht.count, ht.later⟩
  have hlines : ∀ t ∈ ts, Typeable t.line := by
    have hline : List.Forall₂ (fun t r => Typeable t.line ∧ Reads mem t r) ts (pieces a n) := by
      refine hboth.imp ?_
      rintro t r ⟨⟨-, -, h32⟩, ht⟩
      exact ⟨by rw [ht.line]; exact typeable_rangeLine h32, ht⟩
    exact ((List.forall₂_and_left _ _).mp hline).1
  have hzero : 0 ∉ exitLine ++ [ch '\n'] := by decide
  obtain ⟨s, texts, hexec, hs, hall⟩ := exec_terminal henters hlines hzero
    (m := Terminal.opened (script a n)) (by rw [typedText_reads h]; rfl) between_start
  refine ⟨_, texts, (exec_concat hexec last).trans (terminal_round_exit hs (by simp) last), rfl,
    rfl, ?_⟩
  obtain ⟨hbytes, hcells⟩ := answers_reads h hall
  exact ⟨by rw [hbytes, memory_pieces], hcells⟩

end Script

/-- A round with the command for `r`, in surroundings in which nothing fails. -/
def calmRound (mem : ℕ → UInt8) (r : Client.Request) : Round where
  line := rangeLine r
  mem := mem
  room := List.replicate 248 0
  behind := []
  tcp := Server.roomy 1000
  later := []
  count := r.length

/-- 300 bytes are read in two pieces. -/
theorem script_reads_threeHundred :
    ∃ (m : Terminal) (texts : List (List UInt8)),
      exec Terminal.round (Terminal.opened (script 4096 300))
        ([calmRound (fun a => UInt8.ofNat a) ⟨4096, 256⟩,
          calmRound (fun a => UInt8.ofNat a) ⟨4352, 44⟩] ++ [byLength]) = .ok m ∧
      m.stdout = texts.flatMap (prompt ++ ·) ++ prompt ∧ m.session.client.status = .left ∧
      texts.flatMap (fun text => Client.readBytes (Client.readRows text))
        = memory (fun a => UInt8.ofNat a) 4096 300 ∧
      ∀ text ∈ texts, ∀ row ∈ Client.readRows text, ∀ c ∈ row.hex, Client.IsCell c := by
  have hcalm : ∀ r : Client.Request, r.length ≤ 1000 →
      Reads (fun a => UInt8.ofNat a) (calmRound (fun a => UInt8.ofNat a) r) r := fun r hr =>
    ⟨rfl, rfl, by rw [calmRound, List.length_replicate], hr, rfl, rfl, nofun⟩
  exact script_reads (by decide) (.cons (hcalm _ (by decide)) (.cons (hcalm _ (by decide)) .nil))
    byLength

end System
end DeepForensics
