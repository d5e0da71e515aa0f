/-
# The loop of the client

The loop of `main` in `client_dir/client.c`, from a line that has been read to the buffer that
is printed.  A dump command is sent, the buffer is cleared, and one `recv` fills it; of what this
`recv` returns only the value `-1` is looked at.  So the buffers hold the replies exactly when
every `recv` returns all the bytes asked for.

A round has two halves, up to `send` and from `recv` on: what the rest of the system does with the
bytes that are sent happens between them.
-/
import DeepForensics.Client.Parse

namespace DeepForensics
namespace Client

open Wire Runs

/-- A call of `print_mem`: the request and the buffer. -/
structure Printed where
  request : Request
  buffer : List UInt8
deriving DecidableEq, Repr

/-- `failing_function`. -/
inductive FailingFunction where
  | send | recv
deriving DecidableEq, Repr

/-- Where the loop stands: it runs, `exit` was typed, or the jump to `failure` was taken. -/
inductive Status where
  | running
  | left
  | failure (failingFunction : FailingFunction)
deriving DecidableEq, Repr

/-- The client between two rounds of its loop. -/
structure State where
  /-- The bytes of the server that have not been received. -/
  incoming : List UInt8
  /-- The bytes sent. -/
  outgoing : List UInt8
  /-- The calls of `print_mem`. -/
  screen : List Printed
  status : Status
deriving DecidableEq, Repr

/-- A round of the loop: the line typed, whether `send` succeeds, and what `recv` returns, `none`
for `-1`. -/
structure Turn where
  line : List UInt8
  send : Bool
  recv : Option ℕ

/-- The bytes of `parsed_request`. -/
def parsedRequest (r : Request) : List UInt8 := le32 r.startingAddress ++ le32 r.length

@[simp] lemma parsedRequest_length (r : Request) : (parsedRequest r).length = 8 := rfl

/-- The cleared buffer after `recv` has stored the first `count` bytes that come in. -/
def recvBuffer (count : ℕ) (incoming : List UInt8) : List UInt8 :=
  incoming.take count ++ List.replicate (maxDataSize - (incoming.take count).length) 0

/-- `send(sockfd, parsed_request, …)`. -/
def State.sendRequest (s : State) (r : Request) : State :=
  { s with outgoing := s.outgoing ++ parsedRequest r }

/-- `recv(sockfd, buffer, request.length, 0)` that returns `count`, and `print_mem`. -/
def State.recvReply (s : State) (r : Request) (count : ℕ) : State :=
  { s with
    incoming := s.incoming.drop count
    screen := s.screen ++ [⟨r, recvBuffer count s.incoming⟩] }

/-- A round of the loop up to `send`: the client, and the request that it goes on to receive the
reply to. -/
def issue (s : State) (line : List UInt8) (send : Bool) : Except Fault (State × Option Request) :=
  if s.status = .running then do
    let r ← parseInput line
    match r.1 with
    | .invalidInput => .ok (s, none)
    | .exit => .ok ({ s with status := .left }, none)
    | .memDump =>
      if send then .ok (s.sendRequest r.2, some r.2)
      else .ok ({ s with status := .failure .send }, none)
  else .ok (s, none)

/-- A round of the loop from `recv` on. -/
def State.complete (s : State) (request : Option Request) (recv : Option ℕ) : State :=
  match request, recv with
  | none, _ => s
  | some _, none => { s with status := .failure .recv }
  | some r, some count => s.recvReply r count

/-- A round of the loop. -/
def iteration (s : State) (t : Turn) : Except Fault State :=
  (issue s t.line t.send).map fun p => p.1.complete p.2 t.recv

/-- The client that has sent nothing, with the bytes that will come in. -/
def connected (incoming : List UInt8) : State := ⟨incoming, [], [], .running⟩

/-! ## A session of dump commands -/

/-- The round issues the request `r`, and its `recv` returns between one and all of the bytes
asked for. -/
def Issues (t : Turn) (r : Request) : Prop :=
  parseInput t.line = .ok (.memDump, r) ∧ t.send = true ∧
    ∃ count, t.recv = some count ∧ 1 ≤ count ∧ count ≤ r.length

/-- The buffer of the round holds `reply`. -/
def Shows (p : Printed) (reply : List UInt8) : Prop := p.buffer.take reply.length = reply

/-- A dump command is sent. -/
lemma issue_memDump {s : State} (hs : s.status = .running) {line : List UInt8} {r : Request}
    (hp : parseInput line = .ok (.memDump, r)) :
    issue s line true = .ok (s.sendRequest r, some r) := by
  rw [issue, if_pos hs, hp]
  rfl

lemma iteration_issues {s : State} (hs : s.status = .running) {t : Turn} {r : Request}
    {count : ℕ} (hp : parseInput t.line = .ok (.memDump, r)) (hsend : t.send = true)
    (hrecv : t.recv = some count) :
    iteration s t = .ok ((s.sendRequest r).recvReply r count) := by
  rw [iteration, hsend, issue_memDump hs hp, hrecv]
  rfl

/-- The calls of `print_mem` of a session: every round takes its bytes from the stream. -/
def shown : List Turn → List Request → List UInt8 → List Printed
  | t :: ts, r :: rs, incoming =>
    ⟨r, recvBuffer (t.recv.getD 0) incoming⟩ :: shown ts rs (incoming.drop (t.recv.getD 0))
  | _, _, _ => []

lemma exec_iteration {ts : List Turn} {rs : List Request} (h : List.Forall₂ Issues ts rs) :
    ∀ {s : State}, s.status = .running → ∃ s', exec iteration s ts = .ok s' ∧
      s'.screen = s.screen ++ shown ts rs s.incoming := by
  induction h with
  | nil =>
    intro s _
    exact ⟨s, rfl, by simp [shown]⟩
  | @cons t r ts rs ht _ ih =>
    intro s hs
    obtain ⟨hp, hsend, count, hrecv, -⟩ := ht
    obtain ⟨s', he, hscreen⟩ := ih (s := (s.sendRequest r).recvReply r count) hs
    refine ⟨s', by rw [exec_cons_ok (iteration_issues hs hp hsend hrecv), he], ?_⟩
    rw [hscreen]
    simp [State.sendRequest, State.recvReply, shown, hrecv]

lemma take_recvBuffer {count : ℕ} {incoming : List UInt8} (hc : count ≤ incoming.length) :
    (recvBuffer count incoming).take count = incoming.take count :=
  List.take_left' (by rw [List.length_take]; omega)

/-- Full counts show the replies. -/
lemma shows_of_full {ts : List Turn} {rs : List Request}
    (h : List.Forall₂ (fun t r => t.recv = some r.length) ts rs) :
    ∀ {replies : List (List UInt8)},
      List.Forall₂ (fun R r => R.length = r.length) replies rs →
      List.Forall₂ Shows (shown ts rs replies.flatten) replies := by
  induction h with
  | nil =>
    intro replies hr
    cases hr
    exact List.Forall₂.nil
  | @cons t r ts rs ht _ ih =>
    intro replies hr
    cases hr with
    | @cons R _ replies _ hR hrest =>
      -- the first count takes the first reply off the stream and leaves the others
      have hle : R.length ≤ (R ++ replies.flatten).length := by
        rw [List.length_append]
        omega
      rw [List.flatten_cons, shown, ht, Option.getD_some, ← hR]
      refine List.Forall₂.cons ?_ ?_
      · rw [Shows, take_recvBuffer hle, List.take_left]
      · rw [List.drop_left]
        exact ih hrest

/-- In a stream of ones, a buffer that shows its reply has had a full count: what was not received
is zero. -/
lemma full_of_ones {count n L : ℕ} (hn : n ≤ maxDataSize) (hc : count ≤ n)
    (h : (recvBuffer count (List.replicate L 1)).take n = List.replicate n 1) : count = n := by
  by_contra hne
  have hlt : count < n := by omega
  have hlen : (List.take count (List.replicate L (1 : UInt8))).length ≤ count := by simp
  have hget := congrArg (fun l => l[count]?) h
  simp only [recvBuffer] at hget
  rw [List.getElem?_take_of_lt hlt, List.getElem?_append_right hlen,
    List.getElem?_replicate_of_lt hlt, List.getElem?_replicate_of_lt (by omega)] at hget
  exact absurd (Option.some.inj hget) (by decide)

/-- A stream of ones tells the counts of all rounds. -/
lemma full_of_shows {ts : List Turn} {rs : List Request} (h : List.Forall₂ Issues ts rs) :
    ∀ {L : ℕ}, List.Forall₂ Shows (shown ts rs (List.replicate L 1))
        (rs.map fun r => List.replicate r.length 1) →
      List.Forall₂ (fun t r => t.recv = some r.length) ts rs := by
  induction h with
  | nil =>
    intro L _
    exact List.Forall₂.nil
  | @cons t r ts rs ht _ ih =>
    intro L hs
    obtain ⟨hp, -, count, hrecv, -, hle⟩ := ht
    rw [List.map_cons, shown, hrecv, Option.getD_some] at hs
    cases hs with
    | cons hhead hrest =>
      rw [Shows, List.length_replicate] at hhead
      have hfull := full_of_ones (parseInput_memDump hp).2.2 hle hhead
      rw [List.drop_replicate] at hrest
      exact List.Forall₂.cons (by rw [hrecv, hfull]) (ih hrest)

lemma flatten_ones (rs : List Request) :
    (rs.map fun r => List.replicate r.length (1 : UInt8)).flatten
      = List.replicate (rs.map Request.length).sum 1 := by
  induction rs with
  | nil => rfl
  | cons r rs ih => simp [ih]

/-- **Framing of the replies.**  In a session of accepted commands, whatever the replies to them
are, the buffers printed show these replies, exactly when every `recv` of the session returns all
the bytes asked for. -/
theorem client_framing_iff {ts : List Turn} {rs : List Request}
    (h : List.Forall₂ Issues ts rs) :
    (∀ replies : List (List UInt8), List.Forall₂ (fun R r => R.length = r.length) replies rs →
      ∃ s, exec iteration (connected replies.flatten) ts = .ok s ∧
        List.Forall₂ Shows s.screen replies)
      ↔ List.Forall₂ (fun t r => t.recv = some r.length) ts rs := by
  constructor
  · intro hall
    -- the replies that consist of ones are enough
    obtain ⟨s, hs, hshow⟩ := hall (rs.map fun r => List.replicate r.length 1) (by
      rw [List.forall₂_map_left_iff, List.forall₂_same]
      intro r _
      exact List.length_replicate)
    obtain ⟨s', hs', hscreen⟩ := exec_iteration h (s := connected _) rfl
    obtain rfl : s = s' := Except.ok.inj (hs.symm.trans hs')
    rw [hscreen] at hshow
    refine full_of_shows h (L := (rs.map Request.length).sum) ?_
    rw [← flatten_ones]
    exact hshow
  · intro hfull replies hlen
    obtain ⟨s, hs, hscreen⟩ := exec_iteration h (s := connected replies.flatten) rfl
    refine ⟨s, hs, ?_⟩
    rw [hscreen]
    exact shows_of_full hfull hlen

/-- `d -a 0x1000 -l 2`. -/
def dumpTwo : List UInt8 :=
  str ['d', ' ', '-', 'a', ' ', '0', 'x', '1', '0', '0', '0', ' ', '-', 'l', ' ', '2']

lemma issues_dumpTwo {count : ℕ} (h1 : 1 ≤ count) (h2 : count ≤ 2) :
    Issues ⟨dumpTwo, true, some count⟩ ⟨4096, 2⟩ := by
  have hp : parseInput dumpTwo = .ok (.memDump, ⟨4096, 2⟩) := by decide +kernel
  exact ⟨hp, rfl, count, rfl, h1, h2⟩

/-- A command for two bytes whose `recv` returns both. -/
theorem client_framing_two :
    ∃ s, exec iteration (connected [7, 8]) [⟨dumpTwo, true, some 2⟩] = .ok s ∧
      List.Forall₂ Shows s.screen [[7, 8]] :=
  (client_framing_iff
    (.cons (issues_dumpTwo (by decide) (by decide)) .nil)).mpr (.cons rfl .nil)
    [[7, 8]] (.cons rfl .nil)

/-- The same command twice, with a `recv` that returns one byte: the first buffer ends in a zero,
and the second begins with what was left of the first reply. -/
theorem client_framing_short :
    ¬ ∀ (ts : List Turn) (rs : List Request) (replies : List (List UInt8)),
      List.Forall₂ Issues ts rs → List.Forall₂ (fun R r => R.length = r.length) replies rs →
      ∃ s, exec iteration (connected replies.flatten) ts = .ok s ∧
        List.Forall₂ Shows s.screen replies := by
  intro h
  obtain ⟨s, hs, hshow⟩ := h [⟨dumpTwo, true, some 1⟩, ⟨dumpTwo, true, some 2⟩]
    [⟨4096, 2⟩, ⟨4096, 2⟩] [[7, 8], [9, 10]]
    (.cons (issues_dumpTwo (by decide) (by decide))
      (.cons (issues_dumpTwo (by decide) (by decide)) .nil))
    (.cons rfl (.cons rfl .nil))
  have hview : view (fun s : State => s.screen.map fun p => p.buffer.take 2) iteration
      (connected [7, 8, 9, 10]) [⟨dumpTwo, true, some 1⟩, ⟨dumpTwo, true, some 2⟩]
      = some [[7, 0], [8, 9]] := by
    decide +kernel
  have hbuf := obs_of_view hview hs
  -- the first buffer printed is not the first reply
  obtain ⟨p, ps, hp, -, hscreen⟩ := List.forall₂_cons_right_iff.mp hshow
  rw [hscreen, List.map_cons] at hbuf
  have h0 : p.buffer.take 2 = [7, 0] := (List.cons.inj hbuf).1
  have h1 : p.buffer.take 2 = [7, 8] := hp
  rw [h0] at h1
  exact absurd h1 (by decide)

end Client
end DeepForensics
