/-
# The life of a connection

The record `es` and the table of callbacks go together: a callback is installed only while
`es` exists, so that no callback meets a null or a freed argument, and the branches of the
source that guard against one are never taken.  The states of `es` only move forward, and
`tcp_raw_close` is called with nothing left to send.
-/
import DeepForensics.Server.Refine

namespace DeepForensics
namespace Server

open PtrHeap Wire Runs Queue

/-- What holds of `es` and of the callbacks between any two callbacks. -/
structure Managed (w : World) : Prop where
  /-- An installed callback has `es` as its argument, and `es` is allocated. -/
  installed : w.pcb.recv ∨ w.pcb.sent ∨ w.pcb.errf ∨ w.pcb.poll →
    w.pcb.callbackArg ∧ w.es.isSome
  /-- Before `tcp_raw_close` and `tcp_raw_error` are called `es` has not been freed; one of them has
  been called once and has freed it once when it is gone. -/
  freedOnce : w.es.isSome ∧ w.io.esFrees = 0 ∧ w.io.closes.length + w.io.errors = 0 ∨
    w.es = none ∧ w.io.esFrees = 1 ∧ w.io.closes.length + w.io.errors = 1
  /-- `ES_NONE` does not occur. -/
  state_ne_none : ∀ es, w.es = some es → es.state ≠ .none
  /-- Nothing is pending before the first data. -/
  accepted : ∀ es, w.es = some es → es.state = .accepted → es.p = none
  /-- Every call of `tcp_raw_close` was in `ES_CLOSING` with nothing pending. -/
  closes : ∀ x ∈ w.io.closes, x = (.closing, none)
  /-- `tcp_abort` is not called. -/
  aborts : w.io.aborts = 0

/-- The order of the states. -/
def EsState.rank : EsState → ℕ
  | .none => 0
  | .accepted => 1
  | .received => 2
  | .closing => 3

/-- The state only moves forward, and a freed record is not replaced. -/
def Forward (w w' : World) : Prop :=
  ∀ es', w'.es = some es' → ∃ es, w.es = some es ∧ es.state.rank ≤ es'.state.rank

namespace Queue

open Conn

/-- The counters of an abstract connection. -/
structure Tally (c : Conn) : Prop where
  live : c.phase ≠ .closed → c.io.esFrees = 0 ∧ c.io.closes.length + c.io.errors = 0
  dead : c.phase = .closed → c.io.esFrees = 1 ∧ c.io.closes.length + c.io.errors = 1
  closes : ∀ x ∈ c.io.closes, x = (.closing, none)
  aborts : c.io.aborts = 0

lemma tally_start : Tally start :=
  ⟨fun _ => ⟨rfl, rfl⟩, nofun, nofun, rfl⟩

/-- A step that keeps the counters keeps the tally, as long as both phases are live. -/
lemma Tally.of_live {c c' : Conn} (h : Tally c) (hc : c.phase ≠ .closed)
    (hc' : c'.phase ≠ .closed) (hio : c'.io.esFrees = c.io.esFrees ∧
      c'.io.closes = c.io.closes ∧ c'.io.errors = c.io.errors ∧ c'.io.aborts = c.io.aborts) :
    Tally c' := by
  obtain ⟨h1, h2, h3, h4⟩ := hio
  refine ⟨fun _ => ?_, fun hcl => absurd hcl hc', ?_, ?_⟩
  · rw [h1, h2, h3]
    exact h.live hc
  · rw [h2]
    exact h.closes
  · rw [h4]
    exact h.aborts

lemma tally_step (c : Conn) (e : Event) (c' : Conn) (h : Tally c) (hs : step c e = .ok c') :
    Tally c' := by
  cases step_move hs with
  | idle _ => exact h
  | take hph _ =>
    exact h.of_live (Phase.ne_closed_of_takes hph) (by simp [sendIn]) ⟨rfl, rfl, rfl, rfl⟩
  | append hph _ => exact h.of_live (by simp [hph]) (by simp) ⟨rfl, rfl, rfl, rfl⟩
  | trash hph =>
    refine h.of_live (by simp [hph]) ?_ ⟨rfl, rfl, rfl, rfl⟩
    simp [trash, delivered, hph]
  | received _ hph =>
    exact h.of_live (by simp [hph]) (by simp [sendIn]) ⟨rfl, rfl, rfl, rfl⟩
  | closing _ hph =>
    exact h.of_live (Phase.ne_closed_of_sends hph) (by simp [sendIn]) ⟨rfl, rfl, rfl, rfl⟩
  | close _ hph _ =>
    obtain ⟨h1, h2⟩ := h.live hph
    refine ⟨fun hn => absurd rfl hn, fun _ => ⟨?_, ?_⟩, ?_, h.aborts⟩
    · simp [close, h1]
    · simp only [close, List.length_append, List.length_singleton]
      omega
    · intro x hx
      rcases List.mem_append.mp hx with hx | hx
      · exact h.closes x hx
      · simpa using hx
  | fail hph =>
    obtain ⟨h1, h2⟩ := h.live hph
    refine ⟨fun hn => absurd rfl hn, fun _ => ⟨?_, ?_⟩, h.closes, h.aborts⟩
    · simp [fail, h1]
    · simp only [fail]
      omega

lemma Tally.managed {c : Conn} (h : Tally c) : Managed c.toWorld := by
  obtain ⟨ph, life, nlOpen, nextPtr, io⟩ := c
  cases ph with
  | accepted =>
    refine ⟨fun _ => ⟨rfl, rfl⟩, Or.inl ⟨rfl, h.live nofun⟩, ?_, ?_, h.closes, h.aborts⟩
    · rintro es ⟨⟩
      exact nofun
    · rintro es ⟨⟩ _
      rfl
  | received bs =>
    refine ⟨fun _ => ⟨rfl, rfl⟩, Or.inl ⟨rfl, h.live nofun⟩, ?_, ?_, h.closes, h.aborts⟩
    · rintro es ⟨⟩
      exact nofun
    · rintro es ⟨⟩ ⟨⟩
  | closing bs =>
    refine ⟨fun _ => ⟨rfl, rfl⟩, Or.inl ⟨rfl, h.live nofun⟩, ?_, ?_, h.closes, h.aborts⟩
    · rintro es ⟨⟩
      exact nofun
    · rintro es ⟨⟩ ⟨⟩
  | closed =>
    -- no callback is installed any more
    refine ⟨?_, Or.inr ⟨rfl, h.dead rfl⟩, nofun, nofun, h.closes, h.aborts⟩
    rintro (hi | hi | hi | hi) <;> cases hi

lemma forward_step {c c' : Conn} {e : Event} (hs : step c e = .ok c') :
    Forward c.toWorld c'.toWorld := by
  intro es' hes'
  cases step_move hs with
  | idle _ => exact ⟨es', hes', le_rfl⟩
  | take hph _ =>
    cases hes'
    rcases hph with hph | hph
    · exact ⟨_, congrArg Phase.es hph, by simp [EsState.rank]⟩
    · exact ⟨_, congrArg Phase.es hph, le_rfl⟩
  | append hph _ =>
    cases hes'
    exact ⟨_, congrArg Phase.es hph, le_rfl⟩
  | trash hph => exact ⟨es', hes', le_rfl⟩
  | received _ hph =>
    cases hes'
    exact ⟨_, congrArg Phase.es hph, le_rfl⟩
  | closing _ hph =>
    cases hes'
    rcases hph with hph | hph
    · exact ⟨_, congrArg Phase.es hph, by simp [EsState.rank]⟩
    · exact ⟨_, congrArg Phase.es hph, le_rfl⟩
  | close _ _ _ => cases hes'
  | fail _ => cases hes'

end Queue

/-- **The life of a connection.**  In every run, with the events in any order, every state is
managed, every step moves forward, and no callback touches `es` through a null pointer or
after it has been freed. -/
theorem lifecycle (es : List Event) :
    Throughout step Managed start es ∧
    Along step (fun w e => ∀ w', step w e = .ok w' → Forward w w') start es ∧
    ∀ f, exec step start es = .error f → f ≠ .assertArg ∧ f ≠ .nullEs ∧ f ≠ .danglingEs := by
  refine ⟨?_, ?_, ?_⟩
  · exact throughout_start_always tally_step (fun c _ h => h.managed) tally_start es
  · rw [along_start_iff]
    have hwf : Throughout Queue.step WF Queue.start es :=
      throughout_of_along (P := fun _ _ => True) (fun c e c' h _ hs => wf_step c e c' h hs)
        wf_start (along_of_forall fun _ _ => trivial)
    refine along_of_throughout (fun c e h w' hw' => ?_) hwf
    rw [step_toWorld h] at hw'
    cases hs : Queue.step c e with
    | error f => rw [hs] at hw'; cases hw'
    | ok c' =>
      rw [hs] at hw'
      cases hw'
      exact forward_step hs
  · intro f hf
    obtain ⟨pre, e, c, _, _, hs⟩ := exec_fault hf
    rcases step_fault hs with ⟨rfl, _⟩ | rfl | rfl | rfl <;> simp

end Server
end DeepForensics
