/-
# Closing a connection

After the peer has closed its side the server sends what is pending and calls `tcp_close`.  That
call can fail: lwIP needs memory for the FIN, and keeps the control block when it has none.
`tcp_raw_close` does not look at the result, and by then it has cleared the callbacks and freed
`es`, so that nothing is left that could try again.
-/
import DeepForensics.Server.Refine

namespace DeepForensics
namespace Server

open PtrHeap Runs Queue

/-- The close will be tried again: `es` waits in `ES_CLOSING`, and the poll callback with its
argument is installed. -/
def Retried (w : World) : Prop :=
  (∃ es, w.es = some es ∧ es.state = .closing) ∧ w.pcb.poll = true ∧ w.pcb.callbackArg = true

/-- An open control block that has neither `es` nor callbacks. -/
structure Orphaned (w : World) : Prop where
  opened : w.pcb.life = .opened
  es : w.es = none
  recv : w.pcb.recv = false
  sent : w.pcb.sent = false
  errf : w.pcb.errf = false
  poll : w.pcb.poll = false

/-- The state after the events `pre` is not half closed. -/
structure ClosingSound (pre : List Event) (w : World) : Prop where
  /-- Once the peer has closed its side, lwIP has closed the block or the close is tried again. -/
  afterFin : (∃ tcp, .fin tcp ∈ pre) → w.pcb.life ≠ .opened ∨ Retried w
  notOrphaned : ¬ Orphaned w

/-- If the event makes the server close the connection, then `tcp_close` succeeds. -/
def CloseSucceeds (w : World) : Event → Prop
  | .fin tcp => (∃ es, w.es = some es ∧ es.p = none) → tcp.close = .ok
  | .sent tcp => (∃ es, w.es = some es ∧ es.state = .closing ∧ es.p = none) → tcp.close = .ok
  | .poll tcp => (∃ es, w.es = some es ∧ es.state = .closing ∧ es.p = none) → tcp.close = .ok
  | _ => True

namespace Queue

open Conn

/-! ## After the FIN -/

/-- The peer has closed its side, or the connection is closed. -/
def Finishing (c : Conn) : Prop := c.phase = .closed ∨ ∃ bs, c.phase = .closing bs

lemma finishing_finish (c : Conn) :
    Finishing { c with phase := c.phase.finish } := by
  obtain ⟨ph, life, nlOpen, nextPtr, io⟩ := c
  cases ph with
  | accepted => exact Or.inr ⟨[], rfl⟩
  | received bs => exact Or.inr ⟨bs, rfl⟩
  | closing bs => exact Or.inr ⟨bs, rfl⟩
  | closed => exact Or.inl rfl

/-- There is no way back from closing. -/
lemma finishing_move {c c' : Conn} {e : Event} (h : Finishing c) (hm : Move c e c') :
    Finishing c' := by
  cases hm with
  | idle _ => exact h
  | take hph _ =>
    rcases hph with hph | hph
    · simp [Finishing, hph] at h
    · simp [Finishing, hph] at h
  | append hph _ => simp [Finishing, hph] at h
  | trash hph => exact Or.inr ⟨_, hph⟩
  | received _ hph => simp [Finishing, hph] at h
  | closing _ _ => exact Or.inr ⟨_, rfl⟩
  | close _ _ _ => exact Or.inl rfl
  | fail _ => exact Or.inl rfl

/-- A run in which the peer has closed its side ends in a finishing connection: the FIN makes it
finishing, and it stays so. -/
lemma finishing_of_fin {pre : List Event} (hfin : ∃ tcp, Event.fin tcp ∈ pre) :
    ∀ {c c' : Conn}, exec step c pre = .ok c' → Finishing c' := by
  induction pre with
  | nil =>
    obtain ⟨tcp, h⟩ := hfin
    exact absurd h List.not_mem_nil
  | cons e pre ih =>
    intro c c' he
    obtain ⟨c₁, h1, h2⟩ := exec_cons_inv he
    obtain ⟨tcp, hmem⟩ := hfin
    rcases List.mem_cons.mp hmem with rfl | hmem
    · have hc1 : Finishing c₁ := by
        cases h1
        exact finishing_move (finishing_finish c) (advance_move (.fin tcp) _)
      exact exec_inv (fun s e s' h hs => finishing_move h (step_move hs)) hc1 h2
    · exact ih ⟨tcp, hmem⟩ h2

/-! ## The control block -/

/-- The control block is open as long as the connection is not closed. -/
def Open (c : Conn) : Prop := c.phase ≠ .closed → c.life = .opened

/-- The control block is not open when the connection is closed. -/
def Settled (c : Conn) : Prop := c.phase = .closed → c.life ≠ .opened

lemma settled_of_live {c : Conn} (h : c.phase ≠ .closed) : Settled c :=
  fun hph => absurd hph h

lemma open_step (c : Conn) (e : Event) (c' : Conn) (h : Open c) (hs : step c e = .ok c') :
    Open c' := by
  intro hne
  cases step_move hs with
  | idle _ => exact h hne
  | take hph _ => exact h (Phase.ne_closed_of_takes hph)
  | append hph _ => exact h (by rw [hph]; nofun)
  | trash hph => exact h (by rw [hph]; nofun)
  | received _ hph => exact h (by rw [hph]; nofun)
  | closing _ hph => exact h (Phase.ne_closed_of_sends hph)
  | close _ _ _ => exact absurd rfl hne
  | fail _ => exact absurd rfl hne

lemma headPtr_eq_none_iff (bs : List Buf) : headPtr bs none = none ↔ bs = [] := by
  cases bs with
  | nil => exact iff_of_true rfl rfl
  | cons b bs => exact iff_of_false nofun nofun

/-- With nothing pending, a FIN closes the connection. -/
lemma es_idle_iff (p : Phase) : (∃ es, p.es = some es ∧ es.p = none) ↔ p.finish = .closing [] := by
  cases p with
  | accepted => exact ⟨fun _ => rfl, fun _ => ⟨_, rfl, rfl⟩⟩
  | received bs => simp [Phase.es, Phase.finish, headPtr_eq_none_iff]
  | closing bs => simp [Phase.es, Phase.finish, headPtr_eq_none_iff]
  | closed => simp [Phase.es, Phase.finish]

/-- With nothing pending in `ES_CLOSING`, every callback closes the connection. -/
lemma es_closing_iff (p : Phase) :
    (∃ es, p.es = some es ∧ es.state = .closing ∧ es.p = none) ↔ p = .closing [] := by
  cases p with
  | accepted => simp [Phase.es]
  | received bs => simp [Phase.es]
  | closing bs => simp [Phase.es, headPtr_eq_none_iff]
  | closed => simp [Phase.es]

/-- The only way into an unsettled connection is a close that fails. -/
lemma settled_advance (tcp : TcpEnv) {c : Conn} (ho : Open c) (h : Settled c) :
    Settled (advance tcp c) ↔ (c.phase = .closing [] → tcp.close = .ok) := by
  rw [advance]
  split
  next b bs hph =>
    refine iff_of_true (settled_of_live (by simp [sendIn])) fun hidle => ?_
    rw [hph] at hidle
    cases hidle
  next b bs hph =>
    refine iff_of_true (settled_of_live (by simp [sendIn])) fun hidle => ?_
    rw [hph] at hidle
    cases hidle
  next hph =>
    have hlife : c.life = .opened := ho (by simp [hph])
    constructor
    · intro hset _
      by_contra hne
      refine hset rfl ?_
      show (if tcp.close = .ok then PcbLife.closed else c.life) = _
      rw [if_neg hne, hlife]
    · intro hok _
      show (if tcp.close = .ok then PcbLife.closed else c.life) ≠ _
      rw [if_pos (hok hph)]
      decide
  next _ _ hne =>
    exact ⟨fun _ hph => absurd hph hne, fun _ => h⟩

/-- A step keeps a connection settled exactly when it does not fail to close it. -/
lemma settled_step {c c' : Conn} {e : Event} (ho : Open c) (h : Settled c)
    (hs : step c e = .ok c') : Settled c' ↔ CloseSucceeds c.toWorld e := by
  cases e with
  | recv d nl tcp =>
    -- data does not close a connection
    refine iff_of_true ?_ trivial
    cases step_move hs with
    | idle _ => exact h
    | take _ _ => nofun
    | append _ _ => nofun
    | trash _ => exact h
    | received he _ => cases he
    | closing he _ => cases he
    | close he _ _ => cases he
  | fin tcp =>
    cases hs
    have hopen : Open { c with phase := c.phase.finish } := by
      intro hne
      refine ho fun hph => hne ?_
      rw [hph]
      rfl
    have hset : Settled { c with phase := c.phase.finish } := by
      intro hfin
      refine h ?_
      cases hph : c.phase with
      | closed => rfl
      | _ =>
        simp only [hph] at hfin
        cases hfin
    exact (settled_advance tcp hopen hset).trans (imp_congr_left (es_idle_iff c.phase).symm)
  | sent tcp =>
    cases hs
    exact (settled_advance tcp ho h).trans (imp_congr_left (es_closing_iff c.phase).symm)
  | poll tcp =>
    cases hs
    exact (settled_advance tcp ho h).trans (imp_congr_left (es_closing_iff c.phase).symm)
  | err x =>
    refine iff_of_true ?_ trivial
    cases step_move hs with
    | idle _ => exact h
    | received he _ => cases he
    | closing he _ => cases he
    | close he _ _ => cases he
    | fail _ => exact fun _ => nofun

/-- A state is not half closed exactly when the connection is settled. -/
lemma closingSound_iff {pre : List Event} {c : Conn}
    (hfin : (∃ tcp, .fin tcp ∈ pre) → Finishing c) :
    ClosingSound pre c.toWorld ↔ Settled c := by
  constructor
  · rintro ⟨-, horphan⟩ hph hlife
    refine horphan ⟨hlife, ?_, ?_, ?_, ?_, ?_⟩
    all_goals simp [toWorld, Phase.pcb, Phase.es, hph]
  · intro hset
    refine ⟨fun h => ?_, ?_⟩
    · rcases hfin h with hph | ⟨bs, hph⟩
      · exact Or.inl (hset hph)
      · right
        simp [Retried, toWorld, Phase.pcb, Phase.es, hph]
    · rintro ⟨hlife, hes, -⟩
      refine hset ?_ hlife
      change c.phase.es = none at hes
      cases hph : c.phase with
      | closed => rfl
      | _ =>
        rw [hph] at hes
        cases hes

end Queue

/-- **When closing is not half done.**  In a run no state is half closed exactly when `tcp_close`
succeeds at every step that makes the server close the connection: a FIN with nothing pending, or
a callback in `ES_CLOSING` with nothing pending. -/
theorem closing_sound_iff (es : List Event) :
    (∀ pre, pre <+: es → ∀ w, exec step start pre = .ok w → ClosingSound pre w) ↔
      Along step CloseSucceeds start es := by
  -- both sides speak of the states of the queue, where being half closed is being unsettled
  have hsound : (∀ pre, pre <+: es → ∀ w, exec step start pre = .ok w → ClosingSound pre w) ↔
      ∀ pre, pre <+: es → ∀ c, exec Queue.step Queue.start pre = .ok c → Settled c := by
    have hiff : ∀ {pre c}, exec Queue.step Queue.start pre = .ok c →
        (ClosingSound pre c.toWorld ↔ Settled c) := fun hc =>
      closingSound_iff fun hfin => finishing_of_fin hfin hc
    constructor
    · intro h pre hpre c hc
      exact (hiff hc).mp (h pre hpre c.toWorld (exec_toWorld_ok hc))
    · intro h pre hpre w hw
      obtain ⟨c, hc, rfl⟩ := exec_ok hw
      exact (hiff hc).mpr (h pre hpre c hc)
  rw [hsound, ← throughout_iff_initial, along_start_iff,
    throughout_iff_along_ok (A := fun _ _ => True) (I := Open)
      (P := fun c => CloseSucceeds c.toWorld)
      (fun c e c' ho h _ hs => ⟨settled_step ho h hs, fun _ => open_step c e c' ho hs⟩)
      (fun _ => rfl) (fun h => by cases h) (along_of_forall fun _ _ => trivial)]
  -- a step that faults is the arrival of data, which closes nothing
  constructor
  · refine Along.mono fun c e h => ?_
    cases e with
    | recv d nl tcp => trivial
    | fin tcp => exact h _ rfl
    | sent tcp => exact h _ rfl
    | poll tcp => exact h _ rfl
    | err x => trivial
  · exact Along.mono fun c e h _ _ => h

/-- The answers of lwIP when there is no memory for a FIN. -/
def noMemory : TcpEnv := ⟨fun _ => 0, fun _ => .ok, .mem⟩

/-- A FIN on an idle connection, with no memory to answer it: the block stays open, without `es`
and without callbacks. -/
theorem closing_half_done :
    ∃ w, exec step start [.fin noMemory] = .ok w ∧ Orphaned w ∧
      ¬ ClosingSound [.fin noMemory] w := by
  have hview : view (fun w => (w.pcb, w.es)) step start [.fin noMemory]
      = some (⟨false, false, false, false, false, .opened⟩, none) := by
    decide +kernel
  obtain ⟨w, hw, hobs⟩ := exec_of_view hview
  have hpcb : w.pcb = ⟨false, false, false, false, false, .opened⟩ := congrArg Prod.fst hobs
  have horphan : Orphaned w := by
    constructor
    all_goals first | exact congrArg Prod.snd hobs | rw [hpcb]
  exact ⟨w, hw, horphan, fun h => h.notOrphaned horphan⟩

end Server
end DeepForensics
