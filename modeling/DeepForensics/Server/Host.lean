/-
# Several connections

The server process as a whole: the connections that `tcp_raw_accept` has accepted, the pbufs of
all of them in one heap, and the netlink sockets that requests have left open.  lwIP calls the
callbacks of the connections in any order.

What a connection does, and what becomes of its data, depends on its own events only: a run of
the server looks to each connection like a run of that connection alone (`Isolated`).  The two
things the connections do share are the addresses of pbufs, which no callback looks at, and the
netlink sockets: one that a failed request of one connection leaves open makes the next request
of any connection exit the process.
-/
import DeepForensics.Server.Frame
import DeepForensics.Server.Erase
import DeepForensics.Server.Request

namespace DeepForensics
namespace Server

open PtrHeap Wire Runs

/-! ## The process -/

/-- What the server and lwIP keep for one connection. -/
structure Local where
  es : Option Es
  pcb : Pcb
  io : Io

/-- The server process.  Connections are numbered by their control blocks. -/
structure Host where
  heap : Heap Pbuf
  nlOpen : ℕ
  nextPtr : ℕ
  conns : ℕ → Option Local

namespace Host

/-- The state of the process as the callbacks of one connection see it. -/
def world (h : Host) (l : Local) : World := ⟨h.heap, l.es, l.pcb, h.nlOpen, h.nextPtr, l.io⟩

/-- The process after a callback of the connection `i`. -/
def put (h : Host) (i : ℕ) (w : World) : Host :=
  ⟨w.heap, w.nlOpen, w.nextPtr, Function.update h.conns i (some ⟨w.es, w.pcb, w.io⟩)⟩

end Host

/-- What lwIP calls. -/
inductive Upcall where
  /-- `tcp_raw_accept`, for a new connection. -/
  | accept (i : ℕ) (newpcb malloc : Bool) (err : ErrT)
  /-- A callback of a connection. -/
  | on (i : ℕ) (e : Event)

namespace Host

/-- One call.  A control block in use is not accepted again; a connection that `tcp_raw_accept`
refuses is dropped by lwIP; without a connection there is no callback. -/
def step (h : Host) : Upcall → Except Fault Host
  | .accept i newpcb malloc err =>
    match h.conns i with
    | some _ => .ok h
    | none =>
      let r := tcpRawAccept newpcb malloc err (h.world ⟨fresh.es, fresh.pcb, fresh.io⟩)
      if r.2 = .ok then .ok (h.put i r.1) else .ok h
  | .on i e =>
    match h.conns i with
    | none => .ok h
    | some l => (Server.step (h.world l) e).map (h.put i)

/-- The process before the first connection. -/
def boot : Host := ⟨empty, 0, 0, fun _ => none⟩

end Host

/-- The events of every accepted connection, with one more call. -/
def record (H : ℕ → Option (List Event)) : Upcall → ℕ → Option (List Event)
  | .accept i newpcb malloc err =>
    if (H i).isNone && newpcb && malloc && err == .ok then Function.update H i (some []) else H
  | .on i e => Function.update H i ((H i).map (· ++ [e]))

/-- The events of every accepted connection, in the order of a run. -/
def histories (cs : List Upcall) : ℕ → Option (List Event) := cs.foldl record fun _ => none

/-! ## The shared heap -/

namespace Queue

open Conn

/-- What the server keeps for an abstract connection. -/
def Conn.toLocal (c : Conn) : Local := ⟨c.phase.es, c.phase.pcb c.life, c.io⟩

/-- An abstract connection with the numbers of the process. -/
def Conn.within (c : Conn) (h : Host) : Conn :=
  { c with nlOpen := h.nlOpen, nextPtr := h.nextPtr }

/-- The process has the given connections, and the heap is made up of their pending chains. -/
structure Shares (h : Host) (C : ℕ → Option Conn) : Prop where
  conns : ∀ i, h.conns i = (C i).map Conn.toLocal
  fits : ∀ i c, C i = some c → Fits h.nextPtr c.phase.pending
  apart : ∀ i j c c', i ≠ j → C i = some c → C j = some c' →
    Apart (heapOf c.phase.pending) (heapOf c'.phase.pending)
  heap : ∀ a n, h.heap a = some n ↔ ∃ i c, C i = some c ∧ heapOf c.phase.pending a = some n

/-- The pbufs that do not belong to a connection. -/
def rest (h : Host) (c : Conn) : Heap Pbuf :=
  fun a => if (heapOf c.phase.pending a).isSome then none else h.heap a

lemma lt_of_heapOf {n a : ℕ} {bs : List Buf} {x : Pbuf} (hfit : Fits n bs)
    (ha : heapOf bs a = some x) : a < n := by
  have hmem := mem_of_store_empty ha
  have hptr : a ∈ bs.map Buf.ptr := nodes_map_fst bs none ▸ List.mem_map_of_mem hmem
  obtain ⟨b, hb, rfl⟩ := List.mem_map.mp hptr
  exact hfit.lt b hb

/-- A connection gets addresses, and gives none back for another use. -/
lemma nextPtr_le {c c' : Conn} {e : Event} (hs : step c e = .ok c') : c.nextPtr ≤ c'.nextPtr := by
  cases step_move hs with
  | idle _ => exact le_rfl
  | take _ _ => exact Nat.le_add_right _ _
  | append _ _ => exact Nat.le_add_right _ _
  | trash _ => exact Nat.le_add_right _ _
  | received _ _ => exact le_rfl
  | closing _ _ => exact le_rfl
  | close _ _ _ => exact le_rfl
  | fail _ => exact le_rfl

lemma update_eq_some {α : Type} {C : ℕ → Option α} {i j : ℕ} {x y : α}
    (h : Function.update C i (some x) j = some y) : j = i ∧ y = x ∨ j ≠ i ∧ C j = some y := by
  by_cases hji : j = i
  · subst hji
    rw [Function.update_self] at h
    exact Or.inl ⟨rfl, (Option.some.inj h).symm⟩
  · rw [Function.update_of_ne hji] at h
    exact Or.inr ⟨hji, h⟩

namespace Shares

variable {h : Host} {C : ℕ → Option Conn} (hsh : Shares h C) {i : ℕ} {c : Conn} (hi : C i = some c)
include hsh hi

lemma atop_rest : atop (heapOf c.phase.pending) (rest h c) = h.heap := by
  funext a
  cases ha : heapOf c.phase.pending a with
  | none => rw [atop_of_none ha, rest, ha]; rfl
  | some n => rw [atop_of_some ha, (hsh.heap a n).mpr ⟨i, c, hi, ha⟩]

omit hsh hi in
lemma apart_rest (h : Host) (c : Conn) : Apart (heapOf c.phase.pending) (rest h c) := by
  intro a n ha
  rw [rest, ha]
  rfl

omit hi in
lemma rest_of_le {a : ℕ} (ha : h.nextPtr ≤ a) : rest h c a = none := by
  rw [rest]
  split_ifs
  · rfl
  · cases hh : h.heap a with
    | none => rfl
    | some n =>
      obtain ⟨j, c', hj, hn⟩ := (hsh.heap a n).mp hh
      have := lt_of_heapOf (hsh.fits j c' hj) hn
      omega

/-- The connection sees its own chain over the pbufs of the others. -/
lemma world_eq : h.world c.toLocal = (c.within h).toWorld.atop (rest h c) := by
  rw [World.atop]
  show _ = { (c.within h).toWorld with heap := atop (heapOf c.phase.pending) (rest h c) }
  rw [hsh.atop_rest hi]
  rfl

/-- A callback of the connection `i` is a step of the abstract connection. -/
lemma step_on (e : Event) :
    h.step (.on i e)
      = (step (c.within h) e).map fun c' => h.put i (c'.toWorld.atop (rest h c)) := by
  have hwf : WF (c.within h) := hsh.fits i c hi
  have hstep := step_atop hwf (apart_rest h c) (fun a ha => hsh.rest_of_le ha) e
  rw [Host.step, hsh.conns, hi]
  show (Server.step (h.world c.toLocal) e).map (h.put i) = _
  rw [hsh.world_eq hi, hstep]
  cases step (c.within h) e <;> rfl

/-- A callback leaves the heap made up of the pending chains. -/
lemma put {e : Event} {c' : Conn} (hs : step (c.within h) e = .ok c') :
    Shares (h.put i (c'.toWorld.atop (rest h c))) (Function.update C i (some c')) := by
  have hwf : WF (c.within h) := hsh.fits i c hi
  have hwf' : WF c' := wf_step _ e _ hwf hs
  have hnext : h.nextPtr ≤ c'.nextPtr := nextPtr_le hs
  have hd' : Apart (heapOf c'.phase.pending) (rest h c) :=
    apart_step hwf (apart_rest h c) (fun a ha => hsh.rest_of_le ha) e hs
  -- the chains of the other connections are in the rest
  have hrest : ∀ j cj, j ≠ i → C j = some cj → ∀ a n, heapOf cj.phase.pending a = some n →
      rest h c a = some n := by
    intro j cj hji hj a n ha
    have hnone : heapOf c.phase.pending a = none := hsh.apart j i cj c hji hj hi a n ha
    rw [rest, hnone]
    exact (hsh.heap a n).mpr ⟨j, cj, hj, ha⟩
  have hother : ∀ j cj, j ≠ i → C j = some cj →
      Apart (heapOf c'.phase.pending) (heapOf cj.phase.pending) := by
    intro j cj hji hj a n ha
    cases hb : heapOf cj.phase.pending a with
    | none => rfl
    | some m =>
      have hsome := hrest j cj hji hj a m hb
      rw [hd' a n ha] at hsome
      cases hsome
  refine ⟨?_, ?_, ?_, ?_⟩
  · intro j
    by_cases hji : j = i
    · subst hji
      simp [Host.put, Conn.toLocal, Conn.toWorld, World.atop]
    · simp [Host.put, Function.update_of_ne hji, hsh.conns]
  · intro j cj hj
    rcases update_eq_some hj with ⟨-, rfl⟩ | ⟨-, hj⟩
    · exact hwf'
    · exact (hsh.fits j cj hj).mono hnext
  · intro j k cj ck hjk hj hk
    rcases update_eq_some hj with ⟨rfl, rfl⟩ | ⟨hji, hj'⟩
    · rcases update_eq_some hk with ⟨rfl, rfl⟩ | ⟨hki, hk'⟩
      · exact absurd rfl hjk
      · exact hother k ck hki hk'
    · rcases update_eq_some hk with ⟨rfl, rfl⟩ | ⟨hki, hk'⟩
      · exact (hother j cj hji hj').symm
      · exact hsh.apart j k cj ck hjk hj' hk'
  · intro a n
    show atop (heapOf c'.phase.pending) (rest h c) a = some n ↔ _
    constructor
    · intro ha
      cases hb : heapOf c'.phase.pending a with
      | some m =>
        rw [atop_of_some hb] at ha
        exact ⟨i, c', Function.update_self .., by rw [hb, ha]⟩
      | none =>
        -- an address of the rest belongs to one of the other connections
        rw [atop_of_none hb, rest] at ha
        split_ifs at ha with hown
        obtain ⟨j, cj, hj, hn⟩ := (hsh.heap a n).mp ha
        have hji : j ≠ i := by
          rintro rfl
          rw [hi] at hj
          cases hj
          rw [hn] at hown
          exact hown rfl
        exact ⟨j, cj, by rw [Function.update_of_ne hji, hj], hn⟩
    · rintro ⟨j, cj, hj, hn⟩
      rcases update_eq_some hj with ⟨-, rfl⟩ | ⟨hji, hj⟩
      · exact atop_of_some hn
      · have hnone : heapOf c'.phase.pending a = none := (hother j cj hji hj).symm a n hn
        rw [atop_of_none hnone]
        exact hrest j cj hji hj a n hn

omit hi in
/-- A new connection brings no pbufs. -/
lemma accept (hnone : C i = none) :
    Shares (h.put i (h.world start.toLocal)) (Function.update C i (some start)) := by
  refine ⟨?_, ?_, ?_, ?_⟩
  · intro j
    by_cases hji : j = i
    · subst hji
      simp [Host.put, Host.world, Conn.toLocal]
    · simp [Host.put, Function.update_of_ne hji, hsh.conns]
  · intro j cj hj
    rcases update_eq_some hj with ⟨-, rfl⟩ | ⟨-, hj'⟩
    · exact Fits.nil _
    · exact hsh.fits j cj hj'
  · intro j k cj ck hjk hj hk
    rcases update_eq_some hj with ⟨-, rfl⟩ | ⟨hji, hj'⟩
    · intro a n ha
      cases ha
    · rcases update_eq_some hk with ⟨-, rfl⟩ | ⟨hki, hk'⟩
      · exact fun a n ha => rfl
      · exact hsh.apart j k cj ck hjk hj' hk'
  · intro a n
    refine (hsh.heap a n).trans ⟨?_, ?_⟩
    · rintro ⟨j, cj, hj, hn⟩
      have hji : j ≠ i := by
        rintro rfl
        rw [hnone] at hj
        cases hj
      exact ⟨j, cj, by rw [Function.update_of_ne hji, hj], hn⟩
    · rintro ⟨j, cj, hj, hn⟩
      rcases update_eq_some hj with ⟨-, rfl⟩ | ⟨-, hj'⟩
      · cases hn
      · exact ⟨j, cj, hj', hn⟩

end Shares

/-! ## Runs of the process -/

/-- The connection in the process is alike to a run of the given events. -/
def RunsAlone (h : Host) (c : Conn) (es : List Event) : Prop :=
  ∃ c₀, exec step start es = .ok c₀ ∧ Alike (c.within h) c₀

/-- The connections of the process, each of them alike to a run of its own events. -/
structure Isolated (h : Host) (H : ℕ → Option (List Event)) (C : ℕ → Option Conn) : Prop where
  shares : Shares h C
  alone : ∀ i, Option.Rel (RunsAlone h) (C i) (H i)
  /-- A socket left open was left open by one of the connections. -/
  leak : h.nlOpen ≠ 0 → ∃ i es c₀, H i = some es ∧ exec step start es = .ok c₀ ∧ c₀.nlOpen ≠ 0

lemma isolated_boot : Isolated Host.boot (fun _ => none) fun _ => none := by
  refine ⟨⟨fun _ => rfl, ?_, ?_, ?_⟩, fun _ => .none, fun h => absurd rfl h⟩
  · intro i c hi
    cases hi
  · intro i j c c' _ hi
    cases hi
  · intro a n
    constructor
    · intro ha
      cases ha
    · rintro ⟨i, c, hi, -⟩
      cases hi

lemma Alike.refl (c : Conn) : Alike c c := ⟨le_rfl, rfl⟩

lemma nlOpen_le_step {c c' : Conn} {e : Event} (hs : step c e = .ok c') :
    c.nlOpen ≤ c'.nlOpen := by
  obtain ⟨c₀', hs', -, hle, -⟩ := (Alike.refl c).step_ok hs
  rw [hs] at hs'
  cases hs'
  exact hle

lemma tcpRawAccept_ok_iff {newpcb malloc : Bool} {err : ErrT} {w : World} :
    (tcpRawAccept newpcb malloc err w).2 = .ok ↔ newpcb = true ∧ malloc = true ∧ err = .ok := by
  rw [tcpRawAccept]
  by_cases herr : err = .ok
  · cases newpcb <;> cases malloc <;> simp [herr]
  · simp [herr]

/-- Change one pair of related families, and weaken the relation elsewhere. -/
lemma rel_update {α β : Type} {R S : α → β → Prop} {C : ℕ → Option α} {H : ℕ → Option β}
    (hrel : ∀ j, Option.Rel R (C j) (H j)) (hRS : ∀ a b, R a b → S a b) {i : ℕ} {a : α} {b : β}
    (hab : S a b) (j : ℕ) :
    Option.Rel S (Function.update C i (some a) j) (Function.update H i (some b) j) := by
  by_cases hji : j = i
  · subst hji
    rw [Function.update_self, Function.update_self]
    exact .some hab
  · rw [Function.update_of_ne hji, Function.update_of_ne hji]
    have hj := hrel j
    generalize C j = x at hj ⊢
    generalize H j = y at hj ⊢
    cases hj with
    | none => exact .none
    | some h => exact .some (hRS _ _ h)

/-- What other connections do does not make a difference. -/
lemma RunsAlone.mono {h h' : Host} (hle : h.nlOpen ≤ h'.nlOpen) {c : Conn} {es : List Event}
    (hr : RunsAlone h c es) : RunsAlone h' c es := by
  obtain ⟨c₀, he, ha⟩ := hr
  exact ⟨c₀, he, ha.nlOpen_le.trans hle, ha.erase_eq⟩

namespace Isolated

variable {h h' : Host} {H : ℕ → Option (List Event)} {C : ℕ → Option Conn} (hiso : Isolated h H C)
include hiso

lemma cases_on (i : ℕ) :
    (C i = none ∧ H i = none) ∨
      ∃ c es c₀, C i = some c ∧ H i = some es ∧ exec step start es = .ok c₀ ∧
        Alike (c.within h) c₀ := by
  have hrel := hiso.alone i
  generalize C i = x at hrel ⊢
  generalize H i = y at hrel ⊢
  cases hrel with
  | none => exact Or.inl ⟨rfl, rfl⟩
  | some hr =>
    obtain ⟨c₀, he, ha⟩ := hr
    exact Or.inr ⟨_, _, c₀, rfl, rfl, he, ha⟩

lemma step_on {i : ℕ} {e : Event} (hs : h.step (.on i e) = .ok h') :
    ∃ C', Isolated h' (record H (.on i e)) C' := by
  rcases hiso.cases_on i with ⟨hi, hH⟩ | ⟨c, es, c₀, hi, hH, he, ha⟩
  · have hrec : record H (.on i e) = H := by
      rw [record, hH, Option.map_none, ← hH, Function.update_eq_self]
    rw [Host.step, hiso.shares.conns, hi] at hs
    cases hs
    exact ⟨C, hrec.symm ▸ hiso⟩
  · rw [hiso.shares.step_on hi] at hs
    cases hc : step (c.within h) e with
    | error x => rw [hc] at hs; cases hs
    | ok c' =>
      rw [hc] at hs
      cases hs
      obtain ⟨c₀', hs₀, ha', hle₀, hleak⟩ := ha.step_ok hc
      have hle : h.nlOpen ≤ c'.nlOpen := nlOpen_le_step hc
      have he' : exec step start (es ++ [e]) = .ok c₀' := by rw [exec_concat he, hs₀]
      have hrec : record H (.on i e) = Function.update H i (some (es ++ [e])) := by
        rw [record, hH]
        rfl
      rw [hrec]
      refine ⟨Function.update C i (some c'), hiso.shares.put hi hc, ?_, ?_⟩
      · exact rel_update hiso.alone (fun _ _ => RunsAlone.mono hle)
          ⟨c₀', he', ha'.nlOpen_le, ha'.erase_eq⟩
      · intro hne
        by_cases h0 : c₀'.nlOpen = 0
        · obtain ⟨j, es', c₁, hj, he₁, hne₁⟩ := hiso.leak ((hleak hne).resolve_right (by simpa))
          have hji : j ≠ i := by
            rintro rfl
            rw [hH] at hj
            cases hj
            rw [he] at he₁
            cases he₁
            omega
          exact ⟨j, es', c₁, by rw [Function.update_of_ne hji, hj], he₁, hne₁⟩
        · exact ⟨i, es ++ [e], c₀', Function.update_self .., he', h0⟩

lemma step_accept {i : ℕ} {newpcb malloc : Bool} {err : ErrT}
    (hs : h.step (.accept i newpcb malloc err) = .ok h') :
    ∃ C', Isolated h' (record H (.accept i newpcb malloc err)) C' := by
  rcases hiso.cases_on i with ⟨hi, hH⟩ | ⟨c, es, c₀, hi, hH, he, ha⟩
  · by_cases hok : newpcb = true ∧ malloc = true ∧ err = .ok
    · obtain ⟨rfl, rfl, rfl⟩ := hok
      have hs' : h.put i (h.world start.toLocal) = h' := by
        rw [Host.step, hiso.shares.conns, hi] at hs
        exact Except.ok.inj hs
      have hrec : record H (.accept i true true .ok) = Function.update H i (some []) := by
        rw [record, hH]
        rfl
      rw [hrec, ← hs']
      refine ⟨Function.update C i (some start), hiso.shares.accept hi, ?_, ?_⟩
      · exact rel_update hiso.alone (fun _ _ => RunsAlone.mono le_rfl)
          ⟨start, rfl, Nat.zero_le _, rfl⟩
      · intro hne
        obtain ⟨j, es', c₁, hj, he₁, hne₁⟩ := hiso.leak hne
        have hji : j ≠ i := by
          rintro rfl
          rw [hH] at hj
          cases hj
        exact ⟨j, es', c₁, by rw [Function.update_of_ne hji, hj], he₁, hne₁⟩
    · have hs' : h = h' := by
        rw [Host.step, hiso.shares.conns, hi] at hs
        dsimp only [Option.map_none] at hs
        rw [if_neg fun hr => hok (tcpRawAccept_ok_iff.mp hr)] at hs
        exact Except.ok.inj hs
      have hrec : record H (.accept i newpcb malloc err) = H := by
        rw [record, if_neg]
        simpa [hH] using fun h1 h2 h3 => hok ⟨h1, h2, h3⟩
      exact ⟨C, hrec.symm ▸ hs' ▸ hiso⟩
  · have hs' : h = h' := by
      rw [Host.step, hiso.shares.conns, hi] at hs
      exact Except.ok.inj hs
    have hrec : record H (.accept i newpcb malloc err) = H := by
      rw [record, if_neg]
      simp [hH]
    exact ⟨C, hrec.symm ▸ hs' ▸ hiso⟩

/-- **One call** keeps the connections isolated. -/
theorem step {k : Upcall} (hs : h.step k = .ok h') : ∃ C', Isolated h' (record H k) C' := by
  cases k with
  | accept i newpcb malloc err => exact hiso.step_accept hs
  | on i e => exact hiso.step_on hs

/-- **One call that faults** faults in a callback for data that has arrived, because of the events
of that connection or because of a socket that another connection has left open. -/
theorem step_error {k : Upcall} {x : Fault} (hs : h.step k = .error x) :
    ∃ i d nl tcp es c₀, k = .on i (.recv d nl tcp) ∧ H i = some es ∧
      exec Queue.step start es = .ok c₀ ∧
      (Queue.step c₀ (.recv d nl tcp) = .error x ∨
        x = .exited ∧ h.nlOpen ≠ 0 ∧ c₀.nlOpen = 0) := by
  cases k with
  | accept i newpcb malloc err =>
    rw [Host.step] at hs
    split at hs
    · cases hs
    · dsimp only at hs
      split_ifs at hs
  | on i e =>
    rcases hiso.cases_on i with ⟨hi, hH⟩ | ⟨c, es, c₀, hi, hH, he, ha⟩
    · rw [Host.step, hiso.shares.conns, hi] at hs
      cases hs
    · rw [hiso.shares.step_on hi] at hs
      cases hc : Queue.step (c.within h) e with
      | ok c' => rw [hc] at hs; cases hs
      | error y =>
        rw [hc] at hs
        cases hs
        obtain ⟨d, nl, tcp, rfl⟩ := recv_of_error hc
        exact ⟨i, d, nl, tcp, es, c₀, rfl, hH, he, ha.step_error hc⟩

end Isolated

/-- **Runs** keep the connections isolated. -/
theorem isolated_exec {cs : List Upcall} {h h' : Host} {H : ℕ → Option (List Event)}
    {C : ℕ → Option Conn} (hiso : Isolated h H C) (hr : exec Host.step h cs = .ok h') :
    ∃ C', Isolated h' (cs.foldl record H) C' := by
  induction cs generalizing h H C with
  | nil =>
    cases hr
    exact ⟨C, hiso⟩
  | cons k cs ih =>
    obtain ⟨h₁, hs, hr⟩ := exec_cons_inv hr
    obtain ⟨C₁, hiso₁⟩ := hiso.step hs
    exact ih hiso₁ hr

/-- What the process and a run of one connection show of it: everything but addresses. -/
structure SameView (v w : World) : Prop where
  es : v.es.map (fun es => (es.state, es.retries)) = w.es.map fun es => (es.state, es.retries)
  pcb : v.pcb = w.pcb
  pending : World.dataOf v.chain = World.dataOf w.chain
  io : v.io.erase = w.io.erase

/-- The chain at `es->p` is the same over a frame. -/
lemma chain_atop {c : Conn} (hwf : WF c) (f : Heap Pbuf) :
    (c.toWorld.atop f).chain = nodes c.phase.pending none := by
  have hfrom : (c.toWorld.atop f).chainFrom (headPtr c.phase.pending none)
      = c.toWorld.chainFrom (headPtr c.phase.pending none) := by
    refine walk_atop (closed_heapOf _) f _ fun a ha => ?_
    cases hp : c.phase.pending with
    | nil => rw [hp] at ha; cases ha
    | cons b bs =>
      rw [hp] at ha
      cases ha
      exact ⟨_, heapOf_head b bs⟩
  rw [← chain_toWorld hwf]
  obtain ⟨ph, life, nlOpen, nextPtr, io⟩ := c
  cases ph with
  | accepted => exact hfrom
  | received bs => exact hfrom
  | closing bs => exact hfrom
  | closed => rfl

/-- The phase without addresses decides what is seen of `es` and of the callbacks. -/
lemma view_of_phase {ph ph' : Phase} (h : ph.map Buf.erase = ph'.map Buf.erase) :
    ph.es.map (fun es => (es.state, es.retries)) = ph'.es.map (fun es => (es.state, es.retries)) ∧
      dataOf ph.pending = dataOf ph'.pending := by
  have hview : ∀ ph : Phase, (ph.map Buf.erase).es.map (fun es => (es.state, es.retries))
      = ph.es.map fun es => (es.state, es.retries) := by
    intro ph
    cases ph <;> rfl
  refine ⟨by rw [← hview ph, h, hview], ?_⟩
  have hpend := congrArg (fun p : Phase => dataOf p.pending) h
  simpa using hpend

lemma Shares.chain_world {h : Host} {C : ℕ → Option Conn} (hsh : Shares h C) {i : ℕ} {c : Conn}
    (hi : C i = some c) : (h.world c.toLocal).chain = nodes c.phase.pending none := by
  rw [hsh.world_eq hi]
  exact chain_atop (c := c.within h) (hsh.fits i c hi) _

lemma Shares.sameView {h : Host} {C : ℕ → Option Conn} (hsh : Shares h C) {i : ℕ}
    {c c₀ : Conn} (hi : C i = some c) (hwf₀ : WF c₀) (ha : Alike (c.within h) c₀) :
    SameView (h.world c.toLocal) c₀.toWorld := by
  have hph : c.phase.map Buf.erase = c₀.phase.map Buf.erase := congrArg Conn.phase ha.erase_eq
  have hlife := congrArg Conn.life ha.erase_eq
  obtain ⟨hes, hdata⟩ := view_of_phase hph
  refine ⟨hes, ?_, ?_, congrArg Conn.io ha.erase_eq⟩
  · have hsome : c.phase.es.isSome = c₀.phase.es.isSome := by
      simpa using congrArg Option.isSome hes
    show c.phase.pcb c.life = c₀.phase.pcb c₀.life
    rw [Phase.pcb, Phase.pcb, hsome, show c.life = c₀.life from hlife]
  · rw [hsh.chain_world hi, chain_toWorld hwf₀, dataOf_nodes, dataOf_nodes]
    exact hdata

end Queue

open Queue

/-- **Connections do not interfere.**  Whatever lwIP calls, in any order for any number of
connections: as long as the process runs, every connection has been through exactly its own
events, and its state, its callbacks, its pending data and all that it has written, given back,
freed and closed are those of a run of it alone. -/
theorem host_isolates {cs : List Upcall} {h : Host} (hr : exec Host.step Host.boot cs = .ok h)
    (i : ℕ) :
    h.conns i = none ∧ histories cs i = none ∨
      ∃ l es w, h.conns i = some l ∧ histories cs i = some es ∧
        exec Server.step Server.start es = .ok w ∧ SameView (h.world l) w := by
  obtain ⟨C, hiso⟩ := isolated_exec isolated_boot hr
  rcases hiso.cases_on i with ⟨hi, hH⟩ | ⟨c, es, c₀, hi, hH, he, ha⟩
  · exact Or.inl ⟨by rw [hiso.shares.conns, hi]; rfl, hH⟩
  · have hwf₀ : WF c₀ := exec_inv (fun c e c' h hs => wf_step c e c' h hs) wf_start he
    exact Or.inr ⟨c.toLocal, es, c₀.toWorld, by rw [hiso.shares.conns, hi]; rfl, hH,
      exec_toWorld_ok he, hiso.shares.sameView hi hwf₀ ha⟩

/-- The calls for two clients: lwIP has no room for the reply to the first one when the second
one is served and closes. -/
def twoClients : List Upcall :=
  [.accept 0 true true .ok, .accept 1 true true .ok,
    .on 0 (.recv (requestDelivery 0x1000 8 []) (working id) full),
    .on 1 (.recv (requestDelivery 0x2000 4 []) (working id) (roomy 100)),
    .on 1 (.fin (roomy 100))]

theorem host_isolates_twoClients :
    ∃ h, exec Host.step Host.boot twoClients = .ok h ∧ ∀ i,
      h.conns i = none ∧ histories twoClients i = none ∨
        ∃ l es w, h.conns i = some l ∧ histories twoClients i = some es ∧
          exec Server.step Server.start es = .ok w ∧ SameView (h.world l) w := by
  have hview : view Host.nextPtr Host.step Host.boot twoClients = some 2 := by decide +kernel
  obtain ⟨h, hr, -⟩ := exec_of_view hview
  exact ⟨h, hr, host_isolates hr⟩

/-- **One connection brings the process down only by itself, or by a socket left open.**  A run that
faults does so in the first call that does not come back, and that is `tcp_raw_recv` for data of a
connection: either the events of that connection lead to the same fault when it is alone, or the
process exits there although the connection has left no socket open, after a request of another
connection has left one. -/
theorem host_fault {cs : List Upcall} {x : Fault} (hr : exec Host.step Host.boot cs = .error x) :
    ∃ pre h i d nl tcp es, pre ++ [.on i (.recv d nl tcp)] <+: cs ∧
      exec Host.step Host.boot pre = .ok h ∧ h.step (.on i (.recv d nl tcp)) = .error x ∧
      histories pre i = some es ∧
      (exec Server.step Server.start (es ++ [.recv d nl tcp]) = .error x ∨
        x = .exited ∧ (∃ w, exec Server.step Server.start es = .ok w ∧ w.nlOpen = 0) ∧
          ∃ j es' w, j ≠ i ∧ histories pre j = some es' ∧
            exec Server.step Server.start es' = .ok w ∧ w.nlOpen ≠ 0) := by
  obtain ⟨pre, k, h, hpre, hex, hs⟩ := exec_error hr
  obtain ⟨C, hiso⟩ := isolated_exec isolated_boot hex
  obtain ⟨i, d, nl, tcp, es, c₀, rfl, hH, he, hcase⟩ := hiso.step_error hs
  refine ⟨pre, h, i, d, nl, tcp, es, hpre, hex, hs, hH, ?_⟩
  rcases hcase with herr | ⟨rfl, hleak, hzero⟩
  · refine Or.inl ?_
    rw [exec_toWorld, exec_concat he, herr]
    rfl
  · obtain ⟨j, es', c₁, hj, he₁, hne⟩ := hiso.leak hleak
    refine Or.inr ⟨rfl, ⟨_, exec_toWorld_ok he, hzero⟩, j, es', _, ?_, hj, exec_toWorld_ok he₁,
      hne⟩
    rintro rfl
    have hsame : es = es' := Option.some.inj (hH.symm.trans hj)
    subst hsame
    rw [he] at he₁
    cases he₁
    exact hne hzero

/-- The calls for two clients, the first of which asks for no bytes while `recvmsg` fails. -/
def leakingClient : List Upcall :=
  [.accept 0 true true .ok, .accept 1 true true .ok,
    .on 0 (.recv (requestDelivery 0x1000 0 []) { working id with recvmsg := false } full),
    .on 1 (.recv (requestDelivery 0x2000 4 []) (working id) (roomy 100))]

theorem host_fault_leakingClient :
    exec Host.step Host.boot leakingClient = .error .exited ∧
      ∃ pre h i d nl tcp es, pre ++ [.on i (.recv d nl tcp)] <+: leakingClient ∧
        exec Host.step Host.boot pre = .ok h ∧ h.step (.on i (.recv d nl tcp)) = .error .exited ∧
        histories pre i = some es ∧
        (exec Server.step Server.start (es ++ [.recv d nl tcp]) = .error .exited ∨
          Fault.exited = .exited ∧ (∃ w, exec Server.step Server.start es = .ok w ∧ w.nlOpen = 0) ∧
            ∃ j es' w, j ≠ i ∧ histories pre j = some es' ∧
              exec Server.step Server.start es' = .ok w ∧ w.nlOpen ≠ 0) :=
  have hr : exec Host.step Host.boot leakingClient = .error .exited :=
    exec_of_fault (by decide +kernel)
  ⟨hr, host_fault hr⟩

/-- `es->p` points to the first pending buffer. -/
lemma Queue.Phase.es_p {ph : Phase} {es : Es} (h : ph.es = some es) :
    es.p = headPtr ph.pending none := by
  cases ph with
  | accepted => cases h; rfl
  | received bs => cases h; rfl
  | closing bs => cases h; rfl
  | closed => cases h

namespace Queue.Shares

variable {h : Host} {C : ℕ → Option Conn} (hsh : Shares h C)
include hsh

/-- A connection owns the pbufs of its pending chain. -/
lemma mem_chain_iff (a i : ℕ) :
    (∃ l, h.conns i = some l ∧ a ∈ (h.world l).chain.map Prod.fst) ↔
      ∃ c, C i = some c ∧ (heapOf c.phase.pending a).isSome := by
  rw [hsh.conns]
  constructor
  · rintro ⟨l, hl, ha⟩
    obtain ⟨c, hi, rfl⟩ := Option.map_eq_some_iff.mp hl
    rw [hsh.chain_world hi, nodes_map_fst] at ha
    exact ⟨c, hi, store_isSome_of_mem (by rwa [nodes_map_fst])⟩
  · rintro ⟨c, hi, ha⟩
    obtain ⟨n, hn⟩ := Option.isSome_iff_exists.mp ha
    refine ⟨c.toLocal, by rw [hi]; rfl, ?_⟩
    rw [hsh.chain_world hi]
    exact List.mem_map_of_mem (mem_of_store_empty hn)

/-- The head of a pending chain is allocated. -/
lemma allocated_head {i a : ℕ} {l : Local} {es : Es} (hl : h.conns i = some l)
    (hes : l.es = some es) (hp : es.p = some a) : (h.heap a).isSome := by
  rw [hsh.conns] at hl
  obtain ⟨c, hi, rfl⟩ := Option.map_eq_some_iff.mp hl
  rw [Phase.es_p (show c.phase.es = some es from hes)] at hp
  cases hpend : c.phase.pending with
  | nil =>
    rw [hpend] at hp
    cases hp
  | cons b bs =>
    rw [hpend] at hp
    cases hp
    have hhead := (hsh.heap b.ptr _).mpr ⟨i, c, hi, hpend ▸ heapOf_head b bs⟩
    rw [hhead]
    rfl

/-- So is what a pbuf links to. -/
lemma allocated_next {a b : ℕ} {n : Pbuf} (hb : h.heap b = some n) (hn : n.next = some a) :
    (h.heap a).isSome := by
  obtain ⟨i, c, hi, hc⟩ := (hsh.heap b n).mp hb
  obtain ⟨m, hm⟩ := closed_heapOf c.phase.pending b n a hc hn
  rw [(hsh.heap a m).mpr ⟨i, c, hi, hm⟩]
  rfl

end Queue.Shares

/-- **Every pbuf has one owner.**  In every state of the process, a pbuf that is allocated is in
the pending chain of exactly one connection, and nothing else is in a pending chain.  No pointer
dangles: `es->p` of every connection and the link of every pbuf are null or lead to a pbuf that is
allocated. -/
theorem host_owns {cs : List Upcall} {h : Host} (hr : exec Host.step Host.boot cs = .ok h) (a : ℕ) :
    ((h.heap a).isSome ↔
      ∃! i, ∃ l, h.conns i = some l ∧ a ∈ (h.world l).chain.map Prod.fst) ∧
    (∀ i l es, h.conns i = some l → l.es = some es → es.p = some a → (h.heap a).isSome) ∧
    ∀ b n, h.heap b = some n → n.next = some a → (h.heap a).isSome := by
  obtain ⟨C, hiso⟩ := isolated_exec isolated_boot hr
  have hsh := hiso.shares
  refine ⟨?_, fun i l es => hsh.allocated_head, fun b n => hsh.allocated_next⟩
  simp only [hsh.mem_chain_iff]
  constructor
  · intro ha
    obtain ⟨n, hn⟩ := Option.isSome_iff_exists.mp ha
    obtain ⟨i, c, hi, hc⟩ := (hsh.heap a n).mp hn
    refine ⟨i, ⟨c, hi, by rw [hc]; rfl⟩, ?_⟩
    rintro j ⟨cj, hj, haj⟩
    by_contra hji
    rw [hsh.apart i j c cj (Ne.symm hji) hi hj a n hc] at haj
    cases haj
  · rintro ⟨i, ⟨c, hi, ha⟩, -⟩
    obtain ⟨n, hn⟩ := Option.isSome_iff_exists.mp ha
    rw [(hsh.heap a n).mpr ⟨i, c, hi, hn⟩]
    rfl

theorem host_owns_twoClients :
    ∃ h, exec Host.step Host.boot twoClients = .ok h ∧
      ((h.heap 0).isSome ↔
        ∃! i, ∃ l, h.conns i = some l ∧ 0 ∈ (h.world l).chain.map Prod.fst) ∧
      (∀ i l es, h.conns i = some l → l.es = some es → es.p = some 0 → (h.heap 0).isSome) ∧
      ∀ b n, h.heap b = some n → n.next = some 0 → (h.heap 0).isSome := by
  have hview : view Host.nextPtr Host.step Host.boot twoClients = some 2 := by decide +kernel
  obtain ⟨h, hr, -⟩ := exec_of_view hview
  exact ⟨h, hr, host_owns hr 0⟩

end Server
end DeepForensics
