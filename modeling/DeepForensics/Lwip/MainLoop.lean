/-
# The timers of the main loop

`sys_check_timeouts` is called in every pass of the main loop, and every timer that expires puts
itself into the list again.  This is an invariant (`Timed`) of the list, of the clock and of the
calls made so far: each timer that belongs in the list is there exactly once, so that the pool is
never empty; the times fit in 32 bits; and no timer is called more often than its interval allows.
The loop of `sys_check_timeouts` ends because a timer that has been called is due again at least its
interval after the time it was due, however late it was called.
-/
import DeepForensics.Lwip.Agenda
import DeepForensics.Lib.Run
import Mathlib.Algebra.Group.Action.Defs

namespace DeepForensics
namespace Lwip

open Deltas Runs

/-- The function that an entry stands for. -/
def Handler.tmr : Handler → Tmr
  | .tcpipTcpTimer => .tcpTmr
  | .cyclicTimer c => c.handler

/-- The entries of the two cyclic timers that are always in the list. -/
def reass : Handler := .cyclicTimer ⟨1000, .ipReassTmr⟩

def arp : Handler := .cyclicTimer ⟨1000, .etharpTmr⟩

/-- The entries that belong in the list. -/
def timers (active : Bool) : List Handler :=
  (if active then [.tcpipTcpTimer] else []) ++ lwipCyclicTimers.tail.map .cyclicTimer

/-- How often a function has been called. -/
def callsOf (f : Tmr) (calls : List (ℕ × Tmr)) : ℕ := (calls.map Prod.snd).count f

/-- The longest time for a pass of the main loop: more than six days. -/
def maxPass : ℕ := 2 ^ 29

/-- The entries are those that belong in the list. -/
def Complete (s : Timeouts) : Prop :=
  ((entries s.nextTimeout).map Prod.snd).Perm (timers s.tcpipTcpTimerActive)

/-- The state of the timers at any time, if `sys_timeouts_init` was called at `t₀` and the list was
last checked for timers that were due at `seen`; `timeouts_last_time` is `L`. -/
structure Timed (t₀ seen L : ℕ) (s : Timeouts) : Prop where
  last : s.timeoutsLastTime = UInt32.ofNat L
  le : L ≤ s.clock
  seen_le : seen ≤ s.clock
  clock : s.clock ≤ seen + 2 * maxPass
  due : ∀ e ∈ agenda L s, seen < e.1
  cyclic : ∀ e ∈ entries s.nextTimeout, e.2 ≠ .tcpipTcpTimer → e.1 ≤ 2000 + 2 * maxPass
  time : ∀ e ∈ entries s.nextTimeout, e.1 ≤ 2250 + 4 * maxPass
  pool : s.pool + s.nextTimeout.length = numSysTimeout
  /-- A timer is not due before its interval has passed once more. -/
  rate : ∀ e ∈ agenda L s, t₀ + (callsOf e.2.tmr s.calls + 1) * e.2.tmr.interval.toNat ≤ e.1
  past : ∀ f : Tmr, t₀ + callsOf f s.calls * f.interval.toNat ≤ L
  log : ∀ pre t f, pre ++ [(t, f)] <+: s.calls →
    t₀ + (callsOf f pre + 1) * f.interval.toNat ≤ t

section Intervals

lemma interval_pos (f : Tmr) : 250 ≤ f.interval.toNat := by cases f <;> decide

lemma interval_le (f : Tmr) : f.interval.toNat ≤ 1000 := by cases f <;> decide

lemma tmr_nodup (active : Bool) : ((timers active).map Handler.tmr).Nodup := by
  cases active <;> decide

lemma timers_length_le (active : Bool) : (timers active).length ≤ 3 := by cases active <;> decide

lemma two_le_timers_length (active : Bool) : 2 ≤ (timers active).length := by
  cases active <;> decide

lemma callsOf_append (f : Tmr) (l r : List (ℕ × Tmr)) :
    callsOf f (l ++ r) = callsOf f l + callsOf f r := by
  simp [callsOf]

/-- Every timer of the list is put there with the interval of its function. -/
lemma call_eq {active : Bool} {h : Handler} (hh : h ∈ timers active) (s : Timeouts) (w : Work) :
    h.call s w = if h = .tcpipTcpTimer ∧ w.pcbs = false
      then .ok { run s h.tmr w with tcpipTcpTimerActive := false }
      else sysTimeout (run s h.tmr w) h.tmr.interval h := by
  have hmem : h ∈ timers true := by
    cases active with
    | true => exact hh
    | false => exact List.mem_append_right _ hh
  have hcases : h = .tcpipTcpTimer ∨ h = reass ∨ h = arp := by
    simpa [timers, lwipCyclicTimers, Tmr.interval, reass, arp] using hmem
  rcases hcases with rfl | rfl | rfl
  · cases hp : w.pcbs <;> simp [Handler.call, tcpipTcpTimer, hp, Handler.tmr]
  · rfl
  · rfl

end Intervals

/-- The times do not grow when an entry is inserted. -/
lemma Insertion.time_le {diff msecs : ℕ} {h : Handler} {q q' : List (ℕ × Handler)}
    (hi : Insertion diff msecs h q q') {e : ℕ × Handler} (he : e ∈ q') :
    (e.2 = h ∧ e.1 ≤ msecs + max diff msecs) ∨ ∃ e₀ ∈ q, e.2 = e₀.2 ∧ e.1 ≤ e₀.1 := by
  have hself : ∀ {l : List (ℕ × Handler)}, e ∈ l → ∃ e₀ ∈ l, e.2 = e₀.2 ∧ e.1 ≤ e₀.1 :=
    fun hl => ⟨e, hl, rfl, le_rfl⟩
  cases hi with
  | @front n x q hn =>
    simp only [List.mem_cons] at he
    rcases he with rfl | rfl | he
    · exact Or.inl ⟨rfl, by omega⟩
    · exact Or.inr ⟨(n, x), by simp, rfl, Nat.sub_le ..⟩
    · exact Or.inr (hself (List.mem_cons_of_mem _ he))
  | @between n k m x y l r hn hk hm =>
    simp only [List.mem_cons, List.mem_append] at he
    rcases he with rfl | he | rfl | rfl | he
    · exact Or.inr (hself (by simp))
    · exact Or.inr (hself (by simp [he]))
    · exact Or.inl ⟨rfl, by simp only; omega⟩
    · exact Or.inr ⟨(m, y), by simp, rfl, Nat.sub_le ..⟩
    · exact Or.inr (hself (by simp [he]))
  | @last n k x l hn hk hle =>
    simp only [List.mem_cons, List.mem_append, List.not_mem_nil, or_false] at he
    rcases he with rfl | he | rfl
    · exact Or.inr (hself (by simp))
    · exact Or.inr (hself (by simp [he]))
    · exact Or.inl ⟨rfl, by simp only; omega⟩
  | @late n x l hn hlt =>
    simp only [List.mem_cons, List.mem_append, List.not_mem_nil, or_false] at he
    rcases he with rfl | he | rfl
    · exact Or.inr (hself (by simp))
    · exact Or.inr (hself (by simp [he]))
    · exact Or.inl ⟨rfl, by simp only; omega⟩

namespace Timed

variable {t₀ seen L : ℕ} {s : Timeouts}

/-- The first timer was not due when the list was last checked. -/
lemma diff_le (ht : Timed t₀ seen L s) {t : SysTimeo} {rest : List SysTimeo}
    (hl : s.nextTimeout = t :: rest) : s.clock - L ≤ 2 * maxPass + t.time.toNat := by
  have hdue := ht.due (L + t.time.toNat, t.h) (by simp [agenda, hl])
  have hclock := ht.clock
  simp only at hdue
  omega

lemma clocked (ht : Timed t₀ seen L s) (hne : s.nextTimeout ≠ []) : Clocked s L := by
  obtain ⟨t, rest, hl⟩ := List.exists_cons_of_ne_nil hne
  have htime := ht.time (t.time.toNat, t.h) (by simp [hl])
  have hdiff := ht.diff_le hl
  refine ⟨ht.last, ht.le, ?_⟩
  simp only [maxPass] at htime hdiff
  omega

lemma elapse (ht : Timed t₀ seen L s) {n : ℕ} (hn : s.clock + n ≤ seen + 2 * maxPass) :
    Timed t₀ seen L (elapse s n) :=
  { ht with
    le := ht.le.trans (Nat.le_add_right ..)
    seen_le := ht.seen_le.trans (Nat.le_add_right ..)
    clock := hn }

/-- **`sys_timeout`** keeps the invariant. -/
lemma schedule (ht : Timed t₀ seen L s) {h : Handler} (hne : s.nextTimeout ≠ [])
    (hlen : s.nextTimeout.length < numSysTimeout) (hdiff : s.clock - L ≤ 2000 + 4 * maxPass)
    (hcyc : h ≠ .tcpipTcpTimer → s.clock - L ≤ 2 * maxPass)
    (htcp : h = .tcpipTcpTimer → h.tmr.interval.toNat = 250) :
    ∃ l, sysTimeout s h.tmr.interval h = .ok { s with pool := s.pool - 1, nextTimeout := l } ∧
      Insertion (s.clock - L) h.tmr.interval.toNat h (entries s.nextTimeout) (entries l) ∧
      Timed t₀ seen L { s with pool := s.pool - 1, nextTimeout := l } := by
  have hpool := ht.pool
  have hms := interval_le h.tmr
  have hlow := interval_pos h.tmr
  have hfits : h.tmr.interval.toNat + (s.clock - L) < 2 ^ 32 := by
    simp only [maxPass] at hdiff
    omega
  obtain ⟨l, hrun, hi⟩ := sysTimeout_spec (ht.clocked hne) (by omega) hne (by omega) hfits h
  refine ⟨l, hrun, hi, ?_⟩
  have hlength : l.length = s.nextTimeout.length + 1 := by
    simpa [entries] using hi.perm.length_eq
  have hle := ht.le
  refine ⟨ht.last, hle, ht.seen_le, ht.clock, ?_, ?_, ?_, ?_, ?_, ht.past, ht.log⟩
  · refine hi.forall_dues (P := fun d _ => seen < d) (fun c d _ hcd hc => hc.trans_le hcd) ht.due ?_
    rintro d hd (hnow | ⟨e, he, hed⟩)
    · have := ht.seen_le
      omega
    · exact (ht.due e he).trans_le hed
  · intro e he hcyclic
    rcases hi.time_le he with ⟨hh, htime⟩ | ⟨e₀, he₀, hh, htime⟩
    · have := hcyc (hh ▸ hcyclic)
      have hbig : 1000 ≤ 2 * maxPass := by decide
      omega
    · exact htime.trans (ht.cyclic e₀ he₀ (hh ▸ hcyclic))
  · intro e he
    rcases hi.time_le he with ⟨hh, htime⟩ | ⟨e₀, he₀, hh, htime⟩
    · have hbig : 1000 ≤ maxPass := by decide
      by_cases htcp' : h = .tcpipTcpTimer
      · have := htcp htcp'
        omega
      · have := hcyc htcp'
        omega
    · exact htime.trans (ht.time e₀ he₀)
  · simp only [hlength]
    omega
  · refine hi.forall_dues
      (P := fun d x => t₀ + (callsOf x.tmr s.calls + 1) * x.tmr.interval.toNat ≤ d)
      (fun c d _ hcd hc => hc.trans hcd) ht.rate ?_
    intro d hd _
    have hpast := ht.past h.tmr
    rw [Nat.add_mul, Nat.one_mul]
    omega

/-- The first timer is taken from the list when it is due, and its function is called. -/
lemma fire (ht : Timed t₀ seen L s) {t : SysTimeo} {rest : List SysTimeo}
    (hl : s.nextTimeout = t :: rest) (hdue : L + t.time.toNat ≤ s.clock)
    (hother : ∀ e ∈ entries rest, e.2.tmr ≠ t.h.tmr) {w : Work}
    (hw : s.clock + w.duration ≤ seen + 2 * maxPass) :
    Timed t₀ seen (L + t.time.toNat) (run (takeFirst s t rest) t.h.tmr w) := by
  have hagenda : agenda L s
      = (L + t.time.toNat, t.h) :: dues (L + t.time.toNat) (entries rest) := by simp [agenda, hl]
  have hrate := ht.rate
  have hseen := ht.due
  rw [hagenda] at hrate hseen
  have hfirst := hrate _ List.mem_cons_self
  -- a function that is not the one called has been called as often as before
  have hcalls : ∀ f, callsOf f (s.calls ++ [(s.clock, t.h.tmr)])
      = callsOf f s.calls + if t.h.tmr = f then 1 else 0 := fun f => by
    rw [callsOf_append]
    simp [callsOf, List.count_singleton]
  refine ⟨?_, ?_, ?_, hw, ?_, ?_, ?_, ?_, ?_, ?_, ?_⟩
  · simp only [run, Lwip.elapse, takeFirst, ht.last, UInt32.ofNat_add, UInt32.ofNat_toNat]
  · exact hdue.trans (Nat.le_add_right ..)
  · exact ht.seen_le.trans (Nat.le_add_right ..)
  · exact fun e he => hseen e (List.mem_cons_of_mem _ he)
  · exact fun e he => ht.cyclic e (by rw [hl]; exact List.mem_cons_of_mem _ he)
  · exact fun e he => ht.time e (by rw [hl]; exact List.mem_cons_of_mem _ he)
  · have hpool := ht.pool
    simp only [hl, List.length_cons] at hpool
    simp only [run, Lwip.elapse, takeFirst]
    omega
  · intro e he
    have hne : t.h.tmr ≠ e.2.tmr := by
      obtain ⟨e', he', heq⟩ := List.mem_map.mp
        (dues_map_snd (L + t.time.toNat) (entries rest) ▸ List.mem_map_of_mem he)
      rw [← heq]
      exact (hother e' he').symm
    show t₀ + (callsOf e.2.tmr (s.calls ++ [(s.clock, t.h.tmr)]) + 1) * _ ≤ _
    rw [hcalls, if_neg hne, Nat.add_zero]
    exact hrate e (List.mem_cons_of_mem _ he)
  · intro f
    show t₀ + callsOf f (s.calls ++ [(s.clock, t.h.tmr)]) * _ ≤ _
    rw [hcalls]
    split
    · rename_i heq
      rw [← heq]
      exact hfirst
    · exact (ht.past f).trans (Nat.le_add_right ..)
  · intro pre c f hpre
    rcases List.prefix_concat_iff.mp hpre with heq | hpre
    · obtain ⟨rfl, hlast⟩ := List.append_inj' heq rfl
      obtain ⟨rfl, rfl⟩ := Prod.mk.inj (List.singleton_inj.mp hlast)
      exact hfirst.trans hdue
    · exact ht.log pre c f hpre

end Timed

/-- What happens to the first timer, `t`, in a check that begins at `now`: its function is called
and it is put in the list again, or it is the TCP timer and there are no connections left. -/
structure Called (t₀ seen now L : ℕ) (s : Timeouts) (w : Work) (t : SysTimeo)
    (rest : List SysTimeo) (s' : Timeouts) : Prop where
  first : s.nextTimeout = t :: rest
  due : L + t.time.toNat ≤ now
  complete : Complete s
  timed' : Timed t₀ seen (L + t.time.toNat) s'
  complete' : Complete s'
  clock : s'.clock = s.clock + w.duration
  calls : s'.calls = s.calls ++ [(s.clock, t.h.tmr)]
  list : (t.h = .tcpipTcpTimer ∧ s'.nextTimeout = rest) ∨
    Insertion (s'.clock - (L + t.time.toNat)) t.h.tmr.interval.toNat t.h (entries rest)
      (entries s'.nextTimeout)

lemma Timed.call {t₀ seen L : ℕ} {s : Timeouts} (ht : Timed t₀ seen L s) (hcomplete : Complete s)
    {t : SysTimeo} {rest : List SysTimeo} (hl : s.nextTimeout = t :: rest) {now : ℕ}
    (hdue : L + t.time.toNat ≤ now) (hnow : now ≤ s.clock) {w : Work}
    (hw : s.clock + w.duration ≤ seen + 2 * maxPass) :
    ∃ s', t.h.call (takeFirst s t rest) w = .ok s' ∧ Called t₀ seen now L s w t rest s' := by
  have hcomplete₀ := hcomplete
  rw [Complete, hl, entries_cons, List.map_cons] at hcomplete
  have hmem : t.h ∈ timers s.tcpipTcpTimerActive := hcomplete.mem_iff.mp List.mem_cons_self
  have hnodup := ((hcomplete.map Handler.tmr).nodup_iff).mpr (tmr_nodup _)
  rw [List.map_cons, List.nodup_cons] at hnodup
  have hother : ∀ e ∈ entries rest, e.2.tmr ≠ t.h.tmr := fun e he heq =>
    hnodup.1 (List.mem_map.mpr ⟨e.2, List.mem_map_of_mem he, heq⟩)
  have hlength := hcomplete.length_eq
  simp only [List.length_cons, List.length_map, entries] at hlength
  have hthree := timers_length_le s.tcpipTcpTimerActive
  have htwo := two_le_timers_length s.tcpipTcpTimerActive
  have hseen := ht.due (L + t.time.toNat, t.h) (by simp [agenda, hl])
  have hfired := ht.fire hl (hdue.trans hnow) hother hw
  rw [call_eq hmem]
  by_cases hstop : t.h = .tcpipTcpTimer ∧ w.pcbs = false
  · refine ⟨_, if_pos hstop, hl, hdue, hcomplete₀, ?_, ?_, rfl, rfl, Or.inl ⟨hstop.1, rfl⟩⟩
    · exact { hfired with }
    · rw [Complete]
      cases hactive : s.tcpipTcpTimerActive with
      | true =>
        rw [hactive, hstop.1] at hcomplete
        exact List.Perm.cons_inv hcomplete
      | false =>
        -- the TCP timer is not in the list
        rw [hactive, hstop.1] at hmem
        exact absurd hmem (by decide)
  · rw [if_neg hstop]
    have hclock : (run (takeFirst s t rest) t.h.tmr w).clock = s.clock + w.duration := rfl
    have hlist : (run (takeFirst s t rest) t.h.tmr w).nextTimeout = rest := rfl
    simp only at hseen
    obtain ⟨l, hrun, hi, hnew⟩ := hfired.schedule (h := t.h)
      (by rw [hlist]; rintro rfl; simp only [List.length_nil] at hlength; omega)
      (by rw [hlist]; simp only [numSysTimeout]; omega)
      (by rw [hclock]; omega) (fun _ => by rw [hclock]; omega) (fun htcp => by rw [htcp]; rfl)
    exact ⟨_, hrun, hl, hdue, hcomplete₀, hnew, hi.perm.trans hcomplete, rfl, rfl, Or.inr hi⟩

/-- The calls of one check. -/
inductive Checked (t₀ seen now : ℕ) : ℕ → Timeouts → List Work → ℕ → Timeouts → Prop
  | done {L : ℕ} {s : Timeouts} {ws : List Work} : Checked t₀ seen now L s ws L s
  | call {L L' : ℕ} {s s₁ s' : Timeouts} {ws : List Work} {t : SysTimeo} {rest : List SysTimeo}
      (hcall : Called t₀ seen now L s (ws.headD ⟨0, false⟩) t rest s₁)
      (hrest : Checked t₀ seen now (L + t.time.toNat) s₁ ws.tail L' s') :
      Checked t₀ seen now L s ws L' s'

section Checked

variable {t₀ seen now L L' : ℕ} {s s' : Timeouts} {ws : List Work}

/-- What every call keeps, the check keeps. -/
lemma Checked.inv {K : ℕ → Timeouts → List Work → Prop} (h : Checked t₀ seen now L s ws L' s')
    (hK : ∀ L s ws t rest s₁, K L s ws →
      Called t₀ seen now L s (ws.headD ⟨0, false⟩) t rest s₁ → K (L + t.time.toNat) s₁ ws.tail)
    (h₀ : K L s ws) : ∃ ws', K L' s' ws' := by
  induction h with
  | done => exact ⟨_, h₀⟩
  | call hcall hrest ih => exact ih (hK _ _ _ _ _ _ h₀ hcall)

lemma headD_duration (ws : List Work) :
    (ws.headD ⟨0, false⟩).duration + (ws.tail.map Work.duration).sum
      = (ws.map Work.duration).sum := by
  cases ws with
  | nil => rfl
  | cons w ws => simp

lemma Checked.clock (h : Checked t₀ seen now L s ws L' s') :
    s.clock ≤ s'.clock ∧ s'.clock ≤ s.clock + (ws.map Work.duration).sum := by
  induction h with
  | done => exact ⟨le_rfl, Nat.le_add_right ..⟩
  | @call L L' s s₁ s' ws t rest hcall hrest ih =>
    have hhead := headD_duration ws
    have hclock := hcall.clock
    omega

lemma Checked.calls (h : Checked t₀ seen now L s ws L' s') : s.calls <+: s'.calls := by
  induction h with
  | done => exact List.prefix_rfl
  | call hcall hrest ih => exact (hcall.calls ▸ List.prefix_append ..).trans ih

/-- If a timer was due, a function has been called. -/
lemma Checked.calls_ne (h : Checked t₀ seen now L s ws L' s')
    (hend : ∀ e ∈ agenda L' s', now < e.1) {e : ℕ × Handler} (he : e ∈ agenda L s)
    (hdue : e.1 ≤ now) : s.calls ≠ s'.calls := by
  cases h with
  | done => exact absurd (hend e he) (Nat.not_lt.mpr hdue)
  | call hcall hrest =>
    intro hsame
    have hpre := hrest.calls.length_le
    rw [← hsame, hcall.calls, List.length_append, List.length_singleton] at hpre
    omega

end Checked

/-! ## One check -/

/-- How often a timer that is due at `d` can be called, at most, in a check that begins at `now`. -/
def firings (now d : ℕ) : ℕ := if d ≤ now then (now - d) / 250 + 1 else 0

/-- The same for all timers of an agenda. -/
def backlog (now : ℕ) (q : List (ℕ × Handler)) : ℕ := (q.map fun e => firings now e.1).sum

lemma backlog_cons (now d : ℕ) (x : Handler) (q : List (ℕ × Handler)) :
    backlog now ((d, x) :: q) = firings now d + backlog now q := rfl

lemma firings_antitone (now : ℕ) : Antitone (firings now) := by
  intro c d hcd
  simp only [firings]
  split
  · rw [if_pos (by omega)]
    exact Nat.succ_le_succ (Nat.div_le_div_right (by omega))
  · exact Nat.zero_le _

lemma firings_again {now d : ℕ} (hd : d ≤ now) {m : ℕ} (hm : 250 ≤ m) :
    firings now (d + m) + 1 ≤ firings now d := by
  simp only [firings, if_pos hd]
  split
  · omega
  · omega

lemma backlog_le {now L : ℕ} (q : List (ℕ × Handler)) :
    backlog now (dues L q) ≤ q.length * ((now - L) / 250 + 1) := by
  have hlength : (dues L q).length = q.length := by
    simpa using congrArg List.length (dues_map_snd L q)
  rw [← hlength, backlog, ← smul_eq_mul, ← List.length_map (fun e => firings now e.1)]
  refine List.sum_le_card_nsmul _ _ fun n hn => ?_
  obtain ⟨⟨d, x⟩, he, rfl⟩ := List.mem_map.mp hn
  have hle := (finish_of_mem he).1
  simp only [firings]
  split
  · exact Nat.succ_le_succ (Nat.div_le_div_right (by omega))
  · exact Nat.zero_le _

section Check

variable {t₀ seen : ℕ}

lemma complete_ne_nil {s : Timeouts} (h : Complete s) : ∃ t rest, s.nextTimeout = t :: rest := by
  refine List.exists_cons_of_ne_nil fun hnil => ?_
  have hlength := h.length_eq
  have htwo := two_le_timers_length s.tcpipTcpTimerActive
  simp only [hnil, entries_nil, List.map_nil, List.length_nil] at hlength
  omega

/-- **The loop of `sys_check_timeouts`** ends, and no timer is left that was due at `now`. -/
lemma checkLoop_spec {now : ℕ} {fuel : ℕ} : ∀ {L : ℕ} {s : Timeouts} {ws : List Work},
    Timed t₀ seen L s → Complete s → L ≤ now → now ≤ s.clock → now - L < 2 ^ 32 →
    s.clock + (ws.map Work.duration).sum ≤ seen + 2 * maxPass →
    backlog now (agenda L s) < fuel →
    ∃ s' L', checkLoop fuel (UInt32.ofNat (now - L)) ws s = .ok s' ∧
      Checked t₀ seen now L s ws L' s' ∧ Timed t₀ seen L' s' ∧ Complete s' ∧
      ∀ e ∈ agenda L' s', now < e.1 := by
  induction fuel with
  | zero => exact fun _ _ _ _ _ _ hfuel => absurd hfuel (Nat.not_lt_zero _)
  | succ fuel ih =>
    intro L s ws ht hcomplete hL hnow hdiff hws hfuel
    have hdiffNat : (UInt32.ofNat (now - L)).toNat = now - L := by
      rw [UInt32.toNat_ofNat', Nat.mod_eq_of_lt hdiff]
    obtain ⟨t, rest, hl⟩ := complete_ne_nil hcomplete
    have hagenda : agenda L s
        = (L + t.time.toNat, t.h) :: dues (L + t.time.toNat) (entries rest) := by
      simp [agenda, hl]
    simp only [checkLoop, hl]
    by_cases hexpired : t.time ≤ UInt32.ofNat (now - L)
    · rw [if_pos hexpired]
      have htime := UInt32.le_iff_toNat_le.mp hexpired
      rw [hdiffNat] at htime
      have hhead := headD_duration ws
      obtain ⟨s₁, hrun₁, hcall⟩ := ht.call hcomplete hl (show _ ≤ now by omega) hnow
        (w := ws.headD ⟨0, false⟩) (by omega)
      have hclock := hcall.clock
      -- the timer that has been called uses up one of its calls
      have hless : backlog now (agenda (L + t.time.toNat) s₁) + 1 ≤ backlog now (agenda L s) := by
        have hagain := firings_again hcall.due (interval_pos t.h.tmr)
        rw [hagenda, backlog_cons]
        rcases hcall.list with ⟨-, hrest⟩ | hi
        · rw [agenda, hrest]
          omega
        · have := hi.sum_dues_le (L := L + t.time.toNat) (firings_antitone now)
          rw [agenda, backlog, backlog]
          omega
      have hrem : UInt32.ofNat (now - L) - t.time = UInt32.ofNat (now - (L + t.time.toNat)) := by
        rw [← Nat.sub_sub, UInt32.ofNat_sub htime, UInt32.ofNat_toNat]
      obtain ⟨s', L', hrun, hchecked, hend⟩ :=
        ih hcall.timed' hcall.complete' hcall.due (by omega) (by omega)
          (show s₁.clock + (ws.tail.map Work.duration).sum ≤ _ by omega) (by omega)
      refine ⟨s', L', ?_, .call hcall hchecked, hend⟩
      rw [hrun₁, ok_bind, hrem]
      exact hrun
    · rw [if_neg hexpired]
      have htime : now - L < t.time.toNat := by
        rw [← hdiffNat]
        exact UInt32.lt_iff_toNat_lt.mp (UInt32.not_le.mp hexpired)
      refine ⟨s, L, rfl, .done, ht, hcomplete, fun e he => ?_⟩
      rw [hagenda, List.mem_cons] at he
      rcases he with rfl | he
      · simp only
        omega
      · have := (finish_of_mem he).1
        omega

/-- **`sys_check_timeouts`.** -/
lemma sysCheckTimeouts_spec {L : ℕ} {s : Timeouts} {ws : List Work} (ht : Timed t₀ seen L s)
    (hcomplete : Complete s)
    (hws : s.clock + (ws.map Work.duration).sum ≤ seen + 2 * maxPass)
    (hwork : (ws.map Work.duration).sum ≤ maxPass) :
    ∃ s' L', sysCheckTimeouts s ws = .ok s' ∧ Checked t₀ seen s.clock L s ws L' s' ∧
      Timed t₀ s.clock L' s' ∧ Complete s' := by
  obtain ⟨t, rest, hl⟩ := complete_ne_nil hcomplete
  have hclocked := ht.clocked (by rw [hl]; exact List.cons_ne_nil _ _)
  have hdiff : sysNow s - s.timeoutsLastTime = UInt32.ofNat (s.clock - L) := by
    rw [hclocked.last, sysNow, UInt32.ofNat_sub hclocked.le]
  have hfuel : backlog s.clock (agenda L s) < checkFuel (sysNow s - s.timeoutsLastTime) := by
    have hlength := hcomplete.length_eq
    have hthree := timers_length_le s.tcpipTcpTimerActive
    rw [List.length_map] at hlength
    rw [checkFuel, hclocked.diff, agenda]
    exact Nat.lt_succ_of_le ((backlog_le _).trans (Nat.mul_le_mul_right _ (hlength ▸ hthree)))
  obtain ⟨s', L', hrun, hchecked, ht', hcomplete', hend⟩ :=
    checkLoop_spec ht hcomplete ht.le le_rfl hclocked.lt hws hfuel
  have hclock := hchecked.clock
  refine ⟨s', L', ?_, hchecked, ?_, hcomplete'⟩
  · rw [← hdiff] at hrun
    simp only [sysCheckTimeouts, hl]
    exact hrun
  · exact { ht' with due := hend, seen_le := hclock.1, clock := by omega }

end Check

/-! ## Whole runs -/

section Runs

variable {t₀ seen L : ℕ} {s : Timeouts}

/-- Between two passes: the list has been checked at some time, and the pass has ended since. -/
def Between (t₀ : ℕ) (s : Timeouts) : Prop :=
  ∃ seen L, Timed t₀ seen L s ∧ Complete s ∧ s.clock ≤ seen + maxPass

/-- Without the TCP timer the first entry is a cyclic timer. -/
lemma Complete.cyclic_first (h : Complete s) (hactive : s.tcpipTcpTimerActive = false)
    {t : SysTimeo} {rest : List SysTimeo} (hl : s.nextTimeout = t :: rest) :
    t.h ≠ .tcpipTcpTimer := by
  intro heq
  have hmem : t.h ∈ timers s.tcpipTcpTimerActive := h.mem_iff.mp (by simp [hl])
  rw [hactive, heq] at hmem
  exact absurd hmem (by decide)

/-- **`tcp_timer_needed`.** -/
lemma tcpTimerNeeded_spec (ht : Timed t₀ seen L s) (hcomplete : Complete s) (pcbs : Bool) :
    ∃ s', tcpTimerNeeded s pcbs = .ok s' ∧ Timed t₀ seen L s' ∧ Complete s' ∧
      s'.clock = s.clock ∧ s'.calls = s.calls ∧ (s'.nextTimeout = s.nextTimeout ∨
        s.tcpipTcpTimerActive = false ∧ Insertion (s.clock - L) 250 .tcpipTcpTimer
          (entries s.nextTimeout) (entries s'.nextTimeout)) := by
  by_cases hneeded : (!s.tcpipTcpTimerActive && pcbs) = true
  · have hactive : s.tcpipTcpTimerActive = false := by
      rw [Bool.and_eq_true, Bool.not_eq_true'] at hneeded
      exact hneeded.1
    obtain ⟨t, rest, hl⟩ := complete_ne_nil hcomplete
    have hlength := hcomplete.length_eq
    have htime := ht.cyclic (t.time.toNat, t.h) (by simp [hl]) (hcomplete.cyclic_first hactive hl)
    rw [Complete, hactive] at hcomplete
    have hdiff := ht.diff_le hl
    have hset : Timed t₀ seen L { s with tcpipTcpTimerActive := true } := { ht with }
    have htwo : (timers false).length = 2 := rfl
    simp only [entries, List.length_map, hactive, htwo] at hlength
    obtain ⟨l, hrun, hi, hnew⟩ := hset.schedule (h := .tcpipTcpTimer)
      (by simp only [hl]; exact List.cons_ne_nil _ _)
      (by simp only [hlength]; decide) (by simp only at htime ⊢; omega)
      (fun h => absurd rfl h) (fun _ => rfl)
    refine ⟨_, ?_, hnew, ?_, rfl, rfl, Or.inr ⟨hactive, hi⟩⟩
    · rw [tcpTimerNeeded, if_pos hneeded]
      exact hrun
    · exact hi.perm.trans (hcomplete.cons _)
  · exact ⟨s, by rw [tcpTimerNeeded, if_neg hneeded], ht, hcomplete, rfl, rfl, Or.inl rfl⟩

lemma tapifInput_spec {rs : List Registration} (ht : Timed t₀ seen L s) (hcomplete : Complete s)
    (hrs : s.clock + (rs.map Registration.after).sum ≤ seen + 2 * maxPass) :
    ∃ s', tapifInput s rs = .ok s' ∧ Timed t₀ seen L s' ∧ Complete s' ∧
      s'.clock = s.clock + (rs.map Registration.after).sum ∧ s'.calls = s.calls := by
  induction rs generalizing s with
  | nil => exact ⟨s, rfl, ht, hcomplete, rfl, rfl⟩
  | cons r rs ih =>
    rw [List.map_cons, List.sum_cons] at hrs ⊢
    obtain ⟨s₁, hrun₁, ht₁, hcomplete₁, hclock₁, hcalls₁, -⟩ :=
      tcpTimerNeeded_spec (ht.elapse (n := r.after) (by omega)) hcomplete r.pcbs
    have hclock : s₁.clock = s.clock + r.after := hclock₁
    obtain ⟨s', hrun', ht', hcomplete', hclock', hcalls'⟩ := ih ht₁ hcomplete₁ (by omega)
    refine ⟨s', ?_, ht', hcomplete', by omega, hcalls'.trans hcalls₁⟩
    rw [tapifInput, hrun₁, ok_bind, hrun']

/-- **One pass of the main loop**: a time is waited, connections may be registered, and then the
timers are checked. -/
lemma mainPass_spec (ht : Timed t₀ seen L s) (hcomplete : Complete s)
    (hclock : s.clock ≤ seen + maxPass) {p : Pass} (hp : p.duration ≤ maxPass) :
    ∃ s₁ s' L', tapifSelect s p = .ok s₁ ∧ mainPass s p = .ok s' ∧ s₁.calls = s.calls ∧
      s₁.clock = s.clock + p.wait + ((p.input.getD []).map Registration.after).sum ∧
      Checked t₀ seen s₁.clock L s₁ p.work L' s' ∧ Timed t₀ s₁.clock L' s' ∧ Complete s' ∧
      s'.clock ≤ s₁.clock + maxPass := by
  obtain ⟨wait, input, work⟩ := p
  rw [Pass.duration] at hp
  simp only at hp
  have ht₀ := ht.elapse (n := wait) (by omega)
  have hclock₀ : (elapse s wait).clock = s.clock + wait := rfl
  obtain ⟨s₁, hrun₁, ht₁, hcomplete₁, hclock₁, hcalls₁⟩ : ∃ s₁,
      tapifSelect s ⟨wait, input, work⟩ = .ok s₁ ∧ Timed t₀ seen L s₁ ∧ Complete s₁ ∧
        s₁.clock = s.clock + wait + ((input.getD []).map Registration.after).sum ∧
        s₁.calls = s.calls := by
    cases input with
    | none => exact ⟨elapse s wait, rfl, ht₀, hcomplete, rfl, rfl⟩
    | some rs =>
      simp only [Option.getD_some] at hp
      have hrs : (elapse s wait).clock + (rs.map Registration.after).sum ≤ seen + 2 * maxPass := by
        omega
      exact tapifInput_spec ht₀ hcomplete hrs
  obtain ⟨s', L', hrun, hchecked, ht', hcomplete'⟩ := sysCheckTimeouts_spec ht₁ hcomplete₁
    (show _ + (work.map Work.duration).sum ≤ _ by omega) (by omega)
  have hwork := hchecked.clock
  refine ⟨s₁, s', L', hrun₁, ?_, hcalls₁, hclock₁, hchecked, ht', hcomplete', by omega⟩
  rw [mainPass, hrun₁, ok_bind, hrun]

/-- When `select` has waited as long as it should, the first timer is due. -/
lemma Timed.due_of_wait (ht : Timed t₀ seen L s) (hcomplete : Complete s) {n : ℕ}
    (hn : (sysTimeoutsSleeptime s).toNat ≤ n) : ∃ e ∈ agenda L s, e.1 ≤ s.clock + n := by
  obtain ⟨t, rest, hl⟩ := complete_ne_nil hcomplete
  refine ⟨(L + t.time.toNat, t.h), by simp [agenda, hl], ?_⟩
  have hdiff := (ht.clocked (by rw [hl]; exact List.cons_ne_nil _ _)).diff
  have hle := ht.le
  simp only [sysTimeoutsSleeptime, hl] at hn
  by_cases hover : sysNow s - s.timeoutsLastTime > t.time
  · have := UInt32.lt_iff_toNat_lt.mp hover
    simp only
    omega
  · rw [if_neg hover, UInt32.toNat_sub_of_le _ _ (UInt32.not_lt.mp hover)] at hn
    simp only
    omega

/-- What the second call of `sys_timeout` in `sys_timeouts_init` finds. -/
def oneTimer (t₀ x y : ℕ) : Timeouts :=
  ⟨[⟨1000, reass⟩], UInt32.ofNat (t₀ + x), false, 3, t₀ + x + y, []⟩

lemma sysTimeoutsInit_eq (t₀ : ℕ) (ticks : List ℕ) : sysTimeoutsInit (noTimeouts t₀) ticks = (do
    let s ← sysTimeout (oneTimer t₀ (ticks.headD 0) (ticks.tail.headD 0)) 1000 arp
    .ok { s with clock := s.clock + ticks.tail.tail.headD 0
                 timeoutsLastTime := UInt32.ofNat (s.clock + ticks.tail.tail.headD 0) }) := rfl

lemma headD_le {l : List ℕ} {n : ℕ} (h : ∀ m ∈ l, m ≤ n) : l.headD 0 ≤ n := by
  cases l with
  | nil => exact Nat.zero_le _
  | cons m l => exact h m List.mem_cons_self

/-- **`sys_timeouts_init`** puts the two cyclic timers in the list, one right behind the other. -/
lemma sysTimeoutsInit_spec {ticks : List ℕ} (hticks : ∀ n ∈ ticks, n ≤ maxPass) (t₀ : ℕ) :
    ∃ s k, sysTimeoutsInit (noTimeouts t₀) ticks = .ok s ∧ Timed t₀ s.clock s.clock s ∧
      Complete s ∧ s.calls = [] ∧ entries s.nextTimeout = [(1000, reass), (k, arp)] ∧
      s.clock = t₀ + ticks.headD 0 + ticks.tail.headD 0 + ticks.tail.tail.headD 0 ∧
      (k = ticks.tail.headD 0 ∨ 1000 < ticks.tail.headD 0) := by
  have hbound : ticks.tail.headD 0 ≤ 2 ^ 29 :=
    headD_le fun n hn => hticks n (List.mem_of_mem_tail hn)
  rw [sysTimeoutsInit_eq]
  generalize ticks.headD 0 = x, ticks.tail.headD 0 = y, ticks.tail.tail.headD 0 = z at hbound ⊢
  have hdiff : (oneTimer t₀ x y).clock - (t₀ + x) = y := Nat.add_sub_cancel_left ..
  have hclocked : Clocked (oneTimer t₀ x y) (t₀ + x) := ⟨rfl, Nat.le_add_right .., by omega⟩
  have hms : 2 * (1000 : UInt32).toNat < 2 ^ 32 := by decide
  have hfits : (1000 : UInt32).toNat + ((oneTimer t₀ x y).clock - (t₀ + x)) < 2 ^ 32 := by
    rw [hdiff]
    exact Nat.add_lt_of_lt_sub' (lt_of_le_of_lt hbound (by decide))
  obtain ⟨l, hrun, hi⟩ := sysTimeout_spec hclocked (by simp [oneTimer]) (List.cons_ne_nil _ _) hms
    hfits arp
  have hi' : Insertion y 1000 arp [(1000, reass)] (entries l) := by
    rw [hdiff] at hi
    exact hi
  obtain ⟨k, hk, hl⟩ : ∃ k, (1000 + k = 1000 + y ∧ k ≤ 1000 ∨ 1000 < y ∧ k = 1000 + 1000) ∧
      entries l = [(1000, reass), (k, arp)] := by
    rcases hi'.of_single with ⟨hlt, -⟩ | ⟨k, -, hk, hl⟩
    · exact absurd hlt (Nat.lt_irrefl _)
    · exact ⟨k, hk, hl⟩
  have hlength : l.length = 2 := by simpa [entries] using congrArg List.length hl
  refine ⟨⟨l, UInt32.ofNat (t₀ + x + y + z), false, 2, t₀ + x + y + z, []⟩, k, ?_, ?_, ?_, rfl, hl,
    rfl, by omega⟩
  · rw [hrun]
    rfl
  · refine ⟨rfl, le_rfl, le_rfl, Nat.le_add_right .., ?_, ?_, ?_, ?_, ?_, ?_, ?_⟩
    · simp only [agenda, hl, dues_cons, dues_nil, List.mem_cons, List.not_mem_nil, or_false]
      rintro e (rfl | rfl) <;> simp only <;> omega
    · simp only [hl, List.mem_cons, List.not_mem_nil, or_false]
      rintro e (rfl | rfl) - <;> simp only <;> omega
    · simp only [hl, List.mem_cons, List.not_mem_nil, or_false]
      rintro e (rfl | rfl) <;> simp only <;> omega
    · simp only [hlength, numSysTimeout]
    · simp only [agenda, hl, dues_cons, dues_nil, List.mem_cons, List.not_mem_nil, or_false]
      rintro e (rfl | rfl) <;> simp [callsOf, Handler.tmr, reass, arp, Tmr.interval] <;> omega
    · intro f
      simp only [callsOf, List.map_nil, List.count_nil]
      omega
    · intro pre c f hpre
      exact absurd hpre (by simp)
  · simp only [Complete, hl]
    exact List.Perm.refl _

/-- `sys_timeouts_init` at `t₀`, and then the main loop. -/
def runMain (t₀ : ℕ) (ticks : List ℕ) (ps : List Pass) : Except TimerFault Timeouts := do
  let s ← sysTimeoutsInit (noTimeouts t₀) ticks
  exec mainPass s ps

/-- No step of the set-up and no pass takes longer than `maxPass`. -/
structure Timely (ticks : List ℕ) (ps : List Pass) : Prop where
  ticks : ∀ n ∈ ticks, n ≤ maxPass
  passes : ∀ p ∈ ps, p.duration ≤ maxPass

lemma runMain_spec {ticks : List ℕ} {ps : List Pass} (h : Timely ticks ps) (t₀ : ℕ) :
    ∃ s, runMain t₀ ticks ps = .ok s ∧ Between t₀ s := by
  obtain ⟨s₀, k, hinit, ht₀, hcomplete₀, -⟩ := sysTimeoutsInit_spec h.ticks t₀
  rw [runMain, hinit, ok_bind]
  refine exec_total (Q := Between t₀) (P := fun _ p => p.duration ≤ maxPass) (fun s p hs hp => ?_)
    ⟨s₀.clock, s₀.clock, ht₀, hcomplete₀, Nat.le_add_right ..⟩ (along_of_forall_mem h.passes)
  obtain ⟨seen, L, ht, hcomplete, hclock⟩ := hs
  obtain ⟨s₁, s', L', -, hrun, -, -, -, hs'⟩ := mainPass_spec ht hcomplete hclock hp
  exact ⟨s', hrun, s₁.clock, L', hs'⟩

lemma between_of_run {ticks : List ℕ} {ps : List Pass} (h : Timely ticks ps) {t₀ : ℕ}
    {s : Timeouts} (hrun : runMain t₀ ticks ps = .ok s) : Between t₀ s := by
  obtain ⟨s', hrun', hs'⟩ := runMain_spec h t₀
  rwa [Except.ok.inj (hrun.symm.trans hrun')]

/-- **The timers are kept.**  Whatever time it is when the stack is set up, and whatever comes in
and however late the timers are checked, up to six days: the main loop goes on (the loop of
`sys_check_timeouts` ends, and the pool of timeouts is never empty), and at any time each of the
two cyclic timers is in the list exactly once, and the TCP timer exactly if it is marked as active;
nothing else is in the list, and no element of the pool is lost. -/
theorem timers_kept {ticks : List ℕ} {ps : List Pass} (h : Timely ticks ps) (t₀ : ℕ) :
    ∃ s, runMain t₀ ticks ps = .ok s ∧
      (s.nextTimeout.map SysTimeo.h).Perm (timers s.tcpipTcpTimerActive) ∧
      s.pool + s.nextTimeout.length = numSysTimeout := by
  obtain ⟨s, hrun, seen, L, ht, hcomplete, -⟩ := runMain_spec h t₀
  refine ⟨s, hrun, ?_, ht.pool⟩
  simpa [Complete, entries, Function.comp_def] using hcomplete

/-- A connection is opened in the first pass, long after the first timers were due, and is gone when
the TCP timer is called for the second time. -/
def lateConnection : List Pass :=
  [⟨3000, some [⟨5, true⟩, ⟨0, true⟩], [⟨2, true⟩]⟩, ⟨2247, none, [⟨1, true⟩, ⟨0, true⟩]⟩,
    ⟨900, none, []⟩]

lemma timely_lateConnection : Timely [0, 1, 2] lateConnection := by
  constructor <;> decide

theorem timers_kept_lateConnection :
    ∃ s, runMain (2 ^ 32 - 10) [0, 1, 2] lateConnection = .ok s ∧
      (s.nextTimeout.map SysTimeo.h).Perm (timers s.tcpipTcpTimerActive) ∧
      s.pool + s.nextTimeout.length = numSysTimeout :=
  timers_kept timely_lateConnection _

lemma exists_of_toOption {α β : Type} {x : Except TimerFault α} {obs : α → β} {b : β}
    (h : x.toOption.map obs = some b) : ∃ a, x = .ok a ∧ obs a = b := by
  cases x with
  | error e => cases h
  | ok a => exact ⟨a, rfl, Option.some.inj h⟩

lemma timely_take (k : ℕ) : Timely [0, 1, 2] (lateConnection.take k) :=
  ⟨timely_lateConnection.ticks, fun p hp =>
    timely_lateConnection.passes p (List.mem_of_mem_take hp)⟩

/-- **The timers do not run ahead of the clock.**  In every run of the main loop in which no step of
the set-up and no pass takes longer than six days, a timer function is called for the `k`-th time
no earlier than `k` times its interval after the set-up: what was missed while the loop was late is
caught up with, but never more than that. -/
theorem timers_not_ahead {t₀ : ℕ} {ticks : List ℕ} {ps : List Pass} {s : Timeouts}
    (h : Timely ticks ps) (hrun : runMain t₀ ticks ps = .ok s) {pre : List (ℕ × Tmr)} {t : ℕ}
    {f : Tmr} (hpre : pre ++ [(t, f)] <+: s.calls) :
    t₀ + (callsOf f pre + 1) * f.interval.toNat ≤ t := by
  obtain ⟨seen, L, ht, -⟩ := between_of_run h hrun
  exact ht.log pre t f hpre

theorem timers_not_ahead_lateConnection :
    ∃ s, runMain (2 ^ 32 - 10) [0, 1, 2] lateConnection = .ok s ∧
      [(4294972541, Tmr.tcpTmr)] ++ [(4294973442, .tcpTmr)] <+: s.calls ∧
      2 ^ 32 - 10 + (callsOf .tcpTmr [(4294972541, .tcpTmr)] + 1) * Tmr.tcpTmr.interval.toNat
        ≤ 4294973442 := by
  have hrun : (runMain (2 ^ 32 - 10) [0, 1, 2] lateConnection).toOption.map
      (fun s => s.calls.take 2) = some [(4294972541, .tcpTmr), (4294973442, .tcpTmr)] := by
    decide +kernel
  obtain ⟨s, hs, hcalls⟩ := exists_of_toOption hrun
  have hpre : [(4294972541, Tmr.tcpTmr)] ++ [(4294973442, .tcpTmr)] <+: s.calls :=
    (List.singleton_append ▸ hcalls : s.calls.take 2 = _) ▸ List.take_prefix 2 s.calls
  exact ⟨s, hs, hpre, timers_not_ahead timely_lateConnection hs hpre⟩

/-- **The main loop does not spin.**  In every state of the main loop, as long as no step of the
set-up and no pass takes longer than six days, if `select` finds no frame and has waited as long as
`sys_timeouts_sleeptime` says, the check after it calls a timer. -/
theorem pass_calls {t₀ : ℕ} {ticks : List ℕ} {ps : List Pass} {s : Timeouts}
    (h : Timely ticks ps) (hrun : runMain t₀ ticks ps = .ok s) {p : Pass}
    (hp : p.duration ≤ maxPass) (hinput : p.input = none)
    (hwait : (sysTimeoutsSleeptime s).toNat ≤ p.wait) :
    ∃ s' c cs, mainPass s p = .ok s' ∧ s'.calls = s.calls ++ c :: cs := by
  obtain ⟨seen, L, ht, hcomplete, hclock⟩ := between_of_run h hrun
  obtain ⟨s₁, s', L', hselect, hpass, hcalls, -, hchecked, ht', -, -⟩ :=
    mainPass_spec ht hcomplete hclock hp
  have hs₁ : s₁ = elapse s p.wait := by
    rw [tapifSelect, hinput] at hselect
    exact (Except.ok.inj hselect).symm
  obtain ⟨e, he, hdue⟩ := ht.due_of_wait hcomplete hwait
  have hne : s₁.calls ≠ s'.calls := hchecked.calls_ne ht'.due (e := e) (by rw [hs₁]; exact he)
    (by rw [hs₁]; exact hdue)
  obtain ⟨rest, hrest⟩ := hchecked.calls
  rw [hcalls] at hrest hne
  cases rest with
  | nil => exact absurd ((List.append_nil _).symm.trans hrest) hne
  | cons c cs => exact ⟨s', c, cs, hpass, hrest.symm⟩

theorem pass_calls_lateConnection :
    ∃ s, runMain (2 ^ 32 - 10) [0, 1, 2] (lateConnection.take 1) = .ok s ∧
      ∃ s' c cs, mainPass s ⟨2247, none, []⟩ = .ok s' ∧ s'.calls = s.calls ++ c :: cs := by
  have hrun : (runMain (2 ^ 32 - 10) [0, 1, 2] (lateConnection.take 1)).toOption.map
      (fun s => (sysTimeoutsSleeptime s).toNat) = some 250 := by decide +kernel
  obtain ⟨s, hs, hsleep⟩ := exists_of_toOption hrun
  exact ⟨s, hs, pass_calls (timely_take 1) hs (by decide) rfl (by rw [hsleep]; decide)⟩

/-- The TCP timer is started and comes first in the list. -/
def registered (s : Timeouts) (t : SysTimeo) (rest : List SysTimeo) : Timeouts :=
  { s with
    tcpipTcpTimerActive := true, pool := s.pool - 1
    nextTimeout := ⟨250 + (sysNow s - s.timeoutsLastTime), .tcpipTcpTimer⟩
      :: { t with time := t.time - 250 } :: rest }

lemma tcpTimerNeeded_front (hactive : s.tcpipTcpTimerActive = false) (hpool : s.pool ≠ 0)
    {t : SysTimeo} {rest : List SysTimeo} (hl : s.nextTimeout = t :: rest) (hlong : 250 < t.time) :
    tcpTimerNeeded s true = .ok (registered s t rest) := by
  simp only [tcpTimerNeeded, hactive, Bool.not_false, Bool.and_self, if_true, sysTimeout,
    if_neg hpool, hl, Tmr.interval, gt_iff_lt, if_pos hlong, sysNow, registered]

/-- Registrations that do not start the TCP timer only take their time. -/
lemma tapifInput_of_inert {rs : List Registration}
    (h : ∀ r ∈ rs, (!s.tcpipTcpTimerActive && r.pcbs) = false) :
    tapifInput s rs = .ok (elapse s (rs.map Registration.after).sum) := by
  induction rs generalizing s with
  | nil => rfl
  | cons r rs ih =>
    obtain ⟨hr, hrs⟩ := List.forall_mem_cons.mp h
    have hstep : tcpTimerNeeded (elapse s r.after) r.pcbs = .ok (elapse s r.after) := by
      rw [tcpTimerNeeded, if_neg]
      rw [Bool.not_eq_true]
      exact hr
    rw [tapifInput, hstep, ok_bind, ih (s := elapse s r.after) hrs]
    simp [elapse, Nat.add_assoc]

lemma tapifInput_append (rs rs' : List Registration) :
    tapifInput s (rs ++ rs') = (do
      let s ← tapifInput s rs
      tapifInput s rs') := by
  induction rs generalizing s with
  | nil => rfl
  | cons r rs ih =>
    rw [List.cons_append, tapifInput, tapifInput]
    cases tcpTimerNeeded (elapse s r.after) r.pcbs with
    | error f => rfl
    | ok s₁ => exact ih

/-- **A connection puts the timers off.**  In every state of the main loop in which the TCP timer is
off and the first entry of the list has more than 250 ms: if a frame opens connections, however
overdue the timers are by then (up to six days for a pass), and less than 250 ms pass between the
first of them and the check, the check calls no timer, and all of them are put off by the time that
had passed since `timeouts_last_time` when the first connection was opened. -/
theorem registration_defers {t₀ : ℕ} {ticks : List ℕ} {ps : List Pass} {s : Timeouts}
    (h : Timely ticks ps) (hrun : runMain t₀ ticks ps = .ok s)
    (hactive : s.tcpipTcpTimerActive = false) {t : SysTimeo} {rest : List SysTimeo}
    (hl : s.nextTimeout = t :: rest) (hlong : 250 < t.time) {wait n : ℕ}
    {before after : List Registration} (hbefore : ∀ r ∈ before, r.pcbs = false)
    (hafter : (after.map Registration.after).sum < 250) (ws : List Work)
    (hpass : (Pass.mk wait (some (before ++ ⟨n, true⟩ :: after)) []).duration ≤ maxPass) :
    ∃ s', mainPass s ⟨wait, some (before ++ ⟨n, true⟩ :: after), ws⟩ = .ok s' ∧
      s'.calls = s.calls ∧ s'.timeoutsLastTime = s.timeoutsLastTime ∧
      s'.nextTimeout = ⟨250 + (UInt32.ofNat
          (s.clock + wait + (before.map Registration.after).sum + n) - s.timeoutsLastTime),
        .tcpipTcpTimer⟩ :: { t with time := t.time - 250 } :: rest := by
  simp only [Pass.duration, Option.getD_some, List.map_append, List.map_cons, List.sum_append,
    List.sum_cons, List.map_nil, List.sum_nil] at hpass
  obtain ⟨k, hk⟩ : ∃ k, k = wait + (before.map Registration.after).sum + n := ⟨_, rfl⟩
  obtain ⟨m, hm⟩ : ∃ m, m = (after.map Registration.after).sum := ⟨_, rfl⟩
  rw [← hm] at hafter hpass
  have hclockk : s.clock + wait + (before.map Registration.after).sum + n = s.clock + k := by omega
  obtain ⟨seen, L, ht, hcomplete, hclock⟩ := between_of_run h hrun
  have htime : t.time.toNat ≤ 2000 + 2 * maxPass := by
    exact ht.cyclic (t.time.toNat, t.h) (by simp [hl]) (hcomplete.cyclic_first hactive hl)
  have hdiff : ∀ j, j ≤ maxPass →
      (UInt32.ofNat (s.clock + j) - s.timeoutsLastTime).toNat = s.clock + j - L ∧
        s.clock + j - L ≤ 2 * maxPass + t.time.toNat := by
    intro j hj
    have ht₁ := ht.elapse (n := j) (by omega)
    have hne : (elapse s j).nextTimeout ≠ [] := by simp [elapse, hl]
    exact ⟨(ht₁.clocked hne).diff, ht₁.diff_le hl⟩
  have hpool : s.pool ≠ 0 := by
    have := ht.pool
    have := timers_length_le s.tcpipTcpTimerActive
    have := hcomplete.length_eq
    simp only [List.length_map, entries, numSysTimeout] at *
    omega
  -- the TCP timer is put first and is not due yet
  have hlater : ¬ 250 + (UInt32.ofNat (s.clock + k) - s.timeoutsLastTime)
      ≤ UInt32.ofNat (s.clock + k + m) - s.timeoutsLastTime := by
    obtain ⟨hdiffk, hlek⟩ := hdiff k (by omega)
    obtain ⟨hdiffm, -⟩ := hdiff (k + m) (by omega)
    have hle := ht.le
    have hsum : (250 + (UInt32.ofNat (s.clock + k) - s.timeoutsLastTime)).toNat
        = 250 + (UInt32.ofNat (s.clock + k) - s.timeoutsLastTime).toNat := by
      refine toNat_add_of_lt ?_
      have h250 : (250 : UInt32).toNat = 250 := rfl
      simp only [maxPass] at hlek htime
      omega
    rw [UInt32.le_iff_toNat_le, hsum, Nat.add_assoc, hdiffm]
    omega
  have hinput : tapifInput (elapse s wait) (before ++ ⟨n, true⟩ :: after)
      = .ok (elapse (registered (elapse s k) t rest) m) := by
    have hk' : elapse (elapse (elapse s wait) (before.map Registration.after).sum) n
        = elapse s k := by
      rw [elapse, elapse, elapse, elapse, hclockk]
    have hneeded : tcpTimerNeeded (elapse s k) true = .ok (registered (elapse s k) t rest) :=
      tcpTimerNeeded_front (s := elapse s k) hactive hpool hl hlong
    rw [tapifInput_append, tapifInput_of_inert fun r hr => by rw [hbefore r hr, Bool.and_false],
      ok_bind, tapifInput, hk', hneeded, ok_bind, hm]
    exact tapifInput_of_inert fun r _ => rfl
  refine ⟨elapse (registered (elapse s k) t rest) m, ?_, rfl, rfl, by rw [hclockk]; rfl⟩
  show (tapifInput (elapse s wait) _ >>= fun s => sysCheckTimeouts s ws) = _
  rw [hinput, ok_bind]
  simp only [sysCheckTimeouts, elapse, registered, checkFuel, checkLoop, sysNow, if_neg hlater]

/-- Two connections are opened by a frame, long after the timers were due. -/
theorem registration_defers_overdue :
    ∃ s t rest, runMain (2 ^ 32 - 10) [0, 1, 2] [] = .ok s ∧ s.nextTimeout = t :: rest ∧
      ∃ s', mainPass s ⟨3000, some ([⟨1, false⟩] ++ ⟨5, true⟩ :: [⟨249, true⟩]), [⟨2, true⟩]⟩
          = .ok s' ∧ s'.calls = s.calls ∧ s'.timeoutsLastTime = s.timeoutsLastTime ∧
        s'.nextTimeout = ⟨250 + (UInt32.ofNat (s.clock + 3000 + ([1].sum) + 5)
          - s.timeoutsLastTime), .tcpipTcpTimer⟩ :: { t with time := t.time - 250 } :: rest := by
  have hrun : (runMain (2 ^ 32 - 10) [0, 1, 2] []).toOption.map
      (fun s => (s.tcpipTcpTimerActive, s.nextTimeout)) = some (false,
        [⟨1000, .cyclicTimer ⟨1000, .ipReassTmr⟩⟩, ⟨1, .cyclicTimer ⟨1000, .etharpTmr⟩⟩]) := by
    decide +kernel
  obtain ⟨s, hs, hobs⟩ := exists_of_toOption hrun
  obtain ⟨hactive, hl⟩ := Prod.mk.inj hobs
  exact ⟨s, _, _, hs, hl, registration_defers (timely_take 0) hs hactive hl (by decide) (by decide)
    (by decide) [⟨2, true⟩] (by decide)⟩

end Runs

end Lwip
end DeepForensics
