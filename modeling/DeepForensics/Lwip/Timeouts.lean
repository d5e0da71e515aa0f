/-
# The timers of lwIP

`timeouts.c` as it is compiled for the server: the list of timeouts, in which each entry has the
time that passes after the entry before it, and the three cyclic timers that are kept in it.  Times
are 32-bit numbers of milliseconds and wrap around, as in the source.

The clock is a natural number; `sys_now` gives its lower 32 bits.  The log of the timer functions
that have been called is not in the source.  What the timer functions do is left open: how long
they take, and whether there are TCP connections afterwards.
-/
import Mathlib.Algebra.Order.Ring.Nat
import Mathlib.Tactic.Common

namespace DeepForensics
namespace Lwip

/-- The functions that the timers call. -/
inductive Tmr where
  | tcpTmr
  | ipReassTmr
  | etharpTmr
deriving DecidableEq, Repr

/-- `struct lwip_cyclic_timer`. -/
structure CyclicTimer where
  intervalMs : UInt32
  handler : Tmr
deriving DecidableEq, Repr

/-- `TCP_TMR_INTERVAL`, `IP_TMR_INTERVAL` and `ARP_TMR_INTERVAL`. -/
def Tmr.interval : Tmr → UInt32
  | .tcpTmr => 250
  | .ipReassTmr => 1000
  | .etharpTmr => 1000

def lwipCyclicTimers : List CyclicTimer :=
  [⟨Tmr.tcpTmr.interval, .tcpTmr⟩, ⟨Tmr.ipReassTmr.interval, .ipReassTmr⟩,
    ⟨Tmr.etharpTmr.interval, .etharpTmr⟩]

/-- The function `h` of a timeout, with its argument. -/
inductive Handler where
  | tcpipTcpTimer
  | cyclicTimer (cyclic : CyclicTimer)
deriving DecidableEq, Repr

/-- `struct sys_timeo`; `next` is the rest of the list. -/
structure SysTimeo where
  time : UInt32
  h : Handler
deriving DecidableEq, Repr

inductive TimerFault where
  /-- `LWIP_ASSERT` in `sys_timeout`: the pool has no element left. -/
  | poolEmpty
  /-- The loop of `sys_check_timeouts` has not ended. -/
  | endless
deriving DecidableEq, Repr

structure Timeouts where
  nextTimeout : List SysTimeo
  timeoutsLastTime : UInt32
  tcpipTcpTimerActive : Bool
  /-- The elements of the pool `MEMP_SYS_TIMEOUT` that are not in use. -/
  pool : ℕ
  clock : ℕ
  /-- The timer functions called so far, each with the time of the call. -/
  calls : List (ℕ × Tmr)
deriving DecidableEq, Repr

/-- `MEMP_NUM_SYS_TIMEOUT`: one for TCP, reassembly and ARP each, and one more. -/
def numSysTimeout : ℕ := 4

def sysNow (s : Timeouts) : UInt32 := UInt32.ofNat s.clock

def elapse (s : Timeouts) (n : ℕ) : Timeouts := { s with clock := s.clock + n }

/-- The loop of `sys_timeout`, from the entry `t` on.  The entry to insert has `time` left;
`first` is the time of the first entry of the list. -/
def insertAfter (msecs first : UInt32) (h : Handler) :
    UInt32 → SysTimeo → List SysTimeo → List SysTimeo
  | time, t, [] =>
    let time := time - t.time
    [t, ⟨if time > msecs then msecs + first else time, h⟩]
  | time, t, next :: rest =>
    let time := time - t.time
    if next.time > time then
      t :: ⟨time, h⟩ :: { next with time := next.time - time } :: rest
    else
      t :: insertAfter msecs first h time next rest

def sysTimeout (s : Timeouts) (msecs : UInt32) (h : Handler) : Except TimerFault Timeouts :=
  if s.pool = 0 then .error .poolEmpty
  else
    let s := { s with pool := s.pool - 1 }
    match s.nextTimeout with
    | [] =>
      -- here `diff` is 0
      .ok { s with nextTimeout := [⟨msecs, h⟩], timeoutsLastTime := sysNow s }
    | next :: rest =>
      let time := msecs + (sysNow s - s.timeoutsLastTime)
      if next.time > msecs then
        .ok { s with nextTimeout := ⟨time, h⟩ :: { next with time := next.time - msecs } :: rest }
      else
        .ok { s with nextTimeout := insertAfter msecs next.time h time next rest }

/-- What one timer function does: the time it takes, and whether `tcp_active_pcbs` or
`tcp_tw_pcbs` is set after it. -/
structure Work where
  duration : ℕ
  pcbs : Bool
deriving DecidableEq, Repr

/-- A call of a timer function. -/
def run (s : Timeouts) (f : Tmr) (w : Work) : Timeouts :=
  { elapse s w.duration with calls := s.calls ++ [(s.clock, f)] }

def tcpipTcpTimer (s : Timeouts) (w : Work) : Except TimerFault Timeouts :=
  let s := run s .tcpTmr w
  if w.pcbs then sysTimeout s Tmr.tcpTmr.interval .tcpipTcpTimer
  else .ok { s with tcpipTcpTimerActive := false }

def tcpTimerNeeded (s : Timeouts) (pcbs : Bool) : Except TimerFault Timeouts :=
  if !s.tcpipTcpTimerActive && pcbs then
    sysTimeout { s with tcpipTcpTimerActive := true } Tmr.tcpTmr.interval .tcpipTcpTimer
  else .ok s

def cyclicTimer (cyclic : CyclicTimer) (s : Timeouts) (w : Work) : Except TimerFault Timeouts :=
  sysTimeout (run s cyclic.handler w) cyclic.intervalMs (.cyclicTimer cyclic)

def Handler.call : Handler → Timeouts → Work → Except TimerFault Timeouts
  | .tcpipTcpTimer => Lwip.tcpipTcpTimer
  | .cyclicTimer cyclic => Lwip.cyclicTimer cyclic

/-- The loop of `sys_timeouts_init`, with the time that passes before each call and at the end. -/
def initLoop (s : Timeouts) : List CyclicTimer → List ℕ → Except TimerFault Timeouts
  | [], ticks => .ok (elapse s (ticks.headD 0))
  | c :: cs, ticks => do
    let s ← sysTimeout (elapse s (ticks.headD 0)) c.intervalMs (.cyclicTimer c)
    initLoop s cs ticks.tail

/-- `sys_timeouts_init`; the first timer, `tcp_tmr`, is started on demand. -/
def sysTimeoutsInit (s : Timeouts) (ticks : List ℕ) : Except TimerFault Timeouts := do
  let s ← initLoop s lwipCyclicTimers.tail ticks
  .ok { s with timeoutsLastTime := sysNow s }

/-- The list before `sys_timeouts_init`. -/
def noTimeouts (clock : ℕ) : Timeouts := ⟨[], 0, false, numSysTimeout, clock, []⟩

/-- The first entry `t` is taken from the list and put back in the pool. -/
def takeFirst (s : Timeouts) (t : SysTimeo) (rest : List SysTimeo) : Timeouts :=
  { s with timeoutsLastTime := s.timeoutsLastTime + t.time
           nextTimeout := rest
           pool := s.pool + 1 }

/-- The loop of `sys_check_timeouts`.  The timer functions that are called do the work given, one
after the other; beyond the list they take no time. -/
def checkLoop : ℕ → UInt32 → List Work → Timeouts → Except TimerFault Timeouts
  | 0, _, _, _ => .error .endless
  | fuel + 1, diff, ws, s =>
    match s.nextTimeout with
    | [] => .ok s
    | t :: rest =>
      if t.time ≤ diff then do
        let s ← t.h.call (takeFirst s t rest) (ws.headD ⟨0, false⟩)
        checkLoop fuel (diff - t.time) ws.tail s
      else .ok s

/-- More calls than any timer can get in `diff` milliseconds. -/
def checkFuel (diff : UInt32) : ℕ := 3 * (diff.toNat / 250 + 1) + 1

def sysCheckTimeouts (s : Timeouts) (ws : List Work) : Except TimerFault Timeouts :=
  match s.nextTimeout with
  | [] => .ok s
  | _ :: _ =>
    let diff := sysNow s - s.timeoutsLastTime
    checkLoop (checkFuel diff) diff ws s

def sysTimeoutsSleeptime (s : Timeouts) : UInt32 :=
  match s.nextTimeout with
  | [] => 0xffffffff
  | t :: _ =>
    let diff := sysNow s - s.timeoutsLastTime
    if diff > t.time then 0 else t.time - diff

/-! ## The main loop -/

/-- A call of `tcp_timer_needed` (by `TCP_REG`) while a frame is processed, and the time before
it. -/
structure Registration where
  after : ℕ
  pcbs : Bool
deriving DecidableEq, Repr

/-- One pass of the loop in `main`: how long `select` waits, what the frame that it finds leads to,
if it finds one, and what the timer functions do. -/
structure Pass where
  wait : ℕ
  input : Option (List Registration)
  work : List Work
deriving DecidableEq, Repr

def Pass.duration (p : Pass) : ℕ :=
  p.wait + ((p.input.getD []).map Registration.after).sum + (p.work.map Work.duration).sum

/-- `tapif_input`, as far as the timers are concerned. -/
def tapifInput (s : Timeouts) : List Registration → Except TimerFault Timeouts
  | [] => .ok s
  | r :: rs => do
    let s ← tcpTimerNeeded (elapse s r.after) r.pcbs
    tapifInput s rs

/-- `tapif_select`; the time it waits at most is `sysTimeoutsSleeptime`. -/
def tapifSelect (s : Timeouts) (p : Pass) : Except TimerFault Timeouts :=
  match p.input with
  | none => .ok (elapse s p.wait)
  | some rs => tapifInput (elapse s p.wait) rs

def mainPass (s : Timeouts) (p : Pass) : Except TimerFault Timeouts := do
  let s ← tapifSelect s p
  sysCheckTimeouts s p.work

end Lwip
end DeepForensics
