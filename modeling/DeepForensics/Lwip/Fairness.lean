/-
# No timer starves

`sys_timeout` can put a timer in front of another one that is due earlier, and it puts the others
off when it does so.  Still no cyclic timer waits for ever.  A timer that goes to the front takes
its interval from the entry behind it; the time that is put off is not taken from anywhere, but it
is bounded by the entry in front.  So five times what is left up to a timer, without the TCP timer,
pays for all the time by which it can still be put off (`Waits`).
-/
import DeepForensics.Lwip.MainLoop

namespace DeepForensics
namespace Lwip

open Deltas Runs

/-- The times of the entries up to `x`, `x` included, as far as `p` selects them. -/
def along (p : Handler → Bool) (x : Handler) : List (ℕ × Handler) → ℕ
  | [] => 0
  | (n, y) :: l => (if p y then n else 0) + if y = x then 0 else along p x l

def Handler.isCyclic : Handler → Bool
  | .tcpipTcpTimer => false
  | .cyclicTimer _ => true

@[simp] lemma isCyclic_tcp : Handler.tcpipTcpTimer.isCyclic = false := rfl

lemma along_self (p : Handler → Bool) (n : ℕ) (x : Handler) (l : List (ℕ × Handler)) :
    along p x ((n, x) :: l) = if p x then n else 0 := by
  simp [along]

lemma along_of_ne (p : Handler → Bool) {x z : Handler} (hz : z ≠ x) (n : ℕ)
    (l : List (ℕ × Handler)) : along p x ((n, z) :: l) = (if p z then n else 0) + along p x l := by
  simp [along, hz]

/-- The time of all entries up to `x`. -/
abbrev ahead (x : Handler) (l : List (ℕ × Handler)) : ℕ := along (fun _ => true) x l

/-- The time of all cyclic timers up to `x`. -/
abbrev cyclicAhead (x : Handler) (l : List (ℕ × Handler)) : ℕ := along Handler.isCyclic x l

/-- The time of the entry `x` itself. -/
abbrev own (x : Handler) (l : List (ℕ × Handler)) : ℕ := along (fun y => decide (y = x)) x l

/-- The timer `x` is called before `limit`, by whatever it is still put off. -/
structure Waits (x : Handler) (limit L : ℕ) (l : List (ℕ × Handler)) : Prop where
  soon : L + ahead x l + 5 * cyclicAhead x l ≤ limit
  near : cyclicAhead x l ≤ 1150
  /-- The other cyclic timer can still get in front, once. -/
  spare : 1000 < own x l →
    L + ahead x l + 5 * cyclicAhead x l + 300 ≤ limit ∧ cyclicAhead x l ≤ 1100

/-- The TCP timer is first, or follows soon after the entry in front of it. -/
def TcpSoon (l : List (ℕ × Handler)) : Prop := ∀ e ∈ l.tail, e.2 = .tcpipTcpTimer → e.1 ≤ 550

/-- The two cyclic timers, in one order or the other. -/
structure Pair (x y : Handler) : Prop where
  left : x.isCyclic = true
  right : y.isCyclic = true
  ne : x ≠ y

section Steps

variable {x y : Handler} {limit L diff : ℕ} {q' : List (ℕ × Handler)}

lemma ne_tcp {z : Handler} (hz : z.isCyclic = true) : Handler.tcpipTcpTimer ≠ z := by
  rintro rfl
  cases hz

/-- The first entry, another one, is taken away. -/
lemma Waits.tail {n : ℕ} {z : Handler} {l : List (ℕ × Handler)} (hz : z ≠ x)
    (h : Waits x limit L ((n, z) :: l)) : Waits x limit (L + n) l := by
  obtain ⟨hsoon, hnear, hspare⟩ := h
  simp only [ahead, cyclicAhead, own, along_of_ne _ hz, if_true, hz, decide_false,
    Bool.false_eq_true, if_false] at hsoon hnear hspare
  constructor <;> simp only [ahead, cyclicAhead, own] <;> omega

/-- The TCP timer is put in the list. -/
lemma Waits.insert_tcp (hp : Pair x y) {n₁ n₂ : ℕ} {h₁ h₂ : Handler}
    (horder : h₁ = x ∧ h₂ = y ∨ h₁ = y ∧ h₂ = x)
    (h : Waits x limit L [(n₁, h₁), (n₂, h₂)]) (hdiff : diff ≤ n₁ + 50)
    (hi : Insertion diff 250 .tcpipTcpTimer [(n₁, h₁), (n₂, h₂)] q') : Waits x limit L q' := by
  obtain ⟨hsoon, hnear, hspare⟩ := h
  have hx := ne_tcp hp.left
  have hy := ne_tcp hp.right
  have hne := hp.ne.symm
  rcases horder with ⟨rfl, rfl⟩ | ⟨rfl, rfl⟩
  · simp only [along_self, hp.left, if_true] at hsoon hnear hspare
    rcases hi.of_pair with ⟨hlt, rfl⟩ | ⟨k, hle, hk, hlt, rfl⟩ | ⟨k, hle, hk, rfl⟩ <;>
      constructor <;> simp [along_self, along_of_ne _ hx, hp.left, hx] <;> omega
  · simp [along_self, along_of_ne _ hne, hp.left, hp.right, hne] at hsoon hnear hspare
    rcases hi.of_pair with ⟨hlt, rfl⟩ | ⟨k, hle, hk, hlt, rfl⟩ | ⟨k, hle, hk, rfl⟩ <;>
      constructor <;>
        simp [along_self, along_of_ne _ hx, along_of_ne _ hne, hp.left, hp.right, hx, hne] <;> omega

lemma tcpSoon_insert_tcp (hp : Pair x y) {n₁ n₂ : ℕ} {h₁ h₂ : Handler}
    (horder : h₁ = x ∧ h₂ = y ∨ h₁ = y ∧ h₂ = x) (hdiff : diff ≤ n₁ + 50)
    (hi : Insertion diff 250 .tcpipTcpTimer [(n₁, h₁), (n₂, h₂)] q') : TcpSoon q' := by
  have hx := ne_tcp hp.left
  have hy := ne_tcp hp.right
  have hne₁ : h₁ ≠ .tcpipTcpTimer := by
    rcases horder with ⟨rfl, -⟩ | ⟨rfl, -⟩
    · exact hx.symm
    · exact hy.symm
  have hne₂ : h₂ ≠ .tcpipTcpTimer := by
    rcases horder with ⟨-, rfl⟩ | ⟨-, rfl⟩
    · exact hy.symm
    · exact hx.symm
  rcases hi.of_pair with ⟨hlt, rfl⟩ | ⟨k, hle, hk, hlt, rfl⟩ | ⟨k, hle, hk, rfl⟩ <;>
    simp [TcpSoon, hne₁, hne₂] <;> omega

lemma tcpSoon_insert_cyclic {msecs : ℕ} {q : List (ℕ × Handler)} (hx : x.isCyclic = true)
    (htcp : ∀ e ∈ q, e.2 = .tcpipTcpTimer → e.1 ≤ 550)
    (hi : Insertion diff msecs x q q') : TcpSoon q' := by
  intro e he heq
  rcases hi.time_le (List.mem_of_mem_tail he) with ⟨hself, -⟩ | ⟨e₀, he₀, hhandler, hle⟩
  · exact absurd (heq.symm.trans hself) (ne_tcp hx)
  · exact hle.trans (htcp e₀ he₀ (hhandler ▸ heq))

/-- A cyclic timer with or without the TCP timer. -/
inductive Alone (x : Handler) : List (ℕ × Handler) → Prop
  | one (n : ℕ) : Alone x [(n, x)]
  | first (n m : ℕ) : Alone x [(n, x), (m, .tcpipTcpTimer)]
  | second (n m : ℕ) (hm : m ≤ 550) : Alone x [(m, .tcpipTcpTimer), (n, x)]

/-- The other cyclic timer is put in the list. -/
lemma Waits.insert_other (hp : Pair x y) {q : List (ℕ × Handler)} (hq : Alone x q)
    (h : Waits x limit L q) (hdiff : diff ≤ 50) (hi : Insertion diff 1000 y q q') :
    Waits x limit L q' := by
  obtain ⟨hsoon, hnear, hspare⟩ := h
  have hx := ne_tcp hp.left
  have hne := hp.ne.symm
  cases hq with
  | one n =>
    simp only [along_self, hp.left, if_true, decide_true] at hsoon hnear hspare
    rcases hi.of_single with ⟨hlt, rfl⟩ | ⟨k, hle, hk, rfl⟩ <;> constructor <;>
      simp [along_self, along_of_ne _ hne, hp.left, hp.right, hne] <;> omega
  | first n m =>
    simp only [along_self, hp.left, if_true, decide_true] at hsoon hnear hspare
    rcases hi.of_pair with ⟨hlt, rfl⟩ | ⟨k, hle, hk, hlt, rfl⟩ | ⟨k, hle, hk, rfl⟩ <;>
      constructor <;> simp [along_self, along_of_ne _ hne, hp.left, hp.right, hne] <;> omega
  | second n m hm =>
    simp [along_self, along_of_ne _ hx, hp.left, hx] at hsoon hnear hspare
    rcases hi.of_pair with ⟨hlt, rfl⟩ | ⟨k, hle, hk, hlt, rfl⟩ | ⟨k, hle, hk, rfl⟩
    · omega
    · constructor <;>
        simp [along_self, along_of_ne _ hne, along_of_ne _ hx, hp.left, hp.right, hne, hx] <;> omega
    · constructor <;> simp [along_self, along_of_ne _ hx, hp.left, hx] <;> omega

/-- The timer itself is put in the list. -/
lemma waits_insert_self (hp : Pair x y) {q : List (ℕ × Handler)} (hq : Alone y q)
    (hdiff : diff ≤ 50) (hi : Insertion diff 1000 x q q') : Waits x (L + 6900) L q' := by
  have hx := ne_tcp hp.left
  have hne := hp.ne.symm
  cases hq with
  | one n =>
    rcases hi.of_single with ⟨hlt, rfl⟩ | ⟨k, hle, hk, rfl⟩ <;> constructor <;>
      simp [along_self, along_of_ne _ hne, hp.left, hp.right, hne] <;> omega
  | first n m =>
    rcases hi.of_pair with ⟨hlt, rfl⟩ | ⟨k, hle, hk, hlt, rfl⟩ | ⟨k, hle, hk, rfl⟩ <;>
      constructor <;>
        simp [along_self, along_of_ne _ hne, along_of_ne _ hx, hp.left, hp.right, hne, hx] <;> omega
  | second n m hm =>
    rcases hi.of_pair with ⟨hlt, rfl⟩ | ⟨k, hle, hk, hlt, rfl⟩ | ⟨k, hle, hk, rfl⟩ <;>
      constructor <;>
        simp [along_self, along_of_ne _ hne, along_of_ne _ hx, hp.left, hp.right, hne, hx] <;> omega

end Steps

/-! ## The shape of the list -/

section Shape

variable {α : Type*}

lemma perm_pair {l : List α} {a b : α} (h : l.Perm [a, b]) : l = [a, b] ∨ l = [b, a] := by
  obtain ⟨c, d, rfl⟩ := List.length_eq_two.mp h.length_eq
  have hc : c ∈ [a, b] := h.mem_iff.mp List.mem_cons_self
  simp only [List.mem_cons, List.not_mem_nil, or_false] at hc
  rcases hc with rfl | rfl
  · left
    rw [List.singleton_perm_singleton.mp h.cons_inv]
  · right
    have := (h.trans (List.Perm.swap ..)).cons_inv
    rw [List.singleton_perm_singleton.mp this]

lemma eq_pair_of_map {l : List (ℕ × α)} {a b : α} (h : l.map Prod.snd = [a, b]) :
    ∃ n m, l = [(n, a), (m, b)] := by
  obtain ⟨⟨n, x⟩, ⟨m, y⟩, rfl⟩ := List.length_eq_two.mp (by simpa using congrArg List.length h)
  simp only [List.map_cons, List.map_nil, List.cons.injEq, and_true] at h
  exact ⟨n, m, by rw [h.1, h.2]⟩

lemma eq_single_of_map {l : List (ℕ × α)} {a : α} (h : l.map Prod.snd = [a]) :
    ∃ n, l = [(n, a)] := by
  obtain ⟨⟨n, x⟩, rfl⟩ := List.length_eq_one_iff.mp (by simpa using congrArg List.length h)
  simp only [List.map_cons, List.map_nil, List.cons.injEq, and_true] at h
  exact ⟨n, by rw [h]⟩

end Shape

/-- `x` is one of the two cyclic timers, and `y` is the other one. -/
def Both (x y : Handler) : Prop := x = reass ∧ y = arp ∨ x = arp ∧ y = reass

lemma Both.pair {x y : Handler} (h : Both x y) : Pair x y := by
  rcases h with ⟨rfl, rfl⟩ | ⟨rfl, rfl⟩ <;> exact ⟨rfl, rfl, by decide⟩

/-- What is in the list behind the first entry. -/
inductive Behind : Handler → List (ℕ × Handler) → Prop
  | tcp {h₁ h₂ : Handler} (n₁ n₂ : ℕ) (h : Both h₁ h₂) :
      Behind .tcpipTcpTimer [(n₁, h₁), (n₂, h₂)]
  | cyclic {x y : Handler} {q : List (ℕ × Handler)} (h : Both x y) (hq : Alone y q) : Behind x q

lemma Complete.behind {s : Timeouts} (h : Complete s) {t : SysTimeo} {rest : List SysTimeo}
    (hl : s.nextTimeout = t :: rest) (htcp : TcpSoon (entries s.nextTimeout)) :
    Behind t.h (entries rest) := by
  rw [Complete, hl, entries_cons, List.map_cons] at h
  rw [hl, entries_cons, TcpSoon, List.tail_cons] at htcp
  have hmem : t.h ∈ timers s.tcpipTcpTimerActive := h.mem_iff.mp List.mem_cons_self
  generalize t.h = x at h hmem ⊢
  generalize entries rest = q at h htcp ⊢
  have hfalse : timers false = [reass, arp] := rfl
  have htrue : timers true = [.tcpipTcpTimer, reass, arp] := rfl
  -- with a cyclic timer in front, the TCP timer may be left
  have hcyclic : ∀ {x y}, Both x y → (q.map Prod.snd).Perm [.tcpipTcpTimer, y] → Behind x q := by
    intro x y hb hq
    rcases perm_pair hq with hq | hq
    · obtain ⟨m, n, rfl⟩ := eq_pair_of_map hq
      exact .cyclic hb (.second n m (htcp (m, .tcpipTcpTimer) (by simp) rfl))
    · obtain ⟨n, m, rfl⟩ := eq_pair_of_map hq
      exact .cyclic hb (.first n m)
  cases hactive : s.tcpipTcpTimerActive with
  | true =>
    rw [hactive, htrue] at h hmem
    simp only [List.mem_cons, List.not_mem_nil, or_false] at hmem
    rcases hmem with rfl | rfl | rfl
    · rcases perm_pair h.cons_inv with hq | hq
      · obtain ⟨n, m, rfl⟩ := eq_pair_of_map hq
        exact .tcp n m (Or.inl ⟨rfl, rfl⟩)
      · obtain ⟨n, m, rfl⟩ := eq_pair_of_map hq
        exact .tcp n m (Or.inr ⟨rfl, rfl⟩)
    · exact hcyclic (Or.inl ⟨rfl, rfl⟩) (h.trans (List.Perm.swap ..)).cons_inv
    · refine hcyclic (Or.inr ⟨rfl, rfl⟩) (List.Perm.cons_inv (h.trans ?_))
      exact (List.Perm.swap ..).cons _ |>.trans (List.Perm.swap ..)
  | false =>
    rw [hactive, hfalse] at h hmem
    simp only [List.mem_cons, List.not_mem_nil, or_false] at hmem
    rcases hmem with rfl | rfl
    · obtain ⟨n, rfl⟩ := eq_single_of_map (List.perm_singleton.mp h.cons_inv)
      exact .cyclic (Or.inl ⟨rfl, rfl⟩) (.one n)
    · obtain ⟨n, rfl⟩ := eq_single_of_map
        (List.perm_singleton.mp (h.trans (List.Perm.swap ..)).cons_inv)
      exact .cyclic (Or.inr ⟨rfl, rfl⟩) (.one n)

/-! ## Calm runs -/

/-- When a function was last called, or `t₀` before the first call. -/
def lastCall (t₀ : ℕ) (f : Tmr) (calls : List (ℕ × Tmr)) : ℕ :=
  calls.foldl (fun c e => if e.2 = f then e.1 else c) t₀

lemma lastCall_concat (t₀ : ℕ) (f g : Tmr) (calls : List (ℕ × Tmr)) (c : ℕ) :
    lastCall t₀ f (calls ++ [(c, g)]) = if g = f then c else lastCall t₀ f calls := by
  simp [lastCall]

/-- No cyclic timer is called later than seven seconds after its last call. -/
structure Fair (t₀ L : ℕ) (s : Timeouts) : Prop where
  tcp : TcpSoon (entries s.nextTimeout)
  waits : ∀ x y, Both x y →
    Waits x (lastCall t₀ x.tmr s.calls + 6900) L (entries s.nextTimeout)

section Calm

variable {t₀ seen now L : ℕ} {s s' : Timeouts} {w : Work} {t : SysTimeo} {rest : List SysTimeo}

lemma Waits.mono {x : Handler} {limit limit' : ℕ} {l : List (ℕ × Handler)}
    (h : Waits x limit L l) (hle : limit ≤ limit') : Waits x limit' L l := by
  obtain ⟨hsoon, hnear, hspare⟩ := h
  exact ⟨hsoon.trans hle, hnear, fun ho => ⟨(hspare ho).1.trans hle, (hspare ho).2⟩⟩

lemma Both.order {x y z w : Handler} (h : Both x y) (h' : Both z w) :
    z = x ∧ w = y ∨ z = y ∧ w = x := by
  rcases h with ⟨rfl, rfl⟩ | ⟨rfl, rfl⟩ <;> rcases h' with ⟨rfl, rfl⟩ | ⟨rfl, rfl⟩ <;> simp

lemma Both.symm {x y : Handler} (h : Both x y) : Both y x := by
  rcases h with ⟨rfl, rfl⟩ | ⟨rfl, rfl⟩
  · exact Or.inr ⟨rfl, rfl⟩
  · exact Or.inl ⟨rfl, rfl⟩

lemma Both.interval {x y : Handler} (h : Both x y) : x.tmr.interval.toNat = 1000 := by
  rcases h with ⟨rfl, rfl⟩ | ⟨rfl, rfl⟩ <;> rfl

lemma Both.tmr_ne {x y : Handler} (h : Both x y) : x.tmr ≠ y.tmr ∧ x.tmr ≠ .tcpTmr := by
  rcases h with ⟨rfl, rfl⟩ | ⟨rfl, rfl⟩ <;> decide

/-- A call that is at most 50 ms late. -/
lemma Fair.called (h : Fair t₀ L s) (hcall : Called t₀ seen now L s w t rest s')
    (hnow : now ≤ s.clock) (hlate : s'.clock ≤ L + t.time.toNat + 50) :
    Fair t₀ (L + t.time.toNat) s' := by
  have hbehind := hcall.complete.behind hcall.first h.tcp
  have htcp : ∀ e ∈ entries rest, e.2 = .tcpipTcpTimer → e.1 ≤ 550 := by
    have := h.tcp
    rwa [hcall.first] at this
  have hwaits : ∀ x y, Both x y → t.h ≠ x →
      Waits x (lastCall t₀ x.tmr s.calls + 6900) (L + t.time.toNat) (entries rest) := by
    intro x y hb hne
    have := h.waits x y hb
    rw [hcall.first, entries_cons] at this
    exact this.tail hne
  have hdiff : s'.clock - (L + t.time.toNat) ≤ 50 := by omega
  have hdue := hcall.due
  have hcalls := hcall.calls
  have hlist : (t.h = .tcpipTcpTimer ∧ entries s'.nextTimeout = entries rest) ∨
      Insertion (s'.clock - (L + t.time.toNat)) t.h.tmr.interval.toNat t.h (entries rest)
        (entries s'.nextTimeout) := by
    rcases hcall.list with ⟨htcp, hrest⟩ | hi
    · exact Or.inl ⟨htcp, by rw [hrest]⟩
    · exact Or.inr hi
  clear hcall
  generalize t.h = z at *
  generalize entries rest = q at *
  cases hbehind with
  | @tcp h₁ h₂ n₁ n₂ hb =>
    have hkept : ∀ x y, Both x y → lastCall t₀ x.tmr s'.calls = lastCall t₀ x.tmr s.calls := by
      intro x y hxy
      rw [hcalls, lastCall_concat, if_neg]
      exact hxy.tmr_ne.2.symm
    rcases hlist with ⟨-, hq⟩ | hi
    · refine ⟨?_, fun x y hxy => ?_⟩
      · rw [hq]
        exact fun e he => htcp e (List.mem_of_mem_tail he)
      · rw [hkept x y hxy, hq]
        exact hwaits x y hxy (ne_tcp hxy.pair.left)
    · refine ⟨tcpSoon_insert_tcp hb.pair (Or.inl ⟨rfl, rfl⟩) (by omega) hi, fun x y hxy => ?_⟩
      rw [hkept x y hxy]
      exact (hwaits x y hxy (ne_tcp hxy.pair.left)).insert_tcp hxy.pair (hxy.order hb) (by omega) hi
  | @cyclic z y q hb hq =>
    rcases hlist with ⟨rfl, -⟩ | hi
    · exact absurd rfl (ne_tcp hb.pair.left)
    · rw [hb.interval] at hi
      refine ⟨tcpSoon_insert_cyclic hb.pair.left htcp hi, fun x y' hxy => ?_⟩
      rcases hb.order hxy with ⟨rfl, rfl⟩ | ⟨rfl, rfl⟩
      · rw [hcalls, lastCall_concat, if_pos rfl]
        exact (waits_insert_self hb.pair hq hdiff hi).mono (by omega)
      · rw [hcalls, lastCall_concat, if_neg hb.tmr_ne.1]
        exact (hwaits _ _ hxy hb.pair.ne).insert_other hxy.pair hq hdiff hi

/-- The TCP timer is started while a frame is processed. -/
lemma Fair.needed (h : Fair t₀ L s) (hcomplete : Complete s)
    (hlate : ∀ e ∈ agenda L s, s.clock ≤ e.1 + 50)
    (hactive : s.tcpipTcpTimerActive = false) (hcalls : s'.calls = s.calls)
    (hi : Insertion (s.clock - L) 250 .tcpipTcpTimer (entries s.nextTimeout)
      (entries s'.nextTimeout)) : Fair t₀ L s' := by
  rw [Complete, hactive] at hcomplete
  obtain ⟨h₁, h₂, n₁, n₂, hb, hq⟩ : ∃ h₁ h₂ n₁ n₂, Both h₁ h₂ ∧
      entries s.nextTimeout = [(n₁, h₁), (n₂, h₂)] := by
    rcases perm_pair hcomplete with hmap | hmap
    · obtain ⟨n₁, n₂, hq⟩ := eq_pair_of_map hmap
      exact ⟨_, _, n₁, n₂, Or.inl ⟨rfl, rfl⟩, hq⟩
    · obtain ⟨n₁, n₂, hq⟩ := eq_pair_of_map hmap
      exact ⟨_, _, n₁, n₂, Or.inr ⟨rfl, rfl⟩, hq⟩
  have hfirst := hlate (L + n₁, h₁) (by simp [agenda, hq])
  simp only at hfirst
  rw [hq] at hi
  refine ⟨tcpSoon_insert_tcp hb.pair (Or.inl ⟨rfl, rfl⟩) (by omega) hi, fun x y hxy => ?_⟩
  have hw := h.waits x y hxy
  rw [hq] at hw
  rw [hcalls]
  exact hw.insert_tcp hxy.pair (hxy.order hb) (by omega) hi

/-- A frame is processed in a pass that ends at `M`, not later than 50 ms after any timer is due. -/
lemma fair_tapifInput {M : ℕ} {rs : List Registration} (ht : Timed t₀ seen L s)
    (hcomplete : Complete s) (h : Fair t₀ L s) (hlate : ∀ e ∈ agenda L s, M ≤ e.1 + 50)
    (hM : s.clock + (rs.map Registration.after).sum ≤ M) (hclock : M ≤ s.clock + 25)
    (hseen : M ≤ seen + 2 * maxPass) (hrun : tapifInput s rs = .ok s') :
    Fair t₀ L s' ∧ ∀ e ∈ agenda L s', M ≤ e.1 + 50 := by
  induction rs generalizing s with
  | nil => exact Except.ok.inj hrun ▸ ⟨h, hlate⟩
  | cons r rs ih =>
    rw [List.map_cons, List.sum_cons] at hM
    have hfair : Fair t₀ L (elapse s r.after) := ⟨h.tcp, h.waits⟩
    have hnow : (elapse s r.after).clock = s.clock + r.after := rfl
    have ht₀ := ht.elapse (n := r.after) (by omega)
    obtain ⟨s₁, hrun₁, ht₁, hcomplete₁, hclock₁, hcalls₁, hlist₁⟩ :=
      tcpTimerNeeded_spec ht₀ hcomplete r.pcbs
    rw [tapifInput, hrun₁, ok_bind] at hrun
    obtain ⟨hfair₁, hlate₁⟩ : Fair t₀ L s₁ ∧ ∀ e ∈ agenda L s₁, M ≤ e.1 + 50 := by
      rcases hlist₁ with hsame | ⟨hactive, hi⟩
      · have hsame' : s₁.nextTimeout = s.nextTimeout := hsame
        refine ⟨⟨by rw [hsame']; exact h.tcp, fun x y hxy => ?_⟩, ?_⟩
        · rw [hsame', hcalls₁]
          exact h.waits x y hxy
        · rw [agenda, hsame']
          exact hlate
      · refine ⟨hfair.needed hcomplete (fun e he => ?_) hactive hcalls₁ hi, ?_⟩
        · have := hlate e he
          omega
        · refine hi.forall_dues (P := fun d _ => M ≤ d + 50) (fun c d _ hcd hc => by omega) hlate ?_
          rintro d - (hd | ⟨e, he, hed⟩)
          · have := ht₀.le
            omega
          · have := hlate e he
            omega
    exact ih ht₁ hcomplete₁ hfair₁ hlate₁ (by omega) (by omega) hrun

/-- A pass in which `select` does not oversleep, and the rest takes at most 25 ms. -/
structure Calm (s : Timeouts) (p : Pass) : Prop where
  wait : p.wait ≤ (sysTimeoutsSleeptime s).toNat
  work : ((p.input.getD []).map Registration.after).sum + (p.work.map Work.duration).sum ≤ 25

/-- A calm pass ends at most 50 ms after any timer that it finds is due. -/
lemma Calm.late (ht : Timed t₀ seen L s) (hcomplete : Complete s) (hclock : s.clock ≤ seen + 25)
    {p : Pass} (hp : Calm s p) : ∀ e ∈ agenda L s, s.clock + p.wait + 25 ≤ e.1 + 50 := by
  intro e he
  obtain ⟨t, rest, hl⟩ := complete_ne_nil hcomplete
  have hdue := ht.due e he
  have hdiff := (ht.clocked (by rw [hl]; exact List.cons_ne_nil _ _)).diff
  have hle := ht.le
  have hwait := hp.wait
  have hfirst : L + t.time.toNat ≤ e.1 := by
    simp only [agenda, hl, entries_cons, dues_cons, List.mem_cons] at he
    rcases he with rfl | he
    · exact le_rfl
    · exact (finish_of_mem he).1
  simp only [sysTimeoutsSleeptime, hl] at hwait
  by_cases hover : sysNow s - s.timeoutsLastTime > t.time
  · rw [if_pos hover] at hwait
    have h0 : (0 : UInt32).toNat = 0 := rfl
    omega
  · have hle' := UInt32.not_lt.mp hover
    have hnat := UInt32.le_iff_toNat_le.mp hle'
    rw [if_neg hover, UInt32.toNat_sub_of_le _ _ hle'] at hwait
    omega

/-- In a check that began at `start`, in a pass that ends at `M`. -/
structure InCheck (t₀ start M L : ℕ) (s : Timeouts) (ws : List Work) : Prop where
  start_le : start ≤ s.clock
  ends : s.clock + (ws.map Work.duration).sum ≤ M
  late : ∀ e ∈ agenda L s, M ≤ e.1 + 50
  fair : Fair t₀ L s

lemma InCheck.called {start M : ℕ} {ws : List Work} (h : InCheck t₀ start M L s ws)
    (hcall : Called t₀ seen start L s (ws.headD ⟨0, false⟩) t rest s') :
    InCheck t₀ start M (L + t.time.toNat) s' ws.tail := by
  obtain ⟨hstart, hends, hlate, hfair⟩ := h
  have hhead := headD_duration ws
  have hclock := hcall.clock
  have hfirst := hlate (L + t.time.toNat, t.h) (by simp [agenda, hcall.first])
  simp only at hfirst
  have hrest : ∀ e ∈ dues (L + t.time.toNat) (entries rest), M ≤ e.1 + 50 := fun e he =>
    hlate e (by simp [agenda, hcall.first, he])
  refine ⟨by omega, by omega, ?_, hfair.called hcall hstart (by omega)⟩
  rcases hcall.list with ⟨-, hsame⟩ | hi
  · rw [agenda, hsame]
    exact hrest
  · exact hi.forall_dues (P := fun d _ => M ≤ d + 50) (fun c d _ hcd hc => by omega) hrest
      fun d hd _ => by omega

/-- **A calm pass** keeps the timers fair. -/
lemma Fair.pass (ht : Timed t₀ seen L s) (hcomplete : Complete s) (h : Fair t₀ L s)
    (hclock : s.clock ≤ seen + 25) {p : Pass} (hp : p.duration ≤ maxPass) (hcalm : Calm s p) :
    ∃ s' seen' L', mainPass s p = .ok s' ∧ Timed t₀ seen' L' s' ∧ Complete s' ∧ Fair t₀ L' s' ∧
      s'.clock ≤ seen' + 25 := by
  have hmax : 50 ≤ maxPass := by decide
  obtain ⟨s₁, s', L', hselect, hpass, hcalls, hclock₁, hchecked, ht', hcomplete', -⟩ :=
    mainPass_spec ht hcomplete (by omega) hp
  have hwork := hcalm.work
  have hlate := hcalm.late ht hcomplete hclock
  have hbound := hchecked.clock
  have hwait : p.wait ≤ maxPass := by
    rw [Pass.duration] at hp
    omega
  have hM : s.clock + p.wait + 25 ≤ seen + 2 * maxPass := by omega
  obtain ⟨hfair₁, hlate₁⟩ : Fair t₀ L s₁ ∧ ∀ e ∈ agenda L s₁, s.clock + p.wait + 25 ≤ e.1 + 50 := by
    rw [tapifSelect] at hselect
    cases hinput : p.input with
    | none =>
      rw [hinput] at hselect
      exact Except.ok.inj hselect ▸ ⟨⟨h.tcp, h.waits⟩, hlate⟩
    | some rs =>
      rw [hinput] at hselect
      simp only [hinput, Option.getD_some] at hwork
      have hnow : (elapse s p.wait).clock = s.clock + p.wait := rfl
      exact fair_tapifInput (ht.elapse (n := p.wait) (by omega)) hcomplete ⟨h.tcp, h.waits⟩ hlate
        (by omega) (by omega) hM hselect
  have hcheck : InCheck t₀ s₁.clock (s.clock + p.wait + 25) L s₁ p.work :=
    ⟨le_rfl, by omega, hlate₁, hfair₁⟩
  obtain ⟨ws', hend⟩ := hchecked.inv (fun _ _ _ _ _ _ => InCheck.called) hcheck
  exact ⟨s', s₁.clock, L', hpass, ht', hcomplete', hend.fair, by omega⟩

/-- The timers between two calm passes. -/
def Steady (t₀ : ℕ) (s : Timeouts) : Prop :=
  ∃ seen L, Timed t₀ seen L s ∧ Complete s ∧ Fair t₀ L s ∧ s.clock ≤ seen + 25

lemma Steady.pass (h : Steady t₀ s) {p : Pass} (hp : Calm s p ∧ p.duration ≤ maxPass) :
    ∃ s', mainPass s p = .ok s' ∧ Steady t₀ s' := by
  obtain ⟨seen, L, ht, hcomplete, hfair, hclock⟩ := h
  obtain ⟨s', seen', L', hpass, hinv⟩ := hfair.pass ht hcomplete hclock hp.2 hp.1
  exact ⟨s', hpass, seen', L', hinv⟩

lemma ahead_mem {x : Handler} {l : List (ℕ × Handler)} (hx : x ∈ l.map Prod.snd) (L : ℕ) :
    (L + ahead x l, x) ∈ dues L l := by
  induction l generalizing L with
  | nil => cases hx
  | cons e l ih =>
    obtain ⟨n, y⟩ := e
    by_cases hy : y = x
    · subst hy
      simp [along_self]
    · have hmem : x ∈ l.map Prod.snd := by
        rw [List.map_cons, List.mem_cons] at hx
        exact hx.resolve_left fun h => hy h.symm
      rw [ahead, along_of_ne _ hy, dues_cons, if_pos rfl, ← Nat.add_assoc]
      exact List.mem_cons_of_mem _ (ih hmem (L + n))

/-- After the set-up. -/
lemma fair_init {k : ℕ} (hcalls : s.calls = []) (hk : k ≤ 25) (hclock : s.clock ≤ t₀ + 75)
    (hl : entries s.nextTimeout = [(1000, reass), (k, arp)]) : Fair t₀ s.clock s := by
  refine ⟨?_, ?_⟩
  · rw [hl]
    simp [TcpSoon, arp]
  · have hne : reass ≠ arp := by decide
    have hr : reass.isCyclic = true := rfl
    have ha : arp.isCyclic = true := rfl
    rintro x y (⟨rfl, rfl⟩ | ⟨rfl, rfl⟩)
    · rw [hl, hcalls]
      constructor <;> simp [along_self, hr, lastCall]
      omega
    · rw [hl, hcalls]
      constructor <;> simp [along_self, along_of_ne _ hne, hr, ha, hne, lastCall] <;> omega

/-- **No timer starves.**  If no step of the set-up takes more than 25 ms and no pass of the main
loop takes more than that apart from the time that `select` waits, and `select` does not oversleep,
then whatever comes in and however often the TCP timer is started and stopped: at the end of every
pass the last call of `etharp_tmr` and of `ip_reass_tmr` (or the set-up) is no more than seven
seconds ago. -/
theorem cyclic_called_within {ticks : List ℕ} {ps : List Pass} (h : Timely ticks ps)
    (hticks : ∀ n ∈ ticks, n ≤ 25)
    (hcalm : ∀ pre p s', pre ++ [p] <+: ps → runMain t₀ ticks pre = .ok s' → Calm s' p)
    (hrun : runMain t₀ ticks ps = .ok s) {f : Tmr} (hf : f ≠ .tcpTmr) :
    s.clock ≤ lastCall t₀ f s.calls + 7000 := by
  obtain ⟨s₀, k, hinit, ht₀, hcomplete₀, hcalls₀, hl₀, hclock₀, hk⟩ :=
    sysTimeoutsInit_spec h.ticks t₀
  have hx := headD_le hticks
  have hy := headD_le fun n hn => hticks n (List.mem_of_mem_tail hn)
  have hz := headD_le fun n hn => hticks n (List.mem_of_mem_tail (List.mem_of_mem_tail hn))
  have hfair₀ : Fair t₀ s₀.clock s₀ := fair_init hcalls₀ (by omega) (by omega) hl₀
  have hruns : ∀ pre, runMain t₀ ticks pre = exec mainPass s₀ pre := fun pre => by
    rw [runMain, hinit, ok_bind]
  have hsteady₀ : Steady t₀ s₀ := ⟨_, _, ht₀, hcomplete₀, hfair₀, Nat.le_add_right ..⟩
  have hpasses := (along_of_initial fun pre p s' hpre hs =>
    hcalm pre p s' hpre ((hruns pre).trans hs)).and (along_of_forall_mem h.passes)
  obtain ⟨s', hrun', seen, L, ht, hcomplete, hfair, hclock⟩ :=
    exec_total (fun _ _ hs hp => hs.pass hp) hsteady₀ hpasses
  obtain rfl : s' = s := Except.ok.inj (hrun'.symm.trans ((hruns ps).symm.trans hrun))
  obtain ⟨x, y, hxy, rfl⟩ : ∃ x y, Both x y ∧ x.tmr = f := by
    cases f with
    | tcpTmr => exact absurd rfl hf
    | ipReassTmr => exact ⟨reass, arp, Or.inl ⟨rfl, rfl⟩, rfl⟩
    | etharpTmr => exact ⟨arp, reass, Or.inr ⟨rfl, rfl⟩, rfl⟩
  have hmem : x ∈ (entries s'.nextTimeout).map Prod.snd := by
    refine hcomplete.mem_iff.mpr (List.mem_append_right _ ?_)
    rcases hxy with ⟨rfl, -⟩ | ⟨rfl, -⟩ <;> decide
  have hdue := ht.due _ (ahead_mem hmem L)
  have hsoon := (hfair.waits x y hxy).soon
  simp only at hdue
  omega

/-- A connection is opened 100 ms before the first timer is due, and the TCP timer is called. -/
def calmPasses : List Pass := [⟨900, some [⟨3, true⟩], []⟩, ⟨250, none, [⟨2, true⟩]⟩]

lemma obs_of_toOption {α β : Type} {x : Except TimerFault α} {obs : α → β} {a : α} {b : β}
    (h : x.toOption.map obs = some b) (ha : x = .ok a) : obs a = b := by
  rw [ha] at h
  exact Option.some.inj h

theorem cyclic_called_within_calmPasses :
    ∃ s, runMain 5 [0, 1, 0] calmPasses = .ok s ∧
      s.clock ≤ lastCall 5 .etharpTmr s.calls + 7000 := by
  have hrun₀ : (runMain 5 [0, 1, 0] []).toOption.map
      (fun s => (sysTimeoutsSleeptime s).toNat) = some 1000 := by decide +kernel
  have hrun₁ : (runMain 5 [0, 1, 0] [⟨900, some [⟨3, true⟩], []⟩]).toOption.map
      (fun s => (sysTimeoutsSleeptime s).toNat) = some 250 := by decide +kernel
  have hrun₂ : (runMain 5 [0, 1, 0] calmPasses).toOption.map
      (fun s => s.calls) = some [(1159, .tcpTmr)] := by decide +kernel
  have htimely : Timely [0, 1, 0] calmPasses := ⟨by decide, by decide⟩
  obtain ⟨s, hs, -⟩ := exists_of_toOption hrun₂
  refine ⟨s, hs, cyclic_called_within htimely (by decide)
    (fun pre p s' hpre hs' => ?_) hs (by decide)⟩
  rcases pre with _ | ⟨a, _ | ⟨b, pre⟩⟩
  · obtain rfl : p = ⟨900, some [⟨3, true⟩], []⟩ := by simpa [calmPasses] using hpre
    exact ⟨by rw [obs_of_toOption hrun₀ hs']; decide, by decide⟩
  · obtain ⟨rfl, rfl⟩ : a = ⟨900, some [⟨3, true⟩], []⟩ ∧ p = ⟨250, none, [⟨2, true⟩]⟩ := by
      simpa [calmPasses] using hpre
    exact ⟨by rw [obs_of_toOption hrun₁ hs'], by decide⟩
  · exact absurd hpre (by simp [calmPasses])

end Calm

end Lwip
end DeepForensics
