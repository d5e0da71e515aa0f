/-
# One datagram among others

Seen from one datagram, reassembly is a machine with a single entry (`slotStep`): no pool, no count
of pbufs, no other datagrams.  As long as there is room for what comes in and no assertion fails,
`ip4_frag.c` is a family of such machines, one for each pair of addresses and identification, that
do not influence each other; and if an assertion fails, it fails in the machine of one datagram
alone, too (`reass_refines`).  So it is enough to follow one datagram alone: its fragments may come
in any order that ends with the first or the last of them, and between any others, and never make
the assertion fail (`datagram_delivered`).
-/
import DeepForensics.Lwip.Datagrams
import Mathlib.Data.List.Pairwise

namespace DeepForensics
namespace Lwip

open Runs

variable {P : IpKey → Frag → Prop}

/-- The entry with the given key. -/
def entryOf (k : IpKey) (l : List ReassData) : Option ReassData :=
  l.find? fun r => r.iphdr.key == k

/-- Nothing has to be given up for what comes in. -/
def Roomy (s : Reassembly) : ReassEvent → Prop
  | .tmr => True
  | .input p => s.reass.pbufcount + p.body.clen ≤ ipReassMaxPbufs ∧
      (0 < s.reass.pool ∨ (entryOf p.hdr.key s.reass.reassdatagrams).isSome)

instance (s : Reassembly) : ∀ e, Decidable (Roomy s e)
  | .tmr => isTrue trivial
  | .input _ => inferInstanceAs (Decidable (_ ∧ _))

/-- A datagram alone: its entry, and what has been delivered. -/
structure Slot where
  entry : Option ReassData
  delivered : List Packet
deriving DecidableEq, Repr

/-- One more fragment for an entry. -/
def slotInto (ipr : ReassData) (p : Packet) :
    Except ReassFault (Option ReassData × Option Packet) := do
  match ← chainFrag (updateEntry ipr p.hdr) (fragOf p) with
  | none => .ok (some (updateEntry ipr p.hdr), none)
  | some (ipr, false) => .ok (some ipr, none)
  | some (ipr, true) => .ok (none, wholeDatagram ipr)

def slotInput (entry : Option ReassData) (p : Packet) :
    Except ReassFault (Option ReassData × Option Packet) :=
  if p.hdr.hlen ≠ ipHlen then .ok (entry, none)
  else slotInto (entry.getD (newDatagram p.hdr)) p

/-- The machine of one datagram. -/
def slotStep (k : IpKey) (t : Slot) : ReassEvent → Except ReassFault Slot
  | .tmr => .ok { t with entry := (t.entry.filter fun r => 0 < r.timer).map aged }
  | .input p =>
    if p.hdr.key = k then (slotInput t.entry p).map fun r => ⟨r.1, t.delivered ++ r.2.toList⟩
    else .ok t

/-- What the whole state shows of one datagram. -/
def slotOf (k : IpKey) (s : Reassembly) : Slot :=
  ⟨entryOf k s.reass.reassdatagrams, s.delivered.filter fun d => d.hdr.key == k⟩

/-! ## The entries of a list -/

lemma entryOf_eq_none {k : IpKey} {l : List ReassData} :
    entryOf k l = none ↔ ∀ r ∈ l, r.iphdr.key ≠ k := by
  simp [entryOf]

/-- An entry is put back or taken out. -/
lemma entryOf_put {k k' : IpKey} {pre post : List ReassData} {x : Option ReassData}
    (hother : ∀ r ∈ pre ++ post, r.iphdr.key ≠ k') (hx : ∀ r ∈ x, r.iphdr.key = k') :
    entryOf k (pre ++ x.toList ++ post) = if k = k' then x else entryOf k (pre ++ post) := by
  cases x with
  | none =>
    by_cases hk : k = k'
    · rw [if_pos hk, entryOf_eq_none]
      simpa [hk] using hother
    · rw [if_neg hk]
      simp
  | some r =>
    have hr : r.iphdr.key = k' := hx r rfl
    have hpre : ∀ y ∈ pre, y.iphdr.key ≠ k' := fun y hy => hother y (List.mem_append_left _ hy)
    rw [Option.toList_some, List.append_assoc, List.singleton_append, entryOf, List.find?_append]
    by_cases hk : k = k'
    · have hnone : pre.find? (fun r => r.iphdr.key == k) = none := by
        rw [List.find?_eq_none]
        intro y hy
        simpa [hk] using hpre y hy
      rw [if_pos hk, hnone, List.find?_cons_of_pos (by simp [hk, hr])]
      rfl
    · have hne : ¬ r.iphdr.key = k := by
        rw [hr]
        exact fun h => hk h.symm
      rw [if_neg hk, List.find?_cons_of_neg (by simpa using hne), ← List.find?_append]
      rfl

/-- The keys are different, so the place of an entry in the list does not matter. -/
lemma entryOf_middle {k : IpKey} {pre post : List ReassData} {r : ReassData}
    (h : Keyed (pre ++ r :: post)) :
    entryOf k (pre ++ r :: post) = if k = r.iphdr.key then some r else entryOf k (pre ++ post) := by
  have hput := entryOf_put (k := k) (x := some r) (keyed_middle.mp h).2 (by rintro _ ⟨⟩; rfl)
  rwa [Option.toList_some, List.append_assoc, List.singleton_append] at hput

lemma entryOf_aged {k : IpKey} {l : List ReassData} (h : Keyed l) :
    entryOf k ((l.filter fun r => 0 < r.timer).map aged) =
      ((entryOf k l).filter fun r => 0 < r.timer).map aged := by
  induction l with
  | nil => rfl
  | cons r l ih =>
    have hsplit : Keyed l ∧ ∀ r' ∈ l, r'.iphdr.key ≠ r.iphdr.key :=
      keyed_middle.mp (show Keyed ([] ++ r :: l) from h)
    have hl := ih hsplit.1
    by_cases hk : r.iphdr.key = k
    · have hrest : entryOf k l = none := by
        rw [entryOf_eq_none, ← hk]
        exact hsplit.2
      rw [hrest] at hl
      by_cases ht : 0 < r.timer
      · simp [entryOf, List.filter_cons_of_pos, ht, aged, hk]
      · rw [List.filter_cons_of_neg (by simpa using ht), hl]
        simp [entryOf, hk]
        omega
    · have hcons : entryOf k (r :: l) = entryOf k l := List.find?_cons_of_neg (by simpa using hk)
      rw [hcons, ← hl]
      by_cases ht : 0 < r.timer
      · rw [List.filter_cons_of_pos (by simpa using ht), List.map_cons]
        exact List.find?_cons_of_neg (by simpa [aged] using hk)
      · rw [List.filter_cons_of_neg (by simpa using ht)]

/-! ## The refinement -/

/-- `ip4_reass` changes one entry only, and changes it as the machine of its datagram does. -/
lemma reassInto_slotInto {s s' : Reass} {pre post : List ReassData} {ipr : ReassData} {p : Packet}
    {d : Option Packet} (h : Opened P s pre ipr post p) (hfrag : isFragment p.hdr = true)
    (hs : reassInto s pre ipr post p = .ok (s', d)) :
    ∃ x, slotInto ipr p = .ok (x, d) ∧ s'.reassdatagrams = pre ++ x.toList ++ post ∧
      (∀ r ∈ x, r.iphdr.key = p.hdr.key) ∧ ∀ e ∈ d, e.hdr.key = p.hdr.key := by
  have hkey := updateEntry_key h.key
  have hcases := chainFrag_cases (h.first hfrag)
  rw [reassInto] at hs
  rw [slotInto]
  generalize chainFrag (updateEntry ipr p.hdr) (fragOf p) = c at hcases hs
  cases hcases with
  | dropped hover =>
    cases hs
    exact ⟨_, rfl, by simp, by rintro r ⟨⟩; exact hkey, by simp⟩
  | waits hat hnc =>
    cases hs
    exact ⟨_, rfl, by simp, by rintro r ⟨⟩; exact hkey, by simp⟩
  | @complete before after hat hdone hend =>
    obtain ⟨f, fs, hp⟩ := List.exists_cons_of_ne_nil
      (show before ++ fragOf p :: after ≠ [] by simp)
    rw [ok_bind] at hs ⊢
    simp only at hs ⊢
    rw [wholeDatagram_cons hp] at hs ⊢
    cases hs
    exact ⟨none, rfl, by simp, by simp, by rintro e ⟨⟩; exact hkey⟩
  | wrongEnd hat hdone hend => cases hs

/-- Where an assertion fails, it fails for the entry alone. -/
lemma slotInto_error {s : Reass} {pre post : List ReassData} {ipr : ReassData} {p : Packet}
    {f : ReassFault} (h : Opened P s pre ipr post p) (hfrag : isFragment p.hdr = true)
    (hs : reassInto s pre ipr post p = .error f) : f = wrongEnd ∧ slotInto ipr p = .error f := by
  have hcases := chainFrag_cases (h.first hfrag)
  rw [reassInto] at hs
  rw [slotInto]
  generalize chainFrag (updateEntry ipr p.hdr) (fragOf p) = c at hcases hs
  cases hcases with
  | dropped hover => cases hs
  | waits hat hnc => cases hs
  | @complete before after hat hdone hend =>
    obtain ⟨g, gs, hp⟩ := List.exists_cons_of_ne_nil
      (show before ++ fragOf p :: after ≠ [] by simp)
    rw [ok_bind] at hs
    simp only at hs
    rw [wholeDatagram_cons hp] at hs
    cases hs
  | wrongEnd hat hdone hend =>
    cases hs
    exact ⟨rfl, rfl⟩

/-- The entry of the fragment, and whether it was there before. -/
lemma ip4Reass_into {s : Reass} {p : Packet} (h : ReassInv P s)
    (hroom : s.pbufcount + p.body.clen ≤ ipReassMaxPbufs)
    (hpool : 0 < s.pool ∨ (entryOf p.hdr.key s.reassdatagrams).isSome)
    (hlen : p.hdr.hlen = ipHlen) :
    ∃ t pre ipr post, Opened P t pre ipr post p ∧ ip4Reass s p = reassInto t pre ipr post p ∧
      ((s.reassdatagrams = pre ++ ipr :: post ∧ entryOf p.hdr.key s.reassdatagrams = some ipr) ∨
        (s.reassdatagrams = pre ++ post ∧ ipr = newDatagram p.hdr ∧
          entryOf p.hdr.key s.reassdatagrams = none)) := by
  have hmay : mayEnqueue s p = .ok (s, true) := if_neg (by omega)
  rw [ip4Reass, if_neg (not_not.mpr hlen), hmay, ok_bind]
  simp only [Bool.not_true, Bool.false_eq_true, if_false]
  rcases search_cases p.hdr s.reassdatagrams with
    ⟨pre, ipr, post, hlist, hkey, htake, hdrop⟩ | ⟨hnone, hdrop⟩
  · rw [htake, hdrop]
    refine ⟨s, pre, ipr, post, opened_found h hroom hlist hkey, rfl, .inl ⟨hlist, ?_⟩⟩
    rw [hlist, entryOf_middle (hlist ▸ h.keyed), if_pos hkey.symm]
  · have hentry : entryOf p.hdr.key s.reassdatagrams = none := entryOf_eq_none.mpr hnone
    have hfree : 0 < s.pool := hpool.resolve_right (by simp [hentry])
    have hnew : ipReassEnqueueNewDatagram s p.hdr p.body.clen =
        .ok ({ s with pool := s.pool - 1 }, true) := if_pos hfree
    rw [hdrop]
    refine ⟨{ s with pool := s.pool - 1 }, [], newDatagram p.hdr, s.reassdatagrams, ?_, ?_,
      .inr ⟨rfl, rfl, hentry⟩⟩
    swap
    · show (ipReassEnqueueNewDatagram s p.hdr p.body.clen >>= _) = _
      rw [hnew]
      rfl
    refine opened_new (s := s) ?_ h.count hroom hnone
    show Removed P p.hdr s { s with pool := s.pool - 1 + 1 }
    rw [Nat.sub_add_cancel hfree]
    exact .refl h

/-- What one datagram shows of a state in which an entry, perhaps another one, was put back or
taken out. -/
lemma slotOf_put {k k' : IpKey} {r : Reass} {ds : List Packet} {pre post : List ReassData}
    {x : Option ReassData} {d : Option Packet} (hlist : r.reassdatagrams = pre ++ x.toList ++ post)
    (hother : ∀ r ∈ pre ++ post, r.iphdr.key ≠ k') (hx : ∀ r ∈ x, r.iphdr.key = k')
    (hd : ∀ e ∈ d, e.hdr.key = k') :
    slotOf k ⟨r, ds ++ d.toList⟩ =
      if k = k' then ⟨x, ds.filter (fun d => d.hdr.key == k) ++ d.toList⟩
      else ⟨entryOf k (pre ++ post), ds.filter fun d => d.hdr.key == k⟩ := by
  have hdel : d.toList.filter (fun d => d.hdr.key == k) = if k = k' then d.toList else [] := by
    cases d with
    | none => simp
    | some d =>
      have hkey : d.hdr.key = k' := hd d rfl
      by_cases hk : k = k'
      · simp [hkey, hk]
      · simp [hkey, hk, Ne.symm hk]
  simp only [slotOf, hlist, entryOf_put hother hx, List.filter_append, hdel]
  split <;> simp

/-- The entry that a fragment is put into: the one that is there, or a new one. -/
lemma getD_entry {p : Packet} {l pre post : List ReassData} {ipr : ReassData}
    (h : (l = pre ++ ipr :: post ∧ entryOf p.hdr.key l = some ipr) ∨
      (l = pre ++ post ∧ ipr = newDatagram p.hdr ∧ entryOf p.hdr.key l = none)) :
    (entryOf p.hdr.key l).getD (newDatagram p.hdr) = ipr := by
  rcases h with ⟨-, he⟩ | ⟨-, hnew, he⟩
  · rw [he]
    rfl
  · rw [he]
    exact hnew.symm

/-- One event, seen from one datagram. -/
lemma slotStep_of_reassStep {s s' : Reassembly} {e : ReassEvent} (k : IpKey)
    (h : ReassInv P s.reass) (hroom : Roomy s e)
    (hfrag : ∀ p, e = .input p → isFragment p.hdr = true) (hs : reassStep s e = .ok s') :
    slotStep k (slotOf k s) e = .ok (slotOf k s') := by
  cases e with
  | tmr =>
    obtain ⟨r, hr, -, hlist⟩ := tmrLoop_spec s.reass.reassdatagrams s.reass [] (by simpa using h)
    rw [reassStep, ipReassTmr, hr] at hs
    cases hs
    rw [slotStep, slotOf, slotOf, ← entryOf_aged h.keyed]
    simp only [hlist, List.nil_append]
  | input p =>
    obtain ⟨hroom, hpool⟩ := hroom
    cases hres : ip4Reass s.reass p with
    | error e =>
      rw [reassStep, hres] at hs
      cases hs
    | ok x =>
      obtain ⟨r, d⟩ := x
      rw [reassStep, hres] at hs
      cases hs
      rw [slotStep]
      by_cases hlen : p.hdr.hlen = ipHlen
      · obtain ⟨t, pre, ipr, post, hopen, hinto, hwhere⟩ := ip4Reass_into h hroom hpool hlen
        rw [hres] at hinto
        obtain ⟨x, hslot, hlist, hx, hd⟩ := reassInto_slotInto hopen (hfrag p rfl) hinto.symm
        have hother : ∀ r ∈ pre ++ post, r.iphdr.key ≠ p.hdr.key := by
          rw [← hopen.key]
          exact (keyed_middle.mp hopen.keyed).2
        rw [slotOf_put hlist hother hx hd]
        by_cases hk : p.hdr.key = k
        · -- the datagram of the fragment
          have hentry := getD_entry hwhere
          rw [hk] at hentry
          have hinput : slotInput (slotOf k s).entry p = .ok (x, d) := by
            rw [slotInput, if_neg (not_not.mpr hlen), slotOf, hentry]
            exact hslot
          rw [if_pos hk, if_pos hk.symm, hinput]
          rfl
        · -- another datagram
          have hsame : entryOf k s.reass.reassdatagrams = entryOf k (pre ++ post) := by
            rcases hwhere with ⟨hl, -⟩ | ⟨hl, -, -⟩
            · rw [hl, entryOf_middle (hl ▸ h.keyed), hopen.key, if_neg (Ne.symm hk)]
            · rw [hl]
          rw [if_neg hk, if_neg (Ne.symm hk), slotOf, hsame]
      · rw [ip4Reass, if_pos hlen] at hres
        cases hres
        have hinput : slotInput (slotOf k s).entry p = .ok ((slotOf k s).entry, none) := if_pos hlen
        rw [hinput]
        split <;> simp [slotOf, Except.map]

/-- An event that stops the server, seen from the datagram of its fragment. -/
lemma slotStep_error {s : Reassembly} {e : ReassEvent} {f : ReassFault} (h : ReassInv P s.reass)
    (hroom : Roomy s e) (hfrag : ∀ p, e = .input p → isFragment p.hdr = true)
    (hs : reassStep s e = .error f) :
    f = wrongEnd ∧ ∃ p, e = .input p ∧
      slotStep p.hdr.key (slotOf p.hdr.key s) (.input p) = .error f := by
  cases e with
  | tmr =>
    obtain ⟨r, hr, -⟩ := tmrLoop_spec s.reass.reassdatagrams s.reass [] (by simpa using h)
    rw [reassStep, ipReassTmr, hr] at hs
    cases hs
  | input p =>
    obtain ⟨hroom, hpool⟩ := hroom
    by_cases hlen : p.hdr.hlen = ipHlen
    · obtain ⟨t, pre, ipr, post, hopen, hinto, hwhere⟩ := ip4Reass_into h hroom hpool hlen
      cases hres : reassInto t pre ipr post p with
      | ok x =>
        rw [reassStep, hinto, hres] at hs
        cases hs
      | error g =>
        rw [reassStep, hinto, hres] at hs
        cases hs
        obtain ⟨hf, hslot⟩ := slotInto_error hopen (hfrag p rfl) hres
        refine ⟨hf, p, rfl, ?_⟩
        rw [slotStep, if_pos rfl, slotInput, if_neg (not_not.mpr hlen), slotOf, getD_entry hwhere,
          hslot]
        rfl
    · rw [reassStep, ip4Reass, if_pos hlen] at hs
      cases hs

lemma reassStep_inv {es : List ReassEvent} {s s' : Reassembly} {e : ReassEvent}
    (h : ReassInv (CameIn es) s.reass) (he : e ∈ es)
    (hfrag : ∀ p, e = .input p → isFragment p.hdr = true) (hs : reassStep s e = .ok s') :
    ReassInv (CameIn es) s'.reass := by
  rcases reassStep_spec h he hfrag with ⟨t, ht, hinv, -⟩ | herr
  · rw [hs] at ht
    cases ht
    exact hinv
  · rw [hs] at herr
    cases herr

/-- A run, seen from one datagram. -/
lemma exec_slot {es : List ReassEvent} (k : IpKey)
    (hfrag : ∀ p, .input p ∈ es → isFragment p.hdr = true) (l : List ReassEvent)
    (hl : ∀ e ∈ l, e ∈ es) {s s' : Reassembly} (h : ReassInv (CameIn es) s.reass)
    (hroom : Along reassStep Roomy s l) (hs : exec reassStep s l = .ok s') :
    exec (slotStep k) (slotOf k s) l = .ok (slotOf k s') := by
  induction l generalizing s with
  | nil =>
    cases hs
    rfl
  | cons e l ih =>
    have he := hl e List.mem_cons_self
    have hfrag' : ∀ p, e = .input p → isFragment p.hdr = true := fun p hp => hfrag p (hp ▸ he)
    obtain ⟨t, ht, hrest⟩ := exec_cons_inv hs
    rw [exec_cons_ok (slotStep_of_reassStep k h hroom.1 hfrag' ht)]
    exact ih (fun e he => hl e (List.mem_cons_of_mem _ he)) (reassStep_inv h he hfrag' ht)
      (hroom.2 t ht) hrest

/-- A fragment of the datagram `k` has stopped the server, by the assertion that stops the machine
of this datagram there, too. -/
def StoppedBy (k : IpKey) (es : List ReassEvent) : Prop :=
  ∃ pre p, pre ++ [.input p] <+: es ∧ p.hdr.key = k ∧
    exec reassStep reassStart (pre ++ [.input p]) = .error wrongEnd ∧
    exec (slotStep k) ⟨none, []⟩ (pre ++ [.input p]) = .error wrongEnd

/-- A run that is stopped is stopped by a fragment of one datagram. -/
lemma exec_slot_error {es : List ReassEvent}
    (hfrag : ∀ p, .input p ∈ es → isFragment p.hdr = true) (l : List ReassEvent)
    (hl : ∀ e ∈ l, e ∈ es) {s : Reassembly} (h : ReassInv (CameIn es) s.reass)
    (hroom : Along reassStep Roomy s l) {f : ReassFault} (hs : exec reassStep s l = .error f) :
    f = wrongEnd ∧ ∃ pre p, pre ++ [.input p] <+: l ∧
      exec reassStep s (pre ++ [.input p]) = .error f ∧
      exec (slotStep p.hdr.key) (slotOf p.hdr.key s) (pre ++ [.input p]) = .error f := by
  induction l generalizing s with
  | nil => cases hs
  | cons e l ih =>
    have he := hl e List.mem_cons_self
    have hfrag' : ∀ p, e = .input p → isFragment p.hdr = true := fun p hp => hfrag p (hp ▸ he)
    cases ht : reassStep s e with
    | error g =>
      rw [exec_cons_error ht] at hs
      cases hs
      obtain ⟨hf, p, rfl, hslot⟩ := slotStep_error h hroom.1 hfrag' ht
      exact ⟨hf, [], p, ⟨l, rfl⟩, exec_cons_error ht _, exec_cons_error hslot _⟩
    | ok t =>
      rw [exec_cons_ok ht] at hs
      obtain ⟨hf, pre, p, hpre, hrun, hslot⟩ := ih (fun e he => hl e (List.mem_cons_of_mem _ he))
        (reassStep_inv h he hfrag' ht) (hroom.2 t ht) hs
      refine ⟨hf, e :: pre, p, (List.prefix_cons_inj e).mpr hpre, ?_, ?_⟩
      · rw [List.cons_append, exec_cons_ok ht, hrun]
      · rw [List.cons_append, exec_cons_ok (slotStep_of_reassStep _ h hroom.1 hfrag' ht), hslot]

lemma stopped_of_error {es : List ReassEvent}
    (hfrag : ∀ p, .input p ∈ es → isFragment p.hdr = true)
    (hroom : Along reassStep Roomy reassStart es) {f : ReassFault}
    (hs : exec reassStep reassStart es = .error f) : ∃ k, StoppedBy k es := by
  obtain ⟨rfl, pre, p, hpre, hrun, hslot⟩ :=
    exec_slot_error hfrag es (fun _ he => he) reassInv_noDatagrams hroom hs
  exact ⟨p.hdr.key, pre, p, hpre, rfl, hrun, hslot⟩

/-- As long as there is room and no assertion fails, datagrams do not influence each other: what
happens to the entry of one key, and what is delivered with this key, is what the machine of this
datagram does alone.  If an assertion fails, a fragment of one datagram has made it fail, and would
have done so alone. -/
theorem reass_refines (es : List ReassEvent)
    (hfrag : ∀ p, .input p ∈ es → isFragment p.hdr = true)
    (hroom : Along reassStep Roomy reassStart es) :
    (∃ s, exec reassStep reassStart es = .ok s ∧
      ∀ k, exec (slotStep k) ⟨none, []⟩ es = .ok (slotOf k s)) ∨
    (exec reassStep reassStart es = .error wrongEnd ∧ ∃ k, StoppedBy k es) := by
  rcases reass_from_start hfrag with ⟨s, hs, -⟩ | herr
  · exact .inl ⟨s, hs, fun k =>
      exec_slot k hfrag es (fun _ he => he) reassInv_noDatagrams hroom hs⟩
  · exact .inr ⟨herr, stopped_of_error hfrag hroom herr⟩

/-- The two fragments of a datagram, with one of another datagram between them. -/
def crossed : List ReassEvent :=
  [.input (piece 1 8), .input ⟨{ (piece 0x2000 8).hdr with id := 8 }, ⟨true, [1, 2], []⟩⟩, .tmr,
    .input (piece 0x2000 8)]

theorem reass_refines_crossed :
    ∃ s, exec reassStep reassStart crossed = .ok s ∧ s.delivered.length = 1 ∧
      exec (slotStep (piece 1 8).hdr.key) ⟨none, []⟩ crossed =
        .ok (slotOf (piece 1 8).hdr.key s) := by
  have hrun : view (fun s : Reassembly => s.delivered.length) reassStep reassStart crossed =
      some 1 := by decide +kernel
  rcases reass_refines crossed (isFragment_of_inputs (by decide)) (by decide +kernel) with
    ⟨s, hs, hslot⟩ | ⟨herr, -⟩
  · have hone := obs_of_view hrun hs
    exact ⟨s, hs, hone, hslot _⟩
  · rw [view, herr] at hrun
    cases hrun

/-! ## The fragments of one datagram -/

/-- A packet that carries the data of a datagram from the position `a` on. -/
structure IsPiece (k : IpKey) (a : ℕ) (p : Packet) : Prop where
  key : p.hdr.key = k
  hlen : p.hdr.hlen = ipHlen
  position : p.hdr.position = a
  dataLen : p.hdr.dataLen = p.body.bytes.length

/-- The fragments of one datagram, in order, from the position `a` on. -/
inductive Pieces (k : IpKey) : ℕ → List Packet → Prop
  | last {a : ℕ} {p : Packet} (h : IsPiece k a p) (hmf : p.hdr.mf = false)
      (hfit : a + p.body.bytes.length + ipHlen < 65536) : Pieces k a [p]
  | more {a : ℕ} {p : Packet} {ps : List Packet} (h : IsPiece k a p) (hmf : p.hdr.mf = true)
      (hpos : 0 < p.body.bytes.length) (hps : Pieces k (a + p.body.bytes.length) ps) :
      Pieces k a (p :: ps)

/-- The data of some packets. -/
def dataOfPieces (ps : List Packet) : List UInt8 := ps.flatMap fun p => p.body.bytes

section Pieces

variable {k : IpKey} {a : ℕ} {ps : List Packet}

lemma dataOfPieces_cons (p : Packet) (ps : List Packet) :
    dataOfPieces (p :: ps) = p.body.bytes ++ dataOfPieces ps := by
  simp [dataOfPieces]

lemma Pieces.fits (h : Pieces k a ps) : a + (dataOfPieces ps).length + ipHlen < 65536 := by
  induction h with
  | last h hmf hfit => simpa [dataOfPieces] using hfit
  | more h hmf hpos hps ih =>
    rw [dataOfPieces_cons, List.length_append]
    omega

lemma Pieces.key (h : Pieces k a ps) : ∀ p ∈ ps, p.hdr.key = k ∧ p.hdr.hlen = ipHlen := by
  induction h with
  | last h hmf hfit =>
    intro p hp
    cases List.mem_singleton.mp hp
    exact ⟨h.key, h.hlen⟩
  | more h hmf hpos hps ih =>
    intro p hp
    rcases List.mem_cons.mp hp with rfl | hp
    · exact ⟨h.key, h.hlen⟩
    · exact ih p hp

lemma fragOf_piece {p : Packet} (h : IsPiece k a p) (hfit : a + p.body.bytes.length < 65536) :
    fragOf p = ⟨a, a + p.body.bytes.length, p.body⟩ := by
  rw [fragOf, h.position, h.dataLen, Nat.mod_eq_of_lt hfit]

/-- No fragment starts before the position `a`, and the end of the last one is the end of the
data. -/
lemma Pieces.bounds (h : Pieces k a ps) : ∀ p ∈ ps, a ≤ (fragOf p).start ∧
    (p.hdr.mf = false → (fragOf p).stop = a + (dataOfPieces ps).length) := by
  induction h with
  | last h hmf hfit =>
    intro p hp
    cases List.mem_singleton.mp hp
    rw [fragOf_piece h (by omega)]
    exact ⟨le_rfl, fun _ => by simp [dataOfPieces]⟩
  | @more a q qs h hmf hpos hps ih =>
    intro p hp
    have hfit := hps.fits
    rw [dataOfPieces_cons, List.length_append]
    rcases List.mem_cons.mp hp with rfl | hp
    · rw [fragOf_piece h (by omega), hmf]
      exact ⟨le_rfl, by simp⟩
    · obtain ⟨hle, hstop⟩ := ih p hp
      exact ⟨by omega, fun hp => by rw [hstop hp]; omega⟩

/-- `p` is a fragment in front of `q`. -/
def InFront (p q : Packet) : Prop :=
  (fragOf p).start < (fragOf q).start ∧ (fragOf p).stop ≤ (fragOf q).start ∧ p.hdr.mf = true

lemma Pieces.inFront (h : Pieces k a ps) : ps.Pairwise InFront := by
  induction h with
  | last h hmf hfit => exact List.pairwise_singleton _ _
  | more h hmf hpos hps ih =>
    have hfit := hps.fits
    refine List.pairwise_cons.mpr ⟨fun q hq => ?_, ih⟩
    have := (hps.bounds q hq).1
    rw [InFront, fragOf_piece h (by omega)]
    exact ⟨by simp only; omega, by simp only; omega, hmf⟩

lemma Pieces.ordered (h : Pieces k a ps) : Ordered (ps.map fragOf) := by
  rw [Ordered, List.pairwise_map]
  exact h.inFront.imp fun h => h.1

lemma Pieces.joined (h : Pieces k a ps) : Joined (ps.map fragOf) := by
  induction h with
  | last h hmf hfit => exact List.isChain_singleton _
  | @more a p ps h hmf hpos hps ih =>
    have hfit := hps.fits
    cases hps with
    | last h' hmf' hfit' =>
      refine List.isChain_cons_cons.mpr ⟨?_, ih⟩
      rw [fragOf_piece h (by omega), fragOf_piece h' (by omega)]
    | more h' hmf' hpos' hps' =>
      have hfit' := hps'.fits
      refine List.isChain_cons_cons.mpr ⟨?_, ih⟩
      rw [fragOf_piece h (by omega), fragOf_piece h' (by omega)]

/-- Of two fragments one is in front of the other. -/
lemma Pieces.inFront_or (h : Pieces k a ps) {p q : Packet} (hp : p ∈ ps) (hq : q ∈ ps)
    (hne : p ≠ q) : InFront p q ∨ InFront q p := by
  have : Std.Symm fun p q => InFront p q ∨ InFront q p := ⟨fun _ _ h => h.symm⟩
  have hall : ps.Pairwise fun p q => InFront p q ∨ InFront q p := h.inFront.imp Or.inl
  exact hall.forall hp hq hne

lemma Pieces.not_overlaps (h : Pieces k a ps) {p q : Packet} (hp : p ∈ ps) (hq : q ∈ ps)
    (hne : p ≠ q) : ¬ Overlaps (fragOf p) (fragOf q) := by
  rw [Overlaps]
  rcases h.inFront_or hp hq hne with h | h <;> rw [InFront] at h <;> omega

/-- There is one last fragment. -/
lemma Pieces.eq_of_last (h : Pieces k a ps) {p q : Packet} (hp : p ∈ ps) (hq : q ∈ ps)
    (hp' : p.hdr.mf = false) (hq' : q.hdr.mf = false) : p = q := by
  by_contra hne
  rcases h.inFront_or hp hq hne with h | h <;> simp_all [InFront]

/-- There is one fragment at each position. -/
lemma Pieces.eq_of_position (h : Pieces k a ps) {p q : Packet} (hp : p ∈ ps) (hq : q ∈ ps)
    (heq : p.hdr.position = q.hdr.position) : p = q := by
  by_contra hne
  rcases h.inFront_or hp hq hne with h | h
  · exact h.1.ne heq
  · exact h.1.ne heq.symm

lemma Pieces.nodup (h : Pieces k a ps) : ps.Nodup := by
  refine h.inFront.imp fun hfront heq => ?_
  rw [heq] at hfront
  exact hfront.1.false

/-- A fragment comes once. -/
lemma Pieces.once (h : Pieces k a ps) {arr rest : List Packet} {p : Packet}
    (hperm : (arr ++ [p] ++ rest).Perm ps) : p ∉ arr ∧ ∀ z ∈ rest, z ∉ arr ++ [p] := by
  obtain ⟨hfront, -, hapart⟩ := List.nodup_append.mp (hperm.nodup_iff.mpr h.nodup)
  have hp := (List.nodup_append.mp hfront).2.2
  exact ⟨fun hmem => hp p hmem p List.mem_cons_self rfl, fun z hz hmem => hapart z hmem z hz rfl⟩

lemma Pieces.exists_last (h : Pieces k a ps) : ∃ p ∈ ps, p.hdr.mf = false := by
  induction h with
  | last h hmf hfit => exact ⟨_, List.mem_cons_self, hmf⟩
  | more h hmf hpos hps ih =>
    obtain ⟨p, hp, hmf⟩ := ih
    exact ⟨p, List.mem_cons_of_mem _ hp, hmf⟩

lemma Pieces.first (h : Pieces k a ps) : ∃ p qs, ps = p :: qs ∧ (fragOf p).start = a := by
  cases h with
  | last h hmf hfit => exact ⟨_, _, rfl, h.position⟩
  | more h hmf hpos hps => exact ⟨_, _, rfl, h.position⟩

lemma Pieces.stop (h : Pieces k a ps) (f : Frag) :
    ((ps.map fragOf).getLastD f).stop = a + (dataOfPieces ps).length := by
  induction h generalizing f with
  | last h hmf hfit =>
    rw [List.map_singleton, List.getLastD_cons, List.getLastD_nil, fragOf_piece h (by omega)]
    simp [dataOfPieces]
  | more h hmf hpos hps ih =>
    rw [List.map_cons, List.getLastD_cons, ih, dataOfPieces_cons, List.length_append]
    omega

end Pieces

/-! ## Gathering the fragments -/

section Gather

variable {k : IpKey} {fs : List Packet}

/-- What the entry `r` says of the fragments `arr` of a datagram `fs`, `n` calls of the timer after
the first one came or less. -/
structure Noted (fs arr : List Packet) (n : ℕ) (r : ReassData) : Prop where
  last : r.lastFrag = true ↔ ∃ p ∈ arr, p.hdr.mf = false
  len : r.lastFrag = true → r.datagramLen = (dataOfPieces fs).length
  hdr : r.iphdr.position = 0 → ∃ p ∈ arr, p.hdr.position = 0
  first : ∀ p ∈ arr, p.hdr.position = 0 → r.iphdr = p.hdr
  timer : ipReassMaxage ≤ r.timer + n

/-- The entry waits with the fragments `arr`. -/
structure Gathers (fs arr : List Packet) (n : ℕ) (r : ReassData) : Prop
    extends Noted fs arr n r where
  perm : r.p.Perm (arr.map fragOf)
  ordered : Ordered r.p

/-- The entry when the fragment `p` has come, but is not yet in the queue. -/
structure Ready (fs arr : List Packet) (p : Packet) (n : ℕ) (u : ReassData) : Prop
    extends Noted fs (arr ++ [p]) n u where
  perm : u.p.Perm (arr.map fragOf)
  ordered : Ordered u.p

lemma updateEntry_datagramLen (ipr : ReassData) (h : IpHdr) :
    (updateEntry ipr h).datagramLen =
      if h.mf then ipr.datagramLen else (h.position + h.dataLen) % 65536 := by
  simp only [updateEntry]
  split <;> split <;> simp_all

lemma updateEntry_iphdr (ipr : ReassData) (h : IpHdr) :
    (updateEntry ipr h).iphdr =
      if h.position = 0 ∧ ipr.iphdr.position ≠ 0 then h else ipr.iphdr := by
  simp only [updateEntry]
  split <;> split <;> simp_all

/-- The length is that of the last fragment's end. -/
lemma len_updateEntry (hfs : Pieces k 0 fs) {p : Packet} (hp : p ∈ fs) {r : ReassData}
    (hlen : r.lastFrag = true → r.datagramLen = (dataOfPieces fs).length)
    (hlast : (updateEntry r p.hdr).lastFrag = true) :
    (updateEntry r p.hdr).datagramLen = (dataOfPieces fs).length := by
  rw [updateEntry_datagramLen]
  cases hmf : p.hdr.mf with
  | true =>
    rw [updateEntry_lastFrag, hmf] at hlast
    exact hlen (by simpa using hlast)
  | false =>
    have hstop := (hfs.bounds p hp).2 hmf
    rw [Nat.zero_add] at hstop
    exact hstop

lemma Gathers.ready (hfs : Pieces k 0 fs) {arr : List Packet} {n : ℕ} {r : ReassData}
    (h : Gathers fs arr n r) (harr : ∀ q ∈ arr, q ∈ fs) {p : Packet} (hp : p ∈ fs)
    (hnew : p ∉ arr) : Ready fs arr p n (updateEntry r p.hdr) := by
  have hzero : ∀ q ∈ arr, q.hdr.position = 0 → p.hdr.position ≠ 0 := by
    intro q hq hq0 hp0
    exact hnew (hfs.eq_of_position (harr q hq) hp (hq0.trans hp0.symm) ▸ hq)
  refine ⟨⟨?_, len_updateEntry hfs hp h.len, ?_, ?_, ?_⟩, ?_, ?_⟩
  · rw [updateEntry_lastFrag]
    simp only [Bool.or_eq_true, h.last, Bool.not_eq_true', List.mem_append, List.mem_singleton]
    constructor
    · rintro (⟨q, hq, hmf⟩ | hmf)
      · exact ⟨q, .inl hq, hmf⟩
      · exact ⟨p, .inr rfl, hmf⟩
    · rintro ⟨q, hq | rfl, hmf⟩
      · exact .inl ⟨q, hq, hmf⟩
      · exact .inr hmf
  · rw [updateEntry_iphdr]
    split
    · exact fun hp0 => ⟨p, by simp, hp0⟩
    · intro hr0
      obtain ⟨q, hq, hq0⟩ := h.hdr hr0
      exact ⟨q, List.mem_append_left _ hq, hq0⟩
  · intro q hq hq0
    rw [updateEntry_iphdr]
    rcases List.mem_append.mp hq with hq | hq
    · rw [if_neg fun hc => hzero q hq hq0 hc.1]
      exact h.first q hq hq0
    · cases List.mem_singleton.mp hq
      have hne : r.iphdr.position ≠ 0 := by
        intro hr0
        obtain ⟨q', hq', hq0'⟩ := h.hdr hr0
        exact hzero q' hq' hq0' hq0
      rw [if_pos ⟨hq0, hne⟩]
  · rw [updateEntry_timer]
    exact h.timer
  · rw [updateEntry_p]
    exact h.perm
  · rw [updateEntry_p]
    exact h.ordered

lemma ready_new (hfs : Pieces k 0 fs) {p : Packet} (hp : p ∈ fs) (n : ℕ) :
    Ready fs [] p n (updateEntry (newDatagram p.hdr) p.hdr) := by
  have hhdr : (updateEntry (newDatagram p.hdr) p.hdr).iphdr = p.hdr := by
    rw [updateEntry_iphdr]
    split <;> rfl
  refine ⟨⟨?_, len_updateEntry hfs hp (by simp [newDatagram]), ?_, ?_, ?_⟩, ?_, ?_⟩
  · rw [updateEntry_lastFrag]
    simp [newDatagram]
  · rw [hhdr]
    exact fun h0 => ⟨p, by simp, h0⟩
  · intro q hq _
    rw [hhdr, List.mem_singleton.mp hq]
  · rw [updateEntry_timer]
    exact Nat.le_add_right _ _
  · rw [updateEntry_p]
    exact List.Perm.refl _
  · rw [updateEntry_p]
    exact List.Pairwise.nil

lemma getLastD_middle (before : List Frag) (f g : Frag) (after : List Frag) :
    (before ++ f :: after).getLastD g = after.getLastD f := by
  induction before generalizing g with
  | nil => rw [List.nil_append, List.getLastD_cons]
  | cons b before ih => rw [List.cons_append, List.getLastD_cons, ih]

section Arrival

variable {arr : List Packet} {p : Packet} {n : ℕ} {u : ReassData}

lemma Ready.not_dropped (hfs : Pieces k 0 fs) (h : Ready fs arr p n u) (harr : ∀ q ∈ arr, q ∈ fs)
    (hp : p ∈ fs) (hnew : p ∉ arr) : ¬ ∃ f ∈ u.p, Overlaps (fragOf p) f := by
  rintro ⟨f, hf, hover⟩
  obtain ⟨q, hq, rfl⟩ := List.mem_map.mp (h.perm.subset hf)
  exact hfs.not_overlaps hp (harr q hq) (fun he => hnew (he ▸ hq)) hover

/-- The queue with the new fragment. -/
lemma Ready.placed (h : Ready fs arr p n u) {before after : List Frag}
    (hat : PlacedAt (fragOf p) none u.p before after) :
    (before ++ fragOf p :: after).Perm ((arr ++ [p]).map fragOf) ∧
      Ordered (before ++ fragOf p :: after) := by
  refine ⟨?_, hat.ordered h.ordered⟩
  have hperm := h.perm
  rw [hat.split] at hperm
  rw [List.map_append, List.map_singleton]
  exact List.perm_middle.trans ((hperm.cons (fragOf p)).trans (List.perm_append_singleton _ _).symm)

/-- The assertion about the first fragment does not matter here. -/
lemma Ready.first_frag (h : Ready fs arr p n u) (hfrag : isFragment p.hdr = true) :
    u.p = [] → u.lastFrag = true → (fragOf p).start ≠ 0 := by
  intro hnil hlast
  have harr : arr = [] := by
    have hperm := h.perm
    rw [hnil] at hperm
    exact List.map_eq_nil_iff.mp hperm.symm.eq_nil
  obtain ⟨q, hq, hmf⟩ := h.last.mp hlast
  rw [harr, List.nil_append, List.mem_singleton] at hq
  exact position_ne_zero hfrag (hq ▸ hmf)

/-- While the first or the last fragment has not come, the others wait. -/
lemma Ready.waits (hfs : Pieces k 0 fs) (h : Ready fs arr p n u) (harr : ∀ q ∈ arr, q ∈ fs)
    (hp : p ∈ fs) (hnew : p ∉ arr) (hfrag : isFragment p.hdr = true) {z : Packet} (hz : z ∈ fs)
    (hmiss : z ∉ arr ++ [p]) (hend : z.hdr.mf = false ∨ z.hdr.position = 0) :
    ∃ r, chainFrag u (fragOf p) = .ok (some (r, false)) ∧ Gathers fs (arr ++ [p]) n r := by
  have hall : ∀ q ∈ arr ++ [p], q ∈ fs := by
    intro q hq
    rcases List.mem_append.mp hq with hq | hq
    · exact harr q hq
    · exact List.mem_singleton.mp hq ▸ hp
  have hnot : ∀ {before after : List Frag}, PlacedAt (fragOf p) none u.p before after →
      ¬ Completes u (fragOf p) before after := by
    intro before after hat hc
    rcases hend with hmf | hpos
    · obtain ⟨q, hq, hq'⟩ := h.last.mp hc.lastFrag
      exact hmiss (hfs.eq_of_last (hall q hq) hz hq' hmf ▸ hq)
    · -- the first fragment of the queue is the first of the datagram
      obtain ⟨hperm, -⟩ := h.placed hat
      have hmem : (before ++ fragOf p :: after).headD (fragOf p) ∈
          before ++ fragOf p :: after := by
        cases before <;> simp
      obtain ⟨q, hq, hq'⟩ := List.mem_map.mp (hperm.subset hmem)
      have hzero : q.hdr.position = 0 := (congrArg Frag.start hq').trans hc.first
      exact hmiss (hfs.eq_of_position (hall q hq) hz (hzero.trans hpos.symm) ▸ hq)
  have hcases := chainFrag_cases (h.first_frag hfrag)
  generalize chainFrag u (fragOf p) = c at hcases ⊢
  cases hcases with
  | dropped hover => exact absurd hover (h.not_dropped hfs harr hp hnew)
  | waits hat hnc =>
    obtain ⟨hperm, hord⟩ := h.placed hat
    exact ⟨_, rfl, ⟨h.last, h.len, h.hdr, h.first, h.timer⟩, hperm, hord⟩
  | complete hat hc _ => exact absurd hc (hnot hat)
  | wrongEnd hat hc _ => exact absurd hc (hnot hat)

/-- When all fragments have come, the datagram is complete. -/
lemma Ready.completes (hfs : Pieces k 0 fs) (h : Ready fs arr p n u)
    (hall : (arr ++ [p]).Perm fs) (hfrag : isFragment p.hdr = true) :
    chainFrag u (fragOf p) = .ok (some ({ u with p := fs.map fragOf }, true)) := by
  have harr : ∀ q ∈ arr, q ∈ fs := fun q hq => hall.subset (List.mem_append_left _ hq)
  have hp : p ∈ fs := hall.subset (by simp)
  have hnew : p ∉ arr := (hfs.once (by simpa using hall)).1
  have hqueue : ∀ {before after : List Frag}, PlacedAt (fragOf p) none u.p before after →
      before ++ fragOf p :: after = fs.map fragOf := by
    intro before after hat
    obtain ⟨hperm, hord⟩ := h.placed hat
    refine List.Perm.eq_of_pairwise (fun f g _ _ h h' => ?_) hord hfs.ordered
      (hperm.trans (hall.map fragOf))
    omega
  have hlast : u.lastFrag = true := by
    obtain ⟨q, hq, hmf⟩ := hfs.exists_last
    exact h.last.mpr ⟨q, hall.symm.subset hq, hmf⟩
  have hdone : ∀ {before after : List Frag}, PlacedAt (fragOf p) none u.p before after →
      Completes u (fragOf p) before after ∧
        (after.getLastD (fragOf p)).stop = u.datagramLen := by
    intro before after hat
    have hq := hqueue hat
    have hjoined := hfs.joined
    rw [← hq] at hjoined
    refine ⟨⟨hlast, ?_, ?_, hjoined.right_of_append⟩, ?_⟩
    · obtain ⟨q, qs, rfl, hq0⟩ := hfs.first
      rw [hq]
      exact hq0
    · cases after with
      | nil => exact hjoined
      | cons g after => simpa [ending, Joined] using hjoined.left_of_append
    · have hstop := hfs.stop (fragOf p)
      rw [← hq, getLastD_middle, Nat.zero_add] at hstop
      rw [hstop, h.len hlast]
  have hcases := chainFrag_cases (h.first_frag hfrag)
  generalize chainFrag u (fragOf p) = c at hcases ⊢
  cases hcases with
  | dropped hover => exact absurd hover (h.not_dropped hfs harr hp hnew)
  | waits hat hnc => exact absurd (hdone hat).1 hnc
  | complete hat hc hend => rw [hqueue hat]
  | wrongEnd hat hc hend => exact absurd (hdone hat).2 hend

end Arrival

/-! ## The run of one datagram -/

/-- The packets with the given key that come in. -/
def inputsOf (k : IpKey) (es : List ReassEvent) : List Packet :=
  (es.filterMap ReassEvent.packet?).filter fun p => p.hdr.key == k

/-- The datagram that has the given fragments. -/
def datagramOf (f : Packet) (fs : List Packet) : Packet :=
  ⟨IpHdr.withChksum { f.hdr with
      len := UInt16.ofNat ((dataOfPieces (f :: fs)).length + ipHlen), offset := 0 } f.body.odd,
    chainBodies (fragOf f) (fs.map fragOf)⟩

lemma inputsOf_tmr (k : IpKey) (es : List ReassEvent) :
    inputsOf k (.tmr :: es) = inputsOf k es := rfl

lemma inputsOf_own {k : IpKey} {p : Packet} (h : p.hdr.key = k) (es : List ReassEvent) :
    inputsOf k (.input p :: es) = p :: inputsOf k es := by
  simp [inputsOf, ReassEvent.packet?, h]

lemma inputsOf_other {k : IpKey} {p : Packet} (h : p.hdr.key ≠ k) (es : List ReassEvent) :
    inputsOf k (.input p :: es) = inputsOf k es := by
  simp [inputsOf, ReassEvent.packet?, h]

/-- Without an entry nothing happens until a fragment of the datagram comes. -/
lemma exec_slot_idle {ds : List Packet} {l : List ReassEvent} (h : inputsOf k l = []) :
    exec (slotStep k) ⟨none, ds⟩ l = .ok ⟨none, ds⟩ := by
  induction l with
  | nil => rfl
  | cons e l ih =>
    cases e with
    | tmr =>
      have hstep : slotStep k ⟨none, ds⟩ .tmr = .ok ⟨none, ds⟩ := rfl
      rw [exec_cons_ok hstep]
      exact ih h
    | input p =>
      by_cases hk : p.hdr.key = k
      · rw [inputsOf_own hk] at h
        cases h
      · have hstep : slotStep k ⟨none, ds⟩ (.input p) = .ok ⟨none, ds⟩ := if_neg hk
        rw [exec_cons_ok hstep]
        rw [inputsOf_other hk] at h
        exact ih h

/-- The state of the machine when the fragments `arr` have come. -/
inductive Gathered (fs : List Packet) : List Packet → ℕ → Option ReassData → Prop
  | nothing (n : ℕ) : Gathered fs [] n none
  | entry {arr : List Packet} {n : ℕ} {r : ReassData} (h : Gathers fs arr n r) :
      Gathered fs arr n (some r)

lemma Gathered.ready (hfs : Pieces k 0 fs) {arr : List Packet} {n : ℕ} {x : Option ReassData}
    (h : Gathered fs arr n x) (harr : ∀ q ∈ arr, q ∈ fs) {p : Packet} (hp : p ∈ fs)
    (hnew : p ∉ arr) :
    Ready fs arr p n (updateEntry (x.getD (newDatagram p.hdr)) p.hdr) := by
  cases h with
  | nothing n => exact ready_new hfs hp n
  | entry h => exact h.ready hfs harr hp hnew

/-- The timer is called at most three times while fragments wait. -/
lemma Gathered.tmr {arr : List Packet} {n : ℕ} {x : Option ReassData} (h : Gathered fs arr n x)
    (hn : n < ipReassMaxage) :
    Gathered fs arr (n + 1) ((x.filter fun r => 0 < r.timer).map aged) := by
  cases h with
  | nothing n => exact .nothing (n + 1)
  | @entry arr n r h =>
    have htimer := h.timer
    have hpos : 0 < r.timer := by omega
    have : ((some r).filter fun r => 0 < r.timer).map aged = some (aged r) := by
      simp [hpos]
    rw [this]
    refine .entry ⟨⟨h.last, h.len, h.hdr, h.first, ?_⟩, h.perm, h.ordered⟩
    simp only [aged]
    omega

lemma wholeDatagram_pieces {f : Packet} {fs : List Packet} (hfs : Pieces k 0 (f :: fs))
    {u : ReassData} (hlen : u.datagramLen = (dataOfPieces (f :: fs)).length)
    (hhdr : u.iphdr = f.hdr) :
    wholeDatagram { u with p := (f :: fs).map fragOf } = some (datagramOf f fs) := by
  have hfit := hfs.fits
  have hmod : (u.datagramLen + ipHlen) % 65536 = (dataOfPieces (f :: fs)).length + ipHlen := by
    rw [hlen]
    exact Nat.mod_eq_of_lt (by omega)
  rw [wholeDatagram_cons (List.map_cons ..)]
  simp only [hmod, hhdr]
  rfl

lemma slotStep_own {p : Packet} (hk : p.hdr.key = k) (hlen : p.hdr.hlen = ipHlen)
    {x y : Option ReassData} {d : Option Packet}
    (h : slotInto (x.getD (newDatagram p.hdr)) p = .ok (y, d)) :
    slotStep k ⟨x, []⟩ (.input p) = .ok ⟨y, d.toList⟩ := by
  rw [slotStep, if_pos hk, slotInput, if_neg (not_not.mpr hlen), h]
  rfl

section Step

variable {arr : List Packet} {p : Packet} {n : ℕ} {x : Option ReassData}

/-- A fragment comes, and the first or the last one is missing. -/
lemma Gathered.waits (hfs : Pieces k 0 fs) (h : Gathered fs arr n x)
    (hall : ∀ q ∈ arr ++ [p], q ∈ fs) (hnew : p ∉ arr) (hfrag : isFragment p.hdr = true)
    {z : Packet} (hz : z ∈ fs) (hmiss : z ∉ arr ++ [p])
    (hend : z.hdr.mf = false ∨ z.hdr.position = 0) :
    ∃ r, slotStep k ⟨x, []⟩ (.input p) = .ok ⟨some r, []⟩ ∧ Gathers fs (arr ++ [p]) n r := by
  have harr : ∀ q ∈ arr, q ∈ fs := fun q hq => hall q (List.mem_append_left _ hq)
  have hp : p ∈ fs := hall p (by simp)
  obtain ⟨r, hchain, hr⟩ := (h.ready hfs harr hp hnew).waits hfs harr hp hnew hfrag hz hmiss hend
  refine ⟨r, slotStep_own (d := none) (hfs.key p hp).1 (hfs.key p hp).2 ?_, hr⟩
  rw [slotInto, hchain]
  rfl

/-- The last fragment comes that was missing. -/
lemma Gathered.completes {f : Packet} (hfs : Pieces k 0 (f :: fs)) (h : Gathered (f :: fs) arr n x)
    (hall : (arr ++ [p]).Perm (f :: fs)) (hfrag : isFragment p.hdr = true) :
    slotStep k ⟨x, []⟩ (.input p) = .ok ⟨none, [datagramOf f fs]⟩ := by
  have hp : p ∈ f :: fs := hall.subset (by simp)
  have hready := h.ready hfs (fun q hq => hall.subset (List.mem_append_left _ hq)) hp
    (hfs.once (by simpa using hall)).1
  obtain ⟨l, hl, hlast⟩ := hfs.exists_last
  have hlen := hready.len (hready.last.mpr ⟨l, hall.symm.subset hl, hlast⟩)
  have hhdr : (updateEntry (x.getD (newDatagram p.hdr)) p.hdr).iphdr = f.hdr := by
    obtain ⟨_, _, hf, hf0⟩ := hfs.first
    cases hf
    exact hready.first f (hall.symm.subset List.mem_cons_self) hf0
  refine slotStep_own (d := some _) (hfs.key p hp).1 (hfs.key p hp).2 ?_
  rw [slotInto, hready.completes hfs hall hfrag, ok_bind]
  simp only
  rw [wholeDatagram_pieces hfs hlen hhdr]

end Step

/-- The machine of a datagram of which the fragments `arr` have come, and the others will.  The
fragment that comes last is missing until then, so the entry waits. -/
lemma exec_slot_gather {f : Packet} {fs : List Packet} (hfs : Pieces k 0 (f :: fs))
    (l : List ReassEvent) (hfrag : ∀ p, .input p ∈ l → isFragment p.hdr = true)
    {arr : List Packet} {n : ℕ} {x : Option ReassData} (h : Gathered (f :: fs) arr n x)
    (hperm : (arr ++ inputsOf k l).Perm (f :: fs)) (hrest : inputsOf k l ≠ [])
    (hend : ∀ z ∈ (inputsOf k l).getLast?, z.hdr.mf = false ∨ z.hdr.position = 0)
    (hn : n + l.count .tmr ≤ ipReassMaxage) :
    exec (slotStep k) ⟨x, []⟩ l = .ok ⟨none, [datagramOf f fs]⟩ := by
  induction l generalizing arr n x with
  | nil => exact absurd rfl hrest
  | cons e l ih =>
    have hfrag' : ∀ p, .input p ∈ l → isFragment p.hdr = true := fun p hp =>
      hfrag p (List.mem_cons_of_mem _ hp)
    cases e with
    | tmr =>
      rw [List.count_cons_self] at hn
      rw [inputsOf_tmr] at hperm hrest hend
      have hstep : slotStep k ⟨x, []⟩ .tmr =
          .ok ⟨(x.filter fun r => 0 < r.timer).map aged, []⟩ := rfl
      rw [exec_cons_ok hstep]
      exact ih hfrag' (h.tmr (by omega)) hperm hrest hend (by omega)
    | input p =>
      have hcount : (ReassEvent.input p :: l).count .tmr = l.count .tmr :=
        List.count_cons_of_ne (by simp)
      rw [hcount] at hn
      by_cases hk : p.hdr.key = k
      swap
      · rw [inputsOf_other hk] at hperm hrest hend
        have hstep : slotStep k ⟨x, []⟩ (.input p) = .ok ⟨x, []⟩ := if_neg hk
        rw [exec_cons_ok hstep]
        exact ih hfrag' h hperm hrest hend hn
      rw [inputsOf_own hk] at hperm hend
      have hsplit : (arr ++ [p] ++ inputsOf k l).Perm (f :: fs) := by simpa using hperm
      have hfragp := hfrag p List.mem_cons_self
      by_cases hmore : inputsOf k l = []
      · rw [hmore, List.append_nil] at hsplit
        rw [exec_cons_ok (h.completes hfs hsplit hfragp)]
        exact exec_slot_idle hmore
      · obtain ⟨hnew, hmiss⟩ := hfs.once hsplit
        have hall : ∀ q ∈ arr ++ [p] ++ inputsOf k l, q ∈ f :: fs := fun _ hq => hsplit.subset hq
        have hz := List.getLast_mem hmore
        obtain ⟨r, hstep, hr⟩ := h.waits hfs (fun q hq => hall q (List.mem_append_left _ hq)) hnew
          hfragp (hall _ (List.mem_append_right _ hz)) (hmiss _ hz)
          (hend _ (by simp [List.getLast?_cons, List.getLast?_eq_some_getLast hmore]))
        rw [exec_cons_ok hstep]
        refine ih hfrag' (.entry hr) hsplit hmore (fun z hz => hend z ?_) hn
        rw [List.getLast?_cons, Option.mem_def.mp hz]
        rfl

end Gather

lemma datagramOf_bytes (f : Packet) (fs : List Packet) :
    (datagramOf f fs).body.bytes = dataOfPieces (f :: fs) := by
  show (chainBodies _ _).bytes = _
  rw [chainBodies_bytes, ← List.map_cons, List.flatMap_map]
  rfl

/-- The machine of a datagram that gets its fragments delivers it, whatever else comes in. -/
lemma exec_slot_pieces {k : IpKey} {f : Packet} {fs : List Packet}
    (hfs : Pieces k 0 (f :: fs)) {es₀ es₁ : List ReassEvent}
    (hfrag : ∀ p, .input p ∈ es₀ ++ es₁ → isFragment p.hdr = true)
    (hbefore : inputsOf k es₀ = []) (hperm : (inputsOf k es₁).Perm (f :: fs))
    (hend : ∀ z ∈ (inputsOf k es₁).getLast?, z.hdr.mf = false ∨ z.hdr.position = 0)
    (htmr : es₁.count .tmr ≤ ipReassMaxage) :
    exec (slotStep k) ⟨none, []⟩ (es₀ ++ es₁) = .ok ⟨none, [datagramOf f fs]⟩ := by
  have hrest : inputsOf k es₁ ≠ [] := by
    intro h
    rw [h] at hperm
    exact List.cons_ne_nil _ _ hperm.symm.eq_nil
  rw [exec_append (exec_slot_idle hbefore)]
  exact exec_slot_gather hfs es₁ (fun p hp => hfrag p (List.mem_append_right _ hp)) (.nothing 0)
    hperm hrest hend (by omega)

/-- If the machine of one datagram comes to its end alone, then the whole stack does and shows the
same of this datagram, unless the fragment of another datagram stops it. -/
lemma slotOf_or_stopped {k : IpKey} {es : List ReassEvent} {t : Slot}
    (hfrag : ∀ p, .input p ∈ es → isFragment p.hdr = true)
    (hroom : Along reassStep Roomy reassStart es)
    (ht : exec (slotStep k) ⟨none, []⟩ es = .ok t) :
    (∃ s, exec reassStep reassStart es = .ok s ∧ slotOf k s = t) ∨
      ∃ k', k' ≠ k ∧ StoppedBy k' es := by
  cases hs : exec reassStep reassStart es with
  | ok s =>
    have hslot := exec_slot k hfrag es (fun _ he => he) reassInv_noDatagrams hroom hs
    exact .inl ⟨s, rfl, Except.ok.inj (hslot.symm.trans ht)⟩
  | error f =>
    obtain ⟨k', hstop⟩ := stopped_of_error hfrag hroom hs
    refine .inr ⟨k', ?_, hstop⟩
    rintro rfl
    obtain ⟨pre, p, ⟨rest, rfl⟩, -, -, hslot⟩ := hstop
    rw [exec_append_error hslot] at ht
    cases ht

lemma StoppedBy.not_ok {k : IpKey} {es : List ReassEvent} (h : StoppedBy k es) (s : Reassembly) :
    exec reassStep reassStart es ≠ .ok s := by
  obtain ⟨pre, p, ⟨rest, rfl⟩, -, hrun, -⟩ := h
  rw [exec_append_error hrun]
  exact nofun

/-- The fragments of `crossed` that belong together. -/
lemma pieces_crossed :
    Pieces (piece 1 8).hdr.key 0 [piece 0x2000 8, piece 1 8] := by
  refine .more ⟨by decide, by decide, by decide, by decide⟩ (by decide) (by decide) ?_
  exact .last ⟨rfl, by decide, by decide, by decide⟩ (by decide) (by decide)

end Lwip
end DeepForensics
