/-
# The queue of a datagram

What `ip4_reass` does with one more fragment of a datagram.  The fragments that wait are ordered by
their first positions.  A new one is dropped, or it is put in its place, and then the datagram may
be complete: `findPlace` and `noHoles` look for holes between all neighbours, except for the hole in
front of a new fragment that has another one behind it.
-/
import DeepForensics.Lwip.Ip4Frag
import DeepForensics.Lib.Run
import Mathlib.Data.List.Chain

namespace DeepForensics
namespace Lwip

open Runs

/-- Each fragment ends where the next one starts. -/
def Joined (l : List Frag) : Prop := l.IsChain fun f g => f.stop = g.start

/-- The fragments are ordered by their first positions. -/
def Ordered (l : List Frag) : Prop := l.Pairwise fun f g => f.start < g.start

/-- The new fragment, where it ends the queue. -/
def ending (new : Frag) (after : List Frag) : List Frag := if after.isEmpty then [new] else []

/-- The place that the loop finds between the fragments of a queue.  A fragment that starts before
all others may overlap with them: there the loop does not look. -/
structure PlacedAt (new : Frag) (prev : Option Frag) (q before after : List Frag) : Prop where
  split : q = before ++ after
  low : ∀ f ∈ before, f.start < new.start ∧ f.stop ≤ new.start
  high : ∀ f ∈ after.head?, new.start < f.start
  apart : prev.toList ++ before ≠ [] → ∀ f ∈ after.head?, new.stop ≤ f.start

/-- A fragment that is in the way of a new one. -/
def Overlaps (new f : Frag) : Prop :=
  f.start = new.start ∨ (f.start < new.start ∧ new.start < f.stop) ∨
    (new.start < f.start ∧ f.start < new.stop)

lemma findPlace_cases (new : Frag) (prev : Option Frag) (valid : Bool) (q : List Frag)
    (hprev : ∀ f ∈ prev, f.stop ≤ new.start) :
    (findPlace new prev valid q = .ok .freepbuf ∧ ∃ f ∈ q, Overlaps new f) ∨
    ∃ v before after, findPlace new prev valid q = .ok (.chained v before after) ∧
      PlacedAt new prev q before after ∧
      (v = true ↔ valid = true ∧ Joined (prev.toList ++ before ++ ending new after)) := by
  induction q generalizing prev valid with
  | nil =>
    right
    cases prev with
    | none =>
      refine ⟨valid, [], [], rfl, ⟨rfl, by simp, by simp, by simp⟩, ?_⟩
      simp [ending, Joined]
    | some f =>
      have hle : f.stop ≤ new.start := hprev f rfl
      refine ⟨valid && f.stop == new.start, [], [], ?_, ⟨rfl, by simp, by simp, by simp⟩, ?_⟩
      · simp [findPlace, reassAssert, hle]
      · simp [ending, Joined, List.isChain_cons_cons]
  | cons tmp rest ih =>
    rw [findPlace.eq_def]
    simp only
    by_cases hlt : new.start < tmp.start
    · rw [if_pos hlt]
      cases prev with
      | none =>
        right
        refine ⟨valid, [], tmp :: rest, rfl, ⟨rfl, by simp, by simpa using hlt, by simp⟩, ?_⟩
        simp [ending, Joined]
      | some f =>
        have hle : f.stop ≤ new.start := hprev f rfl
        by_cases hover : new.start < f.stop ∨ new.stop > tmp.start
        · exact .inl ⟨if_pos hover, tmp, List.mem_cons_self, .inr (.inr (by omega))⟩
        · right
          refine ⟨valid, [], tmp :: rest, if_neg hover, ⟨rfl, by simp, by simpa using hlt, ?_⟩, ?_⟩
          · intro _ g hg
            cases hg
            omega
          · simp [ending, Joined]
    · rw [if_neg hlt]
      by_cases heq : new.start = tmp.start
      · exact .inl ⟨if_pos heq, tmp, List.mem_cons_self, .inl heq.symm⟩
      rw [if_neg heq]
      by_cases hin : new.start < tmp.stop
      · exact .inl ⟨if_pos hin, tmp, List.mem_cons_self, .inr (.inl (by omega))⟩
      rw [if_neg hin]
      -- the loop passes `tmp`, and looks for a hole in front of it
      rcases ih (some tmp) (valid && prev.all fun f => f.stop == tmp.start)
        (by rintro f ⟨⟩; omega) with ⟨h, f, hf, hover⟩ | ⟨v, before, after, h, hat, hv⟩
      · exact .inl ⟨by rw [h]; rfl, f, List.mem_cons_of_mem _ hf, hover⟩
      · right
        refine ⟨v, tmp :: before, after, by rw [h]; rfl, ⟨?_, ?_, hat.high, ?_⟩, ?_⟩
        · rw [hat.split]
          rfl
        · intro f hf
          rcases List.mem_cons.mp hf with rfl | hf
          · omega
          · exact hat.low f hf
        · intro _
          exact hat.apart (by simp)
        · rw [hv]
          cases prev with
          | none => simp [Joined]
          | some f => simp [Joined, List.isChain_cons_cons, and_assoc]

lemma noHoles_iff (f : Frag) (fs : List Frag) : noHoles f fs = true ↔ Joined (f :: fs) := by
  induction fs generalizing f with
  | nil => simp [noHoles, Joined]
  | cons g fs ih =>
    rw [noHoles, Bool.and_eq_true, ih, beq_iff_eq, Joined, Joined, List.isChain_cons_cons]

/-- The fragments are put in order. -/
lemma PlacedAt.ordered {new : Frag} {prev : Option Frag} {q before after : List Frag}
    (h : PlacedAt new prev q before after) (hq : Ordered q) :
    Ordered (before ++ new :: after) := by
  rw [h.split, Ordered, List.pairwise_append] at hq
  obtain ⟨hbefore, hafter, hcross⟩ := hq
  have hhigh : ∀ f ∈ after, new.start < f.start := by
    intro f hf
    cases after with
    | nil => cases hf
    | cons g after =>
      have hg := h.high g rfl
      rcases List.mem_cons.mp hf with rfl | hf
      · exact hg
      · exact hg.trans ((List.pairwise_cons.mp hafter).1 f hf)
  rw [Ordered, List.pairwise_append]
  refine ⟨hbefore, List.pairwise_cons.mpr ⟨hhigh, hafter⟩, fun f hf g hg => ?_⟩
  rcases List.mem_cons.mp hg with rfl | hg
  · exact (h.low f hf).1
  · exact hcross f hf g hg

/-- What has to hold for a datagram to be taken as complete when `new` arrives between `before` and
`after`. -/
structure Completes (ipr : ReassData) (new : Frag) (before after : List Frag) : Prop where
  lastFrag : ipr.lastFrag = true
  first : ((before ++ new :: after).headD new).start = 0
  joined : Joined (before ++ ending new after)
  joined_after : Joined (new :: after)

/-- The text of the assertion that can fail. -/
def wrongEnd : ReassFault := .assertion "validate_datagram:datagram end!=datagram len"

/-- The outcomes of `ip_reass_chain_frag_into_datagram_and_validate`. -/
inductive ChainFrag (ipr : ReassData) (new : Frag) :
    Except ReassFault (Option (ReassData × Bool)) → Prop
  | dropped (hover : ∃ f ∈ ipr.p, Overlaps new f) : ChainFrag ipr new (.ok none)
  | waits {before after : List Frag} (h : PlacedAt new none ipr.p before after)
      (hc : ¬ Completes ipr new before after) :
      ChainFrag ipr new (.ok (some ({ ipr with p := before ++ new :: after }, false)))
  | complete {before after : List Frag} (h : PlacedAt new none ipr.p before after)
      (hc : Completes ipr new before after) (hend : (after.getLastD new).stop = ipr.datagramLen) :
      ChainFrag ipr new (.ok (some ({ ipr with p := before ++ new :: after }, true)))
  | wrongEnd {before after : List Frag} (h : PlacedAt new none ipr.p before after)
      (hc : Completes ipr new before after) (hend : (after.getLastD new).stop ≠ ipr.datagramLen) :
      ChainFrag ipr new (.error wrongEnd)

/-- Of the assertions only the last one can fail, unless a packet that is no fragment is the first
of its datagram. -/
lemma chainFrag_cases {ipr : ReassData} {new : Frag}
    (hfirst : ipr.p = [] → ipr.lastFrag = true → new.start ≠ 0) :
    ChainFrag ipr new (chainFrag ipr new) := by
  rcases findPlace_cases new none true ipr.p (by simp) with
    ⟨h, hover⟩ | ⟨v, before, after, h, hat, hv⟩
  · rw [chainFrag, h]
    exact .dropped hover
  rw [chainFrag, h, ok_bind]
  simp only
  have hv' : v = true ↔ Joined (before ++ ending new after) := by simpa using hv
  by_cases hlast : ipr.lastFrag = true
  swap
  · rw [if_pos (by simp [hlast])]
    exact .waits hat fun hc => hlast hc.lastFrag
  by_cases hvalid : v = true
  swap
  · rw [if_pos (by simp [hvalid])]
    exact .waits hat fun hc => hvalid (hv'.mpr hc.joined)
  rw [if_neg (by simp [hlast, hvalid])]
  by_cases hzero : ((before ++ new :: after).headD new).start = 0
  swap
  · rw [if_pos hzero]
    exact .waits hat fun hc => hzero hc.first
  rw [if_neg (not_not.mpr hzero)]
  by_cases hholes : noHoles new after = true
  swap
  · rw [if_pos (by simp [hholes])]
    exact .waits hat fun hc => hholes ((noHoles_iff new after).mpr hc.joined_after)
  rw [if_neg (by simp [hholes])]
  have hc : Completes ipr new before after :=
    ⟨hlast, hzero, hv'.mp hvalid, (noHoles_iff new after).mp hholes⟩
  -- the new fragment is not the only one
  have hmore : (before.isEmpty && after.isEmpty) = false := by
    cases before with
    | cons f before => rfl
    | nil =>
      cases after with
      | cons f after => rfl
      | nil => exact absurd hzero (hfirst hat.split hlast)
  rw [hmore]
  by_cases hend : (after.getLastD new).stop = ipr.datagramLen
  · have : (after.getLastD new).stop == ipr.datagramLen := beq_iff_eq.mpr hend
    simp only [reassAssert, this]
    exact .complete hat hc hend
  · have : ((after.getLastD new).stop == ipr.datagramLen) = false := beq_eq_false_iff_ne.mpr hend
    simp only [reassAssert, this]
    exact .wrongEnd hat hc hend

end Lwip
end DeepForensics
