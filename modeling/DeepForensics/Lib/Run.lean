/-
# Runs of a fallible step function

A system that reacts to events is a function `step : σ → ε → Except φ σ`: from a state and
an event it either reaches a new state or stops with a fault.  This file has the runs of
such a function, the two ways of speaking about a whole run -- a property of every state it
visits (`Throughout`) and a condition on every step it takes (`Along`) -- and the rules that
reduce a statement about runs to a statement about one step.
-/
import Mathlib.Data.List.Basic
import Mathlib.Order.MinMax
import Mathlib.Tactic.Common

namespace Runs

variable {σ τ ε φ : Type*} {step : σ → ε → Except φ σ} {step' : τ → ε → Except φ τ}

@[simp] lemma ok_bind {α β : Type} (a : α) (f : α → Except φ β) : (.ok a >>= f) = f a := rfl

@[simp] lemma error_bind {α β : Type} (e : φ) (f : α → Except φ β) :
    (.error e >>= f) = .error e := rfl

/-- A computation in two parts that does not fault has a first part that does not. -/
lemma exists_of_bind_eq_ok {α β : Type} {x : Except φ α} {f : α → Except φ β} {b : β}
    (h : x >>= f = .ok b) : ∃ a, x = .ok a ∧ f a = .ok b := by
  cases x with
  | error e => cases h
  | ok a => exact ⟨a, rfl, h⟩

/-- A fault of a computation in two parts is the fault of one of them. -/
lemma error_of_bind_eq_error {α β : Type} {x : Except φ α} {f : α → Except φ β} {e : φ}
    (h : x >>= f = .error e) : x = .error e ∨ ∃ a, x = .ok a ∧ f a = .error e := by
  cases x with
  | error e' =>
    cases h
    exact Or.inl rfl
  | ok a => exact Or.inr ⟨a, rfl, h⟩

/-- Run a list of events from a state.  The first fault ends the run. -/
def exec (step : σ → ε → Except φ σ) : σ → List ε → Except φ σ
  | s, [] => .ok s
  | s, e :: es =>
    match step s e with
    | .ok s' => exec step s' es
    | .error f => .error f

/-- Every step of the run meets the condition `P` on the state before it and its event. -/
def Along (step : σ → ε → Except φ σ) (P : σ → ε → Prop) : σ → List ε → Prop
  | _, [] => True
  | s, e :: es => P s e ∧ ∀ s', step s e = .ok s' → Along step P s' es

/-- Every state the run visits, the first and the last included, has the property `Q`. -/
def Throughout (step : σ → ε → Except φ σ) (Q : σ → Prop) : σ → List ε → Prop
  | s, [] => Q s
  | s, e :: es => Q s ∧ ∀ s', step s e = .ok s' → Throughout step Q s' es

/-- A condition on steps that can be decided can be decided for a run. -/
instance decidableAlong (P : σ → ε → Prop) [∀ s e, Decidable (P s e)] :
    ∀ (s : σ) (es : List ε), Decidable (Along step P s es)
  | _, [] => isTrue trivial
  | s, e :: es =>
    match h : step s e with
    | .ok s' =>
      have := decidableAlong P s' es
      decidable_of_iff (P s e ∧ Along step P s' es) (by simp [Along, h])
    | .error f => decidable_of_iff (P s e) (by simp [Along, h])

lemma exec_cons_ok {s s' : σ} {e : ε} (h : step s e = .ok s') (es : List ε) :
    exec step s (e :: es) = exec step s' es := by
  simp only [exec, h]

lemma exec_cons_error {s : σ} {e : ε} {f : φ} (h : step s e = .error f) (es : List ε) :
    exec step s (e :: es) = .error f := by
  simp only [exec, h]

/-- A run that does not fault takes its first step and then runs the rest. -/
lemma exec_cons_inv {s s'' : σ} {e : ε} {es : List ε}
    (h : exec step s (e :: es) = .ok s'') :
    ∃ s', step s e = .ok s' ∧ exec step s' es = .ok s'' := by
  cases hs : step s e with
  | ok s' => exact ⟨s', rfl, by rwa [exec_cons_ok hs] at h⟩
  | error f => rw [exec_cons_error hs] at h; cases h

/-- A run goes on where a first part of it ended. -/
lemma exec_append {s s' : σ} {es : List ε} (h : exec step s es = .ok s') (es' : List ε) :
    exec step s (es ++ es') = exec step s' es' := by
  induction es generalizing s with
  | nil => rw [← Except.ok.inj h, List.nil_append]
  | cons e es ih =>
    obtain ⟨s₁, h1, h2⟩ := exec_cons_inv h
    rw [List.cons_append, exec_cons_ok h1, ih h2]

/-- A run that has faulted does not go on. -/
lemma exec_append_error {s : σ} {es : List ε} {f : φ} (h : exec step s es = .error f)
    (es' : List ε) : exec step s (es ++ es') = .error f := by
  induction es generalizing s with
  | nil => cases h
  | cons e es ih =>
    cases hs : step s e with
    | error g =>
      rw [exec_cons_error hs] at h
      rw [List.cons_append, exec_cons_error hs, h]
    | ok s' =>
      rw [exec_cons_ok hs] at h
      rw [List.cons_append, exec_cons_ok hs, ih h]

/-- One more event at the end of a run. -/
lemma exec_concat {s s' : σ} {es : List ε} (h : exec step s es = .ok s') (e : ε) :
    exec step s (es ++ [e]) = step s' e := by
  rw [exec_append h, exec]
  cases step s' e <;> rfl

/-- A fault of a run is the fault of one of its steps. -/
lemma exec_error {s : σ} {es : List ε} {f : φ} (h : exec step s es = .error f) :
    ∃ pre e s', pre ++ [e] <+: es ∧ exec step s pre = .ok s' ∧ step s' e = .error f := by
  induction es generalizing s with
  | nil => cases h
  | cons e es ih =>
    cases hs : step s e with
    | error f' =>
      rw [exec_cons_error hs] at h
      exact ⟨[], e, s, ⟨es, rfl⟩, rfl, by rw [hs]; exact h⟩
    | ok s' =>
      rw [exec_cons_ok hs] at h
      obtain ⟨pre, e', s₁, hpre, h1, h2⟩ := ih h
      exact ⟨e :: pre, e', s₁, (List.prefix_cons_inj e).mpr hpre, by rw [exec_cons_ok hs, h1], h2⟩

/-- What an observation shows of the last state of a run, if the run does not fault. -/
def view {α : Type*} (obs : σ → α) (step : σ → ε → Except φ σ) (s : σ) (es : List ε) : Option α :=
  (exec step s es).toOption.map obs

lemma exec_of_view {α : Type*} {obs : σ → α} {s : σ} {es : List ε} {a : α}
    (h : view obs step s es = some a) : ∃ s', exec step s es = .ok s' ∧ obs s' = a := by
  cases he : exec step s es with
  | error f => rw [view, he] at h; cases h
  | ok s' =>
    rw [view, he] at h
    exact ⟨s', rfl, Option.some.inj h⟩

lemma obs_of_view {α : Type*} {obs : σ → α} {s s' : σ} {es : List ε} {a : α}
    (h : view obs step s es = some a) (he : exec step s es = .ok s') : obs s' = a := by
  rw [view, he] at h
  exact Option.some.inj h

/-- The fault that ends a run, if there is one. -/
def fault (step : σ → ε → Except φ σ) (s : σ) (es : List ε) : Option φ :=
  match exec step s es with
  | .ok _ => none
  | .error f => some f

lemma exec_of_fault {s : σ} {es : List ε} {f : φ} (h : fault step s es = some f) :
    exec step s es = .error f := by
  cases he : exec step s es with
  | ok s' => simp only [fault, he] at h; cases h
  | error g =>
    simp only [fault, he] at h
    rw [Option.some.inj h]

/-! ## Invariants -/

section Invariant

variable {P : σ → ε → Prop} {Q : σ → Prop}

lemma Throughout.first {s : σ} {es : List ε} (h : Throughout step Q s es) : Q s := by
  cases es with
  | nil => exact h
  | cons e es => exact h.1

lemma Throughout.last {s s' : σ} {es : List ε} (h : Throughout step Q s es)
    (he : exec step s es = .ok s') : Q s' := by
  induction es generalizing s with
  | nil => cases he; exact h
  | cons e es ih =>
    obtain ⟨s₁, h1, h2⟩ := exec_cons_inv he
    exact ih (h.2 s₁ h1) h2

lemma Throughout.mono {Q' : σ → Prop} (hQ : ∀ s, Q s → Q' s) {s : σ} {es : List ε}
    (h : Throughout step Q s es) : Throughout step Q' s es := by
  induction es generalizing s with
  | nil => exact hQ s h
  | cons e es ih => exact ⟨hQ s h.1, fun s' hs => ih (h.2 s' hs)⟩

/-- The states a run visits are the ends of its initial segments. -/
lemma throughout_iff_initial {s : σ} {es : List ε} :
    Throughout step Q s es ↔
      ∀ pre, pre <+: es → ∀ s', exec step s pre = .ok s' → Q s' := by
  induction es generalizing s with
  | nil =>
    constructor
    · intro h pre hpre s' hs
      rw [List.prefix_nil.mp hpre] at hs
      cases hs
      exact h
    · intro h
      exact h [] List.nil_prefix s rfl
  | cons e es ih =>
    constructor
    · rintro ⟨h1, h2⟩ pre hpre s' hs
      rcases List.prefix_cons_iff.mp hpre with rfl | ⟨t, rfl, ht⟩
      · cases hs
        exact h1
      · obtain ⟨s₁, hs1, hs2⟩ := exec_cons_inv hs
        exact ih.mp (h2 s₁ hs1) t ht s' hs2
    · intro h
      refine ⟨h [] List.nil_prefix s rfl, fun s₁ hs1 => ih.mpr fun t ht s' hs => ?_⟩
      exact h (e :: t) ((List.prefix_cons_inj e).mpr ht) s' (by rw [exec_cons_ok hs1, hs])

/-- The invariant rule: a property of the first state that every step meeting `P` keeps
holds in every state of a run all of whose steps meet `P`. -/
theorem throughout_of_along
    (hstep : ∀ s e s', Q s → P s e → step s e = .ok s' → Q s')
    {s : σ} {es : List ε} (h0 : Q s) (hP : Along step P s es) : Throughout step Q s es := by
  induction es generalizing s with
  | nil => exact h0
  | cons e es ih =>
    exact ⟨h0, fun s' hs => ih (hstep s e s' h0 hP.1 hs) (hP.2 s' hs)⟩

/-- The invariant rule for a property that every step keeps. -/
theorem exec_inv (hstep : ∀ s e s', Q s → step s e = .ok s' → Q s')
    {s s' : σ} {es : List ε} (h0 : Q s) (he : exec step s es = .ok s') : Q s' := by
  induction es generalizing s with
  | nil => cases he; exact h0
  | cons e es ih =>
    obtain ⟨s₁, h1, h2⟩ := exec_cons_inv he
    exact ih (hstep s e s₁ h0 h1) h2

/-- A run in which every step succeeds and keeps `Q`. -/
theorem exec_total (hstep : ∀ s e, Q s → P s e → ∃ s', step s e = .ok s' ∧ Q s')
    {s : σ} {es : List ε} (h0 : Q s) (hP : Along step P s es) :
    ∃ s', exec step s es = .ok s' ∧ Q s' := by
  induction es generalizing s with
  | nil => exact ⟨s, rfl, h0⟩
  | cons e es ih =>
    obtain ⟨s₁, hs, h₁⟩ := hstep s e h0 hP.1
    rw [exec_cons_ok hs]
    exact ih h₁ (hP.2 s₁ hs)

/-- A high-water mark: a value `g` that is raised to `f` by every step is the greatest `f` of all
states the run has visited. -/
lemma exec_highWater {α : Type*} [LinearOrder α] {f g : σ → α}
    (hstep : ∀ s e s', Q s → f s ≤ g s → step s e = .ok s' → Q s' ∧ g s' = max (g s) (f s'))
    {s s' : σ} {es : List ε} (h0 : Q s) (hle : f s ≤ g s) (he : exec step s es = .ok s') :
    g s ≤ g s' ∧ (∀ pre t, pre <+: es → exec step s pre = .ok t → f t ≤ g s') ∧
      (g s' = g s ∨ ∃ pre t, pre <+: es ∧ exec step s pre = .ok t ∧ g s' = f t) := by
  induction es generalizing s with
  | nil =>
    cases he
    refine ⟨le_rfl, fun pre t hpre ht => ?_, Or.inl rfl⟩
    rw [List.prefix_nil.mp hpre] at ht
    cases ht
    exact hle
  | cons e es ih =>
    obtain ⟨s₁, hs₁, he⟩ := exec_cons_inv he
    obtain ⟨hQ, hmax⟩ := hstep s e s₁ h0 hle hs₁
    obtain ⟨hmono, hall, hlast⟩ := ih hQ (hmax ▸ le_max_right _ _) he
    have hs : g s ≤ g s' := (hmax ▸ le_max_left _ _).trans hmono
    refine ⟨hs, fun pre t hpre ht => ?_, ?_⟩
    · rcases pre with _ | ⟨e', pre⟩
      · cases ht
        exact hle.trans hs
      · obtain ⟨rfl, hpre'⟩ := List.cons_prefix_cons.mp hpre
        rw [exec_cons_ok hs₁] at ht
        exact hall pre t hpre' ht
    · rcases hlast with hlast | ⟨pre, t, hpre, ht, hlast⟩
      · rcases max_choice (g s) (f s₁) with h | h
        · exact Or.inl (by rw [hlast, hmax, h])
        · refine Or.inr ⟨[e], s₁, List.cons_prefix_cons.mpr ⟨rfl, List.nil_prefix⟩, ?_, ?_⟩
          · rw [exec_cons_ok hs₁]
            rfl
          · rw [hlast, hmax, h]
      · exact Or.inr ⟨e :: pre, t, List.cons_prefix_cons.mpr ⟨rfl, hpre⟩,
          by rw [exec_cons_ok hs₁, ht], hlast⟩

lemma along_of_forall (hP : ∀ s e, P s e) {s : σ} {es : List ε} : Along step P s es := by
  induction es generalizing s with
  | nil => trivial
  | cons e es ih => exact ⟨hP s e, fun _ _ => ih⟩

/-- The condition on steps, by the initial segments of the run. -/
lemma along_of_initial {s : σ} {es : List ε}
    (h : ∀ pre e t, pre ++ [e] <+: es → exec step s pre = .ok t → P t e) : Along step P s es := by
  induction es generalizing s with
  | nil => trivial
  | cons e es ih =>
    refine ⟨h [] e s (by simp) rfl, fun s' hs => ih fun pre e' t hpre ht => ?_⟩
    refine h (e :: pre) e' t ?_ ((exec_cons_ok hs pre).trans ht)
    rw [List.cons_append]
    exact List.prefix_cons_inj e |>.mpr hpre

lemma along_of_forall_mem {A : ε → Prop} {s : σ} {es : List ε} (hA : ∀ e ∈ es, A e) :
    Along step (fun _ e => A e) s es := by
  induction es generalizing s with
  | nil => trivial
  | cons e es ih =>
    exact ⟨hA e List.mem_cons_self, fun _ _ => ih fun e' he => hA e' (List.mem_cons_of_mem _ he)⟩

/-- A condition that holds in every state with the property `Q` holds along a run that has `Q`
throughout. -/
lemma along_of_throughout (hP : ∀ s e, Q s → P s e) {s : σ} {es : List ε}
    (h : Throughout step Q s es) : Along step P s es := by
  induction es generalizing s with
  | nil => trivial
  | cons e es ih => exact ⟨hP s e h.1, fun s' hs => ih (h.2 s' hs)⟩

lemma Along.mono {P' : σ → ε → Prop} (hP : ∀ s e, P s e → P' s e) {s : σ} {es : List ε}
    (h : Along step P s es) : Along step P' s es := by
  induction es generalizing s with
  | nil => trivial
  | cons e es ih => exact ⟨hP s e h.1, fun s' hs => ih (h.2 s' hs)⟩

lemma Along.and {P' : σ → ε → Prop} {s : σ} {es : List ε} (h : Along step P s es)
    (h' : Along step P' s es) : Along step (fun s e => P s e ∧ P' s e) s es := by
  induction es generalizing s with
  | nil => trivial
  | cons e es ih => exact ⟨⟨h.1, h'.1⟩, fun s' hs => ih (h.2 s' hs) (h'.2 s' hs)⟩

/-- Two conditions on steps that agree while an invariant holds hold along the same runs, when
the steps that meet them keep the invariant. -/
lemma along_congr {P' : σ → ε → Prop} {I : σ → Prop} {A : ε → Prop}
    (hiff : ∀ s e, I s → A e → (P s e ↔ P' s e))
    (hinv : ∀ s e s', I s → P s e → step s e = .ok s' → I s')
    {s : σ} {es : List ε} (hI : I s) (hA : ∀ e ∈ es, A e) :
    Along step P s es ↔ Along step P' s es := by
  induction es generalizing s with
  | nil => exact Iff.rfl
  | cons e es ih =>
    have he : P s e ↔ P' s e := hiff s e hI (hA e List.mem_cons_self)
    have hes : ∀ e ∈ es, A e := fun x hx => hA x (List.mem_cons_of_mem e hx)
    constructor
    · rintro ⟨hP, hL⟩
      exact ⟨he.mp hP, fun s' hs => (ih (hinv s e s' hI hP hs) hes).mp (hL s' hs)⟩
    · rintro ⟨hP', hL⟩
      have hP : P s e := he.mpr hP'
      exact ⟨hP, fun s' hs => (ih (hinv s e s' hI hP hs) hes).mpr (hL s' hs)⟩

/-- The exactness rule.  If, along the steps that meet the assumption `A`, the property `Q`
survives a step exactly when the step meets `P`, then `Q` holds in every state of a run exactly
when every step of it that does not fault meets `P`. -/
theorem throughout_iff_along_ok {A : σ → ε → Prop} {I : σ → Prop}
    (hstep : ∀ s e s', I s → Q s → A s e → step s e = .ok s' → (Q s' ↔ P s e) ∧ (Q s' → I s'))
    {s : σ} {es : List ε} (hI : I s) (hQ : Q s) (hA : Along step A s es) :
    Throughout step Q s es ↔ Along step (fun s e => ∀ s', step s e = .ok s' → P s e) s es := by
  induction es generalizing s with
  | nil => exact ⟨fun _ => trivial, fun _ => hQ⟩
  | cons e es ih =>
    constructor
    · rintro ⟨-, hT⟩
      refine ⟨fun s₁ hs => ?_, fun s₁ hs => ?_⟩
      · exact (hstep s e s₁ hI hQ hA.1 hs).1.mp (hT s₁ hs).first
      · have hQ1 : Q s₁ := (hT s₁ hs).first
        exact (ih ((hstep s e s₁ hI hQ hA.1 hs).2 hQ1) hQ1 (hA.2 s₁ hs)).mp (hT s₁ hs)
    · rintro ⟨hP, hL⟩
      refine ⟨hQ, fun s₁ hs => ?_⟩
      have hQ1 : Q s₁ := (hstep s e s₁ hI hQ hA.1 hs).1.mpr (hP s₁ hs)
      exact (ih ((hstep s e s₁ hI hQ hA.1 hs).2 hQ1) hQ1 (hA.2 s₁ hs)).mpr (hL s₁ hs)

/-- In a run that does not fault every step counts. -/
lemma along_ok_iff {s s' : σ} {es : List ε} (he : exec step s es = .ok s') :
    Along step (fun s e => ∀ s', step s e = .ok s' → P s e) s es ↔ Along step P s es := by
  constructor
  · intro h
    induction es generalizing s with
    | nil => trivial
    | cons e es ih =>
      obtain ⟨s₁, h1, h2⟩ := exec_cons_inv he
      refine ⟨h.1 s₁ h1, fun s₂ hs => ?_⟩
      have hsame : s₁ = s₂ := Except.ok.inj (h1.symm.trans hs)
      subst hsame
      exact ih h2 (h.2 s₁ h1)
  · exact fun h => h.mono fun s e hP _ _ => hP

/-- The exactness rule for a run that does not fault. -/
theorem throughout_iff_along {A : σ → ε → Prop} {I : σ → Prop}
    (hstep : ∀ s e s', I s → Q s → A s e → step s e = .ok s' → (Q s' ↔ P s e) ∧ (Q s' → I s'))
    {s s' : σ} {es : List ε} (hI : I s) (hQ : Q s) (hA : Along step A s es)
    (he : exec step s es = .ok s') :
    Throughout step Q s es ↔ Along step P s es :=
  (throughout_iff_along_ok hstep hI hQ hA).trans (along_ok_iff he)

end Invariant

/-! ## Refinement -/

section Refine

variable {f : τ → σ} {WF : τ → Prop}

/-- The refinement rule.  When, on the image of the well-formed abstract states, a step of the
concrete system is the image of a step of the abstract one, faults included, the same is
true of whole runs. -/
theorem exec_map (hstep : ∀ t e, WF t → step (f t) e = (step' t e).map f)
    (hwf : ∀ t e t', WF t → step' t e = .ok t' → WF t') {t : τ} (ht : WF t) (es : List ε) :
    exec step (f t) es = (exec step' t es).map f := by
  induction es generalizing t with
  | nil => rfl
  | cons e es ih =>
    have h := hstep t e ht
    cases hs : step' t e with
    | error g =>
      rw [hs] at h
      rw [exec_cons_error hs, exec_cons_error h]
      rfl
    | ok t' =>
      rw [hs] at h
      rw [exec_cons_ok hs, exec_cons_ok h]
      exact ih (hwf t e t' ht hs)

/-- What is said about all next states of an image can be said about the images of the next
states. -/
lemma forall_next_map {t : τ} {e : ε} (h : step (f t) e = (step' t e).map f) {R : σ → Prop} :
    (∀ s', step (f t) e = .ok s' → R s') ↔ ∀ t', step' t e = .ok t' → R (f t') := by
  constructor
  · intro H t' ht'
    rw [ht'] at h
    exact H (f t') h
  · intro H s' hs'
    cases ht : step' t e with
    | error g =>
      rw [h, ht] at hs'
      cases hs'
    | ok t' =>
      rw [h, ht] at hs'
      cases hs'
      exact H t' ht

lemma throughout_map {Q : σ → Prop} (hstep : ∀ t e, WF t → step (f t) e = (step' t e).map f)
    (hwf : ∀ t e t', WF t → step' t e = .ok t' → WF t') {t : τ} (ht : WF t) (es : List ε) :
    Throughout step Q (f t) es ↔ Throughout step' (fun t => Q (f t)) t es := by
  induction es generalizing t with
  | nil => exact Iff.rfl
  | cons e es ih =>
    refine and_congr_right fun _ => (forall_next_map (hstep t e ht)).trans ?_
    exact forall₂_congr fun t' ht' => ih (hwf t e t' ht ht')

lemma along_map {P : σ → ε → Prop} (hstep : ∀ t e, WF t → step (f t) e = (step' t e).map f)
    (hwf : ∀ t e t', WF t → step' t e = .ok t' → WF t') {t : τ} (ht : WF t) (es : List ε) :
    Along step P (f t) es ↔ Along step' (fun t => P (f t)) t es := by
  induction es generalizing t with
  | nil => exact Iff.rfl
  | cons e es ih =>
    refine and_congr_right fun _ => (forall_next_map (hstep t e ht)).trans ?_
    exact forall₂_congr fun t' ht' => ih (hwf t e t' ht ht')

/-- The invariant rule across a refinement: an invariant `I` of the abstract system, kept by the
steps whose images meet `P`, gives a property `Q` of every state of the concrete run. -/
theorem throughout_of_refinement {P : σ → ε → Prop} {Q : σ → Prop} {I : τ → Prop}
    (hstep : ∀ t e, WF t → step (f t) e = (step' t e).map f)
    (hwf : ∀ t e t', WF t → step' t e = .ok t' → WF t')
    (hinv : ∀ t e t', WF t → I t → P (f t) e → step' t e = .ok t' → I t')
    (hQ : ∀ t, WF t → I t → Q (f t)) {t : τ} (ht : WF t) (h0 : I t) {es : List ε}
    (hP : Along step P (f t) es) : Throughout step Q (f t) es := by
  have hP' := (along_map hstep hwf ht es).mp hP
  have hI : Throughout step' (fun t => WF t ∧ I t) t es :=
    throughout_of_along
      (fun t e t' h hp hs => ⟨hwf t e t' h.1 hs, hinv t e t' h.1 h.2 hp hs⟩) ⟨ht, h0⟩ hP'
  exact (throughout_map hstep hwf ht es).mpr (hI.mono fun t h => hQ t h.1 h.2)

end Refine

/-! ## Two computations side by side -/

section Follows

variable {α β γ δ : Type}

/-- The computation on the right follows the one on the left: unless that one stops with a fault
in `bad`, both stop with the same fault, or both return and the values are related by `R`. -/
inductive Follows (bad : φ → Prop) (R : α → β → Prop) : Except φ α → Except φ β → Prop
  | bad {e : φ} (he : bad e) (y : Except φ β) : Follows bad R (.error e) y
  | error (e : φ) : Follows bad R (.error e) (.error e)
  | ok {a : α} {b : β} (h : R a b) : Follows bad R (.ok a) (.ok b)

namespace Follows

variable {bad : φ → Prop} {R : α → β → Prop} {S : γ → δ → Prop} {x : Except φ α} {y : Except φ β}

/-- The rule for two computations in two parts each. -/
lemma bind {f : α → Except φ γ} {g : β → Except φ δ} (h : Follows bad R x y)
    (hfg : ∀ a b, R a b → Follows bad S (f a) (g b)) : Follows bad S (x >>= f) (y >>= g) := by
  cases h with
  | bad he y => exact .bad he _
  | error e => exact .error e
  | ok h => exact hfg _ _ h

lemma map {f : α → γ} {g : β → δ} (h : Follows bad R x y) (hfg : ∀ a b, R a b → S (f a) (g b)) :
    Follows bad S (x.map f) (y.map g) := by
  cases h with
  | bad he y => exact .bad he _
  | error e => exact .error e
  | ok h => exact .ok (hfg _ _ h)

lemma exists_of_ok {a : α} (h : Follows bad R (.ok a) y) : ∃ b, y = .ok b ∧ R a b := by
  cases h with
  | ok h => exact ⟨_, rfl, h⟩

/-- A computation whose faults are not bad decides the one that follows it. -/
lemma eq_map {g : α → β} (h : Follows bad R x y) (hbad : ∀ e, x = .error e → ¬ bad e)
    (hR : ∀ a b, R a b → b = g a) : y = x.map g := by
  cases h with
  | bad he y => exact absurd he (hbad _ rfl)
  | error e => rfl
  | ok h => exact congrArg Except.ok (hR _ _ h)

end Follows

end Follows

end Runs
