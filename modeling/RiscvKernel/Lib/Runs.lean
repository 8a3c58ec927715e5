import Mathlib

/-!
# Runs of a machine

A machine is a step function `step s e`, undefined where the event `e` cannot occur in the
state `s`. This module has the rules that lift facts about one step to whole runs.

* `runs_invariant`: what holds at the beginning and is kept by every step holds at the end.
* `Throughout P`: `P` holds in every state of a run; `Steps C`: every step of it meets `C`.
* `throughout_iff_steps`: if the first step that does not meet `C` breaks `P` at once, a run
  keeps `P` if and only if its steps meet `C`.
-/

namespace Lib

variable {σ ε : Type}

/-- Some events in a row. -/
def runs (step : σ → ε → Option σ) : σ → List ε → Option σ
  | s, [] => some s
  | s, e :: es => (step s e).bind fun s' => runs step s' es

/-- `P` holds in every state of the run. -/
def Throughout (step : σ → ε → Option σ) (P : σ → Prop) : σ → List ε → Prop
  | s, [] => P s
  | s, e :: es => P s ∧ ∀ s', step s e = some s' → Throughout step P s' es

/-- Every step of the run meets `C`. -/
def Steps (step : σ → ε → Option σ) (C : σ → ε → Prop) : σ → List ε → Prop
  | _, [] => True
  | s, e :: es => C s e ∧ ∀ s', step s e = some s' → Steps step C s' es

variable {step : σ → ε → Option σ} {s s' : σ} {e : ε} {es : List ε}

theorem steps_cons_none {C : σ → ε → Prop} (h : step s e = none) :
    C s e ↔ Steps step C s (e :: es) := by
  refine ⟨fun hC => ⟨hC, fun s₁ h₁ => ?_⟩, And.left⟩
  rw [h] at h₁
  cases h₁

theorem steps_cons_some {C : σ → ε → Prop} (h : step s e = some s') :
    C s e ∧ Steps step C s' es ↔ Steps step C s (e :: es) := by
  refine and_congr_right fun _ => ⟨fun hs s₁ h₁ => ?_, fun hs => hs s' h⟩
  rwa [← Option.some.inj (h.symm.trans h₁)]

/-- Whether the steps of a run meet a condition that can be tested. -/
instance Steps.decidable (step : σ → ε → Option σ) {C : σ → ε → Prop}
    [∀ s e, Decidable (C s e)] : ∀ s es, Decidable (Steps step C s es)
  | _, [] => isTrue trivial
  | s, e :: es =>
    match h : step s e with
    | none => decidable_of_iff _ (steps_cons_none h)
    | some s' =>
      have : Decidable (Steps step C s' es) := Steps.decidable step s' es
      decidable_of_iff _ (steps_cons_some h)

theorem runs_cons (h : runs step s (e :: es) = some s') :
    ∃ s₁, step s e = some s₁ ∧ runs step s₁ es = some s' :=
  Option.bind_eq_some_iff.mp h

theorem runs_of_step {s₁ : σ} (h : step s e = some s₁) :
    runs step s (e :: es) = runs step s₁ es := by
  show (step s e).bind _ = _
  rw [h]
  rfl

theorem Throughout.head {P : σ → Prop} (h : Throughout step P s es) : P s := by
  cases es with
  | nil => exact h
  | cons e es => exact h.1

/-- What the steps for some events keep holds at the end of a run of these events. -/
theorem runs_invariant_of {I : σ → Prop} {C : ε → Prop}
    (hstep : ∀ s e s', I s → C e → step s e = some s' → I s') (hC : ∀ e ∈ es, C e)
    (hs : I s) (hrun : runs step s es = some s') : I s' := by
  induction es generalizing s with
  | nil =>
    obtain rfl : s = s' := Option.some.inj hrun
    exact hs
  | cons e es ih =>
    obtain ⟨s₁, h₁, hrest⟩ := runs_cons hrun
    have hs₁ := hstep s e s₁ hs (hC e List.mem_cons_self) h₁
    exact ih (fun e he => hC e (List.mem_cons_of_mem _ he)) hs₁ hrest

/-- What every step keeps holds at the end of a run. -/
theorem runs_invariant {I : σ → Prop} (hstep : ∀ s e s', I s → step s e = some s' → I s')
    (hs : I s) (hrun : runs step s es = some s') : I s' :=
  runs_invariant_of (C := fun _ => True) (fun s e s' h _ => hstep s e s' h) (fun _ _ => trivial) hs
    hrun

/-- What the steps that meet `C` keep holds in every state of a run of such steps. -/
theorem throughout_of_steps {I : σ → Prop} {C : σ → ε → Prop}
    (hstep : ∀ s e s', I s → C s e → step s e = some s' → I s') (hs : I s)
    (hsteps : Steps step C s es) : Throughout step I s es := by
  induction es generalizing s with
  | nil => exact hs
  | cons e es ih =>
    exact ⟨hs, fun s₁ h₁ => ih (hstep s e s₁ hs hsteps.1 h₁) (hsteps.2 s₁ h₁)⟩

theorem Throughout.last {P : σ → Prop} (h : Throughout step P s es)
    (hrun : runs step s es = some s') : P s' := by
  induction es generalizing s with
  | nil =>
    obtain rfl : s = s' := Option.some.inj hrun
    exact h
  | cons e es ih =>
    obtain ⟨s₁, h₁, hrest⟩ := runs_cons hrun
    exact ih (h.2 s₁ h₁) hrest

theorem Steps.mono {C D : σ → ε → Prop} (himp : ∀ s e, C s e → D s e)
    (h : Steps step C s es) : Steps step D s es := by
  induction es generalizing s with
  | nil => trivial
  | cons e es ih => exact ⟨himp s e h.1, fun s₁ h₁ => ih (h.2 s₁ h₁)⟩

theorem Throughout.mono {P Q : σ → Prop} (himp : ∀ s, P s → Q s)
    (h : Throughout step P s es) : Throughout step Q s es := by
  induction es generalizing s with
  | nil => exact himp s h
  | cons e es ih => exact ⟨himp s h.1, fun s₁ h₁ => ih (h.2 s₁ h₁)⟩

/-- A run that can be made keeps `P` if and only if its steps meet `C`, when steps that meet
`C` keep an invariant that implies `P`, and a step that does not breaks `P`. -/
theorem throughout_iff_steps {I P : σ → Prop} {C : σ → ε → Prop} (hP : ∀ s, I s → P s)
    (hstep : ∀ s e s', I s → C s e → step s e = some s' → I s')
    (hbad : ∀ s e s', I s → ¬ C s e → step s e = some s' → ¬ P s')
    (hs : I s) (hrun : runs step s es = some s') :
    Throughout step P s es ↔ Steps step C s es := by
  constructor
  · intro h
    induction es generalizing s with
    | nil => trivial
    | cons e es ih =>
      obtain ⟨s₁, h₁, hrest⟩ := runs_cons hrun
      have hC : C s e := by
        by_contra hnot
        exact hbad s e s₁ hs hnot h₁ (h.2 s₁ h₁).head
      refine ⟨hC, fun s₂ h₂ => ?_⟩
      obtain rfl : s₁ = s₂ := Option.some.inj (h₁.symm.trans h₂)
      exact ih (hstep s e s₁ hs hC h₁) hrest (h.2 s₁ h₁)
  · exact fun h => (throughout_of_steps hstep hs h).mono hP

end Lib
