import Mathlib

/-!
# Machines that translate a stream

A machine reads a stream one symbol at a time. Each symbol takes it to another state and makes it
put out some symbols. Its state is all that it remembers, so that the translation of a stream in
two parts is the translation of the first, and then of the second from the state that is reached
(`translate_append`). `translate_translate` is the rule for one machine that reads what another
one puts out.
-/

namespace Lib

variable {Q R S α β γ : Type}

/-- The state that is reached and what is put out. -/
def translate (step : Q → α → Q × List β) : Q → List α → Q × List β
  | q, [] => (q, [])
  | q, a :: as =>
    let r := step q a
    let t := translate step r.1 as
    (t.1, r.2 ++ t.2)

variable {step : Q → α → Q × List β}

@[simp] theorem translate_nil (q : Q) : translate step q [] = (q, []) := rfl

theorem translate_cons (q : Q) (a : α) (as : List α) :
    translate step q (a :: as) =
      ((translate step (step q a).1 as).1, (step q a).2 ++ (translate step (step q a).1 as).2) := rfl

/-- The state carries across a cut. -/
theorem translate_append (q : Q) (as bs : List α) :
    translate step q (as ++ bs) =
      ((translate step (translate step q as).1 bs).1,
        (translate step q as).2 ++ (translate step (translate step q as).1 bs).2) := by
  induction as generalizing q with
  | nil => rfl
  | cons a as ih => rw [List.cons_append, translate_cons, ih, translate_cons, List.append_assoc]

theorem translate_snoc (q : Q) (as : List α) (a : α) :
    translate step q (as ++ [a]) =
      ((step (translate step q as).1 a).1,
        (translate step q as).2 ++ (step (translate step q as).1 a).2) := by
  rw [translate_append, translate_cons, translate_nil, List.append_nil]

/-- **One machine after another.** `I` relates the states of both to that of a machine that is to
do the same in one go: it has to hold before and after each symbol, and the second machine has to
make of what the first one puts out for it what the third one makes of the symbol. -/
theorem translate_translate {step₂ : R → β → R × List γ} {step₃ : S → α → S × List γ}
    (I : Q → R → S → Prop)
    (hstep : ∀ q r s a, I q r s →
      (translate step₂ r (step q a).2).2 = (step₃ s a).2 ∧
        I (step q a).1 (translate step₂ r (step q a).2).1 (step₃ s a).1)
    {q : Q} {r : R} {s : S} (h : I q r s) (as : List α) :
    (translate step₂ r (translate step q as).2).2 = (translate step₃ s as).2 := by
  induction as generalizing q r s with
  | nil => rfl
  | cons a as ih =>
    obtain ⟨hout, hnext⟩ := hstep q r s a h
    rw [translate_cons, translate_append, translate_cons, hout]
    exact congrArg _ (ih hnext)

end Lib
