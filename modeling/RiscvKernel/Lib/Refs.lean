import Mathlib

/-!
# References in a table

How often an object occurs in a table of optional references, and how that changes when an
entry is overwritten.
-/

namespace Lib

variable {ι δ : Type} [DecidableEq δ]

/-- Replacing one summand. -/
theorem sum_update_add [DecidableEq ι] (s : Finset ι) (f : ι → Nat) {i : ι} (hi : i ∈ s) (b : Nat) :
    ∑ j ∈ s, Function.update f i b j + f i = ∑ j ∈ s, f j + b := by
  rw [Finset.sum_update_of_mem hi, ← Finset.add_sum_erase s f hi, Finset.sdiff_singleton_eq_erase]
  omega

/-- One if the entry refers to `d`. -/
def refs (e : Option δ) (d : δ) : Nat := if e = some d then 1 else 0

@[simp] theorem refs_none (d : δ) : refs none d = 0 := rfl

@[simp] theorem refs_self (d : δ) : refs (some d) d = 1 := if_pos rfl

theorem refs_of_ne {d d' : δ} (h : d' ≠ d) : refs (some d') d = 0 :=
  if_neg fun he => h (Option.some.inj he)

/-- How many entries of the table `t`, on `s`, refer to `d`. -/
def refsIn (s : Finset ι) (t : ι → Option δ) (d : δ) : Nat := ∑ i ∈ s, refs (t i) d

theorem refsIn_update [DecidableEq ι] {s : Finset ι} {t : ι → Option δ} {i : ι} (hi : i ∈ s) (e : Option δ)
    (d : δ) : refsIn s (Function.update t i e) d + refs (t i) d = refsIn s t d + refs e d := by
  have hcomp : ∀ j, refs (Function.update t i e j) d =
      Function.update (fun j => refs (t j) d) i (refs e d) j :=
    Function.apply_update (fun _ e => refs e d) t i e
  unfold refsIn
  rw [Finset.sum_congr rfl fun j _ => hcomp j, sum_update_add s _ hi]

theorem refsIn_le_card (s : Finset ι) (t : ι → Option δ) (d : δ) : refsIn s t d ≤ s.card := by
  rw [Finset.card_eq_sum_ones]
  refine Finset.sum_le_sum fun i _ => ?_
  unfold refs
  split <;> omega

end Lib
