import Mathlib

/-!
# Numerals

The numeral of a number in a base is the list of its digits, the most significant one first; that of
0 is a single 0. It is built from the end (`numeral_eq`) and read from the beginning
(`value_numeral`).
-/

namespace Lib

/-- The number that a list of digits stands for. -/
def value (b : Nat) (ds : List Nat) : Nat := ds.foldl (fun acc d => b * acc + d) 0

/-- The digits of `v`, without superfluous zeros. -/
def numeral (b v : Nat) : List Nat := if v = 0 then [0] else (Nat.digits b v).reverse

variable {b v : Nat}

theorem value_snoc (ds : List Nat) (d : Nat) : value b (ds ++ [d]) = b * value b ds + d := by
  unfold value
  rw [List.foldl_append]
  rfl

theorem value_zero_cons (ds : List Nat) : value b (0 :: ds) = value b ds := by
  unfold value
  rw [List.foldl_cons, Nat.mul_zero]

/-- Zeros in front count nothing. -/
theorem value_replicate_zero (n : Nat) (ds : List Nat) :
    value b (List.replicate n 0 ++ ds) = value b ds := by
  induction n with
  | zero => rfl
  | succ n ih => rw [List.replicate_succ, List.cons_append, value_zero_cons, ih]

/-- The last digit is the remainder, and the others are those of the quotient. -/
theorem numeral_eq (hb : 2 ≤ b) (v : Nat) :
    numeral b v = if v / b = 0 then [v % b] else numeral b (v / b) ++ [v % b] := by
  unfold numeral
  by_cases hv : v = 0
  · simp [hv]
  · rw [if_neg hv, Nat.digits_def' hb (Nat.pos_of_ne_zero hv), List.reverse_cons]
    by_cases hq : v / b = 0
    · simp [hq]
    · rw [if_neg hq, if_neg hq]

theorem numeral_ne_nil (hb : 2 ≤ b) (v : Nat) : numeral b v ≠ [] := by
  rw [numeral_eq hb]
  split
  · exact List.cons_ne_nil _ _
  · exact List.append_ne_nil_of_right_ne_nil _ (List.cons_ne_nil _ _)

/-- The induction along which a numeral is built. -/
theorem numeral_induction (hb : 2 ≤ b) {P : Nat → Prop} (small : ∀ v, v < b → P v)
    (step : ∀ v, b ≤ v → P (v / b) → P v) (v : Nat) : P v := by
  induction v using Nat.strong_induction_on with
  | h v ih =>
    by_cases hv : v < b
    · exact small v hv
    · have hle : b ≤ v := Nat.le_of_not_lt hv
      exact step v hle (ih (v / b) (Nat.div_lt_self (by omega) hb))

theorem numeral_small (hb : 2 ≤ b) (hv : v < b) : numeral b v = [v] := by
  rw [numeral_eq hb, if_pos (Nat.div_eq_of_lt hv), Nat.mod_eq_of_lt hv]

theorem numeral_step (hb : 2 ≤ b) (hv : b ≤ v) : numeral b v = numeral b (v / b) ++ [v % b] := by
  have hq : v / b ≠ 0 := Nat.div_ne_zero_iff.mpr ⟨by omega, hv⟩
  rw [numeral_eq hb, if_neg hq]

/-- **A numeral reads back.** -/
theorem value_numeral (hb : 2 ≤ b) (v : Nat) : value b (numeral b v) = v := by
  induction v using numeral_induction hb with
  | small v hv =>
    rw [numeral_small hb hv]
    show b * 0 + v = v
    omega
  | step v hv ih => rw [numeral_step hb hv, value_snoc, ih, Nat.div_add_mod]

theorem lt_of_mem_numeral (hb : 2 ≤ b) {d : Nat} (h : d ∈ numeral b v) : d < b := by
  induction v using numeral_induction hb with
  | small v hv =>
    rw [numeral_small hb hv, List.mem_singleton] at h
    exact h ▸ hv
  | step v hv ih =>
    rw [numeral_step hb hv, List.mem_append, List.mem_singleton] at h
    rcases h with h | rfl
    · exact ih h
    · exact Nat.mod_lt _ (by omega)

theorem head_numeral_ne_zero (hb : 2 ≤ b) (hv : v ≠ 0) : (numeral b v).head? ≠ some 0 := by
  induction v using numeral_induction hb with
  | small v hlt =>
    rw [numeral_small hb hlt]
    exact fun h => hv (Option.some.inj h)
  | step v hle ih =>
    have hq : v / b ≠ 0 := Nat.div_ne_zero_iff.mpr ⟨by omega, hle⟩
    rw [numeral_step hb hle, List.head?_append_of_ne_nil _ (numeral_ne_nil hb _)]
    exact ih hq

/-- A number below `b ^ k` has at most `k` digits. -/
theorem length_numeral_le (hb : 2 ≤ b) {k : Nat} (hk : 0 < k) (hv : v < b ^ k) :
    (numeral b v).length ≤ k := by
  induction k generalizing v with
  | zero => exact absurd hk (Nat.lt_irrefl 0)
  | succ k ih =>
    by_cases hlt : v < b
    · rw [numeral_small hb hlt]
      exact Nat.succ_le_succ (Nat.zero_le k)
    · rw [numeral_step hb (Nat.le_of_not_lt hlt), List.length_append, List.length_singleton]
      have hq : v / b < b ^ k := Nat.div_lt_of_lt_mul (by rw [Nat.mul_comm, ← Nat.pow_succ]; exact hv)
      have hk' : 0 < k := by
        rcases Nat.eq_zero_or_pos k with rfl | hpos
        · rw [Nat.pow_zero] at hq
          have hb' : b ≤ v := Nat.le_of_not_lt hlt
          exact absurd (Nat.lt_one_iff.mp hq) (Nat.div_ne_zero_iff.mpr ⟨by omega, hb'⟩)
        · exact hpos
      exact Nat.succ_le_succ (ih hk' hq)

end Lib
