import Mathlib

/-!
# Ranges of a buffer

A buffer is a list. `slice l p n` reads the `n` elements from position `p` on, and
`patch l p b` overwrites the elements from `p` on with `b`. The lemmas say how reads
and writes compose: consecutive ones join, a read inside what was written gives it
back, disjoint ones commute, and a read-modify-write of a range is a write of the
modified part alone.
-/

namespace Lib

variable {α : Type}

def slice (l : List α) (p n : Nat) : List α := (l.drop p).take n

def patch (l : List α) (p : Nat) (b : List α) : List α := l.take p ++ b ++ l.drop (p + b.length)

/-! ## Reading -/

theorem length_slice {l : List α} {p n : Nat} (h : p + n ≤ l.length) :
    (slice l p n).length = n := by
  simp only [slice, List.length_take, List.length_drop]
  omega

theorem length_slice_le (l : List α) (p n : Nat) : (slice l p n).length ≤ n := by
  rw [slice, List.length_take]
  exact Nat.min_le_left _ _

@[simp] theorem slice_zero (l : List α) (p : Nat) : slice l p 0 = [] := by simp [slice]

theorem slice_full (l : List α) : slice l 0 l.length = l := by simp [slice]

theorem getElem?_slice (l : List α) (p n i : Nat) :
    (slice l p n)[i]? = if i < n then l[p + i]? else none := by
  simp only [slice, List.getElem?_take, List.getElem?_drop]

/-- Two reads in a row are one read. -/
theorem slice_append (l : List α) (p n m : Nat) :
    slice l p n ++ slice l (p + n) m = slice l p (n + m) := by
  simp only [slice, List.take_add, List.drop_drop]

/-- A read in two parts. -/
theorem slice_split (l : List α) (p : Nat) {n m : Nat} (h : n ≤ m) :
    slice l p m = slice l p n ++ slice l (p + n) (m - n) := by
  rw [slice_append, Nat.add_sub_cancel' h]

/-- A read inside a range that was read. -/
theorem slice_slice (l : List α) {p n q m : Nat} (h : q + m ≤ n) :
    slice (slice l p n) q m = slice l (p + q) m := by
  refine List.ext_getElem? fun i => ?_
  simp only [getElem?_slice]
  split
  · rw [if_pos (by omega), Nat.add_assoc]
  · rfl

/-- A read that stays in the first of two buffers. -/
theorem slice_append_left {l : List α} (m : List α) {p n : Nat} (h : p + n ≤ l.length) :
    slice (l ++ m) p n = slice l p n := by
  refine List.ext_getElem? fun i => ?_
  simp only [getElem?_slice]
  split
  · exact List.getElem?_append_left (by omega)
  · rfl

/-- A read that starts in the second of two buffers. -/
theorem slice_append_right {l : List α} (m : List α) {p q : Nat} (h : p = l.length + q) (n : Nat) :
    slice (l ++ m) p n = slice m q n := by
  subst h
  simp only [slice, List.drop_append, Nat.add_sub_cancel_left]
  rw [List.drop_eq_nil_of_le (by omega), List.nil_append]

/-! ## Writing -/

theorem length_patch {l : List α} {p : Nat} {b : List α} (h : p + b.length ≤ l.length) :
    (patch l p b).length = l.length := by
  simp only [patch, List.length_append, List.length_take, List.length_drop]
  omega

@[simp] theorem patch_nil (l : List α) (p : Nat) : patch l p [] = l := by simp [patch]

/-- A write of everything. -/
theorem patch_all {l b : List α} (h : b.length = l.length) : patch l 0 b = b := by
  simp [patch, h]

theorem getElem?_patch {l : List α} {p : Nat} (b : List α) (hp : p ≤ l.length) (i : Nat) :
    (patch l p b)[i]? = if i < p then l[i]? else if i < p + b.length then b[i - p]? else l[i]? := by
  have hlen : (l.take p).length = p := by simp [hp]
  unfold patch
  rw [List.append_assoc]
  split
  · next h => rw [List.getElem?_append_left (by omega), List.getElem?_take_of_lt h]
  · next h =>
    rw [List.getElem?_append_right (by omega), hlen]
    split
    · next h' => rw [List.getElem?_append_left (by omega)]
    · next h' =>
      rw [List.getElem?_append_right (by omega), List.getElem?_drop]
      congr 1
      omega

/-- Outside the range a write changes nothing. -/
theorem getElem?_patch_of_outside {l b : List α} {p i : Nat} (hp : p ≤ l.length)
    (hi : i < p ∨ p + b.length ≤ i) : (patch l p b)[i]? = l[i]? := by
  rw [getElem?_patch b hp]
  rcases hi with hi | hi
  · rw [if_pos hi]
  · rw [if_neg (by omega), if_neg (by omega)]

/-- Two writes in a row are one write. -/
theorem patch_patch_append {l b : List α} {p : Nat} (b' : List α) (hp : p + b.length ≤ l.length) :
    patch (patch l p b) (p + b.length) b' = patch l p (b ++ b') := by
  refine List.ext_getElem? fun i => ?_
  have hlen := length_patch hp
  rw [getElem?_patch b' (by omega), getElem?_patch b (by omega), getElem?_patch (b ++ b') (by omega)]
  rw [List.length_append, List.getElem?_append]
  by_cases h₁ : i < p
  · rw [if_pos (show i < p + b.length by omega), if_pos h₁, if_pos h₁]
  rw [if_neg h₁, if_neg h₁]
  by_cases h₂ : i < p + b.length
  · rw [if_pos h₂, if_pos h₂, if_pos (by omega), if_pos (by omega)]
  rw [if_neg h₂, if_neg h₂, if_neg (show ¬ i - p < b.length by omega), Nat.sub_sub, Nat.add_assoc]

/-- What was written is read back. -/
theorem slice_patch_self {l b : List α} {p : Nat} (hp : p ≤ l.length) :
    slice (patch l p b) p b.length = b := by
  refine List.ext_getElem? fun i => ?_
  rw [getElem?_slice, getElem?_patch b hp]
  split
  · next h =>
    rw [if_neg (by omega), if_pos (by omega)]
    congr 1
    omega
  · next h => rw [List.getElem?_eq_none (by omega)]

/-- A write inside a range that was read, written back, is that write alone. -/
theorem patch_slice_patch {l b : List α} {p n q : Nat} (hl : p + n ≤ l.length)
    (hq : q + b.length ≤ n) : patch l p (patch (slice l p n) q b) = patch l (p + q) b := by
  have hs : (slice l p n).length = n := length_slice hl
  have hlen : (patch (slice l p n) q b).length = n := by rw [length_patch (by omega), hs]
  refine List.ext_getElem? fun i => ?_
  rw [getElem?_patch _ (by omega), getElem?_patch _ (by omega), getElem?_patch _ (by omega), hlen,
    getElem?_slice]
  by_cases h₁ : i < p
  · rw [if_pos h₁, if_pos (by omega)]
  rw [if_neg h₁]
  by_cases h₂ : i < p + n
  · have he : p + (i - p) = i := by omega
    rw [if_pos h₂, if_pos (show i - p < n by omega), he]
    by_cases h₃ : i < p + q
    · rw [if_pos h₃, if_pos (by omega)]
    · rw [if_neg h₃, if_neg (show ¬ i - p < q by omega), Nat.sub_sub]
      by_cases h₄ : i < p + q + b.length
      · rw [if_pos h₄, if_pos (by omega)]
      · rw [if_neg h₄, if_neg (by omega)]
  · rw [if_neg h₂, if_neg (by omega), if_neg (by omega)]

end Lib
