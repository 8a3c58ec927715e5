import RiscvKernel.Lib.Bytes

/-!
# Sequences that are scattered over a store

A sequence is kept in a store (a list) at positions that need not be consecutive: its element `x`
is at `place x`. `WritesAt place a data l l'` says that `l'` is the store `l` after the elements
from `a` on have been overwritten with `data`, and nothing else has. A write of consecutive
positions is one (`writesAt_patch`), two in a row are one (`WritesAt.append`), and the sequence
is then the old one with `data` patched in (`WritesAt.gathers`).
-/

namespace Lib

variable {α : Type}

/-- The elements from `a` on, and no others, have become `data`. -/
structure WritesAt (place : Nat → Nat) (a : Nat) (data l l' : List α) : Prop where
  length : l'.length = l.length
  written : ∀ j < data.length, l'[place (a + j)]? = data[j]?
  frame : ∀ q, (∀ j < data.length, place (a + j) ≠ q) → l'[q]? = l[q]?

/-- The first elements of the sequence in the store are those of `content`. -/
def Gathers (place : Nat → Nat) (l content : List α) : Prop :=
  ∀ x < content.length, l[place x]? = content[x]?

variable {place : Nat → Nat} {a : Nat} {data l l' : List α}

theorem writesAt_nil (place : Nat → Nat) (a : Nat) (l : List α) : WritesAt place a [] l l :=
  ⟨rfl, nofun, fun _ _ => rfl⟩

/-- A write of nothing changes nothing. -/
theorem WritesAt.eq_of_nil {place : Nat → Nat} {a : Nat} {l l' : List α}
    (h : WritesAt place a [] l l') : l' = l :=
  List.ext_getElem? fun q => h.frame q fun _ hj => absurd hj (Nat.not_lt_zero _)

/-- A write of consecutive positions. -/
theorem writesAt_patch {q : Nat} (hplace : ∀ j < data.length, place (a + j) = q + j)
    (hin : q + data.length ≤ l.length) : WritesAt place a data l (patch l q data) where
  length := length_patch hin
  written j hj := by
    rw [hplace j hj, getElem?_patch data (by omega), if_neg (by omega), if_pos (by omega),
      Nat.add_sub_cancel_left]
  frame r hr := by
    apply getElem?_patch_of_outside (by omega)
    by_contra hinside
    exact hr (r - q) (by omega) (by rw [hplace _ (by omega)]; omega)

/-- Two writes in a row, of different elements. -/
theorem WritesAt.append {data' l'' : List α} (h : WritesAt place a data l l')
    (h' : WritesAt place (a + data.length) data' l' l'')
    (hne : ∀ i < data.length, ∀ j < data'.length,
      place (a + data.length + j) ≠ place (a + i)) :
    WritesAt place a (data ++ data') l l'' where
  length := h'.length.trans h.length
  written j hj := by
    rw [List.length_append] at hj
    by_cases hfirst : j < data.length
    · -- the second write leaves the first one alone
      rw [h'.frame _ (hne j hfirst), h.written j hfirst, List.getElem?_append_left hfirst]
    · have hat : a + j = a + data.length + (j - data.length) := by omega
      rw [hat, h'.written _ (by omega), List.getElem?_append_right (by omega)]
  frame q hq := by
    rw [List.length_append] at hq
    rw [h'.frame q fun j hj => ?_, h.frame q fun j hj => hq j (by omega)]
    have := hq (data.length + j) (by omega)
    rwa [← Nat.add_assoc] at this

/-- Away from the elements that are written, a range is as it was. -/
theorem WritesAt.slice_eq (h : WritesAt place a data l l') {q n : Nat}
    (hout : ∀ j < data.length, place (a + j) < q ∨ q + n ≤ place (a + j)) :
    slice l' q n = slice l q n := by
  refine List.ext_getElem? fun i => ?_
  rw [getElem?_slice, getElem?_slice]
  split
  · apply h.frame
    intro j hj
    have := hout j hj
    omega
  · rfl

/-- The sequence after the write. -/
theorem WritesAt.gathers {content : List α} (h : WritesAt place a data l l')
    (hold : Gathers place l content) (hin : a + data.length ≤ content.length)
    (hinj : Set.InjOn place (Set.Iio content.length)) :
    Gathers place l' (patch content a data) := by
  intro x hx
  rw [length_patch hin] at hx
  rw [getElem?_patch data (by omega)]
  by_cases hbefore : x < a
  · rw [if_pos hbefore, h.frame, hold x hx]
    intro j hj heq
    have := hinj (Set.mem_Iio.mpr (by omega)) (Set.mem_Iio.mpr hx) heq
    omega
  rw [if_neg hbefore]
  by_cases hinside : x < a + data.length
  · have hat : x = a + (x - a) := by omega
    rw [if_pos hinside, hat, h.written _ (by omega), Nat.add_sub_cancel_left]
  · rw [if_neg hinside, h.frame, hold x hx]
    intro j hj heq
    have := hinj (Set.mem_Iio.mpr (by omega)) (Set.mem_Iio.mpr hx) heq
    omega

/-- A sequence of known length in a store is determined. -/
theorem Gathers.unique {content content' : List α} (h : Gathers place l content)
    (h' : Gathers place l content') (hlen : content.length = content'.length) :
    content = content' := by
  refine List.ext_getElem? fun x => ?_
  by_cases hx : x < content.length
  · rw [← h x hx, h' x (by omega)]
  · rw [List.getElem?_eq_none (by omega), List.getElem?_eq_none (by omega)]

theorem Gathers.congr {content : List α} {place' : Nat → Nat} (h : Gathers place l content)
    (heq : ∀ x < content.length, place' x = place x) : Gathers place' l content := by
  intro x hx
  rw [heq x hx]
  exact h x hx

/-- A sequence of whole blocks. -/
theorem gathers_blocks {start : Nat → Nat} {n m : Nat} (hin : ∀ i < m, start i + n ≤ l.length) :
    ((List.range m).flatMap fun i => slice l (start i) n).length = n * m ∧
      Gathers (fun x => start (x / n) + x % n) l
        ((List.range m).flatMap fun i => slice l (start i) n) := by
  induction m with
  | zero => exact ⟨rfl, nofun⟩
  | succ m ih =>
    obtain ⟨hlen, hget⟩ := ih fun i hi => hin i (by omega)
    have hslice : (slice l (start m) n).length = n := length_slice (hin m (Nat.lt_succ_self m))
    rw [List.range_succ, List.flatMap_append, List.flatMap_singleton]
    have hlen' : (((List.range m).flatMap fun i => slice l (start i) n) ++
        slice l (start m) n).length = n * m + n := by
      rw [List.length_append, hlen, hslice]
    refine ⟨by rw [hlen', Nat.mul_succ], fun x hx => ?_⟩
    rw [hlen'] at hx
    by_cases hfirst : x < n * m
    · rw [List.getElem?_append_left (by omega)]
      exact hget x (by omega)
    · -- the last block
      obtain ⟨r, rfl⟩ : ∃ r, x = n * m + r := ⟨x - n * m, by omega⟩
      have hr : r < n := by omega
      rw [List.getElem?_append_right (by omega), hlen, Nat.add_sub_cancel_left, getElem?_slice,
        if_pos hr]
      show l[start ((n * m + r) / n) + (n * m + r) % n]? = _
      rw [Nat.mul_add_div (by omega), Nat.div_eq_of_lt hr, Nat.add_zero, Nat.mul_add_mod,
        Nat.mod_eq_of_lt hr]

/-- A sequence none of whose elements is written stays. -/
theorem WritesAt.gathers_other {content : List α} {place' : Nat → Nat}
    (h : WritesAt place a data l l') (hold : Gathers place' l content)
    (hne : ∀ x < content.length, ∀ j < data.length, place (a + j) ≠ place' x) :
    Gathers place' l' content := by
  intro x hx
  rw [h.frame _ (hne x hx), hold x hx]

end Lib
