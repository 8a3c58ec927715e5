import Mathlib

/-!
# Ring buffers with free-running positions

A queue in an array of `N` elements. The head and the tail are counters of `w` bits that only
ever count up; an element is at its counter modulo `N`. Since `N` divides `2 ^ w` a counter
can wrap around at any time, and since it is smaller than `2 ^ w` an empty buffer differs
from a full one.

A writer stores an element and then advances the tail; a reader fetches an element and then
advances the head. The lemmas are about these single accesses, so that they apply when the
other side is interrupted between its two.
-/

namespace Lib

/-- The positions of the first element and behind the last, and the array. -/
structure Ring (N w : Nat) (α : Type) where
  hpos : BitVec w
  tpos : BitVec w
  data : Fin N → α

namespace Ring

variable {N w : Nat} {α : Type}

/-- The number of elements. -/
def size (r : Ring N w α) : Nat := (r.tpos - r.hpos).toNat

/-- Move the tail. -/
def setTail (r : Ring N w α) (p : BitVec w) : Ring N w α := { r with tpos := p }

/-- Move the head. -/
def setHead (r : Ring N w α) (p : BitVec w) : Ring N w α := { r with hpos := p }

theorem size_eq_zero {r : Ring N w α} : r.size = 0 ↔ r.hpos = r.tpos := by
  unfold size
  rw [← BitVec.toNat_zero (w := w), BitVec.toNat_inj, eq_comm (a := r.hpos)]
  exact sub_eq_zero

/-- The tail is `size` behind the head. -/
theorem hpos_add_size (r : Ring N w α) : r.hpos + BitVec.ofNat w r.size = r.tpos := by
  unfold size
  rw [BitVec.ofNat_toNat, BitVec.setWidth_eq, BitVec.add_comm, BitVec.sub_add_cancel]

theorem toNat_add_one {p : BitVec w} (h : p.toNat + 1 < 2 ^ w) : (p + 1#w).toNat = p.toNat + 1 := by
  rw [BitVec.toNat_add, BitVec.toNat_ofNat, Nat.add_mod_mod, Nat.mod_eq_of_lt h]

theorem size_setTail {r : Ring N w α} (hr : r.size + 1 < 2 ^ w) :
    (r.setTail (r.tpos + 1#w)).size = r.size + 1 := by
  show (r.tpos + 1#w - r.hpos).toNat = (r.tpos - r.hpos).toNat + 1
  rw [add_sub_right_comm, toNat_add_one hr]

theorem size_setHead {r : Ring N w α} (hr : 0 < r.size) :
    (r.setHead (r.hpos + 1#w)).size + 1 = r.size := by
  have hsub : r.tpos - r.hpos = r.tpos - (r.hpos + 1#w) + 1#w := by
    rw [sub_add_eq_sub_sub, sub_add_cancel]
  unfold size at hr ⊢
  show (r.tpos - (r.hpos + 1#w)).toNat + 1 = _
  rw [hsub] at hr ⊢
  -- the counter behind the head does not wrap around, or the buffer would be empty
  by_cases hlt : (r.tpos - (r.hpos + 1#w)).toNat + 1 < 2 ^ w
  · rw [toNat_add_one hlt]
  · have hmax : (r.tpos - (r.hpos + 1#w)).toNat + 1 = 2 ^ w := by
      have := (r.tpos - (r.hpos + 1#w)).isLt
      omega
    rw [BitVec.toNat_add, BitVec.toNat_ofNat, Nat.add_mod_mod, hmax, Nat.mod_self] at hr
    omega

variable [NeZero N]

/-- Where the element with counter `p` is. -/
def slot (p : BitVec w) : Fin N := Fin.ofNat N p.toNat

/-- The elements, from the head to the tail. -/
def contents (r : Ring N w α) : List α :=
  (List.range r.size).map fun i => r.data (slot (r.hpos + BitVec.ofNat w i))

/-- Put an element at counter `p` of the array. -/
def store (r : Ring N w α) (p : BitVec w) (a : α) : Ring N w α :=
  { r with data := Function.update r.data (slot p) a }

@[simp] theorem size_store (r : Ring N w α) (p : BitVec w) (a : α) : (r.store p a).size = r.size := rfl

theorem data_store (r : Ring N w α) (p : BitVec w) (a : α) : (r.store p a).data (slot p) = a :=
  Function.update_self ..

@[simp] theorem length_contents (r : Ring N w α) : r.contents.length = r.size := by
  simp [contents]

theorem contents_eq_nil {r : Ring N w α} : r.contents = [] ↔ r.hpos = r.tpos := by
  rw [← size_eq_zero, ← length_contents, List.length_eq_zero_iff]

/-! ## The writer -/

/-- Counters that are less than `N` apart have different places. -/
theorem slot_add_ne (hN : N ∣ 2 ^ w) (p : BitVec w) {i j : Nat} (hij : i < j) (hj : j < N) :
    (slot (p + BitVec.ofNat w i) : Fin N) ≠ slot (p + BitVec.ofNat w j) := by
  have hslot : ∀ k, (p + BitVec.ofNat w k).toNat % N = (p.toNat + k) % N := by
    intro k
    rw [BitVec.toNat_add, BitVec.toNat_ofNat, Nat.add_mod_mod, Nat.mod_mod_of_dvd _ hN]
  intro h
  have hmod : (p.toNat + i) % N = (p.toNat + j) % N := by
    rw [← hslot, ← hslot]
    exact congrArg Fin.val h
  have : i ≡ j [MOD N] := Nat.ModEq.add_left_cancel' _ hmod
  rw [Nat.ModEq, Nat.mod_eq_of_lt (hij.trans hj), Nat.mod_eq_of_lt hj] at this
  omega

theorem slot_tpos_ne (hN : N ∣ 2 ^ w) {r : Ring N w α} (hr : r.size < N) {i : Nat}
    (hi : i < r.size) : (slot (r.hpos + BitVec.ofNat w i) : Fin N) ≠ slot r.tpos := by
  rw [← hpos_add_size r]
  exact slot_add_ne hN r.hpos hi hr

/-- Storing behind the last element changes none. -/
theorem contents_store (hN : N ∣ 2 ^ w) {r : Ring N w α} (hr : r.size < N) (a : α) :
    (r.store r.tpos a).contents = r.contents := by
  refine List.map_congr_left fun i hi => Function.update_of_ne ?_ _ _
  exact slot_tpos_ne hN hr (List.mem_range.mp hi)

/-- Storing behind the last element leaves the first one. -/
theorem data_store_head (hN : N ∣ 2 ^ w) {r : Ring N w α} (hr : r.size < N) (hpos : 0 < r.size)
    (a : α) : (r.store r.tpos a).data (slot r.hpos) = r.data (slot r.hpos) := by
  have hne := slot_tpos_ne hN hr hpos
  rw [BitVec.add_zero] at hne
  exact Function.update_of_ne hne _ _

/-- Advancing the tail appends what is stored there. -/
theorem contents_setTail {r : Ring N w α} (hr : r.size + 1 < 2 ^ w) :
    (r.setTail (r.tpos + 1#w)).contents = r.contents ++ [r.data (slot r.tpos)] := by
  unfold contents
  rw [size_setTail hr, List.range_succ, List.map_append]
  show _ ++ [r.data (slot (r.hpos + BitVec.ofNat w r.size))] = _
  rw [hpos_add_size]
  rfl

/-! ## The reader -/

/-- Advancing the head removes the first element. -/
theorem contents_setHead {r : Ring N w α} (hr : 0 < r.size) :
    r.contents = r.data (slot r.hpos) :: (r.setHead (r.hpos + 1#w)).contents := by
  unfold contents
  rw [← size_setHead hr, List.range_succ_eq_map, List.map_cons, List.map_map]
  refine congrArg₂ _ ?_ (List.map_congr_left fun i _ => ?_)
  · rw [BitVec.add_zero]
  · show r.data (slot (r.hpos + BitVec.ofNat w (i + 1))) =
      r.data (slot (r.hpos + 1#w + BitVec.ofNat w i))
    rw [BitVec.ofNat_add, BitVec.add_comm (BitVec.ofNat w i), BitVec.add_assoc]

end Ring

end Lib
