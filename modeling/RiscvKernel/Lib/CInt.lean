import Mathlib

/-!
# C integers

Conversions to the fixed-width integer types of C on a two's complement machine.
Unsigned values are `Nat`, signed ones `Int`; arithmetic is exact and the conversion
back to the type is written out where the code performs it. The conversions are
irreducible: proofs use the lemmas, which say when a conversion keeps the value.
-/

namespace Lib

/-- Conversion to `uint64_t`. -/
@[irreducible] def u64 (x : Int) : Nat := (x % 0x10000000000000000).toNat

/-- Conversion to `uint32_t`. -/
@[irreducible] def u32 (x : Int) : Nat := (x % 0x100000000).toNat

/-- Conversion to `long`. -/
@[irreducible] def i64 (x : Int) : Int := x.bmod 0x10000000000000000

/-- Conversion to `int`. -/
@[irreducible] def i32 (x : Int) : Int := x.bmod 0x100000000

/-- `LONG_MAX` -/
def longMax : Nat := 2 ^ 63 - 1

/-- A sum may be converted at every step, or once. -/
theorem u64_add_u64 (x y : Int) : u64 (u64 x + y) = u64 (x + y) := by
  unfold u64
  omega

/-- Signed and unsigned values of 64 bits are the same bits. -/
theorem u64_i64 (x : Int) : u64 (i64 x) = u64 x := by
  unfold u64 i64
  exact congrArg Int.toNat Int.bmod_emod

theorem i64_u64 (x : Int) : i64 (u64 x) = i64 x := by
  unfold u64 i64
  rw [Int.toNat_of_nonneg (Int.emod_nonneg _ (by decide))]
  exact Int.emod_bmod x _

/-- Conversions to 32 bits at every step, or once. -/
theorem u32_linear (a x y : Int) : u32 (a * u32 x + y) = u32 (a * x + y) := by
  unfold u32
  rw [Int.toNat_of_nonneg (Int.emod_nonneg _ (by decide)), Int.add_emod, Int.mul_emod, Int.emod_emod,
    ← Int.mul_emod, ← Int.add_emod]

theorem u64_lt (x : Int) : u64 x < 2 ^ 64 := by
  unfold u64
  omega

/-! ## Values that a conversion keeps -/

theorem u64_eq {x : Int} {n : Nat} (hx : x = n) (h : n < 2 ^ 64) : u64 x = n := by
  unfold u64
  omega

/-- A difference below zero wraps. -/
theorem u64_sub_wrap {a b : Nat} (h : a < b) (hb : b ≤ 2 ^ 64) :
    u64 ((a : Int) - b) = 2 ^ 64 + a - b := by
  unfold u64
  omega

theorem u32_eq {x : Int} {n : Nat} (hx : x = n) (h : n < 2 ^ 32) : u32 x = n := by
  unfold u32
  omega

theorem i64_eq {x : Int} (h₁ : -2 ^ 63 ≤ x) (h₂ : x < 2 ^ 63) : i64 x = x := by
  unfold i64
  exact Int.bmod_eq_of_le (by omega) (by omega)

/-- An unsigned value that is no `long`. -/
theorem i64_of_ge {x : Nat} (h : 2 ^ 63 ≤ x) (hx : x < 2 ^ 64) : i64 x < 0 := by
  unfold i64
  rw [Int.bmod_def]
  split <;> omega

theorem i32_eq {x : Int} (h₁ : -2 ^ 31 ≤ x) (h₂ : x < 2 ^ 31) : i32 x = x := by
  unfold i32
  exact Int.bmod_eq_of_le (by omega) (by omega)

end Lib
