import RiscvKernel.Lib.CInt
import RiscvKernel.Memory.PageTable

/-!
# Accesses through virtual addresses

What a load or a store of one byte does: the address is translated by the tables of the active
address space, the flags of the page must allow the access, and the byte is part of a word of
physical memory. `SUM` is set, so the kernel can access the pages of the user like its own.

* `byteAt` and `setByte`: the bytes of physical memory.
* `access`: the physical address of a byte, if the page has the flags that the access needs.
* `storeBytes`: what a transfer into a buffer at a virtual address stores.
-/

namespace RiscvKernel

open Lib

/-! ## The bytes of a word -/

def wordByte (w : BitVec 64) (k : Nat) : BitVec 8 := (w >>> (8 * k)).setWidth 8

def setWordByte (w : BitVec 64) (k : Nat) (b : BitVec 8) : BitVec 64 :=
  (w &&& ~~~((BitVec.allOnes 8).setWidth 64 <<< (8 * k))) ||| (b.setWidth 64 <<< (8 * k))

theorem getLsbD_setWordByte (w : BitVec 64) (k : Nat) (b : BitVec 8) {i : Nat} (hi : i < 64) :
    (setWordByte w k b).getLsbD i =
      if 8 * k ≤ i ∧ i < 8 * k + 8 then b.getLsbD (i - 8 * k) else w.getLsbD i := by
  unfold setWordByte
  simp only [BitVec.getLsbD_or, BitVec.getLsbD_and, BitVec.getLsbD_not, BitVec.getLsbD_shiftLeft,
    BitVec.getLsbD_setWidth, BitVec.getLsbD_allOnes]
  split
  · next h =>
    have h₁ : ¬i < 8 * k := by omega
    have h₂ : i - 8 * k < 64 := by omega
    have h₃ : i - 8 * k < 8 := by omega
    simp [hi, h₁, h₂, h₃]
  · next h =>
    -- below or above the byte
    obtain h₁ | h₁ := Nat.lt_or_ge i (8 * k)
    · simp [hi, h₁]
    · have h₃ : ¬i - 8 * k < 8 := by omega
      simp [hi, h₃, BitVec.getLsbD_of_ge b _ (by omega : 8 ≤ i - 8 * k)]

theorem wordByte_setWordByte_self (w : BitVec 64) {k : Nat} (hk : k < 8) (b : BitVec 8) :
    wordByte (setWordByte w k b) k = b := by
  unfold wordByte
  apply BitVec.eq_of_getLsbD_eq
  intro i hi
  rw [BitVec.getLsbD_setWidth, BitVec.getLsbD_ushiftRight, getLsbD_setWordByte _ _ _ (by omega),
    if_pos (by omega)]
  simp [hi]

theorem wordByte_setWordByte_of_ne (w : BitVec 64) {k j : Nat} (hj : j < 8) (hne : j ≠ k)
    (b : BitVec 8) : wordByte (setWordByte w k b) j = wordByte w j := by
  unfold wordByte
  apply BitVec.eq_of_getLsbD_eq
  intro i hi
  simp only [BitVec.getLsbD_setWidth, BitVec.getLsbD_ushiftRight]
  rw [getLsbD_setWordByte _ _ _ (by omega), if_neg (by omega)]

/-- Words with the same bytes are the same. -/
theorem word_ext {w w' : BitVec 64} (h : ∀ k < 8, wordByte w k = wordByte w' k) : w = w' := by
  apply BitVec.eq_of_getLsbD_eq
  intro i hi
  have hbyte := congrArg (fun b => b.getLsbD (i % 8)) (h (i / 8) (by omega))
  have hmod : i % 8 < 8 := Nat.mod_lt _ (by decide)
  simp only [wordByte, BitVec.getLsbD_setWidth, BitVec.getLsbD_ushiftRight, hmod, decide_true,
    Bool.true_and, Nat.div_add_mod] at hbyte
  exact hbyte

/-! ## The bytes of memory -/

/-- The state below the handlers of system calls: physical memory, the root table of the running
process, and the state of the io objects. -/
structure UserSpace (σ : Type) where
  mem : Phys
  root : Nat
  objs : σ

namespace Phys

/-- A byte of physical memory. -/
def byteAt (m : Phys) (pa : Nat) : UInt8 := ⟨wordByte (m.word (pa - pa % 8)) (pa % 8)⟩

def setByte (m : Phys) (pa : Nat) (b : UInt8) : Phys :=
  m.store (pa - pa % 8) (setWordByte (m.word (pa - pa % 8)) (pa % 8) b.toBitVec)

variable {m : Phys} {root va pa a : Nat}

theorem setByte_word_of_ne (b : UInt8) (h : a ≠ pa - pa % 8) : (m.setByte pa b).word a = m.word a :=
  Function.update_of_ne h ..

theorem byteAt_setByte_self (m : Phys) (pa : Nat) (b : UInt8) : (m.setByte pa b).byteAt pa = b := by
  have hword : (m.setByte pa b).word (pa - pa % 8) =
      setWordByte (m.word (pa - pa % 8)) (pa % 8) b.toBitVec := Function.update_self ..
  unfold byteAt
  rw [hword, wordByte_setWordByte_self _ (Nat.mod_lt _ (by decide))]

theorem byteAt_setByte_of_ne (b : UInt8) (h : a ≠ pa) : (m.setByte pa b).byteAt a = m.byteAt a := by
  unfold byteAt
  by_cases hword : a - a % 8 = pa - pa % 8
  · -- another byte of the same word
    have hself : (m.setByte pa b).word (a - a % 8) =
        setWordByte (m.word (a - a % 8)) (pa % 8) b.toBitVec := by
      rw [hword]
      exact Function.update_self ..
    rw [hself, wordByte_setWordByte_of_ne _ (Nat.mod_lt _ (by decide)) (by omega)]
  · rw [setByte_word_of_ne b hword]

/-! ## Translation -/

/-- Bits 63 to 38 of the address are all equal. -/
def canonical (va : Nat) : Bool := va < 2 ^ 38 || (2 ^ 64 - 2 ^ 38 ≤ va && va < 2 ^ 64)

def translate (m : Phys) (root va : Nat) : Option Mapping :=
  if canonical va then hwWalk m.word root (vpnOf va) else none

/-- The physical address of `va`, if the flags of its page include `need`. -/
def access (m : Phys) (root va : Nat) (need : BitVec 8) : Option Nat :=
  match m.translate root va with
  | none => none
  | some (ppn, flags) =>
    if flags &&& need = need then some (ppn.toNat * PAGE_SIZE + va % PAGE_SIZE) else none

/-- The byte that the kernel loads, `none` for a page fault, which panics. -/
def loadByte (m : Phys) (root va : Nat) : Option UInt8 := (m.access root va PTE_R).map m.byteAt

/-- The kernel stores a byte. -/
def storeByte (m : Phys) (root va : Nat) (b : UInt8) : Option Phys :=
  (m.access root va PTE_W).map fun pa => m.setByte pa b

/-- The kernel stores bytes from `va` on. -/
def storeBytes (m : Phys) (root va : Nat) : List UInt8 → Option Phys
  | [] => some m
  | b :: bs =>
    match m.storeByte root va b with
    | none => none
    | some m => m.storeBytes root (u64 (va + 1 : Nat)) bs

end Phys

end RiscvKernel
