import Mathlib

/-!
# Sv39 address translation

Page table entries and the walk of the hardware over three levels of tables: what a virtual
page is mapped to, and with which flags. This is the architecture, not the kernel: a gigapage
or megapage ends the walk early, an entry whose reserved bits are set or that is writable but
not readable is a page fault, and so is an entry of the last level that is no leaf.
-/

namespace RiscvKernel

/-! ## Entries -/

/-- `struct pte`; `hi` is `reserved`, `pbmt` and `n`. -/
structure Pte where
  flags : BitVec 8
  rsw : BitVec 2
  ppn : BitVec 44
  hi : BitVec 10
  deriving DecidableEq

def PTE_V : BitVec 8 := 1
def PTE_R : BitVec 8 := 2
def PTE_W : BitVec 8 := 4
def PTE_X : BitVec 8 := 8
def PTE_U : BitVec 8 := 16
def PTE_G : BitVec 8 := 32
def PTE_A : BitVec 8 := 64
def PTE_D : BitVec 8 := 128

namespace Pte

def ofWord (w : BitVec 64) : Pte where
  flags := BitVec.ofNat 8 w.toNat
  rsw := BitVec.ofNat 2 (w.toNat / 2 ^ 8)
  ppn := BitVec.ofNat 44 (w.toNat / 2 ^ 10)
  hi := BitVec.ofNat 10 (w.toNat / 2 ^ 54)

def toWord (p : Pte) : BitVec 64 :=
  BitVec.ofNat 64 (p.flags.toNat + 2 ^ 8 * p.rsw.toNat + 2 ^ 10 * p.ppn.toNat + 2 ^ 54 * p.hi.toNat)

@[simp] theorem ofWord_toWord (p : Pte) : ofWord p.toWord = p := by
  obtain ⟨flags, rsw, ppn, hi⟩ := p
  have hf := flags.isLt
  have hr := rsw.isLt
  have hp := ppn.isLt
  have hh := hi.isLt
  have hw : (toWord ⟨flags, rsw, ppn, hi⟩).toNat =
      flags.toNat + 2 ^ 8 * rsw.toNat + 2 ^ 10 * ppn.toNat + 2 ^ 54 * hi.toNat := by
    unfold toWord
    rw [BitVec.toNat_ofNat]
    dsimp only
    omega
  unfold ofWord
  rw [hw]
  congr 1
  · apply BitVec.eq_of_toNat_eq
    rw [BitVec.toNat_ofNat]
    omega
  · apply BitVec.eq_of_toNat_eq
    rw [BitVec.toNat_ofNat]
    omega
  · apply BitVec.eq_of_toNat_eq
    rw [BitVec.toNat_ofNat]
    omega
  · apply BitVec.eq_of_toNat_eq
    rw [BitVec.toNat_ofNat]
    omega

/-- The address of the page that an entry refers to: `pagenum_to_pageptr`. -/
def addr (p : Pte) : Nat := p.ppn.toNat * 2 ^ 12

/-- One of the flags in `f` is set. -/
def has (p : Pte) (f : BitVec 8) : Bool := p.flags &&& f != 0

/-- The hardware accepts the entry. -/
def valid (p : Pte) : Bool := p.has PTE_V && (!p.has PTE_W || p.has PTE_R) && p.hi == 0

/-- The entry maps a page, it does not point to a table. -/
def leaf (p : Pte) : Bool := p.has PTE_R || p.has PTE_X

/-- The entry points to a table. -/
def isTable (p : Pte) : Bool := p.valid && !p.leaf

/-- `ptab_pte` -/
def ptab (page : Nat) (g : BitVec 8) : Pte := ⟨g ||| PTE_V, 0, BitVec.ofNat 44 (page / 2 ^ 12), 0⟩

/-- `leaf_pte` -/
def leafPte (page : Nat) (rwxug : BitVec 8) : Pte :=
  ⟨rwxug ||| PTE_A ||| PTE_D ||| PTE_V, 0, BitVec.ofNat 44 (page / 2 ^ 12), 0⟩

theorem isTable_ptab (page : Nat) : (ptab page 0).isTable := by
  have hw : (ptab page 0).flags = 1 := rfl
  unfold isTable valid leaf has
  rw [hw]
  rfl

theorem addr_ptab {page : Nat} (g : BitVec 8) (haligned : page % 2 ^ 12 = 0) (hlt : page < 2 ^ 56) :
    (ptab page g).addr = page := by
  show (BitVec.ofNat 44 (page / 2 ^ 12)).toNat * 2 ^ 12 = page
  rw [BitVec.toNat_ofNat]
  omega

/-- An entry without `PTE_V` maps nothing. -/
theorem valid_of_not_V {p : Pte} (h : p.has PTE_V = false) : p.valid = false := by
  unfold valid
  rw [h]
  rfl

theorem has_V_of_isTable {p : Pte} (h : p.isTable) : p.has PTE_V = true := by
  by_contra hv
  have hvalid := valid_of_not_V (by simpa using hv)
  unfold isTable at h
  rw [hvalid] at h
  cases h

end Pte

/-! ## The walk -/

/-- A virtual page, as the indices into the three tables. -/
@[ext]
structure Vpn where
  i2 : Fin 512
  i1 : Fin 512
  i0 : Fin 512
  deriving DecidableEq

/-- `VPN2`, `VPN1` and `VPN0` -/
def vpnOf (vma : Nat) : Vpn :=
  ⟨⟨vma / 2 ^ 30 % 512, Nat.mod_lt _ (by decide)⟩, ⟨vma / 2 ^ 21 % 512, Nat.mod_lt _ (by decide)⟩,
    ⟨vma / 2 ^ 12 % 512, Nat.mod_lt _ (by decide)⟩⟩

/-- Entry `i` of the table at `table`. -/
def entry (word : Nat → BitVec 64) (table : Nat) (i : Fin 512) : Pte :=
  Pte.ofWord (word (table + 8 * i))

/-- A mapping: the physical page and the flags. -/
abbrev Mapping := BitVec 44 × BitVec 8

/-- The end of the walk, in a table of the last level. -/
def walk0 (word : Nat → BitVec 64) (table : Nat) (i0 : Fin 512) : Option Mapping :=
  let p := entry word table i0
  if p.valid && p.leaf then some (p.ppn, p.flags) else none

/-- The walk from a table of the middle level. -/
def walk1 (word : Nat → BitVec 64) (table : Nat) (i1 i0 : Fin 512) : Option Mapping :=
  let p := entry word table i1
  if p.valid then
    if p.leaf then
      if p.ppn.toNat % 512 = 0 then some (p.ppn + BitVec.ofNat 44 i0, p.flags) else none
    else walk0 word p.addr i0
  else none

/-- The walk from the root. -/
def hwWalk (word : Nat → BitVec 64) (root : Nat) (v : Vpn) : Option Mapping :=
  let p := entry word root v.i2
  if p.valid then
    if p.leaf then
      if p.ppn.toNat % 2 ^ 18 = 0 then
        some (p.ppn + BitVec.ofNat 44 (512 * v.i1 + v.i0), p.flags)
      else none
    else walk1 word p.addr v.i1 v.i0
  else none

/-! ## What the walk depends on -/

variable {word word' : Nat → BitVec 64} {root table : Nat} {i1 i0 : Fin 512} {v : Vpn}

theorem entry_congr {i : Fin 512} (h : word' (table + 8 * i) = word (table + 8 * i)) :
    entry word' table i = entry word table i := by
  unfold entry
  rw [h]

/-- The entry at the beginning refuses. -/
theorem hwWalk_of_not_valid (h : (entry word root v.i2).valid = false) :
    hwWalk word root v = none := by
  unfold hwWalk
  simp [h]

theorem walk1_of_not_valid (h : (entry word table i1).valid = false) :
    walk1 word table i1 i0 = none := by
  unfold walk1
  simp [h]

/-- The walk goes on in a table. -/
theorem hwWalk_of_table (h : (entry word root v.i2).isTable) :
    hwWalk word root v = walk1 word (entry word root v.i2).addr v.i1 v.i0 := by
  obtain ⟨hv, hl⟩ : (entry word root v.i2).valid = true ∧ (entry word root v.i2).leaf = false := by
    simpa [Pte.isTable] using h
  unfold hwWalk
  simp [hv, hl]

theorem walk1_of_table (h : (entry word table i1).isTable) :
    walk1 word table i1 i0 = walk0 word (entry word table i1).addr i0 := by
  obtain ⟨hv, hl⟩ : (entry word table i1).valid = true ∧ (entry word table i1).leaf = false := by
    simpa [Pte.isTable] using h
  unfold walk1
  simp [hv, hl]

/-- The last table has leaves only. -/
theorem walk0_of_table (h : (entry word table i0).isTable) : walk0 word table i0 = none := by
  obtain ⟨-, hl⟩ : (entry word table i0).valid = true ∧ (entry word table i0).leaf = false := by
    simpa [Pte.isTable] using h
  unfold walk0
  simp [hl]

theorem walk0_of_not_V (h : (entry word table i0).has PTE_V = false) :
    walk0 word table i0 = none := by
  unfold walk0
  simp [Pte.valid_of_not_V h]

/-- The walk reads one entry of each table on its way. -/
theorem walk0_congr (h : word' (table + 8 * i0) = word (table + 8 * i0)) :
    walk0 word' table i0 = walk0 word table i0 := by
  unfold walk0
  rw [entry_congr h]

theorem walk1_congr (h : word' (table + 8 * i1) = word (table + 8 * i1))
    (h0 : (entry word table i1).isTable →
      walk0 word' (entry word table i1).addr i0 = walk0 word (entry word table i1).addr i0) :
    walk1 word' table i1 i0 = walk1 word table i1 i0 := by
  unfold walk1
  rw [entry_congr h]
  dsimp only
  split
  · next hv =>
    split
    · rfl
    · next hl => exact h0 (by simp [Pte.isTable, hv, hl])
  · rfl

theorem hwWalk_congr (h : word' (root + 8 * v.i2) = word (root + 8 * v.i2))
    (h1 : (entry word root v.i2).isTable →
      walk1 word' (entry word root v.i2).addr v.i1 v.i0 =
        walk1 word (entry word root v.i2).addr v.i1 v.i0) :
    hwWalk word' root v = hwWalk word root v := by
  unfold hwWalk
  rw [entry_congr h]
  dsimp only
  split
  · next hv =>
    split
    · rfl
    · next hl => exact h1 (by simp [Pte.isTable, hv, hl])
  · rfl

end RiscvKernel
