import RiscvKernel.Memory.UserPages
import RiscvKernel.Sys.UserMemory

/-!
# `memory_validate_vptr_len` and the hardware

The check stands between a buffer of the caller and the kernel. It should accept a buffer if and only
if the hardware would: every page of it is mapped with the flags that are asked for.

* `followed`: the entries that `walk_pt` takes for pointers to tables.
* `Agrees`: the check agrees with the hardware, and follows tables only.
* `FirstDecides`: what has to hold of an address space and a buffer for a check that looks at one
  entry only, does not ask whether it is a leaf, refuses the physical page 0, and rounds the length
  up with a sum that wraps.
* `validate_agrees_iff`: the one holds if and only if the other does.
-/

namespace RiscvKernel

open Lib Phys

namespace Validation

/-- The page of `va` is mapped with all of the flags. -/
def MappedWith (m : Phys) (root va : Nat) (rwxug : BitVec 8) : Prop :=
  ∃ p ∈ m.translate root va, p.2 &&& rwxug = rwxug

/-- Every page that has a byte of `[vp, vp + len)` is mapped with all of the flags. -/
def RangeMapped (m : Phys) (root vp len : Nat) (rwxug : BitVec 8) : Prop :=
  ∀ va, vp ≤ va → va < vp + len → MappedWith m root va rwxug

/-- The entries that `walk_pt` follows to the table of the last level. -/
def followed (word : Nat → BitVec 64) (root : Nat) (v : Vpn) : List Pte :=
  [entry word root v.i2, entry word (midTable word root v) v.i1]

/-- What the check is for. -/
structure Agrees (m : Phys) (root vp len : Nat) (rwxug : BitVec 8) : Prop where
  iff_mapped : memoryValidateVptrLen m root vp len rwxug = true ↔ RangeMapped m root vp len rwxug
  tables : ∀ p ∈ followed m.word root (vpnOf vp), p.isTable

/-- The test of the loop, the same in every round. -/
def passes (p : Pte) (rwxug : BitVec 8) : Bool :=
  p.ppn != 0 && p.has PTE_V && p.flags &&& rwxug == rwxug

/-- The entry of the first page speaks for the whole buffer: the length can be rounded up; if the
entry passes, it is a leaf for the hardware and the other pages are mapped too; and the buffer is not
a good one that begins in the physical page 0. -/
structure FirstDecides (m : Phys) (root vp len : Nat) (rwxug : BitVec 8) (p : Pte) : Prop where
  length : len ≤ 2 ^ 64 - PAGE_SIZE
  leaf : passes p rwxug → canonical vp ∧ p.valid ∧ p.leaf
  others : passes p rwxug → ∀ va, vp ≤ va → va < vp + len → va / PAGE_SIZE ≠ vp / PAGE_SIZE →
    MappedWith m root va rwxug
  page_zero : p.ppn = 0 → ¬RangeMapped m root vp len rwxug

variable {m : Phys} {root vp va len : Nat} {rwxug : BitVec 8} {p : Pte}

/-! ## One page -/

theorem vpnOf_eq_of_page (h : va / PAGE_SIZE = vp / PAGE_SIZE) : vpnOf va = vpnOf vp := by
  unfold PAGE_SIZE at h
  refine Vpn.ext (Fin.ext ?_) (Fin.ext ?_) (Fin.ext ?_)
  · show va / 2 ^ 30 % 512 = vp / 2 ^ 30 % 512
    omega
  · show va / 2 ^ 21 % 512 = vp / 2 ^ 21 % 512
    omega
  · show va / 2 ^ 12 % 512 = vp / 2 ^ 12 % 512
    omega

theorem canonical_iff {va : Nat} :
    canonical va = true ↔ va < 2 ^ 38 ∨ (2 ^ 64 - 2 ^ 38 ≤ va ∧ va < 2 ^ 64) := by
  unfold canonical
  rw [Bool.or_eq_true, Bool.and_eq_true, decide_eq_true_eq, decide_eq_true_eq, decide_eq_true_eq]

/-- The bytes of a page are mapped together. -/
theorem translate_eq_of_page (h : va / PAGE_SIZE = vp / PAGE_SIZE) :
    m.translate root va = m.translate root vp := by
  have hcanon : canonical va = canonical vp := by
    rw [Bool.eq_iff_iff, canonical_iff, canonical_iff]
    unfold PAGE_SIZE at h
    omega
  unfold Phys.translate
  rw [hcanon, vpnOf_eq_of_page h]

/-- The hardware and the entry of the first page. -/
theorem mappedWith_iff (hp : leafEntry m.word root (vpnOf vp) = some p) :
    MappedWith m root vp rwxug ↔ canonical vp ∧ p.valid ∧ p.leaf ∧ p.flags &&& rwxug = rwxug := by
  unfold MappedWith Phys.translate
  rw [hwWalk_of_leafEntry hp]
  constructor
  · rintro ⟨q, hq, hflags⟩
    obtain ⟨hcanon, hmap⟩ := Option.ite_none_right_eq_some.mp hq
    obtain ⟨⟨hvalid, hleaf⟩, rfl⟩ := Pte.mapping_eq_some.mp hmap
    exact ⟨hcanon, hvalid, hleaf, hflags⟩
  · rintro ⟨hcanon, hvalid, hleaf, hflags⟩
    refine ⟨(p.ppn, p.flags), ?_, hflags⟩
    rw [if_pos hcanon]
    exact Pte.mapping_eq_some.mpr ⟨⟨hvalid, hleaf⟩, rfl⟩

theorem passes_iff :
    passes p rwxug = true ↔ p.ppn ≠ 0 ∧ p.has PTE_V = true ∧ p.flags &&& rwxug = rwxug := by
  unfold passes
  rw [Bool.and_eq_true, Bool.and_eq_true, bne_iff_ne, beq_iff_eq, and_assoc]

/-! ## The walk and the loop -/

/-- The walk follows tables only if and only if there is a table of the last level. -/
theorem tables_iff :
    (∀ q ∈ followed m.word root (vpnOf vp), q.isTable) ↔
      ∃ p, leafEntry m.word root (vpnOf vp) = some p := by
  generalize vpnOf vp = v
  unfold followed
  rw [List.forall_mem_cons, List.forall_mem_singleton]
  constructor
  · rintro ⟨h2, h1⟩
    have hmid : tableAt m.word root (.mid v.i2) = some (midTable m.word root v) :=
      Pte.child_eq_some.mpr ⟨h2, rfl⟩
    have hlow : tableAt m.word root (.low v.i2 v.i1) = some (lowTable m.word root v) := by
      rw [tableAt_low hmid]
      exact Pte.child_eq_some.mpr ⟨h1, rfl⟩
    exact ⟨_, leafEntry_of_low hlow⟩
  · rintro ⟨p, hp⟩
    obtain ⟨t0, hlow, -⟩ := Option.map_eq_some_iff.mp hp
    obtain ⟨t1, hmid, -⟩ := Option.bind_eq_some_iff.mp hlow
    rw [tableAt_low hmid] at hlow
    obtain ⟨h2, haddr⟩ := Pte.child_eq_some.mp hmid
    have hmidTable : midTable m.word root v = t1 := haddr
    rw [hmidTable]
    exact ⟨h2, (Pte.child_eq_some.mp hlow).1⟩

/-- The check tests the entry of the first page once for every page. -/
theorem validate_eq (hp : leafEntry m.word root (vpnOf vp) = some p) :
    memoryValidateVptrLen m root vp len rwxug = true ↔
      u64 (len + PAGE_SIZE - 1) / PAGE_SIZE = 0 ∨ passes p rwxug := by
  obtain ⟨t0, hlow, hentry⟩ := Option.map_eq_some_iff.mp hp
  have hpte : Pte.ofWord (m.word (t0 + 8 * (vpnOf vp).i0)) = p := hentry
  have hrounds : u64 (len + PAGE_SIZE - 1) / PAGE_SIZE * PAGE_SIZE / PAGE_SIZE =
      u64 (len + PAGE_SIZE - 1) / PAGE_SIZE := Nat.mul_div_cancel _ (by decide)
  unfold memoryValidateVptrLen
  rw [walkPt_of_low hlow]
  dsimp only
  rw [hpte, hrounds, List.all_eq_true]
  constructor
  · intro hall
    refine or_iff_not_imp_left.mpr fun hne => ?_
    exact hall 0 (List.mem_range.mpr (Nat.pos_of_ne_zero hne))
  · rintro (hzero | hpass) i hi
    · rw [hzero] at hi
      exact absurd (List.mem_range.mp hi) (Nat.not_lt_zero i)
    · exact hpass

theorem rounds_eq_zero_iff (hlen : len < 2 ^ 64) :
    u64 (len + PAGE_SIZE - 1) / PAGE_SIZE = 0 ↔ len = 0 ∨ 2 ^ 64 - PAGE_SIZE < len := by
  unfold u64 PAGE_SIZE
  omega

/-- A range of nearly all addresses has one that is not canonical. -/
theorem not_rangeMapped_of_long (hlen : 2 ^ 64 - PAGE_SIZE < len) :
    ¬RangeMapped m root vp len rwxug := by
  intro hmapped
  have hcanon : ∀ va, vp ≤ va → va < vp + len → canonical va = true := by
    intro va hle hlt
    obtain ⟨q, hq, -⟩ := hmapped va hle hlt
    exact (Option.ite_none_right_eq_some.mp hq).1
  unfold PAGE_SIZE at hlen
  by_cases hlow : vp ≤ 2 ^ 38
  · have := canonical_iff.mp (hcanon (2 ^ 38) hlow (by omega))
    omega
  · have := canonical_iff.mp (hcanon vp (Nat.le_refl _) (by omega))
    have := canonical_iff.mp (hcanon (2 ^ 64) (by omega) (by omega))
    omega

/-- The range is mapped if its first page is, and the others are. -/
theorem rangeMapped_iff (hpos : 0 < len) :
    RangeMapped m root vp len rwxug ↔ MappedWith m root vp rwxug ∧
      ∀ va, vp ≤ va → va < vp + len → va / PAGE_SIZE ≠ vp / PAGE_SIZE →
        MappedWith m root va rwxug := by
  constructor
  · intro h
    exact ⟨h vp (Nat.le_refl _) (by omega), fun va hle hlt _ => h va hle hlt⟩
  · rintro ⟨hfirst, hothers⟩ va hle hlt
    by_cases hpage : va / PAGE_SIZE = vp / PAGE_SIZE
    · unfold MappedWith
      rw [translate_eq_of_page hpage]
      exact hfirst
    · exact hothers va hle hlt hpage

/-! ## When the check agrees -/

/-- For a buffer that is not empty, with all tables on the way to its first page. -/
theorem agrees_iff_firstDecides (hp : leafEntry m.word root (vpnOf vp) = some p) (hpos : 0 < len)
    (hlen : len < 2 ^ 64) :
    (memoryValidateVptrLen m root vp len rwxug = true ↔ RangeMapped m root vp len rwxug) ↔
      FirstDecides m root vp len rwxug p := by
  rw [validate_eq hp, rounds_eq_zero_iff hlen]
  by_cases hlong : 2 ^ 64 - PAGE_SIZE < len
  · -- no round: the check accepts
    constructor
    · intro h
      exact absurd (h.mp (Or.inl (Or.inr hlong))) (not_rangeMapped_of_long hlong)
    · intro h
      exact absurd h.length (Nat.not_le.mpr hlong)
  · have hcheck : ((len = 0 ∨ 2 ^ 64 - PAGE_SIZE < len) ∨ passes p rwxug = true) ↔
        passes p rwxug = true := by
      constructor
      · rintro ((h | h) | h)
        · omega
        · exact absurd h hlong
        · exact h
      · exact Or.inr
    rw [hcheck]
    constructor
    · intro h
      have hfirst : passes p rwxug → _ := fun hpass => (rangeMapped_iff hpos).mp (h.mp hpass)
      refine ⟨Nat.not_lt.mp hlong, fun hpass => ?_, fun hpass => (hfirst hpass).2, ?_⟩
      · obtain ⟨hcanon, hvalid, hleaf, -⟩ := (mappedWith_iff hp).mp (hfirst hpass).1
        exact ⟨hcanon, hvalid, hleaf⟩
      · intro hzero hmapped
        exact (passes_iff.mp (h.mpr hmapped)).1 hzero
    · intro h
      constructor
      · intro hpass
        obtain ⟨hcanon, hvalid, hleaf⟩ := h.leaf hpass
        refine (rangeMapped_iff hpos).mpr ⟨(mappedWith_iff hp).mpr ?_, h.others hpass⟩
        exact ⟨hcanon, hvalid, hleaf, (passes_iff.mp hpass).2.2⟩
      · intro hmapped
        obtain ⟨-, hvalid, -, hflags⟩ := (mappedWith_iff hp).mp ((rangeMapped_iff hpos).mp hmapped).1
        refine passes_iff.mpr ⟨fun hzero => h.page_zero hzero hmapped, ?_, hflags⟩
        by_contra hV
        rw [Pte.valid_of_not_V (by simpa using hV)] at hvalid
        cases hvalid

/-- **The check and the hardware.** For every address space, pointer, length and flags, the check
accepts the buffer if and only if the hardware does, and follows tables only, exactly when the table of
the last level is there for the first page and, unless the buffer is empty, the entry of the first
page speaks for the whole buffer. -/
theorem validate_agrees_iff (m : Phys) (root vp len : Nat) (rwxug : BitVec 8) (hlen : len < 2 ^ 64) :
    Agrees m root vp len rwxug ↔
      ∃ p, leafEntry m.word root (vpnOf vp) = some p ∧
        (len = 0 ∨ FirstDecides m root vp len rwxug p) := by
  constructor
  · rintro ⟨hiff, htables⟩
    obtain ⟨p, hp⟩ := tables_iff.mp htables
    refine ⟨p, hp, ?_⟩
    rcases Nat.eq_zero_or_pos len with hzero | hpos
    · exact Or.inl hzero
    · exact Or.inr ((agrees_iff_firstDecides hp hpos hlen).mp hiff)
  · rintro ⟨p, hp, hcase⟩
    refine ⟨?_, tables_iff.mpr ⟨p, hp⟩⟩
    rcases Nat.eq_zero_or_pos len with rfl | hpos
    · -- nothing to check, and nothing is checked
      refine iff_of_true ((validate_eq hp).mpr (Or.inl ?_)) fun va hle hlt => absurd hlt (by omega)
      exact (rounds_eq_zero_iff hlen).mpr (Or.inl rfl)
    · exact (agrees_iff_firstDecides hp hpos hlen).mpr (hcase.resolve_left (by omega))

/-- The leaf entry of a page of the user that is readable and writable. -/
def readWrite : BitVec 64 := (Pte.leafPte 0x80014000 (PTE_R ||| PTE_W ||| PTE_U)).toWord

/-- A buffer inside the page. -/
theorem validate_agrees_onePage :
    Agrees (oneUserPage readWrite) 0x80010000 0xC0000010 100 (PTE_U ||| PTE_W) := by
  refine (validate_agrees_iff _ _ _ _ _ (by decide)).mpr
    ⟨Pte.leafPte 0x80014000 (PTE_R ||| PTE_W ||| PTE_U), by decide +kernel, Or.inr ?_⟩
  refine ⟨by decide, fun _ => by decide +kernel, fun _ va hle hlt hpage => ?_,
    fun hzero => absurd hzero (by decide +kernel)⟩
  unfold PAGE_SIZE at hpage
  omega

/-- A buffer of two pages is accepted though the second one is not mapped; so is one that is longer than
the memory; and for an address without tables the walk follows an entry that is 0. -/
theorem validate_disagrees :
    (memoryValidateVptrLen (oneUserPage readWrite) 0x80010000 0xC0000000 0x2000 (PTE_U ||| PTE_W) = true ∧
      (oneUserPage readWrite).translate 0x80010000 0xC0001000 = none) ∧
    (memoryValidateVptrLen (oneUserPage readWrite) 0x80010000 0xD0000000 (2 ^ 64 - 1) (PTE_U ||| PTE_W) = true ∧
      (oneUserPage readWrite).translate 0x80010000 0xD0000000 = none) ∧
    ¬∀ p ∈ followed (oneUserPage readWrite).word 0x80010000 (vpnOf 0x100000000), p.isTable := by
  decide +kernel

end Validation

end RiscvKernel
