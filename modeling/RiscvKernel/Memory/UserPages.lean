import RiscvKernel.Memory.Access

/-!
# The pages of a process

The functions of `memory.c` that work on all pages of a range or of an address space:
`memory_alloc_and_map_range`, `memory_set_page_flags`, `memory_set_range_flags`,
`memory_handle_page_fault` and `memory_unmap_and_free_user`.

* `UserPage`: a page that the address space maps for the user.
* `Owned`: an address space whose tables are apart from its pages and from the free pages.
-/

namespace RiscvKernel

open Lib

namespace Phys

/-! ## Ranges of pages -/

/-- The rounds of a loop over a range of `size` bytes: `round_up_size`, whose sum can wrap, and
then steps of a page. -/
def pageCount (size : Nat) : Nat := u64 (size + PAGE_SIZE - 1 : Nat) / PAGE_SIZE

/-- The loop over `n` pages from `vma` on. -/
def forPages (f : Nat → Phys → Option Phys) : Nat → Nat → Phys → Option Phys
  | 0, _, m => some m
  | n + 1, vma, m =>
    match f vma m with
    | none => none
    | some m => forPages f n (u64 (vma + PAGE_SIZE : Nat)) m

def memoryAllocAndMapRange (root vma size : Nat) (rwxug : BitVec 8) (m : Phys) : Option Phys :=
  forPages (fun vma m => memoryAllocAndMapPage root vma rwxug m) (pageCount size) vma m

/-- The flags of the leaf entry of `vma` are replaced. -/
def setFlags (create : Bool) (root vma : Nat) (rwxug : BitVec 8) (m : Phys) : Option Phys :=
  match walkPt create root vma m with
  | none => none
  | some (dest, m) => some (m.store dest { Pte.ofWord (m.word dest) with flags := withADV rwxug }.toWord)

def memorySetPageFlags (root vma : Nat) (rwxug : BitVec 8) (m : Phys) : Option Phys :=
  setFlags true root vma rwxug m

def memorySetRangeFlags (root vma size : Nat) (rwxug : BitVec 8) (m : Phys) : Option Phys :=
  forPages (fun vma m => setFlags false root vma rwxug m) (pageCount size) vma m

/-- `memory_handle_page_fault`; outside the user range it panics. -/
def memoryHandlePageFault (root vptr : Nat) (m : Phys) : Option Phys :=
  if USER_START ≤ vptr ∧ vptr ≤ USER_END then
    memoryAllocAndMapPage root vptr (PTE_R ||| PTE_W ||| PTE_U) m
  else none

end Phys

/-! ## Freeing the pages of the user -/

/-- The test of the loops for an entry that points to a table. -/
def Pte.linked (p : Pte) : Bool := p.has PTE_V && !p.has PTE_X && !p.has PTE_R && !p.has PTE_W

/-- The test for the page of the user. -/
def Pte.userPage (p : Pte) : Bool := p.has PTE_V && p.ppn != 0 && p.has PTE_U

namespace Phys

/-- The loop over the entries of a table. -/
def forEntries (f : Phys → Fin 512 → Phys) (m : Phys) : Phys := (List.finRange 512).foldl f m

/-- The innermost round of `memory_unmap_and_free_user`. -/
def freeUserLeaf (t0 : Nat) (m : Phys) (i : Fin 512) : Phys :=
  let p := entry m.word t0 i
  if p.userPage then
    let m := if m.freeList = 0 then { m with freeList := p.addr } else m.memoryFreePage p.addr
    m.store (t0 + 8 * i) { entry m.word t0 i with ppn := 0, flags := 0 }.toWord
  else m

/-- The round for an entry of a table of the middle level. -/
def freeUserLow (t1 : Nat) (m : Phys) (i : Fin 512) : Phys :=
  let p := entry m.word t1 i
  if p.linked then
    let m := forEntries (freeUserLeaf p.addr) m
    if (entry m.word t1 i).has PTE_U then m.memoryFreePage p.addr else m
  else m

/-- The round for an entry of the root. -/
def freeUserMid (root : Nat) (m : Phys) (i : Fin 512) : Phys :=
  let p := entry m.word root i
  if p.linked then
    let m := forEntries (freeUserLow p.addr) m
    if (entry m.word root i).has PTE_U then m.memoryFreePage p.addr else m
  else m

/-- `memory_unmap_and_free_user`. It goes through the free list first, which it takes not to be
empty, and does nothing with it. -/
def memoryUnmapAndFreeUser (root : Nat) (m : Phys) : Option Phys :=
  if m.freeList = 0 then none else some (forEntries (freeUserMid root) m)

end Phys

/-- `page` is mapped for the user by a last table of the address space. -/
def UserPage (word : Nat → BitVec 64) (root page : Nat) : Prop :=
  ∃ i2 i1 i0 t0, tableAt word root (.low i2 i1) = some t0 ∧
    (entry word t0 i0).userPage ∧ (entry word t0 i0).addr = page

/-- An address space whose tables form a tree, in which what the loops take for a table is one,
without `PTE_U`, and whose pages of the user are neither tables nor free. -/
structure Owned (word : Nat → BitVec 64) (root : Nat) (free : List Nat) : Prop where
  space : Space word root free
  root_linked : ∀ i, (entry word root i).linked →
    (entry word root i).isTable ∧ (entry word root i).has PTE_U = false
  mid_linked : ∀ i t, tableAt word root (.mid i) = some t → ∀ j, (entry word t j).linked →
    (entry word t j).isTable ∧ (entry word t j).has PTE_U = false
  notMem : ∀ p, UserPage word root p → p ∉ free
  notTable : ∀ p, UserPage word root p → ∀ n, tableAt word root n ≠ some p

theorem Pte.addr_mod (p : Pte) : p.addr % 2 ^ 12 = 0 := Nat.mul_mod_left _ _

theorem Pte.has_of_flags_zero {p : Pte} (h : p.flags = 0) (f : BitVec 8) : p.has f = false := by
  unfold Pte.has
  rw [h]
  simp

theorem Pte.linked_of_isTable {p : Pte} (h : p.isTable) : p.linked := by
  unfold Pte.isTable Pte.valid Pte.leaf at h
  unfold Pte.linked
  simp only [Bool.and_eq_true, Bool.or_eq_true, Bool.not_eq_true', Bool.or_eq_false_iff] at h ⊢
  obtain ⟨⟨⟨hV, hW⟩, -⟩, hR, hX⟩ := h
  refine ⟨⟨⟨hV, hX⟩, hR⟩, ?_⟩
  obtain hW | hW := hW
  · exact hW
  · rw [hR] at hW
    cases hW

theorem Pte.userPage_V {p : Pte} (h : p.userPage) : p.has PTE_V = true := by
  unfold Pte.userPage at h
  simp only [Bool.and_eq_true] at h
  exact h.1.1

theorem Pte.userPage_addr {p : Pte} (h : p.userPage) : p.addr ≠ 0 := by
  unfold Pte.userPage at h
  simp only [Bool.and_eq_true, bne_iff_ne, ne_eq] at h
  intro hzero
  refine h.1.2 (BitVec.eq_of_toNat_eq ?_)
  unfold Pte.addr at hzero
  show p.ppn.toNat = 0
  omega

theorem UserPage.ne_zero {word : Nat → BitVec 64} {root page : Nat} (h : UserPage word root page) :
    page ≠ 0 := by
  obtain ⟨i2, i1, i0, t0, -, huser, rfl⟩ := h
  exact Pte.userPage_addr huser

/-! ## An address space with one last table -/

/-- The root has the entry for the user range only, and the middle table its first entry. -/
structure OneLow (word : Nat → BitVec 64) (root t1 t0 : Nat) : Prop where
  root_entry : entry word root 3 = Pte.ptab t1 0
  root_rest : ∀ i ≠ 3, (entry word root i).has PTE_V = false
  mid_entry : entry word t1 0 = Pte.ptab t0 0
  mid_rest : ∀ j ≠ 0, (entry word t1 j).has PTE_V = false
  aligned : root % 2 ^ 12 = 0 ∧ t1 % 2 ^ 12 = 0 ∧ t0 % 2 ^ 12 = 0
  lt : t1 < 2 ^ 56 ∧ t0 < 2 ^ 56
  nodup : [root, t1, t0].Nodup

section OneLow

variable {word : Nat → BitVec 64} {root t1 t0 : Nat} {free : List Nat}

theorem OneLow.mid_eq (h : OneLow word root t1 t0) : tableAt word root (.mid 3) = some t1 := by
  refine Pte.child_eq_some.mpr ?_
  rw [h.root_entry]
  exact ⟨Pte.isTable_ptab t1, Pte.addr_ptab 0 h.aligned.2.1 h.lt.1⟩

theorem OneLow.low_eq (h : OneLow word root t1 t0) : tableAt word root (.low 3 0) = some t0 := by
  rw [tableAt_low h.mid_eq, Pte.child_eq_some, h.mid_entry]
  exact ⟨Pte.isTable_ptab t0, Pte.addr_ptab 0 h.aligned.2.2 h.lt.2⟩

theorem not_isTable {p : Pte} (h : p.has PTE_V = false) : ¬p.isTable := by
  intro ht
  rw [Pte.has_V_of_isTable ht] at h
  cases h

/-- Its tables are these three. -/
theorem OneLow.tableAt_cases (h : OneLow word root t1 t0) {n : Node} {a : Nat}
    (ha : tableAt word root n = some a) :
    n = .root ∧ a = root ∨ n = .mid 3 ∧ a = t1 ∨ n = .low 3 0 ∧ a = t0 := by
  have hmid : ∀ i a, tableAt word root (.mid i) = some a → i = 3 ∧ a = t1 := by
    intro i a ha
    have hi : i = 3 := by
      by_contra hi
      exact not_isTable (h.root_rest i hi) (Pte.child_eq_some.mp ha).1
    subst hi
    exact ⟨rfl, (Option.some.inj (h.mid_eq.symm.trans ha)).symm⟩
  cases n with
  | root => exact Or.inl ⟨rfl, (Option.some.inj ha).symm⟩
  | mid i =>
    obtain ⟨rfl, rfl⟩ := hmid i a ha
    exact Or.inr (Or.inl ⟨rfl, rfl⟩)
  | low i j =>
    obtain ⟨t, ht, hchild⟩ := Option.bind_eq_some_iff.mp ha
    obtain ⟨rfl, rfl⟩ := hmid i t ht
    have hj : j = 0 := by
      by_contra hj
      exact not_isTable (h.mid_rest j hj) (Pte.child_eq_some.mp hchild).1
    subst hj
    exact Or.inr (Or.inr ⟨rfl, (Option.some.inj (h.low_eq.symm.trans ha)).symm⟩)

theorem OneLow.space (h : OneLow word root t1 t0) (hfree : ∀ a ∈ [root, t1, t0], a ∉ free) :
    Space word root free := by
  have hnodup := h.nodup
  simp only [List.nodup_cons, List.mem_cons, List.not_mem_nil, or_false, not_or] at hnodup
  obtain ⟨⟨h₁, h₂⟩, h₃, -⟩ := hnodup
  refine ⟨h.aligned.1, fun n n' a ha ha' => ?_, fun n a ha => ?_, fun _ => ?_, fun t ht j _ hV => ?_⟩
  · obtain ⟨rfl, rfl⟩ | ⟨rfl, rfl⟩ | ⟨rfl, rfl⟩ := h.tableAt_cases ha <;>
      obtain ⟨rfl, hb⟩ | ⟨rfl, hb⟩ | ⟨rfl, hb⟩ := h.tableAt_cases ha' <;>
      first
        | rfl
        | exact absurd hb (by assumption)
        | exact absurd hb.symm (by assumption)
  · refine hfree a ?_
    obtain ⟨-, rfl⟩ | ⟨-, rfl⟩ | ⟨-, rfl⟩ := h.tableAt_cases ha <;> simp
  · rw [h.root_entry]
    exact Pte.isTable_ptab t1
  · obtain rfl : t1 = t := Option.some.inj (h.mid_eq.symm.trans ht)
    by_cases hj : j = 0
    · rw [hj, h.mid_entry]
      exact Pte.isTable_ptab t0
    · rw [h.mid_rest j hj] at hV
      cases hV

theorem Pte.linked_V {p : Pte} (h : p.linked) : p.has PTE_V = true := by
  unfold Pte.linked at h
  simp only [Bool.and_eq_true] at h
  exact h.1.1.1

theorem Pte.ptab_not_U (page : Nat) : (Pte.ptab page 0).has PTE_U = false := by
  have hflags : (Pte.ptab page 0).flags = 1 := rfl
  unfold Pte.has
  rw [hflags]
  rfl

/-- The address space is in order if the pages that its last table maps are apart. -/
theorem OneLow.owned (h : OneLow word root t1 t0) (hfree : ∀ a ∈ [root, t1, t0], a ∉ free)
    (hpage : ∀ k, (entry word t0 k).userPage →
      (entry word t0 k).addr ∉ free ∧ (entry word t0 k).addr ∉ [root, t1, t0]) :
    Owned word root free := by
  have huser : ∀ p, UserPage word root p → p ∉ free ∧ p ∉ [root, t1, t0] := by
    rintro p ⟨i2, i1, i0, t, ht, hp, rfl⟩
    obtain ⟨hn, -⟩ | ⟨hn, -⟩ | ⟨-, rfl⟩ := h.tableAt_cases ht
    · cases hn
    · cases hn
    · exact hpage i0 hp
  refine ⟨h.space hfree, fun i hi => ?_, fun i t ht j hj => ?_, fun p hp => (huser p hp).1,
    fun p hp n hn => (huser p hp).2 ?_⟩
  · by_cases h3 : i = 3
    · rw [h3, h.root_entry]
      exact ⟨Pte.isTable_ptab t1, Pte.ptab_not_U t1⟩
    · have hV := Pte.linked_V hi
      rw [h.root_rest i h3] at hV
      cases hV
  · obtain ⟨hn, -⟩ | ⟨-, rfl⟩ | ⟨hn, -⟩ := h.tableAt_cases ht
    · cases hn
    · by_cases h0 : j = 0
      · rw [h0, h.mid_entry]
        exact ⟨Pte.isTable_ptab t0, Pte.ptab_not_U t0⟩
      · have hV := Pte.linked_V hj
        rw [h.mid_rest j h0] at hV
        cases hV
    · cases hn
  · obtain ⟨-, rfl⟩ | ⟨-, rfl⟩ | ⟨-, rfl⟩ := h.tableAt_cases hn <;> simp

/-- What such an address space maps. -/
theorem OneLow.hwWalk_eq (h : OneLow word root t1 t0) (u : Vpn) :
    hwWalk word root u = if u.i2 = 3 ∧ u.i1 = 0 then (entry word t0 u.i0).mapping else none := by
  by_cases h2 : u.i2 = 3
  · by_cases h1 : u.i1 = 0
    · have hlow : tableAt word root (.low u.i2 u.i1) = some t0 := by
        rw [h2, h1]
        exact h.low_eq
      rw [if_pos ⟨h2, h1⟩]
      exact hwWalk_of_low hlow
    · obtain ⟨htable, haddr⟩ := Pte.child_eq_some.mp h.mid_eq
      rw [if_neg fun h => h1 h.2]
      rw [← h2] at htable haddr
      rw [hwWalk_of_table htable, haddr]
      exact walk1_of_not_valid (Pte.valid_of_not_V (h.mid_rest u.i1 h1))
  · rw [if_neg fun h => h2 h.1]
    exact hwWalk_of_not_valid (Pte.valid_of_not_V (h.root_rest u.i2 h2))

end OneLow

namespace Phys

/-- Tables for the user range whose first leaf entry is `w`, and one free page. -/
def oneUserPage (w : BitVec 64) : Phys where
  word a :=
    if a = 0x80010018 then (Pte.ptab 0x80011000 0).toWord
    else if a = 0x80011000 then (Pte.ptab 0x80012000 0).toWord
    else if a = 0x80012000 then w
    else 0
  freeList := 0x80020000
  heapStart := 0
  heapEnd := 0

theorem oneUserPage_tables (w : BitVec 64) :
    OneLow (oneUserPage w).word 0x80010000 0x80011000 0x80012000 := by
  have hzero : ∀ a, a ≠ 0x80010018 → a ≠ 0x80011000 → a ≠ 0x80012000 →
      (Pte.ofWord ((oneUserPage w).word a)).has PTE_V = false := by
    intro a h₁ h₂ h₃
    unfold oneUserPage
    dsimp only
    rw [if_neg h₁, if_neg h₂, if_neg h₃]
    decide
  refine ⟨Pte.ofWord_toWord _, fun i hi => ?_, Pte.ofWord_toWord _, fun j hj => ?_, by decide,
    by decide, by decide⟩
  · have hval : i.val ≠ 3 := fun h => hi (Fin.ext h)
    have := i.isLt
    exact hzero _ (by omega) (by omega) (by omega)
  · have hval : j.val ≠ 0 := fun h => hj (Fin.ext h)
    have := j.isLt
    exact hzero _ (by omega) (by omega) (by omega)

theorem oneUserPage_pool (w : BitVec 64) : Pool 0x80020000 (oneUserPage w) [0x80020000] where
  free := ⟨rfl, by decide, rfl⟩
  nodup := List.nodup_singleton _
  page := by
    intro p hp
    obtain rfl := List.mem_singleton.mp hp
    exact ⟨by decide, by decide, by decide⟩
  heap := by
    show 0 - 0 < PAGE_SIZE
    decide

/-- The leaf entries other than the first one map nothing. -/
theorem oneUserPage_userPage {w : BitVec 64} {k : Fin 512}
    (h : (entry (oneUserPage w).word 0x80012000 k).userPage) : k = 0 ∧ (Pte.ofWord w).userPage := by
  by_cases hk : k = 0
  · subst hk
    exact ⟨rfl, h⟩
  · have hval : k.val ≠ 0 := fun h => hk (Fin.ext h)
    have := k.isLt
    unfold entry oneUserPage at h
    dsimp only at h
    rw [if_neg (by omega), if_neg (by omega), if_neg (by omega)] at h
    exact absurd h (by decide)

theorem oneUserPage_owned {w : BitVec 64} (h : (Pte.ofWord w).userPage →
    (Pte.ofWord w).addr ∉ [0x80020000] ∧
      (Pte.ofWord w).addr ∉ [0x80010000, 0x80011000, 0x80012000]) :
    Owned (oneUserPage w).word 0x80010000 [0x80020000] := by
  refine (oneUserPage_tables w).owned (by decide) fun k hk => ?_
  obtain ⟨rfl, hw⟩ := oneUserPage_userPage hk
  exact h hw

end Phys

end RiscvKernel
