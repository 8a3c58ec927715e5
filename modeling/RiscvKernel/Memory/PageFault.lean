import RiscvKernel.Memory.Ranges

/-!
# Page faults of the user

`umode_excp_handler` passes every page fault to `memory_handle_page_fault`, which maps a new page
whatever the entry held before.

* `Served`: what a fault should leave behind. The page is mapped for the user, inside the range that
  `memory_space_clone` copies, and a page that was mapped there before is not lost.
* `FaultCond`: the address is not the first one behind the range, the leaf entry has no reserved
  bits, and a page that was mapped there is mapped elsewhere too.
* `page_fault_iff`: the one holds if and only if the other does, or the handler panics, which is a
  matter of the address and of the number of free pages; provided that the walk follows no entry that
  a new middle table came with (`PathFresh`).
-/

namespace RiscvKernel

open Lib

/-- The causes that `umode_excp_handler` passes to `memory_handle_page_fault`. -/
inductive PageFault where
  | store
  | load
  | instr

namespace Phys

/-- `umode_excp_handler` for a page fault at `stval`. -/
def umodeExcpHandler (root stval : Nat) (m : Phys) : PageFault → Option Phys
  | .store => m.memoryHandlePageFault root stval
  | .load => m.memoryHandlePageFault root stval
  | .instr => m.memoryHandlePageFault root stval

/-- The flags of a page that a fault maps. -/
def FAULT_FLAGS : BitVec 8 := PTE_R ||| PTE_W ||| PTE_U

/-- What a fault at `vptr` should leave behind. Global mappings are those of the kernel, which maps
all of RAM: they do not count. -/
structure Served (m m' : Phys) (root vptr : Nat) : Prop where
  mapped : ∃ x, hwWalk m'.word root (vpnOf vptr) = some x ∧ x.2 &&& FAULT_FLAGS = FAULT_FLAGS
  inside : USER_START ≤ vptr / PAGE_SIZE * PAGE_SIZE ∧
    vptr / PAGE_SIZE * PAGE_SIZE + PAGE_SIZE ≤ USER_END
  kept : ∀ x, hwWalk m.word root (vpnOf vptr) = some x →
    (∃ u y, hwWalk m'.word root u = some y ∧ y.1 = x.1 ∧ y.2 &&& PTE_G = 0) ∨
      ∃ k, m'.Free k ∧ x.1.toNat * PAGE_SIZE ∈ k

/-- When a fault that does not panic leaves that behind; `l` are the free pages. -/
structure FaultCond (m : Phys) (root vptr : Nat) (l : List Nat) : Prop where
  before_end : vptr ≠ USER_END
  reserved : ∀ t ∈ lastTable m.word root (vpnOf vptr) l.tail,
    (entry m.word t (vpnOf vptr).i0).hi = 0
  shared : ∀ x, hwWalk m.word root (vpnOf vptr) = some x →
    ∃ u ≠ vpnOf vptr, ∃ y, hwWalk m.word root u = some y ∧ y.1 = x.1 ∧ y.2 &&& PTE_G = 0

variable {base root vptr : Nat} {m m' : Phys} {l : List Nat}

/-! ## What a fault does -/

theorem memoryHandlePageFault_eq (h : USER_START ≤ vptr ∧ vptr ≤ USER_END) :
    m.memoryHandlePageFault root vptr = memoryAllocAndMapPage root vptr FAULT_FLAGS m := if_pos h

/-- The handler panics for an address outside the range and without enough free pages. -/
theorem pageFault_panics_iff (hp : Pool base m l) (hs : Space m.word root l)
    (hfresh : PathFresh m.word root (vpnOf vptr) l[1]?) :
    m.memoryHandlePageFault root vptr = none ↔
      vptr < USER_START ∨ USER_END < vptr ∨ l.length ≤ tablesNeeded m.word root (vpnOf vptr) := by
  by_cases hrange : USER_START ≤ vptr ∧ vptr ≤ USER_END
  · rw [memoryHandlePageFault_eq hrange]
    constructor
    · intro hnone
      refine Or.inr (Or.inr (Nat.not_lt.mp fun hlen => ?_))
      obtain ⟨m', hm⟩ := memoryAllocAndMapPage_isSome_of FAULT_FLAGS hp hs hlen
      rw [hm] at hnone
      cases hnone
    · rintro (hlow | hhigh | hlen)
      · omega
      · omega
      · by_contra hsome
        obtain ⟨m', hm⟩ := Option.ne_none_iff_exists'.mp hsome
        obtain ⟨page, t1, t0, k, hhead, -, -, -, -, -, hlast⟩ :=
          memoryAllocAndMapPage_walked hp hs hrange.1 hrange.2 hm hfresh
        -- the first page is not among those for tables
        have hneeded := lastTable_isSome hlast
        obtain ⟨q, k', rfl⟩ : ∃ q k', l = q :: k' := by
          cases l with
          | nil => cases hhead
          | cons q k' => exact ⟨q, k', rfl⟩
        rw [List.tail_cons] at hneeded
        rw [List.length_cons] at hlen
        omega
  · refine iff_of_true (if_neg hrange) ?_
    omega

/-- The entry of a page that a fault maps is accepted unless it has reserved bits. -/
theorem mapped_mapping (p : Pte) (page : Nat) :
    (mapped p page FAULT_FLAGS).mapping =
      if p.hi = 0 then some (BitVec.ofNat 44 (page / 2 ^ 12), p.flags ||| withADV FAULT_FLAGS)
      else none := by
  have hflags : ∀ flags : BitVec 8, (flags ||| withADV FAULT_FLAGS) &&& PTE_V ≠ 0 ∧
      (flags ||| withADV FAULT_FLAGS) &&& PTE_R ≠ 0 := by decide
  obtain ⟨hV, hR⟩ := hflags p.flags
  exact Pte.mapping_of_readable (bne_iff_ne.mpr hV) (bne_iff_ne.mpr hR)

/-- What the walk finds for the address after a fault, and for the other addresses if the tables were
there. -/
theorem pageFault_walk (hp : Pool base m l) (hs : Space m.word root l)
    (hfresh : PathFresh m.word root (vpnOf vptr) l[1]?)
    (hm : m.memoryHandlePageFault root vptr = some m') :
    (USER_START ≤ vptr ∧ vptr ≤ USER_END) ∧ ∃ page ∈ l, ∃ t0,
      lastTable m.word root (vpnOf vptr) l.tail = some t0 ∧
      hwWalk m'.word root (vpnOf vptr) =
        (mapped (entry m.word t0 (vpnOf vptr).i0) page FAULT_FLAGS).mapping ∧
      (∀ x, hwWalk m.word root (vpnOf vptr) = some x → ∀ u ≠ vpnOf vptr,
        hwWalk m'.word root u = hwWalk m.word root u) ∧
      ∃ k, m'.Free k ∧ ∀ p ∈ k, p ∈ l := by
  unfold memoryHandlePageFault at hm
  obtain ⟨hrange, hm⟩ := Option.ite_none_right_eq_some.mp hm
  refine ⟨hrange, ?_⟩
  obtain ⟨page, t1, t0, k, hhead, hw, -, hentry, hleft, hpool, hlast⟩ :=
    memoryAllocAndMapPage_walked hp hs hrange.1 hrange.2 hm hfresh
  refine ⟨page, List.mem_of_head? hhead, t0, hlast, ?_, ?_, k, hpool.free, ?_⟩
  · have hwalk := hwWalk_of_leafEntry hw.leafEntry_self
    rw [hentry] at hwalk
    exact hwalk
  · intro x hx u hu
    -- the address was mapped, so all tables were there
    have hV0 : (entry m.word t1 (vpnOf vptr).i1).has PTE_V = true := by
      by_contra hV
      have hnone := hw.none_before (by simpa using hV) (vpnOf vptr).i0
      rw [hx] at hnone
      cases hnone
    have hV2 : (entry m.word root (vpnOf vptr).i2).has PTE_V = true := by
      by_contra hV
      rw [hw.fresh (by simpa using hV)] at hV0
      cases hV0
    exact hw.kept hs hu (fun _ => hV2) fun _ _ => hV0
  · exact fun p hmem => List.mem_of_mem_tail (hleft.suffix.subset hmem)

/-- A page that is taken from the free list is none that is in use. -/
theorem ppn_ne_of_free (hp : Pool base m l) {page : Nat} (hpage : page ∈ l) {ppn : BitVec 44}
    (hused : ppn.toNat * PAGE_SIZE ∉ l) : BitVec.ofNat 44 (page / 2 ^ 12) ≠ ppn := by
  rintro rfl
  have haligned := (hp.page page hpage).aligned
  have hlt := (hp.page page hpage).lt
  refine hused ?_
  rw [BitVec.toNat_ofNat]
  unfold PAGE_SIZE at haligned ⊢
  rwa [show page / 2 ^ 12 % 2 ^ 44 * 4096 = page by omega]

theorem served_iff (hp : Pool base m l) (hs : Space m.word root l)
    (hfresh : PathFresh m.word root (vpnOf vptr) l[1]?)
    (hused : ∀ x, hwWalk m.word root (vpnOf vptr) = some x → x.1.toNat * PAGE_SIZE ∉ l)
    (hm : m.memoryHandlePageFault root vptr = some m') :
    Served m m' root vptr ↔ FaultCond m root vptr l := by
  obtain ⟨⟨hstart, hend⟩, page, hpage, t0, hlast, hwalk, hothers, k, hfree, hsub⟩ :=
    pageFault_walk hp hs hfresh hm
  rw [mapped_mapping] at hwalk
  constructor
  · rintro ⟨⟨x, hx, -⟩, hinside, hkept⟩
    refine ⟨?_, ?_, ?_⟩
    · rintro rfl
      exact absurd hinside.2 (by decide)
    · intro t ht
      obtain rfl : t = t0 := Option.some.inj (ht.symm.trans hlast)
      by_contra hhi
      rw [if_neg hhi, hx] at hwalk
      cases hwalk
    · intro x' hx'
      rcases hkept x' hx' with ⟨u, y, hy, hppn, hG⟩ | ⟨k', hfree', hmem⟩
      · have hu : u ≠ vpnOf vptr := by
          rintro rfl
          -- the address itself maps a page that was free
          rw [hwalk] at hy
          obtain ⟨-, heq⟩ := Option.ite_none_right_eq_some.mp hy
          obtain rfl := Option.some.inj heq
          exact ppn_ne_of_free hp hpage (hused x' hx') hppn
        rw [hothers x' hx' u hu] at hy
        exact ⟨u, hu, y, hy, hppn, hG⟩
      · obtain rfl : k' = k := hfree'.unique hfree
        exact absurd (hsub _ hmem) (hused x' hx')
  · rintro ⟨hne, hreserved, hshared⟩
    refine ⟨?_, ?_, ?_⟩
    · rw [if_pos (hreserved t0 hlast)] at hwalk
      refine ⟨_, hwalk, ?_⟩
      show ((entry m.word t0 (vpnOf vptr).i0).flags ||| withADV FAULT_FLAGS) &&& FAULT_FLAGS =
        FAULT_FLAGS
      generalize (entry m.word t0 (vpnOf vptr).i0).flags = flags
      revert flags
      decide
    · unfold USER_START USER_END at *
      unfold PAGE_SIZE
      omega
    · intro x hx
      obtain ⟨u, hu, y, hy, hppn, hG⟩ := hshared x hx
      exact Or.inl ⟨u, y, by rw [hothers x hx u hu, hy], hppn, hG⟩

/-- **Page faults.** For every kind of fault and every address: the handler panics or leaves behind
what it should if the address is outside the range, or a page that becomes the middle table has no
entry for the address and there are too few free pages or `FaultCond` holds; and only if, for such a
page. The page that is mapped at the address is in use. -/
theorem page_fault_iff (kind : PageFault) (hp : Pool base m l) (hs : Space m.word root l)
    (hused : ∀ x, hwWalk m.word root (vpnOf vptr) = some x → x.1.toNat * PAGE_SIZE ∉ l) :
    ((vptr < USER_START ∨ USER_END < vptr) ∨ PathFresh m.word root (vpnOf vptr) l[1]? ∧
        (l.length ≤ tablesNeeded m.word root (vpnOf vptr) ∨ FaultCond m root vptr l) →
      ∀ m', m.umodeExcpHandler root vptr kind = some m' → Served m m' root vptr) ∧
    (PathFresh m.word root (vpnOf vptr) l[1]? →
      (∀ m', m.umodeExcpHandler root vptr kind = some m' → Served m m' root vptr) →
      (vptr < USER_START ∨ USER_END < vptr) ∨
        l.length ≤ tablesNeeded m.word root (vpnOf vptr) ∨ FaultCond m root vptr l) := by
  have hkind : m.umodeExcpHandler root vptr kind = m.memoryHandlePageFault root vptr := by
    cases kind with
    | store => rfl
    | load => rfl
    | instr => rfl
  rw [hkind]
  constructor
  · intro h m' hm
    obtain hout | ⟨hfresh, hcond⟩ := h
    · -- outside the range the handler panics, whatever the tables hold
      unfold memoryHandlePageFault at hm
      obtain ⟨hrange, -⟩ := Option.ite_none_right_eq_some.mp hm
      omega
    · obtain hfew | hcond := hcond
      · rw [(pageFault_panics_iff hp hs hfresh).mpr (Or.inr (Or.inr hfew))] at hm
        cases hm
      · exact (served_iff hp hs hfresh hused hm).mpr hcond
  · intro hfresh h
    cases hm : m.memoryHandlePageFault root vptr with
    | none => exact or_assoc.mpr (((pageFault_panics_iff hp hs hfresh).mp hm).imp_right
        (Or.imp_right Or.inl))
    | some m' => exact Or.inr (Or.inr ((served_iff hp hs hfresh hused hm).mp (h m' hm)))

/-! ## Two faults -/

theorem oneUserPage_space (w : BitVec 64) : Space (oneUserPage w).word 0x80010000 [0x80020000] :=
  (oneUserPage_tables w).space (by decide)

/-- The tables are there. -/
theorem oneUserPage_pathFresh (w : BitVec 64) (next : Option Nat) :
    PathFresh (oneUserPage w).word 0x80010000 (vpnOf USER_START) next := by
  intro hV
  have hentry := (oneUserPage_tables w).root_entry
  have hi2 : (vpnOf USER_START).i2 = 3 := by decide
  rw [hi2, hentry] at hV
  exact absurd hV (by decide)

/-- A page that is mapped on the first load. -/
theorem page_fault_first_load :
    ∃ m', (oneUserPage 0).umodeExcpHandler 0x80010000 USER_START .load = some m' ∧
      Served (oneUserPage 0) m' 0x80010000 USER_START := by
  have hnone : hwWalk (oneUserPage 0).word 0x80010000 (vpnOf USER_START) = none := by decide +kernel
  have hunmapped : ∀ x, hwWalk (oneUserPage 0).word 0x80010000 (vpnOf USER_START) ≠ some x := by
    rw [hnone]
    exact nofun
  have hcond : FaultCond (oneUserPage 0) 0x80010000 USER_START [0x80020000] := by
    refine ⟨by decide, ?_, fun x hx => absurd hx (hunmapped x)⟩
    decide +kernel
  have hlen : tablesNeeded (oneUserPage 0).word 0x80010000 (vpnOf USER_START) < 1 := by
    decide +kernel
  obtain ⟨m', hm⟩ := memoryAllocAndMapPage_isSome_of FAULT_FLAGS (oneUserPage_pool 0)
    (oneUserPage_space 0) hlen
  have hload : (oneUserPage 0).umodeExcpHandler 0x80010000 USER_START .load = some m' :=
    (memoryHandlePageFault_eq (by decide)).trans hm
  refine ⟨m', hload, ?_⟩
  exact (page_fault_iff .load (oneUserPage_pool 0) (oneUserPage_space 0)
    fun x hx => absurd hx (hunmapped x)).1 (Or.inr ⟨oneUserPage_pathFresh 0 _, Or.inr hcond⟩) m' hload

/-- The leaf entry of a page of the user that is not writable. -/
def readOnly : BitVec 64 := (Pte.leafPte 0x80014000 (PTE_R ||| PTE_U)).toWord

/-- A fault at the first address behind the user range maps a page there. After a store to a page
that is not writable, the page with its contents is neither mapped nor free. -/
theorem page_fault_loses_page :
    (∃ m', (threePages 0).umodeExcpHandler 0x80701000 USER_END .store = some m' ∧
      ¬Served (threePages 0) m' 0x80701000 USER_END) ∧
    ∃ m', (oneUserPage readOnly).umodeExcpHandler 0x80010000 USER_START .store = some m' ∧
      ¬Served (oneUserPage readOnly) m' 0x80010000 USER_START := by
  constructor
  · obtain ⟨m', hm⟩ := memoryAllocAndMapPage_isSome FAULT_FLAGS (threePages_pool 0)
      (threePages_space 0) (by decide) USER_END
    refine ⟨m', (memoryHandlePageFault_eq (by decide)).trans hm, fun hserved => ?_⟩
    exact absurd hserved.inside.2 (by decide)
  · have hlen : tablesNeeded (oneUserPage readOnly).word 0x80010000 (vpnOf USER_START) < 1 := by
      decide +kernel
    obtain ⟨m', hm⟩ := memoryAllocAndMapPage_isSome_of FAULT_FLAGS (oneUserPage_pool readOnly)
      (oneUserPage_space readOnly) hlen
    have hstore : (oneUserPage readOnly).memoryHandlePageFault 0x80010000 USER_START = some m' :=
      (memoryHandlePageFault_eq (by decide)).trans hm
    have hold : hwWalk (oneUserPage readOnly).word 0x80010000 (vpnOf USER_START) =
        some ((Pte.ofWord readOnly).ppn, (Pte.ofWord readOnly).flags) := by decide +kernel
    refine ⟨m', hstore, fun hserved => ?_⟩
    have hcond := (served_iff (oneUserPage_pool readOnly) (oneUserPage_space readOnly)
      (oneUserPage_pathFresh readOnly _) (fun x hx => ?_) hstore).mp hserved
    · -- no other entry maps anything
      obtain ⟨u, hu, y, hy, -⟩ := hcond.shared _ hold
      rw [(oneUserPage_tables readOnly).hwWalk_eq] at hy
      obtain ⟨⟨h2, h1⟩, hmap⟩ := Option.ite_none_right_eq_some.mp hy
      have h0 : u.i0 ≠ 0 := by
        intro h0
        refine hu (Vpn.ext ?_ ?_ ?_)
        · rw [h2]
          decide
        · rw [h1]
          decide
        · rw [h0]
          decide
      have hval : u.i0.val ≠ 0 := fun h => h0 (Fin.ext h)
      have hlt := u.i0.isLt
      have hzero : entry (oneUserPage readOnly).word 0x80012000 u.i0 = Pte.ofWord 0 := by
        unfold entry oneUserPage
        dsimp only
        rw [if_neg (by omega), if_neg (by omega), if_neg (by omega)]
      have hempty : (Pte.ofWord 0).mapping = none := by decide
      rw [hzero, hempty] at hmap
      cases hmap
    · rw [hold] at hx
      obtain rfl := Option.some.inj hx
      decide +kernel

end Phys

end RiscvKernel
