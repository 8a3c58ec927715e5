import RiscvKernel.Lib.Runs
import RiscvKernel.Memory.Access

/-!
# The heap and its clients

`ezheap.c` carves blocks from the end of a region of at most a page, and takes a page from the
page allocator when a request does not fit. What the heap and the clients of the page allocator
get must be different memory.

* `State` is the memory with what has been given out: the blocks, which are never given back, and
  the pages that the client holds. `step` is one request of the client, or a store to memory that
  it has been given.
* `Inv` cuts the pages of RAM into three parts: free, held by the client, and of the heap. A block
  is inside a page of the heap, outside of the region.
* `Inv.step` keeps it, and `blocks_and_pages_apart` says what that means for every run.
* `kcalloc` and the sizes that it and `kmalloc` refuse: the sum in `kmalloc` wraps, so a size near
  the end of the range is taken for 0.
-/

namespace RiscvKernel

open Lib

namespace Heap

/-! ## Blocks -/

/-- A block of memory, with the size that was asked for. -/
structure Block where
  addr : Nat
  size : Nat
  deriving DecidableEq

namespace Block

/-- The bytes that the block has. -/
def len (b : Block) : Nat := roundUp b.size 16

/-- The block that is a page. -/
def ofPage (p : Nat) : Block := ⟨p, PAGE_SIZE⟩

/-- The blocks have no byte in common. -/
def Apart (b c : Block) : Prop := b.addr + b.len ≤ c.addr ∨ c.addr + c.len ≤ b.addr

/-- The block is inside the page. -/
def Within (b : Block) (p : Nat) : Prop := p ≤ b.addr ∧ b.addr + b.len ≤ p + PAGE_SIZE

variable {b c : Block} {base p q : Nat}

theorem size_le_len (b : Block) : b.size ≤ b.len := by
  unfold len roundUp
  omega

theorem len_mod (b : Block) : b.len % 16 = 0 := Nat.mul_mod_left ..

theorem len_ofPage (p : Nat) : (ofPage p).len = PAGE_SIZE := by
  show roundUp PAGE_SIZE 16 = PAGE_SIZE
  decide

theorem within_ofPage (p : Nat) : (ofPage p).Within p := by
  refine ⟨Nat.le_refl _, ?_⟩
  rw [len_ofPage]
  exact Nat.le_refl _

/-- Different pages have no byte in common. -/
theorem Within.apart (hb : b.Within p) (hc : c.Within q) (hp : Phys.IsPage base p)
    (hq : Phys.IsPage base q) (hne : p ≠ q) : b.Apart c := by
  have hp := hp.aligned
  have hq := hq.aligned
  unfold Within Apart PAGE_SIZE at *
  omega

/-- A block of a page is the page. -/
theorem Within.eq_of_page (hb : b.Within p) (hsize : b.size = PAGE_SIZE) : b.addr = p := by
  have hlen : b.len = PAGE_SIZE := by
    unfold len
    rw [hsize]
    decide
  unfold Within at hb
  omega

end Block

/-! ## Requests -/

structure State where
  mem : Phys
  /-- What `kmalloc` has returned, `kfree` does nothing. -/
  blocks : List Block
  /-- The pages of the client. -/
  held : List Nat

/-- The word is in memory that the client has been given. -/
def State.Owned (s : State) (a : Nat) : Prop :=
  (∃ b ∈ s.blocks, b.addr ≤ a ∧ a + 8 ≤ b.addr + b.size) ∨
    ∃ p ∈ s.held, p ≤ a ∧ a + 8 ≤ p + PAGE_SIZE

instance (s : State) (a : Nat) : Decidable (s.Owned a) :=
  inferInstanceAs (Decidable ((∃ b ∈ s.blocks, _) ∨ _))

inductive Request where
  | kmalloc (size : Nat)
  | allocPage
  | freePage (p : Nat)
  /-- The client stores a word in what it has been given. -/
  | store (a : Nat) (v : BitVec 64)

/-- One request; undefined if it panics, and for what the client must not do. -/
def step (s : State) : Request → Option State
  | .kmalloc size =>
    if 1 ≤ size ∧ size ≤ PAGE_SIZE then
      match s.mem.kmalloc size with
      | none => none
      | some (addr, m) => some { s with mem := m, blocks := ⟨addr, size⟩ :: s.blocks }
    else none
  | .allocPage =>
    match s.mem.memoryAllocPage with
    | none => none
    | some (p, m) => some { s with mem := m, held := p :: s.held }
  | .freePage p =>
    if p ∈ s.held then some { s with mem := s.mem.memoryFreePage p, held := s.held.erase p }
    else none
  | .store a v => if s.Owned a then some { s with mem := s.mem.store a v } else none

/-- After `memory_init`. -/
def init (m : Phys) : State := ⟨m, [], []⟩

/-! ## The three parts of RAM -/

/-- The pages are free, held by the client, or pages of the heap; the region that blocks are
carved from is the beginning of a page of the heap. -/
structure Inv (base : Nat) (s : State) (l heap : List Nat) : Prop where
  free : s.mem.Free l
  pages : ∀ p ∈ l ++ (s.held ++ heap), Phys.IsPage base p
  nodup : (l ++ (s.held ++ heap)).Nodup
  first : base ∈ heap
  start : s.mem.heapStart ∈ heap
  start_le : s.mem.heapStart ≤ s.mem.heapEnd
  end_le : s.mem.heapEnd ≤ s.mem.heapStart + PAGE_SIZE
  end_aligned : s.mem.heapEnd % 16 = 0
  within : ∀ b ∈ s.blocks, ∃ p ∈ heap, b.Within p
  outside : ∀ b ∈ s.blocks, b.addr + b.len ≤ s.mem.heapStart ∨ s.mem.heapEnd ≤ b.addr
  aligned : ∀ b ∈ s.blocks, b.addr % 16 = 0
  apart : s.blocks.Pairwise Block.Apart

variable {base size addr : Nat} {s s' : State} {l heap : List Nat} {m : Phys}

namespace Inv

theorem isPage_heap (h : Inv base s l heap) {p : Nat} (hp : p ∈ heap) : Phys.IsPage base p :=
  h.pages p (List.mem_append_right l (List.mem_append_right s.held hp))

theorem isPage_held (h : Inv base s l heap) {p : Nat} (hp : p ∈ s.held) : Phys.IsPage base p :=
  h.pages p (List.mem_append_right l (List.mem_append_left heap hp))

theorem isPage_free (h : Inv base s l heap) {p : Nat} (hp : p ∈ l) : Phys.IsPage base p :=
  h.pages p (List.mem_append_left _ hp)

/-- A free page is neither held nor one of the heap. -/
theorem free_ne (h : Inv base s l heap) {p q : Nat} (hp : p ∈ l) (hq : q ∈ s.held ++ heap) :
    p ≠ q :=
  (List.nodup_append.mp h.nodup).2.2 p hp q hq

theorem held_ne (h : Inv base s l heap) {p q : Nat} (hp : p ∈ s.held) (hq : q ∈ heap) : p ≠ q :=
  (List.nodup_append.mp (List.nodup_append.mp h.nodup).2.1).2.2 p hp q hq

/-- A block that is carved from the region. -/
theorem carve (h : Inv base s l heap) (hlen : (⟨addr, size⟩ : Block).len ≤
      s.mem.heapEnd - s.mem.heapStart)
    (haddr : addr = s.mem.heapEnd - (⟨addr, size⟩ : Block).len) :
    Inv base { s with mem := { s.mem with heapEnd := addr }, blocks := ⟨addr, size⟩ :: s.blocks }
      l heap := by
  have hstart := h.start_le
  have hend := h.end_le
  have hmod := h.end_aligned
  have hlenmod := Block.len_mod ⟨addr, size⟩
  have hfits : addr + (⟨addr, size⟩ : Block).len = s.mem.heapEnd := by omega
  have hle : s.mem.heapStart ≤ addr := by omega
  refine
    { free := h.free.congr rfl fun _ _ => rfl, pages := h.pages, nodup := h.nodup
      first := h.first, start := h.start, start_le := hle, end_le := ?_, end_aligned := ?_
      within := ?_, outside := ?_, aligned := ?_, apart := ?_ }
  · show addr ≤ s.mem.heapStart + PAGE_SIZE
    omega
  · show addr % 16 = 0
    omega
  · intro b hb
    rcases List.mem_cons.mp hb with rfl | hb
    · refine ⟨_, h.start, hle, ?_⟩
      show addr + _ ≤ _
      omega
    · exact h.within b hb
  · intro b hb
    rcases List.mem_cons.mp hb with rfl | hb
    · exact Or.inr (Nat.le_refl addr)
    · refine (h.outside b hb).imp id fun hge => ?_
      show addr ≤ b.addr
      omega
  · intro b hb
    rcases List.mem_cons.mp hb with rfl | hb
    · show addr % 16 = 0
      omega
    · exact h.aligned b hb
  · refine List.pairwise_cons.mpr ⟨fun b hb => ?_, h.apart⟩
    -- the new block is inside the region
    show addr + _ ≤ b.addr ∨ b.addr + b.len ≤ addr
    rcases h.outside b hb with hlow | hhigh
    · exact Or.inr (by omega)
    · exact Or.inl (by omega)

/-- The first free page becomes a page of the heap, with a block in it. The region `[rs, re)` is the
rest of the page, or stays as it is. -/
theorem newPage {p : Nat} (h : Inv base s (p :: l) heap) (hfree : m.Free l)
    (haddr : addr % 16 = 0) (hwithin : (⟨addr, size⟩ : Block).Within p)
    (hregion : (m.heapStart = p ∧ m.heapEnd = addr) ∨
      (m.heapStart = s.mem.heapStart ∧ m.heapEnd = s.mem.heapEnd)) :
    Inv base { s with mem := m, blocks := ⟨addr, size⟩ :: s.blocks } l (p :: heap) := by
  have hperm : (l ++ (s.held ++ p :: heap)).Perm (p :: l ++ (s.held ++ heap)) := by
    rw [← List.append_assoc, ← List.append_assoc]
    exact List.perm_middle
  have hp : Phys.IsPage base p := h.isPage_free List.mem_cons_self
  have hne : ∀ q ∈ heap, p ≠ q :=
    fun q hq => h.free_ne List.mem_cons_self (List.mem_append_right s.held hq)
  -- the blocks so far are on other pages
  have hother : ∀ b ∈ s.blocks, b.addr + b.len ≤ p ∨ p + PAGE_SIZE ≤ b.addr := by
    intro b hb
    obtain ⟨q, hq, hbq⟩ := h.within b hb
    have happart := hbq.apart (Block.within_ofPage p) (h.isPage_heap hq) hp (hne q hq).symm
    unfold Block.Apart at happart
    rwa [Block.len_ofPage] at happart
  have hstart := h.start_le
  have hend := h.end_le
  have hpmod := hp.aligned
  have hsmod := (h.isPage_heap h.start).aligned
  have hsne := hne _ h.start
  obtain ⟨hlow, hhigh⟩ := hwithin
  refine
    { free := hfree, pages := fun q hq => h.pages q (hperm.mem_iff.mp hq)
      nodup := hperm.nodup_iff.mpr h.nodup
      first := List.mem_cons_of_mem p h.first, start := ?_, start_le := ?_, end_le := ?_, end_aligned := ?_
      within := ?_, outside := ?_, aligned := ?_, apart := ?_ }
  · show m.heapStart ∈ p :: heap
    rcases hregion with ⟨hs, -⟩ | ⟨hs, -⟩
    · rw [hs]
      exact List.mem_cons_self
    · rw [hs]
      exact List.mem_cons_of_mem p h.start
  · show m.heapStart ≤ m.heapEnd
    rcases hregion with ⟨hs, he⟩ | ⟨hs, he⟩
    · rw [hs, he]
      exact hlow
    · rw [hs, he]
      exact hstart
  · show m.heapEnd ≤ m.heapStart + PAGE_SIZE
    rcases hregion with ⟨hs, he⟩ | ⟨hs, he⟩
    · rw [hs, he]
      exact Nat.le_trans (Nat.le_add_right ..) hhigh
    · rw [hs, he]
      exact hend
  · show m.heapEnd % 16 = 0
    rcases hregion with ⟨-, he⟩ | ⟨-, he⟩
    · rw [he]
      exact haddr
    · rw [he]
      exact h.end_aligned
  · intro b hb
    rcases List.mem_cons.mp hb with rfl | hb
    · exact ⟨p, List.mem_cons_self, hlow, hhigh⟩
    · obtain ⟨q, hq, hbq⟩ := h.within b hb
      exact ⟨q, List.mem_cons_of_mem p hq, hbq⟩
  · intro b hb
    show b.addr + b.len ≤ m.heapStart ∨ m.heapEnd ≤ b.addr
    rcases List.mem_cons.mp hb with rfl | hb
    · rcases hregion with ⟨-, he⟩ | ⟨hs, he⟩
      · rw [he]
        exact Or.inr (Nat.le_refl addr)
      · -- the region is on another page than the new block
        rw [hs, he]
        dsimp only at hlow hhigh ⊢
        unfold PAGE_SIZE at hhigh hpmod hsmod hend
        omega
    · rcases hregion with ⟨hs, he⟩ | ⟨hs, he⟩
      · rw [hs, he]
        dsimp only at hhigh
        exact (hother b hb).imp id fun hge => by omega
      · rw [hs, he]
        exact h.outside b hb
  · intro b hb
    rcases List.mem_cons.mp hb with rfl | hb
    · exact haddr
    · exact h.aligned b hb
  · refine List.pairwise_cons.mpr ⟨fun b hb => ?_, h.apart⟩
    obtain ⟨q, hq, hbq⟩ := h.within b hb
    exact Block.Within.apart ⟨hlow, hhigh⟩ hbq hp (h.isPage_heap hq) (hne q hq)

theorem kmalloc (h : Inv base s l heap) (hsize : size ≤ PAGE_SIZE)
    (hk : s.mem.kmalloc size = some (addr, m)) :
    ∃ l' heap', Inv base { s with mem := m, blocks := ⟨addr, size⟩ :: s.blocks } l' heap' := by
  have hlen : Phys.heapSize size = (⟨addr, size⟩ : Block).len := by
    refine Phys.heapSize_eq ?_
    unfold PAGE_SIZE at hsize
    omega
  obtain ⟨hpage, ⟨hfit, haddr, rfl⟩ | ⟨hfit, m₁, halloc, hcase⟩⟩ := Phys.kmalloc_cases hk
  · rw [hlen] at hfit haddr
    exact ⟨l, heap, h.carve hfit haddr⟩
  · cases l with
    | nil =>
      rw [Phys.memoryAllocPage_nil h.free] at halloc
      cases halloc
    | cons p l =>
      obtain ⟨m₂, halloc', hfree, -, hstart, hend⟩ := Phys.memoryAllocPage_cons h.free
      obtain ⟨hp, rfl⟩ := Prod.mk.inj (Option.some.inj (halloc.symm.trans halloc'))
      have hpmod := (h.isPage_free (List.mem_cons_self (a := p))).aligned
      have hlenmod := Block.len_mod ⟨addr, size⟩
      rw [hlen] at hcase hpage
      rw [hp] at hcase
      refine ⟨l, p :: heap, ?_⟩
      unfold PAGE_SIZE at hpmod hcase hpage
      rcases hcase with ⟨haddr, rfl⟩ | ⟨-, haddr, rfl⟩
      · -- the rest of the page is the new region
        refine h.newPage (hfree.congr rfl fun _ _ => rfl) (by omega) ⟨?_, ?_⟩ (Or.inl ⟨rfl, rfl⟩)
        · show p ≤ addr
          omega
        · show addr + _ ≤ p + 4096
          omega
      · refine h.newPage hfree (by omega) ⟨?_, ?_⟩ (Or.inr ⟨hstart, hend⟩)
        · show p ≤ addr
          omega
        · show addr + _ ≤ p + 4096
          omega

theorem allocPage (h : Inv base s l heap) {p : Nat}
    (ha : s.mem.memoryAllocPage = some (p, m)) :
    ∃ l', Inv base { s with mem := m, held := p :: s.held } l' heap := by
  cases l with
  | nil =>
    rw [Phys.memoryAllocPage_nil h.free] at ha
    cases ha
  | cons q l =>
    obtain ⟨m₁, ha', hfree, -, hstart, hend⟩ := Phys.memoryAllocPage_cons h.free
    obtain ⟨rfl, rfl⟩ := Prod.mk.inj (Option.some.inj (ha'.symm.trans ha))
    have hperm : (l ++ (q :: s.held ++ heap)).Perm (q :: l ++ (s.held ++ heap)) :=
      List.perm_middle
    refine ⟨l,
      { free := hfree, pages := fun p hp => h.pages p (hperm.mem_iff.mp hp)
        nodup := hperm.nodup_iff.mpr h.nodup
        first := h.first, start := ?_, start_le := ?_, end_le := ?_, end_aligned := ?_
        within := h.within, outside := ?_, aligned := h.aligned, apart := h.apart }⟩
    · rw [hstart]
      exact h.start
    · rw [hstart, hend]
      exact h.start_le
    · rw [hstart, hend]
      exact h.end_le
    · rw [hend]
      exact h.end_aligned
    · rw [hstart, hend]
      exact h.outside

theorem freePage (h : Inv base s l heap) {p : Nat} (hp : p ∈ s.held) :
    Inv base { s with mem := s.mem.memoryFreePage p, held := s.held.erase p } (p :: l) heap := by
  have hperm : (p :: l ++ (s.held.erase p ++ heap)).Perm (l ++ (s.held ++ heap)) := by
    have hheld : (p :: s.held.erase p ++ heap).Perm (s.held ++ heap) :=
      (List.perm_cons_erase hp).symm.append_right heap
    exact List.perm_middle.symm.trans (hheld.append_left l)
  have hnot : p ∉ l := fun hmem => h.free_ne hmem (List.mem_append_left heap hp) rfl
  have hne : p ≠ 0 := by
    have hle := (h.isPage_held hp).base_le
    have hfirst := h.held_ne hp h.first
    omega
  exact
    { free := Phys.memoryFreePage_free h.free (fun q hq => (h.isPage_free hq).lt_end) hne hnot
      pages := fun q hq => h.pages q (hperm.mem_iff.mp hq)
      nodup := hperm.nodup_iff.mpr h.nodup
      first := h.first, start := h.start, start_le := h.start_le, end_le := h.end_le
      end_aligned := h.end_aligned
      within := h.within, outside := h.outside, aligned := h.aligned, apart := h.apart }

/-- The memory of the client is not on the free list. -/
theorem not_owned (h : Inv base s l heap) {p : Nat} (hp : p ∈ l) : ¬s.Owned p := by
  have hpmod := (h.isPage_free hp).aligned
  rintro (⟨b, hb, hle, hlt⟩ | ⟨q, hq, hle, hlt⟩)
  · obtain ⟨q, hq, hlow, hhigh⟩ := h.within b hb
    have hqmod := (h.isPage_heap hq).aligned
    have hlen := b.size_le_len
    have hne := h.free_ne hp (List.mem_append_right s.held hq)
    unfold PAGE_SIZE at *
    omega
  · have hqmod := (h.isPage_held hq).aligned
    have hne := h.free_ne hp (List.mem_append_left heap hq)
    unfold PAGE_SIZE at *
    omega

theorem store (h : Inv base s l heap) {a : Nat} (ha : s.Owned a) (v : BitVec 64) :
    Inv base { s with mem := s.mem.store a v } l heap := by
  refine { h with free := h.free.congr rfl fun p hp => ?_ }
  have hne : p ≠ a := by
    rintro rfl
    exact h.not_owned hp ha
  exact Function.update_of_ne hne ..

theorem step (h : Inv base s l heap) {r : Request}
    (hstep : Heap.step s r = some s') : ∃ l' heap', Inv base s' l' heap' := by
  cases r with
  | kmalloc size =>
    simp only [Heap.step] at hstep
    split at hstep
    · next hsize =>
      split at hstep
      · cases hstep
      · next addr m hk =>
        obtain rfl := Option.some.inj hstep
        exact h.kmalloc hsize.2 hk
    · cases hstep
  | allocPage =>
    simp only [Heap.step] at hstep
    split at hstep
    · cases hstep
    · next p m ha =>
      obtain rfl := Option.some.inj hstep
      obtain ⟨l', h'⟩ := h.allocPage ha
      exact ⟨l', heap, h'⟩
  | freePage p =>
    simp only [Heap.step] at hstep
    split at hstep
    · next hp =>
      obtain rfl := Option.some.inj hstep
      exact ⟨p :: l, heap, h.freePage hp⟩
    · cases hstep
  | store a v =>
    simp only [Heap.step] at hstep
    split at hstep
    · next ha =>
      obtain rfl := Option.some.inj hstep
      exact ⟨l, heap, h.store ha v⟩
    · cases hstep

/-- After `memory_init` the heap has the page behind the image. -/
theorem init {kimgEnd : Nat} {word : Nat → BitVec 64} (hkimg : kimgEnd % PAGE_SIZE = 0)
    (hzero : word (RAM_END - PAGE_SIZE) = 0) (hinit : Phys.memoryInit kimgEnd word = some m) :
    ∃ l, Inv kimgEnd (Heap.init m) l [kimgEnd] := by
  obtain ⟨l, hfree, hnodup, hpages⟩ := (Phys.memoryInit_ok_iff hinit).mpr hzero
  obtain ⟨n, hram, -, -⟩ := Phys.memoryInit_free hinit
  obtain ⟨hstart, hend⟩ := Phys.memoryInit_heap hinit
  have hheap : Phys.initHeapEnd kimgEnd = kimgEnd + PAGE_SIZE := by
    unfold Phys.initHeapEnd roundUp HEAP_INIT_MIN
    unfold PAGE_SIZE at hkimg ⊢
    dsimp only
    split <;> omega
  rw [hheap] at hpages hend hram
  have hne : ∀ p ∈ l, p ≠ kimgEnd := by
    intro p hp
    have := (hpages p hp).base_le
    unfold PAGE_SIZE at this
    omega
  have hmain : ∀ p ∈ l ++ ([] ++ [kimgEnd]), Phys.IsPage kimgEnd p := by
    intro p hp
    rcases List.mem_append.mp hp with hp | hp
    · obtain ⟨hmod, hle, hlt⟩ := hpages p hp
      exact ⟨hmod, Nat.le_trans (Nat.le_add_right ..) hle, hlt⟩
    · obtain rfl := List.mem_singleton.mp hp
      unfold PAGE_SIZE at hram
      exact ⟨hkimg, Nat.le_refl _, by omega⟩
  refine ⟨l,
    { free := hfree, pages := hmain, nodup := ?_
      first := List.mem_singleton_self _, start := ?_, start_le := ?_, end_le := ?_, end_aligned := ?_
      within := List.forall_mem_nil _, outside := List.forall_mem_nil _
      aligned := List.forall_mem_nil _, apart := List.Pairwise.nil }⟩
  · refine List.nodup_append.mpr ⟨hnodup, List.nodup_singleton _, fun p hp q hq => ?_⟩
    rw [List.mem_singleton.mp hq]
    exact hne p hp
  · show m.heapStart ∈ [kimgEnd]
    rw [hstart]
    exact List.mem_singleton_self _
  · show m.heapStart ≤ m.heapEnd
    rw [hstart, hend]
    exact Nat.le_add_right ..
  · show m.heapEnd ≤ m.heapStart + PAGE_SIZE
    rw [hstart, hend]
  · show m.heapEnd % 16 = 0
    rw [hend]
    unfold PAGE_SIZE at hkimg ⊢
    omega

end Inv

/-- Everything that has been given out: the blocks of the heap and the pages of the client. -/
def State.given (s : State) : List Block := s.blocks ++ s.held.map Block.ofPage

/-- Everything that has been given out is different memory, inside a page of the heap or of the
client. -/
theorem Inv.given_apart (h : Inv base s l heap) : s.given.Pairwise Block.Apart := by
  refine List.pairwise_append.mpr ⟨h.apart, ?_, ?_⟩
  · have hheld : s.held.Nodup := (List.nodup_append.mp (List.nodup_append.mp h.nodup).2.1).1
    refine List.pairwise_map.mpr (hheld.imp_of_mem fun hp hq hne => ?_)
    exact (Block.within_ofPage _).apart (Block.within_ofPage _) (h.isPage_held hp)
      (h.isPage_held hq) hne
  · intro b hb c hc
    obtain ⟨p, hp, rfl⟩ := List.mem_map.mp hc
    obtain ⟨q, hq, hbq⟩ := h.within b hb
    exact hbq.apart (Block.within_ofPage p) (h.isPage_heap hq) (h.isPage_held hp)
      (h.held_ne hp hq).symm

theorem Inv.given_within (h : Inv base s l heap) {b : Block} (hb : b ∈ s.given) :
    ∃ p ∈ s.held ++ heap, b.Within p := by
  rcases List.mem_append.mp hb with hb | hb
  · obtain ⟨p, hp, hbp⟩ := h.within b hb
    exact ⟨p, List.mem_append_right _ hp, hbp⟩
  · obtain ⟨p, hp, rfl⟩ := List.mem_map.mp hb
    exact ⟨p, List.mem_append_left _ hp, Block.within_ofPage p⟩

/-- What the clients rely on: blocks and pages are apart from each other and from the free pages,
inside RAM and behind the image, and aligned. -/
structure Sound (kimgEnd : Nat) (s : State) : Prop where
  apart : s.given.Pairwise Block.Apart
  inside : ∀ b ∈ s.given, kimgEnd ≤ b.addr ∧ b.addr + b.len ≤ RAM_END
  long : ∀ b ∈ s.blocks, b.size ≤ b.len
  block_aligned : ∀ b ∈ s.blocks, b.addr % 16 = 0
  page_aligned : ∀ p ∈ s.held, p % PAGE_SIZE = 0
  table_aligned : ∀ b ∈ s.blocks, b.size = PAGE_SIZE → b.addr % PAGE_SIZE = 0
  not_free : ∃ l, s.mem.Free l ∧ ∀ p ∈ l, ∀ b ∈ s.given, (Block.ofPage p).Apart b

theorem Inv.sound (h : Inv base s l heap) : Sound base s where
  apart := h.given_apart
  inside := by
    intro b hb
    obtain ⟨p, hp, hlow, hhigh⟩ := h.given_within hb
    obtain ⟨hmod, hbase, hlt⟩ := h.pages p (List.mem_append_right l hp)
    have hram : RAM_END % PAGE_SIZE = 0 := by decide
    unfold PAGE_SIZE at *
    omega
  long b _ := b.size_le_len
  block_aligned := h.aligned
  page_aligned p hp := (h.isPage_held hp).aligned
  table_aligned := by
    intro b hb hsize
    obtain ⟨p, hp, hbp⟩ := h.within b hb
    rw [hbp.eq_of_page hsize]
    exact (h.isPage_heap hp).aligned
  not_free := by
    refine ⟨l, h.free, fun p hp b hb => ?_⟩
    obtain ⟨q, hq, hbq⟩ := h.given_within hb
    exact (Block.within_ofPage p).apart hbq (h.isPage_free hp)
      (h.pages q (List.mem_append_right l hq)) (h.free_ne hp hq)

/-- **Blocks and pages.** From `memory_init` on, with an image that ends at a page boundary and RAM
behind it that holds 0, whatever has been asked for, given back and stored: the blocks of the heap and
the pages of the client are different memory, and none of it is free. -/
theorem blocks_and_pages_apart {kimgEnd : Nat} {word : Nat → BitVec 64} {rs : List Request}
    (hkimg : kimgEnd % PAGE_SIZE = 0)
    (hzero : ∀ a, kimgEnd ≤ a → a < RAM_END → word a = 0)
    (hinit : Phys.memoryInit kimgEnd word = some m) (hrun : runs step (init m) rs = some s) :
    Sound kimgEnd s := by
  obtain ⟨n, hram, -, -⟩ := Phys.memoryInit_free hinit
  have hlast : word (RAM_END - PAGE_SIZE) = 0 := by
    have hle := (Phys.initHeapEnd_bounds kimgEnd).2.1
    refine hzero _ ?_ (by decide)
    unfold PAGE_SIZE at hram ⊢
    omega
  obtain ⟨l, hstart⟩ := Inv.init hkimg hlast hinit
  obtain ⟨l', heap', hend⟩ := runs_invariant (I := fun s => ∃ l heap, Inv kimgEnd s l heap)
    (fun s r s' ⟨l, heap, h⟩ hstep => h.step hstep) ⟨l, _, hstart⟩ hrun
  exact hend.sound

/-- A short run: a small block, a page for a table, and a page of the client that is written and
given back. -/
def someRequests : List Request :=
  [.kmalloc 100, .kmalloc PAGE_SIZE, .allocPage, .store 0x80202008 1, .freePage 0x80202000]

theorem blocks_and_pages_apart_run : ∃ m s,
    Phys.memoryInit 0x80200000 (fun _ => 0) = some m ∧ runs step (init m) someRequests = some s ∧
      Sound 0x80200000 s := by
  obtain ⟨m, hinit⟩ : ∃ m, Phys.memoryInit 0x80200000 (fun _ => 0) = some m := ⟨_, rfl⟩
  obtain ⟨s, hrun⟩ : ∃ s, runs step (init m) someRequests = some s := by
    have hsome : ((Phys.memoryInit 0x80200000 (fun _ => 0)).bind
        fun m => runs step (init m) someRequests).isSome = true := by decide +kernel
    rw [hinit] at hsome
    exact Option.isSome_iff_exists.mp hsome
  exact ⟨m, s, hinit, hrun, blocks_and_pages_apart (by decide) (fun _ _ _ => rfl) hinit hrun⟩
/-! ## The sizes that are refused -/

/-- `SIZE_MAX` -/
def SIZE_MAX : Nat := 2 ^ 64 - 1

/-- How `kcalloc` can fail to return. -/
inductive Fault where
  | panic
  | divideByZero
  deriving DecidableEq

/-- The loop of `memset`, with the bytes that are left as its counter. -/
def memset (p : Nat) (c : UInt8) : Nat → Phys → Phys
  | 0, m => m
  | n + 1, m => memset (p + 1) c n (m.setByte p c)

/-- `kcalloc` -/
def kcalloc (m : Phys) (n size : Nat) : Except Fault (Nat × Phys) :=
  -- `SIZE_MAX / size` is the first thing that is evaluated
  if size = 0 then .error .divideByZero
  else if SIZE_MAX / size < n then .error .panic
  else
    match m.kmalloc (u64 ((n : Int) * size)) with
    | none => .error .panic
    | some (ptr, m) => .ok (ptr, memset ptr 0 (u64 ((n : Int) * size)) m)

/-- `len` bytes from `ptr` on have been cleared, and nothing else written; they are of the region that
the heap had, or of the first free page. -/
structure Cleared (m m' : Phys) (ptr len : Nat) : Prop where
  zero : ∀ i < len, m'.byteAt (ptr + i) = 0
  other : ∀ a, a < ptr ∨ ptr + len ≤ a → m'.byteAt a = m.byteAt a
  block : (m.heapStart ≤ ptr ∧ ptr + len ≤ m.heapEnd) ∨
    (m.freeList ≤ ptr ∧ ptr + len ≤ m.freeList + PAGE_SIZE)

theorem memset_byteAt (p : Nat) (c : UInt8) (n : Nat) (m : Phys) (a : Nat) :
    (memset p c n m).byteAt a = if p ≤ a ∧ a < p + n then c else m.byteAt a := by
  induction n generalizing p m with
  | zero => rw [memset, if_neg (by omega)]
  | succ n ih =>
    rw [memset, ih]
    by_cases ha : a = p
    · rw [if_neg (by omega), if_pos (by omega), ha, Phys.byteAt_setByte_self]
    · rw [Phys.byteAt_setByte_of_ne c ha]
      by_cases hin : p + 1 ≤ a ∧ a < p + 1 + n
      · rw [if_pos hin, if_pos (by omega)]
      · rw [if_neg hin, if_neg (by omega)]

/-- The memory that `kmalloc` returns. -/
theorem kmalloc_block (hheap : m.heapStart ≤ m.heapEnd) {m' : Phys}
    (hk : m.kmalloc size = some (addr, m')) :
    m'.word = m.word ∧
      ((m.heapStart ≤ addr ∧ addr + Phys.heapSize size ≤ m.heapEnd) ∨
        (m.freeList ≤ addr ∧ addr + Phys.heapSize size ≤ m.freeList + PAGE_SIZE)) := by
  obtain ⟨hpage, ⟨hfit, haddr, rfl⟩ | ⟨-, m₁, halloc, hcase⟩⟩ := Phys.kmalloc_cases hk
  · exact ⟨rfl, Or.inl (by omega)⟩
  · have hword : m₁.word = m.word := by
      unfold Phys.memoryAllocPage at halloc
      split at halloc
      · cases halloc
      · obtain ⟨-, rfl⟩ := Prod.mk.inj (Option.some.inj halloc)
        rfl
    rcases hcase with ⟨haddr, rfl⟩ | ⟨-, haddr, rfl⟩
    · exact ⟨hword, Or.inr (by omega)⟩
    · exact ⟨hword, Or.inr (by omega)⟩

/-- A size is refused, unless it is taken for 0. -/
theorem kmalloc_large (hsize : PAGE_SIZE < size) (hlt : size < 2 ^ 64) :
    m.kmalloc size = none ↔ size ≤ 2 ^ 64 - 16 := by
  constructor
  · intro hnone
    by_contra hlarge
    have hzero := Phys.heapSize_wrap (Nat.not_le.mp hlarge) hlt
    unfold Phys.kmalloc at hnone
    rw [hzero, if_neg (Nat.not_lt_zero _), if_pos (Nat.zero_le _)] at hnone
    cases hnone
  · intro hle
    have hround : PAGE_SIZE < Phys.heapSize size := by
      rw [Phys.heapSize_eq hle]
      unfold roundUp
      omega
    unfold Phys.kmalloc
    exact if_pos hround

/-- A size of at most a page is served from the region or from a free page. -/
theorem kmalloc_small (hsize : size ≤ PAGE_SIZE) :
    (∃ addr m', m.kmalloc size = some (addr, m')) ↔
      roundUp size 16 ≤ m.heapEnd - m.heapStart ∨ m.freeList ≠ 0 := by
  have hround : roundUp size 16 ≤ PAGE_SIZE := by
    unfold roundUp
    unfold PAGE_SIZE at hsize ⊢
    omega
  unfold Phys.kmalloc Phys.memoryAllocPage
  dsimp only
  rw [Phys.heapSize_of_le hround, if_neg (Nat.not_lt.mpr hround)]
  by_cases hfit : roundUp size 16 ≤ m.heapEnd - m.heapStart
  · rw [if_pos hfit]
    exact iff_of_true ⟨_, _, rfl⟩ (Or.inl hfit)
  · rw [if_neg hfit]
    by_cases hempty : m.freeList = 0
    · rw [if_pos hempty]
      exact iff_of_false (fun ⟨_, _, h⟩ => nomatch h) (by tauto)
    · rw [if_neg hempty]
      refine iff_of_true ?_ (Or.inr hempty)
      dsimp only
      split
      · exact ⟨_, _, rfl⟩
      · exact ⟨_, _, rfl⟩

/-- What a request for `n` elements of `size` bytes should do: panic if they need more than a page, and
return cleared memory otherwise. -/
def Refuses (m : Phys) (n size : Nat) : Prop :=
  if PAGE_SIZE < n * size then kcalloc m n size = .error .panic
  else ∃ ptr m', kcalloc m n size = .ok (ptr, m') ∧ Cleared m m' ptr (n * size)

/-- Without a division by zero and without overflow, `kcalloc` is `kmalloc` and `memset`. -/
theorem kcalloc_eq {n : Nat} (hsize : size ≠ 0) (hlt : n * size < 2 ^ 64) :
    kcalloc m n size =
      match m.kmalloc (n * size) with
      | none => .error .panic
      | some (ptr, m') => .ok (ptr, memset ptr 0 (n * size) m') := by
  have hmul : u64 ((n : Int) * size) = n * size := u64_eq (by rw [Int.natCast_mul]) hlt
  have hguard : ¬SIZE_MAX / size < n := by
    rw [Nat.not_lt, Nat.le_div_iff_mul_le (Nat.pos_of_ne_zero hsize)]
    unfold SIZE_MAX
    omega
  unfold kcalloc
  rw [if_neg hsize, if_neg hguard, hmul]

theorem kcalloc_overflow {n : Nat} (hsize : size ≠ 0) (hge : 2 ^ 64 ≤ n * size) :
    kcalloc m n size = .error .panic := by
  have hguard : SIZE_MAX / size < n := by
    rw [Nat.div_lt_iff_lt_mul (Nat.pos_of_ne_zero hsize)]
    unfold SIZE_MAX
    omega
  unfold kcalloc
  rw [if_neg hsize, if_pos hguard]

/-- **Sizes.** `kmalloc` refuses a size above a page if and only if rounding it up does not overflow.
`kcalloc` does what it should if and only if it does not divide by zero, the product is not one whose
rounding overflows, and there is memory for a request of at most a page. -/
theorem heap_refuses_iff (hheap : m.heapStart ≤ m.heapEnd) :
    (∀ size, PAGE_SIZE < size → size < 2 ^ 64 →
      (m.kmalloc size = none ↔ size ≤ 2 ^ 64 - 16)) ∧
    ∀ n size, n < 2 ^ 64 → size < 2 ^ 64 →
      (Refuses m n size ↔
        size ≠ 0 ∧ ¬(2 ^ 64 - 16 < n * size ∧ n * size < 2 ^ 64) ∧
          (n * size ≤ PAGE_SIZE →
            roundUp (n * size) 16 ≤ m.heapEnd - m.heapStart ∨ m.freeList ≠ 0)) := by
  refine ⟨fun size => kmalloc_large, fun n size hn hsize => ?_⟩
  unfold Refuses
  by_cases hzero : size = 0
  · -- the division comes first
    have hdiv : kcalloc m n size = .error .divideByZero := by
      unfold kcalloc
      rw [if_pos hzero]
    rw [hdiv, if_neg (by rw [hzero]; exact Nat.not_lt_zero _)]
    exact iff_of_false (fun ⟨_, _, h, _⟩ => nomatch h) (fun h => h.1 hzero)
  by_cases hlarge : PAGE_SIZE < n * size
  · rw [if_pos hlarge]
    by_cases hover : 2 ^ 64 ≤ n * size
    · exact iff_of_true (kcalloc_overflow hzero hover) ⟨hzero, by omega, by omega⟩
    · rw [kcalloc_eq hzero (Nat.not_le.mp hover)]
      have hk := kmalloc_large (m := m) hlarge (Nat.not_le.mp hover)
      cases hcase : m.kmalloc (n * size) with
      | none =>
        have := hk.mp hcase
        exact iff_of_true rfl ⟨hzero, by omega, by omega⟩
      | some r =>
        refine iff_of_false (fun h => nomatch h) fun h => ?_
        have := hk.mpr (by omega)
        rw [hcase] at this
        cases this
  · have hle : n * size ≤ PAGE_SIZE := Nat.not_lt.mp hlarge
    have hlt : n * size < 2 ^ 64 := by
      unfold PAGE_SIZE at hle
      omega
    rw [if_neg hlarge, kcalloc_eq hzero hlt]
    have hk := kmalloc_small (m := m) hle
    cases hcase : m.kmalloc (n * size) with
    | none =>
      rw [hcase] at hk
      refine iff_of_false (fun ⟨_, _, h, _⟩ => nomatch h) fun h => ?_
      obtain ⟨_, _, hsome⟩ := hk.mpr (h.2.2 hle)
      cases hsome
    | some r =>
      refine iff_of_true ⟨r.1, _, rfl, ?_⟩ ⟨hzero, ?_, fun _ => hk.mp ⟨r.1, r.2, hcase⟩⟩
      · obtain ⟨hword, hblock⟩ := kmalloc_block hheap hcase
        have hlen : n * size ≤ Phys.heapSize (n * size) := by
          rw [Phys.heapSize_eq (by unfold PAGE_SIZE at hle; omega)]
          exact Block.size_le_len ⟨0, n * size⟩
        refine ⟨fun i hi => ?_, fun a ha => ?_, ?_⟩
        · rw [memset_byteAt, if_pos (by omega)]
        · rw [memset_byteAt, if_neg (by omega)]
          unfold Phys.byteAt
          rw [hword]
        · exact hblock.imp (fun h => ⟨h.1, by omega⟩) (fun h => ⟨h.1, by omega⟩)
      · unfold PAGE_SIZE at hle
        omega

/-- A heap with a page left. -/
def pageHeap : Phys := ⟨fun _ => 7, 0, 0x80200000, 0x80201000⟩

/-- An array of ten elements of 24 bytes. -/
theorem heap_refuses_ten : Refuses pageHeap 10 24 :=
  ((heap_refuses_iff (m := pageHeap) (by decide)).2 10 24 (by decide) (by decide)).mpr (by decide)

/-- `kmalloc` of the largest size returns the end of the region, and so does `kcalloc` of as many bytes,
which it then clears; no elements of size 0 are a division by zero. -/
theorem heap_refuses_wrapped :
    pageHeap.kmalloc (2 ^ 64 - 1) = some (0x80201000, pageHeap) ∧
      (∃ m', kcalloc pageHeap 1 (2 ^ 64 - 1) = .ok (0x80201000, m')) ∧
      kcalloc pageHeap 0 0 = .error .divideByZero := by
  have hwrap : Phys.heapSize (2 ^ 64 - 1) = 0 := Phys.heapSize_wrap (by decide) (by decide)
  have hk : pageHeap.kmalloc (2 ^ 64 - 1) = some (0x80201000, pageHeap) := by
    unfold Phys.kmalloc
    rw [hwrap]
    rfl
  refine ⟨hk, ?_, rfl⟩
  rw [kcalloc_eq (by decide) (by decide), Nat.one_mul, hk]
  exact ⟨_, rfl⟩

end Heap

end RiscvKernel
