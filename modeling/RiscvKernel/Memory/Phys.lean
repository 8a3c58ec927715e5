import RiscvKernel.Lib.CInt
import RiscvKernel.Lib.Chain

/-!
# Physical memory, the free pages and the heap

The page allocator of `memory.c` and the heap of `ezheap.c`, over a memory of 64-bit words.
A free page holds the address of the next one in its first word, and a page that is handed
out keeps what it held: neither `memory_alloc_page` nor `kmalloc` clears it. `kfree` does
nothing.

`memoryInit` is the part of `memory_init` that sets up the heap and the list. The last page
is not written: the list ends there only if RAM held 0 at boot.
-/

namespace RiscvKernel

open Lib

/-- `PAGE_SIZE` -/
def PAGE_SIZE : Nat := 4096

/-- `MEGA_SIZE` -/
def MEGA_SIZE : Nat := 2 * 1024 * 1024

/-- `RAM_START_PMA` -/
def RAM_START : Nat := 0x80000000

/-- `RAM_END_PMA` -/
def RAM_END : Nat := RAM_START + 8 * 1024 * 1024

/-- `HEAP_INIT_MIN` -/
def HEAP_INIT_MIN : Nat := 256

/-- `round_up_size` -/
def roundUp (n blksz : Nat) : Nat := (n + blksz - 1) / blksz * blksz

/-- RAM, `free_list`, and the block that the heap allocates from. Words are addressed by
their first byte. -/
structure Phys where
  word : Nat → BitVec 64
  freeList : Nat
  heapStart : Nat
  heapEnd : Nat

namespace Phys

def store (m : Phys) (addr : Nat) (v : BitVec 64) : Phys :=
  { m with word := Function.update m.word addr v }

/-- `memory_alloc_page`; `none` is the panic. -/
def memoryAllocPage (m : Phys) : Option (Nat × Phys) :=
  if m.freeList = 0 then none
  else some (m.freeList, { m with freeList := (m.word m.freeList).toNat })

/-- `memory_free_page` -/
def memoryFreePage (m : Phys) (pp : Nat) : Phys :=
  { m.store pp (BitVec.ofNat 64 m.freeList) with freeList := pp }

/-- The size that `kmalloc` takes for a request, a multiple of 16: the sum is one of `size_t` and
wraps. -/
def heapSize (size : Nat) : Nat := u64 ((size : Int) + 16 - 1) / 16 * 16

/-- `kmalloc`; `none` is a panic. -/
def kmalloc (m : Phys) (size : Nat) : Option (Nat × Phys) :=
  let size := heapSize size
  if PAGE_SIZE < size then none
  else if size ≤ m.heapEnd - m.heapStart then
    some (m.heapEnd - size, { m with heapEnd := m.heapEnd - size })
  else
    match m.memoryAllocPage with
    | none => none
    | some (block, m) =>
      if m.heapEnd - m.heapStart < PAGE_SIZE - size then
        let heapEnd := block + PAGE_SIZE - size
        some (heapEnd, { m with heapStart := block, heapEnd := heapEnd })
      else some (block, m)

/-- The loop of `memory_init`: `n` pages from `aux` on are linked to the page behind them. -/
def linkPages : Nat → Nat → Phys → Phys
  | 0, _, m => m
  | n + 1, aux, m =>
    linkPages n (aux + PAGE_SIZE) (m.store aux (BitVec.ofNat 64 (aux + PAGE_SIZE)))

/-- Where the heap ends and the free pages begin. -/
def initHeapEnd (kimgEnd : Nat) : Nat :=
  let heapEnd := roundUp kimgEnd PAGE_SIZE
  if heapEnd - kimgEnd < HEAP_INIT_MIN then
    heapEnd + roundUp (HEAP_INIT_MIN - (heapEnd - kimgEnd)) PAGE_SIZE
  else heapEnd

/-- `memory_init` as far as the heap and the free pages are concerned, with the memory that
the machine boots with. -/
def memoryInit (kimgEnd : Nat) (word : Nat → BitVec 64) : Option Phys :=
  if MEGA_SIZE < kimgEnd - RAM_START then none
  else
    let heapEnd := initHeapEnd kimgEnd
    if RAM_END < heapEnd then none
    else
      some (linkPages ((RAM_END - heapEnd) / PAGE_SIZE - 1) heapEnd ⟨word, heapEnd, kimgEnd, heapEnd⟩)

/-! ## The free list -/

/-- A page that the allocator manages: aligned, and between `base`, the end of the heap at
boot, and the end of RAM. -/
structure IsPage (base p : Nat) : Prop where
  aligned : p % PAGE_SIZE = 0
  base_le : base ≤ p
  lt_end : p < RAM_END

/-- The free list is `l`. -/
def Free (m : Phys) (l : List Nat) : Prop :=
  Spells (fun p => (m.word p).toNat) m.freeList l

variable {m m' : Phys} {l : List Nat} {p : Nat}

theorem Free.congr (h : m.Free l) (hhead : m'.freeList = m.freeList)
    (hword : ∀ q ∈ l, m'.word q = m.word q) : m'.Free l := by
  unfold Free
  rw [hhead]
  exact Spells.congr h fun q hq => by rw [hword q hq]

/-- `free_list` is the first page of the list, if there is one. -/
theorem Free.mem_iff (h : m.Free l) : m.freeList ∈ l ↔ m.freeList ≠ 0 := by
  cases l with
  | nil =>
    have hzero : m.freeList = 0 := h
    simp [hzero]
  | cons q l =>
    obtain ⟨hhead, hne, -⟩ := h
    simp [hhead, hne]

theorem Free.ne_nil_iff (h : m.Free l) : l ≠ [] ↔ m.freeList ≠ 0 := by
  cases l with
  | nil =>
    have hzero : m.freeList = 0 := h
    simp [hzero]
  | cons q l =>
    obtain ⟨hhead, hne, -⟩ := h
    simp [hhead, hne]

theorem memoryAllocPage_nil (h : m.Free []) : m.memoryAllocPage = none := by
  have hzero : m.freeList = 0 := h
  unfold memoryAllocPage
  rw [if_pos hzero]

/-- The first page is handed out. -/
theorem memoryAllocPage_cons (h : m.Free (p :: l)) :
    ∃ m', m.memoryAllocPage = some (p, m') ∧ m'.Free l ∧ m'.word = m.word ∧
      m'.heapStart = m.heapStart ∧ m'.heapEnd = m.heapEnd := by
  obtain ⟨hp, hne, hl⟩ := h
  refine ⟨{ m with freeList := (m.word m.freeList).toNat }, ?_, ?_, rfl, rfl, rfl⟩
  · unfold memoryAllocPage
    rw [if_neg (by rwa [hp]), hp]
  · unfold Free
    dsimp only
    rw [hp]
    exact hl

/-- A page that is given back becomes the first one. -/
theorem memoryFreePage_free (h : m.Free l) (hl : ∀ q ∈ l, q < RAM_END) (hp : p ≠ 0)
    (hnot : p ∉ l) : (m.memoryFreePage p).Free (p :: l) := by
  have hhead : m.freeList < 2 ^ 64 := by
    cases l with
    | nil =>
      have hzero : m.freeList = 0 := h
      omega
    | cons q l =>
      have hq := hl q List.mem_cons_self
      have : m.freeList = q := h.1
      unfold RAM_END RAM_START at hq
      omega
  refine ⟨rfl, hp, ?_⟩
  have hlink : ((m.memoryFreePage p).word p).toNat = m.freeList := by
    show (Function.update m.word p (BitVec.ofNat 64 m.freeList) p).toNat = m.freeList
    rw [Function.update_self, BitVec.toNat_ofNat, Nat.mod_eq_of_lt hhead]
  show Spells _ ((m.memoryFreePage p).word p).toNat l
  rw [hlink]
  refine Spells.congr h fun q hq => ?_
  have hqp : q ≠ p := by
    rintro rfl
    exact hnot hq
  show (Function.update m.word p _ q).toNat = (m.word q).toNat
  rw [Function.update_of_ne hqp]

/-! ## The heap -/

theorem heapSize_eq {size : Nat} (h : size ≤ 2 ^ 64 - 16) : heapSize size = roundUp size 16 := by
  unfold heapSize roundUp
  rw [u64_eq (n := size + 16 - 1) (by omega) (by omega)]

/-- Near the end of the range the size becomes 0. -/
theorem heapSize_wrap {size : Nat} (h : 2 ^ 64 - 16 < size) (hsize : size < 2 ^ 64) :
    heapSize size = 0 := by
  unfold heapSize
  have hsum : u64 ((size : Int) + 16 - 1) = size + 15 - 2 ^ 64 := by
    unfold u64
    omega
  rw [hsum]
  omega

/-- Nothing wraps for a request of at most a page. -/
theorem heapSize_of_le {size : Nat} (h : roundUp size 16 ≤ PAGE_SIZE) :
    heapSize size = roundUp size 16 := by
  refine heapSize_eq ?_
  unfold roundUp PAGE_SIZE at h
  omega

/-- What `kmalloc` can do: the block is the end of the current region, or the end of a new page
that becomes the region, or a new page of its own. -/
theorem kmalloc_cases {size addr : Nat} (hk : m.kmalloc size = some (addr, m')) :
    heapSize size ≤ PAGE_SIZE ∧
      ((heapSize size ≤ m.heapEnd - m.heapStart ∧ addr = m.heapEnd - heapSize size ∧
          m' = { m with heapEnd := addr }) ∨
        m.heapEnd - m.heapStart < heapSize size ∧
          ∃ m₁, m.memoryAllocPage = some (m.freeList, m₁) ∧
            ((addr = m.freeList + PAGE_SIZE - heapSize size ∧
                m' = { m₁ with heapStart := m.freeList, heapEnd := addr }) ∨
              (PAGE_SIZE - heapSize size ≤ m₁.heapEnd - m₁.heapStart ∧
                addr = m.freeList ∧ m' = m₁))) := by
  unfold kmalloc at hk
  dsimp only at hk
  split at hk
  · cases hk
  · next hpage =>
    refine ⟨Nat.not_lt.mp hpage, ?_⟩
    split at hk
    · next hfit =>
      cases hk
      exact Or.inl ⟨hfit, rfl, rfl⟩
    · next hfit =>
      refine Or.inr ?_
      split at hk
      · cases hk
      · next block m₁ halloc =>
        obtain rfl : m.freeList = block := by
          unfold memoryAllocPage at halloc
          split at halloc
          · cases halloc
          · exact (Prod.mk.inj (Option.some.inj halloc)).1
        refine ⟨Nat.not_le.mp hfit, m₁, halloc, ?_⟩
        split at hk
        · cases hk
          exact Or.inl ⟨rfl, rfl⟩
        · next hswitch =>
          cases hk
          exact Or.inr ⟨Nat.not_lt.mp hswitch, rfl, rfl⟩

/-- `kmalloc` writes nothing. It takes the first free page if the request does not fit in the
current block. -/
theorem kmalloc_some (h : m.Free l) {size addr : Nat} (hk : m.kmalloc size = some (addr, m')) :
    m'.word = m.word ∧
      if heapSize size ≤ m.heapEnd - m.heapStart then m'.Free l
      else ∃ k, l = m.freeList :: k ∧ m'.Free k := by
  obtain ⟨-, ⟨hfit, -, rfl⟩ | ⟨hfit, m₁, halloc, hcase⟩⟩ := kmalloc_cases hk
  · rw [if_pos hfit]
    exact ⟨rfl, h.congr rfl fun _ _ => rfl⟩
  · rw [if_neg (Nat.not_le.mpr hfit)]
    cases l with
    | nil =>
      rw [memoryAllocPage_nil h] at halloc
      cases halloc
    | cons p k =>
      obtain ⟨m₂, halloc', hfree, hword, -, -⟩ := memoryAllocPage_cons h
      obtain ⟨hp, rfl⟩ := Prod.mk.inj (Option.some.inj (halloc.symm.trans halloc'))
      rcases hcase with ⟨-, rfl⟩ | ⟨-, -, rfl⟩
      · exact ⟨hword, k, by rw [hp], hfree.congr rfl fun _ _ => rfl⟩
      · exact ⟨hword, k, by rw [hp], hfree⟩

/-- A page for a table comes from the free list while the heap has less than a page left. -/
theorem kmalloc_page (hheap : m.heapEnd - m.heapStart < PAGE_SIZE) :
    m.kmalloc PAGE_SIZE = m.memoryAllocPage := by
  have hsize : heapSize PAGE_SIZE = PAGE_SIZE := heapSize_of_le (by decide)
  unfold kmalloc
  dsimp only
  rw [hsize, if_neg (Nat.lt_irrefl _), if_neg (Nat.not_le.mpr hheap)]
  cases m.memoryAllocPage with
  | none => rfl
  | some r =>
    dsimp only
    rw [Nat.sub_self, if_neg (Nat.not_lt_zero _)]

/-- A request of at most a page succeeds while there is a free page. -/
theorem kmalloc_isSome (h : m.Free (p :: l)) (size : Nat) (hsize : roundUp size 16 ≤ PAGE_SIZE) :
    ∃ addr m', m.kmalloc size = some (addr, m') := by
  obtain ⟨m', halloc, -⟩ := memoryAllocPage_cons h
  unfold kmalloc
  dsimp only
  rw [heapSize_of_le hsize, if_neg (Nat.not_lt.mpr hsize), halloc]
  dsimp only
  split
  · exact ⟨_, _, rfl⟩
  · split
    · exact ⟨_, _, rfl⟩
    · exact ⟨_, _, rfl⟩

/-- The memory manager with the free pages `l`, and a heap that has less than a page left. -/
structure Pool (base : Nat) (m : Phys) (l : List Nat) : Prop where
  free : m.Free l
  nodup : l.Nodup
  page : ∀ p ∈ l, IsPage base p
  heap : m.heapEnd - m.heapStart < PAGE_SIZE

variable {base : Nat}

/-- A page is taken from the pool. -/
theorem Pool.alloc (h : Pool base m l) (ha : m.memoryAllocPage = some (p, m')) :
    ∃ k, l = p :: k ∧ Pool base m' k ∧ m'.word = m.word := by
  cases l with
  | nil =>
    rw [memoryAllocPage_nil h.free] at ha
    cases ha
  | cons q k =>
    obtain ⟨m₁, hm₁, hfree, hword, hstart, hend⟩ := memoryAllocPage_cons h.free
    rw [hm₁] at ha
    obtain ⟨rfl, rfl⟩ := Prod.mk.inj (Option.some.inj ha)
    refine ⟨k, rfl, ⟨hfree, (List.nodup_cons.mp h.nodup).2, ?_, ?_⟩, hword⟩
    · exact fun r hr => h.page r (List.mem_cons_of_mem q hr)
    · rw [hstart, hend]
      exact h.heap

/-- The pool depends on the first words of the free pages. -/
theorem Pool.congr (h : Pool base m l) (hfree : m'.freeList = m.freeList)
    (hstart : m'.heapStart = m.heapStart) (hend : m'.heapEnd = m.heapEnd)
    (hword : ∀ p ∈ l, m'.word p = m.word p) : Pool base m' l :=
  ⟨h.free.congr hfree hword, h.nodup, h.page, by rw [hstart, hend]; exact h.heap⟩

/-- What is written elsewhere than to a free page does not matter. -/
theorem Pool.store (h : Pool base m l) {addr : Nat} (haddr : addr ∉ l) (v : BitVec 64) :
    Pool base (m.store addr v) l := by
  refine ⟨h.free.congr rfl fun q hq => ?_, h.nodup, h.page, h.heap⟩
  have hne : q ≠ addr := by
    rintro rfl
    exact haddr hq
  exact Function.update_of_ne hne ..

/-! ## After `memory_init` -/

/-- `n` pages from `p` on. -/
def pageRange : Nat → Nat → List Nat
  | _, 0 => []
  | p, n + 1 => p :: pageRange (p + PAGE_SIZE) n

theorem mem_pageRange {n q : Nat} (h : q ∈ pageRange p n) :
    ∃ i < n, q = p + PAGE_SIZE * i := by
  induction n generalizing p with
  | zero => cases h
  | succ n ih =>
    rcases List.mem_cons.mp h with rfl | h
    · exact ⟨0, by omega, by simp⟩
    · obtain ⟨i, hi, rfl⟩ := ih h
      exact ⟨i + 1, by omega, by rw [Nat.mul_succ]; omega⟩

theorem pageRange_mem {n i : Nat} (hi : i < n) : p + PAGE_SIZE * i ∈ pageRange p n := by
  induction n generalizing p i with
  | zero => omega
  | succ n ih =>
    cases i with
    | zero => exact List.mem_cons_self
    | succ i =>
      refine List.mem_cons_of_mem p ?_
      rw [show p + PAGE_SIZE * (i + 1) = p + PAGE_SIZE + PAGE_SIZE * i by
        rw [Nat.mul_succ]; omega]
      exact ih (by omega)

theorem pageRange_nodup (n : Nat) : (pageRange p n).Nodup := by
  induction n generalizing p with
  | zero => exact List.nodup_nil
  | succ n ih =>
    refine List.nodup_cons.mpr ⟨fun hmem => ?_, ih⟩
    obtain ⟨i, -, hi⟩ := mem_pageRange hmem
    unfold PAGE_SIZE at hi
    omega

/-- The loop links the pages and changes nothing else. -/
theorem linkPages_eq (n aux : Nat) (m : Phys) :
    (linkPages n aux m).freeList = m.freeList ∧ (linkPages n aux m).heapStart = m.heapStart ∧
      (linkPages n aux m).heapEnd = m.heapEnd ∧
      (∀ i < n, (linkPages n aux m).word (aux + PAGE_SIZE * i) =
        BitVec.ofNat 64 (aux + PAGE_SIZE * (i + 1))) ∧
      ∀ q ∉ pageRange aux n, (linkPages n aux m).word q = m.word q := by
  induction n generalizing aux m with
  | zero => exact ⟨rfl, rfl, rfl, fun i hi => by omega, fun _ _ => rfl⟩
  | succ n ih =>
    obtain ⟨hfree, hstart, hend, hlinks, hframe⟩ :=
      ih (aux + PAGE_SIZE) (m.store aux (BitVec.ofNat 64 (aux + PAGE_SIZE)))
    refine ⟨hfree, hstart, hend, ?_, ?_⟩
    · intro i hi
      cases i with
      | zero =>
        -- the first page is behind the loop's back
        have hnot : aux ∉ pageRange (aux + PAGE_SIZE) n := by
          intro hmem
          obtain ⟨j, -, hj⟩ := mem_pageRange hmem
          unfold PAGE_SIZE at hj
          omega
        show (linkPages n _ _).word (aux + PAGE_SIZE * 0) = _
        rw [Nat.mul_zero, Nat.add_zero, hframe aux hnot, Nat.zero_add, Nat.mul_one]
        exact Function.update_self ..
      | succ i =>
        have hlink := hlinks i (by omega)
        have hstep : ∀ j, aux + PAGE_SIZE + PAGE_SIZE * j = aux + PAGE_SIZE * (j + 1) := by
          intro j
          rw [Nat.mul_succ]
          omega
        rw [hstep, hstep] at hlink
        exact hlink
    · intro q hq
      have hcons : q ≠ aux ∧ q ∉ pageRange (aux + PAGE_SIZE) n := by
        rw [← not_or]
        exact fun hor => hq (List.mem_cons.mpr hor)
      show (linkPages n _ _).word q = m.word q
      rw [hframe q hcons.2]
      exact Function.update_of_ne hcons.1 ..

/-- Pages that are linked to the page behind them are a beginning of the list. -/
theorem spells_pageRange {next : Nat → Nat} {n : Nat} (hp : p ≠ 0)
    (hlinks : ∀ i < n, next (p + PAGE_SIZE * i) = p + PAGE_SIZE * (i + 1)) :
    Spells next p l ↔
      ∃ k, l = pageRange p (n + 1) ++ k ∧ Spells next (next (p + PAGE_SIZE * n)) k := by
  induction n generalizing p l with
  | zero => exact spells_iff_cons hp
  | succ n ih =>
    have hfirst : next p = p + PAGE_SIZE := by
      have := hlinks 0 (by omega)
      simpa using this
    have hstep : ∀ j, p + PAGE_SIZE + PAGE_SIZE * j = p + PAGE_SIZE * (j + 1) := by
      intro j
      rw [Nat.mul_succ]
      omega
    rw [spells_iff_cons hp, hfirst]
    have hrest : ∀ k, Spells next (p + PAGE_SIZE) k ↔ ∃ k', k = pageRange (p + PAGE_SIZE) (n + 1) ++
        k' ∧ Spells next (next (p + PAGE_SIZE * (n + 1))) k' := by
      intro k
      rw [ih (by omega) fun i hi => ?_, hstep]
      rw [hstep, hstep]
      exact hlinks (i + 1) (by omega)
    constructor
    · rintro ⟨k, rfl, hk⟩
      obtain ⟨k', rfl, hk'⟩ := (hrest k).mp hk
      exact ⟨k', rfl, hk'⟩
    · rintro ⟨k', rfl, hk'⟩
      exact ⟨_, rfl, (hrest _).mpr ⟨k', rfl, hk'⟩⟩

theorem initHeapEnd_bounds (kimgEnd : Nat) :
    initHeapEnd kimgEnd % 4096 = 0 ∧ kimgEnd < initHeapEnd kimgEnd ∧
      initHeapEnd kimgEnd ≤ kimgEnd + 8192 := by
  unfold initHeapEnd roundUp PAGE_SIZE HEAP_INIT_MIN
  dsimp only
  split <;> omega

theorem initHeapEnd_ne_zero (kimgEnd : Nat) : initHeapEnd kimgEnd ≠ 0 := by
  have := (initHeapEnd_bounds kimgEnd).2.1
  omega

/-- The free pages begin at a page boundary below the end of RAM. -/
theorem initHeapEnd_spec {kimgEnd : Nat} (h : ¬MEGA_SIZE < kimgEnd - RAM_START) :
    ∃ n, initHeapEnd kimgEnd + PAGE_SIZE * (n + 1) = RAM_END ∧
      initHeapEnd kimgEnd % PAGE_SIZE = 0 := by
  have hbounds := initHeapEnd_bounds kimgEnd
  unfold MEGA_SIZE RAM_START at h
  unfold PAGE_SIZE RAM_END RAM_START
  refine ⟨(0x80000000 + 8 * 1024 * 1024 - initHeapEnd kimgEnd) / 4096 - 1, ?_, hbounds.1⟩
  omega

/-- After `memory_init` the list is all pages from the end of the heap on, and then whatever
the last page happens to link to. -/
theorem memoryInit_free {kimgEnd : Nat} {word : Nat → BitVec 64}
    (hm : memoryInit kimgEnd word = some m) :
    ∃ n, initHeapEnd kimgEnd + PAGE_SIZE * (n + 1) = RAM_END ∧
      initHeapEnd kimgEnd % PAGE_SIZE = 0 ∧
      ∀ l, m.Free l ↔ ∃ k, l = pageRange (initHeapEnd kimgEnd) (n + 1) ++ k ∧
        Spells (fun p => (m.word p).toNat) (word (RAM_END - PAGE_SIZE)).toNat k := by
  unfold memoryInit at hm
  split at hm
  · cases hm
  · next hsize =>
    obtain ⟨n, hend, hmod⟩ := initHeapEnd_spec hsize
    have hne := initHeapEnd_ne_zero kimgEnd
    dsimp only at hm
    have hcount : (RAM_END - initHeapEnd kimgEnd) / PAGE_SIZE - 1 = n := by
      unfold PAGE_SIZE at hend ⊢
      omega
    rw [if_neg (by omega), hcount] at hm
    obtain rfl := Option.some.inj hm
    obtain ⟨hfree, -, -, hlinks, hframe⟩ := linkPages_eq n (initHeapEnd kimgEnd)
      ⟨word, initHeapEnd kimgEnd, kimgEnd, initHeapEnd kimgEnd⟩
    have hlast : initHeapEnd kimgEnd + PAGE_SIZE * n = RAM_END - PAGE_SIZE := by
      rw [← hend, Nat.mul_succ]
      omega
    refine ⟨n, hend, hmod, fun l => ?_⟩
    unfold Free
    rw [hfree]
    rw [spells_pageRange (n := n) hne fun i hi => ?_]
    · -- the last page has not been written
      have hnot : initHeapEnd kimgEnd + PAGE_SIZE * n ∉ pageRange (initHeapEnd kimgEnd) n := by
        intro hmem
        obtain ⟨i, hi, heq⟩ := mem_pageRange hmem
        unfold PAGE_SIZE at heq
        omega
      rw [hframe _ hnot, hlast]
    · have hle : PAGE_SIZE * (i + 1) ≤ PAGE_SIZE * (n + 1) := Nat.mul_le_mul_left _ (by omega)
      have hram : RAM_END < 2 ^ 64 := by decide
      rw [hlinks i hi, BitVec.toNat_ofNat, Nat.mod_eq_of_lt (by omega)]

/-- The heap begins with what is left behind the image. -/
theorem memoryInit_heap {kimgEnd : Nat} {word : Nat → BitVec 64}
    (hm : memoryInit kimgEnd word = some m) :
    m.heapStart = kimgEnd ∧ m.heapEnd = initHeapEnd kimgEnd := by
  unfold memoryInit at hm
  split at hm
  · cases hm
  · dsimp only at hm
    split at hm
    · cases hm
    · obtain rfl := Option.some.inj hm
      obtain ⟨-, hstart, hend, -, -⟩ := linkPages_eq ((RAM_END - initHeapEnd kimgEnd) / PAGE_SIZE - 1)
        (initHeapEnd kimgEnd) ⟨word, initHeapEnd kimgEnd, kimgEnd, initHeapEnd kimgEnd⟩
      exact ⟨hstart, hend⟩

/-- All pages are between the end of the heap and the end of RAM. -/
theorem mem_pageRange_of_isPage {base n : Nat} (hend : base + PAGE_SIZE * (n + 1) = RAM_END)
    (hmod : base % PAGE_SIZE = 0) (hp : IsPage base p) : p ∈ pageRange base (n + 1) := by
  obtain ⟨haligned, hbase, hlt⟩ := hp
  unfold PAGE_SIZE at hend hmod haligned
  have hi : (p - base) / 4096 < n + 1 := by omega
  have heq : base + 4096 * ((p - base) / 4096) = p := by omega
  have hmem := pageRange_mem (p := base) hi
  unfold PAGE_SIZE at hmem
  rwa [heq] at hmem

/-- The list is in order after `memory_init` if and only if the last page of RAM held 0. -/
theorem memoryInit_ok_iff {kimgEnd : Nat} {word : Nat → BitVec 64}
    (hm : memoryInit kimgEnd word = some m) :
    (∃ l, m.Free l ∧ l.Nodup ∧ ∀ p ∈ l, IsPage (initHeapEnd kimgEnd) p) ↔
      word (RAM_END - PAGE_SIZE) = 0 := by
  obtain ⟨n, hend, hmod, hfree⟩ := memoryInit_free hm
  constructor
  · rintro ⟨l, hl, hnodup, hpages⟩
    obtain ⟨k, rfl, hk⟩ := (hfree l).mp hl
    by_contra hne
    have hnz : (word (RAM_END - PAGE_SIZE)).toNat ≠ 0 := by
      intro hz
      exact hne (BitVec.eq_of_toNat_eq hz)
    -- the last link leads to a page that is in the list already
    obtain ⟨k', rfl, -⟩ := (spells_iff_cons hnz).mp hk
    have hpage := hpages (word (RAM_END - PAGE_SIZE)).toNat (by simp)
    have hagain := mem_pageRange_of_isPage hend hmod hpage
    exact (List.nodup_append.mp hnodup).2.2 _ hagain _ List.mem_cons_self rfl
  · intro hzero
    refine ⟨pageRange (initHeapEnd kimgEnd) (n + 1), (hfree _).mpr ⟨[], by simp, ?_⟩,
      pageRange_nodup (n + 1), fun p hp => ?_⟩
    · rw [hzero]
      rfl
    · obtain ⟨i, hi, rfl⟩ := mem_pageRange hp
      unfold PAGE_SIZE at hend hmod ⊢
      exact ⟨by unfold PAGE_SIZE; omega, by omega, by omega⟩

end Phys

end RiscvKernel
