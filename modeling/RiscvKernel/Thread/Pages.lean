import RiscvKernel.Thread.Runs

/-!
# Free pages over whole runs

The thread machine on top of the page allocator and the heap of `Memory.Phys`. Two things
are recorded that are not in the program: the pages that are handed out and not given back
(`Ledger.out`), and those among them that a caller of `memory_alloc_page` holds
(`World.held`).

`suspend_self` computes the stack page of a thread that has exited from its `stack_base`,
which is the address of the stack anchor, 16 bytes below the end of the page: it gives back
an address 16 bytes below the page. `advance_pages` says what an event can do to the pages, and
`PagesOk` is what all events but that one keep, as long as what is stored is stored in memory
that is in use.
-/

namespace RiscvKernel

open Lib

namespace Thread

variable {μ : Type}

/-! ## What an event does to the pages -/

/-- A call of `memory_alloc_page` or `memory_free_page` from outside `thread.c`. -/
def Event.movesPage : Event → Bool
  | .call .allocPage => true
  | .call (.freePage _) => true
  | _ => false

/-- What an event does to the memory manager and to the stacks. -/
inductive PageStep (a : PageAlloc μ) (s s' : Kernel μ) : Event → Prop
  | quiet {e : Event} (he : e.movesPage = false) (pages : s'.pages = s.pages)
      (allocated : s'.table.allocated = s.table.allocated)
      (stack : s'.table.stackBase = s.table.stackBase) : PageStep a s s' e
  | store {e : Event} (he : e.movesPage = false)
      (pages : s'.pages = storeAll a (stores a s e) s.pages) (table : s'.table = s.table) :
      PageStep a s s' e
  | thread {e : Event} (he : e.movesPage = false) (room : Room)
      (new : newThread a s.pages = .ok (room, s'.pages))
      (allocated : s'.table.allocated = s.table.allocated + 1)
      (stack : s'.table.stackBase =
        Function.update s.table.stackBase s.table.allocated (stackAnchor room.page)) :
      PageStep a s s' e
  | alloc (page : Nat) (pages : a.allocPage s.pages = some (page, s'.pages))
      (a0 : s'.a0 = page) (table : s'.table = s.table) : PageStep a s s' (.call .allocPage)
  | free (page : Nat) (pages : s'.pages = a.freePage page s.pages) (table : s'.table = s.table) :
      PageStep a s s' (.call (.freePage page))
  | release (prev : Ptr) (r : Ret) (pc : s.pc = .resumed prev r)
      (exited : s.lists.state prev = .exited)
      (pages : s'.pages = a.freePage (u64 ((s.table.stackBase prev : Int) - PAGE_SIZE)) s.pages) :
      PageStep a s s' .step

variable {a : PageAlloc μ} {s s' : Kernel μ}

theorem recycleThread_stack {t t' : Table} {l : Lists} {tid : Fin NTHR}
    (h : recycleThread t l tid = .ok t') :
    t'.allocated = t.allocated ∧ t'.stackBase = t.stackBase := by
  unfold recycleThread at h
  split at h
  · cases h
  · obtain ⟨-, -, h⟩ := bind_eq_ok h
    obtain ⟨-, -, h⟩ := bind_eq_ok h
    obtain rfl := Except.ok.inj h
    exact ⟨rfl, rfl⟩

theorem execute_pages {pc : Pc} (hs : s.pc = pc) (h : execute a s pc = .ok s') :
    PageStep a s s' .step := by
  have hquiet : ∀ {k : Kernel μ}, k.pages = s.pages → k.table = s.table →
      PageStep a s k .step := by
    intro k hp ht
    exact .quiet rfl hp (by rw [ht]) (by rw [ht])
  cases pc with
  | own => obtain rfl := Except.ok.inj h; exact hquiet rfl rfl
  | spawnInsert child =>
    obtain ⟨l, -, h⟩ := bind_eq_ok h
    obtain rfl := Except.ok.inj h
    exact hquiet rfl rfl
  | spawnSetup child => obtain rfl := Except.ok.inj h; exact hquiet rfl rfl
  | condWait c r =>
    obtain ⟨-, -, h⟩ := bind_eq_ok h
    obtain rfl := Except.ok.inj h
    exact hquiet rfl rfl
  | waitCond c r => obtain rfl := Except.ok.inj h; exact hquiet rfl rfl
  | waitNext c r => obtain rfl := Except.ok.inj h; exact hquiet rfl rfl
  | waitInsert c r =>
    obtain ⟨l, -, h⟩ := bind_eq_ok h
    obtain rfl := Except.ok.inj h
    exact hquiet rfl rfl
  | suspend r =>
    obtain ⟨-, -, h⟩ := bind_eq_ok h
    obtain rfl := Except.ok.inj h
    exact hquiet rfl rfl
  | dispatch r =>
    obtain ⟨l, -, h⟩ := bind_eq_ok h
    obtain rfl := Except.ok.inj h
    exact hquiet rfl rfl
  | spaceSwitch next r =>
    simp only [execute] at h
    split at h
    · obtain rfl := Except.ok.inj h; exact hquiet rfl rfl
    · obtain rfl := Except.ok.inj h; exact hquiet rfl rfl
  | swtch next r =>
    simp only [execute] at h
    split at h
    · obtain rfl := Except.ok.inj h; exact hquiet rfl rfl
    · cases h
  | resumed prev r =>
    obtain rfl := Except.ok.inj h
    unfold release
    split
    · next hexit => exact .release prev r hs hexit rfl
    · exact hquiet rfl rfl
  | wakeAll c exiting =>
    obtain ⟨l, -, h⟩ := bind_eq_ok h
    obtain rfl := Except.ok.inj h
    exact hquiet rfl rfl
  | exitBroadcast =>
    simp only [execute] at h
    split at h
    · cases h
    · split at h
      · obtain rfl := Except.ok.inj h; exact hquiet rfl rfl
      · obtain rfl := Except.ok.inj h; exact hquiet rfl rfl
  | exitFailed => cases h
  | joinLoop tid child =>
    simp only [execute] at h
    split at h
    · obtain ⟨t, ht, h⟩ := bind_eq_ok h
      obtain rfl := Except.ok.inj h
      obtain ⟨hn, hst⟩ := recycleThread_stack ht
      exact .quiet rfl rfl hn hst
    · obtain rfl := Except.ok.inj h; exact hquiet rfl rfl
  | joinAnyScan =>
    simp only [execute] at h
    split at h
    · obtain ⟨t, ht, h⟩ := bind_eq_ok h
      obtain rfl := Except.ok.inj h
      obtain ⟨hn, hst⟩ := recycleThread_stack ht
      exact .quiet rfl rfl hn hst
    · cases h
  | forkInsert child parent frame =>
    obtain ⟨l, -, h⟩ := bind_eq_ok h
    obtain rfl := Except.ok.inj h
    exact .store rfl (by simp only [stores, hs]) rfl
  | finishFork child frame =>
    obtain rfl := Except.ok.inj h
    exact .store rfl (by simp only [stores, hs]) rfl

theorem threadJoin_frame (s : Kernel μ) (tid : Int) :
    (threadJoin s tid).pages = s.pages ∧ (threadJoin s tid).table = s.table := by
  unfold threadJoin
  split
  · dsimp only
    split
    · exact ⟨rfl, rfl⟩
    · split
      · exact ⟨rfl, rfl⟩
      · exact ⟨rfl, rfl⟩
  · exact ⟨rfl, rfl⟩

theorem call_pages {op : Op} (h : call a s op = .ok s') : PageStep a s s' (.call op) := by
  have hquiet : ∀ {k : Kernel μ}, (Event.call op).movesPage = false → k.pages = s.pages →
      k.table = s.table → PageStep a s k (.call op) := by
    intro k he hp ht
    exact .quiet he hp (by rw [ht]) (by rw [ht])
  cases op with
  | spawn =>
    have h : threadSpawn a s = .ok s' := h
    unfold threadSpawn at h
    split at h
    · cases h
    · obtain ⟨⟨room, pages⟩, hnew, h⟩ := bind_eq_ok h
      obtain rfl := Except.ok.inj h
      exact .thread rfl room hnew rfl rfl
  | yield =>
    obtain ⟨-, -, h⟩ := bind_eq_ok h
    obtain rfl := Except.ok.inj h
    exact hquiet rfl rfl rfl
  | wait n => obtain rfl := Except.ok.inj h; exact hquiet rfl rfl rfl
  | broadcast n =>
    simp only [call] at h
    split at h
    · obtain rfl := Except.ok.inj h; exact hquiet rfl rfl rfl
    · obtain rfl := Except.ok.inj h; exact hquiet rfl rfl rfl
  | exit =>
    simp only [call] at h
    split at h
    · cases h
    · obtain rfl := Except.ok.inj h; exact hquiet rfl rfl rfl
  | join tid =>
    obtain rfl := Except.ok.inj h
    obtain ⟨hp, ht⟩ := threadJoin_frame s tid
    exact hquiet rfl hp ht
  | joinAny =>
    have h : threadJoinAny s = .ok s' := h
    unfold threadJoinAny at h
    split at h
    · next tid _ _ =>
      obtain rfl := Except.ok.inj h
      obtain ⟨hp, ht⟩ := threadJoin_frame s tid
      exact hquiet rfl hp ht
    · split at h
      · cases h
      · obtain rfl := Except.ok.inj h; exact hquiet rfl rfl rfl
  | fork f =>
    have h : threadForkToUser a s f = .ok s' := h
    unfold threadForkToUser at h
    obtain ⟨⟨room, pages⟩, hnew, h⟩ := bind_eq_ok h
    obtain rfl := Except.ok.inj h
    exact .thread rfl room hnew rfl rfl
  | allocPage =>
    simp only [call] at h
    split at h
    · cases h
    · next page pages halloc =>
      obtain rfl := Except.ok.inj h
      exact .alloc page halloc rfl rfl
  | freePage page =>
    obtain rfl := Except.ok.inj h
    exact .free page rfl rfl

theorem advance_pages {e : Event} (h : advance a s e = some (.ok s')) : PageStep a s s' e := by
  cases e with
  | isr n =>
    obtain ⟨l, -, hok⟩ := bind_eq_ok (Option.some.inj h)
    obtain rfl := Except.ok.inj hok
    exact .quiet rfl rfl rfl rfl
  | step =>
    simp only [advance] at h
    split at h
    · cases h
    · exact execute_pages rfl (Option.some.inj h)
  | call op =>
    simp only [advance] at h
    split at h
    · split at h
      · exact call_pages (Option.some.inj h)
      · cases h
    · cases h
  | write x v =>
    obtain rfl := Except.ok.inj (Option.some.inj h)
    exact .store rfl rfl rfl

/-! ## Who has which page -/

/-- The memory manager, and the pages that are handed out and not given back. -/
structure Ledger where
  phys : Phys
  out : List Nat

/-- The memory manager, with every page that it hands out entered in the ledger. -/
def ledgerAlloc : PageAlloc Ledger where
  kmalloc size g :=
    match g.phys.kmalloc size with
    | none => none
    | some (addr, m) =>
      -- a request that does not fit in the block of the heap takes a page
      some (addr, ⟨m, if Phys.heapSize size ≤ g.phys.heapEnd - g.phys.heapStart then g.out
        else g.phys.freeList :: g.out⟩)
  allocPage g :=
    match g.phys.memoryAllocPage with
    | none => none
    | some (page, m) => some (page, ⟨m, page :: g.out⟩)
  freePage page g := ⟨g.phys.memoryFreePage page, g.out.erase page⟩
  freeList g := g.phys.freeList
  store x v g := { g with phys := g.phys.store x (BitVec.ofNat 64 v) }

/-- The free pages and those that are handed out are different pages. -/
structure PagesOk (base : Nat) (g : Ledger) (l : List Nat) : Prop where
  free : g.phys.Free l
  page : ∀ p ∈ l ++ g.out, Phys.IsPage base p
  nodup : (l ++ g.out).Nodup

variable {base : Nat} {g g' : Ledger} {l : List Nat}

theorem PagesOk.perm (h : PagesOk base g l) {l' : List Nat} (hfree : g'.phys.Free l')
    (hperm : (l' ++ g'.out).Perm (l ++ g.out)) : PagesOk base g' l' :=
  ⟨hfree, fun p hp => h.page p (hperm.mem_iff.mp hp), hperm.nodup_iff.mpr h.nodup⟩

theorem PagesOk.kmalloc (h : PagesOk base g l) {size addr : Nat}
    (hk : ledgerAlloc.kmalloc size g = some (addr, g')) :
    ∃ l', PagesOk base g' l' ∧ ∀ p ∈ g.out, p ∈ g'.out := by
  simp only [ledgerAlloc] at hk
  split at hk
  · cases hk
  · next addr m hm =>
    obtain ⟨-, rfl⟩ := Prod.mk.inj (Option.some.inj hk)
    obtain ⟨-, hfree⟩ := Phys.kmalloc_some h.free hm
    split at hfree
    · next hfit =>
      refine ⟨l, h.perm hfree ?_, ?_⟩
      · rw [if_pos hfit]
      · intro p hp
        rwa [if_pos hfit]
    · next hfit =>
      obtain ⟨k, rfl, hfree⟩ := hfree
      refine ⟨k, h.perm hfree ?_, ?_⟩
      · rw [if_neg hfit]
        exact List.perm_middle
      · intro p hp
        rw [if_neg hfit]
        exact List.mem_cons_of_mem _ hp

theorem PagesOk.allocPage (h : PagesOk base g l) {page : Nat}
    (hk : ledgerAlloc.allocPage g = some (page, g')) :
    ∃ l', PagesOk base g' l' ∧ g'.out = page :: g.out ∧ page ∉ g.out := by
  simp only [ledgerAlloc] at hk
  split at hk
  · cases hk
  · next p m hm =>
    obtain ⟨rfl, rfl⟩ := Prod.mk.inj (Option.some.inj hk)
    cases l with
    | nil =>
      rw [Phys.memoryAllocPage_nil h.free] at hm
      cases hm
    | cons q k =>
      obtain ⟨m', hm', hfree, -⟩ := Phys.memoryAllocPage_cons h.free
      rw [hm'] at hm
      obtain ⟨rfl, rfl⟩ := Prod.mk.inj (Option.some.inj hm)
      refine ⟨k, h.perm hfree List.perm_middle, rfl, fun hq => ?_⟩
      exact (List.nodup_append.mp h.nodup).2.2 q List.mem_cons_self q hq rfl

theorem PagesOk.freePage (h : PagesOk base g l) (hbase : base ≠ 0) {page : Nat}
    (hpage : page ∈ g.out) : PagesOk base (ledgerAlloc.freePage page g) (page :: l) := by
  have hnot : page ∉ l := fun hl => (List.nodup_append.mp h.nodup).2.2 page hl page hpage rfl
  refine h.perm (Phys.memoryFreePage_free h.free (fun q hq => ?_) ?_ hnot) ?_
  · exact (h.page q (List.mem_append_left _ hq)).lt_end
  · have hle := (h.page page (List.mem_append_right l hpage)).base_le
    omega
  · exact List.perm_middle.symm.trans (List.Perm.append_left l (List.perm_cons_erase hpage).symm)

/-- The word at `x` is below the free pages at boot, or in a page that is handed out. -/
def InUse (base : Nat) (g : Ledger) (x : Nat) : Prop :=
  x < base ∨ x / PAGE_SIZE * PAGE_SIZE ∈ g.out

instance (base : Nat) (g : Ledger) (x : Nat) : Decidable (InUse base g x) :=
  inferInstanceAs (Decidable (_ ∨ _))

/-- What is stored outside the free pages does not matter. -/
theorem PagesOk.store (h : PagesOk base g l) {x v : Nat} (hx : InUse base g x) :
    PagesOk base (ledgerAlloc.store x v g) l := by
  refine h.perm (h.free.congr rfl fun q hq => ?_) (List.Perm.refl _)
  have hpage := h.page q (List.mem_append_left _ hq)
  have hne : q ≠ x := by
    rintro rfl
    rcases hx with hlt | hout
    · have := hpage.base_le
      omega
    · -- a free page is its own page, and it is not handed out
      have hself : q / PAGE_SIZE * PAGE_SIZE = q :=
        Nat.div_mul_cancel (Nat.dvd_of_mod_eq_zero hpage.aligned)
      rw [hself] at hout
      exact (List.nodup_append.mp h.nodup).2.2 q hq q hout rfl
  exact Function.update_of_ne hne ..

theorem storeAll_out (ws : List (Nat × Nat)) (g : Ledger) :
    (storeAll ledgerAlloc ws g).out = g.out := by
  induction ws generalizing g with
  | nil => rfl
  | cons w ws ih => exact ih _

theorem PagesOk.storeAll (h : PagesOk base g l) {ws : List (Nat × Nat)}
    (hws : ∀ w ∈ ws, InUse base g w.1) : PagesOk base (Thread.storeAll ledgerAlloc ws g) l := by
  induction ws generalizing g with
  | nil => exact h
  | cons w ws ih =>
    exact ih (h.store (hws w List.mem_cons_self)) fun w' hw' => hws w' (List.mem_cons_of_mem w hw')

/-! ## Runs -/

/-- The kernel, and the pages that callers of `memory_alloc_page` hold. -/
structure World where
  kernel : Kernel Ledger
  held : List Nat

/-- An event of the thread machine, or another request to the heap. -/
inductive Action where
  | event (e : Event)
  | kmalloc (size : Nat)

/-- `memory_free_page` is called for a page that the caller was given and still has, and code
outside `thread.c` stores in memory that is in use. -/
def MayOccur (base : Nat) (w : World) : Event → Bool
  | .call (.freePage page) => page ∈ w.held
  | .write x _ => InUse base w.kernel.pages x
  | _ => true

def heldAfter (held : List Nat) (a0 : Int) : Event → List Nat
  | .call .allocPage => a0.toNat :: held
  | .call (.freePage page) => held.erase page
  | _ => held

/-- What one action does; `none` if it cannot occur or if the kernel stops. -/
def act (base : Nat) (w : World) : Action → Option World
  | .event e =>
    if MayOccur base w e then
      (next ledgerAlloc w.kernel e).map fun s => ⟨s, heldAfter w.held s.a0 e⟩
    else none
  | .kmalloc size =>
    (ledgerAlloc.kmalloc size w.kernel.pages).map fun r =>
      { w with kernel := { w.kernel with pages := r.2 } }

/-- The next step of the running thread is the release of the stack of a thread that has
exited. -/
def Releases (w : World) : Action → Bool
  | .event .step =>
    match w.kernel.pc with
    | .resumed prev _ => w.kernel.lists.state prev = .exited
    | _ => false
  | _ => false

/-- An event other than a release stores a word over a thread, or outside of the memory that is
in use: a fork whose saved `tp` is no thread, or whose copy of the stack leaves the page of the
child. -/
def Strays (base : Nat) (w : World) : Action → Prop
  | .event e => Releases w (.event e) = false ∧ ¬(Spares ledgerAlloc w.kernel e ∧
      (e = .step → ∀ v ∈ stores ledgerAlloc w.kernel e, InUse base w.kernel.pages v.1))
  | .kmalloc _ => False

/-- The stack page of a thread, from the address of its anchor. -/
def stackPage (t : Table) (p : Ptr) : Nat := t.stackBase p - (PAGE_SIZE - ANCHOR_SIZE)

/-- The integrity of the free list: it ends, it holds pages, each of them once, and none that
is handed out or is the stack of a live thread. -/
def FreeIntegrity (base : Nat) (w : World) : Prop :=
  ∃ l, w.kernel.pages.phys.Free l ∧ l.Nodup ∧ ∀ p ∈ l, Phys.IsPage base p ∧
    p ∉ w.kernel.pages.out ∧ p ∉ w.held ∧
    ∀ t, 2 ≤ t → t < w.kernel.table.allocated → w.kernel.lists.state t ≠ .exited →
      p ≠ stackPage w.kernel.table t

/-- What holds until a stack is released. -/
structure WorldOk (base : Nat) (w : World) (l : List Nat) : Prop where
  pages : PagesOk base w.kernel.pages l
  held : ∀ p ∈ w.held, p ∈ w.kernel.pages.out
  held_nodup : w.held.Nodup
  stack : ∀ t, 2 ≤ t → t < w.kernel.table.allocated → ∃ page ∈ w.kernel.pages.out,
    page ∉ w.held ∧ w.kernel.table.stackBase t = stackAnchor page

variable {w w' : World}

theorem WorldOk.integrity (h : WorldOk base w l) : FreeIntegrity base w := by
  have hdisj : ∀ p ∈ l, p ∉ w.kernel.pages.out := fun p hp hout =>
    (List.nodup_append.mp h.pages.nodup).2.2 p hp p hout rfl
  refine ⟨l, h.pages.free, (List.nodup_append.mp h.pages.nodup).1, fun p hp => ⟨?_, hdisj p hp, ?_,
    ?_⟩⟩
  · exact h.pages.page p (List.mem_append_left _ hp)
  · exact fun hheld => hdisj p hp (h.held p hheld)
  · intro t ht hlt _ heq
    obtain ⟨page, hout, -, hstack⟩ := h.stack t ht hlt
    have hpage : stackPage w.kernel.table t = page := by
      unfold stackPage
      rw [hstack]
      unfold stackAnchor PAGE_SIZE ANCHOR_SIZE
      omega
    rw [heq, hpage] at hp
    exact hdisj page hp hout

theorem heldAfter_eq {held : List Nat} {a0 : Int} {e : Event} (he : e.movesPage = false) :
    heldAfter held a0 e = held := by
  unfold heldAfter
  split
  · cases he
  · cases he
  · rfl

/-- A new thread takes pages from the list, and its stack is a page of its own. -/
theorem WorldOk.thread (h : WorldOk base w l) {room : Room} {k : Kernel Ledger}
    (hnew : newThread ledgerAlloc w.kernel.pages = .ok (room, k.pages))
    (halloc : k.table.allocated = w.kernel.table.allocated + 1)
    (hstack : k.table.stackBase = Function.update w.kernel.table.stackBase
      w.kernel.table.allocated (stackAnchor room.page)) :
    ∃ l', WorldOk base ⟨k, w.held⟩ l' := by
  unfold newThread at hnew
  split at hnew
  · cases hnew
  · next addr g hk =>
    split at hnew
    · cases hnew
    · next page g' ha =>
      obtain ⟨rfl, rfl⟩ := Prod.mk.inj (Except.ok.inj hnew)
      obtain ⟨l₁, hg, hsub⟩ := h.pages.kmalloc hk
      obtain ⟨l₂, hg', hout, hnot⟩ := hg.allocPage ha
      have hmono : ∀ p ∈ w.kernel.pages.out, p ∈ k.pages.out := by
        intro p hp
        rw [hout]
        exact List.mem_cons_of_mem page (hsub p hp)
      refine ⟨l₂, hg', fun p hp => hmono p (h.held p hp), h.held_nodup, ?_⟩
      intro t ht hlt
      show ∃ p ∈ k.pages.out, p ∉ w.held ∧ k.table.stackBase t = stackAnchor p
      rw [hstack]
      by_cases htn : t = w.kernel.table.allocated
      · subst htn
        refine ⟨page, ?_, fun hp => hnot (hsub page (h.held page hp)), Function.update_self ..⟩
        rw [hout]
        exact List.mem_cons_self
      · have hlt' : t < w.kernel.table.allocated :=
          Nat.lt_of_le_of_ne (Nat.le_of_lt_succ (Nat.lt_of_lt_of_eq hlt halloc)) htn
        obtain ⟨p, hp, hnp, hst⟩ := h.stack t ht hlt'
        exact ⟨p, hmono p hp, hnp, (Function.update_of_ne htn ..).trans hst⟩

theorem WorldOk.alloc (h : WorldOk base w l) {page : Nat} {k : Kernel Ledger}
    (hpages : ledgerAlloc.allocPage w.kernel.pages = some (page, k.pages))
    (htable : k.table = w.kernel.table) : ∃ l', WorldOk base ⟨k, page :: w.held⟩ l' := by
  obtain ⟨l', hg, hout, hnot⟩ := h.pages.allocPage hpages
  refine ⟨l', hg, ?_, List.nodup_cons.mpr ⟨fun hp => hnot (h.held page hp), h.held_nodup⟩, ?_⟩
  · intro p hp
    show p ∈ k.pages.out
    rw [hout]
    rcases List.mem_cons.mp hp with rfl | hp
    · exact List.mem_cons_self
    · exact List.mem_cons_of_mem page (h.held p hp)
  · intro t ht hlt
    show ∃ p ∈ k.pages.out, p ∉ page :: w.held ∧ k.table.stackBase t = stackAnchor p
    rw [htable, hout]
    obtain ⟨p, hp, hnp, hst⟩ := h.stack t ht (by rw [← htable]; exact hlt)
    refine ⟨p, List.mem_cons_of_mem page hp, fun hmem => ?_, hst⟩
    rcases List.mem_cons.mp hmem with rfl | hmem
    · exact hnot hp
    · exact hnp hmem

theorem WorldOk.free (h : WorldOk base w l) (hbase : base ≠ 0) {page : Nat} (hpage : page ∈ w.held)
    {k : Kernel Ledger} (hpages : k.pages = ledgerAlloc.freePage page w.kernel.pages)
    (htable : k.table = w.kernel.table) : ∃ l', WorldOk base ⟨k, w.held.erase page⟩ l' := by
  have hg := h.pages.freePage hbase (h.held page hpage)
  have hnodup : w.kernel.pages.out.Nodup := (List.nodup_append.mp h.pages.nodup).2.1
  have hout : k.pages.out = w.kernel.pages.out.erase page := by
    rw [hpages]
    rfl
  refine ⟨page :: l, by rw [hpages]; exact hg, ?_, h.held_nodup.erase page, ?_⟩
  · intro p hp
    show p ∈ k.pages.out
    obtain ⟨hne, hp⟩ := (h.held_nodup.mem_erase_iff).mp hp
    rw [hout]
    exact (hnodup.mem_erase_iff).mpr ⟨hne, h.held p hp⟩
  · intro t ht hlt
    show ∃ p ∈ k.pages.out, p ∉ w.held.erase page ∧ k.table.stackBase t = stackAnchor p
    obtain ⟨p, hp, hnp, hst⟩ := h.stack t ht (by rw [← htable]; exact hlt)
    rw [htable, hout]
    refine ⟨p, (hnodup.mem_erase_iff).mpr ⟨?_, hp⟩, fun hmem => hnp (List.mem_of_mem_erase hmem),
      hst⟩
    rintro rfl
    exact hnp hpage

/-- What is stored in memory that is in use keeps the pages in order. -/
theorem WorldOk.stored (h : WorldOk base w l) {ws : List (Nat × Nat)} {k : Kernel Ledger}
    (hws : ∀ v ∈ ws, InUse base w.kernel.pages v.1)
    (hpages : k.pages = storeAll ledgerAlloc ws w.kernel.pages) (htable : k.table = w.kernel.table) :
    WorldOk base ⟨k, w.held⟩ l := by
  have hout : k.pages.out = w.kernel.pages.out := by
    rw [hpages]
    exact storeAll_out ..
  refine ⟨?_, ?_, h.held_nodup, ?_⟩
  · show PagesOk base k.pages l
    rw [hpages]
    exact h.pages.storeAll hws
  · show ∀ p ∈ w.held, p ∈ k.pages.out
    rw [hout]
    exact h.held
  · show ∀ t, 2 ≤ t → t < k.table.allocated → ∃ page ∈ k.pages.out,
      page ∉ w.held ∧ k.table.stackBase t = stackAnchor page
    rw [hout, htable]
    exact h.stack

theorem releases_step {prev : Ptr} {r : Ret} (hpc : w.kernel.pc = .resumed prev r)
    (hexit : w.kernel.lists.state prev = .exited) : Releases w (.event .step) = true := by
  simp only [Releases, hpc, hexit, decide_true]

/-- An event that is no release and does not stray keeps the pages in order. -/
theorem event_ok (h : WorldOk base w l) (hbase : base ≠ 0) {e : Event}
    (hnot : Releases w (.event e) = false) (hstray : ¬Strays base w (.event e))
    (hmay : MayOccur base w e = true) {s : Kernel Ledger}
    (hstep : step ledgerAlloc w.kernel e = some (.ok s)) :
    ∃ l', WorldOk base ⟨s, heldAfter w.held s.a0 e⟩ l' := by
  obtain ⟨hspare, huse⟩ : Spares ledgerAlloc w.kernel e ∧
      (e = .step → ∀ v ∈ stores ledgerAlloc w.kernel e, InUse base w.kernel.pages v.1) := by
    by_contra hbad
    exact hstray ⟨hnot, hbad⟩
  rw [step_eq_advance hspare] at hstep
  cases advance_pages hstep with
  | quiet he hpages halloc hstack =>
    rw [heldAfter_eq he]
    refine ⟨l, ?_, ?_, h.held_nodup, ?_⟩
    · rw [hpages]
      exact h.pages
    · rw [hpages]
      exact h.held
    · show ∀ t, 2 ≤ t → t < s.table.allocated → ∃ page ∈ s.pages.out,
        page ∉ w.held ∧ s.table.stackBase t = stackAnchor page
      rw [hpages, halloc, hstack]
      exact h.stack
  | store he hpages htable =>
    rw [heldAfter_eq he]
    refine ⟨l, h.stored ?_ hpages htable⟩
    cases e with
    | step => exact huse rfl
    | write x v =>
      intro u hu
      obtain rfl := List.mem_singleton.mp hu
      exact of_decide_eq_true hmay
    | isr n => nofun
    | call op =>
      cases op with
      | freePage page => cases he
      | _ => nofun
  | thread he room hnew halloc hstack =>
    rw [heldAfter_eq he]
    exact h.thread hnew halloc hstack
  | alloc page hpages ha0 htable =>
    have hheld : heldAfter w.held s.a0 (.call .allocPage) = page :: w.held := by
      rw [ha0]
      rfl
    rw [hheld]
    exact h.alloc hpages htable
  | free page hpages htable => exact h.free hbase (of_decide_eq_true hmay) hpages htable
  | release prev r hpc hexit hpages =>
    rw [releases_step hpc hexit] at hnot
    cases hnot

theorem act_event {e : Event} (hact : act base w (.event e) = some w') :
    MayOccur base w e = true ∧ ∃ s, step ledgerAlloc w.kernel e = some (.ok s) ∧
      w' = ⟨s, heldAfter w.held s.a0 e⟩ := by
  simp only [act] at hact
  split at hact
  · next hmay =>
    obtain ⟨s, hs, rfl⟩ := Option.map_eq_some_iff.mp hact
    exact ⟨hmay, s, next_eq_some.mp hs, rfl⟩
  · cases hact

/-- Every action but the release of a stack and stray stores keeps the pages in order. -/
theorem act_ok (hbase : base ≠ 0) (w : World) (x : Action) (w' : World)
    (h : ∃ l, WorldOk base w l) (hx : Releases w x = false ∧ ¬Strays base w x)
    (hact : act base w x = some w') : ∃ l', WorldOk base w' l' := by
  obtain ⟨l, h⟩ := h
  cases x with
  | event e =>
    obtain ⟨hmay, s, hstep, rfl⟩ := act_event hact
    exact event_ok h hbase hx.1 hx.2 hmay hstep
  | kmalloc size =>
    obtain ⟨⟨addr, g⟩, hk, rfl⟩ := Option.map_eq_some_iff.mp hact
    obtain ⟨l', hg, hsub⟩ := h.pages.kmalloc hk
    refine ⟨l', hg, fun p hp => hsub p (h.held p hp), h.held_nodup, fun t ht hlt => ?_⟩
    obtain ⟨p, hp, hnp, hst⟩ := h.stack t ht hlt
    exact ⟨p, hsub p hp, hnp, hst⟩

/-! ## The release -/

/-- `suspend_self` gives back an address 16 bytes below the stack page. -/
theorem released_address {page : Nat} (hpage : Phys.IsPage base page) (hbase : base ≠ 0) :
    u64 ((stackAnchor page : Int) - PAGE_SIZE) = page - 16 := by
  obtain ⟨haligned, hle, hlt⟩ := hpage
  unfold PAGE_SIZE at haligned
  unfold RAM_END RAM_START at hlt
  refine u64_eq ?_ (by omega)
  unfold stackAnchor PAGE_SIZE ANCHOR_SIZE
  omega

/-- After that the free list is not in order. -/
theorem not_integrity_of_release {page : Nat} (hpage : Phys.IsPage base page) (hbase : base ≠ 0)
    (hhead : w.kernel.pages.phys.freeList = page - 16) : ¬FreeIntegrity base w := by
  rintro ⟨l, hfree, -, hl⟩
  have haligned := hpage.aligned
  have hle := hpage.base_le
  unfold PAGE_SIZE at haligned
  have hne : w.kernel.pages.phys.freeList ≠ 0 := by omega
  obtain ⟨k, rfl, -⟩ := (spells_iff_cons hne).mp hfree
  have hbad := (hl _ List.mem_cons_self).1.aligned
  unfold PAGE_SIZE at hbad
  omega

/-- A spawn or fork that does not meet its condition. -/
def Careless (w : World) : Action → Prop
  | .event e => ¬Meets w.kernel e
  | _ => False

variable {mem : Condition → Chain Ptr} {q : Queues Condition Ptr} {transit : Option Ptr}

/-- The scheduler invariant is kept by actions that are neither careless nor stray. -/
theorem act_inv (h : Inv mem w.kernel q transit) {x : Action} (hcare : ¬Careless w x)
    (hx : Releases w x = false ∧ ¬Strays base w x) (hact : act base w x = some w') :
    ∃ q' transit', Inv mem w'.kernel q' transit' := by
  cases x with
  | event e =>
    obtain ⟨-, s, hstep, rfl⟩ := act_event hact
    refine step_fine h ⟨not_not.mp hcare, ?_⟩ hstep
    by_contra hbad
    exact hx.2 ⟨hx.1, fun hspare => hbad hspare.1⟩
  | kmalloc size =>
    obtain ⟨g, -, rfl⟩ := Option.map_eq_some_iff.mp hact
    exact ⟨q, transit, h.lists, h.idle, h.table, h.cur, h.parked, h.pc⟩

/-- A release of a stack takes place, and it breaks the free list. -/
theorem release_breaks (h : WorldOk base w l) (hbase : base ≠ 0) (hinv : Inv mem w.kernel q transit)
    {x : Action} (hrel : Releases w x = true) :
    ∃ w', act base w x = some w' ∧ ¬FreeIntegrity base w' := by
  unfold Releases at hrel
  split at hrel
  · split at hrel
    · next prev r hpc =>
      have hexit := of_decide_eq_true hrel
      obtain ⟨-, -, hlt, hspawned⟩ := hinv.at_pc hpc
      obtain ⟨page, hout, -, hstack⟩ := h.stack prev (hspawned hexit) hlt
      have hpage := h.pages.page page (List.mem_append_right l hout)
      set k := (stores ledgerAlloc w.kernel .step).foldl poke
        { release ledgerAlloc w.kernel prev with pc := Ret.pc r } with hk
      have hstep : step ledgerAlloc w.kernel .step = some (.ok k) := by
        simp only [step, advance, hpc, execute]
        rfl
      have hact : act base w (.event .step) = some ⟨k, w.held⟩ := by
        simp only [act, MayOccur, if_true, next_eq_some.mpr hstep]
        rfl
      refine ⟨_, hact, not_integrity_of_release hpage hbase ?_⟩
      show k.pages.phys.freeList = page - 16
      rw [hk, (foldl_poke_frame _ _).2.2.2]
      show (release ledgerAlloc w.kernel prev).pages.phys.freeList = page - 16
      unfold release
      rw [if_pos hexit, hstack]
      exact released_address hpage hbase
    · cases hrel
  · cases hrel

theorem never_of_throughout {xs : List Action} (h : WorldOk base w l) (hbase : base ≠ 0)
    (hinv : Inv mem w.kernel q transit)
    (hcare : Steps (act base) (fun w x => ¬Careless w x ∧ ¬Strays base w x) w xs)
    (hint : Throughout (act base) (FreeIntegrity base) w xs) :
    Steps (act base) (fun w x => Releases w x = false) w xs := by
  induction xs generalizing w l q transit with
  | nil => trivial
  | cons x xs ih =>
    have hnot : Releases w x = false := by
      by_contra hrel
      obtain ⟨w', hact, hbad⟩ := release_breaks h hbase hinv (Bool.eq_true_of_not_eq_false hrel)
      exact hbad (hint.2 w' hact).head
    refine ⟨hnot, fun w' hact => ?_⟩
    obtain ⟨l', h'⟩ := act_ok hbase w x w' ⟨l, h⟩ ⟨hnot, hcare.1.2⟩ hact
    obtain ⟨q', transit', hinv'⟩ := act_inv hinv hcare.1.1 ⟨hnot, hcare.1.2⟩ hact
    exact ih h' hinv' (hcare.2 w' hact) (hint.2 w' hact)

/-- The kernel after `memory_init` and `thread_init`. -/
def boot (m : Phys) (lists : Lists) (table : Table) : World :=
  ⟨threadInit lists table ⟨m, []⟩, []⟩

theorem boot_integrity_iff {m : Phys} {lists : Lists} {table : Table} :
    FreeIntegrity base (boot m lists table) ↔
      ∃ l, m.Free l ∧ l.Nodup ∧ ∀ p ∈ l, Phys.IsPage base p := by
  constructor
  · rintro ⟨l, hfree, hnodup, hl⟩
    exact ⟨l, hfree, hnodup, fun p hp => (hl p hp).1⟩
  · rintro ⟨l, hfree, hnodup, hl⟩
    refine ⟨l, hfree, hnodup, fun p hp => ⟨hl p hp, List.not_mem_nil, List.not_mem_nil, ?_⟩⟩
    intro t ht hlt
    exact absurd hlt (Nat.not_lt.mpr ht)

theorem boot_ok {m : Phys} {lists : Lists} {table : Table} (hfree : m.Free l) (hnodup : l.Nodup)
    (hl : ∀ p ∈ l, Phys.IsPage base p) : WorldOk base (boot m lists table) l := by
  refine ⟨⟨hfree, ?_, ?_⟩, nofun, List.nodup_nil, ?_⟩
  · intro p hp
    exact hl p (by simpa [boot, threadInit] using hp)
  · simpa [boot, threadInit] using hnodup
  · intro t ht hlt
    exact absurd hlt (Nat.not_lt.mpr ht)

instance (base : Nat) (w : World) (x : Action) : Decidable (Strays base w x) :=
  match x with
  | .event e => inferInstanceAs (Decidable (_ ∧ ¬(_ ∧ (e = .step → ∀ v ∈ stores _ _ e, _))))
  | .kmalloc _ => inferInstanceAs (Decidable False)

/-- The main thread spawns a thread and yields. -/
def spawnAndYield : List Action := (calls .spawn 2 ++ calls .yield 4).map .event

end Thread

end RiscvKernel
