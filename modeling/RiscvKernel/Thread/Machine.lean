import RiscvKernel.Lib.CInt
import RiscvKernel.Memory.Phys
import RiscvKernel.Thread.Lists

/-!
# Threads

`thread.c` and the context switches of `thrasm.s`, as a machine of small steps: a step is
a statement that the running thread executes, or a section that it executes with
interrupts disabled. Between any two steps an interrupt handler may broadcast a
condition. The program counter `Pc` says where in `thread.c` the running thread is;
`resume` says where the others go on when they are switched to.

* A fresh `struct thread` holds what its memory held before: nothing is cleared.
* The structures have addresses. `advance` is what an event does to the threads that it is
  about; the words that it stores elsewhere (`stores`: the link of a page that is freed, the
  copy of a kernel stack, a parent that is no thread) go over the members of whatever
  structures lie there (`poke`), and `step` is both.
* `thread_fork_to_user` takes the parent from the saved user register `tp`, whatever it is.
* The page allocator and the heap are a parameter (`PageAlloc`). The registers that a thread
  has saved are not modelled; `resume` stands for them.
-/

namespace RiscvKernel

open Lib

/-- `NTHR` -/
abbrev NTHR : Nat := 16

instance : NeZero NTHR := ⟨by decide⟩

theorem toNat_lt_NTHR {tid : Int} (h : 0 < tid ∧ tid < NTHR) : tid.toNat < NTHR := by
  have := h.2
  omega

def MAIN_TID : Fin NTHR := 0
def IDLE_TID : Fin NTHR := 15

/-- `sizeof(struct thread)` -/
def THREAD_SIZE : Nat := 200

/-- `sizeof(struct thread_stack_anchor)` -/
def ANCHOR_SIZE : Nat := 16

/-- What the thread code uses of the memory manager: `kmalloc`, `memory_alloc_page` and
`memory_free_page`, where `none` is a panic; the head of the free list, which becomes the link
of the next page that is freed; and a store to memory. -/
structure PageAlloc (μ : Type) where
  kmalloc : Nat → μ → Option (Nat × μ)
  allocPage : μ → Option (Nat × μ)
  freePage : Nat → μ → μ
  freeList : μ → Nat
  store : Nat → Nat → μ → μ

namespace Thread

/-! ## The state -/

/-- The members of `struct thread` that the lists do not use, one column for each, `thrtab`,
and the addresses of the structures. The first `allocated` structures exist. `vars` are the
addresses of the words in which `thread.c` keeps `thrtab` and `ready_list` and in which the wait
lists of conditions outside of the structures are. -/
structure Table where
  thrtab : Fin NTHR → Option Ptr
  addr : Ptr → Nat
  id : Ptr → Int
  parent : Ptr → Option Ptr
  proc : Ptr → Option Nat
  stackBase : Ptr → Nat
  stackSize : Ptr → Nat
  allocated : Nat
  vars : List Nat

/-- Where `suspend_self` returns to: the code outside `thread.c`, the loop of
`thread_join`, the second loop of `thread_join_any`, or `thread_exit`. -/
inductive Ret where
  | own
  | join (tid : Fin NTHR) (child : Ptr)
  | joinAny
  | exit
  deriving DecidableEq

/-- Where a thread that is not running goes on. A new thread starts, and the parent of a
fork returns from `_thread_finish_fork`. -/
inductive Resume where
  | start
  | forked
  | suspended (r : Ret)
  deriving DecidableEq

/-- Where in `thread.c` the running thread is. -/
inductive Pc where
  | own
  | spawnInsert (child : Ptr)
  | spawnSetup (child : Ptr)
  | condWait (c : Condition) (r : Ret)
  | waitCond (c : Condition) (r : Ret)
  | waitNext (c : Condition) (r : Ret)
  | waitInsert (c : Condition) (r : Ret)
  | suspend (r : Ret)
  | dispatch (r : Ret)
  | spaceSwitch (next : Ptr) (r : Ret)
  | swtch (next : Ptr) (r : Ret)
  | resumed (prev : Ptr) (r : Ret)
  | wakeAll (c : Condition) (exiting : Bool)
  | exitBroadcast
  | exitFailed
  | joinLoop (tid : Fin NTHR) (child : Ptr)
  | joinAnyScan
  | forkInsert (child parent : Ptr) (frame : List Nat)
  | finishFork (child : Ptr) (frame : List Nat)
  deriving DecidableEq

/-- The kernel as far as threads are concerned. `satp` is the active memory space, `a0` what
the last call returned, `pages` the state of the memory manager. -/
structure Kernel (μ : Type) where
  lists : Lists
  table : Table
  cur : Ptr
  pc : Pc
  resume : Ptr → Resume
  satp : Nat
  a0 : Int
  pages : μ

/-- What `sysfork` passes to `thread_fork_to_user`: the saved user register `tp`, the
process, the old value of `child_proc->tid`, and the words of the kernel stack that
`_thread_finish_fork` copies, from its base down. -/
structure ForkArgs where
  tp : Nat
  proc : Nat
  procTid : Int
  frame : List Nat
  deriving DecidableEq

/-- What a thread calls. -/
inductive Op where
  | spawn
  | yield
  | wait (n : Nat)
  | broadcast (n : Nat)
  | exit
  | join (tid : Int)
  | joinAny
  | fork (f : ForkArgs)
  | allocPage
  | freePage (page : Nat)
  deriving DecidableEq

/-- An interrupt handler broadcasts a condition, the running thread makes its next step in
`thread.c`, it calls a function, or code outside `thread.c` stores a word, on its stack or in
other memory. -/
inductive Event where
  | isr (n : Nat)
  | step
  | call (op : Op)
  | write (x v : Nat)
  deriving DecidableEq

variable {μ : Type}

/-! ## The functions -/

/-- Where the running thread is when `suspend_self` has returned. -/
def Ret.pc : Ret → Pc
  | .own => .own
  | .join tid child => .joinLoop tid child
  | .joinAny => .joinAnyScan
  | .exit => .exitFailed

/-- The slot of `thrtab` that `thread_spawn` takes: the first empty one after that of
`main_thread`. -/
def spawnSlot (t : Table) : Option (Fin NTHR) :=
  (List.finRange NTHR).find? fun tid => tid ≠ 0 ∧ t.thrtab tid = none

/-- The slot that `thread_fork_to_user` takes. -/
def forkSlot (t : Table) : Option (Fin NTHR) :=
  (List.finRange NTHR).find? fun tid => t.thrtab tid = none

/-- The stack anchor at the end of a stack page: `stack_base` of its thread. -/
def stackAnchor (page : Nat) : Nat := page + PAGE_SIZE - ANCHOR_SIZE

/-- What a new thread gets: the address of its `struct thread` and the page of its stack. -/
structure Room where
  addr : Nat
  page : Nat

/-- Fill in a new `struct thread`. Its other members keep what the memory held. -/
def Table.fill (t : Table) (child : Ptr) (id : Int) (parent : Ptr) (proc : Option Nat)
    (room : Room) : Table :=
  { t with
    addr := Function.update t.addr child room.addr
    id := Function.update t.id child id
    parent := Function.update t.parent child (some parent)
    proc := Function.update t.proc child proc
    stackBase := Function.update t.stackBase child (stackAnchor room.page)
    stackSize := Function.update t.stackSize child (stackAnchor room.page - room.page)
    allocated := child + 1 }

/-- A `struct thread` and a page for its stack. -/
def newThread (a : PageAlloc μ) (pages : μ) : Except Stop (Room × μ) :=
  match a.kmalloc THREAD_SIZE pages with
  | none => .error .panic
  | some (addr, pages) =>
    match a.allocPage pages with
    | none => .error .panic
    | some (page, pages) => .ok (⟨addr, page⟩, pages)

/-- The thread at an address. An address at which there is none is a pointer behind all of those
that threads can have. -/
def Table.threadAt (t : Table) (x : Nat) : Ptr :=
  ((List.range t.allocated).find? fun p => t.addr p = x).getD (2 ^ 64 + x)

/-- `thread_spawn` up to the insertion into the ready list. -/
def threadSpawn (a : PageAlloc μ) (s : Kernel μ) : Except Stop (Kernel μ) :=
  match spawnSlot s.table with
  | none => .error .panic
  | some tid => do
    let (room, pages) ← newThread a s.pages
    let child := s.table.allocated
    let table := s.table.fill child tid s.cur (s.table.proc s.cur) room
    return { s with
      pages := pages
      table := { table with thrtab := Function.update table.thrtab tid (some child) }
      lists := s.lists.setState child .ready
      a0 := tid
      pc := .spawnInsert child }

/-- `thread_fork_to_user` up to the insertion of the parent into the ready list. Without an
empty slot, `child_proc->tid` keeps its old value and the child is in no slot. -/
def threadForkToUser (a : PageAlloc μ) (s : Kernel μ) (f : ForkArgs) :
    Except Stop (Kernel μ) := do
  let (room, pages) ← newThread a s.pages
  let child := s.table.allocated
  let parent := s.table.threadAt f.tp
  let (id, thrtab) := match forkSlot s.table with
    | some tid => ((tid : Int), Function.update s.table.thrtab tid (some child))
    | none => (f.procTid, s.table.thrtab)
  return { s with
    pages := pages
    table := { s.table.fill child id parent (some f.proc) room with thrtab := thrtab }
    a0 := id
    pc := .forkInsert child parent f.frame }

/-- The body of the loop of `recycle_thread`: a child of `thr` gets the parent of `thr`. -/
def reparent (t : Table) (thr : Ptr) (parent : Ptr → Option Ptr) (ctid : Fin NTHR) :
    Ptr → Option Ptr :=
  match t.thrtab ctid with
  | some child =>
    if ctid ≠ 0 ∧ parent child = some thr then Function.update parent child (parent thr)
    else parent
  | none => parent

/-- `recycle_thread` -/
def recycleThread (t : Table) (l : Lists) (tid : Fin NTHR) : Except Stop Table :=
  match t.thrtab tid with
  | none => .error .assertion
  | some thr => do
    require (0 < tid)
    require (l.state thr = .exited)
    return { t with
      parent := (List.finRange NTHR).foldl (reparent t thr) t.parent
      thrtab := Function.update t.thrtab tid none }

/-- `thread_join` up to its loop. -/
def threadJoin (s : Kernel μ) (tid : Int) : Kernel μ :=
  if h : 0 < tid ∧ tid < NTHR then
    let slot : Fin NTHR := ⟨tid.toNat, by have := h.2; omega⟩
    match s.table.thrtab slot with
    | none => { s with a0 := -1 }
    | some child =>
      if s.table.parent child = some s.cur then { s with pc := .joinLoop slot child }
      else { s with a0 := -1 }
  else { s with a0 := -1 }

/-- The children of the current thread, with their slots. -/
def children (s : Kernel μ) : List (Fin NTHR × Ptr) :=
  (List.finRange NTHR).filterMap fun tid =>
    match s.table.thrtab tid with
    | some child => if tid ≠ 0 ∧ s.table.parent child = some s.cur then some (tid, child) else none
    | none => none

/-- The first child of the current thread that has exited. -/
def exitedChild (s : Kernel μ) : Option (Fin NTHR × Ptr) :=
  (children s).find? fun c => s.lists.state c.2 = .exited

/-- `thread_join_any` up to its `condition_wait`. -/
def threadJoinAny (s : Kernel μ) : Except Stop (Kernel μ) :=
  match exitedChild s with
  | some (tid, _) => .ok (threadJoin s (tid : Int))
  | none =>
    if children s = [] then .error .panic
    else .ok { s with pc := .condWait (.childExit s.cur) .joinAny }

/-- A call from outside `thread.c`. -/
def call (a : PageAlloc μ) (s : Kernel μ) : Op → Except Stop (Kernel μ)
  | .spawn => threadSpawn a s
  | .yield => do
    require (s.lists.state s.cur = .running)
    return { s with pc := .suspend .own }
  | .wait n => .ok { s with pc := .condWait (.dev n) .own }
  | .broadcast n =>
    if (s.lists.waitList (.dev n)).head = none then .ok s
    else .ok { s with pc := .wakeAll (.dev n) false }
  | .exit =>
    if s.cur = mainThread then .error .halt
    else .ok { s with lists := s.lists.setState s.cur .exited, pc := .exitBroadcast }
  | .join tid => .ok (threadJoin s tid)
  | .joinAny => threadJoinAny s
  | .fork f => threadForkToUser a s f
  | .allocPage =>
    match a.allocPage s.pages with
    | none => .error .panic
    | some (page, pages) => .ok { s with pages := pages, a0 := page }
  | .freePage page => .ok { s with pages := a.freePage page s.pages }

/-- The end of `suspend_self`: the stack page of a thread that has exited is released. -/
def release (a : PageAlloc μ) (s : Kernel μ) (prev : Ptr) : Kernel μ :=
  if s.lists.state prev = .exited then
    { s with
      pages := a.freePage (u64 ((s.table.stackBase prev : Int) - PAGE_SIZE)) s.pages
      table := { s.table with
        stackBase := Function.update s.table.stackBase prev 0
        stackSize := Function.update s.table.stackSize prev 0 } }
  else s

/-- What is stored in memory for a thread that is no `struct thread` when it is put on the ready
list: `list_next`, and the number of the state `READY`. -/
def parentStores (s : Kernel μ) (parent : Ptr) : List (Nat × Nat) :=
  if parent < s.table.allocated then []
  else [(parent - 2 ^ 64 + 160, 0), (parent - 2 ^ 64 + 136, 4)]

theorem parentStores_of_lt {s : Kernel μ} {parent : Ptr} (h : parent < s.table.allocated) :
    parentStores s parent = [] := if_pos h

/-- What `_thread_finish_fork` stores below the stack base of the child: the copy of the stack,
and 0 for the register `a0` in the trap frame. -/
def frameStores (s : Kernel μ) (child : Ptr) (frame : List Nat) : List (Nat × Nat) :=
  (frame.mapIdx fun k w => (s.table.stackBase child - 8 * (k + 1), w)) ++
    [(s.table.stackBase child - 8 * 24, 0)]

def storeAll (a : PageAlloc μ) (ws : List (Nat × Nat)) (pages : μ) : μ :=
  ws.foldl (fun m w => a.store w.1 w.2 m) pages

/-- `_thread_swtch(next)`: the context of the current thread is saved in its structure and
that of `next` restored. -/
def threadSwtch (s : Kernel μ) (next : Ptr) (r : Ret) : Kernel μ :=
  let resume := Function.update s.resume s.cur (.suspended r)
  { s with
    resume := resume
    cur := next
    pc := match resume next with
      | .start => .own
      | .forked => .own
      | .suspended r => .resumed s.cur r }

/-- The next step of the running thread inside `thread.c`. -/
def execute (a : PageAlloc μ) (s : Kernel μ) : Pc → Except Stop (Kernel μ)
  | .own => .ok s
  | .spawnInsert child => do
    let lists ← s.lists.insertReady child
    return { s with lists := lists, pc := .spawnSetup child }
  | .spawnSetup child =>
    .ok { s with resume := Function.update s.resume child .start, pc := .own }
  | .condWait c r => do
    require (s.lists.state s.cur = .running)
    return { s with lists := s.lists.setState s.cur .waiting, pc := .waitCond c r }
  | .waitCond c r =>
    .ok { s with
      lists := { s.lists with waitCond := Function.update s.lists.waitCond s.cur (some c) }
      pc := .waitNext c r }
  | .waitNext c r =>
    .ok { s with
      lists := { s.lists with listNext := Function.update s.lists.listNext s.cur none }
      pc := .waitInsert c r }
  | .waitInsert c r => do
    let lists ← s.lists.insertWait c s.cur
    return { s with lists := lists, pc := .suspend r }
  | .suspend r => do
    require (s.lists.readyList.head ≠ none)
    return { s with pc := .dispatch r }
  | .dispatch r => do
    let (next, lists) ← s.lists.dispatch s.cur
    return { s with lists := lists, pc := .spaceSwitch next r }
  | .spaceSwitch next r =>
    match s.table.proc next with
    | some p => .ok { s with satp := p, pc := .swtch next r }
    | none => .ok { s with pc := .swtch next r }
  | .swtch next r =>
    -- what is no thread has no context to go on with
    if next < s.table.allocated then .ok (threadSwtch s next r) else .error .wild
  | .resumed prev r => .ok { release a s prev with pc := Ret.pc r }
  | .wakeAll c exiting => do
    let lists ← s.lists.wakeAll s.table.allocated c
    return { s with lists := lists, pc := if exiting then .suspend .exit else .own }
  | .exitBroadcast =>
    match s.table.parent s.cur with
    | none => .error .assertion
    | some p =>
      if (s.lists.waitList (.childExit p)).head = none then .ok { s with pc := .suspend .exit }
      else .ok { s with pc := .wakeAll (.childExit p) true }
  | .exitFailed => .error .panic
  | .joinLoop tid child =>
    if s.lists.state child = .exited then do
      let table ← recycleThread s.table s.lists tid
      return { s with table := table, a0 := tid, pc := .own }
    else .ok { s with pc := .condWait (.childExit s.cur) (.join tid child) }
  | .joinAnyScan =>
    match exitedChild s with
    | some (tid, _) => do
      let table ← recycleThread s.table s.lists tid
      return { s with table := table, a0 := tid, pc := .own }
    | none => .error .panic
  | .forkInsert child parent frame => do
    let lists ← s.lists.insertReady parent
    return { s with
      pages := storeAll a (parentStores s parent) s.pages
      lists := (lists.setState parent .ready).setState child .running
      pc := .finishFork child frame }
  | .finishFork child frame =>
    .ok { s with
      pages := storeAll a (frameStores s child frame) s.pages
      resume := Function.update s.resume s.cur .forked
      cur := child
      pc := .own }

/-- The idle thread only yields, and only when a thread is ready. -/
abbrev MayCall (s : Kernel μ) (op : Op) : Prop :=
  s.cur = idleThread → op = .yield ∧ s.lists.readyList.head ≠ none

/-- What one event does to the threads that it is about; `none` if it cannot occur. -/
def advance (a : PageAlloc μ) (s : Kernel μ) : Event → Option (Except Stop (Kernel μ))
  | .isr n => some do
    let lists ← s.lists.conditionBroadcast s.table.allocated (.dev n)
    return { s with lists := lists }
  | .step =>
    match s.pc with
    | .own => none
    | pc => some (execute a s pc)
  | .call op =>
    match s.pc with
    | .own => if MayCall s op then some (call a s op) else none
    | _ => none
  | .write x v => some (.ok { s with pages := a.store x v s.pages })

/-! ## Stores over the structures -/

/-- The words that an event stores elsewhere than in the threads that it is about, with their
addresses. -/
def stores (a : PageAlloc μ) (s : Kernel μ) : Event → List (Nat × Nat)
  | .write x v => [(x, v)]
  | .call (.freePage page) => [(page, a.freeList s.pages)]
  | .step =>
    match s.pc with
    | .resumed prev _ =>
      if s.lists.state prev = .exited then
        [(u64 ((s.table.stackBase prev : Int) - PAGE_SIZE), a.freeList s.pages)]
      else []
    | .forkInsert _ parent _ => parentStores s parent
    | .finishFork child frame => frameStores s child frame
    | _ => []
  | _ => []

/-- The state that a number stands for. No test tells `STOPPED` from a number without a state. -/
def stateOf : Nat → ThreadState
  | 0 => .uninitialized
  | 2 => .waiting
  | 3 => .running
  | 4 => .ready
  | 5 => .exited
  | _ => .stopped

/-- A word as a pointer to a thread. -/
def Table.pointer (t : Table) (v : Nat) : Option Ptr := if v = 0 then none else some (t.threadAt v)

/-- A word as a pointer to a condition. -/
def Table.condition (t : Table) (v : Nat) : Option Condition :=
  if v = 0 then none
  else match (List.range t.allocated).find? fun p => t.addr p + 176 = v with
    | some p => some (.childExit p)
    | none => some (.dev v)

/-- The member at the offset `off` of the structures, if the word at `x` becomes `v`. -/
def Table.over (t : Table) (x off : Nat) {β : Type} (v : β) (member : Ptr → β) : Ptr → β := fun p =>
  if p < t.allocated ∧ t.addr p + off = x then v else member p

/-- The word at `x` becomes `v`, in whatever structures lie there. `state` and `id` share a word,
and a process is known by its `mtag` only. -/
def poke (s : Kernel μ) (w : Nat × Nat) : Kernel μ :=
  let (x, v) := w
  let t := s.table
  let l := s.lists
  { s with
    table := { t with
      stackBase := t.over x 120 v t.stackBase
      stackSize := t.over x 128 v t.stackSize
      id := t.over x 136 (i32 (v / 2 ^ 32 : Nat)) t.id
      proc := t.over x 144 (if v = 0 then none else some v) t.proc
      parent := t.over x 152 (t.pointer v) t.parent }
    lists := { l with
      state := t.over x 136 (stateOf (v % 2 ^ 32)) l.state
      listNext := t.over x 160 (t.pointer v) l.listNext
      waitCond := t.over x 168 (t.condition v) l.waitCond
      waitList := fun c => match c with
        | .dev n => l.waitList (.dev n)
        | .childExit p => ⟨t.over x 184 (t.pointer v) (fun p => (l.waitList (.childExit p)).head) p,
            t.over x 192 (t.pointer v) (fun p => (l.waitList (.childExit p)).tail) p⟩ } }

/-- What one event does; `none` if it cannot occur. -/
def step (a : PageAlloc μ) (s : Kernel μ) (e : Event) : Option (Except Stop (Kernel μ)) :=
  (advance a s e).map fun r => r.map fun s' => (stores a s e).foldl poke s'

/-- Some events in a row, until the kernel stops. -/
def runs (a : PageAlloc μ) : Kernel μ → List Event → Option (Except Stop (Kernel μ))
  | s, [] => some (.ok s)
  | s, e :: es =>
    match step a s e with
    | none => none
    | some (.error stop) => some (.error stop)
    | some (.ok s') => runs a s' es

/-! ## Events that store over no thread

A store over a variable of `thread.c` or over the stack of another thread is no step of this
machine: `poke` leaves it out, and `Spares` excludes it with those over the structures. -/

/-- The thread on whose stack an event stores. -/
def owner (s : Kernel μ) : Event → Option Ptr
  | .write _ _ => some s.cur
  | .step =>
    match s.pc with
    | .finishFork child _ => some child
    | _ => none
  | _ => none

/-- The word at `x` is in no variable, in no structure, in no stack but that of `own`, and not in
the anchor of that one, from which a trap from user mode takes the thread pointer. -/
def Table.Untouched (t : Table) (own : Option Ptr) (x : Nat) : Prop :=
  (∀ y ∈ t.vars, x + 8 ≤ y ∨ y + 8 ≤ x) ∧ ∀ p < t.allocated,
    (x + 8 ≤ t.addr p ∨ t.addr p + THREAD_SIZE ≤ x) ∧
      (x + 8 ≤ t.stackBase p - (if own = some p then 0 else t.stackSize p) ∨
        t.stackBase p + ANCHOR_SIZE ≤ x)

instance (t : Table) (own : Option Ptr) (x : Nat) : Decidable (t.Untouched own x) :=
  inferInstanceAs (Decidable ((∀ y ∈ t.vars, _) ∧ ∀ p < t.allocated, _))

/-- No two structures overlap. -/
def Table.Apart (t : Table) : Prop :=
  ∀ p < t.allocated, ∀ p' < p, t.addr p + THREAD_SIZE ≤ t.addr p' ∨ t.addr p' + THREAD_SIZE ≤ t.addr p

instance (t : Table) : Decidable t.Apart :=
  inferInstanceAs (Decidable (∀ p < t.allocated, ∀ p' < p, _))

/-- The event stores nothing over a thread, and a new thread is not put over another one. -/
def Spares (a : PageAlloc μ) (s : Kernel μ) (e : Event) : Prop :=
  ∀ s' ∈ (advance a s e).bind Except.toOption,
    s'.table.Apart ∧ ∀ w ∈ stores a s e, s'.table.Untouched (owner s e) w.1

instance (a : PageAlloc μ) (s : Kernel μ) (e : Event) : Decidable (Spares a s e) :=
  inferInstanceAs (Decidable (∀ s' ∈ (advance a s e).bind Except.toOption, _))

theorem Table.over_eq {t : Table} {own : Option Ptr} {x off : Nat} (h : t.Untouched own x)
    (hoff : off + 8 ≤ THREAD_SIZE) {β : Type} (v : β) (member : Ptr → β) :
    t.over x off v member = member := by
  funext p
  refine if_neg fun ⟨hp, hx⟩ => ?_
  have := (h.2 p hp).1
  omega

theorem poke_eq {s : Kernel μ} {own : Option Ptr} {w : Nat × Nat} (h : s.table.Untouched own w.1) :
    poke s w = s := by
  have hover : ∀ {off : Nat}, off + 8 ≤ THREAD_SIZE → ∀ {β : Type} (v : β) (member : Ptr → β),
      s.table.over w.1 off v member = member := fun hoff => Table.over_eq h hoff
  have hwait : (fun c => match c with
      | .dev n => s.lists.waitList (.dev n)
      | .childExit p => ⟨(s.lists.waitList (.childExit p)).head,
          (s.lists.waitList (.childExit p)).tail⟩) = s.lists.waitList := by
    funext c
    cases c <;> rfl
  unfold poke
  simp (disch := decide) only [hover, hwait]

theorem foldl_poke_eq {s : Kernel μ} {own : Option Ptr} {ws : List (Nat × Nat)}
    (h : ∀ w ∈ ws, s.table.Untouched own w.1) : ws.foldl poke s = s := by
  induction ws with
  | nil => rfl
  | cons w ws ih =>
    rw [List.foldl_cons, poke_eq (h w List.mem_cons_self)]
    exact ih fun w' hw' => h w' (List.mem_cons_of_mem w hw')

/-- Stores do not move the ready list, make no threads and do not go to the memory manager twice. -/
theorem foldl_poke_frame (ws : List (Nat × Nat)) (k : Kernel μ) :
    (ws.foldl poke k).lists.readyList = k.lists.readyList ∧
      (ws.foldl poke k).table.allocated = k.table.allocated ∧ (ws.foldl poke k).pc = k.pc ∧
      (ws.foldl poke k).pages = k.pages := by
  induction ws generalizing k with
  | nil => exact ⟨rfl, rfl, rfl, rfl⟩
  | cons w ws ih => exact ih (poke k w)

theorem step_of_advance {a : PageAlloc μ} {s s' : Kernel μ} {e : Event}
    (own : Option Ptr) (h : advance a s e = some (.ok s'))
    (hst : ∀ w ∈ stores a s e, s'.table.Untouched own w.1) :
    step a s e = some (.ok s') := by
  unfold step
  rw [h]
  exact congrArg (fun k => some (Except.ok k)) (foldl_poke_eq hst)

theorem step_eq_advance {a : PageAlloc μ} {s : Kernel μ} {e : Event} (h : Spares a s e) :
    step a s e = advance a s e := by
  cases hadv : advance a s e with
  | none => exact congrArg (Option.map _) hadv
  | some r =>
    cases r with
    | error stop => exact congrArg (Option.map _) hadv
    | ok s' => exact step_of_advance _ hadv (h s' (by rw [hadv]; rfl)).2

/-- An event that only stores in the threads that it is about. -/
theorem step_of_stores_nil {a : PageAlloc μ} {s : Kernel μ} {e : Event} (h : stores a s e = []) :
    step a s e = advance a s e := by
  unfold step
  rw [h]
  cases advance a s e with
  | none => rfl
  | some r => cases r <;> rfl

/-! ## `thread_init` -/

/-- The lists after `thread_init`: the idle thread is ready. `mem` is what the memory of the
structures that do not exist yet holds. -/
def initLists (mem : Lists) : Lists where
  state := Function.update (Function.update mem.state idleThread .ready) mainThread .running
  listNext := Function.update (Function.update mem.listNext idleThread none) mainThread none
  waitCond := Function.update (Function.update mem.waitCond idleThread none) mainThread none
  waitList
    | .dev _ => Chain.nil
    | .childExit t => if t < 2 then Chain.nil else mem.waitList (.childExit t)
  readyList := ⟨some idleThread, some idleThread⟩

/-- The thread table after `thread_init`. -/
def initTable (mem : Table) : Table :=
  { mem with
    thrtab := Function.update (Function.update (fun _ => none) MAIN_TID (some mainThread))
      IDLE_TID (some idleThread)
    id := Function.update (Function.update mem.id idleThread IDLE_TID) mainThread MAIN_TID
    parent := Function.update (Function.update mem.parent idleThread (some mainThread))
      mainThread none
    allocated := 2 }

/-- `thread_init`: the main thread runs. -/
def threadInit (lists : Lists) (table : Table) (pages : μ) : Kernel μ where
  lists := initLists lists
  table := initTable table
  cur := mainThread
  pc := .own
  resume := fun _ => .start
  satp := 0
  a0 := 0
  pages := pages

end Thread

end RiscvKernel
