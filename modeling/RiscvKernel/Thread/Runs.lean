import RiscvKernel.Lib.Runs
import RiscvKernel.Thread.Sched

/-!
# Whole runs of the scheduler

New threads come from `thread_spawn` and `thread_fork_to_user`. `Meets` is what the event
needs: a fresh `struct thread` whose `child_exit` is empty, and for a fork also that the
saved register `tp` is the forking thread and that a slot is free. `step_fine` puts the lemmas
of `Sched` together, and `runs_fine` is the induction over a run whose events all meet their
conditions and store over no thread (`Spares`).

`SchedulerOk` spells the invariant out on the members of `struct thread` and the list heads,
without the queues.
-/

namespace RiscvKernel

open Lib

namespace Thread

variable {μ : Type}

/-! ## The conditions -/

/-- The memory of the next `struct thread` holds an empty `child_exit`. -/
def FreshChildExit (s : Kernel μ) : Prop :=
  s.lists.waitList (.childExit s.table.allocated) = Chain.nil

/-- What `thread_fork_to_user` needs. -/
structure ForkCond (s : Kernel μ) (f : ForkArgs) : Prop where
  tp : s.table.threadAt f.tp = s.cur
  slot : ∃ tid, s.table.thrtab tid = none
  fresh : FreshChildExit s

/-- What an event needs to keep the scheduler invariant. -/
def Meets (s : Kernel μ) : Event → Prop
  | .call .spawn => FreshChildExit s
  | .call (.fork f) => ForkCond s f
  | _ => True

/-- The kernel after an event, if it has not stopped. -/
def next (a : PageAlloc μ) (s : Kernel μ) (e : Event) : Option (Kernel μ) :=
  (step a s e).bind Except.toOption

theorem next_eq_some {a : PageAlloc μ} {s s' : Kernel μ} {e : Event} :
    next a s e = some s' ↔ step a s e = some (.ok s') := by
  unfold next
  cases step a s e with
  | none => simp
  | some r => cases r <;> simp [Except.toOption]

theorem runs_of_step {a : PageAlloc μ} {s s' : Kernel μ} {e : Event} {es : List Event}
    (h : step a s e = some (.ok s')) : runs a s (e :: es) = runs a s' es := by
  conv_lhs => unfold runs
  rw [h]

theorem runs_of_error {a : PageAlloc μ} {s : Kernel μ} {e : Event} {es : List Event} {stop : Stop}
    (h : step a s e = some (.error stop)) : runs a s (e :: es) = some (.error stop) := by
  unfold runs
  rw [h]

/-- Every event of the run meets its condition and stores over no thread. -/
abbrev Careful (a : PageAlloc μ) : Kernel μ → List Event → Prop :=
  Lib.Steps (next a) fun s e => Meets s e ∧ Spares a s e

variable {a : PageAlloc μ} {mem : Condition → Chain Ptr} {s : Kernel μ}
  {q : Queues Condition Ptr} {transit : Option Ptr}

/-! ## New threads -/

/-- The thread table after a new thread has been entered in an empty slot. -/
def Table.enter (t : Table) (tid : Fin NTHR) (parent : Ptr) (proc : Option Nat) (room : Room) :
    Table :=
  { t.fill t.allocated (tid : Int) parent proc room with
    thrtab := Function.update t.thrtab tid (some t.allocated) }

theorem TableOk.enter {t : Table} (h : TableOk t) {tid : Fin NTHR} {parent : Ptr}
    (hparent : parent < t.allocated) (proc : Option Nat) (room : Room) :
    TableOk (t.enter tid parent proc room) := by
  have hne : ∀ p < t.allocated, p ≠ t.allocated := fun p hp => Nat.ne_of_lt hp
  constructor
  · exact Nat.le_succ_of_le h.two_le
  · intro slot p hp
    by_cases hs : slot = tid
    · subst hs
      obtain rfl : t.allocated = p := by simpa [Table.enter] using hp
      exact ⟨Nat.lt_succ_self _, Function.update_self ..⟩
    · have hold : t.thrtab slot = some p := by
        simpa [Table.enter, Function.update_of_ne hs] using hp
      obtain ⟨hlt, hid⟩ := h.slot slot p hold
      exact ⟨Nat.lt_succ_of_lt hlt, (Function.update_of_ne (hne p hlt) ..).trans hid⟩
  · have hmain : mainThread < t.allocated := Nat.lt_of_lt_of_le (by decide) h.two_le
    exact (Function.update_of_ne (hne mainThread hmain) ..).trans h.main_id
  · intro p hp hpm
    by_cases hpa : p = t.allocated
    · subst hpa
      exact ⟨parent, Nat.lt_succ_of_lt hparent, Function.update_self ..⟩
    · obtain ⟨u, hu, hpar⟩ := h.parent p
        (Nat.lt_of_le_of_ne (Nat.le_of_lt_succ hp) hpa) hpm
      exact ⟨u, Nat.lt_succ_of_lt hu, (Function.update_of_ne hpa ..).trans hpar⟩

/-- The threads that other threads wait for are still where they were. -/
theorem JoinOk.enter {t : Table} (h : TableOk t) {tid : Fin NTHR} (hslot : t.thrtab tid = none)
    {parent : Ptr} {proc : Option Nat} {room : Room} {p : Ptr} {r : Ret} (hj : JoinOk t p r) :
    JoinOk (t.enter tid parent proc room) p r := by
  cases r with
  | join slot child =>
    obtain ⟨hne, hchild, hpar⟩ := hj
    have hst : slot ≠ tid := by
      rintro rfl
      rw [hslot] at hchild
      cases hchild
    have hlt : child ≠ t.allocated := Nat.ne_of_lt (h.slot slot child hchild).1
    exact ⟨hne, (Function.update_of_ne hst ..).trans hchild,
      (Function.update_of_ne hlt ..).trans hpar⟩
  | own => trivial
  | joinAny => trivial
  | exit => trivial

/-- A new thread changes nothing for the others: it is in transit. -/
theorem Inv.enter (h : Inv mem s q none) {tid : Fin NTHR} (hslot : s.table.thrtab tid = none)
    {parent : Ptr} (hparent : parent < s.table.allocated) {proc : Option Nat} {room : Room}
    {s' : Kernel μ} (htable : s'.table = s.table.enter tid parent proc room)
    (hcur : s'.cur = s.cur) (hresume : s'.resume = s.resume)
    (hlists : s'.lists.Ok mem (s.table.allocated + 1) q (some s.table.allocated))
    (hstate : ∀ p ≠ s.table.allocated, s'.lists.state p = s.lists.state p)
    (hpc : PcOk s'.table s'.lists s.cur q (some s.table.allocated) s'.pc) :
    Inv mem s' q (some s.table.allocated) := by
  have halloc : s'.table.allocated = s.table.allocated + 1 := by
    rw [htable]
    rfl
  constructor
  · rw [halloc]
    exact hlists
  · exact h.idle
  · rw [htable]
    exact h.table.enter hparent proc room
  · rw [halloc, hcur]
    exact Nat.lt_succ_of_lt h.cur
  · intro p hp r hr
    rw [hcur] at hp
    rw [hresume] at hr
    have hret := (h.parked p hp r hr).2
    have hlt : p ≠ s.table.allocated := Nat.ne_of_lt hret.allocated
    refine ⟨by simpa using Ne.symm hlt, ?_⟩
    refine (hret.of_table ?_ fun hj => ?_).of_lists (by rw [hstate p hlt])
    · rw [halloc]
      exact Nat.le_succ _
    · rw [htable]
      exact JoinOk.enter h.table hslot hj
  · rw [hcur]
    exact hpc

/-- The new thread fits the lists: nobody has heard of it. -/
theorem Inv.grow (h : Inv mem s q none) (hfresh : FreshChildExit s) :
    s.lists.Ok mem (s.table.allocated + 1) q (some s.table.allocated) := by
  refine h.lists.grow ?_
  rw [← (h.lists.unknown (.childExit s.table.allocated) (Nat.lt_irrefl _)).2]
  exact hfresh

/-- A failed allocation is a panic. -/
theorem newThread_cases (a : PageAlloc μ) (pages : μ) :
    newThread a pages = .error .panic ∨ ∃ room pages', newThread a pages = .ok (room, pages') := by
  unfold newThread
  split
  · exact Or.inl rfl
  · split
    · exact Or.inl rfl
    · exact Or.inr ⟨_, _, rfl⟩

/-! ### `thread_spawn` -/

theorem fine_spawn (h : Inv mem s q transit) (hs : s.pc = .own) (hfresh : FreshChildExit s) :
    Fine mem (call a s .spawn) := by
  obtain ⟨rfl, hrun⟩ := h.at_pc hs
  show Fine mem (threadSpawn a s)
  unfold threadSpawn
  cases hslot : spawnSlot s.table with
  | none => exact Or.inl rfl
  | some tid =>
    rcases newThread_cases a s.pages with hnew | ⟨room, pages, hnew⟩
    · simp only [hnew]
      exact Or.inl rfl
    · simp only [hnew, ok_bind]
      have hempty : tid ≠ 0 ∧ s.table.thrtab tid = none := by
        simpa using List.find?_some hslot
      refine ⟨q, _, h.enter hempty.2 h.cur rfl rfl rfl ((h.grow hfresh).setState_transit .ready)
        (fun p hp => Lists.setState_of_ne _ hp _) ?_⟩
      exact ⟨rfl, hrun, Lists.setState_self .., Nat.lt_succ_self _⟩

theorem fine_spawnInsert (h : Inv mem s q transit) {child : Ptr} (hs : s.pc = .spawnInsert child) :
    Fine mem (execute a s (.spawnInsert child)) := by
  obtain ⟨rfl, hrun, hst, hlt⟩ := h.at_pc hs
  obtain ⟨lists, hins, hok, hstate⟩ := h.lists.insertReady hlt hst
  simp only [execute, hins, ok_bind]
  refine ⟨_, _, h.move hok (h.idle.imp id fun hi => List.mem_append_left _ hi)
    (fun p _ _ => by rw [hstate]) (by simp) ⟨rfl, hrun⟩⟩

theorem fine_spawnSetup (h : Inv mem s q transit) {child : Ptr} (hs : s.pc = .spawnSetup child) :
    Fine mem (execute a s (.spawnSetup child)) := by
  have hrun : Running s.cur q transit := h.at_pc hs
  refine ⟨q, transit, h.lists, h.idle, h.table, h.cur, ?_, hrun⟩
  intro p hp r hr
  refine h.parked p hp r ?_
  by_cases hpc : p = child
  · subst hpc
    have : Resume.start = .suspended r := (Function.update_self ..).symm.trans hr
    cases this
  · exact (Function.update_of_ne hpc ..).symm.trans hr

/-! ### `thread_fork_to_user` -/

/-- The state in which `thread_fork_to_user` inserts the parent, when there is a slot. -/
def forked (s : Kernel μ) (f : ForkArgs) (tid : Fin NTHR) (room : Room) (pages : μ) : Kernel μ :=
  { s with
    pages := pages
    table := s.table.enter tid (s.table.threadAt f.tp) (some f.proc) room
    a0 := (tid : Int)
    pc := .forkInsert s.table.allocated (s.table.threadAt f.tp) f.frame }

theorem threadForkToUser_eq {f : ForkArgs} {tid : Fin NTHR} {room : Room} {pages : μ}
    (hnew : newThread a s.pages = .ok (room, pages)) (hslot : forkSlot s.table = some tid) :
    threadForkToUser a s f = .ok (forked s f tid room pages) := by
  unfold threadForkToUser
  simp only [hnew, ok_bind, hslot]
  rfl

/-- `thread_fork_to_user` finds a free slot if there is one. -/
theorem forkSlot_isSome {t : Table} (h : ∃ tid, t.thrtab tid = none) :
    ∃ tid, forkSlot t = some tid ∧ t.thrtab tid = none := by
  obtain ⟨tid, htid⟩ := h
  have hsome : (forkSlot t).isSome := by
    unfold forkSlot
    rw [List.find?_isSome]
    exact ⟨tid, List.mem_finRange tid, by simpa using htid⟩
  obtain ⟨slot, hslot⟩ := Option.isSome_iff_exists.mp hsome
  exact ⟨slot, hslot, by simpa using List.find?_some hslot⟩

theorem Inv.forked (h : Inv mem s q none) (hrun : q.running = some s.cur) {f : ForkArgs}
    (hf : ForkCond s f) {tid : Fin NTHR} (hslot : s.table.thrtab tid = none) (room : Room)
    (pages : μ) : Inv mem (forked s f tid room pages) q (some s.table.allocated) := by
  have htp : s.table.threadAt f.tp < s.table.allocated := by
    rw [hf.tp]
    exact h.cur
  refine h.enter hslot htp rfl rfl rfl (h.grow hf.fresh) (fun _ _ => rfl) ?_
  exact ⟨hf.tp, rfl, hrun, Nat.lt_succ_self _⟩

theorem fine_fork (h : Inv mem s q transit) (hs : s.pc = .own) {f : ForkArgs}
    (hf : ForkCond s f) : Fine mem (call a s (.fork f)) := by
  obtain ⟨rfl, hrun⟩ := h.at_pc hs
  show Fine mem (threadForkToUser a s f)
  rcases newThread_cases a s.pages with hnew | ⟨room, pages, hnew⟩
  · unfold threadForkToUser
    simp only [hnew]
    exact Or.inl rfl
  · obtain ⟨tid, hslot, hempty⟩ := forkSlot_isSome hf.slot
    rw [threadForkToUser_eq hnew hslot]
    exact ⟨q, _, h.forked hrun hf hempty room pages⟩

/-- The parent goes to the back of the ready list, and the child runs in its place. The code
inserts before it sets the states, which makes no difference. -/
theorem Inv.forkInsert (h : Inv mem s q transit) {child parent : Ptr} {frame : List Nat}
    (hs : s.pc = .forkInsert child parent frame) :
    ∃ s', execute a s (.forkInsert child parent frame) = .ok s' ∧
      Inv mem s' { q with running := some child, ready := q.ready ++ [s.cur] } none ∧
      s' = { s with lists := s'.lists, pc := .finishFork child frame } ∧
      s'.lists.waitList = s.lists.waitList ∧
      s'.lists.state = Function.update (Function.update s.lists.state s.cur .ready) child
        .running := by
  obtain ⟨rfl, rfl, hrun, hlt⟩ := h.at_pc hs
  have hne : s.cur ≠ child := by
    rintro rfl
    exact h.lists.not_placed (Or.inl hrun)
  obtain ⟨lists, hins, hok, hstate⟩ := ((h.lists.handOver hlt hrun).setState_transit
    .ready).insertReady h.cur (Lists.setState_self ..)
  rw [Lists.insertReady_setState, Lists.insertReady_setState] at hins
  cases hraw : s.lists.insertReady s.cur with
  | error stop =>
    rw [hraw] at hins
    cases hins
  | ok raw =>
    rw [hraw] at hins
    have hlists : (raw.setState s.cur .ready).setState child .running = lists := by
      have hcomm : (raw.setState child .running).setState s.cur .ready = lists :=
        Except.ok.inj hins
      rw [← hcomm]
      unfold Lists.setState
      dsimp only
      rw [Function.update_comm hne]
    have hwait : raw.waitList = s.lists.waitList := by
      unfold Lists.insertReady at hraw
      split at hraw
      · cases hraw
      · exact (Except.ok.inj hraw) ▸ rfl
    simp only [execute, hraw, ok_bind, hlists, parentStores_of_lt h.cur]
    have hupdate : lists.state =
        Function.update (Function.update s.lists.state s.cur .ready) child .running := by
      rw [hstate, Function.update_comm hne]
      rfl
    refine ⟨_, rfl, h.move hok ?_ ?_ (by simp) ⟨rfl, rfl⟩, rfl, ?_, hupdate⟩
    · -- whoever was running is ready now
      refine Or.inr ?_
      rcases h.idle with hi | hi
      · have hcur : s.cur = idleThread := Option.some.inj (hrun.symm.trans hi)
        exact List.mem_append_right _ (by rw [hcur]; exact List.mem_cons_self)
      · exact List.mem_append_left _ hi
    · intro p hp htr
      have hpc : p ≠ child := fun he => htr (by rw [he])
      rw [hupdate, Function.update_of_ne hpc, Function.update_of_ne hp]
    · rw [← hlists]
      exact hwait

/-- The kernel goes on as the child, wherever the copy of the stack went. The parent will return
from `_thread_finish_fork` when it runs next. -/
theorem Inv.finishFork (h : Inv mem s q transit) {child : Ptr} {frame : List Nat}
    (hs : s.pc = .finishFork child frame) (pages : μ) :
    Inv mem { s with
      pages := pages
      resume := Function.update s.resume s.cur .forked
      cur := child
      pc := .own } q none := by
  obtain ⟨rfl, hrun⟩ := h.at_pc hs
  refine ⟨h.lists, h.idle, h.table, (h.lists.placed child (Or.inl hrun)).1, ?_, rfl, hrun⟩
  intro p hp r hr
  by_cases hpc : p = s.cur
  · subst hpc
    have : Resume.forked = .suspended r := (Function.update_self ..).symm.trans hr
    cases this
  · exact h.parked p hpc r ((Function.update_of_ne hpc ..).symm.trans hr)

/-! ## Steps and runs -/

theorem fine_yield (h : Inv mem s q transit) (hs : s.pc = .own)
    (hidle : s.cur = idleThread → s.lists.readyList.head ≠ none) :
    Fine mem (call a s .yield) := by
  obtain ⟨rfl, hrun⟩ := h.at_pc hs
  have hstate := h.running hrun
  simp only [call, require, if_pos hstate, ok_bind]
  have hready : q.ready ≠ [] := by
    by_cases hi : s.cur = idleThread
    · exact fun hnil => hidle hi (h.lists.ready.head_eq_none.mpr hnil)
    · exact List.ne_nil_of_mem (h.idle_ready (by simpa [hrun] using hi))
  refine ⟨q, none, h.goto (.suspend .own) ⟨rfl, ?_, hready, ?_, h.cur, trivial, ?_,
    fun h => (by cases h), fun _ => rfl⟩⟩
  · exact fun u hu => Option.some.inj (hu.symm.trans hrun)
  · exact fun hfirst => h.lists.wf.running_ready s.cur hrun (List.mem_of_head? hfirst)
  · simp [hstate]

/-- Every call from outside `thread.c`. -/
theorem call_fine (h : Inv mem s q transit) (hs : s.pc = .own) {op : Op} (hmay : MayCall s op)
    (hmeets : Meets s (.call op)) : Fine mem (call a s op) := by
  have hpc := h.at_pc hs
  -- the idle thread makes no other call than `thread_yield`
  have hidle : op ≠ .yield → s.cur ≠ idleThread := fun hop hi => hop (hmay hi).1
  cases op with
  | spawn => exact fine_spawn h hs hmeets
  | yield => exact fine_yield h hs fun hi => (hmay hi).2
  | wait n =>
    have hnot := hidle (by simp)
    obtain ⟨rfl, hrun⟩ := hpc
    refine ⟨q, none, h.goto (.condWait (.dev n) .own) ⟨⟨rfl, hrun⟩, hnot, trivial, h.cur, trivial,
      ?_, nofun, fun _ => rfl⟩⟩
    simp [h.running hrun]
  | broadcast n =>
    simp only [call]
    split
    · exact ⟨q, transit, h⟩
    · exact ⟨q, transit, h.goto (.wakeAll (.dev n) false) ⟨hpc, trivial⟩⟩
  | exit => exact fine_exit h hs (hidle (by simp))
  | join tid => exact fine_join h hs (hidle (by simp)) tid
  | joinAny => exact fine_joinAny h hs (hidle (by simp))
  | fork f => exact fine_fork h hs hmeets
  | allocPage =>
    simp only [call]
    cases a.allocPage s.pages with
    | none => exact Or.inl rfl
    | some r => exact ⟨q, transit, h.lists, h.idle, h.table, h.cur, h.parked, h.pc⟩
  | freePage page => exact ⟨q, transit, h.lists, h.idle, h.table, h.cur, h.parked, h.pc⟩

/-- Every step inside `thread.c`. -/
theorem execute_fine (h : Inv mem s q transit) {pc : Pc} (hs : s.pc = pc) :
    Fine mem (execute a s pc) := by
  cases pc with
  | own => exact ⟨q, transit, h⟩
  | spawnInsert child => exact fine_spawnInsert h hs
  | spawnSetup child => exact fine_spawnSetup h hs
  | condWait c r => exact fine_condWait h hs
  | waitCond c r => exact fine_waitCond h hs
  | waitNext c r => exact fine_waitNext h hs
  | waitInsert c r => exact fine_waitInsert h hs
  | suspend r => exact fine_suspend h hs
  | dispatch r => exact fine_dispatch h hs
  | spaceSwitch next r => exact fine_spaceSwitch h hs
  | swtch next r => exact fine_swtch h hs
  | resumed prev r => exact fine_resumed h hs
  | wakeAll c exiting => exact fine_wakeAll h hs
  | exitBroadcast => exact fine_exitBroadcast h hs
  | exitFailed => exact (h.at_pc hs).elim
  | joinLoop tid child => exact fine_joinLoop h hs
  | joinAnyScan => exact fine_joinAnyScan h hs
  | forkInsert child parent frame =>
    obtain ⟨s', hstep, hinv, -⟩ := h.forkInsert (a := a) hs
    rw [hstep]
    exact ⟨_, _, hinv⟩
  | finishFork child frame => exact ⟨_, _, h.finishFork hs _⟩

/-- One event that stores over no thread keeps the invariant, or the kernel panics or halts. -/
theorem step_fine (h : Inv mem s q transit) {e : Event} (hcare : Meets s e ∧ Spares a s e)
    {r : Except Stop (Kernel μ)} (hstep : step a s e = some r) : Fine mem r := by
  obtain ⟨hmeets, hspare⟩ := hcare
  rw [step_eq_advance hspare] at hstep
  cases e with
  | isr n =>
    cases hstep
    exact fine_isr h n
  | step =>
    simp only [advance] at hstep
    split at hstep
    · cases hstep
    · cases hstep
      exact execute_fine h rfl
  | write x v =>
    cases hstep
    exact ⟨q, transit, h.lists, h.idle, h.table, h.cur, h.parked, h.pc⟩
  | call op =>
    simp only [advance] at hstep
    split at hstep
    · next hs =>
      split at hstep
      · next hmay =>
        cases hstep
        exact call_fine h hs hmay hmeets
      · cases hstep
    · cases hstep

/-- A run of events that all meet their conditions keeps the invariant. -/
theorem runs_fine {es : List Event} (h : Inv mem s q transit) (hcare : Careful a s es)
    {r : Except Stop (Kernel μ)} (hr : runs a s es = some r) : Fine mem r := by
  induction es generalizing s q transit with
  | nil =>
    cases hr
    exact ⟨q, transit, h⟩
  | cons e es ih =>
    unfold runs at hr
    cases hstep : step a s e with
    | none =>
      rw [hstep] at hr
      cases hr
    | some res =>
      have hfine := step_fine h hcare.1 hstep
      rw [hstep] at hr
      cases res with
      | error stop =>
        cases hr
        exact hfine
      | ok s' =>
        obtain ⟨q', transit', h'⟩ := hfine
        exact ih h' (hcare.2 s' (next_eq_some.mpr hstep)) hr

/-- Without forks and with zero-filled memory every run that stores over no thread is careful. -/
theorem careful_of_zero {es : List Event} (hmem : ∀ t, mem (.childExit t) = Chain.nil)
    (hfork : ∀ f, Event.call (.fork f) ∉ es) (h : Inv mem s q transit)
    (hspare : Lib.Steps (next a) (Spares a) s es) : Careful a s es := by
  induction es generalizing s q transit with
  | nil => trivial
  | cons e es ih =>
    have hmeets : Meets s e := by
      unfold Meets
      split
      · have hunknown := h.lists.unknown (.childExit s.table.allocated) (Nat.lt_irrefl _)
        exact hunknown.2.trans (hmem _)
      · next f => exact absurd List.mem_cons_self (hfork f)
      · trivial
    refine ⟨⟨hmeets, hspare.1⟩, fun s' hstep => ?_⟩
    obtain ⟨q', transit', h'⟩ := step_fine h ⟨hmeets, hspare.1⟩ (next_eq_some.mp hstep)
    exact ih (fun f hf => hfork f (List.mem_cons_of_mem e hf)) h' (hspare.2 s' hstep)

/-! ## The scheduler invariant -/

/-- The scheduler invariant, with the lists that the pointers spell out. -/
structure SchedulerOk (s : Kernel μ) (ready : List Ptr) (waiting : Condition → List Ptr) :
    Prop where
  ready_list : Chain.Represents s.lists.listNext s.lists.readyList ready
  wait_list : ∀ c, Lists.Known s.table.allocated c →
    Chain.Represents s.lists.listNext (s.lists.waitList c) (waiting c)
  listed : ∀ t, (t ∈ ready ∨ ∃ c, t ∈ waiting c) → t < s.table.allocated
  running : ∃! t, t < s.table.allocated ∧ s.lists.state t = .running
  running_off : ∀ t < s.table.allocated, s.lists.state t = .running →
    t ∉ ready ∧ ∀ c, t ∉ waiting c
  ready_iff : ∀ t < s.table.allocated, s.lists.state t = .ready ↔ ready.count t = 1
  ready_once : ready.Nodup
  waiting_iff : ∀ t < s.table.allocated, s.lists.state t = .waiting ↔
    ∃ c, s.lists.waitCond t = some c ∧ (waiting c).count t = 1 ∧ t ∉ ready ∧
      ∀ d ≠ c, t ∉ waiting d
  waiting_once : ∀ c, (waiting c).Nodup
  exited_off : ∀ t < s.table.allocated, s.lists.state t = .exited →
    t ∉ ready ∧ ∀ c, t ∉ waiting c
  idle : s.lists.state idleThread = .running ∨ idleThread ∈ ready

/-- When nobody is in transit, the queues are the lists. -/
theorem Inv.schedulerOk (h : Inv mem s q none) {u : Ptr} (hrun : q.running = some u) :
    SchedulerOk s q.ready q.waiting := by
  have hl := h.lists
  have hrunning : ∀ t < s.table.allocated, s.lists.state t = .running ↔ q.running = some t :=
    fun t ht => hl.running_iff t ht (by simp)
  have hready : ∀ t < s.table.allocated, s.lists.state t = .ready ↔ t ∈ q.ready :=
    fun t ht => hl.ready_iff t ht (by simp)
  have hwaiting : ∀ t < s.table.allocated, s.lists.state t = .waiting ↔ ∃ c, t ∈ q.waiting c :=
    fun t ht => hl.waiting_iff t ht (by simp)
  constructor
  · exact hl.ready
  · exact hl.waiting
  · exact fun t ht => (hl.placed t (Or.inr ht)).1
  · have hu := (hl.placed u (Or.inl hrun)).1
    refine ⟨u, ⟨hu, (hrunning u hu).mpr hrun⟩, ?_⟩
    rintro t ⟨ht, hst⟩
    exact Option.some.inj (((hrunning t ht).mp hst).symm.trans hrun)
  · intro t ht hst
    have hr := (hrunning t ht).mp hst
    exact ⟨hl.wf.running_ready t hr, fun c => hl.wf.running_waiting t c hr⟩
  · intro t ht
    rw [hready t ht]
    exact ⟨fun hm => List.count_eq_one_of_mem hl.wf.ready_nodup hm,
      fun hc => List.count_pos_iff.mp (by omega)⟩
  · exact hl.wf.ready_nodup
  · intro t ht
    rw [hwaiting t ht]
    constructor
    · rintro ⟨c, hc⟩
      refine ⟨c, hl.waitCond c t hc, List.count_eq_one_of_mem (hl.wf.waiting_nodup c) hc, ?_, ?_⟩
      · exact fun hr => hl.wf.ready_waiting t c hr hc
      · exact fun d hd hd' => hd (hl.wf.waiting_inj t d c hd' hc)
    · rintro ⟨c, -, hc, -⟩
      exact ⟨c, List.count_pos_iff.mp (by omega)⟩
  · exact hl.wf.waiting_nodup
  · intro t ht hst
    constructor
    · intro hr
      rw [(hready t ht).mpr hr] at hst
      cases hst
    · intro c hc
      rw [(hwaiting t ht).mpr ⟨c, hc⟩] at hst
      cases hst
  · have hlt : idleThread < s.table.allocated := Nat.lt_of_lt_of_le (by decide) h.table.two_le
    exact h.idle.imp (hrunning idleThread hlt).mpr id

/-- The points where no thread is between two lists: all but those inside `condition_wait`,
`thread_exit` and `suspend_self` before the next thread has been chosen, and the insertion
of a new thread. -/
def Pc.settled : Pc → Bool
  | .own | .spawnSetup _ | .condWait .. | .spaceSwitch .. | .swtch .. | .resumed .. => true
  | .wakeAll _ false | .joinLoop .. | .joinAnyScan | .finishFork .. => true
  | _ => false

theorem Inv.settled (h : Inv mem s q transit) (hs : s.pc.settled) :
    transit = none ∧ ∃ u, q.running = some u := by
  have hpc := h.pc
  revert hpc hs
  cases s.pc with
  | own => exact fun _ hpc => ⟨hpc.1, _, hpc.2⟩
  | spawnSetup child => exact fun _ hpc => ⟨hpc.1, _, hpc.2⟩
  | condWait c r => exact fun _ hpc => ⟨hpc.1.1, _, hpc.1.2⟩
  | spaceSwitch next r => exact fun _ hpc => ⟨hpc.1, _, hpc.2.1⟩
  | swtch next r => exact fun _ hpc => ⟨hpc.1, _, hpc.2.1⟩
  | resumed prev r => exact fun _ hpc => ⟨hpc.1.1, _, hpc.1.2⟩
  | wakeAll c exiting =>
    cases exiting with
    | false => exact fun _ hpc => ⟨hpc.1.1, _, hpc.1.2⟩
    | true => exact nofun
  | joinLoop tid child => exact fun _ hpc => ⟨hpc.1.1, _, hpc.1.2⟩
  | joinAnyScan => exact fun _ hpc => ⟨hpc.1.1, _, hpc.1.2⟩
  | finishFork child frame => exact fun _ hpc => ⟨hpc.1, _, hpc.2⟩
  | spawnInsert child => exact nofun
  | waitCond c r => exact nofun
  | waitNext c r => exact nofun
  | waitInsert c r => exact nofun
  | suspend r => exact nofun
  | dispatch r => exact nofun
  | exitBroadcast => exact nofun
  | exitFailed => exact nofun
  | forkInsert child parent frame => exact nofun

/-- After `thread_init` the main thread runs and the idle thread is ready. -/
theorem threadInit_inv (lists : Lists) (table : Table) (pages : μ) :
    Inv lists.waitList (threadInit lists table pages)
      ⟨some mainThread, [idleThread], fun _ => []⟩ none := by
  have htwo : ∀ t : Nat, t < 2 → t = mainThread ∨ t = idleThread := by
    intro t ht
    unfold mainThread idleThread
    omega
  have hmain : (threadInit lists table pages).lists.state mainThread = .running := rfl
  have hidle : (threadInit lists table pages).lists.state idleThread = .ready := rfl
  refine ⟨?_, Or.inr List.mem_cons_self, ?_, Nat.zero_lt_two, nofun, rfl, rfl⟩
  · refine ⟨⟨by simp, by simp, ?_, by simp, by simp, by simp⟩, ⟨rfl, rfl, rfl, trivial⟩, ?_, ?_,
      ?_, ?_, ?_, ?_, by simp⟩
    · rintro t ⟨⟩
      decide
    · intro c hc
      cases c with
      | dev n => exact Chain.represents_nil _
      | childExit t =>
        have hnil : (initLists lists).waitList (.childExit t) = Chain.nil := if_pos hc
        show Chain.Represents _ ((initLists lists).waitList (.childExit t)) []
        rw [hnil]
        exact Chain.represents_nil _
    · intro c hc
      cases c with
      | dev n => exact absurd trivial hc
      | childExit t => exact ⟨rfl, if_neg hc⟩
    · rintro t (ht | ht | ⟨c, ht⟩)
      · cases ht
        exact ⟨Nat.zero_lt_two, by simp⟩
      · obtain rfl := List.mem_singleton.mp ht
        exact ⟨Nat.one_lt_two, by simp⟩
      · cases ht
    · intro t ht _
      rcases htwo t ht with rfl | rfl
      · exact iff_of_true hmain rfl
      · exact iff_of_false (by simp [hidle]) (by decide)
    · intro t ht _
      rcases htwo t ht with rfl | rfl
      · exact iff_of_false (by simp [hmain]) (by decide)
      · exact iff_of_true hidle (by simp)
    · intro t ht _
      rcases htwo t ht with rfl | rfl
      · exact iff_of_false (by simp [hmain]) (by simp)
      · exact iff_of_false (by simp [hidle]) (by simp)
  · refine ⟨Nat.le_refl 2, ?_, rfl, ?_⟩
    · intro tid p hp
      show p < 2 ∧ (initTable table).id p = (tid.val : Int)
      have hp' : Function.update (Function.update (fun _ => none) MAIN_TID (some mainThread))
          IDLE_TID (some idleThread) tid = some p := hp
      by_cases hi : tid = IDLE_TID
      · subst hi
        rw [Function.update_self] at hp'
        cases hp'
        exact ⟨by decide, rfl⟩
      · rw [Function.update_of_ne hi] at hp'
        by_cases hm : tid = MAIN_TID
        · subst hm
          rw [Function.update_self] at hp'
          cases hp'
          exact ⟨by decide, rfl⟩
        · rw [Function.update_of_ne hm] at hp'
          cases hp'
    · intro p hp hpm
      rcases htwo p hp with rfl | rfl
      · exact absurd rfl hpm
      · exact ⟨mainThread, Nat.zero_lt_two, rfl⟩

/-- An allocator that hands out page after page, also for a `struct thread`. -/
def bumpAlloc : PageAlloc Nat where
  kmalloc _ page := some (page, page + PAGE_SIZE)
  allocPage page := some (page, page + PAGE_SIZE)
  freePage _ page := page
  freeList page := page
  store _ _ page := page

/-- Memory that has been cleared. -/
def zeroLists : Lists where
  state _ := .uninitialized
  listNext _ := none
  waitCond _ := none
  waitList _ := Chain.nil
  readyList := Chain.nil

def zeroTable : Table where
  thrtab _ := none
  addr p := 0x80010000 + 0x100 * p
  id _ := 0
  parent _ := none
  proc _ := none
  stackBase _ := 0
  stackSize _ := 0
  allocated := 0
  vars := []

/-- The running thread calls a function and makes some steps in it. -/
def calls (op : Op) (n : Nat) : List Event := .call op :: List.replicate n .step

/-- A run has an end, if one can be seen there. -/
theorem exists_of_view {β : Type} (view : Kernel μ → β) {r : Option (Except Stop (Kernel μ))} {v : β}
    (h : r.map (fun x => x.toOption.map view) = some (some v)) :
    ∃ s, r = some (.ok s) ∧ view s = v := by
  obtain ⟨x, rfl, hx⟩ := Option.map_eq_some_iff.mp h
  obtain ⟨s, hs, hv⟩ := Option.map_eq_some_iff.mp hx
  cases x with
  | error stop => cases hs
  | ok k =>
    cases hs
    exact ⟨s, rfl, hv⟩

/-- The main thread spawns a thread, which exits, and releases its stack. -/
def exitEvents : List Event := [calls .spawn 2, calls .yield 4, calls .yield 4, calls .exit 6].flatten

/-- The heap and the list of free pages: `kmalloc` takes a `struct thread` from the end of the
heap. -/
def heapAlloc : PageAlloc (Nat × List Nat) where
  kmalloc _ m := some (m.1 - 208, (m.1 - 208, m.2))
  allocPage m :=
    match m.2 with
    | [] => none
    | page :: free => some (page, (m.1, free))
  freePage page m := (m.1, page :: m.2)
  freeList m := m.2.headD 0
  store _ _ m := m

/-- The heap ends where the free pages begin, as it does after `memory_init`. -/
def bootHeap : Nat × List Nat := (0x80022000, [0x80022000, 0x80023000, 0x80024000])

/-- The main thread spawns the threads 2 and 3 and waits; thread 2 exits while thread 3 is
suspended. -/
def firstRelease : List Event :=
  [calls .spawn 2, calls .spawn 2, calls (.wait 0) 8, calls .yield 4, calls .yield 4,
    calls .yield 5, calls .yield 5, calls .exit 6].flatten

/-- Thread 3 spawns a thread, which exits, releases its stack and joins it. -/
def spawnAndExit : List Event :=
  [calls .spawn 2, calls .yield 5, calls .yield 4, calls .exit 6, calls (.join 3) 1].flatten

/-- What has stopped the kernel. -/
def stopped : Except Stop (Kernel μ) → Option Stop
  | .ok _ => none
  | .error stop => some stop

end Thread

end RiscvKernel
