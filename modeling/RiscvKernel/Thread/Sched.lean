import RiscvKernel.Thread.Machine

/-!
# The scheduler invariant

`Inv mem s q transit` holds in every state of the machine: the lists and states of the
threads are the queues `q`, the idle thread is running or ready, the thread table and
the parents are in order, every suspended `thread_join` waits for a child of its own, and
the running thread is where its program counter says (`PcOk`).

Each function has a lemma that it keeps the invariant (or panics), `step_fine` puts them
together, and `runs_fine` is the induction over a run. At the points where no thread is
between two lists the invariant is the one of `scheduler_invariant`.
-/

namespace RiscvKernel

open Lib

namespace Thread

variable {μ : Type}

/-! ## The invariant -/

/-- The thread table and the parents. -/
structure TableOk (t : Table) : Prop where
  two_le : 2 ≤ t.allocated
  slot : ∀ tid p, t.thrtab tid = some p → p < t.allocated ∧ t.id p = (tid.val : Int)
  main_id : t.id mainThread = 0
  parent : ∀ p < t.allocated, p ≠ mainThread → ∃ u < t.allocated, t.parent p = some u

/-- A `thread_join` of thread `p` waits for a child of `p`. -/
def JoinOk (t : Table) (p : Ptr) : Ret → Prop
  | .join tid child => tid ≠ 0 ∧ t.thrtab tid = some child ∧ t.parent child = some p
  | _ => True

/-- What a thread `p` that is to return to `r` may rely on: it suspended in `thread_exit` if
and only if it has exited, which the first two threads never do, and the idle thread was
only yielding. -/
structure RetOk (t : Table) (l : Lists) (p : Ptr) (r : Ret) : Prop where
  allocated : p < t.allocated
  join : JoinOk t p r
  exited : l.state p = .exited ↔ r = .exit
  spawned : r = .exit → 2 ≤ p
  idle : p = idleThread → r = .own

/-- The current thread runs and is on no list. -/
def Running (cur : Ptr) (q : Queues Condition Ptr) (transit : Option Ptr) : Prop :=
  transit = none ∧ q.running = some cur

/-- The current thread is on its way to a wait list. -/
structure Waiting (t : Table) (l : Lists) (cur : Ptr) (q : Queues Condition Ptr)
    (transit : Option Ptr) (c : Condition) (r : Ret) : Prop where
  transit : transit = some cur
  running : q.running = none
  state : l.state cur = .waiting
  idle : cur ≠ idleThread
  known : Lists.Known t.allocated c
  ret : RetOk t l cur r

/-- The current thread is about to suspend: it may still run, or be on a list already. It is
never the first ready thread, because when it was woken the idle thread was ready. -/
structure Leaving (t : Table) (l : Lists) (cur : Ptr) (q : Queues Condition Ptr)
    (transit : Option Ptr) (r : Ret) : Prop where
  transit : transit = none
  running : ∀ u, q.running = some u → u = cur
  ready : q.ready ≠ []
  first : q.ready.head? ≠ some cur
  ret : RetOk t l cur r

/-- The current thread has exited. -/
structure Exiting (l : Lists) (cur : Ptr) (q : Queues Condition Ptr) (transit : Option Ptr) :
    Prop where
  transit : transit = none
  running : q.running = none
  state : l.state cur = .exited
  idle : cur ≠ idleThread
  main : cur ≠ mainThread

/-- What holds at a program counter. -/
def PcOk (t : Table) (l : Lists) (cur : Ptr) (q : Queues Condition Ptr) (transit : Option Ptr) :
    Pc → Prop
  | .own => Running cur q transit
  | .spawnInsert child =>
    transit = some child ∧ q.running = some cur ∧ l.state child = .ready ∧ child < t.allocated
  | .spawnSetup _ => Running cur q transit
  | .condWait c r =>
    Running cur q transit ∧ cur ≠ idleThread ∧ Lists.Known t.allocated c ∧ RetOk t l cur r
  | .waitCond c r => Waiting t l cur q transit c r
  | .waitNext c r => Waiting t l cur q transit c r ∧ l.waitCond cur = some c
  | .waitInsert c r => Waiting t l cur q transit c r ∧ l.waitCond cur = some c
  | .suspend r => Leaving t l cur q transit r
  | .dispatch r => Leaving t l cur q transit r
  | .spaceSwitch next r => transit = none ∧ q.running = some next ∧ next ≠ cur ∧ RetOk t l cur r
  | .swtch next r => transit = none ∧ q.running = some next ∧ next ≠ cur ∧ RetOk t l cur r
  | .resumed prev r =>
    Running cur q transit ∧ RetOk t l cur r ∧ prev < t.allocated ∧
      (l.state prev = .exited → 2 ≤ prev)
  | .wakeAll c false => Running cur q transit ∧ Lists.Known t.allocated c
  | .wakeAll c true => Exiting l cur q transit ∧ Lists.Known t.allocated c
  | .exitBroadcast => Exiting l cur q transit
  | .exitFailed => False
  | .joinLoop tid child =>
    Running cur q transit ∧ cur ≠ idleThread ∧ JoinOk t cur (.join tid child)
  | .joinAnyScan => Running cur q transit ∧ cur ≠ idleThread
  | .forkInsert child parent _ =>
    parent = cur ∧ transit = some child ∧ q.running = some cur ∧ child < t.allocated
  | .finishFork child _ => transit = none ∧ q.running = some child

/-- The invariant of the machine. `mem` is what the memory of the structures that do not
exist yet holds in the place of `child_exit`. -/
structure Inv (mem : Condition → Chain Ptr) (s : Kernel μ) (q : Queues Condition Ptr)
    (transit : Option Ptr) : Prop where
  lists : s.lists.Ok mem s.table.allocated q transit
  idle : q.running = some idleThread ∨ idleThread ∈ q.ready
  table : TableOk s.table
  cur : s.cur < s.table.allocated
  parked : ∀ p ≠ s.cur, ∀ r, s.resume p = .suspended r →
    transit ≠ some p ∧ RetOk s.table s.lists p r
  pc : PcOk s.table s.lists s.cur q transit s.pc

/-- What an event may lead to: a state with the invariant, a panic, or the end. -/
def Fine (mem : Condition → Chain Ptr) : Except Stop (Kernel μ) → Prop
  | .ok s => ∃ q transit, Inv mem s q transit
  | .error stop => stop = .panic ∨ stop = .halt

variable {a : PageAlloc μ} {mem : Condition → Chain Ptr} {s : Kernel μ}
  {q : Queues Condition Ptr} {transit : Option Ptr}

theorem Inv.at_pc (h : Inv mem s q transit) {pc : Pc} (hs : s.pc = pc) :
    PcOk s.table s.lists s.cur q transit pc := hs ▸ h.pc

/-- Who runs is in state `RUNNING`, so it has not exited. -/
theorem Inv.running (h : Inv mem s q none) (hrun : q.running = some s.cur) :
    s.lists.state s.cur = .running :=
  (h.lists.running_iff s.cur h.cur (by simp)).mpr hrun

/-- While another thread than the idle thread runs, or none, the idle thread is ready. -/
theorem Inv.idle_ready (h : Inv mem s q transit) (hrun : q.running ≠ some idleThread) :
    idleThread ∈ q.ready := h.idle.resolve_left hrun

/-- Waking threads keeps what a thread that is to return relies on. -/
theorem RetOk.of_lists {t : Table} {l l' : Lists} {p : Ptr} {r : Ret} (h : RetOk t l p r)
    (hexit : l'.state p = .exited ↔ l.state p = .exited) : RetOk t l' p r :=
  ⟨h.allocated, h.join, hexit.trans h.exited, h.spawned, h.idle⟩

/-- Only the program counter moves. -/
theorem Inv.goto (h : Inv mem s q transit) (pc : Pc)
    (hpc : PcOk s.table s.lists s.cur q transit pc) : Inv mem { s with pc := pc } q transit :=
  ⟨h.lists, h.idle, h.table, h.cur, h.parked, hpc⟩

/-- The lists change, but no other thread exits, and none but the current thread leaves for a
list. -/
theorem Inv.move (h : Inv mem s q transit) {lists : Lists} {q' : Queues Condition Ptr}
    {transit' : Option Ptr} {pc : Pc} (hok : lists.Ok mem s.table.allocated q' transit')
    (hidle : q'.running = some idleThread ∨ idleThread ∈ q'.ready)
    (hexit : ∀ p ≠ s.cur, transit ≠ some p →
      (lists.state p = .exited ↔ s.lists.state p = .exited))
    (htransit : ∀ p ≠ s.cur, transit' ≠ some p)
    (hpc : PcOk s.table lists s.cur q' transit' pc) :
    Inv mem { s with lists := lists, pc := pc } q' transit' := by
  refine ⟨hok, hidle, h.table, h.cur, fun p hp r hr => ⟨htransit p hp, ?_⟩, hpc⟩
  obtain ⟨htr, hret⟩ := h.parked p hp r hr
  exact hret.of_lists (hexit p hp htr)

/-! ## Broadcasts -/

/-- The waiters of a condition are woken, whoever does it and wherever the current thread
is. -/
theorem Inv.broadcast (h : Inv mem s q transit) {c : Condition} {lists : Lists}
    (hok : lists.Ok mem s.table.allocated (q.broadcast c) transit)
    (hout : ∀ t ∉ q.waiting c, lists.state t = s.lists.state t ∧
      lists.waitCond t = s.lists.waitCond t) :
    Inv mem { s with lists := lists } (q.broadcast c) transit := by
  have hexit := h.lists.broadcast_exited hok hout
  -- a thread that is in transit, or is not waiting, is not woken
  have htransit : ∀ t, transit = some t → t ∉ q.waiting c := by
    intro t ht hw
    exact (h.lists.placed t (Or.inr (Or.inr ⟨c, hw⟩))).2 ht
  have hstate : ∀ t, s.lists.state t ≠ .waiting → lists.state t = s.lists.state t := by
    intro t ht
    refine (hout t fun hw => ht ?_).1
    obtain ⟨hlt, htr⟩ := h.lists.placed t (Or.inr (Or.inr ⟨c, hw⟩))
    exact (h.lists.waiting_iff t hlt htr).mpr ⟨c, hw⟩
  have hwait : ∀ {d r}, Waiting s.table s.lists s.cur q transit d r →
      Waiting s.table lists s.cur (q.broadcast c) transit d r := by
    intro d r hw
    exact ⟨hw.transit, hw.running, (hout s.cur (htransit _ hw.transit)).1.trans hw.state, hw.idle,
      hw.known, hw.ret.of_lists (hexit s.cur)⟩
  have hcond : ∀ {d r}, Waiting s.table s.lists s.cur q transit d r →
      lists.waitCond s.cur = s.lists.waitCond s.cur :=
    fun hw => (hout s.cur (htransit _ hw.transit)).2
  have hleave : ∀ {r}, Leaving s.table s.lists s.cur q transit r →
      Leaving s.table lists s.cur (q.broadcast c) transit r := by
    intro r hl
    refine ⟨hl.transit, hl.running, ?_, ?_, hl.ret.of_lists (hexit s.cur)⟩
    · simp [hl.ready]
    · rw [Queues.broadcast_ready, List.head?_append_of_ne_nil _ hl.ready]
      exact hl.first
  have hexiting : Exiting s.lists s.cur q transit →
      Exiting lists s.cur (q.broadcast c) transit := by
    intro he
    exact ⟨he.transit, he.running, (hstate s.cur (by simp [he.state])).trans he.state, he.idle,
      he.main⟩
  refine ⟨hok, ?_, h.table, h.cur, fun p hp r hr => ?_, ?_⟩
  · exact h.idle.imp id fun hi => List.mem_append_left _ hi
  · exact (h.parked p hp r hr).imp id fun hret => hret.of_lists (hexit p)
  · have hpc := h.pc
    show PcOk s.table lists s.cur (q.broadcast c) transit s.pc
    cases hs : s.pc with
    | own => rw [hs] at hpc; exact hpc
    | spawnInsert child =>
      rw [hs] at hpc
      exact ⟨hpc.1, hpc.2.1, (hout child (htransit child hpc.1)).1.trans hpc.2.2.1, hpc.2.2.2⟩
    | spawnSetup child => rw [hs] at hpc; exact hpc
    | condWait d r =>
      rw [hs] at hpc
      exact ⟨hpc.1, hpc.2.1, hpc.2.2.1, hpc.2.2.2.of_lists (hexit s.cur)⟩
    | waitCond d r => rw [hs] at hpc; exact hwait hpc
    | waitNext d r => rw [hs] at hpc; exact ⟨hwait hpc.1, (hcond hpc.1).trans hpc.2⟩
    | waitInsert d r => rw [hs] at hpc; exact ⟨hwait hpc.1, (hcond hpc.1).trans hpc.2⟩
    | suspend r => rw [hs] at hpc; exact hleave hpc
    | dispatch r => rw [hs] at hpc; exact hleave hpc
    | spaceSwitch next r =>
      rw [hs] at hpc
      exact ⟨hpc.1, hpc.2.1, hpc.2.2.1, hpc.2.2.2.of_lists (hexit s.cur)⟩
    | swtch next r =>
      rw [hs] at hpc
      exact ⟨hpc.1, hpc.2.1, hpc.2.2.1, hpc.2.2.2.of_lists (hexit s.cur)⟩
    | resumed prev r =>
      rw [hs] at hpc
      exact ⟨hpc.1, hpc.2.1.of_lists (hexit s.cur), hpc.2.2.1,
        fun hp => hpc.2.2.2 ((hexit prev).mp hp)⟩
    | wakeAll d exiting =>
      rw [hs] at hpc
      cases exiting with
      | false => exact hpc
      | true => exact ⟨hexiting hpc.1, hpc.2⟩
    | exitBroadcast => rw [hs] at hpc; exact hexiting hpc
    | exitFailed => rw [hs] at hpc; exact hpc
    | joinLoop tid child => rw [hs] at hpc; exact hpc
    | joinAnyScan => rw [hs] at hpc; exact hpc
    | forkInsert child parent frame => rw [hs] at hpc; exact hpc
    | finishFork child frame => rw [hs] at hpc; exact hpc

/-- A condition outside `thread.c` is broadcast by an interrupt handler. -/
theorem fine_isr (h : Inv mem s q transit) (n : Nat) :
    Fine mem (do
      let lists ← s.lists.conditionBroadcast s.table.allocated (.dev n)
      return { s with lists := lists }) := by
  obtain ⟨lists, hbc, hok, hout⟩ := h.lists.conditionBroadcast (c := .dev n) trivial
  rw [hbc]
  exact ⟨_, _, h.broadcast hok hout⟩

/-- A thread that has exited may suspend. -/
theorem Exiting.leaving (he : Exiting s.lists s.cur q transit) (h : Inv mem s q transit) :
    Leaving s.table s.lists s.cur q transit .exit := by
  have hidle : idleThread ∈ q.ready := h.idle_ready (by simp [he.running])
  refine ⟨he.transit, by simp [he.running], List.ne_nil_of_mem hidle, ?_, h.cur, trivial, ?_, ?_,
    ?_⟩
  · -- a thread that has exited is on no list
    intro hfirst
    have hready := (h.lists.ready_iff s.cur h.cur (by simp [he.transit])).mpr
      (List.mem_of_head? hfirst)
    rw [he.state] at hready
    cases hready
  · simp [he.state]
  · intro _
    have hle : ∀ n : Nat, n ≠ mainThread → n ≠ idleThread → 2 ≤ n := by
      intro n
      unfold mainThread idleThread
      omega
    exact hle s.cur he.main he.idle
  · exact fun hi => absurd hi he.idle

/-- `condition_broadcast` past its fast path, which a thread calls, also on its way out. -/
theorem fine_wakeAll (h : Inv mem s q transit) {c : Condition} {exiting : Bool}
    (hs : s.pc = .wakeAll c exiting) : Fine mem (execute a s (.wakeAll c exiting)) := by
  have hpc := h.at_pc hs
  have hknown : Lists.Known s.table.allocated c := by
    cases exiting with
    | false => exact hpc.2
    | true => exact hpc.2
  obtain ⟨lists, hwake, hok, hout⟩ := h.lists.wakeAll hknown
  have hnew := h.broadcast hok hout
  simp only [execute, hwake, ok_bind]
  cases exiting with
  | false => exact ⟨_, _, hnew.goto .own hpc.1⟩
  | true =>
    have hexit : Exiting lists s.cur (q.broadcast c) transit := (hnew.at_pc hs).1
    exact ⟨_, _, hnew.goto (.suspend .exit) (hexit.leaving hnew)⟩

/-! ## Suspending -/

/-- `condition_wait` begins: the current thread leaves the processor. -/
theorem fine_condWait (h : Inv mem s q transit) {c : Condition} {r : Ret}
    (hs : s.pc = .condWait c r) : Fine mem (execute a s (.condWait c r)) := by
  obtain ⟨⟨rfl, hrun⟩, hidle, hknown, hret⟩ := h.at_pc hs
  have hstate := h.running hrun
  simp only [execute, require, if_pos hstate, ok_bind]
  refine ⟨q.stop, some s.cur, h.move ((h.lists.stop hrun).setState_transit .waiting) ?_
    (fun p hp _ => by rw [Lists.setState_of_ne _ hp]) (fun p hp => by simpa using Ne.symm hp) ?_⟩
  · exact Or.inr (h.idle_ready (by simpa [hrun] using hidle))
  · refine ⟨rfl, rfl, Lists.setState_self .., hidle, hknown, h.cur, hret.join, ?_,
      hret.spawned, hret.idle⟩
    rw [Lists.setState_self, ← hret.exited, hstate]
    simp

/-- The next assignments of `condition_wait` write to the current thread only. -/
theorem fine_waitCond (h : Inv mem s q transit) {c : Condition} {r : Ret}
    (hs : s.pc = .waitCond c r) : Fine mem (execute a s (.waitCond c r)) := by
  have hw := h.at_pc hs
  obtain rfl := hw.transit
  have hok : ({ s.lists with
      waitCond := Function.update s.lists.waitCond s.cur (some c) } : Lists).Ok mem
      s.table.allocated q (some s.cur) :=
    h.lists.transit_write (fun u hu => ⟨rfl, rfl, Function.update_of_ne hu ..⟩) rfl rfl
  exact ⟨q, _, h.move hok h.idle (fun _ _ _ => Iff.rfl)
    (fun p hp => by simpa using Ne.symm hp)
    ⟨⟨rfl, hw.running, hw.state, hw.idle, hw.known, hw.ret.of_lists Iff.rfl⟩,
      Function.update_self ..⟩⟩

theorem fine_waitNext (h : Inv mem s q transit) {c : Condition} {r : Ret}
    (hs : s.pc = .waitNext c r) : Fine mem (execute a s (.waitNext c r)) := by
  obtain ⟨hw, hcond⟩ := h.at_pc hs
  obtain rfl := hw.transit
  have hok : ({ s.lists with
      listNext := Function.update s.lists.listNext s.cur none } : Lists).Ok mem
      s.table.allocated q (some s.cur) :=
    h.lists.transit_write (fun u hu => ⟨rfl, Function.update_of_ne hu .., rfl⟩) rfl rfl
  exact ⟨q, _, h.move hok h.idle (fun _ _ _ => Iff.rfl)
    (fun p hp => by simpa using Ne.symm hp)
    ⟨⟨rfl, hw.running, hw.state, hw.idle, hw.known, hw.ret.of_lists Iff.rfl⟩, hcond⟩⟩

/-- The current thread arrives on the wait list. -/
theorem fine_waitInsert (h : Inv mem s q transit) {c : Condition} {r : Ret}
    (hs : s.pc = .waitInsert c r) : Fine mem (execute a s (.waitInsert c r)) := by
  obtain ⟨hw, hcond⟩ := h.at_pc hs
  obtain rfl := hw.transit
  obtain ⟨lists, hins, hok, hst⟩ := h.lists.insertWait h.cur hw.state hw.known hcond
  have hidle : idleThread ∈ q.ready := h.idle_ready (by simp [hw.running])
  simp only [execute, hins, ok_bind]
  refine ⟨_, _, h.move hok (Or.inr hidle) (fun p _ _ => by rw [hst]) (by simp) ?_⟩
  refine ⟨rfl, ?_, List.ne_nil_of_mem hidle, ?_, hw.ret.of_lists (by rw [hst])⟩
  · intro u hu
    have hnone : q.running = some u := hu
    rw [hw.running] at hnone
    cases hnone
  · exact fun hfirst => h.lists.not_placed (Or.inr (Or.inl (List.mem_of_head? hfirst)))

/-- The assertion at the beginning of `suspend_self` holds. -/
theorem fine_suspend (h : Inv mem s q transit) {r : Ret} (hs : s.pc = .suspend r) :
    Fine mem (execute a s (.suspend r)) := by
  have hl := h.at_pc hs
  have hhead : s.lists.readyList.head ≠ none := fun hnil =>
    hl.ready (h.lists.ready.head_eq_none.mp hnil)
  simp only [execute, require, if_pos hhead, ok_bind]
  exact ⟨_, _, h.goto (.dispatch r) hl⟩

/-- Nobody is lost when `suspend_self` chooses the next thread. -/
theorem mem_suspendQueues {u : Ptr} (hu : q.running = some u ∨ u ∈ q.ready) :
    (Lists.suspendQueues q).running = some u ∨ u ∈ (Lists.suspendQueues q).ready := by
  unfold Lists.suspendQueues
  cases hr : q.running with
  | none =>
    rw [hr] at hu
    exact q.mem_ready_dispatch (hu.resolve_left (by simp))
  | some t =>
    refine Queues.mem_ready_dispatch _ ?_
    rcases hu with hu | hu
    · rw [hr] at hu
      cases hu
      exact List.mem_append_right _ List.mem_cons_self
    · exact List.mem_append_left _ hu

theorem fine_dispatch (h : Inv mem s q transit) {r : Ret} (hs : s.pc = .dispatch r) :
    Fine mem (execute a s (.dispatch r)) := by
  have hl := h.at_pc hs
  obtain rfl := hl.transit
  obtain ⟨next, rest, hq⟩ := List.exists_cons_of_ne_nil hl.ready
  have hne : next ≠ s.cur := by
    rintro rfl
    exact hl.first (by rw [hq]; rfl)
  obtain ⟨lists, hdisp, hok, hexit, hrun⟩ := h.lists.dispatch h.cur hl.running hq hne
  simp only [execute, hdisp, ok_bind]
  exact ⟨_, _, h.move hok (mem_suspendQueues h.idle) (fun p _ _ => hexit p) (by simp)
    ⟨rfl, hrun, hne, hl.ret.of_lists (hexit s.cur)⟩⟩

theorem fine_spaceSwitch (h : Inv mem s q transit) {next : Ptr} {r : Ret}
    (hs : s.pc = .spaceSwitch next r) : Fine mem (execute a s (.spaceSwitch next r)) := by
  have hpc := h.at_pc hs
  simp only [execute]
  cases s.table.proc next with
  | none => exact ⟨_, _, h.goto (.swtch next r) hpc⟩
  | some p => exact ⟨q, transit, h.lists, h.idle, h.table, h.cur, h.parked, hpc⟩

/-- The context switch: the suspending thread is parked where it was, and the next one goes
on where it was parked. -/
theorem fine_swtch (h : Inv mem s q transit) {next : Ptr} {r : Ret} (hs : s.pc = .swtch next r) :
    Fine mem (execute a s (.swtch next r)) := by
  obtain ⟨rfl, hrun, hne, hret⟩ := h.at_pc hs
  have hnext := (h.lists.placed next (Or.inl hrun)).1
  have hsame : ∀ p ≠ s.cur, Function.update s.resume s.cur (.suspended r) p = s.resume p :=
    fun p hp => Function.update_of_ne hp ..
  simp only [execute, if_pos hnext]
  refine ⟨q, none, h.lists, h.idle, h.table, hnext, ?_, ?_⟩
  · intro p hp r' hr'
    by_cases hpc : p = s.cur
    · subst hpc
      have : Resume.suspended r = .suspended r' := (Function.update_self ..).symm.trans hr'
      cases this
      exact ⟨by simp, hret⟩
    · exact h.parked p hpc r' ((hsame p hpc).symm.trans hr')
  · show PcOk s.table s.lists next q none (threadSwtch s next r).pc
    unfold threadSwtch
    dsimp only
    rw [hsame next hne]
    cases hres : s.resume next with
    | start => exact ⟨rfl, hrun⟩
    | forked => exact ⟨rfl, hrun⟩
    | suspended r' =>
      exact ⟨⟨rfl, hrun⟩, (h.parked next hne r' hres).2, h.cur,
        fun hexit => hret.spawned (hret.exited.mp hexit)⟩

/-- `suspend_self` returns. A thread that has exited never gets here. -/
theorem Inv.resume (h : Inv mem s q none) (hrun : q.running = some s.cur) {r : Ret}
    (hret : RetOk s.table s.lists s.cur r) : Inv mem { s with pc := Ret.pc r } q none := by
  refine h.goto (Ret.pc r) ?_
  have hidle : r ≠ .own → s.cur ≠ idleThread := fun hr hi => hr (hret.idle hi)
  cases r with
  | own => exact ⟨rfl, hrun⟩
  | join tid child => exact ⟨⟨rfl, hrun⟩, hidle (by simp), hret.join⟩
  | joinAny => exact ⟨⟨rfl, hrun⟩, hidle (by simp)⟩
  | exit =>
    have hexited := hret.exited.mpr rfl
    rw [h.running hrun] at hexited
    cases hexited

theorem RetOk.of_table {t t' : Table} {l : Lists} {p : Ptr} {r : Ret} (h : RetOk t l p r)
    (halloc : t.allocated ≤ t'.allocated) (hjoin : JoinOk t p r → JoinOk t' p r) :
    RetOk t' l p r :=
  ⟨Nat.lt_of_lt_of_le h.allocated halloc, hjoin h.join, h.exited, h.spawned, h.idle⟩

/-- The stack of the previous thread is released if it has exited. -/
theorem fine_resumed (h : Inv mem s q transit) {prev : Ptr} {r : Ret}
    (hs : s.pc = .resumed prev r) : Fine mem (execute a s (.resumed prev r)) := by
  obtain ⟨⟨rfl, hrun⟩, hret, -⟩ := h.at_pc hs
  simp only [execute, release]
  by_cases hexit : s.lists.state prev = .exited
  · rw [if_pos hexit]
    set table : Table := { s.table with
      stackBase := Function.update s.table.stackBase prev 0
      stackSize := Function.update s.table.stackSize prev 0 } with htable
    -- the slots and the parents are the same
    have hjoin : ∀ p r, JoinOk s.table p r → JoinOk table p r := by
      intro p r hj
      cases r <;> exact hj
    have hnew : Inv mem { s with
        pages := a.freePage (u64 ((s.table.stackBase prev : Int) - PAGE_SIZE)) s.pages
        table := table
        pc := .own } q none := by
      refine ⟨h.lists, h.idle, ?_, h.cur, ?_, ⟨rfl, hrun⟩⟩
      · exact ⟨h.table.two_le, h.table.slot, h.table.main_id, h.table.parent⟩
      · intro p hp r hr
        exact (h.parked p hp r hr).imp id fun hret => hret.of_table (Nat.le_refl _) (hjoin p r)
    exact ⟨q, none, hnew.resume hrun (hret.of_table (Nat.le_refl _) (hjoin s.cur r))⟩
  · rw [if_neg hexit]
    exact ⟨q, none, h.resume hrun hret⟩

/-! ## Exiting -/

/-- `thread_exit`: the current thread is on no list any more. -/
theorem fine_exit (h : Inv mem s q transit) (hs : s.pc = .own) (hidle : s.cur ≠ idleThread) :
    Fine mem (call a s .exit) := by
  obtain ⟨rfl, hrun⟩ := h.at_pc hs
  unfold call
  by_cases hmain : s.cur = mainThread
  · rw [if_pos hmain]
    exact Or.inr rfl
  · rw [if_neg hmain]
    have hok := ((h.lists.stop hrun).setState_transit .exited).settle (Lists.setState_self ..)
    refine ⟨q.stop, none, h.move hok (Or.inr ?_)
      (fun p hp _ => by rw [Lists.setState_of_ne _ hp]) (by simp) ?_⟩
    · exact h.idle_ready (by simpa [hrun] using hidle)
    · exact ⟨rfl, rfl, Lists.setState_self .., hidle, hmain⟩

/-- Every thread but the main thread has a parent. -/
theorem fine_exitBroadcast (h : Inv mem s q transit) (hs : s.pc = .exitBroadcast) :
    Fine mem (execute a s .exitBroadcast) := by
  have he := h.at_pc hs
  obtain ⟨p, hlt, hp⟩ := h.table.parent s.cur h.cur he.main
  simp only [execute, hp]
  by_cases hempty : (s.lists.waitList (.childExit p)).head = none
  · rw [if_pos hempty]
    exact ⟨_, _, h.goto (.suspend .exit) (he.leaving h)⟩
  · rw [if_neg hempty]
    exact ⟨_, _, h.goto (.wakeAll (.childExit p) true) ⟨he, hlt⟩⟩

/-! ## Joining -/

/-- What every change of a parent keeps, the loop of `recycle_thread` keeps. -/
theorem foldl_reparent {P : (Ptr → Option Ptr) → Prop} {thr : Ptr}
    (hstep : ∀ parent child, P parent → parent child = some thr →
      P (Function.update parent child (parent thr)))
    (t : Table) (slots : List (Fin NTHR)) {parent : Ptr → Option Ptr} (h : P parent) :
    P (slots.foldl (reparent t thr) parent) := by
  induction slots generalizing parent with
  | nil => exact h
  | cons ctid slots ih =>
    rw [List.foldl_cons]
    apply ih
    unfold reparent
    cases t.thrtab ctid with
    | none => exact h
    | some child =>
      dsimp only
      split
      · next hc => exact hstep parent child h hc.2
      · exact h

/-- `recycle_thread` empties the slot of a thread that has exited. All but the main thread
still have a parent, and only the children of that thread have a new one. -/
theorem recycleThread_ok {t : Table} {l : Lists} (h : TableOk t) {tid : Fin NTHR} {thr : Ptr}
    (htid : tid ≠ 0) (hslot : t.thrtab tid = some thr) (hst : l.state thr = .exited) :
    ∃ t', recycleThread t l tid = .ok t' ∧ TableOk t' ∧ t'.allocated = t.allocated ∧
      ∀ p r, p ≠ thr → t.parent thr ≠ some p → JoinOk t p r → JoinOk t' p r := by
  obtain ⟨hlt, hid⟩ := h.slot tid thr hslot
  have hmain : thr ≠ mainThread := by
    rintro rfl
    rw [h.main_id] at hid
    exact htid (Fin.ext (by simpa using hid.symm))
  unfold recycleThread
  rw [hslot]
  simp only [require, if_pos (Fin.pos_iff_ne_zero.mpr htid), if_pos hst, ok_bind]
  refine ⟨_, rfl, ⟨h.two_le, ?_, h.main_id, ?_⟩, rfl, ?_⟩
  · intro slot p hp
    refine h.slot slot p ?_
    by_cases hs : slot = tid
    · subst hs
      simp at hp
    · simpa [Function.update_of_ne hs] using hp
  · -- the new parent of a child is the parent of `thr`
    refine foldl_reparent (P := fun parent => ∀ p < t.allocated, p ≠ mainThread →
      ∃ u < t.allocated, parent p = some u) ?_ t _ h.parent
    intro parent child hparent hchild p hp hpm
    by_cases hpc : p = child
    · subst hpc
      obtain ⟨u, hu, hthr⟩ := hparent thr hlt hmain
      exact ⟨u, hu, by rw [Function.update_self, hthr]⟩
    · rw [Function.update_of_ne hpc]
      exact hparent p hp hpm
  · intro p r hpt hnot hjoin
    cases r with
    | join slot child =>
      obtain ⟨hslot0, hthrtab, hpar⟩ := hjoin
      refine ⟨hslot0, ?_, ?_⟩
      · have hne : slot ≠ tid := by
          rintro rfl
          rw [hslot] at hthrtab
          cases hthrtab
          exact hnot hpar
        simpa [Function.update_of_ne hne] using hthrtab
      · refine foldl_reparent (P := fun parent => parent child = some p) ?_ t _ hpar
        intro parent c hparent hc
        by_cases hcc : child = c
        · subst hcc
          rw [hparent] at hc
          cases hc
          exact absurd rfl hpt
        · rw [Function.update_of_ne hcc]
          exact hparent
    | own => trivial
    | joinAny => trivial
    | exit => trivial

/-- The current thread recycles a child that has exited, whatever the rest of the kernel
does next. -/
theorem Inv.recycle (h : Inv mem s q none) (hrun : q.running = some s.cur) {tid : Fin NTHR}
    {child : Ptr} (hjoin : JoinOk s.table s.cur (.join tid child))
    (hst : s.lists.state child = .exited) :
    ∃ table, recycleThread s.table s.lists tid = .ok table ∧
      ∀ a0, Inv mem { s with table := table, a0 := a0, pc := .own } q none := by
  obtain ⟨htid, hslot, hparent⟩ := hjoin
  obtain ⟨table, hrec, htable, halloc, hkeep⟩ := recycleThread_ok h.table htid hslot hst
  refine ⟨table, hrec, fun a0 => ⟨?_, h.idle, htable, ?_, ?_, ⟨rfl, hrun⟩⟩⟩
  · rw [halloc]
    exact h.lists
  · rw [halloc]
    exact h.cur
  · intro p hp r hr
    refine ⟨by simp, ?_⟩
    have hret := (h.parked p hp r hr).2
    by_cases hpc : p = child
    · -- a thread that has exited joins nobody
      have hexit : r = .exit := hret.exited.mp (hpc ▸ hst)
      subst hexit
      exact hret.of_table (Nat.le_of_eq halloc.symm) fun _ => trivial
    · refine hret.of_table (Nat.le_of_eq halloc.symm) (hkeep p r hpc ?_)
      rw [hparent]
      simpa using Ne.symm hp

theorem fine_joinLoop (h : Inv mem s q transit) {tid : Fin NTHR} {child : Ptr}
    (hs : s.pc = .joinLoop tid child) : Fine mem (execute a s (.joinLoop tid child)) := by
  obtain ⟨⟨rfl, hrun⟩, hidle, hjoin⟩ := h.at_pc hs
  simp only [execute]
  by_cases hst : s.lists.state child = .exited
  · obtain ⟨table, hrec, hnew⟩ := h.recycle hrun hjoin hst
    rw [if_pos hst, hrec]
    exact ⟨_, _, hnew tid⟩
  · rw [if_neg hst]
    refine ⟨_, _, h.goto (.condWait (.childExit s.cur) (.join tid child)) ?_⟩
    refine ⟨⟨rfl, hrun⟩, hidle, h.cur, h.cur, hjoin, ?_, nofun, fun hi => absurd hi hidle⟩
    simp [h.running hrun]

/-- The scan of `thread_join_any` finds children of the current thread. -/
theorem mem_children {tid : Fin NTHR} {child : Ptr} (hc : (tid, child) ∈ children s) :
    JoinOk s.table s.cur (.join tid child) := by
  unfold children at hc
  obtain ⟨slot, -, hslot⟩ := List.mem_filterMap.mp hc
  cases htab : s.table.thrtab slot with
  | none => simp [htab] at hslot
  | some p =>
    simp only [htab, Option.ite_none_right_eq_some, Option.some.injEq, Prod.mk.injEq] at hslot
    obtain ⟨⟨hne, hpar⟩, rfl, rfl⟩ := hslot
    exact ⟨hne, htab, hpar⟩

theorem exitedChild_some {tid : Fin NTHR} {child : Ptr} (hc : exitedChild s = some (tid, child)) :
    JoinOk s.table s.cur (.join tid child) ∧ s.lists.state child = .exited :=
  ⟨mem_children (List.mem_of_find?_eq_some hc), by simpa using List.find?_some hc⟩

theorem fine_joinAnyScan (h : Inv mem s q transit) (hs : s.pc = .joinAnyScan) :
    Fine mem (execute a s .joinAnyScan) := by
  obtain ⟨⟨rfl, hrun⟩, hidle⟩ := h.at_pc hs
  simp only [execute]
  cases hc : exitedChild s with
  | none => exact Or.inl rfl
  | some c =>
    obtain ⟨hjoin, hst⟩ := exitedChild_some hc
    obtain ⟨table, hrec, hnew⟩ := h.recycle hrun hjoin hst
    simp only [hrec]
    exact ⟨_, _, hnew c.1⟩

/-- `thread_join` returns an error or loops until the child has exited. -/
theorem fine_join (h : Inv mem s q transit) (hs : s.pc = .own) (hidle : s.cur ≠ idleThread)
    (tid : Int) : Fine mem (.ok (threadJoin s tid)) := by
  have hpc := h.at_pc hs
  have herr : Fine mem (.ok { s with a0 := -1 }) :=
    ⟨q, transit, h.lists, h.idle, h.table, h.cur, h.parked, h.pc⟩
  unfold threadJoin
  split
  · next htid =>
    dsimp only
    split
    · exact herr
    · next child hslot =>
      split
      · next hparent =>
        refine ⟨q, transit, h.goto (.joinLoop _ child) ⟨hpc, hidle, ?_, hslot, hparent⟩⟩
        have := htid.1
        simp only [ne_eq, Fin.ext_iff, Fin.val_zero]
        omega
      · exact herr
  · exact herr

theorem fine_joinAny (h : Inv mem s q transit) (hs : s.pc = .own) (hidle : s.cur ≠ idleThread) :
    Fine mem (threadJoinAny s) := by
  obtain ⟨rfl, hrun⟩ := h.at_pc hs
  unfold threadJoinAny
  cases exitedChild s with
  | some c => exact fine_join h hs hidle c.1
  | none =>
    dsimp only
    split
    · exact Or.inl rfl
    · refine ⟨_, _, h.goto (.condWait (.childExit s.cur) .joinAny) ?_⟩
      refine ⟨⟨rfl, hrun⟩, hidle, h.cur, h.cur, trivial, ?_, nofun, fun hi => absurd hi hidle⟩
      simp [h.running hrun]

end Thread

end RiscvKernel
