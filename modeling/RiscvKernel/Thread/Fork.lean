import RiscvKernel.Thread.Runs

/-!
# Fork

What a fork should do to the scheduler (`ForkOk`), and when it does (`ForkCond`), as long as the
copy of the kernel stack goes over no thread (`CopyClear`). `thread_fork_to_user` takes
the forking thread from the register `tp` that the trap handler saved on entry from user mode. A
process enters user mode with `tp` still pointing to its thread, but a forked child gets a copy of
the whole trap frame, so its `tp` is the thread of its parent from then on: when the child forks,
its parent is put on the ready list, a second time if it is still there.
-/

namespace RiscvKernel

open Lib

namespace Thread

variable {μ : Type}

/-- `thread_fork_to_user` from its call to the point where the child goes on, without an
interrupt in between. -/
def forkEvents (f : ForkArgs) : List Event := [.call (.fork f), .step, .step]

/-- What a fork by the current thread should do: the current thread goes to the back of the
ready list and the new thread, its child, runs. The child is in a slot that was empty, its
`child_exit` is empty, and nothing else changes. -/
structure ForkOk (s s' : Kernel μ) : Prop where
  cur : s'.cur = s.table.allocated
  lists : ∃ ready waiting, SchedulerOk s ready waiting ∧ SchedulerOk s' (ready ++ [s.cur]) waiting
  parent_ready : s'.lists.state s.cur = .ready
  child_running : s'.lists.state s.table.allocated = .running
  others : ∀ t, t ≠ s.cur → t ≠ s.table.allocated → s'.lists.state t = s.lists.state t
  parent : s'.table.parent s.table.allocated = some s.cur
  slot : ∃ tid, s.table.thrtab tid = none ∧ s'.table.id s.table.allocated = (tid.val : Int) ∧
    s'.table.thrtab = Function.update s.table.thrtab tid (some s.table.allocated)
  child_exit : s'.lists.waitList (.childExit s.table.allocated) = Chain.nil

/-- The fork does what it should, and without a free slot it creates no thread. -/
def ForkSpec (s : Kernel μ) (r : Option (Except Stop (Kernel μ))) : Prop :=
  ((∃ tid, s.table.thrtab tid = none) → ∃ s', r = some (.ok s') ∧ ForkOk s s') ∧
    ((∀ tid, s.table.thrtab tid ≠ none) →
      r = some (.error .panic) ∨ ∃ s', r = some (.ok s') ∧ s'.table.allocated = s.table.allocated)

/-- The copy of the kernel stack, from the top of the page that the child gets down, goes over no
thread and no other stack, and the structure of the child is not over another one. -/
def CopyClear (s : Kernel μ) (f : ForkArgs) (room : Room) : Prop :=
  let child := s.table.allocated
  let t := s.table.fill child 0 s.cur none room
  t.Apart ∧ t.Untouched (some child) (stackAnchor room.page - 8 * 24) ∧
    ∀ k < f.frame.length, t.Untouched (some child) (stackAnchor room.page - 8 * (k + 1))

variable {a : PageAlloc μ} {mem : Condition → Chain Ptr} {s s₁ : Kernel μ}
  {q : Queues Condition Ptr} {f : ForkArgs} {room : Room} {pages : μ}

/-- The call, by a thread other than the idle thread. -/
theorem step_fork (hown : s.pc = .own) (hidle : s.cur ≠ idleThread)
    (h : threadForkToUser a s f = .ok s₁) : step a s (.call (.fork f)) = some (.ok s₁) := by
  refine step_of_advance none ?_ fun w hw => by cases hw
  have hmay : MayCall s (.fork f) := fun hi => absurd hi hidle
  simp only [advance, hown, if_pos hmay]
  exact congrArg some h

/-- The end of the fork, if its copy is clear. -/
theorem step_finishFork {k : Kernel μ} (hpc : k.pc = .finishFork s.table.allocated f.frame)
    (htable : ∃ id parent proc thrtab, k.table =
      { s.table.fill s.table.allocated id parent proc room with thrtab := thrtab })
    (hclear : CopyClear s f room) :
    step a k .step = some (.ok { k with
      pages := storeAll a (frameStores k s.table.allocated f.frame) k.pages
      resume := Function.update k.resume k.cur .forked
      cur := s.table.allocated
      pc := .own }) := by
  obtain ⟨id, parent, proc, thrtab, htable⟩ := htable
  refine step_of_advance (some s.table.allocated) (by simp only [advance, hpc]; rfl)
    fun w hw => ?_
  have hbase : k.table.stackBase s.table.allocated = stackAnchor room.page := by
    rw [htable]
    exact Function.update_self ..
  -- neither the words that are asked about nor the answer depend on the rest of the structure
  show k.table.Untouched _ _
  rw [htable]
  simp only [stores, hpc, frameStores, hbase] at hw
  obtain hw | hw := List.mem_append.mp hw
  · obtain ⟨n, hn, rfl⟩ := List.mem_mapIdx.mp hw
    exact hclear.2.2 n hn
  · obtain rfl := List.mem_singleton.mp hw
    exact hclear.2.1

/-- Under the condition the fork does what it should. -/
theorem forkOk_of_cond (h : Inv mem s q none) (hown : s.pc = .own) (hidle : s.cur ≠ idleThread)
    (hrun : q.running = some s.cur) (hf : ForkCond s f)
    (hnew : newThread a s.pages = .ok (room, pages)) (hclear : CopyClear s f room) :
    ∃ s', runs a s (forkEvents f) = some (.ok s') ∧ ForkOk s s' := by
  obtain ⟨tid, hslot, hempty⟩ := forkSlot_isSome hf.slot
  have hinv := h.forked hrun hf hempty room pages
  -- the two steps after the allocation
  obtain ⟨s₁, hstep, hinv₁, hs₁, hwait, hstate⟩ := hinv.forkInsert (a := a) rfl
  have hpc₁ : s₁.pc = .finishFork s.table.allocated f.frame := by rw [hs₁]
  have htable : s₁.table = s.table.enter tid (s.table.threadAt f.tp) (some f.proc) room := by
    rw [hs₁]
    rfl
  have hinsert : step a (forked s f tid room pages) .step = some (.ok s₁) := by
    refine step_of_advance none (congrArg some hstep) fun w hw => ?_
    have hparent : s.table.threadAt f.tp < s.table.allocated + 1 := by
      rw [hf.tp]
      exact Nat.lt_succ_of_lt h.cur
    have hnone : stores a (forked s f tid room pages) .step = [] := if_pos hparent
    rw [hnone] at hw
    cases hw
  have hfinish : step a s₁ .step = _ :=
    step_finishFork (a := a) hpc₁ ⟨_, _, _, _, htable⟩ hclear
  have hcur : s.cur ≠ s.table.allocated := Nat.ne_of_lt h.cur
  have hstate' : s₁.lists.state = Function.update (Function.update s.lists.state s.cur .ready)
      s.table.allocated .running := hstate
  have hcall := step_fork (f := f) hown hidle (threadForkToUser_eq hnew hslot)
  refine ⟨_, (runs_of_step hcall).trans ((runs_of_step hinsert).trans (runs_of_step hfinish)), ?_⟩
  refine ⟨rfl, ⟨q.ready, q.waiting, h.schedulerOk hrun,
    (hinv₁.finishFork hpc₁ _).schedulerOk rfl⟩, ?_, ?_, ?_, ?_, ⟨tid, hempty, ?_, ?_⟩, ?_⟩
  · show s₁.lists.state s.cur = .ready
    rw [hstate', Function.update_of_ne hcur, Function.update_self]
  · show s₁.lists.state s.table.allocated = .running
    rw [hstate', Function.update_self]
  · intro t ht htc
    show s₁.lists.state t = s.lists.state t
    rw [hstate', Function.update_of_ne htc, Function.update_of_ne ht]
  · show s₁.table.parent s.table.allocated = some s.cur
    rw [htable, ← hf.tp]
    exact Function.update_self ..
  · show s₁.table.id s.table.allocated = (tid.val : Int)
    rw [htable]
    exact Function.update_self ..
  · show s₁.table.thrtab = _
    rw [htable]
    rfl
  · show s₁.lists.waitList (.childExit s.table.allocated) = Chain.nil
    rw [hwait]
    exact hf.fresh

/-- What is known about the state in which the parent is inserted, whatever `tp` is and
whether or not there was a slot. -/
theorem threadForkToUser_inv (hnew : newThread a s.pages = .ok (room, pages)) :
    ∃ s₁, threadForkToUser a s f = .ok s₁ ∧ s₁.lists = s.lists ∧
      s₁.pc = .forkInsert s.table.allocated (s.table.threadAt f.tp) f.frame ∧
      ∃ id parent proc thrtab, s₁.table =
        { s.table.fill s.table.allocated id parent proc room with thrtab := thrtab } := by
  unfold threadForkToUser
  rw [hnew, ok_bind]
  exact ⟨_, rfl, rfl, rfl, _, _, _, _, rfl⟩

theorem insertReady_spec {l l' : Lists} {t : Ptr} (h : l.insertReady t = .ok l') :
    l'.waitList = l.waitList ∧ l'.readyList.tail = some t := by
  unfold Lists.insertReady at h
  split at h
  · cases h
  · next list links hins =>
    obtain rfl := Except.ok.inj h
    refine ⟨rfl, ?_⟩
    unfold Chain.insert at hins
    split at hins
    · split at hins
      · cases hins
      · obtain ⟨rfl, -⟩ := Prod.mk.inj (Option.some.inj hins)
        rfl
    · split at hins
      · obtain ⟨rfl, -⟩ := Prod.mk.inj (Option.some.inj hins)
        rfl
      · cases hins

/-- What is known about every fork for which there is memory: it fails, or the thread in `tp` is
the last one that is ready and there is one more thread. If that is an old thread and the copy is
clear, the wait lists are those from before. -/
theorem runs_forkEvents (hown : s.pc = .own) (hidle : s.cur ≠ idleThread)
    (hnew : newThread a s.pages = .ok (room, pages)) :
    runs a s (forkEvents f) = some (.error .assertion) ∨ ∃ s',
      runs a s (forkEvents f) = some (.ok s') ∧
      s'.lists.readyList.tail = some (s.table.threadAt f.tp) ∧
      s'.table.allocated = s.table.allocated + 1 ∧
      (s.table.threadAt f.tp < s.table.allocated → CopyClear s f room →
        s'.lists.waitList = s.lists.waitList) := by
  obtain ⟨s₁, hs₁, hlists, hpc, htable⟩ := threadForkToUser_inv (f := f) hnew
  have halloc : s₁.table.allocated = s.table.allocated + 1 := by
    obtain ⟨_, _, _, _, htable⟩ := htable
    rw [htable]
    rfl
  have hcall : runs a s (forkEvents f) = runs a s₁ [.step, .step] :=
    runs_of_step (step_fork hown hidle hs₁)
  rw [hcall]
  cases hins : s₁.lists.insertReady (s.table.threadAt f.tp) with
  | error stop =>
    have hstop : stop = .assertion := by
      unfold Lists.insertReady at hins
      split at hins
      · exact (Except.error.inj hins).symm
      · cases hins
    have hstep : step a s₁ .step = some (.error .assertion) := by
      simp only [step, advance, hpc, execute, hins, hstop]
      rfl
    exact Or.inl (runs_of_error hstep)
  | ok raw =>
    obtain ⟨hwait, htail⟩ := insertReady_spec hins
    set k : Kernel μ := { s₁ with
      pages := storeAll a (parentStores s₁ (s.table.threadAt f.tp)) s₁.pages
      lists := (raw.setState (s.table.threadAt f.tp) .ready).setState s.table.allocated .running
      pc := .finishFork s.table.allocated f.frame } with hk
    have hstep : step a s₁ .step =
        some (.ok ((parentStores s₁ (s.table.threadAt f.tp)).foldl poke k)) := by
      simp only [step, advance, stores, hpc, execute, hins]
      rfl
    obtain ⟨hready, hcount, hpc', -⟩ := foldl_poke_frame (parentStores s₁ (s.table.threadAt f.tp)) k
    have hpc₂ : ((parentStores s₁ (s.table.threadAt f.tp)).foldl poke k).pc =
        .finishFork s.table.allocated f.frame := hpc'
    have hsecond : ∃ s', step a ((parentStores s₁ (s.table.threadAt f.tp)).foldl poke k) .step =
        some (.ok s') ∧
        s'.lists.readyList = ((parentStores s₁ (s.table.threadAt f.tp)).foldl poke k).lists.readyList ∧
        s'.table.allocated = ((parentStores s₁ (s.table.threadAt f.tp)).foldl poke k).table.allocated := by
      simp only [step, advance, stores, hpc₂, execute]
      refine ⟨_, rfl, ?_, ?_⟩
      · rw [(foldl_poke_frame _ _).1]
      · rw [(foldl_poke_frame _ _).2.1]
    obtain ⟨s', hs', hready', hcount'⟩ := hsecond
    refine Or.inr ⟨s', (runs_of_step hstep).trans (runs_of_step hs'), ?_, ?_, fun hlt hclear => ?_⟩
    · rw [hready', hready]
      exact htail
    · rw [hcount', hcount]
      exact halloc
    · -- nothing is stored over a thread
      have hnone : parentStores s₁ (s.table.threadAt f.tp) = [] :=
        parentStores_of_lt (by rw [halloc]; exact Nat.lt_succ_of_lt hlt)
      rw [hnone] at hs'
      have hfinish : step a k .step = _ :=
        step_finishFork (a := a) rfl htable hclear
      obtain rfl := Except.ok.inj (Option.some.inj (hs'.symm.trans hfinish))
      show raw.waitList = s.lists.waitList
      rw [hwait, hlists]

/-- The main thread spawns a thread and yields; the idle thread yields; the new thread runs. -/
def firstProcess : List Event := [calls .spawn 2, calls .yield 4, calls .yield 4].flatten

/-- A fork by thread 2, with 50 words on its kernel stack. -/
def firstFork : ForkArgs := ⟨0x80000000, 1, 0, List.replicate 50 7⟩

instance (s : Kernel μ) (f : ForkArgs) (room : Room) : Decidable (CopyClear s f room) :=
  inferInstanceAs (Decidable (_ ∧ _ ∧ ∀ k < f.frame.length, _))

/-- What there is to see when thread 3 runs. -/
def childView (s : Kernel Nat) : Bool × ThreadState × List (Option Ptr) :=
  (s.pc.settled, s.lists.state 2, [some s.cur, s.table.parent 3, s.table.thrtab 3,
    some s.table.allocated])

end Thread

end RiscvKernel
