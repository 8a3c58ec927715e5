import RiscvKernel.Lib.Prog
import RiscvKernel.Lib.Queues

/-!
# Kernel threads over conditions and sleep locks

The machine on which kernel code runs: threads execute `Lib.Prog` code in S mode,
where nothing preempts them, and lose the processor only inside `condition_wait`
(`thread.c`), that is in a contended `lock_acquire` (`lock.h`) or while waiting for
a device. Between calls a thread is in U mode, where an interrupt makes it yield.

* The ready list and the wait list of every condition are the FIFO queues of
  `Lib.Queues`; the idle thread is the idle processor.
* `lk->tid` is an `Int`, `-1` when the lock is free. `inside` is ghost: the threads
  between a returned `lock_acquire` and their `lock_release`.
* A failed assertion or a `panic` stops the machine: the step has no result.
-/

namespace RiscvKernel

open Lib

/-- The conditions threads wait on: the `cond` member of a lock, or another one. -/
inductive Cond (ι κ : Type) where
  | lock (l : ι)
  | dev (c : κ)
  deriving DecidableEq

/-- Where a thread is: in user mode, or inside call `o` with code `p` left to run. -/
inductive Mode (σ ι κ α Ω : Type) where
  | user
  | kern (o : Ω) (p : Prog σ ι κ α)

/-- What the threads can call and what the device does. A call either runs kernel
code over the shared state `σ`, or is a single step on the separate state `ρ`. `serve`
completes the pending request, if there is one; its ISR broadcasts `irq`. -/
structure Sys (σ ρ ι κ α Ω : Type) where
  code : Ω → Prog σ ι κ α ⊕ (ρ → α × ρ)
  serve : σ → Option σ
  irq : κ

structure Machine (σ ρ ι κ α Ω : Type) where
  sh : σ
  aux : ρ
  tid : ι → Int
  q : Queues (Cond ι κ) Nat
  mode : Nat → Mode σ ι κ α Ω
  inside : ι → List Nat
  calls : Nat → List Ω
  log : List (Nat × Ω × α)

inductive Event (Ω : Type) where
  | call (o : Ω)
  | run
  | preempt
  | dispatch
  | irq

namespace Machine

variable {σ ρ ι κ α Ω : Type} [DecidableEq ι] [DecidableEq κ]

/-! ## `lock.h` -/

/-- `lock_init`: no waiter and no holder. -/
def lockInit (m : Machine σ ρ ι κ α Ω) (l : ι) : Machine σ ρ ι κ α Ω :=
  { m with
    q := { m.q with waiting := Function.update m.q.waiting (.lock l) [] }
    tid := Function.update m.tid l (-1) }

/-- `t` goes on with `p`. -/
def goOn (m : Machine σ ρ ι κ α Ω) (t : Nat) (o : Ω) (p : Prog σ ι κ α) :
    Machine σ ρ ι κ α Ω :=
  { m with mode := Function.update m.mode t (.kern o p) }

/-- One test of the `while (lk->tid != -1)` loop of `lock_acquire` by thread `t`. A
thread that finds the lock taken waits and will test again when it is resumed. -/
def lockAcquire (m : Machine σ ρ ι κ α Ω) (t : Nat) (o : Ω) (l : ι) (k : Prog σ ι κ α) :
    Machine σ ρ ι κ α Ω :=
  if m.tid l ≠ -1 then
    { m with q := m.q.block (.lock l) t }
  else
    { m.goOn t o k with
      tid := Function.update m.tid l t
      inside := Function.update m.inside l (t :: m.inside l) }

/-- `lock_release` by thread `t`: the assertion, then `lk->tid = -1` and the broadcast. -/
def lockRelease (m : Machine σ ρ ι κ α Ω) (t : Nat) (o : Ω) (l : ι) (k : Prog σ ι κ α) :
    Option (Machine σ ρ ι κ α Ω) :=
  if m.tid l = t then
    some { m.goOn t o k with
      tid := Function.update m.tid l (-1)
      q := m.q.broadcast (.lock l)
      inside := Function.update m.inside l ((m.inside l).erase t) }
  else
    none

/-! ## Steps -/

/-- Thread `t`, inside call `o`, executes the next step of its code. -/
def exec (m : Machine σ ρ ι κ α Ω) (t : Nat) (o : Ω) :
    Prog σ ι κ α → Option (Machine σ ρ ι κ α Ω)
  | .ret a =>
    some { m with
      mode := Function.update m.mode t .user
      log := m.log ++ [(t, o, a)] }
  | .act u k => some { m.goOn t o (k m.sh) with sh := u m.sh }
  | .acquire l k => some (m.lockAcquire t o l k)
  | .release l k => m.lockRelease t o l k
  | .sleep u c k => some { m.goOn t o k with sh := u m.sh, q := m.q.block (.dev c) t }
  | .crash => none

/-- Thread `t`, in user mode, enters call `o`. -/
def enter (sys : Sys σ ρ ι κ α Ω) (m : Machine σ ρ ι κ α Ω) (t : Nat) (o : Ω) :
    Machine σ ρ ι κ α Ω :=
  match sys.code o with
  | .inl p =>
    { m.goOn t o p with calls := Function.update m.calls t (m.calls t ++ [o]) }
  | .inr f =>
    { m with
      aux := (f m.aux).2
      calls := Function.update m.calls t (m.calls t ++ [o])
      log := m.log ++ [(t, o, (f m.aux).1)] }

/-- One step of the machine. `none`: the event cannot happen here, or the kernel stops. -/
def step (sys : Sys σ ρ ι κ α Ω) (m : Machine σ ρ ι κ α Ω) :
    Event Ω → Option (Machine σ ρ ι κ α Ω)
  | .call o =>
    match m.q.running with
    | some t => match m.mode t with
      | .user => some (m.enter sys t o)
      | .kern _ _ => none
    | none => none
  | .run =>
    match m.q.running with
    | some t => match m.mode t with
      | .user => none
      | .kern o p => m.exec t o p
    | none => none
  | .preempt =>
    match m.q.running with
    | some t => match m.mode t with
      | .user => some { m with q := m.q.yield t }
      | .kern _ _ => none
    | none => none
  | .dispatch =>
    match m.q.running with
    | some _ => none
    | none => some { m with q := m.q.dispatch }
  | .irq =>
    match sys.serve m.sh with
    | some s => some { m with sh := s, q := m.q.broadcast (.dev sys.irq) }
    | none => none

/-- A run: the machine after a sequence of events. -/
def runs (sys : Sys σ ρ ι κ α Ω) (m : Machine σ ρ ι κ α Ω) (es : List (Event Ω)) :
    Option (Machine σ ρ ι κ α Ω) :=
  es.foldlM (fun m e => m.step sys e) m

/-- Every step of the run `es` from `m` is one that `ok` allows. -/
def Along (sys : Sys σ ρ ι κ α Ω) (ok : Machine σ ρ ι κ α Ω → Event Ω → Prop) :
    Machine σ ρ ι κ α Ω → List (Event Ω) → Prop
  | _, [] => True
  | m, e :: es => ok m e ∧ ∀ m', m.step sys e = some m' → Along sys ok m' es

theorem Along.mono {sys : Sys σ ρ ι κ α Ω} {ok ok' : Machine σ ρ ι κ α Ω → Event Ω → Prop}
    {m : Machine σ ρ ι κ α Ω} {es : List (Event Ω)} (h : Along sys ok m es)
    (himp : ∀ m e, ok m e → ok' m e) : Along sys ok' m es := by
  induction es generalizing m with
  | nil => trivial
  | cons e es ih => exact ⟨himp m e h.1, fun m' hs => ih (h.2 m' hs)⟩

/-- `m₁` is one of the states of the run `es` from `m`. -/
def Visited (sys : Sys σ ρ ι κ α Ω) (m : Machine σ ρ ι κ α Ω) (es : List (Event Ω))
    (m₁ : Machine σ ρ ι κ α Ω) : Prop :=
  ∃ es₁ es₂, es = es₁ ++ es₂ ∧ m.runs sys es₁ = some m₁

theorem runs_snoc {sys : Sys σ ρ ι κ α Ω} {m m₁ m₂ : Machine σ ρ ι κ α Ω}
    {es : List (Event Ω)} {e : Event Ω} (hrun : m.runs sys es = some m₁)
    (hstep : m₁.step sys e = some m₂) : m.runs sys (es ++ [e]) = some m₂ := by
  unfold runs at hrun ⊢
  rw [List.foldlM_append, hrun]
  simp [hstep]

/-- **The run rule.** What holds at the start and is kept by every allowed step between
states of the run holds after the run. -/
theorem runs_invariant_visited {sys : Sys σ ρ ι κ α Ω} (P : Machine σ ρ ι κ α Ω → Prop)
    {ok : Machine σ ρ ι κ α Ω → Event Ω → Prop} {m m' : Machine σ ρ ι κ α Ω}
    {es : List (Event Ω)}
    (hstep : ∀ m₁ e m₂, P m₁ → Visited sys m es m₁ → Visited sys m es m₂ → ok m₁ e →
      m₁.step sys e = some m₂ → P m₂)
    (h : P m) (halong : Along sys ok m es) (hrun : m.runs sys es = some m') : P m' := by
  -- induction on what is left of the run; `done` is the part behind `m₁`
  have key : ∀ rest done m₁, es = done ++ rest → m.runs sys done = some m₁ → P m₁ →
      Along sys ok m₁ rest → m₁.runs sys rest = some m' → P m' := by
    intro rest
    induction rest with
    | nil =>
      intro done m₁ _ _ hP _ hrest
      cases hrest
      exact hP
    | cons e rest ih =>
      intro done m₁ hes hdone hP hok hrest
      simp only [runs, List.foldlM_cons] at hrest
      obtain ⟨m₂, hs, hrest⟩ := Option.bind_eq_some_iff.mp hrest
      have hes' : es = (done ++ [e]) ++ rest := by simp [hes]
      have hdone' := runs_snoc hdone hs
      exact ih (done ++ [e]) m₂ hes' hdone'
        (hstep m₁ e m₂ hP ⟨done, _, hes, hdone⟩ ⟨done ++ [e], rest, hes', hdone'⟩ hok.1 hs)
        (hok.2 m₂ hs) hrest
  exact key es [] m rfl rfl h halong hrun

/-- The events of the run are allowed in every state. -/
theorem along_of_forall {sys : Sys σ ρ ι κ α Ω} {ok : Machine σ ρ ι κ α Ω → Event Ω → Prop}
    {es : List (Event Ω)} (hok : ∀ e ∈ es, ∀ m, ok m e) (m : Machine σ ρ ι κ α Ω) :
    Along sys ok m es := by
  induction es generalizing m with
  | nil => trivial
  | cons e es ih =>
    exact ⟨hok e List.mem_cons_self m, fun m' _ =>
      ih (fun e he => hok e (List.mem_cons_of_mem _ he)) m'⟩

/-- The run rule when every step is allowed. -/
theorem runs_invariant {sys : Sys σ ρ ι κ α Ω} (P : Machine σ ρ ι κ α Ω → Prop)
    (hstep : ∀ m e m', P m → m.step sys e = some m' → P m')
    {m m' : Machine σ ρ ι κ α Ω} {es : List (Event Ω)} (h : P m)
    (hrun : m.runs sys es = some m') : P m' :=
  runs_invariant_visited P (fun m e m' hm _ _ _ hs => hstep m e m' hm hs) h
    (along_of_forall (fun _ _ _ => trivial) m) hrun

/-! ## What a step can do -/

/-- The shapes of a step, with its guards: the case analysis every invariant starts from. -/
inductive Cases (sys : Sys σ ρ ι κ α Ω) (m : Machine σ ρ ι κ α Ω) :
    Event Ω → Machine σ ρ ι κ α Ω → Prop where
  | enter (t : Nat) (o : Ω) (hrun : m.q.running = some t) (hmode : m.mode t = .user) :
      Cases sys m (.call o) (m.enter sys t o)
  | exec (t : Nat) (o : Ω) (p : Prog σ ι κ α) (m' : Machine σ ρ ι κ α Ω)
      (hrun : m.q.running = some t) (hmode : m.mode t = .kern o p)
      (hexec : m.exec t o p = some m') : Cases sys m .run m'
  | preempt (t : Nat) (hrun : m.q.running = some t) (hmode : m.mode t = .user) :
      Cases sys m .preempt { m with q := m.q.yield t }
  | dispatch (hrun : m.q.running = none) :
      Cases sys m .dispatch { m with q := m.q.dispatch }
  | irq (s : σ) (hserve : sys.serve m.sh = some s) :
      Cases sys m .irq { m with sh := s, q := m.q.broadcast (.dev sys.irq) }

theorem step_cases {sys : Sys σ ρ ι κ α Ω} {m m' : Machine σ ρ ι κ α Ω} {e : Event Ω}
    (h : m.step sys e = some m') : Cases sys m e m' := by
  cases e with
  | call o =>
    simp only [step] at h
    split at h
    · next t hrun =>
      split at h
      · next hmode => cases h; exact .enter t o hrun hmode
      · cases h
    · cases h
  | run =>
    simp only [step] at h
    split at h
    · next t hrun =>
      split at h
      · cases h
      · next o p hmode => exact .exec t o p m' hrun hmode h
    · cases h
  | preempt =>
    simp only [step] at h
    split at h
    · next t hrun =>
      split at h
      · next hmode => cases h; exact .preempt t hrun hmode
      · cases h
    · cases h
  | dispatch =>
    simp only [step] at h
    split at h
    · cases h
    · next hrun => cases h; exact .dispatch hrun
  | irq =>
    simp only [step] at h
    split at h
    · next s hs => cases h; exact .irq s hs
    · cases h

/-! ## Every thread is in one place -/

theorem wf_exec {m m' : Machine σ ρ ι κ α Ω} {t : Nat} {o : Ω} {p : Prog σ ι κ α}
    (h : m.q.Wf) (hrun : m.q.running = some t) (hexec : m.exec t o p = some m') : m'.q.Wf := by
  cases p with
  | ret a => cases hexec; exact h
  | act u k => cases hexec; exact h
  | acquire l k =>
    cases hexec
    unfold lockAcquire
    split
    · exact h.block hrun _
    · exact h
  | release l k =>
    simp only [exec, lockRelease] at hexec
    split at hexec
    · cases hexec; exact h.broadcast _
    · cases hexec
  | sleep u c k => cases hexec; exact h.block hrun _
  | crash => cases hexec

theorem wf_step {sys : Sys σ ρ ι κ α Ω} {m m' : Machine σ ρ ι κ α Ω} {e : Event Ω}
    (h : m.q.Wf) (hstep : m.step sys e = some m') : m'.q.Wf := by
  cases step_cases hstep with
  | enter t o hrun hmode =>
    unfold enter
    split <;> exact h
  | exec t o p m' hrun hmode hexec => exact wf_exec h hrun hexec
  | preempt t hrun hmode => exact h.yield hrun
  | dispatch hrun => exact h.dispatch
  | irq s hserve => exact h.broadcast _

end Machine

end RiscvKernel
