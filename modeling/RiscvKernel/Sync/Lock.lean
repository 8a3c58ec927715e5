import RiscvKernel.Sync.Machine

/-!
# Sleep locks — mutual exclusion and no stranded waiter

`lock_release` (`lock.h`) wakes every waiter without handing the lock over, so a woken
thread may lose the lock again and go back to waiting. What carries the argument is
that the test of `lk->tid` and the wait are not separated by a switch: a thread joins
the wait list only while somebody holds the lock, and the holder's release empties
the list in the step that frees the lock.
-/

namespace RiscvKernel

open Lib

namespace Machine

variable {σ ρ ι κ α Ω : Type} [DecidableEq ι] [DecidableEq κ]

/-- Either nobody is between acquire and release, and then nobody sleeps on the lock,
or exactly one thread is and `lk->tid` names it. -/
def LockOk (m : Machine σ ρ ι κ α Ω) (l : ι) : Prop :=
  (m.tid l = -1 ∧ m.inside l = [] ∧ m.q.waiting (.lock l) = []) ∨
    ∃ t : Nat, m.tid l = t ∧ m.inside l = [t]

/-- `lock_init` makes a lock that nobody is inside of a good one. -/
theorem lockOk_lockInit {m : Machine σ ρ ι κ α Ω} {l : ι} (h : m.inside l = []) :
    (m.lockInit l).LockOk l := by
  left
  simp [lockInit, h]

omit [DecidableEq ι] [DecidableEq κ] in
/-- `LockOk` only looks at the lock, its ghost list and its wait list. -/
theorem LockOk.congr {m m' : Machine σ ρ ι κ α Ω} {l : ι} (h : m.LockOk l)
    (htid : m'.tid l = m.tid l) (hin : m'.inside l = m.inside l)
    (hwait : m'.q.waiting (.lock l) = m.q.waiting (.lock l)) : m'.LockOk l := by
  unfold LockOk
  rw [htid, hin, hwait]
  exact h

theorem LockOk.lockAcquire {m : Machine σ ρ ι κ α Ω} {l : ι} (h : m.LockOk l)
    (t : Nat) (o : Ω) (l' : ι) (k : Prog σ ι κ α) : (m.lockAcquire t o l' k).LockOk l := by
  unfold Machine.lockAcquire
  split
  · next hbusy =>
    -- the lock `l'` is taken: the thread joins its wait list
    by_cases hl : l = l'
    · subst hl
      rcases h with ⟨hfree, -, -⟩ | ⟨u, htid, hin⟩
      · exact absurd hfree hbusy
      · exact Or.inr ⟨u, htid, hin⟩
    · refine h.congr rfl rfl ?_
      simp [Function.update_of_ne, hl]
  · next hfree =>
    -- the lock `l'` is free: the thread takes it
    by_cases hl : l = l'
    · subst hl
      rcases h with ⟨-, hin, -⟩ | ⟨u, htid, -⟩
      · exact Or.inr ⟨t, by simp, by simp [hin]⟩
      · exact absurd htid (by rw [not_not.mp hfree]; omega)
    · exact h.congr (Function.update_of_ne hl _ _) (Function.update_of_ne hl _ _) rfl

theorem LockOk.lockRelease {m m' : Machine σ ρ ι κ α Ω} {l : ι} (h : m.LockOk l)
    {t : Nat} {o : Ω} {l' : ι} {k : Prog σ ι κ α} (hrel : m.lockRelease t o l' k = some m') :
    m'.LockOk l := by
  unfold Machine.lockRelease at hrel
  split at hrel
  · next hheld =>
    cases hrel
    by_cases hl : l = l'
    · subst hl
      rcases h with ⟨hfree, -, -⟩ | ⟨u, htid, hin⟩
      · rw [hfree] at hheld; omega
      · have hut : u = t := by rw [htid] at hheld; exact Int.ofNat_inj.mp hheld
        exact Or.inl ⟨by simp, by simp [hin, hut], by simp⟩
    · refine h.congr (Function.update_of_ne hl _ _) (Function.update_of_ne hl _ _) ?_
      simp [Function.update_of_ne, hl]
  · cases hrel

/-- One step of a thread's code keeps every lock good. -/
theorem LockOk.exec {m m' : Machine σ ρ ι κ α Ω} {l : ι} (h : m.LockOk l)
    {t : Nat} {o : Ω} {p : Prog σ ι κ α} (hexec : m.exec t o p = some m') : m'.LockOk l := by
  cases p with
  | ret a => cases hexec; exact h.congr rfl rfl rfl
  | act u k => cases hexec; exact h.congr rfl rfl rfl
  | acquire l' k => cases hexec; exact h.lockAcquire t o l' k
  | release l' k => exact h.lockRelease hexec
  | sleep u c k =>
    cases hexec
    exact h.congr rfl rfl (by simp)
  | crash => cases hexec

theorem LockOk.step {sys : Sys σ ρ ι κ α Ω} {m m' : Machine σ ρ ι κ α Ω} {e : Event Ω} {l : ι}
    (h : m.LockOk l) (hstep : m.step sys e = some m') : m'.LockOk l := by
  cases step_cases hstep with
  | enter t o hrun hmode =>
    unfold enter
    split <;> exact h.congr rfl rfl rfl
  | exec t o p m' hrun hmode hexec => exact h.exec hexec
  | preempt t hrun hmode => exact h.congr rfl rfl (by simp)
  | dispatch hrun => exact h.congr rfl rfl (by simp)
  | irq s hserve => exact h.congr rfl rfl (by simp)

/-- **Lock safety.** Whatever the threads call, in whatever order, and whenever devices
interrupt: after every run from an initialised lock at most one thread is between a
returned `lock_acquire` and its `lock_release`, `lk->tid` is that thread's id, it is
`-1` exactly when there is none, and then the wait list of the lock is empty. -/
theorem lock_safety (sys : Sys σ ρ ι κ α Ω) (m m' : Machine σ ρ ι κ α Ω) (l : ι)
    (es : List (Event Ω)) (hnew : m.inside l = [])
    (hrun : (m.lockInit l).runs sys es = some m') :
    (m'.inside l).length ≤ 1 ∧
      (∀ t, t ∈ m'.inside l ↔ m'.tid l = (t : Nat)) ∧
      (m'.tid l = -1 ↔ m'.inside l = []) ∧
      (m'.tid l = -1 → m'.q.waiting (.lock l) = []) := by
  have hok : m'.LockOk l :=
    runs_invariant (fun m => m.LockOk l) (fun _ _ _ h hs => h.step hs)
      (lockOk_lockInit hnew) hrun
  rcases hok with ⟨htid, hin, hwait⟩ | ⟨u, htid, hin⟩
  · refine ⟨by simp [hin], fun t => ?_, by simp [htid, hin], fun _ => hwait⟩
    rw [hin, htid]
    simp only [List.not_mem_nil, false_iff]
    omega
  · refine ⟨by simp [hin], fun t => ?_, ?_, fun hfree => ?_⟩
    · rw [hin, htid, List.mem_singleton]
      omega
    · rw [hin, htid]
      simp
    · rw [htid] at hfree
      omega

/-- One lock that threads acquire (`true`) and release (`false`). -/
def lockCalls : Sys Unit Unit Unit Unit Unit Bool where
  code o := .inl (if o then Prog.lock () else Prog.unlock ())
  serve _ := none
  irq := ()

/-- Thread `1` runs and thread `2` is ready, both in user mode. -/
def twoThreads : Machine Unit Unit Unit Unit Unit Bool where
  sh := ()
  aux := ()
  tid _ := 0
  q := { running := some 1, ready := [2], waiting := fun _ => [] }
  mode _ := .user
  inside _ := []
  calls _ := []
  log := []

/-- Thread `2` finds the lock taken and waits, thread `1` releases it, thread `2` takes it. -/
def contendedRun : List (Event Bool) :=
  [.call true, .run, .run, .preempt, .call true, .run, .call false, .run, .run, .preempt, .run]

theorem lock_safety_contended :
    ∃ m', (twoThreads.lockInit ()).runs lockCalls contendedRun = some m' ∧
      m'.tid () = 2 ∧ (m'.inside ()).length ≤ 1 ∧
      (∀ t, t ∈ m'.inside () ↔ m'.tid () = (t : Nat)) ∧
      (m'.tid () = -1 ↔ m'.inside () = []) ∧
      (m'.tid () = -1 → m'.q.waiting (.lock ()) = []) :=
  ⟨_, rfl, rfl, lock_safety lockCalls twoThreads _ () contendedRun rfl rfl⟩

end Machine

end RiscvKernel
