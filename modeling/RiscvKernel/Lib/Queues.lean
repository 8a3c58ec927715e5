import Mathlib

/-!
# Wait queues — a run queue and one FIFO per condition

The queue view of a cooperative scheduler, over arbitrary thread names `τ` and
condition names `κ`: who runs, who is ready (in order), and who waits on each
condition (in order of arrival). An idle processor is `running = none`.

`Wf` says that every thread is in at most one place; the moves keep it. `block` and
`yield` are composed of smaller ones, which a scheduler that is interrupted between
them takes one by one.
-/

namespace Lib

variable {κ τ : Type}

/-- Who runs, who is ready and who waits on what. The lists are in FIFO order. -/
structure Queues (κ τ : Type) where
  running : Option τ
  ready : List τ
  waiting : κ → List τ

namespace Queues

/-- Resume the first ready thread, or leave the processor idle. -/
def dispatch (q : Queues κ τ) : Queues κ τ :=
  match q.ready with
  | [] => { q with running := none }
  | t :: rest => { q with running := some t, ready := rest }

/-- `t` joins the waiters of `c` and the next ready thread runs. -/
def block [DecidableEq κ] (q : Queues κ τ) (c : κ) (t : τ) : Queues κ τ :=
  dispatch { q with waiting := Function.update q.waiting c (q.waiting c ++ [t]) }

/-- All waiters of `c` become ready, behind the threads that already are. -/
def broadcast [DecidableEq κ] (q : Queues κ τ) (c : κ) : Queues κ τ :=
  { q with ready := q.ready ++ q.waiting c, waiting := Function.update q.waiting c [] }

/-- `t` goes to the back of the ready queue and the next ready thread runs. -/
def yield (q : Queues κ τ) (t : τ) : Queues κ τ :=
  dispatch { q with ready := q.ready ++ [t] }

/-- The running thread stops running without joining a queue. -/
def stop (q : Queues κ τ) : Queues κ τ := { q with running := none }

/-- `t` joins the ready queue. -/
def enqueue (q : Queues κ τ) (t : τ) : Queues κ τ := { q with ready := q.ready ++ [t] }

/-- `t` joins the waiters of `c`. -/
def await [DecidableEq κ] (q : Queues κ τ) (c : κ) (t : τ) : Queues κ τ :=
  { q with waiting := Function.update q.waiting c (q.waiting c ++ [t]) }

/-- `t` has a place: it runs, is ready, or waits. -/
def Placed (q : Queues κ τ) (t : τ) : Prop :=
  q.running = some t ∨ t ∈ q.ready ∨ ∃ c, t ∈ q.waiting c

/-- Every thread is in at most one place: running, ready, or waiting on one condition. -/
structure Wf (q : Queues κ τ) : Prop where
  ready_nodup : q.ready.Nodup
  waiting_nodup : ∀ c, (q.waiting c).Nodup
  running_ready : ∀ t, q.running = some t → t ∉ q.ready
  running_waiting : ∀ t c, q.running = some t → t ∉ q.waiting c
  ready_waiting : ∀ t c, t ∈ q.ready → t ∉ q.waiting c
  waiting_inj : ∀ t c c', t ∈ q.waiting c → t ∈ q.waiting c' → c = c'

/-! ## The moves, field by field -/

@[simp] theorem dispatch_waiting (q : Queues κ τ) : q.dispatch.waiting = q.waiting := by
  unfold dispatch
  cases q.ready <;> rfl

/-- A dispatch does not look at who was running. -/
theorem dispatch_stop (q : Queues κ τ) : q.stop.dispatch = q.dispatch := by
  unfold dispatch stop
  cases q.ready <;> rfl

@[simp] theorem broadcast_running [DecidableEq κ] (q : Queues κ τ) (c : κ) :
    (q.broadcast c).running = q.running := rfl

@[simp] theorem broadcast_ready [DecidableEq κ] (q : Queues κ τ) (c : κ) :
    (q.broadcast c).ready = q.ready ++ q.waiting c := rfl

@[simp] theorem broadcast_waiting [DecidableEq κ] (q : Queues κ τ) (c : κ) :
    (q.broadcast c).waiting = Function.update q.waiting c [] := rfl

theorem broadcast_waiting_self [DecidableEq κ] (q : Queues κ τ) (c : κ) :
    (q.broadcast c).waiting c = [] := by
  rw [broadcast_waiting, Function.update_self]

@[simp] theorem block_waiting [DecidableEq κ] (q : Queues κ τ) (c : κ) (t : τ) :
    (q.block c t).waiting = Function.update q.waiting c (q.waiting c ++ [t]) := by
  simp [block]

@[simp] theorem yield_waiting (q : Queues κ τ) (t : τ) : (q.yield t).waiting = q.waiting := by
  simp [yield]

/-- A dispatch only moves the head of the ready queue to the processor. -/
theorem dispatch_ready_sublist (q : Queues κ τ) {u : τ} (hu : u ∈ q.dispatch.ready) :
    u ∈ q.ready := by
  unfold dispatch at hu
  cases hr : q.ready with
  | nil => rw [hr] at hu; simp at hu
  | cons t rest => rw [hr] at hu; exact List.mem_cons_of_mem _ hu

/-- The thread a dispatch resumes was ready. -/
theorem running_of_dispatch (q : Queues κ τ) {u : τ} (hu : q.dispatch.running = some u) :
    u ∈ q.ready := by
  unfold dispatch at hu
  cases hr : q.ready with
  | nil => rw [hr] at hu; simp at hu
  | cons t rest =>
    rw [hr] at hu
    simp only [Option.some.injEq] at hu
    simp [hu]

/-- A ready thread is, after a dispatch, running or still ready. -/
theorem mem_ready_dispatch (q : Queues κ τ) {u : τ} (hu : u ∈ q.ready) :
    q.dispatch.running = some u ∨ u ∈ q.dispatch.ready := by
  unfold dispatch
  cases hr : q.ready with
  | nil => rw [hr] at hu; simp at hu
  | cons t rest =>
    rw [hr] at hu
    rcases List.mem_cons.mp hu with rfl | hmem
    · exact Or.inl rfl
    · exact Or.inr hmem

theorem mem_ready_block [DecidableEq κ] (q : Queues κ τ) (c : κ) (t : τ) {u : τ}
    (hu : u ∈ q.ready) : (q.block c t).running = some u ∨ u ∈ (q.block c t).ready :=
  mem_ready_dispatch _ hu

theorem mem_ready_yield (q : Queues κ τ) (t : τ) {u : τ} (hu : u ∈ q.ready) :
    (q.yield t).running = some u ∨ u ∈ (q.yield t).ready :=
  mem_ready_dispatch _ (List.mem_append_left _ hu)

/-! ## `Wf` is kept by every move -/

/-- Dispatching from queues in which the running thread has already been put somewhere. -/
theorem Wf.dispatch_of {q : Queues κ τ} (hnodup : q.ready.Nodup)
    (hwait : ∀ c, (q.waiting c).Nodup)
    (hrw : ∀ t c, t ∈ q.ready → t ∉ q.waiting c)
    (hinj : ∀ t c c', t ∈ q.waiting c → t ∈ q.waiting c' → c = c') : q.dispatch.Wf := by
  constructor
  · unfold dispatch
    cases hr : q.ready with
    | nil => simp
    | cons t rest => rw [hr] at hnodup; exact (List.nodup_cons.mp hnodup).2
  · simpa using hwait
  · intro t ht
    unfold dispatch at ht ⊢
    cases hr : q.ready with
    | nil => rw [hr] at ht; simp at ht
    | cons u rest =>
      rw [hr] at ht hnodup
      simp only [Option.some.injEq] at ht
      subst ht
      exact (List.nodup_cons.mp hnodup).1
  · intro t c ht
    rw [dispatch_waiting]
    exact hrw t c (running_of_dispatch q ht)
  · intro t c ht
    rw [dispatch_waiting]
    exact hrw t c (dispatch_ready_sublist q ht)
  · simpa using hinj

theorem Wf.dispatch {q : Queues κ τ} (h : q.Wf) : q.dispatch.Wf :=
  Wf.dispatch_of h.ready_nodup h.waiting_nodup h.ready_waiting h.waiting_inj

theorem Wf.broadcast [DecidableEq κ] {q : Queues κ τ} (h : q.Wf) (c : κ) :
    (q.broadcast c).Wf := by
  have hsub : ∀ u d, u ∈ Function.update q.waiting c [] d → u ∈ q.waiting d ∧ d ≠ c := by
    intro u d hu
    by_cases hd : d = c
    · subst hd; simp at hu
    · exact ⟨by simpa [Function.update_of_ne hd] using hu, hd⟩
  constructor
  · simp only [broadcast_ready]
    refine List.nodup_append.mpr ⟨h.ready_nodup, h.waiting_nodup c, ?_⟩
    rintro a ha b hb rfl
    exact h.ready_waiting a c ha hb
  · intro d
    by_cases hd : d = c
    · subst hd; simp
    · simpa [Function.update_of_ne hd] using h.waiting_nodup d
  · intro t ht
    simp only [broadcast_ready, List.mem_append, not_or]
    exact ⟨h.running_ready t ht, h.running_waiting t c ht⟩
  · intro t d ht hu
    exact h.running_waiting t d ht (hsub t d hu).1
  · intro t d ht hu
    obtain ⟨hud, hne⟩ := hsub t d hu
    rcases List.mem_append.mp ht with ht | ht
    · exact h.ready_waiting t d ht hud
    · exact hne (h.waiting_inj t d c hud ht)
  · intro t d d' hu hu'
    exact h.waiting_inj t d d' (hsub t d hu).1 (hsub t d' hu').1

theorem Wf.stop {q : Queues κ τ} (h : q.Wf) : q.stop.Wf where
  ready_nodup := h.ready_nodup
  waiting_nodup := h.waiting_nodup
  running_ready _ ht := by cases ht
  running_waiting _ _ ht := by cases ht
  ready_waiting := h.ready_waiting
  waiting_inj := h.waiting_inj

theorem nodup_snoc {l : List τ} {t : τ} (h : l.Nodup) (ht : t ∉ l) : (l ++ [t]).Nodup := by
  refine List.nodup_append.mpr ⟨h, List.nodup_singleton t, ?_⟩
  intro a ha b hb
  rw [List.mem_singleton.mp hb]
  rintro rfl
  exact ht ha

theorem Wf.enqueue {q : Queues κ τ} (h : q.Wf) {t : τ} (ht : ¬q.Placed t) : (q.enqueue t).Wf where
  ready_nodup := nodup_snoc h.ready_nodup fun hr => ht (Or.inr (Or.inl hr))
  waiting_nodup := h.waiting_nodup
  running_ready u hu hmem := by
    rcases List.mem_append.mp hmem with hmem | hmem
    · exact h.running_ready u hu hmem
    · rw [List.mem_singleton.mp hmem] at hu
      exact ht (Or.inl hu)
  running_waiting := h.running_waiting
  ready_waiting u c hmem hw := by
    rcases List.mem_append.mp hmem with hmem | hmem
    · exact h.ready_waiting u c hmem hw
    · rw [List.mem_singleton.mp hmem] at hw
      exact ht (Or.inr (Or.inr ⟨c, hw⟩))
  waiting_inj := h.waiting_inj

section Await

variable [DecidableEq κ]

theorem mem_await {q : Queues κ τ} {c d : κ} {t u : τ} :
    u ∈ (q.await c t).waiting d ↔ u ∈ q.waiting d ∨ (u = t ∧ d = c) := by
  by_cases hd : d = c
  · subst hd
    simp [Queues.await]
  · simp [Queues.await, hd]

theorem Wf.await {q : Queues κ τ} (h : q.Wf) {t : τ} (ht : ¬q.Placed t) (c : κ) :
    (q.await c t).Wf where
  ready_nodup := h.ready_nodup
  waiting_nodup d := by
    by_cases hd : d = c
    · subst hd
      have hnodup := nodup_snoc (h.waiting_nodup d) fun hw => ht (Or.inr (Or.inr ⟨d, hw⟩))
      simpa [Queues.await] using hnodup
    · simpa [Queues.await, Function.update_of_ne hd] using h.waiting_nodup d
  running_ready := h.running_ready
  running_waiting u d hu hw := by
    rcases mem_await.mp hw with hw | ⟨rfl, -⟩
    · exact h.running_waiting u d hu hw
    · exact ht (Or.inl hu)
  ready_waiting u d hu hw := by
    rcases mem_await.mp hw with hw | ⟨rfl, -⟩
    · exact h.ready_waiting u d hu hw
    · exact ht (Or.inr (Or.inl hu))
  waiting_inj u d d' hu hu' := by
    rcases mem_await.mp hu with hu | ⟨rfl, rfl⟩ <;> rcases mem_await.mp hu' with hu' | ⟨he, hd'⟩
    · exact h.waiting_inj u d d' hu hu'
    · exact absurd (Or.inr (Or.inr ⟨d, he ▸ hu⟩)) ht
    · exact absurd (Or.inr (Or.inr ⟨d', hu'⟩)) ht
    · exact hd'.symm

/-- To block is to stop, to join the waiters and to dispatch. -/
theorem Wf.block {q : Queues κ τ} (h : q.Wf) {t : τ} (ht : q.running = some t) (c : κ) :
    (q.block c t).Wf := by
  rw [show q.block c t = (q.stop.await c t).dispatch from (dispatch_stop (q.await c t)).symm]
  refine (h.stop.await ?_ c).dispatch
  rintro (hp | hp | ⟨d, hp⟩)
  · cases hp
  · exact h.running_ready t ht hp
  · exact h.running_waiting t d ht hp

end Await

/-- To yield is to stop, to join the ready queue and to dispatch. -/
theorem Wf.yield {q : Queues κ τ} (h : q.Wf) {t : τ} (ht : q.running = some t) :
    (q.yield t).Wf := by
  rw [show q.yield t = (q.stop.enqueue t).dispatch from (dispatch_stop (q.enqueue t)).symm]
  refine (h.stop.enqueue ?_).dispatch
  rintro (hp | hp | ⟨d, hp⟩)
  · cases hp
  · exact h.running_ready t ht hp
  · exact h.running_waiting t d ht hp

end Queues

end Lib
