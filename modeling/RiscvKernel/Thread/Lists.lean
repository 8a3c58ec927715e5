import RiscvKernel.Lib.Chain
import RiscvKernel.Lib.Queues

/-!
# The thread lists

The part of `thread.c` that the ready list and the wait lists of conditions are made
of: the members `state`, `list_next` and `wait_cond` of every `struct thread` (one column
for each member), `ready_list`, and the `wait_list` of every condition.

`Ok` relates the pointers and states to the queues of `Lib.Queues`. Each list function
has one lemma: it does not fail an assertion, and it does to the queues what it should.
A thread `transit` may be on its way: its state is already that of a list it is not yet
on.
-/

namespace RiscvKernel

open Lib

/-- `enum thread_state` -/
inductive ThreadState where
  | uninitialized
  | stopped
  | waiting
  | running
  | ready
  | exited
  deriving DecidableEq

/-- A `struct thread`: `main_thread`, `idle_thread`, and then those that `kmalloc` gives,
in the order of allocation. -/
abbrev Ptr := Nat

def mainThread : Ptr := 0
def idleThread : Ptr := 1

/-- A `struct condition`: one outside `thread.c`, or the `child_exit` of a thread. -/
inductive Condition where
  | dev (n : Nat)
  | childExit (t : Ptr)
  deriving DecidableEq

/-- Why the kernel stops: a failed `assert`, a `panic`, `halt_success`, an access through
a pointer that is not what it should be, or a loop that does not end. -/
inductive Stop where
  | assertion
  | panic
  | halt
  | wild
  | loops
  deriving DecidableEq

/-- `assert (c)` -/
def require (c : Prop) [Decidable c] : Except Stop Unit := if c then .ok () else .error .assertion

theorem ok_bind {ε α β : Type} (a : α) (f : α → Except ε β) : (Except.ok a >>= f) = f a := rfl

theorem error_bind {ε α β : Type} (e : ε) (f : α → Except ε β) :
    (Except.error e >>= f) = .error e := rfl

/-- What goes through has gone through its first part. -/
theorem bind_eq_ok {ε α β : Type} {x : Except ε α} {f : α → Except ε β} {b : β}
    (h : (x >>= f) = .ok b) : ∃ a, x = .ok a ∧ f a = .ok b := by
  cases x with
  | error e => cases h
  | ok a => exact ⟨a, rfl, h⟩

/-- What the list functions read and write. -/
structure Lists where
  state : Ptr → ThreadState
  listNext : Ptr → Option Ptr
  waitCond : Ptr → Option Condition
  waitList : Condition → Chain Ptr
  readyList : Chain Ptr

namespace Lists

/-- `set_thread_state` -/
def setState (l : Lists) (t : Ptr) (st : ThreadState) : Lists :=
  { l with state := Function.update l.state t st }

/-- `tlinsert(&ready_list, t)` -/
def insertReady (l : Lists) (t : Ptr) : Except Stop Lists :=
  match l.readyList.insert l.listNext t with
  | none => .error .assertion
  | some (list, next) => .ok { l with readyList := list, listNext := next }

/-- `tlinsert(&cond->wait_list, t)` -/
def insertWait (l : Lists) (c : Condition) (t : Ptr) : Except Stop Lists :=
  match (l.waitList c).insert l.listNext t with
  | none => .error .assertion
  | some (list, next) =>
    .ok { l with waitList := Function.update l.waitList c list, listNext := next }

/-- The body of the loop of `condition_broadcast`. -/
def wake (c : Condition) (t : Ptr) (l : Lists) : Except Stop Lists := do
  require (l.state t = .waiting)
  require (l.waitCond t = some c)
  return { l.setState t .ready with waitCond := Function.update l.waitCond t none }

/-- `condition_broadcast` with interrupts disabled. A walk over more than the `n` threads
there are would never end. -/
def wakeAll (l : Lists) (n : Nat) (c : Condition) : Except Stop Lists := do
  let l ← Chain.forEach l.listNext (wake c) .loops n (l.waitList c).head l
  match l.readyList.append l.listNext (l.waitList c) with
  | none => .error .assertion
  | some (list, next) =>
    return { l with
      readyList := list
      listNext := next
      waitList := Function.update l.waitList c Chain.nil }

/-- `condition_broadcast` -/
def conditionBroadcast (l : Lists) (n : Nat) (c : Condition) : Except Stop Lists :=
  if (l.waitList c).head = none then .ok l else l.wakeAll n c

/-- `suspend_self` with interrupts disabled: the next thread, which runs now, and the
suspending thread `susp` at the back of the ready list if it was still running. -/
def dispatch (l : Lists) (susp : Ptr) : Except Stop (Ptr × Lists) :=
  match l.readyList.remove l.listNext with
  | none => .error .wild
  | some (next, list, links) => do
    let l := { l with readyList := list, listNext := links }
    require (l.state next = .ready)
    let l := l.setState next .running
    if l.state susp = .running then
      let l ← (l.setState susp .ready).insertReady susp
      return (next, l)
    else return (next, l)

/-! ## The queues that the lists spell out -/

/-- A condition that exists: the `child_exit` of an allocated thread, or one outside
`thread.c`. -/
def Known (n : Nat) : Condition → Prop
  | .dev _ => True
  | .childExit t => t < n

/-- The lists and states of the `n` allocated threads are the queues `q`, except that
`transit` is on no list, whatever its state. The lists of the others are what their memory
holds, `mem`. -/
structure Ok (mem : Condition → Chain Ptr) (l : Lists) (n : Nat) (q : Queues Condition Ptr)
    (transit : Option Ptr) : Prop where
  wf : q.Wf
  ready : Chain.Represents l.listNext l.readyList q.ready
  waiting : ∀ c, Known n c → Chain.Represents l.listNext (l.waitList c) (q.waiting c)
  unknown : ∀ c, ¬Known n c → q.waiting c = [] ∧ l.waitList c = mem c
  placed : ∀ t, q.Placed t → t < n ∧ transit ≠ some t
  running_iff : ∀ t < n, transit ≠ some t → (l.state t = .running ↔ q.running = some t)
  ready_iff : ∀ t < n, transit ≠ some t → (l.state t = .ready ↔ t ∈ q.ready)
  waiting_iff : ∀ t < n, transit ≠ some t → (l.state t = .waiting ↔ ∃ c, t ∈ q.waiting c)
  waitCond : ∀ c, ∀ t ∈ q.waiting c, l.waitCond t = some c

variable {mem : Condition → Chain Ptr} {l : Lists} {n : Nat} {q : Queues Condition Ptr}
  {transit : Option Ptr} {t : Ptr}

theorem Ok.not_placed (h : l.Ok mem n q (some t)) : ¬q.Placed t :=
  fun hp => (h.placed t hp).2 rfl

/-! ## The thread in transit -/

theorem setState_self (l : Lists) (t : Ptr) (st : ThreadState) : (l.setState t st).state t = st :=
  Function.update_self ..

theorem setState_of_ne (l : Lists) {t u : Ptr} (h : u ≠ t) (st : ThreadState) :
    (l.setState t st).state u = l.state u := Function.update_of_ne h ..

/-- Whatever is written to the thread in transit, the lists are the same. -/
theorem Ok.transit_write (h : l.Ok mem n q (some t)) {l' : Lists}
    (hother : ∀ u, u ≠ t → l'.state u = l.state u ∧ l'.listNext u = l.listNext u ∧
      l'.waitCond u = l.waitCond u)
    (hwait : l'.waitList = l.waitList) (hready : l'.readyList = l.readyList) :
    l'.Ok mem n q (some t) := by
  have hne : ∀ u, q.Placed u → u ≠ t := by
    rintro u hu rfl
    exact h.not_placed hu
  have hst : ∀ u, some t ≠ some u → l'.state u = l.state u :=
    fun u hu => (hother u fun he => hu (by rw [he])).1
  constructor
  · exact h.wf
  · rw [hready]
    exact h.ready.congr fun u hu => (hother u (hne u (Or.inr (Or.inl hu)))).2.1
  · intro c hc
    rw [hwait]
    exact (h.waiting c hc).congr fun u hu => (hother u (hne u (Or.inr (Or.inr ⟨c, hu⟩)))).2.1
  · rw [hwait]
    exact h.unknown
  · exact h.placed
  · intro u hu htr
    rw [hst u htr]
    exact h.running_iff u hu htr
  · intro u hu htr
    rw [hst u htr]
    exact h.ready_iff u hu htr
  · intro u hu htr
    rw [hst u htr]
    exact h.waiting_iff u hu htr
  · intro c u hu
    rw [(hother u (hne u (Or.inr (Or.inr ⟨c, hu⟩)))).2.2]
    exact h.waitCond c u hu

theorem Ok.setState_transit (h : l.Ok mem n q (some t)) (st : ThreadState) :
    (l.setState t st).Ok mem n q (some t) :=
  h.transit_write (fun _ hu => ⟨setState_of_ne l hu st, rfl, rfl⟩) rfl rfl

/-- The running thread leaves: it is in transit. -/
theorem Ok.stop (h : l.Ok mem n q none) (hrun : q.running = some t) :
    l.Ok mem n q.stop (some t) := by
  have hne : ∀ u, some t ≠ some u → q.running ≠ some u := by
    rintro u hu he
    exact hu (hrun.symm.trans he)
  constructor
  · exact h.wf.stop
  · exact h.ready
  · exact h.waiting
  · exact h.unknown
  · rintro u (hu | hu | ⟨c, hu⟩)
    · cases hu
    · refine ⟨(h.placed u (Or.inr (Or.inl hu))).1, ?_⟩
      rintro ⟨⟩
      exact h.wf.running_ready t hrun hu
    · refine ⟨(h.placed u (Or.inr (Or.inr ⟨c, hu⟩))).1, ?_⟩
      rintro ⟨⟩
      exact h.wf.running_waiting t c hrun hu
  · intro u hu htr
    rw [h.running_iff u hu (by simp)]
    exact ⟨fun he => absurd he (hne u htr), fun he => by cases he⟩
  · exact fun u hu _ => h.ready_iff u hu (by simp)
  · exact fun u hu _ => h.waiting_iff u hu (by simp)
  · exact h.waitCond

/-- A thread that is in no state of a list need not be called in transit. -/
theorem Ok.settle (h : l.Ok mem n q (some t)) (hst : l.state t = .exited) : l.Ok mem n q none := by
  have hnp := h.not_placed
  constructor
  · exact h.wf
  · exact h.ready
  · exact h.waiting
  · exact h.unknown
  · exact fun u hu => ⟨(h.placed u hu).1, by simp⟩
  · intro u hu _
    by_cases hut : u = t
    · subst hut
      simp only [hst, reduceCtorEq, false_iff]
      exact fun hr => hnp (Or.inl hr)
    · exact h.running_iff u hu (by simpa using Ne.symm hut)
  · intro u hu _
    by_cases hut : u = t
    · subst hut
      simp only [hst, reduceCtorEq, false_iff]
      exact fun hr => hnp (Or.inr (Or.inl hr))
    · exact h.ready_iff u hu (by simpa using Ne.symm hut)
  · intro u hu _
    by_cases hut : u = t
    · subst hut
      simp only [hst, reduceCtorEq, false_iff]
      exact fun hr => hnp (Or.inr (Or.inr hr))
    · exact h.waiting_iff u hu (by simpa using Ne.symm hut)
  · exact h.waitCond

/-- A `struct thread` is allocated whose `child_exit` happens to be empty. It is in transit,
whatever its memory says. -/
theorem Ok.grow (h : l.Ok mem n q none) (hfresh : mem (.childExit n) = Chain.nil) :
    l.Ok mem (n + 1) q (some n) := by
  have hlt : ∀ u < n + 1, some n ≠ some u → u < n := by
    intro u hu hne
    refine Nat.lt_of_le_of_ne (Nat.le_of_lt_succ hu) ?_
    rintro rfl
    exact hne rfl
  constructor
  · exact h.wf
  · exact h.ready
  · intro c hc
    by_cases hk : Known n c
    · exact h.waiting c hk
    · -- the only condition that is new is that of the new thread
      obtain ⟨hnil, hmem⟩ := h.unknown c hk
      obtain rfl : c = .childExit n := by
        cases c with
        | dev k => exact absurd trivial hk
        | childExit u =>
          rw [Nat.le_antisymm (Nat.le_of_lt_succ hc) (Nat.le_of_not_lt hk)]
      rw [hnil, hmem, hfresh]
      exact Chain.represents_nil _
  · refine fun c hc => h.unknown c fun hk => hc ?_
    cases c with
    | dev k => trivial
    | childExit u => exact Nat.lt_succ_of_lt hk
  · intro u hu
    have hun := (h.placed u hu).1
    refine ⟨Nat.lt_succ_of_lt hun, ?_⟩
    rintro ⟨⟩
    exact absurd hun (Nat.lt_irrefl n)
  · exact fun u hu hne => h.running_iff u (hlt u hu hne) (by simp)
  · exact fun u hu hne => h.ready_iff u (hlt u hu hne) (by simp)
  · exact fun u hu hne => h.waiting_iff u (hlt u hu hne) (by simp)
  · exact h.waitCond

/-- The thread in transit runs instead of `u`, which is in transit now. -/
theorem Ok.handOver (h : l.Ok mem n q (some t)) (ht : t < n) {u : Ptr}
    (hrun : q.running = some u) :
    (l.setState t .running).Ok mem n { q with running := some t } (some u) := by
  have hnp := h.not_placed
  have htu : t ≠ u := by
    rintro rfl
    exact hnp (Or.inl hrun)
  have hst : ∀ w, w ≠ t → (l.setState t .running).state w = l.state w :=
    fun w hw => setState_of_ne l hw .running
  constructor
  · constructor
    · exact h.wf.ready_nodup
    · exact h.wf.waiting_nodup
    · rintro w ⟨⟩ hw
      exact hnp (Or.inr (Or.inl hw))
    · rintro w c ⟨⟩ hw
      exact hnp (Or.inr (Or.inr ⟨c, hw⟩))
    · exact h.wf.ready_waiting
    · exact h.wf.waiting_inj
  · exact h.ready
  · exact h.waiting
  · exact h.unknown
  · rintro w (hw | hw | ⟨c, hw⟩)
    · cases hw
      exact ⟨ht, by simpa using Ne.symm htu⟩
    · refine ⟨(h.placed w (Or.inr (Or.inl hw))).1, ?_⟩
      rintro ⟨⟩
      exact h.wf.running_ready u hrun hw
    · refine ⟨(h.placed w (Or.inr (Or.inr ⟨c, hw⟩))).1, ?_⟩
      rintro ⟨⟩
      exact h.wf.running_waiting u c hrun hw
  · intro w hw hwu
    by_cases hwt : w = t
    · subst hwt
      simp [setState_self]
    · have hiff := h.running_iff w hw (by simpa using Ne.symm hwt)
      rw [hst w hwt, hiff]
      simp [hrun, hwu, Ne.symm hwt]
  · intro w hw hwu
    by_cases hwt : w = t
    · subst hwt
      simp only [setState_self, reduceCtorEq, false_iff]
      exact fun hr => hnp (Or.inr (Or.inl hr))
    · rw [hst w hwt]
      exact h.ready_iff w hw (by simpa using Ne.symm hwt)
  · intro w hw hwu
    by_cases hwt : w = t
    · subst hwt
      simp only [setState_self, reduceCtorEq, false_iff]
      exact fun hr => hnp (Or.inr (Or.inr hr))
    · rw [hst w hwt]
      exact h.waiting_iff w hw (by simpa using Ne.symm hwt)
  · exact h.waitCond

/-! ## Inserting -/

/-- An insertion does not look at the states. -/
theorem insertReady_setState (l : Lists) (t u : Ptr) (st : ThreadState) :
    (l.setState u st).insertReady t = (l.insertReady t).map fun l' => l'.setState u st := by
  unfold Lists.insertReady setState
  dsimp only
  cases l.readyList.insert l.listNext t with
  | none => rfl
  | some r => rfl

/-- The thread in transit arrives on the ready list. -/
theorem Ok.insertReady (h : l.Ok mem n q (some t)) (ht : t < n) (hst : l.state t = .ready) :
    ∃ l', l.insertReady t = .ok l' ∧ l'.Ok mem n (q.enqueue t) none ∧ l'.state = l.state := by
  have hnp := h.not_placed
  have hnr : t ∉ q.ready := fun hr => hnp (Or.inr (Or.inl hr))
  obtain ⟨list, next, hins, hrep, hframe⟩ := h.ready.insert h.wf.ready_nodup hnr
  refine ⟨{ l with readyList := list, listNext := next }, ?_, ?_, rfl⟩
  · unfold Lists.insertReady
    rw [hins]
  have hlinks : ∀ c, ∀ u ∈ q.waiting c, next u = l.listNext u := by
    intro c u hu
    refine hframe u ?_ fun hr => h.wf.ready_waiting u c hr hu
    rintro rfl
    exact hnp (Or.inr (Or.inr ⟨c, hu⟩))
  have hmem : ∀ u, u ∈ (q.enqueue t).ready ↔ u ∈ q.ready ∨ u = t := by
    intro u
    simp [Queues.enqueue]
  constructor
  · exact h.wf.enqueue hnp
  · exact hrep
  · exact fun c hc => (h.waiting c hc).congr (hlinks c)
  · exact h.unknown
  · rintro u (hu | hu | hu)
    · exact ⟨(h.placed u (Or.inl hu)).1, by simp⟩
    · rcases (hmem u).mp hu with hu | rfl
      · exact ⟨(h.placed u (Or.inr (Or.inl hu))).1, by simp⟩
      · exact ⟨ht, by simp⟩
    · exact ⟨(h.placed u (Or.inr (Or.inr hu))).1, by simp⟩
  -- the states: `t` is ready, and nothing changes for the others
  · intro u hu _
    by_cases hut : u = t
    · subst hut
      simp only [hst, reduceCtorEq, false_iff]
      exact fun hr => hnp (Or.inl hr)
    · exact h.running_iff u hu (by simpa using Ne.symm hut)
  · intro u hu _
    rw [hmem]
    by_cases hut : u = t
    · subst hut
      simp [hst]
    · simp only [hut, or_false]
      exact h.ready_iff u hu (by simpa using Ne.symm hut)
  · intro u hu _
    by_cases hut : u = t
    · subst hut
      simp only [hst, reduceCtorEq, false_iff]
      exact fun hw => hnp (Or.inr (Or.inr hw))
    · exact h.waiting_iff u hu (by simpa using Ne.symm hut)
  · exact h.waitCond

/-- The thread in transit arrives on the wait list of its condition. -/
theorem Ok.insertWait (h : l.Ok mem n q (some t)) (ht : t < n) (hst : l.state t = .waiting)
    {c : Condition} (hc : Known n c) (hcond : l.waitCond t = some c) :
    ∃ l', l.insertWait c t = .ok l' ∧ l'.Ok mem n (q.await c t) none ∧ l'.state = l.state := by
  have hnp := h.not_placed
  have hnw : t ∉ q.waiting c := fun hw => hnp (Or.inr (Or.inr ⟨c, hw⟩))
  obtain ⟨list, next, hins, hrep, hframe⟩ := (h.waiting c hc).insert (h.wf.waiting_nodup c) hnw
  refine ⟨{ l with waitList := Function.update l.waitList c list, listNext := next }, ?_, ?_, rfl⟩
  · unfold Lists.insertWait
    rw [hins]
  have hne : ∀ u, q.Placed u → u ≠ t := by
    rintro u hu rfl
    exact hnp hu
  constructor
  · exact h.wf.await hnp c
  · refine h.ready.congr fun u hu => hframe u (hne u (Or.inr (Or.inl hu))) ?_
    exact h.wf.ready_waiting u c hu
  · intro d hd
    by_cases hdc : d = c
    · subst hdc
      simpa [Queues.await] using hrep
    · simp only [Queues.await, Function.update_of_ne hdc]
      refine (h.waiting d hd).congr fun u hu => hframe u (hne u (Or.inr (Or.inr ⟨d, hu⟩))) ?_
      exact fun hu' => hdc (h.wf.waiting_inj u d c hu hu')
  · intro d hd
    have hdc : d ≠ c := by
      rintro rfl
      exact hd hc
    simpa [Queues.await, Function.update_of_ne hdc] using h.unknown d hd
  · rintro u (hu | hu | ⟨d, hu⟩)
    · exact ⟨(h.placed u (Or.inl hu)).1, by simp⟩
    · exact ⟨(h.placed u (Or.inr (Or.inl hu))).1, by simp⟩
    · rcases Queues.mem_await.mp hu with hu | ⟨rfl, -⟩
      · exact ⟨(h.placed u (Or.inr (Or.inr ⟨d, hu⟩))).1, by simp⟩
      · exact ⟨ht, by simp⟩
  · intro u hu _
    by_cases hut : u = t
    · subst hut
      simp only [hst, reduceCtorEq, false_iff]
      exact fun hr => hnp (Or.inl hr)
    · exact h.running_iff u hu (by simpa using Ne.symm hut)
  · intro u hu _
    by_cases hut : u = t
    · subst hut
      simp only [hst, reduceCtorEq, false_iff]
      exact fun hr => hnp (Or.inr (Or.inl hr))
    · exact h.ready_iff u hu (by simpa using Ne.symm hut)
  · intro u hu _
    simp only [Queues.mem_await]
    by_cases hut : u = t
    · subst hut
      simp only [hst, true_iff]
      exact ⟨c, Or.inr ⟨trivial, rfl⟩⟩
    · simp only [hut, false_and, or_false]
      exact h.waiting_iff u hu (by simpa using Ne.symm hut)
  · intro d u hu
    rcases Queues.mem_await.mp hu with hu | ⟨rfl, rfl⟩
    · exact h.waitCond d u hu
    · exact hcond

/-! ## Waking -/

/-- The loop of `condition_broadcast` over threads that wait on `c`: they become ready,
and nothing else changes. -/
theorem foldlM_wake {c : Condition} {m : List Ptr} (hm : m.Nodup) {l : Lists}
    (hw : ∀ t ∈ m, l.state t = .waiting ∧ l.waitCond t = some c) :
    ∃ l', m.foldlM (fun l t => wake c t l) l = .ok l' ∧ l'.listNext = l.listNext ∧
      l'.waitList = l.waitList ∧ l'.readyList = l.readyList ∧ (∀ t ∈ m, l'.state t = .ready) ∧
      ∀ t ∉ m, l'.state t = l.state t ∧ l'.waitCond t = l.waitCond t := by
  induction m generalizing l with
  | nil => exact ⟨l, rfl, rfl, rfl, rfl, by simp, fun _ _ => ⟨rfl, rfl⟩⟩
  | cons t m ih =>
    obtain ⟨htm, hm⟩ := List.nodup_cons.mp hm
    obtain ⟨hst, hcond⟩ := hw t List.mem_cons_self
    let l₁ : Lists := { l.setState t .ready with waitCond := Function.update l.waitCond t none }
    have hstep : wake c t l = .ok l₁ := by
      unfold wake require
      rw [if_pos hst, if_pos hcond]
      rfl
    have hsame : ∀ u, u ≠ t → l₁.state u = l.state u ∧ l₁.waitCond u = l.waitCond u :=
      fun u hu => ⟨Function.update_of_ne hu .., Function.update_of_ne hu ..⟩
    obtain ⟨l', hrest, hnext, hwait, hready, hin, hout⟩ := ih hm (l := l₁) (by
      intro u hu
      have hut : u ≠ t := by
        rintro rfl
        exact htm hu
      rw [(hsame u hut).1, (hsame u hut).2]
      exact hw u (List.mem_cons_of_mem t hu))
    refine ⟨l', ?_, hnext, hwait, hready, ?_, ?_⟩
    · rw [List.foldlM_cons, hstep]
      exact hrest
    · intro u hu
      rcases List.mem_cons.mp hu with rfl | hu
      · rw [(hout u htm).1]
        exact Function.update_self ..
      · exact hin u hu
    · intro u hu
      rw [List.mem_cons, not_or] at hu
      rw [(hout u hu.2).1, (hout u hu.2).2]
      exact hsame u hu.1

/-- All waiters of `c` become ready. -/
theorem Ok.wakeAll (h : l.Ok mem n q transit) {c : Condition} (hc : Known n c) :
    ∃ l', l.wakeAll n c = .ok l' ∧ l'.Ok mem n (q.broadcast c) transit ∧
      ∀ t ∉ q.waiting c, l'.state t = l.state t ∧ l'.waitCond t = l.waitCond t := by
  have hrep := h.waiting c hc
  have hlt : ∀ t ∈ q.waiting c, t < n ∧ transit ≠ some t :=
    fun t ht => h.placed t (Or.inr (Or.inr ⟨c, ht⟩))
  have hw : ∀ t ∈ q.waiting c, l.state t = .waiting ∧ l.waitCond t = some c := fun t ht =>
    ⟨(h.waiting_iff t (hlt t ht).1 (hlt t ht).2).mpr ⟨c, ht⟩, h.waitCond c t ht⟩
  -- no more threads wait than there are
  have hfuel : (q.waiting c).length ≤ n := by
    have hsub := List.subperm_of_subset (h.wf.waiting_nodup c)
      fun t ht => List.mem_range.mpr (hlt t ht).1
    simpa using hsub.length_le
  obtain ⟨l₁, hloop, hnext₁, hwait₁, hready₁, hin, hout⟩ :=
    foldlM_wake (h.wf.waiting_nodup c) hw
  have hjoin : (q.ready ++ q.waiting c).Nodup := (h.wf.broadcast c).ready_nodup
  obtain ⟨list, next, happ, hlist, hframe⟩ := h.ready.append hrep hjoin
  refine ⟨{ l₁ with
    readyList := list
    listNext := next
    waitList := Function.update l₁.waitList c Chain.nil }, ?_, ?_, hout⟩
  · unfold Lists.wakeAll
    rw [hrep.head, Chain.forEach_eq hrep.links hfuel, hloop]
    simp only [ok_bind, hready₁, hnext₁, hwait₁, happ]
    rfl
  have hmem : ∀ d u, u ∈ (q.broadcast c).waiting d ↔ u ∈ q.waiting d ∧ d ≠ c := by
    intro d u
    by_cases hd : d = c
    · subst hd
      simp
    · simp [hd]
  have hplaced : ∀ u, (q.broadcast c).Placed u → q.Placed u := by
    rintro u (hu | hu | ⟨d, hu⟩)
    · exact Or.inl hu
    · rcases List.mem_append.mp hu with hu | hu
      · exact Or.inr (Or.inl hu)
      · exact Or.inr (Or.inr ⟨c, hu⟩)
    · exact Or.inr (Or.inr ⟨d, ((hmem d u).mp hu).1⟩)
  constructor
  · exact h.wf.broadcast c
  · exact hlist
  · intro d hd
    by_cases hdc : d = c
    · subst hdc
      simpa using Chain.represents_nil next
    · simp only [Queues.broadcast_waiting, Function.update_of_ne hdc, hwait₁]
      refine (h.waiting d hd).congr fun u hu => hframe u fun hr => ?_
      exact h.wf.ready_waiting u d hr hu
  · intro d hd
    have hdc : d ≠ c := by
      rintro rfl
      exact hd hc
    simpa [Function.update_of_ne hdc, hwait₁] using h.unknown d hd
  · exact fun u hu => h.placed u (hplaced u hu)
  · intro u hu htr
    by_cases huc : u ∈ q.waiting c
    · simp only [hin u huc, reduceCtorEq, false_iff]
      exact fun hr => h.wf.running_waiting u c hr huc
    · rw [(hout u huc).1]
      exact h.running_iff u hu htr
  · intro u hu htr
    rw [Queues.broadcast_ready, List.mem_append]
    by_cases huc : u ∈ q.waiting c
    · simp [hin u huc, huc]
    · simp only [(hout u huc).1, huc, or_false]
      exact h.ready_iff u hu htr
  · intro u hu htr
    simp only [hmem]
    by_cases huc : u ∈ q.waiting c
    · simp only [hin u huc, reduceCtorEq, false_iff]
      rintro ⟨d, hud, hdc⟩
      exact hdc (h.wf.waiting_inj u d c hud huc)
    · rw [(hout u huc).1, h.waiting_iff u hu htr]
      refine exists_congr fun d => ⟨fun hud => ⟨hud, ?_⟩, fun hud => hud.1⟩
      rintro rfl
      exact huc hud
  · intro d u hu
    obtain ⟨hud, hdc⟩ := (hmem d u).mp hu
    rw [(hout u fun huc => hdc (h.wf.waiting_inj u d c hud huc)).2]
    exact h.waitCond d u hud

/-- The same with the fast path: nobody waits. -/
theorem Ok.conditionBroadcast (h : l.Ok mem n q transit) {c : Condition} (hc : Known n c) :
    ∃ l', l.conditionBroadcast n c = .ok l' ∧ l'.Ok mem n (q.broadcast c) transit ∧
      ∀ t ∉ q.waiting c, l'.state t = l.state t ∧ l'.waitCond t = l.waitCond t := by
  unfold Lists.conditionBroadcast
  by_cases hempty : (l.waitList c).head = none
  · have hnil := (h.waiting c hc).head_eq_none.mp hempty
    have hq : q.broadcast c = q := by
      unfold Queues.broadcast
      rw [hnil, List.append_nil, ← hnil, Function.update_eq_self]
    rw [if_pos hempty, hq]
    exact ⟨l, rfl, h, fun _ _ => ⟨rfl, rfl⟩⟩
  · rw [if_neg hempty]
    exact h.wakeAll hc

/-- Nobody exits in a broadcast. -/
theorem Ok.broadcast_exited (h : l.Ok mem n q transit) {c : Condition} {l' : Lists}
    (hok : l'.Ok mem n (q.broadcast c) transit)
    (hout : ∀ t ∉ q.waiting c, l'.state t = l.state t ∧ l'.waitCond t = l.waitCond t) (t : Ptr) :
    l'.state t = .exited ↔ l.state t = .exited := by
  by_cases hw : t ∈ q.waiting c
  · have hready : t ∈ (q.broadcast c).ready := List.mem_append_right _ hw
    obtain ⟨hlt, htr⟩ := hok.placed t (Or.inr (Or.inl hready))
    simp [(hok.ready_iff t hlt htr).mpr hready, (h.waiting_iff t hlt htr).mpr ⟨c, hw⟩]
  · rw [(hout t hw).1]

/-! ## Dispatching -/

/-- The first ready thread is taken off the list and runs; who was running is in transit. -/
theorem Ok.take (h : l.Ok mem n q none) {next : Ptr} {rest : List Ptr}
    (hq : q.ready = next :: rest) :
    ∃ list links, l.readyList.remove l.listNext = some (next, list, links) ∧
      l.state next = .ready ∧
      ({ l with readyList := list, listNext := links }.setState next .running).Ok mem n
        { q with running := some next, ready := rest } q.running := by
  have hmem : next ∈ q.ready := by
    rw [hq]
    exact List.mem_cons_self
  obtain ⟨hnotin, hrest⟩ := List.nodup_cons.mp (hq ▸ h.wf.ready_nodup)
  have hlt := (h.placed next (Or.inr (Or.inl hmem))).1
  have hsub : ∀ u ∈ rest, u ∈ q.ready := by
    intro u hu
    rw [hq]
    exact List.mem_cons_of_mem next hu
  have hrep := h.ready
  rw [hq] at hrep
  obtain ⟨list, links, hrem, hlist, hframe⟩ := hrep.remove hnotin
  refine ⟨list, links, hrem, (h.ready_iff next hlt (by simp)).mpr hmem, ?_⟩
  have hst : ∀ u, u ≠ next →
      ({ l with readyList := list, listNext := links }.setState next .running).state u = l.state u :=
    fun u hu => Function.update_of_ne hu ..
  constructor
  · constructor
    · exact hrest
    · exact h.wf.waiting_nodup
    · rintro u ⟨⟩
      exact hnotin
    · rintro u c ⟨⟩
      exact h.wf.ready_waiting next c hmem
    · exact fun u c hu => h.wf.ready_waiting u c (hsub u hu)
    · exact h.wf.waiting_inj
  · exact hlist
  · intro c hc
    refine (h.waiting c hc).congr fun u hu => hframe u ?_
    rintro rfl
    exact h.wf.ready_waiting u c hmem hu
  · exact h.unknown
  · rintro u (hu | hu | ⟨c, hu⟩)
    · cases hu
      exact ⟨hlt, fun hr => h.wf.running_ready next hr hmem⟩
    · exact ⟨(h.placed u (Or.inr (Or.inl (hsub u hu)))).1,
        fun hr => h.wf.running_ready u hr (hsub u hu)⟩
    · exact ⟨(h.placed u (Or.inr (Or.inr ⟨c, hu⟩))).1, fun hr => h.wf.running_waiting u c hr hu⟩
  · intro u hu htr
    by_cases hun : u = next
    · subst hun
      simp [setState_self]
    · rw [hst u hun, h.running_iff u hu (by simp)]
      simp only [htr, false_iff, Option.some.injEq]
      exact Ne.symm hun
  · intro u hu htr
    by_cases hun : u = next
    · subst hun
      simp [setState_self, hnotin]
    · rw [hst u hun, h.ready_iff u hu (by simp), hq, List.mem_cons]
      simp [hun]
  · intro u hu htr
    by_cases hun : u = next
    · subst hun
      simp only [setState_self, reduceCtorEq, false_iff]
      rintro ⟨c, hc⟩
      exact h.wf.ready_waiting u c hmem hc
    · rw [hst u hun]
      exact h.waiting_iff u hu (by simp)
  · exact h.waitCond

/-- What `suspend_self` does to the queues: whoever is running goes to the back of the
ready queue, and the first ready thread runs. -/
def suspendQueues (q : Queues Condition Ptr) : Queues Condition Ptr :=
  match q.running with
  | some t => q.yield t
  | none => q.dispatch

/-- `suspend_self` chooses the first ready thread, which is not the suspending one. -/
theorem Ok.dispatch (h : l.Ok mem n q none) {susp : Ptr} (hsusp : susp < n)
    (hrun : ∀ t, q.running = some t → t = susp) {next : Ptr} {rest : List Ptr}
    (hq : q.ready = next :: rest) (hne : next ≠ susp) :
    ∃ l', l.dispatch susp = .ok (next, l') ∧ l'.Ok mem n (suspendQueues q) none ∧
      (∀ t, l'.state t = .exited ↔ l.state t = .exited) ∧ (suspendQueues q).running = some next := by
  obtain ⟨list, links, hrem, hstate, hok⟩ := h.take hq
  have hsuspst : ({ l with readyList := list, listNext := links }.setState next .running).state
      susp = l.state susp := Function.update_of_ne (Ne.symm hne) ..
  have hexit : ∀ t, ({ l with readyList := list, listNext := links }.setState next
      .running).state t = .exited ↔ l.state t = .exited := by
    intro t
    by_cases ht : t = next
    · subst ht
      simp [setState_self, hstate]
    · rw [setState_of_ne _ ht]
  unfold Lists.dispatch
  rw [hrem]
  dsimp only
  rw [require, if_pos hstate, ok_bind]
  cases hr : q.running with
  | none =>
    -- the suspending thread has already left
    have hnot : l.state susp ≠ .running := by
      rw [Ne, h.running_iff susp hsusp (by simp), hr]
      simp
    rw [hr] at hok
    rw [hsuspst, if_neg hnot]
    have hqs : suspendQueues q = { q with running := some next, ready := rest } := by
      unfold suspendQueues Queues.dispatch
      rw [hr, hq]
    rw [hqs]
    exact ⟨_, rfl, hok, hexit, rfl⟩
  | some t =>
    obtain rfl : t = susp := hrun t hr
    have hrunning : l.state t = .running := (h.running_iff t hsusp (by simp)).mpr hr
    rw [hr] at hok
    obtain ⟨l', hins, hok', hst'⟩ := (hok.setState_transit .ready).insertReady hsusp
      (setState_self ..)
    rw [hsuspst, if_pos hrunning, hins]
    have hqs : suspendQueues q =
        Queues.enqueue { q with running := some next, ready := rest } t := by
      unfold suspendQueues Queues.yield Queues.dispatch Queues.enqueue
      rw [hr, hq]
      rfl
    rw [hqs]
    refine ⟨l', rfl, hok', fun u => ?_, rfl⟩
    rw [hst']
    by_cases hu : u = t
    · subst hu
      simp [setState_self, hrunning]
    · rw [setState_of_ne _ hu]
      exact hexit u

end Lists

end RiscvKernel
