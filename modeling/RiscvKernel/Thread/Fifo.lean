import RiscvKernel.Thread.Runs

/-!
# First come, first served

The thread lists as queues, and the order in which threads run. A processor takes the steps `wait`
(`condition_wait` up to its `suspend_self`), `broadcast` and `switch` (`suspend_self`); a broadcast
may also come between a wait and its switch, from an interrupt handler. A log notes who begins to
wait, is woken, goes back to the ready list, and is dispatched.

* `TwoLists`: two lists that share no thread. `tlinsert`, `tlremove` and `tlappend` do to the one
  what they should and leave the other alone.
* `Moves`: what joins the ready list leaves it in the same order, and so for every wait list.
* `step_good` and `run_good`: this holds of every step and of every run.
* `runs_conditionWait` and `runs_suspendSelf`: `wait` and `switch` are the small steps of the thread
  machine without an interrupt in between.
-/

namespace RiscvKernel

open Lib

namespace Fifo

/-! ## Two lists -/

section TwoLists

variable {α : Type} [DecidableEq α] {next : α → Option α} {c d : Chain α} {l m : List α}

/-- The pointers spell out two lists, and no thread is on both or twice on one. -/
structure TwoLists (next : α → Option α) (c d : Chain α) (l m : List α) : Prop where
  fst : Chain.Represents next c l
  snd : Chain.Represents next d m
  nodup : (l ++ m).Nodup

omit [DecidableEq α] in
theorem TwoLists.not_mem (h : TwoLists next c d l m) {x : α} (hx : x ∈ m) : x ∉ l :=
  fun hl => (List.nodup_append.mp h.nodup).2.2 x hl x hx rfl

/-- `tlinsert` of a thread that is on neither list. -/
theorem TwoLists.insert (h : TwoLists next c d l m) {t : α} (ht : t ∉ l ++ m) :
    ∃ c' next', c.insert next t = some (c', next') ∧ TwoLists next' c' d (l ++ [t]) m := by
  have htl : t ∉ l := fun hl => ht (List.mem_append_left m hl)
  have htm : t ∉ m := fun hm => ht (List.mem_append_right l hm)
  obtain ⟨hl, hm, hdisj⟩ := List.nodup_append.mp h.nodup
  obtain ⟨c', next', hins, hrep, hframe⟩ := h.fst.insert hl htl
  refine ⟨c', next', hins, hrep, h.snd.congr fun x hx => hframe x ?_ (h.not_mem hx), ?_⟩
  · rintro rfl
    exact htm hx
  · rw [List.append_assoc, List.singleton_append]
    exact List.nodup_middle.mpr (List.nodup_cons.mpr ⟨ht, h.nodup⟩)

/-- `tlremove` returns no thread if and only if there is none. -/
theorem TwoLists.remove_eq_none (h : TwoLists next c d l m) : c.remove next = none ↔ l = [] := by
  rw [← h.fst.head_eq_none]
  unfold Chain.remove
  cases c.head with
  | none => exact iff_of_true rfl rfl
  | some t => exact iff_of_false nofun nofun

/-- `tlremove` takes the first thread. -/
theorem TwoLists.remove {t : α} {r : List α} (h : TwoLists next c d (t :: r) m) :
    ∃ c' next', c.remove next = some (t, c', next') ∧ TwoLists next' c' d r m := by
  obtain ⟨ht, hnodup⟩ := List.nodup_cons.mp h.nodup
  obtain ⟨c', next', hrem, hrep, hframe⟩ := h.fst.remove fun hr => ht (List.mem_append_left m hr)
  refine ⟨c', next', hrem, hrep, h.snd.congr fun x hx => hframe x ?_, hnodup⟩
  rintro rfl
  exact ht (List.mem_append_right r hx)

/-- `tlappend` joins the lists, and the second one is empty afterwards. -/
theorem TwoLists.append (h : TwoLists next c d l m) :
    ∃ c' next', c.append next d = some (c', next') ∧ TwoLists next' c' Chain.nil (l ++ m) [] := by
  obtain ⟨c', next', happ, hrep, -⟩ := h.fst.append h.snd h.nodup
  refine ⟨c', next', happ, hrep, Chain.represents_nil _, ?_⟩
  rw [List.append_nil]
  exact h.nodup

end TwoLists

/-! ## The processor -/

/-- The lists, and `CURTHR`. -/
structure Cpu where
  lists : Lists
  cur : Ptr

inductive Act where
  | wait (c : Condition)
  | broadcast (c : Condition)
  | switch

/-- What is noted of a thread. -/
inductive Noted where
  | waits (t : Ptr) (c : Condition)
  | wakes (t : Ptr) (c : Condition)
  | yields (t : Ptr)
  | runs (t : Ptr)

/-- `condition_wait` up to its `suspend_self`. -/
def conditionWait (s : Cpu) (c : Condition) : Except Stop Cpu := do
  require (s.lists.state s.cur = .running)
  let l := s.lists.setState s.cur .waiting
  let l := { l with
    waitCond := Function.update l.waitCond s.cur (some c)
    listNext := Function.update l.listNext s.cur none }
  let l ← l.insertWait c s.cur
  return { s with lists := l }

/-- `suspend_self` -/
def suspendSelf (s : Cpu) : Except Stop Cpu := do
  require (s.lists.readyList.head ≠ none)
  let (next, l) ← s.lists.dispatch s.cur
  return ⟨l, next⟩

section Machine

variable {μ : Type} {a : PageAlloc μ} {k : Thread.Kernel μ} {r : Thread.Ret}

/-- The steps of the thread machine in `condition_wait`. -/
theorem runs_conditionWait {c : Condition} (hpc : k.pc = .condWait c r) :
    Thread.runs a k (List.replicate 4 .step) =
      some ((conditionWait ⟨k.lists, k.cur⟩ c).map fun s =>
        { k with lists := s.lists, pc := .suspend r }) := by
  unfold conditionWait
  by_cases hrun : k.lists.state k.cur = .running
  · set l : Lists := { k.lists.setState k.cur .waiting with
      waitCond := Function.update k.lists.waitCond k.cur (some c)
      listNext := Function.update k.lists.listNext k.cur none } with hl
    have hwait : Thread.step a k .step = some (.ok { k with
        lists := k.lists.setState k.cur .waiting, pc := .waitCond c r }) := by
      rw [Thread.step_of_stores_nil (by simp only [Thread.stores, hpc])]
      simp only [Thread.advance, hpc, Thread.execute, require, if_pos hrun]
      rfl
    have hrest : Thread.runs a k (List.replicate 4 .step) =
        Thread.runs a { k with lists := l, pc := .waitInsert c r } [.step] :=
      (Thread.runs_of_step hwait).trans ((Thread.runs_of_step rfl).trans (Thread.runs_of_step rfl))
    rw [hrest, require, if_pos hrun, ok_bind]
    show Thread.runs a _ [.step] = some (Except.map _ (l.insertWait c k.cur >>= _))
    cases hins : l.insertWait c k.cur with
    | error stop =>
      have hstep : Thread.step a { k with lists := l, pc := .waitInsert c r } .step =
          some (.error stop) := by
        rw [Thread.step_of_stores_nil rfl]
        simp only [Thread.advance, Thread.execute, hins]
        rfl
      exact Thread.runs_of_error hstep
    | ok l' =>
      refine Thread.runs_of_step ?_
      rw [Thread.step_of_stores_nil rfl]
      simp only [Thread.advance, Thread.execute, hins]
      rfl
  · have hstep : Thread.step a k .step = some (.error .assertion) := by
      rw [Thread.step_of_stores_nil (by simp only [Thread.stores, hpc])]
      simp only [Thread.advance, hpc, Thread.execute, require, if_neg hrun]
      rfl
    rw [require, if_neg hrun]
    exact Thread.runs_of_error hstep

/-- The steps of the thread machine in `suspend_self`, before it switches. -/
theorem runs_suspendSelf (hpc : k.pc = .suspend r) :
    Thread.runs a k (List.replicate 2 .step) =
      some ((suspendSelf ⟨k.lists, k.cur⟩).map fun s =>
        { k with lists := s.lists, pc := .spaceSwitch s.cur r }) := by
  unfold suspendSelf
  by_cases hready : k.lists.readyList.head ≠ none
  · have hsuspend : Thread.step a k .step = some (.ok { k with pc := .dispatch r }) := by
      rw [Thread.step_of_stores_nil (by simp only [Thread.stores, hpc])]
      simp only [Thread.advance, hpc, Thread.execute, require, if_pos hready]
      rfl
    have hrest : Thread.runs a k (List.replicate 2 .step) =
        Thread.runs a { k with pc := .dispatch r } [.step] := Thread.runs_of_step hsuspend
    rw [hrest, require, if_pos hready, ok_bind]
    cases hdisp : k.lists.dispatch k.cur with
    | error stop =>
      have hstep : Thread.step a { k with pc := .dispatch r } .step = some (.error stop) := by
        rw [Thread.step_of_stores_nil rfl]
        simp only [Thread.advance, Thread.execute, hdisp]
        rfl
      exact Thread.runs_of_error hstep
    | ok next =>
      refine Thread.runs_of_step ?_
      rw [Thread.step_of_stores_nil rfl]
      simp only [Thread.advance, Thread.execute, hdisp]
      rfl
  · have hstep : Thread.step a k .step = some (.error .assertion) := by
      rw [Thread.step_of_stores_nil (by simp only [Thread.stores, hpc])]
      simp only [Thread.advance, hpc, Thread.execute, require, if_neg hready]
      rfl
    rw [require, if_neg hready]
    exact Thread.runs_of_error hstep

end Machine

/-- The threads that the loop of `condition_broadcast` comes to, in its order. -/
def woken (l : Lists) (n : Nat) (c : Condition) : Except Stop (List Ptr) :=
  Chain.forEach l.listNext (fun t ts => .ok (ts ++ [t])) .loops n (l.waitList c).head []

/-- A step, and what is noted. -/
def step (n : Nat) (s : Cpu) : Act → Except Stop (Cpu × List Noted)
  | .wait c => do
    let s' ← conditionWait s c
    return (s', [.waits s.cur c])
  | .broadcast c => do
    let ts ← woken s.lists n c
    let l ← s.lists.conditionBroadcast n c
    return ({ s with lists := l }, ts.map (.wakes · c))
  | .switch => do
    let s' ← suspendSelf s
    return (s', .runs s'.cur :: if s.lists.state s.cur = .running then [.yields s.cur] else [])

def run (n : Nat) (s : Cpu) : List Act → Except Stop (Cpu × List Noted)
  | [] => .ok (s, [])
  | a :: as => do
    let (s, log) ← step n s a
    let (s, log') ← run n s as
    return (s, log ++ log')

/-- Who may do what: the idle thread does not wait, and `suspend_self` is called with a ready thread;
the idle thread looks for one first, and every other thread finds the idle thread. -/
def Allowed (n : Nat) (s : Cpu) : Act → Prop
  | .wait c => s.lists.state s.cur = .running ∧ s.cur ≠ idleThread ∧ Lists.Known n c
  | .broadcast c => Lists.Known n c
  | .switch => s.lists.readyList.head ≠ none

/-- The steps of a run are allowed where they are taken. -/
def AllowedRun (n : Nat) : Cpu → List Act → Prop
  | _, [] => True
  | s, a :: as => Allowed n s a ∧ ∀ s' log, step n s a = .ok (s', log) → AllowedRun n s' as

/-! ## The log -/

/-- Who became ready, in order. -/
def readied (log : List Noted) : List Ptr :=
  log.filterMap fun
    | .wakes t _ => some t
    | .yields t => some t
    | _ => none

/-- Who was dispatched, in order. -/
def dispatched (log : List Noted) : List Ptr :=
  log.filterMap fun
    | .runs t => some t
    | _ => none

/-- Who began to wait for `c`, in order. -/
def waitsOn (c : Condition) (log : List Noted) : List Ptr :=
  log.filterMap fun
    | .waits t d => if d = c then some t else none
    | _ => none

/-- Who was woken from `c`, in order. -/
def wakesOn (c : Condition) (log : List Noted) : List Ptr :=
  log.filterMap fun
    | .wakes t d => if d = c then some t else none
    | _ => none

/-- **First in, first out.** Those who were in a queue and those who joined it are those who left it
and those who are still in it, in the same order. -/
structure Moves (q : Queues Condition Ptr) (log : List Noted) (q' : Queues Condition Ptr) : Prop where
  ready : q.ready ++ readied log = dispatched log ++ q'.ready
  waiting : ∀ c, q.waiting c ++ waitsOn c log = wakesOn c log ++ q'.waiting c

variable {q q' q'' : Queues Condition Ptr} {log log' : List Noted}

theorem Moves.refl (q : Queues Condition Ptr) : Moves q [] q :=
  ⟨List.append_nil _, fun _ => List.append_nil _⟩

theorem readied_append : readied (log ++ log') = readied log ++ readied log' :=
  List.filterMap_append

theorem dispatched_append : dispatched (log ++ log') = dispatched log ++ dispatched log' :=
  List.filterMap_append

theorem waitsOn_append (c : Condition) : waitsOn c (log ++ log') = waitsOn c log ++ waitsOn c log' :=
  List.filterMap_append

theorem wakesOn_append (c : Condition) : wakesOn c (log ++ log') = wakesOn c log ++ wakesOn c log' :=
  List.filterMap_append

theorem Moves.trans (h : Moves q log q') (h' : Moves q' log' q'') : Moves q (log ++ log') q'' where
  ready := by
    rw [readied_append, dispatched_append, ← List.append_assoc, h.ready, List.append_assoc, h'.ready,
      List.append_assoc]
  waiting c := by
    rw [waitsOn_append, wakesOn_append, ← List.append_assoc, h.waiting c, List.append_assoc,
      h'.waiting c, List.append_assoc]

theorem filterMap_map_some {f : Noted → Option Ptr} {g : Ptr → Noted} (h : ∀ t, f (g t) = some t)
    (ts : List Ptr) : (ts.map g).filterMap f = ts := by
  rw [List.filterMap_map]
  exact (List.filterMap_congr fun t _ => h t).trans (List.filterMap_some)

theorem filterMap_map_none {f : Noted → Option Ptr} {g : Ptr → Noted} (h : ∀ t, f (g t) = none)
    (ts : List Ptr) : (ts.map g).filterMap f = [] := by
  rw [List.filterMap_map]
  exact List.filterMap_eq_nil_iff.mpr fun t _ => h t

/-- A broadcast moves the waiters to the ready list. -/
theorem moves_broadcast (q : Queues Condition Ptr) (c : Condition) :
    Moves q ((q.waiting c).map (Noted.wakes · c)) (q.broadcast c) where
  ready := by
    unfold readied dispatched
    rw [filterMap_map_some fun t => rfl, filterMap_map_none fun t => rfl]
    rfl
  waiting d := by
    unfold waitsOn wakesOn
    rw [filterMap_map_none fun t => rfl, List.append_nil, Queues.broadcast_waiting]
    by_cases hd : c = d
    · rw [← hd, filterMap_map_some fun t => if_pos rfl, Function.update_self, List.append_nil]
    · rw [filterMap_map_none fun t => if_neg hd, Function.update_of_ne (Ne.symm hd)]
      rfl

/-! ## Runs -/

/-- The lists spell out the queues `q`, the idle thread runs or is ready, and if `CURTHR` has left
for a list it is not in front of the idle thread. -/
structure Good (mem : Condition → Chain Ptr) (n : Nat) (s : Cpu) (q : Queues Condition Ptr) : Prop where
  ok : s.lists.Ok mem n q none
  cur : s.cur < n
  running : ∀ t, q.running = some t → t = s.cur
  idle : q.running = some idleThread ∨ idleThread ∈ q.ready
  left : q.running = none → s.cur ≠ idleThread ∧ ∃ a b, q.ready = a ++ idleThread :: b ∧ s.cur ∉ a

variable {mem : Condition → Chain Ptr} {n : Nat} {s : Cpu} {c : Condition}

theorem step_wait (h : Good mem n s q) (ha : Allowed n s (.wait c)) :
    ∃ s' log q', step n s (.wait c) = .ok (s', log) ∧ Good mem n s' q' ∧ Moves q log q' := by
  obtain ⟨hstate, hidle, hc⟩ := ha
  have hrun : q.running = some s.cur := (h.ok.running_iff s.cur h.cur (by simp)).mp hstate
  -- the thread is in transit until it is on the wait list
  have htransit : Lists.Ok mem { s.lists.setState s.cur .waiting with
      waitCond := Function.update s.lists.waitCond s.cur (some c)
      listNext := Function.update s.lists.listNext s.cur none } n q.stop (some s.cur) := by
    refine (h.ok.stop hrun).transit_write (fun u hu => ⟨?_, ?_, ?_⟩) rfl rfl
    · exact Lists.setState_of_ne _ hu _
    · exact Function.update_of_ne hu ..
    · exact Function.update_of_ne hu ..
  obtain ⟨l', hins, hok, -⟩ := htransit.insertWait h.cur (Lists.setState_self ..) hc
    (Function.update_self ..)
  have hready : idleThread ∈ q.ready := h.idle.resolve_left fun hi =>
    hidle (Option.some.inj (hrun.symm.trans hi))
  obtain ⟨a, b, hab, -⟩ := List.eq_append_cons_of_mem hready
  refine ⟨{ s with lists := l' }, [.waits s.cur c], q.stop.await c s.cur, ?_, ⟨hok, h.cur, nofun, Or.inr hready,
    fun _ => ⟨hidle, a, b, hab, fun hmem => ?_⟩⟩, ?_, fun d => ?_⟩
  · show (do
      let s' ← conditionWait s c
      return (s', [Noted.waits s.cur c])) = _
    unfold conditionWait
    rw [require, if_pos hstate, ok_bind]
    dsimp only
    have hins' : Lists.insertWait { s.lists.setState s.cur .waiting with
        waitCond := Function.update (s.lists.setState s.cur .waiting).waitCond s.cur (some c)
        listNext := Function.update (s.lists.setState s.cur .waiting).listNext s.cur none } c s.cur =
          .ok l' := hins
    rw [hins']
    rfl
  · refine h.ok.wf.running_ready s.cur hrun ?_
    rw [hab]
    exact List.mem_append_left _ hmem
  · show q.ready ++ [] = [] ++ q.ready
    rw [List.append_nil, List.nil_append]
  · show q.waiting d ++ waitsOn d [.waits s.cur c] =
      [] ++ Function.update q.waiting c (q.waiting c ++ [s.cur]) d
    by_cases hd : c = d
    · have hlog : waitsOn d [.waits s.cur c] = [s.cur] := by simp [waitsOn, hd]
      rw [hlog, ← hd, Function.update_self, List.nil_append]
    · have hlog : waitsOn d [.waits s.cur c] = [] := by simp [waitsOn, hd]
      rw [hlog, Function.update_of_ne (Ne.symm hd), List.append_nil, List.nil_append]

/-- The loop of `condition_broadcast` comes to the waiters, the first one first. -/
theorem woken_eq (h : s.lists.Ok mem n q none) (hc : Lists.Known n c) :
    woken s.lists n c = .ok (q.waiting c) := by
  have hrep := h.waiting c hc
  have hlen : (q.waiting c).length ≤ n := by
    have hsub := List.subperm_of_subset (h.wf.waiting_nodup c)
      fun t ht => List.mem_range.mpr (h.placed t (Or.inr (Or.inr ⟨c, ht⟩))).1
    have hle := hsub.length_le
    rwa [List.length_range] at hle
  have hfold : ∀ ts acc : List Ptr,
      ts.foldlM (fun (s : List Ptr) t => (.ok (s ++ [t]) : Except Stop (List Ptr))) acc = .ok (acc ++ ts) := by
    intro ts
    induction ts with
    | nil =>
      intro acc
      rw [List.append_nil]
      rfl
    | cons t ts ih =>
      intro acc
      rw [List.foldlM_cons, ok_bind, ih, List.append_assoc]
      rfl
  unfold woken
  rw [hrep.head, Chain.forEach_eq hrep.links hlen, hfold]
  rfl

theorem step_broadcast (h : Good mem n s q) (ha : Allowed n s (.broadcast c)) :
    ∃ s' log q', step n s (.broadcast c) = .ok (s', log) ∧ Good mem n s' q' ∧ Moves q log q' := by
  obtain ⟨l', hb, hok, -⟩ := h.ok.conditionBroadcast ha
  refine ⟨{ s with lists := l' }, _, q.broadcast c, ?_, ⟨hok, h.cur, h.running, ?_, fun hnone => ?_⟩,
    moves_broadcast q c⟩
  · show (do
      let ts ← woken s.lists n c
      let l ← s.lists.conditionBroadcast n c
      return ({ s with lists := l }, ts.map (Noted.wakes · c))) = _
    rw [woken_eq h.ok ha, ok_bind, hb, ok_bind]
    rfl
  · exact h.idle.imp_right (List.mem_append_left _)
  · obtain ⟨hne, a, b, hab, hnot⟩ := h.left hnone
    refine ⟨hne, a, b ++ q.waiting c, ?_, hnot⟩
    rw [Queues.broadcast_ready, hab, List.append_assoc]
    rfl

/-- The first ready thread is not the one that suspends. -/
theorem Good.next_ne (h : Good mem n s q) {next : Ptr} {rest : List Ptr}
    (hq : q.ready = next :: rest) : next ≠ s.cur := by
  cases hrun : q.running with
  | none =>
    obtain ⟨hne, a, b, hab, hnot⟩ := h.left hrun
    rw [hq] at hab
    cases a with
    | nil =>
      obtain ⟨rfl, -⟩ := List.cons.inj hab
      exact Ne.symm hne
    | cons x a =>
      obtain ⟨rfl, -⟩ := List.cons.inj hab
      rintro rfl
      exact hnot List.mem_cons_self
  | some t =>
    obtain rfl := h.running t hrun
    rintro rfl
    refine h.ok.wf.running_ready _ hrun ?_
    rw [hq]
    exact List.mem_cons_self

theorem step_switch (h : Good mem n s q) (ha : Allowed n s .switch) :
    ∃ s' log q', step n s .switch = .ok (s', log) ∧ Good mem n s' q' ∧ Moves q log q' := by
  have hhead : s.lists.readyList.head ≠ none := ha
  obtain ⟨next, rest, hq⟩ : ∃ next rest, q.ready = next :: rest := by
    cases hr : q.ready with
    | nil => exact absurd (h.ok.ready.head_eq_none.mpr hr) hhead
    | cons next rest => exact ⟨next, rest, rfl⟩
  obtain ⟨l', hdisp, hok, -, hrunning⟩ := h.ok.dispatch h.cur h.running hq (h.next_ne hq)
  have hnext : next < n := (hok.placed next (Or.inl hrunning)).1
  refine ⟨⟨l', next⟩, .runs next :: if s.lists.state s.cur = .running then [.yields s.cur] else [],
    Lists.suspendQueues q, ?_, ⟨hok, hnext, fun t ht => ?_,
    Thread.mem_suspendQueues h.idle, fun hnone => ?_⟩, ?_⟩
  · show (do
      let s' ← suspendSelf s
      return (s', Noted.runs s'.cur ::
        if s.lists.state s.cur = ThreadState.running then [Noted.yields s.cur] else [])) = _
    unfold suspendSelf
    rw [require, if_pos hhead, ok_bind, hdisp]
    rfl
  · exact Option.some.inj (ht.symm.trans hrunning)
  · rw [hrunning] at hnone
    cases hnone
  · have hiff := h.ok.running_iff s.cur h.cur (by simp)
    cases hr : q.running with
    | none =>
      have hnot : s.lists.state s.cur ≠ .running := fun hst => by
        rw [hiff.mp hst] at hr
        cases hr
      have hqs : Lists.suspendQueues q = { q with running := some next, ready := rest } := by
        unfold Lists.suspendQueues Queues.dispatch
        rw [hr, hq]
      rw [if_neg hnot, hqs]
      refine ⟨?_, fun d => ?_⟩
      · show q.ready ++ [] = [next] ++ rest
        rw [hq, List.append_nil]
        rfl
      · show q.waiting d ++ [] = [] ++ q.waiting d
        rw [List.append_nil, List.nil_append]
    | some t =>
      obtain rfl := h.running t hr
      have hqs : Lists.suspendQueues q =
          { q with running := some next, ready := rest ++ [s.cur] } := by
        unfold Lists.suspendQueues Queues.yield Queues.dispatch
        rw [hr, hq]
        rfl
      rw [if_pos (hiff.mpr hr), hqs]
      refine ⟨?_, fun d => ?_⟩
      · show q.ready ++ [s.cur] = [next] ++ (rest ++ [s.cur])
        rw [hq]
        rfl
      · show q.waiting d ++ [] = [] ++ q.waiting d
        rw [List.append_nil, List.nil_append]

/-- **A step** keeps the lists in order and is first in, first out. -/
theorem step_good (h : Good mem n s q) {a : Act} (ha : Allowed n s a) :
    ∃ s' log q', step n s a = .ok (s', log) ∧ Good mem n s' q' ∧ Moves q log q' := by
  cases a with
  | wait c => exact step_wait h ha
  | broadcast c => exact step_broadcast h ha
  | switch => exact step_switch h ha

/-- **A run** does. -/
theorem run_good {as : List Act} (h : Good mem n s q) (ha : AllowedRun n s as) :
    ∃ s' log q', run n s as = .ok (s', log) ∧ Good mem n s' q' ∧ Moves q log q' := by
  induction as generalizing s q with
  | nil => exact ⟨s, [], q, rfl, h, Moves.refl q⟩
  | cons a as ih =>
    obtain ⟨s₁, log₁, q₁, hstep, hgood, hmoves⟩ := step_good h ha.1
    obtain ⟨s', log', q', hrun, hgood', hmoves'⟩ := ih hgood (ha.2 s₁ log₁ hstep)
    refine ⟨s', log₁ ++ log', q', ?_, hgood', hmoves.trans hmoves'⟩
    unfold run
    rw [hstep, ok_bind]
    dsimp only
    rw [hrun]
    rfl

/-- **Thread lists are first in, first out.** `tlinsert`, `tlremove` and `tlappend` are the operations
of queues on lists that share no thread. `condition_broadcast` appends the waiters to the ready list,
in their order. In every run from lists that are in order, threads are woken in the order in which
they began to wait, and dispatched in the order in which they became ready. -/
theorem thread_lists_fifo :
    (∀ {α : Type} [DecidableEq α] {next : α → Option α} {c d : Chain α} {l m : List α},
      TwoLists next c d l m →
      (∀ t, t ∉ l ++ m → ∃ c' next', c.insert next t = some (c', next') ∧
        TwoLists next' c' d (l ++ [t]) m) ∧
      (c.remove next = none ↔ l = []) ∧
      (∀ t r, l = t :: r → ∃ c' next', c.remove next = some (t, c', next') ∧
        TwoLists next' c' d r m) ∧
      ∃ c' next', c.append next d = some (c', next') ∧
        TwoLists next' c' Chain.nil (l ++ m) []) ∧
    (∀ {mem : Condition → Chain Ptr} {l : Lists} {n : Nat} {q : Queues Condition Ptr}
      {transit : Option Ptr} {c : Condition}, l.Ok mem n q transit → Lists.Known n c →
      ∃ l', l.conditionBroadcast n c = .ok l' ∧
        Chain.Represents l'.listNext l'.readyList (q.ready ++ q.waiting c) ∧
        Chain.Represents l'.listNext (l'.waitList c) []) ∧
    ∀ {mem : Condition → Chain Ptr} {n : Nat} {s : Cpu} {q : Queues Condition Ptr} {as : List Act},
      Good mem n s q → AllowedRun n s as →
      ∃ s' log q', run n s as = .ok (s', log) ∧ Good mem n s' q' ∧ Moves q log q' := by
  refine ⟨fun h => ⟨fun t ht => h.insert ht, h.remove_eq_none, ?_, h.append⟩, fun {mem l n q transit c} h hc => ?_,
    fun h ha => run_good h ha⟩
  · rintro t r rfl
    exact h.remove
  · obtain ⟨l', hb, hok, -⟩ := h.conditionBroadcast hc
    refine ⟨l', hb, hok.ready, ?_⟩
    have hempty := hok.waiting c hc
    rwa [Queues.broadcast_waiting_self] at hempty

/-- After `thread_init` the main thread waits, is woken, and waits for its turn behind the idle
thread. -/
theorem thread_lists_fifo_first : ∃ s' log q',
    run 2 ⟨Thread.initLists Thread.zeroLists, mainThread⟩ [.wait (.dev 0), .broadcast (.dev 0), .switch] =
      .ok (s', log) ∧
    Good Thread.zeroLists.waitList 2 s' q' ∧
    Moves ⟨some mainThread, [idleThread], fun _ => []⟩ log q' := by
  have hinit := Thread.threadInit_inv Thread.zeroLists Thread.zeroTable 0
  refine thread_lists_fifo.2.2 ⟨hinit.lists, hinit.cur, fun t ht => (Option.some.inj ht).symm,
    Or.inr List.mem_cons_self, nofun⟩ ⟨⟨rfl, by decide, trivial⟩, fun s₁ log₁ h₁ => ?_⟩
  cases h₁
  refine ⟨trivial, fun s₂ log₂ h₂ => ?_⟩
  cases h₂
  exact ⟨nofun, fun _ _ _ => trivial⟩

end Fifo

end RiscvKernel
