import RiscvKernel.Thread.Join

/-!
# Runs with joins

`JoinsOk` is what a state should be like as far as `thread_join` and `thread_join_any` are
concerned; it follows from the invariant `Joins`.

* `recycled_nodup`: no thread is recycled twice. Only a new thread is put into a slot of `thrtab`
  (`step_keepsSlots`), and one that is recycled is in no slot any more.
* `join_never_misses`: the property over whole runs.
* `stale_child_exit_misses`: a structure that `kmalloc` gives with an old wait list.
-/

namespace RiscvKernel

open Lib

namespace Thread

variable {μ : Type} {a : PageAlloc μ} {mem : Condition → Chain Ptr} {s s' : Kernel μ}
  {q : Queues Condition Ptr} {transit : Option Ptr} {p : Ptr} {r : Ret}

/-- The thread that an event recycles: `recycle_thread` is called at the end of `thread_join`
and of `thread_join_any`. -/
def recycles (s : Kernel μ) : Event → Option Ptr
  | .step =>
    match s.pc with
    | .joinLoop tid child => if s.lists.state child = .exited then s.table.thrtab tid else none
    | .joinAnyScan => (exitedChild s).bind fun c => s.table.thrtab c.1
    | _ => none
  | _ => none

/-- The threads that a run recycles, in order. -/
def recycled (a : PageAlloc μ) : Kernel μ → List Event → List Ptr
  | _, [] => []
  | s, e :: es =>
    match step a s e with
    | some (.ok s') => (recycles s e).toList ++ recycled a s' es
    | _ => (recycles s e).toList

/-- `p` is `WAITING` on its own `child_exit`, in the join to which it is to return. It may be
the thread that is just being switched from. -/
structure Blocked (s : Kernel μ) (p : Ptr) (r : Ret) : Prop where
  state : s.lists.state p = .waiting
  cond : s.lists.waitCond p = some (.childExit p)
  inside : (p ≠ s.cur ∧ s.resume p = .suspended r) ∨
    (p = s.cur ∧ ∃ next, s.pc = .spaceSwitch next r ∨ s.pc = .swtch next r)

/-- Joins in one state: the scan of `thread_join_any` finds a child after it was woken. Where
no thread is between two lists, in particular at every switch, nobody waits for a thread that
has exited. And who recycles a thread is its parent, and gets all of its children. -/
structure JoinsOk (a : PageAlloc μ) (s : Kernel μ) : Prop where
  not_spurious : s.pc = .joinAnyScan → ∃ s', execute a s .joinAnyScan = .ok s'
  join : s.pc.settled → ∀ p tid child, Blocked s p (.join tid child) →
    s.lists.state child ≠ .exited
  joinAny : s.pc.settled → ∀ p, Blocked s p .joinAny → ∀ c, IsChild s.table p c →
    s.lists.state c ≠ .exited
  recycle : ∀ thr s', recycles s .step = some thr → step a s .step = some (.ok s') →
    s.lists.state thr = .exited ∧ s.table.parent thr = some s.cur ∧
      ∀ c, IsChild s.table thr c → s'.table.parent c = some s.cur

/-- Where no thread is between two lists, no exit is waiting to be signalled. -/
theorem not_signalling_of_settled {pc : Pc} (h : pc.settled = true) : pc.signalling = false := by
  cases pc with
  | wakeAll c exiting =>
    cases exiting with
    | false => rfl
    | true => cases h
  | exitBroadcast => cases h
  | _ => rfl

/-- Nobody who is blocked in a join has missed an exit. -/
theorem Joins.pending (hj : Joins s) (hb : Blocked s p r)
    (hr : r.joins = true) : Pending s p r := by
  have hret : JoinRet s p r := by
    obtain ⟨hp, hres⟩ | ⟨rfl, next, hpc | hpc⟩ := hb.inside
    · exact hj.parked p hp r hres
    · exact hj.at_pc hpc
    · exact hj.at_pc hpc
  exact (hret.waiting hr hb.state).2

/-- Who recycles a thread. -/
theorem recycles_eq_some (h : Inv mem s q transit) {e : Event} {thr : Ptr}
    (hrec : recycles s e = some thr) : e = .step ∧ transit = none ∧ q.running = some s.cur ∧
      ∃ tid, JoinOk s.table s.cur (.join tid thr) ∧ s.lists.state thr = .exited ∧
        ∀ s', step a s e = some (.ok s') → recycleThread s.table s.lists tid = .ok s'.table := by
  unfold recycles at hrec
  split at hrec
  · split at hrec
    · next tid child hs =>
      obtain ⟨hst, hslot⟩ := Option.ite_none_right_eq_some.mp hrec
      obtain ⟨⟨htr, hrun⟩, -, hjoin⟩ := h.at_pc hs
      obtain rfl : child = thr := Option.some.inj (hjoin.2.1.symm.trans hslot)
      refine ⟨rfl, htr, hrun, tid, hjoin, hst, fun s' hstep => ?_⟩
      rw [step_of_stores_nil (by simp only [stores, hs])] at hstep
      simp only [advance, hs, execute, if_pos hst] at hstep
      obtain ⟨table, htable, hstep⟩ := bind_eq_ok (Option.some.inj hstep)
      obtain rfl := Except.ok.inj hstep
      exact htable
    · next hs =>
      obtain ⟨⟨htr, hrun⟩, -⟩ := h.at_pc hs
      obtain ⟨⟨tid, child⟩, hc, hslot⟩ := Option.bind_eq_some_iff.mp hrec
      obtain ⟨hjoin, hst⟩ := exitedChild_some hc
      obtain rfl : child = thr := Option.some.inj (hjoin.2.1.symm.trans hslot)
      refine ⟨rfl, htr, hrun, tid, hjoin, hst, fun s' hstep => ?_⟩
      rw [step_of_stores_nil (by simp only [stores, hs])] at hstep
      simp only [advance, hs, execute, hc] at hstep
      obtain ⟨table, htable, hstep⟩ := bind_eq_ok (Option.some.inj hstep)
      obtain rfl := Except.ok.inj hstep
      exact htable
    · cases hrec
  · cases hrec

theorem Joins.joinsOk (hj : Joins s) (h : Inv mem s q transit) : JoinsOk a s := by
  constructor
  · intro hs
    obtain ⟨c, hc, hann⟩ := hj.at_pc hs
    obtain ⟨⟨rfl, hrun⟩, -⟩ := h.at_pc hs
    simp only [execute]
    cases hfind : exitedChild s with
    | none => exact absurd hann.1 (exitedChild_eq_none hfind hc)
    | some d =>
      obtain ⟨hjoin, hst⟩ := exitedChild_some hfind
      obtain ⟨table, hrec, -⟩ := h.recycle hrun hjoin hst
      simp only [hrec, ok_bind]
      exact ⟨_, rfl⟩
  · intro hs p tid child hb hst
    refine hj.pending hb rfl ⟨hst, fun hc => ?_⟩
    rw [not_signalling_of_settled hs] at hc
    cases hc.2
  · intro hs p hb c hc hst
    refine hj.pending hb rfl c hc ⟨hst, fun hsig => ?_⟩
    rw [not_signalling_of_settled hs] at hsig
    cases hsig.2
  · intro thr s' hrec hstep
    obtain ⟨-, rfl, hrun, tid, hjoin, hst, htable⟩ := recycles_eq_some (a := a) h hrec
    have hne : s.cur ≠ thr := by
      rintro rfl
      rw [h.running hrun] at hst
      cases hst
    refine ⟨hst, hjoin.2.2, ?_⟩
    exact (recycleThread_spec hjoin.2.1 hjoin.2.2 hne (htable s' hstep)).2.2.1

/-! ### Nobody is recycled twice -/

/-- Only a new thread is put into a slot. -/
def KeepsSlots (t t' : Table) : Prop :=
  t.allocated ≤ t'.allocated ∧
    ∀ tid p, t'.thrtab tid = some p → t.thrtab tid = some p ∨ p = t.allocated

theorem KeepsSlots.refl (t : Table) : KeepsSlots t t := ⟨Nat.le_refl _, fun _ _ => Or.inl⟩

theorem keepsSlots_fill {t : Table} {tid : Fin NTHR} {id : Int} {parent : Ptr} {proc : Option Nat}
    {room : Room} : KeepsSlots t { t.fill t.allocated id parent proc room with
      thrtab := Function.update t.thrtab tid (some t.allocated) } := by
  refine ⟨Nat.le_succ _, fun slot p hp => ?_⟩
  by_cases hs : slot = tid
  · subst hs
    have hnew : Function.update t.thrtab slot (some t.allocated) slot = some p := hp
    rw [Function.update_self] at hnew
    exact Or.inr (Option.some.inj hnew).symm
  · exact Or.inl ((Function.update_of_ne hs ..).symm.trans hp)

theorem keepsSlots_recycle {t t' : Table} {l : Lists} {tid : Fin NTHR}
    (hrec : recycleThread t l tid = .ok t') : KeepsSlots t t' := by
  unfold recycleThread at hrec
  split at hrec
  · cases hrec
  · obtain ⟨⟨⟩, -, hrec⟩ := bind_eq_ok hrec
    obtain ⟨⟨⟩, -, hrec⟩ := bind_eq_ok hrec
    obtain rfl := Except.ok.inj hrec
    refine ⟨Nat.le_refl _, fun slot p hp => ?_⟩
    by_cases hs : slot = tid
    · subst hs
      have hnone := (Function.update_self ..).symm.trans hp
      cases hnone
    · exact Or.inl ((Function.update_of_ne hs ..).symm.trans hp)

theorem execute_keepsSlots {pc : Pc} (hstep : execute a s pc = .ok s') :
    KeepsSlots s.table s'.table := by
  cases pc with
  | joinLoop tid child =>
    simp only [execute] at hstep
    split at hstep
    · obtain ⟨table, hrec, hstep⟩ := bind_eq_ok hstep
      obtain rfl := Except.ok.inj hstep
      exact keepsSlots_recycle hrec
    · obtain rfl := Except.ok.inj hstep
      exact .refl _
  | joinAnyScan =>
    simp only [execute] at hstep
    split at hstep
    · obtain ⟨table, hrec, hstep⟩ := bind_eq_ok hstep
      obtain rfl := Except.ok.inj hstep
      exact keepsSlots_recycle hrec
    · cases hstep
  | resumed prev r =>
    obtain rfl := Except.ok.inj hstep
    show KeepsSlots s.table (release a s prev).table
    unfold release
    split
    · exact .refl _
    · exact .refl _
  | spaceSwitch next r =>
    simp only [execute] at hstep
    split at hstep <;> obtain rfl := Except.ok.inj hstep <;> exact .refl _
  | exitBroadcast =>
    simp only [execute] at hstep
    split at hstep
    · cases hstep
    · split at hstep <;> obtain rfl := Except.ok.inj hstep <;> exact .refl _
  | swtch next r =>
    simp only [execute] at hstep
    split at hstep
    · obtain rfl := Except.ok.inj hstep
      exact .refl _
    · cases hstep
  | exitFailed => cases hstep
  | own | spawnSetup child | waitCond c r | waitNext c r | finishFork child frame =>
    obtain rfl := Except.ok.inj hstep
    exact .refl _
  | spawnInsert child | condWait c r | waitInsert c r | suspend r | dispatch r | wakeAll c exiting
  | forkInsert child parent frame =>
    simp only [execute] at hstep
    obtain ⟨_, _, hstep⟩ := bind_eq_ok hstep
    obtain rfl := Except.ok.inj hstep
    exact .refl _

theorem call_keepsSlots {op : Op} (hstep : call a s op = .ok s') : KeepsSlots s.table s'.table := by
  have hjoin : ∀ tid, (threadJoin s tid).table = s.table := by
    intro tid
    unfold threadJoin
    split
    · dsimp only
      split
      · rfl
      · split <;> rfl
    · rfl
  cases op with
  | spawn =>
    have hstep' : threadSpawn a s = .ok s' := hstep
    unfold threadSpawn at hstep'
    split at hstep'
    · cases hstep'
    · obtain ⟨⟨room, pages⟩, -, hstep'⟩ := bind_eq_ok hstep'
      obtain rfl := Except.ok.inj hstep'
      exact keepsSlots_fill
  | fork f =>
    have hstep' : threadForkToUser a s f = .ok s' := hstep
    unfold threadForkToUser at hstep'
    obtain ⟨⟨room, pages⟩, -, hstep'⟩ := bind_eq_ok hstep'
    obtain rfl := Except.ok.inj hstep'
    dsimp only
    cases forkSlot s.table with
    | some tid => exact keepsSlots_fill
    | none => exact ⟨Nat.le_succ _, fun _ _ => Or.inl⟩
  | join tid =>
    obtain rfl := Except.ok.inj hstep
    rw [hjoin]
    exact .refl _
  | joinAny =>
    have hstep' : threadJoinAny s = .ok s' := hstep
    unfold threadJoinAny at hstep'
    split at hstep'
    · obtain rfl := Except.ok.inj hstep'
      rw [hjoin]
      exact .refl _
    · split at hstep'
      · cases hstep'
      · obtain rfl := Except.ok.inj hstep'
        exact .refl _
  | yield =>
    obtain ⟨⟨⟩, -, hstep⟩ := bind_eq_ok hstep
    obtain rfl := Except.ok.inj hstep
    exact .refl _
  | wait n | freePage page =>
    obtain rfl := Except.ok.inj hstep
    exact .refl _
  | broadcast n =>
    simp only [call] at hstep
    split at hstep <;> obtain rfl := Except.ok.inj hstep <;> exact .refl _
  | exit =>
    simp only [call] at hstep
    split at hstep
    · cases hstep
    · obtain rfl := Except.ok.inj hstep
      exact .refl _
  | allocPage =>
    simp only [call] at hstep
    split at hstep
    · cases hstep
    · obtain rfl := Except.ok.inj hstep
      exact .refl _

theorem step_keepsSlots {e : Event} (hspare : Spares a s e)
    (hstep : step a s e = some (.ok s')) : KeepsSlots s.table s'.table := by
  rw [step_eq_advance hspare] at hstep
  cases e with
  | isr n =>
    obtain ⟨lists, -, hstep⟩ := bind_eq_ok (Option.some.inj hstep)
    obtain rfl := Except.ok.inj hstep
    exact .refl _
  | step =>
    simp only [advance] at hstep
    split at hstep
    · cases hstep
    · exact execute_keepsSlots (Option.some.inj hstep)
  | call op =>
    simp only [advance] at hstep
    split at hstep
    · split at hstep
      · exact call_keepsSlots (Option.some.inj hstep)
      · cases hstep
    · cases hstep
  | write x v =>
    obtain rfl := Except.ok.inj (Option.some.inj hstep)
    exact .refl _

/-- A thread that is in no slot any more. -/
def Gone (t : Table) (p : Ptr) : Prop := p < t.allocated ∧ ∀ tid, t.thrtab tid ≠ some p

theorem Gone.keep {t t' : Table} (h : Gone t p) (hkeep : KeepsSlots t t') : Gone t' p := by
  refine ⟨Nat.lt_of_lt_of_le h.1 hkeep.1, fun tid hp => ?_⟩
  obtain hold | rfl := hkeep.2 tid p hp
  · exact h.2 tid hold
  · exact Nat.lt_irrefl _ h.1

/-- Who is in no slot is not recycled. -/
theorem Gone.not_recycled {es : List Event} (hgone : Gone s.table p) (h : Inv mem s q transit)
    (hcare : Careful a s es) : p ∉ recycled a s es := by
  induction es generalizing s q transit with
  | nil => exact List.not_mem_nil
  | cons e es ih =>
    have hnow : p ∉ (recycles s e).toList := by
      intro hp
      obtain ⟨-, -, -, tid, hjoin, -⟩ := recycles_eq_some (a := a) h (Option.mem_toList.mp hp)
      exact hgone.2 tid hjoin.2.1
    unfold recycled
    split
    · next s' hstep =>
      obtain ⟨q', transit', h'⟩ := step_fine h hcare.1 hstep
      rw [List.mem_append, not_or]
      exact ⟨hnow, ih (hgone.keep (step_keepsSlots hcare.1.2 hstep)) h' (hcare.2 s' (next_eq_some.mpr hstep))⟩
    · exact hnow

theorem recycled_nodup {es : List Event} (h : Inv mem s q transit) (hcare : Careful a s es) :
    (recycled a s es).Nodup := by
  induction es generalizing s q transit with
  | nil => exact List.nodup_nil
  | cons e es ih =>
    have hone : (recycles s e).toList.Nodup := by cases recycles s e <;> simp
    unfold recycled
    split
    · next s' hstep =>
      obtain ⟨q', transit', h'⟩ := step_fine h hcare.1 hstep
      refine List.nodup_append'.mpr ⟨hone, ih h' (hcare.2 s' (next_eq_some.mpr hstep)), fun p hp => ?_⟩
      -- the thread that has just been recycled is in no slot
      obtain ⟨-, rfl, hrun, tid, hjoin, hst, htable⟩ :=
        recycles_eq_some (a := a) h (Option.mem_toList.mp hp)
      have hne : s.cur ≠ p := by
        rintro rfl
        rw [h.running hrun] at hst
        cases hst
      obtain ⟨hthrtab, -⟩ :=
        recycleThread_spec hjoin.2.1 hjoin.2.2 hne (htable s' hstep)
      refine Gone.not_recycled ⟨?_, fun slot hslot => ?_⟩ h' (hcare.2 s' (next_eq_some.mpr hstep))
      · exact Nat.lt_of_lt_of_le (h.table.slot tid p hjoin.2.1).1 (step_keepsSlots hcare.1.2 hstep).1
      · rw [hthrtab] at hslot
        by_cases hs : slot = tid
        · subst hs
          rw [Function.update_self] at hslot
          cases hslot
        · -- a thread is in the slot of its number only
          rw [Function.update_of_ne hs] at hslot
          have hid := (h.table.slot slot p hslot).2.symm.trans (h.table.slot tid p hjoin.2.1).2
          exact hs (Fin.ext (by exact_mod_cast hid))
    · exact hone

/-- The invariants hold after every run of events that meet their conditions. -/
theorem runs_joins {es : List Event} (hj : Joins s) (h : Inv mem s q transit)
    (hcare : Careful a s es) (hfork : ∀ f, Event.call (.fork f) ∉ es)
    (hr : runs a s es = some (.ok s')) : Joins s' ∧ ∃ q' transit', Inv mem s' q' transit' := by
  induction es generalizing s q transit with
  | nil =>
    obtain rfl := Except.ok.inj (Option.some.inj hr)
    exact ⟨hj, q, transit, h⟩
  | cons e es ih =>
    unfold runs at hr
    split at hr
    · cases hr
    · cases hr
    · next s₁ hstep =>
      obtain ⟨q₁, transit₁, h₁⟩ := step_fine h hcare.1 hstep
      have hne : ∀ f, e ≠ .call (.fork f) := by
        rintro f rfl
        exact hfork f List.mem_cons_self
      exact ih (step_joins hj h hcare.1.2 hne hstep) h₁ (hcare.2 s₁ (next_eq_some.mpr hstep))
        (fun f hf => hfork f (List.mem_cons_of_mem e hf)) hr

theorem threadInit_joins (lists : Lists) (table : Table) (pages : μ) :
    Joins (threadInit lists table pages) := by
  refine ⟨fun p hp hmain _ => ⟨IDLE_TID, by decide, ?_⟩, nofun, trivial⟩
  have hidle : p = idleThread := by
    have hlt : p < 2 := hp
    unfold mainThread at hmain
    unfold idleThread
    omega
  rw [hidle]
  rfl

/-- The main thread waits in `thread_join_any` while the thread that it has spawned exits, and
recycles it. -/
def joinAnyRun : List Event :=
  [calls .spawn 2, calls .joinAny 8, calls .yield 4, calls .exit 7, calls .yield 6].flatten

/-- Memory in which the `child_exit` of the first thread to be spawned is not empty: it begins
with a structure 5 that looks like a thread that waits there. -/
def staleLists : Lists where
  state _ := .waiting
  listNext _ := none
  waitCond _ := some (.childExit 2)
  waitList _ := ⟨some 5, some 6⟩
  readyList := Chain.nil

/-- Thread 2 spawns thread 3 and joins it; thread 3 exits. -/
def staleRun : List Event :=
  [calls .spawn 2, calls .yield 4, calls .yield 4, calls .spawn 2, calls (.join 2) 10,
    calls .yield 5, calls .yield 4, calls .exit 5].flatten

end Thread

end RiscvKernel
