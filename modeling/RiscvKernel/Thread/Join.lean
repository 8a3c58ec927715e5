import RiscvKernel.Thread.Runs

/-!
# Joining

Nobody who waits in `thread_join` or `thread_join_any` misses an exit. An exiting thread sets
its state, and signals its parent before it leaves the processor: `Announced` are the exits
that have been signalled. `Joins` is what holds of them in every state: a thread that waits
in a join has missed none (`JoinRet.waiting`), and one that was woken in `thread_join_any`
has an exited child to find (`JoinRet.woken`).

* `recycleThread_spec`: the children of a recycled thread go to its parent.
* `step_joins`: one event keeps `Joins`.
-/

namespace RiscvKernel

open Lib

namespace Thread

variable {μ : Type}

/-! ## What the joins wait for -/

/-- `c` is a child of `p` in the thread table. -/
def IsChild (t : Table) (p c : Ptr) : Prop :=
  (∃ tid, tid ≠ 0 ∧ t.thrtab tid = some c) ∧ t.parent c = some p

/-- Between setting its state and having signalled its parent in `thread_exit`. -/
def Pc.signalling : Pc → Bool
  | .exitBroadcast => true
  | .wakeAll _ exiting => exiting
  | _ => false

/-- `c` has exited and has signalled its parent. -/
def Announced (s : Kernel μ) (c : Ptr) : Prop :=
  s.lists.state c = .exited ∧ ¬(c = s.cur ∧ s.pc.signalling = true)

/-- The returns into a join. -/
def Ret.joins : Ret → Bool
  | .join .. => true
  | .joinAny => true
  | _ => false

/-- No exit that the join of `p` waits for has been signalled. -/
def Pending (s : Kernel μ) (p : Ptr) : Ret → Prop
  | .join _ child => ¬Announced s child
  | .joinAny => ∀ c, IsChild s.table p c → ¬Announced s c
  | _ => True

/-- What holds of a thread `p` that has suspended and is to return to `r`. -/
structure JoinRet (s : Kernel μ) (p : Ptr) (r : Ret) : Prop where
  waiting : r.joins = true → s.lists.state p = .waiting →
    s.lists.waitCond p = some (.childExit p) ∧ Pending s p r
  woken : r = .joinAny → s.lists.state p ≠ .waiting → ∃ c, IsChild s.table p c ∧ Announced s c

/-- What holds at a program counter. -/
def JoinPc (s : Kernel μ) : Pc → Prop
  | .condWait c r => r.joins = true → c = .childExit s.cur ∧ Pending s s.cur r
  | .waitCond c r => r.joins = true → c = .childExit s.cur ∧ Pending s s.cur r
  | .waitNext c r => r.joins = true → c = .childExit s.cur ∧ Pending s s.cur r
  | .waitInsert c r => r.joins = true → c = .childExit s.cur ∧ Pending s s.cur r
  | .suspend r => JoinRet s s.cur r
  | .dispatch r => JoinRet s s.cur r
  | .spaceSwitch _ r => JoinRet s s.cur r
  | .swtch _ r => JoinRet s s.cur r
  | .resumed _ r => JoinRet s s.cur r
  | .joinAnyScan => ∃ c, IsChild s.table s.cur c ∧ Announced s c
  | .wakeAll c true => ∃ p, c = .childExit p ∧ s.table.parent s.cur = some p
  | .wakeAll c false => ∃ n, c = .dev n
  | .forkInsert .. => False
  | .finishFork .. => False
  | _ => True

/-- The invariant of joins and exits. -/
structure Joins (s : Kernel μ) : Prop where
  slot : ∀ p < s.table.allocated, p ≠ mainThread → ¬Announced s p →
    ∃ tid, tid ≠ 0 ∧ s.table.thrtab tid = some p
  parked : ∀ p ≠ s.cur, ∀ r, s.resume p = .suspended r → JoinRet s p r
  pc : JoinPc s s.pc

variable {a : PageAlloc μ} {mem : Condition → Chain Ptr} {s s' : Kernel μ}
  {q : Queues Condition Ptr} {transit : Option Ptr} {p : Ptr} {r : Ret}

theorem Joins.at_pc (h : Joins s) {pc : Pc} (hs : s.pc = pc) : JoinPc s pc := hs ▸ h.pc

/-- A return outside a join needs nothing. -/
theorem joinRet_of_not_joins (hr : r.joins = false) : JoinRet s p r := by
  refine ⟨fun hj => ?_, ?_⟩
  · rw [hr] at hj
    cases hj
  · rintro rfl
    cases hr

/-! ## What keeps the invariant -/

/-- The states `s` and `s'` have the same threads, and the same exits have been signalled. -/
structure SameExits (s s' : Kernel μ) : Prop where
  thrtab : s'.table.thrtab = s.table.thrtab
  parent : s'.table.parent = s.table.parent
  allocated : s'.table.allocated = s.table.allocated
  cur : s'.cur = s.cur
  announced : ∀ c, Announced s' c ↔ Announced s c

theorem announced_congr (hcur : s'.cur = s.cur)
    (hexit : ∀ c, s'.lists.state c = .exited ↔ s.lists.state c = .exited)
    (hsig : s'.pc.signalling = s.pc.signalling) (c : Ptr) : Announced s' c ↔ Announced s c := by
  unfold Announced
  rw [hexit, hcur, hsig]

theorem SameExits.isChild (h : SameExits s s') {c : Ptr} :
    IsChild s'.table p c ↔ IsChild s.table p c := by
  unfold IsChild
  rw [h.thrtab, h.parent]

theorem SameExits.pending (h : SameExits s s') (hp : Pending s p r) : Pending s' p r := by
  cases r with
  | join tid child => exact mt (h.announced child).mp hp
  | joinAny => exact fun c hc => mt (h.announced c).mp (hp c (h.isChild.mp hc))
  | own => trivial
  | exit => trivial

theorem JoinRet.keep (h : JoinRet s p r) (hsame : SameExits s s')
    (hwait : r.joins = true → (s'.lists.state p = .waiting ↔ s.lists.state p = .waiting) ∧
      s'.lists.waitCond p = s.lists.waitCond p) : JoinRet s' p r := by
  refine ⟨fun hr hst => ?_, ?_⟩
  · obtain ⟨hiff, hcond⟩ := hwait hr
    obtain ⟨hc, hp⟩ := h.waiting hr (hiff.mp hst)
    exact ⟨hcond.trans hc, hsame.pending hp⟩
  · rintro rfl hst
    obtain ⟨c, hc, hann⟩ := h.woken rfl (mt (hwait rfl).1.mpr hst)
    exact ⟨c, hsame.isChild.mpr hc, (hsame.announced c).mpr hann⟩

/-- The program counter says the same of a state with the same exits. -/
theorem JoinPc.keep {pc : Pc} (h : JoinPc s pc) (hsame : SameExits s s')
    (hret : ∀ r, JoinRet s s.cur r → JoinRet s' s.cur r) : JoinPc s' pc := by
  have hcond : ∀ {c : Condition} {r : Ret},
      (r.joins = true → c = .childExit s.cur ∧ Pending s s.cur r) →
      r.joins = true → c = .childExit s'.cur ∧ Pending s' s'.cur r := by
    intro c r hpend hr
    rw [hsame.cur]
    exact (hpend hr).imp id hsame.pending
  have hret' : ∀ {r : Ret}, JoinRet s s.cur r → JoinRet s' s'.cur r := by
    intro r hr
    rw [hsame.cur]
    exact hret r hr
  cases pc with
  | condWait c r => exact hcond h
  | waitCond c r => exact hcond h
  | waitNext c r => exact hcond h
  | waitInsert c r => exact hcond h
  | suspend r => exact hret' h
  | dispatch r => exact hret' h
  | spaceSwitch next r => exact hret' h
  | swtch next r => exact hret' h
  | resumed prev r => exact hret' h
  | joinAnyScan =>
    obtain ⟨c, hc, hann⟩ := h
    refine ⟨c, ?_, (hsame.announced c).mpr hann⟩
    rw [hsame.cur]
    exact hsame.isChild.mpr hc
  | wakeAll c exiting =>
    cases exiting with
    | false => exact h
    | true =>
      show ∃ p, c = .childExit p ∧ s'.table.parent s'.cur = some p
      rw [hsame.parent, hsame.cur]
      exact h
  | forkInsert child parent depth => exact h.elim
  | finishFork child depth => exact h.elim
  | own => trivial
  | spawnInsert child => trivial
  | spawnSetup child => trivial
  | exitBroadcast => trivial
  | exitFailed => trivial
  | joinLoop tid child => trivial

/-- A step after which the same exits have been signalled, and the others still wait in the
joins where they waited. -/
theorem Joins.keep (h : Joins s) (hsame : SameExits s s') (hresume : s'.resume = s.resume)
    (hwait : ∀ p ≠ s.cur, ∀ r, JoinRet s p r → r.joins = true →
      (s'.lists.state p = .waiting ↔ s.lists.state p = .waiting) ∧
      s'.lists.waitCond p = s.lists.waitCond p)
    (hpc : JoinPc s' s'.pc) : Joins s' := by
  refine ⟨fun p hp hmain hann => ?_, fun p hp r hr => ?_, hpc⟩
  · rw [hsame.allocated] at hp
    rw [hsame.thrtab]
    exact h.slot p hp hmain (mt (hsame.announced p).mpr hann)
  · rw [hsame.cur] at hp
    rw [hresume] at hr
    have hret := h.parked p hp r hr
    exact hret.keep hsame (hwait p hp r hret)

/-- Only the program counter moves. -/
theorem Joins.goto (h : Joins s) (pc : Pc) (hsig : pc.signalling = s.pc.signalling)
    (hpc : JoinPc s pc) : Joins { s with pc := pc } := by
  have hsame : SameExits s { s with pc := pc } :=
    ⟨rfl, rfl, rfl, rfl, announced_congr rfl (fun _ => Iff.rfl) hsig⟩
  refine h.keep hsame rfl (fun _ _ _ _ _ => ⟨Iff.rfl, rfl⟩) ?_
  exact hpc.keep hsame fun r hr => hr.keep hsame fun _ => ⟨Iff.rfl, rfl⟩

/-- The active memory space, the result of a call and the pages have nothing to do with it. -/
theorem Joins.rest (h : Joins s) (satp : Nat) (a0 : Int) (pages : μ) :
    Joins { s with satp := satp, a0 := a0, pages := pages } := by
  have hsame : SameExits s { s with satp := satp, a0 := a0, pages := pages } :=
    ⟨rfl, rfl, rfl, rfl, fun _ => Iff.rfl⟩
  refine h.keep hsame rfl (fun _ _ _ _ _ => ⟨Iff.rfl, rfl⟩) ?_
  exact h.pc.keep hsame fun r hr => hr.keep hsame fun _ => ⟨Iff.rfl, rfl⟩

/-- A thread that waits in a join waits on its own `child_exit`. -/
theorem JoinRet.waits (hj : JoinRet s p r) (h : Inv mem s q transit) (hr : r.joins = true)
    {c : Condition} (hp : p ∈ q.waiting c) : c = .childExit p := by
  obtain ⟨hlt, htr⟩ := h.lists.placed p (Or.inr (Or.inr ⟨c, hp⟩))
  have hst := (h.lists.waiting_iff p hlt htr).mpr ⟨c, hp⟩
  exact Option.some.inj ((h.lists.waitCond c p hp).symm.trans (hj.waiting hr hst).1)

/-! ## Broadcasts -/

/-- A condition outside `thread.c` is broadcast: nobody who waits in a join is woken. -/
theorem Joins.devBroadcast (hj : Joins s) (h : Inv mem s q transit) {n : Nat} {lists : Lists}
    (hok : lists.Ok mem s.table.allocated (q.broadcast (.dev n)) transit)
    (hout : ∀ t ∉ q.waiting (.dev n), lists.state t = s.lists.state t ∧
      lists.waitCond t = s.lists.waitCond t) : Joins { s with lists := lists } := by
  have hsame : SameExits s { s with lists := lists } :=
    ⟨rfl, rfl, rfl, rfl, announced_congr rfl (h.lists.broadcast_exited hok hout) rfl⟩
  have hwait : ∀ p r, JoinRet s p r → r.joins = true →
      (lists.state p = .waiting ↔ s.lists.state p = .waiting) ∧
      lists.waitCond p = s.lists.waitCond p := by
    intro p r hret hr
    have hnot : p ∉ q.waiting (.dev n) := fun hp => nomatch hret.waits h hr hp
    rw [(hout p hnot).1]
    exact ⟨Iff.rfl, (hout p hnot).2⟩
  refine hj.keep hsame rfl (fun p _ r => hwait p r) ?_
  exact hj.pc.keep hsame fun r hr => hr.keep hsame (hwait s.cur r hr)

/-- The current thread has signalled its parent `u`, which does not wait in a join now. -/
theorem JoinRet.announce (hj : JoinRet s p r) (hjoin : JoinOk s.table p r)
    (htable : s'.table = s.table) {u : Ptr} (hchild : IsChild s.table u s.cur)
    (hann : ∀ c, Announced s' c ↔ Announced s c ∨ c = s.cur)
    (hother : r.joins = true → p ≠ u →
      (s'.lists.state p = .waiting ↔ s.lists.state p = .waiting) ∧
      s'.lists.waitCond p = s.lists.waitCond p)
    (hparent : r.joins = true → p = u → s'.lists.state p ≠ .waiting) : JoinRet s' p r := by
  constructor
  · intro hr hst
    have hne : p ≠ u := fun he => hparent hr he hst
    obtain ⟨hiff, hcond⟩ := hother hr hne
    obtain ⟨hc, hpend⟩ := hj.waiting hr (hiff.mp hst)
    refine ⟨hcond.trans hc, ?_⟩
    -- the current thread is no child of `p`
    have hcur : s.table.parent s.cur ≠ some p := by
      rw [hchild.2]
      exact fun he => hne (Option.some.inj he).symm
    cases r with
    | join tid child =>
      intro hnew
      obtain hold | rfl := (hann child).mp hnew
      · exact hpend hold
      · exact hcur hjoin.2.2
    | joinAny =>
      intro c hc hnew
      rw [htable] at hc
      obtain hold | rfl := (hann c).mp hnew
      · exact hpend c hc hold
      · exact hcur hc.2
    | own => trivial
    | exit => trivial
  · rintro rfl hst
    rw [htable]
    by_cases hpu : p = u
    · subst hpu
      exact ⟨s.cur, hchild, (hann _).mpr (Or.inr rfl)⟩
    · obtain ⟨c, hc, hold⟩ := hj.woken rfl (mt (hother rfl hpu).1.mpr hst)
      exact ⟨c, hc, (hann c).mpr (Or.inl hold)⟩

/-- The current thread leaves for the last time: its exit has been signalled. -/
theorem Joins.announce (hj : Joins s) (h : Inv mem s q transit) (hexit : Exiting s.lists s.cur q transit)
    (hsig : s.pc.signalling = true) {u : Ptr} (hu : s.table.parent s.cur = some u) {lists : Lists}
    (hstate : ∀ t, lists.state t = .exited ↔ s.lists.state t = .exited)
    (hother : ∀ p r, JoinRet s p r → r.joins = true → p ≠ u →
      (lists.state p = .waiting ↔ s.lists.state p = .waiting) ∧
      lists.waitCond p = s.lists.waitCond p)
    (hparent : ∀ r, JoinRet s u r → RetOk s.table s.lists u r → r.joins = true →
      lists.state u ≠ .waiting) :
    Joins { s with lists := lists, pc := .suspend .exit } := by
  have hnot : ¬Announced s s.cur := fun hann => hann.2 ⟨rfl, hsig⟩
  have hchild : IsChild s.table u s.cur := ⟨hj.slot s.cur h.cur hexit.main hnot, hu⟩
  have hann : ∀ c, Announced { s with lists := lists, pc := .suspend .exit } c ↔
      Announced s c ∨ c = s.cur := by
    intro c
    have hnew : Announced { s with lists := lists, pc := .suspend .exit } c ↔
        s.lists.state c = .exited := by
      unfold Announced
      rw [hstate]
      exact and_iff_left fun hc => nomatch hc.2
    rw [hnew]
    by_cases hc : c = s.cur
    · subst hc
      exact iff_of_true hexit.state (Or.inr rfl)
    · exact ⟨fun hst => Or.inl ⟨hst, fun hcur => hc hcur.1⟩, fun ho => (ho.resolve_right hc).1⟩
  refine ⟨fun p hp hmain hp' => ?_, fun p hp r hr => ?_, joinRet_of_not_joins rfl⟩
  · exact hj.slot p hp hmain fun hold => hp' ((hann p).mpr (Or.inl hold))
  · have hret := hj.parked p hp r hr
    have hok := (h.parked p hp r hr).2
    refine hret.announce hok.join rfl hchild hann (hother p r hret) ?_
    rintro hjoins rfl
    exact hparent r hret hok hjoins

/-! ## Recycling -/

/-- The loop of `recycle_thread`: the threads in the slots that were children of `thr` are
children of its parent `u`. -/
theorem foldl_reparent_apply {t : Table} {thr u : Ptr} (hne : u ≠ thr) (slots : List (Fin NTHR))
    {parent : Ptr → Option Ptr} (hthr : parent thr = some u) (c : Ptr) :
    slots.foldl (reparent t thr) parent c =
      if (∃ tid ∈ slots, tid ≠ 0 ∧ t.thrtab tid = some c) ∧ parent c = some thr then some u
      else parent c := by
  induction slots generalizing parent with
  | nil => simp
  | cons tid slots ih =>
    rw [List.foldl_cons]
    -- does the slot hold a child of `thr`?
    by_cases hslot : ∃ child, t.thrtab tid = some child ∧ tid ≠ 0 ∧ parent child = some thr
    · obtain ⟨child, htab, htid, hchild⟩ := hslot
      have hstep : reparent t thr parent tid = Function.update parent child (some u) := by
        unfold reparent
        rw [htab]
        dsimp only
        rw [if_pos ⟨htid, hchild⟩, hthr]
      have hct : child ≠ thr := by
        rintro rfl
        exact hne (Option.some.inj (hthr.symm.trans hchild))
      rw [hstep, ih (by rw [Function.update_of_ne hct.symm]; exact hthr)]
      by_cases hc : c = child
      · subst hc
        have hnot : ¬(some u : Option Ptr) = some thr := fun he => hne (Option.some.inj he)
        rw [Function.update_self, if_neg fun h => hnot h.2,
          if_pos ⟨⟨tid, List.mem_cons_self, htid, htab⟩, hchild⟩]
      · rw [Function.update_of_ne hc]
        have hmem : (∃ tid' ∈ tid :: slots, tid' ≠ 0 ∧ t.thrtab tid' = some c) ↔
            ∃ tid' ∈ slots, tid' ≠ 0 ∧ t.thrtab tid' = some c := by
          have hnot : ¬(child = c) := fun he => hc he.symm
          simp [htab, hnot]
        exact if_congr (and_congr_left fun _ => hmem.symm) rfl rfl
    · have hstep : reparent t thr parent tid = parent := by
        unfold reparent
        cases htab : t.thrtab tid with
        | none => rfl
        | some child => exact if_neg fun hc => hslot ⟨child, htab, hc.1, hc.2⟩
      rw [hstep, ih hthr]
      refine if_congr (and_congr_left fun hc => ?_) rfl rfl
      constructor
      · rintro ⟨tid', hmem, h⟩
        exact ⟨tid', List.mem_cons_of_mem _ hmem, h⟩
      · rintro ⟨tid', hmem, h⟩
        obtain rfl | hmem := List.mem_cons.mp hmem
        · exact absurd ⟨c, h.2, h.1, hc⟩ hslot
        · exact ⟨tid', hmem, h⟩

/-- What `recycle_thread` leaves: the slot is empty, the children of `thr` are children of its
parent `u`, and the other parents are the same. -/
theorem recycleThread_spec {t t' : Table} {l : Lists} {tid : Fin NTHR} {thr u : Ptr}
    (hslot : t.thrtab tid = some thr) (hparent : t.parent thr = some u) (hne : u ≠ thr)
    (hrec : recycleThread t l tid = .ok t') :
    t'.thrtab = Function.update t.thrtab tid none ∧ t'.allocated = t.allocated ∧
      (∀ c, IsChild t thr c → t'.parent c = some u) ∧
      ∀ c, ¬IsChild t thr c → t'.parent c = t.parent c := by
  unfold recycleThread at hrec
  rw [hslot] at hrec
  obtain ⟨-, -, hrec⟩ := bind_eq_ok hrec
  obtain ⟨-, -, hrec⟩ := bind_eq_ok hrec
  obtain rfl := Except.ok.inj hrec
  have happ := foldl_reparent_apply (t := t) hne (List.finRange NTHR) hparent
  have hiff : ∀ c, IsChild t thr c ↔
      (∃ tid ∈ List.finRange NTHR, tid ≠ 0 ∧ t.thrtab tid = some c) ∧ t.parent c = some thr := by
    intro c
    simp only [IsChild, List.mem_finRange, true_and]
  refine ⟨rfl, rfl, fun c hc => ?_, fun c hc => ?_⟩
  · exact (happ c).trans (if_pos ((hiff c).mp hc))
  · exact (happ c).trans (if_neg (mt (hiff c).mpr hc))

/-- The current thread recycles an exited child. -/
theorem Joins.recycle (hj : Joins s) (h : Inv mem s q transit) (hsig : s.pc.signalling = false)
    {tid : Fin NTHR} {thr : Ptr} (hjoin : JoinOk s.table s.cur (.join tid thr))
    (hst : s.lists.state thr = .exited) (hcur : s.lists.state s.cur ≠ .exited) {table : Table}
    (hrec : recycleThread s.table s.lists tid = .ok table) (a0 : Int) :
    Joins { s with table := table, a0 := a0, pc := .own } := by
  obtain ⟨-, hslot, hparent⟩ := hjoin
  have hne : s.cur ≠ thr := by
    rintro rfl
    exact hcur hst
  obtain ⟨hthrtab, halloc, hchild, hrest⟩ := recycleThread_spec hslot hparent hne hrec
  have hann : ∀ c, Announced { s with table := table, a0 := a0, pc := .own } c ↔ Announced s c := by
    intro c
    unfold Announced
    rw [hsig]
    rfl
  have hthr : Announced s thr := ⟨hst, fun hc => by rw [hsig] at hc; cases hc.2⟩
  -- the slots of the others
  have hkeep : ∀ slot c, c ≠ thr → s.table.thrtab slot = some c → table.thrtab slot = some c := by
    intro slot c hc hs
    have hst : slot ≠ tid := by
      rintro rfl
      exact hc (Option.some.inj (hs.symm.trans hslot))
    rw [hthrtab, Function.update_of_ne hst]
    exact hs
  refine ⟨fun p hp hmain hp' => ?_, fun p hp r hr => ?_, trivial⟩
  · have hpt : p ≠ thr := by
      rintro rfl
      exact hp' ((hann p).mpr hthr)
    rw [halloc] at hp
    obtain ⟨slot, hslot0, hs⟩ := hj.slot p hp hmain (mt (hann p).mpr hp')
    exact ⟨slot, hslot0, hkeep slot p hpt hs⟩
  · have hret := hj.parked p hp r hr
    have hok := (h.parked p hp r hr).2
    by_cases hpt : p = thr
    · -- a thread that has exited joins nobody
      rw [hok.exited.mp (hpt ▸ hst)]
      exact joinRet_of_not_joins rfl
    · have hiff : ∀ c, IsChild table p c ↔ IsChild s.table p c := by
        intro c
        constructor
        · rintro ⟨⟨slot, hslot0, hs⟩, hc⟩
          have hold : s.table.thrtab slot = some c := by
            rw [hthrtab] at hs
            by_cases hst : slot = tid
            · subst hst
              rw [Function.update_self] at hs
              cases hs
            · rwa [Function.update_of_ne hst] at hs
          refine ⟨⟨slot, hslot0, hold⟩, ?_⟩
          by_cases hthrc : IsChild s.table thr c
          · rw [hchild c hthrc] at hc
            exact absurd (Option.some.inj hc).symm hp
          · rwa [hrest c hthrc] at hc
        · rintro ⟨⟨slot, hslot0, hs⟩, hc⟩
          have hct : c ≠ thr := by
            rintro rfl
            exact hp (Option.some.inj (hc.symm.trans hparent))
          have hthrc : ¬IsChild s.table thr c := fun hcc =>
            hpt (Option.some.inj (hc.symm.trans hcc.2))
          exact ⟨⟨slot, hslot0, hkeep slot c hct hs⟩, (hrest c hthrc).trans hc⟩
      refine ⟨fun hjoins hw => ?_, ?_⟩
      · obtain ⟨hcond, hpend⟩ := hret.waiting hjoins hw
        refine ⟨hcond, ?_⟩
        cases r with
        | join slot child => exact mt (hann child).mp hpend
        | joinAny => exact fun c hc => mt (hann c).mp (hpend c ((hiff c).mp hc))
        | own => trivial
        | exit => trivial
      · rintro rfl hw
        obtain ⟨c, hc, hca⟩ := hret.woken rfl hw
        exact ⟨c, (hiff c).mpr hc, (hann c).mpr hca⟩

/-! ## New threads -/

/-- A new thread is the child of the current thread, and nobody waits for it. -/
theorem Joins.spawn (hj : Joins s) (h : Inv mem s q none) (hs : s.pc = .own) {tid : Fin NTHR}
    (htid : tid ≠ 0) (hslot : s.table.thrtab tid = none) {proc : Option Nat} {room : Room}
    {pages : μ} {a0 : Int} :
    Joins { s with
      pages := pages
      table := s.table.enter tid s.cur proc room
      lists := s.lists.setState s.table.allocated .ready
      a0 := a0
      pc := .spawnInsert s.table.allocated } := by
  set s' : Kernel μ := { s with
    pages := pages
    table := s.table.enter tid s.cur proc room
    lists := s.lists.setState s.table.allocated .ready
    a0 := a0
    pc := .spawnInsert s.table.allocated } with hs'
  have hst : ∀ p ≠ s.table.allocated, s'.lists.state p = s.lists.state p :=
    fun p hp => Lists.setState_of_ne _ hp _
  have hann : ∀ c ≠ s.table.allocated, (Announced s' c ↔ Announced s c) := by
    intro c hc
    unfold Announced
    rw [hst c hc, hs]
    rfl
  have htab : ∀ slot c, s.table.thrtab slot = some c → s'.table.thrtab slot = some c ∧
      c ≠ s.table.allocated := by
    intro slot c hc
    have hne : slot ≠ tid := by
      rintro rfl
      rw [hslot] at hc
      cases hc
    exact ⟨(Function.update_of_ne hne ..).trans hc, Nat.ne_of_lt (h.table.slot slot c hc).1⟩
  have hchild : ∀ p ≠ s.cur, ∀ c, IsChild s'.table p c ↔ IsChild s.table p c := by
    intro p hp c
    constructor
    · rintro ⟨⟨slot, hslot0, hc⟩, hpar⟩
      have hca : c ≠ s.table.allocated := by
        rintro rfl
        have hcur : s'.table.parent s.table.allocated = some s.cur := Function.update_self ..
        exact hp (Option.some.inj (hpar.symm.trans hcur))
      refine ⟨⟨slot, hslot0, ?_⟩, (Function.update_of_ne hca ..).symm.trans hpar⟩
      have hne : slot ≠ tid := by
        rintro rfl
        have hnew : s'.table.thrtab slot = some s.table.allocated := Function.update_self ..
        exact hca (Option.some.inj (hc.symm.trans hnew))
      exact (Function.update_of_ne hne ..).symm.trans hc
    · rintro ⟨⟨slot, hslot0, hc⟩, hpar⟩
      obtain ⟨hc', hca⟩ := htab slot c hc
      exact ⟨⟨slot, hslot0, hc'⟩, (Function.update_of_ne hca ..).trans hpar⟩
  refine ⟨fun p hp hmain hp' => ?_, fun p hp r hr => ?_, trivial⟩
  · by_cases hpa : p = s.table.allocated
    · subst hpa
      exact ⟨tid, htid, Function.update_self ..⟩
    · have hlt : p < s.table.allocated := Nat.lt_of_le_of_ne (Nat.le_of_lt_succ hp) hpa
      obtain ⟨slot, hslot0, hps⟩ := hj.slot p hlt hmain (mt (hann p hpa).mpr hp')
      exact ⟨slot, hslot0, (htab slot p hps).1⟩
  · have hret := hj.parked p hp r hr
    have hok := (h.parked p hp r hr).2
    have hpa : p ≠ s.table.allocated := Nat.ne_of_lt hok.allocated
    refine ⟨fun hjoins hw => ?_, ?_⟩
    · rw [hst p hpa] at hw
      obtain ⟨hcond, hpend⟩ := hret.waiting hjoins hw
      refine ⟨hcond, ?_⟩
      cases r with
      | join slot child => exact mt (hann child (htab slot child hok.join.2.1).2).mp hpend
      | joinAny =>
        intro c hc
        have hold := (hchild p hp c).mp hc
        obtain ⟨slot, -, hcs⟩ := hold.1
        exact mt (hann c (htab slot c hcs).2).mp (hpend c hold)
      | own => trivial
      | exit => trivial
    · rintro rfl hw
      rw [hst p hpa] at hw
      obtain ⟨c, hc, hca⟩ := hret.woken rfl hw
      obtain ⟨slot, -, hcs⟩ := hc.1
      exact ⟨c, (hchild p hp c).mpr hc, (hann c (htab slot c hcs).2).mpr hca⟩

/-! ## Steps -/

/-- Only the lists change, and for the other threads in joins they say the same. -/
theorem Joins.move (hj : Joins s) {lists : Lists} {pc : Pc}
    (hexit : ∀ c, lists.state c = .exited ↔ s.lists.state c = .exited)
    (hsig : pc.signalling = s.pc.signalling)
    (hwait : ∀ p ≠ s.cur, (lists.state p = .waiting ↔ s.lists.state p = .waiting) ∧
      lists.waitCond p = s.lists.waitCond p)
    (hpc : ∀ s', SameExits s s' → s'.lists = lists → JoinPc s' pc) :
    Joins { s with lists := lists, pc := pc } := by
  have hsame : SameExits s { s with lists := lists, pc := pc } :=
    ⟨rfl, rfl, rfl, rfl, announced_congr rfl hexit hsig⟩
  exact hj.keep hsame rfl (fun p hp _ _ _ => hwait p hp) (hpc _ hsame rfl)

theorem insertReady_same {l l' : Lists} {t : Ptr} (h : l.insertReady t = .ok l') :
    l'.state = l.state ∧ l'.waitCond = l.waitCond := by
  unfold Lists.insertReady at h
  split at h
  · cases h
  · obtain rfl := Except.ok.inj h
    exact ⟨rfl, rfl⟩

theorem insertWait_same {l l' : Lists} {c : Condition} {t : Ptr} (h : l.insertWait c t = .ok l') :
    l'.state = l.state ∧ l'.waitCond = l.waitCond := by
  unfold Lists.insertWait at h
  split at h
  · cases h
  · obtain rfl := Except.ok.inj h
    exact ⟨rfl, rfl⟩

/-- Choosing the next thread moves nobody to or from a wait list. -/
theorem dispatch_same {l l' : Lists} {susp next : Ptr} (h : l.dispatch susp = .ok (next, l')) :
    l'.waitCond = l.waitCond ∧ ∀ t, (l'.state t = .waiting ↔ l.state t = .waiting) ∧
      (l'.state t = .exited ↔ l.state t = .exited) := by
  unfold Lists.dispatch at h
  split at h
  · cases h
  · next u list links hrem =>
    obtain ⟨⟨⟩, hready, h⟩ := bind_eq_ok h
    have hu : l.state u = .ready := by
      unfold require at hready
      split at hready
      · next hst => exact hst
      · cases hready
    -- who is chosen was ready and runs
    have hnext : ∀ t st, st ≠ .running → st ≠ .ready →
        (Function.update l.state u .running t = st ↔ l.state t = st) := by
      intro t st hrun hrdy
      by_cases ht : t = u
      · subst ht
        rw [Function.update_self, hu]
        exact iff_of_false (Ne.symm hrun) (Ne.symm hrdy)
      · rw [Function.update_of_ne ht]
    dsimp only at h
    split at h
    · next hsusp =>
      obtain ⟨l₁, hins, h⟩ := bind_eq_ok h
      obtain ⟨rfl, rfl⟩ := Prod.mk.inj (Except.ok.inj h)
      obtain ⟨hst, hcond⟩ := insertReady_same hins
      have hback : ∀ t st, st ≠ .running → st ≠ .ready →
          (l₁.state t = st ↔ l.state t = st) := by
        intro t st hrun hrdy
        rw [hst, ← hnext t st hrun hrdy]
        by_cases ht : t = susp
        · subst ht
          rw [Lists.setState_self]
          have hsusp' : Function.update l.state u .running t = .running := hsusp
          rw [hsusp']
          exact iff_of_false (Ne.symm hrdy) (Ne.symm hrun)
        · rw [Lists.setState_of_ne _ ht]
          exact Iff.rfl
      exact ⟨hcond, fun t => ⟨hback t _ nofun nofun, hback t _ nofun nofun⟩⟩
    · obtain ⟨rfl, rfl⟩ := Prod.mk.inj (Except.ok.inj h)
      exact ⟨rfl, fun t => ⟨hnext t _ nofun nofun, hnext t _ nofun nofun⟩⟩

/-- The children that `thread_join_any` looks at. -/
theorem mem_children_iff {tid : Fin NTHR} {c : Ptr} :
    (tid, c) ∈ children s ↔ tid ≠ 0 ∧ s.table.thrtab tid = some c ∧ s.table.parent c = some s.cur := by
  refine ⟨mem_children, fun ⟨htid, hslot, hparent⟩ => ?_⟩
  unfold children
  refine List.mem_filterMap.mpr ⟨tid, List.mem_finRange tid, ?_⟩
  rw [hslot]
  exact if_pos ⟨htid, hparent⟩

/-- If the scan finds nobody, no child has exited. -/
theorem exitedChild_eq_none (h : exitedChild s = none) {c : Ptr} (hc : IsChild s.table s.cur c) :
    s.lists.state c ≠ .exited := by
  obtain ⟨⟨tid, htid, hslot⟩, hparent⟩ := hc
  have := List.find?_eq_none.mp h (tid, c) (mem_children_iff.mpr ⟨htid, hslot, hparent⟩)
  simpa using this

/-- A broadcast of the `child_exit` of the parent on the way out. -/
theorem Joins.wakeParent (hj : Joins s) (h : Inv mem s q transit) {u : Ptr}
    (hs : s.pc = .wakeAll (.childExit u) true) {lists : Lists}
    (hok : lists.Ok mem s.table.allocated (q.broadcast (.childExit u)) transit)
    (hout : ∀ t ∉ q.waiting (.childExit u), lists.state t = s.lists.state t ∧
      lists.waitCond t = s.lists.waitCond t) :
    Joins { s with lists := lists, pc := .suspend .exit } := by
  obtain ⟨hexit, hlt⟩ := h.at_pc hs
  obtain ⟨v, huv, hv⟩ := hj.at_pc hs
  obtain rfl : u = v := by
    cases huv
    rfl
  refine hj.announce h hexit (by rw [hs]; rfl) hv (h.lists.broadcast_exited hok hout) ?_ ?_
  · intro p r hret hr hne
    have hnot : p ∉ q.waiting (.childExit u) := by
      intro hp
      cases hret.waits h hr hp
      exact hne rfl
    rw [(hout p hnot).1]
    exact ⟨Iff.rfl, (hout p hnot).2⟩
  · -- the parent has been woken, if it waited in a join
    intro r hret hret' hr hst
    have htr : transit ≠ some u := by simp [hexit.transit]
    obtain ⟨d, hd⟩ := (hok.waiting_iff u hlt htr).mp hst
    by_cases hdu : d = .childExit u
    · subst hdu
      simp at hd
    · rw [Queues.broadcast_waiting, Function.update_of_ne hdu] at hd
      exact hdu (hret.waits h hr hd)

/-- Nobody waits on the `child_exit` of the parent. -/
theorem Joins.exitUnnoticed (hj : Joins s) (h : Inv mem s q transit) (hs : s.pc = .exitBroadcast)
    {u : Ptr} (hu : s.table.parent s.cur = some u) (hlt : u < s.table.allocated)
    (hempty : (s.lists.waitList (.childExit u)).head = none) :
    Joins { s with pc := .suspend .exit } := by
  have hexit : Exiting s.lists s.cur q transit := h.at_pc hs
  have hnil := (h.lists.waiting (.childExit u) hlt).head_eq_none.mp hempty
  refine hj.announce h hexit (by rw [hs]; rfl) hu (fun _ => Iff.rfl)
    (fun _ _ _ _ _ => ⟨Iff.rfl, rfl⟩) ?_
  intro r hret _ hr hst
  have htr : transit ≠ some u := by simp [hexit.transit]
  obtain ⟨d, hd⟩ := (h.lists.waiting_iff u hlt htr).mp hst
  rw [hret.waits h hr hd, hnil] at hd
  cases hd

/-- The current thread sets its state on its way to a wait list. -/
theorem joins_condWait (hj : Joins s) (h : Inv mem s q transit) {c : Condition} {r : Ret}
    (hs : s.pc = .condWait c r) (hstep : execute a s (.condWait c r) = .ok s') : Joins s' := by
  obtain ⟨⟨rfl, hrun⟩, -⟩ := h.at_pc hs
  have hpc := hj.at_pc hs
  have hstate := h.running hrun
  simp only [execute, require, if_pos hstate, ok_bind] at hstep
  obtain rfl := Except.ok.inj hstep
  refine hj.move (fun t => ?_) (by rw [hs]; rfl) (fun p hp => ?_) fun s' hsame _ => ?_
  · by_cases ht : t = s.cur
    · subst ht
      simp [Lists.setState_self, hstate]
    · rw [Lists.setState_of_ne _ ht]
  · rw [Lists.setState_of_ne _ hp]
    exact ⟨Iff.rfl, rfl⟩
  · intro hr
    rw [hsame.cur]
    exact (hpc hr).imp id hsame.pending

/-- The current thread arrives on its wait list. -/
theorem joins_waitInsert (hj : Joins s) (h : Inv mem s q transit) {c : Condition} {r : Ret}
    (hs : s.pc = .waitInsert c r) (hstep : execute a s (.waitInsert c r) = .ok s') : Joins s' := by
  obtain ⟨hw, hcond⟩ := h.at_pc hs
  have hpc := hj.at_pc hs
  simp only [execute] at hstep
  obtain ⟨lists, hins, hstep⟩ := bind_eq_ok hstep
  obtain rfl := Except.ok.inj hstep
  obtain ⟨hst, hwc⟩ := insertWait_same hins
  refine hj.move (fun t => by rw [hst]) (by rw [hs]; rfl) (fun p _ => by rw [hst, hwc]; simp)
    fun s' hsame hlists => ?_
  show JoinRet s' s'.cur r
  rw [hsame.cur]
  refine ⟨fun hr _ => ?_, ?_⟩
  · obtain ⟨rfl, hpend⟩ := hpc hr
    rw [hlists, hwc]
    exact ⟨hcond, hsame.pending hpend⟩
  · rintro rfl hne
    rw [hlists, hst] at hne
    exact absurd hw.state hne

/-- The next thread is chosen. -/
theorem joins_dispatch (hj : Joins s) {r : Ret} (hs : s.pc = .dispatch r)
    (hstep : execute a s (.dispatch r) = .ok s') : Joins s' := by
  have hpc : JoinRet s s.cur r := hj.at_pc hs
  simp only [execute] at hstep
  obtain ⟨⟨next, lists⟩, hdisp, hstep⟩ := bind_eq_ok hstep
  obtain rfl := Except.ok.inj hstep
  obtain ⟨hwc, hst⟩ := dispatch_same hdisp
  refine hj.move (fun t => (hst t).2) (by rw [hs]; rfl) (fun p _ => ⟨(hst p).1, by rw [hwc]⟩)
    fun s' hsame hlists => ?_
  show JoinRet s' s'.cur r
  rw [hsame.cur]
  refine hpc.keep hsame fun _ => ?_
  rw [hlists, hwc]
  exact ⟨(hst s.cur).1, rfl⟩

/-- The context switch. -/
theorem joins_swtch (hj : Joins s) (h : Inv mem s q transit) {next : Ptr} {r : Ret}
    (hs : s.pc = .swtch next r) : Joins (threadSwtch s next r) := by
  obtain ⟨-, -, hne, -⟩ := h.at_pc hs
  have hpc : JoinRet s s.cur r := hj.at_pc hs
  have hsig : (threadSwtch s next r).pc.signalling = false := by
    unfold threadSwtch
    dsimp only
    split <;> rfl
  -- nobody is signalling, so the same exits have been signalled
  have hann : ∀ c, Announced (threadSwtch s next r) c ↔ Announced s c := by
    intro c
    unfold Announced
    rw [hsig, hs]
    simp [threadSwtch, Pc.signalling]
  have hret : ∀ p r', JoinRet s p r' → JoinRet (threadSwtch s next r) p r' := by
    intro p r' hr
    refine ⟨fun hjoins hw => ?_, ?_⟩
    · obtain ⟨hcond, hpend⟩ := hr.waiting hjoins hw
      refine ⟨hcond, ?_⟩
      cases r' with
      | join tid child => exact mt (hann child).mp hpend
      | joinAny => exact fun c hc => mt (hann c).mp (hpend c hc)
      | own => trivial
      | exit => trivial
    · rintro rfl hw
      obtain ⟨c, hc, hca⟩ := hr.woken rfl hw
      exact ⟨c, hc, (hann c).mpr hca⟩
  have hsame : ∀ p ≠ s.cur, (threadSwtch s next r).resume p = s.resume p :=
    fun p hp => Function.update_of_ne hp ..
  refine ⟨fun p hp hmain hp' => hj.slot p hp hmain (mt (hann p).mpr hp'), fun p hp r' hr' => ?_, ?_⟩
  · by_cases hpc' : p = s.cur
    · subst hpc'
      have hr : Resume.suspended r = .suspended r' := (Function.update_self ..).symm.trans hr'
      cases hr
      exact hret s.cur r hpc
    · rw [hsame p hpc'] at hr'
      exact hret p r' (hj.parked p hpc' r' hr')
  · unfold threadSwtch
    dsimp only
    rw [Function.update_of_ne (Ne.symm hne.symm)]
    cases hres : s.resume next with
    | start => trivial
    | forked => trivial
    | suspended r' =>
      have := hret next r' (hj.parked next hne r' hres)
      unfold threadSwtch at this
      dsimp only at this
      rw [Function.update_of_ne (Ne.symm hne.symm), hres] at this
      exact this

/-- `suspend_self` returns. -/
theorem joins_resumed (hj : Joins s) (h : Inv mem s q transit) {prev : Ptr} {r : Ret}
    (hs : s.pc = .resumed prev r) : Joins { release a s prev with pc := Ret.pc r } := by
  obtain ⟨⟨rfl, hrun⟩, hret, -⟩ := h.at_pc hs
  have hpc : JoinRet s s.cur r := hj.at_pc hs
  have hsig : (Ret.pc r).signalling = s.pc.signalling := by
    rw [hs]
    cases r <;> rfl
  have hsame : SameExits s { release a s prev with pc := Ret.pc r } := by
    unfold release
    split
    · exact ⟨rfl, rfl, rfl, rfl, announced_congr rfl (fun _ => Iff.rfl) hsig⟩
    · exact ⟨rfl, rfl, rfl, rfl, announced_congr rfl (fun _ => Iff.rfl) hsig⟩
  have hlists : (release a s prev).lists = s.lists := by
    unfold release
    split <;> rfl
  have hresume : (release a s prev).resume = s.resume := by
    unfold release
    split <;> rfl
  refine hj.keep hsame hresume (fun p _ _ _ _ => ?_) ?_
  · show ((release a s prev).lists.state p = _ ↔ _) ∧ (release a s prev).lists.waitCond p = _
    rw [hlists]
    exact ⟨Iff.rfl, rfl⟩
  · cases r with
    | own => trivial
    | join tid child => trivial
    | exit => trivial
    | joinAny =>
      obtain ⟨c, hc, hca⟩ := hpc.woken rfl (by rw [h.running hrun]; nofun)
      refine ⟨c, ?_, (hsame.announced c).mpr hca⟩
      have := hsame.isChild.mpr hc
      rw [← hsame.cur] at this
      exact this

/-- Every step inside `thread.c`. -/
theorem execute_joins (hj : Joins s) (h : Inv mem s q transit) {pc : Pc} (hs : s.pc = pc)
    (hstep : execute a s pc = .ok s') : Joins s' := by
  have hpc := hj.at_pc hs
  have hsig := congrArg Pc.signalling hs
  cases pc with
  | own =>
    obtain rfl := Except.ok.inj hstep
    exact hj
  | spawnInsert child =>
    simp only [execute] at hstep
    obtain ⟨lists, hins, hstep⟩ := bind_eq_ok hstep
    obtain rfl := Except.ok.inj hstep
    obtain ⟨hst, hwc⟩ := insertReady_same hins
    exact hj.move (fun t => by rw [hst]) hsig.symm (fun p _ => by rw [hst, hwc]; simp)
      fun _ _ _ => trivial
  | spawnSetup child =>
    obtain rfl := Except.ok.inj hstep
    have hsame : SameExits s
        { s with resume := Function.update s.resume child .start, pc := .own } :=
      ⟨rfl, rfl, rfl, rfl, announced_congr rfl (fun _ => Iff.rfl) hsig.symm⟩
    refine ⟨fun p hp hmain hp' => hj.slot p hp hmain (mt (hsame.announced p).mpr hp'),
      fun p hp r hr => ?_, trivial⟩
    have hpc' : p ≠ child := by
      rintro rfl
      have : Resume.start = .suspended r := (Function.update_self ..).symm.trans hr
      cases this
    have hold : s.resume p = .suspended r := (Function.update_of_ne hpc' ..).symm.trans hr
    exact (hj.parked p hp r hold).keep hsame fun _ => ⟨Iff.rfl, rfl⟩
  | condWait c r => exact joins_condWait hj h hs hstep
  | waitCond c r =>
    obtain rfl := Except.ok.inj hstep
    refine hj.move (fun _ => Iff.rfl) hsig.symm (fun p hp => ?_) fun s' hsame _ => ?_
    · exact ⟨Iff.rfl, Function.update_of_ne hp ..⟩
    · intro hr
      rw [hsame.cur]
      exact (hpc hr).imp id hsame.pending
  | waitNext c r =>
    obtain rfl := Except.ok.inj hstep
    refine hj.move (fun _ => Iff.rfl) hsig.symm (fun p _ => ⟨Iff.rfl, rfl⟩) fun s' hsame _ => ?_
    intro hr
    rw [hsame.cur]
    exact (hpc hr).imp id hsame.pending
  | waitInsert c r => exact joins_waitInsert hj h hs hstep
  | suspend r =>
    simp only [execute] at hstep
    obtain ⟨⟨⟩, -, hstep⟩ := bind_eq_ok hstep
    obtain rfl := Except.ok.inj hstep
    exact hj.goto (.dispatch r) hsig.symm hpc
  | dispatch r => exact joins_dispatch hj hs hstep
  | spaceSwitch next r =>
    have hgoto := hj.goto (.swtch next r) hsig.symm hpc
    simp only [execute] at hstep
    split at hstep
    · obtain rfl := Except.ok.inj hstep
      exact hgoto.rest _ s.a0 s.pages
    · obtain rfl := Except.ok.inj hstep
      exact hgoto
  | swtch next r =>
    simp only [execute] at hstep
    split at hstep
    · obtain rfl := Except.ok.inj hstep
      exact joins_swtch hj h hs
    · cases hstep
  | resumed prev r =>
    obtain rfl := Except.ok.inj hstep
    exact joins_resumed hj h hs
  | wakeAll c exiting =>
    have hknown : Lists.Known s.table.allocated c := by
      have hok := h.at_pc hs
      cases exiting with
      | false => exact hok.2
      | true => exact hok.2
    obtain ⟨lists, hwake, hok, hout⟩ := h.lists.wakeAll hknown
    simp only [execute, hwake, ok_bind] at hstep
    obtain rfl := Except.ok.inj hstep
    cases exiting with
    | false =>
      obtain ⟨n, rfl⟩ := hpc
      exact (hj.devBroadcast h hok hout).goto .own hsig.symm trivial
    | true =>
      obtain ⟨u, rfl, -⟩ := id hpc
      exact hj.wakeParent h hs hok hout
  | exitBroadcast =>
    have hexit : Exiting s.lists s.cur q transit := h.at_pc hs
    obtain ⟨u, hlt, hu⟩ := h.table.parent s.cur h.cur hexit.main
    simp only [execute, hu] at hstep
    split at hstep
    · next hempty =>
      obtain rfl := Except.ok.inj hstep
      exact hj.exitUnnoticed h hs hu hlt hempty
    · obtain rfl := Except.ok.inj hstep
      exact hj.goto (.wakeAll (.childExit u) true) hsig.symm ⟨u, rfl, hu⟩
  | exitFailed => cases hstep
  | joinLoop tid child =>
    obtain ⟨⟨rfl, hrun⟩, -, hjoin⟩ := h.at_pc hs
    have hcur : s.lists.state s.cur ≠ .exited := by simp [h.running hrun]
    simp only [execute] at hstep
    split at hstep
    · next hst =>
      obtain ⟨table, hrec, hstep⟩ := bind_eq_ok hstep
      obtain rfl := Except.ok.inj hstep
      exact hj.recycle h hsig hjoin hst hcur hrec tid
    · next hst =>
      obtain rfl := Except.ok.inj hstep
      exact hj.goto _ hsig.symm fun _ => ⟨rfl, fun hann => hst hann.1⟩
  | joinAnyScan =>
    obtain ⟨⟨rfl, hrun⟩, -⟩ := h.at_pc hs
    have hcur : s.lists.state s.cur ≠ .exited := by simp [h.running hrun]
    simp only [execute] at hstep
    split at hstep
    · next tid child hc =>
      obtain ⟨hjoin, hst⟩ := exitedChild_some hc
      obtain ⟨table, hrec, hstep⟩ := bind_eq_ok hstep
      obtain rfl := Except.ok.inj hstep
      exact hj.recycle h hsig hjoin hst hcur hrec tid
    · cases hstep
  | forkInsert child parent depth => exact hpc.elim
  | finishFork child depth => exact hpc.elim

/-- Every call from outside `thread.c` but a fork. -/
theorem call_joins (hj : Joins s) (h : Inv mem s q transit) (hs : s.pc = .own) {op : Op}
    (hfork : ∀ f, op ≠ .fork f) (hstep : call a s op = .ok s') : Joins s' := by
  obtain ⟨rfl, hrun⟩ := h.at_pc hs
  have hsig : s.pc.signalling = false := congrArg Pc.signalling hs
  -- nobody has to do with what a call returns or with the pages
  have hother : ∀ (a0 : Int) (pages : μ), Joins { s with a0 := a0, pages := pages } :=
    hj.rest s.satp
  have hloop : ∀ tid, Joins (threadJoin s tid) := by
    intro tid
    unfold threadJoin
    split
    · dsimp only
      split
      · exact hother (-1) s.pages
      · split
        · exact hj.goto _ hsig.symm trivial
        · exact hother (-1) s.pages
    · exact hother (-1) s.pages
  cases op with
  | spawn =>
    have hstep' : threadSpawn a s = .ok s' := hstep
    unfold threadSpawn at hstep'
    split at hstep'
    · cases hstep'
    · next tid hslot =>
      have hempty : tid ≠ 0 ∧ s.table.thrtab tid = none := by simpa using List.find?_some hslot
      obtain ⟨⟨page, pages⟩, -, hstep'⟩ := bind_eq_ok hstep'
      obtain rfl := Except.ok.inj hstep'
      exact hj.spawn h hs hempty.1 hempty.2
  | yield =>
    simp only [call] at hstep
    obtain ⟨⟨⟩, -, hstep⟩ := bind_eq_ok hstep
    obtain rfl := Except.ok.inj hstep
    exact hj.goto _ hsig.symm (joinRet_of_not_joins rfl)
  | wait n =>
    obtain rfl := Except.ok.inj hstep
    exact hj.goto _ hsig.symm fun h => by cases h
  | broadcast n =>
    simp only [call] at hstep
    split at hstep
    · obtain rfl := Except.ok.inj hstep
      exact hj
    · obtain rfl := Except.ok.inj hstep
      exact hj.goto _ hsig.symm ⟨n, rfl⟩
  | exit =>
    simp only [call] at hstep
    split at hstep
    · cases hstep
    · obtain rfl := Except.ok.inj hstep
      -- the state is set, but the exit has not been signalled
      have hst := h.running hrun
      have hann : ∀ c, Announced
          { s with lists := s.lists.setState s.cur .exited, pc := .exitBroadcast } c ↔
          Announced s c := by
        intro c
        unfold Announced
        by_cases hc : c = s.cur
        · subst hc
          simp [hst, Pc.signalling]
        · simp [hc, Lists.setState_of_ne _ hc]
      refine hj.keep ⟨rfl, rfl, rfl, rfl, hann⟩ rfl (fun p hp _ _ _ => ?_) trivial
      rw [Lists.setState_of_ne _ hp]
      exact ⟨Iff.rfl, rfl⟩
  | join tid =>
    obtain rfl := Except.ok.inj hstep
    exact hloop tid
  | joinAny =>
    have hstep' : threadJoinAny s = .ok s' := hstep
    unfold threadJoinAny at hstep'
    split at hstep'
    · obtain rfl := Except.ok.inj hstep'
      exact hloop _
    · next hnone =>
      split at hstep'
      · cases hstep'
      · obtain rfl := Except.ok.inj hstep'
        exact hj.goto _ hsig.symm fun _ =>
          ⟨rfl, fun c hc hann => exitedChild_eq_none hnone hc hann.1⟩
  | fork f => exact absurd rfl (hfork f)
  | allocPage =>
    simp only [call] at hstep
    split at hstep
    · cases hstep
    · obtain rfl := Except.ok.inj hstep
      exact hother _ _
  | freePage page =>
    obtain rfl := Except.ok.inj hstep
    exact hother s.a0 _

/-- One event keeps the invariant. -/
theorem step_joins (hj : Joins s) (h : Inv mem s q transit) {e : Event} (hspare : Spares a s e)
    (hfork : ∀ f, e ≠ .call (.fork f)) (hstep : step a s e = some (.ok s')) : Joins s' := by
  rw [step_eq_advance hspare] at hstep
  cases e with
  | isr n =>
    obtain ⟨lists, hbc, hok, hout⟩ := h.lists.conditionBroadcast (c := .dev n) trivial
    simp only [advance, hbc, ok_bind] at hstep
    obtain rfl := Except.ok.inj (Option.some.inj hstep)
    exact hj.devBroadcast h hok hout
  | step =>
    simp only [advance] at hstep
    split at hstep
    · cases hstep
    · exact execute_joins hj h rfl (Option.some.inj hstep)
  | call op =>
    simp only [advance] at hstep
    split at hstep
    · next hs =>
      split at hstep
      · refine call_joins hj h hs (fun f hf => ?_) (Option.some.inj hstep)
        exact hfork f (by rw [hf])
      · cases hstep
    · cases hstep
  | write x v =>
    obtain rfl := Except.ok.inj (Option.some.inj hstep)
    exact hj.rest s.satp s.a0 _

end Thread

end RiscvKernel
