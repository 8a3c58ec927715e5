import RiscvKernel.Lib.Chain
import RiscvKernel.Lib.Runs

/-!
# Alarms and the sleep list

`alarm_init`, `alarm_reset`, `alarm_sleep` and `timer_intr_handler` of `timer.c`, over
alarms that are linked through their `next` pointers.

* `alarm_sleep` computes the wake-up time with interrupts enabled, so that a timer interrupt
  may come before it inserts the alarm: these are two events, `sleep` and `insert`.
* The log records which alarms were put to sleep and which were woken. `asleep` reads from it
  whose sleep has started and who has not been woken.
* `sleep_list_ok`: in every state of every run, the list that starts at `sleep_list` is sorted
  by wake-up time and consists of exactly the alarms that are asleep, and a timer interrupt
  wakes exactly those of them that are due.
-/

namespace RiscvKernel.Timer

open Lib

/-- `UINT64_MAX` -/
def UINT64_MAX : Nat := 2 ^ 64 - 1

/-- `TIMER_FREQ` -/
def TIMER_FREQ : Nat := 10000000

/-- `TICK_FREQ` -/
def TICK_FREQ : Nat := 50

/-- `TICK_PERIOD` -/
def TICK_PERIOD : Nat := TIMER_FREQ / TICK_FREQ

/-- What the log records: `condition_wait` and `condition_broadcast` on the condition of an
alarm, and that a timer interrupt was handled. -/
inductive Note (α : Type) where
  | slept (a : α)
  | woken (a : α)
  | intr
  deriving DecidableEq

/-- The alarms, one column for each member, the variables of `timer.c`, and the registers
`mtime` and `mtcmp`. `entering` is the alarm of a thread that is in `alarm_sleep` and has not
disabled interrupts yet. -/
structure State (α : Type) where
  twake : α → Nat
  next : α → Option α
  sleepList : Option α
  nextTick : Nat
  mtcmp : Nat
  mtime : Nat
  entering : Option α
  log : List (Note α)

variable {α : Type} [DecidableEq α]

/-- The sleep of `a` has started, and `a` has not been woken since. -/
def asleep (a : α) : List (Note α) → Bool
  | [] => false
  | .slept b :: log => b = a || asleep a log
  | .woken b :: log => b ≠ a && asleep a log
  | .intr :: log => asleep a log

/-! ## The functions -/

/-- `timer_init`, with what the memory of the alarms holds. -/
def timerInit (twake : α → Nat) (next : α → Option α) : State α where
  twake := twake
  next := next
  sleepList := none
  nextTick := 0
  mtcmp := TICK_PERIOD
  mtime := 0
  entering := none
  log := []

/-- `alarm_init` -/
def alarmInit (s : State α) (al : α) : State α :=
  { s with
    twake := Function.update s.twake al s.mtime
    next := Function.update s.next al none }

/-- `alarm_reset` -/
def alarmReset (s : State α) (al : α) : State α :=
  { s with twake := Function.update s.twake al s.mtime }

/-- The next wake-up time of an alarm; one that would wrap around is `UINT64_MAX`. -/
def wakeTime (twake tcnt : Nat) : Nat :=
  if UINT64_MAX - twake < tcnt then UINT64_MAX else twake + tcnt

/-- `alarm_sleep` until it disables interrupts. -/
def alarmSleep (s : State α) (al : α) (tcnt : Nat) : State α :=
  let twake := wakeTime (s.twake al) tcnt
  let s := { s with twake := Function.update s.twake al twake }
  if twake < s.mtime then s else { s with entering := some al }

/-- The loop of `alarm_sleep` from `prev` on, and the test for the end of the list behind it.
`none` is a loop that does not end. -/
def insertAfter (twake : α → Nat) (al : α) : Nat → α → (α → Option α) → Option (α → Option α)
  | 0, _, _ => none
  | fuel + 1, prev, next =>
    match next prev with
    | some q =>
      if twake al ≤ twake q then
        let next := Function.update (Function.update next al (some q)) prev (some al)
        -- the test behind the loop, after the link of `prev` has changed
        if next prev = none then some (Function.update (Function.update next al none) prev (some al))
        else some next
      else insertAfter twake al fuel q next
    | none => some (Function.update (Function.update next al none) prev (some al))

/-- `alarm_sleep` with interrupts disabled, until `condition_wait`. A walk over more alarms
than were ever put to sleep would never end. -/
def sleepInsert (s : State α) (al : α) : Option (State α) :=
  match s.sleepList with
  | none => some (atHead s)
  | some head =>
    if s.twake al ≤ s.twake head then some (atHead s)
    else (insertAfter s.twake al s.log.length head s.next).map fun next => { s with next := next }
where
  atHead (s : State α) : State α :=
    let s := { s with next := Function.update s.next al s.sleepList, sleepList := some al }
    if s.twake al < s.nextTick then { s with mtcmp := s.twake al } else s

/-- The loop of `timer_intr_handler`: what `head` is behind it, the links, and the log. -/
def wakeDue (twake : α → Nat) (now : Nat) :
    Nat → Option α → (α → Option α) → List (Note α) →
      Option (Option α × (α → Option α) × List (Note α))
  | _, none, next, log => some (none, next, log)
  | 0, some _, _, _ => none
  | fuel + 1, some head, next, log =>
    if twake head ≤ now then
      wakeDue twake now fuel (next head) (Function.update next head none) (.woken head :: log)
    else some (some head, next, log)

/-- `timer_intr_handler` -/
def timerIntrHandler (s : State α) : Option (State α) :=
  match wakeDue s.twake s.mtime s.log.length s.sleepList s.next s.log with
  | none => none
  | some (head, next, log) =>
    let nextTick :=
      if s.nextTick < s.mtime then (s.nextTick + TICK_PERIOD) % 2 ^ 64 else s.nextTick
    let mtcmp := match head with
      | some a => if s.twake a < nextTick then s.twake a else nextTick
      | none => nextTick
    some { s with
      next := next
      log := .intr :: log
      nextTick := nextTick
      sleepList := head
      mtcmp := mtcmp }

/-! ## Runs -/

/-- The clock goes on, a thread calls a function, the thread that is in `alarm_sleep` inserts
its alarm and waits, or a timer interrupt is handled. -/
inductive Event (α : Type) where
  | clock (t : Nat)
  | init (al : α)
  | reset (al : α)
  | sleep (al : α) (tcnt : Nat)
  | insert
  | intr

/-- The functions are called for alarms that are not asleep, and not while a thread is in
`alarm_sleep`. -/
def MayCall (s : State α) (al : α) : Prop := s.entering = none ∧ asleep al s.log = false

instance (s : State α) (al : α) : Decidable (MayCall s al) := instDecidableAnd

def step (s : State α) : Event α → Option (State α)
  | .clock t => if s.mtime ≤ t then some { s with mtime := t } else none
  | .init al => if MayCall s al then some (alarmInit s al) else none
  | .reset al => if MayCall s al then some (alarmReset s al) else none
  | .sleep al tcnt => if MayCall s al then some (alarmSleep s al tcnt) else none
  | .insert =>
    match s.entering with
    | none => none
    | some al =>
      (sleepInsert s al).map fun s => { s with entering := none, log := .slept al :: s.log }
  | .intr => timerIntrHandler s

/-! ## The list operations -/

/-- `a` need not be behind `b` on the sleep list. -/
def Before (twake : α → Nat) (a b : α) : Prop := twake a ≤ twake b

instance (twake : α → Nat) : DecidableRel (Before twake) := fun a b => Nat.decLe (twake a) (twake b)

instance (twake : α → Nat) : Std.Total (Before twake) := ⟨fun a b => Nat.le_total (twake a) (twake b)⟩

instance (twake : α → Nat) : IsTrans α (Before twake) := ⟨fun _ _ _ => Nat.le_trans⟩

/-- The alarm goes in front of the first one that is not due earlier. Induction along the list:
every round of the loop moves `prev` on by one. -/
theorem insertAfter_linked {twake : α → Nat} {al prev : α} {next : α → Option α} {l : List α}
    {fuel : Nat} (hlinks : Chain.Linked next (prev :: l)) (hal : al ∉ prev :: l)
    (hnodup : (prev :: l).Nodup) (hfuel : l.length < fuel) :
    ∃ next', insertAfter twake al fuel prev next = some next' ∧
      Chain.Linked next' (prev :: l.orderedInsert (Before twake) al) ∧
      ∀ x, x ∉ al :: prev :: l → next' x = next x := by
  induction l generalizing prev fuel with
  | nil =>
    obtain ⟨fuel, rfl⟩ : ∃ n, fuel = n + 1 := ⟨fuel - 1, by simp at hfuel; omega⟩
    have hend : next prev = none := hlinks.1
    have hne : al ≠ prev := List.ne_of_not_mem_cons hal
    refine ⟨Function.update (Function.update next al none) prev (some al), ?_, ?_, fun x hx => ?_⟩
    · simp only [insertAfter, hend]
    · exact hlinks.2.insertAfter List.not_mem_nil List.not_mem_nil hne
    · simp only [List.mem_cons, not_or] at hx
      rw [Function.update_of_ne hx.2.1, Function.update_of_ne hx.1]
  | cons q l ih =>
    obtain ⟨fuel, rfl⟩ : ∃ n, fuel = n + 1 := ⟨fuel - 1, by simp at hfuel; omega⟩
    have hq : next prev = some q := hlinks.1
    obtain ⟨hprev, hrest⟩ := List.nodup_cons.mp hnodup
    have hal' : al ∉ q :: l := fun hmem => hal (List.mem_cons_of_mem prev hmem)
    simp only [insertAfter, hq]
    by_cases hle : twake al ≤ twake q
    · have hne : al ≠ prev := List.ne_of_not_mem_cons hal
      rw [if_pos hle, Function.update_self, if_neg (by simp),
        List.orderedInsert_cons_of_le _ l hle]
      refine ⟨_, rfl, hlinks.2.insertAfter hprev hal' hne, fun x hx => ?_⟩
      simp only [List.mem_cons, not_or] at hx
      rw [Function.update_of_ne hx.2.1, Function.update_of_ne hx.1]
    · rw [if_neg hle, List.orderedInsert_of_not_le _ l hle]
      obtain ⟨next', heq, hlinked, hframe⟩ := ih hlinks.2 hal' hrest (by simpa using hfuel)
      refine ⟨next', heq, ⟨?_, hlinked⟩, fun x hx => ?_⟩
      · -- the loop does not come back to `prev`
        have hmem : prev ∉ al :: q :: l := by
          simp only [List.mem_cons, not_or] at hal hprev ⊢
          exact ⟨fun he => hal.1 he.symm, hprev⟩
        rw [hframe prev hmem]
        exact hq
      · apply hframe
        simp only [List.mem_cons, not_or] at hx ⊢
        exact ⟨hx.1, hx.2.2⟩

/-- The loop of the handler wakes the alarms that are due, in the order of the list. Induction
along the list: what is not due ends the loop, and nothing behind it is due. -/
theorem wakeDue_eq {twake : α → Nat} {fuel : Nat} {next : α → Option α} {l : List α}
    (hlinks : Chain.Linked next l) (hnodup : l.Nodup) (hsorted : l.Pairwise (Before twake))
    (hfuel : l.length ≤ fuel) (now : Nat) (log : List (Note α)) :
    ∃ next', wakeDue twake now fuel l.head? next log =
        some ((l.filter fun a => now < twake a).head?, next',
          ((l.filter fun a => twake a ≤ now).map Note.woken).reverse ++ log) ∧
      Chain.Linked next' (l.filter fun a => now < twake a) := by
  induction l generalizing next log fuel with
  | nil =>
    refine ⟨next, ?_, trivial⟩
    simp [wakeDue]
  | cons a l ih =>
    obtain ⟨fuel, rfl⟩ : ∃ n, fuel = n + 1 := ⟨fuel - 1, by simp at hfuel; omega⟩
    obtain ⟨hnot, hl⟩ := List.nodup_cons.mp hnodup
    obtain ⟨hfirst, hsorted⟩ := List.pairwise_cons.mp hsorted
    simp only [List.head?_cons, wakeDue]
    by_cases hdue : twake a ≤ now
    · have hlinks' : Chain.Linked (Function.update next a none) l := by
        refine hlinks.2.congr fun x hx => Function.update_of_ne ?_ ..
        rintro rfl
        exact hnot hx
      obtain ⟨next', heq, hlinked⟩ := ih hlinks' hl hsorted (by simpa using hfuel)
        (.woken a :: log)
      rw [if_pos hdue, hlinks.1, heq, List.filter_cons_of_neg (by simpa using hdue),
        List.filter_cons_of_pos (by simpa using hdue)]
      refine ⟨next', ?_, hlinked⟩
      simp
    · -- the list is sorted, so nothing else is due either
      have hlate : ∀ x ∈ a :: l, now < twake x := by
        intro x hx
        rcases List.mem_cons.mp hx with rfl | hx
        · omega
        · have : twake a ≤ twake x := hfirst x hx
          omega
      have hall : (a :: l).filter (fun x => now < twake x) = a :: l :=
        List.filter_eq_self.mpr fun x hx => by simpa using hlate x hx
      have hnone : (a :: l).filter (fun x => twake x ≤ now) = [] :=
        List.filter_eq_nil_iff.mpr fun x hx => by simpa using hlate x hx
      rw [if_neg hdue, hall, hnone]
      exact ⟨next, rfl, hlinks⟩

/-! ## The invariant -/

theorem asleep_slept (a b : α) (log : List (Note α)) :
    asleep a (.slept b :: log) = true ↔ a = b ∨ asleep a log = true := by
  show (decide (b = a) || asleep a log) = true ↔ _
  rw [Bool.or_eq_true, decide_eq_true_eq, eq_comm]

/-- Who is asleep after the handler has woken `ws`. -/
theorem asleep_woken (a : α) (ws : List α) (log : List (Note α)) :
    asleep a ((ws.map Note.woken).reverse ++ log) = true ↔ a ∉ ws ∧ asleep a log = true := by
  induction ws generalizing log with
  | nil => simp
  | cons w ws ih =>
    rw [List.map_cons, List.reverse_cons, List.append_assoc, List.singleton_append, ih]
    show _ ∧ (decide (w ≠ a) && asleep a log) = true ↔ _
    rw [Bool.and_eq_true, decide_eq_true_eq, List.mem_cons, not_or, ne_comm]
    tauto

/-- The sleep list is `l`: linked from `sleep_list` on, without repetition, in the order of the
wake-up times, and made of exactly the alarms that are asleep. -/
structure SleepList (s : State α) (l : List α) : Prop where
  head : s.sleepList = l.head?
  links : Chain.Linked s.next l
  nodup : l.Nodup
  sorted : l.Pairwise (Before s.twake)
  exact : ∀ a, a ∈ l ↔ asleep a s.log = true

/-- Besides, the log is at least as long as the list, and an alarm that is about to be inserted
is not on the list. -/
structure Inv (s : State α) (l : List α) : Prop extends SleepList s l where
  length : l.length ≤ s.log.length
  entering : ∀ a, s.entering = some a → a ∉ l

variable {s s' : State α} {l : List α} {al : α}

theorem timerInit_inv (twake : α → Nat) (next : α → Option α) : Inv (timerInit twake next) [] where
  head := rfl
  links := trivial
  nodup := List.nodup_nil
  sorted := List.Pairwise.nil
  exact a := by simp [timerInit, asleep]
  length := Nat.le_refl 0
  entering _ h := by cases h

/-- An alarm that is not on the list may be written to. -/
theorem Inv.write (h : Inv s l) (hnot : al ∉ l) (t : Nat) (r : Option α) :
    Inv { s with twake := Function.update s.twake al t, next := Function.update s.next al r } l := by
  have hne : ∀ x ∈ l, x ≠ al := by
    rintro x hx rfl
    exact hnot hx
  refine { h with links := ?_, sorted := ?_ }
  · exact h.links.congr fun x hx => Function.update_of_ne (hne x hx) ..
  · refine h.sorted.imp_of_mem fun {a b} ha hb hab => ?_
    show Function.update s.twake al t a ≤ Function.update s.twake al t b
    rw [Function.update_of_ne (hne a ha), Function.update_of_ne (hne b hb)]
    exact hab

theorem Inv.notMem (h : Inv s l) (hcall : MayCall s al) : al ∉ l := by
  intro hmem
  have hawake := hcall.2
  rw [(h.exact al).mp hmem] at hawake
  cases hawake

/-- The list and the registers stay as they are. -/
structure Kept (s s' : State α) (l : List α) : Prop where
  inv : Inv s' l
  twake : ∀ a ∈ l, s'.twake a = s.twake a
  log : s'.log = s.log
  nextTick : s'.nextTick = s.nextTick
  mtcmp : s'.mtcmp = s.mtcmp

/-- Calls for alarms that are not asleep do not touch the list. -/
theorem Inv.call (h : Inv s l) (hcall : MayCall s al) (tcnt : Nat) :
    Kept s (alarmInit s al) l ∧ Kept s (alarmReset s al) l ∧ Kept s (alarmSleep s al tcnt) l := by
  have hnot := h.notMem hcall
  have htwake : ∀ t, ∀ a ∈ l, Function.update s.twake al t a = s.twake a := by
    intro t a ha
    refine Function.update_of_ne ?_ ..
    rintro rfl
    exact hnot ha
  have hwrite : ∀ t, Inv { s with twake := Function.update s.twake al t } l := by
    intro t
    have := h.write hnot t (s.next al)
    rwa [Function.update_eq_self] at this
  refine ⟨⟨h.write hnot s.mtime none, htwake _, rfl, rfl, rfl⟩,
    ⟨hwrite s.mtime, htwake _, rfl, rfl, rfl⟩, ?_⟩
  unfold alarmSleep
  dsimp only
  split
  · exact ⟨hwrite _, htwake _, rfl, rfl, rfl⟩
  · refine ⟨{ hwrite _ with entering := ?_ }, htwake _, rfl, rfl, rfl⟩
    rintro a ha
    obtain rfl := Option.some.inj ha
    exact hnot

/-- What becomes of `mtcmp` when `al` is inserted into `l`: it is set to the wake-up time of an
alarm that comes first and is due before the next tick. -/
def CompareSet (s : State α) (l : List α) (al : α) (mtcmp : Nat) : Prop :=
  (mtcmp = s.twake al ∧ s.twake al < s.nextTick ∧ ∀ b ∈ l, s.twake al ≤ s.twake b) ∨
    (mtcmp = s.mtcmp ∧ (s.nextTick ≤ s.twake al ∨ ∃ b ∈ l, s.twake b ≤ s.twake al))

/-- The insertion at the head. -/
theorem Inv.atHead (h : Inv s l) (hnot : al ∉ l) (hfirst : ∀ b ∈ l, s.twake al ≤ s.twake b) :
    ∃ next mtcmp, sleepInsert.atHead al s =
        { s with next := next, sleepList := some al, mtcmp := mtcmp } ∧
      Chain.Linked next (al :: l) ∧ CompareSet s l al mtcmp := by
  have hlinks : Chain.Linked (Function.update s.next al s.sleepList) (al :: l) := by
    refine ⟨?_, h.links.congr fun x hx => Function.update_of_ne ?_ ..⟩
    · rw [Function.update_self, h.head]
    · rintro rfl
      exact hnot hx
  unfold sleepInsert.atHead
  dsimp only
  split
  · next hsoon => exact ⟨_, s.twake al, rfl, hlinks, Or.inl ⟨rfl, hsoon, hfirst⟩⟩
  · next hlate => exact ⟨_, s.mtcmp, rfl, hlinks, Or.inr ⟨rfl, Or.inl (Nat.le_of_not_lt hlate)⟩⟩

/-- The insertion puts the alarm in its place. -/
theorem Inv.sleepInsert (h : Inv s l) (hnot : al ∉ l) :
    ∃ next mtcmp, sleepInsert s al =
        some { s with
          next := next
          sleepList := (l.orderedInsert (Before s.twake) al).head?
          mtcmp := mtcmp } ∧
      Chain.Linked next (l.orderedInsert (Before s.twake) al) ∧ CompareSet s l al mtcmp := by
  have hlist := h.head
  cases l with
  | nil =>
    obtain ⟨next, mtcmp, heq, hlinks, hset⟩ := h.atHead hnot nofun
    refine ⟨next, mtcmp, ?_, hlinks, hset⟩
    simp only [Timer.sleepInsert, hlist, List.head?_nil, heq]
    rfl
  | cons b l =>
    by_cases hle : s.twake al ≤ s.twake b
    · have hfirst : ∀ c ∈ b :: l, s.twake al ≤ s.twake c := by
        intro c hc
        rcases List.mem_cons.mp hc with rfl | hc
        · exact hle
        · exact Nat.le_trans hle ((List.pairwise_cons.mp h.sorted).1 c hc)
      obtain ⟨next, mtcmp, heq, hlinks, hset⟩ := h.atHead hnot hfirst
      rw [List.orderedInsert_cons_of_le _ l hle]
      refine ⟨next, mtcmp, ?_, hlinks, hset⟩
      simp only [Timer.sleepInsert, hlist, List.head?_cons, if_pos hle, heq]
    · obtain ⟨next, heq, hlinks, -⟩ :=
        insertAfter_linked h.links hnot h.nodup (Nat.lt_of_succ_le h.length)
      rw [List.orderedInsert_of_not_le _ l hle]
      refine ⟨next, s.mtcmp, ?_, hlinks, Or.inr ⟨rfl, Or.inr ⟨b, List.mem_cons_self, ?_⟩⟩⟩
      · simp only [Timer.sleepInsert, hlist, List.head?_cons, if_neg hle, heq]
        rfl
      · exact Nat.le_of_not_le hle

/-- The step that inserts an alarm. -/
theorem Inv.insert (h : Inv s l) (hal : s.entering = some al)
    (hstep : step s .insert = some s') :
    Inv s' (l.orderedInsert (Before s.twake) al) ∧ s'.twake = s.twake ∧ s'.nextTick = s.nextTick ∧
      s'.log = .slept al :: s.log ∧ CompareSet s l al s'.mtcmp := by
  have hnot := h.entering al hal
  obtain ⟨next, mtcmp, heq, hlinks, hset⟩ := h.sleepInsert hnot
  simp only [step, hal, heq, Option.map_some, Option.some.injEq] at hstep
  subst hstep
  refine ⟨⟨⟨rfl, hlinks, ?_, h.sorted.orderedInsert al l, fun a => ?_⟩, ?_, nofun⟩, rfl, rfl, rfl,
    hset⟩
  · exact (List.perm_orderedInsert _ al l).nodup_iff.mpr (List.nodup_cons.mpr ⟨hnot, h.nodup⟩)
  · rw [asleep_slept, List.mem_orderedInsert, h.exact]
  · rw [List.orderedInsert_length]
    exact Nat.succ_le_succ h.length

/-- The handler wakes the alarms that are due, and leaves the others. -/
theorem Inv.intr (h : Inv s l) :
    ∃ s', timerIntrHandler s = some s' ∧ Inv s' (l.filter fun a => s.mtime < s.twake a) ∧
      s'.twake = s.twake ∧
      s'.log = .intr :: (((l.filter fun a => s.twake a ≤ s.mtime).map Note.woken).reverse ++ s.log) ∧
      s'.mtcmp ≤ s'.nextTick ∧
      ∀ a ∈ l.filter (fun a => s.mtime < s.twake a), s'.mtcmp ≤ s.twake a := by
  obtain ⟨next, heq, hlinks⟩ := wakeDue_eq h.links h.nodup h.sorted h.length s.mtime s.log
  have hsorted := h.sorted.filter fun a => decide (s.mtime < s.twake a)
  have hexact : ∀ a, a ∈ l.filter (fun a => s.mtime < s.twake a) ↔
      asleep a (((l.filter fun a => s.twake a ≤ s.mtime).map Note.woken).reverse ++ s.log) := by
    intro a
    rw [asleep_woken, ← h.exact]
    simp only [List.mem_filter, decide_eq_true_eq, not_and, Nat.not_le]
    tauto
  have hlength : (l.filter fun a => s.mtime < s.twake a).length ≤
      (Note.intr :: (((l.filter fun a => s.twake a ≤ s.mtime).map Note.woken).reverse ++
        s.log)).length := by
    have hle := List.length_filter_le (fun a => decide (s.mtime < s.twake a)) l
    have := h.length
    simp only [List.length_cons, List.length_append]
    omega
  unfold timerIntrHandler
  rw [h.head, heq]
  refine ⟨_, rfl, ⟨⟨rfl, hlinks, h.nodup.filter _, hsorted, hexact⟩, hlength, ?_⟩, rfl, rfl, ?_⟩
  · exact fun a ha hmem => h.entering a ha (List.mem_of_mem_filter hmem)
  · -- `mtcmp` is the next tick, or the wake-up time of the first alarm that is left
    dsimp only
    generalize (if s.nextTick < s.mtime then (s.nextTick + TICK_PERIOD) % 2 ^ 64
      else s.nextTick) = nextTick
    cases hleft : l.filter fun a => s.mtime < s.twake a with
    | nil => exact ⟨Nat.le_refl _, nofun⟩
    | cons b rest =>
      rw [hleft] at hsorted
      have hfirst : ∀ a ∈ b :: rest, s.twake b ≤ s.twake a := by
        intro a ha
        rcases List.mem_cons.mp ha with rfl | ha
        · exact Nat.le_refl _
        · exact (List.pairwise_cons.mp hsorted).1 a ha
      dsimp only [List.head?_cons]
      split
      · next hsoon => exact ⟨Nat.le_of_lt hsoon, hfirst⟩
      · next hlate =>
        exact ⟨Nat.le_refl _, fun a ha => Nat.le_trans (Nat.le_of_not_lt hlate) (hfirst a ha)⟩

/-! ## Every run -/

/-- A step leaves the list alone, inserts an alarm, or is an interrupt. -/
theorem step_cases {e : Event α} (h : Inv s l) (hstep : step s e = some s') :
    Kept s s' l ∨ (e = .insert ∧ ∃ al, s.entering = some al) ∨ e = .intr := by
  cases e with
  | clock t =>
    obtain ⟨-, heq⟩ := Option.ite_none_right_eq_some.mp hstep
    obtain rfl := Option.some.inj heq
    have hinv : Inv { s with mtime := t } l :=
      ⟨⟨h.head, h.links, h.nodup, h.sorted, h.exact⟩, h.length, h.entering⟩
    exact Or.inl ⟨hinv, fun _ _ => rfl, rfl, rfl, rfl⟩
  | init al =>
    obtain ⟨hcall, heq⟩ := Option.ite_none_right_eq_some.mp hstep
    obtain rfl := Option.some.inj heq
    exact Or.inl (h.call hcall 0).1
  | reset al =>
    obtain ⟨hcall, heq⟩ := Option.ite_none_right_eq_some.mp hstep
    obtain rfl := Option.some.inj heq
    exact Or.inl (h.call hcall 0).2.1
  | sleep al tcnt =>
    obtain ⟨hcall, heq⟩ := Option.ite_none_right_eq_some.mp hstep
    obtain rfl := Option.some.inj heq
    exact Or.inl (h.call hcall tcnt).2.2
  | insert =>
    cases hal : s.entering with
    | none =>
      simp only [step, hal] at hstep
      cases hstep
    | some al => exact Or.inr (Or.inl ⟨rfl, al, rfl⟩)
  | intr => exact Or.inr (Or.inr rfl)

theorem step_inv {e : Event α} (h : Inv s l) (hstep : step s e = some s') : ∃ l', Inv s' l' := by
  rcases step_cases h hstep with hkept | ⟨rfl, al, hal⟩ | rfl
  · exact ⟨l, hkept.inv⟩
  · exact ⟨_, (h.insert hal hstep).1⟩
  · obtain ⟨s₁, heq, hinv, -⟩ := h.intr
    obtain rfl := Option.some.inj (heq.symm.trans hstep)
    exact ⟨_, hinv⟩

/-- **The sleep list is sorted and loses no sleeper.** In every state of every run it is a sorted
list of exactly the alarms that are asleep; an alarm that is about to be inserted is inserted;
and a timer interrupt wakes exactly the alarms that are due and leaves exactly the others. -/
theorem sleep_list_ok {twake : α → Nat} {next : α → Option α} {es : List (Event α)} {s : State α}
    (hrun : runs step (timerInit twake next) es = some s) :
    ∃ l, SleepList s l ∧ (∀ al, s.entering = some al → ∃ s', step s .insert = some s') ∧
      ∃ s', timerIntrHandler s = some s' ∧ SleepList s' (l.filter fun a => s.mtime < s.twake a) ∧
        s'.log =
          .intr :: (((l.filter fun a => s.twake a ≤ s.mtime).map Note.woken).reverse ++ s.log) := by
  obtain ⟨l, h⟩ := runs_invariant (I := fun s => ∃ l, Inv s l)
    (fun s e s' ⟨l, h⟩ hstep => step_inv h hstep) ⟨[], timerInit_inv twake next⟩ hrun
  refine ⟨l, h.toSleepList, fun al hal => ?_, ?_⟩
  · obtain ⟨next, mtcmp, heq, -⟩ := h.sleepInsert (h.entering al hal)
    simp only [step, hal, heq, Option.map_some]
    exact ⟨_, rfl⟩
  · obtain ⟨s', heq, hinv, -, hlog, -⟩ := h.intr
    exact ⟨s', heq, hinv.toSleepList, hlog⟩

/-- Two alarms, the earlier one inserted second, and an interrupt when only that one is due. -/
theorem sleep_list_two_alarms :
    ∃ s, runs step (timerInit (fun _ : Bool => 0) fun _ => none)
        [.sleep true 500, .insert, .sleep false 300, .insert, .clock 400] = some s ∧
      ∃ l, SleepList s l ∧ (∀ al, s.entering = some al → ∃ s', step s .insert = some s') ∧
        ∃ s', timerIntrHandler s = some s' ∧ SleepList s' (l.filter fun a => s.mtime < s.twake a) ∧
          s'.log =
            .intr :: (((l.filter fun a => s.twake a ≤ s.mtime).map Note.woken).reverse ++ s.log) := by
  obtain ⟨s, hs⟩ : ∃ s, runs step (timerInit (fun _ : Bool => 0) fun _ => none)
      [.sleep true 500, .insert, .sleep false 300, .insert, .clock 400] = some s := ⟨_, rfl⟩
  exact ⟨s, hs, sleep_list_ok hs⟩

end RiscvKernel.Timer
