import RiscvKernel.Lib.CInt
import RiscvKernel.Timer.SleepList

/-!
# `sysusleep`

`sysusleep` initialises an alarm of its own and sleeps for `us * 10` ticks of the clock. The sum in
`alarm_sleep` saturates; the product in `alarm_sleep_us` wraps around.

* `SleepEnds al us s t`: a call in the state `s` can end at time `t`, in some run of the thread, of
  the other threads and of the timer.
* `SleepEnds.wake_le` and `sleepEnds_wake`: the earliest such time is the wake-up time that
  `alarm_sleep` computes.
* `usleep_not_early_iff`: when that is not before the time that was asked for, and when it is not
  before that of a shorter sleep.
-/

namespace RiscvKernel.Timer

open Lib

variable {α : Type} [DecidableEq α]

/-- What `alarm_sleep_us` passes to `alarm_sleep`, with the product of an `unsigned long`. -/
def usTicks (us : Nat) : Nat := u64 ((us : Int) * (TIMER_FREQ / 1000 / 1000 : Nat))

/-- The event is a call for `al`. -/
def Event.On (al : α) : Event α → Prop
  | .init a | .reset a | .sleep a _ => a = al
  | .clock _ | .insert | .intr => False

/-- A call of `sysusleep(us)` in the state `s`, with `al` as its alarm, can end at time `t`:
`alarm_sleep` returns at once, because the wake-up time has passed, or a timer interrupt makes the
thread ready. Other threads do not know the alarm; their events, the clock and interrupts may come
anywhere. -/
inductive SleepEnds (al : α) (us : Nat) (s : State α) : Nat → Prop
  | returns {es : List (Event α)} {s₁ s₂ : State α} (hes : ∀ e ∈ es, ¬e.On al)
      (hinit : runs step s (.init al :: es) = some s₁)
      (hsleep : step s₁ (.sleep al (usTicks us)) = some s₂) (hreturn : s₂.entering = none) :
      SleepEnds al us s s₁.mtime
  | woken {es es' : List (Event α)} {s₁ s₂ s₃ : State α} (hes : ∀ e ∈ es, ¬e.On al)
      (hinit : runs step s (.init al :: es) = some s₁) (hes' : ∀ e ∈ es', ¬e.On al)
      (hsleep : runs step s₁ (.sleep al (usTicks us) :: es') = some s₂)
      (hintr : step s₂ .intr = some s₃) (hasleep : asleep al s₂.log = true)
      (hready : asleep al s₃.log = false) : SleepEnds al us s s₂.mtime

variable {s s' : State α} {l : List α} {al : α} {us t : Nat}

/-! ## No earlier than the wake-up time -/

/-- The wake-up time is changed by calls for the alarm only. -/
theorem twake_of_not_on {e : Event α} (h : Inv s l) (he : ¬e.On al)
    (hstep : step s e = some s') : s'.twake al = s.twake al := by
  have hne : ∀ {b : α}, ¬b = al → al ≠ b := fun hb hal => hb hal.symm
  cases e with
  | clock t =>
    obtain ⟨-, heq⟩ := Option.ite_none_right_eq_some.mp hstep
    obtain rfl := Option.some.inj heq
    rfl
  | init b =>
    obtain ⟨-, heq⟩ := Option.ite_none_right_eq_some.mp hstep
    obtain rfl := Option.some.inj heq
    exact Function.update_of_ne (hne he) ..
  | reset b =>
    obtain ⟨-, heq⟩ := Option.ite_none_right_eq_some.mp hstep
    obtain rfl := Option.some.inj heq
    exact Function.update_of_ne (hne he) ..
  | sleep b tcnt =>
    obtain ⟨-, heq⟩ := Option.ite_none_right_eq_some.mp hstep
    obtain rfl := Option.some.inj heq
    have hupdate : ∀ w, Function.update s.twake b w al = s.twake al :=
      fun w => Function.update_of_ne (hne he) ..
    unfold alarmSleep
    dsimp only
    split
    · exact hupdate _
    · exact hupdate _
  | insert =>
    cases hal : s.entering with
    | none =>
      simp only [step, hal] at hstep
      cases hstep
    | some b => rw [(h.insert hal hstep).2.1]
  | intr =>
    obtain ⟨s₁, heq, -, htwake, -⟩ := h.intr
    obtain rfl := Option.some.inj (heq.symm.trans hstep)
    rw [htwake]

/-- Between the calls of the thread its wake-up time stays. -/
theorem twake_of_runs {es : List (Event α)} (h : Inv s l) (hes : ∀ e ∈ es, ¬e.On al)
    (hrun : runs step s es = some s') : (∃ l', Inv s' l') ∧ s'.twake al = s.twake al := by
  refine runs_invariant_of (I := fun s' => (∃ l', Inv s' l') ∧ s'.twake al = s.twake al)
    (fun s₁ e s₂ hI he hstep => ?_) hes ⟨⟨l, h⟩, rfl⟩ hrun
  obtain ⟨⟨l₁, h₁⟩, htwake⟩ := hI
  exact ⟨step_inv h₁ hstep, (twake_of_not_on h₁ he hstep).trans htwake⟩

/-- The state after `alarm_init`, whatever others do behind it. -/
theorem twake_of_init {es : List (Event α)} (h : Inv s l) (hes : ∀ e ∈ es, ¬e.On al)
    (hrun : runs step s (.init al :: es) = some s') :
    (∃ l', Inv s' l') ∧ s'.twake al = s.mtime := by
  obtain ⟨s₁, hinit, hrest⟩ := runs_cons hrun
  obtain ⟨l₁, h₁⟩ := step_inv h hinit
  obtain ⟨-, heq⟩ := Option.ite_none_right_eq_some.mp hinit
  obtain rfl := Option.some.inj heq
  obtain ⟨hinv, htwake⟩ := twake_of_runs h₁ hes hrest
  refine ⟨hinv, htwake.trans ?_⟩
  show Function.update s.twake al s.mtime al = s.mtime
  exact Function.update_self ..

theorem twake_of_sleep {tcnt : Nat} (hstep : step s (.sleep al tcnt) = some s') :
    s'.twake al = wakeTime (s.twake al) tcnt ∧
      (s'.entering = none → wakeTime (s.twake al) tcnt < s.mtime) := by
  obtain ⟨-, heq⟩ := Option.ite_none_right_eq_some.mp hstep
  obtain rfl := Option.some.inj heq
  unfold alarmSleep
  dsimp only
  split
  · next hpast => exact ⟨Function.update_self .., fun _ => hpast⟩
  · exact ⟨Function.update_self .., nofun⟩

/-- An interrupt wakes an alarm that is due. -/
theorem Inv.due_of_woken (h : Inv s l) (hintr : step s .intr = some s')
    (hasleep : asleep al s.log = true) (hready : asleep al s'.log = false) :
    s.twake al ≤ s.mtime := by
  obtain ⟨s₁, heq, hinv, -, -⟩ := h.intr
  obtain rfl := Option.some.inj (heq.symm.trans hintr)
  by_contra hlate
  have hleft : al ∈ l.filter fun a => s.mtime < s.twake a :=
    List.mem_filter.mpr ⟨(h.exact al).mpr hasleep, by simpa using hlate⟩
  rw [(hinv.exact al).mp hleft] at hready
  cases hready

/-- The call does not end before the wake-up time. -/
theorem SleepEnds.wake_le (h : Inv s l) (hends : SleepEnds al us s t) :
    wakeTime s.mtime (usTicks us) ≤ t := by
  cases hends with
  | returns hes hinit hsleep hreturn =>
    obtain ⟨-, htwake⟩ := twake_of_init h hes hinit
    have hpast := (twake_of_sleep hsleep).2 hreturn
    rw [htwake] at hpast
    exact Nat.le_of_lt hpast
  | woken hes hinit hes' hsleep hintr hasleep hready =>
    obtain ⟨⟨l₁, h₁⟩, htwake⟩ := twake_of_init h hes hinit
    obtain ⟨s₂, hstep, hrest⟩ := runs_cons hsleep
    obtain ⟨l₂, h₂⟩ := step_inv h₁ hstep
    obtain ⟨⟨l₃, h₃⟩, hkeep⟩ := twake_of_runs h₂ hes' hrest
    rw [← htwake, ← (twake_of_sleep hstep).1, ← hkeep]
    exact h₃.due_of_woken hintr hasleep hready

/-! ## A run that ends at the wake-up time -/

theorem le_wakeTime {twake tcnt : Nat} (h : twake ≤ UINT64_MAX) : twake ≤ wakeTime twake tcnt := by
  unfold wakeTime
  split
  · exact h
  · exact Nat.le_add_right ..

/-- If nothing else happens and the interrupt comes in time, the thread is woken at its wake-up
time. -/
theorem sleepEnds_wake (h : Inv s l) (hcall : MayCall s al) (hnow : s.mtime ≤ UINT64_MAX)
    (us : Nat) : SleepEnds al us s (wakeTime s.mtime (usTicks us)) := by
  have hnot := h.notMem hcall
  obtain ⟨hfree, hawake⟩ := hcall
  -- `alarm_init`
  have hinit : step s (.init al) = some (alarmInit s al) := if_pos ⟨hfree, hawake⟩
  have h₁ : Inv (alarmInit s al) l := h.write hnot s.mtime none
  have htwake₁ : (alarmInit s al).twake al = s.mtime := Function.update_self ..
  -- `alarm_sleep` up to where it disables interrupts
  obtain ⟨s₂, hsleep, htwake₂, hentering, hmtime₂⟩ :
      ∃ s₂, step (alarmInit s al) (.sleep al (usTicks us)) = some s₂ ∧
        s₂.twake al = wakeTime s.mtime (usTicks us) ∧ s₂.entering = some al ∧
        s₂.mtime = s.mtime := by
    have hfuture : ¬wakeTime s.mtime (usTicks us) < (alarmInit s al).mtime :=
      Nat.not_lt.mpr (le_wakeTime hnow)
    refine ⟨_, if_pos ⟨hfree, hawake⟩, ?_⟩
    unfold alarmSleep
    dsimp only
    rw [htwake₁, if_neg hfuture]
    exact ⟨Function.update_self .., rfl, rfl⟩
  obtain ⟨l₂, h₂⟩ := step_inv h₁ hsleep
  -- it inserts the alarm
  obtain ⟨next, mtcmp, hinsert, -⟩ := h₂.sleepInsert (h₂.entering al hentering)
  obtain ⟨s₃, hstep₃⟩ : ∃ s₃, step s₂ .insert = some s₃ := by
    simp only [step, hentering, hinsert, Option.map_some]
    exact ⟨_, rfl⟩
  obtain ⟨h₃, htwake₃, -, hlog₃, -⟩ := h₂.insert hentering hstep₃
  have hmtime₃ : s₃.mtime = s.mtime := by
    simp only [step, hentering, hinsert, Option.map_some, Option.some.injEq] at hstep₃
    rw [← hstep₃]
    exact hmtime₂
  -- the clock goes on to the wake-up time
  obtain ⟨s₄, hs₄⟩ : ∃ s₄, s₄ = { s₃ with mtime := wakeTime s.mtime (usTicks us) } := ⟨_, rfl⟩
  have hclock : step s₃ (.clock (wakeTime s.mtime (usTicks us))) = some s₄ := by
    rw [hs₄]
    refine if_pos ?_
    rw [hmtime₃]
    exact le_wakeTime hnow
  obtain ⟨l₄, h₄⟩ := step_inv h₃ hclock
  have hasleep : asleep al s₄.log = true := by
    rw [hs₄]
    show asleep al s₃.log = true
    rw [hlog₃, asleep_slept]
    exact Or.inl rfl
  -- the interrupt
  obtain ⟨s₅, hintr, h₅, -, -⟩ := h₄.intr
  have hready : asleep al s₅.log = false := by
    rw [Bool.eq_false_iff, Ne, ← h₅.exact, List.mem_filter, hs₄]
    rintro ⟨-, hlate⟩
    have hlate : wakeTime s.mtime (usTicks us) < s₃.twake al := of_decide_eq_true hlate
    rw [htwake₃, htwake₂] at hlate
    exact Nat.lt_irrefl _ hlate
  have hrun₁ : runs step s [.init al] = some (alarmInit s al) := (runs_of_step hinit).trans rfl
  have hquiet : ∀ e ∈ [Event.insert, .clock (wakeTime s.mtime (usTicks us))], ¬e.On al := by
    simp [Event.On]
  have hrun₂ : runs step (alarmInit s al)
      (.sleep al (usTicks us) :: [.insert, .clock (wakeTime s.mtime (usTicks us))]) = some s₄ :=
    (runs_of_step hsleep).trans ((runs_of_step hstep₃).trans ((runs_of_step hclock).trans rfl))
  have hends := SleepEnds.woken (fun _ he => absurd he List.not_mem_nil) hrun₁ hquiet hrun₂ hintr hasleep hready
  rwa [hs₄] at hends

/-! ## The time that was asked for -/

theorem usTicks_eq (us : Nat) : usTicks us = 10 * us % 2 ^ 64 := by
  have hfactor : ((us : Int) * (TIMER_FREQ / 1000 / 1000 : Nat)) = ((10 * us : Nat) : Int) := by
    rw [show TIMER_FREQ / 1000 / 1000 = 10 by decide]
    omega
  unfold usTicks
  rw [hfactor]
  -- the wrap is of the product, whatever it is
  generalize 10 * us = n
  unfold u64
  omega

/-- **Sleeping.** In every state that can be reached: `sysusleep(us)` does not end before the time
that was asked for if and only if the product does not wrap around, or the sum saturates all the
same; and a longer sleep does not end before a shorter one could if and only if it does not pass
fewer ticks, or its sum saturates. -/
theorem usleep_not_early_iff {twake : α → Nat} {next : α → Option α} {es : List (Event α)}
    (hrun : runs step (timerInit twake next) es = some s) (hcall : MayCall s al)
    (hnow : s.mtime ≤ UINT64_MAX) :
    (∀ us, (∀ t, SleepEnds al us s t → min (s.mtime + 10 * us) UINT64_MAX ≤ t) ↔
      10 * us < 2 ^ 64 ∨ UINT64_MAX ≤ s.mtime + 10 * us % 2 ^ 64) ∧
    ∀ us us', us ≤ us' →
      ((∀ t, SleepEnds al us' s t → ∃ t' ≤ t, SleepEnds al us s t') ↔
        10 * us % 2 ^ 64 ≤ 10 * us' % 2 ^ 64 ∨ UINT64_MAX ≤ s.mtime + 10 * us' % 2 ^ 64) := by
  obtain ⟨l, h⟩ := runs_invariant (I := fun s => ∃ l, Inv s l)
    (fun s e s' ⟨l, h⟩ hstep => step_inv h hstep) ⟨[], timerInit_inv twake next⟩ hrun
  have hwake : ∀ us, wakeTime s.mtime (usTicks us) =
      min (s.mtime + 10 * us % 2 ^ 64) UINT64_MAX := by
    intro us
    rw [usTicks_eq]
    unfold wakeTime
    split <;> omega
  have hmax : UINT64_MAX = 2 ^ 64 - 1 := rfl
  constructor
  · intro us
    constructor
    · intro hlate
      have hearliest := hlate _ (sleepEnds_wake h hcall hnow us)
      rw [hwake] at hearliest
      omega
    · intro hcond t hends
      have hle := hends.wake_le h
      rw [hwake] at hle
      omega
  · intro us us' hus
    constructor
    · intro hmono
      obtain ⟨t', ht', hends⟩ := hmono _ (sleepEnds_wake h hcall hnow us')
      have hle := hends.wake_le h
      rw [hwake] at hle ht'
      omega
    · intro hcond t hends
      refine ⟨_, ?_, sleepEnds_wake h hcall hnow us⟩
      have hle := hends.wake_le h
      rw [hwake] at hle ⊢
      omega

/-- A second, from the start. -/
theorem usleep_not_early_second :
    MayCall (timerInit (fun _ : Unit => 0) fun _ => none) () ∧
      ∀ t, SleepEnds () 1000000 (timerInit (fun _ => 0) fun _ => none) t → 10000000 ≤ t := by
  have hrun : runs step (timerInit (fun _ : Unit => 0) fun _ => none) [] = some _ := rfl
  have hcall : MayCall (timerInit (fun _ : Unit => 0) fun _ => none) () := ⟨rfl, rfl⟩
  have h := (usleep_not_early_iff hrun hcall (by decide)).1 1000000
  refine ⟨hcall, fun t ht => ?_⟩
  exact Nat.le_trans (by decide +kernel) (h.mpr (Or.inl (by decide)) t ht)

/-- The product of the first number of microseconds that wraps around is 4: the sleep of about 58000
years can end after 4 ticks, and one of a single microsecond cannot. -/
theorem usleep_early :
    SleepEnds () 1844674407370955162 (timerInit (fun _ => 0) fun _ => none) 4 ∧
      ∀ t, SleepEnds () 1 (timerInit (fun _ => 0) fun _ => none) t → 10 ≤ t := by
  have hticks : usTicks 1844674407370955162 = 4 :=
    (usTicks_eq _).trans (by decide)
  have hstart := timerInit_inv (fun _ : Unit => 0) fun _ => none
  have hcall : MayCall (timerInit (fun _ : Unit => 0) fun _ => none) () := ⟨rfl, rfl⟩
  have hends := sleepEnds_wake hstart hcall (by decide) 1844674407370955162
  rw [hticks] at hends
  refine ⟨hends, fun t ht => ?_⟩
  have hle := ht.wake_le hstart
  rw [usTicks_eq] at hle
  exact hle

end RiscvKernel.Timer
