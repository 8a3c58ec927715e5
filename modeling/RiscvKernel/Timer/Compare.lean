import RiscvKernel.Timer.SleepList

/-!
# The compare register

When the hardware is told to interrupt, against the alarms that wait for it. `timer_init` sets
`mtcmp` to the end of the first tick period and leaves `next_tick` at 0, so until the first
timer interrupt `alarm_sleep` never finds an alarm that is due before the next tick.

* `Punctually.insert`, `Punctually.intr`: once an interrupt has been handled, `mtcmp` is at most
  `next_tick`, and every insertion and every interrupt keeps it at most the first wake-up time.
* `timer_on_time_iff`: a run keeps `mtcmp` early enough in all its states if and only if no
  alarm that is due within the first tick period is inserted before the first interrupt.
-/

namespace RiscvKernel.Timer

open Lib

variable {α : Type} [DecidableEq α] {s s' : State α} {l : List α} {al : α}

/-- The timer interrupt comes no later than the first alarm is due. -/
def OnTime (s : State α) : Prop :=
  ∃ l, s.sleepList = l.head? ∧ Chain.Linked s.next l ∧ ∀ a ∈ l, s.mtcmp ≤ s.twake a

/-- Before the first interrupt, only alarms are inserted that are due after the first tick
period. -/
def Punctual (s : State α) (e : Event α) : Prop :=
  match e with
  | .insert => .intr ∉ s.log → ∀ al ∈ s.entering, TICK_PERIOD ≤ s.twake al
  | _ => True

/-- The sleep list, and the compare register beside it. -/
structure Punctually (s : State α) (l : List α) : Prop extends Inv s l where
  before : .intr ∉ s.log → s.nextTick = 0 ∧ s.mtcmp = TICK_PERIOD
  after : .intr ∈ s.log → s.mtcmp ≤ s.nextTick
  onTime : ∀ a ∈ l, s.mtcmp ≤ s.twake a

theorem timerInit_punctually (twake : α → Nat) (next : α → Option α) :
    Punctually (timerInit twake next) [] where
  toInv := timerInit_inv twake next
  before _ := ⟨rfl, rfl⟩
  after h := by cases h
  onTime _ h := by cases h

theorem Punctually.toOnTime (h : Punctually s l) : OnTime s := ⟨l, h.head, h.links, h.onTime⟩

theorem Punctually.kept (h : Punctually s l) (hkept : Kept s s' l) : Punctually s' l where
  toInv := hkept.inv
  before := by
    rw [hkept.log, hkept.nextTick, hkept.mtcmp]
    exact h.before
  after := by
    rw [hkept.log, hkept.nextTick, hkept.mtcmp]
    exact h.after
  onTime a ha := by
    rw [hkept.mtcmp, hkept.twake a ha]
    exact h.onTime a ha

/-- An alarm that is inserted in time. -/
theorem Punctually.insert (h : Punctually s l) (hal : s.entering = some al)
    (hpunctual : .intr ∉ s.log → TICK_PERIOD ≤ s.twake al) (hstep : step s .insert = some s') :
    Punctually s' (l.orderedInsert (Before s.twake) al) := by
  obtain ⟨hinv, htwake, htick, hlog, hset⟩ := h.toInv.insert hal hstep
  have hnote : Note.intr ∈ s'.log ↔ Note.intr ∈ s.log := by simp [hlog]
  refine ⟨hinv, ?_, ?_, fun a ha => ?_⟩
  · rw [hnote, htick]
    intro hintr
    obtain ⟨hzero, hcmp⟩ := h.before hintr
    refine ⟨hzero, ?_⟩
    rcases hset with ⟨-, hsoon, -⟩ | ⟨heq, -⟩
    · -- nothing is due before `next_tick`, which is still 0
      rw [hzero] at hsoon
      exact absurd hsoon (Nat.not_lt_zero _)
    · rw [heq, hcmp]
  · rw [hnote, htick]
    intro hintr
    rcases hset with ⟨heq, hsoon, -⟩ | ⟨heq, -⟩
    · rw [heq]
      exact Nat.le_of_lt hsoon
    · rw [heq]
      exact h.after hintr
  · rw [htwake]
    rcases hset with ⟨heq, -, hfirst⟩ | ⟨heq, hlater⟩
    · rw [heq]
      rcases (List.mem_orderedInsert _).mp ha with rfl | ha
      · exact Nat.le_refl _
      · exact hfirst a ha
    · rw [heq]
      rcases (List.mem_orderedInsert _).mp ha with rfl | ha
      · rcases hlater with hlater | ⟨b, hb, hle⟩
        · -- due after the next tick: `mtcmp` is at most that, or nothing was handled yet
          by_cases hintr : Note.intr ∈ s.log
          · exact Nat.le_trans (h.after hintr) hlater
          · rw [(h.before hintr).2]
            exact hpunctual hintr
        · exact Nat.le_trans (h.onTime b hb) hle
      · exact h.onTime a ha

/-- After an interrupt. -/
theorem Punctually.intr (h : Punctually s l) (hstep : step s .intr = some s') :
    Punctually s' (l.filter fun a => s.mtime < s.twake a) := by
  obtain ⟨s₁, heq, hinv, htwake, hlog, hcmp, hleft⟩ := h.toInv.intr
  obtain rfl := Option.some.inj (heq.symm.trans hstep)
  refine ⟨hinv, fun hnot => ?_, fun _ => hcmp, fun a ha => ?_⟩
  · rw [hlog] at hnot
    exact absurd List.mem_cons_self hnot
  · rw [htwake]
    exact hleft a ha

/-! ## Every run -/

theorem step_punctually {e : Event α} (h : Punctually s l) (hpunctual : Punctual s e)
    (hstep : step s e = some s') : ∃ l', Punctually s' l' := by
  rcases step_cases h.toInv hstep with hkept | ⟨rfl, al, hal⟩ | rfl
  · exact ⟨l, h.kept hkept⟩
  · exact ⟨_, h.insert hal (fun hintr => hpunctual hintr al hal) hstep⟩
  · exact ⟨_, h.intr hstep⟩

/-- An alarm that is due within the first period and inserted before the first interrupt is
overslept: `next_tick` is 0, so `mtcmp` stays at the end of the period. -/
theorem not_onTime_of_not_punctual {e : Event α} (h : Punctually s l) (hlate : ¬ Punctual s e)
    (hstep : step s e = some s') : ¬ OnTime s' := by
  cases e with
  | insert =>
    simp only [Punctual, not_forall, Nat.not_le] at hlate
    obtain ⟨hintr, al, hal, hsoon⟩ := hlate
    obtain ⟨hinv, htwake, -, -, hset⟩ := h.toInv.insert hal hstep
    obtain ⟨hzero, hcmp⟩ := h.before hintr
    have heq : s'.mtcmp = TICK_PERIOD := by
      rcases hset with ⟨-, hlt, -⟩ | ⟨heq, -⟩
      · rw [hzero] at hlt
        exact absurd hlt (Nat.not_lt_zero _)
      · rw [heq, hcmp]
    rintro ⟨m, hhead, hlinks, hall⟩
    have hm := hinv.links.unique hlinks (hinv.head.symm.trans hhead)
    have hle := hall al (hm ▸ (List.mem_orderedInsert _).mpr (Or.inl rfl))
    rw [heq, htwake] at hle
    exact absurd hsoon (Nat.not_lt.mpr hle)
  | clock => exact absurd trivial hlate
  | init => exact absurd trivial hlate
  | reset => exact absurd trivial hlate
  | sleep => exact absurd trivial hlate
  | intr => exact absurd trivial hlate

/-- **The timer is never programmed later than the next event** in a run if and only if no alarm
that is due within the first tick period is inserted before the first timer interrupt. -/
theorem timer_on_time_iff {twake : α → Nat} {next : α → Option α} {es : List (Event α)}
    (hrun : runs step (timerInit twake next) es = some s) :
    Throughout step OnTime (timerInit twake next) es ↔
      Steps step Punctual (timerInit twake next) es :=
  throughout_iff_steps (I := fun s => ∃ l, Punctually s l) (fun _ ⟨_, h⟩ => h.toOnTime)
    (fun _ _ _ ⟨_, h⟩ hpunctual hstep => step_punctually h hpunctual hstep)
    (fun _ _ _ ⟨_, h⟩ hlate hstep => not_onTime_of_not_punctual h hlate hstep)
    ⟨[], timerInit_punctually twake next⟩ hrun

/-- The first alarm is due in 300 ms. -/
theorem timer_on_time_late_alarm :
    ∃ s, runs step (timerInit (fun _ : Unit => 0) fun _ => none) [.sleep () 3000000, .insert] =
        some s ∧
      Throughout step OnTime (timerInit (fun _ : Unit => 0) fun _ => none)
        [.sleep () 3000000, .insert] := by
  obtain ⟨s, hs⟩ : ∃ s, runs step (timerInit (fun _ : Unit => 0) fun _ => none)
      [.sleep () 3000000, .insert] = some s := ⟨_, rfl⟩
  refine ⟨s, hs, (timer_on_time_iff hs).mpr ⟨trivial, fun s₁ h₁ => ⟨?_, fun _ _ => trivial⟩⟩⟩
  obtain rfl := Option.some.inj h₁
  rintro - al hal
  obtain rfl := Option.some.inj hal
  decide

/-- Right after `timer_init` a thread sleeps for 1 ms. The alarm is due at 10000, and the timer
interrupt is set for 200000. -/
theorem first_sleep_overslept :
    ∃ s, runs step (timerInit (fun _ : Unit => 0) fun _ => none) [.sleep () 10000, .insert] =
        some s ∧
      s.sleepList = some () ∧ s.twake () = 10000 ∧ s.mtcmp = 200000 ∧ ¬ OnTime s := by
  refine ⟨_, rfl, rfl, rfl, rfl, ?_⟩
  rintro ⟨l, hhead, -, hall⟩
  exact absurd (hall () (List.mem_of_head? hhead.symm)) (by decide)

end RiscvKernel.Timer
