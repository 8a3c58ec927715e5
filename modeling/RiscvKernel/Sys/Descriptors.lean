import RiscvKernel.Sys.Tables

/-!
# Opening with a negative descriptor

`sysdevopen` and `sysfsopen` choose the descriptor themselves when they are called with a
negative one. Their loop stops at the first entry of `iotab` that is *not* null, and what is
opened is stored there: the call takes a descriptor that is in use, or fails although every
descriptor is free.

* `picksFree_openAt`: what opening at the entry that the search finds means for the table.
* `open_negative_descriptor_iff`: a free descriptor is chosen exactly when nothing is opened.
-/

namespace RiscvKernel

open Lib Kfs

namespace Sys

variable {ω β : Type}

/-- Every entry of `iotab` is in use. -/
def Full (s : State ω β) : Prop := ∀ i < PROCESS_IOMAX, s.iotab i ≠ none

/-- What a call that chooses its descriptor has done: if it returns one, that one was free and
holds what has been opened, and no other has changed; and with a full table it fails. -/
structure PicksFree (s : State ω β) (opener : Option ω → Op β (Int × Option ω))
    (r : Option Int × State ω β) : Prop where
  free : (∃ i < PROCESS_IOMAX, s.iotab i = none) → ∀ fd : Int, r.1 = some fd → 0 ≤ fd →
    ∃ i < PROCESS_IOMAX, fd = (i : Int) ∧ s.iotab i = none ∧
      r.2.iotab = Function.update s.iotab i (opener (s.iotab i) s.below).1.2
  full : Full s → Rejected s r

/-- Opening at the descriptor `i` fails, and if the table is full it changes nothing. -/
def FailsAt (s : State ω β) (opener : Option ω → Op β (Int × Option ω)) (i : Nat) : Prop :=
  (opener (s.iotab i) s.below).1.1 < 0 ∧ (Full s → OpenRefused s opener i)

section Open

variable {k : Kern ω β} {s : State ω β} {opener : Option ω → Op β (Int × Option ω)} {error : Int}

/-- A call that has failed before it opens anything. -/
theorem Rejected.picksFree {r : Option Int × State ω β} (h : Rejected s r) :
    PicksFree s opener r where
  free _ fd hret hfd := by
    obtain ⟨x, hx, hret'⟩ := h.negative
    rw [hret] at hret'
    obtain rfl := Option.some.inj hret'
    omega
  full _ := h

/-- The entry that the search finds is in use, so only a call that fails leaves the table
right. -/
theorem picksFree_openAt (herror : 0 < error) {i : Nat} (hi : s.iotab i ≠ none) {s' : State ω β}
    (hiotab : s'.iotab = s.iotab) (hbelow : s'.below = s.below) :
    PicksFree s opener (openAt opener error i s') ↔ FailsAt s opener i := by
  have hret : (openAt opener error i s').1 = _ := openAt_fst hiotab hbelow
  have hrej : Rejected s (openAt opener error i s') ↔ OpenRefused s opener i :=
    rejected_openAt herror hiotab hbelow
  constructor
  · intro h
    refine ⟨?_, fun hfull => hrej.mp (h.full hfull)⟩
    by_cases hfree : ∃ j < PROCESS_IOMAX, s.iotab j = none
    · by_contra hneg
      rw [if_neg hneg] at hret
      -- the descriptor that is returned is the one that the search has found
      obtain ⟨j, -, hij, hj, -⟩ := h.free hfree i hret (Int.natCast_nonneg i)
      obtain rfl : i = j := by omega
      exact hi hj
    · have hfull : Full s := fun j hj hnone => hfree ⟨j, hj, hnone⟩
      exact (hrej.mp (h.full hfull)).negative
  · rintro ⟨hneg, hfull⟩
    refine ⟨fun _ fd hfd hpos => ?_, fun h => hrej.mpr (hfull h)⟩
    rw [hret, if_pos hneg] at hfd
    obtain rfl := Option.some.inj hfd
    omega

/-- A call with a negative descriptor chooses a free one if and only if it opens nothing:
the search finds no entry in use, or opening fails there. -/
theorem picksFree_onDescriptorOrSearch (herror : 0 < error) {fd : Int} (hfd : fd < 0) :
    PicksFree s opener (onDescriptorOrSearch k fd (openAt opener error) s) ↔
      (k.hasProcess s.below = true → ∀ i, searchIotab s.iotab = some i → FailsAt s opener i) := by
  cases hproc : k.hasProcess s.below with
  | false =>
    refine iff_of_true ?_ nofun
    apply Rejected.picksFree
    unfold onDescriptorOrSearch currentProcess
    dsimp only
    rw [if_pos hproc]
    exact rejected_of_error (by decide) rfl rfl
  | true =>
    cases hfind : searchIotab s.iotab with
    | none =>
      rw [onDescriptorOrSearch_of_none hproc hfd hfind]
      refine iff_of_true ?_ nofun
      apply Rejected.picksFree
      exact rejected_of_error (by decide) rfl rfl
    | some i =>
      have hi : s.iotab i ≠ none := Option.isSome_iff_ne_none.mp (searchIotab_eq_some hfind).2
      rw [onDescriptorOrSearch_of_found hproc hfd hfind]
      have hiotab : ((s.note (.thrtab (k.runningThread s.below))).noteIotab
          (List.range (i + 1))).iotab = s.iotab := rfl
      rw [picksFree_openAt herror hi hiotab rfl]
      simp

end Open

/-- `sysdevopen` and `sysfsopen` with a negative descriptor choose a free one exactly when they
open nothing. -/
theorem open_negative_descriptor_iff (k : Kern ω β) (s : State ω β) {fd : Int} (hfd : fd < 0)
    (name : Nat) (instno : Int) :
    (PicksFree s (k.deviceOpen name instno) (sysdevopen k fd name instno s) ↔
      (k.hasProcess s.below = true → ∀ i, searchIotab s.iotab = some i →
        FailsAt s (k.deviceOpen name instno) i)) ∧
    (PicksFree s (k.fsOpen name) (sysfsopen k fd name s) ↔
      (k.hasProcess s.below = true → ∀ i, searchIotab s.iotab = some i →
        FailsAt s (k.fsOpen name) i)) :=
  ⟨picksFree_onDescriptorOrSearch (by decide) hfd, picksFree_onDescriptorOrSearch (by decide) hfd⟩

/-- Descriptor 0 is in use. -/
def terminalOpen : State Nat Unit := ⟨fun i => if i = 0 then some 7 else none, (), []⟩

/-- The search finds descriptor 0, but nothing can be opened. -/
theorem open_negative_descriptor_fails :
    PicksFree terminalOpen ((quiet : Kern Nat Unit).deviceOpen 0 0)
        (sysdevopen quiet (-1) 0 0 terminalOpen) ∧
      PicksFree terminalOpen ((quiet : Kern Nat Unit).fsOpen 0) (sysfsopen quiet (-1) 0 terminalOpen) := by
  have hfree : ¬Full terminalOpen := fun h => h 1 (by decide) rfl
  obtain ⟨hdev, hfs⟩ := open_negative_descriptor_iff (quiet : Kern Nat Unit) terminalOpen
    (by decide : (-1 : Int) < 0) 0 0
  refine ⟨hdev.mpr fun _ i _ => ⟨?_, fun h => absurd h hfree⟩,
    hfs.mpr fun _ i _ => ⟨?_, fun h => absurd h hfree⟩⟩
  · show -ENODEV < 0
    decide
  · show -ENOENT < 0
    decide

/-- A kernel in which opening succeeds, with a new io object. -/
def opening (new : ω) : Kern ω β :=
  { quiet with
    deviceOpen := fun _ _ _ b => ((0, some new), b, [])
    fsOpen := fun _ _ b => ((0, some new), b, []) }

/-- With descriptor 0 in use and all others free, `devopen(-1, ...)` returns 0: the io object
that was there is lost. -/
theorem sysdevopen_replaces_descriptor :
    terminalOpen.iotab 1 = none ∧ terminalOpen.iotab 0 = some 7 ∧
      (sysdevopen (opening 8) (-1) 0 0 terminalOpen).1 = some 0 ∧
      (sysdevopen (opening 8) (-1) 0 0 terminalOpen).2.iotab 0 = some 8 ∧
      ¬PicksFree terminalOpen ((opening 8 : Kern Nat Unit).deviceOpen 0 0)
        (sysdevopen (opening 8) (-1) 0 0 terminalOpen) := by
  have hret : (sysdevopen (opening 8) (-1) 0 0 terminalOpen).1 = some 0 := by decide
  refine ⟨rfl, rfl, hret, by decide, fun h => ?_⟩
  obtain ⟨i, -, hi, hfree, -⟩ := h.free ⟨1, by decide, rfl⟩ 0 hret le_rfl
  obtain rfl : i = 0 := by omega
  cases hfree

end Sys

end RiscvKernel
