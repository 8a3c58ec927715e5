import RiscvKernel.Sys.Syscall

/-!
# System calls and the tables of the kernel

Whether a system call accesses `iotab` and `thrtab` inside their bounds, and rejects
descriptors and thread ids that are out of range. The handlers compare descriptors with
`MAX_OPEN_FILE_CT`, which is 32, but `iotab` has `PROCESS_IOMAX`, that is 16, entries; the
search for a negative descriptor runs to 32 as well; and `thread_join` reads `thrtab[tid]`
before it checks `tid`.

* `inTables_onDescriptor`, `inTables_onDescriptorOrSearch`: the accesses of each family of
  handlers.
* `syscall_tables_iff`: for which registers a call stays inside.
-/

namespace RiscvKernel

open Lib Kfs Thread

namespace Sys

variable {ω β α : Type}

/-! ## The property -/

/-- An access inside the tables. -/
def Access.Inside : Access → Prop
  | .iotab i => i < PROCESS_IOMAX
  | .thrtab i => 0 ≤ i ∧ i < NTHR
  | _ => True

def InTables (log : List Access) : Prop := AllIn Access.Inside log

/-- A call that fails and changes nothing. -/
structure Rejected (s : State ω β) (r : Option Int × State ω β) : Prop where
  negative : ∃ x < 0, r.1 = some x
  iotab : r.2.iotab = s.iotab
  below : r.2.below = s.below

/-- The call has a descriptor or a thread id for which there is no entry. -/
def Call.OutOfRange : Call → Prop
  | .devopen fd _ _ => ¬(0 ≤ fd ∧ fd < PROCESS_IOMAX)
  | .fsopen fd _ => ¬(0 ≤ fd ∧ fd < PROCESS_IOMAX)
  | .close fd => ¬(0 ≤ fd ∧ fd < PROCESS_IOMAX)
  | .read fd _ _ => ¬(0 ≤ fd ∧ fd < PROCESS_IOMAX)
  | .write fd _ _ => ¬(0 ≤ fd ∧ fd < PROCESS_IOMAX)
  | .ioctl fd _ _ => ¬(0 ≤ fd ∧ fd < PROCESS_IOMAX)
  | .exec fd => ¬(0 ≤ fd ∧ fd < PROCESS_IOMAX)
  | .wait tid => ¬(0 ≤ tid ∧ tid < NTHR)
  | _ => False

/-- The call stays inside the tables, and is rejected if its argument is out of range. -/
structure StaysInside (k : Kern ω β) (s : State ω β) (c : Call) : Prop where
  tables : InTables (handle k c { s with log := [] }).2.log
  rejected : c.OutOfRange → Rejected s (handle k c { s with log := [] })

/-! ## Accesses -/

@[simp] theorem inTables_nil : InTables [] := allIn_nil

@[simp] theorem inTables_note {s : State ω β} {a : Access} :
    InTables (s.note a).log ↔ InTables s.log ∧ a.Inside := allIn_note

@[simp] theorem inTables_setIotab {s : State ω β} {i : Nat} {io : Option ω} :
    InTables (s.setIotab i io).log ↔ InTables s.log ∧ i < PROCESS_IOMAX := allIn_setIotab

/-- What the rest of the kernel accesses is inside. -/
@[simp] theorem inTables_run {s : State ω β} {op : Op β α} :
    InTables (s.run op).2.log ↔ InTables s.log := by
  refine allIn_run.trans (and_iff_left fun t _ => ?_)
  cases t with
  | slot tid =>
    have := tid.isLt
    exact ⟨Int.natCast_nonneg _, by exact_mod_cast this⟩
  | load va => trivial
  | store va => trivial

@[simp] theorem inTables_noteIotab {s : State ω β} {n : Nat} :
    InTables (s.noteIotab (List.range n)).log ↔ InTables s.log ∧ n ≤ PROCESS_IOMAX := by
  refine allIn_noteIotab.trans (and_congr_right fun _ => ⟨fun h => ?_, fun hn i hi => ?_⟩)
  · by_contra hlt
    have : PROCESS_IOMAX < PROCESS_IOMAX := h _ (List.mem_range.mpr (by omega))
    omega
  · have := List.mem_range.mp hi
    show i < PROCESS_IOMAX
    omega

/-- The part of a handler that works on the descriptor `i` accesses `iotab` there only. -/
def OnEntry (body : Nat → Handler ω β) : Prop :=
  ∀ i s, InTables (body i s).2.log ↔ InTables s.log ∧ i < PROCESS_IOMAX

theorem onEntry_openAt (opener : Option ω → Op β (Int × Option ω)) (error : Int) :
    OnEntry (openAt opener error) := by
  intro i s
  unfold openAt
  dsimp only
  split <;> simp [Access.Inside]

/-- Of an io object the handlers make at most one more access, to the same entry. -/
theorem onEntry_onIo {body : Nat → ω → Handler ω β}
    (hgrow : ∀ i io s, InTables (body i io s).2.log → InTables s.log)
    (hinside : ∀ i io s, i < PROCESS_IOMAX → InTables s.log → InTables (body i io s).2.log) :
    OnEntry fun i => onIo i (body i) := by
  intro i s
  show InTables (onIo i (body i) s).2.log ↔ _
  unfold onIo
  cases s.iotab i with
  | none => exact inTables_note
  | some io =>
    have hnote : InTables (s.note (.iotab i)).log ↔ InTables s.log ∧ i < PROCESS_IOMAX :=
      inTables_note
    exact ⟨fun h => hnote.mp (hgrow i io _ h), fun h => hinside i io _ h.2 (hnote.mpr h)⟩

theorem onEntry_returning (op : ω → Op β Int) : OnEntry fun i => onIo i fun io => returning (op io) := by
  refine onEntry_onIo (fun i io s h => ?_) fun i io s _ h => ?_
  · exact inTables_run.mp h
  · exact inTables_run.mpr h

theorem onEntry_close (k : Kern ω β) :
    OnEntry fun i => onIo i fun io s => (some 0, (s.run (k.close io)).2.setIotab i none) := by
  refine onEntry_onIo (fun i io s h => ?_) fun i io s hi h => ?_
  · exact inTables_run.mp (inTables_setIotab.mp h).1
  · exact inTables_setIotab.mpr ⟨inTables_run.mpr h, hi⟩

theorem onEntry_exec (k : Kern ω β) : OnEntry fun i => onIo i fun io s => s.run (k.processExec io) := by
  refine onEntry_onIo (fun i io s h => ?_) fun i io s _ h => ?_
  · exact inTables_run.mp h
  · exact inTables_run.mpr h

/-- The running thread is in a slot of `thrtab`. -/
def RunningInside (k : Kern ω β) (s : State ω β) : Prop :=
  0 ≤ k.runningThread s.below ∧ k.runningThread s.below < NTHR

variable {k : Kern ω β} {s : State ω β} {fd : Int} {body : Nat → Handler ω β}

/-- A descriptor that passes the check against 32 but has no entry. -/
def Unchecked (fd : Int) : Prop := (PROCESS_IOMAX : Int) ≤ fd ∧ fd < MAX_OPEN_FILE_CT

theorem inTables_onDescriptor (hbody : OnEntry body) :
    InTables (onDescriptor k fd body s).2.log ↔
      InTables s.log ∧ RunningInside k s ∧ (k.hasProcess s.below = true → ¬Unchecked fd) := by
  have hnote : InTables (s.note (.thrtab (k.runningThread s.below))).log ↔
      InTables s.log ∧ RunningInside k s := inTables_note
  unfold onDescriptor currentProcess Unchecked
  dsimp only
  rw [← and_assoc, ← hnote]
  cases hproc : k.hasProcess s.below with
  | false => simp
  | true =>
    rw [if_neg (by simp)]
    split
    · next hout => exact (and_iff_left fun _ h => by omega).symm
    · next hin =>
      rw [hbody]
      refine and_congr_right fun _ => ⟨fun h _ hun => by omega, fun h => ?_⟩
      have := h rfl
      omega

/-- The search finds an entry below 32. -/
theorem searchIotab_eq_some {iotab : Nat → Option ω} {i : Nat} (h : searchIotab iotab = some i) :
    i < MAX_OPEN_FILE_CT ∧ (iotab i).isSome :=
  ⟨List.mem_range.mp (List.mem_of_find?_eq_some h), by simpa using List.find?_some h⟩

theorem inTables_onDescriptorOrSearch (hbody : OnEntry body) :
    InTables (onDescriptorOrSearch k fd body s).2.log ↔
      InTables s.log ∧ RunningInside k s ∧ (k.hasProcess s.below = true → ¬Unchecked fd ∧
        (fd < 0 → ∃ i < PROCESS_IOMAX, searchIotab s.iotab = some i)) := by
  have hnote : InTables (s.note (.thrtab (k.runningThread s.below))).log ↔
      InTables s.log ∧ RunningInside k s := inTables_note
  unfold onDescriptorOrSearch currentProcess Unchecked
  dsimp only
  rw [← and_assoc, ← hnote]
  cases hproc : k.hasProcess s.below with
  | false => simp
  | true =>
    rw [if_neg (by simp)]
    split
    · next hout => exact (and_iff_left fun _ => ⟨by omega, by omega⟩).symm
    · split
      · next hneg =>
        have hiotab : (s.note (.thrtab (k.runningThread s.below))).iotab = s.iotab := rfl
        rw [hiotab]
        cases hfind : searchIotab s.iotab with
        | none =>
          -- the search has gone through 32 entries
          rw [inTables_noteIotab]
          refine iff_of_false (fun h => absurd h.2 (by decide)) fun h => ?_
          obtain ⟨i, -, hi⟩ := (h.2 rfl).2 hneg
          cases hi
        | some i =>
          dsimp only
          rw [hbody, inTables_noteIotab, and_assoc]
          refine and_congr_right fun _ => ⟨fun h _ => ⟨by omega, fun _ => ⟨i, h.2, rfl⟩⟩, fun h => ?_⟩
          obtain ⟨j, hj, hij⟩ := (h rfl).2 hneg
          obtain rfl := Option.some.inj hij
          exact ⟨hj, hj⟩
      · next hpos =>
        rw [hbody]
        refine and_congr_right fun _ => ⟨fun h _ => ⟨by omega, by omega⟩, fun h => ?_⟩
        have := (h rfl).1
        omega

theorem inTables_foldl {f : State ω β → Nat → State ω β}
    (hf : ∀ s i, InTables (f s i).log ↔ InTables s.log ∧ i < PROCESS_IOMAX) (is : List Nat)
    (his : ∀ i ∈ is, i < PROCESS_IOMAX) : InTables (is.foldl f s).log ↔ InTables s.log := by
  induction is generalizing s with
  | nil => rfl
  | cons i is ih =>
    rw [List.foldl_cons, ih fun j hj => his j (List.mem_cons_of_mem _ hj), hf]
    exact and_iff_left (his i List.mem_cons_self)

theorem inTables_sysexit : InTables (sysexit k s).2.log ↔ InTables s.log ∧ RunningInside k s := by
  have hnote : InTables (s.note (.thrtab (k.runningThread s.below))).log ↔
      InTables s.log ∧ RunningInside k s := inTables_note
  unfold sysexit currentProcess
  dsimp only
  split
  · exact hnote
  · have hclose : ∀ (s : State ω β) i,
        InTables (closeEntry k s i).log ↔ InTables s.log ∧ i < PROCESS_IOMAX := by
      intro s i
      unfold closeEntry
      split <;> simp [Access.Inside]
    have hrange : ∀ i ∈ List.range NPROC, i < PROCESS_IOMAX := fun i hi => List.mem_range.mp hi
    rw [inTables_run, inTables_foldl hclose _ hrange, inTables_run, hnote]

theorem inTables_sysfork : InTables (sysfork k s).2.log ↔ InTables s.log ∧ RunningInside k s := by
  have hnote : InTables (s.note (.thrtab (k.runningThread s.below))).log ↔
      InTables s.log ∧ RunningInside k s := inTables_note
  have href : ∀ (s : State ω β) i,
      InTables (refEntry k s i).log ↔ InTables s.log ∧ i < PROCESS_IOMAX := by
    intro s i
    unfold refEntry
    split <;> simp [Access.Inside]
  unfold sysfork currentProcess
  dsimp only
  rw [inTables_run, inTables_foldl href _ fun i hi => List.mem_range.mp hi, hnote]

theorem inTables_syswait {tid : Int} :
    InTables (syswait k tid s).2.log ↔ InTables s.log ∧ (tid ≠ 0 → 0 ≤ tid ∧ tid < NTHR) := by
  unfold syswait
  split
  · next h => simp [h]
  · next h =>
    have hnote : InTables (s.note (.thrtab tid)).log ↔ InTables s.log ∧ 0 ≤ tid ∧ tid < NTHR :=
      inTables_note
    unfold threadJoin
    dsimp only
    rw [forall_prop_of_true h, ← hnote]
    split
    · exact inTables_run
    · rfl

/-! ## Rejected calls -/

theorem rejected_of_error {x : Int} (hx : x < 0) {s' : State ω β} (hiotab : s'.iotab = s.iotab)
    (hbelow : s'.below = s.below) : Rejected s (some x, s') :=
  ⟨⟨x, hx, rfl⟩, hiotab, hbelow⟩

/-- A descriptor for which there is no entry is rejected, or passes the check against 32. -/
theorem rejected_onDescriptor (hout : ¬(0 ≤ fd ∧ fd < PROCESS_IOMAX))
    (hchecked : k.hasProcess s.below = true → ¬Unchecked fd) :
    Rejected s (onDescriptor k fd body s) := by
  unfold onDescriptor currentProcess
  dsimp only
  unfold Unchecked at hchecked
  split
  · exact rejected_of_error (by decide) rfl rfl
  · next hproc =>
    have := hchecked (by simpa using hproc)
    rw [if_pos (by omega)]
    exact rejected_of_error (by decide) rfl rfl

/-- With a negative descriptor the call is that on the entry that the search finds. -/
theorem rejected_onDescriptorOrSearch (hout : ¬(0 ≤ fd ∧ fd < PROCESS_IOMAX))
    (hchecked : k.hasProcess s.below = true → ¬Unchecked fd ∧
      (fd < 0 → ∃ i < PROCESS_IOMAX, searchIotab s.iotab = some i)) :
    Rejected s (onDescriptorOrSearch k fd body s) ↔
      (k.hasProcess s.below = true → fd < 0 → ∀ i, searchIotab s.iotab = some i →
        Rejected s (body i ((s.note (.thrtab (k.runningThread s.below))).noteIotab
          (List.range (i + 1))))) := by
  unfold onDescriptorOrSearch currentProcess
  dsimp only
  unfold Unchecked at hchecked
  cases hproc : k.hasProcess s.below with
  | false => exact iff_of_true (rejected_of_error (by decide) rfl rfl) nofun
  | true =>
    have hcond := hchecked hproc
    rw [if_neg (by simp)]
    split
    · next hbig =>
      exact iff_of_true (rejected_of_error (by decide) rfl rfl) fun _ hneg => by omega
    · have hneg : fd < 0 := by omega
      obtain ⟨i, -, hi⟩ := hcond.2 hneg
      have hiotab : (s.note (.thrtab (k.runningThread s.below))).iotab = s.iotab := rfl
      rw [if_pos hneg, hiotab, hi]
      refine ⟨fun h _ _ j hj => ?_, fun h => h rfl hneg i rfl⟩
      obtain rfl := Option.some.inj hj
      exact h

/-- Opening fails and changes nothing. -/
structure OpenRefused (s : State ω β) (opener : Option ω → Op β (Int × Option ω)) (i : Nat) :
    Prop where
  negative : (opener (s.iotab i) s.below).1.1 < 0
  io : (opener (s.iotab i) s.below).1.2 = s.iotab i
  below : (opener (s.iotab i) s.below).2.1 = s.below

theorem rejected_openAt {opener : Option ω → Op β (Int × Option ω)} {error : Int}
    (herror : 0 < error) {i : Nat} {s' : State ω β} (hiotab : s'.iotab = s.iotab)
    (hbelow : s'.below = s.below) :
    Rejected s (openAt opener error i s') ↔ OpenRefused s opener i := by
  have hrun : ((s'.note (.iotab i)).run (opener (s'.iotab i))).1 =
      (opener (s.iotab i) s.below).1 := by
    rw [← hiotab, ← hbelow]
    rfl
  have hnew : (((s'.note (.iotab i)).run (opener (s'.iotab i))).2.setIotab i
      (opener (s.iotab i) s.below).1.2).below = (opener (s.iotab i) s.below).2.1 := by
    rw [← hiotab, ← hbelow]
    rfl
  have hentry : (((s'.note (.iotab i)).run (opener (s'.iotab i))).2.setIotab i
      (opener (s.iotab i) s.below).1.2).iotab =
      Function.update s.iotab i (opener (s.iotab i) s.below).1.2 := by
    show Function.update s'.iotab i _ = _
    rw [hiotab]
  unfold openAt
  dsimp only
  rw [hrun]
  constructor
  · rintro ⟨⟨x, hx, hret⟩, hio, hb⟩
    split at hret
    · next hneg =>
      rw [if_pos hneg] at hio hb
      dsimp only at hio hb
      rw [hentry] at hio
      rw [hnew] at hb
      refine ⟨hneg, ?_, hb⟩
      have := congrFun hio i
      rwa [Function.update_self] at this
    · obtain rfl := Option.some.inj hret
      omega
  · rintro ⟨hneg, hio, hb⟩
    rw [if_pos hneg]
    refine rejected_of_error (by omega) ?_ (hnew.trans hb)
    rw [hentry, hio, Function.update_eq_self]

/-- `ioctl` on the object at the descriptor fails and changes nothing. -/
def CtlRefused (k : Kern ω β) (s : State ω β) (cmd : Int) (arg i : Nat) : Prop :=
  ∃ io, s.iotab i = some io ∧ (k.ioctl io cmd arg s.below).1 < 0 ∧
    (k.ioctl io cmd arg s.below).2.1 = s.below

theorem rejected_ioctl {cmd : Int} {arg i : Nat} {s' : State ω β} (hiotab : s'.iotab = s.iotab)
    (hbelow : s'.below = s.below) (hi : (s.iotab i).isSome) :
    Rejected s (onIo i (fun io => returning (k.ioctl io cmd arg)) s') ↔
      CtlRefused k s cmd arg i := by
  obtain ⟨io, hio⟩ := Option.isSome_iff_exists.mp hi
  have hbody : onIo i (fun io => returning (k.ioctl io cmd arg)) s' =
      returning (k.ioctl io cmd arg) (s'.note (.iotab i)) := by
    unfold onIo
    rw [hiotab, hio]
  rw [hbody]
  unfold CtlRefused
  constructor
  · rintro ⟨⟨x, hx, hret⟩, -, hb⟩
    refine ⟨io, hio, ?_, ?_⟩
    · rw [← hbelow]
      obtain rfl : (k.ioctl io cmd arg s'.below).1 = x := Option.some.inj hret
      exact hx
    · rw [← hbelow] at hb ⊢
      exact hb
  · rintro ⟨io', hio', hneg, hb⟩
    obtain rfl : io = io' := Option.some.inj (hio.symm.trans hio')
    rw [← hbelow] at hneg hb
    exact rejected_of_error hneg hiotab (hb.trans hbelow)

/-! ## The calls -/

/-- The condition on a call. For the calls that search, a negative descriptor is out of range
too: the search must find an open entry, and the call must fail on it. -/
def TablesCond (k : Kern ω β) (s : State ω β) : Call → Prop
  | .exit => RunningInside k s
  | .msgout _ => RunningInside k s
  | .devopen fd name instno => RunningInside k s ∧ (k.hasProcess s.below = true → ¬Unchecked fd ∧
      (fd < 0 → ∃ i < PROCESS_IOMAX, searchIotab s.iotab = some i ∧
        OpenRefused s (k.deviceOpen name instno) i))
  | .fsopen fd name => RunningInside k s ∧ (k.hasProcess s.below = true → ¬Unchecked fd ∧
      (fd < 0 → ∃ i < PROCESS_IOMAX, searchIotab s.iotab = some i ∧
        OpenRefused s (k.fsOpen name) i))
  | .close fd => RunningInside k s ∧ (k.hasProcess s.below = true → ¬Unchecked fd)
  | .read fd buf bufsz => k.validateVptrLen buf bufsz (PTE_U ||| PTE_W) s.below = true →
      RunningInside k s ∧ (k.hasProcess s.below = true → ¬Unchecked fd)
  | .write fd _ _ => RunningInside k s ∧ (k.hasProcess s.below = true → ¬Unchecked fd)
  | .ioctl fd cmd arg => RunningInside k s ∧ (k.hasProcess s.below = true → ¬Unchecked fd ∧
      (fd < 0 → ∃ i < PROCESS_IOMAX, searchIotab s.iotab = some i ∧ CtlRefused k s cmd arg i))
  | .exec fd => RunningInside k s ∧ (k.hasProcess s.below = true → ¬Unchecked fd)
  | .fork => RunningInside k s
  | .wait tid => 0 ≤ tid ∧ tid < NTHR
  | .usleep _ => True
  | .unknown => True

/-- A call that checks its descriptor only. -/
theorem staysInside_onDescriptor {c : Call} (hbody : OnEntry body)
    (hhandle : handle k c { s with log := [] } = onDescriptor k fd body { s with log := [] })
    (hrange : c.OutOfRange ↔ ¬(0 ≤ fd ∧ fd < PROCESS_IOMAX)) :
    StaysInside k s c ↔ RunningInside k s ∧ (k.hasProcess s.below = true → ¬Unchecked fd) := by
  have htables : InTables (onDescriptor k fd body { s with log := [] }).2.log ↔ _ :=
    inTables_onDescriptor hbody
  rw [← hhandle] at htables
  constructor
  · intro h
    exact (htables.mp h.tables).2
  · intro h
    refine ⟨htables.mpr ⟨inTables_nil, h⟩, fun hout => ?_⟩
    have hrej : Rejected { s with log := [] } (onDescriptor k fd body { s with log := [] }) :=
      rejected_onDescriptor (hrange.mp hout) h.2
    rw [hhandle]
    exact ⟨hrej.negative, hrej.iotab, hrej.below⟩

/-- A call that searches for a descriptor. -/
theorem staysInside_onDescriptorOrSearch {c : Call} {P : Nat → Prop} (hbody : OnEntry body)
    (hhandle : handle k c = onDescriptorOrSearch k fd body)
    (hrange : c.OutOfRange ↔ ¬(0 ≤ fd ∧ fd < PROCESS_IOMAX))
    (hrefused : ∀ i (s' : State ω β), s'.iotab = s.iotab → s'.below = s.below →
      searchIotab s.iotab = some i → (Rejected s (body i s') ↔ P i)) :
    StaysInside k s c ↔ RunningInside k s ∧ (k.hasProcess s.below = true → ¬Unchecked fd ∧
      (fd < 0 → ∃ i < PROCESS_IOMAX, searchIotab s.iotab = some i ∧ P i)) := by
  have htables : InTables (onDescriptorOrSearch k fd body { s with log := [] }).2.log ↔ _ :=
    inTables_onDescriptorOrSearch hbody
  rw [← hhandle] at htables
  constructor
  · intro h
    obtain ⟨-, hrun, hcond⟩ := htables.mp h.tables
    refine ⟨hrun, fun hproc => ⟨(hcond hproc).1, fun hneg => ?_⟩⟩
    obtain ⟨i, hi, hfind⟩ := (hcond hproc).2 hneg
    have hout : ¬(0 ≤ fd ∧ fd < PROCESS_IOMAX) := by omega
    have hrej := h.rejected (hrange.mpr hout)
    rw [hhandle] at hrej
    have hbodyRej := (rejected_onDescriptorOrSearch (s := { s with log := [] }) hout hcond).mp
      ⟨hrej.negative, hrej.iotab, hrej.below⟩ hproc hneg i hfind
    refine ⟨i, hi, hfind, (hrefused i _ ?_ ?_ hfind).mp
      ⟨hbodyRej.negative, hbodyRej.iotab, hbodyRej.below⟩⟩
    · rfl
    · rfl
  · rintro ⟨hrun, hcond⟩
    have hcond' : k.hasProcess s.below = true → ¬Unchecked fd ∧
        (fd < 0 → ∃ i < PROCESS_IOMAX, searchIotab s.iotab = some i) := fun hproc =>
      ⟨(hcond hproc).1, fun hneg =>
        let ⟨i, hi, hfind, _⟩ := (hcond hproc).2 hneg
        ⟨i, hi, hfind⟩⟩
    refine ⟨htables.mpr ⟨inTables_nil, hrun, hcond'⟩, fun hout => ?_⟩
    rw [hhandle]
    have hrej : Rejected { s with log := [] }
        (onDescriptorOrSearch k fd body { s with log := [] }) := by
      refine (rejected_onDescriptorOrSearch (s := { s with log := [] }) (hrange.mp hout)
        hcond').mpr fun hproc hneg i hfind => ?_
      obtain ⟨j, -, hj, hP⟩ := (hcond hproc).2 hneg
      obtain rfl : j = i := Option.some.inj (hj.symm.trans hfind)
      have := (hrefused j (((State.note { s with log := [] }
        (.thrtab (k.runningThread s.below))).noteIotab (List.range (j + 1)))) rfl rfl hfind).mpr hP
      exact ⟨this.negative, this.iotab, this.below⟩
    exact ⟨hrej.negative, hrej.iotab, hrej.below⟩

/-- A call without a descriptor or thread id. -/
theorem staysInside_of_inRange {c : Call} (hrange : ¬c.OutOfRange) :
    StaysInside k s c ↔ InTables (handle k c { s with log := [] }).2.log :=
  ⟨fun h => h.tables, fun h => ⟨h, fun hout => absurd hout hrange⟩⟩

/-- **System calls and the tables.** For all values of the registers, a system call accesses
`iotab` and `thrtab` inside their bounds only and rejects arguments that are out of range, if
and only if it meets the condition: the running thread is in a slot, a descriptor is not
between 16 and 31, the search for a negative descriptor finds an open entry below 16 on which
the call fails, and a thread id is in range. -/
theorem syscall_tables_iff (k : Kern ω β) (s : State ω β) (a7 a0 a1 a2 : Nat) :
    StaysInside k s (decode a7 a0 a1 a2) ↔ TablesCond k s (decode a7 a0 a1 a2) := by
  generalize decode a7 a0 a1 a2 = c
  cases c with
  | exit =>
    rw [staysInside_of_inRange (c := .exit) not_false]
    exact inTables_sysexit.trans (and_iff_right inTables_nil)
  | fork =>
    rw [staysInside_of_inRange (c := .fork) not_false]
    exact inTables_sysfork.trans (and_iff_right inTables_nil)
  | msgout msg =>
    rw [staysInside_of_inRange (c := .msgout msg) not_false]
    exact (inTables_run.trans inTables_note).trans (and_iff_right inTables_nil)
  | devopen fd name instno =>
    exact staysInside_onDescriptorOrSearch (onEntry_openAt _ _) rfl Iff.rfl
      fun i s' hio hb _ => rejected_openAt (by decide) hio hb
  | fsopen fd name =>
    exact staysInside_onDescriptorOrSearch (onEntry_openAt _ _) rfl Iff.rfl
      fun i s' hio hb _ => rejected_openAt (by decide) hio hb
  | ioctl fd cmd arg =>
    exact staysInside_onDescriptorOrSearch (onEntry_returning _) rfl Iff.rfl
      fun i s' hio hb hfind => rejected_ioctl hio hb (searchIotab_eq_some hfind).2
  | close fd =>
    exact staysInside_onDescriptor (onEntry_close k) rfl Iff.rfl
  | write fd buf len => exact staysInside_onDescriptor (onEntry_returning _) rfl Iff.rfl
  | exec fd =>
    exact staysInside_onDescriptor (onEntry_exec k) rfl Iff.rfl
  | read fd buf bufsz =>
    cases hvalid : k.validateVptrLen buf bufsz (PTE_U ||| PTE_W) s.below with
    | true =>
      have hread : sysread k fd buf bufsz { s with log := [] } =
          onDescriptor k fd (fun i => onIo i fun io => returning (k.ioread io buf bufsz))
            { s with log := [] } := if_neg (by simp [hvalid])
      exact (staysInside_onDescriptor (c := .read fd buf bufsz) (onEntry_returning _) hread
        Iff.rfl).trans ⟨fun h _ => h, fun h => h hvalid⟩
    | false =>
      have hread : sysread k fd buf bufsz { s with log := [] } =
          (some (-EACCESS), { s with log := [] }) := if_pos hvalid
      refine iff_of_true ⟨?_, fun _ => ?_⟩ fun h => ?_
      · show InTables (sysread k fd buf bufsz { s with log := [] }).2.log
        rw [hread]
        exact inTables_nil
      · show Rejected s (sysread k fd buf bufsz { s with log := [] })
        rw [hread]
        exact rejected_of_error (by decide) rfl rfl
      · rw [hvalid] at h
        cases h
  | wait tid =>
    have htables := @inTables_syswait ω β k { s with log := [] } tid
    refine ⟨fun h => ?_, fun h => ⟨htables.mpr ⟨inTables_nil, fun _ => h⟩, fun hout => absurd h hout⟩⟩
    -- `wait(0)` waits for any child
    obtain rfl | hne := eq_or_ne tid 0
    · exact ⟨le_rfl, by decide⟩
    · exact (htables.mp h.tables).2 hne
  | usleep us =>
    rw [staysInside_of_inRange (c := .usleep us) not_false]
    exact iff_of_true (inTables_run.mpr inTables_nil) trivial
  | unknown =>
    rw [staysInside_of_inRange (c := .unknown) not_false]
    exact iff_of_true inTables_nil trivial

theorem decode_close_sixteen : decode 20 16 0 0 = .close 16 := by
  have hnum : i32 ((20 : Nat) : Int) = 20 := i32_eq (by decide) (by decide)
  have hfd : i32 ((16 : Nat) : Int) = 16 := i32_eq (by decide) (by decide)
  unfold decode
  rw [hnum, hfd]
  rfl

/-- Closing descriptor 16 reads `iotab[16]`, behind the end of the table. -/
theorem sysclose_sixteen_reads_outside :
    Access.iotab 16 ∈
        (syscallHandler (quiet : Kern Unit Unit) 20 16 0 0 ⟨fun _ => none, (), []⟩).2.log ∧
      ¬StaysInside (quiet : Kern Unit Unit) ⟨fun _ => none, (), []⟩ (decode 20 16 0 0) := by
  unfold syscallHandler
  rw [decode_close_sixteen]
  have hlog : Access.iotab 16 ∈
      (handle (quiet : Kern Unit Unit) (.close 16) ⟨fun _ => none, (), []⟩).2.log :=
    List.mem_append_right _ (List.mem_singleton_self _)
  refine ⟨hlog, fun h => ?_⟩
  have : 16 < PROCESS_IOMAX := h.tables _ hlog
  exact absurd this (by decide)

end Sys

end RiscvKernel
