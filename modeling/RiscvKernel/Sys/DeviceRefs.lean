import RiscvKernel.Io.UartRuns
import RiscvKernel.Lib.Refs
import RiscvKernel.Sys.Tables

/-!
# References to devices

Runs of device opens, by the kernel and by `sysdevopen`, of `sysfork`, `sysclose` and process
exits, over all processes: whether the `refcnt` of a device is the number of references to it,
a device with references is up, and one without can be opened.

* `Dev.Counted`: that of one device. `counted_open`, `counted_closes` and `counted_refs` say
  when the drivers keep it.
* `RefsCond`: the condition on a step. A device must not be opened while there are references
  to it, an open must not overwrite a reference, no descriptor of a serial port may be closed,
  and the last reference to the block device neither.
* `device_references_iff`: a run keeps all devices counted if and only if its steps meet it.

A descriptor from 16 to 31 is an access outside of `iotab` (`Sys.Tables`), and not a step.
-/

namespace RiscvKernel

open Lib Uart

namespace Dev

/-! ## One device -/

def IsBlk : Dev → Prop
  | blk _ => True
  | ser _ => False

/-- The device works: the interrupt line is enabled, and the block device is open with a queue
that is ready, the serial port has its receive interrupt enabled. -/
def Up : Dev → Prop
  | blk b => b.opened = true ∧ b.irq = true ∧ b.ready = true
  | ser u => u.irq = true ∧ Enabled IER_DREIE u.ier

/-- A device with `n` references to it. -/
structure Counted (dev : Dev) (n : Nat) : Prop where
  refcnt : dev.refcnt = n
  up : 0 < n → dev.Up
  reopen : n = 0 → dev.open.1 = 0 ∧ dev.open.2.Up

variable {dev : Dev} {n m : Nat}

theorem Counted.congr (h : dev.Counted n) : dev.Counted m ↔ m = n := by
  constructor
  · intro h'
    exact h'.refcnt.symm.trans h.refcnt
  · rintro rfl
    exact h

/-- An open that fails changes nothing. -/
theorem open_eq_of_ne (h : dev.open.1 ≠ 0) : dev.open = (-EBUSY, dev) := by
  cases dev with
  | blk b => exact absurd rfl h
  | ser u =>
    have hbusy : u.refcnt ≠ 0 := fun hfree => h (uartOpen_ok.mpr hfree)
    show ((uartOpen u).1, ser (uartOpen u).2) = _
    rw [uartOpen_of_busy hbusy]

/-- After an open there must be one reference. -/
theorem counted_open (h : dev.Counted n) (hopen : dev.open.1 = 0) :
    dev.open.2.Counted m ↔ m = 1 := by
  have hcounted : dev.open.2.Counted 1 := by
    have hup : dev.open.2.Up := by
      rcases Nat.eq_zero_or_pos n with hn | hn
      · exact (h.reopen hn).2
      · have hup := h.up hn
        cases dev with
        | blk b =>
          show (blk b.vioblkOpen).Up
          unfold BlkPort.vioblkOpen
          dsimp only
          rw [if_pos hup.1]
          exact hup
        | ser u =>
          -- a port with references is busy
          have hrefcnt : u.refcnt = n := h.refcnt
          have hfree := uartOpen_ok.mp hopen
          omega
    refine ⟨?_, fun _ => hup, nofun⟩
    cases dev with
    | blk b =>
      show b.vioblkOpen.refcnt = 1
      unfold BlkPort.vioblkOpen
      dsimp only
      split <;> rfl
    | ser u =>
      show (uartOpen u).2.refcnt = 1
      rw [uartOpen_of_free (uartOpen_ok.mp hopen)]
  exact hcounted.congr

/-- Closing the block device some times, but not as often as it has references. -/
theorem close_iterate_blk {b : BlkPort} {c : Nat} (hc : c < b.refcnt) (hb : b.refcnt < 2 ^ 32) :
    close^[c] (blk b) = blk { b with refcnt := b.refcnt - c } := by
  induction c with
  | zero => rfl
  | succ c ih =>
    rw [Function.iterate_succ_apply', ih (by omega)]
    show blk (BlkPort.vioblkClose _) = _
    unfold BlkPort.vioblkClose
    dsimp only
    rw [u32_eq (n := b.refcnt - (c + 1)) (by omega) (by omega), if_neg (by omega)]

/-- Closing a serial port again changes nothing more. -/
theorem close_iterate_ser {u : Device} (c : Nat) : close^[c + 1] (ser u) = ser (uartClose u) := by
  induction c with
  | zero => rfl
  | succ c ih =>
    rw [Function.iterate_succ_apply', ih]
    rfl

/-- Of a device with `n` references `c` are closed. -/
theorem counted_closes {c : Nat} (h : dev.Counted n) (hc : 0 < c) (hcn : c ≤ n) (hn : n < 2 ^ 32) :
    (close^[c] dev).Counted (n - c) ↔ dev.IsBlk ∧ c < n := by
  have hrefcnt := h.refcnt
  have hup := h.up (by omega)
  cases dev with
  | blk b =>
    have hb : b.refcnt = n := hrefcnt
    rw [and_iff_right (show (blk b).IsBlk from trivial)]
    constructor
    · intro h'
      by_contra hlast
      obtain ⟨k, rfl⟩ : ∃ k, c = k + 1 := ⟨c - 1, by omega⟩
      obtain rfl : n = k + 1 := by omega
      -- the last close resets the queue, and opening does not make it ready again
      have hopen := (h'.reopen (by omega)).2
      rw [Function.iterate_succ_apply', close_iterate_blk (by omega) (by omega), hb] at hopen
      have hclose : (blk { b with refcnt := k + 1 - k }).close =
          blk ⟨0, false, false, false⟩ := by
        show blk (BlkPort.vioblkClose _) = _
        unfold BlkPort.vioblkClose
        dsimp only
        rw [u32_eq (n := 0) (by omega) (by decide), if_pos rfl]
      rw [hclose] at hopen
      exact absurd hopen.2.2 (by decide)
    · intro hlt
      rw [close_iterate_blk (by omega) (by omega), hb]
      exact ⟨rfl, fun _ => hup, by omega⟩
  | ser u =>
    obtain ⟨k, rfl⟩ : ∃ k, c = k + 1 := ⟨c - 1, by omega⟩
    refine iff_of_false (fun h' => ?_) fun h' => h'.1
    rw [close_iterate_ser] at h'
    have hu : u.refcnt = n := hrefcnt
    have hu' : u.refcnt = n - (k + 1) := h'.refcnt
    omega

/-- A device gets `c` references more. -/
theorem counted_refs {c : Nat} (h : dev.Counted n) (hn : 0 < n) (hc : n + c < 2 ^ 32) :
    (ref^[c] dev).Counted (n + c) := by
  induction c with
  | zero => exact h
  | succ c ih =>
    have ih := ih (by omega)
    rw [Function.iterate_succ_apply']
    have hrefcnt : u32 (n + c + 1) = n + (c + 1) := u32_eq (by omega) hc
    generalize ref^[c] dev = dev' at ih
    have hup := ih.up (by omega)
    have hcount := ih.refcnt
    refine ⟨?_, fun _ => ?_, by omega⟩
    · cases dev' with
      | blk b =>
        have hb : b.refcnt = n + c := hcount
        show u32 (b.refcnt + 1) = _
        rw [hb]
        exact_mod_cast hrefcnt
      | ser u =>
        have hu : u.refcnt = n + c := hcount
        show u32 (u.refcnt + 1) = _
        rw [hu]
        exact_mod_cast hrefcnt
    · cases dev' <;> exact hup

end Dev

namespace Sys

/-! ## The machine -/

/-- The `iotab` of every live process, how many references the kernel holds to each device, and
the devices. -/
structure Holders where
  procs : Fin NPROC → Option (Nat → Option Nat)
  kernel : Nat → Nat
  devs : Nat → Dev

inductive HoldEvent where
  /-- The kernel opens a device, and keeps it. -/
  | mount (name : Option Bytes) (instno : Int)
  | devopen (p : Fin NPROC) (fd : Int) (name : Option Bytes) (instno : Int)
  | fork (p : Fin NPROC)
  | close (p : Fin NPROC) (fd : Int)
  | exit (p : Fin NPROC)

/-- The rest of the kernel, for a call with this device name. -/
def devKern (devtab : List DevEntry) (name : Option Bytes) : Kern Nat (Nat → Dev) :=
  { quiet with
    deviceOpen := fun _ instno io devs =>
      let r := RiscvKernel.deviceOpen devtab name instno io devs
      (r.1, r.2, [])
    close := fun d devs => ((), Function.update devs d (devs d).close, [])
    ioref := fun d devs => ((), Function.update devs d (devs d).ref, []) }

instance (fd : Int) : Decidable (Unchecked fd) := inferInstanceAs (Decidable (_ ∧ _))

/-- `sysdevopen` stays inside of `iotab`. -/
def Reaches (iotab : Nat → Option Nat) (fd : Int) : Prop :=
  ¬Unchecked fd ∧ (fd < 0 → ∃ i ∈ searchIotab iotab, i < PROCESS_IOMAX)

instance (iotab : Nat → Option Nat) (fd : Int) : Decidable (Reaches iotab fd) :=
  inferInstanceAs (Decidable (_ ∧ _))

namespace Holders

/-- Process `p` after a call. -/
def settle (s : Holders) (p : Fin NPROC) (st : State Nat (Nat → Dev)) : Holders :=
  { s with procs := Function.update s.procs p (some st.iotab), devs := st.below }

/-- The slot of `proctab` that `sysfork` takes. -/
def freeSlot (s : Holders) : Option (Fin NPROC) :=
  (List.finRange NPROC).find? fun p => (s.procs p).isNone

/-- One step. `none`: the process does not exist, or the kernel panics. -/
def step (devtab : List DevEntry) (s : Holders) : HoldEvent → Option Holders
  | .mount name instno =>
    let r := deviceOpen devtab name instno none s.devs
    if r.1.1 ≠ 0 then none
    else r.1.2.map fun d =>
      { s with kernel := Function.update s.kernel d (s.kernel d + 1), devs := r.2 }
  | .devopen p fd name instno =>
    (s.procs p).bind fun iotab =>
      if Reaches iotab fd then
        some (s.settle p (sysdevopen (devKern devtab name) fd 0 instno ⟨iotab, s.devs, []⟩).2)
      else none
  | .fork p =>
    (s.procs p).bind fun iotab => s.freeSlot.map fun child =>
      { s with
        procs := Function.update s.procs child
          (some fun i => if i < PROCESS_IOMAX then iotab i else none)
        devs := (sysfork (devKern devtab none) ⟨iotab, s.devs, []⟩).2.below }
  | .close p fd =>
    (s.procs p).bind fun iotab =>
      if Unchecked fd then none
      else some (s.settle p (sysclose (devKern devtab none) fd ⟨iotab, s.devs, []⟩).2)
  | .exit p =>
    (s.procs p).map fun iotab =>
      { s with
        procs := Function.update s.procs p none
        devs := (sysexit (devKern devtab none) ⟨iotab, s.devs, []⟩).2.below }

/-- The references of a process. -/
def procRefs : Option (Nat → Option Nat) → Nat → Nat
  | none, _ => 0
  | some iotab, d => refsIn (Finset.range PROCESS_IOMAX) iotab d

/-- The number of references to a device, by descriptors of live processes and the kernel. -/
def refs (s : Holders) (d : Nat) : Nat := s.kernel d + ∑ p, procRefs (s.procs p) d

/-- Every device lives as long as there are references to it. -/
def AllCounted (s : Holders) : Prop := ∀ d, (s.devs d).Counted (s.refs d)

/-- The descriptor that `sysdevopen` works on. -/
def target (iotab : Nat → Option Nat) (fd : Int) : Option Nat :=
  if fd < 0 then searchIotab iotab else if fd < PROCESS_IOMAX then some fd.toNat else none

/-- The device that `device_open` finds. -/
def found (devtab : List DevEntry) (name : Option Bytes) (instno : Int) : Option Nat :=
  (DevTab.openLoop name instno devtab 0 0).bind fun e => DevEntry.device e.2

/-- The condition on a step. -/
def RefsCond (devtab : List DevEntry) (s : Holders) : HoldEvent → Prop
  | .mount name instno =>
    ∀ d ∈ found devtab name instno, (s.devs d).open.1 = 0 → s.refs d = 0
  | .devopen p fd name instno =>
    ∀ iotab ∈ s.procs p, ∀ i ∈ target iotab fd, ∀ d ∈ found devtab name instno,
      (s.devs d).open.1 = 0 →
        (iotab i = none ∧ s.refs d = 0) ∨ (iotab i = some d ∧ s.refs d = 1)
  | .fork _ => True
  | .close p fd =>
    ∀ iotab ∈ s.procs p, 0 ≤ fd → fd < PROCESS_IOMAX → ∀ d ∈ iotab fd.toNat,
      (s.devs d).IsBlk ∧ 1 < s.refs d
  | .exit p =>
    ∀ iotab ∈ s.procs p, ∀ d, 0 < procRefs (some iotab) d →
      (s.devs d).IsBlk ∧ procRefs (some iotab) d < s.refs d

/-! ## Counting -/

variable {s s' : Holders} {p : Fin NPROC} {d : Nat} {devtab : List DevEntry}

theorem refs_update (s : Holders) (p : Fin NPROC) (x : Option (Nat → Option Nat))
    (devs : Nat → Dev) (d : Nat) :
    ({ s with procs := Function.update s.procs p x, devs := devs } : Holders).refs d +
      procRefs (s.procs p) d = s.refs d + procRefs x d := by
  have hcomp : ∀ q, procRefs (Function.update s.procs p x q) d =
      Function.update (fun q => procRefs (s.procs q) d) p (procRefs x d) q :=
    Function.apply_update (fun _ x => procRefs x d) s.procs p x
  have hsum : ∑ q, procRefs (Function.update s.procs p x q) d + procRefs (s.procs p) d =
      ∑ q, procRefs (s.procs q) d + procRefs x d := by
    rw [Finset.sum_congr rfl fun q _ => hcomp q]
    exact sum_update_add Finset.univ (fun q => procRefs (s.procs q) d) (Finset.mem_univ p) _
  show s.kernel d + ∑ q, procRefs (Function.update s.procs p x q) d + _ = s.kernel d + _ + _
  omega

@[simp] theorem procRefs_none (d : Nat) : procRefs none d = 0 := rfl

@[simp] theorem procRefs_empty (d : Nat) : procRefs (some fun _ => none) d = 0 := by
  unfold procRefs refsIn
  exact Finset.sum_eq_zero fun _ _ => rfl

theorem procRefs_congr {iotab iotab' : Nat → Option Nat}
    (h : ∀ i < PROCESS_IOMAX, iotab i = iotab' i) (d : Nat) :
    procRefs (some iotab) d = procRefs (some iotab') d := by
  unfold procRefs refsIn
  refine Finset.sum_congr rfl fun i hi => ?_
  rw [h i (Finset.mem_range.mp hi)]

theorem procRefs_le (x : Option (Nat → Option Nat)) (d : Nat) : procRefs x d ≤ PROCESS_IOMAX := by
  cases x with
  | none => exact Nat.zero_le _
  | some iotab =>
    refine (refsIn_le_card _ iotab d).trans ?_
    rw [Finset.card_range]

theorem procRefs_le_refs (s : Holders) (p : Fin NPROC) (d : Nat) :
    procRefs (s.procs p) d ≤ s.refs d := by
  have := Finset.single_le_sum (f := fun q => procRefs (s.procs q) d)
    (fun _ _ => Nat.zero_le _) (Finset.mem_univ p)
  exact this.trans (Nat.le_add_left _ _)

/-- The number of references is small. -/
theorem refs_le (hkernel : s.kernel d ≤ 1) : s.refs d ≤ 257 := by
  have hsum : ∑ p, procRefs (s.procs p) d ≤ ∑ _p : Fin NPROC, PROCESS_IOMAX :=
    Finset.sum_le_sum fun p _ => procRefs_le _ d
  have hconst : ∑ _p : Fin NPROC, PROCESS_IOMAX = 256 := by decide
  unfold refs
  omega

/-! ## The calls -/

/-- A loop over `iotab` that does `f` to the device of every entry. -/
theorem below_foldl {f : Dev → Dev} {g : State Nat (Nat → Dev) → Nat → State Nat (Nat → Dev)}
    (hnone : ∀ st i, st.iotab i = none → (g st i).below = st.below)
    (hsome : ∀ st i d, st.iotab i = some d →
      (g st i).below = Function.update st.below d (f (st.below d)))
    (hother : ∀ st i j, j ≠ i → (g st i).iotab j = st.iotab j) (st : State Nat (Nat → Dev)) (n : Nat) :
    (∀ d, ((List.range n).foldl g st).below d =
      f^[refsIn (Finset.range n) st.iotab d] (st.below d)) ∧
      ∀ j, n ≤ j → ((List.range n).foldl g st).iotab j = st.iotab j := by
  induction n with
  | zero => exact ⟨fun d => rfl, fun j _ => rfl⟩
  | succ n ih =>
    obtain ⟨ihbelow, ihiotab⟩ := ih
    have hn := ihiotab n le_rfl
    rw [List.range_succ, List.foldl_append]
    show (∀ d, (g ((List.range n).foldl g st) n).below d = _) ∧
      ∀ j, n + 1 ≤ j → (g ((List.range n).foldl g st) n).iotab j = _
    refine ⟨fun d => ?_, fun j hj => ?_⟩
    · have hcount : refsIn (Finset.range (n + 1)) st.iotab d =
          refsIn (Finset.range n) st.iotab d + Lib.refs (st.iotab n) d := Finset.sum_range_succ ..
      rw [hcount]
      cases he : st.iotab n with
      | none =>
        rw [hnone _ _ (hn.trans he), ihbelow d]
        rfl
      | some d' =>
        rw [hsome _ _ _ (hn.trans he), Function.update_apply]
        split
        · next hd =>
          subst hd
          rw [refs_self, Function.iterate_succ_apply', ihbelow]
        · next hd => rw [refs_of_ne (Ne.symm hd), ihbelow d, Nat.add_zero]
    · rw [hother _ _ _ (by omega), ihiotab j (by omega)]

theorem sysexit_below (iotab : Nat → Option Nat) (devs : Nat → Dev) (d : Nat) :
    (sysexit (devKern devtab none) ⟨iotab, devs, []⟩).2.below d =
      Dev.close^[procRefs (some iotab) d] (devs d) := by
  refine (below_foldl (f := Dev.close) (g := closeEntry (devKern devtab none))
    (fun st i h => ?_) (fun st i d h => ?_) (fun st i j h => ?_) _ NPROC).1 d
  · unfold closeEntry
    rw [h]
    rfl
  · unfold closeEntry
    rw [h]
    rfl
  · unfold closeEntry
    split
    · rfl
    · exact Function.update_of_ne h _ _

theorem sysfork_below (iotab : Nat → Option Nat) (devs : Nat → Dev) (d : Nat) :
    (sysfork (devKern devtab none) ⟨iotab, devs, []⟩).2.below d =
      Dev.ref^[procRefs (some iotab) d] (devs d) := by
  refine (below_foldl (f := Dev.ref) (g := refEntry (devKern devtab none))
    (fun st i h => ?_) (fun st i d h => ?_) (fun st i j _ => ?_) _ PROCESS_IOMAX).1 d
  · unfold refEntry
    rw [h]
    rfl
  · unfold refEntry
    rw [h]
    rfl
  · unfold refEntry
    split <;> rfl

theorem openAt_eq {ω β : Type} (opener : Option ω → Op β (Int × Option ω)) (error : Int) (i : Nat)
    (st : State ω β) :
    (openAt opener error i st).2.iotab =
        Function.update st.iotab i (opener (st.iotab i) st.below).1.2 ∧
      (openAt opener error i st).2.below = (opener (st.iotab i) st.below).2.1 := by
  unfold openAt
  dsimp only
  split <;> exact ⟨rfl, rfl⟩

/-- What `sysdevopen` does. -/
theorem sysdevopen_eq (devtab : List DevEntry) {iotab : Nat → Option Nat} {fd : Int} (hreach : Reaches iotab fd)
    (name : Option Bytes) (instno : Int) (devs : Nat → Dev) :
    let st := (sysdevopen (devKern devtab name) fd 0 instno ⟨iotab, devs, []⟩).2
    (target iotab fd = none ∧ st.iotab = iotab ∧ st.below = devs) ∨
      ∃ i, target iotab fd = some i ∧ i < PROCESS_IOMAX ∧
        st.iotab = Function.update iotab i (deviceOpen devtab name instno (iotab i) devs).1.2 ∧
        st.below = (deviceOpen devtab name instno (iotab i) devs).2 := by
  obtain ⟨hchecked, hsearch⟩ := hreach
  have hlarge : (MAX_OPEN_FILE_CT : Int) = 32 := rfl
  have hsmall : (PROCESS_IOMAX : Int) = 16 := rfl
  unfold Unchecked at hchecked
  dsimp only
  unfold target sysdevopen
  rcases lt_or_ge fd 0 with hneg | hpos
  · obtain ⟨i, hi, hlt⟩ := hsearch hneg
    have hfind : searchIotab iotab = some i := hi
    rw [onDescriptorOrSearch_of_found rfl hneg hfind, if_pos hneg]
    exact Or.inr ⟨i, hfind, hlt, openAt_eq _ _ _ _⟩
  · rw [if_neg (by omega)]
    rcases lt_or_ge fd 16 with hin | hout
    · rw [onDescriptorOrSearch_of_in rfl hpos (by omega), if_pos (by omega)]
      exact Or.inr ⟨fd.toNat, rfl, by omega, openAt_eq _ _ _ _⟩
    · rw [onDescriptorOrSearch_of_out (by omega), if_neg (by omega)]
      exact Or.inl ⟨rfl, rfl, rfl⟩

/-- What `sysclose` does. -/
theorem sysclose_eq (devtab : List DevEntry) {fd : Int} (hchecked : ¬Unchecked fd) (iotab : Nat → Option Nat)
    (devs : Nat → Dev) :
    let st := (sysclose (devKern devtab none) fd ⟨iotab, devs, []⟩).2
    ((0 ≤ fd → fd < PROCESS_IOMAX → iotab fd.toNat = none) ∧ st.iotab = iotab ∧ st.below = devs) ∨
      ∃ d, 0 ≤ fd ∧ fd < PROCESS_IOMAX ∧ iotab fd.toNat = some d ∧
        st.iotab = Function.update iotab fd.toNat none ∧
        st.below = Function.update devs d (devs d).close := by
  have hlarge : (MAX_OPEN_FILE_CT : Int) = 32 := rfl
  have hsmall : (PROCESS_IOMAX : Int) = 16 := rfl
  unfold Unchecked at hchecked
  dsimp only
  unfold sysclose
  by_cases hin : 0 ≤ fd ∧ fd < PROCESS_IOMAX
  · have hnote : ∀ a, (State.note ⟨iotab, devs, []⟩ a : State Nat (Nat → Dev)).iotab = iotab :=
      fun _ => rfl
    rw [onDescriptor_of_in rfl hin.1 (by omega)]
    unfold onIo
    rw [hnote]
    cases he : iotab fd.toNat with
    | none => exact Or.inl ⟨fun _ _ => rfl, rfl, rfl⟩
    | some d => exact Or.inr ⟨d, hin.1, hin.2, rfl, rfl, rfl⟩
  · rw [onDescriptor_of_out (by omega)]
    exact Or.inl ⟨fun h₀ h => absurd ⟨h₀, h⟩ hin, rfl, rfl⟩

/-! ## Steps -/

/-- The invariant of the runs that meet the condition. -/
structure Inv (s : Holders) : Prop where
  counted : s.AllCounted
  kernel : ∀ d, s.kernel d ≤ 1

/-- Nothing changes. -/
theorem settle_self {iotab : Nat → Option Nat} (hp : s.procs p = some iotab)
    {st : State Nat (Nat → Dev)} (hiotab : st.iotab = iotab) (hbelow : st.below = s.devs) :
    s.settle p st = s := by
  unfold settle
  rw [hiotab, hbelow, ← hp, Function.update_eq_self]

/-- `device_open` fails and changes nothing, or opens the device that it finds. -/
theorem deviceOpen_cases (devtab : List DevEntry) (name : Option Bytes) (instno : Int) (io : Option Nat)
    (devs : Nat → Dev) :
    ((∀ d ∈ found devtab name instno, (devs d).open.1 ≠ 0) ∧
        (deviceOpen devtab name instno io devs).1.1 ≠ 0 ∧
        (deviceOpen devtab name instno io devs).1.2 = io ∧
        (deviceOpen devtab name instno io devs).2 = devs) ∨
      ∃ d, found devtab name instno = some d ∧ (devs d).open.1 = 0 ∧
        deviceOpen devtab name instno io devs =
          ((0, some d), Function.update devs d (devs d).open.2) := by
  unfold found deviceOpen DevTab.deviceOpen
  match DevTab.openLoop name instno devtab 0 0 with
  | none => exact Or.inl ⟨nofun, (by decide : -ENODEV ≠ 0), rfl, rfl⟩
  | some (_, ⟨_, none, _⟩) => exact Or.inl ⟨nofun, (by decide : -EBUSY ≠ 0), rfl, rfl⟩
  | some (_, ⟨_, some .uartOpenEbusy, _⟩) =>
    exact Or.inl ⟨nofun, (by decide : -EBUSY ≠ 0), rfl, rfl⟩
  | some (_, ⟨_, some .driver, none⟩) => exact Or.inl ⟨nofun, (by decide : -EBUSY ≠ 0), rfl, rfl⟩
  | some (_, ⟨_, some .driver, some d⟩) =>
    dsimp only [Option.bind_some, DevEntry.device, openResult]
    by_cases hopen : (devs d).open.1 = 0
    · refine Or.inr ⟨d, rfl, hopen, ?_⟩
      rw [hopen]
      rfl
    · rw [Dev.open_eq_of_ne hopen, Function.update_eq_self]
      refine Or.inl ⟨fun d' hd' => ?_, (by decide : -EBUSY ≠ 0), rfl, rfl⟩
      obtain rfl := Option.some.inj hd'
      exact hopen

/-- Entry `i` of a process is overwritten. -/
theorem refs_settle {iotab : Nat → Option Nat} (hp : s.procs p = some iotab) {i : Nat}
    (hi : i < PROCESS_IOMAX) {st : State Nat (Nat → Dev)} {e : Option Nat}
    (hiotab : st.iotab = Function.update iotab i e) (x : Nat) :
    (s.settle p st).refs x + Lib.refs (iotab i) x = s.refs x + Lib.refs e x := by
  have hupdate : (s.settle p st).refs x + _ = _ := refs_update s p (some st.iotab) st.below x
  have hrow : procRefs (some (Function.update iotab i e)) x + Lib.refs (iotab i) x =
      procRefs (some iotab) x + Lib.refs e x := refsIn_update (Finset.mem_range.mpr hi) e x
  rw [hp, hiotab] at hupdate
  omega

/-- An open of device `d` over the entry `e`. -/
theorem allCounted_open (h : s.AllCounted) {e : Option Nat} (hopen : (s.devs d).open.1 = 0)
    (hdevs : s'.devs = Function.update s.devs d (s.devs d).open.2)
    (hrefs : ∀ x, s'.refs x + Lib.refs e x = s.refs x + Lib.refs (some d) x) :
    s'.AllCounted ↔ (e = none ∧ s.refs d = 0) ∨ (e = some d ∧ s.refs d = 1) := by
  have hself : s'.devs d = (s.devs d).open.2 := by rw [hdevs, Function.update_self]
  have hother : ∀ x, x ≠ d → s'.devs x = s.devs x := fun x hx => by
    rw [hdevs, Function.update_of_ne hx]
  have hd := hrefs d
  rw [refs_self] at hd
  constructor
  · intro hall
    have hone : s'.refs d = 1 := by
      have := hall d
      rw [hself, Dev.counted_open (h d) hopen] at this
      exact this
    cases e with
    | none =>
      rw [refs_none] at hd
      exact Or.inl ⟨rfl, by omega⟩
    | some d' =>
      by_cases hd' : d' = d
      · subst hd'
        rw [refs_self] at hd
        exact Or.inr ⟨rfl, by omega⟩
      · -- the device of the old entry has lost a reference
        have hcount := hall d'
        rw [hother d' hd', (h d').congr] at hcount
        have := hrefs d'
        rw [refs_self, refs_of_ne (Ne.symm hd')] at this
        omega
  · intro hcond x
    have hx := hrefs x
    by_cases hxd : x = d
    · subst hxd
      rw [hself, Dev.counted_open (h x) hopen]
      rcases hcond with ⟨rfl, h0⟩ | ⟨rfl, h1⟩
      · rw [refs_none] at hd
        omega
      · rw [refs_self] at hd
        omega
    · rw [hother x hxd, (h x).congr]
      have he : Lib.refs e x = 0 := by
        rcases hcond with ⟨rfl, -⟩ | ⟨rfl, -⟩
        · rfl
        · exact refs_of_ne (Ne.symm hxd)
      rw [he, refs_of_ne (Ne.symm hxd)] at hx
      omega

theorem mount_iff (h : s.Inv) {name : Option Bytes} {instno : Int}
    (hstep : s.step devtab (.mount name instno) = some s') :
    RefsCond devtab s (.mount name instno) ↔ s'.AllCounted := by
  obtain ⟨hok, hs⟩ := Option.ite_none_left_eq_some.mp hstep
  obtain ⟨-, hfail, -⟩ | ⟨d, hfound, hopen, heq⟩ :=
    deviceOpen_cases devtab name instno none s.devs
  · exact absurd hfail hok
  · rw [heq] at hs
    obtain rfl := Option.some.inj hs
    have hkernel : ∀ x, Function.update s.kernel d (s.kernel d + 1) x =
        s.kernel x + Lib.refs (some d) x := by
      intro x
      rw [Function.update_apply]
      split
      · next hx => rw [hx, refs_self]
      · next hx => rw [refs_of_ne (Ne.symm hx), Nat.add_zero]
    rw [allCounted_open (e := none) h.counted hopen rfl]
    · show (∀ d' ∈ found devtab name instno, _) ↔ _
      rw [hfound]
      constructor
      · exact fun hc => Or.inl ⟨rfl, hc d rfl hopen⟩
      · rintro (⟨-, h0⟩ | ⟨h, -⟩) d' hd' -
        · obtain rfl := Option.some.inj hd'
          exact h0
        · cases h
    · intro x
      rw [refs_none, Nat.add_zero]
      show Function.update s.kernel d (s.kernel d + 1) x + ∑ q, procRefs (s.procs q) x =
        s.kernel x + ∑ q, procRefs (s.procs q) x + _
      rw [hkernel]
      omega

theorem devopen_iff (h : s.Inv) {fd : Int} {name : Option Bytes} {instno : Int}
    (hstep : s.step devtab (.devopen p fd name instno) = some s') :
    RefsCond devtab s (.devopen p fd name instno) ↔ s'.AllCounted := by
  obtain ⟨iotab, hp, hs⟩ := Option.bind_eq_some_iff.mp hstep
  obtain ⟨hreach, hs⟩ := Option.ite_none_right_eq_some.mp hs
  obtain rfl := Option.some.inj hs
  -- the condition on the one descriptor and device that there are
  have hcond : RefsCond devtab s (.devopen p fd name instno) ↔
      ∀ i ∈ target iotab fd, ∀ d ∈ found devtab name instno, (s.devs d).open.1 = 0 →
        (iotab i = none ∧ s.refs d = 0) ∨ (iotab i = some d ∧ s.refs d = 1) := by
    show (∀ iotab' ∈ s.procs p, _) ↔ _
    rw [hp]
    exact ⟨fun hc => hc iotab rfl, fun hc iotab' hi => by
      obtain rfl := Option.some.inj hi
      exact hc⟩
  rw [hcond]
  obtain ⟨hnone, hiotab, hbelow⟩ | ⟨i, htarget, hi, hiotab, hbelow⟩ :=
    sysdevopen_eq devtab hreach name instno s.devs
  · rw [settle_self hp hiotab hbelow, hnone]
    exact iff_of_true nofun h.counted
  · rw [htarget]
    obtain ⟨hno, -, hio, hsame⟩ | ⟨d, hfound, hopen, heq⟩ :=
      deviceOpen_cases devtab name instno (iotab i) s.devs
    · rw [hio, Function.update_eq_self] at hiotab
      rw [settle_self hp hiotab (hbelow.trans hsame)]
      exact iff_of_true (fun _ _ d hd hopen => absurd hopen (hno d hd)) h.counted
    · rw [heq] at hiotab hbelow
      rw [allCounted_open (e := iotab i) h.counted hopen hbelow]
      · rw [hfound]
        constructor
        · exact fun hc => hc i rfl d rfl hopen
        · rintro hc i' hi' d' hd' -
          obtain rfl := Option.some.inj hi'
          obtain rfl := Option.some.inj hd'
          exact hc
      · intro x
        exact refs_settle hp hi hiotab x

theorem fork_counted (h : s.Inv) (hstep : s.step devtab (.fork p) = some s') : s'.AllCounted := by
  obtain ⟨iotab, hp, hs⟩ := Option.bind_eq_some_iff.mp hstep
  obtain ⟨child, hchild, rfl⟩ := Option.map_eq_some_iff.mp hs
  have hfree : s.procs child = none := by
    have := List.find?_some hchild
    simpa using this
  intro d
  have hrefs := refs_update s child (some fun i => if i < PROCESS_IOMAX then iotab i else none)
    (sysfork (devKern devtab none) ⟨iotab, s.devs, []⟩).2.below d
  rw [hfree, procRefs_none, Nat.add_zero, procRefs_congr (fun i hi => if_pos hi)] at hrefs
  rw [hrefs]
  show ((sysfork (devKern devtab none) ⟨iotab, s.devs, []⟩).2.below d).Counted _
  rw [sysfork_below]
  rcases Nat.eq_zero_or_pos (procRefs (some iotab) d) with h0 | hpos
  · rw [h0, Nat.add_zero]
    exact h.counted d
  · have hle := procRefs_le_refs s p d
    have hbound := refs_le (h.kernel d)
    have hrow := procRefs_le (some iotab) d
    have : PROCESS_IOMAX = 16 := rfl
    rw [hp] at hle
    exact Dev.counted_refs (h.counted d) (by omega) (by omega)

/-- Some references to every device are closed. -/
theorem allCounted_closes (h : s.Inv) {c : Nat → Nat}
    (hdevs : ∀ d, s'.devs d = Dev.close^[c d] (s.devs d))
    (hrefs : ∀ d, s'.refs d + c d = s.refs d) :
    s'.AllCounted ↔ ∀ d, 0 < c d → (s.devs d).IsBlk ∧ c d < s.refs d := by
  refine forall_congr' fun d => ?_
  have hd := hrefs d
  have hbound := refs_le (h.kernel d)
  rw [hdevs, show s'.refs d = s.refs d - c d by omega]
  rcases Nat.eq_zero_or_pos (c d) with h0 | hpos
  · rw [h0]
    exact iff_of_true (h.counted d) nofun
  · rw [Dev.counted_closes (h.counted d) hpos (by omega) (by omega), forall_prop_of_true hpos]

theorem close_iff (h : s.Inv) {fd : Int} (hstep : s.step devtab (.close p fd) = some s') :
    RefsCond devtab s (.close p fd) ↔ s'.AllCounted := by
  obtain ⟨iotab, hp, hs⟩ := Option.bind_eq_some_iff.mp hstep
  obtain ⟨hchecked, hs⟩ := Option.ite_none_left_eq_some.mp hs
  obtain rfl := Option.some.inj hs
  have hcond : RefsCond devtab s (.close p fd) ↔ (0 ≤ fd → fd < PROCESS_IOMAX →
      ∀ d ∈ iotab fd.toNat, (s.devs d).IsBlk ∧ 1 < s.refs d) := by
    show (∀ iotab' ∈ s.procs p, _) ↔ _
    rw [hp]
    exact ⟨fun hc => hc iotab rfl, fun hc iotab' hi => by
      obtain rfl := Option.some.inj hi
      exact hc⟩
  rw [hcond]
  obtain ⟨hnone, hiotab, hbelow⟩ | ⟨d, h₀, hlt, he, hiotab, hbelow⟩ :=
    sysclose_eq devtab hchecked iotab s.devs
  · rw [settle_self hp hiotab hbelow]
    refine iff_of_true (fun h₀ hlt d hd => ?_) h.counted
    rw [hnone h₀ hlt] at hd
    cases hd
  · rw [allCounted_closes h (c := Lib.refs (some d))]
    · rw [forall_prop_of_true h₀, forall_prop_of_true hlt, he]
      constructor
      · intro hc x hx
        have hxd : x = d := by
          by_contra hne
          rw [refs_of_ne (Ne.symm hne)] at hx
          omega
        subst hxd
        rw [refs_self]
        exact hc x rfl
      · intro hc x hx
        obtain rfl := Option.some.inj hx
        have := hc d
        rw [refs_self] at this
        exact this Nat.one_pos
    · intro x
      show (sysclose (devKern devtab none) fd ⟨iotab, s.devs, []⟩).2.below x = _
      rw [hbelow, Function.update_apply]
      split
      · next hx =>
        subst hx
        rw [refs_self]
        rfl
      · next hx => rw [refs_of_ne (Ne.symm hx)]; rfl
    · intro x
      have hi : fd.toNat < PROCESS_IOMAX := by omega
      have := refs_settle hp hi hiotab x
      rwa [he, refs_none, Nat.add_zero] at this

theorem exit_iff (h : s.Inv) (hstep : s.step devtab (.exit p) = some s') :
    RefsCond devtab s (.exit p) ↔ s'.AllCounted := by
  obtain ⟨iotab, hp, rfl⟩ := Option.map_eq_some_iff.mp hstep
  rw [allCounted_closes h (c := procRefs (some iotab)) (fun d => sysexit_below iotab s.devs d)]
  · show (∀ iotab' ∈ s.procs p, _) ↔ _
    rw [hp]
    exact ⟨fun hc => hc iotab rfl, fun hc iotab' hi => by
      obtain rfl := Option.some.inj hi
      exact hc⟩
  · intro d
    have hupdate := refs_update s p none
      (sysexit (devKern devtab none) ⟨iotab, s.devs, []⟩).2.below d
    rwa [hp, procRefs_none, Nat.add_zero] at hupdate

theorem step_iff (h : s.Inv) {e : HoldEvent} (hstep : s.step devtab e = some s') :
    RefsCond devtab s e ↔ s'.AllCounted := by
  cases e with
  | mount name instno => exact mount_iff h hstep
  | devopen p fd name instno => exact devopen_iff h hstep
  | fork p => exact iff_of_true trivial (fork_counted h hstep)
  | close p fd => exact close_iff h hstep
  | exit p => exact exit_iff h hstep

/-- The kernel holds at most one reference, since it opens only what is not open. -/
theorem step_kernel (h : s.Inv) {e : HoldEvent} (hcond : RefsCond devtab s e)
    (hstep : s.step devtab e = some s') (d : Nat) : s'.kernel d ≤ 1 := by
  cases e with
  | mount name instno =>
    obtain ⟨hok, hs⟩ := Option.ite_none_left_eq_some.mp hstep
    obtain ⟨-, hfail, -⟩ | ⟨d', hfound, hopen, heq⟩ :=
      deviceOpen_cases devtab name instno none s.devs
    · exact absurd hfail hok
    · rw [heq] at hs
      obtain rfl := Option.some.inj hs
      have hzero : s.refs d' = 0 := hcond d' hfound hopen
      unfold refs at hzero
      show Function.update s.kernel d' (s.kernel d' + 1) d ≤ 1
      rw [Function.update_apply]
      split
      · omega
      · exact h.kernel d
  | devopen p fd name instno =>
    obtain ⟨iotab, -, hs⟩ := Option.bind_eq_some_iff.mp hstep
    obtain ⟨-, hs⟩ := Option.ite_none_right_eq_some.mp hs
    obtain rfl := Option.some.inj hs
    exact h.kernel d
  | fork p =>
    obtain ⟨iotab, -, hs⟩ := Option.bind_eq_some_iff.mp hstep
    obtain ⟨child, -, rfl⟩ := Option.map_eq_some_iff.mp hs
    exact h.kernel d
  | close p fd =>
    obtain ⟨iotab, -, hs⟩ := Option.bind_eq_some_iff.mp hstep
    obtain ⟨-, hs⟩ := Option.ite_none_left_eq_some.mp hs
    obtain rfl := Option.some.inj hs
    exact h.kernel d
  | exit p =>
    obtain ⟨iotab, -, rfl⟩ := Option.map_eq_some_iff.mp hstep
    exact h.kernel d

/-! ## Runs -/

/-- A device that the driver has attached to. -/
def Attached : Dev → Prop
  | .blk b => b = .attached
  | .ser u => u.refcnt = 0

/-- `MAIN_PID` -/
def MAIN_PID : Fin NPROC := ⟨0, by decide⟩

/-- The kernel after the drivers have attached to the devices: one process, without open
descriptors. -/
def booted (devs : Nat → Dev) : Holders where
  procs p := if p = MAIN_PID then some fun _ => none else none
  kernel _ := 0
  devs := devs

theorem Attached.counted {dev : Dev} (h : Attached dev) : dev.Counted 0 := by
  cases dev with
  | blk b =>
    obtain rfl : b = .attached := h
    exact ⟨rfl, nofun, fun _ => ⟨rfl, rfl, rfl, rfl⟩⟩
  | ser u =>
    refine ⟨h, nofun, fun _ => ⟨uartOpen_ok.mpr h, ?_⟩⟩
    show (Dev.ser (uartOpen u).2).Up
    rw [uartOpen_of_free h]
    exact ⟨rfl, (by decide : IER_DREIE &&& IER_DREIE ≠ 0)⟩

theorem booted_inv {devs : Nat → Dev} (h : ∀ d, Attached (devs d)) : (booted devs).Inv := by
  refine ⟨fun d => ?_, fun _ => Nat.zero_le _⟩
  have hrefs : (booted devs).refs d = 0 := by
    show 0 + ∑ p, procRefs ((booted devs).procs p) d = 0
    rw [Nat.zero_add]
    refine Finset.sum_eq_zero fun p _ => ?_
    show procRefs (if p = MAIN_PID then _ else _) d = 0
    split
    · exact procRefs_empty d
    · exact procRefs_none d
  rw [hrefs]
  exact (h d).counted

/-- **Devices live as long as they are referenced.** From boot on, every run of opens by the
kernel and by processes, of forks, closes and exits keeps all devices counted if and only if
its steps meet `RefsCond`. -/
theorem device_references_iff {devs : Nat → Dev} (hdevs : ∀ d, Attached (devs d))
    {es : List HoldEvent} (hrun : runs (step devtab) (booted devs) es = some s) :
    Throughout (step devtab) AllCounted (booted devs) es ↔
      Steps (step devtab) (RefsCond devtab) (booted devs) es :=
  throughout_iff_steps (fun _ h => h.counted)
    (fun _ _ _ h hcond hstep => ⟨(step_iff h hstep).mp hcond, step_kernel h hcond hstep⟩)
    (fun _ _ _ h hcond hstep hall => hcond ((step_iff h hstep).mpr hall))
    (booted_inv hdevs) hrun

/-- `"ser"` and `"blk"` -/
def serName : Option Bytes := some [115, 101, 114]

def blkName : Option Bytes := some [98, 108, 107]

/-- The devices of `main.c`: a block device, the console port, and a serial port. -/
def mainTab : List DevEntry :=
  [⟨serName, some .uartOpenEbusy, none⟩, ⟨serName, some .driver, some 1⟩,
    ⟨blkName, some .driver, some 0⟩]

def mainDevs : Nat → Dev
  | 0 => .blk .attached
  | _ => .ser Port.closedPort

theorem mainDevs_attached (d : Nat) : Attached (mainDevs d) := by
  match d with
  | 0 => rfl
  | _ + 1 => rfl

/-- The file system is mounted, a process opens the serial port and forks. -/
theorem device_references_fork : ∃ s, runs (step mainTab) (booted mainDevs)
      [.mount blkName 0, .devopen MAIN_PID 0 serName 1, .fork MAIN_PID] = some s ∧
    (Throughout (step mainTab) AllCounted (booted mainDevs)
        [.mount blkName 0, .devopen MAIN_PID 0 serName 1, .fork MAIN_PID] ↔
      Steps (step mainTab) (RefsCond mainTab) (booted mainDevs)
        [.mount blkName 0, .devopen MAIN_PID 0 serName 1, .fork MAIN_PID]) := by
  obtain ⟨s, hs⟩ : ∃ s, runs (step mainTab) (booted mainDevs)
    [.mount blkName 0, .devopen MAIN_PID 0 serName 1, .fork MAIN_PID] = some s := ⟨_, rfl⟩
  exact ⟨s, hs, device_references_iff mainDevs_attached hs⟩

/-- The file system is mounted, and a process opens and closes the block device: it is shut
down although the file system holds it. -/
theorem closed_under_the_file_system : ∃ s, runs (step mainTab) (booted mainDevs)
      [.mount blkName 0, .devopen MAIN_PID 0 blkName 0, .close MAIN_PID 0] = some s ∧
    s.kernel 0 = 1 ∧ s.devs 0 = .blk ⟨0, false, false, false⟩ ∧ ¬s.AllCounted := by
  obtain ⟨s, hs⟩ : ∃ s, runs (step mainTab) (booted mainDevs)
    [.mount blkName 0, .devopen MAIN_PID 0 blkName 0, .close MAIN_PID 0] = some s := ⟨_, rfl⟩
  have hdev : s.devs 0 = .blk ⟨0, false, false, false⟩ := by
    obtain rfl := Option.some.inj hs
    show Dev.blk (BlkPort.vioblkClose ⟨1, true, true, true⟩) = _
    unfold BlkPort.vioblkClose
    dsimp only
    rw [u32_eq (n := 0) (by decide) (by decide), if_pos rfl]
  have hkernel : s.kernel 0 = 1 := by
    obtain rfl := Option.some.inj hs
    rfl
  refine ⟨s, hs, hkernel, hdev, fun hall => ?_⟩
  have hcounted := (hall 0).refcnt
  rw [hdev] at hcounted
  have hrefs : 1 ≤ s.refs 0 := by
    unfold refs
    omega
  have : s.refs 0 = 0 := hcounted.symm
  omega

end Holders

end Sys

end RiscvKernel
