import RiscvKernel.Fs.Kfs
import RiscvKernel.Io.Device
import RiscvKernel.Memory.Sv39
import RiscvKernel.Thread.Machine

/-!
# System calls

`syscall.c`: the handlers, and `syscall_handler`, which calls them with the registers of the
caller. A handler works on the `iotab` of the process of the running thread and calls the rest
of the kernel (`Kern`). Every access to `iotab` and to `thrtab`, and every access to memory
through a pointer of the caller, is noted.

`iotab` is an array at the end of `struct process`. Here it is a function on all indices: the
entries from `PROCESS_IOMAX` on are whatever lies behind it in memory.
-/

namespace RiscvKernel

open Lib Kfs Thread

def EACCESS : Int := 8

/-- `PROCESS_IOMAX` -/
def PROCESS_IOMAX : Nat := 16

/-- `NPROC` -/
def NPROC : Nat := 16

namespace Sys

/-! ## The state and the rest of the kernel -/

/-- An access that a system call makes: to an entry of `iotab` or `thrtab`, or to a byte of
memory through a pointer that is an argument. -/
inductive Access where
  | iotab (i : Nat)
  | thrtab (i : Int)
  | load (va : Nat)
  | store (va : Nat)
  deriving DecidableEq

/-- The accesses of the functions that the handlers call. Their loops over `thrtab` stay
inside. -/
inductive Touch where
  | slot (tid : Fin NTHR)
  | load (va : Nat)
  | store (va : Nat)

def Touch.access : Touch → Access
  | .slot tid => .thrtab (tid.val : Int)
  | .load va => .load va
  | .store va => .store va

variable {ω β α : Type}

/-- A function of the rest of the kernel, whose state is `β`: what it returns, the new state,
and what it touches. -/
abbrev Op (β α : Type) := β → α × β × List Touch

/-- `iotab` of the process that makes the call, with io objects `ω`; the state of the rest of
the kernel; and the accesses so far. -/
structure State (ω β : Type) where
  iotab : Nat → Option ω
  below : β
  log : List Access

/-- What `syscall.c` uses of the rest of the kernel. A result `none` is a call that does not
return. -/
structure Kern (ω β : Type) where
  /-- `running_thread()` -/
  runningThread : β → Int
  /-- `thrtab[tid]->proc != NULL` for the running thread -/
  hasProcess : β → Bool
  /-- `memory_validate_vptr_len(vp, len, flags) == 0` -/
  validateVptrLen : (vp len : Nat) → BitVec 8 → β → Bool
  /-- `kprintf` of a message -/
  kprintf : (msg : Nat) → Op β Unit
  /-- `device_open(&io, name, instno)`, with what `io` was and becomes -/
  deviceOpen : (name : Nat) → (instno : Int) → Option ω → Op β (Int × Option ω)
  /-- `fs_open(name, &io)` -/
  fsOpen : (name : Nat) → Option ω → Op β (Int × Option ω)
  /-- `io->ops->close(io)` -/
  close : ω → Op β Unit
  /-- `io->refcnt++` -/
  ioref : ω → Op β Unit
  ioread : ω → (buf bufsz : Nat) → Op β Int
  iowrite : ω → (buf len : Nat) → Op β Int
  ioctl : ω → (cmd : Int) → (arg : Nat) → Op β Int
  processExec : ω → Op β (Option Int)
  /-- `memory_space_reclaim` -/
  reclaim : Op β Unit
  /-- the end of `process_exit` -/
  threadExit : Op β Unit
  /-- the rest of `sysfork`, with the `iotab` of the child -/
  forkToUser : (Fin PROCESS_IOMAX → Option ω) → Op β (Option Int)
  /-- `thread_join` after its range check -/
  threadJoin : Fin NTHR → Op β (Option Int)
  threadJoinAny : Op β (Option Int)
  usleep : (us : Nat) → Op β Unit

/-- A rest of the kernel that does nothing: it has a process, and what can fail fails. -/
def quiet : Kern ω β where
  runningThread _ := 0
  hasProcess _ := true
  validateVptrLen _ _ _ _ := true
  kprintf _ b := ((), b, [])
  deviceOpen _ _ io b := ((-ENODEV, io), b, [])
  fsOpen _ io b := ((-ENOENT, io), b, [])
  close _ b := ((), b, [])
  ioref _ b := ((), b, [])
  ioread _ _ _ b := (-ENOTSUP, b, [])
  iowrite _ _ _ b := (-ENOTSUP, b, [])
  ioctl _ _ _ b := (-ENOTSUP, b, [])
  processExec _ b := (some (-1), b, [])
  reclaim b := ((), b, [])
  threadExit b := ((), b, [])
  forkToUser _ b := (some 1, b, [])
  threadJoin _ b := (some (-1), b, [])
  threadJoinAny b := (some (-1), b, [])
  usleep _ b := ((), b, [])

/-- What a handler does: what it returns, `none` if it does not, and the new state. -/
abbrev Handler (ω β : Type) := State ω β → Option Int × State ω β

namespace State

def note (s : State ω β) (a : Access) : State ω β := { s with log := s.log ++ [a] }

/-- Read entries of `iotab`. -/
def noteIotab (s : State ω β) (is : List Nat) : State ω β :=
  { s with log := s.log ++ is.map .iotab }

/-- `iotab[i] = io` -/
def setIotab (s : State ω β) (i : Nat) (io : Option ω) : State ω β :=
  { s with iotab := Function.update s.iotab i io, log := s.log ++ [.iotab i] }

/-- Call a function of the rest of the kernel. -/
def run (s : State ω β) (op : Op β α) : α × State ω β :=
  ((op s.below).1,
    { s with below := (op s.below).2.1, log := s.log ++ (op s.below).2.2.map Touch.access })

end State

/-! ## What is true of all accesses -/

/-- Every access meets `P`. -/
def AllIn (P : Access → Prop) (log : List Access) : Prop := ∀ a ∈ log, P a

section AllIn

variable {P : Access → Prop} {s : State ω β}

@[simp] theorem allIn_nil : AllIn P [] := by simp [AllIn]

theorem allIn_append {l l' : List Access} : AllIn P (l ++ l') ↔ AllIn P l ∧ AllIn P l' := by
  simp only [AllIn, List.mem_append, or_imp, forall_and]

@[simp] theorem allIn_note {a : Access} : AllIn P (s.note a).log ↔ AllIn P s.log ∧ P a := by
  unfold State.note
  rw [allIn_append]
  simp [AllIn]

@[simp] theorem allIn_setIotab {i : Nat} {io : Option ω} :
    AllIn P (s.setIotab i io).log ↔ AllIn P s.log ∧ P (.iotab i) := by
  unfold State.setIotab
  rw [allIn_append]
  simp [AllIn]

theorem allIn_noteIotab {is : List Nat} :
    AllIn P (s.noteIotab is).log ↔ AllIn P s.log ∧ ∀ i ∈ is, P (.iotab i) := by
  unfold State.noteIotab
  rw [allIn_append]
  simp [AllIn]

theorem allIn_run {op : Op β α} :
    AllIn P (s.run op).2.log ↔ AllIn P s.log ∧ ∀ t ∈ (op s.below).2.2, P t.access := by
  unfold State.run
  rw [allIn_append]
  simp [AllIn]

end AllIn

/-! ## The handlers -/

/-- `current_process()`: looks up the running thread in `thrtab`. -/
def currentProcess (k : Kern ω β) (s : State ω β) : Bool × State ω β :=
  (k.hasProcess s.below, s.note (.thrtab (k.runningThread s.below)))

/-- The checks of `sysclose`, `sysread`, `syswrite` and `sysexec`. -/
def onDescriptor (k : Kern ω β) (fd : Int) (body : Nat → Handler ω β) : Handler ω β := fun s =>
  let (proc, s) := currentProcess k s
  if proc = false then (some (-ENOENT), s)
  else if fd < 0 ∨ (MAX_OPEN_FILE_CT : Int) ≤ fd then (some (-ENOENT), s)
  else body fd.toNat s

/-- The loop for a negative descriptor: the first entry that is not null. -/
def searchIotab (iotab : Nat → Option ω) : Option Nat :=
  (List.range MAX_OPEN_FILE_CT).find? fun i => (iotab i).isSome

/-- The checks of `sysdevopen`, `sysfsopen` and `sysioctl`. -/
def onDescriptorOrSearch (k : Kern ω β) (fd : Int) (body : Nat → Handler ω β) : Handler ω β :=
  fun s =>
    let (proc, s) := currentProcess k s
    if proc = false then (some (-ENOENT), s)
    else if (MAX_OPEN_FILE_CT : Int) ≤ fd then (some (-ENOENT), s)
    else if fd < 0 then
      match searchIotab s.iotab with
      | none => (some (-ENOENT), s.noteIotab (List.range MAX_OPEN_FILE_CT))
      | some i => body i (s.noteIotab (List.range (i + 1)))
    else body fd.toNat s

section Checks

variable {k : Kern ω β} {s : State ω β} {fd : Int} {body : Nat → Handler ω β}

theorem onDescriptor_of_out (h : fd < 0 ∨ (MAX_OPEN_FILE_CT : Int) ≤ fd) :
    onDescriptor k fd body s = (some (-ENOENT), s.note (.thrtab (k.runningThread s.below))) := by
  unfold onDescriptor currentProcess
  dsimp only
  rw [if_pos h, ite_self]

theorem onDescriptor_of_in (hproc : k.hasProcess s.below = true) (h₀ : 0 ≤ fd)
    (h : fd < (MAX_OPEN_FILE_CT : Int)) :
    onDescriptor k fd body s = body fd.toNat (s.note (.thrtab (k.runningThread s.below))) := by
  unfold onDescriptor currentProcess
  dsimp only
  rw [if_neg (by rw [hproc]; decide), if_neg (by omega)]

theorem onDescriptorOrSearch_of_out (h : (MAX_OPEN_FILE_CT : Int) ≤ fd) :
    onDescriptorOrSearch k fd body s =
      (some (-ENOENT), s.note (.thrtab (k.runningThread s.below))) := by
  unfold onDescriptorOrSearch currentProcess
  dsimp only
  rw [if_pos h, ite_self]

theorem onDescriptorOrSearch_of_in (hproc : k.hasProcess s.below = true) (h₀ : 0 ≤ fd)
    (h : fd < (MAX_OPEN_FILE_CT : Int)) :
    onDescriptorOrSearch k fd body s =
      body fd.toNat (s.note (.thrtab (k.runningThread s.below))) := by
  unfold onDescriptorOrSearch currentProcess
  dsimp only
  rw [if_neg (by rw [hproc]; decide), if_neg (by omega), if_neg (by omega)]

theorem onDescriptorOrSearch_of_none (hproc : k.hasProcess s.below = true) (h : fd < 0)
    (hnone : searchIotab s.iotab = none) :
    onDescriptorOrSearch k fd body s = (some (-ENOENT),
      (s.note (.thrtab (k.runningThread s.below))).noteIotab (List.range MAX_OPEN_FILE_CT)) := by
  have hneg : ¬(MAX_OPEN_FILE_CT : Int) ≤ fd := by
    have : (0 : Int) ≤ MAX_OPEN_FILE_CT := Int.natCast_nonneg _
    omega
  have hiotab : (s.note (.thrtab (k.runningThread s.below))).iotab = s.iotab := rfl
  unfold onDescriptorOrSearch currentProcess
  dsimp only
  rw [if_neg (by rw [hproc]; decide), if_neg hneg, if_pos h, hiotab, hnone]

theorem onDescriptorOrSearch_of_found (hproc : k.hasProcess s.below = true) (h : fd < 0) {i : Nat}
    (hi : searchIotab s.iotab = some i) :
    onDescriptorOrSearch k fd body s =
      body i ((s.note (.thrtab (k.runningThread s.below))).noteIotab (List.range (i + 1))) := by
  have hneg : ¬(MAX_OPEN_FILE_CT : Int) ≤ fd := by
    have : (0 : Int) ≤ MAX_OPEN_FILE_CT := Int.natCast_nonneg _
    omega
  have hiotab : (s.note (.thrtab (k.runningThread s.below))).iotab = s.iotab := rfl
  unfold onDescriptorOrSearch currentProcess
  dsimp only
  rw [if_neg (by rw [hproc]; decide), if_neg hneg, if_pos h, hiotab, hi]

end Checks

/-- The io object at a descriptor, which must not be null. -/
def onIo (i : Nat) (body : ω → Handler ω β) : Handler ω β := fun s =>
  match s.iotab i with
  | none => (some (- EIO), s.note (.iotab i))
  | some io => body io (s.note (.iotab i))

/-- What `sysdevopen` and `sysfsopen` do with a descriptor: open, store the io object also
after a failure, and return the descriptor or `error`. -/
def openAt (opener : Option ω → Op β (Int × Option ω)) (error : Int) (i : Nat) : Handler ω β :=
  fun s =>
    let (r, s) := (s.note (.iotab i)).run (opener (s.iotab i))
    let s := s.setIotab i r.2
    if r.1 < 0 then (some (-error), s) else (some i, s)

section OpenAt

variable {opener : Option ω → Op β (Int × Option ω)} {error : Int} {s s' : State ω β} {i : Nat}

/-- What `openAt` returns, from a state that differs from `s` in the log only. -/
theorem openAt_fst (hiotab : s'.iotab = s.iotab) (hbelow : s'.below = s.below) :
    (openAt opener error i s').1 =
      if (opener (s.iotab i) s.below).1.1 < 0 then some (-error) else some (i : Int) := by
  have hrun : ((s'.note (.iotab i)).run (opener (s'.iotab i))).1 =
      (opener (s.iotab i) s.below).1 := by
    rw [← hiotab, ← hbelow]
    rfl
  unfold openAt
  dsimp only
  rw [hrun]
  split <;> rfl

/-- What has been opened is stored in any case. -/
theorem openAt_iotab (hiotab : s'.iotab = s.iotab) (hbelow : s'.below = s.below) :
    (openAt opener error i s').2.iotab =
      Function.update s.iotab i (opener (s.iotab i) s.below).1.2 := by
  unfold openAt
  dsimp only
  rw [← hiotab, ← hbelow]
  split <;> rfl

end OpenAt

def sysmsgout (k : Kern ω β) (msg : Nat) : Handler ω β := fun s =>
  -- `memory_validate_vstr` accepts every string
  let s := s.note (.thrtab (k.runningThread s.below))
  (some 0, (s.run (k.kprintf msg)).2)

def sysdevopen (k : Kern ω β) (fd : Int) (name : Nat) (instno : Int) : Handler ω β :=
  onDescriptorOrSearch k fd (openAt (k.deviceOpen name instno) ENODEV)

def sysfsopen (k : Kern ω β) (fd : Int) (name : Nat) : Handler ω β :=
  onDescriptorOrSearch k fd (openAt (k.fsOpen name) ENOENT)

/-- `sysfsopen` with a descriptor. -/
theorem sysfsopen_of_in {k : Kern ω β} {s : State ω β} {fd : Int} (name : Nat)
    (hproc : k.hasProcess s.below = true) (h₀ : 0 ≤ fd) (h : fd < (MAX_OPEN_FILE_CT : Int)) :
    (sysfsopen k fd name s).1 = (if (k.fsOpen name (s.iotab fd.toNat) s.below).1.1 < 0
      then some (-ENOENT) else some (fd.toNat : Int)) ∧
    (sysfsopen k fd name s).2.iotab =
      Function.update s.iotab fd.toNat (k.fsOpen name (s.iotab fd.toNat) s.below).1.2 := by
  have hiotab : (s.note (.thrtab (k.runningThread s.below))).iotab = s.iotab := rfl
  unfold sysfsopen
  rw [onDescriptorOrSearch_of_in hproc h₀ h]
  exact ⟨openAt_fst hiotab rfl, openAt_iotab hiotab rfl⟩

def sysclose (k : Kern ω β) (fd : Int) : Handler ω β :=
  onDescriptor k fd fun i => onIo i fun io s => (some 0, (s.run (k.close io)).2.setIotab i none)

/-- A handler that returns what a function of the rest of the kernel returns. -/
def returning (op : Op β Int) : Handler ω β := fun s =>
  let (r, s) := s.run op
  (some r, s)

def sysread (k : Kern ω β) (fd : Int) (buf bufsz : Nat) : Handler ω β := fun s =>
  if k.validateVptrLen buf bufsz (PTE_U ||| PTE_W) s.below = false then (some (-EACCESS), s)
  else onDescriptor k fd (fun i => onIo i fun io => returning (k.ioread io buf bufsz)) s

def syswrite (k : Kern ω β) (fd : Int) (buf len : Nat) : Handler ω β :=
  onDescriptor k fd fun i => onIo i fun io => returning (k.iowrite io buf len)

def sysioctl (k : Kern ω β) (fd cmd : Int) (arg : Nat) : Handler ω β :=
  onDescriptorOrSearch k fd fun i => onIo i fun io => returning (k.ioctl io cmd arg)

def sysexec (k : Kern ω β) (fd : Int) : Handler ω β :=
  onDescriptor k fd fun i => onIo i fun io s => s.run (k.processExec io)

/-- The loop of `process_exit` over the first `NPROC` entries of `iotab`. -/
def closeEntry (k : Kern ω β) (s : State ω β) (i : Nat) : State ω β :=
  match s.iotab i with
  | none => s.note (.iotab i)
  | some io => ((s.note (.iotab i)).run (k.close io)).2.setIotab i none

/-- `process_exit`. It does not return; without a process it panics. -/
def sysexit (k : Kern ω β) : Handler ω β := fun s =>
  let (proc, s) := currentProcess k s
  if proc = false then (none, s)
  else
    let s := (s.run k.reclaim).2
    let s := (List.range NPROC).foldl (closeEntry k) s
    (none, (s.run k.threadExit).2)

/-- The loop of `sysfork` over `iotab`: the child gets the entry, and its io object one more
reference. -/
def refEntry (k : Kern ω β) (s : State ω β) (i : Nat) : State ω β :=
  match s.iotab i with
  | none => s.note (.iotab i)
  | some io => ((s.note (.iotab i)).run (k.ioref io)).2

def sysfork (k : Kern ω β) : Handler ω β := fun s =>
  let (_, s) := currentProcess k s
  let s := (List.range PROCESS_IOMAX).foldl (refEntry k) s
  s.run (k.forkToUser fun i => s.iotab i)

/-- `thread_join` reads `thrtab[tid]` before it looks at `tid`. -/
def threadJoin (k : Kern ω β) (tid : Int) : Handler ω β := fun s =>
  let s := s.note (.thrtab tid)
  if h : 0 < tid ∧ tid < NTHR then s.run (k.threadJoin ⟨tid.toNat, toNat_lt_NTHR h⟩)
  else (some (-1), s)

def syswait (k : Kern ω β) (tid : Int) : Handler ω β := fun s =>
  if tid = 0 then s.run k.threadJoinAny else threadJoin k tid s

def sysusleep (k : Kern ω β) (us : Nat) : Handler ω β := fun s => (some 0, (s.run (k.usleep us)).2)

/-- The system calls, with their arguments as the handlers get them. -/
inductive Call where
  | exit
  | msgout (msg : Nat)
  | devopen (fd : Int) (name : Nat) (instno : Int)
  | fsopen (fd : Int) (name : Nat)
  | close (fd : Int)
  | read (fd : Int) (buf bufsz : Nat)
  | write (fd : Int) (buf len : Nat)
  | ioctl (fd cmd : Int) (arg : Nat)
  | exec (fd : Int)
  | fork
  | wait (tid : Int)
  | usleep (us : Nat)
  | unknown

/-- The call that the registers `a7`, `a0`, `a1` and `a2` ask for. Descriptors, numbers of
instances, commands and thread ids are converted to `int`. -/
def decode (a7 a0 a1 a2 : Nat) : Call :=
  match i32 a7 with
  | 0 => .exit
  | 1 => .msgout a0
  | 10 => .devopen (i32 a0) a1 (i32 a2)
  | 11 => .fsopen (i32 a0) a1
  | 20 => .close (i32 a0)
  | 21 => .read (i32 a0) a1 a2
  | 22 => .write (i32 a0) a1 a2
  | 23 => .ioctl (i32 a0) (i32 a1) a2
  | 30 => .exec (i32 a0)
  | 31 => .fork
  | 40 => .usleep a0
  | 41 => .wait (i32 a0)
  | _ => .unknown

/-- The handler of a call. -/
def handle (k : Kern ω β) : Call → Handler ω β
  | .exit => sysexit k
  | .msgout msg => sysmsgout k msg
  | .devopen fd name instno => sysdevopen k fd name instno
  | .fsopen fd name => sysfsopen k fd name
  | .close fd => sysclose k fd
  | .read fd buf bufsz => sysread k fd buf bufsz
  | .write fd buf len => syswrite k fd buf len
  | .ioctl fd cmd arg => sysioctl k fd cmd arg
  | .exec fd => sysexec k fd
  | .fork => sysfork k
  | .wait tid => syswait k tid
  | .usleep us => sysusleep k us
  | .unknown => fun s => (some (-1), s)

/-- `syscall_handler` -/
def syscallHandler (k : Kern ω β) (a7 a0 a1 a2 : Nat) : Handler ω β := handle k (decode a7 a0 a1 a2)

end Sys

end RiscvKernel
