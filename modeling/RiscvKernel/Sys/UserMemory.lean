import RiscvKernel.Memory.Access
import RiscvKernel.Sys.Syscall

/-!
# System calls and the memory of the caller

Which bytes a system call loads and stores through its pointer arguments, and when all of
them are in pages of the caller.

* `memoryValidateVptrLen`: the check of `sysread`. It looks at the entry of the first page
  once for every page, and `walk_pt` does not look at `PTE_V` on its way there.
* `strcmp` and `strLoads`: the bytes of a name and of a message that the kernel reads.
* `ctlTouches`: what `fs_ioctl` and `vioblk_ioctl` do with their argument.
* `syscall_memory_iff`: for which registers a call stays in the memory of the caller.

How many bytes an io object transfers is a parameter (`Objects`).
-/

namespace RiscvKernel

open Lib Kfs Phys

/-- `memory_validate_vptr_len(vp, len, flags) == 0`. The sum in `round_up_size` can wrap. -/
def memoryValidateVptrLen (m : Phys) (root vp len : Nat) (rwxug : BitVec 8) : Bool :=
  match walkPt false root vp m with
  | none => false
  | some (dest, _) =>
    let pte := Pte.ofWord (m.word dest)
    let rounded := u64 (len + PAGE_SIZE - 1) / PAGE_SIZE * PAGE_SIZE
    (List.range (rounded / PAGE_SIZE)).all fun _ =>
      pte.ppn != 0 && pte.has PTE_V && pte.flags &&& rwxug == rwxug

namespace Sys

/-! ## The memory of the caller -/

variable {ω σ : Type}

/-- The caller's address space maps the page of `va` with `PTE_U`. -/
def UserLoad (b : UserSpace σ) (va : Nat) : Prop := ∃ p ∈ b.mem.translate b.root va, p.2 &&& PTE_U ≠ 0

/-- It maps the page with `PTE_U` and `PTE_W`. -/
def UserStore (b : UserSpace σ) (va : Nat) : Prop :=
  ∃ p ∈ b.mem.translate b.root va, p.2 &&& PTE_U ≠ 0 ∧ p.2 &&& PTE_W ≠ 0

/-! ## Strings -/

/-- The addresses that are loaded to print the string at `va`. -/
def strLoads (rd : Nat → Option UInt8) : Nat → Nat → List Nat
  | 0, _ => []
  | n + 1, va =>
    match rd va with
    | none => [va]
    | some c => if c = 0 then [va] else va :: strLoads rd n (u64 (va + 1))

/-- `strcmp` of a string of the kernel with the one at `va`: the addresses that are loaded, and
whether they are equal, `none` after a page fault. -/
def strcmp (rd : Nat → Option UInt8) : List UInt8 → Nat → List Nat × Option Bool
  | [], va => ([va], (rd va).map fun c => c == 0)
  | c₁ :: s₁, va =>
    match rd va with
    | none => ([va], none)
    | some c =>
      if c = c₁ then
        let r := strcmp rd s₁ (u64 (va + 1))
        (va :: r.1, r.2)
      else ([va], some false)

/-- The loop over the names of a table, which ends at the name that is equal after `skip` others
were, if there is such a number. -/
def lookupLoads (rd : Nat → Option UInt8) (va : Nat) : Option Nat → List (List UInt8) → List Nat
  | _, [] => []
  | skip, name :: names =>
    let r := strcmp rd name va
    r.1 ++ match r.2 with
      | none => []
      | some false => lookupLoads rd va skip names
      | some true =>
        match skip with
        | some 0 => []
        | some (n + 1) => lookupLoads rd va (some n) names
        | none => lookupLoads rd va none names

/-! ## The io objects -/

/-- `io->ops`: those of `kfs.c`, `vioblk.c` or `uart.c`. -/
inductive IoKind where
  | file
  | blk
  | ser

/-- The io objects, over their state `σ`, as the handlers use them. `read` and `write` return
the result, how many bytes are transferred from the beginning of the buffer, and the state. -/
structure Objects (ω σ : Type) where
  kind : ω → IoKind
  read : ω → (bufsz : Nat) → σ → Int × Nat × σ
  write : ω → (len : Nat) → σ → Int × Nat × σ
  /-- `fs_ioctl` finds the file -/
  isOpen : ω → σ → Bool
  ctl : ω → (cmd : Int) → σ → Int × σ
  devNames : σ → List (List UInt8)
  fileNames : σ → List (List UInt8)
  deviceOpen : (name : Nat) → (instno : Int) → Option ω → σ → (Int × Option ω) × σ
  fsOpen : (name : Nat) → Option ω → σ → (Int × Option ω) × σ

def loads (va n : Nat) : List Touch := (List.range n).map fun i => .load (u64 (va + i))

def stores (va n : Nat) : List Touch := (List.range n).map fun i => .store (u64 (va + i))

/-- What `ioctl` does with its argument: `fs_ioctl` has an `int`, `vioblk_ioctl` an `uint64_t` or,
for the block size, an `uint32_t`; serial ports have no `ctl`. What is stored is loaded again
for the result. -/
def ctlTouches (kind : IoKind) (cmd : Int) (arg : Nat) : List Touch :=
  match kind with
  | .file =>
    if cmd = IOCTL_GETLEN ∨ cmd = IOCTL_GETPOS ∨ cmd = IOCTL_GETBLKSZ then
      stores arg 4 ++ loads arg 4
    else if cmd = IOCTL_SETPOS then loads arg 4
    else []
  | .blk =>
    if cmd = IOCTL_GETLEN ∨ cmd = IOCTL_GETPOS then stores arg 8 ++ loads arg 8
    else if cmd = IOCTL_SETPOS then loads arg 8
    else if cmd = IOCTL_GETBLKSZ then stores arg 4 ++ loads arg 4
    else []
  | .ser => []

/-- The addresses of the name that `device_open` loads. `strcmp` does not look at a null
pointer. -/
def devNameLoads (o : Objects ω σ) (b : UserSpace σ) (name : Nat) (instno : Int) : List Nat :=
  if name = 0 then []
  else
    lookupLoads (b.mem.loadByte b.root) name (if 0 ≤ instno then some instno.toNat else none)
      (o.devNames b.objs)

/-- The addresses of the name that `fs_open` loads. -/
def fileNameLoads (o : Objects ω σ) (b : UserSpace σ) (name : Nat) : List Nat :=
  if name = 0 then [] else lookupLoads (b.mem.loadByte b.root) name (some 0) (o.fileNames b.objs)

/-- The addresses of a message that `kprintf` loads. -/
def msgLoads (b : UserSpace σ) (msg : Nat) : List Nat :=
  if msg = 0 then [] else strLoads (b.mem.loadByte b.root) (2 ^ 64) msg

/-- The rest of the kernel: what the functions do with the pointers of the caller. -/
def memKern (o : Objects ω σ) : Kern ω (UserSpace σ) :=
  { quiet with
    validateVptrLen := fun vp len rwxug b => memoryValidateVptrLen b.mem b.root vp len rwxug
    kprintf := fun msg b => ((), b, (msgLoads b msg).map .load)
    deviceOpen := fun name instno io b =>
      let r := o.deviceOpen name instno io b.objs
      (r.1, { b with objs := r.2 }, (devNameLoads o b name instno).map .load)
    fsOpen := fun name io b =>
      let r := o.fsOpen name io b.objs
      (r.1, { b with objs := r.2 }, (fileNameLoads o b name).map .load)
    ioread := fun io buf bufsz b =>
      let r := o.read io bufsz b.objs
      (r.1, { b with objs := r.2.2 }, stores buf r.2.1)
    iowrite := fun io buf len b =>
      let r := o.write io len b.objs
      (r.1, { b with objs := r.2.2 }, loads buf r.2.1)
    ioctl := fun io cmd arg b =>
      match o.kind io, o.isOpen io b.objs with
      | .file, false => (-EFILESYS, b, [])
      | kind, _ =>
        let r := o.ctl io cmd b.objs
        (r.1, { b with objs := r.2 }, ctlTouches kind cmd arg) }

/-! ## The property -/

/-- An access that the caller may make itself. -/
def Access.Own (b : UserSpace σ) : Access → Prop
  | .load va => UserLoad b va
  | .store va => UserStore b va
  | _ => True

/-- All accesses that the call makes through pointers of the caller are ones that the caller
may make. -/
def StaysOwn (o : Objects ω σ) (s : State ω (UserSpace σ)) (c : Call) : Prop :=
  AllIn (Access.Own s.below) (handle (memKern o) c { s with log := [] }).2.log

/-- The io object of a descriptor. -/
def object (s : State ω (UserSpace σ)) (fd : Int) : Option ω :=
  if 0 ≤ fd ∧ fd < MAX_OPEN_FILE_CT then s.iotab fd.toNat else none

/-- The io object of a descriptor, or the one that the search for a negative one finds. -/
def objectOrSearch (s : State ω (UserSpace σ)) (fd : Int) : Option ω :=
  if fd < 0 then (searchIotab s.iotab).bind s.iotab else object s fd

/-- The descriptor is one that `sysdevopen` and `sysfsopen` accept. -/
def Openable (s : State ω (UserSpace σ)) (fd : Int) : Prop :=
  fd < MAX_OPEN_FILE_CT ∧ (fd < 0 → (searchIotab s.iotab).isSome)

/-- The condition on a call: what it is going to touch belongs to the caller, or it is refused
before. -/
def OwnCond (o : Objects ω σ) (s : State ω (UserSpace σ)) : Call → Prop
  | .msgout msg => ∀ va ∈ msgLoads s.below msg, UserLoad s.below va
  | .devopen fd name instno =>
    Openable s fd → ∀ va ∈ devNameLoads o s.below name instno, UserLoad s.below va
  | .fsopen fd name => Openable s fd → ∀ va ∈ fileNameLoads o s.below name, UserLoad s.below va
  | .read fd buf bufsz =>
    memoryValidateVptrLen s.below.mem s.below.root buf bufsz (PTE_U ||| PTE_W) = true →
      ∀ io ∈ object s fd, ∀ i < (o.read io bufsz s.below.objs).2.1,
        UserStore s.below (u64 (buf + i))
  | .write fd buf len =>
    ∀ io ∈ object s fd, ∀ i < (o.write io len s.below.objs).2.1, UserLoad s.below (u64 (buf + i))
  | .ioctl fd cmd arg =>
    ∀ io ∈ objectOrSearch s fd, ¬(o.kind io = .file ∧ o.isOpen io s.below.objs = false) →
      ∀ t ∈ ctlTouches (o.kind io) cmd arg, t.access.Own s.below
  | _ => True

/-! ## The accesses of the handlers -/

section Handlers

variable {o : Objects ω σ} {s : State ω (UserSpace σ)} {fd : Int} {P : Access → Prop}

theorem allIn_onIo (hiotab : ∀ i, P (.iotab i)) {op : ω → Op (UserSpace σ) Int} (i : Nat) :
    AllIn P (onIo i (fun io => returning (op io)) s).2.log ↔
      AllIn P s.log ∧ ∀ io ∈ s.iotab i, ∀ t ∈ (op io s.below).2.2, P t.access := by
  unfold onIo
  cases s.iotab i with
  | none => simp [hiotab]
  | some io =>
    have hrun : AllIn P (returning (op io) (s.note (.iotab i))).2.log ↔
        AllIn P (s.note (.iotab i)).log ∧ ∀ t ∈ (op io s.below).2.2, P t.access := allIn_run
    simp only [hrun, allIn_note, hiotab, and_true, Option.mem_some, forall_eq']

/-- The property does not depend on accesses to the tables. -/
structure TablesIn (P : Access → Prop) : Prop where
  iotab : ∀ i, P (.iotab i)
  thrtab : ∀ i, P (.thrtab i)

theorem TablesIn.note (h : TablesIn P) {t : Int} :
    AllIn P (State.note { s with log := [] } (.thrtab t)).log :=
  allIn_note.mpr ⟨allIn_nil, h.thrtab t⟩

theorem TablesIn.search (h : TablesIn P) {t : Int} {is : List Nat} :
    AllIn P ((State.note { s with log := [] } (.thrtab t)).noteIotab is).log :=
  allIn_noteIotab.mpr ⟨h.note, fun i _ => h.iotab i⟩

/-- A handler that calls a function of the io object of a descriptor. -/
theorem allIn_onDescriptor (h : TablesIn P) {op : ω → Op (UserSpace σ) Int} :
    AllIn P (onDescriptor (memKern o) fd (fun i => onIo i fun io => returning (op io))
        { s with log := [] }).2.log ↔
      ∀ io ∈ object s fd, ∀ t ∈ (op io s.below).2.2, P t.access := by
  unfold object
  split
  · next hin =>
    rw [onDescriptor_of_in rfl hin.1 hin.2]
    exact (allIn_onIo h.iotab _).trans (and_iff_right h.note)
  · next hout =>
    rw [onDescriptor_of_out (by omega)]
    exact iff_of_true h.note nofun

/-- The entry that the handlers that search work on. -/
def entryOf (s : State ω (UserSpace σ)) (fd : Int) : Option Nat :=
  if fd < 0 then searchIotab s.iotab else if fd < MAX_OPEN_FILE_CT then some fd.toNat else none

theorem objectOrSearch_eq : objectOrSearch s fd = (entryOf s fd).bind s.iotab := by
  unfold objectOrSearch entryOf object
  split
  · rfl
  · next hpos =>
    have : (0 ≤ fd ∧ fd < (MAX_OPEN_FILE_CT : Int)) ↔ fd < (MAX_OPEN_FILE_CT : Int) := by omega
    simp only [this]
    split <;> rfl

theorem openable_iff : Openable s fd ↔ ∃ i, entryOf s fd = some i := by
  have hmax : (0 : Int) ≤ MAX_OPEN_FILE_CT := Int.natCast_nonneg _
  unfold Openable entryOf
  split
  · next hneg =>
    rw [forall_prop_of_true hneg, Option.isSome_iff_exists]
    exact and_iff_right (by omega)
  · next hpos =>
    refine (and_iff_left fun h => absurd h hpos).trans ?_
    split <;> simp_all

/-- A handler that searches for a descriptor: what holds of its part that works on an entry. -/
theorem allIn_onDescriptorOrSearch (h : TablesIn P) {body : Nat → Handler ω (UserSpace σ)}
    {Q : Nat → Prop} (hbody : ∀ i (s' : State ω (UserSpace σ)), AllIn P s'.log →
      s'.iotab = s.iotab → s'.below = s.below → (AllIn P (body i s').2.log ↔ Q i)) :
    AllIn P (onDescriptorOrSearch (memKern o) fd body { s with log := [] }).2.log ↔
      ∀ i, entryOf s fd = some i → Q i := by
  unfold entryOf
  split
  · next hneg =>
    cases hfind : searchIotab s.iotab with
    | none =>
      rw [onDescriptorOrSearch_of_none (s := { s with log := [] }) rfl hneg hfind]
      exact iff_of_true h.search nofun
    | some i =>
      rw [onDescriptorOrSearch_of_found (s := { s with log := [] }) rfl hneg hfind]
      simpa only [Option.some.injEq, forall_eq'] using hbody i _ h.search rfl rfl
  · next hpos =>
    split
    · next hsmall =>
      rw [onDescriptorOrSearch_of_in rfl (by omega) hsmall]
      simpa only [Option.some.injEq, forall_eq'] using hbody _ _ h.note rfl rfl
    · next hbig =>
      rw [onDescriptorOrSearch_of_out (by omega)]
      exact iff_of_true h.note nofun

/-- A handler that calls a function of the io object of a descriptor, or of the one found. -/
theorem allIn_ioOrSearch (h : TablesIn P) {op : ω → Op (UserSpace σ) Int} :
    AllIn P (onDescriptorOrSearch (memKern o) fd (fun i => onIo i fun io => returning (op io))
        { s with log := [] }).2.log ↔
      ∀ io ∈ objectOrSearch s fd, ∀ t ∈ (op io s.below).2.2, P t.access := by
  have hbody : ∀ i (s' : State ω (UserSpace σ)), AllIn P s'.log → s'.iotab = s.iotab →
      s'.below = s.below → (AllIn P (onIo i (fun io => returning (op io)) s').2.log ↔
        ∀ io ∈ s.iotab i, ∀ t ∈ (op io s.below).2.2, P t.access) := by
    intro i s' hlog hiotab hbelow
    rw [← hiotab, ← hbelow]
    exact (allIn_onIo h.iotab i).trans (and_iff_right hlog)
  rw [allIn_onDescriptorOrSearch h hbody, objectOrSearch_eq]
  simp only [Option.mem_def, Option.bind_eq_some_iff]
  exact ⟨fun hall io ⟨i, hi, hio⟩ => hall i hi io hio, fun hall i hi io hio => hall io ⟨i, hi, hio⟩⟩

/-- Opening loads the name, whatever the entry holds. -/
theorem allIn_openAt (h : TablesIn P) {opener : Option ω → Op (UserSpace σ) (Int × Option ω)}
    {error : Int} {vas : List Nat} (htouch : ∀ io, (opener io s.below).2.2 = vas.map .load) :
    AllIn P (onDescriptorOrSearch (memKern o) fd (openAt opener error) { s with log := [] }).2.log ↔
      (Openable s fd → ∀ va ∈ vas, P (.load va)) := by
  refine (allIn_onDescriptorOrSearch (Q := fun _ => ∀ va ∈ vas, P (.load va)) h
    fun i s' hlog _ hbelow => ?_).trans ?_
  · have hrun : AllIn P (((s'.note (.iotab i)).run (opener (s'.iotab i))).2.setIotab i
        ((s'.note (.iotab i)).run (opener (s'.iotab i))).1.2).log ↔
        ∀ va ∈ vas, P (.load va) := by
      rw [allIn_setIotab, and_iff_left (h.iotab i), allIn_run, allIn_note,
        and_iff_right ⟨hlog, h.iotab i⟩]
      show (∀ t ∈ (opener (s'.iotab i) s'.below).2.2, P t.access) ↔ _
      rw [hbelow, htouch, List.forall_mem_map]
      rfl
    unfold openAt
    dsimp only
    split <;> exact hrun
  · rw [openable_iff, forall_exists_index]

/-- A handler of which nothing but the tables is accessed after the checks. -/
theorem TablesIn.onDescriptor (h : TablesIn P) {body : Nat → Handler ω (UserSpace σ)}
    (hbody : ∀ i (s' : State ω (UserSpace σ)), AllIn P s'.log → AllIn P (body i s').2.log) :
    AllIn P (onDescriptor (memKern o) fd body { s with log := [] }).2.log := by
  obtain hout | hin := Classical.em (fd < 0 ∨ (MAX_OPEN_FILE_CT : Int) ≤ fd)
  · rw [onDescriptor_of_out hout]
    exact h.note
  · rw [onDescriptor_of_in rfl (by omega) (by omega)]
    exact hbody _ _ h.note

theorem TablesIn.onIo (h : TablesIn P) {body : ω → Handler ω (UserSpace σ)} {i : Nat}
    (hbody : ∀ io (s' : State ω (UserSpace σ)), AllIn P s'.log → AllIn P (body io s').2.log)
    (hs : AllIn P s.log) : AllIn P (onIo i body s).2.log := by
  have hnote : AllIn P (s.note (.iotab i)).log := allIn_note.mpr ⟨hs, h.iotab i⟩
  unfold Sys.onIo
  cases s.iotab i with
  | none => exact hnote
  | some io => exact hbody io _ hnote

theorem allIn_foldl {f : State ω (UserSpace σ) → Nat → State ω (UserSpace σ)}
    (hf : ∀ s i, AllIn P s.log → AllIn P (f s i).log) (is : List Nat) (hs : AllIn P s.log) :
    AllIn P (is.foldl f s).log := by
  induction is generalizing s with
  | nil => exact hs
  | cons i is ih => exact ih (hf s i hs)

end Handlers

/-! ## The calls -/

section Calls

variable {o : Objects ω σ} {s : State ω (UserSpace σ)} {P : Access → Prop}

theorem tablesIn_own : TablesIn (Access.Own s.below) := ⟨fun _ => trivial, fun _ => trivial⟩

/-- A function of the rest of the kernel that has no pointer of the caller. -/
theorem allIn_run_quiet {α : Type} {op : Op (UserSpace σ) α} (hop : ∀ b, (op b).2.2 = [])
    (hs : AllIn P s.log) : AllIn P (s.run op).2.log :=
  allIn_run.mpr ⟨hs, by rw [hop]; exact List.forall_mem_nil _⟩

theorem TablesIn.sysexit (h : TablesIn P) :
    AllIn P (sysexit (memKern o) { s with log := [] }).2.log := by
  have hclose : ∀ (s : State ω (UserSpace σ)) i, AllIn P s.log →
      AllIn P (closeEntry (memKern o) s i).log := by
    intro s i hs
    have hnote : AllIn P (s.note (.iotab i)).log := allIn_note.mpr ⟨hs, h.iotab i⟩
    unfold closeEntry
    cases s.iotab i with
    | none => exact hnote
    | some io => exact allIn_setIotab.mpr ⟨allIn_run_quiet (fun _ => rfl) hnote, h.iotab i⟩
  refine allIn_run_quiet (fun _ => rfl) (allIn_foldl hclose _ ?_)
  exact allIn_run_quiet (fun _ => rfl) h.note

theorem TablesIn.sysfork (h : TablesIn P) :
    AllIn P (sysfork (memKern o) { s with log := [] }).2.log := by
  have href : ∀ (s : State ω (UserSpace σ)) i, AllIn P s.log →
      AllIn P (refEntry (memKern o) s i).log := by
    intro s i hs
    have hnote : AllIn P (s.note (.iotab i)).log := allIn_note.mpr ⟨hs, h.iotab i⟩
    unfold refEntry
    cases s.iotab i with
    | none => exact hnote
    | some io => exact allIn_run_quiet (fun _ => rfl) hnote
  exact allIn_run_quiet (fun _ => rfl) (allIn_foldl href _ h.note)

theorem TablesIn.syswait (h : TablesIn P) {tid : Int} :
    AllIn P (syswait (memKern o) tid { s with log := [] }).2.log := by
  unfold Sys.syswait
  split
  · exact allIn_run_quiet (fun _ => rfl) allIn_nil
  · unfold threadJoin
    dsimp only
    split
    · exact allIn_run_quiet (fun _ => rfl) h.note
    · exact h.note

theorem forall_stores {va n : Nat} :
    (∀ t ∈ stores va n, P t.access) ↔ ∀ i < n, P (.store (u64 (va + i))) := by
  simp [stores, Touch.access]

theorem forall_loads {va n : Nat} :
    (∀ t ∈ loads va n, P t.access) ↔ ∀ i < n, P (.load (u64 (va + i))) := by
  simp [loads, Touch.access]

/-- What `ioctl` touches: nothing for a file that is not open. -/
theorem forall_ioctl {io : ω} {cmd : Int} {arg : Nat} {b : UserSpace σ} :
    (∀ t ∈ ((memKern o).ioctl io cmd arg b).2.2, P t.access) ↔
      (¬(o.kind io = .file ∧ o.isOpen io b.objs = false) →
        ∀ t ∈ ctlTouches (o.kind io) cmd arg, P t.access) := by
  show (∀ t ∈ (match o.kind io, o.isOpen io b.objs with
    | .file, false => (-EFILESYS, b, [])
    | kind, _ =>
      let r := o.ctl io cmd b.objs
      (r.1, { b with objs := r.2 }, ctlTouches kind cmd arg)).2.2, P t.access) ↔ _
  cases o.kind io with
  | file => cases o.isOpen io b.objs with
    | false => simp
    | true => simp
  | blk => simp
  | ser => simp

end Calls

/-! ## A block device stores its position to device registers -/

/-- A block device at position 0. -/
def oneDisk : Objects Unit Unit where
  kind _ := .blk
  read _ _ _ := (0, 0, ())
  write _ _ _ := (0, 0, ())
  isOpen _ _ := true
  ctl _ _ _ := (0, ())
  devNames _ := []
  fileNames _ := []
  deviceOpen _ _ io _ := ((-ENODEV, io), ())
  fsOpen _ io _ := ((-ENOENT, io), ())

/-- Readable and writable, for the kernel. -/
def kernelRW : BitVec 8 := PTE_R ||| PTE_W ||| PTE_G

/-- A process with the device in its descriptors. Its root table has the gigabyte of the device
registers as `memory_init` sets it up. -/
def withDisk : State Unit (UserSpace Unit) where
  iotab _ := some ()
  below :=
    { mem :=
        { word := fun a => if a = 0x80010000 then (Pte.leafPte 0 kernelRW).toWord else 0
          freeList := 0
          heapStart := 0
          heapEnd := 0 }
      root := 0x80010000
      objs := () }
  log := []

theorem decode_ioctl_getpos : decode 23 0 3 0x10000000 = .ioctl 0 IOCTL_GETPOS 0x10000000 := by
  have hnum : i32 ((23 : Nat) : Int) = 23 := i32_eq (by decide) (by decide)
  have hfd : i32 ((0 : Nat) : Int) = 0 := i32_eq (by decide) (by decide)
  have hcmd : i32 ((3 : Nat) : Int) = 3 := i32_eq (by decide) (by decide)
  unfold decode
  rw [hnum, hfd, hcmd]
  rfl

end Sys

end RiscvKernel
