import RiscvKernel.Fs.Kfs

/-!
# File operations are atomic

Every file operation begins by acquiring `flk` (in its `fs_ioctl`), and whenever it
sleeps — in a disk wait of `vioblk.c`, the only sleep of uncontended code — it holds
`flk`. So `Machine.runs_atomic` applies with `L = flk`: in the gaps in which an
operation has released `flk` it still has the processor.
-/

namespace RiscvKernel

open Lib

namespace Kfs

variable {β : Type}

/-! ## Calls -/

/-- The file operations a thread can call; `io` names the `io_intf`. -/
inductive FsOp where
  | read (io : Nat) (buf : Bytes)
  | write (io : Nat) (buf : Bytes)
  | ioctl (io cmd arg : Nat)
  | close (io : Nat)

/-- What a call returns, with the buffer or argument as the call leaves it. -/
inductive FsRes where
  | read (ret : Int) (buf : Bytes)
  | write (ret : Int)
  | ioctl (ret : Int) (arg : Nat)
  | close

/-- The code of a call. `fs_close` takes no lock and no switch point lies in it. -/
def fsCode (be : Backend β) (mt : Mounted) : FsOp → Code β FsRes ⊕ (RefState → FsRes × RefState)
  | .read io buf => .inl do
    let (ret, buf) ← fsRead be mt io buf
    return .read ret buf
  | .write io buf => .inl do
    let ret ← fsWrite be mt io buf
    return .write ret
  | .ioctl io cmd arg => .inl do
    let (ret, arg) ← fsIoctl mt io cmd arg
    return .ioctl ret arg
  | .close io => .inr fun r => (.close, fsClose mt io r)

/-- The file system on a back end whose device is `serve`. -/
def kfsSys (be : Backend β) (serve : β → Option β) (mt : Mounted) :
    Sys (FsState β) RefState KLock KCond FsRes FsOp where
  code := fsCode be mt
  serve := (belowLens β).serve serve
  irq := .usedUpdated

/-! ## Lock discipline -/

/-- `flk` is held and no other lock. -/
def onlyFlk : KLock → Bool := Function.update Machine.noLocks .flk true

/-- A back end whose operations may be called with or without `flk`, but which sleeps
only when `flk` is held. -/
structure Backend.Ok (be : Backend β) (serve : β → Option β) : Prop where
  io : be.sysIo.Disciplined serve .usedUpdated .flk onlyFlk
  ctl : ∀ cmd arg, (be.sysIo.ctl cmd arg).Disciplined serve .usedUpdated .flk
    Machine.noLocks Machine.noLocks
  kmalloc : ∀ n h, (be.kmalloc n).Disciplined serve .usedUpdated .flk h h

variable {be : Backend β} {serve : β → Option β} {mt : Mounted}


theorem lock_flk : (Prog.lock .flk : Code β Unit).Disciplined (fsServe serve) .usedUpdated .flk
    Machine.noLocks onlyFlk :=
  Prog.disciplined_lock rfl rfl

theorem unlock_flk : (Prog.unlock .flk : Code β Unit).Disciplined (fsServe serve) .usedUpdated
    .flk onlyFlk Machine.noLocks := by
  refine Prog.disciplined_unlock (by simp [onlyFlk]) ?_
  rw [onlyFlk, Function.update_idem]
  exact (Function.update_eq_self _ _).symm

theorem disciplined_ioctlBody (i : Fin MAX_OPEN_FILE_CT) (cmd arg : Nat) (h : KLock → Bool) :
    (ioctlBody mt i cmd arg : Code β _).Disciplined (fsServe serve) .usedUpdated .flk h h := by
  refine (Prog.disciplined_get h).bind fun s => ?_
  split
  · rfl
  split
  · rfl
  split
  · refine (Prog.disciplined_modify (fun s hs => ?_) h).bind fun _ => rfl
    rw [Lens.serve_eq_none] at hs ⊢
    exact hs
  split
  · rfl
  · rfl

/-- From its acquire on, `fs_ioctl` keeps the discipline. -/
theorem disciplined_fsIoctl (io cmd arg : Nat) :
    (fsIoctl mt io cmd arg : Code β _).Disciplined (fsServe serve) .usedUpdated .flk
      Machine.noLocks Machine.noLocks := by
  unfold fsIoctl
  split
  · rfl
  · refine lock_flk.bind fun _ => ?_
    refine (disciplined_ioctlBody _ _ _ _).bind fun r => ?_
    exact unlock_flk.bind fun _ => rfl

theorem disciplined_readInode (hbe : be.Ok serve) (inode pos n : Nat) :
    (readInode be inode pos n).Disciplined (fsServe serve) .usedUpdated .flk onlyFlk onlyFlk := by
  have hio := hbe.io.zoom (belowLens β)
  refine (hio.ctl _ _).bind fun _ => ?_
  refine ((hbe.kmalloc _ _).zoom (belowLens β)).bind fun fresh => ?_
  refine (hio.ioreadFull _).bind fun r => ?_
  dsimp only
  split
  · rfl
  · rfl

theorem disciplined_seekBlock (mt : Mounted) {h : KLock → Bool}
    (hctl : ∀ cmd arg, (be.io.ctl cmd arg).Disciplined (fsServe serve) .usedUpdated .flk h h)
    (fileStruct : Bytes) (i leading : Nat) :
    (seekBlock be mt fileStruct i leading).Disciplined (fsServe serve) .usedUpdated .flk h h :=
  (Prog.disciplined_assert _ h).bind fun _ => (hctl _ _).bind fun _ => rfl

theorem disciplined_readPart (hbe : be.Ok serve) (buf : Bytes) (idx len : Nat) :
    (readPart be buf idx len).Disciplined (fsServe serve) .usedUpdated .flk onlyFlk onlyFlk :=
  (Prog.disciplined_assert _ _).bind fun _ =>
    ((hbe.io.zoom (belowLens β)).ioreadFull _).bind fun _ => rfl

theorem disciplined_readBlocks (hbe : be.Ok serve) (fileStruct : Bytes) (rounds i : Nat) (p : Plan)
    (idx : Nat) (buf : Bytes) :
    (readBlocks be mt fileStruct rounds i p idx buf).Disciplined (fsServe serve) .usedUpdated .flk
      onlyFlk onlyFlk := by
  have hseek := disciplined_seekBlock mt (hbe.io.zoom (belowLens β)).ctl fileStruct
  induction rounds generalizing i p idx buf with
  | zero => rfl
  | succ rounds ih =>
    unfold readBlocks
    split
    · refine (disciplined_readPart hbe _ _ _).bind fun buf => ?_
      exact (hseek _ _).bind fun _ => ih _ _ _ _
    split
    · exact disciplined_readPart hbe _ _ _
    · refine (disciplined_readPart hbe _ _ _).bind fun buf => ?_
      exact (hseek _ _).bind fun _ => ih _ _ _ _

theorem disciplined_writePart (hbe : be.Ok serve) (buf : Bytes) (idx len : Nat) :
    (writePart be buf idx len).Disciplined (fsServe serve) .usedUpdated .flk onlyFlk onlyFlk :=
  (Prog.disciplined_assert _ _).bind fun _ =>
    ((hbe.io.zoom (belowLens β)).iowrite _).bind fun _ => rfl

theorem disciplined_writeBlocks (hbe : be.Ok serve) (fileStruct buf : Bytes) (rounds i : Nat)
    (p : Plan) (idx : Nat) :
    (writeBlocks be mt fileStruct buf rounds i p idx).Disciplined (fsServe serve) .usedUpdated .flk
      onlyFlk onlyFlk := by
  have hseek := disciplined_seekBlock mt (hbe.io.zoom (belowLens β)).ctl fileStruct
  induction rounds generalizing i p idx with
  | zero => rfl
  | succ rounds ih =>
    unfold writeBlocks
    split
    · refine (disciplined_writePart hbe _ _ _).bind fun _ => ?_
      exact (hseek _ _).bind fun _ => ih _ _ _
    split
    · exact disciplined_writePart hbe _ _ _
    · refine (disciplined_writePart hbe _ _ _).bind fun _ => ?_
      exact (hseek _ _).bind fun _ => ih _ _ _

theorem disciplined_fsRead (hbe : be.Ok serve) (io : Nat) (buf : Bytes) :
    (fsRead be mt io buf).Disciplined (fsServe serve) .usedUpdated .flk
      Machine.noLocks Machine.noLocks := by
  have hio := hbe.io.zoom (belowLens β)
  refine (disciplined_fsIoctl _ _ _).bind fun r => ?_
  dsimp only
  split
  · rfl
  · refine lock_flk.bind fun _ => ?_
    refine (disciplined_readInode hbe _ _ _).bind fun r => ?_
    refine unlock_flk.bind fun _ => ?_
    refine lock_flk.bind fun _ => ?_
    refine (disciplined_seekBlock mt hio.ctl _ _ _).bind fun _ => ?_
    refine (disciplined_readBlocks hbe _ _ _ _ _ _).bind fun buf => ?_
    refine unlock_flk.bind fun _ => ?_
    exact (disciplined_fsIoctl _ _ _).bind fun _ => rfl

theorem disciplined_fsWrite (hbe : be.Ok serve) (io : Nat) (buf : Bytes) :
    (fsWrite be mt io buf).Disciplined (fsServe serve) .usedUpdated .flk
      Machine.noLocks Machine.noLocks := by
  have hctl : ∀ cmd arg, (be.io.ctl cmd arg).Disciplined (fsServe serve) .usedUpdated .flk
      Machine.noLocks Machine.noLocks := fun cmd arg => (hbe.ctl cmd arg).zoom (belowLens β)
  refine (disciplined_fsIoctl _ _ _).bind fun r => ?_
  dsimp only
  split
  · rfl
  · refine lock_flk.bind fun _ => ?_
    refine (disciplined_readInode hbe _ _ _).bind fun r => ?_
    refine unlock_flk.bind fun _ => ?_
    refine (disciplined_seekBlock mt hctl _ _ _).bind fun _ => ?_
    refine lock_flk.bind fun _ => ?_
    refine (disciplined_writeBlocks hbe _ _ _ _ _ _).bind fun _ => ?_
    refine unlock_flk.bind fun _ => ?_
    exact (disciplined_fsIoctl _ _ _).bind fun _ => rfl

/-! ## Every operation begins with `flk` -/

/-- Both lookups find a slot, or neither does. -/
theorem firstSlot_eq_none_of_lastSlot {io : Nat} (h : lastSlot mt io = none) :
    firstSlot mt io = none := by
  simp only [lastSlot, firstSlot, List.find?_eq_none, List.mem_reverse] at h ⊢
  exact h

/-- An operation that begins with `fs_ioctl` begins with `flk`, or returns at once. -/
theorem startsWith_fsIoctl_bind {α : Type} (io cmd arg : Nat) (f : Int × Nat → Code β α)
    (hf : ∀ r, lastSlot mt io = none → Machine.StartsWith .flk (f r)) :
    Machine.StartsWith .flk (fsIoctl mt io cmd arg >>= f) := by
  unfold fsIoctl
  cases hslot : lastSlot mt io with
  | none => exact hf _ hslot
  | some i => rfl

theorem startsWith_fsRead (io : Nat) (buf : Bytes) :
    Machine.StartsWith .flk (fsRead be mt io buf) := by
  refine startsWith_fsIoctl_bind io _ _ _ fun r hslot => ?_
  simp only [firstSlot_eq_none_of_lastSlot hslot]
  trivial

theorem startsWith_fsWrite (io : Nat) (buf : Bytes) :
    Machine.StartsWith .flk (fsWrite be mt io buf) := by
  refine startsWith_fsIoctl_bind io _ _ _ fun r hslot => ?_
  simp only [firstSlot_eq_none_of_lastSlot hslot]
  trivial

theorem entry_fsCode (hbe : be.Ok serve) {op : FsOp} {p : Code β FsRes}
    (hp : fsCode be mt op = .inl p) : Machine.Entry (kfsSys be serve mt) .flk p := by
  cases op with
  | read io buf =>
    cases hp
    exact .of_disciplined ((startsWith_fsRead io buf).bind fun _ => trivial)
      ((disciplined_fsRead hbe io buf).bind fun _ => rfl)
  | write io buf =>
    cases hp
    exact .of_disciplined ((startsWith_fsWrite io buf).bind fun _ => trivial)
      ((disciplined_fsWrite hbe io buf).bind fun _ => rfl)
  | ioctl io cmd arg =>
    cases hp
    exact .of_disciplined (startsWith_fsIoctl_bind io _ _ _ fun _ _ => trivial)
      ((disciplined_fsIoctl io cmd arg).bind fun _ => rfl)
  | close io => cases hp

/-! ## On the block device -/

/-- The block device as the back end of the file system. -/
def blkBackend (g : Geometry) {ζ : Type} (kmalloc : Kmalloc ζ) : Backend (Blk g ζ) where
  sysIo := Vioblk.io g kmalloc
  kmalloc := Vioblk.alloc kmalloc

theorem blkBackend_ok (g : Geometry) {ζ : Type} (kmalloc : Kmalloc ζ) :
    (blkBackend g kmalloc).Ok Vioblk.serve where
  io := Vioblk.disciplined_io rfl (Or.inr (by simp [onlyFlk])) g kmalloc
  ctl := Vioblk.disciplined_vioblkIoctl rfl
  kmalloc n h := Vioblk.disciplined_alloc kmalloc n h

theorem fsServe_once {g : Geometry} {ζ : Type} (s s' : FsState (Blk g ζ))
    (h : fsServe Vioblk.serve s = some s') : fsServe Vioblk.serve s' = none := by
  obtain ⟨b, hb, rfl⟩ := Option.map_eq_some_iff.mp h
  rw [Lens.serve_eq_none, (belowLens (Blk g ζ)).view_put]
  exact Vioblk.serve_once hb

/-- **File operations are atomic.** Let any number of threads call `fs_read`, `fs_write`,
`fs_ioctl` and `fs_close` in any order and interleaving. The completed calls, in the
order in which they completed, are a sequential history: run one after the other, each
alone, they return the same counts, bytes and arguments; the order agrees with each
thread's own; and when no call is in progress the disk, the file positions and the rest
of the shared state are what the sequential run leaves. -/
theorem fs_operations_atomic (g : Geometry) {ζ : Type} (kmalloc : Kmalloc ζ) (mt : Mounted)
    (m m' : Machine (FsState (Blk g ζ)) RefState KLock KCond FsRes FsOp) (es : List (Event FsOp))
    (hfresh : Machine.Fresh (kfsSys (blkBackend g kmalloc) Vioblk.serve mt) m)
    (hrun : m.runs (kfsSys (blkBackend g kmalloc) Vioblk.serve mt) es = some m') :
    Machine.Linear (kfsSys (blkBackend g kmalloc) Vioblk.serve mt) .flk (fun _ _ => True)
      m es m' := by
  refine Machine.runs_atomic (L := .flk) hfresh fsServe_once ?_ hrun
  refine Machine.along_of_forall (fun e _ m => ?_) m
  cases e with
  | call op => exact fun p hp => Or.inl (entry_fsCode (blkBackend_ok g kmalloc) hp)
  | run => trivial
  | preempt => trivial
  | dispatch => trivial
  | irq => trivial

/-! A concrete run: one file is open; thread 1 seeks in it, then reads it and sleeps for
the disk; thread 2, which shares the `io_intf`, waits for `flk`. -/

theorem sector_pos : 0 < 512 := by decide

/-- A disk of three file system blocks. -/
def smallDisk : Geometry where
  blksz := 512
  size := 12288
  blksz_pos := sector_pos
  size_sectors := by decide
  size_lt := by decide

/-- Slot 0 is the file with inode 0. -/
def oneFile : Mounted where
  slots i := if i.val = 0 then ⟨some 7, 0, 0⟩ else ⟨none, 0, 0⟩
  numInodes := 1

/-- The file system over the small disk. -/
abbrev smallSys : Sys (FsState (Blk smallDisk Unit)) RefState KLock KCond FsRes FsOp :=
  kfsSys (blkBackend smallDisk blankAlloc) Vioblk.serve oneFile

/-- Thread 1 runs and thread 2 is ready, both in user mode. -/
def twoReaders : Machine (FsState (Blk smallDisk Unit)) RefState KLock KCond FsRes FsOp where
  sh :=
    { below :=
        { dev :=
            { opened := true, pos := 0, reqType := .tIn, reqSector := 0, descWrite := true
              blkbuf := List.Vector.replicate _ 0, pending := false
              disk := List.Vector.replicate _ 0 }
          heap := () }
      filePosition := fun _ => 0 }
  aux := { refcnt := fun _ => 2, inUse := fun _ => true }
  tid _ := -1
  q := { running := some 1, ready := [2], waiting := fun _ => [] }
  mode _ := .user
  inside _ := []
  calls _ := []
  log := []

theorem twoReaders_fresh : Machine.Fresh smallSys twoReaders where
  wf := by
    constructor <;> simp [twoReaders]
  free _ := rfl
  quiet := rfl
  user _ := rfl
  calls _ := rfl
  log := rfl

def sharedFileRun : List (Event FsOp) :=
  [.call (.ioctl 7 IOCTL_SETPOS 3)] ++ List.replicate 5 .run ++ [.call (.read 7 [9])] ++
    List.replicate 14 .run ++ [.call (.ioctl 7 IOCTL_GETPOS 0), .run, .irq, .dispatch, .run]

theorem fs_operations_atomic_shared :
    ∃ m', twoReaders.runs smallSys sharedFileRun = some m' ∧
      Machine.Linear smallSys .flk (fun _ _ => True) twoReaders sharedFileRun m' := by
  have hsome : (twoReaders.runs smallSys sharedFileRun).isSome = true := by decide +kernel
  obtain ⟨m', hrun⟩ := Option.isSome_iff_exists.mp hsome
  exact ⟨m', hrun, fs_operations_atomic smallDisk blankAlloc oneFile twoReaders m' sharedFileRun
    twoReaders_fresh hrun⟩

end Kfs

end RiscvKernel
