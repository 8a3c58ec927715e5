import RiscvKernel.Fs.OpenTable
import RiscvKernel.Fs.Lookup
import RiscvKernel.Sys.Syscall

/-!
# What a failed `fs_open` leaves behind

`fs_open` takes `flk` when it is entered and gives it back on its last line only. It has three
other exits: the name is not in the directory, the inode cannot be read, and the table of open
files is full. All of them return with `flk` held, and at the last one `*io` has been replaced,
so that `sysfsopen` has replaced the caller's descriptor as well.

* `solo_fsOpen_cases`: the ways in which `fs_open` returns, and that it fails exactly when the
  file is not `Openable`.
* `fs_open_failure_clean_iff`: no failure leaves everything as it was.
-/

namespace RiscvKernel

open Lib

namespace Kfs

variable {β : Type} {be : Backend β} {serve : β → Option β}

/-- The state behind `system_io` has become `b`. -/
def KfsState.setBelow (kfs : KfsState β) (b : β) : KfsState β :=
  { kfs with fs := { kfs.fs with below := b } }

/-- One more `io_intf` has been allocated. -/
def KfsState.takeIo (kfs : KfsState β) : KfsState β :=
  { kfs with table := { kfs.table with nextIo := kfs.table.nextIo + 1 } }

/-- The ways in which `fs_open` returns: what it returns and has stored through `io`, the locks
that are held, and the file system. -/
inductive OpenOutcome (kfs : KfsState β) :
    Int × Option Nat → (KLock → Bool) → KfsState β → Prop where
  | notFound : OpenOutcome kfs (-ENOENT, none) onlyFlk kfs
  | readError (b : β) : OpenOutcome kfs (-EFILESYS, none) onlyFlk (kfs.setBelow b)
  | tableFull (b : β) (hfull : freeSlot kfs.table = none) :
      OpenOutcome kfs (-EFILESYS, some kfs.table.nextIo) onlyFlk (kfs.setBelow b).takeIo
  | opened (b : β) (i : Fin MAX_OPEN_FILE_CT) (slot : Slot) (hfree : freeSlot kfs.table = some i) :
      OpenOutcome kfs (0, some kfs.table.nextIo) Machine.noLocks
        (fillSlot i slot (kfs.setBelow b).takeIo)

/-- How `system_io` answers when `fs_open` reads the block of an inode. -/
def inodeRead (be : Backend β) (inode : Nat) : Prog β KLock KCond Int := do
  let _ ← be.sysIo.ctl IOCTL_SETPOS (u32 (FS_BLKSZ * inode + FS_BLKSZ : Nat))
  let fresh ← be.kmalloc FS_BLKSZ
  let (result, _) ← be.sysIo.read fresh.toList
  return result

/-- The name is in the directory with the number of an inode, the inode can be read, and the table
of open files has a free slot. -/
def Openable (be : Backend β) (serve : β → Option β) (kfs : KfsState β) (name : Bytes) : Prop :=
  ∃ e result b, findEntry kfs.table.superBlock name = some e ∧
    le32 kfs.table.superBlock (dentry e + 32) ≠ u32 (-1) ∧
    (inodeRead be (le32 kfs.table.superBlock (dentry e + 32))).solo serve onlyFlk kfs.fs.below =
      some (result, onlyFlk, b) ∧ 0 ≤ result ∧ freeSlot kfs.table ≠ none

/-- A part of `fs_open` that uses `system_io` or the heap keeps `flk` and changes the state
behind `system_io` only. -/
theorem solo_below_inv {α : Type} {p : Prog β KLock KCond α}
    (hp : p.Disciplined serve .usedUpdated .flk onlyFlk onlyFlk) {kfs kfs' : KfsState β} {a : α}
    {held : KLock → Bool}
    (h : ((p.zoom (belowLens β)).zoom (fsLens β)).solo (kfsServe serve) onlyFlk kfs =
      some (a, held, kfs')) :
    held = onlyFlk ∧ ∃ b, p.solo serve onlyFlk kfs.fs.below = some (a, onlyFlk, b) ∧
      kfs' = kfs.setBelow b := by
  rw [Prog.solo_zoom, Prog.solo_zoom, Option.map_map] at h
  obtain ⟨⟨a', held', b⟩, hsolo, heq⟩ := Option.map_eq_some_iff.mp h
  cases heq
  obtain rfl : held' = onlyFlk := hp.held_of_solo hsolo
  exact ⟨rfl, b, hsolo, rfl⟩

/-- Every return of `fs_open` is one of these, and it is a success if the file is openable. -/
theorem solo_fsOpen_cases (hbe : be.Ok serve) {name : Bytes} {kfs kfs' : KfsState β}
    {r : Int × Option Nat} {held : KLock → Bool}
    (h : (fsOpen be name).solo (kfsServe serve) Machine.noLocks kfs = some (r, held, kfs')) :
    OpenOutcome kfs r held kfs' ∧ (Openable be serve kfs name ↔ 0 ≤ r.1) := by
  unfold fsOpen at h
  rw [Prog.solo_lock_bind rfl, Prog.solo_get_bind] at h
  change Prog.solo _ _ onlyFlk kfs = _ at h
  split at h
  · next hnone =>
    cases h
    refine ⟨.notFound, iff_of_false ?_ (by decide)⟩
    rintro ⟨e, -, -, he, -⟩
    rw [hnone] at he
    cases he
  next e hentry =>
  have hsame {e' : Nat} (he' : findEntry kfs.table.superBlock name = some e') : e' = e :=
    Option.some.inj (he'.symm.trans hentry)
  dsimp only at h
  split at h
  · next hmark =>
    cases h
    refine ⟨.notFound, iff_of_false ?_ (by decide)⟩
    rintro ⟨e', -, -, he', hinode, -⟩
    exact hinode (hsame he' ▸ hmark)
  next hinode =>
  -- the inode: position, buffer, read
  rw [Prog.solo_bind] at h
  obtain ⟨⟨_, held₁, kfs₁⟩, hseek, h⟩ := Option.bind_eq_some_iff.mp h
  obtain ⟨rfl, b₁, hat, rfl⟩ := solo_below_inv (hbe.io.ctl _ _) hseek
  rw [Prog.solo_bind] at h
  obtain ⟨⟨fresh, held₂, kfs₂⟩, halloc, h⟩ := Option.bind_eq_some_iff.mp h
  obtain ⟨rfl, b₂, hbuf, rfl⟩ := solo_below_inv (hbe.kmalloc _ _) halloc
  rw [Prog.solo_bind] at h
  obtain ⟨⟨⟨result, fileStruct⟩, held₃, kfs₃⟩, hread, h⟩ := Option.bind_eq_some_iff.mp h
  obtain ⟨rfl, b₃, hblk, rfl⟩ := solo_below_inv (hbe.io.read _) hread
  have hanswer : (inodeRead be (le32 kfs.table.superBlock (dentry e + 32))).solo serve onlyFlk
      kfs.fs.below = some (result, onlyFlk, b₃) :=
    (Prog.solo_bind_of_eq hat _).trans
      ((Prog.solo_bind_of_eq hbuf _).trans (Prog.solo_bind_of_eq hblk _))
  dsimp only at h
  split at h
  · next hneg =>
    cases h
    refine ⟨.readError b₃, iff_of_false ?_ (by decide)⟩
    rintro ⟨e', result', b', he', -, hanswer', hpos, -⟩
    -- the same question has one answer
    rw [hsame he', hanswer] at hanswer'
    cases hanswer'
    omega
  next hpos =>
  -- the new `io_intf`, and the search for a slot
  rw [Prog.solo_bind] at h
  obtain ⟨⟨_, held₄, kfs₄⟩, halloc', h⟩ := Option.bind_eq_some_iff.mp h
  obtain ⟨rfl, b₄, -, rfl⟩ := solo_below_inv (hbe.kmalloc _ _) halloc'
  rw [Prog.solo_get_bind, Prog.solo_modify_bind] at h
  dsimp only at h
  split at h
  · next hfull =>
    cases h
    refine ⟨.tableFull b₄ hfull, iff_of_false ?_ (by simp [EFILESYS])⟩
    rintro ⟨-, -, -, -, -, -, -, hroom⟩
    exact hroom hfull
  · next i hfree =>
    have hroom : freeSlot kfs.table ≠ none := Option.ne_none_iff_exists'.mpr ⟨i, hfree⟩
    rw [Prog.solo_modify_bind, Prog.solo_bind_of_eq (solo_unlock_flk _)] at h
    cases h
    exact ⟨.opened b₄ i _ hfree,
      iff_of_true ⟨e, result, b₃, hentry, hinode, hanswer, not_lt.mp hpos, hroom⟩ le_rfl⟩

/-- With `flk` held every `fs_open` waits forever. -/
theorem solo_fsOpen_held {held : KLock → Bool} (hheld : held .flk = true) (name : Bytes)
    (kfs : KfsState β) : (fsOpen be name).solo (kfsServe serve) held kfs = none :=
  Prog.solo_lock_bind_held hheld _ _

/-! ## In a system call -/

/-- `fs_open(name, &io)` as `sysfsopen` calls it. A call that does not return is not
represented. -/
def fsOpenOp (be : Backend β) (serve : β → Option β) (name : Bytes) :
    Option Nat → Sys.Op (FileSys β) (Int × Option Nat) := fun io s =>
  match (fsOpen be name).solo (kfsServe serve) (if s.held then onlyFlk else Machine.noLocks) s.kfs with
  | none => ((0, io), s, [])
  | some ((result, new), _) => ((result, new.or io), (openFile be serve name s).2, [])

theorem fsOpenOp_fst {name : Bytes} {s : FileSys β} {result : Int} {new : Option Nat}
    {r : (KLock → Bool) × KfsState β} (hfree : s.held = false)
    (hret : (fsOpen be name).solo (kfsServe serve) Machine.noLocks s.kfs = some ((result, new), r))
    (io : Option Nat) : (fsOpenOp be serve name io s).1 = (result, new.or io) := by
  unfold fsOpenOp
  rw [hfree, if_neg Bool.false_ne_true, hret]

/-- The kernel with this file system; `str` is the string at an address. -/
def kfsKern (be : Backend β) (serve : β → Option β) (str : Nat → Bytes) : Sys.Kern Nat (FileSys β) :=
  { Sys.quiet with fsOpen := fun name => fsOpenOp be serve (str name) }

/-- What a call of `fs_open` by `sysfsopen` must leave as it was when it fails: `flk`, what `io`
points to, the table of open files, and the descriptors of the caller. -/
structure CleanFailure (st st' : Sys.State Nat (FileSys β)) (io : Option Nat)
    (held : KLock → Bool) (kfs' : KfsState β) : Prop where
  lock : held .flk = st.below.held
  io : io = none
  slots : kfs'.table.slots = st.below.kfs.table.slots
  positions : kfs'.fs.filePosition = st.below.kfs.fs.filePosition
  iotab : st'.iotab = st.iotab

/-- When `fs_open` returns to `sysfsopen`, everything is as it was in case of a failure if and
only if the file is openable: after every failure `flk` is held, and no later `fs_open` returns. -/
theorem fs_open_failure_clean_iff (hbe : be.Ok serve) (str : Nat → Bytes)
    {st : Sys.State Nat (FileSys β)} (hfree : st.below.held = false) (fd : Int) (name : Nat)
    {result : Int} {io : Option Nat} {held : KLock → Bool} {kfs' : KfsState β}
    (hret : (fsOpen be (str name)).solo (kfsServe serve) Machine.noLocks st.below.kfs =
      some ((result, io), held, kfs')) :
    ((result < 0 → CleanFailure st (Sys.sysfsopen (kfsKern be serve str) fd name st).2 io held kfs')
      ↔ Openable be serve st.below.kfs (str name)) ∧
    (result < 0 → held .flk = true ∧ kfs'.table.slots = st.below.kfs.table.slots ∧
      ∀ later, (fsOpen be later).solo (kfsServe serve) held kfs' = none) := by
  obtain ⟨houtcome, hopen⟩ := solo_fsOpen_cases hbe hret
  have hfail : result < 0 → held .flk = true ∧ kfs'.table.slots = st.below.kfs.table.slots := by
    intro hneg
    cases houtcome with
    | notFound => exact ⟨rfl, rfl⟩
    | readError b => exact ⟨rfl, rfl⟩
    | tableFull b hfull => exact ⟨rfl, rfl⟩
    | opened b i slot hi => exact absurd hneg (lt_irrefl 0)
  rw [hopen]
  refine ⟨⟨fun hclean => ?_, fun hpos hneg => by omega⟩, fun hneg => ?_⟩
  · by_contra hneg
    rw [not_le] at hneg
    have hlock := (hclean hneg).lock
    rw [(hfail hneg).1, hfree] at hlock
    cases hlock
  · obtain ⟨hlock, hslots⟩ := hfail hneg
    exact ⟨hlock, hslots, fun later => solo_fsOpen_held hlock later kfs'⟩

end Kfs

namespace Mkfs

open Kfs

/-- A process on the mounted image of `OpenTable`, with descriptor 3 in use; the names are at
the addresses 0 and 1. -/
def callerAB (s : FileSys (Blk geometryAB Unit)) : Sys.State Nat (FileSys (Blk geometryAB Unit)) where
  iotab i := if i = 3 then some 99 else none
  below := s
  log := []

def namesAB (a : Nat) : Bytes := if a = 0 then ascii "a" else ascii "nosuch"

/-- Opening an existing file succeeds. -/
theorem fs_open_failure_clean_known : ∃ io held kfs',
    (fsOpen backendAB (namesAB 0)).solo (kfsServe Vioblk.serve) Machine.noLocks mountedAB.kfs =
      some ((0, io), held, kfs') ∧
    ((0 : Int) < 0 → CleanFailure (callerAB mountedAB)
      (Sys.sysfsopen (kfsKern backendAB Vioblk.serve namesAB) 3 0 (callerAB mountedAB)).2 io held
      kfs') := by
  have hs := allClosed_mountedAB
  obtain ⟨b, fileStruct, inode, -, -, hopen⟩ := solo_fsOpen_known medium_AB (blkBackend_ok _ _)
    hs.mounted known_a
  have hroom : freeSlot mountedAB.kfs.table = some ⟨0, by decide⟩ := rfl
  rw [hroom] at hopen
  have hfree : (callerAB mountedAB).below.held = false := rfl
  refine ⟨_, _, _, hopen, ?_⟩
  exact (fs_open_failure_clean_iff (blkBackend_ok _ _) namesAB hfree 3 0 hopen).1.mpr
    ((solo_fsOpen_cases (blkBackend_ok _ _) hopen).2.mpr le_rfl)

def directoryAB : Names where
  names := [ascii "a", ascii "b"]
  count := by decide
  distinct := by decide
  cstr := by decide
  pos := by decide
  fits := by decide

theorem not_known_nosuch : ¬Known (bootBlock filesAB.files) (ascii "nosuch") := by
  have hnames : filesAB.files.map HostFile.name = directoryAB.names := rfl
  unfold Known
  rw [bootBlock_eq_namesBlock, hnames, directoryAB.findEntry_isSome_iff]
  decide +kernel

/-- Opening a name that does not exist returns with `flk` held, and then the file `a` is never
opened again. Opening `a` when all slots have been used fails, but replaces the caller's
descriptor 3. -/
theorem fs_open_failure_not_clean :
    ((openFile backendAB Vioblk.serve (ascii "nosuch") mountedAB).1 = some (-ENOENT) ∧
      mountedAB.held = false ∧
      (openFile backendAB Vioblk.serve (ascii "nosuch") mountedAB).2.held = true ∧
      (openFile backendAB Vioblk.serve (ascii "a")
        (openFile backendAB Vioblk.serve (ascii "nosuch") mountedAB).2).1 = none) ∧
    ∃ s, calls backendAB Vioblk.serve mountedAB (rounds (ascii "a") 0 32) = s ∧
      (Sys.sysfsopen (kfsKern backendAB Vioblk.serve namesAB) 3 0 (callerAB s)).1 =
        some (-ENOENT) ∧
      (callerAB s).iotab 3 = some 99 ∧
      (Sys.sysfsopen (kfsKern backendAB Vioblk.serve namesAB) 3 0 (callerAB s)).2.iotab 3 =
        some 32 := by
  have hs := allClosed_mountedAB
  have hunknown : openFile backendAB Vioblk.serve (ascii "nosuch") mountedAB = _ :=
    openFile_unknown hs.mounted hs.held not_known_nosuch
  constructor
  · rw [hunknown]
    refine ⟨rfl, rfl, rfl, ?_⟩
    rw [openFile_blocked rfl]
  · obtain ⟨-, hend⟩ := results_rounds medium_AB (blkBackend_ok _ _) known_a 32 hs (by decide)
    refine ⟨_, rfl, ?_⟩
    generalize calls backendAB Vioblk.serve mountedAB (rounds (ascii "a") 0 32) = s at hend ⊢
    obtain ⟨b, fileStruct, inode, -, -, hopen⟩ := solo_fsOpen_known medium_AB
      (blkBackend_ok _ _) hend.mounted known_a
    rw [freeSlot_eq_none.mpr hend.card] at hopen
    have hname : namesAB 0 = ascii "a" := rfl
    have hnext : s.kfs.table.nextIo = 32 := hend.nextIo
    have hop (io : Option Nat) : (fsOpenOp backendAB Vioblk.serve (namesAB 0) io s).1 =
        (-EFILESYS, some 32) := by
      rw [hname, fsOpenOp_fst hend.held hopen, hnext, Option.some_or]
    obtain ⟨hret, hiotab⟩ := Sys.sysfsopen_of_in (k := kfsKern backendAB Vioblk.serve namesAB)
      (s := callerAB s) 0 rfl (by decide : (0 : Int) ≤ 3) (by decide)
    refine ⟨hret.trans ?_, rfl, (congrFun hiotab 3).trans ?_⟩
    · show (if (fsOpenOp _ _ _ _ s).1.1 < 0 then _ else _) = _
      rw [hop]
      rfl
    · rw [show Int.toNat 3 = 3 from rfl, Function.update_self]
      exact congrArg Prod.snd (hop _)

end Mkfs

end RiscvKernel
