import RiscvKernel.Io.Vioblk
import RiscvKernel.Sync.Atomic

/-!
# KFS

The file operations of `kfs.c` over an arbitrary `system_io` with state `β`. They take
`flk` and release it several times in one call, and `fs_write` positions the device
while it does not hold it.

`fs_mount` and `fs_open` fill the superblock and the columns `io_intf`, `file_size` and
`inode` of the open-file table (`Table`); the operations on open files only read them
(`Mounted`). They write the column `file_position`, which is the state they share, and
`fs_close` writes the reference count and `usage_flag`, which nothing else looks at.
-/

namespace RiscvKernel

open Lib

/-- `FS_BLKSZ` -/
def FS_BLKSZ : Nat := 4096

/-- `DATA_BLOCK_NUM` -/
def DATA_BLOCK_NUM : Nat := 1023

/-- `MAX_OPEN_FILE_CT` -/
def MAX_OPEN_FILE_CT : Nat := 32

/-- The columns of `file_t` that only `fs_open` writes. `io = none` is a null pointer. -/
structure Slot where
  io : Option Nat
  fileSize : Nat
  inode : Nat

/-- What mounting and opening have set up. -/
structure Mounted where
  slots : Fin MAX_OPEN_FILE_CT → Slot
  numInodes : Nat

/-- The state the file operations share: `system_io` and everything behind it, and the
`file_position` of each slot. -/
structure FsState (β : Type) where
  below : β
  filePosition : Fin MAX_OPEN_FILE_CT → Nat

/-- The state behind `system_io`, as a part of the whole. -/
def belowLens (β : Type) : Lens (FsState β) β where
  view s := s.below
  put s b := { s with below := b }
  view_put _ _ := rfl
  put_view _ := rfl
  put_put _ _ _ := rfl

namespace Kfs

variable {β : Type}

abbrev Code (β α : Type) := Prog (FsState β) KLock KCond α

/-- What a file operation uses: `system_io` and `kmalloc`. -/
structure Backend (β : Type) where
  sysIo : IoIntf β KLock KCond
  kmalloc : (n : Nat) → Prog β KLock KCond (List.Vector UInt8 n)

/-- `system_io`, called from a file operation. -/
def Backend.io (be : Backend β) : IoIntf (FsState β) KLock KCond := be.sysIo.zoom (belowLens β)

/-- `kmalloc`, called from a file operation. -/
def Backend.alloc (be : Backend β) (n : Nat) : Code β (List.Vector UInt8 n) :=
  (be.kmalloc n).zoom (belowLens β)

/-- The device behind the file system: that of the back end. -/
abbrev fsServe (serve : β → Option β) : FsState β → Option (FsState β) :=
  (belowLens β).serve serve

/-! ## The open-file table -/

/-- The first slot of `io`: the loops that `break`. -/
def firstSlot (mt : Mounted) (io : Nat) : Option (Fin MAX_OPEN_FILE_CT) :=
  (List.finRange MAX_OPEN_FILE_CT).find? fun i => (mt.slots i).io = some io

/-- The last slot of `io`: the loop of `fs_ioctl`, which does not `break`. -/
def lastSlot (mt : Mounted) (io : Nat) : Option (Fin MAX_OPEN_FILE_CT) :=
  (List.finRange MAX_OPEN_FILE_CT).reverse.find? fun i => (mt.slots i).io = some io

/-- Store an `int` through a pointer to a 64-bit argument. -/
def storeInt (arg : Nat) (x : Int) : Nat := arg / 2 ^ 32 * 2 ^ 32 + u32 x

/-- The `switch` of `fs_ioctl`: `fs_getlen`, `fs_getpos`, `fs_setpos`, `fs_getblksz`. -/
def ioctlBody (mt : Mounted) (i : Fin MAX_OPEN_FILE_CT) (cmd arg : Nat) : Code β (Int × Nat) := do
  let s ← Prog.get
  if cmd = IOCTL_GETLEN then
    return (i32 (mt.slots i).fileSize, storeInt arg (mt.slots i).fileSize)
  else if cmd = IOCTL_GETPOS then
    return (i32 (s.filePosition i), storeInt arg (s.filePosition i))
  else if cmd = IOCTL_SETPOS then
    Prog.modify fun s =>
      { s with filePosition := Function.update s.filePosition i (u64 (i32 arg)) }
    return (i32 arg, arg)
  else if cmd = IOCTL_GETBLKSZ then
    return (i32 FS_BLKSZ, storeInt arg FS_BLKSZ)
  else return (-EFILESYS, arg)

/-- `fs_ioctl` -/
def fsIoctl (mt : Mounted) (io cmd arg : Nat) : Code β (Int × Nat) :=
  match lastSlot mt io with
  | none => .ret (-EFILESYS, arg)
  | some i => do
    Prog.lock .flk
    let r ← ioctlBody mt i cmd arg
    Prog.unlock .flk
    return r

/-! ## Inodes -/

/-- The little-endian `uint32_t` at offset `off`. -/
def le32 (b : Bytes) (off : Nat) : Nat :=
  (b.getD off 0).toNat + 2 ^ 8 * (b.getD (off + 1) 0).toNat + 2 ^ 16 * (b.getD (off + 2) 0).toNat +
    2 ^ 24 * (b.getD (off + 3) 0).toNat

/-- `byte_len` of an inode block. -/
def byteLen (inode : Bytes) : Nat := le32 inode 0

/-- `data_block_num[i]` of an inode block. -/
def dataBlockNum (inode : Bytes) (i : Nat) : Nat := le32 inode (4 + 4 * i)

/-- Byte position of data block `num`, in the 32-bit arithmetic of the source. -/
def blockStart (mt : Mounted) (num : Nat) : Nat :=
  u32 ((num + mt.numInodes) * FS_BLKSZ + FS_BLKSZ : Nat)

/-- Take `flk`, position `system_io` on the inode block and read it into a fresh buffer,
and clamp `n` to what is left of the file from `pos` on. -/
def readInode (be : Backend β) (inode pos n : Nat) : Code β (Bytes × Nat) := do
  let _ ← be.io.ctl IOCTL_SETPOS (u64 (inode * FS_BLKSZ + FS_BLKSZ : Nat))
  let fresh ← be.alloc FS_BLKSZ
  let (_, fileStruct) ← be.io.ioreadFull fresh.toList
  if byteLen fileStruct < u64 (pos + n : Nat) then
    return (fileStruct, u64 ((byteLen fileStruct : Int) - pos))
  else return (fileStruct, n)

/-- How a transfer is cut into blocks. -/
structure Plan where
  leadingCompensation : Nat
  cycle : Nat
  remainder : Nat

/-- What is left of a block from `pos` on, 0 at its beginning. -/
def compensation (pos : Nat) : Nat :=
  if FS_BLKSZ - pos % FS_BLKSZ = FS_BLKSZ then 0 else FS_BLKSZ - pos % FS_BLKSZ

/-- `leading_compensation`, `cycle` and `remainder` for `n` bytes at `pos`. -/
def plan (pos n : Nat) : Plan :=
  let lc := compensation pos
  if n < lc then ⟨0, 0, n⟩
  else ⟨lc, u64 ((n : Int) - lc) / FS_BLKSZ, u64 ((n : Int) - lc) % FS_BLKSZ⟩

/-- Position `system_io` on the data block with index `i` of the file. -/
def seekBlock (be : Backend β) (mt : Mounted) (fileStruct : Bytes) (i leading : Nat) :
    Code β Unit := do
  Prog.assert (i < DATA_BLOCK_NUM)
  let _ ← be.io.ctl IOCTL_SETPOS (u64 (blockStart mt (dataBlockNum fileStruct i) + leading : Nat))

/-! ## `fs_read` -/

/-- `ioread_full(system_io, buf + idx, len)` -/
def readPart (be : Backend β) (buf : Bytes) (idx len : Nat) : Code β Bytes := do
  Prog.assert (idx + len ≤ buf.length)
  let (_, part) ← be.io.ioreadFull (slice buf idx len)
  return patch buf idx part

/-- The loop of `fs_read` over the data blocks from index `i` on. -/
def readBlocks (be : Backend β) (mt : Mounted) (fileStruct : Bytes) :
    Nat → Nat → Plan → Nat → Bytes → Code β Bytes
  | 0, _, _, _, buf => .ret buf
  | rounds + 1, i, p, idx, buf =>
    if p.leadingCompensation ≠ 0 then do
      let buf ← readPart be buf idx p.leadingCompensation
      seekBlock be mt fileStruct (i + 1) 0
      readBlocks be mt fileStruct rounds (i + 1) { p with leadingCompensation := 0 }
        (idx + p.leadingCompensation) buf
    else if p.cycle = 0 then readPart be buf idx p.remainder
    else do
      let buf ← readPart be buf idx FS_BLKSZ
      seekBlock be mt fileStruct (i + 1) 0
      readBlocks be mt fileStruct rounds (i + 1) { p with cycle := p.cycle - 1 }
        (idx + FS_BLKSZ) buf

/-- `fs_read` -/
def fsRead (be : Backend β) (mt : Mounted) (io : Nat) (buf : Bytes) : Code β (Int × Bytes) := do
  let (pos, _) ← fsIoctl mt io IOCTL_GETPOS 0
  match firstSlot mt io with
  | none => return (-EFILESYS, buf)
  | some slot =>
    let pos := u64 pos
    Prog.lock .flk
    let (fileStruct, n) ← readInode be (mt.slots slot).inode pos buf.length
    Prog.unlock .flk
    Prog.lock .flk
    seekBlock be mt fileStruct (pos / FS_BLKSZ) (pos % FS_BLKSZ)
    let buf ← readBlocks be mt fileStruct (DATA_BLOCK_NUM - pos / FS_BLKSZ) (pos / FS_BLKSZ)
      (plan pos n) 0 buf
    Prog.unlock .flk
    let _ ← fsIoctl mt io IOCTL_SETPOS (u64 (pos + n : Nat))
    return (i64 n, buf)

/-! ## `fs_write` -/

/-- `iowrite(system_io, buf + idx, len)` -/
def writePart (be : Backend β) (buf : Bytes) (idx len : Nat) : Code β Unit := do
  Prog.assert (idx + len ≤ buf.length)
  let _ ← be.io.iowrite (slice buf idx len)

/-- The loop of `fs_write` over the data blocks from index `i` on. -/
def writeBlocks (be : Backend β) (mt : Mounted) (fileStruct buf : Bytes) :
    Nat → Nat → Plan → Nat → Code β Unit
  | 0, _, _, _ => .ret ()
  | rounds + 1, i, p, idx =>
    if p.leadingCompensation ≠ 0 then do
      writePart be buf idx p.leadingCompensation
      seekBlock be mt fileStruct (i + 1) 0
      writeBlocks be mt fileStruct buf rounds (i + 1) { p with leadingCompensation := 0 }
        (idx + p.leadingCompensation)
    else if p.cycle = 0 then writePart be buf idx p.remainder
    else do
      writePart be buf idx FS_BLKSZ
      seekBlock be mt fileStruct (i + 1) 0
      writeBlocks be mt fileStruct buf rounds (i + 1) { p with cycle := p.cycle - 1 }
        (idx + FS_BLKSZ)

/-- `fs_write` -/
def fsWrite (be : Backend β) (mt : Mounted) (io : Nat) (buf : Bytes) : Code β Int := do
  let (pos, _) ← fsIoctl mt io IOCTL_GETPOS 0
  match firstSlot mt io with
  | none => return -EFILESYS
  | some slot =>
    let pos := u64 pos
    Prog.lock .flk
    let (fileStruct, n) ← readInode be (mt.slots slot).inode pos buf.length
    Prog.unlock .flk
    -- the device is positioned before the lock is taken back
    seekBlock be mt fileStruct (pos / FS_BLKSZ) (pos % FS_BLKSZ)
    Prog.lock .flk
    writeBlocks be mt fileStruct buf (DATA_BLOCK_NUM - pos / FS_BLKSZ) (pos / FS_BLKSZ)
      (plan pos n) 0
    Prog.unlock .flk
    let _ ← fsIoctl mt io IOCTL_SETPOS (u64 (pos + n : Nat))
    return i64 n

/-! ## `fs_close` -/

/-- What only `fs_close` looks at: the reference count of each `io_intf`, a `uint32_t`,
and which slots are marked in use. -/
structure RefState where
  refcnt : Nat → Nat
  inUse : Fin MAX_OPEN_FILE_CT → Bool

/-- `fs_close` -/
def fsClose (mt : Mounted) (io : Nat) (r : RefState) : RefState :=
  match firstSlot mt io with
  | none => r
  | some i =>
    let cnt := u32 ((r.refcnt io : Int) - 1)
    { refcnt := Function.update r.refcnt io cnt
      inUse := if cnt = 0 then Function.update r.inUse i false else r.inUse }

/-! ## `fs_mount` and `fs_open` -/

/-- What `fs_mount` and `fs_open` write: the superblock, and the columns of the open-file
table other than `file_position`. `nextIo` names the next `io_intf` that `kmalloc` gives. -/
structure Table where
  superBlock : Bytes
  slots : Fin MAX_OPEN_FILE_CT → Slot
  nextIo : Nat

/-- The table as the file operations see it; `num_inodes` is at offset 4. -/
def Table.mounted (t : Table) : Mounted := ⟨t.slots, le32 t.superBlock 4⟩

structure KfsState (β : Type) where
  fs : FsState β
  table : Table

/-- The part of the state that the operations on open files share. -/
def fsLens (β : Type) : Lens (KfsState β) (FsState β) where
  view s := s.fs
  put s f := { s with fs := f }
  view_put _ _ := rfl
  put_view _ := rfl
  put_put _ _ _ := rfl

/-- `fs_mount`: the first block of the device is the superblock. -/
def fsMount (be : Backend β) : Prog (KfsState β) KLock KCond Int := do
  let s ← Prog.get
  let (result, superBlock) ← (be.io.ioreadFull s.table.superBlock).zoom (fsLens β)
  Prog.modify fun s => { s with table := { s.table with superBlock := superBlock } }
  if result < 0 then return -EFILESYS else return 0

/-- `DIR_ENTRY_CT` -/
def DIR_ENTRY_CT : Nat := 63

/-- The string that starts at an address: the bytes before the first NUL. -/
def cstr (b : Bytes) : Bytes := b.takeWhile (· ≠ 0)

/-- Offset of `dir_entries[i]` in the superblock. -/
def dentry (i : Nat) : Nat := 64 + 64 * i

/-- The first directory entry whose name is `name`. -/
def findEntry (superBlock name : Bytes) : Option Nat :=
  (List.range DIR_ENTRY_CT).find? fun i => cstr (superBlock.drop (dentry i)) = name

/-- The first slot that is free, which is one that was never used. -/
def freeSlot (t : Table) : Option (Fin MAX_OPEN_FILE_CT) :=
  (List.finRange MAX_OPEN_FILE_CT).find? fun i => (t.slots i).io = none

/-- Fill a slot of the open-file table. -/
def fillSlot (i : Fin MAX_OPEN_FILE_CT) (slot : Slot) (s : KfsState β) : KfsState β :=
  { fs := { s.fs with filePosition := Function.update s.fs.filePosition i 0 }
    table := { s.table with slots := Function.update s.table.slots i slot } }

/-- `fs_open`. It returns the new `io_intf`; on its error paths it returns with `flk`
held. -/
def fsOpen (be : Backend β) (name : Bytes) : Prog (KfsState β) KLock KCond (Int × Option Nat) := do
  Prog.lock .flk
  let s ← Prog.get
  match findEntry s.table.superBlock name with
  | none => return (-ENOENT, none)
  | some e =>
    let inode := le32 s.table.superBlock (dentry e + 32)
    if inode = u32 (-1) then return (-ENOENT, none)
    else
      let _ ← (be.io.ctl IOCTL_SETPOS (u32 (FS_BLKSZ * inode + FS_BLKSZ : Nat))).zoom (fsLens β)
      let fresh ← (be.alloc FS_BLKSZ).zoom (fsLens β)
      let (result, fileStruct) ← (be.io.read fresh.toList).zoom (fsLens β)
      if result < 0 then return (-EFILESYS, none)
      else
        -- `kmalloc(sizeof(struct io_intf))`
        let _ ← (be.alloc 16).zoom (fsLens β)
        let s ← Prog.get
        Prog.modify fun s => { s with table := { s.table with nextIo := s.table.nextIo + 1 } }
        match freeSlot s.table with
        | none => return (-EFILESYS, some s.table.nextIo)
        | some i =>
          Prog.modify (fillSlot i ⟨some s.table.nextIo, byteLen fileStruct, inode⟩)
          Prog.unlock .flk
          return (0, some s.table.nextIo)

/-- `fs_read` on the table as it is. -/
def readFile (be : Backend β) (io : Nat) (buf : Bytes) :
    Prog (KfsState β) KLock KCond (Int × Bytes) := do
  let s ← Prog.get
  (fsRead be s.table.mounted io buf).zoom (fsLens β)

end Kfs

end RiscvKernel
