import RiscvKernel.Io.Intf
import RiscvKernel.Lib.Bytes
import RiscvKernel.Lib.CInt

/-!
# The VirtIO block device driver

`vioblk.c`: one request at a time through one block buffer, one shared position, and
the lock `vlk`. The code is a `Lib.Prog` over the driver's and the device's state, with
the C integer conversions where the source has them.

* `vioblkRead` and `vioblkWrite` clamp the length and sample `old_pos` *before* they
  acquire `vlk`.
* `vioblkWrite` releases `vlk` around the read half of each read-modify-write.
* An access outside a buffer stops the model (`crash`).
-/

namespace RiscvKernel

open Lib

/-- The sleep locks of the I/O stack: `flk` of `kfs.c` and `vlk` of `vioblk.c`. -/
inductive KLock where
  | flk
  | vlk
  deriving DecidableEq

/-- The conditions other than those of locks: `vq.used_updated`. -/
inductive KCond where
  | usedUpdated
  deriving DecidableEq

/-- `kmalloc`, as far as its callers see it: a block of the requested size with arbitrary
old contents, or a panic when the pages run out. `ζ` is the state of the allocator. -/
abbrev Kmalloc (ζ : Type) := (n : Nat) → ζ → Option (List.Vector UInt8 n × ζ)

/-- A call of `kmalloc(n)` in a state that has the allocator's in it. -/
def kmallocIn {σ ζ : Type} (heap : σ → ζ) (setHeap : ζ → σ → σ) (kmalloc : Kmalloc ζ) (n : Nat) :
    Prog σ KLock KCond (List.Vector UInt8 n) :=
  .act (fun s => match kmalloc n (heap s) with
      | some (_, z) => setHeap z s
      | none => s)
    fun s => match kmalloc n (heap s) with
      | some (b, _) => .ret b
      | none => .crash

/-- Zeroed memory without end. -/
def zeroPages (n : Nat) (_ : Unit) : List.Vector UInt8 n × Unit := (List.Vector.replicate n 0, ())

/-- An allocator that never runs out. -/
def blankAlloc : Kmalloc Unit := fun n z => some (zeroPages n z)

/-! ## The device -/

/-- What `vioblk_attach` finds out about the device: `dev->blksz`, and `dev->size`, a
whole number of 512-byte sectors. -/
structure Geometry where
  blksz : Nat
  size : Nat
  blksz_pos : 0 < blksz
  size_sectors : 512 ∣ size
  size_lt : size < 2 ^ 64

/-- `VIRTIO_BLK_T_IN` and `VIRTIO_BLK_T_OUT` -/
inductive ReqType where
  | tIn
  | tOut
  deriving DecidableEq

/-- `struct vioblk_device`, with the medium behind it. `pending`: a request has been put
in the avail ring and notified, and the device has not used it yet. -/
structure VioblkDevice (g : Geometry) where
  opened : Bool
  pos : Nat
  reqType : ReqType
  reqSector : Nat
  descWrite : Bool
  blkbuf : List.Vector UInt8 g.blksz
  pending : Bool
  disk : List.Vector UInt8 g.size

/-- The driver's state: the device and the allocator it takes its buffers from. -/
structure Blk (g : Geometry) (ζ : Type) where
  dev : VioblkDevice g
  heap : ζ

namespace Vioblk

variable {g : Geometry} {ζ : Type}

/-- Overwrite a part of a block; the range must lie inside. -/
def patchVec {n : Nat} (v : List.Vector UInt8 n) (p : Nat) (b : Bytes) (h : p + b.length ≤ n) :
    List.Vector UInt8 n :=
  ⟨patch v.toList p b, by
    rw [length_patch (by rw [v.toList_length]; exact h), v.toList_length]⟩

/-- The device carries out the request in the header. A request outside the medium, or
with the data buffer of the wrong direction, completes with an error status and moves
no data. -/
def transfer (d : VioblkDevice g) : VioblkDevice g :=
  if h : d.reqSector * 512 + g.blksz ≤ g.size then
    match d.reqType, d.descWrite with
    | .tIn, true =>
      { d with blkbuf := ⟨slice d.disk.toList (d.reqSector * 512) g.blksz,
          length_slice (by rw [d.disk.toList_length]; exact h)⟩ }
    | .tOut, false =>
      have hbuf : d.reqSector * 512 + d.blkbuf.toList.length ≤ g.size := by
        rw [d.blkbuf.toList_length]; exact h
      { d with disk := patchVec d.disk (d.reqSector * 512) d.blkbuf.toList hbuf }
    | _, _ => d
  else d

/-- The device serves the pending request, if there is one. -/
def serve (s : Blk g ζ) : Option (Blk g ζ) :=
  if s.dev.pending then some { s with dev := { transfer s.dev with pending := false } } else none

/-! ## The driver -/

/-- The code of the driver. -/
abbrev Code (g : Geometry) (ζ α : Type) := Prog (Blk g ζ) KLock KCond α

/-- Fill in the request header and the descriptor flag. -/
def setRequest (ty : ReqType) (sector : Int) (s : Blk g ζ) : Blk g ζ :=
  { s with dev := { s.dev with
      reqType := ty, reqSector := u64 sector, descWrite := decide (ty = .tIn) } }

/-- `avail.idx++` and `virtio_notify_avail` -/
def notifyAvail (s : Blk g ζ) : Blk g ζ := { s with dev := { s.dev with pending := true } }

def setPos (pos : Nat) (s : Blk g ζ) : Blk g ζ := { s with dev := { s.dev with pos := pos } }

def setBlkbuf (b : List.Vector UInt8 g.blksz) (s : Blk g ζ) : Blk g ζ :=
  { s with dev := { s.dev with blkbuf := b } }

def setHeap (heap : ζ) (s : Blk g ζ) : Blk g ζ := { s with heap := heap }

@[simp] theorem setPos_pos (pos : Nat) (s : Blk g ζ) : (setPos pos s).dev.pos = pos := rfl

@[simp] theorem setPos_disk (pos : Nat) (s : Blk g ζ) : (setPos pos s).dev.disk = s.dev.disk := rfl

@[simp] theorem setHeap_dev (heap : ζ) (s : Blk g ζ) : (setHeap heap s).dev = s.dev := rfl

/-- `kmalloc(n)` -/
def alloc (kmalloc : Kmalloc ζ) (n : Nat) : Code g ζ (List.Vector UInt8 n) :=
  kmallocIn Blk.heap setHeap kmalloc n

/-- The contents of a buffer of `n` bytes. -/
def block (n : Nat) (b : Bytes) : Code g ζ (List.Vector UInt8 n) :=
  if h : b.length = n then .ret ⟨b, h⟩ else .crash

/-- `int sector = dev->pos / dev->blksz` -/
def sectorOf (g : Geometry) (pos : Nat) : Int := i32 (pos / g.blksz : Nat)

/-- How many of `n` bytes at `pos` are transferred with block `sector`: `n` as an `int`,
cut at the end of the block. -/
def countOf (g : Geometry) (sector : Int) (pos n : Nat) : Int :=
  let count := i32 n
  let boundary := i32 ((sector + 1) * g.blksz)
  if u64 boundary < u64 (pos + count) then i32 (boundary - pos) else count

/-- `vioblk_read` and `vioblk_write` before the lock: the length clamped to what is left
of the device. -/
def clampLen (g : Geometry) (pos n : Nat) : Nat :=
  let n := if longMax < n then longMax else n
  if g.size < u64 (pos + n) then u64 ((g.size : Int) - pos) else n

/-- The loop of `vioblk_read`: `bufsz` bytes are still to be read, to `buf + off`. Every
round that makes progress reads at least one byte, so `bufsz` rounds are enough. -/
def readLoop : Nat → Nat → Nat → Bytes → Code g ζ Bytes
  | 0, bufsz, _, buf => if bufsz = 0 then .ret buf else .crash
  | rounds + 1, bufsz, off, buf =>
    if bufsz = 0 then .ret buf else do
      let s ← Prog.get
      let sector := sectorOf g s.dev.pos
      Prog.modify (setRequest .tIn sector)
      Prog.waitFor notifyAvail .usedUpdated
      let s ← Prog.get
      let count := countOf g sector s.dev.pos bufsz
      let start := s.dev.pos % g.blksz
      Prog.assert (0 ≤ count ∧ start + count ≤ g.blksz ∧ off + count ≤ buf.length)
      Prog.modify (setPos (u64 (s.dev.pos + count)))
      readLoop rounds (u64 (bufsz - count)) (off + count.toNat)
        (patch buf off (slice s.dev.blkbuf.toList start count.toNat))

/-- `vioblk_read` -/
def vioblkRead (buf : Bytes) : Code g ζ (Int × Bytes) := do
  let s ← Prog.get
  if s.dev.opened = false then return (-EBADFMT, buf)
  else if buf.length = 0 then return (0, buf)
  else
    let bufsz := clampLen g s.dev.pos buf.length
    let oldPos := s.dev.pos
    Prog.lock .vlk
    let buf ← readLoop bufsz bufsz 0 buf
    Prog.unlock .vlk
    let s ← Prog.get
    return (i64 (s.dev.pos - oldPos), buf)

/-- The body of `vioblk_ioctl`, between acquire and release. -/
def ioctlBody (cmd arg : Nat) : Code g ζ (Int × Nat) := do
  let s ← Prog.get
  if cmd = IOCTL_GETLEN then return (i32 g.size, g.size)
  else if cmd = IOCTL_GETPOS then return (i32 s.dev.pos, s.dev.pos)
  else if cmd = IOCTL_SETPOS then
    Prog.modify (setPos arg)
    return (i32 arg, arg)
  else if cmd = IOCTL_GETBLKSZ then
    -- the argument is a `uint32_t *`: only its low half is written
    return (i32 g.blksz, arg / 2 ^ 32 * 2 ^ 32 + u32 g.blksz)
  else return (-ENOTSUP, arg)

/-- `vioblk_ioctl` -/
def vioblkIoctl (cmd arg : Nat) : Code g ζ (Int × Nat) := do
  Prog.lock .vlk
  let r ← ioctlBody cmd arg
  Prog.unlock .vlk
  return r

/-- The read half of a read-modify-write: `vlk` is released, the block is read into a
fresh buffer through `vioblk_read`, the position is put back and `vlk` is taken again. -/
def readBlock (kmalloc : Kmalloc ζ) (posPre posNew : Nat) : Code g ζ Bytes := do
  Prog.unlock .vlk
  let _ ← vioblkIoctl IOCTL_SETPOS posNew
  let fresh ← alloc kmalloc g.blksz
  let (_, readBlk) ← vioblkRead fresh.toList
  let _ ← vioblkIoctl IOCTL_SETPOS posPre
  Prog.lock .vlk
  return readBlk

/-- The loop of `vioblk_write`: `n` bytes of `buf` are still to be written. -/
def writeLoop (kmalloc : Kmalloc ζ) : Nat → Nat → Bytes → Code g ζ Unit
  | 0, n, _ => if n = 0 then .ret () else .crash
  | rounds + 1, n, buf =>
    if n = 0 then .ret () else do
      let s ← Prog.get
      let sector := sectorOf g s.dev.pos
      let count := countOf g sector s.dev.pos n
      let readBlk ← readBlock kmalloc s.dev.pos (u32 (sector * g.blksz))
      let s ← Prog.get
      let start := s.dev.pos % g.blksz
      Prog.assert (0 ≤ count ∧ start + count ≤ g.blksz ∧ count ≤ buf.length)
      let blk ← block g.blksz (patch readBlk start (buf.take count.toNat))
      Prog.modify (setBlkbuf blk)
      Prog.modify (setRequest .tOut sector)
      Prog.waitFor notifyAvail .usedUpdated
      Prog.modify fun s => setPos (u64 (s.dev.pos + count)) s
      writeLoop kmalloc rounds (u64 (n - count)) (buf.drop count.toNat)

/-- `vioblk_write` -/
def vioblkWrite (kmalloc : Kmalloc ζ) (buf : Bytes) : Code g ζ Int := do
  let s ← Prog.get
  if s.dev.opened = false then return -EBADFMT
  else if buf.length = 0 then return 0
  else
    let n := clampLen g s.dev.pos buf.length
    let oldPos := s.dev.pos
    Prog.lock .vlk
    writeLoop kmalloc n n buf
    Prog.unlock .vlk
    let s ← Prog.get
    return i64 (s.dev.pos - oldPos)

/-- The `io_intf` of the device. -/
def io (g : Geometry) (kmalloc : Kmalloc ζ) : IoIntf (Blk g ζ) KLock KCond where
  read := vioblkRead
  write := vioblkWrite kmalloc
  ctl := vioblkIoctl

/-! ## Lock discipline -/

@[simp] theorem serve_eq_none {s : Blk g ζ} : serve s = none ↔ s.dev.pending = false := by
  simp [serve]

/-- The device serves one request and is quiet again. -/
theorem serve_once {s s' : Blk g ζ} (h : serve s = some s') : serve s' = none := by
  rw [serve_eq_none]
  unfold serve at h
  split at h
  · cases h; rfl
  · cases h

variable {L : KLock} {h : KLock → Bool}

/-- What the driver's code needs to sleep: the guarding lock is `vlk`, or is held. -/
def Guarded (L : KLock) (h : KLock → Bool) : Prop := L = .vlk ∨ h L = true

theorem Guarded.update (hL : Guarded L h) : Function.update h .vlk true L = true := by
  by_cases hv : L = .vlk
  · subst hv
    simp
  · rw [Function.update_of_ne hv]
    exact hL.resolve_left hv

/-- Releasing `vlk` gives back the locks from before it was acquired. -/
theorem update_vlk_release (hv : h .vlk = false) :
    h = Function.update (Function.update h .vlk true) .vlk false := by
  rw [Function.update_idem, ← hv, Function.update_eq_self]

theorem disciplined_setRequest (ty : ReqType) (sector : Int) (h : KLock → Bool) :
    (Prog.modify (setRequest ty sector) : Code g ζ Unit).Disciplined serve .usedUpdated L h h :=
  Prog.disciplined_modify (fun s hs => by simpa [setRequest] using hs) h

theorem disciplined_setPos (pos : Blk g ζ → Nat) (h : KLock → Bool) :
    (Prog.modify fun s => setPos (pos s) s : Code g ζ Unit).Disciplined
      serve .usedUpdated L h h :=
  Prog.disciplined_modify (fun s hs => by simpa [setPos] using hs) h

theorem disciplined_setBlkbuf (b : List.Vector UInt8 g.blksz) (h : KLock → Bool) :
    (Prog.modify (setBlkbuf b) : Code g ζ Unit).Disciplined serve .usedUpdated L h h :=
  Prog.disciplined_modify (fun s hs => by simpa [setBlkbuf] using hs) h

theorem disciplined_alloc (kmalloc : Kmalloc ζ) (n : Nat) (h : KLock → Bool) :
    (alloc kmalloc n : Code g ζ _).Disciplined serve .usedUpdated L h h := by
  refine ⟨fun s hs => ?_, fun s => ?_⟩
  · rw [serve_eq_none] at hs ⊢
    dsimp only
    split <;> exact hs
  · dsimp only
    split
    · rfl
    · trivial

theorem disciplined_block (n : Nat) (b : Bytes) (h : KLock → Bool) :
    (block n b : Code g ζ _).Disciplined serve .usedUpdated L h h := by
  unfold block
  split
  · rfl
  · trivial

theorem disciplined_readLoop (hL : h L = true) (rounds bufsz off : Nat) (buf : Bytes) :
    (readLoop rounds bufsz off buf : Code g ζ Bytes).Disciplined serve .usedUpdated L h h := by
  induction rounds generalizing bufsz off buf with
  | zero =>
    unfold readLoop
    split
    · rfl
    · trivial
  | succ rounds ih =>
    unfold readLoop
    split
    · rfl
    · refine (Prog.disciplined_get h).bind fun s => ?_
      refine (disciplined_setRequest _ _ h).bind fun _ => ?_
      refine (Prog.disciplined_waitFor hL).bind fun _ => ?_
      refine (Prog.disciplined_get h).bind fun s => ?_
      refine (Prog.disciplined_assert _ h).bind fun _ => ?_
      exact (disciplined_setPos (fun _ => _) h).bind fun _ => ih _ _ _

theorem disciplined_vioblkRead (hv : h .vlk = false) (hL : Guarded L h) (buf : Bytes) :
    (vioblkRead buf : Code g ζ _).Disciplined serve .usedUpdated L h h := by
  refine (Prog.disciplined_get h).bind fun s => ?_
  dsimp only
  split
  · rfl
  split
  · rfl
  refine (Prog.disciplined_lock hv rfl).bind fun _ => ?_
  refine (disciplined_readLoop hL.update _ _ _ _).bind fun buf => ?_
  refine (Prog.disciplined_unlock (by simp) (update_vlk_release hv)).bind fun _ => ?_
  exact (Prog.disciplined_get h).bind fun _ => rfl

theorem disciplined_ioctlBody (cmd arg : Nat) (h : KLock → Bool) :
    (ioctlBody cmd arg : Code g ζ _).Disciplined serve .usedUpdated L h h := by
  refine (Prog.disciplined_get _).bind fun s => ?_
  split
  · rfl
  split
  · rfl
  split
  · exact (disciplined_setPos (fun _ => arg) _).bind fun _ => rfl
  split
  · rfl
  · rfl

theorem disciplined_vioblkIoctl (hv : h .vlk = false) (cmd arg : Nat) :
    (vioblkIoctl cmd arg : Code g ζ _).Disciplined serve .usedUpdated L h h := by
  refine (Prog.disciplined_lock hv rfl).bind fun _ => ?_
  refine (disciplined_ioctlBody cmd arg _).bind fun r => ?_
  exact (Prog.disciplined_unlock (by simp) (update_vlk_release hv)).bind fun _ => rfl

/-- The read half of a read-modify-write is entered and left holding `vlk`. -/
theorem disciplined_readBlock (hv : h .vlk = false) (hL : Guarded L h) (kmalloc : Kmalloc ζ)
    (posPre posNew : Nat) :
    (readBlock kmalloc posPre posNew : Code g ζ Bytes).Disciplined serve .usedUpdated L
      (Function.update h .vlk true) (Function.update h .vlk true) := by
  refine (Prog.disciplined_unlock (by simp) (update_vlk_release hv)).bind fun _ => ?_
  refine (disciplined_vioblkIoctl hv _ _).bind fun _ => ?_
  refine (disciplined_alloc kmalloc _ h).bind fun fresh => ?_
  refine (disciplined_vioblkRead hv hL _).bind fun r => ?_
  refine (disciplined_vioblkIoctl hv _ _).bind fun _ => ?_
  exact (Prog.disciplined_lock hv rfl).bind fun _ => rfl

theorem disciplined_writeLoop (hv : h .vlk = false) (hL : Guarded L h) (kmalloc : Kmalloc ζ)
    (rounds n : Nat) (buf : Bytes) :
    (writeLoop kmalloc rounds n buf : Code g ζ Unit).Disciplined serve .usedUpdated L
      (Function.update h .vlk true) (Function.update h .vlk true) := by
  induction rounds generalizing n buf with
  | zero =>
    unfold writeLoop
    split
    · rfl
    · trivial
  | succ rounds ih =>
    unfold writeLoop
    split
    · rfl
    · refine (Prog.disciplined_get _).bind fun s => ?_
      refine (disciplined_readBlock hv hL kmalloc _ _).bind fun readBlk => ?_
      refine (Prog.disciplined_get _).bind fun s => ?_
      refine (Prog.disciplined_assert _ _).bind fun _ => ?_
      refine (disciplined_block _ _ _).bind fun _ => ?_
      refine (disciplined_setBlkbuf _ _).bind fun _ => ?_
      refine (disciplined_setRequest _ _ _).bind fun _ => ?_
      refine (Prog.disciplined_waitFor hL.update).bind fun _ => ?_
      exact (disciplined_setPos _ _).bind fun _ => ih _ _

theorem disciplined_vioblkWrite (hv : h .vlk = false) (hL : Guarded L h) (kmalloc : Kmalloc ζ)
    (buf : Bytes) :
    (vioblkWrite kmalloc buf : Code g ζ Int).Disciplined serve .usedUpdated L h h := by
  refine (Prog.disciplined_get h).bind fun s => ?_
  dsimp only
  split
  · rfl
  split
  · rfl
  refine (Prog.disciplined_lock hv rfl).bind fun _ => ?_
  refine (disciplined_writeLoop hv hL kmalloc _ _ _).bind fun _ => ?_
  refine (Prog.disciplined_unlock (by simp) (update_vlk_release hv)).bind fun _ => ?_
  exact (Prog.disciplined_get h).bind fun _ => rfl

/-- **The driver keeps the lock discipline**: called without `vlk`, it sleeps only while
holding it, and gives it back. -/
theorem disciplined_io (hv : h .vlk = false) (hL : Guarded L h) (g : Geometry)
    (kmalloc : Kmalloc ζ) : (io g kmalloc).Disciplined serve .usedUpdated L h :=
  ⟨disciplined_vioblkRead hv hL, disciplined_vioblkWrite hv hL kmalloc,
    disciplined_vioblkIoctl hv⟩

end Vioblk

end RiscvKernel
