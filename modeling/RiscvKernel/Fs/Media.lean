import RiscvKernel.Fs.Atomic
import RiscvKernel.Fs.KfsSpec

/-!
# Media for the file system

The file system is mounted on the block device, or on an image in memory: `struct io_lit` of
`io.c`. Both serve every transfer inside them (`medium_blk`, `medium_lit`), as long as `kmalloc`
does not run out. They differ in what a transfer does to the position: the block device advances,
and `io_lit` stays where it was put.
-/

namespace RiscvKernel

open Lib

namespace Kfs

/-! ## `io_lit` -/

/-- `struct io_lit`, with what `buf` points to. -/
structure IoLit where
  buf : Bytes
  size : Nat
  pos : Nat

/-- An `io_lit` and the heap. -/
structure LitState (ζ : Type) where
  lit : IoLit
  heap : ζ

namespace Lit

variable {ζ : Type}

abbrev Code (ζ α : Type) := Prog (LitState ζ) KLock KCond α

/-- `iolit_read`. Copying from behind the end of the memory is not modelled further. -/
def iolitRead (buf : Bytes) : Code ζ (Int × Bytes) := do
  let s ← Prog.get
  if u64 ((s.lit.size : Int) - s.lit.pos) < buf.length then return (-EFILESYS, buf)
  else
    Prog.assert (s.lit.pos + buf.length ≤ s.lit.buf.length)
    return (i64 buf.length, slice s.lit.buf s.lit.pos buf.length)

/-- `iolit_write` -/
def iolitWrite (buf : Bytes) : Code ζ Int := do
  let s ← Prog.get
  if u64 ((s.lit.size : Int) - s.lit.pos) < buf.length then return -EFILESYS
  else
    Prog.assert (s.lit.pos + buf.length ≤ s.lit.buf.length)
    Prog.modify fun s => { s with lit := { s.lit with buf := patch s.lit.buf s.lit.pos buf } }
    return i64 buf.length

def setPos (pos : Nat) (s : LitState ζ) : LitState ζ := { s with lit := { s.lit with pos := pos } }

/-- `iolit_ctl` -/
def iolitCtl (cmd arg : Nat) : Code ζ (Int × Nat) := do
  let s ← Prog.get
  if cmd = IOCTL_GETBLKSZ then return (i32 FS_BLKSZ, arg)
  else if cmd = IOCTL_GETLEN then return (i32 s.lit.size, storeInt arg s.lit.size)
  else if cmd = IOCTL_GETPOS then return (i32 s.lit.pos, storeInt arg s.lit.pos)
  else if cmd = IOCTL_SETPOS then
    Prog.modify (setPos (u64 (i32 arg)))
    return (i32 arg, arg)
  else return (-EFILESYS, arg)

def io : IoIntf (LitState ζ) KLock KCond where
  read := iolitRead
  write := iolitWrite
  ctl := iolitCtl

/-- `kmalloc(n)` -/
def alloc (kmalloc : Kmalloc ζ) (n : Nat) : Code ζ (List.Vector UInt8 n) :=
  kmallocIn LitState.heap (fun heap s => { s with heap := heap }) kmalloc n

/-- An image in memory as the back end of the file system. -/
def backend (kmalloc : Kmalloc ζ) : Backend (LitState ζ) where
  sysIo := io
  kmalloc := alloc kmalloc

/-- `iolit_init` has been called with the memory and its size. -/
structure Ready (b : LitState ζ) : Prop where
  size : b.lit.size = b.lit.buf.length
  small : b.lit.buf.length < 2 ^ 31

variable {serve : LitState ζ → Option (LitState ζ)} {b : LitState ζ}

theorem exec_iolitRead (hb : Ready b) (buf : Bytes)
    (hin : b.lit.pos + buf.length ≤ b.lit.buf.length) :
    (iolitRead buf).exec serve b =
      some (((buf.length : Int), slice b.lit.buf b.lit.pos buf.length), b) := by
  have hsmall := hb.small
  unfold iolitRead
  rw [Prog.exec_get_bind, hb.size, u64_eq (n := b.lit.buf.length - b.lit.pos) (by omega) (by omega),
    if_neg (by omega), Prog.exec_assert_bind hin, i64_eq (by omega) (by omega)]
  rfl

theorem exec_iolitWrite (hb : Ready b) (buf : Bytes)
    (hin : b.lit.pos + buf.length ≤ b.lit.buf.length) :
    (iolitWrite buf).exec serve b = some ((buf.length : Int),
      { b with lit := { b.lit with buf := patch b.lit.buf b.lit.pos buf } }) := by
  have hsmall := hb.small
  unfold iolitWrite
  rw [Prog.exec_get_bind, hb.size, u64_eq (n := b.lit.buf.length - b.lit.pos) (by omega) (by omega),
    if_neg (by omega), Prog.exec_assert_bind hin, i64_eq (by omega) (by omega)]
  rfl

theorem exec_iolitCtl_setpos (p : Nat) :
    (iolitCtl IOCTL_SETPOS p).exec serve b =
      some ((i32 p, p), setPos (u64 (i32 p)) b) := rfl

theorem Ready.setPos (hb : Ready b) (p : Nat) : Ready (setPos p b) := ⟨hb.size, hb.small⟩

theorem setPos_buf (p : Nat) (b : LitState ζ) : (setPos p b).lit.buf = b.lit.buf := rfl

theorem setPos_heap (p : Nat) (b : LitState ζ) : (setPos p b).heap = b.heap := rfl

theorem exec_alloc_some {kmalloc : Kmalloc ζ} {n : Nat} {v : List.Vector UInt8 n} {heap : ζ}
    (h : kmalloc n b.heap = some (v, heap)) :
    (alloc kmalloc n).exec serve b = some (v, { b with heap := heap }) := by
  simp [alloc, kmallocIn, h]

end Lit

/-! ## Both are media -/

variable {ζ : Type}

/-- The account is the heap. A write takes as many blocks of 512 bytes from it as `blocks` says. -/
def leaks (kmalloc : (n : Nat) → ζ → List.Vector UInt8 n × ζ) (blocks : Nat → Nat → Nat) :
    Tariff ζ where
  alloc n heap := (kmalloc n heap).2
  write p n := (fun heap => (kmalloc 512 heap).2)^[blocks p n]

/-- An image in memory, with an allocator that does not run out: a write allocates nothing. -/
theorem metered_lit (serve : LitState ζ → Option (LitState ζ))
    (kmalloc : (n : Nat) → ζ → List.Vector UInt8 n × ζ) :
    Metered (Lit.backend fun n z => some (kmalloc n z)) serve
      (fun heap b => Lit.Ready b ∧ b.heap = heap) (leaks kmalloc fun _ _ => 0) (fun b => b.lit.buf)
      (fun b => b.lit.pos) (fun _ _ => True) (fun _ _ => True) where
  seek heap b p hb := by
    refine ⟨_, _, Lit.exec_iolitCtl_setpos p, ⟨hb.1.setPos _, (Lit.setPos_heap _ b).trans hb.2⟩,
      Lit.setPos_buf _ b, fun hp => ?_⟩
    show u64 (i32 p) = p
    rw [i32_eq (by omega) (by omega), u64_eq rfl (by omega)]
  read heap b buf hb _ hin _ := ⟨b, Lit.exec_iolitRead hb.1 buf hin, hb, rfl⟩
  write heap b buf hb _ hin _ := by
    have hlen : (patch b.lit.buf b.lit.pos buf).length = b.lit.buf.length := length_patch hin
    refine ⟨_, Lit.exec_iolitWrite hb.1 buf hin, ⟨⟨?_, ?_⟩, hb.2⟩, rfl⟩
    · exact hb.1.size.trans hlen.symm
    · show (patch b.lit.buf b.lit.pos buf).length < _
      rw [hlen]
      exact hb.1.small
  alloc heap b n hb := by
    obtain ⟨hready, rfl⟩ := hb
    exact ⟨(kmalloc n b.heap).1, { b with heap := (kmalloc n b.heap).2 },
      by rw [Lit.backend, Lit.exec_alloc_some rfl], ⟨⟨hready.size, hready.small⟩, rfl⟩, rfl, rfl⟩

theorem medium_lit (serve : LitState ζ → Option (LitState ζ))
    (kmalloc : (n : Nat) → ζ → List.Vector UInt8 n × ζ) :
    Medium (Lit.backend fun n z => some (kmalloc n z)) serve Lit.Ready (fun b => b.lit.buf)
      (fun b => b.lit.pos) (fun _ _ => True) (fun _ _ => True) :=
  (metered_lit serve kmalloc).medium fun b => by simp

theorem allocTimes_total (kmalloc : (n : Nat) → ζ → List.Vector UInt8 n × ζ) (n j : Nat) (heap : ζ) :
    Vioblk.allocTimes (fun n z => some (kmalloc n z)) n j heap =
      some ((fun heap => (kmalloc n heap).2)^[j] heap) := by
  induction j generalizing heap with
  | zero => rfl
  | succ j ih =>
    rw [Function.iterate_succ_apply, ← ih]
    rfl

/-- The block device, with an allocator that does not run out: a write allocates a buffer for each
block that it changes. -/
theorem metered_blk {g : Geometry} (hg : g.Plain)
    (kmalloc : (n : Nat) → ζ → List.Vector UInt8 n × ζ) :
    Metered (blkBackend g fun n z => some (kmalloc n z)) Vioblk.serve
      (fun heap b => (b.dev.opened = true ∧ b.dev.pending = false) ∧ b.heap = heap)
      (leaks kmalloc Vioblk.blocksOf) (fun b => b.dev.disk.toList) (fun b => b.dev.pos)
      (fun _ _ => True) (fun _ _ => True) where
  seek heap b p hb := ⟨_, _, Vioblk.exec_vioblkIoctl_setpos p b, hb, rfl, fun _ => rfl⟩
  read heap b buf hb _ hin _ := by
    rw [b.dev.disk.toList_length] at hin
    obtain ⟨b', hread, hheap, hafter⟩ := Vioblk.exec_vioblkRead hg (s := b) buf (k := buf.length)
      (by omega) hb.1.1 hb.1.2 (by omega)
    have hslice : (slice b.dev.disk.toList b.dev.pos buf.length).length = buf.length :=
      length_slice (by rw [b.dev.disk.toList_length]; exact hin)
    rw [patch_all hslice] at hread
    exact ⟨b', hread, ⟨⟨hafter.opened.trans hb.1.1, hafter.quiet⟩, hheap.trans hb.2⟩, hafter.disk⟩
  write heap b buf hb _ hin _ := by
    rw [b.dev.disk.toList_length] at hin
    obtain ⟨hready, rfl⟩ := hb
    obtain ⟨b', hwrite, hheap, hafter⟩ | ⟨-, hheap⟩ := Vioblk.exec_vioblkWrite hg
      (fun n z => some (kmalloc n z)) (s := b) buf (k := buf.length) (by omega) hready.1 hready.2
      (by omega)
    · rw [List.take_length] at hafter
      rw [allocTimes_total, hg.blksz] at hheap
      exact ⟨b', hwrite, ⟨⟨hafter.opened.trans hready.1, hafter.quiet⟩, (Option.some.inj hheap).symm⟩,
        hafter.disk⟩
    · rw [allocTimes_total] at hheap
      exact absurd hheap (Option.some_ne_none _)
  alloc heap b n hb := by
    obtain ⟨hready, rfl⟩ := hb
    exact ⟨(kmalloc n b.heap).1, Vioblk.setHeap (kmalloc n b.heap).2 b,
      by rw [blkBackend, Vioblk.exec_alloc_some rfl], ⟨hready, rfl⟩, rfl, rfl⟩

/-- **The driver is a medium**, on a device without faults that no other thread uses. -/
theorem medium_blk {g : Geometry} (hg : g.Plain)
    (kmalloc : (n : Nat) → ζ → List.Vector UInt8 n × ζ) :
    Medium (blkBackend g fun n z => some (kmalloc n z)) Vioblk.serve
      (fun b => b.dev.opened = true ∧ b.dev.pending = false) (fun b => b.dev.disk.toList)
      (fun b => b.dev.pos) (fun _ _ => True) (fun _ _ => True) :=
  (metered_blk hg kmalloc).medium fun b => by simp

end Kfs

end RiscvKernel
