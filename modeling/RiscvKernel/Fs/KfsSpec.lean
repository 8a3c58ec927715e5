import RiscvKernel.Fs.Kfs
import RiscvKernel.Io.VioblkSpec

/-!
# What `fs_read` returns when it runs alone

Over a `system_io` that is a medium (`Medium`), an open file whose data blocks hold `content`
(`HoldsFile`) is read exactly: `exec_fsRead`. The loop over the data blocks is cut as `plan`
says; its invariant is that the device stands at the byte of the file that comes next.

A medium only promises to serve the ranges that it says (`R` for reading and `W` for writing),
so a result over a medium also says that no other range is accessed.
-/

namespace RiscvKernel

open Lib

namespace Kfs

variable {β : Type}

/-- `system_io` is a medium: seeking sets the position, and a transfer at the position last set
that lies inside the medium, and in a range that `R` or `W` allows, is done in full. Where a
transfer leaves the position is not said. -/
structure Medium (be : Backend β) (serve : β → Option β) (Ok : β → Prop) (disk : β → Bytes)
    (pos : β → Nat) (R W : Nat → Nat → Prop) : Prop where
  seek : ∀ b p, Ok b → ∃ r b', (be.sysIo.ctl IOCTL_SETPOS p).exec serve b = some (r, b') ∧
    Ok b' ∧ disk b' = disk b ∧ (p < 2 ^ 31 → pos b' = p)
  read : ∀ b buf, Ok b → 0 < buf.length → pos b + buf.length ≤ (disk b).length →
    R (pos b) buf.length →
    ∃ b', (be.sysIo.read buf).exec serve b =
        some (((buf.length : Int), slice (disk b) (pos b) buf.length), b') ∧
      Ok b' ∧ disk b' = disk b
  write : ∀ b buf, Ok b → 0 < buf.length → pos b + buf.length ≤ (disk b).length →
    W (pos b) buf.length →
    ∃ b', (be.sysIo.write buf).exec serve b = some ((buf.length : Int), b') ∧
      Ok b' ∧ disk b' = patch (disk b) (pos b) buf
  alloc : ∀ b n, Ok b → ∃ v b', (be.kmalloc n).exec serve b = some (v, b') ∧
    Ok b' ∧ disk b' = disk b ∧ pos b' = pos b

/-- How an allocation and a write change an account. -/
structure Tariff (ι : Type) where
  alloc : Nat → ι → ι
  write : Nat → Nat → ι → ι

/-- A medium with an account, in which allocations of a number of bytes, and writes of a number of
bytes at a position are entered. -/
structure Metered {ι : Type} (be : Backend β) (serve : β → Option β) (Ok : ι → β → Prop)
    (t : Tariff ι) (disk : β → Bytes) (pos : β → Nat) (R W : Nat → Nat → Prop) : Prop where
  seek : ∀ z b p, Ok z b → ∃ r b', (be.sysIo.ctl IOCTL_SETPOS p).exec serve b = some (r, b') ∧
    Ok z b' ∧ disk b' = disk b ∧ (p < 2 ^ 31 → pos b' = p)
  read : ∀ z b buf, Ok z b → 0 < buf.length → pos b + buf.length ≤ (disk b).length →
    R (pos b) buf.length →
    ∃ b', (be.sysIo.read buf).exec serve b =
        some (((buf.length : Int), slice (disk b) (pos b) buf.length), b') ∧
      Ok z b' ∧ disk b' = disk b
  write : ∀ z b buf, Ok z b → 0 < buf.length → pos b + buf.length ≤ (disk b).length →
    W (pos b) buf.length →
    ∃ b', (be.sysIo.write buf).exec serve b = some ((buf.length : Int), b') ∧
      Ok (t.write (pos b) buf.length z) b' ∧ disk b' = patch (disk b) (pos b) buf
  alloc : ∀ z b n, Ok z b → ∃ v b', (be.kmalloc n).exec serve b = some (v, b') ∧
    Ok (t.alloc n z) b' ∧ disk b' = disk b ∧ pos b' = pos b

/-- Nothing is counted. -/
def freeOfCharge : Tariff Unit := ⟨fun _ z => z, fun _ _ z => z⟩

section Media

variable {ι : Type} {be : Backend β} {serve : β → Option β} {disk : β → Bytes} {pos : β → Nat}
  {R W : Nat → Nat → Prop}

theorem Medium.metered {Ok : β → Prop} (hm : Medium be serve Ok disk pos R W) :
    Metered be serve (fun _ => Ok) freeOfCharge disk pos R W where
  seek _ := hm.seek
  read _ := hm.read
  write _ := hm.write
  alloc _ := hm.alloc

/-- The account is not looked at. -/
theorem Metered.medium {Ok : ι → β → Prop} {t : Tariff ι}
    (hm : Metered be serve Ok t disk pos R W) {Ok' : β → Prop} (hOk : ∀ b, Ok' b ↔ ∃ z, Ok z b) :
    Medium be serve Ok' disk pos R W where
  seek b p hok := by
    obtain ⟨z, hok⟩ := (hOk b).mp hok
    obtain ⟨r, b', hseek, hok', hafter⟩ := hm.seek z b p hok
    exact ⟨r, b', hseek, (hOk b').mpr ⟨_, hok'⟩, hafter⟩
  read b buf hok hbuf hin hR := by
    obtain ⟨z, hok⟩ := (hOk b).mp hok
    obtain ⟨b', hread, hok', hafter⟩ := hm.read z b buf hok hbuf hin hR
    exact ⟨b', hread, (hOk b').mpr ⟨_, hok'⟩, hafter⟩
  write b buf hok hbuf hin hW := by
    obtain ⟨z, hok⟩ := (hOk b).mp hok
    obtain ⟨b', hwrite, hok', hafter⟩ := hm.write z b buf hok hbuf hin hW
    exact ⟨b', hwrite, (hOk b').mpr ⟨_, hok'⟩, hafter⟩
  alloc b n hok := by
    obtain ⟨z, hok⟩ := (hOk b).mp hok
    obtain ⟨v, b', halloc, hok', hafter⟩ := hm.alloc z b n hok
    exact ⟨v, b', halloc, (hOk b').mpr ⟨_, hok'⟩, hafter⟩

end Media

variable {ι : Type} {be : Backend β} {serve : β → Option β} {Ok : ι → β → Prop} {t : Tariff ι}
  {disk : β → Bytes} {pos : β → Nat} {R W : Nat → Nat → Prop} {mt : Mounted} {z : ι}

/-! ## The operations of `system_io`, called from a file operation -/

/-- What a program of the back end does, seen from a file operation. -/
theorem exec_below {α : Type} {p : Prog β KLock KCond α} {s : FsState β} {a : α} {b : β}
    (h : p.exec serve s.below = some (a, b)) :
    (p.zoom (belowLens β)).exec (fsServe serve) s = some (a, { s with below := b }) := by
  rw [Prog.exec_zoom]
  show (p.exec serve s.below).map _ = _
  rw [h]
  rfl

theorem exec_seek (hm : Metered be serve Ok t disk pos R W) {s : FsState β} (hok : Ok z s.below)
    (p : Nat) :
    ∃ r b', (be.io.ctl IOCTL_SETPOS p).exec (fsServe serve) s = some (r, { s with below := b' }) ∧
      Ok z b' ∧ disk b' = disk s.below ∧ (p < 2 ^ 31 → pos b' = p) := by
  obtain ⟨r, b', hseek, hafter⟩ := hm.seek z s.below p hok
  exact ⟨r, b', exec_below hseek, hafter⟩

theorem exec_alloc (hm : Metered be serve Ok t disk pos R W) {s : FsState β} (hok : Ok z s.below)
    (n : Nat) :
    ∃ v b', (be.alloc n).exec (fsServe serve) s = some (v, { s with below := b' }) ∧
      Ok (t.alloc n z) b' ∧ disk b' = disk s.below ∧ pos b' = pos s.below := by
  obtain ⟨v, b', halloc, hafter⟩ := hm.alloc z s.below n hok
  exact ⟨v, b', exec_below halloc, hafter⟩

theorem exec_read (hm : Metered be serve Ok t disk pos R W) {s : FsState β} (hok : Ok z s.below)
    (buf : Bytes) (hbuf : 0 < buf.length)
    (hin : pos s.below + buf.length ≤ (disk s.below).length) (hR : R (pos s.below) buf.length) :
    ∃ b', (be.io.read buf).exec (fsServe serve) s =
        some (((buf.length : Int), slice (disk s.below) (pos s.below) buf.length),
          { s with below := b' }) ∧
      Ok z b' ∧ disk b' = disk s.below := by
  obtain ⟨b', hread, hafter⟩ := hm.read z s.below buf hok hbuf hin hR
  exact ⟨b', exec_below hread, hafter⟩

theorem exec_readFull (hm : Metered be serve Ok t disk pos R W) {s : FsState β} (hok : Ok z s.below)
    (buf : Bytes) (hbuf : 0 < buf.length)
    (hin : pos s.below + buf.length ≤ (disk s.below).length) (hR : R (pos s.below) buf.length) :
    ∃ b', (be.io.ioreadFull buf).exec (fsServe serve) s =
        some (((buf.length : Int), slice (disk s.below) (pos s.below) buf.length),
          { s with below := b' }) ∧
      Ok z b' ∧ disk b' = disk s.below := by
  obtain ⟨b', hread, hafter⟩ := exec_read hm hok buf hbuf hin hR
  exact ⟨b', IoIntf.exec_ioreadFull hbuf hread (length_slice hin) (.inr rfl), hafter⟩

theorem exec_seekBlock (hm : Metered be serve Ok t disk pos R W) (mt : Mounted) (fileStruct : Bytes)
    {s : FsState β} (hok : Ok z s.below) {i : Nat} (leading : Nat) (hi : i < DATA_BLOCK_NUM) :
    ∃ b', (seekBlock be mt fileStruct i leading).exec (fsServe serve) s =
        some ((), { s with below := b' }) ∧
      Ok z b' ∧ disk b' = disk s.below ∧
      (blockStart mt (dataBlockNum fileStruct i) + leading < 2 ^ 31 →
        pos b' = blockStart mt (dataBlockNum fileStruct i) + leading) := by
  obtain ⟨r, b', hseek, hok', hdisk, hpos⟩ := exec_seek hm hok
    (u64 (blockStart mt (dataBlockNum fileStruct i) + leading : Nat))
  refine ⟨b', ?_, hok', hdisk, fun hsmall => ?_⟩
  · unfold seekBlock
    rw [Prog.exec_assert_bind hi, Prog.exec_bind_of_eq hseek]
    rfl
  · have hat : u64 (blockStart mt (dataBlockNum fileStruct i) + leading : Nat) =
        blockStart mt (dataBlockNum fileStruct i) + leading := u64_eq rfl (by omega)
    rw [hat] at hpos
    exact hpos hsmall

/-! ## The data blocks of a file -/

/-- The blocks that start at `start 0`, `start 1`, … on the disk hold `content`. -/
def HoldsFile (disk : Bytes) (start : Nat → Nat) (content : Bytes) : Prop :=
  ∀ i off len, 0 < len → off + len ≤ FS_BLKSZ → FS_BLKSZ * i + off + len ≤ content.length →
    start i + off + len ≤ disk.length ∧
      slice disk (start i + off) len = slice content (FS_BLKSZ * i + off) len

/-- Where the data blocks of an inode start. -/
abbrev starts (mt : Mounted) (fileStruct : Bytes) (i : Nat) : Nat :=
  blockStart mt (dataBlockNum fileStruct i)

/-- The ranges of the first `n` bytes of a file, each in one block, are allowed. -/
def Covers (R : Nat → Nat → Prop) (start : Nat → Nat) (n : Nat) : Prop :=
  ∀ i off len, 0 < len → off + len ≤ FS_BLKSZ → FS_BLKSZ * i + off + len ≤ n → R (start i + off) len

theorem covers_true {start : Nat → Nat} {n : Nat} : Covers (fun _ _ => True) start n :=
  fun _ _ _ _ _ _ => trivial

/-- A part of one block, read into the buffer. -/
theorem exec_readPart (hm : Metered be serve Ok t disk pos R W) {s : FsState β} (hok : Ok z s.below)
    {start : Nat → Nat} {content : Bytes} (hfile : HoldsFile (disk s.below) start content)
    (hR : Covers R start content.length) (buf : Bytes) (idx : Nat) {i off len : Nat}
    (hpos : 0 < len → pos s.below = start i + off) (hoff : off + len ≤ FS_BLKSZ)
    (hlen : FS_BLKSZ * i + off + len ≤ content.length) (hbuf : idx + len ≤ buf.length) :
    ∃ b', (readPart be buf idx len).exec (fsServe serve) s =
        some (patch buf idx (slice content (FS_BLKSZ * i + off) len), { s with below := b' }) ∧
      Ok z b' ∧ disk b' = disk s.below := by
  have hbl : (slice buf idx len).length = len := length_slice hbuf
  unfold readPart
  rw [Prog.exec_assert_bind hbuf]
  rcases Nat.eq_zero_or_pos len with rfl | hpos0
  · exact ⟨s.below, by simp [IoIntf.ioreadFull, IoIntf.readFrom], hok, rfl⟩
  · obtain ⟨hin, hslice⟩ := hfile i off len hpos0 hoff hlen
    have hat := hpos hpos0
    obtain ⟨b', hread, hok', hdisk⟩ := exec_readFull hm hok (slice buf idx len) (by omega)
      (by rw [hbl, hat]; exact hin) (by rw [hbl, hat]; exact hR i off len hpos0 hoff hlen)
    refine ⟨b', ?_, hok', hdisk⟩
    rw [Prog.exec_bind_of_eq hread, hbl, hat, hslice]
    rfl

/-- The plan moves this many bytes in all. -/
def Plan.total (p : Plan) : Nat := p.leadingCompensation + FS_BLKSZ * p.cycle + p.remainder

/-- The plan fits a device that stands at offset `off` of a block: what it reads first
does not cross the end of the block, and whole blocks start at their beginning. -/
def Plan.Fits (p : Plan) (off : Nat) : Prop :=
  p.leadingCompensation ≠ 0 ∧ off + p.leadingCompensation = FS_BLKSZ ∧ p.remainder ≤ FS_BLKSZ ∨
  p.leadingCompensation = 0 ∧ p.cycle ≠ 0 ∧ off = 0 ∧ p.remainder ≤ FS_BLKSZ ∨
  p.leadingCompensation = 0 ∧ p.cycle = 0 ∧ off + p.remainder ≤ FS_BLKSZ

/-- A plan without a leading part fits the beginning of a block. -/
theorem Plan.fits_zero {p : Plan} (hlc : p.leadingCompensation = 0)
    (hrem : p.remainder ≤ FS_BLKSZ) : p.Fits 0 := by
  by_cases hcyc : p.cycle = 0
  · exact Or.inr (Or.inr ⟨hlc, hcyc, by omega⟩)
  · exact Or.inr (Or.inl ⟨hlc, hcyc, rfl, hrem⟩)

theorem compensation_cases (position : Nat) :
    compensation position = 0 ∧ position % FS_BLKSZ = 0 ∨
      compensation position ≠ 0 ∧ position % FS_BLKSZ + compensation position = FS_BLKSZ := by
  unfold compensation FS_BLKSZ
  split <;> omega

theorem plan_fits (position n : Nat) : (plan position n).Fits (position % FS_BLKSZ) := by
  have hlc := compensation_cases position
  simp only [plan]
  generalize compensation position = lc at hlc ⊢
  by_cases h : n < lc
  · rw [if_pos h]
    exact Or.inr (Or.inr ⟨rfl, rfl, by simp only; omega⟩)
  · rw [if_neg h]
    have hrem := Nat.mod_lt (u64 ((n : Int) - lc)) (show 0 < FS_BLKSZ by decide)
    unfold Plan.Fits
    simp only
    omega

theorem plan_total {n : Nat} (position : Nat) (hn : n < 2 ^ 64) : (plan position n).total = n := by
  simp only [plan]
  by_cases h : n < compensation position
  · simp [h, Plan.total]
  · rw [if_neg h, u64_eq (n := n - compensation position) (by omega) (by omega)]
    simp only [Plan.total]
    have hdm := Nat.div_add_mod (n - compensation position) FS_BLKSZ
    omega

/-- The loop of `fs_read` copies the next bytes of the file. Induction on the rounds
left; `off` is where in block `i` the device stands. -/
theorem exec_readBlocks (hm : Metered be serve Ok t disk pos R W) (mt : Mounted)
    {fileStruct content : Bytes} (hmax : content.length < DATA_BLOCK_NUM * FS_BLKSZ)
    (hR : Covers R (starts mt fileStruct) content.length)
    (rounds i off idx : Nat) (buf : Bytes) {p : Plan} {s : FsState β} (hok : Ok z s.below)
    (hsmall : (disk s.below).length < 2 ^ 31)
    (hfile : HoldsFile (disk s.below) (starts mt fileStruct) content)
    (hrounds : DATA_BLOCK_NUM ≤ i + rounds) (hfits : p.Fits off)
    (hpos : 0 < p.total → pos s.below = starts mt fileStruct i + off)
    (hlen : FS_BLKSZ * i + off + p.total ≤ content.length)
    (hbuf : idx + p.total ≤ buf.length) :
    ∃ b', (readBlocks be mt fileStruct rounds i p idx buf).exec (fsServe serve) s =
        some (patch buf idx (slice content (FS_BLKSZ * i + off) p.total), { s with below := b' }) ∧
      Ok z b' ∧ disk b' = disk s.below := by
  induction rounds generalizing i off idx p buf s with
  | zero => unfold DATA_BLOCK_NUM FS_BLKSZ at *; omega
  | succ rounds ih =>
    -- a first part of `len` bytes that ends its block, and the rest from the next block on
    have hstep : ∀ {len : Nat} {p' : Plan}, off + len = FS_BLKSZ → p.total = len + p'.total →
        p'.Fits 0 →
        ∃ b', (do
            let buf ← readPart be buf idx len
            seekBlock be mt fileStruct (i + 1) 0
            readBlocks be mt fileStruct rounds (i + 1) p' (idx + len) buf : Code β Bytes).exec
              (fsServe serve) s =
            some (patch buf idx (slice content (FS_BLKSZ * i + off) p.total),
              { s with below := b' }) ∧
          Ok z b' ∧ disk b' = disk s.below := by
      intro len p' hend htotal hfits'
      obtain ⟨b₁, hread, hok₁, hdisk₁⟩ := exec_readPart hm hok hfile hR buf idx
        (fun h => hpos (by omega)) (le_of_eq hend) (by omega) (by omega)
      have hnext : i + 1 < DATA_BLOCK_NUM := by unfold DATA_BLOCK_NUM FS_BLKSZ at *; omega
      obtain ⟨b₂, hseek, hok₂, hdisk₂, hpos₂⟩ := exec_seekBlock hm mt fileStruct
        (s := { s with below := b₁ }) hok₁ 0 hnext
      have hdisk : disk b₂ = disk s.below := hdisk₂.trans hdisk₁
      have hpart : (slice content (FS_BLKSZ * i + off) len).length = len :=
        length_slice (by omega)
      -- the next block is on the disk, if there is anything left to read
      have hat : 0 < p'.total → pos b₂ = starts mt fileStruct (i + 1) + 0 := by
        intro hleft
        have := (hfile (i + 1) 0 1 (by decide) (by decide) (by rw [Nat.mul_add]; omega)).1
        refine hpos₂ ?_
        show starts mt fileStruct (i + 1) + 0 < _
        omega
      obtain ⟨b', hrest, hok', hdisk'⟩ := ih (i + 1) 0 (idx + len)
        (patch buf idx (slice content (FS_BLKSZ * i + off) len)) (p := p')
        (s := { s with below := b₂ }) hok₂ (by rw [hdisk]; exact hsmall)
        (by rw [hdisk]; exact hfile) (by omega) hfits' hat (by rw [Nat.mul_add]; omega)
        (by rw [length_patch (by omega)]; omega)
      refine ⟨b', ?_, hok', hdisk'.trans hdisk⟩
      rw [Prog.exec_bind_of_eq hread, Prog.exec_bind_of_eq hseek, hrest]
      have hadd : FS_BLKSZ * (i + 1) + 0 = FS_BLKSZ * i + off + len := by rw [Nat.mul_add]; omega
      have hjoin := patch_patch_append (l := buf) (p := idx)
        (b := slice content (FS_BLKSZ * i + off) len)
        (slice content (FS_BLKSZ * i + off + len) p'.total) (by omega)
      rw [hpart] at hjoin
      rw [hadd, hjoin, slice_append, htotal]
    unfold readBlocks
    rcases hfits with ⟨hlc, hend, hrem⟩ | ⟨hlc, hcyc, rfl, hrem⟩ | ⟨hlc, hcyc, hrem⟩
    · rw [if_pos hlc]
      exact hstep hend (by simp only [Plan.total]; omega) (Plan.fits_zero rfl hrem)
    · rw [if_neg (by omega), if_neg hcyc]
      refine hstep (Nat.zero_add _) ?_ (Plan.fits_zero hlc hrem)
      simp only [Plan.total]
      rw [hlc, Nat.mul_sub]
      have : FS_BLKSZ * 1 ≤ FS_BLKSZ * p.cycle := Nat.mul_le_mul_left _ (by omega)
      omega
    · rw [if_neg (by omega), if_pos hcyc]
      have htotal : p.total = p.remainder := by
        simp only [Plan.total]
        rw [hlc, hcyc]
        omega
      rw [htotal] at hlen hbuf hpos ⊢
      exact exec_readPart hm hok hfile hR buf idx hpos hrem hlen hbuf

/-! ## `fs_read` -/

theorem exec_fsIoctl_getpos {s : FsState β} {io arg : Nat} {slot : Fin MAX_OPEN_FILE_CT}
    (hslot : lastSlot mt io = some slot) :
    (fsIoctl mt io IOCTL_GETPOS arg).exec (fsServe serve) s =
      some ((i32 (s.filePosition slot), storeInt arg (s.filePosition slot)), s) := by
  unfold fsIoctl
  rw [hslot]
  rfl

theorem exec_fsIoctl_setpos {s : FsState β} {io arg : Nat} {slot : Fin MAX_OPEN_FILE_CT}
    (hslot : lastSlot mt io = some slot) :
    (fsIoctl mt io IOCTL_SETPOS arg).exec (fsServe serve) s =
      some ((i32 arg, arg),
        { s with filePosition := Function.update s.filePosition slot (u64 (i32 arg)) }) := by
  unfold fsIoctl
  rw [hslot]
  rfl

/-- The number of bytes that is left of `n` after `readInode`, in the arithmetic of the source. -/
def clampCount (len position n : Nat) : Nat :=
  if len < u64 (position + n : Nat) then u64 ((len : Int) - position) else n

/-- Up to the end of the file. -/
theorem clampCount_eq {len position n : Nat} (hposition : position ≤ len)
    (hsum : position + n < 2 ^ 64) (hlen : len < 2 ^ 64) :
    clampCount len position n = min n (len - position) := by
  unfold clampCount
  rw [u64_eq rfl hsum]
  by_cases hcut : len < position + n
  · rw [if_pos hcut, u64_eq (n := len - position) (by omega) (by omega), Nat.min_eq_right (by omega)]
  · rw [if_neg hcut, Nat.min_eq_left (by omega)]

/-- The inode block is read and the length clamped. -/
theorem exec_readInode (hm : Metered be serve Ok t disk pos R W) {s : FsState β} (hok : Ok z s.below)
    {inode : Nat} (position n : Nat) {fileStruct : Bytes}
    (hin : inode * FS_BLKSZ + 2 * FS_BLKSZ ≤ (disk s.below).length)
    (hsmall : (disk s.below).length < 2 ^ 31) (hR : R (inode * FS_BLKSZ + FS_BLKSZ) FS_BLKSZ)
    (hinode : slice (disk s.below) (inode * FS_BLKSZ + FS_BLKSZ) FS_BLKSZ = fileStruct) :
    ∃ b', (readInode be inode position n).exec (fsServe serve) s =
        some ((fileStruct, clampCount (byteLen fileStruct) position n), { s with below := b' }) ∧
      Ok (t.alloc FS_BLKSZ z) b' ∧ disk b' = disk s.below := by
  have hblk : FS_BLKSZ = 4096 := rfl
  obtain ⟨r, b₁, hseek, hok₁, hdisk₁, hpos₁⟩ := exec_seek hm hok
    (u64 (inode * FS_BLKSZ + FS_BLKSZ : Nat))
  obtain ⟨v, b₂, halloc, hok₂, hdisk₂, hpos₂⟩ := exec_alloc hm (s := { s with below := b₁ }) hok₁
    FS_BLKSZ
  rw [u64_eq rfl (by omega)] at hpos₁
  have hat : pos b₂ = inode * FS_BLKSZ + FS_BLKSZ := hpos₂.trans (hpos₁ (by omega))
  have hdisk : disk b₂ = disk s.below := hdisk₂.trans hdisk₁
  obtain ⟨b', hread, hok', hdisk'⟩ := exec_readFull hm (s := { s with below := b₂ }) hok₂ v.toList
    (by rw [v.toList_length]; decide)
    (by
      simp only
      rw [v.toList_length, hat, hdisk]
      omega)
    (by
      simp only
      rw [v.toList_length, hat]
      exact hR)
  simp only [v.toList_length, hat, hdisk, hinode] at hread
  refine ⟨b', ?_, hok', hdisk'.trans hdisk⟩
  unfold readInode
  rw [Prog.exec_bind_of_eq hseek, Prog.exec_bind_of_eq halloc, Prog.exec_bind_of_eq hread]
  unfold clampCount
  dsimp only
  split <;> rfl

/-- A transfer of `n` bytes at `position` of an open file: its inode block `fileStruct` is on the
disk and says that the file has `len` bytes, so that `k` bytes are transferred. -/
structure Transfer (R : Nat → Nat → Prop) (mt : Mounted) (disk : Bytes)
    (filePosition : Fin MAX_OPEN_FILE_CT → Nat) (io : Nat) (slot : Fin MAX_OPEN_FILE_CT)
    (position len : Nat) (fileStruct : Bytes) (n k : Nat) : Prop where
  last : lastSlot mt io = some slot
  first : firstSlot mt io = some slot
  filePosition : filePosition slot = position
  le : position ≤ len
  max : len < DATA_BLOCK_NUM * FS_BLKSZ
  inDisk : (mt.slots slot).inode * FS_BLKSZ + 2 * FS_BLKSZ ≤ disk.length
  small : disk.length < 2 ^ 31
  readable : R ((mt.slots slot).inode * FS_BLKSZ + FS_BLKSZ) FS_BLKSZ
  inode : slice disk ((mt.slots slot).inode * FS_BLKSZ + FS_BLKSZ) FS_BLKSZ = fileStruct
  byteLen : byteLen fileStruct = len
  sum : position + n < 2 ^ 64
  count : k = min n (len - position)

section Transfer

variable {s : FsState β} {io position len n k : Nat} {slot : Fin MAX_OPEN_FILE_CT}
  {fileStruct : Bytes}

theorem Transfer.count_le
    (ht : Transfer R mt (disk s.below) s.filePosition io slot position len fileStruct n k) :
    position + k ≤ len ∧ len < 1023 * 4096 := by
  have hle := ht.le
  have hmax : len < 1023 * 4096 := ht.max
  have hcount := ht.count
  omega

theorem Transfer.getpos
    (ht : Transfer R mt (disk s.below) s.filePosition io slot position len fileStruct n k) :
    u64 (i32 (s.filePosition slot)) = position := by
  have hlt := ht.count_le
  rw [ht.filePosition, i32_eq (by omega) (by omega), u64_eq rfl (by omega)]

/-- What `fs_read` and `fs_write` do before their loop: the inode is read, the length clamped and
the device positioned. -/
theorem exec_prepare (hm : Metered be serve Ok t disk pos R W) (hok : Ok z s.below)
    (ht : Transfer R mt (disk s.below) s.filePosition io slot position len fileStruct n k) :
    ∃ b₁ b₂, (readInode be (mt.slots slot).inode position n).exec (fsServe serve) s =
        some ((fileStruct, k), { s with below := b₁ }) ∧
      (seekBlock be mt fileStruct (position / FS_BLKSZ) (position % FS_BLKSZ)).exec (fsServe serve)
        { s with below := b₁ } = some ((), { s with below := b₂ }) ∧
      Ok (t.alloc FS_BLKSZ z) b₂ ∧ disk b₂ = disk s.below ∧
      (starts mt fileStruct (position / FS_BLKSZ) + position % FS_BLKSZ < 2 ^ 31 →
        pos b₂ = starts mt fileStruct (position / FS_BLKSZ) + position % FS_BLKSZ) := by
  have hlt := ht.count_le
  have hblock : position / FS_BLKSZ < DATA_BLOCK_NUM := by
    unfold DATA_BLOCK_NUM FS_BLKSZ
    omega
  obtain ⟨b₁, hread₁, hok₁, hdisk₁⟩ := exec_readInode hm hok position n ht.inDisk ht.small
    ht.readable ht.inode
  rw [ht.byteLen, clampCount_eq ht.le ht.sum (by omega), ← ht.count] at hread₁
  obtain ⟨b₂, hseek, hok₂, hdisk₂, hpos₂⟩ := exec_seekBlock hm mt fileStruct
    (s := { s with below := b₁ }) hok₁ (position % FS_BLKSZ) hblock
  exact ⟨b₁, b₂, hread₁, hseek, hok₂, hdisk₂.trans hdisk₁, hpos₂⟩

/-- `fs_read` up to its loop. -/
theorem exec_fsRead_seek (hm : Metered be serve Ok t disk pos R W) (hok : Ok z s.below) {buf : Bytes}
    (ht : Transfer R mt (disk s.below) s.filePosition io slot position len fileStruct buf.length k) :
    ∃ b, (fsRead be mt io buf).exec (fsServe serve) s =
        (do
          let buf ← readBlocks be mt fileStruct (DATA_BLOCK_NUM - position / FS_BLKSZ)
            (position / FS_BLKSZ) (plan position k) 0 buf
          Prog.unlock .flk
          let _ ← fsIoctl mt io IOCTL_SETPOS (position + k)
          return ((k : Int), buf) : Code β (Int × Bytes)).exec (fsServe serve)
            { s with below := b } ∧
      Ok (t.alloc FS_BLKSZ z) b ∧ disk b = disk s.below ∧
      (starts mt fileStruct (position / FS_BLKSZ) + position % FS_BLKSZ < 2 ^ 31 →
        pos b = starts mt fileStruct (position / FS_BLKSZ) + position % FS_BLKSZ) := by
  have hlt := ht.count_le
  obtain ⟨b₁, b₂, hread, hseek, hok₂, hdisk₂, hpos₂⟩ := exec_prepare hm hok ht
  refine ⟨b₂, ?_, hok₂, hdisk₂, hpos₂⟩
  unfold fsRead
  rw [Prog.exec_bind_of_eq (exec_fsIoctl_getpos ht.last), ht.first]
  dsimp only
  rw [ht.getpos, Prog.exec_lock_bind, Prog.exec_bind_of_eq hread]
  dsimp only
  rw [Prog.exec_unlock_bind, Prog.exec_lock_bind, Prog.exec_bind_of_eq hseek,
    i64_eq (by omega) (by omega), u64_eq rfl (by omega)]

/-- The device stands at the first byte that is transferred, if there is one. -/
theorem Transfer.pos_of_covered {b : β}
    (ht : Transfer R mt (disk s.below) s.filePosition io slot position len fileStruct n k)
    (hpos : starts mt fileStruct (position / FS_BLKSZ) + position % FS_BLKSZ < 2 ^ 31 →
      pos b = starts mt fileStruct (position / FS_BLKSZ) + position % FS_BLKSZ)
    (hin : 0 < k → starts mt fileStruct (position / FS_BLKSZ) + position % FS_BLKSZ <
      (disk s.below).length) :
    0 < (plan position k).total →
      pos b = starts mt fileStruct (position / FS_BLKSZ) + position % FS_BLKSZ := by
  have hlt := ht.count_le
  rw [plan_total position (by omega)]
  exact fun hleft => hpos ((hin hleft).trans ht.small)

/-- **`fs_read` alone** stores the next bytes of the file, up to the end of the buffer or
of the file, returns their number and advances the position by it. The data blocks need
to hold the `content` only as far as it is read. -/
theorem exec_fsRead (hm : Metered be serve Ok t disk pos R W) (hok : Ok z s.below) {content buf : Bytes}
    (ht : Transfer R mt (disk s.below) s.filePosition io slot position len fileStruct buf.length k)
    (hfile : HoldsFile (disk s.below) (starts mt fileStruct) content)
    (hRfile : Covers R (starts mt fileStruct) content.length)
    (hcontent : content.length ≤ len) (hread : position + k ≤ content.length) :
    ∃ b', (fsRead be mt io buf).exec (fsServe serve) s =
        some (((k : Int), patch buf 0 (slice content position k)),
          { below := b'
            filePosition := Function.update s.filePosition slot (position + k) }) ∧
      Ok (t.alloc FS_BLKSZ z) b' ∧ disk b' = disk s.below := by
  have hlt := ht.count_le
  have hcount := ht.count
  obtain ⟨b, hstart, hok₁, hdisk, hpos⟩ := exec_fsRead_seek hm hok ht
  have htotal : (plan position k).total = k := plan_total position (by omega)
  have hat : FS_BLKSZ * (position / FS_BLKSZ) + position % FS_BLKSZ = position :=
    Nat.div_add_mod position FS_BLKSZ
  have hpos' := ht.pos_of_covered hpos fun hleft => by
    have hmod := Nat.mod_lt position (show 0 < FS_BLKSZ by decide)
    have := (hfile (position / FS_BLKSZ) (position % FS_BLKSZ) 1 (by decide) hmod (by omega)).1
    omega
  obtain ⟨b', hrest, hok', hdisk'⟩ := exec_readBlocks hm mt (hcontent.trans_lt ht.max) hRfile
    (DATA_BLOCK_NUM - position / FS_BLKSZ) (position / FS_BLKSZ) (position % FS_BLKSZ) 0 buf
    (s := { s with below := b }) hok₁ (by rw [hdisk]; exact ht.small)
    (by rw [hdisk]; exact hfile) (by omega) (plan_fits position k) hpos' (by omega) (by omega)
  rw [hat, htotal] at hrest
  refine ⟨b', ?_, hok', hdisk'.trans hdisk⟩
  rw [hstart, Prog.exec_bind_of_eq hrest, Prog.exec_unlock_bind,
    Prog.exec_bind_of_eq (exec_fsIoctl_setpos ht.last), Prog.pure_eq, Prog.exec_ret,
    i32_eq (by omega) (by omega), u64_eq rfl (by omega)]

end Transfer

end Kfs

end RiscvKernel
