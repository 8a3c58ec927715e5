import RiscvKernel.Fs.KfsSpec
import RiscvKernel.Lib.Scatter

/-!
# What `fs_write` changes when it runs alone

The bytes of a file are scattered over the disk: byte `x` is in data block `x / 4096`, at
`x % 4096` (`fileByte`). The loop of `fs_write` is cut as that of `fs_read`, and one part after
another is a write of the next bytes of the file (`Lib.WritesAt`): `exec_fsWrite`.
-/

namespace RiscvKernel

open Lib

namespace Kfs

variable {β ι : Type} {be : Backend β} {serve : β → Option β} {Ok : ι → β → Prop} {t : Tariff ι}
  {disk : β → Bytes} {pos : β → Nat} {R W : Nat → Nat → Prop} {mt : Mounted} {z : ι}

/-- Where byte `x` of a file is, if its blocks start at `start 0`, `start 1`, … -/
def fileByte (start : Nat → Nat) (x : Nat) : Nat := start (x / FS_BLKSZ) + x % FS_BLKSZ

theorem fileByte_block (start : Nat → Nat) {i off : Nat} (hoff : off < FS_BLKSZ) :
    fileByte start (FS_BLKSZ * i + off) = start i + off := by
  unfold fileByte
  rw [Nat.mul_add_div (by decide), Nat.div_eq_of_lt hoff, Nat.add_zero, Nat.mul_add_mod,
    Nat.mod_eq_of_lt hoff]

/-- A part of a block inside a file is inside the disk. -/
theorem part_in_disk {start : Nat → Nat} {len size i off n : Nat}
    (hin : ∀ x < len, fileByte start x < size) (hn : 0 < n) (hoff : off + n ≤ FS_BLKSZ)
    (hlen : FS_BLKSZ * i + off + n ≤ len) : start i + off + n ≤ size := by
  have hlast := hin (FS_BLKSZ * i + (off + (n - 1))) (by omega)
  rw [fileByte_block start (by omega)] at hlast
  omega

/-- `c x n` is what it costs to write `n` bytes at offset `x` of a file of length `len`: its parts
are in one block each. -/
structure FileCost (t : Tariff ι) (start : Nat → Nat) (len : Nat) (c : Nat → Nat → ι → ι) :
    Prop where
  nil : ∀ x z, c x 0 z = z
  part : ∀ i off n z, 0 < n → off + n ≤ FS_BLKSZ → FS_BLKSZ * i + off + n ≤ len →
    c (FS_BLKSZ * i + off) n z = t.write (start i + off) n z
  append : ∀ i x n m z, x + n = FS_BLKSZ * i → c x (n + m) z = c (x + n) m (c x n z)

theorem fileCost_freeOfCharge (start : Nat → Nat) (len : Nat) :
    FileCost freeOfCharge start len fun _ _ z => z :=
  ⟨fun _ _ => rfl, fun _ _ _ _ _ _ _ => rfl, fun _ _ _ _ _ _ => rfl⟩

theorem exec_iowrite (hm : Metered be serve Ok t disk pos R W) {s : FsState β} (hok : Ok z s.below)
    (buf : Bytes) (hbuf : 0 < buf.length)
    (hin : pos s.below + buf.length ≤ (disk s.below).length) (hW : W (pos s.below) buf.length) :
    ∃ b', (be.io.iowrite buf).exec (fsServe serve) s =
        some ((buf.length : Int), { s with below := b' }) ∧
      Ok (t.write (pos s.below) buf.length z) b' ∧ disk b' = patch (disk s.below) (pos s.below) buf := by
  obtain ⟨b', hwrite, hafter⟩ := hm.write z s.below buf hok hbuf hin hW
  exact ⟨b', IoIntf.exec_iowrite hbuf (exec_below hwrite) (.inr rfl), hafter⟩

/-- A part of one block, written from the buffer. -/
theorem exec_writePart (hm : Metered be serve Ok t disk pos R W) {s : FsState β} (hok : Ok z s.below)
    {start : Nat → Nat} {len : Nat} (hin : ∀ x < len, fileByte start x < (disk s.below).length)
    (hW : Covers W start len) {c : Nat → Nat → ι → ι} (hc : FileCost t start len c) (buf : Bytes)
    (idx : Nat) {i off n : Nat}
    (hpos : 0 < n → pos s.below = start i + off) (hoff : off + n ≤ FS_BLKSZ)
    (hlen : FS_BLKSZ * i + off + n ≤ len) (hbuf : idx + n ≤ buf.length) :
    ∃ b', (writePart be buf idx n).exec (fsServe serve) s = some ((), { s with below := b' }) ∧
      Ok (c (FS_BLKSZ * i + off) n z) b' ∧
      WritesAt (fileByte start) (FS_BLKSZ * i + off) (slice buf idx n) (disk s.below)
        (disk b') := by
  have hbl : (slice buf idx n).length = n := length_slice hbuf
  unfold writePart
  rw [Prog.exec_assert_bind hbuf]
  rcases Nat.eq_zero_or_pos n with rfl | hn
  · refine ⟨s.below, ?_, by rw [hc.nil]; exact hok, ?_⟩
    · simp [IoIntf.iowrite, IoIntf.writeFrom]
    · rw [slice_zero]
      exact writesAt_nil _ _ _
  · have hat := hpos hn
    have hdisk := part_in_disk hin hn hoff hlen
    obtain ⟨b', hwrite, hok', hdisk'⟩ := exec_iowrite hm hok (slice buf idx n) (by omega)
      (by rw [hbl, hat]; exact hdisk) (by rw [hbl, hat]; exact hW i off n hn hoff hlen)
    rw [hbl, hat, ← hc.part i off n z hn hoff hlen] at hok'
    refine ⟨b', ?_, hok', ?_⟩
    · rw [Prog.exec_bind_of_eq hwrite]
      rfl
    · rw [hdisk', hat]
      refine writesAt_patch (fun j hj => ?_) (by rw [hbl]; exact hdisk)
      rw [hbl] at hj
      rw [Nat.add_assoc, fileByte_block start (by omega), Nat.add_assoc]

/-- The loop of `fs_write` writes the next bytes of the file. Induction on the rounds left;
`off` is where in block `i` the device stands. -/
theorem exec_writeBlocks (hm : Metered be serve Ok t disk pos R W) (mt : Mounted)
    {fileStruct : Bytes} {len : Nat} (hmax : len < DATA_BLOCK_NUM * FS_BLKSZ)
    (hW : Covers W (starts mt fileStruct) len)
    (hinj : Set.InjOn (fileByte (starts mt fileStruct)) (Set.Iio len)) {c : Nat → Nat → ι → ι}
    (hc : FileCost t (starts mt fileStruct) len c)
    (rounds i off idx : Nat) (buf : Bytes) {p : Plan} {s : FsState β} (hok : Ok z s.below)
    (hsmall : (disk s.below).length < 2 ^ 31)
    (hin : ∀ x < len, fileByte (starts mt fileStruct) x < (disk s.below).length)
    (hrounds : DATA_BLOCK_NUM ≤ i + rounds) (hfits : p.Fits off)
    (hpos : 0 < p.total → pos s.below = starts mt fileStruct i + off)
    (hlen : FS_BLKSZ * i + off + p.total ≤ len) (hbuf : idx + p.total ≤ buf.length) :
    ∃ b', (writeBlocks be mt fileStruct buf rounds i p idx).exec (fsServe serve) s =
        some ((), { s with below := b' }) ∧
      Ok (c (FS_BLKSZ * i + off) p.total z) b' ∧
      WritesAt (fileByte (starts mt fileStruct)) (FS_BLKSZ * i + off) (slice buf idx p.total)
        (disk s.below) (disk b') := by
  induction rounds generalizing i off idx p s z with
  | zero => unfold DATA_BLOCK_NUM FS_BLKSZ at *; omega
  | succ rounds ih =>
    -- a first part of `n` bytes that ends its block, and the rest from the next block on
    have hstep : ∀ {n : Nat} {p' : Plan}, off + n = FS_BLKSZ → p.total = n + p'.total →
        p'.Fits 0 →
        ∃ b', (do
            writePart be buf idx n
            seekBlock be mt fileStruct (i + 1) 0
            writeBlocks be mt fileStruct buf rounds (i + 1) p' (idx + n) : Code β Unit).exec
              (fsServe serve) s = some ((), { s with below := b' }) ∧
          Ok (c (FS_BLKSZ * i + off) p.total z) b' ∧
          WritesAt (fileByte (starts mt fileStruct)) (FS_BLKSZ * i + off) (slice buf idx p.total)
            (disk s.below) (disk b') := by
      intro n p' hend htotal hfits'
      obtain ⟨b₁, hwrite, hok₁, hwritten⟩ := exec_writePart hm hok hin hW hc buf idx
        (fun h => hpos (by omega)) (le_of_eq hend) (by omega) (by omega)
      have hnext : i + 1 < DATA_BLOCK_NUM := by unfold DATA_BLOCK_NUM FS_BLKSZ at *; omega
      obtain ⟨b₂, hseek, hok₂, hdisk₂, hpos₂⟩ := exec_seekBlock hm mt fileStruct
        (s := { s with below := b₁ }) hok₁ 0 hnext
      have hdisk : disk b₂ = disk b₁ := hdisk₂
      have hlength : (disk b₂).length = (disk s.below).length := by
        rw [hdisk, hwritten.length]
      have hadd : FS_BLKSZ * (i + 1) + 0 = FS_BLKSZ * i + off + n := by rw [Nat.mul_add]; omega
      -- the next block is on the disk, if there is anything left to write
      have hat : 0 < p'.total → pos b₂ = starts mt fileStruct (i + 1) + 0 := by
        intro hleft
        have : starts mt fileStruct (i + 1) + 0 + 1 ≤ _ :=
          part_in_disk hin (by decide) (by decide) (by omega)
        refine hpos₂ ?_
        show starts mt fileStruct (i + 1) + 0 < _
        omega
      obtain ⟨b', hrest, hok', hwritten'⟩ := ih (i + 1) 0 (idx + n) (p := p')
        (s := { s with below := b₂ }) hok₂ (by rw [hlength]; exact hsmall)
        (by rw [hlength]; exact hin) (by omega) hfits' hat (by omega) (by omega)
      rw [hadd, ← hc.append (i + 1) _ _ _ _ (by omega), ← htotal] at hok'
      refine ⟨b', ?_, hok', ?_⟩
      · rw [Prog.exec_bind_of_eq hwrite, Prog.exec_bind_of_eq hseek, hrest]
      · have hbl : (slice buf idx n).length = n := length_slice (by omega)
        have hbl' : (slice buf (idx + n) p'.total).length = p'.total := length_slice (by omega)
        rw [htotal, ← slice_append]
        rw [hadd] at hwritten'
        change WritesAt _ _ _ (disk b₂) _ at hwritten'
        rw [hdisk] at hwritten'
        refine hwritten.append (by rw [hbl]; exact hwritten') fun x hx y hy heq => ?_
        rw [hbl] at hx heq
        rw [hbl'] at hy
        have := hinj (Set.mem_Iio.mpr (by omega)) (Set.mem_Iio.mpr (by omega)) heq
        omega
    unfold writeBlocks
    rcases hfits with ⟨hlc, hend, hrem⟩ | ⟨hlc, hcyc, rfl, hrem⟩ | ⟨hlc, hcyc, hrem⟩
    · rw [if_pos hlc]
      exact hstep hend (by simp only [Plan.total]; omega) (Plan.fits_zero rfl hrem)
    · rw [if_neg (by omega), if_neg hcyc]
      refine hstep (Nat.zero_add _) ?_ (Plan.fits_zero hlc hrem)
      simp only [Plan.total]
      rw [hlc, Nat.mul_sub]
      have : FS_BLKSZ * 1 ≤ FS_BLKSZ * p.cycle := Nat.mul_le_mul_left _ (by omega)
      omega
    · rw [if_neg (by omega), if_pos hcyc]
      have htotal : p.total = p.remainder := by
        simp only [Plan.total]
        rw [hlc, hcyc]
        omega
      rw [htotal] at hlen hbuf hpos ⊢
      exact exec_writePart hm hok hin hW hc buf idx hpos hrem hlen hbuf

/-- **`fs_write` alone** overwrites the bytes of the file from its position on with those of the
buffer, up to the end of the buffer or of the file, returns their number and advances the
position by it. -/
theorem exec_fsWrite (hm : Metered be serve Ok t disk pos R W) {s : FsState β} (hok : Ok z s.below)
    {io position len k : Nat} {slot : Fin MAX_OPEN_FILE_CT} {fileStruct buf : Bytes}
    (ht : Transfer R mt (disk s.below) s.filePosition io slot position len fileStruct buf.length k)
    (hW : Covers W (starts mt fileStruct) len)
    (hinj : Set.InjOn (fileByte (starts mt fileStruct)) (Set.Iio len))
    (hin : ∀ x < len, fileByte (starts mt fileStruct) x < (disk s.below).length)
    {c : Nat → Nat → ι → ι} (hc : FileCost t (starts mt fileStruct) len c) :
    ∃ b', (fsWrite be mt io buf).exec (fsServe serve) s =
        some ((k : Int),
          { below := b'
            filePosition := Function.update s.filePosition slot (position + k) }) ∧
      Ok (c position k (t.alloc FS_BLKSZ z)) b' ∧
      WritesAt (fileByte (starts mt fileStruct)) position (buf.take k) (disk s.below)
        (disk b') := by
  have hlt := ht.count_le
  have hcount := ht.count
  obtain ⟨b₁, b₂, hread, hseek, hok₂, hdisk₂, hpos₂⟩ := exec_prepare hm hok ht
  have htotal : (plan position k).total = k := plan_total position (by omega)
  have hat : FS_BLKSZ * (position / FS_BLKSZ) + position % FS_BLKSZ = position :=
    Nat.div_add_mod position FS_BLKSZ
  have hpos' := ht.pos_of_covered hpos₂ fun hleft => hin position (by omega)
  obtain ⟨b', hrest, hok', hwritten⟩ := exec_writeBlocks hm mt ht.max hW hinj hc
    (DATA_BLOCK_NUM - position / FS_BLKSZ) (position / FS_BLKSZ) (position % FS_BLKSZ) 0 buf
    (s := { s with below := b₂ }) hok₂ (by rw [hdisk₂]; exact ht.small)
    (by rw [hdisk₂]; exact hin) (by omega) (plan_fits position k) hpos' (by omega) (by omega)
  rw [hat, htotal] at hok' hwritten
  refine ⟨b', ?_, hok', ?_⟩
  · unfold fsWrite
    rw [Prog.exec_bind_of_eq (exec_fsIoctl_getpos ht.last), ht.first]
    dsimp only
    rw [ht.getpos, Prog.exec_lock_bind, Prog.exec_bind_of_eq hread]
    dsimp only
    rw [Prog.exec_unlock_bind, Prog.exec_bind_of_eq hseek, Prog.exec_lock_bind,
      Prog.exec_bind_of_eq hrest, Prog.exec_unlock_bind,
      Prog.exec_bind_of_eq (exec_fsIoctl_setpos ht.last), Prog.pure_eq, Prog.exec_ret,
      i64_eq (by omega) (by omega), u64_eq (n := position + k) rfl (by omega),
      i32_eq (by omega) (by omega), u64_eq rfl (by omega)]
  · change WritesAt _ _ _ (disk b₂) _ at hwritten
    rw [hdisk₂] at hwritten
    exact hwritten

end Kfs

end RiscvKernel
