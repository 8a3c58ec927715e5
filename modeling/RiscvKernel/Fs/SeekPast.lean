import RiscvKernel.Fs.Image

/-!
# Reading and writing at any position

`IOCTL_SETPOS` accepts every `int`, and the file operations clip their count with one addition
and one subtraction of 64-bit numbers. At a position behind the end of the file, and also when
the addition wraps, the count that comes out is negative as a `long`; a negative position is an
index far behind `data_block_num`.

The accesses of the operations to the medium are recorded (`recorded`), so that it can be said
which bytes they touch.

* `clampCount_negative`: the count that the operations return otherwise.
* `seek_past_end_iff`: for which positions and counts the operations are harmless.
-/

namespace RiscvKernel

open Lib

namespace Kfs

variable {β : Type}

/-! ## A record of the accesses -/

/-- A transfer of `n` bytes at the position `p` of the medium. -/
inductive DiskAccess where
  | read (p n : Nat)
  | write (p n : Nat)

/-- The state behind `system_io`, with the transfers so far. -/
structure Recorded (β : Type) where
  below : β
  log : List DiskAccess

def recordLens (β : Type) : Lens (Recorded β) β where
  view s := s.below
  put s b := { s with below := b }
  view_put _ _ := rfl
  put_view _ := rfl
  put_put _ _ _ := rfl

def Recorded.note (s : Recorded β) (a : DiskAccess) : Recorded β := { s with log := s.log ++ [a] }

/-- The back end, with every call of `read` and `write` recorded. -/
def recorded (be : Backend β) (pos : β → Nat) : Backend (Recorded β) where
  sysIo :=
    { read := fun buf => do
        Prog.modify fun s => s.note (.read (pos s.below) buf.length)
        (be.sysIo.read buf).zoom (recordLens β)
      write := fun buf => do
        Prog.modify fun s => s.note (.write (pos s.below) buf.length)
        (be.sysIo.write buf).zoom (recordLens β)
      ctl := fun cmd arg => (be.sysIo.ctl cmd arg).zoom (recordLens β) }
  kmalloc n := (be.kmalloc n).zoom (recordLens β)

variable {be : Backend β} {serve : β → Option β} {Ok : β → Prop} {disk : β → Bytes}
  {pos : β → Nat} {mt : Mounted}

theorem exec_recorded {α : Type} {p : Prog β KLock KCond α} {s : Recorded β} {a : α} {b : β}
    (h : p.exec serve s.below = some (a, b)) :
    (p.zoom (recordLens β)).exec ((recordLens β).serve serve) s = some (a, { s with below := b }) := by
  rw [Prog.exec_zoom]
  show (p.exec serve s.below).map _ = _
  rw [h]
  rfl

/-- All transfers so far satisfy `P`. -/
structure Within (Ok : β → Prop) (P : DiskAccess → Prop) (s : Recorded β) : Prop where
  ok : Ok s.below
  log : ∀ a ∈ s.log, P a

theorem Within.note {P : DiskAccess → Prop} {s : Recorded β} (h : Within Ok P s) {a : DiskAccess}
    (ha : P a) {b : β} (hb : Ok b) : Within Ok P { s.note a with below := b } where
  ok := hb
  log x hx := by
    obtain hx | hx := List.mem_append.mp hx
    · exact h.log x hx
    · rw [List.mem_singleton.mp hx]
      exact ha

/-- With the record, a medium is one that serves the transfers that satisfy `P` and keeps it
true that there are no others. -/
theorem Medium.recorded
    (hm : Medium be serve Ok disk pos (fun _ _ => True) fun _ _ => True) (P : DiskAccess → Prop) :
    Medium (Kfs.recorded be pos) ((recordLens β).serve serve) (Within Ok P)
      (fun s => disk s.below) (fun s => pos s.below) (fun p n => P (.read p n))
      fun p n => P (.write p n) where
  seek s p hs := by
    obtain ⟨r, b', hseek, hok, hdisk, hpos⟩ := hm.seek s.below p hs.ok
    exact ⟨r, { s with below := b' }, exec_recorded hseek, ⟨hok, hs.log⟩, hdisk, hpos⟩
  read s buf hs hbuf hin hP := by
    obtain ⟨b', hread, hok, hdisk⟩ := hm.read s.below buf hs.ok hbuf hin trivial
    refine ⟨_, ?_, hs.note hP hok, hdisk⟩
    show (Prog.modify _ >>= fun _ => _).exec _ _ = _
    rw [Prog.exec_modify_bind]
    exact exec_recorded (s := s.note _) hread
  write s buf hs hbuf hin hP := by
    obtain ⟨b', hwrite, hok, hdisk⟩ := hm.write s.below buf hs.ok hbuf hin trivial
    refine ⟨_, ?_, hs.note hP hok, hdisk⟩
    show (Prog.modify _ >>= fun _ => _).exec _ _ = _
    rw [Prog.exec_modify_bind]
    exact exec_recorded (s := s.note _) hwrite
  alloc s n hs := by
    obtain ⟨v, b', halloc, hok, hdisk, hpos⟩ := hm.alloc s.below n hs.ok
    exact ⟨v, { s with below := b' }, exec_recorded halloc, ⟨hok, hs.log⟩, hdisk, hpos⟩

/-- Every byte of the range is in a data block of file `n`. -/
def InDataBlocks (numInodes : Nat) (d : Bytes) (n p k : Nat) : Prop :=
  ∀ x, p ≤ x → x < p + k → ∃ i, FS_BLKSZ * i < fileLen d n ∧
    fileStart numInodes d n i ≤ x ∧ x < fileStart numInodes d n i + FS_BLKSZ

/-- The transfer is inside the data blocks of file `n`, or it reads the inode block. -/
def DiskAccess.Own (numInodes : Nat) (d : Bytes) (n : Nat) : DiskAccess → Prop
  | .read p k => p = n * FS_BLKSZ + FS_BLKSZ ∧ k = FS_BLKSZ ∨ InDataBlocks numInodes d n p k
  | .write p k => InDataBlocks numInodes d n p k

/-- The ranges in which the operations transfer bytes of a file are in its data blocks. -/
theorem WellFormed.inDataBlocks {d : Bytes} {n : Nat} (hw : WellFormed mt.numInodes d)
    (hn : n < mt.numInodes) :
    Covers (InDataBlocks mt.numInodes d n) (starts mt (inodeOf d n)) (fileLen d n) := by
  intro i off len hpos hoff hlen x hx hxlt
  have hi : FS_BLKSZ * i < fileLen d n := by omega
  rw [hw.starts_eq hn hi] at hx hxlt
  exact ⟨i, hi, by omega, by omega⟩

/-! ## The count -/

/-- What `IOCTL_SETPOS` can establish is read back by `IOCTL_GETPOS`. -/
theorem getpos_setpos (arg : Nat) : u64 (i32 (u64 (i32 arg) : Nat)) = u64 (i32 arg) := by
  unfold u64 i32
  simp only [Int.bmod_def]
  split <;> split <;> omega

/-- Behind the end, or if the addition wraps, the count is negative as a `long`. -/
theorem clampCount_negative {len p n : Nat} (hlen : len < 2 ^ 31) (hp : p < 2 ^ 31)
    (hn : n < 2 ^ 64) (hbad : ¬(p ≤ len ∧ p + n < 2 ^ 64)) : i64 (clampCount len p n) < 0 := by
  unfold clampCount
  by_cases hwrap : p + n < 2 ^ 64
  · have hend : len < p := by omega
    rw [u64_eq rfl hwrap, if_pos (by omega), u64_sub_wrap hend (by omega)]
    exact i64_of_ge (by omega) (by omega)
  · have hsum : u64 (p + n : Nat) = p + n - 2 ^ 64 := by
      unfold u64
      omega
    rw [hsum]
    split
    · have hend : len < p := by omega
      rw [u64_sub_wrap hend (by omega)]
      exact i64_of_ge (by omega) (by omega)
    · exact i64_of_ge (by omega) (by omega)

section Returns

variable {s s₁ : FsState β} {io p n : Nat} {slot : Fin MAX_OPEN_FILE_CT} {fileStruct buf : Bytes}

/-- Indexing behind `data_block_num` is not modelled further. -/
theorem exec_seekBlock_none {i : Nat} (hi : ¬i < DATA_BLOCK_NUM) (leading : Nat) (s : FsState β) :
    (seekBlock be mt fileStruct i leading).exec (fsServe serve) s = none := by
  unfold seekBlock
  rw [Prog.exec_assert_bind_not hi]

/-- If `fs_read` returns, the first index was in range, and the result is the clamped count. -/
theorem fsRead_result (hlast : lastSlot mt io = some slot) (hfirst : firstSlot mt io = some slot)
    (hp : u64 (i32 (s.filePosition slot)) = p)
    (hread : (readInode be (mt.slots slot).inode p buf.length).exec (fsServe serve) s =
      some ((fileStruct, n), s₁))
    {r : Int} {buf' : Bytes} {s' : FsState β}
    (h : (fsRead be mt io buf).exec (fsServe serve) s = some ((r, buf'), s')) :
    p / FS_BLKSZ < DATA_BLOCK_NUM ∧ r = i64 n := by
  unfold fsRead at h
  rw [Prog.exec_bind_of_eq (exec_fsIoctl_getpos hlast), hfirst] at h
  dsimp only at h
  rw [hp, Prog.exec_lock_bind, Prog.exec_bind_of_eq hread] at h
  dsimp only at h
  rw [Prog.exec_unlock_bind, Prog.exec_lock_bind, Prog.exec_bind] at h
  obtain ⟨⟨_, s₂⟩, hseek, h⟩ := Option.bind_eq_some_iff.mp h
  refine ⟨?_, ?_⟩
  · by_contra hi
    rw [exec_seekBlock_none hi] at hseek
    cases hseek
  · rw [Prog.exec_bind] at h
    obtain ⟨⟨_, s₃⟩, -, h⟩ := Option.bind_eq_some_iff.mp h
    rw [Prog.exec_unlock_bind, Prog.exec_bind_of_eq (exec_fsIoctl_setpos hlast)] at h
    obtain ⟨⟨hr, -⟩, -⟩ := by simpa using h
    exact hr.symm

theorem fsWrite_result (hlast : lastSlot mt io = some slot) (hfirst : firstSlot mt io = some slot)
    (hp : u64 (i32 (s.filePosition slot)) = p)
    (hread : (readInode be (mt.slots slot).inode p buf.length).exec (fsServe serve) s =
      some ((fileStruct, n), s₁)) {r : Int} {s' : FsState β}
    (h : (fsWrite be mt io buf).exec (fsServe serve) s = some (r, s')) :
    p / FS_BLKSZ < DATA_BLOCK_NUM ∧ r = i64 n := by
  unfold fsWrite at h
  rw [Prog.exec_bind_of_eq (exec_fsIoctl_getpos hlast), hfirst] at h
  dsimp only at h
  rw [hp, Prog.exec_lock_bind, Prog.exec_bind_of_eq hread] at h
  dsimp only at h
  rw [Prog.exec_unlock_bind, Prog.exec_bind] at h
  obtain ⟨⟨_, s₂⟩, hseek, h⟩ := Option.bind_eq_some_iff.mp h
  refine ⟨?_, ?_⟩
  · by_contra hi
    rw [exec_seekBlock_none hi] at hseek
    cases hseek
  · rw [Prog.exec_lock_bind, Prog.exec_bind] at h
    obtain ⟨⟨_, s₃⟩, -, h⟩ := Option.bind_eq_some_iff.mp h
    rw [Prog.exec_unlock_bind, Prog.exec_bind_of_eq (exec_fsIoctl_setpos hlast)] at h
    obtain ⟨hr, -⟩ := by simpa using h
    exact hr.symm

end Returns

/-! ## Reading and writing after `IOCTL_SETPOS` -/

/-- What the result `r` of an operation at position `p` of a file of length `len` has to be, if
`n` bytes were asked for. -/
structure Harmless (len p n : Nat) (Own : DiskAccess → Prop) (r : Int) (unchanged : Prop)
    (log : List DiskAccess) : Prop where
  nonneg : 0 ≤ r
  le : r ≤ n
  past : len ≤ p → r = 0 ∧ unchanged
  own : ∀ a ∈ log, Own a

/-- The state with nothing recorded so far. -/
def fresh (s : FsState β) : FsState (Recorded β) where
  below := { below := s.below, log := [] }
  filePosition := s.filePosition

/-- The same, with the file in `slot` at the position `p`. -/
def freshAt (s : FsState β) (slot : Fin MAX_OPEN_FILE_CT) (p : Nat) : FsState (Recorded β) :=
  { fresh s with filePosition := Function.update s.filePosition slot p }

section Seek

variable (be serve disk pos mt) (io : Nat) (slot : Fin MAX_OPEN_FILE_CT) (s : FsState β) (arg : Nat)
  (buf : Bytes)

/-- `IOCTL_SETPOS` followed by `fs_read` is harmless. -/
def HarmlessRead : Prop :=
  ∃ r buf' s', (do
      let _ ← fsIoctl mt io IOCTL_SETPOS arg
      fsRead (recorded be pos) mt io buf : Code (Recorded β) (Int × Bytes)).exec
        (fsServe ((recordLens β).serve serve)) (fresh s) = some ((r, buf'), s') ∧
    Harmless (fileLen (disk s.below) (mt.slots slot).inode) (u64 (i32 arg)) buf.length
      (DiskAccess.Own mt.numInodes (disk s.below) (mt.slots slot).inode) r (buf' = buf) s'.below.log

/-- `IOCTL_SETPOS` followed by `fs_write` is harmless. -/
def HarmlessWrite : Prop :=
  ∃ r s', (do
      let _ ← fsIoctl mt io IOCTL_SETPOS arg
      fsWrite (recorded be pos) mt io buf : Code (Recorded β) Int).exec
        (fsServe ((recordLens β).serve serve)) (fresh s) = some (r, s') ∧
    Harmless (fileLen (disk s.below) (mt.slots slot).inode) (u64 (i32 arg)) buf.length
      (DiskAccess.Own mt.numInodes (disk s.below) (mt.slots slot).inode) r
      (disk s'.below.below = disk s.below) s'.below.log

end Seek

section Iff

variable {io : Nat} {slot : Fin MAX_OPEN_FILE_CT} {s : FsState β} {buf : Bytes}

theorem exec_setpos_fresh (ho : OpenAt mt io slot) (arg : Nat) :
    (fsIoctl mt io IOCTL_SETPOS arg).exec (fsServe ((recordLens β).serve serve)) (fresh s) =
      some ((i32 arg, arg), freshAt s slot (u64 (i32 arg))) :=
  exec_fsIoctl_setpos (slot_of_unique mt io slot ho.here ho.unique).2

theorem within_fresh {P : DiskAccess → Prop} (hok : Ok s.below) : Within Ok P (fresh s).below where
  ok := hok
  log := by
    intro a ha
    cases ha

@[simp] theorem freshAt_filePosition (s : FsState β) (slot : Fin MAX_OPEN_FILE_CT) (p : Nat) :
    (freshAt s slot p).filePosition slot = p :=
  Function.update_self ..

/-- A result that is the count, as long as the first block index was in range, is harmless only
up to the end of the file and without a wrap. -/
theorem count_of_harmless {len p n : Nat} {r : Int} (hlen : len < 2 ^ 31) (hn : n < 2 ^ 64)
    (hr : p / FS_BLKSZ < DATA_BLOCK_NUM ∧ r = i64 (clampCount len p n)) (hr0 : 0 ≤ r) :
    p ≤ len ∧ p + n < 2 ^ 64 := by
  have hblk : FS_BLKSZ = 4096 := rfl
  have hnum : DATA_BLOCK_NUM = 1023 := rfl
  obtain ⟨hindex, rfl⟩ := hr
  rw [hblk, hnum] at hindex
  by_contra hbad
  have hneg := clampCount_negative hlen (by omega) hn hbad
  omega

variable (hm : Medium be serve Ok disk pos (fun _ _ => True) fun _ _ => True)
  (hok : Ok s.below) (hw : WellFormed mt.numInodes (disk s.below)) (ho : OpenAt mt io slot)

include hm hok hw ho

/-- The inode is read first, and the count clipped with its length. -/
theorem exec_readInode_fresh (p n : Nat) :
    ∃ b', (readInode (recorded be pos) (mt.slots slot).inode p n).exec
        (fsServe ((recordLens β).serve serve)) (freshAt s slot p) =
      some ((inodeOf (disk s.below) (mt.slots slot).inode,
        clampCount (fileLen (disk s.below) (mt.slots slot).inode) p n), b') := by
  obtain ⟨b', hread, -⟩ := exec_readInode (hm.recorded
    (DiskAccess.Own mt.numInodes (disk s.below) (mt.slots slot).inode)).metered (z := ())
    (s := freshAt s slot p) (within_fresh hok) p n (hw.inode_inDisk ho.inode) hw.small (.inl ⟨rfl, rfl⟩) rfl
  exact ⟨_, hread⟩

theorem harmlessRead_iff (arg : Nat) (hbuf : buf.length < 2 ^ 64) :
    HarmlessRead be serve disk pos mt io slot s arg buf ↔
      u64 (i32 arg) ≤ fileLen (disk s.below) (mt.slots slot).inode ∧
        u64 (i32 arg) + buf.length < 2 ^ 64 := by
  have hset : (fsIoctl mt io IOCTL_SETPOS arg).exec (fsServe ((recordLens β).serve serve)) _ = _ :=
    exec_setpos_fresh (s := s) ho arg
  have hslots := slot_of_unique mt io slot ho.here ho.unique
  have hmax : fileLen (disk s.below) (mt.slots slot).inode < 1023 * 4096 := hw.len _ ho.inode
  constructor
  · rintro ⟨r, buf', s', hrun, hh⟩
    rw [Prog.exec_bind_of_eq hset] at hrun
    obtain ⟨b', hinode⟩ := exec_readInode_fresh hm hok hw ho (u64 (i32 arg)) buf.length
    have hr := fsRead_result hslots.2 hslots.1
      (by rw [freshAt_filePosition, getpos_setpos]) hinode hrun
    exact count_of_harmless (by omega) hbuf hr hh.nonneg
  · rintro ⟨hle, hsum⟩
    generalize hk : min (u64 (i32 arg) + buf.length)
      (fileLen (disk s.below) (mt.slots slot).inode) - u64 (i32 arg) = k
    obtain ⟨s', hread, hwithin, -⟩ := exec_fsRead_image
      (hm.recorded (DiskAccess.Own mt.numInodes (disk s.below) (mt.slots slot).inode)).metered
      (z := ()) (s := freshAt s slot (u64 (i32 arg))) (within_fresh hok) hw ho (.inl ⟨rfl, rfl⟩)
      (fun i off len hpos hoff hlen => .inr (hw.inDataBlocks ho.inode i off len hpos hoff hlen))
      (freshAt_filePosition ..) hle buf hsum hk.symm
    refine ⟨_, _, _, (Prog.exec_bind_of_eq hset _).trans hread, ?_⟩
    exact
      { nonneg := by omega
        le := by omega
        past := by
          intro hpast
          obtain rfl : k = 0 := by omega
          exact ⟨rfl, patch_nil ..⟩
        own := hwithin.log }

theorem harmlessWrite_iff (arg : Nat) (hbuf : buf.length < 2 ^ 64) :
    HarmlessWrite be serve disk pos mt io slot s arg buf ↔
      u64 (i32 arg) ≤ fileLen (disk s.below) (mt.slots slot).inode ∧
        u64 (i32 arg) + buf.length < 2 ^ 64 := by
  have hset : (fsIoctl mt io IOCTL_SETPOS arg).exec (fsServe ((recordLens β).serve serve)) _ = _ :=
    exec_setpos_fresh (s := s) ho arg
  have hslots := slot_of_unique mt io slot ho.here ho.unique
  have hmax : fileLen (disk s.below) (mt.slots slot).inode < 1023 * 4096 := hw.len _ ho.inode
  constructor
  · rintro ⟨r, s', hrun, hh⟩
    rw [Prog.exec_bind_of_eq hset] at hrun
    obtain ⟨b', hinode⟩ := exec_readInode_fresh hm hok hw ho (u64 (i32 arg)) buf.length
    have hr := fsWrite_result hslots.2 hslots.1
      (by rw [freshAt_filePosition, getpos_setpos]) hinode hrun
    exact count_of_harmless (by omega) hbuf hr hh.nonneg
  · rintro ⟨hle, hsum⟩
    generalize hk : min (u64 (i32 arg) + buf.length)
      (fileLen (disk s.below) (mt.slots slot).inode) - u64 (i32 arg) = k
    obtain ⟨s', hwrite, hwithin, hwritten⟩ := exec_fsWrite_image
      (hm.recorded (DiskAccess.Own mt.numInodes (disk s.below) (mt.slots slot).inode)).metered
      (z := ()) (s := freshAt s slot (u64 (i32 arg))) (within_fresh hok) hw ho (.inl ⟨rfl, rfl⟩)
      (hw.inDataBlocks ho.inode) (fileCost_freeOfCharge ..) (freshAt_filePosition ..) hle buf hsum
      hk.symm
    refine ⟨_, _, (Prog.exec_bind_of_eq hset _).trans hwrite, ?_⟩
    exact
      { nonneg := by omega
        le := by omega
        past := by
          intro hpast
          obtain rfl : k = 0 := by omega
          exact ⟨rfl, hwritten.eq_of_nil⟩
        own := hwithin.log }

/-- After any `IOCTL_SETPOS`, `fs_read` and `fs_write` are harmless exactly up to the end of the
file, and for counts with which the addition does not wrap. -/
theorem seek_past_end_iff (arg : Nat) (hbuf : buf.length < 2 ^ 64) :
    (HarmlessRead be serve disk pos mt io slot s arg buf ↔
      u64 (i32 arg) ≤ fileLen (disk s.below) (mt.slots slot).inode ∧
        u64 (i32 arg) + buf.length < 2 ^ 64) ∧
    (HarmlessWrite be serve disk pos mt io slot s arg buf ↔
      u64 (i32 arg) ≤ fileLen (disk s.below) (mt.slots slot).inode ∧
        u64 (i32 arg) + buf.length < 2 ^ 64) :=
  ⟨harmlessRead_iff hm hok hw ho arg hbuf, harmlessWrite_iff hm hok hw ho arg hbuf⟩

end Iff

theorem u64_i32_small {arg : Nat} (h : arg < 2 ^ 31) : u64 (i32 arg) = arg := by
  rw [i32_eq (by omega) (by omega), u64_eq rfl (by omega)]

/-- At the end of a file of three bytes. -/
theorem seek_past_end_abc :
    HarmlessRead (Lit.backend fun n z => some (zeroPages n z)) (fun _ => none)
      (fun b => b.lit.buf) (fun b => b.lit.pos) mountedAbc 0 ⟨0, by decide⟩ openAbc 3 [0, 0] := by
  refine (seek_past_end_iff (medium_lit (fun _ => none) zeroPages) ready_openAbc
    wellFormed_imageAbc openAt_mountedAbc 3 (by decide)).1.mpr ?_
  change _ ≤ fileLen imageAbc 0 ∧ _
  rw [u64_i32_small (by decide), fileLen_imageAbc]
  decide

/-- Two bytes behind the end of a file of three bytes: the count becomes `2 ^ 64 - 2`. -/
theorem seek_past_end_not_harmless :
    ¬HarmlessRead (Lit.backend fun n z => some (zeroPages n z)) (fun _ => none)
      (fun b => b.lit.buf) (fun b => b.lit.pos) mountedAbc 0 ⟨0, by decide⟩ openAbc 5 [0, 0] ∧
    ¬HarmlessWrite (Lit.backend fun n z => some (zeroPages n z)) (fun _ => none)
      (fun b => b.lit.buf) (fun b => b.lit.pos) mountedAbc 0 ⟨0, by decide⟩ openAbc 5 [0, 0] := by
  have hm := medium_lit (fun _ => none) zeroPages
  have hpast : ¬(u64 (i32 (5 : Nat)) ≤ fileLen imageAbc 0 ∧
      u64 (i32 (5 : Nat)) + ([0, 0] : Bytes).length < 2 ^ 64) := by
    rw [u64_i32_small (by decide), fileLen_imageAbc]
    decide
  constructor
  · rw [harmlessRead_iff hm ready_openAbc wellFormed_imageAbc openAt_mountedAbc 5 (by decide)]
    exact hpast
  · rw [harmlessWrite_iff hm ready_openAbc wellFormed_imageAbc openAt_mountedAbc 5 (by decide)]
    exact hpast

end Kfs

end RiscvKernel
