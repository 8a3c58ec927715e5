import RiscvKernel.Fs.RoundTrip
import RiscvKernel.Fs.WriteSpec

/-!
# Files on a well-formed image

An image is a boot block, the inode blocks, and data blocks. It is well formed (`WellFormed`) if
the data blocks of its files lie inside it, and no two files share one. The contents of a file
are its data blocks one after the other, cut off at its length (`fileBytes`).

* `WellFormed.gathers`: byte `x` of a file is at `filePlace x` on the disk.
* `WellFormed.replaced`: what overwriting bytes of one file does to the image.
* `fs_read_exact`, `fs_write_exact`: the two file operations on an image.
-/

namespace RiscvKernel

open Lib

namespace Kfs

variable {β : Type} {be : Backend β} {serve : β → Option β} {Ok : β → Prop} {disk : β → Bytes}
  {pos : β → Nat} {R W : Nat → Nat → Prop} {mt : Mounted}

/-! ## Images -/

/-- The block of inode `n`. -/
def inodeOf (d : Bytes) (n : Nat) : Bytes := slice d (n * FS_BLKSZ + FS_BLKSZ) FS_BLKSZ

/-- Where data block `num` starts, behind the boot block and the inodes. -/
def dataStart (numInodes num : Nat) : Nat := (1 + numInodes + num) * FS_BLKSZ

/-- Where data block `i` of file `n` starts. -/
def fileStart (numInodes : Nat) (d : Bytes) (n i : Nat) : Nat :=
  dataStart numInodes (dataBlockNum (inodeOf d n) i)

/-- Byte `x` of file `n` on the disk. -/
def filePlace (numInodes : Nat) (d : Bytes) (n : Nat) : Nat → Nat :=
  fileByte (fileStart numInodes d n)

/-- The length of file `n`. -/
def fileLen (d : Bytes) (n : Nat) : Nat := byteLen (inodeOf d n)

/-- The contents of file `n`: its data blocks in the order of the inode, up to its length. -/
def fileBytes (numInodes : Nat) (d : Bytes) (n : Nat) : Bytes :=
  ((List.range ((fileLen d n + (FS_BLKSZ - 1)) / FS_BLKSZ)).flatMap fun i =>
    slice d (fileStart numInodes d n i) FS_BLKSZ).take (fileLen d n)

/-- A well-formed image: the inodes and the data blocks that hold something are inside it, no
file is too long, and the data blocks are all different. -/
structure WellFormed (numInodes : Nat) (d : Bytes) : Prop where
  small : d.length < 2 ^ 31
  inodes : (1 + numInodes) * FS_BLKSZ ≤ d.length
  len : ∀ n < numInodes, fileLen d n < DATA_BLOCK_NUM * FS_BLKSZ
  inRange : ∀ n < numInodes, ∀ i, FS_BLKSZ * i < fileLen d n →
    fileStart numInodes d n i + FS_BLKSZ ≤ d.length
  distinct : ∀ n < numInodes, ∀ n' < numInodes, ∀ i i', FS_BLKSZ * i < fileLen d n →
    FS_BLKSZ * i' < fileLen d n' →
    dataBlockNum (inodeOf d n) i = dataBlockNum (inodeOf d n') i' → n = n' ∧ i = i'

namespace WellFormed

variable {numInodes n : Nat} {d d' : Bytes}

theorem gathers (hw : WellFormed numInodes d) (hn : n < numInodes) :
    (fileBytes numInodes d n).length = fileLen d n ∧
      Gathers (filePlace numInodes d n) d (fileBytes numInodes d n) := by
  have hblocks : ∀ i < (fileLen d n + (FS_BLKSZ - 1)) / FS_BLKSZ,
      fileStart numInodes d n i + FS_BLKSZ ≤ d.length := by
    intro i hi
    refine hw.inRange n hn i ?_
    unfold FS_BLKSZ at *
    omega
  obtain ⟨hlen, hget⟩ := gathers_blocks hblocks
  have hlen' : (fileBytes numInodes d n).length = fileLen d n := by
    unfold fileBytes
    rw [List.length_take, hlen, Nat.min_eq_left]
    unfold FS_BLKSZ
    omega
  refine ⟨hlen', fun x hx => ?_⟩
  rw [hlen'] at hx
  have hget := hget x (by rw [hlen]; unfold FS_BLKSZ at *; omega)
  unfold fileBytes
  rw [List.getElem?_take_of_lt hx]
  exact hget

/-- Two bytes of files at one place are the same byte of the same file. -/
theorem place_inj (hw : WellFormed numInodes d) {n' x x' : Nat} (hn : n < numInodes)
    (hn' : n' < numInodes) (hx : x < fileLen d n) (hx' : x' < fileLen d n')
    (h : filePlace numInodes d n x = filePlace numInodes d n' x') : n = n' ∧ x = x' := by
  unfold filePlace fileByte fileStart dataStart at h
  unfold FS_BLKSZ at h
  obtain ⟨hnum, hmod⟩ : dataBlockNum (inodeOf d n) (x / 4096) =
      dataBlockNum (inodeOf d n') (x' / 4096) ∧ x % 4096 = x' % 4096 := by omega
  obtain ⟨hnn, hdiv⟩ := hw.distinct n hn n' hn' (x / 4096) (x' / 4096)
    (by unfold FS_BLKSZ; omega) (by unfold FS_BLKSZ; omega) hnum
  exact ⟨hnn, by omega⟩

theorem injOn (hw : WellFormed numInodes d) (hn : n < numInodes) :
    Set.InjOn (filePlace numInodes d n) (Set.Iio (fileLen d n)) :=
  fun _ hx _ hy h => (hw.place_inj hn hn hx hy h).2

theorem place_lt (hw : WellFormed numInodes d) (hn : n < numInodes) {x : Nat}
    (hx : x < fileLen d n) : filePlace numInodes d n x < d.length := by
  have hdm := Nat.div_add_mod x FS_BLKSZ
  have := hw.inRange n hn (x / FS_BLKSZ) (by omega)
  have hmod := Nat.mod_lt x (show 0 < FS_BLKSZ by decide)
  unfold filePlace fileByte
  omega

/-- Files are behind the boot block and the inodes. -/
theorem place_ge (numInodes : Nat) (d : Bytes) (n x : Nat) :
    (1 + numInodes) * FS_BLKSZ ≤ filePlace numInodes d n x := by
  have : (1 + numInodes) * FS_BLKSZ ≤ dataStart numInodes
      (dataBlockNum (inodeOf d n) (x / FS_BLKSZ)) := Nat.mul_le_mul_right _ (Nat.le_add_right _ _)
  exact this.trans (Nat.le_add_right _ _)

theorem inode_inDisk (hw : WellFormed mt.numInodes d) (hn : n < mt.numInodes) :
    n * FS_BLKSZ + 2 * FS_BLKSZ ≤ d.length := by
  have hle : (n + 2) * FS_BLKSZ ≤ (1 + mt.numInodes) * FS_BLKSZ :=
    Nat.mul_le_mul_right _ (by omega)
  rw [Nat.add_mul] at hle
  exact hle.trans hw.inodes

/-- KFS computes the places of the blocks in 32 bits. -/
theorem starts_eq (hw : WellFormed mt.numInodes d) (hn : n < mt.numInodes) {i : Nat}
    (hi : FS_BLKSZ * i < fileLen d n) :
    starts mt (inodeOf d n) i = fileStart mt.numInodes d n i := by
  have hin := hw.inRange n hn i hi
  have hsmall := hw.small
  unfold fileStart dataStart at *
  have hsum : (dataBlockNum (inodeOf d n) i + mt.numInodes) * FS_BLKSZ + FS_BLKSZ =
      (1 + mt.numInodes + dataBlockNum (inodeOf d n) i) * FS_BLKSZ := by
    unfold FS_BLKSZ
    omega
  unfold starts blockStart
  rw [hsum]
  exact u32_eq rfl (by omega)

theorem fileByte_eq (hw : WellFormed mt.numInodes d) (hn : n < mt.numInodes) {x : Nat}
    (hx : x < fileLen d n) :
    fileByte (starts mt (inodeOf d n)) x = filePlace mt.numInodes d n x := by
  have hdm := Nat.div_add_mod x FS_BLKSZ
  unfold filePlace fileByte
  rw [hw.starts_eq hn (by omega)]

end WellFormed

/-- The bytes of a sequence of blocks, read part by part. -/
theorem holdsFile_of_gathers {d content : Bytes} {start : Nat → Nat}
    (hget : Gathers (fileByte start) d content)
    (hin : ∀ x < content.length, fileByte start x < d.length) : HoldsFile d start content := by
  intro i off len hlen hoff hle
  refine ⟨part_in_disk hin hlen hoff hle, List.ext_getElem? fun j => ?_⟩
  rw [getElem?_slice, getElem?_slice]
  split
  · have := hget (FS_BLKSZ * i + (off + j)) (by omega)
    rw [fileByte_block start (by omega)] at this
    rw [Nat.add_assoc, this, Nat.add_assoc]
  · rfl

/-! ## Overwriting bytes of a file -/

/-- The image `d'` is `d` with `data` in file `n` from byte `p` on: the boot block, the inodes
and all other files are the same. -/
structure Replaced (numInodes n p : Nat) (data d d' : Bytes) : Prop where
  length : d'.length = d.length
  content : fileBytes numInodes d' n = patch (fileBytes numInodes d n) p data
  boot : slice d' 0 FS_BLKSZ = slice d 0 FS_BLKSZ
  inodes : ∀ m < numInodes, inodeOf d' m = inodeOf d m
  others : ∀ m < numInodes, m ≠ n → fileBytes numInodes d' m = fileBytes numInodes d m

section Replaced

variable {numInodes n p : Nat} {data d d' : Bytes}

theorem WellFormed.transport (hw : WellFormed numInodes d) (hlen : d'.length = d.length)
    (hinodes : ∀ m < numInodes, inodeOf d' m = inodeOf d m) : WellFormed numInodes d' := by
  have hfl : ∀ m < numInodes, fileLen d' m = fileLen d m := fun m hm => by
    rw [fileLen, hinodes m hm, fileLen]
  have hfs : ∀ m < numInodes, ∀ i, fileStart numInodes d' m i = fileStart numInodes d m i :=
    fun m hm i => by rw [fileStart, hinodes m hm, fileStart]
  exact
    { small := by rw [hlen]; exact hw.small
      inodes := by rw [hlen]; exact hw.inodes
      len := fun m hm => by rw [hfl m hm]; exact hw.len m hm
      inRange := fun m hm i hi => by
        rw [hfs m hm, hlen]
        exact hw.inRange m hm i (by rw [← hfl m hm]; exact hi)
      distinct := fun m hm m' hm' i i' hi hi' h => by
        rw [hinodes m hm, hinodes m' hm'] at h
        exact hw.distinct m hm m' hm' i i' (by rw [← hfl m hm]; exact hi)
          (by rw [← hfl m' hm']; exact hi') h }

/-- A write of bytes of a file does this. -/
theorem WellFormed.replaced (hw : WellFormed numInodes d) (hn : n < numInodes)
    (hfit : p + data.length ≤ fileLen d n)
    (h : WritesAt (filePlace numInodes d n) p data d d') : Replaced numInodes n p data d d' := by
  -- the boot block and the inodes come before all data blocks
  have hfront : ∀ q m, q + m ≤ (1 + numInodes) * FS_BLKSZ → slice d' q m = slice d q m := by
    intro q m hqm
    refine h.slice_eq fun j _ => .inr (hqm.trans (place_ge numInodes d n _))
  have hinodes : ∀ m < numInodes, inodeOf d' m = inodeOf d m := by
    intro m hm
    refine hfront _ _ ?_
    unfold FS_BLKSZ
    omega
  have hw' := hw.transport h.length hinodes
  have hplace : ∀ m < numInodes, filePlace numInodes d' m = filePlace numInodes d m := by
    intro m hm
    unfold filePlace fileStart
    rw [hinodes m hm]
  have hlen : ∀ m < numInodes, fileLen d' m = fileLen d m := fun m hm => by
    rw [fileLen, hinodes m hm, fileLen]
  obtain ⟨hl, hg⟩ := hw.gathers hn
  obtain ⟨hl', hg'⟩ := hw'.gathers hn
  rw [hplace n hn] at hg'
  refine ⟨h.length, ?_, hfront 0 FS_BLKSZ (by unfold FS_BLKSZ; omega), hinodes, fun m hm hne => ?_⟩
  · refine hg'.unique (h.gathers hg (by omega) (by rw [hl]; exact hw.injOn hn)) ?_
    rw [length_patch (by omega), hl, hl', hlen n hn]
  · obtain ⟨hlm, hgm⟩ := hw.gathers hm
    obtain ⟨hlm', hgm'⟩ := hw'.gathers hm
    rw [hplace m hm] at hgm'
    refine hgm'.unique (h.gathers_other hgm fun x hx j hj heq => ?_) (by rw [hlm, hlm', hlen m hm])
    exact hne (hw.place_inj hn hm (by omega) (by omega) heq).1.symm

end Replaced

/-! ## The file operations -/

/-- `io` is an open file: it is in this slot of the table and in no other, and the inode number
is one of the image. -/
structure OpenAt (mt : Mounted) (io : Nat) (slot : Fin MAX_OPEN_FILE_CT) : Prop where
  here : (mt.slots slot).io = some io
  unique : ∀ i, (mt.slots i).io = some io → i = slot
  inode : (mt.slots slot).inode < mt.numInodes

section Operations

variable {s : FsState β} {io p : Nat} {slot : Fin MAX_OPEN_FILE_CT}

/-- The transfer of `n` bytes at the position of an open file. -/
theorem OpenAt.transfer (ho : OpenAt mt io slot) (hw : WellFormed mt.numInodes (disk s.below))
    (hR : R ((mt.slots slot).inode * FS_BLKSZ + FS_BLKSZ) FS_BLKSZ)
    (hp : s.filePosition slot = p)
    (hle : p ≤ fileLen (disk s.below) (mt.slots slot).inode) {n : Nat} (hsum : p + n < 2 ^ 64) :
    Transfer R mt (disk s.below) s.filePosition io slot p
      (fileLen (disk s.below) (mt.slots slot).inode)
      (inodeOf (disk s.below) (mt.slots slot).inode) n
      (min (p + n) (fileLen (disk s.below) (mt.slots slot).inode) - p) where
  last := (slot_of_unique mt io slot ho.here ho.unique).2
  first := (slot_of_unique mt io slot ho.here ho.unique).1
  filePosition := hp
  le := hle
  max := hw.len _ ho.inode
  inDisk := hw.inode_inDisk ho.inode
  small := hw.small
  readable := hR
  inode := rfl
  byteLen := rfl
  sum := hsum
  count := by omega

/-- `fs_read` on an image. Besides the inode block only bytes of the file are read. -/
theorem exec_fsRead_image {ι : Type} {Ok : ι → β → Prop} {t : Tariff ι}
    (hm : Metered be serve Ok t disk pos R W) {z : ι} (hok : Ok z s.below)
    (hw : WellFormed mt.numInodes (disk s.below)) (ho : OpenAt mt io slot)
    (hR : R ((mt.slots slot).inode * FS_BLKSZ + FS_BLKSZ) FS_BLKSZ)
    (hRfile : Covers R (starts mt (inodeOf (disk s.below) (mt.slots slot).inode))
      (fileLen (disk s.below) (mt.slots slot).inode))
    (hp : s.filePosition slot = p)
    (hle : p ≤ fileLen (disk s.below) (mt.slots slot).inode) (buf : Bytes)
    (hsum : p + buf.length < 2 ^ 64) {k : Nat}
    (hk : k = min (p + buf.length) (fileLen (disk s.below) (mt.slots slot).inode) - p) :
    ∃ b', (fsRead be mt io buf).exec (fsServe serve) s =
        some (((k : Int), patch buf 0
          (slice (fileBytes mt.numInodes (disk s.below) (mt.slots slot).inode) p k)),
          { below := b', filePosition := Function.update s.filePosition slot (p + k) }) ∧
      Ok (t.alloc FS_BLKSZ z) b' ∧ disk b' = disk s.below := by
  obtain ⟨hlen, hget⟩ := hw.gathers ho.inode
  have ht := ho.transfer hw hR hp hle hsum
  rw [← hk] at ht
  have hplace : ∀ x < (fileBytes mt.numInodes (disk s.below) (mt.slots slot).inode).length,
      fileByte (starts mt (inodeOf (disk s.below) (mt.slots slot).inode)) x =
        filePlace mt.numInodes (disk s.below) (mt.slots slot).inode x :=
    fun x hx => hw.fileByte_eq ho.inode (by omega)
  refine exec_fsRead hm hok ht (holdsFile_of_gathers (hget.congr hplace) fun x hx => ?_)
    (by rw [hlen]; exact hRfile) hlen.le (by omega)
  rw [hplace x hx]
  exact hw.place_lt ho.inode (by omega)

/-- `fs_write` on an image. -/
theorem exec_fsWrite_image {ι : Type} {Ok : ι → β → Prop} {t : Tariff ι}
    (hm : Metered be serve Ok t disk pos R W) {z : ι} (hok : Ok z s.below)
    (hw : WellFormed mt.numInodes (disk s.below)) (ho : OpenAt mt io slot)
    (hR : R ((mt.slots slot).inode * FS_BLKSZ + FS_BLKSZ) FS_BLKSZ)
    (hWfile : Covers W (starts mt (inodeOf (disk s.below) (mt.slots slot).inode))
      (fileLen (disk s.below) (mt.slots slot).inode))
    {c : Nat → Nat → ι → ι}
    (hc : FileCost t (starts mt (inodeOf (disk s.below) (mt.slots slot).inode))
      (fileLen (disk s.below) (mt.slots slot).inode) c) (hp : s.filePosition slot = p)
    (hle : p ≤ fileLen (disk s.below) (mt.slots slot).inode) (buf : Bytes)
    (hsum : p + buf.length < 2 ^ 64) {k : Nat}
    (hk : k = min (p + buf.length) (fileLen (disk s.below) (mt.slots slot).inode) - p) :
    ∃ b', (fsWrite be mt io buf).exec (fsServe serve) s =
        some ((k : Int),
          { below := b', filePosition := Function.update s.filePosition slot (p + k) }) ∧
      Ok (c p k (t.alloc FS_BLKSZ z)) b' ∧
      WritesAt (filePlace mt.numInodes (disk s.below) (mt.slots slot).inode) p (buf.take k)
        (disk s.below) (disk b') := by
  have ht := ho.transfer hw hR hp hle hsum
  rw [← hk] at ht
  have hplace : ∀ x < fileLen (disk s.below) (mt.slots slot).inode,
      fileByte (starts mt (inodeOf (disk s.below) (mt.slots slot).inode)) x =
        filePlace mt.numInodes (disk s.below) (mt.slots slot).inode x :=
    fun x hx => hw.fileByte_eq ho.inode hx
  obtain ⟨b', hwrite, hok', hwritten⟩ := exec_fsWrite hm hok ht hWfile
    (fun x hx y hy heq => hw.injOn ho.inode hx hy
      (by rw [← hplace x hx, ← hplace y hy]; exact heq))
    (fun x hx => by rw [hplace x hx]; exact hw.place_lt ho.inode hx) hc
  have htake : (buf.take k).length = k := List.length_take_of_le (by omega)
  refine ⟨b', hwrite, hok', ?_⟩
  -- KFS and the image agree on where the bytes that are written are
  have hsame : ∀ j < (buf.take k).length,
      fileByte (starts mt (inodeOf (disk s.below) (mt.slots slot).inode)) (p + j) =
        filePlace mt.numInodes (disk s.below) (mt.slots slot).inode (p + j) :=
    fun j hj => hplace (p + j) (by omega)
  exact
    { length := hwritten.length
      written := fun j hj => by rw [← hsame j hj]; exact hwritten.written j hj
      frame := fun q hq => hwritten.frame q fun j hj => by rw [hsame j hj]; exact hq j hj }

/-- `fs_read` returns exactly the bytes of the file. On a medium that holds a well-formed image,
reading `buf.length` bytes at the position `p` stores the bytes of the file from `p` to the end
of the buffer or of the file and nothing behind them, returns their number and advances the
position by it. Every index into `data_block_num` is asserted to be in range, so that it returns
at all says that all of them were. -/
theorem fs_read_exact (hm : Medium be serve Ok disk pos (fun _ _ => True) W) (hok : Ok s.below)
    (hw : WellFormed mt.numInodes (disk s.below)) (ho : OpenAt mt io slot)
    (hp : s.filePosition slot = p) (hle : p ≤ fileLen (disk s.below) (mt.slots slot).inode)
    (buf : Bytes) (hbuf : buf.length < 2 ^ 63) :
    ∃ k b', k = min (p + buf.length) (fileLen (disk s.below) (mt.slots slot).inode) - p ∧
      (fsRead be mt io buf).exec (fsServe serve) s =
        some (((k : Int), patch buf 0
          (slice (fileBytes mt.numInodes (disk s.below) (mt.slots slot).inode) p k)),
          { below := b', filePosition := Function.update s.filePosition slot (p + k) }) ∧
      Ok b' ∧ disk b' = disk s.below := by
  have hmax : fileLen (disk s.below) (mt.slots slot).inode < 1023 * 4096 := hw.len _ ho.inode
  obtain ⟨b', hread⟩ := exec_fsRead_image hm.metered (z := ()) hok hw ho trivial covers_true hp hle
    buf (by omega) rfl
  exact ⟨_, b', rfl, hread⟩

/-! An image in memory with one file, `abc`, which is open at position 1. -/

/-- The inode block of a file of 3 bytes in data block 0. -/
def inodeAbc : Bytes := Mkfs.le32Bytes 3 ++ List.replicate (FS_BLKSZ - 4) 0

def blockAbc : Bytes := Mkfs.ascii "abc" ++ List.replicate (FS_BLKSZ - 3) 0

@[irreducible] def imageAbc : Bytes := List.replicate FS_BLKSZ 0 ++ (inodeAbc ++ blockAbc)

def mountedAbc : Mounted where
  slots i := if i.val = 0 then ⟨some 0, 3, 0⟩ else ⟨none, 0, 0⟩
  numInodes := 1

def openAbc : FsState (LitState Unit) where
  below := ⟨⟨imageAbc, imageAbc.length, 0⟩, ()⟩
  filePosition _ := 1

theorem length_inodeAbc : inodeAbc.length = FS_BLKSZ := by
  rw [inodeAbc, List.length_append, List.length_replicate]
  rfl

theorem length_blockAbc : blockAbc.length = FS_BLKSZ := by
  rw [blockAbc, List.length_append, List.length_replicate]
  rfl

theorem length_imageAbc : imageAbc.length = 3 * FS_BLKSZ := by
  rw [imageAbc, List.length_append, List.length_append, List.length_replicate, length_inodeAbc,
    length_blockAbc]
  rfl

theorem inodeOf_imageAbc : inodeOf imageAbc 0 = inodeAbc := by
  unfold inodeOf imageAbc
  rw [slice_append_right (q := 0) _ (by rw [List.length_replicate]; rfl),
    slice_append_left _ (by rw [length_inodeAbc]; rfl), ← length_inodeAbc, slice_full]

theorem fileLen_imageAbc : fileLen imageAbc 0 = 3 := by
  unfold fileLen
  rw [inodeOf_imageAbc]
  decide

theorem fileStart_imageAbc : fileStart 1 imageAbc 0 0 = 2 * FS_BLKSZ := by
  have hnum : dataBlockNum inodeAbc 0 = 0 := by decide
  unfold fileStart
  rw [inodeOf_imageAbc, hnum]
  rfl

theorem wellFormed_imageAbc : WellFormed 1 imageAbc where
  small := by rw [length_imageAbc]; decide
  inodes := by rw [length_imageAbc]; decide
  len n hn := by
    obtain rfl : n = 0 := by omega
    rw [fileLen_imageAbc]
    decide
  inRange n hn i hi := by
    obtain rfl : n = 0 := by omega
    rw [fileLen_imageAbc] at hi
    obtain rfl : i = 0 := by unfold FS_BLKSZ at hi; omega
    rw [fileStart_imageAbc, length_imageAbc]
    decide
  distinct n hn n' hn' i i' hi hi' _ := by
    obtain ⟨rfl, rfl⟩ : n = 0 ∧ n' = 0 := by omega
    rw [fileLen_imageAbc] at hi hi'
    unfold FS_BLKSZ at hi hi'
    omega

theorem fileBytes_imageAbc : fileBytes 1 imageAbc 0 = Mkfs.ascii "abc" := by
  have hblock : slice imageAbc (2 * FS_BLKSZ) FS_BLKSZ = blockAbc := by
    unfold imageAbc
    rw [slice_append_right (q := FS_BLKSZ) _ (by rw [List.length_replicate]; rfl),
      slice_append_right (q := 0) _ (by rw [length_inodeAbc]; rfl), ← length_blockAbc, slice_full]
  unfold fileBytes
  rw [fileLen_imageAbc, show (3 + (FS_BLKSZ - 1)) / FS_BLKSZ = 1 from rfl]
  simp only [List.range_one, List.flatMap_singleton]
  rw [fileStart_imageAbc, hblock]
  rfl

theorem openAt_mountedAbc : OpenAt mountedAbc 0 ⟨0, by decide⟩ where
  here := rfl
  unique i hi := by
    by_contra hne
    have : i.val ≠ 0 := fun h => hne (Fin.ext h)
    simp [mountedAbc, this] at hi
  inode := by decide

theorem ready_openAbc : Lit.Ready openAbc.below where
  size := rfl
  small := by
    show imageAbc.length < _
    rw [length_imageAbc]
    decide

/-- Two bytes are read. -/
theorem fs_read_exact_abc : ∃ s', (fsRead (Lit.backend fun n z => some (zeroPages n z))
    mountedAbc 0 [0, 0]).exec (fsServe fun _ => none) openAbc = some ((2, Mkfs.ascii "bc"), s') := by
  obtain ⟨k, b', hk, hread, -⟩ := fs_read_exact (p := 1) (medium_lit (fun _ => none) zeroPages)
    ready_openAbc wellFormed_imageAbc openAt_mountedAbc rfl
    (by show 1 ≤ fileLen imageAbc 0; rw [fileLen_imageAbc]; decide) [0, 0] (by decide)
  change k = min 3 (fileLen imageAbc 0) - 1 at hk
  rw [fileLen_imageAbc] at hk
  obtain rfl : k = 2 := hk
  change _ = some ((_, patch [0, 0] 0 (slice (fileBytes 1 imageAbc 0) 1 2)), _) at hread
  rw [fileBytes_imageAbc] at hread
  exact ⟨_, hread⟩

/-- `fs_write` changes exactly the addressed bytes of the file, and reading them back gives what
was written. -/
theorem fs_write_exact (hm : Medium be serve Ok disk pos (fun _ _ => True) fun _ _ => True)
    (hok : Ok s.below) (hw : WellFormed mt.numInodes (disk s.below)) (ho : OpenAt mt io slot)
    (hp : s.filePosition slot = p) (hle : p ≤ fileLen (disk s.below) (mt.slots slot).inode)
    (buf : Bytes) (hbuf : buf.length < 2 ^ 63) :
    ∃ k s', k = min (p + buf.length) (fileLen (disk s.below) (mt.slots slot).inode) - p ∧
      (fsWrite be mt io buf).exec (fsServe serve) s = some ((k : Int), s') ∧ Ok s'.below ∧
      s'.filePosition = Function.update s.filePosition slot (p + k) ∧
      Replaced mt.numInodes (mt.slots slot).inode p (buf.take k) (disk s.below) (disk s'.below) ∧
      ∀ old : Bytes, old.length = k → ∃ s'',
        (do
          let _ ← fsIoctl mt io IOCTL_SETPOS p
          fsRead be mt io old : Code β (Int × Bytes)).exec (fsServe serve) s' =
        some (((k : Int), buf.take k), s'') := by
  have hmax : fileLen (disk s.below) (mt.slots slot).inode < 1023 * 4096 := hw.len _ ho.inode
  generalize hk : min (p + buf.length) (fileLen (disk s.below) (mt.slots slot).inode) - p = k
  obtain ⟨b', hwrite, hok', hwritten⟩ := exec_fsWrite_image hm.metered (z := ()) hok hw ho trivial
    covers_true (fileCost_freeOfCharge ..) hp hle buf (by omega) hk.symm
  have htake : (buf.take k).length = k := List.length_take_of_le (by omega)
  have hrep := hw.replaced ho.inode (by omega) hwritten
  refine ⟨k, _, rfl, hwrite, hok', rfl, hrep, fun old hold => ?_⟩
  have hw' := hw.transport hrep.length hrep.inodes
  have hlen : fileLen (disk b') (mt.slots slot).inode =
      fileLen (disk s.below) (mt.slots slot).inode := by
    rw [fileLen, hrep.inodes _ ho.inode, fileLen]
  -- back at `p`
  have hset : (fsIoctl mt io IOCTL_SETPOS p).exec (fsServe serve) _ = _ := exec_fsIoctl_setpos
    (s := ({ below := b', filePosition := Function.update s.filePosition slot (p + k) } : FsState β))
    (slot_of_unique mt io slot ho.here ho.unique).2
  rw [i32_eq (by omega) (by omega), u64_eq rfl (by omega), Function.update_idem] at hset
  obtain ⟨b'', hread, -⟩ := exec_fsRead_image hm.metered (z := ())
    (s := { below := b', filePosition := Function.update s.filePosition slot p }) hok' hw' ho
    trivial covers_true (Function.update_self ..) (by rw [hlen]; exact hle) old (by omega)
    (k := k) (by rw [hlen, hold]; omega)
  refine ⟨_, (Prog.exec_bind_of_eq hset _).trans (hread.trans (congrArg some (Prod.ext ?_ rfl)))⟩
  obtain ⟨hcl, -⟩ := hw.gathers ho.inode
  have hback : slice (fileBytes mt.numInodes (disk b') (mt.slots slot).inode) p k = buf.take k := by
    have := slice_patch_self (l := fileBytes mt.numInodes (disk s.below) (mt.slots slot).inode)
      (b := buf.take k) (p := p) (by omega)
    rw [htake] at this
    rw [hrep.content]
    exact this
  show ((k : Int), patch old 0 (slice (fileBytes mt.numInodes (disk b') _) p k)) = _
  rw [hback, patch_all (by rw [htake, hold])]

/-- One byte is written, and read back. -/
theorem fs_write_exact_abc : ∃ s', (fsWrite (Lit.backend fun n z => some (zeroPages n z))
      mountedAbc 0 (Mkfs.ascii "x")).exec (fsServe fun _ => none) openAbc = some (1, s') ∧
    fileBytes 1 s'.below.lit.buf 0 = Mkfs.ascii "axc" := by
  obtain ⟨k, s', hk, hwrite, -, -, hrep, -⟩ := fs_write_exact (p := 1)
    (medium_lit (fun _ => none) zeroPages) ready_openAbc wellFormed_imageAbc
    openAt_mountedAbc rfl
    (by show 1 ≤ fileLen imageAbc 0; rw [fileLen_imageAbc]; decide) (Mkfs.ascii "x") (by decide)
  change k = min 2 (fileLen imageAbc 0) - 1 at hk
  rw [fileLen_imageAbc] at hk
  obtain rfl : k = 1 := hk
  refine ⟨s', hwrite, ?_⟩
  have hcontent : fileBytes 1 s'.below.lit.buf 0 = patch (fileBytes 1 imageAbc 0) 1 _ := hrep.content
  rw [hcontent, fileBytes_imageAbc]
  rfl

end Operations

end Kfs

end RiscvKernel
