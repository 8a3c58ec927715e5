import RiscvKernel.Fs.Media
import RiscvKernel.Fs.Mkfs

/-!
# `mkfs` and KFS

Mounting the image that `mkfs` writes, opening a name and reading from the beginning.
The `k`-th file is read back whatever the files contain exactly when it is empty or no
file before it has a length that is a multiple of the block size
(`mkfs_image_reads_back_iff`): each such file has one data block numbered that is never
written, and the data of the later files is found one block too far.
-/

namespace RiscvKernel

open Lib

namespace Kfs

variable {β : Type} {be : Backend β} {serve : β → Option β} {Ok : β → Prop} {disk : β → Bytes}
  {pos : β → Nat} {R W : Nat → Nat → Prop}

/-! ## Mounting and opening -/

/-- The device behind the whole file system. -/
abbrev kfsServe (serve : β → Option β) : KfsState β → Option (KfsState β) :=
  (fsLens β).serve (fsServe serve)

/-- What a program on the open files does, seen from the whole file system. -/
theorem exec_fs {α : Type} {p : Code β α} {s : KfsState β} {a : α} {f : FsState β}
    (h : p.exec (fsServe serve) s.fs = some (a, f)) :
    (p.zoom (fsLens β)).exec (kfsServe serve) s = some (a, { s with fs := f }) := by
  rw [Prog.exec_zoom]
  show (p.exec (fsServe serve) s.fs).map _ = _
  rw [h]
  rfl

/-- Mounting reads the boot block. -/
theorem exec_fsMount (hm : Medium be serve Ok disk pos R W) {s : KfsState β} (hok : Ok s.fs.below)
    (hpos : pos s.fs.below = 0) (hsuper : s.table.superBlock.length = FS_BLKSZ)
    (hin : FS_BLKSZ ≤ (disk s.fs.below).length) (hR : R 0 FS_BLKSZ) :
    ∃ b, (fsMount be).exec (kfsServe serve) s =
        some (0, { fs := { s.fs with below := b }
                   table := { s.table with
                     superBlock := slice (disk s.fs.below) 0 FS_BLKSZ } }) ∧
      Ok b ∧ disk b = disk s.fs.below := by
  obtain ⟨b, hread, hok', hdisk⟩ := exec_readFull hm.metered (z := ()) hok s.table.superBlock
    (by rw [hsuper]; decide) (by rw [hpos, hsuper]; omega) (by rw [hpos, hsuper]; exact hR)
  rw [hsuper, hpos] at hread
  refine ⟨b, ?_, hok', hdisk⟩
  unfold fsMount
  rw [Prog.exec_get_bind, Prog.exec_bind_of_eq (exec_fs hread)]
  dsimp only
  rw [Prog.exec_modify_bind, if_neg (by unfold FS_BLKSZ; omega)]
  rfl

/-- What `fs_open` does with `system_io` and the heap: it positions the device on the inode,
allocates a buffer, reads the block, and allocates an `io_intf`. -/
theorem exec_openReads (hm : Medium be serve Ok disk pos R W) {s : FsState β} (hok : Ok s.below)
    {inode : Nat} (hin : inode * FS_BLKSZ + 2 * FS_BLKSZ ≤ (disk s.below).length)
    (hsmall : (disk s.below).length < 2 ^ 31) (hR : R (inode * FS_BLKSZ + FS_BLKSZ) FS_BLKSZ) :
    ∃ r b₁ v b₂ b₃ v' b₄,
      (be.io.ctl IOCTL_SETPOS (u32 (FS_BLKSZ * inode + FS_BLKSZ : Nat))).exec (fsServe serve) s =
        some (r, { s with below := b₁ }) ∧
      (be.alloc FS_BLKSZ).exec (fsServe serve) { s with below := b₁ } =
        some (v, { s with below := b₂ }) ∧
      (be.io.read v.toList).exec (fsServe serve) { s with below := b₂ } =
        some (((FS_BLKSZ : Int), slice (disk s.below) (inode * FS_BLKSZ + FS_BLKSZ) FS_BLKSZ),
          { s with below := b₃ }) ∧
      (be.alloc 16).exec (fsServe serve) { s with below := b₃ } =
        some (v', { s with below := b₄ }) ∧
      Ok b₄ ∧ disk b₄ = disk s.below := by
  have hblk : FS_BLKSZ = 4096 := rfl
  have hm := hm.metered
  have hat : u32 (FS_BLKSZ * inode + FS_BLKSZ : Nat) = inode * FS_BLKSZ + FS_BLKSZ :=
    u32_eq (by rw [Nat.mul_comm]) (by omega)
  obtain ⟨r, b₁, hseek, hok₁, hdisk₁, hpos₁⟩ := exec_seek hm (z := ()) hok
    (inode * FS_BLKSZ + FS_BLKSZ)
  obtain ⟨v, b₂, halloc, hok₂, hdisk₂, hpos₂⟩ := exec_alloc hm (z := ())
    (s := { s with below := b₁ }) hok₁ FS_BLKSZ
  have hdisk : disk b₂ = disk s.below := hdisk₂.trans hdisk₁
  have hposb : pos b₂ = inode * FS_BLKSZ + FS_BLKSZ := hpos₂.trans (hpos₁ (by omega))
  obtain ⟨b₃, hread, hok₃, hdisk₃⟩ := exec_read hm (z := ()) (s := { s with below := b₂ }) hok₂
    v.toList (by rw [v.toList_length]; omega)
    (by
      simp only
      rw [v.toList_length, hposb, hdisk]
      omega)
    (by
      simp only
      rw [v.toList_length, hposb]
      exact hR)
  simp only [v.toList_length, hposb, hdisk] at hread
  obtain ⟨v', b₄, halloc', hok₄, hdisk₄, -⟩ := exec_alloc hm (z := ())
    (s := { s with below := b₃ }) hok₃ 16
  rw [hat]
  exact ⟨r, b₁, v, b₂, b₃, v', b₄, hseek, halloc, hread, halloc', hok₄,
    hdisk₄.trans (hdisk₃.trans hdisk)⟩

/-- An inode inside a disk of this size is not the mark for "no inode". -/
theorem inode_ne_mark {inode n : Nat} (hin : inode * FS_BLKSZ + 2 * FS_BLKSZ ≤ n)
    (hsmall : n < 2 ^ 31) : inode ≠ u32 (-1) := by
  unfold FS_BLKSZ at hin
  unfold u32
  omega

/-- Opening a file that the directory lists fills a slot, at position 0. -/
theorem exec_fsOpen (hm : Medium be serve Ok disk pos R W) {s : KfsState β} (hok : Ok s.fs.below)
    {name : Bytes} {e inode : Nat} {slot : Fin MAX_OPEN_FILE_CT}
    (hentry : findEntry s.table.superBlock name = some e)
    (hinode : le32 s.table.superBlock (dentry e + 32) = inode)
    (hin : inode * FS_BLKSZ + 2 * FS_BLKSZ ≤ (disk s.fs.below).length)
    (hsmall : (disk s.fs.below).length < 2 ^ 31) (hR : R (inode * FS_BLKSZ + FS_BLKSZ) FS_BLKSZ)
    (hslot : freeSlot s.table = some slot) :
    ∃ b, (fsOpen be name).exec (kfsServe serve) s =
        some ((0, some s.table.nextIo),
          { fs :=
              { below := b
                filePosition := Function.update s.fs.filePosition slot 0 }
            table :=
              { s.table with
                slots := Function.update s.table.slots slot
                  ⟨some s.table.nextIo, byteLen
                    (slice (disk s.fs.below) (inode * FS_BLKSZ + FS_BLKSZ) FS_BLKSZ), inode⟩
                nextIo := s.table.nextIo + 1 } }) ∧
      Ok b ∧ disk b = disk s.fs.below := by
  obtain ⟨r, b₁, v, b₂, b₃, v', b₄, hseek, halloc, hread, halloc', hok₄, hdisk₄⟩ :=
    exec_openReads hm hok hin hsmall hR
  refine ⟨b₄, ?_, hok₄, hdisk₄⟩
  unfold fsOpen
  rw [Prog.exec_lock_bind, Prog.exec_get_bind, hentry]
  dsimp only
  rw [hinode, if_neg (inode_ne_mark hin hsmall), Prog.exec_bind_of_eq (exec_fs hseek),
    Prog.exec_bind_of_eq (exec_fs (s := { s with fs := { s.fs with below := b₁ } }) halloc),
    Prog.exec_bind_of_eq (exec_fs (s := { s with fs := { s.fs with below := b₂ } }) hread)]
  dsimp only
  rw [if_neg (by omega), Prog.exec_bind_of_eq
    (exec_fs (s := { s with fs := { s.fs with below := b₃ } }) halloc'), Prog.exec_get_bind,
    Prog.exec_modify_bind]
  dsimp only
  rw [hslot]
  rfl

/-! ## The open file -/

/-- The only element that satisfies `p` is the one that is found. -/
theorem find?_eq_some_of_unique {α : Type} {l : List α} {p : α → Bool} {a : α} (hmem : a ∈ l)
    (ha : p a = true) (huniq : ∀ b ∈ l, p b = true → b = a) : l.find? p = some a := by
  cases hfind : l.find? p with
  | none => exact absurd ha (by simpa using List.find?_eq_none.mp hfind a hmem)
  | some b => rw [huniq b (List.mem_of_find?_eq_some hfind) (List.find?_some hfind)]

/-- An `io_intf` that is in one slot only is found there by either loop. -/
theorem slot_of_unique (mt : Mounted) (io : Nat) (slot : Fin MAX_OPEN_FILE_CT)
    (hslot : (mt.slots slot).io = some io)
    (huniq : ∀ i, (mt.slots i).io = some io → i = slot) :
    firstSlot mt io = some slot ∧ lastSlot mt io = some slot :=
  ⟨find?_eq_some_of_unique (List.mem_finRange slot) (by simpa using hslot)
      fun i _ hi => huniq i (by simpa using hi),
    find?_eq_some_of_unique (List.mem_reverse.mpr (List.mem_finRange slot)) (by simpa using hslot)
      fun i _ hi => huniq i (by simpa using hi)⟩

/-- Mount, open a file by its name, and read from it. -/
def mountOpenRead (be : Backend β) (name buf : Bytes) :
    Prog (KfsState β) KLock KCond (Int × Bytes) := do
  let _ ← fsMount be
  let (result, io) ← fsOpen be name
  match io with
  | none => return (result, buf)
  | some io => readFile be io buf

/-- The table after mounting `superBlock` and opening one file. -/
def oneOpen (superBlock : Bytes) (t : Table) (slot : Fin MAX_OPEN_FILE_CT) (len inode : Nat) :
    Table where
  superBlock := superBlock
  slots := Function.update t.slots slot ⟨some t.nextIo, len, inode⟩
  nextIo := t.nextIo + 1

/-- Up to the read: what `fs_read` is called with after mounting and opening. -/
theorem exec_mountOpenRead (hm : Medium be serve Ok disk pos (fun _ _ => True) W) {s : KfsState β}
    (hok : Ok s.fs.below) (hpos : pos s.fs.below = 0)
    (hsuper : s.table.superBlock.length = FS_BLKSZ) (hslots : ∀ i, (s.table.slots i).io = none)
    {name superBlock fileStruct : Bytes} {e inode : Nat}
    (hboot : slice (disk s.fs.below) 0 FS_BLKSZ = superBlock)
    (hentry : findEntry superBlock name = some e) (hinode : le32 superBlock (dentry e + 32) = inode)
    (hin : inode * FS_BLKSZ + 2 * FS_BLKSZ ≤ (disk s.fs.below).length)
    (hsmall : (disk s.fs.below).length < 2 ^ 31)
    (hstruct : slice (disk s.fs.below) (inode * FS_BLKSZ + FS_BLKSZ) FS_BLKSZ = fileStruct)
    (buf : Bytes) :
    ∃ b slot, (mountOpenRead be name buf).exec (kfsServe serve) s =
        ((fsRead be (oneOpen superBlock s.table slot (byteLen fileStruct) inode).mounted
            s.table.nextIo buf).zoom (fsLens β)).exec (kfsServe serve)
          { fs := { below := b, filePosition := Function.update s.fs.filePosition slot 0 }
            table := oneOpen superBlock s.table slot (byteLen fileStruct) inode } ∧
      Ok b ∧ disk b = disk s.fs.below := by
  obtain ⟨b₁, hmount, hok₁, hdisk₁⟩ := exec_fsMount hm hok hpos hsuper (by omega) trivial
  rw [hboot] at hmount
  obtain ⟨slot, hslot⟩ : ∃ slot, freeSlot s.table = some slot := by
    cases hfind : freeSlot s.table with
    | some slot => exact ⟨slot, rfl⟩
    | none =>
      have := List.find?_eq_none.mp hfind ⟨0, by decide⟩ (List.mem_finRange _)
      simp [hslots] at this
  obtain ⟨b₂, hopen, hok₂, hdisk₂⟩ := exec_fsOpen hm
    (s := { fs := { s.fs with below := b₁ }, table := { s.table with superBlock := superBlock } })
    hok₁ hentry hinode (by simp only [hdisk₁]; exact hin) (by simp only [hdisk₁]; exact hsmall)
    trivial hslot
  simp only [hdisk₁, hstruct] at hopen
  refine ⟨b₂, slot, ?_, hok₂, hdisk₂.trans hdisk₁⟩
  unfold mountOpenRead
  rw [Prog.exec_bind_of_eq hmount, Prog.exec_bind_of_eq hopen]
  dsimp only
  unfold readFile
  rw [Prog.exec_get_bind]
  rfl

/-! ## On the block device -/

/-- The machine after boot: the image is on the opened block device, nothing has been
read yet and no file is open. -/
structure Booted {g : Geometry} {ζ : Type} (s : KfsState (Blk g ζ)) (image : Bytes) : Prop where
  opened : s.fs.below.dev.opened = true
  quiet : s.fs.below.dev.pending = false
  pos : s.fs.below.dev.pos = 0
  disk : s.fs.below.dev.disk.toList = image
  superBlock : s.table.superBlock.length = FS_BLKSZ
  slots : ∀ i, (s.table.slots i).io = none

end Kfs

namespace Mkfs

open Kfs

variable {ζ : Type}

/-! ## Finding a file on the image -/

/-- The directory lists a file at its own index. -/
theorem findEntry_bootBlock {as bs : List HostFile} {f : HostFile}
    (hcount : (as ++ f :: bs).length ≤ DIR_ENTRY_CT)
    (hdistinct : ((as ++ f :: bs).map HostFile.name).Nodup) :
    findEntry (bootBlock (as ++ f :: bs)) f.name = some as.length := by
  have hlen : as.length < DIR_ENTRY_CT := by
    simp only [List.length_append, List.length_cons] at hcount
    omega
  refine find?_eq_some_of_unique (List.mem_range.mpr hlen)
    (by simpa using bootBlock_name hcount) fun i hi hname => ?_
  have hname : cstr ((bootBlock (as ++ f :: bs)).drop (dentry i)) = f.name := by simpa using hname
  by_cases hin : i < (as ++ f :: bs).length
  · -- another entry with this name is an entry of a file with this name
    have hsplit : as ++ f :: bs = (as ++ f :: bs).take i ++ (as ++ f :: bs).get ⟨i, hin⟩ ::
        (as ++ f :: bs).drop (i + 1) := by simp
    have hlen : ((as ++ f :: bs).take i).length = i := List.length_take_of_le hin.le
    have hother := @bootBlock_name ((as ++ f :: bs).take i) ((as ++ f :: bs).drop (i + 1))
      ((as ++ f :: bs).get ⟨i, hin⟩) (by rw [← hsplit]; exact hcount)
    rw [← hsplit, hlen, hname] at hother
    have hi' : i < ((as ++ f :: bs).map HostFile.name).length := by simpa using hin
    have hk' : as.length < ((as ++ f :: bs).map HostFile.name).length := by simp
    refine (List.Nodup.getElem_inj_iff hdistinct : _ ↔ i = as.length).mp (?_ :
      ((as ++ f :: bs).map HostFile.name)[i] = ((as ++ f :: bs).map HostFile.name)[as.length])
    rw [List.getElem_map, List.getElem_map]
    simpa using hother.symm
  · rw [bootBlock_unused (by omega) (List.mem_range.mp hi)] at hname
    have := f.name_pos
    rw [← HostFile.name, ← hname] at this
    simp at this

/-- Where KFS looks for data block `j` of a file. -/
theorem starts_inodeBlock {mt : Mounted} {as bs : List HostFile} {f : HostFile}
    (hcount : (as ++ f :: bs).length ≤ DIR_ENTRY_CT) (hmt : mt.numInodes = (as ++ f :: bs).length)
    (junk : List.Vector UInt8 FS_BLKSZ) {j : Nat} (hj : j < f.numBlocks) :
    starts mt (inodeBlock junk f (numData as)) j =
      FS_BLKSZ * (1 + (as ++ f :: bs).length + (numData as + j)) := by
  have hlt := numData_lt hcount
  simp only [numData, List.map_append, List.map_cons, List.sum_append, List.sum_cons] at hlt
  have hlt : numData as + j < 2 ^ 17 := by unfold numData; omega
  unfold DIR_ENTRY_CT at hcount
  rw [starts, dataBlockNum_inodeBlock junk f hj (by omega), blockStart, hmt]
  unfold FS_BLKSZ
  exact u32_eq (by congr 1; ring) (by omega)

/-- Every file is read back from the block its first data block is numbered as, if the
numbers of the files before it are those of the blocks that are written. -/
theorem holdsFile_image (junk : Nat → List.Vector UInt8 FS_BLKSZ) {mt : Mounted}
    {as bs : List HostFile} {f : HostFile} (hcount : (as ++ f :: bs).length ≤ DIR_ENTRY_CT)
    (hmt : mt.numInodes = (as ++ f :: bs).length)
    (hf : f.content.length = 0 ∨ written as = numData as) :
    HoldsFile (image junk (as ++ f :: bs))
      (starts mt (inodeBlock (junk as.length) f (numData as))) f.content := by
  intro j off len hlen hoff hend
  have hwritten : written as = numData as := hf.resolve_left (by omega)
  obtain ⟨a, himage, ha⟩ := image_data junk hcount
  obtain ⟨pad, hpad, -⟩ := dataBlocks_eq f
  have hj : j < f.numBlocks := by
    unfold HostFile.numBlocks FS_BLKSZ at *
    omega
  have hstart : starts mt (inodeBlock (junk as.length) f (numData as)) j + off =
      a.length + (FS_BLKSZ * j + off) := by
    rw [starts_inodeBlock hcount hmt _ hj, ha, hwritten, Nat.mul_add, Nat.mul_add]
    ring
  rw [hstart, himage, hpad, List.append_assoc]
  refine ⟨?_, ?_⟩
  · simp only [List.length_append]
    omega
  · rw [slice_append_right _ rfl, slice_append_left _ (by omega)]

/-! ## Reading back -/

/-- The block device with the allocator `kmalloc`. -/
abbrev backend (g : Geometry) (kmalloc : (n : Nat) → ζ → List.Vector UInt8 n × ζ) :
    Backend (Blk g ζ) := blkBackend g fun n z => some (kmalloc n z)

/-- On a machine that has booted with the image of the files, mounting, opening the `k`-th
file by its name and reading `buf.length` bytes gives the beginning of the file, and the
number of bytes read. -/
def ReadsBack (kmalloc : (n : Nat) → ζ → List.Vector UInt8 n × ζ) (files : List HostFile) (k : Nat) :
    Prop :=
  ∀ f, files[k]? = some f → ∀ (junk : Nat → List.Vector UInt8 FS_BLKSZ) (g : Geometry)
    (s : KfsState (Blk g ζ)) (buf : Bytes), g.blksz = 512 → Booted s (image junk files) →
    buf.length < 2 ^ 63 →
    ∃ s', (mountOpenRead (backend g kmalloc) f.name buf).exec (kfsServe Vioblk.serve) s =
      some ((((min buf.length f.content.length : Nat) : Int),
        patch buf 0 (f.content.take buf.length)), s')

theorem image_lt (junk : Nat → List.Vector UInt8 FS_BLKSZ) {files : List HostFile}
    (hcount : files.length ≤ DIR_ENTRY_CT) : (image junk files).length < 2 ^ 30 := by
  have hlt := numData_lt hcount
  have hle := written_le files
  unfold DIR_ENTRY_CT at hcount
  rw [length_image junk (by exact hcount)]
  unfold FS_BLKSZ
  omega

/-- The geometry of a device that holds the image. -/
theorem plain_of_booted {junk : Nat → List.Vector UInt8 FS_BLKSZ} {files : List HostFile}
    (hcount : files.length ≤ DIR_ENTRY_CT) {g : Geometry} {s : KfsState (Blk g ζ)}
    (hblksz : g.blksz = 512) (hs : Booted s (image junk files)) :
    g.Plain ∧ g.size = (image junk files).length := by
  have hsize : g.size = (image junk files).length := by
    rw [← hs.disk, List.Vector.toList_length]
  have := image_lt junk hcount
  exact ⟨⟨hblksz, by omega⟩, hsize⟩

/-- The file between `as` and `bs` is open as `io`, at position 0, and the device behind
`fs` holds the image. -/
structure OpenOn {g : Geometry} (junk : Nat → List.Vector UInt8 FS_BLKSZ) (as bs : List HostFile)
    (f : HostFile) (fs : FsState (Blk g ζ)) (mt : Mounted) (io : Nat)
    (slot : Fin MAX_OPEN_FILE_CT) : Prop where
  ok : fs.below.dev.opened = true ∧ fs.below.dev.pending = false
  disk : fs.below.dev.disk.toList = image junk (as ++ f :: bs)
  first : firstSlot mt io = some slot
  last : lastSlot mt io = some slot
  pos : fs.filePosition slot = 0
  inode : (mt.slots slot).inode = as.length
  numInodes : mt.numInodes = (as ++ f :: bs).length

section OpenOn

variable {g : Geometry} {junk : Nat → List.Vector UInt8 FS_BLKSZ} {as bs : List HostFile}
  {f : HostFile} {fs : FsState (Blk g ζ)} {mt : Mounted} {io : Nat} {slot : Fin MAX_OPEN_FILE_CT}
  (kmalloc : (n : Nat) → ζ → List.Vector UInt8 n × ζ)

/-- The inode lies inside the image. -/
theorem inode_in_image (hcount : (as ++ f :: bs).length ≤ DIR_ENTRY_CT) :
    as.length * FS_BLKSZ + 2 * FS_BLKSZ ≤ (image junk (as ++ f :: bs)).length := by
  have hn : as.length < (as ++ f :: bs).length := by simp
  rw [length_image junk hcount]
  unfold FS_BLKSZ
  omega

theorem OpenOn.in_disk (h : OpenOn junk as bs f fs mt io slot)
    (hcount : (as ++ f :: bs).length ≤ DIR_ENTRY_CT) :
    (mt.slots slot).inode * FS_BLKSZ + 2 * FS_BLKSZ ≤ fs.below.dev.disk.toList.length := by
  rw [h.inode, h.disk]
  exact inode_in_image hcount

theorem OpenOn.disk_lt (h : OpenOn junk as bs f fs mt io slot)
    (hcount : (as ++ f :: bs).length ≤ DIR_ENTRY_CT) :
    fs.below.dev.disk.toList.length < 2 ^ 31 := by
  have := image_lt junk hcount
  rw [h.disk]
  omega

theorem OpenOn.struct (h : OpenOn junk as bs f fs mt io slot)
    (hcount : (as ++ f :: bs).length ≤ DIR_ENTRY_CT) :
    slice fs.below.dev.disk.toList ((mt.slots slot).inode * FS_BLKSZ + FS_BLKSZ) FS_BLKSZ =
      inodeBlock (junk as.length) f (numData as) := by
  rw [h.disk, h.inode, image_inode junk hcount]

/-- What is read from the beginning of the file. -/
theorem OpenOn.transfer (h : OpenOn junk as bs f fs mt io slot)
    (hcount : (as ++ f :: bs).length ≤ DIR_ENTRY_CT) {n : Nat} (hn : n < 2 ^ 63) :
    Transfer (fun _ _ => True) mt fs.below.dev.disk.toList fs.filePosition io slot 0
      f.content.length (inodeBlock (junk as.length) f (numData as)) n
      (min n (f.content.length - 0)) where
  last := h.last
  first := h.first
  filePosition := h.pos
  le := Nat.zero_le _
  max := f.content_lt
  inDisk := h.in_disk hcount
  small := h.disk_lt hcount
  readable := trivial
  inode := h.struct hcount
  byteLen := byteLen_inodeBlock _ _ _
  sum := by omega
  count := rfl

/-- After mounting and opening a file, `fs_read` runs on it. -/
theorem exec_open_image (hcount : (as ++ f :: bs).length ≤ DIR_ENTRY_CT)
    (hdistinct : ((as ++ f :: bs).map HostFile.name).Nodup) {s : KfsState (Blk g ζ)} (hg : g.Plain)
    (hs : Booted s (image junk (as ++ f :: bs))) (buf : Bytes) :
    ∃ fs t mt slot,
      (mountOpenRead (backend g kmalloc) f.name buf).exec (kfsServe Vioblk.serve) s =
        ((fsRead (backend g kmalloc) mt s.table.nextIo buf).zoom (fsLens _)).exec
          (kfsServe Vioblk.serve) { fs := fs, table := t } ∧
      OpenOn junk as bs f fs mt s.table.nextIo slot := by
  obtain ⟨b, slot, hexec, hok, hdisk⟩ := exec_mountOpenRead (medium_blk hg kmalloc)
    ⟨hs.opened, hs.quiet⟩ hs.pos hs.superBlock hs.slots
    (by rw [hs.disk, image_boot junk hcount]) (findEntry_bootBlock hcount hdistinct)
    (bootBlock_inode hcount) (by rw [hs.disk]; exact inode_in_image hcount)
    (by
      have := image_lt junk hcount
      rw [hs.disk]
      omega)
    rfl buf
  have hslot := slot_of_unique (oneOpen (bootBlock (as ++ f :: bs)) s.table slot
    (byteLen (slice s.fs.below.dev.disk.toList (as.length * FS_BLKSZ + FS_BLKSZ) FS_BLKSZ))
    as.length).mounted s.table.nextIo slot
    (by simp [oneOpen, Table.mounted])
    (by
      intro i hi
      by_contra hne
      simp [oneOpen, Table.mounted, Function.update_of_ne hne, hs.slots] at hi)
  exact ⟨_, _, _, slot, hexec, hok, hdisk.trans hs.disk, hslot.1, hslot.2,
    by simp, by simp [oneOpen, Table.mounted], bootBlock_numInodes hcount⟩

/-- The file is read back if it is empty or the blocks of the files before it are where
the inodes say. -/
theorem readsBack_of_written (hcount : (as ++ f :: bs).length ≤ DIR_ENTRY_CT)
    (hdistinct : ((as ++ f :: bs).map HostFile.name).Nodup)
    (hf : f.content.length = 0 ∨ written as = numData as) :
    ReadsBack kmalloc (as ++ f :: bs) as.length := by
  intro f' hf' junk g s buf hblksz hs hbuf
  obtain rfl : f = f' := by simpa using hf'
  obtain ⟨hg, hsize⟩ := plain_of_booted hcount hblksz hs
  obtain ⟨fs, t, mt, slot, hexec, hopen⟩ := exec_open_image kmalloc hcount hdistinct hg hs buf
  obtain ⟨b, hread, -⟩ := exec_fsRead (medium_blk hg kmalloc).metered (z := ()) hopen.ok
    (hopen.transfer hcount hbuf)
    (by rw [hopen.disk]; exact holdsFile_image junk hcount hopen.numInodes hf) covers_true
    (le_refl _) (by omega)
  have htake : slice f.content 0 (min buf.length (f.content.length - 0)) =
      f.content.take buf.length := by
    rw [slice, List.drop_zero, Nat.sub_zero, ← List.take_eq_take_min]
  rw [htake, Nat.sub_zero] at hread
  exact ⟨_, hexec.trans (exec_fs (s := ⟨fs, t⟩) hread)⟩

end OpenOn

/-! ## Reading something else

When a block number was skipped, a file whose first byte is 1 among zeros is not found:
the block that is read in its place begins with 0, or is outside the image. -/

/-- The first byte of a file is 1 and its other bytes are 0. -/
def Marked (content : Bytes) : Prop :=
  content[0]? = some 1 ∧ ∀ i x, 0 < i → content[i]? = some x → x = 0

/-- The blocks behind the first one begin with 0. -/
theorem image_byte_behind (junk : Nat → List.Vector UInt8 FS_BLKSZ) {as bs : List HostFile}
    {f : HostFile} (hcount : (as ++ f :: bs).length ≤ DIR_ENTRY_CT) (hf : Marked f.content)
    (hbs : ∀ f' ∈ bs, ∀ x ∈ f'.content, x = 0) {z : Nat} (hz : written as < z) {x : UInt8}
    (hx : (image junk (as ++ f :: bs))[FS_BLKSZ * (1 + (as ++ f :: bs).length + z)]? = some x) :
    x = 0 := by
  obtain ⟨a, himage, ha⟩ := image_data junk hcount
  have hat : FS_BLKSZ * (1 + (as ++ f :: bs).length + z) = a.length + FS_BLKSZ * (z - written as) := by
    rw [ha, ← Nat.mul_add]
    congr 1
    omega
  rw [himage, hat, List.getElem?_append_right (by omega), Nat.add_sub_cancel_left] at hx
  by_cases hin : z - written as < f.writtenBlocks
  · -- the file itself, further behind
    obtain ⟨pad, hpad, -⟩ := dataBlocks_eq f
    have hlt : FS_BLKSZ * (z - written as) < f.content.length := by
      unfold HostFile.writtenBlocks FS_BLKSZ at *
      omega
    rw [hpad, List.append_assoc, List.getElem?_append_left hlt] at hx
    exact hf.2 _ x (by unfold FS_BLKSZ; omega) hx
  · -- a later file
    have hle : FS_BLKSZ * f.writtenBlocks ≤ FS_BLKSZ * (z - written as) :=
      Nat.mul_le_mul_left _ (by omega)
    rw [List.getElem?_append_right (by rw [length_dataBlocks]; exact hle)] at hx
    obtain ⟨f', hf', hmem⟩ := List.mem_flatMap.mp (List.mem_of_getElem? hx)
    exact dataBlocks_zero (hbs f' hf') x hmem

/-- One byte read at the end of the device or behind it leaves the buffer as it was, if it
returns at all. -/
theorem exec_readPart_end {g : Geometry} (hg : g.Plain)
    (kmalloc : (n : Nat) → ζ → List.Vector UInt8 n × ζ) {s : FsState (Blk g ζ)}
    (hok : s.below.dev.opened = true ∧ s.below.dev.pending = false)
    (hpos : g.size ≤ s.below.dev.pos) (hpos' : s.below.dev.pos + 512 < 2 ^ 31) :
    (readPart (backend g kmalloc) [0] 0 1).exec (fsServe Vioblk.serve) s = none ∨
      ∃ b, (readPart (backend g kmalloc) [0] 0 1).exec (fsServe Vioblk.serve) s =
        some ([0], { s with below := b }) := by
  unfold readPart
  rw [Prog.exec_assert_bind (by decide)]
  have hslice : slice ([0] : Bytes) 0 1 = [0] := rfl
  simp only [hslice, IoIntf.ioreadFull, List.length_singleton, IoIntf.readFrom]
  rcases Nat.eq_or_lt_of_le hpos with heq | hlt
  · obtain ⟨b, hread, -⟩ := Vioblk.exec_vioblkRead hg (s := s.below) [0] (k := 0)
      (by rw [heq]; simp) hok.1 hok.2 (by omega)
    have hread' : ((backend g kmalloc).io.read [0]).exec (fsServe Vioblk.serve) s =
        some ((0, [0]), { s with below := b }) := exec_below hread
    refine Or.inr ⟨b, ?_⟩
    rw [if_pos (by decide), Prog.exec_bind, List.drop_zero, Prog.exec_bind_of_eq hread']
    rfl
  · have hread : ((backend g kmalloc).io.read [0]).exec (fsServe Vioblk.serve) s = none := by
      show (Prog.zoom (belowLens _) (Vioblk.vioblkRead [0])).exec _ _ = none
      rw [Prog.exec_zoom]
      show (Prog.exec Vioblk.serve (Vioblk.vioblkRead [0]) s.below).map _ = none
      rw [Vioblk.exec_vioblkRead_beyond hg hok.1 (by decide) (by decide) hlt hpos']
      rfl
    refine Or.inl ?_
    rw [if_pos (by decide), Prog.exec_bind, List.drop_zero, Prog.exec_bind, hread]
    rfl

section Misread

variable {g : Geometry} {junk : Nat → List.Vector UInt8 FS_BLKSZ} {as bs : List HostFile}
  {f : HostFile} {fs : FsState (Blk g ζ)} {mt : Mounted} {io : Nat} {slot : Fin MAX_OPEN_FILE_CT}
  (kmalloc : (n : Nat) → ζ → List.Vector UInt8 n × ζ)

theorem Marked.pos {content : Bytes} (h : Marked content) : 0 < content.length := by
  have h0 := h.1
  cases content with
  | nil => simp at h0
  | cons x xs => exact Nat.succ_pos _

theorem Marked.one_eq {content : Bytes} (h : Marked content) :
    1 = min ([0] : Bytes).length (content.length - 0) := by
  have := h.pos
  simp only [List.length_singleton]
  omega

/-- The byte that is read instead, inside the image. -/
theorem exec_misread_inside (h : OpenOn junk as bs f fs mt io slot) (hg : g.Plain)
    (hcount : (as ++ f :: bs).length ≤ DIR_ENTRY_CT) (hf : Marked f.content)
    (hx : (image junk (as ++ f :: bs))[FS_BLKSZ * (1 + (as ++ f :: bs).length + numData as)]? =
      some 0) :
    ∃ fs', (fsRead (backend g kmalloc) mt io [0]).exec (fsServe Vioblk.serve) fs =
      some ((1, [0]), fs') := by
  have hin := (List.getElem?_eq_some_iff.mp hx).1
  have hstart : starts mt (inodeBlock (junk as.length) f (numData as)) 0 =
      FS_BLKSZ * (1 + (as ++ f :: bs).length + numData as) :=
    starts_inodeBlock hcount h.numInodes _ (Nat.succ_pos _)
  have hholds : HoldsFile fs.below.dev.disk.toList
      (starts mt (inodeBlock (junk as.length) f (numData as))) [0] := by
    intro i off len hlen hoff hle
    obtain ⟨rfl, rfl, rfl⟩ : i = 0 ∧ off = 0 ∧ len = 1 := by
      simp only [List.length_singleton] at hle
      unfold FS_BLKSZ at hle
      omega
    rw [h.disk, hstart]
    refine ⟨by omega, List.ext_getElem? fun j => ?_⟩
    rw [getElem?_slice, getElem?_slice]
    by_cases hj : j < 1
    · obtain rfl : j = 0 := by omega
      simpa using hx
    · rw [if_neg hj, if_neg hj]
  have ht := h.transfer hcount (n := ([0] : Bytes).length) (by decide)
  rw [← hf.one_eq] at ht
  obtain ⟨b, hread, -⟩ := exec_fsRead (medium_blk hg kmalloc).metered (z := ()) h.ok ht
    hholds covers_true
    (by rw [List.length_singleton]; exact hf.pos) (by simp)
  exact ⟨_, hread⟩

/-- What is read instead, at the end of the image or behind it. -/
theorem exec_misread_outside (h : OpenOn junk as bs f fs mt io slot) (hg : g.Plain)
    (hcount : (as ++ f :: bs).length ≤ DIR_ENTRY_CT) (hf : Marked f.content)
    (hend : g.size ≤ FS_BLKSZ * (1 + (as ++ f :: bs).length + numData as))
    {q : (Int × Bytes) × FsState (Blk g ζ)}
    (hq : (fsRead (backend g kmalloc) mt io [0]).exec (fsServe Vioblk.serve) fs = some q) :
    q.1.2 = [0] := by
  have hstart : starts mt (inodeBlock (junk as.length) f (numData as)) 0 =
      FS_BLKSZ * (1 + (as ++ f :: bs).length + numData as) :=
    starts_inodeBlock hcount h.numInodes _ (Nat.succ_pos _)
  have ht := h.transfer hcount (n := ([0] : Bytes).length) (by decide)
  rw [← hf.one_eq] at ht
  obtain ⟨b, hread, hok, -, hpos⟩ := exec_fsRead_seek
    (medium_blk hg kmalloc).metered (z := ()) h.ok ht
  have hlt : FS_BLKSZ * (1 + (as ++ f :: bs).length + numData as) + 512 < 2 ^ 31 := by
    have h₁ := numData_lt hcount
    have h₂ : numData as ≤ numData (as ++ f :: bs) := by
      simp only [numData, List.map_append, List.sum_append]
      omega
    unfold DIR_ENTRY_CT at hcount
    unfold FS_BLKSZ
    omega
  have hposb : b.dev.pos = FS_BLKSZ * (1 + (as ++ f :: bs).length + numData as) := by
    rw [Nat.zero_div, Nat.zero_mod, hstart] at hpos
    exact hpos (by omega)
  -- the loop reads the one byte and ends
  have hplan : plan 0 1 = ⟨0, 0, 1⟩ := by
    have hcomp : compensation 0 = 0 := by decide
    rw [plan, hcomp, u64_eq (n := 1) (by simp) (by decide)]
    rfl
  have hloop : readBlocks (backend g kmalloc) mt (inodeBlock (junk as.length) f (numData as))
      (DATA_BLOCK_NUM - 0 / FS_BLKSZ) (0 / FS_BLKSZ) (plan 0 1) 0 [0] =
      readPart (backend g kmalloc) [0] 0 1 := by
    rw [hplan]
    rfl
  rw [hread, hloop] at hq
  rcases exec_readPart_end hg kmalloc (s := { fs with below := b }) hok (by simp only; omega)
    (by simp only; omega) with hnone | ⟨b', hsome⟩
  · rw [Prog.exec_bind, hnone] at hq
    cases hq
  · rw [Prog.exec_bind_of_eq hsome, Prog.exec_unlock_bind,
      Prog.exec_bind_of_eq (exec_fsIoctl_setpos h.last)] at hq
    cases hq
    rfl

/-- One byte of a marked file whose first block number is too high is not 1. -/
theorem exec_misread (hcount : (as ++ f :: bs).length ≤ DIR_ENTRY_CT)
    (hdistinct : ((as ++ f :: bs).map HostFile.name).Nodup) {s s' : KfsState (Blk g ζ)}
    (hblksz : g.blksz = 512) (hs : Booted s (image junk (as ++ f :: bs))) (hf : Marked f.content)
    (hbs : ∀ f' ∈ bs, ∀ x ∈ f'.content, x = 0) (hskip : written as < numData as) {r : Int × Bytes}
    (hr : (mountOpenRead (backend g kmalloc) f.name [0]).exec (kfsServe Vioblk.serve) s =
      some (r, s')) : r.2 = [0] := by
  obtain ⟨hg, hsize⟩ := plain_of_booted hcount hblksz hs
  obtain ⟨fs, t, mt, slot, hexec, hopen⟩ := exec_open_image kmalloc hcount hdistinct hg hs [0]
  rw [hexec, Prog.exec_zoom] at hr
  obtain ⟨q, hq, hqr⟩ := Option.map_eq_some_iff.mp hr
  obtain rfl : q.1 = r := congrArg Prod.fst hqr
  by_cases hend : FS_BLKSZ * (1 + (as ++ f :: bs).length + numData as) <
      (image junk (as ++ f :: bs)).length
  · obtain ⟨x, hx⟩ : ∃ x, (image junk (as ++ f :: bs))[FS_BLKSZ *
        (1 + (as ++ f :: bs).length + numData as)]? = some x :=
      ⟨_, List.getElem?_eq_getElem hend⟩
    have hx0 := image_byte_behind junk hcount hf hbs hskip hx
    subst hx0
    obtain ⟨fs', hread⟩ := exec_misread_inside kmalloc hopen hg hcount hf hx
    have hq' := hread.symm.trans hq
    cases hq'
    rfl
  · exact exec_misread_outside kmalloc hopen hg hcount hf (by omega) hq

end Misread

/-! ## The file lengths decide -/

/-- The same names and lengths, with other bytes. -/
def SameShape (hf hf' : HostFiles) : Prop :=
  hf'.files.map (fun f => (f.path, f.content.length)) =
    hf.files.map fun f => (f.path, f.content.length)

theorem SameShape.lengths {hf hf' : HostFiles} (h : SameShape hf hf') :
    ∃ hlen : hf.files.length = hf'.files.length, ∀ k : Fin hf.files.length,
      (hf'.files.get (k.cast hlen)).content.length = (hf.files.get k).content.length := by
  have hlen : hf.files.length = hf'.files.length := by simpa using (congrArg List.length h).symm
  refine ⟨hlen, fun k => ?_⟩
  have hk' : k.val < hf'.files.length := by omega
  have hk := congrArg (fun l => l[k.val]?) h
  simp only [List.getElem?_map, List.getElem?_eq_getElem k.isLt, List.getElem?_eq_getElem hk',
    Option.map_some, Option.some.injEq, Prod.mk.injEq] at hk
  exact hk.2

/-- A device of the size of the image. -/
def imageGeometry (junk : Nat → List.Vector UInt8 FS_BLKSZ) (hf : HostFiles) : Geometry where
  blksz := 512
  size := (image junk hf.files).length
  blksz_pos := sector_pos
  size_sectors := by
    rw [length_image junk hf.count]
    exact Dvd.dvd.mul_right (by decide) _
  size_lt := by
    have := image_lt junk hf.count
    omega

/-- The machine that has booted with the image. -/
def bootState (junk : Nat → List.Vector UInt8 FS_BLKSZ) (hf : HostFiles) (heap : ζ) :
    KfsState (Blk (imageGeometry junk hf) ζ) where
  fs :=
    { below :=
        { dev :=
            { opened := true, pos := 0, reqType := .tIn, reqSector := 0, descWrite := true
              blkbuf := List.Vector.replicate _ 0, pending := false
              disk := ⟨image junk hf.files, rfl⟩ }
          heap := heap }
      filePosition := fun _ => 0 }
  table :=
    { superBlock := List.replicate FS_BLKSZ 0, slots := fun _ => ⟨none, 0, 0⟩, nextIo := 0 }

theorem booted_bootState (junk : Nat → List.Vector UInt8 FS_BLKSZ) (hf : HostFiles) (heap : ζ) :
    Booted (bootState junk hf heap) (image junk hf.files) :=
  ⟨rfl, rfl, rfl, rfl, List.length_replicate .., fun _ => rfl⟩

/-- A file with other bytes. -/
def HostFile.withContent (f : HostFile) (content : Bytes)
    (h : content.length = f.content.length) : HostFile :=
  { f with content := content, blocks_le := by rw [h]; exact f.blocks_le }

def HostFile.blank (f : HostFile) : HostFile :=
  f.withContent (List.replicate f.content.length 0) (List.length_replicate ..)

def HostFile.mark (f : HostFile) : HostFile :=
  f.withContent ((List.replicate f.content.length 0).set 0 1) (by simp)

theorem marked_mark {f : HostFile} (h : f.content.length ≠ 0) : Marked f.mark.content := by
  refine ⟨?_, fun i x hi hx => ?_⟩
  · simp only [HostFile.mark, HostFile.withContent, List.getElem?_set_self', List.getElem?_replicate]
    rw [if_pos (by omega)]
    rfl
  · simp only [HostFile.mark, HostFile.withContent] at hx
    rw [List.getElem?_set_ne (by omega)] at hx
    exact List.eq_of_mem_replicate (List.mem_of_getElem? hx)

/-- Blank files before and behind a marked one. -/
def markedFiles (as bs : List HostFile) (f : HostFile) : List HostFile :=
  as.map HostFile.blank ++ f.mark :: bs.map HostFile.blank

theorem markedFiles_length (as bs : List HostFile) (f : HostFile) :
    (markedFiles as bs f).length = (as ++ f :: bs).length := by simp [markedFiles]

theorem markedFiles_names (as bs : List HostFile) (f : HostFile) :
    (markedFiles as bs f).map HostFile.name = (as ++ f :: bs).map HostFile.name := by
  simp only [markedFiles, List.map_append, List.map_cons, List.map_map]
  rfl

theorem markedFiles_shape (as bs : List HostFile) (f : HostFile) :
    (markedFiles as bs f).map (fun f => (f.path, f.content.length)) =
      (as ++ f :: bs).map fun f => (f.path, f.content.length) := by
  have hblank : ((fun f : HostFile => (f.path, f.content.length)) ∘ HostFile.blank) =
      fun f => (f.path, f.content.length) := by
    funext f
    simp [HostFile.blank, HostFile.withContent]
  simp only [markedFiles, List.map_append, List.map_cons, List.map_map, hblank]
  simp [HostFile.mark, HostFile.withContent]

/-- The lengths alone determine how many blocks are numbered and written. -/
theorem counts_map_blank (files : List HostFile) :
    numData (files.map HostFile.blank) = numData files ∧
      written (files.map HostFile.blank) = written files := by
  have hnum : HostFile.numBlocks ∘ HostFile.blank = HostFile.numBlocks := by
    funext f
    simp [HostFile.numBlocks, HostFile.blank, HostFile.withContent]
  have hwritten : HostFile.writtenBlocks ∘ HostFile.blank = HostFile.writtenBlocks := by
    funext f
    simp [HostFile.writtenBlocks, HostFile.blank, HostFile.withContent]
  simp only [numData, written, List.map_map, hnum, hwritten, and_self]

/-- A file list with a skipped block number before a nonempty file is not read back
whatever it contains. -/
theorem not_readsBack_marked (kmalloc : (n : Nat) → ζ → List.Vector UInt8 n × ζ) (heap : ζ)
    {as bs : List HostFile} {f : HostFile} (hcount : (as ++ f :: bs).length ≤ DIR_ENTRY_CT)
    (hdistinct : ((as ++ f :: bs).map HostFile.name).Nodup) (hf : f.content.length ≠ 0)
    (hskip : written as ≠ numData as) : ¬ReadsBack kmalloc (markedFiles as bs f) as.length := by
  intro hback
  have hlt : written (as.map HostFile.blank) < numData (as.map HostFile.blank) := by
    have := written_le as
    rw [(counts_map_blank as).1, (counts_map_blank as).2]
    omega
  let hf' : HostFiles :=
    { files := markedFiles as bs f
      count := by rw [markedFiles_length]; exact hcount
      distinct := by rw [markedFiles_names]; exact hdistinct }
  obtain ⟨s', hread⟩ := hback f.mark (by simp [markedFiles])
    (fun _ => List.Vector.replicate _ 0) (imageGeometry _ hf') (bootState _ hf' heap) [0] rfl
    (booted_bootState _ hf' heap) (by decide)
  have hbytes := exec_misread kmalloc hf'.count hf'.distinct rfl (booted_bootState _ hf' heap)
    (marked_mark hf)
    (by
      intro f'' hf'' x hx
      obtain ⟨f₀, -, rfl⟩ := List.mem_map.mp hf''
      exact List.eq_of_mem_replicate hx)
    hlt hread
  -- the byte that should have been read is 1
  obtain ⟨n, hn⟩ := Nat.exists_eq_succ_of_ne_zero hf
  simp [HostFile.mark, HostFile.withContent, hn, List.replicate_succ, patch] at hbytes

/-- **When `mkfs` and KFS agree.** The `k`-th file is read back from the image, whatever
bytes the files have, if and only if it is empty or no file before it has a length that
is a multiple of the block size. -/
theorem mkfs_image_reads_back_iff (kmalloc : (n : Nat) → ζ → List.Vector UInt8 n × ζ) (heap : ζ)
    (hf : HostFiles) (k : Fin hf.files.length) :
    (∀ hf', SameShape hf hf' → ReadsBack kmalloc hf'.files k) ↔
      (hf.files.get k).content.length = 0 ∨
        ∀ i < k, (hf.files.get i).content.length % FS_BLKSZ ≠ 0 := by
  have hsplit : ∀ hf : HostFiles, ∀ k : Fin hf.files.length,
      hf.files.take k ++ hf.files.get k :: hf.files.drop (k + 1) = hf.files := by
    intro hf k
    simp
  have htake : ∀ hf : HostFiles, ∀ k : Fin hf.files.length, (hf.files.take k).length = k :=
    fun hf k => List.length_take_of_le k.isLt.le
  constructor
  · intro hall
    by_contra hcond
    rw [not_or] at hcond
    obtain ⟨hne, hmul⟩ := hcond
    have hskip : written (hf.files.take k) ≠ numData (hf.files.take k) := by
      rw [Ne, written_eq_iff]
      intro hno
      refine hmul fun i hi => hno _ (List.mem_take_iff_getElem.mpr ⟨i, ?_, ?_⟩)
      · exact lt_min hi i.isLt
      · simp
    have hcount := hf.count
    have hdistinct := hf.distinct
    rw [← hsplit hf k] at hcount hdistinct
    refine not_readsBack_marked kmalloc heap hcount hdistinct hne hskip ?_
    rw [htake]
    let hf' : HostFiles :=
      { files := markedFiles (hf.files.take k) (hf.files.drop (k + 1)) (hf.files.get k)
        count := by rw [markedFiles_length]; exact hcount
        distinct := by rw [markedFiles_names]; exact hdistinct }
    refine hall hf' ?_
    rw [SameShape, markedFiles_shape, hsplit]
  · intro hcond hf' hshape
    obtain ⟨hlen, hget⟩ := hshape.lengths
    have hk := hsplit hf' (k.cast hlen)
    have hcount := hf'.count
    have hdistinct := hf'.distinct
    rw [← hk] at hcount hdistinct ⊢
    have hback := readsBack_of_written kmalloc hcount hdistinct ?_
    · rw [htake] at hback
      exact hback
    · rw [written_eq_iff]
      refine hcond.imp (fun h => (hget k).trans h) fun h f hmem => ?_
      obtain ⟨i, hi, rfl⟩ := List.mem_take_iff_getElem.mp hmem
      have hik : i < hf.files.length := by omega
      have := h ⟨i, hik⟩ (lt_min_iff.mp hi).1
      rw [← hget ⟨i, hik⟩] at this
      simpa using this

/-! Two files, `a` of length 0 and `b` with the one byte 1. The block numbered for `a` is
never written, and `b` is looked for behind the end of the image. -/

def fileA : HostFile where
  path := ascii "a"
  content := []
  path_cstr := by decide
  name_pos := by decide
  name_len := by decide
  name_slash := by decide
  blocks_le := by decide

def fileB : HostFile where
  path := ascii "b"
  content := [1]
  path_cstr := by decide
  name_pos := by decide
  name_len := by decide
  name_slash := by decide
  blocks_le := by decide

def filesAB : HostFiles where
  files := [fileA, fileB]
  count := by decide
  distinct := by decide

/-- Reading `b` does not give its byte. -/
theorem empty_file_hides_the_next :
    ((mountOpenRead (backend (imageGeometry (fun _ => List.Vector.replicate _ 0) filesAB)
        zeroPages) (ascii "b") [0]).exec (kfsServe Vioblk.serve) (bootState _ filesAB ())).map
      Prod.fst ≠ some (1, [1]) := by
  intro hmap
  obtain ⟨⟨r, s'⟩, hread, hr⟩ := Option.map_eq_some_iff.mp hmap
  have hmarked : Marked fileB.content := by
    refine ⟨rfl, fun i x hi hx => ?_⟩
    have := (List.getElem?_eq_some_iff.mp hx).1
    simp only [fileB, List.length_singleton] at this
    omega
  have hbehind : ∀ f' ∈ ([] : List HostFile), ∀ x ∈ f'.content, x = 0 := by simp
  have hskip : written [fileA] < numData [fileA] := by decide
  have hcount : ([fileA] ++ fileB :: []).length ≤ DIR_ENTRY_CT := filesAB.count
  have hbytes := exec_misread zeroPages hcount filesAB.distinct rfl
    (booted_bootState _ filesAB ()) hmarked hbehind hskip hread
  obtain rfl : r = (1, [1]) := hr
  exact absurd hbytes (by decide)

end Mkfs

end RiscvKernel
