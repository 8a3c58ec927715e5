import RiscvKernel.Fs.Kfs

/-!
# The image that `mkfs` writes

`mkfs.c`: a boot block with the directory, one inode block per file, and the data.

* The inodes are numbered in one pass over the files: a file of `n` bytes gets
  `n / 4096 + 1` consecutive data block numbers.
* The data is written in another pass: one block for each `read` that returns something,
  that is `n / 4096` rounded up. The two counts differ when `n` is a multiple of 4096.
* `inode_array` is not initialised, so the rest of each inode is whatever was there
  (`junk`); and the last block of a file is padded with what the previous `read` left.

`image_inode` and `image_data` say where the parts of a file are on the image.
-/

namespace RiscvKernel

open Lib Kfs

namespace Mkfs

/-! ## Host files -/

/-- `FS_NAMELEN` -/
def FS_NAMELEN : Nat := 32

def ascii (s : String) : Bytes := s.toList.map fun c => c.toNat.toUInt8

/-- The name under which a file is stored: its path without `../user/bin/` or
`user/bin/`. -/
def shortname (path : Bytes) : Bytes :=
  if (ascii "../user/bin/").isPrefixOf path then path.drop 12
  else if (ascii "user/bin/").isPrefixOf path then path.drop 9
  else path

/-- A file on the command line. Its short name has no `/`, which `mkfs` asserts. -/
structure HostFile where
  path : Bytes
  content : Bytes
  path_cstr : 0 ∉ path
  name_pos : 0 < (shortname path).length
  name_len : (shortname path).length < FS_NAMELEN
  name_slash : 47 ∉ shortname path
  blocks_le : content.length / FS_BLKSZ + 1 ≤ DATA_BLOCK_NUM

abbrev HostFile.name (f : HostFile) : Bytes := shortname f.path

theorem HostFile.name_lt (f : HostFile) : f.name.length < FS_NAMELEN := f.name_len

/-- `num_data_blocks_for_file`: how many data blocks the inode pass numbers. -/
def HostFile.numBlocks (f : HostFile) : Nat := f.content.length / FS_BLKSZ + 1

/-- The files on the command line. -/
structure HostFiles where
  files : List HostFile
  count : files.length ≤ DIR_ENTRY_CT
  distinct : (files.map HostFile.name).Nodup

/-! ## The image -/

/-- A `uint32_t` in memory. -/
def le32Bytes (n : Nat) : Bytes :=
  [UInt8.ofNat n, UInt8.ofNat (n / 2 ^ 8), UInt8.ofNat (n / 2 ^ 16), UInt8.ofNat (n / 2 ^ 24)]

/-- `strncpy` into a field of `n` bytes. -/
def strncpy (s : Bytes) (n : Nat) : Bytes := s.take n ++ List.replicate (n - s.length) 0

/-- `dir_entries[i]` -/
def dirEntry (i : Nat) (name : Bytes) : Bytes :=
  strncpy name FS_NAMELEN ++ le32Bytes i ++ List.replicate 28 0

/-- The directory entries from index `i` on. -/
def dirEntries : Nat → List Bytes → Bytes
  | _, [] => []
  | i, name :: names => dirEntry i name ++ dirEntries (i + 1) names

/-- `data_block_num[0..n)`: consecutive numbers from `dataBlockIdx` on. -/
def blockNumbers : Nat → Nat → Bytes
  | 0, _ => []
  | n + 1, dataBlockIdx => le32Bytes dataBlockIdx ++ blockNumbers n (dataBlockIdx + 1)

/-- `inode_array[i]`: the length and the block numbers from `dataBlockIdx` on, over what
was in the memory before. -/
def inodeBlock (junk : List.Vector UInt8 FS_BLKSZ) (f : HostFile) (dataBlockIdx : Nat) : Bytes :=
  patch junk.toList 0 (le32Bytes f.content.length ++ blockNumbers f.numBlocks dataBlockIdx)

/-- The inodes from index `inodeIdx` on. -/
def inodeArray (junk : Nat → List.Vector UInt8 FS_BLKSZ) : Nat → Nat → List HostFile → Bytes
  | _, _, [] => []
  | inodeIdx, dataBlockIdx, f :: fs =>
    inodeBlock (junk inodeIdx) f dataBlockIdx ++
      inodeArray junk (inodeIdx + 1) (dataBlockIdx + f.numBlocks) fs

/-- The number of data blocks that the inodes of the files number. -/
def numData (files : List HostFile) : Nat := (files.map HostFile.numBlocks).sum

/-- `boot_block` -/
def bootBlock (files : List HostFile) : Bytes :=
  le32Bytes files.length ++ le32Bytes files.length ++ le32Bytes (numData files) ++
    List.replicate 52 0 ++ dirEntries 0 (files.map HostFile.name) ++
      List.replicate (64 * (DIR_ENTRY_CT - files.length)) 0

/-- The copy loop: each `read` of up to a block overwrites the beginning of `buf`, and the
whole of `buf` is written. A round that does not end the loop reads at least one byte, so
`content.length` rounds are enough. -/
def copyLoop : Nat → Bytes → Bytes → Bytes
  | 0, _, _ => []
  | rounds + 1, buf, content =>
    if content.length = 0 then [] else
      let buf := patch buf 0 (content.take FS_BLKSZ)
      buf ++ copyLoop rounds buf (content.drop FS_BLKSZ)

/-- The data blocks of one file. -/
def dataBlocks (f : HostFile) : Bytes :=
  copyLoop f.content.length (List.replicate FS_BLKSZ 0) f.content

/-- The image that `mkfs` writes. -/
def image (junk : Nat → List.Vector UInt8 FS_BLKSZ) (files : List HostFile) : Bytes :=
  bootBlock files ++ inodeArray junk 0 0 files ++ files.flatMap dataBlocks

/-! ## Numbers in memory -/

@[simp] theorem length_le32Bytes (n : Nat) : (le32Bytes n).length = 4 := rfl

theorem le32_append_left {a : Bytes} (b : Bytes) {off : Nat} (h : off + 4 ≤ a.length) :
    le32 (a ++ b) off = le32 a off := by
  unfold le32
  rw [List.getD_append _ _ _ _ (by omega), List.getD_append _ _ _ _ (by omega),
    List.getD_append _ _ _ _ (by omega), List.getD_append _ _ _ _ (by omega)]

theorem le32_append_right {a : Bytes} (b : Bytes) {off q : Nat} (h : off = a.length + q) :
    le32 (a ++ b) off = le32 b q := by
  subst h
  unfold le32
  rw [List.getD_append_right _ _ _ _ (by omega), List.getD_append_right _ _ _ _ (by omega),
    List.getD_append_right _ _ _ _ (by omega), List.getD_append_right _ _ _ _ (by omega)]
  simp only [Nat.add_assoc, Nat.add_sub_cancel_left]

theorem le32_le32Bytes {n : Nat} (h : n < 2 ^ 32) : le32 (le32Bytes n) 0 = n := by
  simp only [le32, le32Bytes, List.getD_cons_zero, List.getD_cons_succ, UInt8.toNat_ofNat']
  omega

@[simp] theorem length_blockNumbers (n idx : Nat) : (blockNumbers n idx).length = 4 * n := by
  induction n generalizing idx with
  | zero => rfl
  | succ n ih =>
    simp only [blockNumbers, List.length_append, length_le32Bytes, ih]
    omega

theorem le32_blockNumbers {n idx j : Nat} (hj : j < n) (h : idx + j < 2 ^ 32) :
    le32 (blockNumbers n idx) (4 * j) = idx + j := by
  induction n generalizing idx j with
  | zero => omega
  | succ n ih =>
    simp only [blockNumbers]
    cases j with
    | zero => exact (le32_append_left _ (by simp)).trans (le32_le32Bytes h)
    | succ j =>
      rw [le32_append_right (q := 4 * j) _ (by simp only [length_le32Bytes]; omega),
        ih (by omega) (by omega)]
      omega

/-! ## The boot block

It depends on the short names and on the number of data blocks only. The lemmas are about names
of any length: a name of 32 bytes fills its field, and the string that starts there runs into the
inode number. -/

/-- The first 64 bytes of the boot block. -/
def namesHeader (count numData : Nat) : Bytes :=
  le32Bytes count ++ le32Bytes count ++ le32Bytes numData ++ List.replicate 52 0

/-- `boot_block` for files with these short names. -/
def namesBlock (names : List Bytes) (numData : Nat) : Bytes :=
  namesHeader names.length numData ++ (dirEntries 0 names ++
    List.replicate (64 * (DIR_ENTRY_CT - names.length)) 0)

theorem bootBlock_eq_namesBlock (files : List HostFile) :
    bootBlock files = namesBlock (files.map HostFile.name) (numData files) := by
  simp only [bootBlock, namesBlock, namesHeader, List.length_map, List.append_assoc]

@[simp] theorem length_strncpy (s : Bytes) (n : Nat) : (strncpy s n).length = n := by
  simp only [strncpy, List.length_append, List.length_take, List.length_replicate]
  omega

@[simp] theorem length_dirEntry (i : Nat) (name : Bytes) : (dirEntry i name).length = 64 := by
  simp [dirEntry, FS_NAMELEN]

@[simp] theorem length_dirEntries (i : Nat) (names : List Bytes) :
    (dirEntries i names).length = 64 * names.length := by
  induction names generalizing i with
  | nil => rfl
  | cons name names ih =>
    simp only [dirEntries, List.length_append, length_dirEntry, ih, List.length_cons]
    omega

@[simp] theorem length_namesHeader (count numData : Nat) : (namesHeader count numData).length = 64 := by
  simp [namesHeader]

theorem length_namesBlock {names : List Bytes} (numData : Nat) (h : names.length ≤ DIR_ENTRY_CT) :
    (namesBlock names numData).length = FS_BLKSZ := by
  simp only [namesBlock, List.length_append, length_namesHeader, length_dirEntries,
    List.length_replicate]
  unfold DIR_ENTRY_CT FS_BLKSZ at *
  omega

theorem length_bootBlock {files : List HostFile} (h : files.length ≤ DIR_ENTRY_CT) :
    (bootBlock files).length = FS_BLKSZ := by
  rw [bootBlock_eq_namesBlock]
  exact length_namesBlock _ (by simpa using h)

/-- `num_inodes` -/
theorem bootBlock_numInodes {files : List HostFile} (h : files.length ≤ DIR_ENTRY_CT) :
    le32 (bootBlock files) 4 = files.length := by
  unfold DIR_ENTRY_CT at h
  rw [bootBlock_eq_namesBlock, namesBlock, le32_append_left _ (by simp)]
  simp only [namesHeader, List.append_assoc, List.length_map]
  rw [le32_append_right (q := 0) _ (by simp), le32_append_left _ (by simp),
    le32_le32Bytes (by omega)]

/-- The directory around one entry. -/
theorem dirEntries_split {names : List Bytes} {e : Nat} {name : Bytes}
    (h : names[e]? = some name) (i : Nat) :
    ∃ a b, dirEntries i names = a ++ (dirEntry (i + e) name ++ b) ∧ a.length = 64 * e := by
  induction names generalizing i e with
  | nil => simp at h
  | cons n names ih =>
    cases e with
    | zero =>
      obtain rfl : n = name := by simpa using h
      exact ⟨[], dirEntries (i + 1) names, rfl, rfl⟩
    | succ e =>
      obtain ⟨a, b, hsplit, hlen⟩ := ih (by simpa using h) (i + 1)
      refine ⟨dirEntry i n ++ a, b, ?_, ?_⟩
      · rw [dirEntries, hsplit, List.append_assoc, Nat.add_assoc, Nat.add_comm 1]
      · rw [List.length_append, length_dirEntry, hlen]
        omega

/-- The boot block around one entry. -/
theorem namesBlock_split {names : List Bytes} {e : Nat} {name : Bytes} (numData : Nat)
    (h : names[e]? = some name) :
    ∃ a b, namesBlock names numData = a ++ (dirEntry e name ++ b) ∧ a.length = dentry e := by
  obtain ⟨a, b, hsplit, hlen⟩ := dirEntries_split h 0
  refine ⟨namesHeader names.length numData ++ a,
    b ++ List.replicate (64 * (DIR_ENTRY_CT - names.length)) 0, ?_, ?_⟩
  · rw [namesBlock, hsplit, Nat.zero_add]
    simp only [List.append_assoc]
  · rw [List.length_append, length_namesHeader, hlen, dentry]

/-- The string at the name of entry `e`: a name that fills its field goes on with the first byte
of the inode number, up to a zero byte. -/
def seenName (e : Nat) (name : Bytes) : Bytes :=
  if name.length = FS_NAMELEN ∧ e ≠ 0 then name ++ [UInt8.ofNat e] else name

theorem cstr_append {a : Bytes} (ha : 0 ∉ a) (b : Bytes) : cstr (a ++ b) = a ++ cstr b := by
  have hne : ∀ c ∈ a, c ≠ 0 := fun c hc h => ha (h ▸ hc)
  exact List.takeWhile_append_of_pos (by simpa using hne)

theorem cstr_zero (b : Bytes) : cstr (0 :: b) = [] := by simp [cstr]

/-- What strings see of an inode number of the directory. -/
theorem cstr_le32Bytes {e : Nat} (he : e < DIR_ENTRY_CT) (b : Bytes) :
    cstr (le32Bytes e ++ b) = if e = 0 then [] else [UInt8.ofNat e] := by
  have hlow : ∀ n < 63, UInt8.ofNat (n / 2 ^ 8) = 0 ∧ (UInt8.ofNat n = 0 ↔ n = 0) := by decide
  obtain ⟨hnext, hzero⟩ := hlow e he
  show cstr (UInt8.ofNat e :: UInt8.ofNat (e / 2 ^ 8) :: _) = _
  rw [hnext]
  split
  · next h0 => rw [hzero.mpr h0, cstr_zero]
  · next h0 =>
    have hne : UInt8.ofNat e ≠ 0 := fun h => h0 (hzero.mp h)
    simp [cstr, hne]

/-- The string at the name of an entry. -/
theorem namesBlock_string {names : List Bytes} {e : Nat} {name : Bytes} (numData : Nat)
    (h : names[e]? = some name) (he : e < DIR_ENTRY_CT) (hname : 0 ∉ name)
    (hlen : name.length ≤ FS_NAMELEN) :
    cstr ((namesBlock names numData).drop (dentry e)) = seenName e name := by
  obtain ⟨a, b, hsplit, hpre⟩ := namesBlock_split numData h
  rw [hsplit, ← hpre, List.drop_left, dirEntry, strncpy, List.take_of_length_le hlen]
  simp only [List.append_assoc]
  rw [cstr_append hname]
  obtain hfull | hshort := hlen.eq_or_lt
  · -- the field has no room for a NUL
    rw [hfull, Nat.sub_self, List.replicate_zero, List.nil_append, cstr_le32Bytes he, seenName]
    by_cases h0 : e = 0
    · rw [if_pos h0, if_neg (fun h => h.2 h0), List.append_nil]
    · rw [if_neg h0, if_pos ⟨hfull, h0⟩]
  · obtain ⟨n, hn⟩ : ∃ n, FS_NAMELEN - name.length = n + 1 := ⟨_, (Nat.sub_one_add_one (by omega)).symm⟩
    rw [hn, List.replicate_succ, List.cons_append, cstr_zero, List.append_nil, seenName,
      if_neg (by omega)]

/-- The inode number of an entry. -/
theorem namesBlock_inode {names : List Bytes} {e : Nat} {name : Bytes} (numData : Nat)
    (h : names[e]? = some name) (he : e < DIR_ENTRY_CT) :
    le32 (namesBlock names numData) (dentry e + 32) = e := by
  obtain ⟨a, b, hsplit, hlen⟩ := namesBlock_split numData h
  rw [hsplit, le32_append_right (q := 32) _ (by omega), dirEntry, List.append_assoc,
    List.append_assoc, le32_append_right (q := 0) _ (by rw [length_strncpy]; rfl),
    le32_append_left _ (by simp), le32_le32Bytes]
  unfold DIR_ENTRY_CT at he
  omega

/-- Where an unused entry starts. -/
theorem dentry_unused {names : List Bytes} {i : Nat} (numData : Nat) (h : names.length ≤ i) :
    dentry i = (namesHeader names.length numData ++ dirEntries 0 names).length +
      64 * (i - names.length) := by
  simp only [List.length_append, length_namesHeader, length_dirEntries, dentry]
  omega

/-- An unused entry has the empty name. -/
theorem namesBlock_unused {names : List Bytes} {i : Nat} (numData : Nat) (h : names.length ≤ i)
    (hi : i < DIR_ENTRY_CT) : cstr ((namesBlock names numData).drop (dentry i)) = [] := by
  obtain ⟨n, hn⟩ : ∃ n, 64 * (DIR_ENTRY_CT - names.length) - 64 * (i - names.length) = n + 1 :=
    ⟨_, (Nat.sub_one_add_one (by omega)).symm⟩
  rw [namesBlock, ← List.append_assoc, dentry_unused numData h, ← List.drop_drop, List.drop_left,
    List.drop_replicate, hn, List.replicate_succ, cstr_zero]

/-- An unused entry has the inode number 0. -/
theorem namesBlock_unused_inode {names : List Bytes} {i : Nat} (numData : Nat)
    (h : names.length ≤ i) : le32 (namesBlock names numData) (dentry i + 32) = 0 := by
  have hzero (n j : Nat) : (List.replicate n (0 : UInt8)).getD j 0 = 0 := by
    rw [List.getD_eq_getElem?_getD, List.getElem?_replicate]
    split <;> rfl
  rw [namesBlock, ← List.append_assoc, le32_append_right _
    (by rw [dentry_unused numData h, Nat.add_assoc])]
  simp only [le32, hzero]
  rfl

theorem HostFile.zero_notMem_name (f : HostFile) : 0 ∉ f.name := by
  intro hzero
  refine f.path_cstr ?_
  simp only [HostFile.name, shortname] at hzero
  split at hzero
  · exact List.mem_of_mem_drop hzero
  · split at hzero
    · exact List.mem_of_mem_drop hzero
    · exact hzero

/-- The names of the files around one file. -/
theorem getElem?_names (as bs : List HostFile) (f : HostFile) :
    ((as ++ f :: bs).map HostFile.name)[as.length]? = some f.name := by simp

/-- The name in the directory entry of a file. -/
theorem bootBlock_name {as bs : List HostFile} {f : HostFile}
    (h : (as ++ f :: bs).length ≤ DIR_ENTRY_CT) :
    cstr ((bootBlock (as ++ f :: bs)).drop (dentry as.length)) = f.name := by
  have hlt : as.length < (as ++ f :: bs).length := by simp
  rw [bootBlock_eq_namesBlock, namesBlock_string _ (getElem?_names as bs f) (hlt.trans_le h)
    f.zero_notMem_name f.name_lt.le, seenName, if_neg (fun hfull => f.name_lt.ne hfull.1)]

/-- The inode number in the directory entry of a file. -/
theorem bootBlock_inode {as bs : List HostFile} {f : HostFile}
    (h : (as ++ f :: bs).length ≤ DIR_ENTRY_CT) :
    le32 (bootBlock (as ++ f :: bs)) (dentry as.length + 32) = as.length := by
  have hlt : as.length < (as ++ f :: bs).length := by simp
  rw [bootBlock_eq_namesBlock]
  exact namesBlock_inode _ (getElem?_names as bs f) (hlt.trans_le h)

theorem bootBlock_unused {files : List HostFile} {i : Nat} (h : files.length ≤ i)
    (hi : i < DIR_ENTRY_CT) : cstr ((bootBlock files).drop (dentry i)) = [] := by
  rw [bootBlock_eq_namesBlock]
  exact namesBlock_unused _ (by simpa using h) hi

theorem bootBlock_unused_inode {files : List HostFile} {i : Nat} (h : files.length ≤ i) :
    le32 (bootBlock files) (dentry i + 32) = 0 := by
  rw [bootBlock_eq_namesBlock]
  exact namesBlock_unused_inode _ (by simpa using h)

/-! ## Inodes -/

/-- What the inode pass writes into an inode fits. -/
theorem inode_written_le (f : HostFile) (idx : Nat) :
    (le32Bytes f.content.length ++ blockNumbers f.numBlocks idx).length ≤ FS_BLKSZ := by
  have := f.blocks_le
  simp only [List.length_append, length_le32Bytes, length_blockNumbers, HostFile.numBlocks]
  unfold FS_BLKSZ DATA_BLOCK_NUM at *
  omega

@[simp] theorem length_inodeBlock (junk : List.Vector UInt8 FS_BLKSZ) (f : HostFile) (idx : Nat) :
    (inodeBlock junk f idx).length = FS_BLKSZ := by
  have := inode_written_le f idx
  rw [inodeBlock, length_patch (by rw [junk.toList_length]; omega), junk.toList_length]

theorem HostFile.content_lt (f : HostFile) : f.content.length < DATA_BLOCK_NUM * FS_BLKSZ := by
  have := f.blocks_le
  unfold DATA_BLOCK_NUM FS_BLKSZ at *
  omega

theorem byteLen_inodeBlock (junk : List.Vector UInt8 FS_BLKSZ) (f : HostFile) (idx : Nat) :
    byteLen (inodeBlock junk f idx) = f.content.length := by
  have hlt : f.content.length < 1023 * 4096 := f.content_lt
  simp only [byteLen, inodeBlock, patch, List.take_zero, List.nil_append, List.append_assoc]
  rw [le32_append_left _ (by simp), le32_le32Bytes (by omega)]

theorem dataBlockNum_inodeBlock (junk : List.Vector UInt8 FS_BLKSZ) (f : HostFile) {idx j : Nat}
    (hj : j < f.numBlocks) (hidx : idx + j < 2 ^ 32) :
    dataBlockNum (inodeBlock junk f idx) j = idx + j := by
  simp only [dataBlockNum, inodeBlock, patch, List.take_zero, List.nil_append, List.append_assoc]
  rw [le32_append_right (q := 4 * j) _ (by simp),
    le32_append_left _ (by simp only [length_blockNumbers]; omega), le32_blockNumbers hj hidx]

@[simp] theorem length_inodeArray (junk : Nat → List.Vector UInt8 FS_BLKSZ) (i idx : Nat)
    (files : List HostFile) : (inodeArray junk i idx files).length = FS_BLKSZ * files.length := by
  induction files generalizing i idx with
  | nil => rfl
  | cons f fs ih =>
    simp only [inodeArray, List.length_append, length_inodeBlock, ih, List.length_cons, Nat.mul_add]
    omega

theorem inodeArray_append (junk : Nat → List.Vector UInt8 FS_BLKSZ) (i idx : Nat)
    (as bs : List HostFile) :
    inodeArray junk i idx (as ++ bs) =
      inodeArray junk i idx as ++ inodeArray junk (i + as.length) (idx + numData as) bs := by
  induction as generalizing i idx with
  | nil => rfl
  | cons a as ih =>
    simp only [List.cons_append, inodeArray, ih, List.append_assoc, List.length_cons, numData,
      List.map_cons, List.sum_cons]
    rw [Nat.add_assoc i, Nat.add_comm 1, Nat.add_assoc idx]

/-! ## Data -/

/-- How many data blocks the copy loop writes. -/
def HostFile.writtenBlocks (f : HostFile) : Nat := (f.content.length + (FS_BLKSZ - 1)) / FS_BLKSZ

/-- The number of data blocks that are written for the files. -/
def written (files : List HostFile) : Nat := (files.map HostFile.writtenBlocks).sum

/-- The copy loop writes the content, padded to whole blocks. Induction on the rounds
left. -/
theorem copyLoop_eq {rounds : Nat} {buf : Bytes} (content : Bytes) (hbuf : buf.length = FS_BLKSZ)
    (hrounds : content.length ≤ rounds) :
    ∃ pad, copyLoop rounds buf content = content ++ pad ∧
      (content ++ pad).length = FS_BLKSZ * ((content.length + (FS_BLKSZ - 1)) / FS_BLKSZ) := by
  induction rounds generalizing buf content with
  | zero =>
    obtain rfl := List.length_eq_zero_iff.mp (Nat.le_zero.mp hrounds)
    exact ⟨[], rfl, rfl⟩
  | succ rounds ih =>
    unfold copyLoop
    by_cases h0 : content.length = 0
    · obtain rfl := List.length_eq_zero_iff.mp h0
      exact ⟨[], rfl, rfl⟩
    rw [if_neg h0]
    dsimp only
    have htake : (content.take FS_BLKSZ).length ≤ buf.length := by
      rw [List.length_take, hbuf]
      exact Nat.min_le_left _ _
    have hbuf' : (patch buf 0 (content.take FS_BLKSZ)).length = FS_BLKSZ := by
      rw [length_patch (by omega), hbuf]
    by_cases hshort : content.length ≤ FS_BLKSZ
    · -- the last round: the rest of the buffer is the padding
      have hdone : content.drop FS_BLKSZ = [] := List.drop_eq_nil_of_le hshort
      have hend : ∀ r b, copyLoop r b [] = [] := by
        intro r b
        cases r <;> rfl
      refine ⟨buf.drop content.length, ?_, ?_⟩
      · rw [hdone, hend, List.append_nil, List.take_of_length_le hshort, patch, List.take_zero,
          List.nil_append, Nat.zero_add]
      · rw [List.length_append, List.length_drop, hbuf]
        unfold FS_BLKSZ at *
        omega
    · obtain ⟨pad, hrest, hlen⟩ := ih (content.drop FS_BLKSZ) hbuf'
        (by rw [List.length_drop]; unfold FS_BLKSZ at *; omega)
      refine ⟨pad, ?_, ?_⟩
      · have hfull : patch buf 0 (content.take FS_BLKSZ) = content.take FS_BLKSZ :=
          patch_all (by rw [List.length_take, hbuf]; omega)
        rw [hrest, hfull, ← List.append_assoc, List.take_append_drop]
      · rw [List.length_append, List.length_drop] at hlen
        rw [List.length_append]
        unfold FS_BLKSZ at *
        omega

theorem dataBlocks_eq (f : HostFile) :
    ∃ pad, dataBlocks f = f.content ++ pad ∧
      (f.content ++ pad).length = FS_BLKSZ * f.writtenBlocks :=
  copyLoop_eq f.content (List.length_replicate ..) (le_refl _)

@[simp] theorem length_dataBlocks (f : HostFile) :
    (dataBlocks f).length = FS_BLKSZ * f.writtenBlocks := by
  obtain ⟨pad, hpad, hlen⟩ := dataBlocks_eq f
  rw [hpad, hlen]

theorem length_flatMap_dataBlocks (files : List HostFile) :
    (files.flatMap dataBlocks).length = FS_BLKSZ * written files := by
  induction files with
  | nil => rfl
  | cons f fs ih =>
    simp only [List.flatMap_cons, List.length_append, length_dataBlocks, ih, written, List.map_cons,
      List.sum_cons, Nat.mul_add]

/-- Zeros are copied as zeros. -/
theorem copyLoop_zero {rounds : Nat} {buf content : Bytes} (hbuf : ∀ x ∈ buf, x = 0)
    (hcontent : ∀ x ∈ content, x = 0) : ∀ x ∈ copyLoop rounds buf content, x = 0 := by
  induction rounds generalizing buf content with
  | zero => simp [copyLoop]
  | succ rounds ih =>
    unfold copyLoop
    split
    · simp
    · have hbuf' : ∀ x ∈ patch buf 0 (content.take FS_BLKSZ), x = 0 := by
        intro x hx
        simp only [patch, List.take_zero, List.nil_append, List.mem_append] at hx
        rcases hx with hx | hx
        · exact hcontent x (List.mem_of_mem_take hx)
        · exact hbuf x (List.mem_of_mem_drop hx)
      intro x hx
      rcases List.mem_append.mp hx with hx | hx
      · exact hbuf' x hx
      · exact ih hbuf' (fun y hy => hcontent y (List.mem_of_mem_drop hy)) x hx

theorem dataBlocks_zero {f : HostFile} (h : ∀ x ∈ f.content, x = 0) : ∀ x ∈ dataBlocks f, x = 0 :=
  copyLoop_zero (fun _ hx => List.eq_of_mem_replicate hx) h

/-! ## Where the parts of a file are -/

theorem length_image (junk : Nat → List.Vector UInt8 FS_BLKSZ) {files : List HostFile}
    (h : files.length ≤ DIR_ENTRY_CT) :
    (image junk files).length = FS_BLKSZ * (1 + files.length + written files) := by
  simp only [image, List.length_append, length_bootBlock h, length_inodeArray,
    length_flatMap_dataBlocks, Nat.mul_add, Nat.mul_one]

theorem image_boot (junk : Nat → List.Vector UInt8 FS_BLKSZ) {files : List HostFile}
    (h : files.length ≤ DIR_ENTRY_CT) : slice (image junk files) 0 FS_BLKSZ = bootBlock files := by
  have hlen := length_bootBlock h
  rw [image, List.append_assoc, slice_append_left _ (by omega), ← hlen, slice_full]

theorem image_inode (junk : Nat → List.Vector UInt8 FS_BLKSZ) {as bs : List HostFile} {f : HostFile}
    (h : (as ++ f :: bs).length ≤ DIR_ENTRY_CT) :
    slice (image junk (as ++ f :: bs)) (as.length * FS_BLKSZ + FS_BLKSZ) FS_BLKSZ =
      inodeBlock (junk as.length) f (numData as) := by
  have hlen := length_bootBlock h
  rw [image, List.append_assoc, slice_append_right (q := FS_BLKSZ * as.length) _
      (by rw [hlen, Nat.mul_comm, Nat.add_comm]),
    inodeArray_append, inodeArray, List.append_assoc, List.append_assoc,
    slice_append_right (q := 0) _ (by simp), slice_append_left _ (by simp), Nat.zero_add,
    Nat.zero_add, ← length_inodeBlock (junk as.length) f (numData as), slice_full]

/-- The data of a file begins after the data blocks written for the files before it. -/
theorem image_data (junk : Nat → List.Vector UInt8 FS_BLKSZ) {as bs : List HostFile}
    {f : HostFile} (h : (as ++ f :: bs).length ≤ DIR_ENTRY_CT) :
    ∃ a, image junk (as ++ f :: bs) = a ++ (dataBlocks f ++ bs.flatMap dataBlocks) ∧
      a.length = FS_BLKSZ * (1 + (as ++ f :: bs).length + written as) := by
  refine ⟨bootBlock (as ++ f :: bs) ++ inodeArray junk 0 0 (as ++ f :: bs) ++ as.flatMap dataBlocks,
    ?_, ?_⟩
  · rw [image, List.flatMap_append, List.flatMap_cons]
    simp only [List.append_assoc]
  · simp only [List.length_append, length_bootBlock h, length_inodeArray,
      length_flatMap_dataBlocks, Nat.mul_add, Nat.mul_one]

/-! ## The two counts -/

theorem writtenBlocks_le (f : HostFile) : f.writtenBlocks ≤ f.numBlocks := by
  unfold HostFile.writtenBlocks HostFile.numBlocks FS_BLKSZ
  omega

/-- The two passes count the same blocks for a file unless its length is a multiple of
the block size. -/
theorem writtenBlocks_eq_iff (f : HostFile) :
    f.writtenBlocks = f.numBlocks ↔ f.content.length % FS_BLKSZ ≠ 0 := by
  unfold HostFile.writtenBlocks HostFile.numBlocks FS_BLKSZ
  omega

theorem written_le (files : List HostFile) : written files ≤ numData files := by
  induction files with
  | nil => exact le_refl _
  | cons f fs ih =>
    have := writtenBlocks_le f
    simp only [written, numData, List.map_cons, List.sum_cons] at *
    omega

theorem written_eq_iff (files : List HostFile) :
    written files = numData files ↔ ∀ f ∈ files, f.content.length % FS_BLKSZ ≠ 0 := by
  induction files with
  | nil => simp [written, numData]
  | cons f fs ih =>
    have hf := writtenBlocks_le f
    have hfs := written_le fs
    rw [List.forall_mem_cons, ← ih, ← writtenBlocks_eq_iff]
    simp only [written, numData, List.map_cons, List.sum_cons] at *
    omega

theorem numData_le (files : List HostFile) : numData files ≤ DATA_BLOCK_NUM * files.length := by
  induction files with
  | nil => exact le_refl _
  | cons f fs ih =>
    have hf : f.numBlocks ≤ DATA_BLOCK_NUM := f.blocks_le
    simp only [numData, List.map_cons, List.sum_cons, List.length_cons, Nat.mul_add, Nat.mul_one] at *
    omega

/-- Block numbers and image sizes are far from the limits of their types. -/
theorem numData_lt {files : List HostFile} (h : files.length ≤ DIR_ENTRY_CT) :
    numData files < 2 ^ 17 := by
  have := numData_le files
  have : DATA_BLOCK_NUM * files.length ≤ DATA_BLOCK_NUM * DIR_ENTRY_CT := Nat.mul_le_mul_left _ h
  unfold DATA_BLOCK_NUM DIR_ENTRY_CT at *
  omega

end Mkfs

end RiscvKernel
