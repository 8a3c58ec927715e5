import RiscvKernel.Fs.RoundTrip

/-!
# Looking up a name

`fs_open` compares the name it is given with the strings at all 63 directory entries. `mkfs`
copies names into fields of 32 bytes, so a name of 32 bytes has no NUL, and the string goes on
with the inode number behind it (`seenName`); and an entry that is not used has the empty name
and the inode number 0.

* `mem_seen_iff`, `findEntry_namesBlock`: which names are found, and where.
* `directory_lookup_iff`: for which names the lookup is exact.
-/

namespace RiscvKernel

open Lib

namespace Mkfs

open Kfs

/-- Names of files that `mkfs` may be called with. -/
structure Names where
  names : List Bytes
  count : names.length ≤ DIR_ENTRY_CT
  distinct : names.Nodup
  cstr : ∀ name ∈ names, 0 ∉ name
  pos : ∀ name ∈ names, 0 < name.length
  fits : ∀ name ∈ names, name.length ≤ FS_NAMELEN

namespace Names

variable {ns : Names} {e : Nat} {name q : Bytes}

theorem index_lt (h : ns.names[e]? = some name) : e < DIR_ENTRY_CT :=
  (List.getElem?_eq_some_iff.mp h).1.trans_le ns.count

theorem index_unique {e' : Nat} (h : ns.names[e]? = some name) (h' : ns.names[e']? = some name) :
    e = e' := by
  obtain ⟨he, hname⟩ := List.getElem?_eq_some_iff.mp h
  obtain ⟨he', hname'⟩ := List.getElem?_eq_some_iff.mp h'
  exact (List.Nodup.getElem_inj_iff ns.distinct).mp (hname.trans hname'.symm)

/-- The string at entry `i` of the directory. -/
def seen (ns : Names) (i : Nat) : Bytes := (ns.names[i]?).elim [] (seenName i)

theorem seen_of_name (h : ns.names[e]? = some name) : ns.seen e = seenName e name := by
  rw [seen, h]
  rfl

theorem cstr_namesBlock (ns : Names) (numData : Nat) {i : Nat} (hi : i < DIR_ENTRY_CT) :
    Kfs.cstr ((namesBlock ns.names numData).drop (dentry i)) = ns.seen i := by
  unfold seen
  cases hname : ns.names[i]? with
  | none => exact namesBlock_unused numData (List.getElem?_eq_none_iff.mp hname) hi
  | some name =>
    have hmem := List.mem_of_getElem? hname
    exact namesBlock_string numData hname hi (ns.cstr name hmem) (ns.fits name hmem)

/-- What the lookup gets wrong is not `q`: a name of 32 bytes, except in the first entry, and what
the directory shows instead of it; and, if an entry is left, the empty name. -/
structure Clear (ns : Names) (q : Bytes) : Prop where
  names : ∀ e name, ns.names[e]? = some name → e ≠ 0 → name.length = FS_NAMELEN →
    q ≠ name ∧ q ≠ name ++ [UInt8.ofNat e]
  unused : q = [] → ns.names.length = DIR_ENTRY_CT

/-- What the directory shows at an entry is its name, or one byte longer than a name can be. -/
theorem seen_cases (h : ns.names[e]? = some name) :
    ns.seen e = name ∨
      e ≠ 0 ∧ name.length = FS_NAMELEN ∧ ns.seen e = name ++ [UInt8.ofNat e] := by
  rw [seen_of_name h, seenName]
  split
  · next hfull => exact .inr ⟨hfull.2, hfull.1, rfl⟩
  · exact .inl rfl

theorem seen_unused {i : Nat} (h : ns.names.length ≤ i) : ns.seen i = [] := by
  rw [seen, List.getElem?_eq_none h]
  rfl

/-- An entry at which a name of a file is read is the entry of this file. -/
theorem eq_of_seen (h : ns.names[e]? = some q) {i : Nat} (hi : ns.seen i = q) : i = e := by
  have hmem := List.mem_of_getElem? h
  have hpos := ns.pos q hmem
  have hfits := ns.fits q hmem
  cases hname : ns.names[i]? with
  | none =>
    rw [seen_unused (List.getElem?_eq_none_iff.mp hname)] at hi
    rw [← hi] at hpos
    exact absurd hpos (lt_irrefl 0)
  | some name =>
    obtain heq | ⟨-, hfull, heq⟩ := seen_cases hname
    · rw [hi] at heq
      rw [← heq] at hname
      exact index_unique hname h
    · -- such a string has 33 bytes
      rw [hi] at heq
      rw [heq, List.length_append, List.length_singleton, hfull] at hfits
      omega

/-- A name is read at some entry exactly when it is a name of a file, if no name is misread. -/
theorem mem_seen_iff (hclear : ns.Clear q) : (∃ i < DIR_ENTRY_CT, ns.seen i = q) ↔ q ∈ ns.names := by
  constructor
  · rintro ⟨i, hi, hseen⟩
    cases hname : ns.names[i]? with
    | none =>
      have hunused := List.getElem?_eq_none_iff.mp hname
      rw [seen_unused hunused] at hseen
      have := hclear.unused hseen.symm
      omega
    | some name =>
      obtain heq | ⟨hlater, hfull, heq⟩ := seen_cases hname
      · rw [← hseen, heq]
        exact List.mem_of_getElem? hname
      · exact absurd (hseen.symm.trans heq) (hclear.names i name hname hlater hfull).2
  · intro hmem
    obtain ⟨e, hname⟩ := List.mem_iff_getElem?.mp hmem
    refine ⟨e, index_lt hname, ?_⟩
    obtain heq | ⟨hlater, hfull, -⟩ := seen_cases hname
    · exact heq
    · exact absurd rfl (hclear.names e q hname hlater hfull).1

/-- If this is so for `q`, then nothing is misread as `q`. -/
theorem clear_of_mem_seen_iff
    (h : (∃ i < DIR_ENTRY_CT, ns.seen i = q) ↔ q ∈ ns.names) : ns.Clear q where
  names := by
    intro e name hname hlater hfull
    refine ⟨?_, ?_⟩
    · -- the name would have to be read at its own entry
      rintro rfl
      obtain ⟨i, -, hi⟩ := h.mpr (List.mem_of_getElem? hname)
      obtain rfl := eq_of_seen hname hi
      rw [seen_of_name hname, seenName, if_pos ⟨hfull, hlater⟩] at hi
      have := congrArg List.length hi
      rw [List.length_append, List.length_singleton] at this
      omega
    · rintro rfl
      have hseen : ns.seen e = name ++ [UInt8.ofNat e] := by
        rw [seen_of_name hname, seenName, if_pos ⟨hfull, hlater⟩]
      have hfits := ns.fits _ (h.mp ⟨e, index_lt hname, hseen⟩)
      rw [List.length_append, List.length_singleton] at hfits
      omega
  unused := by
    rintro rfl
    by_contra hne
    have hlt : ns.names.length < DIR_ENTRY_CT := lt_of_le_of_ne ns.count hne
    have hpos := ns.pos [] (h.mp ⟨_, hlt, seen_unused le_rfl⟩)
    exact absurd hpos (lt_irrefl 0)

/-! ## What `fs_open` finds -/

theorem findEntry_isSome_iff (ns : Names) (numData : Nat) (q : Bytes) :
    (findEntry (namesBlock ns.names numData) q).isSome ↔ ∃ i < DIR_ENTRY_CT, ns.seen i = q := by
  unfold findEntry
  rw [List.find?_isSome]
  constructor
  · rintro ⟨i, hi, hq⟩
    have hi := List.mem_range.mp hi
    exact ⟨i, hi, by rw [← ns.cstr_namesBlock numData hi]; simpa using hq⟩
  · rintro ⟨i, hi, hq⟩
    exact ⟨i, List.mem_range.mpr hi, by simpa [ns.cstr_namesBlock numData hi] using hq⟩

/-- The entry that is found for the name of a file. -/
theorem findEntry_namesBlock (numData : Nat) (hclear : ns.Clear q) (h : ns.names[e]? = some q) :
    findEntry (namesBlock ns.names numData) q = some e := by
  have hsome := (ns.findEntry_isSome_iff numData q).mpr
    ((mem_seen_iff hclear).mpr (List.mem_of_getElem? h))
  obtain ⟨i, hi⟩ := Option.isSome_iff_exists.mp hsome
  have hlt := List.mem_range.mp (List.mem_of_find?_eq_some hi)
  have hseen : Kfs.cstr ((namesBlock ns.names numData).drop (dentry i)) = q := by
    simpa using List.find?_some hi
  rw [ns.cstr_namesBlock numData hlt] at hseen
  rw [hi, eq_of_seen h hseen]

/-- The inode numbers in the directory are below the mark for "no inode". -/
theorem inode_ne_mark (ns : Names) (numData e : Nat) :
    le32 (namesBlock ns.names numData) (dentry e + 32) ≠ u32 (-1) := by
  have hmark : u32 (-1) = 2 ^ 32 - 1 := by
    unfold u32
    rfl
  cases hname : ns.names[e]? with
  | none =>
    rw [namesBlock_unused_inode numData (List.getElem?_eq_none_iff.mp hname), hmark]
    decide
  | some name =>
    have he := index_lt hname
    rw [namesBlock_inode numData hname he, hmark]
    unfold DIR_ENTRY_CT at he
    omega

end Names

section Open

variable {β : Type} {be : Backend β} {serve : β → Option β} {Ok : β → Prop} {disk : β → Bytes}
  {pos : β → Nat} {W : Nat → Nat → Prop} {s : KfsState β} {ns : Names} {numData : Nat} {q : Bytes}

/-- `fs_open` does not find the name. -/
def NotFound (be : Backend β) (serve : β → Option β) (s : KfsState β) (q : Bytes) : Prop :=
  ∃ s', (fsOpen be q).exec (kfsServe serve) s = some ((-ENOENT, none), s')

/-- `fs_open` opens the file with this inode number. -/
def OpensInode (be : Backend β) (serve : β → Option β) (s : KfsState β) (q : Bytes) (inode : Nat) :
    Prop :=
  ∃ io s' i, (fsOpen be q).exec (kfsServe serve) s = some ((0, some io), s') ∧
    (s'.table.slots i).io = some io ∧ (s'.table.slots i).inode = inode

/-- Once an entry has been found, no later error is taken for a name that does not exist. -/
theorem notFound_iff (hblock : s.table.superBlock = namesBlock ns.names numData) :
    NotFound be serve s q ↔ findEntry (namesBlock ns.names numData) q = none := by
  unfold NotFound fsOpen
  rw [Prog.exec_lock_bind, Prog.exec_get_bind, hblock]
  cases hfind : findEntry (namesBlock ns.names numData) q with
  | none => exact iff_of_true ⟨s, rfl⟩ rfl
  | some e =>
    refine iff_of_false ?_ (Option.some_ne_none e)
    rintro ⟨s', h⟩
    dsimp only at h
    rw [if_neg (ns.inode_ne_mark numData e), Prog.exec_bind] at h
    obtain ⟨⟨_, s₁⟩, -, h⟩ := Option.bind_eq_some_iff.mp h
    rw [Prog.exec_bind] at h
    obtain ⟨⟨fresh, s₂⟩, -, h⟩ := Option.bind_eq_some_iff.mp h
    rw [Prog.exec_bind] at h
    obtain ⟨⟨⟨result, fileStruct⟩, s₃⟩, -, h⟩ := Option.bind_eq_some_iff.mp h
    dsimp only at h
    split at h
    · -- the inode cannot be read
      cases h
    rw [Prog.exec_bind] at h
    obtain ⟨⟨_, s₄⟩, -, h⟩ := Option.bind_eq_some_iff.mp h
    rw [Prog.exec_get_bind, Prog.exec_modify_bind] at h
    split at h
    · cases h
    · rw [Prog.exec_modify_bind, Prog.exec_unlock_bind] at h
      cases h

/-- The name is found exactly when a file has it, and then the inode that is opened is that of
the file's entry. -/
structure ExactLookup (be : Backend β) (serve : β → Option β) (s : KfsState β) (names : List Bytes)
    (q : Bytes) : Prop where
  found : ¬NotFound be serve s q ↔ q ∈ names
  inode : ∀ e, names[e]? = some q → OpensInode be serve s q e

/-- On the mounted image of files with these names, with a slot left, the lookup of `q` is exact
if and only if no name of 32 bytes other than the first is misread as `q`, and `q` is not the
empty name with an entry left. -/
theorem directory_lookup_iff (hm : Medium be serve Ok disk pos (fun _ _ => True) W)
    (hok : Ok s.fs.below)
    (hblock : s.table.superBlock = namesBlock ns.names numData)
    (hin : (ns.names.length + 1) * FS_BLKSZ ≤ (disk s.fs.below).length)
    (hsmall : (disk s.fs.below).length < 2 ^ 31) (hslot : (freeSlot s.table).isSome) :
    ExactLookup be serve s ns.names q ↔ ns.Clear q := by
  have hfound : ¬NotFound be serve s q ↔ ∃ i < DIR_ENTRY_CT, ns.seen i = q := by
    rw [notFound_iff hblock, ← ns.findEntry_isSome_iff numData, Option.isSome_iff_ne_none]
  constructor
  · intro h
    exact Names.clear_of_mem_seen_iff (hfound.symm.trans h.found)
  · intro h
    refine ⟨hfound.trans (Names.mem_seen_iff h), fun e hname => ?_⟩
    obtain ⟨slot, hslot⟩ := Option.isSome_iff_exists.mp hslot
    obtain ⟨he, -⟩ := List.getElem?_eq_some_iff.mp hname
    have hentry : findEntry s.table.superBlock q = some e := by
      rw [hblock]
      exact Names.findEntry_namesBlock numData h hname
    have hinode : le32 s.table.superBlock (dentry e + 32) = e := by
      rw [hblock]
      exact namesBlock_inode numData hname (Names.index_lt hname)
    obtain ⟨b, hopen, -⟩ := exec_fsOpen hm hok hentry hinode (by unfold FS_BLKSZ at *; omega) hsmall
      trivial hslot
    exact ⟨_, _, slot, hopen, by simp, by simp⟩

end Open

section TwoNames

/-- Two empty files, one with a name of 32 bytes. -/
def twoNames : Names where
  names := [ascii "a", List.replicate FS_NAMELEN 120]
  count := by decide
  distinct := by decide
  cstr := by decide
  pos := by decide
  fits := by decide

/-- The boot block and the inodes. -/
@[irreducible] def imageTwo : Bytes :=
  namesBlock twoNames.names 0 ++ List.replicate (2 * FS_BLKSZ) 0

def mountedTwo : KfsState (LitState Unit) where
  fs := { below := ⟨⟨imageTwo, imageTwo.length, 0⟩, ()⟩, filePosition := fun _ => 0 }
  table := { superBlock := namesBlock twoNames.names 0, slots := fun _ => ⟨none, 0, 0⟩, nextIo := 0 }

theorem length_imageTwo : imageTwo.length = 3 * FS_BLKSZ := by
  unfold imageTwo
  rw [List.length_append, length_namesBlock 0 twoNames.count, List.length_replicate]
  rfl

theorem ready_mountedTwo : Lit.Ready mountedTwo.fs.below where
  size := rfl
  small := by
    show imageTwo.length < _
    rw [length_imageTwo]
    decide

/-- The short name is looked up exactly. -/
theorem directory_lookup_short :
    ExactLookup (Lit.backend fun n z => some (zeroPages n z)) (fun _ => none) mountedTwo
      twoNames.names (ascii "a") := by
  refine (directory_lookup_iff (medium_lit (fun _ => none) zeroPages) ready_mountedTwo rfl ?_ ?_
    (by decide)).mpr ⟨?_, ?_⟩
  · show 3 * FS_BLKSZ ≤ imageTwo.length
    rw [length_imageTwo]
  · show imageTwo.length < _
    rw [length_imageTwo]
    decide
  · intro e name hname _ hlen
    refine ⟨?_, ?_⟩
    · rintro rfl
      revert hlen
      decide
    · intro heq
      have := congrArg List.length heq
      rw [List.length_append, hlen, List.length_singleton] at this
      revert this
      decide
  · intro h
    cases h

/-- The file with the name of 32 bytes is not found, and the empty name, which no file has, is. -/
theorem directory_lookup_not_exact :
    (List.replicate FS_NAMELEN 120 ∈ twoNames.names ∧
      NotFound (Lit.backend fun n z => some (zeroPages n z)) (fun _ => none) mountedTwo
        (List.replicate FS_NAMELEN 120)) ∧
    ([] ∉ twoNames.names ∧
      ¬NotFound (Lit.backend fun n z => some (zeroPages n z)) (fun _ => none) mountedTwo []) := by
  have hblock : mountedTwo.table.superBlock = namesBlock twoNames.names 0 := rfl
  refine ⟨⟨by decide, ?_⟩, by decide, ?_⟩
  · rw [notFound_iff hblock, ← Option.not_isSome_iff_eq_none, twoNames.findEntry_isSome_iff]
    decide +kernel
  · rw [notFound_iff hblock, ← Option.not_isSome_iff_eq_none, not_not,
      twoNames.findEntry_isSome_iff]
    exact ⟨2, by decide, rfl⟩

end TwoNames

end Mkfs

end RiscvKernel
