import RiscvKernel.Proc.Plan

/-!
# The image of an executable

What memory holds when `elf_load` has returned 0. The loader takes pages from the free list as they
are and never reads `p_memsz`, so that the bytes behind the end of a segment are whatever the page
held, beginning with the link of the free list; and it maps every segment to pages of its own, so
that a segment takes the pages that it shares with an earlier one away from it.

* `Image`: memory holds the segments of the file, zeros behind them, and has their permissions.
* `fileLayout`, `owner`: where the loader puts the file, and which segment has mapped a page last.
  Both depend on the file, the tables that there are and the list of free pages only.
* `ImageCond`: the last segment of each page has the permissions of all, and the free pages hold the
  right bytes where the loader does not store.
* `elf_load_image_iff`: when the loader leaves the image of the file.
-/

namespace RiscvKernel

open Lib Phys

/-! ## Accesses of the program -/

namespace Phys

/-- The byte behind a virtual address, whatever the flags of its page. -/
def byteBehind (m : Phys) (root va : Nat) : Option UInt8 := (m.access root va 0).map m.byteAt

/-- The byte that the first access to an address finds. If the page is not mapped,
`memory_handle_page_fault` maps one. -/
def firstAccess (m : Phys) (root va : Nat) : Option UInt8 :=
  (m.reach root va 0).map fun r => r.2.byteAt r.1

section Laid

variable {base root x : Nat} {o m : Phys} {l : List Nat} {A : Layout}
  (h : Laid base root l o m A) (hapart : Apart o root A) (hx : USER_START ≤ x ∧ x ≤ USER_END)

include h hapart hx

theorem Laid.byteBehind_eq : m.byteBehind root x = (A.access x 0).map (A.byteOf o) := by
  unfold byteBehind
  rw [h.access_eq hx.1 hx.2]
  cases hacc : A.access x 0 with
  | none => rfl
  | some pa => exact congrArg some (h.bytes pa (hapart.of_access h hx.1 hx.2 hacc).1)

theorem Laid.firstAccess_eq (halive : A.alive = true)
    (hblank : ∀ p ∈ (A.reach x 0).1.tables, Blank o.word p) :
    m.firstAccess root x = (A.reach x 0).2.map (A.byteOf o) := by
  obtain ⟨hfst, hsome⟩ := h.reach halive hapart hx.1 hx.2 0 hblank
  have hwrote : (A.reach x 0).1.wrote = A.wrote := by
    unfold Layout.reach
    split
    · rfl
    · rfl
  unfold firstAccess
  rw [← hfst]
  cases hreach : m.reach root x 0 with
  | none => rfl
  | some r =>
    obtain ⟨-, hlaid, hapart', hacc⟩ := hsome r.1 r.2 hreach
    have hbyte := hlaid.bytes r.1 (hapart'.of_access hlaid hx.1 hx.2 hacc).1
    unfold Layout.byteOf at hbyte
    rw [hwrote] at hbyte
    exact congrArg some hbyte

end Laid

end Phys

namespace Elf

variable {ω σ : Type}

/-! ## The file -/

/-- The io object serves `file`, and stands at its beginning in the state `s`. -/
structure Serves (exe : Exe ω σ) (io : ω) (file : Bytes) (s : σ) : Prop where
  start : (exe.readFull io EHDR_SIZE s).1 = (slice file 0 EHDR_SIZE).length ∧
    (exe.readFull io EHDR_SIZE s).2.1 = slice file 0 EHDR_SIZE
  read : ∀ pos n s, (exe.readFull io n (exe.seek io pos s)).1 = (slice file pos n).length ∧
    (exe.readFull io n (exe.seek io pos s)).2.1 = slice file pos n

def fileHeader (file : Bytes) : Ehdr := ehdr (slice file 0 EHDR_SIZE)

def phdrBytes (file : Bytes) (i : Nat) : Bytes := slice file (phdrPos (fileHeader file) i) PHDR_SIZE

/-- The program header `i` of the file. -/
def segment (file : Bytes) (i : Nat) : Phdr := phdr (phdrBytes file i)

/-- Its `p_memsz`, which the loader does not look at. -/
def memsz (file : Bytes) (i : Nat) : Nat := field (phdrBytes file i) 40 8

/-- Its bytes in the file. -/
def segmentBytes (file : Bytes) (i : Nat) : Bytes :=
  slice file (segment file i).offset (segment file i).filesz

/-- The number of a program header that is to be loaded. -/
def Loaded (file : Bytes) (i : Nat) : Prop :=
  i < (fileHeader file).phnum ∧ (segment file i).type = PT_LOAD

/-- The address `x` belongs to the segment `i` in memory. -/
def MemByte (file : Bytes) (i x : Nat) : Prop :=
  (segment file i).vaddr ≤ x ∧ x < (segment file i).vaddr + memsz file i

/-- The address `x` is one of the segment `i` whose byte is in the file. -/
def FileByte (file : Bytes) (i x : Nat) : Prop :=
  (segment file i).vaddr ≤ x ∧ x < (segment file i).vaddr + (segment file i).filesz

/-- The address `x` is one of the segment `i` that has no byte in the file. -/
def ZeroByte (file : Bytes) (i x : Nat) : Prop :=
  (segment file i).vaddr + (segment file i).filesz ≤ x ∧ x < (segment file i).vaddr + memsz file i

/-- The file has its program headers, and its segments are in the user region and apart from each
other. -/
structure ElfFile (file : Bytes) : Prop where
  phdrs : ∀ i < (fileHeader file).phnum, (phdrBytes file i).length = PHDR_SIZE
  start : ∀ i, Loaded file i → USER_START ≤ (segment file i).vaddr
  filesz : ∀ i, Loaded file i → (segment file i).filesz ≤ memsz file i
  stop : ∀ i, Loaded file i → (segment file i).vaddr + memsz file i ≤ USER_END
  disjoint : ∀ i j x, Loaded file i → Loaded file j → MemByte file i x → MemByte file j x → i = j

/-- The page `u` has a byte of the segment `i` that is in the file. -/
def FilePage (file : Bytes) (i : Nat) (u : Vpn) : Prop :=
  InRange (segment file i).vaddr (segment file i).filesz u

/-- **The image of the file** in memory: the bytes of its segments, zeros up to their sizes in
memory, and the permissions of the segments on each page. -/
structure Image (file : Bytes) (m : Phys) (root entry : Nat) : Prop where
  entry : entry = (fileHeader file).entry
  bytes : ∀ i x, Loaded file i → FileByte file i x →
    m.byteBehind root x = file[(segment file i).offset + (x - (segment file i).vaddr)]?
  zeros : ∀ i x, Loaded file i → ZeroByte file i x → m.firstAccess root x = some 0
  flags : ∀ i u, Loaded file i → FilePage file i u → ∃ p, hwWalk m.word root u = some p ∧
    p.2 &&& PTE_U ≠ 0 ∧ ∀ q ∈ [PTE_R, PTE_W, PTE_X],
      (p.2 &&& q ≠ 0 ↔
        ∃ j, Loaded file j ∧ FilePage file j u ∧ flagConvert (segment file j).flags &&& q ≠ 0)

/-! ## Where the loader puts it -/

/-- The segments of the `n` program headers from `i` on. -/
def segmentsFrom (file : Bytes) : Nat → Nat → List (Phdr × Bytes)
  | 0, _ => []
  | n + 1, i =>
    if (segment file i).type = PT_LOAD then
      (segment file i, segmentBytes file i) :: segmentsFrom file n (i + 1)
    else segmentsFrom file n (i + 1)

/-- The layout of the file, with `l` as the free pages of `m`. -/
def fileLayout (file : Bytes) (m : Phys) (root : Nat) (l : List Nat) : Layout :=
  (segmentsFrom file (fileHeader file).phnum 0).foldl lay (m.layout root l)

/-- The last of the first `n` segments that has mapped the page `u`. The loader can miss the last page
of a segment, which is then a page of an earlier one if there is such a page. -/
def owner (file : Bytes) (u : Vpn) : Nat → Option Nat
  | 0 => none
  | n + 1 =>
    if (segment file n).type = PT_LOAD ∧
        u ∈ reached (pageCount (segment file n).filesz) (segment file n).vaddr then some n
    else owner file u n

/-- The owner among all segments. -/
def pageOwner (file : Bytes) (u : Vpn) : Option Nat := owner file u (fileHeader file).phnum

/-- The physical page that the program finds behind `u` when the file has been laid out: the one that
the owner has taken, or the next free one. -/
def pageBehind (file : Bytes) (A : Layout) (u : Vpn) : Nat :=
  if (pageOwner file u).isSome then (A.leaf u).addr else A.free.headD 0

/-- The pages that become tables are blank, those for the first accesses to zeros among them. -/
structure ImageTables (file : Bytes) (m : Phys) (A : Layout) : Prop where
  loader : ∀ p ∈ A.tables, Blank m.word p
  faults : ∀ i x, Loaded file i → ZeroByte file i x → pageOwner file (vpnOf x) = none →
    ∀ p ∈ A.newTables (vpnOf x), Blank m.word p

/-- When the loader leaves the image: the owner of a page has the permissions of all segments in the
page, and they make a page that the hardware accepts; the page held the bytes of earlier segments
before, and zeros where there should be zeros; and a page can be mapped for the zeros that have
none. -/
structure ImageCond (file : Bytes) (m : Phys) (A : Layout) : Prop where
  tables : ImageTables file m A
  flags : ∀ i u k, Loaded file i → FilePage file i u → pageOwner file u = some k →
    requestOk (flagConvert (segment file k).flags ||| PTE_U) ∧ ∀ q ∈ [PTE_R, PTE_W, PTE_X],
      flagConvert (segment file i).flags &&& q ≠ 0 → flagConvert (segment file k).flags &&& q ≠ 0
  bytes : ∀ i x k, Loaded file i → FileByte file i x → pageOwner file (vpnOf x) = some k → i < k →
    some (m.byteAt (pageBehind file A (vpnOf x) + x % PAGE_SIZE)) =
      file[(segment file i).offset + (x - (segment file i).vaddr)]?
  zeros : ∀ i x, Loaded file i → ZeroByte file i x →
    m.byteAt (pageBehind file A (vpnOf x) + x % PAGE_SIZE) = 0
  room : ∀ i x, Loaded file i → ZeroByte file i x → pageOwner file (vpnOf x) = none →
    A.needs (vpnOf x) < A.free.length ∧ (A.leaf (vpnOf x)).hi = 0

section Bytes

variable {file : Bytes} {i n x : Nat} {u : Vpn}

theorem FileByte.page (h : FileByte file i x) : FilePage file i (vpnOf x) := ⟨x, h.1, h.2, rfl⟩

theorem FileByte.memByte (h : FileByte file i x) (hfile : ElfFile file) (hi : Loaded file i) :
    MemByte file i x := ⟨h.1, Nat.lt_of_lt_of_le h.2 (Nat.add_le_add_left (hfile.filesz i hi) _)⟩

theorem ZeroByte.memByte (h : ZeroByte file i x) : MemByte file i x :=
  ⟨Nat.le_trans (Nat.le_add_right _ _) h.1, h.2⟩

theorem MemByte.user (h : MemByte file i x) (hfile : ElfFile file) (hi : Loaded file i) :
    USER_START ≤ x ∧ x ≤ USER_END := by
  have := hfile.start i hi
  have := hfile.stop i hi
  unfold MemByte at h
  omega

theorem owner_succ : owner file u (n + 1) = if (segment file n).type = PT_LOAD ∧
    u ∈ reached (pageCount (segment file n).filesz) (segment file n).vaddr then some n
    else owner file u n := rfl

theorem owner_cases {k : Nat} (h : owner file u n = some k) : k < n ∧
    (segment file k).type = PT_LOAD ∧
    u ∈ reached (pageCount (segment file k).filesz) (segment file k).vaddr := by
  induction n with
  | zero => cases h
  | succ n ih =>
    unfold owner at h
    split at h
    · next hthis =>
      obtain rfl := Option.some.inj h
      exact ⟨Nat.lt_succ_self _, hthis⟩
    · obtain ⟨hlt, hrest⟩ := ih h
      exact ⟨Nat.lt_succ_of_lt hlt, hrest⟩

theorem ElfFile.end_le (hfile : ElfFile file) (hi : Loaded file i) :
    (segment file i).vaddr + (segment file i).filesz ≤ USER_END := by
  have := hfile.filesz i hi
  have := hfile.stop i hi
  omega

/-- The owner of a page has a byte in it. -/
theorem pageOwner_loaded {k : Nat} (hfile : ElfFile file) (h : pageOwner file u = some k) :
    Loaded file k ∧ FilePage file k u := by
  obtain ⟨hlt, htype, hu⟩ := owner_cases h
  have hk : Loaded file k := ⟨hlt, htype⟩
  exact ⟨hk, (inRange_iff (hfile.end_le hk)).mpr (Or.inl hu)⟩

theorem mem_segmentsFrom {seg : Phdr × Bytes} (h : seg ∈ segmentsFrom file n i) :
    ∃ j < i + n, (segment file j).type = PT_LOAD ∧ seg = (segment file j, segmentBytes file j) := by
  induction n generalizing i with
  | zero => cases h
  | succ n ih =>
    have hrest : seg ∈ segmentsFrom file n (i + 1) → ∃ j < i + (n + 1),
        (segment file j).type = PT_LOAD ∧ seg = (segment file j, segmentBytes file j) := by
      intro h
      obtain ⟨j, hj, hseg⟩ := ih h
      exact ⟨j, by omega, hseg⟩
    unfold segmentsFrom at h
    split at h
    · next htype =>
      obtain rfl | h := List.mem_cons.mp h
      · exact ⟨i, by omega, htype, rfl⟩
      · exact hrest h
    · exact hrest h

end Bytes

/-! ## The layout of the file -/

/-- The flags of the pages of a segment. -/
def segmentFlags (file : Bytes) (i : Nat) : BitVec 8 :=
  withADV (flagConvert (segment file i).flags ||| PTE_U)

/-- The byte of physical memory behind `x`. -/
def place (A : Layout) (x : Nat) : Nat := (A.leaf (vpnOf x)).addr + x % PAGE_SIZE

/-- A layout after the first `n` program headers, with `A₀` as the one at the beginning. A page has
the flags of its owner, and the bytes of its owner and of the segments after it that have got into
the same page. -/
structure LoadedTo (file : Bytes) (A₀ A : Layout) (n : Nat) : Prop where
  full : ∀ i < n, Loaded file i → (segmentBytes file i).length = (segment file i).filesz
  owned : ∀ i < n, Loaded file i → ∀ u, FilePage file i u → owner file u n ≠ none
  vacant : ∀ u, owner file u n = none → A.leaf u = A₀.leaf u
  flags : ∀ u k, owner file u n = some k →
    (A.leaf u).flags = segmentFlags file k ∧ (A.leaf u).hi = 0
  bytes : ∀ i < n, Loaded file i → ∀ x k, FileByte file i x → owner file (vpnOf x) n = some k →
    k ≤ i → A.wrote (place A x) = (segmentBytes file i)[x - (segment file i).vaddr]?
  old : ∀ x k, USER_START ≤ x ∧ x ≤ USER_END → owner file (vpnOf x) n = some k →
    (∀ i, k ≤ i → i < n → Loaded file i → ¬FileByte file i x) → A.wrote (place A x) = none

section Layout

variable {file : Bytes} {A₀ A B : Layout} {n : Nat} {base : Nat} {o : Phys} {l : List Nat}

theorem LoadedTo.has_V (h : LoadedTo file A₀ A n) {u : Vpn} {k : Nat} (hu : owner file u n = some k) :
    (A.leaf u).has PTE_V := by
  unfold Pte.has
  rw [(h.flags u k hu).1]
  exact has_V_withADV _

/-- A program header that is not loaded. -/
theorem LoadedTo.skip (h : LoadedTo file A₀ A n) (hn : (segment file n).type ≠ PT_LOAD) :
    LoadedTo file A₀ A (n + 1) := by
  have hlt : ∀ {i}, i < n + 1 → Loaded file i → i < n := by
    intro i hi hload
    refine Nat.lt_of_le_of_ne (Nat.le_of_lt_succ hi) ?_
    rintro rfl
    exact hn hload.2
  have howner : ∀ u, owner file u (n + 1) = owner file u n := fun u =>
    if_neg fun hthis => hn hthis.1
  refine ⟨fun i hi hload => h.full i (hlt hi hload) hload, fun i hi hload u hu => ?_, fun u hu => ?_,
    fun u k hu => ?_, fun i hi hload x k hx hu hk => ?_, fun x k hx hu hnone => ?_⟩
  · rw [howner]
    exact h.owned i (hlt hi hload) hload u hu
  · exact h.vacant u (howner u ▸ hu)
  · exact h.flags u k (howner u ▸ hu)
  · exact h.bytes i (hlt hi hload) hload x k hx (howner _ ▸ hu) hk
  · exact h.old x k hx (howner _ ▸ hu) fun i hki hi => hnone i hki (Nat.lt_succ_of_lt hi)

/-- A segment that is loaded. -/
theorem LoadedTo.extend (h : LoadedTo file A₀ A n) (hfile : ElfFile file) (hn : Loaded file n)
    (hempty : ∀ x, USER_START ≤ x ∧ x ≤ USER_END → (A₀.leaf (vpnOf x)).has PTE_V = false)
    (hfull : (segmentBytes file n).length = (segment file n).filesz)
    (hfill : Layout.Filled A B (reached (pageCount (segment file n).filesz) (segment file n).vaddr)
      (segment file n).vaddr (segmentBytes file n) (flagConvert (segment file n).flags ||| PTE_U)) :
    LoadedTo file A₀ B (n + 1) := by
  generalize hvs : reached (pageCount (segment file n).filesz) (segment file n).vaddr = vs at hfill
  have howner : ∀ u, owner file u (n + 1) = if u ∈ vs then some n else owner file u n := by
    intro u
    rw [owner_succ, hvs]
    simp only [hn.2, true_and]
  have hnew : ∀ u ∈ vs, owner file u (n + 1) = some n := fun u hu => by rw [howner, if_pos hu]
  have hold : ∀ u ∉ vs, owner file u (n + 1) = owner file u n := fun u hu => by rw [howner, if_neg hu]
  have hrange : ∀ x, (segment file n).vaddr ≤ x ∧
      x < (segment file n).vaddr + (segmentBytes file n).length ↔ FileByte file n x := by
    intro x
    rw [hfull]
    rfl
  -- every page with a flag has an owner
  have hV : ∀ u k, owner file u (n + 1) = some k → (B.leaf u).has PTE_V := by
    intro u k hu
    by_cases hmem : u ∈ vs
    · unfold Pte.has
      rw [hfill.flags u hmem]
      exact has_V_withADV _
    · rw [hfill.others u hmem]
      exact h.has_V (hold u hmem ▸ hu)
  refine ⟨fun i hi hload => ?_, fun i hi hload u hu => ?_, fun u hu => ?_, fun u k hu => ?_,
    fun i hi hload x k hx hu hk => ?_, fun x k hx hu hnone => ?_⟩
  · obtain hi | rfl := Nat.lt_succ_iff_lt_or_eq.mp hi
    · exact h.full i hi hload
    · exact hfull
  · by_cases hmem : u ∈ vs
    · rw [hnew u hmem]
      exact nofun
    rw [hold u hmem]
    obtain hi | rfl := Nat.lt_succ_iff_lt_or_eq.mp hi
    · exact h.owned i hi hload u hu
    · -- the loop has missed the page, but its bytes have got to it
      intro hnone
      obtain ⟨x, hx, hlt, rfl⟩ := hu
      have hbyte : FileByte file i x := ⟨hx, hlt⟩
      have hmapped := hfill.mapped (x - (segment file i).vaddr) (by rw [hfull]; omega)
      rw [Nat.add_sub_of_le hx, hfill.others _ hmem, h.vacant _ hnone,
        hempty x ((hbyte.memByte hfile hload).user hfile hload)] at hmapped
      cases hmapped.1
  · by_cases hmem : u ∈ vs
    · rw [hnew u hmem] at hu
      cases hu
    · rw [hfill.others u hmem]
      exact h.vacant u (hold u hmem ▸ hu)
  · by_cases hmem : u ∈ vs
    · rw [hnew u hmem] at hu
      obtain rfl := Option.some.inj hu
      -- a byte has been stored to the page
      obtain ⟨x, hx, hlt, rfl⟩ := (inRange_iff (hfile.end_le hn)).mpr (Or.inl (hvs ▸ hmem))
      have hmapped := hfill.mapped (x - (segment file n).vaddr) (by rw [hfull]; omega)
      rw [Nat.add_sub_of_le hx] at hmapped
      exact ⟨hfill.flags _ hmem, hmapped.2⟩
    · rw [hfill.others u hmem]
      exact h.flags u k (hold u hmem ▸ hu)
  · have huser := (hx.memByte hfile hload).user hfile hload
    have hwrote := hfill.wrote x huser (hV _ k hu)
    unfold place
    rw [hwrote]
    obtain hi | rfl := Nat.lt_succ_iff_lt_or_eq.mp hi
    · have hnot : ¬FileByte file n x := fun hx' => Nat.ne_of_lt hi
        (hfile.disjoint i n x hload hn (hx.memByte hfile hload) (hx'.memByte hfile hn))
      have hmem : vpnOf x ∉ vs := by
        intro hmem
        rw [hnew _ hmem] at hu
        have := Option.some.inj hu
        omega
      rw [if_neg ((hrange x).not.mpr hnot), if_neg hmem]
      exact h.bytes i hi hload x k hx (hold _ hmem ▸ hu) hk
    · rw [if_pos ((hrange x).mpr hx)]
  · have hwrote := hfill.wrote x hx (hV _ k hu)
    unfold place
    rw [hwrote]
    have hkn : k ≤ n := Nat.le_of_lt_succ (owner_cases hu).1
    rw [if_neg ((hrange x).not.mpr (hnone n hkn (Nat.lt_succ_self n) hn))]
    split
    · rfl
    · next hmem =>
      exact h.old x k hx (hold _ hmem ▸ hu) fun i hki hi => hnone i hki (Nat.lt_succ_of_lt hi)

/-- The loop over the program headers. Induction on those that are left. -/
theorem LoadedTo.loop {i : Nat} (hfile : ElfFile file) (hpool : Pool base o l)
    (hempty : ∀ x, USER_START ≤ x ∧ x ≤ USER_END → (A₀.leaf (vpnOf x)).has PTE_V = false)
    (hfull : ∀ j, Loaded file j → (segmentBytes file j).length = (segment file j).filesz)
    (hn : i + n = (fileHeader file).phnum) (h : LoadedTo file A₀ A i) (hown : A.Own l)
    (halive : ((segmentsFrom file n i).foldl lay A).alive = true) :
    LoadedTo file A₀ ((segmentsFrom file n i).foldl lay A) (fileHeader file).phnum ∧
      ((segmentsFrom file n i).foldl lay A).Own l := by
  induction n generalizing i A with
  | zero => exact ⟨hn ▸ h, hown⟩
  | succ n ih =>
    unfold segmentsFrom at halive ⊢
    split at halive
    · next htype =>
      rw [if_pos htype]
      have hi : Loaded file i := ⟨by omega, htype⟩
      obtain ⟨hown', hfill⟩ := hown.segment hpool (hfile.start i hi) (hfile.end_le hi)
        (length_slice_le _ _ _) (alive_of_foldl_lay halive)
      exact ih (by omega) (h.extend hfile hi hempty (hfull i hi) hfill) hown' halive
    · next htype =>
      rw [if_neg htype]
      exact ih (by omega) (h.skip htype) hown halive

end Layout

/-! ## The plan of the file -/

section Plan

variable {exe : Exe ω σ} {io : ω} {stack : Stack} {file : Bytes} {s₀ s : σ}

/-- A count that passes is the size. -/
theorem length_segmentBytes {i : Nat}
    (h : ¬u64 ((segmentBytes file i).length : Int) < (segment file i).filesz) :
    (segmentBytes file i).length = (segment file i).filesz := by
  have hle : (segmentBytes file i).length ≤ (segment file i).filesz := length_slice_le _ _ _
  have hlt : (segment file i).filesz < 2 ^ 64 := field_lt _ 32 8
  have heq : u64 ((segmentBytes file i).length : Int) = (segmentBytes file i).length :=
    u64_eq rfl (by omega)
  omega

/-- Whoever serves the file, its segments are what is loaded. Induction on the program headers left. -/
theorem planPhdrs_served {n i : Nat} (hserve : Serves exe io file s₀) (hfile : ElfFile file)
    (hn : i + n = (fileHeader file).phnum)
    (hresult : 0 ≤ (planPhdrs exe io stack (fileHeader file) n i s).result) :
    (planPhdrs exe io stack (fileHeader file) n i s).segments = segmentsFrom file n i ∧
      ∀ j, i ≤ j → Loaded file j → (segmentBytes file j).length = (segment file j).filesz := by
  induction n generalizing i s with
  | zero => exact ⟨rfl, fun j hj hload => absurd hload.1 (by omega)⟩
  | succ n ih =>
    obtain ⟨hcount, hbytes⟩ := hserve.read (phdrPos (fileHeader file) i) PHDR_SIZE s
    have hph : phdr (patch (stack.phdr i) 0 (phdrRead exe io (fileHeader file) i s).2.1) =
        segment file i := by
      unfold phdrRead
      rw [hbytes]
      exact phdr_patch (Nat.le_of_eq (hfile.phdrs i (by omega)).symm)
    have hread := hserve.read (segment file i).offset (segment file i).filesz
      (phdrRead exe io (fileHeader file) i s).2.2
    unfold segmentsFrom
    by_cases htype : (segment file i).type = PT_LOAD
    · obtain ⟨heq, hshort, hresult⟩ := planPhdrs_load hph htype hresult
      obtain ⟨hsegments, hfull⟩ := ih (by omega) hresult
      rw [hread.1] at hshort
      rw [if_pos htype, heq, hread.2, hsegments]
      refine ⟨rfl, fun j hj hload => ?_⟩
      obtain rfl | hne := eq_or_ne j i
      · exact length_segmentBytes hshort
      · exact hfull j (by omega) hload
    · obtain ⟨heq, hresult⟩ := planPhdrs_skip hph htype hresult
      obtain ⟨hsegments, hfull⟩ := ih (by omega) hresult
      rw [if_neg htype, heq]
      refine ⟨hsegments, fun j hj hload => hfull j ?_ hload⟩
      have hne : j ≠ i := by
        rintro rfl
        exact htype hload.2
      omega

theorem plan_served (hserve : Serves exe io file s) (hfile : ElfFile file)
    (hresult : (plan exe io stack s).result = 0) :
    (plan exe io stack s).segments = segmentsFrom file (fileHeader file).phnum 0 ∧
      (plan exe io stack s).entry = (fileHeader file).entry ∧
      ∀ j, Loaded file j → (segmentBytes file j).length = (segment file j).filesz := by
  have hlength := hserve.start.1
  have hbytes := hserve.start.2
  unfold plan at hresult ⊢
  dsimp only at hresult ⊢
  generalize exe.readFull io EHDR_SIZE s = r at *
  obtain ⟨count, bytes, s'⟩ := r
  obtain rfl : count = _ := hlength
  obtain rfl : bytes = _ := hbytes
  dsimp only at hresult ⊢
  by_cases hneg : ((slice file 0 EHDR_SIZE).length : Int) < 0
  · omega
  rw [if_neg hneg] at hresult ⊢
  by_cases hshort : ((slice file 0 EHDR_SIZE).length : Int) < EHDR_SIZE
  · rw [if_pos hshort] at hresult
    exact absurd hresult (by show ¬(-DATA_SHORTAGE : Int) = 0; decide)
  have hheader : ehdr (patch stack.ehdr 0 (slice file 0 EHDR_SIZE)) = fileHeader file :=
    ehdr_patch (by omega)
  rw [if_neg hshort, hheader] at hresult ⊢
  by_cases hcheck : checkEhdr (fileHeader file) < 0
  · rw [if_pos hcheck] at hresult
    have hresult : checkEhdr (fileHeader file) = 0 := hresult
    omega
  rw [if_neg hcheck] at hresult ⊢
  by_cases hloop : (planPhdrs exe io stack (fileHeader file) (fileHeader file).phnum 0 s').result < 0
  · rw [if_pos hloop] at hresult
    have hresult : (planPhdrs exe io stack (fileHeader file) (fileHeader file).phnum 0 s').result = 0 :=
      hresult
    omega
  rw [if_neg hloop]
  obtain ⟨hsegments, hfull⟩ := planPhdrs_served hserve hfile (Nat.zero_add _) (Int.not_lt.mp hloop)
  exact ⟨hsegments, rfl, fun j => hfull j (Nat.zero_le j)⟩

end Plan

/-! ## The result -/

theorem flagConvert_cases (flags : Nat) : flagConvert flags ∈
    [0, PTE_X, PTE_W, PTE_X ||| PTE_W, PTE_R, PTE_X ||| PTE_R, PTE_W ||| PTE_R,
      PTE_X ||| PTE_W ||| PTE_R] := by
  unfold flagConvert
  split
  · split
    · split
      · decide
      · decide
    · split
      · decide
      · decide
  · split
    · split
      · decide
      · decide
    · split
      · decide
      · decide

/-- A page has `PTE_U` and the permissions of its segment. -/
theorem segmentFlags_has (file : Bytes) (i : Nat) : segmentFlags file i &&& PTE_U ≠ 0 ∧
    ∀ q ∈ [PTE_R, PTE_W, PTE_X],
      (segmentFlags file i &&& q ≠ 0 ↔ flagConvert (segment file i).flags &&& q ≠ 0) := by
  unfold segmentFlags
  have hcases := flagConvert_cases (segment file i).flags
  generalize flagConvert (segment file i).flags = f at hcases ⊢
  revert f
  decide

section Final

variable {file : Bytes} {base root : Nat} {o m : Phys} {l : List Nat} {A : Layout}

/-- There are no pages of the user. -/
def NoUserPages (m : Phys) (root : Nat) : Prop := ∀ x, USER_START ≤ x ∧ x ≤ USER_END →
  (leafOf m.word root (vpnOf x)).has PTE_V = false

/-- Memory when all program headers have been loaded. -/
structure AllLoaded (file : Bytes) (base root : Nat) (l : List Nat) (o m : Phys) (A : Layout) :
    Prop where
  elf : ElfFile file
  empty : NoUserPages o root
  laid : Laid base root l o m A
  alive : A.alive = true
  apart : Apart o root A
  own : A.Own l
  loaded : LoadedTo file (o.layout root l) A (fileHeader file).phnum

variable (h : AllLoaded file base root l o m A)

include h

/-- A page that has an owner is mapped if the hardware accepts the flags. -/
theorem AllLoaded.mapping {x k : Nat} (hk : pageOwner file (vpnOf x) = some k) :
    (A.leaf (vpnOf x)).mapping =
      if requestOk (flagConvert (segment file k).flags ||| PTE_U) then
        some ((A.leaf (vpnOf x)).ppn, segmentFlags file k) else none :=
  mapping_of_request (h.loaded.flags _ k hk).1 (h.loaded.flags _ k hk).2

theorem AllLoaded.access {x k : Nat} (hk : pageOwner file (vpnOf x) = some k)
    (hok : requestOk (flagConvert (segment file k).flags ||| PTE_U)) :
    A.access x 0 =
      some (pageBehind file A (vpnOf x) + x % PAGE_SIZE) := by
  unfold Layout.access pageBehind Pte.addr PAGE_SIZE
  rw [h.mapping hk, if_pos hok, hk]
  dsimp only
  rw [if_pos Option.isSome_some, show segmentFlags file k &&& 0 = 0 from BitVec.and_zero, if_pos rfl,
    show 2 ^ 12 = 4096 from rfl]

/-- What is behind the bytes of a segment. -/
theorem AllLoaded.byte_iff {i x k : Nat} (hi : Loaded file i) (hx : FileByte file i x)
    (hk : pageOwner file (vpnOf x) = some k)
    (hok : requestOk (flagConvert (segment file k).flags ||| PTE_U)) :
    m.byteBehind root x = file[(segment file i).offset + (x - (segment file i).vaddr)]? ↔
      (i < k → some (o.byteAt (pageBehind file A (vpnOf x) + x % PAGE_SIZE)) =
        file[(segment file i).offset + (x - (segment file i).vaddr)]?) := by
  have huser := (hx.memByte h.elf hi).user h.elf hi
  have hplace : place A x =
      pageBehind file A (vpnOf x) + x % PAGE_SIZE := by
    unfold pageBehind
    rw [hk]
    rfl
  rw [h.laid.byteBehind_eq h.apart huser, h.access hk hok, Option.map_some]
  unfold Layout.byteOf
  by_cases hki : k ≤ i
  · -- the segment has stored it after the page was mapped
    have hlt : x - (segment file i).vaddr < (segment file i).filesz := by
      have := hx.1
      have := hx.2
      omega
    have hlen : x - (segment file i).vaddr < (segmentBytes file i).length := by
      rw [h.loaded.full i hi.1 hi]
      exact hlt
    have hget : (segmentBytes file i)[x - (segment file i).vaddr]? =
        file[(segment file i).offset + (x - (segment file i).vaddr)]? := by
      unfold segmentBytes
      rw [getElem?_slice, if_pos hlt]
    have hwrote := h.loaded.bytes i hi.1 hi x k hx hk hki
    rw [← hplace, hwrote, ← hget, List.getElem?_eq_getElem hlen, Option.getD_some]
    exact ⟨fun _ hik => absurd hik (Nat.not_lt.mpr hki), fun _ => rfl⟩
  · -- the page was mapped later, and nobody has stored there
    have hwrote := h.loaded.old x k huser hk fun j hkj hj hjload hx' => by
      have := h.elf.disjoint i j x hi hjload (hx.memByte h.elf hi) (hx'.memByte h.elf hjload)
      omega
    rw [← hplace, hwrote]
    exact ⟨fun heq _ => heq, fun himp => himp (Nat.not_le.mp hki)⟩

/-- Nobody has stored where zeros should be. -/
theorem AllLoaded.zero_old {i x k : Nat} (hi : Loaded file i) (hx : ZeroByte file i x)
    (hk : pageOwner file (vpnOf x) = some k) :
    A.wrote (pageBehind file A (vpnOf x) + x % PAGE_SIZE) = none := by
  have hold := h.loaded.old x k (hx.memByte.user h.elf hi) hk fun j _ _ hjload hx' => by
    obtain rfl := h.elf.disjoint i j x hi hjload hx.memByte (hx'.memByte h.elf hjload)
    exact absurd hx'.2 (Nat.not_lt.mpr hx.1)
  unfold pageBehind
  rw [hk]
  exact hold

/-- A page without an owner is mapped on the first access. -/
theorem AllLoaded.reach_vacant {x : Nat} (hx : USER_START ≤ x ∧ x ≤ USER_END)
    (hnone : pageOwner file (vpnOf x) = none) :
    A.reach x 0 = (A.map (vpnOf x) (PTE_R ||| PTE_W ||| PTE_U),
      if A.needs (vpnOf x) < A.free.length ∧ (A.leaf (vpnOf x)).hi = 0 then
        some (pageBehind file A (vpnOf x) + x % PAGE_SIZE) else none) := by
  have hnoV : (A.leaf (vpnOf x)).has PTE_V = false := by
    rw [h.loaded.vacant _ hnone]
    exact h.empty x hx
  have hacc : A.access x 0 = none := by
    cases hacc : A.access x 0 with
    | none => rfl
    | some pa =>
      rw [(Layout.access_eq_some hacc).1.1] at hnoV
      cases hnoV
  have halive : (A.map (vpnOf x) (PTE_R ||| PTE_W ||| PTE_U)).alive =
      decide (A.needs (vpnOf x) < A.free.length) := by
    unfold Layout.map
    rw [h.alive]
    rfl
  unfold Layout.reach
  rw [hacc]
  dsimp only
  rw [halive]
  congr 1
  by_cases hroom : A.needs (vpnOf x) < A.free.length
  · rw [if_pos (decide_eq_true hroom)]
    obtain ⟨page, rest, hfree⟩ := List.exists_cons_of_length_pos (Nat.zero_lt_of_lt hroom)
    have hpage := h.laid.pool.page page (hfree ▸ List.mem_cons_self)
    have hmapped : (A.map (vpnOf x) (PTE_R ||| PTE_W ||| PTE_U)).leaf (vpnOf x) =
        mapped (A.leaf (vpnOf x)) page (PTE_R ||| PTE_W ||| PTE_U) := by
      unfold Layout.map
      dsimp only
      rw [Function.update_self, hfree]
      rfl
    -- what the flags were before, the page is readable now
    have hmapping := Pte.mapping_of_readable
      (has_V_mapped (A.leaf (vpnOf x)) page (PTE_R ||| PTE_W ||| PTE_U))
      (has_R_mapped (A.leaf (vpnOf x)) page)
    have hhi' : (mapped (A.leaf (vpnOf x)) page (PTE_R ||| PTE_W ||| PTE_U)).hi =
        (A.leaf (vpnOf x)).hi := rfl
    unfold Layout.access pageBehind
    rw [hmapped, hmapping, hnone, hhi']
    by_cases hhi : (A.leaf (vpnOf x)).hi = 0
    · rw [if_pos hhi, if_pos ⟨hroom, hhi⟩, hfree]
      dsimp only
      rw [show ∀ f : BitVec 8, f &&& 0 = 0 from fun _ => BitVec.and_zero, if_pos rfl]
      exact congrArg (fun a => some (a + x % PAGE_SIZE)) hpage.addr_ppn
    · rw [if_neg hhi, if_neg fun hand => hhi hand.2]
  · rw [if_neg (by simpa using hroom), if_neg fun hand => hroom hand.1]

/-- What the first access to zeros finds. -/
theorem AllLoaded.zero_iff {i x : Nat} (htables : ImageTables file o A) (hi : Loaded file i)
    (hx : ZeroByte file i x) (hok : ∀ k, pageOwner file (vpnOf x) = some k →
      requestOk (flagConvert (segment file k).flags ||| PTE_U)) :
    m.firstAccess root x = some 0 ↔
      o.byteAt (pageBehind file A (vpnOf x) + x % PAGE_SIZE) = 0 ∧
        (pageOwner file (vpnOf x) = none →
          A.needs (vpnOf x) < A.free.length ∧ (A.leaf (vpnOf x)).hi = 0) := by
  have huser := hx.memByte.user h.elf hi
  cases hk : pageOwner file (vpnOf x) with
  | some k =>
    have hreach : A.reach x 0 = (A, some (pageBehind file A (vpnOf x) + x % PAGE_SIZE)) := by
      unfold Layout.reach
      rw [h.access hk (hok k hk)]
    rw [h.laid.firstAccess_eq h.apart huser h.alive (by rw [hreach]; exact htables.loader), hreach,
      Option.map_some]
    unfold Layout.byteOf
    rw [h.zero_old hi hx hk, Option.getD_none, Option.some.injEq]
    exact ⟨fun heq => ⟨heq, nofun⟩, fun hand => hand.1⟩
  | none =>
    have hreach := h.reach_vacant huser hk
    rw [h.laid.firstAccess_eq h.apart huser h.alive, hreach]
    · dsimp only
      split
      · next hroom =>
        obtain ⟨page, rest, hfree⟩ := List.exists_cons_of_length_pos (Nat.zero_lt_of_lt hroom.1)
        have hpage : pageBehind file A (vpnOf x) = page := by
          unfold pageBehind
          rw [hk, hfree]
          rfl
        -- a free page: nobody has stored to it
        have hwrote : A.wrote (page + x % PAGE_SIZE) = none := by
          refine h.own.clean _ ?_
          have haligned : page % 2 ^ 12 = 0 :=
            (h.laid.pool.page page (hfree ▸ List.mem_cons_self)).aligned
          have hback : page + x % PAGE_SIZE - (page + x % PAGE_SIZE) % 2 ^ 12 = page := by
            unfold PAGE_SIZE
            omega
          rw [hback, hfree]
          exact List.mem_cons_self
        rw [Option.map_some, hpage]
        unfold Layout.byteOf
        rw [hwrote, Option.getD_none, Option.some.injEq]
        exact ⟨fun heq => ⟨heq, fun _ => hroom⟩, fun hand => hand.1⟩
      · next hroom => exact ⟨nofun, fun hand => absurd (hand.2 rfl) hroom⟩
    · rw [hreach]
      intro p hp
      obtain hp | hp := List.mem_append.mp hp
      · exact htables.loader p hp
      · exact htables.faults i x hi hx hk p hp

/-- The permissions of a page. -/
theorem AllLoaded.flags_iff {i x k : Nat} (hi : Loaded file i) (hx : FileByte file i x)
    (hk : pageOwner file (vpnOf x) = some k) :
    (∃ p, hwWalk m.word root (vpnOf x) = some p ∧ p.2 &&& PTE_U ≠ 0 ∧ ∀ q ∈ [PTE_R, PTE_W, PTE_X],
      (p.2 &&& q ≠ 0 ↔ ∃ j, Loaded file j ∧ FilePage file j (vpnOf x) ∧
        flagConvert (segment file j).flags &&& q ≠ 0)) ↔
      requestOk (flagConvert (segment file k).flags ||| PTE_U) ∧
        ∀ j, Loaded file j → FilePage file j (vpnOf x) → ∀ q ∈ [PTE_R, PTE_W, PTE_X],
          flagConvert (segment file j).flags &&& q ≠ 0 →
            flagConvert (segment file k).flags &&& q ≠ 0 := by
  have huser := (hx.memByte h.elf hi).user h.elf hi
  obtain ⟨h2, h1⟩ := vpnOf_user huser.1 huser.2
  obtain ⟨hkload, hkpage⟩ := pageOwner_loaded h.elf hk
  obtain ⟨hU, hperm⟩ := segmentFlags_has file k
  rw [h.laid.hwWalk_eq h2 h1, h.mapping hk]
  constructor
  · rintro ⟨p, hp, -, hflags⟩
    obtain ⟨hok, hsome⟩ := Option.ite_none_right_eq_some.mp hp
    obtain rfl := Option.some.inj hsome
    exact ⟨hok, fun j hj hju q hq hflag => (hperm q hq).mp ((hflags q hq).mpr ⟨j, hj, hju, hflag⟩)⟩
  · rintro ⟨hok, hall⟩
    refine ⟨_, if_pos hok, hU, fun q hq => ?_⟩
    rw [hperm q hq]
    exact ⟨fun hflag => ⟨k, hkload, hkpage, hflag⟩, fun ⟨j, hj, hju, hflag⟩ => hall j hj hju q hq hflag⟩

/-- A page with bytes of the file has an owner. -/
theorem AllLoaded.owned {i : Nat} {u : Vpn} (hi : Loaded file i) (hu : FilePage file i u) :
    ∃ k, pageOwner file u = some k :=
  Option.ne_none_iff_exists'.mp (h.loaded.owned i hi.1 hi u hu)

theorem AllLoaded.image (hcond : ImageCond file o A) : Image file m root (fileHeader file).entry := by
  refine ⟨rfl, fun i x hi hx => ?_, fun i x hi hx => ?_, fun i u hi hu => ?_⟩
  · obtain ⟨k, hk⟩ := h.owned hi hx.page
    exact (h.byte_iff hi hx hk (hcond.flags i _ k hi hx.page hk).1).mpr (hcond.bytes i x k hi hx hk)
  · refine (h.zero_iff hcond.tables hi hx fun k hk => ?_).mpr ⟨hcond.zeros i x hi hx, hcond.room i x hi hx⟩
    obtain ⟨hkload, hkpage⟩ := pageOwner_loaded h.elf hk
    exact (hcond.flags k _ k hkload hkpage hk).1
  · obtain ⟨k, hk⟩ := h.owned hi hu
    obtain ⟨x, hx, hlt, rfl⟩ := hu
    exact (h.flags_iff hi ⟨hx, hlt⟩ hk).mpr ⟨(hcond.flags i _ k hi ⟨x, hx, hlt, rfl⟩ hk).1,
      fun j hj hju => (hcond.flags j _ k hj hju hk).2⟩

theorem AllLoaded.cond {entry : Nat} (htables : ImageTables file o A)
    (himage : Image file m root entry) : ImageCond file o A := by
  have hflags : ∀ i u k, Loaded file i → FilePage file i u → pageOwner file u = some k →
      requestOk (flagConvert (segment file k).flags ||| PTE_U) ∧ ∀ q ∈ [PTE_R, PTE_W, PTE_X],
        flagConvert (segment file i).flags &&& q ≠ 0 →
          flagConvert (segment file k).flags &&& q ≠ 0 := by
    intro i u k hi hu hk
    have hthis := himage.flags i u hi hu
    obtain ⟨x, hx, hlt, rfl⟩ := hu
    obtain ⟨hok, hall⟩ := (h.flags_iff hi ⟨hx, hlt⟩ hk).mp hthis
    exact ⟨hok, hall i hi ⟨x, hx, hlt, rfl⟩⟩
  have hzeros : ∀ i x, Loaded file i → ZeroByte file i x → _ := fun i x hi hx =>
    (h.zero_iff htables hi hx fun k hk => by
      obtain ⟨hkload, hkpage⟩ := pageOwner_loaded h.elf hk
      exact (hflags k _ k hkload hkpage hk).1).mp (himage.zeros i x hi hx)
  exact ⟨htables, hflags, fun i x k hi hx hk => (h.byte_iff hi hx hk
      (hflags i _ k hi hx.page hk).1).mp (himage.bytes i x hi hx),
    fun i x hi hx => (hzeros i x hi hx).1, fun i x hi hx => (hzeros i x hi hx).2⟩

end Final

section Theorem

variable {exe : Exe ω σ} {io : ω} {stack : Stack} {file : Bytes} {base : Nat} {l : List Nat}
  {b b' : UserSpace σ} {entry : Nat}

/-- The loader returns 0 when the whole file has been loaded. -/
theorem allLoaded (hserve : Serves exe io file b.objs) (hfile : ElfFile file)
    (hpool : Pool base b.mem l) (hspace : Space b.mem.word b.root l)
    (hempty : NoUserPages b.mem b.root)
    (hblank : ∀ p ∈ (fileLayout file b.mem b.root l).tables, Blank b.mem.word p)
    (hload : elfLoad exe stack io b = some (0, entry, b')) :
    b'.root = b.root ∧ entry = (fileHeader file).entry ∧
      AllLoaded file base b.root l b.mem b'.mem (fileLayout file b.mem b.root l) := by
  rw [elfLoad_eq] at hload
  obtain ⟨m, hm, heq⟩ := Option.map_eq_some_iff.mp hload
  obtain ⟨hresult, heq⟩ := Prod.mk.inj heq
  obtain ⟨hentry, rfl⟩ := Prod.mk.inj heq
  obtain ⟨hsegments, hentry', hfull⟩ := plan_served hserve hfile hresult
  rw [hsegments] at hm
  have hnoV : ∀ x, USER_START ≤ x ∧ x ≤ USER_END →
      ((b.mem.layout b.root l).leaf (vpnOf x)).has PTE_V = false := hempty
  have hapart : Apart b.mem b.root (b.mem.layout b.root l) := by
    intro x hx hx' hV
    rw [hnoV x ⟨hx, hx'⟩] at hV
    cases hV
  have hown : (b.mem.layout b.root l).Own l := by
    refine ⟨List.Perm.refl l, fun x hx hV => ?_, fun _ _ => rfl⟩
    rw [hnoV x hx] at hV
    cases hV
  have hstart : LoadedTo file (b.mem.layout b.root l) (b.mem.layout b.root l) 0 :=
    ⟨nofun, nofun, fun _ _ => rfl, nofun, nofun, nofun⟩
  have hinUser : ∀ seg ∈ segmentsFrom file (fileHeader file).phnum 0, InUser seg := by
    intro seg hseg
    obtain ⟨j, hj, htype, rfl⟩ := mem_segmentsFrom hseg
    have hjload : Loaded file j := ⟨by omega, htype⟩
    exact ⟨hfile.start j hjload, hfile.end_le hjload, length_slice_le _ _ _⟩
  obtain ⟨hlays, hapart'⟩ := (laid_layout hpool hspace).segments rfl hapart hinUser hblank
  rw [hm] at hlays
  obtain ⟨hloaded, hown'⟩ :=
    LoadedTo.loop hfile hpool hnoV hfull (Nat.zero_add _) hstart hown hlays.1
  exact ⟨rfl, hentry.symm.trans hentry', hfile, hempty, hlays.2, hlays.1, hapart' hlays.1, hown', hloaded⟩

end Theorem

/-! ## Files -/

/-- A file in memory is served as it is. -/
theorem fileExe_readFrom (file : Bytes) {bufsz n : Nat} {buf : Bytes} (pos : Nat)
    (hn : bufsz ≤ buf.length + n) :
    ((fileExe file).readFrom () bufsz n buf pos).2.1 =
      buf ++ slice file pos (bufsz - buf.length) ∧
    ((fileExe file).readFrom () bufsz n buf pos).1 =
      (buf ++ slice file pos (bufsz - buf.length)).length := by
  induction n generalizing buf pos with
  | zero =>
    rw [show bufsz - buf.length = 0 by omega, slice_zero, List.append_nil]
    exact ⟨rfl, rfl⟩
  | succ n ih =>
    unfold Exe.readFrom
    split
    · have hfits : (slice file pos (bufsz - buf.length)).length ≤ bufsz - buf.length :=
        length_slice_le _ _ _
      have hread : (fileExe file).read () (bufsz - buf.length) pos =
          (((slice file pos (bufsz - buf.length)).length : Int), slice file pos (bufsz - buf.length),
            pos + (slice file pos (bufsz - buf.length)).length) := rfl
      dsimp only
      rw [hread]
      dsimp only
      rw [if_neg (by omega)]
      split
      · next hzero =>
        have hnil : slice file pos (bufsz - buf.length) = [] :=
          List.length_eq_zero_iff.mp (by omega)
        rw [hnil, List.append_nil]
        exact ⟨rfl, rfl⟩
      · -- the next round finds the end of the file, or nothing to do
        obtain ⟨hbytes, hcount⟩ := @ih (buf ++ slice file pos (bufsz - buf.length))
          (pos + (slice file pos (bufsz - buf.length)).length) (by rw [List.length_append]; omega)
        have hrest : slice file (pos + (slice file pos (bufsz - buf.length)).length)
            (bufsz - (buf ++ slice file pos (bufsz - buf.length)).length) = [] := by
          rw [List.length_append]
          unfold slice
          rw [List.length_take, List.length_drop, List.take_eq_nil_iff, List.drop_eq_nil_iff]
          omega
        rw [hrest, List.append_nil] at hbytes hcount
        exact ⟨hbytes, hcount⟩
    · rw [show bufsz - buf.length = 0 by omega, slice_zero, List.append_nil]
      exact ⟨rfl, rfl⟩

theorem fileExe_readFull (file : Bytes) (pos n : Nat) :
    ((fileExe file).readFull () n pos).1 = (slice file pos n).length ∧
      ((fileExe file).readFull () n pos).2.1 = slice file pos n := by
  obtain ⟨hbytes, hcount⟩ := @fileExe_readFrom file n n [] pos (Nat.zero_add n).ge
  exact ⟨hcount, hbytes⟩

theorem fileExe_serves (file : Bytes) : Serves (fileExe file) () file 0 where
  start := fileExe_readFull file 0 EHDR_SIZE
  read pos n _ := fileExe_readFull file pos n

theorem oneByte_phnum (memsz : UInt8) : (fileHeader (oneByte memsz)).phnum = 1 := by
  have heq : slice (oneByte memsz) 0 EHDR_SIZE = headerBytes 1 := by
    unfold oneByte
    rw [slice_append_left _ (by decide)]
    rfl
  unfold fileHeader
  rw [heq]
  decide +kernel

theorem loaded_oneByte {memsz : UInt8} {i : Nat} (h : Loaded (oneByte memsz) i) : i = 0 := by
  have := h.1
  rw [oneByte_phnum] at this
  omega

theorem oneByte_elf : ElfFile (oneByte 1) ∧ ElfFile (oneByte 2) := by
  -- the one program header is looked at
  have hone : ∀ memsz, (phdrBytes (oneByte memsz) 0).length = PHDR_SIZE ∧
      USER_START ≤ (segment (oneByte memsz) 0).vaddr ∧
      (segment (oneByte memsz) 0).filesz ≤ Elf.memsz (oneByte memsz) 0 ∧
      (segment (oneByte memsz) 0).vaddr + Elf.memsz (oneByte memsz) 0 ≤ USER_END →
        ElfFile (oneByte memsz) := by
    rintro memsz ⟨hphdr, hstart, hfilesz, hstop⟩
    refine ⟨fun i hi => ?_, fun i hi => ?_, fun i hi => ?_, fun i hi => ?_, fun i j _ hi hj _ _ => ?_⟩
    · rw [oneByte_phnum] at hi
      obtain rfl : i = 0 := by omega
      exact hphdr
    · rw [loaded_oneByte hi]
      exact hstart
    · rw [loaded_oneByte hi]
      exact hfilesz
    · rw [loaded_oneByte hi]
      exact hstop
    · rw [loaded_oneByte hi, loaded_oneByte hj]
  exact ⟨hone 1 (by decide +kernel), hone 2 (by decide +kernel)⟩

theorem threePages_empty : NoUserPages (threePages 0) 0x80701000 := by
  intro x _
  rw [threePages_leafOf]
  rfl

theorem oneByte_cond : ImageCond (oneByte 1) (threePages 0)
    (fileLayout (oneByte 1) (threePages 0) 0x80701000 [0x80702000, 0x80703000, 0x80704000]) := by
  have hfilesz : (segment (oneByte 1) 0).filesz = 1 := by decide +kernel
  have hmemsz : memsz (oneByte 1) 0 = 1 := by decide +kernel
  have htables : (fileLayout (oneByte 1) (threePages 0) 0x80701000
      [0x80702000, 0x80703000, 0x80704000]).tables = [0x80703000, 0x80704000] := by decide +kernel
  have hzero : ∀ i x, Loaded (oneByte 1) i → ¬ZeroByte (oneByte 1) i x := by
    intro i x hi hx
    obtain rfl := loaded_oneByte hi
    unfold ZeroByte at hx
    omega
  refine ⟨⟨fun p hp => ?_, fun i x hi hx => absurd hx (hzero i x hi)⟩, fun i u k hi hu hk => ?_,
    fun i x k hi hx hk hlt => ?_, fun i x hi hx => absurd hx (hzero i x hi),
    fun i x hi hx => absurd hx (hzero i x hi)⟩
  · rw [htables] at hp
    exact threePages_blank p (List.mem_cons_of_mem _ hp)
  · obtain rfl := loaded_oneByte (pageOwner_loaded oneByte_elf.1 hk).1
    obtain rfl := loaded_oneByte hi
    exact ⟨by decide +kernel, fun _ _ hflag => hflag⟩
  · rw [loaded_oneByte (pageOwner_loaded oneByte_elf.1 hk).1] at hlt
    omega

/-- A program with two segments of one byte in one page. -/
def twoInPage : Bytes := headerBytes 2 ++ oneBytePhdr 0 0 1 ++ oneBytePhdr 1 8 1

/-- Four free pages, with zeros behind their links. -/
def fourPages : Phys where
  word a :=
    if a = 0x80702000 then 0x80703000
    else if a = 0x80703000 then 0x80704000
    else if a = 0x80704000 then 0x80705000
    else 0
  freeList := 0x80702000
  heapStart := 0
  heapEnd := 0

end Elf

end RiscvKernel
