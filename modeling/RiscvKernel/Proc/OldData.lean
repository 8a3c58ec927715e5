import RiscvKernel.Proc.Image

/-!
# Old data in the pages of a process

`elf_load` and `memory_handle_page_fault` map pages of the free list as they are. A program can read
what a process before it has left there: behind the end of a segment, and in every page that is mapped
on a fault.

* `Touch`, `observe`: the accesses of a program, and the values that it reads.
* `Layout.oldLoads`: the bytes that it reads where nobody has stored since their page was free. They
  are known from the layout, before the program runs.
* `user_reads_same_iff`: two runs that differ in their free pages read the same values if and only if
  these bytes are the same.
-/

namespace RiscvKernel

open Lib Phys

/-! ## Accesses of the program -/

/-- An access of the user program. -/
inductive Touch where
  | load (va : Nat)
  | fetch (va : Nat)
  | store (va : Nat) (b : UInt8)

namespace Touch

def va : Touch → Nat
  | load va => va
  | fetch va => va
  | store va _ => va

/-- The flags that it needs. -/
def need : Touch → BitVec 8
  | load _ => PTE_R ||| PTE_U
  | fetch _ => PTE_X ||| PTE_U
  | store _ _ => PTE_W ||| PTE_U

/-- The address is one of the user region. -/
def User (t : Touch) : Prop := USER_START ≤ t.va ∧ t.va ≤ USER_END

end Touch

/-- The values that a program reads, up to a panic. -/
def Phys.observe (root : Nat) : List Touch → Phys → List UInt8
  | [], _ => []
  | t :: ts, m =>
    match m.reach root t.va t.need with
    | none => []
    | some (pa, m) =>
      match t with
      | .store _ b => observe root ts (m.setByte pa b)
      | _ => m.byteAt pa :: observe root ts m

namespace Layout

/-- The layout that the accesses leave. -/
def touches : List Touch → Layout → Layout
  | [], A => A
  | t :: ts, A =>
    match A.reach t.va t.need with
    | (A, none) => A
    | (A, some pa) =>
      match t with
      | .store _ b => touches ts (A.put pa b)
      | _ => touches ts A

/-- The bytes that they read where nobody has stored. -/
def oldLoads : List Touch → Layout → List Nat
  | [], _ => []
  | t :: ts, A =>
    match A.reach t.va t.need with
    | (_, none) => []
    | (A, some pa) =>
      match t with
      | .store _ b => oldLoads ts (A.put pa b)
      | _ => if A.wrote pa = none then pa :: oldLoads ts A else oldLoads ts A

/-- The values that they read, when memory held `o` at the beginning. -/
def reads (o : Phys) : List Touch → Layout → List UInt8
  | [], _ => []
  | t :: ts, A =>
    match A.reach t.va t.need with
    | (_, none) => []
    | (A, some pa) =>
      match t with
      | .store _ b => reads o ts (A.put pa b)
      | _ => A.byteOf o pa :: reads o ts A

variable {A : Layout} {ts : List Touch}

theorem tables_reach (va : Nat) (need : BitVec 8) : A.tables ⊆ (A.reach va need).1.tables := by
  unfold reach
  split
  · exact fun _ hp => hp
  · exact fun _ hp => List.mem_append_left _ hp

theorem tables_touches_cons (hrest : ∀ B : Layout, B.tables ⊆ (B.touches ts).tables) (t : Touch) :
    (A.reach t.va t.need).1.tables ⊆ (A.touches (t :: ts)).tables := by
  intro p hp
  unfold touches
  revert hp
  rcases A.reach t.va t.need with ⟨B, _ | pa⟩
  · exact id
  · cases t with
    | load va => exact fun hp => hrest B hp
    | fetch va => exact fun hp => hrest B hp
    | store va b => exact fun hp => hrest (B.put pa b) hp

theorem tables_touches : A.tables ⊆ (A.touches ts).tables := by
  induction ts generalizing A with
  | nil => exact fun _ hp => hp
  | cons t ts ih => exact fun p hp => tables_touches_cons (fun _ => ih) t (tables_reach t.va t.need hp)

/-- The layout says where the program reads; what memory held at the beginning only matters where
nobody has stored. Induction on the accesses left. -/
theorem reads_eq_iff (o₁ o₂ : Phys) : A.reads o₁ ts = A.reads o₂ ts ↔
    ∀ pa ∈ A.oldLoads ts, o₁.byteAt pa = o₂.byteAt pa := by
  induction ts generalizing A with
  | nil => exact ⟨fun _ => nofun, fun _ => rfl⟩
  | cons t ts ih =>
    unfold reads oldLoads
    rcases A.reach t.va t.need with ⟨B, _ | pa⟩
    · exact ⟨fun _ => nofun, fun _ => rfl⟩
    -- a load and a fetch read the byte
    have hread : B.byteOf o₁ pa :: B.reads o₁ ts = B.byteOf o₂ pa :: B.reads o₂ ts ↔
        ∀ x ∈ (if B.wrote pa = none then pa :: B.oldLoads ts else B.oldLoads ts),
          o₁.byteAt x = o₂.byteAt x := by
      rw [List.cons.injEq, ih]
      unfold byteOf
      cases B.wrote pa with
      | none =>
        rw [if_pos rfl, List.forall_mem_cons]
        exact Iff.rfl
      | some b =>
        rw [if_neg nofun]
        exact and_iff_right rfl
    cases t with
    | load va => exact hread
    | fetch va => exact hread
    | store va b => exact ih

end Layout

namespace Phys

variable {base root : Nat} {l : List Nat} {o m : Phys} {A : Layout} {ts : List Touch}

/-- **A program** follows the layout. Induction on the accesses left. -/
theorem Laid.observe (h : Laid base root l o m A) (halive : A.alive = true) (hapart : Apart o root A)
    (hts : ∀ t ∈ ts, t.User) (hblank : ∀ p ∈ (A.touches ts).tables, Blank o.word p) :
    m.observe root ts = A.reads o ts := by
  induction ts generalizing m A with
  | nil => rfl
  | cons t ts ih =>
    obtain ⟨hthis, hrest⟩ := List.forall_mem_cons.mp hts
    obtain ⟨hfst, hsome⟩ := h.reach halive hapart hthis.1 hthis.2 t.need fun p hp =>
      hblank p (Layout.tables_touches_cons (fun _ => Layout.tables_touches) t hp)
    unfold Phys.observe Layout.reads
    unfold Layout.touches at hblank
    cases hreach : m.reach root t.va t.need with
    | none =>
      rw [hreach] at hfst
      rcases hA : A.reach t.va t.need with ⟨B, _ | pa⟩
      · rfl
      · rw [hA] at hfst
        cases hfst
    | some r =>
      obtain ⟨halive', hlaid, hapart', hacc⟩ := hsome r.1 r.2 hreach
      rw [hreach] at hfst
      rcases hA : A.reach t.va t.need with ⟨B, _ | pa⟩
      · rw [hA] at hfst
        cases hfst
      rw [hA] at hfst halive' hlaid hapart' hacc hblank
      obtain rfl : r.1 = pa := Option.some.inj hfst
      obtain ⟨hnot, hfree⟩ := hapart'.of_access hlaid hthis.1 hthis.2 hacc
      cases t with
      | load va => exact congrArg₂ List.cons (hlaid.bytes _ hnot) (ih hlaid halive' hapart' hrest hblank)
      | fetch va => exact congrArg₂ List.cons (hlaid.bytes _ hnot) (ih hlaid halive' hapart' hrest hblank)
      | store va b => exact ih (hlaid.put b hnot hfree) halive' hapart' hrest hblank

end Phys

namespace Elf

variable {ω σ : Type} (exe : Exe ω σ) (io : ω) (stack : Stack)

/-! ## Two runs -/

/-- Two states of the kernel that differ in the contents of the free pages `l` only. The pages are
linked in the same order, since that is where the links are. -/
structure DifferInFree (base : Nat) (l : List Nat) (b₁ b₂ : UserSpace σ) : Prop where
  root : b₂.root = b₁.root
  objs : b₂.objs = b₁.objs
  left : Pool base b₁.mem l
  right : Pool base b₂.mem l
  words : ∀ a, a - a % 2 ^ 12 ∉ l → b₂.mem.word a = b₁.mem.word a

/-- The layout that the loader leaves, with `l` as the free pages. -/
def loadLayout (b : UserSpace σ) (l : List Nat) : Layout :=
  (plan exe io stack b.objs).segments.foldl lay (b.mem.layout b.root l)

section Differ

variable {exe io stack} {base : Nat} {l : List Nat} {b₁ b₂ c₁ : UserSpace σ} {entry : Nat}

/-- The tables are the same in both states. -/
theorem DifferInFree.sameTables (h : DifferInFree base l b₁ b₂)
    (hspace : Space b₁.mem.word b₁.root l) : SameTables b₁.mem b₂.mem b₁.root := by
  rintro a ⟨n, t, ht, rfl⟩
  exact h.words a (hspace.used n _ ht)

theorem DifferInFree.layout_eq (h : DifferInFree base l b₁ b₂)
    (hspace : Space b₁.mem.word b₁.root l) :
    b₂.mem.layout b₁.root l = b₁.mem.layout b₁.root l := by
  have hsame := h.sameTables hspace
  unfold Phys.layout
  rw [show leafOf b₂.mem.word b₁.root = leafOf b₁.mem.word b₁.root from
    funext (hsame.leafOf_eq hspace.aligned)]
  simp only [hsame.tableAt_eq hspace.aligned]

end Differ

/-- Four free pages behind an empty root. The first and the last one hold `v` and `w` in their second
words. -/
def usedPages (v w : BitVec 64) : Phys where
  word a :=
    if a = 0x80702000 then 0x80703000
    else if a = 0x80703000 then 0x80704000
    else if a = 0x80704000 then 0x80705000
    else if a = 0x80702008 then v
    else if a = 0x80705008 then w
    else 0
  freeList := 0x80702000
  heapStart := 0
  heapEnd := 0

theorem usedPages_root (v w : BitVec 64) (i : Fin 512) :
    (RiscvKernel.entry (usedPages v w).word 0x80701000 i).has PTE_V = false := by
  have hzero : (usedPages v w).word (0x80701000 + 8 * i) = 0 := by
    have := i.isLt
    unfold usedPages
    dsimp only
    rw [if_neg (by omega), if_neg (by omega), if_neg (by omega), if_neg (by omega),
      if_neg (by omega)]
  unfold RiscvKernel.entry
  rw [hzero]
  decide

theorem usedPages_pool (v w : BitVec 64) : Pool 0x80702000 (usedPages v w)
    [0x80702000, 0x80703000, 0x80704000, 0x80705000] := by
  refine ⟨⟨rfl, by decide, rfl, by decide, rfl, by decide, rfl, by decide, rfl⟩, by decide, ?_, ?_⟩
  · intro p hp
    simp only [List.mem_cons, List.not_mem_nil, or_false] at hp
    rcases hp with rfl | rfl | rfl | rfl
    · exact ⟨by decide, by decide, by decide⟩
    · exact ⟨by decide, by decide, by decide⟩
    · exact ⟨by decide, by decide, by decide⟩
    · exact ⟨by decide, by decide, by decide⟩
  · show 0 - 0 < PAGE_SIZE
    decide

theorem usedPages_space (v w : BitVec 64) : Space (usedPages v w).word 0x80701000
    [0x80702000, 0x80703000, 0x80704000, 0x80705000] :=
  space_of_empty_root (by decide) (by decide) (usedPages_root v w)

theorem usedPages_differ (v w v' w' : BitVec 64) :
    DifferInFree 0x80702000 [0x80702000, 0x80703000, 0x80704000, 0x80705000]
      (⟨usedPages v w, 0x80701000, 0⟩ : UserSpace Nat) ⟨usedPages v' w', 0x80701000, 0⟩ := by
  refine ⟨rfl, rfl, usedPages_pool v w, usedPages_pool v' w', fun a ha => ?_⟩
  have hne : ∀ b, b - b % 2 ^ 12 ∈ [0x80702000, 0x80703000, 0x80704000, 0x80705000] → a ≠ b := by
    rintro b hb rfl
    exact ha hb
  unfold usedPages
  dsimp only
  rw [if_neg (hne 0x80702008 (by decide)), if_neg (hne 0x80702008 (by decide)),
    if_neg (hne 0x80705008 (by decide)), if_neg (hne 0x80705008 (by decide))]

theorem usedPages_apart (v w : BitVec 64) (l : List Nat) :
    Apart (usedPages v w) 0x80701000 ((usedPages v w).layout 0x80701000 l) := by
  intro x _ _ hV
  have hnone : leafEntry (usedPages v w).word 0x80701000 (vpnOf x) = none := by
    unfold leafEntry tableAt
    dsimp only
    rw [Pte.child_of_not_V (usedPages_root v w _)]
    rfl
  have hleaf : ((usedPages v w).layout 0x80701000 l).leaf (vpnOf x) = Pte.empty := leafOf_of_none hnone
  rw [hleaf] at hV
  exact absurd hV (by decide)

/-- The second and the third page, which become tables, hold nothing but their links. -/
theorem usedPages_blank (v w : BitVec 64) : ∀ p ∈ [0x80703000, 0x80704000], Blank (usedPages v w).word p := by
  intro p hp j
  have hj := j.isLt
  simp only [List.mem_cons, List.not_mem_nil, or_false] at hp
  have hne : p + 8 * j ≠ 0x80702000 ∧ p + 8 * j ≠ 0x80702008 ∧ p + 8 * j ≠ 0x80705008 := by
    rcases hp with rfl | rfl
    · omega
    · omega
  unfold RiscvKernel.entry usedPages
  dsimp only
  rw [if_neg hne.1, if_neg hne.2.1, if_neg hne.2.2]
  split
  · decide
  split
  · decide
  · decide

end Elf

end RiscvKernel
