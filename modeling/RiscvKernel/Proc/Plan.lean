import RiscvKernel.Memory.Segments
import RiscvKernel.Proc.Headers

/-!
# What the loader does to memory

`elf_load` reads from its io object and writes to memory, and what it reads does not depend on
memory. It is a plan, which the io object alone decides, and then the segments of the plan.

* `plan`: the result of `elf_load`, and the segments that it loads with the bytes for them.
* `elfLoad_eq`: the loader carries out its plan, or panics on the way.
* `Laid.segments`: memory follows the layout of the plan.
-/

namespace RiscvKernel

open Lib Phys

namespace Elf

variable {ω σ : Type} (exe : Exe ω σ) (io : ω) (stack : Stack)

/-- What `elf_load` is going to do: its result, the entry point, the io object afterwards, and the
segments that it loads with what it has read of them. -/
structure Plan (σ : Type) where
  result : Int
  entry : Nat
  objs : σ
  segments : List (Phdr × Bytes)

/-- The loop over the program headers, from `i` on with `n` of them left. -/
def planPhdrs (h : Ehdr) : Nat → Nat → σ → Plan σ
  | 0, _, s => ⟨0, 0, s, []⟩
  | n + 1, i, s =>
    let (result, bytes, s) := phdrRead exe io h i s
    let ph := phdr (patch (stack.phdr i) 0 bytes)
    if result < 0 then ⟨-PROG_READ_FAILURE, 0, s, []⟩
    else if ph.type = PT_LOAD then
      if Rejected ph then ⟨-PROG_ADDR, 0, s, []⟩
      else
        let (count, bs, s) := exe.readFull io ph.filesz (exe.seek io ph.offset s)
        if u64 count < ph.filesz then ⟨-PROG_SEC_READ, 0, s, [(ph, bs)]⟩
        else
          let rest := planPhdrs h n (i + 1) s
          { rest with segments := (ph, bs) :: rest.segments }
    else planPhdrs h n (i + 1) s

def plan (s : σ) : Plan σ :=
  let (result, bytes, s) := exe.readFull io EHDR_SIZE s
  let h := ehdr (patch stack.ehdr 0 bytes)
  if result < 0 then ⟨-READ_FAILURE, 0, s, []⟩
  else if result < EHDR_SIZE then ⟨-DATA_SHORTAGE, 0, s, []⟩
  else if checkEhdr h < 0 then ⟨checkEhdr h, 0, s, []⟩
  else
    let p := planPhdrs exe io stack h h.phnum 0 s
    if p.result < 0 then { p with entry := 0 } else { p with result := 0, entry := h.entry }

/-- A segment of the plan, in memory and on a layout. -/
def fill (root : Nat) (m : Phys) (seg : Phdr × Bytes) : Option Phys :=
  m.fillSegment root seg.1.vaddr seg.1.filesz seg.2 (flagConvert seg.1.flags ||| PTE_U)

def lay (A : Layout) (seg : Phdr × Bytes) : Layout :=
  A.segment seg.1.vaddr seg.1.filesz seg.2 (flagConvert seg.1.flags ||| PTE_U)

/-- What is left when the plan has been carried out. -/
def Plan.run (p : Plan σ) (b : UserSpace σ) : Option (Int × Nat × UserSpace σ) :=
  (p.segments.foldlM (fill b.root) b.mem).map fun m =>
    (p.result, p.entry, { b with mem := m, objs := p.objs })

theorem loadSegment_eq (ph : Phdr) (b : UserSpace σ) : loadSegment exe io ph b =
    (fill b.root b.mem (ph, (exe.readFull io ph.filesz (exe.seek io ph.offset b.objs)).2.1)).map
      fun m => (if u64 (exe.readFull io ph.filesz (exe.seek io ph.offset b.objs)).1 < ph.filesz
        then -PROG_SEC_READ else 0,
        { b with mem := m, objs := (exe.readFull io ph.filesz (exe.seek io ph.offset b.objs)).2.2 }) := by
  unfold loadSegment fill fillSegment
  dsimp only
  cases b.mem.memoryAllocAndMapRange b.root ph.vaddr ph.filesz (PTE_R ||| PTE_W) with
  | none => rfl
  | some m₁ =>
    dsimp only
    cases m₁.storeBytes b.root ph.vaddr _ with
    | none => rfl
    | some m₂ =>
      dsimp only
      cases m₂.memorySetRangeFlags b.root ph.vaddr ph.filesz _ with
      | none => rfl
      | some m₃ =>
        dsimp only [Option.map_some]
        split
        · rfl
        · rfl

/-- The loop carries out its plan. Induction on the program headers left. -/
theorem loadPhdrs_eq (h : Ehdr) (n i : Nat) (b : UserSpace σ) : loadPhdrs exe io stack h n i b =
    ((planPhdrs exe io stack h n i b.objs).run b).map fun r => (r.1, r.2.2) := by
  induction n generalizing i b with
  | zero => rfl
  | succ n ih =>
    rw [loadPhdrs_succ]
    unfold Round.outcome roundAt planPhdrs loadPhdr
    dsimp only
    generalize phdrRead exe io h i b.objs = r
    generalize phdr (patch (stack.phdr i) 0 r.2.1) = ph
    by_cases hneg : r.1 < 0
    · rw [if_pos hneg, if_pos hneg]
      rfl
    rw [if_neg hneg, if_neg hneg]
    by_cases htype : ph.type = PT_LOAD
    · rw [if_pos htype, if_pos htype]
      by_cases hrejected : Rejected ph
      · have haddr : ph.vaddr < USER_START ∨ USER_END < u64 (ph.vaddr + ph.filesz : Nat) := hrejected
        rw [if_pos hrejected, if_pos haddr]
        rfl
      have haddr : ¬(ph.vaddr < USER_START ∨ USER_END < u64 (ph.vaddr + ph.filesz : Nat)) := hrejected
      rw [if_neg hrejected, if_neg haddr, loadSegment_eq]
      unfold Plan.run
      by_cases hcount : u64 (exe.readFull io ph.filesz (exe.seek io ph.offset r.2.2)).1 < ph.filesz
      · rw [if_pos hcount, if_pos hcount, List.foldlM_cons]
        cases fill b.root b.mem _ with
        | none => rfl
        | some m => rfl
      · rw [if_neg hcount, if_neg hcount, List.foldlM_cons]
        cases fill b.root b.mem _ with
        | none => rfl
        | some m =>
          refine (ih (i + 1) _).trans ?_
          unfold Plan.run
          rw [Option.map_map, Option.map_map]
          rfl
    · rw [if_neg htype, if_neg htype]
      exact ih (i + 1) _

/-- **The loader** carries out its plan, or panics. -/
theorem elfLoad_eq (b : UserSpace σ) :
    elfLoad exe stack io b = (plan exe io stack b.objs).run b := by
  unfold elfLoad plan
  dsimp only
  generalize exe.readFull io EHDR_SIZE b.objs = r
  split
  · rfl
  · split
    · rfl
    · split
      · rfl
      · rw [loadPhdrs_eq]
        dsimp only
        generalize planPhdrs exe io stack (ehdr (patch stack.ehdr 0 r.2.1)) _ 0 r.2.2 = p
        unfold Plan.run
        by_cases hneg : p.result < 0
        · rw [if_pos hneg]
          cases p.segments.foldlM (fill b.root) b.mem with
          | none => rfl
          | some m => exact if_pos hneg
        · rw [if_neg hneg]
          cases p.segments.foldlM (fill b.root) b.mem with
          | none => rfl
          | some m => exact if_neg hneg

section Step

variable {exe io stack} {h : Ehdr} {n i : Nat} {s : σ} {ph : Phdr}

/-- A segment of a plan that goes on behind it, -/
theorem planPhdrs_load (hph : phdr (patch (stack.phdr i) 0 (phdrRead exe io h i s).2.1) = ph)
    (htype : ph.type = PT_LOAD) (hresult : 0 ≤ (planPhdrs exe io stack h (n + 1) i s).result) :
    let r := exe.readFull io ph.filesz (exe.seek io ph.offset (phdrRead exe io h i s).2.2)
    (planPhdrs exe io stack h (n + 1) i s).segments =
        (ph, r.2.1) :: (planPhdrs exe io stack h n (i + 1) r.2.2).segments ∧
      ¬u64 r.1 < ph.filesz ∧ 0 ≤ (planPhdrs exe io stack h n (i + 1) r.2.2).result := by
  rw [planPhdrs] at hresult ⊢
  dsimp only at hresult ⊢
  rw [hph, if_pos htype] at hresult ⊢
  by_cases hneg : (phdrRead exe io h i s).1 < 0
  · rw [if_pos hneg] at hresult
    exact absurd hresult (by show ¬(0 : Int) ≤ -PROG_READ_FAILURE; decide)
  rw [if_neg hneg] at hresult ⊢
  by_cases hrejected : Rejected ph
  · rw [if_pos hrejected] at hresult
    exact absurd hresult (by show ¬(0 : Int) ≤ -PROG_ADDR; decide)
  rw [if_neg hrejected] at hresult ⊢
  generalize exe.readFull io ph.filesz (exe.seek io ph.offset (phdrRead exe io h i s).2.2) = r at *
  by_cases hcount : u64 r.1 < ph.filesz
  · rw [if_pos hcount] at hresult
    exact absurd hresult (by show ¬(0 : Int) ≤ -PROG_SEC_READ; decide)
  rw [if_neg hcount] at hresult ⊢
  exact ⟨rfl, hcount, hresult⟩

/-- and another program header. -/
theorem planPhdrs_skip (hph : phdr (patch (stack.phdr i) 0 (phdrRead exe io h i s).2.1) = ph)
    (htype : ph.type ≠ PT_LOAD) (hresult : 0 ≤ (planPhdrs exe io stack h (n + 1) i s).result) :
    (planPhdrs exe io stack h (n + 1) i s).segments =
        (planPhdrs exe io stack h n (i + 1) (phdrRead exe io h i s).2.2).segments ∧
      0 ≤ (planPhdrs exe io stack h n (i + 1) (phdrRead exe io h i s).2.2).result := by
  rw [planPhdrs] at hresult ⊢
  dsimp only at hresult ⊢
  rw [hph, if_neg htype] at hresult ⊢
  by_cases hneg : (phdrRead exe io h i s).1 < 0
  · rw [if_pos hneg] at hresult
    exact absurd hresult (by show ¬(0 : Int) ≤ -PROG_READ_FAILURE; decide)
  rw [if_neg hneg] at hresult ⊢
  exact ⟨rfl, hresult⟩

end Step

end Elf

/-! ## The layout of a plan -/

namespace Phys

open Elf

variable {base root : Nat} {o m : Phys} {l : List Nat} {A : Layout} {segs : List (Phdr × Bytes)}

/-- A segment lies in the user region, and no more has been read of it than it has. -/
structure InUser (seg : Phdr × Bytes) : Prop where
  start : USER_START ≤ seg.1.vaddr
  stop : seg.1.vaddr + seg.1.filesz ≤ USER_END
  fits : seg.2.length ≤ seg.1.filesz

theorem tables_lay (seg : Phdr × Bytes) : A.tables ⊆ (lay A seg).tables := by
  unfold lay Layout.segment
  rw [Layout.flagPages_eq, Layout.stores_eq]
  exact Layout.tables_mapPages

theorem alive_of_lay {seg : Phdr × Bytes} (h : (lay A seg).alive = true) : A.alive = true := by
  unfold lay Layout.segment at h
  rw [Layout.flagPages_eq] at h
  exact Layout.alive_of_mapPages (Layout.alive_of_stores h)

theorem tables_foldl_lay : A.tables ⊆ (segs.foldl lay A).tables := by
  induction segs generalizing A with
  | nil => exact fun _ hp => hp
  | cons seg segs ih => exact fun p hp => ih (tables_lay seg hp)

theorem alive_of_foldl_lay (h : (segs.foldl lay A).alive = true) : A.alive = true := by
  induction segs generalizing A with
  | nil => exact h
  | cons seg segs ih => exact alive_of_lay (ih h)

theorem Laid.fill {seg : Phdr × Bytes} (h : Laid base root l o m A) (halive : A.alive = true)
    (hapart : Apart o root A) (hseg : InUser seg) (hblank : ∀ p ∈ (lay A seg).tables, Blank o.word p) :
    Lays base root l o (lay A seg) (Elf.fill root m seg) ∧
      ((lay A seg).alive = true → Apart o root (lay A seg)) :=
  h.segment _ halive hapart hseg.start hseg.stop hseg.fits hblank

/-- **The segments of a plan** follow the layout. Induction on the segments left. -/
theorem Laid.segments (h : Laid base root l o m A) (halive : A.alive = true) (hapart : Apart o root A)
    (hsegs : ∀ seg ∈ segs, InUser seg) (hblank : ∀ p ∈ (segs.foldl lay A).tables, Blank o.word p) :
    Lays base root l o (segs.foldl lay A) (segs.foldlM (Elf.fill root) m) ∧
      ((segs.foldl lay A).alive = true → Apart o root (segs.foldl lay A)) := by
  induction segs generalizing m A with
  | nil => exact ⟨⟨halive, h⟩, fun _ => hapart⟩
  | cons seg segs ih =>
    obtain ⟨hseg, hsegs⟩ := List.forall_mem_cons.mp hsegs
    rw [List.foldl_cons] at hblank ⊢
    obtain ⟨hlays, hapart'⟩ := h.fill halive hapart hseg fun p hp => hblank p (tables_foldl_lay hp)
    rw [List.foldlM_cons]
    cases hm : Elf.fill root m seg with
    | none =>
      rw [hm] at hlays
      -- a panic is the end
      have hdead : (segs.foldl lay (lay A seg)).alive = false :=
        Bool.eq_false_iff.mpr fun hlive => Bool.eq_false_iff.mp hlays (alive_of_foldl_lay hlive)
      exact ⟨hdead, fun hlive => absurd hlive (Bool.eq_false_iff.mp hdead)⟩
    | some m' =>
      rw [hm] at hlays
      exact ih hlays.2 hlays.1 (hapart' hlays.1) hsegs hblank

end Phys

namespace Elf

variable {ω σ : Type} {exe : Exe ω σ} {io : ω} {stack : Stack}

/-- The segments of a plan are where the loader has checked them to be, if their end does not wrap. -/
theorem planPhdrs_inUser {h : Ehdr} {n i : Nat} {s : σ} :
    ∀ seg ∈ (planPhdrs exe io stack h n i s).segments, seg.1.vaddr + seg.1.filesz < 2 ^ 64 →
      InUser seg := by
  induction n generalizing i s with
  | zero => exact nofun
  | succ n ih =>
    unfold planPhdrs
    dsimp only
    generalize phdrRead exe io h i s = r
    generalize phdr (patch (stack.phdr i) 0 r.2.1) = ph
    split
    · exact nofun
    split
    · split
      · exact nofun
      · next hrejected =>
        have hthis : ph.vaddr + ph.filesz < 2 ^ 64 → InUser
            (ph, (exe.readFull io ph.filesz (exe.seek io ph.offset r.2.2)).2.1) := by
          intro hwrap
          have hsum : u64 (ph.vaddr + ph.filesz : Nat) = ph.vaddr + ph.filesz := u64_eq rfl hwrap
          unfold Rejected at hrejected
          rw [hsum] at hrejected
          obtain ⟨hstart, hstop⟩ := not_or.mp hrejected
          exact ⟨Nat.not_lt.mp hstart, Nat.not_lt.mp hstop, exe.readFull_length io _ _⟩
        split
        · exact List.forall_mem_cons.mpr ⟨hthis, nofun⟩
        · exact List.forall_mem_cons.mpr ⟨hthis, ih⟩
    · exact ih

theorem plan_inUser {s : σ} :
    ∀ seg ∈ (plan exe io stack s).segments, seg.1.vaddr + seg.1.filesz < 2 ^ 64 → InUser seg := by
  unfold plan
  dsimp only
  split
  · exact nofun
  split
  · exact nofun
  split
  · exact nofun
  split
  · exact planPhdrs_inUser
  · exact planPhdrs_inUser

end Elf

end RiscvKernel
