import RiscvKernel.Memory.Phys
import RiscvKernel.Memory.Space

/-!
# Page tables

`walk_pt` and `memory_alloc_and_map_page` of `memory.c`, and what they do to the translations
of an address space.

* A table that `walk_pt` creates is a page from the free list, and its entries hold whatever
  the page held before. `Walked` says what a walk leaves behind: at most one entry changed in
  the root, in the middle table and in the last table.
* `middleTable` and `lastTable` are the tables on the way before the walk: those that are there, or
  the free pages that become them. `map_page_frame_iff` is about what these pages hold.
* `memory_alloc_and_map_page` adds its flags to those that the leaf entry has.
-/

namespace RiscvKernel

open Lib

/-- `USER_START_VMA` -/
def USER_START : Nat := 0xC0000000

/-- `USER_END_VMA` -/
def USER_END : Nat := 0xD0000000

namespace Phys

/-! ## The functions -/

/-- One level of `walk_pt`: the table that entry `i` of `table` refers to. With `create`, an
entry without `PTE_V` is first made to refer to a new table. -/
def descend (create : Bool) (table : Nat) (i : Fin 512) (m : Phys) : Option (Nat × Phys) :=
  if create && !(entry m.word table i).has PTE_V then
    match m.kmalloc PAGE_SIZE with
    | none => none
    | some (page, m) =>
      let m := m.store (table + 8 * i) (Pte.ptab page 0).toWord
      some ((entry m.word table i).addr, m)
  else some ((entry m.word table i).addr, m)

/-- `walk_pt`: the address of the leaf entry. -/
def walkPt (create : Bool) (root vma : Nat) (m : Phys) : Option (Nat × Phys) :=
  match descend create root (vpnOf vma).i2 m with
  | none => none
  | some (pt1, m) =>
    match descend create pt1 (vpnOf vma).i1 m with
    | none => none
    | some (pt0, m) => some (pt0 + 8 * (vpnOf vma).i0, m)

/-- The flags that a mapping gets for a request `rwxug`. -/
def withADV (rwxug : BitVec 8) : BitVec 8 := rwxug ||| PTE_A ||| PTE_D ||| PTE_V

/-- `memory_alloc_and_map_page` in the address space of `root` -/
def memoryAllocAndMapPage (root vma : Nat) (rwxug : BitVec 8) (m : Phys) : Option Phys :=
  match m.memoryAllocPage with
  | none => none
  | some (page, m) =>
    match walkPt true root vma m with
    | none => none
    | some (dest, m) =>
      let p := Pte.ofWord (m.word dest)
      some (m.store dest { p with
        flags := p.flags ||| withADV rwxug
        ppn := BitVec.ofNat 44 (page / 2 ^ 12) }.toWord)

end Phys

/-- The user range is in the fourth gigabyte. -/
theorem vpnOf_user {vma : Nat} (h₁ : USER_START ≤ vma) (h₂ : vma ≤ USER_END) :
    (vpnOf vma).i2 = 3 ∧ (vpnOf vma).i1.val ≤ 128 := by
  unfold USER_START at h₁
  unfold USER_END at h₂
  constructor
  · apply Fin.ext
    show vma / 2 ^ 30 % 512 = 3
    omega
  · show vma / 2 ^ 21 % 512 ≤ 128
    omega

/-! ## `walk_pt` with `CREATE_PTE` -/

namespace Phys

variable {base table : Nat} {i : Fin 512} {m m' : Phys} {l : List Nat}

theorem IsPage.lt {p : Nat} (h : IsPage base p) : p < 2 ^ 56 := by
  have := h.lt_end
  unfold RAM_END RAM_START at this
  omega

/-- The entry of a table is no free page. -/
theorem entry_notMem_free (hp : Pool base m l) (htable : table % 2 ^ 12 = 0) (hnot : table ∉ l)
    (i : Fin 512) : table + 8 * i ∉ l := by
  intro hmem
  have haligned := (hp.page _ hmem).aligned
  unfold PAGE_SIZE at haligned
  have hi : i.val = 0 := by
    have := i.isLt
    omega
  rw [hi] at hmem
  exact hnot hmem

/-- One level with `CREATE_PTE`: the entry has `PTE_V`, or the first free page becomes the
table. -/
theorem descend_create (hp : Pool base m l) (htable : table % 2 ^ 12 = 0) (hnot : table ∉ l)
    {t : Nat} (hd : descend true table i m = some (t, m')) :
    ((entry m.word table i).has PTE_V = true ∧ t = (entry m.word table i).addr ∧ m' = m) ∨
      (entry m.word table i).has PTE_V = false ∧ ∃ k, l = t :: k ∧ Pool base m' k ∧
        m'.word = Function.update m.word (table + 8 * i) (Pte.ptab t 0).toWord := by
  unfold descend at hd
  cases hv : (entry m.word table i).has PTE_V with
  | true =>
    rw [hv] at hd
    obtain ⟨rfl, rfl⟩ := Prod.mk.inj (Option.some.inj hd)
    exact Or.inl ⟨rfl, rfl, rfl⟩
  | false =>
    rw [hv, kmalloc_page hp.heap] at hd
    simp only [Bool.not_false, Bool.and_self, if_true] at hd
    split at hd
    · cases hd
    · next page m₁ halloc =>
      obtain ⟨k, rfl, hpool, hword⟩ := hp.alloc halloc
      obtain ⟨rfl, rfl⟩ := Prod.mk.inj (Option.some.inj hd)
      have hpage := hp.page page List.mem_cons_self
      have haddr : (entry (m₁.store (table + 8 * i) (Pte.ptab page 0).toWord).word table i).addr =
          page := by
        show (entry (Function.update m₁.word _ _) table i).addr = page
        rw [entry_update_self]
        exact Pte.addr_ptab 0 hpage.aligned hpage.lt
      rw [haddr]
      refine Or.inr ⟨rfl, k, rfl, hpool.store ?_ _, ?_⟩
      · intro hmem
        exact entry_notMem_free hp htable hnot i (List.mem_cons_of_mem page hmem)
      · rw [← hword]
        rfl

/-- The two levels of `walk_pt`. -/
theorem walkPt_eq_some {create : Bool} {root vma dest : Nat} :
    walkPt create root vma m = some (dest, m') ↔
      ∃ t1 m₁ t0, descend create root (vpnOf vma).i2 m = some (t1, m₁) ∧
        descend create t1 (vpnOf vma).i1 m₁ = some (t0, m') ∧ dest = t0 + 8 * (vpnOf vma).i0 := by
  unfold walkPt
  constructor
  · intro h
    split at h
    · cases h
    · next t1 m₁ h1 =>
      split at h
      · cases h
      · next t0 m₂ h0 =>
        obtain ⟨rfl, rfl⟩ := Prod.mk.inj (Option.some.inj h)
        exact ⟨t1, m₁, t0, h1, h0, rfl⟩
  · rintro ⟨t1, m₁, t0, h1, h0, rfl⟩
    rw [h1]
    dsimp only
    rw [h0]

/-- A walk to a table that is there. -/
theorem walkPt_of_low {create : Bool} {root vma t0 : Nat}
    (h : tableAt m.word root (.low (vpnOf vma).i2 (vpnOf vma).i1) = some t0) :
    walkPt create root vma m = some (t0 + 8 * (vpnOf vma).i0, m) := by
  have hdescend : ∀ {table t : Nat} {i : Fin 512}, (entry m.word table i).child = some t →
      descend create table i m = some (t, m) := by
    intro table t i hchild
    obtain ⟨htable, haddr⟩ := Pte.child_eq_some.mp hchild
    unfold descend
    rw [Pte.has_V_of_isTable htable, haddr]
    simp
  obtain ⟨t1, hmid, -⟩ := Option.bind_eq_some_iff.mp h
  rw [tableAt_low hmid] at h
  exact walkPt_eq_some.mpr ⟨t1, m, t0, hdescend hmid, hdescend h, rfl⟩

/-- A walk that creates nothing. -/
theorem walkPt_false (root vma : Nat) (m : Phys) : walkPt false root vma m =
    some (lowTable m.word root (vpnOf vma) + 8 * (vpnOf vma).i0, m) := rfl

/-- The walk does not follow an entry that a new middle table comes with; `next` is the page
that would become the table. -/
def PathFresh (word : Nat → BitVec 64) (root : Nat) (v : Vpn) (next : Option Nat) : Prop :=
  (entry word root v.i2).has PTE_V = false → ∀ t ∈ next, (entry word t v.i1).has PTE_V = false

/-- The number of tables that are missing on the way to `v`. -/
def tablesNeeded (word : Nat → BitVec 64) (root : Nat) (v : Vpn) : Nat :=
  if (entry word root v.i2).has PTE_V = false then 2
  else if (entry word (midTable word root v) v.i1).has PTE_V = false then 1
  else 0

theorem tablesNeeded_le_two (word : Nat → BitVec 64) (root : Nat) (v : Vpn) :
    tablesNeeded word root v ≤ 2 := by
  unfold tablesNeeded
  split
  · decide
  · split
    · decide
    · decide

/-- New tables are the first pages of `l`, as many as are missing. -/
structure FromFree (word : Nat → BitVec 64) (root : Nat) (v : Vpn) (t1 t0 : Nat) (l : List Nat) :
    Prop where
  first : (entry word root v.i2).has PTE_V = false → l.head? = some t1
  low : (entry word t1 v.i1).has PTE_V = false → t0 ∈ l.take (tablesNeeded word root v)

theorem FromFree.mid {word : Nat → BitVec 64} {root : Nat} {v : Vpn} {t1 t0 : Nat}
    (h : FromFree word root v t1 t0 l) (hv : (entry word root v.i2).has PTE_V = false) :
    t1 ∈ l.take (tablesNeeded word root v) := by
  have hhead := h.first hv
  cases l with
  | nil => cases hhead
  | cons t l =>
    obtain rfl := Option.some.inj hhead
    unfold tablesNeeded
    rw [if_pos hv]
    exact List.mem_cons_self

/-- The free pages `k` that a walk leaves of `l`. -/
structure LeftOver (word : Nat → BitVec 64) (root : Nat) (v : Vpn) (t1 t0 : Nat) (l k : List Nat) :
    Prop where
  drop : k = l.drop (tablesNeeded word root v)
  mid : t1 ∉ k
  low : t0 ∉ k

theorem LeftOver.suffix {word : Nat → BitVec 64} {root : Nat} {v : Vpn} {t1 t0 : Nat} {k : List Nat}
    (h : LeftOver word root v t1 t0 l k) : k <:+ l := by
  rw [h.drop]
  exact List.drop_suffix _ _

/-- `walk_pt` with `CREATE_PTE` for an address of the user range. -/
theorem walkPt_walked {free : List Nat} {root vma dest : Nat} (hp : Pool base m l)
    (hs : Space m.word root free) (hsub : ∀ p ∈ l, p ∈ free) (h₁ : USER_START ≤ vma)
    (h₂ : vma ≤ USER_END) (hw : walkPt true root vma m = some (dest, m'))
    (hfresh : PathFresh m.word root (vpnOf vma) l.head?) :
    ∃ t1 t0, Walked m.word m'.word root (vpnOf vma) t1 t0 ∧
      FromFree m.word root (vpnOf vma) t1 t0 l ∧ dest = t0 + 8 * (vpnOf vma).i0 ∧
      m'.word dest = m.word dest ∧ ∃ k, LeftOver m.word root (vpnOf vma) t1 t0 l k ∧
        Pool base m' k := by
  obtain ⟨t1, m₁, t0, hd1, hd0, rfl⟩ := walkPt_eq_some.mp hw
  obtain ⟨hi2, hi1⟩ := vpnOf_user h₁ h₂
  generalize vpnOf vma = v at *
  have hnew : ∀ p ∈ l, NewTable m.word root p := fun p hmem =>
    ⟨(hp.page p hmem).aligned, (hp.page p hmem).lt, fun n hn => hs.used n p hn (hsub p hmem)⟩
  have hroot : root ∉ l := fun hmem => hs.used .root root rfl (hsub _ hmem)
  refine ⟨t1, t0, ?_⟩
  rcases descend_create hp hs.aligned hroot hd1 with ⟨hv1, ht1, hm⟩ | ⟨hv1, k, rfl, hp₁, hword₁⟩
  · obtain rfl := hm.symm
    have hmid : tableAt m.word root (.mid v.i2) = some t1 := by
      refine Pte.child_eq_some.mpr ⟨?_, ht1.symm⟩
      rw [hi2] at hv1 ⊢
      exact hs.mid hv1
    have haligned := tableAt_aligned hs.aligned hmid
    have hmidTable : midTable m.word root v = t1 := ht1.symm
    have hmem : t1 ∉ l := fun h => hs.used _ t1 hmid (hsub _ h)
    rcases descend_create hp haligned hmem hd0 with ⟨hv0, ht0, hm⟩ | ⟨hv0, k, rfl, hp₀, hword₀⟩
    · obtain rfl := hm.symm
      have hlow : tableAt m.word root (.low v.i2 v.i1) = some t0 := by
        rw [tableAt_low hmid]
        refine Pte.child_eq_some.mpr ⟨hs.low t1 ?_ v.i1 hi1 hv0, ht0.symm⟩
        rw [← hi2]
        exact hmid
      have hmem0 : t0 ∉ l := fun h => hs.used _ t0 hlow (hsub _ h)
      have hneeded : tablesNeeded m.word root v = 0 := by
        unfold tablesNeeded
        rw [hmidTable, hv1, hv0]
        rfl
      refine ⟨hs.walked_old hmid hlow, ⟨fun h => ?_, fun h => ?_⟩, rfl, rfl, l,
        ⟨by rw [hneeded]; rfl, hmem, hmem0⟩, hp⟩
      · rw [hv1] at h
        cases h
      · rw [hv0] at h
        cases h
    · have ht0 := hnew t0 List.mem_cons_self
      have hwalked := hs.walked_low hmid hv0 ht0
      have hneeded : tablesNeeded m.word root v = 1 := by
        unfold tablesNeeded
        rw [hmidTable, hv1, hv0]
        rfl
      rw [← hword₀] at hwalked
      refine ⟨hwalked, ⟨fun h => ?_, fun _ => by rw [hneeded]; exact List.mem_cons_self⟩, rfl, ?_, k,
        ⟨by rw [hneeded]; rfl, fun h => hmem (List.mem_cons_of_mem t0 h),
          (List.nodup_cons.mp hp.nodup).1⟩, hp₀⟩
      · rw [hv1] at h
        cases h
      · rw [hword₀]
        exact Function.update_of_ne (entry_ne ht0.aligned haligned hwalked.ne v.i0 v.i1) ..
  · have ht1 := hnew t1 List.mem_cons_self
    obtain ⟨hmem, -⟩ := List.nodup_cons.mp hp.nodup
    have hne : root ≠ t1 := fun h => hroot (h ▸ List.mem_cons_self)
    rcases descend_create hp₁ ht1.aligned hmem hd0 with ⟨hv0, -, hm⟩ | ⟨hv0, k', rfl, hp₀, hword₀⟩
    · -- the entry that the walk follows came with the page
      obtain rfl := hm.symm
      have hstale := hfresh hv1 t1 rfl
      rw [hword₁, entry_update_of_ne hs.aligned ht1.aligned hne.symm, hstale] at hv0
      cases hv0
    · have ht0 := hnew t0 (List.mem_cons_of_mem t1 List.mem_cons_self)
      have hne0 : t0 ≠ t1 := fun h => hmem (h ▸ List.mem_cons_self)
      rw [hword₁, entry_update_of_ne hs.aligned ht1.aligned hne.symm] at hv0
      have hwalked := hs.walked_mid hv1 ht1 hv0 ht0 hne0
      have hneeded : tablesNeeded m.word root v = 2 := by
        unfold tablesNeeded
        rw [hv1]
        rfl
      rw [← hword₁, ← hword₀] at hwalked
      refine ⟨hwalked, ⟨fun _ => rfl, fun _ => ?_⟩, rfl, ?_, k',
        ⟨by rw [hneeded]; rfl, fun h => hmem (List.mem_cons_of_mem t0 h),
          (List.nodup_cons.mp hp₁.nodup).1⟩, hp₀⟩
      · rw [hneeded]
        exact List.mem_cons_of_mem t1 List.mem_cons_self
      · rw [hword₀, Function.update_of_ne (entry_ne ht0.aligned ht1.aligned hne0 v.i0 v.i1), hword₁]
        exact Function.update_of_ne
          (entry_ne ht0.aligned hs.aligned hwalked.root_ne.2.symm v.i0 v.i2) ..

theorem descend_isSome_iff (hp : Pool base m l) (table : Nat) (i : Fin 512) :
    (∃ r, descend true table i m = some r) ↔
      (entry m.word table i).has PTE_V = true ∨ l ≠ [] := by
  unfold descend
  cases hv : (entry m.word table i).has PTE_V with
  | true => exact iff_of_true ⟨_, rfl⟩ (Or.inl rfl)
  | false =>
    rw [kmalloc_page hp.heap]
    simp only [Bool.not_false, Bool.and_self, if_true]
    cases l with
    | nil =>
      rw [memoryAllocPage_nil hp.free]
      exact iff_of_false (fun ⟨_, h⟩ => nomatch h) (by simp)
    | cons p k =>
      obtain ⟨m₁, hm₁, -⟩ := memoryAllocPage_cons hp.free
      rw [hm₁]
      exact iff_of_true ⟨_, rfl⟩ (Or.inr (List.cons_ne_nil p k))

/-- The middle table on the way to `v`: the one that is there, or the first page of `l`. -/
def middleTable (word : Nat → BitVec 64) (root : Nat) (v : Vpn) (l : List Nat) : Option Nat :=
  if (entry word root v.i2).has PTE_V then some (midTable word root v) else l.head?

theorem FromFree.middleTable_eq {word word' : Nat → BitVec 64} {root : Nat} {v : Vpn} {t1 t0 : Nat}
    (h : FromFree word root v t1 t0 l) (hw : Walked word word' root v t1 t0) :
    middleTable word root v l = some t1 := by
  unfold middleTable
  split
  · next hv => exact congrArg some (Pte.child_eq_some.mp (hw.mid_eq hv)).2
  · next hv => exact h.first (by simpa using hv)

/-- The last table on the way to `v`: the one that is there, or the last of the missing ones, which
are taken from `l`. -/
def lastTable (word : Nat → BitVec 64) (root : Nat) (v : Vpn) (l : List Nat) : Option Nat :=
  match tablesNeeded word root v with
  | 0 => some (lowTable word root v)
  | n + 1 => l[n]?

theorem lastTable_isSome {word : Nat → BitVec 64} {root t : Nat} {v : Vpn}
    (h : lastTable word root v l = some t) : tablesNeeded word root v ≤ l.length := by
  unfold lastTable at h
  cases hn : tablesNeeded word root v with
  | zero => exact Nat.zero_le _
  | succ n =>
    rw [hn] at h
    exact (List.getElem?_eq_some_iff.mp h).1

/-- A walk ends in the last table. -/
theorem walkPt_lastTable {root vma dest : Nat} {free : List Nat} (hp : Pool base m l)
    (hs : Space m.word root free) (hsub : ∀ p ∈ l, p ∈ free) (h₁ : USER_START ≤ vma)
    (h₂ : vma ≤ USER_END) (hw : walkPt true root vma m = some (dest, m'))
    (hfresh : PathFresh m.word root (vpnOf vma) l.head?) :
    ∃ t, lastTable m.word root (vpnOf vma) l = some t ∧ dest = t + 8 * (vpnOf vma).i0 := by
  obtain ⟨t1, m₁, t0, hd1, hd0, rfl⟩ := walkPt_eq_some.mp hw
  obtain ⟨hi2, -⟩ := vpnOf_user h₁ h₂
  generalize vpnOf vma = v at *
  refine ⟨t0, ?_, rfl⟩
  have hroot : root ∉ l := fun hmem => hs.used .root root rfl (hsub _ hmem)
  unfold lastTable tablesNeeded
  rcases descend_create hp hs.aligned hroot hd1 with ⟨hv1, ht1, rfl⟩ | ⟨hv1, k, rfl, hp₁, hword₁⟩
  · have hmidTable : midTable m₁.word root v = t1 := ht1.symm
    have hmid : tableAt m₁.word root (.mid v.i2) = some t1 := by
      refine Pte.child_eq_some.mpr ⟨?_, ht1.symm⟩
      rw [hi2] at hv1 ⊢
      exact hs.mid hv1
    have hmem : t1 ∉ l := fun h => hs.used _ t1 hmid (hsub _ h)
    rw [hv1, if_neg (by simp), hmidTable]
    rcases descend_create hp (tableAt_aligned hs.aligned hmid) hmem hd0 with
      ⟨hv0, ht0, -⟩ | ⟨hv0, k, rfl, -⟩
    · rw [hv0, if_neg (by simp), ht0, ← hmidTable]
      rfl
    · rw [if_pos hv0]
      rfl
  · -- both tables are new
    have hmem := (List.nodup_cons.mp hp.nodup).1
    have hne : root ≠ t1 := fun h => hroot (h ▸ List.mem_cons_self)
    have haligned := (hp.page t1 List.mem_cons_self).aligned
    rw [if_pos hv1]
    rcases descend_create hp₁ haligned hmem hd0 with ⟨hv0, -, -⟩ | ⟨-, k', rfl, -⟩
    · rw [hword₁, entry_update_of_ne hs.aligned haligned hne.symm, hfresh hv1 t1 rfl] at hv0
      cases hv0
    · rfl

/-- A walk needs as many free pages as there are tables missing. -/
theorem walkPt_isSome {free : List Nat} {root vma : Nat} (hp : Pool base m l)
    (hs : Space m.word root free) (hsub : ∀ p ∈ l, p ∈ free)
    (hlen : tablesNeeded m.word root (vpnOf vma) ≤ l.length) :
    ∃ r, walkPt true root vma m = some r := by
  have hroot : root ∉ l := fun hmem => hs.used .root root rfl (hsub _ hmem)
  unfold tablesNeeded at hlen
  have hfirst : (entry m.word root (vpnOf vma).i2).has PTE_V = true ∨ l ≠ [] := by
    refine or_iff_not_imp_left.mpr fun hv => ?_
    rw [if_pos (by simpa using hv)] at hlen
    rintro rfl
    cases hlen
  obtain ⟨⟨t1, m₁⟩, hd1⟩ := (descend_isSome_iff hp root (vpnOf vma).i2).mpr hfirst
  -- the first level has left a page if the second one needs it
  obtain ⟨⟨t0, m₂⟩, hd0⟩ : ∃ r, descend true t1 (vpnOf vma).i1 m₁ = some r := by
    rcases descend_create hp hs.aligned hroot hd1 with ⟨hv1, ht1, rfl⟩ | ⟨hv1, k, rfl, hp₁, -⟩
    · refine (descend_isSome_iff hp t1 _).mpr (or_iff_not_imp_left.mpr fun hv0 => ?_)
      have hmidTable : midTable m₁.word root (vpnOf vma) = t1 := ht1.symm
      rw [hv1, if_neg (by simp), hmidTable, if_pos (by simpa using hv0)] at hlen
      rintro rfl
      cases hlen
    · refine (descend_isSome_iff hp₁ t1 _).mpr (Or.inr ?_)
      rw [if_pos hv1] at hlen
      rintro rfl
      exact Nat.not_succ_le_self 1 hlen
  exact ⟨_, walkPt_eq_some.mpr ⟨t1, m₁, t0, hd1, hd0, rfl⟩⟩

/-! ## Mapping one page -/

/-- The leaf entry after `memory_alloc_and_map_page` of `page`. -/
def mapped (p : Pte) (page : Nat) (rwxug : BitVec 8) : Pte :=
  { p with flags := p.flags ||| withADV rwxug, ppn := BitVec.ofNat 44 (page / 2 ^ 12) }

/-- `memory_alloc_and_map_page`: the first free page is mapped, the tables come from those after
it. -/
theorem memoryAllocAndMapPage_walked {root vma : Nat} {rwxug : BitVec 8} (hp : Pool base m l)
    (hs : Space m.word root l) (h₁ : USER_START ≤ vma) (h₂ : vma ≤ USER_END)
    (hm : memoryAllocAndMapPage root vma rwxug m = some m')
    (hfresh : PathFresh m.word root (vpnOf vma) l[1]?) :
    ∃ page t1 t0 k, l.head? = some page ∧ Walked m.word m'.word root (vpnOf vma) t1 t0 ∧
      FromFree m.word root (vpnOf vma) t1 t0 l.tail ∧
      entry m'.word t0 (vpnOf vma).i0 = mapped (entry m.word t0 (vpnOf vma).i0) page rwxug ∧
      LeftOver m.word root (vpnOf vma) t1 t0 l.tail k ∧ Pool base m' k ∧
      lastTable m.word root (vpnOf vma) l.tail = some t0 := by
  unfold memoryAllocAndMapPage at hm
  split at hm
  · cases hm
  · next page m₁ halloc =>
    obtain ⟨k, rfl, hp₁, hword₁⟩ := hp.alloc halloc
    split at hm
    · cases hm
    · next dest m₂ hwalk =>
      obtain rfl := Option.some.inj hm
      rw [← hword₁] at hs hfresh ⊢
      have hsub : ∀ p ∈ k, p ∈ page :: k := fun p hmem => List.mem_cons_of_mem page hmem
      have hhead : k.head? = (page :: k)[1]? := by
        cases k with
        | nil => rfl
        | cons => rfl
      rw [← hhead] at hfresh
      obtain ⟨t, hlast, hdest⟩ := walkPt_lastTable hp₁ hs hsub h₁ h₂ hwalk hfresh
      obtain ⟨t1, t0, hw, hfrom, rfl, hsame, k', hleft, hp₂⟩ :=
        walkPt_walked hp₁ hs hsub h₁ h₂ hwalk hfresh
      obtain rfl : t0 = t := by omega
      refine ⟨page, t1, t0, k', rfl, ?_, hfrom, ?_, hleft, ?_, hlast⟩
      · exact hw.leaf hs.aligned _
      · show entry (Function.update m₂.word _ _) t0 _ = _
        rw [entry_update_self, hsame]
        rfl
      · exact hp₂.store (entry_notMem_free hp₂ hw.aligned0 hleft.low _) _

/-- A free page is needed for the page, and one for each table that is missing. -/
theorem memoryAllocAndMapPage_isSome_of {root vma : Nat} (rwxug : BitVec 8) (hp : Pool base m l)
    (hs : Space m.word root l) (hlen : tablesNeeded m.word root (vpnOf vma) < l.length) :
    ∃ m', memoryAllocAndMapPage root vma rwxug m = some m' := by
  obtain ⟨page, k, rfl⟩ := List.exists_cons_of_length_pos (Nat.zero_lt_of_lt hlen)
  obtain ⟨m₁, hm₁, -⟩ := memoryAllocPage_cons hp.free
  obtain ⟨k', hk', hp₁, hword⟩ := hp.alloc hm₁
  obtain rfl := (List.cons.inj hk').2
  rw [← hword] at hs hlen
  obtain ⟨⟨dest, m₂⟩, hm₂⟩ := walkPt_isSome hp₁ hs
    (fun p hmem => List.mem_cons_of_mem page hmem) (Nat.le_of_lt_succ hlen)
  unfold memoryAllocAndMapPage
  rw [hm₁]
  dsimp only
  rw [hm₂]
  exact ⟨_, rfl⟩

/-- Three free pages are enough for the page and its tables. -/
theorem memoryAllocAndMapPage_isSome {root : Nat} (rwxug : BitVec 8) (hp : Pool base m l)
    (hs : Space m.word root l) (hlen : 3 ≤ l.length) (vma : Nat) :
    ∃ m', memoryAllocAndMapPage root vma rwxug m = some m' := by
  have := tablesNeeded_le_two m.word root (vpnOf vma)
  exact memoryAllocAndMapPage_isSome_of rwxug hp hs (by omega)

/-- The flags of a request make a leaf that the hardware accepts. -/
def requestOk (rwxug : BitVec 8) : Bool := (Pte.leafPte 0 rwxug).valid && (Pte.leafPte 0 rwxug).leaf

theorem mapped_ok_iff {p : Pte} {page : Nat} {rwxug : BitVec 8}
    (hflags : p.flags ||| withADV rwxug = withADV rwxug) :
    ((mapped p page rwxug).valid && (mapped p page rwxug).leaf) = true ↔
      requestOk rwxug ∧ p.hi = 0 := by
  have hsame : ∀ f, (mapped p page rwxug).has f = (Pte.leafPte 0 rwxug).has f := by
    intro f
    show ((p.flags ||| withADV rwxug) &&& f != 0) = _
    rw [hflags]
    rfl
  have hhi : (mapped p page rwxug).hi = p.hi := rfl
  have hhi' : (Pte.leafPte 0 rwxug).hi = 0 := rfl
  unfold requestOk Pte.valid Pte.leaf
  rw [hsame, hsame, hsame, hsame, hhi, hhi']
  simp only [Bool.and_eq_true, beq_iff_eq]
  tauto

/-- The last step of the walk gives the page with the flags of the request if and only if the
request is for a leaf, and the leaf entry had no other flags and no reserved bits before. -/
theorem walk0_mapped_iff {word : Nat → BitVec 64} {t0 : Nat} {i0 : Fin 512} {p : Pte} {page : Nat}
    {rwxug : BitVec 8} (h : entry word t0 i0 = mapped p page rwxug) :
    walk0 word t0 i0 = some (BitVec.ofNat 44 (page / 2 ^ 12), withADV rwxug) ↔
      requestOk rwxug ∧ p.flags ||| withADV rwxug = withADV rwxug ∧ p.hi = 0 := by
  unfold walk0
  dsimp only
  rw [h]
  constructor
  · intro heq
    split at heq
    · next hok =>
      have hflags : p.flags ||| withADV rwxug = withADV rwxug :=
        congrArg Prod.snd (Option.some.inj heq)
      obtain ⟨hreq, hhi⟩ := (mapped_ok_iff hflags).mp hok
      exact ⟨hreq, hflags, hhi⟩
    · cases heq
  · rintro ⟨hreq, hflags, hhi⟩
    rw [if_pos ((mapped_ok_iff hflags).mpr ⟨hreq, hhi⟩)]
    show some (BitVec.ofNat 44 (page / 2 ^ 12), p.flags ||| withADV rwxug) = _
    rw [hflags]

/-- When `memory_alloc_and_map_page` does what it is for, before the call: the request is for a leaf,
and for the tables `t1` and `t0` that are on the way or will be, with new ones from `l`, the leaf
entry has no other flags and no reserved bits, new tables are empty, and no entry of a new middle
table refers to the last table. -/
structure MapCond (word : Nat → BitVec 64) (root : Nat) (v : Vpn) (l : List Nat) (rwxug : BitVec 8) :
    Prop where
  request : requestOk rwxug
  leaf : ∀ t0 ∈ lastTable word root v l, (entry word t0 v.i0).hi = 0 ∧
    (entry word t0 v.i0).flags ||| withADV rwxug = withADV rwxug
  others : ∀ t1 ∈ middleTable word root v l, ∀ t0 ∈ lastTable word root v l,
    NewTablesEmpty word root v t1 t0 ∧ ((entry word root v.i2).has PTE_V = false →
      ∀ j ≠ v.i1, (entry word t1 j).child ≠ some t0)

/-- The effect that a mapping of `page` at `v` should have. -/
structure MapsOnly (word word' : Nat → BitVec 64) (root : Nat) (v : Vpn) (page : Nat)
    (rwxug : BitVec 8) : Prop where
  page : hwWalk word' root v = some (BitVec.ofNat 44 (page / 2 ^ 12), withADV rwxug)
  others : ∀ u ≠ v, hwWalk word' root u = hwWalk word root u

/-- **`memory_alloc_and_map_page` leaves the other translations alone** if and only if
`MapCond` holds, and `walk_pt` with `CREATE_PTE` changes no translation if and only if the
pages that become tables are empty, whenever neither follows an entry that a new middle table came
with. Three free pages are enough for the call to return. -/
theorem map_page_frame_iff {root vma : Nat} (rwxug : BitVec 8) (hp : Pool base m l)
    (hs : Space m.word root l) (h₁ : USER_START ≤ vma) (h₂ : vma ≤ USER_END) :
    (3 ≤ l.length → ∃ m', memoryAllocAndMapPage root vma rwxug m = some m') ∧
    (PathFresh m.word root (vpnOf vma) l[1]? →
      ∀ m', memoryAllocAndMapPage root vma rwxug m = some m' →
        ((∃ page, l.head? = some page ∧
            MapsOnly m.word m'.word root (vpnOf vma) page rwxug) ↔
          MapCond m.word root (vpnOf vma) l.tail rwxug)) ∧
    (PathFresh m.word root (vpnOf vma) l.head? →
      ∀ dest m', walkPt true root vma m = some (dest, m') →
        ((∀ u, hwWalk m'.word root u = hwWalk m.word root u) ↔
          ∀ t1 ∈ middleTable m.word root (vpnOf vma) l, ∀ t0 ∈ lastTable m.word root (vpnOf vma) l,
            NewTablesEmpty m.word root (vpnOf vma) t1 t0 ∧
              ((entry m.word t1 (vpnOf vma).i1).has PTE_V = false →
                walk0 m.word t0 (vpnOf vma).i0 = none))) := by
  refine ⟨?_, ?_, ?_⟩
  · exact fun hlen => memoryAllocAndMapPage_isSome rwxug hp hs hlen vma
  · intro hfresh m' hm
    obtain ⟨page, t1, t0, k, hhead, hw, hfrom, hleaf, -, -, hlast⟩ :=
      memoryAllocAndMapPage_walked hp hs h₁ h₂ hm hfresh
    have hmiddle := hfrom.middleTable_eq hw
    have hthis : hwWalk m'.word root (vpnOf vma) = walk0 m'.word t0 (vpnOf vma).i0 :=
      hw.walk_same (vpnOf vma).i0
    constructor
    · rintro ⟨page', hhead', hmaps, hothers⟩
      obtain rfl := Option.some.inj (hhead.symm.trans hhead')
      rw [hthis] at hmaps
      obtain ⟨hreq, hflags, hhi⟩ := (walk0_mapped_iff hleaf).mp hmaps
      refine ⟨hreq, ?_, ?_⟩
      · intro t ht
        obtain rfl := Option.some.inj (hlast.symm.trans ht)
        exact ⟨hhi, hflags⟩
      · intro t1' ht1 t0' ht0
        obtain rfl := Option.some.inj (hmiddle.symm.trans ht1)
        obtain rfl := Option.some.inj (hlast.symm.trans ht0)
        exact (hw.others_iff_of_leaf hs (by rw [hmaps]; simp)).mp hothers
    · rintro ⟨hreq, hentry, hothers⟩
      obtain ⟨hhi, hflags⟩ := hentry t0 hlast
      have hmaps := (walk0_mapped_iff hleaf).mpr ⟨hreq, hflags, hhi⟩
      refine ⟨page, hhead, hthis.trans hmaps, ?_⟩
      exact (hw.others_iff_of_leaf hs (by rw [hmaps]; simp)).mpr (hothers t1 hmiddle t0 hlast)
  · intro hfresh dest m' hm
    obtain ⟨t, hlast, hdest⟩ := walkPt_lastTable hp hs (fun _ h => h) h₁ h₂ hm hfresh
    obtain ⟨t1, t0, hw, hfrom, rfl, hsame, -⟩ := walkPt_walked hp hs (fun _ h => h) h₁ h₂ hm hfresh
    obtain rfl : t0 = t := by omega
    have hmiddle := hfrom.middleTable_eq hw
    have hthis : hwWalk m'.word root (vpnOf vma) = walk0 m.word t0 (vpnOf vma).i0 := by
      rw [← walk0_congr hsame]
      exact hw.walk_same (vpnOf vma).i0
    constructor
    · intro hall t1' ht1 t0' ht0
      obtain rfl := Option.some.inj (hmiddle.symm.trans ht1)
      obtain rfl := Option.some.inj (hlast.symm.trans ht0)
      refine ⟨(hw.others_iff hs hsame).mp fun u _ => hall u, fun hv => ?_⟩
      rw [← hthis, hall]
      exact hw.none_before hv _
    · intro hempty u
      obtain ⟨hothers, hnone⟩ := hempty t1 hmiddle t0 hlast
      by_cases hu : u = vpnOf vma
      · rw [hu, hthis]
        -- the leaf entry is in a table that was there, or came with a new one
        cases hv : (entry m.word t1 (vpnOf vma).i1).has PTE_V with
        | true => exact (hw.walk_before hv _).symm
        | false =>
          rw [hnone hv]
          exact (hw.none_before hv _).symm
      · exact (hw.others_iff hs hsame).mpr hothers u hu

/-- A page that is blank as a table. The link that a free page begins with is no flag and no
reserved bit. -/
def Blank (word : Nat → BitVec 64) (page : Nat) : Prop :=
  ∀ j, (entry word page j).flags = 0 ∧ (entry word page j).hi = 0

theorem Blank.not_V {word : Nat → BitVec 64} {page : Nat} (h : Blank word page) (j : Fin 512) :
    (entry word page j).has PTE_V = false := by
  unfold Pte.has
  rw [(h j).1]
  decide

theorem pathFresh_of_blank (hblank : ∀ p ∈ l, Blank m.word p) (root : Nat) (v : Vpn) (i : Nat) :
    PathFresh m.word root v l[i]? :=
  fun _ t ht => (hblank t (List.mem_of_getElem? ht)).not_V v.i1

/-- Only the pages that become tables matter. -/
theorem pathFresh_of_take {root : Nat} {v : Vpn}
    (hblank : ∀ p ∈ l.take (tablesNeeded m.word root v), Blank m.word p) :
    PathFresh m.word root v l.head? := by
  intro hV t ht
  refine (hblank t ?_).not_V v.i1
  unfold tablesNeeded
  rw [if_pos hV]
  cases l with
  | nil => cases ht
  | cons p rest =>
    obtain rfl := Option.some.inj ht
    exact List.mem_cons_self

/-- An address space without tables. -/
theorem space_of_empty_root {word : Nat → BitVec 64} {root : Nat} {free : List Nat}
    (haligned : root % 2 ^ 12 = 0) (hfree : root ∉ free)
    (hempty : ∀ i, (entry word root i).has PTE_V = false) : Space word root free := by
  have hchild : ∀ i, (entry word root i).child = none := by
    intro i
    refine Option.eq_none_iff_forall_not_mem.mpr fun a ha => ?_
    have hv := Pte.has_V_of_isTable (Pte.child_eq_some.mp ha).1
    rw [hempty i] at hv
    cases hv
  have honly : ∀ n a, tableAt word root n = some a → n = .root ∧ a = root := by
    intro n a h
    cases n with
    | root => exact ⟨rfl, (Option.some.inj h).symm⟩
    | mid i =>
      have hsome : (entry word root i).child = some a := h
      rw [hchild i] at hsome
      cases hsome
    | low i j =>
      obtain ⟨t, ht, -⟩ := Option.bind_eq_some_iff.mp h
      rw [hchild i] at ht
      cases ht
  refine ⟨haligned, ?_, ?_, ?_, ?_⟩
  · intro n n' a h h'
    rw [(honly n a h).1, (honly n' a h').1]
  · intro n a h
    rw [(honly n a h).2]
    exact hfree
  · intro hv
    rw [hempty 3] at hv
    cases hv
  · intro t ht
    cases (honly _ t ht).1

/-- Three free pages behind an empty root. The page that becomes the last table holds `w` in its
second entry. -/
def threePages (w : BitVec 64) : Phys where
  word a :=
    if a = 0x80702000 then 0x80703000
    else if a = 0x80703000 then 0x80704000
    else if a = 0x80704008 then w
    else 0
  freeList := 0x80702000
  heapStart := 0
  heapEnd := 0

theorem threePages_pool (w : BitVec 64) :
    Pool 0x80702000 (threePages w) [0x80702000, 0x80703000, 0x80704000] where
  free := ⟨rfl, by decide, rfl, by decide, rfl, by decide, rfl⟩
  nodup := by decide
  page := by
    intro p hp
    simp only [List.mem_cons, List.not_mem_nil, or_false] at hp
    rcases hp with rfl | rfl | rfl
    · exact ⟨by decide, by decide, by decide⟩
    · exact ⟨by decide, by decide, by decide⟩
    · exact ⟨by decide, by decide, by decide⟩
  heap := by
    show 0 - 0 < PAGE_SIZE
    decide

theorem threePages_root (w : BitVec 64) (i : Fin 512) :
    (entry (threePages w).word 0x80701000 i).has PTE_V = false := by
  have hzero : (threePages w).word (0x80701000 + 8 * i) = 0 := by
    have := i.isLt
    unfold threePages
    dsimp only
    rw [if_neg (by omega), if_neg (by omega), if_neg (by omega)]
  unfold entry
  rw [hzero]
  decide

theorem threePages_space (w : BitVec 64) :
    Space (threePages w).word 0x80701000 [0x80702000, 0x80703000, 0x80704000] :=
  space_of_empty_root (by decide) (by decide) (threePages_root w)

theorem threePages_blank : ∀ p ∈ [0x80702000, 0x80703000, 0x80704000],
    Blank (threePages 0).word p := by
  intro p hp j
  have hword : (threePages 0).word (p + 8 * j) ∈ [0x80703000#64, 0x80704000#64, 0#64] := by
    unfold threePages
    dsimp only
    split
    · decide
    · split
      · decide
      · split
        · decide
        · decide
  unfold entry
  generalize (threePages 0).word (p + 8 * j) = w at hword
  simp only [List.mem_cons, List.not_mem_nil, or_false] at hword
  rcases hword with rfl | rfl | rfl
  · decide
  · decide
  · decide

theorem map_page_frame_blank :
    ∃ m', memoryAllocAndMapPage 0x80701000 USER_START (PTE_R ||| PTE_W ||| PTE_U) (threePages 0) =
        some m' ∧
      ∃ page, [0x80702000, 0x80703000, 0x80704000].head? = some page ∧
        MapsOnly (threePages 0).word m'.word 0x80701000 (vpnOf USER_START) page
          (PTE_R ||| PTE_W ||| PTE_U) := by
  have hstart : USER_START ≤ USER_START := Nat.le_refl _
  have hend : USER_START ≤ USER_END := by decide
  obtain ⟨hreturn, hiff, -⟩ := map_page_frame_iff (PTE_R ||| PTE_W ||| PTE_U)
    (threePages_pool 0) (threePages_space 0) hstart hend
  obtain ⟨m', hm⟩ := hreturn (by decide)
  have hfresh := pathFresh_of_blank threePages_blank 0x80701000 (vpnOf USER_START) 1
  have hmiddle : middleTable (threePages 0).word 0x80701000 (vpnOf USER_START)
      [0x80703000, 0x80704000] = some 0x80703000 := by decide +kernel
  have hlast : lastTable (threePages 0).word 0x80701000 (vpnOf USER_START)
      [0x80703000, 0x80704000] = some 0x80704000 := by decide +kernel
  refine ⟨m', hm, (hiff hfresh m' hm).mpr ⟨by decide, ?_, ?_⟩⟩
  · intro t0 ht0
    obtain rfl := Option.some.inj (hlast.symm.trans ht0)
    decide +kernel
  · intro t1 ht1 t0 ht0
    obtain rfl := Option.some.inj (hmiddle.symm.trans ht1)
    obtain rfl := Option.some.inj (hlast.symm.trans ht0)
    have hb1 := threePages_blank 0x80703000 (by decide)
    have hb0 := threePages_blank 0x80704000 (by decide)
    refine ⟨⟨fun _ k _ => walk0_of_not_V (hb0.not_V k), fun _ j _ k => ?_⟩, fun _ j _ => ?_⟩
    · exact walk1_of_not_valid (Pte.valid_of_not_V (hb1.not_V j))
    · rw [Pte.child_of_not_V (hb1.not_V j)]
      exact fun h => by cases h

/-- The page taken for the last table is left from another address space, and its second entry
maps a page of RAM. After the first user page is mapped, the second one is mapped to that page
for the user, readable and writable. -/
theorem stale_table_maps_second_page :
    Pool 0x80702000 (threePages 0x201c14d7) [0x80702000, 0x80703000, 0x80704000] ∧
      Space (threePages 0x201c14d7).word 0x80701000 [0x80702000, 0x80703000, 0x80704000] ∧
      hwWalk (threePages 0x201c14d7).word 0x80701000 ⟨3, 0, 1⟩ = none ∧
      (memoryAllocAndMapPage 0x80701000 USER_START (PTE_R ||| PTE_W ||| PTE_U)
        (threePages 0x201c14d7)).map (fun m => hwWalk m.word 0x80701000 ⟨3, 0, 1⟩) =
          some (some (0x80705, 0xd7)) :=
  ⟨threePages_pool _, threePages_space _, by decide +kernel, by decide +kernel⟩

end Phys

end RiscvKernel
