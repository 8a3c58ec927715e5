import RiscvKernel.Memory.Access
import RiscvKernel.Memory.UserPages

/-!
# The layout of an address space

Which free pages an address space takes, and where, does not depend on what these pages hold, as
long as those of them that become tables are blank. A `Layout` is what is left of memory without the
contents of free pages: the tables that there are, the leaf entries, the list of free pages, and the
bytes that have been stored. It is computed from the tables of the beginning and the list.

* `Pte.Alike`: entries that translate the same. An entry without `PTE_V` may hold any page number,
  and in a table that was a free page it does.
* `Layout.map`, `Layout.put`, `Layout.access`, `Layout.reach`: the functions for pages, on layouts.
* `Laid`: a memory that has a layout. The pages that are still free, and the bytes of the others where
  nobody has stored, hold what they held at the beginning.
* `Laid.map_page`: `memory_alloc_and_map_page` follows the layout if the pages that become tables
  were blank. `Laid.put` and `Laid.reach` are the same for a store and an access of the program.
-/

namespace RiscvKernel

open Lib

/-! ## Entries -/

theorem Pte.has_V_of_valid {p : Pte} (h : p.valid) : p.has PTE_V := by
  by_contra hV
  rw [Pte.valid_of_not_V (by simpa using hV)] at h
  cases h

/-- Entries that translate the same. -/
structure Pte.Alike (p q : Pte) : Prop where
  flags : q.flags = p.flags
  hi : q.hi = p.hi
  ppn : p.has PTE_V → q.ppn = p.ppn

section Alike

variable {p q r : Pte}

theorem Pte.Alike.refl (p : Pte) : p.Alike p := ⟨rfl, rfl, fun _ => rfl⟩

theorem Pte.Alike.has_eq (h : p.Alike q) (f : BitVec 8) : q.has f = p.has f := by
  unfold Pte.has
  rw [h.flags]

theorem Pte.Alike.trans (h : p.Alike q) (h' : q.Alike r) : p.Alike r :=
  ⟨h'.flags.trans h.flags, h'.hi.trans h.hi, fun hV =>
    (h'.ppn (by rw [h.has_eq]; exact hV)).trans (h.ppn hV)⟩

theorem Pte.Alike.mapping_eq (h : p.Alike q) : q.mapping = p.mapping := by
  have hvalid : q.valid = p.valid := by
    unfold Pte.valid
    rw [h.has_eq, h.has_eq, h.has_eq, h.hi]
  have hleaf : q.leaf = p.leaf := by
    unfold Pte.leaf
    rw [h.has_eq, h.has_eq]
  unfold Pte.mapping
  rw [hvalid, hleaf]
  split
  · next hok =>
    rw [h.ppn (Pte.has_V_of_valid ((Bool.and_eq_true _ _).mp hok).1), h.flags]
  · rfl

/-- Mapping a page keeps them alike: the page number is replaced. -/
theorem Pte.Alike.mapped (h : p.Alike q) (page : Nat) (rwxug : BitVec 8) :
    (Phys.mapped p page rwxug).Alike (Phys.mapped q page rwxug) :=
  ⟨congrArg (· ||| Phys.withADV rwxug) h.flags, h.hi, fun _ => rfl⟩

end Alike

/-- The entry that a page without a last table has: none of its flags is set. -/
def Pte.empty : Pte := ⟨0, 0, 0, 0⟩

/-- The leaf entry of `v`, empty if there is no table for it. -/
def leafOf (word : Nat → BitVec 64) (root : Nat) (v : Vpn) : Pte :=
  (leafEntry word root v).getD Pte.empty

section LeafOf

variable {word word' : Nat → BitVec 64} {root t1 t0 : Nat} {v u : Vpn} {p : Pte} {free : List Nat}

theorem leafOf_of_some (h : leafEntry word root v = some p) : leafOf word root v = p := by
  unfold leafOf
  rw [h]
  rfl

theorem leafOf_of_none (h : leafEntry word root v = none) : leafOf word root v = Pte.empty := by
  unfold leafOf
  rw [h]
  rfl

/-- In the user range the leaf entry decides. -/
theorem Space.hwWalk_leafOf (hs : Space word root free) (h2 : v.i2 = 3) (h1 : v.i1.val ≤ 128) :
    hwWalk word root v = (leafOf word root v).mapping := by
  rw [hs.hwWalk_user h2 h1]
  unfold leafOf
  cases leafEntry word root v with
  | none => rfl
  | some p => rfl

theorem Space.mid_isSome (hs : Space word root free) (h2 : v.i2 = 3) :
    (tableAt word root (.mid v.i2)).isSome = (entry word root v.i2).has PTE_V := by
  cases hV : (entry word root v.i2).has PTE_V with
  | true =>
    have htable : (entry word root v.i2).isTable := by
      rw [h2] at hV ⊢
      exact hs.mid hV
    exact Option.isSome_of_eq_some (Pte.child_eq_some.mpr ⟨htable, rfl⟩)
  | false =>
    show (entry word root v.i2).child.isSome = false
    rw [Pte.child_of_not_V hV]
    rfl

theorem Space.low_isSome (hs : Space word root free) (h2 : v.i2 = 3) (h1 : v.i1.val ≤ 128)
    (hmid : (entry word root v.i2).has PTE_V) :
    (tableAt word root (.low v.i2 v.i1)).isSome =
      (entry word (midTable word root v) v.i1).has PTE_V := by
  have htable : tableAt word root (.mid v.i2) = some (midTable word root v) := by
    have hsome := hs.mid_isSome h2
    rw [hmid] at hsome
    obtain ⟨t, ht⟩ := Option.isSome_iff_exists.mp hsome
    rw [ht, ← (Pte.child_eq_some.mp ht).2]
    rfl
  rw [tableAt_low htable]
  cases hV : (entry word (midTable word root v) v.i1).has PTE_V with
  | true =>
    rw [h2] at htable
    exact Option.isSome_of_eq_some (Pte.child_eq_some.mpr ⟨hs.low _ htable v.i1 h1 hV, rfl⟩)
  | false =>
    rw [Pte.child_of_not_V hV]
    rfl

/-- After a walk there are the tables that were there and the two on the way. -/
theorem Walked.isSome_tableAt (h : Walked word word' root v t1 t0) (hs : Space word root free)
    (hmid : (entry word root v.i2).has PTE_V = false → ∀ j, (entry word t1 j).has PTE_V = false)
    (n : Node) : (tableAt word' root n).isSome =
      ((tableAt word root n).isSome || n = .mid v.i2 || n = .low v.i2 v.i1) := by
  have hthis : tableAt word' root (.mid v.i2) = some t1 := Pte.child_eq_some.mpr ⟨h.table1, h.addr1⟩
  cases hn : tableAt word' root n with
  | some a =>
    obtain hold | ⟨rfl, rfl⟩ | ⟨rfl, rfl⟩ := h.tableAt_cases hs hmid hn
    · rw [hold]
      rfl
    · simp
    · simp
  | none =>
    have hold : tableAt word root n = none := by
      cases hold : tableAt word root n with
      | none => rfl
      | some a =>
        rw [h.tableAt_of_old hs hold] at hn
        cases hn
    have hne1 : n ≠ .mid v.i2 := by
      rintro rfl
      rw [hthis] at hn
      cases hn
    have hne0 : n ≠ .low v.i2 v.i1 := by
      rintro rfl
      rw [tableAt_low hthis, Pte.child_eq_some.mpr ⟨h.table0, h.addr0⟩] at hn
      cases hn
    rw [hold]
    simp [hne1, hne0]

/-- The leaf entries of other pages are what they were, or come with a table that was blank. -/
theorem Walked.leafOf_alike (h : Walked word word' root v t1 t0) (hs : Space word root free)
    (hmid : (entry word root v.i2).has PTE_V = false → ∀ j, (entry word t1 j).has PTE_V = false)
    (hlow : (entry word t1 v.i1).has PTE_V = false → Phys.Blank word t0) (hu : u ≠ v) :
    (leafOf word root u).Alike (leafOf word' root u) := by
  cases hp : leafEntry word' root u with
  | none =>
    have hold : leafEntry word root u = none := by
      cases hq : leafEntry word root u with
      | none => rfl
      | some q =>
        rw [h.leafEntry_of_old hs hu hq] at hp
        cases hp
    rw [leafOf_of_none hp, leafOf_of_none hold]
    exact Pte.Alike.refl _
  | some p =>
    rw [leafOf_of_some hp]
    obtain hq | ⟨hq, hv, rfl⟩ := h.leafEntry_cases hs hmid hu hp
    · rw [leafOf_of_some hq]
      exact Pte.Alike.refl _
    · rw [leafOf_of_none hq]
      exact ⟨(hlow hv u.i0).1, (hlow hv u.i0).2, fun hV => absurd hV (by decide)⟩

/-- The leaf entry of the page itself, before the walk. -/
theorem Walked.leafOf_self (h : Walked word word' root v t1 t0)
    (hlow : (entry word t1 v.i1).has PTE_V = false → Phys.Blank word t0) :
    (leafOf word root v).Alike (entry word t0 v.i0) := by
  cases hv : (entry word t1 v.i1).has PTE_V with
  | true =>
    rw [leafOf_of_some (leafEntry_of_low (h.low_eq hv))]
    exact Pte.Alike.refl _
  | false =>
    rw [leafOf_of_none (h.leafEntry_none hv)]
    exact ⟨(hlow hv v.i0).1, (hlow hv v.i0).2, fun hV => absurd hV (by decide)⟩

end LeafOf

/-! ## Layouts -/

/-- An address space without the contents of free pages. -/
structure Layout where
  /-- the tables that there are -/
  has : Node → Bool
  leaf : Vpn → Pte
  free : List Nat
  /-- the pages that have been mapped, in order -/
  taken : List (Vpn × Nat)
  /-- the free pages that have become tables -/
  tables : List Nat
  /-- the bytes that have been stored, by physical address -/
  wrote : Nat → Option UInt8
  /-- no function has panicked -/
  alive : Bool

namespace Layout

/-- The tables that are missing on the way to `v`. -/
def needs (A : Layout) (v : Vpn) : Nat :=
  if A.has (.mid v.i2) then if A.has (.low v.i2 v.i1) then 0 else 1 else 2

/-- The pages that become tables when `v` is mapped: the first free page is the one that is
mapped. -/
def newTables (A : Layout) (v : Vpn) : List Nat := A.free.tail.take (A.needs v)

/-- `memory_alloc_and_map_page` -/
def map (v : Vpn) (rwxug : BitVec 8) (A : Layout) : Layout where
  has n := A.has n || n = .mid v.i2 || n = .low v.i2 v.i1
  leaf := Function.update A.leaf v (Phys.mapped (A.leaf v) (A.free.headD 0) rwxug)
  free := A.free.tail.drop (A.needs v)
  taken := A.taken ++ (A.free.take 1).map fun page => (v, page)
  tables := A.tables ++ A.newTables v
  wrote := A.wrote
  alive := A.alive && A.needs v < A.free.length

/-- The flags of the leaf entry of `v` are replaced. -/
def flag (v : Vpn) (rwxug : BitVec 8) (A : Layout) : Layout :=
  { A with leaf := Function.update A.leaf v { A.leaf v with flags := Phys.withADV rwxug } }

/-- A byte is stored. -/
def put (pa : Nat) (b : UInt8) (A : Layout) : Layout :=
  { A with wrote := Function.update A.wrote pa (some b) }

/-- The physical address of `va`, if the flags of its page include `need`. -/
def access (A : Layout) (va : Nat) (need : BitVec 8) : Option Nat :=
  match (A.leaf (vpnOf va)).mapping with
  | none => none
  | some (ppn, flags) =>
    if flags &&& need = need then some (ppn.toNat * PAGE_SIZE + va % PAGE_SIZE) else none

/-- Where an access goes that is made again after a fault. -/
def reach (A : Layout) (va : Nat) (need : BitVec 8) : Layout × Option Nat :=
  match A.access va need with
  | some pa => (A, some pa)
  | none =>
    let A := A.map (vpnOf va) (PTE_R ||| PTE_W ||| PTE_U)
    (A, if A.alive then A.access va need else none)

/-- What the byte at `pa` is, when memory held `o` at the beginning. -/
def byteOf (A : Layout) (o : Phys) (pa : Nat) : UInt8 := (A.wrote pa).getD (o.byteAt pa)

/-- Each page of `l` is mapped, a table or free, and only one of these. -/
def Splits (l : List Nat) (A : Layout) : Prop :=
  (A.taken.map Prod.snd ++ A.tables ++ A.free).Perm l

variable {A : Layout} {l : List Nat}

theorem Splits.map (h : A.Splits l) (v : Vpn) (rwxug : BitVec 8) : (A.map v rwxug).Splits l := by
  unfold Splits Layout.map newTables at *
  dsimp only
  cases hfree : A.free with
  | nil =>
    rw [hfree] at h
    simpa using h
  | cons page rest =>
    rw [hfree] at h
    refine List.Perm.trans ?_ h
    show ((A.taken ++ [(v, page)]).map Prod.snd ++
      (A.tables ++ rest.take (A.needs v)) ++ rest.drop (A.needs v)).Perm _
    rw [List.append_assoc, List.append_assoc, List.take_append_drop, List.map_append,
      List.append_assoc, List.append_assoc]
    refine List.Perm.append_left _ ?_
    show (page :: (A.tables ++ rest)).Perm (A.tables ++ page :: rest)
    exact List.perm_middle.symm

theorem access_eq_some {va pa : Nat} {need : BitVec 8} (h : A.access va need = some pa) :
    ((A.leaf (vpnOf va)).has PTE_V ∧ (A.leaf (vpnOf va)).hi = 0) ∧
      pa = (A.leaf (vpnOf va)).addr + va % PAGE_SIZE := by
  unfold access at h
  split at h
  · cases h
  · next ppn flags hmapping =>
    obtain ⟨⟨hvalid, -⟩, heq⟩ := Pte.mapping_eq_some.mp hmapping
    obtain rfl := Option.some.inj (Option.ite_none_right_eq_some.mp h).2
    obtain ⟨rfl, -⟩ := Prod.mk.inj heq
    exact ⟨⟨Pte.has_V_of_valid hvalid, Pte.hi_of_valid hvalid⟩, rfl⟩

theorem Splits.mem_of_free (h : A.Splits l) {p : Nat} (hp : p ∈ A.free) : p ∈ l :=
  h.subset (List.mem_append_right _ hp)

end Layout

/-- The layout of memory with the free pages `l`. -/
def Phys.layout (m : Phys) (root : Nat) (l : List Nat) : Layout where
  has n := (tableAt m.word root n).isSome
  leaf := leafOf m.word root
  free := l
  taken := []
  tables := []
  wrote _ := none
  alive := true

namespace Phys

/-- The word at `a` belongs to a table of the address space. -/
def InTable (word : Nat → BitVec 64) (root a : Nat) : Prop :=
  ∃ n t, tableAt word root n = some t ∧ a - a % 2 ^ 12 = t

theorem inTable_entry {word : Nat → BitVec 64} {root : Nat} (hroot : root % 2 ^ 12 = 0) {n : Node}
    {t : Nat} (ht : tableAt word root n = some t) (i : Fin 512) :
    InTable word root (t + 8 * i) := by
  have haligned := tableAt_aligned hroot ht
  have := i.isLt
  exact ⟨n, t, ht, by omega⟩

theorem InTable.word {word : Nat → BitVec 64} {root a : Nat} :
    InTable word root (a - a % 8) ↔ InTable word root a := by
  unfold InTable
  rw [show a - a % 8 - (a - a % 8) % 2 ^ 12 = a - a % 2 ^ 12 by omega]

theorem byteAt_congr {m m' : Phys} {pa : Nat} (h : m'.word (pa - pa % 8) = m.word (pa - pa % 8)) :
    m'.byteAt pa = m.byteAt pa := by
  unfold byteAt
  rw [h]

/-- The number of a page gives the page back. -/
theorem IsPage.addr_ppn {base p : Nat} (h : IsPage base p) :
    (BitVec.ofNat 44 (p / 2 ^ 12)).toNat * PAGE_SIZE = p := by
  have := h.aligned
  have := h.lt
  rw [BitVec.toNat_ofNat]
  unfold PAGE_SIZE at *
  omega

theorem Pool.ppn_inj {base : Nat} {m : Phys} {l : List Nat} (h : Pool base m l) {p q : Nat}
    (hp : p ∈ l) (hq : q ∈ l)
    (heq : BitVec.ofNat 44 (p / 2 ^ 12) = BitVec.ofNat 44 (q / 2 ^ 12)) : p = q := by
  rw [← (h.page p hp).addr_ppn, heq, (h.page q hq).addr_ppn]

/-! ## Memory that has a layout -/

/-- Memory `m` has the layout `A`: it began as `o`, with the free pages `l`. The user range is the one
of which `A` says something; the other translations are those of the beginning. -/
structure Laid (base root : Nat) (l : List Nat) (o m : Phys) (A : Layout) : Prop where
  pool₀ : Pool base o l
  space₀ : Space o.word root l
  pool : Pool base m A.free
  space : Space m.word root A.free
  has : ∀ n, A.has n = (tableAt m.word root n).isSome
  leaf : ∀ v, (leafOf m.word root v).Alike (A.leaf v)
  tables : ∀ n t, tableAt m.word root n = some t →
    tableAt o.word root n = some t ∨ t ∈ A.tables
  free : ∀ a, a - a % 2 ^ 12 ∈ A.free → m.word a = o.word a
  bytes : ∀ pa, ¬InTable m.word root pa → m.byteAt pa = A.byteOf o pa
  other : ∀ u : Vpn, ¬(u.i2 = 3 ∧ u.i1.val ≤ 128) →
    hwWalk m.word root u = hwWalk o.word root u
  split : A.Splits l

/-- What a function leaves, if it does not panic. -/
def Lays (base root : Nat) (l : List Nat) (o : Phys) (A : Layout) : Option Phys → Prop
  | none => A.alive = false
  | some m => A.alive = true ∧ Laid base root l o m A

variable {base root vma va pa : Nat} {o m m' : Phys} {l : List Nat} {A : Layout} {rwxug : BitVec 8}

theorem laid_layout (hp : Pool base o l) (hs : Space o.word root l) :
    Laid base root l o o (o.layout root l) where
  pool₀ := hp
  space₀ := hs
  pool := hp
  space := hs
  has _ := rfl
  leaf _ := Pte.Alike.refl _
  tables _ _ ht := Or.inl ht
  free _ _ := rfl
  bytes _ _ := rfl
  other _ _ := rfl
  split := List.Perm.refl l

section Laid

variable (h : Laid base root l o m A)

include h

theorem Laid.hwWalk_eq {v : Vpn} (h2 : v.i2 = 3) (h1 : v.i1.val ≤ 128) :
    hwWalk m.word root v = (A.leaf v).mapping := by
  rw [h.space.hwWalk_leafOf h2 h1, (h.leaf v).mapping_eq]

theorem Laid.needs_eq {v : Vpn} (h2 : v.i2 = 3) (h1 : v.i1.val ≤ 128) :
    A.needs v = tablesNeeded m.word root v := by
  unfold Layout.needs tablesNeeded
  rw [h.has, h.has, h.space.mid_isSome h2]
  cases hV : (entry m.word root v.i2).has PTE_V with
  | false => rfl
  | true =>
    rw [h.space.low_isSome h2 h1 hV]
    cases (entry m.word (midTable m.word root v) v.i1).has PTE_V with
    | false => rfl
    | true => rfl

theorem Laid.blank {p : Nat} (hp : p ∈ A.free) (hblank : Blank o.word p) : Blank m.word p := by
  intro j
  have haligned : p % 2 ^ 12 = 0 := (h.pool.page p hp).aligned
  have hj := j.isLt
  have hword : m.word (p + 8 * j) = o.word (p + 8 * j) := by
    refine h.free _ ?_
    rwa [show p + 8 * j.val - (p + 8 * j.val) % 2 ^ 12 = p by omega]
  rw [entry_congr hword]
  exact hblank j

theorem Laid.access_eq (h₁ : USER_START ≤ va) (h₂ : va ≤ USER_END) (need : BitVec 8) :
    m.access root va need = A.access va need := by
  obtain ⟨h2, h1⟩ := vpnOf_user h₁ h₂
  have huser : USER_END < 2 ^ 38 := by decide
  have hcanonical : canonical va := by
    unfold canonical
    rw [decide_eq_true (by omega : va < 2 ^ 38)]
    rfl
  unfold access translate Layout.access
  rw [if_pos hcanonical]
  have hwalk := h.hwWalk_eq h2 h1
  generalize hwWalk m.word root (vpnOf va) = w at hwalk ⊢
  subst hwalk
  rfl

/-- `memory_alloc_and_map_page` has found what it needs. -/
theorem Laid.map_some (h₁ : USER_START ≤ vma) (h₂ : vma ≤ USER_END)
    (hblank : ∀ p ∈ A.newTables (vpnOf vma), Blank m.word p)
    (hfresh : PathFresh m.word root (vpnOf vma) A.free[1]?)
    (hm : memoryAllocAndMapPage root vma rwxug m = some m') :
    A.needs (vpnOf vma) < A.free.length ∧ Laid base root l o m' (A.map (vpnOf vma) rwxug) := by
  have hs := h.space
  obtain ⟨hi2, hi1⟩ := vpnOf_user h₁ h₂
  have hneeds := h.needs_eq hi2 hi1
  obtain ⟨page, t1, t0, k, hhead, hw, hfrom, hleaf, hleft, hpool, hlast⟩ :=
    memoryAllocAndMapPage_walked h.pool hs h₁ h₂ hm hfresh
  obtain ⟨rest, hfree⟩ : ∃ rest, A.free = page :: rest := by
    cases hfree : A.free with
    | nil =>
      rw [hfree] at hhead
      cases hhead
    | cons p rest =>
      rw [hfree] at hhead
      exact ⟨rest, by rw [Option.some.inj hhead]⟩
  rw [hfree, List.tail_cons] at hfrom hleft hlast
  have hk : k = rest.drop (A.needs (vpnOf vma)) := by
    rw [hneeds]
    exact hleft.drop
  have hnew : A.newTables (vpnOf vma) = rest.take (tablesNeeded m.word root (vpnOf vma)) := by
    unfold Layout.newTables
    rw [hfree, hneeds]
    rfl
  rw [hnew] at hblank
  generalize hv : vpnOf vma = v at *
  have hmid : (entry m.word root v.i2).has PTE_V = false →
      ∀ j, (entry m.word t1 j).has PTE_V = false := fun hV => (hblank t1 (hfrom.mid hV)).not_V
  have hlow : (entry m.word t1 v.i1).has PTE_V = false → Blank m.word t0 := fun hV =>
    hblank t0 (hfrom.low hV)
  have hsub : ∀ p ∈ k, p ∈ A.free := fun p hp => by
    rw [hfree]
    exact List.mem_cons_of_mem page (hleft.suffix.subset hp)
  have ht1 : tableAt m'.word root (.mid v.i2) = some t1 :=
    Pte.child_eq_some.mpr ⟨hw.table1, hw.addr1⟩
  have ht0 : tableAt m'.word root (.low v.i2 v.i1) = some t0 := by
    rw [tableAt_low ht1]
    exact Pte.child_eq_some.mpr ⟨hw.table0, hw.addr0⟩
  -- what is written are entries of tables
  have hframe : ∀ a, ¬InTable m'.word root a → m'.word a = m.word a := by
    intro a ha
    have houtside : ∀ (t : Nat) (i : Fin 512) (n : Node), t % 2 ^ 12 = 0 →
        tableAt m'.word root n = some t → a ≠ t + 8 * i := by
      rintro t i n haligned ht rfl
      have := i.isLt
      exact ha ⟨n, t, ht, by omega⟩
    exact hw.frame a (houtside root _ .root hs.aligned rfl) (houtside t1 _ _ hw.aligned1 ht1)
      (houtside t0 _ _ hw.aligned0 ht0)
  have hspace : Space m'.word root k := hw.space hs hmid hi2 hsub hleft.mid hleft.low
  have hmapFree : (A.map v rwxug).free = k := by
    unfold Layout.map
    rw [hfree, hk]
    rfl
  refine ⟨?_, ?_⟩
  · rw [hneeds, hfree]
    exact Nat.lt_succ_of_le (lastTable_isSome hlast)
  refine ⟨h.pool₀, h.space₀, by rw [hmapFree]; exact hpool, by rw [hmapFree]; exact hspace, ?_, ?_, ?_,
    ?_, ?_, ?_, ?_⟩
  · intro n
    rw [hw.isSome_tableAt hs hmid, ← h.has n]
    rfl
  · intro u
    show (leafOf m'.word root u).Alike (Function.update A.leaf v _ u)
    by_cases hu : u = v
    · subst hu
      rw [Function.update_self, leafOf_of_some hw.leafEntry_self, hleaf, hfree]
      exact ⟨congrArg (· ||| withADV rwxug) (((hw.leafOf_self hlow).flags.trans
          (h.leaf u).flags.symm).symm), ((hw.leafOf_self hlow).hi.trans (h.leaf u).hi.symm).symm,
        fun _ => rfl⟩
    · rw [Function.update_of_ne hu]
      have halike := hw.leafOf_alike hs hmid hlow hu
      exact ⟨(h.leaf u).flags.trans halike.flags.symm, (h.leaf u).hi.trans halike.hi.symm, fun hV => by
        rw [halike.has_eq] at hV
        rw [(h.leaf u).ppn hV, halike.ppn hV]⟩
  · intro n t ht
    show _ ∨ t ∈ A.tables ++ A.newTables v
    obtain hold | ⟨rfl, rfl⟩ | ⟨rfl, rfl⟩ := hw.tableAt_cases hs hmid ht
    · exact (h.tables n t hold).imp_right (List.mem_append_left _)
    · cases hV : (entry m.word root v.i2).has PTE_V with
      | true => exact (h.tables _ t (hw.mid_eq hV)).imp_right (List.mem_append_left _)
      | false => exact Or.inr (List.mem_append_right _ (hnew ▸ hfrom.mid hV))
    · cases hV : (entry m.word t1 v.i1).has PTE_V with
      | true => exact (h.tables _ t (hw.low_eq hV)).imp_right (List.mem_append_left _)
      | false => exact Or.inr (List.mem_append_right _ (hnew ▸ hfrom.low hV))
  · intro a ha
    rw [hmapFree] at ha
    rw [hframe a]
    · exact h.free a (hsub _ ha)
    · rintro ⟨n, t, ht, rfl⟩
      exact hspace.used n _ ht ha
  · intro pa hpa
    rw [byteAt_congr (hframe _ (InTable.word.not.mpr hpa))]
    refine h.bytes pa ?_
    rintro ⟨n, t, ht, hat⟩
    exact hpa ⟨n, t, hw.tableAt_of_old hs ht, hat⟩
  · intro u hu
    rw [hw.others_of_not_V hs (fun hV => (hlow hV).not_V) hmid u, h.other u hu]
    rintro rfl
    exact hu ⟨hi2, hi1⟩
  · exact h.split.map v rwxug

/-- **Mapping a page** follows the layout, if the pages that become tables were blank. -/
theorem Laid.map_page (rwxug : BitVec 8) (halive : A.alive = true) (h₁ : USER_START ≤ vma) (h₂ : vma ≤ USER_END)
    (hblank : ∀ p ∈ A.newTables (vpnOf vma), Blank o.word p) :
    Lays base root l o (A.map (vpnOf vma) rwxug) (memoryAllocAndMapPage root vma rwxug m) := by
  obtain ⟨hi2, hi1⟩ := vpnOf_user h₁ h₂
  have hneeds := h.needs_eq hi2 hi1
  have hblank' : ∀ p ∈ A.newTables (vpnOf vma), Blank m.word p := fun p hp =>
    h.blank (List.mem_of_mem_tail (List.mem_of_mem_take hp)) (hblank p hp)
  have hfresh : PathFresh m.word root (vpnOf vma) A.free[1]? := by
    rw [← List.head?_tail]
    refine pathFresh_of_take fun p hp => hblank' p ?_
    unfold Layout.newTables
    rwa [hneeds]
  have hmapAlive : (A.map (vpnOf vma) rwxug).alive =
      decide (A.needs (vpnOf vma) < A.free.length) := by
    unfold Layout.map
    rw [halive]
    rfl
  cases hm : memoryAllocAndMapPage root vma rwxug m with
  | none =>
    show (A.map (vpnOf vma) rwxug).alive = false
    rw [hmapAlive]
    refine decide_eq_false fun hlt => ?_
    rw [hneeds] at hlt
    obtain ⟨m', hm'⟩ := memoryAllocAndMapPage_isSome_of rwxug h.pool h.space hlt
    rw [hm] at hm'
    cases hm'
  | some m' =>
    obtain ⟨hlt, hlaid⟩ := h.map_some h₁ h₂ hblank' hfresh hm
    exact ⟨by rw [hmapAlive]; exact decide_eq_true hlt, hlaid⟩

end Laid

/-! ## Words outside the tables -/

/-- The words of the tables are the same in both memories. -/
def SameTables (m m' : Phys) (root : Nat) : Prop := ∀ a, InTable m.word root a → m'.word a = m.word a

section SameTables

variable (hroot : root % 2 ^ 12 = 0) (h : SameTables m m' root)

include hroot h

theorem SameTables.tableAt_eq (n : Node) : tableAt m'.word root n = tableAt m.word root n :=
  tableAt_congr (fun i => h _ (inTable_entry (n := .root) hroot rfl i))
    (fun _ _ ht j => h _ (inTable_entry hroot ht j)) n

theorem SameTables.inTable_iff {a : Nat} : InTable m'.word root a ↔ InTable m.word root a := by
  unfold InTable
  simp only [h.tableAt_eq hroot]

theorem SameTables.leafOf_eq (u : Vpn) : leafOf m'.word root u = leafOf m.word root u := by
  unfold leafOf leafEntry
  rw [h.tableAt_eq hroot]
  cases ht : tableAt m.word root (.low u.i2 u.i1) with
  | none => rfl
  | some t =>
    show entry m'.word t u.i0 = entry m.word t u.i0
    exact entry_congr (h _ (inTable_entry hroot ht u.i0))

theorem SameTables.hwWalk_eq (u : Vpn) : hwWalk m'.word root u = hwWalk m.word root u := by
  refine hwWalk_congr (h _ (inTable_entry (n := .root) hroot rfl u.i2)) fun htable1 => ?_
  have hmid : tableAt m.word root (.mid u.i2) = some (entry m.word root u.i2).addr :=
    Pte.child_eq_some.mpr ⟨htable1, rfl⟩
  refine walk1_congr (h _ (inTable_entry hroot hmid u.i1)) fun htable0 => ?_
  have hlow : tableAt m.word root (.low u.i2 u.i1) =
      some (entry m.word (entry m.word root u.i2).addr u.i1).addr := by
    rw [tableAt_low hmid]
    exact Pte.child_eq_some.mpr ⟨htable0, rfl⟩
  exact walk0_congr (h _ (inTable_entry hroot hlow u.i0))

theorem SameTables.space (hs : Space m.word root l) : Space m'.word root l :=
  hs.congr (fun i => h _ (inTable_entry (n := .root) hroot rfl i))
    (fun _ _ ht j => h _ (inTable_entry hroot ht j)) fun _ hp => hp

end SameTables

/-! ## Accesses -/

/-- What is mapped in the user range is neither free nor a table. -/
def Apart (o : Phys) (root : Nat) (A : Layout) : Prop :=
  ∀ x, USER_START ≤ x → x ≤ USER_END → (A.leaf (vpnOf x)).has PTE_V →
    (A.leaf (vpnOf x)).addr ∉ A.free ∧ (A.leaf (vpnOf x)).addr ∉ A.tables ∧
      ∀ n, tableAt o.word root n ≠ some (A.leaf (vpnOf x)).addr

theorem Pte.addr_mapped {base page : Nat} (hpage : IsPage base page) (p : Pte) (rwxug : BitVec 8) :
    (mapped p page rwxug).addr = page := hpage.addr_ppn

/-- A page that has been mapped was free, and is nothing else. -/
theorem Apart.map {v : Vpn} (h : Apart o root A) (hp : Pool base o l) (hs : Space o.word root l)
    (hsplit : A.Splits l) (hroom : A.needs v < A.free.length) : Apart o root (A.map v rwxug) := by
  obtain ⟨page, rest, hfree⟩ := List.exists_cons_of_length_pos (Nat.zero_lt_of_lt hroom)
  have hpage : page ∈ l := hsplit.mem_of_free (hfree ▸ List.mem_cons_self)
  have hnodup := hsplit.nodup_iff.mpr hp.nodup
  intro x hx hx' hV
  have hold := h x hx hx'
  generalize vpnOf x = u at *
  unfold Layout.map Layout.newTables at hV ⊢
  dsimp only at hV ⊢
  rw [hfree] at hV hnodup ⊢
  by_cases hu : u = v
  · subst hu
    rw [Function.update_self, List.headD_cons, Pte.addr_mapped (hp.page page hpage)]
    obtain ⟨-, hcons, hdisjoint⟩ := List.nodup_append'.mp hnodup
    have hrest : page ∉ rest := (List.nodup_cons.mp hcons).1
    refine ⟨fun hmem => hrest (List.mem_of_mem_drop hmem), fun hmem => ?_, fun n hn =>
      hs.used n page hn hpage⟩
    obtain hmem | hmem := List.mem_append.mp hmem
    · exact hdisjoint (List.mem_append_right _ hmem) List.mem_cons_self
    · exact hrest (List.mem_of_mem_take hmem)
  · rw [Function.update_of_ne hu] at *
    obtain ⟨hnotFree, hnotTable, hold⟩ := hold hV
    rw [hfree] at hnotFree
    refine ⟨fun hmem => hnotFree (List.mem_cons_of_mem page (List.mem_of_mem_drop hmem)),
      fun hmem => ?_, hold⟩
    obtain hmem | hmem := List.mem_append.mp hmem
    · exact hnotTable hmem
    · exact hnotFree (List.mem_cons_of_mem page (List.mem_of_mem_take hmem))

/-- The page of a byte. -/
theorem page_of_byte (p : Pte) (x : Nat) :
    p.addr + x % PAGE_SIZE - (p.addr + x % PAGE_SIZE) % 2 ^ 12 = p.addr := by
  have := p.addr_mod
  unfold PAGE_SIZE
  omega

/-- An access in the user range does not go to a table, nor to a free page. -/
theorem Apart.of_access {need : BitVec 8} (h : Apart o root A) (hlaid : Laid base root l o m A)
    (h₁ : USER_START ≤ va) (h₂ : va ≤ USER_END) (hacc : A.access va need = some pa) :
    ¬InTable m.word root pa ∧ pa - pa % 2 ^ 12 ∉ A.free := by
  obtain ⟨⟨hV, -⟩, rfl⟩ := Layout.access_eq_some hacc
  obtain ⟨hnotFree, hnotTable, hold⟩ := h va h₁ h₂ hV
  unfold InTable
  rw [page_of_byte]
  constructor
  · rintro ⟨n, t, ht, rfl⟩
    obtain ht | ht := hlaid.tables n _ ht
    · exact hold n ht
    · exact hnotTable ht
  · exact hnotFree

/-- **A store** outside the tables and the free pages. -/
theorem Laid.put (h : Laid base root l o m A) (b : UInt8) (hnot : ¬InTable m.word root pa)
    (hfree : pa - pa % 2 ^ 12 ∉ A.free) : Laid base root l o (m.setByte pa b) (A.put pa b) := by
  have hroot := h.space.aligned
  have hsame : SameTables m (m.setByte pa b) root := by
    intro a ha
    refine setByte_word_of_ne b ?_
    rintro rfl
    exact hnot (InTable.word.mp ha)
  have hword : ∀ a, a - a % 2 ^ 12 ∈ A.free → (m.setByte pa b).word a = m.word a := by
    intro a ha
    refine setByte_word_of_ne b ?_
    rintro rfl
    rw [show pa - pa % 8 - (pa - pa % 8) % 2 ^ 12 = pa - pa % 2 ^ 12 by omega] at ha
    exact hfree ha
  refine ⟨h.pool₀, h.space₀, h.pool.congr rfl rfl rfl fun p hp => hword p ?_, hsame.space hroot h.space,
    fun n => ?_, fun v => ?_, fun n t ht => ?_, fun a ha => ?_, fun pa' hpa' => ?_, fun u hu => ?_, h.split⟩
  · have haligned : p % 2 ^ 12 = 0 := (h.pool.page p hp).aligned
    rwa [haligned, Nat.sub_zero]
  · rw [hsame.tableAt_eq hroot]
    exact h.has n
  · rw [hsame.leafOf_eq hroot]
    exact h.leaf v
  · rw [hsame.tableAt_eq hroot] at ht
    exact h.tables n t ht
  · rw [hword a ha]
    exact h.free a ha
  · rw [hsame.inTable_iff hroot] at hpa'
    show _ = (Function.update A.wrote pa (some b) pa').getD (o.byteAt pa')
    by_cases heq : pa' = pa
    · subst heq
      rw [byteAt_setByte_self, Function.update_self]
      rfl
    · rw [byteAt_setByte_of_ne b heq, Function.update_of_ne heq]
      exact h.bytes pa' hpa'
  · rw [hsame.hwWalk_eq hroot]
    exact h.other u hu

/-- Where an access of the program goes: a fault is served and the access made again. An access that
then faults again does so until no page is left, since another page has the same reserved bits and
`PTE_X` as the one before. `none` is the panic. -/
def reach (root va : Nat) (need : BitVec 8) (m : Phys) : Option (Nat × Phys) :=
  match m.access root va need with
  | some pa => some (pa, m)
  | none =>
    match m.memoryHandlePageFault root va with
    | none => none
    | some m => (m.access root va need).map fun pa => (pa, m)

/-- **An access** of the program follows the layout. -/
theorem Laid.reach (h : Laid base root l o m A) (halive : A.alive = true) (hapart : Apart o root A)
    (h₁ : USER_START ≤ va) (h₂ : va ≤ USER_END) (need : BitVec 8)
    (hblank : ∀ p ∈ (A.reach va need).1.tables, Blank o.word p) :
    (m.reach root va need).map Prod.fst = (A.reach va need).2 ∧
      ∀ pa m', m.reach root va need = some (pa, m') → (A.reach va need).1.alive = true ∧
        Laid base root l o m' (A.reach va need).1 ∧ Apart o root (A.reach va need).1 ∧
        (A.reach va need).1.access va need = some pa := by
  unfold Phys.reach Layout.reach at *
  rw [h.access_eq h₁ h₂]
  cases hacc : A.access va need with
  | some pa =>
    refine ⟨rfl, fun pa' m' heq => ?_⟩
    obtain ⟨rfl, rfl⟩ := Prod.mk.inj (Option.some.inj heq)
    exact ⟨halive, h, hapart, hacc⟩
  | none =>
    rw [hacc] at hblank
    dsimp only at hblank ⊢
    unfold memoryHandlePageFault
    rw [if_pos ⟨h₁, h₂⟩]
    have hlays := h.map_page (PTE_R ||| PTE_W ||| PTE_U) halive h₁ h₂ fun p hp =>
      hblank p (List.mem_append_right _ hp)
    cases hm : memoryAllocAndMapPage root va (PTE_R ||| PTE_W ||| PTE_U) m with
    | none =>
      rw [hm] at hlays
      have hdead : (A.map (vpnOf va) (PTE_R ||| PTE_W ||| PTE_U)).alive = false := hlays
      rw [hdead]
      exact ⟨rfl, nofun⟩
    | some m' =>
      rw [hm] at hlays
      obtain ⟨halive', hlaid⟩ := hlays
      have hroom : A.needs (vpnOf va) < A.free.length :=
        of_decide_eq_true ((Bool.and_eq_true _ _).mp halive').2
      dsimp only
      rw [halive', hlaid.access_eq h₁ h₂, if_pos rfl]
      cases hagain : (A.map (vpnOf va) (PTE_R ||| PTE_W ||| PTE_U)).access va need with
      | none => exact ⟨rfl, nofun⟩
      | some pa =>
        refine ⟨rfl, fun pa' m'' heq => ?_⟩
        obtain ⟨rfl, rfl⟩ := Prod.mk.inj (Option.some.inj heq)
        exact ⟨rfl, hlaid, hapart.map h.pool₀ h.space₀ h.split hroom, rfl⟩

end Phys

end RiscvKernel
