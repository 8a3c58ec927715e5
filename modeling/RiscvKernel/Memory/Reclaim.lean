import RiscvKernel.Memory.UserPages

/-!
# Giving back the pages of an address space

`memory_space_reclaim` and `memory_unmap_and_free_user` are the same three loops with other
tests: which leaf entries lose their page, and which tables are freed when the loop below them
is through (`Policy`). Both work on tables that lie in pages which are on the free list
already, or soon will be.

* `opAt`: what the loops do at a place of the address space, read off the tables as they are
  before the loops.
* `forEntries_freeMid`: on an address space whose tables form a tree, the loops do these
  operations, in the order of `visit`, although they read the tables as they go.
* `spellsTo_runOps`: the free list afterwards. The first page that goes on an empty free list
  keeps the word that it has, where the others get a link.
-/

namespace RiscvKernel

open Lib

/-! ## The loops -/

/-- The tests of the loops: the leaf entries whose page is freed, and the pointers whose table
is freed. -/
structure Policy where
  leaf : Pte → Bool
  drop : Pte → Bool

/-- The tests of `memory_space_reclaim`. -/
def Policy.reclaim : Policy where
  leaf p := p.has PTE_V && !p.has PTE_G
  drop p := !p.has PTE_G

/-- The tests of `memory_unmap_and_free_user`. -/
def Policy.unmap : Policy where
  leaf p := p.userPage
  drop p := p.has PTE_U

namespace Phys

/-- A page becomes the first free one. -/
def giveBack (m : Phys) (p : Nat) : Phys :=
  if m.freeList = 0 then { m with freeList := p } else m.memoryFreePage p

/-- The entry at `e` loses its page and its flags. -/
def clearEntry (m : Phys) (e : Nat) : Phys :=
  m.store e { Pte.ofWord (m.word e) with ppn := 0, flags := 0 }.toWord

/-- The innermost round. -/
def freeLeaf (π : Policy) (t0 : Nat) (m : Phys) (i : Fin 512) : Phys :=
  let p := entry m.word t0 i
  if π.leaf p then (m.giveBack p.addr).clearEntry (t0 + 8 * i) else m

/-- A round of the other loops: the loop `below` goes over the table that the entry points to. -/
def freeTable (π : Policy) (below : Nat → Phys → Phys) (t : Nat) (m : Phys) (i : Fin 512) : Phys :=
  let p := entry m.word t i
  if p.linked then
    let m := below p.addr m
    if π.drop (entry m.word t i) then m.memoryFreePage p.addr else m
  else m

def freeLow (π : Policy) : Nat → Phys → Fin 512 → Phys :=
  freeTable π fun t0 => forEntries (freeLeaf π t0)

def freeMid (π : Policy) : Nat → Phys → Fin 512 → Phys :=
  freeTable π fun t1 => forEntries (freeLow π t1)

/-- The `mtag` of the address space with this root: Sv39 and the page number. -/
def mtagOf (root : Nat) : Nat := 8 * 2 ^ 60 + root / PAGE_SIZE

/-- `memory_space_reclaim`, on the address space that `satp` selects; the new value of `satp`
comes first. The root is found by shifting the whole of the old value. -/
def memorySpaceReclaim (mainMtag satp : Nat) (m : Phys) : Nat × Phys :=
  (mainMtag, forEntries (freeMid .reclaim (u64 (satp * PAGE_SIZE : Nat))) m)

theorem memoryUnmapAndFreeUser_eq (root : Nat) (m : Phys) :
    memoryUnmapAndFreeUser root m =
      if m.freeList = 0 then none else some (forEntries (freeMid .unmap root) m) := rfl

theorem memorySpaceReclaim_eq {root : Nat} (halign : root % 2 ^ 12 = 0) (hlt : root < 2 ^ 56)
    (mainMtag : Nat) (m : Phys) :
    memorySpaceReclaim mainMtag (mtagOf root) m =
      (mainMtag, forEntries (freeMid .reclaim root) m) := by
  have hroot : u64 (mtagOf root * PAGE_SIZE : Nat) = root := by
    unfold u64 mtagOf PAGE_SIZE
    omega
  unfold memorySpaceReclaim
  rw [hroot]

end Phys

/-! ## Places -/

/-- What an address space can refer to: a table, or what an entry of a last table maps. -/
inductive Place where
  | table (n : Node)
  | leaf (i j k : Fin 512)
  deriving DecidableEq

/-- The table that the loops take an entry to point to. -/
def Pte.link (p : Pte) : Option Nat := if p.linked then some p.addr else none

section Places

variable (word : Nat → BitVec 64) (root : Nat)

/-- The entry that points to a table; the root has none. -/
def pointerAt : Node → Option Pte
  | .root => none
  | .mid i => some (entry word root i)
  | .low i j => (entry word root i).link.map fun t => entry word t j

/-- The table at a node of the tree that the loops go over. -/
def linkAt : Node → Option Nat
  | .root => some root
  | .mid i => (entry word root i).link
  | .low i j => (entry word root i).link.bind fun t => (entry word t j).link

/-- An entry of a last table. -/
def leafAt (i j k : Fin 512) : Option Pte := (linkAt word root (.low i j)).map fun t => entry word t k

/-- The page at a place, if the entries with `leaf` are taken to have one. -/
def placeAt (leaf : Pte → Bool) : Place → Option Nat
  | .table n => linkAt word root n
  | .leaf i j k => (leafAt word root i j k).bind fun p => if leaf p then some p.addr else none

end Places

/-- The tables form a tree, and no entry with `leaf` maps one of them. -/
structure TableTree (leaf : Pte → Bool) (word : Nat → BitVec 64) (root : Nat) : Prop where
  aligned : root % 2 ^ 12 = 0
  tree : ∀ n n' a, linkAt word root n = some a → linkAt word root n' = some a → n = n'
  apart : ∀ i j k n a, placeAt word root leaf (.leaf i j k) = some a → linkAt word root n ≠ some a

/-- Every page is referred to once, and none of them is on the free list. -/
structure OwnTree (leaf : Pte → Bool) (word : Nat → BitVec 64) (root : Nat) (free : List Nat) :
    Prop where
  aligned : root % 2 ^ 12 = 0
  once : ∀ x y a, placeAt word root leaf x = some a → placeAt word root leaf y = some a → x = y
  notMem : ∀ x a, placeAt word root leaf x = some a → a ∉ free
  free_page : ∀ p ∈ free, p % 2 ^ 12 = 0 ∧ p < 2 ^ 64

/-- What the loops do at a place: a page is given back and the entry at `e` cleared, or a table
is freed. -/
inductive Op where
  | page (p e : Nat)
  | table (p : Nat)
  deriving DecidableEq

namespace Op

def addr : Op → Nat
  | page p _ => p
  | table p => p

/-- The words that it writes. -/
def writes : Op → List Nat
  | page p e => [p, e]
  | table p => [p]

def run (m : Phys) : Op → Phys
  | page p e => (m.giveBack p).clearEntry e
  | table p => m.memoryFreePage p

end Op

def runOps (m : Phys) (ops : List Op) : Phys := ops.foldl Op.run m

/-- What the loops do at a place, by the tables in `word`. -/
def opAt (π : Policy) (word : Nat → BitVec 64) (root : Nat) : Place → Option Op
  | .table n => (pointerAt word root n).bind fun p =>
    if p.linked && π.drop p then some (.table p.addr) else none
  | .leaf i j k => (linkAt word root (.low i j)).bind fun t =>
    if π.leaf (entry word t k) then some (.page (entry word t k).addr (t + 8 * k)) else none

section Places

variable {word : Nat → BitVec 64} {root : Nat} {π : Policy} {x y : Place} {o o' : Op}

theorem Pte.link_eq_some {p : Pte} {a : Nat} : p.link = some a ↔ p.linked ∧ p.addr = a := by
  unfold Pte.link
  split <;> simp_all

theorem pointerAt_low {i j : Fin 512} {t : Nat} (h : linkAt word root (.mid i) = some t) :
    pointerAt word root (.low i j) = some (entry word t j) := by
  have hlink : (entry word root i).link = some t := h
  show (entry word root i).link.map (fun t => entry word t j) = _
  rw [hlink]
  rfl

/-- A table below the root is where its pointer says. -/
theorem linkAt_eq {n : Node} (hn : n ≠ .root) :
    linkAt word root n = (pointerAt word root n).bind Pte.link := by
  cases n with
  | root => exact absurd rfl hn
  | mid i => rfl
  | low i j =>
    unfold linkAt pointerAt
    rw [Option.bind_map]
    rfl

theorem linkAt_of_pointerAt {n : Node} {p : Pte} (h : pointerAt word root n = some p) :
    linkAt word root n = p.link := by
  rw [linkAt_eq (by rintro rfl; cases h), h]
  rfl

theorem linkAt_aligned (hroot : root % 2 ^ 12 = 0) {n : Node} {a : Nat}
    (h : linkAt word root n = some a) : a % 2 ^ 12 = 0 := by
  by_cases hn : n = .root
  · subst hn
    obtain rfl := Option.some.inj h
    exact hroot
  · rw [linkAt_eq hn] at h
    obtain ⟨p, -, hp⟩ := Option.bind_eq_some_iff.mp h
    rw [← (Pte.link_eq_some.mp hp).2]
    exact Pte.addr_mod p

theorem opAt_table {n : Node} : opAt π word root (.table n) = some o ↔
    ∃ p, pointerAt word root n = some p ∧ p.linked ∧ π.drop p ∧ o = .table p.addr := by
  unfold opAt
  simp only [Option.bind_eq_some_iff, Option.ite_none_right_eq_some, Bool.and_eq_true,
    Option.some.injEq]
  grind

theorem opAt_leaf {i j k : Fin 512} : opAt π word root (.leaf i j k) = some o ↔
    ∃ t, linkAt word root (.low i j) = some t ∧ π.leaf (entry word t k) ∧
      o = .page (entry word t k).addr (t + 8 * k) := by
  unfold opAt
  simp only [Option.bind_eq_some_iff, Option.ite_none_right_eq_some, Option.some.injEq]
  grind

/-- What is given back is the page at the place. -/
theorem placeAt_of_opAt (h : opAt π word root x = some o) :
    placeAt word root π.leaf x = some o.addr := by
  cases x with
  | table n =>
    obtain ⟨p, hp, hlinked, -, rfl⟩ := opAt_table.mp h
    show linkAt word root n = _
    rw [linkAt_of_pointerAt hp, Pte.link_eq_some]
    exact ⟨hlinked, rfl⟩
  | leaf i j k =>
    obtain ⟨t, ht, hleaf, rfl⟩ := opAt_leaf.mp h
    show ((linkAt word root (.low i j)).map fun t => entry word t k).bind _ = _
    rw [ht]
    exact if_pos hleaf

theorem opAt_addr (h : opAt π word root x = some o) : o.addr % 2 ^ 12 = 0 ∧ o.addr < 2 ^ 64 := by
  have hpte : ∀ p : Pte, p.addr % 2 ^ 12 = 0 ∧ p.addr < 2 ^ 64 := by
    intro p
    refine ⟨Pte.addr_mod p, ?_⟩
    have := p.ppn.isLt
    unfold Pte.addr
    omega
  cases x with
  | table n =>
    obtain ⟨p, -, -, -, rfl⟩ := opAt_table.mp h
    exact hpte p
  | leaf i j k =>
    obtain ⟨t, -, -, rfl⟩ := opAt_leaf.mp h
    exact hpte _

/-- The other word that is written is the entry of the leaf. -/
theorem mem_writes (h : opAt π word root x = some o) {a : Nat} (ha : a ∈ o.writes) :
    a = o.addr ∨ ∃ i j k t, x = .leaf i j k ∧ linkAt word root (.low i j) = some t ∧
      a = t + 8 * k := by
  cases x with
  | table n =>
    obtain ⟨p, -, -, -, rfl⟩ := opAt_table.mp h
    exact Or.inl (List.mem_singleton.mp ha)
  | leaf i j k =>
    obtain ⟨t, ht, -, rfl⟩ := opAt_leaf.mp h
    obtain rfl | ha := List.mem_cons.mp ha
    · exact Or.inl rfl
    · exact Or.inr ⟨i, j, k, t, rfl, ht, List.mem_singleton.mp ha⟩

theorem OwnTree.tables {leaf : Pte → Bool} {free : List Nat} (ht : OwnTree leaf word root free) :
    TableTree leaf word root where
  aligned := ht.aligned
  tree n n' a h h' := Place.table.inj (ht.once (.table n) (.table n') a h h')
  apart i j k n a h h' := by cases ht.once (.leaf i j k) (.table n) a h h'

/-- Who writes an entry of a table: the operation that frees the table, or the one that clears
the entry. -/
theorem TableTree.write_entry (ht : TableTree π.leaf word root) (h : opAt π word root x = some o)
    {n : Node} {t : Nat} (hn : linkAt word root n = some t) {i : Fin 512}
    (hw : t + 8 * i.val ∈ o.writes) :
    x = .table n ∨ ∃ i' j', n = .low i' j' ∧ x = .leaf i' j' i := by
  have htalign := linkAt_aligned ht.aligned hn
  have hi := i.isLt
  obtain heq | ⟨i', j', k, t', rfl, ht', heq⟩ := mem_writes h hw
  · -- the page is aligned, so the entry is the first one
    have haddr := (opAt_addr h).1
    obtain rfl : t = o.addr := by omega
    have hplace := placeAt_of_opAt h
    cases x with
    | table n' => exact Or.inl (congrArg Place.table (ht.tree n' n o.addr hplace hn))
    | leaf i' j' k => exact absurd hn (ht.apart i' j' k n o.addr hplace)
  · have ht'align := linkAt_aligned ht.aligned ht'
    have hk := k.isLt
    obtain rfl : t = t' := by omega
    obtain rfl : i = k := Fin.ext (by omega)
    exact Or.inr ⟨i', j', ht.tree n (.low i' j') t hn ht', rfl⟩

namespace OwnTree

variable {free : List Nat}

/-- Who writes the first word of a page that is given back: the operation itself, or one that
clears the first entry of a table that is freed later. -/
theorem write_addr (ht : OwnTree π.leaf word root free) (h : opAt π word root x = some o)
    (h' : opAt π word root y = some o') (hw : o.addr ∈ o'.writes) :
    x = y ∨ ∃ i j k, x = .table (.low i j) ∧ y = .leaf i j k := by
  obtain heq | ⟨i, j, k, t, rfl, hlow, heq⟩ := mem_writes h' hw
  · have hplace := placeAt_of_opAt h
    rw [heq] at hplace
    exact Or.inl (ht.once x y _ hplace (placeAt_of_opAt h'))
  · have halign := linkAt_aligned ht.aligned hlow
    have haddr := (opAt_addr h).1
    have hk := k.isLt
    obtain heq : o.addr = t := by omega
    have hplace := placeAt_of_opAt h
    rw [heq] at hplace
    exact Or.inr ⟨i, j, k, ht.once x (.table (.low i j)) t hplace hlow, rfl⟩

/-- The free pages are not written. -/
theorem write_free (ht : OwnTree π.leaf word root free) (h : opAt π word root x = some o)
    {a : Nat} (ha : a ∈ free) : a ∉ o.writes := by
  intro hw
  obtain rfl | ⟨i, j, k, t, -, hlow, rfl⟩ := mem_writes h hw
  · exact ht.notMem x _ (placeAt_of_opAt h) ha
  · have halign := linkAt_aligned ht.aligned hlow
    have hpage := (ht.free_page _ ha).1
    have hk := k.isLt
    obtain hzero : t + 8 * k.val = t := by omega
    rw [hzero] at ha
    exact ht.notMem (.table (.low i j)) t hlow ha

end OwnTree

end Places

/-! ## The order of the loops -/

/-- The places that the round for an entry of a middle table comes to. -/
def visitLow (i j : Fin 512) : List Place :=
  (List.finRange 512).map (.leaf i j) ++ [.table (.low i j)]

/-- The places that the round for an entry of the root comes to. -/
def visitMid (i : Fin 512) : List Place :=
  (List.finRange 512).flatMap (visitLow i) ++ [.table (.mid i)]

@[irreducible] def visit : List Place := (List.finRange 512).flatMap visitMid

theorem mem_visitLow {i j : Fin 512} {x : Place} :
    x ∈ visitLow i j ↔ (∃ k, x = .leaf i j k) ∨ x = .table (.low i j) := by
  unfold visitLow
  simp only [List.mem_append, List.mem_map, List.mem_finRange, true_and, List.mem_singleton,
    eq_comm]

theorem mem_visitMid {i : Fin 512} {x : Place} :
    x ∈ visitMid i ↔ (∃ j, x ∈ visitLow i j) ∨ x = .table (.mid i) := by
  unfold visitMid
  simp only [List.mem_append, List.mem_flatMap, List.mem_finRange, true_and, List.mem_singleton]

/-- All places but the root. -/
theorem mem_visit {x : Place} : x ∈ visit ↔ x ≠ .table .root := by
  unfold visit
  simp only [List.mem_flatMap, List.mem_finRange, true_and, mem_visitMid, mem_visitLow]
  cases x with
  | leaf i j k => simp
  | table n => cases n <;> simp

/-- The place is below this node. -/
inductive Place.Under : Place → Node → Prop
  | leaf_low (i j k : Fin 512) : Under (.leaf i j k) (.low i j)
  | leaf_mid (i j k : Fin 512) : Under (.leaf i j k) (.mid i)
  | low_mid (i j : Fin 512) : Under (.table (.low i j)) (.mid i)

/-- `y` may come after `x`: it is another place, and not below a table that was freed at `x`. -/
def Place.Before (x y : Place) : Prop := x ≠ y ∧ ∀ n, x = .table n → ¬y.Under n

theorem pairwise_visitLow (i j : Fin 512) : (visitLow i j).Pairwise Place.Before := by
  unfold visitLow
  refine List.pairwise_append.mpr ⟨?_, List.pairwise_singleton _ _, fun x hx y hy => ?_⟩
  · refine List.pairwise_map.mpr ((List.nodup_finRange 512).imp fun hne => ?_)
    exact ⟨fun heq => hne (Place.leaf.inj heq).2.2, fun n h => by cases h⟩
  · obtain ⟨k, -, rfl⟩ := List.mem_map.mp hx
    obtain rfl := List.mem_singleton.mp hy
    exact ⟨by nofun, fun n h => by cases h⟩

theorem pairwise_visitMid (i : Fin 512) : (visitMid i).Pairwise Place.Before := by
  unfold visitMid
  refine List.pairwise_append.mpr ⟨?_, List.pairwise_singleton _ _, fun x hx y hy => ?_⟩
  · refine List.pairwise_flatMap.mpr ⟨fun j _ => pairwise_visitLow i j, ?_⟩
    refine (List.nodup_finRange 512).imp fun hne x hx y hy => ?_
    -- the places below different entries
    obtain ⟨k, rfl⟩ | rfl := mem_visitLow.mp hx <;> obtain ⟨k', rfl⟩ | rfl := mem_visitLow.mp hy <;>
      refine ⟨by simp [hne], fun n h hunder => ?_⟩ <;> cases h <;> cases hunder
    exact hne rfl
  · -- the table itself comes last
    obtain ⟨j, -, hx⟩ := List.mem_flatMap.mp hx
    obtain rfl := List.mem_singleton.mp hy
    refine ⟨?_, fun n _ hunder => by cases hunder⟩
    rintro rfl
    obtain ⟨k, h⟩ | h := mem_visitLow.mp hx <;> cases h

theorem pairwise_visit : visit.Pairwise Place.Before := by
  unfold visit
  refine List.pairwise_flatMap.mpr ⟨fun i _ => pairwise_visitMid i, ?_⟩
  refine (List.nodup_finRange 512).imp fun hne x hx y hy => ?_
  -- no node below one entry of the root is a node below another one
  simp only [mem_visitMid, mem_visitLow] at hx hy
  constructor
  · rintro rfl
    obtain ⟨j, ⟨k, rfl⟩ | rfl⟩ | rfl := hx <;> obtain ⟨j', ⟨k', h⟩ | h⟩ | h := hy <;> cases h <;>
      exact hne rfl
  · rintro n rfl hunder
    cases hunder <;> obtain ⟨j, ⟨k, h⟩ | h⟩ | h := hx <;> cases h <;>
      obtain ⟨j', ⟨k', h⟩ | h⟩ | h := hy <;> cases h <;> exact hne rfl

/-! ## The loops as a list of operations -/

/-- What the loops do, in their order. -/
def spaceOps (π : Policy) (word : Nat → BitVec 64) (root : Nat) : List Op :=
  visit.filterMap (opAt π word root)

theorem mem_spaceOps {π : Policy} {word : Nat → BitVec 64} {root : Nat} {o : Op} :
    o ∈ spaceOps π word root ↔ ∃ x, opAt π word root x = some o := by
  unfold spaceOps
  rw [List.mem_filterMap]
  refine ⟨fun ⟨x, _, h⟩ => ⟨x, h⟩, fun ⟨x, h⟩ => ⟨x, mem_visit.mpr ?_, h⟩⟩
  rintro rfl
  cases h

/-- What is done first is what comes after nothing else. -/
theorem head?_spaceOps {π : Policy} {word : Nat → BitVec 64} {root : Nat} {o : Op}
    (ho : o ∈ spaceOps π word root) (hfirst : ∀ x y o', opAt π word root x = some o →
      opAt π word root y = some o' → o' = o ∨ ¬y.Before x) :
    (spaceOps π word root).head? = some o := by
  have hpairs : (spaceOps π word root).Pairwise fun o o' => ∃ x y,
      opAt π word root x = some o ∧ opAt π word root y = some o' ∧ x.Before y :=
    List.pairwise_filterMap.mpr (pairwise_visit.imp fun {x y} hxy o ho o' ho' =>
      ⟨x, y, ho, ho', hxy⟩)
  cases hops : spaceOps π word root with
  | nil =>
    rw [hops] at ho
    cases ho
  | cons o' rest =>
    rw [hops] at ho hpairs
    obtain rfl | hrest := List.mem_cons.mp ho
    · rfl
    · obtain ⟨y, x, hy, hx, hbefore⟩ := (List.pairwise_cons.mp hpairs).1 o hrest
      obtain rfl | hnot := hfirst x y o' hx hy
      · rfl
      · exact absurd hbefore hnot

section RunOps

variable {m : Phys} {ops : List Op} {o : Op} {a : Nat}

theorem Op.run_word (h : a ∉ o.writes) : (o.run m).word a = m.word a := by
  cases o with
  | page p e =>
    simp only [Op.writes, List.mem_cons, List.not_mem_nil, or_false, not_or] at h
    show Function.update (m.giveBack p).word e _ a = _
    rw [Function.update_of_ne h.2]
    unfold Phys.giveBack
    split
    · rfl
    · exact Function.update_of_ne h.1 ..
  | table p => exact Function.update_of_ne (fun heq => h (List.mem_singleton.mpr heq)) ..

theorem Op.run_freeList (m : Phys) (o : Op) : (o.run m).freeList = o.addr := by
  cases o with
  | page p e =>
    show (m.giveBack p).freeList = p
    unfold Phys.giveBack
    split <;> rfl
  | table p => rfl

theorem runOps_append (m : Phys) (ops ops' : List Op) :
    runOps m (ops ++ ops') = runOps (runOps m ops) ops' := List.foldl_append

theorem runOps_word (h : ∀ o ∈ ops, a ∉ o.writes) : (runOps m ops).word a = m.word a := by
  induction ops generalizing m with
  | nil => rfl
  | cons o ops ih =>
    exact (ih fun o' ho' => h o' (List.mem_cons_of_mem o ho')).trans
      (Op.run_word (h o List.mem_cons_self))

/-- A loop whose rounds do `ops`, as long as the words that they read are those of `m₀`, and do
not write what another round reads. -/
theorem foldl_eq_runOps (m₀ : Phys) {f : Phys → Fin 512 → Phys} (ops : Fin 512 → List Op)
    (reads : Fin 512 → Nat → Prop) {l : List (Fin 512)} (hnodup : l.Nodup)
    (hf : ∀ i m, (∀ a, reads i a → m.word a = m₀.word a) → f m i = runOps m (ops i))
    (hsep : ∀ i j, i ≠ j → ∀ o ∈ ops i, ∀ a ∈ o.writes, ¬reads j a)
    (hm : ∀ i a, i ∈ l → reads i a → m.word a = m₀.word a) :
    l.foldl f m = runOps m (l.flatMap ops) := by
  induction l generalizing m with
  | nil => rfl
  | cons i l ih =>
    obtain ⟨hi, hl⟩ := List.nodup_cons.mp hnodup
    rw [List.foldl_cons, List.flatMap_cons, runOps_append,
      hf i m fun a ha => hm i a List.mem_cons_self ha]
    refine ih hl fun j a hj ha => ?_
    have hne : i ≠ j := fun heq => hi (heq ▸ hj)
    rw [runOps_word fun o ho hw => hsep i j hne o ho a hw ha]
    exact hm j a (List.mem_cons_of_mem i hj) ha

end RunOps

namespace TableTree

open Phys

variable {π : Policy} {m m₀ : Phys} {root : Nat}

/-- The loop over a last table. -/
theorem forEntries_freeLeaf (ht : TableTree π.leaf m₀.word root) {i j : Fin 512} {t : Nat}
    (hlow : linkAt m₀.word root (.low i j) = some t)
    (hm : ∀ k : Fin 512, m.word (t + 8 * k) = m₀.word (t + 8 * k)) :
    forEntries (freeLeaf π t) m =
      runOps m (((List.finRange 512).map (.leaf i j)).filterMap (opAt π m₀.word root)) := by
  rw [List.filterMap_map]
  have hloop := foldl_eq_runOps m₀ (f := freeLeaf π t) (m := m)
    (fun k => (opAt π m₀.word root (.leaf i j k)).toList) (fun k a => a = t + 8 * k.val)
    (List.nodup_finRange 512) ?_ ?_ ?_
  · unfold forEntries
    rw [hloop, List.filterMap_eq_flatMap_toList]
    rfl
  · intro k m hk
    have hentry : entry m.word t k = entry m₀.word t k := entry_congr (hk _ rfl)
    unfold freeLeaf
    dsimp only
    rw [hentry]
    show _ = runOps m ((linkAt m₀.word root (.low i j)).bind _).toList
    rw [hlow, Option.bind_some]
    split <;> rfl
  · rintro k k' hne o ho a hw rfl
    -- the entry `k` is the only one of this table that the round for `k` writes
    obtain hx | ⟨i', j', hn, hx⟩ := ht.write_entry (Option.mem_toList.mp ho) hlow hw
    · cases hx
    · cases hn
      exact hne (Place.leaf.inj hx).2.2
  · rintro k a - rfl
    exact hm k

/-- A round that goes over a table: the operations below, and the table itself. -/
theorem freeTable_eq {below : Nat → Phys → Phys} {n' : Node} {t : Nat} {i : Fin 512}
    {ops : List Op} (hpointer : pointerAt m₀.word root n' = some (entry m₀.word t i))
    (hm : m.word (t + 8 * i) = m₀.word (t + 8 * i))
    (hbelow : ∀ t', linkAt m₀.word root n' = some t' → below t' m = runOps m ops)
    (hkeeps : ∀ o ∈ ops, t + 8 * i.val ∉ o.writes)
    (hnone : linkAt m₀.word root n' = none → ops = []) :
    freeTable π below t m i = runOps m (ops ++ (opAt π m₀.word root (.table n')).toList) := by
  have hentry : entry m.word t i = entry m₀.word t i := entry_congr hm
  have hlink := linkAt_of_pointerAt hpointer
  have hop : opAt π m₀.word root (.table n') =
      if (entry m₀.word t i).linked && π.drop (entry m₀.word t i)
      then some (.table (entry m₀.word t i).addr) else none := by
    show (pointerAt m₀.word root n').bind _ = _
    rw [hpointer]
    rfl
  unfold freeTable
  dsimp only
  rw [hentry, hop]
  by_cases hlinked : (entry m₀.word t i).linked
  · rw [if_pos hlinked, hbelow _ (hlink.trans (Pte.link_eq_some.mpr ⟨hlinked, rfl⟩)), hlinked,
      runOps_append]
    -- the pointer is read again after the loop below
    rw [entry_congr (runOps_word hkeeps), hentry, Bool.true_and]
    split <;> rfl
  · rw [if_neg hlinked, hnone (by rw [hlink]; exact if_neg hlinked),
      Bool.eq_false_of_not_eq_true hlinked]
    rfl

/-- What the round for an entry of a middle table `t` reads. -/
def lowReads (m₀ : Phys) (root t : Nat) (i j : Fin 512) (a : Nat) : Prop :=
  a = t + 8 * j.val ∨ ∃ t', linkAt m₀.word root (.low i j) = some t' ∧ ∃ k : Fin 512, a = t' + 8 * k.val

/-- The loop over a middle table. -/
theorem forEntries_freeLow (ht : TableTree π.leaf m₀.word root) {i : Fin 512} {t : Nat}
    (hmid : linkAt m₀.word root (.mid i) = some t)
    (hm : ∀ j a, lowReads m₀ root t i j a → m.word a = m₀.word a) :
    forEntries (freeLow π t) m =
      runOps m (((List.finRange 512).flatMap (visitLow i)).filterMap (opAt π m₀.word root)) := by
  rw [List.filterMap_flatMap]
  refine foldl_eq_runOps m₀ _ (lowReads m₀ root t i) (List.nodup_finRange 512) ?_ ?_
    fun j a _ => hm j a
  · intro j m hj
    show _ = runOps m ((visitLow i j).filterMap (opAt π m₀.word root))
    unfold visitLow
    rw [List.filterMap_append, List.filterMap_eq_flatMap_toList _ [Place.table _],
      List.flatMap_singleton]
    refine freeTable_eq (pointerAt_low hmid) (hj _ (Or.inl rfl)) (fun t' ht' => ?_) ?_ fun hnone => ?_
    · exact ht.forEntries_freeLeaf ht' fun k => hj _ (Or.inr ⟨t', ht', k, rfl⟩)
    · intro o ho hw
      obtain ⟨x, hx, hop⟩ := List.mem_filterMap.mp ho
      obtain ⟨k, -, rfl⟩ := List.mem_map.mp hx
      obtain h | ⟨_, _, h, -⟩ := ht.write_entry hop hmid hw <;> cases h
    · refine List.filterMap_eq_nil_iff.mpr fun x hx => ?_
      obtain ⟨k, -, rfl⟩ := List.mem_map.mp hx
      show (linkAt m₀.word root (.low i j)).bind _ = none
      rw [hnone]
      rfl
  · intro j j' hne o ho a hw hreads
    obtain ⟨x, hx, hop⟩ := List.mem_filterMap.mp ho
    have hx := mem_visitLow.mp hx
    obtain rfl | ⟨t', ht', k, rfl⟩ := hreads
    · -- the middle table itself
      obtain rfl | ⟨_, _, h, -⟩ := ht.write_entry hop hmid hw
      · obtain ⟨_, h⟩ | h := hx <;> cases h
      · cases h
    · -- the table below another entry
      obtain rfl | ⟨i', k', h, rfl⟩ := ht.write_entry hop ht' hw
      · obtain ⟨_, h⟩ | h := hx <;> cases h
        exact hne rfl
      · cases h
        obtain ⟨_, h⟩ | h := hx <;> cases h
        exact hne rfl

/-- What the round for an entry of the root reads. -/
def midReads (m₀ : Phys) (root : Nat) (i : Fin 512) (a : Nat) : Prop :=
  a = root + 8 * i.val ∨
    ∃ t, linkAt m₀.word root (.mid i) = some t ∧ ∃ j, lowReads m₀ root t i j a

/-- The loops do what the tables say before they begin. -/
theorem forEntries_freeMid (ht : TableTree π.leaf m₀.word root) :
    forEntries (freeMid π root) m₀ = runOps m₀ (spaceOps π m₀.word root) := by
  unfold spaceOps visit
  rw [List.filterMap_flatMap]
  refine foldl_eq_runOps m₀ _ (midReads m₀ root) (List.nodup_finRange 512) ?_ ?_
    fun i a _ _ => rfl
  · intro i m hi
    show _ = runOps m ((visitMid i).filterMap (opAt π m₀.word root))
    unfold visitMid
    rw [List.filterMap_append, List.filterMap_eq_flatMap_toList _ [Place.table _],
      List.flatMap_singleton]
    refine freeTable_eq rfl (hi _ (Or.inl rfl)) (fun t ht' => ?_) ?_ fun hnone => ?_
    · exact ht.forEntries_freeLow ht' fun j a ha => hi a (Or.inr ⟨t, ht', j, ha⟩)
    · intro o ho hw
      obtain ⟨x, hx, hop⟩ := List.mem_filterMap.mp ho
      obtain h | ⟨_, _, h, -⟩ := ht.write_entry (n := .root) hop rfl hw <;> cases h
      cases hop
    · refine List.filterMap_eq_nil_iff.mpr fun x hx => ?_
      have hlink : (entry m₀.word root i).link = none := hnone
      obtain ⟨j, -, hx⟩ := List.mem_flatMap.mp hx
      obtain ⟨k, rfl⟩ | rfl := mem_visitLow.mp hx
      · show (((entry m₀.word root i).link.bind _).bind _) = none
        rw [hlink]
        rfl
      · show (((entry m₀.word root i).link.map _).bind _) = none
        rw [hlink]
        rfl
  · intro i i' hne o ho a hw hreads
    obtain ⟨x, hx, hop⟩ := List.mem_filterMap.mp ho
    simp only [mem_visitMid, mem_visitLow] at hx
    obtain rfl | ⟨t, hmid, j, rfl | ⟨t', hlow, k, rfl⟩⟩ := hreads
    · obtain rfl | ⟨_, _, h, -⟩ := ht.write_entry (n := .root) hop rfl hw
      · cases hop
      · cases h
    · obtain rfl | ⟨_, _, h, -⟩ := ht.write_entry hop hmid hw
      · obtain ⟨_, ⟨_, h⟩ | h⟩ | h := hx <;> cases h
        exact hne rfl
      · cases h
    · obtain rfl | ⟨_, _, h, rfl⟩ := ht.write_entry hop hlow hw
      · obtain ⟨_, ⟨_, h⟩ | h⟩ | h := hx <;> cases h
        exact hne rfl
      · cases h
        obtain ⟨_, ⟨_, h⟩ | h⟩ | h := hx <;> cases h
        exact hne rfl

end TableTree

/-! ## The free list afterwards -/

/-- What the first page that is given back links to. On an empty free list a page keeps the word
that it has. -/
def oldList (m : Phys) : List Op → Nat
  | .page p _ :: _ => if m.freeList = 0 then (m.word p).toNat else m.freeList
  | _ => m.freeList

theorem oldList_of_ne_zero {m : Phys} (h : m.freeList ≠ 0) (ops : List Op) :
    oldList m ops = m.freeList := by
  unfold oldList
  split
  · exact if_neg h
  · rfl

/-- The page at the head links to what was first before. -/
theorem Op.run_word_addr {m : Phys} (hm : m.freeList < 2 ^ 64) {o : Op} (ops : List Op)
    (ho : ∀ p e, o = .page p e → p ≠ e) : ((o.run m).word o.addr).toNat = oldList m (o :: ops) := by
  have hlink : (BitVec.ofNat 64 m.freeList).toNat = m.freeList :=
    (BitVec.toNat_ofNat ..).trans (Nat.mod_eq_of_lt hm)
  cases o with
  | page p e =>
    show (Function.update (m.giveBack p).word e _ p).toNat = if _ then _ else _
    rw [Function.update_of_ne (ho p e rfl)]
    unfold Phys.giveBack
    split
    · rfl
    · show (Function.update m.word p _ p).toNat = _
      rw [Function.update_self]
      exact hlink
  | table p =>
    show (Function.update m.word p _ p).toNat = _
    rw [Function.update_self]
    exact hlink

/-- The operations put their pages on the list in front of it, the last one first. No page that
is on the list is written by a later operation. -/
theorem spellsTo_runOps {m : Phys} {ops : List Op} (hm : m.freeList < 2 ^ 64)
    (hpairs : ops.Pairwise fun o o' => o.addr ∉ o'.writes)
    (haddr : ∀ o ∈ ops, o.addr ≠ 0 ∧ o.addr < 2 ^ 64)
    (hentry : ∀ p e, .page p e ∈ ops → p ≠ e) :
    SpellsTo (fun p => ((runOps m ops).word p).toNat) (runOps m ops).freeList
      (ops.map Op.addr).reverse (oldList m ops) := by
  induction ops generalizing m with
  | nil => rfl
  | cons o ops ih =>
    obtain ⟨hlater, hrest⟩ := List.pairwise_cons.mp hpairs
    obtain ⟨hne, hlt⟩ := haddr o List.mem_cons_self
    have hhead := o.run_freeList m
    have hih := ih (m := o.run m) (by rw [hhead]; exact hlt) hrest
      (fun o' ho' => haddr o' (List.mem_cons_of_mem o ho'))
      (fun p e h => hentry p e (List.mem_cons_of_mem o h))
    -- the free list is not empty any more
    rw [oldList_of_ne_zero (by rwa [hhead]), hhead] at hih
    rw [List.map_cons, List.reverse_cons]
    refine SpellsTo.snoc hih ?_
    show ((runOps (o.run m) ops).word o.addr).toNat = _
    rw [runOps_word hlater]
    exact Op.run_word_addr hm ops fun p e h => hentry p e (h ▸ List.mem_cons_self)

namespace OwnTree

variable {π : Policy} {m : Phys} {root : Nat} {free : List Nat}

/-- In the order of the loops no page is written once it is on the list. -/
theorem pairwise_spaceOps (ht : OwnTree π.leaf m.word root free) :
    (spaceOps π m.word root).Pairwise fun o o' => o.addr ∉ o'.writes := by
  unfold spaceOps
  refine List.pairwise_filterMap.mpr (pairwise_visit.imp fun hxy o ho o' ho' hw => ?_)
  obtain heq | ⟨i, j, k, hx, rfl⟩ := ht.write_addr ho ho' hw
  · exact hxy.1 heq
  · exact hxy.2 _ hx (.leaf_low i j k)

theorem nodup_spaceOps (ht : OwnTree π.leaf m.word root free) :
    ((spaceOps π m.word root).map Op.addr).Nodup := by
  refine List.pairwise_map.mpr (ht.pairwise_spaceOps.imp fun {o o'} hw heq => hw ?_)
  rw [heq]
  cases o' <;> exact List.mem_cons_self

/-- A page is not the entry that maps it. -/
theorem page_ne_entry (ht : OwnTree π.leaf m.word root free) {p e : Nat}
    (h : .page p e ∈ spaceOps π m.word root) : p ≠ e := by
  obtain ⟨x, hx⟩ := mem_spaceOps.mp h
  intro heq
  cases x with
  | table n =>
    obtain ⟨_, -, -, -, hop⟩ := opAt_table.mp hx
    cases hop
  | leaf i j k =>
    obtain ⟨t, hlow, -, hop⟩ := opAt_leaf.mp hx
    obtain ⟨rfl, rfl⟩ := Op.page.inj hop
    rw [heq] at hx
    -- then the table would be the page of its own first entry
    have halign := linkAt_aligned ht.aligned hlow
    have hmod := (opAt_addr hx).1
    have hk := k.isLt
    have hzero : t + 8 * k.val = t := by
      have hmod : (t + 8 * k.val) % 2 ^ 12 = 0 := hmod
      omega
    have hplace : placeAt m.word root π.leaf (.leaf i j k) = some t := hzero ▸ placeAt_of_opAt hx
    exact ht.tables.apart i j k (.low i j) t hplace hlow

/-- The free list after the loops. -/
theorem free_iff (ht : OwnTree π.leaf m.word root free) (hfree : m.Free free)
    (hne : ∀ o ∈ spaceOps π m.word root, o.addr ≠ 0) {k : List Nat} :
    (runOps m (spaceOps π m.word root)).Free k ↔
      ∃ k', k = ((spaceOps π m.word root).map Op.addr).reverse ++ k' ∧
        Spells (fun p => ((runOps m (spaceOps π m.word root)).word p).toNat)
          (oldList m (spaceOps π m.word root)) k' := by
  have hm : m.freeList < 2 ^ 64 := by
    by_cases hzero : m.freeList = 0
    · rw [hzero]
      decide
    · exact (ht.free_page _ (hfree.mem_iff.mpr hzero)).2
  refine SpellsTo.spells_iff (spellsTo_runOps hm ht.pairwise_spaceOps (fun o ho => ?_)
    fun p e => ht.page_ne_entry) fun p hp => ?_
  · obtain ⟨x, hx⟩ := mem_spaceOps.mp ho
    exact ⟨hne o ho, (opAt_addr hx).2⟩
  · obtain ⟨o, ho, rfl⟩ := List.mem_map.mp (List.mem_reverse.mp hp)
    exact hne o ho

/-- The old free pages are still linked. -/
theorem spells_old (ht : OwnTree π.leaf m.word root free) (hfree : m.Free free) :
    Spells (fun p => ((runOps m (spaceOps π m.word root)).word p).toNat) m.freeList free := by
  refine Spells.congr hfree fun q hq => ?_
  rw [runOps_word]
  intro o ho
  obtain ⟨x, hx⟩ := mem_spaceOps.mp ho
  exact ht.write_free hx hq

/-- If the page that goes first on the list links to it, the list is the old one behind the
pages that are given back. -/
theorem free_of_oldList (ht : OwnTree π.leaf m.word root free) (hfree : m.Free free)
    (hne : ∀ o ∈ spaceOps π m.word root, o.addr ≠ 0)
    (hold : oldList m (spaceOps π m.word root) = m.freeList) :
    (runOps m (spaceOps π m.word root)).Free
      (((spaceOps π m.word root).map Op.addr).reverse ++ free) := by
  refine (ht.free_iff hfree hne).mpr ⟨free, rfl, ?_⟩
  rw [hold]
  exact ht.spells_old hfree

/-- What is given back was not free. -/
theorem nodup_append (ht : OwnTree π.leaf m.word root free) (hfree : m.Free free) :
    (((spaceOps π m.word root).map Op.addr).reverse ++ free).Nodup := by
  refine List.nodup_append.mpr ⟨List.nodup_reverse.mpr ht.nodup_spaceOps, Spells.nodup hfree, ?_⟩
  rintro a ha b hb rfl
  obtain ⟨o, ho, rfl⟩ := List.mem_map.mp (List.mem_reverse.mp ha)
  obtain ⟨x, hx⟩ := mem_spaceOps.mp ho
  exact ht.notMem x _ (placeAt_of_opAt hx) hb

/-- Entries that no operation is about keep their value. -/
theorem word_eq (ht : OwnTree π.leaf m.word root free) {n : Node} {t : Nat}
    (hn : linkAt m.word root n = some t) {i : Fin 512}
    (hkept : opAt π m.word root (.table n) = none)
    (hentry : ∀ i' j', n = .low i' j' → opAt π m.word root (.leaf i' j' i) = none) :
    (runOps m (spaceOps π m.word root)).word (t + 8 * i) = m.word (t + 8 * i) := by
  refine runOps_word fun o ho hw => ?_
  obtain ⟨x, hx⟩ := mem_spaceOps.mp ho
  obtain rfl | ⟨i', j', hnode, rfl⟩ := ht.tables.write_entry hx hn hw
  · rw [hkept] at hx
    cases hx
  · rw [hentry i' j' hnode] at hx
    cases hx

end OwnTree

/-! ## Pages that are mapped more than once

Which page is the first free one after `memory_unmap_and_free_user` does not depend on how often
the pages are mapped, so `TableTree` is enough here. -/

namespace Owned

variable {m m' : Phys} {root : Nat} {free : List Nat}

/-- What the loops take for a table is one. -/
theorem linkAt_eq (h : Owned m.word root free) (n : Node) :
    linkAt m.word root n = tableAt m.word root n := by
  have hchild : ∀ p : Pte, (p.linked → p.isTable ∧ p.has PTE_U = false) → p.link = p.child := by
    intro p hp
    refine Option.ext fun a => ?_
    rw [Pte.link_eq_some, Pte.child_eq_some]
    exact and_congr_left fun _ => ⟨fun hl => (hp hl).1, Pte.linked_of_isTable⟩
  have hmid : ∀ i, linkAt m.word root (.mid i) = tableAt m.word root (.mid i) := fun i =>
    hchild _ (h.root_linked i)
  cases n with
  | root => rfl
  | mid i => exact hmid i
  | low i j =>
    show (linkAt m.word root (.mid i)).bind _ = (tableAt m.word root (.mid i)).bind _
    rw [hmid i]
    exact Option.bind_congr fun t ht => hchild _ (h.mid_linked i t ht j)

/-- The pages that the entries of the user map are the pages of the user. -/
theorem userPage_iff (h : Owned m.word root free) {p : Nat} :
    UserPage m.word root p ↔
      ∃ i j k, placeAt m.word root Policy.unmap.leaf (.leaf i j k) = some p := by
  unfold UserPage placeAt leafAt
  simp only [h.linkAt_eq, Option.bind_eq_some_iff, Option.map_eq_some_iff,
    Option.ite_none_right_eq_some, Option.some.injEq]
  constructor
  · rintro ⟨i, j, k, t, ht, huser, rfl⟩
    exact ⟨i, j, k, _, ⟨t, ht, rfl⟩, huser, rfl⟩
  · rintro ⟨i, j, k, _, ⟨t, ht, rfl⟩, huser, rfl⟩
    exact ⟨i, j, k, t, ht, huser, rfl⟩

theorem tables (h : Owned m.word root free) : TableTree Policy.unmap.leaf m.word root where
  aligned := h.space.aligned
  tree n n' a ha ha' := by
    rw [h.linkAt_eq] at ha ha'
    exact h.space.tree n n' a ha ha'
  apart i j k n a hpage := by
    rw [h.linkAt_eq]
    exact h.notTable a (h.userPage_iff.mpr ⟨i, j, k, hpage⟩) n

/-- The tables are kept, so that every operation is about a page of the user. -/
theorem opAt_addr (h : Owned m.word root free) {x : Place} {o : Op}
    (ho : opAt .unmap m.word root x = some o) : UserPage m.word root o.addr := by
  cases x with
  | table n =>
    obtain ⟨q, hq, hlinked, hdrop, -⟩ := opAt_table.mp ho
    have hU : q.has PTE_U = false := by
      cases n with
      | root => cases hq
      | mid i =>
        obtain rfl := Option.some.inj hq
        exact (h.root_linked i hlinked).2
      | low i j =>
        obtain ⟨t, ht, rfl⟩ := Option.map_eq_some_iff.mp hq
        exact (h.mid_linked i t ((h.linkAt_eq (.mid i)).symm.trans ht) j hlinked).2
    have hdrop : q.has PTE_U = true := hdrop
    rw [hU] at hdrop
    cases hdrop
  | leaf i j k => exact h.userPage_iff.mpr ⟨i, j, k, placeAt_of_opAt ho⟩

/-- If there is a page of the user, the first free page is one of those afterwards. If there is
none, nothing changes. -/
theorem unmap_freeList (h : Owned m.word root free)
    (hm : Phys.memoryUnmapAndFreeUser root m = some m') :
    ((∃ p, UserPage m.word root p) → UserPage m.word root m'.freeList) ∧
      ((¬∃ p, UserPage m.word root p) → m' = m) := by
  rw [Phys.memoryUnmapAndFreeUser_eq, h.tables.forEntries_freeMid] at hm
  obtain ⟨-, hm⟩ := Option.ite_none_left_eq_some.mp hm
  obtain rfl := Option.some.inj hm
  have hops : ∀ o ∈ spaceOps .unmap m.word root, UserPage m.word root o.addr := fun o ho => by
    obtain ⟨x, hx⟩ := mem_spaceOps.mp ho
    exact h.opAt_addr hx
  -- the last operation decides which page is the first free one
  obtain hnil | ⟨front, o, hlast⟩ := List.eq_nil_or_concat (spaceOps .unmap m.word root)
  · rw [hnil]
    refine ⟨fun ⟨p, hp⟩ => ?_, fun _ => rfl⟩
    obtain ⟨i, j, k, t, ht, huser, -⟩ := hp
    have hop : opAt .unmap m.word root (.leaf i j k) = some (.page _ (t + 8 * k)) :=
      opAt_leaf.mpr ⟨t, (h.linkAt_eq _).trans ht, huser, rfl⟩
    have hmem := mem_spaceOps.mpr ⟨_, hop⟩
    rw [hnil] at hmem
    cases hmem
  · have huser : UserPage m.word root o.addr := hops o (by simp [hlast])
    rw [hlast, List.concat_eq_append, runOps_append]
    refine ⟨fun _ => ?_, fun hnone => absurd ⟨_, huser⟩ hnone⟩
    show UserPage m.word root ((o.run _).freeList)
    rw [Op.run_freeList]
    exact huser

end Owned

end RiscvKernel
