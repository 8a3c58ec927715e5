import RiscvKernel.Memory.Sv39

/-!
# Address spaces

The tables of an address space, and what changing entries on the way to one virtual page does
to the translations of all of them.

* `tableAt` finds the tables of an address space by the way to them; `Space` says that they
  form a tree apart from the free pages.
* `Walked` says what a walk leaves behind that adds the tables on the way to a virtual page:
  at most one entry changed in the root, in the middle table and in the last table.
* `Walked.others_iff`, `Walked.others_iff_of_leaf`: the other virtual pages keep their translations
  if and only if the entries that the new tables come with translate nothing.
-/

namespace RiscvKernel

/-! ## Address spaces -/

/-- A table of an address space, by the way to it. -/
inductive Node where
  | root
  | mid (i : Fin 512)
  | low (i j : Fin 512)
  deriving DecidableEq

/-- The table that an entry points to. -/
def Pte.child (p : Pte) : Option Nat := if p.isTable then some p.addr else none

/-- Where a table of the address space is, if the address space has it. -/
def tableAt (word : Nat → BitVec 64) (root : Nat) : Node → Option Nat
  | .root => some root
  | .mid i => (entry word root i).child
  | .low i j => (entry word root i).child.bind fun t => (entry word t j).child

/-- An address space whose tables form a tree: no page is a table twice, and no table is a free
page. The gigabyte of the user range has tables on all levels, no larger pages. -/
structure Space (word : Nat → BitVec 64) (root : Nat) (free : List Nat) : Prop where
  aligned : root % 2 ^ 12 = 0
  tree : ∀ n n' a, tableAt word root n = some a → tableAt word root n' = some a → n = n'
  used : ∀ n a, tableAt word root n = some a → a ∉ free
  mid : (entry word root 3).has PTE_V → (entry word root 3).isTable
  low : ∀ t, tableAt word root (.mid 3) = some t → ∀ j : Fin 512, j.val ≤ 128 →
    (entry word t j).has PTE_V → (entry word t j).isTable

variable {word word' : Nat → BitVec 64} {root : Nat} {v : Vpn} {free : List Nat}

theorem Pte.child_eq_some {p : Pte} {a : Nat} : p.child = some a ↔ p.isTable ∧ p.addr = a := by
  unfold Pte.child
  split
  · next h => simp [h]
  · next h => simp [h]

theorem Pte.child_of_not_V {p : Pte} (h : p.has PTE_V = false) : p.child = none := by
  cases hc : p.child with
  | none => rfl
  | some a =>
    rw [Pte.has_V_of_isTable (Pte.child_eq_some.mp hc).1] at h
    cases h

theorem tableAt_low {i j : Fin 512} {t : Nat} (h : tableAt word root (.mid i) = some t) :
    tableAt word root (.low i j) = (entry word t j).child := by
  have hc : (entry word root i).child = some t := h
  show ((entry word root i).child.bind fun t => (entry word t j).child) = _
  rw [hc]
  rfl

theorem tableAt_aligned (hroot : root % 2 ^ 12 = 0) {n : Node} {a : Nat}
    (h : tableAt word root n = some a) : a % 2 ^ 12 = 0 := by
  have hchild : ∀ p : Pte, p.child = some a → a % 2 ^ 12 = 0 := by
    intro p hp
    obtain ⟨-, rfl⟩ := Pte.child_eq_some.mp hp
    exact Nat.mul_mod_left _ _
  cases n with
  | root => exact Option.some.inj h ▸ hroot
  | mid i => exact hchild _ h
  | low i j =>
    obtain ⟨t, -, ht⟩ := Option.bind_eq_some_iff.mp h
    exact hchild _ ht

/-- Entries of different tables are different words. -/
theorem entry_ne {a b : Nat} (ha : a % 2 ^ 12 = 0) (hb : b % 2 ^ 12 = 0) (hab : a ≠ b)
    (i j : Fin 512) : a + 8 * i ≠ b + 8 * j := by
  have := i.isLt
  have := j.isLt
  omega

/-! ## Leaf entries -/

/-- What a leaf entry maps. -/
def Pte.mapping (p : Pte) : Option Mapping := if p.valid && p.leaf then some (p.ppn, p.flags) else none

theorem Pte.mapping_of_readable {p : Pte} (hV : p.has PTE_V = true) (hR : p.has PTE_R = true) :
    p.mapping = if p.hi = 0 then some (p.ppn, p.flags) else none := by
  unfold Pte.mapping Pte.valid Pte.leaf
  rw [hV, hR]
  simp

theorem Pte.mapping_eq_some {p : Pte} {x : Mapping} :
    p.mapping = some x ↔ (p.valid ∧ p.leaf) ∧ (p.ppn, p.flags) = x := by
  unfold Pte.mapping
  split
  · next h => simpa [Bool.and_eq_true] using fun _ => (Bool.and_eq_true _ _).mp h
  · next h =>
    rw [Bool.and_eq_true] at h
    simp [h]

theorem Pte.hi_of_valid {p : Pte} (h : p.valid) : p.hi = 0 := by
  unfold Pte.valid at h
  exact beq_iff_eq.mp ((Bool.and_eq_true _ _).mp h).2

/-- The leaf entry of `v`, if the address space has the tables on the way. -/
def leafEntry (word : Nat → BitVec 64) (root : Nat) (v : Vpn) : Option Pte :=
  (tableAt word root (.low v.i2 v.i1)).map fun t => entry word t v.i0

theorem leafEntry_of_low {t0 : Nat} (h : tableAt word root (.low v.i2 v.i1) = some t0) :
    leafEntry word root v = some (entry word t0 v.i0) := by
  unfold leafEntry
  rw [h]
  rfl

/-- The walk ends in the leaf entry. -/
theorem hwWalk_of_low {t0 : Nat} (h : tableAt word root (.low v.i2 v.i1) = some t0) :
    hwWalk word root v = (entry word t0 v.i0).mapping := by
  obtain ⟨t, hmid, -⟩ := Option.bind_eq_some_iff.mp h
  rw [tableAt_low hmid] at h
  obtain ⟨htable1, haddr1⟩ := Pte.child_eq_some.mp hmid
  obtain ⟨htable0, haddr0⟩ := Pte.child_eq_some.mp h
  rw [hwWalk_of_table htable1, haddr1, walk1_of_table htable0, haddr0]
  rfl

theorem hwWalk_of_leafEntry {p : Pte} (h : leafEntry word root v = some p) :
    hwWalk word root v = p.mapping := by
  obtain ⟨t0, ht0, rfl⟩ := Option.map_eq_some_iff.mp h
  exact hwWalk_of_low ht0

theorem Space.hwWalk_user (hs : Space word root free) (h2 : v.i2 = 3) (h1 : v.i1.val ≤ 128) :
    hwWalk word root v = (leafEntry word root v).bind Pte.mapping := by
  unfold leafEntry
  cases hlow : tableAt word root (.low v.i2 v.i1) with
  | some t0 => exact hwWalk_of_low hlow
  | none =>
    show hwWalk word root v = none
    by_cases hV : (entry word root v.i2).has PTE_V
    · have htable : (entry word root v.i2).isTable := by
        rw [h2] at hV ⊢
        exact hs.mid hV
      have hmid : tableAt word root (.mid v.i2) = some (entry word root v.i2).addr :=
        Pte.child_eq_some.mpr ⟨htable, rfl⟩
      rw [tableAt_low hmid] at hlow
      rw [hwWalk_of_table htable]
      apply walk1_of_not_valid
      apply Pte.valid_of_not_V
      by_contra hV0
      have hmid3 : tableAt word root (.mid 3) = some (entry word root v.i2).addr := by
        rw [← h2]
        exact hmid
      have htable0 := hs.low _ hmid3 v.i1 h1 (by rwa [Bool.not_eq_false] at hV0)
      rw [Pte.child_eq_some.mpr ⟨htable0, rfl⟩] at hlow
      cases hlow
    · exact hwWalk_of_not_valid (Pte.valid_of_not_V (by simpa using hV))

/-- The tables depend on the entries of the root and of the middle tables. -/
theorem tableAt_congr (hroot : ∀ i : Fin 512, word' (root + 8 * i) = word (root + 8 * i))
    (hmid : ∀ i t, tableAt word root (.mid i) = some t →
      ∀ j : Fin 512, word' (t + 8 * j) = word (t + 8 * j)) (n : Node) :
    tableAt word' root n = tableAt word root n := by
  have hmid' : ∀ i, tableAt word' root (.mid i) = tableAt word root (.mid i) := by
    intro i
    show (entry word' root i).child = (entry word root i).child
    rw [entry_congr (hroot i)]
  cases n with
  | root => rfl
  | mid i => exact hmid' i
  | low i j =>
    show (tableAt word' root (.mid i)).bind _ = (tableAt word root (.mid i)).bind _
    rw [hmid' i]
    cases ht : tableAt word root (.mid i) with
    | none => rfl
    | some t =>
      show (entry word' t j).child = (entry word t j).child
      rw [entry_congr (hmid i t ht j)]

/-- The last table on a way depends on two entries. -/
theorem tableAt_low_congr {i j : Fin 512} {t : Nat} (hmid : tableAt word root (.mid i) = some t)
    (h1 : word' (root + 8 * i) = word (root + 8 * i)) (h0 : word' (t + 8 * j) = word (t + 8 * j)) :
    tableAt word' root (.low i j) = tableAt word root (.low i j) := by
  have hmid' : tableAt word' root (.mid i) = some t := by
    show (entry word' root i).child = some t
    rw [entry_congr h1]
    exact hmid
  rw [tableAt_low hmid, tableAt_low hmid', entry_congr h0]

theorem Space.congr (hs : Space word root free)
    (hroot : ∀ i : Fin 512, word' (root + 8 * i) = word (root + 8 * i))
    (hmid : ∀ i t, tableAt word root (.mid i) = some t →
      ∀ j : Fin 512, word' (t + 8 * j) = word (t + 8 * j)) {free' : List Nat}
    (hfree : ∀ p ∈ free', p ∈ free) : Space word' root free' := by
  have htable := tableAt_congr hroot hmid
  refine ⟨hs.aligned, ?_, ?_, ?_, ?_⟩
  · intro n n' a h h'
    rw [htable] at h h'
    exact hs.tree n n' a h h'
  · intro n a h hmem
    rw [htable] at h
    exact hs.used n a h (hfree a hmem)
  · rw [entry_congr (hroot 3)]
    exact hs.mid
  · intro t ht j hj
    rw [htable] at ht
    rw [entry_congr (hmid 3 t ht j)]
    exact hs.low t ht j hj

/-! ## What a walk leaves behind -/

/-- The middle table on the way to `v`. -/
def midTable (word : Nat → BitVec 64) (root : Nat) (v : Vpn) : Nat := (entry word root v.i2).addr

/-- The last table on the way to `v`. -/
def lowTable (word : Nat → BitVec 64) (root : Nat) (v : Vpn) : Nat :=
  (entry word (midTable word root v) v.i1).addr

theorem lowTable_of_low {t0 : Nat} (h : tableAt word root (.low v.i2 v.i1) = some t0) :
    lowTable word root v = t0 := by
  obtain ⟨t, hmid, -⟩ := Option.bind_eq_some_iff.mp h
  rw [tableAt_low hmid] at h
  unfold lowTable midTable
  rw [(Pte.child_eq_some.mp hmid).2, (Pte.child_eq_some.mp h).2]

/-- After a walk for `v`: the entries on the way refer to `t1` and `t0`, nothing but these
entries and the leaf entry has changed, and entries that had `PTE_V` are as they were. A new
table is no table that the address space had, and the entry that the walk found in a new
middle table had no `PTE_V`. -/
structure Walked (word word' : Nat → BitVec 64) (root : Nat) (v : Vpn) (t1 t0 : Nat) : Prop where
  table1 : (entry word' root v.i2).isTable
  addr1 : (entry word' root v.i2).addr = t1
  table0 : (entry word' t1 v.i1).isTable
  addr0 : (entry word' t1 v.i1).addr = t0
  frame : ∀ a, a ≠ root + 8 * v.i2 → a ≠ t1 + 8 * v.i1 → a ≠ t0 + 8 * v.i0 → word' a = word a
  old1 : (entry word root v.i2).has PTE_V → word' (root + 8 * v.i2) = word (root + 8 * v.i2)
  old0 : (entry word t1 v.i1).has PTE_V → word' (t1 + 8 * v.i1) = word (t1 + 8 * v.i1)
  apart1 : ∀ n, tableAt word root n = some t1 → n = .mid v.i2
  apart0 : ∀ n, tableAt word root n = some t0 → n = .low v.i2 v.i1
  ne : t0 ≠ t1
  fresh : (entry word root v.i2).has PTE_V = false → (entry word t1 v.i1).has PTE_V = false

section Walked

variable {t1 t0 : Nat} {u : Vpn}

theorem Walked.aligned1 (h : Walked word word' root v t1 t0) : t1 % 2 ^ 12 = 0 := by
  rw [← h.addr1]
  exact Nat.mul_mod_left _ _

theorem Walked.aligned0 (h : Walked word word' root v t1 t0) : t0 % 2 ^ 12 = 0 := by
  rw [← h.addr0]
  exact Nat.mul_mod_left _ _

theorem Walked.midTable_eq (h : Walked word word' root v t1 t0) : midTable word' root v = t1 :=
  h.addr1

theorem Walked.lowTable_eq (h : Walked word word' root v t1 t0) : lowTable word' root v = t0 := by
  unfold lowTable
  rw [h.midTable_eq]
  exact h.addr0

theorem Walked.root_ne (h : Walked word word' root v t1 t0) : root ≠ t1 ∧ root ≠ t0 := by
  constructor
  · rintro rfl
    cases h.apart1 .root rfl
  · rintro rfl
    cases h.apart0 .root rfl

/-- The other entries of the middle table are not changed, -/
theorem Walked.frame_mid (h : Walked word word' root v t1 t0) (hroot : root % 2 ^ 12 = 0)
    {j : Fin 512} (hj : j ≠ v.i1) : word' (t1 + 8 * j) = word (t1 + 8 * j) := by
  have hval := Fin.val_ne_of_ne hj
  refine h.frame _ ?_ (by omega) ?_
  · exact entry_ne h.aligned1 hroot h.root_ne.1.symm j v.i2
  · exact entry_ne h.aligned1 h.aligned0 h.ne.symm j v.i0

/-- nor those of the last table. -/
theorem Walked.frame_low (h : Walked word word' root v t1 t0) (hroot : root % 2 ^ 12 = 0)
    {k : Fin 512} (hk : k ≠ v.i0) : word' (t0 + 8 * k) = word (t0 + 8 * k) := by
  have hval := Fin.val_ne_of_ne hk
  refine h.frame _ ?_ ?_ (by omega)
  · exact entry_ne h.aligned0 hroot h.root_ne.2.symm k v.i2
  · exact entry_ne h.aligned0 h.aligned1 h.ne k v.i1

/-- The entries of the tables that the address space had are kept, but for those on the way. -/
theorem Walked.keep (h : Walked word word' root v t1 t0) (hs : Space word root free) {n : Node}
    {a : Nat} (ha : tableAt word root n = some a) {i : Fin 512} (hroot : n = .root → i ≠ v.i2)
    (hmid : n = .mid v.i2 → i ≠ v.i1) (hlow : n = .low v.i2 v.i1 → i ≠ v.i0) :
    word' (a + 8 * i) = word (a + 8 * i) := by
  have haligned := tableAt_aligned hs.aligned ha
  -- another entry of the same table, or an entry of another table
  have hne : ∀ (b : Nat) (j : Fin 512), b % 2 ^ 12 = 0 → (a = b → i ≠ j) →
      a + 8 * i.val ≠ b + 8 * j.val := by
    intro b j hb hij
    by_cases hab : a = b
    · subst hab
      have := Fin.val_ne_of_ne (hij rfl)
      omega
    · exact entry_ne haligned hb hab i j
  refine h.frame _ (hne root v.i2 hs.aligned ?_) (hne t1 v.i1 h.aligned1 ?_)
    (hne t0 v.i0 h.aligned0 ?_)
  · rintro rfl
    exact hroot (hs.tree n .root a ha rfl)
  · rintro rfl
    exact hmid (h.apart1 n ha)
  · rintro rfl
    exact hlow (h.apart0 n ha)

/-- The leaf entry is written after the walk. -/
theorem Walked.leaf (h : Walked word word' root v t1 t0) (hroot : root % 2 ^ 12 = 0)
    (x : BitVec 64) : Walked word (Function.update word' (t0 + 8 * v.i0) x) root v t1 t0 := by
  have h2 : ∀ j : Fin 512, Function.update word' (t0 + 8 * v.i0) x (root + 8 * j) =
      word' (root + 8 * j) := fun j =>
    Function.update_of_ne (entry_ne hroot h.aligned0 h.root_ne.2 j v.i0) ..
  have h1 : ∀ j : Fin 512, Function.update word' (t0 + 8 * v.i0) x (t1 + 8 * j) =
      word' (t1 + 8 * j) := fun j =>
    Function.update_of_ne (entry_ne h.aligned1 h.aligned0 h.ne.symm j v.i0) ..
  refine { h with table1 := ?_, addr1 := ?_, table0 := ?_, addr0 := ?_, frame := ?_, old1 := ?_, old0 := ?_ }
  · rw [entry_congr (h2 v.i2)]
    exact h.table1
  · rw [entry_congr (h2 v.i2)]
    exact h.addr1
  · rw [entry_congr (h1 v.i1)]
    exact h.table0
  · rw [entry_congr (h1 v.i1)]
    exact h.addr0
  · intro a ha1 ha0 ha
    rw [Function.update_of_ne ha]
    exact h.frame a ha1 ha0 ha
  · intro hv
    rw [h2]
    exact h.old1 hv
  · intro hv
    rw [h1]
    exact h.old0 hv

/-- The way of `v` after the walk. -/
theorem Walked.walk_mid (h : Walked word word' root v t1 t0) (i1 i0 : Fin 512) :
    hwWalk word' root ⟨v.i2, i1, i0⟩ = walk1 word' t1 i1 i0 := by
  rw [hwWalk_of_table (v := ⟨v.i2, i1, i0⟩) h.table1, h.addr1]

theorem Walked.walk_same (h : Walked word word' root v t1 t0) (i0 : Fin 512) :
    hwWalk word' root ⟨v.i2, v.i1, i0⟩ = walk0 word' t0 i0 := by
  rw [h.walk_mid, walk1_of_table h.table0, h.addr0]

/-- If the root had the entry, the middle table is the one that it had. -/
theorem Walked.mid_eq (h : Walked word word' root v t1 t0)
    (hv : (entry word root v.i2).has PTE_V) : tableAt word root (.mid v.i2) = some t1 := by
  have heq := entry_congr (h.old1 hv)
  refine Pte.child_eq_some.mpr ⟨?_, ?_⟩
  · rw [← heq]
    exact h.table1
  · rw [← heq]
    exact h.addr1

theorem Walked.low_eq (h : Walked word word' root v t1 t0)
    (hv : (entry word t1 v.i1).has PTE_V) : tableAt word root (.low v.i2 v.i1) = some t0 := by
  have hroot : (entry word root v.i2).has PTE_V := by
    by_contra hnot
    rw [h.fresh (by simpa using hnot)] at hv
    cases hv
  have heq := entry_congr (h.old0 hv)
  rw [tableAt_low (h.mid_eq hroot)]
  refine Pte.child_eq_some.mpr ⟨?_, ?_⟩
  · rw [← heq]
    exact h.table0
  · rw [← heq]
    exact h.addr0

/-- Before the walk nothing was mapped below an entry without `PTE_V`. -/
theorem Walked.none_before (h : Walked word word' root v t1 t0)
    (hv : (entry word t1 v.i1).has PTE_V = false) (i0 : Fin 512) :
    hwWalk word root ⟨v.i2, v.i1, i0⟩ = none := by
  by_cases hroot : (entry word root v.i2).has PTE_V
  · obtain ⟨htable, haddr⟩ := Pte.child_eq_some.mp (h.mid_eq hroot)
    rw [hwWalk_of_table (v := ⟨v.i2, v.i1, i0⟩) htable, haddr]
    exact walk1_of_not_valid (Pte.valid_of_not_V hv)
  · exact hwWalk_of_not_valid (Pte.valid_of_not_V (by simpa using hroot))

/-- Before the walk `v` was translated by the same entry, if its table is not new. -/
theorem Walked.walk_before (h : Walked word word' root v t1 t0)
    (hv : (entry word t1 v.i1).has PTE_V) (i0 : Fin 512) :
    hwWalk word root ⟨v.i2, v.i1, i0⟩ = walk0 word t0 i0 := by
  have hlow := h.low_eq hv
  obtain ⟨t, hmid, -⟩ := Option.bind_eq_some_iff.mp hlow
  rw [tableAt_low hmid] at hlow
  obtain ⟨htable1, haddr1⟩ := Pte.child_eq_some.mp hmid
  obtain ⟨htable0, haddr0⟩ := Pte.child_eq_some.mp hlow
  rw [hwWalk_of_table (v := ⟨v.i2, v.i1, i0⟩) htable1, haddr1, walk1_of_table htable0, haddr0]

/-- Virtual pages whose way does not meet a new table keep their translation. -/
theorem Walked.kept (h : Walked word word' root v t1 t0) (hs : Space word root free) {u : Vpn}
    (hu : u ≠ v) (h2 : u.i2 = v.i2 → (entry word root v.i2).has PTE_V)
    (h1 : u.i2 = v.i2 → u.i1 = v.i1 → (entry word t1 v.i1).has PTE_V) :
    hwWalk word' root u = hwWalk word root u := by
  refine hwWalk_congr ?_ fun htable => ?_
  · by_cases hi : u.i2 = v.i2
    · rw [hi]
      exact h.old1 (h2 hi)
    · exact h.keep hs (n := .root) rfl (fun _ => hi) nofun nofun
  have hmid : tableAt word root (.mid u.i2) = some (entry word root u.i2).addr :=
    Pte.child_eq_some.mpr ⟨htable, rfl⟩
  refine walk1_congr ?_ fun htable' => ?_
  · by_cases hi : u.i2 = v.i2 ∧ u.i1 = v.i1
    · have ht1 := h.mid_eq (h2 hi.1)
      rw [← hi.1, hmid] at ht1
      rw [Option.some.inj ht1, hi.2]
      exact h.old0 (h1 hi.1 hi.2)
    · refine h.keep hs hmid nofun (fun heq => ?_) nofun
      exact fun hi1 => hi ⟨Node.mid.inj heq, hi1⟩
  have hlow : tableAt word root (.low u.i2 u.i1) =
      some (entry word (entry word root u.i2).addr u.i1).addr := by
    rw [tableAt_low hmid]
    exact Pte.child_eq_some.mpr ⟨htable', rfl⟩
  refine walk0_congr (h.keep hs hlow nofun nofun fun heq hi0 => hu ?_)
  obtain ⟨hi2, hi1⟩ := Node.low.inj heq
  exact Vpn.ext hi2 hi1 hi0

/-- Before the walk, the entries of the pages that become tables translate nothing: those of the
last table `t0` but for the leaf entry, and those of the middle table `t1` but for the one on the
way. -/
structure NewTablesEmpty (word : Nat → BitVec 64) (root : Nat) (v : Vpn) (t1 t0 : Nat) : Prop where
  low : (entry word t1 v.i1).has PTE_V = false → ∀ k ≠ v.i0, walk0 word t0 k = none
  mid : (entry word root v.i2).has PTE_V = false → ∀ j ≠ v.i1, ∀ k, walk1 word t1 j k = none

/-- The other virtual pages keep their translations if and only if they have none under the entries
that new tables come with. -/
theorem Walked.others_iff_walk1 (h : Walked word word' root v t1 t0) (hs : Space word root free) :
    (∀ u ≠ v, hwWalk word' root u = hwWalk word root u) ↔
      ((entry word t1 v.i1).has PTE_V = false → ∀ k ≠ v.i0, walk0 word t0 k = none) ∧
      ((entry word root v.i2).has PTE_V = false → ∀ j ≠ v.i1, ∀ k, walk1 word' t1 j k = none) := by
  -- the other entries of the last table are what they were
  have hsame : ∀ k ≠ v.i0, walk0 word' t0 k = walk0 word t0 k := fun k hk =>
    walk0_congr (h.frame_low hs.aligned hk)
  constructor
  · intro hall
    constructor
    · intro hv k hk
      have hu : (⟨v.i2, v.i1, k⟩ : Vpn) ≠ v := fun heq => hk (congrArg Vpn.i0 heq)
      rw [← hsame k hk, ← h.walk_same k, hall _ hu]
      exact h.none_before hv k
    · intro hv j hj k
      have hu : (⟨v.i2, j, k⟩ : Vpn) ≠ v := fun heq => hj (congrArg Vpn.i1 heq)
      rw [← h.walk_mid j k, hall _ hu]
      exact hwWalk_of_not_valid (Pte.valid_of_not_V hv)
  · rintro ⟨hempty0, hempty1⟩ u hu
    obtain ⟨u2, u1, u0⟩ := u
    by_cases h2 : u2 = v.i2 ∧ (entry word root v.i2).has PTE_V = false
    · -- below an entry of the root that is new
      obtain ⟨rfl, hv⟩ := h2
      rw [hwWalk_of_not_valid (v := ⟨v.i2, u1, u0⟩) (Pte.valid_of_not_V hv)]
      by_cases h1 : u1 = v.i1
      · subst h1
        have hk : u0 ≠ v.i0 := fun heq => hu (by rw [heq])
        rw [h.walk_same, hsame u0 hk]
        exact hempty0 (h.fresh hv) u0 hk
      · rw [h.walk_mid]
        exact hempty1 hv u1 h1 u0
    · by_cases h1 : u2 = v.i2 ∧ u1 = v.i1 ∧ (entry word t1 v.i1).has PTE_V = false
      · -- below an entry of the middle table that is new
        obtain ⟨rfl, rfl, hv⟩ := h1
        have hk : u0 ≠ v.i0 := fun heq => hu (by rw [heq])
        rw [h.walk_same, hsame u0 hk, h.none_before hv]
        exact hempty0 hv u0 hk
      · refine h.kept hs hu (fun hi => ?_) (fun hi hj => ?_)
        · by_contra hv
          exact h2 ⟨hi, by simpa using hv⟩
        · by_contra hv
          exact h1 ⟨hi, hj, by simpa using hv⟩

/-- The walk from a page translates what it did, but for the leaf entry: the entries that the walk
has added refer to tables. -/
theorem Walked.walk0_eq (h : Walked word word' root v t1 t0) (hs : Space word root free)
    (hv : (entry word root v.i2).has PTE_V = false) {a : Nat} (ha : a % 2 ^ 12 = 0) {k : Fin 512}
    (hne : a = t0 → k ≠ v.i0) : walk0 word' a k = walk0 word a k := by
  have hpos : ∀ (b : Nat) (i : Fin 512), b % 2 ^ 12 = 0 → a + 8 * k.val = b + 8 * i.val →
      a = b ∧ k = i := by
    intro b i hb heq
    have := k.isLt
    have := i.isLt
    exact ⟨by omega, Fin.ext (by omega)⟩
  by_cases h2 : a + 8 * k.val = root + 8 * v.i2.val
  · obtain ⟨rfl, rfl⟩ := hpos _ _ hs.aligned h2
    rw [walk0_of_table h.table1, walk0_of_not_V hv]
  by_cases h1 : a + 8 * k.val = t1 + 8 * v.i1.val
  · obtain ⟨rfl, rfl⟩ := hpos _ _ h.aligned1 h1
    rw [walk0_of_table h.table0, walk0_of_not_V (h.fresh hv)]
  · exact walk0_congr (h.frame _ h2 h1 fun h0 => hne (hpos _ _ h.aligned0 h0).1
      (hpos _ _ h.aligned0 h0).2)

/-- So does another entry of a new middle table, -/
theorem Walked.walk1_eq (h : Walked word word' root v t1 t0) (hs : Space word root free)
    (hv : (entry word root v.i2).has PTE_V = false) {j k : Fin 512} (hj : j ≠ v.i1)
    (hne : (entry word t1 j).child = some t0 → k ≠ v.i0) :
    walk1 word' t1 j k = walk1 word t1 j k :=
  walk1_congr (h.frame_mid hs.aligned hj) fun htable =>
    h.walk0_eq hs hv (Nat.mul_mod_left _ _) fun haddr =>
      hne (Pte.child_eq_some.mpr ⟨htable, haddr⟩)

/-- unless it refers to the last table. -/
theorem Walked.walk1_leaf (h : Walked word word' root v t1 t0) (hs : Space word root free)
    {j : Fin 512} (hj : j ≠ v.i1) (hchild : (entry word t1 j).child = some t0) :
    walk1 word' t1 j v.i0 = walk0 word' t0 v.i0 := by
  obtain ⟨htable, haddr⟩ := Pte.child_eq_some.mp hchild
  have hentry := entry_congr (h.frame_mid hs.aligned hj)
  rw [walk1_of_table (by rw [hentry]; exact htable), hentry, haddr]

/-- **The other virtual pages** keep their translations if and only if the pages that become tables
are empty, when the leaf entry is left alone, -/
theorem Walked.others_iff (h : Walked word word' root v t1 t0) (hs : Space word root free)
    (hleaf : word' (t0 + 8 * v.i0) = word (t0 + 8 * v.i0)) :
    (∀ u ≠ v, hwWalk word' root u = hwWalk word root u) ↔ NewTablesEmpty word root v t1 t0 := by
  rw [h.others_iff_walk1 hs]
  have hsame (hv : (entry word root v.i2).has PTE_V = false) (j : Fin 512) (hj : j ≠ v.i1)
      (k : Fin 512) : walk1 word' t1 j k = walk1 word t1 j k := by
    refine walk1_congr (h.frame_mid hs.aligned hj) fun _ => ?_
    by_cases hk : (entry word t1 j).addr = t0 ∧ k = v.i0
    · rw [hk.1, hk.2]
      exact walk0_congr hleaf
    · exact h.walk0_eq hs hv (Nat.mul_mod_left _ _) fun ha hk0 => hk ⟨ha, hk0⟩
  constructor
  · rintro ⟨hlow, hmid⟩
    exact ⟨hlow, fun hv j hj k => (hsame hv j hj k).symm.trans (hmid hv j hj k)⟩
  · rintro ⟨hlow, hmid⟩
    exact ⟨hlow, fun hv j hj k => (hsame hv j hj k).trans (hmid hv j hj k)⟩

/-- and when it has become a leaf, if moreover no entry of a new middle table leads to it. -/
theorem Walked.others_iff_of_leaf (h : Walked word word' root v t1 t0) (hs : Space word root free)
    (hleaf : walk0 word' t0 v.i0 ≠ none) :
    (∀ u ≠ v, hwWalk word' root u = hwWalk word root u) ↔
      NewTablesEmpty word root v t1 t0 ∧ ((entry word root v.i2).has PTE_V = false →
        ∀ j ≠ v.i1, (entry word t1 j).child ≠ some t0) := by
  rw [h.others_iff_walk1 hs]
  constructor
  · rintro ⟨hlow, hmid⟩
    have hapart : (entry word root v.i2).has PTE_V = false →
        ∀ j ≠ v.i1, (entry word t1 j).child ≠ some t0 := by
      intro hv j hj hchild
      rw [← h.walk1_leaf hs hj hchild] at hleaf
      exact hleaf (hmid hv j hj v.i0)
    refine ⟨⟨hlow, fun hv j hj k => ?_⟩, hapart⟩
    rw [← h.walk1_eq hs hv hj fun hchild => absurd hchild (hapart hv j hj)]
    exact hmid hv j hj k
  · rintro ⟨⟨hlow, hmid⟩, hapart⟩
    refine ⟨hlow, fun hv j hj k => ?_⟩
    rw [h.walk1_eq hs hv hj fun hchild => absurd hchild (hapart hv j hj)]
    exact hmid hv j hj k

/-- Pages without a `PTE_V` are empty. -/
theorem Walked.others_of_not_V (h : Walked word word' root v t1 t0) (hs : Space word root free)
    (hlow : (entry word t1 v.i1).has PTE_V = false → ∀ k, (entry word t0 k).has PTE_V = false)
    (hmid : (entry word root v.i2).has PTE_V = false → ∀ j, (entry word t1 j).has PTE_V = false) :
    ∀ u ≠ v, hwWalk word' root u = hwWalk word root u := by
  refine (h.others_iff_walk1 hs).mpr ⟨fun hv k _ => walk0_of_not_V (hlow hv k), fun hv j hj k => ?_⟩
  apply walk1_of_not_valid
  rw [entry_congr (h.frame_mid hs.aligned hj)]
  exact Pte.valid_of_not_V (hmid hv j)

/-! ## Tables and leaf entries after a walk -/

/-- The tables that the address space had are still there. -/
theorem Walked.tableAt_of_old (h : Walked word word' root v t1 t0) (hs : Space word root free)
    {n : Node} {a : Nat} (ha : tableAt word root n = some a) : tableAt word' root n = some a := by
  have hmid : ∀ i t, tableAt word root (.mid i) = some t → tableAt word' root (.mid i) = some t := by
    intro i t ht
    by_cases hi : i = v.i2
    · subst hi
      have hV := Pte.has_V_of_isTable (Pte.child_eq_some.mp ht).1
      show (entry word' root v.i2).child = some t
      rw [entry_congr (h.old1 hV)]
      exact ht
    · show (entry word' root i).child = some t
      rw [entry_congr (h.keep hs (n := .root) rfl (fun _ => hi) nofun nofun)]
      exact ht
  cases n with
  | root => exact ha
  | mid i => exact hmid i a ha
  | low i j =>
    obtain ⟨t, ht, hchild⟩ := Option.bind_eq_some_iff.mp ha
    have hchild' : (entry word t j).child = some a := hchild
    rw [tableAt_low (hmid i t ht)]
    by_cases hij : i = v.i2 ∧ j = v.i1
    · obtain ⟨rfl, rfl⟩ := hij
      have hV := Pte.has_V_of_isTable (Pte.child_eq_some.mp ht).1
      obtain rfl := Option.some.inj ((h.mid_eq hV).symm.trans ht)
      rw [entry_congr (h.old0 (Pte.has_V_of_isTable (Pte.child_eq_some.mp hchild').1))]
      exact hchild'
    · rw [entry_congr (h.keep hs (n := .mid i) ht nofun (fun heq hj => hij ⟨Node.mid.inj heq, hj⟩) nofun)]
      exact hchild'

/-- A table is one that the address space had, or one of the two on the way. -/
theorem Walked.tableAt_cases (h : Walked word word' root v t1 t0) (hs : Space word root free)
    (hmid : (entry word root v.i2).has PTE_V = false → ∀ j, (entry word t1 j).has PTE_V = false)
    {n : Node} {a : Nat} (ha : tableAt word' root n = some a) :
    tableAt word root n = some a ∨ n = .mid v.i2 ∧ a = t1 ∨ n = .low v.i2 v.i1 ∧ a = t0 := by
  have hroot : ∀ i ≠ v.i2, entry word' root i = entry word root i := fun i hi =>
    entry_congr (h.keep hs (n := .root) rfl (fun _ => hi) nofun nofun)
  have hthis : tableAt word' root (.mid v.i2) = some t1 := Pte.child_eq_some.mpr ⟨h.table1, h.addr1⟩
  cases n with
  | root => exact Or.inl ha
  | mid i =>
    by_cases hi : i = v.i2
    · subst hi
      exact Or.inr (Or.inl ⟨rfl, Option.some.inj (ha.symm.trans hthis)⟩)
    · have hchild : (entry word' root i).child = some a := ha
      rw [hroot i hi] at hchild
      exact Or.inl hchild
  | low i j =>
    obtain ⟨t, ht, hchild⟩ := Option.bind_eq_some_iff.mp ha
    have hchild' : (entry word' t j).child = some a := hchild
    by_cases hi : i = v.i2
    · subst hi
      obtain rfl := Option.some.inj (hthis.symm.trans ht)
      by_cases hj : j = v.i1
      · subst hj
        exact Or.inr (Or.inr ⟨rfl, ((Pte.child_eq_some.mp hchild').2.symm.trans h.addr0)⟩)
      · -- another entry of the middle table, which is as it was
        rw [entry_congr (h.frame_mid hs.aligned hj)] at hchild'
        cases hV : (entry word root v.i2).has PTE_V with
        | true =>
          left
          rw [tableAt_low (h.mid_eq hV)]
          exact hchild'
        | false =>
          have hnone := hmid hV j
          rw [Pte.has_V_of_isTable (Pte.child_eq_some.mp hchild').1] at hnone
          cases hnone
    · left
      have ht' : (entry word' root i).child = some t := ht
      rw [hroot i hi] at ht'
      rw [tableAt_low ht', ← entry_congr (h.keep hs (n := .mid i) ht' nofun (fun heq => absurd (Node.mid.inj heq) hi) nofun)]
      exact hchild'

/-- The tables after the walk form a tree apart from the pages that are still free. -/
theorem Walked.space (h : Walked word word' root v t1 t0) (hs : Space word root free)
    (hmid : (entry word root v.i2).has PTE_V = false → ∀ j, (entry word t1 j).has PTE_V = false)
    (h2 : v.i2 = 3) {k : List Nat} (hk : ∀ p ∈ k, p ∈ free) (h1 : t1 ∉ k) (h0 : t0 ∉ k) :
    Space word' root k := by
  refine ⟨hs.aligned, ?_, ?_, ?_, ?_⟩
  · intro n n' a ha ha'
    obtain hold | ⟨rfl, rfl⟩ | ⟨rfl, rfl⟩ := h.tableAt_cases hs hmid ha
    · obtain hold' | ⟨rfl, rfl⟩ | ⟨rfl, rfl⟩ := h.tableAt_cases hs hmid ha'
      · exact hs.tree n n' a hold hold'
      · exact h.apart1 n hold
      · exact h.apart0 n hold
    · obtain hold' | ⟨rfl, -⟩ | ⟨rfl, heq⟩ := h.tableAt_cases hs hmid ha'
      · exact (h.apart1 n' hold').symm
      · rfl
      · exact absurd heq.symm h.ne
    · obtain hold' | ⟨rfl, heq⟩ | ⟨rfl, -⟩ := h.tableAt_cases hs hmid ha'
      · exact (h.apart0 n' hold').symm
      · exact absurd heq h.ne
      · rfl
  · intro n a ha hmem
    obtain hold | ⟨-, rfl⟩ | ⟨-, rfl⟩ := h.tableAt_cases hs hmid ha
    · exact hs.used n a hold (hk a hmem)
    · exact h1 hmem
    · exact h0 hmem
  · intro _
    rw [← h2]
    exact h.table1
  · intro t ht j hj hV
    have hthis : tableAt word' root (.mid v.i2) = some t1 :=
      Pte.child_eq_some.mpr ⟨h.table1, h.addr1⟩
    rw [h2] at hthis
    obtain rfl := Option.some.inj (hthis.symm.trans ht)
    by_cases hj1 : j = v.i1
    · rw [hj1]
      exact h.table0
    · rw [entry_congr (h.frame_mid hs.aligned hj1)] at hV ⊢
      cases hV2 : (entry word root v.i2).has PTE_V with
      | true =>
        have hold := h.mid_eq hV2
        rw [h2] at hold
        exact hs.low t1 hold j hj hV
      | false =>
        rw [hmid hV2 j] at hV
        cases hV

theorem Walked.leafEntry_self (h : Walked word word' root v t1 t0) :
    leafEntry word' root v = some (entry word' t0 v.i0) := by
  have hmid : tableAt word' root (.mid v.i2) = some t1 := Pte.child_eq_some.mpr ⟨h.table1, h.addr1⟩
  have hlow : tableAt word' root (.low v.i2 v.i1) = some t0 := by
    rw [tableAt_low hmid]
    exact Pte.child_eq_some.mpr ⟨h.table0, h.addr0⟩
  exact leafEntry_of_low hlow

/-- Without the last table there was no leaf entry. -/
theorem Walked.leafEntry_none (h : Walked word word' root v t1 t0)
    (hv : (entry word t1 v.i1).has PTE_V = false) : leafEntry word root v = none := by
  have hlow : tableAt word root (.low v.i2 v.i1) = none := by
    by_cases hroot : (entry word root v.i2).has PTE_V
    · rw [tableAt_low (h.mid_eq hroot)]
      exact Pte.child_of_not_V hv
    · show ((entry word root v.i2).child.bind _) = none
      rw [Pte.child_of_not_V (by simpa using hroot)]
      rfl
  unfold leafEntry
  rw [hlow]
  rfl

/-- Another leaf entry is kept, -/
theorem Walked.leafEntry_of_old (h : Walked word word' root v t1 t0) (hs : Space word root free)
    (hu : u ≠ v) {p : Pte} (hp : leafEntry word root u = some p) : leafEntry word' root u = some p := by
  obtain ⟨t, ht, rfl⟩ := Option.map_eq_some_iff.mp hp
  unfold leafEntry
  rw [h.tableAt_of_old hs ht]
  have hkeep : word' (t + 8 * u.i0) = word (t + 8 * u.i0) := by
    refine h.keep hs ht nofun nofun fun heq hi0 => hu ?_
    obtain ⟨hi2, hi1⟩ := Node.low.inj heq
    exact Vpn.ext hi2 hi1 hi0
  show some (entry word' t u.i0) = some (entry word t u.i0)
  rw [entry_congr hkeep]

/-- or comes with the new last table. -/
theorem Walked.leafEntry_cases (h : Walked word word' root v t1 t0) (hs : Space word root free)
    (hmid : (entry word root v.i2).has PTE_V = false → ∀ j, (entry word t1 j).has PTE_V = false)
    (hu : u ≠ v) {p : Pte} (hp : leafEntry word' root u = some p) :
    leafEntry word root u = some p ∨ leafEntry word root u = none ∧
      (entry word t1 v.i1).has PTE_V = false ∧ p = entry word t0 u.i0 := by
  cases hold : leafEntry word root u with
  | some q =>
    left
    rw [h.leafEntry_of_old hs hu hold] at hp
    exact hp
  | none =>
    right
    obtain ⟨t, ht, rfl⟩ := Option.map_eq_some_iff.mp hp
    obtain hold' | ⟨hn, -⟩ | ⟨hn, rfl⟩ := h.tableAt_cases hs hmid ht
    · unfold leafEntry at hold
      rw [hold'] at hold
      cases hold
    · cases hn
    · obtain ⟨hi2, hi1⟩ := Node.low.inj hn
      refine ⟨rfl, ?_, ?_⟩
      · by_contra hV
        have hlow := h.low_eq (by rwa [Bool.not_eq_false] at hV)
        unfold leafEntry at hold
        rw [hn, hlow] at hold
        cases hold
      · have hi0 : u.i0 ≠ v.i0 := fun hi0 => hu (Vpn.ext hi2 hi1 hi0)
        exact entry_congr (h.frame_low hs.aligned hi0)

end Walked

/-! ## Adding tables -/

theorem entry_update_self (word : Nat → BitVec 64) (table : Nat) (i : Fin 512) (p : Pte) :
    entry (Function.update word (table + 8 * i) p.toWord) table i = p := by
  unfold entry
  rw [Function.update_self, Pte.ofWord_toWord]

theorem entry_update (word : Nat → BitVec 64) (table : Nat) (i j : Fin 512) (p : Pte) :
    entry (Function.update word (table + 8 * j) p.toWord) table i =
      if i = j then p else entry word table i := by
  by_cases h : i = j
  · rw [h, if_pos rfl, entry_update_self]
  · rw [if_neg h]
    have hne := Fin.val_ne_of_ne h
    exact entry_congr (Function.update_of_ne (by omega) ..)

theorem entry_update_of_ne {a b : Nat} (ha : a % 2 ^ 12 = 0) (hb : b % 2 ^ 12 = 0) (hab : b ≠ a)
    (word : Nat → BitVec 64) (i j : Fin 512) (x : BitVec 64) :
    entry (Function.update word (a + 8 * i) x) b j = entry word b j :=
  entry_congr (Function.update_of_ne (entry_ne hb ha hab j i) ..)

/-- A page that can become a table of the address space. -/
structure NewTable (word : Nat → BitVec 64) (root t : Nat) : Prop where
  aligned : t % 2 ^ 12 = 0
  lt : t < 2 ^ 56
  unused : ∀ n, tableAt word root n ≠ some t

section

variable {t1 t0 : Nat}

theorem tableAt_mid_eq (h : tableAt word root (.mid v.i2) = some t1) :
    (entry word root v.i2).isTable ∧ (entry word root v.i2).addr = t1 :=
  Pte.child_eq_some.mp h

/-- Both tables are there. -/
theorem Space.walked_old (hs : Space word root free)
    (h1 : tableAt word root (.mid v.i2) = some t1)
    (h0 : tableAt word root (.low v.i2 v.i1) = some t0) : Walked word word root v t1 t0 where
  table1 := (tableAt_mid_eq h1).1
  addr1 := (tableAt_mid_eq h1).2
  table0 := (Pte.child_eq_some.mp (tableAt_low h1 ▸ h0)).1
  addr0 := (Pte.child_eq_some.mp (tableAt_low h1 ▸ h0)).2
  frame _ _ _ _ := rfl
  old1 _ := rfl
  old0 _ := rfl
  apart1 n hn := hs.tree n _ _ hn h1
  apart0 n hn := hs.tree n _ _ hn h0
  ne := by
    rintro rfl
    cases hs.tree _ _ _ h0 h1
  fresh hv := by
    rw [Pte.has_V_of_isTable (tableAt_mid_eq h1).1] at hv
    cases hv

/-- The last table is new. -/
theorem Space.walked_low (hs : Space word root free)
    (h1 : tableAt word root (.mid v.i2) = some t1) (hv : (entry word t1 v.i1).has PTE_V = false)
    (h0 : NewTable word root t0) :
    Walked word (Function.update word (t1 + 8 * v.i1) (Pte.ptab t0 0).toWord) root v t1 t0 := by
  have haligned := tableAt_aligned hs.aligned h1
  have hne : root ≠ t1 := by
    rintro rfl
    cases hs.tree _ .root _ h1 rfl
  have hroot := entry_update_of_ne haligned hs.aligned hne word v.i1 v.i2 (Pte.ptab t0 0).toWord
  have hlow := entry_update_self word t1 v.i1 (Pte.ptab t0 0)
  constructor
  · rw [hroot]
    exact (tableAt_mid_eq h1).1
  · rw [hroot]
    exact (tableAt_mid_eq h1).2
  · rw [hlow]
    exact Pte.isTable_ptab t0
  · rw [hlow]
    exact Pte.addr_ptab 0 h0.aligned h0.lt
  · exact fun a _ ha _ => Function.update_of_ne ha ..
  · exact fun _ => Function.update_of_ne (entry_ne hs.aligned haligned hne v.i2 v.i1) ..
  · intro hv'
    rw [hv] at hv'
    cases hv'
  · exact fun n hn => hs.tree n _ _ hn h1
  · exact fun n hn => absurd hn (h0.unused n)
  · rintro rfl
    exact h0.unused _ h1
  · intro hv'
    rw [Pte.has_V_of_isTable (tableAt_mid_eq h1).1] at hv'
    cases hv'

/-- Both tables are new. -/
theorem Space.walked_mid (hs : Space word root free)
    (hv1 : (entry word root v.i2).has PTE_V = false) (h1 : NewTable word root t1)
    (hv0 : (entry word t1 v.i1).has PTE_V = false) (h0 : NewTable word root t0) (hne : t0 ≠ t1) :
    Walked word (Function.update (Function.update word (root + 8 * v.i2) (Pte.ptab t1 0).toWord)
      (t1 + 8 * v.i1) (Pte.ptab t0 0).toWord) root v t1 t0 := by
  have hroot : root ≠ t1 := by
    rintro rfl
    exact h1.unused .root rfl
  have htop : entry (Function.update (Function.update word (root + 8 * v.i2)
      (Pte.ptab t1 0).toWord) (t1 + 8 * v.i1) (Pte.ptab t0 0).toWord) root v.i2 =
        Pte.ptab t1 0 := by
    rw [entry_update_of_ne h1.aligned hs.aligned hroot, entry_update_self]
  have hlow := entry_update_self (Function.update word (root + 8 * v.i2) (Pte.ptab t1 0).toWord)
    t1 v.i1 (Pte.ptab t0 0)
  constructor
  · rw [htop]
    exact Pte.isTable_ptab t1
  · rw [htop]
    exact Pte.addr_ptab 0 h1.aligned h1.lt
  · rw [hlow]
    exact Pte.isTable_ptab t0
  · rw [hlow]
    exact Pte.addr_ptab 0 h0.aligned h0.lt
  · intro a ha ha' _
    rw [Function.update_of_ne ha', Function.update_of_ne ha]
  · intro hv
    rw [hv1] at hv
    cases hv
  · intro hv
    rw [hv0] at hv
    cases hv
  · exact fun n hn => absurd hn (h1.unused n)
  · exact fun n hn => absurd hn (h0.unused n)
  · exact hne
  · exact fun _ => hv0

end

end RiscvKernel
