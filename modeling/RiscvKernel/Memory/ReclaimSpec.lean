import RiscvKernel.Memory.Reclaim

/-!
# What is free after an address space was given back

* `memory_space_reclaim` frees the pages and tables that are not global, each once, unless it
  starts with an empty free list: the first page then goes on the list without a link, and the
  list goes on with whatever the page begins with (`space_reclaimed_iff`).
* `memory_unmap_and_free_user` frees the pages of the user and leaves every other entry alone
  (`user_pages_unmapped`). It leaves alone an entry without a page, too.
-/

namespace RiscvKernel

open Lib Phys

/-! ## Reclaiming -/

/-- A table or a 4 KB page that an entry without `PTE_G` refers to. -/
def OwnPage (word : Nat → BitVec 64) (root p : Nat) : Prop :=
  (∃ n q, pointerAt word root n = some q ∧ q.linked ∧ q.has PTE_G = false ∧ q.addr = p) ∨
    ∃ i j k q, leafAt word root i j k = some q ∧ q.has PTE_V ∧ q.has PTE_G = false ∧ q.addr = p

/-- The root, or a table that is global. -/
def KeptTable (word : Nat → BitVec 64) (root t : Nat) : Prop :=
  t = root ∨ ∃ n q, pointerAt word root n = some q ∧ q.linked ∧ q.has PTE_G ∧ q.addr = t

/-- The address space of a process: its own pages and tables and the global tables form a tree.
The pages that the global leaf entries map are not looked at: the kernel maps all of RAM, the
pages of processes included. -/
structure ProcessSpace (word : Nat → BitVec 64) (root : Nat) (free : List Nat) : Prop where
  tree : OwnTree Policy.reclaim.leaf word root free
  lt : root < 2 ^ 56
  ne_zero : ∀ p, OwnPage word root p → p ≠ 0

/-- What `memory_space_reclaim` is to do: the main space is active, the free list holds the old
free pages and what the space had for itself, and what is global is as it was. -/
structure Reclaimed (mainMtag root : Nat) (free : List Nat) (m : Phys) (r : Nat × Phys) : Prop where
  active : r.1 = mainMtag
  list : ∃ k, r.2.Free k ∧ k.Nodup ∧ (∀ p, p ∈ k ↔ p ∈ free ∨ OwnPage m.word root p) ∧
    ∀ t, KeptTable m.word root t → t ∉ k
  entries : ∀ t, KeptTable m.word root t → ∀ i : Fin 512, (entry m.word t i).has PTE_G →
    r.2.word (t + 8 * i) = m.word (t + 8 * i)

/-- A free list that is not empty, or what goes on it first is a table, or a page that begins
with a zero word. -/
def FirstLinked (m : Phys) (root : Nat) (free : List Nat) : Prop :=
  free ≠ [] ∨ ∀ p e, (spaceOps .reclaim m.word root).head? = some (.page p e) → m.word p = 0

section Reclaim

variable {m : Phys} {root : Nat} {free : List Nat}

theorem ownPage_iff {p : Nat} :
    OwnPage m.word root p ↔ p ∈ (spaceOps .reclaim m.word root).map Op.addr := by
  rw [List.mem_map]
  simp only [mem_spaceOps]
  constructor
  · rintro (⟨n, q, hq, hlinked, hG, rfl⟩ | ⟨i, j, k, q, hq, hV, hG, rfl⟩)
    · refine ⟨.table q.addr, ⟨.table n, opAt_table.mpr ⟨q, hq, hlinked, ?_, rfl⟩⟩, rfl⟩
      show (!q.has PTE_G) = true
      rw [hG]
      rfl
    · obtain ⟨t, ht, rfl⟩ := Option.map_eq_some_iff.mp hq
      refine ⟨.page _ (t + 8 * k), ⟨.leaf i j k, opAt_leaf.mpr ⟨t, ht, ?_, rfl⟩⟩, rfl⟩
      show ((entry m.word t k).has PTE_V && !(entry m.word t k).has PTE_G) = true
      rw [hV, hG]
      rfl
  · rintro ⟨o, ⟨x, hx⟩, rfl⟩
    cases x with
    | table n =>
      obtain ⟨q, hq, hlinked, hdrop, rfl⟩ := opAt_table.mp hx
      exact Or.inl ⟨n, q, hq, hlinked, Bool.not_eq_true' _ ▸ hdrop, rfl⟩
    | leaf i j k =>
      obtain ⟨t, ht, hleaf, rfl⟩ := opAt_leaf.mp hx
      obtain ⟨hV, hG⟩ := Bool.and_eq_true_iff.mp hleaf
      refine Or.inr ⟨i, j, k, entry m.word t k, ?_, hV, Bool.not_eq_true' _ ▸ hG, rfl⟩
      unfold leafAt
      rw [ht]
      rfl

/-- A table that is kept is at a node at which nothing is freed. -/
theorem KeptTable.node {t : Nat} (h : KeptTable m.word root t) :
    ∃ n, linkAt m.word root n = some t ∧ opAt .reclaim m.word root (.table n) = none := by
  obtain rfl | ⟨n, q, hq, hlinked, hG, rfl⟩ := h
  · exact ⟨.root, rfl, rfl⟩
  · refine ⟨n, (linkAt_of_pointerAt hq).trans (Pte.link_eq_some.mpr ⟨hlinked, rfl⟩), ?_⟩
    rw [Option.eq_none_iff_forall_ne_some]
    intro o ho
    obtain ⟨q', hq', -, hdrop, -⟩ := opAt_table.mp ho
    obtain rfl := Option.some.inj (hq.symm.trans hq')
    have hdrop : (!q.has PTE_G) = true := hdrop
    rw [hG] at hdrop
    cases hdrop

namespace ProcessSpace

theorem spaceOps_ne_zero (h : ProcessSpace m.word root free) :
    ∀ o ∈ spaceOps .reclaim m.word root, o.addr ≠ 0 := fun o ho =>
  h.ne_zero o.addr (ownPage_iff.mpr (List.mem_map_of_mem ho))

/-- The free list is as it should be only if it ends behind the pages that went on it. -/
theorem firstLinked_of_list (h : ProcessSpace m.word root free) (hfree : m.Free free)
    {k : List Nat} (hk : (runOps m (spaceOps .reclaim m.word root)).Free k)
    (hnodup : k.Nodup) (hmem : ∀ p, p ∈ k ↔ p ∈ free ∨ OwnPage m.word root p) :
    FirstLinked m root free := by
  refine or_iff_not_imp_left.mpr fun hnil p e hhead => ?_
  obtain rfl := not_not.mp hnil
  have hzero : m.freeList = 0 := hfree
  obtain ⟨k', rfl, hspells⟩ := (h.tree.free_iff hfree h.spaceOps_ne_zero).mp hk
  -- whatever follows would be on the list twice
  have hempty : k' = [] := by
    refine List.eq_nil_iff_forall_not_mem.mpr fun q hq => ?_
    have hown := ((hmem q).mp (List.mem_append_right _ hq)).resolve_left List.not_mem_nil
    exact (List.nodup_append.mp hnodup).2.2 q (List.mem_reverse.mpr (ownPage_iff.mp hown)) q hq rfl
  subst hempty
  have hold : oldList m (spaceOps .reclaim m.word root) = 0 := hspells
  obtain ⟨rest, hops⟩ := List.head?_eq_some_iff.mp hhead
  rw [hops] at hold
  have hword : (if m.freeList = 0 then (m.word p).toNat else m.freeList) = 0 := hold
  rw [if_pos hzero] at hword
  exact BitVec.eq_of_toNat_eq hword

theorem oldList_eq (hfree : m.Free free) (hfirst : FirstLinked m root free) :
    oldList m (spaceOps .reclaim m.word root) = m.freeList := by
  by_cases hzero : m.freeList = 0
  · have hword := hfirst.resolve_left fun hne => hfree.ne_nil_iff.mp hne hzero
    unfold oldList
    split
    · next p e rest hops =>
      rw [if_pos hzero, hword p e (by rw [hops]; rfl), hzero]
      rfl
    · rfl
  · exact oldList_of_ne_zero hzero _

theorem reclaimed (h : ProcessSpace m.word root free) (hfree : m.Free free) (mainMtag : Nat)
    (hfirst : FirstLinked m root free) :
    Reclaimed mainMtag root free m (mainMtag, runOps m (spaceOps .reclaim m.word root)) where
  active := rfl
  list := by
    have hlist := h.tree.free_of_oldList hfree h.spaceOps_ne_zero (oldList_eq hfree hfirst)
    refine ⟨_, hlist, h.tree.nodup_append hfree, fun p => ?_, fun t ht hmem => ?_⟩
    · rw [ownPage_iff, List.mem_append, List.mem_reverse, or_comm]
    · obtain ⟨n, hn, hnone⟩ := ht.node
      obtain hmem | hmem := List.mem_append.mp hmem
      · -- a page that is freed is not the table of another node
        obtain ⟨o, ho, rfl⟩ := List.mem_map.mp (List.mem_reverse.mp hmem)
        obtain ⟨x, hx⟩ := mem_spaceOps.mp ho
        obtain rfl := h.tree.once x (.table n) _ (placeAt_of_opAt hx) hn
        rw [hnone] at hx
        cases hx
      · exact h.tree.notMem (.table n) t hn hmem
  entries := by
    intro t ht i hG
    obtain ⟨n, hn, hnone⟩ := ht.node
    refine h.tree.word_eq hn hnone fun i' j' hnode => ?_
    rw [Option.eq_none_iff_forall_ne_some]
    intro o ho
    obtain ⟨t', ht', hleaf, -⟩ := opAt_leaf.mp ho
    rw [hnode, ht'] at hn
    obtain rfl := Option.some.inj hn
    have hnot := (Bool.and_eq_true_iff.mp hleaf).2
    rw [hG] at hnot
    cases hnot

end ProcessSpace

/-- Reclaiming an address space gives back what it had for itself, each page once, if and only
if the free list was not empty or what goes on it first ends it. -/
theorem space_reclaimed_iff (mainMtag : Nat) (h : ProcessSpace m.word root free)
    (hfree : m.Free free) :
    Reclaimed mainMtag root free m (m.memorySpaceReclaim mainMtag (mtagOf root)) ↔
      FirstLinked m root free := by
  rw [memorySpaceReclaim_eq h.tree.aligned h.lt, h.tree.tables.forEntries_freeMid]
  constructor
  · intro hr
    obtain ⟨k, hk, hnodup, hmem, -⟩ := hr.list
    exact h.firstLinked_of_list hfree hk hnodup hmem
  · exact h.reclaimed hfree mainMtag

end Reclaim

/-! ## A small address space -/

namespace Phys

/-- Tables for the user range with the leaf entries `w0` and `w1`. The entry for the last table
has the flags `f`; the page at `0x80013000` begins with `first`. -/
def small (f : BitVec 8) (w0 w1 first : BitVec 64) (free : Nat) : Phys where
  word a :=
    if a = 0x80010018 then (⟨PTE_V, 0, 0x80011, 0⟩ : Pte).toWord
    else if a = 0x80011000 then (⟨f, 0, 0x80012, 0⟩ : Pte).toWord
    else if a = 0x80012000 then w0
    else if a = 0x80012008 then w1
    else if a = 0x80013000 then first
    else 0
  freeList := free
  heapStart := 0
  heapEnd := 0

section

/-- For the numerals of the definition. -/
local instance smallPlaces_neZero : NeZero 512 := ⟨by decide⟩

/-- The places of the small address space and their pages. -/
def smallPlaces : List (Place × Nat) :=
  [(.table .root, 0x80010000), (.table (.mid 3), 0x80011000), (.table (.low 3 0), 0x80012000),
    (.leaf 3 0 0, 0x80013000)]

end

section Small

variable {f : BitVec 8} {w0 w1 first : BitVec 64} {free : Nat}

theorem small_word (a : Nat) (h : a ∉ [0x80010018, 0x80011000, 0x80012000, 0x80012008, 0x80013000]) :
    (small f w0 w1 first free).word a = 0 := by
  simp only [List.mem_cons, List.not_mem_nil, or_false, not_or] at h
  obtain ⟨h₁, h₂, h₃, h₄, h₅⟩ := h
  unfold small
  dsimp only
  rw [if_neg h₁, if_neg h₂, if_neg h₃, if_neg h₄, if_neg h₅]

theorem small_root (i : Fin 512) : entry (small f w0 w1 first free).word 0x80010000 i =
    if i = 3 then ⟨PTE_V, 0, 0x80011, 0⟩ else Pte.ofWord 0 := by
  split
  · next h =>
    subst h
    exact Pte.ofWord_toWord _
  · next h =>
    have hi : i.val ≠ 3 := fun heq => h (Fin.ext heq)
    have := i.isLt
    refine congrArg Pte.ofWord (small_word _ ?_)
    simp only [List.mem_cons, List.not_mem_nil, or_false, not_or]
    omega

theorem small_mid (j : Fin 512) : entry (small f w0 w1 first free).word 0x80011000 j =
    if j = 0 then ⟨f, 0, 0x80012, 0⟩ else Pte.ofWord 0 := by
  split
  · next h =>
    subst h
    exact Pte.ofWord_toWord _
  · next h =>
    have hj : j.val ≠ 0 := fun heq => h (Fin.ext heq)
    have := j.isLt
    refine congrArg Pte.ofWord (small_word _ ?_)
    simp only [List.mem_cons, List.not_mem_nil, or_false, not_or]
    omega

theorem small_low (k : Fin 512) : entry (small f w0 w1 first free).word 0x80012000 k =
    Pte.ofWord (if k = 0 then w0 else if k = 1 then w1 else 0) := by
  refine congrArg Pte.ofWord ?_
  split
  · next h =>
    subst h
    rfl
  · next h₀ =>
    split
    · next h =>
      subst h
      rfl
    · next h₁ =>
      have h₀ : k.val ≠ 0 := fun heq => h₀ (Fin.ext heq)
      have h₁ : k.val ≠ 1 := fun heq => h₁ (Fin.ext heq)
      have := k.isLt
      refine small_word _ ?_
      simp only [List.mem_cons, List.not_mem_nil, or_false, not_or]
      omega

theorem small_addr : (⟨f, 0, 0x80012, 0⟩ : Pte).addr = 0x80012000 := by
  show (0x80012 : BitVec 44).toNat * 2 ^ 12 = 0x80012000
  decide

/-- The last table is there if the loops take its entry for a pointer. -/
theorem small_linkAt_low (hf : (⟨f, 0, 0x80012, 0⟩ : Pte).linked) :
    linkAt (small f w0 w1 first free).word 0x80010000 (.low 3 0) = some 0x80012000 := by
  have hmid : linkAt (small f w0 w1 first free).word 0x80010000 (.mid 3) = some 0x80011000 := by
    show (entry _ _ _).link = _
    rw [small_root]
    decide
  rw [linkAt_of_pointerAt (pointerAt_low hmid), small_mid]
  exact Pte.link_eq_some.mpr ⟨hf, small_addr⟩

theorem small_linkAt {n : Node} {a : Nat}
    (h : linkAt (small f w0 w1 first free).word 0x80010000 n = some a) :
    (.table n, a) ∈ smallPlaces := by
  have hzero : (Pte.ofWord 0).link = none := by decide
  have hroot : ∀ i t, (entry (small f w0 w1 first free).word 0x80010000 i).link = some t →
      i = 3 ∧ t = 0x80011000 := by
    intro i t ht
    rw [small_root] at ht
    split at ht
    · next hi => exact ⟨hi, (Option.some.inj ht).symm⟩
    · rw [hzero] at ht
      cases ht
  cases n with
  | root =>
    obtain rfl := Option.some.inj h
    decide
  | mid i =>
    obtain ⟨rfl, rfl⟩ := hroot i a h
    decide
  | low i j =>
    obtain ⟨t, ht, hlow⟩ := Option.bind_eq_some_iff.mp h
    obtain ⟨rfl, rfl⟩ := hroot i t ht
    rw [small_mid] at hlow
    split at hlow
    · next hj =>
      subst hj
      rw [← (Pte.link_eq_some.mp hlow).2, small_addr]
      decide
    · rw [hzero] at hlow
      cases hlow

theorem small_leafAt {i j k : Fin 512} {q : Pte}
    (h : leafAt (small f w0 w1 first free).word 0x80010000 i j k = some q) :
    i = 3 ∧ j = 0 ∧ q = Pte.ofWord (if k = 0 then w0 else if k = 1 then w1 else 0) := by
  obtain ⟨t, ht, rfl⟩ := Option.map_eq_some_iff.mp h
  have hmem := small_linkAt ht
  simp only [smallPlaces, List.mem_cons, Prod.mk.injEq, Place.table.injEq, reduceCtorEq, false_and,
    List.not_mem_nil, or_false, false_or, Node.low.injEq] at hmem
  obtain ⟨⟨rfl, rfl⟩, rfl⟩ := hmem
  exact ⟨rfl, rfl, small_low k⟩

theorem small_placeAt {leaf : Pte → Bool}
    (h₀ : leaf (Pte.ofWord w0) → (Pte.ofWord w0).addr = 0x80013000)
    (h₁ : leaf (Pte.ofWord w1) = false) (hzero : leaf (Pte.ofWord 0) = false) {x : Place} {a : Nat}
    (hx : placeAt (small f w0 w1 first free).word 0x80010000 leaf x = some a) :
    (x, a) ∈ smallPlaces := by
  cases x with
  | table n => exact small_linkAt hx
  | leaf i j k =>
    obtain ⟨q, hq, ha⟩ := Option.bind_eq_some_iff.mp hx
    obtain ⟨hleaf, ha⟩ := Option.ite_none_right_eq_some.mp ha
    obtain rfl := Option.some.inj ha
    obtain ⟨rfl, rfl, rfl⟩ := small_leafAt hq
    split at hleaf
    · next hk =>
      subst hk
      rw [if_pos rfl, h₀ hleaf]
      decide
    · split at hleaf
      · rw [h₁] at hleaf
        cases hleaf
      · rw [hzero] at hleaf
        cases hleaf

/-- With one page that is mapped at most once, the small address space is a tree. -/
theorem small_ownTree {leaf : Pte → Bool}
    (h₀ : leaf (Pte.ofWord w0) → (Pte.ofWord w0).addr = 0x80013000)
    (h₁ : leaf (Pte.ofWord w1) = false) (hzero : leaf (Pte.ofWord 0) = false) {l : List Nat}
    (hl : ∀ p ∈ l, p = 0x80020000) :
    OwnTree leaf (small f w0 w1 first free).word 0x80010000 l := by
  have honce : ∀ p ∈ smallPlaces, ∀ q ∈ smallPlaces, p.2 = q.2 → p.1 = q.1 := by decide
  refine ⟨by decide, fun x y a hx hy => ?_, fun x a hx hmem => ?_, fun p hp => ?_⟩
  · exact honce _ (small_placeAt h₀ h₁ hzero hx) _ (small_placeAt h₀ h₁ hzero hy) rfl
  · have hfree : ∀ p ∈ smallPlaces, p.2 ≠ 0x80020000 := by decide
    exact hfree _ (small_placeAt h₀ h₁ hzero hx) (hl a hmem)
  · rw [hl p hp]
    decide

end Small

/-- A leaf entry for the user with this page. -/
def userWord (ppn : BitVec 44) : BitVec 64 :=
  (⟨PTE_V ||| PTE_R ||| PTE_W ||| PTE_U, 0, ppn, 0⟩ : Pte).toWord

/-- An address space with one page, which begins with `first`. -/
abbrev singlePage (first : BitVec 64) (free : Nat) : Phys :=
  small PTE_V (userWord 0x80013) 0 first free

end Phys

section Small

variable {first : BitVec 64} {free : Nat} {l : List Nat} {x : Place} {o : Op}

theorem singlePage_opAt (h : opAt .reclaim (singlePage first free).word 0x80010000 x = some o) :
    (x, o.addr) ∈ smallPlaces :=
  small_placeAt (fun _ => by decide) (by decide) (by decide) (placeAt_of_opAt h)

theorem singlePage_processSpace (hl : ∀ p ∈ l, p = 0x80020000) :
    ProcessSpace (singlePage first free).word 0x80010000 l where
  tree := small_ownTree (fun _ => by decide) (by decide) (by decide) hl
  lt := by decide
  ne_zero := by
    intro p hp
    obtain ⟨o, ho, rfl⟩ := List.mem_map.mp (ownPage_iff.mp hp)
    obtain ⟨x, hx⟩ := mem_spaceOps.mp ho
    have hne : ∀ p ∈ smallPlaces, p.2 ≠ 0 := by decide
    exact hne _ (singlePage_opAt hx)

/-- Its page goes on the free list first. -/
theorem singlePage_head? : (spaceOps .reclaim (singlePage first free).word 0x80010000).head? =
    some (.page 0x80013000 0x80012000) := by
  have hpage : opAt .reclaim (singlePage first free).word 0x80010000 (.leaf 3 0 0) =
      some (.page 0x80013000 0x80012000) := by
    refine opAt_leaf.mpr ⟨0x80012000, small_linkAt_low (by decide), ?_⟩
    rw [small_low]
    decide
  refine head?_spaceOps (mem_spaceOps.mpr ⟨_, hpage⟩) fun x y o hx hy => ?_
  have hleaf : ∀ p ∈ smallPlaces, p.2 = 0x80013000 → p.1 = .leaf 3 0 0 := by decide
  obtain rfl : x = _ := hleaf _ (singlePage_opAt hx) rfl
  have hy' := singlePage_opAt hy
  simp only [smallPlaces, List.mem_cons, Prod.mk.injEq, List.not_mem_nil, or_false] at hy'
  obtain ⟨rfl, -⟩ | ⟨rfl, -⟩ | ⟨rfl, -⟩ | ⟨rfl, -⟩ := hy'
  · cases hy
  · exact Or.inr fun h => h.2 _ rfl (.leaf_mid 3 0 0)
  · exact Or.inr fun h => h.2 _ rfl (.leaf_low 3 0 0)
  · exact Or.inl (Option.some.inj (hy.symm.trans hpage))

end Small

/-- A process with one page, and one free page: all goes well. -/
theorem space_reclaimed_one_free :
    ProcessSpace (singlePage 5 0x80020000).word 0x80010000 [0x80020000] ∧
      (singlePage 5 0x80020000).Free [0x80020000] ∧
      Reclaimed (mtagOf 0x80000000) 0x80010000 [0x80020000] (singlePage 5 0x80020000)
        ((singlePage 5 0x80020000).memorySpaceReclaim (mtagOf 0x80000000) (mtagOf 0x80010000)) := by
  have hspace : ProcessSpace (singlePage 5 0x80020000).word 0x80010000 [0x80020000] :=
    singlePage_processSpace fun p hp => List.mem_singleton.mp hp
  have hfree : (singlePage 5 0x80020000).Free [0x80020000] := ⟨rfl, by decide, rfl⟩
  exact ⟨hspace, hfree, (space_reclaimed_iff _ hspace hfree).mpr (Or.inl (by decide))⟩

/-- The same process with an empty free list: its page begins with 5, and so the free list goes
on at the address 5. -/
theorem space_not_reclaimed :
    ProcessSpace (singlePage 5 0).word 0x80010000 [] ∧ (singlePage 5 0).Free [] ∧
      ¬Reclaimed (mtagOf 0x80000000) 0x80010000 [] (singlePage 5 0)
        ((singlePage 5 0).memorySpaceReclaim (mtagOf 0x80000000) (mtagOf 0x80010000)) := by
  have hspace : ProcessSpace (singlePage 5 0).word 0x80010000 [] :=
    singlePage_processSpace fun p hp => by cases hp
  refine ⟨hspace, rfl, fun hr => ?_⟩
  rw [memorySpaceReclaim_eq hspace.tree.aligned hspace.lt,
    hspace.tree.tables.forEntries_freeMid] at hr
  obtain ⟨k, hk, hnodup, hmem, -⟩ := hr.list
  obtain hne | hword := hspace.firstLinked_of_list rfl hk hnodup hmem
  · exact hne rfl
  · exact absurd (hword _ _ singlePage_head?) (by decide)

/-! ## Unmapping the pages of the user -/

/-- What `memory_unmap_and_free_user` is to do with the leaf entries that are the user's: none of
them is left, their pages are free, and every other entry is as it was. -/
structure Unmapped (user : Pte → Bool) (root : Nat) (free : List Nat) (m m' : Phys) : Prop where
  gone : ∀ i j k q, leafAt m'.word root i j k = some q → user q = false
  list : ∃ l, m'.Free l ∧ l.Nodup ∧ ∀ p, p ∈ l ↔ p ∈ free ∨
    ∃ i j k q, leafAt m.word root i j k = some q ∧ user q ∧ q.addr = p
  kept : ∀ n t, linkAt m.word root n = some t → ∀ i : Fin 512,
    (∀ j k, n = .low j k → user (entry m.word t i) = false) → m'.word (t + 8 * i) = m.word (t + 8 * i)

/-- A leaf entry for the user, with or without a page. -/
def Pte.userLeaf (p : Pte) : Bool := p.has PTE_V && p.has PTE_U

/-- The tables and the pages of the user form a tree, and the pointers to tables are not marked as
the user's. -/
structure UserTree (word : Nat → BitVec 64) (root : Nat) (free : List Nat) : Prop where
  tree : OwnTree Policy.unmap.leaf word root free
  pointers : ∀ n q, pointerAt word root n = some q → q.linked → q.has PTE_U = false

/-- One of the rounds of a loop establishes `G`, and the others keep it. -/
theorem foldl_reaches {α σ : Type} {f : σ → α → σ} {I G : σ → Prop} {l : List α}
    (hI : ∀ s a, a ∈ l → I s → I (f s a)) (hG : ∀ s a, a ∈ l → I s → G s → G (f s a)) {s : σ}
    (hs : I s) : I (l.foldl f s) ∧ (G s → G (l.foldl f s)) ∧
      ((∃ a ∈ l, ∀ s, I s → G (f s a)) → G (l.foldl f s)) := by
  induction l generalizing s with
  | nil => exact ⟨hs, id, fun ⟨a, ha, _⟩ => by cases ha⟩
  | cons b l ih =>
    have hb := hI s b List.mem_cons_self hs
    obtain ⟨h₁, h₂, h₃⟩ := ih (fun s a ha => hI s a (List.mem_cons_of_mem b ha))
      (fun s a ha => hG s a (List.mem_cons_of_mem b ha)) hb
    refine ⟨h₁, fun hg => h₂ (hG s b List.mem_cons_self hs hg), fun ⟨a, ha, hreach⟩ => ?_⟩
    obtain rfl | ha := List.mem_cons.mp ha
    · exact h₂ (hreach s hs)
    · exact h₃ ⟨a, ha, hreach⟩

/-- An entry stays cleared if nothing else is written to it. -/
theorem runOps_cleared {m : Phys} {ops : List Op} {p e : Nat} (h : .page p e ∈ ops)
    (honly : ∀ o ∈ ops, e ∈ o.writes → o = .page p e) :
    (Pte.ofWord ((runOps m ops).word e)).flags = 0 := by
  have hclear : ∀ m : Phys, (Pte.ofWord (((Op.page p e).run m).word e)).flags = 0 := by
    intro m
    show (Pte.ofWord (Function.update (m.giveBack p).word e _ e)).flags = 0
    rw [Function.update_self, Pte.ofWord_toWord]
  have hreach := foldl_reaches (f := Op.run) (I := fun _ => True)
    (G := fun m => (Pte.ofWord (m.word e)).flags = 0) (l := ops) (fun _ _ _ _ => trivial)
    (fun m o ho _ hm => ?_) (s := m) trivial
  · exact hreach.2.2 ⟨_, h, fun m _ => hclear m⟩
  · by_cases hw : e ∈ o.writes
    · rw [honly o ho hw]
      exact hclear m
    · rw [Op.run_word hw]
      exact hm

theorem linkAt_congr {word word' : Nat → BitVec 64} {root : Nat}
    (hroot : ∀ i : Fin 512, word' (root + 8 * i) = word (root + 8 * i))
    (hmid : ∀ i t, linkAt word root (.mid i) = some t →
      ∀ j : Fin 512, word' (t + 8 * j) = word (t + 8 * j)) (n : Node) :
    linkAt word' root n = linkAt word root n := by
  have hmid' : ∀ i, linkAt word' root (.mid i) = linkAt word root (.mid i) := fun i => by
    show (entry word' root i).link = (entry word root i).link
    rw [entry_congr (hroot i)]
  cases n with
  | root => rfl
  | mid i => exact hmid' i
  | low i j =>
    show (linkAt word' root (.mid i)).bind _ = (linkAt word root (.mid i)).bind _
    rw [hmid' i]
    cases ht : linkAt word root (.mid i) with
    | none => rfl
    | some t =>
      show (entry word' t j).link = (entry word t j).link
      rw [entry_congr (hmid i t ht j)]

namespace UserTree

variable {m : Phys} {root : Nat} {free : List Nat}

/-- No table is freed. -/
theorem opAt_table_none (h : UserTree m.word root free) (n : Node) :
    opAt .unmap m.word root (.table n) = none := by
  rw [Option.eq_none_iff_forall_ne_some]
  intro o ho
  obtain ⟨q, hq, hlinked, hdrop, -⟩ := opAt_table.mp ho
  have hdrop : q.has PTE_U = true := hdrop
  rw [h.pointers n q hq hlinked] at hdrop
  cases hdrop

theorem mem_addrs (h : UserTree m.word root free) {p : Nat} :
    p ∈ (spaceOps .unmap m.word root).map Op.addr ↔
      ∃ i j k q, leafAt m.word root i j k = some q ∧ q.userPage ∧ q.addr = p := by
  rw [List.mem_map]
  simp only [mem_spaceOps]
  constructor
  · rintro ⟨o, ⟨x, hx⟩, rfl⟩
    cases x with
    | table n =>
      rw [h.opAt_table_none n] at hx
      cases hx
    | leaf i j k =>
      obtain ⟨t, ht, hleaf, rfl⟩ := opAt_leaf.mp hx
      exact ⟨i, j, k, entry m.word t k, Option.map_eq_some_iff.mpr ⟨t, ht, rfl⟩, hleaf, rfl⟩
  · rintro ⟨i, j, k, q, hq, huser, rfl⟩
    obtain ⟨t, ht, rfl⟩ := Option.map_eq_some_iff.mp hq
    exact ⟨_, ⟨.leaf i j k, opAt_leaf.mpr ⟨t, ht, huser, rfl⟩⟩, rfl⟩

theorem addr_ne_zero (h : UserTree m.word root free) :
    ∀ o ∈ spaceOps .unmap m.word root, o.addr ≠ 0 := by
  intro o ho
  obtain ⟨i, j, k, q, -, huser, haddr⟩ := h.mem_addrs.mp (List.mem_map_of_mem ho)
  rw [← haddr]
  exact Pte.userPage_addr huser

theorem word_eq (h : UserTree m.word root free) {n : Node} {t : Nat}
    (hn : linkAt m.word root n = some t) {i : Fin 512}
    (hi : ∀ j k, n = .low j k → (entry m.word t i).userPage = false) :
    (runOps m (spaceOps .unmap m.word root)).word (t + 8 * i) = m.word (t + 8 * i) := by
  refine h.tree.word_eq hn (h.opAt_table_none n) fun j k hnode => ?_
  rw [Option.eq_none_iff_forall_ne_some]
  intro o ho
  obtain ⟨t', ht', hleaf, -⟩ := opAt_leaf.mp ho
  rw [hnode, ht'] at hn
  obtain rfl := Option.some.inj hn
  have hleaf : (entry m.word t' i).userPage = true := hleaf
  rw [hi j k hnode] at hleaf
  cases hleaf

/-- The tables are where they were. -/
theorem linkAt_eq (h : UserTree m.word root free) (n : Node) :
    linkAt (runOps m (spaceOps .unmap m.word root)).word root n = linkAt m.word root n :=
  linkAt_congr (fun i => h.word_eq (n := .root) rfl (by nofun))
    (fun i t ht j => h.word_eq ht (by nofun)) n

theorem gone (h : UserTree m.word root free) {i j k : Fin 512} {q : Pte}
    (hq : leafAt (runOps m (spaceOps .unmap m.word root)).word root i j k = some q) :
    q.userPage = false := by
  unfold leafAt at hq
  rw [h.linkAt_eq] at hq
  obtain ⟨t, ht, rfl⟩ := Option.map_eq_some_iff.mp hq
  cases huser : (entry m.word t k).userPage with
  | false =>
    have hword := h.word_eq ht (i := k) fun _ _ _ => huser
    rwa [entry_congr hword]
  | true =>
    have hop : opAt .unmap m.word root (.leaf i j k) =
        some (.page (entry m.word t k).addr (t + 8 * k)) := opAt_leaf.mpr ⟨t, ht, huser, rfl⟩
    -- nothing else writes to the entry
    have hflags := runOps_cleared (m := m) (mem_spaceOps.mpr ⟨_, hop⟩) fun o ho hw => by
      obtain ⟨x, hx⟩ := mem_spaceOps.mp ho
      obtain rfl | ⟨j', k', hnode, rfl⟩ := h.tree.tables.write_entry hx ht hw
      · rw [h.opAt_table_none] at hx
        cases hx
      · obtain ⟨rfl, rfl⟩ := Node.low.inj hnode
        exact Option.some.inj (hx.symm.trans hop)
    unfold Pte.userPage
    have hV := Pte.has_of_flags_zero hflags PTE_V
    show (Pte.has _ PTE_V && _ && _) = false
    unfold entry
    rw [hV]
    rfl

theorem runOps_unmap (h : UserTree m.word root free) (hfree : m.Free free) (hne : free ≠ []) :
    memoryUnmapAndFreeUser root m = some (runOps m (spaceOps .unmap m.word root)) := by
  rw [memoryUnmapAndFreeUser_eq, if_neg (hfree.ne_nil_iff.mp hne),
    h.tree.tables.forEntries_freeMid]

end UserTree

/-- Unmapping the memory of the user removes the leaf entries of the user that have a page, puts
the pages on the free list, each once, and changes no other entry. -/
theorem user_pages_unmapped {m : Phys} {root : Nat} {free : List Nat}
    (h : UserTree m.word root free) (hfree : m.Free free) (hne : free ≠ []) :
    ∃ m', memoryUnmapAndFreeUser root m = some m' ∧ Unmapped Pte.userPage root free m m' := by
  refine ⟨_, h.runOps_unmap hfree hne, fun i j k q hq => h.gone hq, ?_,
    fun n t hn i hi => h.word_eq hn hi⟩
  have hold := oldList_of_ne_zero (hfree.ne_nil_iff.mp hne) (spaceOps .unmap m.word root)
  refine ⟨_, h.tree.free_of_oldList hfree h.addr_ne_zero hold, h.tree.nodup_append hfree, fun p => ?_⟩
  rw [List.mem_append, List.mem_reverse, h.mem_addrs, or_comm]

/-! ### Where it stops -/

/-- A leaf entry for the user that has no page. -/
abbrev noPage : Phys := small PTE_V (userWord 0) 0 0 0x80020000

/-- Two leaf entries for the user with one page. -/
abbrev sharedPage : Phys := small PTE_V (userWord 0x80013) (userWord 0x80013) 0 0x80020000

/-- An empty last table whose pointer is marked as the user's. -/
abbrev userTable : Phys := small (PTE_V ||| PTE_U) 0 0 0 0x80020000

theorem small_free {f : BitVec 8} {w0 w1 first : BitVec 64} :
    (small f w0 w1 first 0x80020000).Free [0x80020000] := by
  refine ⟨rfl, by decide, ?_⟩
  show ((small f w0 w1 first 0x80020000).word 0x80020000).toNat = 0
  rw [small_word _ (by decide)]
  rfl

theorem small_pointerAt {f : BitVec 8} {w0 w1 first : BitVec 64} {free : Nat} {n : Node} {q : Pte}
    (h : pointerAt (small f w0 w1 first free).word 0x80010000 n = some q) :
    q = ⟨PTE_V, 0, 0x80011, 0⟩ ∨ q = ⟨f, 0, 0x80012, 0⟩ ∨ q = Pte.ofWord 0 := by
  cases n with
  | root => cases h
  | mid i =>
    obtain rfl := Option.some.inj h
    rw [small_root]
    split
    · exact Or.inl rfl
    · exact Or.inr (Or.inr rfl)
  | low i j =>
    obtain ⟨t, ht, rfl⟩ := Option.map_eq_some_iff.mp h
    have hmem := small_linkAt (n := .mid i) ht
    simp only [smallPlaces, List.mem_cons, Prod.mk.injEq, Place.table.injEq, reduceCtorEq, false_and,
      List.not_mem_nil, or_false, false_or] at hmem
    rw [hmem.2, small_mid]
    split
    · exact Or.inr (Or.inl rfl)
    · exact Or.inr (Or.inr rfl)

theorem small_userTree {w0 first : BitVec 64}
    (h₀ : (Pte.ofWord w0).userPage → (Pte.ofWord w0).addr = 0x80013000) :
    UserTree (small PTE_V w0 0 first 0x80020000).word 0x80010000 [0x80020000] where
  tree := small_ownTree h₀ (by decide) (by decide) fun p hp => List.mem_singleton.mp hp
  pointers := by
    intro n q hq _
    obtain rfl | rfl | rfl := small_pointerAt hq <;> decide

/-- A process with one page. -/
theorem user_pages_unmapped_one :
    UserTree (singlePage 5 0x80020000).word 0x80010000 [0x80020000] ∧
      (singlePage 5 0x80020000).Free [0x80020000] ∧
      ∃ m', memoryUnmapAndFreeUser 0x80010000 (singlePage 5 0x80020000) = some m' ∧
        Unmapped Pte.userPage 0x80010000 [0x80020000] (singlePage 5 0x80020000) m' := by
  have htree : UserTree (singlePage 5 0x80020000).word 0x80010000 [0x80020000] :=
    small_userTree fun _ => by decide
  exact ⟨htree, small_free, user_pages_unmapped htree small_free (by decide)⟩

theorem noPage_userTree : UserTree noPage.word 0x80010000 [0x80020000] := small_userTree (by decide)

/-- The entry without a page stays a leaf entry for the user. -/
theorem noPage_kept : ∃ m', memoryUnmapAndFreeUser 0x80010000 noPage = some m' ∧
    ¬Unmapped Pte.userLeaf 0x80010000 [0x80020000] noPage m' := by
  refine ⟨_, noPage_userTree.runOps_unmap small_free (by decide), fun hu => ?_⟩
  have hlow : linkAt noPage.word 0x80010000 (.low 3 0) = some 0x80012000 :=
    small_linkAt_low (by decide)
  have hword := noPage_userTree.word_eq hlow (i := 0) (fun _ _ _ => by rw [small_low]; decide)
  have hgone := hu.gone 3 0 0 _ (Option.map_eq_some_iff.mpr
    ⟨_, (noPage_userTree.linkAt_eq (.low 3 0)).trans hlow, rfl⟩)
  rw [entry_congr hword, small_low] at hgone
  exact absurd hgone (by decide)

theorem sharedPage_leaf {i j k : Fin 512} {a : Nat}
    (h : placeAt sharedPage.word 0x80010000 Policy.unmap.leaf (.leaf i j k) = some a) :
    a = 0x80013000 := by
  obtain ⟨q, hq, ha⟩ := Option.bind_eq_some_iff.mp h
  obtain ⟨hleaf, ha⟩ := Option.ite_none_right_eq_some.mp ha
  obtain rfl := Option.some.inj ha
  obtain ⟨-, -, rfl⟩ := small_leafAt hq
  split at hleaf
  · next hk =>
    rw [if_pos hk]
    decide
  · next h₀ =>
    split at hleaf
    · next hk =>
      rw [if_neg h₀, if_pos hk]
      decide
    · exact absurd hleaf (by decide)

theorem sharedPage_tables : TableTree Policy.unmap.leaf sharedPage.word 0x80010000 where
  aligned := by decide
  tree n n' a h h' := by
    have honce : ∀ p ∈ smallPlaces, ∀ q ∈ smallPlaces, p.2 = q.2 → p.1 = q.1 := by decide
    exact Place.table.inj (honce _ (small_linkAt h) _ (small_linkAt h') rfl)
  apart i j k n a h h' := by
    obtain rfl := sharedPage_leaf h
    have hpage : ∀ p ∈ smallPlaces, p.2 = 0x80013000 → p.1 = .leaf 3 0 0 := by decide
    cases hpage _ (small_linkAt h') rfl

/-- A page that is given back twice in a row links to itself. -/
theorem freed_twice {m : Phys} {ops : List Op} {p : Nat} (hp : p ≠ 0) (hlt : p < 2 ^ 64)
    (hall : ∀ o ∈ ops, ∃ e, o = .page p e ∧ p ≠ e) {o o' : Op} (ho : o ∈ ops) (ho' : o' ∈ ops)
    (hne : o ≠ o') (l : List Nat) : ¬(runOps m ops).Free l := by
  -- there are two operations at least
  obtain rfl | ⟨rest, b, rfl⟩ := List.eq_nil_or_concat ops
  · cases ho
  · obtain rfl | ⟨front, a, rfl⟩ := List.eq_nil_or_concat rest
    · have h := List.mem_singleton.mp ho
      have h' := List.mem_singleton.mp ho'
      exact absurd (h.trans h'.symm) hne
    · obtain ⟨e, rfl, -⟩ := hall a (by simp)
      obtain ⟨e', rfl, hentry⟩ := hall b (by simp)
      have hhead : (runOps m (front.concat (.page p e))).freeList = p := by
        rw [List.concat_eq_append, runOps_append]
        exact Op.run_freeList _ (.page p e)
      have hrun : runOps m ((front.concat (.page p e)).concat (.page p e')) =
          (Op.page p e').run (runOps m (front.concat (.page p e))) := by
        rw [List.concat_eq_append, runOps_append]
        rfl
      have hlink := Op.run_word_addr (m := runOps m (front.concat (.page p e))) (by rwa [hhead]) []
        (o := .page p e') fun _ _ h => by cases h; exact hentry
      rw [oldList_of_ne_zero (by rwa [hhead]), hhead] at hlink
      rw [hrun]
      unfold Free
      rw [Op.run_freeList]
      exact not_spells_self hp hlink

/-- The page that two entries share makes the free list a circle. -/
theorem sharedPage_circle : ∃ m', memoryUnmapAndFreeUser 0x80010000 sharedPage = some m' ∧
    ∀ l, ¬m'.Free l := by
  refine ⟨runOps sharedPage (spaceOps .unmap sharedPage.word 0x80010000), ?_, ?_⟩
  · rw [memoryUnmapAndFreeUser_eq, sharedPage_tables.forEntries_freeMid]
    rfl
  have hlow : linkAt sharedPage.word 0x80010000 (.low 3 0) = some 0x80012000 :=
    small_linkAt_low (by decide)
  have hpage : ∀ k : Fin 512, k = 0 ∨ k = 1 →
      .page 0x80013000 (0x80012000 + 8 * k) ∈ spaceOps .unmap sharedPage.word 0x80010000 := by
    intro k hk
    refine mem_spaceOps.mpr ⟨.leaf 3 0 k, opAt_leaf.mpr ⟨_, hlow, ?_⟩⟩
    rw [small_low]
    obtain rfl | rfl := hk <;> decide
  refine freed_twice (p := 0x80013000) (by decide) (by decide) (fun o ho => ?_) (hpage 0 (Or.inl rfl))
    (hpage 1 (Or.inr rfl)) (by decide)
  obtain ⟨x, hx⟩ := mem_spaceOps.mp ho
  cases x with
  | table n =>
    obtain ⟨q, hq, -, hdrop, -⟩ := opAt_table.mp hx
    obtain rfl | rfl | rfl := small_pointerAt hq <;> exact absurd hdrop (by decide)
  | leaf i j k =>
    have haddr := sharedPage_leaf (placeAt_of_opAt hx)
    obtain ⟨t, ht, -, rfl⟩ := opAt_leaf.mp hx
    refine ⟨t + 8 * k, congrArg (Op.page · _) haddr, ?_⟩
    have hmem := small_linkAt ht
    simp only [smallPlaces, List.mem_cons, Prod.mk.injEq, Place.table.injEq, reduceCtorEq, false_and,
      List.not_mem_nil, or_false, false_or] at hmem
    have := k.isLt
    omega

/-- A table whose pointer is marked as the user's is freed with the pages. -/
theorem userTable_freed : ∃ m', memoryUnmapAndFreeUser 0x80010000 userTable = some m' ∧
    ¬Unmapped Pte.userPage 0x80010000 [0x80020000] userTable m' := by
  have htree : OwnTree Policy.unmap.leaf userTable.word 0x80010000 [0x80020000] :=
    small_ownTree (by decide) (by decide) (by decide) fun p hp => List.mem_singleton.mp hp
  refine ⟨runOps userTable (spaceOps .unmap userTable.word 0x80010000), ?_, fun hu => ?_⟩
  · rw [memoryUnmapAndFreeUser_eq, htree.tables.forEntries_freeMid]
    rfl
  obtain ⟨l, hl, -, hmem⟩ := hu.list
  have hlist := htree.free_of_oldList small_free (fun o ho => ?_)
    (oldList_of_ne_zero (m := userTable) (by decide) _)
  · obtain rfl := Spells.unique hl hlist
    have htable : 0x80012000 ∈ (spaceOps .unmap userTable.word 0x80010000).map Op.addr := by
      refine List.mem_map.mpr ⟨.table 0x80012000, mem_spaceOps.mpr ⟨.table (.low 3 0), ?_⟩, rfl⟩
      have hmid : linkAt userTable.word 0x80010000 (.mid 3) = some 0x80011000 := by
        show (entry _ _ _).link = _
        rw [small_root]
        decide
      refine opAt_table.mpr ⟨_, pointerAt_low hmid, ?_⟩
      rw [small_mid]
      decide
    obtain hfree | ⟨i, j, k, q, hq, huser, -⟩ :=
      (hmem 0x80012000).mp (List.mem_append_left _ (List.mem_reverse.mpr htable))
    · exact absurd hfree (by decide)
    · obtain ⟨-, -, rfl⟩ := small_leafAt hq
      rw [ite_self, ite_self] at huser
      exact absurd huser (by decide)
  · obtain ⟨x, hx⟩ := mem_spaceOps.mp ho
    have hne : ∀ p ∈ smallPlaces, p.2 ≠ 0 := by decide
    exact hne _ (small_placeAt (by decide) (by decide) (by decide) (placeAt_of_opAt hx))

/-- Three address spaces with a tree of tables on which not exactly the leaf entries for the user
go: an entry without a page stays, a page with two entries makes the free list a circle, and a
table with a pointer for the user is freed. -/
theorem unmap_not_exact :
    (UserTree noPage.word 0x80010000 [0x80020000] ∧
      ∃ m', memoryUnmapAndFreeUser 0x80010000 noPage = some m' ∧
        ¬Unmapped Pte.userLeaf 0x80010000 [0x80020000] noPage m') ∧
    (TableTree Policy.unmap.leaf sharedPage.word 0x80010000 ∧ sharedPage.Free [0x80020000] ∧
      ∃ m', memoryUnmapAndFreeUser 0x80010000 sharedPage = some m' ∧ ∀ l, ¬m'.Free l) ∧
    ∃ m', memoryUnmapAndFreeUser 0x80010000 userTable = some m' ∧
      ¬Unmapped Pte.userPage 0x80010000 [0x80020000] userTable m' :=
  ⟨⟨noPage_userTree, noPage_kept⟩, ⟨sharedPage_tables, small_free, sharedPage_circle⟩,
    userTable_freed⟩

end RiscvKernel
