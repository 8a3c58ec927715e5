import RiscvKernel.Memory.Layout

/-!
# Ranges of pages

`memory_alloc_and_map_range` and `memory_set_range_flags` round the size up to whole pages and step
from the first address on, which need not be the beginning of a page.

* `pagesFrom`, `reached`: the addresses that the loops step through, and their pages.
* `Covers`: the steps come to the last page of the range.
* `Laid.map_pages` says what mapping pages one after the other does to an address space, and
  `Reflags` what replacing their flags does.
* `TablesBlank`: the free pages that become tables when a range is mapped hold no old entries.
* `range_operations_iff`: when the functions do what they are for.
-/

namespace RiscvKernel

open Lib

namespace Phys

/-! ## The addresses of a range -/

/-- The addresses that a loop over `n` pages from `vma` on comes to. -/
def pagesFrom : Nat → Nat → List Nat
  | 0, _ => []
  | n + 1, vma => vma :: pagesFrom n (u64 (vma + PAGE_SIZE : Nat))

theorem length_pagesFrom (n vma : Nat) : (pagesFrom n vma).length = n := by
  induction n generalizing vma with
  | zero => rfl
  | succ n ih => exact congrArg (· + 1) (ih _)

/-- The loop goes through these addresses. -/
theorem forPages_eq_foldlM (f : Nat → Phys → Option Phys) (n vma : Nat) (m : Phys) :
    forPages f n vma m = (pagesFrom n vma).foldlM (fun m vma => f vma m) m := by
  induction n generalizing vma m with
  | zero => rfl
  | succ n ih =>
    unfold forPages pagesFrom
    rw [List.foldlM_cons]
    cases f vma m with
    | none => rfl
    | some m => exact ih _ m

/-- Where nothing wraps they are a page apart. -/
theorem pagesFrom_eq {n vma : Nat} (h : vma + PAGE_SIZE * n < 2 ^ 64) :
    pagesFrom n vma = (List.range n).map fun j => vma + PAGE_SIZE * j := by
  induction n generalizing vma with
  | zero => rfl
  | succ n ih =>
    have hnext : u64 (vma + PAGE_SIZE : Nat) = vma + PAGE_SIZE :=
      u64_eq rfl (by rw [Nat.mul_add] at h; omega)
    unfold pagesFrom
    rw [hnext, ih (by rw [Nat.mul_add] at h; omega), List.range_succ_eq_map, List.map_cons,
      List.map_map]
    congr 1
    refine List.map_congr_left fun j _ => ?_
    show vma + PAGE_SIZE + PAGE_SIZE * j = vma + PAGE_SIZE * (j + 1)
    rw [Nat.mul_add]
    omega

/-- The virtual pages of these addresses. -/
def reached (n vma : Nat) : List Vpn := (pagesFrom n vma).map vpnOf

theorem mem_reached {n vma : Nat} {u : Vpn} (h : vma + PAGE_SIZE * n < 2 ^ 64) :
    u ∈ reached n vma ↔ ∃ j < n, vpnOf (vma + PAGE_SIZE * j) = u := by
  unfold reached
  rw [pagesFrom_eq h, List.map_map]
  simp [List.mem_map]

theorem pageCount_eq {size : Nat} (h : size + PAGE_SIZE ≤ 2 ^ 64) :
    pageCount size = (size + PAGE_SIZE - 1) / PAGE_SIZE := by
  unfold pageCount
  rw [u64_eq rfl (by unfold PAGE_SIZE at h ⊢; omega)]

/-- Addresses of the same virtual page. -/
theorem vpnOf_eq_iff {x y : Nat} (hx : x < 2 ^ 39) (hy : y < 2 ^ 39) :
    vpnOf x = vpnOf y ↔ x / PAGE_SIZE = y / PAGE_SIZE := by
  unfold PAGE_SIZE
  constructor
  · intro h
    have h2 := congrArg (fun v => v.i2.val) h
    have h1 := congrArg (fun v => v.i1.val) h
    have h0 := congrArg (fun v => v.i0.val) h
    simp only [vpnOf] at h2 h1 h0
    omega
  · intro h
    apply Vpn.ext
    · apply Fin.ext
      show x / 2 ^ 30 % 512 = y / 2 ^ 30 % 512
      omega
    · apply Fin.ext
      show x / 2 ^ 21 % 512 = y / 2 ^ 21 % 512
      omega
    · apply Fin.ext
      show x / 2 ^ 12 % 512 = y / 2 ^ 12 % 512
      omega

/-- The page `u` has a byte of the range. -/
def InRange (vma size : Nat) (u : Vpn) : Prop := ∃ x, vma ≤ x ∧ x < vma + size ∧ vpnOf x = u

/-- The whole pages that the size is rounded up to, laid from the first page on, contain the
range. -/
def Covers (vma size : Nat) : Prop := vma % PAGE_SIZE + size ≤ PAGE_SIZE * pageCount size

instance (vma size : Nat) : Decidable (Covers vma size) := inferInstanceAs (Decidable (_ ≤ _))

section Range

variable {vma size : Nat} {u : Vpn}

/-- The loop comes to all pages of the range but perhaps the last one, and to no others. -/
theorem inRange_iff (hend : vma + size ≤ USER_END) :
    InRange vma size u ↔
      u ∈ reached (pageCount size) vma ∨ size ≠ 0 ∧ u = vpnOf (vma + size - 1) := by
  have huser : USER_END < 2 ^ 38 := by decide
  have hcount : pageCount size = (size + PAGE_SIZE - 1) / PAGE_SIZE :=
    pageCount_eq (by unfold PAGE_SIZE; omega)
  rw [mem_reached (by rw [hcount]; unfold PAGE_SIZE; omega), hcount]
  unfold PAGE_SIZE
  constructor
  · rintro ⟨x, hx, hlt, rfl⟩
    by_cases hj : x / 4096 - vma / 4096 < (size + 4096 - 1) / 4096
    · refine Or.inl ⟨x / 4096 - vma / 4096, hj, ?_⟩
      rw [vpnOf_eq_iff (by omega) (by omega)]
      unfold PAGE_SIZE
      omega
    · refine Or.inr ⟨by omega, ?_⟩
      rw [vpnOf_eq_iff (by omega) (by omega)]
      unfold PAGE_SIZE
      omega
  · rintro (⟨j, hj, rfl⟩ | ⟨hsize, rfl⟩)
    · exact ⟨vma + 4096 * j, by omega, by omega, rfl⟩
    · exact ⟨vma + size - 1, by omega, by omega, rfl⟩

theorem last_mem_reached_iff (hend : vma + size ≤ USER_END) (hsize : size ≠ 0) :
    vpnOf (vma + size - 1) ∈ reached (pageCount size) vma ↔ Covers vma size := by
  have huser : USER_END < 2 ^ 38 := by decide
  have hcount : pageCount size = (size + PAGE_SIZE - 1) / PAGE_SIZE :=
    pageCount_eq (by unfold PAGE_SIZE; omega)
  unfold Covers
  rw [mem_reached (by rw [hcount]; unfold PAGE_SIZE; omega), hcount]
  unfold PAGE_SIZE
  constructor
  · rintro ⟨j, hj, heq⟩
    rw [vpnOf_eq_iff (by omega) (by omega)] at heq
    unfold PAGE_SIZE at heq
    omega
  · intro hcovers
    refine ⟨(vma + size - 1) / 4096 - vma / 4096, by omega, ?_⟩
    rw [vpnOf_eq_iff (by omega) (by omega)]
    unfold PAGE_SIZE
    omega

/-- A range that is covered has no other pages. -/
theorem Covers.inRange_iff (h : Covers vma size) (hend : vma + size ≤ USER_END) :
    InRange vma size u ↔ u ∈ reached (pageCount size) vma := by
  rw [Phys.inRange_iff hend]
  constructor
  · rintro (hu | ⟨hsize, rfl⟩)
    · exact hu
    · exact (last_mem_reached_iff hend hsize).mpr h
  · exact Or.inl

end Range

/-! ## Mapping pages one after the other -/

end Phys

namespace Layout

variable {A : Layout} {rwxug : BitVec 8} {vs : List Vpn} {v u : Vpn}

/-- The pages `vs` are mapped. -/
def mapPages (rwxug : BitVec 8) (vs : List Vpn) (A : Layout) : Layout :=
  vs.foldl (fun A v => A.map v rwxug) A

/-- The flags of the pages `vs` are replaced. -/
def flagPages (rwxug : BitVec 8) (vs : List Vpn) (A : Layout) : Layout :=
  vs.foldl (fun A v => A.flag v rwxug) A

theorem mapPages_cons : A.mapPages rwxug (v :: vs) = (A.map v rwxug).mapPages rwxug vs := rfl

theorem alive_of_mapPages (h : (A.mapPages rwxug vs).alive = true) : A.alive = true := by
  induction vs generalizing A with
  | nil => exact h
  | cons v vs ih => exact ((Bool.and_eq_true _ _).mp (ih h)).1

theorem tables_mapPages : A.tables ⊆ (A.mapPages rwxug vs).tables := by
  induction vs generalizing A with
  | nil => exact fun _ hp => hp
  | cons v vs ih => exact fun p hp => ih (List.mem_append_left _ hp)

theorem leaf_map_of_ne (h : u ≠ v) : (A.map v rwxug).leaf u = A.leaf u :=
  Function.update_of_ne h ..

theorem leaf_mapPages_of_notMem (h : u ∉ vs) : (A.mapPages rwxug vs).leaf u = A.leaf u := by
  induction vs generalizing A with
  | nil => rfl
  | cons v vs ih =>
    rw [List.mem_cons, not_or] at h
    rw [mapPages_cons, ih h.2, leaf_map_of_ne h.1]

theorem wrote_mapPages : (A.mapPages rwxug vs).wrote = A.wrote := by
  induction vs generalizing A with
  | nil => rfl
  | cons v vs ih => exact ih

/-- Each page takes one free page. -/
theorem taken_mapPages (h : (A.mapPages rwxug vs).alive = true) (hvs : vs.Nodup) :
    ∃ fs, (A.mapPages rwxug vs).taken = A.taken ++ fs ∧ fs.map Prod.fst = vs ∧
      ∀ f ∈ fs, f.2 ∈ A.free ∧
        (A.mapPages rwxug vs).leaf f.1 = Phys.mapped (A.leaf f.1) f.2 rwxug := by
  induction vs generalizing A with
  | nil => exact ⟨[], (List.append_nil _).symm, rfl, nofun⟩
  | cons v vs ih =>
    rw [mapPages_cons] at h ⊢
    obtain ⟨hnot, hvs⟩ := List.nodup_cons.mp hvs
    have hroom : A.needs v < A.free.length :=
      of_decide_eq_true ((Bool.and_eq_true _ _).mp (alive_of_mapPages h)).2
    obtain ⟨page, rest, hfree⟩ := List.exists_cons_of_length_pos (Nat.zero_lt_of_lt hroom)
    obtain ⟨fs, htaken, hfst, hleaf⟩ := ih h hvs
    refine ⟨(v, page) :: fs, ?_, congrArg (v :: ·) hfst, List.forall_mem_cons.mpr ⟨?_, fun f hf => ?_⟩⟩
    · rw [htaken]
      unfold map
      rw [hfree]
      exact List.append_assoc _ [(v, page)] fs
    · refine ⟨hfree ▸ List.mem_cons_self, ?_⟩
      rw [leaf_mapPages_of_notMem hnot]
      unfold map
      dsimp only
      rw [Function.update_self, hfree]
      rfl
    · -- a page that comes later is another one
      have hne : f.1 ≠ v := by
        rintro rfl
        exact hnot (hfst ▸ List.mem_map_of_mem hf)
      obtain ⟨hmem, hthis⟩ := hleaf f hf
      rw [hthis, leaf_map_of_ne hne]
      exact ⟨List.mem_of_mem_tail (List.mem_of_mem_drop hmem), rfl⟩

theorem leaf_flagPages (hvs : vs.Nodup) : (A.flagPages rwxug vs).leaf u =
    if u ∈ vs then { A.leaf u with flags := Phys.withADV rwxug } else A.leaf u := by
  induction vs generalizing A with
  | nil => rfl
  | cons v vs ih =>
    obtain ⟨hnot, hvs⟩ := List.nodup_cons.mp hvs
    show ((A.flag v rwxug).flagPages rwxug vs).leaf u = _
    rw [ih hvs]
    show (if u ∈ vs then { Function.update A.leaf v _ u with flags := Phys.withADV rwxug }
      else Function.update A.leaf v _ u) = _
    by_cases hu : u = v
    · subst hu
      rw [if_neg hnot, if_pos List.mem_cons_self, Function.update_self]
    · rw [Function.update_of_ne hu]
      simp only [List.mem_cons, hu, false_or]

/-- Flags change nothing else. -/
theorem flagPages_eq : A.flagPages rwxug vs = { A with leaf := (A.flagPages rwxug vs).leaf } := by
  induction vs generalizing A with
  | nil => rfl
  | cons v vs ih =>
    show (A.flag v rwxug).flagPages rwxug vs = _
    rw [ih]
    rfl

end Layout

namespace Phys

variable {base root vma n : Nat} {o m m' m'' : Phys} {l : List Nat} {A : Layout}
  {rwxug fl : BitVec 8}

/-- The loop of `memory_alloc_and_map_range`. Induction on the addresses left. -/
theorem Laid.map_pages {xs : List Nat} (h : Laid base root l o m A) (halive : A.alive = true)
    (hxs : ∀ x ∈ xs, USER_START ≤ x ∧ x ≤ USER_END)
    (hblank : ∀ p ∈ (A.mapPages rwxug (xs.map vpnOf)).tables, Blank o.word p) :
    Lays base root l o (A.mapPages rwxug (xs.map vpnOf))
      (xs.foldlM (fun m vma => memoryAllocAndMapPage root vma rwxug m) m) := by
  induction xs generalizing m A with
  | nil => exact ⟨halive, h⟩
  | cons x xs ih =>
    obtain ⟨hx, hxs⟩ := List.forall_mem_cons.mp hxs
    have hlays := h.map_page rwxug halive hx.1 hx.2 fun p hp =>
      hblank p (Layout.tables_mapPages (A := A.map (vpnOf x) rwxug) (List.mem_append_right _ hp))
    rw [List.foldlM_cons]
    cases hm : memoryAllocAndMapPage root x rwxug m with
    | none =>
      rw [hm] at hlays
      have hdead : (A.map (vpnOf x) rwxug).alive = false := hlays
      -- a panic is the end
      exact Bool.eq_false_iff.mpr fun halive' =>
        Bool.false_ne_true (hdead.symm.trans (Layout.alive_of_mapPages halive'))
    | some m' =>
      rw [hm] at hlays
      exact ih hlays.2 hlays.1 hxs hblank

/-- The addresses of a range in the user region, -/
theorem pagesFrom_user {size x : Nat} (hstart : USER_START ≤ vma) (hend : vma + size ≤ USER_END)
    (hx : x ∈ pagesFrom (pageCount size) vma) : USER_START ≤ x ∧ x ≤ USER_END := by
  have huser : USER_END < 2 ^ 38 := by decide
  have hcount : pageCount size = (size + PAGE_SIZE - 1) / PAGE_SIZE :=
    pageCount_eq (by unfold PAGE_SIZE; omega)
  rw [hcount, pagesFrom_eq (by unfold PAGE_SIZE; omega)] at hx
  obtain ⟨j, hj, rfl⟩ := List.mem_map.mp hx
  have := List.mem_range.mp hj
  unfold PAGE_SIZE at *
  omega

/-- and their pages, which are all different. -/
theorem nodup_reached {size : Nat} (hend : vma + size ≤ USER_END) :
    (reached (pageCount size) vma).Nodup := by
  have huser : USER_END < 2 ^ 38 := by decide
  have hcount : pageCount size = (size + PAGE_SIZE - 1) / PAGE_SIZE :=
    pageCount_eq (by unfold PAGE_SIZE; omega)
  unfold reached
  rw [hcount, pagesFrom_eq (by unfold PAGE_SIZE; omega), List.map_map]
  refine List.Nodup.map_on (fun i hi j hj heq => ?_) List.nodup_range
  have hi := List.mem_range.mp hi
  have hj := List.mem_range.mp hj
  have heq : vpnOf (vma + PAGE_SIZE * i) = vpnOf (vma + PAGE_SIZE * j) := heq
  unfold PAGE_SIZE at *
  rw [vpnOf_eq_iff (by omega) (by omega)] at heq
  unfold PAGE_SIZE at heq
  omega

theorem reached_user {size : Nat} {u : Vpn} (hstart : USER_START ≤ vma) (hend : vma + size ≤ USER_END)
    (hu : u ∈ reached (pageCount size) vma) : u.i2 = 3 ∧ u.i1.val ≤ 128 := by
  obtain ⟨x, hx, rfl⟩ := List.mem_map.mp hu
  obtain ⟨h₁, h₂⟩ := pagesFrom_user hstart hend hx
  exact vpnOf_user h₁ h₂

/-- `memory_alloc_and_map_range` follows the layout. -/
theorem Laid.map_range {size : Nat} (rwxug : BitVec 8) (h : Laid base root l o m A) (halive : A.alive = true)
    (hstart : USER_START ≤ vma) (hend : vma + size ≤ USER_END)
    (hblank : ∀ p ∈ (A.mapPages rwxug (reached (pageCount size) vma)).tables, Blank o.word p) :
    Lays base root l o (A.mapPages rwxug (reached (pageCount size) vma))
      (memoryAllocAndMapRange root vma size rwxug m) := by
  unfold memoryAllocAndMapRange
  rw [forPages_eq_foldlM]
  exact h.map_pages halive (fun x hx => pagesFrom_user hstart hend hx) hblank

/-! ## Flags of pages one after the other -/

/-- What replacing the flags of the pages `us` does. -/
structure Reflags (m m' : Phys) (root : Nat) (us : List Vpn) (fl : BitVec 8) : Prop where
  leaf : ∀ u ∈ us, ∀ p, leafEntry m.word root u = some p →
    leafEntry m'.word root u = some { p with flags := fl }
  frame : ∀ a, (∀ u ∈ us, ∀ t, tableAt m.word root (.low u.i2 u.i1) = some t → a ≠ t + 8 * u.i0) →
    m'.word a = m.word a
  lists : m' = { m with word := m'.word }

section Reflags

variable {us us' : List Vpn} {free : List Nat} {u : Vpn}

/-- The entries of a table above the last level are kept. -/
theorem Reflags.word_upper (h : Reflags m m' root us fl) (hs : Space m.word root free) {v : Node}
    {t : Nat} (ht : tableAt m.word root v = some t) (hupper : ∀ i j, v ≠ .low i j) (i : Fin 512) :
    m'.word (t + 8 * i) = m.word (t + 8 * i) := by
  refine h.frame _ fun u _ t' ht' => ?_
  refine entry_ne (tableAt_aligned hs.aligned ht) (tableAt_aligned hs.aligned ht') ?_ i u.i0
  rintro rfl
  exact hupper _ _ (hs.tree _ _ _ ht ht')

theorem Reflags.tableAt_eq (h : Reflags m m' root us fl) (hs : Space m.word root free) (v : Node) :
    tableAt m'.word root v = tableAt m.word root v :=
  tableAt_congr (fun i => h.word_upper hs (v := .root) rfl nofun i)
    (fun i _ ht j => h.word_upper hs (v := .mid i) ht nofun j) v

theorem Reflags.space (h : Reflags m m' root us fl) (hs : Space m.word root free) :
    Space m'.word root free :=
  hs.congr (fun i => h.word_upper hs (v := .root) rfl nofun i)
    (fun i _ ht j => h.word_upper hs (v := .mid i) ht nofun j) fun _ hp => hp

/-- The leaf entries of other pages are kept, -/
theorem Reflags.word_leaf (h : Reflags m m' root us fl) (hs : Space m.word root free) (hu : u ∉ us)
    {t : Nat} (ht : tableAt m.word root (.low u.i2 u.i1) = some t) :
    m'.word (t + 8 * u.i0) = m.word (t + 8 * u.i0) := by
  refine h.frame _ fun v hv t' ht' heq => hu ?_
  have haligned := tableAt_aligned hs.aligned ht
  have haligned' := tableAt_aligned hs.aligned ht'
  obtain rfl : t = t' := by
    by_contra hne
    exact entry_ne haligned haligned' hne u.i0 v.i0 heq
  obtain ⟨hi2, hi1⟩ := Node.low.inj (hs.tree _ _ _ ht ht')
  have hi0 : u.i0 = v.i0 := Fin.ext (by omega)
  rwa [Vpn.ext hi2 hi1 hi0]

theorem Reflags.leafEntry_of_notMem (h : Reflags m m' root us fl) (hs : Space m.word root free)
    (hu : u ∉ us) : leafEntry m'.word root u = leafEntry m.word root u := by
  unfold leafEntry
  rw [h.tableAt_eq hs]
  cases ht : tableAt m.word root (.low u.i2 u.i1) with
  | none => rfl
  | some t =>
    show some (entry m'.word t u.i0) = some (entry m.word t u.i0)
    rw [entry_congr (h.word_leaf hs hu ht)]

/-- and so are their translations. -/
theorem Reflags.hwWalk_of_notMem (h : Reflags m m' root us fl) (hs : Space m.word root free)
    (hu : u ∉ us) : hwWalk m'.word root u = hwWalk m.word root u := by
  refine hwWalk_congr (h.word_upper hs (v := .root) rfl nofun u.i2) fun htable1 => ?_
  have hmid : tableAt m.word root (.mid u.i2) = some (entry m.word root u.i2).addr :=
    Pte.child_eq_some.mpr ⟨htable1, rfl⟩
  refine walk1_congr (h.word_upper hs hmid nofun u.i1) fun htable0 => ?_
  refine walk0_congr (h.word_leaf hs hu ?_)
  rw [tableAt_low hmid]
  exact Pte.child_eq_some.mpr ⟨htable0, rfl⟩

theorem Reflags.refl (m : Phys) (root : Nat) (fl : BitVec 8) : Reflags m m root [] fl where
  leaf := nofun
  frame _ _ := rfl
  lists := rfl

theorem Reflags.trans (h : Reflags m m' root us fl) (h' : Reflags m' m'' root us' fl)
    (hs : Space m.word root free) : Reflags m m'' root (us ++ us') fl := by
  refine ⟨?_, ?_, ?_⟩
  · intro u hu p hp
    have hs' := h.space hs
    by_cases hmem : u ∈ us
    · have hp' := h.leaf u hmem p hp
      by_cases hmem' : u ∈ us'
      · exact (h'.leaf u hmem' { p with flags := fl } hp').trans rfl
      · rw [h'.leafEntry_of_notMem hs' hmem', hp']
    · have hmem' := (List.mem_append.mp hu).resolve_left hmem
      exact h'.leaf u hmem' p (by rw [h.leafEntry_of_notMem hs hmem, hp])
  · intro a ha
    rw [h'.frame a, h.frame a]
    · exact fun u hu t ht => ha u (List.mem_append_left _ hu) t ht
    · intro u hu t ht
      rw [h.tableAt_eq hs] at ht
      exact ha u (List.mem_append_right _ hu) t ht
  · rw [h'.lists, h.lists]

/-- The flags of one page. -/
theorem setFlags_reflags (create : Bool) (rwxug : BitVec 8) (hs : Space m.word root free)
    (hleaf : (leafEntry m.word root (vpnOf vma)).isSome) :
    ∃ m', setFlags create root vma rwxug m = some m' ∧
      Reflags m m' root [vpnOf vma] (withADV rwxug) := by
  obtain ⟨p, hp⟩ := Option.isSome_iff_exists.mp hleaf
  obtain ⟨t0, ht0, rfl⟩ := Option.map_eq_some_iff.mp hp
  unfold setFlags
  rw [walkPt_of_low ht0]
  refine ⟨_, rfl, ?_, ?_, rfl⟩
  · intro u hu q hq
    obtain rfl := List.mem_singleton.mp hu
    obtain rfl := Option.some.inj (hp.symm.trans hq)
    obtain ⟨t1, ht1, -⟩ := Option.bind_eq_some_iff.mp ht0
    have hw := (hs.walked_old ht1 ht0).leaf hs.aligned
      { entry m.word t0 (vpnOf vma).i0 with flags := withADV rwxug }.toWord
    refine hw.leafEntry_self.trans ?_
    rw [entry_update_self]
  · intro a ha
    exact Function.update_of_ne (ha _ List.mem_cons_self t0 ht0) ..

/-- The loop of `memory_set_range_flags` over pages with leaf entries. -/
theorem setFlags_pages (create : Bool) (rwxug : BitVec 8) (hs : Space m.word root free)
    (hleaf : ∀ u ∈ reached n vma, (leafEntry m.word root u).isSome) :
    ∃ m', forPages (fun vma m => setFlags create root vma rwxug m) n vma m = some m' ∧
      Reflags m m' root (reached n vma) (withADV rwxug) := by
  induction n generalizing vma m with
  | zero => exact ⟨m, rfl, Reflags.refl m root _⟩
  | succ n ih =>
    obtain ⟨m₁, hm₁, hstep⟩ :=
      setFlags_reflags create rwxug hs (hleaf (vpnOf vma) List.mem_cons_self)
    obtain ⟨m', hm', hrest⟩ := @ih (u64 (vma + PAGE_SIZE : Nat)) m₁ (hstep.space hs)
      fun u hu => by
        obtain ⟨p, hp⟩ := Option.isSome_iff_exists.mp (hleaf u (List.mem_cons_of_mem _ hu))
        by_cases hthis : u ∈ [vpnOf vma]
        · rw [hstep.leaf u hthis p hp]
          rfl
        · rw [hstep.leafEntry_of_notMem hs hthis, hp]
          rfl
    refine ⟨m', ?_, hstep.trans hrest hs⟩
    unfold forPages
    rw [hm₁]
    exact hm'

/-- New flags change nothing outside the tables. -/
theorem Reflags.word_outside (h : Reflags m m' root us fl) (hroot : root % 2 ^ 12 = 0) {a : Nat}
    (ha : ¬InTable m.word root a) : m'.word a = m.word a := by
  refine h.frame a fun u _ t ht heq => ha ?_
  rw [heq]
  exact inTable_entry hroot ht u.i0

/-- New flags of pages that are mapped follow the layout. -/
theorem Laid.reflag (h : Laid base root l o m A) (hflags : Reflags m m' root us (withADV rwxug))
    (hus : us.Nodup) (huser : ∀ u ∈ us, u.i2 = 3 ∧ u.i1.val ≤ 128)
    (hV : ∀ u ∈ us, (A.leaf u).has PTE_V) : Laid base root l o m' (A.flagPages rwxug us) := by
  have hroot := h.space.aligned
  have htables := hflags.tableAt_eq h.space
  have hfree : ∀ a, a - a % 2 ^ 12 ∈ A.free → m'.word a = m.word a := by
    refine fun a ha => hflags.word_outside hroot ?_
    rintro ⟨n, t, ht, rfl⟩
    exact h.space.used n _ ht ha
  rw [Layout.flagPages_eq]
  refine ⟨h.pool₀, h.space₀, ?_, hflags.space h.space, fun n => ?_, fun u => ?_, fun n t ht => ?_,
    fun a ha => ?_, fun pa hpa => ?_, fun u hu => ?_, h.split⟩
  · have hlists := hflags.lists
    refine h.pool.congr (by rw [hlists]) (by rw [hlists]) (by rw [hlists]) fun p hp => hfree p ?_
    have haligned : p % 2 ^ 12 = 0 := (h.pool.page p hp).aligned
    rwa [haligned, Nat.sub_zero]
  · rw [htables]
    exact h.has n
  · show (leafOf m'.word root u).Alike ((A.flagPages rwxug us).leaf u)
    rw [Layout.leaf_flagPages hus]
    have halike := h.leaf u
    split
    · next hu =>
      have hold : (leafOf m.word root u).has PTE_V := by
        rw [← halike.has_eq]
        exact hV u hu
      cases hp : leafEntry m.word root u with
      | none =>
        rw [leafOf_of_none hp] at hold
        exact absurd hold (by decide)
      | some p =>
        rw [leafOf_of_some hp] at halike hold
        rw [leafOf_of_some (hflags.leaf u hu p hp)]
        exact ⟨rfl, halike.hi, fun _ => halike.ppn hold⟩
    · next hu =>
      have hsame : leafOf m'.word root u = leafOf m.word root u := by
        unfold leafOf
        rw [hflags.leafEntry_of_notMem h.space hu]
      rw [hsame]
      exact halike
  · rw [htables] at ht
    exact h.tables n t ht
  · rw [hfree a ha]
    exact h.free a ha
  · have hpa' : ¬InTable m.word root pa := by
      rintro ⟨n, t, ht, hat⟩
      exact hpa ⟨n, t, by rw [htables, ht], hat⟩
    rw [byteAt_congr (hflags.word_outside hroot (InTable.word.not.mpr hpa'))]
    exact h.bytes pa hpa'
  · rw [hflags.hwWalk_of_notMem h.space fun hmem => hu (huser u hmem), h.other u hu]

end Reflags

/-! ## What the functions are for -/

/-- Every page of the range is mapped to a page of its own that was free in `l` and is not in `k`,
with the flags `fl`; no other translation changes. -/
structure RangeMapped (m m' : Phys) (root vma size : Nat) (l k : List Nat) (fl : BitVec 8) :
    Prop where
  fresh : ∀ u, InRange vma size u → ∃ page ∈ l, page ∉ k ∧
    hwWalk m'.word root u = some (BitVec.ofNat 44 (page / 2 ^ 12), fl)
  distinct : ∀ u u', InRange vma size u → InRange vma size u' →
    hwWalk m'.word root u = hwWalk m'.word root u' → u = u'
  others : ∀ u, ¬InRange vma size u → hwWalk m'.word root u = hwWalk m.word root u

/-- The pages of the range get the flags `fl` and stay where they are; no other entry and no other
translation changes. -/
structure RangeFlagged (m m' : Phys) (root vma size : Nat) (fl : BitVec 8) : Prop where
  flags : ∀ u p, InRange vma size u → leafEntry m.word root u = some p →
    leafEntry m'.word root u = some { p with flags := fl }
  kept : ∀ u, ¬InRange vma size u → leafEntry m'.word root u = leafEntry m.word root u
  others : ∀ u, ¬InRange vma size u → hwWalk m'.word root u = hwWalk m.word root u

/-- The pages of `l` that become tables when the range is mapped are blank. Which pages these are
follows from the tables that there are and the length of the range. -/
def TablesBlank (m : Phys) (root : Nat) (l : List Nat) (vma size : Nat) (rwxug : BitVec 8) : Prop :=
  ∀ p ∈ ((m.layout root l).mapPages rwxug (reached (pageCount size) vma)).tables, Blank m.word p

/-- The leaf entry of `u` has no flags but those of `fl` and no reserved bits. -/
def SlotOk (m : Phys) (root : Nat) (fl : BitVec 8) (u : Vpn) : Prop :=
  (leafOf m.word root u).flags ||| fl = fl ∧ (leafOf m.word root u).hi = 0

/-- When mapping the range does that. -/
structure RangeCond (m : Phys) (root : Nat) (l : List Nat) (vma size : Nat) (rwxug : BitVec 8) :
    Prop where
  tables : TablesBlank m root l vma size rwxug
  covers : Covers vma size
  request : requestOk rwxug
  slots : ∀ u, InRange vma size u → SlotOk m root (withADV rwxug) u

section Spec

variable {size : Nat}

theorem mapping_of_request {p : Pte} (hflags : p.flags = withADV rwxug) (hhi : p.hi = 0) :
    p.mapping = if requestOk rwxug then some (p.ppn, withADV rwxug) else none := by
  have hsame : ∀ f, p.has f = (Pte.leafPte 0 rwxug).has f := by
    intro f
    unfold Pte.has
    rw [hflags]
    rfl
  have hhi' : (Pte.leafPte 0 rwxug).hi = 0 := rfl
  unfold Pte.mapping requestOk Pte.valid Pte.leaf
  rw [hsame, hsame, hsame, hsame, hhi, hhi', hflags]

/-- What a leaf entry translates that has been mapped. -/
theorem mapping_mapped_iff (p : Pte) (page : Nat) :
    (mapped p page rwxug).mapping = some (BitVec.ofNat 44 (page / 2 ^ 12), withADV rwxug) ↔
      requestOk rwxug ∧ p.flags ||| withADV rwxug = withADV rwxug ∧ p.hi = 0 := by
  constructor
  · intro hmapping
    obtain ⟨hok, heq⟩ := Pte.mapping_eq_some.mp hmapping
    have hflags : p.flags ||| withADV rwxug = withADV rwxug := congrArg Prod.snd heq
    have hzero : p.hi = 0 := Pte.hi_of_valid (p := mapped p page rwxug) hok.1
    refine ⟨?_, hflags, hzero⟩
    rw [mapping_of_request (p := mapped p page rwxug) hflags hzero] at hmapping
    by_contra hreq
    rw [if_neg hreq] at hmapping
    cases hmapping
  · rintro ⟨hreq, hflags, hzero⟩
    rw [mapping_of_request (p := mapped p page rwxug) hflags hzero, if_pos hreq]
    rfl

/-- What mapping the pages `vs` has done: `fs` are the pages with those that they are mapped to. -/
structure Maps (m m' : Phys) (root : Nat) (l k : List Nat) (vs : List Vpn) (fs : List (Vpn × Nat))
    (rwxug : BitVec 8) : Prop where
  pages : fs.map Prod.fst = vs
  walk : ∀ f ∈ fs, hwWalk m'.word root f.1 = (mapped (leafOf m.word root f.1) f.2 rwxug).mapping
  others : ∀ u ∉ vs, hwWalk m'.word root u = hwWalk m.word root u
  fresh : ∀ f ∈ fs, f.2 ∈ l ∧ f.2 ∉ k
  distinct : (fs.map Prod.snd).Nodup

theorem Laid.maps {vs : List Vpn} (h : Laid base root l m m' ((m.layout root l).mapPages rwxug vs))
    (halive : ((m.layout root l).mapPages rwxug vs).alive = true) (hvs : vs.Nodup)
    (huser : ∀ u ∈ vs, u.i2 = 3 ∧ u.i1.val ≤ 128) :
    ∃ fs, Maps m m' root l ((m.layout root l).mapPages rwxug vs).free vs fs rwxug := by
  obtain ⟨fs, htaken, hfst, hleaf⟩ := Layout.taken_mapPages halive hvs
  have htaken : ((m.layout root l).mapPages rwxug vs).taken = fs := htaken
  have hnodup := h.split.nodup_iff.mpr h.pool₀.nodup
  have hsplit := h.split
  unfold Layout.Splits at hsplit
  rw [htaken] at hnodup hsplit
  obtain ⟨hleft, -, hdisjoint⟩ := List.nodup_append'.mp hnodup
  refine ⟨fs, hfst, fun f hf => ?_, fun u hu => ?_, fun f hf => ⟨?_, ?_⟩,
    (List.nodup_append'.mp hleft).1⟩
  · obtain ⟨h2, h1⟩ := huser f.1 (hfst ▸ List.mem_map_of_mem hf)
    rw [h.hwWalk_eq h2 h1, (hleaf f hf).2]
    rfl
  · by_cases hin : u.i2 = 3 ∧ u.i1.val ≤ 128
    · rw [h.hwWalk_eq hin.1 hin.2, Layout.leaf_mapPages_of_notMem hu,
        h.space₀.hwWalk_leafOf hin.1 hin.2]
      rfl
    · exact h.other u hin
  · exact hsplit.subset (List.mem_append_left _ (List.mem_append_left _ (List.mem_map_of_mem hf)))
  · exact hdisjoint (List.mem_append_left _ (List.mem_map_of_mem hf))

theorem rangeMapped_iff {k : List Nat} {fs : List (Vpn × Nat)} (hpool : Pool base m l)
    (hend : vma + size ≤ USER_END)
    (hused : ∀ u p, hwWalk m.word root u = some p → p.1.toNat * PAGE_SIZE ∉ l)
    (htables : TablesBlank m root l vma size rwxug)
    (h : Maps m m' root l k (reached (pageCount size) vma) fs rwxug) :
    RangeMapped m m' root vma size l k (withADV rwxug) ↔
      size = 0 ∨ RangeCond m root l vma size rwxug := by
  have hmem : ∀ {u}, u ∈ reached (pageCount size) vma → ∃ f ∈ fs, f.1 = u := fun hu =>
    List.mem_map.mp (h.pages ▸ hu)
  constructor
  · intro hmapped
    refine or_iff_not_imp_left.mpr fun hsize => ?_
    -- a page that the loop misses keeps what it had, which is no page of `l`
    have hcovers : Covers vma size := by
      by_contra hcovers
      have hlast := (last_mem_reached_iff hend hsize).not.mpr hcovers
      obtain ⟨page, hpage, -, hwalk⟩ :=
        hmapped.fresh _ ((inRange_iff hend).mpr (Or.inr ⟨hsize, rfl⟩))
      rw [h.others _ hlast] at hwalk
      refine hused _ _ hwalk ?_
      show (BitVec.ofNat 44 (page / 2 ^ 12)).toNat * PAGE_SIZE ∈ l
      rw [(hpool.page page hpage).addr_ppn]
      exact hpage
    have hfacts : ∀ u, InRange vma size u → requestOk rwxug ∧ SlotOk m root (withADV rwxug) u := by
      intro u hu
      obtain ⟨f, hf, rfl⟩ := hmem ((hcovers.inRange_iff hend).mp hu)
      obtain ⟨page, hpage, -, hwalk⟩ := hmapped.fresh _ hu
      rw [h.walk f hf] at hwalk
      refine (mapping_mapped_iff _ f.2).mp ?_
      have heq : BitVec.ofNat 44 (f.2 / 2 ^ 12) = BitVec.ofNat 44 (page / 2 ^ 12) :=
        congrArg Prod.fst (Pte.mapping_eq_some.mp hwalk).2
      rw [hwalk, heq]
    have hlast : InRange vma size (vpnOf (vma + size - 1)) :=
      (inRange_iff hend).mpr (Or.inr ⟨hsize, rfl⟩)
    exact ⟨htables, hcovers, (hfacts _ hlast).1, fun u hu => (hfacts u hu).2⟩
  · rintro (rfl | ⟨-, hcovers, hreq, hslots⟩)
    · have hnone : ∀ u, ¬InRange vma 0 u := by
        rintro u ⟨x, hx, hlt, -⟩
        omega
      refine ⟨fun u hu => absurd hu (hnone u), fun u _ hu => absurd hu (hnone u), fun u _ => ?_⟩
      have hzero : pageCount 0 = 0 := by decide +kernel
      refine h.others u ?_
      rw [hzero]
      exact List.not_mem_nil
    · have hwalk : ∀ f ∈ fs,
          hwWalk m'.word root f.1 = some (BitVec.ofNat 44 (f.2 / 2 ^ 12), withADV rwxug) := by
        intro f hf
        have hin : InRange vma size f.1 :=
          (hcovers.inRange_iff hend).mpr (h.pages ▸ List.mem_map_of_mem hf)
        rw [h.walk f hf]
        exact (mapping_mapped_iff _ f.2).mpr ⟨hreq, hslots _ hin⟩
      refine ⟨?_, ?_, ?_⟩
      · intro u hu
        obtain ⟨f, hf, rfl⟩ := hmem ((hcovers.inRange_iff hend).mp hu)
        exact ⟨f.2, (h.fresh f hf).1, (h.fresh f hf).2, hwalk f hf⟩
      · intro u u' hu hu' heq
        obtain ⟨f, hf, rfl⟩ := hmem ((hcovers.inRange_iff hend).mp hu)
        obtain ⟨f', hf', rfl⟩ := hmem ((hcovers.inRange_iff hend).mp hu')
        rw [hwalk f hf, hwalk f' hf'] at heq
        have hpage := hpool.ppn_inj (h.fresh f hf).1 (h.fresh f' hf').1
          (congrArg Prod.fst (Option.some.inj heq))
        rw [List.inj_on_of_nodup_map h.distinct hf hf' hpage]
      · intro u hu
        exact h.others u fun hin => hu ((hcovers.inRange_iff hend).mpr hin)

theorem rangeFlagged_iff {free : List Nat} (hs : Space m.word root free)
    (hend : vma + size ≤ USER_END)
    (h : Reflags m m' root (reached (pageCount size) vma) fl) :
    RangeFlagged m m' root vma size fl ↔
      size = 0 ∨ Covers vma size ∨
        ∀ p, leafEntry m.word root (vpnOf (vma + size - 1)) = some p → p.flags = fl := by
  have hlastIn : size ≠ 0 → InRange vma size (vpnOf (vma + size - 1)) := fun hsize =>
    (inRange_iff hend).mpr (Or.inr ⟨hsize, rfl⟩)
  constructor
  · intro hflagged
    refine or_iff_not_imp_left.mpr fun hsize => or_iff_not_imp_left.mpr fun hcovers p hp => ?_
    have hlast := (last_mem_reached_iff hend hsize).not.mpr hcovers
    have hnew := hflagged.flags _ p (hlastIn hsize) hp
    rw [h.leafEntry_of_notMem hs hlast, hp] at hnew
    exact congrArg Pte.flags (Option.some.inj hnew)
  · intro hcond
    have hout : ∀ u, ¬InRange vma size u → u ∉ reached (pageCount size) vma := fun u hu hin =>
      hu ((inRange_iff hend).mpr (Or.inl hin))
    refine ⟨fun u p hu hp => ?_, fun u hu => h.leafEntry_of_notMem hs (hout u hu),
      fun u hu => h.hwWalk_of_notMem hs (hout u hu)⟩
    by_cases hin : u ∈ reached (pageCount size) vma
    · exact h.leaf u hin p hp
    -- the last page, which the loop has missed
    · obtain ⟨hsize, rfl⟩ := ((inRange_iff hend).mp hu).resolve_left hin
      have hcovers := (last_mem_reached_iff hend hsize).not.mp hin
      have hflags := (hcond.resolve_left hsize).resolve_left hcovers p hp
      rw [h.leafEntry_of_notMem hs hin, hp, ← hflags]

end Spec

/-- Three free pages for each page are enough for the layout. -/
theorem alive_mapPages {vs : List Vpn} (halive : A.alive = true) (hlen : 3 * vs.length ≤ A.free.length) :
    (A.mapPages rwxug vs).alive = true := by
  induction vs generalizing A with
  | nil => exact halive
  | cons v vs ih =>
    rw [List.length_cons] at hlen
    have hneeds : A.needs v ≤ 2 := by
      unfold Layout.needs
      split
      · split
        · decide
        · decide
      · exact Nat.le_refl 2
    refine ih ?_ ?_
    · exact (Bool.and_eq_true _ _).mpr ⟨halive, decide_eq_true (by omega)⟩
    · show 3 * vs.length ≤ (A.free.tail.drop (A.needs v)).length
      rw [List.length_drop, List.length_tail]
      omega

/-- **Ranges of pages.** `memory_alloc_and_map_range` maps what it is for if the range is empty or
`RangeCond` holds: the free pages that become tables are blank, the rounded size covers the range from
the beginning of its first page on, the request is for a leaf, and the leaf entries have no other
flags; and only if, when these pages are blank. On a mapped range `memory_set_range_flags` changes
what it is for if and only if the range is empty or covered, or its last page has the flags
already. -/
theorem range_operations_iff (rwxug : BitVec 8) (size : Nat) (hpool : Pool base m l)
    (hspace : Space m.word root l)
    (hused : ∀ u p, hwWalk m.word root u = some p → p.1.toNat * PAGE_SIZE ∉ l)
    (hstart : USER_START ≤ vma) (hend : vma + size ≤ USER_END) :
    (TablesBlank m root l vma size rwxug → 3 * pageCount size ≤ l.length →
      ∃ m', memoryAllocAndMapRange root vma size rwxug m = some m') ∧
    (∀ m', memoryAllocAndMapRange root vma size rwxug m = some m' →
      (size = 0 ∨ RangeCond m root l vma size rwxug →
        ∃ k, Pool base m' k ∧ RangeMapped m m' root vma size l k (withADV rwxug)) ∧
      (TablesBlank m root l vma size rwxug →
        (∃ k, Pool base m' k ∧ RangeMapped m m' root vma size l k (withADV rwxug)) →
          size = 0 ∨ RangeCond m root l vma size rwxug)) ∧
    ((∀ u, InRange vma size u → (leafEntry m.word root u).isSome) →
      ∃ m', memorySetRangeFlags root vma size rwxug m = some m' ∧
        (RangeFlagged m m' root vma size (withADV rwxug) ↔
          size = 0 ∨ Covers vma size ∨
            ∀ p, leafEntry m.word root (vpnOf (vma + size - 1)) = some p →
              p.flags = withADV rwxug)) := by
  have hlaid := laid_layout hpool hspace
  have hlays : TablesBlank m root l vma size rwxug → Lays base root l m
      ((m.layout root l).mapPages rwxug (reached (pageCount size) vma))
      (memoryAllocAndMapRange root vma size rwxug m) := fun htables =>
    hlaid.map_range rwxug rfl hstart hend htables
  refine ⟨fun htables hlen => ?_, fun m' hm => ?_, fun hleaf => ?_⟩
  · have halive : ((m.layout root l).mapPages rwxug (reached (pageCount size) vma)).alive = true := by
      refine alive_mapPages rfl ?_
      rw [reached, List.length_map, length_pagesFrom]
      exact hlen
    cases hm : memoryAllocAndMapRange root vma size rwxug m with
    | some m' => exact ⟨m', rfl⟩
    | none =>
      have hdead := hlays htables
      rw [hm] at hdead
      exact absurd halive (Bool.eq_false_iff.mp hdead)
  · -- what the call has done, for blank tables
    have hmaps : TablesBlank m root l vma size rwxug → ∃ k, Pool base m' k ∧
        (RangeMapped m m' root vma size l k (withADV rwxug) ↔
          size = 0 ∨ RangeCond m root l vma size rwxug) := by
      intro htables
      have hthis := hlays htables
      rw [hm] at hthis
      obtain ⟨fs, hfs⟩ := hthis.2.maps hthis.1 (nodup_reached hend) fun u hu =>
        reached_user hstart hend hu
      exact ⟨_, hthis.2.pool, rangeMapped_iff hpool hend hused htables hfs⟩
    constructor
    · intro hcond
      have htables : TablesBlank m root l vma size rwxug := by
        rcases hcond with rfl | hcond
        · have hzero : pageCount 0 = 0 := by decide +kernel
          unfold TablesBlank
          rw [hzero]
          exact nofun
        · exact hcond.tables
      obtain ⟨k, hk, hiff⟩ := hmaps htables
      exact ⟨k, hk, hiff.mpr hcond⟩
    · rintro htables ⟨k', hk', hmapped⟩
      obtain ⟨k, hk, hiff⟩ := hmaps htables
      obtain rfl : k' = k := hk'.free.unique hk.free
      exact hiff.mp hmapped
  · obtain ⟨m', hm, hflags⟩ := setFlags_pages (n := pageCount size) false rwxug hspace
      fun u hu => hleaf u ((inRange_iff hend).mpr (Or.inl hu))
    exact ⟨m', hm, rangeFlagged_iff hspace hend hflags⟩

theorem threePages_tables : TablesBlank (threePages 0) 0x80701000
    [0x80702000, 0x80703000, 0x80704000] USER_START 4096 (PTE_R ||| PTE_W) := by
  have htables : (((threePages 0).layout 0x80701000 [0x80702000, 0x80703000, 0x80704000]).mapPages
      (PTE_R ||| PTE_W) (reached (pageCount 4096) USER_START)).tables = [0x80703000, 0x80704000] := by decide +kernel
  intro p hp
  rw [htables] at hp
  exact threePages_blank p (List.mem_cons_of_mem _ hp)

theorem threePages_walk (w : BitVec 64) (u : Vpn) : hwWalk (threePages w).word 0x80701000 u = none :=
  hwWalk_of_not_valid (Pte.valid_of_not_V (threePages_root w u.i2))

theorem threePages_leafOf (u : Vpn) : leafOf (threePages 0).word 0x80701000 u = Pte.empty := by
  refine leafOf_of_none ?_
  unfold leafEntry tableAt
  dsimp only
  rw [Pte.child_of_not_V (threePages_root 0 u.i2)]
  rfl

/-- The three pages are enough for one page at the beginning of the user range. -/
theorem range_operations_first :
    ∃ m' k, memoryAllocAndMapRange 0x80701000 USER_START 4096 (PTE_R ||| PTE_W) (threePages 0) =
        some m' ∧
      RangeMapped (threePages 0) m' 0x80701000 USER_START 4096
        [0x80702000, 0x80703000, 0x80704000] k (withADV (PTE_R ||| PTE_W)) := by
  obtain ⟨hreturn, hmaps, -⟩ := range_operations_iff (PTE_R ||| PTE_W) 4096
    (threePages_pool 0) (threePages_space 0) (fun u p hwalk => by
      rw [threePages_walk] at hwalk
      cases hwalk) (Nat.le_refl USER_START) (by decide)
  obtain ⟨m', hm⟩ := hreturn threePages_tables (by decide +kernel)
  obtain ⟨k, -, hmapped⟩ := (hmaps m' hm).1 (Or.inr ⟨threePages_tables, by decide +kernel, by decide,
    fun u _ => by
      unfold SlotOk
      rw [threePages_leafOf]
      exact ⟨BitVec.zero_or, rfl⟩⟩)
  exact ⟨m', k, hm, hmapped⟩

/-- A page that begins one byte after the beginning of a page: the second page of the range is not
mapped. All free pages are blank. -/
theorem range_misses_last_page :
    Pool 0x80702000 (threePages 0) [0x80702000, 0x80703000, 0x80704000] ∧
      Space (threePages 0).word 0x80701000 [0x80702000, 0x80703000, 0x80704000] ∧
      (∀ p ∈ [0x80702000, 0x80703000, 0x80704000], Blank (threePages 0).word p) ∧
      USER_START ≤ USER_START + 1 ∧ USER_START + 1 + 4096 ≤ USER_END ∧
      InRange (USER_START + 1) 4096 (vpnOf (USER_START + 4096)) ∧
      (memoryAllocAndMapRange 0x80701000 (USER_START + 1) 4096 (PTE_R ||| PTE_W)
        (threePages 0)).map (fun m => hwWalk m.word 0x80701000 (vpnOf (USER_START + 4096))) =
          some none :=
  ⟨threePages_pool 0, threePages_space 0, threePages_blank, by decide, by decide,
    ⟨USER_START + 4096, by decide, by decide, rfl⟩, by decide +kernel⟩

end Phys

end RiscvKernel
