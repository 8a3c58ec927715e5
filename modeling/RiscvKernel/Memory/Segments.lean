import RiscvKernel.Memory.Ranges

/-!
# Filling a range of pages

What loading a segment does to memory: its pages are mapped, bytes are stored through their virtual
addresses, and the pages get their flags.

* `fillSegment`: the three steps, and `Layout.segment`: the same on layouts.
* `Laid.segment`: memory follows the layout, if the pages that become tables were blank.
* `Layout.Filled`: the effect of a segment. Its pages are new ones, and where its bytes do not reach
  they hold what they held before.
-/

namespace RiscvKernel

open Lib

namespace Phys

/-- A segment of an executable: its pages are mapped for the kernel, filled with `bs` and given their
flags. -/
def fillSegment (root vaddr size : Nat) (bs : List UInt8) (rwxug : BitVec 8) (m : Phys) :
    Option Phys :=
  match m.memoryAllocAndMapRange root vaddr size (PTE_R ||| PTE_W) with
  | none => none
  | some m =>
    match m.storeBytes root vaddr bs with
    | none => none
    | some m => m.memorySetRangeFlags root vaddr size rwxug

end Phys

namespace Layout

variable {A : Layout} {l : List Nat} {va pa : Nat} {bs : List UInt8} {vs : List Vpn}
  {rwxug : BitVec 8}

/-- The kernel stores bytes from `va` on; a page fault of the kernel panics. -/
def stores (va : Nat) : List UInt8 → Layout → Layout
  | [], A => A
  | b :: bs, A =>
    match A.access va PTE_W with
    | none => { A with alive := false }
    | some pa => (A.put pa b).stores (va + 1) bs

def segment (vaddr size : Nat) (bs : List UInt8) (rwxug : BitVec 8) (A : Layout) : Layout :=
  ((A.mapPages (PTE_R ||| PTE_W) (Phys.reached (Phys.pageCount size) vaddr)).stores vaddr bs).flagPages
    rwxug (Phys.reached (Phys.pageCount size) vaddr)

/-- Stores change nothing but what has been stored. -/
theorem stores_eq : A.stores va bs =
    { A with wrote := (A.stores va bs).wrote, alive := (A.stores va bs).alive } := by
  induction bs generalizing va A with
  | nil => rfl
  | cons b bs ih =>
    unfold stores
    cases A.access va PTE_W with
    | none => rfl
    | some pa =>
      dsimp only
      rw [ih]
      rfl

theorem alive_of_stores (h : (A.stores va bs).alive = true) : A.alive = true := by
  induction bs generalizing va A with
  | nil => exact h
  | cons b bs ih =>
    unfold stores at h
    cases hacc : A.access va PTE_W with
    | none =>
      rw [hacc] at h
      cases h
    | some pa =>
      rw [hacc] at h
      have halive : (A.put pa b).alive = true := ih h
      exact halive

theorem Splits.mapPages (h : A.Splits l) (vs : List Vpn) (rwxug : BitVec 8) :
    (A.mapPages rwxug vs).Splits l := by
  induction vs generalizing A with
  | nil => exact h
  | cons v vs ih => exact ih (h.map v rwxug)

/-! ## What stores leave -/

theorem access_put (b : UInt8) (x : Nat) (need : BitVec 8) :
    (A.put pa b).access x need = A.access x need := rfl

/-- All bytes have a place. -/
theorem access_of_stores (h : (A.stores va bs).alive = true) {i : Nat} (hi : i < bs.length) :
    ∃ pa, A.access (va + i) PTE_W = some pa := by
  induction bs generalizing va A i with
  | nil => cases hi
  | cons b bs ih =>
    unfold stores at h
    cases hacc : A.access va PTE_W with
    | none =>
      rw [hacc] at h
      cases h
    | some pa =>
      rw [hacc] at h
      cases i with
      | zero => exact ⟨pa, hacc⟩
      | succ i =>
        obtain ⟨pa', hpa'⟩ := ih h (Nat.lt_of_succ_lt_succ hi)
        rw [access_put, Nat.add_assoc, Nat.add_comm 1 i] at hpa'
        exact ⟨pa', hpa'⟩

/-- A byte that no store goes to is as it was. -/
theorem wrote_stores_of_ne (h : ∀ i < bs.length, A.access (va + i) PTE_W ≠ some pa) :
    (A.stores va bs).wrote pa = A.wrote pa := by
  induction bs generalizing va A with
  | nil => rfl
  | cons b bs ih =>
    unfold stores
    cases hacc : A.access va PTE_W with
    | none => rfl
    | some pa' =>
      dsimp only
      have hne : pa ≠ pa' := by
        rintro rfl
        exact h 0 (Nat.succ_pos _) hacc
      rw [ih]
      · exact Function.update_of_ne hne ..
      · intro i hi
        rw [access_put, Nat.add_assoc, Nat.add_comm 1 i]
        exact h (i + 1) (Nat.succ_lt_succ hi)

/-- The bytes go to different places. Induction on the bytes; a store does not change where those
after it go. -/
theorem wrote_stores {i : Nat} {b : UInt8} (h : (A.stores va bs).alive = true)
    (hinj : ∀ i < bs.length, ∀ j < bs.length, ∀ pa, A.access (va + i) PTE_W = some pa →
      A.access (va + j) PTE_W = some pa → i = j)
    (hb : bs[i]? = some b) (hpa : A.access (va + i) PTE_W = some pa) :
    (A.stores va bs).wrote pa = some b := by
  induction bs generalizing va A i with
  | nil => cases hb
  | cons c bs ih =>
    have hshift : ∀ j, va + 1 + j = va + (j + 1) := fun j => by omega
    unfold stores at h ⊢
    cases hacc : A.access va PTE_W with
    | none =>
      rw [hacc] at h
      cases h
    | some pa' =>
      rw [hacc] at h
      dsimp only
      cases i with
      | zero =>
        obtain rfl := Option.some.inj hb
        obtain rfl : pa' = pa := Option.some.inj (hacc.symm.trans hpa)
        -- the bytes after it go elsewhere
        rw [wrote_stores_of_ne]
        · exact Function.update_self ..
        · intro j hj hsome
          rw [access_put, hshift] at hsome
          cases hinj 0 (Nat.succ_pos _) (j + 1) (Nat.succ_lt_succ hj) pa' hacc hsome
      | succ i =>
        refine ih h (fun i hi j hj pa hi' hj' => ?_) hb ?_
        · rw [access_put, hshift] at hi' hj'
          exact Nat.succ.inj (hinj (i + 1) (Nat.succ_lt_succ hi) (j + 1) (Nat.succ_lt_succ hj) pa hi' hj')
        · rw [access_put, hshift]
          exact hpa

end Layout

namespace Phys

variable {base root va : Nat} {o m m' : Phys} {l : List Nat} {A : Layout} {rwxug : BitVec 8}

/-! ## Memory follows the layout -/

theorem Apart.mapPages {vs : List Vpn} (h : Apart o root A) (hp : Pool base o l)
    (hs : Space o.word root l) (hsplit : A.Splits l) (halive : (A.mapPages rwxug vs).alive = true) :
    Apart o root (A.mapPages rwxug vs) := by
  induction vs generalizing A with
  | nil => exact h
  | cons v vs ih =>
    have hroom : A.needs v < A.free.length :=
      of_decide_eq_true ((Bool.and_eq_true _ _).mp
        (Layout.alive_of_mapPages (A := A.map v rwxug) halive)).2
    exact ih (h.map hp hs hsplit hroom) (hsplit.map v rwxug) halive

/-- Flags of pages that are mapped. -/
theorem Apart.flagPages {vs : List Vpn} (h : Apart o root A) (hvs : vs.Nodup)
    (hV : ∀ u ∈ vs, (A.leaf u).has PTE_V) : Apart o root (A.flagPages rwxug vs) := by
  intro x hx hx' hu
  rw [Layout.flagPages_eq]
  dsimp only
  rw [Layout.leaf_flagPages hvs] at hu ⊢
  split at hu
  · next hmem =>
    rw [if_pos hmem]
    exact h x hx hx' (hV _ hmem)
  · next hmem =>
    rw [if_neg hmem]
    exact h x hx hx' hu

theorem Laid.stores {bs : List UInt8} (h : Laid base root l o m A) (halive : A.alive = true)
    (hapart : Apart o root A) (hstart : USER_START ≤ va) (hend : va + bs.length ≤ USER_END) :
    Lays base root l o (A.stores va bs) (m.storeBytes root va bs) := by
  induction bs generalizing va m A with
  | nil => exact ⟨halive, h⟩
  | cons b bs ih =>
    have huser : USER_END < 2 ^ 38 := by decide
    rw [List.length_cons] at hend
    have hnext : u64 (va + 1 : Nat) = va + 1 := u64_eq rfl (by omega)
    unfold storeBytes storeByte Layout.stores
    rw [hnext, h.access_eq hstart (by omega)]
    cases hacc : A.access va PTE_W with
    | none => rfl
    | some pa =>
      obtain ⟨htable, hfree⟩ := hapart.of_access h hstart (by omega) hacc
      exact ih (h.put b htable hfree) halive hapart (by omega) (by omega)

theorem has_V_withADV (rwxug : BitVec 8) : (withADV rwxug &&& PTE_V != 0) = true := by
  have hbit : (withADV rwxug &&& PTE_V).getLsbD 0 = true := by
    simp [withADV, PTE_A, PTE_D, PTE_V]
  refine bne_iff_ne.mpr fun hzero => ?_
  rw [hzero] at hbit
  cases hbit

theorem has_V_mapped (p : Pte) (page : Nat) (rwxug : BitVec 8) : (mapped p page rwxug).has PTE_V := by
  have hassoc : p.flags ||| withADV rwxug = withADV (p.flags ||| rwxug) := by
    unfold withADV
    rw [← BitVec.or_assoc, ← BitVec.or_assoc, ← BitVec.or_assoc]
  unfold mapped Pte.has
  dsimp only
  rw [hassoc]
  exact has_V_withADV _

/-- A page that `memory_handle_page_fault` has mapped is readable. -/
theorem has_R_mapped (p : Pte) (page : Nat) :
    (mapped p page (PTE_R ||| PTE_W ||| PTE_U)).has PTE_R := by
  have hbit : ((p.flags ||| withADV (PTE_R ||| PTE_W ||| PTE_U)) &&& PTE_R).getLsbD 1 = true := by
    simp [withADV, PTE_A, PTE_D, PTE_V, PTE_R, PTE_W, PTE_U]
  refine bne_iff_ne.mpr fun hzero => ?_
  have hzero : (p.flags ||| withADV (PTE_R ||| PTE_W ||| PTE_U)) &&& PTE_R = 0 := hzero
  rw [hzero] at hbit
  cases hbit

/-- The pages that have been mapped have `PTE_V`. -/
theorem has_V_mapPages {vs : List Vpn} (halive : (A.mapPages rwxug vs).alive = true) (hvs : vs.Nodup)
    {u : Vpn} (hu : u ∈ vs) : ((A.mapPages rwxug vs).leaf u).has PTE_V := by
  obtain ⟨fs, -, hfst, hleaf⟩ := Layout.taken_mapPages halive hvs
  obtain ⟨f, hf, rfl⟩ := List.mem_map.mp (hfst ▸ hu)
  rw [(hleaf f hf).2]
  exact has_V_mapped _ _ _

/-- **A segment** follows the layout. -/
theorem Laid.segment {vaddr size : Nat} {bs : List UInt8} (rwxug : BitVec 8)
    (h : Laid base root l o m A) (halive : A.alive = true) (hapart : Apart o root A)
    (hstart : USER_START ≤ vaddr) (hend : vaddr + size ≤ USER_END) (hbs : bs.length ≤ size)
    (hblank : ∀ p ∈ (A.segment vaddr size bs rwxug).tables, Blank o.word p) :
    Lays base root l o (A.segment vaddr size bs rwxug) (m.fillSegment root vaddr size bs rwxug) ∧
      ((A.segment vaddr size bs rwxug).alive = true → Apart o root (A.segment vaddr size bs rwxug)) := by
  unfold Layout.segment at *
  generalize hvs : reached (pageCount size) vaddr = vs at *
  have hnodup : vs.Nodup := hvs ▸ nodup_reached hend
  have huser : ∀ u ∈ vs, u.i2 = 3 ∧ u.i1.val ≤ 128 := fun u hu =>
    reached_user hstart hend (hvs ▸ hu)
  have htables : ((A.mapPages (PTE_R ||| PTE_W) vs).stores vaddr bs).tables =
      (A.mapPages (PTE_R ||| PTE_W) vs).tables := by
    rw [Layout.stores_eq]
  rw [Layout.flagPages_eq] at hblank
  dsimp only at hblank
  rw [htables] at hblank
  have hmapped := h.map_range (PTE_R ||| PTE_W) halive hstart hend
    (by rw [hvs]; exact hblank)
  rw [hvs] at hmapped
  have hflagAlive : (((A.mapPages (PTE_R ||| PTE_W) vs).stores vaddr bs).flagPages rwxug vs).alive =
      ((A.mapPages (PTE_R ||| PTE_W) vs).stores vaddr bs).alive := by
    rw [Layout.flagPages_eq]
  have hapart₁ : ((A.mapPages (PTE_R ||| PTE_W) vs).stores vaddr bs).alive = true →
      Apart o root (A.mapPages (PTE_R ||| PTE_W) vs) := fun hlive =>
    hapart.mapPages h.pool₀ h.space₀ h.split (Layout.alive_of_stores hlive)
  have hV : ((A.mapPages (PTE_R ||| PTE_W) vs).stores vaddr bs).alive = true →
      ∀ u ∈ vs, (((A.mapPages (PTE_R ||| PTE_W) vs).stores vaddr bs).leaf u).has PTE_V := by
    intro hlive u hu
    rw [Layout.stores_eq]
    exact has_V_mapPages (Layout.alive_of_stores hlive) hnodup hu
  have hapart₂ : ((A.mapPages (PTE_R ||| PTE_W) vs).stores vaddr bs).alive = true →
      Apart o root ((A.mapPages (PTE_R ||| PTE_W) vs).stores vaddr bs) := by
    intro hlive
    have hthis := hapart₁ hlive
    rw [Layout.stores_eq]
    exact hthis
  refine ⟨?_, fun hlive => ?_⟩
  · unfold fillSegment
    cases hm : m.memoryAllocAndMapRange root vaddr size (PTE_R ||| PTE_W) with
    | none =>
      rw [hm] at hmapped
      show (Layout.flagPages _ _ _).alive = false
      rw [hflagAlive]
      refine Bool.eq_false_iff.mpr fun hlive => ?_
      exact absurd (Layout.alive_of_stores hlive) (Bool.eq_false_iff.mp hmapped)
    | some m₁ =>
      rw [hm] at hmapped
      obtain ⟨halive₁, hlaid₁⟩ := hmapped
      have hstored : Lays _ _ _ _ _ (m₁.storeBytes root vaddr bs) := hlaid₁.stores halive₁
        (hapart.mapPages h.pool₀ h.space₀ h.split halive₁) hstart (by omega)
      dsimp only
      cases hm₂ : m₁.storeBytes root vaddr bs with
      | none =>
        rw [hm₂] at hstored
        show (Layout.flagPages _ _ _).alive = false
        rw [hflagAlive]
        exact hstored
      | some m₂ =>
        rw [hm₂] at hstored
        obtain ⟨halive₂, hlaid₂⟩ := hstored
        have hV₂ := hV halive₂
        -- the pages have leaf entries, whose flags are replaced
        have hleaf : ∀ u ∈ reached (pageCount size) vaddr, (leafEntry m₂.word root u).isSome := by
          intro u hu
          have hhas := hV₂ u (hvs ▸ hu)
          rw [(hlaid₂.leaf u).has_eq] at hhas
          cases hp : leafEntry m₂.word root u with
          | none =>
            rw [leafOf_of_none hp] at hhas
            exact absurd hhas (by decide)
          | some p => rfl
        obtain ⟨m₃, hm₃, hflags⟩ :=
          setFlags_pages (n := pageCount size) false rwxug hlaid₂.space hleaf
        have hm₃ : m₂.memorySetRangeFlags root vaddr size rwxug = some m₃ := hm₃
        rw [hvs] at hflags
        dsimp only
        rw [hm₃]
        exact ⟨hflagAlive.trans halive₂, hlaid₂.reflag hflags hnodup huser hV₂⟩
  · rw [hflagAlive] at hlive
    exact (hapart₂ hlive).flagPages hnodup (hV hlive)

end Phys

/-! ## What a segment leaves -/

namespace Layout

variable {A B : Layout} {l : List Nat} {va x y pa base : Nat} {o : Phys} {bs : List UInt8}
  {vs : List Vpn} {rwxug need : BitVec 8} {u v : Vpn}

/-- The pages of the user range have been taken from `l`, and nobody has stored to a free page. -/
structure Own (l : List Nat) (A : Layout) : Prop where
  split : A.Splits l
  page : ∀ x, USER_START ≤ x ∧ x ≤ USER_END → (A.leaf (vpnOf x)).has PTE_V →
    (vpnOf x, (A.leaf (vpnOf x)).addr) ∈ A.taken
  clean : ∀ pa, pa - pa % 2 ^ 12 ∈ A.free → A.wrote pa = none

section Own

variable (h : Own l A) (hp : Phys.Pool base o l)

include h hp

theorem Own.taken_mem {f : Vpn × Nat} (hf : f ∈ A.taken) : f.2 ∈ l ∧ f.2 ∉ A.free := by
  have hmem : f.2 ∈ A.taken.map Prod.snd := List.mem_map_of_mem hf
  have hsplit := h.split
  unfold Splits at hsplit
  have hnodup := hsplit.nodup_iff.mpr hp.nodup
  refine ⟨hsplit.subset (List.mem_append_left _ (List.mem_append_left _ hmem)), fun hfree => ?_⟩
  exact (List.nodup_append'.mp hnodup).2.2 (List.mem_append_left _ hmem) hfree

/-- A page has been taken for one virtual page. -/
theorem Own.taken_inj {f g : Vpn × Nat} (hf : f ∈ A.taken) (hg : g ∈ A.taken) (heq : f.2 = g.2) :
    f = g := by
  have hsplit := h.split
  unfold Splits at hsplit
  have hnodup := hsplit.nodup_iff.mpr hp.nodup
  exact List.inj_on_of_nodup_map (List.nodup_append'.mp (List.nodup_append'.mp hnodup).1).1 hf hg heq

/-- Different virtual addresses are different bytes. -/
theorem Own.byte_inj (hx : USER_START ≤ x ∧ x ≤ USER_END) (hy : USER_START ≤ y ∧ y ≤ USER_END)
    (hxV : (A.leaf (vpnOf x)).has PTE_V) (hyV : (A.leaf (vpnOf y)).has PTE_V)
    (heq : (A.leaf (vpnOf x)).addr + x % PAGE_SIZE = (A.leaf (vpnOf y)).addr + y % PAGE_SIZE) :
    x = y := by
  have huser : USER_END < 2 ^ 38 := by decide
  have hxtaken := h.page x hx hxV
  have hytaken := h.page y hy hyV
  have hxaligned := (A.leaf (vpnOf x)).addr_mod
  have hyaligned := (A.leaf (vpnOf y)).addr_mod
  unfold PAGE_SIZE at heq
  have haddr : (A.leaf (vpnOf x)).addr = (A.leaf (vpnOf y)).addr := by omega
  have hsame : vpnOf x = vpnOf y := congrArg Prod.fst (h.taken_inj hp hxtaken hytaken haddr)
  rw [Phys.vpnOf_eq_iff (by omega) (by omega)] at hsame
  unfold PAGE_SIZE at hsame
  omega

theorem Own.map (hroom : A.needs v < A.free.length) : Own l (A.map v rwxug) := by
  obtain ⟨page, rest, hfree⟩ := List.exists_cons_of_length_pos (Nat.zero_lt_of_lt hroom)
  have hpage : page ∈ l := h.split.mem_of_free (hfree ▸ List.mem_cons_self)
  refine ⟨h.split.map v rwxug, fun x hx hV => ?_, fun pa hpa => h.clean pa ?_⟩
  · have hold := h.page x hx
    generalize vpnOf x = u at *
    show (u, _) ∈ A.taken ++ (A.free.take 1).map fun page => (v, page)
    rw [hfree]
    by_cases hu : u = v
    · subst hu
      have hleaf : (A.map u rwxug).leaf u = Phys.mapped (A.leaf u) page rwxug := by
        unfold Layout.map
        dsimp only
        rw [Function.update_self, hfree]
        rfl
      rw [hleaf, Phys.Pte.addr_mapped (hp.page page hpage)]
      exact List.mem_append_right _ List.mem_cons_self
    · rw [leaf_map_of_ne hu] at hV ⊢
      exact List.mem_append_left _ (hold hV)
  · exact List.mem_of_mem_tail (List.mem_of_mem_drop hpa)

theorem Own.mapPages (halive : (A.mapPages rwxug vs).alive = true) : Own l (A.mapPages rwxug vs) := by
  induction vs generalizing A with
  | nil => exact h
  | cons v vs ih =>
    have hroom : A.needs v < A.free.length :=
      of_decide_eq_true ((Bool.and_eq_true _ _).mp
        (alive_of_mapPages (A := A.map v rwxug) halive)).2
    exact ih (h.map hp hroom) halive

/-- A byte of a page after stores. -/
theorem Own.wrote_stores (halive : (A.stores va bs).alive = true) (hva : USER_START ≤ va)
    (hend : va + bs.length ≤ USER_END) (hx : USER_START ≤ x ∧ x ≤ USER_END)
    (hV : (A.leaf (vpnOf x)).has PTE_V) :
    (A.stores va bs).wrote ((A.leaf (vpnOf x)).addr + x % PAGE_SIZE) =
      if va ≤ x ∧ x < va + bs.length then bs[x - va]?
      else A.wrote ((A.leaf (vpnOf x)).addr + x % PAGE_SIZE) := by
  have hinj : ∀ i < bs.length, ∀ y, USER_START ≤ y ∧ y ≤ USER_END → (A.leaf (vpnOf y)).has PTE_V →
      A.access (va + i) PTE_W = some ((A.leaf (vpnOf y)).addr + y % PAGE_SIZE) → va + i = y := by
    intro i hi y hy hyV hacc
    obtain ⟨⟨hiV, -⟩, heq⟩ := access_eq_some hacc
    exact (h.byte_inj hp hy ⟨by omega, by omega⟩ hyV hiV heq).symm
  split
  · next hin =>
    have hlt : x - va < bs.length := by omega
    obtain ⟨pa, hpa⟩ := access_of_stores halive hlt
    have hback : va + (x - va) = x := by omega
    obtain ⟨-, heq⟩ := access_eq_some hpa
    rw [List.getElem?_eq_getElem hlt]
    refine Layout.wrote_stores halive (fun i hi j hj pa hi' hj' => ?_) (List.getElem?_eq_getElem hlt)
      (hpa.trans ?_)
    · obtain ⟨⟨hjV, -⟩, rfl⟩ := access_eq_some hj'
      have := hinj i hi (va + j) ⟨by omega, by omega⟩ hjV hi'
      omega
    · rw [heq, hback]
  · next hout =>
    refine wrote_stores_of_ne fun i hi hacc => hout ?_
    have := hinj i hi x hx hV hacc
    omega

theorem Own.stores (hva : USER_START ≤ va) (hend : va + bs.length ≤ USER_END) : Own l (A.stores va bs) := by
  have hclean : ∀ pa, pa - pa % 2 ^ 12 ∈ A.free → (A.stores va bs).wrote pa = none := by
    intro pa hpa
    rw [wrote_stores_of_ne]
    · exact h.clean pa hpa
    · -- a store goes to a page that has been taken
      intro i hi hacc
      obtain ⟨⟨hV, -⟩, rfl⟩ := access_eq_some hacc
      rw [Phys.page_of_byte] at hpa
      exact (h.taken_mem hp (h.page (va + i) ⟨by omega, by omega⟩ hV)).2 hpa
  rw [stores_eq]
  exact ⟨h.split, h.page, hclean⟩

end Own

theorem Own.flagPages (h : Own l A) (hvs : vs.Nodup) (hV : ∀ u ∈ vs, (A.leaf u).has PTE_V) :
    Own l (A.flagPages rwxug vs) := by
  rw [flagPages_eq]
  refine ⟨h.split, fun x hx hu => ?_, h.clean⟩
  dsimp only at hu ⊢
  rw [leaf_flagPages hvs] at hu ⊢
  split at hu
  · next hmem =>
    rw [if_pos hmem]
    exact h.page x hx (hV _ hmem)
  · next hmem =>
    rw [if_neg hmem]
    exact h.page x hx hu

/-- What a segment does: the pages `vs` are new ones with the flags `rwxug`, and the bytes `bs` are
behind the addresses from `va` on. The rest of the new pages holds what it held. -/
structure Filled (A B : Layout) (vs : List Vpn) (va : Nat) (bs : List UInt8) (rwxug : BitVec 8) :
    Prop where
  flags : ∀ u ∈ vs, (B.leaf u).flags = Phys.withADV rwxug
  others : ∀ u ∉ vs, B.leaf u = A.leaf u
  mapped : ∀ i < bs.length, (B.leaf (vpnOf (va + i))).has PTE_V ∧ (B.leaf (vpnOf (va + i))).hi = 0
  wrote : ∀ x, USER_START ≤ x ∧ x ≤ USER_END → (B.leaf (vpnOf x)).has PTE_V →
    B.wrote ((B.leaf (vpnOf x)).addr + x % PAGE_SIZE) =
      if va ≤ x ∧ x < va + bs.length then bs[x - va]?
      else if vpnOf x ∈ vs then none else A.wrote ((A.leaf (vpnOf x)).addr + x % PAGE_SIZE)

/-- **The effect of a segment** on a layout. -/
theorem Own.segment {size : Nat} (h : Own l A) (hp : Phys.Pool base o l) (hstart : USER_START ≤ va)
    (hend : va + size ≤ USER_END) (hbs : bs.length ≤ size)
    (halive : (A.segment va size bs rwxug).alive = true) :
    Own l (A.segment va size bs rwxug) ∧
      Filled A (A.segment va size bs rwxug) (Phys.reached (Phys.pageCount size) va) va bs rwxug := by
  unfold Layout.segment at *
  have hvs := Phys.nodup_reached hend
  generalize Phys.reached (Phys.pageCount size) va = vs at *
  generalize hB : A.mapPages (PTE_R ||| PTE_W) vs = B at *
  have halive : (B.stores va bs).alive = true := by
    rw [flagPages_eq] at halive
    exact halive
  have hmapped : B.alive = true := alive_of_stores halive
  obtain ⟨fs, -, hfst, hleaf⟩ := taken_mapPages (hB ▸ hmapped) hvs
  rw [hB] at hleaf
  have hown : Own l B := hB ▸ h.mapPages hp (hB ▸ hmapped)
  -- the pages `vs` have been free
  have hnew : ∀ u ∈ vs, (B.leaf u).has PTE_V ∧ (B.leaf u).addr ∈ A.free := by
    intro u hu
    obtain ⟨f, hf, rfl⟩ := List.mem_map.mp (hfst ▸ hu)
    obtain ⟨hfree, hthis⟩ := hleaf f hf
    rw [hthis, Phys.Pte.addr_mapped (hp.page _ (h.split.mem_of_free hfree))]
    exact ⟨Phys.has_V_mapped _ _ _, hfree⟩
  have hstored : Own l (B.stores va bs) := hown.stores hp hstart (by omega)
  have hsame : (B.stores va bs).leaf = B.leaf := by rw [stores_eq]
  have hend' : va + bs.length ≤ USER_END := by omega
  refine ⟨hstored.flagPages hvs fun u hu => by rw [hsame]; exact (hnew u hu).1, ?_⟩
  have hflag : ∀ u, (((B.stores va bs).flagPages rwxug vs).leaf u).addr = (B.leaf u).addr ∧
      ((((B.stores va bs).flagPages rwxug vs).leaf u).has PTE_V → (B.leaf u).has PTE_V) := by
    intro u
    rw [leaf_flagPages hvs, hsame]
    split
    · next hu => exact ⟨rfl, fun _ => (hnew u hu).1⟩
    · exact ⟨rfl, id⟩
  refine ⟨fun u hu => ?_, fun u hu => ?_, fun i hi => ?_, fun x hx hV => ?_⟩
  · rw [leaf_flagPages hvs, if_pos hu]
  · rw [leaf_flagPages hvs, if_neg hu, hsame, ← hB, leaf_mapPages_of_notMem hu]
  · obtain ⟨pa, hpa⟩ := access_of_stores halive hi
    obtain ⟨hok, -⟩ := access_eq_some hpa
    rw [leaf_flagPages hvs, hsame]
    split
    · exact ⟨Phys.has_V_withADV rwxug, hok.2⟩
    · exact hok
  · have hwrote : ((B.stores va bs).flagPages rwxug vs).wrote = (B.stores va bs).wrote := by
      rw [flagPages_eq]
    obtain ⟨haddr, hVB⟩ := hflag (vpnOf x)
    rw [hwrote, haddr, hown.wrote_stores hp halive hstart hend' hx (hVB hV)]
    split
    · rfl
    · split
      · next hu =>
        -- a new page: nobody has stored to it
        rw [← hB, wrote_mapPages]
        refine h.clean _ ?_
        rw [Phys.page_of_byte, hB]
        exact (hnew _ hu).2
      · next hu => rw [← hB, wrote_mapPages, leaf_mapPages_of_notMem hu]

end Layout

end RiscvKernel
