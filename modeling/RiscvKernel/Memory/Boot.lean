import RiscvKernel.Memory.Access

/-!
# The mapping at boot

The tables that `memory_init` sets up for the kernel: gigapages below RAM, single pages for the
megabytes that hold the kernel image, megapages for the rest of RAM. The sizes of the sections
and of RAM are parameters (`KernelLayout`).

* `mapLoop` is the loop that all five of them are, each with its table, step and flags.
* `translate_boot`: what an address is mapped to, for every address.
* `boot_mapping`: the mapping is the identity, text is not writable and the rest not executable,
  nothing is for the user, and there is nothing beyond RAM.
-/

namespace RiscvKernel

open Lib

/-- `GIGA_SIZE` -/
def GIGA_SIZE : Nat := 1024 * 1024 * 1024

/-- The symbols of `kernel.ld`, the size of RAM, and the places of `main_pt2`,
`main_pt1_0x80000` and `main_pt0_0x80000`, which are in the image. Text begins at the start of
RAM. The ends of text and of the read-only data need not be at a page boundary. -/
structure KernelLayout where
  textEnd : Nat
  rodataStart : Nat
  rodataEnd : Nat
  dataStart : Nat
  kimgEnd : Nat
  ramSize : Nat
  mainPt2 : Nat
  mainPt1 : Nat
  mainPt0 : Nat
  text_le : RAM_START ≤ textEnd ∧ textEnd ≤ rodataStart
  rodata_le : rodataStart ≤ rodataEnd ∧ rodataEnd ≤ dataStart
  pages : rodataStart % PAGE_SIZE = 0 ∧ dataStart % PAGE_SIZE = 0
  fits : kimgEnd ≤ RAM_START + MEGA_SIZE
  ram : ramSize % MEGA_SIZE = 0 ∧ ramSize ≤ GIGA_SIZE ∧ kimgEnd ≤ RAM_START + ramSize
  tables : ∀ t ∈ [mainPt2, mainPt1, mainPt0],
    t % PAGE_SIZE = 0 ∧ dataStart ≤ t ∧ t + PAGE_SIZE ≤ kimgEnd
  tables_ne : [mainPt2, mainPt1, mainPt0].Nodup

namespace Phys

/-- Rounds of `for (pp = …; …; pp += step) table[VPN(pp)] = leaf_pte(pp, flags)`. -/
def mapLoop (table step : Nat) (vpn : Nat → Fin 512) (flags : BitVec 8) : Nat → Nat → Phys → Phys
  | 0, _, m => m
  | n + 1, pp, m =>
    mapLoop table step vpn flags n (pp + step)
      (m.store (table + 8 * vpn pp) (Pte.leafPte pp flags).toWord)

/-- The loop from `start` as long as `pp < stop`. -/
def mapRange (table step : Nat) (vpn : Nat → Fin 512) (flags : BitVec 8) (start stop : Nat)
    (m : Phys) : Phys :=
  mapLoop table step vpn flags ((stop - start + step - 1) / step) start m

/-- The part of `memory_init` that fills the tables. -/
def mainTables (L : KernelLayout) (m : Phys) : Phys :=
  let m := mapRange L.mainPt2 GIGA_SIZE (fun pma => (vpnOf pma).i2) (PTE_R ||| PTE_W ||| PTE_G)
    0 RAM_START m
  let m := m.store (L.mainPt2 + 8 * (vpnOf RAM_START).i2) (Pte.ptab L.mainPt1 PTE_G).toWord
  let m := m.store (L.mainPt1 + 8 * (vpnOf RAM_START).i1) (Pte.ptab L.mainPt0 PTE_G).toWord
  let m := mapRange L.mainPt0 PAGE_SIZE (fun pp => (vpnOf pp).i0) (PTE_R ||| PTE_X ||| PTE_G)
    RAM_START L.textEnd m
  let m := mapRange L.mainPt0 PAGE_SIZE (fun pp => (vpnOf pp).i0) (PTE_R ||| PTE_G)
    L.rodataStart L.rodataEnd m
  let m := mapRange L.mainPt0 PAGE_SIZE (fun pp => (vpnOf pp).i0) (PTE_R ||| PTE_W ||| PTE_G)
    L.dataStart (RAM_START + MEGA_SIZE) m
  mapRange L.mainPt1 MEGA_SIZE (fun pp => (vpnOf pp).i1) (PTE_R ||| PTE_W ||| PTE_G)
    (RAM_START + MEGA_SIZE) (RAM_START + L.ramSize) m

/-! ## One loop -/

section Loop

variable {table step : Nat} {vpn : Nat → Fin 512} {flags : BitVec 8} {m : Phys}

/-- A loop writes to its table only. -/
theorem mapLoop_word {a : Nat} (ha : ∀ i : Fin 512, a ≠ table + 8 * i) (n pp : Nat) :
    (mapLoop table step vpn flags n pp m).word a = m.word a := by
  induction n generalizing pp m with
  | zero => rfl
  | succ n ih => exact ih (pp + step) |>.trans (Function.update_of_ne (ha (vpn pp)) ..)

/-- If the entries are consecutive from `s` on, they map the pages of the range. -/
theorem mapLoop_entry {n pp s : Nat} (hvpn : ∀ k < n, (vpn (pp + k * step)).val = s + k)
    (i : Fin 512) : entry (mapLoop table step vpn flags n pp m).word table i =
      if s ≤ i.val ∧ i.val < s + n then Pte.leafPte (pp + (i - s) * step) flags
      else entry m.word table i := by
  induction n generalizing pp s m with
  | zero => rw [if_neg (by omega)]; rfl
  | succ n ih =>
    have hfirst : (vpn pp).val = s := by
      have h := hvpn 0 (Nat.succ_pos n)
      rwa [Nat.zero_mul, Nat.add_zero, Nat.add_zero] at h
    have hrest : ∀ k < n, (vpn (pp + step + k * step)).val = s + 1 + k := by
      intro k hk
      have h := hvpn (k + 1) (Nat.succ_lt_succ hk)
      rw [Nat.add_assoc, Nat.add_comm step, ← Nat.succ_mul, h]
      omega
    show entry (mapLoop table step vpn flags n (pp + step) _).word table i = _
    rw [ih hrest]
    by_cases hi : i.val = s
    · -- the entry of the first round
      obtain rfl : i = vpn pp := Fin.ext (hi.trans hfirst.symm)
      have hpage : pp + ((vpn pp).val - s) * step = pp := by
        rw [hfirst, Nat.sub_self, Nat.zero_mul, Nat.add_zero]
      rw [if_neg (by omega), if_pos (by omega), hpage]
      exact entry_update_self ..
    · have hsame : entry (m.store (table + 8 * vpn pp) (Pte.leafPte pp flags).toWord).word table i =
          entry m.word table i := entry_congr (Function.update_of_ne (by omega) ..)
      rw [hsame]
      by_cases hin : s + 1 ≤ i.val ∧ i.val < s + 1 + n
      · rw [if_pos hin, if_pos (by omega), Nat.add_assoc, Nat.add_comm step, ← Nat.succ_mul]
        congr 3
        omega
      · rw [if_neg hin, if_neg (by omega)]

/-- The entries of a loop over a range within one table. -/
theorem mapRange_entry {start stop s : Nat} (hstep : 0 < step)
    (hvpn : ∀ k, start + k * step < stop → (vpn (start + k * step)).val = s + k) (i : Fin 512) :
    entry (mapRange table step vpn flags start stop m).word table i =
      if s ≤ i.val ∧ start + (i - s) * step < stop then Pte.leafPte (start + (i - s) * step) flags
      else entry m.word table i := by
  have hrounds : ∀ k, k < (stop - start + step - 1) / step ↔ start + k * step < stop := by
    intro k
    rw [Nat.lt_iff_add_one_le, Nat.le_div_iff_mul_le hstep, Nat.succ_mul]
    omega
  unfold mapRange
  rw [mapLoop_entry (fun k hk => hvpn k ((hrounds k).mp hk))]
  refine if_congr (and_congr_right fun hs => ?_) rfl rfl
  rw [← hrounds]
  omega

/-- Another table is not changed. -/
theorem mapRange_entry_other {t : Nat} (ht : t % 2 ^ 12 = 0) (htable : table % 2 ^ 12 = 0)
    (hne : t ≠ table) (start stop : Nat) (i : Fin 512) :
    entry (mapRange table step vpn flags start stop m).word t i = entry m.word t i :=
  entry_congr (mapLoop_word (fun j => entry_ne ht htable hne i j) _ _)

theorem store_entry (j : Fin 512) (p : Pte) (i : Fin 512) :
    entry (m.store (table + 8 * j) p.toWord).word table i =
      if i = j then p else entry m.word table i := entry_update ..

theorem store_entry_other {t : Nat} (ht : t % 2 ^ 12 = 0) (htable : table % 2 ^ 12 = 0)
    (hne : t ≠ table) (j : Fin 512) (w : BitVec 64) (i : Fin 512) :
    entry (m.store (table + 8 * j) w).word t i = entry m.word t i :=
  entry_congr (Function.update_of_ne (entry_ne ht htable hne i j) ..)

end Loop

end Phys

/-! ## The three tables -/

namespace KernelLayout

variable (L : KernelLayout)

theorem aligned : L.mainPt2 % 2 ^ 12 = 0 ∧ L.mainPt1 % 2 ^ 12 = 0 ∧ L.mainPt0 % 2 ^ 12 = 0 :=
  ⟨(L.tables _ (by simp)).1, (L.tables _ (by simp)).1, (L.tables _ (by simp)).1⟩

theorem ne : L.mainPt2 ≠ L.mainPt1 ∧ L.mainPt2 ≠ L.mainPt0 ∧ L.mainPt1 ≠ L.mainPt0 := by
  have h := L.tables_ne
  simp only [List.nodup_cons, List.mem_cons, List.not_mem_nil, or_false, not_or] at h
  exact ⟨h.1.1, h.1.2, h.2.1⟩

/-- The tables are in RAM, so there is some. -/
theorem ramSize_pos : MEGA_SIZE ≤ L.ramSize := by
  obtain ⟨hmod, -, hend⟩ := L.ram
  obtain ⟨-, hdata, htable⟩ := L.tables L.mainPt2 (by simp)
  have := L.text_le
  have := L.rodata_le
  unfold MEGA_SIZE at *
  unfold PAGE_SIZE at *
  omega

theorem dataStart_le : L.dataStart ≤ RAM_START + MEGA_SIZE := by
  have := L.fits
  obtain ⟨-, hle, hlt⟩ := L.tables L.mainPt2 (by simp)
  omega

theorem lt_of_mem {t : Nat} (ht : t ∈ [L.mainPt2, L.mainPt1, L.mainPt0]) : t < 2 ^ 56 := by
  have := L.fits
  obtain ⟨-, -, hlt⟩ := L.tables t ht
  unfold RAM_START MEGA_SIZE at *
  omega

end KernelLayout

namespace Phys

variable (L : KernelLayout) (m : Phys)

theorem mainTables_pt2 (i : Fin 512) : entry (mainTables L m).word L.mainPt2 i =
    if i.val = 2 then Pte.ptab L.mainPt1 PTE_G
    else if i.val < 2 then Pte.leafPte (i * GIGA_SIZE) (PTE_R ||| PTE_W ||| PTE_G)
    else entry m.word L.mainPt2 i := by
  obtain ⟨h₂, h₁, h₀⟩ := L.aligned
  obtain ⟨hne₁, hne₀, -⟩ := L.ne
  rw [mainTables]
  rw [mapRange_entry_other h₂ h₁ hne₁, mapRange_entry_other h₂ h₀ hne₀,
    mapRange_entry_other h₂ h₀ hne₀, mapRange_entry_other h₂ h₀ hne₀,
    store_entry_other h₂ h₁ hne₁]
  rw [store_entry]
  have hval : (vpnOf RAM_START).i2.val = 2 := by decide
  have hi : i = (vpnOf RAM_START).i2 ↔ i.val = 2 := by rw [Fin.ext_iff, hval]
  refine if_congr hi rfl ?_
  rw [mapRange_entry (s := 0) (by decide)]
  · refine if_congr ?_ ?_ rfl
    · unfold GIGA_SIZE RAM_START
      omega
    · rw [Nat.zero_add, Nat.sub_zero]
  · intro k hk
    show (0 + k * GIGA_SIZE) / 2 ^ 30 % 512 = 0 + k
    unfold GIGA_SIZE RAM_START at *
    omega

theorem mainTables_pt1 (i : Fin 512) : entry (mainTables L m).word L.mainPt1 i =
    if i.val = 0 then Pte.ptab L.mainPt0 PTE_G
    else if i.val * MEGA_SIZE < L.ramSize then
      Pte.leafPte (RAM_START + i * MEGA_SIZE) (PTE_R ||| PTE_W ||| PTE_G)
    else entry m.word L.mainPt1 i := by
  obtain ⟨h₂, h₁, h₀⟩ := L.aligned
  obtain ⟨hne₁, -, hne₀⟩ := L.ne
  obtain ⟨-, hsize, -⟩ := L.ram
  rw [mainTables]
  rw [mapRange_entry (s := 1) (by decide)]
  · rw [mapRange_entry_other h₁ h₀ hne₀, mapRange_entry_other h₁ h₀ hne₀,
      mapRange_entry_other h₁ h₀ hne₀]
    rw [store_entry, store_entry_other h₁ h₂ hne₁.symm, mapRange_entry_other h₁ h₂ hne₁.symm]
    have hval : (vpnOf RAM_START).i1.val = 0 := by decide
    have hfirst : i = (vpnOf RAM_START).i1 ↔ i.val = 0 := by rw [Fin.ext_iff, hval]
    by_cases hi : i.val = 0
    · rw [if_neg (by omega), if_pos (hfirst.mpr hi), if_pos hi]
    · have haddr : RAM_START + MEGA_SIZE + (i.val - 1) * MEGA_SIZE = RAM_START + i * MEGA_SIZE := by
        unfold MEGA_SIZE
        omega
      rw [if_neg (mt hfirst.mp hi), if_neg hi, haddr]
      refine if_congr ?_ rfl rfl
      omega
  · intro k hk
    show (RAM_START + MEGA_SIZE + k * MEGA_SIZE) / 2 ^ 21 % 512 = 1 + k
    unfold MEGA_SIZE RAM_START GIGA_SIZE at *
    omega

/-- A loop over pages of the first megabytes of RAM. -/
theorem mapRange_pages {table start stop : Nat} {flags : BitVec 8} {m : Phys}
    (halign : start % PAGE_SIZE = 0) (hstart : RAM_START ≤ start)
    (hstop : stop ≤ RAM_START + MEGA_SIZE) (i : Fin 512) :
    entry (mapRange table PAGE_SIZE (fun pp => (vpnOf pp).i0) flags start stop m).word table i =
      if start ≤ RAM_START + i * PAGE_SIZE ∧ RAM_START + i * PAGE_SIZE < stop
      then Pte.leafPte (RAM_START + i * PAGE_SIZE) flags else entry m.word table i := by
  rw [mapRange_entry (s := (start - RAM_START) / PAGE_SIZE) (by decide)]
  · have hpage : (start - RAM_START) / PAGE_SIZE ≤ i.val →
        start + (i.val - (start - RAM_START) / PAGE_SIZE) * PAGE_SIZE = RAM_START + i * PAGE_SIZE := by
      unfold PAGE_SIZE RAM_START at *
      omega
    have hle : (start - RAM_START) / PAGE_SIZE ≤ i.val ↔ start ≤ RAM_START + i * PAGE_SIZE := by
      unfold PAGE_SIZE RAM_START at *
      omega
    by_cases hi : (start - RAM_START) / PAGE_SIZE ≤ i.val
    · rw [hpage hi]
      exact if_congr (and_congr_left' hle) rfl rfl
    · rw [if_neg (fun h => hi h.1), if_neg (fun h => hi (hle.mpr h.1))]
  · intro k hk
    show (start + k * PAGE_SIZE) / 2 ^ 12 % 512 = (start - RAM_START) / PAGE_SIZE + k
    unfold PAGE_SIZE RAM_START MEGA_SIZE at *
    omega

/-- The flags of a page of RAM, by the section that it is in. Behind the image RAM is data. -/
def sectionFlags (page : Nat) : Option (BitVec 8) :=
  if L.dataStart ≤ page then some (PTE_R ||| PTE_W ||| PTE_G)
  else if L.rodataStart ≤ page ∧ page < L.rodataEnd then some (PTE_R ||| PTE_G)
  else if page < L.textEnd then some (PTE_R ||| PTE_X ||| PTE_G)
  else none

theorem mainTables_pt0 (i : Fin 512) : entry (mainTables L m).word L.mainPt0 i =
    match sectionFlags L (RAM_START + i * PAGE_SIZE) with
    | some flags => Pte.leafPte (RAM_START + i * PAGE_SIZE) flags
    | none => entry m.word L.mainPt0 i := by
  obtain ⟨h₂, h₁, h₀⟩ := L.aligned
  obtain ⟨-, hne₂, hne₁⟩ := L.ne
  obtain ⟨hrodata, hdata⟩ := L.pages
  obtain ⟨htext, htext'⟩ := L.text_le
  obtain ⟨hro, hro'⟩ := L.rodata_le
  have hend := L.dataStart_le
  have hpage : RAM_START + i.val * PAGE_SIZE < RAM_START + MEGA_SIZE := by
    have := i.isLt
    unfold MEGA_SIZE PAGE_SIZE
    omega
  rw [mainTables, mapRange_entry_other h₀ h₁ hne₁.symm, mapRange_pages hdata (by omega) le_rfl,
    mapRange_pages hrodata (by omega) (by omega), mapRange_pages (by decide) le_rfl (by omega),
    store_entry_other h₀ h₁ hne₁.symm, store_entry_other h₀ h₂ hne₂.symm,
    mapRange_entry_other h₀ h₂ hne₂.symm]
  unfold sectionFlags
  by_cases hd : L.dataStart ≤ RAM_START + i * PAGE_SIZE
  · rw [if_pos ⟨hd, hpage⟩, if_pos hd]
  · rw [if_neg (fun h => hd h.1), if_neg hd]
    split
    · rfl
    · by_cases ht : RAM_START + i * PAGE_SIZE < L.textEnd
      · rw [if_pos ⟨Nat.le_add_right .., ht⟩, if_pos ht]
      · rw [if_neg (fun h => ht h.2), if_neg ht]

/-! ## The mapping -/

/-- The flags that `memory_init` gives the page of an address. -/
def bootFlags (va : Nat) : Option (BitVec 8) :=
  if va < RAM_START then some (PTE_R ||| PTE_W ||| PTE_G)
  else if va < RAM_START + L.ramSize then sectionFlags L (va / PAGE_SIZE * PAGE_SIZE)
  else none

/-- An address is its own physical address, with these flags. -/
def selfMapping (va : Nat) (flags : BitVec 8) : Mapping :=
  (BitVec.ofNat 44 (va / PAGE_SIZE), flags ||| PTE_A ||| PTE_D ||| PTE_V)

theorem leafPte_readable (page : Nat) {flags : BitVec 8} (h : flags &&& PTE_R ≠ 0) :
    (Pte.leafPte page flags).valid = true ∧ (Pte.leafPte page flags).leaf = true := by
  have hall : ∀ f : BitVec 8, f &&& PTE_R ≠ 0 →
      (Pte.leafPte 0 f).valid = true ∧ (Pte.leafPte 0 f).leaf = true := by decide
  exact hall flags h

theorem sectionFlags_readable {page : Nat} {flags : BitVec 8} (h : sectionFlags L page = some flags) :
    flags &&& PTE_R ≠ 0 := by
  unfold sectionFlags at h
  split at h
  · obtain rfl := Option.some.inj h
    decide
  · split at h
    · obtain rfl := Option.some.inj h
      decide
    · obtain ⟨-, h⟩ := Option.ite_none_right_eq_some.mp h
      obtain rfl := Option.some.inj h
      decide

theorem ptab_G_isTable (page : Nat) : (Pte.ptab page PTE_G).isTable := by
  show (Pte.ptab 0 PTE_G).isTable
  decide

section Walks

variable {word : Nat → BitVec 64} {table va : Nat} {flags : BitVec 8}

theorem walk0_self (hflags : flags &&& PTE_R ≠ 0)
    (h : entry word table (vpnOf va).i0 = Pte.leafPte (va / PAGE_SIZE * PAGE_SIZE) flags) :
    walk0 word table (vpnOf va).i0 = some (selfMapping va flags) := by
  obtain ⟨hvalid, hleaf⟩ := leafPte_readable (va / PAGE_SIZE * PAGE_SIZE) hflags
  unfold walk0
  dsimp only
  rw [h, hvalid, hleaf]
  have hppn : va / PAGE_SIZE * PAGE_SIZE / 2 ^ 12 = va / PAGE_SIZE := Nat.mul_div_cancel _ (by decide)
  show some (BitVec.ofNat 44 (va / PAGE_SIZE * PAGE_SIZE / 2 ^ 12), _) = _
  rw [hppn]
  rfl

theorem walk1_self (hflags : flags &&& PTE_R ≠ 0) (hva : va < 2 ^ 38)
    (h : entry word table (vpnOf va).i1 = Pte.leafPte (va / MEGA_SIZE * MEGA_SIZE) flags) :
    walk1 word table (vpnOf va).i1 (vpnOf va).i0 = some (selfMapping va flags) := by
  obtain ⟨hvalid, hleaf⟩ := leafPte_readable (va / MEGA_SIZE * MEGA_SIZE) hflags
  have hppn : (BitVec.ofNat 44 (va / MEGA_SIZE * MEGA_SIZE / 2 ^ 12)).toNat =
      va / MEGA_SIZE * 512 := by
    rw [BitVec.toNat_ofNat]
    unfold MEGA_SIZE
    omega
  unfold walk1
  dsimp only
  rw [h, hvalid, hleaf, if_pos rfl, if_pos rfl, if_pos (hppn.symm ▸ Nat.mul_mod_left _ _)]
  refine congrArg some (Prod.ext (BitVec.eq_of_toNat_eq ?_) rfl)
  show (BitVec.ofNat 44 (va / MEGA_SIZE * MEGA_SIZE / 2 ^ 12) +
    BitVec.ofNat 44 (va / 2 ^ 12 % 512)).toNat = (BitVec.ofNat 44 (va / PAGE_SIZE)).toNat
  rw [BitVec.toNat_add, hppn, BitVec.toNat_ofNat, BitVec.toNat_ofNat]
  unfold MEGA_SIZE PAGE_SIZE
  omega

theorem hwWalk_self (hflags : flags &&& PTE_R ≠ 0) (hva : va < 2 ^ 38)
    (h : entry word table (vpnOf va).i2 = Pte.leafPte (va / GIGA_SIZE * GIGA_SIZE) flags) :
    hwWalk word table (vpnOf va) = some (selfMapping va flags) := by
  obtain ⟨hvalid, hleaf⟩ := leafPte_readable (va / GIGA_SIZE * GIGA_SIZE) hflags
  have hppn : (BitVec.ofNat 44 (va / GIGA_SIZE * GIGA_SIZE / 2 ^ 12)).toNat =
      va / GIGA_SIZE * 2 ^ 18 := by
    rw [BitVec.toNat_ofNat]
    unfold GIGA_SIZE
    omega
  unfold hwWalk
  dsimp only
  rw [h, hvalid, hleaf, if_pos rfl, if_pos rfl, if_pos (hppn.symm ▸ Nat.mul_mod_left _ _)]
  refine congrArg some (Prod.ext (BitVec.eq_of_toNat_eq ?_) rfl)
  show (BitVec.ofNat 44 (va / GIGA_SIZE * GIGA_SIZE / 2 ^ 12) +
    BitVec.ofNat 44 (512 * (va / 2 ^ 21 % 512) + va / 2 ^ 12 % 512)).toNat =
      (BitVec.ofNat 44 (va / PAGE_SIZE)).toNat
  rw [BitVec.toNat_add, hppn, BitVec.toNat_ofNat, BitVec.toNat_ofNat]
  unfold GIGA_SIZE PAGE_SIZE
  omega

end Walks

variable {L m}

/-- The tables are in `.bss`: they are empty before `memory_init`. -/
def EmptyTables (L : KernelLayout) (m : Phys) : Prop :=
  ∀ t ∈ [L.mainPt2, L.mainPt1, L.mainPt0], ∀ i : Fin 512, m.word (t + 8 * i) = 0

theorem EmptyTables.not_valid (h : EmptyTables L m) {t : Nat}
    (ht : t ∈ [L.mainPt2, L.mainPt1, L.mainPt0]) (i : Fin 512) :
    (entry m.word t i).valid = false := by
  unfold entry
  rw [h t ht i]
  decide

/-- The walk in the table for the third gigabyte. -/
theorem walk1_boot (h : EmptyTables L m) {va : Nat} (hlo : RAM_START ≤ va)
    (hhi : va < RAM_START + GIGA_SIZE) :
    walk1 (mainTables L m).word L.mainPt1 (vpnOf va).i1 (vpnOf va).i0 =
      (bootFlags L va).map (selfMapping va) := by
  have hi1 : (vpnOf va).i1.val = (va - RAM_START) / MEGA_SIZE := by
    show va / 2 ^ 21 % 512 = _
    unfold RAM_START GIGA_SIZE MEGA_SIZE at *
    omega
  have hentry := mainTables_pt1 L m (vpnOf va).i1
  unfold bootFlags
  rw [if_neg (by omega)]
  by_cases hfirst : (vpnOf va).i1.val = 0
  · -- single pages
    have hmega : va < RAM_START + MEGA_SIZE := by
      unfold RAM_START MEGA_SIZE at *
      omega
    have hsize := L.ramSize_pos
    rw [if_pos hfirst] at hentry
    rw [if_pos (by omega), walk1_of_table (by rw [hentry]; exact ptab_G_isTable _), hentry,
      Pte.addr_ptab _ L.aligned.2.2 (L.lt_of_mem (by simp))]
    have hpage : RAM_START + (vpnOf va).i0.val * PAGE_SIZE = va / PAGE_SIZE * PAGE_SIZE := by
      show RAM_START + va / 2 ^ 12 % 512 * PAGE_SIZE = _
      unfold RAM_START MEGA_SIZE PAGE_SIZE at *
      omega
    have hlow := mainTables_pt0 L m (vpnOf va).i0
    rw [hpage] at hlow
    cases hflags : sectionFlags L (va / PAGE_SIZE * PAGE_SIZE) with
    | some flags =>
      rw [hflags] at hlow
      exact walk0_self (sectionFlags_readable L hflags) hlow
    | none =>
      rw [hflags] at hlow
      unfold walk0
      dsimp only
      rw [hlow, h.not_valid (by simp)]
      rfl
  · rw [if_neg hfirst] at hentry
    by_cases hram : va < RAM_START + L.ramSize
    · -- megapages, which are behind the image
      have hmod := L.ram.1
      have hin : (vpnOf va).i1.val * MEGA_SIZE < L.ramSize := by
        rw [hi1]
        unfold MEGA_SIZE at *
        omega
      have haddr : RAM_START + (vpnOf va).i1.val * MEGA_SIZE = va / MEGA_SIZE * MEGA_SIZE := by
        rw [hi1]
        unfold MEGA_SIZE RAM_START at *
        omega
      have hdata : sectionFlags L (va / PAGE_SIZE * PAGE_SIZE) = some (PTE_R ||| PTE_W ||| PTE_G) := by
        refine if_pos ?_
        have := L.dataStart_le
        unfold MEGA_SIZE PAGE_SIZE at *
        omega
      rw [if_pos hin, haddr] at hentry
      rw [if_pos hram, hdata]
      refine walk1_self (by decide) ?_ hentry
      unfold RAM_START GIGA_SIZE at *
      omega
    · -- beyond RAM
      have hout : ¬(vpnOf va).i1.val * MEGA_SIZE < L.ramSize := by
        rw [hi1]
        have := L.ram.1
        unfold MEGA_SIZE at *
        omega
      rw [if_neg hout] at hentry
      rw [if_neg hram]
      exact walk1_of_not_valid (by rw [hentry]; exact h.not_valid (by simp) _)

/-- What the tables of `memory_init` map an address to. -/
theorem translate_boot (h : EmptyTables L m) (va : Nat) :
    (mainTables L m).translate L.mainPt2 va = (bootFlags L va).map (selfMapping va) := by
  have hsize := L.ram.2.1
  have hentry := mainTables_pt2 L m (vpnOf va).i2
  have hi2 : (vpnOf va).i2.val = va / 2 ^ 30 % 512 := rfl
  have hout : RAM_START + L.ramSize ≤ va → bootFlags L va = none := fun hva => by
    unfold bootFlags
    rw [if_neg (by omega), if_neg (by omega)]
  unfold Phys.translate
  by_cases hc : canonical va
  · rw [if_pos hc]
    unfold canonical at hc
    simp only [Bool.or_eq_true, Bool.and_eq_true, decide_eq_true_eq] at hc
    by_cases hlow : va < RAM_START
    · -- gigapages
      have haddr : (vpnOf va).i2.val * GIGA_SIZE = va / GIGA_SIZE * GIGA_SIZE := by
        rw [hi2]
        unfold RAM_START GIGA_SIZE at *
        omega
      have hlt : (vpnOf va).i2.val < 2 := by
        rw [hi2]
        unfold RAM_START at hlow
        omega
      rw [if_neg (by omega), if_pos hlt, haddr] at hentry
      unfold bootFlags
      rw [if_pos hlow]
      refine hwWalk_self (by decide) ?_ hentry
      unfold RAM_START at hlow
      omega
    · by_cases hgiga : va < RAM_START + GIGA_SIZE
      · have htwo : (vpnOf va).i2.val = 2 := by
          rw [hi2]
          unfold RAM_START GIGA_SIZE at *
          omega
        rw [if_pos htwo] at hentry
        rw [hwWalk_of_table (by rw [hentry]; exact ptab_G_isTable _), hentry,
          Pte.addr_ptab _ L.aligned.2.1 (L.lt_of_mem (by simp))]
        exact walk1_boot h (by omega) hgiga
      · -- the rest of the root is empty
        have hmore : 2 < (vpnOf va).i2.val := by
          rw [hi2]
          unfold RAM_START GIGA_SIZE at *
          omega
        rw [if_neg (by omega), if_neg (by omega)] at hentry
        rw [hout (by omega)]
        exact hwWalk_of_not_valid (by rw [hentry]; exact h.not_valid (by simp) _)
  · rw [if_neg hc]
    rw [hout]
    · rfl
    · unfold canonical at hc
      simp only [Bool.or_eq_true, Bool.and_eq_true, decide_eq_true_eq, not_or] at hc
      unfold RAM_START GIGA_SIZE at *
      omega

/-- The address is mapped to itself, with these of the permissions. -/
def MapsSelf (m : Phys) (root va : Nat) (perms : BitVec 8) : Prop :=
  ∃ ppn flags, m.translate root va = some (ppn, flags) ∧
    ppn.toNat * PAGE_SIZE + va % PAGE_SIZE = va ∧
    flags &&& (PTE_R ||| PTE_W ||| PTE_X ||| PTE_U) = perms

theorem mapsSelf_of_bootFlags {va : Nat} (flags : BitVec 8) {perms : BitVec 8} (h : EmptyTables L m)
    (hflags : bootFlags L va = some flags) (hva : va < RAM_START + L.ramSize)
    (hperms : (flags ||| PTE_A ||| PTE_D ||| PTE_V) &&& (PTE_R ||| PTE_W ||| PTE_X ||| PTE_U) = perms) :
    MapsSelf (mainTables L m) L.mainPt2 va perms := by
  refine ⟨_, _, (translate_boot h va).trans (by rw [hflags]; rfl), ?_, hperms⟩
  have := L.ram.2.1
  rw [BitVec.toNat_ofNat]
  unfold RAM_START GIGA_SIZE PAGE_SIZE at *
  omega

/-- Where something is mapped, it is in one of the three ways. -/
theorem bootFlags_cases {va : Nat} {flags : BitVec 8} (h : bootFlags L va = some flags) :
    flags = PTE_R ||| PTE_W ||| PTE_G ∨ flags = PTE_R ||| PTE_G ∨
      flags = PTE_R ||| PTE_X ||| PTE_G := by
  unfold bootFlags sectionFlags at h
  grind

/-- The mapping after `memory_init`: below RAM, in the sections of the image and from the data
on to the end of RAM every address is mapped to itself, text without `PTE_W`, the read-only data
without `PTE_W` and `PTE_X`, the rest without `PTE_X`; nothing is mapped for the user, nothing
both writable and executable, and nothing beyond RAM. -/
theorem boot_mapping (h : EmptyTables L m) :
    (∀ va, va < RAM_START → MapsSelf (mainTables L m) L.mainPt2 va (PTE_R ||| PTE_W)) ∧
    (∀ va, RAM_START ≤ va → va < L.textEnd →
      MapsSelf (mainTables L m) L.mainPt2 va (PTE_R ||| PTE_X)) ∧
    (∀ va, L.rodataStart ≤ va → va < L.rodataEnd →
      MapsSelf (mainTables L m) L.mainPt2 va PTE_R) ∧
    (∀ va, L.dataStart ≤ va → va < RAM_START + L.ramSize →
      MapsSelf (mainTables L m) L.mainPt2 va (PTE_R ||| PTE_W)) ∧
    (∀ va ppn flags, (mainTables L m).translate L.mainPt2 va = some (ppn, flags) →
      flags &&& PTE_U = 0 ∧ (flags &&& PTE_W = 0 ∨ flags &&& PTE_X = 0)) ∧
    ∀ va, RAM_START + L.ramSize ≤ va → (mainTables L m).translate L.mainPt2 va = none := by
  obtain ⟨htext, htext'⟩ := L.text_le
  obtain ⟨hro, hro'⟩ := L.rodata_le
  obtain ⟨hpage, hpage'⟩ := L.pages
  obtain ⟨-, -, hkimg⟩ := L.ram
  have hdata : L.dataStart < RAM_START + L.ramSize := by
    obtain ⟨-, hle, hlt⟩ := L.tables L.mainPt2 (by simp)
    unfold PAGE_SIZE at hlt
    omega
  -- the sections begin at page boundaries, so a page is in the section that its addresses are in
  have hround : ∀ va start, start % PAGE_SIZE = 0 →
      (start ≤ va / PAGE_SIZE * PAGE_SIZE ↔ start ≤ va) := by
    intro va start hstart
    unfold PAGE_SIZE at *
    omega
  have hle : ∀ va, va / PAGE_SIZE * PAGE_SIZE ≤ va := fun va => Nat.div_mul_le_self ..
  refine ⟨fun va hva => ?_, fun va hlo hhi => ?_, fun va hlo hhi => ?_, fun va hlo hhi => ?_,
    fun va ppn flags hva => ?_, fun va hva => ?_⟩
  · exact mapsSelf_of_bootFlags _ h (if_pos hva) (by omega) (by decide)
  · refine mapsSelf_of_bootFlags (PTE_R ||| PTE_X ||| PTE_G) h ?_ (by omega) (by decide)
    unfold bootFlags sectionFlags
    rw [if_neg (by omega), if_pos (by omega), if_neg (mt (hround va _ hpage').mp (by omega)),
      if_neg (fun hro => absurd ((hround va _ hpage).mp hro.1) (by omega)),
      if_pos (Nat.lt_of_le_of_lt (hle va) hhi)]
  · refine mapsSelf_of_bootFlags (PTE_R ||| PTE_G) h ?_ (by omega) (by decide)
    unfold bootFlags sectionFlags
    rw [if_neg (by omega), if_pos (by omega), if_neg (mt (hround va _ hpage').mp (by omega)),
      if_pos ⟨(hround va _ hpage).mpr hlo, Nat.lt_of_le_of_lt (hle va) hhi⟩]
  · refine mapsSelf_of_bootFlags (PTE_R ||| PTE_W ||| PTE_G) h ?_ hhi (by decide)
    unfold bootFlags sectionFlags
    rw [if_neg (by omega), if_pos hhi, if_pos ((hround va _ hpage').mpr hlo)]
  · rw [translate_boot h] at hva
    obtain ⟨f, hf, heq⟩ := Option.map_eq_some_iff.mp hva
    obtain ⟨-, rfl⟩ := Prod.mk.inj heq
    obtain rfl | rfl | rfl := bootFlags_cases hf <;> decide
  · rw [translate_boot h]
    unfold bootFlags
    rw [if_neg (by omega), if_neg (by omega)]
    rfl

/-- A small image with a text section that ends within a page, in 8 MB of RAM. -/
def smallImage : KernelLayout where
  textEnd := 0x80001010
  rodataStart := 0x80002000
  rodataEnd := 0x80002020
  dataStart := 0x80003000
  kimgEnd := 0x80006000
  ramSize := 8 * 1024 * 1024
  mainPt2 := 0x80003000
  mainPt1 := 0x80004000
  mainPt0 := 0x80005000
  text_le := by decide
  rodata_le := by decide
  pages := by decide
  fits := by decide
  ram := by decide
  tables := by decide
  tables_ne := by decide

theorem boot_mapping_smallImage :
    MapsSelf (mainTables smallImage ⟨fun _ => 0, 0, 0, 0⟩) 0x80003000 0x80001008 (PTE_R ||| PTE_X) :=
  (boot_mapping (L := smallImage) (m := ⟨fun _ => 0, 0, 0, 0⟩) fun _ _ _ => rfl).2.1 0x80001008
    (by decide) (by decide)

end Phys

end RiscvKernel
