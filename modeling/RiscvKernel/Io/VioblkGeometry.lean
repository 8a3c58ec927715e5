import RiscvKernel.Io.VioblkRequests

/-!
# Block addressing

For which positions and lengths all requests of a call are right (`InDevice`), and when the read that
`vioblk_write` makes first is of the block that it then writes (`HiddenOk`).
-/

namespace RiscvKernel

open Lib

namespace Vioblk

variable {g : Geometry} {r : Round}

/-! ## The length of a call -/

section Calls

variable {pos n : Nat}

/-- What a call asks for: its length, cut at `LONG_MAX`. -/
def asked (n : Nat) : Nat := min n longMax

theorem asked_lt (n : Nat) : asked n < 2 ^ 63 := by
  unfold asked longMax
  omega

theorem asked_pos (hn : n ≠ 0) : 0 < asked n := by
  unfold asked longMax
  omega

theorem clampLen_emod (g : Geometry) (pos n : Nat) :
    clampLen g pos n = if (g.size : Int) < (pos + asked n) % 0x10000000000000000 then
      u64 ((g.size : Int) - pos) else asked n := by
  have hasked : (if longMax < n then longMax else n) = asked n := by
    unfold asked
    split <;> omega
  unfold clampLen
  rw [hasked]
  dsimp only
  have hsum := u64_emod (pos + asked n)
  split
  · rw [if_pos (by omega)]
  · rw [if_neg (by omega)]

/-- Up to the end of the device the length is what is left of it. -/
theorem clampLen_inside (hpos : pos ≤ g.size) (h : pos + asked n < 2 ^ 64) :
    clampLen g pos n = min (asked n) (g.size - pos) := by
  have hsize := g.size_lt
  have hrest := u64_emod ((g.size : Int) - pos)
  rw [clampLen_emod]
  split <;> omega

/-- Behind it, or where the end of the transfer wraps, it is not 0. -/
theorem clampLen_outside (hn : n ≠ 0) (hpos : pos < 2 ^ 64)
    (h : g.size < pos ∨ 2 ^ 64 ≤ pos + asked n) : 0 < clampLen g pos n := by
  have hm := asked_lt n
  have hm' := asked_pos hn
  have hrest := u64_emod ((g.size : Int) - pos)
  rw [clampLen_emod]
  split <;> omega

/-- The calls whose rounds are all right: inside the device with `Addressable` rounds, or at its end
without a sum that wraps. -/
def InDevice (g : Geometry) (pos n : Nat) : Prop :=
  pos < g.size ∧ Addressable g ⟨pos, min (asked n) (g.size - pos)⟩ ∨
    pos = g.size ∧ pos + asked n < 2 ^ 64

instance (g : Geometry) (pos n : Nat) : Decidable (InDevice g pos n) :=
  inferInstanceAs (Decidable (_ ∨ _))

/-- What makes the reads of a `vioblk_write` right: a block, or the device, is an `int`. -/
def HiddenOk (g : Geometry) : Prop := g.blksz = 512 ∨ min g.blksz g.size < 2 ^ 31

theorem mem_runFrom_self {k : Nat} {room : Int} (hk : 0 < k) (hleft : 0 < r.left) :
    r ∈ (runFrom g k r room).1 := by
  obtain ⟨k, rfl⟩ := Nat.exists_eq_add_of_lt hk
  rw [Nat.zero_add]
  unfold runFrom
  rw [if_neg (by omega)]
  split
  · exact List.mem_cons_self
  · exact List.mem_cons_self

variable (hblk : 512 ∣ g.blksz) (hblk' : g.blksz < 2 ^ 32)

include hblk hblk'

/-- Where the sector of a round is right, and where the read before it then starts. -/
theorem Round.Right.cases (h : r.Right g) (hpos : r.pos < 2 ^ 64) :
    g.blksz = 512 ∧ r.pos < 2 ^ 40 ∧
        u32 (sectorOf g r.pos * g.blksz) = r.pos / 512 * 512 % 2 ^ 32 ∨
      512 < g.blksz ∧ r.pos < g.blksz ∧ u32 (sectorOf g r.pos * g.blksz) = 0 := by
  by_cases hg : g.blksz = 512
  · have hlt := (sector_iff_512 hg hpos).mp h.sector
    refine Or.inl ⟨hg, hlt, ?_⟩
    unfold sectorOf u32
    rw [hg, i32_eq (by omega) (by omega)]
    omega
  · obtain ⟨k, hk⟩ := hblk
    have hsize := g.blksz_pos
    have hlt := (sector_iff_large hk (by omega) hpos).mp h.sector
    refine Or.inr ⟨by omega, hlt, ?_⟩
    unfold sectorOf
    rw [Nat.div_eq_of_lt hlt, i32_eq (by decide) (by decide), Int.natCast_zero, Int.zero_mul]
    exact u32_eq rfl (by decide)

/-- How a call starts: inside the device, at its end with nothing to do, or where it goes wrong. -/
theorem start_cases (hn : n ≠ 0) (hpos : pos < 2 ^ 64) :
    pos < g.size ∧ clampLen g pos n = min (asked n) (g.size - pos) ∧ pos + asked n < 2 ^ 64 ∨
      InDevice g pos n ∧ g.size ≤ pos ∧ clampLen g pos n = 0 ∨
      ¬InDevice g pos n ∧ 0 < clampLen g pos n ∧
        (g.size ≤ pos ∨ ¬(⟨pos, clampLen g pos n⟩ : Round).Right g) := by
  obtain hwrap | hsum := Nat.lt_or_ge (pos + asked n) (2 ^ 64)
  · obtain hlt | heq | hgt := Nat.lt_trichotomy pos g.size
    · exact Or.inl ⟨hlt, clampLen_inside (Nat.le_of_lt hlt) hwrap, hwrap⟩
    · refine Or.inr (Or.inl ⟨Or.inr ⟨heq, hwrap⟩, Nat.le_of_eq heq.symm, ?_⟩)
      rw [clampLen_inside (Nat.le_of_eq heq) hwrap]
      omega
    · refine Or.inr (Or.inr ⟨?_, clampLen_outside hn hpos (Or.inl hgt), Or.inl (Nat.le_of_lt hgt)⟩)
      unfold InDevice
      omega
  · -- a sum that wraps starts far beyond every block that the driver can name
    have hm := asked_lt n
    have hnot : ∀ left, ¬(⟨pos, left⟩ : Round).Right g := by
      intro left hright
      obtain ⟨-, hlt, -⟩ | ⟨-, hlt, -⟩ := hright.cases hblk hblk' hpos
      · dsimp only at hlt
        omega
      · dsimp only at hlt
        omega
    refine Or.inr (Or.inr ⟨?_, clampLen_outside hn hpos (Or.inr hsum), Or.inr (hnot _)⟩)
    rintro (⟨hlt, haddr⟩ | ⟨-, hlt⟩)
    · refine hnot _ (haddr.right hblk hblk' ?_).1
      have := asked_pos hn
      dsimp only
      omega
    · omega

/-! ## Reads -/

omit hblk hblk'

/-- Every request of a `vioblk_read` is right, and at or beyond the end there is none. -/
structure ReadRight (g : Geometry) (opened : Bool) (pos n : Nat) : Prop where
  rounds : ∀ r ∈ (readRun g opened pos n).1, r.Right g
  quiet : g.size ≤ pos → (readRun g opened pos n).1 = []

include hblk hblk'

theorem readRight_iff {opened : Bool} (hpos : pos < 2 ^ 64) :
    ReadRight g opened pos n ↔ opened = false ∨ n = 0 ∨ InDevice g pos n := by
  by_cases hquiet : opened = false ∨ n = 0
  · have hnil : (readRun g opened pos n).1 = [] := by
      unfold readRun
      rw [if_pos hquiet]
    refine iff_of_true ⟨fun r hr => ?_, fun _ => hnil⟩ (by tauto)
    rw [hnil] at hr
    cases hr
  obtain ⟨hopen, hn⟩ := not_or.mp hquiet
  have hrun : readRun g opened pos n = runFrom g (clampLen g pos n) ⟨pos, clampLen g pos n⟩ n := by
    unfold readRun
    rw [if_neg hquiet]
  rw [or_iff_right hopen, or_iff_right hn]
  obtain ⟨hlt, hlen, -⟩ | ⟨hin, -, hlen⟩ | ⟨hout, hlen, hwrong⟩ :=
    start_cases (n := n) hblk hblk' hn hpos
  · have hm := asked_lt n
    have hm' := asked_pos hn
    have hle : asked n ≤ n := Nat.min_le_left _ _
    have hiff : (∀ r ∈ (readRun g opened pos n).1, r.Right g) ↔
        Addressable g ⟨pos, min (asked n) (g.size - pos)⟩ := by
      rw [hrun, hlen]
      exact runFrom_start_iff hblk hblk' (by omega) (by omega) hpos (by omega)
    constructor
    · intro h
      exact Or.inl ⟨hlt, hiff.mp h.rounds⟩
    · rintro (⟨-, haddr⟩ | ⟨heq, -⟩)
      · exact ⟨hiff.mpr haddr, fun hge => absurd hlt (Nat.not_lt.mpr hge)⟩
      · omega
  · have hnil : (readRun g opened pos n).1 = [] := by
      rw [hrun, hlen]
      rfl
    refine iff_of_true ⟨fun r hr => ?_, fun _ => hnil⟩ hin
    rw [hnil] at hr
    cases hr
  · refine iff_of_false (fun h => ?_) hout
    have hmem : ⟨pos, clampLen g pos n⟩ ∈ (readRun g opened pos n).1 := by
      rw [hrun]
      exact mem_runFrom_self hlen hlen
    obtain hge | hnot := hwrong
    · rw [h.quiet hge] at hmem
      cases hmem
    · exact hnot (h.rounds _ hmem)

omit hblk hblk'

/-! ## Writes -/

/-- A round of `vioblk_write` is right, and so are those of the read that it makes first. -/
structure WriteRound.Right (g : Geometry) (w : WriteRound) : Prop where
  round : w.round.Right g
  hidden : ∀ t ∈ w.hidden, t.Right g

/-- The read is of the block that the round writes. -/
def WriteRound.Same (g : Geometry) (w : WriteRound) : Prop :=
  ∀ t ∈ w.hidden, t.pos / g.blksz = w.round.pos / g.blksz

variable {ζ : Type} {kmalloc : Kmalloc ζ}

theorem mem_writeFrom {k : Nat} {room : Int} {heap : ζ} {w : WriteRound}
    (hw : w ∈ writeFrom g kmalloc k r room heap) :
    w.round ∈ (runFrom g k r room).1 ∧ w.hidden = (hiddenRun g w.round).1 := by
  induction k generalizing r room heap with
  | zero => cases hw
  | succ k ih =>
    unfold writeFrom at hw
    unfold runFrom
    by_cases hzero : r.left = 0
    · rw [if_pos hzero] at hw
      cases hw
    rw [if_neg hzero] at hw ⊢
    cases halloc : kmalloc g.blksz heap with
    | none =>
      rw [halloc] at hw
      cases hw
    | some o =>
      rw [halloc] at hw
      dsimp only at hw
      split at hw
      · next hgo =>
        rw [if_pos hgo.2]
        obtain rfl | hw := List.mem_cons.mp hw
        · exact ⟨List.mem_cons_self, rfl⟩
        · exact ⟨List.mem_cons_of_mem r (ih hw).1, (ih hw).2⟩
      · obtain rfl := List.mem_singleton.mp hw
        refine ⟨?_, rfl⟩
        split
        · exact List.mem_cons_self
        · exact List.mem_cons_self

include hblk hblk'

/-- The rounds after an `Addressable` one are too, and end where it ends. -/
theorem mem_runFrom_addressable {k : Nat} {room : Int} {t : Round} (haddr : Addressable g r)
    (ht : t ∈ (runFrom g k r room).1) :
    Addressable g t ∧ 0 < t.left ∧ r.pos ≤ t.pos ∧ t.pos + t.left = r.pos + r.left := by
  induction k generalizing r room with
  | zero => cases ht
  | succ k ih =>
    unfold runFrom at ht
    by_cases hzero : r.left = 0
    · rw [if_pos hzero] at ht
      cases ht
    rw [if_neg hzero] at ht
    have hself : Addressable g r ∧ 0 < r.left ∧ r.pos ≤ r.pos ∧ r.pos + r.left = r.pos + r.left :=
      ⟨haddr, Nat.pos_of_ne_zero hzero, Nat.le_refl _, rfl⟩
    split at ht
    · obtain rfl | ht := List.mem_cons.mp ht
      · exact hself
      obtain ⟨hright, hnext⟩ := haddr.right hblk hblk' hself.2.1
      obtain hdone | hnext := hnext
      · -- nothing is left for further rounds
        cases k with
        | zero => cases ht
        | succ k =>
          unfold runFrom at ht
          rw [if_pos hdone] at ht
          cases ht
      · have hstop : r.pos + r.left ≤ 2 ^ 40 := by
          unfold Addressable Addressable512 at haddr
          split at haddr
          · exact haddr.1
          · omega
        obtain ⟨c, -, -, hle, -, heq⟩ := hright.next_eq (by omega) (by omega)
        obtain ⟨haddr', hleft', hge, hend⟩ := ih hnext ht
        rw [heq] at hge hend
        dsimp only at hge hend
        exact ⟨haddr', hleft', by omega, by omega⟩
    · obtain rfl := List.mem_singleton.mp ht
      exact hself

/-- The rounds of the read that comes before a right round. -/
theorem hiddenRun_eq (hright : r.Right g) (hpos : r.pos < g.size) :
    ∃ p, p < g.size ∧ hiddenRun g r =
        runFrom g (min g.blksz (g.size - p)) ⟨p, min g.blksz (g.size - p)⟩ g.blksz ∧
      (g.blksz = 512 ∧ p = r.pos / 512 * 512 % 2 ^ 32 ∨
        512 < g.blksz ∧ r.pos < g.blksz ∧ p = 0) := by
  have hsize := g.size_lt
  have hblksz := g.blksz_pos
  have hasked : asked g.blksz = g.blksz := by
    unfold asked longMax
    omega
  obtain ⟨p, hp⟩ : ∃ p, u32 (sectorOf g r.pos * g.blksz) = p := ⟨_, rfl⟩
  have hcases := hright.cases hblk hblk' (by omega)
  rw [hp] at hcases
  have hlt : p < g.size := by omega
  refine ⟨p, hlt, ?_, by omega⟩
  unfold hiddenRun readRun
  rw [hp, if_neg (by simp; omega), clampLen_inside (Nat.le_of_lt hlt) (by omega), hasked]

/-- Where the read of a right round is right. -/
theorem hidden_right_iff (hright : r.Right g) (hpos : r.pos < g.size) :
    (∀ t ∈ (hiddenRun g r).1, t.Right g) ↔ HiddenOk g := by
  have hsize := g.size_lt
  have hblksz := g.blksz_pos
  obtain ⟨p, hlt, hrun, hcases⟩ := hiddenRun_eq hblk hblk' hright hpos
  rw [hrun, runFrom_start_iff hblk hblk' (by omega) (by omega) (by omega) (by omega)]
  unfold Addressable HiddenOk
  obtain ⟨hg, hp⟩ | ⟨hg, -, rfl⟩ := hcases
  · -- the read starts at a block of 512 bytes below 4 GiB
    obtain ⟨q, hq⟩ := g.size_sectors
    refine iff_of_true ?_ (Or.inl hg)
    rw [if_pos hg, hg]
    unfold Addressable512
    dsimp only
    omega
  · rw [if_neg (by omega)]
    dsimp only
    omega

theorem hidden_complete (hright : r.Right g) (hpos : r.pos < g.size)
    (h : ∀ t ∈ (hiddenRun g r).1, t.Right g) : (hiddenRun g r).2 = true := by
  have hsize := g.size_lt
  obtain ⟨p, hlt, hrun, -⟩ := hiddenRun_eq hblk hblk' hright hpos
  rw [hrun] at h ⊢
  exact runFrom_complete (Nat.le_refl _) (by dsimp only; omega) h (by dsimp only; omega)

/-- Where the read is of the block of the round: its position is cut to 32 bits. -/
theorem hidden_same_iff (hright : r.Right g) (hpos : r.pos < g.size)
    (h : ∀ t ∈ (hiddenRun g r).1, t.Right g) :
    (∀ t ∈ (hiddenRun g r).1, t.pos / g.blksz = r.pos / g.blksz) ↔
      g.blksz ≠ 512 ∨ r.pos < 2 ^ 32 := by
  have hsize := g.size_lt
  have hblksz := g.blksz_pos
  obtain ⟨p, hlt, hrun, hcases⟩ := hiddenRun_eq hblk hblk' hright hpos
  rw [hrun] at h ⊢
  have haddr := (runFrom_start_iff hblk hblk' (by omega) (by omega) (by omega) (by omega)).mp h
  obtain ⟨hg, hp⟩ | ⟨hg, hpos', rfl⟩ := hcases
  · obtain ⟨q, hq⟩ := g.size_sectors
    constructor
    · intro hall
      have hself := hall ⟨p, _⟩ (mem_runFrom_self (by omega) (by dsimp only; omega))
      dsimp only at hself
      rw [hg] at hself
      omega
    · intro hlow t ht
      obtain ⟨-, hleft, hge, hend⟩ := mem_runFrom_addressable hblk hblk' haddr ht
      dsimp only at hge hend
      rw [hg] at hend ⊢
      omega
  · -- both are in the first block
    refine iff_of_true (fun t ht => ?_) (Or.inl (by omega))
    obtain ⟨-, hleft, hge, hend⟩ := mem_runFrom_addressable hblk hblk' haddr ht
    dsimp only at hge hend
    rw [Nat.div_eq_of_lt hpos', Nat.div_eq_of_lt (by omega)]

/-- If every round of the loop of `vioblk_write` is right and no buffer is missing, its rounds are all
those of the transfer. -/
theorem exists_mem_writeFrom (halloc : ∀ heap, (kmalloc g.blksz heap).isSome) {k : Nat} {room : Int}
    {heap : ζ} (hroom : (r.left : Int) ≤ room) (hend : r.pos + r.left ≤ g.size)
    (hend' : r.pos + r.left + g.blksz < 2 ^ 64)
    (h : ∀ w ∈ writeFrom g kmalloc k r room heap, w.Right g) {t : Round}
    (ht : t ∈ (runFrom g k r room).1) : ∃ w ∈ writeFrom g kmalloc k r room heap, w.round = t := by
  induction k generalizing r room heap with
  | zero => cases ht
  | succ k ih =>
    unfold writeFrom at h ⊢
    unfold runFrom at ht
    by_cases hzero : r.left = 0
    · rw [if_pos hzero] at ht
      cases ht
    rw [if_neg hzero] at h ht ⊢
    obtain ⟨⟨fresh, heap'⟩, hsome⟩ := Option.isSome_iff_exists.mp (halloc heap)
    rw [hsome] at h ⊢
    dsimp only at h ⊢
    obtain ⟨hright, hhidden⟩ : r.Right g ∧ ∀ t ∈ (hiddenRun g r).1, t.Right g := by
      split at h
      · exact ⟨(h _ List.mem_cons_self).round, (h _ List.mem_cons_self).hidden⟩
      · exact ⟨(h _ List.mem_cons_self).round, (h _ List.mem_cons_self).hidden⟩
    have hfits := hright.fits hroom
    have hgo := And.intro (hidden_complete hblk hblk' hright (by omega) hhidden) hfits
    rw [if_pos hfits] at ht
    rw [if_pos hgo] at h ⊢
    obtain rfl | ht := List.mem_cons.mp ht
    · exact ⟨_, List.mem_cons_self, rfl⟩
    obtain ⟨c, hc, hone, hle, -, hnext⟩ := hright.next_eq (by omega) (by omega)
    rw [hnext, hc] at h ht ⊢
    obtain ⟨w, hw, hround⟩ := ih (r := ⟨r.pos + c, r.left - c⟩) (by dsimp only; omega)
      (by dsimp only; omega) (by dsimp only; omega) (fun w hw => h w (List.mem_cons_of_mem _ hw)) ht
    exact ⟨w, List.mem_cons_of_mem _ hw, hround⟩

/-- Rounds of 512-byte blocks that all start before a boundary end there at the latest. -/
theorem stop_le_of_rounds (hg : g.blksz = 512) {bound : Nat} (hbound : 512 ∣ bound) {k : Nat} {room : Int}
    (haddr : Addressable g r) (hleft : 0 < r.left) (hk : r.left ≤ k) (hroom : (r.left : Int) ≤ room)
    (h : ∀ t ∈ (runFrom g k r room).1, t.pos < bound) : r.pos + r.left ≤ bound := by
  induction k generalizing r room with
  | zero => omega
  | succ k ih =>
    obtain ⟨q, rfl⟩ := hbound
    obtain ⟨hright, hnext⟩ := haddr.right hblk hblk' hleft
    have hself := h r (mem_runFrom_self (Nat.succ_pos k) hleft)
    have hstop : r.pos + r.left ≤ 2 ^ 40 := by
      unfold Addressable Addressable512 at haddr
      rw [if_pos hg] at haddr
      exact haddr.1
    obtain ⟨c, hc, hone, hle, hrest, heq⟩ := hright.next_eq (by omega) (by omega)
    rw [hg] at hrest
    rw [heq] at hnext
    obtain hdone | hnext := hnext
    · dsimp only at hdone
      omega
    · by_cases hdone : r.left - c = 0
      · omega
      unfold runFrom at h
      rw [if_neg (by omega), if_pos (hright.fits hroom), heq, hc] at h
      have hrec := ih (r := ⟨r.pos + c, r.left - c⟩) hnext (Nat.pos_of_ne_zero hdone)
        (by dsimp only; omega) (by dsimp only; omega) fun t ht => h t (List.mem_cons_of_mem r ht)
      dsimp only at hrec
      omega

omit hblk hblk'

/-- Every request of a `vioblk_write` is right, with those of the reads that it makes, and at or
beyond the end there is none. -/
structure WriteRight (g : Geometry) (kmalloc : Kmalloc ζ) (opened : Bool) (pos n : Nat) (heap : ζ) :
    Prop where
  rounds : ∀ w ∈ writeRun g kmalloc opened pos n heap, w.Right g
  quiet : g.size ≤ pos → writeRun g kmalloc opened pos n heap = []

theorem WriteRight.of_nil {opened : Bool} {heap : ζ} (h : writeRun g kmalloc opened pos n heap = []) :
    WriteRight g kmalloc opened pos n heap := by
  refine ⟨fun w hw => ?_, fun _ => h⟩
  rw [h] at hw
  cases hw

theorem writeRun_quiet {opened : Bool} (h : opened = false ∨ n = 0) (kmalloc : Kmalloc ζ) (heap : ζ) :
    writeRun g kmalloc opened pos n heap = [] := if_pos h

include hblk hblk'

theorem writeRight_of_inDevice {opened : Bool} (hpos : pos < 2 ^ 64)
    (h : opened = false ∨ n = 0 ∨ InDevice g pos n ∧ (pos < g.size → HiddenOk g))
    (kmalloc : Kmalloc ζ) (heap : ζ) : WriteRight g kmalloc opened pos n heap := by
  by_cases hquiet : opened = false ∨ n = 0
  · exact WriteRight.of_nil (writeRun_quiet hquiet kmalloc heap)
  obtain ⟨hin, hok⟩ : InDevice g pos n ∧ (pos < g.size → HiddenOk g) := by tauto
  have hn := (not_or.mp hquiet).2
  have hrun : writeRun g kmalloc opened pos n heap =
      writeFrom g kmalloc (clampLen g pos n) ⟨pos, clampLen g pos n⟩ n heap := if_neg hquiet
  obtain ⟨hlt, hlen, -⟩ | ⟨-, -, hlen⟩ | ⟨hout, -, -⟩ := start_cases hblk hblk' hn hpos
  · refine ⟨fun w hw => ?_, fun hge => absurd hlt (Nat.not_lt.mpr hge)⟩
    have haddr : Addressable g ⟨pos, min (asked n) (g.size - pos)⟩ := by
      obtain ⟨-, haddr⟩ | ⟨heq, -⟩ := hin
      · exact haddr
      · omega
    rw [hrun, hlen] at hw
    obtain ⟨hmem, hhidden⟩ := mem_writeFrom hw
    obtain ⟨hwaddr, hleft, -, hend⟩ := mem_runFrom_addressable hblk hblk' haddr hmem
    obtain ⟨hright, -⟩ := hwaddr.right hblk hblk' hleft
    refine ⟨hright, ?_⟩
    rw [hhidden]
    dsimp only at hend
    exact (hidden_right_iff hblk hblk' hright (by omega)).mpr (hok hlt)
  · refine WriteRight.of_nil ?_
    rw [hrun, hlen]
    rfl
  · exact absurd hin hout

/-- The rounds of a right `vioblk_write` that gets its buffers: none, or all of the transfer. -/
theorem WriteRight.run_cases {opened : Bool} {heap : ζ}
    (halloc : ∀ heap, (kmalloc g.blksz heap).isSome) (hpos : pos < 2 ^ 64)
    (h : WriteRight g kmalloc opened pos n heap) :
    (opened = false ∨ n = 0 ∨ InDevice g pos n ∧ g.size ≤ pos) ∧
        writeRun g kmalloc opened pos n heap = [] ∨
      pos < g.size ∧ ∃ len, len = min (asked n) (g.size - pos) ∧ 0 < len ∧ len ≤ n ∧
        Addressable g ⟨pos, len⟩ ∧
        writeRun g kmalloc opened pos n heap = writeFrom g kmalloc len ⟨pos, len⟩ n heap ∧
        ∀ t ∈ (runFrom g len ⟨pos, len⟩ n).1, ∃ w ∈ writeRun g kmalloc opened pos n heap, w.round = t := by
  by_cases hquiet : opened = false ∨ n = 0
  · exact Or.inl ⟨by tauto, writeRun_quiet hquiet kmalloc heap⟩
  have hn := (not_or.mp hquiet).2
  have hrun : writeRun g kmalloc opened pos n heap =
      writeFrom g kmalloc (clampLen g pos n) ⟨pos, clampLen g pos n⟩ n heap := if_neg hquiet
  -- the first round is there as soon as something is left
  have hfirst : 0 < clampLen g pos n →
      ∃ w ∈ writeRun g kmalloc opened pos n heap, w.round = ⟨pos, clampLen g pos n⟩ := by
    intro hlen
    obtain ⟨k, hk⟩ := Nat.exists_eq_add_of_lt hlen
    obtain ⟨⟨fresh, heap'⟩, hsome⟩ := Option.isSome_iff_exists.mp (halloc heap)
    rw [hrun, hk, Nat.zero_add]
    unfold writeFrom
    rw [if_neg (Nat.succ_ne_zero k), hsome]
    dsimp only
    split
    · exact ⟨_, List.mem_cons_self, rfl⟩
    · exact ⟨_, List.mem_cons_self, rfl⟩
  obtain ⟨hlt, hlen, -⟩ | ⟨hin, hge, hlen⟩ | ⟨-, hlen, hwrong⟩ := start_cases hblk hblk' hn hpos
  · have hm := asked_lt n
    have hm' := asked_pos hn
    have hle : asked n ≤ n := Nat.min_le_left _ _
    have hsize := g.size_lt
    rw [hlen] at hrun hfirst
    obtain ⟨w, hw, hround⟩ := hfirst (by omega)
    have hpos' := (h.rounds w hw).round.cases hblk hblk' (by rw [hround]; exact hpos)
    rw [hround] at hpos'
    dsimp only at hpos'
    have hall : ∀ t ∈ (runFrom g (min (asked n) (g.size - pos))
        ⟨pos, min (asked n) (g.size - pos)⟩ n).1,
        ∃ w ∈ writeRun g kmalloc opened pos n heap, w.round = t := by
      intro t ht
      have hrounds := h.rounds
      rw [hrun] at hrounds ⊢
      exact exists_mem_writeFrom hblk hblk' halloc (by dsimp only; omega) (by dsimp only; omega)
        (by dsimp only; omega) hrounds ht
    have hright : ∀ t ∈ (runFrom g (min (asked n) (g.size - pos))
        ⟨pos, min (asked n) (g.size - pos)⟩ n).1, t.Right g := by
      intro t ht
      obtain ⟨w, hw, rfl⟩ := hall t ht
      exact (h.rounds w hw).round
    exact Or.inr ⟨hlt, _, rfl, by omega, by omega,
      (runFrom_start_iff hblk hblk' (by omega) (by omega) hpos (by omega)).mp hright, hrun, hall⟩
  · refine Or.inl ⟨Or.inr (Or.inr ⟨hin, hge⟩), ?_⟩
    rw [hrun, hlen]
    rfl
  · obtain ⟨w, hw, hround⟩ := hfirst hlen
    obtain hge | hnot := hwrong
    · rw [h.quiet hge] at hw
      cases hw
    · rw [← hround] at hnot
      exact absurd (h.rounds w hw).round hnot

theorem inDevice_of_writeRight {opened : Bool} {heap : ζ}
    (halloc : ∀ heap, (kmalloc g.blksz heap).isSome) (hpos : pos < 2 ^ 64)
    (h : WriteRight g kmalloc opened pos n heap) :
    opened = false ∨ n = 0 ∨ InDevice g pos n ∧ (pos < g.size → HiddenOk g) := by
  obtain ⟨hquiet | hquiet | ⟨hin, hge⟩, -⟩ | ⟨hlt, len, rfl, hlen, -, haddr, hrun, hall⟩ :=
    h.run_cases hblk hblk' halloc hpos
  · exact Or.inl hquiet
  · exact Or.inr (Or.inl hquiet)
  · exact Or.inr (Or.inr ⟨hin, fun hlt => absurd hlt (Nat.not_lt.mpr hge)⟩)
  · refine Or.inr (Or.inr ⟨Or.inl ⟨hlt, haddr⟩, fun _ => ?_⟩)
    obtain ⟨w, hw, hround⟩ := hall _ (mem_runFrom_self hlen hlen)
    have hright := h.rounds w hw
    have hhidden := hright.hidden
    have hw' := hw
    rw [hrun] at hw'
    rw [(mem_writeFrom hw').2] at hhidden
    exact (hidden_right_iff hblk hblk' hright.round (by rw [hround]; exact hlt)).mp hhidden

/-- The reads of a right `vioblk_write` are of the blocks that it writes up to 4 GiB. -/
theorem same_iff {opened : Bool} {heap : ζ} (halloc : ∀ heap, (kmalloc g.blksz heap).isSome)
    (hpos : pos < 2 ^ 64) (h : WriteRight g kmalloc opened pos n heap) :
    (∀ w ∈ writeRun g kmalloc opened pos n heap, w.Same g) ↔
      writeRun g kmalloc opened pos n heap = [] ∨ g.blksz ≠ 512 ∨
        pos + min (asked n) (g.size - pos) ≤ 2 ^ 32 := by
  obtain ⟨-, hnil⟩ | ⟨hlt, len, hlen, hlen', hle, haddr, hrun, hall⟩ :=
    h.run_cases hblk hblk' halloc hpos
  · refine iff_of_true (fun w hw => ?_) (Or.inl hnil)
    rw [hnil] at hw
    cases hw
  rw [← hlen]
  -- what one round says
  have hround : ∀ w ∈ writeRun g kmalloc opened pos n heap,
      0 < w.round.left ∧ w.round.pos + w.round.left = pos + len ∧
        (w.Same g ↔ g.blksz ≠ 512 ∨ w.round.pos < 2 ^ 32) := by
    intro w hw
    have hright := h.rounds w hw
    have hhidden := hright.hidden
    rw [hrun] at hw
    obtain ⟨hmem, heq⟩ := mem_writeFrom hw
    obtain ⟨-, hleft, -, hend⟩ := mem_runFrom_addressable hblk hblk' haddr hmem
    dsimp only at hend
    rw [heq] at hhidden
    unfold WriteRound.Same
    rw [heq]
    exact ⟨hleft, hend, hidden_same_iff hblk hblk' hright.round (by omega) hhidden⟩
  obtain ⟨w₀, hw₀, -⟩ := hall _ (mem_runFrom_self hlen' hlen')
  rw [or_iff_right (List.ne_nil_of_mem hw₀)]
  constructor
  · intro hsame
    by_cases hg : g.blksz = 512
    · refine Or.inr (stop_le_of_rounds (r := ⟨pos, len⟩) hblk hblk' hg (by decide) haddr hlen'
        (Nat.le_refl _) (Int.ofNat_le.mpr hle) fun t ht => ?_)
      obtain ⟨w, hw, rfl⟩ := hall t ht
      exact ((hround w hw).2.2.mp (hsame w hw)).resolve_left (not_not_intro hg)
    · exact Or.inl hg
  · intro hcond w hw
    obtain ⟨hleft, hend, hiff⟩ := hround w hw
    exact hiff.mpr (hcond.imp_right fun hstop => by omega)

end Calls

/-! ## Block addressing -/

/-- **Block addressing**, for every geometry, position and length. The requests of `vioblk_read` are
those of its rounds, and these are right if and only if the call is `InDevice`; the same for
`vioblk_write`, where the reads before the writes have to be right too. The position of such a read
has 32 bits: up to 4 GiB it is of the block that is then written. -/
theorem vioblk_addressing_iff {ζ : Type} (hblk : 512 ∣ g.blksz) (hblk' : g.blksz < 2 ^ 32)
    (s : Blk g ζ) (hpos : s.dev.pos < 2 ^ 64) (buf : Bytes) :
    ((vioblkRead buf).issued serve s).map request =
        (readRun g s.dev.opened s.dev.pos buf.length).1.map (Round.request g) ∧
      (ReadRight g s.dev.opened s.dev.pos buf.length ↔
        s.dev.opened = false ∨ buf.length = 0 ∨ InDevice g s.dev.pos buf.length) ∧
      (∀ kmalloc, ((vioblkWrite kmalloc buf).issued serve s).map request =
        (writeRun g kmalloc s.dev.opened s.dev.pos buf.length s.heap).flatMap
          (WriteRound.requests g)) ∧
      ((∀ kmalloc, WriteRight g kmalloc s.dev.opened s.dev.pos buf.length s.heap) ↔
        s.dev.opened = false ∨ buf.length = 0 ∨
          InDevice g s.dev.pos buf.length ∧ (s.dev.pos < g.size → HiddenOk g)) ∧
      ∀ kmalloc : Kmalloc ζ, (∀ heap, (kmalloc g.blksz heap).isSome) →
        WriteRight g kmalloc s.dev.opened s.dev.pos buf.length s.heap →
        ((∀ w ∈ writeRun g kmalloc s.dev.opened s.dev.pos buf.length s.heap, w.Same g) ↔
          writeRun g kmalloc s.dev.opened s.dev.pos buf.length s.heap = [] ∨ g.blksz ≠ 512 ∨
            s.dev.pos + min (asked buf.length) (g.size - s.dev.pos) ≤ 2 ^ 32) := by
  refine ⟨(vioblkRead_run answers_serve buf s rfl).1, readRight_iff hblk hblk' hpos,
    fun kmalloc => vioblkWrite_run kmalloc buf s, ⟨fun h => ?_, fun h kmalloc => ?_⟩,
    fun kmalloc halloc h => same_iff hblk hblk' halloc hpos h⟩
  · -- an allocator that never fails
    exact inDevice_of_writeRight hblk hblk' (fun _ => rfl) hpos
      (h fun n heap => some (List.Vector.replicate n 0, heap))
  · exact writeRight_of_inDevice hblk hblk' hpos h kmalloc s.heap

/-- An open device that holds zeros. -/
def blankAt (g : Geometry) (pos : Nat) : Blk g Unit where
  dev :=
    { opened := true
      pos := pos
      reqType := .tIn
      reqSector := 0
      descWrite := false
      blkbuf := List.Vector.replicate g.blksz 0
      pending := false
      disk := List.Vector.replicate g.size 0 }
  heap := ()

theorem vioblk_addressing_oneSector :
    ReadRight oneSector true 0 1 ∧ ∀ kmalloc : Kmalloc Unit, WriteRight oneSector kmalloc true 0 1 () := by
  have hin : InDevice oneSector 0 1 := by decide
  obtain ⟨-, hread, -, hwrite, -⟩ := vioblk_addressing_iff (g := oneSector) (by decide) (by decide)
    (blankAt oneSector 0) (by decide) [0]
  exact ⟨hread.mpr (Or.inr (Or.inr hin)), hwrite.mpr (Or.inr (Or.inr ⟨hin, fun _ => Or.inl rfl⟩))⟩

/-- Two blocks of 1024 bytes. -/
def largeBlocks : Geometry where
  blksz := 1024
  size := 2048
  blksz_pos := by decide
  size_sectors := by decide
  size_lt := by decide

/-- A read of the second block of 1024 bytes names sector 1, the second half of the first block. And
a read behind the end of a device of one sector makes a request. -/
theorem vioblk_read_wrong_sector :
    ((vioblkRead [0]).issued serve (blankAt largeBlocks 1024)).map request = [(1024, 1)] ∧
      1024 / largeBlocks.blksz * (largeBlocks.blksz / 512) = 2 ∧
      ((vioblkRead [0]).issued serve (blankAt oneSector 1024)).map request = [(1024, 2)] := by
  refine ⟨?_, rfl, ?_⟩
  · rw [(vioblkRead_run answers_serve [0] (blankAt largeBlocks 1024) rfl).1]
    decide +kernel
  · rw [(vioblkRead_run answers_serve [0] (blankAt oneSector 1024) rfl).1]
    decide +kernel

end Vioblk

end RiscvKernel
