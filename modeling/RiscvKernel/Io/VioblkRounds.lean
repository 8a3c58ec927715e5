import RiscvKernel.Io.VioblkSpec

/-!
# The rounds of a transfer

Which block a request of the driver names, and how many bytes of it a round of the loops takes, for
every block size and every position. The driver divides by the block size and passes the quotient as
the sector, which counts units of 512 bytes; quotient, count and boundary are `int`s, and the clamp
at the end of the device is an unsigned subtraction.

* `Round`, `runFrom`: the rounds of a loop, as a function of the position and the length alone.
* `Round.Right`: the round names the first sector of the block of its position and takes between one
  byte and what is left of the block.
* `Addressable`: the rounds that are right together with all those after them, in closed form.
-/

namespace RiscvKernel

open Lib

namespace Vioblk

/-! ## Rounds -/

/-- A round of a loop: the position, and the bytes that are left to transfer. -/
structure Round where
  pos : Nat
  left : Nat

namespace Round

variable (g : Geometry) (r : Round)

def count : Int := countOf g (sectorOf g r.pos) r.pos r.left

def next : Round := ⟨u64 (r.pos + r.count g), u64 (r.left - r.count g)⟩

/-- The copy of the round stays inside the block and inside the `room` that is left in the buffer. -/
def Fits (room : Int) : Prop :=
  0 ≤ r.count g ∧ ((r.pos % g.blksz : Nat) : Int) + r.count g ≤ g.blksz ∧ r.count g ≤ room

instance (room : Int) : Decidable (r.Fits g room) := inferInstanceAs (Decidable (_ ∧ _))

/-- The sector is the first one of the block of the position, in units of 512 bytes, and the count
is between 1 and what is left, of the transfer and of the block. -/
structure Right : Prop where
  sector : u64 (sectorOf g r.pos) = r.pos / g.blksz * (g.blksz / 512)
  pos : 1 ≤ r.count g
  left : r.count g ≤ r.left
  block : r.count g ≤ (g.blksz - r.pos % g.blksz : Nat)

end Round

/-- The rounds of a loop, up to one whose copy does not fit; and whether the loop comes to its end. -/
def runFrom (g : Geometry) : Nat → Round → Int → List Round × Bool
  | 0, r, _ => ([], r.left = 0)
  | n + 1, r, room =>
    if r.left = 0 then ([], true)
    else if r.Fits g room then
      (r :: (runFrom g n (r.next g) (room - r.count g)).1, (runFrom g n (r.next g) (room - r.count g)).2)
    else ([r], false)

/-! ## Right rounds -/

/-- With blocks of 512 bytes: the end `e` of the block of the position, and the end of the transfer.
`boundary` is `e` as an `int`, so that the comparison with it goes wrong from 2 GiB on. Where the low
half of `e` is a negative `int`, all that is left is taken at once; where it is not negative, always
the rest of the block. -/
def Addressable512 (r : Round) : Prop :=
  let e := r.pos / 512 * 512 + 512
  let stop := r.pos + r.left
  let low := e - e % 2 ^ 32 + 2 ^ 31 - 512
  stop ≤ 2 ^ 40 ∧
    (r.pos < 2 ^ 31 ∧ stop ≤ 2 ^ 31 ∨
      2 ^ 31 ≤ r.pos ∧ 2 ^ 31 ≤ e % 2 ^ 32 ∧ stop ≤ e ∨
      2 ^ 31 ≤ r.pos ∧ e % 2 ^ 32 < 2 ^ 31 ∧
        (stop % 512 = 0 ∧ stop ≤ low ∨ low < stop ∧ stop ≤ low + 512))

instance (r : Round) : Decidable (Addressable512 r) := inferInstanceAs (Decidable (_ ∧ _))

/-- The rounds that are right and lead to right ones: `Addressable512`, or for larger blocks those
in the first block, whose count is an `int`. -/
def Addressable (g : Geometry) (r : Round) : Prop :=
  if g.blksz = 512 then Addressable512 r else r.pos + r.left ≤ g.blksz ∧ r.left < 2 ^ 31

instance (g : Geometry) (r : Round) : Decidable (Addressable g r) :=
  if h : g.blksz = 512 then decidable_of_iff (Addressable512 r) (by rw [Addressable, if_pos h])
  else decidable_of_iff (r.pos + r.left ≤ g.blksz ∧ r.left < 2 ^ 31) (by rw [Addressable, if_neg h])

theorem i32_emod (x : Int) : i32 x = (x + 0x80000000) % 0x100000000 - 0x80000000 := by
  unfold i32
  rw [Int.bmod_def]
  split <;> omega

theorem u64_emod (x : Int) : (u64 x : Int) = x % 0x10000000000000000 := by
  unfold u64
  omega

variable {g : Geometry} {r : Round}

/-- A right round takes its count away. -/
theorem Round.Right.next_eq (h : r.Right g) (hpos : r.pos + g.blksz < 2 ^ 64) (hleft : r.left < 2 ^ 64) :
    ∃ c, r.count g = (c : Nat) ∧ 1 ≤ c ∧ c ≤ r.left ∧ c ≤ g.blksz - r.pos % g.blksz ∧
      r.next g = ⟨r.pos + c, r.left - c⟩ := by
  obtain ⟨-, hone, hle, hblock⟩ := h
  obtain ⟨c, hc⟩ := Int.eq_ofNat_of_zero_le (Int.le_trans Int.one_nonneg hone)
  rw [hc] at hone hle hblock
  refine ⟨c, hc, by omega, by omega, by omega, ?_⟩
  unfold Round.next
  rw [hc, u64_eq (n := r.pos + c) (by omega) (by omega), u64_eq (n := r.left - c) (by omega) (by omega)]

/-! ### Blocks of 512 bytes -/

section Blocks512

variable (hg : g.blksz = 512)

include hg

/-- The sector is right up to 2^40. -/
theorem sector_iff_512 (hpos : r.pos < 2 ^ 64) :
    u64 (sectorOf g r.pos) = r.pos / g.blksz * (g.blksz / 512) ↔ r.pos < 2 ^ 40 := by
  have hu := u64_emod (sectorOf g r.pos)
  unfold sectorOf at hu ⊢
  rw [i32_emod] at hu ⊢
  rw [hg] at hu ⊢
  omega

/-- The count, with the end of the block as an `int`. -/
theorem count_512 (hpos : r.pos < 2 ^ 40) {b c : Int}
    (hb : b = i32 (r.pos / 512 * 512 + 512 : Nat)) (hc : c = i32 r.left) :
    r.count g = if b % 0x10000000000000000 < (r.pos + c) % 0x10000000000000000 then
      ((512 - r.pos % 512 : Nat) : Int) else c := by
  have hsector : sectorOf g r.pos = (r.pos / 512 : Nat) := by
    unfold sectorOf
    rw [hg, i32_eq (by omega) (by omega)]
  have he : (((r.pos / 512 : Nat) : Int) + 1) * (512 : Nat) = (r.pos / 512 * 512 + 512 : Nat) := by
    omega
  have hbmod := hb.trans (i32_emod _)
  have hrest : i32 (b - r.pos) = (512 - r.pos % 512 : Nat) := by
    rw [i32_emod]
    omega
  unfold Round.count countOf
  rw [hsector, hg, he]
  dsimp only
  rw [← hb, ← hc, hrest]
  have hub := u64_emod b
  have hup := u64_emod (r.pos + c)
  split
  · rw [if_pos (by omega)]
  · rw [if_neg (by omega)]

/-- Below 2 GiB the count is what is left of the transfer and of the block. -/
theorem count_below (hpos : r.pos < 2 ^ 31) (hstop : r.pos + r.left ≤ 2 ^ 31) :
    r.count g = (min r.left (512 - r.pos % 512) : Nat) := by
  rw [count_512 hg (by omega) rfl rfl, i32_emod, i32_emod]
  split <;> omega

/-- Where the end of the block is a negative `int`, the count is all that is left, as an `int`. -/
theorem count_high (hpos : 2 ^ 31 ≤ r.pos) (hpos' : r.pos < 2 ^ 40)
    (hhigh : 2 ^ 31 ≤ (r.pos / 512 * 512 + 512) % 2 ^ 32) : r.count g = i32 r.left := by
  rw [count_512 hg hpos' rfl rfl, if_neg]
  rw [i32_emod, i32_emod]
  omega

/-- Where it is not, the rest of the block. -/
theorem count_low (hpos : 2 ^ 31 ≤ r.pos) (hpos' : r.pos < 2 ^ 40)
    (hlow : (r.pos / 512 * 512 + 512) % 2 ^ 32 < 2 ^ 31) :
    r.count g = (512 - r.pos % 512 : Nat) := by
  rw [count_512 hg hpos' rfl rfl, if_pos]
  rw [i32_emod, i32_emod]
  omega

/-- A round in one of these regions is right, and so are the rounds after it. -/
theorem Addressable512.right (h : Addressable512 r) (hleft : 0 < r.left) :
    r.Right g ∧ ((r.next g).left = 0 ∨ Addressable512 (r.next g)) := by
  obtain ⟨hstop, hcase⟩ := h
  have hpos : r.pos < 2 ^ 40 := by omega
  obtain ⟨c, hc, hone, hle, hblock, hrest⟩ : ∃ c : Nat, r.count g = c ∧ 1 ≤ c ∧ c ≤ r.left ∧
      c ≤ 512 - r.pos % 512 ∧ (r.left - c = 0 ∨ Addressable512 ⟨r.pos + c, r.left - c⟩) := by
    unfold Addressable512
    dsimp only
    obtain ⟨h₁, h₂⟩ | ⟨h₁, h₂, h₃⟩ | ⟨h₁, h₂, h₃⟩ := hcase
    · exact ⟨_, count_below hg h₁ h₂, by omega, by omega, by omega, by omega⟩
    · refine ⟨r.left, ?_, by omega, by omega, by omega, by omega⟩
      rw [count_high hg h₁ hpos h₂, i32_eq (by omega) (by omega)]
    · exact ⟨_, count_low hg h₁ hpos h₂, by omega, by omega, by omega, by omega⟩
  have hright : r.Right g := by
    refine ⟨(sector_iff_512 hg (by omega)).mpr hpos, ?_, ?_, ?_⟩
    · rw [hc]
      omega
    · rw [hc]
      omega
    · rw [hc, hg]
      omega
  obtain ⟨c', hc', -, -, -, hnext⟩ := hright.next_eq (by omega) (by omega)
  obtain rfl : c = c' := by omega
  rw [hnext]
  exact ⟨hright, hrest⟩

/-- A right round that is not in one of them leads to a round that is not. -/
theorem not_addressable512_next (h : ¬Addressable512 r) (hright : r.Right g) (hpos : r.pos < 2 ^ 64)
    (hleft : r.left < 2 ^ 64) : 0 < (r.next g).left ∧ ¬Addressable512 (r.next g) := by
  have hpos' : r.pos < 2 ^ 40 := (sector_iff_512 hg hpos).mp hright.sector
  obtain ⟨c, hc, hone, hle, hblock, hnext⟩ := hright.next_eq (by omega) hleft
  rw [hg] at hblock
  rw [hnext]
  unfold Addressable512 at h ⊢
  dsimp only at h ⊢
  obtain hlt | hge := Nat.lt_or_ge r.pos (2 ^ 31)
  · rw [count_512 hg hpos' rfl rfl, i32_emod, i32_emod] at hc
    split at hc <;> omega
  · obtain hhigh | hlow := Nat.lt_or_ge ((r.pos / 512 * 512 + 512) % 2 ^ 32) (2 ^ 31)
    · rw [count_low hg hge hpos' hhigh] at hc
      omega
    · rw [count_high hg hge hpos' hlow, i32_emod] at hc
      omega

end Blocks512

/-! ### Larger blocks -/

section Large

variable {k : Nat} (hk : 1 < k) (hg : g.blksz = 512 * k) (hsize : g.blksz < 2 ^ 32)

include hg

/-- The sector is right in the first block only. -/
theorem sector_iff_large (hk : 1 < k) (hpos : r.pos < 2 ^ 64) :
    u64 (sectorOf g r.pos) = r.pos / g.blksz * (g.blksz / 512) ↔ r.pos < g.blksz := by
  have hu := u64_emod (sectorOf g r.pos)
  have hdiv : g.blksz / 512 = k := by omega
  have hle : r.pos / g.blksz * k ≤ r.pos / 512 := by
    rw [hg, ← Nat.div_div_eq_div_mul]
    exact Nat.div_mul_le_self _ _
  unfold sectorOf at hu ⊢
  rw [i32_emod] at hu ⊢
  rw [hdiv]
  generalize hq : r.pos / g.blksz = q at *
  have hfirst : r.pos < g.blksz ↔ q = 0 := by
    rw [← hq, Nat.div_eq_zero_iff]
    have := g.blksz_pos
    omega
  rw [hfirst]
  constructor
  · -- in a later block the sector should be at least twice the quotient
    intro heq
    by_contra hne
    have hmul : q * 2 ≤ q * k := Nat.mul_le_mul_left q hk
    omega
  · rintro rfl
    omega

omit hg

/-- The count in the first block. -/
theorem count_large (hpos : r.pos < g.blksz) {b c : Int} (hb : b = i32 g.blksz) (hc : c = i32 r.left) :
    r.count g = if b % 0x10000000000000000 < (r.pos + c) % 0x10000000000000000 then
      i32 (b - r.pos) else c := by
  have hsector : sectorOf g r.pos = 0 := by
    unfold sectorOf
    rw [Nat.div_eq_of_lt hpos]
    exact i32_eq (by decide) (by decide)
  unfold Round.count countOf
  rw [hsector, Int.zero_add, Int.one_mul, ← hb, ← hc]
  dsimp only
  have hub := u64_emod b
  have hup := u64_emod (r.pos + c)
  split
  · rw [if_pos (by omega)]
  · rw [if_neg (by omega)]

include hg hk hsize

/-- A transfer in the first block that is an `int` is done in one round. -/
theorem right_large (hstop : r.pos + r.left ≤ g.blksz) (hint : r.left < 2 ^ 31) (hleft : 0 < r.left) :
    r.Right g ∧ (r.next g).left = 0 := by
  have hpos : r.pos < g.blksz := by omega
  have hbound := i32_emod g.blksz
  have hint' : i32 r.left = r.left := i32_eq (by omega) (by omega)
  have hc : r.count g = r.left := by
    rw [count_large hpos rfl hint'.symm, if_neg (by omega)]
  have hright : r.Right g := by
    refine ⟨(sector_iff_large hg hk (by omega)).mpr hpos, ?_, ?_, ?_⟩
    · rw [hc]
      omega
    · rw [hc]
    · rw [hc, Nat.mod_eq_of_lt hpos]
      omega
  obtain ⟨c', hc', -, -, -, hnext⟩ := hright.next_eq (by omega) (by omega)
  rw [hnext]
  exact ⟨hright, by dsimp only; omega⟩

/-- Any other right round leads to one that is not of this kind. -/
theorem not_addressable_next_large (h : ¬(r.pos + r.left ≤ g.blksz ∧ r.left < 2 ^ 31))
    (hright : r.Right g) (hpos : r.pos < 2 ^ 64) (hleft : r.left < 2 ^ 64) :
    0 < (r.next g).left ∧
      ¬((r.next g).pos + (r.next g).left ≤ g.blksz ∧ (r.next g).left < 2 ^ 31) := by
  have hpos' : r.pos < g.blksz := (sector_iff_large hg hk hpos).mp hright.sector
  obtain ⟨c, hc, hone, hle, hblock, hnext⟩ := hright.next_eq (by omega) hleft
  rw [Nat.mod_eq_of_lt hpos'] at hblock
  rw [hnext]
  dsimp only
  obtain hin | hout := Nat.lt_or_ge g.blksz (r.pos + r.left)
  · -- the end of the transfer stays where it is
    omega
  · -- what is left is a negative `int`, and so is the end of the block, which is not before it
    have hbound := i32_emod g.blksz
    have hcount := i32_emod r.left
    rw [count_large hpos' rfl rfl] at hc
    generalize i32 g.blksz = b at *
    generalize i32 r.left = c₀ at *
    have hneg : c₀ < 0 := by omega
    rw [if_neg (by omega)] at hc
    omega

end Large

/-! ## All rounds -/

variable (hblk : 512 ∣ g.blksz) (hblk' : g.blksz < 2 ^ 32)

include hblk hblk'

theorem Addressable.right (h : Addressable g r) (hleft : 0 < r.left) :
    r.Right g ∧ ((r.next g).left = 0 ∨ Addressable g (r.next g)) := by
  unfold Addressable at h ⊢
  split at h
  · next hg =>
    rw [if_pos hg]
    exact h.right hg hleft
  · next hg =>
    obtain ⟨k, hk⟩ := hblk
    have := g.blksz_pos
    obtain ⟨hright, hnext⟩ := right_large (k := k) (by omega) hk hblk' h.1 h.2 hleft
    exact ⟨hright, Or.inl hnext⟩

theorem not_addressable_next (h : ¬Addressable g r) (hright : r.Right g) (hpos : r.pos < 2 ^ 64)
    (hleft : r.left < 2 ^ 64) : 0 < (r.next g).left ∧ ¬Addressable g (r.next g) := by
  unfold Addressable at h ⊢
  split at h
  · next hg =>
    rw [if_pos hg]
    exact not_addressable512_next hg h hright hpos hleft
  · next hg =>
    obtain ⟨k, hk⟩ := hblk
    have := g.blksz_pos
    rw [if_neg hg]
    exact not_addressable_next_large (k := k) (by omega) hk hblk' h hright hpos hleft

omit hblk hblk'

theorem Round.Right.fits (h : r.Right g) {room : Int} (hroom : (r.left : Int) ≤ room) :
    r.Fits g room := by
  have hone := h.pos
  have hle := h.left
  have hblock := h.block
  have hmod := Nat.mod_lt r.pos g.blksz_pos
  exact ⟨by omega, by omega, by omega⟩

theorem Round.next_lt (g : Geometry) (r : Round) :
    (r.next g).pos < 2 ^ 64 ∧ (r.next g).left < 2 ^ 64 :=
  ⟨u64_lt _, u64_lt _⟩

include hblk hblk'

/-- **All rounds of a loop are right** if and only if the first one is `Addressable`. Induction on
the rounds left; what is left shrinks with each right round. -/
theorem runFrom_right_iff {n : Nat} {room : Int} (hn : r.left ≤ n) (hroom : (r.left : Int) ≤ room)
    (hpos : r.pos < 2 ^ 64) (hleft : r.left < 2 ^ 64) :
    (∀ t ∈ (runFrom g n r room).1, t.Right g) ↔ r.left = 0 ∨ Addressable g r := by
  induction n generalizing r room with
  | zero =>
    have hzero : r.left = 0 := by omega
    exact iff_of_true nofun (Or.inl hzero)
  | succ n ih =>
    unfold runFrom
    by_cases hzero : r.left = 0
    · rw [if_pos hzero]
      exact iff_of_true nofun (Or.inl hzero)
    rw [if_neg hzero]
    have hleft₀ : 0 < r.left := Nat.pos_of_ne_zero hzero
    -- a right round leaves less, and room for it
    have hstep : r.Right g → ((∀ t ∈ (runFrom g n (r.next g) (room - r.count g)).1, t.Right g) ↔
        (r.next g).left = 0 ∨ Addressable g (r.next g)) := by
      intro hright
      obtain ⟨hpos', hleft'⟩ := r.next_lt g
      have hone := hright.pos
      have hle := hright.left
      have hnext : ((r.next g).left : Int) = r.left - r.count g :=
        (u64_emod _).trans (Int.emod_eq_of_lt (by omega) (by omega))
      exact ih (by omega) (by omega) hpos' hleft'
    constructor
    · intro hall
      refine Or.inr (by_contra fun hnot => ?_)
      have hright : r.Right g := by
        split at hall
        · exact hall r List.mem_cons_self
        · exact hall r List.mem_cons_self
      rw [if_pos (hright.fits hroom)] at hall
      obtain ⟨hmore, hnot'⟩ := not_addressable_next hblk hblk' hnot hright hpos hleft
      obtain hend | hnext := (hstep hright).mp fun t ht => hall t (List.mem_cons_of_mem r ht)
      · omega
      · exact hnot' hnext
    · intro hcond
      obtain ⟨hright, hnext⟩ := (hcond.resolve_left hzero).right hblk hblk' hleft₀
      rw [if_pos (hright.fits hroom)]
      exact List.forall_mem_cons.mpr ⟨hright, (hstep hright).mpr hnext⟩

/-- The same for the loop of a call, which has a round for each byte. -/
theorem runFrom_start_iff {p len room : Nat} (hlen : 0 < len) (hroom : len ≤ room)
    (hp : p < 2 ^ 64) (hlen' : len < 2 ^ 64) :
    (∀ t ∈ (runFrom g len ⟨p, len⟩ room).1, t.Right g) ↔ Addressable g ⟨p, len⟩ := by
  rw [runFrom_right_iff (r := ⟨p, len⟩) hblk hblk' (Nat.le_refl _) (Int.ofNat_le.mpr hroom) hp hlen']
  exact or_iff_right (Nat.ne_of_gt hlen)

omit hblk hblk'

/-- A loop all of whose rounds are right comes to its end. -/
theorem runFrom_complete {n : Nat} {room : Int} (hn : r.left ≤ n) (hroom : (r.left : Int) ≤ room)
    (h : ∀ t ∈ (runFrom g n r room).1, t.Right g) (hleft : r.left < 2 ^ 64) :
    (runFrom g n r room).2 = true := by
  induction n generalizing r room with
  | zero => exact decide_eq_true (by omega)
  | succ n ih =>
    unfold runFrom at h ⊢
    by_cases hzero : r.left = 0
    · rw [if_pos hzero]
    rw [if_neg hzero] at h ⊢
    have hright : r.Right g := by
      split at h
      · exact h r List.mem_cons_self
      · exact h r List.mem_cons_self
    rw [if_pos (hright.fits hroom)] at h ⊢
    have hone := hright.pos
    have hle := hright.left
    have hnext : ((r.next g).left : Int) = r.left - r.count g :=
      (u64_emod _).trans (Int.emod_eq_of_lt (by omega) (by omega))
    exact ih (by omega) (by omega) (fun t ht => h t (List.mem_cons_of_mem r ht)) (r.next_lt g).2

/-- A round that takes nothing is repeated until the bound on the rounds is reached. -/
theorem runFrom_stuck {n : Nat} {room : Int} (hcount : r.count g = 0) (hleft : r.left ≠ 0)
    (hpos : r.pos < 2 ^ 64) (hleft' : r.left < 2 ^ 64) : (runFrom g n r room).2 = false := by
  have hnext : r.next g = r := by
    unfold Round.next
    rw [hcount, Int.add_zero, Int.sub_zero, u64_eq rfl hpos, u64_eq rfl hleft']
  induction n generalizing room with
  | zero => exact decide_eq_false hleft
  | succ n ih =>
    unfold runFrom
    rw [if_neg hleft]
    split
    · rw [hnext]
      exact ih
    · rfl

/-- In a loop that comes to its end every round takes something. -/
theorem runFrom_count_pos {n : Nat} {room : Int} (hpos : r.pos < 2 ^ 64) (hleft : r.left < 2 ^ 64)
    (h : (runFrom g n r room).2 = true) : ∀ t ∈ (runFrom g n r room).1, 1 ≤ t.count g := by
  induction n generalizing r room with
  | zero => exact nofun
  | succ n ih =>
    by_cases hcount : r.left ≠ 0 ∧ r.count g = 0
    · rw [runFrom_stuck hcount.2 hcount.1 hpos hleft] at h
      cases h
    unfold runFrom at h ⊢
    by_cases hzero : r.left = 0
    · rw [if_pos hzero]
      exact nofun
    rw [if_neg hzero] at h ⊢
    split at h
    · next hfits =>
      rw [if_pos hfits]
      have hge := hfits.1
      have hone : 1 ≤ r.count g := by
        have hne : r.count g ≠ 0 := fun h => hcount ⟨hzero, h⟩
        omega
      exact List.forall_mem_cons.mpr ⟨hone, ih (r.next_lt g).1 (r.next_lt g).2 h⟩
    · cases h

end Vioblk

end RiscvKernel
