import RiscvKernel.Fs.Image

/-!
# Positions and lengths of the three kinds of objects

`io.h` says of `IOCTL_GETLEN`, `IOCTL_GETPOS` and `IOCTL_SETPOS` that the argument is a pointer to a
`uint64_t`. The block device reads and writes 64 bits there; files and `io_lit` an `int`.

* `positions_carried_iff`: for which values, and for which previous contents of the argument, this
  makes no difference.

`io_lit` stands in for the block device under a file system, which sets the position before each
transfer. As a file of its own it does not advance, it reports an error where a file ends, and it
compares the length with a difference that wraps.

* `lit_as_file_iff`: which successive reads are those of a file, and at which positions a transfer
  stays inside the buffer.
-/

namespace RiscvKernel

open Lib

namespace Kfs

/-! ## Requests through the argument -/

section Carried

variable {σ : Type} (ctl : Nat → Nat → Prog σ KLock KCond (Int × Nat)) (serve : σ → Option σ)

/-- The position `p` is set, and read back into an argument that held `arg`. -/
def CarriesPos (s : σ) (p arg : Nat) : Prop :=
  ∃ r s₁ r' s₂, (ctl IOCTL_SETPOS p).exec serve s = some (r, s₁) ∧
    (ctl IOCTL_GETPOS arg).exec serve s₁ = some ((r', p), s₂)

/-- The length is read into an argument that held `arg`. -/
def CarriesLen (s : σ) (len arg : Nat) : Prop :=
  ∃ r s', (ctl IOCTL_GETLEN arg).exec serve s = some ((r, len), s')

variable {ctl serve}

theorem carriesPos_iff {s s₁ s₂ : σ} {p arg q : Nat} {r : Int × Nat} {r' : Int}
    (hset : (ctl IOCTL_SETPOS p).exec serve s = some (r, s₁))
    (hget : (ctl IOCTL_GETPOS arg).exec serve s₁ = some ((r', q), s₂)) :
    CarriesPos ctl serve s p arg ↔ q = p := by
  constructor
  · rintro ⟨_, _, _, _, hset', hget'⟩
    cases hset.symm.trans hset'
    cases hget.symm.trans hget'
    rfl
  · rintro rfl
    exact ⟨_, _, _, _, hset, hget⟩

theorem carriesLen_iff {s s' : σ} {len arg q : Nat} {r : Int}
    (hget : (ctl IOCTL_GETLEN arg).exec serve s = some ((r, q), s')) :
    CarriesLen ctl serve s len arg ↔ q = len := by
  constructor
  · rintro ⟨_, _, hget'⟩
    cases hget.symm.trans hget'
    rfl
  · rintro rfl
    exact ⟨_, _, hget⟩

end Carried

/-- An `int` that is stored leaves the upper half of the argument as it was. -/
theorem storeInt_eq_iff (arg n : Nat) : storeInt arg n = n ↔ arg / 2 ^ 32 = n / 2 ^ 32 := by
  unfold storeInt u32
  omega

/-- A position goes through an `int` twice, and its lower half stays what it is. -/
theorem storeInt_setpos (arg p : Nat) : storeInt arg (u64 (i32 p)) = storeInt arg p := by
  unfold storeInt u32 u64 i32
  rw [Int.bmod_def]
  split <;> omega

variable {β ζ : Type} {mt : Mounted} {io : Nat} {slot : Fin MAX_OPEN_FILE_CT}

theorem fsIoctl_carriesPos_iff (serve : β → Option β) (hslot : lastSlot mt io = some slot)
    (s : FsState β) (p arg : Nat) :
    CarriesPos (fsIoctl mt io) (fsServe serve) s p arg ↔ arg / 2 ^ 32 = p / 2 ^ 32 := by
  rw [carriesPos_iff (exec_fsIoctl_setpos hslot) (exec_fsIoctl_getpos hslot)]
  dsimp only
  rw [Function.update_self, storeInt_setpos, storeInt_eq_iff]

theorem fsIoctl_carriesLen_iff (serve : β → Option β) (hslot : lastSlot mt io = some slot)
    (s : FsState β) (arg : Nat) :
    CarriesLen (fsIoctl mt io) (fsServe serve) s (mt.slots slot).fileSize arg ↔
      arg / 2 ^ 32 = (mt.slots slot).fileSize / 2 ^ 32 := by
  have hget : (fsIoctl mt io IOCTL_GETLEN arg).exec (fsServe serve) s =
      some ((i32 (mt.slots slot).fileSize, storeInt arg (mt.slots slot).fileSize), s) := by
    unfold fsIoctl
    rw [hslot]
    rfl
  rw [carriesLen_iff hget, storeInt_eq_iff]

theorem iolitCtl_carriesPos_iff (serve : LitState ζ → Option (LitState ζ)) (b : LitState ζ)
    (p arg : Nat) :
    CarriesPos Lit.iolitCtl serve b p arg ↔ arg / 2 ^ 32 = p / 2 ^ 32 := by
  have hget : (Lit.iolitCtl IOCTL_GETPOS arg).exec serve (Lit.setPos (u64 (i32 p)) b) =
      some ((i32 (u64 (i32 p)), storeInt arg (u64 (i32 p))), Lit.setPos (u64 (i32 p)) b) := rfl
  rw [carriesPos_iff (Lit.exec_iolitCtl_setpos p) hget, storeInt_setpos, storeInt_eq_iff]

theorem iolitCtl_carriesLen_iff (serve : LitState ζ → Option (LitState ζ)) (b : LitState ζ)
    (arg : Nat) :
    CarriesLen Lit.iolitCtl serve b b.lit.size arg ↔ arg / 2 ^ 32 = b.lit.size / 2 ^ 32 := by
  have hget : (Lit.iolitCtl IOCTL_GETLEN arg).exec serve b =
      some ((i32 b.lit.size, storeInt arg b.lit.size), b) := rfl
  rw [carriesLen_iff hget, storeInt_eq_iff]

theorem vioblkIoctl_carries {g : Geometry} (serve : Blk g ζ → Option (Blk g ζ)) (d : Blk g ζ)
    (p arg : Nat) :
    CarriesPos Vioblk.vioblkIoctl serve d p arg ∧
      CarriesLen Vioblk.vioblkIoctl serve d g.size arg :=
  ⟨⟨_, _, _, _, rfl, rfl⟩, _, _, rfl⟩

/-- The requests of the block device carry 64 bits. Those of a file and of an `io_lit` carry 32: what
they store is right just if the upper half of it was in the argument before. -/
theorem positions_carried_iff {g : Geometry} (serve : β → Option β)
    (serveLit : LitState ζ → Option (LitState ζ)) (serveBlk : Blk g ζ → Option (Blk g ζ))
    (hslot : lastSlot mt io = some slot) (s : FsState β) (b : LitState ζ) (d : Blk g ζ)
    (p arg : Nat) :
    ((CarriesPos (fsIoctl mt io) (fsServe serve) s p arg ↔ arg / 2 ^ 32 = p / 2 ^ 32) ∧
      (CarriesLen (fsIoctl mt io) (fsServe serve) s (mt.slots slot).fileSize arg ↔
        arg / 2 ^ 32 = (mt.slots slot).fileSize / 2 ^ 32)) ∧
    ((CarriesPos Lit.iolitCtl serveLit b p arg ↔ arg / 2 ^ 32 = p / 2 ^ 32) ∧
      (CarriesLen Lit.iolitCtl serveLit b b.lit.size arg ↔
        arg / 2 ^ 32 = b.lit.size / 2 ^ 32)) ∧
    CarriesPos Vioblk.vioblkIoctl serveBlk d p arg ∧
      CarriesLen Vioblk.vioblkIoctl serveBlk d g.size arg :=
  ⟨⟨fsIoctl_carriesPos_iff serve hslot s p arg, fsIoctl_carriesLen_iff serve hslot s arg⟩,
    ⟨iolitCtl_carriesPos_iff serveLit b p arg, iolitCtl_carriesLen_iff serveLit b arg⟩,
    vioblkIoctl_carries serveBlk d p arg⟩

theorem lastSlot_mountedAbc : lastSlot mountedAbc 0 = some ⟨0, by decide⟩ := by decide

/-- With an argument that was zero before, a small position is carried. -/
theorem positions_carried_abc :
    CarriesPos (fsIoctl mountedAbc 0) (fsServe fun _ => none) openAbc 2 0 :=
  (positions_carried_iff (g := Vioblk.oneSector) (fun _ => none) (fun _ => none)
    (fun _ => none) lastSlot_mountedAbc openAbc openAbc.below Vioblk.nearEnd 2 0).1.1.mpr rfl

/-- With an argument that was not, the length and the position of a file of three bytes have the
old upper half; and a position from 4 GiB on loses its own. -/
theorem positions_not_carried_abc :
    ¬ CarriesLen (fsIoctl mountedAbc 0) (fsServe fun _ => none) openAbc 3 (2 ^ 64 - 1) ∧
      ¬ CarriesPos (fsIoctl mountedAbc 0) (fsServe fun _ => none) openAbc 2 (2 ^ 64 - 1) ∧
      ¬ CarriesPos Lit.iolitCtl (fun _ => none) openAbc.below (2 ^ 32) 0 := by
  refine ⟨?_, ?_, ?_⟩
  · exact fun h => absurd ((fsIoctl_carriesLen_iff _ lastSlot_mountedAbc _ _).mp h) (by decide)
  · exact fun h => absurd ((fsIoctl_carriesPos_iff _ lastSlot_mountedAbc _ _ _).mp h) (by decide)
  · exact fun h => absurd ((iolitCtl_carriesPos_iff _ _ _ _).mp h) (by decide)

/-! ## An `io_lit` as a file -/

namespace Lit

variable {serve : LitState ζ → Option (LitState ζ)}

/-- What `iolit_init` makes of a buffer. -/
def iolitInit (data : Bytes) (heap : ζ) : LitState ζ := ⟨⟨data, data.length, 0⟩, heap⟩

/-- The comparison of `iolit_read` and `iolit_write` lets `n` bytes pass. -/
def Passes (l : IoLit) (n : Nat) : Prop := n ≤ u64 ((l.size : Int) - l.pos)

instance (l : IoLit) (n : Nat) : Decidable (Passes l n) := inferInstanceAs (Decidable (_ ≤ _))

/-- The count of a transfer that passes is returned as a `long`. -/
theorem Passes.count {l : IoLit} {n : Nat} (h : Passes l n) : i64 n < 0 ∨ i64 n = n := by
  have hlt : n < 2 ^ 64 := Nat.lt_of_le_of_lt h (u64_lt _)
  rcases Nat.lt_or_ge n (2 ^ 63) with hsmall | hbig
  · exact Or.inr (i64_eq (by omega) (by omega))
  · exact Or.inl (i64_of_ge hbig hlt)

/-- What `ioread_full` does with a buffer that is not empty: one call of `iolit_read`. -/
theorem exec_ioreadFull (b : LitState ζ) {buf : Bytes} (hbuf : 0 < buf.length) :
    (Lit.io.ioreadFull buf).exec serve b =
      if Passes b.lit buf.length then
        if b.lit.pos + buf.length ≤ b.lit.buf.length then
          some ((i64 buf.length, slice b.lit.buf b.lit.pos buf.length), b)
        else none
      else some ((-EFILESYS, buf), b) := by
  by_cases hpass : Passes b.lit buf.length
  · have hgo : ¬ u64 ((b.lit.size : Int) - b.lit.pos) < buf.length := Nat.not_lt.mpr hpass
    rw [if_pos hpass]
    by_cases hin : b.lit.pos + buf.length ≤ b.lit.buf.length
    · rw [if_pos hin]
      refine IoIntf.exec_ioreadFull hbuf ?_ (length_slice hin) hpass.count
      show (iolitRead buf).exec serve b = _
      unfold iolitRead
      rw [Prog.exec_get_bind, if_neg hgo, Prog.exec_assert_bind hin]
      rfl
    · rw [if_neg hin]
      refine IoIntf.exec_ioreadFull_none hbuf ?_
      show (iolitRead buf).exec serve b = _
      unfold iolitRead
      rw [Prog.exec_get_bind, if_neg hgo, Prog.exec_assert_bind_not hin]
  · have hstop : u64 ((b.lit.size : Int) - b.lit.pos) < buf.length := Nat.lt_of_not_le hpass
    rw [if_neg hpass]
    have hread : (iolitRead buf).exec serve b = some ((-EFILESYS, buf), b) := by
      unfold iolitRead
      rw [Prog.exec_get_bind, if_pos hstop]
      rfl
    exact IoIntf.exec_ioreadFull hbuf hread rfl (.inl (by decide))

/-- An `iowrite` that is not empty stops the model where it leaves the buffer. -/
theorem exec_iowrite_isSome (b : LitState ζ) {buf : Bytes} (hbuf : 0 < buf.length) :
    ((Lit.io.iowrite buf).exec serve b).isSome ↔
      (Passes b.lit buf.length → b.lit.pos + buf.length ≤ b.lit.buf.length) := by
  by_cases hpass : Passes b.lit buf.length
  · have hgo : ¬ u64 ((b.lit.size : Int) - b.lit.pos) < buf.length := Nat.not_lt.mpr hpass
    by_cases hin : b.lit.pos + buf.length ≤ b.lit.buf.length
    · refine iff_of_true ?_ fun _ => hin
      have hwrite : (iolitWrite buf).exec serve b = some (i64 buf.length,
          { b with lit := { b.lit with buf := patch b.lit.buf b.lit.pos buf } }) := by
        unfold iolitWrite
        rw [Prog.exec_get_bind, if_neg hgo, Prog.exec_assert_bind hin]
        rfl
      exact Option.isSome_of_eq_some (IoIntf.exec_iowrite hbuf hwrite hpass.count)
    · refine iff_of_false ?_ fun h => hin (h hpass)
      have hwrite : (iolitWrite buf).exec serve b = none := by
        unfold iolitWrite
        rw [Prog.exec_get_bind, if_neg hgo, Prog.exec_assert_bind_not hin]
      have hnone : (Lit.io.iowrite buf).exec serve b = none := IoIntf.exec_iowrite_none hbuf hwrite
      rw [hnone]
      exact Bool.false_ne_true
  · refine iff_of_true ?_ fun h => absurd h hpass
    have hstop : u64 ((b.lit.size : Int) - b.lit.pos) < buf.length := Nat.lt_of_not_le hpass
    have hwrite : (iolitWrite buf).exec serve b = some (-EFILESYS, b) := by
      unfold iolitWrite
      rw [Prog.exec_get_bind, if_pos hstop]
      rfl
    exact Option.isSome_of_eq_some (IoIntf.exec_iowrite hbuf hwrite (.inl (by decide)))

/-! ### Successive reads -/

/-- One `ioread_full` after the other. -/
def readAll : List Bytes → Code ζ (List (Int × Bytes))
  | [] => .ret []
  | buf :: bufs => do
    let r ← Lit.io.ioreadFull buf
    let rs ← readAll bufs
    return r :: rs

/-- What reads of these lengths deliver of a file, from position `p` on. -/
def fileReads (data : Bytes) : Nat → List Nat → List Bytes
  | _, [] => []
  | p, n :: ns => slice data p n :: fileReads data (p + (slice data p n).length) ns

/-- A read returns the length of the piece, and has it in its buffer. -/
def Delivers (r : Int × Bytes) (piece : Bytes) : Prop :=
  r.1 = piece.length ∧ r.2.take piece.length = piece

/-- The reads into these buffers are those of a file. -/
def ReadsAsFile (serve : LitState ζ → Option (LitState ζ)) (b : LitState ζ) (data : Bytes)
    (bufs : List Bytes) : Prop :=
  ∃ rs b', (readAll bufs).exec serve b = some (rs, b') ∧
    List.Forall₂ Delivers rs (fileReads data 0 (bufs.map List.length))

/-- What a read of a fresh `io_lit` comes to, however many there were before. -/
def readResult (data buf : Bytes) : Int × Bytes :=
  if buf.length = 0 then (0, buf)
  else if buf.length ≤ data.length then (i64 buf.length, data.take buf.length)
  else (-EFILESYS, buf)

theorem exec_ioreadFull_init {data : Bytes} (hdata : data.length < 2 ^ 64) (heap : ζ) (buf : Bytes) :
    (Lit.io.ioreadFull buf).exec serve (iolitInit data heap) =
      some (readResult data buf, iolitInit data heap) := by
  rcases Nat.eq_zero_or_pos buf.length with h0 | hbuf
  · obtain rfl := List.length_eq_zero_iff.mp h0
    rfl
  · have hpass : Passes (iolitInit data heap).lit buf.length ↔ buf.length ≤ data.length := by
      show buf.length ≤ u64 ((data.length : Int) - (0 : Nat)) ↔ _
      rw [u64_eq (n := data.length) (by omega) hdata]
    rw [exec_ioreadFull _ hbuf, readResult, if_neg (Nat.ne_of_gt hbuf)]
    by_cases hin : buf.length ≤ data.length
    · rw [if_pos (hpass.mpr hin), if_pos hin]
      exact if_pos ((Nat.zero_add _).trans_le hin)
    · rw [if_neg (mt hpass.mp hin), if_neg hin]

theorem exec_readAll_init {data : Bytes} (hdata : data.length < 2 ^ 64) (heap : ζ)
    (bufs : List Bytes) :
    (readAll bufs).exec serve (iolitInit data heap) =
      some (bufs.map (readResult data), iolitInit data heap) := by
  induction bufs with
  | nil => rfl
  | cons buf bufs ih =>
    unfold readAll
    rw [Prog.exec_bind_of_eq (exec_ioreadFull_init hdata heap buf), Prog.exec_bind_of_eq ih]
    rfl

/-- A read delivers the beginning of the buffer or nothing. -/
theorem delivers_iff {data : Bytes} (hdata : data.length < 2 ^ 64) (buf : Bytes) (p : Nat) :
    Delivers (readResult data buf) (slice data p buf.length) ↔
      buf.length = 0 ∨ buf.length < 2 ^ 63 ∧ p + buf.length ≤ data.length ∧
        slice data p buf.length = data.take buf.length := by
  have hlen : (slice data p buf.length).length = min buf.length (data.length - p) := by
    rw [slice, List.length_take, List.length_drop]
  unfold Delivers readResult
  by_cases h0 : buf.length = 0
  · rw [if_pos h0, h0, slice_zero]
    exact iff_of_true ⟨rfl, rfl⟩ (.inl rfl)
  rw [if_neg h0, hlen]
  by_cases hin : buf.length ≤ data.length
  · rw [if_pos hin]
    dsimp only
    constructor
    · rintro ⟨hcount, hbytes⟩
      have hsmall : buf.length < 2 ^ 63 := by
        by_contra hbig
        have := i64_of_ge (Nat.le_of_not_lt hbig) (by omega)
        omega
      rw [i64_eq (by omega) (by omega)] at hcount
      have hfits : min buf.length (data.length - p) = buf.length := by omega
      rw [hfits, List.take_take, Nat.min_self] at hbytes
      exact Or.inr ⟨hsmall, by omega, hbytes.symm⟩
    · rintro (h | ⟨hsmall, hfits, hbytes⟩)
      · exact absurd h h0
      · have hmin : min buf.length (data.length - p) = buf.length := by omega
        rw [hmin, i64_eq (by omega) (by omega), List.take_take, Nat.min_self]
        exact ⟨rfl, hbytes.symm⟩
  · rw [if_neg hin]
    refine iff_of_false (fun h => ?_) (by omega)
    have hneg : -EFILESYS < 0 := by decide
    have := h.1
    dsimp only at this
    omega

/-- The reads from `p` on, one condition for each. Induction on the reads. -/
theorem forall₂_delivers_iff {data : Bytes} (hdata : data.length < 2 ^ 64) (bufs : List Bytes)
    (p : Nat) :
    List.Forall₂ Delivers (bufs.map (readResult data)) (fileReads data p (bufs.map List.length)) ↔
      ∀ i n, (bufs.map List.length)[i]? = some n → n = 0 ∨ n < 2 ^ 63 ∧
        p + ((bufs.map List.length).take i).sum + n ≤ data.length ∧
        slice data (p + ((bufs.map List.length).take i).sum) n = data.take n := by
  induction bufs generalizing p with
  | nil => simp [fileReads]
  | cons buf bufs ih =>
    simp only [List.map_cons, fileReads, List.forall₂_cons, delivers_iff hdata]
    -- a read that is right leaves the file where its length says
    have hnext : (buf.length = 0 ∨ buf.length < 2 ^ 63 ∧ p + buf.length ≤ data.length ∧
          slice data p buf.length = data.take buf.length) →
        (slice data p buf.length).length = buf.length := by
      rintro (h0 | ⟨-, hfits, -⟩)
      · rw [h0, slice_zero]
        rfl
      · exact length_slice hfits
    constructor
    · rintro ⟨hhead, htail⟩ i n hi
      cases i with
      | zero =>
        cases hi
        exact hhead
      | succ i =>
        rw [hnext hhead, ih] at htail
        rw [List.take_succ_cons, List.sum_cons, ← Nat.add_assoc]
        exact htail i n hi
    · intro h
      have hhead := h 0 buf.length rfl
      rw [List.take_zero, List.sum_nil, Nat.add_zero] at hhead
      refine ⟨hhead, ?_⟩
      rw [hnext hhead, ih]
      intro i n hi
      have htail := h (i + 1) n hi
      rw [List.take_succ_cons, List.sum_cons, ← Nat.add_assoc] at htail
      exact htail

theorem readsAsFile_iff {data : Bytes} (hdata : data.length < 2 ^ 64) (heap : ζ)
    (bufs : List Bytes) :
    ReadsAsFile serve (iolitInit data heap) data bufs ↔
      ∀ i n, (bufs.map List.length)[i]? = some n → n = 0 ∨ n < 2 ^ 63 ∧
        ((bufs.map List.length).take i).sum + n ≤ data.length ∧
        slice data ((bufs.map List.length).take i).sum n = data.take n := by
  have hall := forall₂_delivers_iff hdata bufs 0
  simp only [Nat.zero_add] at hall
  rw [← hall]
  constructor
  · rintro ⟨rs, b', hrun, hrs⟩
    cases (exec_readAll_init hdata heap bufs).symm.trans hrun
    exact hrs
  · exact fun h => ⟨_, _, exec_readAll_init hdata heap bufs, h⟩

/-! ### Transfers at any position -/

/-- After `IOCTL_SETPOS`, neither a read nor a write leaves the buffer. -/
def Contained (serve : LitState ζ → Option (LitState ζ)) (b : LitState ζ) (arg : Nat) (buf : Bytes) :
    Prop :=
  ((do let _ ← iolitCtl IOCTL_SETPOS arg; Lit.io.ioreadFull buf).exec serve b).isSome ∧
    ((do let _ ← iolitCtl IOCTL_SETPOS arg; Lit.io.iowrite buf).exec serve b).isSome

theorem contained_iff {data : Bytes} (hdata : data.length < 2 ^ 64) (heap : ζ) (arg : Nat)
    (buf : Bytes) :
    Contained serve (iolitInit data heap) arg buf ↔
      u64 (i32 arg) ≤ data.length ∨ buf.length = 0 ∨
        2 ^ 64 + data.length < u64 (i32 arg) + buf.length := by
  have hpos : u64 (i32 arg) < 2 ^ 64 := u64_lt _
  unfold Contained
  rw [Prog.exec_bind_of_eq (exec_iolitCtl_setpos arg), Prog.exec_bind_of_eq (exec_iolitCtl_setpos arg)]
  generalize u64 (i32 arg) = pos at hpos
  rcases Nat.eq_zero_or_pos buf.length with h0 | hbuf
  · obtain rfl := List.length_eq_zero_iff.mp h0
    exact iff_of_true ⟨rfl, rfl⟩ (.inr (.inl rfl))
  · have hpass : (Passes (setPos pos (iolitInit data heap)).lit buf.length →
          (setPos pos (iolitInit data heap)).lit.pos + buf.length ≤
            (setPos pos (iolitInit data heap)).lit.buf.length) ↔
        pos ≤ data.length ∨ buf.length = 0 ∨ 2 ^ 64 + data.length < pos + buf.length := by
      show (buf.length ≤ u64 ((data.length : Int) - pos) → pos + buf.length ≤ data.length) ↔ _
      -- behind the end the difference wraps
      rcases Nat.lt_or_ge data.length pos with hbeyond | hinside
      · rw [u64_sub_wrap hbeyond (Nat.le_of_lt hpos)]
        omega
      · rw [u64_eq (n := data.length - pos) (by omega) (by omega)]
        omega
    rw [exec_iowrite_isSome _ hbuf, exec_ioreadFull _ hbuf, ← hpass, and_iff_right_iff_imp]
    intro h
    split
    · next hp =>
      rw [if_pos (h hp)]
      rfl
    · rfl

/-- **An `io_lit` as a file.** It does not advance, so that a read delivers the right bytes just if
they are also those at the beginning of the buffer; and it has no end of file, so that a read has to
fit. A transfer stays inside if the position does, or if the length is so large that even the
difference that has wrapped is smaller. -/
theorem lit_as_file_iff (serve : LitState ζ → Option (LitState ζ)) {data : Bytes}
    (hdata : data.length < 2 ^ 64) (heap : ζ) :
    (∀ bufs, ReadsAsFile serve (iolitInit data heap) data bufs ↔
      ∀ i n, (bufs.map List.length)[i]? = some n → n = 0 ∨ n < 2 ^ 63 ∧
        ((bufs.map List.length).take i).sum + n ≤ data.length ∧
        slice data ((bufs.map List.length).take i).sum n = data.take n) ∧
    ∀ arg buf, Contained serve (iolitInit data heap) arg buf ↔
      u64 (i32 arg) ≤ data.length ∨ buf.length = 0 ∨
        2 ^ 64 + data.length < u64 (i32 arg) + buf.length :=
  ⟨readsAsFile_iff hdata heap, contained_iff hdata heap⟩

/-- One read of two bytes of `abc` is right. -/
theorem lit_as_file_ab : ReadsAsFile (fun _ => none) (iolitInit (Mkfs.ascii "abc") ())
    (Mkfs.ascii "abc") [[0, 0]] := by
  refine ((lit_as_file_iff (fun _ => none) (by decide) ()).1 _).mpr fun i n hi => ?_
  obtain ⟨rfl, rfl⟩ : i = 0 ∧ n = 2 := by
    cases i with
    | zero => exact ⟨rfl, (Option.some.inj hi).symm⟩
    | succ i => cases hi
  exact Or.inr (by decide)

/-- Two reads of one byte give the same byte twice; a read of four bytes of three is an error; and
at the position 5 a read of one byte leaves the buffer. -/
theorem lit_not_as_file_abc :
    ¬ ReadsAsFile (fun _ => none) (iolitInit (Mkfs.ascii "abc") ()) (Mkfs.ascii "abc") [[0], [0]] ∧
      ¬ ReadsAsFile (fun _ => none) (iolitInit (Mkfs.ascii "abc") ()) (Mkfs.ascii "abc")
        [[0, 0, 0, 0]] ∧
      ¬ Contained (fun _ => none) (iolitInit (Mkfs.ascii "abc") ()) 5 [0] := by
  have hdata : (Mkfs.ascii "abc").length < 2 ^ 64 := by decide
  refine ⟨fun h => ?_, fun h => ?_, fun h => ?_⟩
  · exact absurd ((readsAsFile_iff hdata () _).mp h 1 1 rfl) (by decide)
  · exact absurd ((readsAsFile_iff hdata () _).mp h 0 4 rfl) (by decide)
  · have hpos : u64 (i32 (5 : Nat)) = 5 := by
      rw [i32_eq (by decide) (by decide)]
      exact u64_eq rfl (by decide)
    rw [contained_iff hdata, hpos] at h
    exact absurd h (by decide)

end Lit

end Kfs

end RiscvKernel
