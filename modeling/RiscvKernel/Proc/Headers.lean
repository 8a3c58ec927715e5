import RiscvKernel.Memory.Ranges
import RiscvKernel.Proc.Elf

/-!
# The program headers of an executable

`elf_load` makes three kinds of reads, each with a test of its own. That of the header is exact.
A program header is taken if its read did not fail, however few bytes it brought; and the count of a
segment is compared with an unsigned size, so that a read that failed is taken for a long one. No
test looks at the result of `ioseek`.

The check of the addresses of a segment adds two numbers of 64 bits, and the sum can wrap.

* `Round`, `rounds`: what the loop over the program headers meets.
* `elf_load_complete_iff`: for which results of the reads the loader accepts only what it has read.
* `elf_load_confined_iff`: for which headers it stays inside the user region.
-/

namespace RiscvKernel

open Lib Phys

namespace Exe

variable {ω σ : Type}

/-! ## Full reads -/

/-- What a full read returns is a failure, or the number of bytes that it has stored. -/
theorem readFrom_count (exe : Exe ω σ) (io : ω) {bufsz n : Nat} {buf : Bytes} (s : σ)
    (hbuf : buf.length ≤ bufsz) :
    (exe.readFrom io bufsz n buf s).2.1.length ≤ bufsz ∧
      (0 ≤ (exe.readFrom io bufsz n buf s).1 →
        (exe.readFrom io bufsz n buf s).1 = (exe.readFrom io bufsz n buf s).2.1.length) := by
  induction n generalizing buf s with
  | zero => exact ⟨hbuf, fun _ => rfl⟩
  | succ n ih =>
    unfold readFrom
    have hfits := exe.fits io (bufsz - buf.length) s
    have hmore : (buf ++ (exe.read io (bufsz - buf.length) s).2.1).length ≤ bufsz := by
      rw [List.length_append]
      omega
    split
    · dsimp only
      split
      · next hneg => exact ⟨hmore, fun h => absurd hneg (Int.not_lt.mpr h)⟩
      · split
        · exact ⟨hbuf, fun _ => rfl⟩
        · exact ih _ hmore
    · exact ⟨hbuf, fun _ => rfl⟩

theorem readFull_length (exe : Exe ω σ) (io : ω) (bufsz : Nat) (s : σ) :
    (exe.readFull io bufsz s).2.1.length ≤ bufsz :=
  (exe.readFrom_count io s (Nat.zero_le _)).1

theorem readFull_count (exe : Exe ω σ) (io : ω) (bufsz : Nat) (s : σ)
    (h : 0 ≤ (exe.readFull io bufsz s).1) :
    (exe.readFull io bufsz s).1 = (exe.readFull io bufsz s).2.1.length :=
  (exe.readFrom_count io s (Nat.zero_le _)).2 h

/-- The same object as an `IoIntf`: a read stores at the beginning of its buffer. -/
def intf (exe : Exe ω σ) (io : ω) : IoIntf σ Unit Unit where
  read buf := .act (fun s => (exe.read io buf.length s).2.2) fun s =>
    .ret ((exe.read io buf.length s).1, patch buf 0 (exe.read io buf.length s).2.1)
  write _ := .ret (-ENOTSUP)
  ctl cmd arg :=
    if cmd = IOCTL_SETPOS then .act (exe.seek io arg) fun _ => .ret (i32 arg, arg)
    else .ret (-ENOTSUP, arg)

/-- The loop, with `pre` read before. Induction on the rounds left. -/
theorem exec_intf_readFrom (exe : Exe ω σ) (io : ω) (serve : σ → Option σ) {buf pre : Bytes}
    (hpre : pre.length ≤ buf.length) (n : Nat) (s : σ) :
    ((exe.intf io).readFrom n pre.length (patch buf 0 pre)).exec serve s =
      some (((exe.readFrom io buf.length n pre s).1,
        patch buf 0 (exe.readFrom io buf.length n pre s).2.1),
        (exe.readFrom io buf.length n pre s).2.2) := by
  induction n generalizing pre s with
  | zero => rfl
  | succ n ih =>
    have hpatch : ∀ bs : Bytes, patch buf 0 bs = bs ++ buf.drop bs.length := by
      intro bs
      simp [patch]
    have hlen : (patch buf 0 pre).length = buf.length := length_patch (by omega)
    have hdrop : (patch buf 0 pre).drop pre.length = buf.drop pre.length := by
      rw [hpatch, List.drop_left]
    have htake : (patch buf 0 pre).take pre.length = pre := by rw [hpatch, List.take_left]
    unfold IoIntf.readFrom Exe.readFrom
    rw [hlen]
    split
    · rw [hdrop, htake]
      show (if (exe.read io (buf.drop pre.length).length s).1 < 0 then _ else _ : Prog _ _ _ _).exec
        serve (exe.read io (buf.drop pre.length).length s).2.2 = _
      rw [List.length_drop]
      have hfits := exe.fits io (buf.length - pre.length) s
      have hcount := exe.count io (buf.length - pre.length) s
      generalize exe.read io (buf.length - pre.length) s = r at hfits hcount ⊢
      -- what the buffer holds after the read
      have hbuf : pre ++ patch (buf.drop pre.length) 0 r.2.1 = patch buf 0 (pre ++ r.2.1) := by
        simp [patch]
      dsimp only
      rw [hbuf]
      split
      · rfl
      · rw [hcount (Int.not_lt.mp ‹_›)]
        split
        · next hzero =>
          have hnil : r.2.1 = [] := List.eq_nil_of_length_eq_zero (Int.ofNat.inj hzero)
          rw [hnil, List.append_nil]
          rfl
        · rw [Int.toNat_natCast, ← List.length_append]
          exact ih (by rw [List.length_append]; omega) _
    · rfl

/-- A full read of the loader is that of `IoIntf`. -/
theorem exec_intf_ioreadFull (exe : Exe ω σ) (io : ω) (serve : σ → Option σ) (buf : Bytes) (s : σ) :
    ((exe.intf io).ioreadFull buf).exec serve s = some (((exe.readFull io buf.length s).1,
      patch buf 0 (exe.readFull io buf.length s).2.1), (exe.readFull io buf.length s).2.2) := by
  have hnil : ([] : Bytes).length ≤ buf.length := Nat.zero_le _
  have h := exec_intf_readFrom exe io serve hnil buf.length s
  rwa [patch_nil] at h

end Exe

namespace Elf

/-! ## Fields that have been read -/

theorem leNat_lt (b : Bytes) : leNat b < 256 ^ b.length := by
  induction b with
  | nil => decide
  | cons b bs ih =>
    have hb := b.toNat_lt
    rw [List.length_cons, Nat.pow_succ]
    unfold leNat
    omega

theorem field_lt (b : Bytes) (off n : Nat) : field b off n < 256 ^ n := by
  exact Nat.lt_of_lt_of_le (leNat_lt _)
    (Nat.pow_le_pow_right (by decide) (length_slice_le b off n))

/-- What stood in the variable does not matter for a field that has been read. -/
theorem field_patch {old b : Bytes} {off n : Nat} (h : off + n ≤ b.length) :
    field (patch old 0 b) off n = field b off n := by
  unfold field patch
  rw [List.take_zero, List.nil_append, slice_append_left _ h]

theorem phdr_patch {old b : Bytes} (h : PHDR_SIZE ≤ b.length) : phdr (patch old 0 b) = phdr b := by
  unfold PHDR_SIZE at h
  unfold phdr
  rw [field_patch (by omega), field_patch (by omega), field_patch (by omega), field_patch (by omega),
    field_patch (by omega)]

theorem ehdr_patch {old b : Bytes} (h : EHDR_SIZE ≤ b.length) : ehdr (patch old 0 b) = ehdr b := by
  unfold EHDR_SIZE at h
  have hident : slice (patch old 0 b) 0 16 = slice b 0 16 := by
    unfold patch
    rw [List.take_zero, List.nil_append, slice_append_left _ (by omega)]
  unfold ehdr
  rw [hident, field_patch (by omega), field_patch (by omega), field_patch (by omega),
    field_patch (by omega), field_patch (by omega)]

/-! ## Rounds -/

variable {ω σ : Type} (exe : Exe ω σ) (io : ω) (stack : Stack)

/-- Where the program header `i` is read. -/
def phdrPos (h : Ehdr) (i : Nat) : Nat := u64 (h.phoff + i32 (i * h.phentsize : Nat))

/-- The seek and the read of the program header `i`. -/
def phdrRead (h : Ehdr) (i : Nat) (s : σ) : Int × Bytes × σ :=
  exe.readFull io PHDR_SIZE (exe.seek io (phdrPos h i) s)

/-- A round of the loop: the number of the header, the io object before, the result of the read, and
the header and the state with which the round goes on. -/
structure Round (σ : Type) where
  index : Nat
  objs : σ
  result : Int
  ph : Phdr
  space : UserSpace σ

/-- The first check of a segment rejects it. -/
def Rejected (ph : Phdr) : Prop :=
  ph.vaddr < USER_START ∨ USER_END < u64 (ph.vaddr + ph.filesz : Nat)

instance (ph : Phdr) : Decidable (Rejected ph) := inferInstanceAs (Decidable (_ ∨ _))

/-- The round goes on to load a segment. -/
structure Round.Loads (r : Round σ) : Prop where
  read : 0 ≤ r.result
  type : r.ph.type = PT_LOAD
  addr : ¬ Rejected r.ph

/-- The result of the read of the segment. -/
def Round.segmentResult (r : Round σ) : Int :=
  (exe.readFull io r.ph.filesz (exe.seek io r.ph.offset r.space.objs)).1

/-- The round for the program header `i`. -/
def roundAt (h : Ehdr) (i : Nat) (b : UserSpace σ) : Round σ where
  index := i
  objs := b.objs
  result := (phdrRead exe io h i b.objs).1
  ph := phdr (patch (stack.phdr i) 0 (phdrRead exe io h i b.objs).2.1)
  space := { b with objs := (phdrRead exe io h i b.objs).2.2 }

/-- How the round ends: with a result and a new state, or not at all. -/
def Round.outcome (r : Round σ) : Option (Int × UserSpace σ) :=
  if r.result < 0 then some (-PROG_READ_FAILURE, r.space) else loadPhdr exe io r.ph r.space

/-- The rounds of the loop, up to the one that ends it. -/
def rounds (h : Ehdr) : Nat → Nat → UserSpace σ → List (Round σ)
  | 0, _, _ => []
  | n + 1, i, b =>
    roundAt exe io stack h i b ::
      match (roundAt exe io stack h i b).outcome exe io with
      | none => []
      | some (r, b) => if r < 0 then [] else rounds h n (i + 1) b

/-- The loop is the sequence of its rounds. -/
theorem loadPhdrs_succ (h : Ehdr) (n i : Nat) (b : UserSpace σ) :
    loadPhdrs exe io stack h (n + 1) i b =
      match (roundAt exe io stack h i b).outcome exe io with
      | none => none
      | some (r, b) => if r < 0 then some (r, b) else loadPhdrs exe io stack h n (i + 1) b := by
  unfold Round.outcome
  rw [loadPhdrs]
  show (if (phdrRead exe io h i b.objs).1 < 0 then some (-PROG_READ_FAILURE, _) else _) = _
  by_cases hneg : (phdrRead exe io h i b.objs).1 < 0
  · have hneg' : (roundAt exe io stack h i b).result < 0 := hneg
    rw [if_pos hneg, if_pos hneg']
    rfl
  · have hneg' : ¬ (roundAt exe io stack h i b).result < 0 := hneg
    rw [if_neg hneg, if_neg hneg']
    rfl

/-- No round returns a positive number. -/
theorem Round.outcome_le {r : Round σ} {x : Int} {b : UserSpace σ}
    (h : r.outcome exe io = some (x, b)) : x ≤ 0 := by
  unfold Round.outcome loadPhdr loadSegment at h
  split at h
  · cases h
    decide
  split at h
  · split at h
    · cases h
      decide
    · split at h
      · cases h
      dsimp only at h
      split at h
      · cases h
      split at h
      · cases h
      split at h
      · cases h
        decide
      · cases h
        decide
  · cases h
    decide

/-- A round that the loader goes on from. -/
def Round.Accepted (r : Round σ) : Prop := ∃ b, r.outcome exe io = some (0, b)

variable {exe io stack}

/-- What the loader has seen of a round that it goes on from. -/
theorem Round.Accepted.tests {r : Round σ} (h : r.Accepted exe io) :
    0 ≤ r.result ∧ (r.ph.type = PT_LOAD →
      r.Loads ∧ r.ph.filesz ≤ u64 (r.segmentResult exe io)) := by
  obtain ⟨b, h⟩ := h
  unfold Round.outcome at h
  split at h
  · cases h
  · next hread =>
    refine ⟨Int.not_lt.mp hread, fun htype => ?_⟩
    unfold loadPhdr at h
    rw [if_pos htype] at h
    split at h
    · cases h
    · next haddr =>
      refine ⟨⟨Int.not_lt.mp hread, htype, haddr⟩, ?_⟩
      unfold loadSegment at h
      split at h
      · cases h
      dsimp only at h
      split at h
      · cases h
      split at h
      · cases h
      split at h
      · cases h
      · next hcount => exact Nat.not_lt.mp hcount

/-- A loop that ends well has gone on from each of its rounds. Induction on the headers left. -/
theorem accepted_of_loadPhdrs {h : Ehdr} {n i : Nat} {b b' : UserSpace σ} {x : Int}
    (hload : loadPhdrs exe io stack h n i b = some (x, b')) (hx : 0 ≤ x) :
    (rounds exe io stack h n i b).length = n ∧
      ∀ r ∈ rounds exe io stack h n i b, r.Accepted exe io := by
  induction n generalizing i b with
  | zero => exact ⟨rfl, nofun⟩
  | succ n ih =>
    rw [loadPhdrs_succ] at hload
    unfold rounds
    cases hout : (roundAt exe io stack h i b).outcome exe io with
    | none =>
      rw [hout] at hload
      cases hload
    | some o =>
      obtain ⟨y, b₁⟩ := o
      have hy := Round.outcome_le exe io hout
      rw [hout] at hload
      dsimp only at hload ⊢
      by_cases hneg : y < 0
      · rw [if_pos hneg] at hload
        cases hload
        omega
      · rw [if_neg hneg] at hload ⊢
        obtain rfl : y = 0 := by omega
        obtain ⟨hlen, hall⟩ := ih hload
        exact ⟨congrArg (· + 1) hlen, List.forall_mem_cons.mpr ⟨⟨b₁, hout⟩, hall⟩⟩

/-- If no header that is used has been read in part, what stood on the stack does not matter. -/
theorem loadPhdrs_congr {h : Ehdr} {n i : Nat} {b : UserSpace σ} (stack' : Stack)
    (hread : ∀ r ∈ rounds exe io stack h n i b, 0 ≤ r.result → PHDR_SIZE ≤ r.result) :
    loadPhdrs exe io stack' h n i b = loadPhdrs exe io stack h n i b := by
  induction n generalizing i b with
  | zero => rfl
  | succ n ih =>
    unfold rounds at hread
    obtain ⟨hthis, hrest⟩ := List.forall_mem_cons.mp hread
    have hout : (roundAt exe io stack' h i b).outcome exe io =
        (roundAt exe io stack h i b).outcome exe io := by
      by_cases hneg : (phdrRead exe io h i b.objs).1 < 0
      · exact (if_pos hneg).trans (if_pos hneg).symm
      · have hcount : (PHDR_SIZE : Int) ≤ (phdrRead exe io h i b.objs).1 := hthis (Int.not_lt.mp hneg)
        have hlen : PHDR_SIZE ≤ (phdrRead exe io h i b.objs).2.1.length := by
          have := exe.readFull_count io PHDR_SIZE (exe.seek io (phdrPos h i) b.objs)
            (Int.not_lt.mp hneg)
          unfold phdrRead at hcount ⊢
          omega
        have hround : roundAt exe io stack' h i b = roundAt exe io stack h i b := by
          unfold roundAt
          rw [phdr_patch hlen, phdr_patch hlen]
        rw [hround]
    rw [loadPhdrs_succ, loadPhdrs_succ, hout]
    cases hthis' : (roundAt exe io stack h i b).outcome exe io with
    | none => rfl
    | some o =>
      obtain ⟨y, b₁⟩ := o
      rw [hthis'] at hrest
      dsimp only at hrest ⊢
      by_cases hneg : y < 0
      · rw [if_pos hneg, if_pos hneg]
      · rw [if_neg hneg] at hrest ⊢
        rw [if_neg hneg]
        exact ih hrest

/-! ## The whole file -/

variable (exe io stack)

def headerRead (b : UserSpace σ) : Int × Bytes × σ := exe.readFull io EHDR_SIZE b.objs

def header (b : UserSpace σ) : Ehdr := ehdr (patch stack.ehdr 0 (headerRead exe io b).2.1)

/-- The header is there and passes its checks. -/
def HeaderOk (b : UserSpace σ) : Prop :=
  (headerRead exe io b).1 = EHDR_SIZE ∧ 0 ≤ checkEhdr (header exe io stack b)

instance (b : UserSpace σ) : Decidable (HeaderOk exe io stack b) :=
  inferInstanceAs (Decidable (_ ∧ _))

def afterHeader (b : UserSpace σ) : UserSpace σ := { b with objs := (headerRead exe io b).2.2 }

/-- The rounds that `elf_load` comes to. -/
def runRounds (b : UserSpace σ) : List (Round σ) :=
  if HeaderOk exe io stack b then
    rounds exe io stack (header exe io stack b) (header exe io stack b).phnum 0 (afterHeader exe io b)
  else []

theorem elfLoad_of_headerOk {b : UserSpace σ} (h : HeaderOk exe io stack b) :
    elfLoad exe stack io b =
      match loadPhdrs exe io stack (header exe io stack b) (header exe io stack b).phnum 0
        (afterHeader exe io b) with
      | none => none
      | some (r, b') => if r < 0 then some (r, 0, b') else some (0, (header exe io stack b).entry, b') := by
  obtain ⟨hcount, hcheck⟩ := h
  unfold headerRead at hcount
  have hcheck' : ¬ checkEhdr (ehdr (patch stack.ehdr 0 (exe.readFull io EHDR_SIZE b.objs).2.1)) < 0 :=
    Int.not_lt.mpr hcheck
  unfold elfLoad
  dsimp only
  rw [if_neg (by rw [hcount]; decide), if_neg (by rw [hcount]; decide), if_neg hcheck']
  rfl

/-- The result for a file whose header is not there or does not pass. -/
def refusal (b : UserSpace σ) : Int :=
  if (headerRead exe io b).1 < 0 then -READ_FAILURE
  else if (headerRead exe io b).1 < EHDR_SIZE then -DATA_SHORTAGE
  else checkEhdr (header exe io stack b)

theorem elfLoad_of_not_headerOk {b : UserSpace σ} (h : ¬ HeaderOk exe io stack b) :
    refusal exe io stack b < 0 ∧
      elfLoad exe stack io b = some (refusal exe io stack b, 0, afterHeader exe io b) := by
  have hlen := exe.readFull_length io EHDR_SIZE b.objs
  have hcount := exe.readFull_count io EHDR_SIZE b.objs
  unfold refusal elfLoad headerRead
  dsimp only
  split
  · exact ⟨by decide, rfl⟩
  split
  · exact ⟨by decide, rfl⟩
  · next hread hshort =>
    have hcheck : checkEhdr (header exe io stack b) < 0 := by
      by_contra hcheck
      refine h ⟨?_, Int.not_lt.mp hcheck⟩
      show (exe.readFull io EHDR_SIZE b.objs).1 = EHDR_SIZE
      have := hcount (Int.not_lt.mp hread)
      omega
    exact ⟨hcheck, if_pos hcheck⟩

/-- The loader returns 0 or a negative number. -/
theorem elfLoad_le {b b' : UserSpace σ} {x : Int} {entry : Nat}
    (h : elfLoad exe stack io b = some (x, entry, b')) : x ≤ 0 := by
  by_cases hok : HeaderOk exe io stack b
  · rw [elfLoad_of_headerOk exe io stack hok] at h
    split at h
    · cases h
    · split at h
      · next hneg =>
        cases h
        exact Int.le_of_lt hneg
      · cases h
        exact Int.le_refl 0
  · obtain ⟨hneg, heq⟩ := elfLoad_of_not_headerOk exe io stack hok
    cases heq.symm.trans h
    exact Int.le_of_lt hneg

theorem elfLoad_zero {b b' : UserSpace σ} {entry : Nat}
    (h : elfLoad exe stack io b = some (0, entry, b')) :
    HeaderOk exe io stack b ∧ entry = (header exe io stack b).entry ∧
      ∃ x, 0 ≤ x ∧ loadPhdrs exe io stack (header exe io stack b) (header exe io stack b).phnum 0
        (afterHeader exe io b) = some (x, b') := by
  by_cases hok : HeaderOk exe io stack b
  · rw [elfLoad_of_headerOk exe io stack hok] at h
    split at h
    · cases h
    · next x b₁ hload =>
      split at h
      · next hneg =>
        cases h
        exact absurd hneg (Int.lt_irrefl 0)
      · next hx =>
        cases h
        exact ⟨hok, rfl, x, Int.not_lt.mp hx, hload⟩
  · obtain ⟨hneg, heq⟩ := elfLoad_of_not_headerOk exe io stack hok
    have hzero : refusal exe io stack b = 0 :=
      Option.some.inj (congrArg (Option.map Prod.fst) (heq.symm.trans h))
    rw [hzero] at hneg
    exact absurd hneg (Int.lt_irrefl 0)

/-! ## Reading everything -/

section Reads

variable (seekOk : ω → Nat → σ → Bool)

/-- The header, all program headers and all segments have been read completely; `seekOk` is whether
a seek succeeds. -/
structure Complete (b : UserSpace σ) : Prop where
  header : (headerRead exe io b).1 = EHDR_SIZE
  all : (runRounds exe io stack b).length = (Elf.header exe io stack b).phnum
  phdr : ∀ r ∈ runRounds exe io stack b,
    seekOk io (phdrPos (Elf.header exe io stack b) r.index) r.objs ∧ r.result = PHDR_SIZE
  segment : ∀ r ∈ runRounds exe io stack b, r.ph.type = PT_LOAD →
    seekOk io r.ph.offset r.space.objs ∧ r.segmentResult exe io = r.ph.filesz

/-- The loader returns 0 only for a file that it has read completely, a negative number otherwise,
and what it does depends on nothing that it has not read. -/
structure Rejects (b : UserSpace σ) : Prop where
  result : ∀ x entry b', elfLoad exe stack io b = some (x, entry, b') →
    x < 0 ∨ x = 0 ∧ Complete exe io stack seekOk b
  decided : ∀ stack', elfLoad exe stack' io b = elfLoad exe stack io b

/-- The reads after which the tests of the loader are right: no seek fails; a program header whose
read does not fail is there in full; and the read of a segment that passes for long enough has not
failed. -/
structure Heeded (b : UserSpace σ) : Prop where
  phdr : ∀ r ∈ runRounds exe io stack b, 0 ≤ r.result →
    seekOk io (phdrPos (header exe io stack b) r.index) r.objs ∧ PHDR_SIZE ≤ r.result
  segment : ∀ r ∈ runRounds exe io stack b, r.Loads →
    r.ph.filesz ≤ u64 (r.segmentResult exe io) →
      seekOk io r.ph.offset r.space.objs ∧ 0 ≤ r.segmentResult exe io

variable {exe io stack seekOk}

theorem Complete.heeded {b : UserSpace σ} (h : Complete exe io stack seekOk b) :
    Heeded exe io stack seekOk b where
  phdr r hr _ := ⟨(h.phdr r hr).1, Int.le_of_eq (h.phdr r hr).2.symm⟩
  segment r hr hloads _ := by
    obtain ⟨hseek, hresult⟩ := h.segment r hr hloads.type
    exact ⟨hseek, by rw [hresult]; exact Int.natCast_nonneg _⟩

/-- A program header is at most as long as it should be, and has fields of 64 bits. -/
theorem mem_rounds_bounds {h : Ehdr} {n i : Nat} {b : UserSpace σ} {r : Round σ}
    (hr : r ∈ rounds exe io stack h n i b) :
    r.result ≤ PHDR_SIZE ∧ r.ph.filesz < 2 ^ 64 ∧ r.ph.vaddr < 2 ^ 64 := by
  induction n generalizing i b with
  | zero => cases hr
  | succ n ih =>
    unfold rounds at hr
    obtain rfl | hr := List.mem_cons.mp hr
    · refine ⟨?_, field_lt _ 32 8, field_lt _ 16 8⟩
      show (phdrRead exe io h i b.objs).1 ≤ PHDR_SIZE
      have hlen := exe.readFull_length io PHDR_SIZE (exe.seek io (phdrPos h i) b.objs)
      have hcount := exe.readFull_count io PHDR_SIZE (exe.seek io (phdrPos h i) b.objs)
      unfold phdrRead
      omega
    · split at hr
      · cases hr
      · split at hr
        · cases hr
        · exact ih hr

theorem Heeded.complete {b b' : UserSpace σ} {entry : Nat} (h : Heeded exe io stack seekOk b)
    (hload : elfLoad exe stack io b = some (0, entry, b')) : Complete exe io stack seekOk b := by
  obtain ⟨hok, -, x, hx, hload⟩ := elfLoad_zero exe io stack hload
  have hrounds : runRounds exe io stack b = rounds exe io stack (header exe io stack b)
      (header exe io stack b).phnum 0 (afterHeader exe io b) := if_pos hok
  obtain ⟨hlen, haccepted⟩ := accepted_of_loadPhdrs hload hx
  rw [← hrounds] at hlen haccepted
  refine ⟨hok.1, hlen, fun r hr => ?_, fun r hr htype => ?_⟩
  · obtain ⟨hread, -⟩ := (haccepted r hr).tests
    obtain ⟨hseek, hge⟩ := h.phdr r hr hread
    rw [hrounds] at hr
    exact ⟨hseek, Int.le_antisymm (mem_rounds_bounds hr).1 hge⟩
  · obtain ⟨-, htest⟩ := (haccepted r hr).tests
    obtain ⟨hloads, hlong⟩ := htest htype
    obtain ⟨hseek, hnonneg⟩ := h.segment r hr hloads hlong
    refine ⟨hseek, ?_⟩
    rw [hrounds] at hr
    have hfilesz := (mem_rounds_bounds hr).2.1
    have hlen := exe.readFull_length io r.ph.filesz (exe.seek io r.ph.offset r.space.objs)
    have hcount := exe.readFull_count io r.ph.filesz (exe.seek io r.ph.offset r.space.objs) hnonneg
    unfold Round.segmentResult at hlong ⊢
    -- a count that is not negative is at most the size, and compares as what it is
    rw [u64_eq hcount (by omega)] at hlong
    omega

theorem header_congr {b : UserSpace σ} (stack' : Stack) (h : (headerRead exe io b).1 = EHDR_SIZE) :
    header exe io stack' b = header exe io stack b := by
  have hlen : EHDR_SIZE ≤ (headerRead exe io b).2.1.length := by
    have := exe.readFull_count io EHDR_SIZE b.objs (by unfold headerRead at h; rw [h]; decide)
    unfold headerRead at h ⊢
    omega
  unfold header
  rw [ehdr_patch hlen, ehdr_patch hlen]

theorem Heeded.decided {b : UserSpace σ} (h : Heeded exe io stack seekOk b) (stack' : Stack) :
    elfLoad exe stack' io b = elfLoad exe stack io b := by
  -- the header is used only if it is there
  have hheader : (headerRead exe io b).1 = EHDR_SIZE →
      header exe io stack' b = header exe io stack b := header_congr stack'
  by_cases hok : HeaderOk exe io stack b
  · have hok' : HeaderOk exe io stack' b := ⟨hok.1, by rw [hheader hok.1]; exact hok.2⟩
    have hrounds : runRounds exe io stack b = rounds exe io stack (header exe io stack b)
        (header exe io stack b).phnum 0 (afterHeader exe io b) := if_pos hok
    rw [elfLoad_of_headerOk exe io stack hok, elfLoad_of_headerOk exe io stack' hok',
      hheader hok.1, loadPhdrs_congr stack' fun r hr hread => (h.phdr r (by rwa [hrounds]) hread).2]
  · have hok' : ¬ HeaderOk exe io stack' b := fun h' =>
      hok ⟨h'.1, by rw [← hheader h'.1]; exact h'.2⟩
    have hsame : refusal exe io stack' b = refusal exe io stack b := by
      unfold refusal
      split
      · rfl
      split
      · rfl
      · next hread hshort =>
        rw [hheader]
        have hlen := exe.readFull_length io EHDR_SIZE b.objs
        have hcount := exe.readFull_count io EHDR_SIZE b.objs (Int.not_lt.mp hread)
        unfold headerRead at hshort ⊢
        omega
    rw [(elfLoad_of_not_headerOk exe io stack hok).2, (elfLoad_of_not_headerOk exe io stack' hok').2,
      hsame]

/-- **The loader and an unreadable file.** If no seek fails, no program header is read in part and
no read of a segment fails, the loader accepts nothing that it has not read. If it accepts a file,
that is the only way. -/
theorem elf_load_complete_iff (seekOk : ω → Nat → σ → Bool) (b : UserSpace σ) :
    (Heeded exe io stack seekOk b → Rejects exe io stack seekOk b) ∧
    ∀ entry b', elfLoad exe stack io b = some (0, entry, b') →
      (Rejects exe io stack seekOk b ↔ Heeded exe io stack seekOk b) := by
  have hsound : Heeded exe io stack seekOk b → Rejects exe io stack seekOk b := by
    intro h
    refine ⟨fun x entry b' hload => ?_, h.decided⟩
    obtain hneg | rfl := Int.lt_or_eq_of_le (elfLoad_le exe io stack hload)
    · exact Or.inl hneg
    · exact Or.inr ⟨rfl, h.complete hload⟩
  refine ⟨hsound, fun entry b' hload => ⟨fun h => ?_, hsound⟩⟩
  obtain hneg | ⟨-, hcomplete⟩ := h.result 0 entry b' hload
  · exact absurd hneg (Int.lt_irrefl 0)
  · exact hcomplete.heeded

end Reads

/-! A file in memory, and headers for it. -/

/-- A file that is read from its position on. -/
def fileExe (file : Bytes) : Exe Unit Nat where
  read _ bufsz pos := ((slice file pos bufsz).length, slice file pos bufsz,
    pos + (slice file pos bufsz).length)
  seek _ pos _ := pos
  fits _ bufsz pos := length_slice_le file pos bufsz
  count _ _ _ _ := rfl

/-- The header of a program for RISC-V with `phnum` program headers right behind it. -/
def headerBytes (phnum : UInt8) : Bytes :=
  [0x7f, 0x45, 0x4c, 0x46, 2, 1, 1, 0, 0, 0, 0, 0, 0, 0, 0, 0,
    2, 0, 0xf3, 0, 1, 0, 0, 0, 0, 0, 0, 0xc0, 0, 0, 0, 0,
    64, 0, 0, 0, 0, 0, 0, 0, 0, 0, 0, 0, 0, 0, 0, 0,
    0, 0, 0, 0, 64, 0, 56, 0, phnum, 0, 0, 0, 0, 0, 0, 0]

/-- Memory without free pages. -/
def noPages : Phys := ⟨fun _ => 0, 0, 0, 0⟩

/-- A stack on which a program header would be of type `type`. -/
def stackOf (type : UInt8) : Stack := ⟨[], fun _ => [type]⟩

/-- A program header for one byte of the file, with `R` and `X`. -/
def oneBytePhdr (offset vaddr₁ memsz : UInt8) : Bytes :=
  [1, 0, 0, 0, 5, 0, 0, 0, offset, 0, 0, 0, 0, 0, 0, 0,
    0, vaddr₁, 0, 0xc0, 0, 0, 0, 0, 0, 0, 0, 0, 0, 0, 0, 0,
    1, 0, 0, 0, 0, 0, 0, 0, memsz, 0, 0, 0, 0, 0, 0, 0, 0, 0, 0, 0, 0, 0, 0, 0]

/-- A program of one byte that has `memsz` bytes in memory. -/
def oneByte (memsz : UInt8) : Bytes := headerBytes 1 ++ oneBytePhdr 0 0 memsz

/-- A program of one byte that is there in full is accepted, and nothing else decides about it. -/
theorem elf_load_complete_oneByte :
    Rejects (fileExe (oneByte 1)) () (stackOf 1) (fun _ _ _ => true) ⟨threePages 0, 0x80701000, 0⟩ := by
  -- the one round: 56 bytes of a program header, and a segment that is read in full
  have hround : ∀ r ∈ runRounds (fileExe (oneByte 1)) () (stackOf 1) ⟨threePages 0, 0x80701000, 0⟩,
      r.result = 56 ∧ r.segmentResult (fileExe (oneByte 1)) () = 1 := by decide +kernel
  refine (elf_load_complete_iff _ _).1 ⟨fun r hr _ => ⟨rfl, ?_⟩, fun r hr _ _ => ⟨rfl, ?_⟩⟩
  · rw [(hround r hr).1]
    decide
  · rw [(hround r hr).2]
    decide

/-- A file that ends behind its header and should have a program header there: it is accepted, or
refused for the address of a segment, as the stack will have it. -/
theorem elf_load_accepts_truncated :
    (∃ b', elfLoad (fileExe (headerBytes 1)) (stackOf 0) () ⟨noPages, 0, 0⟩ =
      some (0, 0xc0000000, b')) ∧
    (∃ b', elfLoad (fileExe (headerBytes 1)) (stackOf 1) () ⟨noPages, 0, 0⟩ =
      some (-PROG_ADDR, 0, b')) ∧
    ¬ Rejects (fileExe (headerBytes 1)) () (stackOf 0) (fun _ _ _ => true) ⟨noPages, 0, 0⟩ := by
  have hzero : (elfLoad (fileExe (headerBytes 1)) (stackOf 0) () ⟨noPages, 0, 0⟩).map
      (fun r => (r.1, r.2.1)) = some (0, 0xc0000000) := by decide +kernel
  have hone : (elfLoad (fileExe (headerBytes 1)) (stackOf 1) () ⟨noPages, 0, 0⟩).map
      (fun r => (r.1, r.2.1)) = some (-PROG_ADDR, 0) := by decide +kernel
  obtain ⟨⟨_, _, b₀⟩, h₀, heq₀⟩ := Option.map_eq_some_iff.mp hzero
  obtain ⟨⟨_, _, b₁⟩, h₁, heq₁⟩ := Option.map_eq_some_iff.mp hone
  cases heq₀
  cases heq₁
  refine ⟨⟨b₀, h₀⟩, ⟨b₁, h₁⟩, fun h => ?_⟩
  cases h₀.symm.trans ((h.decided (stackOf 1)).symm.trans h₁)

/-! ## Staying inside the user region -/

/-- What is mapped, written and given flags for a segment lies in the user region: its bytes as
mathematical integers, the pages that the loops come to, and the addresses that are written. -/
structure Confined (ph : Phdr) : Prop where
  start : USER_START ≤ ph.vaddr
  stop : ph.vaddr + ph.filesz ≤ USER_END
  pages : ∀ a ∈ pagesFrom (pageCount ph.filesz) ph.vaddr, ∀ x, x / PAGE_SIZE = a / PAGE_SIZE →
    USER_START ≤ x ∧ x < USER_END
  bytes : ∀ i < ph.filesz, USER_START ≤ u64 (ph.vaddr + i : Nat) ∧ u64 (ph.vaddr + i : Nat) < USER_END

theorem confined_iff {ph : Phdr} (hfilesz : ph.filesz < 2 ^ 64) (h : ¬ Rejected ph) :
    Confined ph ↔ ph.vaddr + ph.filesz < 2 ^ 64 := by
  have huser : USER_END < 2 ^ 64 - PAGE_SIZE := by decide
  obtain ⟨hstart, hstop⟩ := not_or.mp h
  have hstart : USER_START ≤ ph.vaddr := Nat.not_lt.mp hstart
  constructor
  · intro hc
    have := hc.stop
    omega
  · intro hsum
    rw [u64_eq rfl hsum] at hstop
    have hstop : ph.vaddr + ph.filesz ≤ USER_END := Nat.not_lt.mp hstop
    have hcount : pageCount ph.filesz = (ph.filesz + PAGE_SIZE - 1) / PAGE_SIZE :=
      pageCount_eq (by omega)
    have hpages := Nat.div_mul_le_self (ph.filesz + PAGE_SIZE - 1) PAGE_SIZE
    rw [← hcount] at hpages
    refine ⟨hstart, hstop, fun a ha x hx => ?_, fun i hi => ?_⟩
    · rw [pagesFrom_eq (by unfold PAGE_SIZE at *; omega)] at ha
      obtain ⟨j, hj, rfl⟩ := List.mem_map.mp ha
      have hj := List.mem_range.mp hj
      -- the page begins in front of the last byte, and both ends of the region are aligned
      have hbefore : PAGE_SIZE * j < ph.filesz := by
        unfold PAGE_SIZE at *
        omega
      unfold PAGE_SIZE USER_START USER_END at *
      omega
    · rw [u64_eq rfl (by omega)]
      omega

/-- A segment that is loaded is confined, and one that is not is rejected with nothing mapped. -/
structure Handled (exe : Exe ω σ) (io : ω) (r : Round σ) : Prop where
  loaded : r.Loads → Confined r.ph
  rejected : 0 ≤ r.result → r.ph.type = PT_LOAD → Rejected r.ph →
    r.outcome exe io = some (-PROG_ADDR, r.space)

theorem handled_iff {r : Round σ} (hfilesz : r.ph.filesz < 2 ^ 64) :
    Handled exe io r ↔ (r.Loads → r.ph.vaddr + r.ph.filesz < 2 ^ 64) := by
  constructor
  · intro h hloads
    exact (confined_iff hfilesz hloads.addr).mp (h.loaded hloads)
  · intro h
    refine ⟨fun hloads => (confined_iff hfilesz hloads.addr).mpr (h hloads), ?_⟩
    intro hread htype haddr
    unfold Round.outcome loadPhdr
    rw [if_neg (Int.not_lt.mpr hread), if_pos htype]
    exact if_pos haddr

/-- **The loader stays inside the user region** just if no segment that passes its check has an end
that wraps. -/
theorem elf_load_confined_iff (exe : Exe ω σ) (io : ω) (stack : Stack) (b : UserSpace σ) :
    (∀ r ∈ runRounds exe io stack b, Handled exe io r) ↔
      ∀ r ∈ runRounds exe io stack b, r.Loads → r.ph.vaddr + r.ph.filesz < 2 ^ 64 := by
  refine forall₂_congr fun r hr => handled_iff exe io ?_
  unfold runRounds at hr
  split at hr
  · exact (mem_rounds_bounds hr).2.1
  · cases hr

/-- A program header for the last page of the address space, of the kernel's half. -/
def lastPagePhdr : Bytes :=
  [1, 0, 0, 0, 6, 0, 0, 0, 0, 0, 0, 0, 0, 0, 0, 0,
    0, 0xf0, 0xff, 0xff, 0xff, 0xff, 0xff, 0xff, 0, 0, 0, 0, 0, 0, 0, 0,
    0, 0x10, 0, 0, 0, 0, 0, 0, 0, 0x10, 0, 0, 0, 0, 0, 0, 0, 0x10, 0, 0, 0, 0, 0, 0]

/-- The end of the segment wraps to 0, and it passes. -/
theorem elf_load_leaves_region :
    ∃ r ∈ runRounds (fileExe (headerBytes 1 ++ lastPagePhdr)) () (stackOf 0) ⟨noPages, 0, 0⟩,
      r.Loads ∧ r.ph.vaddr = 2 ^ 64 - PAGE_SIZE ∧
        ¬ Handled (fileExe (headerBytes 1 ++ lastPagePhdr)) () r := by
  generalize hexe : fileExe (headerBytes 1 ++ lastPagePhdr) = exe
  have hok : HeaderOk exe () (stackOf 0) ⟨noPages, 0, 0⟩ := by
    rw [← hexe]
    decide +kernel
  have hphnum : (header exe () (stackOf 0) ⟨noPages, 0, 0⟩).phnum = 1 := by
    rw [← hexe]
    decide +kernel
  refine ⟨roundAt exe () (stackOf 0) (header exe () (stackOf 0) ⟨noPages, 0, 0⟩) 0
    (afterHeader exe () ⟨noPages, 0, 0⟩), ?_, ?_⟩
  · unfold runRounds
    rw [if_pos hok, hphnum]
    exact List.mem_cons_self
  · have hloads : (roundAt exe () (stackOf 0) (header exe () (stackOf 0) ⟨noPages, 0, 0⟩) 0
        (afterHeader exe () ⟨noPages, 0, 0⟩)).Loads := by
      rw [← hexe]
      exact ⟨by decide +kernel, by decide +kernel, by decide +kernel⟩
    have hvaddr : (roundAt exe () (stackOf 0) (header exe () (stackOf 0) ⟨noPages, 0, 0⟩) 0
        (afterHeader exe () ⟨noPages, 0, 0⟩)).ph.vaddr = 2 ^ 64 - PAGE_SIZE := by
      rw [← hexe]
      decide +kernel
    refine ⟨hloads, hvaddr, fun h => ?_⟩
    have hstop := (h.loaded hloads).stop
    rw [hvaddr] at hstop
    unfold PAGE_SIZE USER_END at hstop
    omega

end Elf

end RiscvKernel
