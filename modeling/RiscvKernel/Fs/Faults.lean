import RiscvKernel.Fs.Atomic
import RiscvKernel.Io.Faults

/-!
# File operations on a device that fails

`fs_read` and `fs_write` ignore what `ioread_full` and `iowrite` return, and compute their result from
the length in the inode. If the inode itself has been read well, they return the same on a failing
device as on a healthy one (`fsRead_alike`, `fsWrite_alike`).
-/

namespace RiscvKernel

open Lib

namespace Kfs

/-! ## Two devices behind a file operation -/

section Alike

variable {β : Type} {serve serve' : β → Option β} {W R : β → β → Prop} {be : Backend β} {mt : Mounted}
  {s s' : FsState β}

/-- Two devices behind a file operation, in lockstep. -/
abbrev FsLockstep (serve serve' : β → Option β) (W : β → β → Prop) {α α' : Type} (p : Code β α)
    (p' : Code β α') (s s' : FsState β) (Q : α → FsState β → α' → FsState β → Prop) : Prop :=
  Prog.Lockstep (fsServe serve) (fsServe serve') ((belowLens β).On W) p p' s s' Q

/-- The backend does the same on both, from states whose devices `R` relates. -/
abbrev BackendAlike (serve serve' : β → Option β) (W R : β → β → Prop) (be : Backend β) : Prop :=
  be.io.Alike (fsServe serve) (fsServe serve') ((belowLens β).On W) ((belowLens β).Lift R)

theorem seekBlock_alike (hio : BackendAlike serve serve' W R be)
    (fileStruct : Bytes) (i leading : Nat) (h : (belowLens β).Lift R s s') :
    FsLockstep serve serve' W (seekBlock be mt fileStruct i leading)
      (seekBlock be mt fileStruct i leading) s s' fun _ t _ t' => (belowLens β).Lift R t t' := by
  unfold seekBlock
  refine Prog.Lockstep.assert_bind Iff.rfl fun _ => ?_
  refine (hio.ctl _ _ h).bind fun _ t _ t' hr => ?_
  exact Prog.Lockstep.ret hr.2

theorem readPart_alike (hio : BackendAlike serve serve' W R be)
    {buf buf' : Bytes} (hlen : buf'.length = buf.length) (idx len : Nat)
    (h : (belowLens β).Lift R s s') :
    FsLockstep serve serve' W (readPart be buf idx len) (readPart be buf' idx len)
      s s' fun b t b' t' => b'.length = b.length ∧ (belowLens β).Lift R t t' := by
  unfold readPart
  refine Prog.Lockstep.assert_bind (by rw [hlen]) fun hin => ?_
  have hslice : (slice buf' idx len).length = (slice buf idx len).length := by
    rw [length_slice hin, length_slice (by rw [hlen]; exact hin)]
  have hread := hio.readFrom (slice buf idx len).length 0 hslice h
  unfold IoIntf.ioreadFull
  rw [hslice]
  refine hread.bind fun r t r' t' hr => ?_
  refine Prog.Lockstep.ret ⟨?_, hr.2⟩
  simp only [patch, List.length_append, List.length_take, List.length_drop, hlen, hr.1.2]

/-- The loop of `fs_read`. Induction on the rounds left. -/
theorem readBlocks_alike (hio : BackendAlike serve serve' W R be)
    (fileStruct : Bytes) (rounds i : Nat) (p : Plan) (idx : Nat) {buf buf' : Bytes}
    (hlen : buf'.length = buf.length) (h : (belowLens β).Lift R s s') :
    FsLockstep serve serve' W (readBlocks be mt fileStruct rounds i p idx buf)
      (readBlocks be mt fileStruct rounds i p idx buf') s s'
      fun b t b' t' => b'.length = b.length ∧ (belowLens β).Lift R t t' := by
  induction rounds generalizing i p idx buf buf' s s' with
  | zero => exact Prog.Lockstep.ret ⟨hlen, h⟩
  | succ rounds ih =>
    unfold readBlocks
    split
    · refine (readPart_alike hio hlen _ _ h).bind fun b t b' t' hr => ?_
      refine (seekBlock_alike hio _ _ _ hr.2).bind fun _ t₁ _ t₁' h₁ => ?_
      exact ih _ _ _ hr.1 h₁
    split
    · exact readPart_alike hio hlen _ _ h
    · refine (readPart_alike hio hlen _ _ h).bind fun b t b' t' hr => ?_
      refine (seekBlock_alike hio _ _ _ hr.2).bind fun _ t₁ _ t₁' h₁ => ?_
      exact ih _ _ _ hr.1 h₁

theorem writePart_alike (hio : BackendAlike serve serve' W R be)
    (buf : Bytes) (idx len : Nat) (h : (belowLens β).Lift R s s') :
    FsLockstep serve serve' W (writePart be buf idx len) (writePart be buf idx len)
      s s' fun _ t _ t' => (belowLens β).Lift R t t' := by
  unfold writePart
  refine Prog.Lockstep.assert_bind Iff.rfl fun _ => ?_
  refine (hio.writeFrom _ _ 0 h).bind fun _ t _ t' hr => ?_
  exact Prog.Lockstep.ret hr.2

/-- The loop of `fs_write`. -/
theorem writeBlocks_alike (hio : BackendAlike serve serve' W R be)
    (fileStruct buf : Bytes) (rounds i : Nat) (p : Plan) (idx : Nat) (h : (belowLens β).Lift R s s') :
    FsLockstep serve serve' W (writeBlocks be mt fileStruct buf rounds i p idx)
      (writeBlocks be mt fileStruct buf rounds i p idx) s s'
      fun _ t _ t' => (belowLens β).Lift R t t' := by
  induction rounds generalizing i p idx s s' with
  | zero => exact Prog.Lockstep.ret h
  | succ rounds ih =>
    unfold writeBlocks
    split
    · refine (writePart_alike hio _ _ _ h).bind fun _ t _ t' hr => ?_
      refine (seekBlock_alike hio _ _ _ hr).bind fun _ t₁ _ t₁' h₁ => ?_
      exact ih _ _ _ h₁
    split
    · exact writePart_alike hio _ _ _ h
    · refine (writePart_alike hio _ _ _ h).bind fun _ t _ t' hr => ?_
      refine (seekBlock_alike hio _ _ _ hr).bind fun _ t₁ _ t₁' h₁ => ?_
      exact ih _ _ _ h₁

theorem fsIoctl_alike (io cmd arg : Nat) (h : (belowLens β).Lift R s s') :
    FsLockstep serve serve' W (fsIoctl mt io cmd arg) (fsIoctl mt io cmd arg) s s'
      fun r t r' t' => r' = r ∧ (belowLens β).Lift R t t' := by
  have hposition : s'.filePosition = s.filePosition :=
    (congrArg FsState.filePosition (h.2 s.below)).symm
  unfold fsIoctl
  split
  · exact Prog.Lockstep.ret ⟨rfl, h⟩
  · next i hslot =>
    apply Prog.Lockstep.lock_bind
    have hbody : FsLockstep serve serve' W (ioctlBody mt i cmd arg)
        (ioctlBody mt i cmd arg) s s' fun r t r' t' => r' = r ∧ (belowLens β).Lift R t t' := by
      unfold ioctlBody
      apply Prog.Lockstep.get_bind
      rw [hposition]
      split
      · exact Prog.Lockstep.ret ⟨rfl, h⟩
      split
      · exact Prog.Lockstep.ret ⟨rfl, h⟩
      split
      · apply Prog.Lockstep.modify_bind
        refine Prog.Lockstep.ret ⟨rfl, h.1, fun b => ?_⟩
        show FsState.mk b _ = FsState.mk b _
        rw [hposition]
      split
      · exact Prog.Lockstep.ret ⟨rfl, h⟩
      · exact Prog.Lockstep.ret ⟨rfl, h⟩
    refine hbody.bind fun r t r' t' hr => ?_
    exact Prog.Lockstep.unlock_bind (Prog.Lockstep.ret hr)

/-- The position that `fs_read` and `fs_write` start from. -/
def position (mt : Mounted) (io : Nat) (s : FsState β) : Nat :=
  match lastSlot mt io with
  | none => u64 (-EFILESYS)
  | some i => u64 (i32 (s.filePosition i))

theorem exec_fsIoctl_position (mt : Mounted) (io : Nat) (s : FsState β) :
    ∃ r, u64 r.1 = position mt io s ∧ ∀ serve : β → Option β,
      (fsIoctl mt io IOCTL_GETPOS 0).exec (fsServe serve) s = some (r, s) ∧
        (fsIoctl mt io IOCTL_GETPOS 0).issued (fsServe serve) s = [] := by
  unfold position fsIoctl
  cases lastSlot mt io with
  | none => exact ⟨_, rfl, fun _ => ⟨rfl, rfl⟩⟩
  | some i => exact ⟨_, rfl, fun _ => ⟨rfl, rfl⟩⟩

/-- The requests that `fs_read` and `fs_write` make for the inode of the file. -/
def inodeRequests (be : Backend β) (mt : Mounted) (io n : Nat) (serve : β → Option β)
    (s : FsState β) : List (FsState β) :=
  match firstSlot mt io with
  | none => []
  | some slot =>
    (readInode be (mt.slots slot).inode (position mt io s) n).issued (fsServe serve) s

variable {io : Nat} {buf : Bytes}

/-- `fs_read` from a state in which the inode is read alike. -/
theorem fsRead_alike (hio : BackendAlike serve serve' W R be)
    (hreflW : ∀ b, W b b) (hrefl : ∀ b, R b b)
    (hinode : ∀ q ∈ inodeRequests be mt io buf.length serve' s, fsServe serve q = fsServe serve' q) :
    FsLockstep serve serve' W (fsRead be mt io buf) (fsRead be mt io buf) s s
      fun r _ r' _ => r'.1 = r.1 := by
  obtain ⟨r, hr, hget⟩ := exec_fsIoctl_position mt io s
  unfold fsRead
  apply Prog.Lockstep.bind_of_eq (hget serve).1 (hget serve').1 (hget serve).2 (hget serve').2
  dsimp only
  rw [hr]
  cases hslot : firstSlot mt io with
  | none => exact Prog.Lockstep.ret rfl
  | some slot =>
    apply Prog.Lockstep.lock_bind
    unfold inodeRequests at hinode
    rw [hslot] at hinode
    refine (Prog.Lockstep.of_issued (fun q => hreflW q.below) hinode).bind fun x t x' t' hx => ?_
    obtain ⟨rfl, rfl⟩ := hx
    apply Prog.Lockstep.unlock_bind
    apply Prog.Lockstep.lock_bind
    refine (seekBlock_alike hio _ _ _ ⟨hrefl _, fun _ => rfl⟩).bind fun _ t₁ _ t₁' h₁ => ?_
    refine (readBlocks_alike hio _ _ _ _ _ rfl h₁).bind fun b t₂ b' t₂' h₂ => ?_
    apply Prog.Lockstep.unlock_bind
    exact (fsIoctl_alike _ _ _ h₂.2).bind fun _ t₃ _ t₃' h₃ => Prog.Lockstep.ret rfl

theorem fsWrite_alike (hio : BackendAlike serve serve' W R be)
    (hreflW : ∀ b, W b b) (hrefl : ∀ b, R b b)
    (hinode : ∀ q ∈ inodeRequests be mt io buf.length serve' s, fsServe serve q = fsServe serve' q) :
    FsLockstep serve serve' W (fsWrite be mt io buf) (fsWrite be mt io buf) s s
      fun v _ v' _ => v' = v := by
  obtain ⟨r, hr, hget⟩ := exec_fsIoctl_position mt io s
  unfold fsWrite
  apply Prog.Lockstep.bind_of_eq (hget serve).1 (hget serve').1 (hget serve).2 (hget serve').2
  dsimp only
  rw [hr]
  cases hslot : firstSlot mt io with
  | none => exact Prog.Lockstep.ret rfl
  | some slot =>
    apply Prog.Lockstep.lock_bind
    unfold inodeRequests at hinode
    rw [hslot] at hinode
    refine (Prog.Lockstep.of_issued (fun q => hreflW q.below) hinode).bind fun x t x' t' hx => ?_
    obtain ⟨rfl, rfl⟩ := hx
    apply Prog.Lockstep.unlock_bind
    refine (seekBlock_alike hio _ _ _ ⟨hrefl _, fun _ => rfl⟩).bind fun _ t₁ _ t₁' h₁ => ?_
    apply Prog.Lockstep.lock_bind
    refine (writeBlocks_alike hio _ _ _ _ _ _ h₁).bind fun _ t₂ _ t₂' h₂ => ?_
    apply Prog.Lockstep.unlock_bind
    exact (fsIoctl_alike _ _ _ h₂).bind fun _ t₃ _ t₃' h₃ => Prog.Lockstep.ret rfl

end Alike

/-! ## Device errors -/

open Vioblk

section Errors

variable {g : Geometry} {ζ : Type} (kmalloc : Kmalloc ζ) (st : Nat → BlkStatus)
  (s : Blk g (Faulty ζ)) (mt : Mounted) (io : Nat) (f : FsState (Blk g (Faulty ζ))) (buf : Bytes)

/-- The block device that may fail, behind the file system. -/
abbrev faultyBackend : Backend (Blk g (Faulty ζ)) := blkBackend g (liftAlloc kmalloc)

/-- What the calls return, if they return. -/
def readValue : Option Int := ((vioblkRead buf).exec (serveFaulty st) s).map fun r => r.1.1

def writeValue : Option Int :=
  ((vioblkWrite (liftAlloc kmalloc) buf).exec (serveFaulty st) s).map fun r => r.1

def fsReadValue : Option Int :=
  ((fsRead (faultyBackend kmalloc) mt io buf).exec (fsServe (serveFaulty st)) f).map fun r => r.1.1

def fsWriteValue : Option Int :=
  ((fsWrite (faultyBackend kmalloc) mt io buf).exec (fsServe (serveFaulty st)) f).map fun r => r.1

/-- The requests of `fs_read` behind those for the inode. They bring its data, each at least a byte:
a read of no bytes makes none. -/
def dataRequests : List (FsState (Blk g (Faulty ζ))) :=
  ((fsRead (faultyBackend kmalloc) mt io buf).issued (fsServe (serveFaulty st)) f).drop
    (inodeRequests (faultyBackend kmalloc) mt io buf.length (serveFaulty st) f).length

/-- Every byte that a `vioblk_read` with a count delivers comes from a request that has completed
well. -/
def ReadReported : Prop :=
  ∀ v b t, (vioblkRead buf).exec (serveFaulty st) s = some ((v, b), t) → 0 ≤ v →
    FromOk st (readRun g s.dev.opened s.dev.pos buf.length).1
      ((vioblkRead buf).issued (serveFaulty st) s)

/-- If a `vioblk_write` returns its length, all its requests have completed well. -/
def WriteReported : Prop :=
  writeValue kmalloc st s buf = some (buf.length : Int) →
    ∀ q ∈ (vioblkWrite (liftAlloc kmalloc) buf).issued (serveFaulty st) s, completion st q = .ok

/-- If a `fs_read` returns a count, all requests that have brought its data have completed well. -/
def FsReadReported : Prop :=
  ∀ v, fsReadValue kmalloc st mt io f buf = some v → 0 ≤ v →
    ∀ q ∈ dataRequests kmalloc st mt io f buf, completion st q.below = .ok

/-- If a `fs_write` returns its length, all its requests have completed well. -/
def FsWriteReported : Prop :=
  fsWriteValue kmalloc st mt io f buf = some (buf.length : Int) →
    ∀ q ∈ (fsWrite (faultyBackend kmalloc) mt io buf).issued (fsServe (serveFaulty st)) f,
      completion st q.below = .ok

/-! ### The requests that a healthy device would get -/

/-- None of the requests that a call of the driver makes on a healthy device is one that fails with
the statuses `st`. -/
def Spared {α : Type} (p : Vioblk.Code g (Faulty ζ) α) : Prop :=
  ∀ q ∈ p.issued (serveFaulty healthy) s, completion st q = .ok

/-- The same for requests of a file operation. -/
def FsSpared (requests : List (FsState (Blk g (Faulty ζ)))) : Prop :=
  ∀ q ∈ requests, completion st q.below = .ok

/-- None of the requests for the inode of the file fails. -/
def InodeSpared : Prop :=
  FsSpared st (inodeRequests (faultyBackend kmalloc) mt io buf.length (serveFaulty healthy) f)

theorem faultyBackend_alike (st' : Nat → BlkStatus) :
    BackendAlike (serveFaulty st) (serveFaulty st') SameRequest Alike
      (faultyBackend kmalloc : Backend (Blk g (Faulty ζ))) :=
  (io_alike st st' kmalloc).zoom (belowLens _)

/-- The device with the statuses does with a request that it spares what a healthy one does. -/
theorem fsServe_of_spared {requests : List (FsState (Blk g (Faulty ζ)))} (h : FsSpared st requests) :
    ∀ q ∈ requests, fsServe (serveFaulty st) q = fsServe (serveFaulty healthy) q := by
  intro q hq
  show ((serveFaulty st q.below).map _) = ((serveFaulty healthy q.below).map _)
  rw [serveFaulty_of_ok (h q hq)]

theorem fsRead_lockstep (h : InodeSpared kmalloc st mt io f buf) :
    FsLockstep (serveFaulty st) (serveFaulty healthy) SameRequest
      (fsRead (faultyBackend kmalloc) mt io buf) (fsRead (faultyBackend kmalloc) mt io buf) f f
      fun r _ r' _ => r'.1 = r.1 :=
  fsRead_alike (faultyBackend_alike kmalloc st healthy) SameRequest.refl Alike.refl
    (fsServe_of_spared st h)

theorem fsWrite_lockstep (h : InodeSpared kmalloc st mt io f buf) :
    FsLockstep (serveFaulty st) (serveFaulty healthy) SameRequest
      (fsWrite (faultyBackend kmalloc) mt io buf) (fsWrite (faultyBackend kmalloc) mt io buf) f f
      fun v _ v' _ => v' = v :=
  fsWrite_alike (faultyBackend_alike kmalloc st healthy) SameRequest.refl Alike.refl
    (fsServe_of_spared st h)

/-- With the inode read well, as many requests are made for it as on a healthy device. -/
theorem inodeRequests_eq (h : InodeSpared kmalloc st mt io f buf) :
    inodeRequests (faultyBackend kmalloc) mt io buf.length (serveFaulty st) f =
      inodeRequests (faultyBackend kmalloc) mt io buf.length (serveFaulty healthy) f := by
  have hserve := fsServe_of_spared st h
  unfold inodeRequests at hserve ⊢
  cases hslot : firstSlot mt io with
  | none => rfl
  | some slot =>
    rw [hslot] at hserve
    exact (Prog.eq_of_issued _ f hserve).2

/-! ### What is returned does not depend on the statuses -/

theorem readValue_eq : readValue st s buf = readValue healthy s buf :=
  (vioblkRead_alike rfl (Alike.refl s)).map_eq fun _ _ _ _ h => h.1.1.symm

theorem writeValue_eq : writeValue kmalloc st s buf = writeValue kmalloc healthy s buf :=
  (vioblkWrite_alike kmalloc buf (Alike.refl s)).map_eq fun _ _ _ _ h => h.1.symm

theorem fsReadValue_eq (h : InodeSpared kmalloc st mt io f buf) :
    fsReadValue kmalloc st mt io f buf = fsReadValue kmalloc healthy mt io f buf :=
  (fsRead_lockstep kmalloc st mt io f buf h).map_eq fun _ _ _ _ h => h.symm

theorem fsWriteValue_eq (h : InodeSpared kmalloc st mt io f buf) :
    fsWriteValue kmalloc st mt io f buf = fsWriteValue kmalloc healthy mt io f buf :=
  (fsWrite_lockstep kmalloc st mt io f buf h).map_eq fun _ _ _ _ h => h.symm

/-! ### When failures are reported -/

theorem completion_iff (q q' : Blk g (Faulty ζ)) (h : SameRequest q q') :
    completion st q = .ok ↔ completion st q' = .ok := by rw [h.completion]

theorem readReported_iff (hpos : s.dev.pos < 2 ^ 64) :
    ReadReported st s buf ↔
      (∀ v, readValue healthy s buf = some v → v < 0) ∨ Spared st s (vioblkRead buf) := by
  have hspared : (∀ q ∈ (vioblkRead buf).issued (serveFaulty st) s, completion st q = .ok) ↔
      Spared st s (vioblkRead buf) := Prog.forall_issued_iff
    (vioblkRead_alike rfl (Alike.refl s)).issued (completion_iff st)
  rw [← readValue_eq st, ← hspared]
  unfold ReadReported readValue
  cases hexec : (vioblkRead buf).exec (serveFaulty st) s with
  | none => exact iff_of_true nofun (Or.inl nofun)
  | some r =>
    obtain ⟨⟨v, b⟩, t⟩ := r
    have hiff := fromOk_iff hpos hexec
    constructor
    · intro h
      by_cases hneg : v < 0
      · exact Or.inl fun v' hv => Option.some.inj hv ▸ hneg
      · exact Or.inr (hiff.mp (h v b t rfl (Int.not_lt.mp hneg)))
    · rintro (hneg | hall) v' b' t' heq hge
      · obtain rfl : v = v' := congrArg (fun r => r.1.1) (Option.some.inj heq)
        exact absurd (hneg v rfl) (Int.not_lt.mpr hge)
      · exact hiff.mpr hall

theorem writeReported_iff :
    WriteReported kmalloc st s buf ↔ writeValue kmalloc healthy s buf ≠ some (buf.length : Int) ∨
      Spared st s (vioblkWrite (liftAlloc kmalloc) buf) := by
  unfold WriteReported Spared
  rw [writeValue_eq, imp_iff_not_or]
  exact or_congr_right (Prog.forall_issued_iff
    (vioblkWrite_alike kmalloc buf (Alike.refl s)).issued (completion_iff st))

theorem fsReadReported_iff (h : InodeSpared kmalloc st mt io f buf) :
    FsReadReported kmalloc st mt io f buf ↔
      (∀ v, fsReadValue kmalloc healthy mt io f buf = some v → v < 0) ∨
        FsSpared st (dataRequests kmalloc healthy mt io f buf) := by
  have hdata : FsSpared st (dataRequests kmalloc st mt io f buf) ↔
      FsSpared st (dataRequests kmalloc healthy mt io f buf) := by
    unfold dataRequests
    rw [inodeRequests_eq kmalloc st mt io f buf h]
    exact Prog.forall_issued_iff (List.forall₂_drop _ (fsRead_lockstep kmalloc st mt io f buf h).issued)
      fun q q' => completion_iff st q.below q'.below
  rw [← hdata, ← fsReadValue_eq kmalloc st mt io f buf h]
  constructor
  · intro hreported
    by_cases hneg : ∃ v, fsReadValue kmalloc st mt io f buf = some v ∧ 0 ≤ v
    · obtain ⟨v, hv, hge⟩ := hneg
      exact Or.inr (hreported v hv hge)
    · exact Or.inl fun v hv => Int.not_le.mp fun hge => hneg ⟨v, hv, hge⟩
  · rintro (hneg | hall) v hv hge
    · exact absurd (hneg v hv) (Int.not_lt.mpr hge)
    · exact hall

theorem fsWriteReported_iff (h : InodeSpared kmalloc st mt io f buf) :
    FsWriteReported kmalloc st mt io f buf ↔
      fsWriteValue kmalloc healthy mt io f buf ≠ some (buf.length : Int) ∨
        FsSpared st ((fsWrite (faultyBackend kmalloc) mt io buf).issued
          (fsServe (serveFaulty healthy)) f) := by
  unfold FsWriteReported
  rw [fsWriteValue_eq kmalloc st mt io f buf h, imp_iff_not_or]
  exact or_congr_right (Prog.forall_issued_iff (fsWrite_lockstep kmalloc st mt io f buf h).issued
    fun q q' => completion_iff st q.below q'.below)

/-- **Device errors are not reported.** On a device that completes requests with the statuses `st`,
`vioblk_read` and `vioblk_write` return what they return on a healthy device, and so do `fs_read` and
`fs_write` if the inode is read well. So the failures are reported if and only if the statuses spare
the requests of the call on a healthy device, or the call does not return a count there either. -/
theorem device_errors_iff :
    (readValue st s buf = readValue healthy s buf ∧
      (s.dev.pos < 2 ^ 64 → (ReadReported st s buf ↔
        (∀ v, readValue healthy s buf = some v → v < 0) ∨ Spared st s (vioblkRead buf)))) ∧
    (writeValue kmalloc st s buf = writeValue kmalloc healthy s buf ∧
      (WriteReported kmalloc st s buf ↔
        writeValue kmalloc healthy s buf ≠ some (buf.length : Int) ∨
          Spared st s (vioblkWrite (liftAlloc kmalloc) buf))) ∧
    (InodeSpared kmalloc st mt io f buf →
      (fsReadValue kmalloc st mt io f buf = fsReadValue kmalloc healthy mt io f buf ∧
        (FsReadReported kmalloc st mt io f buf ↔
          (∀ v, fsReadValue kmalloc healthy mt io f buf = some v → v < 0) ∨
            FsSpared st (dataRequests kmalloc healthy mt io f buf))) ∧
      (fsWriteValue kmalloc st mt io f buf = fsWriteValue kmalloc healthy mt io f buf ∧
        (FsWriteReported kmalloc st mt io f buf ↔
          fsWriteValue kmalloc healthy mt io f buf ≠ some (buf.length : Int) ∨
            FsSpared st ((fsWrite (faultyBackend kmalloc) mt io buf).issued
              (fsServe (serveFaulty healthy)) f)))) := by
  refine ⟨⟨readValue_eq st s buf, readReported_iff st s buf⟩,
    ⟨writeValue_eq kmalloc st s buf, writeReported_iff kmalloc st s buf⟩, fun hinode => ⟨⟨?_, ?_⟩, ?_, ?_⟩⟩
  · exact fsReadValue_eq kmalloc st mt io f buf hinode
  · exact fsReadReported_iff kmalloc st mt io f buf hinode
  · exact fsWriteValue_eq kmalloc st mt io f buf hinode
  · exact fsWriteReported_iff kmalloc st mt io f buf hinode

end Errors

/-- A device of one sector with zeros, whose block buffer still holds another block. -/
def staleBuffer : Blk oneSector (Faulty Unit) where
  dev :=
    { opened := true
      pos := 0
      reqType := .tIn
      reqSector := 0
      descWrite := true
      blkbuf := List.Vector.replicate _ 7
      pending := false
      disk := List.Vector.replicate _ 0 }
  heap := ⟨(), 0⟩

/-- A mounted file system without open files. -/
def nothingOpen : Mounted := ⟨fun _ => ⟨none, 0, 0⟩, 0⟩

theorem device_errors_staleBuffer :
    ReadReported healthy staleBuffer [0] ∧
      ¬ReadReported (fun _ => .ioerr) staleBuffer [0] := by
  have hvalue : readValue healthy staleBuffer [0] = some 1 := by decide +kernel
  obtain ⟨⟨-, hhealthy⟩, -⟩ := device_errors_iff blankAlloc healthy staleBuffer nothingOpen 0
    ⟨staleBuffer, fun _ => 0⟩ [0]
  obtain ⟨⟨-, hfaulty⟩, -⟩ := device_errors_iff blankAlloc (fun _ => .ioerr) staleBuffer nothingOpen 0
    ⟨staleBuffer, fun _ => 0⟩ [0]
  refine ⟨(hhealthy (by decide)).mpr (Or.inr ?_), fun h => ?_⟩
  · unfold Spared
    decide +kernel
  · obtain hneg | hall := (hfaulty (by decide)).mp h
    · exact absurd (hneg 1 hvalue) (by decide)
    · unfold Spared at hall
      revert hall
      decide +kernel

/-- With every request failing, `vioblk_read` returns a byte of the stale buffer as data, and
`vioblk_write` returns that it has written a byte, which it has not. -/
theorem device_errors_returned_as_data :
    (∃ t, (vioblkRead [0]).exec (serveFaulty fun _ => .ioerr) staleBuffer = some ((1, [7]), t)) ∧
      staleBuffer.dev.disk.toList[0]? = some 0 ∧
      ∃ t, (vioblkWrite (liftAlloc blankAlloc) [9]).exec (serveFaulty fun _ => .ioerr) staleBuffer =
          some (1, t) ∧
        t.dev.disk.toList[0]? = some 0 := by
  have hread : ((vioblkRead [0]).exec (serveFaulty fun _ => .ioerr) staleBuffer).map Prod.fst =
      some (1, [7]) := by decide +kernel
  have hwrite : ((vioblkWrite (liftAlloc blankAlloc) [9]).exec (serveFaulty fun _ => .ioerr)
      staleBuffer).map (fun r => (r.1, r.2.dev.disk.toList[0]?)) = some (1, some 0) := by
    decide +kernel
  obtain ⟨⟨r, t⟩, hexec, hr⟩ := Option.map_eq_some_iff.mp hread
  obtain ⟨⟨v, t'⟩, hexec', hv⟩ := Option.map_eq_some_iff.mp hwrite
  obtain ⟨hv, hdisk⟩ := Prod.mk.inj hv
  refine ⟨⟨t, ?_⟩, rfl, t', ?_, hdisk⟩
  · rw [hexec]
    exact congrArg (fun r => some (r, t)) hr
  · rw [hexec']
    exact congrArg (fun v => some (v, t')) hv

end Kfs

end RiscvKernel
