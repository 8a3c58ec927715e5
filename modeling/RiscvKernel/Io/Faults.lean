import RiscvKernel.Io.VioblkGeometry
import RiscvKernel.Lib.Lockstep

/-!
# Requests that fail

A device that completes requests with an error: it moves no data and says so in `req_status`, which
the driver does not read. `serveFaulty` is such a device; the schedule `st` says how it completes its
requests, one after the other.

The driver does the same whatever the schedule is (`vioblkRead_alike`, `vioblkWrite_alike`): its
positions and counts are computed from the geometry and the length, never from what a request
brought. So what a call returns does not depend on the statuses either.
-/

namespace RiscvKernel

open Lib

namespace Vioblk

/-! ## The device -/

/-- `VIRTIO_BLK_S_OK`, `VIRTIO_BLK_S_IOERR` and `VIRTIO_BLK_S_UNSUPP` -/
inductive BlkStatus where
  | ok
  | ioerr
  | unsupp
  deriving DecidableEq

/-- The allocator, and how many requests the device has completed. -/
structure Faulty (ζ : Type) where
  heap : ζ
  served : Nat

variable {g : Geometry} {ζ : Type}

/-- An allocator beside the device. -/
def liftAlloc (kmalloc : Kmalloc ζ) : Kmalloc (Faulty ζ) := fun n z =>
  (kmalloc n z.heap).map fun r => (r.1, { z with heap := r.2 })

/-- The request is inside the medium and the data buffer has its direction. -/
def Servable (d : VioblkDevice g) : Prop :=
  d.reqSector * 512 + g.blksz ≤ g.size ∧ d.descWrite = decide (d.reqType = .tIn)

instance (d : VioblkDevice g) : Decidable (Servable d) := inferInstanceAs (Decidable (_ ∧ _))

/-- The status that the device completes the pending request with. -/
def completion (st : Nat → BlkStatus) (s : Blk g (Faulty ζ)) : BlkStatus :=
  if Servable s.dev then st s.heap.served else .ioerr

/-- The device completes the pending request, if there is one, and transfers data if its status is
`VIRTIO_BLK_S_OK`. -/
def serveFaulty (st : Nat → BlkStatus) (s : Blk g (Faulty ζ)) : Option (Blk g (Faulty ζ)) :=
  if s.dev.pending then
    some
      { dev := { (if completion st s = .ok then transfer s.dev else s.dev) with pending := false }
        heap := { s.heap with served := s.heap.served + 1 } }
  else none

/-- A device on which no request fails that is inside the medium. -/
def healthy : Nat → BlkStatus := fun _ => .ok

/-- The device answers every request, and counts it. -/
theorem serveFaulty_notifyAvail (st : Nat → BlkStatus) (s : Blk g (Faulty ζ)) :
    ∃ t, serveFaulty st (notifyAvail s) = some t ∧ t.dev.pos = s.dev.pos ∧
      t.heap = { s.heap with served := s.heap.served + 1 } ∧ t.dev.opened = s.dev.opened := by
  unfold serveFaulty
  refine ⟨_, if_pos rfl, ?_, rfl, ?_⟩
  · dsimp only
    split
    · exact transfer_pos (notifyAvail s).dev
    · rfl
  · dsimp only
    split
    · exact transfer_opened (notifyAvail s).dev
    · rfl

theorem answers_serveFaulty (st : Nat → BlkStatus) :
    Answers Faulty.heap (serveFaulty st : Blk g (Faulty ζ) → Option (Blk g (Faulty ζ))) := by
  intro s
  obtain ⟨t, hserve, hpos, hheap, hopened⟩ := serveFaulty_notifyAvail st s
  refine ⟨t, hserve, hpos, ?_, hopened⟩
  rw [hheap]

/-- A request that completes well is served as on a healthy device. -/
theorem serveFaulty_of_ok {st : Nat → BlkStatus} {q : Blk g (Faulty ζ)} (h : completion st q = .ok) :
    serveFaulty st q = serveFaulty healthy q := by
  have hservable : Servable q.dev := by
    unfold completion at h
    split at h
    · assumption
    · cases h
  have hhealthy : completion healthy q = .ok := if_pos hservable
  unfold serveFaulty
  rw [h, hhealthy]

/-! ## Two devices -/

/-- What the driver looks at is the same, and as many requests have been completed. -/
structure Alike (s s' : Blk g (Faulty ζ)) : Prop where
  pos : s'.dev.pos = s.dev.pos
  opened : s'.dev.opened = s.dev.opened
  heap : s'.heap = s.heap

theorem Alike.refl (s : Blk g (Faulty ζ)) : Alike s s := ⟨rfl, rfl, rfl⟩

theorem Alike.setPos {s s' : Blk g (Faulty ζ)} (h : Alike s s') (pos : Nat) :
    Alike (setPos pos s) (setPos pos s') := ⟨rfl, h.opened, h.heap⟩

/-- Two requests for the same sector in the same direction, with the same number. -/
structure SameRequest (q q' : Blk g (Faulty ζ)) : Prop where
  sector : q'.dev.reqSector = q.dev.reqSector
  type : q'.dev.reqType = q.dev.reqType
  descWrite : q'.dev.descWrite = q.dev.descWrite
  served : q'.heap.served = q.heap.served

theorem SameRequest.refl (q : Blk g (Faulty ζ)) : SameRequest q q := ⟨rfl, rfl, rfl, rfl⟩

/-- A device completes them with the same status. -/
theorem SameRequest.completion {q q' : Blk g (Faulty ζ)} (h : SameRequest q q')
    (st : Nat → BlkStatus) : completion st q' = completion st q := by
  have hservable : Servable q'.dev ↔ Servable q.dev := by
    unfold Servable
    rw [h.sector, h.type, h.descWrite]
  unfold Vioblk.completion
  rw [h.served]
  exact if_congr hservable rfl rfl

/-- After a request the states are alike again. -/
theorem Alike.served {s s' : Blk g (Faulty ζ)} (h : Alike s s') (ty : ReqType) (sector : Int)
    (st st' : Nat → BlkStatus) :
    ∃ t t', serveFaulty st (notifyAvail (setRequest ty sector s)) = some t ∧
      serveFaulty st' (notifyAvail (setRequest ty sector s')) = some t' ∧
      SameRequest (notifyAvail (setRequest ty sector s)) (notifyAvail (setRequest ty sector s')) ∧
      Alike t t' := by
  obtain ⟨t, hserve, hpos, hheap, hopened⟩ := serveFaulty_notifyAvail st (setRequest ty sector s)
  obtain ⟨t', hserve', hpos', hheap', hopened'⟩ := serveFaulty_notifyAvail st' (setRequest ty sector s')
  refine ⟨t, t', hserve, hserve', ⟨rfl, rfl, rfl, congrArg Faulty.served h.heap⟩, ?_, ?_, ?_⟩
  · rw [hpos, hpos']
    exact h.pos
  · rw [hopened, hopened']
    exact h.opened
  · rw [hheap, hheap']
    exact congrArg (fun z => { z with served := z.served + 1 }) h.heap

section Driver

variable {st st' : Nat → BlkStatus} {s s' : Blk g (Faulty ζ)}

/-- The loop of `vioblk_read`. Induction on the rounds left. -/
theorem readLoop_alike (n bufsz off : Nat) {buf buf' : Bytes} (hlen : buf'.length = buf.length)
    (h : Alike s s') :
    Prog.Lockstep (serveFaulty st) (serveFaulty st') SameRequest (readLoop n bufsz off buf)
      (readLoop n bufsz off buf') s s' fun b t b' t' => b'.length = b.length ∧ Alike t t' := by
  induction n generalizing bufsz off buf buf' s s' with
  | zero =>
    unfold readLoop
    split
    · exact Prog.Lockstep.ret ⟨hlen, h⟩
    · exact Prog.Lockstep.crash
  | succ n ih =>
    unfold readLoop
    split
    · exact Prog.Lockstep.ret ⟨hlen, h⟩
    apply Prog.Lockstep.get_bind
    rw [h.pos]
    apply Prog.Lockstep.modify_bind
    obtain ⟨t, t', hserve, hserve', hsame, ht⟩ := h.served .tIn (sectorOf g s.dev.pos) st st'
    apply Prog.Lockstep.waitFor_bind hserve hserve' hsame
    apply Prog.Lockstep.get_bind
    rw [ht.pos]
    apply Prog.Lockstep.assert_bind (by rw [hlen])
    intro hok
    apply Prog.Lockstep.modify_bind
    obtain ⟨c, hc⟩ := Int.eq_ofNat_of_zero_le hok.1
    rw [hc] at hok ⊢
    rw [Int.toNat_natCast]
    -- both copies stay inside
    have hcopy : ∀ (b : Bytes) (v : List.Vector UInt8 g.blksz), b.length = buf.length →
        (patch b off (slice v.toList (t.dev.pos % g.blksz) c)).length = buf.length := by
      intro b v hb
      rw [length_patch, hb]
      rw [length_slice (by rw [v.toList_length]; omega)]
      omega
    refine ih _ _ ?_ (ht.setPos _)
    rw [hcopy buf' t'.dev.blkbuf hlen, hcopy buf t.dev.blkbuf rfl]

theorem vioblkRead_alike {buf buf' : Bytes} (hlen : buf'.length = buf.length) (h : Alike s s') :
    Prog.Lockstep (serveFaulty st) (serveFaulty st') SameRequest (vioblkRead buf) (vioblkRead buf') s s'
      fun r t r' t' => (r'.1 = r.1 ∧ r'.2.length = r.2.length) ∧ Alike t t' := by
  unfold vioblkRead
  apply Prog.Lockstep.get_bind
  rw [h.pos, h.opened, hlen]
  split
  · exact Prog.Lockstep.ret ⟨⟨rfl, hlen⟩, h⟩
  split
  · exact Prog.Lockstep.ret ⟨⟨rfl, hlen⟩, h⟩
  apply Prog.Lockstep.lock_bind
  refine (readLoop_alike _ _ 0 hlen h).bind fun b t b' t' hloop => ?_
  apply Prog.Lockstep.unlock_bind
  apply Prog.Lockstep.get_bind
  refine Prog.Lockstep.ret ⟨⟨?_, hloop.1⟩, hloop.2⟩
  dsimp only
  rw [hloop.2.pos]

theorem vioblkIoctl_alike (cmd arg : Nat) (h : Alike s s') :
    Prog.Lockstep (serveFaulty st) (serveFaulty st') SameRequest (vioblkIoctl cmd arg) (vioblkIoctl cmd arg) s s'
      fun r t r' t' => r' = r ∧ Alike t t' := by
  unfold vioblkIoctl
  apply Prog.Lockstep.lock_bind
  have hbody : Prog.Lockstep (serveFaulty st) (serveFaulty st') SameRequest (ioctlBody cmd arg)
      (ioctlBody cmd arg) s s' fun r t r' t' => r' = r ∧ Alike t t' := by
    unfold ioctlBody
    apply Prog.Lockstep.get_bind
    rw [h.pos]
    split
    · exact Prog.Lockstep.ret ⟨rfl, h⟩
    split
    · exact Prog.Lockstep.ret ⟨rfl, h⟩
    split
    · exact Prog.Lockstep.modify_bind (Prog.Lockstep.ret ⟨rfl, h.setPos arg⟩)
    split
    · exact Prog.Lockstep.ret ⟨rfl, h⟩
    · exact Prog.Lockstep.ret ⟨rfl, h⟩
  refine hbody.bind fun r t r' t' hr => ?_
  exact Prog.Lockstep.unlock_bind (Prog.Lockstep.ret hr)

theorem alloc_alike (kmalloc : Kmalloc ζ) (n : Nat) (h : Alike s s') :
    Prog.Lockstep (serveFaulty st) (serveFaulty st') SameRequest (alloc (liftAlloc kmalloc) n)
      (alloc (liftAlloc kmalloc) n) s s' fun b t b' t' => b' = b ∧ Alike t t' := by
  constructor
  · unfold alloc kmallocIn liftAlloc Prog.exec
    dsimp only
    rw [h.heap]
    cases kmalloc n s.heap.heap with
    | none => exact Option.Rel.none
    | some r => exact Option.Rel.some ⟨rfl, h.pos, h.opened, rfl⟩
  · rw [issued_alloc, issued_alloc]
    exact List.Forall₂.nil

/-- The read half of a read-modify-write. -/
theorem readBlock_alike (kmalloc : Kmalloc ζ) (posPre posNew : Nat) (h : Alike s s') :
    Prog.Lockstep (serveFaulty st) (serveFaulty st') SameRequest (readBlock (liftAlloc kmalloc) posPre posNew)
      (readBlock (liftAlloc kmalloc) posPre posNew) s s'
      fun b t b' t' => b'.length = b.length ∧ Alike t t' := by
  unfold readBlock
  apply Prog.Lockstep.unlock_bind
  refine (vioblkIoctl_alike _ posNew h).bind fun _ t₁ _ t₁' h₁ => ?_
  refine (alloc_alike kmalloc g.blksz h₁.2).bind fun fresh t₂ fresh' t₂' h₂ => ?_
  obtain ⟨rfl, h₂⟩ := h₂
  refine (vioblkRead_alike rfl h₂).bind fun r t₃ r' t₃' h₃ => ?_
  refine (vioblkIoctl_alike _ posPre h₃.2).bind fun _ t₄ _ t₄' h₄ => ?_
  exact Prog.Lockstep.lock_bind (Prog.Lockstep.ret ⟨h₃.1.2, h₄.2⟩)

/-- The loop of `vioblk_write`. Induction on the rounds left. -/
theorem writeLoop_alike (kmalloc : Kmalloc ζ) (n left : Nat) (buf : Bytes) (h : Alike s s') :
    Prog.Lockstep (serveFaulty st) (serveFaulty st') SameRequest (writeLoop (liftAlloc kmalloc) n left buf)
      (writeLoop (liftAlloc kmalloc) n left buf) s s' fun _ t _ t' => Alike t t' := by
  induction n generalizing left buf s s' with
  | zero =>
    unfold writeLoop
    split
    · exact Prog.Lockstep.ret h
    · exact Prog.Lockstep.crash
  | succ n ih =>
    unfold writeLoop
    split
    · exact Prog.Lockstep.ret h
    apply Prog.Lockstep.get_bind
    rw [h.pos]
    refine (readBlock_alike kmalloc _ _ h).bind fun b t₁ b' t₁' h₁ => ?_
    apply Prog.Lockstep.get_bind
    rw [h₁.2.pos]
    refine Prog.Lockstep.assert_bind Iff.rfl fun hok => ?_
    generalize countOf g (sectorOf g s.dev.pos) s.dev.pos left = count at hok ⊢
    -- the blocks have the same length, and so they both have that of a block or both do not
    have hpatch : (patch b' (t₁.dev.pos % g.blksz) (buf.take count.toNat)).length =
        (patch b (t₁.dev.pos % g.blksz) (buf.take count.toNat)).length := by
      simp only [patch, List.length_append, List.length_take, List.length_drop, h₁.1]
    unfold block
    by_cases hblk : (patch b (t₁.dev.pos % g.blksz) (buf.take count.toNat)).length = g.blksz
    · rw [dif_pos hblk, dif_pos (hpatch.trans hblk)]
      apply Prog.Lockstep.modify_bind
      apply Prog.Lockstep.modify_bind
      have hset : Alike (setBlkbuf ⟨_, hblk⟩ t₁) (setBlkbuf ⟨_, hpatch.trans hblk⟩ t₁') :=
        ⟨h₁.2.pos, h₁.2.opened, h₁.2.heap⟩
      obtain ⟨t₂, t₂', hserve, hserve', hsame, h₂⟩ :=
        hset.served .tOut (sectorOf g s.dev.pos) st st'
      apply Prog.Lockstep.waitFor_bind hserve hserve' hsame
      apply Prog.Lockstep.modify_bind
      rw [h₂.pos]
      exact ih _ _ (h₂.setPos _)
    · rw [dif_neg hblk, dif_neg (by rw [hpatch]; exact hblk)]
      exact Prog.Lockstep.crash

theorem vioblkWrite_alike (kmalloc : Kmalloc ζ) (buf : Bytes) (h : Alike s s') :
    Prog.Lockstep (serveFaulty st) (serveFaulty st') SameRequest (vioblkWrite (liftAlloc kmalloc) buf)
      (vioblkWrite (liftAlloc kmalloc) buf) s s' fun v t v' t' => v' = v ∧ Alike t t' := by
  unfold vioblkWrite
  apply Prog.Lockstep.get_bind
  rw [h.pos, h.opened]
  split
  · exact Prog.Lockstep.ret ⟨rfl, h⟩
  split
  · exact Prog.Lockstep.ret ⟨rfl, h⟩
  apply Prog.Lockstep.lock_bind
  refine (writeLoop_alike kmalloc _ _ buf h).bind fun _ t _ t' hloop => ?_
  apply Prog.Lockstep.unlock_bind
  apply Prog.Lockstep.get_bind
  refine Prog.Lockstep.ret ⟨?_, hloop⟩
  rw [hloop.pos]

theorem io_alike (st st' : Nat → BlkStatus) (kmalloc : Kmalloc ζ) :
    (io g (liftAlloc kmalloc)).Alike (serveFaulty st) (serveFaulty st') SameRequest Alike where
  read := vioblkRead_alike
  write buf _ _ h := vioblkWrite_alike kmalloc buf h
  ctl cmd arg _ _ h := vioblkIoctl_alike cmd arg h

end Driver

/-! ## Reads -/

/-- The bytes of each round come from a request that has completed well. -/
def FromOk (st : Nat → BlkStatus) (rounds : List Round) (requests : List (Blk g (Faulty ζ))) : Prop :=
  ∀ (i : Nat) (r : Round) (q : Blk g (Faulty ζ)), rounds[i]? = some r → requests[i]? = some q →
    1 ≤ r.count g → completion st q = .ok

theorem clampLen_lt (g : Geometry) (pos n : Nat) : clampLen g pos n < 2 ^ 64 := by
  have hm := asked_lt n
  rw [clampLen_emod]
  split
  · exact u64_lt _
  · omega

/-- The requests of a `vioblk_read` that returns are those of its rounds, and every one of them
delivers something. -/
theorem vioblkRead_rounds {st : Nat → BlkStatus} {s t : Blk g (Faulty ζ)} {buf b : Bytes} {v : Int}
    (hpos : s.dev.pos < 2 ^ 64)
    (hexec : (vioblkRead buf).exec (serveFaulty st) s = some ((v, b), t)) :
    ((vioblkRead buf).issued (serveFaulty st) s).map request =
        (readRun g s.dev.opened s.dev.pos buf.length).1.map (Round.request g) ∧
      ∀ r ∈ (readRun g s.dev.opened s.dev.pos buf.length).1, 1 ≤ r.count g := by
  obtain ⟨hissued, -, hnone⟩ := vioblkRead_run (answers_serveFaulty st) buf s rfl
  refine ⟨hissued, ?_⟩
  have hdone : (readRun g s.dev.opened s.dev.pos buf.length).2 = true := by
    by_contra hnot
    rw [hnone (Bool.not_eq_true _ ▸ hnot)] at hexec
    cases hexec
  unfold readRun at hdone ⊢
  split
  · exact nofun
  · next hquiet =>
    rw [if_neg hquiet] at hdone
    exact runFrom_count_pos hpos (clampLen_lt g _ _) hdone

theorem fromOk_iff {st : Nat → BlkStatus} {s t : Blk g (Faulty ζ)} {buf b : Bytes} {v : Int}
    (hpos : s.dev.pos < 2 ^ 64)
    (hexec : (vioblkRead buf).exec (serveFaulty st) s = some ((v, b), t)) :
    FromOk st (readRun g s.dev.opened s.dev.pos buf.length).1
        ((vioblkRead buf).issued (serveFaulty st) s) ↔
      ∀ q ∈ (vioblkRead buf).issued (serveFaulty st) s, completion st q = .ok := by
  obtain ⟨hissued, hcount⟩ := vioblkRead_rounds hpos hexec
  generalize (vioblkRead buf).issued (serveFaulty st) s = requests at hissued ⊢
  generalize (readRun g s.dev.opened s.dev.pos buf.length).1 = rounds at hissued hcount ⊢
  have hlen : requests.length = rounds.length := by
    rw [← List.length_map request, hissued, List.length_map]
  constructor
  · intro h q hq
    obtain ⟨i, hi, rfl⟩ := List.mem_iff_getElem.mp hq
    have hi' : i < rounds.length := hlen ▸ hi
    exact h i rounds[i] _ (List.getElem?_eq_getElem hi') (List.getElem?_eq_getElem hi)
      (hcount _ (List.getElem_mem hi'))
  · intro h i r q _ hq _
    exact h q (List.mem_of_getElem? hq)

end Vioblk

end RiscvKernel
