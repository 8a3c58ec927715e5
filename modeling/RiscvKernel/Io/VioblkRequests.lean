import RiscvKernel.Io.VioblkRounds

/-!
# The requests of the driver

`vioblk_read` and `vioblk_write` make the requests of their rounds, one after the other, whatever the
device answers (`Answers`): the lists `readRun` and `writeRun` are computed from the geometry, the
position and the length, and the code follows them (`vioblkRead_run`, `vioblkWrite_run`). A round of
`vioblk_write` first reads the block that it changes, with the rounds `hiddenRun`.
-/

namespace RiscvKernel

open Lib

namespace Vioblk

variable {g : Geometry}

/-! ## Reads -/

variable {ζ : Type}

/-- What a request shows of a state: the position and the sector. -/
def request (s : Blk g ζ) : Nat × Nat := (s.dev.pos, s.dev.reqSector)

def Round.request (g : Geometry) (r : Round) : Nat × Nat := (r.pos, u64 (sectorOf g r.pos))

/-- A device that answers every request and leaves alone what the driver keeps: the position, whether
the device is open, and the allocator as far as `view` shows it. -/
def Answers {η : Type} (view : ζ → η) (answer : Blk g ζ → Option (Blk g ζ)) : Prop :=
  ∀ s, ∃ s₁, answer (notifyAvail s) = some s₁ ∧ s₁.dev.pos = s.dev.pos ∧
    view s₁.heap = view s.heap ∧ s₁.dev.opened = s.dev.opened

theorem transfer_opened (d : VioblkDevice g) : (transfer d).opened = d.opened := by
  unfold transfer
  split
  · split <;> rfl
  · rfl

theorem answers_serve : Answers id (serve : Blk g ζ → Option (Blk g ζ)) := by
  intro s
  unfold serve
  exact ⟨_, if_pos rfl, transfer_pos (notifyAvail s).dev, rfl, transfer_opened (notifyAvail s).dev⟩

/-- What a loop or a function leaves alone. -/
structure Kept {η : Type} (view : ζ → η) (s s' : Blk g ζ) : Prop where
  heap : view s'.heap = view s.heap
  opened : s'.dev.opened = s.dev.opened

section Answered

variable {η : Type} {view : ζ → η} {answer : Blk g ζ → Option (Blk g ζ)} (hanswer : Answers view answer)

include hanswer

/-- The requests of the loop of `vioblk_read` are its rounds, and it returns if they come to their
end. -/
theorem readLoop_run (n bufsz off : Nat) (buf : Bytes) (s : Blk g ζ) {t : List Round × Bool}
    (ht : t = runFrom g n ⟨s.dev.pos, bufsz⟩ ((buf.length : Int) - off)) :
    ((readLoop n bufsz off buf).issued answer s).map request = t.1.map (Round.request g) ∧
      (t.2 = true → ∃ buf' s', (readLoop n bufsz off buf).exec answer s = some (buf', s') ∧
        buf'.length = buf.length ∧ Kept view s s') ∧
      (t.2 = false → (readLoop n bufsz off buf).exec answer s = none) := by
  induction n generalizing bufsz off buf s t with
  | zero =>
    obtain rfl := ht
    unfold readLoop runFrom
    by_cases hzero : bufsz = 0
    · rw [if_pos hzero]
      refine ⟨rfl, fun _ => ⟨buf, s, rfl, rfl, rfl, rfl⟩, fun h => ?_⟩
      exact absurd hzero (of_decide_eq_false h)
    · rw [if_neg hzero]
      exact ⟨rfl, fun h => absurd (of_decide_eq_true h) hzero, fun _ => rfl⟩
  | succ n ih =>
    obtain rfl := ht
    unfold readLoop runFrom
    dsimp only
    by_cases hzero : bufsz = 0
    · rw [if_pos hzero, if_pos hzero]
      exact ⟨rfl, fun _ => ⟨buf, s, rfl, rfl, rfl, rfl⟩, fun h => by cases h⟩
    rw [if_neg hzero, if_neg hzero]
    obtain ⟨s₁, hserve, hpos₁, hheap₁, hopened₁⟩ :=
      hanswer (setRequest .tIn (sectorOf g s.dev.pos) s)
    have hpos₁ : s₁.dev.pos = s.dev.pos := hpos₁
    simp only [Prog.issued_get_bind, Prog.issued_modify_bind, Prog.exec_get_bind,
      Prog.exec_modify_bind]
    rw [Prog.issued_waitFor_bind hserve, Prog.exec_waitFor_bind hserve, Prog.issued_get_bind,
      Prog.exec_get_bind, hpos₁]
    obtain ⟨cnt, hcnt⟩ : ∃ cnt, countOf g (sectorOf g s.dev.pos) s.dev.pos bufsz = cnt := ⟨_, rfl⟩
    have hcount : (⟨s.dev.pos, bufsz⟩ : Round).count g = cnt := hcnt
    rw [hcnt]
    by_cases hfits : (⟨s.dev.pos, bufsz⟩ : Round).Fits g ((buf.length : Int) - off)
    · have hok : 0 ≤ cnt ∧ ((s.dev.pos % g.blksz : Nat) : Int) + cnt ≤ g.blksz ∧
          (off : Int) + cnt ≤ buf.length := by
        unfold Round.Fits at hfits
        rw [hcount] at hfits
        exact ⟨hfits.1, hfits.2.1, by omega⟩
      rw [if_pos hfits, Prog.issued_assert_bind hok, Prog.exec_assert_bind hok,
        Prog.issued_modify_bind, Prog.exec_modify_bind]
      unfold Round.next
      rw [hcount]
      obtain ⟨c, rfl⟩ := Int.eq_ofNat_of_zero_le hok.1
      rw [Int.toNat_natCast]
      have hlen : (patch buf off (slice s₁.dev.blkbuf.toList (s.dev.pos % g.blksz) c)).length =
          buf.length := by
        refine length_patch ?_
        rw [length_slice (by rw [s₁.dev.blkbuf.toList_length]; omega)]
        omega
      have hroom : ((patch buf off (slice s₁.dev.blkbuf.toList (s.dev.pos % g.blksz) c)).length : Int) -
          (off + c : Nat) = (buf.length : Int) - off - c := by
        rw [hlen]
        omega
      obtain ⟨hissued, hsome, hnone⟩ := ih (u64 (bufsz - c)) (off + c)
        (patch buf off (slice s₁.dev.blkbuf.toList (s.dev.pos % g.blksz) c))
        (setPos (u64 (s.dev.pos + c)) s₁) rfl
      rw [hroom] at hissued hsome hnone
      refine ⟨?_, fun htrue => ?_, hnone⟩
      · rw [List.map_cons, List.map_cons]
        exact congrArg₂ List.cons rfl hissued
      · obtain ⟨buf', s', hexec, hlen', hkept⟩ := hsome htrue
        exact ⟨buf', s', hexec, hlen'.trans hlen, hkept.heap.trans hheap₁,
          hkept.opened.trans hopened₁⟩
    · have hbad : ¬(0 ≤ cnt ∧ ((s.dev.pos % g.blksz : Nat) : Int) + cnt ≤ g.blksz ∧
          (off : Int) + cnt ≤ buf.length) := by
        unfold Round.Fits at hfits
        rw [hcount] at hfits
        exact fun h => hfits ⟨h.1, h.2.1, by omega⟩
      rw [if_neg hfits, Prog.issued_assert_bind_not hbad, Prog.exec_assert_bind_not hbad]
      exact ⟨rfl, fun h => (by cases h), fun _ => rfl⟩

/-- The rounds of a `vioblk_read` of `n` bytes at `pos`. -/
def readRun (g : Geometry) (opened : Bool) (pos n : Nat) : List Round × Bool :=
  if opened = false ∨ n = 0 then ([], true)
  else runFrom g (clampLen g pos n) ⟨pos, clampLen g pos n⟩ n

theorem vioblkRead_run (buf : Bytes) (s : Blk g ζ) {t : List Round × Bool}
    (ht : t = readRun g s.dev.opened s.dev.pos buf.length) :
    ((vioblkRead buf).issued answer s).map request = t.1.map (Round.request g) ∧
      (t.2 = true → ∃ x buf' s', (vioblkRead buf).exec answer s = some ((x, buf'), s') ∧
        buf'.length = buf.length ∧ Kept view s s') ∧
      (t.2 = false → (vioblkRead buf).exec answer s = none) := by
  obtain rfl := ht
  unfold vioblkRead readRun
  rw [Prog.issued_get_bind, Prog.exec_get_bind]
  by_cases hopen : s.dev.opened = false
  · rw [if_pos hopen, if_pos (Or.inl hopen)]
    exact ⟨rfl, fun _ => ⟨_, buf, s, rfl, rfl, rfl, rfl⟩, nofun⟩
  by_cases hbuf : buf.length = 0
  · rw [if_neg hopen, if_pos hbuf, if_pos (Or.inr hbuf)]
    exact ⟨rfl, fun _ => ⟨_, buf, s, rfl, rfl, rfl, rfl⟩, nofun⟩
  rw [if_neg hopen, if_neg hbuf, if_neg (not_or.mpr ⟨hopen, hbuf⟩)]
  dsimp only
  rw [Prog.issued_lock_bind, Prog.exec_lock_bind]
  obtain ⟨hissued, hsome, hnone⟩ := readLoop_run hanswer (clampLen g s.dev.pos buf.length)
    (clampLen g s.dev.pos buf.length) 0 buf s rfl
  rw [Int.natCast_zero, Int.sub_zero] at hissued hsome hnone
  generalize runFrom g _ _ _ = t at hissued hsome hnone ⊢
  cases hdone : t.2 with
  | false =>
    rw [Prog.issued_bind_of_none (hnone hdone), Prog.exec_bind, hnone hdone]
    exact ⟨hissued, nofun, fun _ => rfl⟩
  | true =>
    obtain ⟨buf', s', hexec, hlen, hkept⟩ := hsome hdone
    rw [Prog.issued_bind_of_eq hexec, Prog.exec_bind_of_eq hexec]
    refine ⟨?_, fun _ => ⟨_, buf', s', rfl, hlen, hkept⟩, nofun⟩
    rw [List.map_append, hissued]
    exact List.append_nil _

end Answered

/-! ## Writes -/

/-- The rounds of the read that a round of `vioblk_write` makes before it writes. The position that
it is made at has only 32 bits. -/
def hiddenRun (g : Geometry) (r : Round) : List Round × Bool :=
  readRun g true (u32 (sectorOf g r.pos * g.blksz)) g.blksz

/-- A round of `vioblk_write` that has got its buffer: the rounds of the read, and whether it comes
to its own request. -/
structure WriteRound where
  round : Round
  hidden : List Round
  written : Bool

def WriteRound.requests (g : Geometry) (w : WriteRound) : List (Nat × Nat) :=
  w.hidden.map (Round.request g) ++ if w.written then [w.round.request g] else []

/-- The rounds of the loop of `vioblk_write`, up to one without a buffer or that does not come to its
request. -/
def writeFrom (g : Geometry) (kmalloc : Kmalloc ζ) : Nat → Round → Int → ζ → List WriteRound
  | 0, _, _, _ => []
  | n + 1, r, room, heap =>
    if r.left = 0 then []
    else
      match kmalloc g.blksz heap with
      | none => []
      | some (_, heap) =>
        if (hiddenRun g r).2 = true ∧ r.Fits g room then
          ⟨r, (hiddenRun g r).1, true⟩ :: writeFrom g kmalloc n (r.next g) (room - r.count g) heap
        else [⟨r, (hiddenRun g r).1, false⟩]

theorem issued_setpos_bind {α : Type} (arg : Nat) (f : Int × Nat → Code g ζ α) (s : Blk g ζ) :
    (vioblkIoctl IOCTL_SETPOS arg >>= f).issued serve s = (f (i32 arg, arg)).issued serve (setPos arg s) :=
  Prog.issued_bind_of_eq (exec_vioblkIoctl_setpos arg s) f

theorem issued_alloc {answer : Blk g ζ → Option (Blk g ζ)} (kmalloc : Kmalloc ζ) (n : Nat)
    (s : Blk g ζ) : (alloc kmalloc n).issued answer s = [] := by
  unfold alloc kmallocIn Prog.issued
  dsimp only
  split
  · rfl
  · rfl

theorem issued_block_bind {α : Type} {n : Nat} {b : Bytes} (h : b.length = n)
    (f : List.Vector UInt8 n → Code g ζ α) (s : Blk g ζ) :
    (block n b >>= f).issued serve s = (f ⟨b, h⟩).issued serve s := by
  rw [block, dif_pos h]
  rfl

/-- The read half of a read-modify-write. -/
theorem readBlock_run {kmalloc : Kmalloc ζ} (posPre posNew : Nat) {s : Blk g ζ}
    (hopen : s.dev.opened = true) {fresh : List.Vector UInt8 g.blksz} {heap : ζ}
    (halloc : kmalloc g.blksz s.heap = some (fresh, heap)) {t : List Round × Bool}
    (ht : t = readRun g true posNew g.blksz) :
    ((readBlock kmalloc posPre posNew).issued serve s).map request = t.1.map (Round.request g) ∧
      (t.2 = true → ∃ blk s', (readBlock kmalloc posPre posNew).exec serve s = some (blk, s') ∧
        blk.length = g.blksz ∧ s'.dev.pos = posPre ∧ s'.heap = heap ∧ s'.dev.opened = true) ∧
      (t.2 = false → (readBlock kmalloc posPre posNew).exec serve s = none) := by
  obtain ⟨hissued, hsome, hnone⟩ := vioblkRead_run answers_serve fresh.toList
    (setHeap heap (setPos posNew s)) (t := t) (by rw [fresh.toList_length, ht]; exact congrArg (readRun g · posNew g.blksz) hopen.symm)
  have halloc' := exec_alloc_some (s := setPos posNew s) halloc
  have hstart : ((readBlock kmalloc posPre posNew).issued serve s) =
      (vioblkRead fresh.toList >>= fun r => vioblkIoctl IOCTL_SETPOS posPre >>= fun _ =>
        Prog.lock .vlk >>= fun _ => pure r.2).issued serve (setHeap heap (setPos posNew s)) := by
    unfold readBlock
    rw [Prog.issued_unlock_bind, issued_setpos_bind, Prog.issued_bind_of_eq halloc', issued_alloc]
    rfl
  have hrun : (readBlock kmalloc posPre posNew).exec serve s =
      (vioblkRead fresh.toList >>= fun r => vioblkIoctl IOCTL_SETPOS posPre >>= fun _ =>
        Prog.lock .vlk >>= fun _ => pure r.2).exec serve (setHeap heap (setPos posNew s)) := by
    unfold readBlock
    rw [Prog.exec_unlock_bind, Prog.exec_bind_of_eq (exec_vioblkIoctl_setpos _ s),
      Prog.exec_bind_of_eq halloc']
  rw [hstart, hrun]
  cases hdone : t.2 with
  | false =>
    rw [Prog.issued_bind_of_none (hnone hdone), Prog.exec_bind, hnone hdone]
    exact ⟨hissued, nofun, fun _ => rfl⟩
  | true =>
    obtain ⟨x, buf', s', hexec, hlen, hkept⟩ := hsome hdone
    rw [Prog.issued_bind_of_eq hexec, Prog.exec_bind_of_eq hexec]
    refine ⟨?_, fun _ => ⟨buf', setPos posPre s', rfl, ?_, rfl, hkept.heap, ?_⟩, nofun⟩
    · rw [List.map_append, hissued]
      exact List.append_nil _
    · rw [hlen, fresh.toList_length]
    · exact hkept.opened.trans hopen

theorem issued_readBlock_none {kmalloc : Kmalloc ζ} {s : Blk g ζ}
    (halloc : kmalloc g.blksz s.heap = none) (posPre posNew : Nat) :
    (readBlock kmalloc posPre posNew).issued serve s = [] := by
  unfold readBlock
  rw [Prog.issued_unlock_bind, issued_setpos_bind,
    Prog.issued_bind_of_none (exec_alloc_none (by exact halloc)), issued_alloc]

/-- The requests of the loop of `vioblk_write` are those of its rounds. -/
theorem writeLoop_run (kmalloc : Kmalloc ζ) (n left : Nat) (buf : Bytes) {s : Blk g ζ}
    (hopen : s.dev.opened = true) :
    ((writeLoop kmalloc n left buf).issued serve s).map request =
      (writeFrom g kmalloc n ⟨s.dev.pos, left⟩ buf.length s.heap).flatMap (WriteRound.requests g) := by
  induction n generalizing left buf s with
  | zero =>
    unfold writeLoop writeFrom
    split
    · rfl
    · rfl
  | succ n ih =>
    unfold writeLoop writeFrom
    dsimp only
    by_cases hzero : left = 0
    · rw [if_pos hzero, if_pos hzero]
      rfl
    rw [if_neg hzero, if_neg hzero]
    simp only [Prog.issued_get_bind]
    cases halloc : kmalloc g.blksz s.heap with
    | none =>
      rw [Prog.issued_bind_of_none (exec_readBlock_none halloc _ _), issued_readBlock_none halloc]
      rfl
    | some o =>
      obtain ⟨fresh, heap⟩ := o
      dsimp only
      obtain ⟨hissued, hsome, hnone⟩ := readBlock_run s.dev.pos
        (u32 (sectorOf g s.dev.pos * g.blksz)) hopen halloc rfl
      have hhidden : readRun g true (u32 (sectorOf g s.dev.pos * g.blksz)) g.blksz =
          hiddenRun g ⟨s.dev.pos, left⟩ := rfl
      rw [hhidden] at hissued hsome hnone
      generalize hiddenRun g ⟨s.dev.pos, left⟩ = t at hissued hsome hnone ⊢
      cases hdone : t.2 with
      | false =>
        rw [Prog.issued_bind_of_none (hnone hdone), hissued, if_neg (fun h => Bool.false_ne_true h.1)]
        show _ = (t.1.map (Round.request g) ++ []) ++ []
        rw [List.append_nil, List.append_nil]
      | true =>
        obtain ⟨blk, s', hexec, hlen, hpos', hheap', hopen'⟩ := hsome hdone
        rw [Prog.issued_bind_of_eq hexec, List.map_append, hissued, Prog.issued_get_bind, hpos']
        obtain ⟨cnt, hcnt⟩ : ∃ cnt, countOf g (sectorOf g s.dev.pos) s.dev.pos left = cnt := ⟨_, rfl⟩
        have hcount : (⟨s.dev.pos, left⟩ : Round).count g = cnt := hcnt
        rw [hcnt]
        have hiff : (⟨s.dev.pos, left⟩ : Round).Fits g buf.length ↔
            0 ≤ cnt ∧ ((s.dev.pos % g.blksz : Nat) : Int) + cnt ≤ g.blksz ∧ cnt ≤ buf.length := by
          unfold Round.Fits
          rw [hcount]
        by_cases hfits : (⟨s.dev.pos, left⟩ : Round).Fits g buf.length
        · have hok := hiff.mp hfits
          rw [if_pos ⟨rfl, hfits⟩, Prog.issued_assert_bind hok]
          unfold Round.next
          rw [hcount]
          obtain ⟨c, rfl⟩ := Int.eq_ofNat_of_zero_le hok.1
          rw [Int.toNat_natCast]
          have hblk : (patch blk (s.dev.pos % g.blksz) (buf.take c)).length = g.blksz := by
            rw [length_patch (by rw [hlen, List.length_take]; omega), hlen]
          obtain ⟨s₁, hserve, hpos₁, hheap₁, hopened₁⟩ := answers_serve
            (setRequest .tOut (sectorOf g s.dev.pos) (setBlkbuf ⟨_, hblk⟩ s'))
          have hpos₁ : s₁.dev.pos = s.dev.pos := hpos₁.trans hpos'
          rw [issued_block_bind hblk, Prog.issued_modify_bind, Prog.issued_modify_bind,
            Prog.issued_waitFor_bind hserve, Prog.issued_modify_bind, hpos₁, List.map_cons]
          have hrest := ih (u64 (left - c)) (buf.drop c) (s := setPos (u64 (s.dev.pos + c)) s₁)
            (hopened₁.trans hopen')
          have hroom : ((buf.drop c).length : Int) = buf.length - c := by
            rw [List.length_drop]
            omega
          have hheap : (setPos (u64 (s.dev.pos + c)) s₁).heap = heap := hheap₁.trans hheap'
          rw [hroom, hheap] at hrest
          rw [hrest, List.flatMap_cons]
          show _ = (t.1.map (Round.request g) ++ [_]) ++ _
          rw [List.append_assoc]
          congr 2
          exact congrArg (·, u64 (sectorOf g s.dev.pos)) hpos'
        · rw [if_neg fun h => hfits h.2, Prog.issued_assert_bind_not (hiff.not.mp hfits)]
          show _ = (t.1.map (Round.request g) ++ []) ++ []
          rw [List.append_nil, List.map_nil]

/-- The rounds of a `vioblk_write` of `n` bytes at `pos`. -/
def writeRun (g : Geometry) (kmalloc : Kmalloc ζ) (opened : Bool) (pos n : Nat) (heap : ζ) :
    List WriteRound :=
  if opened = false ∨ n = 0 then []
  else writeFrom g kmalloc (clampLen g pos n) ⟨pos, clampLen g pos n⟩ n heap

theorem vioblkWrite_run (kmalloc : Kmalloc ζ) (buf : Bytes) (s : Blk g ζ) :
    ((vioblkWrite kmalloc buf).issued serve s).map request =
      (writeRun g kmalloc s.dev.opened s.dev.pos buf.length s.heap).flatMap (WriteRound.requests g) := by
  unfold vioblkWrite writeRun
  rw [Prog.issued_get_bind]
  by_cases hopen : s.dev.opened = false
  · rw [if_pos hopen, if_pos (Or.inl hopen)]
    rfl
  by_cases hbuf : buf.length = 0
  · rw [if_neg hopen, if_pos hbuf, if_pos (Or.inr hbuf)]
    rfl
  rw [if_neg hopen, if_neg hbuf, if_neg (not_or.mpr ⟨hopen, hbuf⟩)]
  dsimp only
  rw [Prog.issued_lock_bind, ← writeLoop_run kmalloc _ _ buf (by simpa using hopen),
    Prog.issued_bind, List.map_append]
  -- nothing is requested after the loop
  split
  · exact List.append_nil _
  · exact List.append_nil _

end Vioblk

end RiscvKernel
