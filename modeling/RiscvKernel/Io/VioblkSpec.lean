import RiscvKernel.Io.Vioblk

/-!
# What the block device driver does when it runs alone

For a device with 512-byte blocks and less than 2 GiB, where no C conversion changes a
value, and from a position inside the device:

* `exec_vioblkRead` — a read stores the bytes from the position on, up to the end of the
  device, returns their number and advances by it;
* `exec_vioblkWrite` — a write changes those bytes of the medium and no others.
-/

namespace RiscvKernel

open Lib

/-- 512-byte blocks and less than 2 GiB. -/
structure Geometry.Plain (g : Geometry) : Prop where
  blksz : g.blksz = 512
  size : g.size < 2 ^ 31

namespace Vioblk

variable {g : Geometry} {ζ : Type}

/-! ## Blocks -/

/-- The block of a position inside the device lies inside the device. -/
theorem block_le_size (g : Geometry) (pos : Nat) (h : pos < g.size) :
    pos / 512 * 512 + 512 ≤ g.size := by
  obtain ⟨k, hk⟩ := g.size_sectors
  omega

theorem sectorOf_eq (hg : g.Plain) {pos : Nat} (h : pos < g.size) :
    sectorOf g pos = (pos / 512 : Nat) := by
  have hsize := hg.size
  rw [sectorOf, hg.blksz, i32_eq (by omega) (by omega)]

/-- A transfer is cut at the end of its block. -/
theorem countOf_eq (hg : g.Plain) (pos n : Nat) (hn : 0 < n) (h : pos + n ≤ g.size) :
    countOf g (sectorOf g pos) pos n = (min n (512 - pos % 512) : Nat) := by
  have hsize := hg.size
  have hblk := block_le_size g pos (by omega)
  have hcount : i32 n = n := i32_eq (by omega) (by omega)
  have hbound : i32 (((pos / 512 : Nat) + 1 : Int) * (512 : Nat)) = (pos / 512 * 512 + 512 : Nat) := by
    rw [i32_eq (by omega) (by omega)]
    omega
  simp only [countOf, sectorOf_eq hg (show pos < g.size by omega), hg.blksz, hcount, hbound]
  rw [u64_eq rfl (by omega), u64_eq (n := pos + n) (by omega) (by omega)]
  split
  · rw [i32_eq (by omega) (by omega)]
    omega
  · omega

theorem clampLen_eq (hg : g.Plain) {pos : Nat} (n : Nat) (h : pos ≤ g.size) :
    clampLen g pos n = min n (g.size - pos) := by
  have hsize := hg.size
  simp only [clampLen]
  -- `LONG_MAX` is far beyond the end of the device
  generalize hm : (if longMax < n then longMax else n) = m
  have hcut : m = n ∨ g.size < m ∧ g.size < n := by
    unfold longMax at hm
    split at hm <;> omega
  have hm63 : m < 2 ^ 63 := by
    unfold longMax at hm
    split at hm <;> omega
  rw [u64_eq (n := pos + m) (by omega) (by omega)]
  split
  · rw [u64_eq (n := g.size - pos) (by omega) (by omega)]
    omega
  · omega

/-! ## One request -/

/-- What a piece of driver code leaves behind: the position and the medium it says, no
request pending, and the device open or not as before. -/
structure After (s s' : Blk g ζ) (pos : Nat) (disk : Bytes) : Prop where
  pos : s'.dev.pos = pos
  disk : s'.dev.disk.toList = disk
  opened : s'.dev.opened = s.dev.opened
  quiet : s'.dev.pending = false

theorem transfer_pos (d : VioblkDevice g) : (transfer d).pos = d.pos := by
  unfold transfer
  split
  · split <;> rfl
  · rfl

/-- A request is served, and serving does not move the position. -/
theorem serve_notifyAvail (s : Blk g ζ) :
    ∃ s₁, serve (notifyAvail s) = some s₁ ∧ s₁.dev.pos = s.dev.pos := by
  unfold serve
  exact ⟨_, if_pos rfl, transfer_pos (notifyAvail s).dev⟩

/-- A served read request leaves block `k` in the block buffer. -/
theorem serve_read (hg : g.Plain) (s : Blk g ζ) {k : Nat} (hk : k * 512 + 512 ≤ g.size) :
    ∃ s', serve (notifyAvail (setRequest .tIn k s)) = some s' ∧
      s'.dev.blkbuf.toList = slice s.dev.disk.toList (k * 512) 512 ∧ s'.heap = s.heap ∧
      After s s' s.dev.pos s.dev.disk.toList := by
  have hsec : u64 k = k := u64_eq rfl (by have := g.size_lt; omega)
  have hin : k * 512 + g.blksz ≤ g.size := by rw [hg.blksz]; exact hk
  refine ⟨_, rfl, ?_, rfl, ?_, ?_, ?_, rfl⟩
  · simp [transfer, notifyAvail, setRequest, hsec, hin]
    rw [hg.blksz]
  · simp [transfer, notifyAvail, setRequest, hsec, hin]
  · simp [transfer, notifyAvail, setRequest, hsec, hin]
  · simp [transfer, notifyAvail, setRequest, hsec, hin]

/-- A served write request replaces block `k` by the block buffer. -/
theorem serve_write (hg : g.Plain) (s : Blk g ζ) (b : List.Vector UInt8 g.blksz) {k : Nat}
    (hk : k * 512 + 512 ≤ g.size) :
    ∃ s', serve (notifyAvail (setRequest .tOut k (setBlkbuf b s))) = some s' ∧
      s'.heap = s.heap ∧ After s s' s.dev.pos (patch s.dev.disk.toList (k * 512) b.toList) := by
  have hsec : u64 k = k := u64_eq rfl (by have := g.size_lt; omega)
  have hin : k * 512 + g.blksz ≤ g.size := by rw [hg.blksz]; exact hk
  refine ⟨_, rfl, rfl, ?_, ?_, ?_, rfl⟩
  · simp [transfer, notifyAvail, setRequest, setBlkbuf, hsec, hin]
  · simp [transfer, notifyAvail, setRequest, setBlkbuf, hsec, hin, patchVec]
  · simp [transfer, notifyAvail, setRequest, setBlkbuf, hsec, hin]

/-! ## Reading -/

/-- The read loop copies the next `bufsz` bytes of the medium. Induction on the rounds
left; one round reads what remains of the block at the position. -/
theorem exec_readLoop (hg : g.Plain) (rounds bufsz off : Nat) (buf : Bytes) {s : Blk g ζ}
    (hrounds : bufsz ≤ rounds) (hpos : s.dev.pos + bufsz ≤ g.size)
    (hbuf : off + bufsz ≤ buf.length) (hquiet : s.dev.pending = false) :
    ∃ s', (readLoop rounds bufsz off buf).exec serve s =
        some (patch buf off (slice s.dev.disk.toList s.dev.pos bufsz), s') ∧
      s'.heap = s.heap ∧ After s s' (s.dev.pos + bufsz) s.dev.disk.toList := by
  induction rounds generalizing bufsz off buf s with
  | zero =>
    obtain rfl : bufsz = 0 := by omega
    exact ⟨s, by simp [readLoop], rfl, rfl, rfl, rfl, hquiet⟩
  | succ rounds ih =>
    by_cases h0 : bufsz = 0
    · subst h0
      exact ⟨s, by simp [readLoop], rfl, rfl, rfl, rfl, hquiet⟩
    have hsize := hg.size
    have hlt : s.dev.pos < g.size := by omega
    obtain ⟨s₁, hserve, hdata, hheap₁, hpos₁, hdisk₁, hopen₁, hquiet₁⟩ :=
      serve_read hg s (block_le_size g _ hlt)
    rw [← sectorOf_eq hg hlt] at hserve
    -- this round copies `c` bytes
    have hcount := countOf_eq hg s.dev.pos bufsz (by omega) (by omega)
    set c := min bufsz (512 - s.dev.pos % 512) with hc
    have hpart : slice s₁.dev.blkbuf.toList (s.dev.pos % g.blksz) c =
        slice s.dev.disk.toList s.dev.pos c := by
      rw [hdata, hg.blksz, slice_slice _ (by omega), Nat.div_add_mod']
    have hlen : (slice s.dev.disk.toList s.dev.pos c).length = c :=
      length_slice (by rw [s.dev.disk.toList_length]; omega)
    obtain ⟨s', hexec, hheap', hafter⟩ := ih (bufsz - c) (off + c)
      (patch buf off (slice s.dev.disk.toList s.dev.pos c)) (s := setPos (s.dev.pos + c) s₁)
      (by omega) (by simp only [setPos]; omega)
      (by rw [length_patch (by omega)]; omega) hquiet₁
    have hnext : u64 ((s.dev.pos : Int) + c) = s.dev.pos + c := u64_eq (by omega) (by omega)
    have hleft : u64 ((bufsz : Int) - c) = bufsz - c := u64_eq (by omega) (by omega)
    refine ⟨s', ?_, by rw [hheap']; exact hheap₁, ?_, ?_, ?_, hafter.quiet⟩
    · have hok : 0 ≤ countOf g (sectorOf g s.dev.pos) s₁.dev.pos bufsz ∧
          ((s₁.dev.pos % g.blksz : Nat) : Int) + countOf g (sectorOf g s.dev.pos) s₁.dev.pos bufsz ≤
            g.blksz ∧
          (off : Int) + countOf g (sectorOf g s.dev.pos) s₁.dev.pos bufsz ≤ buf.length := by
        rw [hpos₁, hcount, hg.blksz]
        omega
      unfold readLoop
      rw [if_neg h0]
      simp only [Prog.exec_get_bind, Prog.exec_modify_bind]
      rw [Prog.exec_waitFor_bind hserve, Prog.exec_get_bind, Prog.exec_assert_bind hok,
        Prog.exec_modify_bind, hpos₁, hcount, hnext, hleft, Int.toNat_natCast, hpart, hexec]
      have hoff : off + c = off + (slice s.dev.disk.toList s.dev.pos c).length := by rw [hlen]
      simp only [setPos, hdisk₁]
      rw [hoff, patch_patch_append _ (by omega), ← slice_split _ _ (show c ≤ bufsz by omega)]
    · rw [hafter.pos]
      simp only [setPos]
      omega
    · rw [hafter.disk]
      exact hdisk₁
    · rw [hafter.opened]
      exact hopen₁

/-- **A read alone** stores the bytes from the position to the end of the buffer or of
the device, returns their number and advances by it. -/
theorem exec_vioblkRead (hg : g.Plain) {s : Blk g ζ} (buf : Bytes) {k : Nat}
    (hk : k = min buf.length (g.size - s.dev.pos)) (hopen : s.dev.opened = true)
    (hquiet : s.dev.pending = false) (hpos : s.dev.pos ≤ g.size) :
    ∃ s', (vioblkRead buf).exec serve s =
        some (((k : Int), patch buf 0 (slice s.dev.disk.toList s.dev.pos k)), s') ∧
      s'.heap = s.heap ∧ After s s' (s.dev.pos + k) s.dev.disk.toList := by
  have hsize := hg.size
  unfold vioblkRead
  rw [Prog.exec_get_bind, if_neg (by simp [hopen])]
  by_cases h0 : buf.length = 0
  · obtain rfl : k = 0 := by omega
    rw [if_pos h0]
    exact ⟨s, by simp, rfl, rfl, rfl, rfl, hquiet⟩
  · obtain ⟨s', hexec, hheap, hafter⟩ := exec_readLoop hg k k 0 buf
      (s := s) (le_refl k) (by omega) (by omega) hquiet
    refine ⟨s', ?_, hheap, hafter⟩
    rw [if_neg h0]
    simp only [Prog.exec_lock_bind]
    rw [clampLen_eq hg _ hpos, ← hk, Prog.exec_bind_of_eq hexec, Prog.exec_unlock_bind,
      Prog.exec_get_bind, hafter.pos, Prog.pure_eq, Prog.exec_ret, i64_eq (by omega) (by omega)]
    simp

/-- Behind the end of the device the subtraction in the clamp wraps and the count of the
first round is negative. -/
theorem countOf_beyond (hg : g.Plain) {pos n : Nat} (hn : 0 < n) (hn' : n < 2 ^ 63)
    (hpos : g.size < pos) (hpos' : pos + 512 < 2 ^ 31) :
    0 < clampLen g pos n ∧ countOf g (sectorOf g pos) pos (clampLen g pos n) < 0 := by
  have hclamp : clampLen g pos n = 2 ^ 64 - (pos - g.size) := by
    have hmax : (if longMax < n then longMax else n) = n := if_neg (by unfold longMax; omega)
    simp only [clampLen, hmax]
    rw [u64_eq (n := pos + n) (by omega) (by omega), if_pos (by omega)]
    unfold u64
    omega
  have hcount : i32 (clampLen g pos n) = -(pos - g.size : Nat) := by
    rw [hclamp]
    unfold i32
    rw [Int.bmod_def]
    omega
  have hbound : i32 (((pos / 512 : Nat) + 1 : Int) * (512 : Nat)) = (pos / 512 * 512 + 512 : Nat) := by
    rw [i32_eq (by omega) (by omega)]
    omega
  have hsector : sectorOf g pos = (pos / 512 : Nat) := by
    rw [sectorOf, hg.blksz, i32_eq (by omega) (by omega)]
  refine ⟨by omega, ?_⟩
  simp only [countOf, hsector, hg.blksz, hcount, hbound]
  rw [u64_eq rfl (by omega), u64_eq (n := g.size) (by omega) (by omega), if_neg (by omega)]
  omega

/-- A round with a negative count does not return. -/
theorem exec_readLoop_none {rounds bufsz off : Nat} {buf : Bytes} {s : Blk g ζ} (hbufsz : 0 < bufsz)
    (hcount : countOf g (sectorOf g s.dev.pos) s.dev.pos bufsz < 0) :
    (readLoop (rounds + 1) bufsz off buf).exec serve s = none := by
  obtain ⟨s₁, hserve, hpos₁⟩ : ∃ s₁,
      serve (notifyAvail (setRequest .tIn (sectorOf g s.dev.pos) s)) = some s₁ ∧
        s₁.dev.pos = s.dev.pos := serve_notifyAvail _
  have hbad : ¬(0 ≤ countOf g (sectorOf g s.dev.pos) s₁.dev.pos bufsz ∧
      ((s₁.dev.pos % g.blksz : Nat) : Int) + countOf g (sectorOf g s.dev.pos) s₁.dev.pos bufsz ≤
        g.blksz ∧
      (off : Int) + countOf g (sectorOf g s.dev.pos) s₁.dev.pos bufsz ≤ buf.length) := by
    rw [hpos₁]
    exact fun h => absurd h.1 (Int.not_le.mpr hcount)
  unfold readLoop
  rw [if_neg (Nat.ne_of_gt hbufsz)]
  simp only [Prog.exec_get_bind, Prog.exec_modify_bind]
  rw [Prog.exec_waitFor_bind hserve, Prog.exec_get_bind, Prog.exec_assert_bind_not hbad]

/-- A read that starts behind the end of the device does not return. -/
theorem exec_vioblkRead_beyond (hg : g.Plain) {s : Blk g ζ} {buf : Bytes}
    (hopen : s.dev.opened = true) (hbuf : 0 < buf.length) (hbuf' : buf.length < 2 ^ 63)
    (hpos : g.size < s.dev.pos) (hpos' : s.dev.pos + 512 < 2 ^ 31) :
    (vioblkRead buf).exec serve s = none := by
  obtain ⟨hlen, hcount⟩ := countOf_beyond hg hbuf hbuf' hpos hpos'
  generalize hbufsz : clampLen g s.dev.pos buf.length = bufsz at hlen hcount
  obtain ⟨rounds, hrounds⟩ : ∃ rounds, bufsz = rounds + 1 := ⟨bufsz - 1, by omega⟩
  have hloop : (readLoop bufsz bufsz 0 buf).exec serve s = none := by
    nth_rewrite 1 [hrounds]
    exact exec_readLoop_none hlen hcount
  unfold vioblkRead
  rw [Prog.exec_get_bind, if_neg (by simp [hopen]), if_neg (Nat.ne_of_gt hbuf)]
  simp only [Prog.exec_lock_bind]
  rw [hbufsz, Prog.exec_bind, hloop]
  rfl

/-! ## Positioning -/

/-- `IOCTL_SETPOS` sets the position; the other requests change nothing. -/
theorem exec_vioblkIoctl (cmd arg : Nat) (s : Blk g ζ) :
    ∃ r, (vioblkIoctl cmd arg).exec serve s =
      some (r, if cmd = IOCTL_SETPOS then setPos arg s else s) := by
  have hbody : ∃ r, (ioctlBody cmd arg).exec serve s =
      some (r, if cmd = IOCTL_SETPOS then setPos arg s else s) := by
    unfold ioctlBody
    rw [Prog.exec_get_bind]
    by_cases hset : cmd = IOCTL_SETPOS
    · subst hset
      exact ⟨_, rfl⟩
    · rw [if_neg hset, if_neg hset]
      split
      · exact ⟨_, rfl⟩
      split
      · exact ⟨_, rfl⟩
      split
      · exact ⟨_, rfl⟩
      · exact ⟨_, rfl⟩
  obtain ⟨r, hr⟩ := hbody
  refine ⟨r, ?_⟩
  unfold vioblkIoctl
  rw [Prog.exec_lock_bind, Prog.exec_bind_of_eq hr, Prog.exec_unlock_bind]
  rfl

theorem exec_vioblkIoctl_setpos (arg : Nat) (s : Blk g ζ) :
    (vioblkIoctl IOCTL_SETPOS arg).exec serve s = some ((i32 arg, arg), setPos arg s) := rfl

/-! ## Writing -/

theorem exec_alloc_some {kmalloc : Kmalloc ζ} {n : Nat} {s : Blk g ζ} {b : List.Vector UInt8 n}
    {heap : ζ} (h : kmalloc n s.heap = some (b, heap)) :
    (alloc kmalloc n).exec serve s = some (b, setHeap heap s) := by
  simp [alloc, kmallocIn, h]

theorem exec_alloc_none {kmalloc : Kmalloc ζ} {n : Nat} {s : Blk g ζ}
    (h : kmalloc n s.heap = none) : (alloc kmalloc n).exec serve s = none := by
  simp [alloc, kmallocIn, h, Prog.exec]

/-- The read half of a read-modify-write fetches block `k` and puts the position back. -/
theorem exec_readBlock (hg : g.Plain) {kmalloc : Kmalloc ζ} {s : Blk g ζ}
    (hopen : s.dev.opened = true) (hquiet : s.dev.pending = false) {k : Nat}
    (hk : k * 512 + 512 ≤ g.size) {fresh : List.Vector UInt8 g.blksz} {heap : ζ}
    (halloc : kmalloc g.blksz s.heap = some (fresh, heap)) (posPre : Nat) :
    ∃ s', (readBlock kmalloc posPre (k * 512)).exec serve s =
        some (slice s.dev.disk.toList (k * 512) 512, s') ∧
      s'.heap = heap ∧ After s s' posPre s.dev.disk.toList := by
  have hfresh : fresh.toList.length = 512 := by rw [fresh.toList_length, hg.blksz]
  have hblk : (slice s.dev.disk.toList (k * 512) 512).length = 512 :=
    length_slice (by rw [s.dev.disk.toList_length]; exact hk)
  obtain ⟨s₁, hread, hheap₁, -, hdisk₁, hopen₁, hquiet₁⟩ :=
    exec_vioblkRead hg (s := setHeap heap (setPos (k * 512) s)) fresh.toList (k := 512)
      (by rw [hfresh, setHeap_dev, setPos_pos]; omega) hopen hquiet
      (by rw [setHeap_dev, setPos_pos]; exact Nat.le_of_add_right_le hk)
  rw [setHeap_dev, setPos_pos, setPos_disk] at hread
  have hall : patch fresh.toList 0 (slice s.dev.disk.toList (k * 512) 512) =
      slice s.dev.disk.toList (k * 512) 512 := patch_all (by rw [hblk, hfresh])
  refine ⟨setPos posPre s₁, ?_, hheap₁, rfl, hdisk₁, hopen₁, hquiet₁⟩
  have halloc' : kmalloc g.blksz (setPos (k * 512) s).heap = some (fresh, heap) := halloc
  unfold readBlock
  rw [Prog.exec_unlock_bind, Prog.exec_bind_of_eq (exec_vioblkIoctl_setpos _ s),
    Prog.exec_bind_of_eq (exec_alloc_some halloc'), Prog.exec_bind_of_eq hread]
  dsimp only
  rw [Prog.exec_bind_of_eq (exec_vioblkIoctl_setpos _ s₁), Prog.exec_lock_bind]
  rw [hall, Prog.pure_eq, Prog.exec_ret]

theorem exec_readBlock_none {kmalloc : Kmalloc ζ} {s : Blk g ζ}
    (halloc : kmalloc g.blksz s.heap = none) (posPre posNew : Nat) :
    (readBlock kmalloc posPre posNew).exec serve s = none := by
  unfold readBlock
  rw [Prog.exec_unlock_bind, Prog.exec_bind_of_eq (exec_vioblkIoctl_setpos _ s), Prog.exec_bind,
    exec_alloc_none (by exact halloc)]
  rfl

theorem exec_block {n : Nat} {b : Bytes} (h : b.length = n) (s : Blk g ζ) :
    (block n b).exec serve s = some (⟨b, h⟩, s) := by
  rw [block, dif_pos h]
  rfl

/-- One round of the write loop replaces the next `c` bytes of the medium, where `c` is
what is left of the block at the position. -/
theorem exec_writeRound (hg : g.Plain) {kmalloc : Kmalloc ζ} {n c : Nat} (buf : Bytes) {s : Blk g ζ}
    (hn : 0 < n) (hpos : s.dev.pos + n ≤ g.size) (hbuf : n ≤ buf.length)
    (hopen : s.dev.opened = true) (hquiet : s.dev.pending = false)
    (hc : c = min n (512 - s.dev.pos % 512)) {fresh : List.Vector UInt8 g.blksz} {heap : ζ}
    (halloc : kmalloc g.blksz s.heap = some (fresh, heap)) (rounds : Nat) :
    ∃ s', (writeLoop kmalloc (rounds + 1) n buf).exec serve s =
        (writeLoop kmalloc rounds (n - c) (buf.drop c)).exec serve s' ∧
      s'.heap = heap ∧ After s s' (s.dev.pos + c) (patch s.dev.disk.toList s.dev.pos (buf.take c)) := by
  have hsize := hg.size
  have hlt : s.dev.pos < g.size := by omega
  have hblk := block_le_size g _ hlt
  have hcount := countOf_eq hg s.dev.pos n hn hpos
  rw [← hc] at hcount
  obtain ⟨s₁, hread, hheap₁, hpos₁, hdisk₁, hopen₁, hquiet₁⟩ :=
    exec_readBlock hg hopen hquiet hblk halloc s.dev.pos
  -- the block with the new bytes in it
  have htake : (buf.take c).length = c := by rw [List.length_take]; omega
  have hold : (slice s.dev.disk.toList (s.dev.pos / 512 * 512) 512).length = 512 :=
    length_slice (by rw [s.dev.disk.toList_length]; exact hblk)
  have hnew : (patch (slice s.dev.disk.toList (s.dev.pos / 512 * 512) 512) (s.dev.pos % g.blksz)
      (buf.take c)).length = g.blksz := by
    rw [length_patch (by rw [hold, htake, hg.blksz]; omega), hold, hg.blksz]
  obtain ⟨s₂, hserve, hheap₂, hpos₂, hdisk₂, hopen₂, hquiet₂⟩ :=
    serve_write hg s₁ ⟨_, hnew⟩ (k := s.dev.pos / 512) hblk
  rw [← sectorOf_eq hg hlt] at hserve
  have hpatch : patch s.dev.disk.toList (s.dev.pos / 512 * 512)
      (patch (slice s.dev.disk.toList (s.dev.pos / 512 * 512) 512) (s.dev.pos % g.blksz)
        (buf.take c)) = patch s.dev.disk.toList s.dev.pos (buf.take c) := by
    rw [patch_slice_patch (by rw [s.dev.disk.toList_length]; exact hblk)
      (by rw [htake, hg.blksz]; omega), hg.blksz, Nat.div_add_mod']
  refine ⟨setPos (s.dev.pos + c) s₂, ?_, hheap₂.trans hheap₁, rfl, ?_, ?_, hquiet₂⟩
  · have hstart : u32 (sectorOf g s.dev.pos * g.blksz) = s.dev.pos / 512 * 512 := by
      rw [sectorOf_eq hg hlt, hg.blksz]
      exact u32_eq (by omega) (by omega)
    have hok : 0 ≤ countOf g (sectorOf g s.dev.pos) s.dev.pos n ∧
        ((s₁.dev.pos % g.blksz : Nat) : Int) + countOf g (sectorOf g s.dev.pos) s.dev.pos n ≤
          g.blksz ∧
        countOf g (sectorOf g s.dev.pos) s.dev.pos n ≤ buf.length := by
      rw [hpos₁, hcount, hg.blksz]
      omega
    have hnext : u64 ((s.dev.pos : Int) + c) = s.dev.pos + c := u64_eq (by omega) (by omega)
    have hleft : u64 ((n : Int) - c) = n - c := u64_eq (by omega) (by omega)
    rw [writeLoop, if_neg (by omega)]
    simp only [Prog.exec_get_bind]
    rw [hstart, Prog.exec_bind_of_eq hread, Prog.exec_get_bind, Prog.exec_assert_bind hok, hcount,
      Int.toNat_natCast, hpos₁, Prog.exec_bind_of_eq (exec_block hnew s₁), Prog.exec_modify_bind,
      Prog.exec_modify_bind, Prog.exec_waitFor_bind hserve, Prog.exec_modify_bind, hpos₂, hpos₁,
      hnext, hleft]
  · rw [setPos_disk, hdisk₂, hdisk₁]
    exact hpatch
  · exact hopen₂.trans hopen₁

/-- `j` requests for `n` bytes, one after the other. -/
def allocTimes (kmalloc : Kmalloc ζ) (n : Nat) : Nat → ζ → Option ζ
  | 0, heap => some heap
  | j + 1, heap => (kmalloc n heap).bind fun r => allocTimes kmalloc n j r.2

/-- The number of blocks that have some of the `n` bytes from `pos` on. -/
def blocksOf (pos n : Nat) : Nat := if n = 0 then 0 else (pos + n - 1) / 512 - pos / 512 + 1

/-- The first block, and those behind it. -/
theorem blocksOf_step {pos n : Nat} (hn : 0 < n) :
    blocksOf pos n = blocksOf (pos + min n (512 - pos % 512)) (n - min n (512 - pos % 512)) + 1 := by
  unfold blocksOf
  split <;> split <;> omega

/-- The write loop replaces the next `n` bytes of the medium, unless the allocator runs
out. Induction on the rounds left. -/
theorem exec_writeLoop (hg : g.Plain) (kmalloc : Kmalloc ζ) (rounds n : Nat) (buf : Bytes)
    {s : Blk g ζ} (hrounds : n ≤ rounds) (hpos : s.dev.pos + n ≤ g.size) (hbuf : n ≤ buf.length)
    (hopen : s.dev.opened = true) (hquiet : s.dev.pending = false) :
    (∃ s', (writeLoop kmalloc rounds n buf).exec serve s = some ((), s') ∧
      allocTimes kmalloc g.blksz (blocksOf s.dev.pos n) s.heap = some s'.heap ∧
      After s s' (s.dev.pos + n) (patch s.dev.disk.toList s.dev.pos (buf.take n))) ∨
    ((writeLoop kmalloc rounds n buf).exec serve s = none ∧
      allocTimes kmalloc g.blksz (blocksOf s.dev.pos n) s.heap = none) := by
  induction rounds generalizing n buf s with
  | zero =>
    obtain rfl : n = 0 := by omega
    exact Or.inl ⟨s, by simp [writeLoop], rfl, rfl, by simp, rfl, hquiet⟩
  | succ rounds ih =>
    by_cases h0 : n = 0
    · subst h0
      exact Or.inl ⟨s, by simp [writeLoop], rfl, rfl, by simp, rfl, hquiet⟩
    cases halloc : kmalloc g.blksz s.heap with
    | none =>
      refine Or.inr ⟨?_, ?_⟩
      · rw [writeLoop, if_neg h0]
        simp only [Prog.exec_get_bind]
        rw [Prog.exec_bind, exec_readBlock_none halloc]
        rfl
      · rw [blocksOf_step (by omega), allocTimes, halloc]
        rfl
    | some r =>
      obtain ⟨fresh, heap⟩ := r
      obtain ⟨s₁, hexec, hheap, hafter⟩ := exec_writeRound hg (n := n) buf (s := s) (by omega) hpos
        hbuf hopen hquiet rfl halloc rounds
      set c := min n (512 - s.dev.pos % 512) with hc
      have hdrop : n - c ≤ (buf.drop c).length := by rw [List.length_drop]; omega
      have hblocks : allocTimes kmalloc g.blksz (blocksOf s.dev.pos n) s.heap =
          allocTimes kmalloc g.blksz (blocksOf s₁.dev.pos (n - c)) s₁.heap := by
        rw [blocksOf_step (by omega), allocTimes, halloc, hafter.pos, hheap]
        rfl
      rw [hexec]
      rcases ih (n - c) (buf.drop c) (s := s₁) (by omega)
        (by rw [hafter.pos]; omega) hdrop (hafter.opened.trans hopen) hafter.quiet with
        ⟨s', hrest, hheap', hafter'⟩ | ⟨hnone, hheap'⟩
      · refine Or.inl ⟨s', hrest, hblocks.trans hheap', ?_, ?_,
          hafter'.opened.trans hafter.opened, hafter'.quiet⟩
        · rw [hafter'.pos, hafter.pos]
          omega
        · have htake : (buf.take c).length = c := by rw [List.length_take]; omega
          rw [hafter'.disk, hafter.disk, hafter.pos]
          have hjoin := patch_patch_append (l := s.dev.disk.toList) (p := s.dev.pos)
            (b := buf.take c) ((buf.drop c).take (n - c))
            (by rw [htake, s.dev.disk.toList_length]; omega)
          rw [htake] at hjoin
          rw [hjoin, ← List.take_add, Nat.add_sub_cancel' (by omega)]
      · exact Or.inr ⟨hnone, hblocks.trans hheap'⟩

/-- **A write alone** replaces the bytes from the position to the end of the buffer or of
the device and no others, returns their number and advances by it, unless the allocator
runs out. -/
theorem exec_vioblkWrite (hg : g.Plain) (kmalloc : Kmalloc ζ) {s : Blk g ζ} (buf : Bytes) {k : Nat}
    (hk : k = min buf.length (g.size - s.dev.pos)) (hopen : s.dev.opened = true)
    (hquiet : s.dev.pending = false) (hpos : s.dev.pos ≤ g.size) :
    (∃ s', (vioblkWrite kmalloc buf).exec serve s = some ((k : Int), s') ∧
      allocTimes kmalloc g.blksz (blocksOf s.dev.pos k) s.heap = some s'.heap ∧
      After s s' (s.dev.pos + k) (patch s.dev.disk.toList s.dev.pos (buf.take k))) ∨
    ((vioblkWrite kmalloc buf).exec serve s = none ∧
      allocTimes kmalloc g.blksz (blocksOf s.dev.pos k) s.heap = none) := by
  have hsize := hg.size
  unfold vioblkWrite
  rw [Prog.exec_get_bind, if_neg (by simp [hopen])]
  by_cases h0 : buf.length = 0
  · obtain rfl : k = 0 := by omega
    rw [if_pos h0]
    exact Or.inl ⟨s, by simp, rfl, rfl, by simp, rfl, hquiet⟩
  rw [if_neg h0]
  simp only [Prog.exec_lock_bind]
  rw [clampLen_eq hg _ hpos, ← hk]
  rcases exec_writeLoop hg kmalloc k k buf (s := s) (le_refl k) (by omega)
    (by omega) hopen hquiet with ⟨s', hexec, hheap, hafter⟩ | ⟨hnone, hheap⟩
  · refine Or.inl ⟨s', ?_, hheap, hafter⟩
    rw [Prog.exec_bind_of_eq hexec, Prog.exec_unlock_bind, Prog.exec_get_bind, hafter.pos,
      Prog.pure_eq, Prog.exec_ret, i64_eq (by omega) (by omega)]
    simp
  · refine Or.inr ⟨?_, hheap⟩
    rw [Prog.exec_bind, hnone]
    rfl

/-! ## Byte exactness -/

/-- A device of one sector. -/
def oneSector : Geometry where
  blksz := 512
  size := 512
  blksz_pos := by decide
  size_sectors := by decide
  size_lt := by decide

theorem oneSector_plain : oneSector.Plain := ⟨rfl, by decide⟩

/-- How many of `n` bytes there are from the position to the end of the device. -/
def reach (s : Blk g ζ) (n : Nat) : Nat := min n (g.size - s.dev.pos)

/-- **Reads and writes are byte exact.** A write allocates a buffer for each block that it changes;
`kmalloc` does not return when the pages run out, and then the write does not either. -/
theorem vioblk_transfer_exact (hg : g.Plain) (kmalloc : Kmalloc ζ) (s : Blk g ζ) (buf : Bytes)
    (hopen : s.dev.opened = true) (hquiet : s.dev.pending = false) (hpos : s.dev.pos ≤ g.size) :
    (∃ s', (vioblkRead buf).exec serve s =
        some ((Int.ofNat (reach s buf.length),
          slice s.dev.disk.toList s.dev.pos (reach s buf.length) ++ buf.drop (reach s buf.length)),
          s') ∧
      s'.dev.pos = s.dev.pos + reach s buf.length ∧ s'.dev.disk = s.dev.disk) ∧
    match allocTimes kmalloc g.blksz (blocksOf s.dev.pos (reach s buf.length)) s.heap with
    | some heap => ∃ s', (vioblkWrite kmalloc buf).exec serve s =
          some (Int.ofNat (reach s buf.length), s') ∧
        s'.dev.pos = s.dev.pos + reach s buf.length ∧ s'.heap = heap ∧
        ∀ i, s'.dev.disk.toList[i]? =
          if s.dev.pos ≤ i ∧ i < s.dev.pos + reach s buf.length then buf[i - s.dev.pos]?
          else s.dev.disk.toList[i]?
    | none => (vioblkWrite kmalloc buf).exec serve s = none := by
  generalize hk : reach s buf.length = k
  have hk : k = min buf.length (g.size - s.dev.pos) := hk.symm
  have hdisk := s.dev.disk.toList_length
  constructor
  · obtain ⟨s', hread, -, hafter⟩ := exec_vioblkRead hg buf hk hopen hquiet hpos
    refine ⟨s', ?_, hafter.pos, List.Vector.toList_injective hafter.disk⟩
    have hlen : (slice s.dev.disk.toList s.dev.pos k).length = k := length_slice (by omega)
    rw [hread, patch, hlen, Nat.zero_add]
    rfl
  · obtain ⟨s', hwrite, hheap, hafter⟩ | ⟨hnone, hheap⟩ :=
      exec_vioblkWrite hg kmalloc buf hk hopen hquiet hpos
    · rw [hheap]
      refine ⟨s', hwrite, hafter.pos, rfl, fun i => ?_⟩
      have htake : (buf.take k).length = k := by rw [List.length_take]; omega
      rw [hafter.disk]
      by_cases hi : s.dev.pos ≤ i ∧ i < s.dev.pos + k
      · rw [if_pos hi, getElem?_patch _ (by omega), if_neg (by omega), if_pos (by omega),
          List.getElem?_take_of_lt (by omega)]
      · rw [if_neg hi]
        exact getElem?_patch_of_outside (by omega) (by omega)
    · rw [hheap]
      exact hnone

/-- A device of one sector, open at position 510. -/
def lastBytes (heap : ζ) : Blk oneSector ζ where
  dev :=
    { opened := true, pos := 510, reqType := .tIn, reqSector := 0, descWrite := true
      blkbuf := List.Vector.replicate _ 0, pending := false
      disk := List.Vector.replicate _ 7 }
  heap := heap

def nearEnd : Blk oneSector Unit := lastBytes ()

/-- A heap with room for a number of buffers. `kfree` gives none back. -/
def roomFor : Kmalloc Nat
  | _, 0 => none
  | n, k + 1 => some (List.Vector.replicate n 0, k)

/-- With room for one buffer, the first write of a byte returns and the second one does not. -/
theorem second_write_never_returns :
    ∃ s, (vioblkWrite roomFor [1]).exec serve (lastBytes 1) = some (1, s) ∧
      (vioblkWrite roomFor [2]).exec serve s = none := by
  have hstart : (lastBytes 1).dev.pos = 510 := rfl
  obtain ⟨s, hfirst, hheap, hafter⟩ | ⟨-, hheap⟩ :=
    exec_vioblkWrite oneSector_plain roomFor (s := lastBytes 1) [1] (k := 1) (by simp [hstart, oneSector])
      rfl rfl (by simp [hstart, oneSector])
  · have hempty : s.heap = 0 := (Option.some.inj hheap).symm
    have hpos : s.dev.pos = 511 := hafter.pos
    refine ⟨s, hfirst, ?_⟩
    -- the buffer of the first write is never freed, so the second write finds none
    obtain ⟨_, -, hheap', -⟩ | ⟨hnone, -⟩ :=
      exec_vioblkWrite oneSector_plain roomFor (s := s) [2] (k := 1) (by simp [hpos, oneSector])
        hafter.opened hafter.quiet (by simp [hpos, oneSector])
    · rw [hpos, hempty] at hheap'
      cases hheap'
    · exact hnone
  · cases hheap

/-- Of three bytes at the position 510, two are transferred. -/
theorem vioblk_transfer_nearEnd :
    (∃ s', (vioblkRead [1, 2, 3]).exec serve nearEnd = some ((2, [7, 7, 3]), s') ∧
      s'.dev.pos = 512) ∧
    ∃ s', (vioblkWrite blankAlloc [1, 2, 3]).exec serve nearEnd = some (2, s') ∧
      s'.dev.disk.toList[510]? = some 1 ∧ s'.dev.disk.toList[509]? = some 7 := by
  obtain ⟨⟨s₁, hread, hpos, -⟩, s₂, hwrite, -, -, hdisk⟩ :=
    vioblk_transfer_exact oneSector_plain blankAlloc nearEnd [1, 2, 3] rfl rfl (by decide)
  have hold : nearEnd.dev.disk.toList = List.replicate 512 7 := rfl
  have htail : slice nearEnd.dev.disk.toList 510 2 = [7, 7] := by
    rw [hold, slice, List.drop_replicate, List.take_replicate]
    rfl
  refine ⟨⟨s₁, ?_, hpos⟩, s₂, hwrite, hdisk 510, (hdisk 509).trans ?_⟩
  · exact hread.trans (congrArg (fun b => some ((2, b ++ [3]), s₁)) htail)
  · rw [hold, if_neg (by decide), List.getElem?_replicate, if_pos (by decide)]

end Vioblk

end RiscvKernel
