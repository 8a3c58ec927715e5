import RiscvKernel.Fs.Image
import RiscvKernel.Memory.PageTable
import RiscvKernel.Memory.Access

/-!
# File operations use up the memory

`kfree` does nothing, and `fs_read` and `fs_write` allocate a buffer for the inode in every call;
over the block device a write allocates a buffer for each sector as well. The heap of `ezheap.c`
takes a page from the free list whenever a request does not fit in its current block, so that the
pages run out after finitely many calls.

* `serveAll_survives_iff`: when a list of requests is served.
* `exec_runCalls`: the requests that a list of calls makes.
* `not_survives_of_lt`: there are never more calls than free pages.
* `file_calls_survive_iff`: for which lists of calls the pages suffice.
-/

namespace RiscvKernel

open Lib

namespace Kfs

/-! ## The heap -/

/-- The heap over the free pages. `panicked`: `memory_alloc_page` has been called without a free
page. What the model does after that has no meaning. -/
structure KHeap where
  phys : Phys
  panicked : Bool

namespace KHeap

/-- What is left of the current block. -/
def room (h : KHeap) : Nat := h.phys.heapEnd - h.phys.heapStart

/-- `kmalloc`, for at most a page; a block holds what was in memory there. -/
def kmalloc (n : Nat) (h : KHeap) : List.Vector UInt8 n × KHeap :=
  match h.phys.kmalloc n with
  | some (addr, m) => (List.Vector.ofFn fun i => h.phys.byteAt (addr + i), { h with phys := m })
  | none => (List.Vector.replicate n 0, { h with panicked := true })

/-- The heap after these requests. -/
def serveAll (h : KHeap) (requests : List Nat) : KHeap :=
  requests.foldl (fun h n => (kmalloc n h).2) h

/-- The number of free pages that these requests take, if `room` bytes are left in the block. -/
def pagesFor : Nat → List Nat → Nat
  | _, [] => 0
  | room, n :: requests =>
    if roundUp n 16 ≤ room then pagesFor (room - roundUp n 16) requests
    else pagesFor (max room (PAGE_SIZE - roundUp n 16)) requests + 1

variable {h : KHeap} {l : List Nat} {n : Nat}

theorem kmalloc_fits (hfree : h.phys.Free l) (hn : roundUp n 16 ≤ PAGE_SIZE)
    (hfit : roundUp n 16 ≤ h.room) :
    (kmalloc n h).2.phys.Free l ∧ (kmalloc n h).2.panicked = h.panicked ∧
      (kmalloc n h).2.room = h.room - roundUp n 16 := by
  have heq : h.phys.kmalloc n =
      some (h.phys.heapEnd - roundUp n 16, { h.phys with heapEnd := h.phys.heapEnd - roundUp n 16 }) := by
    unfold Phys.kmalloc
    rw [Phys.heapSize_of_le hn]
    exact (if_neg (by omega)).trans (if_pos hfit)
  unfold kmalloc
  rw [heq]
  refine ⟨hfree.congr rfl fun _ _ => rfl, rfl, ?_⟩
  show h.phys.heapEnd - roundUp n 16 - h.phys.heapStart = h.phys.heapEnd - h.phys.heapStart - _
  omega

theorem kmalloc_page {p : Nat} (hfree : h.phys.Free (p :: l)) (hn : roundUp n 16 ≤ PAGE_SIZE)
    (hfit : ¬roundUp n 16 ≤ h.room) :
    (kmalloc n h).2.phys.Free l ∧ (kmalloc n h).2.panicked = h.panicked ∧
      (kmalloc n h).2.room = max h.room (PAGE_SIZE - roundUp n 16) := by
  obtain ⟨m, halloc, hfree', -, hstart, hend⟩ := Phys.memoryAllocPage_cons hfree
  have hroom : m.heapEnd - m.heapStart = h.room := by rw [hstart, hend]; rfl
  have heq : h.phys.kmalloc n = if h.room < PAGE_SIZE - roundUp n 16 then
      some (p + PAGE_SIZE - roundUp n 16,
        { m with heapStart := p, heapEnd := p + PAGE_SIZE - roundUp n 16 })
      else some (p, m) := by
    unfold Phys.kmalloc
    rw [Phys.heapSize_of_le hn]
    refine ((if_neg (by omega)).trans (if_neg hfit)).trans ?_
    rw [halloc, ← hroom]
  unfold kmalloc
  rw [heq]
  by_cases hswitch : h.room < PAGE_SIZE - roundUp n 16
  · -- the new page becomes the block
    rw [if_pos hswitch]
    refine ⟨hfree'.congr rfl fun _ _ => rfl, rfl, ?_⟩
    show p + PAGE_SIZE - roundUp n 16 - p = _
    omega
  · rw [if_neg hswitch]
    refine ⟨hfree', rfl, ?_⟩
    show m.heapEnd - m.heapStart = _
    omega

theorem kmalloc_panic (hfree : h.phys.Free []) (hn : roundUp n 16 ≤ PAGE_SIZE)
    (hfit : ¬roundUp n 16 ≤ h.room) : (kmalloc n h).2.panicked = true := by
  have heq : h.phys.kmalloc n = none := by
    unfold Phys.kmalloc
    rw [Phys.heapSize_of_le hn]
    refine ((if_neg (by omega)).trans (if_neg hfit)).trans ?_
    rw [Phys.memoryAllocPage_nil hfree]
  unfold kmalloc
  rw [heq]

theorem serveAll_replicate (n j : Nat) (h : KHeap) :
    h.serveAll (List.replicate j n) = (fun h => (kmalloc n h).2)^[j] h := by
  induction j generalizing h with
  | zero => rfl
  | succ j ih => exact ih (kmalloc n h).2

theorem serveAll_append (h : KHeap) (requests requests' : List Nat) :
    h.serveAll (requests ++ requests') = (h.serveAll requests).serveAll requests' :=
  List.foldl_append ..

/-- A panic is final. -/
theorem serveAll_panicked (hpanic : h.panicked = true) (requests : List Nat) :
    (h.serveAll requests).panicked = true := by
  induction requests generalizing h with
  | nil => exact hpanic
  | cons n requests ih =>
    refine ih ?_
    show (kmalloc n h).2.panicked = true
    unfold kmalloc
    cases h.phys.kmalloc n with
    | none => rfl
    | some r => exact hpanic

/-- Requests are served as long as there are pages for them. Induction on the requests. -/
theorem serveAll_survives_iff (hlive : h.panicked = false) (hfree : h.phys.Free l)
    {requests : List Nat} (hsize : ∀ n ∈ requests, roundUp n 16 ≤ PAGE_SIZE) :
    (h.serveAll requests).panicked = false ↔ pagesFor h.room requests ≤ l.length := by
  induction requests generalizing h l with
  | nil => exact iff_of_true hlive (Nat.zero_le _)
  | cons n requests ih =>
    have hn := hsize n List.mem_cons_self
    have hrest : ∀ n ∈ requests, roundUp n 16 ≤ PAGE_SIZE :=
      fun n hmem => hsize n (List.mem_cons_of_mem _ hmem)
    show ((kmalloc n h).2.serveAll requests).panicked = false ↔ _
    unfold pagesFor
    by_cases hfit : roundUp n 16 ≤ h.room
    · obtain ⟨hfree', hlive', hroom'⟩ := kmalloc_fits hfree hn hfit
      rw [if_pos hfit, ih (hlive'.trans hlive) hfree' hrest, hroom']
    · rw [if_neg hfit]
      cases l with
      | nil =>
        rw [serveAll_panicked (kmalloc_panic hfree hn hfit)]
        simp
      | cons p l =>
        obtain ⟨hfree', hlive', hroom'⟩ := kmalloc_page hfree hn hfit
        rw [ih (hlive'.trans hlive) hfree' hrest, hroom', List.length_cons, Nat.add_le_add_iff_right]

end KHeap

/-! ## Calls on an open file -/

/-- A call with its buffer. -/
inductive FileCall where
  | read (buf : Bytes)
  | write (buf : Bytes)

/-- The number of bytes that is asked for. -/
def FileCall.size : FileCall → Nat
  | .read buf => buf.length
  | .write buf => buf.length

/-- The requests to the heap of a call that transfers `k` bytes at `p`. -/
def FileCall.requests (blocks : Nat → Nat → Nat) (p k : Nat) : FileCall → List Nat
  | .read _ => [FS_BLKSZ]
  | .write _ => FS_BLKSZ :: List.replicate (blocks p k) 512

/-- The requests of these calls on a file of length `len` that is at position `p`. -/
def runRequests (blocks : Nat → Nat → Nat) (len : Nat) : Nat → List FileCall → List Nat
  | _, [] => []
  | p, c :: cs =>
    let k := min (p + c.size) len - p
    c.requests blocks p k ++ runRequests blocks len (p + k) cs

variable {β : Type}

def FileCall.code (be : Backend β) (mt : Mounted) (io : Nat) : FileCall → Code β Unit
  | .read buf => do
    let _ ← fsRead be mt io buf
  | .write buf => do
    let _ ← fsWrite be mt io buf

/-- The calls, one after the other. -/
def runCalls (be : Backend β) (mt : Mounted) (io : Nat) : List FileCall → Code β Unit
  | [] => .ret ()
  | c :: cs => do
    c.code be mt io
    runCalls be mt io cs

/-- The calls return, and the pages did not run out. -/
def Survives (be : Backend β) (serve : β → Option β) (heap : β → KHeap) (mt : Mounted) (io : Nat)
    (s : FsState β) (cs : List FileCall) : Prop :=
  ∃ s', (runCalls be mt io cs).exec (fsServe serve) s = some ((), s') ∧
    (heap s'.below).panicked = false

/-- How a medium counts the blocks of a range: sectors do not cross the blocks of the file
system. -/
structure Blocked (blocks : Nat → Nat → Nat) : Prop where
  nil : ∀ x, blocks x 0 = 0
  shift : ∀ a x n, blocks (FS_BLKSZ * a + x) n = blocks x n
  append : ∀ i x n m, x + n = FS_BLKSZ * i → blocks x (n + m) = blocks x n + blocks (x + n) m

theorem blocked_zero : Blocked fun _ _ => 0 := ⟨fun _ => rfl, fun _ _ _ => rfl, fun _ _ _ _ _ => rfl⟩

theorem blocked_blocksOf : Blocked Vioblk.blocksOf where
  nil _ := rfl
  shift a x n := by
    unfold Vioblk.blocksOf FS_BLKSZ
    split <;> omega
  append i x n m h := by
    unfold FS_BLKSZ at h
    unfold Vioblk.blocksOf
    split <;> split <;> split <;> omega

/-- The blocks of a file cost what its bytes cost, wherever they are. -/
theorem fileCost_leaks {ζ : Type} {kmalloc : (n : Nat) → ζ → List.Vector UInt8 n × ζ}
    {blocks : Nat → Nat → Nat} (hb : Blocked blocks) {start : Nat → Nat} {len : Nat}
    (hstart : ∀ i, FS_BLKSZ * i < len → ∃ a, start i = FS_BLKSZ * a) :
    FileCost (leaks kmalloc blocks) start len
      fun x n => (fun heap => (kmalloc 512 heap).2)^[blocks x n] where
  nil x z := by rw [hb.nil]; rfl
  part i off n z hn hoff hlen := by
    obtain ⟨a, ha⟩ := hstart i (by omega)
    show _ = (fun heap => (kmalloc 512 heap).2)^[blocks (start i + off) n] z
    rw [ha, hb.shift, hb.shift]
  append i x n m z hx := by
    rw [hb.append i x n m hx, Nat.add_comm, Function.iterate_add_apply]

/-! ## A run -/

/-- The file in `slot` has `len` bytes and is at position `p`. -/
structure FileAt (mt : Mounted) (slot : Fin MAX_OPEN_FILE_CT) (d : Bytes)
    (filePosition : Fin MAX_OPEN_FILE_CT → Nat) (len p : Nat) : Prop where
  image : WellFormed mt.numInodes d
  length : fileLen d (mt.slots slot).inode = len
  position : filePosition slot = p
  le : p ≤ len

section Run

variable {be : Backend β} {serve : β → Option β} {Ok : KHeap → β → Prop} {disk : β → Bytes}
  {pos : β → Nat} {mt : Mounted} {blocks : Nat → Nat → Nat} {io len p : Nat}
  {slot : Fin MAX_OPEN_FILE_CT} {s : FsState β} {h : KHeap}

/-- One call makes its requests, and advances the position. -/
theorem exec_call (hm : Metered be serve Ok (leaks KHeap.kmalloc blocks) disk pos
      (fun _ _ => True) fun _ _ => True)
    (hb : Blocked blocks) (ho : OpenAt mt io slot) (hok : Ok h s.below)
    (hat : FileAt mt slot (disk s.below) s.filePosition len p) (c : FileCall) (hc : c.size < 2 ^ 63)
    {k : Nat} (hk : k = min (p + c.size) len - p) :
    ∃ s', (c.code be mt io).exec (fsServe serve) s = some ((), s') ∧
      Ok (h.serveAll (c.requests blocks p k)) s'.below ∧
      FileAt mt slot (disk s'.below) s'.filePosition len (p + k) := by
  obtain ⟨hw, rfl, hp, hle⟩ := hat
  have hmax : fileLen (disk s.below) (mt.slots slot).inode < 1023 * 4096 := hw.len _ ho.inode
  cases c with
  | read buf =>
    change buf.length < _ at hc
    change k = min (p + buf.length) _ - p at hk
    obtain ⟨b', hread, hok', hdisk⟩ := exec_fsRead_image hm hok hw ho trivial covers_true hp hle buf
      (by omega) hk
    refine ⟨_, Prog.exec_bind_of_eq hread _, hok', ?_⟩
    refine ⟨?_, ?_, Function.update_self .., by omega⟩
    · show WellFormed _ (disk b')
      rw [hdisk]
      exact hw
    · show fileLen (disk b') _ = _
      rw [hdisk]
  | write buf =>
    change buf.length < _ at hc
    change k = min (p + buf.length) _ - p at hk
    have hcost : FileCost (leaks KHeap.kmalloc blocks)
        (starts mt (inodeOf (disk s.below) (mt.slots slot).inode)) _ _ :=
      fileCost_leaks hb fun i hi => ⟨_, (hw.starts_eq ho.inode hi).trans (Nat.mul_comm ..)⟩
    obtain ⟨b', hwrite, hok', hwritten⟩ := exec_fsWrite_image hm hok hw ho trivial covers_true hcost
      hp hle buf (by omega) hk
    have hrep := hw.replaced ho.inode (by rw [List.length_take]; omega) hwritten
    refine ⟨_, Prog.exec_bind_of_eq hwrite _, ?_, ?_⟩
    · show Ok ((KHeap.kmalloc FS_BLKSZ h).2.serveAll (List.replicate _ 512)) b'
      rw [KHeap.serveAll_replicate]
      exact hok'
    · refine ⟨hw.transport hrep.length hrep.inodes, ?_, Function.update_self .., by omega⟩
      show fileLen (disk b') _ = _
      rw [fileLen, hrep.inodes _ ho.inode, fileLen]

/-- The calls make their requests one after the other. Induction on the calls. -/
theorem exec_runCalls (hm : Metered be serve Ok (leaks KHeap.kmalloc blocks) disk pos
      (fun _ _ => True) fun _ _ => True)
    (hb : Blocked blocks) (ho : OpenAt mt io slot) (hok : Ok h s.below)
    (hat : FileAt mt slot (disk s.below) s.filePosition len p) (cs : List FileCall)
    (hcs : ∀ c ∈ cs, c.size < 2 ^ 63) :
    ∃ s', (runCalls be mt io cs).exec (fsServe serve) s = some ((), s') ∧
      Ok (h.serveAll (runRequests blocks len p cs)) s'.below := by
  induction cs generalizing s h p with
  | nil => exact ⟨s, rfl, hok⟩
  | cons c cs ih =>
    obtain ⟨s₁, hcall, hok₁, hat₁⟩ := exec_call hm hb ho hok hat c (hcs c List.mem_cons_self) rfl
    obtain ⟨s', hrest, hok'⟩ := ih hok₁ hat₁ fun c hmem => hcs c (List.mem_cons_of_mem _ hmem)
    refine ⟨s', (Prog.exec_bind_of_eq hcall _).trans hrest, ?_⟩
    rw [runRequests, KHeap.serveAll_append]
    exact hok'

/-- Every request is for the inode or for a sector. -/
theorem mem_runRequests {n : Nat} {cs : List FileCall} (hn : n ∈ runRequests blocks len p cs) :
    n = FS_BLKSZ ∨ n = 512 := by
  induction cs generalizing p with
  | nil => cases hn
  | cons c cs ih =>
    rw [runRequests] at hn
    obtain hn | hn := List.mem_append.mp hn
    · cases c with
      | read buf => exact .inl (List.mem_singleton.mp hn)
      | write buf =>
        obtain rfl | hn := List.mem_cons.mp hn
        · exact .inl rfl
        · exact .inr (List.eq_of_mem_replicate hn)
    · exact ih hn

/-- With less than a page left in the block, every request for a page takes one. -/
theorem count_le_pagesFor {room : Nat} {requests : List Nat} (hroom : room < PAGE_SIZE)
    (hpos : ∀ n ∈ requests, 0 < n) : requests.count FS_BLKSZ ≤ KHeap.pagesFor room requests := by
  induction requests generalizing room with
  | nil => exact Nat.zero_le _
  | cons n requests ih =>
    have hn : 0 < roundUp n 16 := by
      have := hpos n List.mem_cons_self
      unfold roundUp
      omega
    have hrest : ∀ n ∈ requests, 0 < n := fun n hmem => hpos n (List.mem_cons_of_mem _ hmem)
    rw [List.count_cons]
    unfold KHeap.pagesFor
    by_cases hfit : roundUp n 16 ≤ room
    · have hne : n ≠ FS_BLKSZ := by
        rintro rfl
        exact absurd (hfit.trans_lt hroom) (by decide)
      rw [if_pos hfit, if_neg (by simpa using hne)]
      exact ih (by omega) hrest
    · rw [if_neg hfit]
      have hle : _ ≤ KHeap.pagesFor (max room (PAGE_SIZE - roundUp n 16)) requests :=
        ih (by unfold PAGE_SIZE at *; omega) hrest
      split <;> omega

/-- Every call asks for a page. -/
theorem length_le_count_runRequests (blocks : Nat → Nat → Nat) (len p : Nat)
    (cs : List FileCall) : cs.length ≤ (runRequests blocks len p cs).count FS_BLKSZ := by
  induction cs generalizing p with
  | nil => exact Nat.zero_le _
  | cons c cs ih =>
    rw [runRequests, List.count_append, List.length_cons]
    have hcall : 0 < (c.requests blocks p (min (p + c.size) len - p)).count FS_BLKSZ := by
      rw [List.count_pos_iff]
      cases c with
      | read buf => exact List.mem_singleton.mpr rfl
      | write buf => exact List.mem_cons_self
    have := ih (p + (min (p + c.size) len - p))
    omega

/-- The calls survive exactly if there are pages for their requests. -/
theorem survives_iff (hm : Metered be serve Ok (leaks KHeap.kmalloc blocks) disk pos
      (fun _ _ => True) fun _ _ => True) {heap : β → KHeap} (hheap : ∀ h b, Ok h b → heap b = h)
    (hb : Blocked blocks) (ho : OpenAt mt io slot) (hok : Ok h s.below)
    (hat : FileAt mt slot (disk s.below) s.filePosition len p) (hlive : h.panicked = false)
    {l : List Nat} (hfree : h.phys.Free l) {cs : List FileCall} (hcs : ∀ c ∈ cs, c.size < 2 ^ 63) :
    Survives be serve heap mt io s cs ↔
      KHeap.pagesFor h.room (runRequests blocks len p cs) ≤ l.length := by
  obtain ⟨s', hrun, hok'⟩ := exec_runCalls hm hb ho hok hat cs hcs
  rw [← KHeap.serveAll_survives_iff hlive hfree, ← hheap _ _ hok']
  · constructor
    · rintro ⟨s'', hrun', hlive'⟩
      rw [hrun] at hrun'
      cases hrun'
      exact hlive'
    · intro hlive'
      exact ⟨s', hrun, hlive'⟩
  · intro n hn
    obtain rfl | rfl := mem_runRequests hn
    · decide
    · decide

/-- **More calls than free pages** never survive, whatever they are. -/
theorem not_survives_of_lt (hm : Metered be serve Ok (leaks KHeap.kmalloc blocks) disk pos
      (fun _ _ => True) fun _ _ => True) {heap : β → KHeap} (hheap : ∀ h b, Ok h b → heap b = h)
    (hb : Blocked blocks) (ho : OpenAt mt io slot) (hok : Ok h s.below)
    (hat : FileAt mt slot (disk s.below) s.filePosition len p) (hlive : h.panicked = false)
    {l : List Nat} (hfree : h.phys.Free l) {cs : List FileCall} (hcs : ∀ c ∈ cs, c.size < 2 ^ 63)
    (hroom : h.room < PAGE_SIZE) (hlt : l.length < cs.length) :
    ¬Survives be serve heap mt io s cs := by
  rw [survives_iff hm hheap hb ho hok hat hlive hfree hcs]
  have hcalls := length_le_count_runRequests blocks len p cs
  have hpages : _ ≤ KHeap.pagesFor h.room (runRequests blocks len p cs) :=
    count_le_pagesFor hroom fun n hn => by
      obtain rfl | rfl := mem_runRequests hn
      · decide
      · decide
  omega

end Run

/-- Calls on an open file survive exactly if the free pages are enough for the buffers that they
allocate: in an image in memory one for the inode in each call, and over the block device also one
for each sector that is written. -/
theorem file_calls_survive_iff {mt : Mounted} {io len p : Nat} {slot : Fin MAX_OPEN_FILE_CT}
    (ho : OpenAt mt io slot) {l : List Nat} {cs : List FileCall} (hcs : ∀ c ∈ cs, c.size < 2 ^ 63) :
    (∀ serve (s : FsState (LitState KHeap)), Lit.Ready s.below →
      FileAt mt slot s.below.lit.buf s.filePosition len p → s.below.heap.panicked = false →
      s.below.heap.phys.Free l →
      (Survives (Lit.backend fun n h => some (KHeap.kmalloc n h)) serve (fun b => b.heap) mt io s cs ↔
        KHeap.pagesFor s.below.heap.room (runRequests (fun _ _ => 0) len p cs) ≤ l.length)) ∧
    ∀ (g : Geometry) (s : FsState (Blk g KHeap)), g.Plain → s.below.dev.opened = true →
      s.below.dev.pending = false →
      FileAt mt slot s.below.dev.disk.toList s.filePosition len p →
      s.below.heap.panicked = false → s.below.heap.phys.Free l →
      (Survives (blkBackend g fun n h => some (KHeap.kmalloc n h)) Vioblk.serve (fun b => b.heap) mt io
          s cs ↔
        KHeap.pagesFor s.below.heap.room (runRequests Vioblk.blocksOf len p cs) ≤ l.length) := by
  constructor
  · intro serve s hready hat hlive hfree
    exact survives_iff (metered_lit serve KHeap.kmalloc) (fun _ _ hok => hok.2) blocked_zero ho
      ⟨hready, rfl⟩ hat hlive hfree hcs
  · intro g s hg hopen hquiet hat hlive hfree
    exact survives_iff (metered_blk hg KHeap.kmalloc) (fun _ _ hok => hok.2) blocked_blocksOf ho
      ⟨⟨hopen, hquiet⟩, rfl⟩ hat hlive hfree hcs

/-- The file `abc` is open, and three pages are free. -/
def openThree : FsState (LitState KHeap) where
  below := ⟨⟨imageAbc, imageAbc.length, 0⟩, ⟨Phys.threePages 0, false⟩⟩
  filePosition _ := 1

theorem ready_openThree : Lit.Ready openThree.below := ⟨ready_openAbc.size, ready_openAbc.small⟩

theorem fileAt_openThree :
    FileAt mountedAbc ⟨0, by decide⟩ openThree.below.lit.buf openThree.filePosition 3 1 where
  image := wellFormed_imageAbc
  length := fileLen_imageAbc
  position := rfl
  le := by decide

/-- Three reads are served. -/
theorem file_calls_survive_three :
    Survives (Lit.backend fun n h => some (KHeap.kmalloc n h)) (fun _ => none) (fun b => b.heap)
      mountedAbc 0 openThree (List.replicate 3 (.read [0])) :=
  ((file_calls_survive_iff openAt_mountedAbc (by decide)).1 _ _ ready_openThree fileAt_openThree rfl
    (Phys.threePages_pool 0).free).mpr (by decide)

/-- The fourth read panics. -/
theorem file_calls_panic_fourth :
    openThree.below.heap.phys.Free [0x80702000, 0x80703000, 0x80704000] ∧
    ¬Survives (Lit.backend fun n h => some (KHeap.kmalloc n h)) (fun _ => none) (fun b => b.heap)
      mountedAbc 0 openThree (List.replicate 4 (.read [0])) := by
  refine ⟨(Phys.threePages_pool 0).free, ?_⟩
  exact not_survives_of_lt (metered_lit (fun _ => none) KHeap.kmalloc) (fun _ _ hok => hok.2)
    blocked_zero openAt_mountedAbc ⟨ready_openThree, rfl⟩ fileAt_openThree rfl
    (Phys.threePages_pool 0).free (by decide) (by decide) (by decide)

end Kfs

end RiscvKernel
