import RiscvKernel.Io.VioblkSpec
import RiscvKernel.Sync.Atomic

/-!
# Concurrent calls to the block device driver

Threads call `vioblk_read`, `vioblk_write` and `vioblk_ioctl` on one opened device.

* **`CallsAtomic`** — what atomicity of the calls means: they are a sequential history
  of the abstract device `DevView`, each taking effect at an instant of the call.
* **`overlapping_reads_not_atomic`** — it fails: a read that finds `vlk` taken has
  already sampled `old_pos`, and returns more than it stored.
* **`vioblk_calls_atomic`** — it holds in every run in which reads and writes are
  entered while `vlk` is free, from a position inside the device. The release of `vlk`
  in the middle of `vioblk_write` does no harm.
-/

namespace RiscvKernel

open Lib

namespace Vioblk

variable {g : Geometry} {ζ : Type}

/-! ## Calls -/

inductive BlkOp where
  | read (buf : Bytes)
  | write (buf : Bytes)
  | ioctl (cmd arg : Nat)
  deriving DecidableEq

/-- What a call returns, with the buffer or argument as the call leaves it. -/
inductive BlkRes where
  | read (ret : Int) (buf : Bytes)
  | write (ret : Int)
  | ioctl (ret : Int) (arg : Nat)
  deriving DecidableEq

def blkCode (kmalloc : Kmalloc ζ) : BlkOp → Code g ζ BlkRes
  | .read buf => do
    let (ret, buf) ← vioblkRead buf
    return .read ret buf
  | .write buf => do
    let ret ← vioblkWrite kmalloc buf
    return .write ret
  | .ioctl cmd arg => do
    let (ret, arg) ← vioblkIoctl cmd arg
    return .ioctl ret arg

/-- The driver, called by any number of threads. -/
def blkSys (g : Geometry) (kmalloc : Kmalloc ζ) :
    Sys (Blk g ζ) Unit KLock KCond BlkRes BlkOp where
  code op := .inl (blkCode kmalloc op)
  serve := serve
  irq := .usedUpdated

/-! ## The abstract device -/

/-- What a caller sees of the device: its contents and the current position. -/
@[ext] structure DevView where
  disk : Bytes
  pos : Nat

def devView (s : Blk g ζ) : DevView := ⟨s.dev.disk.toList, s.dev.pos⟩

/-- What one call does to the abstract device. A read returns the bytes at the position,
and their number; a write replaces exactly the bytes at the position. -/
def Effect (size : Nat) : BlkOp → BlkRes → DevView → DevView → Prop
  | .read buf, .read ret buf', d, d' =>
    let k := min buf.length (size - d.pos)
    ret = k ∧ buf' = patch buf 0 (slice d.disk d.pos k) ∧ d' = ⟨d.disk, d.pos + k⟩
  | .write buf, .write ret, d, d' =>
    let k := min buf.length (size - d.pos)
    ret = k ∧ d' = ⟨patch d.disk d.pos (buf.take k), d.pos + k⟩
  | .ioctl cmd arg, .ioctl _ _, d, d' =>
    d' = ⟨d.disk, if cmd = IOCTL_SETPOS then arg else d.pos⟩
  | _, _, _, _ => False

/-- The log is a sequential history of the abstract device from `d₀`, in which every call
finds the device as it was at some instant during the call. -/
inductive AtomicLog (size : Nat) (Now : List BlkOp → Nat → BlkOp → DevView → Prop) (d₀ : DevView) :
    List (Nat × BlkOp × BlkRes) → DevView → Prop where
  | nil : AtomicLog size Now d₀ [] d₀
  | snoc {log : List (Nat × BlkOp × BlkRes)} {d d' : DevView} {t : Nat} {op : BlkOp} {res : BlkRes}
      (hrest : AtomicLog size Now d₀ log d) (hnow : Now (Machine.opsOf log t) t op d)
      (heff : Effect size op res d d') : AtomicLog size Now d₀ (log ++ [(t, op, res)]) d'

/-- At some instant of the run, while `t` was inside call `op` and had completed `done`,
the device was `d`. -/
def DevDuring (sys : Sys (Blk g ζ) Unit KLock KCond BlkRes BlkOp)
    (m : Machine (Blk g ζ) Unit KLock KCond BlkRes BlkOp) (es : List (Event BlkOp))
    (done : List BlkOp) (t : Nat) (op : BlkOp) (d : DevView) : Prop :=
  ∃ s, Machine.During sys m es done t op s ∧ devView s = d

/-- The calls of the run `es` from `m` to `m'` are atomic: they are a sequential history
in each thread's own order, and when no call is in progress it has led to the present
contents and position. -/
def CallsAtomic (sys : Sys (Blk g ζ) Unit KLock KCond BlkRes BlkOp)
    (m : Machine (Blk g ζ) Unit KLock KCond BlkRes BlkOp) (es : List (Event BlkOp))
    (m' : Machine (Blk g ζ) Unit KLock KCond BlkRes BlkOp) : Prop :=
  m'.Ordered ∧ ∃ d, AtomicLog g.size (DevDuring sys m es) (devView m.sh) m'.log d ∧
    ((∀ t, m'.mode t = .user) → d = devView m'.sh)

/-- An atomic read returns at most what its buffer holds. -/
theorem AtomicLog.read_le {size : Nat} {Now : List BlkOp → Nat → BlkOp → DevView → Prop}
    {d₀ d : DevView} {log : List (Nat × BlkOp × BlkRes)} (h : AtomicLog size Now d₀ log d)
    {t : Nat} {buf buf' : Bytes} {ret : Int} (hmem : (t, .read buf, .read ret buf') ∈ log) :
    ret ≤ buf.length := by
  induction h with
  | nil => cases hmem
  | snoc hrest hnow heff ih =>
    rcases List.mem_append.mp hmem with hmem | hmem
    · exact ih hmem
    · cases List.mem_singleton.mp hmem
      obtain ⟨rfl, -, -⟩ := heff
      omega

/-! ## Calls entered while `vlk` is free -/

/-- Reads and writes are entered while nobody holds `vlk`, at a position inside the
device. -/
def EntersAlone (m : Machine (Blk g ζ) Unit KLock KCond BlkRes BlkOp) : Event BlkOp → Prop
  | .call (.read _) => m.tid .vlk = -1 ∧ m.sh.dev.pos ≤ g.size
  | .call (.write _) => m.tid .vlk = -1 ∧ m.sh.dev.pos ≤ g.size
  | _ => True

/-- The position of a call inside the device. -/
def PosOk : BlkOp → Blk g ζ → Prop
  | .ioctl _ _, _ => True
  | _, s => s.dev.pos ≤ g.size

theorem callOk_of_entersAlone {kmalloc : Kmalloc ζ}
    {m : Machine (Blk g ζ) Unit KLock KCond BlkRes BlkOp} {e : Event BlkOp} (h : EntersAlone m e) :
    Machine.CallOk (blkSys g kmalloc) .vlk PosOk m e := by
  have hguard : Guarded .vlk (Machine.noLocks : KLock → Bool) := Or.inl rfl
  cases e with
  | call op =>
    rintro p ⟨⟩
    cases op with
    | read buf =>
      exact Or.inr ⟨h.1, (disciplined_vioblkRead rfl hguard buf).bind fun _ => rfl, h.2⟩
    | write buf =>
      exact Or.inr ⟨h.1, (disciplined_vioblkWrite rfl hguard kmalloc buf).bind fun _ => rfl, h.2⟩
    | ioctl cmd arg =>
      exact Or.inl (.of_disciplined rfl ((disciplined_vioblkIoctl rfl cmd arg).bind fun _ => rfl))
  | run => trivial
  | preempt => trivial
  | dispatch => trivial
  | irq => trivial

/-- A call run alone has its effect on the abstract device. -/
theorem effect_of_exec (hg : g.Plain) {kmalloc : Kmalloc ζ} {op : BlkOp} {res : BlkRes}
    {s s' : Blk g ζ} (hopen : s.dev.opened = true) (hquiet : s.dev.pending = false)
    (hpos : PosOk op s) (hexec : (blkCode kmalloc op).exec serve s = some (res, s')) :
    Effect g.size op res (devView s) (devView s') ∧ s'.dev.opened = true ∧
      s'.dev.pending = false := by
  cases op with
  | read buf =>
    obtain ⟨s₁, hread, -, hafter⟩ := exec_vioblkRead hg buf rfl hopen hquiet hpos
    rw [blkCode, Prog.exec_bind_of_eq hread] at hexec
    cases hexec
    refine ⟨⟨rfl, rfl, ?_⟩, hafter.opened.trans hopen, hafter.quiet⟩
    exact DevView.ext hafter.disk hafter.pos
  | write buf =>
    rcases exec_vioblkWrite hg kmalloc buf rfl hopen hquiet hpos with
      ⟨s₁, hwrite, -, hafter⟩ | ⟨hnone, -⟩
    · rw [blkCode, Prog.exec_bind_of_eq hwrite] at hexec
      cases hexec
      refine ⟨⟨rfl, ?_⟩, hafter.opened.trans hopen, hafter.quiet⟩
      exact DevView.ext hafter.disk hafter.pos
    · rw [blkCode, Prog.exec_bind, hnone] at hexec
      cases hexec
  | ioctl cmd arg =>
    obtain ⟨r, hr⟩ := exec_vioblkIoctl cmd arg s
    rw [blkCode, Prog.exec_bind_of_eq hr] at hexec
    cases hexec
    by_cases hset : cmd = IOCTL_SETPOS
    · simp only [if_pos hset]
      exact ⟨by simp [Effect, devView, hset], hopen, hquiet⟩
    · simp only [if_neg hset]
      exact ⟨by simp [Effect, devView, hset], hopen, hquiet⟩

/-- No call is a bare return. -/
theorem blkCode_ne_ret (kmalloc : Kmalloc ζ) (op : BlkOp) (res : BlkRes) :
    (blkCode kmalloc op : Code g ζ BlkRes) ≠ .ret res := by
  intro h
  cases op <;> cases h

/-- Only `vioblk_ioctl` begins by acquiring `vlk`. -/
theorem posOk_of_starts {kmalloc : Kmalloc ζ} {op : BlkOp} {s : Blk g ζ}
    (h : Machine.Entry (blkSys g kmalloc) .vlk (blkCode kmalloc op) ∨ PosOk op s) : PosOk op s := by
  cases op with
  | read buf => exact h.resolve_left id
  | write buf => exact h.resolve_left id
  | ioctl cmd arg => trivial

/-- A sequential history of the driver's code is one of the abstract device. -/
theorem atomicLog_of_history (hg : g.Plain) {kmalloc : Kmalloc ζ}
    {m : Machine (Blk g ζ) Unit KLock KCond BlkRes BlkOp} {es : List (Event BlkOp)}
    {log : List (Nat × BlkOp × BlkRes)} {s : Blk g ζ} {r : Unit}
    (hopen : m.sh.dev.opened = true) (hquiet : m.sh.dev.pending = false)
    (h : Machine.History (blkSys g kmalloc) (Machine.StartsIn (blkSys g kmalloc) .vlk PosOk m es)
      m.sh m.aux log s r) :
    AtomicLog g.size (DevDuring (blkSys g kmalloc) m es) (devView m.sh) log (devView s) ∧
      s.dev.opened = true ∧ s.dev.pending = false := by
  induction h with
  | nil => exact ⟨.nil, hopen, hquiet⟩
  | code t hrest hcode hnow hexec ih =>
    obtain ⟨hlog, hopen₁, hquiet₁⟩ := ih
    cases hcode
    obtain ⟨heff, hopen₂, hquiet₂⟩ :=
      effect_of_exec hg hopen₁ hquiet₁ (posOk_of_starts (hnow.2 _ rfl)) hexec
    exact ⟨.snoc hlog ⟨_, hnow.1, rfl⟩ heff, hopen₂, hquiet₂⟩
  | noop t hrest hcode ih => exact absurd (Sum.inl.inj hcode) (blkCode_ne_ret kmalloc _ _)
  | aux t hrest hcode ih => cases hcode

/-- **Calls entered alone are atomic.** On an opened device with 512-byte blocks and less
than 2 GiB, in every run in which reads and writes are entered while `vlk` is free and
the position is inside the device. -/
theorem vioblk_calls_atomic (hg : g.Plain) (kmalloc : Kmalloc ζ)
    (m m' : Machine (Blk g ζ) Unit KLock KCond BlkRes BlkOp) (es : List (Event BlkOp))
    (hfresh : Machine.Fresh (blkSys g kmalloc) m) (hopen : m.sh.dev.opened = true)
    (halone : Machine.Along (blkSys g kmalloc) EntersAlone m es)
    (hrun : m.runs (blkSys g kmalloc) es = some m') :
    CallsAtomic (blkSys g kmalloc) m es m' := by
  have hquiet : m.sh.dev.pending = false := serve_eq_none.mp hfresh.quiet
  have hcalls : Machine.Along (blkSys g kmalloc) (Machine.CallOk (blkSys g kmalloc) .vlk PosOk) m es :=
    halone.mono fun _ _ => callOk_of_entersAlone
  obtain ⟨hord, s, hhist, hlast⟩ :=
    Machine.runs_atomic hfresh (fun _ _ => serve_once) hcalls hrun
  obtain ⟨hlog, -, -⟩ := atomicLog_of_history hg hopen hquiet hhist
  exact ⟨hord, devView s, hlog, fun huser => by rw [hlast huser]⟩

/-! ## Overlapping calls -/

/-- The device is open at position 0; thread 1 runs and thread 2 is ready. -/
def twoCallers : Machine (Blk oneSector Unit) Unit KLock KCond BlkRes BlkOp where
  sh :=
    { dev :=
        { opened := true, pos := 0, reqType := .tIn, reqSector := 0, descWrite := true
          blkbuf := List.Vector.replicate _ 0, pending := false
          disk := List.Vector.replicate _ 0 }
      heap := () }
  aux := ()
  tid _ := -1
  q := { running := some 1, ready := [2], waiting := fun _ => [] }
  mode _ := .user
  inside _ := []
  calls _ := []
  log := []

theorem twoCallers_fresh : Machine.Fresh (blkSys oneSector blankAlloc) twoCallers where
  wf := by
    constructor <;> simp [twoCallers]
  free _ := rfl
  quiet := rfl
  user _ := rfl
  calls _ := rfl
  log := rfl

/-- Thread 1 reads a byte and sleeps; thread 2 enters a read of a byte and waits for
`vlk`; thread 1 finishes, then thread 2. -/
def overlappingReads : List (Event BlkOp) :=
  [.call (.read [9])] ++ List.replicate 5 .run ++ [.call (.read [9]), .run, .run, .irq, .dispatch] ++
    List.replicate 5 .run ++ [.preempt] ++ List.replicate 4 .run ++ [.irq, .preempt] ++
    List.replicate 5 .run

/-- **The calls are not atomic in general.** The read of thread 2 sampled `old_pos`
before thread 1 advanced the position: it stores one byte and returns 2. -/
theorem overlapping_reads_not_atomic :
    ∃ m', Machine.Fresh (blkSys oneSector blankAlloc) twoCallers ∧
      twoCallers.sh.dev.opened = true ∧
      twoCallers.runs (blkSys oneSector blankAlloc) overlappingReads = some m' ∧
      (2, .read [9], .read 2 [0]) ∈ m'.log ∧
      ¬ CallsAtomic (blkSys oneSector blankAlloc) twoCallers overlappingReads m' := by
  have hlog : (twoCallers.runs (blkSys oneSector blankAlloc) overlappingReads).map
      (fun m => decide ((2, BlkOp.read [9], BlkRes.read 2 [0]) ∈ m.log)) = some true := by
    decide +kernel
  obtain ⟨m', hrun, hmem⟩ := Option.map_eq_some_iff.mp hlog
  have hmem' := of_decide_eq_true hmem
  refine ⟨m', twoCallers_fresh, rfl, hrun, hmem', ?_⟩
  rintro ⟨-, d, hatomic, -⟩
  have hle := hatomic.read_le hmem'
  simp at hle

/-- Thread 1 reads and sleeps; thread 2 seeks, waiting for `vlk`. -/
def readAndSeek : List (Event BlkOp) :=
  [.call (.read [9])] ++ List.replicate 5 .run ++ [.call (.ioctl IOCTL_SETPOS 5), .run, .irq,
    .dispatch] ++ List.replicate 5 .run ++ [.preempt] ++ List.replicate 5 .run

theorem vioblk_calls_atomic_readAndSeek :
    ∃ m', twoCallers.runs (blkSys oneSector blankAlloc) readAndSeek = some m' ∧
      CallsAtomic (blkSys oneSector blankAlloc) twoCallers readAndSeek m' := by
  have hsome : (twoCallers.runs (blkSys oneSector blankAlloc) readAndSeek).isSome = true := by
    decide +kernel
  obtain ⟨m', hrun⟩ := Option.isSome_iff_exists.mp hsome
  refine ⟨m', hrun, vioblk_calls_atomic oneSector_plain blankAlloc twoCallers m' readAndSeek
    twoCallers_fresh rfl ⟨⟨rfl, by decide⟩, fun m₁ _ => ?_⟩ hrun⟩
  refine Machine.along_of_forall (fun e he m => ?_) m₁
  simp at he
  rcases he with rfl | rfl | rfl | rfl | rfl | rfl | rfl | rfl <;> trivial

end Vioblk

end RiscvKernel
