import RiscvKernel.Thread.Machine

/-!
# The copy of the kernel stack in a fork

`_thread_finish_fork` of `thrasm.s`: it saves the registers of the parent, copies the parent's
kernel stack to the child's and goes on as the child. The loop counts down the depth of the
stack in bytes, one in each round, but a round copies eight bytes.

* `setChildFrame_eq`: the loop copies `d + 1` words for a depth of `d` bytes.
* `threadFinishFork_frameStores`: the step `finishFork` of the thread machine makes these stores.
* `finish_fork_overruns`: it always reads below the stack pointer of the parent.
-/

namespace RiscvKernel

namespace Thread

/-- The registers that `_thread_finish_fork` uses, and memory, in words by their address. -/
structure Cpu where
  s : Fin 12 → BitVec 64
  ra : BitVec 64
  sp : BitVec 64
  tp : BitVec 64
  mem : BitVec 64 → BitVec 64

/-- The registers of the loop, memory, and the addresses that the loop has loaded from. -/
structure Copy where
  s2 : BitVec 64
  s3 : BitVec 64
  s4 : BitVec 64
  s5 : BitVec 64
  mem : BitVec 64 → BitVec 64
  loads : List (BitVec 64)

/-- One round of `set_child_frame`, without the branch at its end. -/
def Copy.round (c : Copy) : Copy where
  s5 := c.mem c.s4
  mem := Function.update c.mem c.s3 (c.mem c.s4)
  s3 := c.s3 - 8
  s4 := c.s4 - 8
  s2 := c.s2 - 1
  loads := c.loads ++ [c.s4]

/-- The loop `set_child_frame`, at most `fuel` rounds of it; `bgez` tests a signed number. -/
def setChildFrame : Nat → Copy → Option Copy
  | 0, _ => none
  | fuel + 1, c => if 0 ≤ c.round.s2.toInt then setChildFrame fuel c.round else some c.round

/-- The context of a thread is at the beginning of its `struct thread`: `s0` to `s11`, `ra` and
`sp`. -/
def saveContext (cpu : Cpu) : BitVec 64 → BitVec 64 :=
  let mem := (List.finRange 12).foldl
    (fun mem (i : Fin 12) => Function.update mem (cpu.tp + BitVec.ofNat 64 (8 * i)) (cpu.s i)) cpu.mem
  let mem := Function.update mem (cpu.tp + 12 * 8) cpu.ra
  Function.update mem (cpu.tp + 13 * 8) cpu.sp

/-- `_thread_finish_fork` with `a0` the thread of the child, and what its loop loads from. -/
def threadFinishFork (fuel : Nat) (a0 : BitVec 64) (cpu : Cpu) : Option (Cpu × List (BitVec 64)) :=
  let mem := saveContext cpu
  let s0 := mem (cpu.tp + 15 * 8)
  let s1 := s0 - cpu.sp
  let sp := mem (a0 + 13 * 8)
  match setChildFrame fuel { s2 := s1, s3 := sp - 8, s4 := s0 - 8, s5 := 0, mem := mem, loads := [] } with
  | none => none
  | some c =>
    let mem := Function.update c.mem (sp - 24 * 8) 0
    some ({ s := fun i => if i.val < 6 then mem (cpu.tp + BitVec.ofNat 64 (8 * i)) else cpu.s i
            ra := cpu.ra
            sp := sp - s1
            tp := a0
            mem := mem }, c.loads)

/-- The `stack_base` of the running thread. -/
def Cpu.stackBase (cpu : Cpu) : BitVec 64 := cpu.mem (cpu.tp + 15 * 8)

/-- The stack depth of the running thread in bytes. -/
def Cpu.depth (cpu : Cpu) : Nat := (cpu.stackBase - cpu.sp).toNat

/-- What the copy is to do, for the child's stack base `child`: the words of the parent's stack
are those of the child's, except for `a0` in the trap frame, which is 0; no other word of the
parent's is read; and nothing but the child's stack and the context of the parent is written. -/
structure StackCopied (cpu : Cpu) (child : BitVec 64) (r : Cpu × List (BitVec 64)) : Prop where
  copied : ∀ k, 0 < k → 8 * k ≤ cpu.depth → r.1.mem (child - BitVec.ofNat 64 (8 * k)) =
    if k = 24 then 0 else cpu.mem (cpu.stackBase - BitVec.ofNat 64 (8 * k))
  reads : ∀ a ∈ r.2, cpu.sp.toNat ≤ a.toNat ∧ a.toNat < cpu.stackBase.toNat
  frame : ∀ a, (∀ k, 0 < k → 8 * k ≤ cpu.depth → a ≠ child - BitVec.ofNat 64 (8 * k)) →
    (∀ j < 14, a ≠ cpu.tp + BitVec.ofNat 64 (8 * j)) → r.1.mem a = cpu.mem a

/-! ## The loop -/

/-- The word `k` words below `p`. -/
def below (p : BitVec 64) (k : Nat) : BitVec 64 := p - BitVec.ofNat 64 (8 * k)

theorem below_zero (p : BitVec 64) : below p 0 = p := by
  unfold below
  simp

theorem below_succ (p : BitVec 64) (k : Nat) : below (p - 8) k = below p (k + 1) := by
  unfold below
  rw [Nat.mul_succ, BitVec.ofNat_add, BitVec.sub_sub, BitVec.add_comm]
  rfl

theorem below_toNat {p : BitVec 64} {k : Nat} (h : 8 * k ≤ p.toNat) :
    (below p k).toNat = p.toNat - 8 * k := by
  have hword : (BitVec.ofNat 64 (8 * k)).toNat = 8 * k := by
    have := p.isLt
    rw [BitVec.toNat_ofNat]
    omega
  unfold below
  rw [BitVec.toNat_sub_of_le (BitVec.le_def.mpr (by omega)), hword]

theorem below_injective {p : BitVec 64} {i j : Nat} (hi : i < 2 ^ 61) (hj : j < 2 ^ 61)
    (h : below p i = below p j) : i = j := by
  unfold below at h
  have hnat := congrArg BitVec.toNat h
  rw [BitVec.toNat_sub, BitVec.toNat_sub, BitVec.toNat_ofNat, BitVec.toNat_ofNat] at hnat
  have := p.isLt
  omega

/-- The stacks are apart, as far as the loop goes. -/
def Apart (n : Nat) (s3 s4 : BitVec 64) : Prop := ∀ i < n, ∀ j < n, below s3 i ≠ below s4 j

/-- What `n` rounds do: they load `n` words and store them. -/
structure Copied (n : Nat) (c c' : Copy) : Prop where
  loads : c'.loads = c.loads ++ (List.range n).map (below c.s4)
  frame : ∀ a, (∀ k < n, a ≠ below c.s3 k) → c'.mem a = c.mem a
  words : Apart n c.s3 c.s4 → ∀ k < n, c'.mem (below c.s3 k) = c.mem (below c.s4 k)

theorem Copied.one (c : Copy) : Copied 1 c c.round where
  loads := by
    show c.loads ++ [c.s4] = c.loads ++ [below c.s4 0]
    rw [below_zero]
  frame a ha := by
    refine Function.update_of_ne ?_ ..
    rw [← below_zero c.s3]
    exact ha 0 Nat.one_pos
  words _ k hk := by
    obtain rfl := Nat.lt_one_iff.mp hk
    rw [below_zero, below_zero]
    exact Function.update_self ..

/-- A round before `n` others. -/
theorem Copied.cons {n : Nat} {c c' : Copy} (hn : n < 2 ^ 60) (h : Copied n c.round c') :
    Copied (n + 1) c c' := by
  have hs3 : ∀ k, below c.round.s3 k = below c.s3 (k + 1) := below_succ c.s3
  have hs4 : ∀ k, below c.round.s4 k = below c.s4 (k + 1) := below_succ c.s4
  refine ⟨?_, fun a ha => ?_, fun hapart k hk => ?_⟩
  · have hrest : (List.range n).map (below c.round.s4) =
        (List.range n).map (below c.s4 ∘ Nat.succ) := List.map_congr_left fun k _ => hs4 k
    rw [h.loads, hrest, List.range_succ_eq_map, List.map_cons, List.map_map, below_zero]
    show c.loads ++ [c.s4] ++ _ = _
    rw [List.append_assoc]
    rfl
  · rw [h.frame a fun k hk => hs3 k ▸ ha (k + 1) (Nat.succ_lt_succ hk)]
    refine Function.update_of_ne ?_ ..
    rw [← below_zero c.s3]
    exact ha 0 (Nat.succ_pos n)
  · cases k with
    | zero =>
      -- the rounds that follow store below it
      rw [h.frame _ fun k hk heq => ?_, below_zero, below_zero]
      · exact Function.update_self ..
      · rw [hs3] at heq
        exact absurd (below_injective (by omega) (by omega) heq) (Nat.succ_ne_zero k).symm
    | succ k =>
      have hk := Nat.lt_of_succ_lt_succ hk
      have hapart' : Apart n c.round.s3 c.round.s4 := fun i hi j hj => by
        rw [hs3, hs4]
        exact hapart (i + 1) (Nat.succ_lt_succ hi) (j + 1) (Nat.succ_lt_succ hj)
      rw [← hs3, h.words hapart' k hk, hs4]
      refine Function.update_of_ne ?_ ..
      rw [← below_zero c.s3]
      exact (hapart 0 (Nat.succ_pos n) (k + 1) (Nat.succ_lt_succ hk)).symm

/-- With a depth of `d` bytes in `s2` the loop makes `d + 1` rounds. -/
theorem setChildFrame_eq {d fuel : Nat} {c : Copy} (hs2 : c.s2 = BitVec.ofNat 64 d)
    (hd : d < 2 ^ 59) (hfuel : d < fuel) :
    ∃ c', setChildFrame fuel c = some c' ∧ Copied (d + 1) c c' := by
  induction d generalizing c fuel with
  | zero =>
    obtain ⟨fuel, rfl⟩ := Nat.exists_eq_succ_of_ne_zero (Nat.ne_zero_of_lt hfuel)
    have hneg : ¬0 ≤ c.round.s2.toInt := by
      show ¬0 ≤ (c.s2 - 1).toInt
      rw [hs2]
      decide
    exact ⟨c.round, if_neg hneg, .one c⟩
  | succ d ih =>
    obtain ⟨fuel, rfl⟩ := Nat.exists_eq_succ_of_ne_zero (Nat.ne_zero_of_lt hfuel)
    have hs2' : c.round.s2 = BitVec.ofNat 64 d := by
      show c.s2 - 1 = _
      rw [hs2, BitVec.ofNat_add]
      exact BitVec.add_sub_cancel ..
    have hnonneg : 0 ≤ c.round.s2.toInt := by
      rw [hs2', BitVec.toInt_eq_toNat_of_lt] <;> rw [BitVec.toNat_ofNat] <;> omega
    obtain ⟨c', hc', hcopied⟩ := ih hs2' (by omega) (Nat.lt_of_succ_lt_succ hfuel)
    exact ⟨c', (if_pos hnonneg).trans hc', hcopied.cons (by omega)⟩

/-! ## The function -/

/-- Saving the context of the parent writes to the first fourteen words of its thread. -/
theorem saveContext_mem {cpu : Cpu} {a : BitVec 64}
    (ha : ∀ j < 14, a ≠ cpu.tp + BitVec.ofNat 64 (8 * j)) : saveContext cpu a = cpu.mem a := by
  have hfold : ∀ (l : List (Fin 12)) (mem : BitVec 64 → BitVec 64), l.foldl (fun mem (i : Fin 12) =>
      Function.update mem (cpu.tp + BitVec.ofNat 64 (8 * i)) (cpu.s i)) mem a = mem a := by
    intro l
    induction l with
    | nil => intro mem; rfl
    | cons i l ih =>
      intro mem
      exact (ih _).trans (Function.update_of_ne (ha i (by omega)) ..)
  have h12 := ha 12 (by decide)
  have h13 := ha 13 (by decide)
  unfold saveContext
  exact (Function.update_of_ne h13 ..).trans ((Function.update_of_ne h12 ..).trans (hfold _ _))

/-- The base of the child's stack, as it is loaded. -/
def childBase (cpu : Cpu) (a0 : BitVec 64) : BitVec 64 := saveContext cpu (a0 + 13 * 8)

theorem saveContext_stackBase (cpu : Cpu) : saveContext cpu (cpu.tp + 15 * 8) = cpu.stackBase := by
  refine saveContext_mem fun j hj heq => ?_
  have hnat := congrArg BitVec.toNat heq
  have h120 : (15 * 8 : BitVec 64).toNat = 120 := rfl
  rw [BitVec.toNat_add, BitVec.toNat_add, BitVec.toNat_ofNat, h120] at hnat
  have := cpu.tp.isLt
  omega

/-- The fork finishes. Its loop copies `depth + 1` words, and then `a0` is cleared. -/
theorem threadFinishFork_eq (cpu : Cpu) (a0 : BitVec 64) {F : Nat} (hd : cpu.depth < 2 ^ 59)
    (hfuel : cpu.depth < F) : ∃ c' r, threadFinishFork F a0 cpu = some r ∧
      Copied (cpu.depth + 1) ⟨cpu.stackBase - cpu.sp, childBase cpu a0 - 8, cpu.stackBase - 8, 0,
        saveContext cpu, []⟩ c' ∧
      r.2 = c'.loads ∧ r.1.mem = Function.update c'.mem (childBase cpu a0 - 24 * 8) 0 := by
  have hs1 : cpu.stackBase - cpu.sp = BitVec.ofNat 64 cpu.depth := by
    unfold Cpu.depth
    rw [BitVec.ofNat_toNat, BitVec.setWidth_eq]
  obtain ⟨c', hc', hcopied⟩ := setChildFrame_eq
    (c := ⟨cpu.stackBase - cpu.sp, childBase cpu a0 - 8, cpu.stackBase - 8, 0, saveContext cpu, []⟩)
    hs1 hd hfuel
  unfold threadFinishFork
  dsimp only
  rw [saveContext_stackBase]
  unfold childBase at hc'
  rw [hc']
  exact ⟨c', _, rfl, hcopied, rfl, rfl⟩

/-- The words that the loop copies, from the base of the stack of the parent down. -/
def kernelFrame (cpu : Cpu) : List Nat :=
  (List.range (cpu.depth + 1)).map fun k => (saveContext cpu (below (cpu.stackBase - 8) k)).toNat

/-- Stores of the thread machine, in the memory of the processor. -/
def storeWords (ws : List (Nat × Nat)) (mem : BitVec 64 → BitVec 64) : BitVec 64 → BitVec 64 :=
  ws.foldl (fun mem w => Function.update mem (BitVec.ofNat 64 w.1) (BitVec.ofNat 64 w.2)) mem

theorem storeWords_concat (ws : List (Nat × Nat)) (w : Nat × Nat) (mem : BitVec 64 → BitVec 64) :
    storeWords (ws ++ [w]) mem =
      Function.update (storeWords ws mem) (BitVec.ofNat 64 w.1) (BitVec.ofNat 64 w.2) :=
  List.foldl_concat ..

theorem storeWords_of_notMem {ws : List (Nat × Nat)} {mem : BitVec 64 → BitVec 64} {a : BitVec 64}
    (h : ∀ w ∈ ws, BitVec.ofNat 64 w.1 ≠ a) : storeWords ws mem a = mem a := by
  induction ws generalizing mem with
  | nil => rfl
  | cons w ws ih =>
    exact (ih fun w' hw' => h w' (List.mem_cons_of_mem w hw')).trans
      (Function.update_of_ne (h w List.mem_cons_self).symm ..)

/-- Different words hold what was stored there. -/
theorem storeWords_of_mem {ws : List (Nat × Nat)} {mem : BitVec 64 → BitVec 64} {w : Nat × Nat}
    (hdiff : ws.Pairwise fun w w' => BitVec.ofNat 64 w'.1 ≠ BitVec.ofNat 64 w.1) (hw : w ∈ ws) :
    storeWords ws mem (BitVec.ofNat 64 w.1) = BitVec.ofNat 64 w.2 := by
  induction ws generalizing mem with
  | nil => cases hw
  | cons w' ws ih =>
    obtain ⟨hhead, htail⟩ := List.pairwise_cons.mp hdiff
    rcases List.mem_cons.mp hw with rfl | hw
    · exact (storeWords_of_notMem hhead).trans (Function.update_self ..)
    · exact ih htail hw

theorem ofNat_sub_eq_below {base k : Nat} (hk : k < 2 ^ 61) (h : 8 * k ≤ base) :
    BitVec.ofNat 64 (base - 8 * k) = below (BitVec.ofNat 64 base) k :=
  (BitVec.ofNat_sub_ofNat_of_le base (8 * k) (by omega) h).symm

/-- The copy as the stores of the step `finishFork` of the thread machine, for stacks that do not
overlap as far as the loop goes. -/
theorem threadFinishFork_frameStores {μ : Type} (cpu : Cpu) (a0 : BitVec 64) {F : Nat}
    (hd : cpu.depth < 2 ^ 59) (hfuel : cpu.depth < F) (k : Kernel μ) (child : Ptr)
    (hbase : childBase cpu a0 = BitVec.ofNat 64 (k.table.stackBase child))
    (hroom : 8 * (cpu.depth + 1) ≤ k.table.stackBase child) (hframe : 8 * 24 ≤ k.table.stackBase child)
    (hapart : Apart (cpu.depth + 1) (childBase cpu a0 - 8) (cpu.stackBase - 8)) :
    ∃ r, threadFinishFork F a0 cpu = some r ∧
      r.1.mem = storeWords (frameStores k child (kernelFrame cpu)) (saveContext cpu) := by
  obtain ⟨c', r, hr, hcopied, -, hmem⟩ := threadFinishFork_eq cpu a0 hd hfuel
  refine ⟨r, hr, ?_⟩
  set copy := (kernelFrame cpu).mapIdx fun n w => (k.table.stackBase child - 8 * (n + 1), w) with hcopy
  have hlen : (kernelFrame cpu).length = cpu.depth + 1 := by
    unfold kernelFrame
    rw [List.length_map, List.length_range]
  have hlen' : copy.length = cpu.depth + 1 := List.length_mapIdx.trans hlen
  have haddr : ∀ n < cpu.depth + 1, BitVec.ofNat 64 (k.table.stackBase child - 8 * (n + 1)) =
      below (childBase cpu a0) (n + 1) := by
    intro n hn
    rw [hbase]
    exact ofNat_sub_eq_below (by omega) (by omega)
  have hdiff : copy.Pairwise fun w w' => BitVec.ofNat 64 w'.1 ≠ BitVec.ofNat 64 w.1 := by
    refine List.pairwise_iff_getElem.mpr fun i j hi hj hij heq => ?_
    rw [hlen'] at hi hj
    simp only [hcopy, List.getElem_mapIdx] at heq
    rw [haddr i hi, haddr j hj] at heq
    have := below_injective (by omega) (by omega) heq
    omega
  -- the loop
  have hloop : c'.mem = storeWords copy (saveContext cpu) := by
    funext a
    by_cases ha : ∃ n < cpu.depth + 1, a = below (childBase cpu a0 - 8) n
    · obtain ⟨n, hn, rfl⟩ := ha
      have hget : (kernelFrame cpu)[n] = (saveContext cpu (below (cpu.stackBase - 8) n)).toNat := by
        simp only [kernelFrame, List.getElem_map, List.getElem_range]
      have hstored : storeWords copy (saveContext cpu) _ = _ :=
        storeWords_of_mem hdiff (List.mem_mapIdx.mpr ⟨n, hlen ▸ hn, rfl⟩)
      rw [haddr n hn, hget, BitVec.ofNat_toNat, BitVec.setWidth_eq, ← below_succ] at hstored
      exact (hcopied.words hapart n hn).trans hstored.symm
    · have hfree : ∀ n < cpu.depth + 1, a ≠ below (childBase cpu a0 - 8) n :=
        fun n hn h => ha ⟨n, hn, h⟩
      refine (hcopied.frame a hfree).trans (storeWords_of_notMem fun w hw heq => ?_).symm
      obtain ⟨n, hn, rfl⟩ := List.mem_mapIdx.mp hw
      rw [hlen] at hn
      rw [haddr n hn, ← below_succ] at heq
      exact hfree n hn heq.symm
  -- the trap frame
  have hzero : BitVec.ofNat 64 (k.table.stackBase child - 8 * 24) = childBase cpu a0 - 24 * 8 := by
    rw [hbase, ofNat_sub_eq_below (by omega) hframe]
    rfl
  have happend : storeWords (frameStores k child (kernelFrame cpu)) (saveContext cpu) =
      Function.update (storeWords copy (saveContext cpu))
        (BitVec.ofNat 64 (k.table.stackBase child - 8 * 24)) (BitVec.ofNat 64 0) :=
    storeWords_concat copy _ _
  rw [hmem, happend, hloop, hzero]
  rfl

theorem sp_add_depth {cpu : Cpu} (hfits : cpu.depth ≤ PAGE_SIZE)
    (hram : RAM_START ≤ cpu.stackBase.toNat) : cpu.sp.toNat + cpu.depth = cpu.stackBase.toNat := by
  have hsub : cpu.depth = (2 ^ 64 - cpu.sp.toNat + cpu.stackBase.toNat) % 2 ^ 64 := BitVec.toNat_sub ..
  have := cpu.sp.isLt
  have := cpu.stackBase.isLt
  unfold RAM_START PAGE_SIZE at *
  omega

/-- The last word that the loop reads is below the stack pointer. -/
theorem reads_below_sp {cpu : Cpu} {c c' : Copy} (hs4 : c.s4 = cpu.stackBase - 8)
    (h : Copied (cpu.depth + 1) c c') (hfits : cpu.depth ≤ PAGE_SIZE)
    (hram : RAM_START ≤ cpu.stackBase.toNat) :
    ∃ a ∈ c'.loads, a.toNat < cpu.sp.toNat := by
  refine ⟨below c.s4 cpu.depth, ?_, ?_⟩
  · rw [h.loads]
    exact List.mem_append_right _ (List.mem_map_of_mem (List.mem_range.mpr (Nat.lt_succ_self _)))
  · have hsp := sp_add_depth hfits hram
    unfold RAM_START PAGE_SIZE at *
    rw [hs4, below_succ, below_toNat (by omega)]
    omega

/-- For no depth of the stack that fits into its page is the copy what it should be. -/
theorem finish_fork_overruns (cpu : Cpu) (a0 : BitVec 64) {fuel : Nat}
    (hfits : cpu.depth ≤ PAGE_SIZE) (hram : RAM_START ≤ cpu.stackBase.toNat)
    (hfuel : cpu.depth < fuel) :
    ∃ r, threadFinishFork fuel a0 cpu = some r ∧ ¬StackCopied cpu (childBase cpu a0) r := by
  have hd : cpu.depth < 2 ^ 59 := Nat.lt_of_le_of_lt hfits (by decide)
  obtain ⟨c', r, hr, hcopied, hloads, -⟩ := threadFinishFork_eq cpu a0 hd hfuel
  refine ⟨r, hr, fun hok => ?_⟩
  obtain ⟨a, ha, hlt⟩ := reads_below_sp rfl hcopied hfits hram
  have hread := (hok.reads a (hloads ▸ ha)).1
  omega

/-- A fork with 512 bytes on the stack of the parent, whose page is full of sevens. The rest of
memory is empty, but for the stack bases of the two threads. -/
def shallowFork : Cpu where
  s := fun _ => 0
  ra := 0
  sp := 0x80103ff0 - 512
  tp := 0x80100000
  mem := fun a =>
    if a = 0x80100078 then 0x80103ff0
    else if a = 0x80101068 then 0x80105ff0
    else if 0x80102000 ≤ a ∧ a < 0x80104000 then 7
    else 0

theorem finish_fork_overruns_shallow : shallowFork.depth = 512 ∧
    ∃ r, threadFinishFork 513 0x80101000 shallowFork = some r ∧
      ¬StackCopied shallowFork (childBase shallowFork 0x80101000) r :=
  ⟨by decide, finish_fork_overruns shallowFork 0x80101000 (by decide) (by decide) (by decide)⟩

/-- Its loop writes a seven to the page below the child's stack. -/
theorem finish_fork_writes_below : ∃ r, threadFinishFork 513 0x80101000 shallowFork = some r ∧
    (∃ a ∈ r.2, a.toNat < shallowFork.sp.toNat) ∧
    shallowFork.mem 0x80104fe8 = 0 ∧ r.1.mem 0x80104fe8 = 7 ∧
    ¬StackCopied shallowFork (childBase shallowFork 0x80101000) r := by
  have hdepth : shallowFork.depth = 512 := by decide
  have hchild : childBase shallowFork 0x80101000 = 0x80105ff0 :=
    saveContext_mem (by decide)
  have hd : shallowFork.depth < 2 ^ 59 := by rw [hdepth]; decide
  obtain ⟨c', r, hr, hcopied, hloads, hmem⟩ :=
    threadFinishFork_eq shallowFork 0x80101000 (F := 513) hd (by rw [hdepth]; decide)
  have hbelow := reads_below_sp rfl hcopied (by rw [hdepth]; decide) (by decide)
  rw [← hloads] at hbelow
  refine ⟨r, hr, hbelow, by decide, ?_, fun hok => ?_⟩
  · -- the last word that is copied
    have hword := hcopied.words ?_ 512 (by rw [hdepth]; decide)
    · rw [hchild] at hword hmem
      have hsource : saveContext shallowFork (below (shallowFork.stackBase - 8) 512) = 7 :=
        (saveContext_mem (a := below (shallowFork.stackBase - 8) 512) (by decide)).trans (by decide)
      rw [hmem, Function.update_of_ne (by decide)]
      exact hword.trans hsource
    · intro i hi j hj heq
      rw [hdepth] at hi hj
      rw [hchild] at heq
      have hfrom : (shallowFork.stackBase - 8).toNat = 0x80103fe8 := by decide
      have hto : (0x80105ff0 - 8 : BitVec 64).toNat = 0x80105fe8 := by decide
      have hnat := congrArg BitVec.toNat heq
      rw [below_toNat (by rw [hto]; omega), below_toNat (by rw [hfrom]; omega), hfrom, hto] at hnat
      omega
  · obtain ⟨a, ha, hlt⟩ := hbelow
    have hread := (hok.reads a ha).1
    omega

end Thread

end RiscvKernel
