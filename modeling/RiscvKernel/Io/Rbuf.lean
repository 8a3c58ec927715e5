import RiscvKernel.Io.Uart

/-!
# The ring buffers of the serial port

`rbuf_put` and `rbuf_get`, called one after the other in any number. The positions are counters of
16 bits that wrap around. Over them stands a queue of bounded length (`queueStep`), and a run of the
buffer is a run of the queue, step by step.
-/

namespace RiscvKernel

open Lib

namespace Uart

inductive RbufOp where
  | put (c : UInt8)
  | get

/-- A call of `rbuf_put` unless the buffer is full, or of `rbuf_get` unless it is empty. -/
def rbufStep (r : Ringbuf) : RbufOp → Option (Option UInt8 × Ringbuf)
  | .put c => if rbufFull r then none else some (none, rbufPut r c)
  | .get => if rbufEmpty r then none else some (some (rbufGet r).1, (rbufGet r).2)

/-- The same for a queue of at most `cap` bytes. -/
def queueStep (cap : Nat) (q : List UInt8) : RbufOp → Option (Option UInt8 × List UInt8)
  | .put c => if q.length < cap then some (none, q ++ [c]) else none
  | .get =>
    match q with
    | [] => none
    | c :: q => some (some c, q)

/-- Calls one after the other: the bytes that are got, and the state. -/
def opsRun {σ : Type} (step : σ → RbufOp → Option (Option UInt8 × σ)) :
    σ → List RbufOp → Option (List UInt8 × σ)
  | s, [] => some ([], s)
  | s, op :: ops =>
    match step s op with
    | none => none
    | some (out, s) => (opsRun step s ops).map fun r => (out.toList ++ r.1, r.2)

/-- The bytes that are put. -/
def putBytes (ops : List RbufOp) : List UInt8 :=
  ops.filterMap fun
    | .put c => some c
    | .get => none

variable {r : Ringbuf}

theorem rbufEmpty_iff : rbufEmpty r = true ↔ r.contents = [] := by
  unfold rbufEmpty
  rw [decide_eq_true_iff, Ring.contents_eq_nil]

theorem rbufFull_iff : rbufFull r = true ↔ r.contents.length = SERIAL_RBUFSZ := by
  unfold rbufFull
  rw [decide_eq_true_iff, Ring.length_contents]

theorem contents_rbufPut (hroom : r.contents.length < SERIAL_RBUFSZ) (c : UInt8) :
    (rbufPut r c).contents = r.contents ++ [c] := by
  rw [Ring.length_contents] at hroom
  have hfits : (r.store r.tpos c).size + 1 < 2 ^ 16 :=
    Nat.lt_of_lt_of_le (Nat.succ_lt_succ hroom) (by decide)
  calc (rbufPut r c).contents
      = (r.store r.tpos c).contents ++ [(r.store r.tpos c).data (Ring.slot r.tpos)] :=
        Ring.contents_setTail hfits
    _ = r.contents ++ [c] := by rw [Ring.contents_store (by decide) hroom, Ring.data_store]

theorem contents_rbufGet (hne : r.contents ≠ []) :
    r.contents = (rbufGet r).1 :: (rbufGet r).2.contents := by
  have hpos : 0 < r.size := by
    rw [← Ring.length_contents]
    exact List.length_pos_iff.mpr hne
  exact Ring.contents_setHead hpos

/-- **A call** does to the contents what it does to the queue. -/
theorem rbufStep_eq (hle : r.contents.length ≤ SERIAL_RBUFSZ) (op : RbufOp) :
    (rbufStep r op).map (fun x => (x.1, x.2.contents)) = queueStep SERIAL_RBUFSZ r.contents op := by
  cases op with
  | put c =>
    simp only [rbufStep, queueStep]
    by_cases hfull : rbufFull r = true
    · have hlen := rbufFull_iff.mp hfull
      rw [if_pos hfull, if_neg (by omega)]
      rfl
    · have hlen : r.contents.length < SERIAL_RBUFSZ :=
        Nat.lt_of_le_of_ne hle (mt rbufFull_iff.mpr hfull)
      rw [if_neg hfull, if_pos hlen, Option.map_some, contents_rbufPut hlen]
  | get =>
    simp only [rbufStep]
    by_cases hempty : rbufEmpty r = true
    · rw [if_pos hempty, rbufEmpty_iff.mp hempty]
      rfl
    · have hne : r.contents ≠ [] := mt rbufEmpty_iff.mpr hempty
      rw [if_neg hempty, Option.map_some, contents_rbufGet hne]
      rfl

theorem length_queueStep {cap : Nat} {q q' : List UInt8} {op : RbufOp} {out : Option UInt8}
    (h : queueStep cap q op = some (out, q')) (hle : q.length ≤ cap) : q'.length ≤ cap := by
  cases op with
  | put c =>
    simp only [queueStep] at h
    split at h
    · obtain ⟨-, rfl⟩ := Prod.mk.inj (Option.some.inj h)
      rwa [List.length_append]
    · cases h
  | get =>
    cases q with
    | nil => cases h
    | cons c q =>
      obtain ⟨-, rfl⟩ := Prod.mk.inj (Option.some.inj h)
      exact Nat.le_of_succ_le hle

/-- Bytes leave a queue in the order in which they came. -/
theorem queueStep_fifo {cap : Nat} {q q' : List UInt8} {op : RbufOp} {out : Option UInt8}
    (h : queueStep cap q op = some (out, q')) : q ++ putBytes [op] = out.toList ++ q' := by
  cases op with
  | put c =>
    simp only [queueStep] at h
    split at h
    · obtain ⟨rfl, rfl⟩ := Prod.mk.inj (Option.some.inj h)
      rfl
    · cases h
  | get =>
    cases q with
    | nil => cases h
    | cons c q =>
      obtain ⟨rfl, rfl⟩ := Prod.mk.inj (Option.some.inj h)
      exact List.append_nil _

/-- A step of the buffer is one of the queue, and the contents stay within bounds. -/
theorem queueStep_of_rbufStep (hle : r.contents.length ≤ SERIAL_RBUFSZ) {op : RbufOp}
    {out : Option UInt8} {r' : Ringbuf} (h : rbufStep r op = some (out, r')) :
    queueStep SERIAL_RBUFSZ r.contents op = some (out, r'.contents) ∧
      r'.contents.length ≤ SERIAL_RBUFSZ := by
  have hstep := rbufStep_eq hle op
  rw [h, Option.map_some] at hstep
  exact ⟨hstep.symm, length_queueStep hstep.symm hle⟩

/-- **A run of the buffer** is a run of the queue. Induction on the calls; the bound on the contents
is what a step keeps. -/
theorem opsRun_eq (hle : r.contents.length ≤ SERIAL_RBUFSZ) (ops : List RbufOp) :
    (opsRun rbufStep r ops).map (fun x => (x.1, x.2.contents)) =
      opsRun (queueStep SERIAL_RBUFSZ) r.contents ops := by
  induction ops generalizing r with
  | nil => rfl
  | cons op ops ih =>
    unfold opsRun
    cases hstep : rbufStep r op with
    | none =>
      have hqueue := rbufStep_eq hle op
      rw [hstep] at hqueue
      rw [← hqueue]
      rfl
    | some x =>
      obtain ⟨hqueue, hle'⟩ := queueStep_of_rbufStep hle hstep
      rw [hqueue]
      dsimp only
      rw [← ih hle', Option.map_map, Option.map_map]
      rfl

theorem opsRun_bounds {ops : List RbufOp} {got : List UInt8} {r' : Ringbuf}
    (hle : r.contents.length ≤ SERIAL_RBUFSZ) (h : opsRun rbufStep r ops = some (got, r')) :
    r'.contents.length ≤ SERIAL_RBUFSZ ∧ r.contents ++ putBytes ops = got ++ r'.contents := by
  induction ops generalizing r got with
  | nil =>
    obtain ⟨rfl, rfl⟩ := Prod.mk.inj (Option.some.inj h)
    exact ⟨hle, List.append_nil _⟩
  | cons op ops ih =>
    unfold opsRun at h
    cases hstep : rbufStep r op with
    | none =>
      rw [hstep] at h
      cases h
    | some x =>
      rw [hstep] at h
      obtain ⟨⟨got', r''⟩, hrest, hx⟩ := Option.map_eq_some_iff.mp h
      obtain ⟨rfl, rfl⟩ := Prod.mk.inj hx
      obtain ⟨hqueue, hle'⟩ := queueStep_of_rbufStep hle hstep
      obtain ⟨hbound, hfifo⟩ := ih hle' hrest
      refine ⟨hbound, ?_⟩
      have hone := queueStep_fifo hqueue
      have hputs : putBytes (op :: ops) = putBytes [op] ++ putBytes ops :=
        List.filterMap_append (l := [op])
      rw [hputs, ← List.append_assoc, hone, List.append_assoc, hfifo, List.append_assoc]

/-- **The ring buffer is a bounded queue.** From `rbuf_init` on, however often the positions wrap
around, calls of `rbuf_put` and `rbuf_get` are those of a queue of at most `SERIAL_RBUFSZ` bytes: they
are possible when those of the queue are and get the same bytes. The buffer is empty when the queue
is, it is full when the queue has `SERIAL_RBUFSZ` bytes, and what was put is what was got and what is
in the queue. -/
theorem ring_buffer_is_queue (r : Ringbuf) (ops : List RbufOp) :
    (opsRun rbufStep (rbufInit r) ops).map (fun x => (x.1, x.2.contents)) =
      opsRun (queueStep SERIAL_RBUFSZ) [] ops ∧
    ∀ got r', opsRun rbufStep (rbufInit r) ops = some (got, r') →
      (rbufEmpty r' = true ↔ r'.contents = []) ∧
      (rbufFull r' = true ↔ r'.contents.length = SERIAL_RBUFSZ) ∧
      r'.contents.length ≤ SERIAL_RBUFSZ ∧ putBytes ops = got ++ r'.contents := by
  have hinit : (rbufInit r).contents = [] := Ring.contents_eq_nil.mpr rfl
  have hle : (rbufInit r).contents.length ≤ SERIAL_RBUFSZ := by
    rw [hinit]
    exact Nat.zero_le _
  refine ⟨?_, fun got r' hrun => ?_⟩
  · rw [opsRun_eq hle, hinit]
  · obtain ⟨hbound, hfifo⟩ := opsRun_bounds hle hrun
    rw [hinit] at hfifo
    exact ⟨rbufEmpty_iff, rbufFull_iff, hbound, hfifo⟩

/-- Two bytes are put and one is got. -/
theorem ring_buffer_is_queue_two : ∃ got r',
    opsRun rbufStep (rbufInit ⟨7, 9, fun _ => 0⟩) [.put 1, .put 2, .get] = some (got, r') ∧
      [1, 2] = got ++ r'.contents := by
  obtain ⟨x, hx⟩ : ∃ x, opsRun rbufStep (rbufInit ⟨7, 9, fun _ => 0⟩) [.put 1, .put 2, .get] = some x :=
    ⟨_, rfl⟩
  exact ⟨x.1, x.2, hx, ((ring_buffer_is_queue _ _).2 x.1 x.2 hx).2.2.2⟩

end Uart

end RiscvKernel
