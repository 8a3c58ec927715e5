import RiscvKernel.Io.Uart
import RiscvKernel.Lib.Runs

/-!
# The serial port loses nothing and strands nobody

Every run of a port, from `uart_open` on: calls of `uart_read` and `uart_write` by any
threads, with interrupts of the port between any two steps while they are enabled.

* `RxInv`, `TxInv`: the invariants of the two directions. The receive interrupt is enabled
  unless there is something to read or a thread is about to enable it, and waiting readers
  mean an empty buffer; the transmit side is the same with "to send" and "full".
* `exec_rxInv`, `exec_txInv` for the steps of the code, `uartIsr_inv` for the interrupts and `step_inv`
  for all steps: they are kept.
* `port_lossless`: what holds in every state of a run.
-/

namespace RiscvKernel

open Lib

namespace Uart

/-! ## The interrupt enable register -/

/-- The interrupt with this bit in `ier` is enabled. -/
def Enabled (m ier : BitVec 8) : Prop := ier &&& m ≠ 0

/-- What sets a bit enables its interrupt. -/
theorem enabled_or_self {m : BitVec 8} (hm : m ≠ 0) (v : BitVec 8) : Enabled m (v ||| m) := by
  have hor : (v ||| m) &&& m = m := by
    ext i hi
    rw [BitVec.getElem_and, BitVec.getElem_or]
    cases v[i] <;> cases m[i] <;> rfl
  unfold Enabled
  rwa [hor]

variable {m m' : BitVec 8}

theorem getElem_of_disjoint (h : m' &&& m = 0) {i : Nat} (hi : i < 8) : (m'[i] && m[i]) = false := by
  rw [← BitVec.getElem_and, h]
  exact BitVec.getElem_zero hi

/-- Setting another bit changes nothing. -/
theorem enabled_or (h : m' &&& m = 0) (v : BitVec 8) : Enabled m (v ||| m') ↔ Enabled m v := by
  have hor : (v ||| m') &&& m = v &&& m := by
    ext i hi
    have := getElem_of_disjoint h hi
    rw [BitVec.getElem_and, BitVec.getElem_and, BitVec.getElem_or, Bool.and_or_distrib_right, this,
      Bool.or_false]
  unfold Enabled
  rw [hor]

/-- Clearing another bit changes nothing. -/
theorem enabled_and_not (h : m' &&& m = 0) (v : BitVec 8) :
    Enabled m (v &&& ~~~m') ↔ Enabled m v := by
  have hnot : ~~~m' &&& m = m := by
    ext i hi
    have := getElem_of_disjoint h hi
    rw [BitVec.getElem_and, BitVec.getElem_not]
    revert this
    cases m'[i] <;> cases m[i] <;> decide
  unfold Enabled
  rw [BitVec.and_assoc, hnot]

/-! ## The invariants -/

/-- Where a thread can be without the processor. -/
def Pc.Parked : Pc → Prop
  | .outside => True
  | .readWait _ => True
  | .writeWait _ _ => True
  | _ => False

/-- In the second half of `uart_read`. -/
def Pc.Copying : Pc → Prop
  | .readLoop _ _ => True
  | .readFetch _ _ _ => True
  | .readAdvance _ _ _ _ => True
  | .readIer _ => True
  | .readSetIer _ _ => True
  | _ => False

/-- In the second half of the loop of `uart_write`. -/
def Pc.Putting : Pc → Prop
  | .writeLoop _ _ => True
  | .writeStore _ _ _ _ => True
  | .writeAdvance _ _ _ _ => True
  | .writeIer _ _ => True
  | .writeSetIer _ _ _ => True
  | _ => False

/-- What a call of `uart_read` has read so far. -/
def Pc.got : Pc → Bytes
  | .readLoop _ got => got
  | .readFetch _ got _ => got
  | .readAdvance _ got _ _ => got
  | .readIer got => got
  | .readSetIer got _ => got
  | _ => []

/-- What a call of `uart_write` has written so far. -/
def Pc.put : Pc → Bytes
  | .writeTop buf p => buf.take p
  | .writeTest buf p => buf.take p
  | .writeBlock buf p => buf.take p
  | .writeWait buf p => buf.take p
  | .writeLoop buf p => buf.take p
  | .writeStore buf p _ _ => buf.take p
  | .writeAdvance buf p _ _ => buf.take p
  | .writeIer buf p => buf.take p
  | .writeSetIer buf p _ => buf.take p
  | _ => []

theorem Pc.got_of_not_copying {pc : Pc} (h : ¬pc.Copying) : pc.got = [] := by
  cases pc <;> first | rfl | exact absurd trivial h

theorem Pc.Parked.not_copying {pc : Pc} (h : pc.Parked) : ¬pc.Copying := by
  cases pc <;> first | exact id | exact absurd h id

theorem Pc.Parked.not_putting {pc : Pc} (h : pc.Parked) : ¬pc.Putting := by
  cases pc <;> first | exact id | exact absurd h id

namespace Port

/-- Where the processor is. -/
def here (s : Port) : Pc :=
  match s.q.running with
  | some t => s.pc t
  | none => .outside

/-- What the running thread knows about the receive side. -/
def RxLocal (s : Port) : Pc → Prop
  | .readTest _ => s.intr = false
  | .readBlock _ => s.intr = false ∧ s.dev.rxbuf.size = 0
  | .readLoop _ _ => s.q.waiting .rxbnotempty = []
  | .readFetch _ _ hpos =>
    s.q.waiting .rxbnotempty = [] ∧ hpos = s.dev.rxbuf.hpos ∧ 0 < s.dev.rxbuf.size
  | .readAdvance _ _ hpos c =>
    s.q.waiting .rxbnotempty = [] ∧ hpos = s.dev.rxbuf.hpos ∧ 0 < s.dev.rxbuf.size ∧
      c = s.dev.rxbuf.data (Ring.slot hpos)
  | .readIer _ => s.q.waiting .rxbnotempty = []
  | .readSetIer _ _ => s.q.waiting .rxbnotempty = []
  | .writeSetIer _ _ ier => Enabled IER_DREIE s.dev.ier → Enabled IER_DREIE ier
  | _ => True

/-- What the running thread knows about the transmit side. -/
def TxLocal (s : Port) : Pc → Prop
  | .writeTest _ _ => s.intr = false
  | .writeBlock _ _ => s.intr = false ∧ s.dev.txbuf.size = SERIAL_RBUFSZ
  | .writeLoop _ _ => s.q.waiting .txbnotfull = []
  | .writeStore buf p tpos c =>
    s.q.waiting .txbnotfull = [] ∧ tpos = s.dev.txbuf.tpos ∧ s.dev.txbuf.size < SERIAL_RBUFSZ ∧
      buf[p]? = some c
  | .writeAdvance buf p tpos c =>
    s.q.waiting .txbnotfull = [] ∧ tpos = s.dev.txbuf.tpos ∧ s.dev.txbuf.size < SERIAL_RBUFSZ ∧
      buf[p]? = some c ∧ s.dev.txbuf.data (Ring.slot tpos) = c
  | .writeIer _ _ => s.q.waiting .txbnotfull = []
  | .writeSetIer _ _ _ => s.q.waiting .txbnotfull = []
  | .readSetIer _ ier => Enabled IER_THREIE s.dev.ier → Enabled IER_THREIE ier
  | _ => True

/-- Threads without the processor are parked. -/
def OthersParked (s : Port) : Prop := ∀ t, s.q.running ≠ some t → (s.pc t).Parked

/-- The bytes that `uart_read` calls returned, in the order in which they returned. -/
def returned (s : Port) : Bytes := (s.reads.map (·.2)).flatten

/-- The invariant of the receive side. -/
structure RxInv (s : Port) : Prop where
  size : s.dev.rxbuf.size ≤ SERIAL_RBUFSZ
  loc : s.RxLocal s.here
  readers : s.q.waiting .rxbnotempty ≠ [] →
    s.dev.rxbuf.size = 0 ∧ Enabled IER_DREIE s.dev.ier
  enabled : Enabled IER_DREIE s.dev.ier ∨ 0 < s.dev.rxbuf.size ∨ s.here.Copying
  received : s.taken = s.returned ++ s.here.got ++ s.dev.rxbuf.contents

/-- The bytes of `t` in a log. -/
def bytesOf (t : Nat) (l : List (Nat × UInt8)) : Bytes := (l.filter fun e => e.1 = t).map (·.2)

/-- The bytes of all calls of `t` in a log. -/
def callsOf (t : Nat) (l : List (Nat × Bytes)) : Bytes :=
  ((l.filter fun e => e.1 = t).map (·.2)).flatten

/-- The invariant of the transmit side. -/
structure TxInv (s : Port) : Prop where
  size : s.dev.txbuf.size ≤ SERIAL_RBUFSZ
  loc : s.TxLocal s.here
  writers : s.q.waiting .txbnotfull ≠ [] →
    s.dev.txbuf.size = SERIAL_RBUFSZ ∧ Enabled IER_THREIE s.dev.ier
  enabled : Enabled IER_THREIE s.dev.ier ∨ s.dev.txbuf.size = 0 ∨ s.here.Putting
  sent : s.accepted.map (·.2) = s.sent ++ s.dev.txbuf.contents
  writer : ∀ t, bytesOf t s.accepted = callsOf t s.writes ++ (s.pc t).put

variable {s s' : Port} {t : Nat}

theorem here_of_running (h : s.q.running = some t) : s.here = s.pc t := by
  unfold here
  rw [h]

/-- Where the processor is after a jump of the running thread. -/
theorem here_goto (h : s.q.running = some t) (pc : Pc) : (s.goto t pc).here = pc := by
  rw [here_of_running (s := s.goto t pc) h]
  exact Function.update_self ..

theorem here_parked (h : ∀ t, (s.pc t).Parked) : s.here.Parked := by
  unfold here
  split
  · exact h _
  · trivial

theorem rxLocal_of_parked {pc : Pc} (h : pc.Parked) : s.RxLocal pc := by
  cases pc <;> trivial

theorem txLocal_of_parked {pc : Pc} (h : pc.Parked) : s.TxLocal pc := by
  cases pc <;> trivial

/-! ## Steps that leave a side alone -/

/-- A step keeps the invariant of the receive side if it touches neither the buffer nor the
logs, disables nothing, and the processor goes to a place that knows as much. -/
theorem RxInv.move {pc pc' : Pc} (h : s.RxInv) (hpc : s.here = pc) (hpc' : s'.here = pc')
    (hbuf : s'.dev.rxbuf = s.dev.rxbuf)
    (hier : Enabled IER_DREIE s.dev.ier → Enabled IER_DREIE s'.dev.ier)
    (hwait : s'.q.waiting .rxbnotempty = s.q.waiting .rxbnotempty)
    (htaken : s'.taken = s.taken) (hreturned : s'.returned = s.returned)
    (hcopying : pc.Copying → pc'.Copying) (hgot : pc'.got = pc.got) (hloc : s'.RxLocal pc') :
    s'.RxInv where
  size := by
    rw [hbuf]
    exact h.size
  loc := by
    rw [hpc']
    exact hloc
  readers := by
    rw [hbuf, hwait]
    exact fun hw => ⟨(h.readers hw).1, hier (h.readers hw).2⟩
  enabled := by
    rw [hbuf, hpc']
    have := h.enabled
    rw [hpc] at this
    exact this.imp hier (Or.imp_right hcopying)
  received := by
    rw [htaken, hreturned, hpc', hgot, hbuf, ← hpc]
    exact h.received

theorem TxInv.move {pc pc' : Pc} (h : s.TxInv) (hpc : s.here = pc) (hpc' : s'.here = pc')
    (hbuf : s'.dev.txbuf = s.dev.txbuf)
    (hier : Enabled IER_THREIE s.dev.ier → Enabled IER_THREIE s'.dev.ier)
    (hwait : s'.q.waiting .txbnotfull = s.q.waiting .txbnotfull)
    (hsent : s'.sent = s.sent) (haccepted : s'.accepted = s.accepted) (hwrites : s'.writes = s.writes)
    (hputting : pc.Putting → pc'.Putting) (hput : ∀ t, (s'.pc t).put = (s.pc t).put)
    (hloc : s'.TxLocal pc') : s'.TxInv where
  size := by
    rw [hbuf]
    exact h.size
  loc := by
    rw [hpc']
    exact hloc
  writers := by
    rw [hbuf, hwait]
    exact fun hw => ⟨(h.writers hw).1, hier (h.writers hw).2⟩
  enabled := by
    rw [hbuf, hpc']
    have := h.enabled
    rw [hpc] at this
    exact this.imp hier (Or.imp_right hputting)
  sent := by
    rw [haccepted, hsent, hbuf]
    exact h.sent
  writer u := by
    rw [haccepted, hwrites, hput]
    exact h.writer u

theorem put_goto {pc : Pc} (h : pc.put = (s.pc t).put) (u : Nat) :
    ((s.goto t pc).pc u).put = (s.pc u).put := by
  show (Function.update s.pc t pc u).put = _
  rw [Function.update_apply]
  split
  · next hu => rw [hu, h]
  · rfl

/-- The invariant. -/
structure Inv (s : Port) : Prop where
  others : s.OthersParked
  rx : s.RxInv
  tx : s.TxInv

/-- When the running thread is parked, all threads are. -/
theorem OthersParked.all (h : s.OthersParked) (hhere : s.here.Parked) (t : Nat) :
    (s.pc t).Parked := by
  by_cases ht : s.q.running = some t
  · rw [here_of_running ht] at hhere
    exact hhere
  · exact h t ht

/-- Another thread gets the processor, outside of the driver: everything is as before. -/
theorem Inv.switch (h : s.Inv) (hhere : s.here.Parked) {q : Queues Cond Nat} {b : Bool}
    (hwait : q.waiting = s.q.waiting) : ({ s with q := q, intr := b } : Port).Inv := by
  have hall : ∀ t, (s.pc t).Parked := h.others.all hhere
  have hhere' : ({ s with q := q, intr := b } : Port).here.Parked :=
    here_parked (s := { s with q := q, intr := b }) hall
  refine ⟨fun t _ => hall t, ?_, ?_⟩
  · refine h.rx.move rfl rfl rfl id (congrFun hwait _) rfl rfl
      (fun hc => absurd hc hhere.not_copying) ?_ (rxLocal_of_parked hhere')
    rw [Pc.got_of_not_copying hhere'.not_copying, Pc.got_of_not_copying hhere.not_copying]
  · exact h.tx.move rfl rfl rfl id (congrFun hwait _) rfl rfl rfl
      (fun hp => absurd hp hhere.not_putting) (fun _ => rfl) (txLocal_of_parked hhere')

/-! ## The steps of a thread -/

/-- When the running thread waits, all threads are parked. -/
theorem OthersParked.wait (h : s.OthersParked) (hrun : s.q.running = some t) {pc : Pc}
    (hpc : pc.Parked) (u : Nat) : ((s.goto t pc).pc u).Parked := by
  show (Function.update s.pc t pc u).Parked
  rw [Function.update_apply]
  split
  · exact hpc
  · next hu =>
    refine h u fun hr => hu ?_
    exact Option.some.inj (hr.symm.trans hrun)

theorem RxInv.readBlock (h : s.Inv) (hrun : s.q.running = some t) {bufsz : Nat}
    (hhere : s.here = .readBlock bufsz) :
    ((s.goto t (.readWait bufsz)).conditionWait t .rxbnotempty).RxInv := by
  have hparked : ((s.goto t (.readWait bufsz)).conditionWait t .rxbnotempty).here.Parked :=
    here_parked (h.others.wait hrun trivial)
  have hloc := h.rx.loc
  have henabled := h.rx.enabled
  have hreceived := h.rx.received
  rw [hhere] at hloc henabled hreceived
  have hon : Enabled IER_DREIE s.dev.ier :=
    henabled.resolve_right (not_or_intro (by rw [hloc.2]; decide) id)
  refine ⟨h.rx.size, rxLocal_of_parked hparked, fun _ => ⟨hloc.2, hon⟩, Or.inl hon, ?_⟩
  rw [Pc.got_of_not_copying hparked.not_copying]
  exact hreceived

/-- `rbuf_get` in `uart_read`: the byte goes from the buffer to what has been read. -/
theorem RxInv.readAdvance (h : s.RxInv) (hrun : s.q.running = some t) {bufsz : Nat} {got : Bytes}
    {hpos : BitVec 16} {c : UInt8} (hhere : s.here = .readAdvance bufsz got hpos c) :
    ((s.goto t (.readLoop bufsz (got ++ [c]))).setRxbuf
      (s.dev.rxbuf.setHead (hpos + 1#16))).RxInv := by
  have hreceived := h.received
  have hloc := h.loc
  rw [hhere] at hloc hreceived
  obtain ⟨hwait, rfl, hsize, rfl⟩ := hloc
  have hhere' : ((s.goto t (.readLoop bufsz (got ++ [s.dev.rxbuf.data (Ring.slot s.dev.rxbuf.hpos)]))).setRxbuf
      (s.dev.rxbuf.setHead (s.dev.rxbuf.hpos + 1#16))).here = _ := here_goto hrun _
  constructor
  · have := Ring.size_setHead hsize
    have := h.size
    show (s.dev.rxbuf.setHead (s.dev.rxbuf.hpos + 1#16)).size ≤ _
    omega
  · rw [hhere']
    exact hwait
  · exact fun hw => absurd hwait hw
  · rw [hhere']
    exact Or.inr (Or.inr trivial)
  · rw [hhere']
    show s.taken = s.returned ++ (got ++ [_]) ++ (s.dev.rxbuf.setHead (s.dev.rxbuf.hpos + 1#16)).contents
    rw [hreceived, Ring.contents_setHead hsize]
    simp [Pc.got]

/-- `uart_read` returns. -/
theorem RxInv.readSetIer (h : s.RxInv) (hrun : s.q.running = some t) {got : Bytes}
    {ier : BitVec 8} (hhere : s.here = .readSetIer got ier) :
    ({ (s.goto t .outside).setIer (ier ||| IER_DREIE) with
      reads := s.reads ++ [(t, got)] } : Port).RxInv := by
  have hreceived := h.received
  have hloc := h.loc
  rw [hhere] at hloc hreceived
  have hhere' : ({ (s.goto t .outside).setIer (ier ||| IER_DREIE) with
      reads := s.reads ++ [(t, got)] } : Port).here = _ := here_goto hrun _
  have hon := enabled_or_self (m := IER_DREIE) (by decide) ier
  refine ⟨h.size, ?_, fun hw => absurd hloc hw, Or.inl hon, ?_⟩
  · rw [hhere']
    trivial
  · rw [hhere']
    show s.taken = ((s.reads ++ [(t, got)]).map (·.2)).flatten ++ [] ++ s.dev.rxbuf.contents
    rw [hreceived]
    simp [Pc.got, returned]

theorem exec_rxInv (h : s.Inv) (hrun : s.q.running = some t)
    (hexec : s.exec t (s.pc t) = some s') : s'.RxInv := by
  have hhere := here_of_running hrun
  have hloc := h.rx.loc
  rw [hhere] at hloc
  cases hpc : s.pc t with
  | outside =>
    rw [hpc] at hexec
    cases hexec
  | readTest bufsz =>
    rw [hpc] at hexec hloc hhere
    simp only [exec] at hexec
    split at hexec
    · next hempty =>
      obtain rfl := Option.some.inj hexec
      exact h.rx.move hhere (here_goto hrun _) rfl id rfl rfl rfl nofun rfl
        ⟨hloc, Ring.size_eq_zero.mpr (of_decide_eq_true hempty)⟩
    · next hne =>
      obtain rfl := Option.some.inj hexec
      refine h.rx.move hhere (here_goto hrun _) rfl id rfl rfl rfl nofun rfl ?_
      -- there is something to read, so no reader waits
      by_contra hwait
      exact hne (decide_eq_true (Ring.size_eq_zero.mp (h.rx.readers hwait).1))
  | readBlock bufsz =>
    rw [hpc] at hexec hhere
    obtain rfl := Option.some.inj hexec
    exact RxInv.readBlock h hrun hhere
  | readWait bufsz =>
    rw [hpc] at hexec hhere
    obtain rfl := Option.some.inj hexec
    exact h.rx.move hhere (here_goto hrun _) rfl id rfl rfl rfl nofun rfl rfl
  | readLoop bufsz got =>
    rw [hpc] at hexec hloc hhere
    simp only [exec] at hexec
    split at hexec
    · next hcond =>
      obtain rfl := Option.some.inj hexec
      have hsize : s.dev.rxbuf.size ≠ 0 := fun h0 =>
        absurd (Ring.size_eq_zero.mp h0) (of_decide_eq_false hcond.1)
      exact h.rx.move hhere (here_goto hrun _) rfl id rfl rfl rfl id rfl
        ⟨hloc, rfl, Nat.pos_of_ne_zero hsize⟩
    · obtain rfl := Option.some.inj hexec
      exact h.rx.move hhere (here_goto hrun _) rfl id rfl rfl rfl id rfl hloc
  | readFetch bufsz got hpos =>
    rw [hpc] at hexec hloc hhere
    obtain rfl := Option.some.inj hexec
    exact h.rx.move hhere (here_goto hrun _) rfl id rfl rfl rfl id rfl
      ⟨hloc.1, hloc.2.1, hloc.2.2, rfl⟩
  | readAdvance bufsz got hpos c =>
    rw [hpc] at hexec hhere
    obtain rfl := Option.some.inj hexec
    exact h.rx.readAdvance hrun hhere
  | readIer got =>
    rw [hpc] at hexec hloc hhere
    obtain rfl := Option.some.inj hexec
    exact h.rx.move hhere (here_goto hrun _) rfl id rfl rfl rfl id rfl hloc
  | readSetIer got ier =>
    rw [hpc] at hexec hhere
    obtain rfl := Option.some.inj hexec
    exact h.rx.readSetIer hrun hhere
  | writeTop buf p | writeTest buf p | writeLoop buf p =>
    rw [hpc] at hexec hhere
    simp only [exec] at hexec
    split at hexec
    all_goals
      obtain rfl := Option.some.inj hexec
      exact h.rx.move hhere (here_goto hrun _) rfl id rfl rfl rfl nofun rfl trivial
  | writeWait buf p | writeStore buf p tpos c | writeAdvance buf p tpos c =>
    rw [hpc] at hexec hhere
    obtain rfl := Option.some.inj hexec
    exact h.rx.move hhere (here_goto hrun _) rfl id rfl rfl rfl nofun rfl trivial
  | writeBlock buf p =>
    rw [hpc] at hexec hhere
    obtain rfl := Option.some.inj hexec
    have hparked : ((s.goto t (.writeWait buf p)).conditionWait t .txbnotfull).here.Parked :=
      here_parked (h.others.wait hrun trivial)
    refine h.rx.move hhere rfl rfl id ?_ rfl rfl nofun (Pc.got_of_not_copying hparked.not_copying)
      (rxLocal_of_parked hparked)
    show (s.q.block .txbnotfull t).waiting .rxbnotempty = _
    rw [Queues.block_waiting]
    rfl
  | writeIer buf p =>
    rw [hpc] at hexec hhere
    obtain rfl := Option.some.inj hexec
    exact h.rx.move hhere (here_goto hrun _) rfl id rfl rfl rfl nofun rfl id
  | writeSetIer buf p ier =>
    rw [hpc] at hexec hhere hloc
    obtain rfl := Option.some.inj hexec
    -- what the thread loaded had receive interrupts enabled if they are enabled now
    exact h.rx.move hhere (here_goto hrun _) rfl
      (fun he => (enabled_or (by decide) ier).mpr (hloc he)) rfl rfl rfl nofun rfl trivial

theorem TxInv.writeBlock (h : s.Inv) (hrun : s.q.running = some t) {buf : Bytes} {p : Nat}
    (hhere : s.here = .writeBlock buf p) :
    ((s.goto t (.writeWait buf p)).conditionWait t .txbnotfull).TxInv := by
  have hparked : ((s.goto t (.writeWait buf p)).conditionWait t .txbnotfull).here.Parked :=
    here_parked (h.others.wait hrun trivial)
  have hloc := h.tx.loc
  have henabled := h.tx.enabled
  rw [hhere] at hloc henabled
  have hon : Enabled IER_THREIE s.dev.ier :=
    henabled.resolve_right (not_or_intro (by rw [hloc.2]; decide) id)
  refine ⟨h.tx.size, txLocal_of_parked hparked, fun _ => ⟨hloc.2, hon⟩, Or.inl hon, h.tx.sent,
    fun u => ?_⟩
  rw [here_of_running hrun] at hhere
  exact (h.tx.writer u).trans (congrArg _ (put_goto (by rw [hhere]; rfl) u).symm)

/-- The array access of `rbuf_put` in `uart_write`: nothing is in the buffer yet. -/
theorem TxInv.writeStore (h : s.TxInv) (hrun : s.q.running = some t) {buf : Bytes} {p : Nat}
    {tpos : BitVec 16} {c : UInt8} (hhere : s.here = .writeStore buf p tpos c) :
    ((s.goto t (.writeAdvance buf p tpos c)).setTxbuf (s.dev.txbuf.store tpos c)).TxInv := by
  have hloc := h.loc
  rw [hhere] at hloc
  obtain ⟨hwait, rfl, hsize, hc⟩ := hloc
  have hhere' : ((s.goto t (.writeAdvance buf p s.dev.txbuf.tpos c)).setTxbuf
      (s.dev.txbuf.store s.dev.txbuf.tpos c)).here = _ := here_goto hrun _
  refine ⟨h.size, ?_, fun hw => absurd hwait hw, ?_, ?_, fun u => ?_⟩
  · rw [hhere']
    exact ⟨hwait, rfl, hsize, hc, Ring.data_store ..⟩
  · rw [hhere']
    exact Or.inr (Or.inr trivial)
  · show _ = s.sent ++ (s.dev.txbuf.store s.dev.txbuf.tpos c).contents
    rw [Ring.contents_store (by decide) hsize]
    exact h.sent
  · rw [here_of_running hrun] at hhere
    exact (h.writer u).trans (congrArg _ (put_goto (by rw [hhere]; rfl) u).symm)

theorem bytesOf_snoc (u : Nat) (l : List (Nat × UInt8)) (c : UInt8) :
    bytesOf u (l ++ [(t, c)]) = bytesOf u l ++ if t = u then [c] else [] := by
  unfold bytesOf
  split <;> simp [*]

theorem callsOf_snoc (u : Nat) (l : List (Nat × Bytes)) (buf : Bytes) :
    callsOf u (l ++ [(t, buf)]) = callsOf u l ++ if t = u then buf else [] := by
  unfold callsOf
  split <;> simp [*]

/-- `rbuf_put` in `uart_write`: the byte is in the buffer. -/
theorem TxInv.writeAdvance (h : s.TxInv) (hrun : s.q.running = some t) {buf : Bytes} {p : Nat}
    {tpos : BitVec 16} {c : UInt8} (hhere : s.here = .writeAdvance buf p tpos c) :
    ({ (s.goto t (.writeLoop buf (p + 1))).setTxbuf (s.dev.txbuf.setTail (tpos + 1#16)) with
      accepted := s.accepted ++ [(t, c)] } : Port).TxInv := by
  have hloc := h.loc
  rw [hhere] at hloc
  obtain ⟨hwait, rfl, hsize, hc, hdata⟩ := hloc
  have hhere' : ({ (s.goto t (.writeLoop buf (p + 1))).setTxbuf
      (s.dev.txbuf.setTail (s.dev.txbuf.tpos + 1#16)) with
      accepted := s.accepted ++ [(t, c)] } : Port).here = _ := here_goto hrun _
  have hfits : s.dev.txbuf.size + 1 < 2 ^ 16 := by
    have : SERIAL_RBUFSZ = 64 := rfl
    omega
  refine ⟨?_, ?_, fun hw => absurd hwait hw, ?_, ?_, fun u => ?_⟩
  · show (s.dev.txbuf.setTail (s.dev.txbuf.tpos + 1#16)).size ≤ _
    rw [Ring.size_setTail hfits]
    exact hsize
  · rw [hhere']
    exact hwait
  · rw [hhere']
    exact Or.inr (Or.inr trivial)
  · show (s.accepted ++ [(t, c)]).map (·.2) =
      s.sent ++ (s.dev.txbuf.setTail (s.dev.txbuf.tpos + 1#16)).contents
    rw [Ring.contents_setTail hfits, hdata, List.map_append, h.sent, List.append_assoc]
    rfl
  · rw [here_of_running hrun] at hhere
    show bytesOf u (s.accepted ++ [(t, c)]) =
      callsOf u s.writes ++ (Function.update s.pc t (.writeLoop buf (p + 1)) u).put
    rw [bytesOf_snoc, h.writer, Function.update_apply]
    split
    · next heq =>
      subst heq
      rw [if_pos rfl, hhere, List.append_assoc]
      show _ ++ (buf.take p ++ [c]) = _ ++ buf.take (p + 1)
      rw [List.take_add_one, hc]
      rfl
    · next hne => rw [if_neg (Ne.symm hne), List.append_nil]

/-- `uart_write` returns. -/
theorem TxInv.writeReturn (h : s.TxInv) (hrun : s.q.running = some t) {buf : Bytes} {p : Nat}
    (hhere : s.here = .writeTop buf p) (hp : buf.length ≤ p) :
    ({ s.goto t .outside with writes := s.writes ++ [(t, buf)] } : Port).TxInv := by
  have hhere' : ({ s.goto t .outside with writes := s.writes ++ [(t, buf)] } : Port).here = _ :=
    here_goto hrun _
  have henabled := h.enabled
  rw [hhere] at henabled
  refine ⟨h.size, ?_, h.writers, ?_, h.sent, fun u => ?_⟩
  · rw [hhere']
    trivial
  · rw [hhere']
    exact henabled
  · rw [here_of_running hrun] at hhere
    show bytesOf u s.accepted =
      callsOf u (s.writes ++ [(t, buf)]) ++ (Function.update s.pc t .outside u).put
    rw [callsOf_snoc, h.writer, Function.update_apply]
    split
    · next heq =>
      subst heq
      rw [if_pos rfl, hhere]
      show _ ++ buf.take p = _ ++ buf ++ []
      rw [List.take_of_length_le hp, List.append_nil]
    · next hne => rw [if_neg (Ne.symm hne), List.append_nil]

theorem exec_txInv (h : s.Inv) (hrun : s.q.running = some t)
    (hexec : s.exec t (s.pc t) = some s') : s'.TxInv := by
  have hhere := here_of_running hrun
  have hloc := h.tx.loc
  rw [hhere] at hloc
  cases hpc : s.pc t with
  | outside =>
    rw [hpc] at hexec
    cases hexec
  | readTest bufsz | readLoop bufsz got =>
    rw [hpc] at hexec hhere
    simp only [exec] at hexec
    split at hexec
    all_goals
      obtain rfl := Option.some.inj hexec
      exact h.tx.move hhere (here_goto hrun _) rfl id rfl rfl rfl rfl nofun
        (put_goto (by rw [hpc]; rfl)) trivial
  | readWait bufsz | readFetch bufsz got hpos | readAdvance bufsz got hpos c =>
    rw [hpc] at hexec hhere
    obtain rfl := Option.some.inj hexec
    exact h.tx.move hhere (here_goto hrun _) rfl id rfl rfl rfl rfl nofun
      (put_goto (by rw [hpc]; rfl)) trivial
  | readBlock bufsz =>
    rw [hpc] at hexec hhere
    obtain rfl := Option.some.inj hexec
    have hparked : ((s.goto t (.readWait bufsz)).conditionWait t .rxbnotempty).here.Parked :=
      here_parked (h.others.wait hrun trivial)
    refine h.tx.move hhere rfl rfl id ?_ rfl rfl rfl nofun (put_goto (by rw [hpc]; rfl))
      (txLocal_of_parked hparked)
    show (s.q.block .rxbnotempty t).waiting .txbnotfull = _
    rw [Queues.block_waiting]
    rfl
  | readIer got =>
    rw [hpc] at hexec hhere
    obtain rfl := Option.some.inj hexec
    exact h.tx.move hhere (here_goto hrun _) rfl id rfl rfl rfl rfl nofun
      (put_goto (by rw [hpc]; rfl)) id
  | readSetIer got ier =>
    rw [hpc] at hexec hhere hloc
    obtain rfl := Option.some.inj hexec
    -- what the thread loaded had transmit interrupts enabled if they are enabled now
    exact h.tx.move hhere (here_goto hrun _) rfl
      (fun he => (enabled_or (by decide) ier).mpr (hloc he)) rfl rfl rfl rfl nofun
      (put_goto (by rw [hpc]; rfl)) trivial
  | writeTop buf p =>
    rw [hpc] at hexec hhere
    simp only [exec] at hexec
    split at hexec
    · obtain rfl := Option.some.inj hexec
      exact h.tx.move hhere (here_goto hrun _) rfl id rfl rfl rfl rfl nofun
        (put_goto (by rw [hpc]; rfl)) rfl
    · next hp =>
      obtain rfl := Option.some.inj hexec
      exact h.tx.writeReturn hrun hhere (Nat.le_of_not_lt hp)
  | writeTest buf p =>
    rw [hpc] at hexec hhere hloc
    simp only [exec] at hexec
    split at hexec
    · next hfull =>
      obtain rfl := Option.some.inj hexec
      exact h.tx.move hhere (here_goto hrun _) rfl id rfl rfl rfl rfl nofun
        (put_goto (by rw [hpc]; rfl)) ⟨hloc, of_decide_eq_true hfull⟩
    · next hroom =>
      obtain rfl := Option.some.inj hexec
      refine h.tx.move hhere (here_goto hrun _) rfl id rfl rfl rfl rfl nofun
        (put_goto (by rw [hpc]; rfl)) ?_
      -- there is room, so no writer waits
      by_contra hwait
      exact hroom (decide_eq_true (h.tx.writers hwait).1)
  | writeBlock buf p =>
    rw [hpc] at hexec hhere
    obtain rfl := Option.some.inj hexec
    exact TxInv.writeBlock h hrun hhere
  | writeWait buf p =>
    rw [hpc] at hexec hhere
    obtain rfl := Option.some.inj hexec
    exact h.tx.move hhere (here_goto hrun _) rfl id rfl rfl rfl rfl nofun
      (put_goto (by rw [hpc]; rfl)) rfl
  | writeLoop buf p =>
    rw [hpc] at hexec hhere hloc
    simp only [exec] at hexec
    split at hexec
    · next hcond =>
      obtain rfl := Option.some.inj hexec
      have hsize := of_decide_eq_false hcond.1
      exact h.tx.move hhere (here_goto hrun _) rfl id rfl rfl rfl rfl id
        (put_goto (by rw [hpc]; rfl))
        ⟨hloc, rfl, lt_of_le_of_ne h.tx.size hsize, List.getElem?_eq_getElem hcond.2⟩
    · obtain rfl := Option.some.inj hexec
      exact h.tx.move hhere (here_goto hrun _) rfl id rfl rfl rfl rfl id
        (put_goto (by rw [hpc]; rfl)) hloc
  | writeStore buf p tpos c =>
    rw [hpc] at hexec hhere
    obtain rfl := Option.some.inj hexec
    exact h.tx.writeStore hrun hhere
  | writeAdvance buf p tpos c =>
    rw [hpc] at hexec hhere
    obtain rfl := Option.some.inj hexec
    exact h.tx.writeAdvance hrun hhere
  | writeIer buf p =>
    rw [hpc] at hexec hhere hloc
    obtain rfl := Option.some.inj hexec
    exact h.tx.move hhere (here_goto hrun _) rfl id rfl rfl rfl rfl id
      (put_goto (by rw [hpc]; rfl)) hloc
  | writeSetIer buf p ier =>
    rw [hpc] at hexec hhere hloc
    obtain rfl := Option.some.inj hexec
    have hon := enabled_or_self (m := IER_THREIE) (by decide) ier
    have hhere' : ((s.goto t (.writeTop buf p)).setIer (ier ||| IER_THREIE)).here = _ :=
      here_goto hrun _
    refine ⟨h.tx.size, ?_, fun hw => absurd hloc hw, Or.inl hon, h.tx.sent, fun u => ?_⟩
    · rw [hhere']
      trivial
    · exact (h.tx.writer u).trans (congrArg _ (put_goto (by rw [hpc]; rfl) u).symm)

theorem exec_othersParked (h : s.OthersParked) (hrun : s.q.running = some t)
    (hexec : s.exec t (s.pc t) = some s') : s'.OthersParked := by
  -- a step either leaves the processor to `t`, or parks it
  have hstay : ∀ (pc : Pc) (s' : Port), s'.pc = Function.update s.pc t pc → s'.q.running = some t →
      s'.OthersParked := by
    intro pc s' hpc hrun' u hu
    have hne : u ≠ t := by
      rintro rfl
      exact hu hrun'
    rw [hpc, Function.update_of_ne hne]
    exact h u fun hr => hne (Option.some.inj (hr.symm.trans hrun))
  cases hpc : s.pc t with
  | outside =>
    rw [hpc] at hexec
    cases hexec
  | readBlock bufsz | writeBlock buf p =>
    rw [hpc] at hexec
    obtain rfl := Option.some.inj hexec
    refine fun u _ => h.wait hrun ?_ u
    trivial
  | readTest bufsz | readLoop bufsz got | writeTop buf p | writeTest buf p | writeLoop buf p =>
    rw [hpc] at hexec
    simp only [exec] at hexec
    split at hexec
    all_goals
      obtain rfl := Option.some.inj hexec
      exact hstay _ _ rfl hrun
  | _ =>
    rw [hpc] at hexec
    obtain rfl := Option.some.inj hexec
    exact hstay _ _ rfl hrun

/-! ## The interrupt handler -/

theorem RxLocal.congr {pc : Pc} (h : s.RxLocal pc) (hbuf : s'.dev.rxbuf = s.dev.rxbuf)
    (hier : Enabled IER_DREIE s'.dev.ier → Enabled IER_DREIE s.dev.ier)
    (hwait : s'.q.waiting .rxbnotempty = s.q.waiting .rxbnotempty) (hintr : s'.intr = s.intr) :
    s'.RxLocal pc := by
  unfold RxLocal at h ⊢
  rw [hbuf, hwait, hintr]
  cases pc with
  | writeSetIer buf p ier => exact fun he => h (hier he)
  | _ => exact h

theorem TxLocal.congr {pc : Pc} (h : s.TxLocal pc) (hbuf : s'.dev.txbuf = s.dev.txbuf)
    (hier : Enabled IER_THREIE s'.dev.ier → Enabled IER_THREIE s.dev.ier)
    (hwait : s'.q.waiting .txbnotfull = s.q.waiting .txbnotfull) (hintr : s'.intr = s.intr) :
    s'.TxLocal pc := by
  unfold TxLocal at h ⊢
  rw [hbuf, hwait, hintr]
  cases pc with
  | readSetIer got ier => exact fun he => h (hier he)
  | _ => exact h

/-- Clearing bits enables nothing. -/
theorem enabled_of_and {m v w : BitVec 8} (h : Enabled m (v &&& w)) : Enabled m v := by
  intro hv
  apply h
  rw [BitVec.and_assoc, BitVec.and_comm w, ← BitVec.and_assoc, hv]
  exact BitVec.zero_and

/-- The handler takes a byte into a buffer with room, after which nobody waits for one. -/
theorem RxInv.put (h : s.RxInv) (hintr : s.intr = true) (hroom : s.dev.rxbuf.size < SERIAL_RBUFSZ)
    (rbr : UInt8) {q : Queues Cond Nat} (hrun : q.running = s.q.running)
    (hwait : q.waiting .rxbnotempty = []) :
    ({ s.setRxbuf (rbufPut s.dev.rxbuf rbr) with
      q := q, taken := s.taken ++ [rbr] } : Port).RxInv := by
  have hhere : ({ s.setRxbuf (rbufPut s.dev.rxbuf rbr) with
      q := q, taken := s.taken ++ [rbr] } : Port).here = s.here := by
    unfold here
    rw [hrun]
    rfl
  have hfits : (s.dev.rxbuf.store s.dev.rxbuf.tpos rbr).size + 1 < 2 ^ 16 := by
    have : SERIAL_RBUFSZ = 64 := rfl
    rw [Ring.size_store]
    omega
  have hsize : (rbufPut s.dev.rxbuf rbr).size = s.dev.rxbuf.size + 1 := Ring.size_setTail hfits
  have hcontents : (rbufPut s.dev.rxbuf rbr).contents = s.dev.rxbuf.contents ++ [rbr] := by
    refine (Ring.contents_setTail hfits).trans ?_
    rw [Ring.contents_store (by decide) hroom]
    exact congrArg (fun c => _ ++ [c]) (Ring.data_store ..)
  refine ⟨?_, ?_, fun hw => absurd hwait hw, ?_, ?_⟩
  · show (rbufPut s.dev.rxbuf rbr).size ≤ _
    rw [hsize]
    exact hroom
  · rw [hhere]
    have hloc := h.loc
    cases hpc : s.here with
    | readTest bufsz =>
      rw [hpc] at hloc
      exact absurd (hintr.symm.trans hloc) (by decide)
    | readBlock bufsz =>
      rw [hpc] at hloc
      exact absurd (hintr.symm.trans hloc.1) (by decide)
    | readLoop bufsz got | readIer got | readSetIer got ier => exact hwait
    | readFetch bufsz got hpos =>
      rw [hpc] at hloc
      exact ⟨hwait, hloc.2.1, Nat.lt_of_lt_of_eq (Nat.succ_pos _) hsize.symm⟩
    | readAdvance bufsz got hpos c =>
      rw [hpc] at hloc
      obtain ⟨-, rfl, hpos, rfl⟩ := hloc
      -- the byte goes behind the one that the reader has fetched
      exact ⟨hwait, rfl, Nat.lt_of_lt_of_eq (Nat.succ_pos _) hsize.symm,
        (Ring.data_store_head (by decide) hroom hpos rbr).symm⟩
    | writeSetIer buf p ier =>
      rw [hpc] at hloc
      exact hloc
    | _ => trivial
  · exact Or.inr (Or.inl (Nat.lt_of_lt_of_eq (Nat.succ_pos _) hsize.symm))
  · rw [hhere]
    show s.taken ++ [rbr] = s.returned ++ s.here.got ++ (rbufPut s.dev.rxbuf rbr).contents
    rw [hcontents, h.received, List.append_assoc]

theorem isrReceive_inv (h : s.Inv) (hintr : s.intr = true) (rbr : UInt8) :
    (s.isrReceive rbr).Inv := by
  unfold isrReceive
  split
  · next hroom =>
    have hroom : s.dev.rxbuf.size < SERIAL_RBUFSZ :=
      lt_of_le_of_ne h.rx.size (of_decide_eq_false hroom)
    split
    · -- the buffer was empty: the readers are woken
      refine ⟨h.others, ?_, ?_⟩
      · exact h.rx.put hintr hroom rbr (s.q.broadcast_running _) (s.q.broadcast_waiting_self _)
      · exact h.tx.move rfl rfl rfl id rfl rfl rfl rfl id (fun _ => rfl)
          (h.tx.loc.congr rfl id rfl rfl)
    · next hne =>
      refine ⟨h.others, ?_, ?_⟩
      · apply h.rx.put hintr hroom rbr rfl
        by_contra hwait
        exact hne (decide_eq_true (Ring.size_eq_zero.mp (h.rx.readers hwait).1))
      · exact h.tx.move rfl rfl rfl id rfl rfl rfl rfl id (fun _ => rfl)
          (h.tx.loc.congr rfl id rfl rfl)
  · next hfull =>
    have hpos : 0 < s.dev.rxbuf.size := by
      have hfull : s.dev.rxbuf.size = SERIAL_RBUFSZ :=
        of_decide_eq_true (Bool.eq_true_of_not_eq_false hfull)
      rw [hfull]
      decide
    refine ⟨h.others, ⟨h.rx.size, h.rx.loc.congr rfl enabled_of_and rfl rfl, fun hw => ?_,
      Or.inr (Or.inl hpos), h.rx.received⟩, ?_⟩
    · have := (h.rx.readers hw).1
      omega
    · exact h.tx.move rfl rfl rfl (fun he => (enabled_and_not (by decide) _).mpr he) rfl rfl rfl rfl
        id (fun _ => rfl) (h.tx.loc.congr rfl enabled_of_and rfl rfl)

/-- The handler sends a byte, after which nobody waits for room. -/
theorem TxInv.get (h : s.TxInv) (hintr : s.intr = true) (hpos : 0 < s.dev.txbuf.size)
    {q : Queues Cond Nat} (hrun : q.running = s.q.running)
    (hwait : q.waiting .txbnotfull = []) :
    ({ s.setTxbuf (rbufGet s.dev.txbuf).2 with
      q := q, sent := s.sent ++ [(rbufGet s.dev.txbuf).1] } : Port).TxInv := by
  have hhere : ({ s.setTxbuf (rbufGet s.dev.txbuf).2 with
      q := q, sent := s.sent ++ [(rbufGet s.dev.txbuf).1] } : Port).here = s.here := by
    unfold here
    rw [hrun]
    rfl
  have hsize : (rbufGet s.dev.txbuf).2.size + 1 = s.dev.txbuf.size := Ring.size_setHead hpos
  have hle := h.size
  have hroom : (rbufGet s.dev.txbuf).2.size < SERIAL_RBUFSZ := by omega
  refine ⟨hroom.le, ?_, fun hw => absurd hwait hw, ?_, ?_, h.writer⟩
  · rw [hhere]
    have hloc := h.loc
    cases hpc : s.here with
    | writeTest buf p =>
      rw [hpc] at hloc
      exact absurd (hintr.symm.trans hloc) (by decide)
    | writeBlock buf p =>
      rw [hpc] at hloc
      exact absurd (hintr.symm.trans hloc.1) (by decide)
    | writeLoop buf p | writeIer buf p | writeSetIer buf p ier => exact hwait
    | writeStore buf p tpos c =>
      rw [hpc] at hloc
      exact ⟨hwait, hloc.2.1, hroom, hloc.2.2.2⟩
    | writeAdvance buf p tpos c =>
      rw [hpc] at hloc
      exact ⟨hwait, hloc.2.1, hroom, hloc.2.2.2⟩
    | readSetIer got ier =>
      rw [hpc] at hloc
      exact hloc
    | _ => trivial
  · rw [hhere]
    have henabled := h.enabled
    rw [or_iff_right_of_imp (a := s.dev.txbuf.size = 0) (fun h0 => by omega)] at henabled
    exact henabled.imp_right Or.inr
  · show s.accepted.map (·.2) =
      s.sent ++ [(rbufGet s.dev.txbuf).1] ++ (rbufGet s.dev.txbuf).2.contents
    rw [h.sent, Ring.contents_setHead hpos, List.append_assoc]
    rfl

theorem isrTransmit_inv (h : s.Inv) (hintr : s.intr = true) : s.isrTransmit.Inv := by
  unfold isrTransmit
  split
  · next hne =>
    have hpos : 0 < s.dev.txbuf.size := Nat.pos_of_ne_zero fun h0 =>
      absurd (Ring.size_eq_zero.mp h0) (of_decide_eq_false hne)
    split
    · -- the buffer was full: the writers are woken
      refine ⟨h.others, ?_, ?_⟩
      · exact h.rx.move rfl rfl rfl id rfl rfl rfl id rfl (h.rx.loc.congr rfl id rfl rfl)
      · exact h.tx.get hintr hpos (s.q.broadcast_running _) (s.q.broadcast_waiting_self _)
    · next hroom =>
      refine ⟨h.others, ?_, ?_⟩
      · exact h.rx.move rfl rfl rfl id rfl rfl rfl id rfl (h.rx.loc.congr rfl id rfl rfl)
      · apply h.tx.get hintr hpos rfl
        by_contra hwait
        exact hroom (decide_eq_true (h.tx.writers hwait).1)
  · next hempty =>
    have hzero : s.dev.txbuf.size = 0 :=
      Ring.size_eq_zero.mpr (of_decide_eq_true (Bool.eq_true_of_not_eq_false hempty))
    refine ⟨h.others, ?_, ⟨h.tx.size, h.tx.loc.congr rfl enabled_of_and rfl rfl, fun hw => ?_,
      Or.inr (Or.inl hzero), h.tx.sent, h.tx.writer⟩⟩
    · exact h.rx.move rfl rfl rfl (fun he => (enabled_and_not (by decide) _).mpr he) rfl rfl rfl id
        rfl (h.rx.loc.congr rfl enabled_of_and rfl rfl)
    · have := (h.tx.writers hw).1
      exact absurd (hzero.symm.trans this) (by decide)

theorem countOverrun_inv (h : s.Inv) : s.countOverrun.Inv :=
  ⟨h.others, h.rx.move rfl rfl rfl id rfl rfl rfl id rfl (h.rx.loc.congr rfl id rfl rfl),
    h.tx.move rfl rfl rfl id rfl rfl rfl rfl id (fun _ => rfl) (h.tx.loc.congr rfl id rfl rfl)⟩

/-- A part of the handler that runs under a condition. -/
theorem Inv.part {f : Port → Port} (hf : ∀ {s}, s.Inv → s.intr = true → (f s).Inv)
    (hintr : ∀ s, (f s).intr = s.intr) (c : Prop) [Decidable c] (h : s.Inv ∧ s.intr = true) :
    (if c then f s else s).Inv ∧ (if c then f s else s).intr = true := by
  split
  · exact ⟨hf h.1 h.2, (hintr s).trans h.2⟩
  · exact h

/-- The interrupt handler keeps the invariant. -/
theorem uartIsr_inv (h : s.Inv) (hintr : s.intr = true) (lsr : BitVec 8) (rbr : UInt8) :
    (s.uartIsr lsr rbr).Inv := by
  have h₁ := Inv.part (fun h _ => countOverrun_inv h) (fun _ => rfl) (lsr &&& LSR_OE ≠ 0) ⟨h, hintr⟩
  have h₂ := Inv.part (fun h hi => isrReceive_inv h hi rbr)
    (fun s => by unfold isrReceive; split <;> rfl) (lsr &&& LSR_DR ≠ 0) h₁
  have h₃ := Inv.part (fun h hi => isrTransmit_inv h hi)
    (fun s => by unfold isrTransmit; split <;> rfl) (lsr &&& LSR_THRE ≠ 0) h₂
  exact h₃.1

/-! ## Runs -/

theorem caller_eq_some (h : s.caller = some t) : s.q.running = some t ∧ s.pc t = .outside := by
  obtain ⟨hrun, hpc⟩ := Option.filter_eq_some_iff.mp h
  refine ⟨hrun, ?_⟩
  cases hp : s.pc t with
  | outside => rfl
  | _ =>
    rw [hp] at hpc
    cases hpc

theorem caller_parked (h : s.caller = some t) : s.here.Parked := by
  rw [here_of_running (caller_eq_some h).1, (caller_eq_some h).2]
  trivial

theorem idle_parked (h : s.q.running = none) : s.here.Parked := by
  unfold here
  rw [h]
  trivial

/-- A thread enters the driver. -/
theorem Inv.enter (h : s.Inv) (hcaller : s.caller = some t) {pc : Pc} {b : Bool}
    (hrx : ({ s.goto t pc with intr := b } : Port).RxLocal pc)
    (htx : ({ s.goto t pc with intr := b } : Port).TxLocal pc)
    (hgot : pc.got = []) (hput : pc.put = []) : ({ s.goto t pc with intr := b } : Port).Inv := by
  obtain ⟨hrun, hpc⟩ := caller_eq_some hcaller
  have hhere := here_of_running hrun
  rw [hpc] at hhere
  have hhere' : ({ s.goto t pc with intr := b } : Port).here = pc := here_goto hrun pc
  refine ⟨fun u hu => ?_, ?_, ?_⟩
  · have hne : u ≠ t := by
      rintro rfl
      exact hu hrun
    show (Function.update s.pc t pc u).Parked
    rw [Function.update_of_ne hne]
    exact h.others u fun hr => hne (Option.some.inj (hr.symm.trans hrun))
  · exact h.rx.move hhere hhere' rfl id rfl rfl rfl nofun hgot hrx
  · exact h.tx.move hhere hhere' rfl id rfl rfl rfl rfl nofun (put_goto (by rw [hpc, hput]; rfl)) htx

theorem uartRead_inv (h : s.Inv) (hcaller : s.caller = some t) (bufsz : Nat) :
    (s.uartRead t bufsz).Inv := by
  unfold uartRead
  dsimp only
  generalize (if longMax < bufsz then longMax else bufsz) = n
  split
  · -- a read of nothing returns at once
    refine ⟨h.others, h.rx.move rfl rfl rfl id rfl rfl ?_ id rfl (h.rx.loc.congr rfl id rfl rfl),
      h.tx.move rfl rfl rfl id rfl rfl rfl rfl id (fun _ => rfl) (h.tx.loc.congr rfl id rfl rfl)⟩
    show ((s.reads ++ [(t, ([] : Bytes))]).map (·.2)).flatten = s.returned
    simp [returned]
  · exact h.enter hcaller rfl trivial rfl rfl

theorem step_inv {e : Event} (h : s.Inv) (hstep : s.step e = some s') : s'.Inv := by
  cases e with
  | read bufsz =>
    obtain ⟨t, ht, rfl⟩ := Option.map_eq_some_iff.mp hstep
    exact uartRead_inv h ht bufsz
  | write buf =>
    obtain ⟨t, ht, rfl⟩ := Option.map_eq_some_iff.mp hstep
    exact h.enter ht trivial trivial rfl rfl
  | run =>
    obtain ⟨t, ht, hexec⟩ := Option.bind_eq_some_iff.mp hstep
    exact ⟨exec_othersParked h.others ht hexec, exec_rxInv h ht hexec, exec_txInv h ht hexec⟩
  | isr lsr rbr =>
    obtain ⟨hintr, hs⟩ := Option.ite_none_right_eq_some.mp hstep
    obtain rfl := Option.some.inj hs
    exact uartIsr_inv h hintr lsr rbr
  | intr b =>
    obtain ⟨hout, hs⟩ := Option.ite_none_right_eq_some.mp hstep
    obtain rfl := Option.some.inj hs
    have hparked : s.here.Parked := by
      rcases hout with hidle | hcaller
      · exact idle_parked hidle
      · obtain ⟨t, ht⟩ := Option.ne_none_iff_exists'.mp hcaller
        exact caller_parked ht
    exact h.switch hparked rfl
  | yield =>
    obtain ⟨t, ht, rfl⟩ := Option.map_eq_some_iff.mp hstep
    exact h.switch (caller_parked ht) (s.q.yield_waiting t)
  | leave =>
    obtain ⟨t, ht, rfl⟩ := Option.map_eq_some_iff.mp hstep
    exact h.switch (caller_parked ht) s.q.dispatch_waiting
  | wake t =>
    obtain ⟨-, hs⟩ := Option.ite_none_right_eq_some.mp hstep
    obtain rfl := Option.some.inj hs
    exact ⟨h.others, h.rx.move rfl rfl rfl id rfl rfl rfl id rfl (h.rx.loc.congr rfl id rfl rfl),
      h.tx.move rfl rfl rfl id rfl rfl rfl rfl id (fun _ => rfl) (h.tx.loc.congr rfl id rfl rfl)⟩
  | dispatch =>
    obtain ⟨hidle, hs⟩ := Option.ite_none_right_eq_some.mp hstep
    obtain rfl := Option.some.inj hs
    exact h.switch (idle_parked hidle) s.q.dispatch_waiting

theorem opened_inv {d : Device} (hopen : (uartOpen d).1 = 0) : (opened d).Inv := by
  have hdev : (opened d).dev = _ := congrArg Prod.snd (uartOpen_of_free (uartOpen_ok.mp hopen))
  have hsize : ∀ r : Ringbuf, (rbufInit r).size = 0 := fun r => Ring.size_eq_zero.mpr rfl
  have hcontents : ∀ r : Ringbuf, (rbufInit r).contents = [] := fun r => Ring.contents_eq_nil.mpr rfl
  refine ⟨fun _ _ => trivial, ⟨?_, trivial, fun h => absurd rfl h, Or.inl ?_, ?_⟩,
    ⟨?_, trivial, fun h => absurd rfl h, Or.inr (Or.inl ?_), ?_, fun _ => rfl⟩⟩
  · rw [hdev]
    exact (hsize d.rxbuf).le.trans (by decide)
  · rw [hdev]
    show IER_DREIE &&& IER_DREIE ≠ 0
    decide
  · rw [hdev, hcontents]
    rfl
  · rw [hdev]
    exact (hsize d.txbuf).le.trans (by decide)
  · rw [hdev]
    exact hsize d.txbuf
  · rw [hdev, hcontents]
    rfl

/-- No thread is in the driver, other than in `condition_wait`. So it is whenever a thread
gets or loses the processor. -/
def SwitchPoint (s : Port) : Prop := ∀ t, (s.pc t).Parked

/-- What holds of a port at all times. -/
structure Lossless (s : Port) : Prop where
  /-- What the handler took is what `uart_read` calls returned, what the running thread has
  read in a call that has not returned yet, and what is in the buffer. -/
  received : s.taken = s.returned ++ s.here.got ++ s.dev.rxbuf.contents
  /-- What `uart_write` calls have accepted is what the handler stored to `thr`, and what is in
  the buffer. -/
  sent : s.accepted.map (·.2) = s.sent ++ s.dev.txbuf.contents
  /-- The bytes accepted from a thread are those of its calls that have returned and the first
  bytes of the one that has not. -/
  writer : ∀ t, bytesOf t s.accepted = callsOf t s.writes ++ (s.pc t).put
  /-- A thread that waits to read has nothing to read, and receive interrupts are enabled. -/
  readers : ∀ t ∈ s.q.waiting .rxbnotempty,
    rbufEmpty s.dev.rxbuf = true ∧ Enabled IER_DREIE s.dev.ier
  /-- A thread that waits to write has no room, and transmit interrupts are enabled. -/
  writers : ∀ t ∈ s.q.waiting .txbnotfull,
    rbufFull s.dev.txbuf = true ∧ Enabled IER_THREIE s.dev.ier
  /-- At a switch point, nothing is in between. -/
  switched : s.SwitchPoint → s.taken = s.returned ++ s.dev.rxbuf.contents

theorem Inv.lossless (h : s.Inv) : s.Lossless where
  received := h.rx.received
  sent := h.tx.sent
  writer := h.tx.writer
  readers t ht := by
    obtain ⟨hsize, hon⟩ := h.rx.readers (List.ne_nil_of_mem ht)
    exact ⟨decide_eq_true (Ring.size_eq_zero.mp hsize), hon⟩
  writers t ht := by
    obtain ⟨hsize, hon⟩ := h.tx.writers (List.ne_nil_of_mem ht)
    exact ⟨decide_eq_true hsize, hon⟩
  switched hswitch := by
    have hgot := Pc.got_of_not_copying (here_parked hswitch).not_copying
    rw [h.rx.received, hgot, List.append_nil]

/-- **The serial port.** From `uart_open` on, whatever threads call and whenever interrupts
come: nothing is lost, duplicated or reordered, and no thread waits in vain. -/
theorem port_lossless {d : Device} (hopen : (uartOpen d).1 = 0) {es : List Event}
    (hrun : runs step (opened d) es = some s) : s.Lossless :=
  (runs_invariant (fun _ _ _ hs hstep => step_inv hs hstep) (opened_inv hopen) hrun).lossless

/-- A port that is not open. -/
def closedPort : Device where
  ier := 0
  irq := false
  rxovrcnt := 0
  refcnt := 0
  rxbuf := ⟨0, 0, fun _ => 0⟩
  txbuf := ⟨0, 0, fun _ => 0⟩

/-- A thread waits for a byte and is woken by it. -/
theorem port_lossless_read : ∃ s, runs step (opened closedPort)
    [.wake 7, .dispatch, .read 4, .run, .run, .isr LSR_DR 65, .dispatch, .run, .run, .run, .run,
      .run, .run, .run, .run] = some s ∧ s.reads = [(7, [65])] ∧ s.Lossless := by
  obtain ⟨s, hs⟩ : ∃ s, runs step (opened closedPort)
    [.wake 7, .dispatch, .read 4, .run, .run, .isr LSR_DR 65, .dispatch, .run, .run, .run, .run,
      .run, .run, .run, .run] = some s := ⟨_, rfl⟩
  refine ⟨s, hs, ?_, port_lossless rfl hs⟩
  obtain rfl := Option.some.inj hs
  rfl

end Port

end Uart

end RiscvKernel
