import RiscvKernel.Io.Intf
import RiscvKernel.Lib.CInt
import RiscvKernel.Lib.Queues
import RiscvKernel.Lib.Ring

/-!
# The serial port driver

`uart.c`: two ring buffers between the threads that call `uart_read` and `uart_write` and the
interrupt handler, which runs between any two steps of a thread while interrupts are enabled.

* A thread loses the processor only in `condition_wait` or outside of the driver. It comes
  back from there with interrupts enabled; `suspend_self` then restores them to what they were.
* `*p++ = rbuf_get(..)` and `rbuf_put(.., *p++)` are two steps each, an access to the array and
  one to the position; `ier |= ..` is a load and a store.
* `taken`, `sent`, `accepted`, `reads` and `writes` are logs, for the statements only.
-/

namespace RiscvKernel

open Lib

/-- `SERIAL_RBUFSZ` -/
def SERIAL_RBUFSZ : Nat := 64

instance : NeZero SERIAL_RBUFSZ := ⟨by decide⟩

namespace Uart

def LSR_DR : BitVec 8 := 1
def LSR_OE : BitVec 8 := 2
def LSR_THRE : BitVec 8 := 32

def IER_DREIE : BitVec 8 := 1
def IER_THREIE : BitVec 8 := 2

/-! ## `struct ringbuf` -/

/-- `struct ringbuf` -/
abbrev Ringbuf := Ring SERIAL_RBUFSZ 16 UInt8

def rbufInit (r : Ringbuf) : Ringbuf := { r with hpos := 0, tpos := 0 }

def rbufEmpty (r : Ringbuf) : Bool := decide (r.hpos = r.tpos)

def rbufFull (r : Ringbuf) : Bool := decide (r.size = SERIAL_RBUFSZ)

def rbufPut (r : Ringbuf) (c : UInt8) : Ringbuf := (r.store r.tpos c).setTail (r.tpos + 1#16)

def rbufGet (r : Ringbuf) : UInt8 × Ringbuf :=
  (r.data (Ring.slot r.hpos), r.setHead (r.hpos + 1#16))

/-! ## Opening and closing -/

/-- `struct uart_device`, with the interrupt enable register of the port and its line at the
interrupt controller. -/
structure Device where
  ier : BitVec 8
  irq : Bool
  rxovrcnt : Nat
  refcnt : Nat
  rxbuf : Ringbuf
  txbuf : Ringbuf

/-- `uart_open` -/
def uartOpen (d : Device) : Int × Device :=
  if d.refcnt ≠ 0 then (-EBUSY, d)
  else
    (0, { d with
      rxbuf := rbufInit d.rxbuf
      txbuf := rbufInit d.txbuf
      ier := IER_DREIE
      irq := true
      refcnt := 1 })

theorem uartOpen_of_busy {d : Device} (h : d.refcnt ≠ 0) : uartOpen d = (-EBUSY, d) := if_pos h

theorem uartOpen_of_free {d : Device} (h : d.refcnt = 0) :
    uartOpen d = (0, { d with
      rxbuf := rbufInit d.rxbuf
      txbuf := rbufInit d.txbuf
      ier := IER_DREIE
      irq := true
      refcnt := 1 }) :=
  if_neg (not_not_intro h)

theorem uartOpen_ok {d : Device} : (uartOpen d).1 = 0 ↔ d.refcnt = 0 := by
  refine ⟨fun h => ?_, fun h => by rw [uartOpen_of_free h]⟩
  by_contra hbusy
  rw [uartOpen_of_busy hbusy] at h
  have hne : -EBUSY ≠ 0 := by decide
  exact hne h

/-- `uart_close` -/
def uartClose (d : Device) : Device := { d with ier := 0, irq := false }

/-! ## The threads and the port -/

/-- The conditions of a port. -/
inductive Cond where
  | rxbnotempty
  | txbnotfull
  deriving DecidableEq

/-- Where a thread is. In `uart_read`, `bufsz` is the clamped size and `got` are the bytes from
`buf` to `p`; in `uart_write`, `buf` are the bytes to write and `p` is an offset. -/
inductive Pc where
  /-- not in the driver -/
  | outside
  /-- `while (rbuf_empty(&dev->rxbuf))` -/
  | readTest (bufsz : Nat)
  /-- `condition_wait(&dev->rxbnotempty)` -/
  | readBlock (bufsz : Nat)
  /-- in `suspend_self` -/
  | readWait (bufsz : Nat)
  /-- `while (!rbuf_empty(&dev->rxbuf) && p - (char*)buf < bufsz)` -/
  | readLoop (bufsz : Nat) (got : Bytes)
  /-- `c = rbuf->data[hpos % SERIAL_RBUFSZ]` -/
  | readFetch (bufsz : Nat) (got : Bytes) (hpos : BitVec 16)
  /-- `rbuf->hpos = hpos + 1` -/
  | readAdvance (bufsz : Nat) (got : Bytes) (hpos : BitVec 16) (c : UInt8)
  /-- the load of `dev->regs->ier |= IER_DREIE` -/
  | readIer (got : Bytes)
  /-- the store -/
  | readSetIer (got : Bytes) (ier : BitVec 8)
  /-- `while (p - (char*)buf < n)` -/
  | writeTop (buf : Bytes) (p : Nat)
  /-- `while (rbuf_full(&dev->txbuf))` -/
  | writeTest (buf : Bytes) (p : Nat)
  /-- `condition_wait(&dev->txbnotfull)` -/
  | writeBlock (buf : Bytes) (p : Nat)
  /-- in `suspend_self` -/
  | writeWait (buf : Bytes) (p : Nat)
  /-- `while (!rbuf_full(&dev->txbuf) && p - (char*)buf < n)` -/
  | writeLoop (buf : Bytes) (p : Nat)
  /-- `rbuf->data[tpos % SERIAL_RBUFSZ] = c` -/
  | writeStore (buf : Bytes) (p : Nat) (tpos : BitVec 16) (c : UInt8)
  /-- `rbuf->tpos = tpos + 1` -/
  | writeAdvance (buf : Bytes) (p : Nat) (tpos : BitVec 16) (c : UInt8)
  /-- the load of `dev->regs->ier |= IER_THREIE` -/
  | writeIer (buf : Bytes) (p : Nat)
  /-- the store -/
  | writeSetIer (buf : Bytes) (p : Nat) (ier : BitVec 8)

/-- A port, the threads that use it, and whether interrupts are enabled. Logs: the bytes that
the handler took from `rbr` and stored to `thr`; the bytes that were put into the transmit
buffer, with the thread; and the calls that returned, with what they read or wrote. -/
structure Port where
  dev : Device
  q : Queues Cond Nat
  intr : Bool
  pc : Nat → Pc
  taken : Bytes
  sent : Bytes
  accepted : List (Nat × UInt8)
  reads : List (Nat × Bytes)
  writes : List (Nat × Bytes)

namespace Port

def goto (s : Port) (t : Nat) (pc : Pc) : Port := { s with pc := Function.update s.pc t pc }

def setRxbuf (s : Port) (r : Ringbuf) : Port := { s with dev := { s.dev with rxbuf := r } }

def setTxbuf (s : Port) (r : Ringbuf) : Port := { s with dev := { s.dev with txbuf := r } }

def setIer (s : Port) (ier : BitVec 8) : Port := { s with dev := { s.dev with ier := ier } }

/-! ## The interrupt handler -/

/-- What `uart_isr` does if there is a byte in `rbr`. -/
def isrReceive (rbr : UInt8) (s : Port) : Port :=
  if rbufFull s.dev.rxbuf = false then
    { s.setRxbuf (rbufPut s.dev.rxbuf rbr) with
      q := if rbufEmpty s.dev.rxbuf then s.q.broadcast .rxbnotempty else s.q
      taken := s.taken ++ [rbr] }
  else s.setIer (s.dev.ier &&& ~~~IER_DREIE)

/-- What `uart_isr` does if `thr` is empty. -/
def isrTransmit (s : Port) : Port :=
  if rbufEmpty s.dev.txbuf = false then
    { s.setTxbuf (rbufGet s.dev.txbuf).2 with
      q := if rbufFull s.dev.txbuf then s.q.broadcast .txbnotfull else s.q
      sent := s.sent ++ [(rbufGet s.dev.txbuf).1] }
  else s.setIer (s.dev.ier &&& ~~~IER_THREIE)

def countOverrun (s : Port) : Port :=
  { s with dev := { s.dev with rxovrcnt := u32 (s.dev.rxovrcnt + 1) } }

/-- `uart_isr`, with what it reads from `lsr` and `rbr` -/
def uartIsr (lsr : BitVec 8) (rbr : UInt8) (s : Port) : Port :=
  let s := if lsr &&& LSR_OE ≠ 0 then s.countOverrun else s
  let s := if lsr &&& LSR_DR ≠ 0 then s.isrReceive rbr else s
  if lsr &&& LSR_THRE ≠ 0 then s.isrTransmit else s

/-! ## Reading and writing -/

/-- The running thread `t` gives up the processor to wait on `c`: `condition_wait` up to the
switch, for which `suspend_self` enables interrupts. -/
def conditionWait (s : Port) (t : Nat) (c : Cond) : Port :=
  { s with q := s.q.block c t, intr := true }

def setIntr (s : Port) (b : Bool) : Port := { s with intr := b }

/-- `uart_read`, until it tests the buffer -/
def uartRead (s : Port) (t bufsz : Nat) : Port :=
  let bufsz := if longMax < bufsz then longMax else bufsz
  if bufsz = 0 then { s with reads := s.reads ++ [(t, [])] }
  else (s.goto t (.readTest bufsz)).setIntr false

/-- `uart_write`, until its loop -/
def uartWrite (s : Port) (t : Nat) (buf : Bytes) : Port :=
  s.goto t (.writeTop (if longMax < buf.length then buf.take longMax else buf) 0)

/-- Thread `t`, which is running, takes a step in the driver. -/
def exec (s : Port) (t : Nat) : Pc → Option Port
  | .outside => none
  | .readTest bufsz =>
    if rbufEmpty s.dev.rxbuf then some (s.goto t (.readBlock bufsz))
    else some ((s.goto t (.readLoop bufsz [])).setIntr true)
  | .readBlock bufsz => some ((s.goto t (.readWait bufsz)).conditionWait t .rxbnotempty)
  | .readWait bufsz => some ((s.goto t (.readTest bufsz)).setIntr false)
  | .readLoop bufsz got =>
    if rbufEmpty s.dev.rxbuf = false ∧ got.length < bufsz then
      some (s.goto t (.readFetch bufsz got s.dev.rxbuf.hpos))
    else some (s.goto t (.readIer got))
  | .readFetch bufsz got hpos =>
    some (s.goto t (.readAdvance bufsz got hpos (s.dev.rxbuf.data (Ring.slot hpos))))
  | .readAdvance bufsz got hpos c =>
    some ((s.goto t (.readLoop bufsz (got ++ [c]))).setRxbuf (s.dev.rxbuf.setHead (hpos + 1#16)))
  | .readIer got => some (s.goto t (.readSetIer got s.dev.ier))
  | .readSetIer got ier =>
    some { (s.goto t .outside).setIer (ier ||| IER_DREIE) with reads := s.reads ++ [(t, got)] }
  | .writeTop buf p =>
    if p < buf.length then some ((s.goto t (.writeTest buf p)).setIntr false)
    else some { s.goto t .outside with writes := s.writes ++ [(t, buf)] }
  | .writeTest buf p =>
    if rbufFull s.dev.txbuf then some (s.goto t (.writeBlock buf p))
    else some ((s.goto t (.writeLoop buf p)).setIntr true)
  | .writeBlock buf p => some ((s.goto t (.writeWait buf p)).conditionWait t .txbnotfull)
  | .writeWait buf p => some ((s.goto t (.writeTest buf p)).setIntr false)
  | .writeLoop buf p =>
    if h : rbufFull s.dev.txbuf = false ∧ p < buf.length then
      have := h.2
      some (s.goto t (.writeStore buf p s.dev.txbuf.tpos buf[p]))
    else some (s.goto t (.writeIer buf p))
  | .writeStore buf p tpos c =>
    some ((s.goto t (.writeAdvance buf p tpos c)).setTxbuf (s.dev.txbuf.store tpos c))
  | .writeAdvance buf p tpos c =>
    some { (s.goto t (.writeLoop buf (p + 1))).setTxbuf (s.dev.txbuf.setTail (tpos + 1#16)) with
      accepted := s.accepted ++ [(t, c)] }
  | .writeIer buf p => some (s.goto t (.writeSetIer buf p s.dev.ier))
  | .writeSetIer buf p ier => some ((s.goto t (.writeTop buf p)).setIer (ier ||| IER_THREIE))

/-! ## Steps -/

inductive Event where
  /-- The running thread calls `uart_read`. -/
  | read (bufsz : Nat)
  /-- The running thread calls `uart_write`. -/
  | write (buf : Bytes)
  /-- The running thread takes a step in the driver. -/
  | run
  /-- An interrupt of the port, with the line status and the byte that it finds. -/
  | isr (lsr : BitVec 8) (rbr : UInt8)
  /-- Code outside of the driver enables or disables interrupts. -/
  | intr (b : Bool)
  /-- The running thread, outside of the driver, yields. -/
  | yield
  /-- The running thread, outside of the driver, waits for something else or exits. -/
  | leave
  /-- A thread that does not wait here becomes ready. -/
  | wake (t : Nat)
  /-- The idle thread looks for a ready thread. -/
  | dispatch

/-- The running thread, if it is outside of the driver. -/
def caller (s : Port) : Option Nat :=
  s.q.running.filter fun t => match s.pc t with
    | .outside => true
    | _ => false

/-- One step. `none`: the event cannot happen. -/
def step (s : Port) : Event → Option Port
  | .read bufsz => s.caller.map fun t => s.uartRead t bufsz
  | .write buf => s.caller.map fun t => s.uartWrite t buf
  | .run => s.q.running.bind fun t => s.exec t (s.pc t)
  | .isr lsr rbr => if s.intr then some (s.uartIsr lsr rbr) else none
  | .intr b => if s.q.running = none ∨ s.caller ≠ none then some (s.setIntr b) else none
  | .yield => s.caller.map fun t => { s with q := s.q.yield t, intr := true }
  | .leave => s.caller.map fun _ => { s with q := s.q.dispatch, intr := true }
  | .wake t =>
    if s.q.running ≠ some t ∧ t ∉ s.q.ready ∧ t ∉ s.q.waiting .rxbnotempty ∧
        t ∉ s.q.waiting .txbnotfull then
      some { s with q := s.q.enqueue t }
    else none
  | .dispatch => if s.q.running = none then some { s with q := s.q.dispatch, intr := true } else none

/-- The port right after `uart_open`, with no thread in the driver. -/
def opened (d : Device) : Port where
  dev := (uartOpen d).2
  q := { running := none, ready := [], waiting := fun _ => [] }
  intr := true
  pc _ := .outside
  taken := []
  sent := []
  accepted := []
  reads := []
  writes := []

end Port

end Uart

end RiscvKernel
