import RiscvKernel.Io.DevTab
import RiscvKernel.Io.Uart

/-!
# Opening and closing devices

`vioblk_open` and `vioblk_close` of `vioblk.c` and those of `uart.c`, behind the table of `DevTab`. Of
the block device this is the part that opening and closing change.

* `vioblk_open` sets `refcnt` to 1 even if the device is open; `vioblk_close` counts down.
* `uart_open` fails if `refcnt` is not 0; `uart_close` does not count down.
* The queue of the block device is made ready when the driver attaches to the device, and not
  again after `virtio_reset_virtq`.
-/

namespace RiscvKernel

open Lib Uart

/-- `struct vioblk_device`, as far as it is opened and closed. `irq`: the line is enabled at the
interrupt controller; `ready`: `queue_ready` of the queue, which a reset clears. -/
structure BlkPort where
  refcnt : Nat
  opened : Bool
  irq : Bool
  ready : Bool

namespace BlkPort

/-- After `vioblk_attach`. -/
def attached : BlkPort := ⟨0, false, false, true⟩

/-- `vioblk_open`, which always returns 0 -/
def vioblkOpen (b : BlkPort) : BlkPort :=
  let b := { b with refcnt := 1 }
  if b.opened then b else { b with irq := true, opened := true }

/-- `vioblk_close` -/
def vioblkClose (b : BlkPort) : BlkPort :=
  let b := { b with refcnt := u32 (b.refcnt - 1) }
  -- `refcnt <= 0`, for an unsigned `refcnt`
  if b.refcnt = 0 then { b with irq := false, ready := false, opened := false } else b

end BlkPort

/-- A device that can be opened. -/
inductive Dev where
  | blk (b : BlkPort)
  | ser (u : Device)

namespace Dev

/-- `io_intf.refcnt` -/
def refcnt : Dev → Nat
  | blk b => b.refcnt
  | ser u => u.refcnt

/-- The `openfn` of the driver: what it returns, and the device. -/
def «open» : Dev → Int × Dev
  | blk b => (0, blk b.vioblkOpen)
  | ser u => ((uartOpen u).1, ser (uartOpen u).2)

/-- `io->ops->close(io)` -/
def close : Dev → Dev
  | blk b => blk b.vioblkClose
  | ser u => ser (uartClose u)

/-- `io->refcnt++` -/
def ref : Dev → Dev
  | blk b => blk { b with refcnt := u32 (b.refcnt + 1) }
  | ser u => ser { u with refcnt := u32 (u.refcnt + 1) }

end Dev

/-- The open functions: that of a driver, and `uart_open_ebusy`, which the port of the console is
registered with. -/
inductive OpenFn where
  | driver
  | uartOpenEbusy

/-- An entry of `devtab`; `aux` is the device. -/
abbrev DevEntry := DevTab.Slot OpenFn Nat

/-- The device that the open function of an entry opens. -/
def DevEntry.device : DevEntry → Option Nat
  | ⟨_, some .driver, aux⟩ => aux
  | _ => none

/-- What `openfn(ioptr, aux)` returns. -/
def openResult (devs : Nat → Dev) : Option OpenFn → Option Nat → Int
  | some .driver, some d => (devs d).open.1
  | _, _ => -EBUSY

/-- `device_open`: what it returns, what the io pointer becomes, and the devices. -/
def deviceOpen (devtab : List DevEntry) (name : Option Bytes) (instno : Int) (io : Option Nat)
    (devs : Nat → Dev) : (Int × Option Nat) × (Nat → Dev) :=
  let (result, entry) := DevTab.deviceOpen (openResult devs) devtab name instno
  match entry.bind fun e => DevEntry.device e.2 with
  | none => ((result, io), devs)
  | some d =>
    -- `uart_open` does not set the io pointer when it fails
    ((result, if result < 0 then io else some d), Function.update devs d (devs d).open.2)

end RiscvKernel
