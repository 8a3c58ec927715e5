import RiscvKernel.Io.Intf
import RiscvKernel.Lib.Bytes
import RiscvKernel.Memory.UserPages

/-!
# Loading an executable

`elf_load` of `elf.c`: it reads the header of the file and checks it, and then goes through the
program headers. For each one of type `PT_LOAD` it maps pages, reads the segment into them and
sets their flags.

* `Exe` is the io object that the file is read through. A read stores bytes at the beginning of
  its buffer and returns their count or a negative value.
* The headers are local variables that are not initialised; `Stack` is what is there before.
  A program header that the file has only a part of is not rejected.
* An address that is not mapped for the kernel is a page fault, and that panics: `none`.
-/

namespace RiscvKernel

open Lib

/-! ## The io object -/

/-- Io objects `ω` with state `σ`, as the loader uses them. -/
structure Exe (ω σ : Type) where
  /-- `io->ops->read`: the result, and the bytes that it has stored -/
  read : ω → (bufsz : Nat) → σ → Int × Bytes × σ
  /-- `ioseek` -/
  seek : ω → (pos : Nat) → σ → σ
  fits : ∀ io bufsz s, (read io bufsz s).2.1.length ≤ bufsz
  count : ∀ io bufsz s, 0 ≤ (read io bufsz s).1 → (read io bufsz s).1 = (read io bufsz s).2.1.length

namespace Exe

variable {ω σ : Type}

/-- The loop of `ioread_full`. Every round that goes on has read at least one byte. -/
def readFrom (exe : Exe ω σ) (io : ω) (bufsz : Nat) : Nat → Bytes → σ → Int × Bytes × σ
  | 0, buf, s => (buf.length, buf, s)
  | n + 1, buf, s =>
    if buf.length < bufsz then
      let r := exe.read io (bufsz - buf.length) s
      if r.1 < 0 then (r.1, buf ++ r.2.1, r.2.2)
      else if r.1 = 0 then (buf.length, buf, r.2.2)
      else readFrom exe io bufsz n (buf ++ r.2.1) r.2.2
    else (buf.length, buf, s)

/-- `ioread_full` -/
def readFull (exe : Exe ω σ) (io : ω) (bufsz : Nat) (s : σ) : Int × Bytes × σ :=
  exe.readFrom io bufsz bufsz [] s

end Exe

/-! ## The headers -/

namespace Elf

def READ_FAILURE : Int := 1
def DATA_SHORTAGE : Int := 2
def MAGIC : Int := 3
def CLASS : Int := 4
def LITTLE_ENDIAN : Int := 5
def ABI : Int := 6
def MACHINE : Int := 7
def PROG_READ_FAILURE : Int := 8
def PROG_ADDR : Int := 9
def PROG_SEC_READ : Int := 10

/-- The number that bytes spell, the least significant one first. -/
def leNat : Bytes → Nat
  | [] => 0
  | b :: bs => b.toNat + 256 * leNat bs

/-- The field of `n` bytes at `off`. -/
def field (b : Bytes) (off n : Nat) : Nat := leNat (slice b off n)

/-- `Elf64_Ehdr`, the fields that the loader uses. -/
structure Ehdr where
  ident : Bytes
  machine : Nat
  entry : Nat
  phoff : Nat
  phentsize : Nat
  phnum : Nat

/-- `sizeof(Elf64_Ehdr)` -/
def EHDR_SIZE : Nat := 64

def ehdr (b : Bytes) : Ehdr where
  ident := slice b 0 16
  machine := field b 18 2
  entry := field b 24 8
  phoff := field b 32 8
  phentsize := field b 54 2
  phnum := field b 56 2

/-- `Elf64_Phdr` -/
structure Phdr where
  type : Nat
  flags : Nat
  offset : Nat
  vaddr : Nat
  filesz : Nat

/-- `sizeof(Elf64_Phdr)` -/
def PHDR_SIZE : Nat := 56

def phdr (b : Bytes) : Phdr where
  type := field b 0 4
  flags := field b 4 4
  offset := field b 8 8
  vaddr := field b 16 8
  filesz := field b 32 8

def PT_LOAD : Nat := 1

/-- What the variables for the headers hold before they are read: `elf_header`, and `elf_phdr`
in each round of the loop. -/
structure Stack where
  ehdr : Bytes
  phdr : Nat → Bytes

/-- `flag_convert` -/
def flagConvert (flags : Nat) : BitVec 8 :=
  (if flags % 2 = 1 then PTE_X else 0) ||| (if flags / 2 % 2 = 1 then PTE_W else 0) |||
    (if flags / 4 % 2 = 1 then PTE_R else 0)

/-- The checks of the header: 0 or the error. -/
def checkEhdr (h : Ehdr) : Int :=
  if h.ident.take 4 ≠ [0x7f, 0x45, 0x4c, 0x46] then -MAGIC
  else if h.ident.getD 4 0 ≠ 2 then -CLASS
  else if h.ident.getD 5 0 ≠ 1 then -LITTLE_ENDIAN
  else if h.ident.getD 7 0 ≠ 0 then -ABI
  else if h.machine ≠ 0xf3 then -MACHINE
  else 0

variable {ω σ : Type}

/-- A segment: its pages are mapped for the kernel, filled and given their flags. The count is
compared as an unsigned number, so that a failed read passes. -/
def loadSegment (exe : Exe ω σ) (io : ω) (ph : Phdr) (b : UserSpace σ) :
    Option (Int × UserSpace σ) :=
  match b.mem.memoryAllocAndMapRange b.root ph.vaddr ph.filesz (PTE_R ||| PTE_W) with
  | none => none
  | some m =>
    let (result, bytes, s) := exe.readFull io ph.filesz (exe.seek io ph.offset b.objs)
    match m.storeBytes b.root ph.vaddr bytes with
    | none => none
    | some m =>
      match m.memorySetRangeFlags b.root ph.vaddr ph.filesz (flagConvert ph.flags ||| PTE_U) with
      | none => none
      | some m =>
        let b := { b with mem := m, objs := s }
        if u64 result < ph.filesz then some (-PROG_SEC_READ, b) else some (0, b)

/-- A round of the loop over the program headers. -/
def loadPhdr (exe : Exe ω σ) (io : ω) (ph : Phdr) (b : UserSpace σ) : Option (Int × UserSpace σ) :=
  if ph.type = PT_LOAD then
    if ph.vaddr < USER_START ∨ USER_END < u64 (ph.vaddr + ph.filesz : Nat) then some (-PROG_ADDR, b)
    else loadSegment exe io ph b
  else some (0, b)

/-- The loop from the program header `i` on, with `n` of them left. `i * e_phentsize` is an
`int`. -/
def loadPhdrs (exe : Exe ω σ) (io : ω) (stack : Stack) (h : Ehdr) :
    Nat → Nat → UserSpace σ → Option (Int × UserSpace σ)
  | 0, _, b => some (0, b)
  | n + 1, i, b =>
    let pos := u64 (h.phoff + i32 (i * h.phentsize : Nat))
    let (result, bytes, s) := exe.readFull io PHDR_SIZE (exe.seek io pos b.objs)
    let b := { b with objs := s }
    if result < 0 then some (-PROG_READ_FAILURE, b)
    else
      match loadPhdr exe io (phdr (patch (stack.phdr i) 0 bytes)) b with
      | none => none
      | some (r, b) => if r < 0 then some (r, b) else loadPhdrs exe io stack h n (i + 1) b

/-- `elf_load`: the result, the entry point and the new state. -/
def elfLoad (exe : Exe ω σ) (stack : Stack) (io : ω) (b : UserSpace σ) :
    Option (Int × Nat × UserSpace σ) :=
  let (result, bytes, s) := exe.readFull io EHDR_SIZE b.objs
  let b := { b with objs := s }
  let h := ehdr (patch stack.ehdr 0 bytes)
  if result < 0 then some (-READ_FAILURE, 0, b)
  else if result < EHDR_SIZE then some (-DATA_SHORTAGE, 0, b)
  else if checkEhdr h < 0 then some (checkEhdr h, 0, b)
  else
    match loadPhdrs exe io stack h h.phnum 0 b with
    | none => none
    | some (r, b) => if r < 0 then some (r, 0, b) else some (0, h.entry, b)

end Elf

end RiscvKernel
