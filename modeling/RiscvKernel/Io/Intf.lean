import RiscvKernel.Lib.Lockstep

/-!
# I/O objects

`struct io_intf` (`io.h`) and the full transfers of `io.c`, over the state `β` of
whatever is behind the object. A buffer is passed by its contents: `read buf` returns
the count and the buffer as the call leaves it, so that what a short read did not
store is still the caller's old data.
-/

namespace RiscvKernel

open Lib

/-! ## `error.h` and the ioctl numbers of `io.h` -/

def EBUSY : Int := 2
def ENOTSUP : Int := 3
def ENODEV : Int := 4
def EIO : Int := 5
def EBADFMT : Int := 6
def ENOENT : Int := 7
def EFILESYS : Int := 8

def IOCTL_GETLEN : Nat := 1
def IOCTL_GETPOS : Nat := 3
def IOCTL_SETPOS : Nat := 4
def IOCTL_GETBLKSZ : Nat := 6

abbrev Bytes := List UInt8

/-- `struct io_ops` of an object: `ctl cmd arg` returns the result and what the call
leaves in the 64-bit argument. -/
structure IoIntf (β ι κ : Type) where
  read : Bytes → Prog β ι κ (Int × Bytes)
  write : Bytes → Prog β ι κ Int
  ctl : Nat → Nat → Prog β ι κ (Int × Nat)

namespace IoIntf

variable {β γ ι κ : Type}

/-- The object seen from a larger state. -/
def zoom (e : Lens γ β) (io : IoIntf β ι κ) : IoIntf γ ι κ where
  read buf := (io.read buf).zoom e
  write buf := (io.write buf).zoom e
  ctl cmd arg := (io.ctl cmd arg).zoom e

/-- The loop of `ioread_full`. Every round that goes on has read at least one byte, so
`buf.length` rounds are enough. -/
def readFrom (io : IoIntf β ι κ) : Nat → Nat → Bytes → Prog β ι κ (Int × Bytes)
  | 0, acc, buf => .ret (acc, buf)
  | n + 1, acc, buf =>
    if acc < buf.length then do
      let (cnt, tail) ← io.read (buf.drop acc)
      let buf := buf.take acc ++ tail
      if cnt < 0 then return (cnt, buf)
      else if cnt = 0 then return (acc, buf)
      else readFrom io n (acc + cnt.toNat) buf
    else .ret (acc, buf)

/-- `ioread_full` -/
def ioreadFull (io : IoIntf β ι κ) (buf : Bytes) : Prog β ι κ (Int × Bytes) :=
  io.readFrom buf.length 0 buf

/-- The loop of `iowrite`. -/
def writeFrom (io : IoIntf β ι κ) (buf : Bytes) : Nat → Nat → Prog β ι κ Int
  | 0, acc => .ret acc
  | n + 1, acc =>
    if acc < buf.length then do
      let cnt ← io.write (buf.drop acc)
      if cnt < 0 then return cnt
      else if cnt = 0 then return acc
      else writeFrom io buf n (acc + cnt.toNat)
    else .ret acc

/-- `iowrite` -/
def iowrite (io : IoIntf β ι κ) (buf : Bytes) : Prog β ι κ Int :=
  io.writeFrom buf buf.length 0

/-! ## Running alone -/

section Alone

variable {serve : β → Option β} {io : IoIntf β ι κ} {s s' : β} {buf : Bytes} {cnt : Int}

/-- A first round that fails or reads everything is the last one. -/
theorem exec_ioreadFull {tail : Bytes} (hbuf : 0 < buf.length)
    (hread : (io.read buf).exec serve s = some ((cnt, tail), s'))
    (hlen : tail.length = buf.length) (hcnt : cnt < 0 ∨ cnt = buf.length) :
    (io.ioreadFull buf).exec serve s = some ((cnt, tail), s') := by
  unfold ioreadFull
  obtain ⟨n, hn⟩ : ∃ n, buf.length = n + 1 := ⟨buf.length - 1, by omega⟩
  rw [hn]
  unfold readFrom
  rw [if_pos hbuf, List.drop_zero, List.take_zero, Prog.exec_bind_of_eq hread]
  simp only [List.nil_append]
  obtain hneg | rfl := hcnt
  · rw [if_pos hneg]
    rfl
  · rw [if_neg (by omega), if_neg (by omega), Int.toNat_natCast, Nat.zero_add]
    -- nothing is left for a second round
    cases n with
    | zero => rw [readFrom, Prog.exec_ret]
    | succ n => rw [readFrom, if_neg (by omega), Prog.exec_ret]

theorem exec_ioreadFull_none (hbuf : 0 < buf.length) (hread : (io.read buf).exec serve s = none) :
    (io.ioreadFull buf).exec serve s = none := by
  unfold ioreadFull
  obtain ⟨n, hn⟩ : ∃ n, buf.length = n + 1 := ⟨buf.length - 1, by omega⟩
  rw [hn]
  unfold readFrom
  rw [if_pos hbuf, List.drop_zero, Prog.exec_bind, hread]
  rfl

/-- A first round that fails or writes everything is the last one. -/
theorem exec_iowrite (hbuf : 0 < buf.length) (hwrite : (io.write buf).exec serve s = some (cnt, s'))
    (hcnt : cnt < 0 ∨ cnt = buf.length) : (io.iowrite buf).exec serve s = some (cnt, s') := by
  unfold iowrite
  obtain ⟨n, hn⟩ : ∃ n, buf.length = n + 1 := ⟨buf.length - 1, by omega⟩
  rw [hn]
  unfold writeFrom
  rw [if_pos hbuf, List.drop_zero, Prog.exec_bind_of_eq hwrite]
  obtain hneg | rfl := hcnt
  · rw [if_pos hneg]
    rfl
  · rw [if_neg (by omega), if_neg (by omega), Int.toNat_natCast, Nat.zero_add]
    -- nothing is left for a second round
    cases n with
    | zero => rw [writeFrom, Prog.exec_ret]
    | succ n => rw [writeFrom, if_neg (by omega), Prog.exec_ret]

theorem exec_iowrite_none (hbuf : 0 < buf.length) (hwrite : (io.write buf).exec serve s = none) :
    (io.iowrite buf).exec serve s = none := by
  unfold iowrite
  obtain ⟨n, hn⟩ : ∃ n, buf.length = n + 1 := ⟨buf.length - 1, by omega⟩
  rw [hn]
  unfold writeFrom
  rw [if_pos hbuf, List.drop_zero, Prog.exec_bind, hwrite]
  rfl

end Alone

/-! ## Two devices behind an object -/

/-- On states that `R` relates the operations do the same on two devices, up to the contents of the
buffers, with requests that `W` relates. -/
structure Alike (serve serve' : β → Option β) (W R : β → β → Prop) (io : IoIntf β ι κ) : Prop where
  read : ∀ {buf buf' s s'}, buf'.length = buf.length → R s s' →
    Prog.Lockstep serve serve' W (io.read buf) (io.read buf') s s' fun r t r' t' =>
      (r'.1 = r.1 ∧ r'.2.length = r.2.length) ∧ R t t'
  write : ∀ buf {s s'}, R s s' → Prog.Lockstep serve serve' W (io.write buf) (io.write buf) s s'
    fun v t v' t' => v' = v ∧ R t t'
  ctl : ∀ cmd arg {s s'}, R s s' → Prog.Lockstep serve serve' W (io.ctl cmd arg) (io.ctl cmd arg) s s'
    fun r t r' t' => r' = r ∧ R t t'

section Alike

variable {serve serve' : β → Option β} {W R : β → β → Prop} {io : IoIntf β ι κ}

theorem Alike.zoom (e : Lens γ β) (h : io.Alike serve serve' W R) :
    (io.zoom e).Alike (e.serve serve) (e.serve serve') (e.On W) (e.Lift R) where
  read hlen hs := Prog.Lockstep.zoom e hs (h.read hlen hs.1)
  write buf _ _ hs := Prog.Lockstep.zoom e hs (h.write buf hs.1)
  ctl cmd arg _ _ hs := Prog.Lockstep.zoom e hs (h.ctl cmd arg hs.1)

theorem Alike.readFrom (h : io.Alike serve serve' W R) (n acc : Nat) {buf buf' : Bytes} {s s' : β}
    (hlen : buf'.length = buf.length) (hs : R s s') :
    Prog.Lockstep serve serve' W (io.readFrom n acc buf) (io.readFrom n acc buf') s s' fun r t r' t' =>
      (r'.1 = r.1 ∧ r'.2.length = r.2.length) ∧ R t t' := by
  induction n generalizing acc buf buf' s s' with
  | zero => exact Prog.Lockstep.ret ⟨⟨rfl, hlen⟩, hs⟩
  | succ n ih =>
    unfold IoIntf.readFrom
    rw [hlen]
    split
    · refine (h.read (by rw [List.length_drop, List.length_drop, hlen]) hs).bind ?_
      intro r t r' t' hr
      obtain ⟨⟨hcnt, htail⟩, ht⟩ := hr
      have hbuf : (buf'.take acc ++ r'.2).length = (buf.take acc ++ r.2).length := by
        rw [List.length_append, List.length_append, List.length_take, List.length_take, hlen, htail]
      dsimp only
      rw [hcnt]
      split
      · exact Prog.Lockstep.ret ⟨⟨rfl, hbuf⟩, ht⟩
      split
      · exact Prog.Lockstep.ret ⟨⟨rfl, hbuf⟩, ht⟩
      · exact ih _ hbuf ht
    · exact Prog.Lockstep.ret ⟨⟨rfl, hlen⟩, hs⟩

theorem Alike.writeFrom (h : io.Alike serve serve' W R) (buf : Bytes) (n acc : Nat) {s s' : β}
    (hs : R s s') :
    Prog.Lockstep serve serve' W (io.writeFrom buf n acc) (io.writeFrom buf n acc) s s'
      fun v t v' t' => v' = v ∧ R t t' := by
  induction n generalizing acc s s' with
  | zero => exact Prog.Lockstep.ret ⟨rfl, hs⟩
  | succ n ih =>
    unfold IoIntf.writeFrom
    split
    · refine (h.write _ hs).bind fun v t v' t' hv => ?_
      obtain ⟨rfl, ht⟩ := hv
      split
      · exact Prog.Lockstep.ret ⟨rfl, ht⟩
      split
      · exact Prog.Lockstep.ret ⟨rfl, ht⟩
      · exact ih _ ht
    · exact Prog.Lockstep.ret ⟨rfl, hs⟩

end Alike

/-! ## Lock discipline -/

/-- The operations of an object may be called holding the locks `h` and give them back. -/
structure Disciplined [DecidableEq ι] (serve : β → Option β) (irq : κ) (L : ι) (h : ι → Bool)
    (io : IoIntf β ι κ) : Prop where
  read : ∀ buf, (io.read buf).Disciplined serve irq L h h
  write : ∀ buf, (io.write buf).Disciplined serve irq L h h
  ctl : ∀ cmd arg, (io.ctl cmd arg).Disciplined serve irq L h h

variable [DecidableEq ι] {serve : β → Option β} {irq : κ} {L : ι} {h : ι → Bool}
  {io : IoIntf β ι κ}

theorem Disciplined.zoom (e : Lens γ β) (hio : io.Disciplined serve irq L h) :
    (io.zoom e).Disciplined (e.serve serve) irq L h :=
  ⟨fun buf => (hio.read buf).zoom e, fun buf => (hio.write buf).zoom e,
    fun cmd arg => (hio.ctl cmd arg).zoom e⟩

theorem Disciplined.readFrom (hio : io.Disciplined serve irq L h) (n acc : Nat) (buf : Bytes) :
    (io.readFrom n acc buf).Disciplined serve irq L h h := by
  induction n generalizing acc buf with
  | zero => rfl
  | succ n ih =>
    unfold IoIntf.readFrom
    split
    · refine (hio.read _).bind fun r => ?_
      dsimp only
      split
      · rfl
      · split
        · rfl
        · exact ih _ _
    · rfl

theorem Disciplined.ioreadFull (hio : io.Disciplined serve irq L h) (buf : Bytes) :
    (io.ioreadFull buf).Disciplined serve irq L h h :=
  hio.readFrom _ _ _

theorem Disciplined.writeFrom (hio : io.Disciplined serve irq L h) (buf : Bytes) (n acc : Nat) :
    (io.writeFrom buf n acc).Disciplined serve irq L h h := by
  induction n generalizing acc with
  | zero => rfl
  | succ n ih =>
    unfold IoIntf.writeFrom
    split
    · refine (hio.write _).bind fun r => ?_
      split
      · rfl
      · split
        · rfl
        · exact ih _
    · rfl

theorem Disciplined.iowrite (hio : io.Disciplined serve irq L h) (buf : Bytes) :
    (io.iowrite buf).Disciplined serve irq L h h :=
  hio.writeFrom _ _ _

end IoIntf

end RiscvKernel
