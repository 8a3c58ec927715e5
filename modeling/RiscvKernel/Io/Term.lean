import RiscvKernel.Io.Intf
import RiscvKernel.Lib.Bytes
import RiscvKernel.Lib.Transducer

/-!
# Terminals

`ioterm_read` and `ioterm_write` of `io.c`, which bring line endings to one form on their way to
and from another object, `rawio`. Each keeps one bit about the last character. The rules that the
source states for them character by character are the machines `inStep` and `outStep`; the code
works on buffers.

* `ioterm_write` looks ahead for the `\n` after a `\r` and writes unmodified spans in one go:
  what it has scanned and not written is between `wp` and `rp`.
* `ioterm_read` compacts the buffer of its caller in place: `wp` follows `rp` (`Scan`).
* `reports_iotermWrite` and `exec_iotermRead`: both do what their machine does.
-/

namespace RiscvKernel

open Lib

def CR : UInt8 := 13
def LF : UInt8 := 10

/-! ## The documented machines -/

/-- Input: the five rules above `ioterm_init`. -/
def inStep (crIn : Bool) (ch : UInt8) : Bool × Bytes :=
  match crIn with
  | false => if ch = CR then (true, [LF]) else (false, [ch])
  | true => if ch = CR then (true, [LF]) else if ch = LF then (false, []) else (false, [ch])

/-- Output: the six rules above `ioterm_init`. -/
def outStep (crOut : Bool) (ch : UInt8) : Bool × Bytes :=
  match crOut with
  | false =>
    if ch = CR then (true, [CR, LF]) else if ch = LF then (false, [CR, LF]) else (false, [ch])
  | true => if ch = CR then (true, [CR, LF]) else if ch = LF then (false, []) else (false, [ch])

theorem inStep_other {ch : UInt8} (hCR : ch ≠ CR) (hLF : ch ≠ LF) (c : Bool) :
    inStep c ch = (false, [ch]) := by
  cases c with
  | false => simp [inStep, hCR]
  | true => simp [inStep, hCR, hLF]

theorem outStep_other {ch : UInt8} (hCR : ch ≠ CR) (hLF : ch ≠ LF) (c : Bool) :
    outStep c ch = (false, [ch]) := by
  cases c with
  | false => simp [outStep, hCR, hLF]
  | true => simp [outStep, hCR, hLF]

/-! ## The functions -/

/-- `struct io_term`, with the state of `rawio`. -/
structure TermState (β : Type) where
  raw : β
  crOut : Bool
  crIn : Bool

/-- The state of `rawio`, as a part of the whole. -/
def rawLens (β : Type) : Lens (TermState β) β where
  view s := s.raw
  put s b := { s with raw := b }
  view_put _ _ := rfl
  put_view _ := rfl
  put_put _ _ _ := rfl

/-- `ioputc` -/
def IoIntf.ioputc {β ι κ : Type} (io : IoIntf β ι κ) (c : UInt8) : Prog β ι κ Int := do
  let wlen ← io.iowrite [c]
  if wlen < 0 then return wlen
  else if wlen = 0 then return (- EIO)
  else return c.toNat

namespace Term

variable {β ι κ : Type}

abbrev Code (β ι κ α : Type) := Prog (TermState β) ι κ α

def setCrOut (c : Bool) : Code β ι κ Unit := Prog.modify fun s => { s with crOut := c }

def setCrIn (c : Bool) : Code β ι κ Unit := Prog.modify fun s => { s with crIn := c }

/-- `iowrite(iot->rawio, wp, n)`, followed by the two tests of its result. -/
def writeSpan (rawio : IoIntf β ι κ) (buf : Bytes) (wp n acc : Nat)
    (next : Nat → Nat → Code β ι κ Int) : Code β ι κ Int := do
  let cnt ← (rawio.iowrite (slice buf wp n)).zoom (rawLens β)
  if cnt < 0 then return cnt
  else if cnt = 0 then return acc
  else next (wp + cnt.toNat) (acc + cnt.toNat)

/-- `ioputc(iot->rawio, ch)`, followed by the test of its result. -/
def putChar (rawio : IoIntf β ι κ) (ch : UInt8) (next : Code β ι κ Int) : Code β ι κ Int := do
  let cnt ← (rawio.ioputc ch).zoom (rawLens β)
  if cnt < 0 then return cnt else next

/-- What `ioterm_write` does when it has scanned the buffer. -/
def drain (rawio : IoIntf β ι κ) (buf : Bytes) (rp wp acc : Nat) : Code β ι κ Int :=
  if rp ≠ wp then writeSpan rawio buf wp (rp - wp) acc fun _ acc => return acc
  else return acc

/-- The loop of `ioterm_write`; `n` bounds the rounds that are left. -/
def writeLoop (rawio : IoIntf β ι κ) (buf : Bytes) : Nat → Nat → Nat → Nat → Code β ι κ Int
  | 0, rp, wp, acc => drain rawio buf rp wp acc
  | n + 1, rp, wp, acc =>
    if rp < buf.length then
      if buf.getD rp 0 = CR then
        if rp + 1 < buf.length ∧ buf.getD (rp + 1) 0 = LF then do
          setCrOut false
          writeLoop rawio buf n (rp + 2) wp acc
        else
          writeSpan rawio buf wp (rp + 1 - wp) acc fun wp acc =>
            putChar rawio LF do
              setCrOut true
              writeLoop rawio buf n (rp + 1) wp acc
      else if buf.getD rp 0 = LF then do
        let s ← Prog.get
        if s.crOut then
          setCrOut false
          writeLoop rawio buf n (rp + 1) (wp + 1) acc
        else
          -- what stands before the `\n`, then `\r`; the `\n` itself is written later
          let cr := fun wp acc =>
            putChar rawio CR do
              setCrOut false
              writeLoop rawio buf n (rp + 1) wp acc
          if wp ≠ rp then writeSpan rawio buf wp (rp - wp) acc cr else cr wp acc
      else do
        setCrOut false
        writeLoop rawio buf n (rp + 1) wp acc
    else drain rawio buf rp wp acc

/-- `ioterm_write` -/
def iotermWrite (rawio : IoIntf β ι κ) (buf : Bytes) : Code β ι κ Int :=
  writeLoop rawio buf buf.length 0 0 0

/-- The state of the loop that fixes up line endings in the buffer. -/
structure Scan where
  buf : Bytes
  rp : Nat
  wp : Nat
  crIn : Bool

/-- `*wp++ = ch` -/
def Scan.put (c : Scan) (ch : UInt8) : Scan := { c with buf := c.buf.set c.wp ch, wp := c.wp + 1 }

/-- A round of that loop. -/
def Scan.step (c : Scan) : Scan :=
  let ch := c.buf.getD c.rp 0
  let c := { c with rp := c.rp + 1 }
  if c.crIn then
    if ch = CR then c.put LF
    else if ch = LF then { c with crIn := false }
    else { c with crIn := false }.put ch
  else if ch = CR then { c with crIn := true }.put LF
  else c.put ch

/-- The outer loop of `ioterm_read`, for at most `n` rounds: it goes on as long as nothing is left
of what was read, and it never ends at the end of a file. -/
def readLoop (rawio : IoIntf β ι κ) : Nat → Bytes → Code β ι κ (Int × Bytes)
  | 0, _ => .crash
  | n + 1, buf => do
    let (cnt, buf) ← (rawio.read buf).zoom (rawLens β)
    if cnt < 0 then return (cnt, buf)
    else
      let s ← Prog.get
      let c := Scan.step^[cnt.toNat] ⟨buf, 0, 0, s.crIn⟩
      setCrIn c.crIn
      if c.wp = 0 then readLoop rawio n c.buf else return (c.wp, c.buf)

/-- `ioterm_read` -/
def iotermRead (rawio : IoIntf β ι κ) (rounds : Nat) (buf : Bytes) : Code β ι κ (Int × Bytes) :=
  readLoop rawio rounds buf

/-- Successive calls of `ioterm_write`. -/
def writeAll (rawio : IoIntf β ι κ) : List Bytes → Code β ι κ (List Int)
  | [] => return []
  | buf :: bufs => do
    let r ← iotermWrite rawio buf
    let rs ← writeAll rawio bufs
    return r :: rs

/-- Successive calls of `ioterm_read`. -/
def readAll (rawio : IoIntf β ι κ) (rounds : Nat) : List Bytes → Code β ι κ (List (Int × Bytes))
  | [] => return []
  | buf :: bufs => do
    let r ← iotermRead rawio rounds buf
    let rs ← readAll rawio rounds bufs
    return r :: rs

/-- The bytes that a call of `ioterm_read` returns. -/
def returned (r : Int × Bytes) : Bytes := r.2.take r.1.toNat

/-! ## Writing -/

/-- `rawio` takes at least one byte of what it is given; `sent` is all that it has taken. -/
structure Accepts (rawio : IoIntf β ι κ) (serve : β → Option β) (Ok : β → Prop) (sent : β → Bytes) :
    Prop where
  write : ∀ b buf, Ok b → buf ≠ [] → ∃ cnt b',
    (rawio.write buf).exec serve b = some (((cnt : Nat) : Int), b') ∧ 0 < cnt ∧ cnt ≤ buf.length ∧
      Ok b' ∧ sent b' = sent b ++ buf.take cnt

/-- What `rawio` does, seen from the terminal. -/
theorem exec_raw {α : Type} {serve : β → Option β} {p : Prog β ι κ α} {s : TermState β} {a : α}
    {b : β} (h : p.exec serve s.raw = some (a, b)) :
    (p.zoom (rawLens β)).exec ((rawLens β).serve serve) s = some (a, { s with raw := b }) := by
  rw [Prog.exec_zoom]
  show (p.exec serve s.raw).map _ = _
  rw [h]
  rfl

section Writing

variable {rawio : IoIntf β ι κ} {serve : β → Option β} {Ok : β → Prop} {sent : β → Bytes}
  {buf : Bytes} {b : β} {s : TermState β}

theorem exec_writeFrom (ha : Accepts rawio serve Ok sent) (buf : Bytes) (n acc : Nat) (hok : Ok b)
    (hacc : acc ≤ buf.length) (hn : buf.length ≤ acc + n) :
    ∃ b', (rawio.writeFrom buf n acc).exec serve b = some ((buf.length : Int), b') ∧ Ok b' ∧
      sent b' = sent b ++ buf.drop acc := by
  induction n generalizing acc b with
  | zero =>
    obtain rfl : acc = buf.length := by omega
    exact ⟨b, rfl, hok, by simp⟩
  | succ n ih =>
    unfold IoIntf.writeFrom
    split
    · next hlt =>
      have hne : buf.drop acc ≠ [] := by
        intro h
        have := List.drop_eq_nil_iff.mp h
        omega
      obtain ⟨cnt, b₁, hwrite, hpos, hle, hok₁, hsent₁⟩ := ha.write b _ hok hne
      rw [List.length_drop] at hle
      obtain ⟨b', hrest, hok', hsent'⟩ := ih (acc + cnt) hok₁ (by omega) (by omega)
      refine ⟨b', ?_, hok', ?_⟩
      · rw [Prog.exec_bind_of_eq hwrite, if_neg (by omega), if_neg (by omega)]
        exact hrest
      · rw [hsent', hsent₁, List.append_assoc, ← List.drop_drop, List.take_append_drop]
    · next hge =>
      obtain rfl : acc = buf.length := by omega
      exact ⟨b, rfl, hok, by simp⟩

/-- `iowrite` sends everything. -/
theorem exec_iowrite (ha : Accepts rawio serve Ok sent) (hok : Ok b) (buf : Bytes) :
    ∃ b', (rawio.iowrite buf).exec serve b = some ((buf.length : Int), b') ∧ Ok b' ∧
      sent b' = sent b ++ buf := by
  obtain ⟨b', hexec, hok', hsent⟩ := exec_writeFrom ha buf buf.length 0 hok (Nat.zero_le _) (by omega)
  exact ⟨b', hexec, hok', hsent⟩

variable (serve Ok sent) in
/-- The code returns `r`, sends `out` and leaves `c'` in `cr_out`. -/
def Reports (p : Code β ι κ Int) (s : TermState β) (r : Int) (c' : Bool) (out : Bytes) : Prop :=
  ∃ b', p.exec ((rawLens β).serve serve) s = some (r, { s with raw := b', crOut := c' }) ∧ Ok b' ∧
    sent b' = sent s.raw ++ out

variable (serve Ok sent) in
/-- The code sends `out` and leaves `c'` in `cr_out`. -/
def Sends (p : Code β ι κ Int) (s : TermState β) (c' : Bool) (out : Bytes) : Prop :=
  ∃ r b', p.exec ((rawLens β).serve serve) s = some (r, { s with raw := b', crOut := c' }) ∧ Ok b' ∧
    sent b' = sent s.raw ++ out

variable {p q : Code β ι κ Int} {c c' : Bool} {out out₁ : Bytes} {r : Int}

/-- The code goes on with `q` after it has sent `out₁`. -/
theorem Reports.after {b₁ : β} (h : Reports serve Ok sent q { s with raw := b₁ } r c' out)
    (hexec : p.exec ((rawLens β).serve serve) s =
      q.exec ((rawLens β).serve serve) { s with raw := b₁ })
    (hsent : sent b₁ = sent s.raw ++ out₁) : Reports serve Ok sent p s r c' (out₁ ++ out) := by
  obtain ⟨b', hq, hok', hsent'⟩ := h
  refine ⟨b', hexec.trans hq, hok', ?_⟩
  rw [hsent', ← List.append_assoc, ← hsent]

theorem Reports.setCrOut (h : Reports serve Ok sent q { s with crOut := c } r c' out) :
    Reports serve Ok sent (do Term.setCrOut c; q) s r c' out := h

theorem Reports.get {f : TermState β → Code β ι κ Int}
    (h : Reports serve Ok sent (f s) s r c' out) :
    Reports serve Ok sent (Prog.get >>= f) s r c' out := h

/-- The bytes that `ioterm_write` skips without counting them: the `\n` that comes first, after a
`\r` that ended the buffer before. -/
def skipped (crOut : Bool) (buf : Bytes) : Nat := if crOut = true ∧ buf.head? = some LF then 1 else 0

theorem skipped_false (buf : Bytes) : skipped false buf = 0 := if_neg fun h => nomatch h.1

theorem skipped_of_ne {ch : UInt8} (h : ch ≠ LF) (crOut : Bool) (buf : Bytes) :
    skipped crOut (ch :: buf) = 0 :=
  if_neg fun hskip => h (Option.some.inj hskip.2)

/-- Writing a span that is not empty goes on behind it. -/
theorem exec_writeSpan (ha : Accepts rawio serve Ok sent) (hok : Ok s.raw) (buf : Bytes)
    (wp n acc : Nat) (hn : 0 < n) (hle : wp + n ≤ buf.length) (next : Nat → Nat → Code β ι κ Int) :
    ∃ b', (writeSpan rawio buf wp n acc next).exec ((rawLens β).serve serve) s =
        (next (wp + n) (acc + n)).exec ((rawLens β).serve serve) { s with raw := b' } ∧
      Ok b' ∧ sent b' = sent s.raw ++ slice buf wp n := by
  obtain ⟨b', hexec, hok', hsent⟩ := exec_iowrite ha hok (slice buf wp n)
  rw [length_slice hle] at hexec
  refine ⟨b', ?_, hok', hsent⟩
  unfold writeSpan
  rw [Prog.exec_bind_of_eq (exec_raw hexec), if_neg (by omega), if_neg (by omega)]
  rfl

theorem exec_putChar (ha : Accepts rawio serve Ok sent) (hok : Ok s.raw) (ch : UInt8)
    (next : Code β ι κ Int) :
    ∃ b', (putChar rawio ch next).exec ((rawLens β).serve serve) s =
        next.exec ((rawLens β).serve serve) { s with raw := b' } ∧
      Ok b' ∧ sent b' = sent s.raw ++ [ch] := by
  obtain ⟨b', hexec, hok', hsent⟩ := exec_iowrite ha hok [ch]
  refine ⟨b', ?_, hok', hsent⟩
  have hput : (rawio.ioputc ch).exec serve s.raw = some ((ch.toNat : Int), b') := by
    unfold IoIntf.ioputc
    rw [Prog.exec_bind_of_eq hexec]
    rfl
  unfold putChar
  rw [Prog.exec_bind_of_eq (exec_raw hput), if_neg (by omega)]

theorem reports_drain (ha : Accepts rawio serve Ok sent) (hok : Ok s.raw) {rp wp : Nat} (acc : Nat)
    (hwp : wp ≤ rp) (hrp : rp ≤ buf.length) :
    Reports serve Ok sent (drain rawio buf rp wp acc) s ((acc + (rp - wp) : Nat) : Int) s.crOut
      (slice buf wp (rp - wp)) := by
  unfold drain
  split
  · next hne =>
    obtain ⟨b', hexec, hok', hsent⟩ := exec_writeSpan ha hok buf wp (rp - wp) acc
      (by omega) (by omega) fun _ acc => return (acc : Int)
    exact ⟨b', hexec, hok', hsent⟩
  · next heq =>
    obtain rfl : rp = wp := by omega
    refine ⟨s.raw, ?_, hok, by simp⟩
    rw [Nat.sub_self, Nat.add_zero]
    rfl

/-- The bytes of a buffer from `rp` on. -/
theorem drop_eq_cons {rp : Nat} (h : rp < buf.length) :
    buf.drop rp = buf.getD rp 0 :: buf.drop (rp + 1) := by
  rw [List.drop_eq_getElem_cons h]
  simp [h]

/-- What has been scanned, with one more byte. -/
theorem slice_snoc {wp rp : Nat} (hwp : wp ≤ rp) (h : rp < buf.length) :
    slice buf wp (rp + 1 - wp) = slice buf wp (rp - wp) ++ [buf.getD rp 0] := by
  have hsplit := slice_append buf wp (rp - wp) 1
  rw [show rp - wp + 1 = rp + 1 - wp by omega, show wp + (rp - wp) = rp by omega] at hsplit
  rw [← hsplit]
  have hone : slice buf rp 1 = [buf.getD rp 0] := by
    unfold slice
    rw [drop_eq_cons h]
    rfl
  rw [hone]

/-- At the end of the buffer. -/
theorem reports_end (ha : Accepts rawio serve Ok sent) (hok : Ok s.raw) {rp wp : Nat} (acc : Nat)
    (hwp : wp ≤ rp) (hrp : rp = buf.length) :
    Reports serve Ok sent (drain rawio buf rp wp acc) s
      ((acc + (buf.length - wp) - skipped s.crOut (buf.drop rp) : Nat) : Int)
      (translate outStep s.crOut (buf.drop rp)).1
      (slice buf wp (rp - wp) ++ (translate outStep s.crOut (buf.drop rp)).2) := by
  have hnone : skipped s.crOut ([] : Bytes) = 0 := if_neg fun h => nomatch h.2
  rw [List.drop_eq_nil_of_le (by omega), translate_nil, List.append_nil, hnone, Nat.sub_zero, ← hrp]
  exact reports_drain ha hok acc hwp (by omega)

/-- **The loop of `ioterm_write`.** What has been scanned and not written is still to be sent, and
then what the machine makes of the rest. After a `\r` that ended a span nothing is left over, so
that a `\n` that follows in the next buffer is skipped by moving `wp`; it is not counted. -/
theorem reports_writeLoop (ha : Accepts rawio serve Ok sent) (buf : Bytes) (n rp wp acc : Nat)
    (hok : Ok s.raw) (hwp : wp ≤ rp) (hrp : rp ≤ buf.length) (hn : buf.length ≤ rp + n)
    (hcr : s.crOut = true → wp = rp) :
    Reports serve Ok sent (writeLoop rawio buf n rp wp acc) s
      ((acc + (buf.length - wp) - skipped s.crOut (buf.drop rp) : Nat) : Int)
      (translate outStep s.crOut (buf.drop rp)).1
      (slice buf wp (rp - wp) ++ (translate outStep s.crOut (buf.drop rp)).2) := by
  induction n generalizing rp wp acc s with
  | zero => exact reports_end ha hok acc hwp (by omega)
  | succ n ih =>
    unfold writeLoop
    by_cases hlt : rp < buf.length
    · rw [if_pos hlt, drop_eq_cons hlt, translate_cons]
      have hscanned := slice_snoc hwp hlt
      by_cases hCR : buf.getD rp 0 = CR
      · rw [if_pos hCR, skipped_of_ne (by rw [hCR]; decide), Nat.sub_zero]
        have hstep : outStep s.crOut (buf.getD rp 0) = (true, [CR, LF]) := by
          rw [hCR]
          cases s.crOut with
          | false => rfl
          | true => rfl
        rw [hstep]
        by_cases hLF : rp + 1 < buf.length ∧ buf.getD (rp + 1) 0 = LF
        · -- the buffer has `\r\n`
          rw [if_pos hLF, drop_eq_cons hLF.1, translate_cons, hLF.2]
          have hscanned' := slice_snoc (Nat.le_succ_of_le hwp) hLF.1
          have hrest := ih (s := { s with crOut := false }) (rp + 2) wp acc hok (by omega)
            (by omega) (by omega) nofun
          have hskip : outStep true LF = (false, []) := rfl
          rw [hscanned', hscanned, hCR, hLF.2, skipped_false, Nat.sub_zero] at hrest
          rw [hskip]
          refine Reports.setCrOut ?_
          simpa using hrest
        · -- a span that ends with `\r`, and then `\n`
          rw [if_neg hLF]
          obtain ⟨b₁, hspan, hok₁, hsent₁⟩ := exec_writeSpan ha hok buf wp (rp + 1 - wp) acc
            (by omega) (by omega) fun wp acc => putChar rawio LF do
              setCrOut true
              writeLoop rawio buf n (rp + 1) wp acc
          obtain ⟨b₂, hput, hok₂, hsent₂⟩ := exec_putChar ha (s := { s with raw := b₁ }) hok₁ LF do
            setCrOut true
            writeLoop rawio buf n (rp + 1) (wp + (rp + 1 - wp)) (acc + (rp + 1 - wp))
          have hrest := ih (s := { s with raw := b₂, crOut := true }) (rp + 1) (wp + (rp + 1 - wp))
            (acc + (rp + 1 - wp)) hok₂ (by omega) (by omega) (by omega) fun _ => by omega
          -- what follows is no `\n`
          have hnext : skipped true (buf.drop (rp + 1)) = 0 := by
            refine if_neg fun hskip => ?_
            obtain ⟨-, hhead⟩ := hskip
            by_cases hlt' : rp + 1 < buf.length
            · rw [drop_eq_cons hlt'] at hhead
              exact hLF ⟨hlt', Option.some.inj hhead⟩
            · rw [List.drop_eq_nil_of_le (by omega)] at hhead
              cases hhead
          have hlater := (hrest.setCrOut (s := { s with raw := b₂ })).after
            (s := { s with raw := b₁ }) hput hsent₂
          have hout := hlater.after (s := s) hspan hsent₁
          rw [hscanned, hCR, show rp + 1 - (wp + (rp + 1 - wp)) = 0 by omega, slice_zero, hnext,
            Nat.sub_zero, show acc + (rp + 1 - wp) + (buf.length - (wp + (rp + 1 - wp))) =
              acc + (buf.length - wp) by omega] at hout
          simpa using hout
      · rw [if_neg hCR]
        by_cases hLF : buf.getD rp 0 = LF
        · rw [if_pos hLF, hLF]
          cases hcrOut : s.crOut with
          | true =>
            -- the `\n` of a `\r\n` that was cut in two
            have hskip : outStep true LF = (false, []) := rfl
            have hone : skipped true (LF :: buf.drop (rp + 1)) = 1 := rfl
            rw [hskip, hcr hcrOut, Nat.sub_self, slice_zero, hone]
            have hrest := ih (s := { s with crOut := false }) (rp + 1) (rp + 1) acc hok (by omega)
              (by omega) (by omega) nofun
            rw [Nat.sub_self, slice_zero, skipped_false,
              show acc + (buf.length - (rp + 1)) - 0 = acc + (buf.length - rp) - 1 by omega] at hrest
            refine Reports.get ?_
            rw [hcrOut, if_pos rfl]
            exact hrest.setCrOut
          | false =>
            have hstep : outStep false LF = (false, [CR, LF]) := rfl
            rw [hstep, skipped_false, Nat.sub_zero]
            refine Reports.get ?_
            rw [hcrOut, if_neg Bool.false_ne_true]
            dsimp only
            -- once `\r` is out, the `\n` waits at `rp`
            have hline : ∀ {b₁ : β} (acc : Nat), Ok b₁ →
                Reports serve Ok sent (putChar rawio CR do
                    setCrOut false
                    writeLoop rawio buf n (rp + 1) rp acc) { s with raw := b₁ }
                  ((acc + (buf.length - rp) : Nat) : Int)
                  (translate outStep false (buf.drop (rp + 1))).1
                  ([CR] ++ ([LF] ++ (translate outStep false (buf.drop (rp + 1))).2)) := by
              intro b₁ acc hok₁
              obtain ⟨b₂, hput, hok₂, hsent₂⟩ := exec_putChar ha (s := { s with raw := b₁ }) hok₁ CR do
                setCrOut false
                writeLoop rawio buf n (rp + 1) rp acc
              have hrest := ih (s := { s with raw := b₂, crOut := false }) (rp + 1) rp acc hok₂
                (by omega) (by omega) (by omega) nofun
              rw [slice_snoc (Nat.le_refl rp) hlt, Nat.sub_self, slice_zero, hLF, List.nil_append,
                skipped_false, Nat.sub_zero] at hrest
              exact (hrest.setCrOut (s := { s with raw := b₂ })).after (s := { s with raw := b₁ }) hput
                hsent₂
            by_cases hempty : wp = rp
            · rw [if_neg (not_not.mpr hempty), hempty, Nat.sub_self, slice_zero]
              exact hline acc hok
            · rw [if_pos hempty]
              obtain ⟨b₁, hspan, hok₁, hsent₁⟩ := exec_writeSpan ha hok buf wp (rp - wp) acc
                (by omega) (by omega) fun wp acc => putChar rawio CR do
                  setCrOut false
                  writeLoop rawio buf n (rp + 1) wp acc
              rw [show wp + (rp - wp) = rp by omega] at hspan
              have hout := (hline _ hok₁).after hspan hsent₁
              rwa [show acc + (rp - wp) + (buf.length - rp) = acc + (buf.length - wp) by omega] at hout
        · rw [if_neg hLF, outStep_other hCR hLF, skipped_of_ne hLF, Nat.sub_zero]
          have hrest := ih (s := { s with crOut := false }) (rp + 1) wp acc hok (by omega)
            (by omega) (by omega) nofun
          rw [hscanned, skipped_false, Nat.sub_zero] at hrest
          refine Reports.setCrOut ?_
          simpa using hrest
    · rw [if_neg hlt]
      exact reports_end ha hok acc hwp (by omega)

/-- **`ioterm_write`** sends what the machine makes of the buffer, and counts all of it but for a
`\n` that it skips. -/
theorem reports_iotermWrite (ha : Accepts rawio serve Ok sent) (hok : Ok s.raw) (buf : Bytes) :
    Reports serve Ok sent (iotermWrite rawio buf) s
      ((buf.length - skipped s.crOut buf : Nat) : Int) (translate outStep s.crOut buf).1
      (translate outStep s.crOut buf).2 := by
  have h := reports_writeLoop ha buf buf.length 0 0 0 hok (Nat.le_refl 0) (Nat.zero_le _)
    (by omega) fun _ => rfl
  rw [Nat.sub_self, slice_zero, List.drop_zero, List.nil_append, Nat.sub_zero, Nat.zero_add] at h
  exact h

theorem sends_iotermWrite (ha : Accepts rawio serve Ok sent) (hok : Ok s.raw) (buf : Bytes) :
    Sends serve Ok sent (iotermWrite rawio buf) s (translate outStep s.crOut buf).1
      (translate outStep s.crOut buf).2 :=
  ⟨_, reports_iotermWrite ha hok buf⟩

/-- **Terminal output is a stream function.** However the bytes are cut into buffers, what the
calls of `ioterm_write` send is what the machine makes of all of them, and `cr_out` is its state. -/
theorem ioterm_write_stream (ha : Accepts rawio serve Ok sent) (hok : Ok s.raw) (bufs : List Bytes) :
    ∃ rs s', (writeAll rawio bufs).exec ((rawLens β).serve serve) s = some (rs, s') ∧ Ok s'.raw ∧
      sent s'.raw = sent s.raw ++ (translate outStep s.crOut bufs.flatten).2 ∧
      s'.crOut = (translate outStep s.crOut bufs.flatten).1 := by
  induction bufs generalizing s with
  | nil => exact ⟨[], s, rfl, hok, (List.append_nil _).symm, rfl⟩
  | cons buf bufs ih =>
    obtain ⟨r, b₁, hexec, hok₁, hsent₁⟩ := sends_iotermWrite ha hok buf
    obtain ⟨rs, s', hrest, hok', hsent', hcr⟩ := ih (s := ⟨b₁, _, s.crIn⟩) hok₁
    refine ⟨r :: rs, s', ?_, hok', ?_, ?_⟩
    · unfold writeAll
      rw [Prog.exec_bind_of_eq hexec, Prog.exec_bind_of_eq hrest]
      rfl
    · rw [hsent', hsent₁, List.flatten_cons, translate_append, List.append_assoc]
    · rw [hcr, List.flatten_cons, translate_append]

end Writing

/-- A line that takes all that is written, and delivers what it is given to read. -/
structure Line where
  input : Bytes
  output : Bytes

def lineIo : IoIntf Line Unit Unit where
  read buf := do
    let s ← Prog.get
    Prog.modify fun s => { s with input := s.input.drop buf.length }
    return ((s.input.take buf.length).length, patch buf 0 (s.input.take buf.length))
  write buf := do
    Prog.modify fun s => { s with output := s.output ++ buf }
    return buf.length
  ctl _ arg := return (-ENOTSUP, arg)

/-- The line asks for no service. -/
def quietLine (_ : Line) : Option Line := none

theorem lineIo_accepts : Accepts lineIo quietLine (fun _ => True) Line.output where
  write b buf _ hne := ⟨buf.length, { b with output := b.output ++ buf }, rfl,
    List.length_pos_iff.mpr hne, Nat.le_refl _, trivial, by rw [List.take_length]⟩

/-- A CRLF that is cut in two between calls is sent as one. -/
theorem ioterm_write_stream_cut : ∃ rs s',
    (writeAll lineIo [[65, CR], [LF, 66]]).exec ((rawLens Line).serve quietLine)
        ⟨⟨[], []⟩, false, false⟩ = some (rs, s') ∧
      s'.raw.output = [65, CR, LF, 66] ∧ s'.crOut = false := by
  obtain ⟨rs, s', hexec, -, hsent, hcr⟩ := ioterm_write_stream lineIo_accepts
    (s := ⟨⟨[], []⟩, false, false⟩) trivial [[65, CR], [LF, 66]]
  exact ⟨rs, s', hexec, hsent, hcr⟩

/-! ## Reading -/

/-- The bytes of the buffer that the scan has put back, and those that it has not read, after it
has read the first `k` of `buf`. -/
structure Scanned (buf : Bytes) (c : Bool) (k : Nat) (t : Scan) : Prop where
  rp : t.rp = k
  wp : t.wp = (translate inStep c (buf.take k)).2.length
  crIn : t.crIn = (translate inStep c (buf.take k)).1
  length : t.buf.length = buf.length
  written : t.buf.take t.wp = (translate inStep c (buf.take k)).2
  unread : t.buf.drop k = buf.drop k

/-- The input machine puts out at most one byte for each. -/
theorem inStep_cases (c : Bool) (ch : UInt8) :
    inStep c ch = (false, []) ∨ ∃ c' ch', inStep c ch = (c', [ch']) := by
  unfold inStep
  split
  · split
    · exact Or.inr ⟨_, _, rfl⟩
    · exact Or.inr ⟨_, _, rfl⟩
  · split
    · exact Or.inr ⟨_, _, rfl⟩
    · split
      · exact Or.inl rfl
      · exact Or.inr ⟨_, _, rfl⟩

theorem length_translate_inStep (c : Bool) (bs : Bytes) :
    (translate inStep c bs).2.length ≤ bs.length := by
  induction bs generalizing c with
  | nil => simp
  | cons b bs ih =>
    have hstep : (inStep c b).2.length ≤ 1 := by
      obtain h | ⟨c', ch, h⟩ := inStep_cases c b
      · simp [h]
      · simp [h]
    have hrest := ih (inStep c b).1
    rw [translate_cons, List.length_append, List.length_cons]
    omega

/-- A round does what the machine does with the next byte. -/
theorem Scan.step_eq (t : Scan) :
    t.step =
      match inStep t.crIn (t.buf.getD t.rp 0) with
      | (c, []) => { t with rp := t.rp + 1, crIn := c }
      | (c, ch :: _) => { buf := t.buf.set t.wp ch, rp := t.rp + 1, wp := t.wp + 1, crIn := c } := by
  obtain ⟨buf, rp, wp, crIn⟩ := t
  unfold Scan.step Scan.put
  dsimp only
  generalize buf.getD rp 0 = ch
  by_cases hCR : ch = CR
  · cases crIn with
    | false => simp [inStep, hCR]
    | true => simp [inStep, hCR]
  · by_cases hLF : ch = LF
    · cases crIn with
      | false => simp [inStep, hCR]
      | true => simp [inStep, hLF, show LF ≠ CR by decide]
    · cases crIn with
      | false => simp [inStep, hCR]
      | true => simp [inStep, hCR, hLF]

/-- **The compaction.** After `k` rounds the buffer begins with what the machine makes of the first
`k` bytes, and the bytes that have not been read are as they were: `wp` never passes `rp`. -/
theorem scanned_iterate (buf : Bytes) (c : Bool) {k : Nat} (hk : k ≤ buf.length) :
    Scanned buf c k (Scan.step^[k] ⟨buf, 0, 0, c⟩) := by
  induction k with
  | zero => exact ⟨rfl, by simp, by simp, rfl, by simp, rfl⟩
  | succ k ih =>
    have h := ih (Nat.le_of_succ_le hk)
    rw [Function.iterate_succ_apply']
    generalize Scan.step^[k] ⟨buf, 0, 0, c⟩ = t at h
    have hnext : t.buf.getD k 0 = buf.getD k 0 := by
      have hunread := congrArg (fun l => l.getD 0 0) h.unread
      simpa [List.getD_eq_getElem?_getD, List.getElem?_drop] using hunread
    have htake : buf.take (k + 1) = buf.take k ++ [buf.getD k 0] := by
      rw [List.take_add_one]
      simp [show k < buf.length by omega]
    have hle := length_translate_inStep c (buf.take k)
    rw [List.length_take, Nat.min_eq_left (by omega)] at hle
    have hwp := h.wp
    have hlen := h.length
    rw [Scan.step_eq, h.crIn, h.rp, hnext]
    -- the byte gives nothing, or is put back behind what is there
    obtain hstep | ⟨c', ch, hstep⟩ :=
      inStep_cases (translate inStep c (buf.take k)).1 (buf.getD k 0)
    · rw [hstep]
      refine ⟨rfl, ?_, ?_, hlen, ?_, ?_⟩
      · rw [htake, translate_snoc, hstep, List.append_nil]
        exact hwp
      · rw [htake, translate_snoc, hstep]
      · rw [htake, translate_snoc, hstep, List.append_nil]
        exact h.written
      · show t.buf.drop (k + 1) = _
        rw [← List.drop_drop, h.unread, List.drop_drop]
    · rw [hstep]
      refine ⟨rfl, ?_, ?_, ?_, ?_, ?_⟩
      · rw [htake, translate_snoc, hstep, List.length_append, ← hwp]
        rfl
      · rw [htake, translate_snoc, hstep]
      · rw [List.length_set, hlen]
      · rw [htake, translate_snoc, hstep, ← h.written]
        dsimp only
        rw [List.take_add_one, List.take_set_of_le (Nat.le_refl _)]
        simp [show t.wp < t.buf.length by omega]
      · dsimp only
        rw [List.drop_set_of_lt (by omega), ← List.drop_drop, h.unread, List.drop_drop]

/-- `rawio` delivers at least one byte for a buffer that is not empty; `got` is all that it has
delivered. -/
structure Delivers (rawio : IoIntf β ι κ) (serve : β → Option β) (Ok : β → Prop) (got : β → Bytes) :
    Prop where
  read : ∀ b buf, Ok b → buf ≠ [] → ∃ data b',
    (rawio.read buf).exec serve b = some (((data.length : Int), patch buf 0 data), b') ∧
      data ≠ [] ∧ data.length ≤ buf.length ∧ Ok b' ∧ got b' = got b ++ data

/-- Without a `\r` before it, every byte is delivered. -/
theorem translate_inStep_ne_nil {data : Bytes} (h : data ≠ []) :
    (translate inStep false data).2 ≠ [] := by
  cases data with
  | nil => exact absurd rfl h
  | cons ch rest =>
    have hstep : (inStep false ch).2 ≠ [] := by
      unfold inStep
      dsimp only
      split <;> simp
    rw [translate_cons]
    simp [hstep]

/-- Bytes of which nothing is left are a `\n` after a `\r`. -/
theorem crIn_of_nothing_left {data : Bytes} {c : Bool} (h : data ≠ [])
    (hnil : (translate inStep c data).2 = []) : (translate inStep c data).1 = false := by
  cases data with
  | nil => exact absurd rfl h
  | cons ch rest =>
    rw [translate_cons] at hnil ⊢
    obtain ⟨hfirst, hrest⟩ := List.append_eq_nil_iff.mp hnil
    obtain hstep | ⟨c', ch', hstep⟩ := inStep_cases c ch
    · rw [hstep] at hrest ⊢
      by_cases hne : rest = []
      · rw [hne]
        rfl
      · exact absurd hrest (translate_inStep_ne_nil hne)
    · rw [hstep] at hfirst
      cases hfirst

section Reading

variable {rawio : IoIntf β ι κ} {serve : β → Option β} {Ok : β → Prop} {got : β → Bytes}
  {s : TermState β}

/-- A round of `ioterm_read` that gets `data`. -/
theorem exec_readRound {buf data : Bytes} {b' : β}
    (hread : (rawio.read buf).exec serve s.raw = some (((data.length : Int), patch buf 0 data), b'))
    (hle : data.length ≤ buf.length) (n : Nat) :
    ∃ buf', buf'.length = buf.length ∧
      (translate inStep s.crIn data).2.length ≤ buf.length ∧
      buf'.take (translate inStep s.crIn data).2.length = (translate inStep s.crIn data).2 ∧
      (readLoop rawio (n + 1) buf).exec ((rawLens β).serve serve) s =
        (if (translate inStep s.crIn data).2 = [] then readLoop rawio n buf'
          else return (((translate inStep s.crIn data).2.length : Int), buf')).exec
          ((rawLens β).serve serve)
          { s with raw := b', crIn := (translate inStep s.crIn data).1 } := by
  have hpatched : (patch buf 0 data).length = buf.length := length_patch (by omega)
  have hfirst : (patch buf 0 data).take data.length = data := slice_patch_self (Nat.zero_le _)
  have hscan := scanned_iterate (patch buf 0 data) s.crIn (k := data.length) (by omega)
  have hout := hscan.wp
  have hcr := hscan.crIn
  have hwritten := hscan.written
  rw [hfirst] at hout hcr hwritten
  have hshort := length_translate_inStep s.crIn data
  refine ⟨(Scan.step^[data.length] ⟨patch buf 0 data, 0, 0, s.crIn⟩).buf,
    hscan.length.trans hpatched, by omega, by rw [← hout, hwritten], ?_⟩
  conv_lhs => unfold readLoop
  rw [Prog.exec_bind_of_eq (exec_raw hread)]
  dsimp only
  rw [if_neg (by omega), Prog.exec_get_bind, Int.toNat_natCast]
  unfold setCrIn
  rw [Prog.exec_modify_bind, hcr, hout]
  simp only [List.length_eq_zero_iff]

/-- **`ioterm_read`** delivers what the machine makes of the bytes it has taken, in at most two
rounds. -/
theorem exec_iotermRead (hd : Delivers rawio serve Ok got) (hok : Ok s.raw) {buf : Bytes}
    (hbuf : buf ≠ []) {rounds : Nat} (hrounds : 2 ≤ rounds) :
    ∃ data b' cnt buf', (iotermRead rawio rounds buf).exec ((rawLens β).serve serve) s =
        some ((((cnt : Nat) : Int), buf'),
          { s with raw := b', crIn := (translate inStep s.crIn data).1 }) ∧
      Ok b' ∧ got b' = got s.raw ++ data ∧ 1 ≤ cnt ∧ cnt ≤ buf.length ∧
      returned (cnt, buf') = (translate inStep s.crIn data).2 := by
  obtain ⟨n, rfl⟩ := Nat.exists_eq_add_of_le' hrounds
  obtain ⟨data, b₁, hread₁, hne, hfits, hok₁, hgot₁⟩ := hd.read s.raw buf hok hbuf
  obtain ⟨buf₁, hlen₁, hle, htake, hexec⟩ := exec_readRound hread₁ hfits (n + 1)
  have hpos : ∀ {out : Bytes}, out ≠ [] → 1 ≤ out.length := fun h => List.length_pos_iff.mpr h
  unfold iotermRead
  by_cases hnil : (translate inStep s.crIn data).2 = []
  · -- nothing is left, and the next round begins without a `\r`
    rw [if_pos hnil] at hexec
    have hcr := crIn_of_nothing_left hne hnil
    have hbuf₁ : buf₁ ≠ [] := by
      rw [← List.length_pos_iff, hlen₁]
      exact hpos hbuf
    obtain ⟨data₂, b₂, hread₂, hne₂, hfits₂, hok₂, hgot₂⟩ := hd.read b₁ buf₁ hok₁ hbuf₁
    obtain ⟨buf₂, hlen₂, hle₂, htake₂, hexec₂⟩ := exec_readRound
      (s := { s with raw := b₁, crIn := (translate inStep s.crIn data).1 }) hread₂ hfits₂ n
    dsimp only at hexec₂ htake₂ hle₂
    rw [hcr] at hexec hexec₂ htake₂ hle₂
    have hne' := translate_inStep_ne_nil hne₂
    rw [if_neg hne'] at hexec₂
    refine ⟨data ++ data₂, b₂, _, buf₂, ?_, hok₂, ?_, hpos hne', by omega, ?_⟩
    · rw [hexec, hexec₂, translate_append, hcr]
      rfl
    · rw [hgot₂, hgot₁, List.append_assoc]
    · unfold returned
      rw [Int.toNat_natCast, htake₂, translate_append, hcr, hnil]
      rfl
  · rw [if_neg hnil] at hexec
    refine ⟨data, b₁, _, buf₁, hexec, hok₁, hgot₁, hpos hnil, hle, ?_⟩
    unfold returned
    rw [Int.toNat_natCast, htake]

/-- **Terminal input is a stream function.** However `rawio` cuts its bytes, what the calls of
`ioterm_read` deliver is what the machine makes of the bytes that they have taken, and each of
them delivers at least one byte and at most as many as its buffer has. While the buffer is
compacted, the bytes that have not been read stay as they are. -/
theorem ioterm_read_stream (hd : Delivers rawio serve Ok got) (hok : Ok s.raw) (bufs : List Bytes)
    (hbufs : ∀ buf ∈ bufs, buf ≠ []) {rounds : Nat} (hrounds : 2 ≤ rounds) :
    (∃ rs s' data, (readAll rawio rounds bufs).exec ((rawLens β).serve serve) s = some (rs, s') ∧
      Ok s'.raw ∧ got s'.raw = got s.raw ++ data ∧
      (rs.map returned).flatten = (translate inStep s.crIn data).2 ∧
      s'.crIn = (translate inStep s.crIn data).1 ∧
      List.Forall₂ (fun buf r => 1 ≤ r.1 ∧ r.1 ≤ buf.length) bufs rs) ∧
    ∀ buf c k, k ≤ buf.length →
      (Scan.step^[k] ⟨buf, 0, 0, c⟩).rp = k ∧ (Scan.step^[k] ⟨buf, 0, 0, c⟩).wp ≤ k ∧
        (Scan.step^[k] ⟨buf, 0, 0, c⟩).buf.drop k = buf.drop k := by
  constructor
  · induction bufs generalizing s with
    | nil => exact ⟨[], s, [], rfl, hok, (List.append_nil _).symm, rfl, rfl, List.Forall₂.nil⟩
    | cons buf bufs ih =>
      obtain ⟨data, b₁, cnt, buf', hexec, hok₁, hgot₁, hpos, hle, hreturned⟩ :=
        exec_iotermRead hd hok (hbufs buf List.mem_cons_self) hrounds
      obtain ⟨rs, s', data', hrest, hok', hgot', hflat, hcr, hall⟩ :=
        ih (s := { s with raw := b₁, crIn := (translate inStep s.crIn data).1 }) hok₁
          fun buf hmem => hbufs buf (List.mem_cons_of_mem _ hmem)
      refine ⟨((cnt : Int), buf') :: rs, s', data ++ data', ?_, hok', ?_, ?_, ?_, ?_⟩
      · unfold readAll
        rw [Prog.exec_bind_of_eq hexec, Prog.exec_bind_of_eq hrest]
        rfl
      · rw [hgot', hgot₁, List.append_assoc]
      · rw [List.map_cons, List.flatten_cons, hreturned, hflat, translate_append]
      · rw [hcr, translate_append]
      · exact List.Forall₂.cons ⟨by omega, by omega⟩ hall
  · intro buf c k hk
    have h := scanned_iterate buf c hk
    have hle := length_translate_inStep c (buf.take k)
    rw [List.length_take, ← h.wp] at hle
    exact ⟨h.rp, by omega, h.unread⟩

end Reading

/-- Keys that arrive one by one, CR and LF in turn; the state counts them. -/
def keyIo : IoIntf Nat Unit Unit where
  read buf := do
    let n ← Prog.get
    Prog.modify (· + 1)
    return (1, patch buf 0 [if n % 2 = 0 then CR else LF])
  write _ := return -ENOTSUP
  ctl _ arg := return (-ENOTSUP, arg)

def keys (n : Nat) : Bytes := (List.range n).map fun i => if i % 2 = 0 then CR else LF

theorem keyIo_delivers : Delivers keyIo (fun _ => none) (fun _ => True) keys where
  read n buf _ hne := by
    refine ⟨[if n % 2 = 0 then CR else LF], n + 1, rfl, nofun, List.length_pos_iff.mpr hne, trivial, ?_⟩
    unfold keys
    rw [List.range_succ, List.map_append]
    rfl

/-- Two calls that get CR and LF one by one. The second one reads on, and takes the next CR. -/
theorem ioterm_read_stream_keys : ∃ rs s' data,
    (readAll keyIo 2 [[0], [0]]).exec ((rawLens Nat).serve fun _ => none) ⟨0, false, false⟩ =
        some (rs, s') ∧
      keys s'.raw = data ∧ (rs.map returned).flatten = (translate inStep false data).2 := by
  obtain ⟨⟨rs, s', data, hexec, -, hgot, hflat, -⟩, -⟩ := ioterm_read_stream keyIo_delivers
    (s := ⟨0, false, false⟩) trivial [[0], [0]] (by decide) (Nat.le_refl 2)
  exact ⟨rs, s', data, hexec, hgot, hflat⟩

/-! ## There and back -/

/-- What a new terminal sends for `s`. -/
def sentFor (s : Bytes) : Bytes :=
  match (iotermWrite lineIo s).exec ((rawLens Line).serve quietLine) ⟨⟨[], []⟩, false, false⟩ with
  | none => []
  | some (_, t) => t.raw.output

/-- What a new terminal delivers for the raw bytes `r`, to a buffer that holds them all; for no
bytes at all it would wait. -/
def deliveredFor (r : Bytes) : Bytes :=
  match (iotermRead lineIo 2 (List.replicate r.length 0)).exec ((rawLens Line).serve quietLine)
    ⟨⟨r, []⟩, false, false⟩ with
  | none => []
  | some (x, _) => returned x

/-- Every line ending, CR, LF or CRLF, as one newline. -/
def oneNewline : Bytes → Bytes
  | [] => []
  | ch :: rest =>
    if ch = CR then
      match rest with
      | [] => [LF]
      | next :: rest' => LF :: if next = LF then oneNewline rest' else oneNewline (next :: rest')
    else ch :: oneNewline rest

theorem sentFor_eq (s : Bytes) : sentFor s = (translate outStep false s).2 := by
  obtain ⟨r, b, hexec, -, hsent⟩ :=
    sends_iotermWrite lineIo_accepts (s := ⟨⟨[], []⟩, false, false⟩) trivial s
  unfold sentFor
  rw [hexec]
  exact hsent

theorem deliveredFor_eq (r : Bytes) : deliveredFor r = (translate inStep false r).2 := by
  by_cases hne : r = []
  · rw [hne]
    rfl
  · have hread : (lineIo.read (List.replicate r.length 0)).exec quietLine ⟨r, []⟩ =
        some (((r.length : Int), patch (List.replicate r.length 0) 0 r), ⟨[], []⟩) := by
      have hlen : (List.replicate r.length (0 : UInt8)).length = r.length := List.length_replicate
      show some (((((r.take (List.replicate r.length (0 : UInt8)).length).length : Nat) : Int),
        patch _ 0 (r.take (List.replicate r.length (0 : UInt8)).length)),
        Line.mk (r.drop (List.replicate r.length (0 : UInt8)).length) []) = _
      rw [hlen, List.take_length, List.drop_length]
    obtain ⟨buf', -, -, htake, hexec⟩ := exec_readRound (s := (⟨⟨r, []⟩, false, false⟩ : TermState Line)) hread
      (Nat.le_of_eq List.length_replicate.symm) 1
    rw [if_neg (translate_inStep_ne_nil hne)] at hexec
    unfold deliveredFor iotermRead
    rw [hexec]
    exact htake

/-- The output machine always finishes a line ending, and has put out a newline for the `\r` that
it remembers: the input machine remembers it as well. -/
theorem in_after_out (s : Bytes) :
    (translate inStep false (translate outStep false s).2).2 = (translate inStep false s).2 := by
  refine translate_translate (fun crOut crIn c => crIn = false ∧ crOut = c) ?_ ⟨rfl, rfl⟩ s
  rintro crOut crIn c ch ⟨rfl, rfl⟩
  by_cases hCR : ch = CR
  · subst hCR
    cases crOut with
    | false => exact ⟨rfl, rfl, rfl⟩
    | true => exact ⟨rfl, rfl, rfl⟩
  · by_cases hLF : ch = LF
    · subst hLF
      cases crOut with
      | false => exact ⟨rfl, rfl, rfl⟩
      | true => exact ⟨rfl, rfl, rfl⟩
    · rw [outStep_other hCR hLF, inStep_other hCR hLF, translate_cons, inStep_other hCR hLF]
      exact ⟨rfl, rfl, rfl⟩

theorem out_after_out (s : Bytes) :
    (translate outStep false (translate outStep false s).2).2 = (translate outStep false s).2 := by
  refine translate_translate (fun crOut c crOut' => c = false ∧ crOut = crOut') ?_ ⟨rfl, rfl⟩ s
  rintro crOut c crOut' ch ⟨rfl, rfl⟩
  by_cases hCR : ch = CR
  · subst hCR
    cases crOut with
    | false => exact ⟨rfl, rfl, rfl⟩
    | true => exact ⟨rfl, rfl, rfl⟩
  · by_cases hLF : ch = LF
    · subst hLF
      cases crOut with
      | false => exact ⟨rfl, rfl, rfl⟩
      | true => exact ⟨rfl, rfl, rfl⟩
    · rw [outStep_other hCR hLF, translate_cons, outStep_other hCR hLF]
      exact ⟨rfl, rfl, rfl⟩

/-- After a `\r` the machine does as without it, but for the `\n` that belongs to it. -/
theorem translate_inStep_true (ch : UInt8) (rest : Bytes) :
    (translate inStep true (ch :: rest)).2 =
      if ch = LF then (translate inStep false rest).2 else (translate inStep false (ch :: rest)).2 := by
  by_cases hCR : ch = CR
  · subst hCR
    rfl
  · by_cases hLF : ch = LF
    · subst hLF
      rfl
    · rw [if_neg hLF, translate_cons, translate_cons, inStep_other hCR hLF, inStep_other hCR hLF]

theorem in_eq_oneNewline (s : Bytes) : (translate inStep false s).2 = oneNewline s := by
  fun_induction oneNewline s with
  | case1 => rfl
  | case2 => rfl
  | case3 next rest ihSkip ih =>
    show LF :: (translate inStep true (next :: rest)).2 = _
    rw [translate_inStep_true, ihSkip, ih]
  | case4 ch rest hCR ih =>
    have hstep : inStep false ch = (false, [ch]) := if_neg hCR
    rw [translate_cons, hstep, ih]
    rfl

/-- **Output and input normalisation agree.** -/
theorem ioterm_there_and_back (s : Bytes) :
    deliveredFor (sentFor s) = deliveredFor s ∧ sentFor (sentFor s) = sentFor s ∧
      deliveredFor (sentFor s) = oneNewline s := by
  simp only [sentFor_eq, deliveredFor_eq]
  refine ⟨in_after_out s, out_after_out s, ?_⟩
  rw [in_after_out, in_eq_oneNewline]

end Term

end RiscvKernel
