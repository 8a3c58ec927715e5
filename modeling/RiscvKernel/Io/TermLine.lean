import RiscvKernel.Io.TermCount

/-!
# Line input from a terminal

`iogetc` and `ioterm_getsn`: a line is edited in the caller's buffer while its characters are
echoed to `rawio`. What is read comes from `ioterm_read`, one character at a time.

* `Source`: a `rawio` that delivers the bytes that are left and then reports the end of the file,
  or errors. It takes what is written to it.
* `exec_getsnLoop`: up to the newline the code folds `edit` over the characters. The character that
  it takes for the escape key is `[` (`line_editing_exact_iff`).
* `terminal_input_ends_iff`: at the end of its source `ioterm_read` comes back with an error only,
  and `ioterm_getsn` not at all, or with a line.
-/

namespace RiscvKernel

open Lib

/-- `iogetc` -/
def IoIntf.iogetc {β ι κ : Type} (io : IoIntf β ι κ) : Prog β ι κ Int := do
  let (rlen, c) ← io.read [0]
  if rlen < 0 then return rlen
  else if rlen = 0 then return (- EIO)
  else return (c.getD 0 0).toNat

/-- An `int` that is stored in a `char`, which is unsigned on this machine. -/
def toChar (x : Int) : UInt8 := UInt8.ofNat (x % 256).toNat

namespace Term

variable {β ι κ : Type}

/-- `'\133'`, which the comment in the source calls the escape. -/
def ESC_CASE : UInt8 := 91

/-- The code of the escape key. -/
def ESC : UInt8 := 27

def BEL : UInt8 := 7
def BS : UInt8 := 8
def DEL : UInt8 := 127
def SPACE : UInt8 := 32

/-- The caller's buffer with the variables `p` and `n`. -/
structure Edit where
  buf : Bytes
  p : Nat
  n : Nat

/-- `ioputc(iot->rawio, ch)`; an error makes the caller return `NULL`. -/
def echo (rawio : IoIntf β ι κ) (ch : UInt8) (buf : Bytes) (next : Code β ι κ (Bool × Bytes)) :
    Code β ι κ (Bool × Bytes) := do
  let result ← (rawio.ioputc ch).zoom (rawLens β)
  if result < 0 then return (false, buf) else next

/-- The `switch` of `ioterm_getsn` on the character `c`; `next` is the next round of the loop. The
result is whether the buffer or `NULL` is returned, and the buffer. A store outside the buffer is a
crash. -/
def getsnKey (rawio : IoIntf β ι κ) (c : UInt8) (e : Edit)
    (next : Edit → Code β ι κ (Bool × Bytes)) : Code β ι κ (Bool × Bytes) :=
  if c = ESC_CASE then do
    setCrIn false
    next e
  else if c = CR ∨ c = LF then
    echo rawio CR e.buf <| echo rawio LF e.buf <|
      if e.p < e.buf.length then return (true, e.buf.set e.p 0) else .crash
  else if c = BS ∨ c = DEL then
    if e.p ≠ 0 then
      let e := { e with p := e.p - 1, n := e.n + 1 }
      echo rawio BS e.buf <| echo rawio SPACE e.buf <| echo rawio BS e.buf <| next e
    else echo rawio BEL e.buf <| next e
  else if 1 < e.n then do
    let result ← (rawio.ioputc c).zoom (rawLens β)
    if e.p < e.buf.length then
      let e := { buf := e.buf.set e.p c, p := e.p + 1, n := e.n - 1 : Edit }
      if result < 0 then return (false, e.buf) else next e
    else .crash
  else echo rawio BEL e.buf <| next e

/-- The loop of `ioterm_getsn`, for at most `fuel` characters. -/
def getsnLoop (rawio : IoIntf β ι κ) (rounds : Nat) : Nat → Edit → Code β ι κ (Bool × Bytes)
  | 0, _ => .crash
  | fuel + 1, e => do
    let c ← (ops rawio rounds).iogetc
    getsnKey rawio (toChar c) e (getsnLoop rawio rounds fuel)

/-- `ioterm_getsn` with a buffer of `n` bytes. -/
def iotermGetsn (rawio : IoIntf β ι κ) (rounds fuel : Nat) (buf : Bytes) :
    Code β ι κ (Bool × Bytes) :=
  getsnLoop rawio rounds fuel ⟨buf, 0, buf.length⟩

/-- What a key does to a line of `cap` characters at most, if `esc` is the escape key. -/
def edit (esc : UInt8) (cap : Nat) (line : Bytes) (ch : UInt8) : Bytes :=
  if ch = esc then line
  else if ch = BS ∨ ch = DEL then line.dropLast
  else if line.length < cap then line ++ [ch]
  else line

/-- What is echoed for it: the character, an erasure or a beep. -/
def echoOf (esc : UInt8) (cap : Nat) (line : Bytes) (ch : UInt8) : Bytes :=
  if ch = esc then []
  else if ch = BS ∨ ch = DEL then if line = [] then [BEL] else [BS, SPACE, BS]
  else if line.length < cap then [ch]
  else [BEL]

/-! ## Sources that end -/

/-- `rawio` delivers the bytes that are `left`, at least one at a time, and then returns `code`: 0
from then on, or errors from then on. To read no bytes returns 0. It takes at least one byte of what
is written; `sent` is all that it has taken. -/
structure Source (rawio : IoIntf β ι κ) (serve : β → Option β) (Ok : β → Prop) (left : β → Bytes)
    (code : β → Int) (sent : β → Bytes) : Prop where
  code_le : ∀ b, Ok b → code b ≤ 0
  read : ∀ b buf, Ok b → buf ≠ [] → left b ≠ [] → ∃ data b',
    (rawio.read buf).exec serve b = some (((data.length : Int), patch buf 0 data), b') ∧
      data ≠ [] ∧ data.length ≤ buf.length ∧ Ok b' ∧ left b = data ++ left b' ∧
      (code b' = 0 ↔ code b = 0) ∧ sent b' = sent b
  ended : ∀ b buf, Ok b → buf ≠ [] → left b = [] → ∃ buf' b',
    (rawio.read buf).exec serve b = some ((code b, buf'), b') ∧ buf'.length = buf.length ∧
      Ok b' ∧ left b' = [] ∧ (code b' = 0 ↔ code b = 0) ∧ sent b' = sent b
  read_nil : ∀ b, Ok b → ∃ b', (rawio.read []).exec serve b = some ((0, []), b') ∧ Ok b'
  write : ∀ b buf, Ok b → buf ≠ [] → ∃ cnt b',
    (rawio.write buf).exec serve b = some (((cnt : Nat) : Int), b') ∧ 0 < cnt ∧ cnt ≤ buf.length ∧
      Ok b' ∧ left b' = left b ∧ (code b' = 0 ↔ code b = 0) ∧ sent b' = sent b ++ buf.take cnt

/-- The characters that a terminal has still to deliver. -/
def input (left : β → Bytes) (s : TermState β) : Bytes := (translate inStep s.crIn (left s.raw)).2

section Reading

variable {rawio : IoIntf β ι κ} {serve : β → Option β} {Ok : β → Prop} {left : β → Bytes}
  {code : β → Int} {sent : β → Bytes} {s s' : TermState β} {buf : Bytes}

/-- A terminal over a source that is in order, with `out` sent since `s`. -/
structure After (Ok : β → Prop) (code : β → Int) (sent : β → Bytes) (s s' : TermState β)
    (out : Bytes) : Prop where
  ok : Ok s'.raw
  code : code s'.raw = 0 ↔ code s.raw = 0
  sent : sent s'.raw = sent s.raw ++ out

theorem After.trans {s'' : TermState β} {out out' : Bytes} (h : After Ok code sent s s' out)
    (h' : After Ok code sent s' s'' out') : After Ok code sent s s'' (out ++ out') where
  ok := h'.ok
  code := h'.code.trans h.code
  sent := by rw [h'.sent, h.sent, List.append_assoc]

theorem input_eq_nil (h : left s.raw = []) : input left s = [] := by
  unfold input
  rw [h]
  rfl

/-- Without a `\r` before it, all that is left is delivered. -/
theorem left_eq_nil (hcr : s.crIn = false) (h : input left s = []) : left s.raw = [] := by
  by_contra hne
  unfold input at h
  rw [hcr] at h
  exact translate_inStep_ne_nil hne h

/-- After a `\r` the last character that was delivered is a newline. -/
theorem getLast_of_crIn {c : Bool} {data : Bytes} (hne : data ≠ [])
    (h : (translate inStep c data).1 = true) : (translate inStep c data).2.getLast? = some LF := by
  obtain ⟨front, ch, rfl⟩ := (List.eq_nil_or_concat data).resolve_left hne
  rw [List.concat_eq_append, translate_snoc] at h ⊢
  have hCR : ch = CR := by
    unfold inStep at h
    grind
  subst hCR
  cases (translate inStep c front).1 <;> simp [inStep]

/-- A round of `ioterm_read` that gets some bytes. It delivers `out`, the first part of what the
terminal has to deliver. -/
theorem exec_round (hsrc : Source rawio serve Ok left code sent) (hok : Ok s.raw)
    (hbuf : buf ≠ []) (hleft : left s.raw ≠ []) (n : Nat) :
    ∃ out buf₁ s₁, buf₁.length = buf.length ∧ input left s = out ++ input left s₁ ∧
      out.length ≤ buf.length ∧
      buf₁.take out.length = out ∧ After Ok code sent s s₁ [] ∧
      (s₁.crIn = true → out.getLast? = some LF) ∧ (s.crIn = false → out ≠ []) ∧
      (readLoop rawio (n + 1) buf).exec ((rawLens β).serve serve) s =
        (if out = [] then readLoop rawio n buf₁ else return ((out.length : Int), buf₁)).exec
          ((rawLens β).serve serve) s₁ := by
  obtain ⟨data, b', hread, hne, hfits, hok', hdata, hcode, hsent⟩ := hsrc.read s.raw buf hok hbuf hleft
  obtain ⟨buf₁, hlen, hle, htake, hexec⟩ := exec_readRound hread hfits n
  refine ⟨(translate inStep s.crIn data).2, buf₁,
    { s with raw := b', crIn := (translate inStep s.crIn data).1 }, hlen, ?_, hle, htake,
    ⟨hok', hcode, ?_⟩, getLast_of_crIn hne, fun hcr => ?_, hexec⟩
  · unfold input
    rw [hdata, translate_append]
  · rw [List.append_nil]
    exact hsent
  · rw [hcr]
    exact translate_inStep_ne_nil hne

theorem crIn_of_nothing {out : Bytes} (h : s.crIn = true → out.getLast? = some LF)
    (hout : out = []) : s.crIn = false := by
  cases hcr : s.crIn with
  | false => rfl
  | true =>
    rw [hout] at h
    cases h hcr

theorem ne_nil_of_length {buf₁ : Bytes} (h : buf₁.length = buf.length) (hbuf : buf ≠ []) :
    buf₁ ≠ [] := by
  rw [← List.length_pos_iff, h]
  exact List.length_pos_iff.mpr hbuf

/-- A call of `ioterm_read` with something to deliver. -/
theorem exec_read_some (hsrc : Source rawio serve Ok left code sent) (hok : Ok s.raw)
    (hbuf : buf ≠ []) (hinput : input left s ≠ []) (n : Nat) :
    ∃ cnt buf' s', (iotermRead rawio (n + 2) buf).exec ((rawLens β).serve serve) s =
        some ((((cnt : Nat) : Int), buf'), s') ∧ 0 < cnt ∧ cnt ≤ buf.length ∧
      buf'.length = buf.length ∧ input left s = buf'.take cnt ++ input left s' ∧
      After Ok code sent s s' [] ∧ (s'.crIn = true → (buf'.take cnt).getLast? = some LF) := by
  obtain ⟨out, buf₁, s₁, hlen, hin, hle, htake, hafter, hcrIn, -, hexec⟩ :=
    exec_round hsrc hok hbuf (fun h => hinput (input_eq_nil h)) (n + 1)
  by_cases hout : out = []
  · -- the round took a `\n` after a `\r`, and the next one delivers
    rw [if_pos hout] at hexec
    rw [hout, List.nil_append] at hin
    rw [hin] at hinput
    obtain ⟨out₂, buf₂, s₂, hlen₂, hin₂, hle₂, htake₂, hafter₂, hcrIn₂, hne, hexec₂⟩ :=
      exec_round hsrc hafter.ok (ne_nil_of_length hlen hbuf) (fun h => hinput (input_eq_nil h)) n
    have hout₂ := hne (crIn_of_nothing hcrIn hout)
    rw [if_neg hout₂] at hexec₂
    have hpos := List.length_pos_iff.mpr hout₂
    exact ⟨out₂.length, buf₂, s₂, hexec.trans hexec₂, hpos, by omega, by omega,
      by rw [hin, htake₂, hin₂], hafter.trans hafter₂, by rwa [htake₂]⟩
  · rw [if_neg hout] at hexec
    exact ⟨out.length, buf₁, s₁, hexec, List.length_pos_iff.mpr hout, hle, hlen,
      by rw [htake, hin], hafter, by rwa [htake]⟩

/-- A round of `ioterm_read` at the end of the source. -/
theorem exec_round_ended (hsrc : Source rawio serve Ok left code sent) (hok : Ok s.raw)
    (hbuf : buf ≠ []) (hleft : left s.raw = []) (n : Nat) :
    ∃ buf₁ s₁, buf₁.length = buf.length ∧ left s₁.raw = [] ∧ After Ok code sent s s₁ [] ∧
      (readLoop rawio (n + 1) buf).exec ((rawLens β).serve serve) s =
        (if code s.raw < 0 then return (code s.raw, buf₁) else readLoop rawio n buf₁).exec
          ((rawLens β).serve serve) s₁ := by
  obtain ⟨buf₁, b', hread, hlen, hok', hleft', hcode, hsent⟩ := hsrc.ended s.raw buf hok hbuf hleft
  refine ⟨buf₁, { s with raw := b' }, hlen, hleft', ⟨hok', hcode, by rw [List.append_nil]; exact hsent⟩, ?_⟩
  conv_lhs => unfold readLoop
  rw [Prog.exec_bind_of_eq (exec_raw hread)]
  dsimp only
  by_cases hneg : code s.raw < 0
  · rw [if_pos hneg, if_pos hneg]
  · have hzero : code s.raw = 0 := by
      have := hsrc.code_le s.raw hok
      omega
    rw [if_neg hneg, if_neg hneg, hzero]
    rfl

/-- If nothing is left to deliver, the source ends in this round or the next one. -/
theorem ended_or_next (hsrc : Source rawio serve Ok left code sent) (hok : Ok s.raw)
    (hbuf : buf ≠ []) (hinput : input left s = []) (n : Nat) :
    left s.raw = [] ∨ ∃ buf₁ s₁, buf₁.length = buf.length ∧ left s₁.raw = [] ∧
      After Ok code sent s s₁ [] ∧
      (readLoop rawio (n + 1) buf).exec ((rawLens β).serve serve) s =
        (readLoop rawio n buf₁).exec ((rawLens β).serve serve) s₁ := by
  refine or_iff_not_imp_left.mpr fun hleft => ?_
  obtain ⟨out, buf₁, s₁, hlen, hin, -, -, hafter, hcrIn, -, hexec⟩ :=
    exec_round hsrc hok hbuf hleft n
  obtain ⟨rfl, hin₁⟩ := List.append_eq_nil_iff.mp (hin.symm.trans hinput)
  rw [if_pos rfl] at hexec
  exact ⟨buf₁, s₁, hlen, left_eq_nil (crIn_of_nothing hcrIn rfl) hin₁, hafter, hexec⟩

/-- With nothing to deliver and an error at the end, `ioterm_read` returns the error. -/
theorem exec_read_error (hsrc : Source rawio serve Ok left code sent) (hok : Ok s.raw)
    (hbuf : buf ≠ []) (hinput : input left s = []) (hcode : code s.raw < 0) (n : Nat) :
    ∃ r buf' s', (iotermRead rawio (n + 2) buf).exec ((rawLens β).serve serve) s =
        some ((r, buf'), s') ∧ r < 0 ∧ left s'.raw = [] ∧ After Ok code sent s s' [] := by
  have hlast : ∀ {s : TermState β} {buf : Bytes} (n : Nat), Ok s.raw → buf ≠ [] → left s.raw = [] →
      code s.raw < 0 → ∃ r buf' s', (readLoop rawio (n + 1) buf).exec ((rawLens β).serve serve) s =
        some ((r, buf'), s') ∧ r < 0 ∧ left s'.raw = [] ∧ After Ok code sent s s' [] := by
    intro s buf n hok hbuf hleft hcode
    obtain ⟨buf₁, s₁, -, hleft₁, hafter, hexec⟩ := exec_round_ended hsrc hok hbuf hleft n
    rw [if_pos hcode] at hexec
    exact ⟨_, _, _, hexec, hcode, hleft₁, hafter⟩
  obtain hleft | ⟨buf₁, s₁, hlen, hleft₁, hafter, hexec⟩ := ended_or_next hsrc hok hbuf hinput (n + 1)
  · exact hlast (n + 1) hok hbuf hleft hcode
  · have hcode₁ : code s₁.raw < 0 := by
      have hle := hsrc.code_le s₁.raw hafter.ok
      have hne : code s₁.raw ≠ 0 := fun h => by
        have := hafter.code.mp h
        omega
      omega
    obtain ⟨r, buf₂, s₂, hexec₂, hr, hleft₂, hafter₂⟩ :=
      hlast n hafter.ok (ne_nil_of_length hlen hbuf) hleft₁ hcode₁
    exact ⟨r, buf₂, s₂, hexec.trans hexec₂, hr, hleft₂, hafter.trans hafter₂⟩

/-- With nothing to deliver and the end of the file, `ioterm_read` does not return. -/
theorem exec_read_eof (hsrc : Source rawio serve Ok left code sent) (hok : Ok s.raw)
    (hbuf : buf ≠ []) (hinput : input left s = []) (hcode : code s.raw = 0) (rounds : Nat) :
    (iotermRead rawio rounds buf).exec ((rawLens β).serve serve) s = none := by
  unfold iotermRead
  induction rounds generalizing s buf with
  | zero => rfl
  | succ n ih =>
    obtain hleft | ⟨buf₁, s₁, hlen, hleft₁, hafter, hexec⟩ := ended_or_next hsrc hok hbuf hinput n
    · obtain ⟨buf₁, s₁, hlen, hleft₁, hafter, hexec⟩ := exec_round_ended hsrc hok hbuf hleft n
      rw [hexec, if_neg (by omega)]
      exact ih hafter.ok (ne_nil_of_length hlen hbuf) (input_eq_nil hleft₁) (hafter.code.mpr hcode)
    · rw [hexec]
      exact ih hafter.ok (ne_nil_of_length hlen hbuf) (input_eq_nil hleft₁) (hafter.code.mpr hcode)

/-- To read nothing `ioterm_read` goes on for ever. -/
theorem exec_read_nil (hsrc : Source rawio serve Ok left code sent) (hok : Ok s.raw) (rounds : Nat) :
    (iotermRead rawio rounds []).exec ((rawLens β).serve serve) s = none := by
  unfold iotermRead
  induction rounds generalizing s with
  | zero => rfl
  | succ n ih =>
    obtain ⟨b', hread, hok'⟩ := hsrc.read_nil s.raw hok
    conv_lhs => unfold readLoop
    rw [Prog.exec_bind_of_eq (exec_raw hread)]
    exact ih (s := { s with raw := b' }) hok'

/-! ## One character -/

theorem toChar_toNat (ch : UInt8) : toChar (ch.toNat : Int) = ch := by
  unfold toChar
  have := ch.toNat_lt
  have hmod : ((ch.toNat : Int) % 256).toNat = ch.toNat := by omega
  rw [hmod]
  exact UInt8.ofNat_toNat

/-- A terminal delivers no `\r`. -/
theorem CR_not_mem_input : CR ∉ input left s := by
  unfold input
  generalize s.crIn = c
  induction left s.raw generalizing c with
  | nil => exact List.not_mem_nil
  | cons ch rest ih =>
    rw [translate_cons, List.mem_append, not_or]
    refine ⟨?_, ih _⟩
    have hLF : CR ≠ LF := by decide
    cases c <;> grind [inStep]

/-- `iogetc` takes the first of the characters that are to be delivered. -/
theorem exec_iogetc (hsrc : Source rawio serve Ok left code sent) (hok : Ok s.raw) {ch : UInt8}
    {rest : Bytes} (hin : input left s = ch :: rest) (n : Nat) :
    ∃ s', ((ops rawio (n + 2)).iogetc).exec ((rawLens β).serve serve) s =
        some ((ch.toNat : Int), s') ∧ input left s' = rest ∧ After Ok code sent s s' [] ∧
      (s'.crIn = true → ch = LF) := by
  obtain ⟨cnt, buf', s', hexec, hpos, hle, hlen, hinput, hafter, hcrIn⟩ :=
    exec_read_some hsrc hok (List.cons_ne_nil 0 []) (by rw [hin]; nofun) n
  obtain rfl : cnt = 1 := Nat.le_antisymm hle hpos
  obtain ⟨c, rfl⟩ := List.length_eq_one_iff.mp hlen
  rw [hin] at hinput
  obtain ⟨rfl, rfl⟩ := List.cons.inj hinput
  refine ⟨s', ?_, rfl, hafter, fun h => Option.some.inj (hcrIn h)⟩
  unfold IoIntf.iogetc
  rw [Prog.exec_bind_of_eq (p := (ops rawio (n + 2)).read [0]) hexec]
  rfl

/-- A read that comes back leaves the source in order. -/
theorem ok_of_readLoop (hsrc : Source rawio serve Ok left code sent) (hok : Ok s.raw)
    (hbuf : buf ≠ []) {rounds : Nat} {r : Int × Bytes}
    (h : (readLoop rawio rounds buf).exec ((rawLens β).serve serve) s = some (r, s')) : Ok s'.raw := by
  induction rounds generalizing s buf with
  | zero => cases h
  | succ n ih =>
    have hret : ∀ {x : Int × Bytes} {s₁ : TermState β}, Ok s₁.raw →
        (return x : Code β ι κ (Int × Bytes)).exec ((rawLens β).serve serve) s₁ = some (r, s') →
        Ok s'.raw := by
      intro x s₁ hok₁ hx
      obtain ⟨-, rfl⟩ := Prod.mk.inj (Option.some.inj hx)
      exact hok₁
    by_cases hleft : left s.raw = []
    · obtain ⟨buf₁, s₁, hlen, -, hafter, hexec⟩ := exec_round_ended hsrc hok hbuf hleft n
      rw [hexec] at h
      split at h
      · exact hret hafter.ok h
      · exact ih hafter.ok (ne_nil_of_length hlen hbuf) h
    · obtain ⟨out, buf₁, s₁, hlen, -, -, -, hafter, -, -, hexec⟩ := exec_round hsrc hok hbuf hleft n
      rw [hexec] at h
      split at h
      · exact ih hafter.ok (ne_nil_of_length hlen hbuf) h
      · exact hret hafter.ok h

theorem ok_of_iogetc (hsrc : Source rawio serve Ok left code sent) (hok : Ok s.raw) {rounds : Nat}
    {c : Int} (h : ((ops rawio rounds).iogetc).exec ((rawLens β).serve serve) s = some (c, s')) :
    Ok s'.raw := by
  unfold IoIntf.iogetc at h
  rw [Prog.exec_bind] at h
  obtain ⟨⟨⟨rlen, buf⟩, s₁⟩, hread, hret⟩ := Option.bind_eq_some_iff.mp h
  have hok₁ : Ok s₁.raw := ok_of_readLoop hsrc hok (List.cons_ne_nil 0 []) hread
  have hs : s₁ = s' := by
    revert hret
    dsimp only
    split
    · exact fun hret => (Prod.mk.inj (Option.some.inj hret)).2
    split
    · exact fun hret => (Prod.mk.inj (Option.some.inj hret)).2
    · exact fun hret => (Prod.mk.inj (Option.some.inj hret)).2
  exact hs ▸ hok₁

/-- What is sent does not touch what is to be read. -/
theorem exec_ioputc (hsrc : Source rawio serve Ok left code sent) (hok : Ok s.raw) (ch : UInt8) :
    ∃ s', ((rawio.ioputc ch).zoom (rawLens β)).exec ((rawLens β).serve serve) s =
        some ((ch.toNat : Int), s') ∧ input left s' = input left s ∧
      After Ok code sent s s' [ch] := by
  obtain ⟨cnt, b', hwrite, hpos, hle, hok', hleft, hcode, hsent⟩ := hsrc.write s.raw [ch] hok (by nofun)
  obtain rfl : cnt = 1 := Nat.le_antisymm hle hpos
  have hput : (rawio.ioputc ch).exec serve s.raw = some ((ch.toNat : Int), b') := by
    unfold IoIntf.ioputc
    rw [Prog.exec_bind_of_eq (IoIntf.exec_iowrite (List.length_pos_of_ne_nil (List.cons_ne_nil _ _))
      hwrite (Or.inr rfl))]
    rfl
  refine ⟨{ s with raw := b' }, exec_raw hput, ?_, hok', hcode, hsent⟩
  unfold input
  dsimp only
  rw [hleft]

theorem exec_echo (hsrc : Source rawio serve Ok left code sent) (hok : Ok s.raw) (ch : UInt8)
    (buf : Bytes) (next : Code β ι κ (Bool × Bytes)) :
    ∃ s', (echo rawio ch buf next).exec ((rawLens β).serve serve) s =
        next.exec ((rawLens β).serve serve) s' ∧ input left s' = input left s ∧
      After Ok code sent s s' [ch] := by
  obtain ⟨s', hexec, hin, hafter⟩ := exec_ioputc hsrc hok ch
  refine ⟨s', ?_, hin, hafter⟩
  unfold echo
  rw [Prog.exec_bind_of_eq hexec, if_neg (by omega)]

/-! ## Lines -/

/-- The line so far: it stands at the beginning of a buffer of `N` bytes, and `n` is what is left,
the terminating byte included. -/
structure Editing (e : Edit) (N : Nat) (line : Bytes) : Prop where
  length : e.buf.length = N
  p : e.p = line.length
  n : e.n + e.p = N
  pos : 1 ≤ e.n
  stored : e.buf.take e.p = line

variable {e : Edit} {N : Nat} {line : Bytes}

theorem Editing.backspace (h : Editing e N line) :
    Editing { e with p := e.p - 1, n := e.n + 1 } N line.dropLast ∨ line = [] := by
  obtain rfl | hne := eq_or_ne line []
  · exact Or.inr rfl
  · have hpos := List.length_pos_iff.mpr hne
    have hp := h.p
    have hn := h.n
    refine Or.inl ⟨h.length, ?_, ?_, Nat.le_add_left _ _, ?_⟩
    · show e.p - 1 = _
      rw [List.length_dropLast, hp]
    · show e.n + 1 + (e.p - 1) = N
      omega
    · show e.buf.take (e.p - 1) = _
      rw [List.dropLast_eq_take, ← h.stored, List.take_take, List.length_take, h.length]
      congr 1
      omega

theorem Editing.append (h : Editing e N line) (hroom : 1 < e.n) (ch : UInt8) :
    Editing { buf := e.buf.set e.p ch, p := e.p + 1, n := e.n - 1 } N (line ++ [ch]) := by
  have hn := h.n
  have hlen := h.length
  refine ⟨?_, ?_, ?_, ?_, ?_⟩
  · exact (List.length_set ..).trans h.length
  · show e.p + 1 = _
    rw [List.length_append, h.p]
    rfl
  · show e.n - 1 + (e.p + 1) = N
    omega
  · show 1 ≤ e.n - 1
    omega
  · show (e.buf.set e.p ch).take (e.p + 1) = _
    rw [List.take_add_one, List.take_set_of_le (Nat.le_refl _), h.stored]
    simp [show e.p < e.buf.length by omega]

/-- **One key.** The code edits the line as `edit` says, with `[` as the escape key. -/
theorem exec_getsnKey (hsrc : Source rawio serve Ok left code sent) (hok : Ok s.raw)
    (he : Editing e N line) {ch : UInt8} (hCR : ch ≠ CR) (hLF : ch ≠ LF)
    (next : Edit → Code β ι κ (Bool × Bytes)) :
    ∃ e' s', Editing e' N (edit ESC_CASE (N - 1) line ch) ∧
      (s.crIn = false → input left s' = input left s) ∧
      After Ok code sent s s' (echoOf ESC_CASE (N - 1) line ch) ∧
      (getsnKey rawio ch e next).exec ((rawLens β).serve serve) s =
        (next e').exec ((rawLens β).serve serve) s' := by
  unfold getsnKey edit echoOf
  by_cases hesc : ch = ESC_CASE
  · rw [if_pos hesc, if_pos hesc, if_pos hesc]
    refine ⟨e, { s with crIn := false }, he, fun hcr => ?_, ⟨hok, Iff.rfl, (List.append_nil _).symm⟩, rfl⟩
    unfold input
    rw [hcr]
  rw [if_neg hesc, if_neg (not_or.mpr ⟨hCR, hLF⟩), if_neg hesc, if_neg hesc]
  have hp := he.p
  by_cases hdel : ch = BS ∨ ch = DEL
  · rw [if_pos hdel, if_pos hdel, if_pos hdel]
    by_cases hline : line = []
    · -- nothing to remove
      rw [hline] at he hp ⊢
      have hp₀ : e.p = 0 := hp
      obtain ⟨s₁, hexec, hin, hafter⟩ := exec_echo hsrc hok BEL e.buf (next e)
      rw [if_neg (not_not.mpr hp₀), if_pos rfl]
      exact ⟨e, s₁, he, fun _ => hin, hafter, hexec⟩
    · have hpos := List.length_pos_iff.mpr hline
      have he' := he.backspace.resolve_right hline
      obtain ⟨s₁, hexec₁, hin₁, hafter₁⟩ := exec_echo hsrc hok BS e.buf
        (echo rawio SPACE e.buf <| echo rawio BS e.buf <| next { e with p := e.p - 1, n := e.n + 1 })
      obtain ⟨s₂, hexec₂, hin₂, hafter₂⟩ := exec_echo hsrc hafter₁.ok SPACE e.buf
        (echo rawio BS e.buf <| next { e with p := e.p - 1, n := e.n + 1 })
      obtain ⟨s₃, hexec₃, hin₃, hafter₃⟩ := exec_echo hsrc hafter₂.ok BS e.buf
        (next { e with p := e.p - 1, n := e.n + 1 })
      rw [if_neg hline, if_pos (by omega)]
      exact ⟨_, s₃, he', fun _ => hin₃.trans (hin₂.trans hin₁), hafter₁.trans (hafter₂.trans hafter₃),
        hexec₁.trans (hexec₂.trans hexec₃)⟩
  rw [if_neg hdel, if_neg hdel, if_neg hdel]
  have hn := he.n
  have hlen := he.length
  have hpos := he.pos
  by_cases hroom : 1 < e.n
  · obtain ⟨s₁, hexec, hin, hafter⟩ := exec_ioputc hsrc hok ch
    rw [if_pos hroom, if_pos (by omega), if_pos (by omega)]
    refine ⟨_, s₁, he.append hroom ch, fun _ => hin, hafter, ?_⟩
    rw [Prog.exec_bind_of_eq hexec, if_pos (by omega), if_neg (by omega)]
  · obtain ⟨s₁, hexec, hin, hafter⟩ := exec_echo hsrc hok BEL e.buf (next e)
    rw [if_neg hroom, if_neg (by omega), if_neg (by omega)]
    exact ⟨e, s₁, he, fun _ => hin, hafter, hexec⟩

/-- A newline ends the line. -/
theorem exec_getsnKey_newline (hsrc : Source rawio serve Ok left code sent) (hok : Ok s.raw)
    (he : Editing e N line) {ch : UInt8} (hch : ch = CR ∨ ch = LF)
    (next : Edit → Code β ι κ (Bool × Bytes)) :
    ∃ buf' s', (getsnKey rawio ch e next).exec ((rawLens β).serve serve) s =
        some ((true, buf'), s') ∧ buf'.length = N ∧ buf'.take (line.length + 1) = line ++ [0] ∧
      input left s' = input left s ∧ After Ok code sent s s' [CR, LF] := by
  have hp := he.p
  have hn := he.n
  have hlen := he.length
  have hpos := he.pos
  have hstore : e.p < e.buf.length := by omega
  obtain ⟨s₁, hexec₁, hin₁, hafter₁⟩ := exec_echo hsrc hok CR e.buf
    (echo rawio LF e.buf <| if e.p < e.buf.length then return (true, e.buf.set e.p 0) else .crash)
  obtain ⟨s₂, hexec₂, hin₂, hafter₂⟩ := exec_echo hsrc hafter₁.ok LF e.buf
    (if e.p < e.buf.length then return (true, e.buf.set e.p 0) else .crash)
  have hesc : ch ≠ ESC_CASE := by
    rintro rfl
    revert hch
    decide
  refine ⟨e.buf.set e.p 0, s₂, ?_, (List.length_set ..).trans hlen, ?_, hin₂.trans hin₁,
    hafter₁.trans hafter₂⟩
  · unfold getsnKey
    rw [if_neg hesc, if_pos hch, hexec₁, hexec₂, if_pos hstore]
    rfl
  · rw [← hp, List.take_add_one, List.take_set_of_le (Nat.le_refl _), he.stored]
    simp [hstore]

/-- What is echoed for the keys, from `line` on. -/
def echoes (esc : UInt8) (cap : Nat) : Bytes → Bytes → Bytes
  | _, [] => []
  | line, ch :: chars => echoOf esc cap line ch ++ echoes esc cap (edit esc cap line ch) chars

/-- **A line.** Up to the first newline the keys are folded over the line. -/
theorem exec_getsnLoop (hsrc : Source rawio serve Ok left code sent) (hok : Ok s.raw)
    (he : Editing e N line) {chars rest : Bytes} (hin : input left s = chars ++ LF :: rest)
    (hLF : LF ∉ chars) (n : Nat) {fuel : Nat} (hfuel : chars.length < fuel) :
    ∃ buf' s', (getsnLoop rawio (n + 2) fuel e).exec ((rawLens β).serve serve) s =
        some ((true, buf'), s') ∧ buf'.length = N ∧
      buf'.take ((chars.foldl (edit ESC_CASE (N - 1)) line).length + 1) =
        chars.foldl (edit ESC_CASE (N - 1)) line ++ [0] ∧
      input left s' = rest ∧
      After Ok code sent s s' (echoes ESC_CASE (N - 1) line chars ++ [CR, LF]) := by
  induction chars generalizing s e line fuel with
  | nil =>
    obtain ⟨fuel, rfl⟩ := Nat.exists_eq_succ_of_ne_zero (Nat.ne_zero_of_lt hfuel)
    obtain ⟨s₁, hgetc, hin₁, hafter₁, -⟩ := exec_iogetc hsrc hok hin n
    obtain ⟨buf', s', hexec, hlen, htake, hin', hafter⟩ := exec_getsnKey_newline hsrc hafter₁.ok he
      (Or.inr (toChar_toNat LF)) (getsnLoop rawio (n + 2) fuel)
    refine ⟨buf', s', ?_, hlen, htake, hin'.trans hin₁, hafter₁.trans hafter⟩
    unfold getsnLoop
    rw [Prog.exec_bind_of_eq hgetc]
    exact hexec
  | cons ch chars ih =>
    obtain ⟨fuel, rfl⟩ := Nat.exists_eq_succ_of_ne_zero (Nat.ne_zero_of_lt hfuel)
    obtain ⟨hch, hrest⟩ := not_or.mp (mt List.mem_cons.mpr hLF)
    have hCR : ch ≠ CR := fun h => by
      have hmem : CR ∉ input left s := CR_not_mem_input
      rw [hin, h] at hmem
      exact hmem List.mem_cons_self
    obtain ⟨s₁, hgetc, hin₁, hafter₁, hcrIn⟩ := exec_iogetc hsrc hok hin n
    -- the character was no newline, so that the escape key has nothing to reset
    have hcr : s₁.crIn = false := by
      cases h : s₁.crIn with
      | false => rfl
      | true => exact absurd (hcrIn h).symm hch
    obtain ⟨e₂, s₂, he₂, hin₂, hafter₂, hexec₂⟩ :=
      exec_getsnKey hsrc hafter₁.ok he hCR (Ne.symm hch) (getsnLoop rawio (n + 2) fuel)
    obtain ⟨buf', s', hexec, hlen, htake, hin', hafter⟩ :=
      ih hafter₂.ok he₂ ((hin₂ hcr).trans hin₁) hrest (Nat.lt_of_succ_lt_succ hfuel)
    refine ⟨buf', s', ?_, hlen, htake, hin', ?_⟩
    · conv_lhs => unfold getsnLoop
      rw [Prog.exec_bind_of_eq hgetc, toChar_toNat, hexec₂, hexec]
    · have hall := hafter₁.trans (hafter₂.trans hafter)
      rwa [List.nil_append, ← List.append_assoc] at hall

/-- With output accepted, `ioterm_getsn` never returns `NULL`: an error is taken for a character. -/
theorem getsnLoop_ne_null (hsrc : Source rawio serve Ok left code sent) (hok : Ok s.raw)
    (he : Editing e N line) {rounds fuel : Nat} {r : Bool × Bytes}
    (h : (getsnLoop rawio rounds fuel e).exec ((rawLens β).serve serve) s = some (r, s')) :
    r.1 = true := by
  induction fuel generalizing s e line with
  | zero => cases h
  | succ fuel ih =>
    unfold getsnLoop at h
    rw [Prog.exec_bind] at h
    obtain ⟨⟨c, s₁⟩, hgetc, hkey⟩ := Option.bind_eq_some_iff.mp h
    have hok₁ : Ok s₁.raw := ok_of_iogetc hsrc hok hgetc
    by_cases hch : toChar c = CR ∨ toChar c = LF
    · obtain ⟨buf', s'', hexec, -⟩ := exec_getsnKey_newline hsrc hok₁ he hch
        (getsnLoop rawio rounds fuel)
      obtain ⟨rfl, -⟩ := Prod.mk.inj (Option.some.inj (hexec.symm.trans hkey))
      rfl
    · obtain ⟨hCR, hLF⟩ := not_or.mp hch
      obtain ⟨e₂, s₂, he₂, -, hafter₂, hexec⟩ :=
        exec_getsnKey hsrc hok₁ he hCR hLF (getsnLoop rawio rounds fuel)
      exact ih hafter₂.ok he₂ (hexec.symm.trans hkey)

variable (rawio serve left) in
/-- A call of `ioterm_read` ends, with 0 or an error if there is nothing to deliver. -/
def ReadEnds (s : TermState β) (buf : Bytes) : Prop :=
  ∃ rounds r buf' s', (iotermRead rawio rounds buf).exec ((rawLens β).serve serve) s =
    some ((r, buf'), s') ∧ (input left s = [] → r ≤ 0)

variable (rawio serve left) in
/-- A call of `ioterm_getsn` ends, with `NULL` if the line has no end. -/
def GetsnEnds (s : TermState β) (buf : Bytes) : Prop :=
  ∃ rounds fuel ok buf' s', (iotermGetsn rawio rounds fuel buf).exec ((rawLens β).serve serve) s =
    some ((ok, buf'), s') ∧ (LF ∉ input left s → ok = false)

theorem readEnds_iff (hsrc : Source rawio serve Ok left code sent) (hok : Ok s.raw) (buf : Bytes) :
    ReadEnds rawio serve left s buf ↔ buf ≠ [] ∧ (input left s ≠ [] ∨ code s.raw < 0) := by
  constructor
  · rintro ⟨rounds, r, buf', s', hexec, -⟩
    have hbuf : buf ≠ [] := by
      rintro rfl
      rw [exec_read_nil hsrc hok] at hexec
      cases hexec
    refine ⟨hbuf, or_iff_not_imp_left.mpr fun hinput => ?_⟩
    have hne : code s.raw ≠ 0 := fun hcode => by
      rw [exec_read_eof hsrc hok hbuf (not_not.mp hinput) hcode] at hexec
      cases hexec
    have hle := hsrc.code_le s.raw hok
    omega
  · rintro ⟨hbuf, hends⟩
    by_cases hinput : input left s = []
    · obtain ⟨r, buf', s', hexec, hr, -⟩ :=
        exec_read_error hsrc hok hbuf hinput (hends.resolve_left (not_not.mpr hinput)) 0
      exact ⟨2, r, buf', s', hexec, fun _ => Int.le_of_lt hr⟩
    · obtain ⟨cnt, buf', s', hexec, -⟩ := exec_read_some hsrc hok hbuf hinput 0
      exact ⟨2, cnt, buf', s', hexec, fun h => absurd h hinput⟩

/-- The line is empty at the beginning. -/
theorem editing_start (hbuf : buf ≠ []) : Editing ⟨buf, 0, buf.length⟩ buf.length [] :=
  ⟨rfl, rfl, rfl, List.length_pos_iff.mpr hbuf, rfl⟩

theorem getsnEnds_iff (hsrc : Source rawio serve Ok left code sent) (hok : Ok s.raw)
    (hbuf : buf ≠ []) : GetsnEnds rawio serve left s buf ↔ LF ∈ input left s := by
  constructor
  · rintro ⟨rounds, fuel, ok, buf', s', hexec, hnull⟩
    by_contra hLF
    have hok' : ok = true := getsnLoop_ne_null hsrc hok (editing_start hbuf) hexec
    rw [hnull hLF] at hok'
    cases hok'
  · intro hLF
    obtain ⟨chars, rest, hin, hfirst⟩ := List.eq_append_cons_of_mem hLF
    obtain ⟨buf', s', hexec, -⟩ := exec_getsnLoop hsrc hok (editing_start hbuf) hin hfirst 0
      (Nat.lt_succ_self _)
    exact ⟨2, _, true, buf', s', hexec, fun h => absurd hLF h⟩

/-- **When terminal input ends.** A read ends if there is a character to deliver, or at an error: the
end of a file is read again and again. A line ends with its newline only: an error is stored in a
`char` before it is looked at, and `NULL` is never returned for it. -/
theorem terminal_input_ends_iff (hsrc : Source rawio serve Ok left code sent) (hok : Ok s.raw) :
    (∀ buf, ReadEnds rawio serve left s buf ↔
      buf ≠ [] ∧ (input left s ≠ [] ∨ code s.raw < 0)) ∧
    ∀ buf, buf ≠ [] → (GetsnEnds rawio serve left s buf ↔ LF ∈ input left s) :=
  ⟨readEnds_iff hsrc hok, fun _ hbuf => getsnEnds_iff hsrc hok hbuf⟩

end Reading

/-- A line that is not fed any more delivers what is there, and then the end of the file. -/
theorem lineIo_source :
    Source lineIo quietLine (fun _ => True) Line.input (fun _ => 0) Line.output where
  code_le _ _ := Int.le_refl 0
  read b buf _ hbuf hleft := by
    refine ⟨b.input.take buf.length, { b with input := b.input.drop buf.length }, rfl, ?_, ?_,
      trivial, (List.take_append_drop _ _).symm, Iff.rfl, rfl⟩
    · intro h
      obtain h | h := List.take_eq_nil_iff.mp h
      · exact hbuf (List.length_eq_zero_iff.mp h)
      · exact hleft h
    · exact List.length_take_le _ _
  ended b buf _ _ hleft := by
    refine ⟨buf, { b with input := b.input.drop buf.length }, ?_, rfl, trivial, ?_, Iff.rfl, rfl⟩
    · show some (((((b.input.take buf.length).length : Nat) : Int), patch buf 0 (b.input.take buf.length)),
        Line.mk (b.input.drop buf.length) b.output) = _
      rw [hleft, List.take_nil, List.drop_nil]
      rfl
    · show b.input.drop buf.length = []
      rw [hleft, List.drop_nil]
  read_nil b _ := ⟨b, rfl, trivial⟩
  write b buf _ hne := ⟨buf.length, { b with output := b.output ++ buf }, rfl,
    List.length_pos_iff.mpr hne, Nat.le_refl _, trivial, rfl, Iff.rfl, by rw [List.take_length]⟩

/-- A newline is left. -/
theorem terminal_input_ends_newline :
    ReadEnds lineIo quietLine Line.input ⟨⟨[CR], []⟩, false, false⟩ [0] ∧
    GetsnEnds lineIo quietLine Line.input ⟨⟨[CR], []⟩, false, false⟩ [0] := by
  obtain ⟨hread, hgetsn⟩ :=
    terminal_input_ends_iff lineIo_source (s := ⟨⟨[CR], []⟩, false, false⟩) trivial
  exact ⟨(hread [0]).mpr ⟨by decide, Or.inl (by decide)⟩, (hgetsn [0] (by decide)).mpr (by decide)⟩

/-- At the end of the file neither call ends as it should. -/
theorem terminal_waits_at_eof :
    ¬ReadEnds lineIo quietLine Line.input ⟨⟨[], []⟩, false, false⟩ [0] ∧
    ¬GetsnEnds lineIo quietLine Line.input ⟨⟨[], []⟩, false, false⟩ [0] := by
  constructor
  · intro h
    obtain ⟨-, hinput | hcode⟩ := (readEnds_iff lineIo_source trivial _).mp h
    · exact hinput rfl
    · exact Int.lt_irrefl 0 hcode
  · intro h
    cases (getsnEnds_iff lineIo_source trivial (List.cons_ne_nil _ _)).mp h

/-! ## The escape key -/

section Escape

variable {cap : Nat} {line : Bytes} {ch : UInt8}

theorem length_edit_le (esc : UInt8) (h : line.length ≤ cap) (ch : UInt8) :
    (edit esc cap line ch).length ≤ cap := by
  unfold edit
  split
  · exact h
  split
  · rw [List.length_dropLast]
    omega
  split
  · rw [List.length_append, List.length_singleton]
    omega
  · exact h

theorem length_foldl_edit_le (esc : UInt8) (cap : Nat) (chars : Bytes) :
    (chars.foldl (edit esc cap) []).length ≤ cap := by
  induction chars using List.reverseRecOn with
  | nil => exact Nat.zero_le _
  | append_singleton chars ch ih =>
    rw [List.foldl_append]
    exact length_edit_le esc ih ch

/-- The two keys do the same to a line that is full; all others do the same to every line. -/
theorem edit_eq_edit (h : ch = ESC_CASE ∨ ch = ESC → line.length = cap) :
    edit ESC_CASE cap line ch = edit ESC cap line ch := by
  unfold edit
  by_cases hcase : ch = ESC_CASE
  · have hfull := h (Or.inl hcase)
    rw [hcase, if_pos rfl, if_neg (by decide), if_neg (by decide), if_neg (by omega)]
  by_cases hesc : ch = ESC
  · have hfull := h (Or.inr hesc)
    rw [hesc, if_pos rfl, if_neg (by decide), if_neg (by decide), if_neg (by omega)]
  · rw [if_neg hcase, if_neg hesc]

/-- With room in the line, one of the two keys is stored where the other one is ignored. -/
theorem edit_of_room (hroom : line.length < cap) :
    edit ESC_CASE cap line ESC = line ++ [ESC] ∧ edit ESC cap line ESC_CASE = line ++ [ESC_CASE] := by
  unfold edit
  rw [if_neg (by decide), if_neg (by decide), if_pos hroom, if_neg (by decide), if_neg (by decide),
    if_pos hroom]
  exact ⟨rfl, rfl⟩

/-- A buffer cannot hold the line both with and without one more character. -/
theorem not_both_lines {buf : Bytes} (h : buf.take (line.length + 1) = line ++ [0])
    (h' : buf.take ((line ++ [ch]).length + 1) = line ++ [ch] ++ [0]) : ch = 0 := by
  have hcut := congrArg (List.take (line.length + 1)) h'
  rw [List.take_take, List.length_append, List.length_singleton,
    Nat.min_eq_left (Nat.le_succ _), h, ← List.length_singleton, ← List.length_append,
    List.take_left] at hcut
  exact (List.cons.inj (List.append_cancel_left hcut)).1.symm

/-- For every terminal that delivers `chars` and a newline, `ioterm_getsn` leaves in a buffer of `n`
bytes the line that the keys make of `chars`, with a null byte. -/
def EditsExactly (n : Nat) (chars : Bytes) : Prop :=
  ∀ {β ι κ : Type} {rawio : IoIntf β ι κ} {serve : β → Option β} {Ok : β → Prop} {left : β → Bytes}
    {code : β → Int} {sent : β → Bytes}, Source rawio serve Ok left code sent →
    ∀ {s : TermState β} {rest buf : Bytes}, Ok s.raw → input left s = chars ++ LF :: rest →
      buf.length = n → ∀ rounds fuel, 2 ≤ rounds → chars.length < fuel →
      ∃ buf' s', (iotermGetsn rawio rounds fuel buf).exec ((rawLens β).serve serve) s =
          some ((true, buf'), s') ∧ buf'.length = n ∧
        buf'.take ((chars.foldl (edit ESC (n - 1)) []).length + 1) =
          chars.foldl (edit ESC (n - 1)) [] ++ [0] ∧
        input left s' = rest

variable {n : Nat} {chars : Bytes}

/-- What the code does, in the same words. -/
theorem exec_iotermGetsn (hn : 1 ≤ n) (hLF : LF ∉ chars) {β ι κ : Type} {rawio : IoIntf β ι κ}
    {serve : β → Option β} {Ok : β → Prop} {left : β → Bytes} {code : β → Int} {sent : β → Bytes}
    (hsrc : Source rawio serve Ok left code sent) {s : TermState β} {rest buf : Bytes}
    (hok : Ok s.raw) (hin : input left s = chars ++ LF :: rest) (hbuf : buf.length = n)
    {rounds fuel : Nat} (hrounds : 2 ≤ rounds) (hfuel : chars.length < fuel) :
    ∃ buf' s', (iotermGetsn rawio rounds fuel buf).exec ((rawLens β).serve serve) s =
        some ((true, buf'), s') ∧ buf'.length = n ∧
      buf'.take ((chars.foldl (edit ESC_CASE (n - 1)) []).length + 1) =
        chars.foldl (edit ESC_CASE (n - 1)) [] ++ [0] ∧
      input left s' = rest := by
  obtain ⟨k, rfl⟩ := Nat.exists_eq_add_of_le' hrounds
  subst hbuf
  obtain ⟨buf', s', hexec, hlen, htake, hrest, -⟩ := exec_getsnLoop hsrc hok
    (editing_start (List.length_pos_iff.mp hn)) hin hLF k hfuel
  exact ⟨buf', s', hexec, hlen, htake, hrest⟩

/-- A line delivers what has no `\r` as it is. -/
theorem input_line {l : Bytes} (h : CR ∉ l) :
    input Line.input ⟨⟨l, []⟩, false, false⟩ = l := by
  unfold input
  induction l with
  | nil => rfl
  | cons ch l ih =>
    obtain ⟨hch, hl⟩ := not_or.mp (mt List.mem_cons.mpr h)
    have hstep : inStep false ch = (false, [ch]) := if_neg (Ne.symm hch)
    show (translate inStep false (ch :: l)).2 = _
    rw [translate_cons, hstep]
    exact congrArg (ch :: ·) (ih hl)

/-- The line that is left in the buffer is the one of the documented keys only if the last key did
the same. -/
theorem full_of_editsExactly (hn : 1 ≤ n) (hCR : CR ∉ chars) (hLF : LF ∉ chars)
    (hch : ch = ESC_CASE ∨ ch = ESC)
    (heq : chars.foldl (edit ESC_CASE (n - 1)) [] = chars.foldl (edit ESC (n - 1)) [])
    (h : EditsExactly n (chars ++ [ch])) : (chars.foldl (edit ESC (n - 1)) []).length = n - 1 := by
  have hkey : ch ≠ CR ∧ ch ≠ LF ∧ ch ≠ 0 := by
    obtain rfl | rfl := hch
    · decide
    · decide
  by_contra hroom
  replace hroom : (chars.foldl (edit ESC (n - 1)) []).length < n - 1 :=
    Nat.lt_of_le_of_ne (length_foldl_edit_le ESC (n - 1) chars) hroom
  have hLF' : LF ∉ chars ++ [ch] := by simp [hLF, Ne.symm hkey.2.1]
  have hCR' : CR ∉ (chars ++ [ch]) ++ [LF] := by simp [hCR, Ne.symm hkey.1, show CR ≠ LF by decide]
  have hlen : (List.replicate n (0 : UInt8)).length = n := List.length_replicate
  -- the two descriptions of one run
  obtain ⟨buf', s', hexec, -, hline, -⟩ :=
    h lineIo_source trivial (input_line hCR') hlen 2 _ (Nat.le_refl 2) (Nat.lt_succ_self _)
  obtain ⟨buf₁, s₁, hexec₁, -, hline₁, -⟩ :=
    exec_iotermGetsn hn hLF' lineIo_source trivial (input_line hCR') hlen (Nat.le_refl 2)
      (Nat.lt_succ_self _)
  obtain rfl : buf' = buf₁ := congrArg (fun x => x.1.2) (Option.some.inj (hexec.symm.trans hexec₁))
  rw [List.foldl_append, List.foldl_cons, List.foldl_nil] at hline hline₁
  rw [heq] at hline₁
  obtain rfl | rfl := hch
  · rw [(edit_of_room hroom).2] at hline
    rw [edit, if_pos rfl] at hline₁
    exact hkey.2.2 (not_both_lines hline₁ hline)
  · rw [(edit_of_room hroom).1] at hline₁
    rw [edit, if_pos rfl] at hline
    exact hkey.2.2 (not_both_lines hline hline₁)

/-- The keys that the code confuses come when the line is full. -/
def ConfusedWhenFull (n : Nat) (chars : Bytes) : Prop :=
  ∀ p ch, p ++ [ch] <+: chars → ch = ESC_CASE ∨ ch = ESC →
    (p.foldl (edit ESC (n - 1)) []).length = n - 1

theorem foldl_edit_eq (h : ConfusedWhenFull n chars) :
    chars.foldl (edit ESC_CASE (n - 1)) [] = chars.foldl (edit ESC (n - 1)) [] := by
  induction chars using List.reverseRecOn with
  | nil => rfl
  | append_singleton chars ch ih =>
    rw [List.foldl_append, List.foldl_append,
      ih fun p ch' hp => h p ch' (hp.trans (List.prefix_append _ _))]
    exact edit_eq_edit (h chars ch (List.prefix_refl _))

/-- **When line editing is exact.** `'\133'` is `[` and not the escape key. The line is what it
should be after every key if and only if `[` and the escape key come only when there is no room. -/
theorem line_editing_exact_iff (hn : 1 ≤ n) (hCR : CR ∉ chars) (hLF : LF ∉ chars) :
    (∀ p, p <+: chars → EditsExactly n p) ↔ ConfusedWhenFull n chars := by
  constructor
  · intro h
    induction chars using List.reverseRecOn with
    | nil =>
      intro p ch hp
      simp at hp
    | append_singleton chars last ih =>
      have hCR' : CR ∉ chars := fun hmem => hCR (List.mem_append_left _ hmem)
      have hLF' : LF ∉ chars := fun hmem => hLF (List.mem_append_left _ hmem)
      have hfront := ih hCR' hLF' fun p hp => h p (hp.trans (List.prefix_append _ _))
      intro p ch hp hch
      obtain heq | hp' := List.prefix_concat_iff.mp hp
      · obtain ⟨rfl, hlast⟩ := List.append_inj' heq rfl
        obtain rfl : ch = last := List.singleton_inj.mp hlast
        exact full_of_editsExactly hn hCR' hLF' hch (foldl_edit_eq hfront) (h _ (List.prefix_refl _))
      · exact hfront p ch hp' hch
  · intro h p hp
    have hp' : ConfusedWhenFull n p := fun q ch hq => h q ch (hq.trans hp)
    have hLF' : LF ∉ p := fun hmem => hLF (hp.subset hmem)
    intro β ι κ rawio serve Ok left code sent hsrc s rest buf hok hin hbuf rounds fuel hrounds hfuel
    rw [← foldl_edit_eq hp']
    exact exec_iotermGetsn hn hLF' hsrc hok hin hbuf hrounds hfuel

/-- A line without either key. -/
theorem line_editing_exact_plain : EditsExactly 3 [97, 98, BS, 99] := by
  refine (line_editing_exact_iff (by decide) (by decide) (by decide)).mpr ?_ _ (List.prefix_refl _)
  intro p ch hp hch
  have hmem : ch ∈ ([97, 98, BS, 99] : Bytes) := hp.subset (by simp)
  obtain rfl | rfl := hch
  · exact absurd hmem (by decide)
  · exact absurd hmem (by decide)

/-- The escape key is kept in the line. -/
theorem escape_kept : ¬EditsExactly 2 [ESC] := by
  intro h
  have hlast : EditsExactly 2 ([] ++ [ESC]) := h
  cases full_of_editsExactly (by decide) (by decide) (by decide) (Or.inr rfl) rfl hlast

end Escape

end Term

end RiscvKernel
