import RiscvKernel.Io.TermCount

/-!
# The console

`console.c` sends its characters to UART0 by polling. `console_putchar` brings line endings to
CRLF as `ioterm_write` does, and remembers the last character for it. It is a second machine for the
same rules (`putStep`), to be compared with `outStep`.

* `console_agrees_iff`: the two send the same for every string without CRLF. For the `\n` of a
  CRLF the `case` falls through to `default`, and a second `\n` is sent.
-/

namespace RiscvKernel

open Lib

/-- What `console.c` keeps between calls, and the line behind UART0: the bytes that were sent. -/
structure Console where
  cprev : UInt8
  sent : Bytes

namespace Console

/-- `com0_putc`, once the transmitter is ready. -/
def com0Putc (s : Console) (c : UInt8) : Console := { s with sent := s.sent ++ [c] }

/-- `console_putchar` -/
def consolePutchar (s : Console) (c : UInt8) : Console :=
  let s :=
    if c = CR then (s.com0Putc c).com0Putc LF
    else if c = LF then
      -- no break: the `\n` itself is sent by the default case
      (if s.cprev ≠ CR then s.com0Putc CR else s).com0Putc c
    else s.com0Putc c
  { s with cprev := c }

/-- `console_putchar` for the characters of a string. -/
def putAll (s : Console) (str : Bytes) : Console := str.foldl consolePutchar s

/-- `console_putchar` as a machine whose state is `cprev`. -/
def putStep (cprev c : UInt8) : UInt8 × Bytes :=
  (c, if c = CR then [CR, LF] else if c = LF then if cprev ≠ CR then [CR, LF] else [LF] else [c])

theorem consolePutchar_eq (s : Console) (c : UInt8) :
    s.consolePutchar c = ⟨(putStep s.cprev c).1, s.sent ++ (putStep s.cprev c).2⟩ := by
  unfold consolePutchar putStep
  by_cases hCR : c = CR
  · simp [hCR, com0Putc]
  by_cases hLF : c = LF
  · by_cases hprev : s.cprev = CR
    · simp [hLF, hprev, com0Putc, show LF ≠ CR by decide]
    · simp [hLF, hprev, com0Putc, show LF ≠ CR by decide]
  · simp [hCR, hLF, com0Putc]

theorem putAll_eq (s : Console) (str : Bytes) :
    s.putAll str = ⟨(translate putStep s.cprev str).1, s.sent ++ (translate putStep s.cprev str).2⟩ := by
  induction str generalizing s with
  | nil => simp [putAll]
  | cons c str ih =>
    show (s.consolePutchar c).putAll str = _
    rw [ih, consolePutchar_eq, translate_cons, List.append_assoc]

/-! ## The two machines -/

/-- They do the same, except for the `\n` of a CRLF: the terminal has sent it with the `\r`. -/
theorem putStep_eq_outStep {cprev c : UInt8} (h : ¬(cprev = CR ∧ c = LF)) :
    (putStep cprev c).2 = (outStep (decide (cprev = CR)) c).2 := by
  unfold putStep
  by_cases hCR : c = CR
  · rw [hCR]
    by_cases hprev : cprev = CR
    · simp [hprev, outStep]
    · simp [hprev, outStep]
  by_cases hLF : c = LF
  · have hprev : cprev ≠ CR := fun hprev => h ⟨hprev, hLF⟩
    simp [hprev, hLF, outStep, show LF ≠ CR by decide]
  · rw [outStep_other hCR hLF]
    simp [hCR, hLF]

theorem translate_outStep_cons (cprev c : UInt8) (str : Bytes) :
    (translate outStep (decide (cprev = CR)) (c :: str)).2 =
      (outStep (decide (cprev = CR)) c).2 ++ (translate outStep (decide (c = CR)) str).2 := by
  rw [translate_cons, Term.outStep_state]

/-- The console sends at least as much. -/
theorem length_outStep_le (cprev : UInt8) (str : Bytes) :
    (translate outStep (decide (cprev = CR)) str).2.length ≤ (translate putStep cprev str).2.length := by
  induction str generalizing cprev with
  | nil => exact Nat.le_refl _
  | cons c str ih =>
    have hrest := ih c
    rw [translate_outStep_cons, translate_cons, List.length_append, List.length_append]
    refine Nat.add_le_add ?_ hrest
    by_cases h : cprev = CR ∧ c = LF
    · obtain ⟨rfl, rfl⟩ := h
      exact Nat.zero_le _
    · rw [putStep_eq_outStep h]

theorem translate_putStep_eq_iff (cprev : UInt8) (str : Bytes) :
    (translate putStep cprev str).2 = (translate outStep (decide (cprev = CR)) str).2 ↔
      ¬[CR, LF] <:+: cprev :: str := by
  induction str generalizing cprev with
  | nil => simp [List.infix_cons_iff]
  | cons c str ih =>
    have hprefix : [CR, LF] <+: cprev :: c :: str ↔ cprev = CR ∧ c = LF := by
      rw [List.cons_prefix_cons, List.cons_prefix_cons]
      simp [eq_comm]
    rw [List.infix_cons_iff, hprefix, not_or, ← ih c, translate_outStep_cons, translate_cons]
    by_cases h : cprev = CR ∧ c = LF
    · -- one byte too many, whatever follows
      obtain ⟨rfl, rfl⟩ := h
      refine iff_of_false (fun heq => ?_) fun hand => hand.1 ⟨rfl, rfl⟩
      have hlen := congrArg List.length heq
      have hle := length_outStep_le LF str
      rw [List.length_append, List.length_append] at hlen
      have hput : (putStep CR LF).2.length = 1 := rfl
      have hout : (outStep (decide (CR = CR)) LF).2.length = 0 := rfl
      have hstate : (putStep CR LF).1 = LF := rfl
      rw [hstate] at hlen
      omega
    · rw [putStep_eq_outStep h, List.append_cancel_left_eq]
      exact ⟨fun heq => ⟨h, heq⟩, And.right⟩

section

variable {β ι κ : Type} {rawio : IoIntf β ι κ} {serve : β → Option β} {Ok : β → Prop}
  {sent : β → Bytes} {s : TermState β}

/-- A new console sends for `str` what `ioterm_write` sends. -/
def Agrees (serve : β → Option β) (Ok : β → Prop) (sent : β → Bytes) (rawio : IoIntf β ι κ)
    (s : TermState β) (str : Bytes) : Prop :=
  ∃ c', Term.Sends serve Ok sent (Term.iotermWrite rawio str) s c' ((Console.mk 0 []).putAll str).sent

/-- **Console and terminal.** They send the same for a string if and only if it has no CRLF. -/
theorem console_agrees_iff (ha : Term.Accepts rawio serve Ok sent) (hok : Ok s.raw)
    (hcr : s.crOut = false) (str : Bytes) :
    Agrees serve Ok sent rawio s str ↔ ¬[CR, LF] <:+: str := by
  have hinfix : [CR, LF] <:+: 0 :: str ↔ [CR, LF] <:+: str := by
    rw [List.infix_cons_iff, List.cons_prefix_cons]
    simp [show CR ≠ 0 by decide]
  have hsends := Term.sends_iotermWrite ha hok str
  unfold Agrees
  rw [← hinfix, ← translate_putStep_eq_iff, putAll_eq, List.nil_append]
  rw [hcr] at hsends
  constructor
  · rintro ⟨c', r, b, hexec, -, hsent⟩
    obtain ⟨r', b', hexec', -, hsent'⟩ := hsends
    obtain ⟨-, hstate⟩ := Prod.mk.inj (Option.some.inj (hexec.symm.trans hexec'))
    obtain rfl : b = b' := congrArg TermState.raw hstate
    exact List.append_cancel_left (hsent.symm.trans hsent')
  · intro heq
    dsimp only
    rw [heq]
    exact ⟨_, hsends⟩

/-- A line that ends with `\n` only. -/
theorem console_agrees_newline :
    Agrees Term.quietLine (fun _ => True) Term.Line.output Term.lineIo ⟨⟨[], []⟩, false, false⟩
      [104, 105, LF] :=
  (console_agrees_iff Term.lineIo_accepts trivial rfl _).mpr (by decide)

/-- For CRLF the console sends CR LF LF. -/
theorem console_crlf :
    ((Console.mk 0 []).putAll [CR, LF]).sent = [CR, LF, LF] ∧ Term.sentFor [CR, LF] = [CR, LF] := by
  decide

end

end Console

end RiscvKernel
