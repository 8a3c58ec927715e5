import RiscvKernel.Io.Term

/-!
# What writing to a terminal reports

`iowrite`, `ioputc` and `ioputs` with a terminal behind them. `iowrite` believes the count that
`ioterm_write` returns, and passes the rest of the buffer again. `ioterm_write` does not count a `\n`
that it skips, which is the first byte of a buffer after one that ended with `\r`.

* `reports_iowrite`: a count that is right, or a buffer of one byte.
* `reports_iowrite_again`: a longer buffer whose first byte was skipped. Its last byte is sent twice.
* `terminal_counts_iff`: when the functions send every byte once and say so.
-/

namespace RiscvKernel

open Lib

/-- `ioputs`; the string ends before its first null byte. -/
def IoIntf.ioputs {β ι κ : Type} (io : IoIntf β ι κ) (s : Bytes) : Prog β ι κ Int := do
  let wlen ← io.iowrite (s.takeWhile (· ≠ 0))
  if wlen < 0 then return wlen
  else
    let wlen ← io.iowrite [LF]
    if wlen < 0 then return wlen else return 0

namespace Term

variable {β ι κ : Type}

/-- `ioterm_ioctl` -/
def iotermIoctl (rawio : IoIntf β ι κ) (cmd arg : Nat) : Code β ι κ (Int × Nat) :=
  if cmd ≠ IOCTL_SETPOS then (rawio.ctl cmd arg).zoom (rawLens β) else return (-ENOTSUP, arg)

/-- The operations of a terminal. -/
def ops (rawio : IoIntf β ι κ) (rounds : Nat) : IoIntf (TermState β) ι κ where
  read := iotermRead rawio rounds
  write := iotermWrite rawio
  ctl := iotermIoctl rawio

/-! ## The output machine -/

/-- It remembers whether the last byte was `\r`. -/
theorem outStep_state (c : Bool) (ch : UInt8) : (outStep c ch).1 = decide (ch = CR) := by
  by_cases hCR : ch = CR
  · rw [hCR]
    cases c with
    | false => rfl
    | true => rfl
  · by_cases hLF : ch = LF
    · rw [hLF]
      cases c with
      | false => rfl
      | true => rfl
    · rw [outStep_other hCR hLF]
      simp [hCR]

/-- Every byte gives some output if it is not the `\n` after a `\r`. -/
theorem outStep_ne_nil {c : Bool} {ch : UInt8} (h : skipped c [ch] = 0) : (outStep c ch).2 ≠ [] := by
  by_cases hCR : ch = CR
  · rw [hCR]
    cases c with
    | false => exact List.cons_ne_nil _ _
    | true => exact List.cons_ne_nil _ _
  · by_cases hLF : ch = LF
    · rw [hLF] at h ⊢
      cases c with
      | false => exact List.cons_ne_nil _ _
      | true => cases h
    · rw [outStep_other hCR hLF]
      exact List.cons_ne_nil _ _

/-- The byte that came last is not skipped when it comes again. -/
theorem skipped_again (ch : UInt8) : skipped (decide (ch = CR)) [ch] = 0 := by
  refine if_neg ?_
  rintro ⟨hCR, hLF⟩
  have hCR : ch = CR := of_decide_eq_true hCR
  have hLF : ch = LF := Option.some.inj hLF
  rw [hCR] at hLF
  revert hLF
  decide

/-- At most the first byte is skipped. -/
theorem skipped_eq_one {c : Bool} {buf : Bytes} (h : skipped c buf ≠ 0) :
    skipped c buf = 1 ∧ 0 < buf.length := by
  unfold skipped at h ⊢
  split at h
  · next hor =>
    refine ⟨if_pos hor, List.length_pos_iff.mpr ?_⟩
    rintro rfl
    cases hor.2
  · exact absurd rfl h

/-- The last byte of a longer buffer. -/
theorem exists_snoc {buf : Bytes} (h : 1 < buf.length) :
    ∃ front ch, buf = front ++ [ch] ∧ front ≠ [] := by
  have hne : buf ≠ [] := by
    rintro rfl
    cases h
  refine ⟨buf.dropLast, buf.getLast hne, (List.dropLast_append_getLast hne).symm, ?_⟩
  refine List.length_pos_iff.mp ?_
  rw [List.length_dropLast]
  omega

theorem skipped_eq_zero_iff {c : Bool} {buf : Bytes} :
    skipped c buf = 0 ↔ ¬(c = true ∧ buf.head? = some LF) := by
  unfold skipped
  split
  · next h => simp [h]
  · next h => simp only [h, not_false_eq_true]

/-! ## Writing -/

section Writing

variable {rawio : IoIntf β ι κ} {serve : β → Option β} {Ok : β → Prop} {sent : β → Bytes}
  {s : TermState β} {buf : Bytes} {rounds : Nat} {p : Code β ι κ Int} {r r' : Int} {c c' : Bool}
  {out out' : Bytes}

theorem Reports.unique (h : Reports serve Ok sent p s r c out)
    (h' : Reports serve Ok sent p s r' c' out') : r = r' ∧ out = out' := by
  obtain ⟨b, hexec, -, hsent⟩ := h
  obtain ⟨b', hexec', -, hsent'⟩ := h'
  obtain ⟨rfl, hstate⟩ := Prod.mk.inj (Option.some.inj (hexec.symm.trans hexec'))
  obtain rfl : b = b' := congrArg TermState.raw hstate
  exact ⟨rfl, List.append_cancel_left (hsent.symm.trans hsent')⟩

variable (serve Ok sent) in
/-- The code returns `r` and sends the normalised form of `buf`, once. -/
def Normalises (p : Code β ι κ Int) (s : TermState β) (r : Int) (buf : Bytes) : Prop :=
  Reports serve Ok sent p s r (translate outStep s.crOut buf).1 (translate outStep s.crOut buf).2

variable (ha : Accepts rawio serve Ok sent) (hok : Ok s.raw)

include ha hok

omit ha hok in
theorem writeFrom_done {acc n : Nat} (h : buf.length ≤ acc) :
    (ops rawio rounds).writeFrom buf n acc = .ret acc := by
  cases n with
  | zero => rfl
  | succ n =>
    unfold IoIntf.writeFrom
    rw [if_neg (Nat.not_lt.mpr h)]

/-- The first round of `iowrite` is the last one if the count is that of the buffer, or 0. -/
theorem reports_iowrite (rounds : Nat) (buf : Bytes)
    (hbuf : skipped s.crOut buf = 0 ∨ buf.length ≤ 1) :
    Normalises serve Ok sent ((ops rawio rounds).iowrite buf) s
      ((buf.length - skipped s.crOut buf : Nat) : Int) buf := by
  obtain ⟨b', hexec, hok', hsent⟩ := reports_iotermWrite ha hok buf
  refine ⟨b', ?_, hok', hsent⟩
  cases buf with
  | nil =>
    have hempty : (iotermWrite rawio ([] : Bytes)).exec ((rawLens β).serve serve) s =
        some ((0 : Int), s) := rfl
    rw [hempty] at hexec
    exact hexec
  | cons ch rest =>
    have hwrite : ((ops rawio rounds).write (ch :: rest)).exec ((rawLens β).serve serve) s = _ := hexec
    by_cases hskip : skipped s.crOut (ch :: rest) = 0
    · rw [hskip, Nat.sub_zero] at hwrite ⊢
      exact IoIntf.exec_iowrite (Nat.succ_pos _) hwrite (Or.inr rfl)
    · -- the only byte was skipped
      have hlen : rest = [] := by
        have := hbuf.resolve_left hskip
        rw [List.length_cons] at this
        exact List.length_eq_zero_iff.mp (by omega)
      subst hlen
      rw [(skipped_eq_one hskip).1] at hwrite ⊢
      unfold IoIntf.iowrite
      rw [List.length_singleton] at hwrite ⊢
      unfold IoIntf.writeFrom
      rw [if_pos (by simp), List.drop_zero, Prog.exec_bind_of_eq hwrite]
      rfl

/-- After a first round that has skipped a byte, the last byte is passed again. -/
theorem reports_iowrite_again (rounds : Nat) {ch : UInt8} (hbuf : buf ≠ [])
    (hskip : skipped s.crOut (buf ++ [ch]) = 1) :
    Reports serve Ok sent ((ops rawio rounds).iowrite (buf ++ [ch])) s
      ((buf ++ [ch]).length : Int) (decide (ch = CR))
      ((translate outStep s.crOut (buf ++ [ch])).2 ++ (outStep (decide (ch = CR)) ch).2) := by
  have hpos : 0 < buf.length := List.length_pos_iff.mpr hbuf
  have hlen : (buf ++ [ch]).length = buf.length + 1 := List.length_append
  obtain ⟨b₁, hexec₁, hok₁, hsent₁⟩ := reports_iotermWrite ha hok (buf ++ [ch])
  -- the machine has seen the last byte
  have hstate : (translate outStep s.crOut (buf ++ [ch])).1 = decide (ch = CR) := by
    rw [translate_snoc, outStep_state]
  rw [hskip, hlen, Nat.add_sub_cancel, hstate] at hexec₁
  obtain ⟨b₂, hexec₂, hok₂, hsent₂⟩ := reports_iotermWrite ha
    (s := { s with raw := b₁, crOut := decide (ch = CR) }) hok₁ [ch]
  have hlast : (translate outStep (decide (ch = CR)) [ch]) =
      (decide (ch = CR), (outStep (decide (ch = CR)) ch).2) := by
    rw [translate_cons, translate_nil, List.append_nil, outStep_state]
  dsimp only at hexec₂ hsent₂
  rw [skipped_again, hlast] at hexec₂
  rw [hlast] at hsent₂
  refine ⟨b₂, ?_, hok₂, ?_⟩
  · have hdrop : (buf ++ [ch]).drop (0 + (buf.length : Int).toNat) = [ch] := by
      rw [Int.toNat_natCast, Nat.zero_add, List.drop_left]
    have hwrite₁ : ((ops rawio rounds).write ((buf ++ [ch]).drop 0)).exec ((rawLens β).serve serve) s =
        _ := hexec₁
    have hwrite₂ : ((ops rawio rounds).write ((buf ++ [ch]).drop (0 + (buf.length : Int).toNat))).exec
        ((rawLens β).serve serve) { s with raw := b₁, crOut := decide (ch = CR) } =
          some ((1 : Int), { s with raw := b₂, crOut := decide (ch = CR) }) := by
      rw [hdrop]
      exact hexec₂
    obtain ⟨n, hn⟩ : ∃ n, buf.length = n + 1 := ⟨buf.length - 1, by omega⟩
    have hround₁ : (ops rawio rounds).iowrite (buf ++ [ch]) =
        (ops rawio rounds).writeFrom (buf ++ [ch]) (n + 2) 0 := by
      unfold IoIntf.iowrite
      rw [hlen, hn]
    rw [hround₁, IoIntf.writeFrom, if_pos (by omega), Prog.exec_bind_of_eq hwrite₁, if_neg (by omega),
      if_neg (by omega), IoIntf.writeFrom, if_pos (by omega), Prog.exec_bind_of_eq hwrite₂,
      if_neg (by decide), if_neg (by decide), writeFrom_done (by omega), Prog.exec_ret]
    congr 2
    omega
  · rw [hsent₂, hsent₁, List.append_assoc]

/-- A longer buffer whose first byte is skipped is not sent as it should be. -/
theorem not_normalises_iowrite (hskip : skipped s.crOut buf ≠ 0) (hlen : 1 < buf.length) (r : Int)
    (c : Bool) : ¬Reports serve Ok sent ((ops rawio rounds).iowrite buf) s r c
      (translate outStep s.crOut buf).2 := by
  intro h
  obtain ⟨front, ch, rfl, hfront⟩ := exists_snoc hlen
  have hagain := reports_iowrite_again ha hok rounds hfront (skipped_eq_one hskip).1
  obtain ⟨-, hout⟩ := h.unique hagain
  refine outStep_ne_nil (skipped_again ch) ?_
  exact List.append_cancel_left (hout.symm.trans (List.append_nil _).symm)

theorem normalises_iowrite_iff :
    Normalises serve Ok sent ((ops rawio rounds).iowrite buf) s buf.length buf ↔
      skipped s.crOut buf = 0 := by
  constructor
  · intro h
    by_contra hskip
    by_cases hlen : 1 < buf.length
    · exact not_normalises_iowrite ha hok hskip hlen _ _ h
    · obtain ⟨hr, -⟩ := h.unique (reports_iowrite ha hok rounds buf (Or.inr (by omega)))
      have := skipped_eq_one hskip
      omega
  · intro hskip
    have h := reports_iowrite ha hok rounds buf (Or.inl hskip)
    rwa [hskip, Nat.sub_zero] at h

/-- `ioputc` takes the count 0 for an error. -/
theorem normalises_ioputc_iff (ch : UInt8) :
    Normalises serve Ok sent ((ops rawio rounds).ioputc ch) s ch.toNat [ch] ↔
      skipped s.crOut [ch] = 0 := by
  obtain ⟨b', hexec, hok', hsent⟩ :=
    reports_iowrite ha hok rounds [ch] (Or.inr (Nat.le_refl 1))
  have hput : Reports serve Ok sent ((ops rawio rounds).ioputc ch) s
      (if skipped s.crOut [ch] = 0 then ch.toNat else - EIO) (translate outStep s.crOut [ch]).1
      (translate outStep s.crOut [ch]).2 := by
    refine ⟨b', ?_, hok', hsent⟩
    unfold IoIntf.ioputc
    rw [Prog.exec_bind_of_eq hexec]
    by_cases hskip : skipped s.crOut [ch] = 0
    · rw [if_pos hskip, hskip]
      rfl
    · rw [if_neg hskip, (skipped_eq_one hskip).1]
      rfl
  constructor
  · intro h
    by_contra hskip
    obtain ⟨hr, -⟩ := h.unique hput
    rw [if_neg hskip] at hr
    unfold EIO at hr
    omega
  · intro hskip
    rwa [if_pos hskip] at hput

/-- `ioputs` does not compare the counts, and its own `\n` is a buffer of one byte. -/
theorem normalises_ioputs_iff (str : Bytes) :
    Normalises serve Ok sent ((ops rawio rounds).ioputs str) s 0 (str.takeWhile (· ≠ 0) ++ [LF]) ↔
      skipped s.crOut (str.takeWhile (· ≠ 0)) = 0 ∨ (str.takeWhile (· ≠ 0)).length ≤ 1 := by
  unfold IoIntf.ioputs Normalises
  generalize str.takeWhile (· ≠ 0) = text
  have hfirst : ∀ {r : Nat} {c : Bool} {out : Bytes},
      Reports serve Ok sent ((ops rawio rounds).iowrite text) s (r : Int) c out →
      Reports serve Ok sent (do
          let wlen ← (ops rawio rounds).iowrite text
          if wlen < 0 then return wlen
          else
            let wlen ← (ops rawio rounds).iowrite [LF]
            if wlen < 0 then return wlen else return 0) s 0 (translate outStep c [LF]).1
        (out ++ (translate outStep c [LF]).2) := by
    rintro r c out ⟨b₁, hexec₁, hok₁, hsent₁⟩
    obtain ⟨b₂, hexec₂, hok₂, hsent₂⟩ := reports_iowrite ha
      (s := { s with raw := b₁, crOut := c }) hok₁ rounds [LF] (Or.inr (Nat.le_refl 1))
    refine ⟨b₂, ?_, hok₂, ?_⟩
    · rw [Prog.exec_bind_of_eq hexec₁, if_neg (by omega), Prog.exec_bind_of_eq hexec₂,
        if_neg (by omega)]
      rfl
    · rw [hsent₂, hsent₁, List.append_assoc]
  rw [translate_append]
  constructor
  · intro h
    by_contra hcond
    rw [not_or] at hcond
    obtain ⟨hskip, hlen⟩ := hcond
    obtain ⟨front, ch, rfl, hfront⟩ := exists_snoc (Nat.not_le.mp hlen)
    have hagain := reports_iowrite_again ha hok rounds hfront (skipped_eq_one hskip).1
    obtain ⟨-, hout⟩ := h.unique (hfirst hagain)
    -- the machine is in the same state after the byte that came again
    have hstate : (translate outStep s.crOut (front ++ [ch])).1 = decide (ch = CR) := by
      rw [translate_snoc, outStep_state]
    dsimp only at hout
    rw [hstate, List.append_assoc] at hout
    have hnil := List.append_cancel_left hout
    refine outStep_ne_nil (skipped_again ch) ?_
    exact List.append_cancel_right (hnil.symm.trans (List.nil_append _).symm)
  · intro hcond
    exact hfirst (reports_iowrite ha hok rounds text hcond)

/-- **What writing to a terminal reports.** If `rawio` takes everything, `ioterm_write` returns the
length of the buffer, and `iowrite` and `ioputc` send its normalised form once and return a success,
if and only if the buffer does not begin with a `\n` after a `\r` that was the last byte before it.
`ioputs` fails in that case too, unless the string is that `\n` alone. -/
theorem terminal_counts_iff (rounds : Nat) (buf : Bytes) :
    (Normalises serve Ok sent (iotermWrite rawio buf) s buf.length buf ↔
      ¬(s.crOut = true ∧ buf.head? = some LF)) ∧
    (Normalises serve Ok sent ((ops rawio rounds).iowrite buf) s buf.length buf ↔
      ¬(s.crOut = true ∧ buf.head? = some LF)) ∧
    (∀ ch, Normalises serve Ok sent ((ops rawio rounds).ioputc ch) s ch.toNat [ch] ↔
      ¬(s.crOut = true ∧ ch = LF)) ∧
    (Normalises serve Ok sent ((ops rawio rounds).ioputs buf) s 0 (buf.takeWhile (· ≠ 0) ++ [LF]) ↔
      ¬(s.crOut = true ∧ (buf.takeWhile (· ≠ 0)).head? = some LF) ∨
        (buf.takeWhile (· ≠ 0)).length ≤ 1) := by
  have hwrite := reports_iotermWrite ha hok buf
  refine ⟨?_, ?_, fun ch => ?_, ?_⟩
  · rw [← skipped_eq_zero_iff]
    constructor
    · intro h
      obtain ⟨hr, -⟩ := h.unique hwrite
      by_contra hskip
      have := skipped_eq_one hskip
      omega
    · intro hskip
      rwa [hskip, Nat.sub_zero] at hwrite
  · rw [normalises_iowrite_iff ha hok, skipped_eq_zero_iff]
  · rw [normalises_ioputc_iff ha hok, skipped_eq_zero_iff, List.head?_cons, Option.some.injEq]
  · rw [normalises_ioputs_iff ha hok, skipped_eq_zero_iff]

end Writing

/-- A line of text on a new terminal. -/
theorem terminal_counts_line :
    Normalises quietLine (fun _ => True) Line.output ((ops lineIo 2).iowrite [65, CR, LF, 66])
      ⟨⟨[], []⟩, false, false⟩ 4 [65, CR, LF, 66] :=
  ((terminal_counts_iff (s := ⟨⟨[], []⟩, false, false⟩) lineIo_accepts trivial 2
    [65, CR, LF, 66]).2.1).mpr (by decide)

/-- After a `\r`: `ioterm_write` of `\n` and `A` returns 1, so that `iowrite` sends the `A` twice, and
`ioputc` of `\n` returns an error. -/
theorem terminal_counts_after_cr :
    ((iotermWrite lineIo [LF, 65]).exec ((rawLens Line).serve quietLine) ⟨⟨[], [CR, LF]⟩, true, false⟩).map
      (fun r => (r.1, r.2.raw.output)) = some (1, [CR, LF, 65]) ∧
    (((ops lineIo 2).iowrite [LF, 65]).exec ((rawLens Line).serve quietLine)
      ⟨⟨[], [CR, LF]⟩, true, false⟩).map (fun r => (r.1, r.2.raw.output)) =
        some (2, [CR, LF, 65, 65]) ∧
    (((ops lineIo 2).ioputc LF).exec ((rawLens Line).serve quietLine)
      ⟨⟨[], [CR, LF]⟩, true, false⟩).map (fun r => (r.1, r.2.raw.output)) = some (- EIO, [CR, LF]) :=
  ⟨by decide +kernel, by decide +kernel, by decide +kernel⟩

end Term

end RiscvKernel
