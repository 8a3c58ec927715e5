import RiscvKernel.Io.Intf
import RiscvKernel.Lib.CInt

/-!
# Full transfers

`ioread_full` and `iowrite` with the integers that they have: `acc` is a `long` that is compared
with an `unsigned long`. What is behind them may transfer as few bytes as it likes at a time, or stop
at any time. The results of its calls are kept in a list (`logged`).

* `Reader` and `Writer`: what a `read` and a `write` may do.
* `Ended`: the calls of a transfer. Each transferred something, but the last one if it ended it.
* `exec_full_transfers_eq`: the loops of `IoIntf` are these, for lengths that are a `long`.
* `exec_transferLoop`: what the loop has done when it returns, for a call that `Serves`.
-/

namespace RiscvKernel

open Lib

namespace Transfer

variable {β ι κ : Type}

/-- The loop of `ioread_full` and of `iowrite`, for at most so many rounds. `call` is the call for
the bytes from `acc` on. -/
def transferLoop {τ : Type} (call : Nat → τ → Prog β ι κ (Int × τ)) (len : Nat) :
    Nat → Int → τ → Prog β ι κ (Int × τ)
  | 0, _, _ => .crash
  | fuel + 1, acc, x =>
    if u64 acc < len then do
      let (cnt, x) ← call (u64 acc) x
      if cnt < 0 then return (cnt, x)
      else if cnt = 0 then return (acc, x)
      else transferLoop call len fuel (i64 (acc + cnt)) x
    else return (acc, x)

/-- `ioread_full` -/
def ioreadFull (io : IoIntf β ι κ) (buf : Bytes) : Prog β ι κ (Int × Bytes) :=
  transferLoop (fun acc buf => do
    let (cnt, tail) ← io.read (buf.drop acc)
    return (cnt, buf.take acc ++ tail)) buf.length (buf.length + 1) 0 buf

/-- `iowrite` -/
def iowrite (io : IoIntf β ι κ) (buf : Bytes) : Prog β ι κ Int := do
  let (r, _) ← transferLoop (fun acc (_ : Unit) => do
    let cnt ← io.write (buf.drop acc)
    return (cnt, ())) buf.length (buf.length + 1) 0 ()
  return r

/-! ## What is behind -/

/-- The state without the list of results. -/
def below (β : Type) : Lens (β × List Int) β where
  view := Prod.fst
  put s b := (b, s.2)
  view_put _ _ := rfl
  put_view _ := rfl
  put_put _ _ _ := rfl

/-- The same object, with the results of its calls in a list. -/
def logged (io : IoIntf β ι κ) : IoIntf (β × List Int) ι κ where
  read buf := do
    let r ← (io.read buf).zoom (below β)
    Prog.modify fun s => (s.1, s.2 ++ [r.1])
    return r
  write buf := do
    let r ← (io.write buf).zoom (below β)
    Prog.modify fun s => (s.1, s.2 ++ [r])
    return r
  ctl cmd arg := (io.ctl cmd arg).zoom (below β)

/-- A `read` delivers at least one of the bytes of `src` that come next and goes past them, or it
returns 0 at their end, or an error. -/
structure Reader (io : IoIntf β ι κ) (serve : β → Option β) (Ok : β → Prop) (src : β → Bytes) :
    Prop where
  read : ∀ b buf, Ok b → buf ≠ [] → ∃ cnt tail b',
    (io.read buf).exec serve b = some ((cnt, tail), b') ∧ tail.length = buf.length ∧ Ok b' ∧
      ((∃ data, data ≠ [] ∧ data.length ≤ buf.length ∧ cnt = data.length ∧
          tail.take data.length = data ∧ src b = data ++ src b') ∨
        (cnt = 0 ∧ src b = [] ∧ src b' = []) ∨
        (cnt < 0 ∧ src b' = src b))

/-- A `write` sends at least one byte, or it returns 0 or an error and sends nothing. -/
structure Writer (io : IoIntf β ι κ) (serve : β → Option β) (Ok : β → Prop) (sent : β → Bytes) :
    Prop where
  write : ∀ b buf, Ok b → buf ≠ [] → ∃ cnt b', (io.write buf).exec serve b = some (cnt, b') ∧ Ok b' ∧
      ((∃ n, 0 < n ∧ n ≤ buf.length ∧ cnt = ((n : Nat) : Int) ∧ sent b' = sent b ++ buf.take n) ∨
        (cnt ≤ 0 ∧ sent b' = sent b))

/-- The calls of a transfer to the length `len` that stood at `acc` and went on by `n` bytes: all of
them transferred something and the result is the length; or the last one returned 0, and the result is
the number of bytes before it; or it failed, and the result is its error. -/
structure Ended (results : List Int) (acc n len : Nat) (r : Int) (eof : Prop) : Prop where
  counts : ∃ counts : List Nat, (∀ c ∈ counts, 0 < c) ∧ counts.sum = n ∧
    ((results = counts.map (Nat.cast : Nat → Int) ∧ acc + n = len ∧ r = (len : Int)) ∨
      (results = counts.map (Nat.cast : Nat → Int) ++ [0] ∧ acc + n < len ∧ r = ((acc + n : Nat) : Int) ∧
        eof) ∨
      (results = counts.map (Nat.cast : Nat → Int) ++ [r] ∧ acc + n < len ∧ r < 0))

variable {results : List Int} {acc n len : Nat} {r : Int} {eof : Prop}

/-- There is at most one call for each byte. -/
theorem Ended.length_le (h : Ended results acc n len r eof) : results.length ≤ len := by
  obtain ⟨counts, hpos, hsum, hcases⟩ := h.counts
  have hle := List.length_le_sum_of_one_le _ hpos
  rcases hcases with ⟨rfl, hn, -⟩ | ⟨rfl, hn, -⟩ | ⟨rfl, hn, -⟩
  · rw [List.length_map]
    omega
  · rw [List.length_append, List.length_map, List.length_singleton]
    omega
  · rw [List.length_append, List.length_map, List.length_singleton]
    omega

/-- A call that transferred `k` bytes came first. -/
theorem Ended.cons {k : Nat} (hk : 0 < k) (h : Ended results (acc + k) n len r eof) :
    Ended ((k : Int) :: results) acc (k + n) len r eof := by
  obtain ⟨counts, hpos, hsum, hcases⟩ := h.counts
  refine ⟨k :: counts, ?_, ?_, ?_⟩
  · intro c hc
    rcases List.mem_cons.mp hc with rfl | hc
    · exact hk
    · exact hpos c hc
  · rw [List.sum_cons, hsum]
  · rw [← Nat.add_assoc]
    rcases hcases with ⟨rfl, hn, hr⟩ | ⟨rfl, hn, hr, heof⟩ | ⟨rfl, hn, hr⟩
    · exact Or.inl ⟨rfl, hn, hr⟩
    · exact Or.inr (Or.inl ⟨rfl, hn, hr, heof⟩)
    · exact Or.inr (Or.inr ⟨rfl, hn, hr⟩)

theorem ended_full (h : acc = len) : Ended [] acc 0 len (acc : Int) eof :=
  ⟨[], nofun, rfl, Or.inl ⟨rfl, h, by rw [h]⟩⟩

theorem ended_eof (h : acc < len) (heof : eof) : Ended [0] acc 0 len (acc : Int) eof :=
  ⟨[], nofun, rfl, Or.inr (Or.inl ⟨rfl, h, rfl, heof⟩)⟩

theorem ended_error (h : acc < len) (hr : r < 0) : Ended [r] acc 0 len r eof :=
  ⟨[], nofun, rfl, Or.inr (Or.inr ⟨rfl, h, hr⟩)⟩

/-- `acc` as it is compared, and after a call. -/
theorem u64_acc (h : acc ≤ len) (hlen : len < 2 ^ 63) : u64 (acc : Int) = acc :=
  u64_eq rfl (by omega)

theorem i64_acc {k : Nat} (h : acc + k ≤ len) (hlen : len < 2 ^ 63) :
    i64 ((acc : Int) + (k : Int)) = ((acc + k : Nat) : Int) := by
  rw [i64_eq (by omega) (by omega)]
  omega

/-! ## The loops without the integers -/

section

variable {io : IoIntf β ι κ} {serve : β → Option β} {buf : Bytes}

/-- The loop of `ioread_full` is that of `IoIntf`, if a read returns at most the size of its buffer.
Induction on the rounds left. -/
theorem exec_transferLoop_read (hio : ∀ b s r, (io.read b).exec serve s = some r →
      r.1.1 ≤ b.length ∧ r.1.2.length = b.length) (hbuf : buf.length = len) (hlen : len < 2 ^ 63)
    (n : Nat) (hacc : acc ≤ len) (hn : len ≤ acc + n) (s : β) :
    (transferLoop (fun acc buf => do
        let (cnt, tail) ← io.read (buf.drop acc)
        return (cnt, buf.take acc ++ tail)) len (n + 1) acc buf).exec serve s =
      (io.readFrom n acc buf).exec serve s := by
  induction n generalizing acc buf s with
  | zero =>
    unfold transferLoop
    rw [u64_acc hacc hlen, if_neg (by omega)]
    rfl
  | succ n ih =>
    unfold transferLoop IoIntf.readFrom
    rw [u64_acc hacc hlen, hbuf]
    split
    · simp only [Prog.exec_bind]
      cases hread : (io.read (buf.drop acc)).exec serve s with
      | none => rfl
      | some r =>
        obtain ⟨hcnt, htail⟩ := hio _ _ _ hread
        rw [List.length_drop] at hcnt htail
        simp only [Option.bind_some, Prog.pure_eq, Prog.exec_ret]
        split
        · rfl
        split
        · rfl
        · obtain ⟨k, hk⟩ := Int.eq_ofNat_of_zero_le (Int.not_lt.mp ‹_›)
          rw [hk] at hcnt ⊢
          rw [i64_acc (by omega) hlen, Int.toNat_natCast]
          refine ih ?_ (by omega) (by omega) _
          rw [List.length_append, List.length_take, htail]
          omega
    · rfl

theorem exec_transferLoop_write (hio : ∀ b s r, (io.write b).exec serve s = some r → r.1 ≤ b.length)
    (hlen : buf.length < 2 ^ 63) (n : Nat) (hacc : acc ≤ buf.length) (hn : buf.length ≤ acc + n) (s : β) :
    (transferLoop (fun acc (_ : Unit) => do
        let cnt ← io.write (buf.drop acc)
        return (cnt, ())) buf.length (n + 1) acc ()).exec serve s =
      ((io.writeFrom buf n acc).exec serve s).map fun r => ((r.1, ()), r.2) := by
  induction n generalizing acc s with
  | zero =>
    unfold transferLoop
    rw [u64_acc hacc hlen, if_neg (by omega)]
    rfl
  | succ n ih =>
    unfold transferLoop IoIntf.writeFrom
    rw [u64_acc hacc hlen]
    split
    · simp only [Prog.exec_bind]
      cases hwrite : (io.write (buf.drop acc)).exec serve s with
      | none => rfl
      | some r =>
        have hcnt := hio _ _ _ hwrite
        rw [List.length_drop] at hcnt
        simp only [Option.bind_some, Prog.pure_eq, Prog.exec_ret]
        split
        · rfl
        split
        · rfl
        · obtain ⟨k, hk⟩ := Int.eq_ofNat_of_zero_le (Int.not_lt.mp ‹_›)
          rw [hk] at hcnt ⊢
          rw [i64_acc (by omega) hlen, Int.toNat_natCast]
          exact ih (by omega) (by omega) _
    · rfl

/-- With a length below `2 ^ 63` and counts that fit, the full transfers are those of `IoIntf`, which
the rest of the development uses. -/
theorem exec_full_transfers_eq (hlen : buf.length < 2 ^ 63)
    (hread : ∀ b s r, (io.read b).exec serve s = some r → r.1.1 ≤ b.length ∧ r.1.2.length = b.length)
    (hwrite : ∀ b s r, (io.write b).exec serve s = some r → r.1 ≤ b.length) (s : β) :
    (ioreadFull io buf).exec serve s = (io.ioreadFull buf).exec serve s ∧
      (iowrite io buf).exec serve s = (io.iowrite buf).exec serve s := by
  refine ⟨exec_transferLoop_read hread rfl hlen _ (Nat.zero_le _) (by omega) s, ?_⟩
  have hloop := exec_transferLoop_write hwrite hlen buf.length (Nat.zero_le _) (by omega) s
  unfold iowrite IoIntf.iowrite
  rw [Prog.exec_bind]
  refine (congrArg (Option.bind · _) hloop).trans ?_
  cases (io.writeFrom buf buf.length 0).exec serve s with
  | none => rfl
  | some r => rfl

end

/-- What a call may do for a transfer to the length `len`, if `P acc` holds: it goes on by some
bytes, or stops. It adds its result to the log. -/
def Serves {σ τ : Type} (call : Nat → τ → Prog σ ι κ (Int × τ)) (serve : σ → Option σ)
    (log : σ → List Int) (len : Nat) (P : Nat → τ → σ → Prop) (eof : σ → Prop) : Prop :=
  ∀ acc x s, acc < len → P acc x s → ∃ cnt x' s', (call acc x).exec serve s = some ((cnt, x'), s') ∧
    log s' = log s ++ [cnt] ∧
    ((∃ k : Nat, cnt = k ∧ 0 < k ∧ acc + k ≤ len ∧ P (acc + k) x' s') ∨
      (cnt = 0 ∧ P acc x' s' ∧ eof s') ∨ (cnt < 0 ∧ P acc x' s'))

/-- **The loop.** -/
theorem exec_transferLoop {σ τ : Type} {call : Nat → τ → Prog σ ι κ (Int × τ)} {serve : σ → Option σ}
    {log : σ → List Int} {P : Nat → τ → σ → Prop} {eof : σ → Prop} {x : τ} {s : σ} (fuel : Nat)
    (hcall : Serves call serve log len P eof) (hlen : len < 2 ^ 63) (hacc : acc ≤ len)
    (hfuel : len < acc + fuel) (hP : P acc x s) :
    ∃ r x' s' results n, (transferLoop call len fuel acc x).exec serve s = some ((r, x'), s') ∧
      log s' = log s ++ results ∧ acc + n ≤ len ∧ P (acc + n) x' s' ∧
      Ended results acc n len r (eof s') := by
  induction fuel generalizing acc x s with
  | zero => omega
  | succ fuel ih =>
    unfold transferLoop
    rw [u64_acc hacc hlen]
    by_cases hlt : acc < len
    · obtain ⟨cnt, x₁, s₁, hexec, hlog, hcases⟩ := hcall acc x s hlt hP
      rw [if_pos hlt, Prog.exec_bind_of_eq hexec]
      dsimp only
      rcases hcases with ⟨k, rfl, hpos, hle, hP₁⟩ | ⟨rfl, hP₁, heof⟩ | ⟨hneg, hP₁⟩
      · -- some bytes, and another round
        rw [if_neg (by omega), if_neg (by omega), i64_acc hle hlen]
        obtain ⟨r, x', s', results, n, hrest, hlog', hle', hP', hended⟩ := ih hle (by omega) hP₁
        rw [Nat.add_assoc] at hle' hP'
        refine ⟨r, x', s', k :: results, k + n, hrest, ?_, hle', hP', hended.cons hpos⟩
        rw [hlog', hlog, List.append_assoc]
        rfl
      · rw [if_neg (by omega), if_pos rfl]
        exact ⟨acc, x₁, s₁, [0], 0, rfl, hlog, hacc, hP₁, ended_eof hlt heof⟩
      · rw [if_pos hneg]
        exact ⟨cnt, x₁, s₁, [cnt], 0, rfl, hlog, hacc, hP₁, ended_error hlt hneg⟩
    · rw [if_neg hlt]
      exact ⟨acc, x, s, [], 0, rfl, (List.append_nil _).symm, hacc, hP, ended_full (by omega)⟩

section

variable {io : IoIntf β ι κ} {serve : β → Option β} {Ok : β → Prop} {b b' : β} {log : List Int}

theorem exec_logged {α : Type} {p : Prog β ι κ α} {f : α → Int} {a : α}
    (h : p.exec serve b = some (a, b')) :
    (do
      let r ← p.zoom (below β)
      Prog.modify fun s => (s.1, s.2 ++ [f r])
      return r : Prog (β × List Int) ι κ α).exec ((below β).serve serve) (b, log) =
        some (a, (b', log ++ [f a])) := by
  have hzoom : (p.zoom (below β)).exec ((below β).serve serve) (b, log) = some (a, (b', log)) := by
    rw [Prog.exec_zoom]
    show (p.exec serve b).map _ = _
    rw [h]
    rfl
  rw [Prog.exec_bind_of_eq hzoom]
  rfl

/-- `read` stores the bytes that come next behind those that are there. -/
theorem serves_read {src : β → Bytes} (hio : Reader io serve Ok src) (b : β) :
    Serves (fun acc buf => do
        let (cnt, tail) ← (logged io).read (buf.drop acc)
        return (cnt, buf.take acc ++ tail)) ((below β).serve serve) Prod.snd len
      (fun acc buf s => buf.length = len ∧ Ok s.1 ∧ src b = buf.take acc ++ src s.1)
      fun s => src s.1 = [] := by
  intro acc buf s hacc hP
  obtain ⟨rfl, hok, hsrc⟩ := hP
  have hdrop : buf.drop acc ≠ [] := fun h => Nat.not_le.mpr hacc (List.drop_eq_nil_iff.mp h)
  have htake : (buf.take acc).length = acc := List.length_take_of_le (Nat.le_of_lt hacc)
  obtain ⟨cnt, tail, b', hread, htail, hok', hcases⟩ := hio.read s.1 _ hok hdrop
  have hlen : (buf.take acc ++ tail).length = buf.length := by
    rw [List.length_append, htail, htake, List.length_drop]
    omega
  have hexec : ((logged io).read (buf.drop acc)).exec ((below β).serve serve) s =
      some ((cnt, tail), (b', s.2 ++ [cnt])) := exec_logged hread
  -- what is stored is behind what was there
  have hstored : ∀ k, (buf.take acc ++ tail).take (acc + k) = buf.take acc ++ tail.take k := by
    intro k
    rw [List.take_append, htake, Nat.add_sub_cancel_left, List.take_of_length_le (by omega)]
  refine ⟨cnt, buf.take acc ++ tail, (b', s.2 ++ [cnt]), ?_, rfl, ?_⟩
  · rw [Prog.exec_bind_of_eq hexec]
    rfl
  · rcases hcases with ⟨data, hne, hle, rfl, hdata, hnext⟩ | ⟨rfl, hnext, hend⟩ | ⟨hneg, hsame⟩
    · rw [List.length_drop] at hle
      refine Or.inl ⟨data.length, rfl, List.length_pos_iff.mpr hne, by omega, hlen, hok', ?_⟩
      rw [hstored, hdata, hsrc, hnext, List.append_assoc]
    · refine Or.inr (Or.inl ⟨rfl, ⟨hlen, hok', ?_⟩, hend⟩)
      rw [hsrc, hnext, hend]
      exact congrArg (· ++ []) ((hstored 0).trans (List.append_nil _)).symm
    · refine Or.inr (Or.inr ⟨hneg, hlen, hok', ?_⟩)
      rw [hsrc, hsame]
      exact congrArg (· ++ _) ((hstored 0).trans (List.append_nil _)).symm

/-- `write` sends the bytes that come next. -/
theorem serves_write {sent : β → Bytes} (hio : Writer io serve Ok sent) (b : β) (buf : Bytes) :
    Serves (fun acc (_ : Unit) => do
        let cnt ← (logged io).write (buf.drop acc)
        return (cnt, ())) ((below β).serve serve) Prod.snd buf.length
      (fun acc _ s => Ok s.1 ∧ sent s.1 = sent b ++ buf.take acc) fun _ => True := by
  intro acc _ s hacc hP
  obtain ⟨hok, hsent⟩ := hP
  have hdrop : buf.drop acc ≠ [] := fun h => Nat.not_le.mpr hacc (List.drop_eq_nil_iff.mp h)
  obtain ⟨cnt, b', hwrite, hok', hcases⟩ := hio.write s.1 _ hok hdrop
  have hexec : ((logged io).write (buf.drop acc)).exec ((below β).serve serve) s =
      some (cnt, (b', s.2 ++ [cnt])) := exec_logged (f := id) hwrite
  refine ⟨cnt, (), (b', s.2 ++ [cnt]), ?_, rfl, ?_⟩
  · rw [Prog.exec_bind_of_eq hexec]
    rfl
  · rcases hcases with ⟨k, hpos, hle, rfl, hnext⟩ | ⟨hstop, hsame⟩
    · rw [List.length_drop] at hle
      refine Or.inl ⟨k, rfl, hpos, by omega, hok', ?_⟩
      rw [hnext, hsent, List.append_assoc, List.take_add]
    · have hkept : Ok b' ∧ sent b' = sent b ++ buf.take acc := ⟨hok', hsame.trans hsent⟩
      by_cases hzero : cnt = 0
      · exact Or.inr (Or.inl ⟨hzero, hkept, trivial⟩)
      · exact Or.inr (Or.inr ⟨by omega, hkept⟩)

end

/-- **Full transfers compose partial ones.** With a length below `2 ^ 63`, `ioread_full` stores the
bytes that come next without a gap, and `iowrite` sends the bytes of the buffer in order, each once.
The result is the length, or the number of bytes before the end of the file, or the first error. There
is at most one call for each byte. -/
theorem full_transfers_compose (io : IoIntf β ι κ) (serve : β → Option β) (Ok : β → Prop) :
    (∀ src : β → Bytes, Reader io serve Ok src → ∀ (b : β) (log : List Int) (buf : Bytes), Ok b →
      buf.length < 2 ^ 63 → ∃ r buf' b' results n,
        (ioreadFull (logged io) buf).exec ((below β).serve serve) (b, log) =
          some ((r, buf'), (b', log ++ results)) ∧ buf'.length = buf.length ∧ n ≤ buf.length ∧
        src b = buf'.take n ++ src b' ∧ Ended results 0 n buf.length r (src b' = []) ∧
        results.length ≤ buf.length + 1) ∧
    ∀ sent : β → Bytes, Writer io serve Ok sent → ∀ (b : β) (log : List Int) (buf : Bytes), Ok b →
      buf.length < 2 ^ 63 → ∃ r b' results n,
        (iowrite (logged io) buf).exec ((below β).serve serve) (b, log) =
          some (r, (b', log ++ results)) ∧ n ≤ buf.length ∧
        sent b' = sent b ++ buf.take n ∧ Ended results 0 n buf.length r True ∧
        results.length ≤ buf.length + 1 := by
  refine ⟨?_, ?_⟩
  · intro src hio b log buf hok hlen
    obtain ⟨r, buf', s', results, n, hexec, hlog, hle, ⟨hlen', -, hsrc⟩, hended⟩ :=
      exec_transferLoop (s := (b, log)) (buf.length + 1) (serves_read hio b) hlen (Nat.zero_le _)
        (by omega) ⟨rfl, hok, rfl⟩
    rw [Nat.zero_add] at hle hsrc
    refine ⟨r, buf', s'.1, results, n, ?_, hlen', hle, hsrc, hended, Nat.le_succ_of_le hended.length_le⟩
    rw [← hlog]
    exact hexec
  · intro sent hio b log buf hok hlen
    obtain ⟨r, x', s', results, n, hexec, hlog, hle, ⟨-, hsent⟩, hended⟩ :=
      exec_transferLoop (x := ()) (s := (b, log)) (buf.length + 1) (serves_write hio b buf) hlen
        (Nat.zero_le _) (by omega) ⟨hok, (List.append_nil _).symm⟩
    rw [Nat.zero_add] at hle hsent
    refine ⟨r, s'.1, results, n, ?_, hle, hsent, hended, Nat.le_succ_of_le hended.length_le⟩
    exact (Prog.exec_bind_of_eq hexec _).trans (congrArg (fun l => some (r, (s'.1, l))) hlog)

/-- An object that delivers and takes one byte at a time. -/
def bytewise : IoIntf (Bytes × Bytes) Unit Unit where
  read buf := do
    let s ← Prog.get
    match s.1, buf with
    | c :: _, _ :: buf =>
      Prog.modify fun s => (s.1.tail, s.2)
      return (1, c :: buf)
    | _, buf => return (0, buf)
  write buf := do
    Prog.modify fun s => (s.1, s.2 ++ buf.take 1)
    return 1
  ctl _ arg := return (-ENOTSUP, arg)

theorem bytewise_reader : Reader bytewise (fun _ => none) (fun _ => True) Prod.fst where
  read b buf _ hbuf := by
    obtain ⟨src, sent⟩ := b
    obtain ⟨x, buf, rfl⟩ := List.exists_cons_of_ne_nil hbuf
    cases src with
    | nil => exact ⟨0, x :: buf, ([], sent), rfl, rfl, trivial, Or.inr (Or.inl ⟨rfl, rfl, rfl⟩)⟩
    | cons c src =>
      exact ⟨1, c :: buf, (src, sent), rfl, rfl, trivial,
        Or.inl ⟨[c], List.cons_ne_nil _ _, Nat.succ_le_succ (Nat.zero_le _), rfl, rfl, rfl⟩⟩

theorem bytewise_writer : Writer bytewise (fun _ => none) (fun _ => True) Prod.snd where
  write b buf _ hbuf := ⟨1, (b.1, b.2 ++ buf.take 1), rfl, trivial,
    Or.inl ⟨1, Nat.one_pos, List.length_pos_iff.mpr hbuf, rfl, rfl⟩⟩

/-- Three bytes are read from two, and two are written. -/
theorem full_transfers_compose_bytewise :
    (∃ r buf' b' results n, (ioreadFull (logged bytewise) [0, 0, 0]).exec
        ((below (Bytes × Bytes)).serve fun _ => none) (([5, 6], []), []) =
          some ((r, buf'), (b', results)) ∧
      [5, 6] = buf'.take n ++ b'.1 ∧ Ended results 0 n 3 r (b'.1 = [])) ∧
    ∃ r b' results n, (iowrite (logged bytewise) [7, 8]).exec
        ((below (Bytes × Bytes)).serve fun _ => none) (([], []), []) = some (r, (b', results)) ∧
      b'.2 = ([7, 8] : Bytes).take n ∧ Ended results 0 n 2 r True := by
  obtain ⟨hread, hwrite⟩ :=
    full_transfers_compose bytewise (fun _ => none) fun _ => True
  obtain ⟨r, buf', b', results, n, hexec, -, -, hsrc, hended, -⟩ :=
    hread _ bytewise_reader ([5, 6], []) [] [0, 0, 0] trivial (by decide)
  obtain ⟨r₂, b₂, results₂, n₂, hexec₂, -, hsent, hended₂, -⟩ :=
    hwrite _ bytewise_writer ([], []) [] [7, 8] trivial (by decide)
  exact ⟨⟨r, buf', b', results, n, hexec, hsrc, hended⟩, r₂, b₂, results₂, n₂, hexec₂, hsent, hended₂⟩

end Transfer

end RiscvKernel
