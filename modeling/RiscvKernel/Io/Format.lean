import RiscvKernel.Io.Intf
import RiscvKernel.Lib.Bytes
import RiscvKernel.Lib.CInt
import RiscvKernel.Lib.Numeral

/-!
# Formatted output

`vgprintf` of `string.c` with its two helpers, over the state `σ` of whatever `putcfn` writes to.
`vsnprintf` is one such state: a position in memory and the space that is left.

* `formatInt_eq`, `formatStr_eq`: what the helpers put out, and that they count it.
* `convert_eq`: the same for a directive with the argument that it takes.
* `formatting_truncates`: `vgprintf` passes one text to every `putcfn` and returns its length, and
  `vsnprintf` stores as much of it as there is room for.
* `printed_integers_read_back`: a printed number is its numeral, with padding.
-/

namespace RiscvKernel

open Lib

namespace Format

/-- An argument in the `va_list`: a 64-bit word, or what a `char *` points to. -/
inductive Arg where
  | word (w : Nat)
  | str (s : Bytes)
  | null
  deriving DecidableEq

/-- The digit `d`, in lower case. -/
def digitChar (d : Nat) : UInt8 := UInt8.ofNat (if d < 10 then 48 + d else 97 + d - 10)

/-- The first loop of `format_int`: digits are stored from the end of `buf` on. A store in front of
it is wild. -/
def storeDigits (base : Nat) : Nat → Bytes → Nat → Option (Nat × Bytes)
  | 0, _, _ => none
  | p + 1, buf, val =>
    let d := val % base
    let val := val / base
    let buf := buf.set p (digitChar d)
    if val ≠ 0 then storeDigits base p buf val else some (p, buf)

section

variable {σ : Type} (putc : σ → UInt8 → σ)

/-- The loops that pass a string to `putcfn`, character by character. -/
def putAll : Bytes → Nat → σ → Nat × σ
  | [], nout, s => (nout, s)
  | c :: str, nout, s => putAll str (nout + 1) (putc s c)

/-- The padding of `format_int`; `used` characters follow. -/
def pad (c : UInt8) (used : Nat) : Nat → Nat → σ → Nat × σ
  | 0, nout, s => (nout, s)
  | len + 1, nout, s => if used < len + 1 then pad c used len (nout + 1) (putc s c) else (nout, s)

/-- `format_int` -/
def formatInt (val base : Nat) (zpad : Bool) (len : Nat) (s : σ) : Option (Nat × σ) :=
  match storeDigits base 40 (List.replicate 40 0) val with
  | none => none
  | some (p, buf) =>
    let r := pad putc (if zpad then 48 else 32) (40 - p) len 0 s
    some (putAll putc (buf.drop p) r.1 r.2)

/-- The padding of `format_str`. -/
def spaces : Nat → σ → σ
  | 0, s => s
  | len + 1, s => spaces len (putc s 32)

/-- `(null)` -/
def nullText : Bytes := [40, 110, 117, 108, 108, 41]

/-- `format_str`; no string is the null pointer. -/
def formatStr (str : Option Bytes) (len : Nat) (s : σ) : Nat × σ :=
  let str := str.getD nullText
  let r := putAll putc (str.takeWhile (· ≠ 0)) 0 s
  if r.1 < len then (r.1 + (len - r.1), spaces putc (len - r.1) r.2) else r

/-- What stands between `%` and the conversion character. -/
structure Spec where
  zpad : Bool
  len : Nat
  lcnt : Nat
  deriving DecidableEq

/-- The loop that reads the width. -/
def scanWidth : Bytes → Nat → Nat × Bytes
  | [], len => (len, [])
  | c :: str, len =>
    if 48 ≤ c ∧ c ≤ 57 then scanWidth str (u32 (10 * len + (c.toNat - 48))) else (len, c :: str)

/-- The loop that counts `l`. -/
def scanLong : Bytes → Nat → Nat × Bytes
  | [], lcnt => (lcnt, [])
  | c :: str, lcnt => if c = 108 then scanLong str (u32 (lcnt + 1)) else (lcnt, c :: str)

/-- A directive after the `%`, up to its conversion character. `size_t` and `intmax_t` are as long
as `long long`, so that `z` and `j` stand for `ll`. -/
def directive (str : Bytes) : Spec × Bytes :=
  let zpad := str.head? = some 48
  let w := scanWidth str 0
  let l := scanLong w.2 0
  if l.2.head? = some 122 ∨ l.2.head? = some 106 then (⟨zpad, w.1, 2⟩, l.2.tail)
  else (⟨zpad, w.1, l.1⟩, l.2)

/-- The `switch` on the conversion character `c`: the characters that are counted, the arguments that
are left and the state. There is no result for an argument of another kind. -/
def convert (f : Spec) (c : UInt8) (ap : List Arg) (s : σ) : Option (Nat × List Arg × σ) :=
  if c = 100 then
    match ap with
    | .word w :: ap =>
      let ival := if 0 < f.lcnt then i64 w else i32 w
      if ival < 0 then
        let ival := i64 (-ival)
        let len := if 0 < f.len then f.len - 1 else f.len
        (formatInt putc (u64 ival) 10 f.zpad len (putc s 45)).map fun r => (1 + r.1, ap, r.2)
      else (formatInt putc (u64 ival) 10 f.zpad f.len s).map fun r => (r.1, ap, r.2)
    | _ => none
  else if c = 117 ∨ c = 120 then
    match ap with
    | .word w :: ap =>
      let ival := i64 (if 0 < f.lcnt then u64 w else u32 w)
      let base := if c = 120 then 16 else 10
      (formatInt putc (u64 ival) base f.zpad f.len s).map fun r => (r.1, ap, r.2)
    | _ => none
  else if c = 115 then
    match ap with
    | .str str :: ap =>
      let r := formatStr putc (some str) f.len s
      some (r.1, ap, r.2)
    | .null :: ap =>
      let r := formatStr putc none f.len s
      some (r.1, ap, r.2)
    | _ => none
  else if c = 112 then
    match ap with
    | .word w :: ap =>
      let r := formatStr putc (some [48, 120]) 2 s
      (formatInt putc (u64 (i64 (u64 w))) 16 f.zpad f.len r.2).map fun r' => (r.1 + r'.1, ap, r'.2)
    | _ => none
  else
    let s := putc s 37
    let s := if c < 32 ∨ 127 ≤ c then putc s 63 else putc s c
    some (2, ap, s)

/-- The loop of `vgprintf`, for at most `fuel` rounds, on what is left of the format. -/
def vgprintfLoop : Nat → Bytes → List Arg → Nat → σ → Option (Nat × σ)
  | 0, _, _, _, _ => none
  | _ + 1, [], _, nout, s => some (nout, s)
  | fuel + 1, c :: str, ap, nout, s =>
    if c = 37 then
      let d := directive str
      match convert putc d.1 (d.2.headD 0) ap s with
      | none => none
      | some (n, ap, s) =>
        -- at the end of the string `p -= 1` comes before `p += 1`, and `p` stays there
        vgprintfLoop fuel (d.2.drop 1) ap (u64 (nout + n)) s
    else vgprintfLoop fuel str ap (u64 (nout + 1)) (putc s c)

/-- `vgprintf`; the format ends before its first null byte. -/
def vgprintf (fmt : Bytes) (ap : List Arg) (s : σ) : Option (Nat × σ) :=
  let str := fmt.takeWhile (· ≠ 0)
  vgprintfLoop putc (str.length + 1) str ap 0 s

end

/-- `struct vsnprintf_state`, with the memory that it points to. -/
structure SnState where
  mem : Bytes
  pos : Nat
  rem : Nat

/-- `vsnprintf_putc` -/
def vsnprintfPutc (s : SnState) (c : UInt8) : SnState :=
  if s.rem ≤ 1 then s else ⟨s.mem.set s.pos c, s.pos + 1, s.rem - 1⟩

/-- `vsnprintf` with the buffer at `buf` in memory: the result and the memory. -/
def vsnprintf (mem : Bytes) (buf bufsz : Nat) (fmt : Bytes) (ap : List Arg) : Option (Nat × Bytes) :=
  match vgprintf vsnprintfPutc fmt ap ⟨mem, buf, bufsz⟩ with
  | none => none
  | some (n, s) => some (n, if s.rem ≠ 0 then s.mem.set s.pos 0 else s.mem)

/-! ## The helpers -/

/-- The digits of a number as text. -/
def numeralText (base val : Nat) : Bytes := (numeral base val).map digitChar

/-- What `format_int` puts out. -/
def intText (val base : Nat) (zpad : Bool) (len : Nat) : Bytes :=
  List.replicate (len - (numeralText base val).length) (if zpad then 48 else 32) ++
    numeralText base val

/-- What `format_str` puts out. -/
def strText (str : Option Bytes) (len : Nat) : Bytes :=
  let str := (str.getD nullText).takeWhile (· ≠ 0)
  str ++ List.replicate (len - str.length) 32

section

variable {σ : Type} {putc : σ → UInt8 → σ} {s : σ}

theorem putAll_eq (str : Bytes) (nout : Nat) (s : σ) :
    putAll putc str nout s = (nout + str.length, str.foldl putc s) := by
  induction str generalizing nout s with
  | nil => rfl
  | cons c str ih =>
    unfold putAll
    rw [ih, List.length_cons, Nat.add_assoc, Nat.add_comm 1]
    rfl

theorem pad_eq (c : UInt8) (used len nout : Nat) (s : σ) :
    pad putc c used len nout s =
      (nout + (len - used), (List.replicate (len - used) c).foldl putc s) := by
  induction len generalizing nout s with
  | zero => rw [Nat.zero_sub]; rfl
  | succ len ih =>
    unfold pad
    split
    · next h =>
      rw [ih, show len + 1 - used = len - used + 1 by omega, List.replicate_succ, List.foldl_cons,
        Nat.add_assoc, Nat.add_comm 1]
    · next h =>
      rw [Nat.sub_eq_zero_of_le (Nat.le_of_not_lt h)]
      rfl

theorem spaces_eq (len : Nat) (s : σ) : spaces putc len s = (List.replicate len 32).foldl putc s := by
  induction len generalizing s with
  | zero => rfl
  | succ len ih =>
    unfold spaces
    rw [ih, List.replicate_succ, List.foldl_cons]

theorem length_numeralText (base val : Nat) :
    (numeralText base val).length = (numeral base val).length := List.length_map _

/-- The digits of `val` fill the buffer up to the place where they began. -/
theorem storeDigits_eq {base : Nat} (hbase : 2 ≤ base) {p : Nat} {buf : Bytes} {val : Nat}
    (hfits : (numeral base val).length ≤ p) (hp : p ≤ buf.length) :
    ∃ buf', storeDigits base p buf val = some (p - (numeral base val).length, buf') ∧
      buf'.drop (p - (numeral base val).length) = numeralText base val ++ buf.drop p := by
  induction p generalizing buf val with
  | zero =>
    have hne := List.length_pos_iff.mpr (numeral_ne_nil hbase val)
    omega
  | succ p ih =>
    have hset : (buf.set p (digitChar (val % base))).drop p =
        digitChar (val % base) :: buf.drop (p + 1) := by
      rw [List.drop_set, if_neg (Nat.lt_irrefl p), Nat.sub_self,
        List.drop_eq_getElem_cons (show p < buf.length by omega), List.set_cons_zero]
    unfold storeDigits numeralText
    rw [numeral_eq hbase] at hfits ⊢
    by_cases hq : val / base = 0
    · rw [if_pos hq, if_neg (not_not.mpr hq)]
      exact ⟨_, rfl, hset⟩
    · rw [if_neg hq] at hfits ⊢
      rw [List.length_append, List.length_singleton] at hfits ⊢
      have hp' : p ≤ (buf.set p (digitChar (val % base))).length := by
        rw [List.length_set]
        omega
      obtain ⟨buf', hstore, hdrop⟩ := ih (Nat.le_of_succ_le_succ hfits) hp'
      rw [if_pos hq, hstore, Nat.succ_sub_succ]
      refine ⟨buf', rfl, ?_⟩
      rw [hdrop, hset, List.map_append, List.append_assoc]
      rfl

/-- The digits of a 64-bit number fit. -/
theorem length_numeral_le_forty {base val : Nat} (hbase : base = 10 ∨ base = 16) (hval : val < 2 ^ 64) :
    (numeral base val).length ≤ 40 := by
  rcases hbase with rfl | rfl
  · exact length_numeral_le (by decide) (by decide) (Nat.lt_trans hval (by decide))
  · exact length_numeral_le (by decide) (by decide) (Nat.lt_trans hval (by decide))

/-- **`format_int`** puts out the numeral with its padding, and counts it. -/
theorem formatInt_eq {val base : Nat} (hbase : base = 10 ∨ base = 16) (hval : val < 2 ^ 64)
    (zpad : Bool) (len : Nat) (s : σ) :
    formatInt putc val base zpad len s =
      some ((intText val base zpad len).length, (intText val base zpad len).foldl putc s) := by
  have hfits := length_numeral_le_forty hbase hval
  have hbase' : 2 ≤ base := by omega
  have hforty : (List.replicate 40 (0 : UInt8)).length = 40 := List.length_replicate
  obtain ⟨buf, hstore, hdrop⟩ := storeDigits_eq hbase' hfits (Nat.le_of_eq hforty.symm)
  rw [List.drop_eq_nil_of_le (Nat.le_of_eq hforty), List.append_nil] at hdrop
  unfold formatInt intText
  rw [hstore]
  dsimp only
  rw [hdrop, pad_eq, putAll_eq, ← length_numeralText, Nat.sub_sub_self (by rwa [length_numeralText]),
    Nat.zero_add, List.length_append, List.length_replicate, List.foldl_append]

/-- **`format_str`** puts out the string with its padding, and counts it. -/
theorem formatStr_eq (str : Option Bytes) (len : Nat) (s : σ) :
    formatStr putc str len s = ((strText str len).length, (strText str len).foldl putc s) := by
  unfold formatStr strText
  dsimp only
  rw [putAll_eq, Nat.zero_add, List.length_append, List.length_replicate, List.foldl_append]
  split
  · rw [spaces_eq]
  · next h =>
    rw [Nat.sub_eq_zero_of_le (Nat.le_of_not_lt h)]
    rfl

end

/-! ## Directives -/

/-- What a directive takes from the arguments. -/
inductive Kind where
  | int
  | str
  | ptr
  deriving DecidableEq

/-- The argument of a conversion character; the others take none. -/
def wants (c : UInt8) : Option Kind :=
  if c = 100 ∨ c = 117 ∨ c = 120 then some .int
  else if c = 115 then some .str
  else if c = 112 then some .ptr
  else none

def Kind.fits : Kind → Arg → Bool
  | .int, .word _ => true
  | .ptr, .word _ => true
  | .str, .str _ => true
  | .str, .null => true
  | _, _ => false

/-- The arguments that a format takes. -/
def kinds : Nat → Bytes → List Kind
  | 0, _ => []
  | _ + 1, [] => []
  | fuel + 1, c :: str =>
    if c = 37 then
      let d := directive str
      (wants (d.2.headD 0)).toList ++ kinds fuel (d.2.drop 1)
    else kinds fuel str

/-- The arguments begin with those that are wanted. -/
def accepts : List Kind → List Arg → Bool
  | [], _ => true
  | k :: ks, a :: ap => k.fits a && accepts ks ap
  | _ :: _, [] => false

/-- The argument list matches the format. -/
def Matching (fmt : Bytes) (ap : List Arg) : Prop :=
  let str := fmt.takeWhile (· ≠ 0)
  accepts (kinds (str.length + 1) str) ap = true

instance (fmt : Bytes) (ap : List Arg) : Decidable (Matching fmt ap) :=
  inferInstanceAs (Decidable (_ = true))

/-- A directive that takes no argument. -/
theorem convert_other (f : Spec) {c : UInt8} (hc : wants c = none) (ap : List Arg) :
    ∃ out : Bytes, ∀ {σ : Type} (putc : σ → UInt8 → σ) (s : σ),
      convert putc f c ap s = some (out.length, ap, out.foldl putc s) := by
  unfold wants at hc
  split at hc
  · cases hc
  next hint =>
  split at hc
  · cases hc
  next hstr =>
  split at hc
  · cases hc
  next hptr =>
  obtain ⟨hd, hux⟩ := not_or.mp hint
  refine ⟨[37, if c < 32 ∨ 127 ≤ c then 63 else c], fun putc s => ?_⟩
  unfold convert
  rw [if_neg hd, if_neg hux, if_neg hstr, if_neg hptr]
  split
  · rfl
  · rfl

/-- What `%d` puts out. -/
def signedText (f : Spec) (ival : Int) : Bytes :=
  if ival < 0 then
    45 :: intText (u64 (i64 (-ival))) 10 f.zpad (if 0 < f.len then f.len - 1 else f.len)
  else intText (u64 ival) 10 f.zpad f.len

theorem convert_signed {σ : Type} (putc : σ → UInt8 → σ) (f : Spec) (w : Nat) (ap : List Arg) (s : σ) :
    let text := signedText f (if 0 < f.lcnt then i64 w else i32 w)
    convert putc f 100 (.word w :: ap) s = some (text.length, ap, text.foldl putc s) := by
  unfold convert signedText
  rw [if_pos rfl]
  dsimp only
  generalize (if 0 < f.lcnt then i64 w else i32 w) = ival
  split
  · rw [formatInt_eq (Or.inl rfl) (u64_lt _), Option.map_some, List.length_cons, Nat.add_comm 1]
    rfl
  · rw [formatInt_eq (Or.inl rfl) (u64_lt _), Option.map_some]

/-- What `%u` and `%x` put out. -/
theorem convert_unsigned {σ : Type} (putc : σ → UInt8 → σ) (f : Spec) {c : UInt8}
    (hc : c = 117 ∨ c = 120) (w : Nat) (ap : List Arg) (s : σ) :
    let text := intText (u64 (i64 (if 0 < f.lcnt then u64 w else u32 w)))
      (if c = 120 then 16 else 10) f.zpad f.len
    convert putc f c (.word w :: ap) s = some (text.length, ap, text.foldl putc s) := by
  have hd : c ≠ 100 := by
    rintro rfl
    revert hc
    decide
  have hbase : (if c = 120 then 16 else 10) = 10 ∨ (if c = 120 then 16 else 10) = 16 := by
    split
    · exact Or.inr rfl
    · exact Or.inl rfl
  unfold convert
  rw [if_neg hd, if_pos hc]
  dsimp only
  rw [formatInt_eq hbase (u64_lt _), Option.map_some]

/-- **A directive** puts out one text, whatever it is written to, and counts it. -/
theorem convert_eq (f : Spec) {c : UInt8} {k : Kind} {a : Arg} (hc : wants c = some k)
    (ha : k.fits a = true) (ap : List Arg) :
    ∃ out : Bytes, ∀ {σ : Type} (putc : σ → UInt8 → σ) (s : σ),
      convert putc f c (a :: ap) s = some (out.length, ap, out.foldl putc s) := by
  unfold wants at hc
  split at hc
  · next hint =>
    cases hc
    cases a with
    | word w =>
      rcases hint with rfl | hux
      · exact ⟨_, fun putc s => convert_signed putc f w ap s⟩
      · exact ⟨_, fun putc s => convert_unsigned putc f hux w ap s⟩
    | str t => cases ha
    | null => cases ha
  next hint =>
  obtain ⟨hd, hux⟩ := not_or.mp hint
  split at hc
  · next hs =>
    cases hc
    cases a with
    | word w => cases ha
    | str t =>
      refine ⟨strText (some t) f.len, fun putc s => ?_⟩
      unfold convert
      rw [if_neg hd, if_neg hux, if_pos hs]
      dsimp only
      rw [formatStr_eq]
    | null =>
      refine ⟨strText none f.len, fun putc s => ?_⟩
      unfold convert
      rw [if_neg hd, if_neg hux, if_pos hs]
      dsimp only
      rw [formatStr_eq]
  next hs =>
  split at hc
  · next hp =>
    cases hc
    cases a with
    | word w =>
      refine ⟨strText (some [48, 120]) 2 ++ intText (u64 (i64 (u64 w))) 16 f.zpad f.len,
        fun putc s => ?_⟩
      unfold convert
      rw [if_neg hd, if_neg hux, if_neg hs, if_pos hp]
      dsimp only
      rw [formatStr_eq, formatInt_eq (Or.inr rfl) (u64_lt _), Option.map_some, List.length_append,
        List.foldl_append]
    | str t => cases ha
    | null => cases ha
  · cases hc

theorem length_scanWidth_le (str : Bytes) (len : Nat) : (scanWidth str len).2.length ≤ str.length := by
  induction str generalizing len with
  | nil => exact Nat.le_refl _
  | cons c str ih =>
    unfold scanWidth
    split
    · exact Nat.le_succ_of_le (ih _)
    · exact Nat.le_refl _

theorem length_scanLong_le (str : Bytes) (lcnt : Nat) : (scanLong str lcnt).2.length ≤ str.length := by
  induction str generalizing lcnt with
  | nil => exact Nat.le_refl _
  | cons c str ih =>
    unfold scanLong
    split
    · exact Nat.le_succ_of_le (ih _)
    · exact Nat.le_refl _

theorem length_directive_le (str : Bytes) : (directive str).2.length ≤ str.length := by
  have hwidth := length_scanWidth_le str 0
  have hlong := length_scanLong_le (scanWidth str 0).2 0
  unfold directive
  dsimp only
  split
  · rw [List.length_tail]
    omega
  · exact Nat.le_trans hlong hwidth

/-- **The loop of `vgprintf`.** Every round takes at least a character of the format, so that it
ends; what it puts out does not depend on where it goes. -/
theorem vgprintfLoop_eq {fuel : Nat} {str : Bytes} {ap : List Arg} {nout : Nat}
    (hfuel : str.length < fuel) (hap : accepts (kinds fuel str) ap = true) (hnout : nout < 2 ^ 64) :
    ∃ out : Bytes, ∀ {σ : Type} (putc : σ → UInt8 → σ) (s : σ),
      vgprintfLoop putc fuel str ap nout s = some (u64 (nout + out.length), out.foldl putc s) := by
  induction fuel generalizing str ap nout with
  | zero => exact absurd hfuel (Nat.not_lt_zero _)
  | succ fuel ih =>
    -- a round that puts out `out₁` and goes on
    have hround : ∀ {str' : Bytes} {ap' : List Arg} (out₁ : Bytes), str'.length < fuel →
        accepts (kinds fuel str') ap' = true → ∃ out : Bytes, ∀ {σ : Type} (putc : σ → UInt8 → σ) (s : σ),
        vgprintfLoop putc fuel str' ap' (u64 (nout + out₁.length)) (out₁.foldl putc s) =
          some (u64 (nout + out.length), out.foldl putc s) := by
      intro str' ap' out₁ hstr' hap'
      obtain ⟨out, hout⟩ := ih hstr' hap' (u64_lt (nout + out₁.length))
      refine ⟨out₁ ++ out, fun putc s => ?_⟩
      rw [hout, u64_add_u64, List.length_append, List.foldl_append, Int.natCast_add, Int.add_assoc]
    cases str with
    | nil =>
      refine ⟨[], fun putc s => ?_⟩
      unfold vgprintfLoop
      rw [u64_eq (n := nout) (by simp) hnout]
      rfl
    | cons c str =>
      have hlt : str.length < fuel := Nat.lt_of_succ_lt_succ hfuel
      by_cases hc : c = 37
      · have hdir := length_directive_le str
        have hrest : ((directive str).2.drop 1).length < fuel := by
          rw [List.length_drop]
          omega
        simp only [kinds, if_pos hc] at hap
        -- the conversion, and the arguments that it leaves
        have hconv : ∃ ap', accepts (kinds fuel ((directive str).2.drop 1)) ap' = true ∧
            ∃ out : Bytes, ∀ {σ : Type} (putc : σ → UInt8 → σ) (s : σ),
              convert putc (directive str).1 ((directive str).2.headD 0) ap s =
                some (out.length, ap', out.foldl putc s) := by
          cases hwants : wants ((directive str).2.headD 0) with
          | none =>
            rw [hwants] at hap
            exact ⟨ap, hap, convert_other _ hwants ap⟩
          | some k =>
            rw [hwants] at hap
            cases ap with
            | nil => cases hap
            | cons a ap =>
              obtain ⟨hfits, hap⟩ := Bool.and_eq_true_iff.mp hap
              exact ⟨ap, hap, convert_eq _ hwants hfits ap⟩
        obtain ⟨ap', hap', out₁, hout₁⟩ := hconv
        obtain ⟨out, hout⟩ := hround out₁ hrest hap'
        refine ⟨out, fun putc s => ?_⟩
        conv_lhs => unfold vgprintfLoop
        rw [if_pos hc]
        dsimp only
        rw [hout₁]
        exact hout putc s
      · simp only [kinds, if_neg hc] at hap
        obtain ⟨out, hout⟩ := hround [c] hlt hap
        refine ⟨out, fun putc s => ?_⟩
        conv_lhs => unfold vgprintfLoop
        rw [if_neg hc]
        exact hout putc s

/-! ## Bounded output -/

theorem patch_singleton {l : Bytes} {p : Nat} (hp : p < l.length) (c : UInt8) :
    patch l p [c] = l.set p c := by
  rw [List.set_eq_take_append_cons_drop, if_pos hp]
  unfold patch
  rw [List.append_assoc]
  rfl

/-- Characters go to memory as long as there is room for one more and the null byte. -/
theorem foldl_vsnprintfPutc {mem : Bytes} {pos rem : Nat} (hfits : pos + rem ≤ mem.length)
    (out : Bytes) :
    out.foldl vsnprintfPutc ⟨mem, pos, rem⟩ =
      ⟨patch mem pos (out.take (rem - 1)), pos + (out.take (rem - 1)).length,
        rem - (out.take (rem - 1)).length⟩ := by
  induction out generalizing mem pos rem with
  | nil => simp
  | cons c out ih =>
    show out.foldl vsnprintfPutc (vsnprintfPutc ⟨mem, pos, rem⟩ c) = _
    by_cases hrem : rem ≤ 1
    · have hstep : vsnprintfPutc ⟨mem, pos, rem⟩ c = ⟨mem, pos, rem⟩ := if_pos hrem
      rw [hstep, ih hfits, Nat.sub_eq_zero_of_le hrem]
      simp
    · have hp : pos < mem.length := by omega
      obtain ⟨r, rfl⟩ : ∃ r, rem = r + 2 := ⟨rem - 2, by omega⟩
      have hstep : vsnprintfPutc ⟨mem, pos, r + 2⟩ c = ⟨mem.set pos c, pos + 1, r + 1⟩ := if_neg hrem
      have hlen : pos + 1 + (r + 1) ≤ (mem.set pos c).length := by
        rw [List.length_set]
        omega
      rw [hstep, show r + 2 - 1 = r + 1 by omega, ih hlen, ← patch_singleton hp,
        show r + 1 - 1 = r by omega, List.take_succ_cons, List.length_cons]
      have hjoin := patch_patch_append (b := [c]) (p := pos) (out.take r)
        (show pos + 1 ≤ mem.length from hp)
      rw [List.length_singleton] at hjoin
      rw [hjoin]
      congr 1
      · omega
      · omega

/-- **Bounded formatting is truncated formatting.** For a format and arguments that match it there is
one text that `vgprintf` passes to `putcfn` character by character, and it returns its length. With a
buffer of `bufsz` bytes `vsnprintf` returns the same and stores the first `bufsz - 1` characters and a
null byte, and nothing else. -/
theorem formatting_truncates {fmt : Bytes} {ap : List Arg} (h : Matching fmt ap) :
    ∃ out : Bytes,
      (∀ {σ : Type} (putc : σ → UInt8 → σ) (s : σ),
        vgprintf putc fmt ap s = some (u64 out.length, out.foldl putc s)) ∧
      ∀ {mem : Bytes} {buf bufsz : Nat}, buf + bufsz ≤ mem.length →
        vsnprintf mem buf bufsz fmt ap = some (u64 out.length,
          if bufsz = 0 then mem else patch mem buf (out.take (bufsz - 1) ++ [0])) := by
  obtain ⟨out, hout⟩ := vgprintfLoop_eq (Nat.lt_succ_self _) h (Nat.zero_lt_succ _)
  simp only [Int.natCast_zero, Int.zero_add] at hout
  refine ⟨out, fun putc s => hout putc s, fun {mem buf bufsz} hfits => ?_⟩
  have hrun : vgprintf vsnprintfPutc fmt ap ⟨mem, buf, bufsz⟩ =
      some (u64 out.length, out.foldl vsnprintfPutc ⟨mem, buf, bufsz⟩) := hout _ _
  unfold vsnprintf
  rw [hrun, foldl_vsnprintfPutc hfits]
  dsimp only
  have htake := List.length_take_le (bufsz - 1) out
  by_cases hzero : bufsz = 0
  · rw [hzero]
    simp
  · have hrange : buf + (out.take (bufsz - 1)).length < (patch mem buf (out.take (bufsz - 1))).length := by
      rw [length_patch (by omega)]
      omega
    rw [if_pos (by omega), if_neg hzero, ← patch_singleton hrange, patch_patch_append _ (by omega)]

/-- `a%y%5` into a buffer of four bytes. -/
theorem formatting_truncates_malformed : ∃ out : Bytes,
    vsnprintf [1, 1, 1, 1, 1] 0 4 [97, 37, 121, 37, 53] [] =
      some (u64 out.length, patch [1, 1, 1, 1, 1] 0 (out.take 3 ++ [0])) := by
  obtain ⟨out, -, hout⟩ := formatting_truncates
    (show Matching [97, 37, 121, 37, 53] [] by decide +kernel)
  exact ⟨out, hout (by decide)⟩

/-! ## Numbers -/

/-- The text that `vgprintf` puts out. -/
def output (fmt : Bytes) (ap : List Arg) : Option Bytes :=
  (vgprintf (fun (s : Bytes) c => s ++ [c]) fmt ap []).map Prod.snd

theorem foldl_snoc (out s : Bytes) : out.foldl (fun s c => s ++ [c]) s = s ++ out := by
  induction out generalizing s with
  | nil => exact (List.append_nil s).symm
  | cons c out ih => rw [List.foldl_cons, ih, List.append_assoc]; rfl

/-- The digit that a character stands for. -/
def digitValue (c : UInt8) : Nat := if c < 58 then c.toNat - 48 else c.toNat - 87

theorem digitValue_digitChar {d : Nat} (hd : d < 16) : digitValue (digitChar d) = d := by
  revert d
  decide

/-- Reading a number: spaces first, then digits. -/
def readNumber (base : Nat) (text : Bytes) : Nat :=
  value base ((text.dropWhile (· = 32)).map digitValue)

/-- The digits of `v` and no more. -/
structure IsNumeral (base v : Nat) (ds : Bytes) : Prop where
  digits : ∀ c ∈ ds, ∃ d < base, c = digitChar d
  value : value base (ds.map digitValue) = v
  leading : ds.head? = some 48 → ds = [48]

theorem digit_lt {base v d : Nat} (hbase : base = 10 ∨ base = 16) (hd : d ∈ numeral base v) : d < 16 := by
  have hlt := lt_of_mem_numeral (show 2 ≤ base by omega) hd
  omega

theorem map_digitValue {base : Nat} (hbase : base = 10 ∨ base = 16) (v : Nat) :
    (numeralText base v).map digitValue = numeral base v := by
  unfold numeralText
  rw [List.map_map]
  calc (numeral base v).map (digitValue ∘ digitChar)
      = (numeral base v).map id :=
        List.map_congr_left fun d hd => digitValue_digitChar (digit_lt hbase hd)
    _ = numeral base v := List.map_id _

theorem isNumeral_numeralText {base : Nat} (hbase : base = 10 ∨ base = 16) (v : Nat) :
    IsNumeral base v (numeralText base v) := by
  have hbase' : 2 ≤ base := by omega
  refine ⟨fun c hc => ?_, ?_, fun hhead => ?_⟩
  · obtain ⟨d, hd, rfl⟩ := List.mem_map.mp hc
    exact ⟨d, lt_of_mem_numeral hbase' hd, rfl⟩
  · rw [map_digitValue hbase, value_numeral hbase']
  · unfold numeralText at hhead ⊢
    rw [List.head?_map] at hhead
    obtain ⟨d, hd, hchar⟩ := Option.map_eq_some_iff.mp hhead
    obtain rfl : d = 0 := by
      rw [← digitValue_digitChar (digit_lt hbase (List.mem_of_mem_head? hd)), hchar]
      rfl
    have hv : v = 0 := by
      by_contra hv
      exact head_numeral_ne_zero hbase' hv hd
    rw [hv]
    rfl

theorem digitChar_ne {d : Nat} (hd : d < 16) : digitChar d ≠ 32 ∧ digitChar d ≠ 0 := by
  revert d
  decide

/-- A digit is no space. -/
theorem numeralText_ne_space {base v : Nat} (hbase : base = 10 ∨ base = 16) {c : UInt8}
    (hc : c ∈ numeralText base v) : c ≠ 32 ∧ c ≠ 0 := by
  obtain ⟨d, hd, rfl⟩ := List.mem_map.mp hc
  exact digitChar_ne (digit_lt hbase hd)

/-- Padding does not change what is read. -/
theorem readNumber_intText {base : Nat} (hbase : base = 10 ∨ base = 16) (v n : Nat) (zero : Bool) :
    readNumber base (List.replicate n (if zero then 48 else 32) ++ numeralText base v) = v := by
  have hvalue := (isNumeral_numeralText hbase v).value
  have hspaces : (numeralText base v).dropWhile (· = 32) = numeralText base v := by
    refine List.dropWhile_eq_self_iff.mpr fun hlen => ?_
    simpa using (numeralText_ne_space hbase (List.getElem_mem hlen)).1
  unfold readNumber
  cases zero with
  | false =>
    have hdrop : ∀ m, (List.replicate m (32 : UInt8) ++ numeralText base v).dropWhile (· = 32) =
        numeralText base v := by
      intro m
      induction m with
      | zero => exact hspaces
      | succ m ih => rw [List.replicate_succ, List.cons_append, List.dropWhile_cons_of_pos rfl, ih]
    rw [if_neg Bool.false_ne_true, hdrop, hvalue]
  | true =>
    rw [if_pos rfl]
    have hdrop : (List.replicate n (48 : UInt8) ++ numeralText base v).dropWhile (· = 32) =
        List.replicate n 48 ++ numeralText base v := by
      cases n with
      | zero => exact hspaces
      | succ m => exact List.dropWhile_cons_of_neg (by decide)
    rw [hdrop, List.map_append, List.map_replicate]
    exact (value_replicate_zero n _).trans hvalue

/-! ## Formats for numbers -/

/-- `%w` and the rest of a directive, with or without the flag `0`. -/
def wideFormat (zero : Bool) (w : Nat) (rest : Bytes) : Bytes :=
  37 :: ((if zero then [48] else []) ++ numeralText 10 w ++ rest)

/-- The width is read with the conversion at every step, that is once. -/
theorem scanWidth_digits {ds : List Nat} (hds : ∀ d ∈ ds, d < 10) (rest : Bytes) (x : Nat) :
    scanWidth (ds.map digitChar ++ rest) (u32 x) =
      scanWidth rest (u32 ((ds.foldl (fun acc d => 10 * acc + d) x : Nat) : Int)) := by
  induction ds generalizing x with
  | nil => rfl
  | cons d ds ih =>
    have hd : d < 10 := hds d List.mem_cons_self
    have hdigit : 48 ≤ digitChar d ∧ digitChar d ≤ 57 ∧ (digitChar d).toNat = 48 + d := by
      clear ih hds
      revert d
      decide
    have hnext : u32 (10 * (u32 x : Int) + ((digitChar d).toNat - 48)) = u32 ((10 * x + d : Nat) : Int) := by
      rw [u32_linear, hdigit.2.2]
      congr 1
      omega
    rw [List.map_cons, List.cons_append, scanWidth, if_pos ⟨hdigit.1, hdigit.2.1⟩, hnext,
      ih fun d' hd' => hds d' (List.mem_cons_of_mem d hd')]
    rfl

theorem scanWidth_numeral {w : Nat} (hw : w < 2 ^ 32) {c : UInt8} (hc : ¬(48 ≤ c ∧ c ≤ 57))
    (rest : Bytes) : scanWidth (numeralText 10 w ++ c :: rest) 0 = (w, c :: rest) := by
  have hzero : (0 : Nat) = u32 ((0 : Nat) : Int) := (u32_eq rfl (by decide)).symm
  have hval : (numeral 10 w).foldl (fun acc d => 10 * acc + d) 0 = w := value_numeral (by decide) w
  unfold numeralText
  rw [hzero, scanWidth_digits (fun d hd => lt_of_mem_numeral (by decide) hd), hval, u32_eq rfl hw,
    scanWidth, if_neg hc]

/-- A directive with a width and one `l`. -/
theorem directive_wide {w : Nat} (hw : w < 2 ^ 32) (zero : Bool) {c : UInt8}
    (hc : c ≠ 108 ∧ c ≠ 122 ∧ c ≠ 106) :
    ∃ zpad, directive ((if zero then [48] else []) ++ numeralText 10 w ++ [108, c]) =
      (⟨zpad, w, 1⟩, [c]) ∧ (w ≠ 0 → zpad = zero) := by
  have hwidth : scanWidth ((if zero then [48] else []) ++ numeralText 10 w ++ [108, c]) 0 =
      (w, [108, c]) := by
    have hnum := scanWidth_numeral hw (c := 108) (by decide) [c]
    cases zero with
    | false => exact hnum
    | true =>
      have hstart : u32 (10 * ((0 : Nat) : Int) + (((48 : UInt8).toNat : Int) - 48)) = 0 :=
        u32_eq rfl (by decide)
      show scanWidth (48 :: (numeralText 10 w ++ [108, c])) 0 = _
      rw [scanWidth, if_pos (by decide), hstart, hnum]
  have hlong : scanLong [108, c] 0 = (1, [c]) := by
    rw [scanLong, if_pos rfl, scanLong, if_neg hc.1]
    exact congrArg (·, [c]) (u32_eq rfl (by decide))
  have hmod : ¬([c].head? = some 122 ∨ [c].head? = some 106) := by
    rintro (h | h)
    · exact hc.2.1 (Option.some.inj h)
    · exact hc.2.2 (Option.some.inj h)
  refine ⟨decide (((if zero then [48] else []) ++ numeralText 10 w ++ [108, c]).head? = some 48), ?_, ?_⟩
  · unfold directive
    rw [hwidth]
    dsimp only
    rw [hlong, if_neg hmod]
  · intro hw₀
    cases zero with
    | true => rfl
    | false =>
      refine decide_eq_false fun hhead => ?_
      have hhead' : (numeralText 10 w).head? = some 48 := by
        rw [List.append_assoc, if_neg Bool.false_ne_true, List.nil_append,
          List.head?_append_of_ne_nil] at hhead
        · exact hhead
        · exact List.map_eq_nil_iff.not.mpr (numeral_ne_nil (by decide) w)
      have hnum := isNumeral_numeralText (Or.inl rfl) w
      have hval := hnum.value
      rw [hnum.leading hhead'] at hval
      exact hw₀ hval.symm

/-- A format that is one directive with one argument. -/
theorem output_directive {str text : Bytes} {f : Spec} {c : UInt8} {a : Arg}
    (hstr : ∀ x ∈ str, x ≠ 0) (hdir : directive str = (f, [c]))
    (hconv : convert (fun (s : Bytes) c => s ++ [c]) f c [a] [] = some (text.length, [], text)) :
    output (37 :: str) [a] = some text := by
  have hall : (37 :: str).takeWhile (· ≠ 0) = 37 :: str := by
    refine List.takeWhile_eq_self_iff.mpr fun x hx => ?_
    rcases List.mem_cons.mp hx with rfl | hx
    · rfl
    · exact decide_eq_true (hstr x hx)
  unfold output vgprintf
  rw [hall]
  dsimp only
  rw [List.length_cons, vgprintfLoop, if_pos rfl, hdir]
  dsimp only
  rw [List.headD_cons, hconv]
  rfl

theorem printed_unsigned {v w : Nat} (hv : v < 2 ^ 64) (hw : w < 2 ^ 32) (zero : Bool) {c : UInt8}
    {base : Nat} (hc : c = 117 ∧ base = 10 ∨ c = 120 ∧ base = 16) :
    output (wideFormat zero w [108, c]) [.word v] =
      some (List.replicate (w - (numeralText base v).length) (if zero then 48 else 32) ++
        numeralText base v) := by
  have hux : c = 117 ∨ c = 120 := by
    rcases hc with ⟨rfl, -⟩ | ⟨rfl, -⟩
    · exact Or.inl rfl
    · exact Or.inr rfl
  have hbase : (if c = 120 then 16 else 10) = base := by
    rcases hc with ⟨rfl, rfl⟩ | ⟨rfl, rfl⟩
    · rfl
    · rfl
  have hc' : c ≠ 108 ∧ c ≠ 122 ∧ c ≠ 106 ∧ c ≠ 0 := by
    rcases hux with rfl | rfl
    · decide
    · decide
  obtain ⟨zpad, hdir, hzpad⟩ := directive_wide hw zero ⟨hc'.1, hc'.2.1, hc'.2.2.1⟩
  have hconv := convert_unsigned (fun (s : Bytes) c => s ++ [c]) ⟨zpad, w, 1⟩ hux v [] []
  dsimp only at hconv
  rw [if_pos (by decide), u64_i64, u64_eq rfl (u64_lt _), u64_eq rfl hv, hbase, foldl_snoc,
    List.nil_append] at hconv
  have hpad : intText v base zpad w =
      List.replicate (w - (numeralText base v).length) (if zero then 48 else 32) ++ numeralText base v := by
    unfold intText
    by_cases hw₀ : w = 0
    · rw [hw₀, Nat.zero_sub]
      rfl
    · rw [hzpad hw₀]
  rw [hpad] at hconv
  refine output_directive (fun x hx => ?_) hdir hconv
  rcases List.mem_append.mp hx with hx | hx
  · rcases List.mem_append.mp hx with hx | hx
    · cases zero with
      | false => cases hx
      | true =>
        rw [List.mem_singleton.mp hx]
        decide
    · exact (numeralText_ne_space (Or.inl rfl) hx).2
  · rcases List.mem_cons.mp hx with rfl | hx
    · decide
    · rw [List.mem_singleton.mp hx]
      exact hc'.2.2.2

theorem printed_signed {v : Int} (hmin : -2 ^ 63 ≤ v) (hmax : v < 2 ^ 63) :
    output [37, 108, 100] [.word (u64 v)] =
      some ((if v < 0 then [45] else []) ++ numeralText 10 v.natAbs) := by
  have hdir : directive [108, 100] = (⟨false, 0, 1⟩, [100]) := by decide +kernel
  have hconv := convert_signed (fun (s : Bytes) c => s ++ [c]) ⟨false, 0, 1⟩ (u64 v) [] []
  have hval : i64 ((u64 v : Nat) : Int) = v := by rw [i64_u64, i64_eq hmin hmax]
  dsimp only at hconv
  rw [if_pos (by decide), hval, foldl_snoc, List.nil_append] at hconv
  have htext : signedText ⟨false, 0, 1⟩ v = (if v < 0 then [45] else []) ++ numeralText 10 v.natAbs := by
    unfold signedText intText
    by_cases hneg : v < 0
    · have habs : u64 (i64 (-v)) = v.natAbs := by
        rw [u64_i64]
        exact u64_eq (by omega) (by omega)
      rw [if_pos hneg, if_pos hneg, habs]
      dsimp only
      rw [if_neg (Nat.lt_irrefl 0), Nat.zero_sub]
      rfl
    · have habs : u64 v = v.natAbs := u64_eq (by omega) (by omega)
      rw [if_neg hneg, if_neg hneg, habs]
      dsimp only
      rw [Nat.zero_sub]
      rfl
  rw [htext] at hconv
  exact output_directive (by simp) hdir hconv

/-- **Printed numbers read back.** A number that is printed with a width that is an `unsigned int` is
its numeral, with padding in front. A signed number is the sign and the numeral of its absolute value.
The digits of a 64-bit number fit into the buffer of `format_int`. -/
theorem printed_integers_read_back :
    (∀ {v w : Nat} (zero : Bool) {c : UInt8} {base : Nat}, v < 2 ^ 64 → w < 2 ^ 32 →
      c = 117 ∧ base = 10 ∨ c = 120 ∧ base = 16 → ∃ text ds, IsNumeral base v ds ∧
        output (wideFormat zero w [108, c]) [.word v] = some text ∧
        text = List.replicate (w - ds.length) (if zero then 48 else 32) ++ ds ∧
        text.length = max w ds.length ∧ readNumber base text = v) ∧
    (∀ {v : Int}, -2 ^ 63 ≤ v → v < 2 ^ 63 → ∃ ds, IsNumeral 10 v.natAbs ds ∧
      output [37, 108, 100] [.word (u64 v)] = some ((if v < 0 then [45] else []) ++ ds)) ∧
    ∀ {val base : Nat} {buf : Bytes}, val < 2 ^ 64 → base = 10 ∨ base = 16 → buf.length = 40 →
      (storeDigits base 40 buf val).isSome = true := by
  refine ⟨fun {v w} zero {c base} hv hw hc => ?_, fun {v} hmin hmax => ?_, fun hval hbase hbuf => ?_⟩
  · have hbase : base = 10 ∨ base = 16 := by
      rcases hc with ⟨-, h⟩ | ⟨-, h⟩
      · exact Or.inl h
      · exact Or.inr h
    refine ⟨_, _, isNumeral_numeralText hbase v, printed_unsigned hv hw zero hc, rfl, ?_,
      readNumber_intText hbase v _ zero⟩
    rw [List.length_append, List.length_replicate]
    omega
  · exact ⟨_, isNumeral_numeralText (Or.inl rfl) _, printed_signed hmin hmax⟩
  · obtain ⟨buf', hstore, -⟩ := storeDigits_eq (show 2 ≤ _ by omega)
      (length_numeral_le_forty hbase hval) (Nat.le_of_eq hbuf.symm)
    rw [hstore]
    rfl

/-- `%08lx` of 255. -/
theorem printed_integers_read_back_hex : ∃ text ds, IsNumeral 16 255 ds ∧
    output (wideFormat true 8 [108, 120]) [.word 255] = some text ∧
    text = List.replicate (8 - ds.length) 48 ++ ds ∧
    text.length = max 8 ds.length ∧ readNumber 16 text = 255 :=
  printed_integers_read_back.1 true (by decide) (by decide) (Or.inr ⟨rfl, rfl⟩)

/-- The width 4294967296 is 0 as an `unsigned int`: `%4294967296lu` prints 5 as one character. -/
theorem printed_width_wraps :
    output (37 :: [52, 50, 57, 52, 57, 54, 55, 50, 57, 54, 108, 117]) [.word 5] = some [53] ∧
      value 10 (([52, 50, 57, 52, 57, 54, 55, 50, 57, 54] : Bytes).map digitValue) = 2 ^ 32 := by
  decide +kernel

end Format

end RiscvKernel
