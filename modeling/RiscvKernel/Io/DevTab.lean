import RiscvKernel.Io.Intf

/-!
# The device table

`device_register` and `device_open` of `device.c`, over the functions and pointers that drivers pass.
The instance number of a device is the number of entries with its name in front of it. Registering
counts them on its way to the first empty entry, and opening counts them again.

* `strcmp_eq_zero_iff`: names are compared as strings.
* `Filled`: the entries of the devices that have been registered are the first ones, in order.
* `openLoop_eq_some_iff`: the entry that `device_open` finds.
* `instance_numbers_stable`: a device is opened under the number that its registration returned, and
  under no other.
-/

namespace RiscvKernel

open Lib

/-- The loop of `strcmp` and the comparison after it. What follows the last byte is the null byte. -/
def strcmpLoop : Bytes → Bytes → Int
  | [], s₂ => if 0 < s₂.headD 0 then -1 else 0
  | c₁ :: s₁, s₂ =>
    let c₂ := s₂.headD 0
    if c₁ = c₂ ∧ c₁ ≠ 0 then strcmpLoop s₁ s₂.tail
    else if c₁ < c₂ then -1
    else if c₂ < c₁ then 1
    else 0

/-- `strcmp` -/
def strcmp : Option Bytes → Option Bytes → Int
  | none, none => 0
  | none, some _ => -1
  | some _, none => 1
  | some s₁, some s₂ => strcmpLoop s₁ s₂

namespace DevTab

variable {F A : Type}

def NDEV : Nat := 16

/-- `struct device` -/
structure Slot (F A : Type) where
  name : Option Bytes
  openfn : Option F
  aux : Option A

/-- An entry of `devtab` at the start. -/
def Slot.empty : Slot F A := ⟨none, none, none⟩

def Slot.of (name : Bytes) (openfn : F) (aux : A) : Slot F A := ⟨some name, some openfn, some aux⟩

/-- The loop of `device_register`: the empty entry that is found, and the instance number. -/
def registerLoop (name : Bytes) : List (Slot F A) → Nat → Nat → Option (Nat × Nat)
  | [], _, _ => none
  | slot :: rest, devno, instno =>
    if slot.name = none then some (devno, instno)
    else
      registerLoop name rest (devno + 1)
        (if strcmp slot.name (some name) = 0 then instno + 1 else instno)

/-- `device_register`; there is no result after the panic. -/
def deviceRegister (devtab : List (Slot F A)) (name : Bytes) (openfn : F) (aux : A) :
    Option (Nat × List (Slot F A)) :=
  (registerLoop name devtab 0 0).map fun r => (r.2, devtab.set r.1 (.of name openfn aux))

/-- The loop of `device_open`: the entry that is found, and its number. -/
def openLoop (name : Option Bytes) (instno : Int) :
    List (Slot F A) → Nat → Nat → Option (Nat × Slot F A)
  | [], _, _ => none
  | slot :: rest, devno, k =>
    if slot.openfn.isSome ∧ strcmp slot.name name = 0 then
      if (k : Int) = instno then some (devno, slot)
      else openLoop name instno rest (devno + 1) (k + 1)
    else openLoop name instno rest (devno + 1) k

/-- `device_open`: what it returns, and the entry whose open function it calls. `driver` is what the
open functions return. -/
def deviceOpen (driver : Option F → Option A → Int) (devtab : List (Slot F A)) (name : Option Bytes)
    (instno : Int) : Int × Option (Nat × Slot F A) :=
  match openLoop name instno devtab 0 0 with
  | none => (-ENODEV, none)
  | some (devno, slot) => (driver slot.openfn slot.aux, some (devno, slot))

/-- What a driver passes to `device_register`. -/
structure Reg (F A : Type) where
  name : Bytes
  openfn : F
  aux : A

/-- Registrations one after the other: the numbers that are returned, and the table. -/
def registerAll : List (Slot F A) → List (Reg F A) → Option (List Nat × List (Slot F A))
  | devtab, [] => some ([], devtab)
  | devtab, r :: regs =>
    match deviceRegister devtab r.name r.openfn r.aux with
    | none => none
    | some (instno, devtab) => (registerAll devtab regs).map fun t => (instno :: t.1, t.2)

/-- `devtab` at the start. -/
def start : List (Slot F A) := List.replicate NDEV .empty

/-! ## Strings -/

/-- The string in a `char` array. -/
def cstr (s : Bytes) : Bytes := s.takeWhile (· ≠ 0)

theorem strcmpLoop_eq_zero_iff (s₁ s₂ : Bytes) : strcmpLoop s₁ s₂ = 0 ↔ cstr s₁ = cstr s₂ := by
  induction s₁ generalizing s₂ with
  | nil =>
    unfold strcmpLoop
    cases s₂ with
    | nil => simp
    | cons c₂ s₂ =>
      by_cases hc : c₂ = 0
      · simp [cstr, hc]
      · have hpos : 0 < c₂ := UInt8.pos_iff_ne_zero.mpr hc
        simp [cstr, hc, hpos]
  | cons c₁ s₁ ih =>
    unfold strcmpLoop
    have hlt : ∀ a b : UInt8, (if a < b then (-1 : Int) else if b < a then 1 else 0) = 0 ↔ a = b := by
      intro a b
      constructor
      · intro h
        split at h
        · cases h
        split at h
        · cases h
        · exact UInt8.le_antisymm (UInt8.not_lt.mp ‹_›) (UInt8.not_lt.mp ‹_›)
      · rintro rfl
        simp
    cases s₂ with
    | nil =>
      by_cases hc : c₁ = 0
      · simp [cstr, hc]
      · dsimp only [List.headD_nil]
        rw [if_neg fun h => hc h.1, hlt]
        simp [cstr, hc]
    | cons c₂ s₂ =>
      dsimp only [List.headD_cons, List.tail_cons]
      by_cases heq : c₁ = c₂ ∧ c₁ ≠ 0
      · obtain ⟨rfl, hne⟩ := heq
        rw [if_pos ⟨rfl, hne⟩, ih]
        simp [cstr, hne]
      · rw [if_neg heq, hlt]
        by_cases hc : c₁ = 0
        · by_cases hc₂ : c₂ = 0
          · simp [cstr, hc, hc₂]
          · simp [cstr, hc, hc₂, Ne.symm hc₂]
        · have hne : c₁ ≠ c₂ := fun h => heq ⟨h, hc⟩
          by_cases hc₂ : c₂ = 0
          · simp [cstr, hc, hc₂]
          · simp [cstr, hc, hc₂, hne]

/-- The null pointer is equal to no string. -/
theorem strcmp_eq_zero_iff (s₁ : Bytes) (name : Option Bytes) :
    strcmp (some s₁) name = 0 ↔ name.map cstr = some (cstr s₁) := by
  cases name with
  | none => simp [strcmp]
  | some s₂ =>
    show strcmpLoop s₁ s₂ = 0 ↔ _
    rw [strcmpLoop_eq_zero_iff, Option.map_some, Option.some_inj, eq_comm]

/-! ## The table -/

/-- The entry of a registration. -/
def Reg.slot (r : Reg F A) : Slot F A := .of r.name r.openfn r.aux

/-- The first entries are those of the registrations, in order, and the others are empty. -/
def Filled (regs : List (Reg F A)) (devtab : List (Slot F A)) : Prop :=
  regs.length ≤ NDEV ∧ devtab = regs.map Reg.slot ++ List.replicate (NDEV - regs.length) .empty

/-- How many of the registrations have the name. -/
def sameName (name : Bytes) (regs : List (Reg F A)) : Nat :=
  regs.countP fun r => cstr name = cstr r.name

theorem registerLoop_eq (name : Bytes) (regs : List (Reg F A)) (rest : List (Slot F A))
    (devno instno : Nat) :
    registerLoop name (regs.map Reg.slot ++ .empty :: rest) devno instno =
      some (devno + regs.length, instno + sameName name regs) := by
  induction regs generalizing devno instno with
  | nil => rfl
  | cons r regs ih =>
    have hname : (Reg.slot r).name ≠ none := Option.some_ne_none _
    have hcmp : strcmp (Reg.slot r).name (some name) = 0 ↔ cstr name = cstr r.name := by
      show strcmp (some r.name) (some name) = 0 ↔ _
      rw [strcmp_eq_zero_iff, Option.map_some, Option.some_inj]
    rw [List.map_cons, List.cons_append, registerLoop, if_neg hname, ih]
    unfold sameName
    rw [List.countP_cons, List.length_cons]
    congr 2
    · omega
    · by_cases h : cstr name = cstr r.name
      · rw [if_pos (hcmp.mpr h), if_pos (decide_eq_true h)]
        omega
      · rw [if_neg (mt hcmp.mp h), if_neg (by simpa using h)]
        omega

/-- A registration takes the next entry. -/
theorem deviceRegister_eq {regs : List (Reg F A)} {devtab : List (Slot F A)} (h : Filled regs devtab)
    (hroom : regs.length < NDEV) (r : Reg F A) :
    ∃ devtab', deviceRegister devtab r.name r.openfn r.aux = some (sameName r.name regs, devtab') ∧
      Filled (regs ++ [r]) devtab' := by
  obtain ⟨-, rfl⟩ := h
  obtain ⟨n, hn⟩ : ∃ n, NDEV - regs.length = n + 1 := ⟨NDEV - regs.length - 1, by omega⟩
  have hlen : (regs ++ [r]).length = regs.length + 1 := List.length_append
  have hloop := registerLoop_eq r.name regs (List.replicate n .empty) 0 0
  rw [Nat.zero_add, Nat.zero_add] at hloop
  unfold deviceRegister
  rw [hn, List.replicate_succ, hloop, Option.map_some]
  refine ⟨_, rfl, by omega, ?_⟩
  have hset : regs.length = (regs.map Reg.slot).length + 0 := (List.length_map _).symm
  dsimp only
  rw [hset, List.set_append_right _ _ (Nat.le_add_right _ _), Nat.add_zero, Nat.sub_self,
    List.set_cons_zero, List.map_append, List.append_assoc, hlen,
    show NDEV - (regs.length + 1) = n by omega]
  rfl

/-- **All registrations.** Each returns the number of those before it with the same name. -/
theorem registerAll_eq {old : List (Reg F A)} {devtab : List (Slot F A)} (h : Filled old devtab)
    {regs : List (Reg F A)} (hroom : (old ++ regs).length ≤ NDEV) :
    ∃ ks devtab', registerAll devtab regs = some (ks, devtab') ∧ Filled (old ++ regs) devtab' ∧
      ∀ i r, regs[i]? = some r → ks[i]? = some (sameName r.name (old ++ regs.take i)) := by
  induction regs generalizing old devtab with
  | nil =>
    refine ⟨[], devtab, rfl, ?_, nofun⟩
    rwa [List.append_nil]
  | cons r regs ih =>
    have hlen : old.length < NDEV := by
      rw [List.length_append, List.length_cons] at hroom
      omega
    obtain ⟨devtab₁, hreg, hfilled⟩ := deviceRegister_eq h hlen r
    have happend : old ++ r :: regs = old ++ [r] ++ regs := List.append_cons old r regs
    rw [happend] at hroom ⊢
    obtain ⟨ks, devtab', hall, hfilled', hks⟩ := ih hfilled hroom
    refine ⟨sameName r.name old :: ks, devtab', ?_, hfilled', fun i r' hr' => ?_⟩
    · unfold registerAll
      rw [hreg]
      dsimp only
      rw [hall]
      rfl
    · cases i with
      | zero =>
        obtain rfl : r = r' := Option.some.inj hr'
        rw [List.take_zero, List.append_nil]
        rfl
      | succ i =>
        rw [List.take_succ_cons, List.append_cons old]
        exact hks i r' hr'

/-- Empty entries are passed. -/
theorem openLoop_empty (name : Option Bytes) (instno : Int) (n devno k : Nat) :
    openLoop (F := F) (A := A) name instno (List.replicate n .empty) devno k = none := by
  induction n generalizing devno with
  | zero => rfl
  | succ n ih =>
    rw [List.replicate_succ, openLoop, if_neg fun h => Bool.false_ne_true h.1]
    exact ih _

/-- **The entry that `device_open` finds**: that of the registration `i` if it has the name, and the
number of those before it with this name is the one that is asked for. -/
theorem openLoop_eq_some_iff (name : Option Bytes) (instno : Int) (regs : List (Reg F A)) (n : Nat)
    {devno k j : Nat} {slot : Slot F A} :
    openLoop name instno (regs.map Reg.slot ++ List.replicate n .empty) devno k = some (j, slot) ↔
      ∃ i r, regs[i]? = some r ∧ j = devno + i ∧ slot = r.slot ∧ name.map cstr = some (cstr r.name) ∧
        instno = k + sameName r.name (regs.take i) := by
  induction regs generalizing devno k with
  | nil =>
    rw [List.map_nil, List.nil_append, openLoop_empty]
    refine iff_of_false nofun ?_
    rintro ⟨i, r, hr, -⟩
    cases hr
  | cons r₀ regs ih =>
    have hcond : (Reg.slot r₀).openfn.isSome ∧ strcmp (Reg.slot r₀).name name = 0 ↔
        name.map cstr = some (cstr r₀.name) :=
      (and_iff_right rfl).trans (strcmp_eq_zero_iff r₀.name name)
    rw [List.map_cons, List.cons_append, openLoop]
    by_cases hname : name.map cstr = some (cstr r₀.name)
    · rw [if_pos (hcond.mpr hname)]
      -- a later one with the name has this one before it
      have hcount : ∀ r : Reg F A, name.map cstr = some (cstr r.name) → ∀ i,
          sameName r.name ((r₀ :: regs).take (i + 1)) = sameName r.name (regs.take i) + 1 := by
        intro r hr i
        have hsame : cstr r.name = cstr r₀.name := Option.some.inj (hr.symm.trans hname)
        unfold sameName
        rw [List.take_succ_cons, List.countP_cons, if_pos (decide_eq_true hsame)]
      by_cases hk : (k : Int) = instno
      · rw [if_pos hk]
        constructor
        · intro h
          obtain ⟨rfl, rfl⟩ := Prod.mk.inj (Option.some.inj h)
          exact ⟨0, r₀, rfl, rfl, rfl, hname, hk.symm⟩
        · rintro ⟨i, r, hr, rfl, rfl, hr', hinst⟩
          cases i with
          | zero =>
            obtain rfl : r₀ = r := Option.some.inj hr
            rfl
          | succ i =>
            have := hcount r hr' i
            omega
      · rw [if_neg hk, ih]
        constructor
        · rintro ⟨i, r, hr, rfl, rfl, hr', hinst⟩
          refine ⟨i + 1, r, hr, by omega, rfl, hr', ?_⟩
          have := hcount r hr' i
          omega
        · rintro ⟨i, r, hr, rfl, rfl, hr', hinst⟩
          cases i with
          | zero => exact absurd hinst.symm hk
          | succ i =>
            refine ⟨i, r, hr, by omega, rfl, hr', ?_⟩
            have := hcount r hr' i
            omega
    · rw [if_neg (mt hcond.mp hname), ih]
      have hcount : ∀ r : Reg F A, name.map cstr = some (cstr r.name) → ∀ i,
          sameName r.name ((r₀ :: regs).take (i + 1)) = sameName r.name (regs.take i) := by
        intro r hr i
        have hdiff : ¬cstr r.name = cstr r₀.name := fun h => hname (hr.trans (congrArg some h))
        unfold sameName
        rw [List.take_succ_cons, List.countP_cons, if_neg (by simpa using hdiff)]
        rfl
      constructor
      · rintro ⟨i, r, hr, rfl, rfl, hr', hinst⟩
        refine ⟨i + 1, r, hr, by omega, rfl, hr', ?_⟩
        have := hcount r hr' i
        omega
      · rintro ⟨i, r, hr, rfl, rfl, hr', hinst⟩
        cases i with
        | zero =>
          obtain rfl : r₀ = r := Option.some.inj hr
          exact absurd hr' hname
        | succ i =>
          refine ⟨i, r, hr, by omega, rfl, hr', ?_⟩
          have := hcount r hr' i
          omega

/-- **Instance numbers are stable.** After any registrations that the table holds, `device_open` calls
the open function of the `i`-th one, with its `aux`, if and only if the name is equal to its name and
the number is the one that it returned. For any other name and number it calls nothing and returns
`-ENODEV`. -/
theorem instance_numbers_stable (driver : Option F → Option A → Int) {regs : List (Reg F A)}
    (hregs : regs.length ≤ NDEV) :
    ∃ ks devtab, registerAll start regs = some (ks, devtab) ∧
      (∀ (i : Nat) (r : Reg F A) (k : Nat), regs[i]? = some r → ks[i]? = some k → ∀ name instno,
        (deviceOpen driver devtab name instno =
            (driver (some r.openfn) (some r.aux), some (i, r.slot)) ↔
          name.map cstr = some (cstr r.name) ∧ instno = (k : Int))) ∧
      ∀ name instno, (∀ (i : Nat) (r : Reg F A) (k : Nat), regs[i]? = some r → ks[i]? = some k →
          ¬(name.map cstr = some (cstr r.name) ∧ instno = (k : Int))) →
        deviceOpen driver devtab name instno = (-ENODEV, none) := by
  have hstart : Filled ([] : List (Reg F A)) start := ⟨Nat.zero_le _, rfl⟩
  have hroom : ([] ++ regs).length ≤ NDEV := hregs
  obtain ⟨ks, devtab, hall, ⟨-, hfilled⟩, hks⟩ := registerAll_eq hstart hroom
  simp only [List.nil_append] at hfilled hks
  have hfind : ∀ name instno j slot, openLoop name instno devtab 0 0 = some (j, slot) ↔
      ∃ r k, regs[j]? = some r ∧ ks[j]? = some k ∧ slot = r.slot ∧
        name.map cstr = some (cstr r.name) ∧ instno = (k : Int) := by
    intro name instno j slot
    rw [hfilled, openLoop_eq_some_iff]
    constructor
    · rintro ⟨i, r, hr, rfl, rfl, hname, hinst⟩
      rw [Nat.zero_add]
      exact ⟨r, _, hr, hks i r hr, rfl, hname, by omega⟩
    · rintro ⟨r, k, hr, hk, rfl, hname, hinst⟩
      obtain rfl : sameName r.name (regs.take j) = k := Option.some.inj ((hks j r hr).symm.trans hk)
      exact ⟨j, r, hr, (Nat.zero_add j).symm, rfl, hname, by omega⟩
  refine ⟨ks, devtab, hall, fun i r k hr hk name instno => ?_, fun name instno hnone => ?_⟩
  · have hiff := hfind name instno i r.slot
    unfold deviceOpen
    constructor
    · intro hopen
      split at hopen
      · cases (Prod.mk.inj hopen).2
      · next devno slot hloop =>
        obtain ⟨rfl, rfl⟩ := Prod.mk.inj (Option.some.inj (Prod.mk.inj hopen).2)
        obtain ⟨r', k', hr', hk', -, hname, hinst⟩ := hiff.mp hloop
        obtain rfl : r' = r := Option.some.inj (hr'.symm.trans hr)
        obtain rfl : k' = k := Option.some.inj (hk'.symm.trans hk)
        exact ⟨hname, hinst⟩
    · rintro ⟨hname, hinst⟩
      rw [hiff.mpr ⟨r, k, hr, hk, rfl, hname, hinst⟩]
      rfl
  · unfold deviceOpen
    cases hloop : openLoop name instno devtab 0 0 with
    | none => rfl
    | some found =>
      obtain ⟨r, k, hr, hk, -, hname, hinst⟩ := (hfind name instno found.1 found.2).mp hloop
      exact absurd ⟨hname, hinst⟩ (hnone found.1 r k hr hk)

/-- A block device between two serial ports. -/
def threeDevices : List (Reg Unit Nat) :=
  [⟨[115, 101, 114], (), 0⟩, ⟨[98, 108, 107], (), 1⟩, ⟨[115, 101, 114], (), 2⟩]

theorem instance_numbers_stable_three : ∃ ks devtab,
    registerAll start threeDevices = some (ks, devtab) ∧
    ∀ k : Nat, ks[2]? = some k → ∀ name instno,
      (deviceOpen (fun _ _ => 0) devtab name instno =
          (0, some (2, Reg.slot ⟨[115, 101, 114], (), 2⟩)) ↔
        name.map cstr = some (cstr [115, 101, 114]) ∧ instno = (k : Int)) := by
  obtain ⟨ks, devtab, hall, hopen, -⟩ :=
    instance_numbers_stable (fun _ _ => 0) (show threeDevices.length ≤ NDEV by decide)
  exact ⟨ks, devtab, hall, fun k hk => hopen 2 _ k rfl hk⟩

end DevTab

end RiscvKernel
