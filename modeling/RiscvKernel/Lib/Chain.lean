import Mathlib

/-!
# Singly linked lists with a tail pointer

A list is a head and a tail pointer; the links are in a `next` column that several
lists share, so an element can be on one of them only. `Represents next c l` says that
the pointers of `c` and the links spell out `l`.

* `insert`, `remove` and `append` are the pointer operations. They are undefined where
  the pointers contradict each other (one of head and tail is null and the other is not).
* Each of them has one lemma: what list it represents afterwards, and which links it
  may have changed.
* `forEach` is a loop along the links; on a represented list it is a fold
  (`forEach_eq`).
* `Linked.insertAfter` is for lists that are kept by their head alone.

`Spells next p l` is the same for a list without a tail pointer, linked through addresses
with 0 at the end; `SpellsTo next p l q` for a part of such a list, which leads to `q`.
-/

namespace Lib

variable {α : Type}

/-- Head and tail pointer. -/
structure Chain (α : Type) where
  head : Option α
  tail : Option α
  deriving DecidableEq

namespace Chain

def nil : Chain α := ⟨none, none⟩

/-- Every element links to the one behind it, and the last one to nothing. -/
def Linked (next : α → Option α) : List α → Prop
  | [] => True
  | x :: l => next x = l.head? ∧ Linked next l

/-- The pointers and links spell out `l`. -/
structure Represents (next : α → Option α) (c : Chain α) (l : List α) : Prop where
  head : c.head = l.head?
  tail : c.tail = l.getLast?
  links : Linked next l

/-! ## The pointer operations -/

section Operations

variable [DecidableEq α]

/-- Put `t` at the end. -/
def insert (next : α → Option α) (c : Chain α) (t : α) : Option (Chain α × (α → Option α)) :=
  let next := Function.update next t none
  match c.tail with
  | some last =>
    if c.head = none then none
    else some (⟨c.head, some t⟩, Function.update next last (some t))
  | none => if c.head = none then some (⟨some t, some t⟩, next) else none

/-- Take the first element, if there is one. -/
def remove (next : α → Option α) (c : Chain α) : Option (α × Chain α × (α → Option α)) :=
  match c.head with
  | none => none
  | some t =>
    let tail := if next t = none then none else c.tail
    some (t, ⟨next t, tail⟩, Function.update next t none)

/-- Put all of `d` behind `c`. -/
def append (next : α → Option α) (c d : Chain α) : Option (Chain α × (α → Option α)) :=
  match c.head, c.tail with
  | some _, some last =>
    match d.head, d.tail with
    | none, _ => some (c, next)
    | some first, some last' => some (⟨c.head, some last'⟩, Function.update next last (some first))
    | some _, none => none
  | some _, none => none
  | none, some _ => none
  | none, none => some (⟨d.head, d.tail⟩, next)

end Operations

/-- Run `f` on the elements from `cur` on, along the links. -/
def forEach {σ ε : Type} (next : α → Option α) (f : α → σ → Except ε σ) (loops : ε) :
    Nat → Option α → σ → Except ε σ
  | _, none, s => .ok s
  | 0, some _, _ => .error loops
  | fuel + 1, some t, s => do
    let s ← f t s
    forEach next f loops fuel (next t) s

/-! ## Links -/

theorem Linked.congr {next next' : α → Option α} {l : List α} (h : Linked next l)
    (heq : ∀ x ∈ l, next' x = next x) : Linked next' l := by
  induction l with
  | nil => trivial
  | cons x l ih =>
    refine ⟨?_, ih h.2 fun y hy => heq y (List.mem_cons_of_mem x hy)⟩
    rw [heq x List.mem_cons_self]
    exact h.1

/-- The links from a head on spell out one list only. -/
theorem Linked.unique {next : α → Option α} {l m : List α} (hl : Linked next l)
    (hm : Linked next m) (hhead : l.head? = m.head?) : l = m := by
  induction l generalizing m with
  | nil => exact (List.head?_eq_none_iff.mp hhead.symm).symm
  | cons x l ih =>
    cases m with
    | nil => cases hhead
    | cons y m =>
      obtain rfl : x = y := Option.some.inj hhead
      rw [ih hl.2 hm.2 (hl.1.symm.trans hm.1)]

variable [DecidableEq α]

/-- Linking the last element of `l` to the first one of `m` joins them. Induction on `l`;
only its last element gets a new link. -/
theorem Linked.append {next : α → Option α} {l m : List α} {last : α} (hl : Linked next l)
    (hm : Linked next m) (hlast : l.getLast? = some last) (hn : (l ++ m).Nodup) :
    Linked (Function.update next last m.head?) (l ++ m) := by
  induction l with
  | nil => cases hlast
  | cons x l ih =>
    have hnl := List.nodup_cons.mp hn
    cases l with
    | nil =>
      obtain rfl : x = last := by simpa using hlast
      refine ⟨Function.update_self .., hm.congr fun y hy => ?_⟩
      have hne : y ≠ x := by
        rintro rfl
        exact hnl.1 hy
      exact Function.update_of_ne hne ..
    | cons y l =>
      rw [List.getLast?_cons_cons] at hlast
      refine ⟨?_, ih hl.2 hlast hnl.2⟩
      -- `x` is not the last element, so its link stays
      have hne : x ≠ last := by
        rintro rfl
        exact hnl.1 (List.mem_append_left m (List.mem_of_getLast? hlast))
      rw [Function.update_of_ne hne]
      exact hl.1

/-- `a` is put between `x` and what is behind it. -/
theorem Linked.insertAfter {next : α → Option α} {x a : α} {l : List α} (hl : Linked next l)
    (hx : x ∉ l) (ha : a ∉ l) (hax : a ≠ x) :
    Linked (Function.update (Function.update next a l.head?) x (some a)) (x :: a :: l) := by
  refine ⟨Function.update_self .., ?_, hl.congr fun y hy => ?_⟩
  · rw [Function.update_of_ne hax, Function.update_self]
  · have hyx : y ≠ x := by
      rintro rfl
      exact hx hy
    have hya : y ≠ a := by
      rintro rfl
      exact ha hy
    rw [Function.update_of_ne hyx, Function.update_of_ne hya]

/-! ## What the operations represent -/

omit [DecidableEq α] in
theorem represents_nil (next : α → Option α) : Represents next nil [] := ⟨rfl, rfl, trivial⟩

omit [DecidableEq α] in
theorem Represents.congr {next next' : α → Option α} {c : Chain α} {l : List α}
    (h : Represents next c l) (heq : ∀ x ∈ l, next' x = next x) : Represents next' c l :=
  ⟨h.head, h.tail, h.links.congr heq⟩

omit [DecidableEq α] in
theorem Represents.head_eq_none {next : α → Option α} {c : Chain α} {l : List α}
    (h : Represents next c l) : c.head = none ↔ l = [] := by
  rw [h.head, List.head?_eq_none_iff]

theorem Represents.insert {next : α → Option α} {c : Chain α} {l : List α} {t : α}
    (h : Represents next c l) (hl : l.Nodup) (ht : t ∉ l) :
    ∃ c' next', c.insert next t = some (c', next') ∧ Represents next' c' (l ++ [t]) ∧
      ∀ x, x ≠ t → x ∉ l → next' x = next x := by
  have hmark : ∀ x, x ≠ t → Function.update next t none x = next x :=
    fun x hx => Function.update_of_ne hx ..
  have hlinks : Linked (Function.update next t none) l :=
    h.links.congr fun x hx => hmark x fun he => ht (he ▸ hx)
  cases hlast : l.getLast? with
  | none =>
    obtain rfl := List.getLast?_eq_none_iff.mp hlast
    refine ⟨⟨some t, some t⟩, Function.update next t none, ?_, ⟨rfl, rfl, ?_, trivial⟩,
      fun x hx _ => hmark x hx⟩
    · unfold Chain.insert
      rw [h.tail, h.head]
      rfl
    · exact Function.update_self ..
  | some last =>
    have hne : l ≠ [] := by
      rintro rfl
      cases hlast
    have hnodup : (l ++ [t]).Nodup := by
      rw [List.nodup_append]
      refine ⟨hl, List.nodup_singleton t, ?_⟩
      intro a ha b hb
      rw [List.mem_singleton.mp hb]
      rintro rfl
      exact ht ha
    have hsingle : Linked (Function.update next t none) [t] := ⟨Function.update_self .., trivial⟩
    refine ⟨⟨c.head, some t⟩, Function.update (Function.update next t none) last (some t), ?_,
      ⟨?_, by simp, hlinks.append hsingle hlast hnodup⟩, fun x hx hxl => ?_⟩
    · unfold Chain.insert
      rw [h.tail, hlast]
      dsimp only
      rw [if_neg (fun he => hne (h.head_eq_none.mp he))]
    · rw [List.head?_append_of_ne_nil l hne]
      exact h.head
    · have hxlast : x ≠ last := by
        rintro rfl
        exact hxl (List.mem_of_getLast? hlast)
      rw [Function.update_of_ne hxlast]
      exact hmark x hx

theorem Represents.remove {next : α → Option α} {c : Chain α} {l : List α} {t : α}
    (h : Represents next c (t :: l)) (ht : t ∉ l) :
    ∃ c' next', c.remove next = some (t, c', next') ∧ Represents next' c' l ∧
      ∀ x, x ≠ t → next' x = next x := by
  have hnext : next t = l.head? := h.links.1
  have hmark : ∀ x, x ≠ t → Function.update next t none x = next x :=
    fun x hx => Function.update_of_ne hx ..
  refine ⟨⟨next t, if next t = none then none else c.tail⟩, Function.update next t none, ?_,
    ⟨hnext, ?_, h.links.2.congr fun x hx => hmark x fun he => ht (he ▸ hx)⟩, hmark⟩
  · unfold Chain.remove
    rw [h.head]
    rfl
  · rw [hnext, h.tail]
    cases l with
    | nil => rfl
    | cons y l => rw [List.getLast?_cons_cons]; rfl

theorem Represents.append {next : α → Option α} {c d : Chain α} {l m : List α}
    (hc : Represents next c l) (hd : Represents next d m) (hn : (l ++ m).Nodup) :
    ∃ c' next', c.append next d = some (c', next') ∧ Represents next' c' (l ++ m) ∧
      ∀ x, x ∉ l → next' x = next x := by
  unfold Chain.append
  rw [hc.head, hc.tail]
  cases hlast : l.getLast? with
  | none =>
    obtain rfl := List.getLast?_eq_none_iff.mp hlast
    exact ⟨d, next, rfl, hd, fun _ _ => rfl⟩
  | some last =>
    cases l with
    | nil => cases hlast
    | cons x l =>
      rw [hd.head, hd.tail]
      cases m with
      | nil =>
        refine ⟨c, next, rfl, ?_, fun _ _ => rfl⟩
        rw [List.append_nil]
        exact hc
      | cons y m =>
        obtain ⟨last', hlast'⟩ : ∃ last', (y :: m).getLast? = some last' :=
          ⟨_, List.getLast?_eq_some_getLast (List.cons_ne_nil y m)⟩
        rw [hlast']
        refine ⟨⟨some x, some last'⟩, Function.update next last (some y), ?_,
          ⟨rfl, ?_, hc.links.append hd.links hlast hn⟩, fun z hz => ?_⟩
        · rfl
        · rw [List.getLast?_append, hlast']
          rfl
        · have hne : z ≠ last := by
            rintro rfl
            exact hz (List.mem_of_getLast? hlast)
          exact Function.update_of_ne hne ..

omit [DecidableEq α] in
/-- The loop along the links of a represented list runs over the list. -/
theorem forEach_eq {σ ε : Type} {next : α → Option α} {f : α → σ → Except ε σ} {loops : ε}
    {l : List α} (h : Linked next l) {fuel : Nat} (hfuel : l.length ≤ fuel) (s : σ) :
    forEach next f loops fuel l.head? s = l.foldlM (fun s t => f t s) s := by
  induction l generalizing fuel s with
  | nil => cases fuel <;> rfl
  | cons x l ih =>
    cases fuel with
    | zero => simp at hfuel
    | succ fuel =>
      simp only [List.head?_cons, forEach, List.foldlM_cons]
      rw [h.1]
      congr 1
      funext s'
      exact ih h.2 (by simpa using hfuel) s'

end Chain

/-! ## Lists that end with a null address -/

/-- From `p` the links spell out `l`. -/
def Spells (next : Nat → Nat) : Nat → List Nat → Prop
  | p, [] => p = 0
  | p, x :: l => p = x ∧ x ≠ 0 ∧ Spells next (next x) l

variable {next next' : Nat → Nat} {p : Nat} {l : List Nat}

theorem Spells.congr (h : Spells next p l) (heq : ∀ x ∈ l, next' x = next x) :
    Spells next' p l := by
  induction l generalizing p with
  | nil => exact h
  | cons x l ih =>
    obtain ⟨hp, hx, hl⟩ := h
    refine ⟨hp, hx, ?_⟩
    rw [heq x List.mem_cons_self]
    exact ih hl fun y hy => heq y (List.mem_cons_of_mem x hy)

/-- From a non-null address the list begins with that address. -/
theorem spells_iff_cons (hp : p ≠ 0) :
    Spells next p l ↔ ∃ k, l = p :: k ∧ Spells next (next p) k := by
  constructor
  · intro h
    cases l with
    | nil => exact absurd h hp
    | cons x l =>
      obtain ⟨rfl, -, hl⟩ := h
      exact ⟨l, rfl, hl⟩
  · rintro ⟨k, rfl, hk⟩
    exact ⟨rfl, hp, hk⟩

/-- The links spell out one list. -/
theorem Spells.unique {k : List Nat} (hl : Spells next p l) (hk : Spells next p k) : l = k := by
  induction l generalizing p k with
  | nil =>
    cases k with
    | nil => rfl
    | cons y k => exact absurd (hk.1.symm.trans hl) hk.2.1
  | cons x l ih =>
    obtain ⟨rfl, hne, hl⟩ := hl
    obtain ⟨k', rfl, hk'⟩ := (spells_iff_cons hne).mp hk
    rw [ih hl hk']

/-- Behind any of its elements the list goes on from there. -/
theorem Spells.suffix {x : Nat} {a b : List Nat} (h : Spells next p (a ++ x :: b)) :
    Spells next x (x :: b) := by
  induction a generalizing p with
  | nil =>
    obtain ⟨-, hx, hb⟩ := h
    exact ⟨rfl, hx, hb⟩
  | cons y a ih => exact ih h.2.2

/-- A list that ends does not come back to an element. -/
theorem Spells.nodup (h : Spells next p l) : l.Nodup := by
  induction l generalizing p with
  | nil => exact List.nodup_nil
  | cons x l ih =>
    obtain ⟨-, -, hl⟩ := h
    refine List.nodup_cons.mpr ⟨fun hmem => ?_, ih hl⟩
    obtain ⟨a, b, rfl⟩ := List.append_of_mem hmem
    -- the list from `x` on would be a part of itself
    have hlen := congrArg List.length (hl.unique hl.suffix.2.2)
    simp only [List.length_append, List.length_cons] at hlen
    omega

/-- A list whose first element links to itself does not end. -/
theorem not_spells_self (hp : p ≠ 0) (hnext : next p = p) : ¬Spells next p l := by
  intro h
  obtain ⟨k, rfl, hk⟩ := (spells_iff_cons hp).mp h
  rw [hnext] at hk
  have := congrArg List.length (hk.unique h)
  simp at this

/-- From `p` the links spell out `l` and then lead to `q`. -/
def SpellsTo (next : Nat → Nat) : Nat → List Nat → Nat → Prop
  | p, [], q => p = q
  | p, x :: l, q => p = x ∧ SpellsTo next (next x) l q

variable {q : Nat}

theorem SpellsTo.snoc {x : Nat} (h : SpellsTo next p l x) (hx : next x = q) :
    SpellsTo next p (l ++ [x]) q := by
  induction l generalizing p with
  | nil => exact ⟨h, hx⟩
  | cons y l ih => exact ⟨h.1, ih h.2⟩

/-- What the list is behind a part of it. -/
theorem SpellsTo.spells_iff {k : List Nat} (h : SpellsTo next p l q) (hne : ∀ x ∈ l, x ≠ 0) :
    Spells next p k ↔ ∃ k', k = l ++ k' ∧ Spells next q k' := by
  induction l generalizing p k with
  | nil =>
    obtain rfl : p = q := h
    exact ⟨fun hk => ⟨k, rfl, hk⟩, fun ⟨k', hk, hspells⟩ => hk ▸ hspells⟩
  | cons x l ih =>
    obtain ⟨rfl, hl⟩ := h
    have hrest := fun y hy => hne y (List.mem_cons_of_mem p hy)
    rw [spells_iff_cons (hne p List.mem_cons_self)]
    constructor
    · rintro ⟨k₁, rfl, hk₁⟩
      obtain ⟨k', rfl, hk'⟩ := (ih hl hrest).mp hk₁
      exact ⟨k', rfl, hk'⟩
    · rintro ⟨k', rfl, hk'⟩
      exact ⟨l ++ k', rfl, (ih hl hrest).mpr ⟨k', rfl, hk'⟩⟩

end Lib
