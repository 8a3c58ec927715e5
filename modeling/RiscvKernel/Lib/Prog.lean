import Mathlib

/-!
# Programs of cooperative threads

Code that runs without being preempted and gives up the processor only when it
blocks is a tree of steps over a shared state `σ`: plain actions, the acquire and
release of a sleep lock, and sleeping until a condition is signalled. `Prog` is
that tree, with its `Monad` instance so that code is written as `do` blocks.

Readings of a program:

* **`exec`** runs it alone: no lock is ever contended, and each sleep is answered
  at once by the device (`serve`). **`solo`** does the same and keeps track of the locks.
* **`Disciplined`** types its use of locks: every acquire takes a lock the thread
  does not hold, every release gives back one it holds, and every sleep happens
  with the guarding lock `L` held. `Disciplined.bind` composes it along `do`.

`zoom` runs a program on a component of a larger state, reached by a `Lens`; both
readings pass through it.
-/

namespace Lib

/-- A thread's code: what it does next and how it goes on. `act u k` reads the
shared state `s`, replaces it by `u s` and goes on with `k s`; `sleep u c k` does
`u` and blocks on `c`, with no interrupt between the two. -/
inductive Prog (σ ι κ α : Type) where
  | ret (a : α)
  | act (u : σ → σ) (k : σ → Prog σ ι κ α)
  | acquire (l : ι) (k : Prog σ ι κ α)
  | release (l : ι) (k : Prog σ ι κ α)
  | sleep (u : σ → σ) (c : κ) (k : Prog σ ι κ α)
  | crash

namespace Prog

variable {σ ι κ α β : Type}

def bind : Prog σ ι κ α → (α → Prog σ ι κ β) → Prog σ ι κ β
  | ret a, f => f a
  | act u k, f => act u fun s => (k s).bind f
  | acquire l k, f => acquire l (k.bind f)
  | release l k, f => release l (k.bind f)
  | sleep u c k, f => sleep u c (k.bind f)
  | crash, _ => crash

instance : Monad (Prog σ ι κ) where
  pure := ret
  bind := bind

/-- Read the shared state. -/
def get : Prog σ ι κ σ := act id ret

/-- Replace the shared state by its image under `u`. -/
def modify (u : σ → σ) : Prog σ ι κ Unit := act u fun _ => ret ()

def lock (l : ι) : Prog σ ι κ Unit := acquire l (ret ())

def unlock (l : ι) : Prog σ ι κ Unit := release l (ret ())

def waitFor (u : σ → σ) (c : κ) : Prog σ ι κ Unit := sleep u c (ret ())

/-- Stop unless `c` holds. -/
def assert (c : Prop) [Decidable c] : Prog σ ι κ Unit := if c then ret () else crash

@[simp] theorem pure_eq (a : α) : (pure a : Prog σ ι κ α) = ret a := rfl

@[simp] theorem ret_bind (a : α) (f : α → Prog σ ι κ β) : ret a >>= f = f a := rfl

/-! ## Running alone -/

/-- The result of running a program alone from `s`, where `serve` is what the
device does with the request that a sleep waits for. `none`: it crashed, or slept
for a request the device does not answer. -/
def exec (serve : σ → Option σ) : Prog σ ι κ α → σ → Option (α × σ)
  | ret a, s => some (a, s)
  | act u k, s => (k s).exec serve (u s)
  | acquire _ k, s => k.exec serve s
  | release _ k, s => k.exec serve s
  | sleep u _ k, s => (serve (u s)).bind (k.exec serve)
  | crash, _ => none

variable {serve : σ → Option σ}

@[simp] theorem exec_ret (a : α) (s : σ) :
    (ret a : Prog σ ι κ α).exec serve s = some (a, s) := rfl

@[simp] theorem exec_act (u : σ → σ) (k : σ → Prog σ ι κ α) (s : σ) :
    (act u k).exec serve s = (k s).exec serve (u s) := rfl

@[simp] theorem exec_acquire (l : ι) (k : Prog σ ι κ α) (s : σ) :
    (acquire l k).exec serve s = k.exec serve s := rfl

@[simp] theorem exec_release (l : ι) (k : Prog σ ι κ α) (s : σ) :
    (release l k).exec serve s = k.exec serve s := rfl

@[simp] theorem exec_sleep (u : σ → σ) (c : κ) (k : Prog σ ι κ α) (s : σ) :
    (sleep u c k).exec serve s = (serve (u s)).bind (k.exec serve) := rfl

theorem exec_assert {c : Prop} [Decidable c] (hc : c) (s : σ) :
    (assert c : Prog σ ι κ Unit).exec serve s = some ((), s) := by
  simp [assert, hc]

/-- Running alone composes along `bind`. -/
theorem exec_bind (p : Prog σ ι κ α) (f : α → Prog σ ι κ β) (s : σ) :
    (p >>= f).exec serve s = (p.exec serve s).bind fun r => (f r.1).exec serve r.2 := by
  show (p.bind f).exec serve s = _
  induction p generalizing s with
  | ret a => rfl
  | act u k ih => exact ih s (u s)
  | acquire l k ih => exact ih s
  | release l k ih => exact ih s
  | sleep u c k ih =>
    simp only [bind, exec_sleep]
    cases serve (u s) with
    | none => rfl
    | some s' => exact ih s'
  | crash => rfl

/-- A part that runs to its end hands its result and state on. -/
theorem exec_bind_of_eq {p : Prog σ ι κ α} {s s' : σ} {a : α}
    (h : p.exec serve s = some (a, s')) (f : α → Prog σ ι κ β) :
    (p >>= f).exec serve s = (f a).exec serve s' := by
  rw [exec_bind, h, Option.bind_some]

@[simp] theorem exec_get_bind (f : σ → Prog σ ι κ β) (s : σ) :
    (get >>= f).exec serve s = (f s).exec serve s :=
  exec_bind_of_eq rfl f

@[simp] theorem exec_modify_bind (u : σ → σ) (f : Unit → Prog σ ι κ β) (s : σ) :
    (modify u >>= f).exec serve s = (f ()).exec serve (u s) :=
  exec_bind_of_eq rfl f

@[simp] theorem exec_lock_bind (l : ι) (f : Unit → Prog σ ι κ β) (s : σ) :
    (lock l >>= f).exec serve s = (f ()).exec serve s :=
  exec_bind_of_eq rfl f

@[simp] theorem exec_unlock_bind (l : ι) (f : Unit → Prog σ ι κ β) (s : σ) :
    (unlock l >>= f).exec serve s = (f ()).exec serve s :=
  exec_bind_of_eq rfl f

theorem exec_waitFor_bind {u : σ → σ} {s s' : σ} (h : serve (u s) = some s') (c : κ)
    (f : Unit → Prog σ ι κ β) :
    (waitFor u c >>= f).exec serve s = (f ()).exec serve s' := by
  rw [exec_bind, waitFor, exec_sleep, h]
  rfl

theorem exec_assert_bind {c : Prop} [Decidable c] (hc : c) (f : Unit → Prog σ ι κ β) (s : σ) :
    (assert c >>= f).exec serve s = (f ()).exec serve s :=
  exec_bind_of_eq (exec_assert hc s) f

theorem exec_assert_bind_not {c : Prop} [Decidable c] (hc : ¬c) (f : Unit → Prog σ ι κ β) (s : σ) :
    (assert c >>= f).exec serve s = none := by
  rw [exec_bind, assert, if_neg hc]
  rfl

/-! ## Requests -/

/-- The states in which a program that runs alone waits, one for each of its requests. -/
def issued (serve : σ → Option σ) : Prog σ ι κ α → σ → List σ
  | ret _, _ => []
  | act u k, s => (k s).issued serve (u s)
  | acquire _ k, s => k.issued serve s
  | release _ k, s => k.issued serve s
  | sleep u _ k, s =>
    u s :: match serve (u s) with
      | none => []
      | some s' => k.issued serve s'
  | crash, _ => []

/-- The requests of a part come first, and the rest is reached if the part runs to its end. -/
theorem issued_bind (p : Prog σ ι κ α) (f : α → Prog σ ι κ β) (s : σ) :
    (p >>= f).issued serve s = p.issued serve s ++
      match p.exec serve s with
      | none => []
      | some r => (f r.1).issued serve r.2 := by
  show (p.bind f).issued serve s = _
  induction p generalizing s with
  | ret a => rfl
  | act u k ih => exact ih s (u s)
  | acquire l k ih => exact ih s
  | release l k ih => exact ih s
  | sleep u c k ih =>
    simp only [bind, issued, exec_sleep]
    cases serve (u s) with
    | none => rfl
    | some s' =>
      rw [List.cons_append]
      exact congrArg (u s :: ·) (ih s')
  | crash => rfl

theorem issued_bind_of_eq {p : Prog σ ι κ α} {s s' : σ} {a : α}
    (h : p.exec serve s = some (a, s')) (f : α → Prog σ ι κ β) :
    (p >>= f).issued serve s = p.issued serve s ++ (f a).issued serve s' := by
  rw [issued_bind, h]

theorem issued_bind_of_none {p : Prog σ ι κ α} {s : σ} (h : p.exec serve s = none)
    (f : α → Prog σ ι κ β) : (p >>= f).issued serve s = p.issued serve s := by
  rw [issued_bind, h, List.append_nil]

theorem issued_get_bind (f : σ → Prog σ ι κ β) (s : σ) :
    (get >>= f).issued serve s = (f s).issued serve s := rfl

theorem issued_modify_bind (u : σ → σ) (f : Unit → Prog σ ι κ β) (s : σ) :
    (modify u >>= f).issued serve s = (f ()).issued serve (u s) := rfl

theorem issued_lock_bind (l : ι) (f : Unit → Prog σ ι κ β) (s : σ) :
    (lock l >>= f).issued serve s = (f ()).issued serve s := rfl

theorem issued_unlock_bind (l : ι) (f : Unit → Prog σ ι κ β) (s : σ) :
    (unlock l >>= f).issued serve s = (f ()).issued serve s := rfl

theorem issued_waitFor_bind {u : σ → σ} {s s' : σ} (h : serve (u s) = some s') (c : κ)
    (f : Unit → Prog σ ι κ β) :
    (waitFor u c >>= f).issued serve s = u s :: (f ()).issued serve s' := by
  show u s :: (match serve (u s) with | none => [] | some s' => (f ()).issued serve s') = _
  rw [h]

theorem issued_assert_bind {c : Prop} [Decidable c] (hc : c) (f : Unit → Prog σ ι κ β) (s : σ) :
    (assert c >>= f).issued serve s = (f ()).issued serve s := by
  rw [assert, if_pos hc]
  rfl

theorem issued_assert_bind_not {c : Prop} [Decidable c] (hc : ¬c) (f : Unit → Prog σ ι κ β) (s : σ) :
    (assert c >>= f).issued serve s = [] := by
  rw [assert, if_neg hc]
  rfl

/-! ## Lock discipline -/

/-- `p`, entered holding the locks `h`, uses its locks well and ends holding `h'`:
it acquires only what it does not hold, releases only what it holds, sleeps only on
`irq` with `L` held, and none of its plain actions issues a device request. -/
def Disciplined [DecidableEq ι] (serve : σ → Option σ) (irq : κ) (L : ι) :
    Prog σ ι κ α → (ι → Bool) → (ι → Bool) → Prop
  | ret _, h, h' => h = h'
  | act u k, h, h' =>
    (∀ s, serve s = none → serve (u s) = none) ∧
      ∀ s, (k s).Disciplined serve irq L h h'
  | acquire l k, h, h' =>
    h l = false ∧ k.Disciplined serve irq L (Function.update h l true) h'
  | release l k, h, h' =>
    h l = true ∧ k.Disciplined serve irq L (Function.update h l false) h'
  | sleep _ c k, h, h' => h L = true ∧ c = irq ∧ k.Disciplined serve irq L h h'
  | crash, _, _ => True

variable [DecidableEq ι] {irq : κ} {L : ι}

theorem Disciplined.bind {p : Prog σ ι κ α} {f : α → Prog σ ι κ β} {h₁ h₂ h₃ : ι → Bool}
    (hp : p.Disciplined serve irq L h₁ h₂) (hf : ∀ a, (f a).Disciplined serve irq L h₂ h₃) :
    (p >>= f).Disciplined serve irq L h₁ h₃ := by
  show (p.bind f).Disciplined serve irq L h₁ h₃
  induction p generalizing h₁ with
  | ret a => cases hp; exact hf a
  | act u k ih => exact ⟨hp.1, fun s => ih s (hp.2 s)⟩
  | acquire l k ih => exact ⟨hp.1, ih hp.2⟩
  | release l k ih => exact ⟨hp.1, ih hp.2⟩
  | sleep u c k ih => exact ⟨hp.1, hp.2.1, ih hp.2.2⟩
  | crash => trivial

theorem disciplined_get (h : ι → Bool) :
    (get : Prog σ ι κ σ).Disciplined serve irq L h h :=
  ⟨fun _ hs => hs, fun _ => rfl⟩

theorem disciplined_modify {u : σ → σ} (hu : ∀ s, serve s = none → serve (u s) = none)
    (h : ι → Bool) : (modify u : Prog σ ι κ Unit).Disciplined serve irq L h h :=
  ⟨hu, fun _ => rfl⟩

theorem disciplined_lock {l : ι} {h h' : ι → Bool} (hl : h l = false)
    (hh : h' = Function.update h l true) :
    (lock l : Prog σ ι κ Unit).Disciplined serve irq L h h' :=
  ⟨hl, hh.symm⟩

theorem disciplined_unlock {l : ι} {h h' : ι → Bool} (hl : h l = true)
    (hh : h' = Function.update h l false) :
    (unlock l : Prog σ ι κ Unit).Disciplined serve irq L h h' :=
  ⟨hl, hh.symm⟩

theorem disciplined_assert (c : Prop) [Decidable c] (h : ι → Bool) :
    (assert c : Prog σ ι κ Unit).Disciplined serve irq L h h := by
  unfold assert
  split
  · rfl
  · trivial

theorem disciplined_waitFor {u : σ → σ} {h : ι → Bool} (hL : h L = true) :
    (waitFor u irq : Prog σ ι κ Unit).Disciplined serve irq L h h :=
  ⟨hL, rfl, rfl⟩

/-! ## Running alone, with the locks -/

/-- As `exec`, from the locks `h` that are held at the beginning: a lock that is held is never
acquired, and a lock that is not held is never released. -/
def solo (serve : σ → Option σ) : Prog σ ι κ α → (ι → Bool) → σ → Option (α × (ι → Bool) × σ)
  | ret a, h, s => some (a, h, s)
  | act u k, h, s => (k s).solo serve h (u s)
  | acquire l k, h, s => if h l then none else k.solo serve (Function.update h l true) s
  | release l k, h, s => if h l then k.solo serve (Function.update h l false) s else none
  | sleep u _ k, h, s => (serve (u s)).bind (k.solo serve h)
  | crash, _, _ => none

/-- Running alone with the locks composes along `bind`. -/
theorem solo_bind (p : Prog σ ι κ α) (f : α → Prog σ ι κ β) (h : ι → Bool) (s : σ) :
    (p >>= f).solo serve h s =
      (p.solo serve h s).bind fun r => (f r.1).solo serve r.2.1 r.2.2 := by
  show (p.bind f).solo serve h s = _
  induction p generalizing h s with
  | ret a => rfl
  | act u k ih => exact ih s h (u s)
  | acquire l k ih =>
    simp only [bind, solo]
    split
    · rfl
    · exact ih _ s
  | release l k ih =>
    simp only [bind, solo]
    split
    · exact ih _ s
    · rfl
  | sleep u c k ih =>
    simp only [bind, solo]
    cases serve (u s) with
    | none => rfl
    | some s' => exact ih h s'
  | crash => rfl

theorem solo_bind_of_eq {p : Prog σ ι κ α} {h h' : ι → Bool} {s s' : σ} {a : α}
    (hp : p.solo serve h s = some (a, h', s')) (f : α → Prog σ ι κ β) :
    (p >>= f).solo serve h s = (f a).solo serve h' s' := by
  rw [solo_bind, hp, Option.bind_some]

theorem solo_get_bind (f : σ → Prog σ ι κ β) (h : ι → Bool) (s : σ) :
    (get >>= f).solo serve h s = (f s).solo serve h s :=
  solo_bind_of_eq rfl f

theorem solo_modify_bind (u : σ → σ) (f : Unit → Prog σ ι κ β) (h : ι → Bool) (s : σ) :
    (modify u >>= f).solo serve h s = (f ()).solo serve h (u s) :=
  solo_bind_of_eq rfl f

theorem solo_lock_bind {l : ι} {h : ι → Bool} (hl : h l = false) (f : Unit → Prog σ ι κ β) (s : σ) :
    (lock l >>= f).solo serve h s = (f ()).solo serve (Function.update h l true) s := by
  refine solo_bind_of_eq ?_ f
  show (if h l then none else _) = _
  rw [hl]
  rfl

/-- A lock that is held is never acquired. -/
theorem solo_lock_bind_held {l : ι} {h : ι → Bool} (hl : h l = true) (f : Unit → Prog σ ι κ β)
    (s : σ) : (lock l >>= f).solo serve h s = none := by
  rw [solo_bind]
  show Option.bind (if h l then none else _) _ = _
  rw [hl]
  rfl

/-- A program that uses its locks well is not stopped by them. -/
theorem Disciplined.solo {p : Prog σ ι κ α} {h h' : ι → Bool} {s s' : σ} {a : α}
    (hp : p.Disciplined serve irq L h h') (hexec : p.exec serve s = some (a, s')) :
    p.solo serve h s = some (a, h', s') := by
  induction p generalizing h s with
  | ret b =>
    obtain ⟨rfl, rfl⟩ := Prod.mk.inj (Option.some.inj hexec)
    obtain rfl : h = h' := hp
    rfl
  | act u k ih => exact ih s (hp.2 s) hexec
  | acquire l k ih =>
    show (if h l then none else _) = _
    rw [hp.1, if_neg Bool.false_ne_true]
    exact ih hp.2 hexec
  | release l k ih =>
    show (if h l then _ else none) = _
    rw [hp.1, if_pos rfl]
    exact ih hp.2 hexec
  | sleep u c k ih =>
    obtain ⟨s₁, hserve, hrest⟩ := Option.bind_eq_some_iff.mp hexec
    show (serve (u s)).bind _ = _
    rw [hserve]
    exact ih hp.2.2 hrest
  | crash => cases hexec

/-- The locks that a program holds at its end are those that its discipline says. -/
theorem Disciplined.held_of_solo {p : Prog σ ι κ α} {h h' h'' : ι → Bool} {s s' : σ} {a : α}
    (hp : p.Disciplined serve irq L h h') (hsolo : p.solo serve h s = some (a, h'', s')) :
    h'' = h' := by
  induction p generalizing h s with
  | ret b =>
    obtain ⟨-, hh, -⟩ := by simpa [Prog.solo] using hsolo
    exact hh.symm.trans hp
  | act u k ih => exact ih s (hp.2 s) hsolo
  | acquire l k ih =>
    simp only [Prog.solo, hp.1, Bool.false_eq_true, if_false] at hsolo
    exact ih hp.2 hsolo
  | release l k ih =>
    simp only [Prog.solo, hp.1, if_true] at hsolo
    exact ih hp.2 hsolo
  | sleep u c k ih =>
    obtain ⟨s₁, -, hrest⟩ := Option.bind_eq_some_iff.mp hsolo
    exact ih hp.2.2 hrest
  | crash => cases hsolo

end Prog

/-! ## Programs on a component of the state -/

/-- A component `τ` of the state `σ`. -/
structure Lens (σ τ : Type) where
  view : σ → τ
  put : σ → τ → σ
  view_put : ∀ s t, view (put s t) = t
  put_view : ∀ s, put s (view s) = s
  put_put : ∀ s t t', put (put s t) t' = put s t'

/-- The device of the component, as a device of the whole. -/
def Lens.serve {σ τ : Type} (e : Lens σ τ) (serve : τ → Option τ) (s : σ) : Option σ :=
  (serve (e.view s)).map (e.put s)

theorem Lens.serve_eq_none {σ τ : Type} (e : Lens σ τ) {serve : τ → Option τ} {s : σ} :
    e.serve serve s = none ↔ serve (e.view s) = none := by
  simp [Lens.serve]

namespace Prog

variable {σ τ ι κ α β : Type} (e : Lens σ τ)

/-- Run a program of the component on the whole state. -/
def zoom : Prog τ ι κ α → Prog σ ι κ α
  | ret a => ret a
  | act u k => act (fun s => e.put s (u (e.view s))) fun s => (k (e.view s)).zoom
  | acquire l k => acquire l k.zoom
  | release l k => release l k.zoom
  | sleep u c k => sleep (fun s => e.put s (u (e.view s))) c k.zoom
  | crash => crash

/-- Alone, a zoomed program does to the component what the program does to it. -/
theorem exec_zoom (serve : τ → Option τ) (p : Prog τ ι κ α) (s : σ) :
    (p.zoom e).exec (e.serve serve) s =
      (p.exec serve (e.view s)).map fun r => (r.1, e.put s r.2) := by
  induction p generalizing s with
  | ret a => simp [zoom, e.put_view]
  | act u k ih =>
    simp only [zoom, exec_act]
    rw [ih, e.view_put]
    simp [e.put_put]
  | acquire l k ih => exact ih s
  | release l k ih => exact ih s
  | sleep u c k ih =>
    simp only [zoom, exec_sleep, Lens.serve, e.view_put]
    cases hs : serve (u (e.view s)) with
    | none => rfl
    | some t =>
      simp only [Option.map_some, Option.bind_some]
      rw [ih, e.view_put]
      simp [e.put_put]
  | crash => rfl

/-- The same, with the locks. -/
theorem solo_zoom [DecidableEq ι] (serve : τ → Option τ) (p : Prog τ ι κ α) (h : ι → Bool) (s : σ) :
    (p.zoom e).solo (e.serve serve) h s =
      (p.solo serve h (e.view s)).map fun r => (r.1, r.2.1, e.put s r.2.2) := by
  induction p generalizing h s with
  | ret a => simp [zoom, solo, e.put_view]
  | act u k ih =>
    simp only [zoom, solo]
    rw [ih, e.view_put]
    simp [e.put_put]
  | acquire l k ih =>
    simp only [zoom, solo]
    split
    · rfl
    · exact ih _ s
  | release l k ih =>
    simp only [zoom, solo]
    split
    · exact ih _ s
    · rfl
  | sleep u c k ih =>
    simp only [zoom, solo, Lens.serve, e.view_put]
    cases hs : serve (u (e.view s)) with
    | none => rfl
    | some t =>
      simp only [Option.map_some, Option.bind_some]
      rw [ih, e.view_put]
      simp [e.put_put]
  | crash => rfl

theorem Disciplined.zoom [DecidableEq ι] {serve : τ → Option τ} {irq : κ} {L : ι}
    {p : Prog τ ι κ α} {h h' : ι → Bool} (hp : p.Disciplined serve irq L h h') :
    (p.zoom e).Disciplined (e.serve serve) irq L h h' := by
  induction p generalizing h with
  | ret a => exact hp
  | act u k ih =>
    refine ⟨fun s hs => ?_, fun s => ih _ (hp.2 _)⟩
    rw [Lens.serve_eq_none] at hs ⊢
    rw [e.view_put]
    exact hp.1 _ hs
  | acquire l k ih => exact ⟨hp.1, ih hp.2⟩
  | release l k ih => exact ⟨hp.1, ih hp.2⟩
  | sleep u c k ih => exact ⟨hp.1, hp.2.1, ih hp.2.2⟩
  | crash => trivial

end Prog

end Lib
