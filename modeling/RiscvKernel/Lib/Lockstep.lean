import RiscvKernel.Lib.Prog

/-!
# Two programs side by side

`Lockstep serve serve' W p p' s s' Q`: `p` alone from `s` on the device `serve`, and `p'` alone from
`s'` on the device `serve'`, either both do not return, or both return, with results and states that
`Q` relates; and they make the same number of requests, the first of one related to the first of the
other by `W`, and so on. There is a rule for each step of a program; a proof with them follows the
text of the two programs. In most uses they are the same program, run on related states.

* `Lockstep.bind`: the rule of composition, from which the rules for a first step follow.
* `Lockstep.zoom`: programs of a component of the state.
* `eq_of_issued`: devices that agree on the requests that are made give the same run.
-/

namespace Lib

/-- States of the whole with related components and nothing else that differs. -/
def Lens.Lift {σ τ : Type} (e : Lens σ τ) (R : τ → τ → Prop) (s s' : σ) : Prop :=
  R (e.view s) (e.view s') ∧ ∀ t, e.put s t = e.put s' t

/-- States with related components. -/
def Lens.On {σ τ : Type} (e : Lens σ τ) (W : τ → τ → Prop) (s s' : σ) : Prop :=
  W (e.view s) (e.view s')

namespace Prog

variable {σ σ' ι κ α α' β β' : Type} {serve : σ → Option σ} {serve' : σ' → Option σ'}
  {W : σ → σ' → Prop}

/-- The results and final states are related by `Q`, and the requests one by one by `W`. -/
structure Lockstep (serve : σ → Option σ) (serve' : σ' → Option σ') (W : σ → σ' → Prop)
    (p : Prog σ ι κ α) (p' : Prog σ' ι κ α') (s : σ) (s' : σ') (Q : α → σ → α' → σ' → Prop) :
    Prop where
  exec : Option.Rel (fun r r' => Q r.1 r.2 r'.1 r'.2) (p.exec serve s) (p'.exec serve' s')
  issued : List.Forall₂ W (p.issued serve s) (p'.issued serve' s')

/-- What holds of the requests of one holds of those of the other, if `W` carries it over. -/
theorem forall_issued_iff {l : List σ} {l' : List σ'} (h : List.Forall₂ W l l') {P : σ → Prop}
    {P' : σ' → Prop} (hP : ∀ q q', W q q' → (P q ↔ P' q')) : (∀ q ∈ l, P q) ↔ ∀ q ∈ l', P' q := by
  induction h with
  | nil => exact iff_of_true nofun nofun
  | cons hW _ ih => rw [List.forall_mem_cons, List.forall_mem_cons, hP _ _ hW, ih]

section Rules

variable {s : σ} {s' : σ'} {Q : β → σ → β' → σ' → Prop}

theorem Lockstep.ret {a : β} {a' : β'} (h : Q a s a' s') :
    Lockstep serve serve' W (.ret a : Prog σ ι κ β) (.ret a') s s' Q :=
  ⟨Option.Rel.some h, List.Forall₂.nil⟩

theorem Lockstep.crash : Lockstep serve serve' W (.crash : Prog σ ι κ β) .crash s s' Q :=
  ⟨Option.Rel.none, List.Forall₂.nil⟩

theorem Lockstep.bind {p : Prog σ ι κ α} {p' : Prog σ' ι κ α'} {f : α → Prog σ ι κ β}
    {f' : α' → Prog σ' ι κ β'} {R : α → σ → α' → σ' → Prop} (h : Lockstep serve serve' W p p' s s' R)
    (hf : ∀ a t a' t', R a t a' t' → Lockstep serve serve' W (f a) (f' a') t t' Q) :
    Lockstep serve serve' W (p >>= f) (p' >>= f') s s' Q := by
  obtain ⟨hexec, hissued⟩ := h
  constructor
  · rw [exec_bind, exec_bind]
    generalize p.exec serve s = x at hexec ⊢
    generalize p'.exec serve' s' = x' at hexec ⊢
    cases hexec with
    | some hR => exact (hf _ _ _ _ hR).exec
    | none => exact Option.Rel.none
  · -- the requests of the first parts, and those of the rest if it is reached
    rw [issued_bind, issued_bind]
    refine List.rel_append hissued ?_
    generalize p.exec serve s = x at hexec ⊢
    generalize p'.exec serve' s' = x' at hexec ⊢
    cases hexec with
    | some hR => exact (hf _ _ _ _ hR).issued
    | none => exact List.Forall₂.nil

/-- Parts that run to their ends without a request hand on their results and states. -/
theorem Lockstep.bind_of_eq {p : Prog σ ι κ α} {p' : Prog σ' ι κ α'} {f : α → Prog σ ι κ β}
    {f' : α' → Prog σ' ι κ β'} {a : α} {a' : α'} {t : σ} {t' : σ'}
    (hp : p.exec serve s = some (a, t)) (hp' : p'.exec serve' s' = some (a', t'))
    (hq : p.issued serve s = []) (hq' : p'.issued serve' s' = [])
    (h : Lockstep serve serve' W (f a) (f' a') t t' Q) :
    Lockstep serve serve' W (p >>= f) (p' >>= f') s s' Q := by
  refine Lockstep.bind (R := fun b u b' u' => b = a ∧ u = t ∧ b' = a' ∧ u' = t') ⟨?_, ?_⟩ ?_
  · rw [hp, hp']
    exact Option.Rel.some ⟨rfl, rfl, rfl, rfl⟩
  · rw [hq, hq']
    exact List.Forall₂.nil
  · rintro _ _ _ _ ⟨rfl, rfl, rfl, rfl⟩
    exact h

theorem Lockstep.get_bind {f : σ → Prog σ ι κ β} {f' : σ' → Prog σ' ι κ β'}
    (h : Lockstep serve serve' W (f s) (f' s') s s' Q) :
    Lockstep serve serve' W (get >>= f) (get >>= f') s s' Q := bind_of_eq rfl rfl rfl rfl h

theorem Lockstep.modify_bind {u : σ → σ} {u' : σ' → σ'} {f : Unit → Prog σ ι κ β}
    {f' : Unit → Prog σ' ι κ β'} (h : Lockstep serve serve' W (f ()) (f' ()) (u s) (u' s') Q) :
    Lockstep serve serve' W (modify u >>= f) (modify u' >>= f') s s' Q := bind_of_eq rfl rfl rfl rfl h

theorem Lockstep.lock_bind {l : ι} {f : Unit → Prog σ ι κ β} {f' : Unit → Prog σ' ι κ β'}
    (h : Lockstep serve serve' W (f ()) (f' ()) s s' Q) :
    Lockstep serve serve' W (lock l >>= f) (lock l >>= f') s s' Q := bind_of_eq rfl rfl rfl rfl h

theorem Lockstep.unlock_bind {l : ι} {f : Unit → Prog σ ι κ β} {f' : Unit → Prog σ' ι κ β'}
    (h : Lockstep serve serve' W (f ()) (f' ()) s s' Q) :
    Lockstep serve serve' W (unlock l >>= f) (unlock l >>= f') s s' Q := bind_of_eq rfl rfl rfl rfl h

/-- A request of each, related by `W`. -/
theorem Lockstep.waitFor_bind {u : σ → σ} {u' : σ' → σ'} {c : κ} {f : Unit → Prog σ ι κ β}
    {f' : Unit → Prog σ' ι κ β'} {t : σ} {t' : σ'} (hserve : serve (u s) = some t)
    (hserve' : serve' (u' s') = some t') (hW : W (u s) (u' s'))
    (h : Lockstep serve serve' W (f ()) (f' ()) t t' Q) :
    Lockstep serve serve' W (waitFor u c >>= f) (waitFor u' c >>= f') s s' Q := by
  constructor
  · rw [exec_waitFor_bind hserve, exec_waitFor_bind hserve']
    exact h.exec
  · rw [issued_waitFor_bind hserve, issued_waitFor_bind hserve']
    exact List.Forall₂.cons hW h.issued

theorem Lockstep.assert_bind {c c' : Prop} [Decidable c] [Decidable c'] {f : Unit → Prog σ ι κ β}
    {f' : Unit → Prog σ' ι κ β'} (hc : c ↔ c')
    (h : c → Lockstep serve serve' W (f ()) (f' ()) s s' Q) :
    Lockstep serve serve' W (assert c >>= f) (assert c' >>= f') s s' Q := by
  unfold assert
  by_cases hif : c
  · rw [if_pos hif, if_pos (hc.mp hif)]
    exact h hif
  · rw [if_neg hif, if_neg (hc.not.mp hif)]
    exact Lockstep.crash

/-- What two programs in lockstep return, looked at through functions on which `Q` makes them agree. -/
theorem Lockstep.map_eq {γ : Type} {p : Prog σ ι κ β} {p' : Prog σ' ι κ β'}
    (h : Lockstep serve serve' W p p' s s' Q) {v : β → γ} {v' : β' → γ}
    (hv : ∀ a t a' t', Q a t a' t' → v a = v' a') :
    (p.exec serve s).map (fun r => v r.1) = (p'.exec serve' s').map fun r => v' r.1 := by
  obtain ⟨hexec, -⟩ := h
  generalize p.exec serve s = x at hexec ⊢
  generalize p'.exec serve' s' = x' at hexec ⊢
  cases hexec with
  | some hQ => exact congrArg some (hv _ _ _ _ hQ)
  | none => rfl

end Rules

/-- The requests of a zoomed program are those of the program, in the component. -/
theorem issued_zoom {τ : Type} (e : Lens σ τ) (serve : τ → Option τ) (p : Prog τ ι κ α) (s : σ) :
    (p.zoom e).issued (e.serve serve) s = (p.issued serve (e.view s)).map (e.put s) := by
  induction p generalizing s with
  | ret a => rfl
  | act u k ih =>
    refine (ih (e.view s) _).trans ?_
    rw [e.view_put]
    exact List.map_congr_left fun q _ => e.put_put ..
  | acquire l k ih => exact ih s
  | release l k ih => exact ih s
  | sleep u c k ih =>
    simp only [zoom, issued, Lens.serve, e.view_put, List.map_cons]
    cases serve (u (e.view s)) with
    | none => rfl
    | some t =>
      simp only [Option.map_some, ih, e.view_put, e.put_put]
      exact congrArg _ (List.map_congr_left fun q _ => e.put_put ..)
  | crash => rfl

/-- Programs of a component. -/
theorem Lockstep.zoom {τ : Type} (e : Lens σ τ) {serve serve' : τ → Option τ} {W : τ → τ → Prop}
    {p : Prog τ ι κ α} {p' : Prog τ ι κ α'} {s s' : σ} {P : α → α' → Prop} {R R' : τ → τ → Prop}
    (hs : e.Lift R s s')
    (h : Lockstep serve serve' W p p' (e.view s) (e.view s') fun a t a' t' => P a a' ∧ R' t t') :
    Lockstep (e.serve serve) (e.serve serve') (e.On W) (p.zoom e) (p'.zoom e) s s'
      fun a t a' t' => P a a' ∧ e.Lift R' t t' := by
  obtain ⟨hexec, hissued⟩ := h
  constructor
  · rw [exec_zoom, exec_zoom]
    generalize p.exec serve (e.view s) = x at hexec ⊢
    generalize p'.exec serve' (e.view s') = x' at hexec ⊢
    cases hexec with
    | none => exact Option.Rel.none
    | some hQ =>
      refine Option.Rel.some ⟨hQ.1, ?_, fun u => ?_⟩
      · rw [e.view_put, e.view_put]
        exact hQ.2
      · rw [e.put_put, e.put_put, hs.2]
  · rw [issued_zoom, issued_zoom, List.forall₂_map_left_iff, List.forall₂_map_right_iff]
    refine hissued.imp fun q q' hW => ?_
    unfold Lens.On
    rw [e.view_put, e.view_put]
    exact hW

/-- Devices that do the same with every request of a run give the same run. -/
theorem eq_of_issued {serve serve' : σ → Option σ} (p : Prog σ ι κ α) (s : σ)
    (h : ∀ q ∈ p.issued serve s, serve' q = serve q) :
    p.exec serve' s = p.exec serve s ∧ p.issued serve' s = p.issued serve s := by
  induction p generalizing s with
  | ret a => exact ⟨rfl, rfl⟩
  | act u k ih => exact ih s (u s) h
  | acquire l k ih => exact ih s h
  | release l k ih => exact ih s h
  | sleep u c k ih =>
    obtain ⟨hfirst, hrest⟩ := List.forall_mem_cons.mp h
    unfold issued
    rw [exec_sleep, exec_sleep, hfirst]
    cases hserve : serve (u s) with
    | none => exact ⟨rfl, rfl⟩
    | some s₁ =>
      rw [hserve] at hrest
      obtain ⟨hexec, hissued⟩ := ih s₁ hrest
      exact ⟨hexec, congrArg (u s :: ·) hissued⟩
  | crash => exact ⟨rfl, rfl⟩

theorem Lockstep.of_issued {serve serve' : σ → Option σ} {W : σ → σ → Prop} {p : Prog σ ι κ α} {s : σ}
    (hW : ∀ q, W q q) (h : ∀ q ∈ p.issued serve' s, serve q = serve' q) :
    Lockstep serve serve' W p p s s fun a t a' t' => a' = a ∧ t' = t := by
  obtain ⟨hexec, hissued⟩ := eq_of_issued p s h
  constructor
  · rw [hexec]
    cases p.exec serve' s with
    | none => exact Option.Rel.none
    | some r => exact Option.Rel.some ⟨rfl, rfl⟩
  · rw [hissued]
    exact List.forall₂_same.mpr fun q _ => hW q

end Prog

end Lib
