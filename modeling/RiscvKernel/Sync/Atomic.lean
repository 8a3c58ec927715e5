import RiscvKernel.Sync.Machine

/-!
# Atomicity of calls guarded by a sleep lock

When does a set of kernel calls behave as if each ran alone? The code may release and
re-take the guarding lock `L` many times and nest other locks; what matters is that it
never *sleeps* without `L`. A thread that has released `L` still has the processor and
takes the lock back before anybody else can run.

* **`History`** — a log of completed calls is a sequential history: run one after the
  other, each alone, the calls give the logged results, and each call finds the shared
  state as it was at some instant during the call.
* **`Serial`** — the invariant. Either nobody is inside a call, or one thread `t` is,
  it holds exactly the locks its code says, it has the processor unless it holds `L`,
  and finishing its code from the present state is finishing its call from the state
  the history has reached.
* **`Serial.step`** — one case per shape of a step.
* **`runs_atomic`** — the run theorem.
-/

namespace RiscvKernel

open Lib

namespace Machine

variable {σ ρ ι κ α Ω : Type}

/-! ## Program order -/

/-- The completed calls of thread `t`, in the order of the log. -/
def opsOf (log : List (Nat × Ω × α)) (t : Nat) : List Ω :=
  (log.filter fun e => e.1 = t).map fun e => e.2.1

/-- The call a thread is in, if any. -/
def pending : Mode σ ι κ α Ω → List Ω
  | .user => []
  | .kern o _ => [o]

/-- Each thread's calls are its completed ones, in the order of the log, and then the
one it is in. -/
def Ordered (m : Machine σ ρ ι κ α Ω) : Prop :=
  ∀ t, m.calls t = opsOf m.log t ++ pending (m.mode t)

theorem opsOf_snoc_self (log : List (Nat × Ω × α)) (t : Nat) (o : Ω) (a : α) :
    opsOf (log ++ [(t, o, a)]) t = opsOf log t ++ [o] := by
  simp [opsOf]

theorem opsOf_snoc_of_ne (log : List (Nat × Ω × α)) {t u : Nat} (h : u ≠ t) (o : Ω) (a : α) :
    opsOf (log ++ [(t, o, a)]) u = opsOf log u := by
  simp [opsOf, h.symm]

theorem Ordered.enter {sys : Sys σ ρ ι κ α Ω} {m : Machine σ ρ ι κ α Ω} (h : m.Ordered)
    {t : Nat} (o : Ω) (hmode : m.mode t = .user) : (m.enter sys t o).Ordered := by
  intro u
  have hu := h u
  unfold Machine.enter
  split
  · next p hc =>
    by_cases hut : u = t
    · subst hut
      simp [goOn, hu, hmode, pending]
    · simp [goOn, Function.update_of_ne hut, hu]
  · next f hc =>
    by_cases hut : u = t
    · subst hut
      simp [opsOf_snoc_self, hu, hmode, pending]
    · simp [opsOf_snoc_of_ne _ hut, Function.update_of_ne hut, hu]

/-- Going on inside the same call changes nothing that `Ordered` sees. -/
theorem Ordered.of_goOn {m m' : Machine σ ρ ι κ α Ω} (h : m.Ordered) {t : Nat} {o : Ω}
    {p p' : Prog σ ι κ α} (hmode : m.mode t = .kern o p)
    (hmode' : m'.mode = Function.update m.mode t (.kern o p'))
    (hcalls : m'.calls = m.calls) (hlog : m'.log = m.log) : m'.Ordered := by
  intro u
  rw [hcalls, hlog, hmode', h u]
  by_cases hut : u = t
  · subst hut
    simp [hmode, pending]
  · simp [Function.update_of_ne hut]

section
variable [DecidableEq ι] [DecidableEq κ]

theorem Ordered.exec {m m' : Machine σ ρ ι κ α Ω} (h : m.Ordered) {t : Nat} {o : Ω}
    {p : Prog σ ι κ α} (hmode : m.mode t = .kern o p) (hexec : m.exec t o p = some m') :
    m'.Ordered := by
  cases p with
  | ret a =>
    cases hexec
    intro u
    by_cases hut : u = t
    · subst hut
      simp [opsOf_snoc_self, h u, hmode, pending]
    · simp [opsOf_snoc_of_ne _ hut, Function.update_of_ne hut, h u]
  | act u k => cases hexec; exact h.of_goOn hmode rfl rfl rfl
  | acquire l k =>
    cases hexec
    unfold lockAcquire
    split
    · exact h
    · exact h.of_goOn hmode rfl rfl rfl
  | release l k =>
    simp only [Machine.exec, lockRelease] at hexec
    split at hexec
    · cases hexec; exact h.of_goOn hmode rfl rfl rfl
    · cases hexec
  | sleep u c k => cases hexec; exact h.of_goOn hmode rfl rfl rfl
  | crash => cases hexec

theorem Ordered.step {sys : Sys σ ρ ι κ α Ω} {m m' : Machine σ ρ ι κ α Ω} {e : Event Ω}
    (h : m.Ordered) (hstep : m.step sys e = some m') : m'.Ordered := by
  cases step_cases hstep with
  | enter t o hrun hmode => exact h.enter o hmode
  | exec t o p m' hrun hmode hexec => exact h.exec hmode hexec
  | preempt t hrun hmode => exact h
  | dispatch hrun => exact h
  | irq s hserve => exact h

end

/-! ## Sequential histories -/

/-- The calls of the log, run one after the other and each alone from `(s₀, r₀)`, return
what the log says and end in the given states. `Now done t o s` says that call `o` of
thread `t`, the next one after the calls `done`, could start in `s`; it is not asked of
code that is a bare return. -/
inductive History (sys : Sys σ ρ ι κ α Ω) (Now : List Ω → Nat → Ω → σ → Prop) (s₀ : σ) (r₀ : ρ) :
    List (Nat × Ω × α) → σ → ρ → Prop where
  | nil : History sys Now s₀ r₀ [] s₀ r₀
  | code {log : List (Nat × Ω × α)} {s s' : σ} {r : ρ} (t : Nat) {o : Ω} {a : α}
      {p : Prog σ ι κ α} (hrest : History sys Now s₀ r₀ log s r) (hcode : sys.code o = .inl p)
      (hnow : Now (opsOf log t) t o s) (hexec : p.exec sys.serve s = some (a, s')) :
      History sys Now s₀ r₀ (log ++ [(t, o, a)]) s' r
  | noop {log : List (Nat × Ω × α)} {s : σ} {r : ρ} (t : Nat) {o : Ω} {a : α}
      (hrest : History sys Now s₀ r₀ log s r) (hcode : sys.code o = .inl (.ret a)) :
      History sys Now s₀ r₀ (log ++ [(t, o, a)]) s r
  | aux {log : List (Nat × Ω × α)} {s : σ} {r : ρ} (t : Nat) {o : Ω} {f : ρ → α × ρ}
      (hrest : History sys Now s₀ r₀ log s r) (hcode : sys.code o = .inr f) :
      History sys Now s₀ r₀ (log ++ [(t, o, (f r).1)]) s (f r).2

/-! ## The invariant -/

variable [DecidableEq ι]

/-- No lock is held. -/
def noLocks : ι → Bool := fun _ => false

/-- Code that touches nothing before it holds `L`: it returns at once, or it begins by
acquiring `L` and keeps the lock discipline from there on. -/
def Entry (sys : Sys σ ρ ι κ α Ω) (L : ι) : Prog σ ι κ α → Prop
  | .ret _ => True
  | .acquire l k =>
    l = L ∧ k.Disciplined sys.serve sys.irq L (Function.update noLocks L true) noLocks
  | _ => False

/-- The code returns at once or acquires `L` at once. -/
def StartsWith (L : ι) : Prog σ ι κ α → Prop
  | .ret _ => True
  | .acquire l _ => l = L
  | _ => False

omit [DecidableEq ι] in
theorem StartsWith.bind {L : ι} {β : Type} {p : Prog σ ι κ α} {f : α → Prog σ ι κ β}
    (hp : StartsWith L p) (hf : ∀ a, StartsWith L (f a)) : StartsWith L (p >>= f) := by
  cases p with
  | ret a => exact hf a
  | acquire l k => exact hp
  | act => exact hp.elim
  | release => exact hp.elim
  | sleep => exact hp.elim
  | crash => exact hp.elim

theorem Entry.of_disciplined {sys : Sys σ ρ ι κ α Ω} {L : ι} {p : Prog σ ι κ α}
    (hstart : StartsWith L p)
    (hp : p.Disciplined sys.serve sys.irq L noLocks noLocks) : Entry sys L p := by
  cases p with
  | ret a => trivial
  | acquire l k =>
    cases hstart
    exact ⟨rfl, hp.2⟩
  | act => exact hstart.elim
  | release => exact hstart.elim
  | sleep => exact hstart.elim
  | crash => exact hstart.elim

/-- A thread that is not inside a call, or that stands at the beginning of one. -/
def Outside (sys : Sys σ ρ ι κ α Ω) (L : ι) : Mode σ ι κ α Ω → Prop
  | .user => True
  | .kern o p => sys.code o = .inl p ∧ Entry sys L p

/-- Thread `t`, inside a call, can go on: the device is quiet, finishing `p` here is
finishing the call `c` from `s`, and `t` has the processor unless it holds `L`. -/
structure Awake (sys : Sys σ ρ ι κ α Ω) (L : ι) (m : Machine σ ρ ι κ α Ω) (t : Nat)
    (p c : Prog σ ι κ α) (s : σ) (h : ι → Bool) : Prop where
  quiet : sys.serve m.sh = none
  same : p.exec sys.serve m.sh = c.exec sys.serve s
  has_cpu : m.q.running = some t ∨ h L = true ∧ t ∈ m.q.ready

/-- Thread `t` waits for the device and holds `L`; once the device has answered,
finishing `p` is finishing the call `c` from `s`. -/
structure Asleep (sys : Sys σ ρ ι κ α Ω) (L : ι) (m : Machine σ ρ ι κ α Ω) (t : Nat)
    (p c : Prog σ ι κ α) (s : σ) (h : ι → Bool) : Prop where
  holds : h L = true
  waits : t ∈ m.q.waiting (.dev sys.irq)
  same : ∀ s', sys.serve m.sh = some s' →
    sys.serve s' = none ∧ p.exec sys.serve s' = c.exec sys.serve s

/-- Thread `t` is inside call `o`, with `p` left to run and the locks `h` held; `s` is
the state the completed calls have led to. -/
structure Busy (sys : Sys σ ρ ι κ α Ω) (L : ι) (m : Machine σ ρ ι κ α Ω) (t : Nat) (o : Ω)
    (p c : Prog σ ι κ α) (s : σ) (h : ι → Bool) : Prop where
  mode : m.mode t = .kern o p
  code : sys.code o = .inl c
  held : ∀ l, m.tid l = if h l then (t : Int) else -1
  disciplined : p.Disciplined sys.serve sys.irq L h noLocks
  phase : Awake sys L m t p c s h ∨ Asleep sys L m t p c s h

/-- Nobody is inside a call. -/
structure Idle (sys : Sys σ ρ ι κ α Ω) (m : Machine σ ρ ι κ α Ω) : Prop where
  free : ∀ l, m.tid l = -1
  quiet : sys.serve m.sh = none

/-- At most one thread is inside a call, and the completed calls are a sequential
history from `(s₀, r₀)`. -/
inductive Serial (sys : Sys σ ρ ι κ α Ω) (L : ι) (Now : List Ω → Nat → Ω → σ → Prop) (s₀ : σ)
    (r₀ : ρ) (m : Machine σ ρ ι κ α Ω) : Prop where
  | idle (hidle : Idle sys m) (hout : ∀ u, Outside sys L (m.mode u))
      (hrep : History sys Now s₀ r₀ m.log m.sh m.aux)
  | busy (t : Nat) (o : Ω) (p c : Prog σ ι κ α) (s : σ) (h : ι → Bool)
      (hbusy : Busy sys L m t o p c s h) (hout : ∀ u, u ≠ t → Outside sys L (m.mode u))
      (hnow : Now (opsOf m.log t) t o s) (hrep : History sys Now s₀ r₀ m.log s m.aux)

/-! ## Steps of the other threads -/

section
variable {sys : Sys σ ρ ι κ α Ω} {L : ι} {m m' : Machine σ ρ ι κ α Ω} {t : Nat} {o : Ω}
  {p c : Prog σ ι κ α} {s s₀ : σ} {r₀ : ρ} {h : ι → Bool}
  {Now : List Ω → Nat → Ω → σ → Prop}

/-- While somebody else runs, the thread inside a call holds `L`. -/
theorem Busy.holds_of_running (hb : Busy sys L m t o p c s h) {u : Nat} (hut : u ≠ t)
    (hrun : m.q.running = some u) : h L = true := by
  rcases hb.phase with haw | has
  · rcases haw.has_cpu with hrun' | ⟨hL, -⟩
    · rw [hrun, Option.some.injEq] at hrun'
      exact absurd hrun' hut
    · exact hL
  · exact has.holds

/-- A step that leaves `t`, the locks and the shared state alone, and does not take `t`
off its queue, leaves `t` inside its call. -/
theorem Busy.frame (hb : Busy sys L m t o p c s h) (hmode : m'.mode t = m.mode t)
    (htid : m'.tid = m.tid) (hsh : m'.sh = m.sh)
    (hrun : m.q.running = some t → m'.q.running = some t)
    (hready : t ∈ m.q.ready → m'.q.running = some t ∨ t ∈ m'.q.ready)
    (hwait : t ∈ m.q.waiting (.dev sys.irq) → t ∈ m'.q.waiting (.dev sys.irq)) :
    Busy sys L m' t o p c s h := by
  refine ⟨by rw [hmode, hb.mode], hb.code, by rw [htid]; exact hb.held, hb.disciplined, ?_⟩
  rcases hb.phase with haw | has
  · left
    refine ⟨by rw [hsh]; exact haw.quiet, by rw [hsh]; exact haw.same, ?_⟩
    rcases haw.has_cpu with hr | ⟨hL, hr⟩
    · exact Or.inl (hrun hr)
    · exact (hready hr).imp id fun hr' => ⟨hL, hr'⟩
  · right
    exact ⟨has.holds, hwait has.waits, by rw [hsh]; exact has.same⟩

theorem outside_update {mode : Nat → Mode σ ι κ α Ω} {u v : Nat} {x : Mode σ ι κ α Ω}
    (hx : Outside sys L x) (hv : v ≠ u → Outside sys L (mode v)) :
    Outside sys L (Function.update mode u x v) := by
  by_cases hvu : v = u
  · subst hvu
    simpa using hx
  · rw [Function.update_of_ne hvu]
    exact hv hvu

theorem outside_update_of_ne {mode : Nat → Mode σ ι κ α Ω} {u v : Nat} (hv : v ≠ u)
    (x : Mode σ ι κ α Ω) (h : Outside sys L (mode v)) :
    Outside sys L (Function.update mode u x v) := by
  rw [Function.update_of_ne hv]
  exact h

/-- What may be called: code that begins by acquiring `L`, or, while `L` is free and
`pre` holds, any code that keeps the lock discipline. -/
def CallOk (sys : Sys σ ρ ι κ α Ω) (L : ι) (pre : Ω → σ → Prop) (m : Machine σ ρ ι κ α Ω) :
    Event Ω → Prop
  | .call o => ∀ p, sys.code o = .inl p → Entry sys L p ∨
      m.tid L = -1 ∧ p.Disciplined sys.serve sys.irq L noLocks noLocks ∧ pre o m.sh
  | _ => True

theorem Serial.enter (hs : Serial sys L Now s₀ r₀ m) {u : Nat} {o' : Ω}
    {pre : Ω → σ → Prop} (hrun : m.q.running = some u) (hmode : m.mode u = .user)
    (hok : CallOk sys L pre m (.call o'))
    (hnew : ∀ p, sys.code o' = .inl p → pre o' m.sh → Now (opsOf m.log u) u o' m.sh) :
    Serial sys L Now s₀ r₀ (m.enter sys u o') := by
  have hne : ∀ {t o p c s h}, Busy sys L m t o p c s h → t ≠ u := by
    rintro t o p c s h hb rfl
    rw [hb.mode] at hmode
    cases hmode
  unfold Machine.enter
  cases hc : sys.code o' with
  | inl p' =>
    rcases hok p' hc with hentry | ⟨hfree, hdisc, hpre⟩
    · -- the thread stands at the beginning of its call: it is still outside
      have hout' : Outside sys L (.kern o' p') := ⟨hc, hentry⟩
      cases hs with
      | idle hidle hout hrep =>
        exact .idle ⟨hidle.free, hidle.quiet⟩
          (fun v => outside_update hout' fun _ => hout v) hrep
      | busy t o p c s h hb hout hnow hrep =>
        exact .busy t o p c s h
          (hb.frame (Function.update_of_ne (hne hb) _ _) rfl rfl id Or.inr id)
          (fun v hv => outside_update hout' fun _ => hout v hv) hnow hrep
    · -- the lock is free, so nobody is inside a call: the thread is from now on
      cases hs with
      | idle hidle hout hrep =>
        refine .busy u o' p' p' m.sh noLocks
          ⟨by simp [goOn], hc, by simpa [goOn, noLocks] using hidle.free, hdisc,
            Or.inl ⟨hidle.quiet, rfl, Or.inl hrun⟩⟩ (fun v hv => ?_)
          (hnew p' hc hpre) hrep
        exact outside_update_of_ne hv _ (hout v)
      | busy t o p c s h hb hout hnow hrep =>
        have htid := hb.held L
        rw [hb.holds_of_running (hne hb).symm hrun, hfree] at htid
        simp only [↓reduceIte] at htid
        omega
  | inr f =>
    cases hs with
    | idle hidle hout hrep => exact .idle ⟨hidle.free, hidle.quiet⟩ hout (.aux u hrep hc)
    | busy t o p c s h hb hout hnow hrep =>
      refine .busy t o p c s h (hb.frame rfl rfl rfl id Or.inr id) hout ?_ (.aux u hrep hc)
      rw [opsOf_snoc_of_ne _ (hne hb)]
      exact hnow

/-! ## Steps of the thread inside a call -/

variable [DecidableEq κ]

/-- A thread outside takes `L`, which nobody holds: it is now inside. -/
theorem Serial.enter_lock (hidle : Idle sys m) (hout : ∀ u, Outside sys L (m.mode u))
    (hrep : History sys Now s₀ r₀ m.log m.sh m.aux) (hrun : m.q.running = some t)
    {k : Prog σ ι κ α} (hnow : Now (opsOf m.log t) t o m.sh)
    (hcode : sys.code o = .inl (.acquire L k))
    (hdisc : k.Disciplined sys.serve sys.irq L (Function.update noLocks L true) noLocks) :
    Serial sys L Now s₀ r₀ (m.lockAcquire t o L k) := by
  have hfree : ¬ m.tid L ≠ -1 := not_not.mpr (hidle.free L)
  rw [lockAcquire, if_neg hfree]
  refine .busy t o k (.acquire L k) m.sh (Function.update noLocks L true)
    ⟨by simp [goOn], hcode, fun l => ?_, hdisc, Or.inl ⟨hidle.quiet, rfl, Or.inl hrun⟩⟩
    (fun v hv => ?_) hnow hrep
  · by_cases hl : l = L
    · subst hl
      simp
    · simp [Function.update_of_ne hl, noLocks, hidle.free l]
  · exact outside_update_of_ne hv _ (hout v)

/-- The thread inside a call does one step of its code. -/
theorem Busy.exec (hb : Busy sys L m t o p c s h) (hwf : m.q.Wf)
    (honce : ∀ s s', sys.serve s = some s' → sys.serve s' = none)
    (hout : ∀ u, u ≠ t → Outside sys L (m.mode u))
    (hnow : Now (opsOf m.log t) t o s) (hrep : History sys Now s₀ r₀ m.log s m.aux)
    (hrun : m.q.running = some t) (hexec : m.exec t o p = some m') :
    Serial sys L Now s₀ r₀ m' := by
  -- a running thread is not on a wait list, so it is awake
  have haw : Awake sys L m t p c s h := by
    rcases hb.phase with haw | has
    · exact haw
    · exact absurd has.waits (hwf.running_waiting t _ hrun)
  have hother : ∀ x, ∀ u, u ≠ t → Outside sys L (Function.update m.mode t x u) :=
    fun x u hu => outside_update_of_ne hu x (hout u hu)
  have hdisc := hb.disciplined
  have hsame := haw.same
  cases p with
  | ret a =>
    cases hexec
    cases hdisc
    refine .idle ⟨by simpa [noLocks] using hb.held, haw.quiet⟩
      (fun u => outside_update trivial (hout u)) ?_
    exact .code t hrep hb.code hnow hsame.symm
  | act u k =>
    cases hexec
    exact .busy t o (k m.sh) c s h
      ⟨by simp [goOn], hb.code, hb.held, hdisc.2 m.sh,
        Or.inl ⟨hdisc.1 m.sh haw.quiet, hsame, Or.inl hrun⟩⟩ (hother _) hnow hrep
  | acquire l k =>
    have hfree : ¬ m.tid l ≠ -1 := by
      rw [hb.held l, hdisc.1]
      simp
    simp only [Machine.exec, lockAcquire, if_neg hfree, Option.some.injEq] at hexec
    subst hexec
    refine .busy t o k c s (Function.update h l true)
      ⟨by simp [goOn], hb.code, fun l' => ?_, hdisc.2,
        Or.inl ⟨haw.quiet, hsame, Or.inl hrun⟩⟩ (hother _) hnow hrep
    by_cases hl : l' = l
    · subst hl
      simp
    · simpa [Function.update_of_ne hl] using hb.held l'
  | release l k =>
    have hheld : m.tid l = t := by
      rw [hb.held l, hdisc.1]
      simp
    simp only [Machine.exec, lockRelease, if_pos hheld, Option.some.injEq] at hexec
    subst hexec
    refine .busy t o k c s (Function.update h l false)
      ⟨by simp [goOn], hb.code, fun l' => ?_, hdisc.2,
        Or.inl ⟨haw.quiet, hsame, Or.inl hrun⟩⟩ (hother _) hnow hrep
    by_cases hl : l' = l
    · subst hl
      simp
    · simpa [Function.update_of_ne hl] using hb.held l'
  | sleep u d k =>
    obtain ⟨hL, rfl, hk⟩ := hdisc
    cases hexec
    refine .busy t o k c s h
      ⟨by simp [goOn], hb.code, hb.held, hk, Or.inr ⟨hL, by simp, fun s' hs' => ?_⟩⟩ (hother _) hnow hrep
    refine ⟨honce _ _ hs', ?_⟩
    rw [← hsame, Prog.exec_sleep]
    simp only at hs'
    rw [hs', Option.bind_some]
  | crash => cases hexec

/-- A step of a thread's code keeps the history sequential. -/
theorem Serial.exec (hs : Serial sys L Now s₀ r₀ m) (hwf : m.q.Wf)
    (honce : ∀ s s', sys.serve s = some s' → sys.serve s' = none)
    {u : Nat} {o' : Ω} {p' : Prog σ ι κ α}
    (hnew : ∀ t o p, m.mode t = .kern o p → sys.code o = .inl p → Entry sys L p →
      Now (opsOf m.log t) t o m.sh)
    (hrun : m.q.running = some u)
    (hmode : m.mode u = .kern o' p') (hexec : m.exec u o' p' = some m') :
    Serial sys L Now s₀ r₀ m' := by
  cases hs with
  | idle hidle hout hrep =>
    have hu := hout u
    rw [hmode] at hu
    obtain ⟨hcode, hentry⟩ := hu
    cases p' with
    | ret a =>
      cases hexec
      exact .idle ⟨hidle.free, hidle.quiet⟩
        (fun v => outside_update trivial fun _ => hout v) (.noop u hrep hcode)
    | acquire l k =>
      obtain ⟨rfl, hdisc⟩ := hentry
      cases hexec
      exact Serial.enter_lock hidle hout hrep hrun (hnew u o' _ hmode hcode ⟨rfl, hdisc⟩) hcode hdisc
    | act => exact hentry.elim
    | release => exact hentry.elim
    | sleep => exact hentry.elim
    | crash => exact hentry.elim
  | busy t o p c s h hb hout hnow hrep =>
    by_cases hut : u = t
    · subst hut
      rw [hb.mode] at hmode
      cases hmode
      exact hb.exec hwf honce hout hnow hrep hrun hexec
    · -- somebody else runs, so `t` holds `L` and the other thread gets no further
      have hu := hout u hut
      rw [hmode] at hu
      obtain ⟨hcode, hentry⟩ := hu
      have hnot : m.q.running ≠ some t := by
        rw [hrun]
        simpa using hut
      cases p' with
      | ret a =>
        cases hexec
        refine .busy t o p c s h
          (hb.frame (Function.update_of_ne (Ne.symm hut) _ _) rfl rfl id Or.inr id)
          (fun v hv => outside_update trivial fun _ => hout v hv) ?_ (.noop u hrep hcode)
        rw [opsOf_snoc_of_ne _ (Ne.symm hut)]
        exact hnow
      | acquire l k =>
        obtain ⟨rfl, hdisc⟩ := hentry
        cases hexec
        have hbusy : m.tid l ≠ -1 := by
          rw [hb.held l, hb.holds_of_running hut hrun]
          simp only [↓reduceIte]
          omega
        rw [lockAcquire, if_pos hbusy]
        refine .busy t o p c s h (hb.frame rfl rfl rfl (fun hr => absurd hr hnot) ?_ ?_) hout
          hnow hrep
        · exact m.q.mem_ready_block _ u
        · simp
      | act => exact hentry.elim
      | release => exact hentry.elim
      | sleep => exact hentry.elim
      | crash => exact hentry.elim

/-- **One step.** Calls that begin by acquiring `L`, or begin while `L` is free, keep
the history sequential through every step of the machine. -/
theorem Serial.step (hs : Serial sys L Now s₀ r₀ m) (hwf : m.q.Wf)
    (honce : ∀ s s', sys.serve s = some s' → sys.serve s' = none) {e : Event Ω}
    {pre : Ω → σ → Prop}
    (hcall : ∀ t o p, m' = m.enter sys t o → sys.code o = .inl p → pre o m.sh →
      Now (opsOf m.log t) t o m.sh)
    (hnew : ∀ t o p, m.mode t = .kern o p → sys.code o = .inl p → Entry sys L p →
      Now (opsOf m.log t) t o m.sh)
    (hok : CallOk sys L pre m e) (hstep : m.step sys e = some m') :
    Serial sys L Now s₀ r₀ m' := by
  cases step_cases hstep with
  | enter u o' hrun hmode => exact hs.enter hrun hmode hok fun p => hcall u o' p rfl
  | exec u o' p' m' hrun hmode hexec => exact hs.exec hwf honce hnew hrun hmode hexec
  | preempt u hrun hmode =>
    cases hs with
    | idle hidle hout hrep => exact .idle ⟨hidle.free, hidle.quiet⟩ hout hrep
    | busy t o p c s h hb hout hnow hrep =>
      have hnot : m.q.running ≠ some t := by
        rw [hrun]
        rintro ⟨⟩
        rw [hb.mode] at hmode
        cases hmode
      refine .busy t o p c s h (hb.frame rfl rfl rfl (fun hr => absurd hr hnot) ?_ ?_) hout
          hnow hrep
      · exact m.q.mem_ready_yield u
      · simp
  | dispatch hrun =>
    cases hs with
    | idle hidle hout hrep => exact .idle ⟨hidle.free, hidle.quiet⟩ hout hrep
    | busy t o p c s h hb hout hnow hrep =>
      have hnot : m.q.running ≠ some t := by simp [hrun]
      refine .busy t o p c s h (hb.frame rfl rfl rfl (fun hr => absurd hr hnot) ?_ ?_) hout
          hnow hrep
      · exact m.q.mem_ready_dispatch
      · simp
  | irq s' hserve =>
    cases hs with
    | idle hidle hout hrep =>
      rw [hidle.quiet] at hserve
      cases hserve
    | busy t o p c s h hb hout hnow hrep =>
      rcases hb.phase with haw | has
      · rw [haw.quiet] at hserve
        cases hserve
      · obtain ⟨hquiet, hsame⟩ := has.same s' hserve
        refine .busy t o p c s h
          ⟨hb.mode, hb.code, hb.held, hb.disciplined, Or.inl ⟨hquiet, hsame, Or.inr ?_⟩⟩ hout
          hnow hrep
        exact ⟨has.holds, List.mem_append_right _ has.waits⟩

/-! ## Runs -/

/-- A machine on which nothing has been called yet. -/
structure Fresh (sys : Sys σ ρ ι κ α Ω) (m : Machine σ ρ ι κ α Ω) : Prop where
  wf : m.q.Wf
  free : ∀ l, m.tid l = -1
  quiet : sys.serve m.sh = none
  user : ∀ t, m.mode t = .user
  calls : ∀ t, m.calls t = []
  log : m.log = []

omit [DecidableEq κ] in
theorem Fresh.serial (hm : Fresh sys m) (L : ι) : Serial sys L Now m.sh m.aux m := by
  refine .idle ⟨hm.free, hm.quiet⟩ (fun u => ?_) ?_
  · rw [hm.user u]
    trivial
  · rw [hm.log]
    exact .nil

omit [DecidableEq ι] [DecidableEq κ] in
theorem Fresh.ordered (hm : Fresh sys m) : m.Ordered := by
  intro t
  simp [hm.calls t, hm.log, hm.user t, opsOf, pending]

/-- At some instant of the run `es` from `m₀`, after thread `t` had completed the calls
`done` and while it was inside call `o` or just entering it, the shared state was `s`. -/
def During (sys : Sys σ ρ ι κ α Ω) (m₀ : Machine σ ρ ι κ α Ω) (es : List (Event Ω))
    (done : List Ω) (t : Nat) (o : Ω) (s : σ) : Prop :=
  ∃ m, Visited sys m₀ es m ∧ opsOf m.log t = done ∧ (∃ p, m.mode t = .kern o p) ∧ m.sh = s

/-- Call `o` of thread `t` starts in a state that was the actual one at some instant
during the call, and in which `pre` holds unless the call begins by acquiring `L`. -/
def StartsIn (sys : Sys σ ρ ι κ α Ω) (L : ι) (pre : Ω → σ → Prop) (m₀ : Machine σ ρ ι κ α Ω)
    (es : List (Event Ω)) (done : List Ω) (t : Nat) (o : Ω) (s : σ) : Prop :=
  During sys m₀ es done t o s ∧ ∀ p, sys.code o = .inl p → Entry sys L p ∨ pre o s

/-- The completed calls of the run `es` from `m₀` to `m` are a sequential history that
agrees with each thread's own order, with every call starting at some instant between
its entry and its return. When no call is in progress, the history has led to the
present state. -/
structure Linear (sys : Sys σ ρ ι κ α Ω) (L : ι) (pre : Ω → σ → Prop)
    (m₀ : Machine σ ρ ι κ α Ω) (es : List (Event Ω)) (m : Machine σ ρ ι κ α Ω) : Prop where
  ordered : m.Ordered
  history : ∃ s, History sys (StartsIn sys L pre m₀ es) m₀.sh m₀.aux m.log s m.aux ∧
    ((∀ t, m.mode t = .user) → s = m.sh)

/-- **Atomicity.** In every run from a fresh machine whose calls begin by acquiring `L`,
or begin while `L` is free, the completed calls are a sequential history. -/
theorem runs_atomic (hm : Fresh sys m)
    (honce : ∀ s s', sys.serve s = some s' → sys.serve s' = none) {pre : Ω → σ → Prop}
    {es : List (Event Ω)} (hok : Along sys (CallOk sys L pre) m es)
    (hrun : m.runs sys es = some m') : Linear sys L pre m es m' := by
  have hinv : m'.q.Wf ∧ m'.Ordered ∧
      Serial sys L (StartsIn sys L pre m es) m.sh m.aux m' := by
    refine runs_invariant_visited (fun m' => m'.q.Wf ∧ m'.Ordered ∧
      Serial sys L (StartsIn sys L pre m es) m.sh m.aux m') ?_
      ⟨hm.wf, hm.ordered, hm.serial L⟩ hok hrun
    rintro m₁ e m₂ ⟨hwf, hord, hser⟩ hV hV' hcallok hstep
    refine ⟨wf_step hwf hstep, hord.step hstep,
      hser.step hwf honce (fun t o p he hc hpre => ?_) (fun t o p hmode hc hentry => ?_) hcallok
        hstep⟩
    · -- the call is entered with `L` free: the instant is right after it
      refine ⟨⟨m₂, hV', ?_⟩, fun _ _ => Or.inr hpre⟩
      subst he
      simp [Machine.enter, hc, goOn]
    · -- the call begins by acquiring `L`: the instant is right before it does
      refine ⟨⟨m₁, hV, rfl, ⟨p, hmode⟩, rfl⟩, fun p' hp' => Or.inl ?_⟩
      rw [hc] at hp'
      cases hp'
      exact hentry
  refine ⟨hinv.2.1, ?_⟩
  cases hinv.2.2 with
  | idle hidle hout hrep => exact ⟨m'.sh, hrep, fun _ => rfl⟩
  | busy t o p c s h hb hout hnow hrep =>
    refine ⟨s, hrep, fun huser => ?_⟩
    have hmode := hb.mode
    rw [huser t] at hmode
    cases hmode

end

end Machine

end RiscvKernel
