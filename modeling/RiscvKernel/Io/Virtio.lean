import RiscvKernel.Io.Intf

/-!
# Negotiating features

`virtio_negotiate_features` of `virtio.c`, and how `vioblk_attach` calls it. The features of a
device are 128 bits, which are read and written through a register of 32 bits and a selector.

The function checks that the device offers what the driver needs, and then requests what the driver
wants. It relies on its caller for "which should be a superset of the required ones"; and it
writes only the words in which something is wanted, in the registers as well as in the set that it
returns.

* `virtioNegotiateFeatures_cases`: what the function does.
* `negotiates_iff`: when it grants what is needed, for any two sets.
* `vioblk_negotiation_iff`: for the sets of `vioblk_attach`.
-/

namespace RiscvKernel

namespace Virtio

/-! ## Sets of features -/

/-- `VIRTIO_FEATLEN` -/
abbrev FEATLEN : Nat := 4

/-- `virtio_featset_t` -/
abbrev FeatSet := Fin FEATLEN → BitVec 32

/-- `virtio_featset_init` -/
def featsetInit : FeatSet := fun _ => 0

/-- `virtio_featset_add` -/
def featsetAdd (fts : FeatSet) (k : Nat) (hk : k / 32 < FEATLEN) : FeatSet :=
  Function.update fts ⟨k / 32, hk⟩ (fts ⟨k / 32, hk⟩ ||| (1 <<< (k % 32)))

/-- Every feature of `x` is one of `y`. -/
def Within (x y : BitVec 32) : Prop := y &&& x = x

instance (x y : BitVec 32) : Decidable (Within x y) := inferInstanceAs (Decidable (_ = _))

theorem within_zero (y : BitVec 32) : Within 0 y := BitVec.and_zero

theorem and_within (x y : BitVec 32) : Within (x &&& y) x := by
  unfold Within
  rw [← BitVec.and_assoc, BitVec.and_self]

/-- What is offered and needed is granted if it is requested. -/
theorem within_and_iff {offered wanted needed : BitVec 32} (h : Within needed offered) :
    Within needed (offered &&& wanted) ↔ Within needed wanted := by
  unfold Within at *
  rw [BitVec.and_comm offered, BitVec.and_assoc, h]

/-! ## The registers -/

/-- The registers that negotiation uses. `offered` and `driver` are what stands behind
`device_features` and `driver_features`, by selector. -/
structure Regs where
  offered : FeatSet
  driver : FeatSet
  deviceFeaturesSel : Fin FEATLEN
  driverFeaturesSel : Fin FEATLEN
  featuresOk : Bool

namespace Regs

def deviceFeatures (r : Regs) : BitVec 32 := r.offered r.deviceFeaturesSel

def writeDriverFeatures (r : Regs) (v : BitVec 32) : Regs :=
  { r with driver := Function.update r.driver r.driverFeaturesSel v }

end Regs

/-- The first loop: the features that are needed are offered. -/
def checkNeeded (needed : FeatSet) : List (Fin FEATLEN) → Regs → Bool × Regs
  | [], r => (true, r)
  | i :: is, r =>
    if needed i ≠ 0 then
      let r := { r with deviceFeaturesSel := i }
      if r.deviceFeatures &&& needed i ≠ needed i then (false, r) else checkNeeded needed is r
    else checkNeeded needed is r

/-- The second loop: the features that are wanted are requested. -/
def requestWanted (wanted : FeatSet) : List (Fin FEATLEN) → FeatSet × Regs → FeatSet × Regs
  | [], s => s
  | i :: is, (enabled, r) =>
    if wanted i ≠ 0 then
      let r := { r with deviceFeaturesSel := i, driverFeaturesSel := i }
      let enabled := Function.update enabled i (r.deviceFeatures &&& wanted i)
      requestWanted wanted is (enabled, r.writeDriverFeatures (enabled i))
    else requestWanted wanted is (enabled, r)

/-- `virtio_negotiate_features`; `none` is the failed assertion. `accepts` is whether the device
keeps `VIRTIO_STAT_FEATURES_OK` for these features, and `enabled` holds whatever the caller's
variable does. -/
def virtioNegotiateFeatures (accepts : FeatSet → Bool) (enabled wanted needed : FeatSet) (r : Regs) :
    Option (Int × FeatSet × Regs) :=
  let (ok, r) := checkNeeded needed (List.finRange FEATLEN) r
  if !ok then some (-ENOTSUP, enabled, r)
  else
    let (enabled, r) := requestWanted wanted (List.finRange FEATLEN) (enabled, r)
    if accepts r.driver then some (0, enabled, { r with featuresOk := true }) else none

/-! ## What the loops do -/

/-- What a word is after the request: unchanged if nothing is wanted in it. -/
def requested (offered wanted old : FeatSet) : FeatSet := fun i =>
  if wanted i ≠ 0 then offered i &&& wanted i else old i

theorem checkNeeded_fst (needed : FeatSet) (is : List (Fin FEATLEN)) (r : Regs) :
    (checkNeeded needed is r).1 = true ↔ ∀ i ∈ is, Within (needed i) (r.offered i) := by
  induction is generalizing r with
  | nil => simp [checkNeeded]
  | cons i is ih =>
    rw [List.forall_mem_cons]
    unfold checkNeeded
    by_cases hneeded : needed i = 0
    · rw [if_neg (not_not.mpr hneeded), ih, hneeded]
      exact ⟨fun h => ⟨within_zero _, h⟩, fun h => h.2⟩
    · rw [if_pos hneeded]
      show (if r.offered i &&& needed i ≠ needed i then (false, _) else checkNeeded needed is _).1
        = true ↔ _
      by_cases hoffered : Within (needed i) (r.offered i)
      · have hmask : r.offered i &&& needed i = needed i := hoffered
        rw [if_neg (not_not.mpr hmask), ih]
        exact ⟨fun h => ⟨hoffered, h⟩, fun h => h.2⟩
      · have hmask : r.offered i &&& needed i ≠ needed i := hoffered
        rw [if_pos hmask]
        exact iff_of_false Bool.false_ne_true fun h => hoffered h.1

/-- The check moves a selector only. -/
theorem checkNeeded_snd (needed : FeatSet) (is : List (Fin FEATLEN)) (r : Regs) :
    (checkNeeded needed is r).2.offered = r.offered ∧
      (checkNeeded needed is r).2.driver = r.driver := by
  induction is generalizing r with
  | nil => exact ⟨rfl, rfl⟩
  | cons i is ih =>
    unfold checkNeeded
    split
    · dsimp only
      split
      · exact ⟨rfl, rfl⟩
      · exact ih _
    · exact ih r

/-- One round writes the word `j`, and the rounds that follow leave it alone. -/
theorem requested_step (offered wanted old : FeatSet) {j : Fin FEATLEN} {is : List (Fin FEATLEN)}
    (hj : j ∉ is) (i : Fin FEATLEN) :
    (if i ∈ is then
        requested offered wanted (Function.update old j (requested offered wanted old j)) i
      else Function.update old j (requested offered wanted old j) i) =
    if i ∈ j :: is then requested offered wanted old i else old i := by
  by_cases hij : i = j
  · subst hij
    rw [if_neg hj, if_pos List.mem_cons_self, Function.update_self]
  · have hmem : i ∈ j :: is ↔ i ∈ is := by simp [hij]
    simp only [hmem, requested, Function.update_of_ne hij]

theorem requestWanted_eq (wanted : FeatSet) {is : List (Fin FEATLEN)} (hnodup : is.Nodup)
    (enabled : FeatSet) (r : Regs) :
    (requestWanted wanted is (enabled, r)).2.offered = r.offered ∧
      (∀ i, (requestWanted wanted is (enabled, r)).1 i =
        if i ∈ is then requested r.offered wanted enabled i else enabled i) ∧
      ∀ i, (requestWanted wanted is (enabled, r)).2.driver i =
        if i ∈ is then requested r.offered wanted r.driver i else r.driver i := by
  induction is generalizing enabled r with
  | nil => exact ⟨rfl, fun i => by simp [requestWanted], fun i => by simp [requestWanted]⟩
  | cons j is ih =>
    obtain ⟨hj, hnodup⟩ := List.nodup_cons.mp hnodup
    -- both words become the requested one; where nothing is wanted that is no change
    have hsteps := fun old => requested_step r.offered wanted old hj
    by_cases hwanted : wanted j = 0
    · have hsame : ∀ old : FeatSet,
          Function.update old j (requested r.offered wanted old j) = old := fun old => by
        simp [requested, hwanted]
      simp only [hsame] at hsteps
      unfold requestWanted
      rw [if_neg (not_not.mpr hwanted)]
      obtain ⟨hoffered, henabled, hdriver⟩ := ih hnodup enabled r
      exact ⟨hoffered, fun i => (henabled i).trans (hsteps enabled i),
        fun i => (hdriver i).trans (hsteps r.driver i)⟩
    · have hword : ∀ old : FeatSet,
          requested r.offered wanted old j = r.offered j &&& wanted j := fun old => if_pos hwanted
      simp only [hword] at hsteps
      unfold requestWanted
      rw [if_pos hwanted]
      dsimp only [Regs.deviceFeatures, Regs.writeDriverFeatures]
      rw [Function.update_self]
      obtain ⟨hoffered, henabled, hdriver⟩ := ih hnodup
        (Function.update enabled j (r.offered j &&& wanted j))
        { r with
          driver := Function.update r.driver j (r.offered j &&& wanted j)
          deviceFeaturesSel := j, driverFeaturesSel := j }
      exact ⟨hoffered, fun i => (henabled i).trans (hsteps enabled i),
        fun i => (hdriver i).trans (hsteps r.driver i)⟩

/-- What the function does: a set that is needed and not offered is an error; else the wanted words
are requested and the device is asked whether it accepts them. -/
theorem virtioNegotiateFeatures_cases (accepts : FeatSet → Bool) (enabled wanted needed : FeatSet)
    (r : Regs) :
    (¬ (∀ i, Within (needed i) (r.offered i)) ∧
      ∃ r', virtioNegotiateFeatures accepts enabled wanted needed r =
        some (-ENOTSUP, enabled, r')) ∨
    ((∀ i, Within (needed i) (r.offered i)) ∧
      accepts (requested r.offered wanted r.driver) = false ∧
      virtioNegotiateFeatures accepts enabled wanted needed r = none) ∨
    ((∀ i, Within (needed i) (r.offered i)) ∧
      accepts (requested r.offered wanted r.driver) = true ∧
      ∃ r', virtioNegotiateFeatures accepts enabled wanted needed r =
          some (0, requested r.offered wanted enabled, r') ∧
        r'.offered = r.offered ∧ r'.driver = requested r.offered wanted r.driver) := by
  have hcheck := checkNeeded_fst needed (List.finRange FEATLEN) r
  simp only [List.mem_finRange, true_implies] at hcheck
  obtain ⟨hoff, hdrv⟩ := checkNeeded_snd needed (List.finRange FEATLEN) r
  unfold virtioNegotiateFeatures
  generalize checkNeeded needed (List.finRange FEATLEN) r = c at hcheck hoff hdrv
  obtain ⟨ok, r₁⟩ := c
  obtain ⟨hoffered, henabled, hdriver⟩ :=
    requestWanted_eq wanted (List.nodup_finRange FEATLEN) enabled r₁
  dsimp only at hcheck hoff hdrv ⊢
  simp only [List.mem_finRange, if_true, hoff, hdrv] at hoffered henabled hdriver
  cases ok with
  | false =>
    exact Or.inl ⟨fun h => Bool.false_ne_true (hcheck.mpr h), r₁, rfl⟩
  | true =>
    right
    generalize requestWanted wanted (List.finRange FEATLEN) (enabled, r₁) = w at *
    obtain ⟨enabled', r₂⟩ := w
    have henabled : enabled' = requested r.offered wanted enabled := funext henabled
    have hdriver : r₂.driver = requested r.offered wanted r.driver := funext hdriver
    dsimp only
    rw [← hdriver]
    cases haccept : accepts r₂.driver with
    | false => exact Or.inl ⟨hcheck.mp rfl, rfl, rfl⟩
    | true =>
      refine Or.inr ⟨hcheck.mp rfl, rfl, { r₂ with featuresOk := true }, ?_, hoffered, rfl⟩
      rw [henabled]
      rfl

/-! ## What negotiation should grant -/

/-- The driver has written what it needs, out of what is offered, and its caller knows what. -/
structure Granted (needed enabled : FeatSet) (r : Regs) : Prop where
  needed : ∀ i, Within (needed i) (r.driver i)
  offered : ∀ i, Within (r.driver i) (r.offered i)
  enabled : r.driver = enabled

/-- Success grants what is needed, and what is needed and not offered is an error. -/
structure Negotiates (accepts : FeatSet → Bool) (enabled wanted needed : FeatSet) (r : Regs) :
    Prop where
  granted : ∀ enabled' r', virtioNegotiateFeatures accepts enabled wanted needed r =
    some (0, enabled', r') → Granted needed enabled' r'
  refused : ¬ (∀ i, Within (needed i) (r.offered i)) →
    ∃ res enabled' r', virtioNegotiateFeatures accepts enabled wanted needed r =
      some (res, enabled', r') ∧ res < 0

/-- What a caller has to see to: where it wants something it wants what it needs; and where it
wants nothing, its variable holds what the register does, which is enough and not too much. -/
def WantedSuffices (enabled wanted needed : FeatSet) (r : Regs) : Prop := ∀ i,
  if wanted i ≠ 0 then Within (needed i) (wanted i)
  else Within (needed i) (r.driver i) ∧ Within (r.driver i) (r.offered i) ∧ r.driver i = enabled i

theorem granted_iff {enabled wanted needed : FeatSet} {r r' : Regs}
    (hneeded : ∀ i, Within (needed i) (r.offered i)) (hoffered : r'.offered = r.offered)
    (hdriver : r'.driver = requested r.offered wanted r.driver) :
    Granted needed (requested r.offered wanted enabled) r' ↔
      WantedSuffices enabled wanted needed r := by
  have hword : ∀ i, (Within (needed i) (r'.driver i) ∧ Within (r'.driver i) (r'.offered i) ∧
        r'.driver i = requested r.offered wanted enabled i) ↔
      if wanted i ≠ 0 then Within (needed i) (wanted i)
      else Within (needed i) (r.driver i) ∧ Within (r.driver i) (r.offered i) ∧
        r.driver i = enabled i := by
    intro i
    rw [hdriver, hoffered]
    unfold requested
    by_cases hwanted : wanted i = 0
    · simp only [hwanted, ne_eq, not_true_eq_false, if_false]
    · simp only [hwanted, ne_eq, not_false_eq_true, if_true, within_and_iff (hneeded i),
        and_within, and_true]
  constructor
  · intro h i
    exact (hword i).mp ⟨h.needed i, h.offered i, congrFun h.enabled i⟩
  · intro h
    have h := fun i => (hword i).mpr (h i)
    exact ⟨fun i => (h i).1, fun i => (h i).2.1, funext fun i => (h i).2.2⟩

theorem negotiates_iff (accepts : FeatSet → Bool) (enabled wanted needed : FeatSet) (r : Regs) :
    Negotiates accepts enabled wanted needed r ↔
      ((∀ i, Within (needed i) (r.offered i)) →
        accepts (requested r.offered wanted r.driver) = true →
        WantedSuffices enabled wanted needed r) := by
  obtain ⟨hno, r', hres⟩ | ⟨hall, hrefuse, hres⟩ | ⟨hall, haccept, r', hres, hoffered, hdriver⟩ :=
    virtioNegotiateFeatures_cases accepts enabled wanted needed r
  · refine iff_of_true ⟨?_, fun _ => ⟨_, _, _, hres, by decide⟩⟩ fun h => absurd h hno
    intro enabled' r'' h
    rw [hres] at h
    cases h
  · refine iff_of_true ⟨?_, fun hno => absurd hall hno⟩ fun _ h => ?_
    · intro enabled' r'' h
      rw [hres] at h
      cases h
    · rw [hrefuse] at h
      cases h
  · constructor
    · intro h _ _
      exact (granted_iff hall hoffered hdriver).mp (h.granted _ _ hres)
    · intro h
      refine ⟨fun enabled' r'' h' => ?_, fun hno => absurd hall hno⟩
      rw [hres] at h'
      cases h'
      exact (granted_iff hall hoffered hdriver).mpr (h hall haccept)

/-! ## The block device -/

/-- `VIRTIO_F_INDIRECT_DESC` -/
def F_INDIRECT_DESC : Nat := 28

/-- `VIRTIO_F_RING_RESET` -/
def F_RING_RESET : Nat := 40

/-- `VIRTIO_BLK_F_BLK_SIZE` -/
def BLK_F_BLK_SIZE : Nat := 6

/-- `VIRTIO_BLK_F_TOPOLOGY` -/
def BLK_F_TOPOLOGY : Nat := 10

/-- The `needed_features` of `vioblk_attach`. -/
def neededFeatures : FeatSet :=
  featsetAdd (featsetAdd featsetInit F_RING_RESET (by decide)) F_INDIRECT_DESC (by decide)

/-- The `wanted_features` of `vioblk_attach`. -/
def wantedFeatures : FeatSet :=
  featsetAdd (featsetAdd featsetInit BLK_F_BLK_SIZE (by decide)) BLK_F_TOPOLOGY (by decide)

/-- Indirect descriptors are needed, and `vioblk_attach` does not want them. -/
theorem not_wantedSuffices (enabled : FeatSet) (r : Regs) :
    ¬ WantedSuffices enabled wantedFeatures neededFeatures r := by
  intro h
  have h0 := h 0
  rw [if_pos (by decide)] at h0
  exact absurd h0 (by decide)

/-- Negotiation keeps its promise to `vioblk_attach` just if it does not succeed: the device does not
offer something that is needed, or it does not accept what is requested. -/
theorem vioblk_negotiation_iff (accepts : FeatSet → Bool) (enabled : FeatSet) (r : Regs) :
    Negotiates accepts enabled wantedFeatures neededFeatures r ↔
      ¬ (∀ i, Within (neededFeatures i) (r.offered i)) ∨
        accepts (requested r.offered wantedFeatures r.driver) = false := by
  rw [negotiates_iff]
  constructor
  · intro h
    by_cases hall : ∀ i, Within (neededFeatures i) (r.offered i)
    · right
      by_contra hrefuse
      exact not_wantedSuffices enabled r (h hall (Bool.of_not_eq_false hrefuse))
    · exact Or.inl hall
  · rintro (hno | hrefuse) hall haccept
    · exact absurd hall hno
    · rw [hrefuse] at haccept
      cases haccept

/-- A device that offers everything and has been reset. -/
def generous : Regs := ⟨fun _ => BitVec.allOnes 32, fun _ => 0, 0, 0, false⟩

/-- It is asked for the block size and the topology only, and its driver's set keeps what stood in
three words of it. -/
theorem vioblk_negotiation_generous :
    ∃ enabled' r', virtioNegotiateFeatures (fun _ => true) (fun _ => 0xdeadbeef) wantedFeatures
        neededFeatures generous = some (0, enabled', r') ∧
      r'.driver = Function.update (fun _ => 0) 0 0x440 ∧
      enabled' = Function.update (fun _ => 0xdeadbeef) 0 0x440 ∧
      ¬ Granted neededFeatures enabled' r' := by
  have hall : ∀ i, Within (neededFeatures i) (generous.offered i) := by decide
  obtain ⟨hno, -⟩ | ⟨-, hrefuse, -⟩ | ⟨-, -, r', hres, hoffered, hdriver⟩ :=
    virtioNegotiateFeatures_cases (fun _ => true) (fun _ => 0xdeadbeef) wantedFeatures
      neededFeatures generous
  · exact absurd hall hno
  · cases hrefuse
  · refine ⟨_, r', hres, hdriver.trans (by decide), by decide, fun h => ?_⟩
    exact not_wantedSuffices _ _ ((granted_iff hall hoffered hdriver).mp h)

end Virtio

end RiscvKernel
