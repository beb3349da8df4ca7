import ActiveSet.Proofs.WorkingSets
import ActiveSet.Proofs.Graphs
import ActiveSet.Optimize

/-!
# Iterations and runs

An iteration that returns has done one of four things. A property that every iteration preserves
holds in all states of a run, and a run that fails does so with the fault of one of its iterations.
-/

namespace ActiveSet

namespace State

/-- Two states with one point and one working set. -/
structure Agrees {K : Type} (s t : State K) : Prop where
  values_eq : s.values = t.values
  workingSet_eq : s.workingSet = t.workingSet

theorem Agrees.symm {K : Type} {s t : State K} (h : s.Agrees t) : t.Agrees s :=
  ⟨h.values_eq.symm, h.workingSet_eq.symm⟩

theorem Agrees.trans {K : Type} {s t u : State K} (hst : s.Agrees t) (htu : t.Agrees u) :
    s.Agrees u :=
  ⟨hst.values_eq.trans htu.values_eq, hst.workingSet_eq.trans htu.workingSet_eq⟩

theorem hasMoved_iff {s : State ℝ} : s.hasMoved = true ↔ ∃ a, s.alpha = some a ∧ 0 < a := by
  unfold hasMoved
  cases s.alpha <;> simp

theorem not_hasMoved_iff {s : State ℝ} : s.hasMoved = false ↔ ∀ a, s.alpha = some a → a ≤ 0 := by
  unfold hasMoved
  cases s.alpha <;> simp

end State

/-- The state that a run ends in, unless it fails. -/
def Ending.last? {K : Type} : Ending K → Option (State K)
  | .converged last => some last
  | .exhausted last => some last
  | .cycled last => some last
  | .failed _ => none

namespace Method

/-! ## One iteration -/

section Steps

variable {K : Type} [Scalar K] {m : Method K} {s t : State K} {p : Point K}

/-- What an iteration along the direction `p` can lead to. -/
inductive Step (m : Method K) (s : State K) (p : Point K) : State K → Prop
  | converge {duals : Point K} (small : Point.norm p ≤ m.settings.tolerance)
      (solved : m.multipliers s.workingSet s.values = .ok duals)
      (stay : m.leaving s.workingSet duals = .ok none) :
      Step m s p { s with
        duals, iterations := s.iterations + 1, phase := .converged, alpha := none }
  | drop {duals : Point K} {f : Inequality K} {ix : Nat} {w : WorkingSet K} {a : K}
      (small : Point.norm p ≤ m.settings.tolerance)
      (solved : m.multipliers s.workingSet s.values = .ok duals)
      (leave : m.leaving s.workingSet duals = .ok (some ix))
      (was : (f, ix) ∈ s.workingSet.flagged true) (factors : w.factors = s.workingSet.factors)
      (active : w.active = s.workingSet.active.set ix false) :
      Step m s p { s with
        workingSet := w, duals, iterations := s.iterations + 1, phase := .deactivated ix a
        alpha := none }
  | block {ratio : K} {f : Inequality K} {ix : Nat} {x : Point K} {w : WorkingSet K}
      (large : ¬Point.norm p ≤ m.settings.tolerance)
      (blocked : s.workingSet.blocking s.values p m.cap = .ok (some (ratio, ix)))
      (sum : Point.add s.values (Point.scale (Scalar.larger ratio 0) p) = .ok x)
      (was : (f, ix) ∈ s.workingSet.flagged false) (factors : w.factors = s.workingSet.factors)
      (active : w.active = s.workingSet.active.set ix true) :
      Step m s p { s with
        values := x, workingSet := w, iterations := s.iterations + 1, phase := .activated ix
        alpha := some (Scalar.larger ratio 0) }
  | move {c : K} {x : Point K} (large : ¬Point.norm p ≤ m.settings.tolerance)
      (unblocked : s.workingSet.blocking s.values p m.cap = .ok none) (cap : m.cap = .at c)
      (sum : Point.add s.values (Point.scale (Scalar.larger c 0) p) = .ok x) :
      Step m s p { s with
        values := x, iterations := s.iterations + 1, phase := .moved
        alpha := some (Scalar.larger c 0) }

theorem Step.iterations_eq (h : Step m s p t) : t.iterations = s.iterations + 1 := by
  cases h <;> rfl

private theorem step_of_release (small : Point.norm p ≤ m.settings.tolerance)
    (h : m.release s = .ok t) : Step m s p t := by
  simp only [release, bind_eq_ok] at h
  obtain ⟨duals, solved, leaving, leave, h⟩ := h
  cases leaving with
  | none =>
      obtain rfl := pure_eq_ok.1 h
      exact .converge small solved leave
  | some ix =>
      simp only [bind_eq_ok, pure_eq_ok] at h
      obtain ⟨w, hw, g, _, a, _, rfl⟩ := h
      obtain ⟨f, was, factors, active⟩ := WorkingSet.of_change_eq_ok hw
      exact .drop small solved leave was factors active

private theorem step_of_advance (large : ¬Point.norm p ≤ m.settings.tolerance)
    (h : m.advance s p = .ok t) : Step m s p t := by
  simp only [advance, bind_eq_ok] at h
  obtain ⟨blocking, blocked, h⟩ := h
  rcases blocking with _ | ⟨ratio, ix⟩
  · cases cap : m.cap with
    | unlimited =>
        rw [cap] at h
        cases h
    | «at» c =>
        rw [cap] at h
        simp only [Method.move, bind_eq_ok, pure_eq_ok] at h
        obtain ⟨x, sum, rfl⟩ := h
        exact .move large blocked cap sum
  · simp only [Method.move, bind_eq_ok, pure_eq_ok] at h
    obtain ⟨_, ⟨x, sum, rfl⟩, w, hw, rfl⟩ := h
    obtain ⟨f, was, factors, active⟩ := WorkingSet.of_change_eq_ok hw
    exact .block large blocked sum was factors active

/-- An iteration that returns takes one of the four steps along the direction. -/
theorem step_of_iterate (h : m.iterate s = .ok t) :
    ∃ p, m.direction s.workingSet s.values = .ok p ∧ Step m s p t := by
  simp only [iterate, bind_eq_ok] at h
  obtain ⟨p, hp, h⟩ := h
  refine ⟨p, hp, ?_⟩
  split at h
  · exact step_of_release ‹_› h
  · exact step_of_advance ‹_› h

theorem exists_of_converged (h : m.iterate s = .ok t) (ht : t.hasConverged = true) : ∃ duals,
    m.multipliers s.workingSet s.values = .ok duals ∧ m.leaving s.workingSet duals = .ok none ∧
      t = { s with duals, iterations := s.iterations + 1, phase := .converged, alpha := none } := by
  obtain ⟨p, _, hstep⟩ := step_of_iterate h
  cases hstep with
  | converge _ solved stay => exact ⟨_, solved, stay, rfl⟩
  | drop | block | move => cases ht

theorem iterate_converge (hp : m.direction s.workingSet s.values = .ok p)
    (small : Point.norm p ≤ m.settings.tolerance) {duals : Point K}
    (solved : m.multipliers s.workingSet s.values = .ok duals)
    (stay : m.leaving s.workingSet duals = .ok none) :
    m.iterate s = .ok { s with
      duals, iterations := s.iterations + 1, phase := .converged, alpha := none } := by
  rw [iterate, hp, ok_bind, if_pos small, release, solved, ok_bind, stay]
  rfl

theorem iterate_drop (hp : m.direction s.workingSet s.values = .ok p)
    (small : Point.norm p ≤ m.settings.tolerance) {duals : Point K}
    (solved : m.multipliers s.workingSet s.values = .ok duals) {ix : Nat}
    (leave : m.leaving s.workingSet duals = .ok (some ix)) {w : WorkingSet K}
    (dropped : s.workingSet.deactivate ix = .ok w) {f : Inequality K} (factor : w.factor ix = .ok f)
    {a : K} (multiplier : Point.multiplier duals f.dual = .ok a) :
    m.iterate s = .ok { s with
      workingSet := w, duals, iterations := s.iterations + 1, phase := .deactivated ix a
      alpha := none } := by
  rw [iterate, hp, ok_bind, if_pos small, release, solved, ok_bind, leave, ok_bind]
  simp only [dropped, factor, multiplier, ok_bind]
  rfl

theorem Step.factors_eq (h : Step m s p t) : t.workingSet.factors = s.workingSet.factors := by
  cases h with
  | converge => rfl
  | drop _ _ _ _ factors _ => exact factors
  | block _ _ _ _ factors _ => exact factors
  | move => rfl

/-- A step stays at the point or adds to it. -/
theorem Step.stays_or_adds (h : Step m s p t) :
    t.values = s.values ∨ ∃ a, Point.add s.values (Point.scale a p) = .ok t.values := by
  cases h with
  | converge => exact .inl rfl
  | drop => exact .inl rfl
  | block _ _ sum => exact .inr ⟨_, sum⟩
  | move _ _ _ sum => exact .inr ⟨_, sum⟩

/-- A deactivation keeps the point and unsets the flag that the rule for leaving picks. -/
theorem Step.of_deactivated (h : Step m s p t) {ix : Nat} {a : K}
    (ht : t.phase = .deactivated ix a) : t.values = s.values ∧ ∃ duals f,
      m.multipliers s.workingSet s.values = .ok duals ∧
        m.leaving s.workingSet duals = .ok (some ix) ∧ (f, ix) ∈ s.workingSet.flagged true ∧
        t.workingSet.factors = s.workingSet.factors ∧
        t.workingSet.active = s.workingSet.active.set ix false := by
  cases h with
  | converge => cases ht
  | drop _ solved leave was factors active =>
      cases ht
      exact ⟨rfl, _, _, solved, leave, was, factors, active⟩
  | block => cases ht
  | move => cases ht

theorem Step.converged (h : Step m s p t) (ht : t.hasConverged = true) :
    t.values = s.values ∧ t.workingSet = s.workingSet ∧ Point.norm p ≤ m.settings.tolerance ∧
      ∃ duals, m.multipliers s.workingSet s.values = .ok duals ∧
        m.leaving s.workingSet duals = .ok none := by
  cases h with
  | converge small solved stay => exact ⟨rfl, rfl, small, _, solved, stay⟩
  | drop => cases ht
  | block => cases ht
  | move => cases ht

end Steps

/-! ## Over the reals -/

section RealSteps

variable {m : Method ℝ} {s t : State ℝ} {p : Point ℝ}

theorem advance_eq_error {fault : Fault ℝ} (h : m.advance s p = .error fault) :
    (∃ c, fault = .dimension c) ∨ fault = .unbounded (Point.norm p) ∧ m.cap = .unlimited ∧
      s.workingSet.blocking s.values p m.cap = .ok none := by
  have hmove : ∀ a phase, Method.move s p a phase = .error fault → ∃ c, fault = .dimension c := by
    intro a phase h
    simp only [Method.move, bind_eq_error, pure_ne_error, and_false, exists_false, or_false] at h
    exact Point.addScaled_eq_error h
  rw [advance, bind_eq_error] at h
  rcases h with h | ⟨blocking, hblock, h⟩
  · exact .inl (WorkingSet.blocking_eq_error h)
  · rcases blocking with _ | ⟨ratio, ix⟩
    · cases hcap : m.cap with
      | unlimited =>
          rw [hcap] at h hblock
          exact .inr ⟨(Except.error.inj h).symm, rfl, hblock⟩
      | «at» c =>
          rw [hcap] at h
          exact .inl (hmove _ _ h)
    · rcases bind_eq_error.1 h with h | ⟨t, _, h⟩
      · exact .inl (hmove _ _ h)
      · obtain ⟨f, hf, _⟩ := WorkingSet.blocking_eq_some hblock
        obtain ⟨w', hw', _⟩ := WorkingSet.change_eq_ok (b := true) (WorkingSet.mem_flagged.1 hf).2
          (.alreadyActive ix)
        have hactivate : s.workingSet.activate ix = .ok w' := hw'
        simp only [hactivate] at h
        cases h

theorem iterate_block (hp : m.direction s.workingSet s.values = .ok p)
    (large : m.settings.tolerance < Point.norm p) {ratio : ℝ} {ix : Nat}
    (blocked : s.workingSet.blocking s.values p m.cap = .ok (some (ratio, ix))) {x : Point ℝ}
    (sum : Point.add s.values (Point.scale (max ratio 0) p) = .ok x) {w : WorkingSet ℝ}
    (activated : s.workingSet.activate ix = .ok w) :
    m.iterate s = .ok { s with
      values := x, workingSet := w, iterations := s.iterations + 1, phase := .activated ix
      alpha := some (max ratio 0) } := by
  rw [iterate, hp, ok_bind, if_neg (not_le.2 large), advance, blocked, ok_bind]
  simp only [Method.move, Scalar.larger_eq_max, sum, ok_bind, pure, Except.pure, activated]

/-- A full step that leads past the first inactive inequality, and into no other one, ends there. -/
theorem iterate_blocked {w u : WorkingSet ℝ} {f : Inequality ℝ} {i : Nat}
    {others : List (Inequality ℝ × Nat)} (hw : w.flagged false = (f, i) :: others)
    (hactivate : w.activate i = .ok u) {x y : Point ℝ} (hdirection : m.direction w x = .ok p)
    (hlarge : m.settings.tolerance < Point.norm p) (hcap : m.cap = .at 1) (hx : f.Fits x)
    (hp : f.Fits p) (hheld : f.value x ≤ f.bound) (hpast : f.bound - f.value x < f.value p)
    (hothers : ∀ e ∈ others, e.1.Fits p ∧ e.1.value p ≤ 0)
    (hsum : Point.add x (Point.scale ((f.bound - f.value x) / f.value p) p) = .ok y) :
    ∃ v, m.iterate (.initial x w) = .ok v ∧
      v.alpha = some ((f.bound - f.value x) / f.value p) ∧ v.Agrees (.initial y u) ∧
        v.hasConverged = false := by
  have hrises : 0 < f.value p := (sub_nonneg.2 hheld).trans_lt hpast
  have hratio : 0 ≤ (f.bound - f.value x) / f.value p := div_nonneg (sub_nonneg.2 hheld) hrises.le
  have hexceeds : m.cap.exceeds (WorkingSet.ratio f x p) = true :=
    hcap ▸ decide_eq_true ((div_lt_one hrises).2 hpast)
  have hiterate := iterate_block (s := .initial x w) hdirection hlarge
    (WorkingSet.blocking_ok_some hw hx hp hrises hexceeds hothers)
    ((max_eq_left hratio).symm ▸ hsum) hactivate
  exact ⟨_, hiterate, congrArg some (max_eq_left hratio), ⟨rfl, rfl⟩, rfl⟩

theorem iterate_move (hp : m.direction s.workingSet s.values = .ok p)
    (large : m.settings.tolerance < Point.norm p)
    (unblocked : s.workingSet.blocking s.values p m.cap = .ok none) {c : ℝ} (cap : m.cap = .at c)
    {x : Point ℝ} (sum : Point.add s.values (Point.scale (max c 0) p) = .ok x) :
    m.iterate s = .ok { s with
      values := x, iterations := s.iterations + 1, phase := .moved, alpha := some (max c 0) } := by
  rw [iterate, hp, ok_bind, if_neg (not_le.2 large), advance, unblocked, ok_bind, cap]
  simp only [Method.move, Scalar.larger_eq_max, sum, ok_bind]
  rfl

theorem iterate_unbounded (hp : m.direction s.workingSet s.values = .ok p)
    (large : m.settings.tolerance < Point.norm p) (cap : m.cap = .unlimited)
    (unblocked : s.workingSet.blocking s.values p m.cap = .ok none) :
    m.iterate s = .error (.unbounded (Point.norm p)) := by
  rw [iterate, hp, ok_bind, if_neg (not_le.2 large), advance, unblocked, ok_bind, cap]
  rfl

/-! ## What a step keeps -/

theorem Step.of_alpha (h : Step m s p t) {a : ℝ} (ha : t.alpha = some a) :
    m.settings.tolerance < Point.norm p ∧ 0 ≤ a ∧
      Point.add s.values (Point.scale a p) = .ok t.values ∧ ∀ c, m.cap = .at c → a ≤ max c 0 := by
  cases h with
  | converge => cases ha
  | drop => cases ha
  | block large blocked sum _ _ _ =>
      obtain rfl := Option.some.inj ha
      rw [Scalar.larger_eq_max] at sum ⊢
      refine ⟨not_le.1 large, le_max_right .., sum, fun c hc => max_le_max_right 0 ?_⟩
      obtain ⟨_, _, _, _, hexceeds, _⟩ := WorkingSet.blocking_eq_some blocked
      rw [hc] at hexceeds
      exact (of_decide_eq_true hexceeds).le
  | move large _ cap sum =>
      obtain rfl := Option.some.inj ha
      rw [Scalar.larger_eq_max] at sum ⊢
      refine ⟨not_le.1 large, le_max_right .., sum, fun c' hc => ?_⟩
      cases cap.symm.trans hc
      exact le_rfl

theorem Step.of_alpha_none (h : Step m s p t) (ha : t.alpha = none) :
    t.values = s.values ∧ Point.norm p ≤ m.settings.tolerance := by
  cases h with
  | converge small => exact ⟨rfl, small⟩
  | drop small => exact ⟨rfl, small⟩
  | block => cases ha
  | move => cases ha

/-- A step is no longer than an inactive inequality that rises along it allows. -/
theorem Step.alpha_le (h : Step m s p t) {a : ℝ} (ha : t.alpha = some a)
    {e : Inequality ℝ × Nat} (he : e ∈ s.workingSet.flagged false) (hp : 0 < e.1.value p) :
    a ≤ max (WorkingSet.ratio e.1 s.values p) 0 := by
  cases h with
  | converge => cases ha
  | drop => cases ha
  | block _ blocked =>
      obtain rfl := Option.some.inj ha
      rw [Scalar.larger_eq_max]
      obtain ⟨_, _, _, _, _, hle⟩ := WorkingSet.blocking_eq_some blocked
      exact max_le_max_right 0 (hle e he hp)
  | move _ unblocked cap =>
      obtain rfl := Option.some.inj ha
      rw [Scalar.larger_eq_max]
      have hcap := WorkingSet.blocking_eq_none unblocked he hp
      rw [cap] at hcap
      exact max_le_max_right 0 (not_lt.1 (of_decide_eq_false hcap))

/-- A step goes a length that is not negative, and no further than an inactive inequality allows. -/
theorem Step.length (h : Step m s p t) : t.values = s.values ∨
    ∃ a, 0 ≤ a ∧ Point.add s.values (Point.scale a p) = .ok t.values ∧
      ∀ e ∈ s.workingSet.flagged false, 0 < e.1.value p →
        a ≤ max (WorkingSet.ratio e.1 s.values p) 0 := by
  cases ha : t.alpha with
  | none => exact .inl (h.of_alpha_none ha).1
  | some a =>
      obtain ⟨_, hnonneg, hsum, _⟩ := h.of_alpha ha
      exact .inr ⟨a, hnonneg, hsum, fun _ he => h.alpha_le ha he⟩

theorem Step.fits (h : Step m s p t) {dims : Keyed Nat} (hp : Graph.Spans p dims.entries)
    {f : Factor ℝ} (hover : ∀ e ∈ f.terms.entries, (e.1, e.2.cols) ∈ dims.entries)
    (hf : f.Fits s.values) : f.Fits t.values := by
  rcases h.length with heq | ⟨a, _, hsum, _⟩
  · rwa [heq]
  · refine hf.step (fun e he u hu => ?_) hsum
    have hu := (Keyed.lookup_iff dims).2 (hp.length_mem _ _ hu)
    rw [(Keyed.lookup_iff dims).2 (hover e he)] at hu
    exact (Option.some.inj hu).symm

theorem Step.defect_eq (h : Step m s p t) {f : Factor ℝ} (hf : f.values p = Vec.zeros f.rows) :
    f.defect t.values = f.defect s.values := by
  rcases h.length with heq | ⟨a, _, hsum, _⟩
  · rw [heq]
  · rw [Factor.defect_step hsum, hf, Vec.scale_zeros, Vec.add_zeros (f.length_defect _)]

/-- What an inactive inequality exceeds its bound by does not grow beyond zero. -/
theorem Step.excess_le (h : Step m s p t) {e : Inequality ℝ × Nat}
    (he : e ∈ s.workingSet.flagged false) :
    e.1.value t.values - e.1.bound ≤ max (e.1.value s.values - e.1.bound) 0 := by
  rcases h.length with heq | ⟨a, ha, hsum, hle⟩
  · rw [heq]
    exact le_max_left ..
  · rw [Inequality.value_step hsum]
    rcases le_or_gt (e.1.value p) 0 with hp | hp
    · have : a * e.1.value p ≤ 0 := mul_nonpos_of_nonneg_of_nonpos ha hp
      exact le_max_of_le_left (by linarith)
    · have hratio : WorkingSet.ratio e.1 s.values p * e.1.value p =
          e.1.bound - e.1.value s.values := div_mul_cancel₀ _ hp.ne'
      rcases le_max_iff.1 (hle e he hp) with hle | hle
      · have := mul_le_mul_of_nonneg_right hle hp.le
        exact le_max_of_le_right (by linarith)
      · have : a = 0 := le_antisymm hle ha
        exact le_max_of_le_left (by rw [this]; linarith)

/-- What is active after a step was so before, or has just become tight. -/
theorem Step.flagged_true (h : Step m s p t) {e : Inequality ℝ × Nat}
    (he : e ∈ t.workingSet.flagged true) : e ∈ s.workingSet.flagged true ∨
      e ∈ s.workingSet.flagged false ∧
        (e.1.value s.values ≤ e.1.bound → e.1.value t.values = e.1.bound) := by
  cases h with
  | converge => exact .inl he
  | drop _ _ _ was factors active => exact .inl (WorkingSet.flagged_of_set was factors active he)
  | move => exact .inl he
  | block _ blocked sum was factors active =>
      have hperm := WorkingSet.perm_flagged_set was factors active
      rcases List.mem_cons.1 (hperm.subset he) with rfl | he
      · refine .inr ⟨was, fun hle => ?_⟩
        obtain ⟨g, hg, hp, rfl, _, _⟩ := WorkingSet.blocking_eq_some blocked
        obtain rfl := WorkingSet.eq_of_mem_flagged was hg
        have hratio : 0 ≤ WorkingSet.ratio _ s.values p := div_nonneg (sub_nonneg.2 hle) hp.le
        rw [Scalar.larger_eq_max, max_eq_left hratio] at sum
        rw [Inequality.value_step sum, WorkingSet.ratio, div_mul_cancel₀ _ hp.ne']
        ring
      · exact .inl he

/-- What is inactive after a step was so before, or was dropped where there were multipliers. -/
theorem Step.flagged_false (h : Step m s p t) {e : Inequality ℝ × Nat}
    (he : e ∈ t.workingSet.flagged false) : e ∈ s.workingSet.flagged false ∨
      e ∈ s.workingSet.flagged true ∧ t.values = s.values ∧
        Point.norm p ≤ m.settings.tolerance ∧
        ∃ duals, m.multipliers s.workingSet s.values = .ok duals := by
  cases h with
  | converge => exact .inl he
  | block _ _ _ was factors active => exact .inl (WorkingSet.flagged_of_set was factors active he)
  | move => exact .inl he
  | drop small solved _ was factors active =>
      have hperm := WorkingSet.perm_flagged_set was factors active
      rcases List.mem_cons.1 (hperm.subset he) with rfl | he
      · exact .inr ⟨was, rfl, small, _, solved⟩
      · exact .inl he

/-- A step multiplies what it is on the way to cancel by one minus its length. -/
theorem Step.defect_of_alpha (h : Step m s p t) {a : ℝ} (ha : t.alpha = some a) {f : Factor ℝ}
    (hcancel : Vec.add (f.values p) (f.defect s.values) = Vec.zeros f.rows) :
    f.defect t.values = Vec.scale (1 - a) (f.defect s.values) := by
  obtain ⟨_, _, hadd, _⟩ := h.of_alpha ha
  rw [Factor.defect_step hadd, Vec.add_scale_of_cancels (by simp) hcancel]

/-- An iteration without a step counts as one of length zero. -/
theorem Step.exists_scale (h : Step m s p t) : ∃ a, 0 ≤ a ∧ (∀ c, m.cap = .at c → a ≤ max c 0) ∧
    ∀ f : Factor ℝ, Vec.add (f.values p) (f.defect s.values) = Vec.zeros f.rows →
      f.defect t.values = Vec.scale (1 - a) (f.defect s.values) := by
  cases halpha : t.alpha with
  | none =>
      refine ⟨0, le_rfl, fun c _ => le_max_right c 0, fun f _ => ?_⟩
      rw [(h.of_alpha_none halpha).1]
      simp [Vec.scale]
  | some a =>
      obtain ⟨_, hnonneg, _, hcap⟩ := h.of_alpha halpha
      exact ⟨a, hnonneg, hcap, fun f => h.defect_of_alpha halpha⟩

/-- A step that no inequality cut short ends at the cap. -/
theorem Step.of_moved (h : Step m s p t) (ht : t.phase = .moved) :
    t.workingSet = s.workingSet ∧ ∃ c, m.cap = .at c ∧ t.alpha = some (max c 0) := by
  cases h with
  | converge => cases ht
  | drop => cases ht
  | block => cases ht
  | move _ _ cap => exact ⟨rfl, _, cap, congrArg some (Scalar.larger_eq_max ..)⟩

/-- Along a direction that counts one more inequality becomes active, or the step ends at the cap. -/
theorem Step.of_large (h : Step m s p t) (hlarge : m.settings.tolerance < Point.norm p) :
    t.workingSet.activeIndices.length = s.workingSet.activeIndices.length + 1 ∨
      t.workingSet = s.workingSet ∧ ∃ c, m.cap = .at c ∧
        Point.add s.values (Point.scale (max c 0) p) = .ok t.values := by
  cases h with
  | converge small => exact absurd hlarge (not_lt.2 small)
  | drop small => exact absurd hlarge (not_lt.2 small)
  | block _ _ _ was factors active =>
      have hperm := (WorkingSet.perm_flagged_set was factors active).length_eq
      rw [List.length_cons] at hperm
      simpa [WorkingSet.activeIndices] using .inl hperm
  | move _ _ cap sum =>
      rw [Scalar.larger_eq_max] at sum
      exact .inr ⟨rfl, _, cap, sum⟩

end RealSteps

/-! ## Iterations from states that agree -/

section Agreement

variable {K : Type} {m : Method K} {s s' t : State K}

private theorem release_congr (h : s.Agrees s') (ht : m.release s = .ok t) :
    ∃ t', m.release s' = .ok t' ∧ t.Agrees t' ∧ t'.hasConverged = t.hasConverged ∧
      t'.alpha = t.alpha := by
  obtain ⟨hvalues, hset⟩ := h
  simp only [release, bind_eq_ok] at ht ⊢
  obtain ⟨duals, hduals, leaving, hleaving, ht⟩ := ht
  rw [hvalues, hset] at hduals
  rw [hset] at hleaving
  cases leaving with
  | none =>
      obtain rfl := pure_eq_ok.1 ht
      exact ⟨_, ⟨duals, hduals, none, hleaving, rfl⟩, ⟨hvalues, hset⟩, rfl, rfl⟩
  | some ix =>
      simp only [bind_eq_ok, pure_eq_ok] at ht
      obtain ⟨w, hw, f, hf, a, ha, rfl⟩ := ht
      rw [hset] at hw
      exact ⟨_, ⟨duals, hduals, some ix, hleaving, bind_eq_ok.2 ⟨w, hw, bind_eq_ok.2 ⟨f, hf,
        bind_eq_ok.2 ⟨a, ha, rfl⟩⟩⟩⟩, ⟨hvalues, rfl⟩, rfl, rfl⟩

variable [Scalar K]

private theorem move_congr (h : s.Agrees s') {p : Point K} {a : K} {phase : Phase K}
    (ht : move s p a phase = .ok t) :
    ∃ t', move s' p a phase = .ok t' ∧ t.Agrees t' ∧ t'.hasConverged = t.hasConverged ∧
      t'.alpha = t.alpha := by
  obtain ⟨hvalues, hset⟩ := h
  simp only [move, bind_eq_ok, pure_eq_ok] at ht ⊢
  obtain ⟨x, hx, rfl⟩ := ht
  rw [hvalues] at hx
  exact ⟨_, ⟨x, hx, rfl⟩, ⟨rfl, hset⟩, rfl, rfl⟩

private theorem advance_congr (h : s.Agrees s') {p : Point K} (ht : m.advance s p = .ok t) :
    ∃ t', m.advance s' p = .ok t' ∧ t.Agrees t' ∧ t'.hasConverged = t.hasConverged ∧
      t'.alpha = t.alpha := by
  rw [advance, bind_eq_ok] at ht
  obtain ⟨blocking, hblocking, ht⟩ := ht
  rw [h.values_eq, h.workingSet_eq] at hblocking
  simp only [advance, hblocking, ok_bind]
  rcases blocking with _ | ⟨ratio, ix⟩
  · cases hcap : m.cap with
    | unlimited =>
        rw [hcap] at ht
        cases ht
    | «at» c =>
        rw [hcap] at ht
        exact move_congr h ht
  · simp only [bind_eq_ok, pure_eq_ok] at ht ⊢
    obtain ⟨v, hv, w, hw, rfl⟩ := ht
    obtain ⟨v', hv', hagrees, hconverged⟩ := move_congr h hv
    rw [h.workingSet_eq] at hw
    exact ⟨_, ⟨v', hv', w, hw, rfl⟩, ⟨hagrees.values_eq, rfl⟩, hconverged⟩

/-- From states that agree an iteration leads to states that agree. -/
theorem iterate_congr (h : s.Agrees s') (ht : m.iterate s = .ok t) :
    ∃ t', m.iterate s' = .ok t' ∧ t.Agrees t' ∧ t'.hasConverged = t.hasConverged ∧
      t'.alpha = t.alpha := by
  rw [iterate, bind_eq_ok] at ht
  obtain ⟨p, hp, ht⟩ := ht
  rw [h.values_eq, h.workingSet_eq] at hp
  rw [iterate, hp, ok_bind]
  split at ht
  · rw [if_pos ‹_›]
    exact release_congr h ht
  · rw [if_neg ‹_›]
    exact advance_congr h ht

end Agreement

/-! ## Runs -/

section Runs

variable {K : Type} [Scalar K] {m : Method K}

/-- The working sets visited since the point moved, after an iteration from `s` to `t`. -/
def remembered (seen : List (List Nat)) (s t : State K) : List (List Nat) :=
  if t.hasMoved then [] else s.workingSet.activeIndices :: seen

private theorem runFrom_add_one (budget : Nat) (seen : List (List Nat)) (s : State K) :
    m.runFrom (budget + 1) seen s =
      if s.hasConverged then ⟨[], .converged s⟩
      else if m.settings.detectCycling && seen.contains s.workingSet.activeIndices then
        ⟨[], .cycled s⟩
      else match m.iterate s with
        | .error fault => ⟨[], .failed fault⟩
        | .ok t => ⟨t :: (m.runFrom budget (remembered seen s t) t).states,
            (m.runFrom budget (remembered seen s t) t).ending⟩ := by
  rw [runFrom]
  cases m.iterate s <;> rfl

theorem runFrom_of_converged {s : State K} (hs : s.hasConverged = true) (budget : Nat)
    (seen : List (List Nat)) : m.runFrom budget seen s = ⟨[], .converged s⟩ := by
  cases budget <;> exact if_pos hs

theorem runFrom_zero {s : State K} (hs : s.hasConverged = false) (seen : List (List Nat)) :
    m.runFrom 0 seen s = ⟨[], .exhausted s⟩ := if_neg (by rw [hs]; exact Bool.false_ne_true)

theorem runFrom_of_seen {s : State K} (hs : s.hasConverged = false)
    (hcycling : m.settings.detectCycling = true) {seen : List (List Nat)}
    (hseen : s.workingSet.activeIndices ∈ seen) (budget : Nat) :
    m.runFrom (budget + 1) seen s = ⟨[], .cycled s⟩ := by
  simp [runFrom_add_one, hs, hcycling, hseen]

theorem runFrom_of_iterate {s t : State K} (hs : s.hasConverged = false)
    {seen : List (List Nat)}
    (hnew : m.settings.detectCycling = true → s.workingSet.activeIndices ∉ seen)
    (h : m.iterate s = .ok t) (budget : Nat) : m.runFrom (budget + 1) seen s =
      ⟨t :: (m.runFrom budget (remembered seen s t) t).states,
        (m.runFrom budget (remembered seen s t) t).ending⟩ := by
  have hcheck : ¬ (m.settings.detectCycling && seen.contains s.workingSet.activeIndices) = true := by
    simpa using hnew
  rw [runFrom_add_one, if_neg (by simp [hs]), if_neg hcheck, h]

theorem run_of_error {s : State K} (hs : s.hasConverged = false)
    (hbudget : 0 < m.settings.maxIterations) {fault : Fault K} (h : m.iterate s = .error fault) :
    m.run s = ⟨[], .failed fault⟩ := by
  obtain ⟨budget, hbudget⟩ := Nat.exists_eq_add_one_of_ne_zero hbudget.ne'
  rw [run, hbudget, runFrom_add_one]
  simp [hs, h]

theorem run_of_converged {s t : State K} (hs : s.hasConverged = false)
    (hbudget : 0 < m.settings.maxIterations) (h : m.iterate s = .ok t)
    (ht : t.hasConverged = true) : m.run s = ⟨[t], .converged t⟩ := by
  obtain ⟨budget, hbudget⟩ := Nat.exists_eq_add_one_of_ne_zero hbudget.ne'
  rw [run, hbudget, runFrom_of_iterate hs (fun _ => List.not_mem_nil) h, runFrom_of_converged ht]

/-- A step and, as from any state that agrees with the one it leads to, the end. -/
theorem run_of_step {s t t' u : State K} (hs : s.hasConverged = false)
    (hbudget : 1 < m.settings.maxIterations) (ht : m.iterate s = .ok t)
    (hgoes : t.hasConverged = false) (hmoved : t.hasMoved = true) (hagrees : t.Agrees t')
    (hu : m.iterate t' = .ok u) (hconv : u.hasConverged = true) :
    ∃ v, m.run s = ⟨[t, v], .converged v⟩ ∧ v.Agrees u ∧ v.iterations = s.iterations + 2 := by
  obtain ⟨v, hv, huv, hvconv, _⟩ := iterate_congr hagrees.symm hu
  obtain ⟨_, _, hfirst⟩ := step_of_iterate ht
  obtain ⟨_, _, hsecond⟩ := step_of_iterate hv
  obtain ⟨budget, hbudget⟩ := Nat.exists_eq_add_of_le' hbudget
  have hseen : remembered [] s t = [] := if_pos hmoved
  refine ⟨v, ?_, huv.symm, by rw [hsecond.iterations_eq, hfirst.iterations_eq]⟩
  rw [run, hbudget, runFrom_of_iterate hs (fun _ => List.not_mem_nil) ht, hseen,
    runFrom_of_iterate hgoes (fun _ => List.not_mem_nil) hv, runFrom_of_converged (hvconv.trans hconv)]

/-- What iterations on a run preserve holds in all its states. -/
theorem runFrom_invariant {P : State K → Prop} (budget : Nat) (seen : List (List Nat))
    {s : State K} (hs : P s) (hstep : ∀ u ∈ s :: (m.runFrom budget seen s).states,
      ∀ v, P u → m.iterate u = .ok v → P v) : ∀ v ∈ s :: (m.runFrom budget seen s).states, P v := by
  fun_induction m.runFrom budget seen s
  -- Only in the last case does the run go on; in the others it ends at `s`.
  case case5 t ht rest ih =>
    have hP := hstep _ (.head _) t hs ht
    exact List.forall_mem_cons.2 ⟨hs, ih hP fun u hu => hstep u (.tail _ hu)⟩
  all_goals exact List.forall_mem_singleton.2 hs

theorem factors_runFrom {budget : Nat} {seen : List (List Nat)} {s : State K} :
    ∀ t ∈ s :: (m.runFrom budget seen s).states, t.workingSet.factors = s.workingSet.factors := by
  refine runFrom_invariant (P := fun t => t.workingSet.factors = s.workingSet.factors) budget seen
    rfl fun u _ v hu h => ?_
  obtain ⟨p, _, hstep⟩ := step_of_iterate h
  exact hstep.factors_eq.trans hu

/-- A transitive relation between the two states of every iteration holds all along a run. -/
theorem runFrom_pairwise {P : State K → Prop} {R : State K → State K → Prop}
    (htrans : ∀ {u v w}, R u v → R v w → R u w)
    (hstep : ∀ {u v}, P u → m.iterate u = .ok v → P v ∧ R u v) (budget : Nat)
    (seen : List (List Nat)) {s : State K} (hs : P s) :
    (s :: (m.runFrom budget seen s).states).Pairwise R := by
  fun_induction m.runFrom budget seen s
  case case5 t ht rest ih =>
    obtain ⟨hP, hR⟩ := hstep hs ht
    have hrest := ih hP
    refine List.pairwise_cons.2 ⟨List.forall_mem_cons.2 ⟨hR, fun v hv => ?_⟩, hrest⟩
    exact htrans hR (List.rel_of_pairwise_cons hrest hv)
  all_goals exact List.pairwise_singleton R _

/-- A rank that every iteration lowers bounds how many iterations there are. -/
theorem runFrom_length_le {R : Nat → List (List Nat) → State K → Prop} {n budget : Nat}
    {seen : List (List Nat)} {s : State K} (hs : R n seen s)
    (hstep : ∀ n seen', ∀ u ∈ s :: (m.runFrom budget seen s).states, ∀ v, R n seen' u →
      (m.settings.detectCycling = true → u.workingSet.activeIndices ∉ seen') →
      m.iterate u = .ok v → ∃ n' < n, R n' (remembered seen' u v) v) :
    (m.runFrom budget seen s).states.length ≤ n := by
  fun_induction m.runFrom budget seen s generalizing n
  case case5 hcheck t ht rest ih =>
    obtain ⟨n', hlt, hR⟩ := hstep n _ _ (.head _) t hs (by simpa using hcheck) ht
    have hrest := ih hR fun k seen' u hu => hstep k seen' u (.tail _ hu)
    exact Nat.succ_le_of_lt (hrest.trans_lt hlt)
  all_goals exact Nat.zero_le n

/-- A run is given up only after all the iterations that it may take. -/
theorem runFrom_exhausted {budget : Nat} {seen : List (List Nat)} {s last : State K}
    (h : (m.runFrom budget seen s).ending = .exhausted last) :
    (m.runFrom budget seen s).states.length = budget := by
  fun_induction m.runFrom budget seen s
  case case2 => rfl
  case case5 ih => exact congrArg (· + 1) (ih h)
  all_goals cases h

theorem runFrom_failed {budget : Nat} {seen : List (List Nat)} {s : State K} {fault : Fault K}
    (h : (m.runFrom budget seen s).ending = .failed fault) :
    ∃ u ∈ s :: (m.runFrom budget seen s).states, m.iterate u = .error fault := by
  fun_induction m.runFrom budget seen s
  case case4 hfail =>
    cases h
    exact ⟨_, .head _, hfail⟩
  case case5 ih =>
    obtain ⟨u, hu, hiterate⟩ := ih h
    exact ⟨u, .tail _ hu, hiterate⟩
  all_goals cases h

/-- A run converges at a state that came converged out of an iteration, or began so. -/
theorem runFrom_converged {budget : Nat} {seen : List (List Nat)} {s t : State K}
    (h : (m.runFrom budget seen s).ending = .converged t) : t.hasConverged = true ∧
      (t = s ∨ ∃ u ∈ s :: (m.runFrom budget seen s).states, m.iterate u = .ok t) := by
  fun_induction m.runFrom budget seen s
  case case1 hconverged =>
    cases h
    exact ⟨hconverged, .inl rfl⟩
  case case5 v hv rest ih =>
    obtain ⟨hconverged, rfl | ⟨u, hu, hiterate⟩⟩ := ih h
    · exact ⟨hconverged, .inr ⟨_, .head _, hv⟩⟩
    · exact ⟨hconverged, .inr ⟨u, .tail _ hu, hiterate⟩⟩
  all_goals cases h

theorem runFrom_last {budget : Nat} {seen : List (List Nat)} {s last : State K}
    (h : (m.runFrom budget seen s).ending.last? = some last) :
    last ∈ s :: (m.runFrom budget seen s).states := by
  fun_induction m.runFrom budget seen s
  case case4 => cases h
  case case5 ih => exact .tail _ (ih h)
  all_goals
    cases h
    exact .head _

/-- What adding to a point preserves holds of the points of a run. -/
theorem runFrom_values {P : Point K → Prop}
    (hadd : ∀ x y z, P x → Point.add x y = .ok z → P z) {budget : Nat} {seen : List (List Nat)}
    {s : State K} (hs : P s.values) :
    ∀ t ∈ s :: (m.runFrom budget seen s).states, P t.values := by
  refine runFrom_invariant (P := fun t => P t.values) budget seen hs fun u _ v hu h => ?_
  obtain ⟨p, _, hstep⟩ := step_of_iterate h
  rcases hstep.stays_or_adds with hsame | ⟨a, hsum⟩
  · rwa [hsame]
  · exact hadd _ _ _ hu hsum

theorem fills_runFrom {dims : Keyed Nat} {budget : Nat} {seen : List (List Nat)} {s : State K}
    (hs : Point.Fills dims s.values) :
    ∀ t ∈ s :: (m.runFrom budget seen s).states, Point.Fills dims t.values :=
  runFrom_values (fun _ _ _ hx hsum => hx.add hsum) hs

theorem front_runFrom {ks : List Key} {budget : Nat} {seen : List (List Nat)} {s : State K}
    (hs : ks <+: s.values.keys) :
    ∀ t ∈ s :: (m.runFrom budget seen s).states, ks <+: t.values.keys :=
  runFrom_values (P := fun x => ks <+: x.keys) (fun _ _ _ hx hsum => Point.front_add hx hsum) hs

end Runs

end Method

/-! ## Solves -/

namespace Solver

variable {K : Type} [Scalar K] {kernels : Kernels K} {s : Solver K} {leaving : LeavingRule K}
  {start : Start K} {u : State K}

theorem exists_of_initialState (h : s.initialState kernels start = .ok u) : ∃ found w,
    s.startingPoint kernels start = .ok found ∧ s.startingSet start found.point = .ok w ∧
      u = .initial found.point w := by
  simp only [initialState, bind_eq_ok, pure_eq_ok] at h
  obtain ⟨found, hfound, w, hw, hu⟩ := h
  exact ⟨found, w, hfound, hw, hu.symm⟩

theorem optimize_eq_conclude (hu : s.initialState kernels start = .ok u) :
    s.optimize kernels leaving start = s.conclude ((s.method kernels leaving).run u).ending := by
  rw [optimize, run, hu, ok_bind]
  rfl

theorem conclude_eq_ok {ending : Ending K} {solution : Solution K} :
    s.conclude ending = .ok solution ↔
      ending = .converged solution.last ∧ s.value solution.last.values = .ok solution.objective := by
  obtain ⟨objective, last⟩ := solution
  cases ending with
  | converged t =>
      rw [conclude]
      cases ht : s.value t.values <;> grind
  | exhausted | cycled | failed => simp [conclude]

theorem conclude_eq_exhausted {ending : Ending K} {last : State K} :
    s.conclude ending = .error (.exhausted last) ↔ ending = .exhausted last := by
  cases ending with
  | converged t =>
      rw [conclude]
      cases s.value t.values <;> simp
  | exhausted | cycled | failed => simp [conclude]

theorem conclude_eq_cycled {ending : Ending K} {last : State K} :
    s.conclude ending = .error (.cycled last) ↔ ending = .cycled last := by
  cases ending with
  | converged t =>
      rw [conclude]
      cases s.value t.values <;> simp
  | exhausted | cycled | failed => simp [conclude]

theorem conclude_eq_fault {ending : Ending K} {fault : Fault K}
    (h : s.conclude ending = .error (.fault fault)) :
    ending = .failed fault ∨ ∃ x, s.value x = .error fault := by
  cases ending with
  | converged t =>
      rw [conclude] at h
      split at h
      · cases h
      · cases h
        exact .inr ⟨_, ‹_›⟩
  | failed cause =>
      cases h
      exact .inl rfl
  | exhausted | cycled => cases h

theorem optimize_of_failed (hu : s.initialState kernels start = .ok u) {fault : Fault K}
    (h : ((s.method kernels leaving).run u).ending = .failed fault) :
    s.optimize kernels leaving start = .error (.fault fault) := by
  rw [optimize_eq_conclude hu, h]
  rfl

theorem optimize_eq_ok (hu : s.initialState kernels start = .ok u) {solution : Solution K}
    (h : s.optimize kernels leaving start = .ok solution) :
    ((s.method kernels leaving).run u).ending = .converged solution.last ∧
      s.value solution.last.values = .ok solution.objective := by
  rwa [optimize_eq_conclude hu, conclude_eq_ok] at h

theorem optimize_eq_fault (hu : s.initialState kernels start = .ok u) {fault : Fault K}
    (h : s.optimize kernels leaving start = .error (.fault fault)) :
    ((s.method kernels leaving).run u).ending = .failed fault ∨
      ∃ x, s.value x = .error fault := by
  rw [optimize_eq_conclude hu] at h
  exact conclude_eq_fault h

theorem optimize_eq_exhausted (hu : s.initialState kernels start = .ok u) {last : State K} :
    s.optimize kernels leaving start = .error (.exhausted last) ↔
      ((s.method kernels leaving).run u).ending = .exhausted last := by
  rw [optimize_eq_conclude hu, conclude_eq_exhausted]

theorem optimize_eq_cycled (hu : s.initialState kernels start = .ok u) {last : State K} :
    s.optimize kernels leaving start = .error (.cycled last) ↔
      ((s.method kernels leaving).run u).ending = .cycled last := by
  rw [optimize_eq_conclude hu, conclude_eq_cycled]

theorem exists_of_optimize {r : Solution K} (h : s.optimize kernels leaving start = .ok r) :
    ∃ u v, s.initialState kernels start = .ok u ∧
      v ∈ u :: ((s.method kernels leaving).run u).states ∧
      (s.method kernels leaving).iterate v = .ok r.last ∧ r.last.hasConverged = true ∧
      0 < s.settings.maxIterations ∧ s.value r.last.values = .ok r.objective := by
  cases hu : s.initialState kernels start with
  | error fault =>
      rw [optimize, run, hu] at h
      cases h
  | ok u =>
      have hfresh : u.hasConverged = false := by
        obtain ⟨_, _, _, _, rfl⟩ := exists_of_initialState hu
        rfl
      obtain ⟨hend, hobjective⟩ := optimize_eq_ok hu h
      obtain ⟨hconv, heq | ⟨v, hv, hiterate⟩⟩ := Method.runFrom_converged hend
      · rw [heq, hfresh] at hconv
        cases hconv
      · refine ⟨u, v, rfl, hv, hiterate, hconv, Nat.pos_of_ne_zero fun hzero => ?_, hobjective⟩
        rw [Method.run, show (s.method kernels leaving).settings.maxIterations = 0 from hzero,
          Method.runFrom_zero hfresh] at hend
        cases hend

theorem optimize_of_converged {t : State K} (hu : s.initialState kernels start = .ok u)
    (hfresh : u.hasConverged = false) (hbudget : 0 < s.settings.maxIterations)
    (hiterate : (s.method kernels leaving).iterate u = .ok t) (ht : t.hasConverged = true) {b : K}
    (hvalue : s.value t.values = .ok b) : s.optimize kernels leaving start = .ok ⟨b, t⟩ := by
  have hrun := Method.run_of_converged (m := s.method kernels leaving) hfresh hbudget hiterate ht
  rw [optimize_eq_conclude hu, hrun, conclude_eq_ok]
  exact ⟨rfl, hvalue⟩

section FeasibleStarts

variable {kernels : Kernels ℝ} {s : Solver ℝ} {start : Start ℝ}

theorem checkFeasibility_of_feasible {x : Point ℝ}
    (hequal : Equality.violation s.equalities x = .ok 0) (htol : 0 < s.settings.feasibilityTolerance)
    (h : ∀ f ∈ s.inequalities, f.Fits x ∧ f.value x ≤ f.bound) : s.checkFeasibility x = .ok () := by
  have hviolations : Inequality.violations s.inequalities x =
      .ok (s.inequalities.map fun f => max (f.value x - f.bound) 0) := by
    refine mapM_eq_map fun f hf => ?_
    rw [f.excess_eq_ok.2 ⟨(h f hf).1, rfl⟩, ok_bind, Scalar.larger_eq_max]
    rfl
  have hgreatest :
      Scalar.greatestFrom 0 (s.inequalities.map fun f => max (f.value x - f.bound) 0) ≤ 0 := by
    refine Scalar.greatestFrom_le le_rfl fun a ha => ?_
    obtain ⟨f, hf, rfl⟩ := List.mem_map.1 ha
    exact max_le (sub_nonpos.2 (h f hf).2) le_rfl
  have hlargest : s.largestViolation x = .ok (max 0
      (Scalar.greatestFrom 0 (s.inequalities.map fun f => max (f.value x - f.bound) 0))) := by
    rw [largestViolation, hequal, hviolations, ← Scalar.larger_eq_max]
    rfl
  rw [checkFeasibility, hlargest, ok_bind, if_neg]
  · rfl
  · exact not_lt.2 ((max_le le_rfl hgreatest).trans htol.le)

theorem initialState_of_feasible {x : Point ℝ}
    (hequal : Equality.violation s.equalities x = .ok 0) (htol : 0 < s.settings.feasibilityTolerance)
    (h : ∀ f ∈ s.inequalities, f.Fits x ∧ f.value x ≤ f.bound) {given : Point ℝ}
    (hpoint : start.point = some given) (hadd : Point.add (Point.zero s.dims) given = .ok x)
    {w : WorkingSet ℝ} (hset : s.startingSet start x = .ok w) :
    s.initialState kernels start = .ok (.initial x w) := by
  have hfound : s.startingPoint kernels start = .ok { point := x, slack := none } := by
    rw [startingPoint, hpoint]
    dsimp only
    rw [hadd, ok_bind, checkFeasibility_of_feasible hequal htol h]
    exact ite_self _
  rw [initialState, hfound, ok_bind, hset]
  rfl

end FeasibleStarts

end Solver

end ActiveSet
