import ActiveSet.Proofs.Feasibility
import ActiveSet.Proofs.Objectives

/-!
# Residuals of enforced constraints

A direction leads to where the enforced constraints hold, if there is such a point, and a step along
it multiplies their residuals by one minus its length. Steps that end at a minimiser shrink them. A
step of a linear program may have any length, and then only residuals of zero stay small.
-/

namespace ActiveSet

namespace Solver

variable {s : Solver ℝ} {u v : State ℝ} {d : Point ℝ}

/-- Some point satisfies all enforced constraints. -/
def Solvable (s : Solver ℝ) (w : WorkingSet ℝ) : Prop :=
  ∃ y, ∀ c ∈ s.working w, c.toFactor.defect y = Vec.zeros c.toFactor.rows

/--
A state whose enforced constraints some point satisfies; in a linear program its own point does.
-/
structure Settled (s : Solver ℝ) (u : State ℝ) : Prop where
  solvable : s.Solvable u.workingSet
  quadratic_or : s.objective = .quadratic ∨
    ∀ c ∈ s.working u.workingSet, c.toFactor.defect u.values = Vec.zeros c.toFactor.rows

/-- Where some point satisfies the enforced constraints, the direction cancels their defects. -/
theorem Directs.cancels {w : WorkingSet ℝ} {x : Point ℝ} (h : s.Directs w x d) (hs : s.WellFormed)
    (hw : w.factors = s.inequalities) (hsolvable : s.Solvable w) {c : Equality ℝ}
    (hc : c ∈ s.working w) :
    Vec.add (c.toFactor.values d) (c.toFactor.defect x) = Vec.zeros c.toFactor.rows := by
  obtain ⟨y, hy⟩ := hsolvable
  -- From that point to where the direction leads, the constraints change by what is left of them.
  have hleft : ∀ c ∈ s.working w,
      c.toFactor.values (Point.between s.dims y (Point.along s.dims x d 1)) =
        Vec.add (c.toFactor.values d) (c.toFactor.defect x) := by
    intro c hc
    have hover := hs.over_working hw c.toFactor (List.mem_map_of_mem hc)
    rw [Factor.values_between hover, ← Factor.sub_defect, hy c hc,
      Vec.sub_zeros (c.toFactor.length_defect _), Factor.defect_along hover, Vec.scale_one,
      Vec.add_comm']
  have hsum := h.compatible (Point.between s.dims y (Point.along s.dims x d 1))
  rw [List.map_congr_left fun c hc => by rw [hleft c hc]] at hsum
  simpa using Vec.eq_zeros_of_sum_dot_self hsum c hc

theorem Directs.exists_scale (h : s.Directs u.workingSet u.values d) (hs : s.WellFormed)
    (hw : u.workingSet.factors = s.inequalities) (hsolvable : s.Solvable u.workingSet)
    {kernels : Kernels ℝ} {leaving : LeavingRule ℝ}
    (hstep : Method.Step (s.method kernels leaving) u d v) :
    ∃ a, 0 ≤ a ∧ (s.objective = .quadratic → a ≤ 1) ∧ ∀ c ∈ s.working u.workingSet,
      c.toFactor.defect v.values = Vec.scale (1 - a) (c.toFactor.defect u.values) := by
  obtain ⟨a, hnonneg, hcap, hscale⟩ := hstep.exists_scale
  refine ⟨a, hnonneg, fun hquadratic => ?_, fun c hc => ?_⟩
  · have hone : s.cap = .at 1 := by rw [cap, hquadratic]
    simpa using hcap 1 hone
  · exact hscale c.toFactor (h.cancels hs hw hsolvable hc)

theorem Settled.shrinks (hu : s.Settled u) (hs : s.WellFormed)
    (hw : u.workingSet.factors = s.inequalities) (h : s.Directs u.workingSet u.values d)
    {kernels : Kernels ℝ} {leaving : LeavingRule ℝ}
    (hstep : Method.Step (s.method kernels leaving) u d v) :
    ∃ t, 0 ≤ t ∧ t ≤ 1 ∧ ∀ c ∈ s.working u.workingSet,
      c.toFactor.defect v.values = Vec.scale t (c.toFactor.defect u.values) := by
  obtain ⟨a, hnonneg, hle, hscale⟩ := h.exists_scale hs hw hu.solvable hstep
  rcases hu.quadratic_or with hquadratic | hzero
  · have := hle hquadratic
    exact ⟨1 - a, by linarith, by linarith, hscale⟩
  · refine ⟨1, zero_le_one, le_rfl, fun c hc => ?_⟩
    rw [hscale c hc, hzero c hc, Vec.scale_zeros, Vec.scale_zeros]

end Solver

/-! ## Within a tolerance -/

theorem Inequality.excess_of_scale {f : Inequality ℝ} {x y : Point ℝ} {t : ℝ}
    (h : f.toEquality.toFactor.defect y = Vec.scale t (f.toEquality.toFactor.defect x)) :
    f.value y - f.bound = t * (f.value x - f.bound) := by
  rw [defect_toEquality, defect_toEquality] at h
  exact List.head_eq_of_cons_eq h

/-- From a settled state no inequality comes to exceed its bound by more than a tolerance. -/
theorem Solver.Settled.excess_le {s : Solver ℝ} {u v : State ℝ} (hu : s.Settled u)
    (hs : s.WellFormed) (hw : u.workingSet.factors = s.inequalities) {d : Point ℝ}
    (hd : s.Directs u.workingSet u.values d) {kernels : Kernels ℝ} {leaving : LeavingRule ℝ}
    (h : Method.Step (s.method kernels leaving) u d v) {tol : ℝ} (htol : 0 ≤ tol) {f : Inequality ℝ}
    (hf : f ∈ u.workingSet.factors) (hle : f.value u.values - f.bound ≤ tol) :
    f.value v.values - f.bound ≤ tol := by
  obtain ⟨i, b, hi⟩ := WorkingSet.flagged_of_mem hf
  cases b with
  | false => exact (h.excess_le hi).trans (max_le hle htol)
  | true =>
      obtain ⟨t, hnonneg, hone, hscale⟩ := hu.shrinks hs hw hd h
      have hactive := hscale f.toEquality (Solver.mem_working.2 (.inr ⟨_, hi, rfl⟩))
      rw [Inequality.excess_of_scale hactive]
      exact (mul_le_mul_of_nonneg_left hle hnonneg).trans (mul_le_of_le_one_left htol hone)

namespace Problem.FeasibleWithin

variable {p : Problem ℝ} {s : Solver ℝ} {settings : Settings ℝ} {kernels : Kernels ℝ}
  {leaving : LeavingRule ℝ} {u v : State ℝ} {tol : ℝ}

theorem step (hu : p.FeasibleWithin tol u.values) (hw : u.workingSet.factors = p.inequalities)
    (htol : 0 ≤ tol) (hs : s.MadeFrom settings p) (hsettled : s.Settled u) {d : Point ℝ}
    (hd : s.Directs u.workingSet u.values d) (h : Method.Step (s.method kernels leaving) u d v) :
    p.FeasibleWithin tol v.values := by
  obtain ⟨hequal, hineq⟩ := hs.fits_of_step hd.spans h
  obtain ⟨t, hnonneg, hle, hscale⟩ := hsettled.shrinks hs.wellFormed
    (hw.trans hs.inequalities_eq.symm) hd h
  refine ⟨fun f hf => ?_, fun f hf => ?_⟩
  · obtain ⟨hfits, hall⟩ := Equality.holds_within_iff.1 (hu.equalities f hf)
    refine Equality.holds_within_iff.2 ⟨hequal f hf hfits, fun a ha => ?_⟩
    rw [hscale f (Solver.mem_working.2 (.inl (hs.equalities_eq ▸ hf)))] at ha
    obtain ⟨b, hb, rfl⟩ := List.mem_map.1 ha
    rw [abs_mul, abs_of_nonneg hnonneg]
    exact (mul_le_of_le_one_left (abs_nonneg b) hle).trans (hall b hb)
  · obtain ⟨hfits, hexcess⟩ := Inequality.holds_iff.1 (hu.inequalities f hf)
    exact Inequality.holds_iff.2 ⟨hineq f hf hfits, hsettled.excess_le hs.wellFormed
      (hw.trans hs.inequalities_eq.symm) hd h htol (hw.symm ▸ hf) hexcess⟩

/-- On a run of settled states no constraint is ever violated by more than at the start. -/
theorem runFrom (hu : p.FeasibleWithin tol u.values) (hw : u.workingSet.factors = p.inequalities)
    (htol : 0 ≤ tol) (hk : kernels.ExactLeastSquares) (hs : s.MadeFrom settings p) {budget : Nat}
    {seen : List (List Nat)}
    (hsettled : ∀ v ∈ u :: ((s.method kernels leaving).runFrom budget seen u).states, s.Settled v) :
    ∀ v ∈ u :: ((s.method kernels leaving).runFrom budget seen u).states,
      p.FeasibleWithin tol v.values := by
  have hall : ∀ v ∈ u :: ((s.method kernels leaving).runFrom budget seen u).states,
      v.workingSet.factors = p.inequalities ∧ p.FeasibleWithin tol v.values := by
    -- Directions are known only where the working set is over the inequalities of the program.
    refine Method.runFrom_invariant budget seen ⟨hw, hu⟩ fun v hv t ht h => ?_
    obtain ⟨hfactors, hfeas⟩ := ht
    obtain ⟨d, hd, hstep⟩ := Method.step_of_iterate h
    have hdirects := Solver.directs_of_direction hk hs.wellFormed
      (hfactors.trans hs.inequalities_eq.symm) hd
    exact ⟨hstep.factors_eq.trans hfactors,
      hfeas.step hfactors htol hs (hsettled v hv) hdirects hstep⟩
  exact fun v hv => (hall v hv).2

end Problem.FeasibleWithin

theorem Problem.OnFace.settled {p : Problem ℝ} {s : Solver ℝ} {settings : Settings ℝ} {u : State ℝ}
    (hu : p.OnFace u) (hs : s.MadeFrom settings p) : s.Settled u :=
  ⟨⟨u.values, fun _ hc => (hu.holds hs hc).2⟩, .inr fun _ hc => (hu.holds hs hc).2⟩

end ActiveSet
