import ActiveSet.Proofs.Independence
import ActiveSet.Proofs.Objectives
import ActiveSet.Proofs.Starts

/-!
# Optimality at the end of a run

Where the direction is zero and the multipliers are unique, the enforced constraints hold exactly and
the slope of the objective is made of theirs. Multipliers of one sign then leave no better point.
-/

namespace ActiveSet

namespace Solver

variable {p : Problem ℝ} {s : Solver ℝ} {settings : Settings ℝ} {w : WorkingSet ℝ}
  {x d duals : Point ℝ}

/-! ## Where the direction is zero -/

/-- Independent constraints that leave a direction of zero hold exactly. -/
theorem Directs.tight (h : s.Directs w x d) (hzero : Point.norm d = 0) (hind : s.Independent w)
    (hn : ((s.working w).map (·.dual)).Nodup) {c : Equality ℝ} (hc : c ∈ s.working w)
    (hne : c.terms.entries ≠ []) : c.toFactor.defect x = Vec.zeros c.toFactor.rows := by
  -- The defects combine the constraints to zero, for the misfit cannot be lowered.
  obtain ⟨ν, hν⟩ := exists_parts hn fun c => c.toFactor.defect x
  have hvanish : ∀ z, ((s.working w).map fun c =>
      Vec.dot (c.toFactor.values z) (ν.part c.dual)).sum = 0 := by
    intro z
    rw [← h.compatible z]
    congr 1
    refine List.map_congr_left fun c hc => ?_
    rw [hν c hc, Factor.values_eq_zeros_of_norm hzero, Vec.zeros_add (c.toFactor.length_defect x)]
  have := hind ν hvanish c hc hne
  rwa [hν c hc, Vec.fit_eq_self (c.toFactor.length_defect x)] at this

/-- Towards a feasible point no enforced constraint adds a negative part to the slope. -/
private theorem part_nonneg (hs : s.MadeFrom settings p) (hw : w.factors = s.inequalities)
    (htight : ∀ c ∈ s.working w, c.terms.entries ≠ [] →
      c.toFactor.defect x = Vec.zeros c.toFactor.rows)
    (hsign : ∀ e ∈ w.flagged true, ∃ a, Point.multiplier duals e.1.dual = .ok a ∧ a ≤ 0)
    {y : Point ℝ} (hy : p.FeasibleWithin 0 y) {c : Equality ℝ} (hc : c ∈ s.working w) :
    0 ≤ Vec.dot (c.toFactor.values (Point.between s.dims x y)) (duals.part c.dual) := by
  have hover := hs.wellFormed.over_working hw c.toFactor (List.mem_map_of_mem hc)
  by_cases hne : c.terms.entries = []
  · rw [Factor.values_eq_zeros_of_nil hne, Vec.dot_zeros_left]
  · have hx := htight c hc hne
    rw [Factor.values_between hover, ← Factor.sub_defect, hx]
    rcases mem_working.1 hc with hc | ⟨e, he, rfl⟩
    · rw [hs.equalities_eq] at hc
      rw [(Equality.holds_iff.1 (hy.equalities c hc)).2, Vec.sub_self_eq_zeros, Vec.dot_zeros_left]
    · obtain ⟨a, ha, hle⟩ := hsign e he
      obtain ⟨rest, hlookup⟩ := LeavingRule.multiplier_eq_ok.1 ha
      have hmem := WorkingSet.mem_factors_of_flagged he
      rw [hw, hs.inequalities_eq] at hmem
      obtain ⟨_, hval⟩ := Inequality.holds_iff.1 (hy.inequalities e.1 hmem)
      rw [Inequality.dual_toEquality, Point.part_of_lookup hlookup, Inequality.defect_toEquality,
        Inequality.rows_toEquality, Vec.sub_zeros (n := 1) rfl, Vec.dot_cons, Vec.dot_nil_left,
        add_zero]
      exact mul_nonneg_of_nonpos_of_nonpos hval hle

/--
A point with a direction of zero, unique multipliers and none that is positive has an objective at
most that of any feasible point.
-/
theorem value_le_of_multiplies (hs : s.MadeFrom settings p) (hw : w.factors = s.inequalities)
    (hn : ((s.working w).map (·.dual)).Nodup) (hdir : s.Directs w x d) (hzero : Point.norm d = 0)
    (hmult : s.Multiplies w x duals)
    (hsign : ∀ e ∈ w.flagged true, ∃ a, Point.multiplier duals e.1.dual = .ok a ∧ a ≤ 0)
    {a b : ℝ} (hx : s.value x = .ok a) {y : Point ℝ} (hy : p.FeasibleWithin 0 y)
    (hb : s.value y = .ok b) : a ≤ b := by
  have htight := fun c hc => hdir.tight (c := c) hzero hmult.independent hn hc
  have hslope := hmult.represents (fun z hz => hdir.slope_eq_zero hzero hz)
    (Point.between s.dims x y)
  have hnonneg : 0 ≤ s.slope x (Point.between s.dims x y) := by
    rw [hslope]
    refine List.sum_nonneg fun q hq => ?_
    obtain ⟨c, hc, rfl⟩ := List.mem_map.1 hq
    exact part_nonneg hs hw htight hsign hy hc
  linarith [value_add_slope_le hs.wellFormed hx hb]

end Solver

/-! ## What a run keeps -/

namespace Problem

/-- Constraints without any key, which no point can violate less, are within the tolerance. -/
structure EmptyWithin (p : Problem ℝ) (tol : ℝ) : Prop where
  equalities : ∀ f ∈ p.equalities, f.terms.entries = [] → ∀ x, ∀ a ∈ f.toFactor.defect x, |a| ≤ tol
  inequalities : ∀ f ∈ p.inequalities, f.terms.entries = [] → ∀ x, f.value x - f.bound ≤ tol

/--
A state over the inequalities of the program whose inactive inequalities are within the tolerance;
active ones may be slack or violated by any amount.
-/
structure Tracked (p : Problem ℝ) (tol : ℝ) (u : State ℝ) : Prop where
  factors_eq : u.workingSet.factors = p.inequalities
  equalities_fit : ∀ f ∈ p.equalities, f.toFactor.Fits u.values
  inequalities_fit : ∀ f ∈ p.inequalities, f.Fits u.values
  inactive : ∀ e ∈ u.workingSet.flagged false, e.1.value u.values - e.1.bound ≤ tol

variable {p : Problem ℝ} {tol : ℝ}

private theorem value_of_nil {f : Inequality ℝ} (hf : f.terms.entries = []) (x : Point ℝ) :
    f.value x = 0 := by
  rw [Inequality.value, hf, List.map_nil, List.sum_nil]

theorem FeasibleWithin.emptyWithin {x : Point ℝ} (h : p.FeasibleWithin tol x) :
    p.EmptyWithin tol := by
  refine ⟨fun f hf hnil y a ha => ?_, fun f hf hnil y => ?_⟩
  · obtain ⟨r, hr, hall⟩ := h.equalities f hf
    obtain ⟨_, rfl⟩ := f.toFactor.residual_eq_ok.1 hr
    refine hall a ?_
    rwa [Factor.defect, Factor.values_eq_zeros_of_nil hnil] at ha ⊢
  · obtain ⟨_, hle⟩ := Inequality.holds_iff.1 (h.inequalities f hf)
    rwa [value_of_nil hnil] at hle ⊢

theorem FeasibleWithin.tracked {u : State ℝ} (h : p.FeasibleWithin tol u.values)
    (hu : u.workingSet.factors = p.inequalities) : p.Tracked tol u where
  factors_eq := hu
  equalities_fit := fun f hf => by
    obtain ⟨r, hr, _⟩ := h.equalities f hf
    exact (f.toFactor.residual_eq_ok.1 hr).1
  inequalities_fit := fun f hf => (Inequality.holds_iff.1 (h.inequalities f hf)).1
  inactive := fun e he => (Inequality.holds_iff.1 (h.inequalities e.1
    (hu ▸ WorkingSet.mem_factors_of_flagged he))).2

variable {s : Solver ℝ} {settings : Settings ℝ} {kernels : Kernels ℝ} {u v : State ℝ} {d : Point ℝ}

theorem Tracked.feasibleWithin (hu : p.Tracked tol u) (hempty : p.EmptyWithin tol) (htol : 0 ≤ tol)
    (hs : s.MadeFrom settings p) (hd : p.DistinctDuals)
    (hdir : s.Directs u.workingSet u.values d) (hzero : Point.norm d = 0)
    (hind : s.Independent u.workingSet) : p.FeasibleWithin tol u.values := by
  have hw := hu.factors_eq.trans hs.inequalities_eq.symm
  have htight := fun c hc => hdir.tight (c := c) hzero hind (hd.working hs hw) hc
  refine ⟨fun f hf => ?_, fun f hf => Inequality.holds_iff.2 ⟨hu.inequalities_fit f hf, ?_⟩⟩
  · refine ⟨_, f.toFactor.residual_eq_ok.2 ⟨hu.equalities_fit f hf, rfl⟩, fun a ha => ?_⟩
    by_cases hnil : f.terms.entries = []
    · exact hempty.equalities f hf hnil _ a ha
    · rw [htight f (Solver.mem_working.2 (.inl (hs.equalities_eq ▸ hf))) hnil] at ha
      rw [List.eq_of_mem_replicate ha]
      simpa using htol
  · by_cases hnil : f.terms.entries = []
    · exact hempty.inequalities f hf hnil _
    · obtain ⟨i, b, hi⟩ := WorkingSet.flagged_of_mem (hu.factors_eq.symm ▸ hf)
      cases b with
      | false => exact hu.inactive _ hi
      | true =>
          have hzero := htight f.toEquality (Solver.mem_working.2 (.inr ⟨_, hi, rfl⟩))
            (by simpa [Inequality.toEquality, Keyed.map] using hnil)
          have hexcess := Inequality.tight_iff.2
            ⟨Inequality.fits_toEquality.2 (hu.inequalities_fit f hf), hzero⟩
          rw [← (f.excess_eq_ok.1 hexcess).2]
          exact htol

theorem Tracked.step (hu : p.Tracked tol u) (hempty : p.EmptyWithin tol) (htol : 0 ≤ tol)
    (hk : kernels.ExactLeastSquares) (hs : s.MadeFrom settings p) (hd : p.DistinctDuals)
    {leaving : LeavingRule ℝ} (hdir : s.Directs u.workingSet u.values d)
    (hzero : Point.norm d ≤ settings.tolerance → Point.norm d = 0)
    (h : Method.Step (s.method kernels leaving) u d v) : p.Tracked tol v := by
  have hw := hu.factors_eq.trans hs.inequalities_eq.symm
  obtain ⟨hequal, hineq⟩ := hs.fits_of_step hdir.spans h
  refine ⟨h.factors_eq.trans hu.factors_eq, fun f hf => hequal f hf (hu.equalities_fit f hf),
    fun f hf => hineq f hf (hu.inequalities_fit f hf), fun e he => ?_⟩
  · rcases h.flagged_false he with he | ⟨he, hvalues, hsmall, duals, hduals⟩
    · exact (h.excess_le he).trans (max_le (hu.inactive e he) htol)
    · have hmult := Solver.multiplies_of_multipliers hk hs.wellFormed hw (hd.working hs hw) hduals
      have hnorm : Point.norm d = 0 := hzero (hs.settings_eq ▸ hsmall)
      have hfeas := hu.feasibleWithin hempty htol hs hd hdir hnorm hmult.independent
      rw [hvalues]
      exact (Inequality.holds_iff.1 (hfeas.inequalities e.1
        (hu.factors_eq ▸ WorkingSet.mem_factors_of_flagged he))).2

/-- On a run where every direction that counts as zero is zero, all states are tracked. -/
theorem Tracked.runFrom (hu : p.Tracked tol u) (hempty : p.EmptyWithin tol) (htol : 0 ≤ tol)
    (hk : kernels.ExactLeastSquares) (hs : s.MadeFrom settings p) (hd : p.DistinctDuals)
    {leaving : LeavingRule ℝ} {budget : Nat} {seen : List (List Nat)}
    (hzero : ∀ v ∈ u :: ((s.method kernels leaving).runFrom budget seen u).states, ∀ d,
      s.direction kernels v.workingSet v.values = .ok d → Point.norm d ≤ settings.tolerance →
        Point.norm d = 0) :
    ∀ v ∈ u :: ((s.method kernels leaving).runFrom budget seen u).states, p.Tracked tol v := by
  refine Method.runFrom_invariant budget seen hu fun v hv t ht h => ?_
  obtain ⟨d, hdir, hstep⟩ := Method.step_of_iterate h
  have hdirects := Solver.directs_of_direction hk hs.wellFormed
    (ht.factors_eq.trans hs.inequalities_eq.symm) hdir
  exact ht.step hempty htol hk hs hd hdirects (hzero v hv d hdir) hstep

end Problem

/--
A solve that returns, and on whose run every direction that counted as zero was zero, returns a point
within the feasibility tolerance whose objective is at most that of every feasible point.
-/
theorem Solver.optimize_optimal {kernels : Kernels ℝ} (hk : kernels.ExactLeastSquares)
    (hlp : kernels.ExactLinearProgram) {settings : Settings ℝ} {p : Problem ℝ} {s : Solver ℝ}
    (hs : Solver.ofProblem settings p = .ok s) (htol : 0 < settings.feasibilityTolerance)
    (hd : p.DistinctDuals) {start : Start ℝ} (hstart : start.Admissible s) {u : State ℝ}
    (hu : s.initialState kernels start = .ok u)
    (hzero : ∀ v ∈ u :: ((s.method kernels .largestMultiplier).run u).states, ∀ d,
      s.direction kernels v.workingSet v.values = .ok d → Point.norm d ≤ settings.tolerance →
        Point.norm d = 0)
    {solution : Solution ℝ} (h : s.optimize kernels .largestMultiplier start = .ok solution) :
    p.FeasibleWithin settings.feasibilityTolerance solution.last.values ∧
      p.objective solution.last.values = .ok solution.objective ∧
      ∀ y b, p.FeasibleWithin 0 y → p.objective y = .ok b → solution.objective ≤ b := by
  have hmade := Solver.madeFrom_ofProblem hs
  obtain ⟨hfactors, hfresh, hfeas⟩ := initialState_eq_ok hlp hmade htol.le hstart hu
  have hempty := hfeas.emptyWithin
  have hall := (hfeas.tracked hfactors).runFrom hempty htol.le hk hmade hd hzero
  obtain ⟨hend, hobjective⟩ := optimize_eq_ok hu h
  obtain ⟨hconv, heq | ⟨v, hv, hiter⟩⟩ := Method.runFrom_converged hend
  · rw [heq, hfresh] at hconv
    cases hconv
  · obtain ⟨d, hdir, hstep⟩ := Method.step_of_iterate hiter
    obtain ⟨hvalues, _, hsmall, duals, hduals, hstay⟩ := hstep.converged hconv
    have hv' := hall v hv
    have hw := hv'.factors_eq.trans hmade.inequalities_eq.symm
    have hn := hd.working hmade hw
    have hdirv := directs_of_direction hk hmade.wellFormed hw hdir
    have hnorm := hzero v hv d hdir (hmade.settings_eq ▸ hsmall)
    have hmult := multiplies_of_multipliers hk hmade.wellFormed hw hn hduals
    have hsign := fun e he => LeavingRule.largestMultiplier_eq_none (e := e) hstay he
    rw [hvalues] at hobjective ⊢
    refine ⟨hv'.feasibleWithin hempty htol.le hmade hd hdirv hnorm hmult.independent,
      hmade.value_eq _ ▸ hobjective, fun y b hy hb => ?_⟩
    rw [← hmade.value_eq] at hb
    exact value_le_of_multiplies hmade hw hn hdirv hnorm hmult hsign hobjective hy hb

namespace OneVariable

/-- The run goes from zero up to the bound three, which is the nearest to five. -/
theorem optimize_optimal_nearest : ∃ v w objective,
    ((nearestSolver settings 5 3).method .exact .largestMultiplier).run (below 3 0) =
      ⟨[v, w], .converged w⟩ ∧ v.hasMoved = true ∧
    (nearestSolver settings 5 3).optimize .exact .largestMultiplier (startBelow 3 0) =
      .ok ⟨objective, w⟩ ∧
    (nearest 5 3).FeasibleWithin 1e-6 w.values ∧
    ∀ y b, (nearest 5 3).FeasibleWithin 0 y → (nearest 5 3).objective y = .ok b → objective ≤ b := by
  obtain ⟨v, w, objective, hrun, hmoved, hv, hw, hsolve⟩ := optimize_below_zero
  have hzero := norm_direction_run (show (0 : ℝ) < 5 by norm_num)
    (tolerance_lt_one.trans (by norm_num)) hv hw
  have hstart : (startBelow 3 0).Admissible (nearestSolver settings 5 3) := by
    refine ⟨fun given x hgiven hx => ?_, fun h => absurd h (Option.some_ne_none _), fun w hw => ?_⟩
    · obtain rfl := Option.some.inj hgiven
      obtain rfl := Except.ok.inj ((add_zero_point 0).symm.trans hx)
      exact checkFeasibility_below feasibilityTolerance_pos 5 (by norm_num)
    · rw [← Option.some.inj hw]
      rfl
  obtain ⟨hfeas, _, hbest⟩ := Solver.optimize_optimal Kernels.exact_leastSquares
    Kernels.exact_linearProgram (ofProblem_nearest settings 5 3) feasibilityTolerance_pos
    (List.nodup_singleton _) hstart (initialState_below feasibilityTolerance_pos 5 (by norm_num))
    (hrun ▸ hzero) hsolve
  exact ⟨v, w, objective, hrun, hmoved, hsolve, hfeas, hbest⟩

end OneVariable

end ActiveSet
