import ActiveSet.Proofs.Descent
import ActiveSet.Proofs.MatrixPrograms

/-!
# A parabola below a bound

The least `½x² - t x` with `x ≤ b`, as a program by matrices. With its target `t` behind the bound a
solve from below goes up to the bound and ends there, with the multiplier `b - t`.
-/

namespace ActiveSet.Dense.Parabola

def point (x : ℝ) : Point ℝ := Keyed.ofList [(variableKey, [x])]

theorem part_point (x : ℝ) : (point x).part variableKey = [x] := rfl

theorem norm_point (x : ℝ) : Point.norm (point x) = |x| := Point.norm_singleton variableKey x

theorem exists_point {d : Point ℝ} (h : Graph.Spans d [(variableKey, 1)]) : ∃ x, d = point x := by
  obtain ⟨v, hlen, rfl⟩ := h.exists_ofList Nat.one_ne_zero
  obtain ⟨x, rfl⟩ := List.length_eq_one_iff.1 hlen
  exact ⟨x, rfl⟩

/-! ## The form -/

def curvature : Matrix ℝ := .ofRow [1]

theorem mulVec_curvature (x : ℝ) : curvature.symmetrized.mulVec [x] = [x] := by
  have hhalf : (0.5 : ℝ) * (1 + 1) = 1 := by norm_num
  suffices (0.5 : ℝ) * (1 + 1) * x = x by
    simpa [Matrix.mulVec, Matrix.symmetrized, curvature, Matrix.ofRow] using this
  rw [hhalf, one_mul]

theorem eigenvalue_curvature {μ : ℝ} (h : curvature.symmetrized.Eigenvalue μ) : μ = 1 := by
  obtain ⟨v, hlen, hne, hv⟩ := h
  obtain ⟨x, rfl⟩ := List.length_eq_one_iff.1 hlen
  rw [mulVec_curvature] at hv
  have hx : x ≠ 0 := fun hx => hne (by rw [hx]; rfl)
  have hscale : μ * x = 1 * x := by rw [one_mul]; exact (List.cons.inj hv).1.symm
  exact mul_right_cancel₀ hx hscale

theorem exact_curvature (t : ℝ) : CostFactor.Exact curvature.symmetrized [-t] 1e-10 where
  clear := by
    intro μ hμ
    refine .inr ⟨?_, fun ν hν => ?_⟩
    · rw [eigenvalue_curvature hμ]
      norm_num
    · rw [eigenvalue_curvature hμ, eigenvalue_curvature hν]
      norm_num
  range := ⟨[-t], rfl, mulVec_curvature (-t)⟩

/-! ## The program -/

noncomputable def program (t b : ℝ) : Program ℝ where
  n := 1
  c := [-t]
  hessian := some curvature
  equal := ⟨none, none⟩
  atMost := ⟨none, none⟩
  lower := [none]
  upper := [some b]

theorem shaped_program (t b : ℝ) : (program t b).Shaped where
  length_c := rfl
  hessian := by
    intro P hP
    obtain rfl := Option.some.inj hP
    exact ⟨rfl, rfl⟩
  equal := fun _ h => nomatch h

theorem exact_program {t b : ℝ} (P : Matrix ℝ) (hP : (program t b).hessian = some P) :
    CostFactor.Exact P.symmetrized (program t b).c 1e-10 := by
  obtain rfl := Option.some.inj hP
  exact exact_curvature t

noncomputable def ceiling (b : ℝ) : Inequality ℝ where
  terms := Keyed.ofList [(variableKey, Vec.unit 1 0)]
  bound := b
  dual := .dual "upper" 0

theorem value_ceiling (b x : ℝ) : (ceiling b).value (point x) = x := by
  rw [Inequality.value_of_singleton rfl, part_point]
  simp [Vec.unit]

theorem fits_ceiling (b x : ℝ) : (ceiling b).Fits (point x) :=
  Inequality.fits_of_singleton (a := Vec.unit 1 0) (v := [x]) rfl rfl rfl

/-- Rows of one entry with their right-hand sides. -/
structure Squares where
  rows : List (List ℝ)
  rhs : List ℝ
  rect : ∀ row ∈ rows, row.length = 1
  length_eq : rows.length = rhs.length

def Squares.factor (c : Squares) : Factor ℝ where
  terms := Keyed.ofList [(variableKey, ⟨1, c.rows, c.rect⟩)]
  b := c.rhs
  rows_eq := List.forall_mem_singleton.2 c.length_eq

theorem Squares.fits_factor (c : Squares) (x : ℝ) : c.factor.Fits (point x) :=
  Factor.fits_of_singleton (k := variableKey) (v := [x]) rfl rfl rfl

noncomputable def problem (c : Squares) (b : ℝ) : Problem ℝ :=
  .make (.quadratic [c.factor]) [] [ceiling b]

/-- Which squares the kernel leads to does not matter here. -/
theorem exists_problem (t b : ℝ) :
    ∃ c, (program t b).problem .spectral = .ok (problem c b) := by
  obtain ⟨f, hf⟩ := Program.exists_squares (p := program t b) Kernels.spectral_eigenpairs rfl rfl
    (exact_curvature t)
  obtain ⟨A, hentries, hcols⟩ := Program.cols_squares (p := program t b) rfl rfl hf
  obtain ⟨⟨entries, nodup⟩, rhs, hrows⟩ := f
  obtain ⟨cols, rows, rect⟩ := A
  dsimp only at hentries hcols
  subst hentries hcols
  let c : Squares := ⟨rows, rhs, rect, hrows _ (List.mem_singleton_self _)⟩
  have hcost : (program t b).cost .spectral = .ok (.quadratic [c.factor]) := by
    change ((program t b).squares .spectral curvature >>= fun f => pure (Cost.quadratic [f])) = _
    rw [hf]
    rfl
  refine ⟨c, ?_⟩
  rw [Program.problem, hcost]
  rfl

section Solves

variable (settings : Settings ℝ) (c : Squares) (b : ℝ)

noncomputable def solver : Solver ℝ where
  settings := settings
  objective := .quadratic
  cost := [c.factor]
  equalities := []
  inequalities := [ceiling b]
  costIndex := .ofKeys [[variableKey]]
  equalityIndex := .ofKeys []
  inequalityIndex := .ofKeys [[variableKey]]
  constrainedKeys := [variableKey]
  dims := Keyed.ofList [(variableKey, 1)]
  ordering := [variableKey]

/-- The bound is enforced. -/
noncomputable def enforced : WorkingSet ℝ := OneVariable.firstEnforced (ceiling b) []

theorem ofProblem_problem : Solver.ofProblem settings (problem c b) =
    .ok (solver settings c b) := rfl

theorem madeFrom_problem : (solver settings c b).MadeFrom settings
    (problem c b) :=
  Solver.madeFrom_ofProblem (ofProblem_problem settings c b)

/-- At the bound the direction is zero. -/
theorem direction_enforced : (solver settings c b).direction .spectral
    (enforced b) (point b) = .ok (point 0) := by
  obtain ⟨d, hd, hdirects⟩ := Solver.exists_direction Kernels.spectral_leastSquares
    (madeFrom_problem settings c b).wellFormed (w := enforced b) (x := point b) rfl
    (List.forall_mem_singleton.2 (c.fits_factor b))
    (List.forall_mem_singleton.2 (Inequality.fits_toEquality.2 (fits_ceiling b b)))
  obtain ⟨x, rfl⟩ := exists_point hdirects.spans
  have hcompatible := hdirects.compatible (point 1)
  change ([(ceiling b).toEquality].map _).sum = 0 at hcompatible
  rw [List.map_singleton, List.sum_singleton, Inequality.dot_toEquality] at hcompatible
  simp only [value_ceiling] at hcompatible
  have hx : x = 0 := by
    change 1 * (x + (b - b)) = 0 at hcompatible
    linarith
  rw [hd, hx]

theorem slope_point {t : ℝ} (hq : (program t b).problem .spectral = .ok (problem c b)) (x : ℝ) :
    (solver settings c b).slope (point x) (point 1) = x - t := by
  rw [Program.slope_eq Kernels.spectral_eigenpairs (shaped_program t b) exact_program hq
    (ofProblem_problem settings c b) rfl]
  change Vec.dot [1] (Vec.add (curvature.symmetrized.mulVec [x]) [-t]) = x - t
  rw [mulVec_curvature]
  simp [Vec.add, sub_eq_add_neg]

/-- With the bound not enforced the direction leads to the target. -/
theorem direction_inactive {t : ℝ} (hq : (program t b).problem .spectral = .ok (problem c b))
    (x : ℝ) : (solver settings c b).direction .spectral (.inactive [ceiling b]) (point x) =
      .ok (point (t - x)) := by
  obtain ⟨d, hd, hdirects⟩ := Solver.exists_direction Kernels.spectral_leastSquares
    (madeFrom_problem settings c b).wellFormed (w := .inactive [ceiling b]) (x := point x) rfl
    (List.forall_mem_singleton.2 (c.fits_factor x)) (List.forall_mem_nil _)
  obtain ⟨e, rfl⟩ := exists_point hdirects.spans
  have hadd : Point.add (point x) (Point.scale 1 (point e)) = .ok (point (x + 1 * e)) :=
    Point.add_scale_singleton ..
  -- A full step along the direction ends where the slope is zero.
  have hslope := Solver.slope_step (s := solver settings c b) hadd (point 1)
  have hstationary := hdirects.stationary (point 1) (List.forall_mem_nil _)
  change (solver settings c b).bend (point 1) (point e) + _ = 0 at hstationary
  rw [slope_point settings c b hq, slope_point settings c b hq] at hslope
  rw [slope_point settings c b hq] at hstationary
  rw [hd]
  congr 2
  linarith

private theorem sum_working (z : ℝ) (ν : Point ℝ) :
    (((solver settings c b).working (enforced b)).map fun c =>
      Vec.dot (c.toFactor.values (point z)) (ν.part c.dual)).sum =
        z * (ν.part (ceiling b).dual).headD 0 := by
  change ([(ceiling b).toEquality].map _).sum = _
  rw [List.map_singleton, List.sum_singleton, Inequality.values_toEquality, value_ceiling,
    Vec.dot_singleton, Inequality.dual_toEquality]

theorem multipliers_enforced {t : ℝ}
    (hq : (program t b).problem .spectral = .ok (problem c b)) :
    ∃ duals, (solver settings c b).multipliers .spectral (enforced b)
        (point b) = .ok duals ∧ Point.multiplier duals (ceiling b).dual = .ok (b - t) := by
  have hmade := madeFrom_problem settings c b
  have hind : (solver settings c b).Independent (enforced b) := by
    intro ν hν
    refine List.forall_mem_singleton.2 fun _ => ?_
    have hone := hν (point 1)
    rw [sum_working, one_mul] at hone
    rw [Inequality.rows_toEquality, Inequality.dual_toEquality, Vec.fit_one, hone]
    rfl
  obtain ⟨g, hg⟩ : ∃ g, (solver settings c b).dualGraph (enforced b)
      (point b) = .ok g := ⟨_, rfl⟩
  have hn : (((solver settings c b).working (enforced b)).map (·.dual)).Nodup :=
    List.nodup_singleton _
  obtain ⟨duals, hduals, hmult⟩ := Solver.exists_multipliers Kernels.spectral_leastSquares
    hmade.wellFormed rfl hn hind hg
  have hdirects := Solver.directs_of_direction Kernels.spectral_leastSquares hmade.wellFormed rfl
    (direction_enforced settings c b)
  have hslope := slope_point settings c b hq b
  rw [hmult.represents fun z hz => hdirects.slope_eq_zero ((norm_point 0).trans abs_zero) hz,
    sum_working, one_mul] at hslope
  rw [← hslope]
  exact ⟨duals, hduals, hmult.multiplier (.head _) (List.cons_ne_nil _ _) Nat.one_pos⟩

/-- At the bound the run ends. -/
theorem iterate_enforced (htol : 0 ≤ settings.tolerance) {t : ℝ} (hbt : b ≤ t)
    (hq : (program t b).problem .spectral = .ok (problem c b)) : ∃ v,
    ((solver settings c b).method .spectral .largestMultiplier).iterate
      (.initial (point b) (enforced b)) = .ok v ∧
        v.Agrees (.initial (point b) (enforced b)) ∧ v.hasConverged = true := by
  obtain ⟨duals, hduals, hmultiplier⟩ := multipliers_enforced settings c b hq
  have hstay : LeavingRule.largestMultiplier (enforced b) duals = .ok none :=
    LeavingRule.largestMultiplier_ok_none (List.forall_mem_singleton.2
      ⟨_, hmultiplier, sub_nonpos.2 hbt⟩)
  have hsmall : Point.norm (point 0) ≤ settings.tolerance := by
    rwa [norm_point, abs_zero]
  have hiterate := Method.iterate_converge
    (m := (solver settings c b).method .spectral .largestMultiplier)
    (s := .initial (point b) (enforced b)) (direction_enforced settings c b) hsmall hduals hstay
  exact ⟨_, hiterate, ⟨rfl, rfl⟩, rfl⟩

theorem initialState_below (hfeasible : 0 < settings.feasibilityTolerance) {x : ℝ}
    (hfar : settings.activeTolerance < b - x) (hx : x ≤ b) :
    (solver settings c b).initialState .spectral { point := some (point x) } =
      .ok (.initial (point x) (.inactive [ceiling b])) := by
  have hadd : Point.add (Point.zero (solver settings c b).dims) (point x) = .ok (point x) := by
    change Except.ok (point (0 + 1 * x)) = _
    rw [zero_add, one_mul]
  have hseed : WorkingSet.seed [ceiling b] (point x) none settings.activeTolerance =
      .ok (.inactive [ceiling b]) := by
    refine OneVariable.seed_inactive (List.forall_mem_singleton.2 ⟨fits_ceiling b x, ?_⟩)
    rw [value_ceiling, abs_sub_comm]
    exact hfar.trans_le (le_abs_self _)
  refine Solver.initialState_of_feasible rfl hfeasible ?_ rfl hadd hseed
  exact List.forall_mem_singleton.2 ⟨fits_ceiling b x, (value_ceiling b x).trans_le hx⟩

/-- Started below the bound, the solve goes up to it and ends there. -/
theorem solve_below (htol : 0 ≤ settings.tolerance)
    (hfeasible : 0 < settings.feasibilityTolerance) (hbudget : 1 < settings.maxIterations)
    {t x : ℝ} (hx : x < b) (hbt : b < t) (hfar : settings.tolerance < t - x)
    (hslack : settings.activeTolerance < b - x) :
    ∃ r, (program t b).solve .spectral settings (some ⟨[1], [x]⟩) = .ok r ∧ r.status = .optimal ∧
      r.x = point b ∧ r.workingSet = some (enforced b) ∧ r.iterations = 2 := by
  obtain ⟨c, hq⟩ := exists_problem t b
  obtain ⟨v, hv, halpha, hbound, hgoes⟩ := OneVariable.iterate_blocked
    (m := (solver settings c b).method .spectral .largestMultiplier) (w := .inactive [ceiling b])
    (u := enforced b) (f := ceiling b) (k := variableKey) rfl rfl rfl hx.le hbt
    (direction_inactive settings c b hq x) (List.forall_mem_nil _) rfl hfar
  obtain ⟨w, hw, hagrees, hconv⟩ := iterate_enforced settings c b htol hbt.le hq
  have hmoved : v.hasMoved = true :=
    State.hasMoved_iff.2 ⟨_, halpha, div_pos (sub_pos.2 hx) (sub_pos.2 (hx.trans hbt))⟩
  obtain ⟨last, hrun, hlast, hcount⟩ := Method.run_of_step
    (m := (solver settings c b).method .spectral .largestMultiplier)
    (s := .initial (point x) (.inactive [ceiling b])) rfl hbudget hv hgoes hmoved hbound hw hconv
  obtain ⟨a, ha⟩ : ∃ a, (solver settings c b).value last.values = .ok a := by
    rw [hlast.values_eq, hagrees.values_eq]
    exact ⟨_, rfl⟩
  have hoptimize : (solver settings c b).optimize .spectral .largestMultiplier
      { point := some (point x) } = .ok ⟨a, last⟩ := by
    rw [Solver.optimize_eq_conclude (initialState_below settings c b hfeasible hslack hx.le), hrun,
      Solver.conclude_eq_ok]
    exact ⟨rfl, ha⟩
  have hsolve : (program t b).solve .spectral settings (some ⟨[1], [x]⟩) =
      (program t b).conclude ((solver settings c b).optimize .spectral .largestMultiplier
        { point := some (point x) }) := by
    rw [Program.solve, hq, ok_bind, ofProblem_problem, ok_bind]
    rfl
  rw [hsolve, hoptimize]
  exact ⟨_, rfl, rfl, hlast.values_eq.trans hagrees.values_eq,
    congrArg some (hlast.workingSet_eq.trans hagrees.workingSet_eq), hcount⟩

end Solves

end ActiveSet.Dense.Parabola
