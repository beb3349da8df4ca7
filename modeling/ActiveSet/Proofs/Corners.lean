import ActiveSet.Proofs.OneVariable
import ActiveSet.Proofs.MatrixPrograms

/-!
# Corners

The least `y - x` with `k x ≤ 0` and `-y ≤ h` lies in the corner `(0, -h)`. A start that is seeded
onto the first row but has slack `σ` there goes down to the second row, and its slack times `h - 1`
past the first one.
-/

namespace ActiveSet.Dense.Corner

/-! ## Points and rows -/

def pair (x y : ℝ) : Point ℝ := Keyed.ofList [(variableKey, [x, y])]

theorem part_pair (x y : ℝ) : (pair x y).part variableKey = [x, y] := rfl

theorem norm_pair (x y : ℝ) : Point.norm (pair x y) = Real.sqrt (x * x + y * y) := by
  rw [Point.norm_of_singleton rfl]
  simp

theorem exists_pair {d : Point ℝ} (h : Graph.Spans d [(variableKey, 2)]) : ∃ x y, d = pair x y := by
  obtain ⟨v, hlen, rfl⟩ := h.exists_ofList two_ne_zero
  obtain ⟨x, y, rfl⟩ := List.length_eq_two.1 hlen
  exact ⟨x, y, rfl⟩

/-- The row `a x + b y ≤ c` with number `i`. -/
def row (a b c : ℝ) (i : Int) : Inequality ℝ where
  terms := Keyed.ofList [(variableKey, [a, b])]
  bound := c
  dual := .dual "ub" i

@[simp] theorem bound_row (a b c : ℝ) (i : Int) : (row a b c i).bound = c := rfl

theorem value_row (a b c : ℝ) (i : Int) (z : Point ℝ) :
    (row a b c i).value z = Vec.dot [a, b] (z.part variableKey) :=
  Inequality.value_of_singleton rfl z

theorem value_row_pair (a b c : ℝ) (i : Int) (x y : ℝ) :
    (row a b c i).value (pair x y) = a * x + b * y := by
  rw [value_row, part_pair]
  simp

theorem fits_row (a b c : ℝ) (i : Int) (x y : ℝ) : (row a b c i).Fits (pair x y) :=
  Inequality.fits_of_singleton (a := [a, b]) (v := [x, y]) rfl rfl rfl

/-! ## The program -/

/-- The arrays of the program, with a start that leaves the slack `σ` at the first row. -/
noncomputable def arguments (k h σ : ℝ) : Arguments ℝ where
  c := some ⟨[2], [-1, 1]⟩
  aUb := some ⟨[2, 2], [k, 0, 0, -1]⟩
  bUb := some ⟨[2], [0, h]⟩
  x0 := some ⟨[2], [-(σ / k), 0]⟩

noncomputable def program (k h : ℝ) : Program ℝ where
  n := 2
  c := [-1, 1]
  hessian := none
  equal := ⟨none, none⟩
  atMost := ⟨some ⟨[2, 2], [k, 0, 0, -1]⟩, some [0, h]⟩
  lower := [none, none]
  upper := [none, none]

theorem read_arguments (k h σ : ℝ) : (arguments k h σ).read = .ok (program k h) := rfl

noncomputable def problem (k h : ℝ) : Problem ℝ :=
  .make (.linear (Keyed.ofList [(variableKey, [-1, 1])])) [] [row k 0 0 0, row 0 (-1) h 1]

theorem problem_program (k h : ℝ) : (program k h).problem .exact = .ok (problem k h) := rfl

/-- The cost `½‖p + (-1, 1)‖²` of a direction `p`. -/
noncomputable def descent : Factor ℝ where
  terms := Keyed.ofList [(variableKey, .identity 2)]
  b := Vec.neg [-1, 1]
  rows_eq := by
    intro e he
    cases he with
    | head => rfl
    | tail _ h => cases h

theorem values_descent (x y : ℝ) : descent.values (pair x y) = [x, y] := by
  rw [Factor.values_of_singleton (A := .identity 2) rfl, Matrix.mulVec_identity, part_pair]
  rfl

theorem fits_descent (x y : ℝ) : descent.Fits (pair x y) :=
  Factor.fits_of_singleton (k := variableKey) (v := [x, y]) rfl rfl rfl

section Solves

variable (settings : Settings ℝ) (k h : ℝ)

noncomputable def solver : Solver ℝ where
  settings := settings
  objective := .linear (Keyed.ofList [(variableKey, [-1, 1])])
  cost := [descent]
  equalities := []
  inequalities := [row k 0 0 0, row 0 (-1) h 1]
  costIndex := .ofKeys [[variableKey]]
  equalityIndex := .ofKeys []
  inequalityIndex := .ofKeys [[variableKey], [variableKey]]
  constrainedKeys := [variableKey]
  dims := Keyed.ofList [(variableKey, 2)]
  ordering := [variableKey]

theorem ofProblem_problem :
    Solver.ofProblem settings (problem k h) = .ok (solver settings k h) := rfl

theorem madeFrom_problem : (solver settings k h).MadeFrom settings (problem k h) :=
  Solver.madeFrom_ofProblem (ofProblem_problem settings k h)

theorem slope_pair (z : Point ℝ) (x y : ℝ) : (solver settings k h).slope z (pair x y) = y - x := by
  change ([(variableKey, [-1, 1])].map fun e : Key × List ℝ =>
    Vec.dot e.2 ((pair x y).part e.1)).sum = _
  rw [List.map_singleton, List.sum_singleton, part_pair, Vec.dot_cons, Vec.dot_cons,
    Vec.dot_nil_left]
  ring

/-! ## Along the first row -/

def onFirst : WorkingSet ℝ := OneVariable.firstEnforced (row k 0 0 0) [row 0 (-1) h 1]

def onBoth : WorkingSet ℝ := ⟨[row k 0 0 0, row 0 (-1) h 1], [true, true], rfl⟩

variable {k}

private theorem eq_neg_of_compatible (hk : k ≠ 0) {a x : ℝ} (h : k * (k * a + k * x) = 0) :
    a = -x := by
  have hzero := (mul_eq_zero.1 h).resolve_left hk
  rw [← mul_add] at hzero
  exact eq_neg_of_add_eq_zero_left ((mul_eq_zero.1 hzero).resolve_left hk)

/-- The direction leads to where the first row is tight, and down. -/
theorem direction_onFirst (hk : k ≠ 0) (x y : ℝ) :
    (solver settings k h).direction .exact (onFirst k h) (pair x y) = .ok (pair (-x) (-1)) := by
  have hs := (madeFrom_problem settings k h).wellFormed
  obtain ⟨d, hd, hdirects⟩ := Solver.exists_direction Kernels.exact_leastSquares hs
    (w := onFirst k h) (x := pair x y) rfl (List.forall_mem_singleton.2 (fits_descent x y))
    (List.forall_mem_singleton.2 (Inequality.fits_toEquality.2 (fits_row k 0 0 0 x y)))
  obtain ⟨a, b, rfl⟩ := exists_pair hdirects.spans
  have ha : a = -x := by
    have hcompatible := hdirects.compatible (pair 1 0)
    change ([(row k 0 0 0).toEquality].map _).sum = 0 at hcompatible
    rw [List.map_singleton, List.sum_singleton, Inequality.dot_toEquality] at hcompatible
    simp only [value_row_pair, bound_row] at hcompatible
    exact eq_neg_of_compatible hk (by linarith)
  have hb : b = -1 := by
    have hfree : (solver settings k h).Free (onFirst k h) (pair 0 1) := by
      refine List.forall_mem_singleton.2 ?_
      rw [Inequality.values_toEquality, value_row_pair]
      simp
    have hstationary := hdirects.stationary _ hfree
    rw [slope_pair] at hstationary
    change ([descent].map _).sum + _ = 0 at hstationary
    rw [List.map_singleton, List.sum_singleton, values_descent, values_descent] at hstationary
    simp only [Vec.dot_cons, Vec.dot_nil_left] at hstationary
    linarith
  rw [hd, ha, hb]

/-- The second row blocks at the length `h`. -/
theorem iterate_onFirst (hk : k ≠ 0) (hh : 0 < h) (htol : settings.tolerance < 1) (x : ℝ) :
    ((solver settings k h).method .exact .largestMultiplier).iterate
      (.initial (pair x 0) (onFirst k h)) = .ok
        { State.initial (pair ((1 - h) * x) (-h)) (onBoth k h) with
          iterations := 1, phase := .activated 1, alpha := some h } := by
  have hproduct : ∀ x y, (row 0 (-1) h 1).product (pair x y) = .ok (-y) := by
    intro x y
    rw [Inequality.product_eq_ok, value_row_pair]
    exact ⟨fits_row _ _ _ _ _ _, by ring⟩
  have hblocked : (onFirst k h).blocking (pair x 0) (pair (-x) (-1)) .unlimited =
      .ok (some (h, 1)) := by
    change [(row 0 (-1) h 1, 1)].foldlM (WorkingSet.block .unlimited (pair x 0) (pair (-x) (-1)))
      none = _
    rw [List.foldlM_cons, WorkingSet.block, hproduct, ok_bind, if_neg (by norm_num), hproduct,
      ok_bind, bound_row, neg_zero, sub_zero, neg_neg, div_one]
    rfl
  have hadd : Point.add (pair x 0) (Point.scale (max h 0) (pair (-x) (-1))) =
      .ok (pair ((1 - h) * x) (-h)) := by
    change Except.ok (pair (x + 1 * (max h 0 * -x)) (0 + 1 * (max h 0 * -1))) = _
    rw [max_eq_left hh.le]
    congr 2 <;> ring
  have hlarge : settings.tolerance < Point.norm (pair (-x) (-1)) := by
    refine htol.trans_le ?_
    rw [norm_pair, Real.one_le_sqrt]
    nlinarith [mul_self_nonneg x]
  have hiterate := Method.iterate_block
    (m := (solver settings k h).method .exact .largestMultiplier)
    (s := .initial (pair x 0) (onFirst k h)) (direction_onFirst settings h hk x 0) hlarge hblocked
    hadd (w := onBoth k h) rfl
  rw [max_eq_left hh.le] at hiterate
  exact hiterate

/-! ## In the corner of both rows -/

theorem working_onBoth : (solver settings k h).working (onBoth k h) =
    [(row k 0 0 0).toEquality, (row 0 (-1) h 1).toEquality] := rfl

theorem direction_onBoth (hk : k ≠ 0) (x : ℝ) :
    (solver settings k h).direction .exact (onBoth k h) (pair x (-h)) = .ok (pair (-x) 0) := by
  have hs := (madeFrom_problem settings k h).wellFormed
  obtain ⟨d, hd, hdirects⟩ := Solver.exists_direction Kernels.exact_leastSquares hs
    (w := onBoth k h) (x := pair x (-h)) rfl (List.forall_mem_singleton.2 (fits_descent x (-h)))
    (List.forall_mem_cons.2 ⟨Inequality.fits_toEquality.2 (fits_row k 0 0 0 x (-h)),
      List.forall_mem_singleton.2 (Inequality.fits_toEquality.2 (fits_row 0 (-1) h 1 x (-h)))⟩)
  obtain ⟨a, b, rfl⟩ := exists_pair hdirects.spans
  have hcompatible : ∀ z₁ z₂, (k * z₁) * (k * a + k * x) + z₂ * b = 0 := by
    intro z₁ z₂
    have hsum := hdirects.compatible (pair z₁ z₂)
    rw [working_onBoth, List.map_cons, List.map_singleton, List.sum_cons, List.sum_singleton,
      Inequality.dot_toEquality, Inequality.dot_toEquality] at hsum
    simp only [value_row_pair, bound_row] at hsum
    linarith
  have ha : a = -x := eq_neg_of_compatible hk (by linarith [hcompatible 1 0])
  have hb : b = 0 := by linarith [hcompatible 0 1]
  rw [hd, ha, hb]

private theorem sum_onBoth (duals : Point ℝ) (x y : ℝ) :
    (((solver settings k h).working (onBoth k h)).map fun c =>
      Vec.dot (c.toFactor.values (pair x y)) (duals.part c.dual)).sum =
        k * x * (duals.part (.dual "ub" 0)).headD 0 - y * (duals.part (.dual "ub" 1)).headD 0 := by
  rw [working_onBoth, List.map_cons, List.map_singleton, List.sum_cons, List.sum_singleton,
    Inequality.values_toEquality, Inequality.values_toEquality, value_row_pair, value_row_pair,
    Vec.dot_singleton, Vec.dot_singleton, Inequality.dual_toEquality, Inequality.dual_toEquality]
  simp only [row]
  ring

theorem independent_onBoth (hk : k ≠ 0) : (solver settings k h).Independent (onBoth k h) := by
  intro ν hν
  have hfirst := hν (pair 1 0)
  have hsecond := hν (pair 0 1)
  rw [sum_onBoth] at hfirst hsecond
  rw [working_onBoth]
  refine List.forall_mem_cons.2 ⟨fun _ => ?_, List.forall_mem_singleton.2 fun _ => ?_⟩
  · have hzero : (ν.part (.dual "ub" 0)).headD 0 = 0 := by simpa [hk] using hfirst
    rw [Inequality.rows_toEquality, Inequality.dual_toEquality, Vec.fit_one]
    exact congrArg (fun a => [a]) hzero
  · have hzero : (ν.part (.dual "ub" 1)).headD 0 = 0 := by simpa using hsecond
    rw [Inequality.rows_toEquality, Inequality.dual_toEquality, Vec.fit_one]
    exact congrArg (fun a => [a]) hzero

/-- No multiplier is positive: they are `-1 / k` and `-1`. -/
theorem multipliers_onBoth (hk : 0 < k) (x : ℝ) : ∃ duals,
    (solver settings k h).multipliers .exact (onBoth k h) (pair x (-h)) = .ok duals ∧
      LeavingRule.largestMultiplier (onBoth k h) duals = .ok none := by
  have hs := (madeFrom_problem settings k h).wellFormed
  obtain ⟨g, hg⟩ : ∃ g, (solver settings k h).dualGraph (onBoth k h) (pair x (-h)) = .ok g :=
    ⟨_, rfl⟩
  have hn : (((solver settings k h).working (onBoth k h)).map (·.dual)).Nodup := by
    change [Key.dual "ub" 0, Key.dual "ub" 1].Nodup
    decide
  obtain ⟨duals, hduals, hmult⟩ := Solver.exists_multipliers Kernels.exact_leastSquares hs rfl hn
    (independent_onBoth settings h hk.ne') hg
  have hzero : Point.norm (pair (-0) 0) = 0 := by
    rw [norm_pair]
    simp
  -- At the corner itself the direction is zero, and the slope is the same everywhere.
  have hdirects := Solver.directs_of_direction Kernels.exact_leastSquares hs rfl
    (direction_onBoth settings h hk.ne' 0)
  have hslope : ∀ x y, y - x =
      k * x * (duals.part (.dual "ub" 0)).headD 0 - y * (duals.part (.dual "ub" 1)).headD 0 := by
    intro a b
    rw [← sum_onBoth settings h duals a b, ← slope_pair settings k h (pair x (-h))]
    exact hmult.represents (fun z hz => hdirects.slope_eq_zero hzero hz) _
  have hfirst : k * (duals.part (.dual "ub" 0)).headD 0 = -1 := by linarith [hslope 1 0]
  have hsecond : (duals.part (.dual "ub" 1)).headD 0 = -1 := by linarith [hslope 0 1]
  refine ⟨duals, hduals, LeavingRule.largestMultiplier_ok_none ?_⟩
  refine List.forall_mem_cons.2
    ⟨⟨_, hmult.multiplier (.head _) (List.cons_ne_nil _ _) Nat.one_pos, ?_⟩,
      List.forall_mem_singleton.2
        ⟨_, hmult.multiplier (.tail _ (.head _)) (List.cons_ne_nil _ _) Nat.one_pos, ?_⟩⟩
  · exact nonpos_of_mul_nonpos_right (hfirst.trans_le (by norm_num)) hk
  · exact hsecond.trans_le (by norm_num)

theorem iterate_onBoth (hk : 0 < k) {x : ℝ} (hx : |x| ≤ settings.tolerance) {u : State ℝ}
    (hvalues : u.values = pair x (-h)) (hset : u.workingSet = onBoth k h) : ∃ v,
      ((solver settings k h).method .exact .largestMultiplier).iterate u = .ok v ∧
        v.values = pair x (-h) ∧ v.hasConverged = true := by
  obtain ⟨duals, hduals, hstay⟩ := multipliers_onBoth settings h hk x
  have hsmall : Point.norm (pair (-x) 0) ≤ settings.tolerance := by
    rwa [norm_pair, mul_zero, add_zero, Real.sqrt_mul_self_eq_abs, abs_neg]
  have hdirection := direction_onBoth settings h hk.ne' x
  rw [← hset, ← hvalues] at hduals hdirection
  rw [← hset] at hstay
  have hiterate := Method.iterate_converge
    (m := (solver settings k h).method .exact .largestMultiplier) hdirection hsmall hduals hstay
  exact ⟨_, hiterate, hvalues, rfl⟩

end Solves

/-! ## The solve -/

section Starts

variable {settings : Settings ℝ} {k h σ : ℝ}

theorem limits_program : (program k h).limits = [([k, 0], 0), ([0, -1], h)] := rfl

theorem satisfiedWithin_iff {tol x y : ℝ} :
    (program k h).SatisfiedWithin tol [x, y] ↔ k * x ≤ tol ∧ -y ≤ h + tol := by
  have hequal : (program k h).equal.pairs = [] := rfl
  have hlen : [x, y].length = (program k h).n := rfl
  rw [Program.satisfiedWithin_iff, limits_program, hequal, List.forall_mem_cons,
    List.forall_mem_singleton]
  simp [hlen]

theorem initialState_onFirst (hk : 0 < k) (hσ : 0 ≤ σ) (hnear : σ ≤ settings.activeTolerance)
    (hfar : settings.activeTolerance < h) (hfeas : 0 < settings.feasibilityTolerance) :
    (solver settings k h).initialState .exact { point := some (pair (-(σ / k)) 0) } =
      .ok (.initial (pair (-(σ / k)) 0) (onFirst k h)) := by
  have hfirst : (row k 0 0 0).value (pair (-(σ / k)) 0) = -σ := by
    rw [value_row_pair]
    field_simp
    ring
  have hsecond : (row 0 (-1) h 1).value (pair (-(σ / k)) 0) = 0 := by
    rw [value_row_pair]
    ring
  have hseed : WorkingSet.seed [row k 0 0 0, row 0 (-1) h 1] (pair (-(σ / k)) 0) none
      settings.activeTolerance = .ok (onFirst k h) := by
    refine OneVariable.seed_firstEnforced (fits_row _ _ _ _ _ _) ?_
      (List.forall_mem_singleton.2 ⟨fits_row _ _ _ _ _ _, ?_⟩)
    · rwa [hfirst, bound_row, sub_zero, abs_neg, abs_of_nonneg hσ]
    · rw [hsecond, bound_row, zero_sub, abs_neg]
      exact hfar.trans_le (le_abs_self h)
  have hadd : Point.add (Point.zero (solver settings k h).dims) (pair (-(σ / k)) 0) =
      .ok (pair (-(σ / k)) 0) := by
    change Except.ok (pair (0 + 1 * -(σ / k)) (0 + 1 * 0)) = _
    norm_num
  refine Solver.initialState_of_feasible rfl hfeas ?_ rfl hadd hseed
  refine List.forall_mem_cons.2 ⟨⟨fits_row _ _ _ _ _ _, ?_⟩,
    List.forall_mem_singleton.2 ⟨fits_row _ _ _ _ _ _, ?_⟩⟩
  · rw [hfirst, bound_row]
    exact neg_nonpos.2 hσ
  · rw [hsecond, bound_row]
    exact (hσ.trans hnear).trans hfar.le

theorem solve_arguments : solve .exact settings (arguments k h σ) = (program k h).conclude
    ((solver settings k h).optimize .exact .largestMultiplier
      { point := some (pair (-(σ / k)) 0) }) := by
  rw [solve, read_arguments, ok_bind, Program.solve, problem_program, ok_bind, ofProblem_problem,
    ok_bind]
  rfl

/-- The slack at the first row becomes a residual `h - 1` times as large. -/
theorem solve_onFirst (settings : Settings ℝ) (k h σ : ℝ) (hk : 0 < k) (hσ : 0 ≤ σ)
    (hnear : σ ≤ settings.activeTolerance) (hfar : settings.activeTolerance < h)
    (hfeas : 0 < settings.feasibilityTolerance) (htol : settings.tolerance < 1)
    (hsmall : |(1 - h) * -(σ / k)| ≤ settings.tolerance) (hbudget : 1 < settings.maxIterations) :
    ∃ r, solve .exact settings (arguments k h σ) = .ok r ∧ r.status = .optimal ∧
      Program.coordinates r.x = [(1 - h) * -(σ / k), -h] := by
  have hh : 0 < h := (hσ.trans hnear).trans_lt hfar
  obtain ⟨u, hu, huvalues, huset, hustep, huconv⟩ : ∃ u,
      ((solver settings k h).method .exact .largestMultiplier).iterate
        (.initial (pair (-(σ / k)) 0) (onFirst k h)) = .ok u ∧
      u.values = pair ((1 - h) * -(σ / k)) (-h) ∧ u.workingSet = onBoth k h ∧ u.hasMoved = true ∧
      u.hasConverged = false :=
    ⟨_, iterate_onFirst settings h hk.ne' hh htol _, rfl, rfl, decide_eq_true hh, rfl⟩
  obtain ⟨v, hv, hvvalues, hvconv⟩ := iterate_onBoth settings h hk hsmall huvalues huset
  have hrun : (((solver settings k h).method .exact .largestMultiplier).run
      (.initial (pair (-(σ / k)) 0) (onFirst k h))).ending = .converged v := by
    obtain ⟨budget, hbudget⟩ := Nat.exists_eq_add_of_lt hbudget
    have hmax : ((solver settings k h).method .exact .largestMultiplier).settings.maxIterations =
        budget + 1 + 1 := by
      rw [add_right_comm, add_comm budget]
      exact hbudget
    rw [Method.run, hmax, Method.runFrom_of_iterate rfl (fun _ => List.not_mem_nil) hu]
    have hseen : Method.remembered [] (.initial (pair (-(σ / k)) 0) (onFirst k h)) u = [] :=
      if_pos hustep
    rw [hseen, Method.runFrom_of_iterate huconv (fun _ => List.not_mem_nil) hv,
      Method.runFrom_of_converged hvconv]
  obtain ⟨objective, hobjective⟩ : ∃ a,
      (solver settings k h).value (pair ((1 - h) * -(σ / k)) (-h)) = .ok a := ⟨_, rfl⟩
  have hoptimize : (solver settings k h).optimize .exact .largestMultiplier
      { point := some (pair (-(σ / k)) 0) } = .ok ⟨objective, v⟩ := by
    rw [Solver.optimize_eq_conclude (initialState_onFirst hk hσ hnear hfar hfeas), hrun,
      Solver.conclude_eq_ok]
    exact ⟨rfl, by rw [hvvalues, hobjective]⟩
  rw [solve_arguments, hoptimize]
  have hcoordinates : Program.coordinates v.values = [(1 - h) * -(σ / k), -h] := by
    rw [hvvalues]
    rfl
  exact ⟨_, rfl, rfl, hcoordinates⟩

end Starts

end ActiveSet.Dense.Corner
