import ActiveSet.Proofs.OneVariable
import ActiveSet.Proofs.FeasibilityTests

/-!
# A rail with a stop

A point of space that two equations keep on a rail, drawn to two targets along it and held by a stop.
Behind the stop lies the middle of the targets, so the run goes up to the stop and ends there.
-/

namespace ActiveSet.Rail

/-! ## Points and rows -/

def key : Key := .number 0

def space (a b c : ℝ) : Point ℝ := Keyed.ofList [(key, [a, b, c])]

theorem part_space (a b c : ℝ) : (space a b c).part key = [a, b, c] := rfl

theorem exists_space {d : Point ℝ} (h : Graph.Spans d [(key, 3)]) : ∃ a b c, d = space a b c := by
  obtain ⟨v, hlen, rfl⟩ := h.exists_ofList three_ne_zero
  obtain ⟨a, b, c, rfl⟩ := List.length_eq_three.1 hlen
  exact ⟨a, b, c, rfl⟩

theorem norm_along (a : ℝ) : Point.norm (space a 0 0) = |a| := by
  rw [Point.norm_of_singleton rfl]
  simp [Real.sqrt_mul_self_eq_abs]

theorem add_along (x b c t a : ℝ) :
    Point.add (space x b c) (Point.scale t (space a 0 0)) = .ok (space (x + t * a) b c) := by
  have h : Point.add (space x b c) (Point.scale t (space a 0 0)) =
      .ok (space (x + 1 * (t * a)) (b + 1 * (t * 0)) (c + 1 * (t * 0))) := rfl
  rw [h, one_mul, mul_zero, mul_zero, add_zero, add_zero]

/-- The row `a x + b y + c z ≤ d` with the multiplier that is called `i`. -/
def row (a b c d : ℝ) (i : Int) : Inequality ℝ where
  terms := Keyed.ofList [(key, [a, b, c])]
  bound := d
  dual := .number i

section Rows

variable {a b c d x y z : ℝ} {i : Int}

@[simp] theorem bound_row : (row a b c d i).bound = d := rfl

@[simp] theorem dual_row : (row a b c d i).dual = .number i := rfl

theorem value_row : (row a b c d i).value (space x y z) = a * x + (b * y + c * z) := by
  rw [Inequality.value_of_singleton rfl, part_space]
  simp

theorem fits_row : (row a b c d i).Fits (space x y z) :=
  Inequality.fits_of_singleton (a := [a, b, c]) (v := [x, y, z]) rfl rfl rfl

end Rows

/-! ## The program -/

/-- The cost `½ (x - t)²`. -/
noncomputable def aim (t : ℝ) : Factor ℝ := (row 1 0 0 t 0).toEquality.toFactor

/-- The equations `y = b` and `z = c`. -/
noncomputable def across (b : ℝ) : Equality ℝ := (row 0 1 0 b 1).toEquality

noncomputable def above (c : ℝ) : Equality ℝ := (row 0 0 1 c 2).toEquality

/-- The inequality `x ≤ h`. -/
noncomputable def stop (h : ℝ) : Inequality ℝ := row 1 0 0 h 0

noncomputable def problem (cost : Graph ℝ) (equalities : List (Equality ℝ)) (h : ℝ) : Problem ℝ :=
  .make (.quadratic cost) equalities [stop h]

section Solves

variable (settings : Settings ℝ) (s t b c h : ℝ)

noncomputable def solver : Solver ℝ where
  settings := settings
  objective := .quadratic
  cost := [aim s, aim t]
  equalities := [across b, above c]
  inequalities := [stop h]
  costIndex := .ofKeys [[key], [key]]
  equalityIndex := .ofKeys [[key], [key]]
  inequalityIndex := .ofKeys [[key]]
  constrainedKeys := [key]
  dims := Keyed.ofList [(key, 3)]
  ordering := [key]

theorem ofProblem_problem : Solver.ofProblem settings (problem [aim s, aim t] [across b, above c] h) =
    .ok (solver settings s t b c h) := rfl

theorem wellFormed : (solver settings s t b c h).WellFormed :=
  (Solver.madeFrom_ofProblem (ofProblem_problem settings s t b c h)).wellFormed

/-- The stop is enforced. -/
noncomputable def stopped : WorkingSet ℝ := OneVariable.firstEnforced (stop h) []

theorem fits_cost (x y z : ℝ) : ∀ f ∈ (solver settings s t b c h).cost, f.Fits (space x y z) :=
  List.forall_mem_cons.2 ⟨Inequality.fits_toEquality.2 fits_row,
    List.forall_mem_singleton.2 (Inequality.fits_toEquality.2 fits_row)⟩

theorem slope_along (x : ℝ) :
    (solver settings s t b c h).slope (space x b c) (space 1 0 0) = x - s + (x - t) := by
  simp [solver, aim, Solver.slope, Inequality.defect_toEquality, Inequality.values_toEquality,
    value_row]

/-- With the stop not enforced the direction leads along the rail to the middle of the targets. -/
theorem direction_free (x : ℝ) : (solver settings s t b c h).direction .exact (.inactive [stop h])
    (space x b c) = .ok (space ((s + t) / 2 - x) 0 0) := by
  have hfits : ∀ e ∈ [across b, above c], e.toFactor.Fits (space x b c) :=
    List.forall_mem_cons.2 ⟨Inequality.fits_toEquality.2 fits_row,
      List.forall_mem_singleton.2 (Inequality.fits_toEquality.2 fits_row)⟩
  obtain ⟨d, hd, hdirects⟩ := Solver.exists_direction Kernels.exact_leastSquares
    (wellFormed settings s t b c h) (w := .inactive [stop h]) rfl (fits_cost settings s t b c h x b c)
    hfits
  obtain ⟨p, q, r, rfl⟩ := exists_space hdirects.spans
  have hcompatible : ∀ z, ([across b, above c].map fun e => Vec.dot (e.toFactor.values z)
      (Vec.add (e.toFactor.values (space p q r)) (e.toFactor.defect (space x b c)))).sum = 0 :=
    hdirects.compatible
  have hq : q = 0 := by
    simpa [across, above, Inequality.dot_toEquality, value_row] using hcompatible (space 0 1 0)
  have hr : r = 0 := by
    simpa [across, above, Inequality.dot_toEquality, value_row] using hcompatible (space 0 0 1)
  have hfree : ∀ e ∈ [across b, above c],
      e.toFactor.values (space 1 0 0) = Vec.zeros e.toFactor.rows := by
    simp [across, above, Inequality.values_toEquality, value_row, Vec.zeros]
  have hp := hdirects.stationary (space 1 0 0) hfree
  rw [slope_along] at hp
  have hbend : p + p + (x - s + (x - t)) = 0 := by
    simpa [solver, aim, Inequality.values_toEquality, value_row] using hp
  obtain rfl : p = (s + t) / 2 - x := by linarith
  rw [hd, hq, hr]

/-- The equations hold on the rail, and with them the stop is enforced. -/
theorem working_stopped : (solver settings s t b c h).working (stopped h) =
    [across b, above c, (stop h).toEquality] := rfl

theorem fits_working (x y z : ℝ) :
    ∀ e ∈ (solver settings s t b c h).working (stopped h), e.toFactor.Fits (space x y z) := by
  rw [working_stopped]
  simp [across, above, stop, Inequality.fits_toEquality, fits_row]

/-- At the stop the direction is zero. -/
theorem direction_stopped : (solver settings s t b c h).direction .exact (stopped h)
    (space h b c) = .ok (space 0 0 0) := by
  obtain ⟨d, hd, hdirects⟩ := Solver.exists_direction Kernels.exact_leastSquares
    (wellFormed settings s t b c h) (w := stopped h) rfl (fits_cost settings s t b c h h b c)
    (fits_working settings s t b c h h b c)
  obtain ⟨p, q, r, rfl⟩ := exists_space hdirects.spans
  have hcompatible := hdirects.compatible
  rw [working_stopped] at hcompatible
  have hp : p = 0 := by
    simpa [across, above, stop, Inequality.dot_toEquality, value_row]
      using hcompatible (space 1 0 0)
  have hq : q = 0 := by
    simpa [across, above, stop, Inequality.dot_toEquality, value_row]
      using hcompatible (space 0 1 0)
  have hr : r = 0 := by
    simpa [across, above, stop, Inequality.dot_toEquality, value_row]
      using hcompatible (space 0 0 1)
  rw [hd, hp, hq, hr]

/-- What multipliers add up to along a movement. -/
theorem sum_stopped (ν : Point ℝ) (x y z : ℝ) :
    (((solver settings s t b c h).working (stopped h)).map fun e =>
      Vec.dot (e.toFactor.values (space x y z)) (ν.part e.dual)).sum =
        y * (ν.part (.number 1)).headD 0 + (z * (ν.part (.number 2)).headD 0 +
          x * (ν.part (.number 0)).headD 0) := by
  rw [working_stopped]
  simp [across, above, stop, Inequality.values_toEquality, value_row, Vec.dot_singleton]

theorem independent_stopped : (solver settings s t b c h).Independent (stopped h) := by
  intro ν hν
  have hacross := hν (space 0 1 0)
  have habove := hν (space 0 0 1)
  have hstop := hν (space 1 0 0)
  simp only [sum_stopped, zero_mul, one_mul, zero_add, add_zero] at hacross habove hstop
  have hfit : ∀ {i : Int}, (ν.part (.number i)).headD 0 = 0 →
      Vec.fit 1 (ν.part (.number i)) = Vec.zeros 1 := by
    intro i hi
    rw [Vec.fit_one, hi]
    rfl
  rw [working_stopped]
  exact List.forall_mem_cons.2 ⟨fun _ => hfit hacross, List.forall_mem_cons.2
    ⟨fun _ => hfit habove, List.forall_mem_singleton.2 fun _ => hfit hstop⟩⟩

/-- The multiplier of the stop is what separates it from the targets. -/
theorem multipliers_stopped : ∃ duals, (solver settings s t b c h).multipliers .exact (stopped h)
    (space h b c) = .ok duals ∧
      Point.multiplier duals (stop h).dual = .ok (h - s + (h - t)) := by
  have hs := wellFormed settings s t b c h
  obtain ⟨g, hg⟩ : ∃ g, (solver settings s t b c h).dualGraph (stopped h) (space h b c) = .ok g :=
    ⟨_, rfl⟩
  have hn : (((solver settings s t b c h).working (stopped h)).map (·.dual)).Nodup := by
    change [Key.number 1, .number 2, .number 0].Nodup
    decide
  obtain ⟨duals, hduals, hmult⟩ := Solver.exists_multipliers Kernels.exact_leastSquares hs rfl hn
    (independent_stopped settings s t b c h) hg
  have hdirects := Solver.directs_of_direction Kernels.exact_leastSquares hs rfl
    (direction_stopped settings s t b c h)
  have hone := hmult.represents
    (fun z hz => hdirects.slope_eq_zero ((norm_along 0).trans abs_zero) hz) (space 1 0 0)
  rw [slope_along, sum_stopped, zero_mul, zero_mul, zero_add, zero_add, one_mul] at hone
  rw [hone]
  exact ⟨duals, hduals, hmult.multiplier (.tail _ (.tail _ (.head _))) (List.cons_ne_nil _ _)
    Nat.one_pos⟩

/-- Before the stop a step towards the targets behind it is cut off there. -/
theorem iterate_free {x : ℝ} (hx : x ≤ h) (hbehind : h < (s + t) / 2)
    (htol : settings.tolerance < (s + t) / 2 - x) : ∃ v,
    ((solver settings s t b c h).method .exact .largestMultiplier).iterate
      (.initial (space x b c) (.inactive [stop h])) = .ok v ∧
        v.alpha = some ((h - x) / ((s + t) / 2 - x)) ∧
        v.Agrees (.initial (space h b c) (stopped h)) ∧ v.hasConverged = false := by
  have hpos : 0 < (s + t) / 2 - x := by linarith
  have hlarge : settings.tolerance < Point.norm (space ((s + t) / 2 - x) 0 0) := by
    rwa [norm_along, abs_of_pos hpos]
  have hvalue : ∀ a b c, (stop h).value (space a b c) = a := by
    simp [stop, value_row]
  have hbound : (stop h).bound = h := rfl
  have hsum := add_along x b c ((h - x) / ((s + t) / 2 - x)) ((s + t) / 2 - x)
  rw [div_mul_cancel₀ _ hpos.ne', add_sub_cancel] at hsum
  have hstep := Method.iterate_blocked (w := .inactive [stop h]) (u := stopped h) (f := stop h)
    (m := (solver settings s t b c h).method .exact .largestMultiplier) rfl rfl
    (direction_free settings s t b c h x) hlarge rfl fits_row fits_row (y := space h b c)
  simp only [hvalue, hbound] at hstep
  exact hstep hx (by linarith) (List.forall_mem_nil _) hsum

theorem iterate_stopped (htol : 0 ≤ settings.tolerance) (hbehind : h < (s + t) / 2) : ∃ v,
    ((solver settings s t b c h).method .exact .largestMultiplier).iterate
      (.initial (space h b c) (stopped h)) = .ok v ∧
        v.Agrees (.initial (space h b c) (stopped h)) ∧ v.hasConverged = true := by
  obtain ⟨duals, hduals, hmultiplier⟩ := multipliers_stopped settings s t b c h
  have hstay : LeavingRule.largestMultiplier (stopped h) duals = .ok none :=
    LeavingRule.largestMultiplier_ok_none (List.forall_mem_singleton.2
      ⟨_, hmultiplier, by linarith⟩)
  have hsmall : Point.norm (space 0 0 0) ≤ settings.tolerance := by
    rwa [norm_along, abs_zero]
  have hiterate := Method.iterate_converge
    (m := (solver settings s t b c h).method .exact .largestMultiplier)
    (s := .initial (space h b c) (stopped h)) (direction_stopped settings s t b c h) hsmall hduals
    hstay
  exact ⟨_, hiterate, ⟨rfl, rfl⟩, rfl⟩

/-- The run goes up to the stop and ends there. -/
theorem run_free (hbudget : 1 < settings.maxIterations) (htol : 0 ≤ settings.tolerance) {x : ℝ}
    (hx : x < h) (hbehind : h < (s + t) / 2) (hfar : settings.tolerance < (s + t) / 2 - x) :
    ∃ v w, ((solver settings s t b c h).method .exact .largestMultiplier).run
        (.initial (space x b c) (.inactive [stop h])) = ⟨[v, w], .converged w⟩ ∧
      v.alpha = some ((h - x) / ((s + t) / 2 - x)) ∧
      v.Agrees (.initial (space h b c) (stopped h)) ∧
      w.Agrees (.initial (space h b c) (stopped h)) := by
  obtain ⟨v, hv, halpha, hagrees, hgoes⟩ := iterate_free settings s t b c h hx.le hbehind hfar
  obtain ⟨u, hu, huagrees, huconv⟩ := iterate_stopped settings s t b c h htol hbehind
  have hmoved : v.hasMoved = true :=
    State.hasMoved_iff.2 ⟨_, halpha, div_pos (sub_pos.2 hx) (sub_pos.2 (hx.trans hbehind))⟩
  obtain ⟨w, hrun, hw, _⟩ := Method.run_of_step
    (m := (solver settings s t b c h).method .exact .largestMultiplier) rfl hbudget hv hgoes hmoved
    hagrees hu huconv
  exact ⟨v, w, hrun, halpha, hagrees, hw.trans huagrees⟩

/-- A start on the rail that enforces nothing. -/
noncomputable def start (x : ℝ) : Start ℝ where
  point := some (space x b c)
  workingSet := some (.inactive [stop h])

theorem violation_rail (x : ℝ) :
    Equality.violation [across b, above c] (space x b c) = .ok 0 := by
  have hresidual : ∀ e ∈ [across b, above c], e.toFactor.residual (space x b c) = .ok [0] := by
    simp [across, above, Factor.residual_eq_ok, Inequality.fits_toEquality, fits_row,
      Inequality.defect_toEquality, value_row]
  rw [Equality.violation_eq (mapM_eq_map hresidual) (by simp)]
  simp [Equality.worst, Scalar.greatestAbs, Scalar.greatestFrom, Scalar.larger]

theorem initialState_free (hfeasible : 0 < settings.feasibilityTolerance) {x : ℝ} (hx : x ≤ h) :
    (solver settings s t b c h).initialState .exact (start b c h x) =
      .ok (.initial (space x b c) (.inactive [stop h])) := by
  have hadd : Point.add (Point.zero (solver settings s t b c h).dims) (space x b c) =
      .ok (space x b c) := by
    change Except.ok (space (0 + 1 * x) (0 + 1 * b) (0 + 1 * c)) = _
    simp only [zero_add, one_mul]
  refine Solver.initialState_of_feasible (violation_rail b c x) hfeasible ?_ rfl hadd rfl
  refine List.forall_mem_singleton.2 ⟨fits_row, ?_⟩
  simpa [stop, value_row] using hx

end Solves

end ActiveSet.Rail
