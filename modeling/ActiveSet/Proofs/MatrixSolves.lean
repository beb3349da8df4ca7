import ActiveSet.Proofs.Corners
import ActiveSet.Proofs.MatrixPrograms
import ActiveSet.Proofs.Residuals
import ActiveSet.Proofs.Starts

/-!
# Feasibility of what a solve returns

A status that promises a point comes with a state of the run. On a run of settled states, and from
every start at which no tolerance matters, that state satisfies the rows of the program.
-/

namespace ActiveSet.Dense

namespace Program

variable {p : Program ℝ} {kernels : Kernels ℝ} {settings : Settings ℝ} {r : Result ℝ}

/-- What a solve begins with, if its start point has been read. -/
def startAt (x0 : Option (Tensor ℝ)) : Start ℝ where
  point := x0.map fun t => Keyed.ofList [(variableKey, t.data)]

/--
A start at which no tolerance matters: a point satisfies all rows, and those that it nearly meets it
meets; without a point there has to be one that satisfies the rows.
-/
def ExactStart (p : Program ℝ) (tol : ℝ) : Option (Tensor ℝ) → Prop
  | none => ∃ y, p.SatisfiedWithin 0 y
  | some t => p.SatisfiedWithin 0 t.data ∧
      ∀ e ∈ p.limits, |Vec.dot e.1 t.data - e.2| ≤ tol → Vec.dot e.1 t.data = e.2

private theorem hasSolution_of_fault {cause : Fault ℝ}
    (h : p.conclude (.error (.fault cause)) = .ok r) : r.status.hasSolution = false := by
  cases cause <;> cases h <;> rfl

private theorem conclude_of_hasSolution {s : Solver ℝ} {ending : Ending ℝ}
    (h : p.conclude (s.conclude ending) = .ok r) (hstatus : r.status.hasSolution = true) :
    ∃ last, ending.last? = some last ∧ r.x = last.values := by
  cases hend : s.conclude ending with
  | ok solution =>
      rw [hend] at h
      obtain ⟨rfl, _⟩ := Solver.conclude_eq_ok.1 hend
      exact ⟨solution.last, rfl, by rw [← Except.ok.inj h]; rfl⟩
  | error failure =>
      rw [hend] at h
      cases failure with
      | exhausted last =>
          obtain rfl := Solver.conclude_eq_exhausted.1 hend
          exact ⟨last, rfl, by rw [← Except.ok.inj h]; rfl⟩
      | cycled last =>
          obtain rfl := Solver.conclude_eq_cycled.1 hend
          exact ⟨last, rfl, by rw [← Except.ok.inj h]; rfl⟩
      | fault cause => cases hstatus.symm.trans (hasSolution_of_fault h)

theorem exists_of_solve {x0 : Option (Tensor ℝ)} (h : p.solve kernels settings x0 = .ok r) :
    ∃ q s, p.problem kernels = .ok q ∧ Solver.ofProblem settings q = .ok s ∧
      p.conclude (s.optimize kernels .largestMultiplier (startAt x0)) = .ok r := by
  simp only [solve, bind_eq_ok] at h
  obtain ⟨q, hq, s, hs, point, hpoint, h⟩ := h
  have hstart : ({ point } : Start ℝ) = startAt x0 := by
    cases x0 with
    | none =>
        cases hpoint
        rfl
    | some t =>
        obtain ⟨z, hz, hpoint⟩ := bind_eq_ok.1 hpoint
        obtain ⟨v, hv, hz⟩ := bind_eq_ok.1 hz
        obtain ⟨rfl, _⟩ := Tensor.checkedVector_eq_ok hv
        cases hz
        cases hpoint
        rfl
  exact ⟨q, s, hq, hs, hstart ▸ h⟩

theorem conclude_eq_optimal {outcome : Except (Failure ℝ) (Solution ℝ)}
    (h : p.conclude outcome = .ok r) (hstatus : r.status = .optimal) : ∃ solution,
      outcome = .ok solution ∧
      r = p.result .optimal (some (p.objective (coordinates solution.last.values)))
        solution.last.values solution.last.duals (some solution.last.workingSet)
        solution.last.iterations := by
  cases outcome with
  | ok solution => exact ⟨solution, rfl, (Except.ok.inj h).symm⟩
  | error failure =>
      cases failure with
      | exhausted | cycled =>
          rw [← Except.ok.inj h] at hstatus
          cases hstatus
      | fault cause =>
          have hnone := hasSolution_of_fault h
          rw [hstatus] at hnone
          cases hnone

/-- A point comes with the program over factors, its solver and the run that ends there. -/
private theorem solve_eq_ok {x0 : Option (Tensor ℝ)} (h : p.solve kernels settings x0 = .ok r)
    (hstatus : r.status.hasSolution = true) :
    ∃ q s u last, p.problem kernels = .ok q ∧ Solver.ofProblem settings q = .ok s ∧
      s.initialState kernels (startAt x0) = .ok u ∧
      ((s.method kernels .largestMultiplier).run u).ending.last? = some last ∧
      r.x = last.values := by
  obtain ⟨q, s, hq, hs, h⟩ := exists_of_solve h
  cases hu : s.initialState kernels (startAt x0) with
  | error cause =>
      rw [Solver.optimize, Solver.run, hu] at h
      cases hstatus.symm.trans (hasSolution_of_fault h)
  | ok u =>
      rw [Solver.optimize_eq_conclude hu] at h
      obtain ⟨last, hlast, hx⟩ := conclude_of_hasSolution h hstatus
      exact ⟨q, s, u, last, hq, hs, hu, hlast, hx⟩

variable {q : Problem ℝ} {s : Solver ℝ} {u : State ℝ}

theorem totalDim_ne_zero (hn : 0 < p.n) (h : s.dims.lookup variableKey = some p.n) :
    Point.totalDim s.dims.entries ≠ 0 := by
  have hle := Point.le_totalDim ((Keyed.lookup_iff _).1 h)
  exact (hn.trans_le hle).ne'

theorem satisfiedWithin_coordinates (hp : p.Shaped) (hq : p.problem kernels = .ok q)
    (hs : Solver.ofProblem settings q = .ok s) {z : Point ℝ} (hz : Point.Fills s.dims z) {tol : ℝ}
    (h : q.FeasibleWithin tol z) : p.SatisfiedWithin tol (coordinates z) := by
  obtain ⟨v, hv, hlen⟩ := hz _ _ (lookup_dims hp hq hs)
  have hcoordinates : coordinates z = v := by rw [coordinates, hv, Option.getD_some]
  rw [hcoordinates]
  exact (feasibleWithin_iff hp hq hs hv hlen).1 h

private theorem onFace_of_exactStart (hlp : kernels.ExactLinearProgram) (hp : p.Shaped)
    (hn : 0 < p.n) (hq : p.problem kernels = .ok q) (hs : Solver.ofProblem settings q = .ok s)
    {x0 : Option (Tensor ℝ)} (hexact : p.ExactStart settings.activeTolerance x0)
    (hu : s.initialState kernels (startAt x0) = .ok u) : q.OnFace u := by
  have hmade := Solver.madeFrom_ofProblem hs
  have hlookup := lookup_dims hp hq hs
  have hvector : ∀ v : List ℝ, (Keyed.ofList [(variableKey, v)]).lookup variableKey = some v :=
    fun v => (Keyed.lookup_ofList (by simp)).2 (List.mem_singleton_self _)
  cases x0 with
  | none =>
      obtain ⟨y, hy⟩ := hexact
      have hfeas := (feasibleWithin_iff hp hq hs (hvector y) hy.length_eq).2 hy
      exact Solver.onFace_of_phaseOne hlp hmade (totalDim_ne_zero hn hlookup) hfeas hu
  | some t =>
      obtain ⟨hsatisfied, hclear⟩ := hexact
      have hadd := Solver.values_of_given rfl hu
      obtain ⟨hvalues, hlen⟩ :=
        Point.lookup_add_zero (Point.addsToZeros_real _) hadd hlookup (hvector t.data)
      have hfeas := (feasibleWithin_iff hp hq hs hvalues hlen).2 hsatisfied
      refine Solver.onFace_of_clear hmade hu hfeas fun f hf a ha hle => ?_
      obtain ⟨_, _, hfs⟩ := problem_eq_ok hq
      obtain ⟨e, he, hread⟩ := exists_of_mem_left (inequalities_eq_ok hfs) hf
      cases ha.symm.trans (excess_eq_ok hp hq hs hvalues hlen hf hread)
      exact sub_eq_zero.2 (hclear e he hle)

/--
A status that promises a point comes with one that violates no row by more than the tolerance, on
every run of settled states, and that violates none at all from every exact start. Programs that were
read have the shape, and a bound that is absent stands for one that was not finite.
-/
theorem solve_feasible (hk : kernels.ExactLeastSquares) (hlp : kernels.ExactLinearProgram)
    (htol : 0 < settings.feasibilityTolerance) (hcheck : settings.checkFeasibility = true)
    (hp : p.Shaped) (hn : 0 < p.n) {x0 : Option (Tensor ℝ)}
    (h : p.solve kernels settings x0 = .ok r) (hstatus : r.status.hasSolution = true) :
    ∃ q s u, p.problem kernels = .ok q ∧ Solver.ofProblem settings q = .ok s ∧
      s.initialState kernels (startAt x0) = .ok u ∧
      ((∀ v ∈ u :: ((s.method kernels .largestMultiplier).run u).states, s.Settled v) →
        p.SatisfiedWithin settings.feasibilityTolerance (coordinates r.x)) ∧
      (p.ExactStart settings.activeTolerance x0 → p.SatisfiedWithin 0 (coordinates r.x)) := by
  obtain ⟨q, s, u, last, hq, hs, hu, hlast, hx⟩ := solve_eq_ok h hstatus
  have hmade := Solver.madeFrom_ofProblem hs
  have hdim := totalDim_ne_zero hn (lookup_dims hp hq hs)
  have hstart := Solver.admissible_of_initialState (hmade.settings_eq ▸ hcheck) hdim rfl hu
  obtain ⟨hfactors, _, hfeas⟩ := Solver.initialState_eq_ok hlp hmade htol.le hstart hu
  have hmem := Method.runFrom_last hlast
  have hfills := Method.fills_runFrom (Solver.fills_initialState hmade.wellFormed hu) last hmem
  rw [hx]
  refine ⟨q, s, u, hq, hs, hu, fun hsettled => ?_, fun hexact => ?_⟩
  · have hlast := hfeas.runFrom hfactors htol.le hk hmade hsettled last hmem
    exact satisfiedWithin_coordinates hp hq hs hfills hlast
  · have hface := onFace_of_exactStart hlp hp hn hq hs hexact hu
    have hlast := (hface.of_runFrom hk hmade last hmem).feasible
    exact satisfiedWithin_coordinates hp hq hs hfills hlast

/-- A start on the first row itself is exact, and the solve ends at a point that violates nothing. -/
theorem solve_feasible_corner : ∃ r,
    (Corner.program 1 1).solve .exact OneVariable.settings (Corner.arguments 1 1 0).x0 = .ok r ∧
      r.status.hasSolution = true ∧
      (Corner.program 1 1).SatisfiedWithin OneVariable.settings.feasibilityTolerance
        (coordinates r.x) ∧
      (Corner.program 1 1).SatisfiedWithin 0 (coordinates r.x) := by
  obtain ⟨r, hr, hstatus, -⟩ := Corner.solve_onFirst OneVariable.settings 1 1 0 one_pos le_rfl
    OneVariable.activeTolerance_pos.le OneVariable.activeTolerance_lt_one
    OneVariable.feasibilityTolerance_pos OneVariable.tolerance_lt_one
    (by norm_num [OneVariable.settings]) (by norm_num [OneVariable.settings])
  have hsolution : r.status.hasSolution = true := by
    rw [hstatus]
    rfl
  have hread := Corner.read_arguments 1 1 0
  have hshaped := Arguments.shaped_of_read hread
  rw [Dense.solve, hread, ok_bind] at hr
  obtain ⟨q, s, u, hq, hs, hu, hsettled, hexact⟩ := solve_feasible Kernels.exact_leastSquares
    Kernels.exact_linearProgram OneVariable.feasibilityTolerance_pos rfl hshaped two_pos hr hsolution
  have hstart : (Corner.program 1 1).ExactStart OneVariable.settings.activeTolerance
      (Corner.arguments 1 1 0).x0 := by
    refine ⟨Corner.satisfiedWithin_iff.2 (by norm_num), ?_⟩
    rw [Corner.limits_program]
    refine List.forall_mem_cons.2 ⟨fun _ => ?_, List.forall_mem_singleton.2 fun hle => ?_⟩
    · norm_num [Corner.arguments]
    · norm_num [Corner.arguments, OneVariable.settings] at hle
  have hmade := Solver.madeFrom_ofProblem hs
  have hface := onFace_of_exactStart Kernels.exact_linearProgram hshaped two_pos hq hs hstart hu
  refine ⟨r, hr, hsolution, hsettled fun v hv => ?_, hexact hstart⟩
  exact (hface.of_runFrom Kernels.exact_leastSquares hmade v hv).settled hmade

end Program

/--
The start satisfies both rows. Its slack at the first one is within the tolerance for tightness, and
the solve ends, as optimal, behind that row by almost fifty times the tolerance for feasibility.
-/
theorem solve_infeasible_corner :
    (Corner.program 1000 1000).SatisfiedWithin 0 [-(5e-8 / 1000), 0] ∧
    ∃ r, solve .exact OneVariable.settings (Corner.arguments 1000 1000 5e-8) = .ok r ∧
      r.status.hasSolution = true ∧
      ¬(Corner.program 1000 1000).SatisfiedWithin OneVariable.settings.feasibilityTolerance
        (Program.coordinates r.x) := by
  refine ⟨Corner.satisfiedWithin_iff.2 (by norm_num), ?_⟩
  obtain ⟨r, hr, hstatus, hx⟩ := Corner.solve_onFirst OneVariable.settings 1000 1000 5e-8
    (by norm_num) (by norm_num) (by norm_num [OneVariable.settings])
    (OneVariable.activeTolerance_lt_one.trans (by norm_num)) OneVariable.feasibilityTolerance_pos
    OneVariable.tolerance_lt_one (by norm_num [OneVariable.settings, abs_le])
    (by norm_num [OneVariable.settings])
  refine ⟨r, hr, by rw [hstatus]; rfl, fun hfeas => ?_⟩
  rw [hx, Corner.satisfiedWithin_iff] at hfeas
  norm_num [OneVariable.settings] at hfeas

end ActiveSet.Dense
