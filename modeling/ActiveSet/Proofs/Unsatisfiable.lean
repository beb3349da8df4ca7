import ActiveSet.Proofs.MatrixSolves

/-!
# Programs that nothing satisfies

Without a start point the only look at the constraints is the one that phase one takes. It refuses
every program with a variable that no vector satisfies, so none of these is answered with a point; a
program without variables it does not look at.
-/

namespace ActiveSet.Dense

namespace Program

variable {p : Program ℝ} {kernels : Kernels ℝ} {settings : Settings ℝ} {q : Problem ℝ}
  {s : Solver ℝ}

/-- No vector satisfies the equations exactly and everything else to within the tolerance. -/
def Unsatisfiable (p : Program ℝ) (tol : ℝ) : Prop :=
  ∀ x, p.SatisfiedWithin tol x → ∃ e ∈ p.equal.pairs, Vec.dot e.1 x ≠ e.2

theorem equations_of_values (hp : p.Shaped) (hq : p.problem kernels = .ok q) {z : Point ℝ}
    (h : ∀ f ∈ q.equalities, f.toFactor.values z = f.b) :
    ∀ e ∈ p.equal.pairs, Vec.dot e.1 (coordinates z) = e.2 := by
  obtain ⟨_, hes, _⟩ := problem_eq_ok hq
  rcases equalities_eq_ok hp.equal hes with ⟨_, hnone⟩ | ⟨f, A, hf, hequates⟩
  · simp [hnone]
  · have hdefect := hequates.defect_eq z
    rw [Factor.defect, h f (hf ▸ List.mem_singleton_self f), Vec.sub_self_eq_zeros] at hdefect
    intro e he
    have hmem : Vec.dot e.1 (z.part variableKey) - e.2 ∈ Vec.zeros f.b.length :=
      hdefect ▸ List.mem_map_of_mem (f := fun e => Vec.dot e.1 (z.part variableKey) - e.2) he
    exact sub_eq_zero.1 (List.eq_of_mem_replicate hmem)

theorem not_unsatisfiable_of_startingPoint (hlp : kernels.ExactLinearProgram)
    (htol : 0 ≤ settings.feasibilityTolerance) (hp : p.Shaped) (hn : 0 < p.n)
    (hq : p.problem kernels = .ok q) (hs : Solver.ofProblem settings q = .ok s)
    {found : PhaseOne.Found ℝ} (h : s.startingPoint kernels {} = .ok found) :
    ¬p.Unsatisfiable settings.feasibilityTolerance := by
  intro hno
  have hmade := Solver.madeFrom_ofProblem hs
  have hdim := totalDim_ne_zero hn (lookup_dims hp hq hs)
  have hfills := Solver.fills_startingPoint hmade.wellFormed h
  have hfeas := Solver.feasibleWithin_of_findFeasible hlp hmade hdim htol h
  obtain ⟨e, he, hne⟩ := hno _ (satisfiedWithin_coordinates hp hq hs hfills hfeas)
  -- Within the tolerance the equations hold as all else does; phase one solves them exactly.
  refine hne (equations_of_values hp hq ?_ e he)
  rw [← hmade.equalities_eq]
  exact Solver.values_of_findFeasible hlp hmade.wellFormed hdim h

theorem optimize_of_startingPoint {cause : Fault ℝ}
    (h : s.startingPoint kernels {} = .error cause) :
    s.optimize kernels .largestMultiplier {} = .error (.fault cause) := by
  rw [Solver.optimize, Solver.run, Solver.initialState, h]
  rfl

/-- Whatever phase one refuses is answered as infeasible, unless the kernel has given up. -/
theorem status_of_startingPoint (hlp : kernels.ExactLinearProgram) (hs : s.WellFormed)
    {cause : Fault ℝ} (h : s.startingPoint kernels {} = .error cause) :
    p.conclude (.error (.fault cause)) = .ok (p.pointless .primalInfeasible) ∨
      cause = .badValue ∧ ∃ v, s.phaseOne.Feasible v := by
  rcases Solver.findFeasible_eq_error hlp hs h with rfl | ⟨slack, rfl⟩ | hfailed
  · exact .inl rfl
  · exact .inl rfl
  · exact .inr hfailed

/--
Without a start point, a program with a variable that no vector satisfies is answered as primal
infeasible whenever it is answered. Programs that were read have the shape, and a bound that is
absent stands for one that was not finite.
-/
theorem solve_unsatisfiable (hlp : kernels.ExactLinearProgram)
    (htol : 0 ≤ settings.feasibilityTolerance) (hp : p.Shaped) (hn : 0 < p.n)
    (hno : p.Unsatisfiable settings.feasibilityTolerance) {r : Result ℝ}
    (h : p.solve kernels settings none = .ok r) :
    r.status = .primalInfeasible ∧ r.status.hasSolution = false := by
  obtain ⟨q, s, hq, hs, h⟩ := exists_of_solve h
  have hstart : startAt none = {} := rfl
  rw [hstart] at h
  cases hpoint : s.startingPoint kernels {} with
  | ok found =>
      exact absurd hno (not_unsatisfiable_of_startingPoint hlp htol hp hn hq hs hpoint)
  | error cause =>
      rw [optimize_of_startingPoint hpoint] at h
      have hs := (Solver.madeFrom_ofProblem hs).wellFormed
      rcases status_of_startingPoint (p := p) hlp hs hpoint with hstatus | ⟨rfl, _⟩
      · obtain rfl := Except.ok.inj (hstatus.symm.trans h)
        exact ⟨rfl, rfl⟩
      · cases h

end Program

/-! ## An equation without a solution -/

namespace Inconsistent

/-- The only equation is `0 x = 1`. -/
noncomputable def arguments : Arguments ℝ where
  c := some ⟨[1], [0]⟩
  aEq := some ⟨[1, 1], [0]⟩
  bEq := some ⟨[1], [1]⟩

noncomputable def program : Program ℝ where
  n := 1
  c := [0]
  hessian := none
  equal := ⟨some ⟨[1, 1], [0]⟩, some [1]⟩
  atMost := ⟨none, none⟩
  lower := [none]
  upper := [none]

theorem read_arguments : arguments.read = .ok program := rfl

theorem not_equations (x : List ℝ) : ¬∀ e ∈ program.equal.pairs, Vec.dot e.1 x = e.2 := by
  intro h
  have hrow := h ([0], 1) (.head _)
  cases x <;> simp at hrow

theorem unsatisfiable (tol : ℝ) : program.Unsatisfiable tol := by
  intro x _
  simpa using not_equations x

theorem exists_solve (settings : Settings ℝ) (htol : 0 ≤ settings.feasibilityTolerance) :
    ∃ r, program.solve .exact settings none = .ok r := by
  obtain ⟨q, hq⟩ : ∃ q, program.problem .exact = .ok q := ⟨_, rfl⟩
  obtain ⟨s, hs⟩ : ∃ s, Solver.ofProblem settings q = .ok s := by
    cases hq
    exact ⟨_, rfl⟩
  have hshaped := Arguments.shaped_of_read read_arguments
  have hmade := Solver.madeFrom_ofProblem hs
  have hsolve : program.solve .exact settings none =
      program.conclude (s.optimize .exact .largestMultiplier {}) := by
    rw [Program.solve, hq, ok_bind, hs, ok_bind]
    rfl
  cases hpoint : s.startingPoint .exact {} with
  | ok found =>
      exact absurd (unsatisfiable _) (Program.not_unsatisfiable_of_startingPoint
        Kernels.exact_linearProgram htol hshaped Nat.one_pos hq hs hpoint)
  | error cause =>
      rw [hsolve, Program.optimize_of_startingPoint hpoint]
      rcases Program.status_of_startingPoint Kernels.exact_linearProgram hmade.wellFormed hpoint
        with hstatus | ⟨_, v, hv⟩
      · exact ⟨_, hstatus⟩
      · have hvalues := Solver.values_of_feasible hmade.wellFormed hv
        rw [hmade.equalities_eq] at hvalues
        exact absurd (Program.equations_of_values hshaped hq hvalues) (not_equations _)

end Inconsistent

theorem Program.solve_unsatisfiable_inconsistent : ∃ r,
    Inconsistent.program.solve .exact OneVariable.settings none = .ok r ∧
      r.status = .primalInfeasible ∧ r.status.hasSolution = false := by
  have htol := OneVariable.feasibilityTolerance_pos.le
  obtain ⟨r, hr⟩ := Inconsistent.exists_solve OneVariable.settings htol
  exact ⟨r, hr, Program.solve_unsatisfiable Kernels.exact_linearProgram htol
    (Arguments.shaped_of_read Inconsistent.read_arguments) Nat.one_pos
    (Inconsistent.unsatisfiable _) hr⟩

/-! ## A row without variables -/

namespace Empty

/-- No variables, and one row that asks for `0 ≤ -1`. -/
noncomputable def arguments : Arguments ℝ where
  c := some ⟨[0], []⟩
  aUb := some ⟨[1, 0], []⟩
  bUb := some ⟨[1], [-1]⟩

noncomputable def program : Program ℝ where
  n := 0
  c := []
  hessian := none
  equal := ⟨none, none⟩
  atMost := ⟨some ⟨[1, 0], []⟩, some [-1]⟩
  lower := []
  upper := []

theorem read_arguments : arguments.read = .ok program := rfl

theorem unsatisfiable {tol : ℝ} (htol : tol < 1) : program.Unsatisfiable tol := by
  intro x h
  have hrow := h.atMost ([], -1) (.head _)
  rw [Vec.dot_nil_left] at hrow
  linarith

noncomputable def row : Inequality ℝ where
  terms := Keyed.ofList [(variableKey, [])]
  bound := -1
  dual := .dual "ub" 0

noncomputable def problem : Problem ℝ :=
  .make (.linear (Keyed.ofList [(variableKey, [])])) [] [row]

theorem problem_program : program.problem .exact = .ok problem := rfl

/-- Nothing is to be decided, and so the solve ends at once. -/
theorem exists_solve (settings : Settings ℝ) (htol : 0 ≤ settings.tolerance)
    (hbudget : 0 < settings.maxIterations) :
    ∃ r, solve .exact settings arguments = .ok r ∧ r.status = .optimal := by
  let x : Point ℝ := Point.zero (Keyed.ofList [(variableKey, 0)])
  obtain ⟨s, hs, hdims, hequal, hrows, hu, ⟨g, hg⟩, b, hb⟩ : ∃ s,
      Solver.ofProblem settings problem = .ok s ∧ s.dims.entries = [(variableKey, 0)] ∧
      s.equalities = [] ∧ s.inequalities = [row] ∧
      s.initialState .exact {} = .ok (.initial x (.inactive [row])) ∧
      (∃ g, s.dualGraph (.inactive [row]) x = .ok g) ∧ ∃ b, s.value x = .ok b :=
    ⟨_, rfl, rfl, rfl, rfl, rfl, ⟨_, rfl⟩, ⟨_, rfl⟩⟩
  have hmade := Solver.madeFrom_ofProblem hs
  have hwf := hmade.wellFormed
  have hfactors : (WorkingSet.inactive [row]).factors = s.inequalities := hrows.symm
  have hworking : s.working (.inactive [row]) = [] := by
    rw [Solver.working, hequal]
    rfl
  obtain ⟨p, hp, hdirects⟩ := s.exists_direction Kernels.exact_leastSquares hwf hfactors (x := x)
    (fun f hf => Factor.fits_of_fills (hwf.over_cost f hf) (Solver.fills_initialState hwf hu))
    (by simp [hworking])
  have hnorm : Point.norm p = 0 := by
    by_contra hne
    exact hdirects.spans.totalDim_ne_zero hne (by rw [hdims]; rfl)
  have hindependent : s.Independent (.inactive [row]) := by simp [Solver.Independent, hworking]
  obtain ⟨duals, hduals, _⟩ := s.exists_multipliers Kernels.exact_leastSquares hwf hfactors
    (by simp [hworking]) hindependent hg
  have hsmall : Point.norm p ≤ s.settings.tolerance := by
    rwa [hnorm, hmade.settings_eq]
  have hiterate := Method.iterate_converge (m := s.method .exact .largestMultiplier)
    (s := .initial x (.inactive [row])) hp hsmall hduals rfl
  have hoptimize :=
    Solver.optimize_of_converged hu rfl (hmade.settings_eq ▸ hbudget) hiterate rfl hb
  rw [solve, read_arguments, ok_bind, Program.solve, problem_program, ok_bind, hs, ok_bind]
  exact ⟨_, congrArg program.conclude hoptimize, rfl⟩

end Empty

theorem solve_unsatisfiable_empty :
    Empty.arguments.x0 = none ∧ Empty.arguments.read = .ok Empty.program ∧
    Empty.program.Unsatisfiable OneVariable.settings.feasibilityTolerance ∧
    ∃ r, solve .exact OneVariable.settings Empty.arguments = .ok r ∧ r.status = .optimal :=
  ⟨rfl, Empty.read_arguments, Empty.unsatisfiable (by norm_num [OneVariable.settings]),
    Empty.exists_solve OneVariable.settings OneVariable.tolerance_pos.le (Nat.succ_pos 999)⟩

end ActiveSet.Dense
