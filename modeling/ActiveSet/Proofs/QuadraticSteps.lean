import ActiveSet.Proofs.Descent
import ActiveSet.Proofs.Residuals
import ActiveSet.Proofs.Transitions

/-!
# Steps of quadratic programs

A quadratic direction ends where the enforced constraints hold and nothing is left to gain along
them. So from a start that is not tight a step shrinks what is left of every enforced constraint, and
a step of full length leads to a point at which the next direction is zero.
-/

namespace ActiveSet

/-! ## Residuals -/

/--
A step of length `α` leaves `1 - α` of every enforced constraint, if some point satisfies them all.
-/
theorem Solver.scaled_of_step {kernels : Kernels ℝ} (hk : kernels.ExactLeastSquares)
    {s : Solver ℝ} (hs : s.WellFormed) {leaving : LeavingRule ℝ} {u v : State ℝ}
    (hw : u.workingSet.factors = s.inequalities) (hsolvable : s.Solvable u.workingSet) {d : Point ℝ}
    (hd : s.direction kernels u.workingSet u.values = .ok d)
    (hstep : (s.method kernels leaving).Step u d v) {α : ℝ} (hα : v.alpha = some α)
    {c : Equality ℝ} (hc : c ∈ s.working u.workingSet) :
    c.toFactor.Fits u.values ∧ c.toFactor.Fits v.values ∧
      c.toFactor.defect v.values = Vec.scale (1 - α) (c.toFactor.defect u.values) := by
  have hdirects := directs_of_direction hk hs hw hd
  have hfits := (fits_of_direction hd).1 c hc
  have hover := hs.over_working hw c.toFactor (List.mem_map_of_mem hc)
  exact ⟨hfits, hstep.fits hdirects.spans hover hfits,
    hstep.defect_of_alpha hα (hdirects.cancels hs hw hsolvable hc)⟩

/--
A step of a quadratic program, from a state whose enforced constraints some point satisfies, has a
length `α` of at most one. It multiplies the residuals of all enforced constraints by `1 - α`, and
where no inequality was violated before it none is after it.
-/
theorem Solver.residuals_shrink {kernels : Kernels ℝ} (hk : kernels.ExactLeastSquares)
    {settings : Settings ℝ} {p : Problem ℝ} {factors : Graph ℝ} (hcost : p.cost = .quadratic factors)
    {s : Solver ℝ} (hs : Solver.ofProblem settings p = .ok s) (leaving : LeavingRule ℝ)
    {u v : State ℝ} (hw : u.workingSet.factors = p.inequalities)
    (hsolvable : s.Solvable u.workingSet) (h : (s.method kernels leaving).iterate u = .ok v) {α : ℝ}
    (hα : v.alpha = some α) :
    (0 ≤ α ∧ α ≤ 1) ∧
      (∀ f ∈ p.equalities, ∃ r, f.toFactor.residual u.values = .ok r ∧
        f.toFactor.residual v.values = .ok (Vec.scale (1 - α) r)) ∧
      (∀ e ∈ u.workingSet.flagged true, ∃ r, e.1.excess u.values = .ok r ∧
        e.1.excess v.values = .ok ((1 - α) * r)) ∧
      ((∀ f ∈ p.inequalities, ∃ a, f.excess u.values = .ok a ∧ a ≤ 0) →
        ∀ f ∈ p.inequalities, ∃ a, f.excess v.values = .ok a ∧ a ≤ 0) := by
  have hmade := madeFrom_ofProblem hs
  have hwf := hmade.wellFormed
  have hquadratic := objective_of_quadratic hcost hs
  have hw' := hw.trans hmade.inequalities_eq.symm
  obtain ⟨d, hd, hstep⟩ := Method.step_of_iterate h
  have hdirects := directs_of_direction hk hwf hw' hd
  have hscaled := fun c hc => scaled_of_step (c := c) hk hwf hw' hsolvable hd hstep hα hc
  refine ⟨?_, fun f hf => ?_, fun e he => ?_, fun hfeasible f hf => ?_⟩
  · obtain ⟨_, hnonneg, _, hcap⟩ := hstep.of_alpha hα
    have hone : s.cap = .at 1 := by rw [cap, hquadratic]
    exact ⟨hnonneg, by simpa using hcap 1 hone⟩
  · have hc : f ∈ s.working u.workingSet := mem_working.2 (.inl (hmade.equalities_eq ▸ hf))
    obtain ⟨hbefore, hafter, hscale⟩ := hscaled f hc
    exact ⟨_, f.toFactor.residual_eq_ok.2 ⟨hbefore, rfl⟩,
      f.toFactor.residual_eq_ok.2 ⟨hafter, hscale.symm⟩⟩
  · have hc : e.1.toEquality ∈ s.working u.workingSet := mem_working.2 (.inr ⟨e, he, rfl⟩)
    obtain ⟨hbefore, hafter, hscale⟩ := hscaled _ hc
    rw [Inequality.fits_toEquality] at hbefore hafter
    exact ⟨_, e.1.excess_eq_ok.2 ⟨hbefore, rfl⟩,
      e.1.excess_eq_ok.2 ⟨hafter, (Inequality.excess_of_scale hscale).symm⟩⟩
  · obtain ⟨hbefore, hle⟩ := Inequality.holds_iff.1 (hfeasible f hf)
    have hsettled : s.Settled u := ⟨hsolvable, .inl hquadratic⟩
    exact Inequality.holds_iff.2 ⟨(hmade.fits_of_step hdirects.spans hstep).2 f hf hbefore,
      hsettled.excess_le hwf hw' hdirects hstep le_rfl (hw.symm ▸ hf) hle⟩

namespace OneVariable

section Slack

variable (settings : Settings ℝ) (target bound : ℝ)

/-- The state at `x` with the inequality enforced, whether it is tight or not. -/
noncomputable def slack (x : ℝ) : State ℝ := .initial (point x) (firstEnforced (atMost 1 bound 0) [])

/-- The point at the bound of the only inequality that may be enforced satisfies it. -/
theorem solvable_of_working {s : Solver ℝ} {w : WorkingSet ℝ} {b : ℝ} {i : Int}
    (h : ∀ c ∈ s.working w, c = (atMost 1 b i).toEquality) : s.Solvable w := by
  refine ⟨point b, fun c hc => ?_⟩
  rw [h c hc, Inequality.defect_toEquality, value_atMost, part_point, Vec.dot_singleton, one_mul,
    List.headD_cons, bound_atMost, sub_self]
  rfl

theorem solvable_nearest {w : WorkingSet ℝ} (hw : w.factors = (nearest target bound).inequalities) :
    (nearestSolver settings target bound).Solvable w := by
  refine solvable_of_working (b := bound) (i := 0) fun c hc => ?_
  rcases Solver.mem_working.1 hc with hc | ⟨e, he, rfl⟩
  · cases hc
  · have hmem := WorkingSet.mem_factors_of_flagged he
    rw [hw] at hmem
    rw [List.mem_singleton.1 hmem]

/-- From below the bound the enforced inequality takes the point to it in a single step. -/
theorem iterate_slack (leaving : LeavingRule ℝ) {x : ℝ} (hx : x < bound)
    (htol : settings.tolerance < bound - x) :
    ∃ v, ((nearestSolver settings target bound).method .exact leaving).iterate (slack bound x) =
      .ok v ∧ v.alpha = some 1 ∧ v.phase = .moved ∧ v.values = point bound ∧
        v.workingSet = (atBound bound).workingSet := by
  have hdirection : (nearestSolver settings target bound).direction .exact (slack bound x).workingSet
      (point x) = .ok (point (bound - x)) := by
    have h := direction_enforced (madeFrom_nearest settings target bound).wellFormed rfl
      (w := (slack bound x).workingSet) rfl one_ne_zero (b := bound) (x := x) (i := 0) rfl
      (List.forall_mem_singleton.2 (fits_pull target x))
    rwa [div_one] at h
  have hlarge : settings.tolerance < Point.norm (point (bound - x)) := by
    rwa [norm_point, abs_of_pos (sub_pos.2 hx)]
  have hadd : Point.add (point x) (Point.scale (max 1 0) (point (bound - x))) =
      .ok (point bound) := by
    change Except.ok (point (x + 1 * (max 1 0 * (bound - x)))) = _
    rw [max_eq_left zero_le_one, one_mul, one_mul, add_sub_cancel]
  have hiterate := Method.iterate_move
    (m := (nearestSolver settings target bound).method .exact leaving) (s := slack bound x)
    hdirection hlarge (WorkingSet.blocking_ok_none (List.forall_mem_nil _)) (c := 1) rfl hadd
  exact ⟨_, hiterate, congrArg some (max_eq_left zero_le_one), rfl, rfl, rfl⟩

end Slack

/--
The enforced inequality asks for five, and the step towards it stops at the bound three of the other
one: two fifths of the residual remain.
-/
theorem residuals_shrink_between : ∃ v,
    (betweenSolver settings 0 1 5 1 3).Solvable (firstEnforced (atMost 1 5 0) [atMost 1 3 1]) ∧
    ((betweenSolver settings 0 1 5 1 3).method .exact .largestMultiplier).iterate
      (.initial (point 0) (firstEnforced (atMost 1 5 0) [atMost 1 3 1])) = .ok v ∧
    v.alpha = some (3 / 5) ∧
    (atMost 1 5 0).excess (point 0) = .ok (-5) ∧
    (atMost 1 5 0).excess v.values = .ok ((1 - 3 / 5) * -5) ∧
    ∃ a, (atMost 1 3 1).excess v.values = .ok a ∧ a ≤ 0 := by
  have hdirection : (betweenSolver settings 0 1 5 1 3).direction .exact
      (firstEnforced (atMost 1 5 0) [atMost 1 3 1]) (point 0) = .ok (point (5 - 0)) := by
    have h := direction_enforced (wellFormed_between settings 0 1 5 1 3) rfl
      (w := firstEnforced (atMost 1 5 0) [atMost 1 3 1]) rfl one_ne_zero (b := 5) (x := 0) (i := 0) rfl
      (List.forall_mem_singleton.2 (fits_pull 0 0))
    rwa [div_one] at h
  have hsolvable : (betweenSolver settings 0 1 5 1 3).Solvable
      (firstEnforced (atMost 1 5 0) [atMost 1 3 1]) :=
    solvable_of_working (List.forall_mem_singleton.2 rfl)
  obtain ⟨v, hv, halpha, _⟩ := iterate_blocked
    (m := (betweenSolver settings 0 1 5 1 3).method .exact .largestMultiplier)
    (f := atMost 1 3 1) rfl rfl rfl (x := 0) (by norm_num) (by norm_num) hdirection
    (List.forall_mem_nil _) rfl (tolerance_lt_one.trans (by norm_num))
  have hfraction : v.alpha = some (3 / 5) := by
    norm_num [halpha]
  obtain ⟨_, _, hactive, hkept⟩ := Solver.residuals_shrink Kernels.exact_leastSquares rfl
    (ofProblem_between settings 0 1 5 1 3) .largestMultiplier rfl hsolvable hv hfraction
  have hbefore : (atMost 1 5 0).excess (point 0) = .ok (-5) := by
    norm_num [excess_atMost]
  obtain ⟨r, hr, hafter⟩ := hactive (atMost 1 5 0, 0) (.head _)
  obtain rfl := Except.ok.inj (hbefore.symm.trans hr)
  refine ⟨v, hsolvable, hv, hfraction, hbefore, hafter, hkept ?_ _ (.tail _ (.head _))⟩
  refine List.forall_mem_cons.2 ⟨⟨_, excess_atMost .., ?_⟩,
    List.forall_mem_singleton.2 ⟨_, excess_atMost .., ?_⟩⟩ <;> norm_num

end OneVariable

/-! ## Full steps -/

namespace Solver

variable {kernels : Kernels ℝ} {settings : Settings ℝ} {p : Problem ℝ} {s : Solver ℝ}
  {leaving : LeavingRule ℝ} {u v : State ℝ}

/-- After a step that no inequality cut short the direction is zero. -/
theorem direction_of_moved (hk : kernels.ExactLeastSquares) (hs : s.MadeFrom settings p)
    (hquadratic : s.objective = .quadratic) (hw : u.workingSet.factors = p.inequalities)
    (hsolvable : s.Solvable u.workingSet) (h : (s.method kernels leaving).iterate u = .ok v)
    (hmoved : v.phase = .moved) :
    ∃ d, s.direction kernels v.workingSet v.values = .ok d ∧ Point.norm d = 0 := by
  have hwf := hs.wellFormed
  have hw' := hw.trans hs.inequalities_eq.symm
  obtain ⟨d, hd, hstep⟩ := Method.step_of_iterate h
  have hdirects := directs_of_direction hk hwf hw' hd
  obtain ⟨hset, c, hcap, hα⟩ := hstep.of_moved hmoved
  have hone : max c 0 = 1 := by
    have hcap' : s.cap = .at 1 := by rw [cap, hquadratic]
    obtain rfl := Cap.at.inj (hcap'.symm.trans hcap)
    exact max_eq_left zero_le_one
  have hscaled := fun c hc => scaled_of_step (c := c) hk hwf hw' hsolvable hd hstep hα hc
  obtain ⟨e, he, hdirects'⟩ := exists_direction hk hwf (w := u.workingSet) (x := v.values) hw'
    (fun f hf => hstep.fits hdirects.spans (hwf.over_cost f hf)
      ((fits_of_direction hd).2 hquadratic f hf)) fun c hc => (hscaled c hc).2.1
  -- The step goes all the way, so the enforced constraints hold where it ends.
  have htight : ∀ c ∈ s.working u.workingSet,
      c.toFactor.defect v.values = Vec.zeros c.toFactor.rows := by
    intro c hc
    rw [(hscaled c hc).2.2, hone, sub_self, Vec.zero_scale, Factor.length_defect]
  obtain ⟨_, _, hadd, _⟩ := hstep.of_alpha hα
  rw [hset]
  exact ⟨e, he, norm_eq_zero_of_full hk hwf hw' hdirects hcap hadd he (hdirects'.free htight)⟩

end Solver

/-- Where the direction is zero an iteration converges or drops an inequality, if it returns. -/
theorem Method.phase_of_norm_eq_zero {m : Method ℝ} {s t : State ℝ} {p : Point ℝ}
    (htol : 0 ≤ m.settings.tolerance) (hp : m.direction s.workingSet s.values = .ok p)
    (hzero : Point.norm p = 0) (h : m.iterate s = .ok t) :
    t.phase = .converged ∨ ∃ ix a, t.phase = .deactivated ix a := by
  obtain ⟨d, hd, hstep⟩ := step_of_iterate h
  obtain rfl := Except.ok.inj (hp.symm.trans hd)
  have hsmall : Point.norm p ≤ m.settings.tolerance := hzero.trans_le htol
  cases hstep with
  | converge => exact .inl rfl
  | drop => exact .inr ⟨_, _, rfl⟩
  | block large => exact absurd hsmall large
  | move large => exact absurd hsmall large

/-- What holds of the last two of three states that follow each other holds along the later ones. -/
private theorem isChain_of_triples {R Q : State ℝ → State ℝ → Prop} {u : State ℝ}
    {l : List (State ℝ)} (h : (u :: l).IsChain R)
    (hQ : ∀ v ∈ u :: l, ∀ s t, R v s → R s t → Q s t) : l.IsChain Q := by
  induction l generalizing u with
  | nil => exact .nil
  | cons s l ih =>
      obtain ⟨hs, hrest⟩ := List.isChain_cons_cons.1 h
      have hlater := ih hrest fun v hv => hQ v (.tail _ hv)
      cases l with
      | nil => exact .singleton s
      | cons t l =>
          have ht := (List.isChain_cons_cons.1 hrest).1
          exact List.isChain_cons_cons.2 ⟨hQ u (.head _) s t hs ht, hlater⟩

/--
A step of a quadratic program that no inequality cut short is followed by a direction that is zero,
if some point satisfies the enforced constraints. So an iteration after it converges or drops an
inequality, and in a run no two such steps come one after the other.
-/
theorem Solver.full_step_rests {kernels : Kernels ℝ} (hk : kernels.ExactLeastSquares)
    {settings : Settings ℝ} (htol : 0 ≤ settings.tolerance) {p : Problem ℝ} {factors : Graph ℝ}
    (hcost : p.cost = .quadratic factors) {s : Solver ℝ}
    (hs : Solver.ofProblem settings p = .ok s) (leaving : LeavingRule ℝ) :
    (∀ u v, u.workingSet.factors = p.inequalities → s.Solvable u.workingSet →
      (s.method kernels leaving).iterate u = .ok v → v.phase = .moved →
      (∃ d, s.direction kernels v.workingSet v.values = .ok d ∧
        ∀ k a, d.lookup k = some a → a = Vec.zeros a.length) ∧
      ∀ t, (s.method kernels leaving).iterate v = .ok t →
        t.phase = .converged ∨ ∃ ix a, t.phase = .deactivated ix a) ∧
      ∀ u budget seen, u.workingSet.factors = p.inequalities →
        (∀ t ∈ u :: ((s.method kernels leaving).runFrom budget seen u).states,
          s.Solvable t.workingSet) →
        ((s.method kernels leaving).runFrom budget seen u).states.IsChain fun v t =>
          v.phase = .moved → t.phase = .converged ∨ ∃ ix a, t.phase = .deactivated ix a := by
  have hmade := madeFrom_ofProblem hs
  have hquadratic := objective_of_quadratic hcost hs
  rw [← hmade.settings_eq] at htol
  have hnext : ∀ u v, u.workingSet.factors = p.inequalities → s.Solvable u.workingSet →
      (s.method kernels leaving).iterate u = .ok v → v.phase = .moved →
      ∃ d, s.direction kernels v.workingSet v.values = .ok d ∧ Point.norm d = 0 := by
    intro u v hw hsolvable h hmoved
    exact direction_of_moved hk hmade hquadratic hw hsolvable h hmoved
  refine ⟨fun u v hw hsolvable h hmoved => ?_, fun u budget seen hw hsolvable => ?_⟩
  · obtain ⟨d, hd, hzero⟩ := hnext u v hw hsolvable h hmoved
    refine ⟨⟨d, hd, fun k a ha => ?_⟩, fun t ht => Method.phase_of_norm_eq_zero htol hd hzero ht⟩
    rw [← Point.part_of_lookup ha]
    exact Point.part_of_norm_eq_zero hzero k
  · refine isChain_of_triples Method.isChain_runFrom fun x hx v t hv ht hmoved => ?_
    have hfactors := (Method.factors_runFrom x hx).trans hw
    obtain ⟨d, hd, hzero⟩ := hnext x v hfactors (hsolvable x hx) hv hmoved
    exact Method.phase_of_norm_eq_zero htol hd hzero ht

namespace OneVariable

theorem full_step_rests_slack : (nearestSolver settings 3 5).Solvable (slack 5 0).workingSet ∧
    ∃ v, ((nearestSolver settings 3 5).method .exact .largestMultiplier).iterate (slack 5 0) = .ok v ∧
      v.phase = .moved ∧
      (∃ d, (nearestSolver settings 3 5).direction .exact v.workingSet v.values = .ok d ∧
        ∀ k a, d.lookup k = some a → a = Vec.zeros a.length) ∧
      ∀ budget, (((nearestSolver settings 3 5).method .exact .largestMultiplier).runFrom budget []
        (slack 5 0)).states.IsChain fun v t =>
          v.phase = .moved → t.phase = .converged ∨ ∃ ix a, t.phase = .deactivated ix a := by
  have hsolvable := solvable_nearest settings 3 5 (w := (slack 5 0).workingSet) rfl
  obtain ⟨v, hv, _, hmoved, _⟩ := iterate_slack settings 3 5 .largestMultiplier (x := 0)
    (by norm_num) (by norm_num [settings])
  obtain ⟨hstep, hrun⟩ := Solver.full_step_rests Kernels.exact_leastSquares
    tolerance_pos.le rfl (ofProblem_nearest settings 3 5) .largestMultiplier
  refine ⟨hsolvable, v, hv, hmoved, (hstep _ v rfl hsolvable hv hmoved).1, fun budget => ?_⟩
  exact hrun _ budget [] rfl fun t ht =>
    solvable_nearest settings 3 5 (Method.factors_runFrom t ht)

end OneVariable

end ActiveSet
