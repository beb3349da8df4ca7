import ActiveSet.Proofs.Independence
import ActiveSet.Proofs.Starts

/-!
# Starting from a result

The multipliers of a result name the inequalities that are active there, so a solve that begins with
its own result ends where it begins. Only a result without multipliers says nothing: then the working
set is seeded by tightness.
-/

namespace ActiveSet

/-! ## Seeding -/

namespace WorkingSet

variable {K : Type} [Scalar K]

/-- Without multipliers nothing is active exactly if nothing counts as tight. -/
theorem seed_eq_inactive_iff {fs : List (Inequality K)} {x duals : Point K}
    (hempty : duals.entries = []) {tol : K} :
    seed fs x (some duals) tol = .ok (.inactive fs) ↔ ∀ f ∈ fs, f.isTight x tol = .ok false := by
  have hmask : fs.mapM (·.isTight x tol) = .ok (List.replicate fs.length false) ↔
      ∀ f ∈ fs, f.isTight x tol = .ok false := by
    rw [← List.map_const', mapM_eq_ok, List.forall₂_map_right_iff, List.forall₂_same]
  rw [← hmask, seed]
  simp only [hempty, List.isEmpty_nil, ↓reduceIte, bind_eq_ok]
  constructor
  · rintro ⟨mask, htight, h⟩
    unfold ofMask at h
    split at h
    · have hactive := congrArg WorkingSet.active (Except.ok.inj h)
      rwa [show mask = _ from hactive] at htight
    · cases h
  · intro htight
    exact ⟨_, htight, dif_pos List.length_replicate⟩

theorem eq_inactive {K : Type} {w : WorkingSet K} (h : w.flagged true = []) :
    w = .inactive w.factors := by
  refine eq_of_activeIndices rfl ?_
  have hnone : (inactive w.factors).activeIndices = [] := by
    refine List.eq_nil_iff_forall_not_mem.2 fun i hi => ?_
    cases List.eq_of_mem_replicate (List.mem_of_getElem? (mem_activeIndices.1 hi))
  rw [hnone, activeIndices, h, List.map_nil]

end WorkingSet

namespace Solver

variable {K : Type} [Scalar K] {s : Solver K} {kernels : Kernels K} {w : WorkingSet K}
  {x duals : Point K}

/-- Where nothing leaves, the multipliers seed the working set that they were computed for. -/
theorem seed_of_stay (hs : s.WellFormed)
    (hd : (s.equalities.map (·.dual) ++ s.inequalities.map (·.dual)).Nodup)
    (hw : w.factors = s.inequalities) (hduals : s.multipliers kernels w x = .ok duals)
    (hstay : LeavingRule.largestMultiplier w duals = .ok none) (hne : duals.entries ≠ [])
    (y : Point K) (tol : K) : WorkingSet.seed s.inequalities y (some duals) tol = .ok w := by
  have hmask : (s.inequalities.map fun f => duals.contains f.dual) = w.active := by
    have hlen : s.inequalities.length = w.active.length := by rw [← hw, w.size_eq]
    refine List.ext_getElem (by simpa using hlen) fun i hi hj => ?_
    have hfactor : i < s.inequalities.length := by simpa using hi
    have he : (s.inequalities[i], i) ∈ w.flagged w.active[i] := by
      rw [WorkingSet.mem_flagged, hw, List.getElem?_eq_getElem hfactor, List.getElem?_eq_getElem hj]
      exact ⟨rfl, rfl⟩
    rw [List.getElem_map, Bool.eq_iff_iff, Keyed.contains, Option.isSome_iff_exists,
      ← Keyed.mem_keys_iff]
    constructor
    · exact active_of_multipliers hs hd hw hduals he
    · intro hactive
      rw [hactive] at he
      obtain ⟨a, ha⟩ := LeavingRule.multiplier_of_largestMultiplier hstay he
      obtain ⟨rest, hlookup⟩ := LeavingRule.multiplier_eq_ok.1 ha
      exact (Keyed.mem_keys_iff _).2 ⟨_, hlookup⟩
  rw [WorkingSet.seed]
  simp only [List.isEmpty_iff, hne, ↓reduceIte, hmask]
  rw [← hw]
  exact dif_pos w.size_eq

theorem flagged_of_no_multipliers (hstay : LeavingRule.largestMultiplier w duals = .ok none)
    (hempty : duals.entries = []) : w.flagged true = [] := by
  refine List.eq_nil_iff_forall_not_mem.2 fun e he => ?_
  obtain ⟨a, ha⟩ := LeavingRule.multiplier_of_largestMultiplier hstay he
  obtain ⟨rest, hlookup⟩ := LeavingRule.multiplier_eq_ok.1 ha
  have hmem := (Keyed.lookup_iff duals).1 hlookup
  rw [hempty] at hmem
  cases hmem

end Solver

/-! ## Runs that end at once -/

namespace Method

variable {K : Type} [Scalar K] {m : Method K} {u t : State K}

/-- Where an iteration has converged, one that begins there converges as well. -/
theorem iterate_of_converged (h : m.iterate u = .ok t) (ht : t.hasConverged = true) :
    m.iterate (.initial t.values t.workingSet) = .ok { t with iterations := 1 } := by
  obtain ⟨p, hp, hstep⟩ := step_of_iterate h
  cases hstep with
  | converge small solved stay => exact iterate_converge (s := .initial _ _) hp small solved stay
  | drop | block | move => cases ht

/-- A run counts its iterations. -/
theorem iterations_runFrom {budget : Nat} {seen : List (List Nat)} :
    ∀ v ∈ u :: (m.runFrom budget seen u).states, v = u ∨ 0 < v.iterations := by
  refine runFrom_invariant (P := fun v => v = u ∨ 0 < v.iterations) budget seen (.inl rfl)
    fun v _ w _ h => .inr ?_
  obtain ⟨p, _, hstep⟩ := step_of_iterate h
  cases hstep <;> exact Nat.succ_pos _

end Method

/-! ## Solves -/

namespace Solver

variable {K : Type} [Scalar K] {settings : Settings K} {p : Problem K} {s : Solver K}
  {kernels : Kernels K} {leaving : LeavingRule K} {start : Start K} {r : Solution K}

/-- From the point and the working set of a result one iteration leads to the result. -/
theorem optimize_of_rest {start' : Start K} (h : s.optimize kernels leaving start = .ok r)
    (hrest : s.initialState kernels start' = .ok (.initial r.last.values r.last.workingSet)) :
    s.optimize kernels leaving start' = .ok { r with last := { r.last with iterations := 1 } } := by
  obtain ⟨_, v, _, _, hiterate, hconv, hbudget, hobjective⟩ := exists_of_optimize h
  exact optimize_of_converged hrest rfl hbudget (Method.iterate_of_converged hiterate hconv) hconv
    hobjective

/-- A solve of one iteration ends with the working set that it began with. -/
theorem workingSet_of_one_iteration (h : s.optimize kernels leaving start = .ok r)
    (hone : r.last.iterations = 1) {u : State K} (hu : s.initialState kernels start = .ok u) :
    r.last.workingSet = u.workingSet := by
  obtain ⟨u', v, hu', hv, hiterate, hconv, _⟩ := exists_of_optimize h
  cases hu.symm.trans hu'
  obtain ⟨duals, _, _, hlast⟩ := Method.exists_of_converged hiterate hconv
  rw [hlast] at hone ⊢
  rcases Method.iterations_runFrom v hv with rfl | hpos
  · rfl
  · exact absurd (Nat.succ_injective hone) hpos.ne'

/-- A result without multipliers has nothing active. -/
theorem flagged_of_duals_empty (h : s.optimize kernels .largestMultiplier start = .ok r)
    (hempty : r.last.duals.entries = []) : r.last.workingSet.flagged true = [] := by
  obtain ⟨_, _, _, _, hiterate, hconv, _⟩ := exists_of_optimize h
  obtain ⟨_, _, hstay, hlast⟩ := Method.exists_of_converged hiterate hconv
  rw [hlast] at hempty ⊢
  exact flagged_of_no_multipliers hstay hempty

/-- The start that a result offers to the next solve. -/
def warm (r : Solution K) : Start K where
  point := some r.last.values
  duals := some r.last.duals

theorem startingPoint_warm (hs : s.WellFormed) (h : s.optimize kernels leaving start = .ok r)
    (hzeros : r.last.values.AddsToZeros)
    (hcheck : s.settings.checkFeasibility = true → s.checkFeasibility r.last.values = .ok ()) :
    s.startingPoint kernels (warm r) = .ok { point := r.last.values, slack := none } := by
  obtain ⟨u, v, hu, hv, hiterate, hconv, _⟩ := exists_of_optimize h
  obtain ⟨_, _, _, hlast⟩ := Method.exists_of_converged hiterate hconv
  have hfront := Method.front_runFrom (front_initialState hs hu) v hv
  have hfills := Method.fills_runFrom (fills_initialState hs hu) v hv
  have hvalues : r.last.values = v.values := by rw [hlast]
  rw [← hvalues] at hfront hfills
  rw [startingPoint, warm]
  dsimp only
  rw [Point.add_zero_of_fills hzeros hfront hfills, ok_bind]
  split
  · rw [hcheck ‹_›]
    rfl
  · rfl

theorem initialState_warm (hs : s.WellFormed) (h : s.optimize kernels leaving start = .ok r)
    (hzeros : r.last.values.AddsToZeros)
    (hcheck : s.settings.checkFeasibility = true → s.checkFeasibility r.last.values = .ok ())
    {u : State K} : s.initialState kernels (warm r) = .ok u ↔ ∃ w,
      WorkingSet.seed s.inequalities r.last.values (some r.last.duals) s.settings.activeTolerance =
        .ok w ∧ u = .initial r.last.values w := by
  rw [initialState, startingPoint_warm hs h hzeros hcheck, ok_bind]
  simp only [bind_eq_ok, pure_eq_ok, eq_comm (a := u)]
  rfl

/--
A solve that begins with its own result ends with it after one iteration, exactly if the result has
multipliers to seed the working set from or tightness would make nothing active.
-/
theorem optimize_warm (hs : Solver.ofProblem settings p = .ok s) (hd : p.DistinctDuals)
    (hset : ∀ w, start.workingSet = some w → w.factors = s.inequalities)
    (h : s.optimize kernels .largestMultiplier start = .ok r) (hzeros : r.last.values.AddsToZeros)
    (hcheck : settings.checkFeasibility = true → s.checkFeasibility r.last.values = .ok ()) :
    s.optimize kernels .largestMultiplier (warm r) =
        .ok { r with last := { r.last with iterations := 1 } } ↔
      r.last.duals.entries ≠ [] ∨
        ∀ f ∈ p.inequalities, f.isTight r.last.values settings.activeTolerance = .ok false := by
  have hmade := madeFrom_ofProblem hs
  have hwf := hmade.wellFormed
  rw [← hmade.settings_eq] at hcheck ⊢
  rw [← hmade.inequalities_eq]
  have hwarm := fun u => initialState_warm (u := u) hwf h hzeros hcheck
  obtain ⟨u, v, hu, hv, hiterate, hconv, _⟩ := exists_of_optimize h
  obtain ⟨duals, hduals, hstay, hlast⟩ := Method.exists_of_converged hiterate hconv
  have hfactors : v.workingSet.factors = s.inequalities := by
    obtain ⟨found, w, _, hw, rfl⟩ := exists_of_initialState hu
    exact (Method.factors_runFrom v hv).trans (factors_startingSet hset hw)
  have hset' : r.last.workingSet = v.workingSet := by rw [hlast]
  have hduals' : r.last.duals = duals := by rw [hlast]
  by_cases hempty : r.last.duals.entries = []
  · have hinactive : r.last.workingSet = .inactive s.inequalities := by
      rw [hset', ← hfactors]
      exact WorkingSet.eq_inactive (hset' ▸ flagged_of_duals_empty h hempty)
    rw [← WorkingSet.seed_eq_inactive_iff hempty]
    refine ⟨fun hfixed => .inr ?_, fun hseed => ?_⟩
    · obtain ⟨u', _, hu', _⟩ := exists_of_optimize hfixed
      obtain ⟨w, hw, rfl⟩ := (hwarm u').1 hu'
      have hsame := workingSet_of_one_iteration hfixed rfl hu'
      rw [hw, ← hinactive]
      exact congrArg Except.ok hsame.symm
    · refine optimize_of_rest h ((hwarm _).2 ⟨_, hseed.resolve_left fun hne => hne hempty, ?_⟩)
      rw [hinactive]
  · have hdistinct : (s.equalities.map (·.dual) ++ s.inequalities.map (·.dual)).Nodup := by
      rw [hmade.equalities_eq, hmade.inequalities_eq]
      exact hd
    have hseed := seed_of_stay hwf hdistinct hfactors hduals hstay (hduals' ▸ hempty) r.last.values
      s.settings.activeTolerance
    rw [← hduals', ← hset'] at hseed
    exact ⟨fun _ => .inl hempty, fun _ => optimize_of_rest h ((hwarm _).2 ⟨_, hseed, rfl⟩)⟩

end Solver

namespace OneVariable

theorem optimize_warm_nearest : ∃ r : Solution ℝ,
    (nearestSolver settings 5 3).optimize .exact .largestMultiplier (startBelow 3 0) = .ok r ∧
      (nearestSolver settings 5 3).checkFeasibility r.last.values = .ok () ∧
      r.last.duals.entries ≠ [] ∧
      (nearestSolver settings 5 3).optimize .exact .largestMultiplier (Solver.warm r) =
        .ok { r with last := { r.last with iterations := 1 } } := by
  obtain ⟨_, v, objective, _, _, _, hagrees, hsolve⟩ := optimize_below_zero
  have hcheck : (nearestSolver settings 5 3).checkFeasibility v.values = .ok () := by
    rw [hagrees.values_eq]
    exact checkFeasibility_below feasibilityTolerance_pos 5 le_rfl
  have hne : v.duals.entries ≠ [] := fun hempty => by
    have hnone := Solver.flagged_of_duals_empty hsolve hempty
    rw [show v.workingSet = _ from hagrees.workingSet_eq] at hnone
    cases hnone
  refine ⟨_, hsolve, hcheck, hne, ?_⟩
  exact (Solver.optimize_warm (ofProblem_nearest settings 5 3) (List.nodup_singleton _)
    (fun w hw => by rw [← Option.some.inj hw]; rfl) hsolve (Point.addsToZeros_real _)
    fun _ => hcheck).2 (.inl hne)

/-- Where the target is the bound the solve needs no multiplier and leaves the bound inactive. -/
theorem optimize_startBelow (bound : ℝ) : ∃ b t,
    (nearestSolver settings bound bound).optimize .exact .largestMultiplier (startBelow bound bound) =
      .ok ⟨b, t⟩ ∧
    t.values = point bound ∧ t.workingSet = (below bound bound).workingSet ∧ t.duals = .empty := by
  obtain ⟨b, hvalue⟩ : ∃ b, (nearestSolver settings bound bound).value (point bound) = .ok b :=
    ⟨_, rfl⟩
  have hstart : (nearestSolver settings bound bound).initialState .exact (startBelow bound bound) =
      .ok (below bound bound) :=
    initialState_below feasibilityTolerance_pos bound le_rfl
  have hdirection := direction_below settings bound bound bound
  rw [sub_self] at hdirection
  have hsmall : Point.norm (point 0) ≤ settings.tolerance := by
    rw [norm_point, abs_zero]
    exact tolerance_pos.le
  have hsolved : (nearestSolver settings bound bound).multipliers .exact (below bound bound).workingSet
      (below bound bound).values = .ok .empty := rfl
  have hiterate := Method.iterate_converge
    (m := (nearestSolver settings bound bound).method .exact .largestMultiplier)
    (s := below bound bound) hdirection hsmall hsolved rfl
  have hsolve := Solver.optimize_of_converged hstart rfl (Nat.succ_pos 999) hiterate rfl hvalue
  exact ⟨_, _, hsolve, rfl, rfl, rfl⟩

/--
The result with the bound inactive has no multipliers. The solve that starts from it takes the bound
for active, because it is tight there, and so ends with another result.
-/
theorem optimize_warm_untold : ∃ r r' : Solution ℝ,
    (nearestSolver settings 3 3).optimize .exact .largestMultiplier (startBelow 3 3) = .ok r ∧
      (nearestSolver settings 3 3).checkFeasibility r.last.values = .ok () ∧
      (nearestSolver settings 3 3).optimize .exact .largestMultiplier (Solver.warm r) = .ok r' ∧
      r.last.workingSet.activeIndices = [] ∧ r'.last.workingSet.activeIndices = [0] := by
  have hcheck := checkFeasibility_below feasibilityTolerance_pos 3 (le_refl (3 : ℝ))
  obtain ⟨b, t, hsolve, hvalues, hset, hduals⟩ := optimize_startBelow 3
  obtain ⟨v, hiterate, hvalues', hset', hconv⟩ := iterate_atBound settings 3 3 tolerance_pos.le le_rfl
  rw [← hvalues] at hcheck
  have hwarm : (nearestSolver settings 3 3).initialState .exact (Solver.warm ⟨b, t⟩) =
      .ok (atBound 3) := by
    have hwf := (madeFrom_nearest settings 3 3).wellFormed
    refine (Solver.initialState_warm hwf hsolve (Point.addsToZeros_real _) fun _ => hcheck).2
      ⟨(atBound 3).workingSet, ?_, by rw [hvalues]; rfl⟩
    rw [hvalues, hduals]
    change WorkingSet.seed [atMost 1 3 0] (point 3) none settings.activeTolerance = _
    refine seed_firstEnforced (fits_atMost _ _ _ _) ?_ (List.forall_mem_nil _)
    rw [value_atMost, part_point]
    norm_num [settings]
  obtain ⟨b', hvalue⟩ : ∃ b, (nearestSolver settings 3 3).value v.values = .ok b := by
    rw [hvalues']
    exact ⟨_, rfl⟩
  refine ⟨_, _, hsolve, hcheck,
    Solver.optimize_of_converged hwarm rfl (Nat.succ_pos 999) hiterate hconv hvalue, ?_, ?_⟩
  · rw [hset]
    rfl
  · rw [hset']
    rfl

end OneVariable

end ActiveSet
