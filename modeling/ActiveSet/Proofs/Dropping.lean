import ActiveSet.Proofs.Stationarity

/-!
# Dropped inequalities

An inequality is dropped for its positive multiplier. The direction is then computed with one
constraint less, and because multipliers are unique it cannot be zero again: it leads off the dropped
inequality, which therefore does not block the next step.
-/

namespace ActiveSet

namespace Solver

variable {s : Solver ℝ} {w w' : WorkingSet ℝ} {x d duals : Point ℝ} {f : Inequality ℝ} {a : ℝ}

/-! ## Fewer constraints -/

theorem Independent.of_perm (h : s.Independent w) (hn : ((s.working w).map (·.dual)).Nodup)
    {c : Equality ℝ} (hperm : (s.working w).Perm (c :: s.working w')) : s.Independent w' := by
  intro ν hν e he hne
  obtain ⟨ν', _, hpart, hsum⟩ := exists_cons_nil ((hperm.map _).nodup_iff.1 hn) ν
  rw [← hpart e he]
  refine h ν' (fun z => ?_) e (hperm.mem_iff.2 (.tail _ he)) hne
  rw [(hperm.map _).sum_eq, hsum]
  exact hν z

/-- Independent constraints weigh a slope in one way only. -/
theorem Independent.unique (h : s.Independent w) (hn : ((s.working w).map (·.dual)).Nodup)
    (μ ν : Point ℝ) (hsame : ∀ z,
      ((s.working w).map fun c => Vec.dot (c.toFactor.values z) (μ.part c.dual)).sum =
        ((s.working w).map fun c => Vec.dot (c.toFactor.values z) (ν.part c.dual)).sum)
    {c : Equality ℝ} (hc : c ∈ s.working w) (hne : c.terms.entries ≠ []) :
    Vec.fit c.toFactor.rows (μ.part c.dual) = Vec.fit c.toFactor.rows (ν.part c.dual) := by
  obtain ⟨δ, hδ⟩ := exists_parts hn fun c =>
    Vec.sub (Vec.fit c.toFactor.rows (μ.part c.dual)) (Vec.fit c.toFactor.rows (ν.part c.dual))
  have hsplit : ∀ z, ∀ c ∈ s.working w, Vec.dot (c.toFactor.values z) (μ.part c.dual) =
      Vec.dot (c.toFactor.values z) (δ.part c.dual) +
        Vec.dot (c.toFactor.values z) (ν.part c.dual) := by
    intro z c hc
    have hlen := (c.toFactor.length_values z).le
    rw [hδ c hc, Vec.dot_sub_right (by simp), Vec.dot_fit_right hlen, Vec.dot_fit_right hlen,
      sub_add_cancel]
  have hzero := h δ (fun z => ?_) c hc hne
  · rw [hδ c hc, Vec.fit_eq_self (by simp)] at hzero
    exact Vec.eq_of_sub_eq_zeros (by simp) hzero
  · have hsum := hsame z
    rw [List.map_congr_left (hsplit z), List.sum_map_add] at hsum
    exact add_eq_right.1 hsum

/-! ## The dropped inequality -/

/-- An iteration drops an inequality that mentions some key, for its positive multiplier. -/
theorem exists_dropped {kernels : Kernels ℝ} (hs : s.WellFormed) {u v : State ℝ}
    (hw : u.workingSet.factors = s.inequalities)
    (hn : ((s.working u.workingSet).map (·.dual)).Nodup)
    (hstep : (s.method kernels .largestMultiplier).Step u d v) {ix : Nat}
    (hphase : v.phase = .deactivated ix a) :
    v.values = u.values ∧ v.workingSet.factors = u.workingSet.factors ∧
      ∃ duals f b, s.multipliers kernels u.workingSet u.values = .ok duals ∧
        (f, ix) ∈ u.workingSet.flagged true ∧ (f, ix) ∈ v.workingSet.flagged false ∧
        (s.working u.workingSet).Perm (f.toEquality :: s.working v.workingSet) ∧
        f.toEquality.terms.entries ≠ [] ∧ Point.multiplier duals f.dual = .ok b ∧ 0 < b := by
  obtain ⟨hvalues, duals, f, hduals, hleave, hf, hfactors, hactive⟩ := hstep.of_deactivated hphase
  obtain ⟨_, g, b, hg, hb, hpos⟩ := LeavingRule.largestMultiplier_eq_some hleave
  obtain rfl := WorkingSet.eq_of_mem_flagged hf hg
  have hperm : (s.working u.workingSet).Perm (f.toEquality :: s.working v.workingSet) :=
    perm_working (WorkingSet.perm_flagged_unset hf hfactors hactive)
  have hinactive : (f, ix) ∈ v.workingSet.flagged false :=
    (WorkingSet.perm_flagged_set (b := false) hf hfactors hactive).mem_iff.2 (.head _)
  refine ⟨hvalues, hfactors, duals, f, b, hduals, hf, hinactive, hperm, ?_, hb, hpos⟩
  obtain ⟨rest, hlookup⟩ := LeavingRule.multiplier_eq_ok.1 hb
  obtain ⟨c, hc, hne, hdual⟩ := mem_working_of_multipliers hs hw hn hduals
    ((Keyed.mem_keys_iff _).2 ⟨_, hlookup⟩)
  have hmem : f.toEquality ∈ s.working u.workingSet := hperm.mem_iff.2 (.head _)
  rwa [List.inj_on_of_nodup_map hn hc hmem hdual] at hne

/-- Along what the other constraints leave free, the dropped one alone makes the slope. -/
theorem slope_eq_mul_of_dropped (hmult : s.Multiplies w x duals)
    (hrest : ∀ z, s.Free w z → s.slope x z = 0)
    (hperm : (s.working w).Perm (f.toEquality :: s.working w'))
    (ha : Point.multiplier duals f.dual = .ok a) {z : Point ℝ} (hz : s.Free w' z) :
    s.slope x z = a * f.value z := by
  obtain ⟨rest, hlookup⟩ := LeavingRule.multiplier_eq_ok.1 ha
  have hothers : ((s.working w').map fun c =>
      Vec.dot (c.toFactor.values z) (duals.part c.dual)).sum = 0 := by
    refine List.sum_eq_zero fun b hb => ?_
    obtain ⟨c, hc, rfl⟩ := List.mem_map.1 hb
    rw [hz c hc, Vec.dot_zeros_left]
  rw [hmult.represents hrest z, (hperm.map _).sum_eq, List.map_cons, List.sum_cons, hothers,
    add_zero, Inequality.values_toEquality, Inequality.dual_toEquality, Point.part_of_lookup hlookup]
  simp [mul_comm]

/--
A multiplier that is not zero cannot be replaced: without its inequality some direction that the
other constraints leave free has a slope.
-/
theorem exists_slope_of_dropped {kernels : Kernels ℝ} (hk : kernels.ExactLeastSquares)
    (hs : s.WellFormed) (hw' : w'.factors = s.inequalities)
    (hn : ((s.working w).map (·.dual)).Nodup) (hmult : s.Multiplies w x duals)
    (hrest : ∀ z, s.Free w z → s.slope x z = 0)
    (hperm : (s.working w).Perm (f.toEquality :: s.working w'))
    (hne : f.toEquality.terms.entries ≠ []) (ha : Point.multiplier duals f.dual = .ok a)
    (ha0 : a ≠ 0) (hgraph : ∃ g, s.dualGraph w' x = .ok g) :
    ∃ z, s.Free w' z ∧ s.slope x z ≠ 0 := by
  by_contra! hall
  have hn' := (hperm.map (·.dual)).nodup_iff.1 hn
  -- Otherwise the other constraints have multipliers of their own, and the slope is written twice.
  obtain ⟨g, hg⟩ := hgraph
  obtain ⟨duals', _, hmult'⟩ := exists_multipliers hk hs hw' (List.nodup_cons.1 hn').2
    (hmult.independent.of_perm hn hperm) hg
  obtain ⟨ν, hnil, _, hsum⟩ := exists_cons_nil hn' duals'
  have hsame := hmult.independent.unique hn duals ν (fun z => by
    rw [← hmult.represents hrest z, hmult'.represents hall z, (hperm.map _).sum_eq, hsum z])
    (hperm.mem_iff.2 (.head _)) hne
  obtain ⟨rest, hlookup⟩ := LeavingRule.multiplier_eq_ok.1 ha
  rw [hnil, Inequality.dual_toEquality, Point.part_of_lookup hlookup] at hsame
  exact ha0 (List.head_eq_of_cons_eq hsame)

/-- Without an inequality of positive multiplier the direction leads off it and lowers the slope. -/
theorem falls_of_dropped {kernels : Kernels ℝ} (hk : kernels.ExactLeastSquares)
    (hs : s.WellFormed) (hw' : w'.factors = s.inequalities)
    (hmult : s.Multiplies w x duals) (hrest : ∀ z, s.Free w z → s.slope x z = 0)
    (hperm : (s.working w).Perm (f.toEquality :: s.working w'))
    (ha : Point.multiplier duals f.dual = .ok a) (hpos : 0 < a)
    (hslope : ∃ z, s.Free w' z ∧ s.slope x z ≠ 0) (hd : s.direction kernels w' x = .ok d)
    (hfree : s.Free w' d) : f.value d < 0 ∧ s.slope x d < 0 ∧ Point.norm d ≠ 0 := by
  obtain ⟨z, hz, hne⟩ := hslope
  have hdirects := directs_of_direction hk hs hw' hd
  have hnorm : Point.norm d ≠ 0 := fun hzero => hne (hdirects.slope_eq_zero hzero hz)
  have heffect : 0 < s.effect d := (s.effect_nonneg d).lt_of_ne' fun hzero =>
    hnorm (norm_eq_zero_of_effect hk hs hw' hd hfree hzero)
  have hfalls : s.slope x d < 0 := by
    rw [hdirects.slope_eq_neg hfree]
    exact neg_neg_of_pos heffect
  refine ⟨?_, hfalls, hnorm⟩
  rw [slope_eq_mul_of_dropped hmult hrest hperm ha hfree] at hfalls
  exact not_le.1 fun hle => not_le.2 hfalls (mul_nonneg hpos.le hle)

end Solver

namespace Problem

/-- A state over the inequalities of the program at which all constraints that it enforces hold. -/
structure Tight (p : Problem ℝ) (u : State ℝ) : Prop where
  factors_eq : u.workingSet.factors = p.inequalities
  equalities : ∀ f ∈ p.equalities,
    f.toFactor.residual u.values = .ok (Vec.zeros f.toFactor.rows)
  active : ∀ e ∈ u.workingSet.flagged true, e.1.excess u.values = .ok 0

/-- What a direction does that leads off the inequality `f`, which is inactive at position `ix`. -/
structure LeadsOff (p : Problem ℝ) (v : State ℝ) (f : Inequality ℝ) (ix : Nat) (d : Point ℝ) :
    Prop where
  inactive : (f, ix) ∈ v.workingSet.flagged false
  falls : ∃ slope, f.product d = .ok slope ∧ slope < 0
  moves : 0 < Point.norm d
  improves : p.rate v.values d < 0
  /-- The rate is the derivative of the objective along every step that can be taken. -/
  objective_step : ∃ b, ∀ t y, Point.add v.values (Point.scale t d) = .ok y →
    ∃ c, p.objective v.values = .ok c ∧
      p.objective y = .ok (c + t * p.rate v.values d + t ^ 2 * b)
  passes : ∀ cap ratio, v.workingSet.blocking v.values d cap ≠ .ok (some (ratio, ix))

variable {p : Problem ℝ} {s : Solver ℝ} {settings : Settings ℝ} {u v : State ℝ}

theorem Tight.defect_eq (hu : p.Tight u) (hs : s.MadeFrom settings p) {c : Equality ℝ}
    (hc : c ∈ s.working u.workingSet) :
    c.toFactor.defect u.values = Vec.zeros c.toFactor.rows := by
  rcases Solver.mem_working.1 hc with hc | ⟨e, he, rfl⟩
  · rw [hs.equalities_eq] at hc
    exact (c.toFactor.residual_eq_ok.1 (hu.equalities c hc)).2.symm
  · exact (Inequality.tight_iff.1 (hu.active e he)).2

theorem leadsOff_of_falls {kernels : Kernels ℝ} (hk : kernels.ExactLeastSquares)
    (hs : Solver.ofProblem settings p = .ok s) (hw : v.workingSet.factors = p.inequalities)
    {f : Inequality ℝ} {ix : Nat} (hf : (f, ix) ∈ v.workingSet.flagged false) {d : Point ℝ}
    (hd : s.direction kernels v.workingSet v.values = .ok d) (hvalue : f.value d < 0)
    (hslope : s.slope v.values d < 0) (hnorm : Point.norm d ≠ 0) : p.LeadsOff v f ix d := by
  have hmade := Solver.madeFrom_ofProblem hs
  have hdirects := Solver.directs_of_direction hk hmade.wellFormed
    (hw.trans hmade.inequalities_eq.symm) hd
  have hfits : f.Fits d := by
    refine Inequality.fits_toEquality.1 fun e he v hv => ?_
    have hmem := hmade.over_inequality (hw ▸ WorkingSet.mem_factors_of_flagged hf) e he
    exact Option.some.inj ((Keyed.lookup_of_mem (hdirects.spans.length_mem _ v hv)).symm.trans
      (Keyed.lookup_of_mem hmem))
  refine ⟨hf, ⟨_, f.product_eq_ok.2 ⟨hfits, rfl⟩, hvalue⟩, ?_, ?_, ?_, fun cap ratio h => ?_⟩
  · exact (Point.norm_eq_sqrt d ▸ Real.sqrt_nonneg _).lt_of_ne' hnorm
  · rwa [← Solver.slope_eq_rate hs hdirects.spans]
  · refine ⟨s.bend d d / 2, fun t y hy => ?_⟩
    obtain ⟨hbefore, hafter⟩ := Solver.objective_step hs hdirects.spans hnorm hy
    refine ⟨_, hbefore, hafter.trans (congrArg Except.ok ?_)⟩
    ring
  · obtain ⟨g, hg, hrises, _⟩ := WorkingSet.blocking_eq_some h
    obtain rfl := WorkingSet.eq_of_mem_flagged hf hg
    exact lt_asymm hvalue hrises

/-- The step that follows does not make the inequality active again. -/
theorem LeadsOff.phase_ne {m : Method ℝ} {f : Inequality ℝ} {ix : Nat} {d : Point ℝ}
    (h : p.LeadsOff v f ix d) (hd : m.direction v.workingSet v.values = .ok d) {t : State ℝ}
    (ht : m.iterate v = .ok t) : t.phase ≠ .activated ix := by
  obtain ⟨e, he, hstep⟩ := Method.step_of_iterate ht
  obtain rfl := Except.ok.inj (hd.symm.trans he)
  intro hphase
  cases hstep with
  | converge => cases hphase
  | drop => cases hphase
  | block _ blocked =>
      cases hphase
      exact h.passes _ _ blocked
  | move => cases hphase

end Problem

/--
If at a state where all enforced constraints hold the direction is zero and an iteration drops an
inequality, then the next direction leads off it: the inequality falls along it, the objective
decreases to first order, and the step that follows does not make the inequality active again.
-/
theorem Solver.dropped_leadsOff {kernels : Kernels ℝ} (hk : kernels.ExactLeastSquares)
    {settings : Settings ℝ} {p : Problem ℝ} {s : Solver ℝ}
    (hs : Solver.ofProblem settings p = .ok s) (hd : p.DistinctDuals) {u v : State ℝ}
    (hu : p.Tight u) {d₀ : Point ℝ} (hd₀ : s.direction kernels u.workingSet u.values = .ok d₀)
    (hzero : Point.norm d₀ = 0) (h : (s.method kernels .largestMultiplier).iterate u = .ok v)
    {ix : Nat} {a : ℝ} (hphase : v.phase = .deactivated ix a) :
    v.values = u.values ∧ ∃ f d, (f, ix) ∈ u.workingSet.flagged true ∧
      s.direction kernels v.workingSet v.values = .ok d ∧ p.LeadsOff v f ix d ∧
      ∀ t, (s.method kernels .largestMultiplier).iterate v = .ok t → t.phase ≠ .activated ix := by
  have hmade := madeFrom_ofProblem hs
  have hwf := hmade.wellFormed
  have hw := hu.factors_eq.trans hmade.inequalities_eq.symm
  have hn := hd.working hmade hw
  obtain ⟨_, _, hstep⟩ := Method.step_of_iterate h
  obtain ⟨hvalues, hfactors, duals, f, b, hduals, hf, hinactive, hperm, hne, hb, hpos⟩ :=
    exists_dropped hwf hw hn hstep hphase
  have hw' := hfactors.trans hw
  have hothers : s.working v.workingSet ⊆ s.working u.workingSet := fun c hc =>
    hperm.mem_iff.2 (.tail _ hc)
  have hrest : ∀ z, s.Free u.workingSet z → s.slope u.values z = 0 := fun z hz =>
    (directs_of_direction hk hwf hw hd₀).slope_eq_zero hzero hz
  -- The other constraints hold already, so the next direction keeps them as they are.
  obtain ⟨d, hdir⟩ := exists_direction_of_subset hk hwf hd₀ hw' hothers
  have hfree : s.Free v.workingSet d := (directs_of_direction hk hwf hw' hdir).free fun c hc =>
    hu.defect_eq hmade (hothers hc)
  have hmult := multiplies_of_multipliers hk hwf hw hn hduals
  have hslopes : ∃ z, s.Free v.workingSet z ∧ s.slope u.values z ≠ 0 :=
    exists_slope_of_dropped hk hwf hw' hn hmult hrest hperm hne hb hpos.ne'
      (exists_dualGraph hwf hw' (fits_of_direction hd₀).2)
  obtain ⟨hvalue, hslope, hnorm⟩ :=
    falls_of_dropped hk hwf hw' hmult hrest hperm hb hpos hslopes hdir hfree
  rw [← hvalues] at hdir hslope
  have hleads : p.LeadsOff v f ix d := Problem.leadsOff_of_falls hk hs
    (hfactors.trans hu.factors_eq) hinactive hdir hvalue hslope hnorm
  exact ⟨hvalues, f, d, hf, hdir, hleads, fun t ht => hleads.phase_ne hdir ht⟩

namespace OneVariable

/-- A bound behind the target holds the point back, so it is dropped. -/
theorem iterate_atBound_behind (settings : Settings ℝ) (htol : 0 ≤ settings.tolerance)
    {target bound : ℝ} (h : target < bound) :
    ∃ v, ((nearestSolver settings target bound).method .exact .largestMultiplier).iterate
      (atBound bound) = .ok v ∧ v.phase = .deactivated 0 (bound - target) := by
  obtain ⟨duals, hduals, hmultiplier⟩ := multipliers_atBound settings target bound
  have hsmall : Point.norm (point 0) ≤ settings.tolerance := by
    rwa [norm_point, abs_zero]
  have hleave : LeavingRule.largestMultiplier (atBound bound).workingSet duals = .ok (some 0) := by
    have hpos : (0 : ℝ) < bound - target := sub_pos.2 h
    change ([(atMost 1 bound 0, 0)].foldlM (LeavingRule.worse duals) none >>=
      fun worst => pure (worst.map (·.2))) = _
    rw [List.foldlM_cons, LeavingRule.worse, hmultiplier, ok_bind]
    simp only [hpos]
    rfl
  have hiterate := Method.iterate_drop
    (m := (nearestSolver settings target bound).method .exact .largestMultiplier)
    (s := atBound bound) (direction_atBound settings target bound) hsmall hduals hleave
    (w := (below bound bound).workingSet) rfl (f := atMost 1 bound 0) rfl hmultiplier
  exact ⟨_, hiterate, rfl⟩

theorem dropped_leadsOff_nearest : (nearest 3 5).Tight (atBound 5) ∧
    ∃ v d, ((nearestSolver settings 3 5).method .exact .largestMultiplier).iterate (atBound 5) =
        .ok v ∧ v.phase = .deactivated 0 (5 - 3) ∧
      (nearestSolver settings 3 5).direction .exact v.workingSet v.values = .ok d ∧
      (nearest 3 5).LeadsOff v (atMost 1 5 0) 0 d := by
  have htight : (nearest 3 5).Tight (atBound 5) :=
    ⟨rfl, List.forall_mem_nil _, (onFace_atBound 3 5).tight⟩
  obtain ⟨v, hv, hphase⟩ := iterate_atBound_behind settings tolerance_pos.le
    (show (3 : ℝ) < 5 by norm_num)
  obtain ⟨_, f, d, hf, hd, hleads, _⟩ := Solver.dropped_leadsOff Kernels.exact_leastSquares
    (ofProblem_nearest settings 3 5) (List.nodup_singleton _) htight
    (direction_atBound settings 3 5) ((norm_point 0).trans abs_zero) hv hphase
  obtain rfl : f = atMost 1 5 0 := congrArg Prod.fst (List.mem_singleton.1 hf)
  exact ⟨htight, v, d, hv, hphase, hd, hleads⟩

end OneVariable

end ActiveSet
