import ActiveSet.Proofs.Feasibility
import ActiveSet.Proofs.Multipliers

/-!
# Independent working constraints

A blocking inequality has a positive product with a direction that all enforced constraints map to
zero, so it depends on none of them. Independence therefore lasts, and with it unique multipliers.
-/

namespace ActiveSet

/-! ## Combinations of constraints -/

/-- Vectors for the multiplier keys that combine the constraints to zero at every point. -/
def Vanishes (cs : List (Equality ℝ)) (ν : Point ℝ) : Prop :=
  ∀ z, (cs.map fun c => Vec.dot (c.toFactor.values z) (ν.part c.dual)).sum = 0

/-- Only zero vectors combine the constraints to zero. -/
def Unrelated (cs : List (Equality ℝ)) : Prop :=
  ∀ ν, Vanishes cs ν → ∀ c ∈ cs,
    Vec.fit c.toFactor.rows (ν.part c.dual) = Vec.zeros c.toFactor.rows

private theorem flat_duals (cs : List (Equality ℝ)) (ν : Point ℝ) :
    Point.flat (cs.map fun c => (c.dual, c.toFactor.rows)) ν =
      cs.flatMap fun c => Vec.fit c.toFactor.rows (ν.part c.dual) := by
  rw [Point.flat, List.flatMap_map]

private theorem dot_flat_duals (cs : List (Equality ℝ)) (ν z : Point ℝ) :
    Vec.dot (Point.flat (cs.map fun c => (c.dual, c.toFactor.rows)) ν)
      (Graph.values (Equality.graph cs) z) =
      (cs.map fun c => Vec.dot (c.toFactor.values z) (ν.part c.dual)).sum := by
  rw [flat_duals, Graph.values, Equality.graph, List.flatMap_map,
    Vec.dot_flatMap fun c _ => by simp]
  congr 1
  refine List.map_congr_left fun c _ => ?_
  rw [Vec.dot_comm, Vec.dot_fit_right (c.toFactor.length_values z).le]

private theorem totalDim_duals (cs : List (Equality ℝ)) :
    Point.totalDim (cs.map fun c => (c.dual, c.toFactor.rows)) =
      (Graph.rhs (Equality.graph cs)).length := by
  induction cs with
  | nil => rfl
  | cons c cs ih =>
      rw [List.map_cons, Point.totalDim, ih]
      simp [Graph.rhs, Equality.graph, Factor.rows]

/-- The stacked rows are linearly independent exactly if only zero vectors combine to zero. -/
theorem rowsIndependent_iff_unrelated {cs : List (Equality ℝ)} (hn : (cs.map (·.dual)).Nodup)
    {sized : List (Key × Nat)} (hkeys : (sized.map (·.1)).Nodup)
    (hover : (Equality.graph cs).Over sized) :
    (LinearSystem.ofSized (Equality.graph cs) sized).matrix.RowsIndependent ↔ Unrelated cs := by
  have hduals : ((cs.map fun c => (c.dual, c.toFactor.rows)).map (·.1)).Nodup := by
    rwa [List.map_map]
  have hzero : ∀ ν : Point ℝ, Point.flat (cs.map fun c => (c.dual, c.toFactor.rows)) ν =
      Vec.zeros (Graph.rhs (Equality.graph cs)).length ↔ ∀ c ∈ cs,
        Vec.fit c.toFactor.rows (ν.part c.dual) = Vec.zeros c.toFactor.rows := by
    intro ν
    rw [← totalDim_duals, Point.flat_eq_zeros_iff, List.forall_mem_map]
  have hvalues := LinearSystem.mulVec_ofSized hkeys hover
  rw [Matrix.rowsIndependent_iff, LinearSystem.height_ofSized]
  constructor
  · intro h ν hν
    refine (hzero ν).1 (h _ (by rw [Point.length_flat, totalDim_duals]) fun v hv => ?_)
    rw [← Point.flat_ofFlat hkeys hv, hvalues, dot_flat_duals]
    exact hν _
  · intro h u hu hdot
    have hu' := hu.trans (totalDim_duals cs).symm
    rw [← Point.flat_ofFlat hduals hu']
    refine (hzero _).2 (h _ fun z => ?_)
    rw [← dot_flat_duals, Point.flat_ofFlat hduals hu', ← hvalues]
    exact hdot _ (Point.length_flat ..)

theorem Unrelated.perm {cs ds : List (Equality ℝ)} (h : Unrelated cs) (hp : cs.Perm ds) :
    Unrelated ds := by
  intro ν hν c hc
  refine h ν (fun z => ?_) c (hp.mem_iff.2 hc)
  rw [(hp.map _).sum_eq]
  exact hν z

/-- Multipliers of all constraints but the first, which has none, weigh the others as before. -/
theorem exists_cons_nil {c : Equality ℝ} {cs : List (Equality ℝ)}
    (hn : ((c :: cs).map (·.dual)).Nodup) (ν : Point ℝ) : ∃ ν' : Point ℝ, ν'.part c.dual = [] ∧
      (∀ e ∈ cs, ν'.part e.dual = ν.part e.dual) ∧
      ∀ z, ((c :: cs).map fun e => Vec.dot (e.toFactor.values z) (ν'.part e.dual)).sum =
        (cs.map fun e => Vec.dot (e.toFactor.values z) (ν.part e.dual)).sum := by
  rw [List.map_cons, List.nodup_cons] at hn
  let ν' : Point ℝ := ν.insert c.dual []
  have hpart : ∀ e ∈ cs, ν'.part e.dual = ν.part e.dual := by
    intro e he
    have hne : e.dual ≠ c.dual := fun heq => hn.1 (heq ▸ List.mem_map_of_mem he)
    rw [Point.part, Keyed.lookup_insert, if_neg hne, Point.part]
  have hnil : ν'.part c.dual = [] := by
    rw [Point.part, Keyed.lookup_insert, if_pos rfl]
    rfl
  refine ⟨ν', hnil, hpart, fun z => ?_⟩
  rw [List.map_cons, List.sum_cons, hnil, Vec.dot_nil_right, zero_add,
    List.map_congr_left fun e he => by rw [hpart e he]]

theorem Unrelated.of_cons {c : Equality ℝ} {cs : List (Equality ℝ)} (h : Unrelated (c :: cs))
    (hn : ((c :: cs).map (·.dual)).Nodup) : Unrelated cs := by
  intro ν hν d hd
  obtain ⟨ν', _, hpart, hsum⟩ := exists_cons_nil hn ν
  rw [← hpart d hd]
  exact h ν' (fun z => (hsum z).trans (hν z)) d (.tail _ hd)

private theorem fit_one (v : List ℝ) : Vec.fit 1 v = [v.getD 0 0] := by
  cases v <;> simp [Vec.fit, Vec.zeros]

private theorem dot_singleton (a : ℝ) (v : List ℝ) : Vec.dot [a] v = a * v.getD 0 0 := by
  cases v <;> simp

/-- An inequality that changes where no constraint does depends on none of them. -/
theorem Unrelated.cons {f : Inequality ℝ} {cs : List (Equality ℝ)} (h : Unrelated cs) {d : Point ℝ}
    (hd : ∀ c ∈ cs, c.toFactor.values d = Vec.zeros c.toFactor.rows) (hf : f.value d ≠ 0) :
    Unrelated (f.toEquality :: cs) := by
  intro ν hν
  have hsum : ∀ z, f.value z * (ν.part f.dual).getD 0 0 +
      (cs.map fun c => Vec.dot (c.toFactor.values z) (ν.part c.dual)).sum = 0 := by
    intro z
    have := hν z
    rwa [List.map_cons, List.sum_cons, Inequality.values_toEquality, dot_singleton] at this
  have hhead : (ν.part f.dual).getD 0 0 = 0 := by
    have hzero : (cs.map fun c => Vec.dot (c.toFactor.values d) (ν.part c.dual)).sum = 0 := by
      refine List.sum_eq_zero fun a ha => ?_
      obtain ⟨c, hc, rfl⟩ := List.mem_map.1 ha
      rw [hd c hc, Vec.dot_zeros_left]
    have := hsum d
    rw [hzero, add_zero] at this
    exact (mul_eq_zero.1 this).resolve_left hf
  refine List.forall_mem_cons.2 ⟨?_, h ν fun z => ?_⟩
  · rw [Inequality.rows_toEquality, fit_one]
    exact congrArg (fun a => [a]) hhead
  · have := hsum z
    rwa [hhead, mul_zero, zero_add] at this

theorem Unrelated.entries_ne_nil {f : Inequality ℝ} {cs : List (Equality ℝ)} (h : Unrelated cs)
    (hf : f.toEquality ∈ cs) (hn : (cs.map (·.dual)).Nodup) : f.toEquality.terms.entries ≠ [] := by
  intro hnil
  let ν : Point ℝ := Keyed.ofList [(f.dual, [1])]
  have hν : ν.part f.dual = [1] := Point.part_ofList (e := (f.dual, [1])) (by simp) (by simp)
  have hone := h ν (fun z => List.sum_eq_zero fun a ha => ?_) _ hf
  · rw [Inequality.dual_toEquality, hν, Inequality.rows_toEquality, fit_one] at hone
    simp [Vec.zeros] at hone
  · obtain ⟨c, hc, rfl⟩ := List.mem_map.1 ha
    by_cases hdual : c.dual = f.dual
    · obtain rfl := List.inj_on_of_nodup_map hn hc hf hdual
      rw [Factor.values_eq_zeros_of_nil hnil, Vec.dot_zeros_left]
    · have hnone : ν.part c.dual = [] := by
        rw [Point.part, (Keyed.lookup_eq_none_iff _).2]
        · rfl
        · simpa [ν, Keyed.keys, Keyed.entries_ofList] using hdual
      rw [hnone, Vec.dot_nil_right]

/-! ## One iteration -/

namespace Solver

/-- The rows of the enforced constraints, stacked over all keys, are linearly independent. -/
def RowsIndependent (s : Solver ℝ) (w : WorkingSet ℝ) : Prop :=
  (LinearSystem.ofSized (Equality.graph (s.working w)) s.dims.entries).matrix.RowsIndependent

variable {s : Solver ℝ} {w w' : WorkingSet ℝ} {f : Inequality ℝ} {ix : Nat}

/-- Without one of the active inequalities the rest of the constraints is enforced. -/
theorem perm_working {l : List (Inequality ℝ × Nat)}
    (h : (w.flagged true).Perm ((f, ix) :: l)) : (s.working w).Perm
      (f.toEquality :: (s.equalities ++ l.map (·.1.toEquality))) := by
  rw [working, WorkingSet.asEqualities]
  refine ((h.map fun e => e.1.toEquality).append_left s.equalities).trans ?_
  rw [List.map_cons]
  exact List.perm_middle

theorem rowsIndependent_iff {p : Problem ℝ} {settings : Settings ℝ} (hs : s.MadeFrom settings p)
    (hn : ((s.working w).map (·.dual)).Nodup) (hw : w.factors = s.inequalities) :
    s.RowsIndependent w ↔ Unrelated (s.working w) :=
  rowsIndependent_iff_unrelated hn s.dims.nodup (hs.wellFormed.over_working hw)

/-- A step along a direction that no enforced constraint notices keeps the constraints unrelated. -/
theorem unrelated_step {m : Method ℝ} {u v : State ℝ} {d : Point ℝ} (h : Method.Step m u d v)
    (hfree : s.Free u.workingSet d) (hn : ((s.working u.workingSet).map (·.dual)).Nodup)
    (hu : Unrelated (s.working u.workingSet)) : Unrelated (s.working v.workingSet) := by
  cases h with
  | converge => exact hu
  | move => exact hu
  | drop _ _ _ was factors active =>
      have hperm := perm_working (s := s) (WorkingSet.perm_flagged_unset was factors active)
      exact (hu.perm hperm).of_cons ((hperm.map _).nodup_iff.1 hn)
  | block _ blocked _ was factors active =>
      obtain ⟨g, hg, hpos, _⟩ := WorkingSet.blocking_eq_some blocked
      obtain rfl := WorkingSet.eq_of_mem_flagged was hg
      exact (hu.cons hfree hpos.ne').perm
        (perm_working (WorkingSet.perm_flagged_set was factors active)).symm

variable {kernels : Kernels ℝ} {x : Point ℝ}

theorem multiplier_of_unrelated (hn : ((s.working w).map (·.dual)).Nodup)
    (hu : Unrelated (s.working w)) {duals : Point ℝ} (hd : s.Multiplies w x duals)
    {e : Inequality ℝ × Nat} (he : e ∈ w.flagged true) :
    ∃ a, Point.multiplier duals e.1.dual = .ok a := by
  have hmem : e.1.toEquality ∈ s.working w := mem_working.2 (.inr ⟨e, he, rfl⟩)
  exact ⟨_, hd.multiplier hmem (hu.entries_ne_nil hmem hn) Nat.one_pos⟩

private theorem release_eq_error (hk : kernels.ExactLeastSquares) (hs : s.WellFormed)
    {u : State ℝ} (hw : u.workingSet.factors = s.inequalities)
    (hn : ((s.working u.workingSet).map (·.dual)).Nodup) (hu : Unrelated (s.working u.workingSet))
    {fault : Fault ℝ} (h : (s.method kernels .largestMultiplier).release u = .error fault) :
    ∃ c, fault = .dimension c := by
  have hind : s.Independent u.workingSet := fun ν hν c hc _ => hu ν hν c hc
  simp only [Method.release, bind_eq_error] at h
  rcases h with h | ⟨duals, hduals, h⟩
  · exact multipliers_eq_error hk hs hw hn hind h
  · have hmult := multiplies_of_multipliers hk hs hw hn hduals
    have hok := fun e he => multiplier_of_unrelated (e := e) hn hu hmult he
    rcases h with h | ⟨leaving, hleave, h⟩
    · obtain ⟨e, he, h⟩ := LeavingRule.largestMultiplier_eq_error h
      obtain ⟨a, ha⟩ := hok e he
      rw [ha] at h
      cases h
    · cases leaving with
      | none => cases h
      | some ix =>
          obtain ⟨_, f, a, hf, ha, _⟩ := LeavingRule.largestMultiplier_eq_some hleave
          obtain ⟨hfactor, hactive⟩ := WorkingSet.mem_flagged.1 hf
          obtain ⟨w', hw', hfactors, _⟩ := WorkingSet.change_eq_ok (b := false) hactive
            (.alreadyInactive ix)
          have hentry : w'.factor ix = .ok f := by
            rw [WorkingSet.factor, hfactors]
            exact WorkingSet.entry_natCast hfactor
          have hdrop : u.workingSet.deactivate ix = .ok w' := hw'
          simp only [hdrop, ok_bind, hentry, ha] at h
          cases h

/-- With unrelated constraints an iteration fails for a dimension or for want of a bound only. -/
theorem iterate_eq_error (hk : kernels.ExactLeastSquares) (hs : s.WellFormed) {u : State ℝ}
    (hw : u.workingSet.factors = s.inequalities)
    (hn : ((s.working u.workingSet).map (·.dual)).Nodup) (hu : Unrelated (s.working u.workingSet))
    {fault : Fault ℝ} (h : (s.method kernels .largestMultiplier).iterate u = .error fault) :
    (∃ c, fault = .dimension c) ∨ ∃ n, fault = .unbounded n := by
  rw [Method.iterate, bind_eq_error] at h
  rcases h with h | ⟨d, _, h⟩
  · exact .inl (direction_eq_error hk hs hw h)
  · split at h
    · exact .inl (release_eq_error hk hs hw hn hu h)
    · exact (Method.advance_eq_error h).imp_right fun h => ⟨_, h.1⟩

end Solver

/-- All constraints of the program have multiplier keys of their own. -/
def Problem.DistinctDuals {K : Type} (p : Problem K) : Prop :=
  (p.equalities.map (·.dual) ++ p.inequalities.map (·.dual)).Nodup

theorem Problem.DistinctDuals.working {p : Problem ℝ} (h : p.DistinctDuals)
    {s : Solver ℝ} {settings : Settings ℝ} (hs : s.MadeFrom settings p) {w : WorkingSet ℝ}
    (hw : w.factors = s.inequalities) : ((s.working w).map (·.dual)).Nodup := by
  refine Solver.nodup_duals_working ?_ hw
  rw [hs.equalities_eq, hs.inequalities_eq]
  exact h

/-! ## Runs -/

namespace Problem.OnFace

variable {kernels : Kernels ℝ} {settings : Settings ℝ} {p : Problem ℝ} {s : Solver ℝ}
  {u v : State ℝ}

theorem rowsIndependent_iterate (hu : p.OnFace u) (hk : kernels.ExactLeastSquares)
    (hs : s.MadeFrom settings p) (hd : p.DistinctDuals) (hrows : s.RowsIndependent u.workingSet)
    (h : (s.method kernels .largestMultiplier).iterate u = .ok v) :
    s.RowsIndependent v.workingSet := by
  have hw := hu.factors_eq.trans hs.inequalities_eq.symm
  have hn := hd.working hs hw
  have hv := hu.of_iterate hk hs h
  have hw' := hv.factors_eq.trans hs.inequalities_eq.symm
  obtain ⟨d, hdir, hstep⟩ := Method.step_of_iterate h
  have hdirects := Solver.directs_of_direction hk hs.wellFormed hw hdir
  have hunrelated := (Solver.rowsIndependent_iff hs hn hw).1 hrows
  exact (Solver.rowsIndependent_iff hs (hd.working hs hw') hw').2
    (Solver.unrelated_step hstep (hu.free hs hdirects) hn hunrelated)

theorem iterate_eq_error (hu : p.OnFace u) (hk : kernels.ExactLeastSquares)
    (hs : s.MadeFrom settings p) (hd : p.DistinctDuals) (hrows : s.RowsIndependent u.workingSet)
    {fault : Fault ℝ} (h : (s.method kernels .largestMultiplier).iterate u = .error fault) :
    (∃ c, fault = .dimension c) ∨ ∃ n, fault = .unbounded n := by
  have hw := hu.factors_eq.trans hs.inequalities_eq.symm
  have hn := hd.working hs hw
  exact Solver.iterate_eq_error hk hs.wellFormed hw hn
    ((Solver.rowsIndependent_iff hs hn hw).1 hrows) h

theorem rowsIndependent_runFrom (hu : p.OnFace u) (hk : kernels.ExactLeastSquares)
    (hs : s.MadeFrom settings p) (hd : p.DistinctDuals) (hrows : s.RowsIndependent u.workingSet)
    (budget : Nat) (seen : List (List Nat)) :
    ∀ v ∈ u :: ((s.method kernels .largestMultiplier).runFrom budget seen u).states,
      p.OnFace v ∧ s.RowsIndependent v.workingSet := by
  refine Method.runFrom_invariant (P := fun v => p.OnFace v ∧ s.RowsIndependent v.workingSet)
    budget seen ⟨hu, hrows⟩ fun v _ t hv ht => ?_
  exact ⟨hv.1.of_iterate hk hs ht, hv.1.rowsIndependent_iterate hk hs hd hv.2 ht⟩

end Problem.OnFace

/--
From a feasible state with tight active inequalities and independent rows of the enforced constraints,
an iteration misses no multiplier and keeps the rows independent, so no run ends in a singular system.
-/
theorem Solver.rowsIndependent_run {kernels : Kernels ℝ} (hk : kernels.ExactLeastSquares)
    {settings : Settings ℝ} {p : Problem ℝ} {s : Solver ℝ}
    (hs : Solver.ofProblem settings p = .ok s) (hd : p.DistinctDuals) :
    (∀ u, p.OnFace u → s.RowsIndependent u.workingSet →
      (∀ fault, (s.method kernels .largestMultiplier).iterate u = .error fault →
        (∀ n r k, fault ≠ .singular n r k) ∧ ∀ k, fault ≠ .missingKey k) ∧
      ∀ v, (s.method kernels .largestMultiplier).iterate u = .ok v →
        s.RowsIndependent v.workingSet) ∧
    (∀ u budget seen, p.OnFace u → s.RowsIndependent u.workingSet → ∀ n r k,
      ((s.method kernels .largestMultiplier).runFrom budget seen u).ending ≠
        .failed (.singular n r k)) ∧
    ∀ start u, s.initialState kernels start = .ok u → p.OnFace u →
      s.RowsIndependent u.workingSet → ∀ n r k,
        s.optimize kernels .largestMultiplier start ≠ .error (.fault (.singular n r k)) := by
  have hmade := Solver.madeFrom_ofProblem hs
  have hfault : ∀ u, p.OnFace u → s.RowsIndependent u.workingSet → ∀ fault,
      (s.method kernels .largestMultiplier).iterate u = .error fault →
      (∀ n r k, fault ≠ .singular n r k) ∧ ∀ k, fault ≠ .missingKey k := by
    intro u hu hrows fault h
    rcases hu.iterate_eq_error hk hmade hd hrows h with ⟨c, rfl⟩ | ⟨a, rfl⟩
    · exact ⟨fun _ _ _ h => (nomatch h), fun _ h => (nomatch h)⟩
    · exact ⟨fun _ _ _ h => (nomatch h), fun _ h => (nomatch h)⟩
  have hrun : ∀ u budget seen, p.OnFace u → s.RowsIndependent u.workingSet → ∀ n r k,
      ((s.method kernels .largestMultiplier).runFrom budget seen u).ending ≠
        .failed (.singular n r k) := by
    intro u budget seen hu hrows n r k h
    obtain ⟨v, hv, hfail⟩ := Method.runFrom_failed h
    obtain ⟨hface, hindependent⟩ := hu.rowsIndependent_runFrom hk hmade hd hrows budget seen v hv
    exact (hfault v hface hindependent _ hfail).1 n r k rfl
  refine ⟨fun u hu hrows => ⟨hfault u hu hrows, fun v h => ?_⟩, hrun, ?_⟩
  · exact hu.rowsIndependent_iterate hk hmade hd hrows h
  · intro start u hstart hu hrows n r k h
    rcases optimize_eq_fault hstart h with h | ⟨x, h⟩
    · exact hrun u s.settings.maxIterations [] hu hrows n r k h
    · rcases value_eq_error h with ⟨c, h⟩ | h <;> cases h

namespace OneVariable

theorem rowsIndependent_below (settings : Settings ℝ) (target bound x : ℝ) :
    (nearestSolver settings target bound).RowsIndependent (below bound x).workingSet :=
  (Solver.rowsIndependent_iff (w := (below bound x).workingSet)
    (madeFrom_nearest settings target bound) List.nodup_nil rfl).2 fun _ _ =>
      List.forall_mem_nil _

/-- Of no rows and then of one: the step to the bound activates the inequality. -/
theorem rowsIndependent_run_nearest :
    (nearestSolver settings 5 3).RowsIndependent (below 3 0).workingSet ∧
    (∃ v, ((nearestSolver settings 5 3).method .exact .largestMultiplier).iterate (below 3 0) =
      .ok v ∧ v.workingSet.activeIndices = [0] ∧
        (nearestSolver settings 5 3).RowsIndependent v.workingSet) ∧
    ∀ n r k, (nearestSolver settings 5 3).optimize .exact .largestMultiplier (startBelow 3 0) ≠
      .error (.fault (.singular n r k)) := by
  have hrows := rowsIndependent_below settings 5 3 0
  have hd : (nearest 5 3).DistinctDuals := List.nodup_singleton _
  have hface := onFace_below 5 (show (0 : ℝ) ≤ 3 by norm_num)
  have hstart := initialState_below feasibilityTolerance_pos 5 (show (0 : ℝ) ≤ 3 by norm_num)
  obtain ⟨hiterate, _, hsolve⟩ := Solver.rowsIndependent_run Kernels.exact_leastSquares
    (ofProblem_nearest settings 5 3) hd
  obtain ⟨v, hv, _, hagrees, _⟩ := iterate_below settings 5 3 .largestMultiplier (x := 0)
    (by norm_num) (by norm_num) (tolerance_lt_one.trans (by norm_num))
  refine ⟨hrows, ⟨v, hv, ?_, (hiterate _ hface hrows).2 v hv⟩, hsolve _ _ hstart hface hrows⟩
  rw [hagrees.workingSet_eq]
  rfl

end OneVariable

end ActiveSet
