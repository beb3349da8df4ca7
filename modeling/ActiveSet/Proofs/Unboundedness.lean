import ActiveSet.Proofs.Feasibility
import ActiveSet.Proofs.Multipliers
import ActiveSet.Proofs.Objectives

/-!
# Unbounded programs

A direction that nothing blocks leads along feasible points without end only if it moves no active
inequality, as it does where they are tight. The objective then falls below every bound.
-/

namespace ActiveSet

/-- The objective falls below every bound on the feasible points. -/
def Problem.Unbounded (p : Problem ℝ) : Prop :=
  ∀ bound : ℝ, ∃ x a, p.FeasibleWithin 0 x ∧ p.objective x = .ok a ∧ a < bound

theorem Inequality.value_along {dims : Keyed Nat} {f : Inequality ℝ}
    (hf : ∀ e ∈ f.toEquality.terms.entries, (e.1, e.2.cols) ∈ dims.entries) (x d : Point ℝ) (t : ℝ) :
    f.value (Point.along dims x d t) = f.value x + t * f.value d := by
  have h := Factor.values_along hf x d t
  rw [values_toEquality, values_toEquality, values_toEquality] at h
  exact List.head_eq_of_cons_eq h

namespace Solver

variable {p : Problem ℝ} {s : Solver ℝ} {settings : Settings ℝ} {kernels : Kernels ℝ}
  {w : WorkingSet ℝ} {x d : Point ℝ}

/-! ## Half-lines of feasible points -/

/-- A direction along which no equality changes and no inequality rises leads to feasible points. -/
theorem feasibleWithin_along (hs : s.MadeFrom settings p) (hx : p.FeasibleWithin 0 x)
    (hequal : ∀ f ∈ p.equalities, f.toFactor.values d = Vec.zeros f.toFactor.rows)
    (hfall : ∀ f ∈ p.inequalities, f.value d ≤ 0) {t : ℝ} (ht : 0 ≤ t) :
    p.FeasibleWithin 0 (Point.along s.dims x d t) := by
  refine ⟨fun f hf => ?_, fun f hf => ?_⟩
  · have hover := hs.over_equality hf
    refine Equality.holds_iff.2 ⟨Factor.fits_along hover x d t, ?_⟩
    rw [Factor.defect_along hover, hequal f hf, Vec.scale_zeros,
      Vec.add_zeros (f.toFactor.length_defect x)]
    exact (Equality.holds_iff.1 (hx.equalities f hf)).2
  · have hover := hs.over_inequality hf
    refine Inequality.holds_iff.2
      ⟨Inequality.fits_toEquality.1 (Factor.fits_along hover x d t), ?_⟩
    rw [Inequality.value_along hover]
    have hle := (Inequality.holds_iff.1 (hx.inequalities f hf)).2
    have := mul_nonpos_of_nonneg_of_nonpos ht (hfall f hf)
    linarith

/-- A half-line of feasible points leads nowhere across an equality and never up an inequality. -/
theorem of_feasibleWithin_along (hs : s.MadeFrom settings p)
    (h : ∀ t, 0 ≤ t → p.FeasibleWithin 0 (Point.along s.dims x d t)) :
    (∀ f ∈ p.equalities, f.toFactor.values d = Vec.zeros f.toFactor.rows) ∧
      ∀ f ∈ p.inequalities, f.value d ≤ 0 := by
  refine ⟨fun f hf => ?_, fun f hf => ?_⟩
  · have hover := hs.over_equality hf
    have hzero := fun t ht => (Equality.holds_iff.1 ((h t ht).equalities f hf)).2
    have hdot : ∀ t, 0 ≤ t → Vec.dot (f.toFactor.values d) (f.toFactor.defect x) +
        t * Vec.dot (f.toFactor.values d) (f.toFactor.values d) = 0 := by
      intro t ht
      rw [← Vec.dot_scale_right, ← Vec.dot_add_right (by simp), ← Factor.defect_along hover,
        hzero t ht, Vec.dot_zeros_right]
    have hself : Vec.dot (f.toFactor.values d) (f.toFactor.values d) = 0 := by
      linarith [hdot 0 le_rfl, hdot 1 zero_le_one]
    rw [Vec.eq_zeros_of_dot_self hself, f.toFactor.length_values]
  · by_contra hlt
    have hpos := not_le.1 hlt
    have hover := hs.over_inequality hf
    have hle := fun t ht => (Inequality.holds_iff.1 ((h t ht).inequalities f hf)).2
    have h₀ := hle 0 le_rfl
    -- At this length the excess is one.
    have h₁ := hle ((f.bound - f.value x + 1) / f.value d)
      (div_nonneg (by rw [Inequality.value_along hover] at h₀; linarith) hpos.le)
    rw [Inequality.value_along hover, div_mul_cancel₀ _ hpos.ne'] at h₁
    linarith

theorem free_iff (hs : s.MadeFrom settings p) : s.Free w d ↔
    (∀ f ∈ p.equalities, f.toFactor.values d = Vec.zeros f.toFactor.rows) ∧
      ∀ e ∈ w.flagged true, e.1.value d = 0 := by
  have hvalue : ∀ f : Inequality ℝ, f.toEquality.toFactor.values d =
      Vec.zeros f.toEquality.toFactor.rows ↔ f.value d = 0 := by
    intro f
    rw [Inequality.values_toEquality, Inequality.rows_toEquality]
    simp
  constructor
  · refine fun h => ⟨fun f hf => h f (mem_working.2 (.inl (hs.equalities_eq ▸ hf))), fun e he => ?_⟩
    exact (hvalue e.1).1 (h _ (mem_working.2 (.inr ⟨e, he, rfl⟩)))
  · rintro ⟨hequal, hactive⟩ c hc
    rcases mem_working.1 hc with hc | ⟨e, he, rfl⟩
    · exact hequal c (hs.equalities_eq ▸ hc)
    · exact (hvalue e.1).2 (hactive e he)

/-! ## Where a direction leads -/

/-- From a feasible point a direction up no active inequality moves no enforced constraint at all. -/
private theorem Directs.free_of_falls (h : s.Directs w x d) (hs : s.MadeFrom settings p)
    (hw : w.factors = p.inequalities) (hx : p.FeasibleWithin 0 x)
    (hfall : ∀ e ∈ w.flagged true, e.1.value d ≤ 0) : s.Free w d := by
  have hdefect : ∀ f ∈ p.equalities, Vec.add (f.toFactor.values d) (f.toFactor.defect x) =
      f.toFactor.values d := by
    intro f hf
    rw [(Equality.holds_iff.1 (hx.equalities f hf)).2, Vec.add_zeros (f.toFactor.length_values d)]
  have hexcess : ∀ e ∈ w.flagged true, e.1.value x - e.1.bound ≤ 0 := fun e he =>
    (Inequality.holds_iff.1 (hx.inequalities e.1 (hw ▸ WorkingSet.mem_factors_of_flagged he))).2
  -- The defects that are left cannot be lowered along `d`, and no product with them is negative.
  have hzero := fun a ha => List.all_zero_of_le_zero_le_of_sum_eq_zero (x := a) (fun b hb => by
    obtain ⟨c, hc, rfl⟩ := List.mem_map.1 hb
    rcases mem_working.1 hc with hc | ⟨e, he, rfl⟩
    · rw [hdefect c (hs.equalities_eq ▸ hc)]
      exact Vec.dot_self_nonneg _
    · rw [Inequality.dot_toEquality]
      nlinarith [hfall e he, hexcess e he]) (h.compatible d) ha
  refine (free_iff hs).2 ⟨fun f hf => ?_, fun e he => ?_⟩
  · have hmem : f ∈ s.working w := mem_working.2 (.inl (hs.equalities_eq ▸ hf))
    have hself := hzero _ (List.mem_map_of_mem hmem)
    rw [hdefect f hf] at hself
    rw [Vec.eq_zeros_of_dot_self hself, f.toFactor.length_values]
  · have hmem : e.1.toEquality ∈ s.working w := mem_working.2 (.inr ⟨e, he, rfl⟩)
    have hmul := hzero _ (List.mem_map_of_mem hmem)
    rw [Inequality.dot_toEquality] at hmul
    nlinarith [hfall e he, hexcess e he]

/--
A direction that falls along the inactive inequalities leads from a feasible point along a half-line
of feasible points exactly if it moves no active inequality.
-/
theorem Directs.feasibleWithin_along_iff (h : s.Directs w x d) (hs : s.MadeFrom settings p)
    (hw : w.factors = p.inequalities) (hx : p.FeasibleWithin 0 x)
    (hfall : ∀ e ∈ w.flagged false, e.1.value d ≤ 0) :
    (∀ t, 0 ≤ t → p.FeasibleWithin 0 (Point.along s.dims x d t)) ↔
      ∀ e ∈ w.flagged true, e.1.value d = 0 := by
  constructor
  · intro hline
    obtain ⟨_, hdown⟩ := of_feasibleWithin_along hs hline
    refine ((free_iff hs).1 (h.free_of_falls hs hw hx fun e he => ?_)).2
    exact hdown e.1 (hw ▸ WorkingSet.mem_factors_of_flagged he)
  · intro hactive t ht
    obtain ⟨hequal, _⟩ := (free_iff hs).1
      (h.free_of_falls hs hw hx fun e he => (hactive e he).le)
    refine feasibleWithin_along hs hx hequal (fun f hf => ?_) ht
    obtain ⟨i, b, hi⟩ := WorkingSet.flagged_of_mem (hw.symm ▸ hf)
    cases b with
    | false => exact hfall _ hi
    | true => exact (hactive _ hi).le

theorem Directs.slope_eq (h : s.Directs w x d) (hs : s.WellFormed) {vectors : Keyed (List ℝ)}
    (ho : s.objective = .linear vectors) (hfree : s.Free w d) :
    s.slope x d = -(Point.norm d * Point.norm d) := by
  have hstat := h.stationary d hfree
  rw [hs.sum_dot_self ho h.spans] at hstat
  linarith

theorem Directs.unbounded (h : s.Directs w x d) (hs : s.MadeFrom settings p)
    {vectors : Keyed (List ℝ)} (ho : s.objective = .linear vectors) (hfree : s.Free w d)
    (hnorm : 0 < Point.norm d)
    (hline : ∀ t, 0 ≤ t → p.FeasibleWithin 0 (Point.along s.dims x d t)) : p.Unbounded := by
  intro bound
  have hsq := mul_pos hnorm hnorm
  generalize hstart : (vectors.entries.map fun e => Vec.dot e.2 (x.part e.1)).sum = start
  have hlength : 0 ≤ (|start - bound| + 1) / (Point.norm d * Point.norm d) :=
    div_nonneg (by positivity) hsq.le
  refine ⟨_, start - (|start - bound| + 1), hline _ hlength, ?_, ?_⟩
  · rw [← hs.value_eq, value_along hs.wellFormed ho, hstart, h.slope_eq hs.wellFormed ho hfree,
      mul_neg, div_mul_cancel₀ _ hsq.ne']
    rfl
  · linarith [le_abs_self (start - bound)]

/-! ## Iterations that find no bound -/

private theorem multiplier_ne_unbounded {duals : Point ℝ} {k : Key} (n : ℝ) :
    Point.multiplier duals k ≠ .error (.unbounded n) := by
  intro h
  simp only [Point.multiplier, bind_eq_error] at h
  rcases h with h | ⟨v, _, h⟩
  · cases Keyed.get_eq_error h
  · split at h <;> cases h

private theorem entry_ne_unbounded {α : Type} {l : List α} {ix : Int} (n : ℝ) :
    Position.entry l ix ≠ .error (.unbounded n) := by
  intro h
  unfold Position.entry at h
  split at h <;> cases h

private theorem change_ne_unbounded {v : WorkingSet ℝ} {ix : Int} {flag : Bool}
    {already : Refusal ℝ} (n : ℝ) : v.change ix flag already ≠ .error (.unbounded n) := by
  intro h
  unfold WorkingSet.change at h
  split at h
  · cases h
  · split at h <;> cases h

private theorem sized_ne_unbounded {ks : List Key} {dims : Keyed Nat} (n : ℝ) :
    Point.sized ks dims ≠ .error (.unbounded n) := by
  intro h
  obtain ⟨k, _, h⟩ := mapM_eq_error h
  simp only [bind_eq_error, pure_ne_error, and_false, exists_false, or_false] at h
  cases Keyed.get_eq_error h

private theorem ofGraph_ne_unbounded {g : Graph ℝ} {ks : List Key} {dims : Keyed Nat} (n : ℝ) :
    LinearSystem.ofGraph g ks dims ≠ .error (.unbounded n) := by
  intro h
  simp only [LinearSystem.ofGraph, bind_eq_error, pure_ne_error, and_false, exists_false,
    or_false] at h
  rcases h with h | ⟨_, _, h⟩
  · exact sized_ne_unbounded n h
  · obtain ⟨e, _, h⟩ := forM_eq_error h
    rcases bind_eq_error.1 h with h | ⟨_, _, h⟩
    · cases Keyed.get_eq_error h
    · dsimp only at h
      split at h
      · cases h
      · split at h <;> cases h

private theorem split_ne_unbounded {v : List ℝ} {ks : List Key} {dims : Keyed Nat} (n : ℝ) :
    Point.split v ks dims ≠ .error (.unbounded n) := by
  intro h
  rcases bind_eq_error.1 h with h | ⟨_, _, h⟩
  · exact sized_ne_unbounded n h
  · split at h <;> cases h

private theorem minimize_ne_unbounded {g cs : Graph ℝ} {ks : Option (List Key)}
    {known : Option (Keyed Nat)} {unique : Bool} (n : ℝ) :
    Graph.minimize kernels g cs ks known unique ≠ .error (.unbounded n) := by
  intro h
  have hdims : ∀ g : Graph ℝ, Graph.dims g ≠ .error (.unbounded n) := by
    intro g h
    obtain ⟨_, h⟩ := Keyed.mergeDims_eq_error h
    cases h
  simp only [Graph.minimize, bind_eq_error] at h
  rcases h with h | ⟨_, _, h | ⟨_, _, h | ⟨_, _, h | ⟨_, _, h⟩⟩⟩⟩
  · exact hdims _ h
  · exact hdims _ h
  · obtain ⟨_, h⟩ := Keyed.mergeDims_eq_error h
    cases h
  · exact sized_ne_unbounded n h
  · split at h
    · cases h
    · simp only [bind_eq_error] at h
      rcases h with h | ⟨A, _, h | ⟨C, _, h⟩⟩
      · exact ofGraph_ne_unbounded n h
      · exact ofGraph_ne_unbounded n h
      · split at h
        · cases h
        · split at h
          · cases h
          · exact split_ne_unbounded n h

private theorem release_ne_unbounded (hs : s.WellFormed) {u : State ℝ}
    (hw : u.workingSet.factors = s.inequalities) (n : ℝ) :
    (s.method kernels .largestMultiplier).release u ≠ .error (.unbounded n) := by
  intro h
  simp only [Method.release, bind_eq_error] at h
  rcases h with h | ⟨duals, _, h⟩
  · change s.multipliers kernels _ _ = _ at h
    simp only [multipliers, bind_eq_error] at h
    rcases h with h | ⟨g, _, h⟩
    · obtain ⟨_, h⟩ := dualGraph_eq_error hs hw h
      cases h
    · exact minimize_ne_unbounded n h
  · rcases h with h | ⟨leaving, _, h⟩
    · obtain ⟨e, _, h⟩ := LeavingRule.largestMultiplier_eq_error h
      exact multiplier_ne_unbounded n h
    · cases leaving with
      | none => cases h
      | some ix =>
          simp only [bind_eq_error, pure_ne_error, and_false, exists_false, or_false] at h
          rcases h with h | ⟨v, _, h | ⟨f, _, h⟩⟩
          · exact change_ne_unbounded n h
          · exact entry_ne_unbounded n h
          · exact multiplier_ne_unbounded n h

/-- An iteration finds no bound only along a direction that has no cap and falls everywhere. -/
theorem of_iterate_eq_unbounded (hk : kernels.ExactLeastSquares) (hs : s.WellFormed) {u : State ℝ}
    (hw : u.workingSet.factors = s.inequalities) {n : ℝ}
    (h : (s.method kernels .largestMultiplier).iterate u = .error (.unbounded n)) :
    ∃ d, s.direction kernels u.workingSet u.values = .ok d ∧ s.settings.tolerance < Point.norm d ∧
      ∀ e ∈ u.workingSet.flagged false, e.1.value d ≤ 0 := by
  rw [Method.iterate, bind_eq_error] at h
  rcases h with h | ⟨d, hd, h⟩
  · obtain ⟨_, h⟩ := direction_eq_error hk hs hw h
    cases h
  · split at h
    · exact absurd h (release_ne_unbounded hs hw n)
    · rename_i hlarge
      refine ⟨d, hd, not_le.1 hlarge, fun e he => ?_⟩
      obtain ⟨_, h⟩ | ⟨_, hcap, hblock⟩ := Method.advance_eq_error h
      · cases h
      by_contra hlt
      have hexceeds := WorkingSet.blocking_eq_none hblock he (not_le.1 hlt)
      rw [hcap] at hexceeds
      simp [Cap.exceeds] at hexceeds

end Solver

/--
In a linear program an iteration that finds no bound has a half-line of feasible points before it
exactly if the direction moves no active inequality, and then the program is unbounded. It is so on
every run from a feasible state with tight active inequalities.
-/
theorem Solver.optimize_unbounded {kernels : Kernels ℝ} (hk : kernels.ExactLeastSquares)
    {settings : Settings ℝ} (htol : 0 < settings.tolerance) {p : Problem ℝ}
    {vectors : Keyed (List ℝ)} (hlinear : p.cost = .linear vectors) {s : Solver ℝ}
    (hs : Solver.ofProblem settings p = .ok s) :
    (∀ u n, u.workingSet.factors = p.inequalities → p.FeasibleWithin 0 u.values →
      (s.method kernels .largestMultiplier).iterate u = .error (.unbounded n) →
      ∃ d, s.direction kernels u.workingSet u.values = .ok d ∧
        ((∀ t, 0 ≤ t → p.FeasibleWithin 0 (Point.along s.dims u.values d t)) ↔
          ∀ e ∈ u.workingSet.flagged true, e.1.value d = 0) ∧
        ((∀ e ∈ u.workingSet.flagged true, e.1.value d = 0) → p.Unbounded)) ∧
    ∀ start u n, s.initialState kernels start = .ok u → p.OnFace u →
      s.optimize kernels .largestMultiplier start = .error (.fault (.unbounded n)) →
        p.Unbounded := by
  have hmade := Solver.madeFrom_ofProblem hs
  have hobjective : s.objective = .linear vectors := hmade.linear_eq vectors hlinear
  have hfactors : ∀ u : State ℝ, u.workingSet.factors = p.inequalities →
      u.workingSet.factors = s.inequalities := fun u hu => hu.trans hmade.inequalities_eq.symm
  have hstep : ∀ u n, u.workingSet.factors = p.inequalities → p.FeasibleWithin 0 u.values →
      (s.method kernels .largestMultiplier).iterate u = .error (.unbounded n) →
      ∃ d, s.direction kernels u.workingSet u.values = .ok d ∧
        ((∀ t, 0 ≤ t → p.FeasibleWithin 0 (Point.along s.dims u.values d t)) ↔
          ∀ e ∈ u.workingSet.flagged true, e.1.value d = 0) ∧
        ((∀ e ∈ u.workingSet.flagged true, e.1.value d = 0) → p.Unbounded) := by
    intro u n hw hfeas h
    obtain ⟨d, hd, hlarge, hfall⟩ := of_iterate_eq_unbounded hk hmade.wellFormed (hfactors u hw) h
    have hdirects := directs_of_direction hk hmade.wellFormed (hfactors u hw) hd
    have hiff := hdirects.feasibleWithin_along_iff hmade hw hfeas hfall
    refine ⟨d, hd, hiff, fun hactive => ?_⟩
    have hfree := hdirects.free_of_falls hmade hw hfeas fun e he => (hactive e he).le
    rw [hmade.settings_eq] at hlarge
    exact hdirects.unbounded hmade hobjective hfree (htol.trans hlarge) (hiff.2 hactive)
  refine ⟨hstep, fun start u n hstart hu h => ?_⟩
  rcases optimize_eq_fault hstart h with h | ⟨x, h⟩
  · obtain ⟨v, hv, hfail⟩ := Method.runFrom_failed h
    have hface := hu.of_runFrom hk hmade v hv
    obtain ⟨d, hd, _, hunbounded⟩ := hstep v n hface.factors_eq hface.feasible hfail
    have hdirects := directs_of_direction hk hmade.wellFormed (hfactors v hface.factors_eq) hd
    exact hunbounded ((free_iff hmade).1 (hface.free hmade hdirects)).2
  · rcases value_eq_error h with ⟨c, h⟩ | h <;> cases h

namespace OneVariable

private theorem feasibleWithin_lowest {a b c d x : ℝ} (ha : a * x ≤ b) (hc : c * x ≤ d) :
    (lowest a b c d).FeasibleWithin 0 (point x) := by
  refine ⟨List.forall_mem_nil _, fun f hf => ?_⟩
  obtain ⟨hfits, hle⟩ := feasible_lowest a b c d ha hc f hf
  exact Inequality.holds_iff.2 ⟨hfits, sub_nonpos.2 hle⟩

theorem not_unbounded_lowest (a b d : ℝ) : ¬(lowest a b (-1) d).Unbounded := by
  intro h
  obtain ⟨x, value, hx, hvalue, hlt⟩ := h (-d)
  have hmem : atMost (-1) d 1 ∈ (lowest a b (-1) d).inequalities := .tail _ (.head _)
  have hle := (Inequality.holds_iff.1 (hx.inequalities _ hmem)).2
  have hobjective : value = Vec.dot [1] (x.part key) := by
    rw [Solver.linearValue_eq_ok hvalue]
    exact List.sum_singleton
  have hneg : Vec.dot [-1] (x.part key) = -Vec.dot [1] (x.part key) := by
    cases x.part key <;> simp
  rw [value_atMost, hneg, ← hobjective] at hle
  simp only [atMost] at hle
  linarith

theorem optimize_unbounded_lowest :
    (lowestSolver settings 1 3 2 7).optimize .exact .largestMultiplier (startAtZero 1 3 2 7) =
      .error (.fault (.unbounded 1)) ∧ (lowest 1 3 2 7).Unbounded := by
  have hstart : (lowestSolver settings 1 3 2 7).initialState .exact (startAtZero 1 3 2 7) =
      .ok (.initial (point 0) (.inactive (lowest 1 3 2 7).inequalities)) :=
    initialState_of_feasible feasibilityTolerance_pos
      (feasible_lowest 1 3 2 7 (by norm_num) (by norm_num)) rfl rfl
  have hiterate := iterate_lowest settings 1 3 2 7 tolerance_lt_one zero_le_one zero_le_two 0
  have hfail := Solver.optimize_of_failed hstart
    (congrArg Run.ending (Method.run_of_error rfl (Nat.succ_pos 999) hiterate))
  have hface : (lowest 1 3 2 7).OnFace
      (.initial (point 0) (.inactive (lowest 1 3 2 7).inequalities)) :=
    ⟨rfl, feasibleWithin_lowest (by norm_num) (by norm_num), List.forall_mem_nil _⟩
  exact ⟨hfail, (Solver.optimize_unbounded Kernels.exact_leastSquares tolerance_pos rfl
    (ofProblem_lowest settings 1 3 2 7)).2 _ _ _ hstart hface hfail⟩

/--
An inequality that is seeded active while it has slack draws the direction up to it, and nothing
bounds the way: the solve of a bounded program ends as if there were no bound.
-/
theorem optimize_unbounded_slack : ∃ u n,
    (lowestSolver settings 0.01 0.01 (-1) 0).initialState .exact
      { point := some (point 0.999995) } = .ok u ∧
    u.workingSet.factors = (lowest 0.01 0.01 (-1) 0).inequalities ∧
    (lowest 0.01 0.01 (-1) 0).FeasibleWithin 0 u.values ∧
    (lowestSolver settings 0.01 0.01 (-1) 0).optimize .exact .largestMultiplier
      { point := some (point 0.999995) } = .error (.fault (.unbounded n)) ∧
    ¬(lowest 0.01 0.01 (-1) 0).Unbounded := by
  have hseed : WorkingSet.seed (lowest 0.01 0.01 (-1) 0).inequalities (point 0.999995) none
      settings.activeTolerance = .ok (firstEnforced (atMost 0.01 0.01 0) [atMost (-1) 0 1]) := by
    refine seed_firstEnforced (fits_atMost _ _ _ _) ?_
      (List.forall_mem_singleton.2 ⟨fits_atMost _ _ _ _, ?_⟩)
    · rw [value_atMost, part_point]
      norm_num [settings, abs_le]
    · rw [value_atMost, part_point]
      norm_num [settings, lt_abs]
  have hstart : (lowestSolver settings 0.01 0.01 (-1) 0).initialState .exact
      { point := some (point 0.999995) } =
        .ok (.initial (point 0.999995) (firstEnforced (atMost 0.01 0.01 0) [atMost (-1) 0 1])) :=
    initialState_of_feasible feasibilityTolerance_pos
      (feasible_lowest 0.01 0.01 (-1) 0 (by norm_num) (by norm_num)) rfl hseed
  have hiterate := iterate_lowest_enforced settings 0.01 0.01 (-1) 0 (by norm_num) (x := 0.999995)
    (by norm_num [settings, lt_abs]) (by norm_num)
  have hfail := Solver.optimize_of_failed hstart
    (congrArg Run.ending (Method.run_of_error rfl (Nat.succ_pos 999) hiterate))
  exact ⟨_, _, hstart, rfl, feasibleWithin_lowest (by norm_num) (by norm_num), hfail,
    not_unbounded_lowest _ _ _⟩

end OneVariable

end ActiveSet
