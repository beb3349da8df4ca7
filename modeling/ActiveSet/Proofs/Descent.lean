import ActiveSet.Proofs.Feasibility
import ActiveSet.Proofs.Objectives

/-!
# Descent

Along a step the objective is a parabola, whose slope at the start is minus the squared length of
what the direction changes in the cost. So every step of positive length lowers the objective.
-/

namespace ActiveSet

namespace Solver

variable {s : Solver ℝ} {w : WorkingSet ℝ} {x y d z : Point ℝ}

/-! ## The objective along a step -/

/-- The second derivative of the objective along `z` and `d`; a linear objective has none. -/
noncomputable def bend (s : Solver ℝ) (z d : Point ℝ) : ℝ :=
  match s.objective with
  | .quadratic => (s.cost.map fun f => Vec.dot (f.values z) (f.values d)).sum
  | .linear _ => 0

/-- What a direction changes in the cost that it minimises, squared. -/
noncomputable def effect (s : Solver ℝ) (d : Point ℝ) : ℝ :=
  (s.cost.map fun f => Vec.dot (f.values d) (f.values d)).sum

theorem effect_nonneg (s : Solver ℝ) (d : Point ℝ) : 0 ≤ s.effect d := by
  refine List.sum_nonneg fun a ha => ?_
  obtain ⟨f, _, rfl⟩ := List.mem_map.1 ha
  exact Vec.dot_self_nonneg _

theorem slope_step {a : ℝ} (h : Point.add x (Point.scale a d) = .ok y) (z : Point ℝ) :
    s.slope y z = s.slope x z + a * s.bend z d := by
  unfold slope bend
  cases s.objective with
  | quadratic =>
      dsimp only
      rw [← List.sum_map_mul_left, ← List.sum_map_add]
      congr 1
      apply List.map_congr_left
      intro f _
      rw [Factor.defect_step h, Vec.dot_add_right (by simp), Vec.dot_scale_right]
  | linear vectors => rw [mul_zero, add_zero]

theorem amount_step {a : ℝ} (h : Point.add x (Point.scale a d) = .ok y) :
    s.amount y = s.amount x + a * s.slope x d + a ^ 2 / 2 * s.bend d d := by
  unfold amount slope bend
  cases s.objective with
  | quadratic =>
      dsimp only
      rw [← List.sum_map_mul_left, ← List.sum_map_mul_left, ← List.sum_map_add, ← List.sum_map_add]
      congr 1
      apply List.map_congr_left
      intro f _
      have hlen : (f.defect x).length = (Vec.scale a (f.values d)).length := by simp
      rw [Factor.defect_step h, Vec.dot_add_left hlen, Vec.dot_add_right hlen,
        Vec.dot_add_right hlen, Vec.dot_scale_left, Vec.dot_scale_right, Vec.dot_scale_left,
        Vec.dot_scale_right, Vec.dot_comm (f.values d) (f.defect x)]
      ring
  | linear vectors =>
      dsimp only
      rw [mul_zero, add_zero, ← List.sum_map_mul_left, ← List.sum_map_add]
      congr 1
      apply List.map_congr_left
      intro e _
      exact Point.dot_part_step h e.1 e.2

theorem Directs.slope_eq_neg (h : s.Directs w x d) (hfree : s.Free w d) :
    s.slope x d = -s.effect d :=
  eq_neg_of_add_eq_zero_right (h.stationary d hfree)

/-- A direction without any effect is zero, for it is the shortest one. -/
theorem norm_eq_zero_of_effect {kernels : Kernels ℝ} (hk : kernels.ExactLeastSquares)
    (hs : s.WellFormed) (hw : w.factors = s.inequalities)
    (h : s.direction kernels w x = .ok d) (hfree : s.Free w d) (heffect : s.effect d = 0) :
    Point.norm d = 0 := by
  have hcost : ∀ f ∈ s.cost, f.values d = Vec.zeros f.rows := fun f hf => by
    simpa using Vec.eq_zeros_of_sum_dot_self heffect f hf
  have hflat := Vec.eq_zeros_of_dot_self (shortest_of_direction hk hs hw h hfree hcost)
  rw [Point.length_flat] at hflat
  exact (directs_of_direction hk hs hw h).spans.norm_eq_zero hflat

/-- A step to the end of a quadratic direction leads to rest. -/
theorem norm_eq_zero_of_full {kernels : Kernels ℝ} (hk : kernels.ExactLeastSquares)
    (hs : s.WellFormed) (hw : w.factors = s.inequalities) (hd : s.Directs w x d) {c : ℝ}
    (hcap : s.cap = .at c) (hadd : Point.add x (Point.scale (max c 0) d) = .ok y) {e : Point ℝ}
    (he : s.direction kernels w y = .ok e) (hfree : s.Free w e) : Point.norm e = 0 := by
  have hslope := slope_step (s := s) hadd e
  have hstationary := hd.stationary e hfree
  have heffect := (directs_of_direction hk hs hw he).slope_eq_neg hfree
  refine norm_eq_zero_of_effect hk hs hw he hfree ?_
  unfold cap at hcap
  unfold bend at hslope
  cases ho : s.objective with
  | quadratic =>
      rw [ho] at hcap hslope
      obtain rfl := Cap.at.inj hcap
      rw [max_eq_left zero_le_one, one_mul, add_comm, hstationary] at hslope
      linarith
  | linear vectors =>
      rw [ho] at hcap
      cases hcap

/-! ## The objective before and after a step -/

variable {settings : Settings ℝ} {kernels : Kernels ℝ} {leaving : LeavingRule ℝ} {u v : State ℝ}

theorem measures_of_sized (hs : s.WellFormed)
    (hx : ∀ k n v, s.dims.lookup k = some n → x.lookup k = some v → v.length = n) :
    s.Measures x := by
  unfold Measures
  cases ho : s.objective with
  | quadratic =>
      intro f hf e he v hv
      exact hx e.1 _ v (Keyed.lookup_of_mem (hs.over_cost f hf e he)) hv
  | linear vectors =>
      intro e he v hv
      exact hx e.1 _ v (hs.length_vector ho (Keyed.lookup_of_mem he)) hv

theorem measures_of_add (hs : s.WellFormed) (hd : Graph.Spans d s.dims.entries)
    (hne : Point.norm d ≠ 0) {a : ℝ} (h : Point.add x (Point.scale a d) = .ok y) :
    s.Measures x ∧ s.Measures y := by
  obtain ⟨hconforms, hlookup⟩ := Point.lookup_addScaled h
  have hheld : ∀ k n, s.dims.lookup k = some n →
      ∃ q, (Point.scale a d).lookup k = some q ∧ q.length = n := by
    intro k n hn
    have hk := hd.holds (hd.totalDim_ne_zero hne) (k, n) ((Keyed.lookup_iff _).1 hn)
    obtain ⟨q, hq⟩ := Option.ne_none_iff_exists'.1 hk
    have hlen := Keyed.lookup_of_mem (hd.length_mem k q hq)
    refine ⟨Vec.scale a q, ?_, ?_⟩
    · rw [Point.lookup_scale, hq, Option.map_some]
    · rw [Vec.length_scale]
      exact Option.some.inj (hlen.symm.trans hn)
  constructor
  · refine measures_of_sized hs fun k n v hn hv => ?_
    obtain ⟨q, hq, rfl⟩ := hheld k n hn
    exact hconforms k v q hv hq
  · refine measures_of_sized hs fun k n v hn hv => ?_
    obtain ⟨q, hq, rfl⟩ := hheld k n hn
    exact (Point.length_lookup_add h hv).2.1 q hq

/-- A step of positive length along a direction lowers the objective. -/
theorem amount_lt_of_step (hk : kernels.ExactLeastSquares) (hs : s.WellFormed)
    (hw : u.workingSet.factors = s.inequalities) (htol : 0 ≤ s.settings.tolerance)
    (hd : s.direction kernels u.workingSet u.values = .ok d) (hfree : s.Free u.workingSet d)
    (h : Method.Step (s.method kernels leaving) u d v) (hmoved : v.hasMoved = true) :
    s.amount v.values < s.amount u.values := by
  obtain ⟨a, ha, hpos⟩ := State.hasMoved_iff.1 hmoved
  obtain ⟨hlarge, _, hadd, hcap⟩ := h.of_alpha ha
  have hnorm : Point.norm d ≠ 0 := (htol.trans_lt hlarge).ne'
  have heffect : 0 < s.effect d := (s.effect_nonneg d).lt_of_ne' fun h0 =>
    hnorm (norm_eq_zero_of_effect hk hs hw hd hfree h0)
  have hslope := (directs_of_direction hk hs hw hd).slope_eq_neg hfree
  rw [amount_step hadd, hslope]
  unfold bend
  cases ho : s.objective with
  | quadratic =>
      have hle : a ≤ max 1 0 := hcap 1 (by rw [method, cap, ho])
      rw [max_eq_left zero_le_one] at hle
      change _ + a * -s.effect d + a ^ 2 / 2 * s.effect d < _
      nlinarith [mul_pos hpos heffect]
  | linear vectors =>
      dsimp only
      linarith [mul_pos hpos heffect]

/-- Without a step of positive length the point stays, up to keys that it lacked. -/
theorem padded_of_step (hd : Graph.Spans d s.dims.entries)
    (h : Method.Step (s.method kernels leaving) u d v) (hstill : v.hasMoved = false) :
    Point.Padded s.dims u.values v.values ∧ s.amount v.values = s.amount u.values := by
  cases halpha : v.alpha with
  | none =>
      rw [(h.of_alpha_none halpha).1]
      exact ⟨.refl _ _, rfl⟩
  | some a =>
      obtain ⟨_, hnonneg, hadd, _⟩ := h.of_alpha halpha
      obtain rfl : a = 0 := le_antisymm (State.not_hasMoved_iff.1 hstill a halpha) hnonneg
      refine ⟨Point.padded_of_step_zero (fun k q hq => ?_) hadd, ?_⟩
      · exact Keyed.lookup_of_mem (hd.length_mem k q hq)
      · rw [amount_step hadd]
        ring

theorem value_of_step (hs : s.WellFormed) (htol : 0 ≤ s.settings.tolerance)
    (hd : Graph.Spans d s.dims.entries) (h : Method.Step (s.method kernels leaving) u d v) {a : ℝ}
    (ha : v.alpha = some a) : s.value u.values = .ok (s.amount u.values) ∧
      s.value v.values = .ok (s.amount v.values) := by
  obtain ⟨hlarge, _, hadd, _⟩ := h.of_alpha ha
  obtain ⟨hu, hv⟩ := measures_of_add hs hd (htol.trans_lt hlarge).ne' hadd
  exact ⟨value_eq_ok.2 ⟨hu, rfl⟩, value_eq_ok.2 ⟨hv, rfl⟩⟩

end Solver

/-! ## Runs -/

namespace Problem

/-- The objective at `y` is that at `x`, or it is less. -/
def Descends (p : Problem ℝ) (x y : Point ℝ) : Prop :=
  p.objective y = p.objective x ∨
    ∃ a b, p.objective x = .ok a ∧ p.objective y = .ok b ∧ b < a

theorem Descends.trans {p : Problem ℝ} {x y z : Point ℝ} (hxy : p.Descends x y)
    (hyz : p.Descends y z) : p.Descends x z := by
  rcases hxy with hxy | ⟨a, b, ha, hb, hlt⟩
  · rw [Descends, ← hxy]
    exact hyz
  · rcases hyz with hyz | ⟨b', c, hb', hc, hlt'⟩
    · exact .inr ⟨a, b, ha, hyz.trans hb, hlt⟩
    · obtain rfl := Except.ok.inj (hb.symm.trans hb')
      exact .inr ⟨a, c, ha, hc, hlt'.trans hlt⟩

end Problem

/--
From a feasible state with tight active inequalities an iteration lowers the objective if it takes a
step of positive length, and keeps the point otherwise; so the objective never rises along a run.
-/
theorem Solver.objective_descends {kernels : Kernels ℝ} (hk : kernels.ExactLeastSquares)
    {settings : Settings ℝ} (htol : 0 ≤ settings.tolerance) {p : Problem ℝ} {s : Solver ℝ}
    (hs : Solver.ofProblem settings p = .ok s) (leaving : LeavingRule ℝ) :
    (∀ u v, p.OnFace u → (s.method kernels leaving).iterate u = .ok v →
      (v.hasMoved = true → ∃ a b, p.objective u.values = .ok a ∧ p.objective v.values = .ok b ∧
        b < a) ∧
      (v.hasMoved = false → p.objective v.values = p.objective u.values ∧
        Point.Padded s.dims u.values v.values ∧
        ((∀ k ∈ s.dims.keys, u.values.lookup k ≠ none) →
          ∀ k, v.values.lookup k = u.values.lookup k))) ∧
      ∀ u budget seen, p.OnFace u →
        (u :: ((s.method kernels leaving).runFrom budget seen u).states).Pairwise
          fun v w => p.Descends v.values w.values := by
  have hmade := Solver.madeFrom_ofProblem hs
  have hwf := hmade.wellFormed
  rw [← hmade.settings_eq] at htol
  have hiterate : ∀ u v, p.OnFace u → (s.method kernels leaving).iterate u = .ok v →
      (v.hasMoved = true → ∃ a b, p.objective u.values = .ok a ∧ p.objective v.values = .ok b ∧
        b < a) ∧
      (v.hasMoved = false → p.objective v.values = p.objective u.values ∧
        Point.Padded s.dims u.values v.values ∧
        ((∀ k ∈ s.dims.keys, u.values.lookup k ≠ none) →
          ∀ k, v.values.lookup k = u.values.lookup k)) := by
    intro u v hu h
    obtain ⟨d, hd, hstep⟩ := Method.step_of_iterate h
    have hw := hu.factors_eq.trans hmade.inequalities_eq.symm
    have hdirects := Solver.directs_of_direction hk hwf hw hd
    rw [← hmade.value_eq, ← hmade.value_eq]
    constructor
    · intro hmoved
      obtain ⟨a, ha, _⟩ := State.hasMoved_iff.1 hmoved
      obtain ⟨hbefore, hafter⟩ := Solver.value_of_step hwf htol hdirects.spans hstep ha
      exact ⟨_, _, hbefore, hafter, Solver.amount_lt_of_step hk hwf hw htol hd
        (hu.free hmade hdirects) hstep hmoved⟩
    · intro hstill
      obtain ⟨hpadded, hamount⟩ := Solver.padded_of_step hdirects.spans hstep hstill
      refine ⟨?_, hpadded, hpadded.lookup_eq⟩
      cases halpha : v.alpha with
      | none => rw [(hstep.of_alpha_none halpha).1]
      | some a =>
          obtain ⟨hbefore, hafter⟩ := Solver.value_of_step hwf htol hdirects.spans hstep halpha
          rw [hbefore, hafter, hamount]
  refine ⟨hiterate, fun u budget seen hu => ?_⟩
  apply Method.runFrom_pairwise (P := p.OnFace) (R := fun v w => p.Descends v.values w.values)
  · exact Problem.Descends.trans
  · intro v w hv h
    obtain ⟨hlower, hsame⟩ := hiterate v w hv h
    refine ⟨hv.of_iterate hk hmade h, ?_⟩
    cases hmoved : w.hasMoved with
    | true => exact .inr (hlower hmoved)
    | false => exact .inl (hsame hmoved).1
  · exact hu

namespace OneVariable

theorem objective_descends_nearest : (nearest 5 3).OnFace (below 3 0) ∧
    ∃ v, ((nearestSolver settings 5 3).method .exact .largestMultiplier).iterate (below 3 0) =
        .ok v ∧ v.hasMoved = true ∧
      (∃ a b, (nearest 5 3).objective (below 3 0).values = .ok a ∧
        (nearest 5 3).objective v.values = .ok b ∧ b < a) ∧
      ∀ budget, (below 3 0 :: (((nearestSolver settings 5 3).method .exact
        .largestMultiplier).runFrom budget [] (below 3 0)).states).Pairwise
          fun v w => (nearest 5 3).Descends v.values w.values := by
  have hface := onFace_below 5 (show (0 : ℝ) ≤ 3 by norm_num)
  obtain ⟨v, hv, halpha, _⟩ := iterate_below settings 5 3 .largestMultiplier (x := 0)
    (by norm_num) (by norm_num) (tolerance_lt_one.trans (by norm_num))
  have hmoved : v.hasMoved = true := State.hasMoved_iff.2 ⟨_, halpha, by norm_num⟩
  obtain ⟨hiterate, hrun⟩ := Solver.objective_descends Kernels.exact_leastSquares
    tolerance_pos.le (ofProblem_nearest settings 5 3) .largestMultiplier
  exact ⟨hface, v, hv, hmoved, (hiterate _ v hface hv).1 hmoved,
    fun budget => hrun _ budget [] hface⟩

/-- A state whose point lacks the only key, with nothing enforced. -/
noncomputable def lacking : State ℝ := .initial .empty (.inactive [atMost 1 0 0])

theorem fits_lacking (a b : ℝ) (i : Int) : (atMost a b i).Fits lacking.values :=
  fun _ _ _ hv => (Option.some_ne_none _ hv.symm).elim

theorem value_lacking (a b : ℝ) (i : Int) : (atMost a b i).value lacking.values = 0 := by
  rw [value_atMost]
  exact Vec.dot_nil_right _

theorem onFace_lacking (target : ℝ) : (nearest target 0).OnFace lacking := by
  refine ⟨rfl, ⟨List.forall_mem_nil _, ?_⟩, List.forall_mem_nil _⟩
  refine List.forall_mem_singleton.2 (Inequality.holds_iff.2 ⟨fits_lacking _ _ _, ?_⟩)
  rw [value_lacking, bound_atMost, sub_zero]

/--
A key that the point lacks counts as zero, which is as far as the bound allows. The step of length zero
adds the key, so it does not leave the point the same map.
-/
theorem iterate_lacking : (nearest 5 0).OnFace lacking ∧ ∃ v,
    ((nearestSolver settings 5 0).method .exact .largestMultiplier).iterate lacking = .ok v ∧
      v.alpha = some 0 ∧ lacking.values.lookup key = none ∧ v.values.lookup key = some [0] := by
  have hfits : (pull 5).Fits lacking.values := fun _ _ _ hv => (Option.some_ne_none _ hv.symm).elim
  have hvalues : (pull 5).values lacking.values = [0] := by
    rw [Factor.values_of_singleton (A := .identity 1) rfl]
    rfl
  have hdirection := direction_inactive settings 5 0 hfits hvalues
  have hlarge : settings.tolerance < Point.norm (point (5 - 0)) := by
    rw [norm_point]
    exact tolerance_lt_one.trans (by norm_num)
  have hpast : (atMost 1 0 0).value (point (5 - 0)) = 5 := by
    rw [value_atMost, part_point]
    norm_num
  have hsum : Point.add lacking.values (Point.scale 0 (point (5 - 0))) = .ok (point 0) := by
    change Except.ok (Keyed.ofList [(key, [1 * (0 * (5 - 0))])]) = _
    norm_num [point]
  have hstep := Method.iterate_blocked (w := lacking.workingSet) (f := atMost 1 0 0)
    (m := (nearestSolver settings 5 0).method .exact .largestMultiplier) rfl rfl hdirection hlarge rfl
    (fits_lacking 1 0 0) (fits_atMost 1 0 (5 - 0) 0) (y := point 0)
  rw [hpast, value_lacking, bound_atMost, sub_self, zero_div] at hstep
  obtain ⟨v, hv, halpha, hagrees, _⟩ := hstep le_rfl (by norm_num) (List.forall_mem_nil _) hsum
  refine ⟨onFace_lacking 5, v, hv, halpha, rfl, ?_⟩
  rw [hagrees.values_eq]
  rfl

end OneVariable

end ActiveSet
