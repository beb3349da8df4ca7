import ActiveSet.Proofs.Gradients
import ActiveSet.Proofs.Independence
import ActiveSet.Proofs.Shifts

/-!
# Stationarity

The dual graph is the condition that the gradient of the Lagrangian vanishes, key by key. It can be
built wherever the cost can be evaluated, and what multipliers leave of its equation at a key is the
sum of the transposed blocks of the enforced constraints, less the gradient of the objective.
-/

namespace ActiveSet

namespace Solver

variable {s : Solver ℝ} {w : WorkingSet ℝ} {x : Point ℝ} {k : Key}

/-! ## Building the dual graph -/

/-- Terms of constraints have as many rows as their key has dimensions. -/
theorem height_of_term {cs : List (Equality ℝ)} (hcs : (Equality.graph cs).Over s.dims.entries)
    {t : Key × Matrix ℝ} (ht : t ∈ cs.filterMap (Equality.term k)) :
    s.dims.lookup k = some t.2.height := by
  obtain ⟨c, hc, ht⟩ := List.mem_filterMap.1 ht
  obtain ⟨A, hA, rfl⟩ := Option.map_eq_some_iff.1 ht
  have hmem := hcs c.toFactor (List.mem_map_of_mem hc) (k, A) ((Keyed.lookup_iff _).1 hA)
  rw [Matrix.height_transpose]
  exact Keyed.lookup_of_mem hmem

theorem exists_costGradient (hs : s.WellFormed)
    (hx : s.objective = .quadratic → ∀ f ∈ s.cost, f.Fits x) (hk : k ∈ s.dims.keys) :
    ∃ g, s.costGradient k x = .ok g := by
  cases h : s.costGradient k x with
  | ok g => exact ⟨g, rfl⟩
  | error e =>
      cases ho : s.objective with
      | quadratic =>
          obtain ⟨f, hf, h⟩ := residual_of_costGradient_error hs hk h
          cases h.symm.trans (f.residual_eq_ok.2 ⟨hx ho f hf, rfl⟩)
      | linear vectors =>
          obtain ⟨d, hd⟩ := (Keyed.mem_keys_iff _).1 hk
          rw [costGradient, (Keyed.get_eq_ok_iff _).2 hd, ok_bind, ho] at h
          cases h

/-- The equation at a key can be built from its terms where the gradient can be computed. -/
theorem dualFactor_ok (hs : s.WellFormed) (hx : s.objective = .quadratic → ∀ f ∈ s.cost, f.Fits x)
    (hk : k ∈ s.dims.keys) {terms : List (Key × Matrix ℝ)} (hterms : s.dualTerms w k = .ok terms)
    (hheight : ∀ t ∈ terms, s.dims.lookup k = some t.2.height) :
    ∃ F, s.dualFactor w x k = .ok F ∧ F.terms = Keyed.ofList terms ∧
      s.dims.lookup k = some F.b.length ∧
      ∀ v, Vec.dot v F.b = if terms.isEmpty then 0 else s.slopeAt x k v := by
  rw [dualFactor, hterms, ok_bind]
  split
  · rename_i hempty
    obtain rfl := List.isEmpty_iff.1 hempty
    obtain ⟨d, hd⟩ := (Keyed.mem_keys_iff _).1 hk
    refine ⟨⟨.empty, Vec.zeros d, List.forall_mem_nil _⟩, ?_, rfl, by simpa using hd,
      fun v => by simp⟩
    rw [(Keyed.get_eq_ok_iff _).2 hd, ok_bind]
    exact Factor.make_ok _
  · obtain ⟨g, hg⟩ := exists_costGradient hs hx hk
    obtain ⟨hlen, hdot⟩ := costGradient_eq_ok hs hg
    have hrows : ∀ e ∈ (Keyed.ofList terms).entries, e.2.height = g.length := fun e he =>
      Option.some.inj <| (hheight e (Keyed.mem_of_lookup_ofList (Keyed.lookup_of_mem he))).symm.trans
        hlen
    refine ⟨⟨_, g, hrows⟩, ?_, rfl, hlen, hdot⟩
    rw [hg, ok_bind]
    exact Factor.make_ok hrows

theorem exists_dualGraph (hs : s.WellFormed) (hw : w.factors = s.inequalities)
    (hx : s.objective = .quadratic → ∀ f ∈ s.cost, f.Fits x) : ∃ g, s.dualGraph w x = .ok g := by
  have hall : ∀ k ∈ s.constrainedKeys, ∃ F, s.dualFactor w x k = .ok F := by
    intro k hk
    obtain ⟨F, hF, _⟩ := dualFactor_ok hs hx (mem_dims_of_constrained hs hk) (dualTerms_eq hs hw k)
      fun t ht => height_of_term (hs.over_working hw) ht
    exact ⟨F, hF⟩
  obtain ⟨fs, hfs⟩ := mapM_ok hall
  rw [dualGraph, hfs, ok_bind]
  exact ⟨_, rfl⟩

/-! ## What its equations say -/

/-- The equation at a key sums the transposed blocks of the enforced constraints. -/
theorem values_dual (hs : s.WellFormed) (hw : w.factors = s.inequalities) {F : Factor ℝ}
    (hF : F.terms.entries = s.termsAt w k) (hrows : s.dims.lookup k = some F.rows) (duals : Point ℝ) :
    F.values duals = Vec.sum F.rows
      ((s.working w).filterMap fun c => c.toFactor.adjoint k (duals.part c.dual)) := by
  have hcols : ∀ c ∈ s.working w, ∀ A, c.toFactor.terms.lookup k = some A → A.cols = F.rows := by
    intro c hc A hA
    have hmem := hs.over_working hw c.toFactor (List.mem_map_of_mem hc) (k, A)
      ((Keyed.lookup_iff _).1 hA)
    exact Option.some.inj ((Keyed.lookup_of_mem hmem).symm.trans hrows)
  refine Vec.ext_dot ?_ fun v => ?_
  · rw [F.length_values, length_sum_adjoint hcols]
  · rw [dot_sum_adjoint hcols, Vec.dot_comm, dot_values_terms hF]

theorem fits_dual {F : Factor ℝ} (hF : F.terms.entries = s.termsAt w k) {duals : Point ℝ}
    (hduals : ∀ c ∈ s.working w, ∃ v, duals.lookup c.dual = some v ∧ v.length = c.toFactor.rows) :
    F.Fits duals := by
  intro e he u hu
  rw [hF, mem_termsAt] at he
  obtain ⟨c, hc, A, hA, rfl⟩ := he
  obtain ⟨v, hv, hlen⟩ := hduals c hc
  rw [Option.some.inj (hu.symm.trans hv), hlen]
  exact (c.rows_eq (k, A) ((Keyed.lookup_iff _).1 hA)).symm

end Solver

/-- The equalities of a program and its inequalities that are active. -/
noncomputable def Problem.enforced (p : Problem ℝ) (w : WorkingSet ℝ) : List (Equality ℝ) :=
  p.equalities ++ w.asEqualities

/--
The dual graph can be built wherever a quadratic cost can be evaluated, and for a linear one
everywhere. It has one equation for each key that an enforced constraint mentions, in the order of the
constrained keys, and what multipliers leave of it is the sum of all `Aᵀ λ` less the gradient.
-/
theorem Solver.dualGraph_stationary {settings : Settings ℝ} {p : Problem ℝ} {s : Solver ℝ}
    (hs : Solver.ofProblem settings p = .ok s) (hd : p.DistinctDuals) {w : WorkingSet ℝ}
    (hw : w.factors = p.inequalities) (x : Point ℝ) :
    ((∀ factors, p.cost = .quadratic factors → ∀ f ∈ factors, ∃ r, f.residual x = .ok r) →
      ∃ g, s.dualGraph w x = .ok g) ∧
    ∀ g, s.dualGraph w x = .ok g → ∃ keys : List Key,
      keys.Sublist s.constrainedKeys ∧ keys.Nodup ∧
      (∀ k, k ∈ keys ↔ ∃ c ∈ p.enforced w, k ∈ c.toFactor.keys) ∧
      List.Forall₂ (fun k F => ∃ d, s.dims.lookup k = some d ∧ ∀ duals : Point ℝ,
        (∀ c ∈ p.enforced w, ∃ v, duals.lookup c.dual = some v ∧ v.length = c.toFactor.rows) →
        F.residual duals = .ok (Vec.sub
          (Vec.sum d ((p.enforced w).filterMap fun c => c.toFactor.adjoint k (duals.part c.dual)))
          (p.cost.gradient x k d))) keys g := by
  have hmade := madeFrom_ofProblem hs
  have hwf := hmade.wellFormed
  have hw' := hw.trans hmade.inequalities_eq.symm
  have hworking : s.working w = p.enforced w := by rw [working, hmade.equalities_eq]; rfl
  refine ⟨fun hx => exists_dualGraph hwf hw' fun hquadratic f hf => ?_, fun g hg => ?_⟩
  · cases hc : p.cost with
    | quadratic factors =>
        obtain ⟨r, hr⟩ := hx factors hc f (cost_of_quadratic hc hs ▸ hf)
        exact (f.residual_eq_ok.1 hr).1
    | linear vectors => cases hquadratic.symm.trans (hmade.linear_eq vectors hc)
  · obtain ⟨Φ, rfl, hΦ⟩ := dualGraph_eq_ok hwf hw' (hd.working hmade hw') hg
    refine ⟨s.touched w, List.filter_sublist, nodup_touched hwf w, fun k => ?_, ?_⟩
    · rw [← hworking]
      exact mem_touched hwf hw'
    rw [List.forall₂_map_right_iff, List.forall₂_same]
    intro k hk
    obtain ⟨hterms, hgrad⟩ := hΦ k hk
    obtain ⟨hdim, hdot⟩ := costGradient_eq_ok hwf hgrad
    obtain ⟨hlen, hslope⟩ := slopeAt_eq_dot hs hdim x
    have hb : (Φ k).b = p.cost.gradient x k (Φ k).rows :=
      Vec.ext_dot hlen.symm fun v => (hdot v).trans (hslope v)
    refine ⟨(Φ k).rows, hdim, fun duals hduals => (Φ k).residual_eq_ok.2 ⟨?_, ?_⟩⟩
    · exact fits_dual hterms (hworking ▸ hduals)
    · rw [Factor.defect, values_dual hwf hw' hterms hdim, hworking]
      exact congrArg (Vec.sub _) hb.symm

namespace TwoVariables

/--
The left variable `x` nearest to the target and one above the right variable `y`, with `a x ≤ 1` and
`b y ≤ 1`. The right variable costs nothing.
-/
noncomputable def anchored (target a b : ℝ) : Problem ℝ :=
  .make (.quadratic [OneVariable.pull target]) [{ gap 1 with dual := .number 0 }]
    [{ terms := Keyed.ofList [(left, [a])], bound := 1, dual := .number 1 },
      { terms := Keyed.ofList [(right, [b])], bound := 1, dual := .number 2 }]

/-- The first of the inequalities is active. -/
noncomputable def leftEnforced (target a b : ℝ) : WorkingSet ℝ :=
  ⟨(anchored target a b).inequalities, [true, false], rfl⟩

theorem transpose_ofRow (a l : ℝ) : (Matrix.ofRow [a]).transpose.mulVec [l] = [a * l] := by
  simp [Matrix.mulVec, Matrix.transpose, Matrix.columns, Matrix.column, Matrix.ofRow]

/-- The equation at the right variable has no gradient, and the inactive inequality is in neither. -/
theorem dualGraph_stationary_anchored : (anchored 5 2 3).DistinctDuals ∧
    ∃ s F G, Solver.ofProblem OneVariable.settings (anchored 5 2 3) = .ok s ∧
      s.dualGraph (leftEnforced 5 2 3) (atBoth 3 2) = .ok [F, G] ∧
      ∀ l m, F.residual (Keyed.ofList [(.number 0, [l]), (.number 1, [m])]) =
          .ok [l + 2 * m - (3 - 5)] ∧
        G.residual (Keyed.ofList [(.number 0, [l]), (.number 1, [m])]) = .ok [-l - 0] := by
  have hd : (anchored 5 2 3).DistinctDuals := by
    change [Key.number 0, .number 1, .number 2].Nodup
    decide
  obtain ⟨s, hs, hkeys, hdims⟩ : ∃ s, Solver.ofProblem OneVariable.settings (anchored 5 2 3) = .ok s ∧
      s.constrainedKeys = [left, right] ∧ s.dims.entries = [(left, 1), (right, 1)] :=
    ⟨_, rfl, rfl, rfl⟩
  obtain ⟨hbuilt, hall⟩ := Solver.dualGraph_stationary hs hd (w := leftEnforced 5 2 3) rfl (atBoth 3 2)
  obtain ⟨g, hg⟩ := hbuilt fun factors hfactors f hf => by
    obtain rfl := Cost.quadratic.inj hfactors
    rw [List.mem_singleton.1 hf]
    exact ⟨_, rfl⟩
  obtain ⟨keys, hsub, hnodup, hmem, hequations⟩ := hall g hg
  have hboth : [left, right] ⊆ keys := List.cons_subset.2 ⟨(hmem left).2 ⟨_, .head _, .head _⟩,
    List.cons_subset.2 ⟨(hmem right).2 ⟨_, .head _, .tail _ (.head _)⟩, List.nil_subset _⟩⟩
  rw [hkeys] at hsub
  have hlength : [left, right].length ≤ keys.length :=
    (List.Nodup.subperm (by decide) hboth).length_le
  obtain rfl : keys = [left, right] := hsub.eq_of_length_le hlength
  obtain ⟨F, _, ⟨dl, hdl, hleft⟩, hrest, rfl⟩ := List.forall₂_cons_left_iff.1 hequations
  obtain ⟨G, _, ⟨dr, hdr, hright⟩, hnil, rfl⟩ := List.forall₂_cons_left_iff.1 hrest
  obtain rfl := List.forall₂_nil_left_iff.1 hnil
  have hdim : ∀ e ∈ [(left, 1), (right, 1)], s.dims.lookup e.1 = some e.2 := fun e he =>
    Keyed.lookup_of_mem (hdims ▸ he)
  obtain rfl := Option.some.inj ((hdim _ (.head _)).symm.trans hdl)
  obtain rfl := Option.some.inj ((hdim _ (.tail _ (.head _))).symm.trans hdr)
  refine ⟨hd, s, F, G, hs, hg, fun l m => ?_⟩
  have hduals : ∀ c ∈ (anchored 5 2 3).enforced (leftEnforced 5 2 3), ∃ v,
      (Keyed.ofList [(.number 0, [l]), (.number 1, [m])] : Point ℝ).lookup c.dual = some v ∧
        v.length = c.toFactor.rows :=
    List.forall_mem_cons.2 ⟨⟨[l], rfl, rfl⟩, List.forall_mem_singleton.2 ⟨[m], rfl, rfl⟩⟩
  rw [hleft _ hduals, hright _ hduals]
  constructor
  · change Except.ok (Vec.sub
      (Vec.sum 1 [(Matrix.ofRow [1]).transpose.mulVec [l], (Matrix.ofRow [2]).transpose.mulVec [m]])
      (Vec.sum 1 [(Matrix.identity 1).transpose.mulVec ((OneVariable.pull 5).defect (atBoth 3 2))])) = _
    have hpull : (OneVariable.pull 5).defect (atBoth 3 2) = [3 - 5] :=
      congrArg (Vec.sub · [5]) (OneVariable.values_pull 5 3)
    rw [hpull, transpose_ofRow, transpose_ofRow]
    simp [Vec.sum, Vec.add, Vec.sub, Vec.zeros, Matrix.mulVec, Matrix.transpose,
      Matrix.columns, Matrix.column, Matrix.identity, Vec.unit]
  · change Except.ok (Vec.sub (Vec.sum 1 [(Matrix.ofRow [-1]).transpose.mulVec [l]])
      (Vec.sum 1 [])) = _
    rw [transpose_ofRow]
    simp [Vec.sum, Vec.add, Vec.sub, Vec.zeros]

end TwoVariables

end ActiveSet
