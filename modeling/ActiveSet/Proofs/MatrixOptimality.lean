import ActiveSet.Proofs.MatrixSolves
import ActiveSet.Proofs.Optimality
import ActiveSet.Proofs.Parabola

/-!
# Optimality conditions by matrices

A solve that ends as optimal returns a vector of multipliers for each kind of constraint. Where the
last direction was zero they satisfy the conditions of Karush, Kuhn and Tucker: the gradient of the
form is made of the rows, no multiplier of an inequality is positive, and only tight rows have one
other than zero.
-/

namespace ActiveSet

/-! ## Sums of multipliers -/

/-- The multiplier of a constraint of one row, zero without one. -/
noncomputable def Point.multiplierAt (duals : Point ℝ) (k : Key) : ℝ := (duals.part k).headD 0

theorem Point.mem_keys_of_multiplierAt {duals : Point ℝ} {k : Key} (h : duals.multiplierAt k ≠ 0) :
    k ∈ duals.keys := by
  rw [multiplierAt, part] at h
  cases hv : duals.lookup k with
  | none =>
      rw [hv] at h
      exact absurd rfl h
  | some v => exact (Keyed.mem_keys_iff _).2 ⟨v, hv⟩

theorem Point.multiplierAt_of_ok {duals : Point ℝ} {k : Key} {a : ℝ}
    (h : Point.multiplier duals k = .ok a) : duals.multiplierAt k = a := by
  obtain ⟨rest, hv⟩ := LeavingRule.multiplier_eq_ok.1 h
  rw [multiplierAt, part_of_lookup hv]
  rfl

namespace Solver

variable {s : Solver ℝ} {w : WorkingSet ℝ} {kernels : Kernels ℝ} {x duals : Point ℝ}

/-- An inequality that is not enforced has no multiplier, so all of them may be summed. -/
theorem sum_working (hs : s.WellFormed)
    (hd : (s.equalities.map (·.dual) ++ s.inequalities.map (·.dual)).Nodup)
    (hw : w.factors = s.inequalities) (hduals : s.multipliers kernels w x = .ok duals)
    (z : Point ℝ) :
    ((s.working w).map fun c => Vec.dot (c.toFactor.values z) (duals.part c.dual)).sum =
      (s.equalities.map fun c => Vec.dot (c.toFactor.values z) (duals.part c.dual)).sum +
        (s.inequalities.map fun f => f.value z * duals.multiplierAt f.dual).sum := by
  have hactive : w.asEqualities.map (fun c => Vec.dot (c.toFactor.values z) (duals.part c.dual)) =
      (w.numbered.filter fun e => e.1.2 = true).map
        fun e => e.1.1.value z * duals.multiplierAt e.1.1.dual := by
    rw [WorkingSet.asEqualities, WorkingSet.flagged, List.map_map, List.map_map]
    refine List.map_congr_left fun e _ => ?_
    simp only [Function.comp_apply, Inequality.values_toEquality, Inequality.dual_toEquality,
      Vec.dot_singleton, Point.multiplierAt]
  have hinactive : ((w.numbered.filter fun e => ¬e.1.2 = true).map
      fun e => e.1.1.value z * duals.multiplierAt e.1.1.dual).sum = 0 := by
    refine List.sum_eq_zero fun a ha => ?_
    obtain ⟨⟨⟨f, b⟩, i⟩, he, rfl⟩ := List.mem_map.1 ha
    obtain ⟨he, hflag⟩ := List.mem_filter.1 he
    have hzero : duals.multiplierAt f.dual = 0 := by
      by_contra hne
      have hb := active_of_multipliers hs hd hw hduals (WorkingSet.mem_flagged_of_numbered he)
        (Point.mem_keys_of_multiplierAt hne)
      exact of_decide_eq_true hflag hb
    rw [hzero, mul_zero]
  have hall : s.inequalities.map (fun f => f.value z * duals.multiplierAt f.dual) =
      w.numbered.map fun e => e.1.1.value z * duals.multiplierAt e.1.1.dual := by
    have hfactors : w.numbered.map (fun e => e.1.1) = s.inequalities := by
      change w.numbered.map (Prod.fst ∘ Prod.fst) = _
      rw [← hw, ← List.map_map, WorkingSet.numbered, List.zipIdx_map_fst,
        List.map_fst_zip w.size_eq.ge]
    rw [← hfactors, List.map_map]
    rfl
  have hsplit := List.sum_map_filter_add_sum_map_filter_not
    (fun e : (Inequality ℝ × Bool) × Nat => e.1.2 = true)
    (fun e => e.1.1.value z * duals.multiplierAt e.1.1.dual) w.numbered
  rw [hinactive, add_zero] at hsplit
  rw [working, List.map_append, List.sum_append, hactive, hall, hsplit]

end Solver

namespace Dense

/-- Column `j` of a matrix of constraints. -/
def Rows.column (r : Rows ℝ) (j : Nat) : List ℝ := r.pairs.map fun e => e.1.getD j 0

namespace Program

/-- The conditions of Karush, Kuhn and Tucker, with multipliers of inequalities not positive. -/
structure KarushKuhnTucker (p : Program ℝ) (r : Result ℝ) : Prop where
  length_x : (coordinates r.x).length = p.n
  length_yEq : r.yEq.length = p.equal.pairs.length
  length_yUb : r.yUb.length = p.atMost.pairs.length
  length_yUpper : r.yUpper.length = p.n
  length_yLower : r.yLower.length = p.n
  stationary : ∀ j < p.n, (p.form.mulVec (coordinates r.x)).getD j 0 + p.c.getD j 0 =
    Vec.dot (p.equal.column j) r.yEq + Vec.dot (p.atMost.column j) r.yUb +
      r.yUpper.getD j 0 - r.yLower.getD j 0
  nonpos : ∀ y ∈ r.yUb ++ r.yUpper ++ r.yLower, y ≤ 0
  atMost_tight : ∀ i, r.yUb.getD i 0 ≠ 0 →
    ∃ e, p.atMost.pairs[i]? = some e ∧ Vec.dot e.1 (coordinates r.x) = e.2
  upper_tight : ∀ j, r.yUpper.getD j 0 ≠ 0 →
    p.upper[j]? = some (some ((coordinates r.x).getD j 0))
  lower_tight : ∀ j, r.yLower.getD j 0 ≠ 0 →
    p.lower[j]? = some (some ((coordinates r.x).getD j 0))

variable {p : Program ℝ}

/-! ## Names of multipliers -/

theorem mem_named {e : List ℝ × ℝ} {k : Key} : (e, k) ∈ p.named ↔
    (∃ i : Nat, k = .dual "ub" i ∧ p.atMost.pairs[i]? = some e) ∨
      (∃ (j : Nat) (b : ℝ), k = .dual "upper" j ∧ p.upper[j]? = some (some b) ∧
        e = (Vec.unit p.n j, b)) ∨
      ∃ (j : Nat) (b : ℝ), k = .dual "lower" j ∧ p.lower[j]? = some (some b) ∧
        e = (Vec.neg (Vec.unit p.n j), -b) := by
  simp only [named, List.mem_append, List.mem_map, Prod.exists, Prod.mk.injEq,
    List.mem_zipIdx_iff_getElem?, mem_present, or_assoc]
  refine or_congr ?_ (or_congr ?_ ?_)
  · constructor
    · rintro ⟨a, b, i, he, rfl, rfl⟩
      exact ⟨i, rfl, he⟩
    · rintro ⟨i, rfl, he⟩
      exact ⟨e.1, e.2, i, he, rfl, rfl⟩
  all_goals
    constructor
    · rintro ⟨b, j, hb, rfl, rfl⟩
      exact ⟨j, b, rfl, hb, rfl⟩
    · rintro ⟨j, b, rfl, hb, rfl⟩
      exact ⟨b, j, hb, rfl, rfl⟩

theorem mem_named_ub {e : List ℝ × ℝ} {i : Nat} :
    (e, .dual "ub" i) ∈ p.named ↔ p.atMost.pairs[i]? = some e := by
  simp [mem_named]

theorem mem_named_upper {e : List ℝ × ℝ} {j : Nat} : (e, .dual "upper" j) ∈ p.named ↔
    ∃ b, p.upper[j]? = some (some b) ∧ e = (Vec.unit p.n j, b) := by
  simp [mem_named]

theorem mem_named_lower {e : List ℝ × ℝ} {j : Nat} : (e, .dual "lower" j) ∈ p.named ↔
    ∃ b, p.lower[j]? = some (some b) ∧ e = (Vec.neg (Vec.unit p.n j), -b) := by
  simp [mem_named]

theorem nodup_present (bounds : List (Option ℝ)) : ((present bounds).map (·.2)).Nodup := by
  have hnumbers : (bounds.zipIdx.map (·.2)).Nodup := by
    rw [List.zipIdx_map_snd]
    exact List.nodup_range'
  rw [List.Nodup, List.pairwise_map] at hnumbers ⊢
  refine List.Pairwise.filterMap _ (fun e f hne a ha b hb => ?_) hnumbers
  obtain ⟨_, _, rfl⟩ := Option.map_eq_some_iff.1 ha
  obtain ⟨_, _, rfl⟩ := Option.map_eq_some_iff.1 hb
  exact hne

theorem map_snd_named (p : Program ℝ) : p.named.map Prod.snd =
    (List.range p.atMost.pairs.length).map (fun i : Nat => .dual "ub" i) ++
      ((present p.upper).map (·.2)).map (fun j : Nat => .dual "upper" j) ++
      ((present p.lower).map (·.2)).map fun j : Nat => .dual "lower" j := by
  have hrows : p.atMost.pairs.zipIdx.map (fun e => Key.dual "ub" e.2) =
      (List.range p.atMost.pairs.length).map (fun i : Nat => .dual "ub" i) := by
    rw [List.range_eq_range', ← List.zipIdx_map_snd, List.map_map]
    rfl
  simp only [named, List.map_append, List.map_map, Function.comp_def, hrows]

/-- No two rows share the name of their multiplier, nor does any with the equations. -/
theorem nodup_named (p : Program ℝ) : (Key.dual "eq" 0 :: p.named.map Prod.snd).Nodup := by
  have hnames : ∀ (role : String) {l : List Nat}, l.Nodup →
      (l.map fun i : Nat => Key.dual role i).Nodup := fun role l hl =>
    hl.map fun i j hij => Int.ofNat_inj.1 (Key.dual.inj hij).2
  have hroles : ∀ {role role' : String} {l l' : List Nat}, role ≠ role' →
      ∀ a ∈ l.map (fun i : Nat => Key.dual role i), ∀ b ∈ l'.map (fun i : Nat => Key.dual role' i),
        a ≠ b := by
    simp only [List.forall_mem_map]
    exact fun hne _ _ _ _ h => hne (Key.dual.inj h).1
  rw [map_snd_named, List.nodup_cons, List.nodup_append, List.nodup_append]
  refine ⟨by simp, ⟨hnames _ List.nodup_range, hnames _ (nodup_present _), hroles (by decide)⟩,
    hnames _ (nodup_present _), fun a ha => ?_⟩
  rcases List.mem_append.1 ha with ha | ha
  · exact hroles (by decide) a ha
  · exact hroles (by decide) a ha

/-! ## Multipliers as vectors -/

@[simp] theorem length_equationMultipliers (size : Nat) (duals : Point ℝ) :
    (equationMultipliers size duals).length = size := by
  unfold equationMultipliers
  split
  · exact Vec.length_fit _ _
  · exact Vec.length_zeros _

@[simp] theorem length_scatter (role : String) (size : Nat) (duals : Point ℝ) :
    (scatter role size duals).length = size :=
  (List.length_map _).trans List.length_range

theorem scatter_eq (role : String) (size : Nat) (duals : Point ℝ) :
    scatter role size duals =
      (List.range size).map fun i : Nat => duals.multiplierAt (.dual role i) := by
  refine List.map_congr_left fun i _ => ?_
  rw [Point.multiplierAt, Point.part]
  cases duals.lookup (.dual role i) with
  | none => rfl
  | some v => cases v <;> rfl

theorem getD_scatter (role : String) (size : Nat) (duals : Point ℝ) (i : Nat) :
    (scatter role size duals).getD i 0 =
      if i < size then duals.multiplierAt (.dual role i) else 0 := by
  simp only [scatter_eq, List.getD_eq_getElem?_getD, List.getElem?_map]
  split_ifs with hi
  · simp [hi]
  · simp [hi]

/-- The multipliers of all rows of `A_ub` against one column. -/
theorem sum_rows (p : Program ℝ) (duals : Point ℝ) (j : Nat) :
    (p.atMost.pairs.zipIdx.map fun e =>
      e.1.1.getD j 0 * duals.multiplierAt (.dual "ub" e.2)).sum =
    Vec.dot (p.atMost.column j) (scatter "ub" p.atMost.pairs.length duals) := by
  have hcolumn : p.atMost.column j = p.atMost.pairs.zipIdx.map fun e => e.1.1.getD j 0 := by
    conv_lhs => rw [Rows.column, ← List.zipIdx_map_fst 0 p.atMost.pairs, List.map_map]
    rfl
  have hscatter : scatter "ub" p.atMost.pairs.length duals =
      p.atMost.pairs.zipIdx.map fun e => duals.multiplierAt (.dual "ub" e.2) := by
    rw [scatter_eq, List.range_eq_range', ← List.zipIdx_map_snd, List.map_map]
    rfl
  rw [hcolumn, hscatter, Vec.dot_map]

/-- Of all bounds only that of variable `j` counts in its column. -/
theorem sum_present (bounds : List (Option ℝ)) {n j : Nat} (hj : j < n) {μ : Nat → ℝ}
    (h : (∀ b, bounds[j]? ≠ some (some b)) → μ j = 0) :
    ((present bounds).map fun e => (Vec.unit n e.2).getD j 0 * μ e.2).sum = μ j := by
  have hunit : ∀ i : Nat, (Vec.unit n i : List ℝ).getD j 0 = if j = i then 1 else 0 := by
    intro i
    simp [Vec.unit, List.getD_eq_getElem?_getD, hj]
  have hsingle := List.sum_map_eq_nsmul_single (l := (present bounds).map (·.2)) j
    (fun i => (Vec.unit n i).getD j 0 * μ i) fun i hi _ => by rw [hunit, if_neg hi.symm, zero_mul]
  rw [List.map_map, hunit, if_pos rfl, one_mul] at hsingle
  refine hsingle.trans ?_
  by_cases hmem : j ∈ (present bounds).map (·.2)
  · rw [List.count_eq_one_of_mem (nodup_present bounds) hmem, one_nsmul]
  · rw [List.count_eq_zero_of_not_mem hmem, zero_nsmul, h]
    exact fun b hb => hmem (List.mem_map_of_mem (f := Prod.snd) (mem_present (e := (b, j)).2 hb))

/-! ## The gradient -/

section Solve

variable {kernels : Kernels ℝ} {settings : Settings ℝ} {q : Problem ℝ} {s : Solver ℝ}
  {w : WorkingSet ℝ} {x duals : Point ℝ} {v : List ℝ}

theorem nodup_duals (hp : ∀ A, p.equal.matrix = some A → ∃ m rest, A.shape = m :: p.n :: rest)
    {es : List (Equality ℝ)} {fs : List (Inequality ℝ)} (hes : p.equalities = .ok es)
    (hfs : p.inequalities = .ok fs) : (es.map (·.dual) ++ fs.map (·.dual)).Nodup := by
  have hnames : fs.map (·.dual) = p.named.map Prod.snd := by
    rw [← List.forall₂_eq_eq_eq, List.forall₂_map_left_iff, List.forall₂_map_right_iff]
    exact (named_of_inequalities hfs).imp fun _ _ h => h.dual_eq
  rw [hnames]
  rcases equalities_eq_ok hp hes with ⟨hnil, _⟩ | ⟨f, A, hf, hequates⟩
  · rw [hnil]
    exact (List.nodup_cons.1 (nodup_named p)).2
  · rw [hf, List.map_singleton, hequates.dual_eq]
    exact nodup_named p

theorem distinctDuals (hp : p.Shaped) (hq : p.problem kernels = .ok q) : q.DistinctDuals := by
  obtain ⟨_, hes, hfs⟩ := problem_eq_ok hq
  exact nodup_duals hp.equal hes hfs

/-! ## The conditions -/

/-- The equations against one column. -/
private theorem sum_equalities (hp : p.Shaped) (hq : p.problem kernels = .ok q) {j : Nat}
    (hj : j < p.n) {z : Point ℝ} (hz : z.part variableKey = Vec.unit p.n j) :
    (q.equalities.map fun c => Vec.dot (c.toFactor.values z) (duals.part c.dual)).sum =
      Vec.dot (p.equal.column j) (equationMultipliers (height p.equal) duals) := by
  obtain ⟨_, hes, _⟩ := problem_eq_ok hq
  rcases equalities_eq_ok hp.equal hes with ⟨hnil, hpairs⟩ | ⟨f, A, hf, hequates⟩
  · rw [hnil, Rows.column, hpairs]
    exact (Vec.dot_nil_left _).symm
  · have hvalues : f.toFactor.values z = p.equal.column j := by
      rw [Factor.values_of_singleton hequates.entries_eq, hz, Matrix.mulVec, hequates.rows_eq,
        List.map_map]
      exact List.map_congr_left fun e _ => (Vec.dot_comm _ _).trans (Vec.dot_unit hj _)
    have hlen : (p.equal.column j).length = height p.equal := by
      rw [Rows.column, List.length_map, height_of_equalities hes]
    rw [hf, List.map_singleton, List.sum_singleton, hvalues, hequates.dual_eq, equationMultipliers,
      Point.part]
    cases duals.lookup (.dual "eq" 0) with
    | none => rw [Option.getD_none, Vec.dot_nil_right, Vec.dot_zeros_right]
    | some y => rw [Option.getD_some, Vec.dot_fit_right hlen.le]

/-- The rows of the inequalities against one column, where only they have multipliers. -/
private theorem sum_named {μ : Key → ℝ} {j : Nat} (hj : j < p.n)
    (hμ : ∀ k, k ≠ .dual "eq" 0 → μ k ≠ 0 → ∃ e, (e, k) ∈ p.named) :
    (p.named.map fun e => e.1.1.getD j 0 * μ e.2).sum =
      (p.atMost.pairs.zipIdx.map fun e => e.1.1.getD j 0 * μ (.dual "ub" e.2)).sum +
        μ (.dual "upper" j) - μ (.dual "lower" j) := by
  have hupper := sum_present p.upper hj (μ := fun i : Nat => μ (.dual "upper" i))
    fun hnone => by
      by_contra hne
      obtain ⟨e, he⟩ := hμ _ (by simp) hne
      obtain ⟨b, hb, _⟩ := mem_named_upper.1 he
      exact hnone b hb
  have hlower := sum_present p.lower hj (μ := fun i : Nat => μ (.dual "lower" i))
    fun hnone => by
      by_contra hne
      obtain ⟨e, he⟩ := hμ _ (by simp) hne
      obtain ⟨b, hb, _⟩ := mem_named_lower.1 he
      exact hnone b hb
  have hneg : ((present p.lower).map fun e =>
      (Vec.neg (Vec.unit p.n e.2) : List ℝ).getD j 0 * μ (.dual "lower" e.2)).sum =
        -μ (.dual "lower" j) := by
    rw [← hlower, List.sum_neg, List.map_map]
    refine congrArg List.sum (List.map_congr_left fun e _ => ?_)
    rw [Vec.getD_neg, neg_mul]
    rfl
  rw [named, List.map_append, List.map_append, List.sum_append, List.sum_append, List.map_map,
    List.map_map, List.map_map, ← hupper, sub_eq_add_neg, ← hneg]
  rfl

variable {d : Point ℝ}

/-- A multiplier other than zero belongs to a row that is tight, and is not positive. -/
private theorem exists_row (hk : kernels.ExactLeastSquares) (hp : p.Shaped)
    (hq : p.problem kernels = .ok q) (hs : Solver.ofProblem settings q = .ok s)
    (hw : w.factors = s.inequalities) (hduals : s.multipliers kernels w x = .ok duals)
    (hstay : LeavingRule.largestMultiplier w duals = .ok none) (hdir : s.Directs w x d)
    (hzero : Point.norm d = 0) {k : Key} (hrole : k ≠ .dual "eq" 0)
    (hne : duals.multiplierAt k ≠ 0) : duals.multiplierAt k ≤ 0 ∧
      ∃ e, (e, k) ∈ p.named ∧ Vec.dot e.1 (coordinates x) = e.2 := by
  have hmade := Solver.madeFrom_ofProblem hs
  have hn := (distinctDuals hp hq).working hmade hw
  obtain ⟨_, hes, hfs⟩ := problem_eq_ok hq
  obtain ⟨c, hc, _, rfl⟩ := Solver.mem_working_of_multipliers hmade.wellFormed hw hn hduals
    (Point.mem_keys_of_multiplierAt hne)
  rcases Solver.mem_working.1 hc with hc' | ⟨f, hf, rfl⟩
  · rw [hmade.equalities_eq] at hc'
    rcases equalities_eq_ok hp.equal hes with ⟨hnil, _⟩ | ⟨g, A, hg, hequates⟩
    · rw [hnil] at hc'
      cases hc'
    · rw [hg] at hc'
      rw [List.mem_singleton.1 hc'] at hrole
      exact absurd hequates.dual_eq hrole
  · obtain ⟨a, ha, hle⟩ := LeavingRule.largestMultiplier_eq_none hstay hf
    refine ⟨(Point.multiplierAt_of_ok ha).trans_le hle, ?_⟩
    have hmem := WorkingSet.mem_factors_of_flagged hf
    rw [hw, hmade.inequalities_eq] at hmem
    obtain ⟨⟨e, k⟩, he, hread⟩ := exists_of_mem_left (named_of_inequalities hfs) hmem
    have hterms : f.1.toEquality.terms.entries ≠ [] := by
      simp [Inequality.toEquality, Keyed.map, hread.entries_eq]
    have hmult := Solver.multiplies_of_multipliers hk hmade.wellFormed hw hn hduals
    have htight := hdir.tight hzero hmult.independent hn hc hterms
    rw [Inequality.defect_toEquality, hread.value_eq, hread.bound_eq] at htight
    rw [Inequality.dual_toEquality, hread.dual_eq]
    exact ⟨e, he, sub_eq_zero.1 (List.cons.inj htight).1⟩

private theorem nonpos_of_mem_scatter {role : String} {size : Nat} (hrole : role ≠ "eq")
    (hrow : ∀ k, k ≠ .dual "eq" 0 → duals.multiplierAt k ≠ 0 → duals.multiplierAt k ≤ 0) {y : ℝ}
    (hy : y ∈ scatter role size duals) : y ≤ 0 := by
  rw [scatter_eq] at hy
  obtain ⟨i, _, rfl⟩ := List.mem_map.1 hy
  by_cases hne : duals.multiplierAt (.dual role i) = 0
  · exact hne.le
  · exact hrow _ (fun h => hrole (Key.dual.inj h).1) hne

private theorem multiplierAt_ne_of_scatter {role : String} {size i : Nat}
    (hne : (scatter role size duals).getD i 0 ≠ 0) : duals.multiplierAt (.dual role i) ≠ 0 := by
  rw [getD_scatter] at hne
  split at hne
  · exact hne
  · exact absurd rfl hne

private theorem stationary_of_rest (hk : kernels.ExactLeastSquares)
    (he : kernels.ExactEigenpairs) (hp : p.Shaped)
    (hexact : ∀ P, p.hessian = some P → CostFactor.Exact P.symmetrized p.c 1e-10)
    (hq : p.problem kernels = .ok q) (hs : Solver.ofProblem settings q = .ok s)
    (hw : w.factors = s.inequalities) (hduals : s.multipliers kernels w x = .ok duals)
    (hstay : LeavingRule.largestMultiplier w duals = .ok none) (hdir : s.Directs w x d)
    (hzero : Point.norm d = 0) {j : Nat} (hj : j < p.n) :
    (p.form.mulVec (coordinates x)).getD j 0 + p.c.getD j 0 =
      Vec.dot (p.equal.column j) (equationMultipliers (height p.equal) duals) +
        Vec.dot (p.atMost.column j) (scatter "ub" (height p.atMost) duals) +
        duals.multiplierAt (.dual "upper" j) - duals.multiplierAt (.dual "lower" j) := by
  have hmade := Solver.madeFrom_ofProblem hs
  have hd := distinctDuals hp hq
  obtain ⟨_, _, hfs⟩ := problem_eq_ok hq
  let z : Point ℝ := Keyed.ofList [(variableKey, Vec.unit p.n j)]
  have hz : z.part variableKey = Vec.unit p.n j := rfl
  have hgradient : s.slope x z = (p.form.mulVec (coordinates x)).getD j 0 + p.c.getD j 0 := by
    have hform : j < (p.form.mulVec (coordinates x)).length := by
      rwa [Matrix.length_mulVec, height_form hp]
    rw [slope_eq he hp hexact hq hs (by rw [hz, Vec.length_unit]), hz, Vec.dot_unit hj]
    exact Vec.getD_add hform (hp.length_c.symm ▸ hj)
  have hrows : q.inequalities.map (fun f => f.value z * duals.multiplierAt f.dual) =
      p.named.map fun e => e.1.1.getD j 0 * duals.multiplierAt e.2 := by
    rw [← List.forall₂_eq_eq_eq, List.forall₂_map_left_iff, List.forall₂_map_right_iff]
    refine (named_of_inequalities hfs).imp fun f e hread => ?_
    rw [hread.value_eq, hread.dual_eq, hz, Vec.dot_comm, Vec.dot_unit hj]
  have hmult := Solver.multiplies_of_multipliers hk hmade.wellFormed hw (hd.working hmade hw) hduals
  have hworking := Solver.sum_working hmade.wellFormed
    (by rw [hmade.equalities_eq, hmade.inequalities_eq]; exact hd) hw hduals z
  rw [← hmult.represents (fun y hy => hdir.slope_eq_zero hzero hy), hmade.equalities_eq,
    hmade.inequalities_eq, sum_equalities hp hq hj hz, hrows, sum_named hj fun k hrole hne =>
      (exists_row hk hp hq hs hw hduals hstay hdir hzero hrole hne).2.imp fun _ h => h.1,
    sum_rows, hgradient, ← height_of_inequalities hfs] at hworking
  linarith

/-- Where an iteration rests, its point and its multipliers satisfy the conditions. -/
theorem karushKuhnTucker_of_rest (hk : kernels.ExactLeastSquares) (he : kernels.ExactEigenpairs)
    (hp : p.Shaped)
    (hexact : ∀ P, p.hessian = some P → CostFactor.Exact P.symmetrized p.c 1e-10)
    (hq : p.problem kernels = .ok q) (hs : Solver.ofProblem settings q = .ok s)
    (hw : w.factors = s.inequalities) (hfills : Point.Fills s.dims x)
    (hduals : s.multipliers kernels w x = .ok duals)
    (hstay : LeavingRule.largestMultiplier w duals = .ok none)
    (hdir : s.Directs w x d) (hzero : Point.norm d = 0) (status : Status) (objective : Option ℝ)
    (iterations : Nat) :
    p.KarushKuhnTucker (p.result status objective x duals (some w) iterations) := by
  obtain ⟨_, hes, hfs⟩ := problem_eq_ok hq
  have hrow := fun k => exists_row hk hp hq hs hw hduals hstay hdir hzero (k := k)
  have hlen : (coordinates x).length = p.n := by
    obtain ⟨v, hv, hlen⟩ := hfills _ _ (lookup_dims hp hq hs)
    rw [coordinates, hv]
    exact hlen
  have htight : ∀ {role : String} {size i : Nat}, role ≠ "eq" →
      (scatter role size duals).getD i 0 ≠ 0 →
      ∃ e, (e, Key.dual role i) ∈ p.named ∧ Vec.dot e.1 (coordinates x) = e.2 :=
    fun hrole hne =>
      (hrow _ (fun h => hrole (Key.dual.inj h).1) (multiplierAt_ne_of_scatter hne)).2
  constructor
  case length_x => exact hlen
  case length_yEq => exact (length_equationMultipliers _ _).trans (height_of_equalities hes)
  case length_yUb => exact (length_scatter ..).trans (height_of_inequalities hfs)
  case length_yUpper | length_yLower => exact length_scatter ..
  case stationary =>
    intro j hj
    simp only [result, getD_scatter, if_pos hj]
    exact stationary_of_rest hk he hp hexact hq hs hw hduals hstay hdir hzero hj
  case nonpos =>
    intro y hy
    simp only [result, List.mem_append] at hy
    have hnonpos := fun k hrole hne => (hrow k hrole hne).1
    rcases hy with (hy | hy) | hy
    · exact nonpos_of_mem_scatter (by decide) hnonpos hy
    · exact nonpos_of_mem_scatter (by decide) hnonpos hy
    · exact nonpos_of_mem_scatter (by decide) hnonpos hy
  case atMost_tight =>
    intro i hne
    obtain ⟨e, he, htight⟩ := htight (by decide) hne
    exact ⟨e, mem_named_ub.1 he, htight⟩
  case upper_tight =>
    intro j hne
    obtain ⟨e, he, htight⟩ := htight (by decide) hne
    obtain ⟨b, hb, rfl⟩ := mem_named_upper.1 he
    rw [Vec.dot_unit_of_length hlen] at htight
    exact htight ▸ hb
  case lower_tight =>
    intro j hne
    obtain ⟨e, he, htight⟩ := htight (by decide) hne
    obtain ⟨b, hb, rfl⟩ := mem_named_lower.1 he
    rw [Vec.dot_neg_left, Vec.dot_unit_of_length hlen, neg_inj] at htight
    exact htight ▸ hb

end Solve

/--
A solve that ends as optimal has found its last direction at the point and the working set that it
returns. Where that direction is zero, the result satisfies the conditions. Programs that were read
have the shape, and a bound that is absent stands for one that was not finite.
-/
theorem solve_karushKuhnTucker {kernels : Kernels ℝ} (hk : kernels.ExactLeastSquares)
    (he : kernels.ExactEigenpairs) {settings : Settings ℝ} {p : Program ℝ} (hp : p.Shaped)
    (hexact : ∀ P, p.hessian = some P → CostFactor.Exact P.symmetrized p.c 1e-10)
    {x0 : Option (Tensor ℝ)} {r : Result ℝ} (h : p.solve kernels settings x0 = .ok r)
    (hstatus : r.status = .optimal) :
    ∃ q s w d, p.problem kernels = .ok q ∧ Solver.ofProblem settings q = .ok s ∧
      r.workingSet = some w ∧ s.direction kernels w r.x = .ok d ∧
      (Point.norm d = 0 → p.KarushKuhnTucker r) := by
  obtain ⟨q, s, hq, hs, h⟩ := exists_of_solve h
  obtain ⟨solution, hsolution, rfl⟩ := conclude_eq_optimal h hstatus
  obtain ⟨u, v, hu, hv, hiterate, hconv, _⟩ := Solver.exists_of_optimize hsolution
  have hmade := Solver.madeFrom_ofProblem hs
  obtain ⟨duals, hduals, hstay, hlast⟩ := Method.exists_of_converged hiterate hconv
  obtain ⟨d, hd, _⟩ := Method.step_of_iterate hiterate
  have hfills := Method.fills_runFrom (Solver.fills_initialState hmade.wellFormed hu) v hv
  have hgiven : ∀ w, (startAt x0).workingSet = some w → w.factors = s.inequalities := by
    intro w hw
    cases hw
  have hw : v.workingSet.factors = s.inequalities := by
    obtain ⟨_, w, _, hset, rfl⟩ := Solver.exists_of_initialState hu
    exact (Method.factors_runFrom v hv).trans (Solver.factors_startingSet hgiven hset)
  rw [hlast]
  refine ⟨q, s, v.workingSet, d, hq, hs, rfl, hd, fun hzero => ?_⟩
  exact karushKuhnTucker_of_rest hk he hp hexact hq hs hw hfills hduals hstay
    (Solver.directs_of_direction hk hmade.wellFormed hw hd) hzero _ _ _

/-- The solve of a parabola goes from zero up to the bound three, where the conditions hold. -/
theorem solve_karushKuhnTucker_parabola : ∃ r,
    (Parabola.program 5 3).solve .spectral OneVariable.settings (some ⟨[1], [0]⟩) = .ok r ∧
      r.status = .optimal ∧ r.iterations = 2 ∧ r.x = Parabola.point 3 ∧
      (Parabola.program 5 3).KarushKuhnTucker r := by
  obtain ⟨r, hr, hstatus, hx, hset, hcount⟩ := Parabola.solve_below OneVariable.settings 3
    OneVariable.tolerance_pos.le OneVariable.feasibilityTolerance_pos
    (by norm_num [OneVariable.settings]) (t := 5) (x := 0) (by norm_num) (by norm_num)
    (OneVariable.tolerance_lt_one.trans (by norm_num))
    (OneVariable.activeTolerance_lt_one.trans (by norm_num))
  obtain ⟨q, s, w, d, hq, hs, hw, hd, hkkt⟩ := solve_karushKuhnTucker Kernels.spectral_leastSquares
    Kernels.spectral_eigenpairs (Parabola.shaped_program 5 3) Parabola.exact_program hr hstatus
  refine ⟨r, hr, hstatus, hcount, hx, hkkt ?_⟩
  obtain ⟨c, hproblem⟩ := Parabola.exists_problem 5 3
  obtain rfl := Except.ok.inj (hproblem.symm.trans hq)
  obtain rfl := Except.ok.inj ((Parabola.ofProblem_problem OneVariable.settings c 3).symm.trans hs)
  obtain rfl := Option.some.inj (hset.symm.trans hw)
  rw [hx, Parabola.direction_enforced] at hd
  rw [← Except.ok.inj hd, Parabola.norm_point, abs_zero]

end Program

end Dense

end ActiveSet
