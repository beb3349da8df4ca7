import ActiveSet.Proofs.OneVariable

/-!
# Feasibility along a run

From a feasible point with tight active inequalities the direction stays on their face, and the ratio
test keeps the inactive ones satisfied. So every state of a run is of this kind if the first one is.
-/

namespace ActiveSet

namespace Problem

/-- A point violates no equality and no inequality by more than `tol`. -/
structure FeasibleWithin (p : Problem ℝ) (tol : ℝ) (x : Point ℝ) : Prop where
  equalities : ∀ f ∈ p.equalities, ∃ r, f.toFactor.residual x = .ok r ∧ ∀ a ∈ r, |a| ≤ tol
  inequalities : ∀ f ∈ p.inequalities, ∃ a, f.excess x = .ok a ∧ a ≤ tol

/-- A state over the inequalities of the program that is feasible and tight where it is active. -/
structure OnFace (p : Problem ℝ) (u : State ℝ) : Prop where
  factors_eq : u.workingSet.factors = p.inequalities
  feasible : p.FeasibleWithin 0 u.values
  tight : ∀ e ∈ u.workingSet.flagged true, e.1.excess u.values = .ok 0

end Problem

/-! ## Feasibility of a point -/

theorem Equality.holds_within_iff {f : Equality ℝ} {x : Point ℝ} {tol : ℝ} :
    (∃ r, f.toFactor.residual x = .ok r ∧ ∀ a ∈ r, |a| ≤ tol) ↔
      f.toFactor.Fits x ∧ ∀ a ∈ f.toFactor.defect x, |a| ≤ tol := by
  simp only [Factor.residual_eq_ok]
  constructor
  · rintro ⟨_, ⟨hfits, rfl⟩, hle⟩
    exact ⟨hfits, hle⟩
  · rintro ⟨hfits, hle⟩
    exact ⟨_, ⟨hfits, rfl⟩, hle⟩

theorem Equality.holds_iff {f : Equality ℝ} {x : Point ℝ} :
    (∃ r, f.toFactor.residual x = .ok r ∧ ∀ a ∈ r, |a| ≤ 0) ↔
      f.toFactor.Fits x ∧ f.toFactor.defect x = Vec.zeros f.toFactor.rows := by
  rw [holds_within_iff]
  refine and_congr_right fun _ => ?_
  constructor
  · intro hzero
    refine List.eq_replicate_iff.2 ⟨f.toFactor.length_defect x, fun a ha => ?_⟩
    simpa using hzero a ha
  · intro hzero a ha
    rw [hzero] at ha
    simp [List.eq_of_mem_replicate ha]

theorem Inequality.holds_iff {f : Inequality ℝ} {x : Point ℝ} {tol : ℝ} :
    (∃ a, f.excess x = .ok a ∧ a ≤ tol) ↔ f.Fits x ∧ f.value x - f.bound ≤ tol := by
  simp only [Inequality.excess_eq_ok]
  constructor
  · rintro ⟨_, ⟨hfits, rfl⟩, hle⟩
    exact ⟨hfits, hle⟩
  · rintro ⟨hfits, hle⟩
    exact ⟨_, ⟨hfits, rfl⟩, hle⟩

/-! ## The check of feasibility -/

theorem Equality.largestResidual_eq_ok {f : Equality ℝ} {x : Point ℝ} {r : ℝ}
    (h : f.largestResidual x = .ok r) : f.toFactor.Fits x ∧
      ∀ tol, r ≤ tol ↔ ∀ a ∈ f.toFactor.defect x, |a| ≤ tol := by
  simp only [largestResidual, bind_eq_ok, Factor.residual_eq_ok] at h
  obtain ⟨_, ⟨hfits, rfl⟩, h⟩ := h
  refine ⟨hfits, fun tol => ?_⟩
  split at h
  · cases h
  · rename_i hcons
    rw [← pure_eq_ok.1 h, Scalar.greatestFrom_le_iff, ← hcons, List.forall_mem_map]
    simp only [Scalar.abs_eq_abs]

theorem Equality.violation_eq_ok {es : List (Equality ℝ)} {x : Point ℝ} {r tol : ℝ}
    (htol : 0 ≤ tol) (h : violation es x = .ok r) :
    r ≤ tol ↔ ∀ f ∈ es, f.toFactor.Fits x ∧ ∀ a ∈ f.toFactor.defect x, |a| ≤ tol := by
  simp only [violation, bind_eq_ok, mapM_eq_ok] at h
  obtain ⟨l, hl, h⟩ := h
  rw [forall_mem_iff_of_forall₂ hl (ψ := (· ≤ tol)) fun f a ha => by
    rw [(largestResidual_eq_ok ha).2, and_iff_right (largestResidual_eq_ok ha).1]]
  split at h
  · simpa [← pure_eq_ok.1 h] using htol
  · rw [← pure_eq_ok.1 h, ← Scalar.greatestFrom_eq_foldl, Scalar.greatestFrom_le_iff]

theorem Inequality.allSatisfied_ok {fs : List (Inequality ℝ)} {x : Point ℝ}
    (h : ∀ f ∈ fs, f.Fits x) (tol : ℝ) : ∃ b, allSatisfied fs x tol = .ok b ∧
      (b = true ↔ ∀ f ∈ fs, f.Fits x ∧ f.value x - f.bound ≤ tol) := by
  induction fs with
  | nil => exact ⟨true, rfl, by simp⟩
  | cons f fs ih =>
      obtain ⟨hf, hfs⟩ := List.forall_mem_cons.1 h
      obtain ⟨b, hb, hiff⟩ := ih hfs
      have hholds : f.isSatisfied x tol = .ok (decide (f.value x - f.bound ≤ tol)) := by
        rw [isSatisfied, f.excess_eq_ok.2 ⟨hf, rfl⟩]
        rfl
      rw [allSatisfied, List.allM, hholds, ok_bind, List.forall_mem_cons, and_iff_right hf]
      by_cases hle : f.value x - f.bound ≤ tol
      · rw [decide_eq_true hle]
        exact ⟨b, hb, by rw [hiff, and_iff_right hle]⟩
      · rw [decide_eq_false hle]
        exact ⟨false, rfl, by simp only [hle, false_and, Bool.false_eq_true]⟩

/-- An inequality is tight exactly if the equality that enforces it has no defect. -/
theorem Inequality.tight_iff {f : Inequality ℝ} {x : Point ℝ} : f.excess x = .ok 0 ↔
    f.toEquality.toFactor.Fits x ∧
      f.toEquality.toFactor.defect x = Vec.zeros f.toEquality.toFactor.rows := by
  rw [Inequality.excess_eq_ok, Inequality.fits_toEquality, Inequality.defect_toEquality]
  simp [eq_comm]

/-- A step keeps the dimensions that the constraints of the program ask for. -/
theorem Solver.MadeFrom.fits_of_step {s : Solver ℝ} {settings : Settings ℝ} {p : Problem ℝ}
    (hs : s.MadeFrom settings p) {m : Method ℝ} {u v : State ℝ} {d : Point ℝ}
    (hd : Graph.Spans d s.dims.entries) (h : Method.Step m u d v) :
    (∀ f ∈ p.equalities, f.toFactor.Fits u.values → f.toFactor.Fits v.values) ∧
      ∀ f ∈ p.inequalities, f.Fits u.values → f.Fits v.values := by
  refine ⟨fun f hf hfits => h.fits hd (hs.over_equality hf) hfits, fun f hf hfits => ?_⟩
  apply Inequality.fits_toEquality.1
  exact h.fits hd (hs.over_inequality hf) (Inequality.fits_toEquality.2 hfits)

namespace Problem.OnFace

variable {p : Problem ℝ} {s : Solver ℝ} {settings : Settings ℝ} {u v : State ℝ}

theorem holds (hu : p.OnFace u) (hs : s.MadeFrom settings p) {c : Equality ℝ}
    (hc : c ∈ s.working u.workingSet) : c.toFactor.Fits u.values ∧
      c.toFactor.defect u.values = Vec.zeros c.toFactor.rows := by
  rcases Solver.mem_working.1 hc with hc | ⟨e, he, rfl⟩
  · rw [hs.equalities_eq] at hc
    exact Equality.holds_iff.1 (hu.feasible.equalities c hc)
  · exact Inequality.tight_iff.1 (hu.tight e he)

theorem free (hu : p.OnFace u) (hs : s.MadeFrom settings p) {d : Point ℝ}
    (hd : s.Directs u.workingSet u.values d) : s.Free u.workingSet d :=
  hd.free fun _ hc => (hu.holds hs hc).2

theorem step (hu : p.OnFace u) (hs : s.MadeFrom settings p) {m : Method ℝ} {d : Point ℝ}
    (hd : s.Directs u.workingSet u.values d) (h : Method.Step m u d v) : p.OnFace v := by
  have hfree := hu.free hs hd
  have hover := hs.wellFormed.over_working (hu.factors_eq.trans hs.inequalities_eq.symm)
  have hkeep : ∀ c ∈ s.working u.workingSet, c.toFactor.Fits v.values ∧
      c.toFactor.defect v.values = Vec.zeros c.toFactor.rows := by
    intro c hc
    obtain ⟨hfits, hzero⟩ := hu.holds hs hc
    exact ⟨h.fits hd.spans (hover c.toFactor (List.mem_map_of_mem hc)) hfits,
      (h.defect_eq (hfree c hc)).trans hzero⟩
  have hinactive : ∀ e ∈ u.workingSet.flagged false, e.1.Fits v.values ∧
      e.1.value v.values - e.1.bound ≤ 0 := by
    intro e he
    have hmem := WorkingSet.mem_factors_of_flagged he
    rw [hu.factors_eq] at hmem
    obtain ⟨hfits, hle⟩ := Inequality.holds_iff.1 (hu.feasible.inequalities e.1 hmem)
    exact ⟨(hs.fits_of_step hd.spans h).2 e.1 hmem hfits, (h.excess_le he).trans (max_le hle le_rfl)⟩
  have hactive : ∀ e ∈ u.workingSet.flagged true, e.1.excess v.values = .ok 0 := fun e he =>
    Inequality.tight_iff.2 (hkeep _ (Solver.mem_working.2 (.inr ⟨e, he, rfl⟩)))
  refine ⟨h.factors_eq.trans hu.factors_eq, ⟨fun f hf => ?_, fun f hf => ?_⟩, fun e he => ?_⟩
  · exact Equality.holds_iff.2 (hkeep f (Solver.mem_working.2 (.inl (hs.equalities_eq ▸ hf))))
  · obtain ⟨i, b, hi⟩ := WorkingSet.flagged_of_mem (hu.factors_eq.symm ▸ hf)
    cases b with
    | false => exact Inequality.holds_iff.2 (hinactive _ hi)
    | true => exact ⟨0, hactive _ hi, le_rfl⟩
  · rcases h.flagged_true he with he | ⟨he, htight⟩
    · exact hactive e he
    · have hmem := WorkingSet.mem_factors_of_flagged he
      rw [hu.factors_eq] at hmem
      obtain ⟨_, hle⟩ := Inequality.holds_iff.1 (hu.feasible.inequalities e.1 hmem)
      rw [Inequality.excess_eq_ok]
      exact ⟨(hinactive e he).1, (sub_eq_zero.2 (htight (by linarith))).symm⟩

theorem of_iterate (hu : p.OnFace u) {kernels : Kernels ℝ} (hk : kernels.ExactLeastSquares)
    (hs : s.MadeFrom settings p) {leaving : LeavingRule ℝ}
    (h : (s.method kernels leaving).iterate u = .ok v) : p.OnFace v := by
  obtain ⟨d, hd, hstep⟩ := Method.step_of_iterate h
  refine hu.step hs (Solver.directs_of_direction hk hs.wellFormed ?_ hd) hstep
  exact hu.factors_eq.trans hs.inequalities_eq.symm

theorem of_runFrom (hu : p.OnFace u) {kernels : Kernels ℝ} (hk : kernels.ExactLeastSquares)
    (hs : s.MadeFrom settings p) {leaving : LeavingRule ℝ} {budget : Nat} {seen : List (List Nat)} :
    ∀ v ∈ u :: ((s.method kernels leaving).runFrom budget seen u).states, p.OnFace v :=
  Method.runFrom_invariant budget seen hu fun _ _ _ hv h => hv.of_iterate hk hs h

end Problem.OnFace

/--
Feasibility with tight active inequalities is kept by every iteration, with any rule for leaving, and
so holds in all states of a run.
-/
theorem Solver.onFace_run {kernels : Kernels ℝ} (hk : kernels.ExactLeastSquares)
    {settings : Settings ℝ} {p : Problem ℝ} {s : Solver ℝ}
    (hs : Solver.ofProblem settings p = .ok s) (leaving : LeavingRule ℝ) :
    (∀ u v, p.OnFace u → (s.method kernels leaving).iterate u = .ok v → p.OnFace v) ∧
      ∀ u budget seen, p.OnFace u →
        ∀ v ∈ ((s.method kernels leaving).runFrom budget seen u).states, p.OnFace v := by
  have hmade := Solver.madeFrom_ofProblem hs
  refine ⟨fun u v hu h => hu.of_iterate hk hmade h, fun u budget seen hu v hv => ?_⟩
  exact hu.of_runFrom hk hmade v (.tail _ hv)

namespace OneVariable

theorem onFace_atBound (target bound : ℝ) :
    (nearest target bound).OnFace (atBound bound) := by
  have htight : (atMost 1 bound 0).excess (point bound) = .ok 0 := by
    rw [excess_atMost, one_mul, sub_self]
  refine ⟨rfl, ⟨List.forall_mem_nil _, ?_⟩, List.forall_mem_singleton.2 htight⟩
  exact List.forall_mem_singleton.2 ⟨0, htight, le_rfl⟩

theorem onFace_below (target : ℝ) {bound x : ℝ} (hx : x ≤ bound) :
    (nearest target bound).OnFace (below bound x) := by
  refine ⟨rfl, ⟨List.forall_mem_nil _, ?_⟩, List.forall_mem_nil _⟩
  exact List.forall_mem_singleton.2 ⟨_, excess_atMost .., by linarith⟩

/-- The run goes up to the bound, where the inequality becomes active, and stays there. -/
theorem onFace_run_nearest : (nearest 5 3).OnFace (below 3 0) ∧ ∃ v w,
    (((nearestSolver settings 5 3).method .exact .largestMultiplier).runFrom 1000 []
      (below 3 0)).states = [v, w] ∧ v.hasMoved = true ∧ v.workingSet.activeIndices = [0] ∧
      (nearest 5 3).OnFace v ∧ (nearest 5 3).OnFace w := by
  have hface := onFace_below 5 (show (0 : ℝ) ≤ 3 by norm_num)
  obtain ⟨v, w, _, hrun, hmoved, hv, _, _⟩ := optimize_below_zero
  have hstates : (((nearestSolver settings 5 3).method .exact .largestMultiplier).runFrom 1000 []
      (below 3 0)).states = [v, w] := congrArg Run.states hrun
  have hkept := (Solver.onFace_run Kernels.exact_leastSquares (ofProblem_nearest settings 5 3)
    .largestMultiplier).2 (below 3 0) 1000 [] hface
  rw [hstates] at hkept
  refine ⟨hface, v, w, hstates, hmoved, ?_, hkept v (.head _), hkept w (.tail _ (.head _))⟩
  rw [hv.workingSet_eq]
  rfl

end OneVariable

end ActiveSet
