import Mathlib.Analysis.InnerProductSpace.PiL2
import ActiveSet.Proofs.LeastSquares

/-!
# Exact kernels

What an exact linear-programming kernel answers, and that exact kernels exist: every system has a
shortest vector of least misfit, and every linear program an answer.
-/

namespace ActiveSet

/-! ## Exact linear programming -/

def Range.Contains (r : Range ℝ) (a : ℝ) : Prop :=
  (∀ l, r.lower = some l → l ≤ a) ∧ ∀ u, r.upper = some u → a ≤ u

namespace LinearProgram

/-- The vector satisfies all constraints of the program. -/
structure Feasible (lp : LinearProgram ℝ) (v : List ℝ) : Prop where
  length_eq : v.length = lp.cost.length
  atMost : List.Forall₂ (· ≤ ·) (lp.atMost.matrix.mulVec v) lp.atMost.rhs
  equal : lp.equal.matrix.mulVec v = lp.equal.rhs
  ranges : List.Forall₂ Range.Contains lp.ranges v

def Optimal (lp : LinearProgram ℝ) (v : List ℝ) : Prop :=
  lp.Feasible v ∧ ∀ u, lp.Feasible u → Vec.dot lp.cost v ≤ Vec.dot lp.cost u

/-- What an outcome says about the program, if it is exact. -/
def Answers (lp : LinearProgram ℝ) : Outcome ℝ → Prop
  | .optimal v => lp.Optimal v
  | .infeasible => ∀ v, ¬lp.Feasible v
  | .failed => (∃ v, lp.Feasible v) ∧ ∀ v, ¬lp.Optimal v

theorem exists_answers (lp : LinearProgram ℝ) : ∃ outcome, lp.Answers outcome := by
  by_cases hoptimal : ∃ v, lp.Optimal v
  · obtain ⟨v, hv⟩ := hoptimal
    exact ⟨.optimal v, hv⟩
  · by_cases hfeasible : ∃ v, lp.Feasible v
    · exact ⟨.failed, hfeasible, not_exists.1 hoptimal⟩
    · exact ⟨.infeasible, not_exists.1 hfeasible⟩

end LinearProgram

/-- The kernel for linear programs is exact. -/
def Kernels.ExactLinearProgram (kernels : Kernels ℝ) : Prop :=
  ∀ lp : LinearProgram ℝ, lp.Answers (kernels.linearProgram lp)

/-! ## Shortest vectors of least misfit -/

namespace Vec

noncomputable def toEuclidean (n : Nat) (v : List ℝ) : EuclideanSpace ℝ (Fin n) :=
  WithLp.toLp 2 fun i => v.getD i 0

theorem norm_toEuclidean {n : Nat} {v : List ℝ} (hv : v.length = n) :
    ‖toEuclidean n v‖ * ‖toEuclidean n v‖ = dot v v := by
  rw [← sq, EuclideanSpace.real_norm_sq_eq, dot_eq_sum hv.le,
    ← Fin.sum_univ_eq_sum_range (fun i => v.getD i 0 * v.getD i 0)]
  exact Finset.sum_congr rfl fun i _ => sq _

theorem toEuclidean_sub {n : Nat} {u v : List ℝ} (hu : u.length = n) (hv : v.length = n) :
    toEuclidean n (sub u v) = toEuclidean n u - toEuclidean n v := by
  ext i
  exact getD_sub (hu.symm ▸ i.isLt) (hv.symm ▸ i.isLt)

theorem exists_toEuclidean {n : Nat} (x : EuclideanSpace ℝ (Fin n)) :
    ∃ v : List ℝ, v.length = n ∧ toEuclidean n v = x := by
  refine ⟨List.ofFn fun i => x i, List.length_ofFn, ?_⟩
  ext i
  simp [toEuclidean, List.getD_eq_getElem?_getD]

end Vec

namespace LinearSystem

noncomputable def toLinearMap (A : Matrix ℝ) :
    EuclideanSpace ℝ (Fin A.cols) →ₗ[ℝ] EuclideanSpace ℝ (Fin A.height) :=
  Fintype.linearCombination ℝ (fun j : Fin A.cols => Vec.toEuclidean A.height (A.column j)) ∘ₗ
    (WithLp.linearEquiv 2 ℝ (Fin A.cols → ℝ)).toLinearMap

theorem toLinearMap_toEuclidean {A : Matrix ℝ} {v : List ℝ} (hv : v.length = A.cols) :
    toLinearMap A (Vec.toEuclidean A.cols v) = Vec.toEuclidean A.height (A.mulVec v) := by
  ext i
  simp only [toLinearMap, Vec.toEuclidean, LinearMap.comp_apply, LinearEquiv.coe_coe,
    WithLp.linearEquiv_apply, Fintype.linearCombination_apply, WithLp.ofLp_sum, Finset.sum_apply]
  rw [← A.sum_columns hv]
  rfl

theorem misfit_eq_dist {s : LinearSystem ℝ} (hs : s.rhs.length = s.matrix.height) {v : List ℝ}
    (hv : v.length = s.matrix.cols) : s.misfit v =
      dist (toLinearMap s.matrix (Vec.toEuclidean s.matrix.cols v))
        (Vec.toEuclidean s.matrix.height s.rhs) *
      dist (toLinearMap s.matrix (Vec.toEuclidean s.matrix.cols v))
        (Vec.toEuclidean s.matrix.height s.rhs) := by
  rw [misfit, dist_eq_norm, toLinearMap_toEuclidean hv,
    ← Vec.toEuclidean_sub (Matrix.length_mulVec ..) hs, Vec.norm_toEuclidean (by simp [hs])]

/-- Every system has a shortest vector of least misfit. -/
theorem exists_solves {s : LinearSystem ℝ} (hs : s.rhs.length = s.matrix.height) :
    ∃ a, s.Solves a := by
  let T := toLinearMap s.matrix
  let b := Vec.toEuclidean s.matrix.height s.rhs
  -- The right-hand side has a nearest point in the range, and that has a shortest preimage.
  have hrange := (LinearMap.range T).closed_of_finiteDimensional
  obtain ⟨_, ⟨x₀, rfl⟩, hnear⟩ := hrange.exists_infDist_eq_dist ⟨0, Submodule.zero_mem _⟩ b
  have hleast : ∀ x, dist (T x₀) b ≤ dist (T x) b := by
    intro x
    rw [dist_comm, ← hnear, dist_comm (T x)]
    exact Metric.infDist_le_dist_of_mem (LinearMap.mem_range_self T x)
  have hclosed : IsClosed (Set.preimage T (Metric.closedBall b (dist (T x₀) b))) :=
    Metric.isClosed_closedBall.preimage T.continuous_of_finiteDimensional
  obtain ⟨x, hx, hshort⟩ := hclosed.exists_infDist_eq_dist
    ⟨x₀, Metric.mem_closedBall.2 le_rfl⟩ 0
  obtain ⟨v, hv, rfl⟩ := Vec.exists_toEuclidean x
  refine ⟨⟨v, s.matrix.rank⟩, hv, fun u hu => ?_, fun u hu hmisfit => ?_, rfl⟩
  · rw [misfit_eq_dist hs hv, misfit_eq_dist hs hu]
    exact mul_self_le_mul_self dist_nonneg (le_trans hx (hleast _))
  · have hmem : Vec.toEuclidean s.matrix.cols u ∈
        Set.preimage T (Metric.closedBall b (dist (T x₀) b)) := by
      rw [misfit_eq_dist hs hv, misfit_eq_dist hs hu,
        mul_self_inj_of_nonneg dist_nonneg dist_nonneg] at hmisfit
      exact hmisfit.trans_le hx
    have hle := Metric.infDist_le_dist_of_mem (x := 0) hmem
    rw [hshort, dist_zero_left, dist_zero_left] at hle
    rw [← Vec.norm_toEuclidean hv, ← Vec.norm_toEuclidean hu]
    exact mul_self_le_mul_self (norm_nonneg _) hle

end LinearSystem

/-! ## Kernels -/

/-- Kernels with exact answers to systems and to linear programs, and without eigenvectors. -/
noncomputable def Kernels.exact : Kernels ℝ where
  leastSquares s :=
    if hs : s.rhs.length = s.matrix.height then (LinearSystem.exists_solves hs).choose else ⟨[], 0⟩
  linearProgram lp := lp.exists_answers.choose
  eigenpairs _ := []

theorem Kernels.exact_leastSquares : Kernels.exact.ExactLeastSquares := by
  intro s hs
  rw [Kernels.exact]
  dsimp only
  rw [dif_pos hs]
  exact (LinearSystem.exists_solves hs).choose_spec

theorem Kernels.exact_linearProgram : Kernels.exact.ExactLinearProgram := fun lp =>
  lp.exists_answers.choose_spec

end ActiveSet
