import Mathlib.LinearAlgebra.Dimension.OrzechProperty
import Mathlib.LinearAlgebra.LinearIndependent.Lemmas
import ActiveSet.Graph.Minimize
import ActiveSet.Proofs.Vectors

/-!
# Exact least squares

What an exact least-squares kernel answers, and what follows for the two systems that are solved: the
normal equations, and for the saddle system the stationarity of its first part under the constraints.
The conditions are weak ones, against all vectors, so that no multipliers have to be named.
-/

namespace ActiveSet

/-! ## Rank and independence -/

namespace Matrix

/-- The dimension of the space that the columns span. -/
noncomputable def rank (A : Matrix ℝ) : Nat :=
  Set.finrank ℝ (Set.range fun (j : Fin A.cols) (i : Nat) => (A.column j).getD i 0)

/-- The rows are linearly independent, each read as the function of its entries. -/
def RowsIndependent (A : Matrix ℝ) : Prop :=
  LinearIndependent ℝ fun (i : Fin A.height) (j : Nat) => (A.rows.getD i []).getD j 0

theorem rank_le_cols (A : Matrix ℝ) : A.rank ≤ A.cols := by
  simpa [rank] using finrank_range_le_card (R := ℝ)
    (fun (j : Fin A.cols) (i : Nat) => (A.column j).getD i 0)

private theorem getD_ofFn {n : Nat} (g : Fin n → ℝ) (i : Fin n) : (List.ofFn g).getD i 0 = g i := by
  simp [List.getD_eq_getElem?_getD]

theorem sum_columns {A : Matrix ℝ} {v : List ℝ} (hv : v.length = A.cols) (i : Nat) :
    ∑ j : Fin A.cols, v.getD j 0 * (A.column j).getD i 0 = (A.mulVec v).getD i 0 := by
  rw [getD_mulVec, Vec.dot_comm, Vec.dot_eq_sum hv.le,
    ← Fin.sum_univ_eq_sum_range (fun j => v.getD j 0 * (A.rows.getD i []).getD j 0)]
  exact Finset.sum_congr rfl fun j _ => by rw [getD_column]

/-- A matrix has full column rank exactly if it maps no vector but zero to zero. -/
theorem rank_eq_cols_iff (A : Matrix ℝ) : A.rank = A.cols ↔
    ∀ v : List ℝ, v.length = A.cols → A.mulVec v = Vec.zeros A.height → v = Vec.zeros A.cols := by
  have hli : A.rank = A.cols ↔ LinearIndependent ℝ
      fun (j : Fin A.cols) (i : Nat) => (A.column j).getD i 0 := by
    rw [linearIndependent_iff_card_eq_finrank_span, Fintype.card_fin, eq_comm, rank]
  rw [hli, Fintype.linearIndependent_iff]
  constructor
  · intro h v hv hAv
    refine Vec.ext_getD (by simpa using hv) fun j hj => ?_
    rw [Vec.getD_zeros]
    refine h (fun j => v.getD j 0) ?_ ⟨j, hv ▸ hj⟩
    funext i
    simp only [Finset.sum_apply, Pi.smul_apply, smul_eq_mul, sum_columns hv, hAv, Vec.getD_zeros,
      Pi.zero_apply]
  · intro h g hg j
    have hv : (List.ofFn g).length = A.cols := List.length_ofFn
    have hAv : A.mulVec (List.ofFn g) = Vec.zeros A.height := by
      refine Vec.ext_getD (by simp) fun i _ => ?_
      have hi := congrFun hg i
      simp only [Finset.sum_apply, Pi.smul_apply, smul_eq_mul, Pi.zero_apply] at hi
      rw [← sum_columns hv, Vec.getD_zeros]
      simpa only [getD_ofFn] using hi
    rw [← getD_ofFn g j, h _ hv hAv, Vec.getD_zeros]

theorem rowsIndependent_iff_rank (A : Matrix ℝ) :
    A.RowsIndependent ↔ A.transpose.rank = A.transpose.cols := by
  have hfun : (fun (i : Fin A.transpose.cols) (j : Nat) => (A.transpose.column i).getD j 0) =
      fun (i : Fin A.height) (j : Nat) => (A.rows.getD i []).getD j 0 := by
    funext i j
    rw [getD_column]
    by_cases hj : j < A.cols
    · have hrow : A.transpose.rows.getD j [] = A.column j := by
        simp [transpose, columns, List.getD_eq_getElem?_getD, hj]
      rw [hrow, getD_column]
    · have hrow := (A.length_row i).trans (not_lt.1 hj)
      simp only [List.getD_eq_getElem?_getD] at hrow ⊢
      rw [List.getElem?_eq_none hrow]
      simp [transpose, columns, hj]
  rw [RowsIndependent, linearIndependent_iff_card_eq_finrank_span, Fintype.card_fin, eq_comm, rank,
    hfun]
  rfl

/-- Rows are independent exactly if no vector but zero is orthogonal to all products. -/
theorem rowsIndependent_iff (A : Matrix ℝ) : A.RowsIndependent ↔
    ∀ u : List ℝ, u.length = A.height →
      (∀ v : List ℝ, v.length = A.cols → Vec.dot u (A.mulVec v) = 0) → u = Vec.zeros A.height := by
  rw [rowsIndependent_iff_rank, rank_eq_cols_iff, cols_transpose, height_transpose]
  refine forall₂_congr fun u hu => imp_congr_left ⟨fun h v _ => ?_, fun h => ?_⟩
  · rw [← dot_mulVec_transpose, h, Vec.dot_zeros_left]
  · refine Vec.eq_zeros_of_dot (by simp) fun v hv => ?_
    rw [Vec.dot_comm, dot_mulVec_transpose, h v hv]

end Matrix

/-! ## Least squares -/

namespace LinearSystem

noncomputable def misfit (s : LinearSystem ℝ) (v : List ℝ) : ℝ :=
  Vec.dot (Vec.sub (s.matrix.mulVec v) s.rhs) (Vec.sub (s.matrix.mulVec v) s.rhs)

/-- The shortest of the vectors of least misfit, and the rank of the matrix. -/
structure Solves (s : LinearSystem ℝ) (a : LeastSquares ℝ) : Prop where
  length_eq : a.solution.length = s.matrix.cols
  least : ∀ v : List ℝ, v.length = s.matrix.cols → s.misfit a.solution ≤ s.misfit v
  shortest : ∀ v : List ℝ, v.length = s.matrix.cols → s.misfit v = s.misfit a.solution →
    Vec.dot a.solution a.solution ≤ Vec.dot v v
  rank_eq : a.rank = s.matrix.rank

end LinearSystem

/--
The least-squares kernel is exact: it solves every system with an entry on the right for each row.
-/
def Kernels.ExactLeastSquares (kernels : Kernels ℝ) : Prop :=
  ∀ s : LinearSystem ℝ, s.rhs.length = s.matrix.height → s.Solves (kernels.leastSquares s)

namespace LinearSystem

private theorem linear_part_zero {q l : ℝ} (hq : 0 ≤ q) (h : ∀ t : ℝ, 0 ≤ t * t * q + 2 * t * l) :
    l = 0 := by
  by_contra hl
  have hq1 : 0 < q + 1 := by linarith
  have hval : -l / (q + 1) * (-l / (q + 1)) * q + 2 * (-l / (q + 1)) * l =
      -(l * l * (q + 2)) / ((q + 1) * (q + 1)) := by
    field_simp
    ring
  have hneg : -(l * l * (q + 2)) / ((q + 1) * (q + 1)) < 0 :=
    div_neg_of_neg_of_pos (by nlinarith [mul_self_pos.2 hl]) (by positivity)
  have := h (-l / (q + 1))
  linarith

namespace Solves

variable {s : LinearSystem ℝ} {a : LeastSquares ℝ}

/-- The residual of a solution is orthogonal to everything that the matrix reaches. -/
theorem residual_orthogonal (h : s.Solves a) (hs : s.rhs.length = s.matrix.height) {v : List ℝ}
    (hv : v.length = s.matrix.cols) :
    Vec.dot (s.matrix.mulVec v) (Vec.sub (s.matrix.mulVec a.solution) s.rhs) = 0 := by
  refine linear_part_zero (Vec.dot_self_nonneg (s.matrix.mulVec v)) fun t => ?_
  have hlen : a.solution.length = (Vec.scale t v).length := by simp [h.length_eq, hv]
  have hleast := h.least (Vec.add a.solution (Vec.scale t v)) (by simp [h.length_eq, hv])
  have hres : Vec.sub (s.matrix.mulVec (Vec.add a.solution (Vec.scale t v))) s.rhs =
      Vec.add (Vec.sub (s.matrix.mulVec a.solution) s.rhs) (Vec.scale t (s.matrix.mulVec v)) := by
    rw [Matrix.mulVec_add _ hlen, Matrix.mulVec_scale]
    exact Vec.add_sub_right_comm _ _ _
  have hr : (Vec.sub (s.matrix.mulVec a.solution) s.rhs).length =
      (Vec.scale t (s.matrix.mulVec v)).length := by simp [hs]
  rw [misfit, misfit, hres, Vec.dot_add_left hr, Vec.dot_add_right hr, Vec.dot_add_right hr,
    Vec.dot_scale_left, Vec.dot_scale_left, Vec.dot_scale_right, Vec.dot_scale_right,
    Vec.dot_comm _ (s.matrix.mulVec v)] at hleast
  linarith

/-- A solution is orthogonal to everything that the matrix maps to zero. -/
theorem kernel_orthogonal (h : s.Solves a) {v : List ℝ} (hv : v.length = s.matrix.cols)
    (hAv : s.matrix.mulVec v = Vec.zeros s.matrix.height) : Vec.dot v a.solution = 0 := by
  refine linear_part_zero (Vec.dot_self_nonneg v) fun t => ?_
  have hlen : a.solution.length = (Vec.scale t v).length := by simp [h.length_eq, hv]
  have hmul : s.matrix.mulVec (Vec.add a.solution (Vec.scale t v)) =
      s.matrix.mulVec a.solution := by
    rw [Matrix.mulVec_add _ hlen, Matrix.mulVec_scale, hAv, Vec.scale_zeros,
      Vec.add_zeros (Matrix.length_mulVec ..)]
  have hshort := h.shortest (Vec.add a.solution (Vec.scale t v)) (by simp [h.length_eq, hv])
    (by rw [misfit, misfit, hmul])
  rw [Vec.dot_add_left hlen, Vec.dot_add_right hlen, Vec.dot_add_right hlen, Vec.dot_scale_left,
    Vec.dot_scale_left, Vec.dot_scale_right, Vec.dot_scale_right, Vec.dot_comm _ v] at hshort
  linarith

end Solves

/-! ## The saddle system -/

/--
What the constrained least-squares problem asks of its solution: the cost does not change to first
order along directions that the constraints leave free, the misfit of the constraints cannot be
lowered, and nothing shorter does the same.
-/
structure Minimises (cost constraints : LinearSystem ℝ) (p : List ℝ) : Prop where
  length_eq : p.length = cost.matrix.cols
  stationary : ∀ v : List ℝ, v.length = cost.matrix.cols →
    constraints.matrix.mulVec v = Vec.zeros constraints.matrix.height →
    Vec.dot (cost.matrix.mulVec v) (Vec.sub (cost.matrix.mulVec p) cost.rhs) = 0
  compatible : ∀ v : List ℝ, v.length = cost.matrix.cols →
    Vec.dot (constraints.matrix.mulVec v)
      (Vec.sub (constraints.matrix.mulVec p) constraints.rhs) = 0
  shortest : ∀ v : List ℝ, v.length = cost.matrix.cols →
    cost.matrix.mulVec v = Vec.zeros cost.matrix.height →
    constraints.matrix.mulVec v = Vec.zeros constraints.matrix.height → Vec.dot v p = 0

variable {cost constraints : LinearSystem ℝ}

theorem mulVec_saddle (hcols : constraints.matrix.cols = cost.matrix.cols) {u ν : List ℝ}
    (hu : u.length = cost.matrix.cols) :
    (saddle cost constraints).matrix.mulVec (u ++ ν) =
      Vec.add (cost.matrix.transpose.mulVec (cost.matrix.mulVec u))
        (constraints.matrix.transpose.mulVec ν) ++ constraints.matrix.mulVec u := by
  rw [saddle, Matrix.mulVec_above (by simp [Matrix.beside, Matrix.gram, Matrix.zero, hcols]),
    Matrix.mulVec_beside (A := cost.matrix.gram) hu, Matrix.mulVec_beside (hu.trans hcols.symm),
    Matrix.mulVec_gram, Matrix.mulVec_zero, Vec.add_zeros (by simp)]

theorem rhs_saddle : (saddle cost constraints).rhs =
    cost.matrix.transpose.mulVec cost.rhs ++ constraints.rhs := by
  simp only [saddle, Matrix.mulVec, Matrix.transpose, Vec.dotStored_eq_dot]

/-- The normal equations of the saddle system, for a solution with parts `p` and `μ`. -/
private theorem saddle_normal {p μ : List ℝ} (hcols : constraints.matrix.cols = cost.matrix.cols)
    (hd : constraints.rhs.length = constraints.matrix.height) {a : LeastSquares ℝ}
    (h : (saddle cost constraints).Solves a) (ha : a.solution = p ++ μ)
    (hp : p.length = cost.matrix.cols) {u ν : List ℝ} (hu : u.length = cost.matrix.cols)
    (hν : ν.length = constraints.matrix.height) :
    Vec.dot (Vec.add (cost.matrix.transpose.mulVec (cost.matrix.mulVec u))
        (constraints.matrix.transpose.mulVec ν))
      (Vec.sub (Vec.add (cost.matrix.transpose.mulVec (cost.matrix.mulVec p))
        (constraints.matrix.transpose.mulVec μ)) (cost.matrix.transpose.mulVec cost.rhs)) +
    Vec.dot (constraints.matrix.mulVec u)
      (Vec.sub (constraints.matrix.mulVec p) constraints.rhs) = 0 := by
  have hnorm := h.residual_orthogonal (v := u ++ ν)
    (by simp [saddle, Matrix.above, Matrix.beside, Matrix.gram, Matrix.height,
      Matrix.columns, Matrix.transpose, Matrix.zero, hcols, hd])
    (by simp [saddle, Matrix.above, Matrix.beside, Matrix.gram, hu, hν])
  rwa [ha, mulVec_saddle hcols hu, mulVec_saddle hcols hp, rhs_saddle,
    Vec.sub_append (by simp [hcols]), Vec.dot_append (by simp [hcols])] at hnorm

/-- Products with the residual of the stationarity rows, in terms of the two matrices. -/
private theorem dot_saddle_residual (hcols : constraints.matrix.cols = cost.matrix.cols)
    (p μ v : List ℝ) :
    Vec.dot v (Vec.sub (Vec.add (cost.matrix.transpose.mulVec (cost.matrix.mulVec p))
        (constraints.matrix.transpose.mulVec μ)) (cost.matrix.transpose.mulVec cost.rhs)) =
      Vec.dot (cost.matrix.mulVec v) (cost.matrix.mulVec p) +
        Vec.dot μ (constraints.matrix.mulVec v) - Vec.dot cost.rhs (cost.matrix.mulVec v) := by
  rw [Vec.dot_sub_right (by simp [hcols]), Vec.dot_add_right (by simp [hcols]),
    Vec.dot_comm v, Vec.dot_comm v, Vec.dot_comm v, Matrix.dot_mulVec_transpose,
    Matrix.dot_mulVec_transpose, Matrix.dot_mulVec_transpose,
    Vec.dot_comm (cost.matrix.mulVec p)]

/-- The stationarity rows of the saddle system hold exactly, also where the constraints do not. -/
private theorem saddle_residual {p μ : List ℝ} (hcols : constraints.matrix.cols = cost.matrix.cols)
    (hd : constraints.rhs.length = constraints.matrix.height) {a : LeastSquares ℝ}
    (h : (saddle cost constraints).Solves a) (ha : a.solution = p ++ μ)
    (hp : p.length = cost.matrix.cols) :
    Vec.sub (Vec.add (cost.matrix.transpose.mulVec (cost.matrix.mulVec p))
        (constraints.matrix.transpose.mulVec μ)) (cost.matrix.transpose.mulVec cost.rhs) =
      Vec.zeros cost.matrix.cols := by
  have hnormal := fun u ν hu hν => saddle_normal (u := u) (ν := ν) hcols hd h ha hp hu hν
  have hdot := dot_saddle_residual hcols p μ
  generalize hr : Vec.sub (Vec.add (cost.matrix.transpose.mulVec (cost.matrix.mulVec p))
    (constraints.matrix.transpose.mulVec μ)) (cost.matrix.transpose.mulVec cost.rhs) = r at *
  have hrlen : r.length = cost.matrix.cols := by simp [← hr, hcols]
  have hCr : constraints.matrix.mulVec r = Vec.zeros constraints.matrix.height := by
    refine Vec.eq_zeros_of_dot (Matrix.length_mulVec ..) fun ν hν => ?_
    have := hnormal (Vec.zeros cost.matrix.cols) ν (by simp) hν
    rwa [Matrix.mulVec_zeros, Matrix.mulVec_zeros, Matrix.mulVec_zeros, Vec.dot_zeros_left,
      add_zero, Matrix.height_transpose, Vec.zeros_add (by simp [hcols]),
      Matrix.dot_mulVec_transpose] at this
  have hAr : cost.matrix.mulVec r = Vec.zeros cost.matrix.height := by
    have := hnormal r (Vec.zeros constraints.matrix.height) hrlen (by simp)
    rw [hCr, Vec.dot_zeros_left, add_zero, Matrix.mulVec_zeros, Matrix.height_transpose, hcols,
      Vec.add_zeros (by simp), Matrix.dot_mulVec_transpose] at this
    simpa using Vec.eq_zeros_of_dot_self this
  have hself := hdot r
  rw [hAr, hCr] at hself
  rw [← hrlen]
  exact Vec.eq_zeros_of_dot_self (by simpa using hself)

theorem minimises_saddle (hb : cost.rhs.length = cost.matrix.height)
    (hcols : constraints.matrix.cols = cost.matrix.cols)
    (hd : constraints.rhs.length = constraints.matrix.height) {a : LeastSquares ℝ}
    (h : (saddle cost constraints).Solves a) :
    Minimises cost constraints (a.solution.take cost.matrix.cols) := by
  have hlen : a.solution.length = cost.matrix.cols + constraints.matrix.height := by
    simpa [saddle, Matrix.above, Matrix.beside, Matrix.gram] using h.length_eq
  obtain ⟨p, μ, ha, hp, hμ⟩ : ∃ p μ : List ℝ, a.solution = p ++ μ ∧
      p.length = cost.matrix.cols ∧ μ.length = constraints.matrix.height :=
    ⟨_, _, (List.take_append_drop cost.matrix.cols _).symm, by simp [hlen], by simp [hlen]⟩
  rw [ha, List.take_left' hp]
  have hresidual := saddle_residual hcols hd h ha hp
  refine ⟨hp, fun v hv hCv => ?_, fun v hv => ?_, fun v hv hAv hCv => ?_⟩
  · have hdot := dot_saddle_residual hcols p μ v
    rw [hresidual, hCv, Vec.dot_zeros_right, Vec.dot_zeros_right] at hdot
    rw [Vec.dot_sub_right (by simp [hb]), Vec.dot_comm _ cost.rhs]
    linarith
  · have := saddle_normal hcols hd h ha hp hv (Vec.length_zeros constraints.matrix.height)
    rwa [hresidual, Vec.dot_zeros_right, zero_add] at this
  · have := h.kernel_orthogonal (v := v ++ Vec.zeros constraints.matrix.height)
      (by simp [saddle, Matrix.above, Matrix.beside, Matrix.gram, hv])
      (by
        rw [mulVec_saddle hcols hv, hAv, hCv, Matrix.mulVec_zeros, Matrix.mulVec_zeros,
          Matrix.height_transpose, Matrix.height_transpose, hcols, Vec.add_zeros (by simp)]
        simp [saddle, Matrix.above, Matrix.beside, Matrix.height, Matrix.gram, Matrix.columns,
          Matrix.transpose, Matrix.zero, Vec.zeros, hcols])
    rwa [ha, Vec.dot_append (hv.trans hp.symm), Vec.dot_zeros_left, add_zero] at this

theorem minimises_unconstrained (hb : cost.rhs.length = cost.matrix.height)
    (hheight : constraints.matrix.height = 0) {a : LeastSquares ℝ} (h : cost.Solves a) :
    Minimises cost constraints a.solution := by
  have hC : ∀ v, constraints.matrix.mulVec v = [] := fun v =>
    List.length_eq_zero_iff.1 (by simpa using hheight)
  exact ⟨h.length_eq, fun v hv _ => h.residual_orthogonal hb hv, fun v _ => by simp [hC],
    fun v hv hAv _ => h.kernel_orthogonal hv hAv⟩

/-- The first part of a solution of the system that is solved is the constrained minimiser. -/
theorem minimises_toSolve (hb : cost.rhs.length = cost.matrix.height)
    (hcols : constraints.matrix.cols = cost.matrix.cols)
    (hd : constraints.rhs.length = constraints.matrix.height) {a : LeastSquares ℝ}
    (h : (toSolve cost.matrix.cols cost constraints).Solves a) :
    Minimises cost constraints (a.solution.take cost.matrix.cols) := by
  unfold toSolve at h
  split at h
  · rename_i hm
    split at h
    · rename_i h0
      have hA : ∀ v, cost.matrix.mulVec v = [] := fun v =>
        List.length_eq_zero_iff.1 (by simpa using h0)
      have hC : ∀ v, constraints.matrix.mulVec v = [] := fun v =>
        List.length_eq_zero_iff.1 (by simpa using hm)
      have hlen : a.solution.length = cost.matrix.cols := h.length_eq
      rw [List.take_of_length_le hlen.le]
      exact ⟨hlen, fun v _ _ => by simp [hA], fun v _ => by simp [hC], fun v hv _ _ =>
        h.kernel_orthogonal hv (Matrix.mulVec_zero 1 cost.matrix.cols v)⟩
    · rw [List.take_of_length_le h.length_eq.le]
      exact minimises_unconstrained hb hm h
  · exact minimises_saddle hb hcols hd h

theorem length_rhs_toSolve (hb : cost.rhs.length = cost.matrix.height)
    (hcols : constraints.matrix.cols = cost.matrix.cols)
    (hd : constraints.rhs.length = constraints.matrix.height) {n : Nat} (hn : cost.matrix.cols = n) :
    (toSolve n cost constraints).rhs.length = (toSolve n cost constraints).matrix.height := by
  subst hn
  unfold toSolve
  split
  · split
    · rfl
    · exact hb
  · simp [saddle, Matrix.above, Matrix.beside, Matrix.gram, Matrix.height, Matrix.columns,
      Matrix.transpose, Matrix.zero, hcols, hd]

/-! ## Full rank -/

theorem cols_saddle : (saddle cost constraints).matrix.cols =
    cost.matrix.cols + constraints.matrix.height := by
  simp [saddle, Matrix.above, Matrix.beside, Matrix.gram]

theorem height_saddle (hcols : constraints.matrix.cols = cost.matrix.cols) :
    (saddle cost constraints).matrix.height = cost.matrix.cols + constraints.matrix.height := by
  simp [saddle, Matrix.above, Matrix.beside, Matrix.gram, Matrix.height, Matrix.columns,
    Matrix.transpose, Matrix.zero, hcols]

/-- The saddle system cannot tell a pair from zero only if neither system can tell its part. -/
theorem mulVec_saddle_eq_zeros_iff (hcols : constraints.matrix.cols = cost.matrix.cols)
    {u ν : List ℝ} (hu : u.length = cost.matrix.cols) :
    (saddle cost constraints).matrix.mulVec (u ++ ν) =
        Vec.zeros (saddle cost constraints).matrix.height ↔
      (cost.matrix.mulVec u = Vec.zeros cost.matrix.height ∧
        constraints.matrix.mulVec u = Vec.zeros constraints.matrix.height) ∧
      constraints.matrix.transpose.mulVec ν = Vec.zeros cost.matrix.cols := by
  have hzeros : (Vec.zeros (saddle cost constraints).matrix.height : List ℝ) =
      Vec.zeros cost.matrix.cols ++ Vec.zeros constraints.matrix.height := by
    simp [height_saddle hcols, Vec.zeros]
  rw [mulVec_saddle hcols hu, hzeros]
  constructor
  · intro h
    obtain ⟨hfirst, hC⟩ := List.append_inj h (by simp [hcols])
    have hself := congrArg (Vec.dot u) hfirst
    rw [Vec.dot_add_right (by simp [hcols]), Vec.dot_comm u, Matrix.dot_mulVec_transpose,
      Vec.dot_comm u, Matrix.dot_mulVec_transpose, hC, Vec.dot_zeros_right, add_zero,
      Vec.dot_zeros_right] at hself
    have hA : cost.matrix.mulVec u = Vec.zeros cost.matrix.height := by
      simpa using Vec.eq_zeros_of_dot_self hself
    rw [hA, Matrix.mulVec_zeros, Matrix.height_transpose, Vec.zeros_add (by simp [hcols])] at hfirst
    exact ⟨⟨hA, hC⟩, hfirst⟩
  · rintro ⟨⟨hA, hC⟩, hCt⟩
    rw [hA, hC, hCt, Matrix.mulVec_zeros, Matrix.height_transpose, Vec.add_zeros (by simp)]

theorem rank_saddle_iff (hcols : constraints.matrix.cols = cost.matrix.cols) :
    (saddle cost constraints).matrix.rank = cost.matrix.cols + constraints.matrix.height ↔
      (∀ u : List ℝ, u.length = cost.matrix.cols →
        cost.matrix.mulVec u = Vec.zeros cost.matrix.height →
        constraints.matrix.mulVec u = Vec.zeros constraints.matrix.height →
        u = Vec.zeros cost.matrix.cols) ∧ constraints.matrix.RowsIndependent := by
  have hzeros : (Vec.zeros (saddle cost constraints).matrix.cols : List ℝ) =
      Vec.zeros cost.matrix.cols ++ Vec.zeros constraints.matrix.height := by
    simp [cols_saddle, Vec.zeros]
  rw [← cols_saddle, Matrix.rank_eq_cols_iff, Matrix.rowsIndependent_iff_rank,
    Matrix.rank_eq_cols_iff, Matrix.cols_transpose, Matrix.height_transpose, hcols, hzeros]
  constructor
  · intro h
    refine ⟨fun u hu hA hC => ?_, fun ν hν hCt => ?_⟩
    · have hpair := h (u ++ Vec.zeros constraints.matrix.height) (by simp [cols_saddle, hu])
        ((mulVec_saddle_eq_zeros_iff hcols hu).2 ⟨⟨hA, hC⟩, by simp [hcols]⟩)
      exact (List.append_inj hpair (by simp [hu])).1
    · have hpair := h (Vec.zeros cost.matrix.cols ++ ν) (by simp [cols_saddle, hν])
        ((mulVec_saddle_eq_zeros_iff hcols (by simp)).2 ⟨⟨by simp, by simp⟩, hCt⟩)
      exact (List.append_inj hpair rfl).2
  · rintro ⟨hpoints, hrows⟩ v hv hzero
    obtain ⟨u, ν, rfl, hu, hν⟩ : ∃ u ν : List ℝ, v = u ++ ν ∧ u.length = cost.matrix.cols ∧
        ν.length = constraints.matrix.height := by
      rw [cols_saddle] at hv
      exact ⟨_, _, (List.take_append_drop cost.matrix.cols v).symm, by simp [hv], by simp [hv]⟩
    obtain ⟨⟨hA, hC⟩, hCt⟩ := (mulVec_saddle_eq_zeros_iff hcols hu).1 hzero
    rw [hpoints u hu hA hC, hrows ν hν hCt]

/-- The rank is full exactly if no vector but zero is mapped to zero by both systems and the rows of
the second are independent. -/
theorem rank_toSolve_iff (hcols : constraints.matrix.cols = cost.matrix.cols) :
    (toSolve cost.matrix.cols cost constraints).matrix.rank =
        cost.matrix.cols + constraints.matrix.height ↔
      (∀ u : List ℝ, u.length = cost.matrix.cols →
        cost.matrix.mulVec u = Vec.zeros cost.matrix.height →
        constraints.matrix.mulVec u = Vec.zeros constraints.matrix.height →
        u = Vec.zeros cost.matrix.cols) ∧ constraints.matrix.RowsIndependent := by
  unfold toSolve
  split
  · rename_i hC
    -- Without rows there is nothing to be dependent, and nothing that the second system maps.
    have hrows : constraints.matrix.RowsIndependent := by
      rw [Matrix.rowsIndependent_iff]
      intro u hu _
      rw [hC] at hu ⊢
      exact List.length_eq_zero_iff.1 hu
    have hmul : ∀ u, constraints.matrix.mulVec u = Vec.zeros constraints.matrix.height := by
      intro u
      rw [hC]
      exact List.length_eq_zero_iff.1 ((Matrix.length_mulVec ..).trans hC)
    simp only [hrows, hmul, and_true, forall_const, hC, add_zero]
    split
    · rename_i hA
      have hnil : ∀ u, cost.matrix.mulVec u = Vec.zeros cost.matrix.height := by
        intro u
        rw [hA]
        exact List.length_eq_zero_iff.1 ((Matrix.length_mulVec ..).trans hA)
      refine (Matrix.rank_eq_cols_iff (Matrix.zero 1 cost.matrix.cols)).trans ?_
      refine forall₂_congr fun u _ => ?_
      rw [Matrix.mulVec_zero, hnil]
      exact imp_congr_left (iff_of_true rfl rfl)
    · exact Matrix.rank_eq_cols_iff _
  · exact rank_saddle_iff hcols

theorem rank_toSolve_le : (toSolve cost.matrix.cols cost constraints).matrix.rank ≤
    cost.matrix.cols + constraints.matrix.height := by
  refine (Matrix.rank_le_cols _).trans ?_
  unfold toSolve
  split
  · split <;> exact Nat.le_add_right ..
  · exact cols_saddle.le

end LinearSystem

end ActiveSet
