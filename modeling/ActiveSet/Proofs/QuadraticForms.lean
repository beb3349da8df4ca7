import ActiveSet.Proofs.Eigenpairs

/-!
# Quadratic forms as squares

A form differs from its squares by what the dropped eigenpairs contribute: curvature below the cutoff,
and the part of the linear term that the squares do not reach. Both are bounded by what the
factorisation checks, and neither is there if only zeros are dropped and the linear term lies in the
range.
-/

namespace ActiveSet

/-! ## Vectors -/

namespace Vec

theorem norm_eq_norm_toEuclidean {n : Nat} {a : List ℝ} (ha : a.length = n) :
    norm a = ‖toEuclidean n a‖ := by
  rw [norm, Scalar.sqrt_real, ← norm_toEuclidean ha, Real.sqrt_mul_self (norm_nonneg _)]

theorem norm_sq (a : List ℝ) : norm a ^ 2 = dot a a :=
  Real.sq_sqrt (dot_self_nonneg a)

theorem norm_nonneg (a : List ℝ) : 0 ≤ norm a := Real.sqrt_nonneg _

theorem abs_dot_le {a b : List ℝ} (h : a.length = b.length) : |dot a b| ≤ norm a * norm b := by
  rw [norm_eq_norm_toEuclidean h, norm_eq_norm_toEuclidean rfl, ← inner_toEuclidean rfl]
  exact abs_real_inner_le_norm _ _

end Vec

namespace Matrix

variable {S P : Matrix ℝ} {pairs : List (ℝ × List ℝ)} {x : List ℝ}

theorem row_symmetrized {i : Nat} (hP : P.height = P.cols) (hi : i < P.cols) :
    P.symmetrized.rows.getD i [] = Vec.scale 0.5 (Vec.add (P.rows.getD i []) (P.column i)) := by
  have hrow := length_row_of_lt (hi.trans_eq hP.symm)
  have hcolumn := (P.length_column i).trans hP
  have hentries : P.symmetrized.rows.getD i [] = (List.range P.cols).map fun j =>
      0.5 * ((P.rows.getD i []).getD j 0 + (P.rows.getD j []).getD i 0) := by
    simp [symmetrized, List.getD_eq_getElem?_getD, hi]
  rw [hentries]
  refine Vec.ext_getD ?_ fun j hj => ?_
  · rw [Vec.length_scale, Vec.length_add, hrow, hcolumn, min_self, List.length_map,
      List.length_range]
  · have hj : j < P.cols := by simpa using hj
    rw [Vec.getD_scale, Vec.getD_add (hj.trans_eq hrow.symm) (hj.trans_eq hcolumn.symm),
      getD_column]
    simp [List.getD_eq_getElem?_getD, hj]

theorem mulVec_symmetrized (hP : P.height = P.cols) (x : List ℝ) :
    P.symmetrized.mulVec x = Vec.scale 0.5 (Vec.add (P.mulVec x) (P.transpose.mulVec x)) := by
  have hheight : P.symmetrized.height = P.cols := by simp [symmetrized, height]
  refine Vec.ext_getD (by simp [hheight, hP]) fun i hi => ?_
  have hi : i < P.cols := by rwa [length_mulVec, hheight] at hi
  have hlen : (P.rows.getD i []).length = (P.column i).length := by
    rw [length_row_of_lt (hi.trans_eq hP.symm), length_column, hP]
  rw [getD_mulVec, row_symmetrized hP hi, Vec.dot_scale_left, Vec.dot_add_left hlen, Vec.getD_scale,
    Vec.getD_add (by simpa [hP] using hi) (by simpa using hi), getD_mulVec, getD_mulVec_transpose hi]

theorem dot_mulVec_symmetrized (hP : P.height = P.cols) (x : List ℝ) :
    Vec.dot x (P.symmetrized.mulVec x) = Vec.dot x (P.mulVec x) := by
  rw [mulVec_symmetrized hP, Vec.dot_scale_right, Vec.dot_add_right (by simp [hP]),
    Vec.dot_comm x (P.transpose.mulVec x), dot_mulVec_transpose]
  ring

/-- An orthonormal basis of eigenvectors misses no eigenvalue. -/
theorem Eigenbasis.exists_of_eigenvalue (h : S.Eigenbasis pairs) (hsymm : S.transpose = S) {μ : ℝ}
    (hμ : S.Eigenvalue μ) : ∃ e ∈ pairs, e.1 = μ := by
  obtain ⟨v, hv, hne, heigen⟩ := hμ
  obtain ⟨e, he, hdot⟩ : ∃ e ∈ pairs, Vec.dot e.2 v ≠ 0 := by
    by_contra hnone
    have hall : ∀ e ∈ pairs, Vec.dot e.2 v = 0 := fun e he => by
      by_contra hdot
      exact hnone ⟨e, he, hdot⟩
    have hzero : Vec.dot v v = 0 := by
      rw [← h.sum_dot_mul_dot hv hv]
      refine List.sum_eq_zero fun a ha => ?_
      obtain ⟨e, he, rfl⟩ := List.mem_map.1 ha
      rw [hall e he, zero_mul]
    exact hne (hv ▸ Vec.eq_zeros_of_dot_self hzero)
  refine ⟨e, he, mul_right_cancel₀ hdot ?_⟩
  rw [← h.dot_mulVec hsymm he, heigen, Vec.dot_scale_right]

end Matrix

namespace CostFactor

variable {S : Matrix ℝ} {pairs : List (ℝ × List ℝ)} {q x : List ℝ} {tol : ℝ}

/-! ## The scale of the eigenvalues -/

theorem abs_le_eigenScale {e : ℝ × List ℝ} (he : e ∈ pairs) : |e.1| ≤ eigenScale pairs := by
  cases pairs with
  | nil => cases he
  | cons f rest =>
      have hmem : |e.1| ∈ |f.1| :: rest.map fun e => |e.1| :=
        List.mem_map_of_mem (f := fun e : ℝ × List ℝ => |e.1|) he
      simp only [eigenScale, List.map_cons, Scalar.abs_eq_abs, Scalar.larger_eq_max]
      exact (Scalar.mem_cons_le_greatestFrom hmem).trans (le_max_right _ _)

/-- It is the largest magnitude of an eigenvalue, or one. -/
theorem isGreatest_eigenScale (h : S.Eigenbasis pairs) (hsymm : S.transpose = S) :
    IsGreatest (insert 1 ((|·|) '' { μ | S.Eigenvalue μ })) (eigenScale pairs) := by
  constructor
  · rcases eigenScale_mem pairs with hone | ⟨e, he, heq⟩
    · exact .inl hone
    · exact .inr ⟨e.1, h.eigenvalue he, heq.symm⟩
  · rintro a (rfl | ⟨μ, hμ, rfl⟩)
    · exact one_le_eigenScale pairs
    · obtain ⟨e, he, rfl⟩ := h.exists_of_eigenvalue hsymm hμ
      exact abs_le_eigenScale he

/-! ## What the factorisation checks -/

theorem leastEigenvalue_le {s : ℝ} (h : leastEigenvalue? pairs = some s) {e : ℝ × List ℝ}
    (he : e ∈ pairs) : s ≤ e.1 := by
  cases pairs with
  | nil => cases he
  | cons f rest =>
      rw [← Option.some.inj h]
      exact Scalar.foldl_smaller_le (List.mem_map_of_mem (f := fun e : ℝ × List ℝ => e.1) he)

/-- No eigenvalue is below the cutoff, and little of the linear term is out of reach. -/
theorem checks_of_ofEigenpairs {n : Nat} {sys : LinearSystem ℝ}
    (h : ofEigenpairs n pairs q tol = .ok sys) :
    (∀ e ∈ pairs, -(tol * eigenScale pairs) ≤ e.1) ∧
      Vec.norm (Vec.add (sys.matrix.transpose.mulVec sys.rhs) q) ≤ 1e-8 * max 1 (Vec.norm q) := by
  unfold ofEigenpairs at h
  dsimp only at h
  constructor
  · intro e he
    split at h
    · rename_i s hs
      split at h
      · cases h
      · exact (not_lt.1 ‹_›).trans (leastEigenvalue_le hs he)
    · rename_i hnone
      cases pairs with
      | nil => cases he
      | cons f rest => cases hnone
  · rw [← Scalar.larger_eq_max]
    repeat' split at h
    all_goals cases h
    all_goals exact not_lt.1 ‹_›

/-! ## The form and the squares -/

/-- The form `½xᵀPx + qᵀx`. -/
noncomputable def formValue (P : Matrix ℝ) (q x : List ℝ) : ℝ :=
  0.5 * Vec.dot x (P.mulVec x) + Vec.dot q x

/-- The squares `½‖Lx − r‖² − ½‖r‖²`. -/
noncomputable def squaresValue (sys : LinearSystem ℝ) (x : List ℝ) : ℝ :=
  0.5 * sys.misfit x - 0.5 * Vec.dot sys.rhs sys.rhs

/-- What an eigenpair contributes to the value of a form. -/
noncomputable def share (q x : List ℝ) (e : ℝ × List ℝ) : ℝ :=
  0.5 * (e.1 * Vec.dot e.2 x ^ 2) + Vec.dot e.2 q * Vec.dot e.2 x

theorem sum_share (l : List (ℝ × List ℝ)) : (l.map (share q x)).sum =
    0.5 * (l.map fun e => e.1 * Vec.dot e.2 x ^ 2).sum +
      (l.map fun e => Vec.dot e.2 q * Vec.dot e.2 x).sum := by
  rw [← List.sum_map_mul_left, ← List.sum_map_add]
  rfl

theorem formValue_symmetrized {P : Matrix ℝ} (hP : P.height = P.cols) (q x : List ℝ) :
    formValue P.symmetrized q x = formValue P q x := by
  rw [formValue, Matrix.dot_mulVec_symmetrized hP, formValue]

theorem formValue_eq_sum (h : S.Eigenbasis pairs) (hsymm : S.transpose = S)
    (hq : q.length = S.cols) (hx : x.length = S.cols) :
    formValue S q x = (pairs.map (share q x)).sum := by
  have hsquare : S.height = S.cols := congrArg Matrix.cols hsymm
  have hcurved : Vec.dot x (S.mulVec x) = (pairs.map fun e => e.1 * Vec.dot e.2 x ^ 2).sum := by
    rw [← h.sum_dot_mul_dot hx ((S.length_mulVec x).trans hsquare)]
    refine congrArg List.sum (List.map_congr_left fun e he => ?_)
    rw [h.dot_mulVec hsymm he]
    ring
  rw [formValue, hcurved, ← h.sum_dot_mul_dot hq hx, sum_share]

theorem dot_rhs_mulVec_rows (h : S.Eigenbasis pairs) (htol : 0 < tol) :
    Vec.dot (rhs q (kept pairs tol)) ((rows S.cols (kept pairs tol)).mulVec x) =
      -((kept pairs tol).map fun e => Vec.dot e.2 q * Vec.dot e.2 x).sum := by
  rw [mulVec_rows fun e => length_of_mem_kept h, rhs, Vec.dot_map, ← neg_one_mul,
    ← List.sum_map_mul_left]
  refine congrArg List.sum (List.map_congr_left fun e he => ?_)
  have hsqrt := Real.sqrt_pos.2 (pos_of_mem_kept htol.le he)
  rw [Scalar.sqrt_real]
  field_simp

theorem squaresValue_eq_sum (h : S.Eigenbasis pairs) (htol : 0 < tol) :
    squaresValue ⟨rows S.cols (kept pairs tol), rhs q (kept pairs tol)⟩ x =
      ((kept pairs tol).map (share q x)).sum := by
  have hlen : ((rows S.cols (kept pairs tol)).mulVec x).length = (rhs q (kept pairs tol)).length := by
    simp [rows, rhs, Matrix.height]
  have hsquares : Vec.dot ((rows S.cols (kept pairs tol)).mulVec x)
      ((rows S.cols (kept pairs tol)).mulVec x) =
        ((kept pairs tol).map fun e => e.1 * Vec.dot e.2 x ^ 2).sum := by
    rw [mulVec_rows fun e => length_of_mem_kept h, Vec.dot_map]
    refine congrArg List.sum (List.map_congr_left fun e he => ?_)
    have hsqrt := Real.mul_self_sqrt (pos_of_mem_kept htol.le he).le
    linear_combination Vec.dot e.2 x ^ 2 * hsqrt
  have hcross := dot_rhs_mulVec_rows (q := q) (x := x) h htol
  rw [squaresValue, LinearSystem.misfit]
  dsimp only
  rw [Vec.dot_sub_left hlen, Vec.dot_sub_right hlen, Vec.dot_sub_right hlen,
    Vec.dot_comm _ (rhs q _), hsquares, hcross, sum_share]
  ring

/-- The form and the squares differ by what the dropped eigenpairs contribute. -/
theorem formValue_sub_squaresValue (h : S.Eigenbasis pairs) (hsymm : S.transpose = S)
    (htol : 0 < tol) (hq : q.length = S.cols) (hx : x.length = S.cols) :
    formValue S q x - squaresValue ⟨rows S.cols (kept pairs tol), rhs q (kept pairs tol)⟩ x =
      ((dropped pairs tol).map (share q x)).sum := by
  rw [formValue_eq_sum h hsymm hq hx, squaresValue_eq_sum h htol,
    ← sum_kept_add_sum_dropped pairs tol, add_sub_cancel_left]

/-! ## What is dropped is small -/

/-- The part of the linear term out of reach is its part along the dropped eigenvectors. -/
theorem dot_outside (h : S.Eigenbasis pairs) (htol : 0 < tol) (hq : q.length = S.cols)
    (hx : x.length = S.cols) :
    Vec.dot (Vec.add ((rows S.cols (kept pairs tol)).transpose.mulVec (rhs q (kept pairs tol))) q) x =
      ((dropped pairs tol).map fun e => Vec.dot e.2 q * Vec.dot e.2 x).sum := by
  rw [Vec.dot_add_left (by simp [hq, rows]), Matrix.dot_mulVec_transpose,
    dot_rhs_mulVec_rows h htol, ← h.sum_dot_mul_dot hq hx, ← sum_kept_add_sum_dropped pairs tol,
    neg_add_cancel_left]

theorem sum_sq_dropped_le (h : S.Eigenbasis pairs) (hx : x.length = S.cols) :
    ((dropped pairs tol).map fun e => Vec.dot e.2 x ^ 2).sum ≤ Vec.norm x ^ 2 := by
  have hkept : 0 ≤ ((kept pairs tol).map fun e => Vec.dot e.2 x ^ 2).sum := by
    refine List.sum_nonneg fun a ha => ?_
    obtain ⟨e, _, rfl⟩ := List.mem_map.1 ha
    exact sq_nonneg _
  have hall := h.sum_dot_mul_dot hx hx
  simp only [← pow_two] at hall
  rw [Vec.norm_sq, ← hall, ← sum_kept_add_sum_dropped pairs tol]
  exact le_add_of_nonneg_left hkept

theorem abs_sum_dropped_le (h : S.Eigenbasis pairs) (htol : 0 < tol)
    (hleast : ∀ e ∈ pairs, -(tol * eigenScale pairs) ≤ e.1) (hx : x.length = S.cols) :
    |((dropped pairs tol).map fun e => e.1 * Vec.dot e.2 x ^ 2).sum| ≤
      tol * eigenScale pairs * Vec.norm x ^ 2 := by
  have hcutoff : 0 ≤ tol * eigenScale pairs := (mul_pos htol (eigenScale_pos pairs)).le
  have hle : ∀ e ∈ dropped pairs tol, |e.1| ≤ tol * eigenScale pairs := by
    intro e he
    obtain ⟨he, hcut⟩ := List.mem_filter.1 he
    exact abs_le.2 ⟨hleast e he, not_lt.1 (of_decide_eq_true hcut)⟩
  calc |((dropped pairs tol).map fun e => e.1 * Vec.dot e.2 x ^ 2).sum|
      ≤ ((dropped pairs tol).map fun e => |e.1 * Vec.dot e.2 x ^ 2|).sum := by
        have habs := List.le_sum_of_subadditive abs abs_zero.le abs_add_le
          ((dropped pairs tol).map fun e => e.1 * Vec.dot e.2 x ^ 2)
        rwa [List.map_map] at habs
    _ ≤ ((dropped pairs tol).map fun e => tol * eigenScale pairs * Vec.dot e.2 x ^ 2).sum := by
        refine List.sum_le_sum fun e he => ?_
        rw [abs_mul, abs_of_nonneg (sq_nonneg (Vec.dot e.2 x))]
        exact mul_le_mul_of_nonneg_right (hle e he) (sq_nonneg _)
    _ = tol * eigenScale pairs * ((dropped pairs tol).map fun e => Vec.dot e.2 x ^ 2).sum :=
        List.sum_map_mul_left ..
    _ ≤ tol * eigenScale pairs * Vec.norm x ^ 2 :=
        mul_le_mul_of_nonneg_left (sum_sq_dropped_le h hx) hcutoff

theorem abs_sum_linear_le (h : S.Eigenbasis pairs) (htol : 0 < tol) (hq : q.length = S.cols)
    (hx : x.length = S.cols) {c : ℝ}
    (hc : Vec.norm (Vec.add ((rows S.cols (kept pairs tol)).transpose.mulVec
      (rhs q (kept pairs tol))) q) ≤ c) :
    |((dropped pairs tol).map fun e => Vec.dot e.2 q * Vec.dot e.2 x).sum| ≤ c * Vec.norm x := by
  rw [← dot_outside h htol hq hx]
  refine (Vec.abs_dot_le (by simp [rows, hq, hx])).trans ?_
  exact mul_le_mul_of_nonneg_right hc (Vec.norm_nonneg x)

theorem abs_sum_share_dropped_le (h : S.Eigenbasis pairs) (htol : 0 < tol) (hq : q.length = S.cols)
    (hx : x.length = S.cols) (hleast : ∀ e ∈ pairs, -(tol * eigenScale pairs) ≤ e.1) {c : ℝ}
    (hc : Vec.norm (Vec.add ((rows S.cols (kept pairs tol)).transpose.mulVec
      (rhs q (kept pairs tol))) q) ≤ c) :
    |((dropped pairs tol).map (share q x)).sum| ≤
      1 / 2 * tol * eigenScale pairs * Vec.norm x ^ 2 + c * Vec.norm x := by
  have hcurved := abs_sum_dropped_le h htol hleast hx
  have hlinear := abs_sum_linear_le h htol hq hx hc
  rw [sum_share]
  refine (abs_add_le _ _).trans (add_le_add ?_ hlinear)
  rw [abs_mul, abs_of_pos (by norm_num)]
  linarith

/-- Nothing is dropped but zeros if the linear term lies in the range, so the form is its squares. -/
theorem sum_share_dropped_eq_zero (h : S.Eigenbasis pairs) (hsymm : S.transpose = S)
    (hzero : ∀ e ∈ dropped pairs tol, e.1 = 0) {u : List ℝ} (hq : S.mulVec u = q) :
    ((dropped pairs tol).map (share q x)).sum = 0 := by
  refine List.sum_eq_zero fun a ha => ?_
  obtain ⟨e, he, rfl⟩ := List.mem_map.1 ha
  rw [share, ← hq, h.dot_mulVec hsymm (List.mem_filter.1 he).1, hzero e he]
  ring

/-! ## The squares of a form -/

variable {kernels : Kernels ℝ} {P : Matrix ℝ} {sys : LinearSystem ℝ}

/--
The squares of a form stand for it: up to the curvature that is cut off and the part of the linear
term that is forgiven, and exactly if neither is there.
-/
theorem ofForm_represents (he : kernels.ExactEigenpairs) (hP : P.height = P.cols) (htol : 0 < tol)
    (h : ofForm kernels P q tol = .ok sys) :
    ∃ scale, IsGreatest (insert 1 ((|·|) '' { μ | P.symmetrized.Eigenvalue μ })) scale ∧
      (∀ x : List ℝ, x.length = P.cols →
        |formValue P q x - squaresValue sys x| ≤
          1 / 2 * tol * scale * Vec.norm x ^ 2 + 1e-8 * max 1 (Vec.norm q) * Vec.norm x) ∧
      ((∀ μ, P.symmetrized.Eigenvalue μ → μ ≤ tol * scale → μ = 0) →
        (∃ u : List ℝ, u.length = P.cols ∧ P.symmetrized.mulVec u = q) →
        ∀ x : List ℝ, x.length = P.cols → formValue P q x = squaresValue sys x) := by
  have hsymm := P.transpose_symmetrized
  have hbasis := he _ hsymm
  rw [ofForm_of_square hP] at h
  obtain ⟨hleast, hinside⟩ := checks_of_ofEigenpairs h
  obtain ⟨hq, rfl⟩ := ofEigenpairs_eq_ok h
  generalize kernels.eigenpairs P.symmetrized = pairs at *
  have hdiff := fun (x : List ℝ) (hx : x.length = P.symmetrized.cols) =>
    formValue_sub_squaresValue hbasis hsymm htol hq hx
  simp only [formValue_symmetrized hP] at hdiff
  refine ⟨eigenScale pairs, isGreatest_eigenScale hbasis hsymm, ?_, ?_⟩
  · intro x hx
    rw [hdiff x hx]
    exact abs_sum_share_dropped_le hbasis htol hq hx hleast hinside
  · rintro hzero ⟨u, _, hu⟩ x hx
    refine sub_eq_zero.1 ((hdiff x hx).trans (sum_share_dropped_eq_zero hbasis hsymm ?_ hu))
    intro e he
    obtain ⟨he, hcut⟩ := List.mem_filter.1 he
    exact hzero e.1 (hbasis.eigenvalue he) (not_lt.1 (of_decide_eq_true hcut))

/-! ## A form with a skew part -/

/-- The form `½x₀²`, in a matrix that is not symmetric. -/
def skewed : Matrix ℝ := ⟨2, [[1, 1], [-1, 0]], by simp⟩

theorem mulVec_skewed (a b : ℝ) : skewed.symmetrized.mulVec [a, b] = [a, 0] := by
  rw [Matrix.mulVec_symmetrized rfl]
  have hhalf : (0.5 : ℝ) * (a + b + (a - b)) = a := by ring
  simpa [Matrix.mulVec, Matrix.transpose, Matrix.columns, Matrix.column, skewed, Vec.add, Vec.scale,
    List.range_succ, ← sub_eq_add_neg] using hhalf

theorem eigenvalue_skewed {μ : ℝ} (h : skewed.symmetrized.Eigenvalue μ) : μ = 0 ∨ μ = 1 := by
  obtain ⟨v, hlen, hne, hv⟩ := h
  obtain ⟨a, b, rfl⟩ := List.length_eq_two.1 hlen
  rw [mulVec_skewed] at hv
  obtain ⟨ha, hb⟩ : a = μ * a ∧ 0 = μ * b := by simpa [Vec.scale] using hv
  rcases eq_or_ne a 0 with rfl | hnonzero
  · refine .inl ((mul_eq_zero.1 hb.symm).resolve_right ?_)
    rintro rfl
    exact hne rfl
  · exact .inr (mul_right_cancel₀ hnonzero ((one_mul a).trans ha)).symm

theorem exact_skewed : Exact skewed.symmetrized [-2, 0] 1e-10 where
  clear := by
    intro μ hμ
    refine (eigenvalue_skewed hμ).imp_right ?_
    rintro rfl
    refine ⟨by norm_num, fun ν hν => ?_⟩
    rcases eigenvalue_skewed hν with rfl | rfl <;> norm_num
  range := ⟨[-2, 0], rfl, mulVec_skewed (-2) 0⟩

theorem ofForm_represents_skewed : ∃ sys, ofForm Kernels.spectral skewed [-2, 0] 1e-10 = .ok sys ∧
    ∀ x : List ℝ, x.length = 2 → formValue skewed [-2, 0] x = squaresValue sys x := by
  obtain ⟨sys, hsys⟩ :=
    ofForm_of_exact Kernels.spectral_eigenpairs rfl (by norm_num) exact_skewed
  obtain ⟨scale, hscale, _, hexact⟩ :=
    ofForm_represents Kernels.spectral_eigenpairs rfl (by norm_num) hsys
  refine ⟨sys, hsys, hexact ?_ ⟨[-2, 0], rfl, mulVec_skewed (-2) 0⟩⟩
  have hone : scale ≤ 1 := by
    rcases hscale.1 with rfl | ⟨μ, hμ, rfl⟩
    · exact le_rfl
    · rcases eigenvalue_skewed hμ with rfl | rfl <;> norm_num
  intro μ hμ hcut
  refine (eigenvalue_skewed hμ).resolve_right ?_
  rintro rfl
  linarith

end CostFactor

end ActiveSet
