import Mathlib.Analysis.InnerProductSpace.Spectrum
import ActiveSet.Dense.CostFactor
import ActiveSet.Proofs.ExactKernels
import ActiveSet.Proofs.Faults

/-!
# Exact eigenpairs

What an exact kernel for eigenpairs answers, that one exists, and when a quadratic form is exactly the
sum of squares that is made from its eigenpairs: if no eigenvalue but zero is cut off, and the linear
term lies in the range.
-/

namespace ActiveSet

namespace Matrix

/-! ## Orthonormal eigenvectors -/

/-- Some vector other than zero is only scaled. -/
def Eigenvalue (S : Matrix ℝ) (μ : ℝ) : Prop :=
  ∃ v : List ℝ, v.length = S.cols ∧ v ≠ Vec.zeros S.cols ∧ S.mulVec v = Vec.scale μ v

/-- Eigenvalues with eigenvectors that are an orthonormal basis, in any order. -/
structure Eigenbasis (S : Matrix ℝ) (pairs : List (ℝ × List ℝ)) : Prop where
  count : pairs.length = S.cols
  length_eq : ∀ e ∈ pairs, e.2.length = S.cols
  eigen : ∀ e ∈ pairs, S.mulVec e.2 = Vec.scale e.1 e.2
  unit : ∀ e ∈ pairs, Vec.dot e.2 e.2 = 1
  orthogonal : pairs.Pairwise fun e f => Vec.dot e.2 f.2 = 0

theorem dot_mulVec_of_symmetric {S : Matrix ℝ} (h : S.transpose = S) (u v : List ℝ) :
    Vec.dot (S.mulVec u) v = Vec.dot u (S.mulVec v) := by
  have := S.dot_mulVec_transpose u v
  rwa [h] at this

end Matrix

namespace Vec

theorem inner_toEuclidean {n : Nat} {u v : List ℝ} (hv : v.length = n) :
    inner ℝ (toEuclidean n u) (toEuclidean n v) = dot u v := by
  rw [PiLp.inner_apply, dot_comm, dot_eq_sum hv.le,
    ← Fin.sum_univ_eq_sum_range (fun i => v.getD i 0 * u.getD i 0)]
  rfl

theorem toEuclidean_inj {n : Nat} {u v : List ℝ} (hu : u.length = n) (hv : v.length = n)
    (h : toEuclidean n u = toEuclidean n v) : u = v :=
  ext_getD (hu.trans hv.symm) fun i hi =>
    congrArg (fun x : EuclideanSpace ℝ (Fin n) => x ⟨i, hu ▸ hi⟩) h

theorem toEuclidean_scale {n : Nat} (s : ℝ) (v : List ℝ) :
    toEuclidean n (scale s v) = s • toEuclidean n v := by
  ext i
  simp only [toEuclidean, scale, PiLp.smul_apply, smul_eq_mul, List.getD_eq_getElem?_getD,
    List.getElem?_map]
  cases v[i.1]? <;> simp

end Vec

namespace Matrix

variable {S : Matrix ℝ} {pairs : List (ℝ × List ℝ)}

theorem Eigenbasis.eigenvalue (h : S.Eigenbasis pairs) {e : ℝ × List ℝ} (he : e ∈ pairs) :
    S.Eigenvalue e.1 := by
  refine ⟨e.2, h.length_eq e he, fun hzero => ?_, h.eigen e he⟩
  have hunit := h.unit e he
  rw [hzero, Vec.dot_zeros_left] at hunit
  exact zero_ne_one hunit

/-- The inner product of two vectors from their coordinates in an orthonormal basis. -/
theorem Eigenbasis.sum_dot_mul_dot (h : S.Eigenbasis pairs) {a b : List ℝ} (ha : a.length = S.cols)
    (hb : b.length = S.cols) :
    (pairs.map fun e => Vec.dot e.2 a * Vec.dot e.2 b).sum = Vec.dot a b := by
  let v : Fin pairs.length → EuclideanSpace ℝ (Fin S.cols) := fun i =>
    Vec.toEuclidean S.cols pairs[i.1].2
  have hlen : ∀ i : Fin pairs.length, pairs[i.1].2.length = S.cols := fun i =>
    h.length_eq _ (List.getElem_mem _)
  have hinner : ∀ i {u : List ℝ}, u.length = S.cols →
      inner ℝ (v i) (Vec.toEuclidean S.cols u) = Vec.dot pairs[i.1].2 u := fun i u hu =>
    Vec.inner_toEuclidean hu
  have horth : Orthonormal ℝ v := by
    have hpair := List.pairwise_iff_getElem.1 h.orthogonal
    refine orthonormal_iff_ite.2 fun i j => ?_
    rw [hinner i (hlen j)]
    split_ifs with hij
    · rw [hij]
      exact h.unit _ (List.getElem_mem _)
    · rcases lt_or_gt_of_ne (Fin.val_ne_of_ne hij) with hlt | hlt
      · exact hpair _ _ _ _ hlt
      · rw [Vec.dot_comm]
        exact hpair _ _ _ _ hlt
  have hcard : Fintype.card (Fin pairs.length) =
      Module.finrank ℝ (EuclideanSpace ℝ (Fin S.cols)) := by
    rw [Fintype.card_fin, h.count, finrank_euclideanSpace_fin]
  have hspan : ⊤ ≤ Submodule.span ℝ (Set.range v) :=
    (horth.linearIndependent.span_eq_top_of_card_eq_finrank' hcard).ge
  have hsum := (OrthonormalBasis.mk horth hspan).sum_inner_mul_inner
    (Vec.toEuclidean S.cols a) (Vec.toEuclidean S.cols b)
  rw [Vec.inner_toEuclidean hb] at hsum
  rw [← hsum, ← Fin.sum_univ_fun_getElem]
  refine Finset.sum_congr rfl fun i _ => ?_
  rw [OrthonormalBasis.coe_mk, real_inner_comm, hinner i ha, hinner i hb]

theorem Eigenbasis.dot_mulVec (h : S.Eigenbasis pairs) (hsymm : S.transpose = S) {e : ℝ × List ℝ}
    (he : e ∈ pairs) (y : List ℝ) : Vec.dot e.2 (S.mulVec y) = e.1 * Vec.dot e.2 y := by
  rw [← dot_mulVec_of_symmetric hsymm, h.eigen e he, Vec.dot_scale_left]

theorem exists_eigenbasis (h : S.transpose = S) : ∃ pairs, S.Eigenbasis pairs := by
  have hsquare : S.height = S.cols := congrArg Matrix.cols h
  let reindex := (LinearIsometryEquiv.piLpCongrLeft 2 ℝ ℝ (finCongr hsquare)).toLinearEquiv
  let T : EuclideanSpace ℝ (Fin S.cols) →ₗ[ℝ] EuclideanSpace ℝ (Fin S.cols) :=
    reindex.toLinearMap ∘ₗ LinearSystem.toLinearMap S
  have hT : ∀ {v : List ℝ}, v.length = S.cols →
      T (Vec.toEuclidean S.cols v) = Vec.toEuclidean S.cols (S.mulVec v) := by
    intro v hv
    change reindex (LinearSystem.toLinearMap S (Vec.toEuclidean S.cols v)) = _
    rw [LinearSystem.toLinearMap_toEuclidean hv]
    rfl
  have hmul : ∀ v : List ℝ, (S.mulVec v).length = S.cols := fun v => by
    rw [length_mulVec, hsquare]
  have hsymm : T.IsSymmetric := by
    intro x y
    obtain ⟨u, hu, rfl⟩ := Vec.exists_toEuclidean x
    obtain ⟨v, hv, rfl⟩ := Vec.exists_toEuclidean y
    rw [hT hu, hT hv, Vec.inner_toEuclidean hv, Vec.inner_toEuclidean (hmul v),
      dot_mulVec_of_symmetric h]
  have hdim : Module.finrank ℝ (EuclideanSpace ℝ (Fin S.cols)) = S.cols :=
    finrank_euclideanSpace_fin
  let basis := hsymm.eigenvectorBasis hdim
  choose v hlen hv using fun i => Vec.exists_toEuclidean (basis i)
  have hdot : ∀ i j, Vec.dot (v i) (v j) = if i = j then 1 else 0 := by
    intro i j
    rw [← Vec.inner_toEuclidean (hlen j), hv, hv]
    exact orthonormal_iff_ite.1 basis.orthonormal i j
  refine ⟨List.ofFn fun i => (hsymm.eigenvalues hdim i, v i), List.length_ofFn, ?_, ?_, ?_, ?_⟩
  · exact List.forall_mem_ofFn_iff.2 hlen
  · refine List.forall_mem_ofFn_iff.2 fun i => ?_
    refine Vec.toEuclidean_inj (hmul _) ((Vec.length_scale _ _).trans (hlen i)) ?_
    rw [← hT (hlen i), Vec.toEuclidean_scale, hv]
    exact hsymm.apply_eigenvectorBasis hdim i
  · exact List.forall_mem_ofFn_iff.2 fun i => (hdot i i).trans (if_pos rfl)
  · exact List.pairwise_ofFn.2 fun i j hij => (hdot i j).trans (if_neg hij.ne)

end Matrix

/-- The kernel for eigenpairs is exact. -/
def Kernels.ExactEigenpairs (kernels : Kernels ℝ) : Prop :=
  ∀ S : Matrix ℝ, S.transpose = S → S.Eigenbasis (kernels.eigenpairs S)

/-! ## The squares of a form -/

/-- The symmetric part of a square matrix. -/
def Matrix.symmetrized {K : Type} [Scalar K] (P : Matrix K) : Matrix K where
  cols := P.cols
  rows := (List.range P.cols).map fun i => (List.range P.cols).map fun j =>
    0.5 * ((P.rows.getD i []).getD j 0 + (P.rows.getD j []).getD i 0)
  rect := by
    intro row h
    obtain ⟨i, _, rfl⟩ := List.mem_map.1 h
    simp

theorem Matrix.transpose_symmetrized (P : Matrix ℝ) : P.symmetrized.transpose = P.symmetrized := by
  simp only [transpose, columns, height]
  congr 1
  · simp [symmetrized]
  · refine List.map_congr_left fun j hj => ?_
    have hj : j < P.cols := List.mem_range.1 hj
    rw [column, symmetrized, List.map_map]
    refine List.map_congr_left fun i _ => ?_
    simp [List.getD_eq_getElem?_getD, hj, add_comm]

namespace Vec

theorem dot_map {α : Type} (l : List α) (u v : α → ℝ) :
    dot (l.map u) (l.map v) = (l.map fun a => u a * v a).sum := by
  rw [dot, total_eq_sum, List.zipWith_map, List.zipWith_self]

end Vec

namespace CostFactor

/--
What makes the squares of a form exact: no eigenvalue but zero is cut off, and the linear term lies
in the range.
-/
structure Exact (S : Matrix ℝ) (q : List ℝ) (tol : ℝ) : Prop where
  clear : ∀ μ, S.Eigenvalue μ → μ = 0 ∨ tol < μ ∧ ∀ ν, S.Eigenvalue ν → tol * |ν| < μ
  range : ∃ u : List ℝ, u.length = S.cols ∧ S.mulVec u = q

variable {S : Matrix ℝ} {pairs : List (ℝ × List ℝ)} {q : List ℝ} {tol : ℝ}

theorem symmetricPart_of_square {P : Matrix ℝ} (h : P.height = P.cols) :
    symmetricPart P = .ok P.symmetrized := if_pos h

theorem Exact.length_eq (h : Exact S q tol) (hsymm : S.transpose = S) : q.length = S.cols := by
  obtain ⟨u, _, hq⟩ := h.range
  rw [← hq, Matrix.length_mulVec]
  exact congrArg Matrix.cols hsymm

theorem eigenScale_mem (pairs : List (ℝ × List ℝ)) :
    eigenScale pairs = 1 ∨ ∃ e ∈ pairs, eigenScale pairs = |e.1| := by
  cases pairs with
  | nil => exact .inl rfl
  | cons e rest =>
      have hmem := Scalar.greatestFrom_mem |e.1| (rest.map fun e => |e.1|)
      rw [← List.map_cons (f := fun e : ℝ × List ℝ => |e.1|)] at hmem
      obtain ⟨f, hf, hgreatest⟩ := List.mem_map.1 hmem
      simp only [eigenScale, List.map_cons, Scalar.abs_eq_abs, Scalar.larger_eq_max, ← hgreatest]
      rcases max_choice 1 |f.1| with h | h
      · exact .inl h
      · exact .inr ⟨f, hf, h⟩

theorem cutoff_lt (hexact : Exact S q tol) (h : S.Eigenbasis pairs) {e : ℝ × List ℝ}
    (he : e ∈ pairs) : e.1 = 0 ∨ tol * eigenScale pairs < e.1 := by
  refine (hexact.clear e.1 (h.eigenvalue he)).imp_right fun ⟨htol, hall⟩ => ?_
  rcases eigenScale_mem pairs with hscale | ⟨f, hf, hscale⟩
  · rwa [hscale, mul_one]
  · rw [hscale]
    exact hall _ (h.eigenvalue hf)

theorem one_le_eigenScale (pairs : List (ℝ × List ℝ)) : 1 ≤ eigenScale pairs := by
  unfold eigenScale
  split
  · exact le_rfl
  · rw [Scalar.larger_eq_max]
    exact le_max_left _ _

theorem eigenScale_pos (pairs : List (ℝ × List ℝ)) : 0 < eigenScale pairs :=
  one_pos.trans_le (one_le_eigenScale pairs)

/-- The eigenpairs that are not cut off. -/
noncomputable def kept (pairs : List (ℝ × List ℝ)) (tol : ℝ) : List (ℝ × List ℝ) :=
  pairs.filter fun e => tol * eigenScale pairs < e.1

/-- The eigenpairs that are cut off. -/
noncomputable def dropped (pairs : List (ℝ × List ℝ)) (tol : ℝ) : List (ℝ × List ℝ) :=
  pairs.filter fun e => ¬tol * eigenScale pairs < e.1

theorem sum_kept_add_sum_dropped (pairs : List (ℝ × List ℝ)) (tol : ℝ) (F : ℝ × List ℝ → ℝ) :
    ((kept pairs tol).map F).sum + ((dropped pairs tol).map F).sum = (pairs.map F).sum :=
  List.sum_map_filter_add_sum_map_filter_not _ _ _

theorem pos_of_mem_kept (htol : 0 ≤ tol) {e : ℝ × List ℝ} (he : e ∈ kept pairs tol) : 0 < e.1 :=
  (mul_nonneg htol (eigenScale_pos pairs).le).trans_lt
    (of_decide_eq_true (List.mem_filter.1 he).2)

theorem length_of_mem_kept (h : S.Eigenbasis pairs) {e : ℝ × List ℝ} (he : e ∈ kept pairs tol) :
    e.2.length = S.cols :=
  h.length_eq e (List.mem_filter.1 he).1

theorem ofEigenpairs_eq_ok {n : Nat} {sys : LinearSystem ℝ}
    (h : ofEigenpairs n pairs q tol = .ok sys) :
    q.length = n ∧ sys = ⟨rows n (kept pairs tol), rhs q (kept pairs tol)⟩ := by
  unfold ofEigenpairs at h
  dsimp only at h
  repeat' split at h
  all_goals cases h
  all_goals exact ⟨of_not_not ‹_›, rfl⟩

theorem leastEigenvalue_mem {s : ℝ} (h : leastEigenvalue? pairs = some s) :
    ∃ e ∈ pairs, e.1 = s := by
  cases pairs with
  | nil => cases h
  | cons e rest =>
      have hsmaller : ∀ a b : ℝ, Scalar.smaller a b = a ∨ Scalar.smaller a b = b := by
        intro a b
        rw [Scalar.smaller_eq_min]
        exact min_choice a b
      have hmem := Scalar.foldl_mem hsmaller e.1 (rest.map (·.1))
      rw [← List.map_cons (f := fun e : ℝ × List ℝ => e.1)] at hmem
      rw [← Option.some.inj h]
      exact List.mem_map.1 hmem

theorem mulVec_rows {n : Nat} {l : List (ℝ × List ℝ)} (hl : ∀ e ∈ l, e.2.length = n)
    (z : List ℝ) : (rows n l).mulVec z = l.map fun e => Real.sqrt e.1 * Vec.dot e.2 z := by
  rw [Matrix.mulVec, rows, List.map_map]
  refine List.map_congr_left fun e he => ?_
  rw [Function.comp_apply, Vec.fit_eq_self ((Vec.length_scale _ _).trans (hl e he)),
    Vec.dot_scale_left, Scalar.sqrt_real]

/-- With nothing dropped but zeros the squares have the slope of the form. -/
theorem slope_rows (h : S.Eigenbasis pairs) (hsymm : S.transpose = S) (htol : 0 ≤ tol)
    (hexact : Exact S q tol) {z x : List ℝ} (hz : z.length = S.cols) :
    Vec.dot ((rows S.cols (kept pairs tol)).mulVec z)
        (Vec.sub ((rows S.cols (kept pairs tol)).mulVec x) (rhs q (kept pairs tol))) =
      Vec.dot z (Vec.add (S.mulVec x) q) := by
  obtain ⟨u, hu, hq⟩ := hexact.range
  have hlen : (S.mulVec x).length = q.length := by
    rw [hexact.length_eq hsymm, Matrix.length_mulVec]
    exact congrArg Matrix.cols hsymm
  have hsum : (Vec.add (S.mulVec x) q).length = S.cols := by
    rw [Vec.length_add, hlen, min_self, hexact.length_eq hsymm]
  have hterm : ∀ e ∈ pairs, Vec.dot e.2 (Vec.add (S.mulVec x) q) =
      e.1 * Vec.dot e.2 x + Vec.dot e.2 q := by
    intro e he
    rw [Vec.dot_add_right hlen, h.dot_mulVec hsymm he]
  -- What is dropped has the eigenvalue zero, and then the linear term is orthogonal to it.
  have hdropped : ((dropped pairs tol).map fun e =>
      Vec.dot e.2 z * Vec.dot e.2 (Vec.add (S.mulVec x) q)).sum = 0 := by
    refine List.sum_eq_zero fun a ha => ?_
    obtain ⟨e, he, rfl⟩ := List.mem_map.1 ha
    obtain ⟨he, hcut⟩ := List.mem_filter.1 he
    have hzero := (cutoff_lt hexact h he).resolve_right (of_decide_eq_true hcut)
    rw [hterm e he, ← hq, h.dot_mulVec hsymm he, hzero, zero_mul, zero_mul, add_zero, mul_zero]
  have hrows : ∀ e ∈ kept pairs tol, e.2.length = S.cols := fun e he => length_of_mem_kept h he
  rw [← h.sum_dot_mul_dot hz hsum, ← sum_kept_add_sum_dropped pairs tol, hdropped, add_zero,
    mulVec_rows hrows, mulVec_rows hrows, rhs, Vec.sub, List.zipWith_map, List.zipWith_self,
    Vec.dot_map]
  refine congrArg List.sum (List.map_congr_left fun e he => ?_)
  have hpos := pos_of_mem_kept htol he
  have hsqrt := Real.sqrt_pos.2 hpos
  rw [hterm e (List.mem_filter.1 he).1, Scalar.sqrt_real]
  field_simp
  rw [Real.sq_sqrt hpos.le]
  ring

/-- An exact form is not refused. -/
theorem ofEigenpairs_of_exact (h : S.Eigenbasis pairs) (hsymm : S.transpose = S) (htol : 0 ≤ tol)
    (hexact : Exact S q tol) : ∃ sys, ofEigenpairs S.cols pairs q tol = .ok sys := by
  have hsquare : S.height = S.cols := congrArg Matrix.cols hsymm
  have hlen := hexact.length_eq hsymm
  have hleast : ∀ s, leastEigenvalue? pairs = some s → ¬s < -(tol * eigenScale pairs) := by
    intro s hs
    obtain ⟨e, he, rfl⟩ := leastEigenvalue_mem hs
    have hcutoff := mul_nonneg htol (eigenScale_pos pairs).le
    rcases cutoff_lt hexact h he with hzero | hpos <;> linarith
  let L := rows S.cols (kept pairs tol)
  let r := rhs q (kept pairs tol)
  have hr : L.height = r.length := by simp [L, r, rhs, rows, Matrix.height]
  -- The squares have the slope of the form at zero, so nothing of the linear term is left over.
  have hleft : Vec.add (L.transpose.mulVec r) q = Vec.zeros S.cols := by
    refine Vec.eq_zeros_of_dot (by simp [hlen, L, rows]) fun z hz => ?_
    have hslope := slope_rows (x := Vec.zeros S.cols) h hsymm htol hexact hz
    rw [Matrix.mulVec_zeros, Matrix.mulVec_zeros, Vec.zeros_add (hlen.trans hsquare.symm),
      Vec.dot_sub_right ((Vec.length_zeros _).trans hr), Vec.dot_zeros_right, zero_sub] at hslope
    rw [Vec.dot_add_right (by simp [hlen, L, rows]), Vec.dot_comm z, Matrix.dot_mulVec_transpose,
      Vec.dot_comm r, ← hslope]
    exact add_neg_cancel _
  have hinside : Vec.norm (Vec.add (L.transpose.mulVec r) q) ≤
      1e-8 * Scalar.larger 1 (Vec.norm q) := by
    have hzero : Vec.norm (Vec.zeros S.cols : List ℝ) = 0 := by
      rw [Vec.norm, Vec.dot_zeros_left, Scalar.sqrt_real, Real.sqrt_zero]
    rw [hleft, hzero, Scalar.larger_eq_max]
    positivity
  unfold ofEigenpairs
  dsimp only
  split
  · split
    · exact absurd ‹_› (hleast _ ‹_›)
    · rw [if_neg (not_not.2 hlen)]
      exact ⟨_, if_neg hinside.not_gt⟩
  · rw [if_neg (not_not.2 hlen)]
    exact ⟨_, if_neg hinside.not_gt⟩

variable {kernels : Kernels ℝ} {P : Matrix ℝ}

theorem ofForm_of_square (hP : P.height = P.cols) : ofForm kernels P q tol =
    ofEigenpairs P.symmetrized.cols (kernels.eigenpairs P.symmetrized) q tol := by
  have hfinite : P.symmetrized.isFinite = true := by simp [Matrix.isFinite]
  rw [ofForm, symmetricPart_of_square hP, ok_bind, hfinite]
  rfl

theorem ofForm_of_exact (he : kernels.ExactEigenpairs) (hP : P.height = P.cols) (htol : 0 ≤ tol)
    (hexact : Exact P.symmetrized q tol) : ∃ sys, ofForm kernels P q tol = .ok sys := by
  have hsymm := P.transpose_symmetrized
  rw [ofForm_of_square hP]
  exact ofEigenpairs_of_exact (he _ hsymm) hsymm htol hexact

end CostFactor

/-! ## Exact kernels for eigenpairs -/

open Classical in
/-- Exact kernels with eigenpairs. -/
noncomputable def Kernels.spectral : Kernels ℝ :=
  { Kernels.exact with
    eigenpairs := fun S => if h : S.transpose = S then (Matrix.exists_eigenbasis h).choose else [] }

theorem Kernels.spectral_leastSquares : Kernels.spectral.ExactLeastSquares :=
  Kernels.exact_leastSquares

theorem Kernels.spectral_eigenpairs : Kernels.spectral.ExactEigenpairs := by
  intro S hS
  rw [Kernels.spectral]
  dsimp only
  rw [dif_pos hS]
  exact (Matrix.exists_eigenbasis hS).choose_spec

end ActiveSet
