import ActiveSet.Proofs.Eigenpairs
import ActiveSet.Proofs.Feasibility
import ActiveSet.Dense.Solve

/-!
# Constraints by matrices

A program by matrices has its constraints as rows: equations, and inequalities from `A_ub` and from
the bounds. A point satisfies the factors of the program exactly if its vector satisfies the rows.
-/

namespace ActiveSet

theorem Tensor.length_parts {t : Tensor ℝ} {m : Nat} {rest : List Nat} (h : t.shape = m :: rest) :
    t.parts.length = m := by
  have hchunks : ∀ (width count : Nat) (l : List ℝ), (chunks width count l).length = count := by
    intro width count
    induction count with
    | zero => exact fun _ => rfl
    | succ count ih => exact fun l => congrArg (· + 1) (ih (l.drop width))
  rw [parts, h, List.length_map, hchunks]

theorem Tensor.checkedVector_eq_ok {t : Tensor ℝ} {name : String} {n : Nat} {v : List ℝ}
    (h : t.checkedVector name (some n) = .ok v) : v = t.data ∧ t.data.length = n := by
  simp only [checkedVector] at h
  split at h
  · cases h
  · split at h
    · cases h
    · rename_i hlen
      exact ⟨(pure_eq_ok.1 h).symm, by simpa using hlen⟩

namespace Dense

/-- The rows of a matrix of constraints, each with its right-hand side. -/
def Rows.pairs {K : Type} (r : Rows K) : List (List K × K) :=
  match r.matrix, r.rhs with
  | some A, some b => (A.parts.map (·.data)).zip b
  | _, _ => []

namespace Program

/-- All inequalities as rows with what they must not exceed. -/
noncomputable def limits (p : Program ℝ) : List (List ℝ × ℝ) :=
  p.atMost.pairs ++ (present p.upper).map (fun e => (Vec.unit p.n e.2, e.1)) ++
    (present p.lower).map fun e => (Vec.neg (Vec.unit p.n e.2), -e.1)

/-- The same rows with the names of their multipliers. -/
noncomputable def named (p : Program ℝ) : List ((List ℝ × ℝ) × Key) :=
  p.atMost.pairs.zipIdx.map (fun e => (e.1, .dual "ub" e.2)) ++
    (present p.upper).map (fun e => ((Vec.unit p.n e.2, e.1), .dual "upper" e.2)) ++
    (present p.lower).map fun e => ((Vec.neg (Vec.unit p.n e.2), -e.1), .dual "lower" e.2)

/-- A vector violates no equation, no row of `A_ub` and no bound by more than `tol`. -/
structure SatisfiedWithin (p : Program ℝ) (tol : ℝ) (x : List ℝ) : Prop where
  length_eq : x.length = p.n
  equal : ∀ e ∈ p.equal.pairs, |Vec.dot e.1 x - e.2| ≤ tol
  atMost : ∀ e ∈ p.atMost.pairs, Vec.dot e.1 x ≤ e.2 + tol
  upper : ∀ i b, p.upper[i]? = some (some b) → x.getD i 0 ≤ b + tol
  lower : ∀ i b, p.lower[i]? = some (some b) → b - tol ≤ x.getD i 0

/-- What reading guarantees about the sizes of the parts. -/
structure Shaped (p : Program ℝ) : Prop where
  length_c : p.c.length = p.n
  hessian : ∀ P, p.hessian = some P → P.height = p.n ∧ P.cols = p.n
  equal : ∀ A, p.equal.matrix = some A → ∃ m rest, A.shape = m :: p.n :: rest

variable {p : Program ℝ} {tol : ℝ} {x : List ℝ}

theorem mem_present {bounds : List (Option ℝ)} {e : ℝ × Nat} :
    e ∈ present bounds ↔ bounds[e.2]? = some (some e.1) := by
  obtain ⟨b, i⟩ := e
  simp only [present, List.mem_filterMap, Prod.exists, List.mem_zipIdx_iff_getElem?,
    Option.map_eq_some_iff, Prod.mk.injEq]
  constructor
  · rintro ⟨o, j, ho, b', rfl, rfl, rfl⟩
    exact ho
  · intro h
    exact ⟨_, _, h, b, rfl, rfl, rfl⟩

theorem forall_mem_limits {φ : List ℝ × ℝ → Prop} : (∀ e ∈ p.limits, φ e) ↔
    (∀ e ∈ p.atMost.pairs, φ e) ∧
      (∀ i b, p.upper[i]? = some (some b) → φ (Vec.unit p.n i, b)) ∧
      ∀ i b, p.lower[i]? = some (some b) → φ (Vec.neg (Vec.unit p.n i), -b) := by
  have hpresent : ∀ {bounds : List (Option ℝ)} {ψ : ℝ × Nat → Prop},
      (∀ e ∈ present bounds, ψ e) ↔ ∀ i b, bounds[i]? = some (some b) → ψ (b, i) := by
    intro bounds ψ
    constructor
    · exact fun h i b hb => h (b, i) (mem_present.2 hb)
    · exact fun h e he => h e.2 e.1 (mem_present.1 he)
  simp only [limits, List.forall_mem_append, List.forall_mem_map, hpresent, and_assoc]

theorem satisfiedWithin_iff : p.SatisfiedWithin tol x ↔ x.length = p.n ∧
    (∀ e ∈ p.equal.pairs, |Vec.dot e.1 x - e.2| ≤ tol) ∧
      ∀ e ∈ p.limits, Vec.dot e.1 x ≤ e.2 + tol := by
  have hlimits : x.length = p.n → ((∀ e ∈ p.limits, Vec.dot e.1 x ≤ e.2 + tol) ↔
      (∀ e ∈ p.atMost.pairs, Vec.dot e.1 x ≤ e.2 + tol) ∧
        (∀ i b, p.upper[i]? = some (some b) → x.getD i 0 ≤ b + tol) ∧
        ∀ i b, p.lower[i]? = some (some b) → b - tol ≤ x.getD i 0) := by
    intro hlen
    have hlower : ∀ i b, Vec.dot (Vec.neg (Vec.unit p.n i)) x ≤ -b + tol ↔ b - tol ≤ x.getD i 0 := by
      intro i b
      rw [Vec.dot_neg_left, Vec.dot_unit_of_length hlen]
      constructor <;> intro h <;> linarith
    simp only [forall_mem_limits, Vec.dot_unit_of_length hlen, hlower]
  constructor
  · intro h
    exact ⟨h.length_eq, h.equal, (hlimits h.length_eq).2 ⟨h.atMost, h.upper, h.lower⟩⟩
  · rintro ⟨hlen, hequal, hlimit⟩
    obtain ⟨hatMost, hupper, hlower⟩ := (hlimits hlen).1 hlimit
    exact ⟨hlen, hequal, hatMost, hupper, hlower⟩

/-! ## Factors of the rows -/

/-- A factor over the only variable with the given row and bound. -/
structure Reads (f : Inequality ℝ) (e : List ℝ × ℝ) : Prop where
  entries_eq : f.terms.entries = [(variableKey, e.1)]
  bound_eq : f.bound = e.2

theorem Reads.value_eq {f : Inequality ℝ} {e : List ℝ × ℝ} (h : Reads f e) (x : Point ℝ) :
    f.value x = Vec.dot e.1 (x.part variableKey) :=
  Inequality.value_of_singleton h.entries_eq x

/-- Moreover, its multiplier has the given name. -/
structure ReadsNamed (f : Inequality ℝ) (e : (List ℝ × ℝ) × Key) : Prop extends Reads f e.1 where
  dual_eq : f.dual = e.2

private theorem reads_of_single {row : List ℝ} {bound : ℝ} {dual : Key} {f : Inequality ℝ}
    (h : single row bound dual = .ok f) : ReadsNamed f ((row, bound), dual) := by
  unfold single Inequality.make at h
  split at h
  · cases h
  · rw [← Except.ok.inj h]
    exact ⟨⟨Keyed.entries_ofList (List.nodup_singleton _), rfl⟩, rfl⟩

private theorem paired_eq_ok {r : Rows ℝ} {vector matrix : String} {o : Option (Tensor ℝ × List ℝ)}
    (h : Rows.paired r vector matrix = .ok o) : (o = none ∧ r.matrix = none ∧ r.pairs = []) ∨
      ∃ A b, o = some (A, b) ∧ r.matrix = some A ∧ A.shape.head? = some b.length ∧
        r.pairs = (A.parts.map (·.data)).zip b := by
  unfold Rows.paired at h
  cases hA : r.matrix with
  | none =>
      rw [hA] at h
      exact .inl ⟨(Except.ok.inj h).symm, rfl, by rw [Rows.pairs, hA]⟩
  | some A =>
      cases hb : r.rhs with
      | none =>
          rw [hA, hb] at h
          cases h
      | some b =>
          rw [hA, hb] at h
          dsimp only at h
          split at h
          · exact .inr ⟨A, b, (Except.ok.inj h).symm, rfl, ‹_›, by rw [Rows.pairs, hA, hb]⟩
          · cases h

private theorem height_of_paired {r : Rows ℝ} {vector matrix : String}
    {o : Option (Tensor ℝ × List ℝ)} (h : Rows.paired r vector matrix = .ok o) :
    height r = r.pairs.length := by
  rcases paired_eq_ok h with ⟨_, hmatrix, hpairs⟩ | ⟨A, b, _, hmatrix, hlength, hpairs⟩
  · rw [hpairs, height, hmatrix]
    rfl
  · obtain ⟨m, rest, hshape⟩ : ∃ m rest, A.shape = m :: rest := by
      cases hA : A.shape with
      | nil =>
          rw [hA] at hlength
          cases hlength
      | cons m rest => exact ⟨m, rest, rfl⟩
    rw [hshape] at hlength
    rw [hpairs, List.length_zip, List.length_map, A.length_parts hshape,
      ← Option.some.inj hlength, min_self, height, hmatrix, Option.bind_some, hshape]
    rfl

private theorem readRow_eq_ok {k : Key} {a : Tensor ℝ} {row : List ℝ}
    (h : Inequality.readRow k a = .ok row) : row = a.data := by
  unfold Inequality.readRow at h
  split at h
  · exact (Except.ok.inj h).symm
  · exact (Except.ok.inj h).symm
  · exact (Except.ok.inj h).symm
  · cases h

private theorem rowInequalities_eq_ok {fs : List (Inequality ℝ)} (h : p.rowInequalities = .ok fs) :
    List.Forall₂ ReadsNamed fs
      (p.atMost.pairs.zipIdx.map fun e => (e.1, .dual "ub" e.2)) := by
  obtain ⟨o, ho, h⟩ := bind_eq_ok.1 h
  rcases paired_eq_ok ho with ⟨rfl, _, hpairs⟩ | ⟨A, b, rfl, _, _, hpairs⟩
  · obtain rfl := pure_eq_ok.1 h
    rw [hpairs]
    exact .nil
  · have hread := mapM_eq_ok.1 h
    rw [hpairs, List.zip_map_left, List.zipIdx_map, List.map_map, List.forall₂_map_right_iff]
    refine List.Forall₂.flip (hread.imp fun e f he => ?_)
    obtain ⟨row, hrow, hf⟩ := bind_eq_ok.1 he
    rw [readRow_eq_ok hrow] at hf
    exact reads_of_single hf

theorem height_of_inequalities {fs : List (Inequality ℝ)} (h : p.inequalities = .ok fs) :
    height p.atMost = p.atMost.pairs.length := by
  obtain ⟨_, hrows, _⟩ := bind_eq_ok.1 h
  obtain ⟨_, ho, _⟩ := bind_eq_ok.1 hrows
  exact height_of_paired ho

theorem height_of_equalities {es : List (Equality ℝ)} (h : p.equalities = .ok es) :
    height p.equal = p.equal.pairs.length := by
  obtain ⟨_, ho, _⟩ := bind_eq_ok.1 h
  exact height_of_paired ho

theorem named_of_inequalities {fs : List (Inequality ℝ)} (h : p.inequalities = .ok fs) :
    List.Forall₂ ReadsNamed fs p.named := by
  simp only [inequalities, bind_eq_ok, pure_eq_ok] at h
  obtain ⟨rows, hrows, upper, hupper, lower, hlower, rfl⟩ := h
  have hbounds : ∀ {l : List (ℝ × Nat)} {gs : List (Inequality ℝ)} {row : ℝ × Nat → List ℝ}
      {bound : ℝ × Nat → ℝ} {dual : ℝ × Nat → Key},
      (l.mapM fun e => single (row e) (bound e) (dual e)) = .ok gs →
        List.Forall₂ ReadsNamed gs (l.map fun e => ((row e, bound e), dual e)) := by
    intro l gs row bound dual hgs
    rw [List.forall₂_map_right_iff]
    exact List.Forall₂.flip ((mapM_eq_ok.1 hgs).imp fun _ _ => reads_of_single)
  exact List.rel_append (List.rel_append (rowInequalities_eq_ok hrows) (hbounds hupper))
    (hbounds hlower)

theorem map_fst_named (p : Program ℝ) : p.named.map Prod.fst = p.limits := by
  have hrows : (p.atMost.pairs.zipIdx.map fun e => (e.1, Key.dual "ub" e.2)).map Prod.fst =
      p.atMost.pairs := by
    rw [List.map_map]
    exact List.zipIdx_map_fst ..
  rw [named, List.map_append, List.map_append, hrows, List.map_map, List.map_map]
  rfl

theorem inequalities_eq_ok {fs : List (Inequality ℝ)} (h : p.inequalities = .ok fs) :
    List.Forall₂ Reads fs p.limits := by
  rw [← map_fst_named, List.forall₂_map_right_iff]
  exact (named_of_inequalities h).imp fun _ _ hf => hf.toReads

/-- A factor over the only variable whose rows are the given equations. -/
structure Equates (f : Equality ℝ) (A : Matrix ℝ) (es : List (List ℝ × ℝ)) : Prop where
  entries_eq : f.terms.entries = [(variableKey, A)]
  rows_eq : A.rows = es.map (·.1)
  b_eq : f.b = es.map (·.2)
  dual_eq : f.dual = .dual "eq" 0

theorem Equates.defect_eq {f : Equality ℝ} {A : Matrix ℝ} {es : List (List ℝ × ℝ)}
    (h : Equates f A es) (x : Point ℝ) :
    f.toFactor.defect x = es.map fun e => Vec.dot e.1 (x.part variableKey) - e.2 := by
  have hvalues : f.toFactor.values x = es.map fun e => Vec.dot e.1 (x.part variableKey) := by
    rw [Factor.values_of_singleton h.entries_eq, Matrix.mulVec, h.rows_eq, List.map_map]
    rfl
  rw [Factor.defect, hvalues, h.b_eq, Vec.sub, List.zipWith_map, List.zipWith_self]

theorem toBlock_rows {A : Tensor ℝ} {m n : Nat} {rest : List Nat} {block : Matrix ℝ}
    (hshape : A.shape = m :: n :: rest) (h : A.toBlock = .ok block) :
    block.rows = A.parts.map (·.data) ∧ block.cols = n := by
  unfold Tensor.toBlock at h
  rw [hshape] at h
  cases rest with
  | nil =>
      dsimp only at h
      split at h
      · rename_i B hB
        unfold Matrix.ofRows? at hB
        split at hB
        · rw [← Except.ok.inj h, ← Option.some.inj hB]
          refine ⟨?_, rfl⟩
          simp [Tensor.parts, hshape, Tensor.entryCount, Function.comp_def]
        · cases hB
      · cases h
  | cons => cases h

theorem equalities_eq_ok
    (hp : ∀ A, p.equal.matrix = some A → ∃ m rest, A.shape = m :: p.n :: rest)
    {es : List (Equality ℝ)} (h : p.equalities = .ok es) :
    (es = [] ∧ p.equal.pairs = []) ∨ ∃ f A, es = [f] ∧ Equates f A p.equal.pairs := by
  obtain ⟨o, ho, h⟩ := bind_eq_ok.1 h
  rcases paired_eq_ok ho with ⟨rfl, _, hpairs⟩ | ⟨A, b, rfl, hmatrix, hlength, hpairs⟩
  · exact .inl ⟨(pure_eq_ok.1 h).symm, hpairs⟩
  · simp only [bind_eq_ok, pure_eq_ok, Factor.readBlock] at h
    obtain ⟨block, ⟨B, hB, hblock⟩, f, hf, rfl⟩ := h
    obtain ⟨hterms, hb⟩ := Factor.make_eq_ok hf
    obtain ⟨m, rest, hshape⟩ := hp A hmatrix
    split at hblock
    · obtain rfl := pure_eq_ok.1 hblock
      obtain ⟨hrows, _⟩ := toBlock_rows hshape hB
      have hsame : (A.parts.map (·.data)).length = b.length := by
        rw [← hrows]
        assumption
      refine .inr ⟨_, B, rfl, ?_, ?_, ?_, rfl⟩
      · change f.terms.entries = _
        rw [hterms, Keyed.entries_ofList (by simp)]
      · rw [hrows, hpairs, List.map_fst_zip hsame.le]
      · change f.b = _
        rw [hb, hpairs, List.map_snd_zip hsame.ge]
    · cases hblock

/-! ## The program over factors -/

variable {kernels : Kernels ℝ} {q : Problem ℝ} {settings : Settings ℝ} {s : Solver ℝ}

theorem problem_eq_ok (h : p.problem kernels = .ok q) : p.cost kernels = .ok q.cost ∧
    p.equalities = .ok q.equalities ∧ p.inequalities = .ok q.inequalities := by
  simp only [problem, bind_eq_ok, pure_eq_ok] at h
  obtain ⟨cost, hcost, es, hes, fs, hfs, rfl⟩ := h
  exact ⟨hcost, hes, hfs⟩

private theorem cols_ofForm {P : Matrix ℝ} (hsquare : P.height = P.cols) {c : List ℝ} {tol : ℝ}
    {sys : LinearSystem ℝ} (h : CostFactor.ofForm kernels P c tol = .ok sys) :
    sys.matrix.cols = P.cols := by
  rw [CostFactor.ofForm_of_square hsquare] at h
  rw [(CostFactor.ofEigenpairs_eq_ok h).2]
  rfl

theorem cols_squares {P : Matrix ℝ} (hheight : P.height = p.n) (hcols : P.cols = p.n)
    {f : Factor ℝ} (h : p.squares kernels P = .ok f) :
    ∃ A, f.terms.entries = [(variableKey, A)] ∧ A.cols = p.n := by
  obtain ⟨sys, hsys, h⟩ := bind_eq_ok.1 h
  have hterms := (Factor.make_eq_ok h).1
  refine ⟨_, by rw [hterms, Keyed.entries_ofList (by simp)], ?_⟩
  split
  · rfl
  · exact (cols_ofForm (hheight.trans hcols.symm) hsys).trans hcols

/-! ### The gradient -/

/-- The matrix of the quadratic form: the symmetric part of the Hessian, and zero without one. -/
noncomputable def form (p : Program ℝ) : Matrix ℝ :=
  match p.hessian with
  | some P => P.symmetrized
  | none => .zero p.n p.n

section Gradient

variable {y : Point ℝ}

/-- An exact form is not refused. -/
theorem exists_squares (he : kernels.ExactEigenpairs) {P : Matrix ℝ} (hheight : P.height = p.n)
    (hcols : P.cols = p.n) (hexact : CostFactor.Exact P.symmetrized p.c 1e-10) :
    ∃ f, p.squares kernels P = .ok f := by
  have hsquare := hheight.trans hcols.symm
  obtain ⟨sys, hsys⟩ := CostFactor.ofForm_of_exact he hsquare (by norm_num) hexact
  have hrows := hsys
  rw [CostFactor.ofForm_of_square hsquare] at hrows
  obtain ⟨_, rfl⟩ := CostFactor.ofEigenpairs_eq_ok hrows
  rw [squares, hsys, ok_bind]
  refine ⟨_, Factor.make_ok ?_⟩
  rw [Keyed.entries_ofList (by simp)]
  refine List.forall_mem_singleton.2 ?_
  split
  · rfl
  · simp [CostFactor.rows, CostFactor.rhs, Matrix.height]

private theorem slope_squares (he : kernels.ExactEigenpairs) {P : Matrix ℝ}
    (hsquare : P.height = p.n ∧ P.cols = p.n)
    (hexact : CostFactor.Exact P.symmetrized p.c 1e-10) {f : Factor ℝ}
    (hf : p.squares kernels P = .ok f) {z : Point ℝ} (hz : (z.part variableKey).length = p.n) :
    Vec.dot (f.values z) (f.defect y) = Vec.dot (z.part variableKey)
      (Vec.add (P.symmetrized.mulVec (y.part variableKey)) p.c) := by
  obtain ⟨hheight, hcols⟩ := hsquare
  obtain ⟨sys, hsys, hf⟩ := bind_eq_ok.1 hf
  rw [CostFactor.ofForm_of_square (hheight.trans hcols.symm)] at hsys
  have hsymm := P.transpose_symmetrized
  obtain ⟨_, rfl⟩ := CostFactor.ofEigenpairs_eq_ok hsys
  have hslope := CostFactor.slope_rows (x := y.part variableKey) (he _ hsymm) hsymm (by norm_num)
    hexact (hz.trans hcols.symm)
  obtain ⟨hterms, hb⟩ := Factor.make_eq_ok hf
  have hvalues := fun u => Factor.values_of_singleton (f := f) (by rw [hterms]; rfl) u
  rw [Factor.defect, hvalues, hvalues, hb, ← hslope]
  -- Without any square the factor is the equation `0 = 0`, whose slope is zero as well.
  split
  · rename_i hnone
    rw [Matrix.mulVec_zero, Vec.dot_zeros_left, List.length_eq_zero_iff.1
      ((Matrix.length_mulVec ..).trans hnone), Vec.dot_nil_left]
  · rfl

theorem height_form (hp : p.Shaped) : p.form.height = p.n := by
  unfold form
  cases hP : p.hessian with
  | none => exact List.length_replicate
  | some P => simp [Matrix.height, Matrix.symmetrized, (hp.hessian P hP).2]

/-- The slope of the solver's objective is the gradient of the form. -/
theorem slope_eq (he : kernels.ExactEigenpairs) (hp : p.Shaped)
    (hexact : ∀ P, p.hessian = some P → CostFactor.Exact P.symmetrized p.c 1e-10)
    (hq : p.problem kernels = .ok q) (hs : Solver.ofProblem settings q = .ok s)
    {z : Point ℝ} (hz : (z.part variableKey).length = p.n) :
    s.slope y z = Vec.dot (z.part variableKey)
      (Vec.add (p.form.mulVec (y.part variableKey)) p.c) := by
  obtain ⟨hcost, _, _⟩ := problem_eq_ok hq
  unfold cost at hcost
  unfold form
  cases hP : p.hessian with
  | none =>
      rw [hP] at hcost
      have hlinear := (pure_eq_ok.1 hcost).symm
      rw [Solver.slope, (Solver.madeFrom_ofProblem hs).linear_eq _ hlinear]
      have hentries : (Keyed.ofList [(variableKey, p.c)]).entries = [(variableKey, p.c)] := rfl
      dsimp only
      rw [hentries, List.map_singleton, List.sum_singleton, Matrix.mulVec_zero,
        Vec.zeros_add hp.length_c, Vec.dot_comm]
  | some P =>
      rw [hP] at hcost
      obtain ⟨f, hf, hcost⟩ := bind_eq_ok.1 hcost
      have hquadratic := (pure_eq_ok.1 hcost).symm
      rw [Solver.slope, Solver.objective_of_quadratic hquadratic hs,
        Solver.cost_of_quadratic hquadratic hs]
      dsimp only
      rw [List.map_singleton, List.sum_singleton]
      exact slope_squares he (hp.hessian P hP) (hexact P hP) hf hz

end Gradient

/-- The only variable of the solver is the vector of the program. -/
theorem lookup_dims (hp : p.Shaped) (hq : p.problem kernels = .ok q)
    (hs : Solver.ofProblem settings q = .ok s) : s.dims.lookup variableKey = some p.n := by
  obtain ⟨hcost, _, _⟩ := problem_eq_ok hq
  have hmade := Solver.madeFrom_ofProblem hs
  unfold cost at hcost
  cases hP : p.hessian with
  | none =>
      rw [hP] at hcost
      have hlinear := (pure_eq_ok.1 hcost).symm
      have hlookup : (Keyed.ofList [(variableKey, p.c)]).lookup variableKey = some p.c :=
        (Keyed.lookup_ofList (by simp)).2 (List.mem_singleton_self _)
      rw [hmade.wellFormed.length_vector (hmade.linear_eq _ hlinear) hlookup, hp.length_c]
  | some P =>
      rw [hP] at hcost
      obtain ⟨f, hf, hcost⟩ := bind_eq_ok.1 hcost
      have hquadratic := (pure_eq_ok.1 hcost).symm
      obtain ⟨hheight, hcols⟩ := hp.hessian P hP
      obtain ⟨A, hentries, hA⟩ := cols_squares hheight hcols hf
      have hover := hmade.wellFormed.over_cost
      rw [Solver.cost_of_quadratic hquadratic hs] at hover
      have hmem := hover f (.head _) (variableKey, A) (hentries ▸ List.mem_singleton_self _)
      rw [← hA]
      exact (Keyed.lookup_iff _).2 hmem

/-- The vector of the program fits every inequality of the solver. -/
theorem fits_inequality (hp : p.Shaped) (hq : p.problem kernels = .ok q)
    (hs : Solver.ofProblem settings q = .ok s) {z : Point ℝ} (hz : z.lookup variableKey = some x)
    (hx : x.length = p.n) {f : Inequality ℝ} (hf : f ∈ q.inequalities) {e : List ℝ × ℝ}
    (he : Reads f e) : f.Fits z := by
  have hover := (Solver.madeFrom_ofProblem hs).over_inequality hf (variableKey, .ofRow e.1)
    (List.mem_map_of_mem (f := fun t : Key × List ℝ => (t.1, Matrix.ofRow t.2))
      (he.entries_eq ▸ List.mem_singleton_self _))
  have hdim := Option.some.inj ((lookup_dims hp hq hs).symm.trans ((Keyed.lookup_iff _).2 hover))
  exact Inequality.fits_of_singleton he.entries_eq hz (hx.trans hdim)

theorem fits_equality (hp : p.Shaped) (hq : p.problem kernels = .ok q)
    (hs : Solver.ofProblem settings q = .ok s) {z : Point ℝ} (hz : z.lookup variableKey = some x)
    (hx : x.length = p.n) {f : Equality ℝ} (hf : f ∈ q.equalities) {A : Matrix ℝ}
    {es : List (List ℝ × ℝ)} (he : Equates f A es) : f.toFactor.Fits z := by
  have hover := (Solver.madeFrom_ofProblem hs).over_equality hf (variableKey, A)
    (he.entries_eq ▸ List.mem_singleton_self _)
  have hdim := Option.some.inj ((lookup_dims hp hq hs).symm.trans ((Keyed.lookup_iff _).2 hover))
  exact Factor.fits_of_singleton he.entries_eq hz (hx.trans hdim)

theorem excess_eq_ok (hp : p.Shaped) (hq : p.problem kernels = .ok q)
    (hs : Solver.ofProblem settings q = .ok s) {z : Point ℝ} (hz : z.lookup variableKey = some x)
    (hx : x.length = p.n) {f : Inequality ℝ} (hf : f ∈ q.inequalities) {e : List ℝ × ℝ}
    (he : Reads f e) : f.excess z = .ok (Vec.dot e.1 x - e.2) := by
  refine f.excess_eq_ok.2 ⟨fits_inequality hp hq hs hz hx hf he, ?_⟩
  rw [he.value_eq, he.bound_eq, Point.part_of_lookup hz]

/-- Where a point fits the factors, they hold at it exactly if the rows hold at its vector. -/
theorem feasibleWithin_iff_of_fits {z : Point ℝ} (hz : z.part variableKey = x) (hx : x.length = p.n)
    (hes : (q.equalities = [] ∧ p.equal.pairs = []) ∨
      ∃ f A, q.equalities = [f] ∧ Equates f A p.equal.pairs)
    (hfs : List.Forall₂ Reads q.inequalities p.limits)
    (hequal : ∀ f ∈ q.equalities, f.toFactor.Fits z) (hineq : ∀ f ∈ q.inequalities, f.Fits z) :
    q.FeasibleWithin tol z ↔ p.SatisfiedWithin tol x := by
  have hequations : (∀ f ∈ q.equalities, ∀ a ∈ f.toFactor.defect z, |a| ≤ tol) ↔
      ∀ e ∈ p.equal.pairs, |Vec.dot e.1 x - e.2| ≤ tol := by
    rcases hes with ⟨hnil, hpairs⟩ | ⟨f, A, hf, hequates⟩
    · simp [hnil, hpairs]
    · rw [hf, List.forall_mem_singleton, hequates.defect_eq, List.forall_mem_map, hz]
  have hlimits : (∀ f ∈ q.inequalities, f.value z - f.bound ≤ tol) ↔
      ∀ e ∈ p.limits, Vec.dot e.1 x ≤ e.2 + tol := by
    refine forall_mem_iff_of_forall₂ hfs fun f e hread => ?_
    rw [hread.value_eq, hread.bound_eq, hz, sub_le_iff_le_add']
  rw [satisfiedWithin_iff, and_iff_right hx, ← hequations, ← hlimits]
  constructor
  · intro h
    exact ⟨fun f hf => (Equality.holds_within_iff.1 (h.equalities f hf)).2,
      fun f hf => (Inequality.holds_iff.1 (h.inequalities f hf)).2⟩
  · rintro ⟨hdefect, hvalue⟩
    exact ⟨fun f hf => Equality.holds_within_iff.2 ⟨hequal f hf, hdefect f hf⟩,
      fun f hf => Inequality.holds_iff.2 ⟨hineq f hf, hvalue f hf⟩⟩

theorem feasibleWithin_iff (hp : p.Shaped) (hq : p.problem kernels = .ok q)
    (hs : Solver.ofProblem settings q = .ok s) {z : Point ℝ} (hz : z.lookup variableKey = some x)
    (hx : x.length = p.n) : q.FeasibleWithin tol z ↔ p.SatisfiedWithin tol x := by
  obtain ⟨_, hes, hfs⟩ := problem_eq_ok hq
  have hreads := inequalities_eq_ok hfs
  have hequates := equalities_eq_ok hp.equal hes
  refine feasibleWithin_iff_of_fits (Point.part_of_lookup hz) hx hequates hreads ?_ ?_
  · intro f hf
    rcases hequates with ⟨hnil, _⟩ | ⟨g, A, hg, hequates⟩
    · rw [hnil] at hf
      cases hf
    · have hmem := hf
      rw [hg] at hmem
      obtain rfl := List.mem_singleton.1 hmem
      exact fits_equality hp hq hs hz hx hf hequates
  · intro f hf
    obtain ⟨e, _, hread⟩ := exists_of_mem_left hreads hf
    exact fits_inequality hp hq hs hz hx hf hread

end Program

/-! ## Reading -/

namespace Arguments

variable {a : Arguments ℝ} {p : Program ℝ}

private theorem checkedMatrix_eq_ok {t A : Tensor ℝ} {n : Nat} {name : String}
    (h : t.checkedMatrix n name = .ok A) : ∃ m rest, A.shape = m :: n :: rest := by
  simp only [Tensor.checkedMatrix] at h
  split at h
  · rename_i m columns rest hshape
    split at h
    · cases h
    · rename_i hcols
      split at h
      · cases h
      · rw [← pure_eq_ok.1 h]
        refine ⟨m, rest, ?_⟩
        rw [hshape]
        simpa using hcols
  · cases h

private theorem readHessian_eq_ok {t : Tensor ℝ} {n : Nat} {P : Matrix ℝ}
    (h : readHessian t n = .ok P) : P.height = n ∧ P.cols = n := by
  obtain ⟨A, _, h⟩ := bind_eq_ok.1 h
  split at h
  · rename_i hshape
    obtain ⟨hrows, hcols⟩ := Program.toBlock_rows hshape h
    refine ⟨?_, hcols⟩
    rw [Matrix.height, hrows, List.length_map]
    exact A.length_parts hshape
  · cases h

private theorem shaped_of_parts {p : Program ℝ} (hc : p.c.length = p.n)
    (haEq : readMatrix a.aEq "A_eq" p.n = .ok p.equal.matrix)
    (hhessian : a.P.mapM (readHessian · p.n) = .ok p.hessian) : p.Shaped := by
  refine ⟨hc, fun P hP => ?_, fun A hA => ?_⟩
  · rw [hP] at hhessian
    obtain ⟨t, _, ht⟩ := exists_of_mapM_eq_some hhessian
    exact readHessian_eq_ok ht
  · rw [hA] at haEq
    obtain ⟨t, _, ht⟩ := exists_of_mapM_eq_some haEq
    exact checkedMatrix_eq_ok ht

theorem shaped_of_read (h : a.read = .ok p) : p.Shaped := by
  obtain ⟨n, _, h⟩ := bind_eq_ok.1 h
  split at h <;> simp only [bind_eq_ok, pure_eq_ok] at h <;>
    obtain ⟨c, hc, bEq, _, bUb, _, lower, _, upper, _, aEq, haEq, aUb, _, hessian, hhessian, rfl⟩ := h
  · obtain ⟨rfl, hlen⟩ := Tensor.checkedVector_eq_ok hc
    exact shaped_of_parts hlen haEq hhessian
  · exact shaped_of_parts (by rw [← hc, Vec.length_zeros]) haEq hhessian

end Arguments

end Dense

end ActiveSet
