import ActiveSet.Optimize
import ActiveSet.Proofs.KeyIndexes
import ActiveSet.Proofs.ScalarOrder

/-!
# Two tests of feasibility

A solver refuses a start by the largest violation of all constraints, a program accepts a point if each
constraint holds within the tolerance. Over any ordered scalars the tests agree as long as no constraint
measures a NaN, and where one does the solver may accept what the program does not.
-/

namespace ActiveSet

/-! ## Tolerances -/

def Solver.withTolerance {K : Type} (s : Solver K) (tol : K) : Solver K :=
  { s with settings := { s.settings with feasibilityTolerance := tol } }

theorem Solver.Copies.withTolerance {K : Type} {s : Solver K} {settings : Settings K}
    {p : Problem K} (hs : s.Copies settings p) (tol : K) :
    (s.withTolerance tol).Copies { settings with feasibilityTolerance := tol } p where
  settings_eq := by rw [← hs.settings_eq]; rfl
  equalities_eq := hs.equalities_eq
  inequalities_eq := hs.inequalities_eq
  costIndex_eq := hs.costIndex_eq
  equalityIndex_eq := hs.equalityIndex_eq
  inequalityIndex_eq := hs.inequalityIndex_eq

/-! ## What constraints measure -/

variable {K : Type} [Scalar K]

/-- The vectors of a point have the dimensions that the constraints ask for. -/
structure Problem.Conformable (p : Problem K) (x : Point K) : Prop where
  equalities : ∀ f ∈ p.equalities, ∀ e ∈ f.terms.entries, ∀ v, x.lookup e.1 = some v →
    v.length = e.2.cols
  inequalities : ∀ f ∈ p.inequalities, ∀ e ∈ f.terms.entries, ∀ v, x.lookup e.1 = some v →
    v.length = e.2.length

theorem Factor.residual_ok {f : Factor K} {x : Point K}
    (h : ∀ e ∈ f.terms.entries, ∀ v, x.lookup e.1 = some v → v.length = e.2.cols) :
    ∃ r, f.residual x = .ok r ∧ r.length = f.rows := by
  obtain ⟨y, hy, hlength⟩ : ∃ y, f.product x = .ok y ∧ y.length = f.rows := by
    refine foldlM_ok (fun e he acc hacc => ?_) (Vec.length_zeros _)
    unfold addProduct
    cases hv : x.lookup e.1 with
    | none => exact ⟨acc, rfl, hacc⟩
    | some v =>
        refine ⟨_, if_pos (h e he v hv), ?_⟩
        rw [Vec.length_add, Matrix.length_mulVec, hacc, f.rows_eq e he]
        exact min_self _
  refine ⟨Vec.sub y f.b, by rw [residual, hy]; rfl, ?_⟩
  rw [Vec.length_sub, hlength]
  exact min_self _

theorem Inequality.excess_ok {f : Inequality K} {x : Point K}
    (h : ∀ e ∈ f.terms.entries, ∀ v, x.lookup e.1 = some v → v.length = e.2.length) :
    ∃ a, f.excess x = .ok a := by
  obtain ⟨y, hy, -⟩ : ∃ y, f.product x = .ok y ∧ True := by
    refine foldlM_ok (fun e he acc _ => ?_) trivial
    unfold addProduct
    cases hv : x.lookup e.1 with
    | none => exact ⟨acc, rfl, trivial⟩
    | some v => exact ⟨_, if_pos (h e he v hv), trivial⟩
  exact ⟨y - f.bound, by rw [excess, hy]; rfl⟩

/-- The greatest absolute entry, zero without entries. -/
def Scalar.greatestAbs (r : List K) : K :=
  match r.map Scalar.abs with
  | [] => 0
  | a :: l => greatestFrom a l

/-- The largest of the greatest absolute entries of residuals, the first of them that nothing exceeds. -/
def Equality.worst (residuals : List (List K)) : K :=
  match residuals.map Scalar.greatestAbs with
  | [] => 0
  | a :: l => l.foldl Scalar.larger a

/-- The largest of the violations of equalities and the positive parts of excesses. -/
def Solver.worst (violation : K) (excesses : List K) : K :=
  Scalar.larger violation (Scalar.greatestFrom 0 (excesses.map (Scalar.larger · 0)))

theorem Equality.largestResidual_eq {f : Equality K} {x : Point K} {r : List K}
    (h : f.toFactor.residual x = .ok r) (hne : r ≠ []) :
    f.largestResidual x = .ok (Scalar.greatestAbs r) := by
  rw [largestResidual, h, ok_bind, Scalar.greatestAbs]
  cases r with
  | nil => exact absurd rfl hne
  | cons a l => rfl

theorem Equality.violation_eq {es : List (Equality K)} {x : Point K} {residuals : List (List K)}
    (h : es.mapM (fun f => f.toFactor.residual x) = .ok residuals) (hne : ∀ r ∈ residuals, r ≠ []) :
    violation es x = .ok (worst residuals) := by
  have hlargest : es.mapM (fun f => f.largestResidual x) = .ok (residuals.map Scalar.greatestAbs) := by
    rw [mapM_eq_ok] at h ⊢
    induction h with
    | nil => exact .nil
    | cons hf _ ih =>
        obtain ⟨hr, hne⟩ := List.forall_mem_cons.1 hne
        exact .cons (largestResidual_eq hf hr) (ih hne)
  rw [violation, hlargest, ok_bind, worst]
  cases residuals.map Scalar.greatestAbs <;> rfl

theorem Inequality.allSatisfied_eq {fs : List (Inequality K)} {x : Point K} {excesses : List K}
    (h : fs.mapM (fun f => f.excess x) = .ok excesses) (tol : K) :
    allSatisfied fs x tol = .ok (excesses.all (· ≤ tol)) := by
  rw [mapM_eq_ok] at h
  induction h with
  | nil => rfl
  | @cons f a fs excesses hf _ ih =>
      have hholds : f.isSatisfied x tol = .ok (decide (a ≤ tol)) := by rw [isSatisfied, hf]; rfl
      rw [allSatisfied, List.allM, hholds, ok_bind, List.all_cons]
      by_cases hle : a ≤ tol
      · rw [decide_eq_true hle, Bool.true_and]
        exact ih
      · rw [decide_eq_false hle, Bool.false_and]
        rfl

/-! ## The worst of them -/

section Worst

variable {c : K}

theorem Scalar.isNaN_greatestAbs {r : List K} (h : ∃ a ∈ r, isNaN (abs a) = true) :
    isNaN (greatestAbs r) = true := by
  obtain ⟨a, ha, hnan⟩ := h
  have hmem : abs a ∈ r.map abs := List.mem_map_of_mem ha
  unfold greatestAbs
  split
  · rename_i hnil
    rw [hnil] at hmem
    cases hmem
  · rename_i b l hcons
    exact isNaN_greatestFrom ⟨abs a, hcons ▸ hmem, hnan⟩

/-- Without NaN the greatest absolute entry is one of them and bounds all. -/
theorem Scalar.greatestAbs_of_numbers (hK : OrderLaws K) {r : List K} (hne : r ≠ [])
    (h : ∀ a ∈ r, isNaN (abs a) = false) :
    (∃ a ∈ r, abs a = greatestAbs r) ∧ ∀ c, greatestAbs r ≤ c ↔ ∀ a ∈ r, abs a ≤ c := by
  cases r with
  | nil => exact absurd rfl hne
  | cons a l =>
      have hnumbers : ∀ b ∈ (a :: l).map abs, isNaN b = false := List.forall_mem_map.2 h
      have heq : greatestAbs (a :: l) = (l.map abs).foldl larger (abs a) :=
        hK.greatestFrom_eq_foldl hnumbers
      refine ⟨?_, fun c => ?_⟩
      · have hmem : greatestAbs (a :: l) ∈ (a :: l).map abs := heq ▸ foldl_larger_mem ..
        exact List.mem_map.1 hmem
      · rw [heq, hK.foldl_larger_le_iff hnumbers]
        exact List.forall_mem_map (l := a :: l)

theorem Equality.isNaN_worst_iff (hK : Scalar.OrderLaws K) {residuals : List (List K)}
    (hne : ∀ r ∈ residuals, r ≠ []) : Scalar.isNaN (worst residuals) = true ↔
      ∃ r ∈ residuals.head?, ∃ a ∈ r, Scalar.isNaN (Scalar.abs a) = true := by
  cases residuals with
  | nil => simp [worst, hK.zero]
  | cons r rest =>
      have hnan : Scalar.isNaN (worst (r :: rest)) = Scalar.isNaN (Scalar.greatestAbs r) :=
        hK.isNaN_foldl_larger ..
      simp only [hnan, List.head?_cons, Option.mem_def, Option.some.injEq, exists_eq_left']
      constructor
      · intro h
        by_contra hnumbers
        have hall : ∀ a ∈ r, Scalar.isNaN (Scalar.abs a) = false := by simpa using hnumbers
        obtain ⟨⟨a, ha, heq⟩, _⟩ := Scalar.greatestAbs_of_numbers hK (hne r (.head _)) hall
        rw [← heq, hall a ha] at h
        cases h
      · exact Scalar.isNaN_greatestAbs

theorem Equality.isNaN_worst_of_numbers (hK : Scalar.OrderLaws K) {residuals : List (List K)}
    (hne : ∀ r ∈ residuals, r ≠ [])
    (h : ∀ a ∈ residuals.flatten, Scalar.isNaN (Scalar.abs a) = false) :
    Scalar.isNaN (worst residuals) = false := by
  by_contra hnan
  obtain ⟨r, hr, a, ha, hnan⟩ := (isNaN_worst_iff hK hne).1 (Bool.of_not_eq_false hnan)
  rw [h a (List.mem_flatten_of_mem (List.mem_of_mem_head? hr) ha)] at hnan
  cases hnan

/-- Without NaN the worst violation of equalities is one of them and bounds all. -/
theorem Equality.worst_of_numbers (hK : Scalar.OrderLaws K) {residuals : List (List K)}
    (hne : ∀ r ∈ residuals, r ≠ [])
    (h : ∀ a ∈ residuals.flatten, Scalar.isNaN (Scalar.abs a) = false) :
    (worst residuals = 0 ∨ ∃ a ∈ residuals.flatten, Scalar.abs a = worst residuals) ∧
      ∀ c : K, 0 ≤ c → (worst residuals ≤ c ↔ ∀ a ∈ residuals.flatten, Scalar.abs a ≤ c) := by
  have hspec : ∀ r ∈ residuals, (∃ a ∈ r, Scalar.abs a = Scalar.greatestAbs r) ∧
      ∀ c, Scalar.greatestAbs r ≤ c ↔ ∀ a ∈ r, Scalar.abs a ≤ c := fun r hr =>
    Scalar.greatestAbs_of_numbers hK (hne r hr) fun a ha => h a (List.mem_flatten_of_mem hr ha)
  cases residuals with
  | nil => exact ⟨.inl rfl, fun c hc => by simpa [worst] using hc⟩
  | cons r rest =>
      have hnumbers : ∀ b ∈ (r :: rest).map Scalar.greatestAbs, Scalar.isNaN b = false := by
        refine List.forall_mem_map.2 fun q hq => ?_
        obtain ⟨⟨a, ha, heq⟩, _⟩ := hspec q hq
        rw [← heq]
        exact h a (List.mem_flatten_of_mem hq ha)
      refine ⟨.inr ?_, fun c _ => ?_⟩
      · have hmem : worst (r :: rest) ∈ (r :: rest).map Scalar.greatestAbs :=
          Scalar.foldl_larger_mem ..
        obtain ⟨q, hq, hworst⟩ := List.mem_map.1 hmem
        obtain ⟨⟨a, ha, heq⟩, _⟩ := hspec q hq
        exact ⟨a, List.mem_flatten_of_mem hq ha, heq.trans hworst⟩
      · have hle : worst (r :: rest) ≤ c ↔ ∀ b ∈ (r :: rest).map Scalar.greatestAbs, b ≤ c :=
          hK.foldl_larger_le_iff hnumbers
        rw [hle, List.forall_mem_map]
        constructor
        · intro hall a ha
          obtain ⟨q, hq, ha⟩ := List.mem_flatten.1 ha
          exact ((hspec q hq).2 c).1 (hall q hq) a ha
        · intro hall q hq
          exact ((hspec q hq).2 c).2 fun a ha => hall a (List.mem_flatten_of_mem hq ha)

theorem Solver.worst_of_isNaN (hK : Scalar.OrderLaws K) (v : K) {excesses : List K}
    (h : ∃ a ∈ excesses, Scalar.isNaN a = true) : worst v excesses = v := by
  obtain ⟨a, ha, hnan⟩ := h
  have hlarger : Scalar.isNaN (Scalar.larger a 0) = true := (hK.isNaN_larger a 0).trans hnan
  exact hK.larger_of_isNaN_right (Scalar.isNaN_greatestFrom
    ⟨_, .tail _ (List.mem_map_of_mem (f := (Scalar.larger · 0)) ha), hlarger⟩)

/-- Without NaN among the excesses the worst violation is one of all and bounds all. -/
theorem Solver.worst_of_numbers (hK : Scalar.OrderLaws K) {v : K} {excesses : List K}
    (hv : Scalar.isNaN v = false) (h : ∀ a ∈ excesses, Scalar.isNaN a = false) :
    (worst v excesses = v ∨ worst v excesses = 0 ∨ worst v excesses ∈ excesses) ∧
      ∀ c : K, 0 ≤ c → (worst v excesses ≤ c ↔ v ≤ c ∧ ∀ a ∈ excesses, a ≤ c) := by
  have hnumbers : ∀ b ∈ 0 :: excesses.map (Scalar.larger · 0), Scalar.isNaN b = false :=
    List.forall_mem_cons.2 ⟨hK.zero, List.forall_mem_map.2 fun a ha =>
      (hK.isNaN_larger a 0).trans (h a ha)⟩
  have hgreatest := hK.greatestFrom_eq_foldl hnumbers
  have hmem : Scalar.greatestFrom 0 (excesses.map (Scalar.larger · 0)) ∈
      0 :: excesses.map (Scalar.larger · 0) := hgreatest ▸ Scalar.foldl_larger_mem ..
  refine ⟨?_, fun c hc => ?_⟩
  · rcases Scalar.larger_eq_or v _ with hworst | hworst
    · exact .inl hworst
    · rw [worst, hworst]
      rcases List.mem_cons.1 hmem with hzero | hmem
      · exact .inr (.inl hzero)
      · obtain ⟨a, ha, heq⟩ := List.mem_map.1 hmem
        rw [← heq]
        rcases Scalar.larger_eq_or a 0 with hlarger | hlarger
        · exact .inr (.inr (hlarger.symm ▸ ha))
        · exact .inr (.inl hlarger)
  · rw [worst, hK.larger_le_iff hv (hnumbers _ hmem), hgreatest, hK.foldl_larger_le_iff hnumbers,
      List.forall_mem_cons, and_iff_right hc, List.forall_mem_map]
    refine and_congr_right fun _ => forall₂_congr fun a ha => ?_
    rw [hK.larger_le_iff (h a ha) hK.zero, and_iff_left hc]

end Worst

/-! ## The two tests -/

section Tests

variable {settings : Settings K} {p : Problem K} {s : Solver K} {x : Point K} {v : K}
  {excesses : List K}

theorem Problem.isFeasible_eq (hv : Equality.violation p.equalities x = .ok v)
    (hex : p.inequalities.mapM (fun f => f.excess x) = .ok excesses) (tol : K) :
    p.isFeasible x tol = .ok (decide (v ≤ tol) && excesses.all (· ≤ tol)) := by
  rw [isFeasible, hv, ok_bind, Inequality.allSatisfied_eq hex]
  by_cases h : v ≤ tol
  · rw [if_pos h, decide_eq_true h, Bool.true_and]
  · rw [if_neg h, decide_eq_false h, Bool.false_and]
    rfl

theorem Solver.checkFeasibility_eq (hs : s.Copies settings p)
    (hv : Equality.violation p.equalities x = .ok v)
    (hex : p.inequalities.mapM (fun f => f.excess x) = .ok excesses) :
    s.checkFeasibility x = if settings.feasibilityTolerance < worst v excesses then
      .error (.infeasibleStart (worst v excesses)) else .ok () := by
  have hviolations : Inequality.violations p.inequalities x =
      .ok (excesses.map (Scalar.larger · 0)) := by
    rw [Inequality.violations, mapM_eq_ok, List.forall₂_map_right_iff]
    refine (mapM_eq_ok.1 hex).imp fun f a ha => ?_
    rw [ha]
    rfl
  have hlargest : s.largestViolation x = .ok (worst v excesses) := by
    rw [largestViolation, hs.equalities_eq, hs.inequalities_eq, hv, ok_bind, hviolations]
    rfl
  rw [checkFeasibility, hlargest, ok_bind, hs.settings_eq]
  split <;> rfl

theorem Solver.checkFeasibility_ok_iff (hs : s.Copies settings p)
    (hv : Equality.violation p.equalities x = .ok v)
    (hex : p.inequalities.mapM (fun f => f.excess x) = .ok excesses) :
    s.checkFeasibility x = .ok () ↔ ¬settings.feasibilityTolerance < worst v excesses := by
  rw [checkFeasibility_eq hs hv hex]
  split <;> simp [*]

theorem Problem.isFeasible_iff (hv : Equality.violation p.equalities x = .ok v)
    (hex : p.inequalities.mapM (fun f => f.excess x) = .ok excesses) (tol : K) :
    (p.isFeasible x tol = .ok true ↔ v ≤ tol ∧ ∀ a ∈ excesses, a ≤ tol) ∧
      (p.isFeasible x tol = .ok false ↔ ¬(v ≤ tol ∧ ∀ a ∈ excesses, a ≤ tol)) := by
  have hdecides : (decide (v ≤ tol) && excesses.all (· ≤ tol)) = true ↔
      v ≤ tol ∧ ∀ a ∈ excesses, a ≤ tol := by simp
  rw [isFeasible_eq hv hex, ← hdecides]
  cases decide (v ≤ tol) && excesses.all (· ≤ tol) <;> simp

/-- Where nothing measures a NaN the solver accepts what the program accepts. -/
theorem Solver.not_lt_worst_iff (hK : Scalar.OrderLaws K) (hv : Scalar.isNaN v = false)
    (hex : ∀ a ∈ excesses, Scalar.isNaN a = false) {tol : K} (htol : 0 < tol) :
    ¬tol < worst v excesses ↔ v ≤ tol ∧ ∀ a ∈ excesses, a ≤ tol := by
  rw [← (worst_of_numbers hK hv hex).2 tol (hK.le_of_lt htol), hK.le_iff]
  have hworst : Scalar.isNaN (worst v excesses) = false := (hK.isNaN_larger v _).trans hv
  rw [and_iff_right hworst, and_iff_right (hK.lt_number _ _ htol).2]

theorem Solver.tests_differ_iff (hK : Scalar.OrderLaws K) {tol : K} (htol : 0 < tol) :
    (¬tol < worst v excesses ∧ ¬(v ≤ tol ∧ ∀ a ∈ excesses, a ≤ tol)) ↔
      Scalar.isNaN v = true ∨ v ≤ tol ∧ ∃ a ∈ excesses, Scalar.isNaN a = true := by
  by_cases hnan : ∃ a ∈ excesses, Scalar.isNaN a = true
  -- The NaN wins over the other excesses and is then passed over, so that the equalities decide.
  · rw [worst_of_isNaN hK v hnan, and_iff_left hnan, and_iff_left]
    · cases hv : Scalar.isNaN v with
      | true => simp [hK.not_lt_of_isNaN_right hv]
      | false => simp [hK.le_iff, hv, (hK.lt_number _ _ htol).2]
    · obtain ⟨a, ha, hnan⟩ := hnan
      exact fun hall => hK.not_le_of_isNaN_left hnan (hall.2 a ha)
  · have hex : ∀ a ∈ excesses, Scalar.isNaN a = false := by simpa using hnan
    rw [iff_false_intro hnan, and_false, or_false]
    cases hv : Scalar.isNaN v with
    | true =>
        have hworst : Scalar.isNaN (worst v excesses) = true := (hK.isNaN_larger v _).trans hv
        simp [hK.not_lt_of_isNaN_right hworst, hK.not_le_of_isNaN_left hv]
    | false => simp [not_lt_worst_iff hK hv hex htol]

/-- A violation above the tolerance is what some constraint measures, and the most that one does. -/
theorem Solver.worst_mem (hK : Scalar.OrderLaws K) {residuals : List (List K)}
    (hne : ∀ r ∈ residuals, r ≠ [])
    (h : ∀ a ∈ residuals.flatten.map Scalar.abs ++ excesses, Scalar.isNaN a = false) {tol : K}
    (htol : 0 < tol) (hlt : tol < worst (Equality.worst residuals) excesses) :
    let w := worst (Equality.worst residuals) excesses
    w ∈ residuals.flatten.map Scalar.abs ++ excesses ∧
      ∀ a ∈ residuals.flatten.map Scalar.abs ++ excesses, a ≤ w := by
  obtain ⟨hres, hex⟩ := List.forall_mem_append.1 h
  rw [List.forall_mem_map] at hres
  obtain ⟨hmemv, hlev⟩ := Equality.worst_of_numbers hK hne hres
  obtain ⟨hmem, hle⟩ := worst_of_numbers hK (Equality.isNaN_worst_of_numbers hK hne hres) hex
  have hpos : (0 : K) ≤ worst (Equality.worst residuals) excesses :=
    hK.le_trans _ _ _ (hK.le_of_lt htol) (hK.le_of_lt hlt)
  have hzero : worst (Equality.worst residuals) excesses ≠ 0 := fun h0 =>
    hK.lt_asymm _ _ htol (h0 ▸ hlt)
  refine ⟨List.mem_append.2 ?_, List.forall_mem_append.2 ?_⟩
  · rcases hmem with heqv | h0 | hmem
    · rcases hmemv with h0 | ⟨a, ha, heq⟩
      · exact absurd (heqv.trans h0) hzero
      · exact .inl (List.mem_map.2 ⟨a, ha, heq.trans heqv.symm⟩)
    · exact absurd h0 hzero
    · exact .inr hmem
  · obtain ⟨hvle, hexle⟩ := (hle _ hpos).1 (hK.le_refl ((hK.lt_number _ _ hlt).2))
    exact ⟨List.forall_mem_map.2 ((hlev _ hpos).1 hvle), hexle⟩

theorem Solver.isFeasible_of_refused (hK : Scalar.OrderLaws K) (hs : s.Copies settings p)
    (htol : 0 < settings.feasibilityTolerance) (hv : Equality.violation p.equalities x = .ok v)
    (hex : p.inequalities.mapM (fun f => f.excess x) = .ok excesses) {fault : Fault K}
    (h : s.checkFeasibility x = .error fault) :
    p.isFeasible x settings.feasibilityTolerance = .ok false := by
  refine (Problem.isFeasible_iff hv hex _).2.2 fun hall => ?_
  have hnumber : ∀ a : K, a ≤ settings.feasibilityTolerance → Scalar.isNaN a = false :=
    fun a ha => ((hK.le_iff _ _).1 ha).1
  have haccepts := (not_lt_worst_iff hK (hnumber _ hall.1) (fun a ha => hnumber a (hall.2 a ha))
    htol).2 hall
  rw [(checkFeasibility_ok_iff hs hv hex).2 haccepts] at h
  cases h

/-- Where no constraint measures a NaN the tests agree, and a refusal carries the most that one does. -/
theorem Solver.tests_agree (hK : Scalar.OrderLaws K) (hs : s.Copies settings p)
    (htol : 0 < settings.feasibilityTolerance) {residuals : List (List K)}
    (hne : ∀ r ∈ residuals, r ≠ [])
    (hv : Equality.violation p.equalities x = .ok (Equality.worst residuals))
    (hex : p.inequalities.mapM (fun f => f.excess x) = .ok excesses)
    (h : ∀ a ∈ residuals.flatten.map Scalar.abs ++ excesses, Scalar.isNaN a = false) :
    s.checkFeasibility x = .ok () ∧ p.isFeasible x settings.feasibilityTolerance = .ok true ∨
      ∃ w ∈ residuals.flatten.map Scalar.abs ++ excesses,
        (∀ a ∈ residuals.flatten.map Scalar.abs ++ excesses, a ≤ w) ∧
        s.checkFeasibility x = .error (.infeasibleStart w) ∧
        p.isFeasible x settings.feasibilityTolerance = .ok false ∧
        ∀ tol, 0 < tol → (p.isFeasible x tol = .ok true ↔ w ≤ tol) ∧
          ((s.withTolerance tol).checkFeasibility x = .ok () ↔ w ≤ tol) := by
  obtain ⟨hres, hexcesses⟩ := List.forall_mem_append.1 h
  have hnumber := Equality.isNaN_worst_of_numbers hK hne (List.forall_mem_map.1 hres)
  have haccepts : ∀ tol : K, 0 < tol → (¬tol < worst (Equality.worst residuals) excesses ↔
      Equality.worst residuals ≤ tol ∧ ∀ a ∈ excesses, a ≤ tol) :=
    fun _ htol => not_lt_worst_iff hK hnumber hexcesses htol
  by_cases hlt : settings.feasibilityTolerance < worst (Equality.worst residuals) excesses
  · have hcheck := (checkFeasibility_eq hs hv hex).trans (if_pos hlt)
    obtain ⟨hmem, hmax⟩ := worst_mem hK hne h htol hlt
    refine .inr ⟨_, hmem, hmax, hcheck, isFeasible_of_refused hK hs htol hv hex hcheck,
      fun tol htol' => ?_⟩
    have hle := (worst_of_numbers hK hnumber hexcesses).2 tol (hK.le_of_lt htol')
    rw [(Problem.isFeasible_iff hv hex tol).1,
      checkFeasibility_ok_iff (hs.withTolerance tol) hv hex, hle]
    exact ⟨Iff.rfl, haccepts tol htol'⟩
  · refine .inl ⟨(checkFeasibility_ok_iff hs hv hex).2 hlt, ?_⟩
    exact (Problem.isFeasible_iff hv hex _).1.2 ((haccepts _ htol).1 hlt)

/--
The solver accepts what its program does not exactly if the first equality measures a NaN, or if an
inequality does and no equality is violated; it never refuses what the program accepts. Without NaN the
tests agree, and a refusal carries the largest of all absolute residuals and excesses, the least
tolerance with which both tests accept the point.
-/
theorem Solver.checkFeasibility_agrees (hK : Scalar.OrderLaws K)
    (hs : ofProblem settings p = .ok s) (hrows : ∀ f ∈ p.equalities, f.toFactor.rows ≠ 0)
    (hx : p.Conformable x) (htol : 0 < settings.feasibilityTolerance) :
    ∃ residuals excesses v, p.equalities.mapM (fun f => f.toFactor.residual x) = .ok residuals ∧
      p.inequalities.mapM (fun f => f.excess x) = .ok excesses ∧
      Equality.violation p.equalities x = .ok v ∧
      (s.checkFeasibility x = .ok () ∧
          p.isFeasible x settings.feasibilityTolerance = .ok false ↔
        (∃ r ∈ residuals.head?, ∃ a ∈ r, Scalar.isNaN (Scalar.abs a) = true) ∨
          v ≤ settings.feasibilityTolerance ∧ ∃ a ∈ excesses, Scalar.isNaN a = true) ∧
      (∀ fault, s.checkFeasibility x = .error fault →
        p.isFeasible x settings.feasibilityTolerance = .ok false) ∧
      let misses := residuals.flatten.map Scalar.abs ++ excesses
      (∀ a ∈ misses, Scalar.isNaN a = false) →
        s.checkFeasibility x = .ok () ∧
            p.isFeasible x settings.feasibilityTolerance = .ok true ∨
          ∃ w ∈ misses, (∀ a ∈ misses, a ≤ w) ∧
            s.checkFeasibility x = .error (.infeasibleStart w) ∧
            p.isFeasible x settings.feasibilityTolerance = .ok false ∧
            ∀ tol, 0 < tol → (p.isFeasible x tol = .ok true ↔ w ≤ tol) ∧
              ((s.withTolerance tol).checkFeasibility x = .ok () ↔ w ≤ tol) := by
  have hcopies := copies_ofProblem hs
  obtain ⟨residuals, hres⟩ := mapM_ok fun f hf => (Factor.residual_ok (hx.equalities f hf)).imp
    fun _ h => h.1
  obtain ⟨excesses, hex⟩ := mapM_ok fun f hf => Inequality.excess_ok (hx.inequalities f hf)
  have hne : ∀ r ∈ residuals, r ≠ [] := by
    rintro r hr rfl
    obtain ⟨f, hf, hresidual⟩ := exists_of_mem_right (mapM_eq_ok.1 hres) hr
    obtain ⟨r, hr, hlength⟩ := Factor.residual_ok (hx.equalities f hf)
    obtain rfl := Except.ok.inj (hresidual.symm.trans hr)
    exact hrows f hf hlength.symm
  have hv := Equality.violation_eq hres hne
  refine ⟨residuals, excesses, _, hres, hex, hv, ?_, fun _ hrefused => ?_, fun hnumbers => ?_⟩
  · rw [checkFeasibility_ok_iff hcopies hv hex, (Problem.isFeasible_iff hv hex _).2,
      tests_differ_iff hK htol, Equality.isNaN_worst_iff hK hne]
  · exact isFeasible_of_refused hK hcopies htol hv hex hrefused
  · exact tests_agree hK hcopies htol hne hv hex hnumbers

end Tests

namespace Overflow

def settings : Settings Float where
  maxIterations := 1000
  tolerance := 1e-7
  activeTolerance := 1e-7
  feasibilityTolerance := 1e-6
  detectCycling := true
  checkFeasibility := true
  verbose := false

/-- The inequalities `10³⁰⁸ x - 10³⁰⁸ y ≤ 0` and `x ≤ 5`. -/
def problem : Problem Float :=
  .make (.quadratic []) []
    [{ terms := Keyed.ofList [(.text "x", [1e308]), (.text "y", [-1e308])], bound := 0
       dual := .dual "ineq" 0 },
      { terms := Keyed.ofList [(.text "x", [1])], bound := 5, dual := .dual "ineq" 1 }]

def atFirst : Point Float := Keyed.ofList [(.text "x", [10])]

def atBoth : Point Float := Keyed.ofList [(.text "x", [10]), (.text "y", [10])]

theorem conformable {x : Point Float} (h : ∀ e ∈ x.entries, e.2.length = 1) :
    problem.Conformable x := by
  have hrows : ∀ f ∈ problem.inequalities, ∀ e ∈ f.terms.entries, e.2.length = 1 := by decide
  refine ⟨List.forall_mem_nil _, fun f hf e he v hv => ?_⟩
  exact (h _ ((Keyed.lookup_iff x).1 hv)).trans (hrows f hf e he).symm

/-- Without the second variable the product of the first inequality is infinite, and no NaN. -/
theorem checkFeasibility_agrees_infinite : Scalar.OrderLaws Float ∧
    ∃ s, Solver.ofProblem settings problem = .ok s ∧
      (∀ f ∈ problem.equalities, f.toFactor.rows ≠ 0) ∧ problem.Conformable atFirst ∧
      0 < settings.feasibilityTolerance ∧
      s.checkFeasibility atFirst = .error (.infeasibleStart (0 + (0 + 1e308 * 10) - 0)) ∧
      problem.isFeasible atFirst settings.feasibilityTolerance = .ok false ∧
      problem.isFeasible atFirst (1e308 * 10) = .ok true := by
  obtain ⟨s, hs⟩ : ∃ s, Solver.ofProblem settings problem = .ok s := ⟨_, rfl⟩
  have hrows : ∀ f ∈ problem.equalities, f.toFactor.rows ≠ 0 := List.forall_mem_nil _
  have hx : problem.Conformable atFirst := conformable (by decide)
  have htol : 0 < settings.feasibilityTolerance := by decide +kernel
  obtain ⟨residuals, excesses, v, hres, hex, hv, _, _, hagree⟩ :=
    Solver.checkFeasibility_agrees Scalar.orderLaws_float hs hrows hx htol
  obtain rfl := Except.ok.inj hres
  obtain rfl : [0 + (0 + 1e308 * 10) - 0, 0 + (0 + 1 * 10) - 5] = excesses := Except.ok.inj hex
  refine ⟨Scalar.orderLaws_float, s, hs, hrows, hx, htol, ?_⟩
  rcases hagree (by decide +kernel) with ⟨_, haccepts⟩ | ⟨w, hw, hmax, hcheck, hrefuses, hleast⟩
  · have hle := ((Problem.isFeasible_iff hv hex _).1.1 haccepts).2 _ (.head _)
    exact absurd hle (by decide +kernel)
  · rcases List.mem_pair.1 hw with rfl | rfl
    · refine ⟨hcheck, hrefuses, (hleast _ ?_).1.2 ?_⟩ <;> decide +kernel
    · exact absurd (hmax _ (.head _)) (by decide +kernel)

/-- Both products of the first inequality overflow, and their sum hides that the second is violated. -/
theorem checkFeasibility_overflow : ∃ s, Solver.ofProblem settings problem = .ok s ∧
    problem.Conformable atBoth ∧ (∀ e ∈ atBoth.entries, ∀ a ∈ e.2, Scalar.isFinite a = true) ∧
    0 < settings.feasibilityTolerance ∧ s.checkFeasibility atBoth = .ok () ∧
    problem.isFeasible atBoth settings.feasibilityTolerance = .ok false := by
  obtain ⟨s, hs⟩ : ∃ s, Solver.ofProblem settings problem = .ok s := ⟨_, rfl⟩
  have hv : Equality.violation problem.equalities atBoth = .ok 0 := rfl
  have hex : problem.inequalities.mapM (fun f => f.excess atBoth) =
      .ok [0 + (0 + 1e308 * 10) + (0 + -1e308 * 10) - 0, 0 + (0 + 1 * 10) - 5] := rfl
  refine ⟨s, hs, conformable (by decide), ?_, ?_, ?_, ?_⟩
  · decide +kernel
  · decide +kernel
  · refine (Solver.checkFeasibility_ok_iff (Solver.copies_ofProblem hs) hv hex).2 ?_
    decide +kernel
  · refine (Problem.isFeasible_iff hv hex _).2.2 ?_
    decide +kernel

end Overflow

end ActiveSet
